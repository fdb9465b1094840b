import Mathlib.Tactic.IntervalCases
import Paro.Core.MapM

/-!
# Calendar dates (function/src/scalar/cast/date_casts.rs)

A date is a number of days from 1970-01-01. `La-b` are lines of `date_casts.rs`.

Main result: `calendar_iff`. The dates are the days of the calendar, and months are added as it says unless they lead to
the day that stands for an infinity; it is also said exactly when the sum of a date and an interval is right.
-/
namespace Paro.L1.Calendar

structure Ymd where
  (year month day : Int)
  deriving DecidableEq

/-- L29-31 -/
def isLeapYear (year : Int) : Prop := year % 4 = 0 ∧ year % 100 ≠ 0 ∨ year % 400 = 0

instance isLeapYear.decidable : DecidablePred isLeapYear := fun _ => inferInstanceAs (Decidable (_ ∨ _))

/-- L25-26, L33-39 -/
def daysInMonth (year month : Int) : Int :=
  if isLeapYear year ∧ month = 2 then 29
  else [31, 28, 31, 30, 31, 30, 31, 31, 30, 31, 30, 31].getD (month - 1).toNat 0

/-- Division that rounds down, as the source writes it with division towards zero. -/
def floorDiv (a n : Int) : Int := if 0 ≤ a then a.tdiv n else (a - (n - 1)).tdiv n

/-- L43-67 -/
def daysToYmd (days : Int) : Ymd :=
  let z := days + 719468
  let era := floorDiv z 146097
  let doe := z - era * 146097
  let yoe := (doe - doe / 1460 + doe / 36524 - doe / 146096) / 365
  let y := yoe + era * 400
  let doy := doe - (365 * yoe + yoe / 4 - yoe / 100)
  let mp := (5 * doy + 2) / 153
  let d := doy - (153 * mp + 2) / 5 + 1
  let m := if mp < 10 then mp + 3 else mp - 9
  ⟨if m ≤ 2 then y + 1 else y, m, d⟩

/-- L70-95 -/
def ymdToDays (c : Ymd) : Int :=
  if ¬(1 ≤ c.month ∧ c.month ≤ 12) ∨ ¬(1 ≤ c.day ∧ c.day ≤ 31) then 0
  else
    let y := if c.month ≤ 2 then c.year - 1 else c.year
    let m := if c.month ≤ 2 then c.month + 9 else c.month - 3
    let era := floorDiv y 400
    let yoe := y - era * 400
    let doy := (153 * m + 2) / 5 + c.day - 1
    let doe := yoe * 365 + yoe / 4 - yoe / 100 + doy
    era * 146097 + doe - 719468

theorem floorDiv_eq (a : Int) {n : Int} (hn : 0 < n) : floorDiv a n = a / n := by
  unfold floorDiv
  split
  · exact Int.tdiv_eq_ediv_of_nonneg ‹_›
  · rw [show a - (n - 1) = -(n - 1 - a) by omega, Int.neg_tdiv, Int.tdiv_eq_ediv_of_nonneg (by omega)]
    have hsplit := Int.mul_ediv_add_emod a n
    have hnonneg := Int.emod_nonneg a hn.ne'
    have hlt := Int.emod_lt_of_pos a hn
    have : (n - 1 - a) / n = -(a / n) := by
      rw [Int.ediv_eq_iff_of_pos hn, neg_mul, mul_comm]
      omega
    omega

theorem floorDiv_400 (a : Int) : floorDiv a 400 = a / 400 := floorDiv_eq a (by decide)

namespace Ymd

/-- A day of the proleptic Gregorian calendar. -/
def Valid (c : Ymd) : Prop := 1 ≤ c.month ∧ c.month ≤ 12 ∧ 1 ≤ c.day ∧ c.day ≤ daysInMonth c.year c.month

/-- The day after. -/
def next (c : Ymd) : Ymd :=
  if c.day < daysInMonth c.year c.month then { c with day := c.day + 1 }
  else if c.month < 12 then ⟨c.year, c.month + 1, 1⟩
  else ⟨c.year + 1, 1, 1⟩

end Ymd

/-! ## Years from March -/

/-- The first of March of a year, in days since that of the year 0. -/
def march (y : Int) : Int := 365 * y + y / 4 - y / 100 + y / 400

/-- A day of the year that starts in March, whose last day is a leap day. -/
def InYear (y doy : Int) : Prop := 0 ≤ doy ∧ (doy < 365 ∨ doy = 365 ∧ isLeapYear (y + 1))

def ofMarch (y doy : Int) : Ymd :=
  let mp := (5 * doy + 2) / 153
  let m := if mp < 10 then mp + 3 else mp - 9
  ⟨if m ≤ 2 then y + 1 else y, m, doy - (153 * mp + 2) / 5 + 1⟩

/-- The estimate of the year of an era, of century `g`, four years `k` and year `r`, is exact. -/
theorem yoe_eq {doe g k r doy : Int} (he : doe = 36524 * g + 1461 * k + 365 * r + doy) (hg : 0 ≤ g ∧ g ≤ 3)
    (hk : 0 ≤ k ∧ k ≤ 24) (hr : 0 ≤ r ∧ r ≤ 3) (hd : 0 ≤ doy)
    (hd' : doy < 365 ∨ doy = 365 ∧ r = 3 ∧ (k < 24 ∨ g = 3)) :
    (doe - doe / 1460 + doe / 36524 - doe / 146096) / 365 = 100 * g + 4 * k + r := by
  have hcentury : doe / 36524 - doe / 146096 = g := by
    by_cases hlast : doe = 146096
    · subst hlast; omega
    · have : doe / 36524 = g := by omega
      have : doe / 146096 = 0 := by omega
      omega
  obtain ⟨t, hleap, ht, ht'⟩ : ∃ t, doe / 1460 = 25 * g + k + t ∧ 0 ≤ doy - t ∧ doy - t < 365 := by
    by_cases ht : 24 * g + k + 365 * r + doy < 1460
    · exact ⟨0, by omega, by omega, by omega⟩
    · exact ⟨1, by omega, by omega, by omega⟩
  rw [add_sub_assoc, hcentury, hleap]
  omega

theorem daysToYmd_march {y doy : Int} (h : InYear y doy) : daysToYmd (march y + doy - 719468) = ofMarch y doy := by
  obtain ⟨hd, hd'⟩ := h
  obtain ⟨q, yoe, g, k, r, rfl, hyoe, hg, hk, hr⟩ : ∃ q yoe g k r, y = yoe + q * 400 ∧
      100 * g + 4 * k + r = yoe ∧ (0 ≤ g ∧ g ≤ 3) ∧ (0 ≤ k ∧ k ≤ 24) ∧ 0 ≤ r ∧ r ≤ 3 :=
    ⟨y / 400, y % 400, y % 400 / 100, y % 100 / 4, y % 4, by omega⟩
  obtain ⟨doe, he⟩ : ∃ doe, doe = 36524 * g + 1461 * k + 365 * r + doy := ⟨_, rfl⟩
  have hdoy : doe - (365 * yoe + yoe / 4 - yoe / 100) = doy := by omega
  have hlast : doy < 365 ∨ doy = 365 ∧ r = 3 ∧ (k < 24 ∨ g = 3) := by
    unfold isLeapYear at hd'
    omega
  have hz : march (yoe + q * 400) + doy - 719468 + 719468 = 146097 * q + doe := by
    unfold march
    omega
  have hera : (146097 * q + doe) / 146097 = q := by omega
  have hdoe : 146097 * q + doe - q * 146097 = doe := by omega
  simp only [daysToYmd, floorDiv_eq _ (show (0 : Int) < 146097 by decide), hz, hera, hdoe,
    yoe_eq he hg hk hr hd hlast, hyoe, hdoy, ofMarch]

variable {c : Ymd}

theorem Ymd.Valid.eq_ofMarch (h : c.Valid) :
    ∃ y doy, c = ofMarch y doy ∧ InYear y doy ∧ ymdToDays c = march y + doy - 719468 := by
  obtain ⟨y, m, d⟩ := c
  obtain ⟨h1, h2, h3, h4⟩ := h
  dsimp only at h1 h2 h3 h4
  refine ⟨if m ≤ 2 then y - 1 else y, (153 * (if m ≤ 2 then m + 9 else m - 3) + 2) / 5 + d - 1, ?_⟩
  simp only [ofMarch, Ymd.mk.injEq, InYear, ymdToDays, floorDiv_400, march]
  interval_cases m <;> simp [daysInMonth, isLeapYear] at h4 ⊢ <;> omega

theorem daysToYmd_ymdToDays (h : c.Valid) : daysToYmd (ymdToDays c) = c := by
  obtain ⟨y, doy, hc, hin, he⟩ := h.eq_ofMarch
  rw [he, daysToYmd_march hin, hc]

theorem next_spec (h : c.Valid) : c.next.Valid ∧ ymdToDays c.next = ymdToDays c + 1 := by
  obtain ⟨y, m, d⟩ := c
  obtain ⟨h1, h2, h3, h4⟩ := h
  dsimp only at h1 h2 h3 h4
  simp only [Ymd.next]
  by_cases hd : d < daysInMonth y m
  · rw [if_pos hd]
    simp only [Ymd.Valid, ymdToDays, floorDiv_400]
    interval_cases m <;> simp [daysInMonth, isLeapYear] at hd ⊢ <;> omega
  · rw [if_neg hd]
    obtain rfl : d = daysInMonth y m := by omega
    simp only [Ymd.Valid, ymdToDays, floorDiv_400]
    interval_cases m <;> simp [daysInMonth, isLeapYear] <;> omega

/-- The calendar repeats after 400 years. -/
theorem Ymd.Valid.add_eras (h : c.Valid) (k : Int) : Valid { c with year := c.year + 400 * k } ∧
      ymdToDays { c with year := c.year + 400 * k } = ymdToDays c + 146097 * k := by
  obtain ⟨y, m, d⟩ := c
  obtain ⟨h1, h2, h3, h4⟩ := h
  dsimp only at h1 h2 h3 h4
  simp only [Ymd.Valid, ymdToDays, floorDiv_400]
  interval_cases m <;> simp [daysInMonth, isLeapYear] at h4 ⊢ <;> omega

variable (n : Int)

theorem exists_ymdToDays : ∃ c : Ymd, c.Valid ∧ ymdToDays c = n := by
  have hnat : ∀ k : Nat, ∃ c : Ymd, c.Valid ∧ ymdToDays c = k := by
    intro k
    induction k with
    | zero => exact ⟨⟨1970, 1, 1⟩, ⟨by decide, by decide, by decide, by decide⟩, by decide⟩
    | succ k ih =>
      obtain ⟨c, hv, hc⟩ := ih
      obtain ⟨hv', hc'⟩ := next_spec hv
      exact ⟨c.next, hv', by omega⟩
  obtain ⟨c, hv, hc⟩ := hnat (n % 146097).toNat
  obtain ⟨hv', hc'⟩ := hv.add_eras (n / 146097)
  exact ⟨_, hv', by omega⟩

theorem daysToYmd_spec : (daysToYmd n).Valid ∧ ymdToDays (daysToYmd n) = n := by
  obtain ⟨c, hv, rfl⟩ := exists_ymdToDays n
  rw [daysToYmd_ymdToDays hv]
  exact ⟨hv, rfl⟩

/-- The day after that of a number is that of the next number. -/
theorem daysToYmd_succ : daysToYmd (n + 1) = (daysToYmd n).next := by
  obtain ⟨hv, hn⟩ := daysToYmd_spec n
  obtain ⟨hv', hnext⟩ := next_spec hv
  rw [hn] at hnext
  rw [← hnext, daysToYmd_ymdToDays hv']

/-! ## Arithmetic (`date_arithmetic.rs`) -/

variable (w : Nat) (v : Int)

/-- The values of a signed integer of `w` bits. -/
def Fits : Prop := -2 ^ (w - 1) ≤ v ∧ v < 2 ^ (w - 1)

instance Fits.decidable (w : Nat) : DecidablePred (Fits w) := fun _ => inferInstanceAs (Decidable (_ ∧ _))

def checked (message : String) : Except String Int := if Fits w v then .ok v else .error message

structure Interval where
  (months days micros : Int)

def microsPerDay : Int := 24 * 60 * 60 * 1000000

/-- The extreme values of `w` bits stand for the infinities. -/
def isInfinite : Prop := v = -2 ^ (w - 1) ∨ v = 2 ^ (w - 1) - 1

instance isInfinite.decidable (w : Nat) : DecidablePred (isInfinite w) := fun _ => inferInstanceAs (Decidable (_ ∨ _))

/-- date_arithmetic.rs:36-54 -/
def addMonthsToDate (date months : Int) : Except String Int :=
  if months = 0 ∨ isInfinite 32 date then .ok date
  else do
    let c := daysToYmd date
    let overflow := "DATE month arithmetic overflow"
    let index ← checked 64 (c.year * 12) overflow
    let index ← checked 64 (index + (c.month - 1)) overflow
    let index ← checked 64 (index + months) overflow
    let newYear ← checked 32 (index / 12) "DATE year out of range"
    let newMonth := index % 12 + 1
    let newDay := min c.day (daysInMonth newYear newMonth)
    checked 32 (ymdToDays ⟨newYear, newMonth, newDay⟩) "DATE out of range"

/-- date_arithmetic.rs:56-74 -/
def addIntervalToTimestamp (timestamp : Int) (interval : Interval) : Except String Int :=
  if isInfinite 64 timestamp then .ok timestamp
  else do
    let date ← checked 32 (timestamp / microsPerDay) "TIMESTAMP date out of range"
    let time := timestamp % microsPerDay
    let date ← addMonthsToDate date interval.months
    let date ← checked 32 (date + interval.days) "DATE day arithmetic overflow"
    let overflow := "TIMESTAMP arithmetic overflow"
    let value ← checked 64 (date * microsPerDay) overflow
    let value ← checked 64 (value + time) overflow
    checked 64 (value + interval.micros) overflow

variable (date : Int)

/-- date_arithmetic.rs:76-82; the product is not checked, and wraps in a release build. -/
def addIntervalToDate (interval : Interval) : Except String Int :=
  if date = 2 ^ 31 - 1 then .ok (2 ^ 63 - 1)
  else if date = -2 ^ 31 then .ok (-2 ^ 63)
  else addIntervalToTimestamp ((date * microsPerDay).bmod (2 ^ 64)) interval

/-- The same day of the month so many months later, or the last day of a shorter month. -/
def Ymd.plusMonths (c : Ymd) (months : Int) : Ymd :=
  let index := c.year * 12 + (c.month - 1) + months
  ⟨index / 12, index % 12 + 1, min c.day (daysInMonth (index / 12) (index % 12 + 1))⟩

/-- A value that `w` bits represent. The extreme ones are not such values: they stand for the infinities. -/
def Finite : Prop := Fits w v ∧ ¬isInfinite w v

instance Finite.decidable (w : Nat) : DecidablePred (Finite w) := fun _ => inferInstanceAs (Decidable (_ ∧ _))

/-- What a result must be: `v` where `w` bits represent it, and an error elsewhere. -/
def Returns (result : Except String Int) (v : Int) : Prop := ∀ r, result = .ok r ↔ Finite w v ∧ v = r

/-- The day that the months of an interval lead to. -/
def monthsLater (i : Interval) : Int := ymdToDays ((daysToYmd date).plusMonths i.months)

/-- The moment that an interval leads to from a date and a time of the day. -/
def exactSum (date time : Int) (i : Interval) : Int := (monthsLater date i + i.days) * microsPerDay + time + i.micros

/-- The values on the way to a sum, and the sum, pass the checks of the code. -/
def Representable (date time : Int) (i : Interval) : Prop :=
  Fits 32 (monthsLater date i) ∧ Fits 64 ((monthsLater date i + i.days) * microsPerDay) ∧
    Fits 64 ((monthsLater date i + i.days) * microsPerDay + time) ∧ Fits 64 (exactSum date time i)

/-- When the sum of a date and an interval is the calendar's. A date that has no timestamp is read
as the wrapped one. -/
def Summable (i : Interval) : Prop :=
  let t := (date * microsPerDay).bmod (2 ^ 64)
  if Fits 64 (date * microsPerDay) then Finite 64 (exactSum date 0 i) ↔ Representable date 0 i
  else ¬Finite 64 (exactSum date 0 i) ∧ ¬Representable (t / microsPerDay) (t % microsPerDay) i

variable {w : Nat} {date months v r : Int} {i : Interval} {message : String}

theorem checked_eq_ok : checked w v message = .ok r ↔ Fits w v ∧ v = r := by
  unfold checked
  split <;> simp [*]

theorem year_bounds (h : Fits 32 date) : -6000000 ≤ (daysToYmd date).year ∧ (daysToYmd date).year ≤ 6000000 := by
  obtain ⟨hv, hn⟩ := daysToYmd_spec date
  obtain ⟨y, doy, hc, hin, he⟩ := hv.eq_ofMarch
  unfold InYear at hin
  unfold march at he
  unfold Fits at h
  simp only [hc, ofMarch]
  split <;> omega

theorem plusMonths_zero (h : c.Valid) : c.plusMonths 0 = c := by
  obtain ⟨h1, h2, h3, h4⟩ := h
  have hy : (c.year * 12 + (c.month - 1) + 0) / 12 = c.year := by omega
  have hm : (c.year * 12 + (c.month - 1) + 0) % 12 + 1 = c.month := by omega
  simp only [Ymd.plusMonths, hy, hm, min_eq_left h4]

theorem addMonthsToDate_eq_ok (hd : Fits 32 date) (hi : ¬isInfinite 32 date) (hm : Fits 32 i.months) :
    addMonthsToDate date i.months = .ok r ↔ Fits 32 (monthsLater date i) ∧ monthsLater date i = r := by
  obtain ⟨hv, hn⟩ := daysToYmd_spec date
  unfold addMonthsToDate monthsLater
  by_cases h0 : i.months = 0
  · rw [if_pos (.inl h0), h0, plusMonths_zero hv, hn]
    simp [hd]
  · rw [if_neg (by simp [h0, hi])]
    have hy := year_bounds hd
    obtain ⟨h1, h2, -, -⟩ := hv
    generalize daysToYmd date = c at *
    have hfits : Fits 64 (c.year * 12) ∧ Fits 64 (c.year * 12 + (c.month - 1)) ∧
        Fits 64 (c.year * 12 + (c.month - 1) + i.months) ∧
        Fits 32 ((c.year * 12 + (c.month - 1) + i.months) / 12) := by
      unfold Fits at *
      omega
    simp only [bind_eq_ok, checked_eq_ok, and_assoc, exists_and_left, exists_eq_left', hfits, true_and]
    rfl

/-- A result that is `v` under a condition `P` is as it must be when `P` says that `v` is represented. -/
theorem returns_iff {result : Except String Int} {P : Prop} (h : ∀ r, result = .ok r ↔ P ∧ v = r) :
    Returns w result v ↔ (Finite w v ↔ P) := by
  simp only [Returns, h]
  exact ⟨fun hr => ⟨fun hv => ((hr v).2 ⟨hv, rfl⟩).1, fun hp => ((hr v).1 ⟨hp, rfl⟩).1⟩,
    fun hp r => and_congr_left fun _ => hp.symm⟩

theorem addMonthsToDate_iff (hd : Fits 32 date) (hi : ¬isInfinite 32 date) (hm : Fits 32 i.months) :
    Returns 32 (addMonthsToDate date i.months) (monthsLater date i) ↔ ¬isInfinite 32 (monthsLater date i) := by
  have hext : isInfinite 32 (monthsLater date i) → Fits 32 (monthsLater date i) := by
    unfold isInfinite Fits
    omega
  rw [returns_iff fun r => addMonthsToDate_eq_ok hd hi hm, Finite]
  tauto

theorem addIntervalToTimestamp_eq_ok {t : Int} (ht : Fits 64 t) (hi : ¬isInfinite 64 t) (hm : Fits 32 i.months) :
    addIntervalToTimestamp t i = .ok r ↔
      Representable (t / microsPerDay) (t % microsPerDay) i ∧ exactSum (t / microsPerDay) (t % microsPerDay) i = r := by
  have hday : Fits 32 (t / microsPerDay) ∧ ¬isInfinite 32 (t / microsPerDay) := by
    unfold Fits isInfinite microsPerDay at *
    omega
  rw [addIntervalToTimestamp, if_neg hi]
  simp only [bind_eq_ok, checked_eq_ok, and_assoc, exists_and_left, exists_eq_left', hday, true_and,
    addMonthsToDate_eq_ok hday.1 hday.2 hm, Representable]
  constructor
  · rintro ⟨hd, -, hS, hT, hr⟩
    exact ⟨hd, hS, hT, hr⟩
  · rintro ⟨hd, hS, hT, hr⟩
    refine ⟨hd, ?_, hS, hT, hr⟩
    unfold Fits microsPerDay at *
    omega

/-- A product that wraps is no multiple of a day, and not an infinity. -/
theorem wrapped_spec (hd : Fits 32 date) (h : ¬Fits 64 (date * microsPerDay)) :
    (date * microsPerDay).bmod (2 ^ 64) % microsPerDay ≠ 0 ∧ ¬isInfinite 64 ((date * microsPerDay).bmod (2 ^ 64)) := by
  have hsplit := Int.bdiv_add_bmod (date * microsPerDay) (2 ^ 64)
  have hlow := Int.le_bmod (x := date * microsPerDay) (m := 2 ^ 64) (by decide)
  have hhigh := Int.bmod_lt (x := date * microsPerDay) (m := 2 ^ 64) (by decide)
  unfold Fits microsPerDay isInfinite at *
  generalize (date * (24 * 60 * 60 * 1000000)).bmod (2 ^ 64) = t,
    (date * (24 * 60 * 60 * 1000000)).bdiv (2 ^ 64) = k at *
  have hk : -12 ≤ k := by omega
  have hk' : k ≤ 12 := by omega
  interval_cases k <;> omega

theorem addIntervalToDate_iff (hd : Fits 32 date) (hi : ¬isInfinite 32 date) (hm : Fits 32 i.months) :
    Returns 64 (addIntervalToDate date i) (exactSum date 0 i) ↔ Summable date i := by
  have hcode : addIntervalToDate date i = addIntervalToTimestamp ((date * microsPerDay).bmod (2 ^ 64)) i := by
    unfold isInfinite at hi
    rw [addIntervalToDate, if_neg (by omega), if_neg (by omega)]
  have hfit : Fits 64 ((date * microsPerDay).bmod (2 ^ 64)) :=
    ⟨Int.le_bmod (by decide), Int.bmod_lt (by decide)⟩
  unfold Summable
  dsimp only
  split
  · next hprod =>
    have hwrap : (date * microsPerDay).bmod (2 ^ 64) = date * microsPerDay := Int.bmod_eq_of_le hprod.1 hprod.2
    have hday : date * microsPerDay / microsPerDay = date := Int.mul_ediv_cancel _ (by decide)
    have htime : date * microsPerDay % microsPerDay = 0 := Int.mul_emod_left _ _
    have hfinite : ¬isInfinite 64 (date * microsPerDay) := by
      unfold isInfinite microsPerDay
      omega
    rw [hcode, hwrap]
    refine returns_iff fun r => ?_
    rw [addIntervalToTimestamp_eq_ok hprod hfinite hm, hday, htime]
  · next hprod =>
    obtain ⟨hmod, hfinite⟩ := wrapped_spec hd hprod
    simp only [Returns, hcode, addIntervalToTimestamp_eq_ok hfit hfinite hm]
    generalize (date * microsPerDay).bmod (2 ^ 64) = t at *
    -- the two sums are different times of a day
    have hne : exactSum (t / microsPerDay) (t % microsPerDay) i ≠ exactSum date 0 i := by
      unfold exactSum microsPerDay at *
      omega
    constructor
    · intro h
      exact ⟨fun hT => hne ((h _).2 ⟨hT, rfl⟩).2, fun hR => hne ((h _).1 ⟨hR, rfl⟩).2.symm⟩
    · intro h r
      exact ⟨fun hr => absurd hr.1 h.2, fun hr => absurd hr.1 h.1⟩

/-- **Calendar dates and their arithmetic.** -/
theorem calendar_iff (date : Int) (i : Interval) (hd : Fits 32 date) (hm : Fits 32 i.months) :
    (daysToYmd 0 = ⟨1970, 1, 1⟩ ∧ (∀ n, daysToYmd (n + 1) = (daysToYmd n).next) ∧ (∀ n, ymdToDays (daysToYmd n) = n) ∧
      ∀ c : Ymd, c.Valid → daysToYmd (ymdToDays c) = c) ∧
    if isInfinite 32 date then
      addMonthsToDate date i.months = .ok date ∧
        addIntervalToDate date i = .ok (if date = 2 ^ 31 - 1 then 2 ^ 63 - 1 else -2 ^ 63)
    else (Returns 32 (addMonthsToDate date i.months) (monthsLater date i) ↔ ¬isInfinite 32 (monthsLater date i)) ∧
      (Returns 64 (addIntervalToDate date i) (exactSum date 0 i) ↔ Summable date i) := by
  refine ⟨⟨by decide, daysToYmd_succ, fun n => (daysToYmd_spec n).2, fun _ => daysToYmd_ymdToDays⟩, ?_⟩
  split
  · next hi =>
    refine ⟨if_pos (.inr hi), ?_⟩
    unfold addIntervalToDate
    rcases hi with rfl | rfl <;> rfl
  · next hi => exact ⟨addMonthsToDate_iff hd hi hm, addIntervalToDate_iff hd hi hm⟩

/-- The last of January and a month, and the last of February 1969 and a month, a day and an hour. -/
theorem calendar_iff_lastDays : addMonthsToDate 30 1 = .ok 58 ∧
    addIntervalToDate (-307) ⟨1, 1, 3600000000⟩ = .ok (-24015600000000) := by
  have hjanuary := (calendar_iff 30 ⟨1, 0, 0⟩ (by decide) (by decide)).2
  have hfebruary := (calendar_iff (-307) ⟨1, 1, 3600000000⟩ (by decide) (by decide)).2
  rw [if_neg (by decide)] at hjanuary hfebruary
  refine ⟨(hjanuary.1.2 (by decide) _).2 (by decide), (hfebruary.2.2 ?_ _).2 (by decide)⟩
  simp only [Summable, Representable]
  decide

/-- A date whose timestamp wraps, a sum that is refused although it has a timestamp, and sums that are read as
infinite. -/
theorem addIntervalToDate_wraps : ¬Fits 64 (exactSum 106751992 0 ⟨0, 0, 0⟩) ∧
    addIntervalToDate 106751992 ⟨0, 0, 0⟩ = .ok (-9223371964909551616) ∧
    exactSum 0 0 ⟨0, 106751992, -86400000000⟩ = 9223372022400000000 ∧
    addIntervalToDate 0 ⟨0, 106751992, -86400000000⟩ = .error "TIMESTAMP arithmetic overflow" ∧
    addIntervalToDate 106751991 ⟨0, 0, 14454775807⟩ = .ok (2 ^ 63 - 1) ∧
    addMonthsToDate 2147483617 1 = .ok (2 ^ 31 - 1) := by
  decide

end Paro.L1.Calendar
