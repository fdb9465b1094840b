import Paro.L1Encoding.Calendar

/-!
# Parts of dates and timestamps (function/src/scalar/date/date_part.rs)

`La-b` are lines of this file; its `days_to_ymd` (L93-109) is that of the casts. The days of the week are found with a
remainder that is negative before 1970, the date of a timestamp for them with a quotient that is rounded towards zero,
and the last week of a year by its last three days.

Main result: `date_parts_iff` says for which dates and timestamps every part is that of the calendar.
-/
namespace Paro.L1.DatePart
open Calendar Int

/-- L34-56 -/
inductive DatePartSpecifier
  | year | month | day | decade | century | millennium | microseconds | milliseconds | second | minute | hour | epoch
  | dayOfWeek | isoDayOfWeek | dayOfYear | week | isoYear | quarter | yearWeek | era | julianDay

variable (c : Ymd)

/-- L139-146 -/
def dayOfYear : Int :=
  [0, 31, 59, 90, 120, 151, 181, 212, 243, 273, 304, 334].getD (c.month - 1).toNat 0 + c.day +
    if 2 < c.month ∧ isLeapYear c.year then 1 else 0

variable (days : Int)

/-- L149-157 -/
def isoDayOfWeek : Int :=
  let dow := (days.tmod 7 + 4).tmod 7
  if dow = 0 then 7 else dow

def daysInYear (year : Int) : Int := if isLeapYear year then 366 else 365

/-- L165-184 -/
def isoWeekNumber : Int :=
  let doy := dayOfYear c
  let week := (doy - isoDayOfWeek days + 10).tdiv 7
  if week < 1 then 52
  else if 52 < week then
    if daysInYear c.year - 3 < doy then 1 else week
  else week

/-- The parts that the two functions share; the others are 0 for a date. -/
def datePart : DatePartSpecifier → Int
  | .year | .isoYear => c.year
  | .month => c.month
  | .day => c.day
  | .decade => c.year.tdiv 10
  | .century => if 0 < c.year then (c.year - 1).tdiv 100 + 1 else c.year.tdiv 100 - 1
  | .millennium => if 0 < c.year then (c.year - 1).tdiv 1000 + 1 else c.year.tdiv 1000 - 1
  | .dayOfWeek => (isoDayOfWeek days).tmod 7
  | .isoDayOfWeek => isoDayOfWeek days
  | .dayOfYear => dayOfYear c
  | .week => isoWeekNumber c days
  | .quarter => (c.month - 1) / 3 + 1
  | .julianDay => days + 2440588
  | .era => if 0 < c.year then 1 else 0
  | .yearWeek => c.year * 100 + isoWeekNumber c days
  | _ => 0

/-- L196-244 -/
def extractFromDate : DatePartSpecifier → Int
  | .epoch => days * 86400
  | part => datePart (daysToYmd days) days part

/-- The day and the time of `micros_to_datetime`; the subtractions wrap in a release build. L112-130 -/
def splitMicros (micros : Int) : Int × Int :=
  if 0 ≤ micros then (micros.tdiv microsPerDay, micros.tmod microsPerDay)
  else
    let days := ((micros - microsPerDay + 1).bmod (2 ^ 64)).tdiv microsPerDay
    (days, (micros - days * microsPerDay).bmod (2 ^ 64))

/-- L251-299 -/
def extractFromTimestamp (micros : Int) : DatePartSpecifier → Int
  | .hour => (splitMicros micros).2 / 3600000000
  | .minute => (splitMicros micros).2 % 3600000000 / 60000000
  | .second => (splitMicros micros).2 % 3600000000 % 60000000 / 1000000
  | .microseconds =>
    let remaining := (splitMicros micros).2 % 3600000000 % 60000000
    remaining / 1000000 * 1000000 + remaining % 1000000
  | .milliseconds =>
    let remaining := (splitMicros micros).2 % 3600000000 % 60000000
    remaining / 1000000 * 1000 + remaining % 1000000 / 1000
  | .epoch => micros.tdiv 1000000
  | part => datePart (daysToYmd (splitMicros micros).1) (micros.tdiv microsPerDay) part

/-! ## The calendar -/

variable (n : Int)

/-- The Monday of the week of a day; day 0 is a Thursday. -/
def monday : Int := n - (n + 3) % 7

def newYear (year : Int) : Int := ymdToDays ⟨year, 1, 1⟩

/-- The year that has the Thursday of the week. -/
def isoYear : Int := (daysToYmd (monday n + 3)).year

/-- Weeks are counted from that of the 4th of January. -/
def isoWeek : Int := (monday n - monday (ymdToDays ⟨isoYear n, 1, 4⟩)) / 7 + 1

/-- What a part of day `n` at a time of the day has to be. -/
def calendarPart (n time : Int) : DatePartSpecifier → Option Int
  | .year => some (daysToYmd n).year
  | .quarter => some (((daysToYmd n).month + 2) / 3)
  | .month => some (daysToYmd n).month
  | .day => some (daysToYmd n).day
  | .dayOfWeek => some ((n + 4) % 7)
  | .isoDayOfWeek => some ((n + 3) % 7 + 1)
  | .dayOfYear => some (n - newYear (daysToYmd n).year + 1)
  | .week => some (isoWeek n)
  | .hour => some (time / 3600000000)
  | .minute => some (time / 60000000 % 60)
  | .second => some (time / 1000000 % 60)
  | .milliseconds => some (time / 1000 % 60000)
  | .microseconds => some (time % 60000000)
  | _ => none

/-- No Friday or Saturday before 1970, and of a week 53 no day after the 28th of December. -/
def DateOk : Prop :=
  (0 ≤ n ∨ n % 7 ≠ 1 ∧ n % 7 ≠ 2) ∧ (isoWeek n = 53 → (daysToYmd n).month = 12 ∧ (daysToYmd n).day ≤ 28)

/-! ## Days of the week -/

theorem tmod_seven (a : Int) : a.tmod 7 = if 0 ≤ a ∨ a % 7 = 0 then a % 7 else a % 7 - 7 := by
  simp only [tmod_eq_emod, dvd_iff_emod_eq_zero]
  split <;> simp

theorem isoDayOfWeek_iff {n : Int} : isoDayOfWeek n = (n + 3) % 7 + 1 ↔ 0 ≤ n ∨ n % 7 ≠ 1 ∧ n % 7 ≠ 2 := by
  simp only [isoDayOfWeek, tmod_seven]
  omega

theorem isoDayOfWeek_succ : isoDayOfWeek (n + 1) ≠ (n + 3) % 7 + 1 := by
  simp only [isoDayOfWeek, tmod_seven]
  omega

/-! ## Weeks -/

variable {c : Ymd} {n y z : Int}

theorem newYear_succ (y : Int) : newYear (y + 1) = newYear y + daysInYear y := by
  simp [newYear, ymdToDays, floorDiv_400, daysInYear, isLeapYear]
  omega

theorem daysInYear_bounds (y : Int) : daysInYear y = 365 ∨ daysInYear y = 366 := by
  unfold daysInYear
  split <;> simp

/-- The days of a year; the days of December before its last three are the 1st to the 28th. -/
theorem dayOfYear_spec (h : c.Valid) : dayOfYear c = ymdToDays c - newYear c.year + 1 ∧ 1 ≤ dayOfYear c ∧
    dayOfYear c ≤ daysInYear c.year ∧
      (c.month = 12 ∧ c.day ≤ 28 ↔ daysInYear c.year - 31 < dayOfYear c ∧ dayOfYear c ≤ daysInYear c.year - 3) := by
  obtain ⟨y, m, d⟩ := c
  obtain ⟨h1, h2, h3, h4⟩ := h
  dsimp only at h1 h2 h3 h4
  simp only [dayOfYear, newYear, ymdToDays, floorDiv_400, daysInYear]
  interval_cases m <;> simp [daysInMonth, isLeapYear] at h4 ⊢ <;> omega

theorem newYear_le (n : Int) : newYear (daysToYmd n).year ≤ n ∧ n < newYear ((daysToYmd n).year + 1) := by
  obtain ⟨hv, hn⟩ := daysToYmd_spec n
  obtain ⟨hdoy, hpos, hle, -⟩ := dayOfYear_spec hv
  rw [newYear_succ]
  omega

theorem newYear_mono (h : y ≤ z) : newYear y ≤ newYear z := by
  refine monotone_int_of_le_succ (fun y => ?_) h
  rw [newYear_succ]
  have := daysInYear_bounds y
  omega

theorem isoWeekNumber_iff (h : isoDayOfWeek n = (n + 3) % 7 + 1) : isoWeekNumber (daysToYmd n) n = isoWeek n ↔
    (isoWeek n = 53 → (daysToYmd n).month = 12 ∧ (daysToYmd n).day ≤ 28) := by
  obtain ⟨hv, hn⟩ := daysToYmd_spec n
  obtain ⟨hdoy, hpos, hle, hlast⟩ := dayOfYear_spec hv
  have hjanuary : ymdToDays ⟨isoYear n, 1, 4⟩ = newYear (isoYear n) + 3 := by
    simp [newYear, ymdToDays]
    omega
  have hthursday : newYear (isoYear n) ≤ monday n + 3 ∧ monday n + 3 < newYear (isoYear n + 1) := newYear_le _
  rw [hlast, isoWeek, hjanuary, isoWeekNumber, h, tdiv_eq_ediv_of_nonneg (by omega)]
  generalize daysToYmd n = c, isoYear n = y at *
  have hlength := daysInYear_bounds c.year
  have hnext := newYear_succ c.year
  have hprevious := newYear_succ (c.year - 1)
  have hlength' := daysInYear_bounds (c.year - 1)
  rw [sub_add_cancel] at hprevious
  unfold monday at *
  -- the year of the Thursday is that of the day or a neighbour
  rcases lt_trichotomy y c.year with hlt | rfl | hgt
  · obtain rfl : y = c.year - 1 := by
      by_contra hne
      have := @newYear_mono (y + 1) (c.year - 1) (by omega)
      omega
    rw [sub_add_cancel] at hthursday
    split_ifs <;> omega
  · split_ifs <;> omega
  · obtain rfl : y = c.year + 1 := by
      by_contra hne
      have := @newYear_mono (c.year + 1 + 1) y (by omega)
      have := newYear_succ (c.year + 1)
      have := daysInYear_bounds (c.year + 1)
      omega
    split_ifs <;> omega

/-! ## Parts -/

theorem datePart_eq {days v : Int} {part : DatePartSpecifier} (hdow : isoDayOfWeek days = (n + 3) % 7 + 1)
    (hweek : isoWeekNumber (daysToYmd n) days = isoWeek n) (hv : v ∈ calendarPart n 0 part) :
    datePart (daysToYmd n) days part = v := by
  obtain ⟨hvalid, hn⟩ := daysToYmd_spec n
  cases part <;> cases hv
  case dayOfWeek =>
    rw [datePart, hdow, tmod_seven]
    omega
  case isoDayOfWeek => exact hdow
  case dayOfYear => rw [datePart, (dayOfYear_spec hvalid).1, hn]
  case week => exact hweek
  case quarter =>
    rw [datePart]
    omega
  all_goals rfl

theorem splitMicros_eq {t : Int} (ht : Fits 64 t) (h : 0 ≤ t ∨ t % microsPerDay = 0 ∧ t ≠ -106751991 * microsPerDay) :
    splitMicros t = (t / microsPerDay, t % microsPerDay) := by
  unfold splitMicros
  split
  · rw [tdiv_eq_ediv_of_nonneg ‹_›, tmod_eq_emod_of_nonneg ‹_›]
  · have hfloor := floorDiv_eq t (show 0 < microsPerDay by decide)
    rw [floorDiv, if_neg ‹_›, ← sub_add] at hfloor
    have hfits : (t - microsPerDay + 1).bmod (2 ^ 64) = t - microsPerDay + 1 := by
      unfold Fits microsPerDay at *
      exact bmod_eq_of_le (by omega) (by omega)
    have htime : t - t / microsPerDay * microsPerDay = t % microsPerDay := by
      unfold microsPerDay
      omega
    rw [hfits, hfloor]
    dsimp only
    rw [htime, bmod_eq_of_le]
    all_goals unfold microsPerDay; omega

theorem tdiv_day (t : Int) :
    t.tdiv microsPerDay = t / microsPerDay + if 0 ≤ t ∨ t % microsPerDay = 0 then 0 else 1 := by
  simp only [tdiv_eq_ediv, dvd_iff_emod_eq_zero]
  rfl

/-- **Parts of dates and timestamps.** All parts of a date are the calendar's exactly if it is no Friday or Saturday
before 1970 and no late day of a week 53; those of a timestamp, if it is moreover not before 1970 or at midnight, and
not at the first midnight there is. -/
theorem date_parts_iff (n t : Int) (ht : Fits 64 t) :
    (daysToYmd 0 = ⟨1970, 1, 1⟩ ∧ ∀ k, daysToYmd (k + 1) = (daysToYmd k).next ∧ ymdToDays (daysToYmd k) = k) ∧
    ((∀ part, ∀ v ∈ calendarPart n 0 part, extractFromDate n part = v) ↔ DateOk n) ∧
    ((∀ part, ∀ v ∈ calendarPart (t / microsPerDay) (t % microsPerDay) part, extractFromTimestamp t part = v) ↔
      (0 ≤ t ∨ t % microsPerDay = 0 ∧ t ≠ -106751991 * microsPerDay) ∧ DateOk (t / microsPerDay)) := by
  refine ⟨⟨by decide, fun k => ⟨daysToYmd_succ k, (daysToYmd_spec k).2⟩⟩, ⟨fun h => ?_, fun ⟨hday, hweek⟩ _ _ hv => ?_⟩,
    ⟨fun h => ?_, fun ⟨htime, hday, hweek⟩ part v hv => ?_⟩⟩
  · have hdow : isoDayOfWeek n = (n + 3) % 7 + 1 := h .isoDayOfWeek _ rfl
    exact ⟨isoDayOfWeek_iff.1 hdow, (isoWeekNumber_iff hdow).1 (h .week _ rfl)⟩
  · have hdow := isoDayOfWeek_iff.2 hday
    have hpart := datePart_eq hdow ((isoWeekNumber_iff hdow).2 hweek) hv
    cases ‹DatePartSpecifier›
    case epoch => cases hv
    all_goals exact hpart
  · have hdow : isoDayOfWeek (t.tdiv microsPerDay) = (t / microsPerDay + 3) % 7 + 1 := h .isoDayOfWeek _ rfl
    have hweek : isoWeekNumber (daysToYmd (splitMicros t).1) (t.tdiv microsPerDay) = isoWeek (t / microsPerDay) :=
      h .week _ rfl
    rw [tdiv_day] at hdow hweek
    split at hdow
    · next hcase =>
      have hcase : 0 ≤ t ∨ t % microsPerDay = 0 ∧ t ≠ -106751991 * microsPerDay := by
        refine hcase.imp_right fun hmod => ⟨hmod, ?_⟩
        rintro rfl
        exact absurd (h .year _ rfl) (by decide)
      rw [if_pos ‹_›, splitMicros_eq ht hcase] at hweek
      rw [add_zero] at hdow hweek
      exact ⟨hcase, isoDayOfWeek_iff.1 hdow, (isoWeekNumber_iff hdow).1 hweek⟩
    · exact absurd hdow (isoDayOfWeek_succ _)
  · have hdow := isoDayOfWeek_iff.2 hday
    have hweek := (isoWeekNumber_iff hdow).2 hweek
    have hsplit := splitMicros_eq ht htime
    have htdiv := tdiv_day t
    rw [if_pos (htime.imp_right And.left), add_zero] at htdiv
    have hpart := @datePart_eq _ _ v part hdow hweek
    cases part <;> cases hv <;> simp only [extractFromTimestamp, hsplit, htdiv]
    case minute.refl | second.refl | milliseconds.refl | microseconds.refl => unfold microsPerDay; omega
    all_goals exact hpart rfl

/-- Thursday 25 December 1969, and its midnight. -/
theorem date_parts_iff_at : Fits 64 (-7 * microsPerDay) ∧ DateOk (-7) ∧ extractFromDate (-7) .week = 52 ∧
    extractFromTimestamp (-7 * microsPerDay) .day = 25 ∧
    extractFromTimestamp (-7 * microsPerDay) .isoDayOfWeek = 4 := by
  have hfits : Fits 64 (-7 * microsPerDay) := by decide
  have h : DateOk (-7) := by
    unfold DateOk
    decide
  obtain ⟨-, hdate, htimestamp⟩ := date_parts_iff (-7) (-7 * microsPerDay) hfits
  have hparts := htimestamp.2 ⟨.inr ⟨by decide, by decide⟩, h⟩
  exact ⟨hfits, h, hdate.2 h .week 52 (by decide), hparts .day 25 (by decide), hparts .isoDayOfWeek 4 (by decide)⟩

/-- Friday 26 December 1969, Thursday 31 December 2020, and the end of Wednesday 31 December 1969. -/
theorem date_parts_fail : extractFromDate (-6) .isoDayOfWeek = -2 ∧
    (daysToYmd 18627 = ⟨2020, 12, 31⟩ ∧ isoWeek 18627 = 53 ∧ extractFromDate 18627 .week = 1) ∧
    extractFromTimestamp (-1) .day = 31 ∧ extractFromTimestamp (-1) .isoDayOfWeek = 4 := by
  decide

end Paro.L1.DatePart
