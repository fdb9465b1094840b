import Mathlib.Data.List.Basic
import Paro.Core.LittleEndian

/-!
# Reversible steps on 64-bit words

The steps hash functions are made of lose nothing: multiplication by a word with an inverse, the xor with a
word's own high half, and the xor of the bytes of a word at their places. A xor over an index range changes
whenever exactly one of its terms does.
-/
namespace Paro.WordMix

open List UInt64 Nat

variable {x y s : UInt64}

/-- Multiplication by a word that has an inverse modulo `2 ^ 64`. -/
theorem mul_inj {m : UInt64} (inv : UInt64) (hinv : m * inv = 1) (h : x * m = y * m) : x = y := by
  have hcancel (z : UInt64) : z * m * inv = z := by rw [UInt64.mul_assoc, hinv, UInt64.mul_one]
  rw [← hcancel x, h, hcancel y]

/-- A shift by at least half a word is not shifted in again. -/
theorem shiftRight_xorShift (hs : 32 ≤ s.toNat % 64) (x : UInt64) : (x ^^^ (x >>> s)) >>> s = x >>> s := by
  apply UInt64.toNat_inj.1
  apply eq_of_testBit_eq
  intro i
  have hhigh : x.toNat.testBit (s.toNat % 64 + (s.toNat % 64 + i)) = false := by
    refine testBit_lt_two_pow (lt_of_lt_of_le x.toNat_lt (Nat.pow_le_pow_right (by decide) ?_))
    omega
  simp only [UInt64.toNat_xor, UInt64.toNat_shiftRight, testBit_xor, testBit_shiftRight, hhigh, Bool.xor_false]

theorem xorShift_inj (hs : 32 ≤ s.toNat % 64) (h : x ^^^ (x >>> s) = y ^^^ (y >>> s)) : x = y := by
  have hshift : x >>> s = y >>> s := by rw [← shiftRight_xorShift hs x, h, shiftRight_xorShift hs y]
  rw [hshift] at h
  exact (xor_left_inj _).1 h

/-! ## Terms of a xor -/

section
variable {g g' : Nat → UInt64} {n i : Nat} {init : UInt64}

def xorRange (init : UInt64) (g : Nat → UInt64) (n : Nat) : UInt64 := (List.range n).foldl (fun r i => r ^^^ g i) init

theorem xorRange_succ : xorRange init g (n + 1) = xorRange init g n ^^^ g n := by
  rw [xorRange, range_succ, foldl_append]
  rfl

theorem xorRange_congr (h : ∀ j < n, g j = g' j) : xorRange init g n = xorRange init g' n := by
  induction n with
  | zero => rfl
  | succ n ih => rw [xorRange_succ, xorRange_succ, ih fun j hj => h j (by omega), h n (by omega)]

/-- One term can be read off the xor if the others are known. -/
theorem term_of_xorRange (hi : i < n) (hrest : ∀ j < n, j ≠ i → g j = g' j)
    (h : xorRange init g n = xorRange init g' n) :
    g i = g' i := by
  induction n with
  | zero => omega
  | succ n ih =>
    rw [xorRange_succ, xorRange_succ] at h
    by_cases hin : i = n
    · subst hin
      rw [xorRange_congr fun j hj => hrest j (by omega) (by omega)] at h
      exact (xor_right_inj _).1 h
    · rw [hrest n (by omega) (Ne.symm hin)] at h
      exact ih (by omega) (fun j hj => hrest j (by omega)) ((xor_left_inj _).1 h)

end

/-! ## Bytes at their places -/

section
variable {tail tail' : List UInt8} {off : Nat}

/-- The bytes of a list, each shifted to its place in a word. -/
def placed : Nat → List UInt8 → Nat
  | _, [] => 0
  | off, b :: tail => placed (off + 1) tail ^^^ (b.toNat <<< (8 * off))

theorem testBit_placed {j t : Nat} (ht : t < 8) :
    (placed off tail).testBit (8 * j + t) = (decide (off ≤ j) && (tail[j - off]?.any (·.toNat.testBit t))) := by
  induction tail generalizing off with
  | nil => simp [placed]
  | cons b tail ih =>
    rw [placed, testBit_xor, ih, testBit_shiftLeft]
    rcases Nat.lt_trichotomy j off with hlt | rfl | hgt
    · have h1 : ¬ off + 1 ≤ j := by omega
      have h2 : ¬ off ≤ j := by omega
      have h3 : ¬ 8 * j + t ≥ 8 * off := by omega
      simp [h1, h2, h3]
    · have h1 : ¬ j + 1 ≤ j := by omega
      simp [h1]
    · obtain ⟨d, rfl⟩ : ∃ d, j = off + 1 + d := ⟨j - off - 1, by omega⟩
      have hbyte : b.toNat.testBit (8 * (off + 1 + d) + t - 8 * off) = false :=
        testBit_lt_two_pow (lt_of_lt_of_le b.toNat_lt (Nat.pow_le_pow_right (by decide) (by omega)))
      have hidx : off + 1 + d - off = (off + 1 + d - (off + 1)) + 1 := by omega
      have h1 : off + 1 ≤ off + 1 + d := by omega
      have h2 : off ≤ off + 1 + d := by omega
      rw [hbyte, hidx, getElem?_cons_succ]
      simp [h1, h2]

theorem placed_inj (hlen : tail.length = tail'.length) (h : placed 0 tail = placed 0 tail') : tail = tail' := by
  refine ext_getElem hlen fun j hj hj' => UInt8.toNat_inj.1 (eq_of_testBit_eq fun t => ?_)
  by_cases ht : t < 8
  · have hbit := congrArg (·.testBit (8 * j + t)) h
    simpa [testBit_placed ht, hj, hj'] using hbit
  · have hhigh (b : UInt8) : b.toNat.testBit t = false :=
      testBit_lt_two_pow (lt_of_lt_of_le b.toNat_lt (Nat.pow_le_pow_right (by decide) (by omega)))
    rw [hhigh, hhigh]

variable {a : List UInt8}

theorem ofLeBytes_inj {b : List UInt8} (hlen : a.length = b.length) (h : ofLeBytes a = ofLeBytes b) : a = b := by
  induction a generalizing b with
  | nil => exact (length_eq_zero_iff.1 hlen.symm).symm
  | cons x a ih =>
    cases b with
    | nil => cases hlen
    | cons y b =>
      have hx := x.toNat_lt
      have hy := y.toNat_lt
      rw [ofLeBytes, ofLeBytes] at h
      rw [UInt8.toNat_inj.1 (show x.toNat = y.toNat by omega), ih (Nat.succ.inj hlen) (by omega)]

theorem ofLeBytes_lt : ofLeBytes a < 256 ^ a.length := by
  induction a with
  | nil => decide
  | cons x a ih =>
    have hx := x.toNat_lt
    rw [ofLeBytes, length_cons, Nat.pow_succ]
    omega

/-- The xor of the bytes into a word, the last one first. -/
theorem toNat_foldr_placed (hoff : off + tail.length ≤ 8) (h : UInt64) :
    ((tail.zipIdx off).foldr (fun (b, i) h => h ^^^ (b.toUInt64 <<< UInt64.ofNat (8 * i))) h).toNat =
      h.toNat ^^^ placed off tail := by
  induction tail generalizing off with
  | nil => simp [placed]
  | cons b tail ih =>
    rw [length_cons] at hoff
    have hshift : (b.toUInt64 <<< UInt64.ofNat (8 * off)).toNat = b.toNat <<< (8 * off) := by
      have hlt : b.toNat <<< (8 * off) < 2 ^ 64 := by
        rw [shiftLeft_eq]
        calc b.toNat * 2 ^ (8 * off) < 2 ^ 8 * 2 ^ (8 * off) :=
          Nat.mul_lt_mul_of_pos_right b.toNat_lt (Nat.two_pow_pos _)
          _ = 2 ^ (8 + 8 * off) := (Nat.pow_add ..).symm
          _ ≤ 2 ^ 64 := Nat.pow_le_pow_right (by decide) (by omega)
      have hmod : (UInt64.ofNat (8 * off)).toNat % 64 = 8 * off := by
        rw [toNat_ofNat', mod_eq_of_lt (by omega), mod_eq_of_lt (by omega)]
      rw [UInt64.toNat_shiftLeft, hmod, UInt8.toNat_toUInt64, mod_eq_of_lt hlt]
    rw [zipIdx_cons, foldr_cons, UInt64.toNat_xor, ih (by omega), hshift, placed, Nat.xor_assoc]

end

end Paro.WordMix
