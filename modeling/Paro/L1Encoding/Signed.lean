import Mathlib.Algebra.Order.Ring.Int
import Mathlib.Data.List.Basic

/-!
# Signed integers of a width

The values of `i8` to `i128`, ordered as numbers, with the checked conversion (`ofInt?`) and the one that keeps the low
bits (`wrap`).
-/
namespace Paro.L1

/-- A signed integer of `w` bits (`i32`, `i64`, `i128`): `-2 ^ (w - 1) ≤ val < 2 ^ (w - 1)`. -/
@[ext] structure Signed (w : Nat) where
  val : Int
  low : -2 ^ w ≤ 2 * val
  high : 2 * val < 2 ^ w

namespace Signed

variable {w : Nat} {a b v : Signed w}

instance : LinearOrder (Signed w) :=
  LinearOrder.lift' Signed.val fun _ _ h => Signed.ext h

theorem lt_iff : a < b ↔ a.val < b.val := Iff.rfl

def ofInt? (w : Nat) (v : Int) : Option (Signed w) :=
  if h : -2 ^ w ≤ 2 * v ∧ 2 * v < 2 ^ w then some ⟨v, h.1, h.2⟩ else none

theorem ofInt?_eq_some {n : Int} : ofInt? w n = some v ↔ v.val = n := by
  unfold ofInt?
  split
  · next h =>
    rw [Option.some.injEq]
    exact ⟨fun he => he ▸ rfl, fun he => Signed.ext he.symm⟩
  · next h =>
    refine ⟨nofun, fun he => absurd ⟨?_, ?_⟩ h⟩
    · exact he ▸ v.low
    · exact he ▸ v.high

theorem ofInt?_eq_none {n : Int} : ofInt? w n = none ↔ ∀ v : Signed w, v.val ≠ n := by
  constructor
  · intro h v hv
    rw [ofInt?_eq_some.2 hv] at h
    cases h
  · intro h
    cases hn : ofInt? w n with
    | none => rfl
    | some v => exact absurd (ofInt?_eq_some.1 hn) (h v)

/-- The conversion `as iN`, which keeps the low bits. -/
def wrap (w : Nat) (n : Int) : Signed w where
  val := n.bmod (2 ^ w)
  low := by
    have hpos : 0 < 2 ^ w := Nat.two_pow_pos w
    have hle := Int.le_bmod (x := n) hpos
    push_cast at hle ⊢
    omega
  high := by
    have hpos : 0 < 2 ^ w := Nat.two_pow_pos w
    have hlt := Int.bmod_lt (x := n) hpos
    push_cast at hlt ⊢
    omega

theorem wrap_val (v : Signed w) : wrap w v.val = v := by
  have hlow := v.low
  have hhigh := v.high
  refine Signed.ext (Int.bmod_eq_of_le ?_ ?_)
  · push_cast
    omega
  · push_cast
    omega

end Signed

end Paro.L1
