import Mathlib.Tactic.Ring
import Paro.Core.LittleEndian

/-!
# Numbers packed at a bit width

`packed width vs` is the number that holds the numbers `vs` in `width` bits each, the first lowest.

* `packed_concat`: a number is added at the top.
* `packed_div_mod`: a number is read by its place.
* `ofLeBytes_append`: the bytes of a number are put together from two parts.
-/
namespace Paro

open List

def packed (width : Nat) : List Nat → Nat
  | [] => 0
  | v :: vs => v + 2 ^ width * packed width vs

theorem packed_concat (width : Nat) (vs : List Nat) (v : Nat) :
    packed width (vs ++ [v]) = packed width vs + 2 ^ (width * vs.length) * v := by
  induction vs with
  | nil => simp [packed]
  | cons u vs ih =>
    rw [cons_append, packed, ih, packed, length_cons, Nat.mul_succ, Nat.pow_add]
    ring

theorem packed_div_mod {width : Nat} {vs : List Nat} (hvs : ∀ v ∈ vs, v < 2 ^ width) {i v : Nat}
    (hi : vs[i]? = some v) : packed width vs / 2 ^ (width * i) % 2 ^ width = v := by
  induction vs generalizing i with
  | nil => cases hi
  | cons u vs ih =>
    have hu := hvs u mem_cons_self
    rw [packed]
    cases i with
    | zero =>
      cases hi
      rw [mul_zero, Nat.pow_zero, Nat.div_one, Nat.add_mul_mod_self_left, Nat.mod_eq_of_lt hu]
    | succ i =>
      rw [Nat.mul_succ, add_comm (width * i), Nat.pow_add, ← Nat.div_div_eq_div_mul,
        Nat.add_mul_div_left _ _ (Nat.two_pow_pos width), Nat.div_eq_of_lt hu, zero_add]
      exact ih (fun v hv => hvs v (mem_cons_of_mem u hv)) hi

theorem ofLeBytes_append (as bs : List UInt8) :
    ofLeBytes (as ++ bs) = ofLeBytes as + 256 ^ as.length * ofLeBytes bs := by
  induction as with
  | nil => simp [ofLeBytes]
  | cons a as ih =>
    rw [cons_append, ofLeBytes, ih, ofLeBytes, length_cons, Nat.pow_succ]
    ring

/-- What stands behind a number does not change its bits. -/
theorem ofLeBytes_append_div_mod {as bs : List UInt8} {start width : Nat} (h : start + width ≤ 8 * as.length) :
    ofLeBytes (as ++ bs) / 2 ^ start % 2 ^ width = ofLeBytes as / 2 ^ start % 2 ^ width := by
  have hpow : 256 ^ as.length = 2 ^ start * (2 ^ width * 2 ^ (8 * as.length - start - width)) := by
    rw [← Nat.pow_add, ← Nat.pow_add, show (256 : Nat) = 2 ^ 8 from rfl, ← Nat.pow_mul]
    congr 1
    omega
  rw [ofLeBytes_append, hpow, mul_assoc, Nat.add_mul_div_left _ _ (Nat.two_pow_pos start), mul_assoc,
    Nat.add_mul_mod_self_left]

end Paro
