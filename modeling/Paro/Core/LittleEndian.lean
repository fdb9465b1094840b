import Mathlib.Algebra.Order.Ring.Int

/-!
# Little-endian bytes

`leBytes width n` is `n` in `width` bytes, lowest first, and `ofLeBytes` reads such bytes back.

* `ofLeBytes_leBytes`: a number that fits is read back unchanged.
* `take_drop_flatMap_leBytes`: an array of numbers is read by index.
-/
namespace Paro

open List

def leBytes : Nat → Nat → List UInt8
  | 0, _ => []
  | width + 1, n => UInt8.ofNat n :: leBytes width (n / 256)

def ofLeBytes : List UInt8 → Nat
  | [] => 0
  | b :: bs => b.toNat + 256 * ofLeBytes bs

variable (width n : Nat)

@[simp] theorem length_leBytes : (leBytes width n).length = width := by
  induction width generalizing n with
  | zero => rfl
  | succ width ih => rw [leBytes, length_cons, ih]

theorem length_flatMap_leBytes (width : Nat) (ns : List Nat) :
    (ns.flatMap (leBytes width)).length = width * ns.length := by
  simp [length_flatMap, map_const', Nat.mul_comm]

theorem ofLeBytes_leBytes_mod : ofLeBytes (leBytes width n) = n % 256 ^ width := by
  induction width generalizing n with
  | zero => rw [Nat.pow_zero, Nat.mod_one]; rfl
  | succ width ih =>
    rw [leBytes, ofLeBytes, ih, UInt8.toNat_ofNat', Nat.pow_succ' (n := width) (m := 256)]
    exact (Nat.mod_mul (x := n) (a := 256) (b := 256 ^ width)).symm

theorem ofLeBytes_leBytes {width n : Nat} (h : n < 256 ^ width) : ofLeBytes (leBytes width n) = n := by
  rw [ofLeBytes_leBytes_mod, Nat.mod_eq_of_lt h]

/-- What stands behind a field of a byte string. -/
theorem drop_field {file field rest : List UInt8} {start size : Nat} (h : file.drop start = field ++ rest)
    (hsize : field.length = size) : file.drop (start + size) = rest := by
  rw [← drop_drop, h, drop_left' hsize]

section
variable {α : Type} {f : α → List UInt8} (hf : ∀ a, (f a).length = width)
include hf

/-- An array of items of one width, from one of them on. -/
theorem drop_flatMap_width (l : List α) : (l.flatMap f).drop (n * width) = (l.drop n).flatMap f := by
  induction n generalizing l with
  | zero => rw [Nat.zero_mul, drop_zero, drop_zero]
  | succ n ih =>
    cases l with
    | nil => rw [flatMap_nil, drop_nil, drop_nil, flatMap_nil]
    | cons a l => rw [flatMap_cons, Nat.succ_mul, Nat.add_comm, ← drop_drop, drop_left' (hf a), ih, drop_succ_cons]

theorem take_flatMap_width (l : List α) : (l.flatMap f).take (n * width) = (l.take n).flatMap f := by
  induction n generalizing l with
  | zero => rw [Nat.zero_mul, take_zero, take_zero, flatMap_nil]
  | succ n ih =>
    cases l with
    | nil => rw [flatMap_nil, take_nil, take_nil, flatMap_nil]
    | cons a l =>
      rw [flatMap_cons, Nat.succ_mul, Nat.add_comm, take_append, take_of_length_le (by rw [hf]; omega), hf,
        Nat.add_sub_cancel_left, ih, take_succ_cons, flatMap_cons]

end

/-- An array of numbers of one width is read by its place. -/
theorem take_drop_flatMap_leBytes {width : Nat} {ns : List Nat} {i n : Nat} (h : ns[i]? = some n) (rest : List UInt8) :
    ((ns.flatMap (leBytes width) ++ rest).drop (width * i)).take width = leBytes width n := by
  obtain ⟨hi, rfl⟩ := List.getElem?_eq_some_iff.1 h
  have hle : width * i ≤ (ns.flatMap (leBytes width)).length := by
    rw [length_flatMap_leBytes]
    exact Nat.mul_le_mul_left _ (Nat.le_of_lt hi)
  rw [drop_append_of_le_length hle, Nat.mul_comm, drop_flatMap_width width i (length_leBytes width),
    drop_eq_getElem_cons hi, flatMap_cons, append_assoc, take_left' (length_leBytes ..)]

theorem leBytes_succ_last : leBytes (width + 1) n = leBytes width n ++ [UInt8.ofNat (n / 256 ^ width)] := by
  induction width generalizing n with
  | zero => rw [Nat.pow_zero, Nat.div_one]; rfl
  | succ width ih =>
    rw [leBytes, ih, leBytes, cons_append, Nat.div_div_eq_div_mul, Nat.pow_succ']

end Paro
