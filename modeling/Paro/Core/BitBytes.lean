import Mathlib.Data.Nat.Bitwise
import Paro.Core.LittleEndian

/-!
# Bits of bytes and writes into buffers

* `byte_ext`: a byte is its bits.
* `testBit_ofLeBytes`, `testBit_leBytes`: the bits of a number and of its little-endian bytes.
* `deltaSwap`: exchange of bits at a distance by masks and shifts, described as a permutation of places
  (`getLsbD_deltaSwap`).
* `Buffer`: a block of memory by index; `foldl_write` and `testBit_foldl_orWrite` say what is in it after a list of
  writes, in any order.
-/
namespace Paro

open Function

def byteBit (b : UInt8) (j : Nat) : Bool := b.toNat.testBit j

theorem byte_ext {a b : UInt8} (h : ∀ j < 8, byteBit a j = byteBit b j) : a = b := by
  refine UInt8.toNat_inj.1 (Nat.eq_of_testBit_eq fun j => ?_)
  rcases lt_or_ge j 8 with hj | hj
  · exact h j hj
  · have hbound : ∀ c : UInt8, c.toNat.testBit j = false := fun c =>
      Nat.testBit_lt_two_pow (lt_of_lt_of_le c.toNat_lt (Nat.pow_le_pow_right (by decide) hj))
    rw [hbound, hbound]

variable {i j : Nat} {ws : List (Nat × UInt8)}

theorem testBit_ofLeBytes {bs : List UInt8} (hj : j < 8) :
    (ofLeBytes bs).testBit (8 * i + j) = byteBit (bs.getD i 0) j := by
  induction bs generalizing i with
  | nil => simp [ofLeBytes, byteBit]
  | cons b bs ih =>
    have hb : b.toNat < 2 ^ 8 := b.toNat_lt
    have hsum : ofLeBytes (b :: bs) = 2 ^ 8 * ofLeBytes bs + b.toNat := by
      rw [ofLeBytes]
      omega
    rw [hsum, Nat.testBit_two_pow_mul_add _ hb]
    cases i with
    | zero =>
      rw [if_pos (by omega), mul_zero, zero_add]
      rfl
    | succ i =>
      rw [if_neg (by omega), show 8 * (i + 1) + j - 8 = 8 * i + j by omega, ih]
      rfl

theorem testBit_leBytes {width n : Nat} (hi : i < width) (hj : j < 8) :
    byteBit ((leBytes width n).getD i 0) j = n.testBit (8 * i + j) := by
  rw [← testBit_ofLeBytes hj, ofLeBytes_leBytes_mod, show (256 : Nat) = 2 ^ 8 from rfl, ← Nat.pow_mul,
    Nat.testBit_mod_two_pow]
  have : 8 * i + j < 8 * width := by omega
  simp [this]

/-! ## Delta swaps -/

/-- Exchange the bits of a mask with the bits `k` places above. -/
def deltaSwap {w : Nat} (mask : BitVec w) (k : Nat) (v : BitVec w) : BitVec w :=
  let swap := (v ^^^ (v >>> k)) &&& mask
  v ^^^ (swap ^^^ (swap <<< k))

def deltaPlace {w : Nat} (mask : BitVec w) (k i : Nat) : Nat :=
  if mask.getLsbD i then i + k else if k ≤ i ∧ mask.getLsbD (i - k) then i - k else i

theorem getLsbD_deltaSwap {w : Nat} {mask : BitVec w} {k : Nat} (v : BitVec w) (hi : i < w)
    (hdisjoint : mask.getLsbD i = true → k ≤ i → mask.getLsbD (i - k) = false) :
    (deltaSwap mask k v).getLsbD i = v.getLsbD (deltaPlace mask k i) := by
  simp only [deltaSwap, deltaPlace, BitVec.getLsbD_xor, BitVec.getLsbD_and, BitVec.getLsbD_shiftLeft,
    BitVec.getLsbD_ushiftRight]
  by_cases hmask : mask.getLsbD i = true
  · rw [if_pos hmask]
    by_cases hk : k ≤ i
    · simp [hmask, hdisjoint hmask hk, add_comm]
    · simp [hmask, Nat.lt_of_not_le hk, add_comm]
  · rw [if_neg hmask]
    by_cases hlow : k ≤ i ∧ mask.getLsbD (i - k) = true
    · obtain ⟨hk, hlow'⟩ := hlow
      rw [if_pos ⟨hk, hlow'⟩]
      have hmask' : mask.getLsbD i = false := Bool.eq_false_of_not_eq_true hmask
      have hki : decide (i < k) = false := decide_eq_false (not_lt.2 hk)
      rw [hmask', hlow', hki, decide_eq_true hi, show k + (i - k) = i by omega]
      cases v.getLsbD i <;> cases v.getLsbD (i - k) <;> cases v.getLsbD (k + i) <;> rfl
    · rw [if_neg hlow]
      by_cases hk : k ≤ i
      · simp [hmask, show mask.getLsbD (i - k) = false by simpa [hk] using hlow]
      · simp [hmask, Nat.lt_of_not_le hk]

/-! ## Writes into a buffer -/

abbrev Buffer := Nat → UInt8

def write (buffer : Buffer) (w : Nat × UInt8) : Buffer := update buffer w.1 w.2

def orWrite (buffer : Buffer) (w : Nat × UInt8) : Buffer := update buffer w.1 (buffer w.1 ||| w.2)

variable {buffer : Buffer}

theorem foldl_write {v : UInt8} (hall : ∀ w ∈ ws, w.1 = i → w.2 = v) (hsome : (∃ w ∈ ws, w.1 = i) ∨ buffer i = v) :
    ws.foldl write buffer i = v := by
  induction ws generalizing buffer with
  | nil =>
    rcases hsome with ⟨w, hw, -⟩ | h
    · cases hw
    · exact h
  | cons w ws ih =>
    refine ih (fun u hu => hall u (List.mem_cons_of_mem w hu)) ?_
    by_cases hw : w.1 = i
    · right
      rw [write, hw, update_self]
      exact hall w List.mem_cons_self hw
    · rcases hsome with ⟨u, hu, hui⟩ | h
      · rcases List.mem_cons.1 hu with rfl | hu
        · exact absurd hui hw
        · exact .inl ⟨u, hu, hui⟩
      · right
        rw [write, update_of_ne (Ne.symm hw)]
        exact h

theorem foldl_write_other (h : ∀ w ∈ ws, w.1 ≠ i) : ws.foldl write buffer i = buffer i :=
  foldl_write (fun w hw hi => absurd hi (h w hw)) (.inr rfl)

theorem bit_foldl_orWrite : byteBit (ws.foldl orWrite buffer i) j = true ↔
      byteBit (buffer i) j = true ∨ ∃ w ∈ ws, w.1 = i ∧ byteBit w.2 j = true := by
  induction ws generalizing buffer with
  | nil => simp
  | cons w ws ih =>
    rw [List.foldl_cons, ih]
    have hstep : byteBit (orWrite buffer w i) j = true ↔
        byteBit (buffer i) j = true ∨ w.1 = i ∧ byteBit w.2 j = true := by
      by_cases hw : w.1 = i
      · subst hw
        rw [orWrite, update_self, byteBit, UInt8.toNat_or, Nat.testBit_or, Bool.or_eq_true]
        simp [byteBit]
      · rw [orWrite, update_of_ne (Ne.symm hw)]
        simp [hw]
    rw [hstep]
    simp [or_assoc]

end Paro
