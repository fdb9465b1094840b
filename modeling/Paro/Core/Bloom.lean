import Mathlib.Algebra.Order.Ring.Int
import Mathlib.Data.List.Basic

/-!
# Bloom filters

A filter is a list of 64-bit words. A member sets the bits at its positions (`add`), and `mayContain` asks
whether they are all set, so a filter never denies a member (`mayContain_addAll`).
-/
namespace Paro.Bloom

open List

universe u

def mask (bit : Nat) : UInt64 := 1 <<< UInt64.ofNat (bit % 64)

variable (words : List UInt64) (bit : Nat)

def setBit : List UInt64 := words.modify (bit / 64) (· ||| mask bit)

def testBit : Bool := words.getD (bit / 64) 0 &&& mask bit != 0

variable (bits : List Nat)

def add : List UInt64 := bits.foldl setBit words

def mayContain : Bool := bits.all (testBit words)

theorem mask_ne_zero : mask bit ≠ 0 := by
  have h : ∀ i : Fin 64, (1 : UInt64) <<< UInt64.ofNat i.val ≠ 0 := by decide
  exact h ⟨bit % 64, Nat.mod_lt _ (by decide)⟩

theorem or_and_self (x m : UInt64) : (x ||| m) &&& m = m := by
  rw [← UInt64.toBitVec_inj]
  ext i
  simp
  tauto

theorem and_eq_zero_of_or {x y m : UInt64} (h : (x ||| y) &&& m = 0) : x &&& m = 0 := by
  have hx : x &&& m = ((x ||| y) &&& m) &&& x := by
    rw [← UInt64.toBitVec_inj]
    ext i
    simp only [UInt64.toBitVec_and, UInt64.toBitVec_or, BitVec.getElem_and, BitVec.getElem_or]
    cases x.toBitVec[i] <;> simp
  rw [hx, h]
  simp

@[simp] theorem length_setBit : (setBit words bit).length = words.length :=
  length_modify ..

@[simp] theorem length_add : (add words bits).length = words.length := by
  induction bits generalizing words with
  | nil => rfl
  | cons b bits ih => rw [add, foldl_cons, ← add, ih, length_setBit]

variable {words : List UInt64} {bit : Nat}

theorem testBit_setBit_self (h : bit < 64 * words.length) : testBit (setBit words bit) bit = true := by
  have hlt : bit / 64 < words.length := by omega
  simp [testBit, setBit, hlt, or_and_self, mask_ne_zero]

theorem testBit_setBit {other : Nat} (h : testBit words bit = true) : testBit (setBit words other) bit = true := by
  simp only [testBit, setBit, bne_iff_ne, ne_eq, getD_eq_getElem?_getD, List.getElem?_modify] at h ⊢
  intro hzero
  apply h
  cases hw : words[bit / 64]? with
  | none => simp
  | some w =>
    rw [hw] at hzero
    simp only [Option.getD_some] at hzero ⊢
    split at hzero
    · exact and_eq_zero_of_or hzero
    · exact hzero

theorem testBit_add {words : List UInt64} {bit : Nat} {bits : List Nat} (h : testBit words bit = true) :
    testBit (add words bits) bit = true := by
  induction bits generalizing words with
  | nil => exact h
  | cons b bits ih => exact ih (testBit_setBit h)

theorem testBit_add_of_mem {bits : List Nat} (hmem : bit ∈ bits)
    (h : bit < 64 * words.length) : testBit (add words bits) bit = true := by
  induction bits generalizing words with
  | nil => cases hmem
  | cons b bits ih =>
    rcases mem_cons.1 hmem with rfl | hmem
    · exact @testBit_add (setBit words bit) bit bits (testBit_setBit_self h)
    · exact ih hmem (by simpa using h)

section
variable {α : Type u} {position : α → List Nat} {members : List α} {words : List UInt64}

/-- A filter does not deny what was added to it. -/
theorem mayContain_addAll {a : α} (hmem : a ∈ members) (hlt : ∀ bit ∈ position a, bit < 64 * words.length) :
    mayContain (members.foldl (fun words a => add words (position a)) words) (position a) = true := by
  refine all_eq_true.2 fun bit hbit => ?_
  induction members generalizing words with
  | nil => cases hmem
  | cons b members ih =>
    have hkeep : ∀ {words : List UInt64}, testBit words bit = true →
        testBit (members.foldl (fun words a => add words (position a)) words) bit = true := by
      intro words h
      clear ih hmem hlt
      induction members generalizing words with
      | nil => exact h
      | cons c members ih => exact ih (testBit_add h)
    rcases mem_cons.1 hmem with rfl | hmem
    · exact hkeep (testBit_add_of_mem hbit (hlt bit hbit))
    · exact ih hmem (by simpa using hlt)

theorem length_addAll : (members.foldl (fun words a => add words (position a)) words).length = words.length := by
  induction members generalizing words with
  | nil => rfl
  | cons b members ih => rw [foldl_cons, ih, length_add]

end

end Paro.Bloom
