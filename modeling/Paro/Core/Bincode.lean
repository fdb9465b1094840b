import Paro.Core.LittleEndian

/-!
# Fixed-width binary layout

The layout of a serializer that writes integers in their full width, lowest byte first, a
sequence or a text as a 64-bit count and its items, an option as a one-byte tag and an
enumeration as a 32-bit tag. A tuple is the concatenation of its fields, and so is a record.
`size` is the length of the encoding, so what is said about it is said about the bytes. The
`simp` lemmas turn it into a sum over the fields, with `itemsSize` for the items of a sequence.
-/
namespace Paro

class Serialize (α : Type) where
  serialize : α → List UInt8

namespace Bincode
open Serialize (serialize)

variable {α β : Type} [Serialize α] [Serialize β]

def size (a : α) : Nat := (serialize a).length

instance : Serialize UInt8 := ⟨fun x => [x]⟩
instance : Serialize UInt16 := ⟨fun x => leBytes 2 x.toNat⟩
instance : Serialize UInt32 := ⟨fun x => leBytes 4 x.toNat⟩
instance : Serialize UInt64 := ⟨fun x => leBytes 8 x.toNat⟩
instance : Serialize Int64 := ⟨fun x => leBytes 8 x.toUInt64.toNat⟩
instance : Serialize Bool := ⟨fun b => [if b then 1 else 0]⟩
instance : Serialize String := ⟨fun s => leBytes 8 s.utf8ByteSize ++ s.toUTF8.data.toList⟩
instance : Serialize (α × β) := ⟨fun p => serialize p.1 ++ serialize p.2⟩
instance : Serialize (List α) := ⟨fun l => leBytes 8 l.length ++ l.flatMap serialize⟩
instance : Serialize (Option α) := ⟨fun o => o.elim [0] fun a => 1 :: serialize a⟩

def tag (i : Nat) : List UInt8 := leBytes 4 i

/-- The size of the items of a sequence, without the count. -/
def itemsSize (l : List α) : Nat := (l.flatMap serialize).length

@[simp] theorem length_tag (i : Nat) : (tag i).length = 4 := length_leBytes 4 i

@[simp] theorem length_u16 (x : UInt16) : (serialize x).length = 2 := length_leBytes ..
@[simp] theorem length_u64 (x : UInt64) : (serialize x).length = 8 := length_leBytes ..
@[simp] theorem length_prod (a : α) (b : β) :
    (serialize (a, b)).length = (serialize a).length + (serialize b).length := List.length_append
@[simp] theorem length_list (l : List α) : (serialize l).length = 8 + itemsSize l := by
  simp [serialize, itemsSize]

@[simp] theorem itemsSize_nil : itemsSize ([] : List α) = 0 := rfl

@[simp] theorem itemsSize_cons (a : α) (l : List α) : itemsSize (a :: l) = (serialize a).length + itemsSize l := by
  simp [itemsSize]

@[simp] theorem itemsSize_append (l1 l2 : List α) : itemsSize (l1 ++ l2) = itemsSize l1 + itemsSize l2 := by
  simp [itemsSize]

/-- Items of one fixed size. -/
theorem itemsSize_eq_mul {c : Nat} (hc : ∀ a : α, (serialize a).length = c) (l : List α) :
    itemsSize l = c * l.length := by
  induction l with
  | nil => rfl
  | cons a l ih => rw [itemsSize_cons, ih, hc, List.length_cons, Nat.mul_succ, Nat.add_comm]

/-- Items of one size each are as long as the items they replace. -/
theorem itemsSize_map_eq {f : α → β} (hf : ∀ a, (serialize (f a)).length = (serialize a).length)
    (l : List α) : itemsSize (l.map f) = itemsSize l := by
  induction l with
  | nil => rfl
  | cons a l ih => simp [ih, hf]

/-- A loop that grows `μ` by at most the encoded size of each item grows it by at most the
encoded size of all. -/
theorem foldl_le_itemsSize {σ : Type} {μ : σ → Nat} {f : σ → α → σ}
    (hf : ∀ s a, μ (f s a) ≤ μ s + (serialize a).length) (l : List α) (s : σ) :
    μ (l.foldl f s) ≤ μ s + itemsSize l := by
  induction l generalizing s with
  | nil => exact le_rfl
  | cons a l ih =>
    have h1 := ih (f s a)
    have h2 := hf s a
    rw [List.foldl_cons, itemsSize_cons]
    omega

end Bincode
end Paro
