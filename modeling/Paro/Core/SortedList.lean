import Mathlib.Algebra.Order.Ring.Int
import Mathlib.Data.List.Lex
import Mathlib.Data.List.Nodup
import Mathlib.Data.Prod.Lex

/-!
# Sorted lists as maps

An ordered map is kept as the list of its rows in strictly increasing order of a key. `insertBy` puts a row
at its place and replaces one with the same key.
-/
namespace Paro

open List

instance instLinearOrderUInt8 : LinearOrder UInt8 where
  le_refl a := UInt8.le_refl a
  le_trans a b c h h' := UInt8.le_trans h h'
  le_antisymm a b h h' := UInt8.le_antisymm h h'
  le_total a b := UInt8.le_total a b
  lt_iff_le_not_ge a b := by
    rw [UInt8.lt_iff_toNat_lt, UInt8.le_iff_toNat_le, UInt8.le_iff_toNat_le]
    omega
  toDecidableLE := inferInstance
  toDecidableLT := inferInstance
  toDecidableEq := inferInstance

namespace SortedList

universe u v
variable {α : Type u} {κ : Type v} [LinearOrder κ] (key : α → κ)

abbrev Sorted (l : List α) : Prop := l.Pairwise fun a b => key a < key b

def insertBy (a : α) : List α → List α
  | [] => [a]
  | b :: l =>
    if key a < key b then a :: b :: l
    else if key b < key a then b :: insertBy a l
    else a :: l

variable {key} {a b : α} {l : List α}

section
variable (h : Sorted key l)
include h

theorem mem_insertBy : b ∈ insertBy key a l ↔ b = a ∨ b ∈ l ∧ key b ≠ key a := by
  induction l with
  | nil => simp [insertBy]
  | cons c l ih =>
    obtain ⟨hc, hl⟩ := pairwise_cons.1 h
    unfold insertBy
    split
    · rename_i hlt
      have hne : ∀ d ∈ c :: l, key d ≠ key a := by
        exact forall_mem_cons.2 ⟨ne_of_gt hlt, fun d hd => ne_of_gt (lt_trans hlt (hc d hd))⟩
      rw [mem_cons]
      exact or_congr_right ⟨fun hb => ⟨hb, hne b hb⟩, fun hb => hb.1⟩
    · split
      · rename_i hlt
        have hne : b = c → key b ≠ key a := fun h => h ▸ ne_of_lt hlt
        rw [mem_cons, ih hl, mem_cons, or_left_comm, or_and_right, and_iff_left_of_imp hne]
      · rename_i hge hle
        have heq : key c = key a := le_antisymm (not_lt.1 hge) (not_lt.1 hle)
        have hold : ¬(b = c ∧ key b ≠ key a) := fun h => h.2 (h.1 ▸ heq)
        have hne : b ∈ l → key b ≠ key a := fun hb => heq ▸ ne_of_gt (hc b hb)
        rw [mem_cons, mem_cons, or_and_right, or_iff_right hold, and_iff_left_of_imp hne]

theorem sorted_insertBy : Sorted key (insertBy key a l) := by
  induction l with
  | nil => exact pairwise_singleton _ _
  | cons c l ih =>
    obtain ⟨hc, hl⟩ := pairwise_cons.1 h
    unfold insertBy
    split
    · rename_i hlt
      exact pairwise_cons.2 ⟨forall_mem_cons.2 ⟨hlt, fun d hd => lt_trans hlt (hc d hd)⟩, h⟩
    · split
      · rename_i hlt
        refine pairwise_cons.2 ⟨fun d hd => ?_, ih hl⟩
        rcases (mem_insertBy hl).1 hd with rfl | hd
        · exact hlt
        · exact hc d hd.1
      · rename_i hge hle
        have heq : key c = key a := le_antisymm (not_lt.1 hge) (not_lt.1 hle)
        exact pairwise_cons.2 ⟨fun d hd => heq ▸ hc d hd, hl⟩

theorem Sorted.nodup_keys : (l.map key).Nodup := by
  rw [List.Nodup, pairwise_map]
  exact h.imp ne_of_lt

/-- Two rows of a sorted list with one key are one row. -/
theorem Sorted.eq_of_key (ha : a ∈ l) (hb : b ∈ l) (hk : key a = key b) : a = b :=
  inj_on_of_nodup_map h.nodup_keys ha hb hk

/-- What is found first has the least key. -/
theorem Sorted.find?_first {p : α → Bool} (hf : l.find? p = some a) (hb : b ∈ l)
    (hlt : key b < key a) : p b = false := by
  obtain ⟨-, before, after, rfl, hbefore⟩ := find?_eq_some_iff_append.1 hf
  rcases mem_append.1 hb with hb | hb
  · simpa using hbefore b hb
  · rcases mem_cons.1 hb with rfl | hb
    · exact absurd hlt (lt_irrefl _)
    · exact absurd hlt (lt_asymm ((pairwise_cons.1 (pairwise_append.1 h).2.1).1 b hb))

theorem sorted_foldl_insertBy {rows : List α} : Sorted key (rows.foldl (fun l a => insertBy key a l) l) :=
  rows.foldlRecOn _ h fun _ hl _ _ => sorted_insertBy hl

end

/-! ## Searching -/

/-- `slice::partition_point`: the number of leading rows that satisfy `p`. -/
def partitionPoint (p : α → Bool) (l : List α) : Nat := (l.takeWhile p).length

/-- `slice::binary_search_by_key`: the place of the row with key `k`, or where it would be put. -/
def binarySearchByKey (key : α → κ) (k : κ) (l : List α) : Except Nat Nat :=
  let pos := partitionPoint (fun b => key b < k) l
  if (l[pos]?).any (fun b => decide (key b = k)) then .ok pos else .error pos

/-- A partition point by the key divides the rows. -/
theorem Sorted.exists_partition (h : Sorted key l) (k : κ) : ∃ low high, l = low ++ high ∧
    partitionPoint (fun a => decide (key a ≤ k)) l = low.length ∧ (∀ a ∈ low, key a ≤ k) ∧ ∀ a ∈ high, k < key a := by
  induction l with
  | nil => exact ⟨[], [], rfl, rfl, forall_mem_nil _, forall_mem_nil _⟩
  | cons b l ih =>
    obtain ⟨hb, hl⟩ := pairwise_cons.1 h
    by_cases hk : key b ≤ k
    · obtain ⟨low, high, rfl, hpos, hlow, hhigh⟩ := ih hl
      refine ⟨b :: low, high, rfl, ?_, forall_mem_cons.2 ⟨hk, hlow⟩, hhigh⟩
      rw [partitionPoint] at hpos ⊢
      simp [hk, hpos]
    · refine ⟨[], b :: l, rfl, by simp [partitionPoint, hk], forall_mem_nil _, ?_⟩
      exact forall_mem_cons.2 ⟨not_le.1 hk, fun a ha => lt_trans (not_le.1 hk) (hb a ha)⟩

theorem binarySearchByKey_cons {k : κ} (h : key b < k) : binarySearchByKey key k (b :: l) =
      match binarySearchByKey key k l with
      | .ok pos => .ok (pos + 1)
      | .error pos => .error (pos + 1) := by
  have hpos : partitionPoint (fun c => decide (key c < k)) (b :: l) =
      partitionPoint (fun c => decide (key c < k)) l + 1 := by
    simp [partitionPoint, h]
  unfold binarySearchByKey
  rw [hpos]
  dsimp only
  rw [List.getElem?_cons_succ]
  split
  · rfl
  · rfl

/-- Putting a row where the search says. -/
theorem insertBy_eq_search : insertBy key a l =
      match binarySearchByKey key (key a) l with
      | .ok pos => l.set pos a
      | .error pos => l.insertIdx pos a := by
  induction l with
  | nil => rfl
  | cons b l ih =>
    by_cases hba : key b < key a
    · have hab : ¬ key a < key b := not_lt.2 (le_of_lt hba)
      rw [insertBy, if_neg hab, if_pos hba, ih]
      rw [binarySearchByKey_cons hba]
      cases binarySearchByKey key (key a) l <;> rfl
    · by_cases hab : key a < key b
      · simp [insertBy, binarySearchByKey, partitionPoint, hab, hba, ne_of_gt hab]
      · have heq : key b = key a := le_antisymm (not_lt.1 hab) (not_lt.1 hba)
        simp [insertBy, binarySearchByKey, partitionPoint, heq]

theorem insertBy_of_lt (h : ∀ b ∈ l, key b < key a) : insertBy key a l = l ++ [a] := by
  induction l with
  | nil => rfl
  | cons b l ih =>
    have hb := h b mem_cons_self
    rw [insertBy, if_neg (not_lt.2 (le_of_lt hb)), if_pos hb, ih fun c hc => h c (mem_cons_of_mem b hc)]
    rfl

theorem insertBy_replace_last (h : ∀ b ∈ l, key b < key a) {c : α} (hc : key c = key a) :
    insertBy key a (l ++ [c]) = l ++ [a] := by
  induction l with
  | nil => simp [insertBy, hc]
  | cons b l ih =>
    have hb := h b mem_cons_self
    rw [cons_append, insertBy, if_neg (not_lt.2 (le_of_lt hb)), if_pos hb, ih fun d hd => h d (mem_cons_of_mem b hd)]
    rfl

end SortedList
end Paro
