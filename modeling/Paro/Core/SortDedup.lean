import Mathlib.Algebra.Order.Ring.Int
import Mathlib.Data.List.Sort

/-!
# Sort and dedup

The source normalises a vector by sorting it and dropping adjacent repeats, or by keeping
the first of equal elements. Insertion sort is stable, as the source's sort is, and
structural, so the result computes. Logs in timestamp order are cut from the front.
-/
namespace Paro

open List

universe u
variable {α : Type u} [DecidableEq α]

def dedup : List α → List α
  | [] => []
  | [a] => [a]
  | a :: b :: l => if a = b then dedup (b :: l) else a :: dedup (b :: l)

@[simp] theorem mem_dedup {a : α} : ∀ {l : List α}, a ∈ dedup l ↔ a ∈ l
  | [] => by simp [dedup]
  | [b] => by simp [dedup]
  | b :: c :: l => by
    have ih := mem_dedup (a := a) (l := c :: l)
    simp only [dedup]
    split
    · rename_i hbc
      subst hbc
      simp [ih]
    · rw [mem_cons, ih, mem_cons (l := c :: l)]

theorem length_dedup_le : ∀ l : List α, (dedup l).length ≤ l.length
  | [] => le_refl _
  | [_] => le_refl _
  | a :: b :: l => by
    have ih := length_dedup_le (b :: l)
    rw [dedup]
    split
    · exact Nat.le_succ_of_le ih
    · exact Nat.succ_le_succ ih

variable (r : α → α → Prop) [DecidableRel r]

def sortDedup (l : List α) : List α := dedup (l.insertionSort r)

variable {a : α} {l seen : List α}

@[simp] theorem mem_sortDedup : a ∈ sortDedup r l ↔ a ∈ l := by
  simp [sortDedup, mem_insertionSort]

theorem length_sortDedup_le (l : List α) : (sortDedup r l).length ≤ l.length := by
  have h := length_dedup_le (l.insertionSort r)
  rwa [length_insertionSort] at h

@[simp] theorem sortDedup_eq_nil : sortDedup r l = [] ↔ l = [] := by
  simp only [eq_nil_iff_forall_not_mem, mem_sortDedup]

/-- Keep the first of equal elements, and none that was seen before. -/
def keepFirst (seen : List α) : List α → List α
  | [] => []
  | a :: l => if a ∈ seen then keepFirst seen l else a :: keepFirst (a :: seen) l

theorem mem_keepFirst : a ∈ keepFirst seen l ↔ a ∈ l ∧ a ∉ seen := by
  induction l generalizing seen with
  | nil => simp [keepFirst]
  | cons b l ih =>
    unfold keepFirst
    split
    · rename_i hb
      have hold : ¬(a = b ∧ a ∉ seen) := fun h => h.2 (h.1 ▸ hb)
      rw [ih, mem_cons, or_and_right, or_iff_right hold]
    · rename_i hb
      rw [mem_cons, ih, mem_cons, mem_cons]
      by_cases hab : a = b
      · subst hab; simp [hb]
      · simp [hab]

theorem nodup_keepFirst : (keepFirst seen l).Nodup := by
  induction l generalizing seen with
  | nil => simp [keepFirst]
  | cons b l ih =>
    unfold keepFirst
    split
    · exact ih
    · refine nodup_cons.2 ⟨fun h => ?_, ih⟩
      exact (mem_keepFirst.1 h).2 mem_cons_self

/-- A list without repeats is kept as it is. -/
theorem keepFirst_of_nodup (hn : l.Nodup) (hd : ∀ a ∈ l, a ∉ seen) : keepFirst seen l = l := by
  induction l generalizing seen with
  | nil => rfl
  | cons b l ih =>
    obtain ⟨hb, hn⟩ := nodup_cons.1 hn
    unfold keepFirst
    rw [if_neg (hd b mem_cons_self), ih hn]
    intro a ha hm
    rcases mem_cons.1 hm with rfl | hm
    · exact hb ha
    · exact hd a (mem_cons_of_mem _ ha) hm

omit [DecidableEq α] in
/-- Dropping the front of a list in timestamp order drops what is at or below the bound. -/
theorem mem_dropWhile_of_sorted {f : α → Nat} {h : Nat} (hs : l.Pairwise fun a b => f a ≤ f b) :
    a ∈ l.dropWhile (fun a => decide (f a ≤ h)) ↔ a ∈ l ∧ h < f a := by
  induction l with
  | nil => simp
  | cons b l ih =>
    obtain ⟨hb, hs⟩ := pairwise_cons.1 hs
    rw [dropWhile_cons]
    split
    · rename_i hle
      have hle : f b ≤ h := by simpa using hle
      have hlow : ¬(a = b ∧ h < f a) := fun hab => absurd (hab.1 ▸ hab.2) (not_lt.2 hle)
      rw [ih hs, mem_cons, or_and_right, or_iff_right hlow]
    · rename_i hgt
      have hgt : h < f b := by simpa using hgt
      refine ⟨fun ha => ⟨ha, ?_⟩, fun ha => ha.1⟩
      rcases mem_cons.1 ha with rfl | ha
      · exact hgt
      · exact lt_of_lt_of_le hgt (hb a ha)

end Paro
