import Mathlib.Algebra.Order.Ring.Int
import Mathlib.Data.List.GetD

/-!
# Loops over a list in a monad
-/
namespace Paro

open List

variable {β α ε : Type} {l : List α}

/-- A loop whose rounds all return. -/
theorem mapM_eq_pure {m : Type → Type} [Monad m] [LawfulMonad m] {f : α → m β} {g : α → β}
    (h : ∀ a ∈ l, f a = pure (g a)) : l.mapM f = pure (l.map g) := by
  induction l with
  | nil => rfl
  | cons a l ih =>
    rw [mapM_cons, h a mem_cons_self, ih fun b hb => h b (mem_cons_of_mem a hb), pure_bind, pure_bind]
    rfl

/-- One round that fails is enough. -/
theorem mapM_eq_none {f : α → Option β} {a : α} (ha : a ∈ l) (h : f a = none) : l.mapM f = none := by
  induction l with
  | nil => cases ha
  | cons b l ih =>
    rw [mapM_cons]
    rcases mem_cons.1 ha with rfl | ha
    · rw [h]
      rfl
    · cases f b with
      | none => rfl
      | some c =>
        show (l.mapM f).bind (fun bs => some (c :: bs)) = none
        rw [ih ha]
        rfl

theorem bind_eq_ok {x : Except ε α} {f : α → Except ε β} {b : β} : x >>= f = .ok b ↔ ∃ a, x = .ok a ∧ f a = .ok b := by
  cases x with
  | error e | ok a => simp [bind, Except.bind]

/-- A loop over the places of a list. -/
theorem map_range_getD (g : α → β) (l : List α) (d : α) :
    ((List.range l.length).map fun i => g (l.getD i d)) = l.map g := by
  refine ext_getElem (by rw [length_map, length_map, length_range]) fun i hi hi' => ?_
  rw [getElem_map, getElem_map, getElem_range, getD_eq_getElem]

/-- A loop whose rounds all succeed. -/
theorem foldlM_ok {σ : Type} {f : σ → α → Except ε σ} {g : σ → α → σ}
    (h : ∀ s, ∀ a ∈ l, f s a = .ok (g s a)) (s : σ) : l.foldlM f s = .ok (l.foldl g s) := by
  induction l generalizing s with
  | nil => rfl
  | cons a l ih =>
    rw [foldlM_cons, h s a mem_cons_self]
    exact ih (fun s b hb => h s b (mem_cons_of_mem a hb)) (g s a)

end Paro
