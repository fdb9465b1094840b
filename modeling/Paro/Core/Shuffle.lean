import Mathlib.Algebra.Order.Ring.Int
import Mathlib.Data.List.Perm.Basic

/-!
# Shuffles

`Shuffle xs ys zs`: the list `zs` consists of the elements of `xs` and of `ys`, each in its own
order. It is what a loop leaves behind that sends every element to one of two outputs.
-/
namespace Paro

universe u
variable {α : Type u}

inductive Shuffle : List α → List α → List α → Prop
  | done : Shuffle [] [] []
  | fst {a : α} {xs ys zs : List α} : Shuffle xs ys zs → Shuffle (a :: xs) ys (a :: zs)
  | snd {a : α} {xs ys zs : List α} : Shuffle xs ys zs → Shuffle xs (a :: ys) (a :: zs)

theorem Shuffle.perm {xs ys zs : List α} (h : Shuffle xs ys zs) : zs.Perm (xs ++ ys) := by
  induction h with
  | done => exact .refl _
  | fst _ ih => exact ih.cons _
  | snd _ ih => exact (ih.cons _).trans List.perm_middle.symm

end Paro
