import Mathlib.Algebra.Order.Ring.Int
import Mathlib.Order.WellFounded

/-!
# Cycles in histories of snapshot reads

Each transaction reads a snapshot taken at its start and installs its writes at its commit. A
dependency runs from a commit to a start that comes no earlier; an antidependency runs from a
start to a commit that the snapshot misses. `acyclic_of_no_pivot`: a cycle has two consecutive
antidependencies into its first commit, so a history without such a pivot has no cycle.
-/
namespace Paro

universe u

structure SnapshotHistory (V : Type u) where
  start : V → Nat
  commit : V → Nat
  dep : V → V → Prop
  anti : V → V → Prop
  commit_le : ∀ {i j}, dep i j → commit i ≤ start j
  start_lt : ∀ {i j}, dep i j → start j < commit j
  missed : ∀ {i j}, anti i j → start i < commit j

namespace SnapshotHistory
open Relation

variable {V : Type u} (H : SnapshotHistory V)

def Edge (i j : V) : Prop := H.dep i j ∨ H.anti i j

/-- Two antidependencies in a row, the last into a commit no later than the other two. -/
structure Pivot (i j k : V) : Prop where
  into : H.anti i j
  out : H.anti j k
  first : H.commit k ≤ H.commit j
  before : H.commit k ≤ H.commit i

variable {H}

/-- On a cycle through `v`, every node has a predecessor on it. -/
theorem exists_pred {r : V → V → Prop} {v y : V} (hvy : TransGen r v y) (hyv : TransGen r y v) :
    ∃ z, r z y ∧ TransGen r v z ∧ TransGen r z v := by
  have hyy : TransGen r y y := hyv.trans hvy
  obtain ⟨z, hyz, hzy⟩ := (TransGen.tail'_iff).1 hyy
  exact ⟨z, hzy, hvy.trans_left hyz, (TransGen.single hzy).trans hyv⟩

theorem acyclic_of_no_pivot (h : ∀ i j k, ¬ H.Pivot i j k) (v : V) : ¬ TransGen H.Edge v v := by
  intro hc
  -- the node of the cycle that commits first
  obtain ⟨k, ⟨hvk, hkv⟩, hmin⟩ := WellFounded.has_min (InvImage.wf H.commit Nat.lt_wfRel.wf)
    {y | TransGen H.Edge v y ∧ TransGen H.Edge y v} ⟨v, hc, hc⟩
  have hle : ∀ y, TransGen H.Edge v y → TransGen H.Edge y v → H.commit k ≤ H.commit y :=
    fun y h1 h2 => Nat.not_lt.1 (hmin y ⟨h1, h2⟩)
  obtain ⟨j, hjk, hvj, hjv⟩ := exists_pred hvk hkv
  obtain ⟨i, hij, hvi, hiv⟩ := exists_pred hvj hjv
  have hkj := hle j hvj hjv
  have hki := hle i hvi hiv
  rcases hjk with hdep | hout
  · have := H.commit_le hdep
    have := H.start_lt hdep
    omega
  rcases hij with hdep | hin
  · have := H.commit_le hdep
    have := H.missed hout
    omega
  exact h i j k ⟨hin, hout, hkj, hki⟩

end SnapshotHistory
end Paro
