import Mathlib.Algebra.Order.Ring.Int
import Mathlib.Data.List.Basic

/-!
# Frontiers

A frontier collects numbers in any order and releases them in sequence: `next` is the first number that
was not released, `ready` holds the numbers that are waiting for a smaller one.

* `release_released`: with enough fuel, `release` hands out exactly the run of ready numbers that starts
  at `next`, and stops at the first one that is missing.
-/
namespace Paro

open List

structure Frontier where
  next : Nat := 0
  ready : List Nat := []
deriving DecidableEq, Repr

namespace Frontier

/-- Hand out `next` as long as it is ready. -/
def release : Nat → Frontier → List Nat × Frontier
  | 0, f => ([], f)
  | fuel + 1, f =>
    if f.next ∈ f.ready then
      let out := release fuel ⟨f.next + 1, f.ready.filter (· ≠ f.next)⟩
      (f.next :: out.1, out.2)
    else ([], f)

/-- What `release` may do: hand out a run of ready numbers from `next` on, and nothing more can follow. -/
structure Released (f : Frontier) (out : List Nat) (f' : Frontier) : Prop where
  run : out = List.range' f.next out.length
  next : f'.next = f.next + out.length
  wasReady : ∀ n ∈ out, n ∈ f.ready
  stillReady : ∀ n, n ∈ f'.ready ↔ n ∈ f.ready ∧ n ∉ out
  stuck : f'.next ∉ f'.ready

variable {f : Frontier}

theorem Released.mem_iff {f' : Frontier} {out : List Nat} (h : Released f out f') {n : Nat} :
    n ∈ out ↔ f.next ≤ n ∧ n < f'.next := by
  rw [h.run, h.next, mem_range'_1]

theorem release_released {fuel : Nat} (h : f.ready.length ≤ fuel) :
    Released f (release fuel f).1 (release fuel f).2 := by
  induction fuel generalizing f with
  | zero =>
    have hnil : f.ready = [] := length_eq_zero_iff.1 (Nat.le_zero.1 h)
    refine ⟨rfl, rfl, fun n hn => (by cases hn), fun n => ?_, ?_⟩
    · simp [release]
    · simp [release, hnil]
  | succ fuel ih =>
    rw [release]
    by_cases hmem : f.next ∈ f.ready
    · have hlen : (f.ready.filter (· ≠ f.next)).length ≤ fuel := by
        have hlt : (f.ready.filter (· ≠ f.next)).length < f.ready.length :=
          length_filter_lt_length_iff_exists.2 ⟨f.next, hmem, by simp⟩
        omega
      have hrest := @ih ⟨f.next + 1, f.ready.filter (· ≠ f.next)⟩ hlen
      generalize release fuel ⟨f.next + 1, f.ready.filter (· ≠ f.next)⟩ = out at hrest ⊢
      rw [if_pos hmem]
      refine ⟨?_, ?_, ?_, ?_, hrest.stuck⟩
      · rw [length_cons, List.range'_succ]
        exact congrArg (f.next :: ·) hrest.run
      · rw [hrest.next, length_cons, Nat.add_assoc, Nat.add_comm 1]
      · exact forall_mem_cons.2 ⟨hmem, fun n hn => (mem_filter.1 (hrest.wasReady n hn)).1⟩
      · intro n
        rw [hrest.stillReady, mem_filter, mem_cons, not_or, decide_eq_true_eq, and_assoc]
    · rw [if_neg hmem]
      refine ⟨rfl, rfl, fun n hn => (by cases hn), fun n => ?_, hmem⟩
      simp

end Frontier
end Paro
