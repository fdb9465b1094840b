import Mathlib.Algebra.Order.Ring.Int

/-!
# Labelled transition systems

The systems of this development are given by their initial states and a labelled
step relation. A guard keeps the steps that meet a condition on the state they
leave, so "every run whose steps all meet `G`" is reachability in `M.guard G`.

* `Invariant.reachable`: what holds initially and is kept by every step holds of
  every reachable state.
* `exec_reachable`: running a partial step function over a list of labels reaches
  the state it computes, so a concrete run is evidence of reachability.
-/
namespace Paro

universe u v

structure LTS (S : Type u) (L : Type v) where
  init : S → Prop
  step : S → L → S → Prop

namespace LTS

variable {S : Type u} {L : Type v}

def ofStep (s0 : S) (f : S → L → Option S) : LTS S L where
  init s := s = s0
  step s l s' := f s l = some s'

def guard (M : LTS S L) (G : S → L → Prop) : LTS S L where
  init := M.init
  step s l s' := G s l ∧ M.step s l s'

inductive Reachable (M : LTS S L) : S → Prop
  | init {s : S} : M.init s → M.Reachable s
  | step {s s' : S} {l : L} : M.Reachable s → M.step s l s' → M.Reachable s'

structure Invariant (M : LTS S L) (I : S → Prop) : Prop where
  init : ∀ s, M.init s → I s
  step : ∀ s l s', I s → M.step s l s' → I s'

theorem Invariant.reachable {M : LTS S L} {I : S → Prop} (h : M.Invariant I) {s : S} (hr : M.Reachable s) : I s := by
  induction hr with
  | init hi => exact h.init _ hi
  | step _ hs ih => exact h.step _ _ _ ih hs

/-- `P` holds in every state of every run. -/
def Always (M : LTS S L) (P : S → Prop) : Prop := ∀ s, M.Reachable s → P s

theorem Invariant.always {M : LTS S L} {I P : S → Prop} (h : M.Invariant I) (hP : ∀ s, I s → P s) : M.Always P :=
  fun s hr => hP s (h.reachable hr)

def exec (f : S → L → Option S) : S → List L → Option S
  | s, [] => some s
  | s, l :: ls => (f s l).bind fun s' => exec f s' ls

theorem exec_reachable {f : S → L → Option S} {s0 : S} :
    ∀ {s s' : S} {ls : List L}, (ofStep s0 f).Reachable s → exec f s ls = some s' → (ofStep s0 f).Reachable s'
  | s, s', [], hr, h => by
    obtain rfl : s = s' := by simpa [exec] using h
    exact hr
  | s, s', l :: ls, hr, h => by
    obtain ⟨t, ht, h'⟩ := Option.bind_eq_some_iff.1 h
    exact exec_reachable (.step hr ht) h'

variable {f : S → L → Option S} {s0 : S} {p : S → Prop}

/-- A run that ends in a state with `p` is evidence that such a state is reachable. -/
theorem reachable_of_exec (ls : List L) [DecidablePred p] (h : (exec f s0 ls).any (fun s => decide (p s)) = true) :
    ∃ s, (ofStep s0 f).Reachable s ∧ p s := by
  obtain ⟨s, hs, hp⟩ := (Option.any_eq_true _ _).1 h
  exact ⟨s, exec_reachable (.init rfl) hs, of_decide_eq_true hp⟩

/-- The same for a guarded system: the run checks the guard before each step. -/
theorem reachable_of_exec_guard {G : S → L → Prop} [∀ s l, Decidable (G s l)] (ls : List L) [DecidablePred p]
    (h : (exec (fun s l => if G s l then f s l else none) s0 ls).any (fun s => decide (p s)) = true) :
    ∃ s, ((ofStep s0 f).guard G).Reachable s ∧ p s := by
  have hsub : ∀ {s : S}, (ofStep s0 fun s l => if G s l then f s l else none).Reachable s →
      ((ofStep s0 f).guard G).Reachable s := by
    intro s hr
    induction hr with
    | init hi => exact .init hi
    | step _ hs ih =>
      simp only [ofStep] at hs
      split at hs
      · exact .step ih ⟨‹_›, hs⟩
      · cases hs
  obtain ⟨s, hr, hp⟩ := reachable_of_exec ls h
  exact ⟨s, hsub hr, hp⟩

end LTS
end Paro
