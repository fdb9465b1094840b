import Mathlib.Data.Finset.Card
import Paro.L3Protocol.ApplyFrontiers

/-!
# Tablet parts of the journal apply runtime

What holds of the parts of a record in every run.

* `TabletInv` says who holds a tablet: one worker at most.
* `OrderInv`: the parts of a tablet, those that were started and those that wait, are in the order of their
  LSNs, because only the record at the dispatch turn enqueues.
* `WorkInv`: a closure runs once. A record gets to the end of its steps when its own closures succeeded and
  all its parts were counted, and then they all are among the completed ones.
-/
namespace Paro.L3.OrderedApply
open L2 List Function Option TabletDispatchState

abbrev Workers := TabletApplyWork → Option Worker

/-! ## Holders -/

variable (workers : Workers) (work : TabletApplyWork)

def holding : Option Nat :=
  (workers work).bind fun worker => if worker.holds then some worker.tabletId else none

theorem holding_update (worker : Option Worker) :
    holding (update workers work worker) = update (holding workers) work
      (worker.bind fun worker => if worker.holds then some worker.tabletId else none) := by
  funext w
  by_cases hw : w = work
  · subst hw
    simp [holding]
  · simp [holding, hw]

structure TabletInv (d : TabletDispatchState) (held : TabletApplyWork → Option Nat) : Prop where
  ok : d.Ok fun t => ∃ w, held w = some t
  single : ∀ w w' t, held w = some t → held w' = some t → w = w'

section
variable {d : TabletDispatchState} {held : TabletApplyWork → Option Nat}

theorem tabletInv_start : TabletInv {} (holding fun _ => none) :=
  ⟨ok_empty fun t ⟨_, h⟩ => (by cases h), fun w w' t h => (by cases h)⟩

section
variable (h : TabletInv d held)
include h

theorem TabletInv.enqueue (t : Nat) (work : TabletApplyWork) :
    TabletInv (d.enqueueTabletPart t work) held := ⟨h.ok.enqueue, h.single⟩

theorem TabletInv.shutdown : TabletInv { d with shutdown := true } held :=
  ⟨⟨h.ok.mailbox, h.ok.nodup, h.ok.apart, h.ok.scheduled, h.ok.work⟩, h.single⟩

theorem TabletInv.hold {d' : TabletDispatchState} {t : Nat} {work : TabletApplyWork}
    (hwork : held work = none) (hfree : ¬ ∃ w, held w = some t) (hok : d'.Ok fun x => (∃ w, held w = some x) ∨ x = t) :
    TabletInv d' (update held work (some t)) := by
  have hupdate : ∀ w x, update held work (some t) w = some x ↔ held w = some x ∨ w = work ∧ x = t := by
    intro w x
    by_cases hw : w = work
    · subst hw
      simp [hwork, eq_comm]
    · simp [hw]
  have hheld : (fun x => ∃ w, update held work (some t) w = some x) = fun x => (∃ w, held w = some x) ∨ x = t := by
    funext x
    simp [hupdate, exists_or]
  refine ⟨hheld ▸ hok, fun w w' x hw hw' => ?_⟩
  rcases (hupdate w x).1 hw with hold | ⟨rfl, rfl⟩
  · rcases (hupdate w' x).1 hw' with hold' | ⟨-, rfl⟩
    · exact h.single w w' x hold hold'
    · exact absurd ⟨w, hold⟩ hfree
  · rcases (hupdate w' x).1 hw' with hold' | ⟨rfl, -⟩
    · exact absurd ⟨w', hold'⟩ hfree
    · rfl

theorem TabletInv.release {t : Nat} {work : TabletApplyWork} (hwork : held work = some t) :
    TabletInv (d.finishTabletDispatch t) (update held work none) := by
  have hupdate : ∀ w x, update held work none w = some x ↔ held w = some x ∧ w ≠ work := by
    intro w x
    by_cases hw : w = work <;> simp [hw]
  have hheld : (fun x => ∃ w, update held work none w = some x) = fun x => (∃ w, held w = some x) ∧ x ≠ t := by
    funext x
    simp only [hupdate, eq_iff_iff]
    constructor
    · intro ⟨w, hw, hne⟩
      exact ⟨⟨w, hw⟩, fun hx => hne (h.single w work t (hx ▸ hw) hwork)⟩
    · intro ⟨⟨w, hw⟩, hx⟩
      refine ⟨w, hw, fun hw' => hx ?_⟩
      rw [hw', hwork] at hw
      exact (some.inj hw).symm
  refine ⟨hheld ▸ (h.ok.finish ⟨work, hwork⟩).1, fun w w' x hw hw' => ?_⟩
  exact h.single w w' x ((hupdate w x).1 hw).1 ((hupdate w' x).1 hw').1

end

end

/-! ## Order of the parts -/

def Before (w w' : TabletApplyWork) : Prop := w.lsn < w'.lsn ∨ w.lsn = w'.lsn ∧ w.part < w'.part

instance (w w' : TabletApplyWork) : Decidable (Before w w') := inferInstanceAs (Decidable (_ ∨ _))

variable (started : List (Nat × TabletApplyWork))

def startedOn (tabletId : Nat) : List TabletApplyWork :=
  (started.filter (·.1 = tabletId)).map (·.2)

theorem mem_startedOn {started : List (Nat × TabletApplyWork)} {t : Nat} {w : TabletApplyWork} :
    w ∈ startedOn started t ↔ (t, w) ∈ started := by
  simp [startedOn]

theorem startedOn_append (t t' : Nat) (w : TabletApplyWork) :
    startedOn (started ++ [(t, w)]) t' = if t' = t then startedOn started t' ++ [w] else startedOn started t' := by
  by_cases ht : t' = t
  · simp [startedOn, ht]
  · simp [startedOn, ht, Ne.symm ht]

/-- How many parts a submission has enqueued, while it may enqueue more. -/
def enqueued : SubmitPc → Option Nat
  | .waitTurn | .takeLane | .catalogPre => some 0
  | .enqueue part => some part
  | _ => none

variable {pc : SubmitPc} {lsn : Nat}

theorem enqueued_late (h : early pc = false) : enqueued pc = none := by
  cases pc <;> first | rfl | cases h

def Keeps (subs subs' : Submissions) : Prop :=
  ∀ n sub, subs n = some sub → ∃ sub', subs' n = some sub' ∧ sub'.request = sub.request ∧
    ∀ k', enqueued sub'.pc = some k' → ∃ k, enqueued sub.pc = some k ∧ k ≤ k'

variable (subs : Submissions)

theorem Keeps.refl : Keeps subs subs :=
  fun _ sub h => ⟨sub, h, rfl, fun k hk => ⟨k, hk, le_refl k⟩⟩

theorem keeps_goto {subs : Submissions} {sub : Submission} (hsub : subs lsn = some sub)
    (henq : ∀ k', enqueued pc = some k' → ∃ k, enqueued sub.pc = some k ∧ k ≤ k') :
    Keeps subs (update subs lsn (some { sub with pc })) := by
  intro n sub0 hsub0
  by_cases hn : n = lsn
  · subst hn
    obtain rfl := some.inj (hsub.symm.trans hsub0)
    exact ⟨_, update_self _ _ _, rfl, henq⟩
  · exact ⟨sub0, by rw [update_of_ne hn]; exact hsub0, rfl, fun k hk => ⟨k, hk, le_refl k⟩⟩

theorem keeps_updateTicket (r : ApplyRuntime) (lsn : Nat) {f : Submission → Submission}
    (hreq : ∀ sub, (f sub).request = sub.request) (hpc : ∀ sub, (f sub).pc = sub.pc) :
    Keeps r.submissions (r.updateTicket lsn f).submissions := by
  intro n sub hsub
  rw [updateTicket_submissions]
  split
  · rw [hsub]
    exact ⟨_, rfl, hreq sub, fun k hk => ⟨k, by rwa [hpc] at hk, le_refl k⟩⟩
  · exact ⟨sub, hsub, rfl, fun k hk => ⟨k, hk, le_refl k⟩⟩

theorem Relaxes.keeps {subs subs' : Submissions} (h : Relaxes subs subs') : Keeps subs subs' := by
  intro n sub hsub
  cases hsub' : subs' n with
  | none => rw [(h.1 n).1 hsub'] at hsub; cases hsub
  | some sub' =>
    obtain ⟨sub0, hsub0, hreq, -, hpc⟩ := h.2 n sub' hsub'
    obtain rfl := some.inj (hsub.symm.trans hsub0)
    refine ⟨sub', rfl, hreq, fun k hk => ?_⟩
    rcases hpc with hpc | hlate
    · exact ⟨k, hpc ▸ hk, le_refl k⟩
    · rw [enqueued_late hlate] at hk
      cases hk

/-- Where a part comes from. -/
def Placed (next t : Nat) (w : TabletApplyWork) : Prop :=
  w.lsn ≤ next ∧ ∃ sub, subs w.lsn = some sub ∧ sub.request.tabletParts[w.part]? = some t ∧
    ∀ k, enqueued sub.pc = some k → w.part < k

structure OrderInv (d : TabletDispatchState) (started : List (Nat × TabletApplyWork)) (subs : Submissions)
    (next : Nat) : Prop where
  ordered : ∀ t, (startedOn started t ++ d.queueOf t).Pairwise Before
  placed : ∀ t, ∀ w ∈ startedOn started t ++ d.queueOf t, Placed subs next t w

section
variable {d : TabletDispatchState} {started : List (Nat × TabletApplyWork)} {subs : Submissions} {next : Nat}

theorem orderInv_start (next : Nat) : OrderInv {} [] (fun _ => none) next :=
  ⟨fun _ => List.Pairwise.nil, fun _ w hw => (by cases hw)⟩

theorem OrderInv.move (h : OrderInv d started subs next) {subs' : Submissions} {next' : Nat}
    (hkeeps : Keeps subs subs') (hnext : next ≤ next') : OrderInv d started subs' next' := by
  refine ⟨h.ordered, fun t w hw => ?_⟩
  obtain ⟨hle, sub, hsub, hpart, hk⟩ := h.placed t w hw
  obtain ⟨sub', hsub', hreq, henq⟩ := hkeeps w.lsn sub hsub
  refine ⟨le_trans hle hnext, sub', hsub', hreq ▸ hpart, fun k' hk' => ?_⟩
  obtain ⟨k, hk0, hle'⟩ := henq k' hk'
  exact lt_of_lt_of_le (hk k hk0) hle'

variable {d' : TabletDispatchState} {t : Nat} {work : TabletApplyWork}

section
variable (h : OrderInv d started subs next)
include h

/-- The queues did not change. -/
theorem OrderInv.queues (hqueue : ∀ t, d'.queueOf t = d.queueOf t) : OrderInv d' started subs next :=
  ⟨fun t => hqueue t ▸ h.ordered t, fun t => hqueue t ▸ h.placed t⟩

/-- The submission at the turn enqueues its next part: it goes behind everything there is. -/
theorem OrderInv.enqueue {sub : Submission} {part t : Nat}
    (hsub : subs next = some sub) (hpc : sub.pc = .enqueue part) (hpart : sub.request.tabletParts[part]? = some t) :
    OrderInv (d.enqueueTabletPart t ⟨next, part⟩) started
      (update subs next (some { sub with pc := .enqueue (part + 1) })) next := by
  have hplaced : ∀ x, ∀ w ∈ startedOn started x ++ d.queueOf x,
      Placed (update subs next (some { sub with pc := .enqueue (part + 1) })) next x w := by
    refine (h.move (keeps_goto hsub fun k hk => ⟨part, by rw [hpc]; rfl, ?_⟩) (le_refl next)).placed
    obtain rfl := some.inj hk
    exact Nat.le_succ part
  refine ⟨fun x => ?_, fun x w hw => ?_⟩
  · rw [queueOf_enqueue]
    split
    · rename_i hx
      subst hx
      rw [← append_assoc, pairwise_append]
      refine ⟨h.ordered x, pairwise_singleton _ _, fun w hw w' hw' => ?_⟩
      obtain rfl := mem_singleton.1 hw'
      obtain ⟨hle, sub0, hsub0, -, hk⟩ := h.placed x w hw
      by_cases hlsn : w.lsn = next
      · rw [hlsn, hsub] at hsub0
        obtain rfl := some.inj hsub0
        exact .inr ⟨hlsn, hk part (by rw [hpc]; rfl)⟩
      · exact .inl (Nat.lt_of_le_of_ne hle hlsn)
    · exact h.ordered x
  · rw [queueOf_enqueue] at hw
    split at hw
    · rename_i hx
      subst hx
      rw [← append_assoc] at hw
      rcases mem_append.1 hw with hw | hw
      · exact hplaced x w hw
      · obtain rfl := mem_singleton.1 hw
        refine ⟨le_refl next, _, update_self _ _ _, hpart, fun k hk => ?_⟩
        obtain rfl := some.inj hk
        exact Nat.lt_succ_self part
    · exact hplaced x w hw

/-- A worker takes the first part of a queue: the order stays what it was. -/
theorem OrderInv.dequeue (hqueue : d.queueOf t = work :: d'.queueOf t)
    (hother : ∀ x, x ≠ t → d'.queueOf x = d.queueOf x) : OrderInv d' (started ++ [(t, work)]) subs next := by
  have hsame : ∀ x, startedOn (started ++ [(t, work)]) x ++ d'.queueOf x = startedOn started x ++ d.queueOf x := by
    intro x
    rw [startedOn_append]
    split
    · rename_i hx
      rw [hx, hqueue, append_assoc, singleton_append]
    · rename_i hx
      rw [hother x hx]
  exact ⟨fun x => hsame x ▸ h.ordered x, fun x => hsame x ▸ h.placed x⟩

/-- A part that waits was not started, by any tablet. -/
theorem OrderInv.not_started (hwork : work ∈ d.queueOf t) (t' : Nat) : (t', work) ∉ started := by
  intro hstarted
  rw [← mem_startedOn] at hstarted
  obtain ⟨-, sub, hsub, hpart, -⟩ := h.placed t work (mem_append_right _ hwork)
  obtain ⟨-, sub', hsub', hpart', -⟩ := h.placed t' work (mem_append_left _ hstarted)
  obtain rfl := some.inj (hsub.symm.trans hsub')
  obtain rfl := some.inj (hpart.symm.trans hpart')
  have := (pairwise_append.1 (h.ordered t)).2.2 work hstarted work hwork
  simp [Before] at this

end

end

/-! ## Work of a record -/

abbrev Finished := List (Nat × ApplyPhase × Bool)

variable (finished : Finished)

def outcomes (lsn : Nat) (phase : ApplyPhase) : List Bool :=
  (finished.filter fun e => e.1 = lsn ∧ e.2.1 = phase).map (·.2.2)

theorem outcomes_append (n : Nat) (ph : ApplyPhase) (ok : Bool) (lsn : Nat) (phase : ApplyPhase) :
    outcomes (finished ++ [(n, ph, ok)]) lsn phase =
      if lsn = n ∧ phase = ph then outcomes finished lsn phase ++ [ok] else outcomes finished lsn phase := by
  by_cases h : lsn = n ∧ phase = ph
  · simp [outcomes, h.1, h.2]
  · have h' : ¬ (n = lsn ∧ ph = phase) := fun hn => h ⟨hn.1.symm, hn.2.symm⟩
    simp [outcomes, h, h']

theorem outcomes_append_ne {finished : Finished} {n : Nat} {ph phase : ApplyPhase} {ok : Bool}
    (h : ¬ (lsn = n ∧ phase = ph)) :
    outcomes (finished ++ [(n, ph, ok)]) lsn phase = outcomes finished lsn phase := by
  rw [outcomes_append, if_neg h]

/-- The phases whose closures the submitting thread calls itself. -/
def ownPhases : List ApplyPhase := [.catalogPre, .descriptor, .catalogPost]

/-- Which of them are behind a submission. -/
def passed : SubmitPc → List ApplyPhase
  | .waitTurn | .takeLane | .catalogPre => []
  | .enqueue _ | .finishTurn | .tabletPhase | .descriptor => [.catalogPre]
  | .catalogPost => [.catalogPre, .descriptor]
  | _ => ownPhases

/-- The submission went on because all its parts were counted. -/
def partsCounted : SubmitPc → Bool
  | .descriptor | .catalogPost | .markApplied => true
  | _ => false

theorem early_of_partsCounted (h : partsCounted pc = true) : early pc = true := by
  cases pc <;> first | rfl | cases h

/-- The closures behind an early submission succeeded, and the others were not called. -/
structure PhaseOk (finished : Finished) (lsn : Nat) (sub : Submission) : Prop where
  own : early sub.pc = true → ∀ phase ∈ ownPhases,
    outcomes finished lsn phase = if phase ∈ passed sub.pc then [true] else []
  parts : partsCounted sub.pc = true → sub.remainingTabletParts = 0

/-- What the stage of a worker says about its closure. -/
def StageOk (work : TabletApplyWork) : WorkerStage → Prop
  | .running => outcomes finished work.lsn (.tabletPart work.part) = []
  | .ran ok | .complete ok => outcomes finished work.lsn (.tabletPart work.part) = [ok]
  | .failTicket => True

/-- All the closures of the submitting thread succeeded, and all parts were counted, unless there are too many to
count. -/
def AllDone (completed : List TabletApplyWork) (lsn : Nat) (request : ApplyRequest) :
    Prop :=
  (∀ phase ∈ ownPhases, outcomes finished lsn phase = [true]) ∧
    (request.tabletParts.length < 2 ^ 32 → ∀ part < request.tabletParts.length, ⟨lsn, part⟩ ∈ completed)

structure WorkInv (subs : Submissions) (workers : Workers) (finished : Finished)
    (started : List (Nat × TabletApplyWork)) (completed : List TabletApplyWork) (marked : List Nat) :
    Prop where
  nodup : completed.Nodup
  done : ∀ w ∈ completed, (∃ t, (t, w) ∈ started) ∧ outcomes finished w.lsn (.tabletPart w.part) = [true]
  worker : ∀ w worker, workers w = some worker →
    (worker.tabletId, w) ∈ started ∧ w ∉ completed ∧ StageOk finished w worker.stage
  fresh : ∀ w, (∀ t, (t, w) ∉ started) → outcomes finished w.lsn (.tabletPart w.part) = []
  unknown : ∀ n, subs n = none → ∀ phase ∈ ownPhases, outcomes finished n phase = []
  counted : ∀ n sub, subs n = some sub → sub.remainingTabletParts =
    sub.request.tabletParts.length % 2 ^ 32 - (completed.filter (·.lsn = n)).length
  phases : ∀ n sub, subs n = some sub → PhaseOk finished n sub
  marks : ∀ n ∈ marked, ∃ sub, subs n = some sub ∧ AllDone finished completed n sub.request

section
variable {subs : Submissions} {workers : Workers} {finished : Finished}
  {started : List (Nat × TabletApplyWork)} {completed : List TabletApplyWork} {marked : List Nat}

theorem workInv_start : WorkInv (fun _ => none) (fun _ => none) [] [] [] [] where
  nodup := nodup_nil
  done w hw := by cases hw
  worker w worker h := by cases h
  fresh w _ := rfl
  unknown n _ phase _ := rfl
  counted n sub h := by cases h
  phases n sub h := by cases h
  marks n hn := by cases hn

variable {subs' : Submissions} {lsn : Nat} {sub : Submission} {pc : SubmitPc} {work : TabletApplyWork} {worker : Worker}

/-- Submissions move without a closure being called. -/
theorem WorkInv.move (h : WorkInv subs workers finished started completed marked)
    (hkeep : ∀ n sub, subs n = some sub → ∃ sub', subs' n = some sub' ∧ sub'.request = sub.request)
    (hmove : ∀ n sub', subs' n = some sub' → PhaseOk finished n sub' ∧ sub'.remainingTabletParts =
        sub'.request.tabletParts.length % 2 ^ 32 - (completed.filter (·.lsn = n)).length) :
    WorkInv subs' workers finished started completed marked where
  __ := h
  unknown n hnone := by
    refine h.unknown n (eq_none_iff_forall_ne_some.2 fun sub hsub => ?_)
    obtain ⟨sub', hsub', -⟩ := hkeep n sub hsub
    rw [hnone] at hsub'
    cases hsub'
  counted n sub' hsub' := (hmove n sub' hsub').2
  phases n sub' hsub' := (hmove n sub' hsub').1
  marks n hn := by
    obtain ⟨sub, hsub, hdone⟩ := h.marks n hn
    obtain ⟨sub', hsub', hreq⟩ := hkeep n sub hsub
    exact ⟨sub', hsub', hreq ▸ hdone⟩

theorem phaseOk_late (h : early sub.pc = false) : PhaseOk finished lsn sub := by
  refine ⟨fun hearly => ?_, fun hparts => ?_⟩
  · rw [h] at hearly
    cases hearly
  · rw [early_of_partsCounted hparts] at h
    cases h

section
variable (h : WorkInv subs workers finished started completed marked)
include h

namespace WorkInv

theorem relax (hrel : Relaxes subs subs') : WorkInv subs' workers finished started completed marked := by
  refine h.move (fun n sub hsub => ?_) fun n sub' hsub' => ?_
  · obtain ⟨sub', hsub', hreq, -⟩ := hrel.keeps n sub hsub
    exact ⟨sub', hsub', hreq⟩
  · obtain ⟨sub, hsub, hreq, hrem, hpc⟩ := hrel.2 n sub' hsub'
    refine ⟨?_, by rw [hrem, hreq, h.counted n sub hsub]⟩
    rcases hpc with hpc | hlate
    · have hok := h.phases n sub hsub
      exact ⟨hpc ▸ hok.own, fun hparts => hrem.trans (hok.parts (hpc ▸ hparts))⟩
    · exact phaseOk_late hlate

/-- One submission moves without a closure being called. -/
theorem goto (hsub : subs lsn = some sub) (hearly : early sub.pc = true) (hpassed : passed pc = passed sub.pc)
    (hparts : partsCounted pc = true → sub.remainingTabletParts = 0) :
    WorkInv (update subs lsn (some { sub with pc })) workers finished started completed marked := by
  have hok := h.phases lsn sub hsub
  refine h.move (fun n sub0 hsub0 => ?_) fun n sub' hsub' => ?_
  · by_cases hn : n = lsn
    · subst hn
      obtain rfl := some.inj (hsub.symm.trans hsub0)
      exact ⟨_, update_self _ _ _, rfl⟩
    · exact ⟨sub0, by rw [update_of_ne hn]; exact hsub0, rfl⟩
  · rcases update_some hsub' with ⟨rfl, rfl⟩ | ⟨-, hold⟩
    · exact ⟨⟨fun _ => hpassed ▸ hok.own hearly, hparts⟩, h.counted n sub hsub⟩
    · exact ⟨h.phases n sub' hold, h.counted n sub' hold⟩

theorem register (hnone : subs lsn = none) (hpc : sub.pc = .waitTurn)
    (hrem : sub.remainingTabletParts = sub.request.tabletParts.length % 2 ^ 32)
    (hcompleted : ∀ w ∈ completed, w.lsn ≠ lsn) :
    WorkInv (update subs lsn (some sub)) workers finished started completed marked := by
  refine h.move (fun n sub0 hsub0 => ?_) fun n sub' hsub' => ?_
  · have hn : n ≠ lsn := by
      intro hn
      rw [hn, hnone] at hsub0
      cases hsub0
    exact ⟨sub0, by rw [update_of_ne hn]; exact hsub0, rfl⟩
  · rcases update_some hsub' with ⟨rfl, rfl⟩ | ⟨-, hold⟩
    · refine ⟨⟨fun _ phase hphase => ?_, fun hparts => ?_⟩, ?_⟩
      · rw [hpc]
        exact h.unknown n hnone phase hphase
      · rw [hpc] at hparts
        cases hparts
      · have hnil : completed.filter (·.lsn = n) = [] := filter_eq_nil_iff.2 fun w hw => by simpa using hcompleted w hw
        rw [hnil, hrem]
        rfl
    · exact ⟨h.phases n sub' hold, h.counted n sub' hold⟩

/-- The submitting thread calls one of its closures, and goes on when it succeeds. -/
theorem finishPhase (hsub : subs lsn = some sub) (hearly : early sub.pc = true) (hmarked : lsn ∉ marked)
    {phase : ApplyPhase} (hphase : phase ∈ ownPhases) (hnext : phase ∉ passed sub.pc) {ok : Bool}
    (hpc : early pc = true → ok = true ∧ passed pc = passed sub.pc ++ [phase])
    (hparts : partsCounted pc = true → sub.remainingTabletParts = 0) :
    WorkInv (update subs lsn (some { sub with pc })) workers (finished ++ [(lsn, phase, ok)]) started
      completed marked := by
  have hpart : ∀ w : TabletApplyWork, outcomes (finished ++ [(lsn, phase, ok)]) w.lsn (.tabletPart w.part) =
      outcomes finished w.lsn (.tabletPart w.part) := by
    intro w
    refine outcomes_append_ne fun heq => ?_
    rw [← heq.2] at hphase
    simp [ownPhases] at hphase
  have hother : ∀ n, n ≠ lsn → ∀ ph, outcomes (finished ++ [(lsn, phase, ok)]) n ph = outcomes finished n ph :=
    fun n hn ph => outcomes_append_ne fun heq => hn heq.1
  refine ⟨h.nodup, fun w hw => ?_, fun w worker hw => ?_, fun w hw => ?_, fun n hnone phase hphase => ?_,
    fun n sub' hsub' => ?_, fun n sub' hsub' => ?_, fun n hn => ?_⟩
  · rw [hpart]
    exact h.done w hw
  · obtain ⟨hstarted, hnot, hstage⟩ := h.worker w worker hw
    refine ⟨hstarted, hnot, ?_⟩
    cases hst : worker.stage <;> rw [hst] at hstage <;> simp only [StageOk, hpart] at hstage ⊢ <;> exact hstage
  · rw [hpart]
    exact h.fresh w hw
  · by_cases hn : n = lsn
    · rw [hn, update_self] at hnone
      cases hnone
    · rw [update_of_ne hn] at hnone
      rw [hother n hn]
      exact h.unknown n hnone phase hphase
  · rcases update_some hsub' with ⟨rfl, rfl⟩ | ⟨-, hold⟩
    · exact h.counted n sub hsub
    · exact h.counted n sub' hold
  · rcases update_some hsub' with ⟨rfl, rfl⟩ | ⟨hne, hold⟩
    · refine ⟨fun hearly' ph hph => ?_, hparts⟩
      obtain ⟨rfl, hpassed⟩ := hpc hearly'
      have hold := (h.phases n sub hsub).own hearly ph hph
      rw [outcomes_append]
      by_cases hsame : ph = phase
      · subst hsame
        rw [if_neg hnext] at hold
        rw [if_pos ⟨rfl, rfl⟩, hold, hpassed, if_pos (mem_append_right _ (mem_singleton.2 rfl))]
        rfl
      · rw [if_neg fun heq => hsame heq.2, hold]
        simp [hpassed, hsame]
    · have hok := h.phases n sub' hold
      exact ⟨fun hearly' ph hph => (hother n hne ph).trans (hok.own hearly' ph hph), hok.parts⟩
  · have hne : n ≠ lsn := fun he => hmarked (he ▸ hn)
    obtain ⟨sub', hsub', hdone⟩ := h.marks n hn
    refine ⟨sub', by rw [update_of_ne hne]; exact hsub', fun ph hph => ?_, hdone.2⟩
    rw [hother n hne]
    exact hdone.1 ph hph

theorem dequeue {t : Nat} (hfresh : ∀ x, (x, work) ∉ started) :
    WorkInv subs (update workers work (some { tabletId := t })) finished (started ++ [(t, work)]) completed marked := by
  refine ⟨h.nodup, fun w hw => ?_, fun w worker hw => ?_, fun w hw => ?_, h.unknown, h.counted, h.phases, h.marks⟩
  · obtain ⟨⟨x, hx⟩, hdone⟩ := h.done w hw
    exact ⟨⟨x, mem_append_left _ hx⟩, hdone⟩
  · rcases update_some hw with ⟨rfl, rfl⟩ | ⟨-, hw⟩
    · refine ⟨mem_append_right _ (mem_singleton.2 rfl), fun hdone => ?_, h.fresh w hfresh⟩
      obtain ⟨⟨x, hx⟩, -⟩ := h.done w hdone
      exact hfresh x hx
    · obtain ⟨hstarted, hrest⟩ := h.worker w worker hw
      exact ⟨mem_append_left _ hstarted, hrest⟩
  · exact h.fresh w fun x hx => hw x (mem_append_left _ hx)

/-- The closure of a part returns. -/
theorem finishPart (hworker : workers work = some worker) (hstage : worker.stage = .running) (ok : Bool) :
    WorkInv subs (update workers work (some { worker with stage := .ran ok }))
      (finished ++ [(work.lsn, .tabletPart work.part, ok)]) started completed marked := by
  obtain ⟨hstarted, hnot, hrunning⟩ := h.worker work worker hworker
  rw [hstage] at hrunning
  have hother : ∀ w : TabletApplyWork, w ≠ work →
      outcomes (finished ++ [(work.lsn, .tabletPart work.part, ok)]) w.lsn (.tabletPart w.part) =
        outcomes finished w.lsn (.tabletPart w.part) := by
    intro w hw
    refine outcomes_append_ne fun heq => hw ?_
    cases w
    cases work
    simp_all
  have hown : ∀ n, ∀ phase ∈ ownPhases,
      outcomes (finished ++ [(work.lsn, .tabletPart work.part, ok)]) n phase = outcomes finished n phase := by
    intro n phase hphase
    refine outcomes_append_ne fun heq => ?_
    rw [heq.2] at hphase
    simp [ownPhases] at hphase
  refine ⟨h.nodup, fun w hw => ?_, fun w worker' hw => ?_, fun w hw => ?_, fun n hnone ph hph => ?_,
    h.counted, fun n sub hsub => ?_, fun n hn => ?_⟩
  · rw [hother w fun he => hnot (he ▸ hw)]
    exact h.done w hw
  · rcases update_some hw with ⟨rfl, rfl⟩ | ⟨heq, hw⟩
    · refine ⟨hstarted, hnot, ?_⟩
      simp only [StageOk, outcomes_append, and_self, if_true] at hrunning ⊢
      rw [hrunning]
      rfl
    · obtain ⟨hstarted', hnot', hstage'⟩ := h.worker w worker' hw
      refine ⟨hstarted', hnot', ?_⟩
      cases hst : worker'.stage <;> rw [hst] at hstage' <;>
        simp only [StageOk, hother w heq] at hstage' ⊢ <;> exact hstage'
  · rw [hother w fun he => hw worker.tabletId (he ▸ hstarted)]
    exact h.fresh w hw
  · rw [hown n ph hph]
    exact h.unknown n hnone ph hph
  · have hok := h.phases n sub hsub
    exact ⟨fun hearly ph hph => (hown n ph hph).trans (hok.own hearly ph hph), hok.parts⟩
  · obtain ⟨sub, hsub, hdone⟩ := h.marks n hn
    exact ⟨sub, hsub, fun ph hph => (hown n ph hph).trans (hdone.1 ph hph), hdone.2⟩

/-- A worker goes on to a stage that says no more about its closure, or is done. -/
theorem advanceWorker (hworker : workers work = some worker)
    {worker' : Option Worker} (hnext : ∀ wk, worker' = some wk → wk.tabletId = worker.tabletId ∧
      (StageOk finished work worker.stage → StageOk finished work wk.stage)) :
    WorkInv subs (update workers work worker') finished started completed marked := by
  refine { h with worker := fun w wk hw => ?_ }
  by_cases heq : w = work
  · subst heq
    rw [update_self] at hw
    obtain ⟨htablet, hstage⟩ := hnext wk hw
    obtain ⟨hstarted, hnot, hok⟩ := h.worker w worker hworker
    exact ⟨htablet ▸ hstarted, hnot, hstage hok⟩
  · rw [update_of_ne heq] at hw
    exact h.worker w wk hw

end WorkInv

end

/-- The success of a part is counted. -/
theorem WorkInv.complete (h : WorkInv subs workers finished started completed marked) {work : TabletApplyWork}
    {worker : Worker} (hworker : workers work = some worker) (hstage : worker.stage = .complete true)
    {subs' : Submissions} (hsubs : ∀ n, subs' n = if n = work.lsn then
      (subs n).map fun sub => { sub with remainingTabletParts := sub.remainingTabletParts - 1 } else subs n) :
    WorkInv subs' (update workers work none) finished started (completed ++ [work]) marked := by
  obtain ⟨hstarted, hnot, hok⟩ := h.worker work worker hworker
  rw [hstage] at hok
  refine ⟨?_, forall_mem_append.2 ⟨h.done, forall_mem_singleton.2 ⟨⟨_, hstarted⟩, hok⟩⟩, fun w wk hw => ?_, h.fresh,
    fun n hnone => ?_, fun n sub' hsub' => ?_, fun n sub' hsub' => ?_, fun n hn => ?_⟩
  · simpa using List.Nodup.concat hnot h.nodup
  · by_cases heq : w = work
    · subst heq
      rw [update_self] at hw
      cases hw
    · rw [update_of_ne heq] at hw
      obtain ⟨hstarted', hnot', hstage'⟩ := h.worker w wk hw
      refine ⟨hstarted', fun hmem => ?_, hstage'⟩
      rcases mem_append.1 hmem with hmem | hmem
      · exact hnot' hmem
      · exact heq (mem_singleton.1 hmem)
  · refine h.unknown n ?_
    rw [hsubs] at hnone
    split at hnone
    · exact map_eq_none_iff.1 hnone
    · exact hnone
  · rw [hsubs] at hsub'
    split at hsub'
    · rename_i hn
      obtain ⟨sub, hsub, rfl⟩ := map_eq_some_iff.1 hsub'
      have hcount := h.counted n sub hsub
      simp only [filter_append, length_append, hn, filter_cons, decide_true, if_true,
        filter_nil, length_singleton] at hcount ⊢
      omega
    · rename_i hn
      have hcount := h.counted n sub' hsub'
      simpa [filter_append, filter_cons, Ne.symm hn] using hcount
  · rw [hsubs] at hsub'
    split at hsub'
    · obtain ⟨sub, hsub, rfl⟩ := map_eq_some_iff.1 hsub'
      have hphases := h.phases n sub hsub
      refine ⟨hphases.own, fun hparts => ?_⟩
      have := hphases.parts hparts
      simp only
      omega
    · exact h.phases n sub' hsub'
  · obtain ⟨sub, hsub, hown, hparts⟩ := h.marks n hn
    have hsub' : ∃ sub', subs' n = some sub' ∧ sub'.request = sub.request := by
      rw [hsubs]
      split
      · rw [hsub]
        exact ⟨_, rfl, rfl⟩
      · exact ⟨sub, hsub, rfl⟩
    obtain ⟨sub', hsub', hreq⟩ := hsub'
    refine ⟨sub', hsub', hown, fun hfit part hpart => mem_append_left _ ?_⟩
    exact hparts (hreq ▸ hfit) part (hreq ▸ hpart)

/-- Distinct numbers below a bound, as many as there are. -/
theorem mem_of_nodup_of_length_le {l : List Nat} {bound n : Nat} (hnodup : l.Nodup) (hlt : ∀ x ∈ l, x < bound)
    (hlen : bound ≤ l.length) (hn : n < bound) : n ∈ l := by
  have hsub := subperm_of_subset hnodup fun x hx => mem_range.2 (hlt x hx)
  have hperm := hsub.perm_of_length_le (by rwa [length_range])
  exact hperm.mem_iff.2 (mem_range.2 hn)

/-- A record at the end of its steps is done. -/
theorem WorkInv.mark (h : WorkInv subs workers finished started completed marked) (hsub : subs lsn = some sub)
    (hpc : sub.pc = .markApplied) (hparts : ∀ w ∈ completed, w.lsn = lsn → w.part < sub.request.tabletParts.length) :
    WorkInv subs workers finished started completed (marked ++ [lsn]) := by
  have hok := h.phases lsn sub hsub
  refine { h with marks := fun n hn => ?_ }
  rcases mem_append.1 hn with hn | hn
  · exact h.marks n hn
  obtain rfl := mem_singleton.1 hn
  refine ⟨sub, hsub, fun phase hphase => ?_, fun hfit part hpart => ?_⟩
  · have hown := hok.own (by rw [hpc]; rfl) phase hphase
    rwa [if_pos (by rw [hpc]; exact hphase)] at hown
  · have hrem := hok.parts (by rw [hpc]; rfl)
    have hcount := h.counted n sub hsub
    rw [Nat.mod_eq_of_lt hfit] at hcount
    -- the counted parts are distinct and as many as the record has, so they are all of them
    have hnodup : ((completed.filter (·.lsn = n)).map (·.part)).Nodup := by
      refine List.Nodup.map_on (fun w hw w' hw' heq => ?_) (h.nodup.filter _)
      have hlsn := of_decide_eq_true (mem_filter.1 hw).2
      have hlsn' := of_decide_eq_true (mem_filter.1 hw').2
      cases w
      cases w'
      simp_all
    have hmem := @mem_of_nodup_of_length_le _ sub.request.tabletParts.length part hnodup (fun x hx => by
        obtain ⟨w, hw, rfl⟩ := mem_map.1 hx
        exact hparts w (mem_filter.1 hw).1 (of_decide_eq_true (mem_filter.1 hw).2))
      (by rw [length_map]; omega) hpart
    obtain ⟨w, hw, rfl⟩ := mem_map.1 hmem
    have hlsn := of_decide_eq_true (mem_filter.1 hw).2
    have hwork : w = ⟨n, w.part⟩ := by
      cases w
      simp_all
    rw [← hwork]
    exact (mem_filter.1 hw).1

end

end Paro.L3.OrderedApply
