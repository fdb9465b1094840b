import Paro.L3Protocol.ApplyTablets

/-!
# Ordered journal apply

* `ordered_apply`: in every run of the apply runtime the frontiers only move forward, what is published was
  skipped, a placeholder or a record whose work all succeeded, a tablet runs one part at a time and its parts
  in the order of their LSNs, and a poisoned runtime publishes nothing more. Parts are counted in 32 bits, and a record
  with 2^32 of them is published before they ran (`parts_uncounted`).

`Inv` puts the invariants of the cursors and of the tablet parts together. Steps that only fail records, run
hooks or move submissions behind their mark go through `Inv.relax`.
-/
namespace Paro.L3.OrderedApply
open L2 Option Function List ApplyRuntimeState
open ApplyRuntime hiding afterPublishing

structure Inv (maxLsn : Nat) (r : ApplyRuntime) : Prop where
  dispatch : DispatchInv maxLsn r.state r.history.skipped r.history.placeholders r.history.marked r.submissions
  tablets : TabletInv r.tabletDispatch (holding r.workers)
  order : OrderInv r.tabletDispatch r.history.started r.submissions r.state.nextDispatchLsn
  work : WorkInv r.submissions r.workers r.history.finished r.history.started r.history.completed
    r.history.marked

section
variable {maxLsn : Nat} {r : ApplyRuntime}

theorem inv_start (maxLsn : Nat) : Inv maxLsn (start maxLsn) :=
  ⟨dispatchInv_start, tabletInv_start, orderInv_start _, workInv_start⟩

/-- Nothing happens but that tickets change, the runtime is poisoned or hooks are called. -/
theorem Inv.relax (h : Inv maxLsn r) {r' : ApplyRuntime} (hrel : Relaxes r.submissions r'.submissions)
    (hstate : ∃ ephemeral durable poisoned, r'.state =
      { r.state with nextEphemeralLsn := ephemeral, durableLsn := durable, poisoned })
    (htablets : r'.tabletDispatch = r.tabletDispatch) (hworkers : r'.workers = r.workers)
    (hhistory : ∃ hooked observed, r'.history = { r.history with hooked, observed }) : Inv maxLsn r' := by
  obtain ⟨ephemeral, durable, poisoned, hstate⟩ := hstate
  obtain ⟨hooked, observed, hhistory⟩ := hhistory
  refine ⟨?_, ?_, ?_, ?_⟩
  · rw [hstate, hhistory]
    exact (h.dispatch.fields ephemeral durable poisoned).relax hrel
  · rw [htablets, hworkers]
    exact h.tablets
  · rw [htablets, hhistory, hstate]
    exact h.order.move hrel.keeps le_rfl
  · rw [hworkers, hhistory]
    exact h.work.relax hrel

variable (s : ApplyRuntimeState)

theorem same_state : ∃ ephemeral durable poisoned,
    s = { s with nextEphemeralLsn := ephemeral, durableLsn := durable, poisoned } := ⟨_, _, _, rfl⟩

theorem same_history (h : History) : ∃ hooked observed, h = { h with hooked, observed } := ⟨_, _, rfl⟩

variable {pc : SubmitPc} {lsn : Nat} {sub : Submission} {s' : ApplyRuntimeState} {ok : Bool}
  {r' : ApplyRuntime} {l : Lbl}

theorem Inv.late (h : Inv maxLsn r) (lsn : Nat) (hpc : early pc = false) : Inv maxLsn (r.goto lsn pc) :=
  h.relax (relaxes_goto r lsn hpc) (same_state _) rfl rfl (same_history _)

theorem Inv.leave (h : Inv maxLsn r) (lsn : Nat) (ok : Bool) : Inv maxLsn (r.leave lsn ok) :=
  h.relax (relaxes_leave r lsn ok) (same_state _) rfl rfl (same_history _)

/-! ## Submissions -/

theorem goto_submissions (hsub : r.submissions lsn = some sub) (pc : SubmitPc) :
    (r.goto lsn pc).submissions = update r.submissions lsn (some { sub with pc }) := by
  simp only [goto, updateTicket, hsub, map_some]

theorem goto_late (r : ApplyRuntime) (lsn : Nat) (hpc : early pc = false) (sub' : Submission)
    (h : (r.goto lsn pc).submissions lsn = some sub') : early sub'.pc = false := by
  rw [goto, updateTicket_submissions, if_pos rfl] at h
  obtain ⟨sub, -, rfl⟩ := map_eq_some_iff.1 h
  exact hpc

section
variable (h : Inv maxLsn r)
include h

theorem inv_submit (request : ApplyRequest)
    (hnone : r.submissions (r.state.assignedLsn request.lsn) = none) : Inv maxLsn (r.submit request) := by
  unfold submit
  cases hreg : r.state.registerRecord request.lsn request.durableBatchLsn with
  | mk result s' =>
    cases result with
    | error e =>
      obtain ⟨ephemeral, rfl⟩ := registerRecord_error hreg
      exact h.relax (.refl _) ⟨_, _, _, rfl⟩ rfl rfl (same_history _)
    | ok lsn =>
      obtain ⟨rfl, hle, ephemeral, durable, rfl⟩ := registerRecord_ok hreg
      simp only
      refine ⟨h.dispatch.register hle rfl ephemeral durable, h.tablets,
        h.order.move (fun n sub hsub => ⟨sub, ?_, rfl, fun k hk => ⟨k, hk, le_refl k⟩⟩) le_rfl,
        h.work.register hnone rfl rfl fun w hw hlsn => ?_⟩
      · have hne : n ≠ r.state.assignedLsn request.lsn := by
          intro hn
          rw [hn, hnone] at hsub
          cases hsub
        simp only [update_of_ne hne]
        exact hsub
      · -- a counted part has a submission
        obtain ⟨⟨t, ht⟩, -⟩ := h.work.done w hw
        obtain ⟨-, sub, hsub, -⟩ := h.order.placed t w (mem_append_left _ (mem_startedOn.2 ht))
        rw [hlsn, hnone] at hsub
        cases hsub

/-- A submission goes on to a step that waits for nothing else. -/
theorem Inv.goto {lsn : Nat} {sub : Submission} (hsub : r.submissions lsn = some sub)
    {pc : SubmitPc} (hearly : early sub.pc = true) (hturn : TurnOk r.state.nextDispatchLsn lsn pc)
    (henq : ∀ k', enqueued pc = some k' → ∃ k, enqueued sub.pc = some k ∧ k ≤ k')
    (hpassed : passed pc = passed sub.pc)
    (hparts : partsCounted pc = true → sub.remainingTabletParts = 0) : Inv maxLsn (r.goto lsn pc) := by
  have hsubs := goto_submissions hsub pc
  refine ⟨?_, h.tablets, ?_, ?_⟩
  all_goals rw [hsubs]
  · exact h.dispatch.goto hsub hearly hturn
  · exact h.order.move (keeps_goto hsub henq) le_rfl
  · exact h.work.goto hsub hearly hpassed hparts

/-- The submitting thread calls one of its closures, and goes on if it succeeds. -/
theorem Inv.finishPhase {lsn : Nat} {sub : Submission} (hsub : r.submissions lsn = some sub)
    (phase : ApplyPhase) (next : SubmitPc) (hearly : early sub.pc = true)
    (hturn : TurnOk r.state.nextDispatchLsn lsn next)
    (henq : ∀ k', enqueued next = some k' → ∃ k, enqueued sub.pc = some k ∧ k ≤ k') (hphase : phase ∈ ownPhases)
    (hnew : phase ∉ passed sub.pc) (hpassed : passed next = passed sub.pc ++ [phase])
    (hparts : partsCounted next = true → sub.remainingTabletParts = 0) (ok : Bool) :
    Inv maxLsn ((r.logFinished lsn phase ok).goto lsn (if ok then next else .failRecord)) := by
  have hsubs : ∀ pc, ((r.logFinished lsn phase ok).goto lsn pc).submissions =
      update r.submissions lsn (some { sub with pc }) := fun pc => goto_submissions hsub pc
  have hunmarked := h.dispatch.unmarked lsn sub hsub hearly
  cases ok <;> refine ⟨?_, h.tablets, ?_, ?_⟩
  all_goals rw [hsubs]
  · exact h.dispatch.goto hsub hearly trivial
  · exact h.order.move (keeps_goto hsub nofun) le_rfl
  · exact h.work.finishPhase hsub hearly hunmarked hphase hnew nofun nofun
  · exact h.dispatch.goto hsub hearly hturn
  · exact h.order.move (keeps_goto hsub henq) le_rfl
  · exact h.work.finishPhase hsub hearly hunmarked hphase hnew (fun _ => ⟨rfl, hpassed⟩) hparts

theorem Inv.afterPublishing (lsn : Nat) (sub : Submission) : Inv maxLsn (r.afterPublishing lsn sub) := by
  unfold ApplyRuntime.afterPublishing
  split
  · exact h.late lsn rfl
  · exact h.leave lsn true

end

section
variable (h : Inv maxLsn r)
include h

section
variable (hsub : r.submissions lsn = some sub)
include hsub

theorem Inv.advanced (hpc : sub.pc = .markApplied) {hooks : List Nat}
    (hadv : r.state.advancePublishFrontiersLocked lsn = (hooks, s')) : r.state.Advanced lsn hooks s' := by
  have hadvanced := advance_advanced h.dispatch.settled (h.dispatch.unpublished_early hsub (by rw [hpc]; rfl))
  rwa [hadv] at hadvanced

theorem inv_markApplied (hpc : sub.pc = .markApplied) : Inv maxLsn (r.markAppliedStep lsn sub) := by
  unfold markAppliedStep
  cases hmark : r.state.markApplied lsn with
  | error e => exact h.leave lsn false
  | ok result =>
    obtain ⟨hooks, s'⟩ := result
    obtain ⟨-, hadv⟩ := markApplied_ok hmark
    have hadvanced := h.advanced hsub hpc hadv
    have hparts : ∀ w ∈ r.history.completed, w.lsn = lsn → w.part < sub.request.tabletParts.length := by
      intro w hw hlsn
      obtain ⟨⟨t, ht⟩, -⟩ := h.work.done w hw
      obtain ⟨-, sub', hsub', hpart, -⟩ := h.order.placed t w (mem_append_left _ (mem_startedOn.2 ht))
      rw [hlsn, hsub] at hsub'
      obtain rfl := some.inj hsub'
      exact (List.getElem?_eq_some_iff.1 hpart).1
    have hwork := h.work.mark hsub hpc hparts
    -- whatever step the submission takes next, it is one behind the mark
    have hmarked : ∀ {r' : ApplyRuntime}, Relaxes r.submissions r'.submissions →
        (∀ sub', r'.submissions lsn = some sub' → early sub'.pc = false) → r'.state = s' →
        r'.tabletDispatch = r.tabletDispatch → r'.workers = r.workers →
        r'.history = { r.history with marked := r.history.marked ++ [lsn] } → Inv maxLsn r' := by
      intro r' hrel hlate hstate htablets hworkers hhistory
      refine ⟨?_, ?_, ?_, ?_⟩
      · rw [hstate, hhistory]
        exact h.dispatch.mark hsub hpc hadvanced hrel hlate
      · rw [htablets, hworkers]
        exact h.tablets
      · rw [htablets, hhistory, hstate, hadvanced.nextDispatchLsn]
        exact h.order.move hrel.keeps le_rfl
      · rw [hworkers, hhistory]
        exact hwork.relax hrel
    have hticket := @relaxes_updateTicket r lsn (fun sub => { sub with applied := true }) (fun _ => rfl)
      (fun _ => rfl) fun _ => .inl rfl
    simp only
    split
    · unfold ApplyRuntime.afterPublishing
      split
      · exact hmarked (hticket.trans (relaxes_goto _ lsn rfl)) (goto_late _ lsn rfl) rfl rfl rfl rfl
      · exact hmarked (hticket.trans (relaxes_leave _ lsn true)) (goto_late _ lsn rfl) rfl rfl rfl rfl
    · exact hmarked (hticket.trans (relaxes_goto _ lsn rfl)) (goto_late _ lsn rfl) rfl rfl rfl rfl

section
variable (hstep : r.advanceSubmission lsn sub ok = some r')
include hstep

/-- The turn comes when the record is the next to be dispatched. -/
theorem inv_waitTurn (hpc : sub.pc = .waitTurn) : Inv maxLsn r' := by
  cases sub
  cases hpc
  dsimp only [advanceSubmission] at hstep
  split at hstep
  · cases hstep
  · cases hstep
    exact h.late lsn rfl
  · rename_i hwait
    cases hstep
    have hnext : lsn = r.state.nextDispatchLsn := by
      unfold waitForDispatchTurn at hwait
      split at hwait
      · cases hwait
      · split at hwait
        · exact Eq.symm ‹_›
        · cases hwait
    exact h.goto hsub rfl hnext (fun k _ => ⟨0, rfl, Nat.zero_le k⟩) rfl nofun

theorem inv_takeLane (hpc : sub.pc = .takeLane) : Inv maxLsn r' := by
  have hturn := h.dispatch.turns lsn sub hsub
  cases sub
  cases hpc
  have hgoto : Inv maxLsn (r.goto lsn .catalogPre) :=
    h.goto hsub rfl hturn (fun k _ => ⟨0, rfl, Nat.zero_le k⟩) rfl nofun
  dsimp only [advanceSubmission] at hstep
  split at hstep
  · split at hstep
    · cases hstep
      exact { hgoto with }
    · cases hstep
  · cases hstep
    exact hgoto

theorem inv_enqueue {part : Nat} (hpc : sub.pc = .enqueue part) : Inv maxLsn r' := by
  have hturn := h.dispatch.turns lsn sub hsub
  cases sub
  cases hpc
  dsimp only [advanceSubmission] at hstep
  split at hstep
  · rename_i t hpart
    cases hstep
    have hnext : lsn = r.state.nextDispatchLsn := hturn
    have hsubs := goto_submissions hsub (.enqueue (part + 1))
    refine ⟨?_, h.tablets.enqueue t ⟨lsn, part⟩, ?_, ?_⟩
    · simp only [hsubs]
      exact h.dispatch.goto hsub rfl hnext
    · simp only [hsubs]
      subst hnext
      exact h.order.enqueue hsub rfl hpart
    · simp only [hsubs]
      exact h.work.goto hsub rfl rfl nofun
  · cases hstep
    exact h.goto hsub rfl hturn nofun rfl nofun

theorem inv_finishTurn (hpc : sub.pc = .finishTurn) : Inv maxLsn r' := by
  have hturn := h.dispatch.turns lsn sub hsub
  cases sub
  cases hpc
  have hnext : lsn = r.state.nextDispatchLsn := hturn
  cases hstep
  have hsubs := goto_submissions hsub .tabletPhase
  refine ⟨?_, h.tablets, ?_, ?_⟩
  · simp only [hsubs]
    exact h.dispatch.finishTurn hsub rfl
  · simp only [hsubs]
    refine h.order.move (keeps_goto hsub nofun) ?_
    rw [finishDispatchTurn, if_pos hnext.symm]
    exact Nat.le_succ _
  · simp only [hsubs]
    exact h.work.goto hsub rfl rfl nofun

/-- The tablet phase ends when no part is left to count. -/
theorem inv_tabletPhase (hpc : sub.pc = .tabletPhase) : Inv maxLsn r' := by
  have hturn := h.dispatch.turns lsn sub hsub
  cases sub
  cases hpc
  dsimp only [advanceSubmission] at hstep
  split at hstep
  · cases hstep
    exact h.late lsn rfl
  split at hstep
  · rename_i hrem
    cases hstep
    exact h.goto hsub rfl hturn nofun rfl (fun _ => hrem)
  split at hstep
  · cases hstep
    exact h.late lsn rfl
  · cases hstep

omit hsub in
theorem inv_waitPublished (hpc : sub.pc = .waitPublished) : Inv maxLsn r' := by
  cases sub
  cases hpc
  dsimp only [advanceSubmission] at hstep
  split at hstep
  · cases hstep
    exact h.leave lsn false
  split at hstep
  · cases hstep
    exact h.leave lsn true
  split at hstep
  · cases hstep
    exact h.leave lsn false
  · cases hstep

theorem inv_submission : Inv maxLsn r' := by
  have hturn := h.dispatch.turns lsn sub hsub
  cases hpc : sub.pc with
  | waitTurn => exact inv_waitTurn h hsub hstep hpc
  | takeLane => exact inv_takeLane h hsub hstep hpc
  | enqueue part => exact inv_enqueue h hsub hstep hpc
  | finishTurn => exact inv_finishTurn h hsub hstep hpc
  | tabletPhase => exact inv_tabletPhase h hsub hstep hpc
  | waitPublished => exact inv_waitPublished h hstep hpc
  | catalogPre =>
    cases sub
    cases hpc
    cases hstep
    exact h.finishPhase hsub .catalogPre (.enqueue 0) rfl hturn (fun k _ => ⟨0, rfl, Nat.zero_le k⟩) (by decide)
      (by simp [passed]) rfl nofun ok
  | descriptor =>
    cases sub
    cases hpc
    cases hstep
    exact h.finishPhase hsub .descriptor .catalogPost rfl hturn nofun (by decide)
      (by simp [passed]) rfl (fun _ => (h.work.phases lsn _ hsub).parts rfl) ok
  | catalogPost =>
    cases sub
    cases hpc
    cases hstep
    exact h.finishPhase hsub .catalogPost .markApplied rfl hturn nofun (by decide)
      (by simp [passed]) rfl (fun _ => (h.work.phases lsn _ hsub).parts rfl) ok
  | markApplied =>
    simp only [advanceSubmission, hpc, some.injEq] at hstep
    exact hstep ▸ inv_markApplied h hsub hpc
  | failRecord =>
    simp only [advanceSubmission, hpc, some.injEq] at hstep
    exact hstep ▸ h.relax (relaxes_goto r.poison lsn rfl) ⟨_, _, true, rfl⟩ rfl rfl (same_history _)
  | failTicket =>
    simp only [advanceSubmission, hpc, some.injEq] at hstep
    have hticket := @relaxes_updateTicket r lsn (fun sub => { sub with partError := true }) (fun _ => rfl)
      (fun _ => rfl) fun _ => .inl rfl
    exact hstep ▸ h.relax (hticket.trans (relaxes_leave _ lsn false)) (same_state _) rfl rfl (same_history _)
  | publishing | returned =>
    simp only [advanceSubmission, hpc] at hstep
    cases hstep

end

end

/-! ## Workers -/

theorem inv_dequeue : Inv maxLsn r.dequeue := by
  unfold dequeue
  rcases h.tablets.ok.dequeue with ⟨t, w, d', hd, hfree, hok, hqueue, hother⟩ | ⟨hnone, hsame⟩
  · have hwaits : w ∈ r.tabletDispatch.queueOf t := by rw [hqueue]; exact mem_cons_self
    have hnew := h.order.not_started hwaits
    have hheld : holding r.workers w = none := by
      unfold holding
      cases hw : r.workers w with
      | none => rfl
      | some worker => exact absurd (h.work.worker w worker hw).1 (hnew worker.tabletId)
    rw [hd]
    refine ⟨h.dispatch, ?_, h.order.dequeue hqueue hother, h.work.dequeue hnew⟩
    simp only [holding_update]
    exact h.tablets.hold hheld hfree hok
  · split
    · rename_i t w d' hd
      exact absurd (by rw [hd]) (hnone t w)
    · rename_i d' _ hd
      have : d' = r.tabletDispatch := by rw [← hsame, hd]
      rw [this]
      exact h

theorem inv_worker {work : TabletApplyWork} {worker : Worker}
    (hworker : r.workers work = some worker) (ok : Bool) : Inv maxLsn (r.advanceWorker work worker ok) := by
  have hheld : holding r.workers work = if worker.holds then some worker.tabletId else none := by
    rw [holding, hworker]
    rfl
  -- the worker keeps the tablet it holds, or has none to give back
  have hkeep : ∀ worker' : Option Worker,
      (worker'.bind fun worker => if worker.holds then some worker.tabletId else none) = holding r.workers work →
      holding (update r.workers work worker') = holding r.workers := by
    intro worker' heq
    rw [holding_update, heq, update_eq_self]
  unfold advanceWorker
  cases hstage : worker.stage with
  | running =>
    have hholds : worker.holds = true := by rw [Worker.holds, hstage]
    refine ⟨h.dispatch, ?_, h.order, h.work.finishPart hworker hstage ok⟩
    simp only
    rw [hkeep _ (by rw [hheld, if_pos hholds]; rfl)]
    exact h.tablets
  | ran ok' =>
    have hholds : worker.holds = true := by rw [Worker.holds, hstage]
    rw [if_pos hholds] at hheld
    have hfinish := h.tablets.ok.finish ⟨work, hheld⟩
    refine ⟨h.dispatch, ?_, h.order.queues hfinish.2, h.work.advanceWorker hworker fun wk hwk => ?_⟩
    · simp only [holding_update]
      exact h.tablets.release hheld
    · cases hwk
      refine ⟨rfl, fun hok => ?_⟩
      rwa [hstage] at hok
  | complete ok' =>
    have hholds : worker.holds = false := by rw [Worker.holds, hstage]
    rw [hholds] at hheld
    cases ok' with
    | true =>
      refine ⟨h.dispatch.updateTicket work.lsn fun _ => rfl, ?_,
        h.order.move (keeps_updateTicket r work.lsn (fun _ => rfl) fun _ => rfl) le_rfl,
        h.work.complete hworker hstage fun n => updateTicket_submissions r work.lsn _ n⟩
      simp only
      rw [hkeep none hheld.symm]
      exact h.tablets
    | false =>
      refine ⟨h.dispatch.fields _ _ true, ?_, h.order, h.work.advanceWorker hworker fun wk hwk => ?_⟩
      · simp only
        rw [hkeep (some { worker with stage := .failTicket }) hheld.symm]
        exact h.tablets
      · cases hwk
        exact ⟨rfl, fun _ => trivial⟩
  | failTicket =>
    have hholds : worker.holds = false := by rw [Worker.holds, hstage]
    rw [hholds] at hheld
    have hticket := @relaxes_updateTicket r work.lsn (fun sub => { sub with partError := true }) (fun _ => rfl)
      (fun _ => rfl) fun _ => .inl rfl
    refine ⟨h.dispatch.relax hticket, ?_, h.order.move hticket.keeps le_rfl,
      (h.work.advanceWorker hworker fun wk hwk => by cases hwk).relax hticket⟩
    simp only
    rw [hkeep none hheld.symm]
    exact h.tablets

/-! ## Hooks and recovery -/

theorem inv_publisher (observer : Bool) (trigger : Nat) (publisher : Publisher) (ok : Bool) :
    Inv maxLsn (r.advancePublisher observer trigger publisher ok) := by
  have hfinish : ∀ {r : ApplyRuntime}, Inv maxLsn r → ∀ ok, Inv maxLsn (r.finishPublisher trigger ok) := by
    intro r h ok
    have hdone : Inv maxLsn { r with publishers := update r.publishers trigger none } :=
      { h with }
    unfold finishPublisher
    simp only
    split
    · exact hdone
    · split
      · exact hdone.afterPublishing trigger _
      · exact hdone.leave trigger false
  have hticket : ∀ lsn (f : Submission → Submission), (∀ sub, (f sub).request = sub.request) →
      (∀ sub, (f sub).remainingTabletParts = sub.remainingTabletParts) → (∀ sub, (f sub).pc = sub.pc) →
      Inv maxLsn (r.updateTicket lsn f) := by
    intro lsn f hreq hrem hpc
    exact h.relax (relaxes_updateTicket r lsn hreq hrem fun sub => .inl (hpc sub)) (same_state _) rfl rfl
      (same_history _)
  unfold advancePublisher
  simp only
  split
  · exact hfinish h true
  · exact h.relax (.refl _) (same_state _) rfl rfl ⟨_, _, rfl⟩
  · split
    · exact h.relax (.refl _) (same_state _) rfl rfl ⟨_, _, rfl⟩
    · exact h.relax (.refl _) (same_state _) rfl rfl (same_history _)
  · rename_i lsn _ _ _
    have h' := hticket lsn (fun sub => { sub with published := true }) (fun _ => rfl) (fun _ => rfl)
      fun _ => rfl
    exact { h' with }
  · exact h.relax (.refl _) ⟨_, _, true, rfl⟩ rfl rfl (same_history _)
  · exact hfinish (hticket _ (fun sub => { sub with partError := true }) (fun _ => rfl) (fun _ => rfl)
      fun _ => rfl) false

theorem inv_placeholder (hnone : r.submissions lsn = none) : Inv maxLsn (r.placeholder lsn) := by
  unfold placeholder
  cases hp : r.state.advanceDispatchPastPlaceholder lsn with
  | error e => exact h
  | ok result =>
    obtain ⟨hooks, s'⟩ := result
    rcases (placeholder_ok hp).2 with ⟨hlt, rfl, rfl⟩ | ⟨hlsn, ephemeral, durable, hadv⟩
    · simp only [if_neg (ne_of_gt hlt)]
      exact h.relax (.refl _) (same_state _) rfl rfl (same_history _)
    · have hadvanced := h.dispatch.placeholder_advanced hlsn hadv
      simp only [if_pos hlsn.symm]
      refine ⟨h.dispatch.placeholder hlsn hnone hadvanced, h.tablets, h.order.move (.refl _) ?_, h.work⟩
      rw [hadvanced.nextDispatchLsn]
      exact Nat.le_succ _

theorem inv_gapBefore (lsn : Nat) : Inv maxLsn (r.gapBefore lsn) := by
  unfold gapBefore
  cases hgap : r.state.advanceDispatchGapBefore lsn with
  | error e => exact h
  | ok s' =>
    rcases (gap_ok hgap).2 with ⟨hle, rfl⟩ | ⟨hlt, hpending, ephemeral, durable, rfl⟩
    · have hempty : lsn - r.state.nextDispatchLsn = 0 := Nat.sub_eq_zero_of_le hle
      simp only [hempty, range'_zero, append_nil]
      exact h.relax (.refl _) (same_state _) rfl rfl (same_history _)
    · exact ⟨h.dispatch.gap hlt hpending ephemeral durable, h.tablets, h.order.move (.refl _) (le_of_lt hlt), h.work⟩

end

variable (observer : Bool)

theorem inv_step (h : Inv maxLsn r) (hl : Distinct r l) (hs : step observer r l = some r') : Inv maxLsn r' := by
  cases l with
  | submit request =>
    cases hs
    exact inv_submit h request hl
  | noteDurable lsn =>
    cases hs
    exact h.relax (.refl _) ⟨_, _, _, rfl⟩ rfl rfl (same_history _)
  | submission lsn ok =>
    obtain ⟨sub, hsub, hstep⟩ := bind_eq_some_iff.1 hs
    exact inv_submission h hsub hstep
  | dequeue =>
    cases hs
    exact inv_dequeue h
  | worker work ok =>
    obtain ⟨worker, hworker, rfl⟩ := map_eq_some_iff.1 hs
    exact inv_worker h hworker ok
  | publisher trigger ok =>
    obtain ⟨p, -, rfl⟩ := map_eq_some_iff.1 hs
    exact inv_publisher h observer trigger p ok
  | placeholder lsn =>
    cases hs
    exact inv_placeholder h hl
  | gapBefore lsn =>
    cases hs
    exact inv_gapBefore h lsn
  | shutdown =>
    cases hs
    exact ⟨h.dispatch, h.tablets.shutdown, h.order.queues fun _ => rfl, h.work⟩

theorem inv_reachable (h : ((system observer maxLsn).guard Distinct).Reachable r) : Inv maxLsn r := by
  have hinv : ((system observer maxLsn).guard Distinct).Invariant (Inv maxLsn) := by
    refine ⟨fun s hs => ?_, fun s l s' hi hs => inv_step observer hi hs.1 hs.2⟩
    obtain rfl : s = start maxLsn := hs
    exact inv_start maxLsn
  exact hinv.reachable h

/-! ## The frontiers over a step -/

structure Moves (s s' : ApplyRuntimeState) : Prop where
  applied : s.appliedLsn ≤ s'.appliedLsn
  published : s.publishedLsn ≤ s'.publishedLsn
  poisoned : s.poisoned = true → s'.poisoned = true ∧ s'.publishedLsn = s.publishedLsn

theorem moves_fields (next ephemeral durable : Nat) (records : List Nat) {poisoned : Bool}
    (h : s.poisoned = true → poisoned = true) :
    Moves s { s with
      nextDispatchLsn := next
      nextEphemeralLsn := ephemeral
      durableLsn := durable
      records
      poisoned } := ⟨le_rfl, le_rfl, fun hp => ⟨h hp, rfl⟩⟩

theorem Moves.refl : Moves s s := ⟨le_rfl, le_rfl, fun h => ⟨h, rfl⟩⟩

theorem moves_poison : Moves s s.poison := moves_fields s _ _ _ _ fun _ => rfl

/-- A step that moves a frontier looked at the poison first. -/
theorem moves_live {s : ApplyRuntimeState} (h : s.poisoned = false) (ha : s.appliedLsn ≤ s'.appliedLsn)
    (hp : s.publishedLsn ≤ s'.publishedLsn) : Moves s s' :=
  ⟨ha, hp, fun h' => by rw [h] at h'; cases h'⟩

theorem moves_submit (request : ApplyRequest) : Moves r.state (r.submit request).state := by
  unfold submit
  cases hreg : r.state.registerRecord request.lsn request.durableBatchLsn with
  | mk result s' =>
    cases result with
    | error e =>
      obtain ⟨ephemeral, rfl⟩ := registerRecord_error hreg
      exact moves_fields _ _ _ _ _ id
    | ok lsn =>
      obtain ⟨-, -, ephemeral, durable, rfl⟩ := registerRecord_ok hreg
      exact moves_fields _ _ _ _ _ id

theorem afterPublishing_state (r : ApplyRuntime) (lsn : Nat) (sub : Submission) :
    (r.afterPublishing lsn sub).state = r.state := by
  unfold ApplyRuntime.afterPublishing
  split <;> rfl

theorem moves_markApplied (h : Inv maxLsn r) (hsub : r.submissions lsn = some sub)
    (hpc : sub.pc = .markApplied) : Moves r.state (r.markAppliedStep lsn sub).state := by
  unfold markAppliedStep
  cases hmark : r.state.markApplied lsn with
  | error e => exact Moves.refl _
  | ok result =>
    obtain ⟨hooks, s'⟩ := result
    obtain ⟨hlive, hadv⟩ := markApplied_ok hmark
    have hadvanced := h.advanced hsub hpc hadv
    have hmoves : Moves r.state s' := by
      refine moves_live hlive ?_ hadvanced.le
      rw [h.dispatch.settled.applied, hadvanced.settled.applied]
      exact hadvanced.le
    simp only
    split
    · rw [afterPublishing_state]
      exact hmoves
    · exact hmoves

theorem moves_submission (h : Inv maxLsn r) (hsub : r.submissions lsn = some sub)
    (hstep : r.advanceSubmission lsn sub ok = some r') : Moves r.state r'.state := by
  unfold advanceSubmission at hstep
  split at hstep
  case h_5 =>
    obtain rfl := some.inj hstep
    unfold finishDispatchTurn
    simp only
    split
    · exact moves_fields _ _ _ _ _ id
    · exact Moves.refl _
  case h_9 hpc =>
    obtain rfl := some.inj hstep
    exact moves_markApplied h hsub hpc
  case h_12 =>
    obtain rfl := some.inj hstep
    exact moves_poison _
  all_goals
    repeat' split at hstep
    all_goals cases hstep <;> exact Moves.refl _

theorem moves_dequeue : Moves r.state r.dequeue.state := by
  unfold dequeue
  split <;> exact Moves.refl _

theorem moves_worker (work : TabletApplyWork) (worker : Worker) (ok : Bool) :
    Moves r.state (r.advanceWorker work worker ok).state := by
  unfold advanceWorker
  split
  case h_4 => exact moves_poison _
  all_goals exact Moves.refl _

theorem finishPublisher_state (r : ApplyRuntime) (trigger : Nat) (ok : Bool) :
    (r.finishPublisher trigger ok).state = r.state := by
  unfold finishPublisher
  simp only
  split
  · rfl
  · split
    · exact afterPublishing_state _ _ _
    · rfl

theorem moves_publisher (trigger : Nat) (publisher : Publisher) (ok : Bool) :
    Moves r.state (r.advancePublisher observer trigger publisher ok).state := by
  unfold advancePublisher
  simp only
  split
  · rw [finishPublisher_state]
    exact Moves.refl _
  · exact Moves.refl _
  · split <;> exact Moves.refl _
  · exact Moves.refl _
  · exact moves_poison _
  · rw [finishPublisher_state]
    exact Moves.refl _

theorem moves_placeholder (h : Inv maxLsn r) (lsn : Nat) : Moves r.state (r.placeholder lsn).state := by
  unfold placeholder
  cases hp : r.state.advanceDispatchPastPlaceholder lsn with
  | error e => exact Moves.refl _
  | ok result =>
    obtain ⟨hooks, s'⟩ := result
    obtain ⟨hlive, hcases⟩ := placeholder_ok hp
    rcases hcases with ⟨-, -, rfl⟩ | ⟨hlsn, ephemeral, durable, hadv⟩
    · exact Moves.refl _
    · have hadvanced := h.dispatch.placeholder_advanced hlsn hadv
      refine moves_live hlive ?_ hadvanced.le
      rw [h.dispatch.settled.applied, hadvanced.settled.applied]
      exact hadvanced.le

theorem moves_gapBefore (lsn : Nat) : Moves r.state (r.gapBefore lsn).state := by
  unfold gapBefore
  cases hgap : r.state.advanceDispatchGapBefore lsn with
  | error e => exact Moves.refl _
  | ok s' =>
    obtain ⟨hlive, hcases⟩ := gap_ok hgap
    rcases hcases with ⟨-, rfl⟩ | ⟨-, -, ephemeral, durable, rfl⟩
    · exact Moves.refl _
    · exact moves_live hlive (le_max_left _ _) (le_max_left _ _)

theorem moves_step (h : Inv maxLsn r) (hs : step observer r l = some r') : Moves r.state r'.state := by
  cases l with
  | submit request =>
    cases hs
    exact moves_submit request
  | noteDurable lsn =>
    cases hs
    exact moves_fields _ _ _ _ _ id
  | submission lsn ok =>
    obtain ⟨sub, hsub, hstep⟩ := bind_eq_some_iff.1 hs
    exact moves_submission h hsub hstep
  | dequeue =>
    cases hs
    exact moves_dequeue
  | worker work ok =>
    obtain ⟨worker, -, rfl⟩ := map_eq_some_iff.1 hs
    exact moves_worker work worker ok
  | publisher trigger ok =>
    obtain ⟨p, -, rfl⟩ := map_eq_some_iff.1 hs
    exact moves_publisher observer trigger p ok
  | placeholder lsn =>
    cases hs
    exact moves_placeholder h lsn
  | gapBefore lsn =>
    cases hs
    exact moves_gapBefore lsn
  | shutdown =>
    cases hs
    exact Moves.refl _

end

/-! ## Ordered apply -/

def phases (request : ApplyRequest) : List ApplyPhase :=
  .catalogPre :: (List.range request.tabletParts.length).map .tabletPart ++ [.descriptor, .catalogPost]

/-- There is a record at the LSN, and each of its closures was called once and succeeded. -/
def WorkFinished (r : ApplyRuntime) (lsn : Nat) : Prop :=
  ∃ sub, r.submissions lsn = some sub ∧
    ∀ phase ∈ phases sub.request, outcomes r.history.finished lsn phase = [true]

theorem Inv.workFinished {maxLsn : Nat} {r : ApplyRuntime} (h : Inv maxLsn r) {lsn : Nat}
    (hlsn : lsn ∈ r.history.marked) : ∃ sub, r.submissions lsn = some sub ∧
      (sub.request.tabletParts.length < 2 ^ 32 → WorkFinished r lsn) := by
  obtain ⟨sub, hsub, hown, hparts⟩ := h.work.marks lsn hlsn
  refine ⟨sub, hsub, fun hfit => ⟨sub, hsub, fun phase hphase => ?_⟩⟩
  simp only [phases, List.cons_append, List.mem_cons, List.mem_append, List.mem_map, List.mem_range,
    not_mem_nil, or_false] at hphase
  rcases hphase with rfl | ⟨part, hpart, rfl⟩ | rfl | rfl
  · exact hown _ (by decide)
  · exact (h.work.done _ (hparts hfit part hpart)).2
  · exact hown _ (by decide)
  · exact hown _ (by decide)

/-- **Records are applied in order.** A published record is finished if its parts could be counted in 32 bits. -/
theorem ordered_apply (observer : Bool) (maxLsn : Nat) {r : ApplyRuntime}
    (h : ((system observer maxLsn).guard Distinct).Reachable r) :
    (∀ l r', Distinct r l → step observer r l = some r' → Moves r.state r'.state) ∧
    (∀ n, maxLsn < n → n ≤ r.state.publishedLsn →
      n ∈ r.history.skipped ∨ n ∈ r.history.placeholders ∨
        ∃ sub, r.submissions n = some sub ∧ (sub.request.tabletParts.length < 2 ^ 32 → WorkFinished r n)) ∧
    (∀ w w' worker worker', r.workers w = some worker → r.workers w' = some worker' →
      worker.stage = .running → worker'.stage = .running → worker.tabletId = worker'.tabletId → w = w') ∧
    ∀ t, (startedOn r.history.started t).Pairwise Before := by
  have hinv := inv_reachable observer h
  refine ⟨fun l r' _ hs => moves_step observer hinv hs, fun n hlow hhigh => ?_,
    fun w w' worker worker' hw hw' hrun hrun' htablet => ?_, fun t => ?_⟩
  · exact (hinv.dispatch.published n hlow hhigh).imp id (Or.imp id hinv.workFinished)
  · refine hinv.tablets.single w w' worker.tabletId ?_ ?_
    · simp [holding, hw, Worker.holds, hrun]
    · simp [holding, hw', Worker.holds, hrun', htablet]
  · exact (pairwise_append.1 (hinv.order.ordered t)).1

def recordAfterGap : List Lbl :=
  [.placeholder 3, .gapBefore 5, .submit { lsn := 5, tabletParts := [7, 7] }] ++
    List.replicate 7 (.submission 5 true) ++ [.dequeue] ++ List.replicate 3 (.worker ⟨5, 0⟩ true) ++
    [.dequeue] ++ List.replicate 3 (.worker ⟨5, 1⟩ true) ++ List.replicate 4 (.submission 5 true)

theorem ordered_apply_recordAfterGap : ∃ r, ((system true 2).guard Distinct).Reachable r ∧
    r.state.publishedLsn = 5 ∧ startedOn r.history.started 7 = [⟨5, 0⟩, ⟨5, 1⟩] ∧ WorkFinished r 5 := by
  have hrun : ∃ r, ((system true 2).guard Distinct).Reachable r ∧
      (r.state.publishedLsn = 5 ∧ startedOn r.history.started 7 = [⟨5, 0⟩, ⟨5, 1⟩] ∧ 5 ∉ r.history.skipped ∧
        5 ∉ r.history.placeholders ∧ (r.submissions 5).any fun sub => sub.request.tabletParts.length < 2 ^ 32) :=
    LTS.reachable_of_exec_guard recordAfterGap (by decide)
  obtain ⟨r, hr, hpublished, hstarted, hskipped, hplaceholders, hfit⟩ := hrun
  refine ⟨r, hr, hpublished, hstarted, ?_⟩
  rcases (ordered_apply true 2 hr).2.1 5 (by decide) hpublished.ge with h | h | ⟨sub, hsub, h⟩
  · exact absurd h hskipped
  · exact absurd h hplaceholders
  · exact h (by simpa [hsub] using hfit)

/-! ## More parts than the count holds -/

section
variable {observer : Bool} {maxLsn lsn : Nat} {r r' : ApplyRuntime} {sub : Submission}

theorem updateTicket_self (hsub : r.submissions lsn = some sub) (f : Submission → Submission) :
    (r.updateTicket lsn f).submissions lsn = some (f sub) := by
  rw [updateTicket_submissions, if_pos rfl, hsub, map_some]

theorem goto_self (hsub : r.submissions lsn = some sub) (pc : SubmitPc) :
    (r.goto lsn pc).submissions lsn = some { sub with pc } := updateTicket_self hsub _

variable (hr : ((system observer maxLsn).guard Distinct).Reachable r) (hsub : r.submissions lsn = some sub)
include hr hsub

theorem reachable_submission (hstep : r.advanceSubmission lsn sub true = some r') :
    ((system observer maxLsn).guard Distinct).Reachable r' := by
  refine .step (l := .submission lsn true) hr ⟨trivial, ?_⟩
  simp only [system, LTS.ofStep, step, hsub, bind_some, hstep]

/-- A submission that has the turn enqueues all its parts before a worker takes one. -/
theorem reachable_finishTurn {part left : Nat} (hpc : sub.pc = .enqueue part)
    (hleft : sub.request.tabletParts.length = part + left) :
    ∃ r', ((system observer maxLsn).guard Distinct).Reachable r' ∧ r'.state = r.state ∧ r'.history = r.history ∧
      r'.submissions lsn = some { sub with pc := .finishTurn } := by
  induction left generalizing r sub part with
  | zero =>
    refine ⟨r.goto lsn .finishTurn, reachable_submission hr hsub ?_, rfl, rfl, goto_self hsub .finishTurn⟩
    simp only [advanceSubmission, hpc, List.getElem?_eq_none (show _ ≤ part from hleft.le)]
  | succ left ih =>
    have hpart : part < sub.request.tabletParts.length := by omega
    have hnext := reachable_submission hr hsub (by
      simp only [advanceSubmission, hpc, List.getElem?_eq_getElem hpart]
      rfl)
    obtain ⟨r', hr', hstate, hhistory, hsub'⟩ := ih hnext (goto_self hsub (.enqueue (part + 1))) rfl (by
      simp only
      omega)
    exact ⟨r', hr', hstate, hhistory, hsub'⟩

/-- When no part is left to count the record is marked applied, whatever its workers have done. -/
theorem reachable_markApplied (hpc : sub.pc = .finishTurn) (hrem : sub.remainingTabletParts = 0)
    (herror : sub.partError = false) :
    ∃ r', ((system observer maxLsn).guard Distinct).Reachable r' ∧ r'.state = r.state.finishDispatchTurn lsn ∧
      r'.history = { r.history with finished := r.history.finished ++
        [(lsn, .descriptor, true)] ++ [(lsn, .catalogPost, true)] } ∧
      r'.submissions lsn = some { sub with pc := .markApplied } := by
  have h1 := reachable_submission hr hsub (by
    simp only [advanceSubmission, hpc]
    rfl)
  have hsub1 := goto_self hsub .tabletPhase
  have h2 := reachable_submission h1 hsub1 (by
    simp only [advanceSubmission, herror, hrem]
    rfl)
  have hsub2 := goto_self hsub1 .descriptor
  have h3 := reachable_submission h2 hsub2 rfl
  have hsub3 := goto_self hsub2 .catalogPost
  have h4 := reachable_submission h3 hsub3 rfl
  exact ⟨_, h4, rfl, rfl, goto_self hsub3 .markApplied⟩

end

/-- A record whose parts are a multiple of 2^32 is published before any of them ran. -/
theorem uncounted_published (parts : List Nat) (hcount : parts.length % 2 ^ 32 = 0) :
    ∃ r, ((system false 0).guard Distinct).Reachable r ∧ r.state.publishedLsn = 1 ∧
      (∃ sub, r.submissions 1 = some sub ∧ sub.request.tabletParts = parts) ∧ r.history = {
        marked := [1]
        finished := [(1, .catalogPre, true), (1, .descriptor, true), (1, .catalogPost, true)] } := by
  have h0 : ((system false 0).guard Distinct).Reachable ((start 0).submit { lsn := 1, tabletParts := parts }) :=
    .step (l := .submit _) (.init rfl) ⟨rfl, rfl⟩
  have hsub0 : ((start 0).submit { lsn := 1, tabletParts := parts }).submissions 1 = some (Submission.mk
      { lsn := 1, tabletParts := parts } (parts.length % 2 ^ 32) false false false .waitTurn) := rfl
  rw [hcount] at hsub0
  have h1 := reachable_submission h0 hsub0 rfl
  have hsub1 := goto_self hsub0 .takeLane
  have h2 := reachable_submission h1 hsub1 rfl
  have hsub2 := goto_self hsub1 .catalogPre
  have h3 := reachable_submission h2 hsub2 rfl
  have hsub3 := goto_self hsub2 (.enqueue 0)
  obtain ⟨r4, h4, hstate4, hhistory4, hsub4⟩ := reachable_finishTurn h3 hsub3 rfl (Nat.zero_add _).symm
  obtain ⟨r5, h5, hstate5, hhistory5, hsub5⟩ := reachable_markApplied h4 hsub4 rfl rfl rfl
  have hmark : r5.state.markApplied 1 = .ok ([1], { bootstrapFrontiers {} 0 with
      nextDispatchLsn := 2, nextEphemeralLsn := 2, appliedLsn := 1, publishedLsn := 1
      applyFrontier := ⟨2, []⟩, publishFrontier := ⟨2, []⟩ }) := by
    rw [hstate5, hstate4]
    rfl
  have h6 := reachable_submission h5 hsub5 rfl
  simp only [markAppliedStep, hmark] at h6
  refine ⟨_, h6, rfl, ⟨_, goto_self (updateTicket_self hsub5 _) .publishing, rfl⟩, ?_⟩
  change { r5.history with marked := r5.history.marked ++ [1] } = _
  rw [hhistory5, hhistory4]
  rfl

theorem not_workFinished {r : ApplyRuntime} {sub : Submission} (hsub : r.submissions 1 = some sub)
    (hparts : sub.request.tabletParts ≠ []) (hpart : outcomes r.history.finished 1 (.tabletPart 0) = []) :
    ¬ WorkFinished r 1 := by
  rintro ⟨sub', hsub', hfinished⟩
  obtain rfl := some.inj (hsub.symm.trans hsub')
  have hphase : ApplyPhase.tabletPart 0 ∈ phases sub.request := by
    simp [phases, length_pos_iff.2 hparts]
  rw [hfinished _ hphase] at hpart
  cases hpart

/-- 2^32 parts count as none: the record is published, and none of them ran. -/
theorem parts_uncounted : ∃ r, ((system false 0).guard Distinct).Reachable r ∧ r.state.publishedLsn = 1 ∧
    1 ∉ r.history.skipped ∧ 1 ∉ r.history.placeholders ∧ ¬ WorkFinished r 1 := by
  obtain ⟨parts, hparts, hcount⟩ : ∃ parts : List Nat, parts ≠ [] ∧ parts.length % 2 ^ 32 = 0 := by
    refine ⟨replicate (2 ^ 32) 7, fun h => ?_, by rw [length_replicate, Nat.mod_self]⟩
    exact absurd ((replicate_eq_nil_iff _).1 h) (Nat.two_pow_pos 32).ne'
  obtain ⟨r, hr, hpublished, ⟨sub, hsub, rfl⟩, hhistory⟩ := uncounted_published parts hcount
  refine ⟨r, hr, hpublished, by simp [hhistory], by simp [hhistory], not_workFinished hsub hparts ?_⟩
  rw [hhistory]
  rfl

/-! ## Turns and wakeups -/

def hasTurn : SubmitPc → Bool
  | .takeLane | .catalogPre | .enqueue _ | .finishTurn => true
  | _ => false

theorem TurnOk.eq_next {next lsn : Nat} {pc : SubmitPc} (h : TurnOk next lsn pc) (hturn : hasTurn pc = true) :
    lsn = next := by
  cases pc <;> first | exact h | cases hturn

/-- **One submission dispatches at a time, in the order of the journal.** While one has the turn, those that still wait
for it are above, and those whose tablets may already be at work are below. -/
theorem turn_exclusive (observer : Bool) (maxLsn : Nat) :
    ((system observer maxLsn).guard Distinct).Always fun r => ∀ n n' sub sub', r.submissions n = some sub →
      r.submissions n' = some sub' → hasTurn sub.pc = true → (hasTurn sub'.pc = true → n' = n) ∧
        (sub'.pc = .waitTurn → n < n') ∧ (sub'.pc = .tabletPhase → n' < n) := by
  intro r hr n n' sub sub' hsub hsub' hturn
  have hinv := (inv_reachable observer hr).dispatch
  have hnext := (hinv.turns n sub hsub).eq_next hturn
  have h' := hinv.turns n' sub' hsub'
  refine ⟨fun hturn' => (h'.eq_next hturn').trans hnext.symm, fun hwait => ?_, fun htablet => ?_⟩
  · rw [hwait] at h'
    refine lt_of_le_of_ne (hnext.trans_le h') ?_
    rintro rfl
    obtain rfl := Option.some.inj (hsub.symm.trans hsub')
    rw [hwait] at hturn
    cases hturn
  · rw [htablet] at h'
    exact h'.trans_eq hnext.symm

/-- **No wakeup is lost.** A tablet with queued work is scheduled, or a worker has it, and never both; it is scheduled
once, and only with work. -/
theorem no_lost_wakeup (observer : Bool) (maxLsn : Nat) : ((system observer maxLsn).guard Distinct).Always fun r =>
    r.tabletDispatch.readyTablets.Nodup ∧ (∀ t ∈ r.tabletDispatch.readyTablets, r.tabletDispatch.queueOf t ≠ []) ∧
      ∀ t, r.tabletDispatch.queueOf t ≠ [] →
        (t ∈ r.tabletDispatch.readyTablets ↔ ∀ work, holding r.workers work ≠ some t) := by
  intro r hr
  have hok := (inv_reachable observer hr).tablets.ok
  refine ⟨hok.nodup, hok.work, fun t hqueue => ⟨fun hready work hheld => hok.apart t hready ⟨work, hheld⟩,
    fun hfree => ?_⟩⟩
  have hbox : (r.tabletDispatch.mailboxes t).isSome := by
    cases hm : r.tabletDispatch.mailboxes t with
    | none => exact absurd (by rw [TabletDispatchState.queueOf, hm]; rfl) hqueue
    | some m => rfl
  exact ((hok.mailbox t).1 hbox).resolve_right (not_exists.2 hfree)

end Paro.L3.OrderedApply
