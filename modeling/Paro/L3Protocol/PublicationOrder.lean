import Paro.L3Protocol.OrderedApply

/-!
# Order of the publication hooks

`mark_applied` computes the published prefix under the state lock and runs its hooks after the lock is
released (crates/journal/src/apply_queue.rs:887-941), so two calls that publish one prefix each can run their
hooks in either order.

* `hooks_out_of_order`: two records marked in their order, whose hooks and observer calls run in the opposite
  one.
* `publication_order`: in every run in which a call publishes a prefix only when no earlier call has hooks
  left (`Drained`), the hooks and the observer calls are in the order of the LSNs and skip no record.

The tracker of the checkpoint (crates/instance/src/checkpoint/runtime.rs:142-165) refuses an LSN that is not
the next one, so the order matters: the refusal fails the record and poisons the runtime.
-/
namespace Paro.L3.OrderedApply
open L2 Option List Function ApplyRuntime ApplyRuntimeState

/-- A call that completes a prefix does so when no call at a lower LSN has hooks left. -/
def Drained (r : ApplyRuntime) : Lbl → Prop
  | .submission lsn _ =>
    (r.submissions lsn).map (·.pc) = some .markApplied → lsn = r.state.publishedLsn + 1 →
      ∀ trigger < lsn, r.publishers trigger = none
  | _ => True

instance (r : ApplyRuntime) : (l : Lbl) → Decidable (Drained r l)
  | .submission _ _ => inferInstanceAs (Decidable (_ → _ → ∀ _ < _, _))
  | .submit _ | .noteDurable _ | .dequeue | .worker _ _ | .publisher _ _ | .placeholder _ | .gapBefore _ | .shutdown =>
    .isTrue trivial

/-! ## A loop over hooks -/

/-- What a loop that did not fail has left: the hooks and the observer calls. -/
def Outstanding (p : Publisher) (hooks observes : List Nat) : Prop :=
  match p.stage with
  | .hook => hooks = p.todo ∧ observes = p.todo
  | .observe => hooks = p.todo.tail ∧ observes = p.todo
  | .markPublished => hooks = p.todo.tail ∧ observes = p.todo.tail
  | .failRecord | .failTicket => True

/-- The calls that were made, in order, and those that are left: together the published records. -/
structure Calls (Published : Nat → Prop) (made left : List Nat) : Prop where
  sorted : (made ++ left).Pairwise (· < ·)
  exact_iff : ∀ n, n ∈ made ++ left ↔ Published n

theorem Calls.call {Published : Nat → Prop} {made left : List Nat} {n : Nat}
    (h : Calls Published made (n :: left)) : Calls Published (made ++ [n]) left := by
  constructor
  · rw [append_assoc]
    exact h.sorted
  · rw [append_assoc]
    exact h.exact_iff

/-- A prefix is published: its records come behind all that were before. -/
theorem Calls.publish {Published Published' : Nat → Prop} {made hooks : List Nat} {frontier : Nat}
    (h : Calls Published made []) (hle : ∀ n, Published n → n ≤ frontier) (hlt : ∀ n ∈ hooks, frontier < n)
    (hsorted : hooks.Pairwise (· < ·)) (hiff : ∀ n, Published' n ↔ Published n ∨ n ∈ hooks) :
    Calls Published' made hooks := by
  have hmade : ∀ n, n ∈ made ↔ Published n := fun n => by
    rw [← h.exact_iff n, append_nil]
  constructor
  · rw [pairwise_append]
    refine ⟨(pairwise_append.1 h.sorted).1, hsorted, fun m hm n hn => ?_⟩
    exact lt_of_le_of_lt (hle m ((hmade m).1 hm)) (hlt n hn)
  · intro n
    rw [mem_append, hmade, hiff]

structure HookInv (observer : Bool) (publishers : Nat → Option Publisher) (hooked observed : List Nat)
    (Published : Nat → Prop) (frontier : Nat) (poisoned : Bool) : Prop where
  calls : ∃ seen hooks observes, Calls Published hooked hooks ∧ Calls Published seen observes ∧
    observed = (if observer then seen else []) ∧
    (∀ trigger p, publishers trigger = some p → Outstanding p hooks observes) ∧
    ((∀ trigger, publishers trigger = none) → hooks = [] ∧ observes = [] ∨ poisoned = true)
  single : ∀ trigger trigger' p p', publishers trigger = some p → publishers trigger' = some p' → trigger = trigger'
  below : ∀ trigger p, publishers trigger = some p → trigger ≤ frontier
  failed : ∀ trigger p, publishers trigger = some p → p.stage = .failTicket → poisoned = true
  idle : ∀ trigger p, publishers trigger = some p → p.todo = [] → p.stage = .hook

section
variable {observer : Bool} {publishers : Nat → Option Publisher} {hooked observed : List Nat}
  {Published : Nat → Prop} {frontier : Nat} {poisoned : Bool}

theorem hookInv_start : HookInv observer (fun _ => none) [] [] (fun _ => False) frontier poisoned where
  calls := ⟨[], [], [], ⟨List.Pairwise.nil, by simp⟩, ⟨List.Pairwise.nil, by simp⟩, by simp, nofun,
    fun _ => .inl ⟨rfl, rfl⟩⟩
  single _ _ _ _ h := by cases h
  below _ _ h := by cases h
  failed _ _ h := by cases h
  idle _ _ h := by cases h

theorem HookInv.frame (h : HookInv observer publishers hooked observed Published frontier poisoned)
    {Published' : Nat → Prop} {frontier' : Nat} {poisoned' : Bool} (hiff : ∀ n, Published' n ↔ Published n)
    (hle : frontier ≤ frontier') (hpoison : poisoned = true → poisoned' = true) :
    HookInv observer publishers hooked observed Published' frontier' poisoned' := by
  obtain rfl : Published' = Published := funext fun n => propext (hiff n)
  obtain ⟨seen, hooks, observes, hhooks, hseen, hobserved, hout, hnone⟩ := h.calls
  exact ⟨⟨seen, hooks, observes, hhooks, hseen, hobserved, hout, fun hp => (hnone hp).imp id hpoison⟩,
    h.single, fun t p hp => le_trans (h.below t p hp) hle, fun t p hp hs => hpoison (h.failed t p hp hs), h.idle⟩

/-- One loop runs. -/
theorem hookInv_only {trigger : Nat} {p : Publisher} (hp : publishers trigger = some p)
    (honly : ∀ t q, publishers t = some q → t = trigger ∧ q = p) (hle : trigger ≤ frontier)
    (hfailed : p.stage = .failTicket → poisoned = true) (hidle : p.todo = [] → p.stage = .hook)
    (hcalls : ∃ seen hooks observes, Calls Published hooked hooks ∧ Calls Published seen observes ∧
      observed = (if observer then seen else []) ∧ Outstanding p hooks observes) :
    HookInv observer publishers hooked observed Published frontier poisoned := by
  obtain ⟨seen, hooks, observes, hhooks, hseen, hobserved, hout⟩ := hcalls
  refine ⟨⟨seen, hooks, observes, hhooks, hseen, hobserved, fun t q hq => ?_, fun hall => ?_⟩,
    fun t t' q q' hq hq' => ?_, fun t q hq => ?_, fun t q hq => ?_, fun t q hq => ?_⟩
  · exact (honly t q hq).2 ▸ hout
  · cases (hall trigger).symm.trans hp
  · exact (honly t q hq).1.trans (honly t' q' hq').1.symm
  · exact (honly t q hq).1 ▸ hle
  · exact (honly t q hq).2 ▸ hfailed
  · exact (honly t q hq).2 ▸ hidle

/-- A prefix with records is published while no loop runs, and its own loop starts. -/
theorem HookInv.publish (h : HookInv observer publishers hooked observed Published frontier poisoned)
    {Published' : Nat → Prop} {frontier' lsn : Nat} {hooks : List Nat} (hlive : poisoned = false)
    (hnone : ∀ trigger, publishers trigger = none) (hle : ∀ n, Published n → n ≤ frontier)
    (hlt : ∀ n ∈ hooks, frontier < n) (hsorted : hooks.Pairwise (· < ·))
    (hiff : ∀ n, Published' n ↔ Published n ∨ n ∈ hooks) (hlsn : lsn ≤ frontier') :
    HookInv observer (update publishers lsn (some { todo := hooks })) hooked observed Published'
      frontier' poisoned := by
  have hself : ∀ trigger p, update publishers lsn (some { todo := hooks }) trigger = some p →
      trigger = lsn ∧ p = { todo := hooks } := by
    intro trigger p hp
    rcases update_some hp with hp | ⟨-, hp⟩
    · exact hp
    · rw [hnone] at hp
      cases hp
  obtain ⟨seen, hooks0, observes0, hhooks, hseen, hobserved, -, hempty⟩ := h.calls
  rcases hempty hnone with ⟨rfl, rfl⟩ | hpoisoned
  · exact hookInv_only (update_self ..) hself hlsn nofun (fun _ => rfl) ⟨seen, hooks, hooks,
      hhooks.publish hle hlt hsorted hiff, hseen.publish hle hlt hsorted hiff, hobserved, rfl, rfl⟩
  · rw [hlive] at hpoisoned
    cases hpoisoned

section
variable (h : HookInv observer publishers hooked observed Published frontier poisoned) {trigger : Nat}
include h

/-- One step of the loop that runs. -/
theorem HookInv.advance {p p' : Publisher} (hp : publishers trigger = some p) {hooked' observed' : List Nat}
    {poisoned' : Bool} (hfailed : p'.stage = .failTicket → poisoned' = true) (hidle : p'.todo = [] → p'.stage = .hook)
    (hcalls : ∀ {seen hooks observes}, Calls Published hooked hooks → Calls Published seen observes →
      observed = (if observer then seen else []) → Outstanding p hooks observes →
      ∃ seen' hooks' observes', Calls Published hooked' hooks' ∧ Calls Published seen' observes' ∧
        observed' = (if observer then seen' else []) ∧ Outstanding p' hooks' observes') :
    HookInv observer (update publishers trigger (some p')) hooked' observed' Published frontier poisoned' := by
  have hself : ∀ t q, update publishers trigger (some p') t = some q → t = trigger ∧ q = p' := by
    intro t q hq
    exact (update_some hq).resolve_right fun hother => hother.1 (h.single t trigger q p hother.2 hp)
  obtain ⟨seen, hooks, observes, hhooks, hseen, hobserved, hout, -⟩ := h.calls
  exact hookInv_only (update_self ..) hself (h.below trigger p hp) hfailed hidle
    (hcalls hhooks hseen hobserved (hout trigger p hp))

/-- The loop ends, with nothing left or after a failure. -/
theorem HookInv.finish {p : Publisher} (hp : publishers trigger = some p) (hdone : poisoned = true ∨ p.todo = []) :
    HookInv observer (update publishers trigger none) hooked observed Published frontier poisoned := by
  have hempty : ∀ t, update publishers trigger none t = none := by
    intro t
    by_cases ht : t = trigger
    · rw [ht, update_self]
    · rw [update_of_ne ht]
      exact eq_none_iff_forall_ne_some.2 fun q hq => ht (h.single t trigger q p hq hp)
  obtain ⟨seen, hooks, observes, hhooks, hseen, hobserved, hout, -⟩ := h.calls
  refine ⟨⟨seen, hooks, observes, hhooks, hseen, hobserved, fun t q hq => ?_, fun _ => ?_⟩,
    fun t t' q q' hq => ?_, fun t q hq => ?_, fun t q hq => ?_, fun t q hq => ?_⟩
  · rw [hempty] at hq
    cases hq
  · rcases hdone with hdone | htodo
    · exact .inr hdone
    · have hleft := hout trigger p hp
      rw [Outstanding, h.idle trigger p hp htodo, htodo] at hleft
      exact .inl hleft
  all_goals
    rw [hempty] at hq
    cases hq

end

end

/-! ## Steps -/

def Published (r : ApplyRuntime) (n : Nat) : Prop := r.submissions n ≠ none ∧ n ≤ r.state.publishedLsn

abbrev PublishInv (observer : Bool) (r : ApplyRuntime) : Prop :=
  HookInv observer r.publishers r.history.hooked r.history.observed (Published r) r.state.publishedLsn
    r.state.poisoned

structure Quiet (r r' : ApplyRuntime) : Prop where
  publishers : r'.publishers = r.publishers
  hooked : r'.history.hooked = r.history.hooked
  observed : r'.history.observed = r.history.observed
  published : r'.state.publishedLsn = r.state.publishedLsn
  poisoned : r.state.poisoned = true → r'.state.poisoned = true
  submissions : ∀ n, r'.submissions n = none ↔ r.submissions n = none

section
variable {observer : Bool} {maxLsn : Nat} {r r' : ApplyRuntime}

theorem Quiet.trans {r'' : ApplyRuntime} (h : Quiet r r') (h' : Quiet r' r'') : Quiet r r'' :=
  ⟨h'.1.trans h.1, h'.2.trans h.2, h'.3.trans h.3, h'.4.trans h.4, h'.5 ∘ h.5, fun n => (h'.6 n).trans (h.6 n)⟩

theorem Quiet.inv (hq : Quiet r r') (h : PublishInv observer r) : PublishInv observer r' := by
  have hsame : PublishInv observer { r' with
      publishers := r.publishers
      history := { r'.history with hooked := r.history.hooked, observed := r.history.observed } } := by
    refine h.frame (fun n => ?_) (le_of_eq hq.published.symm) hq.poisoned
    simp only [Published, hq.published, ne_eq, hq.submissions]
  simp only [← hq.publishers, ← hq.hooked, ← hq.observed] at hsame
  exact hsame

section
variable (r) (lsn : Nat)

theorem quiet_updateTicket (f : Submission → Submission) :
    Quiet r (r.updateTicket lsn f) := ⟨rfl, rfl, rfl, rfl, id, fun _ => updateTicket_eq_none⟩

theorem quiet_goto (pc : SubmitPc) : Quiet r (r.goto lsn pc) :=
  quiet_updateTicket r lsn _

theorem quiet_leave (ok : Bool) : Quiet r (r.leave lsn ok) :=
  (quiet_goto r lsn (.returned ok)).trans ⟨rfl, rfl, rfl, rfl, id, fun _ => .rfl⟩

theorem quiet_afterPublishing (sub : Submission) : Quiet r (r.afterPublishing lsn sub) := by
  unfold afterPublishing
  split
  · exact quiet_goto r lsn _
  · exact quiet_leave r lsn true

theorem quiet_poison : Quiet r r.poison := ⟨rfl, rfl, rfl, rfl, fun _ => rfl, fun _ => .rfl⟩

theorem quiet_logFinished (phase : ApplyPhase) (ok : Bool) :
    Quiet r (r.logFinished lsn phase ok) := ⟨rfl, rfl, rfl, rfl, id, fun _ => .rfl⟩

end

variable {lsn trigger : Nat} {sub : Submission} {p : Publisher}

theorem quiet_submission {ok : Bool} (hpc : sub.pc ≠ .markApplied)
    (hstep : r.advanceSubmission lsn sub ok = some r') : Quiet r r' := by
  unfold advanceSubmission at hstep
  split at hstep
  case h_9 h => exact absurd h hpc
  case h_3 | h_7 | h_8 =>
    obtain rfl := some.inj hstep
    exact (quiet_logFinished r lsn _ ok).trans (quiet_goto _ lsn _)
  case h_12 =>
    obtain rfl := some.inj hstep
    exact (quiet_poison r).trans (quiet_goto _ lsn _)
  case h_13 =>
    obtain rfl := some.inj hstep
    exact (quiet_updateTicket r lsn _).trans (quiet_leave _ lsn false)
  case h_5 =>
    obtain rfl := some.inj hstep
    refine (quiet_goto r lsn .tabletPhase).trans ⟨rfl, rfl, rfl, ?_, ?_, fun _ => .rfl⟩
    all_goals
      simp only [finishDispatchTurn]
      split
    all_goals first | rfl | exact id
  all_goals
    repeat' split at hstep
    all_goals cases hstep <;> first | exact quiet_goto r lsn _ | exact quiet_leave r lsn _ |
      exact (quiet_goto r lsn _).trans ⟨rfl, rfl, rfl, rfl, id, fun _ => .rfl⟩

theorem quiet_worker (r : ApplyRuntime) (work : TabletApplyWork) (worker : Worker) (ok : Bool) :
    Quiet r (r.advanceWorker work worker ok) := by
  unfold advanceWorker
  split
  · exact ⟨rfl, rfl, rfl, rfl, id, fun _ => .rfl⟩
  · exact ⟨rfl, rfl, rfl, rfl, id, fun _ => .rfl⟩
  · exact (quiet_updateTicket r work.lsn _).trans ⟨rfl, rfl, rfl, rfl, id, fun _ => .rfl⟩
  · exact (quiet_poison r).trans ⟨rfl, rfl, rfl, rfl, id, fun _ => .rfl⟩
  · exact (quiet_updateTicket r work.lsn _).trans ⟨rfl, rfl, rfl, rfl, id, fun _ => .rfl⟩

theorem quiet_dequeue (r : ApplyRuntime) : Quiet r r.dequeue := by
  unfold dequeue
  split <;> exact ⟨rfl, rfl, rfl, rfl, id, fun _ => .rfl⟩

section
variable (h : Inv maxLsn r) {lsn : Nat} {hooks : List Nat} {s' : ApplyRuntimeState}
  (hadv : ApplyRuntimeState.Advanced r.state lsn hooks s')
include h hadv

/-- The records a locked step hands to the hooks are those it publishes. -/
theorem mem_hooks (n : Nat) : n ∈ hooks ↔ r.submissions n ≠ none ∧ r.state.publishedLsn < n ∧ n ≤ s'.publishedLsn := by
  have hle := hadv.le
  rw [hadv.hooks, mem_filter, mem_range'_1, decide_eq_true_eq, h.dispatch.registered]
  constructor
  · intro ⟨hrange, hsub, _⟩
    exact ⟨hsub, by omega, by omega⟩
  · intro ⟨hsub, hgt, hle'⟩
    exact ⟨by omega, hsub, hgt⟩

/-- Only the LSN behind the published one completes a prefix. -/
theorem lsn_of_hooks (hhooks : hooks ≠ []) :
    lsn = r.state.publishedLsn + 1 ∧ r.state.publishedLsn < s'.publishedLsn := by
  obtain ⟨n, hn⟩ := exists_mem_of_ne_nil hooks hhooks
  obtain ⟨-, hgt, hle⟩ := (mem_hooks h hadv n).1 hn
  refine ⟨?_, by omega⟩
  rcases hadv.published (r.state.publishedLsn + 1) (by omega) (by omega) with heq | hready
  · exact heq.symm
  · have := h.dispatch.settled.ready _ hready
    omega

end

theorem publish_markApplied (h : Inv maxLsn r) (hp : PublishInv observer r)
    (hsub : r.submissions lsn = some sub) (hpc : sub.pc = .markApplied)
    (hdrained : lsn = r.state.publishedLsn + 1 → ∀ trigger < lsn, r.publishers trigger = none) :
    PublishInv observer (r.markAppliedStep lsn sub) := by
  unfold markAppliedStep
  cases hmark : r.state.markApplied lsn with
  | error e => exact (quiet_leave r lsn false).inv hp
  | ok result =>
    obtain ⟨hooks, s'⟩ := result
    obtain ⟨hlive, hadv⟩ := markApplied_ok hmark
    have hadvanced := h.advanced hsub hpc hadv
    have hle := hadvanced.le
    have hmem := mem_hooks h hadvanced
    have hiff : ∀ n, (r.submissions n ≠ none ∧ n ≤ s'.publishedLsn) ↔ Published r n ∨ n ∈ hooks := by
      intro n
      rw [hmem, Published]
      by_cases hn : n ≤ r.state.publishedLsn
      · exact ⟨fun hx => .inl ⟨hx.1, hn⟩, fun hx => ⟨hx.elim (·.1) (·.1), by omega⟩⟩
      · exact ⟨fun hx => .inr ⟨hx.1, by omega, hx.2⟩, fun hx => hx.elim (fun hx => absurd hx.2 hn)
          fun hx => ⟨hx.1, hx.2.2⟩⟩
    have hpoisoned : s'.poisoned = false := hadvanced.poisoned.trans hlive
    simp only
    by_cases hhooks : hooks = []
    · subst hhooks
      refine Quiet.inv (quiet_afterPublishing _ lsn sub) (Quiet.inv (quiet_updateTicket _ lsn _) ?_)
      refine hp.frame (fun n => ?_) hle fun hf => ?_
      · have := hiff n
        rwa [or_iff_left (not_mem_nil)] at this
      · rw [hlive] at hf
        cases hf
    · rw [if_neg (by simpa using hhooks)]
      obtain ⟨hlsn, hgt⟩ := lsn_of_hooks h hadvanced hhooks
      have hnone : ∀ trigger, r.publishers trigger = none := by
        intro trigger
        by_cases htrigger : trigger < lsn
        · exact hdrained hlsn trigger htrigger
        · refine eq_none_iff_forall_ne_some.2 fun p hpub => ?_
          have := hp.below trigger p hpub
          omega
      have hstart : HookInv observer (update r.publishers lsn (some { todo := hooks }))
          r.history.hooked r.history.observed (fun n => r.submissions n ≠ none ∧ n ≤ s'.publishedLsn)
          s'.publishedLsn r.state.poisoned := by
        refine hp.publish hlive hnone (fun n hn => hn.2) (fun n hn => ((hmem n).1 hn).2.1) ?_ hiff (by omega)
        rw [hadvanced.hooks]
        exact List.Pairwise.filter _ pairwise_lt_range'
      have hsubs := ((quiet_updateTicket r lsn fun sub => { sub with applied := true }).trans
        (quiet_goto _ lsn .publishing)).submissions
      refine hstart.frame (fun n => and_congr_left' (not_congr (hsubs n))) le_rfl fun hf => ?_
      rw [hlive] at hf
      cases hf

section
variable (h : Inv maxLsn r) (hp : PublishInv observer r)
include h hp

theorem publish_submit (request : ApplyRequest) : PublishInv observer (r.submit request) := by
  unfold submit
  cases hreg : r.state.registerRecord request.lsn request.durableBatchLsn with
  | mk result s' =>
    cases result with
    | error e =>
      obtain ⟨ephemeral, rfl⟩ := registerRecord_error hreg
      exact Quiet.inv ⟨rfl, rfl, rfl, rfl, id, fun _ => .rfl⟩ hp
    | ok lsn =>
      obtain ⟨-, hle, ephemeral, durable, rfl⟩ := registerRecord_ok hreg
      -- the new record is behind the published ones
      refine hp.frame (fun n => ?_) le_rfl id
      have hbelow := h.dispatch.below
      simp only [Published]
      refine and_congr_left fun hn => ?_
      rw [update_of_ne (by omega)]

theorem publish_placeholder {lsn : Nat}
    (hnone : r.submissions lsn = none) : PublishInv observer (r.placeholder lsn) := by
  unfold placeholder
  cases hplace : r.state.advanceDispatchPastPlaceholder lsn with
  | error e => exact hp
  | ok result =>
    obtain ⟨hooks, s'⟩ := result
    obtain ⟨hlive, hcases⟩ := placeholder_ok hplace
    rcases hcases with ⟨hlt, rfl, rfl⟩ | ⟨hlsn, ephemeral, durable, hadv⟩
    · simp only [if_neg (ne_of_gt hlt)]
      exact hp
    have hadvanced := h.dispatch.placeholder_advanced hlsn hadv
    have hle := hadvanced.le
    simp only at hle
    -- a placeholder at the turn publishes itself and nothing that waits behind it
    have hself : ∀ n, r.state.publishedLsn < n → n ≤ s'.publishedLsn → r.submissions n = none := by
      intro n hgt hle'
      rcases hadvanced.published n hgt hle' with rfl | hready
      · exact hnone
      exfalso
      have hfirst := hadvanced.published (r.state.publishedLsn + 1) (by simp only; omega) (by omega)
      have hready_lt := h.dispatch.ready_lt hready
      have hready_gt := h.dispatch.settled.ready n hready
      rcases hfirst with hfirst | hfirst
      · omega
      · have := h.dispatch.settled.ready _ hfirst
        omega
    have hhooks : hooks = [] := by
      rw [hadvanced.hooks, filter_eq_nil_iff]
      intro n hn hmem
      rw [decide_eq_true_eq] at hmem
      simp only at hn hmem
      rw [mem_range'_1] at hn
      exact ((h.dispatch.registered n).1 hmem).1 (hself n (by omega) (by omega))
    subst hhooks
    simp only [isEmpty_nil, if_true, if_pos hlsn.symm]
    refine hp.frame (fun n => ?_) hle fun hf => ?_
    · simp only [Published]
      constructor
      · intro ⟨hsub, hn⟩
        refine ⟨hsub, not_lt.1 fun hgt => hsub (hself n hgt hn)⟩
      · intro ⟨hsub, hn⟩
        exact ⟨hsub, le_trans hn hle⟩
    · rw [hlive] at hf
      cases hf

theorem publish_gapBefore (lsn : Nat) : PublishInv observer (r.gapBefore lsn) := by
  unfold gapBefore
  cases hgap : r.state.advanceDispatchGapBefore lsn with
  | error e => exact hp
  | ok s' =>
    rcases (gap_ok hgap).2 with ⟨-, rfl⟩ | ⟨-, hpending, ephemeral, durable, rfl⟩
    · exact Quiet.inv ⟨rfl, rfl, rfl, rfl, id, fun _ => .rfl⟩ hp
    refine hp.frame (fun n => ?_) (le_max_left _ _) id
    simp only [Published, afterGap]
    constructor
    · intro ⟨hsub, hn⟩
      refine ⟨hsub, not_lt.1 fun hgt => ?_⟩
      have := hpending n ((h.dispatch.registered n).2 ⟨hsub, hgt⟩)
      omega
    · intro ⟨hsub, hn⟩
      exact ⟨hsub, by omega⟩

end

theorem finish_publisher (h : PublishInv observer r)
    (hp : r.publishers trigger = some p) (hdone : r.state.poisoned = true ∨ p.todo = []) (ok : Bool) :
    PublishInv observer (r.finishPublisher trigger ok) := by
  have hfinish : PublishInv observer { r with publishers := update r.publishers trigger none } := h.finish hp hdone
  unfold finishPublisher
  simp only
  split
  · exact hfinish
  · split
    · exact (quiet_afterPublishing _ trigger _).inv hfinish
    · exact (quiet_leave _ trigger false).inv hfinish

theorem publish_publisher (h : PublishInv observer r) (hp : r.publishers trigger = some p) (ok : Bool) :
    PublishInv observer (r.advancePublisher observer trigger p ok) := by
  unfold advancePublisher
  simp only
  split
  · rename_i htodo
    exact finish_publisher h hp (.inr htodo) true
  · -- the hook of the first record
    rename_i lsn todo htodo hstage
    refine h.advance hp (fun hf => by cases ok <;> cases hf) (fun hf => by cases htodo.symm.trans hf)
      fun {seen hooks observes} hhooks hseen hobserved hout => ?_
    simp only [Outstanding, hstage, htodo] at hout
    obtain ⟨rfl, rfl⟩ := hout
    refine ⟨seen, todo, lsn :: todo, hhooks.call, hseen, hobserved, ?_⟩
    cases ok <;> simp [Outstanding, htodo]
  · -- its observer call
    rename_i lsn todo htodo hstage
    cases observer with
    | true =>
      refine h.advance hp (fun hf => by cases ok <;> cases hf) (fun hf => by cases htodo.symm.trans hf)
        fun {seen hooks observes} hhooks hseen hobserved hout => ?_
      simp only [Outstanding, hstage, htodo] at hout
      obtain ⟨rfl, rfl⟩ := hout
      refine ⟨seen ++ [lsn], hooks, hooks, hhooks, hseen.call, ?_, ?_⟩
      · show r.history.observed ++ [lsn] = seen ++ [lsn]
        rw [hobserved, if_pos rfl]
      · cases ok <;> simp [Outstanding, htodo]
    | false =>
      refine h.advance hp (fun hf => by cases hf) (fun hf => by cases htodo.symm.trans hf)
        fun {seen hooks observes} hhooks hseen hobserved hout => ?_
      simp only [Outstanding, hstage, htodo] at hout
      obtain ⟨rfl, rfl⟩ := hout
      exact ⟨seen ++ [lsn], hooks, hooks, hhooks, hseen.call, hobserved, by simp [Outstanding, htodo]⟩
  · rename_i lsn todo htodo hstage
    have hnext : PublishInv observer { r with
        publishers := update r.publishers trigger (some { todo }) } := by
      refine h.advance hp (fun hf => by cases hf) (fun _ => rfl)
        fun {seen hooks observes} hhooks hseen hobserved hout => ?_
      simp only [Outstanding, hstage, htodo] at hout
      obtain ⟨rfl, rfl⟩ := hout
      exact ⟨seen, _, _, hhooks, hseen, hobserved, rfl, rfl⟩
    exact (quiet_updateTicket _ lsn _).inv hnext
  · rename_i htodo hstage
    exact h.advance hp (fun _ => rfl) (fun hf => by cases htodo.symm.trans hf)
      fun {seen hooks observes} hhooks hseen hobserved _ =>
        ⟨seen, hooks, observes, hhooks, hseen, hobserved, trivial⟩
  · rename_i lsn _ htodo hstage
    exact finish_publisher ((quiet_updateTicket r lsn _).inv h) hp (.inl (h.failed trigger p hp hstage)) false

theorem publish_step (h : Inv maxLsn r) (hp : PublishInv observer r) {l : Lbl} (hl : Distinct r l)
    (hd : Drained r l) (hs : step observer r l = some r') : PublishInv observer r' := by
  cases l with
  | submit request =>
    cases hs
    exact publish_submit h hp request
  | noteDurable lsn | shutdown =>
    cases hs
    exact Quiet.inv ⟨rfl, rfl, rfl, rfl, id, fun _ => .rfl⟩ hp
  | submission lsn ok =>
    obtain ⟨sub, hsub, hstep⟩ := bind_eq_some_iff.1 hs
    by_cases hpc : sub.pc = .markApplied
    · simp only [advanceSubmission, hpc] at hstep
      cases hstep
      exact publish_markApplied h hp hsub hpc (hd (by rw [hsub, map_some, hpc]))
    · exact (quiet_submission hpc hstep).inv hp
  | dequeue =>
    cases hs
    exact (quiet_dequeue r).inv hp
  | worker work ok =>
    obtain ⟨worker, -, rfl⟩ := map_eq_some_iff.1 hs
    exact (quiet_worker r work worker ok).inv hp
  | publisher trigger ok =>
    obtain ⟨p, hpub, rfl⟩ := map_eq_some_iff.1 hs
    exact publish_publisher hp hpub ok
  | placeholder lsn =>
    cases hs
    exact publish_placeholder h hp hl
  | gapBefore lsn =>
    cases hs
    exact publish_gapBefore h hp lsn

end

/-! ## The order of the calls -/

/-- The calls are in order, and a record is behind all records with a lower LSN. -/
def InOrder (r : ApplyRuntime) (calls : List Nat) : Prop :=
  calls.Pairwise (· < ·) ∧ ∀ n ∈ calls, ∀ m < n, r.submissions m ≠ none → m ∈ calls

theorem Calls.inOrder {r : ApplyRuntime} {made left : List Nat} (h : Calls (Published r) made left) :
    InOrder r made := by
  have hsorted := pairwise_append.1 h.sorted
  refine ⟨hsorted.1, fun n hn m hm hsub => ?_⟩
  obtain ⟨-, hle⟩ := (h.exact_iff n).1 (mem_append_left _ hn)
  rcases mem_append.1 ((h.exact_iff m).2 ⟨hsub, by omega⟩) with hmade | hleft
  · exact hmade
  · have := hsorted.2.2 n hn m hleft
    omega

/-- **Hooks run in journal order** when each prefix is drained before the next one is published. -/
theorem publication_order (observer : Bool) (maxLsn : Nat) {r : ApplyRuntime}
    (h : ((system observer maxLsn).guard fun r l => Distinct r l ∧ Drained r l).Reachable r) :
    InOrder r r.history.hooked ∧ InOrder r r.history.observed := by
  have hinv : ((system observer maxLsn).guard fun r l => Distinct r l ∧ Drained r l).Invariant
      fun r => Inv maxLsn r ∧ PublishInv observer r := by
    refine ⟨fun s hs => ?_, fun s l s' hi hs => ?_⟩
    · obtain rfl : s = start maxLsn := hs
      refine ⟨inv_start maxLsn, hookInv_start.frame (fun n => ?_) le_rfl id⟩
      exact ⟨fun hn => hn.1 rfl, False.elim⟩
    · exact ⟨inv_step observer hi.1 hs.1.1 hs.2, publish_step hi.1 hi.2 hs.1.1 hs.1.2 hs.2⟩
  obtain ⟨seen, hooks, observes, hhooks, hseen, hobserved, -⟩ := (hinv.reachable h).2.calls
  refine ⟨hhooks.inOrder, ?_⟩
  rw [hobserved]
  split
  · exact hseen.inOrder
  · exact ⟨List.Pairwise.nil, fun n hn => by cases hn⟩

def twoRecords : List Lbl :=
  [.submit { lsn := 1 }, .submit { lsn := 2 }] ++ List.replicate 8 (.submission 1 true) ++
    List.replicate 8 (.submission 2 true)

theorem publication_order_twoRecords :
    ∃ r, ((system true 0).guard fun r l => Distinct r l ∧ Drained r l).Reachable r ∧
      r.history.observed = [1, 2] ∧ InOrder r [1, 2] := by
  have hrun : ∃ r, ((system true 0).guard fun r l => Distinct r l ∧ Drained r l).Reachable r ∧
      r.history.observed = [1, 2] :=
    LTS.reachable_of_exec_guard (twoRecords ++ [.submission 1 true] ++ replicate 4 (.publisher 1 true) ++
      [.submission 2 true] ++ replicate 2 (.publisher 2 true)) (by decide)
  obtain ⟨r, hr, hobserved⟩ := hrun
  exact ⟨r, hr, hobserved, hobserved ▸ (publication_order true 0 hr).2⟩

/-- The second record is marked before the hooks of the first ran: its own run first. -/
theorem hooks_out_of_order : ∃ r, ((system true 0).guard Distinct).Reachable r ∧
    r.history.hooked = [2, 1] ∧ r.history.observed = [2, 1] :=
  LTS.reachable_of_exec_guard (twoRecords ++ [.submission 1 true, .submission 2 true] ++
    replicate 2 (.publisher 2 true) ++ replicate 2 (.publisher 1 true)) (by decide)

end Paro.L3.OrderedApply
