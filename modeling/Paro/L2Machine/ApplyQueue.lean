import Mathlib.Data.List.Nodup
import Paro.Core.Frontier

/-!
# Journal apply runtime

Model of the state behind the two locks of `JournalApplyRuntimeInner`
(crates/journal/src/apply_queue.rs) and of its frontiers (crates/journal/src/publish_frontier.rs).

* `ApplyRuntimeState`: the dispatch turn, the applied and published frontiers, the pending records and
  the poison. `Settled` says how its cursors are linked, and `advance_settled` what publishing does.
* `TabletDispatchState`: the mailboxes of the tablets and the queue of tablets that have work.
  `TabletDispatchState.Ok` says who may run a tablet: a mailbox is there while its tablet is in the ready
  queue or held by one worker, and never both.

LSNs are natural numbers; the saturating additions of the source differ from them only at 2^64 - 1.
Error texts are left out, metrics too. `La-b` are lines of `apply_queue.rs`.
-/
namespace Paro.L2

open List Function

/-! ## Frontiers

`ApplyFrontier` and `PublishFrontier` have the same fields and the same methods. -/

abbrev ApplyFrontier := Frontier

abbrev PublishFrontier := Frontier

namespace JournalFrontier

/-- publish_frontier.rs:13-16 and 43-46 -/
def bootstrap (maxLsn : Nat) : Frontier := { next := max (maxLsn + 1) 1 }

/-- publish_frontier.rs:18-21 and 48-51 -/
def skipThrough (f : Frontier) (maxLsn : Nat) : Frontier where
  next := max f.next (max (maxLsn + 1) 1)
  ready := f.ready.filter (maxLsn < ·)

/-- publish_frontier.rs:23-35 and 53-65 -/
def markReady (f : Frontier) (lsn : Nat) : List Nat × Frontier :=
  let f : Frontier := { next := if f.next = 0 then 1 else f.next, ready := f.ready.insert lsn }
  f.release f.ready.length

end JournalFrontier

/-! ## The runtime state -/

/-- L539-547 -/
structure ApplyRuntimeState where
  nextDispatchLsn : Nat := 1
  nextEphemeralLsn : Nat := 1
  durableLsn : Nat := 0
  appliedLsn : Nat := 0
  publishedLsn : Nat := 0
  applyFrontier : ApplyFrontier := {}
  publishFrontier : PublishFrontier := {}
  records : List Nat := []
  poisoned : Bool := false
deriving DecidableEq, Repr

inductive ApplyQueueError
  | poisoned
  | belowDispatchFrontier (lsn next : Nat)
  | placeholderLsnZero
  | placeholderSkips (lsn next : Nat)
  | gapLsnZero
  | gapSkipsPending (lsn pending : Nat)
deriving DecidableEq, Repr

namespace ApplyRuntimeState
variable (s : ApplyRuntimeState)

/-- L343-352 -/
def bootstrapFrontiers (maxLsn : Nat) : ApplyRuntimeState :=
  { s with
    nextDispatchLsn := max (maxLsn + 1) 1
    nextEphemeralLsn := max (maxLsn + 1) 1
    durableLsn := maxLsn
    appliedLsn := maxLsn
    publishedLsn := maxLsn
    applyFrontier := JournalFrontier.bootstrap maxLsn
    publishFrontier := JournalFrontier.bootstrap maxLsn }

/-- L354-357 -/
def noteDurableAppend (durableLsn : Nat) : ApplyRuntimeState :=
  { s with durableLsn := max s.durableLsn durableLsn }

/-- The LSN a record gets; 0 asks for the next ephemeral one. L624-631 -/
def assignedLsn (rawLsn : Nat) : Nat := if rawLsn = 0 then s.nextEphemeralLsn else rawLsn

/-- L608-652 -/
def registerRecord (rawLsn durableBatchLsn : Nat) : Except ApplyQueueError Nat × ApplyRuntimeState :=
  if s.poisoned then (.error .poisoned, s)
  else
    let lsn := s.assignedLsn rawLsn
    let s : ApplyRuntimeState :=
      { s with
        nextEphemeralLsn :=
          if rawLsn = 0 then s.nextEphemeralLsn + 1 else max s.nextEphemeralLsn (rawLsn + 1) }
    if lsn < s.nextDispatchLsn then (.error (.belowDispatchFrontier lsn s.nextDispatchLsn), s)
    else
      (.ok lsn, { s with
        durableLsn := max s.durableLsn durableBatchLsn
        records := s.records.insert lsn })

/-- `none` while the caller has to wait. L652-663 -/
def waitForDispatchTurn (lsn : Nat) : Option (Except ApplyQueueError Unit) :=
  if s.poisoned then some (.error .poisoned)
  else if s.nextDispatchLsn = lsn then some (.ok ())
  else none

/-- L665-671 -/
def finishDispatchTurn (lsn : Nat) : ApplyRuntimeState :=
  if s.nextDispatchLsn = lsn then { s with nextDispatchLsn := s.nextDispatchLsn + 1 } else s

/-- The locked part of `fail_record`. L764-769 -/
def poison : ApplyRuntimeState := { s with poisoned := true }

variable (out : List Nat × ApplyRuntimeState)

/-- The inner loop: the LSNs whose records were pending are collected.
L1088-1094 -/
def publish (publishedLsn : Nat) : List Nat × ApplyRuntimeState :=
  (if publishedLsn ∈ out.2.records then out.1 ++ [publishedLsn] else out.1,
    { out.2 with publishedLsn, records := out.2.records.filter (· ≠ publishedLsn) })

/-- The outer loop. L1086-1095 -/
def apply (appliedLsn : Nat) : List Nat × ApplyRuntimeState :=
  let published := JournalFrontier.markReady out.2.publishFrontier appliedLsn
  published.1.foldl publish (out.1, { out.2 with appliedLsn, publishFrontier := published.2 })

/-- L1080-1097 -/
def advancePublishFrontiersLocked (appliedReadyLsn : Nat) : List Nat × ApplyRuntimeState :=
  let applied := JournalFrontier.markReady s.applyFrontier appliedReadyLsn
  applied.1.foldl apply ([], { s with applyFrontier := applied.2 })

variable (lsn : Nat)

/-- The locked part of `mark_applied`: the LSNs whose hooks are to be run. L888-896 -/
def markApplied : Except ApplyQueueError (List Nat × ApplyRuntimeState) :=
  if s.poisoned then .error .poisoned else .ok (s.advancePublishFrontiersLocked lsn)

/-- L778-813 -/
def advanceDispatchPastPlaceholder : Except ApplyQueueError (List Nat × ApplyRuntimeState) :=
  if lsn = 0 then .error .placeholderLsnZero
  else if s.poisoned then .error .poisoned
  else if lsn < s.nextDispatchLsn then .ok ([], s)
  else if lsn ≠ s.nextDispatchLsn then .error (.placeholderSkips lsn s.nextDispatchLsn)
  else
    .ok (advancePublishFrontiersLocked
      { s with
        durableLsn := max s.durableLsn lsn
        nextEphemeralLsn := max s.nextEphemeralLsn (lsn + 1)
        nextDispatchLsn := s.nextDispatchLsn + 1 } lsn)

/-- L813-856 -/
def advanceDispatchGapBefore : Except ApplyQueueError ApplyRuntimeState :=
  if lsn = 0 then .error .gapLsnZero
  else if s.poisoned then .error .poisoned
  else if lsn ≤ s.nextDispatchLsn then .ok s
  else
    match (s.records.filter (· < lsn)).min? with
    | some pending => .error (.gapSkipsPending lsn pending)
    | none =>
      .ok { s with
        durableLsn := max s.durableLsn (lsn - 1)
        appliedLsn := max s.appliedLsn (lsn - 1)
        publishedLsn := max s.publishedLsn (lsn - 1)
        nextEphemeralLsn := max s.nextEphemeralLsn lsn
        nextDispatchLsn := lsn
        applyFrontier := JournalFrontier.skipThrough s.applyFrontier (lsn - 1)
        publishFrontier := JournalFrontier.skipThrough s.publishFrontier (lsn - 1) }

/-! ## How the cursors are linked -/

/-- The frontiers agree: both stand behind the published LSN, nothing waits between them, and what is
ready waits for a smaller LSN. -/
structure Settled (s : ApplyRuntimeState) : Prop where
  applied : s.appliedLsn = s.publishedLsn
  applyNext : max s.applyFrontier.next 1 = s.publishedLsn + 1
  publishNext : max s.publishFrontier.next 1 = s.publishedLsn + 1
  publishReady : s.publishFrontier.ready = []
  ready : ∀ n ∈ s.applyFrontier.ready, s.publishedLsn + 1 < n

variable {s}

open JournalFrontier

theorem settled_bootstrap (maxLsn : Nat) : Settled (s.bootstrapFrontiers maxLsn) := by
  refine ⟨rfl, ?_, ?_, rfl, fun n hn => by cases hn⟩
  all_goals
    simp only [bootstrapFrontiers, bootstrap]
    omega

theorem markReady_released (f : Frontier) (lsn : Nat) :
    Frontier.Released ⟨max f.next 1, f.ready.insert lsn⟩ (markReady f lsn).1
      (markReady f lsn).2 := by
  have hnext : (if f.next = 0 then 1 else f.next) = max f.next 1 := by
    split <;> omega
  rw [markReady, hnext]
  exact Frontier.release_released le_rfl

variable {lsn rawLsn durableBatchLsn : Nat} {s' : ApplyRuntimeState} {hooks : List Nat}

/-- An empty frontier lets its next LSN through at once. -/
theorem markReady_next {f : Frontier} (hnext : max f.next 1 = lsn) (hready : f.ready = []) :
    markReady f lsn = ([lsn], ⟨lsn + 1, []⟩) := by
  have hfirst : (if f.next = 0 then 1 else f.next) = lsn := by
    split <;> omega
  simp [markReady, hready, hfirst, Frontier.release]

structure PublishRun (n k : Nat) (hooks : List Nat) (s : ApplyRuntimeState) (hooks' : List Nat)
    (s' : ApplyRuntimeState) : Prop where
  hooks : hooks' = hooks ++ (List.range' n k).filter (· ∈ s.records)
  applied : s'.appliedLsn = if k = 0 then s.appliedLsn else n + k - 1
  published : s'.publishedLsn = if k = 0 then s.publishedLsn else n + k - 1
  publishNext : max s'.publishFrontier.next 1 = n + k
  publishReady : s'.publishFrontier.ready = []
  records : ∀ x, x ∈ s'.records ↔ x ∈ s.records ∧ ¬ (n ≤ x ∧ x < n + k)
  applyFrontier : s'.applyFrontier = s.applyFrontier
  nextDispatchLsn : s'.nextDispatchLsn = s.nextDispatchLsn
  poisoned : s'.poisoned = s.poisoned

theorem publishRun_foldl {n k : Nat} {hooks : List Nat} (hnext : max s.publishFrontier.next 1 = n)
    (hready : s.publishFrontier.ready = []) :
    PublishRun n k hooks s ((List.range' n k).foldl apply (hooks, s)).1
      ((List.range' n k).foldl apply (hooks, s)).2 := by
  induction k generalizing n hooks s with
  | zero =>
    refine ⟨by simp, rfl, rfl, hnext, hready, fun x => ?_, rfl, rfl, rfl⟩
    simp only [range'_zero, foldl_nil]
    exact ⟨fun h => ⟨h, by omega⟩, fun h => h.1⟩
  | succ k ih =>
    rw [range'_succ, foldl_cons, apply, markReady_next hnext hready, foldl_cons, foldl_nil, publish]
    have hrest := @ih { s with
        appliedLsn := n
        publishedLsn := n
        publishFrontier := ⟨n + 1, []⟩
        records := s.records.filter (· ≠ n) } (n + 1)
      (if n ∈ s.records then hooks ++ [n] else hooks) (by simp) rfl
    generalize (range' (n + 1) k).foldl apply _ = out at hrest ⊢
    obtain ⟨hhooks, happlied, hpublished, hnext', hready', hrecords, hf, hd, hp⟩ := hrest
    refine ⟨?_, ?_, ?_, ?_, hready', ?_, hf, hd, hp⟩
    · have hsame : (range' (n + 1) k).filter (· ∈ s.records.filter (· ≠ n)) =
          (range' (n + 1) k).filter (· ∈ s.records) := by
        refine filter_congr fun x hx => ?_
        have hlt := (mem_range'_1.1 hx).1
        have hne : x ≠ n := by omega
        simp [hne]
      rw [hhooks, hsame, range'_succ, filter_cons]
      by_cases hn : n ∈ s.records
      · simp [hn]
      · simp [hn]
    · rw [happlied, if_neg (Nat.succ_ne_zero k)]
      simp only
      split <;> omega
    · rw [hpublished, if_neg (Nat.succ_ne_zero k)]
      simp only
      split <;> omega
    · rw [hnext']; omega
    · intro x
      rw [hrecords, mem_filter, decide_eq_true_eq]
      constructor
      · rintro ⟨⟨hx, hne⟩, hout⟩
        exact ⟨hx, by omega⟩
      · rintro ⟨hx, hout⟩
        exact ⟨⟨hx, by omega⟩, by omega⟩

/-- What a locked step that marks an LSN does: the published LSN moves over it and what was ready behind
it, the records there are handed to the hooks, and the rest of what is ready waits on. -/
structure Advanced (s : ApplyRuntimeState) (lsn : Nat) (hooks : List Nat) (s' : ApplyRuntimeState) :
    Prop where
  settled : Settled s'
  le : s.publishedLsn ≤ s'.publishedLsn
  published : ∀ n, s.publishedLsn < n → n ≤ s'.publishedLsn → n = lsn ∨ n ∈ s.applyFrontier.ready
  ready : ∀ n, n ∈ s'.applyFrontier.ready ↔ (n = lsn ∨ n ∈ s.applyFrontier.ready) ∧ s'.publishedLsn < n
  records : ∀ n, n ∈ s'.records ↔ n ∈ s.records ∧ ¬ (s.publishedLsn < n ∧ n ≤ s'.publishedLsn)
  hooks : hooks = (List.range' (s.publishedLsn + 1) (s'.publishedLsn - s.publishedLsn)).filter
    (· ∈ s.records)
  nextDispatchLsn : s'.nextDispatchLsn = s.nextDispatchLsn
  poisoned : s'.poisoned = s.poisoned

theorem advance_advanced (h : Settled s) (hlsn : s.publishedLsn < lsn) :
    Advanced s lsn (s.advancePublishFrontiersLocked lsn).1 (s.advancePublishFrontiersLocked lsn).2 := by
  have hrel := markReady_released s.applyFrontier lsn
  rw [advancePublishFrontiersLocked]
  generalize markReady s.applyFrontier lsn = applied at hrel ⊢
  obtain ⟨adv, f⟩ := applied
  rw [h.applyNext] at hrel
  have hrun := hrel.run
  simp only at hrun hrel ⊢
  have hpub := @publishRun_foldl { s with applyFrontier := f } (s.publishedLsn + 1) adv.length []
    h.publishNext h.publishReady
  rw [← hrun] at hpub
  generalize adv.foldl apply _ = out at hpub ⊢
  obtain ⟨hhooks, happlied, hpublished, hnext, hready, hrecords, hf, hd, hp⟩ := hpub
  simp only at hhooks happlied hpublished hrecords hf hd hp
  have hout : out.2.publishedLsn = s.publishedLsn + adv.length := by
    rw [hpublished]
    split <;> omega
  have hmem : ∀ n, n ∈ adv ↔ s.publishedLsn < n ∧ n ≤ out.2.publishedLsn := by
    intro n
    rw [hrel.mem_iff, hrel.next, hout]
    simp only
    omega
  refine ⟨⟨?_, ?_, ?_, hready, ?_⟩, ?_, ?_, ?_, ?_, ?_, hd, hp⟩
  · rw [happlied, hpublished, h.applied]
  · rw [hf, hrel.next, hout]
    simp only
    omega
  · rw [hnext, hout]
    omega
  · intro n hn
    rw [hf] at hn
    have hstuck := hrel.stuck
    rw [hrel.next] at hstuck
    obtain ⟨hn', hnot⟩ := (hrel.stillReady n).1 hn
    rw [hmem] at hnot
    have hlow : s.publishedLsn < n := by
      rcases mem_insert_iff.1 hn' with rfl | hn'
      · exact hlsn
      · have := h.ready n hn'
        omega
    have hne : n ≠ s.publishedLsn + 1 + adv.length := fun he => hstuck (he ▸ hn)
    omega
  · omega
  · intro n hlow hhigh
    exact mem_insert_iff.1 (hrel.wasReady n ((hmem n).2 ⟨hlow, hhigh⟩))
  · intro n
    rw [hf, hrel.stillReady, hmem, mem_insert_iff]
    constructor
    · rintro ⟨hn, hnot⟩
      refine ⟨hn, ?_⟩
      rcases hn with rfl | hn
      · omega
      · have := h.ready n hn
        omega
    · rintro ⟨hn, hhigh⟩
      exact ⟨hn, by omega⟩
  · intro n
    rw [hrecords]
    have : s.publishedLsn + 1 ≤ n ∧ n < s.publishedLsn + 1 + adv.length ↔
        s.publishedLsn < n ∧ n ≤ out.2.publishedLsn := by omega
    rw [this]
  · rw [hhooks, nil_append, hout, Nat.add_sub_cancel_left]

/-! ## What the locked steps can do -/

theorem registerRecord_ok (h : s.registerRecord rawLsn durableBatchLsn = (.ok lsn, s')) :
    lsn = s.assignedLsn rawLsn ∧ s.nextDispatchLsn ≤ lsn ∧ ∃ ephemeral durable, s' = { s with
        nextEphemeralLsn := ephemeral
        durableLsn := durable
        records := s.records.insert lsn } := by
  unfold registerRecord at h
  simp only at h
  split at h
  · cases h
  split at h
  · cases h
  · rename_i hge
    cases h
    exact ⟨rfl, not_lt.1 hge, _, _, rfl⟩

theorem registerRecord_error {e : ApplyQueueError} (h : s.registerRecord rawLsn durableBatchLsn = (.error e, s')) :
    ∃ ephemeral, s' = { s with nextEphemeralLsn := ephemeral } := by
  unfold registerRecord at h
  simp only at h
  split at h
  · cases h
    exact ⟨_, rfl⟩
  · split at h
    · cases h
      exact ⟨_, rfl⟩
    · cases h

theorem markApplied_ok (h : s.markApplied lsn = .ok (hooks, s')) :
    s.poisoned = false ∧ s.advancePublishFrontiersLocked lsn = (hooks, s') := by
  unfold markApplied at h
  split at h
  · cases h
  · rename_i hp
    exact ⟨Bool.eq_false_iff.2 hp, Except.ok.inj h⟩

/-- A placeholder behind the turn does nothing; one at the turn moves it on and is marked. -/
theorem placeholder_ok (h : s.advanceDispatchPastPlaceholder lsn = .ok (hooks, s')) : s.poisoned = false ∧
      (lsn < s.nextDispatchLsn ∧ hooks = [] ∧ s' = s ∨ lsn = s.nextDispatchLsn ∧ ∃ ephemeral durable,
          advancePublishFrontiersLocked
            { s with
              durableLsn := durable
              nextEphemeralLsn := ephemeral
              nextDispatchLsn := s.nextDispatchLsn + 1 } lsn = (hooks, s')) := by
  unfold advanceDispatchPastPlaceholder at h
  split at h
  · cases h
  split at h
  · cases h
  rename_i hp
  refine ⟨Bool.eq_false_iff.2 hp, ?_⟩
  split at h
  · rename_i hlt
    cases h
    exact .inl ⟨hlt, rfl, rfl⟩
  split at h
  · cases h
  rename_i heq
  exact .inr ⟨not_not.1 heq, _, _, Except.ok.inj h⟩

/-- All cursors past the gap before `lsn`. -/
def afterGap (s : ApplyRuntimeState) (lsn ephemeral durable : Nat) : ApplyRuntimeState :=
  { s with
    durableLsn := durable
    appliedLsn := max s.appliedLsn (lsn - 1)
    publishedLsn := max s.publishedLsn (lsn - 1)
    nextEphemeralLsn := ephemeral
    nextDispatchLsn := lsn
    applyFrontier := JournalFrontier.skipThrough s.applyFrontier (lsn - 1)
    publishFrontier := JournalFrontier.skipThrough s.publishFrontier (lsn - 1) }

/-- A gap behind the turn does nothing; otherwise no record is pending in it and all cursors pass it. -/
theorem gap_ok (h : s.advanceDispatchGapBefore lsn = .ok s') : s.poisoned = false ∧ (lsn ≤ s.nextDispatchLsn ∧ s' = s ∨
        s.nextDispatchLsn < lsn ∧ (∀ n ∈ s.records, lsn ≤ n) ∧ ∃ ephemeral durable,
          s' = s.afterGap lsn ephemeral durable) := by
  unfold advanceDispatchGapBefore at h
  split at h
  · cases h
  split at h
  · cases h
  rename_i hp
  refine ⟨Bool.eq_false_iff.2 hp, ?_⟩
  split at h
  · rename_i hle
    cases h
    exact .inl ⟨hle, rfl⟩
  rename_i hgt
  split at h
  · cases h
  rename_i hmin
  have hnone : s.records.filter (· < lsn) = [] := min?_eq_none_iff.1 hmin
  refine .inr ⟨not_le.1 hgt, fun n hn => ?_, _, _, (Except.ok.inj h).symm⟩
  have hnot := filter_eq_nil_iff.1 hnone n hn
  simpa using hnot

/-- A gap keeps the cursors linked, as long as nothing ready lies behind it. -/
theorem Settled.skip (h : Settled s) (hlsn : s.publishedLsn < lsn) (hready : ∀ n ∈ s.applyFrontier.ready, n < lsn)
    (ephemeral durable : Nat) : Settled (s.afterGap lsn ephemeral durable) := by
  unfold afterGap
  have happly := h.applyNext
  have hpublish := h.publishNext
  refine ⟨?_, ?_, ?_, ?_, ?_⟩
  · simp only [h.applied]
  · simp only [skipThrough]
    omega
  · simp only [skipThrough]
    omega
  · simp only [skipThrough, h.publishReady, filter_nil]
  · intro n hn
    have hmem := mem_filter.1 hn
    have hlt := hready n hmem.1
    have hgt : lsn - 1 < n := by simpa using hmem.2
    omega

end ApplyRuntimeState

/-! ## Tablet dispatch -/

/-- A part of a record, in the mailbox of its tablet. L1254-1259 -/
structure TabletApplyWork where
  (lsn part : Nat)
deriving DecidableEq, Repr

/-- L1249-1252 -/
structure TabletMailbox where
  queue : List TabletApplyWork := []
  scheduledOrRunning : Bool := false
deriving DecidableEq, Repr

/-- L1242-1246 -/
structure TabletDispatchState where
  mailboxes : Nat → Option TabletMailbox := fun _ => none
  readyTablets : List Nat := []
  shutdown : Bool := false

inductive Dequeued
  | work (tabletId : Nat) (work : TabletApplyWork)
  | closed
  | wait
deriving DecidableEq, Repr

namespace TabletDispatchState
variable (d : TabletDispatchState) (tabletId : Nat)

/-- L727-744 -/
def enqueueTabletPart (work : TabletApplyWork) : TabletDispatchState :=
  let mailbox := (d.mailboxes tabletId).getD {}
  { d with
    mailboxes := update d.mailboxes tabletId (some { queue := mailbox.queue ++ [work], scheduledOrRunning := true })
    readyTablets := if mailbox.scheduledOrRunning then d.readyTablets else d.readyTablets ++ [tabletId] }

/-- The loop over the ready tablets. L945-960 -/
def dequeueLoop : List Nat → TabletDispatchState → Dequeued × TabletDispatchState
  | [], d => (if d.shutdown then .closed else .wait, { d with readyTablets := [] })
  | tabletId :: ready, d =>
    match d.mailboxes tabletId with
    | none => dequeueLoop ready d
    | some mailbox =>
      match mailbox.queue with
      | work :: queue =>
        (.work tabletId work, { d with
          mailboxes := update d.mailboxes tabletId (some { mailbox with queue })
          readyTablets := ready })
      | [] => dequeueLoop ready { d with mailboxes := update d.mailboxes tabletId none }

/-- L943-962 -/
def dequeueTabletWork : Dequeued × TabletDispatchState := dequeueLoop d.readyTablets d

/-- L964-977 -/
def finishTabletDispatch : TabletDispatchState :=
  match d.mailboxes tabletId with
  | none => d
  | some mailbox =>
    if mailbox.queue.isEmpty then
      { d with mailboxes := update d.mailboxes tabletId none }
    else { d with readyTablets := d.readyTablets ++ [tabletId] }

def queueOf : List TabletApplyWork := (d.mailboxes tabletId).elim [] (·.queue)

/-- Who may run a tablet: a mailbox is there exactly while its tablet is ready or held by a worker, and it
is not both; a ready tablet has work. -/
structure Ok (Held : Nat → Prop) : Prop where
  mailbox : ∀ t, (d.mailboxes t).isSome ↔ t ∈ d.readyTablets ∨ Held t
  nodup : d.readyTablets.Nodup
  apart : ∀ t ∈ d.readyTablets, ¬ Held t
  scheduled : ∀ t m, d.mailboxes t = some m → m.scheduledOrRunning = true
  work : ∀ t ∈ d.readyTablets, d.queueOf t ≠ []

variable {d} {Held : Nat → Prop} {t : Nat} {w : TabletApplyWork}

theorem ok_empty (h : ∀ t, ¬ Held t) : Ok {} Held := by
  refine ⟨fun t => ?_, nodup_nil, fun t ht => (by cases ht), fun t m hm => (by cases hm), fun t ht => (by cases ht)⟩
  simp [h t]

theorem queueOf_enqueue (d : TabletDispatchState) (t : Nat) (w : TabletApplyWork) (t' : Nat) :
    (d.enqueueTabletPart t w).queueOf t' = if t' = t then d.queueOf t ++ [w] else d.queueOf t' := by
  unfold queueOf enqueueTabletPart
  by_cases ht : t' = t
  · subst ht
    cases d.mailboxes t' <;> simp
  · simp [ht]

theorem Ok.enqueue (h : d.Ok Held) : (d.enqueueTabletPart t w).Ok Held := by
  have hscheduled : ∀ x m, (d.enqueueTabletPart t w).mailboxes x = some m → m.scheduledOrRunning = true := by
    intro x m hm
    by_cases hx : x = t
    · simp [enqueueTabletPart, hx] at hm
      rw [← hm]
    · simp [enqueueTabletPart, hx] at hm
      exact h.scheduled x m hm
  have hwork : ∀ x, x ∈ d.readyTablets ∨ x = t → (d.enqueueTabletPart t w).queueOf x ≠ [] := by
    intro x hx
    rw [queueOf_enqueue]
    split
    · simp
    · rename_i hne
      exact h.work x (hx.resolve_right hne)
  cases hm : d.mailboxes t with
  | some m =>
    have hsched := h.scheduled t m hm
    have hready : (d.enqueueTabletPart t w).readyTablets = d.readyTablets := by
      simp [enqueueTabletPart, hm, hsched]
    refine ⟨fun x => ?_, hready ▸ h.nodup, fun x hx => h.apart x (hready ▸ hx), hscheduled,
      fun x hx => hwork x (.inl (hready ▸ hx))⟩
    rw [hready, ← h.mailbox]
    by_cases hx : x = t <;> simp [enqueueTabletPart, hx, hm]
  | none =>
    have hnone : t ∉ d.readyTablets ∧ ¬ Held t := by
      have := (h.mailbox t).not
      rw [hm] at this
      simpa [not_or] using this
    have hready : (d.enqueueTabletPart t w).readyTablets = d.readyTablets ++ [t] := by
      simp [enqueueTabletPart, hm]
    refine ⟨fun x => ?_, ?_, ?_, hscheduled, fun x hx => hwork x (by simpa [hready] using hx)⟩
    · rw [hready, mem_append, mem_singleton]
      by_cases hx : x = t
      · simp [enqueueTabletPart, hx]
      · rw [show (d.enqueueTabletPart t w).mailboxes x = d.mailboxes x by simp [enqueueTabletPart, hx], h.mailbox]
        simp [hx]
    · rw [hready]
      simpa using List.Nodup.concat hnone.1 h.nodup
    · rw [hready]
      exact forall_mem_append.2 ⟨h.apart, forall_mem_singleton.2 hnone.2⟩

/-- A worker takes the first part of the first ready tablet, which nobody holds. -/
theorem Ok.dequeue (h : d.Ok Held) :
    (∃ t w d', d.dequeueTabletWork = (.work t w, d') ∧ ¬ Held t ∧ d'.Ok (fun x => Held x ∨ x = t) ∧
      d.queueOf t = w :: d'.queueOf t ∧ ∀ x, x ≠ t → d'.queueOf x = d.queueOf x) ∨
    (∀ t w, d.dequeueTabletWork.1 ≠ .work t w) ∧ d.dequeueTabletWork.2 = d := by
  unfold dequeueTabletWork
  cases hready : d.readyTablets with
  | nil =>
    refine .inr ⟨fun t w => ?_, ?_⟩
    · simp only [dequeueLoop]
      split <;> simp
    · simp only [dequeueLoop, ← hready]
  | cons t ready =>
    have hmem : t ∈ d.readyTablets := by rw [hready]; exact mem_cons_self
    have hnodup := h.nodup
    rw [hready, nodup_cons] at hnodup
    obtain ⟨m, hm⟩ := Option.isSome_iff_exists.1 ((h.mailbox t).2 (.inl hmem))
    have hwork := h.work t hmem
    cases hq : m.queue with
    | nil => simp [queueOf, hm, hq] at hwork
    | cons w queue =>
      let d' : TabletDispatchState := { d with
        mailboxes := update d.mailboxes t (some { m with queue })
        readyTablets := ready }
      have hother : ∀ x, x ≠ t → d'.mailboxes x = d.mailboxes x := fun x hx => update_of_ne hx _ _
      have hsame : d'.mailboxes t = some { m with queue } := update_self t _ _
      refine .inl ⟨t, w, d', by simp only [dequeueLoop, hm, hq, d'], h.apart t hmem, ⟨fun x => ?_, hnodup.2,
        fun x hx => ?_, fun x m' hm' => ?_, fun x hx => ?_⟩, ?_, fun x hx => ?_⟩
      · by_cases hx : x = t
        · simp [hx, hsame]
        · rw [hother x hx, h.mailbox x, hready]
          simp [hx, d']
      · rintro (hheld | rfl)
        · exact h.apart x (by rw [hready]; exact mem_cons_of_mem _ hx) hheld
        · exact hnodup.1 hx
      · by_cases hx : x = t
        · rw [hx, hsame] at hm'
          cases hm'
          exact h.scheduled t m hm
        · exact h.scheduled x m' (hother x hx ▸ hm')
      · have hne : x ≠ t := fun he => hnodup.1 (he ▸ hx)
        have hx' : x ∈ d.readyTablets := by rw [hready]; exact mem_cons_of_mem _ hx
        have := h.work x hx'
        rwa [queueOf, ← hother x hne] at this
      · rw [queueOf, queueOf, hm, hsame]
        exact hq
      · rw [queueOf, hother x hx, queueOf]

/-- The worker gives the tablet back, to the ready queue if it has more work. -/
theorem Ok.finish (h : d.Ok Held) (ht : Held t) : (d.finishTabletDispatch t).Ok (fun x => Held x ∧ x ≠ t) ∧
      ∀ x, (d.finishTabletDispatch t).queueOf x = d.queueOf x := by
  obtain ⟨m, hm⟩ := Option.isSome_iff_exists.1 ((h.mailbox t).2 (.inr ht))
  have hnot : t ∉ d.readyTablets := fun hmem => h.apart t hmem ht
  unfold finishTabletDispatch
  rw [hm]
  simp only
  cases hq : m.queue with
  | nil =>
    refine ⟨⟨fun x => ?_, h.nodup, fun x hx hheld => h.apart x hx hheld.1, fun x m' hm' => ?_,
      fun x hx => ?_⟩, fun x => ?_⟩
    · by_cases hx : x = t
      · simp [hx, hnot]
      · simp [hx, h.mailbox x]
    · by_cases hx : x = t
      · simp [hx] at hm'
      · simp [hx] at hm'
        exact h.scheduled x m' hm'
    · have hne : x ≠ t := fun he => hnot (he ▸ hx)
      have := h.work x hx
      simpa [queueOf, hne] using this
    · by_cases hx : x = t
      · simp [queueOf, hx, hm, hq]
      · simp [queueOf, hx]
  | cons w queue =>
    refine ⟨⟨fun x => ?_, ?_, fun x hx hheld => ?_, h.scheduled,
      forall_mem_append.2 ⟨h.work, forall_mem_singleton.2 ?_⟩⟩, fun x => rfl⟩
    · simp only [isEmpty_cons, Bool.false_eq_true, if_false, mem_append, mem_singleton, h.mailbox x]
      by_cases hx : x = t
      · simp [hx, ht]
      · simp [hx]
    · simpa using List.Nodup.concat hnot h.nodup
    · rcases mem_append.1 hx with hx | hx
      · exact h.apart x hx hheld.1
      · exact hheld.2 (mem_singleton.1 hx)
    · simp [queueOf, hm, hq]

end TabletDispatchState
end Paro.L2
