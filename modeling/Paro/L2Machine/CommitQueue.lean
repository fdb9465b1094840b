import Paro.L2Machine.CommitSequencer

/-!
# Commit queue

Model of `CommitQueue` and `CommitDrainOwner` (crates/transaction/src/commit/queue/mod.rs) with the
parts of the batching policy they and the drain read (queue/policy.rs). Submitted entries wait in
`entries`, entries the drain owner hands back wait in `deferredEntries`, and serializable entries
whose predecessor is not registered yet wait in `pendingFence`. Every operation runs under the one
lock of the queue, so each is a single function here; the clock is an argument in microseconds.

Beside the model stands what each operation does to the number of times a completion handle is
held (`tally`). The metrics and the flag `ready_queued`, which nothing modelled reads, are left out.
`La-b` are lines of `queue/mod.rs`.
-/
namespace Paro.L2
open L1 List

def saturatingAdd (a b : Nat) : Nat := min (a + b) (2 ^ 64 - 1)

/-! ## Policy -/

/-- The limits the queue and the drain read; the other fields of the policy are left out.
policy.rs:26-89 -/
structure CommitBatchPolicy where
  maxCommitBatchSize : Nat := 256
  maxCommitBatchBytes : Nat := 8 * 1024 * 1024
  drainOwnerCoalesceBudgetUs : Nat := 500
  targetBatchSize : Nat := 64
  targetBatchBytes : Nat := 2 * 1024 * 1024
  serializableBypassBatchBudget : Nat := 8
  serializableBypassWaitBudgetUs : Nat := 2000
  maxCommitQueueDepth : Nat := 8192
  maxCommitQueueBytes : Nat := 512 * 1024 * 1024
  maxUnpublishedCommitCount : Nat := 1024
  maxCommitFinalizeQueueDepthReject : Nat := 0
  maxDurableToPublishedBytesLag : Nat := 512 * 1024 * 1024
  maxPendingFenceBytes : Nat := 128 * 1024 * 1024
  maxCleanupQueueDepth : Nat := 0
  maxCleanupQueueBytes : Nat := 0
  minCleanupQueueReservedSlots : Nat := 0

/-- policy.rs:238-242 -/
inductive CommitQueueBackpressure
  | queueDepth (depth limit : Nat)
  | queueRetainedBytes (bytes limit : Nat)
deriving DecidableEq

/-- policy.rs:262-271 -/
inductive CommitDrainBackpressure
  | unpublishedCommitCount (count limit : Nat)
  | durableToPublishedBytes (bytes limit : Nat)
  | commitFinalizeQueueDepth (depth limit : Nat)
  | pendingFenceBytes (bytes limit : Nat)
  | cleanupQueueDepth (depth limit : Nat)
  | cleanupQueueBytes (bytes limit : Nat)
  | cleanupReservedSlots (available required : Nat)
deriving DecidableEq

/-- What `check_drain` looks at apart from the queue: the frontier, the finalize queue and the
cleanup queue. policy.rs:223-236 -/
structure CommitDrainBackpressureInput where
  durableCommitId : Nat := 0
  publishedCommitId : Nat := 0
  durableToPublishedBytesLag : Option Nat := none
  commitFinalizeQueueDepth : Nat := 0
  cleanupDepth : Nat := 0
  cleanupBytes : Nat := 0
  cleanupReservedSlotsAvailable : Nat := 0

namespace CommitBatchPolicy

variable (p : CommitBatchPolicy)

/-- policy.rs:92-96 -/
def effectiveTargetBatchSize : Nat :=
  max 1 (min p.targetBatchSize (max p.maxCommitBatchSize 1))

/-- policy.rs:98-102 -/
def effectiveTargetBatchBytes : Nat :=
  max 1 (min p.targetBatchBytes (max p.maxCommitBatchBytes 1))

/-- policy.rs:109-129 -/
def checkEnqueue (queueDepth queueRetainedBytes jobRetainedBytes : Nat) : Except CommitQueueBackpressure Unit :=
  let projected := saturatingAdd queueRetainedBytes jobRetainedBytes
  if p.maxCommitQueueDepth > 0 ∧ queueDepth ≥ p.maxCommitQueueDepth then
    .error (.queueDepth queueDepth p.maxCommitQueueDepth)
  else if p.maxCommitQueueBytes > 0 ∧ projected > p.maxCommitQueueBytes then
    .error (.queueRetainedBytes projected p.maxCommitQueueBytes)
  else .ok ()

/-- The reported byte lag when it reached the limit. policy.rs:149-158 -/
def bytesLagReached (lag : Option Nat) : Option Nat :=
  if p.maxDurableToPublishedBytesLag > 0 then
    lag.filter (p.maxDurableToPublishedBytesLag ≤ ·)
  else none

variable (input : CommitDrainBackpressureInput) (pendingFenceRetainedBytes : Nat)

/-- The checks after the one of the byte lag. policy.rs:160-198 -/
def checkQueues : Except CommitDrainBackpressure Unit :=
  if p.maxCommitFinalizeQueueDepthReject > 0 ∧
      input.commitFinalizeQueueDepth ≥ p.maxCommitFinalizeQueueDepthReject then
    .error (.commitFinalizeQueueDepth input.commitFinalizeQueueDepth p.maxCommitFinalizeQueueDepthReject)
  else if p.maxPendingFenceBytes > 0 ∧ pendingFenceRetainedBytes ≥ p.maxPendingFenceBytes then
    .error (.pendingFenceBytes pendingFenceRetainedBytes p.maxPendingFenceBytes)
  else if p.maxCleanupQueueDepth > 0 ∧ input.cleanupDepth ≥ p.maxCleanupQueueDepth then
    .error (.cleanupQueueDepth input.cleanupDepth p.maxCleanupQueueDepth)
  else if p.maxCleanupQueueBytes > 0 ∧ input.cleanupBytes ≥ p.maxCleanupQueueBytes then
    .error (.cleanupQueueBytes input.cleanupBytes p.maxCleanupQueueBytes)
  else if input.cleanupReservedSlotsAvailable < p.minCleanupQueueReservedSlots then
    .error (.cleanupReservedSlots input.cleanupReservedSlotsAvailable p.minCleanupQueueReservedSlots)
  else .ok ()

/-- policy.rs:131-199 -/
def checkDrain : Except CommitDrainBackpressure Unit :=
  let unpublished := input.durableCommitId - input.publishedCommitId
  if p.maxUnpublishedCommitCount > 0 ∧ unpublished ≥ p.maxUnpublishedCommitCount then
    .error (.unpublishedCommitCount unpublished p.maxUnpublishedCommitCount)
  else
    match p.bytesLagReached input.durableToPublishedBytesLag with
    | some bytes => .error (.durableToPublishedBytes bytes p.maxDurableToPublishedBytesLag)
    | none => p.checkQueues input pendingFenceRetainedBytes

end CommitBatchPolicy

/-! ## Entries -/

/-- What the queue and the drain read of a prepared job; the plans that run after the append are
left out. job/mod.rs:32-45 -/
structure PreparedCommitJob where
  sequencingPlan : CommitSequencingPlan
  estimatedRecordBytes : Nat := 0
  retainedBytes : Nat := 0
deriving DecidableEq

/-- `completion` is the slot id of the completion handle. L42-48 -/
structure CommitQueueEntry where
  (queueSeq completion enqueuedAt : Nat)
  job : PreparedCommitJob
deriving DecidableEq

variable (e : CommitQueueEntry)

/-- L61-64 -/
def CommitQueueEntry.isSerializable : Bool :=
  e.job.sequencingPlan.plan.isolation = .serializable

/-- L66-69 -/
def CommitQueueEntry.isSnapshotOnly : Bool := !e.isSerializable

/-- L72-81 -/
structure FenceBlockedBatch where
  requiredRegisteredTs : Nat
  entries : List CommitQueueEntry
  (originalHeadSeq enqueuedAt bypassEpochAtBlock bypassBatchBudget retainedBytes : Nat)
deriving DecidableEq

/-- L83-89; the default bypass count is the one of an empty queue -/
structure PendingFenceGuard where
  batchCount : Nat := 0
  retainedBytes : Nat := 0
  minRemainingBypassBatches : Nat := 2 ^ 32 - 1
  oldestEnqueuedAt : Option Nat := none
deriving DecidableEq

/-- L119-123 -/
inductive CommitQueueError
  | backpressure (error : CommitQueueBackpressure)
  | closed
deriving DecidableEq

/-! ## The queue -/

/-- The locked state and the two atomics beside it. L136-178 -/
structure CommitQueue where
  entries : List CommitQueueEntry := []
  deferredEntries : List CommitQueueEntry := []
  deferredEntriesBytes : Nat := 0
  pendingFence : List FenceBlockedBatch := []
  pendingFenceGuard : PendingFenceGuard := {}
  nextEnqueueSeq : Nat := 1
  queueRetainedBytes : Nat := 0
  snapshotBypassEpoch : Nat := 0
  closed : Bool := false
  publishedTailSeq : Nat := 0
  drainOwnerActive : Bool := false
deriving DecidableEq

namespace CommitQueue

variable (q : CommitQueue)

def allEntries : List CommitQueueEntry :=
  q.entries ++ q.deferredEntries ++ q.pendingFence.flatMap FenceBlockedBatch.entries

/-- L343-353 -/
def visibleDepth : Nat := q.allEntries.length

variable (policy : CommitBatchPolicy)

/-- L355-385 -/
def recomputePendingGuard : CommitQueue :=
  let remaining := q.pendingFence.map fun b =>
    b.bypassBatchBudget - (q.snapshotBypassEpoch - b.bypassEpochAtBlock) % 2 ^ 32
  { q with pendingFenceGuard :=
      { batchCount := q.pendingFence.length
        retainedBytes := (q.pendingFence.map FenceBlockedBatch.retainedBytes).sum
        minRemainingBypassBatches :=
          min (remaining.min?.getD (2 ^ 32 - 1)) policy.serializableBypassBatchBudget
        oldestEnqueuedAt := (q.pendingFence.map FenceBlockedBatch.enqueuedAt).min? } }

/-- L190-230 -/
def enqueue (job : PreparedCommitJob) (completion : Nat) (policy : CommitBatchPolicy)
    (now : Nat) : Except CommitQueueError CommitQueue :=
  if q.closed then .error .closed
  else
    match policy.checkEnqueue q.visibleDepth q.queueRetainedBytes job.retainedBytes with
    | .error e => .error (.backpressure e)
    | .ok () =>
      .ok { q with
        entries := q.entries ++ [⟨q.nextEnqueueSeq, completion, now, job⟩]
        nextEnqueueSeq := saturatingAdd q.nextEnqueueSeq 1
        queueRetainedBytes := saturatingAdd q.queueRetainedBytes job.retainedBytes
        publishedTailSeq := q.nextEnqueueSeq }

/-- The completions it returns and the closed queue. L267-302 -/
def closeAndDrainPending : List Nat × CommitQueue :=
  (q.allEntries.map CommitQueueEntry.completion,
   { q with
      entries := []
      deferredEntries := []
      pendingFence := []
      queueRetainedBytes := 0
      deferredEntriesBytes := 0
      pendingFenceGuard := {}
      closed := true })

/-- L326-335 -/
def hasPendingFence : Bool := !q.pendingFence.isEmpty

def hasReadyWork : Bool :=
  !q.deferredEntries.isEmpty || !q.entries.isEmpty || !q.pendingFence.isEmpty

/-! ## The drain owner's operations -/

variable (e : CommitQueueEntry) (es : List CommitQueueEntry)

def popDeferred : CommitQueue :=
  { q with
    deferredEntries := es
    deferredEntriesBytes := q.deferredEntriesBytes - e.job.retainedBytes
    queueRetainedBytes := q.queueRetainedBytes - e.job.retainedBytes }

def popEntry : CommitQueue :=
  { q with entries := es, queueRetainedBytes := q.queueRetainedBytes - e.job.retainedBytes }

/-- L400-411 -/
def takeDeferred : Nat → CommitQueue → List CommitQueueEntry × CommitQueue
  | 0, q => ([], q)
  | room + 1, q =>
    match q.deferredEntries with
    | [] => ([], q)
    | e :: es =>
      let (rest, q') := takeDeferred room (q.popDeferred e es)
      (e :: rest, q')

/-- L413-425 -/
def takeEntries (tailSeq : Nat) : Nat → CommitQueue → List CommitQueueEntry × CommitQueue
  | 0, q => ([], q)
  | room + 1, q =>
    match q.entries with
    | [] => ([], q)
    | e :: es =>
      if e.queueSeq > tailSeq then ([], q)
      else
        let (rest, q') := takeEntries tailSeq room (q.popEntry e es)
        (e :: rest, q')

/-- L394-428 -/
def takeLocalBuffer (maxEntries : Nat) : List CommitQueueEntry × CommitQueue :=
  let (deferred, q1) := takeDeferred maxEntries q
  let (fresh, q2) := takeEntries q.publishedTailSeq (maxEntries - deferred.length) q1
  (deferred ++ fresh, q2)

/-- L430-451 -/
def takeReadyPendingFence (registeredTs : Nat) (policy : CommitBatchPolicy) :
    Option (List CommitQueueEntry × CommitQueue) :=
  match q.pendingFence with
  | [] => none
  | b :: bs =>
    if b.requiredRegisteredTs ≤ registeredTs then
      some (b.entries, recomputePendingGuard
        { q with pendingFence := bs, queueRetainedBytes := q.queueRetainedBytes - b.retainedBytes } policy)
    else none

/-- L453-482 -/
def blockOnFence (requiredRegisteredTs : Nat) (es : List CommitQueueEntry)
    (policy : CommitBatchPolicy) : CommitQueue :=
  match es with
  | [] => q
  | e :: _ =>
    let retainedBytes := es.foldl (fun sum e => saturatingAdd sum e.job.retainedBytes) 0
    recomputePendingGuard { q with
      queueRetainedBytes := saturatingAdd q.queueRetainedBytes retainedBytes
      pendingFence := q.pendingFence ++ [
        { requiredRegisteredTs, entries := es, originalHeadSeq := e.queueSeq,
          enqueuedAt := e.enqueuedAt, bypassEpochAtBlock := q.snapshotBypassEpoch,
          bypassBatchBudget := policy.serializableBypassBatchBudget, retainedBytes }] } policy

/-- L484-508 -/
def canBypassSnapshot (now : Nat) : Bool :=
  if q.pendingFence.isEmpty then true
  else if q.pendingFenceGuard.minRemainingBypassBatches = 0 then false
  else
    match q.pendingFenceGuard.oldestEnqueuedAt with
    | some oldest => decide (now - oldest < policy.serializableBypassWaitBudgetUs)
    | none => true

/-- L510-533 -/
def snapshotBypassConflictsWithPendingHead : Bool :=
  if !e.isSnapshotOnly then false
  else
    match q.pendingFence with
    | [] => false
    | head :: _ =>
      head.entries.any fun pending =>
        pending.job.sequencingPlan.writeSet.any fun w =>
          e.job.sequencingPlan.writeSet.any fun w' => w.conflictsWith w'

/-- The recomputation overwrites the guard, so the decrement before it is left out.
L535-547 -/
def recordSnapshotBypass : CommitQueue :=
  if q.pendingFence.isEmpty then q
  else recomputePendingGuard { q with
    snapshotBypassEpoch := saturatingAdd q.snapshotBypassEpoch 1 } policy

/-- L549-565 -/
def deferEntries (q : CommitQueue) : List CommitQueueEntry → CommitQueue
  | [] => q
  | e :: es =>
    deferEntries { q with
      deferredEntriesBytes := saturatingAdd q.deferredEntriesBytes e.job.retainedBytes
      queueRetainedBytes := saturatingAdd q.queueRetainedBytes e.job.retainedBytes
      deferredEntries := q.deferredEntries ++ [e] } es

/-! ## How often a handle is held -/

def tally (h : Nat) (es : List CommitQueueEntry) : Nat := (es.map CommitQueueEntry.completion).count h

@[simp] theorem tally_nil (h : Nat) : tally h [] = 0 := rfl

@[simp] theorem tally_append (h : Nat) (es es' : List CommitQueueEntry) :
    tally h (es ++ es') = tally h es + tally h es' := by
  simp [tally]

@[simp] theorem tally_cons (h : Nat) (e : CommitQueueEntry) (es : List CommitQueueEntry) :
    tally h (e :: es) = (if e.completion = h then 1 else 0) + tally h es := by
  simp [tally, count_cons, add_comm]

variable {es : List CommitQueueEntry} {e : CommitQueueEntry}

theorem tally_perm {es' : List CommitQueueEntry} (h : Nat) (hp : es.Perm es') : tally h es = tally h es' :=
  (hp.map _).count_eq h

def holds (q : CommitQueue) (h : Nat) : Nat := tally h q.allEntries

theorem holds_eq (q : CommitQueue) (h : Nat) : q.holds h = tally h q.entries + tally h q.deferredEntries +
      tally h (q.pendingFence.flatMap FenceBlockedBatch.entries) := by
  rw [holds, allEntries, tally_append, tally_append]

/-- What an operation does to the queue: the entries `given` come in, the entries `taken` go out,
and the two flags stay. -/
structure Moves (q q' : CommitQueue) (given taken : List CommitQueueEntry) : Prop where
  holds : ∀ h, q'.holds h + tally h taken = q.holds h + tally h given
  closed : q'.closed = q.closed
  active : q'.drainOwnerActive = q.drainOwnerActive

variable {q q' q1 : CommitQueue} {given taken taken' : List CommitQueueEntry}

theorem Moves.trans (h : Moves q q1 [] taken) (h' : Moves q1 q' [] taken') : Moves q q' [] (taken ++ taken') := by
  refine ⟨fun x => ?_, h'.closed.trans h.closed, h'.active.trans h.active⟩
  have hx := h.holds x
  have hx' := h'.holds x
  rw [tally_append]
  simp only [tally_nil] at hx hx' ⊢
  omega

theorem Moves.refl (q : CommitQueue) : Moves q q [] [] := ⟨fun _ => rfl, rfl, rfl⟩

variable (q) (policy : CommitBatchPolicy)

theorem moves_recomputePendingGuard (h : Moves q1 q given taken) :
    Moves q1 (q.recomputePendingGuard policy) given taken :=
  { h with }

theorem moves_enqueue {job : PreparedCommitJob} {completion now : Nat}
    (hq : q.enqueue job completion policy now = .ok q') :
    q.closed = false ∧ Moves q q' [⟨q.nextEnqueueSeq, completion, now, job⟩] [] := by
  unfold enqueue at hq
  split at hq
  · cases hq
  rename_i hopen
  split at hq
  · cases hq
  · cases hq
    refine ⟨Bool.eq_false_iff.2 hopen, fun h => ?_, rfl, rfl⟩
    simp only [holds_eq, tally_append, tally_nil]
    omega

theorem moves_popDeferred (hes : q.deferredEntries = e :: es) : Moves q (q.popDeferred e es) [] [e] := by
  refine ⟨fun h => ?_, rfl, rfl⟩
  simp only [holds_eq, popDeferred, hes, tally_cons, tally_nil]
  omega

theorem moves_popEntry (hes : q.entries = e :: es) : Moves q (q.popEntry e es) [] [e] := by
  refine ⟨fun h => ?_, rfl, rfl⟩
  simp only [holds_eq, popEntry, hes, tally_cons, tally_nil]
  omega

theorem moves_takeDeferred (room : Nat) : Moves q (takeDeferred room q).2 [] (takeDeferred room q).1 := by
  induction room generalizing q with
  | zero => exact .refl q
  | succ room ih =>
    unfold takeDeferred
    split
    · exact .refl q
    · rename_i e es hes
      exact (moves_popDeferred q hes).trans (ih (q.popDeferred e es))

theorem moves_takeEntries (tailSeq room : Nat) :
    Moves q (takeEntries tailSeq room q).2 [] (takeEntries tailSeq room q).1 := by
  induction room generalizing q with
  | zero => exact .refl q
  | succ room ih =>
    unfold takeEntries
    split
    · exact .refl q
    · rename_i e es hes
      split
      · exact .refl q
      · exact (moves_popEntry q hes).trans (ih (q.popEntry e es))

theorem moves_takeLocalBuffer (maxEntries : Nat) :
    Moves q (q.takeLocalBuffer maxEntries).2 [] (q.takeLocalBuffer maxEntries).1 :=
  (moves_takeDeferred q maxEntries).trans (moves_takeEntries _ _ _)

theorem moves_takeReadyPendingFence {registeredTs : Nat}
    (hq : q.takeReadyPendingFence registeredTs policy = some (es, q')) : Moves q q' [] es := by
  unfold takeReadyPendingFence at hq
  split at hq
  · cases hq
  rename_i b bs hbs
  split at hq
  · cases hq
    refine moves_recomputePendingGuard _ policy ⟨fun h => ?_, rfl, rfl⟩
    simp only [holds_eq, hbs, flatMap_cons, tally_append, tally_nil]
    omega
  · cases hq

theorem moves_blockOnFence (requiredRegisteredTs : Nat) (es : List CommitQueueEntry) :
    Moves q (q.blockOnFence requiredRegisteredTs es policy) es [] := by
  unfold blockOnFence
  split
  · exact .refl q
  · refine moves_recomputePendingGuard _ policy ⟨fun h => ?_, rfl, rfl⟩
    simp only [holds_eq, flatMap_append, flatMap_cons, flatMap_nil, append_nil, tally_append, tally_nil]
    omega

theorem moves_recordSnapshotBypass : Moves q (q.recordSnapshotBypass policy) [] [] := by
  unfold recordSnapshotBypass
  split
  · exact .refl q
  · exact moves_recomputePendingGuard _ policy ⟨fun _ => rfl, rfl, rfl⟩

theorem moves_deferEntries (es : List CommitQueueEntry) : Moves q (q.deferEntries es) es [] := by
  induction es generalizing q with
  | nil => exact .refl q
  | cons e es ih =>
    obtain ⟨hholds, hclosed, hactive⟩ := ih { q with
      deferredEntriesBytes := saturatingAdd q.deferredEntriesBytes e.job.retainedBytes
      queueRetainedBytes := saturatingAdd q.queueRetainedBytes e.job.retainedBytes
      deferredEntries := q.deferredEntries ++ [e] }
    refine ⟨fun h => ?_, hclosed, hactive⟩
    have hrest := hholds h
    rw [deferEntries]
    simp only [holds_eq, tally_append, tally_cons, tally_nil] at hrest ⊢
    omega

end CommitQueue
end Paro.L2
