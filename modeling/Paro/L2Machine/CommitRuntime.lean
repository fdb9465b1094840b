import Paro.L2Machine.CommitQueue

/-!
# Commit runtime

Model of the drain of the commit runtime (crates/transaction/src/commit/runtime/mod.rs). The drain
owner is a program: its program counter `Pc` says where it stands between two operations on the
queue and carries the entries it holds privately, so that another thread may act between any two of
them. Each step takes the lock of the queue at most once. What it reads from elsewhere (the finalize
stage, the frontier, the clock, the journal) comes with the step as `DrainEnv`.

`poison` closes the queue and rejects what it drained; it is one step of any thread.

Left out: the release of locks and reservations, the frontier, the wake-up signals, and the arms for
a job whose post-append part is gone. That part is taken only by an append that succeeds as a whole,
since the handle of every offset of a durable batch exists and carries the timestamp of its job.
`La-b` are lines of this file.
-/
namespace Paro.L2
open L1 CommitSequencer

/-- runtime/error.rs:93-98, without the message -/
inductive CommitRuntimeRejection
  | drainBackpressure (error : CommitDrainBackpressure)
  | fence (reason : CommitFenceRejectReason)
  | runtimePoisoned
deriving DecidableEq

/-- The failures the drain reports. runtime/error.rs:110-117, without the messages -/
inductive CommitRuntimeFailure
  | append | appendCleanup | ambiguous
deriving DecidableEq

inductive CommitOutcome
  | rejected (reason : CommitRuntimeRejection)
  | failed (failure : CommitRuntimeFailure)
  | ambiguous (failure : CommitRuntimeFailure)
  | durable (commitTs : Nat)
deriving DecidableEq

inductive Party
  | drain | close
deriving DecidableEq

structure Completion where
  handle : Nat
  party : Party
  outcome : CommitOutcome
deriving DecidableEq

abbrev SequencedCommitJob := Nat × CommitQueueEntry

/-- What is left to do with a sequenced batch. `remark` completes a handle again that the same
batch already completed. -/
inductive Action
  | deferEntries (es : List CommitQueueEntry)
  | mark (e : CommitQueueEntry) (outcome : CommitOutcome)
  | remark (e : CommitQueueEntry) (outcome : CommitOutcome)
  | poison
deriving DecidableEq

inductive Pc
  /-- at the head of `drain_owned` -/
  | top
  | takePending
  | takeLocal
  /-- at the head of `process_entries` -/
  | loop (rest : List CommitQueueEntry)
  /-- about to put `e` in the batch -/
  | consider (batch : List CommitQueueEntry) (e : CommitQueueEntry) (rest : List CommitQueueEntry)
  | conflict (batch : List CommitQueueEntry) (e : CommitQueueEntry) (rest : List CommitQueueEntry)
  | budget (batch : List CommitQueueEntry) (e : CommitQueueEntry) (rest : List CommitQueueEntry)
  | record (batch : List CommitQueueEntry) (e : CommitQueueEntry) (rest : List CommitQueueEntry)
  /-- the front was blocked on the fence -/
  | blocked (rest : List CommitQueueEntry)
  | deferring (rest : List CommitQueueEntry)
  | batch (batch rest : List CommitQueueEntry)
  | sequence (batch rest : List CommitQueueEntry)
  | acting (todo : List Action) (rest : List CommitQueueEntry)
  /-- back in `drain_owned` after `process_entries` -/
  | turn
deriving DecidableEq

structure CommitDrainOwner where
  maxBatches : Option Nat := none
  scheduledBatches : Nat := 0
  /-- the entries came from a pending fence, not from the local buffer -/
  fromFence : Bool := false
  pc : Pc := .top
deriving DecidableEq

structure DrainEnv where
  admissionOpen : Bool := true
  registeredCommitTs : Nat := 0
  input : CommitDrainBackpressureInput := {}
  now : Nat := 0
  elapsed : Nat → Nat := fun _ => 0
  finalFence : Nat → CommitSequencingPlan → InFlightCommitBatch → Option CommitFenceRejectReason :=
    fun _ _ _ => none
  append : AppendOutcome := .ok
  /-- the finalize stage takes the durable jobs -/
  scheduled : Bool := true
  /-- the rollback after a failed append succeeds -/
  rollback : CommitQueueEntry → Bool := fun _ => true
  turnElapsedUs : Nat := 0

structure CommitRuntime where
  queue : CommitQueue := {}
  nextCommitTs : Nat := 1
  poisoned : Bool := false
  nextSlotId : Nat := 0
  owner : Option CommitDrainOwner := none
  /-- every call that completed a handle, oldest first -/
  completions : List Completion := []
  /-- ghost: every handle that was enqueued -/
  submitted : List Nat := []

namespace CommitRuntime

/-! ## Completing a sequenced batch -/

/-- What both ends of an append start with. L737-751 and 796-811 -/
def settle (deferred : List (OrderedCommitPlan CommitQueueEntry))
    (rejected : List (RejectedOrderedCommit CommitQueueEntry)) : List Action :=
  .deferEntries (deferred.map OrderedCommitPlan.payload) ::
    rejected.map fun r => .mark r.payload (.rejected (.fence r.reason))

/-- L732-782 -/
def handleAppendSuccess (scheduled : Bool)
    (b : CommitSequencerOrderedBatch (List SequencedCommitJob) CommitQueueEntry) : List Action :=
  settle b.deferred b.rejected ++
    match b.appendOutput with
    | none => []
    | some jobs =>
      jobs.map (fun job => .mark job.2 (.durable job.1)) ++
        if scheduled then []
        else jobs.map (fun job => .remark job.2 (.ambiguous .ambiguous)) ++ [.poison]

variable (rollback : CommitQueueEntry → Bool)

/-- L842-861 -/
def cleanupAppendFailure (job : SequencedCommitJob) : List Action :=
  if rollback job.2 then [.mark job.2 (.failed .append)]
  else [.mark job.2 (.failed .appendCleanup), .poison]

/-- L784-840 -/
def handleSequenceOrAppendError
    (e : CommitSequencerOrderedError Unit SequencedCommitJob CommitQueueEntry) : List Action :=
  settle e.deferred e.rejected ++
    if e.durableCommitted then
      .poison :: e.accepted.map fun job => .mark job.2 (.ambiguous .append)
    else e.accepted.flatMap (cleanupAppendFailure rollback)

/-- The clock after the batch was sequenced and what is left to do with it.
L679-730 -/
def sequenceAppendSchedule (o : CommitSequencerOptions) (nextCommitTs : Nat) (env : DrainEnv)
    (entries : List CommitQueueEntry) : Nat × List Action :=
  let r := sequenceOrderedBatch o nextCommitTs nextCommitTs
    (entries.map fun e => ⟨e.job.sequencingPlan, e⟩) env.elapsed env.finalFence
    (fun commitTs ordered => (commitTs, ordered.payload)) env.append.append
  match r.2 with
  | .ok b => (r.1, handleAppendSuccess env.scheduled b)
  | .error e => (r.1, handleSequenceOrAppendError env.rollback e)

/-! ## Steps -/

variable (s : CommitRuntime)

/-- L881-903 -/
def poison : CommitRuntime :=
  let (pending, queue) := s.queue.closeAndDrainPending
  { s with
    queue
    poisoned := true
    completions := s.completions ++ pending.map fun h => ⟨h, .close, .rejected .runtimePoisoned⟩ }

def complete (e : CommitQueueEntry) (outcome : CommitOutcome) : CommitRuntime :=
  { s with completions := s.completions ++ [⟨e.completion, .drain, outcome⟩] }

def perform : Action → CommitRuntime
  | .deferEntries es => { s with queue := s.queue.deferEntries es }
  | .mark e outcome | .remark e outcome => s.complete e outcome
  | .poison => s.poison

variable (policy : CommitBatchPolicy)

/-- A fresh handle is allocated whether or not the queue takes the job.
L258-279 -/
def submitCommit (job : PreparedCommitJob) (now : Nat) (s : CommitRuntime) :
    CommitRuntime :=
  let completion := s.nextSlotId + 1
  match s.queue.enqueue job completion policy now with
  | .error _ => { s with nextSlotId := completion }
  | .ok queue => { s with queue, nextSlotId := completion, submitted := s.submitted ++ [completion] }

/-- queue/mod.rs:232-244 -/
def tryAcquireDrainOwner (maxBatches : Option Nat) (s : CommitRuntime) : Option CommitRuntime :=
  if s.queue.drainOwnerActive then none
  else some { s with
    queue := { s.queue with drainOwnerActive := true }
    owner := some { maxBatches } }

/-- queue/mod.rs:567-572 -/
def release : CommitRuntime :=
  { s with queue := { s.queue with drainOwnerActive := false }, owner := none }

variable (o : CommitDrainOwner)

def goto (pc : Pc) : CommitRuntime :=
  { s with owner := some { o with pc } }

/-- L675-677 -/
def predecessorCommitTs : Nat := s.nextCommitTs - 1

/-- L666-673 -/
def shouldBlockOnRegistration (registeredCommitTs : Nat) (e : CommitQueueEntry) : Bool :=
  e.isSerializable && decide (0 < s.predecessorCommitTs) &&
    decide (registeredCommitTs < s.predecessorCommitTs)

/-- L551-558 -/
def turnBatchBudgetExhausted : Bool :=
  o.maxBatches.any (· ≤ o.scheduledBatches) && s.queue.hasReadyWork

variable (batch : List CommitQueueEntry)

def batchBytes : Nat :=
  batch.foldl (fun sum e => saturatingAdd sum e.job.estimatedRecordBytes) 0

/-- `e` may not pass the pending fence: an empty batch gives the buffer back, another one is
sequenced without `e`. -/
def refused (e : CommitQueueEntry) (rest : List CommitQueueEntry) : Pc :=
  if batch = [] then .deferring (e :: rest) else .sequence batch (e :: rest)

/-- Whether `process_entries` may add another entry to the batch. -/
def hasRoom : Prop :=
  batch.length < policy.effectiveTargetBatchSize ∧ batchBytes batch < policy.effectiveTargetBatchBytes

instance (policy : CommitBatchPolicy) (batch : List CommitQueueEntry) : Decidable (hasRoom policy batch) :=
  inferInstanceAs (Decidable (_ ∧ _))

/-- One step of the drain owner. L503-549 and 571-664 -/
def drain (options : CommitSequencerOptions) (env : DrainEnv)
    (s : CommitRuntime) (o : CommitDrainOwner) : CommitRuntime :=
  match o.pc with
  | .top =>
    if env.admissionOpen ∧ s.poisoned = false then s.goto o .takePending else s.release
  | .takePending =>
    match s.queue.takeReadyPendingFence env.registeredCommitTs policy with
    | some (es, queue) => { s with queue }.goto { o with fromFence := true } (.loop es)
    | none => s.goto o .takeLocal
  | .takeLocal =>
    let (es, queue) := s.queue.takeLocalBuffer policy.effectiveTargetBatchSize
    if es = [] then { s with queue }.release
    else { s with queue }.goto { o with fromFence := false } (.loop es)
  | .loop [] => s.goto o .turn
  | .loop (e :: rest) =>
    match policy.checkDrain env.input s.queue.pendingFenceGuard.retainedBytes with
    | .error error => (s.complete e (.rejected (.drainBackpressure error))).goto o (.loop rest)
    | .ok () => s.goto o (.consider [] e rest)
  | .consider batch e rest =>
    if s.shouldBlockOnRegistration env.registeredCommitTs e then
      { s with queue := s.queue.blockOnFence s.predecessorCommitTs [e] policy }.goto o
        (if batch = [] then .blocked rest else .sequence batch rest)
    else if e.isSnapshotOnly && s.queue.hasPendingFence then s.goto o (.conflict batch e rest)
    else s.goto o (.batch (batch ++ [e]) rest)
  | .conflict batch e rest =>
    if s.queue.snapshotBypassConflictsWithPendingHead e then s.goto o (refused batch e rest)
    else s.goto o (.budget batch e rest)
  | .budget batch e rest =>
    if s.queue.canBypassSnapshot policy env.now then s.goto o (.record batch e rest)
    else s.goto o (refused batch e rest)
  | .record batch e rest =>
    { s with queue := s.queue.recordSnapshotBypass policy }.goto o (.batch (batch ++ [e]) rest)
  | .blocked rest =>
    if s.queue.canBypassSnapshot policy env.now then s.goto o (.loop rest)
    else s.goto o (.deferring rest)
  | .deferring rest => { s with queue := s.queue.deferEntries rest }.goto o .turn
  | .batch batch [] => s.goto o (.sequence batch [])
  | .batch batch (e :: rest) =>
    if hasRoom policy batch then s.goto o (.consider batch e rest)
    else s.goto o (.sequence batch (e :: rest))
  | .sequence batch rest =>
    let (nextCommitTs, todo) := sequenceAppendSchedule options s.nextCommitTs env batch
    { s with nextCommitTs }.goto o (.acting todo rest)
  | .acting [] rest => s.goto { o with scheduledBatches := o.scheduledBatches + 1 } (.loop rest)
  | .acting (action :: todo) rest => (s.perform action).goto o (.acting todo rest)
  | .turn =>
    if s.turnBatchBudgetExhausted o then s.release
    else if o.fromFence = false ∧ env.turnElapsedUs ≥ policy.drainOwnerCoalesceBudgetUs ∧
        s.queue.hasReadyWork = true then s.release
    else s.goto o .top

/-- The entries a step of the drain owner hands back to the queue through `block_on_fence` or
`defer_entries`. -/
def handedBack (env : DrainEnv) (s : CommitRuntime) (o : CommitDrainOwner) : List CommitQueueEntry :=
  match o.pc with
  | .consider _ e _ => if s.shouldBlockOnRegistration env.registeredCommitTs e then [e] else []
  | .deferring rest => rest
  | .acting (.deferEntries es :: _) _ => es
  | _ => []

end CommitRuntime
end Paro.L2
