import Paro.L2Machine.ActiveTxnRegistry
import Paro.L2Machine.CommittedTxnSummary

/-!
# Transaction manager

Model of the parts of `TransactionManager` (crates/storage/src/transaction/manager.rs) that move
the conflict history: a transaction begins read-only with a start time one above the published
commit, a commit is registered in both conflict indexes, and the horizon is advanced to the
published commit or the oldest read-write transaction. The snapshot of a transaction ends one
below its start time. Recovery admission is open, and cleanup and metrics are left out.
-/
namespace Paro.L2
open L1 WriteConflictIndex

/-- transaction/src/types/mod.rs:12 -/
def transactionIdStart : Nat := 2 ^ 62

/-- manager.rs:157-214; the frontier is the two commit ids of `CommitFrontier` -/
structure TransactionManager (n m : Nat) where
  currentTransactionId : Nat
  activeRegistry : ActiveTxnRegistry
  writeConflictIndex : WriteConflictIndex.Index n
  committedTxnSummaries : CommittedTxnSummaryIndex m
  (durableCommitId publishedCommitId : Nat)

inductive RegisterError
  | writeConflictIndex (e : WriteConflictIndex.WriteConflictIndexError)
  | committedTxnSummaries (e : CommittedTxnSummaryError)
deriving DecidableEq, Repr

namespace TransactionManager
variable {n m : Nat}

def new (capacity : Nat) : TransactionManager n m := ⟨transactionIdStart, .new capacity, .empty, .empty, 0, 0⟩

variable (x : TransactionManager n m)

/-- The manager after the call and the start time. manager.rs:312-340 -/
def beginTransaction : TransactionManager n m × Except RegistryError Nat :=
  let id := x.currentTransactionId
  let x' := { x with currentTransactionId := id + 1 }
  let readTs := min (x.publishedCommitId + 1) maxTransactionId
  match x.activeRegistry.register id readTs readTs false with
  | .error e => (x', .error e)
  | .ok r => ({ x' with activeRegistry := r }, .ok readTs)

/-- manager.rs:479-547 -/
def registerCommittedTransactionSummary (hash : ShardKey → Fin n)
    (txnHash : Nat → Fin m) (x : TransactionManager n m) (commitTs txnId readTs : Nat)
    (writeSet : List LockResource) (readSet : FrozenReadSet) :
    TransactionManager n m × Except RegisterError Unit :=
  let summary := CommittedTxnSummary.new txnId readTs commitTs writeSet readSet
  let (index, registered) :=
    if writeSet = [] then (x.writeConflictIndex, .ok 0)
    else registerCommit hash x.writeConflictIndex commitTs writeSet
  let x1 := { x with writeConflictIndex := index }
  match registered with
  | .error e => (x1, .error (.writeConflictIndex e))
  | .ok _ =>
    match x1.committedTxnSummaries.registerCommit txnHash summary with
    | (sums, .error e) => ({ x1 with committedTxnSummaries := sums }, .error (.committedTxnSummaries e))
    | (sums, .ok ()) =>
      ({ x1 with committedTxnSummaries := sums
                 durableCommitId := max x1.durableCommitId commitTs }, .ok ())

/-- commit/frontier.rs:237-244 -/
def publish (commitTs : Nat) : TransactionManager n m :=
  { x with durableCommitId := max x.durableCommitId commitTs
           publishedCommitId := max x.publishedCommitId commitTs }

/-- write_conflict_index.rs:218-232 -/
def horizonCandidate (w : ActiveTxnWatermarks) (publishedTs : Nat) : Nat :=
  if w.oldestActiveRwReadTs = maxTransactionId then publishedTs
  else min publishedTs w.oldestActiveRwReadTs

/-- manager.rs:601-607 -/
def advanceConflictHorizon (publishedTs : Nat) : TransactionManager n m :=
  let r := x.activeRegistry.confirmedScanAndPublish
  let index := advanceHorizon x.writeConflictIndex
    (horizonCandidate r.watermarks publishedTs)
  { x with
    activeRegistry := r
    writeConflictIndex := index
    committedTxnSummaries := x.committedTxnSummaries.advanceHorizon index.conflictHorizon }

/-- storage/src/transaction/txn.rs:1312-1314 -/
def visibleCommitTs (slot : ActiveTxnSlot) : Nat := slot.startTs - 1

end TransactionManager
end Paro.L2
