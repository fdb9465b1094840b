import Paro.L2Machine.WriteConflictIndex
import Paro.L2Machine.ReadDependencyIndex

/-!
# Committed transaction summaries

Model of `CommittedTxnSummaryIndex` (crates/transaction/src/committed_txn_summary.rs): the write
set and the compressed read set of each committed transaction, in shards by transaction, kept
until the conflict horizon passes the commit. The validator asks it for the earliest commit
after a read timestamp that wrote what a transaction read, or read what it writes.

As in the write conflict index, the hash that picks a shard is a parameter. The nested loops of
the two scans visit candidate conflicts in order; here the candidates are a list and the loop
body is folded over it. `La-b` are lines of this file.
-/
namespace Paro.L2
open L1 List
open WriteConflictIndex (CommitTs)

/-- L31-36 -/
structure CompressedReadSetSummary where
  dependencyCount : Nat
  coarsened : Bool
  dependencies : List ReadDependency
deriving DecidableEq, Repr

/-- read_dependency_index.rs:736-751 -/
def compactReadDependencies (ds : List ReadDependency) : List ReadDependency × Bool :=
  ((keepFirst [] (ds.map ReadDependency.normalize)).insertionSort fun a b => a.orderKey ≤ b.orderKey,
   ds.any fun d => match d with
     | .row _ _ => true
     | _ => false)

/-- L39-47 -/
def CompressedReadSetSummary.fromFrozen (rs : FrozenReadSet) : CompressedReadSetSummary :=
  let c := compactReadDependencies rs.dependencies
  ⟨max rs.dependencyCount c.1.length, rs.coarsened || c.2, c.1⟩

/-- L65-72 -/
structure CommittedTxnSummary where
  (txnId readTs : Nat)
  commitTs : CommitTs
  writeSet : List LockResource
  readSet : CompressedReadSetSummary
deriving DecidableEq, Repr

/-- L74-93 -/
def CommittedTxnSummary.new (t readTs : Nat) (commitTs : CommitTs) (writes : List LockResource)
    (rs : FrozenReadSet) : CommittedTxnSummary :=
  ⟨t, readTs, commitTs, sortDedup (fun a b => a.sortKey ≤ b.sortKey) writes, .fromFrozen rs⟩

/-- L117-124 -/
structure CommittedTxnConflict where
  (txnId readTs : Nat)
  commitTs : CommitTs
  dependency : ReadDependency
  write : LockResource
deriving DecidableEq, Repr

/-- L133-139 -/
inductive CommittedTxnSummaryError
  | nonMonotonicCommit (previous attempted : CommitTs)
deriving DecidableEq, Repr

/-- L148-152 -/
structure CommittedTxnSummaryShard where
  summaries : List CommittedTxnSummary
  lastCommitTs : CommitTs
deriving DecidableEq, Repr

namespace CommittedTxnSummaryShard

variable (s : CommittedTxnSummaryShard)

/-- L341-351 -/
def push (x : CommittedTxnSummary) :
    Except CommittedTxnSummaryError CommittedTxnSummaryShard :=
  if x.commitTs < s.lastCommitTs then .error (.nonMonotonicCommit s.lastCommitTs x.commitTs)
  else .ok ⟨s.summaries ++ [x], x.commitTs⟩

/-- L353-361 -/
def gc (horizon : CommitTs) : CommittedTxnSummaryShard :=
  { s with summaries := s.summaries.dropWhile fun x => decide (x.commitTs ≤ horizon) }

end CommittedTxnSummaryShard

/-- L141-146 -/
structure CommittedTxnSummaryIndex (n : Nat) where
  shards : Fin n → CommittedTxnSummaryShard
  (durableTs conflictHorizon : CommitTs)

namespace CommittedTxnSummaryIndex
variable {n : Nat}

def empty : CommittedTxnSummaryIndex n := ⟨fun _ => ⟨[], 0⟩, 0, 0⟩

/-- L179-196 -/
def registerCommit (hash : Nat → Fin n) (ix : CommittedTxnSummaryIndex n) (x : CommittedTxnSummary) :
    CommittedTxnSummaryIndex n × Except CommittedTxnSummaryError Unit :=
  if x.commitTs < ix.durableTs then (ix, .error (.nonMonotonicCommit ix.durableTs x.commitTs))
  else
    match (ix.shards (hash x.txnId)).push x with
    | .error e => (ix, .error e)
    | .ok s =>
      ({ ix with shards := Function.update ix.shards (hash x.txnId) s
                 durableTs := max ix.durableTs x.commitTs }, .ok ())

variable (ix : CommittedTxnSummaryIndex n)

/-- L197-204 -/
def advanceHorizon (target : CommitTs) : CommittedTxnSummaryIndex n :=
  let horizon := max ix.conflictHorizon target
  { ix with conflictHorizon := horizon, shards := fun i => (ix.shards i).gc horizon }

variable (slot : Option CommittedTxnConflict)

/-- L381-395 -/
def selectEarlierConflict (candidate : CommittedTxnConflict) : Option CommittedTxnConflict :=
  match slot with
  | none => some candidate
  | some current =>
    if candidate.commitTs < current.commitTs ∨
        (candidate.commitTs = current.commitTs ∧ candidate.txnId < current.txnId) then some candidate
    else some current

def conflictsOf (x : CommittedTxnSummary) (reads : List ReadDependency) (writes : List LockResource) :
    List CommittedTxnConflict :=
  reads.flatMap fun d => (writes.filter fun w => d.conflictsWithWrite w).map fun w =>
    ⟨x.txnId, x.readTs, x.commitTs, d, w⟩

variable (readTs : Nat)

def laterSummaries : List CommittedTxnSummary :=
  (List.finRange n).flatMap fun i =>
    (ix.shards i).summaries.filter fun x => decide (x.commitTs > readTs)

/-- L222-257 -/
def firstWriteConflictForReads (reads : List ReadDependency) : Option CommittedTxnConflict :=
  if reads = [] then none
  else ((ix.laterSummaries readTs).flatMap fun x => conflictsOf x reads x.writeSet).foldl
    selectEarlierConflict none

/-- L259-294 -/
def firstReadConflictForWrites (writes : List LockResource) : Option CommittedTxnConflict :=
  if writes = [] then none
  else ((ix.laterSummaries readTs).flatMap fun x => conflictsOf x x.readSet.dependencies writes).foldl
    selectEarlierConflict none

/-! ## What the scans find -/

variable {ix} {x : CommittedTxnSummary} {readTs} {i : Fin n}

theorem mem_laterSummaries :
    x ∈ ix.laterSummaries readTs ↔ (∃ i, x ∈ (ix.shards i).summaries) ∧ readTs < x.commitTs := by
  simp only [laterSummaries, mem_flatMap, mem_finRange, true_and, mem_filter, decide_eq_true_eq, gt_iff_lt]
  exact exists_and_right

theorem isSome_selectEarlier (c : CommittedTxnConflict) : (selectEarlierConflict slot c).isSome := by
  unfold selectEarlierConflict
  split
  · rfl
  · split <;> rfl

theorem isSome_foldl_selectEarlier {cs : List CommittedTxnConflict} {c : CommittedTxnConflict}
    {slot : Option CommittedTxnConflict} (h : slot.isSome ∨ c ∈ cs) :
    (cs.foldl selectEarlierConflict slot).isSome := by
  induction cs generalizing slot with
  | nil => simpa using h
  | cons a cs ih =>
    refine ih ?_
    exact .inl (isSome_selectEarlier slot a)

variable {d : ReadDependency} {w : LockResource} {reads : List ReadDependency} {writes : List LockResource}

theorem mem_conflictsOf (hd : d ∈ reads) (hw : w ∈ writes) (hc : d.conflictsWithWrite w = true) :
    ⟨x.txnId, x.readTs, x.commitTs, d, w⟩ ∈ conflictsOf x reads writes :=
  mem_flatMap.2 ⟨d, hd, mem_map.2 ⟨w, mem_filter.2 ⟨hw, hc⟩, rfl⟩⟩

/-- A later commit that wrote what is read is found. -/
theorem firstWriteConflict_isSome (hx : x ∈ (ix.shards i).summaries) (hts : readTs < x.commitTs) (hd : d ∈ reads)
    (hw : w ∈ x.writeSet) (hc : d.conflictsWithWrite w = true) :
    (ix.firstWriteConflictForReads readTs reads).isSome := by
  unfold firstWriteConflictForReads
  rw [if_neg (ne_nil_of_mem hd)]
  exact isSome_foldl_selectEarlier (.inr (mem_flatMap.2
    ⟨x, mem_laterSummaries.2 ⟨⟨i, hx⟩, hts⟩, mem_conflictsOf hd hw hc⟩))

/-- A later commit that read what is written is found. -/
theorem firstReadConflict_isSome (hx : x ∈ (ix.shards i).summaries) (hts : readTs < x.commitTs)
    (hd : d ∈ x.readSet.dependencies) (hw : w ∈ writes) (hc : d.conflictsWithWrite w = true) :
    (ix.firstReadConflictForWrites readTs writes).isSome := by
  unfold firstReadConflictForWrites
  rw [if_neg (ne_nil_of_mem hw)]
  exact isSome_foldl_selectEarlier (.inr (mem_flatMap.2
    ⟨x, mem_laterSummaries.2 ⟨⟨i, hx⟩, hts⟩, mem_conflictsOf hd hw hc⟩))

/-! ## Registering -/

structure UpTo (ix : CommittedTxnSummaryIndex n) (ts : CommitTs) : Prop where
  durable : ix.durableTs ≤ ts
  last : ∀ i, (ix.shards i).lastCommitTs ≤ ts

/-- A commit at or above everything registered is filed, and nothing else changes. -/
theorem registerCommit_upTo (hash : Nat → Fin n) (h : UpTo ix x.commitTs) :
    ∃ ix', ix.registerCommit hash x = (ix', .ok ()) ∧ UpTo ix' x.commitTs ∧
      ix'.conflictHorizon = ix.conflictHorizon ∧ ∀ i, (ix'.shards i).summaries =
        if i = hash x.txnId then (ix.shards i).summaries ++ [x] else (ix.shards i).summaries := by
  unfold registerCommit CommittedTxnSummaryShard.push
  rw [if_neg (Nat.not_lt.2 h.durable), if_neg (Nat.not_lt.2 (h.last _))]
  refine ⟨_, rfl, ⟨max_le h.durable le_rfl, fun i => ?_⟩, rfl, fun i => ?_⟩
  · by_cases hi : i = hash x.txnId
    · subst hi; simp
    · simpa [hi] using h.last i
  · by_cases hi : i = hash x.txnId
    · subst hi; simp
    · simp [hi]

end CommittedTxnSummaryIndex
end Paro.L2
