import Paro.Core.Keyed
import Paro.Core.SortDedup
import Paro.L1Resource.ReadDependency

/-!
# Read dependency index

Model of `ReadDependencyIndex` (crates/transaction/src/read_dependency_index.rs). Each live
serializable transaction has a read set: a list of distinct dependencies in the order they
were inserted, its byte usage, and the flags of the SSI validator. A read set that would pass
its own budget, or is the oldest when the index passes the global one, is coarsened: every
dependency becomes its table marker, and stays one from then on. A savepoint mark is the
length of the list together with the coarsening epoch it was taken in.

The shards of the source partition one map by transaction, so they are one list of rows here.
Epochs and byte counts are natural numbers; the size of an empty read set, a `size_of` in the
source, is a parameter. The telemetry counters are left out.
`La-b` are lines of this file.
-/
namespace Paro.L2
open L1

/-- L111-117 -/
structure SsiTxnState where
  rwConflictIn : Bool := false
  rwConflictOut : Bool := false
  dangerousStructure : Bool := false
  coarseScanMarkerConflict : Bool := false
  ssiStateEpoch : Nat := 0
deriving DecidableEq, Repr

/-- A read set with the transaction it is filed under.
L93-102 -/
structure ActiveReadSet where
  (txnId readTs : Nat)
  (dependencies seen : List ReadDependency)
  memoryUsageBytes : Nat
  coarsened : Bool
  (coarseningEpoch lastAccessEpoch : Nat)
  ssi : SsiTxnState
deriving DecidableEq, Repr

/-- L64-67 -/
structure ReadDependencyIndexMark where
  dependencyCount : Nat := 0
  coarseningEpoch : Nat := 0
deriving DecidableEq, Repr

/-- L70-73 -/
structure ReadDependencyRollback where
  removedDependencies : Nat := 0
  preservedDueToCoarsening : Bool := false
deriving DecidableEq, Repr

/-- commit/types.rs:83-87 -/
structure FrozenReadSet where
  dependencyCount : Nat := 0
  coarsened : Bool := false
  dependencies : List ReadDependency := []
deriving DecidableEq, Repr

/-- L19-24; `baseBytes` is `active_read_set_base_bytes` -/
structure ReadDependencyIndexOptions where
  (perTxnBudgetBytes globalBudgetBytes baseBytes : Nat)

/-! ## One read set -/

namespace ActiveReadSet

variable (o : ReadDependencyIndexOptions)

/-- L591-602 -/
def new (t readTs lastAccessEpoch : Nat) : ActiveReadSet :=
  { txnId := t, readTs, dependencies := [], seen := [], memoryUsageBytes := o.baseBytes,
    coarsened := false, coarseningEpoch := 0, lastAccessEpoch, ssi := {} }

def usage (ds : List ReadDependency) : Nat :=
  o.baseBytes + (ds.map ReadDependency.estimatedBytes).sum

variable (rs : ActiveReadSet)

/-- L692-708 -/
def coarsenToTableLevel (epoch : Nat) : ActiveReadSet :=
  let compacted := keepFirst [] (rs.dependencies.map ReadDependency.widen)
  { rs with dependencies := compacted, seen := compacted, memoryUsageBytes := usage o compacted,
            coarsened := true, coarseningEpoch := epoch }

variable (d : ReadDependency)

/-- L640-649 -/
def insertDependency : ActiveReadSet × Bool :=
  if d ∈ rs.seen then (rs, false)
  else ({ rs with seen := d :: rs.seen, dependencies := rs.dependencies ++ [d],
                  memoryUsageBytes := rs.memoryUsageBytes + d.estimatedBytes }, true)

def levelOf : ReadDependency :=
  if rs.coarsened then d.widen else d

/-- The body of the loop of `ActiveReadSet::record_batch`.
L611-636 -/
def recordOne (epoch : Nat) (rs : ActiveReadSet) (d : ReadDependency) : ActiveReadSet × Bool :=
  let d1 := rs.levelOf d
  if d1 ∈ rs.seen then (rs, false)
  else
    let rs1 :=
      if !rs.coarsened && decide (o.perTxnBudgetBytes < rs.memoryUsageBytes + d1.estimatedBytes) then
        rs.coarsenToTableLevel o epoch
      else rs
    rs1.insertDependency (rs1.levelOf d1)

/-- The read set after the batch and how many dependencies were inserted.
L604-638 -/
def recordBatch (o : ReadDependencyIndexOptions) (epoch : Nat) (rs : ActiveReadSet) :
    List ReadDependency → ActiveReadSet × Nat
  | [] => (rs, 0)
  | d :: ds =>
    let one := rs.recordOne o epoch d
    let rest := one.1.recordBatch o epoch ds
    (rest.1, rest.2 + if one.2 then 1 else 0)

/-- L651-656 -/
def markSavepoint : ReadDependencyIndexMark :=
  ⟨rs.dependencies.length, rs.coarseningEpoch⟩

/-- L678-690 -/
def rebuildSeenAndUsage : ActiveReadSet :=
  let kept := keepFirst [] rs.dependencies
  { rs with dependencies := kept, seen := kept, memoryUsageBytes := usage o kept }

/-- L658-676 -/
def rollbackToSavepoint (mark : ReadDependencyIndexMark) : ActiveReadSet × ReadDependencyRollback :=
  if rs.coarseningEpoch ≠ mark.coarseningEpoch then (rs, ⟨0, true⟩)
  else if mark.dependencyCount ≥ rs.dependencies.length then (rs, {})
  else
    ({ rs with dependencies := rs.dependencies.take mark.dependencyCount }.rebuildSeenAndUsage o,
     ⟨rs.dependencies.length - mark.dependencyCount, false⟩)

/-- L710-712 -/
def frozenReadSet : FrozenReadSet :=
  ⟨rs.dependencies.length, rs.coarsened, rs.dependencies⟩

/-- L714-726 -/
def firstConflictingRead (writes : List LockResource) : Option (ReadDependency × LockResource) :=
  rs.dependencies.findSome? fun d => (writes.find? fun w => d.conflictsWithWrite w).map (d, ·)

end ActiveReadSet

/-- L120-126 -/
structure ActiveReadConflict where
  (txnId readTs : Nat)
  dependency : ReadDependency
  write : LockResource
  stateAfter : SsiTxnState
deriving DecidableEq, Repr

/-- L129-135 -/
structure ActiveWriteConflictEffects where
  matchedTxnCount : Nat := 0
  writerHasConflictIn : Bool := false
  coarseScanMarkerConflict : Bool := false
  ssiEffectEpoch : Nat := 0
  firstConflict : Option ActiveReadConflict := none
deriving DecidableEq, Repr

/-! ## The index -/

/-- L76-85 -/
structure ReadDependencyIndex where
  txns : List ActiveReadSet
  (memoryUsageBytes stateEpoch : Nat)
deriving DecidableEq, Repr

namespace ReadDependencyIndex

def empty : ReadDependencyIndex := ⟨[], 0, 0⟩

variable (ix : ReadDependencyIndex)

def get (t : Nat) : Option ActiveReadSet :=
  Keyed.lookup ActiveReadSet.txnId t ix.txns

def put (rs : ActiveReadSet) : ReadDependencyIndex :=
  { ix with txns := Keyed.put ActiveReadSet.txnId rs ix.txns }

def bumpEpoch : ReadDependencyIndex :=
  { ix with stateEpoch := ix.stateEpoch + 1 }

/-- L807-813 -/
def applyMemoryDelta (oldUsage newUsage : Nat) : ReadDependencyIndex :=
  { ix with memoryUsageBytes :=
      if newUsage ≥ oldUsage then ix.memoryUsageBytes + (newUsage - oldUsage)
      else ix.memoryUsageBytes - (oldUsage - newUsage) }

variable (o : ReadDependencyIndexOptions) (ix : ReadDependencyIndex)

/-- L191-206 -/
def registerTransaction (t readTs : Nat) : ReadDependencyIndex :=
  match ix.get t with
  | some rs => ix.put { rs with readTs, lastAccessEpoch := ix.stateEpoch }
  | none =>
    let rs := ActiveReadSet.new o t readTs ix.stateEpoch
    ((ix.put rs).applyMemoryDelta 0 rs.memoryUsageBytes).bumpEpoch

variable (t : Nat)

/-- L208-216 -/
def releaseTransaction : ReadDependencyIndex :=
  match ix.get t with
  | none => ix
  | some rs =>
    { ix with txns := Keyed.drop ActiveReadSet.txnId t ix.txns
              memoryUsageBytes := ix.memoryUsageBytes - rs.memoryUsageBytes }.bumpEpoch

variable (ds : List ReadDependency)

/-- What `record_batch` inserts: normalised, sorted by kind and identifiers, without
neighbouring repeats. L228-239 -/
def normalizeBatch : List ReadDependency :=
  dedup ((ds.map ReadDependency.normalize).insertionSort fun a b => a.orderKey ≤ b.orderKey)

def entry : ActiveReadSet :=
  (ix.get t).getD (ActiveReadSet.new o t 0 (ix.stateEpoch + 1))

/-- The part of `record_batch` under the shard lock. L241-270 -/
def recordLocked : ReadDependencyIndex × Nat :=
  let epoch := ix.stateEpoch + 1
  let oldUsage := ((ix.get t).map ActiveReadSet.memoryUsageBytes).getD 0
  let res := (ix.entry o t).recordBatch o epoch ds
  if res.2 > 0 then
    (((ix.put { res.1 with lastAccessEpoch := epoch }).applyMemoryDelta oldUsage
      res.1.memoryUsageBytes).bumpEpoch, res.2)
  else ((ix.put res.1).applyMemoryDelta oldUsage res.1.memoryUsageBytes, res.2)

/-- L788-802 -/
def precedes (a b : ActiveReadSet) : Bool :=
  decide ([a.lastAccessEpoch, a.readTs, a.txnId] < [b.lastAccessEpoch, b.readTs, b.txnId])

/-- L490-511 -/
def oldestCoarsenableReadSet : Option ActiveReadSet :=
  ix.txns.foldl (fun best rs =>
    if rs.coarsened then best
    else match best with
      | none => some rs
      | some b => if precedes rs b then some rs else best) none

/-- L512-531 -/
def coarsenTransaction : ReadDependencyIndex :=
  match ix.get t with
  | none => ix
  | some rs =>
    if rs.coarsened then ix
    else
      let rs' := rs.coarsenToTableLevel o (ix.stateEpoch + 1)
      (ix.bumpEpoch.put rs').applyMemoryDelta rs.memoryUsageBytes rs'.memoryUsageBytes

variable {ix}

/-- Each round coarsens one more read set, so there are at most as many rounds as read sets.
L473-488 -/
def enforceLoop (o : ReadDependencyIndexOptions) : Nat → ReadDependencyIndex → ReadDependencyIndex
  | 0, ix => ix
  | fuel + 1, ix =>
    if ix.memoryUsageBytes > o.globalBudgetBytes then
      match ix.oldestCoarsenableReadSet with
      | none => ix
      | some rs => enforceLoop o fuel (ix.coarsenTransaction o rs.txnId)
    else ix

def enforceGlobalBudget (ix : ReadDependencyIndex) : ReadDependencyIndex :=
  enforceLoop o ix.txns.length ix

/-- L223-275 -/
def recordBatch (o : ReadDependencyIndexOptions) (ix : ReadDependencyIndex) (t : Nat)
    (ds : List ReadDependency) : ReadDependencyIndex :=
  if ds = [] then ix
  else
    let res := ix.recordLocked o t (normalizeBatch ds)
    if res.2 > 0 then res.1.enforceGlobalBudget o else res.1

variable (ix) (t : Nat)

/-- L277-286 -/
def frozenReadSet : FrozenReadSet :=
  ((ix.get t).map ActiveReadSet.frozenReadSet).getD {}

/-- L424-433 -/
def markSavepoint : ReadDependencyIndexMark :=
  ((ix.get t).map ActiveReadSet.markSavepoint).getD {}

/-- L435-456 -/
def rollbackToSavepoint (ix : ReadDependencyIndex) (t : Nat) (mark : ReadDependencyIndexMark) : ReadDependencyIndex :=
  match ix.get t with
  | none => ix
  | some rs =>
    let res := rs.rollbackToSavepoint o mark
    if res.2.removedDependencies > 0 then
      (ix.bumpEpoch.put { res.1 with lastAccessEpoch := ix.stateEpoch + 1 }).applyMemoryDelta
        rs.memoryUsageBytes res.1.memoryUsageBytes
    else ix.put res.1

/-! ## SSI flags -/

/-- L299-308 -/
def ssiState : SsiTxnState :=
  ((ix.get t).map ActiveReadSet.ssi).getD {}

/-- L458-467 -/
def markTxnState (mutate : SsiTxnState → SsiTxnState) : ReadDependencyIndex × SsiTxnState :=
  match ix.get t with
  | none => (ix, {})
  | some rs =>
    let ssi := { mutate rs.ssi with ssiStateEpoch := ix.stateEpoch + 1 }
    (ix.bumpEpoch.put { rs with ssi }, ssi)

/-- L310-312 -/
def markTxnConflictIn : ReadDependencyIndex × SsiTxnState :=
  ix.markTxnState t fun s => { s with rwConflictIn := true }

/-- L314-316 -/
def markTxnConflictOut : ReadDependencyIndex × SsiTxnState :=
  ix.markTxnState t fun s => { s with rwConflictOut := true }

/-- L318-320 -/
def markTxnDangerous : ReadDependencyIndex × SsiTxnState :=
  ix.markTxnState t fun s => { s with dangerousStructure := true }

/-- L469-471 -/
def markTxnCoarseScanConflict : ReadDependencyIndex × SsiTxnState :=
  ix.markTxnState t fun s => { s with coarseScanMarkerConflict := true }

/-- L821-835 -/
def selectEarlierActiveConflict (slot : Option ActiveReadConflict) (candidate : ActiveReadConflict) :
    Option ActiveReadConflict :=
  match slot with
  | none => some candidate
  | some current =>
    if candidate.readTs < current.readTs ∨
        (candidate.readTs = current.readTs ∧ candidate.txnId < current.txnId) then some candidate
    else some current

/-- The body of the loop of `mark_write_conflicts`: the row, the epoch and the effects after it.
L333-364 -/
def markRow (writer : Nat) (writes : List LockResource) (rs : ActiveReadSet) (epoch : Nat)
    (effects : ActiveWriteConflictEffects) : ActiveReadSet × Nat × ActiveWriteConflictEffects :=
  if rs.txnId = writer then (rs, epoch, effects)
  else
    match rs.firstConflictingRead writes with
    | none => (rs, epoch, effects)
    | some (dependency, write) =>
      let coarse := dependency.isCoarseScanMarker
      let ssi : SsiTxnState :=
        { rwConflictIn := rs.ssi.rwConflictIn
          rwConflictOut := true
          dangerousStructure := rs.ssi.dangerousStructure || rs.ssi.rwConflictIn
          coarseScanMarkerConflict := rs.ssi.coarseScanMarkerConflict || coarse
          ssiStateEpoch := epoch + 1 }
      ({ rs with ssi }, epoch + 1,
        { matchedTxnCount := effects.matchedTxnCount + 1
          writerHasConflictIn := true
          coarseScanMarkerConflict := effects.coarseScanMarkerConflict || coarse
          ssiEffectEpoch := max effects.ssiEffectEpoch (epoch + 1)
          firstConflict := selectEarlierActiveConflict effects.firstConflict
            ⟨rs.txnId, rs.readTs, dependency, write, ssi⟩ })

def markRows (writer : Nat) (writes : List LockResource) :
    List ActiveReadSet → Nat → ActiveWriteConflictEffects →
      List ActiveReadSet × Nat × ActiveWriteConflictEffects
  | [], epoch, effects => ([], epoch, effects)
  | rs :: rows, epoch, effects =>
    let one := markRow writer writes rs epoch effects
    let rest := markRows writer writes rows one.2.1 one.2.2
    (one.1 :: rest.1, rest.2)

/-- L322-367 -/
def markWriteConflicts (writer : Nat) (writes : List LockResource) : ReadDependencyIndex × ActiveWriteConflictEffects :=
  if writes = [] then (ix, {})
  else
    let res := markRows writer writes ix.txns ix.stateEpoch {}
    ({ ix with txns := res.1, stateEpoch := res.2.1 }, res.2.2)

/-! ## Lookups after each operation -/

variable {ix} {o} {t u : Nat}
  {rs : ActiveReadSet} {ds : List ReadDependency}

theorem txnId_of_get (h : ix.get t = some rs) : rs.txnId = t :=
  Keyed.key_of_lookup h

@[simp] theorem get_put : (ix.put rs).get u = if u = rs.txnId then some rs else ix.get u :=
  Keyed.lookup_put

@[simp] theorem get_bumpEpoch : ix.bumpEpoch.get u = ix.get u := rfl

@[simp] theorem get_applyMemoryDelta {a b : Nat} : (ix.applyMemoryDelta a b).get u = ix.get u := rfl

theorem get_releaseTransaction : (ix.releaseTransaction t).get u = if u = t then none else ix.get u := by
  unfold releaseTransaction
  split
  · rename_i hg
    split
    · rename_i hu; rw [hu]; exact hg
    · rfl
  · exact Keyed.lookup_drop

variable (ix) (o)

/-- A registered transaction keeps its dependencies; a new one starts empty. -/
theorem get_registerTransaction (t u readTs : Nat) : ∃ e, (ix.registerTransaction o t readTs).get u =
    if u = t then some (match ix.get t with
      | some rs => { rs with readTs, lastAccessEpoch := e }
      | none => ActiveReadSet.new o t readTs e)
    else ix.get u := by
  refine ⟨ix.stateEpoch, ?_⟩
  unfold registerTransaction
  cases hg : ix.get t with
  | some rs => simp [txnId_of_get hg]
  | none => simp [ActiveReadSet.new]

end ReadDependencyIndex
end Paro.L2
