import Mathlib.Data.List.FinRange
import Paro.L2Machine.LockTable

/-!
# Sharded lock manager

Model of `ShardedLockManager` (crates/transaction/src/lock_manager.rs): `lock_many` sorts
and merges its requests, grants the coarse ones one by one and the fine ones shard by
shard, undoes everything on the first refusal, and may then replace the row locks of a
tablet by a lock on the tablet.

A call of `lock_many` is one atomic step. The second look at the coarse table in
`try_grant_fine_batch`, which repeats the first when another thread changed it in between,
is then the same look, so it stands once here. The hash that picks a shard and the
iteration order of the `HashMap` in `try_escalate` are parameters. The contention counters
are left out. `La-b` are lines of this file.
-/
namespace Paro.L2.LockManager
open L1 L2

/-! ## The manager -/

/-- L508-511 -/
inductive LockEscalationFailureAction
  | keepFineGrained
  | abort
deriving DecidableEq, Repr

/-- L514-517 -/
structure LockEscalationPolicy where
  threshold : Nat
  failureAction : LockEscalationFailureAction
deriving DecidableEq, Repr

/-- A threshold of `usize::MAX` turns escalation off. L541-543 -/
def LockEscalationPolicy.enabled (p : LockEscalationPolicy) : Bool := p.threshold ≠ 2 ^ 64 - 1

/-- L447-460 -/
inductive LockAcquireError
  | wouldWait (blockers : List TxnId)
  | wouldWound (victims : List TxnId)
  | wouldWoundAndWait (victims blockers : List TxnId)
deriving DecidableEq, Repr

abbrev TabletKey := LockNamespace × Nat × Nat

/-- What the manager is built with: `shardIndex` is the hash of a resource modulo the
number of shards. -/
structure Config (n : Nat) where
  shardIndex : LockResource → Fin n
  escalationPolicy : LockEscalationPolicy

/-- The order in which one call visits its escalation map, which is a new hash map. -/
structure IterOrder where
  visit : List TabletKey → List TabletKey
  perm : ∀ l, (visit l).Perm l

def IterOrder.id : IterOrder := ⟨fun l => l, fun _ => .refl _⟩

/-- L604-607 -/
inductive LockLocation (n : Nat)
  | fineShard (i : Fin n)
  | coarse
deriving DecidableEq, Repr

/-- L596-601 -/
structure GrantedLock (n : Nat) where
  resource : LockResource
  mode : LockMode
  location : LockLocation n
  previousMode : Option LockMode
deriving DecidableEq, Repr

/-- The fine shards and the coarse table, by location, and the number of coarse holders.
L547-562 -/
structure Manager (n : Nat) where
  tables : LockLocation n → LockTableShard
  coarseActiveCount : Nat

variable {n : Nat}

def Manager.empty : Manager n := ⟨fun _ => [], 0⟩

/-- L1248-1283 -/
def classifyWoundWait (t : TxnId) (blockers : List TxnId) : LockAcquireError :=
  let ids := normalizeTxnIds blockers
  match ids.filter (fun b => decide (t < b)), ids.filter (fun b => decide (¬ t < b)) with
  | [], ws => .wouldWait ws
  | vs, [] => .wouldWound vs
  | vs, ws => .wouldWoundAndWait vs ws

/-- Merge equal neighbours of a sorted list into the strongest mode. -/
def mergeRequests (last : LockRequest) : List LockRequest → List LockRequest
  | [] => [last]
  | q :: qs =>
    if last.resource = q.resource then
      mergeRequests { last with mode := last.mode.strongest q.mode } qs
    else last :: mergeRequests q qs

/-- L1282-1296 -/
def normalizeRequests (requests : List LockRequest) : List LockRequest :=
  match requests.insertionSort (fun a b => a.resource.sortKey ≤ b.resource.sortKey) with
  | [] => []
  | q :: qs => mergeRequests q qs

variable (m : Manager n) (t : TxnId)

/-- L980-994 -/
def releaseCoarseLock (r : LockResource) (p : Option LockMode) :
    Manager n :=
  let res := (m.tables .coarse).release t r p
  { tables := Function.update m.tables .coarse res.1
    coarseActiveCount := if res.2 then m.coarseActiveCount - 1 else m.coarseActiveCount }

def releaseLock (g : GrantedLock n) : Manager n :=
  match g.location with
  | .fineShard i =>
    { m with tables := Function.update m.tables (.fineShard i)
               ((m.tables (.fineShard i)).release t g.resource g.previousMode).1 }
  | .coarse => releaseCoarseLock m t g.resource g.previousMode

/-- Releases the last lock first. L833-845 -/
def releaseLocks (m : Manager n) (t : TxnId) : List (GrantedLock n) → Manager n
  | [] => m
  | g :: gs => releaseLock (releaseLocks m t gs) t g

/-- L957-968 -/
def coarseBlockersMany (qs : List LockRequest) : List TxnId :=
  if m.coarseActiveCount = 0 then []
  else normalizeTxnIds (qs.flatMap fun q => (m.tables .coarse).blockers t q)

variable (q : LockRequest)

/-- L970-978 -/
def fineBlockers : List TxnId :=
  normalizeTxnIds ((List.finRange n).flatMap fun i => (m.tables (.fineShard i)).blockers t q)

/-- A grant at a location and its record; the coarse table counts its holders. -/
def grantLock (loc : LockLocation n) :
    Manager n × GrantedLock n :=
  let res := (m.tables loc).grant t q
  ({ tables := Function.update m.tables loc res.1
     coarseActiveCount :=
       if loc = .coarse ∧ res.2.insertedHolder then m.coarseActiveCount + 1
       else m.coarseActiveCount },
   ⟨q.resource, q.mode, loc, res.2.previousMode⟩)

/-- The grant loop of `try_grant_fine_batch`. -/
def grantFine (m : Manager n) (t : TxnId) (i : Fin n) :
    List LockRequest → Manager n × List (GrantedLock n)
  | [] => (m, [])
  | q :: qs =>
    let res := grantLock m t q (.fineShard i)
    let rest := grantFine res.1 t i qs
    (rest.1, res.2 :: rest.2)

/-- L866-922 -/
def tryGrantFineBatch (i : Fin n) (qs : List LockRequest) :
    Manager n × Except LockAcquireError (List (GrantedLock n)) :=
  let coarse := coarseBlockersMany m t qs
  if m.coarseActiveCount > 0 ∧ coarse ≠ [] then (m, .error (classifyWoundWait t coarse))
  else
    let blockers := normalizeTxnIds
      (qs.flatMap fun q => (m.tables (.fineShard i)).exactBlockers t q)
    if blockers ≠ [] then (m, .error (classifyWoundWait t blockers))
    else
      let res := grantFine m t i qs
      (res.1, .ok res.2)

/-- The coarse table is updated first and the fine shards are looked at afterwards, so a
refusal by a fine holder takes the coarse grant back. L924-955 -/
def tryGrantCoarse :
    Manager n × Except LockAcquireError (List (GrantedLock n)) :=
  let blockers := (m.tables .coarse).blockers t q
  if blockers ≠ [] then (m, .error (classifyWoundWait t blockers))
  else
    let res := grantLock m t q .coarse
    let fine := fineBlockers res.1 t q
    if fine ≠ [] then
      (releaseCoarseLock res.1 t q.resource res.2.previousMode, .error (classifyWoundWait t fine))
    else (res.1, .ok [res.2])

/-! ## Escalation -/

/-- L1077-1093 -/
def fineTabletIdentity : LockResource → Option TabletKey
  | .primaryKey ns t tb _ | .rowId ns t tb _ _ _ => some (ns, t, tb)
  | _ => none

/-- L1099-1109 -/
def rowIdEscalationIdentity : LockResource → Option TabletKey
  | .rowId ns t tb _ _ _ => some (ns, t, tb)
  | _ => none

/-- L1111-1129 -/
def hasTabletLock (locks : List (GrantedLock n)) (k : TabletKey) : Bool :=
  locks.any fun g => decide (g.resource = .tablet k.1 k.2.1 k.2.2)

/-- The loop of `try_escalate`; `count` is fixed before the loop. On a refusal the source
either returns, which drops the set, or keeps the row locks. -/
def escalateLoop (cfg : Config n) (t : TxnId) (count : TabletKey → Nat) (m : Manager n)
    (locks : List (GrantedLock n)) :
    List TabletKey → Manager n × Except LockAcquireError (List (GrantedLock n))
  | [] => (m, .ok locks)
  | k :: ks =>
    if count k < cfg.escalationPolicy.threshold ∨ hasTabletLock locks k then
      escalateLoop cfg t count m locks ks
    else
      match tryGrantCoarse m t ⟨.tablet k.1 k.2.1 k.2.2, .x⟩ with
      | (m', .ok coarse) =>
        let fine := locks.filter fun g => decide (fineTabletIdentity g.resource = some k)
        let kept := locks.filter fun g => decide (fineTabletIdentity g.resource ≠ some k)
        escalateLoop cfg t count (releaseLocks m' t fine) (kept ++ coarse) ks
      | (m', .error e) =>
        if cfg.escalationPolicy.failureAction = .abort then (releaseLocks m' t locks, .error e)
        else escalateLoop cfg t count m' locks ks

/-- L1027-1074 -/
def tryEscalate (cfg : Config n) (m : Manager n) (t : TxnId) (locks : List (GrantedLock n)) (order : IterOrder) :
    Manager n × Except LockAcquireError (List (GrantedLock n)) :=
  if ¬ cfg.escalationPolicy.enabled ∨ locks.length < cfg.escalationPolicy.threshold then
    (m, .ok locks)
  else
    let ids := locks.filterMap fun g => rowIdEscalationIdentity g.resource
    escalateLoop cfg t (fun k => ids.count k) m locks (order.visit ids.dedup)

/-! ## `lock_many` -/

/-- The coarse requests, in order; a refusal releases what was granted. -/
def lockCoarse (t : TxnId) (m : Manager n) (granted : List (GrantedLock n)) :
    List LockRequest → Manager n × Except LockAcquireError (List (GrantedLock n))
  | [] => (m, .ok granted)
  | q :: qs =>
    match tryGrantCoarse m t q with
    | (m', .ok locks) => lockCoarse t m' (granted ++ locks) qs
    | (m', .error e) => (releaseLocks m' t granted, .error e)

/-- The fine requests, shard by shard; a refusal releases what was granted. -/
def lockFine (t : TxnId) (batch : Fin n → List LockRequest) (m : Manager n)
    (granted : List (GrantedLock n)) :
    List (Fin n) → Manager n × Except LockAcquireError (List (GrantedLock n))
  | [] => (m, .ok granted)
  | i :: is =>
    if batch i = [] then lockFine t batch m granted is
    else
      match tryGrantFineBatch m t i (batch i) with
      | (m', .ok locks) => lockFine t batch m' (granted ++ locks) is
      | (m', .error e) => (releaseLocks m' t granted, .error e)

/-- L641-696 -/
def lockMany (cfg : Config n) (m : Manager n) (t : TxnId) (requests : List LockRequest) (order : IterOrder) :
    Manager n × Except LockAcquireError (List (GrantedLock n)) :=
  let qs := normalizeRequests requests
  match lockCoarse t m [] (qs.filter fun q => q.resource.isCoarseResource) with
  | (m1, .error e) => (m1, .error e)
  | (m1, .ok granted) =>
    let batch := fun i => qs.filter fun q =>
      !q.resource.isCoarseResource && decide (cfg.shardIndex q.resource = i)
    match lockFine t batch m1 granted (List.finRange n) with
    | (m2, .error e) => (m2, .error e)
    | (m2, .ok granted) => tryEscalate cfg m2 t granted order

end Paro.L2.LockManager
