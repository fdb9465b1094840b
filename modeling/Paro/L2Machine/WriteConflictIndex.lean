import Mathlib.Data.List.FinRange
import Paro.Core.LTS
import Paro.Core.SortDedup
import Paro.L1Resource.LockResource

/-!
# Write-conflict index

Model of `WriteConflictIndex` (crates/transaction/src/write_conflict_index.rs). A committed
write is placed in one or more shards under a kind tag: a key, row or range in the shards
of its hash buckets (`fine`) and in the summary shards of its database and table
(`fineSummary`), any other resource in a single shard (`coarse`). A query probes shards
through kind masks. `hash_to_index` is an arbitrary function into the shards, applied to
the tagged tuples of the source (`ShardKey`). The statistics counters are left out.
`La-b` are lines of this file.
-/
namespace Paro.L2.WriteConflictIndex
open L1 List
open LockResource hiding ns

abbrev CommitTs := Nat

/-- L97-102 -/
inductive ConflictEntryKind
  | fine
  | fineSummary
  | coarse
deriving DecidableEq, Repr

namespace ConflictEntryKind

/-- L595-601 -/
def bit : ConflictEntryKind → Nat
  | fine => 1
  | fineSummary => 2
  | coarse => 4

def rank : ConflictEntryKind → Nat
  | fine => 0
  | fineSummary => 1
  | coarse => 2

end ConflictEntryKind

open ConflictEntryKind

/-- L90-95 -/
structure ConflictEntry where
  commitTs : CommitTs
  resource : LockResource
  kind : ConflictEntryKind
deriving DecidableEq, Repr

/-- L104-109 -/
structure ConflictPlacement (n : Nat) where
  shardIndex : Fin n
  kind : ConflictEntryKind
  resource : LockResource
deriving DecidableEq, Repr

/-- L111-115 -/
structure ConflictProbe (n : Nat) where
  shardIndex : Fin n
  kindMask : Nat
deriving DecidableEq, Repr

/-- L40-44 -/
structure ConflictMatch where
  commitTs : CommitTs
  resource : LockResource
deriving DecidableEq, Repr

/-- L57-64 -/
inductive WriteConflictIndexError
  | emptyWriteSet
  | nonMonotonicCommit (previous attempted : CommitTs)
deriving DecidableEq, Repr

/-- The tagged tuples that are hashed to a shard; the tags are 0, 1, 3, 10, 11 and 12. -/
inductive ShardKey
  | resource (r : LockResource)
  | keyBucket (ns : LockNamespace) (tableId tabletId bucket : Nat)
  | rowBucket (ns : LockNamespace) (tableId tabletId rowsetId segmentId bucket : Nat)
  | database (ns : LockNamespace)
  | table (ns : LockNamespace) (tableId : Nat)
  | tablet (ns : LockNamespace) (tableId tabletId : Nat)
deriving DecidableEq, Repr

variable {n : Nat} (hash : ShardKey → Fin n)

/-- L604-609 -/
def isFineResource : LockResource → Bool
  | .primaryKey _ _ _ _ | .rowId _ _ _ _ _ _ | .range _ _ _ _ _ => true
  | _ => false

/-- L631-634 -/
def orderedHashBucket (h bucketCount : Nat) : Nat := (h * bucketCount) >>> 64

/-- L487-499 -/
def hashBucketsForRange (bucketCount : Nat) (startHash endHash : UInt64) : List Nat :=
  let start := orderedHashBucket startHash.toNat bucketCount
  let stop := orderedHashBucket endHash.toNat bucketCount
  if start ≤ stop then List.range' start (stop + 1 - start)
  else List.range' start (bucketCount - start) ++ List.range (stop + 1)

/-- L443-464 -/
def coarseShard : LockResource → Fin n
  | .database ns => hash (.database ns)
  | .table ns t | .predicate ns t _ => hash (.table ns t)
  | .tablet ns t tb => hash (.tablet ns t tb)
  | r => hash (.resource r)

/-- L371-411 -/
def fineShards : LockResource → List (Fin n)
  | .primaryKey ns t tb k => [hash (.keyBucket ns t tb (orderedHashBucket k.toNat n))]
  | .range ns t tb s e => (hashBucketsForRange n s e).map fun b => hash (.keyBucket ns t tb b)
  | .rowId ns t tb rs sg ro => [hash (.rowBucket ns t tb rs sg (orderedHashBucket ro n))]
  | r => [coarseShard hash r]

variable (r : LockResource)

/-- L284-314 -/
def placementsForWrite : List (ConflictPlacement n) :=
  if isFineResource r then
    (fineShards hash r).map (fun i => ⟨i, fine, r⟩) ++ [⟨hash (.database r.ns), fineSummary, r⟩] ++
      (match r.tableId with
        | some t => [⟨hash (.table r.ns t), fineSummary, r⟩]
        | none => [])
  else [⟨coarseShard hash r, coarse, r⟩]

/-- L611-623 -/
def pushProbe (probes : List (ConflictProbe n)) (i : Fin n) (mask : Nat) :
    List (ConflictProbe n) :=
  if probes.any fun p => decide (p.shardIndex = i) then
    probes.map fun p => if p.shardIndex = i then { p with kindMask := p.kindMask ||| mask } else p
  else probes ++ [⟨i, mask⟩]

def probeCalls : List (Fin n × Nat) :=
  let table (mask : Nat) : List (Fin n × Nat) :=
    match r.tableId with
    | some t => [(hash (.table r.ns t), mask)]
    | none => []
  let tablet : List (Fin n × Nat) :=
    match r.tabletIdentity with
    | some (t, tb) => [(hash (.tablet r.ns t tb), coarse.bit)]
    | none => []
  if isFineResource r then
    (fineShards hash r).map (fun i => (i, fine.bit)) ++ [(hash (.database r.ns), coarse.bit)] ++
      table coarse.bit ++ tablet
  else
    [(hash (.database r.ns), coarse.bit), (coarseShard hash r, coarse.bit ||| fineSummary.bit)] ++
      table (coarse.bit ||| fineSummary.bit) ++ tablet

/-- L316-369 -/
def probesForQuery : List (ConflictProbe n) :=
  ((probeCalls hash r).foldl (fun ps c => pushProbe ps c.1 c.2) []).insertionSort
    fun a b => a.shardIndex ≤ b.shardIndex

/-! ## Shards -/

/-- L84-88 -/
structure ConflictShard where
  entries : List ConflictEntry
  lastCommitTs : CommitTs
deriving DecidableEq, Repr

namespace ConflictShard

variable (s : ConflictShard)

/-- L516-535 -/
def push (ts : CommitTs) (r : LockResource) (k : ConflictEntryKind) : Except WriteConflictIndexError ConflictShard :=
  if ts < s.lastCommitTs then .error (.nonMonotonicCommit s.lastCommitTs ts)
  else .ok ⟨s.entries ++ [⟨ts, r, k⟩], ts⟩

/-- L537-549 -/
def firstConflict (readTs : Nat) (r : LockResource) (mask : Nat) : Option ConflictEntry :=
  s.entries.find? fun e =>
    decide (e.commitTs > readTs) && decide (e.kind.bit &&& mask ≠ 0) && e.resource.conflictsWith r

/-- Pops from the front while the front is at or below the horizon.
L550-561 -/
def gc (horizon : CommitTs) : ConflictShard :=
  { s with entries := s.entries.dropWhile fun e => decide (e.commitTs ≤ horizon) }

end ConflictShard

/-! ## The index -/

/-- L66-82 -/
structure Index (n : Nat) where
  shards : Fin n → ConflictShard
  (durableTs conflictHorizon : CommitTs)

def Index.empty : Index n := ⟨fun _ => ⟨[], 0⟩, 0, 0⟩

/-- The order on placements: shard, kind, resource. -/
def ConflictPlacement.sortKey (p : ConflictPlacement n) : List Nat :=
  p.shardIndex.val :: p.kind.rank :: p.resource.sortKey

/-- Sorted, deduplicated placements of a write set.
L163-172 -/
def placementsForCommit (writes : List LockResource) : List (ConflictPlacement n) :=
  sortDedup (fun a b => a.sortKey ≤ b.sortKey)
    ((sortDedup (fun a b => a.sortKey ≤ b.sortKey) writes).flatMap (placementsForWrite hash))

/-- The push loop of `register_commit`; it stops at the first refused push. -/
def pushAll (ix : Index n) (ts : CommitTs) :
    List (ConflictPlacement n) → Index n × Except WriteConflictIndexError Unit
  | [] => (ix, .ok ())
  | p :: ps =>
    match (ix.shards p.shardIndex).push ts p.resource p.kind with
    | .ok s => pushAll { ix with shards := Function.update ix.shards p.shardIndex s } ts ps
    | .error e => (ix, .error e)

variable (ix : Index n)

/-- L145-181 -/
def registerCommit (ts : CommitTs) (writes : List LockResource) : Index n × Except WriteConflictIndexError Nat :=
  if writes = [] then (ix, .error .emptyWriteSet)
  else if ts < ix.durableTs then (ix, .error (.nonMonotonicCommit ix.durableTs ts))
  else
    match pushAll ix ts (placementsForCommit hash writes) with
    | (ix', .ok ()) =>
      ({ ix' with durableTs := max ix'.durableTs ts }, .ok (sortDedup (fun a b => a.sortKey ≤ b.sortKey) writes).length)
    | (ix', .error e) => (ix', .error e)

/-- L636-648 -/
def selectEarlierMatch (slot : Option ConflictMatch) (candidate : ConflictMatch) :
    Option ConflictMatch :=
  match slot with
  | none => some candidate
  | some current =>
    if candidate.commitTs < current.commitTs ∨ (candidate.commitTs = current.commitTs ∧
        candidate.resource.sortKey < current.resource.sortKey) then some candidate
    else some current

/-- What the probes of one query resource add to the best match so far. -/
def probeResource (readTs : Nat) (best : Option ConflictMatch) (r : LockResource) : Option ConflictMatch :=
  (probesForQuery hash r).foldl (fun best p =>
    match (ix.shards p.shardIndex).firstConflict readTs r p.kindMask with
    | some e => selectEarlierMatch best ⟨e.commitTs, e.resource⟩
    | none => best) best

/-- L188-216 -/
def firstConflict (readTs : Nat) (query : List LockResource) : Option ConflictMatch :=
  query.foldl (probeResource hash ix readTs) none

/-- L180-186 -/
def hasConflict (readTs : Nat) (query : List LockResource) : Bool :=
  (firstConflict hash ix readTs query).isSome

/-- L234-243 -/
def advanceHorizon (target : CommitTs) : Index n :=
  let horizon := max ix.conflictHorizon target
  { ix with conflictHorizon := horizon, shards := fun i => (ix.shards i).gc horizon }

/-! ## Where a write is placed and where a query looks -/

/-- Some probe of the list looks at shard `i` for entries of kind `k`. -/
def Probed (ps : List (ConflictProbe n)) (i : Fin n) (k : ConflictEntryKind) : Prop :=
  ∃ p ∈ ps, p.shardIndex = i ∧ k.bit &&& p.kindMask ≠ 0

/-- The write `w` has an entry that the probes of the query resource `q` look at. -/
def Meets (w q : LockResource) : Prop :=
  ∃ p ∈ placementsForWrite hash w, Probed (probesForQuery hash q) p.shardIndex p.kind

theorem and_or_ne_zero (a b c : Nat) : a &&& (b ||| c) ≠ 0 ↔ a &&& b ≠ 0 ∨ a &&& c ≠ 0 := by
  rw [Nat.and_or_distrib_left, ne_eq, Nat.or_eq_zero_iff]
  tauto

variable {ps : List (ConflictProbe n)} {i : Fin n} {mask b m t : Nat} {k : ConflictEntryKind}
  {q w : LockResource} {s e : UInt64}

theorem probed_pushProbe {j : Fin n} :
    Probed (pushProbe ps i mask) j k ↔ Probed ps j k ∨ (j = i ∧ k.bit &&& mask ≠ 0) := by
  unfold pushProbe
  split
  · rename_i hany
    obtain ⟨p0, hp0, hi0⟩ := any_eq_true.1 hany
    have hi0 : p0.shardIndex = i := by simpa using hi0
    simp only [Probed, mem_map]
    constructor
    · rintro ⟨_, ⟨p, hp, rfl⟩, hj, hb⟩
      by_cases hpi : p.shardIndex = i
      · rw [if_pos hpi] at hj hb
        rcases (and_or_ne_zero _ _ _).1 hb with hb | hb
        · exact .inl ⟨p, hp, hj, hb⟩
        · exact .inr ⟨hj ▸ hpi, hb⟩
      · rw [if_neg hpi] at hj hb
        exact .inl ⟨p, hp, hj, hb⟩
    · rintro (⟨p, hp, hj, hb⟩ | ⟨rfl, hb⟩)
      · refine ⟨_, ⟨p, hp, rfl⟩, ?_⟩
        split
        · exact ⟨hj, (and_or_ne_zero _ _ _).2 (.inl hb)⟩
        · exact ⟨hj, hb⟩
      · refine ⟨_, ⟨p0, hp0, rfl⟩, ?_⟩
        rw [if_pos hi0]
        exact ⟨hi0, (and_or_ne_zero _ _ _).2 (.inr hb)⟩
  · simp [Probed, or_and_right, exists_or, eq_comm]

theorem probed_foldl {cs : List (Fin n × Nat)} : Probed (cs.foldl (fun ps c => pushProbe ps c.1 c.2) ps) i k ↔
      Probed ps i k ∨ ∃ c ∈ cs, c.1 = i ∧ k.bit &&& c.2 ≠ 0 := by
  induction cs generalizing ps with
  | nil => simp
  | cons c cs ih =>
    rw [foldl_cons, ih, probed_pushProbe, or_assoc]
    simp [eq_comm (a := i)]

/-- Merging masks and sorting do not change what is looked at. -/
theorem probed_probesForQuery :
    Probed (probesForQuery hash q) i k ↔ ∃ c ∈ probeCalls hash q, c.1 = i ∧ k.bit &&& c.2 ≠ 0 := by
  have h : Probed ((probeCalls hash q).foldl (fun ps c => pushProbe ps c.1 c.2) []) i k ↔ _ := probed_foldl
  simpa [Probed, probesForQuery, mem_insertionSort] using h

/-! ## Buckets -/

theorem orderedHashBucket_mono {a : Nat} (m : Nat) (h : a ≤ b) : orderedHashBucket a m ≤ orderedHashBucket b m := by
  simp only [orderedHashBucket, Nat.shiftRight_eq_div_pow]
  exact Nat.div_le_div_right (Nat.mul_le_mul_right m h)

theorem orderedHashBucket_lt (k : UInt64) (hm : 0 < m) : orderedHashBucket k.toNat m < m := by
  simp only [orderedHashBucket, Nat.shiftRight_eq_div_pow]
  exact Nat.div_lt_of_lt_mul (Nat.mul_lt_mul_of_pos_right k.toNat_lt hm)

/-- A range that wraps around and whose two ends fall into one bucket: the bucket list then
holds that bucket only, although the range covers nearly all hashes. -/
def WrapsInBucket (m : Nat) (startHash endHash : UInt64) : Prop :=
  endHash < startHash ∧ orderedHashBucket startHash.toNat m = orderedHashBucket endHash.toNat m

instance (m : Nat) (s e : UInt64) : Decidable (WrapsInBucket m s e) := by
  unfold WrapsInBucket; infer_instance

theorem mem_hashBucketsForRange :
    b ∈ hashBucketsForRange m s e ↔ if orderedHashBucket s.toNat m ≤ orderedHashBucket e.toNat m then
        orderedHashBucket s.toNat m ≤ b ∧ b ≤ orderedHashBucket e.toNat m
      else (orderedHashBucket s.toNat m ≤ b ∧ b < m) ∨ b ≤ orderedHashBucket e.toNat m := by
  unfold hashBucketsForRange
  dsimp only
  split
  · rw [mem_range'_1]; omega
  · rw [mem_append, mem_range'_1, mem_range]; omega

theorem start_mem_buckets (hm : 0 < m) (s e : UInt64) : orderedHashBucket s.toNat m ∈ hashBucketsForRange m s e := by
  have := orderedHashBucket_lt s hm
  rw [mem_hashBucketsForRange]
  split <;> omega

theorem end_mem_buckets (m : Nat) (s e : UInt64) : orderedHashBucket e.toNat m ∈ hashBucketsForRange m s e := by
  rw [mem_hashBucketsForRange]
  split <;> omega

/-- Unless the range wraps inside one bucket, the bucket of a hash in the range is listed. -/
theorem mem_buckets_of_hashInRange (hm : 0 < m) {k : UInt64} (h : hashInRange k s e = true)
    (hw : ¬ WrapsInBucket m s e) : orderedHashBucket k.toNat m ∈ hashBucketsForRange m s e := by
  have hlt := orderedHashBucket_lt k hm
  rw [mem_hashBucketsForRange]
  unfold hashInRange at h
  split at h
  · rename_i hse
    simp only [decide_eq_true_eq, UInt64.le_iff_toNat_le] at h hse
    have h1 := orderedHashBucket_mono m h.1
    have h2 := orderedHashBucket_mono m h.2
    rw [if_pos (by omega)]; exact ⟨h1, h2⟩
  · rename_i hse
    simp only [ge_iff_le, decide_eq_true_eq, UInt64.le_iff_toNat_le] at h hse
    have hes : e < s := by rw [UInt64.lt_iff_toNat_lt]; omega
    have hle := orderedHashBucket_mono m (a := e.toNat) (b := s.toNat) (by omega)
    have hne : orderedHashBucket s.toNat m ≠ orderedHashBucket e.toNat m :=
      fun e' => hw ⟨hes, e'⟩
    rw [if_neg (by omega)]
    rcases h with h | h
    · exact .inl ⟨orderedHashBucket_mono m h, hlt⟩
    · exact .inr (orderedHashBucket_mono m h)

/-- Overlapping ranges share a bucket unless one of them wraps inside a bucket. -/
theorem buckets_meet_of_overlap (hm : 0 < m) {ls le rs re : UInt64} (h : rangesOverlap ls le rs re = true)
    (hl : ¬ WrapsInBucket m ls le) (hr : ¬ WrapsInBucket m rs re) :
    ∃ b, b ∈ hashBucketsForRange m ls le ∧ b ∈ hashBucketsForRange m rs re := by
  simp only [rangesOverlap, Bool.or_eq_true] at h
  rcases h with ((h | h) | h) | h
  · exact ⟨_, start_mem_buckets hm ls le, mem_buckets_of_hashInRange hm h hr⟩
  · exact ⟨_, end_mem_buckets m ls le, mem_buckets_of_hashInRange hm h hr⟩
  · exact ⟨_, mem_buckets_of_hashInRange hm h hl, start_mem_buckets hm rs re⟩
  · exact ⟨_, mem_buckets_of_hashInRange hm h hl, end_mem_buckets m rs re⟩

/-! ## Which conflicting pairs meet -/

/-- The pairs of a write and a query that the placements and probes can miss: a database
query and a coarse write below it, a table query and a tablet write, and a key or range
against a range that wraps inside one bucket. -/
def Blind (m : Nat) : LockResource → LockResource → Prop
  | .schema _ _, .database _ | .table _ _, .database _ | .tablet _ _ _, .database _
  | .predicate _ _ _, .database _ | .catalogObject _ _ _, .database _ => True
  | .tablet _ _ _, .table _ _ => True
  | .primaryKey _ _ _ _, .range _ _ _ s e => WrapsInBucket m s e
  | .range _ _ _ s e, .primaryKey _ _ _ _ => WrapsInBucket m s e
  | .range _ _ _ s e, .range _ _ _ s' e' => WrapsInBucket m s e ∨ WrapsInBucket m s' e'
  | _, _ => False

/-- A placement and a `push_probe` call on the same shard with a common kind. -/
theorem meets_of_call (hp : ⟨i, k, w⟩ ∈ placementsForWrite hash w) (hc : (i, mask) ∈ probeCalls hash q)
    (hk : k.bit &&& mask ≠ 0) : Meets hash w q :=
  ⟨_, hp, (probed_probesForQuery hash).2 ⟨_, hc, rfl, hk⟩⟩

theorem database_call (q : LockResource) : (hash (.database q.ns), coarse.bit) ∈ probeCalls hash q := by
  unfold probeCalls; dsimp only; split <;> simp

theorem table_call (h : q.tableId = some t) :
    ∃ mask, (hash (.table q.ns t), mask) ∈ probeCalls hash q ∧ coarse.bit &&& mask ≠ 0 ∧
      (isFineResource q = false → fineSummary.bit &&& mask ≠ 0) := by
  unfold probeCalls
  dsimp only
  rw [h]
  split
  · rename_i hf
    exact ⟨coarse.bit, by simp, by decide, by simp [hf]⟩
  · exact ⟨coarse.bit ||| fineSummary.bit, by simp, by decide, fun _ => by decide⟩

theorem tablet_call {tb : Nat} (h : q.tabletIdentity = some (t, tb)) :
    (hash (.tablet q.ns t tb), coarse.bit) ∈ probeCalls hash q := by
  unfold probeCalls
  dsimp only
  rw [h]
  split <;> simp

theorem coarseShard_call (h : isFineResource q = false) :
    (coarseShard hash q, coarse.bit ||| fineSummary.bit) ∈ probeCalls hash q := by
  unfold probeCalls
  simp [h]

theorem fineShard_call (h : isFineResource q = true)
    (hi : i ∈ fineShards hash q) : (i, fine.bit) ∈ probeCalls hash q := by
  unfold probeCalls
  simp [h, hi]

theorem coarse_placement (h : isFineResource w = false) :
    ⟨coarseShard hash w, coarse, w⟩ ∈ placementsForWrite hash w := by
  simp [placementsForWrite, h]

section
variable (h : isFineResource w = true)
include h

theorem database_placement : ⟨hash (.database w.ns), fineSummary, w⟩ ∈ placementsForWrite hash w := by
  simp [placementsForWrite, h]

theorem table_placement (ht : w.tableId = some t) :
    ⟨hash (.table w.ns t), fineSummary, w⟩ ∈ placementsForWrite hash w := by
  simp [placementsForWrite, h, ht]

theorem fineShard_placement (hi : i ∈ fineShards hash w) : ⟨i, fine, w⟩ ∈ placementsForWrite hash w := by
  simp [placementsForWrite, h, hi]

end

/-- A coarse write meets every query it conflicts with, blind pairs apart. -/
theorem coarse_meets (hw : isFineResource w = false)
    (hc : w.conflictsWith q = true) (hb : ¬ Blind n w q) : Meets hash w q := by
  have hp := coarse_placement hash hw
  have hns := ns_eq_of_conflictsWith hc
  cases w with
  | database ns =>
    obtain rfl : ns = q.ns := hns
    exact meets_of_call hash hp (database_call hash q) (by decide)
  | table ns t =>
    have ht : q.tableId = some t := by
      cases q <;> simp_all [conflictsWith, LockResource.ns, tableId, Blind]
    obtain rfl : ns = q.ns := hns
    obtain ⟨mask, hm, hk, -⟩ := table_call hash ht
    exact meets_of_call hash hp hm hk
  | predicate ns t h =>
    have ht : q.tableId = some t := by
      cases q <;> simp_all [conflictsWith, LockResource.ns, tableId, tabletIdentity, Blind]
      grind
    obtain rfl : ns = q.ns := hns
    obtain ⟨mask, hm, hk, -⟩ := table_call hash ht
    exact meets_of_call hash hp hm hk
  | tablet ns t tb =>
    have ht : q.tabletIdentity = some (t, tb) := by
      cases q <;> simp_all [conflictsWith, LockResource.ns, tableId, tabletIdentity, Blind]
    obtain rfl : ns = q.ns := hns
    exact meets_of_call hash hp (tablet_call hash ht) (by decide)
  | schema ns i =>
    obtain rfl : q = .schema ns i := by
      cases q <;> simp_all [conflictsWith, LockResource.ns, tableId, tabletIdentity, Blind]
    exact meets_of_call hash hp (coarseShard_call hash rfl) (by decide)
  | catalogObject ns k i =>
    obtain rfl : q = .catalogObject ns k i := by
      cases q <;> simp_all [conflictsWith, LockResource.ns, tableId, tabletIdentity, Blind]
    exact meets_of_call hash hp (coarseShard_call hash rfl) (by decide)
  | primaryKey | rowId | range => cases hw

/-- A fine write meets every coarse query it conflicts with through a summary entry. -/
theorem fine_meets_coarse (hw : isFineResource w = true)
    (hq : isFineResource q = false) (hc : w.conflictsWith q = true) : Meets hash w q := by
  have hns := ns_eq_of_conflictsWith hc
  cases q with
  | database ns =>
    obtain rfl : w.ns = ns := hns
    exact meets_of_call hash (database_placement hash hw) (coarseShard_call hash rfl) (by decide)
  | table ns t | predicate ns t h =>
    have ht : w.tableId = some t := by
      cases w <;> simp_all [conflictsWith, tableId, isFineResource]
    obtain rfl : w.ns = ns := hns
    exact meets_of_call hash (table_placement hash hw ht) (coarseShard_call hash rfl) (by decide)
  | tablet ns t tb =>
    have ht : w.tableId = some t := by
      cases w <;> simp_all [conflictsWith, tableId, tabletIdentity, isFineResource]
    obtain rfl : w.ns = ns := hns
    obtain ⟨mask, hm, -, hk⟩ := table_call hash (q := .tablet w.ns t tb) (t := t) rfl
    exact meets_of_call hash (table_placement hash hw ht) hm (hk rfl)
  | schema | catalogObject => cases w <;> simp_all [conflictsWith, isFineResource]
  | primaryKey | rowId | range => cases hq

/-- Two fine resources in conflict are equal or lie in one tablet with a common bucket. -/
theorem fine_meets_fine (hw : isFineResource w = true) (hq : isFineResource q = true) (hc : w.conflictsWith q = true)
    (hb : ¬ Blind n w q) : Meets hash w q := by
  have hn : 0 < n := Fin.pos (hash (.database w.ns))
  have hshare : ∃ i, i ∈ fineShards hash w ∧ i ∈ fineShards hash q := by
    by_cases he : w = q
    · subst he
      cases w with
      | primaryKey | rowId => exact ⟨_, mem_singleton_self _, mem_singleton_self _⟩
      | range ns t tb s e => exact ⟨_, mem_map_of_mem (end_mem_buckets n s e), mem_map_of_mem (end_mem_buckets n s e)⟩
      | _ => cases hw
    have hns := ns_eq_of_conflictsWith hc
    cases w <;> cases q <;>
      simp only [conflictsWith, he, if_false, LockResource.ns, isFineResource, Bool.false_eq_true] at hns hw hq hc
    all_goals simp only [hns, ne_eq, not_true_eq_false, if_false, Bool.false_eq_true,
      Bool.and_eq_true, decide_eq_true_eq] at hc
    · -- a key in a range
      obtain ⟨⟨rfl, rfl⟩, hc⟩ := hc
      subst hns
      exact ⟨_, mem_singleton_self _, mem_map_of_mem (mem_buckets_of_hashInRange hn hc hb)⟩
    · -- a range over a key
      obtain ⟨⟨rfl, rfl⟩, hc⟩ := hc
      subst hns
      exact ⟨_, mem_map_of_mem (mem_buckets_of_hashInRange hn hc hb), mem_singleton_self _⟩
    · -- two ranges
      obtain ⟨⟨rfl, rfl⟩, hc⟩ := hc
      subst hns
      obtain ⟨b, h1, h2⟩ := buckets_meet_of_overlap hn hc (fun h => hb (.inl h)) (fun h => hb (.inr h))
      exact ⟨_, mem_map_of_mem h1, mem_map_of_mem h2⟩
  obtain ⟨i, h1, h2⟩ := hshare
  exact meets_of_call hash (fineShard_placement hash hw h1) (fineShard_call hash hq h2) (by decide)

/-- **Placement and probe meet** for every conflicting pair that is not blind. -/
theorem meets_of_conflict (hc : w.conflictsWith q = true) (hb : ¬ Blind n w q) : Meets hash w q := by
  cases hw : isFineResource w with
  | false => exact coarse_meets hash hw hc hb
  | true =>
    cases hq : isFineResource q with
    | false => exact fine_meets_coarse hash hw hq hc
    | true => exact fine_meets_fine hash hw hq hc hb

end Paro.L2.WriteConflictIndex
