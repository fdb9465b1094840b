import Paro.L2Machine.LatestRows

/-!
# Two views of the latest version

A primary index answers `get` from the version chains, which are in the order of the commit timestamps, and `len`
and `snapshot` from the maps of the latest rows, which every write overwrites whatever its timestamp. A run is
its list of writes: the maps have what the last write of a key left there (`row_foldl_apply`), the chains end
with the newest one (`latestVersion_foldl_apply`).

So the two agree exactly after the runs in which, for every key, the last write leaves what its newest write shows
(`snapshot_agrees_iff`). A write with an older timestamp behind a newer one breaks it (`snapshot_shows_older_write`).
`La-b` are lines of `primary_index.rs`.
-/
namespace Paro.L3.LatestView
open L1 L2 List PrimaryIndexShard LatestRows

/-- L504-511: a hash map index with at least one shard -/
structure ShardedIndex (numShards : Nat) where
  shards : Fin (max numShards 1) → PrimaryIndexShard

/-- L531-549 -/
def withOptions (numShards : Nat) : ShardedIndex numShards := ⟨fun _ => new⟩

section
variable (defaultHash : Key → UInt64) {numShards : Nat}

/-- L1012-1016 -/
def shardOf (numShards : Nat) (key : Key) : Fin (max numShards 1) :=
  ⟨(defaultHash key).toNat % max numShards 1, Nat.mod_lt _ (by omega)⟩

variable (index : ShardedIndex numShards)

/-- L588-604 -/
def get (key : Key) : Option Nat :=
  ((index.shards (shardOf defaultHash numShards key)).latestVersion key).bind visibleRowId

/-- L885-887 -/
def len : Nat :=
  ((List.finRange (max numShards 1)).map fun i => (index.shards i).latest.len).sum

/-- L908-915 -/
def snapshot : List (Key × Nat) :=
  (List.finRange (max numShards 1)).flatMap fun i => (index.shards i).latest.snapshot

inductive Op
  | upsertAt (key : Key) (rowId commitTs : Nat)
  | removeAt (key : Key) (commitTs : Nat)
  | batchUpsertAt (entries : List (Key × Nat)) (commitTs : Nat)
  | batchApplyVersions (entries : List IndexEntry)

def onShard (key : Key) (f : PrimaryIndexShard → PrimaryIndexShard) : ShardedIndex numShards :=
  ⟨fun i => if shardOf defaultHash numShards key = i then f (index.shards i) else index.shards i⟩

/-- The entries are grouped by shard, and each shard takes its group.
L705-714, 722-730, 741-770, 773-797 -/
def step : Op → ShardedIndex numShards
  | .upsertAt key rowId commitTs => onShard defaultHash index key (·.insertOrReplaceAt key rowId commitTs)
  | .removeAt key commitTs => onShard defaultHash index key (·.removeAt key commitTs)
  | .batchUpsertAt entries commitTs =>
    ⟨fun i => (index.shards i).batchInsertOrReplaceAt
      (entries.filter fun entry => shardOf defaultHash numShards entry.1 = i) commitTs⟩
  | .batchApplyVersions entries =>
    ⟨fun i => (index.shards i).batchApplyVersions
      (entries.filter fun entry => shardOf defaultHash numShards entry.1 = i)⟩

def run (ops : List Op) : ShardedIndex numShards := ops.foldl (step defaultHash) index

end

/-- The snapshot is the pairs of the keys that `get` finds, each once, and `len` is their number. -/
structure Agrees (defaultHash : Key → UInt64) {numShards : Nat} (index : ShardedIndex numShards) : Prop where
  mem : ∀ key rowId, (key, rowId) ∈ snapshot index ↔ get defaultHash index key = some rowId
  nodup : (snapshot index).Nodup
  len : len index = (snapshot index).length

/-! ## Writes -/

structure Write where
  key : Key
  version : PrimaryIndexVersion
  latest : Option Nat

/-- An upsert leaves its row id even when that is the null row id. -/
def upsertWrite (key : Key) (rowId commitTs : Nat) : Write := ⟨key, ⟨rowId, commitTs⟩, some rowId⟩

def versionWrite (entry : IndexEntry) : Write := ⟨entry.1, entry.2, visibleRowId entry.2⟩

def Op.writes : Op → List Write
  | .upsertAt key rowId commitTs => [upsertWrite key rowId commitTs]
  | .removeAt key commitTs => [⟨key, PrimaryIndexVersion.tombstone commitTs, none⟩]
  | .batchUpsertAt entries commitTs => entries.map fun entry => upsertWrite entry.1 entry.2 commitTs
  | .batchApplyVersions entries => entries.map versionWrite

variable (writes : List Write)

def lastWrite (key : Key) : Option Write := writes.reverse.find? fun w => decide (w.key = key)

def newer (best : Option Write) (w : Write) : Option Write :=
  match best with
  | none => some w
  | some b => if w.version.commitTs < b.version.commitTs then some b else some w

def newestWrite (key : Key) : Option Write :=
  (writes.filter fun w => decide (w.key = key)).foldl newer none

/-- The last write of each key leaves what its newest write shows. -/
def LastIsNewest (ops : List Op) : Prop :=
  ∀ key, (lastWrite (ops.flatMap Op.writes) key).bind Write.latest =
    (newestWrite (ops.flatMap Op.writes) key).bind fun w => visibleRowId w.version

def applyWrite (shard : PrimaryIndexShard) (w : Write) : PrimaryIndexShard :=
  ⟨shard.histories.pushVersion w.key w.version, match w.latest with
    | some rowId => shard.latest.insertOrReplaceLatest w.key rowId
    | none => shard.latest.removeLatest w.key⟩

variable {defaultHash : Key → UInt64} {numShards : Nat} {index : ShardedIndex numShards}
  {shard : PrimaryIndexShard} {writes} {key : Key}

theorem batchInsertOrReplaceAt_eq (entries : List (Key × Nat)) (commitTs : Nat) :
    shard.batchInsertOrReplaceAt entries commitTs =
      (entries.map fun entry => upsertWrite entry.1 entry.2 commitTs).foldl applyWrite shard := by
  rw [foldl_map]
  rfl

theorem batchApplyVersions_eq (entries : List IndexEntry) :
    shard.batchApplyVersions entries = (entries.map versionWrite).foldl applyWrite shard := by
  rw [foldl_map, batchApplyVersions]
  congr 1
  funext shard entry
  rw [applyWrite, versionWrite]
  dsimp only [visibleRowId]
  split <;> rfl

def applyAll (defaultHash : Key → UInt64) (index : ShardedIndex numShards) (writes : List Write) :
    ShardedIndex numShards :=
  ⟨fun i => (writes.filter fun w => decide (shardOf defaultHash numShards w.key = i)).foldl applyWrite (index.shards i)⟩

theorem step_eq (op : Op) : step defaultHash index op = applyAll defaultHash index op.writes := by
  cases op with
  | upsertAt key rowId commitTs =>
    rw [step, onShard, applyAll, Op.writes]
    congr 1
    funext i
    by_cases h : shardOf defaultHash numShards key = i
    · simp only [upsertWrite, filter_cons, h]
      rfl
    · simp [upsertWrite, h]
  | removeAt key commitTs =>
    rw [step, onShard, applyAll, Op.writes]
    congr 1
    funext i
    by_cases h : shardOf defaultHash numShards key = i
    · simp only [filter_cons, h]
      rfl
    · simp [h]
  | batchUpsertAt entries commitTs =>
    rw [step, applyAll, Op.writes]
    congr 1
    funext i
    rw [batchInsertOrReplaceAt_eq, filter_map]
    rfl
  | batchApplyVersions entries =>
    rw [step, applyAll, Op.writes]
    congr 1
    funext i
    rw [batchApplyVersions_eq, filter_map]
    rfl

variable (ops : List Op)

theorem run_eq : run defaultHash index ops = applyAll defaultHash index (ops.flatMap Op.writes) := by
  induction ops generalizing index with
  | nil => rfl
  | cons op ops ih =>
    rw [run, foldl_cons, ← run, ih, step_eq, flatMap_cons, applyAll, applyAll, applyAll]
    simp only [filter_append, foldl_append]

/-! ## What a shard has after its writes -/

theorem row_foldl_apply (key : Key) :
    (writes.foldl applyWrite new).latest.row key = (lastWrite writes key).bind Write.latest := by
  induction writes using reverseRecOn with
  | nil =>
    show new.row key = none
    rw [row, bucketFor]
    split <;> rfl
  | append_singleton writes w ih =>
    rw [foldl_append, foldl_cons, foldl_nil, lastWrite, reverse_append, reverse_singleton,
      singleton_append, find?_cons, ← lastWrite, applyWrite]
    by_cases hkey : w.key = key
    · subst hkey
      cases hlatest : w.latest with
      | none => simp [row_removeLatest, hlatest]
      | some rowId => simp [row_insertOrReplaceLatest, hlatest]
    · have hne : ¬ key = w.key := fun h => hkey h.symm
      cases hlatest : w.latest with
      | none => simp [row_removeLatest, hkey, hne, ih]
      | some rowId => simp [row_insertOrReplaceLatest, hkey, hne, ih]

theorem newestWrite_concat (writes : List Write) (w : Write) (key : Key) : newestWrite (writes ++ [w]) key =
      if w.key = key then newer (newestWrite writes key) w else newestWrite writes key := by
  rw [newestWrite, filter_append, foldl_append, ← newestWrite, filter_cons, filter_nil]
  by_cases hkey : w.key = key
  · rw [if_pos hkey, if_pos (decide_eq_true hkey)]
    rfl
  · rw [if_neg hkey, if_neg (by simpa using hkey)]
    rfl

theorem latestVersion_foldl_apply (key : Key) :
    (writes.foldl applyWrite new).latestVersion key = (newestWrite writes key).map Write.version := by
  induction writes using reverseRecOn with
  | nil => rfl
  | append_singleton writes w ih =>
    rw [foldl_append, foldl_cons, foldl_nil, newestWrite_concat, applyWrite]
    show ((((writes.foldl applyWrite new).histories.pushVersion w.key w.version).history key).bind
      (·.chain.getLast?)) = _
    rw [history_pushVersion]
    by_cases hkey : w.key = key
    · subst hkey
      rw [if_pos rfl, Option.bind_some, getLast?_pushVersion]
      have hlast : (((writes.foldl applyWrite new).histories.history w.key).getD
          KeyHistory.empty).chain.getLast? = (newestWrite writes w.key).map Write.version := by
        rw [← ih, latestVersion]
        cases (writes.foldl applyWrite new).histories.history w.key <;> rfl
      rw [hlast, if_pos rfl]
      cases newestWrite writes w.key with
      | none => rfl
      | some best =>
        simp only [Option.map_some, newer]
        split <;> rfl
    · rw [if_neg fun h => hkey h.symm, if_neg hkey]
      exact ih

theorem counted_foldl_apply (writes : List Write) (h : shard.latest.Counted) :
    (writes.foldl applyWrite shard).latest.Counted := by
  refine writes.foldlRecOn (motive := (·.latest.Counted)) applyWrite h fun s h w _ => ?_
  rw [applyWrite]
  dsimp only
  split
  · exact h.insertOrReplaceLatest
  · exact h.removeLatest

/-! ## What the index has -/

variable {p : Write → Bool}

theorem lastWrite_filter (h : ∀ w : Write, w.key = key → p w = true) :
    lastWrite (writes.filter p) key = lastWrite writes key := by
  rw [lastWrite, lastWrite, ← filter_reverse, find?_filter]
  congr 1
  funext w
  by_cases hw : w.key = key
  · simp [hw, h w hw]
  · simp [hw]

theorem newestWrite_filter (h : ∀ w : Write, w.key = key → p w = true) :
    newestWrite (writes.filter p) key = newestWrite writes key := by
  rw [newestWrite, newestWrite, filter_filter]
  congr 2
  funext w
  by_cases hw : w.key = key
  · simp [hw, h w hw]
  · simp [hw]

/-- The maps of a shard know the keys of the shard only. -/
theorem row_run (i : Fin (max numShards 1)) : ((run defaultHash (withOptions numShards) ops).shards i).latest.row key =
      if shardOf defaultHash numShards key = i then
        (lastWrite (ops.flatMap Op.writes) key).bind Write.latest
      else none := by
  rw [run_eq]
  refine (row_foldl_apply key).trans ?_
  split
  · rename_i hshard
    rw [lastWrite_filter fun w hw => by simp [hw, hshard]]
  rename_i hshard
  have hnone : lastWrite ((ops.flatMap Op.writes).filter fun w =>
      decide (shardOf defaultHash numShards w.key = i)) key = none := by
    rw [lastWrite, find?_eq_none]
    intro w hw hkey
    have := (mem_filter.1 (mem_reverse.1 hw)).2
    rw [of_decide_eq_true hkey] at this
    exact hshard (of_decide_eq_true this)
  rw [hnone]
  rfl

theorem mem_snapshot_run (ops : List Op) {rowId : Nat} :
    (key, rowId) ∈ snapshot (run defaultHash (withOptions numShards) ops) ↔
      (lastWrite (ops.flatMap Op.writes) key).bind Write.latest = some rowId := by
  rw [snapshot, mem_flatMap]
  constructor
  · rintro ⟨i, -, hmem⟩
    have hrow := mem_snapshot.1 hmem
    rw [row_run] at hrow
    split at hrow
    · exact hrow
    · cases hrow
  · intro h
    refine ⟨shardOf defaultHash numShards key, mem_finRange _, mem_snapshot.2 ?_⟩
    rw [row_run, if_pos rfl, h]

theorem get_run : get defaultHash (run defaultHash (withOptions numShards) ops) key =
      (newestWrite (ops.flatMap Op.writes) key).bind fun w => visibleRowId w.version := by
  rw [get, run_eq]
  have h := @latestVersion_foldl_apply ((ops.flatMap Op.writes).filter fun w =>
    decide (shardOf defaultHash numShards w.key = shardOf defaultHash numShards key)) key
  rw [newestWrite_filter fun w hw => by simp [hw]] at h
  refine (congrArg (Option.bind · visibleRowId) h).trans ?_
  rw [Option.bind_map]
  rfl

theorem nodup_snapshot_run : (snapshot (run defaultHash (withOptions numShards) ops)).Nodup := by
  rw [snapshot, nodup_flatMap]
  refine ⟨fun i _ => nodup_rows _, ?_⟩
  -- a key is in the maps of its own shard
  have hshards : (finRange (max numShards 1)).Pairwise (· ≠ ·) := nodup_finRange _
  refine hshards.imp fun {i j} hne row hi hj => hne ?_
  have hrow : ∀ n, row ∈ ((run defaultHash (withOptions numShards) ops).shards n).latest.snapshot →
      shardOf defaultHash numShards row.1 = n := by
    intro n hn
    have := mem_snapshot.1 hn
    rw [row_run] at this
    split at this
    · assumption
    · cases this
  exact (hrow i hi).symm.trans (hrow j hj)

theorem len_run : len (run defaultHash (withOptions numShards) ops) =
      (snapshot (run defaultHash (withOptions numShards) ops)).length := by
  rw [len, snapshot, length_flatMap]
  congr 2
  funext i
  rw [run_eq]
  exact counted_foldl_apply _ counted_new

/-- **One view of the latest version**, for every run: the snapshot is the keys that `get` finds, with what it
finds, and `len` counts them, exactly when the last write of each key leaves what its newest write shows. -/
theorem snapshot_agrees_iff (defaultHash : Key → UInt64) (numShards : Nat) (ops : List Op) :
    Agrees defaultHash (run defaultHash (withOptions numShards) ops) ↔ LastIsNewest ops := by
  constructor
  · intro h key
    refine Option.ext fun rowId => ?_
    rw [← @mem_snapshot_run defaultHash numShards, h.mem, get_run]
  · intro h
    refine ⟨fun key rowId => ?_, nodup_snapshot_run ops, len_run ops⟩
    rw [mem_snapshot_run, get_run, h key]

/-- A row is written at timestamp 10 and an older one at 5 behind it: `get` finds the newer row, the snapshot has
the older one. -/
theorem snapshot_shows_older_write :
    ∃ index, run (fun _ => 0) (withOptions 4) [.upsertAt [1] 1 10, .upsertAt [1] 2 5] = index ∧
      get (fun _ => 0) index [1] = some 1 ∧ ([1], 2) ∈ snapshot index ∧ ¬ Agrees (fun _ => 0) index := by
  refine ⟨_, rfl, ?_⟩
  have hget : get (fun _ => 0) (run (fun _ => 0) (withOptions 4) [.upsertAt [1] 1 10, .upsertAt [1] 2 5]) [1] =
      some 1 := by
    rw [get_run]
    rfl
  have hmem : ([1], 2) ∈ snapshot (run (fun _ => 0) (withOptions 4) [.upsertAt [1] 1 10, .upsertAt [1] 2 5]) := by
    rw [mem_snapshot_run]
    rfl
  refine ⟨hget, hmem, fun h => ?_⟩
  rw [h.mem, hget] at hmem
  cases hmem

end Paro.L3.LatestView
