import Mathlib.Data.List.FinRange
import Paro.Core.Keyed
import Paro.L1Encoding.ImmutableIndex

/-!
# The in-memory primary index

Model of crates/storage/src/primary_key/primary_index.rs: sixteen shards by a hash of the key, each a map from
keys to version chains. A chain is kept in the order of its commit timestamps, one version for each
(`KeyHistory`), and a key is only in the shard of its hash (`PrimaryIndex.placed`).

`PrimaryIndex.table` is what the index says; every operation and every lookup is stated for it:
`table_batchApplyVersions`, `getVersionAt_latest`, `firstWriteInRange_first`,
`firstKeyRangeWriteInRange_first`, `table_snapshotVersions`.

The maps of the latest row ids (they serve `len` and `snapshot`), memory accounting and metrics are left out.
A hash map is a list of rows, and its iteration order is the order of that list.
`La-b` are lines of this file.
-/
namespace Paro.L2
open Versioned SortedList L1 List Option Keyed IsFirst PrimaryIndexVersion

/-! ## Chains -/

structure KeyHistory where
  chain : List PrimaryIndexVersion
  sorted : Sorted (·.commitTs) chain

namespace KeyHistory

def empty : KeyHistory := ⟨[], List.Pairwise.nil⟩

/-- The last version decides between appending, replacing it and searching. L406-425 -/
def push (chain : List PrimaryIndexVersion) (version : PrimaryIndexVersion) : List PrimaryIndexVersion :=
  match chain.getLast? with
  | none => chain ++ [version]
  | some stored =>
    if stored.commitTs < version.commitTs then chain ++ [version]
    else if stored.commitTs = version.commitTs then chain.dropLast ++ [version]
    else
      match binarySearchByKey (·.commitTs) version.commitTs chain with
      | .ok pos => chain.set pos version
      | .error pos => chain.insertIdx pos version

theorem push_eq {chain : List PrimaryIndexVersion} (h : Sorted (·.commitTs) chain)
    (version : PrimaryIndexVersion) : push chain version = insertBy (·.commitTs) version chain := by
  unfold push
  split
  · rename_i hnone
    rw [getLast?_eq_none_iff.1 hnone]
    rfl
  rename_i stored hlast
  obtain ⟨front, rfl⟩ := getLast?_eq_some_iff.1 hlast
  have hfront : ∀ b ∈ front, b.commitTs < stored.commitTs := fun b hb =>
    (pairwise_append.1 h).2.2 b hb stored (mem_singleton_self _)
  split
  · rename_i hlt
    exact (insertBy_of_lt (forall_mem_append.2
      ⟨fun b hb => lt_trans (hfront b hb) hlt, forall_mem_singleton.2 hlt⟩)).symm
  · split
    · rename_i heq
      rw [dropLast_concat]
      exact (insertBy_replace_last (fun b hb => heq ▸ hfront b hb) heq).symm
    · exact insertBy_eq_search.symm

variable (history : KeyHistory)

def pushVersion (version : PrimaryIndexVersion) : KeyHistory :=
  ⟨push history.chain version, push_eq history.sorted version ▸ sorted_insertBy history.sorted⟩

/-- L188-193 -/
def lookupVersionAt (readTs : Nat) : Option PrimaryIndexVersion :=
  let pos := partitionPoint (fun version => version.commitTs ≤ readTs) history.chain
  if pos = 0 then none else history.chain[pos - 1]?

/-- L1077-1090 -/
def firstVersionInRange (readTs commitTs : Nat) : Option PrimaryIndexVersion :=
  if commitTs ≤ readTs then none
  else
    let pos := partitionPoint (fun version => version.commitTs ≤ readTs) history.chain
    (history.chain[pos]?).filter fun version => version.commitTs ≤ commitTs

def version (t : Nat) : Option PrimaryIndexVersion :=
  history.chain.find? fun version => version.commitTs = t

variable {history} {T : Table Key PrimaryIndexVersion} {key : Key} {readTs commitTs t : Nat}
  {v : PrimaryIndexVersion} {i : Nat}

theorem version_iff : history.version t = some v ↔ v ∈ history.chain ∧ v.commitTs = t := by
  constructor
  · intro h
    exact ⟨mem_of_find?_eq_some h, by simpa using find?_some h⟩
  · intro ⟨hmem, ht⟩
    cases hfind : history.version t with
    | none =>
      have := find?_eq_none.1 hfind v hmem
      exact absurd ht (by simpa using this)
    | some w =>
      have hw : w.commitTs = t := by simpa using find?_some hfind
      rw [Sorted.eq_of_key history.sorted (mem_of_find?_eq_some hfind) hmem (hw.trans ht.symm)]

theorem version_eq_none : history.version t = none ↔ ∀ v ∈ history.chain, v.commitTs ≠ t := by
  simp [version, find?_eq_none]

@[simp] theorem version_empty : empty.version t = none := rfl

theorem version_pushVersion (v : PrimaryIndexVersion) :
    (history.pushVersion v).version t = if v.commitTs = t then some v else history.version t := by
  refine Option.ext fun w => ?_
  rw [version_iff]
  show w ∈ push history.chain v ∧ w.commitTs = t ↔ _
  rw [push_eq history.sorted, mem_insertBy history.sorted]
  split
  · rename_i ht
    constructor
    · intro ⟨hw, hwt⟩
      rcases hw with rfl | ⟨-, hne⟩
      · rfl
      · exact absurd (hwt.trans ht.symm) hne
    · intro hw
      obtain rfl := some.inj hw
      exact ⟨.inl rfl, ht⟩
  · rename_i ht
    have hnew : ¬(w = v ∧ w.commitTs = t) := fun h => ht (h.1 ▸ h.2)
    have hne : w ∈ history.chain ∧ w.commitTs = t → w.commitTs ≠ v.commitTs := fun h heq => ht (heq.symm.trans h.2)
    rw [version_iff, or_and_right, or_iff_right hnew, and_right_comm, and_iff_left_of_imp hne]

theorem lookupVersionAt_latest (hT : ∀ t, T key t = history.version t) :
    IsLatest (·.commitTs) T key readTs (history.lookupVersionAt readTs) := by
  obtain ⟨old, new, hchain, hpos, hold, hnew⟩ := history.sorted.exists_partition readTs
  unfold lookupVersionAt
  dsimp only
  rw [hpos]
  rcases eq_nil_or_concat' old with rfl | ⟨old, v, rfl⟩
  · intro t ht
    rw [hT, version_eq_none, hchain]
    intro w hw hwt
    have := hnew w hw
    omega
  · have hsorted := history.sorted
    rw [hchain] at hsorted
    have hlt := (pairwise_append.1 (pairwise_append.1 hsorted).1).2.2
    have hlast : history.chain[(old ++ [v]).length - 1]? = some v := by simp [hchain]
    rw [if_neg (by simp), hlast]
    refine ⟨hold v (by simp), ?_, fun t hvt hle => ?_⟩
    · rw [hT, version_iff, hchain]
      simp
    · rw [hT, version_eq_none, hchain]
      have hvt : v.commitTs < t := hvt
      intro w hw hwt
      rcases mem_append.1 hw with hw | hw
      · rcases mem_append.1 hw with hw | hw
        · have hwv : w.commitTs < v.commitTs := hlt w hw v (mem_singleton_self v)
          omega
        · obtain rfl := mem_singleton.1 hw
          omega
      · have := hnew w hw
        omega

theorem firstVersionInRange_first (hT : ∀ t, T key t = history.version t) :
    IsFirst (·.commitTs) T (· = key) readTs commitTs
      ((history.firstVersionInRange readTs commitTs).map fun version => (key, version)) := by
  unfold firstVersionInRange
  split
  · exact fun _ _ _ hlt hle => by omega
  obtain ⟨old, new, hchain, hpos, hold, hnew⟩ := history.sorted.exists_partition readTs
  dsimp only
  rw [hpos]
  have hsorted := history.sorted
  rw [hchain] at hsorted
  -- every version of the window is a new one
  have hmem : ∀ {t w}, readTs < t → T key t = some w → w ∈ new ∧ w.commitTs = t := by
    intro t w hlt hw
    rw [hT, version_iff, hchain, mem_append] at hw
    refine ⟨hw.1.resolve_left fun h => ?_, hw.2⟩
    have := hold w h
    omega
  have hfirst : history.chain[old.length]? = new.head? := by
    rw [hchain, getElem?_append_right le_rfl, Nat.sub_self, head?_eq_getElem?]
  rw [hfirst]
  cases new with
  | nil =>
    intro k t hk hlt _
    subst hk
    exact eq_none_iff_forall_ne_some.2 fun w hw => not_mem_nil (hmem hlt hw).1
  | cons v new =>
    have hmin : ∀ {t w}, readTs < t → T key t = some w → v.commitTs ≤ t := by
      intro t w hlt hw
      obtain ⟨hnew, rfl⟩ := hmem hlt hw
      rcases mem_cons.1 hnew with rfl | hw
      · exact le_rfl
      · exact le_of_lt ((pairwise_cons.1 (pairwise_append.1 hsorted).2.1).1 w hw)
    by_cases hin : v.commitTs ≤ commitTs
    · rw [head?_cons, filter_some, if_pos (by simpa using hin), map_some]
      refine ⟨rfl, hnew v mem_cons_self, hin, ?_, fun k t w hk hlt _ hw => ?_⟩
      · rw [hT, version_iff, hchain]
        simp
      · subst hk
        rcases lt_or_eq_of_le (hmin hlt hw) with hlt' | heq
        · exact .inl hlt'
        · exact .inr ⟨heq, le_rfl⟩
    · rw [head?_cons, filter_some, if_neg (by simpa using hin), map_none]
      intro k t hk hlt hle
      subst hk
      refine eq_none_iff_forall_ne_some.2 fun w hw => ?_
      have := hmin hlt hw
      omega

end KeyHistory

/-! ## Shards -/

/-- L142-148 -/
structure Shard where
  histories : List (Key × KeyHistory)
  unique : Keyed.Unique Prod.fst histories

namespace Shard

def empty : Shard := ⟨[], unique_nil⟩

variable (shard : Shard) (key : Key)

def history : Option KeyHistory :=
  (lookup Prod.fst key shard.histories).map (·.2)

/-- L401-441 -/
def pushVersion (version : PrimaryIndexVersion) : Shard where
  histories := put Prod.fst (key, ((shard.history key).getD KeyHistory.empty).pushVersion version) shard.histories
  unique := shard.unique.put

/-- The loop of `batch_insert_or_replace_at` and of `batch_apply_versions`: a tombstone and a live row are
pushed alike. L257-282 and 328-350 -/
def batchApplyVersions (entries : List IndexEntry) : Shard :=
  entries.foldl (fun shard e => shard.pushVersion e.1 e.2) shard

/-- L188-193 -/
def lookupVersionAt (readTs : Nat) : Option PrimaryIndexVersion :=
  (shard.history key).bind (·.lookupVersionAt readTs)

/-- L195-207 -/
def firstWriteForKeyInRange (readTs commitTs : Nat) : Option IndexEntry :=
  (shard.history key).bind fun history =>
    (history.firstVersionInRange readTs commitTs).map fun version => (key, version)

/-- L209-237 -/
def firstWriteForKeyRangeInRange (lower upper : Option Key) (readTs commitTs : Nat) : Option IndexEntry :=
  if commitTs ≤ readTs then none
  else
    shard.histories.foldl (fun best row =>
      selectEarlier (·.commitTs) best (if keyInBounds row.1 lower upper then
          (row.2.firstVersionInRange readTs commitTs).map fun version => (row.1, version)
        else none)) none

/-- L464-468 -/
def snapshotVersions : List IndexEntry :=
  shard.histories.flatMap fun row => row.2.chain.map fun version => (row.1, version)

def table : Table Key PrimaryIndexVersion :=
  fun key t => (shard.history key).bind (·.version t)

def rowTable (row : Key × KeyHistory) : Table Key PrimaryIndexVersion :=
  fun key t => if row.1 = key then row.2.version t else none

variable {shard} {key : Key} {readTs commitTs : Nat} {row : Key × KeyHistory}

theorem history_of_mem (h : row ∈ shard.histories) : shard.history row.1 = some row.2 := by
  rw [history, (mem_iff_lookup shard.unique).1 h]
  rfl

theorem mem_of_history {history : KeyHistory} (h : shard.history key = some history) :
    (key, history) ∈ shard.histories := by
  obtain ⟨row, hrow, rfl⟩ := map_eq_some_iff.1 h
  rw [← key_of_lookup hrow]
  exact mem_of_lookup hrow

theorem stack_rowTable : stack (shard.histories.map rowTable) = shard.table := by
  funext key t
  cases hhist : shard.history key with
  | none =>
    rw [table, hhist]
    refine stack_eq_none fun row hrow => if_neg fun hkey => ?_
    rw [← hkey, history_of_mem hrow] at hhist
    cases hhist
  | some history =>
    rw [stack_eq_single (mem_of_history hhist)]
    · simp [rowTable, table, hhist]
    · intro row hrow hne
      refine if_neg fun hkey => hne ?_
      have := history_of_mem hrow
      rw [hkey, hhist] at this
      rw [Prod.ext_iff]
      exact ⟨hkey, (some.inj this).symm⟩

theorem table_pushVersion (version : PrimaryIndexVersion) (key' : Key) (t : Nat) :
    (shard.pushVersion key version).table key' t =
      if key = key' ∧ version.commitTs = t then some version else shard.table key' t := by
  have hhist : (shard.pushVersion key version).history key' =
      if key' = key then some (((shard.history key).getD KeyHistory.empty).pushVersion version)
      else shard.history key' := by
    rw [history, pushVersion, lookup_put]
    split <;> rfl
  rw [table, hhist]
  by_cases hkey : key' = key
  · subst hkey
    rw [if_pos rfl, bind_some, KeyHistory.version_pushVersion, table]
    cases shard.history key' <;> simp
  · rw [if_neg hkey, if_neg fun h => hkey h.1.symm, table]

theorem table_batchApplyVersions (entries : List IndexEntry) :
    (shard.batchApplyVersions entries).table = override (ofEntries (·.commitTs) entries.reverse) shard.table := by
  induction entries generalizing shard with
  | nil => exact (empty_override _).symm
  | cons e entries ih =>
    rw [batchApplyVersions, foldl_cons, ← batchApplyVersions, ih, reverse_cons, ofEntries_append, override_assoc]
    congr 1
    funext key t
    rw [table_pushVersion, override, ofEntries_cons]
    split <;> rfl

theorem mem_pushVersion {version : PrimaryIndexVersion}
    (h : row ∈ (shard.pushVersion key version).histories) : row.1 = key ∨ ∃ old ∈ shard.histories, old.1 = row.1 := by
  have hhist := history_of_mem h
  rw [history, pushVersion, lookup_put] at hhist
  split at hhist
  · rename_i hkey
    exact .inl hkey
  · exact .inr ⟨_, mem_of_history hhist, rfl⟩

theorem mem_batchApplyVersions {entries : List IndexEntry} (h : row ∈ (shard.batchApplyVersions entries).histories) :
    (∃ e ∈ entries, e.1 = row.1) ∨ ∃ old ∈ shard.histories, old.1 = row.1 := by
  induction entries generalizing shard with
  | nil => exact .inr ⟨row, h, rfl⟩
  | cons e entries ih =>
    rcases ih h with ⟨d, hd, hkey⟩ | ⟨old, hold, hkey⟩
    · exact .inl ⟨d, mem_cons_of_mem e hd, hkey⟩
    · rcases mem_pushVersion hold with heq | ⟨old', hold', heq⟩
      · exact .inl ⟨e, mem_cons_self, heq.symm.trans hkey⟩
      · exact .inr ⟨old', hold', heq.trans hkey⟩

theorem lookupVersionAt_latest : IsLatest (·.commitTs) shard.table key readTs (shard.lookupVersionAt key readTs) := by
  unfold lookupVersionAt
  cases hhist : shard.history key with
  | none => exact IsLatest.of_absent fun t => by rw [table, hhist]; rfl
  | some history => exact KeyHistory.lookupVersionAt_latest fun t => by rw [table, hhist]; rfl

theorem firstWriteForKeyInRange_first : IsFirst (·.commitTs) shard.table (· = key) readTs commitTs
      (shard.firstWriteForKeyInRange key readTs commitTs) := by
  unfold firstWriteForKeyInRange
  cases hhist : shard.history key with
  | none =>
    refine of_absent fun k hk t => ?_
    rw [hk, table, hhist]
    rfl
  | some history => exact KeyHistory.firstVersionInRange_first fun t => by rw [table, hhist]; rfl

theorem firstWriteForKeyRangeInRange_first (lower upper : Option Key) :
    IsFirst (·.commitTs) shard.table (keyInBounds · lower upper = true) readTs commitTs
      (shard.firstWriteForKeyRangeInRange lower upper readTs commitTs) := by
  unfold firstWriteForKeyRangeInRange
  split
  · exact fun _ _ _ hlt hle => by omega
  rw [← stack_rowTable, ← empty_override (stack _)]
  refine foldl_layers (IsFirst _ · _ _ _ ·) select (of_absent fun _ _ _ => rfl) fun row _ => ?_
  split
  · rename_i hbounds
    have hfirst := @KeyHistory.firstVersionInRange_first row.2 (rowTable row) row.1 readTs commitTs
      fun t => if_pos rfl
    refine hfirst.widen (fun k hk => hk ▸ hbounds) fun k _ hne t => if_neg fun hkey => hne hkey.symm
  · rename_i hbounds
    refine of_absent fun k hk t => if_neg fun hkey : row.1 = k => hbounds (hkey ▸ hk)

end Shard

/-! ## The index -/

/-- L27 -/
def shardCount : Nat := 16

section
variable (defaultHash : Key → UInt64)

/-- L1012-1016 -/
def shardFor (key : Key) : Fin shardCount := ⟨(defaultHash key).toNat % shardCount, Nat.mod_lt _ (by decide)⟩

/-- L504-511 -/
structure PrimaryIndex where
  shards : Fin shardCount → Shard
  placed : ∀ i, ∀ row ∈ (shards i).histories, shardFor defaultHash row.1 = i

namespace PrimaryIndex
variable {defaultHash}

/-- L552-554 -/
def new : PrimaryIndex defaultHash := ⟨fun _ => Shard.empty, fun _ row hrow => by cases hrow⟩

variable (index : PrimaryIndex defaultHash)

/-- The entries are grouped by shard, and each shard takes its group. L773-799 -/
def batchApplyVersions (entries : List IndexEntry) : PrimaryIndex defaultHash where
  shards i := (index.shards i).batchApplyVersions (entries.filter fun e => shardFor defaultHash e.1 = i)
  placed i row hrow := by
    rcases Shard.mem_batchApplyVersions hrow with ⟨e, he, hkey⟩ | ⟨old, hold, hkey⟩
    · rw [← hkey]
      exact of_decide_eq_true (mem_filter.1 he).2
    · rw [← hkey]
      exact index.placed i old hold

/-- L741-771 -/
def batchUpsertAt (entries : List (Key × Nat)) (commitTs : Nat) : PrimaryIndex defaultHash :=
  index.batchApplyVersions (entries.map fun e => (e.1, ⟨e.2, commitTs⟩))

variable (key : Key)

/-- L722-730 -/
def removeAt (commitTs : Nat) : PrimaryIndex defaultHash where
  shards i :=
    if shardFor defaultHash key = i then
      (index.shards i).pushVersion key (tombstone commitTs)
    else index.shards i
  placed i row hrow := by
    split at hrow
    · rename_i hi
      rcases Shard.mem_pushVersion hrow with heq | ⟨old, hold, hkey⟩
      · rw [heq, hi]
      · rw [← hkey]
        exact index.placed i old hold
    · exact index.placed i row hrow

/-- L607-617 -/
def getVersionAt (readTs : Nat) : Option PrimaryIndexVersion :=
  (index.shards (shardFor defaultHash key)).lookupVersionAt key readTs

/-- L938-951 -/
def firstWriteInRange (readTs commitTs : Nat) : Option IndexEntry :=
  if commitTs ≤ readTs then none
  else (index.shards (shardFor defaultHash key)).firstWriteForKeyInRange key readTs commitTs

/-- L987-1008 -/
def firstKeyRangeWriteInRange (lower upper : Option Key) (readTs commitTs : Nat) : Option IndexEntry :=
  if commitTs ≤ readTs then none
  else
    (finRange shardCount).foldl (fun best i =>
      selectEarlier (·.commitTs) best ((index.shards i).firstWriteForKeyRangeInRange lower upper readTs commitTs)) none

/-- L918-925 -/
def snapshotVersions : List IndexEntry := (finRange shardCount).flatMap fun i => (index.shards i).snapshotVersions

def table : Table Key PrimaryIndexVersion :=
  fun key t => (index.shards (shardFor defaultHash key)).table key t

variable {index} {key : Key} {readTs commitTs : Nat}

theorem table_new : (new : PrimaryIndex defaultHash).table = empty := rfl

theorem table_batchApplyVersions (entries : List IndexEntry) :
    (index.batchApplyVersions entries).table = override (ofEntries (·.commitTs) entries.reverse) index.table := by
  funext key t
  show ((index.shards (shardFor defaultHash key)).batchApplyVersions _).table key t = _
  rw [Shard.table_batchApplyVersions, override, override, ← filter_reverse,
    ofEntries_filter fun w => decide_eq_true rfl]
  rfl

theorem table_batchUpsertAt (entries : List (Key × Nat)) (commitTs : Nat) :
    (index.batchUpsertAt entries commitTs).table =
      override (ofEntries (·.commitTs) (entries.map fun e => (e.1, ⟨e.2, commitTs⟩)).reverse) index.table :=
  table_batchApplyVersions _

theorem table_removeAt (key : Key) (commitTs : Nat) : (index.removeAt key commitTs).table =
      override (ofEntries (·.commitTs) [(key, tombstone commitTs)]) index.table := by
  funext key' t
  simp only [table, removeAt, override, ofEntries_cons, ofEntries_nil]
  split
  · rw [Shard.table_pushVersion]
    split <;> rfl
  · rename_i hne
    rw [if_neg fun h => hne (by rw [h.1])]
    rfl

/-- A shard has nothing of the keys of another one. -/
theorem table_other {i : Fin shardCount} (h : shardFor defaultHash key ≠ i) (t : Nat) :
    (index.shards i).table key t = none := by
  cases hhist : (index.shards i).history key with
  | none => rw [Shard.table, hhist]; rfl
  | some history => exact absurd (index.placed i _ (Shard.mem_of_history hhist)) h

theorem stack_shards : stack ((finRange shardCount).map fun i => (index.shards i).table) = index.table := by
  funext key t
  exact stack_eq_single (a := shardFor defaultHash key) (mem_finRange _)
    fun i _ hne => table_other (fun h => hne h.symm) t

theorem getVersionAt_latest : IsLatest (·.commitTs) index.table key readTs (index.getVersionAt key readTs) :=
  Shard.lookupVersionAt_latest.congr fun _ => rfl

theorem firstWriteInRange_first :
    IsFirst (·.commitTs) index.table (· = key) readTs commitTs (index.firstWriteInRange key readTs commitTs) := by
  unfold firstWriteInRange
  split
  · exact fun _ _ _ hlt hle => by omega
  · refine Shard.firstWriteForKeyInRange_first.congr fun k hk t => ?_
    rw [hk]
    rfl

theorem firstKeyRangeWriteInRange_first (lower upper : Option Key) :
    IsFirst (·.commitTs) index.table (keyInBounds · lower upper = true) readTs commitTs
      (index.firstKeyRangeWriteInRange lower upper readTs commitTs) := by
  unfold firstKeyRangeWriteInRange
  split
  · exact fun _ _ _ hlt hle => by omega
  · rw [← stack_shards, ← empty_override (stack _)]
    exact foldl_layers (IsFirst _ · _ _ _ ·) select (of_absent fun _ _ _ => rfl) fun i _ =>
      Shard.firstWriteForKeyRangeInRange_first lower upper

theorem table_snapshotVersions : ofEntries (·.commitTs) index.snapshotVersions = index.table := by
  rw [snapshotVersions, ← stack_ofEntries, ← stack_shards]
  congr 2
  funext i
  rw [Shard.snapshotVersions, ← stack_ofEntries, ← Shard.stack_rowTable]
  congr 2
  funext row key t
  rw [ofEntries, find?_map, Option.map_map, Shard.rowTable, KeyHistory.version]
  by_cases hkey : row.1 = key <;> simp [hkey, Function.comp_def]

theorem key_mem_snapshotVersions {shard : Shard} {e : IndexEntry} (h : e ∈ shard.snapshotVersions) :
    ∃ row ∈ shard.histories, row.1 = e.1 := by
  obtain ⟨row, hrow, he⟩ := mem_flatMap.1 h
  obtain ⟨version, -, rfl⟩ := mem_map.1 he
  exact ⟨row, hrow, rfl⟩

theorem unique_snapshotVersions : Versioned.Unique (·.commitTs) index.snapshotVersions := by
  rw [Versioned.Unique, List.Nodup, pairwise_map, snapshotVersions, pairwise_flatMap]
  refine ⟨fun i _ => ?_, ?_⟩
  · rw [Shard.snapshotVersions, pairwise_flatMap]
    refine ⟨fun row _ => ?_, ?_⟩
    · -- within a chain the timestamps differ
      rw [pairwise_map]
      refine row.2.sorted.imp fun {a b} hlt heq => ?_
      exact absurd (Prod.ext_iff.1 heq).2 (ne_of_lt hlt)
    · -- within a shard the keys differ
      have hkeys := pairwise_map.1 (index.shards i).unique
      refine hkeys.imp fun {a b} hne x hx y hy heq => ?_
      obtain ⟨v, -, rfl⟩ := mem_map.1 hx
      obtain ⟨w, -, rfl⟩ := mem_map.1 hy
      exact hne (Prod.ext_iff.1 heq).1
  · -- a key is in one shard
    have hshards := nodup_finRange shardCount
    refine hshards.imp fun {i j} hne x hx y hy heq => ?_
    obtain ⟨a, ha, hax⟩ := key_mem_snapshotVersions hx
    obtain ⟨b, hb, hby⟩ := key_mem_snapshotVersions hy
    have hkey : a.1 = b.1 := hax.trans ((Prod.ext_iff.1 heq).1.trans hby.symm)
    exact hne (by rw [← index.placed i a ha, ← index.placed j b hb, hkey])

end PrimaryIndex
end

end Paro.L2
