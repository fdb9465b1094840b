import Mathlib.Data.List.Perm.Basic
import Paro.L2Machine.PrimaryIndex

/-!
# The latest rows of a primary index shard

Model of the part of `PrimaryIndexShard` (crates/storage/src/primary_key/primary_index.rs) that `len` and
`snapshot` read: maps from keys to row ids, one for each key length up to `INLINE_KEY_MAX_BYTES` and one for each
longer length that occurs, and a count. Beside them stand the version chains (`Shard`), from which `lookup`
answers.

`LatestRows.row` is what the maps say. Each write changes it at its own key (`row_insertOrReplaceLatest`,
`row_removeLatest`), a snapshot lists it (`mem_snapshot`, `nodup_snapshot`) and the count is the length of the
snapshot (`Counted`).

A `FixedKey` is its bytes: keys are compared within one map, where all have one length.
`La-b` are lines of this file.
-/
namespace Paro.L2
open Versioned SortedList L1 List Keyed Function Option Nat KeyHistory

/-- L29 -/
def inlineKeyMaxBytes : Nat := 32

structure Bucket where
  rows : List (Key × Nat)
  unique : Keyed.Unique Prod.fst rows

namespace Bucket

def empty : Bucket := ⟨[], unique_nil⟩

variable (bucket : Bucket)

def get (key : Key) : Option Nat := (lookup Prod.fst key bucket.rows).map (·.2)

def insert (key : Key) (rowId : Nat) : Bucket :=
  ⟨put Prod.fst (key, rowId) bucket.rows, bucket.unique.put⟩

def remove (key : Key) : Bucket := ⟨drop Prod.fst key bucket.rows, bucket.unique.drop⟩

variable {bucket} {key k : Key} {rowId : Nat}

@[simp] theorem get_empty : empty.get k = none := rfl

theorem get_insert : (bucket.insert key rowId).get k = if k = key then some rowId else bucket.get k := by
  rw [get, insert, lookup_put]
  split <;> rfl

theorem get_remove : (bucket.remove key).get k = if k = key then none else bucket.get k := by
  rw [get, remove, lookup_drop]
  split <;> rfl

theorem mem_rows : (k, rowId) ∈ bucket.rows ↔ bucket.get k = some rowId := by
  rw [mem_iff_lookup bucket.unique, get]
  constructor
  · intro h
    rw [h]
    rfl
  · intro h
    obtain ⟨row, hrow, rfl⟩ := map_eq_some_iff.1 h
    rw [hrow, ← key_of_lookup hrow]

theorem get_of_rows_nil (h : bucket.rows = []) : bucket.get k = none := by
  rw [get, h]
  rfl

variable {p : Key → Prop}

/-- A property of keys that the map and a new key have. -/
theorem forall_insert (h : ∀ row ∈ bucket.rows, p row.1) (hkey : p key) :
    ∀ row ∈ (bucket.insert key rowId).rows, p row.1 := by
  intro row hrow
  have hget : (bucket.insert key rowId).get row.1 = some row.2 := mem_rows.1 hrow
  rw [get_insert] at hget
  split at hget
  · rename_i heq
    exact heq ▸ hkey
  · exact h row (mem_rows.2 hget)

theorem forall_remove (h : ∀ row ∈ bucket.rows, p row.1) :
    ∀ row ∈ (bucket.remove key).rows, p row.1 := fun row hrow => h row (mem_of_mem_filter hrow)

end Bucket

/-- L142-148 without the chains and the memory accounting -/
structure LatestRows where
  fixedBuckets : Fin (inlineKeyMaxBytes + 1) → Bucket
  overflowBuckets : List (Nat × Bucket)
  len : Nat
  unique : Keyed.Unique Prod.fst overflowBuckets
  fixedLength : ∀ i, ∀ row ∈ (fixedBuckets i).rows, row.1.length = i.val
  overflowLength : ∀ entry ∈ overflowBuckets,
    inlineKeyMaxBytes < entry.1 ∧ ∀ row ∈ entry.2.rows, row.1.length = entry.1

namespace LatestRows

/-- L157-171 -/
def new : LatestRows where
  fixedBuckets _ := Bucket.empty
  overflowBuckets := []
  len := 0
  unique := unique_nil
  fixedLength _ _ h := absurd h not_mem_nil
  overflowLength _ h := absurd h not_mem_nil

variable (latest : LatestRows)

def overflowBucket (length : Nat) : Option Bucket :=
  (lookup Prod.fst length latest.overflowBuckets).map (·.2)

def bucketFor (key : Key) : Bucket :=
  if h : key.length ≤ inlineKeyMaxBytes then latest.fixedBuckets ⟨key.length, lt_succ_of_le h⟩
  else (latest.overflowBucket key.length).getD Bucket.empty

def row (key : Key) : Option Nat := (latest.bucketFor key).get key

variable {latest} {key k : Key} {rowId : Nat} {bucket : Bucket} {len : Nat}

theorem mem_of_overflowBucket {length : Nat} (h : latest.overflowBucket length = some bucket) :
    (length, bucket) ∈ latest.overflowBuckets := by
  obtain ⟨entry, hentry, rfl⟩ := map_eq_some_iff.1 h
  rw [← key_of_lookup hentry]
  exact mem_of_lookup hentry

theorem overflowBucket_of_mem {entry : Nat × Bucket} (h : entry ∈ latest.overflowBuckets) :
    latest.overflowBucket entry.1 = some entry.2 := by
  rw [overflowBucket, (mem_iff_lookup latest.unique).1 h]
  rfl

variable (latest)

def setFixed (i : Fin (inlineKeyMaxBytes + 1)) (bucket : Bucket) (len : Nat)
    (h : ∀ row ∈ bucket.rows, row.1.length = i.val) : LatestRows where
  fixedBuckets := update latest.fixedBuckets i bucket
  overflowBuckets := latest.overflowBuckets
  len
  unique := latest.unique
  fixedLength j := by
    by_cases hj : j = i
    · subst hj
      rwa [update_self]
    · rw [update_of_ne hj]
      exact latest.fixedLength j
  overflowLength := latest.overflowLength

def setOverflow (length : Nat) (bucket : Bucket) (len : Nat) (hlong : inlineKeyMaxBytes < length)
    (h : ∀ row ∈ bucket.rows, row.1.length = length) : LatestRows where
  fixedBuckets := latest.fixedBuckets
  overflowBuckets := put Prod.fst (length, bucket) latest.overflowBuckets
  len
  unique := latest.unique.put
  fixedLength := latest.fixedLength
  overflowLength entry hentry := by
    have hlookup := (mem_iff_lookup latest.unique.put).1 hentry
    rw [lookup_put] at hlookup
    split at hlookup
    · obtain rfl := Option.some.inj hlookup
      exact ⟨hlong, h⟩
    · exact latest.overflowLength entry (mem_of_lookup hlookup)

def dropOverflow (length len : Nat) : LatestRows where
  fixedBuckets := latest.fixedBuckets
  overflowBuckets := drop Prod.fst length latest.overflowBuckets
  len
  unique := latest.unique.drop
  fixedLength := latest.fixedLength
  overflowLength entry hentry := latest.overflowLength entry (mem_of_mem_filter hentry)

theorem bucketFor_length (key : Key) : ∀ row ∈ (latest.bucketFor key).rows, row.1.length = key.length := by
  unfold bucketFor
  split
  · exact latest.fixedLength _
  · cases hbucket : latest.overflowBucket key.length with
    | none => exact fun _ h => absurd h not_mem_nil
    | some bucket => exact (latest.overflowLength _ (mem_of_overflowBucket hbucket)).2

/-- L284-316 -/
def insertOrReplaceLatest (key : Key) (rowId : Nat) : LatestRows :=
  let old := latest.row key
  let len := if old.isNone then latest.len + 1 else latest.len
  let bucket := (latest.bucketFor key).insert key rowId
  have hlength : ∀ row ∈ bucket.rows, row.1.length = key.length :=
    Bucket.forall_insert (p := fun k => k.length = key.length) (latest.bucketFor_length key) rfl
  if h : key.length ≤ inlineKeyMaxBytes then
    latest.setFixed ⟨key.length, lt_succ_of_le h⟩ bucket len hlength
  else latest.setOverflow key.length bucket len (Nat.lt_of_not_le h) hlength

/-- L352-399 -/
def removeLatest (key : Key) : LatestRows :=
  let removed := latest.row key
  let len := if removed.isSome then latest.len - 1 else latest.len
  let bucket := (latest.bucketFor key).remove key
  have hlength : ∀ row ∈ bucket.rows, row.1.length = key.length :=
    Bucket.forall_remove (p := fun k => k.length = key.length) (latest.bucketFor_length key)
  if h : key.length ≤ inlineKeyMaxBytes then
    latest.setFixed ⟨key.length, lt_succ_of_le h⟩ bucket len hlength
  else if (latest.overflowBucket key.length).isNone then latest
  -- a map that has become empty is removed
  else if removed.isSome ∧ bucket.rows = [] then latest.dropOverflow key.length len
  else latest.setOverflow key.length bucket len (Nat.lt_of_not_le h) hlength

/-- L455-462 -/
def snapshot : List (Key × Nat) :=
  (List.finRange (inlineKeyMaxBytes + 1)).flatMap (fun i => (latest.fixedBuckets i).rows) ++
    latest.overflowBuckets.flatMap fun entry => entry.2.rows

variable {latest}

theorem bucketFor_setFixed (h : key.length ≤ inlineKeyMaxBytes)
    (hlength : ∀ row ∈ bucket.rows, row.1.length = key.length) :
    (latest.setFixed ⟨key.length, lt_succ_of_le h⟩ bucket len hlength).bucketFor k =
      if k.length = key.length then bucket else latest.bucketFor k := by
  unfold bucketFor setFixed
  by_cases hk : k.length ≤ inlineKeyMaxBytes
  · rw [dif_pos hk, dif_pos hk]
    dsimp only
    rw [update_apply]
    simp only [Fin.mk.injEq]
  · rw [dif_neg hk, dif_neg hk, if_neg (by omega)]
    rfl

theorem bucketFor_setOverflow (h : inlineKeyMaxBytes < key.length)
    (hlength : ∀ row ∈ bucket.rows, row.1.length = key.length) :
    (latest.setOverflow key.length bucket len h hlength).bucketFor k =
      if k.length = key.length then bucket else latest.bucketFor k := by
  unfold bucketFor setOverflow
  by_cases hk : k.length ≤ inlineKeyMaxBytes
  · rw [dif_pos hk, dif_pos hk, if_neg (by omega)]
  · rw [dif_neg hk, dif_neg hk, overflowBucket, lookup_put]
    split <;> rfl

theorem bucketFor_dropOverflow (h : inlineKeyMaxBytes < key.length) : (latest.dropOverflow key.length len).bucketFor k =
      if k.length = key.length then Bucket.empty else latest.bucketFor k := by
  unfold bucketFor dropOverflow
  by_cases hk : k.length ≤ inlineKeyMaxBytes
  · rw [dif_pos hk, dif_pos hk, if_neg (by omega)]
  · rw [dif_neg hk, dif_neg hk, overflowBucket, lookup_drop]
    split <;> rfl

/-- Keys of one length share a map. -/
theorem bucketFor_congr (h : k.length = key.length) : latest.bucketFor k = latest.bucketFor key := by
  unfold bucketFor
  simp only [h]

theorem row_insertOrReplaceLatest :
    (latest.insertOrReplaceLatest key rowId).row k = if k = key then some rowId else latest.row k := by
  have hbucket : (latest.insertOrReplaceLatest key rowId).bucketFor k =
      if k.length = key.length then (latest.bucketFor key).insert key rowId else latest.bucketFor k := by
    unfold insertOrReplaceLatest
    dsimp only
    split
    · rename_i hshort
      exact bucketFor_setFixed hshort _
    · exact bucketFor_setOverflow _ _
  rw [row, hbucket, row]
  split
  · rename_i hlen
    rw [Bucket.get_insert, bucketFor_congr hlen]
  · rename_i hlen
    rw [if_neg fun heq : k = key => hlen (heq ▸ rfl)]

theorem row_removeLatest : (latest.removeLatest key).row k = if k = key then none else latest.row k := by
  have hget : ((latest.removeLatest key).bucketFor k).get k =
      (if k.length = key.length then (latest.bucketFor key).remove key else latest.bucketFor k).get k := by
    unfold removeLatest
    dsimp only
    split
    · rename_i hshort
      rw [bucketFor_setFixed hshort]
    rename_i hlong
    split
    · -- there is no map for the length, so there is nothing to remove
      rename_i hnone
      split
      · rename_i hlen
        rw [Bucket.get_remove, bucketFor_congr hlen, bucketFor, dif_neg hlong,
          isNone_iff_eq_none.1 hnone, getD_none, Bucket.get_empty, ite_self]
      · rfl
    · split
      · rename_i hempty
        rw [bucketFor_dropOverflow (Nat.lt_of_not_le hlong)]
        split
        · exact (Bucket.get_of_rows_nil hempty.2).symm
        · rfl
      · rw [bucketFor_setOverflow]
  rw [row, hget, row]
  split
  · rename_i hlen
    rw [Bucket.get_remove, bucketFor_congr hlen]
  · rename_i hlen
    rw [if_neg fun heq : k = key => hlen (heq ▸ rfl)]

theorem mem_snapshot : (k, rowId) ∈ latest.snapshot ↔ latest.row k = some rowId := by
  rw [snapshot, mem_append, mem_flatMap, mem_flatMap, row, ← Bucket.mem_rows]
  constructor
  · rintro (⟨i, -, hmem⟩ | ⟨entry, hentry, hmem⟩)
    · have hlen : k.length = i.val := latest.fixedLength i _ hmem
      have hi : k.length ≤ inlineKeyMaxBytes := by omega
      rw [bucketFor, dif_pos hi]
      obtain rfl : i = ⟨k.length, lt_succ_of_le hi⟩ := Fin.ext hlen.symm
      exact hmem
    · obtain ⟨hlong, hrows⟩ := latest.overflowLength entry hentry
      have hlen : k.length = entry.1 := hrows _ hmem
      rw [bucketFor, dif_neg (by omega), hlen, overflowBucket_of_mem hentry]
      exact hmem
  · intro hmem
    unfold bucketFor at hmem
    split at hmem
    · exact .inl ⟨_, mem_finRange _, hmem⟩
    · cases hbucket : latest.overflowBucket k.length with
      | none =>
        rw [hbucket] at hmem
        cases hmem
      | some bucket =>
        rw [hbucket] at hmem
        exact .inr ⟨_, mem_of_overflowBucket hbucket, hmem⟩

variable (latest)

theorem nodup_snapshot : (latest.snapshot.map Prod.fst).Nodup := by
  rw [List.Nodup, pairwise_map, snapshot, pairwise_append, pairwise_flatMap, pairwise_flatMap]
  refine ⟨⟨fun i _ => pairwise_map.1 (latest.fixedBuckets i).unique, ?_⟩,
    ⟨fun entry _ => pairwise_map.1 entry.2.unique, ?_⟩, ?_⟩
  · -- keys of different maps have different lengths
    have hdistinct : (finRange (inlineKeyMaxBytes + 1)).Pairwise (· ≠ ·) := nodup_finRange _
    refine hdistinct.imp fun {i j} hne a ha b hb heq => hne (Fin.ext ?_)
    rw [← latest.fixedLength i a ha, ← latest.fixedLength j b hb, heq]
  · have hdistinct : latest.overflowBuckets.Pairwise fun a b => a.1 ≠ b.1 := pairwise_map.1 latest.unique
    refine hdistinct.imp_of_mem fun {c d} hc hd hne a ha b hb heq => hne ?_
    rw [← (latest.overflowLength c hc).2 a ha, ← (latest.overflowLength d hd).2 b hb, heq]
  · intro a ha b hb heq
    obtain ⟨i, -, ha⟩ := mem_flatMap.1 ha
    obtain ⟨entry, hentry, hb⟩ := mem_flatMap.1 hb
    have hi := latest.fixedLength i a ha
    obtain ⟨hlong, hrows⟩ := latest.overflowLength entry hentry
    have hlen := hrows b hb
    rw [heq] at hi
    omega

def Counted : Prop := latest.len = latest.snapshot.length

theorem counted_new : new.Counted := by
  have hnil : new.snapshot = [] := by
    refine eq_nil_iff_forall_not_mem.2 fun row hrow => ?_
    have hnone : new.row row.1 = none := by
      rw [LatestRows.row, bucketFor]
      split <;> rfl
    rw [mem_snapshot.1 hrow] at hnone
    cases hnone
  rw [Counted, hnil]
  rfl

theorem nodup_rows : latest.snapshot.Nodup := List.Nodup.of_map Prod.fst latest.nodup_snapshot

variable {latest}

/-- The maps have one row more when they have a new key. -/
theorem length_of_new_row {bigger : LatestRows} (hfresh : latest.row key = none) (hrow : bigger.row key = some rowId)
    (hother : ∀ k, k ≠ key → bigger.row k = latest.row k) : bigger.snapshot.length = latest.snapshot.length + 1 := by
  have hnew : (key, rowId) ∉ latest.snapshot := by
    rw [mem_snapshot, hfresh]
    nofun
  refine @List.Perm.length_eq _ _ ((key, rowId) :: latest.snapshot) ?_
  refine (perm_ext_iff_of_nodup bigger.nodup_rows (nodup_cons.2 ⟨hnew, latest.nodup_rows⟩)).2 ?_
  intro ⟨k, r⟩
  rw [mem_snapshot, mem_cons, mem_snapshot, Prod.mk.injEq]
  by_cases hk : k = key
  · subst hk
    rw [hrow, hfresh]
    simp [eq_comm]
  · rw [hother k hk]
    simp [hk]

/-- The maps have as many rows as before when they have the same keys. -/
theorem length_of_same_keys {other : LatestRows} (h : ∀ k, (other.row k).isSome = (latest.row k).isSome) :
    other.snapshot.length = latest.snapshot.length := by
  have hmem : ∀ (l : LatestRows) k, k ∈ l.snapshot.map Prod.fst ↔ (l.row k).isSome := by
    intro l k
    rw [List.mem_map, isSome_iff_exists]
    constructor
    · rintro ⟨row, hrow, rfl⟩
      exact ⟨row.2, mem_snapshot.1 hrow⟩
    · rintro ⟨r, hr⟩
      exact ⟨(k, r), mem_snapshot.2 hr, rfl⟩
  have hperm : (other.snapshot.map Prod.fst).Perm (latest.snapshot.map Prod.fst) := by
    refine (perm_ext_iff_of_nodup other.nodup_snapshot latest.nodup_snapshot).2 fun k => ?_
    rw [hmem, hmem, h]
  simpa using hperm.length_eq

theorem len_insertOrReplaceLatest : (latest.insertOrReplaceLatest key rowId).len =
      if (latest.row key).isNone then latest.len + 1 else latest.len := by
  unfold insertOrReplaceLatest
  dsimp only
  split <;> rfl

theorem len_removeLatest :
    (latest.removeLatest key).len = if (latest.row key).isSome then latest.len - 1 else latest.len := by
  unfold removeLatest
  dsimp only
  split
  · rfl
  rename_i hlong
  split
  · rename_i hnone
    have hrow : latest.row key = none := by
      rw [row, bucketFor, dif_neg hlong, isNone_iff_eq_none.1 hnone]
      rfl
    rw [hrow]
    rfl
  · split <;> rfl

theorem Counted.insertOrReplaceLatest (h : latest.Counted) : (latest.insertOrReplaceLatest key rowId).Counted := by
  rw [Counted, len_insertOrReplaceLatest]
  rw [Counted] at h
  cases hrow : latest.row key with
  | none =>
    rw [length_of_new_row hrow (show (latest.insertOrReplaceLatest key rowId).row key = some rowId by
      rw [row_insertOrReplaceLatest, if_pos rfl])
      fun k hk => by rw [row_insertOrReplaceLatest, if_neg hk], h]
    rfl
  | some old =>
    rw [@length_of_same_keys latest, h]
    · rfl
    · intro k
      rw [row_insertOrReplaceLatest]
      split
      · rename_i hk
        rw [hk, hrow]
        rfl
      · rfl

theorem Counted.removeLatest (h : latest.Counted) : (latest.removeLatest key).Counted := by
  rw [Counted, len_removeLatest]
  rw [Counted] at h
  cases hrow : latest.row key with
  | none =>
    rw [@length_of_same_keys latest, h]
    · rfl
    · intro k
      rw [row_removeLatest]
      split
      · rename_i hk
        rw [hk, hrow]
      · rfl
  | some old =>
    have := length_of_new_row (show (latest.removeLatest key).row key = none by rw [row_removeLatest, if_pos rfl]) hrow
      fun k hk => by rw [row_removeLatest, if_neg hk]
    rw [h, this]
    rfl

end LatestRows

/-! ## The shard -/

/-- L96-98 -/
def isTombstone (version : PrimaryIndexVersion) : Bool := decide (version.rowId = nullRowId)

/-- L101-103 -/
def visibleRowId (version : PrimaryIndexVersion) : Option Nat :=
  if isTombstone version then none else some version.rowId

/-- L142-148 without the memory accounting -/
structure PrimaryIndexShard where
  histories : Shard
  latest : LatestRows

namespace PrimaryIndexShard

def new : PrimaryIndexShard := ⟨Shard.empty, LatestRows.new⟩

variable (shard : PrimaryIndexShard)

/-- L182-186 -/
def latestVersion (key : Key) : Option PrimaryIndexVersion :=
  (shard.histories.history key).bind (·.chain.getLast?)

/-- L243-255 -/
def insertOrReplaceAt (key : Key) (rowId commitTs : Nat) : PrimaryIndexShard :=
  ⟨shard.histories.pushVersion key ⟨rowId, commitTs⟩, shard.latest.insertOrReplaceLatest key rowId⟩

/-- L257-282 -/
def batchInsertOrReplaceAt (entries : List (Key × Nat)) (commitTs : Nat) : PrimaryIndexShard :=
  entries.foldl (fun shard entry => shard.insertOrReplaceAt entry.1 entry.2 commitTs) shard

/-- L318-326 -/
def removeAt (key : Key) (commitTs : Nat) : PrimaryIndexShard :=
  ⟨shard.histories.pushVersion key (PrimaryIndexVersion.tombstone commitTs), shard.latest.removeLatest key⟩

/-- L328-350 -/
def batchApplyVersions (entries : List IndexEntry) : PrimaryIndexShard :=
  entries.foldl (fun shard entry =>
    if isTombstone entry.2 then
      ⟨shard.histories.pushVersion entry.1 entry.2, shard.latest.removeLatest entry.1⟩
    else
      ⟨shard.histories.pushVersion entry.1 entry.2,
        shard.latest.insertOrReplaceLatest entry.1 entry.2.rowId⟩) shard

variable {shard} {key k : Key} {version : PrimaryIndexVersion}

theorem insertBy_lt_last {front : List PrimaryIndexVersion} {last : PrimaryIndexVersion}
    (h : version.commitTs < last.commitTs) :
    insertBy (·.commitTs) version (front ++ [last]) = insertBy (·.commitTs) version front ++ [last] := by
  induction front with
  | nil => simp [insertBy, h]
  | cons b front ih =>
    rw [cons_append, insertBy, insertBy]
    split
    · rfl
    · split
      · rw [ih, cons_append]
      · rfl

/-- The last version of a chain is the newest one, and of two with one timestamp the one pushed later. -/
theorem getLast?_pushVersion (history : KeyHistory) (version : PrimaryIndexVersion) :
    (history.pushVersion version).chain.getLast? =
      match history.chain.getLast? with
      | none => some version
      | some stored => if version.commitTs < stored.commitTs then some stored else some version := by
  show (push history.chain version).getLast? = _
  cases hlast : history.chain.getLast? with
  | none =>
    rw [getLast?_eq_none_iff.1 hlast]
    rfl
  | some stored =>
    dsimp only
    split
    · rename_i hlt
      obtain ⟨front, hfront⟩ := getLast?_eq_some_iff.1 hlast
      rw [push_eq history.sorted, hfront, insertBy_lt_last hlt, getLast?_concat]
    unfold push
    rw [hlast]
    dsimp only
    split
    · rw [getLast?_concat]
    · rw [if_pos (by omega), getLast?_concat]

theorem history_pushVersion (histories : Shard) : (histories.pushVersion key version).history k =
      if k = key then some (((histories.history key).getD KeyHistory.empty).pushVersion version)
      else histories.history k := by
  rw [Shard.history, Shard.pushVersion, lookup_put]
  split <;> rfl

end PrimaryIndexShard
end Paro.L2
