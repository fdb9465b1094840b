import Paro.Core.Keyed
import Paro.Core.SortDedup
import Paro.L1Resource.LockResource

/-!
# Lock table shards

Model of `LockTableShard` (crates/transaction/src/lock_manager.rs:1130-1246). The source
keeps `HashMap<LockResource, LockState>` with the holders of a resource in a vector; here
a shard is one list of holders, each with its resource, and an emptied entry is simply
gone. A transaction holds a resource at most once (`Keyed.Unique`): repeated grants are
merged into one holder with a reference count and the strongest mode.

`held` reads a shard as a map; `held_grant` and `held_release` say what the two updates
do to it, and `free_of_blockers_nil` that an empty blocker list means what it should.
`La-b` are lines of this file.
-/
namespace Paro.L2
open L1 Keyed

abbrev TxnId := Nat

/-- L415-419 -/
structure LockRequest where
  resource : LockResource
  mode : LockMode
deriving DecidableEq, Repr

/-- L575-579, with the resource it is filed under -/
structure LockHolder where
  resource : LockResource
  txnId : TxnId
  mode : LockMode
  refCount : Nat
deriving DecidableEq, Repr

def LockHolder.key (h : LockHolder) : TxnId × LockResource := (h.txnId, h.resource)

/-- L582-585 -/
structure GrantOutcome where
  insertedHolder : Bool
  previousMode : Option LockMode
deriving DecidableEq, Repr

/-- L1277-1280 -/
def normalizeTxnIds (ids : List TxnId) : List TxnId := sortDedup (· ≤ ·) ids

abbrev LockTableShard := List LockHolder

namespace LockTableShard

def blocks (t : TxnId) (q : LockRequest) (h : LockHolder) : Bool :=
  h.resource.conflictsWith q.resource && decide (h.txnId ≠ t) && lockGrantsConflict h.resource h.mode q.resource q.mode

variable (tbl : LockTableShard) (t : TxnId) (q : LockRequest)

/-- L1138-1156 -/
def blockers : List TxnId :=
  normalizeTxnIds ((tbl.filter (blocks t q)).map LockHolder.txnId)

/-- Only the holders of the very same resource are looked at.
L1158-1181 -/
def exactBlockers : List TxnId :=
  (tbl.filter fun h => decide (h.resource = q.resource) && decide (h.txnId ≠ t) &&
    lockGrantsConflict q.resource h.mode q.resource q.mode).map LockHolder.txnId

/-- The source adds with saturation, but each reference is a `GrantedLock` in memory, so the
count stays below `usize::MAX`. L1183-1208 -/
def grant : LockTableShard × GrantOutcome :=
  match lookup LockHolder.key (t, q.resource) tbl with
  | some h =>
    (adjust LockHolder.key (t, q.resource)
      (fun h => { h with mode := h.mode.strongest q.mode, refCount := h.refCount + 1 }) tbl, ⟨false, some h.mode⟩)
  | none => (tbl ++ [⟨q.resource, t, q.mode, 1⟩], ⟨true, none⟩)

/-- The second component tells whether a holder was removed.
L1209-1234 -/
def release (r : LockResource) (previousMode : Option LockMode) : LockTableShard × Bool :=
  match lookup LockHolder.key (t, r) tbl with
  | none => (tbl, false)
  | some h =>
    if h.refCount > 1 then
      (adjust LockHolder.key (t, r)
        (fun h => { h with refCount := h.refCount - 1, mode := previousMode.getD h.mode }) tbl, false)
    else (drop LockHolder.key (t, r) tbl, true)

/-! ## A shard as a map -/

def held (r : LockResource) : Option (LockMode × Nat) :=
  (lookup LockHolder.key (t, r) tbl).map fun h => (h.mode, h.refCount)

variable (o : Option (LockMode × Nat))

/-- A grant of `m` on top of what is held. -/
def mergeHeld (m : LockMode) : LockMode × Nat :=
  match o with
  | some (M, n) => (M.strongest m, n + 1)
  | none => (m, 1)

/-- A release that restores `previousMode` when other references remain. -/
def unmergeHeld (previousMode : Option LockMode) : Option (LockMode × Nat) :=
  match o with
  | some (M, n + 2) => some (previousMode.getD M, n + 1)
  | _ => none

variable {tbl} {t t' : TxnId} {r r' : LockResource} {q : LockRequest}

/-- Releasing right after a grant, with the mode the grant reported, changes nothing. -/
theorem unmerge_merge (m : LockMode) (h : ∀ M n, o = some (M, n) → 0 < n) :
    unmergeHeld (some (mergeHeld o m)) (o.map Prod.fst) = o := by
  rcases o with - | ⟨M, n⟩
  · rfl
  · obtain ⟨k, rfl⟩ : ∃ k, n = k + 1 := ⟨n - 1, by have := h M n rfl; omega⟩
    rfl

variable {M : LockMode} {n : Nat} {p : Option LockMode}

open LockHolder

theorem mem_of_held (h : held tbl t r = some (M, n)) : ⟨r, t, M, n⟩ ∈ tbl := by
  obtain ⟨g, hg, he⟩ := Option.map_eq_some_iff.1 h
  have hk := key_of_lookup hg
  simp only [key, Prod.mk.injEq] at hk he
  obtain ⟨rfl, rfl⟩ := hk
  obtain ⟨rfl, rfl⟩ := he
  exact mem_of_lookup hg

theorem grant_previousMode : (grant tbl t q).2.previousMode = (held tbl t q.resource).map Prod.fst := by
  cases hl : lookup key (t, q.resource) tbl <;> simp [grant, held, hl]

theorem held_grant : held (grant tbl t q).1 t' r' =
    if t' = t ∧ r' = q.resource then some (mergeHeld (held tbl t q.resource) q.mode)
    else held tbl t' r' := by
  cases hl : lookup key (t, q.resource) tbl with
  | none =>
    have hk : key ⟨q.resource, t, q.mode, 1⟩ = (t, q.resource) := rfl
    simp only [grant, hl, held, lookup_concat_fresh (hk ▸ hl), hk, Prod.mk.injEq]
    split <;> simp [mergeHeld]
  | some h =>
    simp only [grant, hl, held]
    rw [lookup_adjust (by intro; rfl)]
    by_cases he : t' = t ∧ r' = q.resource
    · obtain ⟨rfl, rfl⟩ := he
      simp [hl, mergeHeld]
    · rw [if_neg (by simpa using he), if_neg he]

theorem unique_grant (hu : Keyed.Unique key tbl) : Keyed.Unique key (grant tbl t q).1 := by
  cases hl : lookup key (t, q.resource) tbl with
  | none =>
    simp only [grant, hl]
    refine Keyed.Unique.concat hu ?_
    exact hl
  | some h =>
    simp only [grant, hl]
    exact Keyed.Unique.adjust (by intro; rfl) hu

theorem length_grant : (grant tbl t q).1.length = tbl.length + (if (grant tbl t q).2.insertedHolder then 1 else 0) := by
  cases hl : lookup key (t, q.resource) tbl <;> simp [grant, hl]

theorem held_release : held (release tbl t r p).1 t' r' =
    if t' = t ∧ r' = r then unmergeHeld (held tbl t r) p else held tbl t' r' := by
  cases hl : lookup key (t, r) tbl with
  | none =>
    simp only [release, hl]
    split
    · rename_i he
      obtain ⟨rfl, rfl⟩ := he
      simp [held, hl, unmergeHeld]
    · rfl
  | some h =>
    simp only [release, hl]
    by_cases hc : h.refCount > 1
    · rw [if_pos hc]
      simp only [held]
      rw [lookup_adjust (by intro; rfl)]
      by_cases he : t' = t ∧ r' = r
      · obtain ⟨rfl, rfl⟩ := he
        obtain ⟨k, hk⟩ : ∃ k, h.refCount = k + 2 := ⟨h.refCount - 2, by omega⟩
        simp [hl, unmergeHeld, hk]
      · rw [if_neg (by simpa using he), if_neg he]
    · rw [if_neg hc]
      simp only [held, lookup_drop]
      by_cases he : t' = t ∧ r' = r
      · obtain ⟨rfl, rfl⟩ := he
        have hk : h.refCount = 0 ∨ h.refCount = 1 := by omega
        rcases hk with hk | hk <;> simp [hl, unmergeHeld, hk]
      · rw [if_neg (by simpa using he), if_neg he]

theorem unique_release (hu : Keyed.Unique key tbl) : Keyed.Unique key (release tbl t r p).1 := by
  simp only [release]
  split
  · exact hu
  · split
    · exact Keyed.Unique.adjust (by intro; rfl) hu
    · exact Keyed.Unique.drop hu

theorem length_release (hu : Keyed.Unique key tbl) :
    (release tbl t r p).1.length + (if (release tbl t r p).2 then 1 else 0) = tbl.length := by
  cases hl : lookup key (t, r) tbl with
  | none => simp [release, hl]
  | some h =>
    by_cases hc : h.refCount > 1
    · simp [release, hl, hc]
    · simpa [release, hl, hc] using length_drop_of_lookup hu hl

/-! ## A shard as a list

The holders of a resource are kept in the order of their first grants. -/

def keys (tbl : LockTableShard) : List (TxnId × LockResource) := tbl.map LockHolder.key

theorem mem_keys : (t, r) ∈ keys tbl ↔ ∃ M k, held tbl t r = some (M, k) := by
  cases hl : lookup key (t, r) tbl with
  | none => simpa [keys, held, hl] using lookup_eq_none.1 hl
  | some h =>
    simp only [held, hl, Option.map_some, Option.some.injEq]
    exact ⟨fun _ => ⟨_, _, rfl⟩, fun _ => key_of_lookup hl ▸ List.mem_map_of_mem (mem_of_lookup hl)⟩

/-- A grant leaves the holders in place and may add one at the end. -/
theorem keys_sublist_grant : (keys tbl).Sublist (keys (grant tbl t q).1) := by
  cases hl : lookup key (t, q.resource) tbl with
  | none => simp [grant, hl, keys]
  | some h =>
    have hk : keys (grant tbl t q).1 = keys tbl := by
      simp only [grant, hl]
      exact map_key_adjust fun _ h => h
    rw [hk]

/-- A release keeps every holder but the one whose last reference it gives up. -/
theorem sublist_keys_release {ks : List (TxnId × LockResource)} (h : ks.Sublist (keys tbl))
    (hk : (t, r) ∈ ks → ∃ M k, held tbl t r = some (M, k + 2)) : ks.Sublist (keys (release tbl t r p).1) := by
  cases hl : lookup key (t, r) tbl with
  | none => simpa [release, hl] using h
  | some x =>
    by_cases hc : x.refCount > 1
    · have he : keys (release tbl t r p).1 = keys tbl := by
        simp only [release, hl, if_pos hc]
        exact map_key_adjust fun _ h => h
      rw [he]; exact h
    · have hnot : (t, r) ∉ ks := by
        intro hm
        obtain ⟨M, k, hh⟩ := hk hm
        simp only [held, hl, Option.map_some, Option.some.injEq, Prod.mk.injEq] at hh
        omega
      have he : keys (release tbl t r p).1 = (keys tbl).filter fun k => decide (k ≠ (t, r)) := by
        simp only [release, hl, if_neg hc, keys, drop, List.filter_map]
        rfl
      have hks : ks.filter (fun k => decide (k ≠ (t, r))) = ks :=
        List.filter_eq_self.2 fun k hk => decide_eq_true fun e => hnot (e ▸ hk)
      rw [he, ← hks]
      exact h.filter _

theorem lookup_eq_held : lookup key (t, r) tbl = (held tbl t r).map fun p => ⟨r, t, p.1, p.2⟩ := by
  cases hl : lookup key (t, r) tbl with
  | none => simp [held, hl]
  | some h =>
    have hk := key_of_lookup hl
    simp only [key, Prod.mk.injEq] at hk
    obtain ⟨rfl, rfl⟩ := hk
    simp [held, hl]

/-- Two shards with the same map and no holder out of place are the same. -/
theorem eq_of_held {tbl' : LockTableShard} (hk : (keys tbl).Sublist (keys tbl'))
    (hu' : Keyed.Unique key tbl') (h : ∀ t r, held tbl' t r = held tbl t r) : tbl' = tbl := by
  have hsub : keys tbl' ⊆ keys tbl := by
    rintro ⟨t, r⟩ hm
    rw [mem_keys] at hm ⊢
    rwa [← h]
  have hlen : (keys tbl').length ≤ (keys tbl).length := (List.subperm_of_subset hu' hsub).length_le
  have heq : keys tbl = keys tbl' := hk.eq_of_length (le_antisymm hk.length_le hlen)
  refine eq_of_keys hu' heq.symm ?_
  rintro ⟨t, r⟩
  rw [lookup_eq_held, lookup_eq_held, h]

/-- With no blockers, the request conflicts with nothing another transaction holds. -/
theorem free_of_blockers_nil (h : blockers tbl t q = []) (hne : t' ≠ t)
    (hh : held tbl t' r' = some (M, n)) : lockGrantsConflict r' M q.resource q.mode = false := by
  by_contra hc
  rw [Bool.not_eq_false] at hc
  have hf : ∀ g ∈ tbl, ¬ blocks t q g = true := by
    simpa [blockers, normalizeTxnIds, List.filter_eq_nil_iff] using h
  refine hf _ (mem_of_held hh) ?_
  simp [blocks, hne, hc, conflictsWith_of_lockGrantsConflict hc]

theorem free_of_exactBlockers_nil (h : exactBlockers tbl t q = []) (hne : t' ≠ t)
    (hh : held tbl t' q.resource = some (M, n)) : lockGrantsConflict q.resource M q.resource q.mode = false := by
  by_contra hc
  rw [Bool.not_eq_false] at hc
  simp only [exactBlockers, List.map_eq_nil_iff, List.filter_eq_nil_iff] at h
  exact h _ (mem_of_held hh) (by simp [hne, hc])

end LockTableShard
end Paro.L2
