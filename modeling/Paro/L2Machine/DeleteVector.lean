import Paro.Core.SortedList
import Paro.L1Encoding.OrderedValue

/-!
# Versioned delete vectors

Model of `DeleteVector` and `VersionedDeleteVector` (crates/storage/src/primary_key/delete_vector.rs): the deleted
rows of a segment as a list of bitmaps by version, each with everything deleted up to its version.

The `roaring` bitmap is a finite set of row ids; its own format is a `RoaringFormat`, of which only the round trip
is assumed. `ofBytes_toBytes` is the round trip of the whole chain. The count of versions and the length of each
bitmap are written as `u32`, so it needs both to fit. `La-b` are lines of this file.
-/
namespace Paro.L2
open SortedList L1 List

structure RoaringFormat where
  serialize : Finset UInt32 → List UInt8
  deserialize : List UInt8 → Option (Finset UInt32)
  deserialize_serialize : ∀ bitmap, deserialize (serialize bitmap) = some bitmap

/-- L18-21 -/
@[ext]
structure DeleteVector where
  version : Signed 64
  bitmap : Finset UInt32

namespace DeleteVector

/-- L28-33 -/
def withVersion (version : Signed 64) : DeleteVector := ⟨version, ∅⟩

/-- L47-51 -/
def markDeleted (dv : DeleteVector) (row : UInt32) : DeleteVector := { dv with bitmap := insert row dv.bitmap }

/-- L62-67 -/
def addDelsAsNewVersion (dv : DeleteVector) (rows : List UInt32) (version : Signed 64) : DeleteVector :=
  rows.foldl markDeleted { dv with version }

theorem foldl_markDeleted (rows : List UInt32) (dv : DeleteVector) :
    rows.foldl markDeleted dv = ⟨dv.version, dv.bitmap ∪ rows.toFinset⟩ := by
  induction rows generalizing dv with
  | nil => simp
  | cons row rows ih =>
    rw [foldl_cons, ih]
    simp [markDeleted, Finset.insert_union, Finset.union_insert]

theorem addDelsAsNewVersion_eq (dv : DeleteVector) (rows : List UInt32) (version : Signed 64) :
    dv.addDelsAsNewVersion rows version = ⟨version, dv.bitmap ∪ rows.toFinset⟩ :=
  foldl_markDeleted rows _

end DeleteVector

/-- L130-132 -/
abbrev VersionedDeleteVector := List DeleteVector

inductive DeleteVectorError
  /-- `legacy delete vector payloads without versioned header are no longer supported` -/
  | legacy
  /-- `unsupported delete vector format version …` -/
  | unsupported (version : Nat)
  /-- `delete vector file truncated while reading entry header` -/
  | entryHeader
  /-- `delete vector file truncated while reading entry payload` -/
  | entryPayload
  /-- The error of the bitmap's own format. -/
  | bitmap
deriving DecidableEq, Repr

namespace VersionedDeleteVector

/-- L155-161 -/
def latestAt (versions : VersionedDeleteVector) (version : Signed 64) : Option DeleteVector :=
  versions.reverse.find? fun dv => decide (dv.version ≤ version)

/-- L163-171 -/
def insertVersion (versions : VersionedDeleteVector) (dv : DeleteVector) : VersionedDeleteVector :=
  match binarySearchByKey DeleteVector.version dv.version versions with
  | .ok idx => versions.set idx dv
  | .error idx => versions.insertIdx idx dv

/-- L173-185 -/
def addDelsAsNewVersion (versions : VersionedDeleteVector) (rows : List UInt32) (version : Signed 64) :
    VersionedDeleteVector :=
  let base := ((latestAt versions version).or versions.getLast?).getD (DeleteVector.withVersion version)
  insertVersion versions (base.addDelsAsNewVersion rows version)

/-- `Iterator::rposition`: the place of the last item that satisfies `p`. -/
def rposition {α : Type} (p : α → Bool) (l : List α) : Option Nat :=
  (l.reverse.findIdx? p).map fun i => l.length - 1 - i

/-- L187-213 -/
def gcVersionsOlderThan (versions : VersionedDeleteVector) (minVisible : Signed 64) : VersionedDeleteVector :=
  if versions.length ≤ 1 then versions
  else
    let keepAnchor := rposition (fun dv => decide (dv.version ≤ minVisible)) versions
    let retained := (versions.zipIdx.filter fun e =>
      decide (some e.2 = keepAnchor) || decide (minVisible ≤ e.1.version)).map Prod.fst
    if retained = [] then versions.getLast?.toList else retained

/-! ## Bytes -/

def magic : List UInt8 := [0x50, 0x44, 0x56, 0x32]

def formatVersion : Nat := 1

variable (fmt : RoaringFormat)

def entryBytes (dv : DeleteVector) : List UInt8 :=
  leBytes 8 dv.version.bits ++ (leBytes 4 (fmt.serialize dv.bitmap).length ++ fmt.serialize dv.bitmap)

/-- L215-227 -/
def toBytes (versions : VersionedDeleteVector) : List UInt8 :=
  magic ++ (leBytes 4 formatVersion ++ (leBytes 4 versions.length ++ versions.flatMap (entryBytes fmt)))

/-- The loop over the entries, on the bytes from `offset` on. L252-272 -/
def readEntries : Nat → List UInt8 → Except DeleteVectorError (List DeleteVector)
  | 0, _ => .ok []
  | count + 1, bytes =>
    if bytes.length < 12 then .error .entryHeader
    else
      let version := Signed.wrap 64 (ofLeBytes (bytes.take 8))
      let payloadLen := ofLeBytes ((bytes.drop 8).take 4)
      let rest := bytes.drop 12
      if rest.length < payloadLen then .error .entryPayload
      else
        match fmt.deserialize (rest.take payloadLen) with
        | none => .error .bitmap
        | some bitmap => (readEntries count (rest.drop payloadLen)).map (⟨version, bitmap⟩ :: ·)

/-- `dedup_by_key` on the version: of neighbours with one version the first stays. -/
def dedupByVersion : List DeleteVector → List DeleteVector
  | [] => []
  | dv :: rest => dv :: dedupByVersion (rest.dropWhile fun next => decide (next.version = dv.version))
termination_by l => l.length
decreasing_by
  simp only [length_cons]
  have := (dropWhile_sublist (l := rest) fun next => decide (next.version = dv.version)).length_le
  omega

/-- L141-145 -/
def fromVersions (versions : List DeleteVector) : VersionedDeleteVector :=
  dedupByVersion (versions.mergeSort fun a b => decide (a.version ≤ b.version))

/-- L229-274 -/
def ofBytes (bytes : List UInt8) : Except DeleteVectorError VersionedDeleteVector :=
  if bytes.length < 12 ∨ bytes.take 4 ≠ magic then .error .legacy
  else
    let version := ofLeBytes ((bytes.drop 4).take 4)
    if version ≠ formatVersion then .error (.unsupported version)
    else
      let count := ofLeBytes ((bytes.drop 8).take 4)
      (readEntries fmt count (bytes.drop 12)).map fromVersions

/-! ## The round trip -/

variable {fmt}

section
variable {versions : List DeleteVector} (h : Sorted DeleteVector.version versions)
include h

theorem dedupByVersion_of_sorted : dedupByVersion versions = versions := by
  induction versions with
  | nil => rw [dedupByVersion]
  | cons dv rest ih =>
    obtain ⟨hlt, hrest⟩ := pairwise_cons.1 h
    have hkeep : rest.dropWhile (fun next => decide (next.version = dv.version)) = rest := by
      cases rest with
      | nil => rfl
      | cons next rest =>
        rw [dropWhile_cons, if_neg]
        simpa using (hlt next mem_cons_self).ne'
    rw [dedupByVersion, hkeep, ih hrest]

theorem fromVersions_of_sorted : fromVersions versions = versions := by
  have hsorted : versions.mergeSort (fun a b => decide (a.version ≤ b.version)) = versions :=
    mergeSort_of_pairwise (h.imp fun hlt => by simpa using le_of_lt hlt)
  rw [fromVersions, hsorted, dedupByVersion_of_sorted h]

end

structure Fits (fmt : RoaringFormat) (versions : VersionedDeleteVector) : Prop where
  count : versions.length < 2 ^ 32
  payload : ∀ dv ∈ versions, (fmt.serialize dv.bitmap).length < 2 ^ 32

variable {versions : VersionedDeleteVector} {version : Signed 64}

theorem readEntries_flatMap (h : ∀ dv ∈ versions, (fmt.serialize dv.bitmap).length < 2 ^ 32) :
    readEntries fmt versions.length (versions.flatMap (entryBytes fmt)) = .ok versions := by
  induction versions with
  | nil => rfl
  | cons dv rest ih =>
    have hlen := h dv mem_cons_self
    have hbits : dv.version.bits < 256 ^ 8 := by
      have := Int.emod_lt_of_pos dv.version.val (show (0 : Int) < 2 ^ 64 by decide)
      have hnn := Int.emod_nonneg dv.version.val (show (2 : Int) ^ 64 ≠ 0 by decide)
      rw [Signed.bits]
      omega
    have hversion : (leBytes 8 dv.version.bits).length = 8 := length_leBytes 8 _
    have hcount : (leBytes 4 (fmt.serialize dv.bitmap).length).length = 4 := length_leBytes 4 _
    rw [length_cons, flatMap_cons, entryBytes]
    generalize hpayload : fmt.serialize dv.bitmap = payload at *
    simp only [readEntries, append_assoc]
    rw [if_neg (by simp only [length_append]; omega)]
    rw [show 12 = 8 + 4 from rfl, drop_field (drop_left' hversion) hcount, drop_left' hversion,
      take_left' hversion, take_left' hcount, ofLeBytes_leBytes hbits,
      ofLeBytes_leBytes (by simpa using hlen), if_neg (by simp), take_left, drop_left,
      ← hpayload, fmt.deserialize_serialize]
    dsimp only
    rw [ih fun d hd => h d (mem_cons_of_mem dv hd), Signed.wrap_bits]
    rfl

/-- The entries are read as often as the count says that was written, modulo `2 ^ 32`. -/
theorem ofBytes_toBytes_eq (versions : VersionedDeleteVector) : ofBytes fmt (toBytes fmt versions) =
      (readEntries fmt (versions.length % 2 ^ 32) (versions.flatMap (entryBytes fmt))).map fromVersions := by
  have hmagic : magic.length = 4 := rfl
  have hversion : (leBytes 4 formatVersion).length = 4 := rfl
  have hcount : (leBytes 4 versions.length).length = 4 := length_leBytes 4 _
  have h4 : (toBytes fmt versions).drop 4 = _ := drop_left' hmagic
  have h8 : (toBytes fmt versions).drop 8 = _ := drop_field h4 hversion
  have h12 : (toBytes fmt versions).drop 12 = _ := drop_field h8 hcount
  have hlegacy : ¬ ((toBytes fmt versions).length < 12 ∨ (toBytes fmt versions).take 4 ≠ magic) := by
    rintro (hshort | hmark)
    · simp only [toBytes, length_append] at hshort
      omega
    · exact hmark (take_left' hmagic)
  unfold ofBytes
  rw [if_neg hlegacy, h4, h8, h12, take_left' hversion, take_left' hcount]
  rw [ofLeBytes_leBytes (by decide), ofLeBytes_leBytes_mod]
  dsimp only
  rw [if_neg (by simp)]
  rfl

theorem ofBytes_toBytes (hsorted : Sorted DeleteVector.version versions)
    (hfits : Fits fmt versions) : ofBytes fmt (toBytes fmt versions) = .ok versions := by
  rw [ofBytes_toBytes_eq, Nat.mod_eq_of_lt hfits.count, readEntries_flatMap hfits.payload]
  exact congrArg Except.ok (fromVersions_of_sorted hsorted)

theorem insertVersion_eq (versions : VersionedDeleteVector) (dv : DeleteVector) :
    insertVersion versions dv = insertBy DeleteVector.version dv versions := insertBy_eq_search.symm

theorem latestAt_eq_none : latestAt versions version = none ↔ ∀ dv ∈ versions, ¬ dv.version ≤ version := by
  simp [latestAt, find?_eq_none]

/-- In a sorted chain the bitmap found has the largest version that is visible. -/
theorem latestAt_spec (h : Sorted DeleteVector.version versions) {dv : DeleteVector}
    (hdv : latestAt versions version = some dv) :
    dv ∈ versions ∧ dv.version ≤ version ∧ ∀ d ∈ versions, d.version ≤ version → d.version ≤ dv.version := by
  obtain ⟨hp, later, earlier, hsplit, hlater⟩ := find?_eq_some_iff_append.1 hdv
  have hversions : versions = earlier.reverse ++ dv :: later.reverse := by
    rw [← reverse_reverse versions, hsplit]
    simp
  subst hversions
  have hpair := pairwise_append.1 h
  refine ⟨by simp, by simpa using hp, fun d hd hle => ?_⟩
  rcases mem_append.1 hd with hd | hd
  · exact le_of_lt (hpair.2.2 d hd dv mem_cons_self)
  · rcases mem_cons.1 hd with rfl | hd
    · exact le_rfl
    · exact absurd hle (by simpa using hlater d (mem_reverse.1 hd))

theorem rposition_eq_some {α : Type} {p : α → Bool} {l : List α} {a : α} (ha : a ∈ l) (hp : p a = true) :
    ∃ i b, rposition p l = some i ∧ l[i]? = some b ∧ p b = true ∧ ∀ j c, i < j → l[j]? = some c → p c = false := by
  cases hfind : l.reverse.findIdx? p with
  | none =>
    have := List.findIdx?_eq_none_iff.1 hfind a (mem_reverse.2 ha)
    rw [hp] at this
    cases this
  | some k =>
    obtain ⟨hk, hpk, hbefore⟩ := List.findIdx?_eq_some_iff_getElem.1 hfind
    rw [length_reverse] at hk
    refine ⟨l.length - 1 - k, l[l.length - 1 - k], by rw [rposition, hfind]; rfl,
      List.getElem?_eq_getElem (by omega), by rwa [getElem_reverse] at hpk, fun j c hj hc => ?_⟩
    obtain ⟨hjlen, rfl⟩ := List.getElem?_eq_some_iff.1 hc
    have := hbefore (l.length - 1 - j) (by omega)
    rw [getElem_reverse] at this
    simp only [show l.length - 1 - (l.length - 1 - j) = j by omega] at this
    simpa using this

/-- Collection keeps the order, what is not older than the bound and the last version at or below it. -/
theorem gcVersionsOlderThan_spec (hsorted : Sorted DeleteVector.version versions) (minVisible : Signed 64) :
    (gcVersionsOlderThan versions minVisible).Sublist versions ∧ ∀ dv ∈ versions,
        (minVisible ≤ dv.version ∨ ∀ d ∈ versions, d.version ≤ minVisible → d.version ≤ dv.version) →
        dv ∈ gcVersionsOlderThan versions minVisible := by
  unfold gcVersionsOlderThan
  split
  · exact ⟨List.Sublist.refl _, fun dv hdv _ => hdv⟩
  dsimp only
  generalize hret : (versions.zipIdx.filter fun e =>
    decide (some e.2 = rposition (fun dv => decide (dv.version ≤ minVisible)) versions) ||
      decide (minVisible ≤ e.1.version)).map Prod.fst = retained
  have hkeep : ∀ dv ∈ versions,
      (minVisible ≤ dv.version ∨ ∀ d ∈ versions, d.version ≤ minVisible → d.version ≤ dv.version) →
      dv ∈ retained := by
    intro dv hdv hcond
    obtain ⟨i, hi⟩ := List.getElem?_of_mem hdv
    rw [← hret, mem_map]
    refine ⟨(dv, i), mem_filter.2 ⟨mem_zipIdx_iff_getElem?.2 hi, ?_⟩, rfl⟩
    rw [Bool.or_eq_true, decide_eq_true_eq, decide_eq_true_eq]
    by_cases hge : minVisible ≤ dv.version
    · exact .inr hge
    -- an older version is the anchor: it is the last one at or below the bound
    have hle : dv.version ≤ minVisible := le_of_lt (not_le.1 hge)
    obtain ⟨k, b, hk, hb, hpb, hafter⟩ := rposition_eq_some
      (p := fun dv : DeleteVector => decide (dv.version ≤ minVisible)) hdv (by simpa using hle)
    have hbmem := mem_of_getElem? hb
    have hbdv := hcond.resolve_left hge b hbmem (by simpa using hpb)
    have hik : i ≤ k := Nat.not_lt.1 fun hlt => by
      have := hafter i dv hlt hi
      simp [hle] at this
    have hki : k ≤ i := Nat.not_lt.1 fun hlt => by
      obtain ⟨hi', rfl⟩ := List.getElem?_eq_some_iff.1 hi
      obtain ⟨hk', rfl⟩ := List.getElem?_eq_some_iff.1 hb
      exact absurd (pairwise_iff_getElem.1 hsorted i k hi' hk' hlt) (not_lt.2 hbdv)
    exact .inl (by rw [hk, le_antisymm hik hki])
  have hsub : retained.Sublist versions := by
    rw [← hret]
    have := (filter_sublist (p := fun e : DeleteVector × Nat =>
      decide (some e.2 = rposition (fun dv => decide (dv.version ≤ minVisible)) versions) ||
        decide (minVisible ≤ e.1.version)) (l := versions.zipIdx)).map Prod.fst
    rwa [zipIdx_map_fst] at this
  split
  · rename_i hnil
    refine ⟨?_, fun dv hdv hcond => absurd (hkeep dv hdv hcond) (by rw [hnil]; exact not_mem_nil)⟩
    cases hlast : versions.getLast? with
    | none => exact nil_sublist _
    | some dv => exact singleton_sublist.2 (mem_of_getLast? hlast)
  · exact ⟨hsub, hkeep⟩

end VersionedDeleteVector
end Paro.L2
