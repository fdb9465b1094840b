import Mathlib.Data.List.Sort
import Paro.Core.Bloom
import Paro.Core.MapM
import Paro.Core.SortedList
import Paro.Core.Versioned
import Paro.L1Encoding.WalChecksum

/-!
# Immutable primary index files

Model of crates/storage/src/primary_key/immutable_index.rs: entries are spread over hash buckets, a bucket
over pages, and two kinds of Bloom filters (one for the file, one for each page) let a lookup skip what cannot
hold its key. A file is its bucket directory, its filter and its pages; a page is its records, the count it
was written with, and its filter. The bytes of the file are not modelled.

`ImmutableIndex.Holds` says what a written file is, and `writeEntries_holds` that the writer makes one. From
it each reader function is exact for the table of the file: `Holds.getVersionAt_latest`,
`Holds.firstWriteInRange_first`, `Holds.firstKeyRangeWriteInRange_first`, `Holds.entries_eq`.

The hash (seahash) is a parameter. `La-b` are lines of this file.
-/
namespace Paro.L1
open Versioned SortedList List Option IsFirst

abbrev Key := Bytes

/-- primary_index.rs:76-94 -/
structure PrimaryIndexVersion where
  (rowId commitTs : Nat)
deriving DecidableEq, Repr

abbrev IndexEntry := Key × PrimaryIndexVersion

def nullRowId : Nat := 2 ^ 64 - 1

def PrimaryIndexVersion.tombstone (commitTs : Nat) : PrimaryIndexVersion := ⟨nullRowId, commitTs⟩

def entryKey (e : IndexEntry) : Key ×ₗ Nat := toLex (e.1, e.2.commitTs)

inductive IndexError
  | keyDoesNotFit (length : Nat)
  | bucketCountExceedsU32
  | pageCountExceedsU32
  | fileBloomWordsExceedU32
  | pageOutOfBounds (index : Nat)
  | pageTruncated
  | fileMissing (fileId : Nat)
  | unsupportedManifest (formatVersion : Nat)
  | manifestLevels
deriving DecidableEq, Repr

def pageSize : Nat := 4096
def pageHeaderLen : Nat := 8 + 4 * 8
def maxBodyLen : Nat := pageSize - pageHeaderLen
def targetBucketEntries : Nat := 64
def fileBloomBitsPerKey : Nat := 10

/-! ## Layout -/

/-- L761-772 -/
def normalizeEntries (entries : List IndexEntry) : List IndexEntry :=
  entries.foldl (fun m e => insertBy entryKey e m) []

/-- mirrors `usize::next_power_of_two` -/
def nextPowerOfTwo (n : Nat) : Nat := go 64 1
where
  go : Nat → Nat → Nat
    | 0, p => p
    | fuel + 1, p => if n ≤ p then p else go fuel (2 * p)

/-- L774-780 -/
def chooseBucketCount (entryCount : Nat) : Nat :=
  if entryCount = 0 then 1
  else nextPowerOfTwo (max ((entryCount + targetBucketEntries - 1) / targetBucketEntries) 1)

variable (seahash : Key → UInt64) (key : Key)

/-- L782-784 -/
def bucketIndexForKey (bucketCount : Nat) : Nat := (seahash key).toNat &&& (bucketCount - 1)

def rotateLeft (x : UInt64) (n : Nat) : UInt64 :=
  (x <<< UInt64.ofNat n) ||| (x >>> UInt64.ofNat (64 - n))

/-- L786-794 -/
def bloomBitsForKey : List Nat :=
  (range 4).map fun idx =>
    let rotated := rotateLeft (seahash key) (idx * 13)
    (rotated ^^^ (rotated >>> 17)).toNat % (4 * 64)

/-- L796-810 -/
def fileBloomBitsForKey (bitCount : Nat) : List Nat :=
  let first := seahash key
  let step := rotateLeft first 32 ||| 1
  (range 7).map fun round => (first + UInt64.ofNat round * step).toNat % bitCount

/-- A page: the count is written in 16 bits. L469-525 -/
structure IndexPage where
  entryCount : Nat
  records : List IndexEntry
  bloom : List UInt64
deriving DecidableEq, Repr

/-- L508-524, with the filter of `try_push` -/
def finishPage (records : List IndexEntry) : IndexPage where
  entryCount := records.length % 2 ^ 16
  records := records
  bloom := records.foldl (fun words e => Bloom.add words (bloomBitsForKey seahash e.1)) (replicate 4 0)

def recordLen (e : IndexEntry) : Nat := 4 + e.1.length + 16

/-- The pages of a bucket: a page is closed when the next record does not fit. The last argument is the page
under construction and its length. L105-116 and 486-502 -/
def paginate : List IndexEntry → List IndexEntry → Nat → Except IndexError (List IndexPage)
  | [], page, _ => .ok (if page.isEmpty then [] else [finishPage seahash page])
  | e :: rest, page, bodyLen =>
    if maxBodyLen < recordLen e then .error (.keyDoesNotFit e.1.length)
    else if maxBodyLen < bodyLen + recordLen e ∧ page ≠ [] then
      (finishPage seahash page :: ·) <$> paginate rest [e] (recordLen e)
    else paginate rest (page ++ [e]) (bodyLen + recordLen e)

/-- L52-55 -/
structure BucketDirectoryEntry where
  (startPage pageCount : Nat)
deriving DecidableEq, Repr

/-- L198-208 -/
structure ImmutableIndex where
  bucketDirectory : List BucketDirectoryEntry
  fileBloom : List UInt64
  pages : List IndexPage
deriving DecidableEq, Repr

/-- The loop over the buckets; start pages are cast to 32 bits. L102-121 -/
def layBuckets : List (List IndexEntry) → List BucketDirectoryEntry → List IndexPage →
    Except IndexError (List BucketDirectoryEntry × List IndexPage)
  | [], directory, pages => .ok (directory, pages)
  | bucket :: buckets, directory, pages =>
    match paginate seahash bucket [] 0 with
    | .error e => .error e
    | .ok bucketPages =>
      let startPage := pages.length % 2 ^ 32
      let pages := pages ++ bucketPages
      layBuckets buckets (directory ++ [⟨startPage, pages.length % 2 ^ 32 - startPage⟩]) pages

/-- L722-731 -/
def fileBloomWords (entryCount : Nat) : Nat := (max (entryCount * fileBloomBitsPerKey) 64 + 63) / 64

/-- Adding a key keeps the number of words, and with it the number of bits. L85-88
and 748-752 -/
def fileBloomOf (entries : List IndexEntry) : List UInt64 :=
  let wordCount := fileBloomWords entries.length
  entries.foldl (fun words e => Bloom.add words (fileBloomBitsForKey seahash e.1 (wordCount * 64)))
    (replicate wordCount 0)

/-- L73-196 -/
def writeEntries (entries : List IndexEntry) : Except IndexError ImmutableIndex :=
  let entries := normalizeEntries entries
  let bucketCount := chooseBucketCount entries.length
  let buckets := (range bucketCount).map fun b =>
    (entries.filter fun e => bucketIndexForKey seahash e.1 bucketCount = b).insertionSort
      (fun a b => entryKey a ≤ entryKey b)
  match layBuckets seahash buckets [] [] with
  | .error e => .error e
  | .ok (directory, pages) =>
    if 2 ^ 32 ≤ bucketCount then .error .bucketCountExceedsU32
    else if 2 ^ 32 ≤ pages.length then .error .pageCountExceedsU32
    else if 2 ^ 32 ≤ (fileBloomOf seahash entries).length then .error .fileBloomWordsExceedU32
    else .ok ⟨directory, fileBloomOf seahash entries, pages⟩

/-! ## Reading -/

/-- L651-653 -/
def versionInWindow (version : PrimaryIndexVersion) (readTs commitTs : Nat) : Bool :=
  readTs < version.commitTs && version.commitTs ≤ commitTs

/-- L655-657 -/
def keyInBounds (lower upper : Option Key) : Bool :=
  lower.all (· ≤ key) && upper.all (key ≤ ·)

namespace IndexPage

/-- The loop over the records of a page: `step` says what a record does to what was found, `stop` ends it.
L563-648 -/
def scan {β : Type} (step : β → IndexEntry → β) (stop : IndexEntry → Bool) :
    Nat → List IndexEntry → β → Except IndexError β
  | 0, _, best => .ok best
  | _ + 1, [], _ => .error .pageTruncated
  | n + 1, e :: rest, best => if stop e then .ok (step best e) else scan step stop n rest (step best e)

variable (page : IndexPage)

/-- L563-583 -/
def getVersionAt (key : Key) (readTs : Nat) : Except IndexError (Option PrimaryIndexVersion) :=
  scan (fun best e =>
      if e.1 = key ∧ e.2.commitTs ≤ readTs then selectNewer (·.commitTs) best (some e.2) else best)
    (fun e => key < e.1) page.entryCount page.records none

/-- L585-610 -/
def firstWriteInRange (key : Key) (readTs commitTs : Nat) : Except IndexError (Option IndexEntry) :=
  scan (fun best e =>
      if e.1 = key ∧ versionInWindow e.2 readTs commitTs then selectEarlier (·.commitTs) best (some e) else best)
    (fun e => key < e.1) page.entryCount page.records none

/-- The upper bound is checked first; a record behind it is out of bounds, so looking at it changes nothing.
L612-638 -/
def firstKeyRangeWriteInRange (lower upper : Option Key) (readTs commitTs : Nat) :
    Except IndexError (Option IndexEntry) :=
  scan (fun best e =>
      if keyInBounds e.1 lower upper ∧ versionInWindow e.2 readTs commitTs then
        selectEarlier (·.commitTs) best (some e)
      else best)
    (fun e => upper.any (· < e.1)) page.entryCount page.records none

/-- L640-648 -/
def extendEntries (out : List IndexEntry) : Except IndexError (List IndexEntry) :=
  scan (fun out e => out ++ [e]) (fun _ => false) page.entryCount page.records out

end IndexPage

namespace ImmutableIndex
variable (index : ImmutableIndex)

/-- L456-466 -/
def page (i : Nat) : Except IndexError IndexPage :=
  match index.pages[i]? with
  | none => .error (.pageOutOfBounds i)
  | some page => .ok page

def forPages {β : Type} (entry : BucketDirectoryEntry) (best : β)
    (step : β → IndexPage → Except IndexError β) : Except IndexError β :=
  (range' entry.startPage entry.pageCount).foldlM (fun best i => index.page i >>= step best) best

variable (key : Key)

def bucketOf : BucketDirectoryEntry :=
  index.bucketDirectory.getD (bucketIndexForKey seahash key index.bucketDirectory.length) ⟨0, 0⟩

def mayContain : Bool :=
  Bloom.mayContain index.fileBloom (fileBloomBitsForKey seahash key (index.fileBloom.length * 64))

/-- L349-377 -/
def getVersionAt (readTs : Nat) : Except IndexError (Option PrimaryIndexVersion) :=
  if index.bucketDirectory = [] ∨ ¬ index.mayContain seahash key then .ok none
  else if (index.bucketOf seahash key).pageCount = 0 then .ok none
  else
    index.forPages (index.bucketOf seahash key) none fun best page =>
      if Bloom.mayContain page.bloom (bloomBitsForKey seahash key) then
        selectNewer (·.commitTs) best <$> page.getVersionAt key readTs
      else .ok best

/-- L379-410 -/
def firstWriteInRange (readTs commitTs : Nat) : Except IndexError (Option IndexEntry) :=
  if index.bucketDirectory = [] ∨ commitTs ≤ readTs ∨ ¬ index.mayContain seahash key then .ok none
  else if (index.bucketOf seahash key).pageCount = 0 then .ok none
  else
    index.forPages (index.bucketOf seahash key) none fun best page =>
      if Bloom.mayContain page.bloom (bloomBitsForKey seahash key) then
        selectEarlier (·.commitTs) best <$> page.firstWriteInRange key readTs commitTs
      else .ok best

/-- L412-435 -/
def firstKeyRangeWriteInRange (lower upper : Option Key) (readTs commitTs : Nat) :
    Except IndexError (Option IndexEntry) :=
  if index.bucketDirectory = [] ∨ commitTs ≤ readTs then .ok none
  else
    index.bucketDirectory.foldlM (fun best bucket =>
      index.forPages bucket best fun best page =>
        selectEarlier (·.commitTs) best <$> page.firstKeyRangeWriteInRange lower upper readTs commitTs) none

/-- L437-446 -/
def entries : Except IndexError (List IndexEntry) :=
  index.bucketDirectory.foldlM (fun out bucket =>
    index.forPages bucket out fun out page => page.extendEntries out) []

end ImmutableIndex

/-! ## Scans -/

theorem scan_eq {β : Type} {step : β → IndexEntry → β} {stop : IndexEntry → Bool} {records : List IndexEntry}
    (h : records.Pairwise fun a b => stop a = true → ∀ best, step best b = best) (best : β) :
    IndexPage.scan step stop records.length records best = .ok (records.foldl step best) := by
  induction records generalizing best with
  | nil => rfl
  | cons e rest ih =>
    obtain ⟨he, hrest⟩ := pairwise_cons.1 h
    rw [length_cons, IndexPage.scan, foldl_cons]
    split
    · rename_i hstop
      -- the rest would not have changed anything
      rw [foldl_ext step (fun best _ => best) _ fun best b hb => he b hb hstop best, foldl_fixed]
    · exact ih hrest (step best e)

abbrev SortedEntries (es : List IndexEntry) : Prop := Sorted entryKey es

variable {es : List IndexEntry}

theorem SortedEntries.unique (h : SortedEntries es) : Unique (·.commitTs) es := by
  have hnodup := Sorted.nodup_keys h
  exact hnodup

theorem SortedEntries.key_le (h : SortedEntries es) : es.Pairwise fun a b => a.1 ≤ b.1 := by
  refine h.imp fun {a b} hlt => ?_
  rcases (Prod.Lex.lt_iff.1 hlt) with hlt | heq
  · exact le_of_lt hlt
  · exact le_of_eq heq.1

namespace IndexPage
variable {page : IndexPage} {key : Key} {readTs commitTs : Nat}

/-- The count of a page is right, and its records are in order. -/
structure Ok (page : IndexPage) : Prop where
  count : page.entryCount = page.records.length
  sorted : SortedEntries page.records

theorem getVersionAt_latest (h : page.Ok) :
    ∃ r, page.getVersionAt key readTs = .ok r ∧ IsLatest (·.commitTs)
      (ofEntries (·.commitTs) page.records) key readTs r := by
  refine ⟨_, ?_, IsLatest.foldl_entries page.records⟩
  rw [getVersionAt, h.count, scan_eq]
  · congr 1
    refine foldl_ext _ _ _ fun best e _ => ?_
    split <;> rfl
  · refine h.sorted.key_le.imp fun {a b} hle hstop best => if_neg fun hb => ?_
    exact absurd hle (not_le.2 (hb.1 ▸ of_decide_eq_true hstop))

theorem firstWriteInRange_first (h : page.Ok) : ∃ r, page.firstWriteInRange key readTs commitTs = .ok r ∧
      IsFirst (·.commitTs) (ofEntries (·.commitTs) page.records) (· = key) readTs commitTs r := by
  refine ⟨_, ?_, foldl_entries page.records⟩
  rw [firstWriteInRange, h.count, scan_eq]
  · congr 1
    refine foldl_ext _ _ _ fun best e _ => ?_
    simp only [versionInWindow, Bool.and_eq_true, decide_eq_true_eq]
    split <;> rfl
  · refine h.sorted.key_le.imp fun {a b} hle hstop best => if_neg fun hb => ?_
    exact absurd hle (not_le.2 (hb.1 ▸ of_decide_eq_true hstop))

theorem firstKeyRangeWriteInRange_first (h : page.Ok) (lower upper : Option Key) :
    ∃ r, page.firstKeyRangeWriteInRange lower upper readTs commitTs = .ok r ∧
      IsFirst (·.commitTs) (ofEntries (·.commitTs) page.records) (keyInBounds · lower upper = true)
        readTs commitTs r := by
  refine ⟨_, ?_, foldl_entries page.records⟩
  rw [firstKeyRangeWriteInRange, h.count, scan_eq]
  · congr 1
    refine foldl_ext _ _ _ fun best e _ => ?_
    simp only [versionInWindow, Bool.and_eq_true, decide_eq_true_eq]
    split <;> rfl
  · refine h.sorted.key_le.imp fun {a b} hle hstop best => if_neg fun hb => ?_
    cases upper with
    | none => cases hstop
    | some u =>
      have hlt : u < a.1 := by simpa using hstop
      have hle' : b.1 ≤ u := by
        have := hb.1
        simp only [keyInBounds, Bool.and_eq_true] at this
        simpa using this.2
      exact absurd (le_trans hle hle') (not_le.2 hlt)

theorem extendEntries_eq (h : page.Ok) (out : List IndexEntry) :
    page.extendEntries out = .ok (out ++ page.records) := by
  rw [extendEntries, h.count, scan_eq]
  · rw [foldl_append_eq_append, ← flatMap_def, flatMap_singleton']
  · exact List.Pairwise.imp (fun _ hstop => by cases hstop) h.sorted

end IndexPage

/-! ## What a file holds -/

namespace ImmutableIndex
variable {seahash} {index : ImmutableIndex} {es : List IndexEntry}

def pagesOf (index : ImmutableIndex) (entry : BucketDirectoryEntry) : List IndexPage :=
  (index.pages.drop entry.startPage).take entry.pageCount

/-- The file holds the entries `es`, each in a page of the bucket of its key, and its filters know them. -/
structure Holds (seahash : Key → UInt64) (index : ImmutableIndex) (es : List IndexEntry) : Prop where
  sorted : SortedEntries es
  buckets : index.bucketDirectory ≠ []
  within : ∀ entry ∈ index.bucketDirectory, entry.startPage + entry.pageCount ≤ index.pages.length
  records : ∀ b entry, index.bucketDirectory[b]? = some entry → (index.pagesOf entry).flatMap (·.records) =
    es.filter fun e => bucketIndexForKey seahash e.1 index.bucketDirectory.length = b
  count : ∀ page ∈ index.pages, page.entryCount = page.records.length
  pageBloom : ∀ page ∈ index.pages, ∀ e ∈ page.records,
    Bloom.mayContain page.bloom (bloomBitsForKey seahash e.1) = true
  fileBloom : ∀ e ∈ es, index.mayContain seahash e.1 = true

variable {entry : BucketDirectoryEntry} {page : IndexPage} {key : Key}

theorem forPages_eq {β : Type} {step : β → IndexPage → Except IndexError β}
    (h : entry.startPage + entry.pageCount ≤ index.pages.length) (best : β) :
    index.forPages entry best step = (index.pagesOf entry).foldlM step best := by
  obtain ⟨start, count⟩ := entry
  simp only [forPages, pagesOf] at h ⊢
  induction count generalizing start best with
  | zero => rfl
  | succ count ih =>
    have hlt : start < index.pages.length := by omega
    rw [range'_succ, foldlM_cons, drop_eq_getElem_cons hlt, take_succ_cons, foldlM_cons]
    have hpage : index.page start = .ok index.pages[start] := by
      rw [page, getElem?_eq_getElem hlt]
    rw [hpage]
    show (step best index.pages[start] >>= _) = _
    congr 1
    funext best'
    exact ih best' (start + 1) (by omega)

theorem mem_pagesOf (h : page ∈ index.pagesOf entry) : page ∈ index.pages := mem_of_mem_drop (mem_of_mem_take h)

theorem Holds.pageOk (h : index.Holds seahash es) {b : Nat} (hb : index.bucketDirectory[b]? = some entry)
    (hpage : page ∈ index.pagesOf entry) : page.Ok := by
  refine ⟨h.count page (mem_pagesOf hpage), ?_⟩
  have hsorted : SortedEntries ((index.pagesOf entry).flatMap (·.records)) := by
    rw [h.records b entry hb]
    exact h.sorted.filter _
  exact hsorted.sublist (flatMap_def ▸ sublist_flatten_of_mem (mem_map_of_mem hpage))

theorem Holds.bucketOf (h : index.Holds seahash es) (key : Key) :
    index.bucketDirectory[bucketIndexForKey seahash key index.bucketDirectory.length]? =
      some (index.bucketOf seahash key) := by
  have hpos : 0 < index.bucketDirectory.length := length_pos_of_ne_nil h.buckets
  have hlt : bucketIndexForKey seahash key index.bucketDirectory.length < index.bucketDirectory.length := by
    have : bucketIndexForKey seahash key index.bucketDirectory.length ≤ index.bucketDirectory.length - 1 :=
      Nat.and_le_right
    omega
  rw [ImmutableIndex.bucketOf, getD_eq_getElem?_getD, getElem?_eq_getElem hlt, getD_some]

def bucketPages (index : ImmutableIndex) : List IndexPage := index.bucketDirectory.flatMap index.pagesOf

def table (index : ImmutableIndex) : Table Key PrimaryIndexVersion :=
  ofEntries (·.commitTs) (index.bucketPages.flatMap (·.records))

section
variable (h : index.Holds seahash es)
include h

namespace Holds

theorem records_eq : index.bucketPages.flatMap (·.records) = (range index.bucketDirectory.length).flatMap fun b =>
        es.filter fun e => bucketIndexForKey seahash e.1 index.bucketDirectory.length = b := by
  rw [bucketPages, flatMap_assoc, flatMap_def, flatMap_def]
  congr 1
  refine ext_getElem? fun b => ?_
  rw [getElem?_map, getElem?_map]
  cases hb : index.bucketDirectory[b]? with
  | none => rw [getElem?_eq_none (by simpa using hb), map_none, map_none]
  | some entry =>
    obtain ⟨hlt, -⟩ := List.getElem?_eq_some_iff.1 hb
    rw [getElem?_range hlt, map_some, map_some, h.records b entry hb]

theorem mem_records (e : IndexEntry) : e ∈ index.bucketPages.flatMap (·.records) ↔ e ∈ es := by
  rw [h.records_eq, mem_flatMap]
  constructor
  · intro ⟨b, _, he⟩
    exact mem_of_mem_filter he
  · intro he
    obtain ⟨hlt, -⟩ := List.getElem?_eq_some_iff.1 (h.bucketOf e.1)
    exact ⟨_, mem_range.2 hlt, mem_filter.2 ⟨he, decide_eq_true rfl⟩⟩

theorem unique_records : Unique (·.commitTs) (index.bucketPages.flatMap (·.records)) := by
  have hes : es.Pairwise fun a b => (a.1, a.2.commitTs) ≠ (b.1, b.2.commitTs) := pairwise_map.1 h.sorted.unique
  rw [h.records_eq, Versioned.Unique, List.Nodup, pairwise_map, pairwise_flatMap]
  refine ⟨fun b _ => hes.filter _, pairwise_lt_range.imp fun {b c} hlt => ?_⟩
  -- entries of two buckets have different keys
  intro x hx y hy heq
  have hxb := of_decide_eq_true (mem_filter.1 hx).2
  have hyc := of_decide_eq_true (mem_filter.1 hy).2
  have hkey : x.1 = y.1 := (Prod.ext_iff.1 heq).1
  rw [hkey, hyc] at hxb
  omega

theorem table_eq : index.table = ofEntries (·.commitTs) es :=
  ofEntries_congr h.unique_records h.sorted.unique h.mem_records

/-- The bucket of a key has all that the file has of it. -/
theorem table_bucket (key : Key) (t : Nat) :
    ofEntries (·.commitTs) ((index.pagesOf (index.bucketOf seahash key)).flatMap (·.records)) key t =
      index.table key t := by
  rw [h.table_eq, h.records _ _ (h.bucketOf key)]
  exact ofEntries_filter fun w => decide_eq_true rfl

theorem table_absent (hkey : index.mayContain seahash key = false ∨ (index.bucketOf seahash key).pageCount = 0)
    (t : Nat) : index.table key t = none := by
  rcases hkey with hbloom | hcount
  · rw [h.table_eq]
    refine ofEntries_eq_none.2 fun w hw => ?_
    have := h.fileBloom (key, w) hw
    rw [hbloom] at this
    cases this
  · rw [← h.table_bucket, pagesOf, hcount, take_zero]
    rfl

/-- A page whose filter denies the key has nothing of it. -/
theorem page_absent (hpage : page ∈ index.pages)
    (hbloom : Bloom.mayContain page.bloom (bloomBitsForKey seahash key) = false) (t : Nat) :
    ofEntries (·.commitTs) page.records key t = none := by
  refine ofEntries_eq_none.2 fun w hw => ?_
  have := h.pageBloom page hpage (key, w) hw
  rw [hbloom] at this
  cases this

theorem within_bucketOf (key : Key) :
    (index.bucketOf seahash key).startPage + (index.bucketOf seahash key).pageCount ≤ index.pages.length :=
  h.within _ (mem_of_getElem? (h.bucketOf key))

end Holds

end

section
variable (h : index.Holds seahash es)
include h

namespace Holds

theorem getVersionAt_latest (key : Key) (readTs : Nat) :
    ∃ r, index.getVersionAt seahash key readTs = .ok r ∧ IsLatest (·.commitTs) index.table key readTs r := by
  by_cases hskip : index.mayContain seahash key = false ∨ (index.bucketOf seahash key).pageCount = 0
  · refine ⟨none, ?_, IsLatest.of_absent (h.table_absent hskip)⟩
    rcases hskip with hbloom | hcount
    · simp [getVersionAt, hbloom]
    · simp [getVersionAt, hcount]
  · rw [not_or, Bool.not_eq_false] at hskip
    rw [getVersionAt, if_neg (by simp [h.buckets, hskip.1]), if_neg hskip.2, forPages_eq (h.within_bucketOf key)]
    -- a page that its filter skips is a page that was read and has nothing
    let read : IndexPage → Except IndexError (Option PrimaryIndexVersion) := fun page =>
      if Bloom.mayContain page.bloom (bloomBitsForKey seahash key) then page.getVersionAt key readTs else .ok none
    have hread : ∀ page ∈ index.pagesOf (index.bucketOf seahash key), ∃ r, read page = .ok r ∧
        IsLatest (·.commitTs) (ofEntries (·.commitTs) page.records) key readTs r := by
      intro page hpage
      simp only [read]
      split
      · exact IndexPage.getVersionAt_latest (h.pageOk (h.bucketOf key) hpage)
      · rename_i hbloom
        exact ⟨none, rfl, IsLatest.of_absent (h.page_absent (mem_pagesOf hpage) (Bool.eq_false_iff.2 hbloom))⟩
    obtain ⟨r, hr, hlatest⟩ := foldlM_layers (IsLatest _ · _ _ ·) IsLatest.select
      (IsLatest.of_absent (T := empty) fun _ => rfl) hread
    refine ⟨r, ?_, ?_⟩
    · rw [← hr]
      congr 1
      funext best page
      simp only [read]
      split <;> rfl
    · rw [stack_ofEntries, empty_override] at hlatest
      exact hlatest.congr fun t => (h.table_bucket key t).symm

theorem firstWriteInRange_first (key : Key) (readTs commitTs : Nat) :
    ∃ r, index.firstWriteInRange seahash key readTs commitTs = .ok r ∧
      IsFirst (·.commitTs) index.table (· = key) readTs commitTs r := by
  by_cases hwindow : commitTs ≤ readTs
  · exact ⟨none, by simp [firstWriteInRange, hwindow], fun _ t _ hlt hle => by omega⟩
  by_cases hskip : index.mayContain seahash key = false ∨ (index.bucketOf seahash key).pageCount = 0
  · refine ⟨none, ?_, of_absent fun k hk => hk ▸ h.table_absent hskip⟩
    rcases hskip with hbloom | hcount
    · simp [firstWriteInRange, hbloom]
    · simp [firstWriteInRange, hcount]
  · rw [not_or, Bool.not_eq_false] at hskip
    rw [firstWriteInRange, if_neg (by simp [h.buckets, hskip.1, hwindow]), if_neg hskip.2,
      forPages_eq (h.within_bucketOf key)]
    let search : IndexPage → Except IndexError (Option IndexEntry) := fun page =>
      if Bloom.mayContain page.bloom (bloomBitsForKey seahash key) then page.firstWriteInRange key readTs commitTs
      else .ok none
    have hsearch : ∀ page ∈ index.pagesOf (index.bucketOf seahash key), ∃ r, search page = .ok r ∧
        IsFirst (·.commitTs) (ofEntries (·.commitTs) page.records) (· = key) readTs commitTs r := by
      intro page hpage
      simp only [search]
      split
      · exact IndexPage.firstWriteInRange_first (h.pageOk (h.bucketOf key) hpage)
      · rename_i hbloom
        refine ⟨none, rfl, of_absent fun k hk => ?_⟩
        exact hk ▸ h.page_absent (mem_pagesOf hpage) (Bool.eq_false_iff.2 hbloom)
    obtain ⟨r, hr, hfirst⟩ :=
      foldlM_layers (IsFirst _ · _ _ _ ·) select (of_absent (T := empty) fun _ _ _ => rfl) hsearch
    refine ⟨r, ?_, ?_⟩
    · rw [← hr]
      congr 1
      funext best page
      simp only [search]
      split <;> rfl
    · rw [stack_ofEntries, empty_override] at hfirst
      exact hfirst.congr fun k hk t => hk ▸ (h.table_bucket key t).symm

theorem foldlM_buckets {β : Type} {step : β → IndexPage → Except IndexError β} (best : β) :
    index.bucketDirectory.foldlM (fun best bucket => index.forPages bucket best step) best =
      index.bucketPages.foldlM step best := by
  have hwithin := h.within
  rw [bucketPages]
  generalize index.bucketDirectory = directory at hwithin
  induction directory generalizing best with
  | nil => rfl
  | cons entry directory ih =>
    rw [foldlM_cons, flatMap_cons, foldlM_append, forPages_eq (hwithin entry mem_cons_self)]
    congr 1
    funext best'
    exact ih best' fun e he => hwithin e (mem_cons_of_mem entry he)

theorem bucketPageOk (hpage : page ∈ index.bucketPages) : page.Ok := by
  obtain ⟨entry, hentry, hpage⟩ := mem_flatMap.1 hpage
  obtain ⟨b, hb⟩ := getElem?_of_mem hentry
  exact h.pageOk hb hpage

theorem firstKeyRangeWriteInRange_first (lower upper : Option Key) (readTs commitTs : Nat) :
    ∃ r, index.firstKeyRangeWriteInRange lower upper readTs commitTs = .ok r ∧
      IsFirst (·.commitTs) index.table (keyInBounds · lower upper = true) readTs commitTs r := by
  by_cases hwindow : commitTs ≤ readTs
  · exact ⟨none, by simp [firstKeyRangeWriteInRange, hwindow], fun _ t _ hlt hle => by omega⟩
  rw [firstKeyRangeWriteInRange, if_neg (by simp [h.buckets, hwindow]), h.foldlM_buckets]
  have hfold := foldlM_layers (IsFirst _ · _ _ _ ·) select (of_absent (T := empty) fun _ _ _ => rfl) fun page hpage =>
    @IndexPage.firstKeyRangeWriteInRange_first page readTs commitTs (h.bucketPageOk hpage) lower upper
  rwa [stack_ofEntries, empty_override] at hfold

/-- What is read back has every entry once. -/
theorem entries_eq : index.entries = .ok (index.bucketPages.flatMap (·.records)) := by
  rw [entries, h.foldlM_buckets]
  rw [foldlM_ok fun out page hpage => IndexPage.extendEntries_eq (h.bucketPageOk hpage) out, foldl_append_eq_append,
    nil_append, flatMap_def]

end Holds

end

end ImmutableIndex

/-! ## What the writer makes -/

section
variable {seahash}

def bodyLenOf (records : List IndexEntry) : Nat := (records.map recordLen).sum

theorem bodyLenOf_append (a b : List IndexEntry) : bodyLenOf (a ++ b) = bodyLenOf a + bodyLenOf b := by
  simp [bodyLenOf]

theorem length_le_bodyLenOf (records : List IndexEntry) : 20 * records.length ≤ bodyLenOf records := by
  induction records with
  | nil => exact le_rfl
  | cons e rest ih =>
    simp only [bodyLenOf, recordLen, map_cons, sum_cons, length_cons] at ih ⊢
    omega

structure Written (seahash : Key → UInt64) (page : IndexPage) : Prop where
  finished : page = finishPage seahash page.records
  fits : bodyLenOf page.records ≤ maxBodyLen

theorem Written.count {page : IndexPage} (h : Written seahash page) : page.entryCount = page.records.length := by
  have hlen := length_le_bodyLenOf page.records
  have hfits : bodyLenOf page.records ≤ 4056 := h.fits
  rw [h.finished]
  exact Nat.mod_eq_of_lt (by show page.records.length < 2 ^ 16; omega)

theorem Written.bloom {page : IndexPage} (h : Written seahash page) {e : IndexEntry} (he : e ∈ page.records) :
    Bloom.mayContain page.bloom (bloomBitsForKey seahash e.1) = true := by
  rw [h.finished]
  refine @Bloom.mayContain_addAll IndexEntry (fun e => bloomBitsForKey seahash e.1) _ _ e he fun bit hbit => ?_
  obtain ⟨idx, -, rfl⟩ := mem_map.1 hbit
  exact Nat.mod_lt _ (by decide)

theorem paginate_spec {bucket page : List IndexEntry} {ps : List IndexPage} {bodyLen : Nat}
    (h : paginate seahash bucket page bodyLen = .ok ps) (hlen : bodyLen = bodyLenOf page)
    (hfits : bodyLen ≤ maxBodyLen) : ps.flatMap (·.records) = page ++ bucket ∧ ∀ p ∈ ps, Written seahash p := by
  induction bucket generalizing page bodyLen ps with
  | nil =>
    cases h
    split
    · rename_i hempty
      simp [isEmpty_iff.1 hempty]
    · refine ⟨by simp [finishPage], fun p hp => ?_⟩
      obtain rfl := mem_singleton.1 hp
      exact ⟨rfl, hlen ▸ hfits⟩
  | cons e rest ih =>
    rw [paginate] at h
    split at h
    · cases h
    rename_i hfit
    split at h
    · -- the page is closed before the record
      cases hrest : paginate seahash rest [e] (recordLen e) with
      | error err =>
        rw [hrest] at h
        cases h
      | ok more =>
        rw [hrest] at h
        cases h
        obtain ⟨hrecords, hwritten⟩ := ih hrest (by simp [bodyLenOf]) (by omega)
        exact ⟨by simp [hrecords, finishPage], forall_mem_cons.2 ⟨⟨rfl, hlen ▸ hfits⟩, hwritten⟩⟩
    · rename_i hopen
      have hroom : bodyLen + recordLen e ≤ maxBodyLen := by
        by_cases hpage : page = []
        · simp only [hpage, bodyLenOf, map_nil, sum_nil] at hlen
          omega
        · exact not_lt.1 fun hlt => hopen ⟨hlt, hpage⟩
      obtain ⟨hrecords, hwritten⟩ := ih h (by rw [bodyLenOf_append, hlen]; simp [bodyLenOf]) hroom
      exact ⟨by rw [hrecords, append_assoc, singleton_append], hwritten⟩

def Lays (pages : List IndexPage) (entry : BucketDirectoryEntry) (bucket : List IndexEntry) : Prop :=
  entry.startPage + entry.pageCount ≤ pages.length ∧
    ((pages.drop entry.startPage).take entry.pageCount).flatMap (·.records) = bucket

/-- Start pages are exact because the file has fewer than `2 ^ 32` pages in the end. -/
theorem layBuckets_spec {buckets : List (List IndexEntry)} {directory directory' : List BucketDirectoryEntry}
    {pages pages' : List IndexPage} (h : layBuckets seahash buckets directory pages = .ok (directory', pages'))
    (hlen : pages'.length < 2 ^ 32) (hpages : ∀ p ∈ pages, Written seahash p) :
    ∃ new more, directory' = directory ++ new ∧ pages' = pages ++ more ∧
      List.Forall₂ (Lays pages') new buckets ∧ ∀ p ∈ pages', Written seahash p := by
  induction buckets generalizing directory pages with
  | nil =>
    cases h
    exact ⟨[], [], by simp, by simp, .nil, hpages⟩
  | cons bucket buckets ih =>
    rw [layBuckets] at h
    cases hbucket : paginate seahash bucket [] 0 with
    | error err =>
      rw [hbucket] at h
      cases h
    | ok bucketPages =>
      rw [hbucket] at h
      obtain ⟨hrecords, hwritten⟩ := paginate_spec hbucket rfl (Nat.zero_le _)
      obtain ⟨new, more, hdir, hpages', hlays, hall'⟩ := ih h (forall_mem_append.2 ⟨hpages, hwritten⟩)
      rw [hpages', length_append, length_append] at hlen
      refine ⟨_, bucketPages ++ more, by rw [hdir, append_assoc, singleton_append],
        by rw [hpages', append_assoc], List.Forall₂.cons ?_ hlays, hall'⟩
      rw [length_append, Nat.mod_eq_of_lt (by omega), Nat.mod_eq_of_lt (by omega), Nat.add_sub_cancel_left]
      constructor
      · show pages.length + bucketPages.length ≤ pages'.length
        rw [hpages', length_append, length_append]
        omega
      · rw [hpages', append_assoc, drop_left, take_left, hrecords, nil_append]

theorem length_fileBloomOf (entries : List IndexEntry) :
    (fileBloomOf seahash entries).length = fileBloomWords entries.length := by
  rw [fileBloomOf, @Bloom.length_addAll IndexEntry fun e => fileBloomBitsForKey seahash e.1 _, length_replicate]

variable {entries : List IndexEntry} {index : ImmutableIndex}

theorem fileBloomOf_mayContain {e : IndexEntry} (he : e ∈ entries) : Bloom.mayContain (fileBloomOf seahash entries)
      (fileBloomBitsForKey seahash e.1 ((fileBloomOf seahash entries).length * 64)) = true := by
  rw [length_fileBloomOf]
  refine @Bloom.mayContain_addAll IndexEntry (fun e => fileBloomBitsForKey seahash e.1 _) _ _ e he fun bit hbit => ?_
  obtain ⟨round, -, rfl⟩ := mem_map.1 hbit
  have hpos : 0 < fileBloomWords entries.length := by
    simp only [fileBloomWords]
    omega
  rw [length_replicate, Nat.mul_comm]
  exact Nat.mod_lt _ (by omega)

theorem sorted_normalizeEntries (entries : List IndexEntry) : SortedEntries (normalizeEntries entries) :=
  sorted_foldl_insertBy List.Pairwise.nil

theorem nextPowerOfTwo_go_pos (n fuel p : Nat) (hp : 0 < p) : 0 < nextPowerOfTwo.go n fuel p := by
  induction fuel generalizing p with
  | zero => exact hp
  | succ fuel ih =>
    rw [nextPowerOfTwo.go]
    split
    · exact hp
    · exact ih (2 * p) (by omega)

theorem chooseBucketCount_pos (n : Nat) : 0 < chooseBucketCount n := by
  rw [chooseBucketCount]
  split
  · exact Nat.one_pos
  · exact nextPowerOfTwo_go_pos _ 64 1 Nat.one_pos

/-- The part of a bucket is already in order. -/
theorem insertionSort_filter {es : List IndexEntry} (h : SortedEntries es) (p : IndexEntry → Bool) :
    (es.filter p).insertionSort (fun a b => entryKey a ≤ entryKey b) = es.filter p :=
  List.Pairwise.insertionSort_eq ((h.filter p).imp fun hlt => le_of_lt hlt)

theorem ofEntries_insertBy (e : IndexEntry) (m : List IndexEntry) :
    ofEntries (·.commitTs) (insertBy entryKey e m) = ofEntries (·.commitTs) (e :: m) := by
  induction m with
  | nil => rfl
  | cons d m ih =>
    unfold insertBy
    split
    · rfl
    funext k t
    split
    · rename_i hlt
      have hne : ¬ ((d.1 = k ∧ d.2.commitTs = t) ∧ e.1 = k ∧ e.2.commitTs = t) := by
        rintro ⟨hd, he⟩
        exact absurd hlt (by rw [entryKey, entryKey, hd.1, hd.2, he.1, he.2]; exact lt_irrefl _)
      rw [ofEntries_cons, ih, ofEntries_cons, ofEntries_cons, ofEntries_cons]
      split
      · rename_i hd
        rw [if_neg fun he => hne ⟨hd, he⟩]
      · rfl
    · rename_i hge hle
      have heq : toLex (d.1, d.2.commitTs) = toLex (e.1, e.2.commitTs) := le_antisymm (not_lt.1 hge) (not_lt.1 hle)
      have hsame : (d.1, d.2.commitTs) = (e.1, e.2.commitTs) := toLex.injective heq
      rw [Prod.mk.injEq] at hsame
      rw [ofEntries_cons, ofEntries_cons, ofEntries_cons, hsame.1, hsame.2]
      split <;> rfl

/-- The later of two entries at one key and time stays. -/
theorem ofEntries_normalizeEntries (entries : List IndexEntry) :
    ofEntries (·.commitTs) (normalizeEntries entries) = ofEntries (·.commitTs) entries.reverse := by
  induction entries using reverseRecOn with
  | nil => rfl
  | append_singleton entries e ih =>
    rw [normalizeEntries, foldl_append, ← normalizeEntries, reverse_append, foldl_cons,
      foldl_nil, ofEntries_insertBy, reverse_singleton, ofEntries_append, ← ih]
    exact @ofEntries_append _ _ _ _ [e] (normalizeEntries entries)

/-- A file holds what it was written with. -/
theorem writeEntries_holds
    (h : writeEntries seahash entries = .ok index) : index.Holds seahash (normalizeEntries entries) := by
  have hsorted := sorted_normalizeEntries entries
  simp only [writeEntries] at h
  generalize normalizeEntries entries = es at h hsorted ⊢
  have hpos := chooseBucketCount_pos es.length
  generalize chooseBucketCount es.length = bucketCount at h hpos
  simp only [insertionSort_filter hsorted] at h
  split at h
  · cases h
  rename_i directory pages hlay
  split at h
  · cases h
  split at h
  · cases h
  rename_i hpages
  split at h
  · cases h
  · cases h
    obtain ⟨new, more, hdir, -, hlays, hwritten⟩ := layBuckets_spec hlay (by omega) (fun p hp => by cases hp)
    obtain rfl : directory = new := hdir
    have hlen : directory.length = bucketCount := by rw [hlays.length_eq, length_map, length_range]
    have hlays' : ∀ b entry, directory[b]? = some entry →
        Lays pages entry (es.filter fun e => bucketIndexForKey seahash e.1 bucketCount = b) := by
      intro b entry hb
      obtain ⟨hlt, rfl⟩ := List.getElem?_eq_some_iff.1 hb
      have hget := hlays.get (i := b) hlt (by rw [length_map, length_range]; omega)
      simpa using hget
    refine ⟨hsorted, ?_, ?_, ?_, ?_, ?_, ?_⟩
    · exact ne_nil_of_length_pos (hlen ▸ hpos)
    · intro entry hentry
      obtain ⟨b, hb⟩ := getElem?_of_mem hentry
      exact (hlays' b entry hb).1
    · intro b entry hb
      show ((pages.drop entry.startPage).take entry.pageCount).flatMap (·.records) = _
      rw [(hlays' b entry hb).2, hlen]
    · exact fun page hpage => (hwritten page hpage).count
    · exact fun page hpage e he => (hwritten page hpage).bloom he
    · exact fun e he => fileBloomOf_mayContain he

theorem table_of_writeEntries
    (h : writeEntries seahash entries = .ok index) : index.table = ofEntries (·.commitTs) entries.reverse := by
  rw [(writeEntries_holds h).table_eq, ofEntries_normalizeEntries]

end

end Paro.L1
