import Paro.L2Machine.PrimaryIndex

/-!
# The persistent primary index

Model of crates/storage/src/primary_key/persistent_index.rs: a write-ahead log with its in-memory index, L1 files
written by flushes, and one L2 file written by compactions. A compaction has three steps: `prepareCompaction`
takes the files of the moment, `executeCompaction` merges them into a staging file without a lock, and
`publishCompaction` puts the result in the place of exactly those files.

The disk is the manifest, the logs, the index files and the staging files; a file is read back as it was written, so a
log is the list of its records. Replacing the manifest is one rename, and what was written before a failure stays. The
reader cache is left out: writing a file drops the cached reader of its path, so a cached reader is a reader of the
file. Counters are natural numbers. The applied LSN and the provenance are carried along by the source and read by
none of these functions; they are left out.

`view` is what the layers say together, and the lookups are exact for it (`getVersionAt_latest`,
`lookupVersionsAt_latest`, `firstWriteInRange_first`, `firstKeyRangeWriteInRange_first`, `load_table`).
`La-b` are lines of this file.
-/
namespace Paro.L2
open Versioned SortedList L1 List PrimaryIndex

structure Hashes where
  seahash : Key → UInt64
  defaultHash : Key → UInt64

def formatVersion : Nat := 6
def minorCompactionThreshold : Nat := 5

/-- L35-38 -/
inductive ImmutableIndexLevel
  | l1
  | l2
deriving DecidableEq, Repr

/-- L50-55 -/
structure ImmutableFileMeta where
  fileId : Nat
  level : ImmutableIndexLevel
  (editVersion entryCount : Nat)
deriving DecidableEq, Repr

/-- L88-112 -/
structure Manifest where
  formatVersion : Nat := L2.formatVersion
  activeWalId : Nat := 0
  nextFileId : Nat := 1
  editVersion : Nat := 0
  l1Files : List ImmutableFileMeta := []
  l2File : Option ImmutableFileMeta := none
deriving DecidableEq, Repr

structure Disk where
  manifest : Option Manifest
  wal : Nat → Option (List IndexEntry)
  idx : ImmutableIndexLevel → Nat → Option ImmutableIndex
  staging : Nat → Option ImmutableIndex

namespace Disk

def empty : Disk := ⟨none, fun _ => none, fun _ _ => none, fun _ => none⟩

variable (disk : Disk)

def writeWal (id : Nat) (records : List IndexEntry) : Disk :=
  { disk with wal := fun i => if i = id then some records else disk.wal i }

def setIdx (level : ImmutableIndexLevel) (id : Nat) (file : Option ImmutableIndex) : Disk :=
  { disk with idx := fun l i => if l = level ∧ i = id then file else disk.idx l i }

def setStaging (id : Nat) (file : Option ImmutableIndex) : Disk :=
  { disk with staging := fun i => if i = id then file else disk.staging i }

def openReader (file : ImmutableFileMeta) : Except IndexError ImmutableIndex :=
  match disk.idx file.level file.fileId with
  | none => .error (.fileMissing file.fileId)
  | some reader => .ok reader

/-- The newest L1 file first, the L2 file last. L804-827 -/
def openImmutableReaders (l1Files : List ImmutableFileMeta) (l2File : Option ImmutableFileMeta) :
    Except IndexError (List ImmutableIndex) :=
  (l1Files.insertionSort (fun a b => b.editVersion ≤ a.editVersion) ++ l2File.toList).mapM disk.openReader

end Disk

/-- L123-146 -/
structure PersistentIndex (H : Hashes) where
  disk : Disk
  (activeWalId nextFileId editVersion : Nat)
  l1Files : List ImmutableFileMeta
  l2File : Option ImmutableFileMeta
  compactionInProgress : Bool
  activeWalIndex : PrimaryIndex H.defaultHash
  immutableReaders : List ImmutableIndex

/-- The staging file and the final file are named by the output file id. L151-158 -/
structure CompactionPlan where
  selectedL1FileIds : List Nat
  expectedL2FileId : Option Nat
  readers : List ImmutableIndex
  outputFileId : Nat

/-- L160-162 -/
structure CompactionOutput where
  entryCount : Nat

namespace PersistentIndex
variable {H : Hashes} (index : PersistentIndex H)

/-- L910-921 -/
def manifestSnapshot : Manifest where
  activeWalId := index.activeWalId
  nextFileId := index.nextFileId
  editVersion := index.editVersion
  l1Files := index.l1Files
  l2File := index.l2File

/-- L923-931 -/
def installManifest (manifest : Manifest) : PersistentIndex H :=
  { index with
    activeWalId := manifest.activeWalId
    nextFileId := manifest.nextFileId
    editVersion := manifest.editVersion
    l1Files := manifest.l1Files
    l2File := manifest.l2File }

/-- L958-993 -/
def cleanupObsoleteFiles : PersistentIndex H :=
  { index with
    disk :=
      { index.disk with
        wal := fun id => if id < index.activeWalId then none else index.disk.wal id
        idx := fun level id =>
          match level with
          | .l1 => if id ∈ index.l1Files.map (·.fileId) then index.disk.idx .l1 id else none
          | .l2 => if index.l2File.map (·.fileId) = some id then index.disk.idx .l2 id else none
        staging := fun id => if index.compactionInProgress then index.disk.staging id else none } }

/-- L191-277 -/
def new (disk : Disk) : Except IndexError (PersistentIndex H) :=
  let manifest := disk.manifest.getD {}
  if manifest.formatVersion ≠ L2.formatVersion then .error (.unsupportedManifest manifest.formatVersion)
  else if (manifest.l1Files.any fun file => file.level ≠ .l1) || (manifest.l2File.any fun file => file.level ≠ .l2) then
    .error .manifestLevels
  else
    let maxKnownFileId := (manifest.l1Files ++ manifest.l2File.toList).foldl (fun m file => max m file.fileId) 0
    let records := (disk.wal manifest.activeWalId).getD []
    let disk := disk.writeWal manifest.activeWalId records
    let index : PersistentIndex H :=
      { disk := disk
        activeWalId := manifest.activeWalId
        nextFileId := max (max manifest.nextFileId (maxKnownFileId + 1)) 1
        editVersion := max (max manifest.editVersion
          (manifest.l1Files.foldl (fun m file => max m file.editVersion) 0))
          (manifest.l2File.elim 0 (·.editVersion))
        l1Files := manifest.l1Files
        l2File := manifest.l2File
        compactionInProgress := false
        activeWalIndex := PrimaryIndex.new.batchApplyVersions records
        immutableReaders := [] }
    match disk.openImmutableReaders index.l1Files index.l2File with
    | .error e => .error e
    | .ok readers => .ok { index with immutableReaders := readers }.cleanupObsoleteFiles

/-! ## Writing -/

variable (records : List IndexEntry)

def appendWal (walIndex : PrimaryIndex H.defaultHash) : PersistentIndex H :=
  { index with
    disk := index.disk.writeWal index.activeWalId ((index.disk.wal index.activeWalId).getD [] ++ records)
    activeWalIndex := walIndex }

/-- L304-329 -/
def applyUpsertsAt (pairs : List (Key × Nat)) (commitTs : Nat) : PersistentIndex H :=
  if pairs = [] then index
  else
    index.appendWal (pairs.map fun pair => (pair.1, ⟨pair.2, commitTs⟩))
      (index.activeWalIndex.batchUpsertAt pairs commitTs)

/-- L335-362 -/
def applyDeletesAt (keys : List Key) (commitTs : Nat) : PersistentIndex H :=
  if keys = [] then index
  else
    index.appendWal (keys.map fun key => (key, PrimaryIndexVersion.tombstone commitTs))
      (keys.foldl (fun walIndex key => walIndex.removeAt key commitTs) index.activeWalIndex)

/-- The first half of a flush: the records become an L1 file. L523-540 -/
def flushRecords : Except IndexError (Manifest × Disk) :=
  let next := index.manifestSnapshot
  if records = [] then .ok (next, index.disk)
  else
    match writeEntries H.seahash records with
    | .error e => .error e
    | .ok file =>
      .ok
        ({ next with
            editVersion := next.editVersion + 1
            l1Files := next.l1Files ++
              [⟨next.nextFileId, .l1, next.editVersion + 1, (normalizeEntries records).length⟩]
            nextFileId := next.nextFileId + 1 },
          index.disk.setIdx .l1 next.nextFileId (some file))

/-- L517-574 -/
def flushL0 (idx : PrimaryIndex H.defaultHash) (truncateWal : Bool) :
    PersistentIndex H × Except IndexError Unit :=
  match index.flushRecords (index.activeWalIndex.snapshotVersions ++ idx.snapshotVersions) with
  | .error e => (index, .error e)
  | .ok (next, disk) =>
    let next := if truncateWal then { next with activeWalId := next.activeWalId + 1 } else next
    let disk := if truncateWal then disk.writeWal next.activeWalId [] else disk
    match disk.openImmutableReaders next.l1Files next.l2File with
    | .error e => ({ index with disk := disk }, .error e)
    | .ok readers =>
      ({ index.installManifest next with
          disk := { disk with manifest := some next }
          immutableReaders := readers
          activeWalIndex := if truncateWal then PrimaryIndex.new else index.activeWalIndex }.cleanupObsoleteFiles,
        .ok ())

/-- The directory is emptied and the counters start again; a plan that is still outstanding is not told.
L576-614 -/
def reset (_old : PersistentIndex H) : PersistentIndex H where
  disk := Disk.empty.writeWal 0 []
  activeWalId := 0
  nextFileId := 1
  editVersion := 0
  l1Files := []
  l2File := none
  compactionInProgress := false
  activeWalIndex := PrimaryIndex.new
  immutableReaders := []

/-! ## Compaction -/

/-- L647-649 -/
def compactionNeeded : Bool := minorCompactionThreshold < index.l1Files.length

/-- The readers are in the order of their age, the oldest first. L657-699 -/
def prepareCompaction : PersistentIndex H × Except IndexError (Option CompactionPlan) :=
  if index.compactionInProgress || !index.compactionNeeded then (index, .ok none)
  else
    match (index.l2File.toList ++ index.l1Files.insertionSort (fun a b => a.editVersion ≤ b.editVersion)).mapM
        index.disk.openReader with
    | .error e => (index, .error e)
    | .ok readers =>
      ({ index with nextFileId := index.nextFileId + 1, compactionInProgress := true },
        .ok (some
          { selectedL1FileIds := index.l1Files.map (·.fileId)
            expectedL2FileId := index.l2File.map (·.fileId)
            readers := readers
            outputFileId := index.nextFileId }))

def mergeKey (e : IndexEntry) : Key × Nat := (e.1, e.2.commitTs)

/-- Of two versions of a key at one time the one of the later reader stays. L705-710 -/
def mergeInto (merged entries : List IndexEntry) : List IndexEntry :=
  entries.foldl (fun merged e => Keyed.put mergeKey e merged) merged

/-- L705-715 -/
def mergeEntries (readers : List ImmutableIndex) : Except IndexError (List IndexEntry) :=
  (fun merged : List IndexEntry => merged.insertionSort (fun a b => entryKey a ≤ entryKey b)) <$>
    readers.foldlM (fun merged reader => mergeInto merged <$> reader.entries) []

variable (plan : CompactionPlan)

/-- L702-718 -/
def executeCompaction : PersistentIndex H × Except IndexError CompactionOutput :=
  match mergeEntries plan.readers with
  | .error e => (index, .error e)
  | .ok entries =>
    match writeEntries H.seahash entries with
    | .error e => (index, .error e)
    | .ok file =>
      ({ index with disk := index.disk.setStaging plan.outputFileId (some file) },
        .ok ⟨(normalizeEntries entries).length⟩)

/-- L728-738 -/
def sourcesStillCurrent : Bool :=
  decide (index.l2File.map (·.fileId) = plan.expectedL2FileId) &&
    plan.selectedL1FileIds.all fun id => index.l1Files.any fun file => file.fileId = id

variable (output : CompactionOutput)

/-- The manifest after a compaction. L753-763 -/
def compactedManifest : Manifest :=
  { index.manifestSnapshot with
    l1Files := index.l1Files.filter fun file => file.fileId ∉ plan.selectedL1FileIds
    editVersion := index.editVersion + 1
    l2File := some ⟨plan.outputFileId, .l2, index.editVersion + 1, output.entryCount⟩ }

/-- L723-787 -/
def publishCompaction : PersistentIndex H × Except IndexError Bool :=
  if !index.sourcesStillCurrent plan then
    ({ index with compactionInProgress := false, disk := index.disk.setStaging plan.outputFileId none }, .ok false)
  else
    match index.disk.staging plan.outputFileId with
    | none => ({ index with compactionInProgress := false }, .error (.fileMissing plan.outputFileId))
    | some file =>
      let disk := (index.disk.setIdx .l2 plan.outputFileId (some file)).setStaging plan.outputFileId none
      let next := index.compactedManifest plan output
      match disk.openImmutableReaders next.l1Files next.l2File with
      | .error e =>
        ({ index with compactionInProgress := false, disk := disk.setIdx .l2 plan.outputFileId none }, .error e)
      | .ok readers =>
        ({ index.installManifest next with
            disk := { disk with manifest := some next }
            immutableReaders := readers
            compactionInProgress := false }.cleanupObsoleteFiles,
          .ok true)

/-- L789-792 -/
def abortCompaction : PersistentIndex H :=
  { index with compactionInProgress := false, disk := index.disk.setStaging plan.outputFileId none }

/-! ## Reading -/

/-- L370-377 -/
def getVersionAt (key : Key) (readTs : Nat) : Except IndexError (Option PrimaryIndexVersion) :=
  index.immutableReaders.foldlM (fun best reader =>
    selectNewer (·.commitTs) best <$> reader.getVersionAt H.seahash key readTs)
    (index.activeWalIndex.getVersionAt key readTs)

/-- L403-425 -/
def lookupVersionsAt (keys : List Key) (readTs : Nat) : Except IndexError (List (Option PrimaryIndexVersion)) :=
  if keys = [] then .ok []
  else if keys.length = 1 then (fun version => [version]) <$> index.getVersionAt (keys.headD []) readTs
  else
    keys.foldlM (fun results key =>
      (fun best => results ++ [best]) <$>
        index.immutableReaders.foldlM (fun best reader =>
          selectNewer (·.commitTs) best <$> reader.getVersionAt H.seahash key readTs)
          (index.activeWalIndex.getVersionAt key readTs)) []

/-- L433-453 -/
def firstWriteInRange (key : Key) (readTs commitTs : Nat) : Except IndexError (Option IndexEntry) :=
  if commitTs ≤ readTs then .ok none
  else
    index.immutableReaders.foldlM (fun best reader =>
      selectEarlier (·.commitTs) best <$> reader.firstWriteInRange H.seahash key readTs commitTs)
      (index.activeWalIndex.firstWriteInRange key readTs commitTs)

/-- L481-504 -/
def firstKeyRangeWriteInRange (lower upper : Option Key) (readTs commitTs : Nat) :
    Except IndexError (Option IndexEntry) :=
  if commitTs ≤ readTs then .ok none
  else
    index.immutableReaders.foldlM (fun best reader =>
      selectEarlier (·.commitTs) best <$> reader.firstKeyRangeWriteInRange lower upper readTs commitTs)
      (index.activeWalIndex.firstKeyRangeWriteInRange lower upper readTs commitTs)

/-- The files are applied from the oldest to the newest, then the log. L287-298 -/
def load : Except IndexError (PrimaryIndex H.defaultHash) :=
  (fun loaded => loaded.batchApplyVersions index.activeWalIndex.snapshotVersions) <$>
    index.immutableReaders.reverse.foldlM (fun loaded reader => loaded.batchApplyVersions <$> reader.entries)
      PrimaryIndex.new

/-! ## What the layers say -/

/-- The log over the files, the newest first. -/
def view : Table Key PrimaryIndexVersion :=
  override index.activeWalIndex.table (stack (index.immutableReaders.map ImmutableIndex.table))

def IsFile (H : Hashes) (file : ImmutableIndex) : Prop := ∃ es, file.Holds H.seahash es

variable {index} {readTs commitTs : Nat}

section
variable (h : ∀ reader ∈ index.immutableReaders, IsFile H reader)
include h

theorem getVersionAt_latest (key : Key) :
    ∃ r, index.getVersionAt key readTs = .ok r ∧ IsLatest (·.commitTs) index.view key readTs r :=
  foldlM_layers (IsLatest _ · _ _ ·) IsLatest.select PrimaryIndex.getVersionAt_latest fun reader hreader =>
    have ⟨_, hes⟩ := h reader hreader
    hes.getVersionAt_latest key readTs

theorem firstWriteInRange_first (key : Key) : ∃ r, index.firstWriteInRange key readTs commitTs = .ok r ∧
      IsFirst (·.commitTs) index.view (· = key) readTs commitTs r := by
  unfold firstWriteInRange
  split
  · exact ⟨none, rfl, fun _ _ _ hlt hle => by omega⟩
  · refine foldlM_layers (IsFirst _ · _ _ _ ·) IsFirst.select PrimaryIndex.firstWriteInRange_first
      fun reader hreader => ?_
    obtain ⟨es, hes⟩ := h reader hreader
    exact hes.firstWriteInRange_first key readTs commitTs

theorem firstKeyRangeWriteInRange_first (lower upper : Option Key) :
    ∃ r, index.firstKeyRangeWriteInRange lower upper readTs commitTs = .ok r ∧
      IsFirst (·.commitTs) index.view (keyInBounds · lower upper = true) readTs commitTs r := by
  unfold firstKeyRangeWriteInRange
  split
  · exact ⟨none, rfl, fun _ _ _ hlt hle => by omega⟩
  · refine foldlM_layers (IsFirst _ · _ _ _ ·) IsFirst.select
      (PrimaryIndex.firstKeyRangeWriteInRange_first lower upper) fun reader hreader => ?_
    obtain ⟨es, hes⟩ := h reader hreader
    exact hes.firstKeyRangeWriteInRange_first lower upper readTs commitTs

end

/-- A batch of lookups is the lookups one by one. -/
theorem lookupVersionsAt_eq {keys : List Key} {value : Key → Option PrimaryIndexVersion}
    (h : ∀ key, index.getVersionAt key readTs = .ok (value key)) :
    index.lookupVersionsAt keys readTs = .ok (keys.map value) := by
  have hloop : ∀ results, keys.foldlM (fun results key =>
      (fun best => results ++ [best]) <$> index.getVersionAt key readTs) results =
        (.ok (results ++ keys.map value) : Except IndexError _) := by
    induction keys with
    | nil => exact fun results => by simp [pure, Except.pure]
    | cons key keys ih =>
      intro results
      rw [foldlM_cons, h key]
      show keys.foldlM _ (results ++ [value key]) = _
      rw [ih, append_assoc]
      rfl
  unfold lookupVersionsAt
  split
  · rename_i hnil
    rw [hnil]
    rfl
  split
  · rename_i hone
    obtain ⟨key, rfl⟩ := length_eq_one_iff.1 hone
    rw [headD_cons, h key]
    rfl
  · exact hloop []

theorem load_table (h : ∀ reader ∈ index.immutableReaders, IsFile H reader) :
    ∃ loaded, index.load = .ok loaded ∧ loaded.table = index.view := by
  have hfold : ∀ (readers : List ImmutableIndex) (base : PrimaryIndex H.defaultHash),
      (∀ reader ∈ readers, IsFile H reader) →
      ∃ loaded, readers.foldlM (fun loaded reader => loaded.batchApplyVersions <$> reader.entries) base =
          (.ok loaded : Except IndexError _) ∧
        loaded.table = override (stack (readers.reverse.map ImmutableIndex.table)) base.table := by
    intro readers
    induction readers with
    | nil => exact fun base _ => ⟨base, rfl, (empty_override _).symm⟩
    | cons reader readers ih =>
      intro base hfiles
      obtain ⟨es, hes⟩ := hfiles reader mem_cons_self
      obtain ⟨loaded, hload, htable⟩ := ih (base.batchApplyVersions (reader.bucketPages.flatMap (·.records)))
        fun r hr => hfiles r (mem_cons_of_mem reader hr)
      refine ⟨loaded, ?_, ?_⟩
      · rw [foldlM_cons, hes.entries_eq]
        exact hload
      · rw [htable, table_batchApplyVersions, ofEntries_reverse hes.unique_records,
          reverse_cons, map_append, stack_append, override_assoc]
        congr 1
        rw [map_singleton, stack, stack, override_empty]
        rfl
  obtain ⟨loaded, hload, htable⟩ := hfold index.immutableReaders.reverse PrimaryIndex.new
    fun reader hreader => h reader (mem_reverse.1 hreader)
  refine ⟨loaded.batchApplyVersions index.activeWalIndex.snapshotVersions, ?_, ?_⟩
  · rw [load, hload]
    rfl
  · rw [table_batchApplyVersions, ofEntries_reverse unique_snapshotVersions,
      table_snapshotVersions, htable, table_new, override_empty, reverse_reverse, view]

end PersistentIndex

end Paro.L2
