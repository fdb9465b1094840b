import Mathlib.Data.List.TakeWhile
import Paro.L2Machine.PersistentIndex

/-!
# The persistent primary index is a versioned map

Runs of the index: batches of upserts and deletes, flushes, the three steps of a compaction or its abort, and
closing and reopening, in any order. `Op.writes` is what an operation writes, and the reference is the list of all
writes of the run (`Versioned.versionAt`, `Versioned.firstWrite`).

The invariant (`Inv`) says that the layers of the index, the log first and then the files from the newest to the
oldest, say together what the writes say, and that the directory has what is in memory. While a compaction is
outstanding, the files it took are the oldest ones of the current view (`PlanInv`): flushes only put new ones on
top, so replacing them by their merge changes no answer.

A flush or a merge that fails (a key that does not fit into a page) leaves the view as it was. An outstanding plan
is lost when the index is reopened.
-/
namespace Paro.L3.VersionedIndex
open Versioned SortedList L1 L2 PersistentIndex List ImmutableIndex
open PrimaryIndex hiding firstWriteInRange firstWriteInRange_first getVersionAt getVersionAt_latest new table

variable {H : Hashes}

inductive Op
  | upsertsAt (pairs : List (Key × Nat)) (commitTs : Nat)
  | deletesAt (keys : List Key) (commitTs : Nat)
  | flush
  | prepare
  | execute
  | publish
  | abort
  | reopen

def Op.writes : Op → List IndexEntry
  | .upsertsAt pairs commitTs => pairs.map fun pair => (pair.1, ⟨pair.2, commitTs⟩)
  | .deletesAt keys commitTs => keys.map fun key => (key, PrimaryIndexVersion.tombstone commitTs)
  | _ => []

structure St (H : Hashes) where
  index : PersistentIndex H
  plan : Option (CompactionPlan × Option CompactionOutput)

def step (s : St H) : Op → Except IndexError (St H)
  | .upsertsAt pairs commitTs => .ok { s with index := s.index.applyUpsertsAt pairs commitTs }
  | .deletesAt keys commitTs => .ok { s with index := s.index.applyDeletesAt keys commitTs }
  | .flush => .ok { s with index := (s.index.flushL0 PrimaryIndex.new true).1 }
  | .prepare =>
    match s.index.prepareCompaction with
    | (index, .ok (some plan)) => .ok ⟨index, some (plan, none)⟩
    | (index, _) => .ok { s with index := index }
  | .execute =>
    match s.plan with
    | none => .ok s
    | some (plan, output) =>
      match s.index.executeCompaction plan with
      | (index, .ok output) => .ok ⟨index, some (plan, some output)⟩
      | (index, .error _) => .ok ⟨index, some (plan, output)⟩
  | .publish =>
    match s.plan with
    | some (plan, some output) => .ok ⟨(s.index.publishCompaction plan output).1, none⟩
    | _ => .ok s
  | .abort =>
    match s.plan with
    | some (plan, _) => .ok ⟨s.index.abortCompaction plan, none⟩
    | none => .ok s
  | .reopen => (fun index => ⟨index, none⟩) <$> PersistentIndex.new s.index.disk

def run (ops : List Op) : Except IndexError (St H) :=
  (fun index => ⟨index, none⟩) <$> PersistentIndex.new Disk.empty >>= fun s => ops.foldlM step s

/-! ## Readers of a directory -/

abbrev Opens (disk : Disk) (files : List ImmutableFileMeta) (readers : List ImmutableIndex) : Prop :=
  List.Forall₂ (fun file reader => disk.idx file.level file.fileId = some reader) files readers

variable {disk : Disk} {files : List ImmutableFileMeta} {readers : List ImmutableIndex}

theorem mapM_openReader (h : Opens disk files readers) : files.mapM disk.openReader = .ok readers := by
  induction h with
  | nil => rfl
  | cons hfile _ ih =>
    rw [mapM_cons, ih, Disk.openReader, hfile]
    rfl

theorem Opens.congr {disk' : Disk} (h : Opens disk files readers)
    (heq : ∀ file ∈ files, disk'.idx file.level file.fileId = disk.idx file.level file.fileId) :
    Opens disk' files readers := by
  induction h with
  | nil => exact .nil
  | cons hfile _ ih => refine .cons ((heq _ mem_cons_self).trans hfile) (ih fun f hf => heq f (mem_cons_of_mem _ hf))

/-- L1 files are listed in the order of their edit versions. -/
theorem insertionSort_newest (h : files.Pairwise fun a b => a.editVersion < b.editVersion) :
    files.insertionSort (fun a b => b.editVersion ≤ a.editVersion) = files.reverse := by
  induction files with
  | nil => rfl
  | cons file files ih =>
    obtain ⟨hfile, hfiles⟩ := pairwise_cons.1 h
    rw [insertionSort_cons, ih hfiles, reverse_cons]
    -- every file of the rest is newer
    have hlast : ∀ b ∈ files.reverse, decide (¬b.editVersion ≤ file.editVersion) = true :=
      fun b hb => by simpa using hfile b (mem_reverse.1 hb)
    rw [orderedInsert_eq_take_drop, takeWhile_eq_self_iff.2 hlast, dropWhile_eq_nil_iff.2 hlast]

theorem openImmutableReaders_eq {l1Files : List ImmutableFileMeta} {l2File : Option ImmutableFileMeta}
    (h : l1Files.Pairwise fun a b => a.editVersion < b.editVersion)
    (hopens : Opens disk (l1Files.reverse ++ l2File.toList) readers) :
    disk.openImmutableReaders l1Files l2File = .ok readers := by
  rw [Disk.openImmutableReaders, insertionSort_newest h, mapM_openReader hopens]

/-! ## Invariants -/

/-- The index says what the writes `ws` say, and the directory has what is in memory. -/
structure Inv (index : PersistentIndex H) (ws : List IndexEntry) : Prop where
  l1Levels : ∀ file ∈ index.l1Files, file.level = .l1
  l2Level : ∀ file ∈ index.l2File, file.level = .l2
  order : index.l1Files.Pairwise fun a b => a.editVersion < b.editVersion
  edits : ∀ file ∈ index.l1Files, file.editVersion ≤ index.editVersion
  ids : ∀ file ∈ index.l1Files, file.fileId < index.nextFileId
  nodup : (index.l1Files.map (·.fileId)).Nodup
  opened : Opens index.disk (index.l1Files.reverse ++ index.l2File.toList) index.immutableReaders
  files : ∀ reader ∈ index.immutableReaders, IsFile H reader
  format : (index.disk.manifest.getD {}).formatVersion = L2.formatVersion
  manifestWal : (index.disk.manifest.getD {}).activeWalId = index.activeWalId
  manifestL1 : (index.disk.manifest.getD {}).l1Files = index.l1Files
  manifestL2 : (index.disk.manifest.getD {}).l2File = index.l2File
  log : ∃ records, index.disk.wal index.activeWalId = some records ∧
    index.activeWalIndex.table = ofEntries (·.commitTs) records.reverse
  view : index.view = ofEntries (·.commitTs) ws.reverse

/-- The plan took the oldest files of the current view, and its staging file is their merge. -/
structure PlanInv (index : PersistentIndex H) (plan : CompactionPlan) (output : Option CompactionOutput) : Prop where
  inProgress : index.compactionInProgress = true
  sources : ∃ selected newer newerReaders, index.l1Files = selected ++ newer ∧
    selected.map (·.fileId) = plan.selectedL1FileIds ∧
    index.immutableReaders = newerReaders ++ plan.readers.reverse ∧ newerReaders.length = newer.length
  l2 : index.l2File.map (·.fileId) = plan.expectedL2FileId
  staged : output.isSome → ∃ file, index.disk.staging plan.outputFileId = some file ∧ IsFile H file ∧
    file.table = stack (plan.readers.reverse.map table)

variable {index : PersistentIndex H} {ws : List IndexEntry} {plan : CompactionPlan}
  {output : Option CompactionOutput}

/-- Cleaning up keeps the files of the manifest. -/
theorem Inv.cleanup (h : Inv index ws) : Inv index.cleanupObsoleteFiles ws := by
  refine { h with opened := ?_, log := ?_ }
  · refine h.opened.congr fun file hfile => ?_
    rcases mem_append.1 hfile with hfile | hfile
    · have hmem := mem_reverse.1 hfile
      rw [h.l1Levels file hmem]
      exact if_pos (mem_map_of_mem hmem)
    · have hl2 : index.l2File = some file := by simpa using hfile
      rw [h.l2Level file hl2]
      exact if_pos (by rw [hl2]; rfl)
  · obtain ⟨records, hwal, htable⟩ := h.log
    refine ⟨records, ?_, htable⟩
    show (if index.activeWalId < index.activeWalId then none else index.disk.wal index.activeWalId) = _
    rw [if_neg (lt_irrefl _), hwal]

theorem PlanInv.cleanup (h : PlanInv index plan output) : PlanInv index.cleanupObsoleteFiles plan output := by
  refine { h with staged := fun hout => ?_ }
  obtain ⟨file, hfile, hrest⟩ := h.staged hout
  refine ⟨file, ?_, hrest⟩
  show (if index.compactionInProgress then index.disk.staging plan.outputFileId else none) = _
  rw [if_pos h.inProgress, hfile]

/-! ## Writes -/

theorem Inv.append (h : Inv index ws) {records : List IndexEntry} {walIndex : PrimaryIndex H.defaultHash}
    (htable : walIndex.table = override (ofEntries (·.commitTs) records.reverse) index.activeWalIndex.table) :
    Inv (index.appendWal records walIndex) (ws ++ records) := by
  refine { h with opened := h.opened.congr fun _ _ => rfl, log := ?_, view := ?_ }
  · obtain ⟨old, hwal, hold⟩ := h.log
    refine ⟨old ++ records, ?_, ?_⟩
    · show (if index.activeWalId = index.activeWalId then some _ else _) = _
      rw [if_pos rfl, hwal]
      rfl
    · show walIndex.table = _
      rw [htable, hold, reverse_append, ofEntries_append]
  · show override walIndex.table _ = _
    rw [htable, override_assoc, reverse_append, ofEntries_append, ← h.view]
    rfl

theorem PlanInv.append (h : PlanInv index plan output) (records : List IndexEntry)
    (walIndex : PrimaryIndex H.defaultHash) : PlanInv (index.appendWal records walIndex) plan output :=
  { h with }

theorem table_removeAll (keys : List Key) (commitTs : Nat) (walIndex : PrimaryIndex H.defaultHash) :
    (keys.foldl (fun walIndex key => walIndex.removeAt key commitTs) walIndex).table =
      override (ofEntries (·.commitTs) (keys.map fun key => (key, PrimaryIndexVersion.tombstone commitTs)).reverse)
        walIndex.table := by
  induction keys generalizing walIndex with
  | nil => exact (empty_override _).symm
  | cons key keys ih => rw [foldl_cons, ih, table_removeAt, map_cons, reverse_cons, ofEntries_append, override_assoc]

/-! ## Flushes -/

/-- What the first half of a flush leaves: new files on top that say what the log says. -/
structure Flushed (index : PersistentIndex H) (next : Manifest) (disk : Disk) (added : List ImmutableFileMeta)
    (readers : List ImmutableIndex) : Prop where
  l1Files : next.l1Files = index.l1Files ++ added
  l2File : next.l2File = index.l2File
  format : next.formatVersion = L2.formatVersion
  levels : ∀ file ∈ added, file.level = .l1
  order : next.l1Files.Pairwise fun a b => a.editVersion < b.editVersion
  edits : ∀ file ∈ next.l1Files, file.editVersion ≤ next.editVersion
  ids : ∀ file ∈ next.l1Files, file.fileId < next.nextFileId
  nodup : (next.l1Files.map (·.fileId)).Nodup
  opened : Opens disk (next.l1Files.reverse ++ next.l2File.toList) (readers ++ index.immutableReaders)
  files : ∀ reader ∈ readers, IsFile H reader
  count : readers.length = added.length
  staging : disk.staging = index.disk.staging
  table : stack (readers.map table) = index.activeWalIndex.table

theorem flushed_of_flushRecords (h : Inv index ws) {next : Manifest}
    (hflush : index.flushRecords (index.activeWalIndex.snapshotVersions) = .ok (next, disk)) :
    ∃ added readers, Flushed index next disk added readers := by
  unfold flushRecords at hflush
  split at hflush
  · rename_i hnil
    cases hflush
    refine ⟨[], [], (append_nil _).symm, rfl, rfl, by simp, h.order, h.edits, h.ids, h.nodup, h.opened,
      by simp, rfl, rfl, ?_⟩
    rw [← table_snapshotVersions, hnil]
    rfl
  · split at hflush
    · cases hflush
    rename_i file hfile
    cases hflush
    refine ⟨_, [file], rfl, rfl, rfl, ?_, ?_, ?_, ?_, ?_, ?_, ?_, rfl, rfl, ?_⟩
    · exact forall_mem_singleton.2 rfl
    · refine pairwise_append.2 ⟨h.order, pairwise_singleton _ _, fun a ha b hb => ?_⟩
      obtain rfl := mem_singleton.1 hb
      exact Nat.lt_succ_of_le (h.edits a ha)
    · exact forall_mem_append.2 ⟨fun f hf => Nat.le_succ_of_le (h.edits f hf), forall_mem_singleton.2 (le_refl _)⟩
    · exact forall_mem_append.2 ⟨fun f hf => Nat.lt_succ_of_lt (h.ids f hf),
        forall_mem_singleton.2 (Nat.lt_succ_self _)⟩
    · rw [map_append, nodup_append]
      refine ⟨h.nodup, by simp, fun id hid id' hid' heq => ?_⟩
      obtain ⟨f, hf, rfl⟩ := mem_map.1 hid
      obtain rfl := mem_singleton.1 hid'
      exact absurd heq (ne_of_lt (h.ids f hf))
    · rw [reverse_append, append_assoc]
      refine .cons (if_pos ⟨rfl, rfl⟩) (h.opened.congr fun f hf => if_neg fun hnew => ?_)
      -- an older file has another id
      rcases mem_append.1 hf with hf | hf
      · exact absurd hnew.2 (ne_of_lt (h.ids f (mem_reverse.1 hf)))
      · have hl2 : f ∈ index.l2File := by simpa using hf
        rw [h.l2Level f hl2] at hnew
        cases hnew.1
    · exact forall_mem_singleton.2 ⟨_, writeEntries_holds hfile⟩
    · rw [map_singleton, stack, stack, override_empty, table_of_writeEntries hfile,
        ofEntries_reverse unique_snapshotVersions, table_snapshotVersions]

theorem flushL0_cases (h : Inv index ws) :
    (index.flushL0 PrimaryIndex.new true).1 = index ∨ ∃ next disk added readers, Flushed index next disk added readers ∧
        (index.flushL0 PrimaryIndex.new true).1 =
          { index.installManifest { next with activeWalId := next.activeWalId + 1 } with
            disk := { disk.writeWal (next.activeWalId + 1) [] with
                manifest := some { next with activeWalId := next.activeWalId + 1 } }
            immutableReaders := readers ++ index.immutableReaders
            activeWalIndex := PrimaryIndex.new }.cleanupObsoleteFiles := by
  have hnew : (PrimaryIndex.new : PrimaryIndex H.defaultHash).snapshotVersions = [] := by rfl
  unfold flushL0
  rw [hnew, append_nil]
  split
  · exact .inl rfl
  rename_i next disk hflush
  obtain ⟨added, readers, hflushed⟩ := flushed_of_flushRecords h hflush
  refine .inr ⟨next, disk, added, readers, hflushed, ?_⟩
  have hopen : (disk.writeWal (next.activeWalId + 1) []).openImmutableReaders next.l1Files next.l2File =
      .ok (readers ++ index.immutableReaders) :=
    openImmutableReaders_eq hflushed.order hflushed.opened
  simp [hopen]

theorem Inv.flush (h : Inv index ws) : Inv (index.flushL0 PrimaryIndex.new true).1 ws := by
  rcases flushL0_cases h with heq | ⟨next, disk, added, readers, hf, heq⟩
  · rw [heq]
    exact h
  rw [heq]
  refine Inv.cleanup ⟨?_, ?_, hf.order, hf.edits, hf.ids, hf.nodup, hf.opened, ?_, hf.format, rfl, rfl, rfl,
    ⟨[], if_pos rfl, rfl⟩, ?_⟩
  · show ∀ file ∈ next.l1Files, _
    rw [hf.l1Files]
    exact forall_mem_append.2 ⟨h.l1Levels, hf.levels⟩
  · show ∀ file ∈ next.l2File, _
    rw [hf.l2File]
    exact h.l2Level
  · exact forall_mem_append.2 ⟨hf.files, h.files⟩
  · rw [← h.view]
    show override empty (stack ((readers ++ index.immutableReaders).map table)) = _
    rw [empty_override, map_append, stack_append, hf.table]
    rfl

theorem PlanInv.flush (hinv : Inv index ws) (h : PlanInv index plan output) :
    PlanInv (index.flushL0 PrimaryIndex.new true).1 plan output := by
  rcases flushL0_cases hinv with heq | ⟨next, disk, added, readers, hf, heq⟩
  · rw [heq]
    exact h
  rw [heq]
  obtain ⟨selected, newer, newerReaders, hl1, hids, hreaders, hcount⟩ := h.sources
  refine PlanInv.cleanup ⟨h.inProgress, ?_, ?_, ?_⟩
  · refine ⟨selected, newer ++ added, readers ++ newerReaders, ?_, hids, ?_, ?_⟩
    · exact hf.l1Files.trans (by rw [hl1, append_assoc])
    · rw [hreaders, append_assoc]
    · rw [length_append, length_append, hf.count, hcount, add_comm]
  · exact (congrArg (Option.map _) hf.l2File).trans h.l2
  · intro hout
    obtain ⟨file, hfile, hrest⟩ := h.staged hout
    exact ⟨file, (congrFun hf.staging _).trans hfile, hrest⟩

/-! ## Compaction -/

/-- Without a new plan nothing changes. -/
theorem prepareCompaction_cases (index : PersistentIndex H) :
    (∃ result, index.prepareCompaction = (index, result) ∧ ∀ plan, result ≠ .ok (some plan)) ∨
      ∃ index' plan, index.prepareCompaction = (index', .ok (some plan)) := by
  unfold prepareCompaction
  split
  · exact .inl ⟨_, rfl, fun plan h => by cases h⟩
  · split
    · exact .inl ⟨_, rfl, fun plan h => by cases h⟩
    · exact .inr ⟨_, _, rfl⟩

theorem inv_prepare (h : Inv index ws) : Inv index.prepareCompaction.1 ws := by
  unfold prepareCompaction
  split
  · exact h
  · split
    · exact h
    · exact { h with ids := fun file hfile => Nat.lt_succ_of_lt (h.ids file hfile) }

/-- A new plan takes all files. -/
theorem planInv_prepare (h : Inv index ws) (hplan : index.prepareCompaction.2 = .ok (some plan)) :
    PlanInv index.prepareCompaction.1 plan none := by
  unfold prepareCompaction at hplan ⊢
  split
  · rename_i hskip
    rw [if_pos hskip] at hplan
    cases hplan
  rename_i hskip
  have hsort := List.Pairwise.insertionSort_eq (h.order.imp fun hlt => le_of_lt hlt)
  have hopens : Opens index.disk (index.l2File.toList ++ index.l1Files) index.immutableReaders.reverse := by
    have hrev := forall₂_reverse_iff.2 h.opened
    have htoList : index.l2File.toList.reverse = index.l2File.toList := by cases index.l2File <;> rfl
    rwa [reverse_append, reverse_reverse, htoList] at hrev
  rw [if_neg hskip] at hplan
  rw [hsort, mapM_openReader hopens] at hplan ⊢
  cases hplan
  exact ⟨rfl, ⟨index.l1Files, [], [], (append_nil _).symm, rfl, (reverse_reverse _).symm, rfl⟩, rfl,
    fun hout => by cases hout⟩

theorem Inv.execute (h : Inv index ws) : Inv (index.executeCompaction plan).1 ws := by
  unfold executeCompaction
  split
  · exact h
  · split
    · exact h
    · exact { h with }

/-- The map of a merge has the newer of two versions. -/
theorem mergeInto_spec {merged : List IndexEntry} (hu : Keyed.Unique mergeKey merged) (entries : List IndexEntry) :
    Keyed.Unique mergeKey (mergeInto merged entries) ∧ ofEntries (·.commitTs) (mergeInto merged entries) =
        override (ofEntries (·.commitTs) entries.reverse) (ofEntries (·.commitTs) merged) := by
  induction entries generalizing merged with
  | nil => exact ⟨hu, (empty_override _).symm⟩
  | cons e entries ih =>
    obtain ⟨hunique, htable⟩ := ih (hu.put (a := e))
    refine ⟨hunique, ?_⟩
    rw [mergeInto, foldl_cons, ← mergeInto, htable, reverse_cons, ofEntries_append, override_assoc]
    congr 1
    have hlookup : ∀ (es : List IndexEntry) (k : Key) (t : Nat), ofEntries (·.commitTs) es k t =
        (Keyed.lookup mergeKey (k, t) es).map (·.2) := by
      intro es k t
      simp [ofEntries, Keyed.lookup, mergeKey]
    funext k t
    rw [hlookup (Keyed.put _ _ _), Keyed.lookup_put, override, ofEntries_cons]
    by_cases hk : e.1 = k ∧ e.2.commitTs = t
    · rw [if_pos hk, if_pos (by rw [mergeKey, hk.1, hk.2])]
      rfl
    · rw [if_neg hk, if_neg fun heq => hk ⟨(Prod.ext_iff.1 heq).1.symm, (Prod.ext_iff.1 heq).2.symm⟩, hlookup merged]
      rfl

theorem mergeEntries_spec (h : ∀ reader ∈ readers, IsFile H reader) :
    ∃ entries, mergeEntries readers = .ok entries ∧ Versioned.Unique (·.commitTs) entries ∧
      ofEntries (·.commitTs) entries = stack (readers.reverse.map table) := by
  have hfold : ∀ (readers : List ImmutableIndex) (merged : List IndexEntry),
      (∀ reader ∈ readers, IsFile H reader) → Keyed.Unique mergeKey merged →
      ∃ entries, readers.foldlM (fun merged reader => mergeInto merged <$> reader.entries) merged =
          (.ok entries : Except IndexError _) ∧ Keyed.Unique mergeKey entries ∧
        ofEntries (·.commitTs) entries =
          override (stack (readers.reverse.map table)) (ofEntries (·.commitTs) merged) := by
    intro readers
    induction readers with
    | nil => exact fun merged _ hu => ⟨merged, rfl, hu, (empty_override _).symm⟩
    | cons reader readers ih =>
      intro merged hfiles hu
      obtain ⟨es, hes⟩ := hfiles reader mem_cons_self
      obtain ⟨hunique, htable⟩ := mergeInto_spec hu (reader.bucketPages.flatMap (·.records))
      obtain ⟨entries, hentries, hu', htable'⟩ := ih _ (fun r hr => hfiles r (mem_cons_of_mem reader hr)) hunique
      refine ⟨entries, ?_, hu', ?_⟩
      · rw [foldlM_cons, hes.entries_eq]
        exact hentries
      · rw [htable', htable, ofEntries_reverse hes.unique_records, reverse_cons, map_append, stack_append,
          override_assoc, map_singleton, stack, stack, override_empty]
        rfl
  obtain ⟨merged, hmerged, hunique, htable⟩ := hfold readers [] h Keyed.unique_nil
  have hperm := perm_insertionSort (fun a b => entryKey a ≤ entryKey b) merged
  have hsorted := (hperm.map _).nodup_iff.2 hunique
  refine ⟨_, by rw [mergeEntries, hmerged]; rfl, hsorted, ?_⟩
  rw [ofEntries_congr hsorted hunique fun e => hperm.mem_iff, htable, ofEntries_nil, override_empty]

theorem planInv_execute (hinv : Inv index ws) (h : PlanInv index plan output) :
    match index.executeCompaction plan with
    | (index', .ok output') => PlanInv index' plan (some output')
    | (index', .error _) => PlanInv index' plan output := by
  have hfiles : ∀ reader ∈ plan.readers, IsFile H reader := by
    obtain ⟨_, _, _, -, -, hreaders, -⟩ := h.sources
    intro reader hreader
    refine hinv.files reader ?_
    rw [hreaders]
    exact mem_append_right _ (mem_reverse.2 hreader)
  obtain ⟨entries, hentries, hunique, htable⟩ := mergeEntries_spec hfiles
  unfold executeCompaction
  rw [hentries]
  dsimp only
  cases hwrite : writeEntries H.seahash entries with
  | error e => exact h
  | ok file =>
    refine { h with staged := fun _ => ⟨file, if_pos rfl, ⟨_, writeEntries_holds hwrite⟩, ?_⟩ }
    rw [table_of_writeEntries hwrite, ofEntries_reverse hunique, htable]

theorem Inv.withoutStaging (h : Inv index ws) (id : Nat) :
    Inv { index with compactionInProgress := false, disk := index.disk.setStaging id none } ws :=
  { h with }

/-- The files that the plan took are replaced by their merge. -/
theorem Inv.publish (h : Inv index ws) {result : CompactionOutput} (hplan : PlanInv index plan (some result)) :
    Inv (index.publishCompaction plan result).1 ws := by
  obtain ⟨selected, newer, newerReaders, hl1, hids, hreaders, hcount⟩ := hplan.sources
  obtain ⟨file, hstaged, hfile, htable⟩ := hplan.staged rfl
  unfold publishCompaction
  split
  · exact h.withoutStaging _
  rw [hstaged]
  dsimp only
  have hnodup := h.nodup
  rw [hl1, map_append, nodup_append] at hnodup
  have hfilter : index.l1Files.filter (fun f => f.fileId ∉ plan.selectedL1FileIds) = newer := by
    rw [hl1, filter_append, filter_eq_nil_iff.2, filter_eq_self.2, nil_append]
    · intro f hf
      simp only [decide_eq_true_eq, ← hids]
      exact fun hmem => hnodup.2.2 _ hmem _ (mem_map_of_mem hf) rfl
    · intro f hf
      simp only [decide_eq_true_eq, ← hids, not_not]
      exact mem_map_of_mem hf
  have hsub : newer.Sublist index.l1Files := hl1 ▸ sublist_append_right _ _
  have horder := h.order.sublist hsub
  have hopened : Opens index.disk newer.reverse newerReaders := by
    have htake := forall₂_take newer.length h.opened
    rw [hl1, hreaders, reverse_append, append_assoc, take_left' (length_reverse), take_left' hcount] at htake
    exact htake
  have hopens : Opens ((index.disk.setIdx .l2 plan.outputFileId (some file)).setStaging plan.outputFileId none)
      (newer.reverse ++ [⟨plan.outputFileId, .l2, index.editVersion + 1, result.entryCount⟩])
      (newerReaders ++ [file]) := by
    refine rel_append (hopened.congr fun f hf => if_neg fun heq => ?_) (.cons (if_pos ⟨rfl, rfl⟩) .nil)
    rw [h.l1Levels f (hsub.subset (mem_reverse.1 hf))] at heq
    cases heq.1
  have hnext : (index.compactedManifest plan result).l1Files = newer := hfilter
  have hopen : Disk.openImmutableReaders _ newer (index.compactedManifest plan result).l2File = _ :=
    openImmutableReaders_eq horder hopens
  rw [hnext, hopen]
  refine Inv.cleanup ⟨?_, ?_, h.order.filter _, ?_, ?_, ?_, ?_, ?_, rfl, rfl, rfl, rfl, h.log, ?_⟩
  · exact fun f hf => h.l1Levels f (mem_of_mem_filter hf)
  · intro f hf
    cases hf
    rfl
  · exact fun f hf => Nat.le_succ_of_le (h.edits f (mem_of_mem_filter hf))
  · exact fun f hf => h.ids f (mem_of_mem_filter hf)
  · exact (filter_sublist.map _).nodup h.nodup
  · show Opens _ ((index.compactedManifest plan result).l1Files.reverse ++ _) _
    rw [hnext]
    exact hopens
  · have hfiles := h.files
    rw [hreaders, forall_mem_append] at hfiles
    exact forall_mem_append.2 ⟨hfiles.1, forall_mem_singleton.2 hfile⟩
  · rw [← h.view]
    show override _ (stack ((newerReaders ++ [file]).map table)) = override _ (stack (index.immutableReaders.map table))
    rw [hreaders, map_append, map_append, stack_append, stack_append, map_singleton, stack, stack,
      override_empty, htable]
    rfl

/-! ## Reopening -/

structure DiskInv (H : Hashes) (disk : Disk) (ws : List IndexEntry) : Prop where
  format : (disk.manifest.getD {}).formatVersion = L2.formatVersion
  l1Levels : ∀ file ∈ (disk.manifest.getD {}).l1Files, file.level = .l1
  l2Level : ∀ file ∈ (disk.manifest.getD {}).l2File, file.level = .l2
  order : (disk.manifest.getD {}).l1Files.Pairwise fun a b => a.editVersion < b.editVersion
  nodup : ((disk.manifest.getD {}).l1Files.map (·.fileId)).Nodup
  layers : ∃ readers,
    Opens disk ((disk.manifest.getD {}).l1Files.reverse ++ (disk.manifest.getD {}).l2File.toList) readers ∧
    (∀ reader ∈ readers, IsFile H reader) ∧
    override (ofEntries (·.commitTs) ((disk.wal (disk.manifest.getD {}).activeWalId).getD []).reverse)
      (stack (readers.map table)) = ofEntries (·.commitTs) ws.reverse

theorem diskInv_empty : DiskInv H Disk.empty [] :=
  ⟨rfl, by simp [Disk.empty], by simp [Disk.empty], List.Pairwise.nil, nodup_nil, [], .nil, by simp, rfl⟩

theorem Inv.diskInv (h : Inv index ws) : DiskInv H index.disk ws := by
  obtain ⟨records, hwal, htable⟩ := h.log
  refine ⟨h.format, ?_, ?_, ?_, ?_, index.immutableReaders, ?_, h.files, ?_⟩
  · rw [h.manifestL1]
    exact h.l1Levels
  · rw [h.manifestL2]
    exact h.l2Level
  · rw [h.manifestL1]
    exact h.order
  · rw [h.manifestL1]
    exact h.nodup
  · rw [h.manifestL1, h.manifestL2]
    exact h.opened
  · rw [h.manifestWal, hwal, ← h.view, Option.getD_some, ← htable]
    rfl

theorem le_foldl_max {α : Type} (f : α → Nat) (l : List α) (m : Nat) :
    m ≤ l.foldl (fun m a => max m (f a)) m ∧ ∀ a ∈ l, f a ≤ l.foldl (fun m a => max m (f a)) m := by
  induction l generalizing m with
  | nil => exact ⟨le_refl m, by simp⟩
  | cons b l ih =>
    obtain ⟨hm, hl⟩ := ih (max m (f b))
    rw [foldl_cons]
    refine ⟨by omega, forall_mem_cons.2 ⟨?_, hl⟩⟩
    omega

/-- Such a directory opens, and the index says what the directory says. -/
theorem inv_new (h : DiskInv H disk ws) :
    ∃ index : PersistentIndex H, PersistentIndex.new disk = .ok index ∧ Inv index ws := by
  obtain ⟨readers, hopens, hfiles, hview⟩ := h.layers
  have hformat := h.format
  have hl1 := h.l1Levels
  have hl2 := h.l2Level
  have horder := h.order
  have hnodup := h.nodup
  unfold PersistentIndex.new
  generalize hm : disk.manifest.getD {} = manifest at *
  dsimp only
  rw [if_neg (by simpa using hformat), if_neg]
  · have hopen : (disk.writeWal manifest.activeWalId ((disk.wal manifest.activeWalId).getD [])).openImmutableReaders
        manifest.l1Files manifest.l2File = .ok readers := openImmutableReaders_eq horder hopens
    rw [hopen]
    refine ⟨_, rfl, Inv.cleanup ⟨hl1, hl2, horder, ?_, ?_, hnodup, hopens, hfiles, ?_, ?_, ?_, ?_, ?_, ?_⟩⟩
    · intro file hfile
      have := (le_foldl_max (·.editVersion) manifest.l1Files 0).2 file hfile
      show file.editVersion ≤ max (max _ _) _
      omega
    · intro file hfile
      have := (le_foldl_max (·.fileId) (manifest.l1Files ++ manifest.l2File.toList) 0).2 file (mem_append_left _ hfile)
      show file.fileId < max (max _ (_ + 1)) 1
      omega
    · exact (congrArg Manifest.formatVersion hm).trans hformat
    · exact congrArg Manifest.activeWalId hm
    · exact congrArg Manifest.l1Files hm
    · exact congrArg Manifest.l2File hm
    · refine ⟨_, if_pos rfl, ?_⟩
      rw [table_batchApplyVersions, table_new, override_empty]
    · rw [← hview]
      show override (PrimaryIndex.table (batchApplyVersions _ _)) _ = _
      rw [table_batchApplyVersions, table_new, override_empty]
  · simp only [Bool.or_eq_true, any_eq_true, Option.any_eq_true, decide_eq_true_eq, not_or, not_exists, not_and,
      ne_eq, not_not]
    exact ⟨hl1, hl2⟩

/-! ## Runs -/

structure StInv (s : St H) (ws : List IndexEntry) : Prop where
  index : Inv s.index ws
  plan : ∀ plan output, s.plan = some (plan, output) → PlanInv s.index plan output

theorem StInv.silent {s : St H} (h : StInv s ws) : StInv s (ws ++ []) := (append_nil ws).symm ▸ h

theorem Inv.idle (h : Inv index ws) : StInv ⟨index, none⟩ (ws ++ []) :=
  StInv.silent ⟨h, fun _ _ hsome => by cases hsome⟩

theorem Inv.planned (h : Inv index ws) (hplan : PlanInv index plan output) :
    StInv ⟨index, some (plan, output)⟩ (ws ++ []) := by
  refine StInv.silent ⟨h, ?_⟩
  intro _ _ hsome
  cases hsome
  exact hplan

theorem StInv.step {s : St H} (h : StInv s ws) (op : Op) : ∃ s', step s op = .ok s' ∧ StInv s' (ws ++ op.writes) := by
  cases op with
  | upsertsAt pairs commitTs =>
    refine ⟨_, rfl, ?_⟩
    unfold applyUpsertsAt
    split
    · rename_i hnil
      subst hnil
      exact h.silent
    · exact ⟨h.index.append (table_batchUpsertAt pairs commitTs),
        fun plan output hplan => (h.plan plan output hplan).append _ _⟩
  | deletesAt keys commitTs =>
    refine ⟨_, rfl, ?_⟩
    unfold applyDeletesAt
    split
    · rename_i hnil
      subst hnil
      exact h.silent
    · exact ⟨h.index.append (table_removeAll keys commitTs _),
        fun plan output hplan => (h.plan plan output hplan).append _ _⟩
  | flush =>
    exact ⟨_, rfl, StInv.silent ⟨h.index.flush, fun plan output hplan => (h.plan plan output hplan).flush h.index⟩⟩
  | prepare =>
    rcases prepareCompaction_cases s.index with ⟨result, heq, hnone⟩ | ⟨index', plan, heq⟩
    · exact ⟨s, by simp only [VersionedIndex.step, heq], h.silent⟩
    have hinv := inv_prepare h.index
    have hplan := planInv_prepare h.index (congrArg Prod.snd heq)
    rw [heq] at hinv hplan
    exact ⟨⟨index', some (plan, none)⟩, by simp only [VersionedIndex.step, heq], hinv.planned hplan⟩
  | execute =>
    cases hs : s.plan with
    | none => exact ⟨s, by simp only [VersionedIndex.step, hs], h.silent⟩
    | some current =>
      obtain ⟨plan, output⟩ := current
      have hinv := @Inv.execute H s.index ws plan h.index
      have hplan := planInv_execute h.index (h.plan plan output hs)
      rcases hexec : s.index.executeCompaction plan with ⟨index', result⟩
      rw [hexec] at hinv hplan
      cases result with
      | ok output' =>
        exact ⟨⟨index', some (plan, some output')⟩, by simp only [VersionedIndex.step, hs, hexec], hinv.planned hplan⟩
      | error e =>
        exact ⟨⟨index', some (plan, output)⟩, by simp only [VersionedIndex.step, hs, hexec], hinv.planned hplan⟩
  | publish =>
    cases hs : s.plan with
    | none => exact ⟨s, by simp only [VersionedIndex.step, hs], h.silent⟩
    | some current =>
      obtain ⟨plan, output⟩ := current
      cases output with
      | none => exact ⟨s, by simp only [VersionedIndex.step, hs], h.silent⟩
      | some result =>
        refine ⟨⟨(s.index.publishCompaction plan result).1, none⟩, by simp only [VersionedIndex.step, hs], ?_⟩
        exact (h.index.publish (h.plan plan (some result) hs)).idle
  | abort =>
    cases hs : s.plan with
    | none => exact ⟨s, by simp only [VersionedIndex.step, hs], h.silent⟩
    | some current =>
      refine ⟨⟨s.index.abortCompaction current.1, none⟩, by simp only [VersionedIndex.step, hs], ?_⟩
      exact (h.index.withoutStaging _).idle
  | reopen =>
    obtain ⟨index, hnew, hinv⟩ := inv_new h.index.diskInv
    exact ⟨⟨index, none⟩, by rw [VersionedIndex.step, hnew]; rfl, hinv.idle⟩

theorem run_inv (ops : List Op) : ∃ s : St H, run ops = .ok s ∧ StInv s (ops.flatMap Op.writes) := by
  have hfold : ∀ (ops : List Op) (s : St H) (ws : List IndexEntry), StInv s ws →
      ∃ s', ops.foldlM VersionedIndex.step s = .ok s' ∧ StInv s' (ws ++ ops.flatMap Op.writes) := by
    intro ops
    induction ops with
    | nil => exact fun s ws h => ⟨s, rfl, h.silent⟩
    | cons op ops ih =>
      intro s ws h
      obtain ⟨s1, hstep, h1⟩ := h.step op
      obtain ⟨s2, hrun, h2⟩ := ih s1 _ h1
      refine ⟨s2, ?_, ?_⟩
      · rw [foldlM_cons, hstep]
        exact hrun
      · rwa [flatMap_cons, ← append_assoc]
  obtain ⟨index, hnew, hinv⟩ := inv_new (H := H) diskInv_empty
  obtain ⟨s, hrun, hs⟩ := hfold ops ⟨index, none⟩ [] hinv.idle
  refine ⟨s, ?_, hs⟩
  rw [run, hnew]
  exact hrun

/-- After every run from an empty directory each lookup is the lookup in the list of all writes: the version with
the greatest commit timestamp up to the read timestamp, and the first write in a window, where the last write counts
among equal keys and timestamps. The index that is loaded from the directory answers the same. -/
theorem persistent_index_is_versioned_map (ops : List Op) :
    ∃ s : St H, run ops = .ok s ∧ (∀ key readTs, s.index.getVersionAt key readTs =
        .ok (versionAt (·.commitTs) (ops.flatMap Op.writes) key readTs)) ∧
      (∀ keys readTs, s.index.lookupVersionsAt keys readTs =
        .ok (keys.map fun key => versionAt (·.commitTs) (ops.flatMap Op.writes) key readTs)) ∧
      (∀ key readTs commitTs, s.index.firstWriteInRange key readTs commitTs =
        .ok (firstWrite (·.commitTs) (ops.flatMap Op.writes) (· = key) readTs commitTs)) ∧
      (∀ lower upper readTs commitTs, s.index.firstKeyRangeWriteInRange lower upper readTs commitTs =
        .ok (firstWrite (·.commitTs) (ops.flatMap Op.writes) (keyInBounds · lower upper = true) readTs commitTs)) ∧
      ∃ loaded, s.index.load = .ok loaded ∧ (∀ key readTs, loaded.getVersionAt key readTs =
          versionAt (·.commitTs) (ops.flatMap Op.writes) key readTs) ∧
        (∀ key readTs commitTs, loaded.firstWriteInRange key readTs commitTs =
          firstWrite (·.commitTs) (ops.flatMap Op.writes) (· = key) readTs commitTs) ∧
        ∀ lower upper readTs commitTs, loaded.firstKeyRangeWriteInRange lower upper readTs commitTs =
          firstWrite (·.commitTs) (ops.flatMap Op.writes) (keyInBounds · lower upper = true) readTs commitTs := by
  obtain ⟨s, hrun, hs⟩ := run_inv (H := H) ops
  generalize ops.flatMap Op.writes = ws at hs
  have hview := hs.index.view
  have hget : ∀ key readTs, s.index.getVersionAt key readTs = .ok (versionAt (·.commitTs) ws key readTs) := by
    intro key readTs
    obtain ⟨r, hr, hlatest⟩ := getVersionAt_latest hs.index.files key
    rw [hview] at hlatest
    rw [hr, hlatest.unique (isLatest_versionAt ws)]
  obtain ⟨loaded, hload, htable⟩ := load_table hs.index.files
  have htable := htable.trans hview
  refine ⟨s, hrun, hget, fun keys readTs => lookupVersionsAt_eq fun key => hget key readTs, ?_, ?_, loaded, hload,
    ?_, ?_, ?_⟩
  · intro key readTs commitTs
    obtain ⟨r, hr, hfirst⟩ := firstWriteInRange_first hs.index.files key
    rw [hview] at hfirst
    rw [hr, hfirst.unique (isFirst_firstWrite ws)]
  · intro lower upper readTs commitTs
    obtain ⟨r, hr, hfirst⟩ := firstKeyRangeWriteInRange_first hs.index.files lower upper
    rw [hview] at hfirst
    rw [hr, hfirst.unique (isFirst_firstWrite ws)]
  · intro key readTs
    exact (htable ▸ PrimaryIndex.getVersionAt_latest).unique (isLatest_versionAt ws)
  · intro key readTs commitTs
    exact (htable ▸ PrimaryIndex.firstWriteInRange_first).unique (isFirst_firstWrite ws)
  · intro lower upper readTs commitTs
    exact (htable ▸ firstKeyRangeWriteInRange_first lower upper).unique (isFirst_firstWrite ws)

/-- **Snapshot reads repeat.** Two runs with the same writes up to a timestamp answer reads at it alike, whatever
they wrote above it and whenever they flushed, compacted or reopened. -/
theorem snapshot_reads_repeat (ops ops' : List Op) : ∃ s s' : St H, run ops = .ok s ∧ run ops' = .ok s' ∧ ∀ readTs,
    (ops.flatMap Op.writes).filter (·.2.commitTs ≤ readTs) = (ops'.flatMap Op.writes).filter (·.2.commitTs ≤ readTs) →
      ∀ key, s.index.getVersionAt key readTs = s'.index.getVersionAt key readTs := by
  obtain ⟨s, hrun, hs⟩ := run_inv (H := H) ops
  obtain ⟨s', hrun', hs'⟩ := run_inv (H := H) ops'
  refine ⟨s, s', hrun, hrun', fun readTs hsame key => ?_⟩
  obtain ⟨r, hr, hlatest⟩ := getVersionAt_latest hs.index.files key
  obtain ⟨r', hr', hlatest'⟩ := getVersionAt_latest hs'.index.files key
  rw [hs.index.view] at hlatest
  rw [hs'.index.view] at hlatest'
  rw [hr, hr', hlatest.unique (isLatest_versionAt _), hlatest'.unique (isLatest_versionAt _), ← versionAt_filter, hsame,
    versionAt_filter]

/-- A run that flushes, overwrites the key and reopens the index, and one that does neither. -/
theorem snapshot_reads_repeat_reopened : ∃ s s' : St ⟨fun _ => 0, fun _ => 0⟩,
    run [.upsertsAt [([7], 1)] 3, .flush, .upsertsAt [([7], 2)] 5, .reopen] = .ok s ∧
      run [.upsertsAt [([7], 1)] 3] = .ok s' ∧ s.index.getVersionAt [7] 4 = s'.index.getVersionAt [7] 4 := by
  obtain ⟨s, s', hs, hs', hsame⟩ := snapshot_reads_repeat (H := ⟨fun _ => 0, fun _ => 0⟩)
    [.upsertsAt [([7], 1)] 3, .flush, .upsertsAt [([7], 2)] 5, .reopen] [.upsertsAt [([7], 1)] 3]
  exact ⟨s, s', hs, hs', hsame 4 (by decide) [7]⟩

end Paro.L3.VersionedIndex
