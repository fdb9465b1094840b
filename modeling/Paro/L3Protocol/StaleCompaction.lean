import Paro.L2Machine.PersistentIndex

/-!
# A compaction plan that outlives a reset

`publish_compaction` compares the file ids of its plan with those of the index, and `reset` gives the same ids out
again. After a reset a plan is recognised as stale as long as one of the files it merged has an id that was not given
out since, or if it merged an L2 file: then `publish_compaction` returns false and no lookup changes
(`stale_plan_rejected`, over every run with a reset behind the plan). Once the flushes have reached the largest id of
the plan, the plan passes for current, its files from before the reset replace those behind it, and lookups change
(`stale_plan_published`).
-/
namespace Paro.L3.StaleCompaction
open L1 L2 PersistentIndex

variable {H : Hashes}

inductive Op (H : Hashes)
  | upserts (pairs : List (Key × Nat)) (commitTs : Nat)
  | deletes (keys : List Key) (commitTs : Nat)
  | flush (idx : PrimaryIndex H.defaultHash) (truncateWal : Bool)
  | reset

variable (index : PersistentIndex H)

def step : Op H → PersistentIndex H
  | .upserts pairs commitTs => index.applyUpsertsAt pairs commitTs
  | .deletes keys commitTs => index.applyDeletesAt keys commitTs
  | .flush idx truncateWal => (index.flushL0 idx truncateWal).1
  | .reset => index.reset

def run (ops : List (Op H)) : PersistentIndex H := ops.foldl step index

/-- No L2 file, and the L1 files have ids that were given out since the reset. -/
structure SinceReset (index : PersistentIndex H) : Prop where
  l2File : index.l2File = none
  l1Files : ∀ file ∈ index.l1Files, file.fileId < index.nextFileId

theorem sinceReset_reset : SinceReset index.reset :=
  ⟨rfl, fun _ hfile => absurd hfile List.not_mem_nil⟩

variable {index} {plan : CompactionPlan}

/-- What a flush makes of the counters and the files. -/
theorem flushRecords_ok (h : SinceReset index) {records : List IndexEntry}
    {next : Manifest} {disk : Disk} (hflush : index.flushRecords records = .ok (next, disk)) :
    next.l2File = none ∧ ∀ file ∈ next.l1Files, file.fileId < next.nextFileId := by
  unfold flushRecords at hflush
  dsimp only at hflush
  split at hflush
  · cases hflush
    exact ⟨h.l2File, h.l1Files⟩
  split at hflush
  · cases hflush
  · cases hflush
    refine ⟨h.l2File, fun file hfile => ?_⟩
    rcases List.mem_append.1 hfile with hold | hnew
    · exact Nat.lt_succ_of_lt (h.l1Files file hold)
    · rw [List.mem_singleton.1 hnew]
      exact Nat.lt_succ_self _

theorem SinceReset.flush (h : SinceReset index) (idx : PrimaryIndex H.defaultHash)
    (truncateWal : Bool) : SinceReset (index.flushL0 idx truncateWal).1 := by
  unfold flushL0
  split
  · exact h
  rename_i next disk hflush
  obtain ⟨hl2, hl1⟩ := flushRecords_ok h hflush
  dsimp only
  split
  · exact ⟨h.l2File, h.l1Files⟩
  · cases truncateWal <;> exact ⟨hl2, hl1⟩

theorem SinceReset.step {index : PersistentIndex H} (h : SinceReset index) (op : Op H) :
    SinceReset (step index op) := by
  cases op with
  | upserts pairs commitTs =>
    show SinceReset (index.applyUpsertsAt pairs commitTs)
    unfold applyUpsertsAt
    split
    · exact h
    · exact ⟨h.l2File, h.l1Files⟩
  | deletes keys commitTs =>
    show SinceReset (index.applyDeletesAt keys commitTs)
    unfold applyDeletesAt
    split
    · exact h
    · exact ⟨h.l2File, h.l1Files⟩
  | flush idx truncateWal => exact h.flush idx truncateWal
  | reset => exact sinceReset_reset index

theorem SinceReset.run {index : PersistentIndex H} (h : SinceReset index) (ops : List (Op H)) :
    SinceReset (run index ops) := by
  induction ops generalizing index with
  | nil => exact h
  | cons op ops ih => exact ih (h.step op)

/-- The plan merged an L2 file, or a file whose id was not given out since the reset. -/
def Recognisable (index : PersistentIndex H) (plan : CompactionPlan) : Prop :=
  plan.expectedL2FileId ≠ none ∨ ∃ id ∈ plan.selectedL1FileIds, index.nextFileId ≤ id

theorem SinceReset.not_current (h : SinceReset index)
    (hplan : Recognisable index plan) : index.sourcesStillCurrent plan = false := by
  rw [sourcesStillCurrent, h.l2File, Bool.and_eq_false_iff]
  rcases hplan with hl2 | ⟨id, hid, hle⟩
  · exact .inl (decide_eq_false fun heq => hl2 heq.symm)
  refine .inr (Bool.eq_false_iff.2 fun hall => ?_)
  obtain ⟨file, hfile, heq⟩ := List.any_eq_true.1 (List.all_eq_true.1 hall id hid)
  have hlt := h.l1Files file hfile
  rw [decide_eq_true_eq] at heq
  omega

/-- The merge only writes its staging file. -/
theorem executeCompaction_frame {executed : PersistentIndex H} {output : CompactionOutput}
    (h : index.executeCompaction plan = (executed, .ok output)) :
    ∃ disk, executed = { index with disk } := by
  unfold executeCompaction at h
  split at h
  · cases h
  · split at h
    · cases h
    · cases h
      exact ⟨_, rfl⟩

/-- **A stale plan changes no lookup**: from any index, and with any plan that was taken from it or before, let there be
a reset with any writes, flushes and further resets around it. Publishing the plan then returns false and leaves every
lookup as it was, if the plan can be recognised. -/
theorem stale_plan_rejected (prepared : PersistentIndex H) (plan : CompactionPlan) (before after : List (Op H))
    (hplan : Recognisable (run (run prepared before).reset after) plan) (executed : PersistentIndex H)
    (output : CompactionOutput)
    (hexecute : (run (run prepared before).reset after).executeCompaction plan = (executed, .ok output)) :
    (executed.publishCompaction plan output).2 = .ok false ∧
      ∀ key ts, (executed.publishCompaction plan output).1.getVersionAt key ts =
        (run (run prepared before).reset after).getVersionAt key ts := by
  obtain ⟨disk, rfl⟩ := executeCompaction_frame hexecute
  have hsince := (sinceReset_reset (run prepared before)).run after
  have hcurrent : { run (run prepared before).reset after with disk }.sourcesStillCurrent plan = false :=
    hsince.not_current hplan
  unfold publishCompaction
  rw [hcurrent]
  exact ⟨rfl, fun _ _ => rfl⟩

/-! ## Two runs -/

def oneBucket : Hashes := ⟨fun _ => 0, fun _ => 0⟩

def writeAndFlush (row ts : Nat) (key : UInt8) : List (Op oneBucket) :=
  [.upserts [([key], row)] ts, .flush PrimaryIndex.new true]

/-- The index behind `new` on an empty directory, with six keys written at `ts` and flushed one by one. -/
def sixFiles : PersistentIndex oneBucket :=
  run (reset ⟨Disk.empty, 0, 1, 0, [], none, false, PrimaryIndex.new, []⟩)
    ([1, 2, 3, 4, 5, 6].flatMap (writeAndFlush 7 1))

/-- The plan for the six files is published behind a reset and `after`: what it returned, the row of key 1 before and
after, and the row of key 9. -/
def published (after : List (Op oneBucket)) : Option (Bool × List (Option Nat)) :=
  match sixFiles.prepareCompaction with
  | (prepared, .ok (some plan)) =>
    match (run prepared.reset after).executeCompaction plan with
    | (executed, .ok output) =>
      match executed.publishCompaction plan output with
      | (index, .ok current) => some (current,
          [executed.getVersionAt [1] 5, index.getVersionAt [1] 5, executed.getVersionAt [9] 5,
            index.getVersionAt [9] 5].map
            fun version => (version.toOption.join).map (·.rowId))
      | _ => none
    | _ => none
  | _ => none

/-- Five flushes behind the reset: file 6 of the plan is missing, and the plan is rejected. -/
theorem stale_plan_rejected_five_files :
    ∃ prepared plan executed output, sixFiles.prepareCompaction = (prepared, .ok (some plan)) ∧
      (run prepared.reset ([9, 2, 3, 4, 5].flatMap (writeAndFlush 8 2))).executeCompaction plan =
        (executed, .ok output) ∧
      (executed.publishCompaction plan output).2 = .ok false := by
  have hplan : ∃ prepared plan, sixFiles.prepareCompaction = (prepared, .ok (some plan)) ∧ 6 ∈ plan.selectedL1FileIds ∧
      ∃ executed output, (run prepared.reset ([9, 2, 3, 4, 5].flatMap (writeAndFlush 8 2))).executeCompaction plan =
        (executed, .ok output) ∧
      (run prepared.reset ([9, 2, 3, 4, 5].flatMap (writeAndFlush 8 2))).nextFileId = 6 :=
    ⟨_, _, rfl, by decide +kernel, _, _, rfl, by decide +kernel⟩
  obtain ⟨prepared, plan, hprepare, hmem, executed, output, hexecute, hnext⟩ := hplan
  refine ⟨prepared, plan, executed, output, hprepare, hexecute, ?_⟩
  exact (stale_plan_rejected prepared plan [] _ (.inr ⟨6, hmem, le_of_eq hnext⟩) executed output hexecute).1

/-- Six flushes behind the reset, with key 9 in the place of key 1: the plan of the old files is published. Key 1 has
its row from before the reset again, and key 9 is gone. -/
theorem stale_plan_published :
    published ([9, 2, 3, 4, 5, 6].flatMap (writeAndFlush 8 2)) = some (true, [none, some 7, some 8, none]) := by
  decide +kernel

end Paro.L3.StaleCompaction
