import Paro.L2Machine.DeleteVector

/-!
# Versioned delete vectors report what was deleted

A run adds row sets with non-decreasing versions, collects old versions and writes the chain to bytes and reads it
back. `Inv` relates the chain to what was added and collected so far: every stored bitmap is cumulative, and for
every version that no collection has passed, each addition at or below it is covered by a stored version between
the two. The law for every later read (`Inv.law`) follows from that.

The number of versions is written as a `u32`, so a chain of `2 ^ 32` versions is read back empty
(`versions_lost_after_round_trip`). The law holds for every run whose round trips are made on chains that fit.
-/
namespace Paro.L3.DeleteHistory
open L1 L2 VersionedDeleteVector SortedList List Signed
open DeleteVector (addDelsAsNewVersion_eq bitmap withVersion)

inductive Op
  | add (rows : List UInt32) (version : Signed 64)
  | gc (minVisible : Signed 64)
  | roundTrip

variable (fmt : RoaringFormat)

def step (versions : VersionedDeleteVector) : Op → Except DeleteVectorError VersionedDeleteVector
  | .add rows version => .ok (addDelsAsNewVersion versions rows version)
  | .gc minVisible => .ok (gcVersionsOlderThan versions minVisible)
  | .roundTrip => ofBytes fmt (toBytes fmt versions)

def run (versions : VersionedDeleteVector) (ops : List Op) : Except DeleteVectorError VersionedDeleteVector :=
  ops.foldlM (step fmt) versions

abbrev Addition := Signed 64 × List UInt32

def additions (ops : List Op) : List Addition :=
  ops.filterMap fun
    | .add rows version => some (version, rows)
    | _ => none

def bounds (ops : List Op) : List (Signed 64) :=
  ops.filterMap fun
    | .gc minVisible => some minVisible
    | _ => none

def deleted (added : List Addition) (version : Signed 64) : Finset UInt32 :=
  ((added.filter fun a => decide (a.1 ≤ version)).flatMap Prod.snd).toFinset

def RoundTripsFit : VersionedDeleteVector → List Op → Prop
  | _, [] => True
  | versions, op :: ops =>
    (op = .roundTrip → Fits fmt versions) ∧ ∀ next, step fmt versions op = .ok next → RoundTripsFit next ops

/-- What a chain says about the additions and the collections so far. -/
structure Inv (versions : VersionedDeleteVector) (added : List Addition) (collected : List (Signed 64)) : Prop where
  sorted : Sorted DeleteVector.version versions
  cumulative : ∀ dv ∈ versions, dv.bitmap = deleted added dv.version
  source : ∀ dv ∈ versions, ∃ a ∈ added, a.1 = dv.version
  covered : ∀ version, (∀ m ∈ collected, m ≤ version) → ∀ a ∈ added, a.1 ≤ version →
    ∃ dv ∈ versions, a.1 ≤ dv.version ∧ dv.version ≤ version

variable {fmt} {versions : VersionedDeleteVector} {added : List Addition} {collected : List (Signed 64)}
  {version : Signed 64}

theorem mem_deleted {row : UInt32} : row ∈ deleted added version ↔ ∃ a ∈ added, a.1 ≤ version ∧ row ∈ a.2 := by
  simp [deleted, and_assoc]

theorem deleted_append (a : Addition) (version : Signed 64) :
    deleted (added ++ [a]) version = deleted added version ∪ if a.1 ≤ version then a.2.toFinset else ∅ := by
  ext row
  rw [Finset.mem_union, mem_deleted, mem_deleted]
  by_cases hle : a.1 ≤ version <;> simp [hle, or_and_right, exists_or]

/-- **The law of a chain**, for every version that no collection has passed. -/
theorem Inv.law (h : Inv versions added collected) (hv : ∀ m ∈ collected, m ≤ version) :
    ((latestAt versions version).elim ∅ bitmap) = deleted added version ∧
      (latestAt versions version = none ↔ ∀ a ∈ added, ¬ a.1 ≤ version) := by
  cases hdv : latestAt versions version with
  | none =>
    have hnone : ∀ a ∈ added, ¬ a.1 ≤ version := by
      intro a ha hle
      obtain ⟨dv, hmem, -, hdvle⟩ := h.covered version hv a ha hle
      exact latestAt_eq_none.1 hdv dv hmem hdvle
    refine ⟨?_, iff_of_true rfl hnone⟩
    ext row
    simp only [Option.elim_none, Finset.notMem_empty, mem_deleted, false_iff, not_exists, not_and]
    exact fun a ha hle => absurd hle (hnone a ha)
  | some dv =>
    obtain ⟨hmem, hle, hmax⟩ := latestAt_spec h.sorted hdv
    obtain ⟨a, ha, hversion⟩ := h.source dv hmem
    refine ⟨?_, iff_of_false (by simp) fun hnone => hnone a ha (hversion ▸ hle)⟩
    rw [Option.elim_some, h.cumulative dv hmem]
    ext row
    rw [mem_deleted, mem_deleted]
    -- nothing was added between the version found and the version read at
    refine exists_congr fun b => and_congr_right fun hb => and_congr_left fun _ =>
      ⟨fun hb' => hb'.trans hle, fun hb' => ?_⟩
    obtain ⟨d, hd, hbd, hdle⟩ := h.covered version hv b hb hb'
    exact hbd.trans (hmax d hd hdle)

theorem exists_version_above (version : Signed 64) (collected : List (Signed 64)) :
    ∃ top, version ≤ top ∧ ∀ m ∈ collected, m ≤ top := by
  induction collected with
  | nil => exact ⟨version, le_rfl, fun _ h => absurd h not_mem_nil⟩
  | cons m rest ih =>
    obtain ⟨top, hle, hrest⟩ := ih
    exact ⟨max m top, le_max_of_le_right hle,
      forall_mem_cons.2 ⟨le_max_left _ _, fun b hb => le_max_of_le_right (hrest b hb)⟩⟩

section
variable (h : Inv versions added collected)
include h

/-- A read at a version that nothing added exceeds finds the last stored bitmap, with everything added. -/
theorem Inv.base (hlast : ∀ a ∈ added, a.1 ≤ version) : (((latestAt versions version).or versions.getLast?).getD
      (withVersion version)).bitmap = deleted added version := by
  -- a version above all bounds reads the same additions
  obtain ⟨top, htop, hbounds⟩ := exists_version_above version collected
  have hall : ∀ dv ∈ versions, dv.version ≤ version := by
    intro dv hdv
    obtain ⟨a, ha, heq⟩ := h.source dv hdv
    exact heq ▸ hlast a ha
  have hdel : deleted added version = deleted added top := by
    ext row
    rw [mem_deleted, mem_deleted]
    exact exists_congr fun b => and_congr_right fun hb => and_congr_left fun _ =>
      ⟨fun _ => (hlast b hb).trans htop, fun _ => hlast b hb⟩
  rw [hdel, ← (h.law hbounds).1]
  cases hdv : latestAt versions version with
  | some dv =>
    -- no stored version lies above the one found
    obtain ⟨hmem, hle, hmax⟩ := latestAt_spec h.sorted hdv
    cases htopdv : latestAt versions top with
    | none => exact absurd (hle.trans htop) (latestAt_eq_none.1 htopdv dv hmem)
    | some d =>
      obtain ⟨hd, -, hdmax⟩ := latestAt_spec h.sorted htopdv
      have heq : d.version = dv.version := le_antisymm (hmax d hd (hall d hd)) (hdmax dv hmem (hle.trans htop))
      obtain rfl : d = dv := h.sorted.eq_of_key hd hmem heq
      rfl
  | none =>
    have hempty : versions = [] := eq_nil_iff_forall_not_mem.2 fun d hd => latestAt_eq_none.1 hdv d hd (hall d hd)
    subst hempty
    rfl

theorem Inv.add (rows : List UInt32) (hlast : ∀ a ∈ added, a.1 ≤ version) :
    Inv (addDelsAsNewVersion versions rows version) (added ++ [(version, rows)]) collected := by
  have hbase := h.base hlast
  unfold addDelsAsNewVersion
  generalize ((latestAt versions version).or versions.getLast?).getD (withVersion version) = base at hbase
  rw [insertVersion_eq, addDelsAsNewVersion_eq, hbase]
  refine ⟨sorted_insertBy h.sorted, fun dv hdv => ?_, fun dv hdv => ?_, fun v hv a ha hle => ?_⟩
  · rw [deleted_append]
    rcases (mem_insertBy h.sorted).1 hdv with rfl | ⟨hdv, hne⟩
    · rw [if_pos le_rfl]
    · obtain ⟨a, ha, heq⟩ := h.source dv hdv
      have hlt : ¬ version ≤ dv.version := fun hge => hne (le_antisymm (heq ▸ hlast a ha) hge)
      rw [if_neg hlt, Finset.union_empty, h.cumulative dv hdv]
  · rcases (mem_insertBy h.sorted).1 hdv with rfl | ⟨hdv, -⟩
    · exact ⟨_, mem_append_right _ (mem_singleton_self _), rfl⟩
    · obtain ⟨a, ha, heq⟩ := h.source dv hdv
      exact ⟨a, mem_append_left _ ha, heq⟩
  · have hnew : (⟨version, deleted added version ∪ rows.toFinset⟩ : DeleteVector) ∈
        insertBy DeleteVector.version ⟨version, deleted added version ∪ rows.toFinset⟩ versions :=
      (mem_insertBy h.sorted).2 (.inl rfl)
    rcases mem_append.1 ha with ha | ha
    · obtain ⟨dv, hdv, had, hdle⟩ := h.covered v hv a ha hle
      -- a stored version that is replaced has the version of its replacement
      by_cases heq : dv.version = version
      · exact ⟨_, hnew, heq ▸ had, heq ▸ hdle⟩
      · exact ⟨dv, (mem_insertBy h.sorted).2 (.inr ⟨hdv, heq⟩), had, hdle⟩
    · obtain rfl := mem_singleton.1 ha
      exact ⟨_, hnew, le_rfl, hle⟩

theorem Inv.gc (minVisible : Signed 64) :
    Inv (gcVersionsOlderThan versions minVisible) added (collected ++ [minVisible]) := by
  obtain ⟨hsub, hkeep⟩ := gcVersionsOlderThan_spec h.sorted minVisible
  refine ⟨List.Pairwise.sublist hsub h.sorted, fun dv hdv => h.cumulative dv (hsub.subset hdv),
    fun dv hdv => h.source dv (hsub.subset hdv), fun v hv a ha hle => ?_⟩
  have hmin : minVisible ≤ v := hv minVisible (mem_append_right _ (mem_singleton_self _))
  have hcollected : ∀ m ∈ collected, m ≤ v := fun m hm => hv m (mem_append_left _ hm)
  obtain ⟨dv, hdv, had, hdle⟩ := h.covered v hcollected a ha hle
  -- the version found at `v` is not older than the bound, or it is the anchor
  cases hlatest : latestAt versions v with
  | none => exact absurd hdle (latestAt_eq_none.1 hlatest dv hdv)
  | some d =>
    obtain ⟨hd, hdv', hmax⟩ := latestAt_spec h.sorted hlatest
    refine ⟨d, hkeep d hd (.inr fun e he hele => hmax e he (hele.trans hmin)), had.trans (hmax dv hdv hdle), hdv'⟩

end

theorem Inv.step (h : Inv versions added collected) {op : Op} (hfit : op = .roundTrip → Fits fmt versions)
    (hlast : ∀ a ∈ added, ∀ b ∈ additions [op], a.1 ≤ b.1) :
    ∃ next, step fmt versions op = .ok next ∧ Inv next (added ++ additions [op]) (collected ++ bounds [op]) := by
  cases op with
  | add rows version =>
    refine ⟨_, rfl, ?_⟩
    have := h.add rows fun a ha => hlast a ha (version, rows) (mem_singleton_self _)
    simpa [additions, bounds] using this
  | gc minVisible =>
    refine ⟨_, rfl, ?_⟩
    simpa [additions, bounds] using h.gc minVisible
  | roundTrip =>
    refine ⟨versions, ofBytes_toBytes h.sorted (hfit rfl), ?_⟩
    simpa [additions, bounds] using h

theorem additions_cons (op : Op) (ops : List Op) : additions (op :: ops) = additions [op] ++ additions ops := by
  rw [additions, additions, additions, ← filterMap_append]
  rfl

theorem bounds_cons (op : Op) (ops : List Op) : bounds (op :: ops) = bounds [op] ++ bounds ops := by
  rw [bounds, bounds, bounds, ← filterMap_append]
  rfl

theorem Inv.run {ops : List Op} (h : Inv versions added collected)
    (hordered : (added ++ additions ops).Pairwise fun a b => a.1 ≤ b.1) (hfit : RoundTripsFit fmt versions ops) :
    ∃ final, run fmt versions ops = .ok final ∧ Inv final (added ++ additions ops) (collected ++ bounds ops) := by
  induction ops generalizing versions added collected with
  | nil => exact ⟨versions, rfl, by simpa [additions, bounds] using h⟩
  | cons op ops ih =>
    rw [additions_cons] at hordered ⊢
    rw [bounds_cons]
    have hlast : ∀ a ∈ added, ∀ b ∈ additions [op], a.1 ≤ b.1 := fun a ha b hb =>
      (pairwise_append.1 hordered).2.2 a ha b (mem_append_left _ hb)
    obtain ⟨next, hnext, hinv⟩ := h.step hfit.1 hlast
    obtain ⟨final, hfinal, hinv'⟩ := ih hinv (by rwa [append_assoc]) (hfit.2 next hnext)
    refine ⟨final, ?_, by simpa only [append_assoc] using hinv'⟩
    rw [DeleteHistory.run, foldlM_cons, hnext]
    exact hfinal

/-- **Delete history.** For every run with non-decreasing versions whose round trips fit their format, no step
fails, and for every version at or above all collections a read reports exactly the rows added at or below it,
and nothing exactly when nothing was added there. -/
theorem delete_history (fmt : RoaringFormat) (ops : List Op)
    (hordered : (additions ops).Pairwise fun a b => a.1 ≤ b.1) (hfit : RoundTripsFit fmt [] ops) :
    ∃ final, run fmt [] ops = .ok final ∧ ∀ version, (∀ m ∈ bounds ops, m ≤ version) →
        (latestAt final version).elim ∅ bitmap = deleted (additions ops) version ∧
          (latestAt final version = none ↔ ∀ a ∈ additions ops, ¬ a.1 ≤ version) := by
  have hempty : Inv [] [] [] :=
    ⟨List.Pairwise.nil, fun _ h => absurd h not_mem_nil, fun _ h => absurd h not_mem_nil,
      fun _ _ _ h => absurd h not_mem_nil⟩
  obtain ⟨final, hfinal, hinv⟩ := hempty.run hordered hfit
  exact ⟨final, hfinal, fun version hv => hinv.law hv⟩

/-! ## A format, and the runs at its limit -/

def readRows : List UInt8 → List Nat
  | a :: b :: c :: d :: rest => ofLeBytes [a, b, c, d] :: readRows rest
  | _ => []

theorem readRows_flatMap {rows : List Nat} (h : ∀ row ∈ rows, row < 2 ^ 32) :
    readRows (rows.flatMap (leBytes 4)) = rows := by
  induction rows with
  | nil => rfl
  | cons row rows ih =>
    have hrow := @ofLeBytes_leBytes 4 _ (h row mem_cons_self)
    rw [flatMap_cons]
    show ofLeBytes (leBytes 4 row) :: readRows (rows.flatMap (leBytes 4)) = _
    rw [hrow, ih fun r hr => h r (mem_cons_of_mem row hr)]

def rowListFormat : RoaringFormat where
  serialize bitmap := ((bitmap.image UInt32.toNat).sort (· ≤ ·)).flatMap (leBytes 4)
  deserialize bytes := some ((readRows bytes).map UInt32.ofNat).toFinset
  deserialize_serialize bitmap := by
    rw [readRows_flatMap]
    · congr 1
      ext row
      simp only [mem_toFinset, mem_map, Finset.mem_sort, Finset.mem_image]
      constructor
      · rintro ⟨_, ⟨r, hr, rfl⟩, rfl⟩
        rwa [UInt32.ofNat_toNat]
      · exact fun hr => ⟨row.toNat, ⟨row, hr, rfl⟩, UInt32.ofNat_toNat⟩
    · intro row hrow
      obtain ⟨r, -, rfl⟩ := Finset.mem_image.1 ((Finset.mem_sort _).1 hrow)
      exact r.toNat_lt

theorem length_serialize_rowListFormat (bitmap : Finset UInt32) :
    (rowListFormat.serialize bitmap).length = 4 * bitmap.card := by
  have hcard : (bitmap.image UInt32.toNat).card = bitmap.card :=
    Finset.card_image_of_injective bitmap fun _ _ h => UInt32.toNat_inj.1 h
  show (((bitmap.image UInt32.toNat).sort (· ≤ ·)).flatMap (leBytes 4)).length = _
  simp [length_flatMap, hcard, Nat.mul_comm]

theorem delete_history_two_versions :
    ∃ final, run rowListFormat [] [.add [1] (wrap 64 1), .add [2] (wrap 64 2), .roundTrip,
        .gc (wrap 64 2)] = .ok final ∧
      ∀ version, (∀ m ∈ [wrap 64 2], m ≤ version) → (latestAt final version).elim ∅ bitmap =
            deleted [(wrap 64 1, [1]), (wrap 64 2, [2])] version ∧
          (latestAt final version = none ↔
            ∀ a ∈ [(wrap 64 1, [(1 : UInt32)]), (wrap 64 2, [2])], ¬ a.1 ≤ version) := by
  refine delete_history rowListFormat
    [.add [1] (wrap 64 1), .add [2] (wrap 64 2), .roundTrip, .gc (wrap 64 2)] (by decide)
    ⟨nofun, fun _ h1 => ⟨nofun, fun _ h2 => ⟨fun _ => ?_, fun _ _ => ⟨nofun, fun _ _ => trivial⟩⟩⟩⟩
  cases h1
  cases h2
  refine ⟨by decide, fun dv hdv => ?_⟩
  have hcard : ∀ dv ∈ addDelsAsNewVersion (addDelsAsNewVersion [] [1] (wrap 64 1)) [2] (wrap 64 2),
      4 * dv.bitmap.card < 2 ^ 32 := by decide
  exact lt_of_le_of_lt (length_serialize_rowListFormat dv.bitmap).le (hcard dv hdv)

def countedAdds (count : Nat) : List Op := (List.range count).map fun i : Nat => .add [0] (wrap 64 i)

theorem wrap_val_of_lt {i : Nat} (h : i < 2 ^ 63) : (wrap 64 i).val = i :=
  congrArg val (wrap_val (⟨i, by omega, by omega⟩ : Signed 64))

theorem run_countedAdds (fmt : RoaringFormat) {count : Nat} (h : count ≤ 2 ^ 63) :
    ∃ versions, run fmt [] (countedAdds count) = .ok versions ∧ versions.length = count ∧
      ∀ dv ∈ versions, dv.version.val < count := by
  induction count with
  | zero => exact ⟨[], rfl, rfl, fun _ h => absurd h not_mem_nil⟩
  | succ count ih =>
    obtain ⟨versions, hrun, hlen, hversions⟩ := ih (by omega)
    have hval := wrap_val_of_lt (i := count) (by omega)
    refine ⟨addDelsAsNewVersion versions [0] (wrap 64 count), ?_, ?_⟩
    · rw [run] at hrun
      rw [run, countedAdds, range_succ, map_append, foldlM_append, ← countedAdds, hrun]
      rfl
    · -- the new version exceeds all others
      rw [addDelsAsNewVersion, insertVersion_eq, addDelsAsNewVersion_eq, insertBy_of_lt]
      · refine ⟨by rw [length_append, hlen]; rfl, fun dv hdv => ?_⟩
        rcases mem_append.1 hdv with hdv | hdv
        · have := hversions dv hdv
          push_cast
          omega
        · obtain rfl := mem_singleton.1 hdv
          show (wrap 64 count).val < _
          push_cast
          omega
      · intro dv hdv
        show dv.version.val < (wrap 64 count).val
        rw [hval]
        exact hversions dv hdv

/-- `2 ^ 32` versions are written with the count 0: they are gone after one round trip. -/
theorem versions_lost_after_round_trip :
    run rowListFormat [] (countedAdds (2 ^ 32) ++ [.roundTrip]) = .ok [] ∧ latestAt [] (wrap 64 0) = none ∧
      (wrap 64 0, [(0 : UInt32)]) ∈ additions (countedAdds (2 ^ 32) ++ [.roundTrip]) := by
  obtain ⟨versions, hrun, hlen, -⟩ := @run_countedAdds rowListFormat (2 ^ 32) (by omega)
  refine ⟨?_, rfl, ?_⟩
  · rw [run] at hrun
    rw [run, foldlM_append, hrun]
    show (step rowListFormat versions .roundTrip >>= pure) = _
    rw [step, ofBytes_toBytes_eq, hlen, Nat.mod_self, readEntries]
    exact congrArg Except.ok (fromVersions_of_sorted List.Pairwise.nil)
  · refine mem_filterMap.2 ⟨.add [0] (wrap 64 0), mem_append_left _ ?_, rfl⟩
    exact mem_map.2 ⟨0, mem_range.2 (by omega), rfl⟩

end Paro.L3.DeleteHistory
