import Paro.L2Machine.ReadDependencyIndex

/-!
# How read sets evolve

Every operation of the index changes a read set in one of two ways (`Evolves`): it extends the
list of dependencies in the same coarsening epoch, or it coarsens the read set for the first
and only time, which takes the epoch from 0 to a positive number. Either way the new read set
conflicts with every write that the old one conflicted with (`CoversAll`).
-/
namespace Paro.L2.ReadSet
open L1 List ReadDependencyIndex
open ActiveReadSet hiding recordBatch rollbackToSavepoint

/-! ## One read set -/

def CoversAll (ds rs : List ReadDependency) : Prop := ∀ d ∈ rs, ∃ d' ∈ ds, d'.Covers d

variable {ds ds' rec rec' : List ReadDependency} {o : ReadDependencyIndexOptions}
  {rs rs' rs'' : ActiveReadSet} {epoch : Nat}

theorem CoversAll.trans (h1 : CoversAll ds ds') (h2 : CoversAll ds' rec) : CoversAll ds rec := by
  intro d hd
  obtain ⟨d1, hm1, hc1⟩ := h2 d hd
  obtain ⟨d2, hm2, hc2⟩ := h1 d1 hm1
  exact ⟨d2, hm2, ReadDependency.covers_trans hc2 hc1⟩

theorem coversAll_of_subset (h : ∀ d ∈ rec, d ∈ ds) : CoversAll ds rec :=
  fun d hd => ⟨d, h d hd, d.covers_refl⟩

theorem coversAll_append : CoversAll ds (rec ++ rec') ↔ CoversAll ds rec ∧ CoversAll ds rec' := by
  simp only [CoversAll, mem_append]
  constructor
  · exact fun h => ⟨fun d hd => h d (.inl hd), fun d hd => h d (.inr hd)⟩
  · rintro ⟨h1, h2⟩ d (hd | hd)
    · exact h1 d hd
    · exact h2 d hd

/-- The set of seen dependencies mirrors the list, and epoch 0 means not coarsened. -/
structure Ok (rs : ActiveReadSet) : Prop where
  nodup : rs.dependencies.Nodup
  seen : ∀ d, d ∈ rs.seen ↔ d ∈ rs.dependencies
  epoch : rs.coarsened = false ↔ rs.coarseningEpoch = 0

/-- The read set grew in its epoch, or was coarsened. Its identity and SSI flags stay. -/
structure Evolves (rs rs' : ActiveReadSet) : Prop where
  ok : Ok rs'
  covers : CoversAll rs'.dependencies rs.dependencies
  shape : (rs'.coarseningEpoch = rs.coarseningEpoch ∧ rs.dependencies <+: rs'.dependencies) ∨
    (rs.coarsened = false ∧ 0 < rs'.coarseningEpoch)
  txnId : rs'.txnId = rs.txnId
  readTs : rs'.readTs = rs.readTs
  ssi : rs'.ssi = rs.ssi

theorem Evolves.refl (h : Ok rs) : Evolves rs rs :=
  ⟨h, coversAll_of_subset fun _ hd => hd, .inl ⟨rfl, prefix_rfl⟩, rfl, rfl, rfl⟩

theorem Evolves.trans (h : Ok rs) (h1 : Evolves rs rs') (h2 : Evolves rs' rs'') : Evolves rs rs'' := by
  refine ⟨h2.ok, h2.covers.trans h1.covers, ?_, h2.txnId.trans h1.txnId, h2.readTs.trans h1.readTs, h2.ssi.trans h1.ssi⟩
  rcases h1.shape with ⟨he1, hp1⟩ | ⟨hc1, hpos1⟩
  · rcases h2.shape with ⟨he2, hp2⟩ | ⟨hc2, hpos2⟩
    · exact .inl ⟨he2.trans he1, hp1.trans hp2⟩
    · right
      refine ⟨?_, hpos2⟩
      rw [h.epoch, ← he1, ← h1.ok.epoch]; exact hc2
  · right
    refine ⟨hc1, ?_⟩
    rcases h2.shape with ⟨he2, -⟩ | ⟨-, hpos2⟩
    · rw [he2]; exact hpos1
    · exact hpos2

theorem coarsen_evolves (hc : rs.coarsened = false) (he : 0 < epoch) : Evolves rs (rs.coarsenToTableLevel o epoch) := by
  refine ⟨⟨nodup_keepFirst, fun _ => Iff.rfl, ?_⟩, ?_, .inr ⟨hc, he⟩, rfl, rfl, rfl⟩
  · simp only [coarsenToTableLevel, Bool.true_eq_false, false_iff]; omega
  · intro d hd
    refine ⟨d.widen, ?_, d.covers_widen⟩
    simp only [coarsenToTableLevel]
    exact mem_keepFirst.2 ⟨mem_map_of_mem hd, by simp⟩

theorem insert_evolves (h : Ok rs) (d : ReadDependency) :
    Evolves rs (rs.insertDependency d).1 ∧ d ∈ (rs.insertDependency d).1.dependencies := by
  unfold insertDependency
  split
  · rename_i hd
    exact ⟨.refl h, (h.seen d).1 hd⟩
  rename_i hd
  have hd' : d ∉ rs.dependencies := fun hm => hd ((h.seen d).2 hm)
  refine ⟨⟨⟨?_, ?_, h.epoch⟩, coversAll_of_subset fun _ hm => mem_append_left _ hm,
    .inl ⟨rfl, prefix_append _ _⟩, rfl, rfl, rfl⟩, by simp⟩
  · rw [nodup_append]
    exact ⟨h.nodup, by simp, by rintro a ha b hb rfl; exact hd' (mem_singleton.1 hb ▸ ha)⟩
  · intro d1
    simp only [mem_cons, mem_append, not_mem_nil, or_false, h.seen]
    exact or_comm

theorem levelOf_covers (rs : ActiveReadSet) (d : ReadDependency) : (rs.levelOf d).Covers d := by
  unfold levelOf
  split
  · exact d.covers_widen
  · exact d.covers_refl

theorem recordOne_evolves (h : Ok rs) (he : 0 < epoch) (d : ReadDependency) :
    Evolves rs (rs.recordOne o epoch d).1 ∧ CoversAll (rs.recordOne o epoch d).1.dependencies [d] := by
  have hcov : ∀ {r : ActiveReadSet} {d1 : ReadDependency}, d1.Covers d → d1 ∈ r.dependencies →
      CoversAll r.dependencies [d] := by
    intro r d1 hc hm x hx
    obtain rfl := mem_singleton.1 hx
    exact ⟨d1, hm, hc⟩
  unfold recordOne
  dsimp only
  split
  · rename_i hseen
    exact ⟨.refl h, hcov (levelOf_covers rs d) ((h.seen _).1 hseen)⟩
  split
  · rename_i hover
    have hc : rs.coarsened = false := by
      cases hb : rs.coarsened with
      | false => rfl
      | true => simp [hb] at hover
    have h1 : Evolves rs (rs.coarsenToTableLevel o epoch) := coarsen_evolves hc he
    obtain ⟨h2, hm⟩ := insert_evolves h1.ok ((rs.coarsenToTableLevel o epoch).levelOf (rs.levelOf d))
    exact ⟨h1.trans h h2, hcov (ReadDependency.covers_trans (levelOf_covers _ _) (levelOf_covers _ _)) hm⟩
  · obtain ⟨h2, hm⟩ := insert_evolves h (rs.levelOf (rs.levelOf d))
    exact ⟨h2, hcov (ReadDependency.covers_trans (levelOf_covers _ _) (levelOf_covers _ _)) hm⟩

/-- A batch evolves the read set, which then covers the batch. -/
theorem recordBatch_evolves (h : Ok rs) (he : 0 < epoch) (ds : List ReadDependency) :
    Evolves rs (rs.recordBatch o epoch ds).1 ∧ CoversAll (rs.recordBatch o epoch ds).1.dependencies ds := by
  induction ds generalizing rs with
  | nil => exact ⟨.refl h, by simp [CoversAll]⟩
  | cons d ds ih =>
    obtain ⟨h1, hd⟩ := recordOne_evolves (o := o) h he d
    obtain ⟨h2, hds⟩ := ih h1.ok
    refine ⟨h1.trans h h2, ?_⟩
    rw [← singleton_append, coversAll_append]
    exact ⟨h2.covers.trans hd, hds⟩

theorem txnId_rollback (o : ReadDependencyIndexOptions) (rs : ActiveReadSet)
    (m : ReadDependencyIndexMark) : (rs.rollbackToSavepoint o m).1.txnId = rs.txnId := by
  unfold ActiveReadSet.rollbackToSavepoint
  split
  · rfl
  · split <;> rfl

/-- The access epoch is no part of what evolves. -/
theorem Evolves.touch (h : Evolves rs rs') (e : Nat) : Evolves rs { rs' with lastAccessEpoch := e } :=
  { h with ok := { h.ok with } }

theorem ok_new (t readTs e : Nat) : Ok (new o t readTs e) :=
  ⟨nodup_nil, fun _ => Iff.rfl, by simp [new]⟩

/-! ## The index -/

variable {ix ix' ix'' : ReadDependencyIndex} {t u : Nat}

def AllOk (ix : ReadDependencyIndex) : Prop := ∀ t rs, ix.get t = some rs → Ok rs

structure IndexEvolves (ix ix' : ReadDependencyIndex) : Prop where
  none : ∀ t, ix.get t = .none → ix'.get t = .none
  some : ∀ t rs, ix.get t = .some rs → ∃ rs', ix'.get t = .some rs' ∧ Evolves rs rs'

theorem IndexEvolves.refl (h : AllOk ix) : IndexEvolves ix ix :=
  ⟨fun _ hn => hn, fun t rs hg => ⟨rs, hg, .refl (h t rs hg)⟩⟩

theorem IndexEvolves.trans (h : AllOk ix) (h1 : IndexEvolves ix ix') (h2 : IndexEvolves ix' ix'') :
    IndexEvolves ix ix'' := by
  refine ⟨fun t hn => h2.none t (h1.none t hn), fun t rs hg => ?_⟩
  obtain ⟨rs1, hg1, he1⟩ := h1.some t rs hg
  obtain ⟨rs2, hg2, he2⟩ := h2.some t rs1 hg1
  exact ⟨rs2, hg2, he1.trans (h t rs hg) he2⟩

theorem IndexEvolves.allOk (h : IndexEvolves ix ix') : AllOk ix' := by
  intro t rs' hg'
  cases hg : ix.get t with
  | none => rw [h.none t hg] at hg'; cases hg'
  | some rs =>
    obtain ⟨rs1, hg1, he⟩ := h.some t rs hg
    obtain rfl := Option.some.inj (hg1.symm.trans hg')
    exact he.ok

theorem coarsenTransaction_evolves (h : AllOk ix) : IndexEvolves ix (ix.coarsenTransaction o t) := by
  unfold coarsenTransaction
  split
  · exact .refl h
  rename_i rs hg
  split
  · exact .refl h
  rename_i hc
  have he : Evolves rs (rs.coarsenToTableLevel o (ix.stateEpoch + 1)) :=
    coarsen_evolves (by simpa using hc) (Nat.succ_pos _)
  have ht : (rs.coarsenToTableLevel o (ix.stateEpoch + 1)).txnId = t :=
    he.txnId.trans (txnId_of_get hg)
  constructor
  · intro u hn
    have hu : u ≠ t := by rintro rfl; rw [hg] at hn; cases hn
    simpa [ht, hu] using hn
  · intro u rs1 hg1
    by_cases hu : u = t
    · subst hu
      obtain rfl := Option.some.inj (hg.symm.trans hg1)
      exact ⟨_, by simp [ht], he⟩
    · exact ⟨rs1, by simpa [ht, hu] using hg1, .refl (h u rs1 hg1)⟩

/-- Enforcing the global budget coarsens some read sets and does nothing else. -/
theorem enforceLoop_evolves (h : AllOk ix) (fuel : Nat) : IndexEvolves ix (ix.enforceLoop o fuel) := by
  induction fuel generalizing ix with
  | zero => exact .refl h
  | succ n ih =>
    unfold enforceLoop
    split
    · split
      · exact .refl h
      · rename_i rs _
        have h1 := coarsenTransaction_evolves (o := o) (t := rs.txnId) h
        exact h1.trans h (ih h1.allOk)
    · exact .refl h

theorem entry_ok (h : AllOk ix) : Ok (ix.entry o t) ∧ (ix.entry o t).txnId = t := by
  unfold entry
  cases hg : ix.get t with
  | none => exact ⟨ok_new _ _ _, rfl⟩
  | some rs => exact ⟨h t rs hg, txnId_of_get hg⟩

/-- The locked part of a record leaves the other transactions alone and makes the read set of
its own cover the batch. -/
theorem recordLocked_spec (h : AllOk ix) (ds : List ReadDependency) :
    ∃ rs', (∀ u, (ix.recordLocked o t ds).1.get u = if u = t then some rs' else ix.get u) ∧
      Evolves (ix.entry o t) rs' ∧ CoversAll rs'.dependencies ds := by
  obtain ⟨hok, ht⟩ := entry_ok (o := o) (t := t) h
  obtain ⟨he, hc⟩ := recordBatch_evolves (o := o) hok (Nat.succ_pos ix.stateEpoch) ds
  have ht' := he.txnId.trans ht
  unfold recordLocked
  dsimp only
  split
  · refine ⟨_, fun u => ?_, he.touch (ix.stateEpoch + 1), hc⟩
    rw [get_bumpEpoch, get_applyMemoryDelta, get_put, ht']
  · refine ⟨_, fun u => ?_, he, hc⟩
    rw [get_applyMemoryDelta, get_put, ht']

theorem coversAll_normalizeBatch (ds : List ReadDependency) : CoversAll (normalizeBatch ds) ds := by
  intro d hd
  refine ⟨d.normalize, ?_, d.covers_normalize⟩
  simp only [normalizeBatch, mem_dedup, mem_insertionSort]
  exact mem_map_of_mem hd

/-- Recording for a registered transaction evolves every read set, and its own covers the batch. -/
theorem recordBatch_spec (h : AllOk ix) (hg : ix.get t = some rs) (ds : List ReadDependency) :
    IndexEvolves ix (ix.recordBatch o t ds) ∧
      ∃ rs', (ix.recordBatch o t ds).get t = some rs' ∧ CoversAll rs'.dependencies ds := by
  unfold recordBatch
  split
  · rename_i hnil
    exact ⟨.refl h, rs, hg, coversAll_of_subset fun _ hd => absurd hd (hnil ▸ not_mem_nil)⟩
  obtain ⟨rs', hget, hev, hcov⟩ := recordLocked_spec (o := o) (t := t) h (normalizeBatch ds)
  have hentry : ix.entry o t = rs := by simp [entry, hg]
  rw [hentry] at hev
  have hcov' := hcov.trans (coversAll_normalizeBatch ds)
  have hix : IndexEvolves ix (ix.recordLocked o t (normalizeBatch ds)).1 := by
    refine ⟨fun u hn => ?_, fun u ru hu => ?_⟩
    · have hu : u ≠ t := by rintro rfl; rw [hg] at hn; cases hn
      rw [hget, if_neg hu]; exact hn
    · by_cases hut : u = t
      · subst hut
        obtain rfl := Option.some.inj (hg.symm.trans hu)
        exact ⟨rs', by rw [hget, if_pos rfl], hev⟩
      · exact ⟨ru, by rw [hget, if_neg hut]; exact hu, .refl (h u ru hu)⟩
  have ht := (hget t).trans (if_pos rfl)
  dsimp only
  split
  · have henf := enforceLoop_evolves (o := o) hix.allOk (ix.recordLocked o t (normalizeBatch ds)).1.txns.length
    obtain ⟨rs'', hg'', hev''⟩ := henf.some t rs' ht
    exact ⟨hix.trans h henf, rs'', hg'', hev''.covers.trans hcov'⟩
  · exact ⟨hix, rs', ht, hcov'⟩

end Paro.L2.ReadSet
