import Paro.Core.LTS
import Paro.L2Machine.ReadSetEvolution

/-!
# Coarsening never loses a conflict

Runs of the read dependency index: transactions register, record, take savepoint marks, roll
back to them in LIFO order and are released, while any read set may be coarsened at any point,
by its owner's budget or by another transaction's enforcement of the global one. Beside the
index a ghost keeps what each transaction recorded and has not rolled back.

The invariant of `frozen_covers` is about one read set and its ghost (`Tracks`). Since a read set is coarsened at
most once, a mark of an older epoch is never followed by a truncation, and a mark of the current
epoch still names a prefix that covers what was recorded before it.
-/
namespace Paro.L3.ReadSetCoverage
open L1 L2 ReadSet List ReadDependencyIndex

variable {o : ReadDependencyIndexOptions} {rs rs' : ActiveReadSet} {ix' : ReadDependencyIndex} {t : Nat}

/-! ## The ghost of one transaction -/

/-- What a transaction recorded and did not roll back, and its marks, newest first, each with
how much was recorded when it was taken. -/
structure Ghost where
  recorded : List ReadDependency := []
  marks : List (ReadDependencyIndexMark × Nat) := []
deriving DecidableEq

/-- What a mark promises for a read set in the mark's own coarsening epoch. -/
structure MarkOk (rs : ActiveReadSet) (recorded : List ReadDependency)
    (m : ReadDependencyIndexMark × Nat) : Prop where
  le : m.2 ≤ recorded.length
  fresh : rs.coarsened = false → m.1.coarseningEpoch = 0
  count : m.1.coarseningEpoch = rs.coarseningEpoch → m.1.dependencyCount ≤ rs.dependencies.length
  covers : m.1.coarseningEpoch = rs.coarseningEpoch →
    CoversAll (rs.dependencies.take m.1.dependencyCount) (recorded.take m.2)

/-- Marks of one epoch were taken at growing lengths. -/
def MarksOrdered (l : List (ReadDependencyIndexMark × Nat)) : Prop :=
  l.Pairwise fun newer older => older.2 ≤ newer.2 ∧ (older.1.coarseningEpoch = newer.1.coarseningEpoch →
      older.1.dependencyCount ≤ newer.1.dependencyCount)

/-- The read set of a transaction stands for its ghost. -/
structure Tracked (rs : ActiveReadSet) (g : Ghost) : Prop where
  ok : Ok rs
  covers : CoversAll rs.dependencies g.recorded
  marks : ∀ m ∈ g.marks, MarkOk rs g.recorded m
  ordered : MarksOrdered g.marks

/-- A transaction without a read set recorded nothing and holds only default marks. -/
def Tracks (entry : Option ActiveReadSet) (g : Ghost) : Prop :=
  match entry with
  | none => g.recorded = [] ∧ ∀ m ∈ g.marks, m = ({}, 0)
  | some rs => Tracked rs g

variable {g : Ghost}
  {recorded : List ReadDependency} {m : ReadDependencyIndexMark × Nat} {i k : Nat}
  {older : List (ReadDependencyIndexMark × Nat)}

/-- A mark outlives every evolution of the read set: in its own epoch the prefix it names stays,
and after a coarsening its epoch is gone. -/
theorem MarkOk.evolve {more : List ReadDependency}
    (h : Ok rs) (hm : MarkOk rs recorded m) (he : Evolves rs rs') : MarkOk rs' (recorded ++ more) m := by
  have hle : m.2 ≤ (recorded ++ more).length := by
    have := hm.le; rw [length_append]; omega
  have hstale : (rs.coarsened = false ∧ 0 < rs'.coarseningEpoch) → m.1.coarseningEpoch ≠ rs'.coarseningEpoch := by
    rintro ⟨hc, hpos⟩ heq
    have := hm.fresh hc
    omega
  refine ⟨hle, fun hc' => ?_, fun heq => ?_, fun heq => ?_⟩
  · have hc0 := he.ok.epoch.1 hc'
    rcases he.shape with ⟨hsame, -⟩ | ⟨hc, -⟩
    · exact hm.fresh (h.epoch.2 (hsame ▸ hc0))
    · exact hm.fresh hc
  · rcases he.shape with ⟨hsame, hpre⟩ | hcoarse
    · exact (hm.count (heq.trans hsame)).trans hpre.length_le
    · exact absurd heq (hstale hcoarse)
  · rcases he.shape with ⟨hsame, hpre⟩ | hcoarse
    · have hcount := hm.count (heq.trans hsame)
      obtain ⟨tail, htail⟩ := hpre
      rw [← htail, take_append_of_le_length hcount, take_append_of_le_length hm.le]
      exact hm.covers (heq.trans hsame)
    · exact absurd heq (hstale hcoarse)

/-- Evolving the read set and recording what it then covers keeps it tracked. -/
theorem Tracked.evolve (h : Tracked rs g) (he : Evolves rs rs') (more : List ReadDependency)
    (hmore : CoversAll rs'.dependencies more) : Tracked rs' { g with recorded := g.recorded ++ more } :=
  ⟨he.ok, coversAll_append.2 ⟨he.covers.trans h.covers, hmore⟩, fun m hm => (h.marks m hm).evolve h.ok he, h.ordered⟩

/-- Timestamps are no part of what is tracked. -/
theorem Tracked.touch (h : Tracked rs g) (readTs e : Nat) : Tracked { rs with readTs, lastAccessEpoch := e } g :=
  ⟨⟨h.ok.nodup, h.ok.seen, h.ok.epoch⟩, h.covers,
    fun m hm => ⟨(h.marks m hm).le, (h.marks m hm).fresh, (h.marks m hm).count, (h.marks m hm).covers⟩, h.ordered⟩

/-- A read set created for a transaction without one. -/
theorem Tracks.create (h : Tracks none g) (readTs e : Nat) : Tracked (ActiveReadSet.new o t readTs e) g := by
  obtain ⟨hrec, hmarks⟩ := h
  have hz := hmarks
  refine ⟨ok_new _ _ _, ?_, ?_, ?_⟩
  · rw [hrec]; exact coversAll_of_subset fun _ hd => absurd hd not_mem_nil
  · intro m hm
    obtain rfl := hz m hm
    exact ⟨Nat.zero_le _, fun _ => rfl, fun _ => Nat.zero_le _, fun _ d hd => by simp at hd⟩
  · refine List.Pairwise.imp_of_mem ?_ (pairwise_of_forall (R := fun _ _ => True) (by simp))
    rintro a b ha hb -
    rw [hz a ha, hz b hb]
    exact ⟨le_rfl, fun _ => le_rfl⟩

theorem Tracked.mark (h : Tracked rs g) :
    Tracked rs { g with marks := (rs.markSavepoint, g.recorded.length) :: g.marks } := by
  refine ⟨h.ok, h.covers, ?_, ?_⟩
  · refine forall_mem_cons.2 ⟨⟨le_rfl, fun hc => h.ok.epoch.1 hc, fun _ => le_rfl, fun _ => ?_⟩, h.marks⟩
    rw [ActiveReadSet.markSavepoint, take_length, take_length]
    exact h.covers
  · exact pairwise_cons.2 ⟨fun m hm => ⟨(h.marks m hm).le, fun heq => (h.marks m hm).count heq⟩, h.ordered⟩

/-- Truncating what was recorded to the length at a mark keeps the marks at least as old. -/
theorem MarkOk.take {recorded : List ReadDependency} {m : ReadDependencyIndexMark × Nat} {k : Nat}
    (hm : MarkOk rs recorded m) (hk : m.2 ≤ k) : MarkOk rs (recorded.take k) m := by
  refine ⟨?_, hm.fresh, hm.count, fun heq => ?_⟩
  · have := hm.le
    rw [length_take]; omega
  · rw [take_take, min_eq_left hk]; exact hm.covers heq

/-- So does truncating the read set, for marks that name a shorter part of it. -/
theorem MarkOk.truncate {n : Nat} (hm : MarkOk rs recorded m)
    (hn : m.1.coarseningEpoch = rs.coarseningEpoch → m.1.dependencyCount ≤ n)
    (hd : rs'.dependencies = rs.dependencies.take n) (hc : rs'.coarsened = rs.coarsened)
    (he : rs'.coarseningEpoch = rs.coarseningEpoch) : MarkOk rs' recorded m := by
  refine ⟨hm.le, fun h => hm.fresh (hc ▸ h), fun heq => ?_, fun heq => ?_⟩
  · have := hm.count (heq.trans he)
    have := hn (heq.trans he)
    rw [hd, length_take]; omega
  · rw [hd, take_take, min_eq_left (hn (heq.trans he))]
    exact hm.covers (heq.trans he)

/-- What rolling back leaves of a read set: all of it, or the part the mark names. -/
theorem rollback_shape (h : Ok rs) (m : ReadDependencyIndexMark) :
    (rs.rollbackToSavepoint o m).1 = rs ∨ m.coarseningEpoch = rs.coarseningEpoch ∧
        ∃ rs', (rs.rollbackToSavepoint o m).1 = rs' ∧ Ok rs' ∧
          rs'.dependencies = rs.dependencies.take m.dependencyCount ∧
          rs'.coarsened = rs.coarsened ∧ rs'.coarseningEpoch = rs.coarseningEpoch := by
  unfold ActiveReadSet.rollbackToSavepoint
  split
  · exact .inl rfl
  rename_i hsame
  split
  · exact .inl rfl
  have hnd : (rs.dependencies.take m.dependencyCount).Nodup := h.nodup.sublist (take_sublist _ _)
  have hk : keepFirst [] (rs.dependencies.take m.dependencyCount) =
      rs.dependencies.take m.dependencyCount := keepFirst_of_nodup hnd (by simp)
  refine .inr ⟨(not_not.1 hsame).symm, _, rfl, ⟨?_, fun _ => .rfl, h.epoch⟩, hk, rfl, rfl⟩
  exact nodup_keepFirst

theorem Tracked.rollback {m : ReadDependencyIndexMark} (h : Tracked rs g) (hi : g.marks.drop i = (m, k) :: older) :
    Tracked (rs.rollbackToSavepoint o m).1 ⟨g.recorded.take k, (m, k) :: older⟩ := by
  have hsub : ∀ x ∈ (m, k) :: older, x ∈ g.marks := fun x hx => mem_of_mem_drop (hi ▸ hx)
  have hord : MarksOrdered ((m, k) :: older) := by
    rw [← hi]; exact h.ordered.sublist (drop_sublist _ _)
  -- the marks that stay were taken no later than the one rolled back to
  have hle : ∀ x ∈ (m, k) :: older, x.2 ≤ k ∧
      (x.1.coarseningEpoch = m.coarseningEpoch → x.1.dependencyCount ≤ m.dependencyCount) := by
    exact forall_mem_cons.2 ⟨⟨le_rfl, fun _ => le_rfl⟩, (pairwise_cons.1 hord).1⟩
  have hmarks : ∀ x ∈ (m, k) :: older, MarkOk rs (g.recorded.take k) x :=
    fun x hx => (h.marks x (hsub x hx)).take (hle x hx).1
  rcases rollback_shape (o := o) h.ok m with hrs | ⟨hep, rs', hrs, hok, hd, hc, he⟩
  · rw [hrs]
    exact ⟨h.ok, fun d hd => h.covers d (mem_of_mem_take hd), hmarks, hord⟩
  · rw [hrs]
    refine ⟨hok, ?_, fun x hx => ?_, hord⟩
    · rw [hd]; exact (h.marks (m, k) (hsub _ mem_cons_self)).covers hep
    · exact (hmarks x hx).truncate (fun hx' => (hle x hx).2 (hx'.trans hep.symm)) hd hc he

/-! ## Runs -/

inductive Lbl where
  | registerTransaction (t readTs : Nat)
  | recordBatch (t : Nat) (ds : List ReadDependency)
  /-- the part of a `record_batch` before its budget enforcement -/
  | recordLocked (t : Nat) (ds : List ReadDependency)
  /-- one round of some thread's budget enforcement -/
  | coarsenTransaction (t : Nat)
  | markSavepoint (t : Nat)
  /-- roll back to the `i`-th newest mark; the newer ones are gone -/
  | rollbackToSavepoint (t i : Nat)
  | releaseTransaction (t : Nat)

structure State where
  index : ReadDependencyIndex
  ghost : Nat → Ghost

def State.setGhost (s : State) (ix : ReadDependencyIndex) (t : Nat) (g : Ghost) : State :=
  ⟨ix, Function.update s.ghost t g⟩

variable (o)

def step (s : State) : Lbl → Option State
  | .registerTransaction t readTs => some { s with index := s.index.registerTransaction o t readTs }
  | .recordBatch t ds =>
    let g := s.ghost t
    some (s.setGhost (s.index.recordBatch o t ds) t { g with recorded := g.recorded ++ ds })
  | .recordLocked t ds =>
    let g := s.ghost t
    some (s.setGhost (s.index.recordLocked o t (normalizeBatch ds)).1 t
      { g with recorded := g.recorded ++ ds })
  | .coarsenTransaction t => some { s with index := s.index.coarsenTransaction o t }
  | .markSavepoint t =>
    let g := s.ghost t
    some (s.setGhost s.index t { g with marks := (s.index.markSavepoint t, g.recorded.length) :: g.marks })
  | .rollbackToSavepoint t i =>
    let g := s.ghost t
    match g.marks.drop i with
    | [] => none
    | (m, k) :: older => some (s.setGhost (s.index.rollbackToSavepoint o t m) t ⟨g.recorded.take k, (m, k) :: older⟩)
  | .releaseTransaction t => some (s.setGhost (s.index.releaseTransaction t) t {})

def lts : LTS State Lbl :=
  .ofStep ⟨.empty, fun _ => {}⟩ (step o)

def Inv (s : State) : Prop := ∀ t, Tracks (s.index.get t) (s.ghost t)

variable {s : State}

theorem Inv.allOk (h : Inv s) : AllOk s.index := by
  intro t rs hg
  have := h t
  rw [hg] at this
  exact this.ok

theorem Tracks.evolve {entry entry' : Option ActiveReadSet} (h : Tracks entry g) (hn : entry = none → entry' = none)
    (hs : ∀ rs, entry = some rs → ∃ rs', entry' = some rs' ∧ Evolves rs rs') : Tracks entry' g := by
  cases entry with
  | none => rw [hn rfl]; exact h
  | some rs =>
    obtain ⟨rs', he', hev⟩ := hs rs rfl
    rw [he']
    have := Tracked.evolve h hev [] (coversAll_of_subset fun _ hd => absurd hd not_mem_nil)
    rwa [append_nil] at this

/-- Coarsening, by whichever thread, changes no ghost. -/
theorem inv_evolve (h : Inv s) (he : IndexEvolves s.index ix') : Inv { s with index := ix' } :=
  fun t => (h t).evolve (he.none t) (he.some t)

/-- An operation on one transaction only has to keep that transaction tracked. -/
theorem inv_setGhost (h : Inv s) (hu : ∀ u, u ≠ t → ix'.get u = s.index.get u)
    (ht : Tracks (ix'.get t) g) : Inv (s.setGhost ix' t g) := by
  intro u
  by_cases hut : u = t
  · subst hut
    simpa [State.setGhost] using ht
  · simpa [State.setGhost, hut, hu u hut] using h u

variable {o}

theorem inv_recordLocked (h : Inv s) (ds : List ReadDependency) :
    Inv (s.setGhost (s.index.recordLocked o t (normalizeBatch ds)).1 t
      { s.ghost t with recorded := (s.ghost t).recorded ++ ds }) := by
  obtain ⟨rs', hget, hev, hcov⟩ := recordLocked_spec (o := o) (t := t) h.allOk (normalizeBatch ds)
  refine inv_setGhost h (fun u hu => by rw [hget, if_neg hu]) ?_
  rw [hget, if_pos rfl]
  have hbefore : Tracked (s.index.entry o t) (s.ghost t) := by
    have ht := h t
    unfold entry
    cases hg : s.index.get t with
    | none => rw [hg] at ht; exact ht.create 0 _
    | some rs => rw [hg] at ht; exact ht
  exact hbefore.evolve hev ds (hcov.trans (coversAll_normalizeBatch ds))

theorem inv_rollback {m : ReadDependencyIndexMark} (h : Inv s) (hi : (s.ghost t).marks.drop i = (m, k) :: older) :
    Inv (s.setGhost (s.index.rollbackToSavepoint o t m) t ⟨(s.ghost t).recorded.take k, (m, k) :: older⟩) := by
  have ht := h t
  unfold rollbackToSavepoint
  cases hg : s.index.get t with
  | none =>
    rw [hg] at ht
    refine inv_setGhost h (fun _ _ => rfl) ?_
    rw [hg]
    refine ⟨by rw [ht.1, take_nil], fun x hx => ht.2 x ?_⟩
    exact mem_of_mem_drop (hi ▸ hx)
  | some rs =>
    rw [hg] at ht
    have htr := Tracked.rollback (o := o) ht hi
    have hid : (rs.rollbackToSavepoint o m).1.txnId = t := by
      rw [txnId_rollback]; exact txnId_of_get hg
    dsimp only
    split
    · refine inv_setGhost h (fun u hu => by simp [hid, hu]) ?_
      rw [get_applyMemoryDelta, get_put, if_pos hid.symm]
      exact htr.touch _ _
    · refine inv_setGhost h (fun u hu => by simp [hid, hu]) ?_
      rw [get_put, if_pos hid.symm]
      exact htr

theorem inv_register (h : Inv s) (t readTs : Nat) : Inv { s with index := s.index.registerTransaction o t readTs } := by
  intro u
  obtain ⟨e, hget⟩ := s.index.get_registerTransaction o t u readTs
  dsimp only
  rw [hget]
  by_cases hu : u = t
  · subst hu
    have ht := h u
    rw [if_pos rfl]
    cases hg : s.index.get u with
    | none => rw [hg] at ht; exact ht.create readTs e
    | some rs =>
      rw [hg] at ht
      exact ht.touch readTs e
  · rw [if_neg hu]; exact h u

theorem inv_step {s' : State} {l : Lbl} (h : Inv s) (hs : step o s l = some s') : Inv s' := by
  cases l with
  | registerTransaction t readTs => cases hs; exact inv_register h t readTs
  | recordBatch t ds =>
    cases hs
    unfold recordBatch
    split
    · rename_i hnil
      refine inv_setGhost h (fun _ _ => rfl) ?_
      rw [hnil, append_nil]; exact h t
    have hlocked := inv_recordLocked (o := o) (t := t) h ds
    dsimp only
    split
    · exact inv_evolve hlocked (enforceLoop_evolves hlocked.allOk _)
    · exact hlocked
  | recordLocked t ds => cases hs; exact inv_recordLocked h ds
  | coarsenTransaction t => cases hs; exact inv_evolve h (coarsenTransaction_evolves h.allOk)
  | markSavepoint t =>
    cases hs
    refine inv_setGhost h (fun _ _ => rfl) ?_
    have ht := h t
    unfold markSavepoint
    cases hg : s.index.get t with
    | none =>
      rw [hg] at ht
      refine ⟨ht.1, forall_mem_cons.2 ⟨?_, ht.2⟩⟩
      rw [ht.1]; rfl
    | some rs => rw [hg] at ht; exact ht.mark
  | rollbackToSavepoint t i =>
    simp only [step] at hs
    split at hs
    · cases hs
    · rename_i hi
      cases hs
      exact inv_rollback h hi
  | releaseTransaction t =>
    cases hs
    refine inv_setGhost h (fun u hu => by rw [get_releaseTransaction, if_neg hu]) ?_
    rw [get_releaseTransaction, if_pos rfl]
    exact ⟨rfl, fun _ hx => absurd hx not_mem_nil⟩

variable (o)

theorem inv_invariant : (lts o).Invariant Inv where
  init := by rintro _ rfl t; exact ⟨rfl, fun _ hx => absurd hx not_mem_nil⟩
  step := fun _ _ _ h hs => inv_step h hs

/-- **Coarsening never loses a conflict**: in every reachable state, a write that conflicts with
something a transaction recorded and did not roll back conflicts with its frozen read set. -/
theorem frozen_covers (o : ReadDependencyIndexOptions) {s : State} (hs : (lts o).Reachable s)
    (t : Nat) (w : LockResource) {d : ReadDependency} (hd : d ∈ (s.ghost t).recorded)
    (hw : d.conflictsWithWrite w = true) :
    ∃ d' ∈ (s.index.frozenReadSet t).dependencies, d'.conflictsWithWrite w = true := by
  have ht := (inv_invariant o).reachable hs t
  unfold frozenReadSet
  cases hg : s.index.get t with
  | none => rw [hg] at ht; rw [ht.1] at hd; cases hd
  | some rs =>
    rw [hg] at ht
    obtain ⟨d', hm, hc⟩ := ht.covers d hd
    exact ⟨d', hm, hc w hw⟩

/-- Transaction 1 reads two keys around a savepoint; transaction 2's enforcement of the global
budget coarsens it, and the rollback to the savepoint then removes nothing. -/
theorem frozen_covers_after_coarsening :
    ∃ s, (lts ⟨1000, 100, 0⟩).Reachable s ∧ (s.ghost 1).recorded = [.keyRange 10 5 5] ∧
      (s.index.frozenReadSet 1).coarsened = true ∧
      ∃ d' ∈ (s.index.frozenReadSet 1).dependencies,
        d'.conflictsWithWrite (.primaryKey ⟨0, 1⟩ 10 20 5) = true := by
  have hrun : ∃ s, (lts ⟨1000, 100, 0⟩).Reachable s ∧
      (s.ghost 1).recorded = [.keyRange 10 5 5] ∧ (s.index.frozenReadSet 1).coarsened = true :=
    LTS.reachable_of_exec [.registerTransaction 1 7, .recordBatch 1 [.keyRange 10 5 5],
      .markSavepoint 1, .recordBatch 1 [.keyRange 10 6 9], .registerTransaction 2 7,
      .recordBatch 2 [.keyRange 11 1 1], .rollbackToSavepoint 1 0] (by decide)
  obtain ⟨s, hr, hrec, hc⟩ := hrun
  exact ⟨s, hr, hrec, hc, frozen_covers _ hr 1 _ (hrec ▸ mem_singleton_self _) (by decide)⟩

end Paro.L3.ReadSetCoverage
