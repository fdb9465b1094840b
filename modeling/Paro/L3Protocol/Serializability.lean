import Paro.Core.SnapshotGraph
import Paro.L2Machine.ReadSetEvolution
import Paro.L2Machine.SsiValidator

/-!
# Serializability of SSI

Histories of serializable transactions: any interleaving of begins at the last commit timestamp,
recorded reads, commits that go through `validate_commit`, and aborts. A commit that passes takes
the next timestamp, leaves its summary and releases its read set; no horizon advances.

The direct serialization graph is over the committed transactions, with what they recorded and
what they wrote: `Wr` when a snapshot includes the write it reads, `Rw` when it misses one, `Ww`
in commit order.

The graph can have a cycle in two ways (`cycle_late_read`, `cycle_lost_update`):

* **Late read.** T2 commits with a conflict out to T3 and none in. T1, which began after T3 and
  before T2's commit, then reads what T2 overwrote. T1's own validation sees one conflict out,
  and T2 is gone: T1 → T2 → T3 → T1.
* **Lost update.** T2 reads `x`; T3 writes `x` and `y`; T2 writes `y`. Validation looks at reads
  against writes only. Writers of one row are kept apart by the storage layer, which refuses a
  write to a row that was modified after the read timestamp.

`dsg_acyclic`: nothing else makes a cycle. A pivot T1 → T2 → T3 with T3 first is refused when T2
commits if T1 has already read (`inv_commit`), and the guard keeps T1 from reading later.
-/
namespace Paro.L3.Serializability
open L1 L2 ReadSet List Function Relation ReadDependencyIndex CommittedTxnSummaryIndex Nat CompressedReadSetSummary

/-! ## Histories -/

structure Live where
  readTs : Nat
  recorded : List ReadDependency
deriving DecidableEq

structure Committed where
  (txnId readTs commitTs : Nat)
  reads : List ReadDependency
  writes : List LockResource
deriving DecidableEq

structure State (n : Nat) where
  index : ReadDependencyIndex
  summaries : CommittedTxnSummaryIndex n
  lastCommitTs : Nat
  live : Nat → Option Live
  committed : List Committed

inductive Lbl where
  | beginTxn (t : Nat)
  | record (t : Nat) (ds : List ReadDependency)
  | commit (t : Nat) (writes : List LockResource)
  | abort (t : Nat)

variable {n : Nat} (o : ReadDependencyIndexOptions) (hash : Nat → Fin n) (s : State n)

def committedState (ix : ReadDependencyIndex) (summaries : CommittedTxnSummaryIndex n)
    (t : Nat) (l : Live) (writes : List LockResource) : State n :=
  { index := ix.releaseTransaction t
    summaries
    lastCommitTs := s.lastCommitTs + 1
    live := update s.live t none
    committed := s.committed ++ [⟨t, l.readTs, s.lastCommitTs + 1, l.recorded, writes⟩] }

def commitTxn (t : Nat) (l : Live) (writes : List LockResource) : State n :=
  let plan : CommitPlan := ⟨t, l.readTs, .serializable, s.index.frozenReadSet t⟩
  match validateCommit s.index s.summaries plan writes with
  | (ix, .error _) => { s with index := ix }
  | (ix, .ok _) =>
    let summary := .new t l.readTs (s.lastCommitTs + 1) writes plan.frozenReadSet
    match s.summaries.registerCommit hash summary with
    | (summaries, .error _) => { s with index := ix, summaries }
    | (summaries, .ok ()) => committedState s ix summaries t l writes

def step : Lbl → Option (State n)
  | .beginTxn t =>
    match s.live t with
    | some _ => none
    | none => some { s with
        index := s.index.registerTransaction o t s.lastCommitTs
        live := update s.live t (some ⟨s.lastCommitTs, []⟩) }
  | .record t ds =>
    match s.live t with
    | none => none
    | some l => some { s with
        index := s.index.recordBatch o t ds
        live := update s.live t (some { l with recorded := l.recorded ++ ds }) }
  | .commit t writes =>
    match s.live t with
    | none => none
    | some l => some (commitTxn hash s t l writes)
  | .abort t =>
    match s.live t with
    | none => none
    | some _ => some { s with
        index := s.index.releaseTransaction t
        live := update s.live t none }

def lts : LTS (State n) Lbl :=
  .ofStep ⟨.empty, .empty, 0, fun _ => none, []⟩ (step o hash)

/-! ## The direct serialization graph -/

def ReadsMeet (reads : List ReadDependency) (writes : List LockResource) : Prop :=
  ∃ d ∈ reads, ∃ w ∈ writes, d.conflictsWithWrite w = true

def WritesMeet (writes writes' : List LockResource) : Prop :=
  ∃ w ∈ writes, ∃ w' ∈ writes', w.conflictsWith w' = true

instance (reads : List ReadDependency) (writes : List LockResource) :
    Decidable (ReadsMeet reads writes) :=
  inferInstanceAs (Decidable (∃ d ∈ reads, ∃ w ∈ writes, d.conflictsWithWrite w = true))

instance (writes writes' : List LockResource) : Decidable (WritesMeet writes writes') :=
  inferInstanceAs (Decidable (∃ w ∈ writes, ∃ w' ∈ writes', w.conflictsWith w' = true))

variable (i j : Committed)

/-- `j` read a version that `i` installed or a later one. -/
def Wr : Prop := i ≠ j ∧ i.commitTs ≤ j.readTs ∧ ReadsMeet j.reads i.writes

/-- `j` overwrote what `i` wrote. -/
def Ww : Prop := i.commitTs < j.commitTs ∧ WritesMeet i.writes j.writes

/-- `j` overwrote what `i` read. -/
def Rw : Prop := i ≠ j ∧ i.readTs < j.commitTs ∧ ReadsMeet i.reads j.writes

instance (i j : Committed) : Decidable (Wr i j) := inferInstanceAs (Decidable (_ ∧ _))
instance (i j : Committed) : Decidable (Ww i j) := inferInstanceAs (Decidable (_ ∧ _))
instance (i j : Committed) : Decidable (Rw i j) := inferInstanceAs (Decidable (_ ∧ _))

def Edge : Prop :=
  i ∈ s.committed ∧ j ∈ s.committed ∧ (Wr i j ∨ Ww i j ∨ Rw i j)

instance (s : State n) (i j : Committed) : Decidable (Edge s i j) := inferInstanceAs (Decidable (_ ∧ _))

def HasCycle : Prop := ∃ x, TransGen (Edge s) x x

/-- Of two committed transactions with conflicting writes, the second saw the first. -/
def FirstCommitterWins : Prop :=
  ∀ i ∈ s.committed, ∀ j ∈ s.committed, Ww i j → i.commitTs ≤ j.readTs

instance (s : State n) : Decidable (FirstCommitterWins s) :=
  inferInstanceAs (Decidable (∀ i ∈ s.committed, ∀ j ∈ s.committed, Ww i j → i.commitTs ≤ j.readTs))

/-- A snapshot older than the commit of `p` reads what `p` wrote, and `p` committed with a
conflict out to an earlier commit. -/
def LateRead (readTs : Nat) (ds : List ReadDependency) : Prop :=
  ∃ p ∈ s.committed, readTs < p.commitTs ∧ ReadsMeet ds p.writes ∧
    ∃ k ∈ s.committed, k.commitTs < p.commitTs ∧ Rw p k

instance (s : State n) (readTs : Nat) (ds : List ReadDependency) : Decidable (LateRead s readTs ds) :=
  inferInstanceAs (Decidable (∃ p ∈ s.committed, readTs < p.commitTs ∧ ReadsMeet ds p.writes ∧
    ∃ k ∈ s.committed, k.commitTs < p.commitTs ∧ Rw p k))

def NoLateRead : Lbl → Prop
  | .record t ds => ∀ l ∈ s.live t, ¬ LateRead s l.readTs ds
  | _ => True

instance (s : State n) : (l : Lbl) → Decidable (NoLateRead s l)
  | .record t ds => inferInstanceAs (Decidable (∀ l ∈ s.live t, ¬ LateRead s l.readTs ds))
  | .beginTxn _ | .commit _ _ | .abort _ => .isTrue trivial

/-! ## The invariant -/

/-- Some summary stands for a committed transaction. -/
def Summarized (summaries : CommittedTxnSummaryIndex n) (c : Committed) : Prop :=
  ∃ i, ∃ x ∈ (summaries.shards i).summaries, x.commitTs = c.commitTs ∧
    (∀ w ∈ c.writes, w ∈ x.writeSet) ∧ CoversAll x.readSet.dependencies c.reads

/-- The read set of a live transaction covers what it recorded; others have none. -/
def LiveOk (entry : Option ActiveReadSet) (lastCommitTs : Nat) : Option Live → Prop
  | none => entry = none
  | some l => l.readTs ≤ lastCommitTs ∧ ∃ rs, entry = some rs ∧ Ok rs ∧
      CoversAll rs.dependencies l.recorded

structure Inv (s : State n) : Prop where
  upTo : s.summaries.UpTo s.lastCommitTs
  ts : ∀ c ∈ s.committed, c.readTs < c.commitTs ∧ c.commitTs ≤ s.lastCommitTs
  distinct : ∀ i ∈ s.committed, ∀ j ∈ s.committed, i.commitTs = j.commitTs → i = j
  summarized : ∀ c ∈ s.committed, Summarized s.summaries c
  live : ∀ t, LiveOk (s.index.get t) s.lastCommitTs (s.live t)
  /-- nobody committed reads what a pivot wrote -/
  committedReader : ∀ j ∈ s.committed, ∀ k ∈ s.committed, Rw j k → k.commitTs < j.commitTs →
    ∀ i ∈ s.committed, Rw i j → i.commitTs < k.commitTs
  /-- nor does anybody live whose snapshot misses it -/
  liveReader : ∀ j ∈ s.committed, ∀ k ∈ s.committed, Rw j k → k.commitTs < j.commitTs →
    ∀ t, ∀ l ∈ s.live t, l.readTs < j.commitTs → ¬ ReadsMeet l.recorded j.writes

variable {o hash} {s s' : State n} {t : Nat} {l : Live} {writes : List LockResource}

theorem Inv.allOk (h : Inv s) : AllOk s.index := by
  intro t rs hg
  have ht := h.live t
  cases hl : s.live t with
  | none => rw [hl] at ht; rw [show s.index.get t = none from ht] at hg; cases hg
  | some l =>
    rw [hl] at ht
    obtain ⟨-, rs', hg', hok, -⟩ := ht
    obtain rfl := Option.some.inj (hg.symm.trans hg')
    exact hok

/-- What a summary finds: a read set that covers `reads` meets whatever `reads` meets. -/
theorem ReadsMeet.cover {reads reads' : List ReadDependency} (h : ReadsMeet reads writes)
    (hc : CoversAll reads' reads) : ReadsMeet reads' writes := by
  obtain ⟨d, hd, w, hw, hdw⟩ := h
  obtain ⟨d', hd', hcov⟩ := hc d hd
  exact ⟨d', hd', w, hw, hcov w hdw⟩

variable {ix ix' : ReadDependencyIndex} {out : SsiValidationOutcome} {lastCommitTs : Nat} {lv : Option Live}
  {summaries : CommittedTxnSummaryIndex n}

/-- **A commit that passes is no pivot**: with a conflict out to an earlier commit that its
snapshot misses, no commit from then on and no other live transaction has read what it writes. -/
theorem no_reader_of_ok (h : Inv s) (hl : s.live t = some l)
    (hok : validateCommit s.index s.summaries ⟨t, l.readTs, .serializable, s.index.frozenReadSet t⟩
      writes = (ix, .ok out)) {k : Committed} (hk : k ∈ s.committed) (hmiss : l.readTs < k.commitTs)
    (hout : ReadsMeet l.recorded k.writes) :
    (∀ i ∈ s.committed, ReadsMeet i.reads writes → i.commitTs < k.commitTs) ∧
      ∀ u, ∀ l' ∈ s.live u, u ≠ t → ¬ ReadsMeet l'.recorded writes := by
  have ht := h.live t
  rw [hl] at ht
  obtain ⟨-, rs, hg, -, hcov⟩ := ht
  have hdeps : (s.index.frozenReadSet t).dependencies = rs.dependencies := by
    simp [frozenReadSet, hg, ActiveReadSet.frozenReadSet]
  have hok2 := congrArg Prod.snd hok
  have hfound : (s.summaries.firstWriteConflictForReads l.readTs (s.index.frozenReadSet t).dependencies).isSome := by
    obtain ⟨d, hd, w, hw, hdw⟩ := hout.cover hcov
    obtain ⟨i, x, hx, hxts, hxw, -⟩ := h.summarized k hk
    exact firstWriteConflict_isSome hx (hxts ▸ hmiss) (hdeps ▸ hd) (hxw w hw) hdw
  constructor
  · intro i hi hmeet
    by_contra hlate
    obtain ⟨j, x, hx, hxts, -, hxr⟩ := h.summarized i hi
    obtain ⟨d, hd, w, hw, hdw⟩ := hmeet.cover hxr
    refine not_pivot_of_ok rfl hg hok2 (markConflicts_in_of_committed hg ?_) (markConflicts_out hg hfound)
    refine firstReadConflict_isSome hx ?_ hd hw hdw
    rw [hxts]
    exact hmiss.trans_le (Nat.not_lt.1 hlate)
  · intro u l' hl' hne hmeet
    have hu := h.live u
    rw [show s.live u = some l' from hl'] at hu
    obtain ⟨-, rs', hg', -, hcov'⟩ := hu
    obtain ⟨d, hd, w, hw, hdw⟩ := hmeet.cover hcov'
    exact not_pivot_of_ok rfl hg hok2 (markConflicts_in_of_active hg hg' hne hd hw hdw) (markConflicts_out hg hfound)

/-! ### Steps -/

theorem LiveOk.evolve (h : LiveOk (ix.get t) lastCommitTs lv) (he : IndexEvolves ix ix') :
    LiveOk (ix'.get t) lastCommitTs lv := by
  cases lv with
  | none => exact he.none t h
  | some l =>
    obtain ⟨hts, rs, hg, -, hcov⟩ := h
    obtain ⟨rs', hg', hev⟩ := he.some t rs hg
    exact ⟨hts, rs', hg', hev.ok, hev.covers.trans hcov⟩

theorem LiveOk.remark
    (h : LiveOk (ix.get t) lastCommitTs lv) (hr : Remarks ix ix') : LiveOk (ix'.get t) lastCommitTs lv := by
  cases lv with
  | none => exact hr.absent t h
  | some l =>
    obtain ⟨hts, rs, hg, hok, hcov⟩ := h
    obtain ⟨ssi, hg', -⟩ := hr.present t rs hg
    exact ⟨hts, _, hg', { hok with }, hcov⟩

theorem not_readsMeet_nil : ¬ ReadsMeet [] writes := by
  rintro ⟨d, hd, -⟩; cases hd

theorem inv_begin (h : Inv s) (hl : s.live t = none) :
    Inv { s with index := s.index.registerTransaction o t s.lastCommitTs
                 live := update s.live t (some ⟨s.lastCommitTs, []⟩) } := by
  refine { h with live := fun u => ?_, liveReader := ?_ }
  · obtain ⟨e, hget⟩ := s.index.get_registerTransaction o t u s.lastCommitTs
    dsimp only
    rw [hget]
    by_cases hu : u = t
    · subst hu
      have ht := h.live u
      rw [hl] at ht
      rw [if_pos rfl, update_self, show s.index.get u = none from ht]
      exact ⟨le_rfl, _, rfl, ok_new _ _ _, coversAll_of_subset fun _ hd => hd⟩
    · rw [if_neg hu, update_of_ne hu]; exact h.live u
  · intro j hj k hk hjk hkj u l' hl'
    by_cases hu : u = t
    · subst hu
      dsimp only at hl'
      rw [update_self] at hl'
      obtain rfl := Option.some.inj hl'
      exact fun _ => not_readsMeet_nil
    · dsimp only at hl'
      rw [update_of_ne hu] at hl'
      exact h.liveReader j hj k hk hjk hkj u l' hl'

theorem ReadsMeet.of_append {ds ds' : List ReadDependency} (h : ReadsMeet (ds ++ ds') writes) :
    ReadsMeet ds writes ∨ ReadsMeet ds' writes := by
  obtain ⟨d, hd, hw⟩ := h
  rcases mem_append.1 hd with hd | hd
  · exact .inl ⟨d, hd, hw⟩
  · exact .inr ⟨d, hd, hw⟩

theorem inv_record (h : Inv s) (hl : s.live t = some l) (ds : List ReadDependency) (hlate : ¬ LateRead s l.readTs ds) :
    Inv { s with index := s.index.recordBatch o t ds
                 live := update s.live t (some { l with recorded := l.recorded ++ ds }) } := by
  have ht := h.live t
  rw [hl] at ht
  obtain ⟨hts, rs, hg, hok, hcov⟩ := ht
  obtain ⟨hev, rs', hg', hds⟩ := recordBatch_spec (o := o) h.allOk hg ds
  refine { h with live := fun u => ?_, liveReader := ?_ }
  · by_cases hu : u = t
    · subst hu
      obtain ⟨rs'', hg'', hev''⟩ := hev.some u rs hg
      obtain rfl := Option.some.inj (hg''.symm.trans hg')
      dsimp only
      rw [update_self, hg']
      exact ⟨hts, _, rfl, hev''.ok, coversAll_append.2 ⟨hev''.covers.trans hcov, hds⟩⟩
    · dsimp only
      rw [update_of_ne hu]; exact (h.live u).evolve hev
  · intro j hj k hk hjk hkj u l' hl'
    dsimp only at hl'
    by_cases hu : u = t
    · subst hu
      rw [update_self] at hl'
      obtain rfl := Option.some.inj hl'
      intro hmiss hmeet
      rcases hmeet.of_append with hmeet | hmeet
      · exact h.liveReader j hj k hk hjk hkj u l hl hmiss hmeet
      · exact hlate ⟨j, hj, hmiss, hmeet, k, hk, hkj, hjk⟩
    · rw [update_of_ne hu] at hl'
      exact h.liveReader j hj k hk hjk hkj u l' hl'

theorem inv_abort (h : Inv s) : Inv { s with index := s.index.releaseTransaction t, live := update s.live t none } := by
  refine { h with live := fun u => ?_, liveReader := ?_ }
  · dsimp only
    rw [get_releaseTransaction]
    by_cases hu : u = t
    · subst hu; rw [if_pos rfl, update_self]; rfl
    · rw [if_neg hu, update_of_ne hu]; exact h.live u
  · intro j hj k hk hjk hkj u l' hl'
    dsimp only at hl'
    by_cases hu : u = t
    · subst hu; rw [update_self] at hl'; cases hl'
    · rw [update_of_ne hu] at hl'
      exact h.liveReader j hj k hk hjk hkj u l' hl'

theorem coversAll_fromFrozen (rs : FrozenReadSet) : CoversAll (fromFrozen rs).dependencies rs.dependencies := by
  intro d hd
  refine ⟨d.normalize, ?_, d.covers_normalize⟩
  simp only [fromFrozen, compactReadDependencies, mem_insertionSort]
  exact mem_keepFirst.2 ⟨mem_map_of_mem hd, by simp⟩

/-- Filing a summary keeps those that were there and adds the one of the new commit. -/
theorem summarized_register {summaries' : CommittedTxnSummaryIndex n} {x : CommittedTxnSummary}
    (hs : ∀ i, (summaries'.shards i).summaries =
      if i = hash x.txnId then (s.summaries.shards i).summaries ++ [x]
      else (s.summaries.shards i).summaries) :
    (∀ c, Summarized s.summaries c → Summarized summaries' c) ∧ x ∈ (summaries'.shards (hash x.txnId)).summaries := by
  refine ⟨fun c ⟨i, y, hy, hrest⟩ => ⟨i, y, ?_, hrest⟩, by simp [hs]⟩
  rw [hs]
  split
  · exact mem_append_left _ hy
  · exact hy

theorem inv_remark (h : Inv s) (hr : Remarks s.index ix) : Inv { s with index := ix } :=
  { h with live := fun u => (h.live u).remark hr }

theorem mem_committedState {c : Committed} : c ∈ (committedState s ix summaries t l writes).committed ↔
      c ∈ s.committed ∨ c = ⟨t, l.readTs, s.lastCommitTs + 1, l.recorded, writes⟩ := by
  simp [committedState]

theorem inv_committed (h : Inv s) (hl : s.live t = some l)
    (hok : validateCommit s.index s.summaries ⟨t, l.readTs, .serializable, s.index.frozenReadSet t⟩
      writes = (ix, .ok out)) (hreg : s.summaries.registerCommit hash
      (.new t l.readTs (s.lastCommitTs + 1) writes (s.index.frozenReadSet t)) = (summaries, .ok ())) :
    Inv (committedState s ix summaries t l writes) := by
  have ht := h.live t
  rw [hl] at ht
  obtain ⟨hts, rs, hg, -, hcov⟩ := ht
  have hrem : Remarks s.index ix := by
    have := validateCommit_remarks s.index s.summaries ⟨t, l.readTs, .serializable, s.index.frozenReadSet t⟩ writes
    rwa [hok] at this
  have hup : s.summaries.UpTo (s.lastCommitTs + 1) :=
    ⟨h.upTo.durable.trans (le_succ _), fun i => (h.upTo.last i).trans (le_succ _)⟩
  obtain ⟨summaries', hreg', hup', -, hshards⟩ := registerCommit_upTo
    (x := .new t l.readTs (s.lastCommitTs + 1) writes (s.index.frozenReadSet t)) hash hup
  obtain rfl : summaries' = summaries := congrArg Prod.fst (hreg'.symm.trans hreg)
  obtain ⟨hkeep, hnew⟩ := summarized_register hshards
  have hall : ∀ c ∈ (committedState s ix summaries' t l writes).committed,
      c.readTs < c.commitTs ∧ c.commitTs ≤ s.lastCommitTs + 1 := by
    intro c hc
    rcases mem_committedState.1 hc with hc | rfl
    · have := h.ts c hc
      exact ⟨this.1, this.2.trans (le_succ _)⟩
    · exact ⟨lt_succ_of_le hts, le_rfl⟩
  refine ⟨hup', hall, ?_, ?_, ?_, ?_, ?_⟩
  · intro i hi j hj hij
    rcases mem_committedState.1 hi with hi | rfl <;> rcases mem_committedState.1 hj with hj | rfl
    · exact h.distinct i hi j hj hij
    · have := (h.ts i hi).2
      dsimp only at hij
      omega
    · have := (h.ts j hj).2
      dsimp only at hij
      omega
    · rfl
  · intro c hc
    rcases mem_committedState.1 hc with hc | rfl
    · exact hkeep c (h.summarized c hc)
    · refine ⟨_, _, hnew, rfl, fun w hw => (mem_sortDedup _).2 hw, ?_⟩
      refine (coversAll_fromFrozen _).trans ?_
      simpa [frozenReadSet, hg, ActiveReadSet.frozenReadSet] using hcov
  · intro u
    simp only [committedState, get_releaseTransaction]
    by_cases hu : u = t
    · subst hu; rw [if_pos rfl, update_self]; rfl
    rw [if_neg hu, update_of_ne hu]
    have hlive := (h.live u).remark hrem
    revert hlive
    cases s.live u with
    | none => exact id
    | some l' => exact fun ⟨hle, hrest⟩ => ⟨hle.trans (le_succ _), hrest⟩
  · intro j hj k hk hjk hkj i hi hij
    rcases mem_committedState.1 hk with hk | rfl
    · rcases mem_committedState.1 hj with hj | rfl
      · rcases mem_committedState.1 hi with hi | rfl
        · exact h.committedReader j hj k hk hjk hkj i hi hij
        · -- the new commit recorded its reads while it was live
          exact absurd hij.2.2 (h.liveReader j hj k hk hjk hkj t l hl hij.2.1)
      · rcases mem_committedState.1 hi with hi | rfl
        · exact (no_reader_of_ok h hl hok hk hjk.2.1 hjk.2.2).1 i hi hij.2.2
        · exact absurd rfl hij.1
    · -- nothing commits after the new commit
      exact absurd hkj (hall j hj).2.not_gt
  · intro j hj k hk hjk hkj u l' hl'
    have hut : u ≠ t := by
      rintro rfl
      simp [committedState] at hl'
    simp only [committedState, update_of_ne hut] at hl'
    rcases mem_committedState.1 hk with hk | rfl
    · rcases mem_committedState.1 hj with hj | rfl
      · exact h.liveReader j hj k hk hjk hkj u l' hl'
      · exact fun _ => (no_reader_of_ok h hl hok hk hjk.2.1 hjk.2.2).2 u l' hl' hut
    · exact absurd hkj (hall j hj).2.not_gt

theorem inv_commit (h : Inv s) (hl : s.live t = some l) : Inv (commitTxn hash s t l writes) := by
  have hrem := validateCommit_remarks s.index s.summaries ⟨t, l.readTs, .serializable, s.index.frozenReadSet t⟩ writes
  unfold commitTxn
  dsimp only
  split
  · rename_i ix _ hres
    rw [hres] at hrem
    exact inv_remark h hrem
  rename_i ix _ hres
  split
  · rename_i summaries e hreg
    -- commits are registered in timestamp order, so none is refused
    have hup : s.summaries.UpTo (s.lastCommitTs + 1) :=
      ⟨h.upTo.durable.trans (le_succ _), fun i => (h.upTo.last i).trans (le_succ _)⟩
    obtain ⟨_, hreg', -⟩ := registerCommit_upTo
      (x := .new t l.readTs (s.lastCommitTs + 1) writes (s.index.frozenReadSet t)) hash hup
    rw [hreg'] at hreg
    cases hreg
  · rename_i summaries hreg
    exact inv_committed h hl hres hreg

theorem inv_step {lb : Lbl} (h : Inv s) (hg : NoLateRead s lb) (hs : step o hash s lb = some s') : Inv s' := by
  cases lb with
  | beginTxn t =>
    simp only [step] at hs
    split at hs
    · cases hs
    · rename_i hl; cases hs; exact inv_begin h hl
  | record t ds =>
    simp only [step] at hs
    split at hs
    · cases hs
    · rename_i l hl; cases hs; exact inv_record h hl ds (hg l hl)
  | commit t writes =>
    simp only [step] at hs
    split at hs
    · cases hs
    · rename_i l hl; cases hs; exact inv_commit h hl
  | abort t =>
    simp only [step] at hs
    split at hs
    · cases hs
    · cases hs; exact inv_abort h

theorem inv_invariant (o : ReadDependencyIndexOptions) (hash : Nat → Fin n) :
    ((lts o hash).guard NoLateRead).Invariant Inv where
  init := by
    rintro _ rfl
    exact ⟨⟨le_rfl, fun _ => le_rfl⟩, fun _ hc => absurd hc not_mem_nil,
      fun _ hi => absurd hi not_mem_nil, fun _ hc => absurd hc not_mem_nil,
      fun _ => rfl, fun _ hj => absurd hj not_mem_nil, fun _ hj => absurd hj not_mem_nil⟩
  step := fun _ _ _ h hs => inv_step h hs.1 hs.2

/-! ## Serializability -/

def history (h : Inv s) (hf : FirstCommitterWins s) : SnapshotHistory Committed where
  start := Committed.readTs
  commit := Committed.commitTs
  dep i j := i ∈ s.committed ∧ j ∈ s.committed ∧ (Wr i j ∨ Ww i j)
  anti i j := i ∈ s.committed ∧ j ∈ s.committed ∧ Rw i j
  commit_le := by
    rintro i j ⟨hi, hj, hwr | hww⟩
    · exact hwr.2.1
    · exact hf i hi j hj hww
  start_lt := by rintro i j ⟨-, hj, -⟩; exact (h.ts j hj).1
  missed := by rintro i j ⟨-, -, hrw⟩; exact hrw.2.1

theorem history_no_pivot (h : Inv s) (hf : FirstCommitterWins s) (i j k : Committed) :
    ¬ (history h hf).Pivot i j k := by
  rintro ⟨⟨hi, hj, hij⟩, ⟨-, hk, hjk⟩, hfirst, hbefore⟩
  have hne : k.commitTs ≠ j.commitTs := fun heq => hjk.1 (h.distinct j hj k hk heq.symm)
  have hlt : k.commitTs < j.commitTs := lt_of_le_of_ne hfirst hne
  exact Nat.not_lt.2 hbefore (h.committedReader j hj k hk hjk hlt i hi hij)

/-- **Serializability of SSI**: in every history without late reads of a pivot in which the first
committer wins, the direct serialization graph of the committed transactions has no cycle. -/
theorem dsg_acyclic (hs : ((lts o hash).guard NoLateRead).Reachable s) (hf : FirstCommitterWins s) :
    ¬ HasCycle s := by
  have h := (inv_invariant o hash).reachable hs
  rintro ⟨x, hx⟩
  refine SnapshotHistory.acyclic_of_no_pivot (history_no_pivot h hf) x (TransGen.mono (fun i j hij => ?_) x x hx)
  obtain ⟨hi, hj, hwr | hww | hrw⟩ := hij
  · exact .inl ⟨hi, hj, .inl hwr⟩
  · exact .inl ⟨hi, hj, .inr hww⟩
  · exact .inr ⟨hi, hj, hrw⟩

def oneShard : Nat → Fin 1 := fun _ => Fin.last 0

def wide : ReadDependencyIndexOptions := ⟨1000, 1000, 0⟩

def table (t : Nat) : LockResource := .table ⟨0, 1⟩ t

/-- Transaction 1 reads table 1 and writes table 3 while transaction 2 overwrites table 1;
transaction 3 reads both results. -/
theorem dsg_acyclic_reader_before_writer :
    ∃ s, ((lts wide oneShard).guard NoLateRead).Reachable s ∧ s.committed.length = 3 ∧ ¬ HasCycle s := by
  have hrun : ∃ s, ((lts wide oneShard).guard NoLateRead).Reachable s ∧ s.committed.length = 3 ∧ FirstCommitterWins s :=
    LTS.reachable_of_exec_guard [.beginTxn 1, .beginTxn 2, .record 1 [.table 1], .commit 2 [table 1],
      .commit 1 [table 3], .beginTxn 3, .record 3 [.table 1, .table 3], .commit 3 []] (by decide)
  obtain ⟨s, hr, hl, hf⟩ := hrun
  exact ⟨s, hr, hl, dsg_acyclic hr hf⟩

/-! ## Histories with a cycle -/

/-- Transaction 1 begins after 3 commits, and reads table 2 after 2 has overwritten it. -/
def lateRead : List Lbl :=
  [.beginTxn 2, .record 2 [.table 1], .beginTxn 3, .commit 3 [table 1], .beginTxn 1,
    .commit 2 [table 2], .record 1 [.table 1, .table 2], .commit 1 []]

/-- Transaction 2 overwrites table 2, which 3 wrote after 2's snapshot. -/
def lostUpdate : List Lbl :=
  [.beginTxn 2, .record 2 [.table 1], .beginTxn 3, .commit 3 [table 1, table 2], .commit 2 [table 2]]

theorem cycle_late_read : ∃ s, (lts wide oneShard).Reachable s ∧ FirstCommitterWins s ∧ HasCycle s := by
  have hrun : ∃ s, (lts wide oneShard).Reachable s ∧ FirstCommitterWins s ∧
      Edge s ⟨1, 1, 3, [.table 1, .table 2], []⟩ ⟨2, 0, 2, [.table 1], [table 2]⟩ ∧
      Edge s ⟨2, 0, 2, [.table 1], [table 2]⟩ ⟨3, 0, 1, [], [table 1]⟩ ∧
      Edge s ⟨3, 0, 1, [], [table 1]⟩ ⟨1, 1, 3, [.table 1, .table 2], []⟩ :=
    LTS.reachable_of_exec lateRead (by decide)
  obtain ⟨s, hr, hf, h1, h2, h3⟩ := hrun
  exact ⟨s, hr, hf, _, ((TransGen.single h1).tail h2).tail h3⟩

theorem cycle_lost_update : ∃ s, ((lts wide oneShard).guard NoLateRead).Reachable s ∧ HasCycle s := by
  have hrun : ∃ s, ((lts wide oneShard).guard NoLateRead).Reachable s ∧
      Edge s ⟨2, 0, 2, [.table 1], [table 2]⟩ ⟨3, 0, 1, [], [table 1, table 2]⟩ ∧
      Edge s ⟨3, 0, 1, [], [table 1, table 2]⟩ ⟨2, 0, 2, [.table 1], [table 2]⟩ :=
    LTS.reachable_of_exec_guard lostUpdate (by decide)
  obtain ⟨s, hr, h1, h2⟩ := hrun
  exact ⟨s, hr, _, (TransGen.single h1).tail h2⟩

/-- Neither condition of `dsg_acyclic` can be left out. -/
theorem dsg_cyclic :
    (∃ s, (lts wide oneShard).Reachable s ∧ FirstCommitterWins s ∧ HasCycle s) ∧
      ∃ s, ((lts wide oneShard).guard NoLateRead).Reachable s ∧ HasCycle s :=
  ⟨cycle_late_read, cycle_lost_update⟩

end Paro.L3.Serializability
