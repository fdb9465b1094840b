import Paro.L2Machine.CommitSequencer

/-!
# Commit order

Runs of the commit sequencer: batches are sequenced one after another with any plans, fence,
clock readings and append outcome, and `sync_next_commit_ts_with` is called between them and
while a batch waits for its append. Every batch leaves a record of what its call returned.

What a batch does to its own plans is `CommitSequencer.fenceLoop_ok`. Over a run (`sequencing_sound`) only the clock
matters: it never moves back, and a durable batch leaves it above every timestamp it gave out.
-/
namespace Paro.L3.CommitOrder
open L1 L2 CommitSequencer List

variable {R : Type}

def Durable (a : AppendOutcome) : Prop := a ≠ .appendFailed

instance (a : AppendOutcome) : Decidable (Durable a) := inferInstanceAs (Decidable (a ≠ _))

abbrev Job (R : Type) := Nat × OrderedCommitPlan R

/-- What a call of `sequence_ordered_batch` left behind: the clock it read, the clock when its
append returned and after the call, and where the offered plans went. -/
structure BatchRecord (R : Type) where
  (base clock clockAfter : Nat)
  outcome : AppendOutcome
  offered : List (OrderedCommitPlan R)
  accepted : List (Job R)
  rejected : List (RejectedOrderedCommit R)
  deferred : List (OrderedCommitPlan R)

def BatchRecord.ofResult (base clock : Nat) (outcome : AppendOutcome)
    (offered : List (OrderedCommitPlan R))
    (result : Nat × Except (CommitSequencerOrderedError Unit (Job R) R)
      (CommitSequencerOrderedBatch (List (Job R)) R)) : BatchRecord R :=
  match result with
  | (clockAfter, .ok out) =>
    ⟨base, clock, clockAfter, outcome, offered, out.appendOutput.getD [], out.rejected, out.deferred⟩
  | (clockAfter, .error e) => ⟨base, clock, clockAfter, outcome, offered, e.accepted, e.rejected, e.deferred⟩

def BatchRecord.committed (r : BatchRecord R) : List Nat :=
  if Durable r.outcome then r.accepted.map Prod.fst else []

structure State (R : Type) where
  nextCommitTs : Nat
  /-- ghost: one record per call, oldest first -/
  batches : List (BatchRecord R) := []

def State.committed (s : State R) : List Nat := s.batches.flatMap BatchRecord.committed

inductive Lbl (R : Type) where
  /-- one batch, with the values `sync_next_commit_ts_with` was called with before its append
  returned -/
  | sequence (plans : List (OrderedCommitPlan R)) (elapsed : Nat → Nat)
      (finalFence : Nat → CommitSequencingPlan → InFlightCommitBatch → Option CommitFenceRejectReason)
      (outcome : AppendOutcome) (syncs : List Nat)
  | sync (minCommittedVersion : Nat)

def step (o : CommitSequencerOptions) (s : State R) : Lbl R → Option (State R)
  | .sequence plans elapsed finalFence outcome syncs =>
    let clock := syncs.foldl syncNextCommitTsWith s.nextCommitTs
    let r := BatchRecord.ofResult s.nextCommitTs clock outcome plans
      (sequenceOrderedBatch o s.nextCommitTs clock plans elapsed finalFence Prod.mk outcome.append)
    some ⟨r.clockAfter, s.batches ++ [r]⟩
  | .sync v => some { s with nextCommitTs := syncNextCommitTsWith s.nextCommitTs v }

def system (R : Type) (o : CommitSequencerOptions) (next0 : Fin commitTsLimit) :
    LTS (State R) (Lbl R) :=
  .ofStep ⟨next0, []⟩ (step o)

def InRange (s : State R) : Lbl R → Prop
  | .sequence plans _ _ _ _ => s.nextCommitTs + plans.length < commitTsLimit
  | .sync _ => True

/-! ## One batch -/

structure BatchOk (r : BatchRecord R) : Prop where
  /-- the timestamps are contiguous -/
  contiguous : r.accepted.map Prod.fst = List.range' r.base r.accepted.length
  failed : r.outcome = .appendFailed → r.clockAfter = r.clock
  apart : r.accepted.Pairwise fun a a' => WritesApart a.2.sequencingPlan.writeSet a'.2.sequencingPlan.writeSet
  validated : r.accepted.Pairwise fun a a' => ValidatedAfter a'.2.sequencingPlan a.2.sequencingPlan.ssiEffectEpoch
  /-- accepted and rejected plans together are what comes before the deferred ones, each in the
  offered order -/
  partitioned : ∃ handled, r.offered = handled ++ r.deferred ∧
    Shuffle (r.accepted.map Prod.snd) (r.rejected.map RejectedOrderedCommit.ordered) handled

open BatchRecord

section
variable (o : CommitSequencerOptions) (base clock : Nat) (plans : List (OrderedCommitPlan R))
  (elapsed : Nat → Nat)
  (finalFence : Nat → CommitSequencingPlan → InFlightCommitBatch → Option CommitFenceRejectReason)
  (outcome : AppendOutcome)

/-- The record of one call in terms of its loop: the clock moves only when there was something to
append and it became durable. -/
theorem ofResult_eq : ofResult base clock outcome plans
        (sequenceOrderedBatch o base clock plans elapsed finalFence Prod.mk outcome.append) =
      let f := fenceLoop o base elapsed finalFence 0 {} plans
      ⟨base, clock, if f.accepted ≠ [] ∧ Durable outcome then advanceShadowClock clock base f.accepted.length
          else clock, outcome, plans, f.accepted, f.rejected, f.deferred⟩ := by
  by_cases hne : (fenceLoop o base elapsed finalFence 0 {} plans).accepted = []
  · simp [sequenceOrderedBatch, ofResult, hne]
  · cases outcome <;>
      simp [sequenceOrderedBatch, ofResult, hne, AppendOutcome.append, Durable]

theorem batchOk_ofResult : BatchOk (ofResult base clock outcome plans
      (sequenceOrderedBatch o base clock plans elapsed finalFence Prod.mk outcome.append)) := by
  have hloop : FencedOk base {} plans (fenceLoop o base elapsed finalFence 0 {} plans) := fenceLoop_ok 0 {} plans
  rw [ofResult_eq]
  refine ⟨hloop.stamps, fun hfail => ?_, hloop.apart.imp And.left, hloop.apart.imp And.right, hloop.split⟩
  have hfail' : outcome = .appendFailed := hfail
  simp [hfail', Durable]

end

/-! ## The clock -/

variable {base clock : Nat} {o : CommitSequencerOptions} {s s' : State R}

theorem advanceShadowClock_of_lt (clock : Nat) {count : Nat} (h : base + count < commitTsLimit) :
    advanceShadowClock clock base count = max clock (base + count) := by
  simp [advanceShadowClock, commitTsAt, h]

theorem syncNextCommitTsWith_mem {v : Nat} (h : clock < commitTsLimit) :
    clock ≤ syncNextCommitTsWith clock v ∧ syncNextCommitTsWith clock v < commitTsLimit := by
  unfold syncNextCommitTsWith commitTsAt
  split
  · rename_i next hnext
    split at hnext
    · cases hnext; omega
    · cases hnext
  · omega

/-- The clock only moves up, and stays a 64-bit timestamp. -/
theorem syncs_mem (syncs : List Nat) (h : clock < commitTsLimit) :
    clock ≤ syncs.foldl syncNextCommitTsWith clock ∧ syncs.foldl syncNextCommitTsWith clock < commitTsLimit := by
  induction syncs generalizing clock with
  | nil => exact ⟨Nat.le_refl _, h⟩
  | cons v vs ih =>
    obtain ⟨hle, hlt⟩ := syncNextCommitTsWith_mem (v := v) h
    obtain ⟨hle', hlt'⟩ := ih hlt
    exact ⟨hle.trans hle', hlt'⟩

/-- What one call does to the clock: it moves up, stays a timestamp, and ends above every
timestamp the call made durable, all of which were at least the clock it read. -/
theorem clock_ofResult (o : CommitSequencerOptions) (plans : List (OrderedCommitPlan R)) (elapsed : Nat → Nat)
    (finalFence : Nat → CommitSequencingPlan → InFlightCommitBatch → Option CommitFenceRejectReason)
    (outcome : AppendOutcome) (hrange : base + plans.length < commitTsLimit) (hle : base ≤ clock)
    (hlt : clock < commitTsLimit) :
    let r := ofResult base clock outcome plans
      (sequenceOrderedBatch o base clock plans elapsed finalFence Prod.mk outcome.append)
    base ≤ r.clockAfter ∧ r.clockAfter < commitTsLimit ∧
      r.committed.Pairwise (· < ·) ∧ ∀ ts ∈ r.committed, base ≤ ts ∧ ts < r.clockAfter := by
  have hloop : FencedOk base {} plans (fenceLoop o base elapsed finalFence 0 {} plans) := fenceLoop_ok 0 {} plans
  have hlen := hloop.length_le
  have hstamps := hloop.stamps
  intro r
  have hr : r = _ := ofResult_eq o base clock plans elapsed finalFence outcome
  generalize fenceLoop o base elapsed finalFence 0 {} plans = f at hlen hstamps hr
  have hadv : advanceShadowClock clock base f.accepted.length = _ := advanceShadowClock_of_lt clock (by omega)
  by_cases hdur : Durable outcome
  · have hclock : r.clockAfter = max clock (base + f.accepted.length) := by
      by_cases hnil : f.accepted = []
      · simp [hr, hnil]; omega
      · simp [hr, hnil, hdur, hadv]
    have hcom : r.committed = List.range' base f.accepted.length := by
      simpa [hr, committed, hdur] using hstamps
    rw [hclock, hcom]
    refine ⟨by omega, by omega, pairwise_lt_range', fun ts hts => ?_⟩
    obtain ⟨i, hi, rfl⟩ := mem_range'.1 hts
    omega
  · have hclock : r.clockAfter = clock := by simp [hr, hdur]
    have hcom : r.committed = [] := by simp [hr, committed, hdur]
    rw [hclock, hcom]
    exact ⟨hle, hlt, .nil, fun ts hts => absurd hts not_mem_nil⟩

/-! ## Runs -/

structure Inv (s : State R) : Prop where
  clock : s.nextCommitTs < commitTsLimit
  sorted : s.committed.Pairwise (· < ·)
  below : ∀ ts ∈ s.committed, ts < s.nextCommitTs
  batches : ∀ r ∈ s.batches, BatchOk r

theorem inv_init (next0 : Fin commitTsLimit) : Inv (R := R) ⟨next0, []⟩ :=
  ⟨next0.isLt, .nil, fun _ h => absurd h not_mem_nil, fun _ h => absurd h not_mem_nil⟩

theorem inv_step {l : Lbl R} (h : Inv s) (hrange : InRange s l) (hs : step o s l = some s') : Inv s' := by
  cases l with
  | sync v =>
    cases hs
    obtain ⟨hle, hlt⟩ := syncNextCommitTsWith_mem (v := v) h.clock
    exact ⟨hlt, h.sorted, fun ts hts => (h.below ts hts).trans_le hle, h.batches⟩
  | sequence plans elapsed finalFence outcome syncs =>
    obtain ⟨hle, hlt⟩ := syncs_mem syncs h.clock
    obtain ⟨hup, hlim, hsort, hnew⟩ := clock_ofResult o plans elapsed finalFence outcome hrange hle hlt
    have hok := batchOk_ofResult o s.nextCommitTs (syncs.foldl syncNextCommitTsWith s.nextCommitTs)
      plans elapsed finalFence outcome
    cases hs
    generalize ofResult s.nextCommitTs _ outcome plans _ = r at hup hlim hsort hnew hok ⊢
    have hcom : State.committed ⟨r.clockAfter, s.batches ++ [r]⟩ = s.committed ++ r.committed := by
      simp [State.committed]
    refine ⟨hlim, ?_, ?_, forall_mem_append.2 ⟨h.batches, forall_mem_singleton.2 hok⟩⟩
    · rw [hcom]
      -- what was durable lies below the clock the call read, what it adds does not
      exact pairwise_append.2 ⟨h.sorted, hsort, fun a ha b hb =>
        (h.below a ha).trans_le (hnew b hb).1⟩
    · rw [hcom]
      exact forall_mem_append.2 ⟨fun ts hold => (h.below ts hold).trans_le hup, fun ts hts => (hnew ts hts).2⟩

theorem inv_invariant (o : CommitSequencerOptions) (next0 : Fin commitTsLimit) :
    ((system R o next0).guard InRange).Invariant Inv where
  init := by rintro s rfl; exact inv_init next0
  step := fun _ _ _ h hs => inv_step h hs.1 hs.2

/-- A batch whose append failed leaves the clock where the calls of `sync_next_commit_ts_with`
put it. -/
theorem appendFailed_nextCommitTs
    {plans : List (OrderedCommitPlan R)} {elapsed : Nat → Nat}
    {finalFence : Nat → CommitSequencingPlan → InFlightCommitBatch → Option CommitFenceRejectReason}
    {syncs : List Nat} (hs : step o s (.sequence plans elapsed finalFence .appendFailed syncs) = some s') :
    s'.nextCommitTs = syncs.foldl syncNextCommitTsWith s.nextCommitTs := by
  cases hs
  simp [ofResult_eq, Durable]

/-- **Commit sequencing over whole runs.** As long as the clock does not run out, the timestamps
of the durable plans are strictly increasing, every batch is in order, and a batch whose append
fails does not move the clock. -/
theorem sequencing_sound (o : CommitSequencerOptions) (next0 : Fin commitTsLimit) {s : State R}
    (h : ((system R o next0).guard InRange).Reachable s) :
    s.committed.Pairwise (· < ·) ∧ (∀ r ∈ s.batches, BatchOk r) ∧ ∀ plans elapsed finalFence syncs s',
        step o s (.sequence plans elapsed finalFence .appendFailed syncs) = some s' →
          s'.nextCommitTs = syncs.foldl syncNextCommitTsWith s.nextCommitTs :=
  have hinv := (inv_invariant o next0).reachable h
  ⟨hinv.sorted, hinv.batches, fun _ _ _ _ _ hs => appendFailed_nextCommitTs hs⟩

instance (s : State R) : (l : Lbl R) → Decidable (InRange s l)
  | .sequence plans _ _ _ _ => inferInstanceAs (Decidable (s.nextCommitTs + plans.length < commitTsLimit))
  | .sync _ => inferInstanceAs (Decidable True)

def writerOf (t row : Nat) : OrderedCommitPlan Unit :=
  ⟨{ plan := ⟨t, 1, .serializable, {}⟩, writeSet := [.rowId ⟨1, 1⟩ 1 1 1 0 row] }, ()⟩

/-- Two writers of different rows, then a failed append, a sync to 20, and a batch whose append is
durable but reports an error: the second writer of its row is rejected and the third plan is
deferred by the batch size. -/
theorem sequencing_sound_three_batches :
    ∃ s, ((system Unit ⟨2, 100⟩ ⟨5, by decide⟩).guard InRange).Reachable s ∧
      s.committed = [5, 6, 21, 22] ∧ s.batches.map (fun r => r.accepted.length) = [2, 1, 2] ∧
      s.committed.Pairwise (· < ·) ∧ ∀ r ∈ s.batches, BatchOk r := by
  let fence : Nat → CommitSequencingPlan → InFlightCommitBatch → Option CommitFenceRejectReason :=
    fun _ _ _ => none
  have hrun : ∃ s : State Unit, ((system Unit ⟨2, 100⟩ ⟨5, by decide⟩).guard InRange).Reachable s ∧
      (s.committed = [5, 6, 21, 22] ∧ s.batches.map (fun r => r.accepted.length) = [2, 1, 2]) :=
    LTS.reachable_of_exec_guard [.sequence [writerOf 1 7, writerOf 2 8] (fun i => i) fence .ok [],
       .sequence [writerOf 3 7] (fun i => i) fence .appendFailed [], .sync 20,
       .sequence [writerOf 3 7, writerOf 4 7, writerOf 5 8, writerOf 6 9] (fun i => i) fence .durableCommitted [3]]
      (by decide)
  obtain ⟨s, hr, hcom, hlen⟩ := hrun
  obtain ⟨hsorted, hok, -⟩ := sequencing_sound ⟨2, 100⟩ ⟨5, by decide⟩ hr
  exact ⟨s, hr, hcom, hlen, hsorted, hok⟩

end Paro.L3.CommitOrder
