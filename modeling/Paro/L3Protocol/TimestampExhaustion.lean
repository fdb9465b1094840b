import Mathlib.Data.List.Induction
import Paro.L2Machine.CommitSequencer

/-!
# The last commit timestamps

Runs of the two batch calls of the commit sequencer with appends that succeed, from any clock value up to
`u64::MAX`. A batch gives out consecutive timestamps from the clock, and a timestamp past `u64::MAX` is refused.
After the batch the clock is the next timestamp, or `u64::MAX` if there is none: so a clock at `u64::MAX` says
that this timestamp is free, or that it has just been used.

`commit_ts_unique` is about the runs in which no call starts after `u64::MAX` was given out; `max_timestamp_reused`
is a run past that point.
-/
namespace Paro.L3.TimestampExhaustion
open L2 CommitSequencer List

variable {R : Type}

/-! ## Calls -/

inductive Call (R : Type)
  | ordered (o : CommitSequencerOptions) (plans : List (OrderedCommitPlan R)) (elapsed : Nat → Nat)
      (finalFence : Nat → CommitSequencingPlan → InFlightCommitBatch → Option CommitFenceRejectReason)
  | withFence (o : CommitSequencerOptions) (plans : List CommitSequencingPlan) (elapsed : Nat → Nat)
      (finalFence : Nat → CommitSequencingPlan → InFlightCommitBatch → Option CommitFenceRejectReason)

/-- The plans that a call offers. -/
def Call.plans : Call R → List CommitSequencingPlan
  | .ordered _ plans _ _ => plans.map (·.sequencingPlan)
  | .withFence _ plans _ _ => plans

/-- What a call with a successful append leaves: the clock, the appended plans with their timestamps, and the deferred
and the rejected ones. -/
structure Outcome where
  nextCommitTs : Nat
  appended : List (Nat × CommitSequencingPlan)
  deferred : List CommitSequencingPlan
  rejected : List (CommitSequencingPlan × CommitFenceRejectReason)

def Call.run (clock : Nat) : Call R → Outcome
  | .ordered o plans elapsed finalFence =>
    let settled (appended : List (Nat × CommitSequencingPlan)) (deferred : List (OrderedCommitPlan R))
        (rejected : List (RejectedOrderedCommit R)) (next : Nat) : Outcome :=
      ⟨next, appended, deferred.map (·.sequencingPlan), rejected.map fun r => (r.plan, r.reason)⟩
    match sequenceOrderedBatch (E := Unit) o clock clock plans elapsed finalFence (fun ts p => (ts, p.sequencingPlan))
      .ok with
    | (next, .ok batch) => settled (batch.appendOutput.getD []) batch.deferred batch.rejected next
    | (next, .error e) => settled [] e.deferred e.rejected next
  | .withFence o plans elapsed finalFence =>
    match sequenceBatchWithFence (E := Unit) o clock plans elapsed finalFence fun _ => .ok () with
    | (next, .ok (accepted, rejected)) => ⟨next, accepted, [], rejected⟩
    | (next, .error ()) => ⟨next, [], [], []⟩

/-! ## What becomes of the plans -/

/-- The batch or the fence refuses a plan when `count` plans are in the batch. -/
def Refused (finalFence : Nat → CommitSequencingPlan → InFlightCommitBatch → Option CommitFenceRejectReason)
    (count : Nat) (p : CommitSequencingPlan) (reason : CommitFenceRejectReason) : Prop :=
  ∃ i b, b.accepted.length = count ∧ turnReject finalFence i b p = some reason

/-- The batch is full, or it has used up its time. -/
def Call.MayDefer (count : Nat) : Call R → Prop
  | .ordered o _ elapsed _ => o.effectiveBatchSize ≤ count ∨ 0 < count ∧ ∃ i, o.maxGroupCommitFenceUs ≤ elapsed i
  | .withFence _ _ _ _ => False

/-- The rejections of a call that are not for want of a timestamp. -/
def Call.MayReject (count : Nat) (p : CommitSequencingPlan) (reason : CommitFenceRejectReason) : Call R → Prop
  | .ordered _ _ _ finalFence => Refused finalFence count p reason
  | .withFence o _ elapsed finalFence =>
    o.effectiveBatchSize ≤ count ∧ reason = .batchSizeLimit ∨
      (∃ i, o.maxGroupCommitFenceUs ≤ elapsed i ∧ reason = .fenceBudgetExceeded (elapsed i) o.maxGroupCommitFenceUs) ∨
      Refused finalFence count p reason

/-- The plans of a batch from one on, in their order, with `count` plans in the batch before it: each is appended at the
next timestamp, deferred with all behind it, refused, or rejected because there is no timestamp left. -/
inductive Decided (clock : Nat) (c : Call R) : Nat → List CommitSequencingPlan → List (Nat × CommitSequencingPlan) →
    List CommitSequencingPlan → List (CommitSequencingPlan × CommitFenceRejectReason) → Prop
  | done {count : Nat} : Decided clock c count [] [] [] []
  | append {count p ps appended deferred rejected} (free : clock + count < commitTsLimit)
      (rest : Decided clock c (count + 1) ps appended deferred rejected) :
      Decided clock c count (p :: ps) ((clock + count, p) :: appended) deferred rejected
  | deferAll {count ps} (hdefer : c.MayDefer count) : Decided clock c count ps [] ps []
  | refuse {count p ps appended deferred rejected reason} (hreject : c.MayReject count p reason)
      (rest : Decided clock c count ps appended deferred rejected) :
      Decided clock c count (p :: ps) appended deferred ((p, reason) :: rejected)
  | exhaust {count p ps appended deferred rejected} (none : commitTsLimit ≤ clock + count)
      (rest : Decided clock c count ps appended deferred rejected) :
      Decided clock c count (p :: ps) appended deferred ((p, .commitTimestampExhausted) :: rejected)

section
variable {o : CommitSequencerOptions} {base : Nat} {elapsed : Nat → Nat}
  {finalFence : Nat → CommitSequencingPlan → InFlightCommitBatch → Option CommitFenceRejectReason}

theorem commitTsAt_some {offset ts : Nat} (h : commitTsAt base offset = some ts) :
    ts = base + offset ∧ base + offset < commitTsLimit := by
  unfold commitTsAt at h
  split at h
  · exact ⟨(Option.some.inj h).symm, ‹_›⟩
  · cases h

theorem commitTsAt_none {offset : Nat} (h : commitTsAt base offset = none) : commitTsLimit ≤ base + offset := by
  unfold commitTsAt at h
  split at h
  · cases h
  · exact not_lt.1 ‹_›

theorem accept_length (b : InFlightCommitBatch) (p : CommitSequencingPlan) (ts : Nat) :
    (b.accept p ts).accepted.length = b.accepted.length + 1 := by
  simp [InFlightCommitBatch.accept]

theorem fenceLoop_decided (all : List (OrderedCommitPlan R)) (i : Nat) (b : InFlightCommitBatch)
    (plans : List (OrderedCommitPlan R)) :
    Decided base (.ordered o all elapsed finalFence) b.accepted.length (plans.map (·.sequencingPlan))
      ((fenceLoop o base elapsed finalFence i b plans).accepted.map fun a => (a.1, a.2.sequencingPlan))
      ((fenceLoop o base elapsed finalFence i b plans).deferred.map (·.sequencingPlan))
      ((fenceLoop o base elapsed finalFence i b plans).rejected.map fun r => (r.plan, r.reason)) := by
  fun_induction fenceLoop o base elapsed finalFence i b plans with
  | case1 => exact .done
  | case2 _ _ _ _ hfull => exact .deferAll (.inl hfull)
  | case3 i _ _ _ _ hlate => exact .deferAll (.inr ⟨length_pos_iff.2 hlate.1, i, hlate.2⟩)
  | case4 i b _ _ _ _ _ hr _ ih => exact .refuse ⟨i, b, rfl, hr⟩ ih
  | case5 _ _ _ _ _ _ _ hnone _ ih => exact .exhaust (commitTsAt_none hnone) ih
  | case6 _ b p _ _ _ _ ts hts _ ih =>
    obtain ⟨rfl, hfree⟩ := commitTsAt_some hts
    rw [accept_length] at ih
    exact .append hfree ih

theorem batchTurn_ok {i ts : Nat} {b : InFlightCommitBatch} {p : CommitSequencingPlan}
    (h : batchTurn o base elapsed finalFence i b p = .ok ts) : commitTsAt base b.accepted.length = some ts := by
  unfold batchTurn at h
  split at h
  · cases h
  split at h
  · cases h
  split at h
  · cases h
  cases hts : commitTsAt base b.accepted.length with
  | none => simp [hts] at h
  | some ts' => simpa [hts] using h

theorem batchTurn_error {all : List CommitSequencingPlan} {i : Nat} {b : InFlightCommitBatch}
    {p : CommitSequencingPlan} {reason : CommitFenceRejectReason}
    (h : batchTurn o base elapsed finalFence i b p = .error reason) :
    (Call.withFence (R := R) o all elapsed finalFence).MayReject b.accepted.length p reason ∨
      commitTsLimit ≤ base + b.accepted.length ∧ reason = .commitTimestampExhausted := by
  unfold batchTurn at h
  split at h
  · rename_i hfull
    cases h
    exact .inl (.inl ⟨hfull, rfl⟩)
  split at h
  · rename_i hlate
    cases h
    exact .inl (.inr (.inl ⟨i, hlate, rfl⟩))
  split at h
  · rename_i hr
    cases h
    exact .inl (.inr (.inr ⟨i, b, rfl, hr⟩))
  cases hts : commitTsAt base b.accepted.length with
  | none =>
    rw [hts] at h
    cases h
    exact .inr ⟨commitTsAt_none hts, rfl⟩
  | some ts => simp [hts] at h

theorem batchLoop_decided (all : List CommitSequencingPlan) (i : Nat) (b : InFlightCommitBatch)
    (plans : List CommitSequencingPlan) :
    Decided base (.withFence (R := R) o all elapsed finalFence) b.accepted.length plans
      (batchLoop o base elapsed finalFence i b plans).1 [] (batchLoop o base elapsed finalFence i b plans).2 := by
  fun_induction batchLoop o base elapsed finalFence i b plans with
  | case1 => exact .done
  | case2 _ _ _ _ _ herr _ ih =>
    rcases batchTurn_error herr with hreject | ⟨hnone, rfl⟩
    · exact .refuse hreject ih
    · exact .exhaust hnone ih
  | case3 _ _ _ _ _ hok _ ih =>
    obtain ⟨rfl, hfree⟩ := commitTsAt_some (batchTurn_ok hok)
    rw [accept_length] at ih
    exact .append hfree ih

end

theorem Call.run_decided (clock : Nat) (c : Call R) :
    Decided clock c 0 c.plans (c.run clock).appended (c.run clock).deferred (c.run clock).rejected := by
  cases c with
  | ordered o plans elapsed finalFence =>
    have hloop := @fenceLoop_decided R o clock elapsed finalFence plans 0 {} plans
    simp only [Call.run, sequenceOrderedBatch]
    generalize fenceLoop o clock elapsed finalFence 0 {} plans = f at hloop
    split <;> rename_i hsplit <;> split at hsplit
    all_goals cases hsplit
    · rename_i hnil
      rw [hnil] at hloop
      exact hloop
    · exact hloop
  | withFence o plans elapsed finalFence =>
    have hloop := @batchLoop_decided R o clock elapsed finalFence plans 0 {} plans
    simp only [Call.run, sequenceBatchWithFence]
    generalize batchLoop o clock elapsed finalFence 0 {} plans = f at hloop
    split <;> rename_i hsplit <;> split at hsplit
    all_goals cases hsplit
    all_goals exact hloop

/-- The appended plans have consecutive timestamps, all of them representable. -/
theorem Decided.stamps {clock count : Nat} {c : Call R} {plans deferred : List CommitSequencingPlan}
    {appended : List (Nat × CommitSequencingPlan)} {rejected : List (CommitSequencingPlan × CommitFenceRejectReason)}
    (h : Decided clock c count plans appended deferred rejected) (hcount : clock + count ≤ commitTsLimit) :
    appended.map Prod.fst = List.range' (clock + count) appended.length ∧
      clock + count + appended.length ≤ commitTsLimit := by
  induction h with
  | done | deferAll => exact ⟨rfl, hcount⟩
  | append free _ ih =>
    obtain ⟨hstamps, hfits⟩ := ih free
    rw [map_cons, hstamps, length_cons, range'_succ]
    exact ⟨rfl, by omega⟩
  | refuse _ _ ih | exhaust _ _ ih => exact ih hcount

/-! ## Runs -/

structure State where
  nextCommitTs : Nat
  /-- every timestamp of a durably appended plan, in the order of the appends -/
  durable : List Nat := []

def State.step (s : State) (c : Call R) : State :=
  ⟨(c.run s.nextCommitTs).nextCommitTs, s.durable ++ (c.run s.nextCommitTs).appended.map Prod.fst⟩

def State.runs (s : State) (calls : List (Call R)) : State :=
  calls.foldl State.step s

def lastCommitTs : Nat := commitTsLimit - 1

def clockAfter (base count : Nat) : Nat :=
  (commitTsAt base count).getD lastCommitTs

theorem clockAfter_zero {base : Nat} (h : base < commitTsLimit) : clockAfter base 0 = base := by
  simp [clockAfter, commitTsAt, h]

theorem advanceShadowClock_eq (base count : Nat) : advanceShadowClock base base count = clockAfter base count := by
  unfold advanceShadowClock clockAfter commitTsAt lastCommitTs
  split
  · rename_i next hnext
    rw [hnext]
    split at hnext
    · simp only [Option.some.injEq, Option.getD_some] at hnext ⊢
      omega
    · cases hnext
  · rename_i hnone
    rw [hnone]; rfl

/-- After a call the clock is behind the timestamps it gave out. -/
theorem Call.run_clock {clock : Nat} (h : clock < commitTsLimit) (c : Call R) :
    (c.run clock).nextCommitTs = clockAfter clock (c.run clock).appended.length := by
  cases c with
  | ordered o plans elapsed finalFence =>
    simp only [Call.run, sequenceOrderedBatch]
    generalize fenceLoop o clock elapsed finalFence 0 {} plans = f
    split <;> rename_i hsplit <;> split at hsplit
    all_goals cases hsplit
    · exact (clockAfter_zero h).symm
    · simp [advanceShadowClock_eq]
  | withFence o plans elapsed finalFence =>
    simp only [Call.run, sequenceBatchWithFence]
    generalize batchLoop o clock elapsed finalFence 0 {} plans = f
    split <;> rename_i hsplit <;> split at hsplit
    all_goals cases hsplit
    · rename_i hnil
      simp [hnil, clockAfter_zero h]
    · rfl

structure Consecutive (first : Nat) (s : State) : Prop where
  durable : s.durable = List.range' first s.durable.length
  fits : first + s.durable.length ≤ commitTsLimit
  clock : s.nextCommitTs = clockAfter first s.durable.length

variable {first : Nat}

theorem Consecutive.start (h : first < commitTsLimit) : Consecutive first ⟨first, []⟩ :=
  ⟨rfl, le_of_lt h, (clockAfter_zero h).symm⟩

/-- While the last timestamp has not been given out, the clock is the next one. -/
theorem Consecutive.clock_free {s : State} (h : Consecutive first s) (hfirst : first < commitTsLimit)
    (hfree : lastCommitTs ∉ s.durable) :
    s.nextCommitTs = first + s.durable.length ∧ s.nextCommitTs < commitTsLimit := by
  have hfits := h.fits
  have hlt : first + s.durable.length < commitTsLimit := by
    rcases lt_or_eq_of_le hfits with hlt | heq
    · exact hlt
    · refine absurd ?_ hfree
      rw [h.durable]
      exact mem_range'_1.2 ⟨by unfold lastCommitTs; omega, by unfold lastCommitTs; omega⟩
  have hclock := h.clock
  simp only [clockAfter, commitTsAt, hlt, ↓reduceIte, Option.getD_some] at hclock
  exact ⟨hclock, hclock ▸ hlt⟩

theorem Consecutive.step {first : Nat} {s : State} (h : Consecutive first s) (hfirst : first < commitTsLimit)
    (hfree : lastCommitTs ∉ s.durable) (c : Call R) : Consecutive first (s.step c) := by
  obtain ⟨hclock, hlt⟩ := h.clock_free hfirst hfree
  obtain ⟨hstamps, hfit⟩ := (c.run_decided s.nextCommitTs).stamps hlt.le
  have hlen : (s.step c).durable.length = s.durable.length + (c.run s.nextCommitTs).appended.length := by
    simp [State.step]
  refine ⟨?_, ?_, ?_⟩
  · rw [hlen, ← range'_append_1, ← h.durable, ← hclock]
    exact congrArg (s.durable ++ ·) hstamps
  · rw [hlen]
    omega
  · rw [hlen]
    show (c.run s.nextCommitTs).nextCommitTs = _
    rw [c.run_clock hlt, clockAfter, clockAfter, commitTsAt, commitTsAt, hclock, add_assoc]

theorem runs_append (s : State) (calls more : List (Call R)) : s.runs (calls ++ more) = (s.runs calls).runs more :=
  foldl_append

/-- No call of the run starts after the last timestamp was given out. -/
def StopsAtLast (first : Nat) (calls : List (Call R)) : Prop :=
  ∀ before c after, calls = before ++ c :: after → lastCommitTs ∉ (State.runs ⟨first, []⟩ before).durable

theorem consecutive_runs (hfirst : first < commitTsLimit) (calls : List (Call R))
    (hstops : StopsAtLast first calls) : Consecutive first (State.runs ⟨first, []⟩ calls) := by
  induction calls using reverseRecOn with
  | nil => exact .start hfirst
  | append_singleton calls c ih =>
    have hbefore : StopsAtLast first calls := by
      intro before c' after heq
      exact hstops before c' (after ++ [c]) (by rw [heq]; simp)
    rw [runs_append]
    exact (ih hbefore).step hfirst (hstops calls c [] rfl) c

def emptyPlan (t : Nat) : CommitSequencingPlan :=
  { plan := ⟨t, 1, .serializable, {}⟩, writeSet := [] }

def orderedCall (t : Nat) : Call Unit :=
  .ordered ⟨4, 100⟩ [⟨emptyPlan t, ()⟩] (fun _ => 0) fun _ _ _ => none

def fencedCall (ts : List Nat) : Call Unit :=
  .withFence ⟨4, 100⟩ (ts.map emptyPlan) (fun _ => 0) fun _ _ _ => none

end Paro.L3.TimestampExhaustion
