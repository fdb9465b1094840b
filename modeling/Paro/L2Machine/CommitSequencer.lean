import Paro.Core.Shuffle
import Paro.L2Machine.SsiValidator

/-!
# Commit sequencer

Model of `CommitSequencer::sequence_ordered_batch` (crates/transaction/src/commit/sequencer/mod.rs).
Plans are taken in the offered order. Each is deferred with everything behind it, rejected by the
batch so far or by the caller's fence, or accepted at the next provisional timestamp. The clock
moves past the accepted plans only when the append is durable.

The clock readings, the fence and the append are arguments: the `i`-th turn of the loop reads
`elapsed i` and asks `finalFence i`, and `append` answers for the accepted jobs. The metrics are
left out, and so is the debug assertion of `advance_shadow_clock`.
`La-b` are lines of this file.
-/
namespace Paro.L2
open L1 List

def commitTsLimit : Nat := 2 ^ 64

/-- L703-707 -/
def commitTsAt (base offset : Nat) : Option Nat :=
  if base + offset < commitTsLimit then some (base + offset) else none

/-- L22-28; the two flags are read by nothing here -/
structure CommitSequencerOptions where
  (maxGroupCommitBatchSize maxGroupCommitFenceUs : Nat)

/-- L43-46 -/
def CommitSequencerOptions.effectiveBatchSize (o : CommitSequencerOptions) : Nat :=
  max o.maxGroupCommitBatchSize 1

/-- L49-56 -/
structure CommitSequencingPlan where
  plan : CommitPlan
  writeSet : List LockResource
  validationEpoch : Nat := 0
  ssiEffectEpoch : Nat := 0
deriving DecidableEq

/-- L125-136 -/
inductive CommitWriteConflictScope
  | database | schema | table | tablet | primaryKey | rowId | range | predicate | catalogObject | mixed
deriving DecidableEq

namespace CommitWriteConflictScope

def classify : LockResource → CommitWriteConflictScope
  | .database _ => database
  | .schema _ _ => schema
  | .table _ _ => table
  | .tablet _ _ _ => tablet
  | .primaryKey _ _ _ _ => primaryKey
  | .rowId _ _ _ _ _ _ => rowId
  | .range _ _ _ _ _ => range
  | .predicate _ _ _ => predicate
  | .catalogObject _ _ _ => catalogObject

/-- L139-159 -/
def forPair (left right : LockResource) : CommitWriteConflictScope :=
  if classify left = classify right then classify left else mixed

end CommitWriteConflictScope

/-- L104-122 -/
inductive CommitFenceRejectReason
  | batchSizeLimit
  | fenceBudgetExceeded (elapsedUs limitUs : Nat)
  | inBatchWriteConflict (scope : CommitWriteConflictScope)
  | ssiEpochAdvanced (validationEpoch batchEffectEpoch : Nat)
  | ssiStateEpochAdvanced (validationEpoch currentEpoch : Nat)
  | commitTimestampExhausted
deriving DecidableEq

/-- L169-175 -/
structure InFlightAcceptedPlan where
  (txnId readTs commitTs : Nat)
  writeSet : List LockResource
  ssiEffectEpoch : Nat
deriving DecidableEq

/-- L178-182 -/
structure InFlightCommitBatch where
  accepted : List InFlightAcceptedPlan := []
  writeSet : List LockResource := []
  maxSsiEffectEpoch : Nat := 0
deriving DecidableEq

namespace InFlightCommitBatch

variable (b : InFlightCommitBatch)

/-- L222-233 -/
def conflictScopeWithWriteSet (writeSet : List LockResource) : Option CommitWriteConflictScope :=
  writeSet.findSome? fun r => b.writeSet.findSome? fun seen =>
    if seen.conflictsWith r then some (.forPair seen r) else none

variable (p : CommitSequencingPlan)

/-- L200-216 -/
def rejectReasonFor : Option CommitFenceRejectReason :=
  if p.plan.isolation = .serializable ∧ p.validationEpoch < b.maxSsiEffectEpoch then
    some (.ssiEpochAdvanced p.validationEpoch b.maxSsiEffectEpoch)
  else (b.conflictScopeWithWriteSet p.writeSet).map .inBatchWriteConflict

/-- L235-246 -/
def accept (commitTs : Nat) : InFlightCommitBatch :=
  { accepted := b.accepted ++ [⟨p.plan.txnId, p.plan.readTs, commitTs, p.writeSet, p.ssiEffectEpoch⟩]
    writeSet := b.writeSet ++ p.writeSet
    maxSsiEffectEpoch := max b.maxSsiEffectEpoch p.ssiEffectEpoch }

end InFlightCommitBatch

/-- L262-266 -/
structure OrderedCommitPlan (R : Type) where
  sequencingPlan : CommitSequencingPlan
  payload : R

/-- L268-273 -/
structure RejectedOrderedCommit (R : Type) where
  plan : CommitSequencingPlan
  payload : R
  reason : CommitFenceRejectReason

def RejectedOrderedCommit.ordered {R : Type} (r : RejectedOrderedCommit R) : OrderedCommitPlan R :=
  ⟨r.plan, r.payload⟩

/-- L275-279 -/
inductive CommitSequencerAppendError (E A : Type)
  | appendFailed (error : E) (accepted : List A)
  | durableCommitted (error : E) (accepted : List A)

/-- L293-301 -/
structure CommitSequencerOrderedBatch (O R : Type) where
  appendOutput : Option O
  rejected : List (RejectedOrderedCommit R)
  deferred : List (OrderedCommitPlan R)
  fenceDurationUs : Nat

/-- L315-327 -/
structure CommitSequencerOrderedError (E A R : Type) where
  error : E
  durableCommitted : Bool
  (provisionalStart provisionalCount : Nat)
  accepted : List A
  rejected : List (RejectedOrderedCommit R)
  deferred : List (OrderedCommitPlan R)
  fenceDurationUs : Nat

structure Fenced (R : Type) where
  accepted : List (Nat × OrderedCommitPlan R) := []
  rejected : List (RejectedOrderedCommit R) := []
  deferred : List (OrderedCommitPlan R) := []

namespace CommitSequencer
variable {R A O E : Type}

section
variable (o : CommitSequencerOptions) (base : Nat) (elapsed : Nat → Nat)
  (finalFence : Nat → CommitSequencingPlan → InFlightCommitBatch → Option CommitFenceRejectReason)

/-- The reason to reject a plan in this turn, if there is one.
L591-607 -/
def turnReject (i : Nat) (b : InFlightCommitBatch) (p : CommitSequencingPlan) :
    Option CommitFenceRejectReason :=
  match b.rejectReasonFor p with
  | some reason => some reason
  | none => finalFence i p b

/-- The loop of `sequence_ordered_batch` from turn `i` on, with the batch accepted so far.
L575-620 -/
def fenceLoop : Nat → InFlightCommitBatch → List (OrderedCommitPlan R) → Fenced R
  | _, _, [] => {}
  | i, b, p :: ps =>
    if b.accepted.length ≥ o.effectiveBatchSize then { deferred := p :: ps }
    else if b.accepted ≠ [] ∧ elapsed i ≥ o.maxGroupCommitFenceUs then { deferred := p :: ps }
    else
      match turnReject finalFence i b p.sequencingPlan with
      | some reason =>
        let rest := fenceLoop (i + 1) b ps
        { rest with rejected := ⟨p.sequencingPlan, p.payload, reason⟩ :: rest.rejected }
      | none =>
        match commitTsAt base b.accepted.length with
        | none =>
          let rest := fenceLoop (i + 1) b ps
          { rest with rejected :=
              ⟨p.sequencingPlan, p.payload, .commitTimestampExhausted⟩ :: rest.rejected }
        | some ts =>
          let rest := fenceLoop (i + 1) (b.accept p.sequencingPlan ts) ps
          { rest with accepted := (ts, p) :: rest.accepted }

/-- The timestamp of a plan in this turn of `sequence_batch_with_fence`, or why it is rejected.
L470-504 -/
def batchTurn (i : Nat) (b : InFlightCommitBatch) (p : CommitSequencingPlan) : Except CommitFenceRejectReason Nat :=
  if b.accepted.length ≥ o.effectiveBatchSize then .error .batchSizeLimit
  else if elapsed i ≥ o.maxGroupCommitFenceUs then .error (.fenceBudgetExceeded (elapsed i) o.maxGroupCommitFenceUs)
  else
    match turnReject finalFence i b p with
    | some reason => .error reason
    | none => (commitTsAt base b.accepted.length).elim (.error .commitTimestampExhausted) .ok

/-- L469-508 -/
def batchLoop : Nat → InFlightCommitBatch → List CommitSequencingPlan →
    List (Nat × CommitSequencingPlan) × List (CommitSequencingPlan × CommitFenceRejectReason)
  | _, _, [] => ([], [])
  | i, b, p :: ps =>
    match batchTurn o base elapsed finalFence i b p with
    | .error reason =>
      let rest := batchLoop (i + 1) b ps
      (rest.1, (p, reason) :: rest.2)
    | .ok ts =>
      let rest := batchLoop (i + 1) (b.accept p ts) ps
      ((ts, p) :: rest.1, rest.2)
end

/-- L708-719 -/
def advanceShadowClock (nextCommitTs base count : Nat) : Nat :=
  match commitTsAt base count with
  | some next => max nextCommitTs next
  | none => commitTsLimit - 1

/-- L434-441 -/
def syncNextCommitTsWith (nextCommitTs minCommittedVersion : Nat) : Nat :=
  match commitTsAt minCommittedVersion 1 with
  | some next => max nextCommitTs next
  | none => commitTsLimit - 1

variable (o : CommitSequencerOptions)

/-- The clock after the call and what the call returns. The lock is taken twice: `base` is the
clock at the start and `nextCommitTs` the clock when the append has returned.
L557-694 -/
def sequenceOrderedBatch (base nextCommitTs : Nat)
    (plans : List (OrderedCommitPlan R)) (elapsed : Nat → Nat)
    (finalFence : Nat → CommitSequencingPlan → InFlightCommitBatch → Option CommitFenceRejectReason)
    (accept : Nat → OrderedCommitPlan R → A)
    (append : List A → Except (CommitSequencerAppendError E A) O) :
    Nat × Except (CommitSequencerOrderedError E A R) (CommitSequencerOrderedBatch O R) :=
  let f := fenceLoop o base elapsed finalFence 0 {} plans
  let fenceUs := elapsed plans.length
  let count := f.accepted.length
  if f.accepted = [] then (nextCommitTs, .ok ⟨none, f.rejected, f.deferred, fenceUs⟩)
  else
    match append (f.accepted.map fun a => accept a.1 a.2) with
    | .ok out =>
      (advanceShadowClock nextCommitTs base count, .ok ⟨some out, f.rejected, f.deferred, fenceUs⟩)
    | .error (.appendFailed error accepted) =>
      (nextCommitTs, .error ⟨error, false, base, count, accepted, f.rejected, f.deferred, fenceUs⟩)
    | .error (.durableCommitted error accepted) =>
      (advanceShadowClock nextCommitTs base count,
       .error ⟨error, true, base, count, accepted, f.rejected, f.deferred, fenceUs⟩)

/-- The clock after the call, and the accepted and the rejected plans if the append succeeds. The lock is held
throughout. L451-554 -/
def sequenceBatchWithFence (base : Nat) (plans : List CommitSequencingPlan)
    (elapsed : Nat → Nat)
    (finalFence : Nat → CommitSequencingPlan → InFlightCommitBatch → Option CommitFenceRejectReason)
    (append : List (Nat × CommitSequencingPlan) → Except E Unit) :
    Nat × Except E (List (Nat × CommitSequencingPlan) × List (CommitSequencingPlan × CommitFenceRejectReason)) :=
  let (accepted, rejected) := batchLoop o base elapsed finalFence 0 {} plans
  if accepted = [] then (base, .ok (accepted, rejected))
  else
    match append accepted with
    | .ok () => ((commitTsAt base accepted.length).getD (commitTsLimit - 1), .ok (accepted, rejected))
    | .error error => (base, .error error)

inductive AppendOutcome
  | ok | appendFailed | durableCommitted
deriving DecidableEq

/-- The append of a batch, handing the jobs back with its outcome. -/
def AppendOutcome.append (outcome : AppendOutcome) (jobs : List A) :
    Except (CommitSequencerAppendError Unit A) (List A) :=
  match outcome with
  | .ok => .ok jobs
  | .appendFailed => .error (.appendFailed () jobs)
  | .durableCommitted => .error (.durableCommitted () jobs)

/-! ## What the loop guarantees -/

def WritesApart (ws ws' : List LockResource) : Prop :=
  ∀ w ∈ ws, ∀ w' ∈ ws', w.conflictsWith w' = false ∧ w'.conflictsWith w = false

/-- A serializable plan was validated after the effects up to `epoch`. -/
def ValidatedAfter (p : CommitSequencingPlan) (epoch : Nat) : Prop :=
  p.plan.isolation = .serializable → epoch ≤ p.validationEpoch

variable {o : CommitSequencerOptions} {base : Nat} {elapsed : Nat → Nat}
  {finalFence : Nat → CommitSequencingPlan → InFlightCommitBatch → Option CommitFenceRejectReason}
  {b : InFlightCommitBatch} {f : Fenced R}

theorem of_rejectReasonFor_none {p : CommitSequencingPlan} (h : b.rejectReasonFor p = none) :
    WritesApart b.writeSet p.writeSet ∧ ValidatedAfter p b.maxSsiEffectEpoch := by
  unfold InFlightCommitBatch.rejectReasonFor at h
  split at h
  · cases h
  rename_i hep
  constructor
  · intro w hw w' hw'
    rw [Option.map_eq_none_iff, InFlightCommitBatch.conflictScopeWithWriteSet, findSome?_eq_none_iff] at h
    have hnone := findSome?_eq_none_iff.1 (h w' hw') w hw
    have hfalse : w.conflictsWith w' = false := by
      cases hc : w.conflictsWith w' with
      | false => rfl
      | true => simp [hc] at hnone
    exact ⟨hfalse, by rw [LockResource.conflictsWith_comm]; exact hfalse⟩
  · intro hser
    exact not_lt.1 fun hlt => hep ⟨hser, hlt⟩

variable {ts : Nat} {p : OrderedCommitPlan R} {ps : List (OrderedCommitPlan R)}

theorem eq_of_commitTsAt {offset : Nat} (h : commitTsAt base offset = some ts) : ts = base + offset := by
  unfold commitTsAt at h
  split at h
  · exact (Option.some.inj h).symm
  · cases h

/-- What holds of the outcome of the loop entered with batch `b`. -/
structure FencedOk (base : Nat) (b : InFlightCommitBatch) (plans : List (OrderedCommitPlan R))
    (f : Fenced R) : Prop where
  split : ∃ handled, plans = handled ++ f.deferred ∧
    Shuffle (f.accepted.map Prod.snd) (f.rejected.map RejectedOrderedCommit.ordered) handled
  stamps : f.accepted.map Prod.fst = List.range' (base + b.accepted.length) f.accepted.length
  clear : ∀ a ∈ f.accepted, WritesApart b.writeSet a.2.sequencingPlan.writeSet ∧
    ValidatedAfter a.2.sequencingPlan b.maxSsiEffectEpoch
  apart : f.accepted.Pairwise fun a a' =>
    WritesApart a.2.sequencingPlan.writeSet a'.2.sequencingPlan.writeSet ∧
      ValidatedAfter a'.2.sequencingPlan a.2.sequencingPlan.ssiEffectEpoch

theorem fencedOk_defer (b : InFlightCommitBatch) (plans : List (OrderedCommitPlan R)) :
    FencedOk base b plans { deferred := plans } :=
  ⟨⟨[], rfl, .done⟩, rfl, fun _ ha => absurd ha not_mem_nil, .nil⟩

theorem FencedOk.reject (h : FencedOk base b ps f) (reason : CommitFenceRejectReason) :
    FencedOk base b (p :: ps) { f with rejected := ⟨p.sequencingPlan, p.payload, reason⟩ :: f.rejected } := by
  obtain ⟨handled, hps, hsh⟩ := h.split
  exact ⟨⟨p :: handled, by rw [hps]; rfl, hsh.snd⟩, h.stamps, h.clear, h.apart⟩

theorem FencedOk.accept {b : InFlightCommitBatch}
    {f : Fenced R} (h : FencedOk base (b.accept p.sequencingPlan ts) ps f)
    (hr : b.rejectReasonFor p.sequencingPlan = none) (hts : ts = base + b.accepted.length) :
    FencedOk base b (p :: ps) { f with accepted := (ts, p) :: f.accepted } := by
  obtain ⟨handled, hps, hsh⟩ := h.split
  refine ⟨⟨p :: handled, by rw [hps]; rfl, hsh.fst⟩, ?_, ?_, ?_⟩
  · have hlen : base + (b.accept p.sequencingPlan ts).accepted.length = base + b.accepted.length + 1 := by
      simp [InFlightCommitBatch.accept]; omega
    rw [map_cons, h.stamps, hlen, hts]; rfl
  · refine forall_mem_cons.2 ⟨of_rejectReasonFor_none hr, fun a ha => ?_⟩
    obtain ⟨hw, he⟩ := h.clear a ha
    exact ⟨fun w hm => hw w (mem_append_left _ hm),
        fun hser => (le_max_left _ _).trans (he hser)⟩
  · refine pairwise_cons.2 ⟨fun a ha => ?_, h.apart⟩
    -- the batch the rest was checked against holds what this plan wrote
    obtain ⟨hw, he⟩ := h.clear a ha
    exact ⟨fun w hm => hw w (mem_append_right _ hm),
      fun hser => (le_max_right _ _).trans (he hser)⟩

theorem fenceLoop_ok (i : Nat) (b : InFlightCommitBatch) (plans : List (OrderedCommitPlan R)) :
    FencedOk base b plans (fenceLoop o base elapsed finalFence i b plans) := by
  induction plans generalizing i b with
  | nil => exact fencedOk_defer b []
  | cons p ps ih =>
    unfold fenceLoop
    split
    · exact fencedOk_defer b _
    split
    · exact fencedOk_defer b _
    split
    · exact (ih (i + 1) b).reject _
    rename_i hr
    have hr' : b.rejectReasonFor p.sequencingPlan = none := by
      unfold turnReject at hr
      split at hr
      · cases hr
      · assumption
    split
    · exact (ih (i + 1) b).reject _
    · rename_i ts hts
      exact (ih (i + 1) _).accept hr' (eq_of_commitTsAt hts)

theorem FencedOk.length_le {plans : List (OrderedCommitPlan R)}
    (h : FencedOk base b plans f) : f.accepted.length ≤ plans.length := by
  obtain ⟨handled, hps, hsh⟩ := h.split
  have := hsh.perm.length_eq
  rw [hps]
  simp only [length_append, length_map] at this ⊢
  omega

end CommitSequencer
end Paro.L2
