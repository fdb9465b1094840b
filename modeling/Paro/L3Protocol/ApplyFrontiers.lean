import Paro.Core.LTS
import Paro.L2Machine.ApplyRuntime

/-!
# Frontiers of the journal apply runtime

Runs of the apply runtime: any number of submissions, tablet workers, hook loops and recovery calls, in any
interleaving and with any of the closures failing. LSNs are used once (`Distinct`): a record is registered
at an LSN no other record has, and a placeholder stands at an LSN without a record.

`DispatchInv` links the cursors: everything below the dispatch turn is published, ready or pending, so a gap
without pending records starts at the published frontier and leaves nothing ready behind. It is stated over
the parts of the runtime it is about, and there is one lemma for each step that changes one of them.
-/
namespace Paro.L3.OrderedApply
open L2 List Function Option ApplyRuntimeState

inductive Lbl where
  | submit (request : ApplyRequest)
  | noteDurable (lsn : Nat)
  | submission (lsn : Nat) (ok : Bool)
  | dequeue
  | worker (work : TabletApplyWork) (ok : Bool)
  | publisher (trigger : Nat) (ok : Bool)
  | placeholder (lsn : Nat)
  | gapBefore (lsn : Nat)
  | shutdown

def step (observer : Bool) (r : ApplyRuntime) : Lbl → Option ApplyRuntime
  | .submit request => some (r.submit request)
  | .noteDurable lsn => some { r with state := r.state.noteDurableAppend lsn }
  | .submission lsn ok => (r.submissions lsn).bind fun sub => r.advanceSubmission lsn sub ok
  | .dequeue => some r.dequeue
  | .worker work ok => (r.workers work).map fun worker => r.advanceWorker work worker ok
  | .publisher trigger ok => (r.publishers trigger).map fun p => r.advancePublisher observer trigger p ok
  | .placeholder lsn => some (r.placeholder lsn)
  | .gapBefore lsn => some (r.gapBefore lsn)
  | .shutdown => some { r with tabletDispatch := { r.tabletDispatch with shutdown := true } }

def start (maxLsn : Nat) : ApplyRuntime := { state := bootstrapFrontiers {} maxLsn }

def system (observer : Bool) (maxLsn : Nat) : LTS ApplyRuntime Lbl := .ofStep (start maxLsn) (step observer)

def Distinct (r : ApplyRuntime) : Lbl → Prop
  | .submit request => r.submissions (r.state.assignedLsn request.lsn) = none
  | .placeholder lsn => r.submissions lsn = none
  | _ => True

instance (r : ApplyRuntime) (l : Lbl) : Decidable (Distinct r l) := by
  cases l <;> unfold Distinct <;> infer_instance

/-! ## Submissions -/

abbrev Submissions := Nat → Option Submission

variable {lsn : Nat} {pc : SubmitPc}

theorem update_some {α β : Type} [DecidableEq α] {f : α → Option β} {a x : α} {b y : β}
    (h : update f a (some b) x = some y) : x = a ∧ y = b ∨ x ≠ a ∧ f x = some y := by
  by_cases hx : x = a
  · subst hx
    rw [update_self] at h
    exact .inl ⟨rfl, (some.inj h).symm⟩
  · rw [update_of_ne hx] at h
    exact .inr ⟨hx, h⟩

theorem update_eq_none {subs : Submissions} {sub sub' : Submission} (hsub : subs lsn = some sub) (n : Nat) :
    update subs lsn (some sub') n = none ↔ subs n = none := by
  by_cases hn : n = lsn
  · simp [hn, hsub]
  · rw [update_of_ne hn]

/-- Before the record is marked, and not failing. -/
def early : SubmitPc → Bool
  | .waitTurn | .takeLane | .catalogPre | .enqueue _ | .finishTurn | .tabletPhase | .descriptor
  | .catalogPost | .markApplied => true
  | .publishing | .waitPublished | .failRecord | .failTicket | .returned _ => false

/-- Tickets change, but no submission takes one of the early steps. -/
def Relaxes (subs subs' : Submissions) : Prop :=
  (∀ n, subs' n = none ↔ subs n = none) ∧
  ∀ n sub', subs' n = some sub' → ∃ sub, subs n = some sub ∧ sub'.request = sub.request ∧
    sub'.remainingTabletParts = sub.remainingTabletParts ∧ (sub'.pc = sub.pc ∨ early sub'.pc = false)

theorem Relaxes.refl (subs : Submissions) : Relaxes subs subs :=
  ⟨fun _ => .rfl, fun _ sub h => ⟨sub, h, rfl, rfl, .inl rfl⟩⟩

theorem Relaxes.trans {subs subs' subs'' : Submissions} (h : Relaxes subs subs') (h' : Relaxes subs' subs'') :
    Relaxes subs subs'' := by
  refine ⟨fun n => (h'.1 n).trans (h.1 n), fun n sub'' hsub'' => ?_⟩
  obtain ⟨sub', hsub', hreq', hrem', hpc'⟩ := h'.2 n sub'' hsub''
  obtain ⟨sub, hsub, hreq, hrem, hpc⟩ := h.2 n sub' hsub'
  refine ⟨sub, hsub, hreq'.trans hreq, hrem'.trans hrem, ?_⟩
  rcases hpc' with hpc' | hpc'
  · rw [hpc']
    exact hpc
  · exact .inr hpc'

variable (r : ApplyRuntime)

theorem updateTicket_submissions (lsn : Nat) (f : Submission → Submission) (n : Nat) :
    (r.updateTicket lsn f).submissions n = if n = lsn then (r.submissions n).map f else r.submissions n := by
  by_cases hn : n = lsn
  · subst hn
    simp [ApplyRuntime.updateTicket]
  · simp [ApplyRuntime.updateTicket, hn]

section
variable {r} {f : Submission → Submission} {n : Nat}

theorem updateTicket_eq_none : (r.updateTicket lsn f).submissions n = none ↔ r.submissions n = none := by
  rw [updateTicket_submissions]
  split
  · exact map_eq_none_iff
  · rfl

theorem updateTicket_eq_some {sub' : Submission} (h : (r.updateTicket lsn f).submissions n = some sub') :
    ∃ sub, r.submissions n = some sub ∧ (sub' = f sub ∨ sub' = sub) := by
  rw [updateTicket_submissions] at h
  split at h
  · obtain ⟨sub, hsub, rfl⟩ := map_eq_some_iff.1 h
    exact ⟨sub, hsub, .inl rfl⟩
  · exact ⟨sub', h, .inr rfl⟩

end

theorem relaxes_updateTicket (r : ApplyRuntime) (lsn : Nat) {f : Submission → Submission}
    (hreq : ∀ sub, (f sub).request = sub.request)
    (hrem : ∀ sub, (f sub).remainingTabletParts = sub.remainingTabletParts)
    (hpc : ∀ sub, (f sub).pc = sub.pc ∨ early (f sub).pc = false) :
    Relaxes r.submissions (r.updateTicket lsn f).submissions := by
  refine ⟨fun n => updateTicket_eq_none, fun n sub' hsub' => ?_⟩
  obtain ⟨sub, hsub, rfl | rfl⟩ := updateTicket_eq_some hsub'
  · exact ⟨sub, hsub, hreq sub, hrem sub, hpc sub⟩
  · exact ⟨sub', hsub, rfl, rfl, .inl rfl⟩

theorem relaxes_goto (lsn : Nat) (hpc : early pc = false) : Relaxes r.submissions (r.goto lsn pc).submissions :=
  relaxes_updateTicket r lsn (fun _ => rfl) (fun _ => rfl) fun _ => .inr hpc

theorem relaxes_leave (lsn : Nat) (ok : Bool) :
    Relaxes r.submissions (r.leave lsn ok).submissions := relaxes_goto r lsn rfl

/-! ## The dispatch turn and the frontiers -/

/-- Where a submission stands against the dispatch turn. -/
def TurnOk (next lsn : Nat) : SubmitPc → Prop
  | .waitTurn => next ≤ lsn
  | .takeLane | .catalogPre | .enqueue _ | .finishTurn => lsn = next
  | .tabletPhase | .descriptor | .catalogPost | .markApplied => lsn < next
  | .publishing | .waitPublished | .failRecord | .failTicket | .returned _ => True

theorem turnOk_late {next : Nat} (h : early pc = false) : TurnOk next lsn pc := by
  cases pc <;> trivial

structure DispatchInv (maxLsn : Nat) (s : ApplyRuntimeState) (skipped placeholders marked : List Nat)
    (subs : Submissions) : Prop where
  settled : s.Settled
  base : maxLsn ≤ s.publishedLsn
  below : s.publishedLsn < s.nextDispatchLsn
  published : ∀ n, maxLsn < n → n ≤ s.publishedLsn → n ∈ skipped ∨ n ∈ placeholders ∨ n ∈ marked
  ready : ∀ n ∈ s.applyFrontier.ready, n ∈ placeholders ∨ n ∈ marked
  between : ∀ n, s.publishedLsn < n → n < s.nextDispatchLsn → n ∈ s.records ∨ n ∈ s.applyFrontier.ready
  registered : ∀ n, n ∈ s.records ↔ subs n ≠ none ∧ s.publishedLsn < n
  placeholder_lt : ∀ n ∈ placeholders, n < s.nextDispatchLsn ∧ subs n = none
  marked_lt : ∀ n ∈ marked, n < s.nextDispatchLsn
  pending : ∀ n sub, subs n = some sub → n ∉ marked → n ∈ s.records
  turns : ∀ n sub, subs n = some sub → TurnOk s.nextDispatchLsn n sub.pc
  unmarked : ∀ n sub, subs n = some sub → early sub.pc = true → n ∉ marked

section
variable {maxLsn : Nat} {s : ApplyRuntimeState} {skipped placeholders marked : List Nat} {subs : Submissions}

theorem dispatchInv_start : DispatchInv maxLsn (bootstrapFrontiers {} maxLsn) [] [] []
    fun _ => none := by
  have hnext : maxLsn < max (maxLsn + 1) 1 := by omega
  refine ⟨settled_bootstrap maxLsn, le_rfl, hnext, ?_, nofun, ?_, fun n => ⟨nofun, fun hn => absurd rfl hn.1⟩, nofun,
    nofun, nofun, nofun, nofun⟩
  · intro n hlow hhigh
    exact absurd hhigh (not_le.2 hlow)
  · intro n hlow hhigh
    simp only [bootstrapFrontiers] at hlow hhigh
    omega

variable {subs' : Submissions} {lsn next ephemeral durable : Nat} {sub : Submission} {pc : SubmitPc}
  {hooks : List Nat} {s' : ApplyRuntimeState}

section
variable (h : DispatchInv maxLsn s skipped placeholders marked subs)
include h

/-- The other fields of the state do not matter. -/
theorem DispatchInv.fields (ephemeral durable : Nat) (poisoned : Bool) :
    DispatchInv maxLsn { s with nextEphemeralLsn := ephemeral, durableLsn := durable, poisoned }
      skipped placeholders marked subs :=
  { h with settled := { h.settled with } }

/-- What is ready is behind the published LSN and before the dispatch turn. -/
theorem DispatchInv.ready_lt {n : Nat} (hn : n ∈ s.applyFrontier.ready) : n < s.nextDispatchLsn := by
  rcases h.ready n hn with hn | hn
  · exact (h.placeholder_lt n hn).1
  · exact h.marked_lt n hn

/-- Submissions move, each to a place that fits the turn, and the turn passes records. -/
theorem DispatchInv.moveTurn (hle : s.nextDispatchLsn ≤ next)
    (hpassed : ∀ n, s.nextDispatchLsn ≤ n → n < next → n ∈ s.records) (hnone : ∀ n, subs' n = none ↔ subs n = none)
    (hmove : ∀ n sub', subs' n = some sub' → TurnOk next n sub'.pc ∧ (early sub'.pc = true → n ∉ marked)) :
    DispatchInv maxLsn { s with nextDispatchLsn := next } skipped placeholders marked subs' where
  __ := h
  settled := { h.settled with }
  below := lt_of_lt_of_le h.below hle
  between n hlow hhigh := by
    rcases lt_or_ge n s.nextDispatchLsn with hn | hn
    · exact h.between n hlow hn
    · exact .inl (hpassed n hn hhigh)
  registered n := (h.registered n).trans (and_congr_left' (not_congr (hnone n).symm))
  placeholder_lt n hn := ⟨lt_of_lt_of_le (h.placeholder_lt n hn).1 hle, (hnone n).2 (h.placeholder_lt n hn).2⟩
  marked_lt n hn := lt_of_lt_of_le (h.marked_lt n hn) hle
  pending n sub' hsub' hn := by
    cases hsub : subs n with
    | none => rw [(hnone n).2 hsub] at hsub'; cases hsub'
    | some sub => exact h.pending n sub hsub hn
  turns n sub' hsub' := (hmove n sub' hsub').1
  unmarked n sub' hsub' := (hmove n sub' hsub').2

theorem DispatchInv.move (hnone : ∀ n, subs' n = none ↔ subs n = none)
    (hmove : ∀ n sub', subs' n = some sub' → TurnOk s.nextDispatchLsn n sub'.pc ∧ (early sub'.pc = true → n ∉ marked)) :
    DispatchInv maxLsn s skipped placeholders marked subs' :=
  h.moveTurn le_rfl (fun _ hle hlt => absurd hle (not_le.2 hlt)) hnone hmove

theorem DispatchInv.relax (hrel : Relaxes subs subs') : DispatchInv maxLsn s skipped placeholders marked subs' := by
  refine h.move hrel.1 fun n sub' hsub' => ?_
  obtain ⟨sub, hsub, -, -, hpc⟩ := hrel.2 n sub' hsub'
  rcases hpc with hpc | hlate
  · rw [hpc]
    exact ⟨h.turns n sub hsub, h.unmarked n sub hsub⟩
  · refine ⟨turnOk_late hlate, fun hearly => ?_⟩
    rw [hlate] at hearly
    cases hearly

end

/-- A ticket changes, and its submission stays where it is. -/
theorem DispatchInv.updateTicket {r : ApplyRuntime}
    (h : DispatchInv maxLsn s skipped placeholders marked r.submissions) (lsn : Nat)
    {f : Submission → Submission} (hpc : ∀ sub, (f sub).pc = sub.pc) :
    DispatchInv maxLsn s skipped placeholders marked (r.updateTicket lsn f).submissions := by
  refine h.move (fun n => updateTicket_eq_none) fun n sub' hsub' => ?_
  obtain ⟨sub, hsub, rfl | rfl⟩ := updateTicket_eq_some hsub'
  · rw [hpc]
    exact ⟨h.turns n sub hsub, h.unmarked n sub hsub⟩
  · exact ⟨h.turns n sub' hsub, h.unmarked n sub' hsub⟩

/-- The turn moves on from an LSN nobody else stands at. -/
theorem turnOk_next (h : TurnOk next lsn pc) (hne : lsn ≠ next) : TurnOk (next + 1) lsn pc := by
  cases pc <;> simp only [TurnOk] at h ⊢ <;> omega

/-- The turn jumps, but to no further than the submissions that wait for it. -/
theorem turnOk_jump {next' : Nat} (h : TurnOk next lsn pc) (hlt : next < next')
    (hwaits : early pc = true → next' ≤ lsn) : TurnOk next' lsn pc := by
  cases hearly : early pc with
  | false => exact turnOk_late hearly
  | true =>
    have hle := hwaits hearly
    cases pc <;> simp only [TurnOk] at h ⊢ <;> omega

section
variable (h : DispatchInv maxLsn s skipped placeholders marked subs)
include h

namespace DispatchInv

/-- One submission moves. -/
theorem goto (hsub : subs lsn = some sub) (hearly : early sub.pc = true) (hturn : TurnOk s.nextDispatchLsn lsn pc) :
    DispatchInv maxLsn s skipped placeholders marked (update subs lsn (some { sub with pc })) := by
  refine h.move (update_eq_none hsub) fun n sub' hsub' => ?_
  rcases update_some hsub' with ⟨rfl, rfl⟩ | ⟨-, hold⟩
  · exact ⟨hturn, fun _ => h.unmarked n sub hsub hearly⟩
  · exact ⟨h.turns n sub' hold, h.unmarked n sub' hold⟩

theorem register (hlsn : s.nextDispatchLsn ≤ lsn) (hsub : sub.pc = .waitTurn) (ephemeral durable : Nat) :
    DispatchInv maxLsn
      { s with nextEphemeralLsn := ephemeral, durableLsn := durable, records := s.records.insert lsn }
      skipped placeholders marked (update subs lsn (some sub)) := by
  refine ⟨{ h.settled with }, h.base, h.below, h.published, h.ready, ?_, ?_, ?_, h.marked_lt, ?_, ?_, ?_⟩
  · intro n hlow hhigh
    rcases h.between n hlow hhigh with hn | hn
    · exact .inl (mem_insert_of_mem hn)
    · exact .inr hn
  · intro n
    have hbelow := h.below
    by_cases hn : n = lsn
    · simp only [hn, mem_insert_self, update_self, true_iff]
      exact ⟨some_ne_none sub, by omega⟩
    · simp only [mem_insert_iff, hn, false_or, update_of_ne hn]
      exact h.registered n
  · intro n hn
    obtain ⟨hlt, hnone⟩ := h.placeholder_lt n hn
    have hne : n ≠ lsn := by omega
    exact ⟨hlt, by rw [update_of_ne hne]; exact hnone⟩
  · intro n sub' hsub' hn
    rcases update_some hsub' with ⟨rfl, -⟩ | ⟨-, hold⟩
    · exact mem_insert_self
    · exact mem_insert_of_mem (h.pending n sub' hold hn)
  · intro n sub' hsub'
    rcases update_some hsub' with ⟨rfl, rfl⟩ | ⟨-, hold⟩
    · rw [hsub]
      exact hlsn
    · exact h.turns n sub' hold
  · intro n sub' hsub' hearly hn
    rcases update_some hsub' with ⟨rfl, -⟩ | ⟨-, hold⟩
    · have := h.marked_lt n hn
      omega
    · exact h.unmarked n sub' hold hearly hn

theorem finishTurn (hsub : subs lsn = some sub) (hpc : sub.pc = .finishTurn) :
    DispatchInv maxLsn (s.finishDispatchTurn lsn) skipped placeholders marked
      (update subs lsn (some { sub with pc := .tabletPhase })) := by
  have hturn := h.turns lsn sub hsub
  rw [hpc] at hturn
  have hnext : lsn = s.nextDispatchLsn := hturn
  have hunmarked := h.unmarked lsn sub hsub (by rw [hpc]; rfl)
  have hstate : s.finishDispatchTurn lsn = { s with nextDispatchLsn := s.nextDispatchLsn + 1 } :=
    if_pos hnext.symm
  rw [hstate]
  refine h.moveTurn (Nat.le_succ _) (fun n hle hlt => ?_) (update_eq_none hsub) fun n sub' hsub' => ?_
  · obtain rfl : n = lsn := by omega
    exact h.pending n sub hsub hunmarked
  · rcases update_some hsub' with ⟨rfl, rfl⟩ | ⟨hne, hold⟩
    · exact ⟨Nat.lt_succ_of_le (le_of_eq hnext), fun _ => hunmarked⟩
    · exact ⟨turnOk_next (h.turns n sub' hold) fun hn => hne (hn.trans hnext.symm), h.unmarked n sub' hold⟩

/-- A marked LSN: a record when there is a submission, else a placeholder. The turn may pass it in the same
step. -/
theorem advance {placeholders' marked' : List Nat} (hadv : ApplyRuntimeState.Advanced
      { s with nextDispatchLsn := next, nextEphemeralLsn := ephemeral, durableLsn := durable } lsn hooks s')
    (hlsn : lsn < next) (hnext : s.nextDispatchLsn ≤ next) (hpassed : ∀ n, s.nextDispatchLsn ≤ n → n < next → n = lsn)
    (hplaceholders : ∀ n, n ∈ placeholders' ↔ n ∈ placeholders ∨ n = lsn ∧ subs lsn = none)
    (hmarked : ∀ n, n ∈ marked' ↔ n ∈ marked ∨ n = lsn ∧ subs lsn ≠ none) (hrel : Relaxes subs subs')
    (hturns : ∀ n sub', subs' n = some sub' → TurnOk next n sub'.pc)
    (hlate : ∀ sub', subs' lsn = some sub' → early sub'.pc = false) :
    DispatchInv maxLsn s' skipped placeholders' marked' subs' := by
  have hle := hadv.le
  have hpublished := hadv.published
  have hreadyIff := hadv.ready
  have hrecords := hadv.records
  simp only at hle hpublished hreadyIff hrecords
  have hready : ∀ n, n = lsn ∨ n ∈ s.applyFrontier.ready → n ∈ placeholders' ∨ n ∈ marked' := by
    intro n hn
    rw [hplaceholders, hmarked]
    rcases hn with rfl | hn
    · by_cases hsub : subs n = none
      · exact .inl (.inr ⟨rfl, hsub⟩)
      · exact .inr (.inr ⟨rfl, hsub⟩)
    · exact (h.ready n hn).imp .inl .inl
  have hready_lt : ∀ n, n = lsn ∨ n ∈ s.applyFrontier.ready → n < next := by
    intro n hn
    rcases hn with rfl | hn
    · exact hlsn
    · exact lt_of_lt_of_le (h.ready_lt hn) hnext
  refine ⟨hadv.settled, le_trans h.base hle, ?_, ?_, ?_, ?_, ?_, ?_, ?_, ?_, ?_, ?_⟩
  · rw [hadv.nextDispatchLsn]
    by_cases hmoved : s'.publishedLsn = s.publishedLsn
    · rw [hmoved]
      exact lt_of_lt_of_le h.below hnext
    · exact hready_lt _ (hpublished _ (Nat.lt_of_le_of_ne hle (Ne.symm hmoved)) (le_refl _))
  · intro n hbase hn
    by_cases hold : n ≤ s.publishedLsn
    · rw [hplaceholders, hmarked]
      exact (h.published n hbase hold).imp id (Or.imp .inl .inl)
    · exact .inr (hready n (hpublished n (not_le.1 hold) hn))
  · intro n hn
    exact hready n ((hreadyIff n).1 hn).1
  · intro n hgt hlt
    rw [hadv.nextDispatchLsn] at hlt
    by_cases hn : n < s.nextDispatchLsn
    · rcases h.between n (by omega) hn with hn | hn
      · exact .inl ((hrecords n).2 ⟨hn, by omega⟩)
      · exact .inr ((hreadyIff n).2 ⟨.inr hn, hgt⟩)
    · exact .inr ((hreadyIff n).2 ⟨.inl (hpassed n (not_lt.1 hn) hlt), hgt⟩)
  · intro n
    rw [hrecords, h.registered, ne_eq, ne_eq, hrel.1 n]
    constructor
    · intro ⟨⟨hsub, hgt⟩, hout⟩
      exact ⟨hsub, by omega⟩
    · intro ⟨hsub, hgt⟩
      exact ⟨⟨hsub, by omega⟩, by omega⟩
  · intro n hn
    rw [hadv.nextDispatchLsn, hrel.1 n]
    rcases (hplaceholders n).1 hn with hn | ⟨rfl, hnone⟩
    · obtain ⟨hlt, hnone⟩ := h.placeholder_lt n hn
      exact ⟨lt_of_lt_of_le hlt hnext, hnone⟩
    · exact ⟨hlsn, hnone⟩
  · intro n hn
    rw [hadv.nextDispatchLsn]
    rcases (hmarked n).1 hn with hn | ⟨rfl, -⟩
    · exact lt_of_lt_of_le (h.marked_lt n hn) hnext
    · exact hlsn
  · intro n sub' hsub' hn
    rw [hmarked, not_or] at hn
    obtain ⟨sub, hsub, -⟩ := hrel.2 n sub' hsub'
    refine (hrecords n).2 ⟨h.pending n sub hsub hn.1, fun hout => ?_⟩
    -- what was published now has a submission only if it was marked
    rcases hpublished n hout.1 hout.2 with rfl | hn'
    · exact hn.2 ⟨rfl, by simp [hsub]⟩
    · rcases h.ready n hn' with hp | hm
      · rw [(h.placeholder_lt n hp).2] at hsub
        cases hsub
      · exact hn.1 hm
  · rw [hadv.nextDispatchLsn]
    exact hturns
  · intro n sub' hsub' hearly hn
    rcases (hmarked n).1 hn with hn | ⟨rfl, -⟩
    · exact (h.relax hrel).unmarked n sub' hsub' hearly hn
    · rw [hlate sub' hsub'] at hearly
      cases hearly

/-- A record at the end of its steps is not published yet. -/
theorem unpublished_early (hsub : subs lsn = some sub) (hearly : early sub.pc = true) :
    s.publishedLsn < lsn :=
  ((h.registered lsn).1 (h.pending lsn sub hsub (h.unmarked lsn sub hsub hearly))).2

theorem mark (hsub : subs lsn = some sub) (hpc : sub.pc = .markApplied) (hadv : s.Advanced lsn hooks s')
    (hrel : Relaxes subs subs') (hlate : ∀ sub', subs' lsn = some sub' → early sub'.pc = false) :
    DispatchInv maxLsn s' skipped placeholders (marked ++ [lsn]) subs' := by
  have hturn := h.turns lsn sub hsub
  rw [hpc] at hturn
  refine h.advance hadv hturn le_rfl (fun n hle hlt => absurd hle (not_le.2 hlt)) (fun n => ?_)
    (fun n => ?_) hrel (h.relax hrel).turns hlate
  · simp [hsub]
  · simp [hsub]

theorem placeholder_advanced (hlsn : lsn = s.nextDispatchLsn) (hadv : advancePublishFrontiersLocked
      { s with
        durableLsn := durable
        nextEphemeralLsn := ephemeral
        nextDispatchLsn := s.nextDispatchLsn + 1 } lsn = (hooks, s')) :
    ApplyRuntimeState.Advanced
      { s with
        nextDispatchLsn := s.nextDispatchLsn + 1
        nextEphemeralLsn := ephemeral
        durableLsn := durable } lsn hooks s' := by
  have hsettled : ApplyRuntimeState.Settled
      { s with
        durableLsn := durable
        nextEphemeralLsn := ephemeral
        nextDispatchLsn := s.nextDispatchLsn + 1 } :=
    ⟨h.settled.1, h.settled.2, h.settled.3, h.settled.4, h.settled.5⟩
  have hadvanced := advance_advanced hsettled (hlsn ▸ h.below)
  rwa [hadv] at hadvanced

theorem placeholder (hlsn : lsn = s.nextDispatchLsn) (hnone : subs lsn = none)
    (hadv : ApplyRuntimeState.Advanced
      { s with
        nextDispatchLsn := s.nextDispatchLsn + 1
        nextEphemeralLsn := ephemeral
        durableLsn := durable } lsn hooks s') :
    DispatchInv maxLsn s' skipped (placeholders ++ [lsn]) marked subs := by
  refine h.advance hadv (by omega) (Nat.le_succ _) (fun n hle hlt => by omega) (fun n => ?_)
    (fun n => ?_) (.refl subs) (fun n sub hsub => ?_) (fun sub hsub => ?_)
  · simp [hnone]
  · simp [hnone]
  · refine turnOk_next (h.turns n sub hsub) fun hn => ?_
    rw [hn, ← hlsn, hnone] at hsub
    cases hsub
  · rw [hnone] at hsub
    cases hsub

/-- Without pending records before `lsn` everything below the turn is published, so the gap starts there and
nothing ready is lost. -/
theorem gap
    (hlsn : s.nextDispatchLsn < lsn) (hpending : ∀ n ∈ s.records, lsn ≤ n) (ephemeral durable : Nat) :
    DispatchInv maxLsn (s.afterGap lsn ephemeral durable)
      (skipped ++ List.range' s.nextDispatchLsn (lsn - s.nextDispatchLsn)) placeholders marked subs := by
  unfold afterGap
  have hbelow := h.below
  have hnextPublished : s.nextDispatchLsn = s.publishedLsn + 1 := by
    by_contra hne
    rcases h.between (s.publishedLsn + 1) (by omega) (by omega) with hn | hn
    · have := hpending _ hn
      omega
    · have := h.settled.ready _ hn
      omega
  have hready : s.applyFrontier.ready = [] := by
    refine eq_nil_iff_forall_not_mem.2 fun n hn => ?_
    have := h.ready_lt hn
    have := h.settled.ready n hn
    omega
  have hwaits : ∀ n sub, subs n = some sub → early sub.pc = true → lsn ≤ n :=
    fun n sub hsub hearly => hpending n (h.pending n sub hsub (h.unmarked n sub hsub hearly))
  refine ⟨h.settled.skip (by omega) (by simp [hready]) ephemeral durable, ?_, ?_, ?_, ?_, ?_, ?_, ?_, ?_,
    h.pending, ?_, h.unmarked⟩
  · exact le_trans h.base (le_max_left _ _)
  · simp only
    omega
  · intro n hbase hn
    simp only at hn
    by_cases hold : n ≤ s.publishedLsn
    · exact (h.published n hbase hold).imp (mem_append_left _) id
    · refine .inl (mem_append_right _ (mem_range'_1.2 ?_))
      omega
  · intro n hn
    simp [JournalFrontier.skipThrough, hready] at hn
  · intro n hgt hlt
    simp only at hgt hlt
    omega
  · intro n
    constructor
    · intro hn
      have := hpending n hn
      refine ⟨((h.registered n).1 hn).1, ?_⟩
      simp only
      omega
    · rintro ⟨hsub, hgt⟩
      exact (h.registered n).2 ⟨hsub, by simp only at hgt; omega⟩
  · intro n hn
    obtain ⟨hlt, hnone⟩ := h.placeholder_lt n hn
    exact ⟨lt_trans hlt hlsn, hnone⟩
  · intro n hn
    exact lt_trans (h.marked_lt n hn) hlsn
  · intro n sub hsub
    exact turnOk_jump (h.turns n sub hsub) hlsn (hwaits n sub hsub)

end DispatchInv

end

end

end Paro.L3.OrderedApply
