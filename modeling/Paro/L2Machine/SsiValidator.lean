import Paro.L2Machine.CommittedTxnSummary

/-!
# SSI validator

Model of `SsiValidator::validate_commit` (crates/transaction/src/ssi_validator.rs). A commit is
refused when its transaction has both an incoming and an outgoing read-write conflict. Outgoing:
a later commit wrote what it read. Incoming: a later commit read what it writes, or a live
transaction has. The marks are left in the read dependency index whether or not the commit passes.

`validateCommit_remarks`: validation changes nothing but SSI flags, and only sets them.
-/
namespace Paro.L2
open L1 Keyed ReadDependencyIndex

/-- commit/types.rs:61-65 -/
inductive IsolationLevel | snapshot | serializable
deriving DecidableEq, Repr

/-- What validation reads of a plan. commit/request.rs:104-112 -/
structure CommitPlan where
  (txnId readTs : Nat)
  isolation : IsolationLevel
  frozenReadSet : FrozenReadSet
deriving DecidableEq, Repr

/-- ssi_validator.rs:11-22 -/
structure SsiValidationOutcome where
  validationEpoch : Nat
  ssiEffectEpoch : Nat := 0
  rwConflictIn : Bool := false
  rwConflictOut : Bool := false
  activeConflictCount : Nat := 0
  coarseScanMarkerConflict : Bool := false
  committedWriteConflict : Option CommittedTxnConflict := none
  committedReadConflict : Option CommittedTxnConflict := none
  activeReadConflict : Option ActiveReadConflict := none
deriving DecidableEq, Repr

/-- ssi_validator.rs:41-51 -/
inductive SsiValidationError
  | dangerousStructure (txnId : Nat) (state : SsiTxnState)
      (committedWriteConflict committedReadConflict : Option CommittedTxnConflict)
      (activeReadConflict : Option ActiveReadConflict) (coarseScanMarkerConflict : Bool)
deriving DecidableEq, Repr

variable (mark : ReadDependencyIndex → Nat → ReadDependencyIndex × SsiTxnState)

def markIf (conflict coarse : Bool) (ix : ReadDependencyIndex) (t : Nat) : ReadDependencyIndex :=
  if conflict then
    let ix' := (mark ix t).1
    if coarse then (ix'.markTxnCoarseScanConflict t).1 else ix'
  else ix

def isCoarse (c : Option CommittedTxnConflict) : Bool :=
  c.any fun c => c.dependency.isCoarseScanMarker

variable (ix : ReadDependencyIndex)

/-- The three rounds of marking: the index after them and the effects on live readers.
ssi_validator.rs:94-134 -/
def markConflicts {n : Nat} (summaries : CommittedTxnSummaryIndex n)
    (plan : CommitPlan) (writeSet : List LockResource) :
    ReadDependencyIndex × ActiveWriteConflictEffects :=
  let wc := summaries.firstWriteConflictForReads plan.readTs plan.frozenReadSet.dependencies
  let ix1 := markIf markTxnConflictOut wc.isSome (isCoarse wc) ix plan.txnId
  let rc := summaries.firstReadConflictForWrites plan.readTs writeSet
  let ix2 := markIf markTxnConflictIn rc.isSome (isCoarse rc) ix1 plan.txnId
  let act := ix2.markWriteConflicts plan.txnId writeSet
  (markIf markTxnConflictIn act.2.writerHasConflictIn
    act.2.coarseScanMarkerConflict act.1 plan.txnId, act.2)

/-- Conflicts on both sides make the transaction dangerous; its state after the check.
ssi_validator.rs:136-139 -/
def checkPivot (t : Nat) : ReadDependencyIndex × SsiTxnState :=
  let state := ix.ssiState t
  if state.rwConflictIn && state.rwConflictOut then ix.markTxnDangerous t else (ix, state)

/-- ssi_validator.rs:84-171 -/
def validateCommit {n : Nat} (summaries : CommittedTxnSummaryIndex n)
    (plan : CommitPlan) (writeSet : List LockResource) :
    ReadDependencyIndex × Except SsiValidationError SsiValidationOutcome :=
  let startEpoch := ix.stateEpoch
  if plan.isolation ≠ .serializable then (ix, .ok { validationEpoch := startEpoch })
  else
    let wc := summaries.firstWriteConflictForReads plan.readTs plan.frozenReadSet.dependencies
    let rc := summaries.firstReadConflictForWrites plan.readTs writeSet
    let (ix3, effects) := markConflicts ix summaries plan writeSet
    let (ix4, state) := checkPivot ix3 plan.txnId
    let validationEpoch := max ix4.stateEpoch startEpoch
    let coarse := state.coarseScanMarkerConflict || isCoarse wc || isCoarse rc ||
      effects.coarseScanMarkerConflict
    if state.dangerousStructure then
      (ix4, .error (.dangerousStructure plan.txnId state wc rc effects.firstConflict coarse))
    else
      (ix4, .ok
        { validationEpoch
          ssiEffectEpoch := max validationEpoch effects.ssiEffectEpoch
          rwConflictIn := state.rwConflictIn
          rwConflictOut := state.rwConflictOut
          activeConflictCount := effects.matchedTxnCount
          coarseScanMarkerConflict := coarse
          committedWriteConflict := wc
          committedReadConflict := rc
          activeReadConflict := effects.firstConflict })

/-! ## Marks only set flags -/

structure SsiTxnState.Le (a b : SsiTxnState) : Prop where
  rwConflictIn : a.rwConflictIn = true → b.rwConflictIn = true
  rwConflictOut : a.rwConflictOut = true → b.rwConflictOut = true
  dangerousStructure : a.dangerousStructure = true → b.dangerousStructure = true

/-- The same read sets but for flags that were set. -/
structure Remarks (ix ix' : ReadDependencyIndex) : Prop where
  absent : ∀ u, ix.get u = none → ix'.get u = none
  present : ∀ u rs, ix.get u = some rs → ∃ ssi, ix'.get u = some { rs with ssi } ∧ rs.ssi.Le ssi

variable {ix ix' ix'' : ReadDependencyIndex} {t u : Nat} {rs : ActiveReadSet}
  {writes : List LockResource}

theorem SsiTxnState.Le.refl (a : SsiTxnState) : a.Le a := ⟨id, id, id⟩

theorem SsiTxnState.Le.trans {a b c : SsiTxnState} (h1 : a.Le b) (h2 : b.Le c) : a.Le c :=
  ⟨h2.1 ∘ h1.1, h2.2 ∘ h1.2, h2.3 ∘ h1.3⟩

theorem Remarks.refl (ix : ReadDependencyIndex) : Remarks ix ix :=
  ⟨fun _ h => h, fun _ rs h => ⟨rs.ssi, h, .refl _⟩⟩

theorem Remarks.trans (h1 : Remarks ix ix') (h2 : Remarks ix' ix'') : Remarks ix ix'' := by
  refine ⟨fun u hn => h2.absent u (h1.absent u hn), fun u rs hg => ?_⟩
  obtain ⟨ssi1, hg1, hle1⟩ := h1.present u rs hg
  obtain ⟨ssi2, hg2, hle2⟩ := h2.present u _ hg1
  exact ⟨ssi2, hg2, hle1.trans hle2⟩

theorem Remarks.ssiState_le (h : Remarks ix ix') (hg : ix.get t = some rs) : (ix.ssiState t).Le (ix'.ssiState t) := by
  obtain ⟨ssi, hg', hle⟩ := h.present t rs hg
  simp only [ssiState, hg, hg']
  exact hle

variable {f : SsiTxnState → SsiTxnState} {mark} {d : ReadDependency} {w : LockResource}

theorem markTxnState_remarks (hf : ∀ (s : SsiTxnState) e, s.Le { f s with ssiStateEpoch := e })
    (ix : ReadDependencyIndex) (t : Nat) : Remarks ix (ix.markTxnState t f).1 := by
  unfold markTxnState
  cases hg : ix.get t with
  | none => exact .refl ix
  | some rs =>
    have ht := txnId_of_get hg
    constructor
    · intro u hn
      have hu : u ≠ t := by rintro rfl; rw [hg] at hn; cases hn
      simpa [ht, hu] using hn
    · intro u rs1 hg1
      by_cases hu : u = t
      · subst hu
        obtain rfl := Option.some.inj (hg.symm.trans hg1)
        exact ⟨_, by simp [ht]; rfl, hf _ _⟩
      · exact ⟨rs1.ssi, by simpa [ht, hu] using hg1, .refl _⟩

section
variable (ix)

theorem conflictIn_remarks (t : Nat) : Remarks ix (ix.markTxnConflictIn t).1 :=
  markTxnState_remarks (by intro _ _; exact ⟨fun _ => rfl, id, id⟩) ix t

theorem conflictOut_remarks (t : Nat) : Remarks ix (ix.markTxnConflictOut t).1 :=
  markTxnState_remarks (by intro _ _; exact ⟨id, fun _ => rfl, id⟩) ix t

theorem dangerous_remarks (t : Nat) : Remarks ix (ix.markTxnDangerous t).1 :=
  markTxnState_remarks (by intro _ _; exact ⟨id, id, fun _ => rfl⟩) ix t

theorem coarseScan_remarks (t : Nat) : Remarks ix (ix.markTxnCoarseScanConflict t).1 :=
  markTxnState_remarks (by intro _ _; exact ⟨id, id, id⟩) ix t

end

theorem markIf_remarks (hm : ∀ ix t, Remarks ix (mark ix t).1) (conflict coarse : Bool) (ix : ReadDependencyIndex)
    (t : Nat) : Remarks ix (markIf mark conflict coarse ix t) := by
  unfold markIf
  split
  · dsimp only
    split
    · exact (hm ix t).trans (coarseScan_remarks _ t)
    · exact hm ix t
  · exact .refl ix

/-! ## Marking live readers -/

open ReadDependencyIndex in
theorem markRow_shape (writer : Nat) (writes : List LockResource) (rs : ActiveReadSet) (epoch : Nat)
    (effects : ActiveWriteConflictEffects) :
    ∃ ssi, (markRow writer writes rs epoch effects).1 = { rs with ssi } ∧ rs.ssi.Le ssi := by
  unfold markRow
  split
  · exact ⟨rs.ssi, rfl, .refl _⟩
  · split
    · exact ⟨rs.ssi, rfl, .refl _⟩
    · refine ⟨_, rfl, id, fun _ => rfl, fun h => ?_⟩
      simp [h]

open ReadDependencyIndex in
theorem lookup_markRows (writer : Nat) (writes : List LockResource) (rows : List ActiveReadSet)
    (epoch : Nat) (effects : ActiveWriteConflictEffects) (u : Nat) :
    match lookup ActiveReadSet.txnId u rows with
    | none => lookup ActiveReadSet.txnId u (markRows writer writes rows epoch effects).1 = none
    | some rs => ∃ ssi, lookup ActiveReadSet.txnId u (markRows writer writes rows epoch effects).1 =
        some { rs with ssi } ∧ rs.ssi.Le ssi := by
  induction rows generalizing epoch effects with
  | nil => rfl
  | cons r rows ih =>
    obtain ⟨ssi, hr, hle⟩ := markRow_shape writer writes r epoch effects
    simp only [markRows, lookup_cons, hr]
    by_cases hu : r.txnId = u
    · simp only [if_pos hu]
      exact ⟨ssi, rfl, hle⟩
    · simp only [if_neg hu]
      exact ih _ _

theorem markWriteConflicts_remarks (ix : ReadDependencyIndex) (writer : Nat) (writes : List LockResource) :
    Remarks ix (ix.markWriteConflicts writer writes).1 := by
  unfold markWriteConflicts
  split
  · exact .refl ix
  constructor
  · intro u hn
    have := lookup_markRows writer writes ix.txns ix.stateEpoch {} u
    rw [show lookup ActiveReadSet.txnId u ix.txns = none from hn] at this
    exact this
  · intro u rs hg
    have := lookup_markRows writer writes ix.txns ix.stateEpoch {} u
    rw [show lookup ActiveReadSet.txnId u ix.txns = some rs from hg] at this
    exact this

theorem firstConflictingRead_isSome (hd : d ∈ rs.dependencies)
    (hw : w ∈ writes) (hc : d.conflictsWithWrite w = true) : (rs.firstConflictingRead writes).isSome := by
  unfold ActiveReadSet.firstConflictingRead
  rw [List.isSome_findSome?, List.any_eq_true]
  refine ⟨d, hd, ?_⟩
  rw [Option.isSome_map, List.find?_isSome]
  exact ⟨w, hw, hc⟩

open ReadDependencyIndex in
/-- A live reader of what is written is noticed. -/
theorem markRows_conflictIn {writer epoch : Nat} {rows : List ActiveReadSet} {effects : ActiveWriteConflictEffects}
    (h : effects.writerHasConflictIn = true ∨
      ∃ rs ∈ rows, rs.txnId ≠ writer ∧ (rs.firstConflictingRead writes).isSome) :
    (markRows writer writes rows epoch effects).2.2.writerHasConflictIn = true := by
  induction rows generalizing epoch effects with
  | nil => simpa [markRows] using h
  | cons r rows ih =>
    refine ih ?_
    unfold markRow
    rcases h with h | ⟨rs, hm, hne, hs⟩
    · left
      split
      · exact h
      · split
        · exact h
        · rfl
    · rcases List.mem_cons.1 hm with rfl | hm
      · left
        obtain ⟨⟨d, w⟩, hdw⟩ := Option.isSome_iff_exists.1 hs
        rw [if_neg hne, hdw]
      · exact .inr ⟨rs, hm, hne, hs⟩

theorem markWriteConflicts_conflictIn (hg : ix.get u = some rs)
    (hut : u ≠ t) (hd : d ∈ rs.dependencies) (hw : w ∈ writes) (hc : d.conflictsWithWrite w = true) :
    (ix.markWriteConflicts t writes).2.writerHasConflictIn = true := by
  unfold markWriteConflicts
  rw [if_neg (List.ne_nil_of_mem hw)]
  refine markRows_conflictIn (.inr ⟨rs, mem_of_lookup hg, ?_, firstConflictingRead_isSome hd hw hc⟩)
  rw [txnId_of_get hg]
  exact hut

/-! ## What passing means -/

theorem ssiState_markTxnState (hg : ix.get t = some rs) :
    (ix.markTxnState t f).1.ssiState t = { f rs.ssi with ssiStateEpoch := ix.stateEpoch + 1 } ∧
      (ix.markTxnState t f).2 = { f rs.ssi with ssiStateEpoch := ix.stateEpoch + 1 } := by
  have ht := txnId_of_get hg
  simp [markTxnState, ssiState, hg, ht]

/-- The marked flag is set whether or not the scan marker is noted after it. -/
theorem markIf_flag {P : SsiTxnState → Prop} (hP : ∀ a b : SsiTxnState, a.Le b → P a → P b) (coarse : Bool)
    (hm : P ((mark ix t).1.ssiState t)) (hg : (mark ix t).1.get t = some rs) :
    P ((markIf mark true coarse ix t).ssiState t) := by
  unfold markIf
  rw [if_pos rfl]
  dsimp only
  split
  · exact hP _ _ ((coarseScan_remarks _ t).ssiState_le hg) hm
  · exact hm

theorem markIf_conflictOut (hg : ix.get t = some rs) (coarse : Bool) :
    ((markIf markTxnConflictOut true coarse ix t).ssiState t).rwConflictOut = true := by
  obtain ⟨ssi, hg', -⟩ := (conflictOut_remarks ix t).present t rs hg
  refine markIf_flag (P := fun s => s.rwConflictOut = true) (fun _ _ hle => hle.rwConflictOut) coarse ?_ hg'
  simp [markTxnConflictOut, ssiState_markTxnState hg]

theorem markIf_conflictIn (hg : ix.get t = some rs) (coarse : Bool) :
    ((markIf markTxnConflictIn true coarse ix t).ssiState t).rwConflictIn = true := by
  obtain ⟨ssi, hg', -⟩ := (conflictIn_remarks ix t).present t rs hg
  refine markIf_flag (P := fun s => s.rwConflictIn = true) (fun _ _ hle => hle.rwConflictIn) coarse ?_ hg'
  simp [markTxnConflictIn, ssiState_markTxnState hg]

section
variable {n : Nat} {summaries : CommittedTxnSummaryIndex n} {plan : CommitPlan}

theorem markConflicts_remarks (ix : ReadDependencyIndex) (summaries : CommittedTxnSummaryIndex n) (plan : CommitPlan)
    (writes : List LockResource) : Remarks ix (markConflicts ix summaries plan writes).1 :=
  (markIf_remarks conflictOut_remarks _ _ ix _).trans ((markIf_remarks conflictIn_remarks _ _ _ _).trans
      ((markWriteConflicts_remarks _ _ _).trans (markIf_remarks conflictIn_remarks _ _ _ _)))

section
variable (hg : ix.get plan.txnId = some rs)
include hg

theorem markConflicts_out
    (h : (summaries.firstWriteConflictForReads plan.readTs plan.frozenReadSet.dependencies).isSome) :
    ((markConflicts ix summaries plan writes).1.ssiState plan.txnId).rwConflictOut = true := by
  have h1 := markIf_conflictOut hg
    (isCoarse (summaries.firstWriteConflictForReads plan.readTs plan.frozenReadSet.dependencies))
  obtain ⟨ssi, hg1, -⟩ := (markIf_remarks conflictOut_remarks true
    (isCoarse (summaries.firstWriteConflictForReads plan.readTs plan.frozenReadSet.dependencies)) ix
    plan.txnId).present _ rs hg
  unfold markConflicts
  dsimp only
  rw [h]
  refine (Remarks.ssiState_le ?_ hg1).rwConflictOut h1
  exact (markIf_remarks conflictIn_remarks _ _ _ _).trans
    ((markWriteConflicts_remarks _ _ _).trans (markIf_remarks conflictIn_remarks _ _ _ _))

theorem markConflicts_in_of_committed (h : (summaries.firstReadConflictForWrites plan.readTs writes).isSome) :
    ((markConflicts ix summaries plan writes).1.ssiState plan.txnId).rwConflictIn = true := by
  unfold markConflicts
  dsimp only
  rw [h]
  obtain ⟨ssi1, hg1, -⟩ := (markIf_remarks conflictOut_remarks _ _ ix plan.txnId).present _ rs hg
  have h2 := markIf_conflictIn hg1 (isCoarse (summaries.firstReadConflictForWrites plan.readTs writes))
  obtain ⟨ssi2, hg2, -⟩ := (markIf_remarks conflictIn_remarks true _ _ plan.txnId).present _ _ hg1
  refine (Remarks.ssiState_le ?_ hg2).rwConflictIn h2
  exact (markWriteConflicts_remarks _ _ _).trans (markIf_remarks conflictIn_remarks _ _ _ _)

theorem markConflicts_in_of_active {rs' : ActiveReadSet} {d : ReadDependency} {w : LockResource}
    (hu : ix.get u = some rs') (hne : u ≠ plan.txnId)
    (hd : d ∈ rs'.dependencies) (hw : w ∈ writes) (hc : d.conflictsWithWrite w = true) :
    ((markConflicts ix summaries plan writes).1.ssiState plan.txnId).rwConflictIn = true := by
  unfold markConflicts
  dsimp only
  -- the marks before the scan of the live readers leave their dependencies alone
  have hrem := (markIf_remarks conflictOut_remarks
    (summaries.firstWriteConflictForReads plan.readTs plan.frozenReadSet.dependencies).isSome
    (isCoarse (summaries.firstWriteConflictForReads plan.readTs plan.frozenReadSet.dependencies))
    ix plan.txnId).trans
    (markIf_remarks conflictIn_remarks (summaries.firstReadConflictForWrites plan.readTs writes).isSome
      (isCoarse (summaries.firstReadConflictForWrites plan.readTs writes)) _ plan.txnId)
  obtain ⟨ssi, hu', -⟩ := hrem.present u rs' hu
  rw [markWriteConflicts_conflictIn hu' hne hd hw hc]
  obtain ⟨ssi', hg', -⟩ := (hrem.trans (markWriteConflicts_remarks _ plan.txnId writes)).present _ rs hg
  exact markIf_conflictIn hg' _

end

theorem checkPivot_remarks (ix : ReadDependencyIndex) (t : Nat) : Remarks ix (checkPivot ix t).1 := by
  unfold checkPivot
  dsimp only
  split
  · exact dangerous_remarks ix t
  · exact .refl ix

theorem checkPivot_dangerous (hg : ix.get t = some rs) (hin : (ix.ssiState t).rwConflictIn = true)
    (hout : (ix.ssiState t).rwConflictOut = true) : (checkPivot ix t).2.dangerousStructure = true := by
  simp [checkPivot, hin, hout, markTxnDangerous, ssiState_markTxnState hg]

theorem validateCommit_remarks (ix : ReadDependencyIndex) (summaries : CommittedTxnSummaryIndex n) (plan : CommitPlan)
    (writes : List LockResource) : Remarks ix (validateCommit ix summaries plan writes).1 := by
  unfold validateCommit
  dsimp only
  split
  · exact .refl ix
  · split <;> exact (markConflicts_remarks ix summaries plan writes).trans (checkPivot_remarks _ _)

/-- A serializable commit that passes has no incoming or no outgoing conflict. -/
theorem not_pivot_of_ok {out : SsiValidationOutcome} (hser : plan.isolation = .serializable)
    (hg : ix.get plan.txnId = some rs) (hok : (validateCommit ix summaries plan writes).2 = .ok out)
    (hin : ((markConflicts ix summaries plan writes).1.ssiState plan.txnId).rwConflictIn = true)
    (hout : ((markConflicts ix summaries plan writes).1.ssiState plan.txnId).rwConflictOut = true) : False := by
  obtain ⟨ssi, hg', -⟩ := (markConflicts_remarks ix summaries plan writes).present _ rs hg
  have hd := checkPivot_dangerous hg' hin hout
  unfold validateCommit at hok
  rw [if_neg (not_not.2 hser)] at hok
  dsimp only at hok
  rw [if_pos hd] at hok
  cases hok

end

end Paro.L2
