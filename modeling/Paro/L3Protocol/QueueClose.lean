import Paro.L2Machine.CommitRuntime

/-!
# A closed commit queue strands no commit

Runs of the commit runtime: jobs are submitted, a drain owner takes entries, blocks or defers some,
sequences batches and completes their entries, and any thread may poison the runtime between two of
its steps.

`stranded`: the drain looks at the poison only before it takes a buffer. An owner that holds a
buffer when the queue is closed may still defer or block its entries; they go into the closed queue,
the owner finds the runtime poisoned and leaves, and nobody completes their handles.

`close_strands_none`: nothing else strands a commit.

The proof counts handles: each one enqueued is in the queue, held by the owner, rejected by a close
or completed by the drain, and only in one of these places (`Inv.balance`).
-/
namespace Paro.L3.QueueClose
open L1 L2 CommitQueue CommitSequencer CommitRuntime List RejectedOrderedCommit Function CommitQueueEntry

inductive Lbl where
  | submit (job : PreparedCommitJob) (now : Nat)
  | acquire (maxBatches : Option Nat)
  | drain (env : DrainEnv)
  | poison

def step (policy : CommitBatchPolicy) (options : CommitSequencerOptions) (s : CommitRuntime) :
    Lbl → Option CommitRuntime
  | .submit job now => some (s.submitCommit policy job now)
  | .acquire maxBatches => s.tryAcquireDrainOwner maxBatches
  | .drain env => s.owner.map (s.drain policy options env)
  | .poison => some s.poison

def system (policy : CommitBatchPolicy) (options : CommitSequencerOptions) (nextCommitTs : Nat) :
    LTS CommitRuntime Lbl :=
  .ofStep { nextCommitTs } (step policy options)

/-- No entries are handed back to a closed queue. -/
def OpenHandBack (s : CommitRuntime) : Lbl → Prop
  | .drain env => s.queue.closed = true → ∀ o, s.owner = some o → s.handedBack env o = []
  | _ => True

/-! ## What the owner holds -/

def Action.held : Action → List CommitQueueEntry
  | .deferEntries es => es
  | .mark e _ => [e]
  | .remark _ _ | .poison => []

def held : Pc → List CommitQueueEntry
  | .top | .takePending | .takeLocal | .turn => []
  | .loop rest | .blocked rest | .deferring rest => rest
  | .consider batch e rest | .conflict batch e rest | .budget batch e rest | .record batch e rest => batch ++ e :: rest
  | .batch batch rest | .sequence batch rest => batch ++ rest
  | .acting todo rest => todo.flatMap Action.held ++ rest

/-- Handles completed again were completed before, by the drain. -/
def Remarks : List Nat → List Action → Prop
  | _, [] => True
  | drained, .mark e _ :: todo => Remarks (e.completion :: drained) todo
  | drained, .remark e _ :: todo => e.completion ∈ drained ∧ Remarks drained todo
  | drained, .deferEntries _ :: todo => Remarks drained todo
  | drained, .poison :: todo => Remarks drained todo

def todo : Pc → List Action
  | .acting todo _ => todo
  | _ => []

/-! ## A sequenced batch -/

section
variable {α : Type} (f : α → CommitQueueEntry) (g : α → CommitOutcome) (l : List α) (rest : List Action)

theorem held_marks : (l.map fun x => Action.mark (f x) (g x)).flatMap Action.held = l.map f := by
  induction l with
  | nil => rfl
  | cons x l ih => simp [Action.held] at ih ⊢; exact ih

theorem held_remarks : (l.map fun x => Action.remark (f x) (g x)).flatMap Action.held = [] := by
  induction l with
  | nil => rfl
  | cons x l ih => simp [Action.held] at ih ⊢

variable {drained : List Nat}

theorem Remarks.mono {drained' : List Nat} {l : List Action} (h : Remarks drained l)
    (hsub : ∀ x ∈ drained, x ∈ drained') : Remarks drained' l := by
  induction l generalizing drained drained' with
  | nil => trivial
  | cons a l ih =>
    cases a with
    | mark e o => exact ih (show Remarks (e.completion :: drained) l from h) (cons_subset_cons _ hsub)
    | remark e o => exact ⟨hsub _ h.1, ih h.2 hsub⟩
    | deferEntries es | poison => exact ih (show Remarks drained l from h) hsub

theorem Remarks.marks (h : Remarks (l.map (fun x => (f x).completion) ++ drained) rest) :
    Remarks drained (l.map (fun x => .mark (f x) (g x)) ++ rest) := by
  induction l generalizing drained with
  | nil => exact h
  | cons x l ih =>
    have hrest : Remarks (l.map (fun x => (f x).completion) ++ (f x).completion :: drained) rest :=
      h.mono fun y hy => by
        simp only [map_cons, cons_append, mem_cons, mem_append] at hy ⊢
        tauto
    exact ih hrest

theorem Remarks.remarks (hl : ∀ x ∈ l, (f x).completion ∈ drained)
    (h : Remarks drained rest) : Remarks drained (l.map (fun x => .remark (f x) (g x)) ++ rest) := by
  induction l with
  | nil => exact h
  | cons x l ih => exact ⟨hl x mem_cons_self, ih fun y hy => hl y (mem_cons_of_mem _ hy)⟩

end

theorem held_settle (deferred : List (OrderedCommitPlan CommitQueueEntry))
    (rejected : List (RejectedOrderedCommit CommitQueueEntry)) :
    (settle deferred rejected).flatMap Action.held =
      deferred.map OrderedCommitPlan.payload ++ rejected.map payload := by
  rw [settle, flatMap_cons, held_marks]; rfl

theorem Remarks.settle {drained : List Nat} {rest : List Action}
    (deferred : List (OrderedCommitPlan CommitQueueEntry)) (rejected : List (RejectedOrderedCommit CommitQueueEntry))
    (h : ∀ drained, Remarks drained rest) : Remarks drained (settle deferred rejected ++ rest) :=
  Remarks.marks _ _ rejected rest (h _)

variable (options : CommitSequencerOptions) (env : DrainEnv)

def offered (es : List CommitQueueEntry) : List (OrderedCommitPlan CommitQueueEntry) :=
  es.map fun e => ⟨e.job.sequencingPlan, e⟩

theorem payload_offered (es : List CommitQueueEntry) : (offered es).map OrderedCommitPlan.payload = es := by
  simp [offered, comp_def]

/-- Every entry of a batch is accepted, rejected or deferred. -/
theorem tally_fenced {base : Nat} {b : InFlightCommitBatch} {es : List CommitQueueEntry}
    {f : Fenced CommitQueueEntry} (hf : FencedOk base b (offered es) f) (h : Nat) :
    tally h es = tally h (f.accepted.map fun a => a.2.payload) + tally h (f.rejected.map payload) +
      tally h (f.deferred.map OrderedCommitPlan.payload) := by
  obtain ⟨handled, hplans, hshuffle⟩ := hf.split
  have hperm : es.Perm ((f.accepted.map fun a => a.2.payload) ++
      f.rejected.map payload ++ f.deferred.map OrderedCommitPlan.payload) := by
    have hp := (hshuffle.perm.append_right f.deferred).map OrderedCommitPlan.payload
    rw [← hplans, payload_offered] at hp
    simpa [comp_def, ordered] using hp
  rw [tally_perm h hperm, tally_append, tally_append]

theorem held_appendSuccess (scheduled : Bool)
    (b : CommitSequencerOrderedBatch (List SequencedCommitJob) CommitQueueEntry) :
    (handleAppendSuccess scheduled b).flatMap Action.held =
      b.deferred.map OrderedCommitPlan.payload ++ b.rejected.map payload ++ (b.appendOutput.getD []).map Prod.snd := by
  rw [handleAppendSuccess, flatMap_append, held_settle]
  cases b.appendOutput with
  | none => rfl
  | some jobs =>
    cases scheduled
    · simp [held_marks, held_remarks, Action.held]
    · simp [held_marks]

variable {drained : List Nat} {o' : CommitDrainOwner} {e : CommitQueueEntry} {s' : CommitRuntime}

/-- Only a batch the finalize stage refused completes handles again, those it made durable. -/
theorem Remarks.appendSuccess (scheduled : Bool)
    (b : CommitSequencerOrderedBatch (List SequencedCommitJob) CommitQueueEntry) :
    Remarks drained (handleAppendSuccess scheduled b) := by
  refine Remarks.settle _ _ fun drained => ?_
  cases b.appendOutput with
  | none => trivial
  | some jobs =>
    refine Remarks.marks _ _ jobs _ ?_
    cases scheduled
    · refine Remarks.remarks _ _ jobs [Action.poison] (fun job hjob => ?_) trivial
      exact mem_append_left _ (mem_map_of_mem hjob)
    · trivial

theorem held_appendError (rollback : CommitQueueEntry → Bool)
    (e : CommitSequencerOrderedError Unit SequencedCommitJob CommitQueueEntry) :
    (handleSequenceOrAppendError rollback e).flatMap Action.held =
      e.deferred.map OrderedCommitPlan.payload ++ e.rejected.map payload ++ e.accepted.map Prod.snd := by
  have hcleanup : (e.accepted.flatMap (cleanupAppendFailure rollback)).flatMap Action.held =
      e.accepted.map Prod.snd := by
    induction e.accepted with
    | nil => rfl
    | cons job jobs ih =>
      rw [flatMap_cons, flatMap_append, ih, cleanupAppendFailure]
      split <;> rfl
  rw [handleSequenceOrAppendError, flatMap_append, held_settle]
  split
  · rw [flatMap_cons, held_marks]; rfl
  · rw [hcleanup]

theorem Remarks.appendError (rollback : CommitQueueEntry → Bool)
    (e : CommitSequencerOrderedError Unit SequencedCommitJob CommitQueueEntry) :
    Remarks drained (handleSequenceOrAppendError rollback e) := by
  have hcleanup : ∀ drained, Remarks drained (e.accepted.flatMap (cleanupAppendFailure rollback)) := by
    induction e.accepted with
    | nil => exact fun _ => trivial
    | cons job jobs ih =>
      intro drained
      rw [flatMap_cons, cleanupAppendFailure]
      split <;> exact ih _
  refine Remarks.settle _ _ fun drained => ?_
  split
  · have h : Remarks drained (_ ++ []) := Remarks.marks Prod.snd (fun _ => .ambiguous .append) e.accepted [] trivial
    rwa [append_nil] at h
  · exact hcleanup drained

/-- What is to be done with a batch: one of the two handlers, for the outcome of the loop. -/
theorem sequence_cases (next : Nat) (es : List CommitQueueEntry) :
    ∃ f : Fenced CommitQueueEntry, FencedOk next {} (offered es) f ∧
      ((∃ b, (sequenceAppendSchedule options next env es).2 = handleAppendSuccess env.scheduled b ∧
          b.rejected = f.rejected ∧ b.deferred = f.deferred ∧
          (b.appendOutput.getD []).map Prod.snd = f.accepted.map fun a => a.2.payload) ∨
        ∃ e, (sequenceAppendSchedule options next env es).2 = handleSequenceOrAppendError env.rollback e ∧
          e.rejected = f.rejected ∧ e.deferred = f.deferred ∧
          e.accepted.map Prod.snd = f.accepted.map fun a => a.2.payload) := by
  refine ⟨fenceLoop options next env.elapsed env.finalFence 0 {} (offered es), fenceLoop_ok 0 {} _, ?_⟩
  simp only [sequenceAppendSchedule, sequenceOrderedBatch]
  rw [← offered]
  generalize fenceLoop options next env.elapsed env.finalFence 0 {} (offered es) = f
  by_cases hnil : f.accepted = []
  · rw [if_pos hnil]
    exact .inl ⟨_, rfl, rfl, rfl, by rw [hnil]; rfl⟩
  rw [if_neg hnil]
  cases env.append with
  | ok => exact .inl ⟨_, rfl, rfl, rfl, by simp [comp_def]⟩
  | appendFailed | durableCommitted => exact .inr ⟨_, rfl, rfl, rfl, by simp [comp_def]⟩

/-- What is to be done with a batch holds exactly its entries. -/
theorem held_sequence (next : Nat) (es : List CommitQueueEntry) (h : Nat) :
    tally h ((sequenceAppendSchedule options next env es).2.flatMap Action.held) = tally h es := by
  obtain ⟨f, hf, ⟨b, hb, hrej, hdef, hacc⟩ | ⟨e, he, hrej, hdef, hacc⟩⟩ := sequence_cases options env next es
  · rw [hb, held_appendSuccess, hrej, hdef, hacc, tally_fenced hf h]
    simp only [tally_append]
    omega
  · rw [he, held_appendError, hrej, hdef, hacc, tally_fenced hf h]
    simp only [tally_append]
    omega

theorem Remarks.sequence (next : Nat) (es : List CommitQueueEntry) :
    Remarks drained (sequenceAppendSchedule options next env es).2 := by
  obtain ⟨f, -, ⟨b, hb, -⟩ | ⟨e, he, -⟩⟩ := sequence_cases options env next es
  · rw [hb]; exact Remarks.appendSuccess _ _
  · rw [he]; exact Remarks.appendError _ _

/-! ## The invariant -/

def completedBy (s : CommitRuntime) (party : Party) : List Nat :=
  (s.completions.filter fun c => c.party = party).map Completion.handle

def ownerHeld (s : CommitRuntime) : List CommitQueueEntry :=
  match s.owner with
  | none => []
  | some o => held o.pc

section
variable (s : CommitRuntime)
include s

theorem completedBy_poison_close :
    completedBy s.poison .close = completedBy s .close ++ s.queue.allEntries.map completion := by
  have hfilter : ∀ l : List Nat, ((l.map fun h => (⟨h, .close, .rejected .runtimePoisoned⟩ : Completion)).filter
      fun c => c.party = .close).map Completion.handle = l := by
    intro l
    induction l with
    | nil => rfl
    | cons h l ih => simp at ih ⊢; exact ih
  rw [completedBy, poison, filter_append, map_append, closeAndDrainPending, hfilter]
  rfl

theorem completedBy_poison_drain : completedBy s.poison .drain = completedBy s .drain := by
  simp [completedBy, poison, closeAndDrainPending, filter_append]

theorem completedBy_complete_close (e : CommitQueueEntry) (outcome : CommitOutcome) :
    completedBy (s.complete e outcome) .close = completedBy s .close := by
  simp [completedBy, complete, filter_append]

theorem completedBy_complete_drain (e : CommitQueueEntry) (outcome : CommitOutcome) :
    completedBy (s.complete e outcome) .drain = completedBy s .drain ++ [e.completion] := by
  simp [completedBy, complete, filter_append]

end

/-- A closed queue is empty in `guarded` runs only: those that hand nothing back to it. -/
structure Inv (guarded : Prop) (s : CommitRuntime) : Prop where
  /-- every enqueued handle is in one place: in the queue, with the owner, or completed by one
  party -/
  balance : ∀ h, s.queue.holds h + tally h (ownerHeld s) + (completedBy s .close).count h +
    (if h ∈ completedBy s .drain then 1 else 0) = s.submitted.count h
  nodup : s.submitted.Nodup
  fresh : ∀ h ∈ s.submitted, h ≤ s.nextSlotId
  active : s.queue.drainOwnerActive = s.owner.isSome
  closed : guarded ∧ s.queue.closed = true → ∀ h, s.queue.holds h = 0
  remarks : ∀ o, s.owner = some o → Remarks (completedBy s .drain) (todo o.pc)

variable {s : CommitRuntime} {o : CommitDrainOwner} {options : CommitSequencerOptions} {env : DrainEnv}
  {policy : CommitBatchPolicy} {guarded : Prop}

theorem ownerHeld_eq (ho : s.owner = some o) : ownerHeld s = held o.pc := by rw [ownerHeld, ho]

theorem Inv.count_le_one (h : Inv guarded s) (x : Nat) : s.submitted.count x ≤ 1 :=
  nodup_iff_count_le_one.1 h.nodup x

theorem inv_init (nextCommitTs : Nat) : Inv guarded { nextCommitTs } where
  balance := fun _ => rfl
  nodup := .nil
  fresh := fun _ h => absurd h not_mem_nil
  active := rfl
  closed := fun h => absurd h.2 Bool.false_ne_true
  remarks := fun _ h => by cases h

section
variable (h : Inv guarded s)
include h

/-- The owner moves entries between the queue and itself. -/
theorem Inv.move {q : CommitQueue} {next : Nat} {given taken : List CommitQueueEntry}
    (ho : s.owner = some o) (hq : Moves s.queue q given taken)
    (hheld : ∀ x, tally x (held o'.pc) + tally x given = tally x (held o.pc) + tally x taken)
    (hback : guarded ∧ s.queue.closed = true → given = []) (hmarks : Remarks (completedBy s .drain) (todo o'.pc)) :
    Inv guarded { s with queue := q, nextCommitTs := next, owner := some o' } where
  __ := h
  balance := fun x => by
    have hb := h.balance x
    have hx := hheld x
    have hq' := hq.holds x
    rw [ownerHeld_eq ho] at hb
    change q.holds x + tally x (held o'.pc) + (completedBy s .close).count x +
      (if x ∈ completedBy s .drain then 1 else 0) = s.submitted.count x
    omega
  active := by rw [hq.active, h.active, ho]; rfl
  closed := fun hc x => by
    have hclosed : guarded ∧ s.queue.closed = true := ⟨hc.1, hq.closed ▸ hc.2⟩
    have hq' := hq.holds x
    rw [hback hclosed, h.closed hclosed x, tally_nil] at hq'
    exact (Nat.add_eq_zero_iff.1 hq').1
  remarks := by rintro _ rfl'; cases rfl'; exact hmarks

theorem Inv.goto {o' : CommitDrainOwner} {pc : Pc} (ho : s.owner = some o)
    (hheld : ∀ x, tally x (held pc) = tally x (held o.pc)) (htodo : todo pc = []) : Inv guarded (s.goto o' pc) :=
  h.move ho (.refl _) (fun x => by rw [hheld x]) (fun _ => rfl) (by rw [htodo]; trivial)

/-- An owner that holds nothing leaves. -/
theorem Inv.release (ho : s.owner = some o) (hheld : held o.pc = []) : Inv guarded s.release where
  __ := h
  balance := fun x => by
    have hb := h.balance x
    simp only [ownerHeld, ho, hheld] at hb
    exact hb
  active := rfl
  remarks := fun _ h => by cases h

theorem inv_poison : Inv guarded s.poison where
  __ := h
  balance := fun x => by
    have hb := h.balance x
    rw [completedBy_poison_close, completedBy_poison_drain, count_append]
    -- what the close rejects is what the queue held
    change 0 + tally x (ownerHeld s) + (_ + s.queue.holds x) + _ = s.submitted.count x
    omega
  closed := fun _ _ => rfl
  remarks := fun o ho => by rw [completedBy_poison_drain]; exact h.remarks o ho

/-- The drain completes a handle, and the balance still holds. -/
theorem Inv.completed (ho : s.owner = some o) (outcome : CommitOutcome)
    (hbalance : ∀ x, s.queue.holds x + tally x (held o'.pc) + (completedBy s .close).count x +
      (if x ∈ completedBy s .drain ++ [e.completion] then 1 else 0) = s.submitted.count x)
    (hmarks : Remarks (completedBy s .drain ++ [e.completion]) (todo o'.pc)) :
    Inv guarded { s.complete e outcome with owner := some o' } where
  __ := h
  balance := fun x => by
    have hb := hbalance x
    rw [← completedBy_complete_drain s e outcome, ← completedBy_complete_close s e outcome] at hb
    exact hb
  active := h.active.trans (by rw [ho]; rfl)
  remarks := by
    rintro _ ⟨⟩
    rw [← completedBy_complete_drain s e outcome] at hmarks
    exact hmarks

/-- The drain completes an entry the owner holds. -/
theorem Inv.complete {o' : CommitDrainOwner} {e : CommitQueueEntry} (ho : s.owner = some o) (outcome : CommitOutcome)
    (hheld : ∀ x, tally x (held o.pc) = (if e.completion = x then 1 else 0) + tally x (held o'.pc))
    (hmarks : Remarks (completedBy s .drain ++ [e.completion]) (todo o'.pc)) :
    Inv guarded { s.complete e outcome with owner := some o' } := by
  refine h.completed ho outcome (fun x => ?_) hmarks
  have hb := h.balance x
  have hle := h.count_le_one x
  rw [ownerHeld_eq ho, hheld x] at hb
  by_cases hx : e.completion = x
  · -- the owner held it, so nobody had completed it
    subst hx
    have hin : e.completion ∈ completedBy s .drain ++ [e.completion] := by simp
    rw [if_pos hin]
    rw [if_pos rfl] at hb
    split at hb <;> omega
  · have hiff : x ∈ completedBy s .drain ++ [e.completion] ↔ x ∈ completedBy s .drain := by
      simp [Ne.symm hx]
    rw [if_neg hx] at hb
    simp only [hiff]
    omega

/-- The drain completes an entry again. -/
theorem Inv.recomplete (ho : s.owner = some o) (outcome : CommitOutcome)
    (hin : e.completion ∈ completedBy s .drain) (hheld : ∀ x, tally x (held o.pc) = tally x (held o'.pc))
    (hmarks : Remarks (completedBy s .drain) (todo o'.pc)) :
    Inv guarded { s.complete e outcome with owner := some o' } := by
  refine h.completed ho outcome (fun x => ?_) (hmarks.mono fun x hx => mem_append_left _ hx)
  have hb := h.balance x
  rw [ownerHeld_eq ho, hheld x] at hb
  have hiff : x ∈ completedBy s .drain ++ [e.completion] ↔ x ∈ completedBy s .drain := by
    simp only [mem_append, mem_singleton, or_iff_left_iff_imp]
    rintro rfl
    exact hin
  simp only [hiff]
  exact hb

/-! ## Steps -/

theorem inv_submit (job : PreparedCommitJob) (now : Nat) : Inv guarded (s.submitCommit policy job now) := by
  simp only [submitCommit]
  split
  · exact { h with fresh := fun x hx => Nat.le_succ_of_le (h.fresh x hx) }
  rename_i q hq
  obtain ⟨hopen, hm⟩ := moves_enqueue _ policy hq
  have hnew : s.nextSlotId + 1 ∉ s.submitted := fun hin => Nat.not_succ_le_self _ (h.fresh _ hin)
  refine ⟨fun x => ?_, by simpa using List.Nodup.concat hnew h.nodup,
    forall_mem_append.2 ⟨fun x hx => Nat.le_succ_of_le (h.fresh x hx), forall_mem_singleton.2 le_rfl⟩,
    hm.active.trans h.active, fun hc => ?_, h.remarks⟩
  · have hb := h.balance x
    have hq' := hm.holds x
    simp only [tally_nil, tally_cons] at hq'
    change q.holds x + tally x (ownerHeld s) + (completedBy s .close).count x +
      (if x ∈ completedBy s .drain then 1 else 0) = (s.submitted ++ [s.nextSlotId + 1]).count x
    rw [count_append, count_singleton]
    simp only [beq_iff_eq]
    omega
  · have hclosed := hc.2
    rw [hm.closed, hopen] at hclosed
    cases hclosed

theorem inv_acquire {maxBatches : Option Nat} (hs : s.tryAcquireDrainOwner maxBatches = some s') : Inv guarded s' := by
  unfold tryAcquireDrainOwner at hs
  split at hs
  · cases hs
  rename_i hfree
  cases hs
  have hnone : s.owner = none := by
    have := h.active
    rw [Bool.eq_false_iff.2 hfree] at this
    exact Option.not_isSome_iff_eq_none.1 (by rw [← this]; exact Bool.false_ne_true)
  refine ⟨fun x => ?_, h.nodup, h.fresh, rfl, h.closed, ?_⟩
  · have hb := h.balance x
    rw [ownerHeld, hnone] at hb
    exact hb
  · rintro _ ⟨⟩
    trivial

/-- One action on a sequenced batch. -/
theorem inv_perform {action : Action} {rest : List CommitQueueEntry} {actions : List Action}
    (ho : s.owner = some o) (hpc : o.pc = .acting (action :: actions) rest)
    (hback : guarded ∧ s.queue.closed = true → ∀ es, action = .deferEntries es → es = []) :
    Inv guarded ((s.perform action).goto o (.acting actions rest)) := by
  have hmarks : Remarks (completedBy s .drain) (action :: actions) := by
    have := h.remarks o ho
    rwa [hpc] at this
  have hheld : ∀ x, tally x (held o.pc) = tally x (Action.held action) + tally x (held (.acting actions rest)) := by
    intro x
    rw [hpc]
    simp only [held, flatMap_cons, tally_append]
    omega
  cases action with
  | deferEntries es =>
    refine h.move ho (moves_deferEntries _ es) (fun x => ?_) (fun hc => hback hc es rfl) hmarks
    have hx := hheld x
    simp only [Action.held, tally_nil] at hx ⊢
    omega
  | mark e outcome =>
    have hrest : Remarks (e.completion :: completedBy s .drain) actions := hmarks
    refine h.complete ho outcome (fun x => ?_) (hrest.mono fun x hx => ?_)
    · rw [hheld x]; simp [Action.held]
    · rcases mem_cons.1 hx with rfl | hx
      · simp
      · exact mem_append_left _ hx
  | remark e outcome =>
    refine h.recomplete ho outcome hmarks.1 (fun x => ?_) hmarks.2
    rw [hheld x]; simp [Action.held]
  | poison =>
    refine (inv_poison h).move ho (.refl _) (fun x => ?_) (fun _ => rfl) ?_
    · have hx := hheld x
      simp only [Action.held, tally_nil] at hx ⊢
      omega
    · rw [completedBy_poison_drain]; exact hmarks

end

variable (batch rest : List CommitQueueEntry)

theorem held_refused (e : CommitQueueEntry) (x : Nat) :
    tally x (held (refused batch e rest)) = tally x (batch ++ e :: rest) := by
  unfold refused
  split
  · rename_i hnil
    rw [hnil]; rfl
  · rfl

theorem todo_refused (e : CommitQueueEntry) : todo (refused batch e rest) = [] := by
  unfold refused
  split <;> rfl

theorem inv_drain (h : Inv guarded s) (ho : s.owner = some o)
    (hback : guarded ∧ s.queue.closed = true → s.handedBack env o = []) :
    Inv guarded (s.drain policy options env o) := by
  unfold CommitRuntime.drain
  obtain ⟨_, _, _, pc⟩ := o
  cases pc with
  | top =>
    dsimp only
    split
    · exact h.goto ho (fun _ => rfl) rfl
    · exact h.release ho rfl
  | takePending =>
    dsimp only
    split
    · rename_i es q hq
      exact h.move ho (moves_takeReadyPendingFence _ policy hq) (fun x => by simp [held]) (fun _ => rfl) trivial
    · exact h.goto ho (fun _ => rfl) rfl
  | takeLocal =>
    have hm := moves_takeLocalBuffer s.queue policy.effectiveTargetBatchSize
    dsimp only
    split
    · rename_i hnil
      rw [hnil] at hm
      have h' : Inv guarded
          { s with queue := (s.queue.takeLocalBuffer policy.effectiveTargetBatchSize).2, owner := _ } :=
        h.move ho hm (fun x => rfl) (fun _ => rfl) trivial
      exact h'.release rfl rfl
    · exact h.move ho hm (fun x => by simp [held]) (fun _ => rfl) trivial
  | loop rest =>
    cases rest with
    | nil => exact h.goto ho (fun _ => rfl) rfl
    | cons e rest =>
      dsimp only
      split
      · exact h.complete ho _ (fun x => by simp [held]) trivial
      · exact h.goto ho (fun _ => rfl) rfl
  | consider batch e rest =>
    dsimp only
    split
    · rename_i hblock
      refine h.move ho (moves_blockOnFence _ policy _ [e]) (fun x => ?_) (fun hc => ?_) ?_
      · split <;> simp_all [held] <;> omega
      · exact absurd (hback hc) (by simp [handedBack, hblock])
      · split <;> trivial
    split
    · exact h.goto ho (fun _ => rfl) rfl
    · exact h.goto ho (fun x => by simp [held]) rfl
  | conflict batch e rest =>
    dsimp only
    split
    · exact h.goto ho (fun x => by rw [held_refused]; rfl) (todo_refused _ _ _)
    · exact h.goto ho (fun _ => rfl) rfl
  | budget batch e rest =>
    dsimp only
    split
    · exact h.goto ho (fun _ => rfl) rfl
    · exact h.goto ho (fun x => by rw [held_refused]; rfl) (todo_refused _ _ _)
  | record batch e rest =>
    exact h.move ho (moves_recordSnapshotBypass _ policy) (fun x => by simp [held]) (fun _ => rfl) trivial
  | blocked rest =>
    dsimp only
    split <;> exact h.goto ho (fun _ => rfl) rfl
  | deferring rest =>
    refine h.move ho (moves_deferEntries _ rest) (fun x => ?_) (fun hc => ?_) trivial
    · simp [held]
    · have := hback hc
      simpa [handedBack] using this
  | batch batch rest =>
    cases rest with
    | nil => exact h.goto ho (fun _ => rfl) rfl
    | cons e rest =>
      dsimp only
      split <;> exact h.goto ho (fun _ => rfl) rfl
  | sequence batch rest =>
    have hheld : ∀ x, tally x
        (held (.acting (sequenceAppendSchedule options s.nextCommitTs env batch).2 rest)) =
          tally x (batch ++ rest) := by
      intro x
      simp only [held, tally_append, held_sequence]
    exact h.move ho (.refl _) (fun x => congrArg (· + tally x []) (hheld x)) (fun _ => rfl) (Remarks.sequence _ _ _ _)
  | acting actions rest =>
    cases actions with
    | nil => exact h.goto ho (fun _ => rfl) rfl
    | cons action actions =>
      refine inv_perform h ho rfl fun hc es hes => ?_
      have := hback hc
      simpa [handedBack, hes] using this
  | turn =>
    dsimp only
    split
    · exact h.release ho rfl
    split
    · exact h.release ho rfl
    · exact h.goto ho (fun _ => rfl) rfl

theorem inv_step {l : Lbl} (h : Inv guarded s) (hg : guarded → OpenHandBack s l)
    (hs : step policy options s l = some s') : Inv guarded s' := by
  cases l with
  | submit job now => cases hs; exact inv_submit h job now
  | acquire maxBatches => exact inv_acquire h hs
  | drain env =>
    obtain ⟨o, ho, rfl⟩ := Option.map_eq_some_iff.1 hs
    exact inv_drain h ho fun hc => hg hc.1 hc.2 o ho
  | poison => cases hs; exact inv_poison h

/-! ## Results -/

/-- Nothing is left in the queue, every enqueued handle was completed, and no handle was completed
by both the drain and the close. -/
structure NoneStranded (s : CommitRuntime) : Prop where
  empty : s.queue.allEntries = []
  completed : ∀ h ∈ s.submitted, ∃ c ∈ s.completions, c.handle = h
  once : ∀ c ∈ s.completions, ∀ c' ∈ s.completions, c.handle = c'.handle → c.party = c'.party

theorem mem_completedBy {c : Completion} (hc : c ∈ s.completions) : c.handle ∈ completedBy s c.party :=
  mem_map_of_mem (mem_filter.2 ⟨hc, decide_eq_true rfl⟩)

theorem exists_of_mem_completedBy {h : Nat} {party : Party} (hh : h ∈ completedBy s party) :
    ∃ c ∈ s.completions, c.handle = h := by
  obtain ⟨c, hc, rfl⟩ := mem_map.1 hh
  exact ⟨c, (mem_filter.1 hc).1, rfl⟩

theorem Inv.noneStranded (h : Inv guarded s) (hempty : ∀ x, s.queue.holds x = 0)
    (hidle : s.queue.drainOwnerActive = false) : NoneStranded s := by
  have hnone : s.owner = none := by
    have hact := h.active
    rw [hidle] at hact
    exact Option.not_isSome_iff_eq_none.1 (by rw [← hact]; exact Bool.false_ne_true)
  have hheld : ownerHeld s = [] := by rw [ownerHeld, hnone]
  refine ⟨?_, fun x hx => ?_, fun c hc c' hc' heq => ?_⟩
  · refine eq_nil_iff_forall_not_mem.2 fun e he => ?_
    have hzero : tally e.completion s.queue.allEntries = 0 := hempty _
    exact count_eq_zero.1 hzero (mem_map_of_mem he)
  · have hb := h.balance x
    rw [hempty x, hheld, tally_nil] at hb
    have hpos : 0 < s.submitted.count x := count_pos_iff.2 hx
    by_cases hdrain : x ∈ completedBy s .drain
    · exact exists_of_mem_completedBy hdrain
    · rw [if_neg hdrain] at hb
      exact exists_of_mem_completedBy (count_pos_iff.1 (show 0 < (completedBy s .close).count x by omega))
  · -- a handle with both parties would be counted twice
    have hboth : ∀ x, x ∈ completedBy s .drain → x ∈ completedBy s .close → False := by
      intro x hd hcl
      have hb := h.balance x
      have hle := h.count_le_one x
      have hpos := count_pos_iff.2 hcl
      rw [if_pos hd] at hb
      omega
    have hin := mem_completedBy hc
    have hin' := mem_completedBy hc'
    rw [heq] at hin
    cases hp : c.party with
    | drain =>
      cases hp' : c'.party with
      | drain => rfl
      | close => exact (hboth _ (hp ▸ hin) (hp' ▸ hin')).elim
    | close =>
      cases hp' : c'.party with
      | drain => exact (hboth _ (hp' ▸ hin') (hp ▸ hin)).elim
      | close => rfl

/-- **A closed queue strands no commit, when nothing is handed back to it.** In every run in which
no step hands entries back to a closed queue, a closed queue without a drain owner is empty, has
completed every handle that was enqueued, and none by both the drain and the close. -/
theorem close_strands_none (nextCommitTs : Nat)
    (h : ((system policy options nextCommitTs).guard OpenHandBack).Reachable s)
    (hclosed : s.queue.closed = true) (hidle : s.queue.drainOwnerActive = false) : NoneStranded s := by
  have hinv : ((system policy options nextCommitTs).guard OpenHandBack).Invariant (Inv True) :=
    ⟨by rintro s rfl; exact inv_init nextCommitTs, fun _ _ _ h hs => inv_step h (fun _ => hs.1) hs.2⟩
  have hs := hinv.reachable h
  exact hs.noneStranded (hs.closed ⟨trivial, hclosed⟩) hidle

/-- **No commit is forgotten.** When the queue is empty and nobody drains it, every handle that was
enqueued was completed. -/
theorem idle_runtime_completed (nextCommitTs : Nat) : (system policy options nextCommitTs).Always fun s =>
    s.queue.allEntries = [] → s.queue.drainOwnerActive = false → NoneStranded s := by
  have hinv : (system policy options nextCommitTs).Invariant (Inv False) :=
    ⟨by rintro s rfl; exact inv_init nextCommitTs, fun _ _ _ h hs => inv_step h False.elim hs⟩
  refine hinv.always fun s h hempty hidle => h.noneStranded (fun x => ?_) hidle
  rw [CommitQueue.holds, hempty, tally_nil]

/-! ## Concrete runs -/

instance (s : CommitRuntime) : (l : Lbl) → Decidable (OpenHandBack s l)
  | .drain env => inferInstanceAs
      (Decidable (s.queue.closed = true → ∀ o, s.owner = some o → s.handedBack env o = []))
  | .submit _ _ => inferInstanceAs (Decidable True)
  | .acquire _ => inferInstanceAs (Decidable True)
  | .poison => inferInstanceAs (Decidable True)

def writerOf (t row : Nat) : PreparedCommitJob :=
  { sequencingPlan := { plan := ⟨t, 1, .snapshot, {}⟩, writeSet := [.rowId ⟨1, 1⟩ 1 1 1 0 row] } }

def takeTwo : List Lbl :=
  [.submit (writerOf 1 7) 0, .submit (writerOf 2 8) 0, .acquire none, .drain {}, .drain {}, .drain {}]

/-- A group commit takes one plan, the other is deferred. The runtime is poisoned after the owner
took its buffer: the second entry is deferred into the closed queue, the owner leaves, and its
handle is never completed. -/
theorem stranded :
    ∃ s, (system {} ⟨1, 1000⟩ 1).Reachable s ∧ s.queue.closed = true ∧
      s.queue.drainOwnerActive = false ∧ 2 ∈ s.submitted ∧ (∀ c ∈ s.completions, c.handle ≠ 2) ∧
      s.queue.deferredEntries.map completion = [2] ∧ ¬ NoneStranded s := by
  have hrun : ∃ s, (system {} ⟨1, 1000⟩ 1).Reachable s ∧ (s.queue.closed = true ∧
      s.queue.drainOwnerActive = false ∧ 2 ∈ s.submitted ∧ (∀ c ∈ s.completions, c.handle ≠ 2) ∧
      s.queue.deferredEntries.map completion = [2]) :=
    LTS.reachable_of_exec (takeTwo ++ [.poison] ++ replicate 12 (.drain {})) (by decide)
  obtain ⟨s, hr, hclosed, hidle, hsub, hnot, hdef⟩ := hrun
  refine ⟨s, hr, hclosed, hidle, hsub, hnot, hdef, fun h => ?_⟩
  obtain ⟨c, hc, hh⟩ := h.completed 2 hsub
  exact hnot c hc hh

/-- The same jobs when the runtime is poisoned while the second entry is back in the queue: the
drain made the first durable and the close rejects the second. -/
theorem close_strands_none_deferred :
    ∃ s, ((system {} ⟨1, 1000⟩ 1).guard OpenHandBack).Reachable s ∧ s.submitted = [1, 2] ∧
      s.completions = [⟨1, .drain, .durable 1⟩, ⟨2, .close, .rejected .runtimePoisoned⟩] ∧
      NoneStranded s := by
  have hrun : ∃ s, ((system {} ⟨1, 1000⟩ 1).guard OpenHandBack).Reachable s ∧ (s.submitted = [1, 2] ∧
        s.completions = [⟨1, .drain, .durable 1⟩, ⟨2, .close, .rejected .runtimePoisoned⟩] ∧
        s.queue.closed = true ∧ s.queue.drainOwnerActive = false) :=
    LTS.reachable_of_exec_guard (takeTwo ++ replicate 11 (.drain {}) ++ [.poison] ++ replicate 1 (.drain {}))
      (by decide)
  obtain ⟨s, hr, hsub, hcom, hclosed, hidle⟩ := hrun
  exact ⟨s, hr, hsub, hcom, close_strands_none 1 hr hclosed hidle⟩

end Paro.L3.QueueClose
