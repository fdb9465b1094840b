import Paro.L2Machine.TransactionManager
import Paro.L3Protocol.ConflictScan

/-!
# Collecting the conflict history

Runs of the transaction manager: transactions begin read-only, are promoted, frozen and released;
commits are registered at growing timestamps and then published; the horizon is advanced to the
published commit. A live read-write transaction needs every commit that its snapshot does not
see, and its snapshot ends one below its start time (`Retained`).

The horizon keeps less than that (`history_lost`):

* **Off by one.** The horizon stops at the start time of the oldest read-write transaction, and
  collection is inclusive, so the commit with exactly that timestamp is collected. The
  transaction sees only commits before it.
* **Promotion.** A read-only transaction holds nothing back. When it is promoted the horizon may
  already be past its start time.

`history_retained`: in runs where no commit is published at the start time of the oldest
read-write transaction when the horizon is advanced, and no transaction is promoted after the
horizon has passed a commit it does not see, nothing that is needed is collected.
-/
namespace Paro.L3.ConflictHistory
open L1 L2 List TransactionManager WriteConflictIndex ConflictScan ActiveTxnRegistry LTS

structure Registered where
  (commitTs txnId readTs : Nat)
  writes : List LockResource
  readSet : FrozenReadSet

def Registered.summary (c : Registered) : CommittedTxnSummary :=
  .new c.txnId c.readTs c.commitTs c.writes c.readSet

structure State (n m : Nat) where
  manager : TransactionManager n m
  /-- ghost: every registered commit, and the last timestamp -/
  registered : List Registered
  lastCommitTs : Nat

inductive Lbl where
  | beginTransaction
  | promote (t : Nat)
  | freeze (t : Nat)
  | release (t : Nat)
  | registerCommit (c : Registered)
  | publish (ts : Nat)
  | advanceConflictHorizon

variable {n m : Nat} (hash : ShardKey → Fin n) (txnHash : Nat → Fin m) (s : State n m)

def withRegistry (r : Except RegistryError ActiveTxnRegistry) : Option (State n m) :=
  match r with
  | .ok r => some { s with manager := { s.manager with activeRegistry := r } }
  | .error _ => none

def step : Lbl → Option (State n m)
  | .beginTransaction => some { s with manager := s.manager.beginTransaction.1 }
  | .promote t => withRegistry s (s.manager.activeRegistry.promoteSlot t)
  | .freeze t => withRegistry s (s.manager.activeRegistry.freeze t)
  | .release t => withRegistry s (s.manager.activeRegistry.releaseSlot t)
  | .registerCommit c =>
    if s.lastCommitTs < c.commitTs ∧ c.commitTs ≤ maxTransactionId then
      match s.manager.registerCommittedTransactionSummary hash txnHash c.commitTs c.txnId c.readTs
          c.writes c.readSet with
      | (x, .ok ()) => some ⟨x, s.registered ++ [c], c.commitTs⟩
      | (_, .error _) => none
    else none
  | .publish ts =>
    if ∃ c ∈ s.registered, c.commitTs = ts then some { s with manager := s.manager.publish ts }
    else none
  | .advanceConflictHorizon =>
    some { s with manager := s.manager.advanceConflictHorizon s.manager.publishedCommitId }

def lts (capacity : Nat) : LTS (State n m) Lbl :=
  .ofStep ⟨.new capacity, [], 0⟩ (step hash txnHash)

/-- Every entry of a commit is in the conflict index and its summary among the summaries. -/
def Present (x : TransactionManager n m) (c : Registered) : Prop :=
  (∀ w ∈ c.writes, ∀ p ∈ placementsForWrite hash w,
    ⟨c.commitTs, p.resource, p.kind⟩ ∈ (x.writeConflictIndex.shards p.shardIndex).entries) ∧
  c.summary ∈ (x.committedTxnSummaries.shards (txnHash c.txnId)).summaries

/-- Every live read-write transaction finds every commit that its snapshot does not see. -/
def Retained : Prop :=
  ∀ slot ∈ s.manager.activeRegistry.slots, slot.isReadWrite = true → ∀ c ∈ s.registered,
    visibleCommitTs slot < c.commitTs → Present hash txnHash s.manager c

/-- Steps that collect nothing a read-write transaction needs. -/
def Safe : Lbl → Prop
  | .advanceConflictHorizon =>
    ∀ slot ∈ s.manager.activeRegistry.slots, slot.isReadWrite = true →
      (∀ other ∈ s.manager.activeRegistry.slots, other.isReadWrite = true → slot.startTs ≤ other.startTs) →
      ∀ c ∈ s.registered, c.commitTs = slot.startTs → s.manager.publishedCommitId < c.commitTs
  | .promote t =>
    ∀ slot ∈ s.manager.activeRegistry.slots, slot.txnId = t → ∀ c ∈ s.registered,
      slot.startTs ≤ c.commitTs → s.manager.writeConflictIndex.conflictHorizon < c.commitTs
  | _ => True

instance (s : State n m) : (l : Lbl) → Decidable (Safe s l)
  | .advanceConflictHorizon => inferInstanceAs (Decidable (∀ slot ∈ s.manager.activeRegistry.slots, _))
  | .promote _ => inferInstanceAs (Decidable (∀ slot ∈ s.manager.activeRegistry.slots, _))
  | .beginTransaction | .freeze _ | .release _ | .registerCommit _ | .publish _ => .isTrue trivial

/-! ## The summaries -/

/-- The summaries in each shard are in commit order, and those above the horizon are there. -/
structure SummariesOk (ix : CommittedTxnSummaryIndex m) (registered : List Registered) : Prop where
  sorted : ∀ i, (ix.shards i).summaries.Pairwise fun a b => a.commitTs ≤ b.commitTs
  below : ∀ i, ∀ x ∈ (ix.shards i).summaries, ∃ c ∈ registered, x.commitTs = c.commitTs
  present : ∀ c ∈ registered, ix.conflictHorizon < c.commitTs →
    c.summary ∈ (ix.shards (txnHash c.txnId)).summaries

variable {hash txnHash} {ix ix' : CommittedTxnSummaryIndex m} {registered : List Registered}
  {c : Registered}

theorem SummariesOk.advance (h : SummariesOk txnHash ix registered) (target : Nat) :
    SummariesOk txnHash (ix.advanceHorizon target) registered := by
  refine ⟨fun i => (h.sorted i).sublist (dropWhile_sublist _), fun i x hx => ?_, fun c hc hlt => ?_⟩
  · exact h.below i x ((mem_dropWhile_of_sorted (h.sorted i)).1 hx).1
  · refine (mem_dropWhile_of_sorted (h.sorted _)).2 ⟨h.present c hc ?_, hlt⟩
    exact lt_of_le_of_lt (le_max_left _ _) hlt

theorem SummariesOk.register (h : SummariesOk txnHash ix registered)
    (hlast : ∀ c' ∈ registered, c'.commitTs ≤ c.commitTs) (hs : ∀ i, (ix'.shards i).summaries =
      if i = txnHash c.txnId then (ix.shards i).summaries ++ [c.summary] else (ix.shards i).summaries)
    (hh : ix'.conflictHorizon = ix.conflictHorizon) : SummariesOk txnHash ix' (registered ++ [c]) := by
  refine ⟨fun i => ?_, fun i x hx => ?_, fun c' hc' hlt => ?_⟩
  · rw [hs]
    split
    · rw [pairwise_append]
      refine ⟨h.sorted i, pairwise_singleton _ _, fun a ha b hb => ?_⟩
      obtain rfl := mem_singleton.1 hb
      obtain ⟨c', hc', hts⟩ := h.below i a ha
      rw [hts]
      exact hlast c' hc'
    · exact h.sorted i
  · rw [hs] at hx
    have hold : x ∈ (ix.shards i).summaries → ∃ c' ∈ registered ++ [c], x.commitTs = c'.commitTs := by
      intro hm
      obtain ⟨c', hc', hts⟩ := h.below i x hm
      exact ⟨c', mem_append_left _ hc', hts⟩
    split at hx
    · rcases mem_append.1 hx with hx | hx
      · exact hold hx
      · obtain rfl := mem_singleton.1 hx
        exact ⟨c, by simp, rfl⟩
    · exact hold hx
  · rw [hs]
    rcases mem_append.1 hc' with hc' | hc'
    · have := h.present c' hc' (hh ▸ hlt)
      split
      · exact mem_append_left _ this
      · exact this
    · obtain rfl := mem_singleton.1 hc'
      rw [if_pos rfl]
      exact mem_append_right _ (mem_singleton_self _)

/-! ## The invariant -/

def writesOf (registered : List Registered) : List (Nat × LockResource) :=
  registered.flatMap fun c => c.writes.map fun w => (c.commitTs, w)

variable (hash txnHash) in
structure Inv (s : State n m) : Prop where
  registry : s.manager.activeRegistry.WF
  ids : ∀ slot ∈ s.manager.activeRegistry.slots, slot.txnId < s.manager.currentTransactionId
  start : ∀ slot ∈ s.manager.activeRegistry.slots, slot.startTs = slot.readTs
  index : ConflictScan.Inv hash ⟨s.manager.writeConflictIndex, writesOf s.registered⟩
  summaries : SummariesOk txnHash s.manager.committedTxnSummaries s.registered
  upTo : s.manager.committedTxnSummaries.UpTo s.lastCommitTs
  durable : s.manager.writeConflictIndex.durableTs ≤ s.lastCommitTs
  last : ∀ c ∈ s.registered, c.commitTs ≤ s.lastCommitTs
  bounded : s.lastCommitTs ≤ maxTransactionId
  published : s.manager.publishedCommitId ≤ s.lastCommitTs
  horizon : s.manager.writeConflictIndex.conflictHorizon ≤ s.manager.publishedCommitId
  summaryHorizon : s.manager.committedTxnSummaries.conflictHorizon ≤
    s.manager.writeConflictIndex.conflictHorizon
  pinned : ∀ slot ∈ s.manager.activeRegistry.slots, slot.isReadWrite = true → ∀ c ∈ s.registered,
    slot.startTs ≤ c.commitTs → s.manager.writeConflictIndex.conflictHorizon < c.commitTs

theorem mem_writesOf {w : LockResource} (hc : c ∈ registered) (hw : w ∈ c.writes) :
    (c.commitTs, w) ∈ writesOf registered :=
  mem_flatMap.2 ⟨c, hc, mem_map_of_mem hw⟩

/-- What is above the horizon is present. -/
theorem Inv.present {s : State n m} (h : Inv hash txnHash s) (hc : c ∈ s.registered)
    (hlt : s.manager.writeConflictIndex.conflictHorizon < c.commitTs) : Present hash txnHash s.manager c := by
  refine ⟨fun w hw p hp => ?_, h.summaries.present c hc (lt_of_le_of_lt h.summaryHorizon hlt)⟩
  obtain rfl := resource_of_mem_placements hash hp
  exact (h.index.mem p.shardIndex ⟨c.commitTs, p.resource, p.kind⟩).2 ⟨mem_writesOf hc hw, hlt, hp⟩

variable {s s' : State n m} {capacity : Nat}

theorem Inv.retained (h : Inv hash txnHash s) : Retained hash txnHash s := by
  intro slot hs hrw c hc hvis
  refine h.present hc (h.pinned slot hs hrw c hc ?_)
  unfold visibleCommitTs at hvis
  omega

theorem inv_init : Inv hash txnHash ⟨.new capacity, [], 0⟩ where
  registry := wf_new capacity
  ids _ hs := absurd hs not_mem_nil
  start _ hs := absurd hs not_mem_nil
  index := ConflictScan.inv_init hash
  summaries := ⟨fun _ => .nil, fun _ _ hx => absurd hx not_mem_nil,
    fun _ hc => absurd hc not_mem_nil⟩
  upTo := ⟨le_rfl, fun _ => le_rfl⟩
  durable := le_rfl
  last _ hc := absurd hc not_mem_nil
  bounded := Nat.zero_le _
  published := le_rfl
  horizon := le_rfl
  summaryHorizon := le_rfl
  pinned _ hs := absurd hs not_mem_nil

/-- A registry step whose rows are those of before, and whose read-write rows were read-write or
need nothing below the horizon. -/
theorem inv_registry {r : Except RegistryError ActiveTxnRegistry} (h : Inv hash txnHash s)
    (hs : withRegistry s r = some s') (hr : ∀ r', r = .ok r' → r'.WF ∧
      ∀ slot ∈ r'.slots, ∃ old ∈ s.manager.activeRegistry.slots,
        SameTxn slot old ∧ (slot.isReadWrite = true → old.isReadWrite = true ∨
          ∀ c ∈ s.registered, old.startTs ≤ c.commitTs →
            s.manager.writeConflictIndex.conflictHorizon < c.commitTs)) : Inv hash txnHash s' := by
  unfold withRegistry at hs
  split at hs <;> cases hs
  obtain ⟨hwf, hslots⟩ := hr _ rfl
  refine { h with
    registry := hwf
    ids := fun slot hs => ?_
    start := fun slot hs => ?_
    pinned := fun slot hs hrw c hc hle => ?_ }
  · obtain ⟨old, hm, hsame, -⟩ := hslots slot hs
    rw [hsame.txnId]; exact h.ids old hm
  · obtain ⟨old, hm, hsame, -⟩ := hslots slot hs
    rw [hsame.startTs, hsame.readTs]; exact h.start old hm
  · obtain ⟨old, hm, hsame, hold⟩ := hslots slot hs
    rw [hsame.startTs] at hle
    rcases hold hrw with hold | hold
    · exact h.pinned old hm hold c hc hle
    · exact hold c hc hle

theorem inv_beginTransaction (h : Inv hash txnHash s) :
    Inv hash txnHash { s with manager := s.manager.beginTransaction.1 } := by
  have hids : ∀ slot ∈ s.manager.activeRegistry.slots, slot.txnId < s.manager.currentTransactionId + 1 :=
    fun slot hs => Nat.lt_succ_of_lt (h.ids slot hs)
  unfold beginTransaction
  dsimp only
  split
  · exact { h with ids := hids }
  · rename_i r hreg
    obtain ⟨hwf, hslots⟩ := h.registry.register (fun slot hs => (h.ids slot hs).ne) hreg
    have hall : ∀ P : ActiveTxnSlot → Prop, (∀ slot ∈ s.manager.activeRegistry.slots, P slot) → P _ →
        ∀ slot ∈ r.slots, P slot := fun P hold hnew slot hs => (hslots slot hs).elim (hold slot) (· ▸ hnew)
    exact { h with
      registry := hwf
      ids := hall _ hids (Nat.lt_succ_self _)
      start := hall _ h.start rfl
      pinned := hall _ h.pinned nofun }

theorem inv_publish {ts : Nat} (h : Inv hash txnHash s) (hc : c ∈ s.registered) (hts : c.commitTs = ts) :
    Inv hash txnHash { s with manager := s.manager.publish ts } :=
  { h with
    published := max_le h.published (hts ▸ h.last c hc)
    horizon := h.horizon.trans (le_max_left _ _) }

theorem le_of_le_candidate {w : ActiveTxnWatermarks} {published ts : Nat} (hmax : ts ≤ maxTransactionId)
    (h : ts ≤ horizonCandidate w published) : ts ≤ published ∧ ts ≤ w.oldestActiveRwReadTs := by
  unfold horizonCandidate at h
  split at h
  · rename_i hnone
    exact ⟨h, hnone ▸ hmax⟩
  · exact ⟨h.trans (min_le_left _ _), h.trans (min_le_right _ _)⟩

/-- A needed commit that the horizon would reach is at the start time of the oldest read-write
transaction. -/
theorem candidate_lt {slot : ActiveTxnSlot} (h : Inv hash txnHash s) (hsafe : Safe s .advanceConflictHorizon)
    (hs : slot ∈ s.manager.activeRegistry.slots) (hrw : slot.isReadWrite = true) (hc : c ∈ s.registered)
    (hle : slot.startTs ≤ c.commitTs) :
    horizonCandidate s.manager.activeRegistry.confirmedScanAndPublish.watermarks
      s.manager.publishedCommitId < c.commitTs := by
  obtain ⟨-, -, hbelow⟩ := h.registry.confirmedScan
  by_contra hge
  obtain ⟨hpub, hold⟩ := le_of_le_candidate ((h.last c hc).trans h.bounded) (not_lt.1 hge)
  have holdest : ∀ other ∈ s.manager.activeRegistry.slots, other.isReadWrite = true → c.commitTs ≤ other.startTs := by
    intro other hm horw
    rw [h.start other hm]
    exact hold.trans (hbelow other ⟨hm, horw⟩)
  have heq : c.commitTs = slot.startTs := le_antisymm (holdest slot hs hrw) hle
  have := hsafe slot hs hrw (fun other hm horw => heq ▸ holdest other hm horw) c hc heq
  omega

theorem inv_advance (h : Inv hash txnHash s) (hsafe : Safe s .advanceConflictHorizon) :
    Inv hash txnHash { s with manager :=
      s.manager.advanceConflictHorizon s.manager.publishedCommitId } := by
  obtain ⟨hwf, hslots, -⟩ := h.registry.confirmedScan
  have hcand : horizonCandidate
      s.manager.activeRegistry.confirmedScanAndPublish.watermarks s.manager.publishedCommitId ≤
        s.manager.publishedCommitId := by
    unfold horizonCandidate
    split
    · exact le_rfl
    · exact min_le_left _ _
  refine { h with
    registry := hwf
    ids := fun slot hs => h.ids slot (hslots ▸ hs)
    start := fun slot hs => h.start slot (hslots ▸ hs)
    index := ConflictScan.inv_advance hash h.index _
    summaries := h.summaries.advance _
    upTo := ⟨h.upTo.durable, h.upTo.last⟩
    horizon := max_le h.horizon hcand
    summaryHorizon := max_le (h.summaryHorizon.trans (le_max_left _ _)) le_rfl
    pinned := fun slot hs hrw c hc hle => ?_ }
  have hs : slot ∈ s.manager.activeRegistry.slots := hslots ▸ hs
  exact max_lt (h.pinned slot hs hrw c hc hle) (candidate_lt h hsafe hs hrw hc hle)

theorem writesOf_append : writesOf (registered ++ [c]) =
    writesOf registered ++ c.writes.map fun w => (c.commitTs, w) := by
  simp [writesOf]

/-- Registering a commit files its entries, and only those. -/
theorem index_register {ix : Index n} (h : ConflictScan.Inv hash ⟨ix, writesOf registered⟩)
    (hne : c.writes ≠ []) (hd : ix.durableTs ≤ c.commitTs) (hh : ix.conflictHorizon < c.commitTs) :
    ∃ ix' k, registerCommit hash ix c.commitTs c.writes = (ix', .ok k) ∧
      ConflictScan.Inv hash ⟨ix', writesOf (registered ++ [c])⟩ ∧ ix'.durableTs ≤ c.commitTs ∧
      ix'.conflictHorizon = ix.conflictHorizon := by
  obtain ⟨ix', hp, hdur, hhor, -, -⟩ := pushAll_spec ix c.commitTs
    (placementsForCommit hash c.writes) fun i => (h.last i).trans hd
  have hreg : ∃ k, registerCommit hash ix c.commitTs c.writes =
      ({ ix' with durableTs := max ix'.durableTs c.commitTs }, .ok k) := by
    unfold registerCommit
    rw [if_neg hne, if_neg (not_lt.2 hd), hp]
    exact ⟨_, rfl⟩
  obtain ⟨k, hreg⟩ := hreg
  refine ⟨_, k, hreg, ?_, max_le (hdur ▸ hd) le_rfl, hhor⟩
  rw [writesOf_append]
  exact inv_register hash h hh hreg

theorem inv_registerCommit {x : TransactionManager n m} (h : Inv hash txnHash s) (hts : s.lastCommitTs < c.commitTs)
    (hmax : c.commitTs ≤ maxTransactionId)
    (hreg : s.manager.registerCommittedTransactionSummary hash txnHash c.commitTs c.txnId c.readTs
      c.writes c.readSet = (x, .ok ())) : Inv hash txnHash ⟨x, s.registered ++ [c], c.commitTs⟩ := by
  have hhor : s.manager.writeConflictIndex.conflictHorizon < c.commitTs :=
    lt_of_le_of_lt (h.horizon.trans h.published) hts
  have hlast : ∀ c' ∈ s.registered, c'.commitTs ≤ c.commitTs := fun c' hc' => (h.last c' hc').trans hts.le
  obtain ⟨sums, hsum, hup, hsh, hshards⟩ := CommittedTxnSummaryIndex.registerCommit_upTo (x := c.summary)
    txnHash ⟨h.upTo.durable.trans hts.le, fun i => (h.upTo.last i).trans hts.le⟩
  -- the index after its part, whether or not anything was written
  have hindex : ∃ ix, x = { s.manager with
        writeConflictIndex := ix
        committedTxnSummaries := sums
        durableCommitId := max s.manager.durableCommitId c.commitTs } ∧
      ConflictScan.Inv hash ⟨ix, writesOf (s.registered ++ [c])⟩ ∧ ix.durableTs ≤ c.commitTs ∧
      ix.conflictHorizon = s.manager.writeConflictIndex.conflictHorizon := by
    have hnew : CommittedTxnSummary.new c.txnId c.readTs c.commitTs c.writes c.readSet = c.summary := rfl
    unfold registerCommittedTransactionSummary at hreg
    by_cases hne : c.writes = []
    · simp only [if_pos hne] at hreg
      rw [hnew, hsum] at hreg
      refine ⟨s.manager.writeConflictIndex, (congrArg Prod.fst hreg).symm, ?_, h.durable.trans hts.le, rfl⟩
      rw [writesOf_append, hne, map_nil, append_nil]
      exact h.index
    · obtain ⟨ix, k, hix, hinv, hd, hh⟩ := index_register h.index hne (h.durable.trans hts.le) hhor
      simp only [if_neg hne, hix] at hreg
      rw [hnew, hsum] at hreg
      exact ⟨ix, (congrArg Prod.fst hreg).symm, hinv, hd, hh⟩
  obtain ⟨ix, rfl, hinv, hd, hh⟩ := hindex
  refine { h with
    index := hinv
    summaries := h.summaries.register hlast hshards hsh
    upTo := hup
    durable := hd
    last := forall_mem_append.2 ⟨hlast, forall_mem_singleton.2 le_rfl⟩
    bounded := hmax
    published := h.published.trans hts.le
    horizon := hh ▸ h.horizon
    summaryHorizon := by rw [hsh, hh]; exact h.summaryHorizon
    pinned := fun slot hs hrw => ?_ }
  dsimp only
  rw [hh]
  exact forall_mem_append.2 ⟨h.pinned slot hs hrw, forall_mem_singleton.2 fun _ => hhor⟩

theorem inv_step {l : Lbl} (h : Inv hash txnHash s) (hsafe : Safe s l)
    (hs : step hash txnHash s l = some s') : Inv hash txnHash s' := by
  cases l with
  | beginTransaction => cases hs; exact inv_beginTransaction h
  | promote t =>
    refine inv_registry h hs fun r hr => ?_
    obtain ⟨hwf, hslots⟩ := h.registry.promoteSlot hr
    refine ⟨hwf, fun slot hm => ?_⟩
    obtain ⟨old, hold, hsame, hrw⟩ := hslots slot hm
    exact ⟨old, hold, hsame, fun hslot => (hrw hslot).imp_right fun ht => hsafe old hold ht⟩
  | freeze t =>
    refine inv_registry h hs fun r hr => ?_
    obtain ⟨hwf, hslots⟩ := h.registry.freeze hr
    refine ⟨hwf, fun slot hm => ?_⟩
    obtain ⟨old, hold, hsame, hrw⟩ := hslots slot hm
    exact ⟨old, hold, hsame, fun hslot => .inl (hrw hslot)⟩
  | release t =>
    refine inv_registry h hs fun r hr => ?_
    obtain ⟨hwf, hslots⟩ := h.registry.releaseSlot hr
    refine ⟨hwf, fun slot hm => ?_⟩
    obtain ⟨old, hold, hsame, hrw⟩ := hslots slot hm
    exact ⟨old, hold, hsame, fun hslot => .inl (hrw hslot)⟩
  | registerCommit c =>
    simp only [step] at hs
    split at hs
    · rename_i hts
      split at hs
      · rename_i x hreg
        cases hs
        exact inv_registerCommit h hts.1 hts.2 hreg
      · cases hs
    · cases hs
  | publish ts =>
    simp only [step] at hs
    split at hs
    · rename_i hc
      obtain ⟨c, hc, hts⟩ := hc
      cases hs
      exact inv_publish h hc hts
    · cases hs
  | advanceConflictHorizon => cases hs; exact inv_advance h hsafe

theorem inv_invariant (hash : ShardKey → Fin n) (txnHash : Nat → Fin m)
    (capacity : Nat) : ((lts hash txnHash capacity).guard Safe).Invariant (Inv hash txnHash) where
  init := by rintro s rfl; exact inv_init
  step := fun _ _ _ h hs => inv_step h hs.1 hs.2

/-- **Collection is safe under its conditions**: in every state that safe steps reach, every live
read-write transaction finds every registered commit that its snapshot does not see. -/
theorem history_retained (hs : ((lts hash txnHash capacity).guard Safe).Reachable s) :
    Retained hash txnHash s :=
  ((inv_invariant hash txnHash capacity).reachable hs).retained

def oneShard : ShardKey → Fin 1 := fun _ => Fin.last 0

def oneTxnShard : Nat → Fin 1 := fun _ => Fin.last 0

def tableCommit (ts : Nat) : Registered := ⟨ts, 9, 0, [.table ⟨0, 1⟩ 10], {}⟩

/-- Commit 1 is collected; commit 3, which the transaction does not see, is kept. -/
theorem history_retained_above_start :
    ∃ s, ((lts oneShard oneTxnShard 4).guard Safe).Reachable s ∧
      s.manager.writeConflictIndex.conflictHorizon = 2 ∧ s.registered.length = 2 ∧
      Retained oneShard oneTxnShard s := by
  have hrun : ∃ s, ((lts oneShard oneTxnShard 4).guard Safe).Reachable s ∧
      s.manager.writeConflictIndex.conflictHorizon = 2 ∧ s.registered.length = 2 :=
    reachable_of_exec_guard [.registerCommit (tableCommit 1), .publish 1, .beginTransaction,
      .promote transactionIdStart, .registerCommit (tableCommit 3), .publish 3, .advanceConflictHorizon] (by decide)
  obtain ⟨s, hr, hh, hl⟩ := hrun
  exact ⟨s, hr, hh, hl, history_retained hr⟩

/-! ## Runs that lose history -/

/-- Some live read-write transaction misses the summary of a commit it does not see. -/
def Missing (s : State n m) : Prop :=
  ∃ slot ∈ s.manager.activeRegistry.slots, slot.isReadWrite = true ∧ ∃ c ∈ s.registered,
    visibleCommitTs slot < c.commitTs ∧
      ∀ i, c.summary ∉ (s.manager.committedTxnSummaries.shards i).summaries

instance (s : State n m) : Decidable (Missing s) :=
  inferInstanceAs (Decidable (∃ slot ∈ s.manager.activeRegistry.slots, _))

theorem Missing.not_retained (h : Missing s) : ¬ Retained hash txnHash s := by
  obtain ⟨slot, hs, hrw, c, hc, hvis, hgone⟩ := h
  exact fun hret => hgone _ (hret slot hs hrw c hc hvis).2

/-- The transaction starts at 1 and does not see commit 1, where the horizon stops. -/
def offByOne : List Lbl :=
  [.beginTransaction, .promote transactionIdStart, .registerCommit (tableCommit 1), .publish 1]

/-- The transaction starts at 1; commit 2 is collected before it is promoted. -/
def latePromotion : List Lbl :=
  [.beginTransaction, .registerCommit (tableCommit 2), .publish 2, .advanceConflictHorizon, .promote transactionIdStart]

/-- After either run, an advance of the horizon leaves a live read-write transaction without a
commit that it does not see. -/
theorem history_lost :
    (∃ s s', (lts oneShard oneTxnShard 4).Reachable s ∧
      exec (step oneShard oneTxnShard) ⟨.new 4, [], 0⟩ offByOne = some s ∧
      step oneShard oneTxnShard s .advanceConflictHorizon = some s' ∧ ¬ Retained oneShard oneTxnShard s') ∧
    ∃ s s', (lts oneShard oneTxnShard 4).Reachable s ∧
      exec (step oneShard oneTxnShard) ⟨.new 4, [], 0⟩ latePromotion = some s ∧
      step oneShard oneTxnShard s .advanceConflictHorizon = some s' ∧
      ¬ Retained oneShard oneTxnShard s' := by
  have hlost : ∀ ls, (∃ s ∈ exec (step oneShard oneTxnShard) ⟨.new 4, [], 0⟩ ls,
      ∃ s' ∈ step oneShard oneTxnShard s .advanceConflictHorizon, Missing s') →
      ∃ s s', (lts oneShard oneTxnShard 4).Reachable s ∧ exec (step oneShard oneTxnShard) ⟨.new 4, [], 0⟩ ls = some s ∧
        step oneShard oneTxnShard s .advanceConflictHorizon = some s' ∧
        ¬ Retained oneShard oneTxnShard s' := by
    rintro ls ⟨s, hs, s', hs', hm⟩
    exact ⟨s, s', exec_reachable (.init rfl) hs, hs, hs', hm.not_retained⟩
  exact ⟨hlost offByOne (by decide), hlost latePromotion (by decide)⟩

end Paro.L3.ConflictHistory
