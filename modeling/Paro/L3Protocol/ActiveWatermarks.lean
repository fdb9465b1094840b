import Paro.Core.LTS
import Paro.L2Machine.ActiveTxnSlots

/-!
# Watermarks of the active transaction registry

Runs of registrations, promotions, freezes, releases and both kinds of scan, on any number
of shards and slots (crates/transaction/src/active.rs). What a step does to the cached
watermarks is one of three things (`Effect`): nothing, a change that advances the dirty
epoch, or a recomputation. Slots, free lists and the incremental counters stay right in
every run (`Inv`). A confirmed cache is the exact one as long as the 64-bit dirty epoch does
not come round to the confirmed one (`Exact`); `active_watermarks` puts the two together.

`confirmed_watermarks_stale` is a run in which it does come round: `confirmed_epoch` starts
as `u64::MAX`, so after `2 ^ 64 - 1` lifecycle changes without a scan the cache counts as
confirmed although it was never computed.
-/
namespace Paro.L3.ActiveWatermarks
open L2 ActiveTxnSlots List Function Registry Keyed Option
open L2.ActiveTxnRegistry (lower lowerRw uncount)

variable {n k : Nat}

/-! ## Runs -/

structure State (n k : Nat) where
  registry : Registry n k
  live : List (Handle n k)
  nextId : Nat

def State.init : State n k := ⟨.new, [], 0⟩

def State.infos (s : State n k) : List TxnInfo := s.live.map Handle.info

inductive Lbl
  | register (t readTs startTs : Nat) (readWrite : Bool)
  | tryRegisterOnShard (shard t readTs startTs : Nat) (readWrite : Bool)
  | promote (id : Nat)
  | freeze (id : Nat)
  | release (id : Nat)
  | refreshWatermarks
  | confirmedWatermarks
deriving DecidableEq

/-- A registration returns a handle or leaves the live ones as they are. -/
def State.add (s : State n k) (info : TxnInfo) :
    Registry n k × Except RegistryError (ActiveSlotRef n k) → State n k
  | (r, .ok x) => ⟨r, s.live ++ [⟨s.nextId, x, info⟩], s.nextId + 1⟩
  | (r, .error _) => { s with registry := r }

/-- `promote` moves the reference into a read-write handle; a handle that cannot be promoted
stays. active.rs:449-458 -/
def State.promoted (s : State n k) (id : Nat) :
    Registry n k × Except RegistryError Unit → State n k
  | (r, .ok _) => { s with
      registry := r
      live := adjust Handle.id id
        (fun h => { h with info := { h.info with readWrite := true } }) s.live }
  | (r, .error _) => { s with registry := r }

/-- Only an `ActiveTxnHandle` has a `promote`; a handle that is gone can do nothing. -/
def step [NeZero n] (s : State n k) : Lbl → Option (State n k)
  | .register t readTs startTs readWrite =>
    some (s.add ⟨t, readTs, startTs, readWrite⟩ (s.registry.register t readTs startTs readWrite))
  | .tryRegisterOnShard i t readTs startTs readWrite =>
    some (s.add ⟨t, readTs, startTs, readWrite⟩
      (s.registry.tryRegisterOnShard i t readTs startTs readWrite))
  | .promote id =>
    ((lookup Handle.id id s.live).filter fun h => !h.info.readWrite).map fun h =>
      s.promoted id (s.registry.promoteSlot h.ref)
  | .freeze id =>
    (lookup Handle.id id s.live).map fun h =>
      { s with registry := (s.registry.freeze h.ref).1 }
  | .release id =>
    (lookup Handle.id id s.live).map fun h =>
      { s with registry := (s.registry.releaseSlot h.ref).1
               live := drop Handle.id id s.live }
  | .refreshWatermarks => some { s with registry := s.registry.scanAndConfirm }
  | .confirmedWatermarks => some { s with registry := s.registry.confirmedScanAndPublish }

def lts (n k : Nat) [NeZero n] : LTS (State n k) Lbl := .ofStep .init step

/-- The calls that may change which transactions are live or read-write. -/
def Lbl.changes : Lbl → Bool
  | .register .. | .tryRegisterOnShard .. | .promote _ | .release _ => true
  | .freeze _ | .refreshWatermarks | .confirmedWatermarks => false

/-- A lifecycle change does not bring the dirty epoch round to the confirmed one. -/
def Guard (s : State n k) (l : Lbl) : Prop :=
  l.changes = true → wrappingSucc s.registry.dirtyEpoch ≠ s.registry.confirmedEpoch

instance (s : State n k) (l : Lbl) : Decidable (Guard s l) := by unfold Guard; infer_instance

/-! ## Watermarks that lag -/

/-- `w` has the counts of `v` and minima at or below those of `v`. -/
structure AtMost (w v : ActiveTxnWatermarks) : Prop where
  txnId : w.oldestActiveTxnId ≤ v.oldestActiveTxnId
  readTs : w.oldestActiveReadTs ≤ v.oldestActiveReadTs
  startTs : w.oldestActiveStartTs ≤ v.oldestActiveStartTs
  count : w.activeCount = v.activeCount
  rwReadTs : w.oldestActiveRwReadTs ≤ v.oldestActiveRwReadTs
  rwStartTs : w.oldestActiveRwStartTs ≤ v.oldestActiveRwStartTs
  rwCount : w.activeRwCount = v.activeRwCount

namespace AtMost

variable {w v : ActiveTxnWatermarks} {l1 l2 : List TxnInfo} {x : Slot} {e e' : Nat}

theorem refl (l : List TxnInfo) : AtMost (watermarksOf l e) (watermarksOf l e') :=
  ⟨le_rfl, le_rfl, le_rfl, rfl, le_rfl, le_rfl, rfl⟩

theorem lower (h : AtMost w v) (txn : ActiveTxnSlot) : AtMost (lower w txn) (lower v txn) := by
  obtain ⟨h1, h2, h3, h4, h5, h6, h7⟩ := h
  unfold ActiveTxnRegistry.lower
  constructor <;> dsimp only <;> split <;> dsimp only <;> omega

/-- A promotion adds one transaction to the read-write ones. -/
theorem promote (h : AtMost w (watermarksOf (l1 ++ x.info :: l2) e)) (hx : x.info.readWrite = false) :
    AtMost (lowerRw w x.txn) (watermarksOf (l1 ++ { x.info with readWrite := true } :: l2) e) := by
  obtain ⟨h1, h2, h3, h4, h5, h6, h7⟩ := h
  simp only [watermarksOf, filter_append, filter_cons, hx, oldest_append, oldest_cons,
    length_append, length_cons, if_true, Bool.false_eq_true, if_false, lowerRw] at *
  constructor <;> dsimp only [Slot.info] at * <;> omega

/-- A release takes one transaction out and leaves the minima. -/
theorem release (h : AtMost w (watermarksOf (l1 ++ x.info :: l2) e)) :
    AtMost (uncount w x.txn) (watermarksOf (l1 ++ l2) e) := by
  refine ⟨h.txnId.trans oldest_middle_le, h.readTs.trans oldest_middle_le,
    h.startTs.trans oldest_middle_le, ?_, h.rwReadTs.trans (oldest_filter_middle_le _),
    h.rwStartTs.trans (oldest_filter_middle_le _), ?_⟩
  · have hc := h.count
    simp only [watermarksOf, length_append, length_cons, uncount] at hc ⊢
    omega
  · have hc := h.rwCount
    simp only [watermarksOf, filter_append, filter_cons, length_append, uncount] at hc ⊢
    cases hx : x.txn.isReadWrite <;> simp [hx, Slot.info] at hc ⊢ <;> omega

end AtMost

/-! ## One step -/

structure Inv (s : State n k) : Prop where
  ids : Keyed.Unique Handle.id s.live
  fresh : ∀ h ∈ s.live, h.id < s.nextId
  holds : Holds s.registry.slots s.registry.freeSlots s.live
  tracks : AtMost s.registry.watermarks (watermarksOf s.infos 0)

/-- The cached watermarks are exact when they count as confirmed. -/
def Exact (s : State n k) : Prop :=
  s.registry.confirmedEpoch = s.registry.dirtyEpoch →
    s.registry.watermarks = watermarksOf s.infos s.registry.watermarks.epoch

/-- What a step can do to the cached watermarks and to what they are about. -/
inductive Effect (l : Lbl) (s s' : State n k) : Prop
  | quiet (infos : s'.infos = s.infos) (watermarks : s'.registry.watermarks = s.registry.watermarks)
      (dirty : s'.registry.dirtyEpoch = s.registry.dirtyEpoch)
      (confirmed : s'.registry.confirmedEpoch = s.registry.confirmedEpoch)
  | changed (changes : l.changes = true)
      (dirty : s'.registry.dirtyEpoch = wrappingSucc s.registry.dirtyEpoch)
      (confirmed : s'.registry.confirmedEpoch = s.registry.confirmedEpoch)
  | scanned (watermarks : s'.registry.watermarks =
      watermarksOf s'.infos s'.registry.watermarks.epoch)

variable {s s' : State n k} {l : Lbl} {h : Handle n k} {id : Nat}

theorem inv_init : Inv (State.init : State n k) where
  ids := unique_nil
  fresh _ hm := absurd hm not_mem_nil
  holds := .new
  tracks := .refl []

variable {t readTs startTs : Nat} {readWrite : Bool} {x : ActiveSlotRef n k}

/-- A taken slot makes a new live handle. -/
theorem inv_allocated (I : Inv s) {r : Registry n k} {i : Fin n} {m : Nat}
    (ha : { s.registry with nextShard := m }.allocateOnShard i t readTs startTs readWrite = some (r, x)) :
    Inv (s.add ⟨t, readTs, startTs, readWrite⟩ (r.markChanged, .ok x)) ∧
      r.dirtyEpoch = s.registry.dirtyEpoch ∧ r.confirmedEpoch = s.registry.confirmedEpoch := by
  unfold allocateOnShard at ha
  split at ha
  · cases ha
  rename_i j rest hfree
  obtain ⟨rfl, rfl⟩ := Prod.mk.inj (Option.some.inj ha)
  refine ⟨⟨?_, ?_, ?_, ?_⟩, rfl, rfl⟩
  · exact Keyed.Unique.concat I.ids (lookup_eq_none.2 fun h hm => Nat.ne_of_lt (I.fresh h hm))
  · exact forall_mem_append.2
      ⟨fun h hm => Nat.lt_succ_of_lt (I.fresh h hm), forall_mem_singleton.2 (Nat.lt_succ_self _)⟩
  · refine I.holds.allocate hfree rfl ⟨rfl, rfl, ?_, ?_, ?_⟩ <;> cases readWrite <;> simp
    rfl
    rfl
  · have := I.tracks.lower ⟨t, readTs, startTs, if readWrite then .readWrite else .readOnly, readWrite⟩
    rw [lower_watermarksOf ⟨0, _⟩] at this
    simpa [State.add, State.infos, markChanged, Slot.info] using this

section
variable [NeZero n] (I : Inv s)
include I

omit [NeZero n] in
theorem Inv.owned (hl : lookup Handle.id id s.live = some h) :
    h.Owns (s.registry.slots h.place) ∧ ¬ (s.registry.slots h.ref.place).generation ≠ h.ref.generation :=
  have ho := I.holds.owns h (mem_of_lookup hl)
  ⟨ho, not_not.2 ho.generation⟩

theorem step_register (hs : step s (.register t readTs startTs readWrite) = some s') :
    Inv s' ∧ Effect (.register t readTs startTs readWrite) s s' := by
  obtain rfl := Option.some.inj hs
  unfold register
  dsimp only
  split
  · rename_i r x hf
    obtain ⟨i, -, hi⟩ := exists_of_findSome?_eq_some hf
    obtain ⟨hI, hd, hc⟩ := inv_allocated I hi
    exact ⟨hI, .changed rfl (congrArg wrappingSucc hd) hc⟩
  · exact ⟨{ I with }, .quiet rfl rfl rfl rfl⟩

theorem step_tryRegisterOnShard {i : Nat} (hs : step s (.tryRegisterOnShard i t readTs startTs readWrite) = some s') :
    Inv s' ∧ Effect (.tryRegisterOnShard i t readTs startTs readWrite) s s' := by
  obtain rfl := Option.some.inj hs
  unfold tryRegisterOnShard
  split
  · split
    · rename_i r x hi
      obtain ⟨hI, hd, hc⟩ := inv_allocated (m := s.registry.nextShard) I hi
      exact ⟨hI, .changed rfl (congrArg wrappingSucc hd) hc⟩
    · exact ⟨{ I with }, .quiet rfl rfl rfl rfl⟩
  · exact ⟨{ I with }, .quiet rfl rfl rfl rfl⟩

theorem step_promote (hs : step s (.promote id) = some s') : Inv s' ∧ Effect (.promote id) s s' := by
  obtain ⟨h, hf, rfl⟩ := map_eq_some_iff.1 hs
  obtain ⟨hl, hro⟩ := filter_eq_some_iff.1 hf
  have hro : h.info.readWrite = false := by simpa using hro
  obtain ⟨ho, hgen⟩ := I.owned hl
  unfold promoteSlot
  rw [if_neg hgen]
  split
  · -- a handle that can still be promoted does not own a read-write slot
    rename_i hst
    rw [ho.readWrite hst] at hro
    cases hro
  · obtain ⟨l1, l2, hlive, hadj⟩ := split_adjust_of_lookup I.ids hl
      fun h => { h with info := { h.info with readWrite := true } }
    have htracks := I.tracks
    rw [State.infos, hlive, map_append, map_cons] at htracks
    refine ⟨⟨?_, ?_, ?_, ?_⟩, .changed rfl rfl rfl⟩
    · exact Keyed.Unique.adjust (by intro; rfl) I.ids
    · intro h' hm
      obtain ⟨g, hg, rfl⟩ := mem_map.1 hm
      have := I.fresh g hg
      split <;> exact this
    · show Holds _ s.registry.freeSlots (adjust Handle.id id _ s.live)
      rw [hadj]
      have H := I.holds
      rw [hlive] at H
      refine H.write rfl ⟨ho.generation, ?_, rfl, (fun e => by cases e), fun _ => rfl⟩
      rw [← ho.info]; rfl
    · show AtMost _ (watermarksOf ((adjust Handle.id id _ s.live).map Handle.info) 0)
      rw [hadj, map_append, map_cons]
      rw [← ho.info] at htracks hro ⊢
      exact htracks.promote hro
  all_goals exact ⟨{ I with }, .quiet rfl rfl rfl rfl⟩

theorem step_freeze (hs : step s (.freeze id) = some s') : Inv s' ∧ Effect (.freeze id) s s' := by
  obtain ⟨h, hl, rfl⟩ := map_eq_some_iff.1 hs
  obtain ⟨ho, hgen⟩ := I.owned hl
  have hactive : (s.registry.slots h.ref.place).txn.state.isActive = true := ho.active
  obtain ⟨l1, l2, hlive, -⟩ := split_of_lookup I.ids hl
  have H := I.holds
  rw [hlive] at H
  unfold freeze
  rw [if_neg hgen, if_pos hactive]
  refine ⟨{ I with holds := ?_ }, .quiet rfl rfl rfl rfl⟩
  rw [hlive]
  exact H.write rfl ⟨ho.generation, ho.info, rfl, (fun e => by cases e), fun e => by cases e⟩

theorem step_release (hs : step s (.release id) = some s') : Inv s' ∧ Effect (.release id) s s' := by
  obtain ⟨h, hl, rfl⟩ := map_eq_some_iff.1 hs
  obtain ⟨ho, hgen⟩ := I.owned hl
  have hne : (s.registry.slots h.ref.place).txn.state ≠ .empty := by
    intro e
    have := ho.active
    rw [show s.registry.slots h.place = s.registry.slots h.ref.place from rfl, e] at this
    cases this
  obtain ⟨l1, l2, hlive, hdrop⟩ := split_of_lookup I.ids hl
  have H := I.holds
  have htracks := I.tracks
  rw [State.infos, hlive, map_append, map_cons] at htracks
  rw [hlive] at H
  unfold releaseSlot
  rw [if_neg hgen, if_neg hne]
  refine ⟨⟨Keyed.Unique.drop I.ids, fun g hg => I.fresh g (mem_of_mem_filter hg), ?_, ?_⟩, .changed rfl rfl rfl⟩
  · rw [hdrop]
    exact H.release rfl
  · show AtMost _ (watermarksOf ((drop Handle.id id s.live).map Handle.info) 0)
    rw [hdrop, map_append]
    rw [← ho.info] at htracks
    exact htracks.release

end

theorem step_scan (I : Inv s) : Inv { s with registry := s.registry.scanAndConfirm } ∧
      Effect l s { s with registry := s.registry.scanAndConfirm } := by
  have hscan : s.registry.scanAndConfirm.watermarks =
      watermarksOf s.infos (wrappingSucc s.registry.watermarks.epoch) := I.holds.scan
  refine ⟨{ I with tracks := ?_ }, .scanned ?_⟩
  · rw [hscan]
    exact .refl s.infos
  · rw [hscan]; rfl

theorem inv_step [NeZero n] (I : Inv s) (hs : step s l = some s') : Inv s' ∧ Effect l s s' := by
  cases l with
  | register t readTs startTs readWrite => exact step_register I hs
  | tryRegisterOnShard i t readTs startTs readWrite => exact step_tryRegisterOnShard I hs
  | promote id => exact step_promote I hs
  | freeze id => exact step_freeze I hs
  | release id => exact step_release I hs
  | refreshWatermarks =>
    obtain rfl := Option.some.inj hs
    exact step_scan I
  | confirmedWatermarks =>
    obtain rfl := Option.some.inj hs
    unfold confirmedScanAndPublish
    split
    · exact ⟨I, .quiet rfl rfl rfl rfl⟩
    · exact step_scan I

theorem exact_step (hX : Exact s) (hE : Effect l s s') (hG : Guard s l) : Exact s' := by
  intro hc
  cases hE with
  | quiet infos watermarks dirty confirmed =>
    rw [dirty, confirmed] at hc
    rw [infos, watermarks]
    exact hX hc
  | changed changes dirty confirmed =>
    rw [dirty, confirmed] at hc
    exact absurd hc.symm (hG changes)
  | scanned watermarks => exact watermarks

/-! ## Whole runs -/

theorem exact_invariant [NeZero n] : ((lts n k).guard Guard).Invariant fun s => Inv s ∧ Exact s where
  init := by rintro s rfl; exact ⟨inv_init, fun hc => by cases hc⟩
  step := by
    rintro s l s' ⟨I, hX⟩ ⟨hG, hs⟩
    obtain ⟨I', hE⟩ := inv_step I hs
    exact ⟨I', exact_step hX hE hG⟩

theorem mem_shardOrder [NeZero n] (start : Nat) (i : Fin n) : i ∈ shardOrder start :=
  mem_map.2 ⟨(i - Fin.ofNat n start).val, mem_range.2 (Fin.isLt _), by rw [← Fin.ofNat_add]; grind⟩

/-- **No slot leaks.** In every run, also when the dirty epoch comes round, a registration is refused
exactly when every slot of every shard has a live handle. -/
theorem register_refused_iff (n k : Nat) : (lts (n + 1) k).Always fun s => ∀ t readTs startTs readWrite,
    (s.registry.register t readTs startTs readWrite).2 = .error .noSlotAvailable ↔
      ∀ p, p ∈ s.live.map Handle.place := by
  have hinv : (lts (n + 1) k).Invariant Inv := ⟨by rintro s rfl; exact inv_init, fun _ _ _ I hs => (inv_step I hs).1⟩
  refine hinv.always fun s I t readTs startTs readWrite => ?_
  unfold register
  dsimp only
  split
  · rename_i hf
    obtain ⟨i, -, hi⟩ := exists_of_findSome?_eq_some hf
    unfold allocateOnShard at hi
    split at hi
    · cases hi
    rename_i j rest hfree
    exact ⟨(fun e => by cases e), fun hall => absurd (hall (i, j)) ((I.holds.free i j).1 (hfree ▸ mem_cons_self))⟩
  · rename_i hf
    refine ⟨fun _ p => not_not.1 fun hp => ?_, fun _ => rfl⟩
    have hnone := findSome?_eq_none_iff.1 hf p.1 (mem_shardOrder _ _)
    unfold allocateOnShard at hnone
    split at hnone
    · rename_i hfree
      exact absurd ((I.holds.free p.1 p.2).2 hp) (hfree ▸ not_mem_nil)
    · cases hnone

/-- A reference other than the one of a live handle does not touch that handle's slot. -/
theorem stale_ref_keeps (I : Inv s) (hm : h ∈ s.live) (hx : x ≠ h.ref) :
    (s.registry.promoteSlot x).1.slots h.place = s.registry.slots h.place ∧
    (s.registry.freeze x).1.slots h.place = s.registry.slots h.place ∧
    (s.registry.releaseSlot x).1.slots h.place = s.registry.slots h.place := by
  by_cases hp : h.place = x.place
  · -- the same slot under another generation: refused before anything is stored
    have hgen : (s.registry.slots x.place).generation ≠ x.generation := by
      rw [← hp, (I.holds.owns h hm).generation]
      intro e
      refine hx ?_
      obtain ⟨hi, hj⟩ := Prod.mk.inj hp
      cases x
      cases hr : h.ref
      simp_all
    simp [promoteSlot, freeze, releaseSlot, hgen]
  · refine ⟨?_, ?_, ?_⟩
    · unfold promoteSlot
      dsimp only
      split
      · rfl
      · split
        · exact update_of_ne hp _ _
        · exact update_of_ne hp _ _
        all_goals rfl
    · unfold freeze
      dsimp only
      split
      · rfl
      · split
        · exact update_of_ne hp _ _
        · rfl
    · unfold releaseSlot
      dsimp only
      split
      · rfl
      · split <;> exact update_of_ne hp _ _

/-- **Active watermarks.** In every run whose lifecycle changes do not bring the dirty epoch
round to the confirmed one: no two live handles share a slot, a stale reference does not
touch the slot of a live handle, `confirmed_watermarks` returns the watermarks of the live
handles, and the cached ones have the same counts and minima at or below them. -/
theorem active_watermarks [NeZero n] (s : State n k) (h : ((lts n k).guard Guard).Reachable s) :
    (∀ a ∈ s.live, ∀ b ∈ s.live, a.id ≠ b.id → a.place ≠ b.place) ∧
    (∀ a ∈ s.live, ∀ x : ActiveSlotRef n k, x ≠ a.ref →
      (s.registry.promoteSlot x).1.slots a.place = s.registry.slots a.place ∧
      (s.registry.freeze x).1.slots a.place = s.registry.slots a.place ∧
      (s.registry.releaseSlot x).1.slots a.place = s.registry.slots a.place) ∧
    (∃ e, s.registry.confirmedScanAndPublish.watermarks = watermarksOf s.infos e) ∧
    AtMost s.registry.watermarks (watermarksOf s.infos 0) := by
  obtain ⟨I, hX⟩ := exact_invariant.reachable h
  refine ⟨?_, fun a ha x hx => stale_ref_keeps I ha hx, ?_, I.tracks⟩
  · intro a ha b hb hne hp
    exact hne (congrArg Handle.id (I.holds.eq_of_place ha hb hp))
  · unfold confirmedScanAndPublish
    split
    · rename_i hc
      exact ⟨_, hX hc⟩
    · exact ⟨_, I.holds.scan⟩

/-- A slot is taken again after a release, a promoted transaction is frozen and one is
registered on a shard that is full. -/
theorem active_watermarks_reused_slot : ∃ s : State 2 1,
    ((lts 2 1).guard Guard).Reachable s ∧ s.infos = [⟨7, 3, 4, true⟩, ⟨9, 8, 8, false⟩] ∧
    ∃ e, s.registry.confirmedScanAndPublish.watermarks =
      watermarksOf [⟨7, 3, 4, true⟩, ⟨9, 8, 8, false⟩] e := by
  have hrun : ∃ s : State 2 1, ((lts 2 1).guard Guard).Reachable s ∧ s.infos = [⟨7, 3, 4, true⟩, ⟨9, 8, 8, false⟩] :=
    LTS.reachable_of_exec_guard [.register 5 1 1 true, .register 7 3 4 false, .promote 1,
      .freeze 1, .confirmedWatermarks, .tryRegisterOnShard 1 8 8 8 false, .release 0,
      .tryRegisterOnShard 0 9 8 8 false] (by decide)
  obtain ⟨s, hr, hi⟩ := hrun
  have := (active_watermarks s hr).2.2.1
  rw [hi] at this
  exact ⟨s, hr, hi, this⟩

/-! ## A run of `2 ^ 64 - 1` changes -/

/-- A registry of one slot after `m` registrations that were all released, with every cached
minimum at `w`. -/
def cycled (w m : Nat) : State 1 1 where
  registry :=
    { slots := fun _ => ⟨m % 2 ^ 64, Slot.empty.txn⟩
      freeSlots := fun _ => [0]
      nextShard := m % 2 ^ 64
      watermarks := { oldestActiveTxnId := w, oldestActiveReadTs := w, oldestActiveStartTs := w }
      dirtyEpoch := 2 * m % 2 ^ 64
      confirmedEpoch := 2 ^ 64 - 1 }
  live := []
  nextId := m

/-- The same after transaction `t` has registered once more. -/
def taken (w m t : Nat) : State 1 1 where
  registry :=
    { slots := fun _ => ⟨(m + 1) % 2 ^ 64, ⟨t, t, t, .readOnly, false⟩⟩
      freeSlots := fun _ => []
      nextShard := (m + 1) % 2 ^ 64
      watermarks :=
        { oldestActiveTxnId := w
          oldestActiveReadTs := w
          oldestActiveStartTs := w
          activeCount := 1 }
      dirtyEpoch := (2 * m + 1) % 2 ^ 64
      confirmedEpoch := 2 ^ 64 - 1 }
  live := [⟨m, ⟨0, 0, (m + 1) % 2 ^ 64⟩, ⟨t, t, t, false⟩⟩]
  nextId := m + 1

theorem wrappingSucc_mod (x : Nat) : wrappingSucc (x % 18446744073709551616) = (x + 1) % 18446744073709551616 := by
  unfold wrappingSucc
  omega

theorem step_cycled (w m t : Nat) : step (cycled w m) (.register t t t false) = some (taken (min w t) m t) := by
  simp [step, cycled, taken, State.add, register, shardOrder, allocateOnShard, markChanged, lower, wrappingSucc_mod]
  exact ⟨update_eq_const_of_subsingleton _ _ _, update_eq_const_of_subsingleton _ _ _⟩

theorem step_taken (w m t : Nat) : step (taken w m t) (.release m) = some (cycled w (m + 1)) := by
  simp [step, cycled, taken, Keyed.lookup, Keyed.drop, releaseSlot, store, markChanged, uncount, wrappingSucc_mod,
    Slot.empty]
  exact ⟨update_eq_const_of_subsingleton _ _ _, update_eq_const_of_subsingleton _ _ _, by omega⟩

theorem cycled_reachable (m : Nat) : (lts 1 1).Reachable (cycled 1 (m + 1)) := by
  induction m with
  | zero =>
    have hinit : (lts 1 1).Reachable (cycled maxTransactionId 0) := .init rfl
    exact .step (.step hinit (step_cycled _ 0 1)) (step_taken _ 0 1)
  | succ m ih => exact .step (.step ih (step_cycled 1 (m + 1) 1)) (step_taken 1 (m + 1) 1)

/-- **Counterexample.** After `2 ^ 64 - 1` lifecycle changes without a scan the dirty epoch is
`u64::MAX`, the confirmed epoch of a new registry: `confirmed_watermarks` returns the oldest
transaction 1, released long ago, although only transaction 5 is live. -/
theorem confirmed_watermarks_stale : ∃ s : State 1 1, (lts 1 1).Reachable s ∧
    s.infos = [⟨5, 5, 5, false⟩] ∧
    s.registry.confirmedScanAndPublish.watermarks.oldestActiveTxnId = 1 ∧
    ∀ e, s.registry.confirmedScanAndPublish.watermarks ≠ watermarksOf s.infos e := by
  have hr : (lts 1 1).Reachable (taken 1 (2 ^ 63 - 1) 5) :=
    have hm : 2 ^ 63 - 2 + 1 = 2 ^ 63 - 1 := rfl
    .step (hm ▸ cycled_reachable (2 ^ 63 - 2)) (step_cycled 1 (2 ^ 63 - 1) 5)
  have hcached : (taken 1 (2 ^ 63 - 1) 5).registry.confirmedScanAndPublish =
      (taken 1 (2 ^ 63 - 1) 5).registry := if_pos rfl
  refine ⟨_, hr, rfl, ?_, fun e he => ?_⟩
  · rw [hcached]; rfl
  · rw [hcached] at he
    have hid := congrArg ActiveTxnWatermarks.oldestActiveTxnId he
    simp [taken, watermarksOf, State.infos, maxTransactionId] at hid

end Paro.L3.ActiveWatermarks
