import Paro.Core.Keyed

/-!
# Active transaction registry

Model of `ActiveTxnRegistry` (crates/transaction/src/active.rs) and the lifecycle epochs of
lifecycle.rs. Slots of live transactions are rows under the transaction's id; the shards and
their free lists only bound how many there are, so the registry has a capacity. Generations,
which tell a stale handle from a live one, are left out: a handle is the id of its row.

The registry caches watermarks over its slots. Registering and promoting lower them, and a
scan recomputes them; `confirmed_scan_and_publish` scans unless nothing changed since the
last confirmed scan (`WF.confirmedScan`). `La-b` are lines of `active.rs`.
-/
namespace Paro.L2

open List Keyed

/-- types/mod.rs:15 -/
def maxTransactionId : Nat := 2 ^ 64 - 1

/-- L16-24 -/
inductive ActiveTxnState | empty | readOnly | readWrite | frozen | ending
deriving DecidableEq, Repr

/-- L38-41 -/
def ActiveTxnState.isActive : ActiveTxnState → Bool
  | .readOnly | .readWrite | .frozen => true
  | .empty | .ending => false

/-- error.rs:9-15 -/
inductive RegistryError | invalidShard | noSlotAvailable | staleHandle | releasedHandle | invalidState
deriving DecidableEq, Repr

/-- L128-136 -/
structure ActiveTxnSlot where
  (txnId readTs startTs : Nat)
  state : ActiveTxnState
  isReadWrite : Bool
deriving DecidableEq, Repr

open ActiveTxnSlot

/-- L60-69 -/
structure ActiveTxnWatermarks where
  oldestActiveTxnId : Nat := maxTransactionId
  oldestActiveReadTs : Nat := maxTransactionId
  oldestActiveStartTs : Nat := maxTransactionId
  activeCount : Nat := 0
  oldestActiveRwReadTs : Nat := maxTransactionId
  oldestActiveRwStartTs : Nat := maxTransactionId
  activeRwCount : Nat := 0
  epoch : Nat := 0
deriving DecidableEq, Repr

/-- `dirtyEpoch` and `confirmedEpoch` are the lifecycle's; none is confirmed at first.
L93-109 -/
structure ActiveTxnRegistry where
  capacity : Nat
  slots : List ActiveTxnSlot
  watermarks : ActiveTxnWatermarks
  dirtyEpoch : Nat
  confirmedEpoch : Option Nat
deriving DecidableEq, Repr

namespace ActiveTxnRegistry

def new (capacity : Nat) : ActiveTxnRegistry := ⟨capacity, [], {}, 0, none⟩

/-- What an active slot adds to the cached watermarks. L405-413 -/
def lower (w : ActiveTxnWatermarks) (slot : ActiveTxnSlot) : ActiveTxnWatermarks :=
  let w1 := { w with
    oldestActiveTxnId := min w.oldestActiveTxnId slot.txnId
    oldestActiveReadTs := min w.oldestActiveReadTs slot.readTs
    oldestActiveStartTs := min w.oldestActiveStartTs slot.startTs
    activeCount := w.activeCount + 1 }
  if slot.isReadWrite then
    { w1 with
      oldestActiveRwReadTs := min w1.oldestActiveRwReadTs slot.readTs
      oldestActiveRwStartTs := min w1.oldestActiveRwStartTs slot.startTs
      activeRwCount := w1.activeRwCount + 1 }
  else w1

/-- What a promotion adds to them. L570-578 -/
def lowerRw (w : ActiveTxnWatermarks) (slot : ActiveTxnSlot) : ActiveTxnWatermarks :=
  { w with
    activeRwCount := w.activeRwCount + 1
    oldestActiveRwReadTs := min w.oldestActiveRwReadTs slot.readTs
    oldestActiveRwStartTs := min w.oldestActiveRwStartTs slot.startTs }

/-- A release corrects the counts only. L647-650 -/
def uncount (w : ActiveTxnWatermarks) (slot : ActiveTxnSlot) : ActiveTxnWatermarks :=
  { w with
    activeCount := w.activeCount - 1
    activeRwCount := w.activeRwCount - if slot.isReadWrite then 1 else 0 }

variable (r : ActiveTxnRegistry)

/-- L217-227, 346-420 -/
def register (t readTs startTs : Nat) (readWrite : Bool) :
    Except RegistryError ActiveTxnRegistry :=
  if r.slots.length ≥ r.capacity then .error .noSlotAvailable
  else
    let slot : ActiveTxnSlot := ⟨t, readTs, startTs, if readWrite then .readWrite else .readOnly, readWrite⟩
    .ok { r with
      slots := r.slots ++ [slot]
      watermarks := lower r.watermarks slot
      dirtyEpoch := r.dirtyEpoch + 1 }

variable (t : Nat)

/-- L549-607 -/
def promoteSlot : Except RegistryError ActiveTxnRegistry :=
  match lookup txnId t r.slots with
  | none => .error .staleHandle
  | some slot =>
    match slot.state with
    | .readWrite =>
      .ok { r with slots := adjust txnId t (fun s => { s with isReadWrite := true }) r.slots }
    | .readOnly =>
      .ok { r with
        slots := adjust txnId t
          (fun s => { s with state := .readWrite, isReadWrite := true }) r.slots
        watermarks := lowerRw r.watermarks slot
        dirtyEpoch := r.dirtyEpoch + 1 }
    | .frozen | .ending | .empty => .error .invalidState

/-- L609-655 -/
def releaseSlot : Except RegistryError ActiveTxnRegistry :=
  match lookup txnId t r.slots with
  | none => .error .staleHandle
  | some slot =>
    .ok { r with
      slots := drop txnId t r.slots
      watermarks := uncount r.watermarks slot
      dirtyEpoch := r.dirtyEpoch + 1 }

/-- L804-813 -/
def freeze : Except RegistryError ActiveTxnRegistry :=
  match lookup txnId t r.slots with
  | none => .error .staleHandle
  | some slot =>
    if slot.state.isActive then
      .ok { r with slots := adjust txnId t (fun s => { s with state := .frozen }) r.slots }
    else .error .invalidState

/-- L672-776 -/
def scan : ActiveTxnWatermarks :=
  (r.slots.filter fun s => s.state.isActive).foldl lower { epoch := r.watermarks.epoch + 1 }

/-- L663-667 -/
def scanAndConfirm : ActiveTxnRegistry :=
  { r with watermarks := r.scan, confirmedEpoch := some r.dirtyEpoch }

/-- The watermarks are those of the registry after it. L655-661 -/
def confirmedScanAndPublish : ActiveTxnRegistry :=
  if r.confirmedEpoch = some r.dirtyEpoch then r else r.scanAndConfirm

/-! ## The oldest read-write transaction -/

/-- A live transaction that pins the conflict history. -/
def LiveRw (slot : ActiveTxnSlot) : Prop :=
  slot ∈ r.slots ∧ slot.isReadWrite = true

instance (r : ActiveTxnRegistry) (slot : ActiveTxnSlot) : Decidable (r.LiveRw slot) :=
  inferInstanceAs (Decidable (_ ∧ _))

def Below (ts : Nat) : Prop := ∀ slot, r.LiveRw slot → ts ≤ slot.readTs

/-- Every row is that of one live transaction, and a confirmed cache is right about the oldest
read-write transaction. -/
structure WF (r : ActiveTxnRegistry) : Prop where
  unique : Keyed.Unique txnId r.slots
  readWrite : ∀ slot ∈ r.slots, slot.state = .readWrite → slot.isReadWrite = true
  active : ∀ slot ∈ r.slots, slot.state.isActive = true
  confirmed : ∀ e, r.confirmedEpoch = some e → e ≤ r.dirtyEpoch
  cache : r.confirmedEpoch = some r.dirtyEpoch → r.Below r.watermarks.oldestActiveRwReadTs

structure SameTxn (a b : ActiveTxnSlot) : Prop where
  txnId : a.txnId = b.txnId
  readTs : a.readTs = b.readTs
  startTs : a.startTs = b.startTs

variable {r r' : ActiveTxnRegistry} {t : Nat}

theorem SameTxn.refl (a : ActiveTxnSlot) : SameTxn a a := ⟨rfl, rfl, rfl⟩

theorem foldl_lower_le (slots : List ActiveTxnSlot) (w : ActiveTxnWatermarks) :
    (slots.foldl lower w).oldestActiveRwReadTs ≤ w.oldestActiveRwReadTs ∧
      ∀ s ∈ slots, s.isReadWrite = true → (slots.foldl lower w).oldestActiveRwReadTs ≤ s.readTs := by
  induction slots generalizing w with
  | nil => exact ⟨le_rfl, fun _ hs => absurd hs not_mem_nil⟩
  | cons a slots ih =>
    obtain ⟨h1, h2⟩ := ih (lower w a)
    have hle : (lower w a).oldestActiveRwReadTs ≤ w.oldestActiveRwReadTs := by
      unfold lower
      cases a.isReadWrite
      · exact le_rfl
      · exact min_le_left _ _
    refine ⟨h1.trans hle, fun s hs hrw => ?_⟩
    rcases mem_cons.1 hs with rfl | hs
    · refine h1.trans ?_
      unfold lower
      rw [if_pos hrw]
      exact min_le_right _ _
    · exact h2 s hs hrw

theorem scan_below (h : r.WF) : r.Below r.scan.oldestActiveRwReadTs := by
  rintro slot ⟨hm, hrw⟩
  exact (foldl_lower_le _ _).2 slot (mem_filter.2 ⟨hm, h.active slot hm⟩) hrw

/-- The confirmed watermark is at or below every live read-write transaction. -/
theorem WF.confirmedScan (h : r.WF) : r.confirmedScanAndPublish.WF ∧ r.confirmedScanAndPublish.slots = r.slots ∧
      r.Below r.confirmedScanAndPublish.watermarks.oldestActiveRwReadTs := by
  unfold confirmedScanAndPublish
  split
  · rename_i hc
    exact ⟨h, rfl, h.cache hc⟩
  · refine ⟨⟨h.unique, h.readWrite, h.active, ?_, fun _ => scan_below h⟩, rfl, scan_below h⟩
    intro e he
    exact (Option.some.inj he).ge

/-- A change of the slots makes the cache unconfirmed. -/
theorem WF.of_dirty (h : r.WF) (hu : Keyed.Unique txnId r'.slots) (hs : ∀ slot ∈ r'.slots, slot.state.isActive = true ∧
      (slot.state = .readWrite → slot.isReadWrite = true))
    (hc : r'.confirmedEpoch = r.confirmedEpoch) (hd : r'.dirtyEpoch = r.dirtyEpoch + 1) : r'.WF := by
  refine ⟨hu, fun slot hm => (hs slot hm).2, fun slot hm => (hs slot hm).1, fun e he => ?_, fun he => ?_⟩
  · have := h.confirmed e (hc ▸ he)
    omega
  · have := h.confirmed _ (hc ▸ he)
    omega

theorem wf_new (capacity : Nat) : (new capacity).WF where
  unique := unique_nil
  readWrite _ hs := absurd hs not_mem_nil
  active _ hs := absurd hs not_mem_nil
  confirmed _ he := by cases he
  cache he := by cases he

theorem WF.register {readTs startTs : Nat} (h : r.WF) (hfresh : ∀ slot ∈ r.slots, slot.txnId ≠ t)
    (he : r.register t readTs startTs false = .ok r') :
    r'.WF ∧ ∀ slot ∈ r'.slots, slot ∈ r.slots ∨ slot = ⟨t, readTs, startTs, .readOnly, false⟩ := by
  unfold ActiveTxnRegistry.register at he
  split at he
  · cases he
  cases he
  constructor
  · refine h.of_dirty (Keyed.Unique.concat h.unique ?_) ?_ rfl rfl
    · exact lookup_eq_none.2 hfresh
    · exact forall_mem_append.2
        ⟨fun slot hs => ⟨h.active slot hs, h.readWrite slot hs⟩, forall_mem_singleton.2 ⟨rfl, nofun⟩⟩
  · exact forall_mem_append.2 ⟨fun slot hs => .inl hs, fun slot hs => .inr (mem_singleton.1 hs)⟩

variable {slot : ActiveTxnSlot}

theorem mem_adjust {f : ActiveTxnSlot → ActiveTxnSlot} {slots : List ActiveTxnSlot}
    (h : slot ∈ adjust txnId t f slots) :
    slot ∈ slots ∨ ∃ old ∈ slots, old.txnId = t ∧ slot = f old := by
  obtain ⟨old, hm, rfl⟩ := mem_map.1 h
  split
  · exact .inr ⟨old, hm, ‹_›, rfl⟩
  · exact .inl hm

/-- The row of a transaction is the one its handle finds. -/
theorem WF.eq_of_lookup {old : ActiveTxnSlot} (h : r.WF) (hl : lookup txnId t r.slots = some slot) (hm : old ∈ r.slots)
    (ht : old.txnId = t) : old = slot := by
  have := (mem_iff_lookup h.unique).1 hm
  rw [ht, hl] at this
  exact (Option.some.inj this).symm

/-- After a promotion the live read-write transactions are those of before and the promoted one. -/
theorem WF.promoteSlot (h : r.WF) (he : r.promoteSlot t = .ok r') :
    r'.WF ∧ ∀ slot ∈ r'.slots, ∃ old ∈ r.slots, SameTxn slot old ∧
      (slot.isReadWrite = true → old.isReadWrite = true ∨ old.txnId = t) := by
  unfold ActiveTxnRegistry.promoteSlot at he
  split at he
  · cases he
  rename_i slot hl
  split at he
  · -- promoting again changes nothing
    rename_i hst
    cases he
    have hslots : adjust txnId t (fun s => { s with isReadWrite := true }) r.slots = r.slots := by
      refine (map_congr_left fun old hm => ?_).trans (map_id _)
      split
      · obtain rfl := h.eq_of_lookup hl hm ‹_›
        rw [← h.readWrite old hm hst]; rfl
      · rfl
    rw [hslots]
    exact ⟨h, fun slot hs => ⟨slot, hs, .refl slot, .inl⟩⟩
  · cases he
    refine ⟨h.of_dirty (h.unique.adjust (by intro; rfl)) (fun slot hs => ?_) rfl rfl, fun slot hs => ?_⟩
    · rcases mem_adjust hs with hs | ⟨old, -, -, rfl⟩
      · exact ⟨h.active slot hs, h.readWrite slot hs⟩
      · exact ⟨rfl, fun _ => rfl⟩
    · rcases mem_adjust hs with hs | ⟨old, hm, ht, rfl⟩
      · exact ⟨slot, hs, .refl slot, .inl⟩
      · exact ⟨old, hm, ⟨rfl, rfl, rfl⟩, fun _ => .inr ht⟩
  all_goals cases he

theorem WF.releaseSlot (h : r.WF) (he : r.releaseSlot t = .ok r') :
    r'.WF ∧ ∀ slot ∈ r'.slots, ∃ old ∈ r.slots, SameTxn slot old ∧
      (slot.isReadWrite = true → old.isReadWrite = true) := by
  unfold ActiveTxnRegistry.releaseSlot at he
  split at he
  · cases he
  cases he
  have hsub : ∀ slot ∈ drop txnId t r.slots, slot ∈ r.slots :=
    fun slot hs => (mem_filter.1 hs).1
  exact ⟨h.of_dirty h.unique.drop (fun slot hs => ⟨h.active slot (hsub slot hs),
    h.readWrite slot (hsub slot hs)⟩) rfl rfl, fun slot hs => ⟨slot, hsub slot hs, .refl slot, id⟩⟩

/-- A frozen transaction pins what it pinned. -/
theorem WF.freeze (h : r.WF) (he : r.freeze t = .ok r') : r'.WF ∧ ∀ slot ∈ r'.slots, ∃ old ∈ r.slots, SameTxn slot old ∧
      (slot.isReadWrite = true → old.isReadWrite = true) := by
  unfold ActiveTxnRegistry.freeze at he
  split at he
  · cases he
  split at he
  · cases he
    have hold : ∀ slot ∈ adjust txnId t (fun s => { s with state := .frozen }) r.slots,
        ∃ old ∈ r.slots, SameTxn slot old ∧ (slot.isReadWrite = true → old.isReadWrite = true) := by
      intro slot hs
      rcases mem_adjust hs with hs | ⟨old, hm, -, rfl⟩
      · exact ⟨slot, hs, .refl slot, id⟩
      · exact ⟨old, hm, ⟨rfl, rfl, rfl⟩, id⟩
    refine ⟨⟨h.unique.adjust (by intro; rfl), fun slot hs => ?_, fun slot hs => ?_, h.confirmed,
      fun hc => ?_⟩, hold⟩
    · rcases mem_adjust hs with hs | ⟨old, -, -, rfl⟩
      · exact h.readWrite slot hs
      · exact fun hrw => by cases hrw
    · rcases mem_adjust hs with hs | ⟨old, -, -, rfl⟩
      · exact h.active slot hs
      · rfl
    · rintro slot ⟨hs, hrw⟩
      obtain ⟨old, hm, hsame, hrw'⟩ := hold slot hs
      rw [hsame.readTs]
      exact h.cache hc old ⟨hm, hrw' hrw⟩
  · cases he

end ActiveTxnRegistry
end Paro.L2
