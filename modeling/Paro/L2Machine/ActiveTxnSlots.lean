import Mathlib.Data.List.FinRange
import Mathlib.Data.List.Perm.Basic
import Paro.L2Machine.ActiveTxnRegistry

/-!
# Slots, free lists and generations of the active transaction registry

`ActiveTxnRegistry` models the registry as the rows of its live transactions. This module
models what is underneath (crates/transaction/src/active.rs): shards of slots, a free list
per shard, a generation per slot that tells a stale reference from a live one, and the
64-bit lifecycle epochs of lifecycle.rs, which wrap. `n` is the number of shards and `k`
the number of slots in each.

The second half says what the slots stand for. `Holds` relates the slots and free lists to
the live handles; allocating, changing and releasing a slot keep it, and under it a scan
computes the watermarks of the live handles (`Holds.scan`). `La-b` are lines of `active.rs`.
-/
namespace Paro.L2.ActiveTxnSlots
open List Function
open L2.ActiveTxnRegistry (lower lowerRw uncount)

variable {n k : Nat}

/-! ## The registry -/

def wrappingSucc (x : Nat) : Nat := (x + 1) % 2 ^ 64

/-- L129-137 -/
structure Slot where
  generation : Nat
  txn : ActiveTxnSlot
deriving DecidableEq, Repr

/-- L868-880 -/
def Slot.empty : Slot := ⟨0, ⟨0, maxTransactionId, maxTransactionId, .empty, false⟩⟩

/-- L149-155 -/
structure ActiveSlotRef (n k : Nat) where
  shardIndex : Fin n
  slotIndex : Fin k
  generation : Nat
deriving DecidableEq, Repr

def ActiveSlotRef.place (x : ActiveSlotRef n k) : Fin n × Fin k := (x.shardIndex, x.slotIndex)

/-- The head of a free list is the end of the source's vector. `watermarks.epoch` is
`watermark_epoch`. L94-113 -/
structure Registry (n k : Nat) where
  slots : Fin n × Fin k → Slot
  freeSlots : Fin n → List (Fin k)
  nextShard : Nat
  watermarks : ActiveTxnWatermarks
  (dirtyEpoch confirmedEpoch : Nat)

/-- L170-197, lifecycle.rs:27-34 -/
def Registry.new : Registry n k :=
  ⟨fun _ => .empty, fun _ => finRange k, 0, {}, 0, 2 ^ 64 - 1⟩

namespace Registry

variable (r : Registry n k)

/-- A mutation that was marked as changed ends. lifecycle.rs:119-135 -/
def markChanged : Registry n k :=
  { r with dirtyEpoch := wrappingSucc r.dirtyEpoch }

/-- L366-421 -/
def allocateOnShard (i : Fin n) (t readTs startTs : Nat) (readWrite : Bool) :
    Option (Registry n k × ActiveSlotRef n k) :=
  match r.freeSlots i with
  | [] => none
  | j :: free =>
    let generation := wrappingSucc (r.slots (i, j)).generation
    let txn : ActiveTxnSlot :=
      ⟨t, readTs, startTs, if readWrite then .readWrite else .readOnly, readWrite⟩
    some ({ r with
      slots := update r.slots (i, j) ⟨generation, txn⟩
      freeSlots := update r.freeSlots i free
      watermarks := lower r.watermarks txn }, ⟨i, j, generation⟩)

/-- The shards from `start` on, once around. -/
def shardOrder [NeZero n] (start : Nat) : List (Fin n) :=
  (List.range n).map fun offset => Fin.ofNat n (start + offset)

/-- `register` and `register_read_write`. L215-263, 346-364 -/
def register [NeZero n] (r : Registry n k) (t readTs startTs : Nat) (readWrite : Bool) :
    Registry n k × Except RegistryError (ActiveSlotRef n k) :=
  let r1 := { r with nextShard := wrappingSucc r.nextShard }
  match (shardOrder (r.nextShard % n)).findSome? fun i =>
      r1.allocateOnShard i t readTs startTs readWrite with
  | some (r2, x) => (r2.markChanged, .ok x)
  | none => (r1, .error .noSlotAvailable)

/-- `try_register_on_shard` and its read-write variant. L260-288 -/
def tryRegisterOnShard (i t readTs startTs : Nat) (readWrite : Bool) :
    Registry n k × Except RegistryError (ActiveSlotRef n k) :=
  if h : i < n then
    match r.allocateOnShard ⟨i, h⟩ t readTs startTs readWrite with
    | some (r2, x) => (r2.markChanged, .ok x)
    | none => (r, .error .noSlotAvailable)
  else (r, .error .invalidShard)

/-- Stores to the fields of a slot other than its generation. -/
def store (p : Fin n × Fin k) (f : ActiveTxnSlot → ActiveTxnSlot) : Registry n k :=
  { r with slots := update r.slots p ⟨(r.slots p).generation, f (r.slots p).txn⟩ }

variable (x : ActiveSlotRef n k)

/-- L549-607 -/
def promoteSlot : Registry n k × Except RegistryError Unit :=
  let slot := r.slots x.place
  if slot.generation ≠ x.generation then (r, .error .staleHandle)
  else
    match slot.txn.state with
    | .readWrite => (r.store x.place fun txn => { txn with isReadWrite := true }, .ok ())
    | .readOnly =>
      let r1 := r.store x.place fun txn => { txn with state := .readWrite, isReadWrite := true }
      ({ r1 with watermarks := lowerRw r.watermarks slot.txn }.markChanged, .ok ())
    | .frozen | .ending | .empty => (r, .error .invalidState)

/-- The state is swapped for `ending` before it is looked at, so a slot that turns out to be
empty stays `ending`. L609-655 -/
def releaseSlot : Registry n k × Except RegistryError Unit :=
  let slot := r.slots x.place
  if slot.generation ≠ x.generation then (r, .error .staleHandle)
  else if slot.txn.state = .empty then
    (r.store x.place fun txn => { txn with state := .ending }, .error .staleHandle)
  else
    let r1 := r.store x.place fun _ => ⟨0, maxTransactionId, maxTransactionId, .empty, false⟩
    let free := update r.freeSlots x.shardIndex (x.slotIndex :: r.freeSlots x.shardIndex)
    ({ r1 with freeSlots := free, watermarks := uncount r.watermarks slot.txn }.markChanged, .ok ())

/-- L803-813 -/
def freeze : Registry n k × Except RegistryError Unit :=
  let slot := r.slots x.place
  if slot.generation ≠ x.generation then (r, .error .staleHandle)
  else if slot.txn.state.isActive then
    (r.store x.place fun txn => { txn with state := .frozen }, .ok ())
  else (r, .error .invalidState)

/-- The inner loop of the scan. L676-709 -/
def scanShard (i : Fin n) : ActiveTxnWatermarks :=
  (finRange k).foldl
    (fun w j => if (r.slots (i, j)).txn.state.isActive then lower w (r.slots (i, j)).txn else w) {}

/-- L743-763 -/
def addShard (g s : ActiveTxnWatermarks) : ActiveTxnWatermarks where
  oldestActiveTxnId := min g.oldestActiveTxnId s.oldestActiveTxnId
  oldestActiveReadTs := min g.oldestActiveReadTs s.oldestActiveReadTs
  oldestActiveStartTs := min g.oldestActiveStartTs s.oldestActiveStartTs
  activeCount := g.activeCount + s.activeCount
  oldestActiveRwReadTs := min g.oldestActiveRwReadTs s.oldestActiveRwReadTs
  oldestActiveRwStartTs := min g.oldestActiveRwStartTs s.oldestActiveRwStartTs
  activeRwCount := g.activeRwCount + s.activeRwCount
  epoch := g.epoch

/-- L672-785 -/
def scan : ActiveTxnWatermarks :=
  (finRange n).foldl (fun g i => addShard g (r.scanShard i))
    { epoch := wrappingSucc r.watermarks.epoch }

/-- `refresh_watermarks`; the watermarks returned are those of the registry after it.
L309-312, 663-667 -/
def scanAndConfirm : Registry n k :=
  { r with watermarks := r.scan, confirmedEpoch := r.dirtyEpoch }

/-- `confirmed_watermarks`; the watermarks returned are those of the registry after it.
L314-324, 655-661 -/
def confirmedScanAndPublish : Registry n k :=
  if r.confirmedEpoch = r.dirtyEpoch then r else r.scanAndConfirm

end Registry

/-! ## Watermarks of a list of transactions -/

/-- What a transaction registered with, and whether it is read-write by now. -/
structure TxnInfo where
  (txnId readTs startTs : Nat)
  readWrite : Bool
deriving DecidableEq, Repr

def Slot.info (s : Slot) : TxnInfo := ⟨s.txn.txnId, s.txn.readTs, s.txn.startTs, s.txn.isReadWrite⟩

/-- The least `f a` over a list, `u64::MAX` when it is empty. -/
def oldest {α : Type} (f : α → Nat) (l : List α) : Nat := (l.map f).foldr min maxTransactionId

/-- The oldest transaction id, read and start timestamp and the number of the transactions,
and the same for the read-write ones. -/
def watermarksOf (l : List TxnInfo) (epoch : Nat) : ActiveTxnWatermarks where
  oldestActiveTxnId := oldest TxnInfo.txnId l
  oldestActiveReadTs := oldest TxnInfo.readTs l
  oldestActiveStartTs := oldest TxnInfo.startTs l
  activeCount := l.length
  oldestActiveRwReadTs := oldest TxnInfo.readTs (l.filter TxnInfo.readWrite)
  oldestActiveRwStartTs := oldest TxnInfo.startTs (l.filter TxnInfo.readWrite)
  activeRwCount := (l.filter TxnInfo.readWrite).length
  epoch := epoch

section
variable {α : Type} {f : α → Nat} {l l1 l2 : List α} {a : α}

@[simp] theorem oldest_nil : oldest f [] = maxTransactionId := rfl

@[simp] theorem oldest_cons : oldest f (a :: l) = min (f a) (oldest f l) := rfl

theorem oldest_le_max : oldest f l ≤ maxTransactionId := by
  induction l with
  | nil => exact le_rfl
  | cons a l ih => exact (min_le_right _ _).trans ih

@[simp] theorem oldest_append : oldest f (l1 ++ l2) = min (oldest f l1) (oldest f l2) := by
  induction l1 with
  | nil => exact (min_eq_right oldest_le_max).symm
  | cons a l ih => simp [ih, Nat.min_assoc]

theorem oldest_perm (h : l1.Perm l2) : oldest f l1 = oldest f l2 := by
  induction h with
  | nil => rfl
  | cons a _ ih => simp [ih]
  | swap a b l => simp [Nat.min_left_comm]
  | trans _ _ ih1 ih2 => exact ih1.trans ih2

/-- Taking an element out can only raise the minimum. -/
theorem oldest_middle_le : oldest f (l1 ++ a :: l2) ≤ oldest f (l1 ++ l2) := by
  rw [oldest_append, oldest_append, oldest_cons]
  omega

theorem oldest_filter_middle_le (p : α → Bool) :
    oldest f ((l1 ++ a :: l2).filter p) ≤ oldest f ((l1 ++ l2).filter p) := by
  rw [filter_append, filter_append, filter_cons]
  split
  · exact oldest_middle_le
  · exact le_rfl

end

variable {l l1 l2 : List TxnInfo} {e e' : Nat}

@[simp] theorem watermarksOf_nil : watermarksOf [] e = { epoch := e } := rfl

theorem watermarksOf_perm (h : l1.Perm l2) : watermarksOf l1 e = watermarksOf l2 e := by
  have hrw := h.filter TxnInfo.readWrite
  simp only [watermarksOf, oldest_perm h, oldest_perm hrw, h.length_eq, hrw.length_eq]

theorem addShard_watermarksOf :
    Registry.addShard (watermarksOf l1 e) (watermarksOf l2 e') = watermarksOf (l1 ++ l2) e := by
  simp [Registry.addShard, watermarksOf]

/-- Adding a slot to the cached watermarks adds its transaction to the list. -/
theorem lower_watermarksOf (s : Slot) : lower (watermarksOf l e) s.txn = watermarksOf (l ++ [s.info]) e := by
  have hmin : ∀ x y, y ≤ maxTransactionId → min y x = min y (min x maxTransactionId) := by
    intro x y hy
    omega
  cases hrw : s.txn.isReadWrite <;>
    simp [lower, watermarksOf, Slot.info, hrw, ← hmin _ _ oldest_le_max]

/-! ## What the slots stand for -/

/-- A live `ActiveTxnHandle`, or `ActiveRwTxnHandle` when its transaction is read-write.
L157-163 -/
structure Handle (n k : Nat) where
  id : Nat
  ref : ActiveSlotRef n k
  info : TxnInfo
deriving DecidableEq, Repr

open Handle

def Handle.place (h : Handle n k) : Fin n × Fin k := h.ref.place

structure Handle.Owns (h : Handle n k) (s : Slot) : Prop where
  generation : s.generation = h.ref.generation
  info : s.info = h.info
  active : s.txn.state.isActive = true
  readOnly : s.txn.state = .readOnly → h.info.readWrite = false
  readWrite : s.txn.state = .readWrite → h.info.readWrite = true

/-- Each live handle owns a slot of its own; the others are inactive and on the free lists. -/
structure Holds (slots : Fin n × Fin k → Slot) (free : Fin n → List (Fin k))
    (live : List (Handle n k)) : Prop where
  places : (live.map place).Nodup
  owns : ∀ h ∈ live, h.Owns (slots h.place)
  idle : ∀ p, p ∉ live.map place → (slots p).txn.state.isActive = false
  freeNodup : ∀ i, (free i).Nodup
  free : ∀ i j, j ∈ free i ↔ (i, j) ∉ live.map place

namespace Holds

variable {slots : Fin n × Fin k → Slot} {free : Fin n → List (Fin k)} {live : List (Handle n k)}
  {live1 live2 : List (Handle n k)} {h h' : Handle n k} {s : Slot}

theorem new : Holds (n := n) (k := k) (fun _ => Slot.empty) (fun _ => finRange k) [] where
  places := nodup_nil
  owns _ hm := absurd hm not_mem_nil
  idle _ _ := rfl
  freeNodup _ := nodup_finRange k
  free i j := by simp

/-- Two live handles with one place are one. -/
theorem eq_of_place (H : Holds slots free live) (hm : h ∈ live) (hm' : h' ∈ live) (hp : h.place = h'.place) : h = h' :=
  inj_on_of_nodup_map H.places hm hm' hp

theorem perm (H : Holds slots free live) {live' : List (Handle n k)} (hp : live.Perm live') :
    Holds slots free live' where
  places := (hp.map place).nodup_iff.1 H.places
  owns h hm := H.owns h (hp.mem_iff.2 hm)
  idle p hidle := H.idle p fun hm => hidle ((hp.map place).mem_iff.1 hm)
  freeNodup := H.freeNodup
  free i j := (H.free i j).trans (not_congr (hp.map place).mem_iff)

/-- A slot popped from a free list is taken by a new handle. -/
theorem allocate (H : Holds slots free live) {i : Fin n} {j : Fin k} {rest : List (Fin k)}
    (hfree : free i = j :: rest) (hp : h.place = (i, j)) (ho : h.Owns s) :
    Holds (update slots (i, j) s) (update free i rest) (live ++ [h]) := by
  have hnew : (i, j) ∉ live.map place := (H.free i j).1 (by rw [hfree]; exact mem_cons_self)
  have hnodup := H.freeNodup i
  rw [hfree, nodup_cons] at hnodup
  refine perm (⟨?_, ?_, ?_, ?_, ?_⟩ : Holds _ _ (h :: live)) (perm_append_singleton h live).symm
  · rw [map_cons, hp]
    exact nodup_cons.2 ⟨hnew, H.places⟩
  · refine forall_mem_cons.2 ⟨?_, fun x hx => ?_⟩
    · rw [hp, update_self]
      exact ho
    · have hne : x.place ≠ (i, j) := fun e => hnew (e ▸ mem_map_of_mem hx)
      rw [update_of_ne hne]
      exact H.owns x hx
  · intro p hp'
    rw [map_cons, hp, mem_cons, not_or] at hp'
    rw [update_of_ne hp'.1]
    exact H.idle p hp'.2
  · intro i'
    by_cases hi : i' = i
    · subst hi; rw [update_self]; exact hnodup.2
    · rw [update_of_ne hi]; exact H.freeNodup i'
  · intro i' j'
    rw [map_cons, hp, mem_cons, not_or, ← H.free i' j']
    by_cases hi : i' = i
    · subst hi
      rw [update_self, hfree, mem_cons]
      constructor
      · intro hm
        exact ⟨fun e => hnodup.1 ((Prod.mk.inj e).2 ▸ hm), .inr hm⟩
      · rintro ⟨hne, hm | hm⟩
        · exact absurd (by rw [hm]) hne
        · exact hm
    · rw [update_of_ne hi]
      exact ⟨fun hm => ⟨fun e => hi (Prod.mk.inj e).1, hm⟩, fun hm => hm.2⟩

/-- The slot of a released handle is inactive and back on its free list. -/
theorem release (H : Holds slots free (live1 ++ h :: live2)) (hs : s.txn.state.isActive = false) :
    Holds (update slots h.place s) (update free h.ref.shardIndex (h.ref.slotIndex :: free h.ref.shardIndex))
      (live1 ++ live2) := by
  have H := H.perm perm_middle
  obtain ⟨hnot, hrest⟩ := nodup_cons.1 H.places
  have hbusy : h.ref.slotIndex ∉ free h.ref.shardIndex := by
    rw [H.free]
    exact not_not.2 mem_cons_self
  refine ⟨hrest, ?_, ?_, ?_, ?_⟩
  · intro x hx
    have hne : x.place ≠ h.place := fun e => hnot (e ▸ mem_map_of_mem hx)
    rw [update_of_ne hne]
    exact H.owns x (mem_cons_of_mem _ hx)
  · intro p hp
    by_cases he : p = h.place
    · rw [he, update_self]; exact hs
    · rw [update_of_ne he]
      exact H.idle p fun hm => (mem_cons.1 hm).elim he hp
  · intro i
    by_cases hi : i = h.ref.shardIndex
    · subst hi
      rw [update_self]
      exact nodup_cons.2 ⟨hbusy, H.freeNodup _⟩
    · rw [update_of_ne hi]; exact H.freeNodup i
  · intro i j
    have hold := H.free i j
    rw [map_cons, mem_cons, not_or] at hold
    by_cases hi : i = h.ref.shardIndex
    · subst hi
      rw [update_self, mem_cons, hold]
      by_cases hj : j = h.ref.slotIndex
      · subst hj
        exact ⟨fun _ => hnot, fun _ => .inl rfl⟩
      · have hne : (h.ref.shardIndex, j) ≠ h.place := fun e => hj (Prod.mk.inj e).2
        exact ⟨fun hm => hm.elim (fun e => absurd e hj) And.right, fun hm => .inr ⟨hne, hm⟩⟩
    · rw [update_of_ne hi, hold]
      have hne : (i, j) ≠ h.place := fun e => hi (Prod.mk.inj e).1
      exact ⟨And.right, fun hm => ⟨hne, hm⟩⟩

/-- Writing to the slot of a live handle is releasing it and taking it again. -/
theorem write (H : Holds slots free (live1 ++ h :: live2)) (hp : h'.place = h.place)
    (ho : h'.Owns s) : Holds (update slots h.place s) free (live1 ++ h' :: live2) := by
  have hagain := (H.release (s := Slot.empty) rfl).allocate (update_self ..) hp ho
  rw [show (h.ref.shardIndex, h.ref.slotIndex) = h.place from rfl, update_idem, update_idem, update_eq_self] at hagain
  exact hagain.perm ((perm_append_singleton ..).trans perm_middle.symm)

/-! ## The scan -/

def activePlaces (slots : Fin n × Fin k → Slot) : List (Fin n × Fin k) :=
  (finRange n).flatMap fun i =>
    ((finRange k).filter fun j => (slots (i, j)).txn.state.isActive).map (Prod.mk i)

theorem mem_activePlaces {p : Fin n × Fin k} : p ∈ activePlaces slots ↔ (slots p).txn.state.isActive = true := by
  obtain ⟨i, j⟩ := p
  simp [activePlaces, mem_flatMap]

theorem nodup_activePlaces : (activePlaces slots).Nodup := by
  refine nodup_flatMap.2 ⟨fun i _ => ?_, ?_⟩
  · exact ((nodup_finRange k).filter _).map fun a b e => (Prod.mk.inj e).2
  · refine (nodup_finRange n).imp fun {i i'} hne => ?_
    intro p hp hp'
    obtain ⟨j, -, rfl⟩ := mem_map.1 hp
    obtain ⟨j', -, e⟩ := mem_map.1 hp'
    exact hne (Prod.mk.inj e).1.symm

/-- The active slots are those of the live handles. -/
theorem activePlaces_perm (H : Holds slots free live) : (activePlaces slots).Perm (live.map place) := by
  refine (perm_ext_iff_of_nodup nodup_activePlaces H.places).2 fun p => ?_
  rw [mem_activePlaces]
  constructor
  · intro ha
    by_contra hp
    rw [H.idle p hp] at ha
    cases ha
  · intro hp
    obtain ⟨h, hm, rfl⟩ := mem_map.1 hp
    exact (H.owns h hm).active

theorem infos_eq (H : Holds slots free live) : (live.map place).map (fun p => (slots p).info) = live.map info := by
  rw [map_map]
  exact map_congr_left fun h hm => (H.owns h hm).info

theorem foldl_slots (js : List (Fin k)) (i : Fin n) (l : List TxnInfo) (e : Nat) :
    js.foldl (fun w j => if (slots (i, j)).txn.state.isActive then lower w (slots (i, j)).txn else w)
      (watermarksOf l e) =
    watermarksOf (l ++ (js.filter fun j => (slots (i, j)).txn.state.isActive).map
      fun j => (slots (i, j)).info) e := by
  induction js generalizing l with
  | nil => simp
  | cons j js ih =>
    rw [foldl_cons]
    by_cases ha : (slots (i, j)).txn.state.isActive = true
    · rw [if_pos ha, lower_watermarksOf, ih]
      simp [ha]
    · rw [if_neg ha, ih]
      simp [ha]

theorem scanShard_eq (r : Registry n k) (i : Fin n) : r.scanShard i = watermarksOf (((finRange k).filter fun j =>
      (r.slots (i, j)).txn.state.isActive).map fun j => (r.slots (i, j)).info) 0 :=
  foldl_slots (finRange k) i [] 0

theorem foldl_shards (r : Registry n k) (is : List (Fin n)) (l : List TxnInfo) (e : Nat) :
    is.foldl (fun g i => Registry.addShard g (r.scanShard i)) (watermarksOf l e) =
      watermarksOf (l ++ is.flatMap fun i => ((finRange k).filter fun j =>
        (r.slots (i, j)).txn.state.isActive).map fun j => (r.slots (i, j)).info) e := by
  induction is generalizing l with
  | nil => simp
  | cons i is ih => rw [foldl_cons, scanShard_eq, addShard_watermarksOf, ih]; simp

/-- A scan computes the watermarks of the live handles. -/
theorem scan {r : Registry n k} (H : Holds r.slots r.freeSlots live) :
    r.scan = watermarksOf (live.map info) (wrappingSucc r.watermarks.epoch) := by
  have hplaces : r.scan = watermarksOf ((activePlaces r.slots).map fun p => (r.slots p).info)
      (wrappingSucc r.watermarks.epoch) := by
    rw [Registry.scan, ← watermarksOf_nil, foldl_shards]
    simp [activePlaces, map_flatMap, Function.comp_def]
  rw [hplaces, watermarksOf_perm (H.activePlaces_perm.map _), H.infos_eq]

end Holds
end Paro.L2.ActiveTxnSlots
