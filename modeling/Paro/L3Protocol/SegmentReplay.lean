import Paro.L2Machine.SegmentCatalog

/-!
# Replay over rotated segments

Runs of a log that starts from `SegmentCatalog::new`: records with consecutive LSNs are appended to the active
segment, and after a flush the active segment may be sealed and a new one started. The state keeps the LSNs each
segment's file holds.

`replay_complete`: for any `replay_from_lsn` the cursor's entries, read in order and each from its own LSN on,
deliver exactly the appended records from that LSN on, once each and in order. It holds as long as the rotations
have not used up the 64-bit segment ids.

The invariant says of two segments that the older one is sealed, above its records and below those of the younger
(`Log.Before`). It says nothing of the start of an empty segment, which is where the start of the segment behind
LSN `u64::MAX` saturates.
-/
namespace Paro.L3.SegmentReplay
open L1 L2 SegmentCatalog List

/-! ## Runs -/

structure Log where
  catalog : SegmentCatalog
  /-- the LSNs in the file of a segment -/
  file : Nat → List Nat
  /-- the LSN of the next record -/
  nextLsn : Nat
  /-- every LSN appended, in order -/
  appended : List Nat

inductive Op
  /-- append one record -/
  | append
  /-- flush all that was appended, with a rotation if the segment is large enough -/
  | flush (rotates : Bool)
deriving DecidableEq

namespace Log

def new (initialStartLsn : Nat) : Log where
  catalog := .new initialStartLsn
  file := fun _ => []
  nextLsn := max initialStartLsn 1
  appended := []

variable (l : Log)

/-- A record needs an LSN of 64 bits. The last flushed LSN is the last one given out. -/
def step : Op → Except WalError Log
  | .append =>
    if l.nextLsn ≤ u64Max then
      .ok { l with
        file := fun id => if id = l.catalog.activeSegmentId then l.file id ++ [l.nextLsn] else l.file id
        nextLsn := l.nextLsn + 1
        appended := l.appended ++ [l.nextLsn] }
    else .ok l
  | .flush rotates =>
    if rotates then (l.catalog.rotate (l.nextLsn - 1)).map fun catalog => { l with catalog }
    else .ok l

def run (ops : List Op) : Except WalError Log :=
  ops.foldlM step l

def deliver (entries : List ReplayCursorEntry) : List Nat :=
  entries.flatMap fun e => (l.file e.segmentId).filter (e.replayFromLsn ≤ ·)

/-! ## Segments in order -/

/-- `e` is sealed, above its own records and below those of `e'`, which start where `e` does or later. -/
def Before (e e' : SegmentCatalogEntry) : Prop :=
  e.segmentId < e'.segmentId ∧
    (∃ sealedEnd, e.sealedEndLsn = some sealedEnd ∧ (∀ r ∈ l.file e.segmentId, r ≤ sealedEnd) ∧
      ∀ r ∈ l.file e'.segmentId, sealedEnd < r) ∧
    ∀ r ∈ l.file e'.segmentId, e.startLsn ≤ r

/-- The segments of the catalog hold what was appended, in order. -/
structure Chained (l : Log) : Prop where
  order : l.catalog.segments.Pairwise l.Before
  starts : ∀ e ∈ l.catalog.segments, ∀ r ∈ l.file e.segmentId, e.startLsn ≤ r
  holds : l.catalog.segments.flatMap (fun e => l.file e.segmentId) = l.appended

variable {l : Log} {id : Nat}

theorem sorted_eq (h : l.catalog.segments.Pairwise l.Before) : l.catalog.sorted = l.catalog.segments :=
  (h.imp fun h => le_of_lt h.1).insertionSort_eq

variable {l : Log} {first k : Nat}

/-- The segment the cursor starts with: the records before it are below the LSN, those behind it are not. -/
theorem Chained.segmentForReplayLsn (h : l.Chained) (hne : l.catalog.segments ≠ []) (lsn : Nat) :
    ∃ before s after, l.catalog.segments = before ++ s :: after ∧ l.catalog.segmentForReplayLsn lsn = some s ∧
      (∀ e ∈ before, ∀ r ∈ l.file e.segmentId, r < lsn) ∧ ∀ e ∈ after, ∀ r ∈ l.file e.segmentId, lsn ≤ r := by
  have horder := h.order
  obtain ⟨first, rest, hfirst⟩ := exists_cons_of_ne_nil hne
  -- with the LSN at or before the start of the first segment everything is replayed
  have hall : lsn ≤ first.startLsn → ∀ e ∈ rest, ∀ r ∈ l.file e.segmentId, lsn ≤ r := by
    intro hle e he r hr
    rw [hfirst, pairwise_cons] at horder
    exact le_trans hle ((horder.1 e he).2.2 r hr)
  unfold SegmentCatalog.segmentForReplayLsn
  rw [sorted_eq h.order]
  by_cases hzero : lsn = 0
  · exact ⟨[], first, rest, hfirst, by rw [if_pos hzero, hfirst]; rfl, by simp, hall (by omega)⟩
  rw [if_neg hzero]
  rcases replayCandidate_spec lsn l.catalog.segments.head? l.catalog.segments with
    ⟨heq, hstart⟩ | ⟨before, s, after, hsplit, heq, hbefore, hafter⟩
  · have hlt := hstart first (by rw [hfirst]; rfl)
    exact ⟨[], first, rest, hfirst, by rw [heq, hfirst]; rfl, by simp, hall (le_of_lt hlt)⟩
  refine ⟨before, s, after, hsplit, heq, ?_, ?_⟩
  · intro e he r hr
    rw [hsplit, pairwise_append] at horder
    obtain ⟨-, ⟨sealedEnd, hsealed, hle, -⟩, -⟩ := horder.2.2 e he s mem_cons_self
    have hpassed := hbefore e he
    simp only [hsealed, Option.any_some, decide_eq_false_iff_not, not_le] at hpassed
    exact lt_of_le_of_lt (hle r hr) hpassed
  · rw [hsplit, pairwise_append, pairwise_cons] at horder
    obtain ⟨-, ⟨hs, hafterOrder⟩, -⟩ := horder
    rcases hafter with hsealedAny | hnext
    · intro e he r hr
      obtain ⟨-, ⟨sealedEnd, hsealed, -, hlt⟩, -⟩ := hs e he
      simp only [hsealed, Option.any_some, decide_eq_true_eq] at hsealedAny
      exact le_of_lt (lt_of_le_of_lt hsealedAny (hlt r hr))
    · cases after with
      | nil => simp
      | cons next after =>
        have hnext' := hnext next rfl
        intro e he r hr
        rcases mem_cons.1 he with rfl | he
        · exact le_of_lt (lt_of_lt_of_le hnext' (h.starts e (by rw [hsplit]; simp) r hr))
        · exact le_of_lt (lt_of_lt_of_le hnext' (((pairwise_cons.1 hafterOrder).1 e he).2.2 r hr))

/-- The cursor of a log in order delivers what it should. -/
theorem Chained.deliver (h : l.Chained) (hne : l.catalog.segments ≠ []) (lsn : Nat) :
    ∃ entries, l.catalog.replayCursor 0 lsn = .ok entries ∧ l.deliver entries = l.appended.filter (lsn ≤ ·) := by
  obtain ⟨before, s, after, hsplit, hstart, hbefore, hafter⟩ := h.segmentForReplayLsn hne lsn
  have horder := h.order
  rw [hsplit, pairwise_append, pairwise_cons] at horder
  obtain ⟨-, ⟨hs, -⟩, hskip⟩ := horder
  have hentries : cursorEntries s.segmentId lsn false l.catalog.sorted =
      ⟨s.segmentId, s.startLsn, max lsn s.startLsn⟩ :: after.map fun e => ⟨e.segmentId, e.startLsn, e.startLsn⟩ := by
    rw [sorted_eq h.order, hsplit, cursorEntries_skip fun e he => (hskip e he s mem_cons_self).1, cursorEntries,
      if_neg (lt_irrefl _), cursorEntries_seen fun e he => le_of_lt (hs e he).1]
    rfl
  have hcursor : l.catalog.replayCursor 0 lsn = .ok (cursorEntries s.segmentId lsn false l.catalog.sorted) := by
    simp [replayCursor, hstart, hentries]
  rw [hentries] at hcursor
  refine ⟨_, hcursor, ?_⟩
  have hnone : (before.flatMap fun e => l.file e.segmentId).filter (lsn ≤ ·) = [] := by
    rw [filter_eq_nil_iff]
    intro r hr
    obtain ⟨e, he, hre⟩ := mem_flatMap.1 hr
    simpa using hbefore e he r hre
  have hfirst : (l.file s.segmentId).filter (max lsn s.startLsn ≤ ·) = (l.file s.segmentId).filter (lsn ≤ ·) := by
    apply filter_congr
    intro r hr
    have := h.starts s (by rw [hsplit]; simp) r hr
    simp only [decide_eq_decide]
    omega
  have hrest : ∀ e ∈ after, (l.file e.segmentId).filter (e.startLsn ≤ ·) = (l.file e.segmentId).filter (lsn ≤ ·) := by
    intro e he
    apply filter_congr
    intro r hr
    have := h.starts e (by rw [hsplit]; simp [he]) r hr
    simp [this, hafter e he r hr]
  rw [Log.deliver, flatMap_cons, hfirst, flatMap_map, ← h.holds, hsplit, flatMap_append,
    filter_append, hnone, nil_append, flatMap_cons, filter_append, filter_flatMap]
  congr 1
  simp only [flatMap_def]
  rw [map_congr_left hrest]

/-! ## The invariant of a run -/

/-- After `k` rotations of a log that started at LSN `first`. -/
structure Inv (first k : Nat) (l : Log) : Prop where
  chained : l.Chained
  active : ∃ old active, l.catalog.segments = old ++ [active] ∧ active.segmentId = l.catalog.activeSegmentId
  activeId : l.catalog.activeSegmentId = k + 1
  nextId : l.catalog.nextSegmentId = k + 2
  ids : ∀ e ∈ l.catalog.segments, e.segmentId ≤ k + 1
  fresh : ∀ id, k + 1 < id → l.file id = []
  startsLe : ∀ e ∈ l.catalog.segments, e.startLsn ≤ l.nextLsn
  sealedLt : ∀ e ∈ l.catalog.segments, ∀ sealedEnd ∈ e.sealedEndLsn, sealedEnd < l.nextLsn
  below : ∀ id, ∀ r ∈ l.file id, r < l.nextLsn
  pos : 1 ≤ l.nextLsn
  appended : l.appended = List.range' first l.appended.length
  nextLsn : l.nextLsn = first + l.appended.length

theorem inv_new (initialStartLsn : Nat) : (Log.new initialStartLsn).Inv (max initialStartLsn 1) 0 where
  chained := ⟨pairwise_singleton _ _, by simp [Log.new], by simp [Log.new]⟩
  active := ⟨[], _, rfl, rfl⟩
  activeId := rfl
  nextId := rfl
  ids := by simp [Log.new, SegmentCatalog.new]
  fresh := fun _ _ => rfl
  startsLe := by simp [Log.new, SegmentCatalog.new, le_total]
  sealedLt := by simp [Log.new, SegmentCatalog.new]
  below := by simp [Log.new]
  pos := le_max_right _ _
  appended := rfl
  nextLsn := rfl

def appendOne (l : Log) : Log :=
  { l with
    file := fun id => if id = l.catalog.activeSegmentId then l.file id ++ [l.nextLsn] else l.file id
    nextLsn := l.nextLsn + 1
    appended := l.appended ++ [l.nextLsn] }

theorem forall_file_appendOne {P : Nat → Prop} (hold : ∀ r ∈ l.file id, P r) (hnew : P l.nextLsn) :
    ∀ r ∈ l.appendOne.file id, P r := by
  unfold appendOne
  dsimp only
  split
  · exact forall_mem_append.2 ⟨hold, forall_mem_singleton.2 hnew⟩
  · exact hold

theorem file_appendOne_of_ne (h : id ≠ l.catalog.activeSegmentId) : l.appendOne.file id = l.file id := if_neg h

theorem Inv.appendOne (h : l.Inv first k) : l.appendOne.Inv first k := by
  obtain ⟨old, active, hsegments, hactive⟩ := h.active
  -- an older segment than some other is not the active one
  have hne : ∀ e e' : SegmentCatalogEntry, e' ∈ l.catalog.segments → e.segmentId < e'.segmentId →
      e.segmentId ≠ l.catalog.activeSegmentId := by
    intro e e' he' hlt
    have := h.ids e' he'
    rw [h.activeId]
    omega
  refine ⟨⟨?_, ?_, ?_⟩, h.active, h.activeId, h.nextId, h.ids, ?_, ?_, ?_, ?_, ?_, ?_, ?_⟩
  · refine h.chained.order.imp_of_mem ?_
    rintro e e' he he' ⟨hid, ⟨sealedEnd, hsealed, hle, hlt⟩, hstart⟩
    refine ⟨hid, ⟨sealedEnd, hsealed, ?_, ?_⟩, ?_⟩
    · rw [file_appendOne_of_ne (hne e e' he' hid)]
      exact hle
    · exact forall_file_appendOne hlt (h.sealedLt e he sealedEnd hsealed)
    · exact forall_file_appendOne hstart (h.startsLe e he)
  · exact fun e he => forall_file_appendOne (h.chained.starts e he) (h.startsLe e he)
  · have hholds := h.chained.holds
    have horder := h.chained.order
    show l.catalog.segments.flatMap (fun e => l.appendOne.file e.segmentId) = l.appended ++ [l.nextLsn]
    rw [hsegments, pairwise_append] at horder
    have hold : ∀ e ∈ old, l.appendOne.file e.segmentId = l.file e.segmentId := by
      intro e he
      refine file_appendOne_of_ne (hne e active (by rw [hsegments]; simp) ?_)
      exact (horder.2.2 e he active (by simp)).1
    rw [hsegments, flatMap_append, flatMap_singleton] at hholds ⊢
    rw [← hholds, append_assoc, flatMap_def, map_congr_left hold, ← flatMap_def]
    congr 1
    exact if_pos hactive
  · intro id hid
    rw [file_appendOne_of_ne (by rw [h.activeId]; omega)]
    exact h.fresh id hid
  · exact fun e he => Nat.le_succ_of_le (h.startsLe e he)
  · exact fun e he sealedEnd hs => Nat.lt_succ_of_lt (h.sealedLt e he sealedEnd hs)
  · exact fun id => forall_file_appendOne (fun r hr => Nat.lt_succ_of_lt (h.below id r hr)) (Nat.lt_succ_self _)
  · exact Nat.le_succ_of_le h.pos
  · show l.appended ++ [l.nextLsn] = List.range' first (l.appended ++ [l.nextLsn]).length
    rw [length_append, length_singleton, List.range'_1_concat, ← h.appended, ← h.nextLsn]
  · show l.nextLsn + 1 = first + (l.appended ++ [l.nextLsn]).length
    rw [length_append, length_singleton, h.nextLsn]
    rfl

/-- The catalog after a rotation: the active segment sealed, and a new one behind it. -/
theorem Inv.rotate (h : l.Inv first k) (hids : k + 3 ≤ u64Max) (flushedLsn : Nat) :
    ∃ old active, l.catalog.segments = old ++ [active] ∧ l.catalog.rotate flushedLsn = .ok { l.catalog with
        nextSegmentId := k + 3
        activeSegmentId := k + 2
        segments := old ++ [{ active with sealedEndLsn := some flushedLsn },
          { segmentId := k + 2, startLsn := min (flushedLsn + 1) u64Max }] } := by
  obtain ⟨old, active, hsegments, hactive⟩ := h.active
  have horder := h.chained.order
  have hidsLe := h.ids
  have hne : ∀ e ∈ old, (e.segmentId == l.catalog.activeSegmentId) = false := by
    intro e he
    rw [hsegments, pairwise_append] at horder
    have := (horder.2.2 e he active (by simp)).1
    simp only [beq_eq_false_iff_ne]
    omega
  have hseal : l.catalog.sealActive flushedLsn =
      { l.catalog with segments := old ++ [{ active with sealedEndLsn := some flushedLsn }] } :=
    sealActive_eq hsegments hne hactive
  have hisSome : l.catalog.activeSegment.isNone = false := by
    rw [activeSegment, hsegments, Option.isNone_eq_false_iff, find?_isSome]
    exact ⟨active, by simp, by simpa using hactive⟩
  have hsorted : (old ++ [{ active with sealedEndLsn := some flushedLsn },
      { segmentId := k + 2, startLsn := min (flushedLsn + 1) u64Max }]).Pairwise
        fun s t : SegmentCatalogEntry => s.segmentId ≤ t.segmentId := by
    rw [hsegments] at horder hidsLe
    rw [pairwise_append] at horder ⊢
    refine ⟨horder.1.imp fun h => le_of_lt h.1, ?_, ?_⟩
    · simpa using Nat.le_succ_of_le (hidsLe active (by simp))
    · intro e he t ht
      have hlt := (horder.2.2 e he active (by simp)).1
      have hle := hidsLe e (by simp [he])
      simp only [mem_cons, not_mem_nil, or_false] at ht
      rcases ht with rfl | rfl
      · exact le_of_lt hlt
      · exact Nat.le_succ_of_le hle
  refine ⟨old, active, hsegments, ?_⟩
  unfold SegmentCatalog.rotate
  rw [hisSome, if_neg (by simp), hseal, appendRotatedSegment]
  simp only [sorted, append_assoc, cons_append, nil_append, h.nextId, hsorted.insertionSort_eq]
  congr 2
  omega

theorem Inv.rotated (h : l.Inv first k) (hids : k + 3 ≤ u64Max) :
    ∃ catalog, l.catalog.rotate (l.nextLsn - 1) = .ok catalog ∧ { l with catalog }.Inv first (k + 1) := by
  obtain ⟨old, active, hsegments, hrotate⟩ := h.rotate hids (l.nextLsn - 1)
  have horder := h.chained.order
  have hstarts := h.chained.starts
  have hholds := h.chained.holds
  have hids' := h.ids
  have hle := h.startsLe
  have hlt := h.sealedLt
  have hpos := h.pos
  have hfresh : l.file (k + 2) = [] := h.fresh _ (by omega)
  rw [hsegments] at horder hstarts hholds hids' hle hlt
  rw [pairwise_append] at horder
  have hall {P : SegmentCatalogEntry → Prop} {a b} (hold : ∀ e ∈ old, P e) (ha : P a) (hb : P b) :
      ∀ e ∈ old ++ [a, b], P e := by
    simpa [or_imp, forall_and] using ⟨hold, ha, hb⟩
  refine ⟨_, hrotate, ⟨⟨?_, ?_, ?_⟩, ?_, rfl, rfl, ?_, ?_, ?_, ?_, h.below, h.pos, h.appended, h.nextLsn⟩⟩
  · refine pairwise_append.2 ⟨horder.1, pairwise_pair.2 ?_, ?_⟩
    · refine ⟨Nat.lt_succ_of_le (hids' active (by simp)), ⟨l.nextLsn - 1, rfl, ?_, ?_⟩, ?_⟩
      · exact fun r hr => Nat.le_sub_one_of_lt (h.below _ r hr)
      · simp [hfresh]
      · simp [hfresh]
    · intro e he t ht
      have hbefore := horder.2.2 e he active (by simp)
      simp only [mem_cons, not_mem_nil, or_false] at ht
      rcases ht with rfl | rfl
      · exact hbefore
      · obtain ⟨-, ⟨sealedEnd, hsealed, hrecords, -⟩, -⟩ := hbefore
        exact ⟨Nat.lt_succ_of_le (hids' e (by simp [he])), ⟨sealedEnd, hsealed, hrecords, by simp [hfresh]⟩,
          by simp [hfresh]⟩
  · refine hall (fun e he => hstarts e (by simp [he])) (hstarts active (by simp)) ?_
    simp [hfresh]
  · simpa [hfresh] using hholds
  · exact ⟨old ++ [{ active with sealedEndLsn := some (l.nextLsn - 1) }],
      { segmentId := k + 2, startLsn := min (l.nextLsn - 1 + 1) u64Max }, by simp, rfl⟩
  · refine hall (fun e he => ?_) ?_ le_rfl
    · exact Nat.le_succ_of_le (hids' e (by simp [he]))
    · exact Nat.le_succ_of_le (hids' active (by simp))
  · exact fun id hid => h.fresh id (by omega)
  · refine hall (fun e he => hle e (by simp [he])) (hle active (by simp)) ?_
    show min (l.nextLsn - 1 + 1) u64Max ≤ l.nextLsn
    omega
  · refine hall (fun e he => hlt e (by simp [he])) (fun sealedEnd hs => ?_) fun sealedEnd hs => ?_
    · cases hs
      show l.nextLsn - 1 < l.nextLsn
      omega
    · cases hs

/-- Every run succeeds and keeps the invariant, as long as there are segment ids left. -/
theorem Inv.run {first k : Nat} {l : Log} (h : l.Inv first k) (ops : List Op)
    (hids : k + ops.count (.flush true) + 2 ≤ u64Max) :
    ∃ l', l.run ops = .ok l' ∧ l'.Inv first (k + ops.count (.flush true)) := by
  induction ops generalizing k l with
  | nil => exact ⟨l, rfl, h⟩
  | cons op ops ih =>
    match op with
    | .append =>
      simp only [Log.run, foldlM_cons, Log.step]
      split
      · obtain ⟨l', hrun, hinv⟩ := ih h.appendOne (by simpa using hids)
        exact ⟨l', hrun, by simpa using hinv⟩
      · obtain ⟨l', hrun, hinv⟩ := ih h (by simpa using hids)
        exact ⟨l', hrun, by simpa using hinv⟩
    | .flush false =>
      obtain ⟨l', hrun, hinv⟩ := ih h (by simpa using hids)
      exact ⟨l', hrun, by simpa using hinv⟩
    | .flush true =>
      simp only [count_cons_self] at hids ⊢
      obtain ⟨catalog, hrotate, hrotated⟩ := h.rotated (by omega)
      obtain ⟨l', hrun, hinv⟩ := ih hrotated (by omega)
      refine ⟨l', ?_, by rw [add_assoc, add_comm 1] at hinv; exact hinv⟩
      simp only [Log.run, foldlM_cons, Log.step, if_true, hrotate]
      exact hrun

end Log

open Log

/-- Over every run, and for every LSN to replay from: the run succeeds, and what the cursor delivers is what was
appended from that LSN on, in increasing order. -/
theorem replay_complete (initialStartLsn : Nat) (ops : List Op)
    (hids : ops.count (.flush true) + 2 ≤ u64Max) :
    ∃ l, (Log.new initialStartLsn).run ops = .ok l ∧
      l.appended = List.range' (max initialStartLsn 1) l.appended.length ∧
      ∀ replayFromLsn, ∃ entries, l.catalog.replayCursor 0 replayFromLsn = .ok entries ∧
        l.deliver entries = l.appended.filter (replayFromLsn ≤ ·) ∧
        (l.deliver entries).Pairwise (· < ·) := by
  obtain ⟨l, hrun, hinv⟩ := (inv_new initialStartLsn).run ops (by omega)
  obtain ⟨old, active, hsegments, -⟩ := hinv.active
  refine ⟨l, hrun, hinv.appended, fun replayFromLsn => ?_⟩
  obtain ⟨entries, hcursor, hdeliver⟩ := hinv.chained.deliver (by simp [hsegments]) replayFromLsn
  refine ⟨entries, hcursor, hdeliver, ?_⟩
  rw [hdeliver, hinv.appended]
  exact List.Pairwise.filter _ pairwise_lt_range'

/-- Records 1 to 4 with an empty segment between the second and the third one, replayed from LSN 2. -/
theorem replay_complete_empty_segment :
    ∃ l, (Log.new 0).run [.append, .append, .flush true, .flush true, .append, .flush true, .append] = .ok l ∧
      l.catalog.segments.length = 4 ∧
      ∃ entries, l.catalog.replayCursor 0 2 = .ok entries ∧ l.deliver entries = [2, 3, 4] := by
  obtain ⟨l, hrun, -, hreplay⟩ :=
    replay_complete 0 [.append, .append, .flush true, .flush true, .append, .flush true, .append] (by decide)
  obtain ⟨entries, hcursor, hdeliver, -⟩ := hreplay 2
  have hok := Except.ok.inj hrun
  refine ⟨l, hrun, by rw [← hok]; rfl, entries, hcursor, ?_⟩
  rw [hdeliver, ← hok]
  rfl

end Paro.L3.SegmentReplay
