import Mathlib.Data.List.Sort
import Paro.L1Encoding.WalFormat

/-!
# Segment catalog

Model of `SegmentCatalog` (crates/journal/src/segments/catalog.rs) and of the replay cursor
(crates/journal/src/segments/replay.rs): which physical segments a recovery reads, and from which LSN
on each of them is applied. Locators and paths are left out; a segment is named by its id.
-/
namespace Paro.L2
open L1 List

/-- catalog.rs:77-83 -/
structure SegmentCatalogEntry where
  (segmentId startLsn : Nat)
  sealedEndLsn : Option Nat := none
deriving DecidableEq, Repr

def segmentCatalogFormatVersion : Nat := 1

/-- catalog.rs:85-91 -/
structure SegmentCatalog where
  formatVersion : Nat := segmentCatalogFormatVersion
  (activeSegmentId nextSegmentId : Nat)
  segments : List SegmentCatalogEntry
deriving DecidableEq, Repr

/-- replay.rs:8-14 -/
structure ReplayCursorEntry where
  (segmentId startingLsn replayFromLsn : Nat)
deriving DecidableEq, Repr

namespace SegmentCatalog

/-- catalog.rs:94-106 -/
def new (initialStartLsn : Nat) : SegmentCatalog where
  activeSegmentId := 1
  nextSegmentId := 2
  segments := [{ segmentId := 1, startLsn := max initialStartLsn 1 }]

variable (c : SegmentCatalog)

/-- catalog.rs:133-137 -/
def activeSegment : Option SegmentCatalogEntry :=
  c.segments.find? fun s => s.segmentId == c.activeSegmentId

def u64Max : Nat := 2 ^ 64 - 1

/-- `active_segment_mut` with the assignment of `sealed_end_lsn`. write_ahead_log.rs:152-157 -/
def sealActive (flushedLsn : Nat) : SegmentCatalog :=
  match c.segments.findIdx? fun s => s.segmentId == c.activeSegmentId with
  | none => c
  | some i => { c with segments := c.segments.modify i fun s => { s with sealedEndLsn := some flushedLsn } }

/-- catalog.rs:108-131 -/
def validate : Except WalError Unit :=
  if c.formatVersion ≠ segmentCatalogFormatVersion then .error .catalogInvalid
  else if c.segments.isEmpty then .error .catalogInvalid
  else if c.activeSegment.isNone then .error .catalogInvalid
  else .ok ()

def sorted : List SegmentCatalogEntry :=
  c.segments.insertionSort fun s t => s.segmentId ≤ t.segmentId

/-- catalog.rs:145-158 -/
def appendRotatedSegment (startLsn : Nat) : SegmentCatalog :=
  let pushed : SegmentCatalog := { c with
    nextSegmentId := min (c.nextSegmentId + 1) u64Max
    activeSegmentId := c.nextSegmentId
    segments := c.segments ++ [{ segmentId := c.nextSegmentId, startLsn }] }
  { pushed with segments := pushed.sorted }

/-- The rotation of a segment that has grown past the limit. write_ahead_log.rs:145-162 -/
def rotate (flushedLsn : Nat) : Except WalError SegmentCatalog :=
  if c.activeSegment.isNone then .error .catalogInvalid
  else .ok ((c.sealActive flushedLsn).appendRotatedSegment (min (flushedLsn + 1) u64Max))

/-- The loop over the sorted segments. catalog.rs:168-181 -/
def replayCandidate (lsn : Nat) : Option SegmentCatalogEntry → List SegmentCatalogEntry →
    Option SegmentCatalogEntry
  | candidate, [] => candidate
  | candidate, s :: rest =>
    if s.startLsn > lsn then candidate
    else if s.sealedEndLsn.any (lsn ≤ ·) then some s
    else replayCandidate lsn (some s) rest

/-- catalog.rs:160-182 -/
def segmentForReplayLsn (replayFromLsn : Nat) : Option SegmentCatalogEntry :=
  if replayFromLsn = 0 then c.sorted.head?
  else replayCandidate replayFromLsn c.sorted.head? c.sorted

/-- The loop that collects the entries; only the first one is cut at the requested LSN.
replay.rs:44-63 -/
def cursorEntries (replaySegmentId replayFromLsn : Nat) : Bool → List SegmentCatalogEntry →
    List ReplayCursorEntry
  | _, [] => []
  | seen, s :: rest =>
    if s.segmentId < replaySegmentId then cursorEntries replaySegmentId replayFromLsn seen rest
    else
      ⟨s.segmentId, s.startLsn, if seen then s.startLsn else max replayFromLsn s.startLsn⟩ ::
        cursorEntries replaySegmentId replayFromLsn true rest

/-- replay.rs:22-74 -/
def replayCursor (replayFromSegmentId replayFromLsn : Nat) : Except WalError (List ReplayCursorEntry) :=
  let replaySegmentId :=
    if replayFromSegmentId = 0 then
      ((c.segmentForReplayLsn replayFromLsn).map (·.segmentId)).getD c.activeSegmentId
    else replayFromSegmentId
  let entries := cursorEntries replaySegmentId replayFromLsn false c.sorted
  if replaySegmentId ≠ 0 ∧ entries = [] then .error (.replayStartNotFound replaySegmentId)
  else .ok entries

/-- The active segment is the last one of the catalog. -/
theorem sealActive_eq {c : SegmentCatalog} {old : List SegmentCatalogEntry} {active : SegmentCatalogEntry}
    {flushedLsn : Nat} (hsegments : c.segments = old ++ [active])
    (hold : ∀ e ∈ old, (e.segmentId == c.activeSegmentId) = false) (hactive : active.segmentId = c.activeSegmentId) :
    c.sealActive flushedLsn = { c with segments := old ++ [{ active with sealedEndLsn := some flushedLsn }] } := by
  have hidx : c.segments.findIdx? (fun s => s.segmentId == c.activeSegmentId) = some old.length := by
    rw [hsegments, findIdx?_append, findIdx?_eq_none_iff.2 hold]
    simp [hactive]
  have hmodify : ∀ l : List SegmentCatalogEntry,
      (l ++ [active]).modify l.length (fun s => { s with sealedEndLsn := some flushedLsn }) =
        l ++ [{ active with sealedEndLsn := some flushedLsn }] := by
    intro l
    induction l with
    | nil => rfl
    | cons e l ih => simpa using ih
  rw [sealActive, hidx]
  simp only [hsegments, hmodify]

/-- What the loop settles on: the candidate it was given, if the first segment starts behind the LSN; otherwise a
segment such that those before it are sealed below the LSN, and it holds the LSN, or is the last, or the next one
starts behind the LSN. -/
theorem replayCandidate_spec (lsn : Nat) (candidate : Option SegmentCatalogEntry)
    (segments : List SegmentCatalogEntry) :
    (replayCandidate lsn candidate segments = candidate ∧ ∀ s ∈ segments.head?, lsn < s.startLsn) ∨
      ∃ before s after, segments = before ++ s :: after ∧ replayCandidate lsn candidate segments = some s ∧
        (∀ e ∈ before, e.sealedEndLsn.any (lsn ≤ ·) = false) ∧
        (s.sealedEndLsn.any (lsn ≤ ·) = true ∨ ∀ e ∈ after.head?, lsn < e.startLsn) := by
  induction segments generalizing candidate with
  | nil => exact .inl ⟨rfl, by simp⟩
  | cons s rest ih =>
    by_cases hstart : s.startLsn > lsn
    · exact .inl ⟨by rw [replayCandidate, if_pos hstart], by simpa using hstart⟩
    by_cases hsealed : s.sealedEndLsn.any (lsn ≤ ·) = true
    · exact .inr ⟨[], s, rest, rfl, by rw [replayCandidate, if_neg hstart, if_pos hsealed], by simp, .inl hsealed⟩
    have hloop : replayCandidate lsn candidate (s :: rest) = replayCandidate lsn (some s) rest := by
      rw [replayCandidate, if_neg hstart, if_neg hsealed]
    rw [hloop]
    right
    rcases ih (some s) with ⟨heq, hnext⟩ | ⟨before, t, after, hrest, heq, hbefore, hafter⟩
    · exact ⟨[], s, rest, rfl, heq, by simp, .inr hnext⟩
    refine ⟨s :: before, t, after, by rw [hrest]; rfl, heq, ?_, hafter⟩
    exact forall_mem_cons.2 ⟨Bool.eq_false_iff.2 hsealed, hbefore⟩

variable {id lsn : Nat}

/-- The segments before the chosen one are skipped. -/
theorem cursorEntries_skip {before rest : List SegmentCatalogEntry} (h : ∀ e ∈ before, e.segmentId < id) :
    cursorEntries id lsn false (before ++ rest) = cursorEntries id lsn false rest := by
  induction before with
  | nil => rfl
  | cons e before ih =>
    rw [cons_append, cursorEntries, if_pos (h e mem_cons_self)]
    exact ih fun e' he' => h e' (mem_cons_of_mem _ he')

/-- Those behind it are read from their start. -/
theorem cursorEntries_seen {after : List SegmentCatalogEntry} (h : ∀ e ∈ after, id ≤ e.segmentId) :
    cursorEntries id lsn true after = after.map fun e => ⟨e.segmentId, e.startLsn, e.startLsn⟩ := by
  induction after with
  | nil => rfl
  | cons e after ih =>
    rw [cursorEntries, if_neg (not_lt.2 (h e mem_cons_self)), map_cons, ih fun e' he' => h e' (mem_cons_of_mem _ he')]
    rfl

/-- A fresh catalog is valid, and its cursor is its one segment. -/
theorem replayCursor_new (initialStartLsn replayFromLsn : Nat) : (new initialStartLsn).validate = .ok () ∧
      (new initialStartLsn).replayCursor 0 replayFromLsn =
        .ok [⟨1, max initialStartLsn 1, max replayFromLsn (max initialStartLsn 1)⟩] := by
  refine ⟨rfl, ?_⟩
  have hsegment : (new initialStartLsn).segmentForReplayLsn replayFromLsn =
      some { segmentId := 1, startLsn := max initialStartLsn 1 } := by
    unfold segmentForReplayLsn
    split
    · rfl
    · simp [sorted, new, insertionSort_cons, insertionSort_nil, orderedInsert_nil, replayCandidate, head?_cons,
      ite_self]
  simp only [replayCursor, hsegment, if_true, Option.map_some, Option.getD_some]
  rfl

end SegmentCatalog
end Paro.L2
