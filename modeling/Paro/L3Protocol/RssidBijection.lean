import Paro.L2Machine.RssidManager

/-!
# Rowset-segment ids stay a bijection

A run is a list of calls on a manager rebuilt from consistent entries. `StepOk` is what each call has to do:
leave the two maps inverse to each other, not hand out an id of another pair, and change nothing when it fails.

Two calls can break this. `register_existing` writes the forward map before it looks at the reverse map, so with
a free id and a pair that has one already it fails and leaves the id mapped. `allocate` does not look whether the
id it takes is free; the counter stands on a mapped id once `u32::MAX` has been mapped or the counter has wrapped.
`StepFree` excludes exactly these (`stepOk_iff`).
-/
namespace Paro.L3.RssidBijection
open L2 RssidManager Function

inductive Op
  | allocate (key : SegmentKey)
  | registerExisting (rssid : Rssid) (key : SegmentKey)
  | removeMany (rssids : List Rssid)

variable (m : RssidManager)

def step : Op → RssidManager
  | .allocate key => (m.allocate key).2
  | .registerExisting rssid key => (m.registerExisting rssid key).2
  | .removeMany rssids => m.removeMany rssids

/-- What a call promises besides inverse maps. -/
def Promise : Op → Prop
  | .allocate key => ∀ other, m.mapping (m.allocate key).1 = some other → other = key
  | .registerExisting rssid key =>
    ∀ e, (m.registerExisting rssid key).1 = .error e → (m.registerExisting rssid key).2 = m
  | .removeMany _ => True

def StepOk (op : Op) : Prop := (step m op).Inverse ∧ Promise m op

/-- The calls that find what they are about to take free. -/
def StepFree : Op → Prop
  | .allocate key => m.reverseMapping key = none → m.mapping m.nextRssid = none
  | .registerExisting rssid key => m.mapping rssid = none → m.reverseMapping key = none
  | .removeMany _ => True

/-- Each call of a run satisfies `P` in the state it is made in. -/
def AllSteps (P : RssidManager → Op → Prop) : RssidManager → List Op → Prop
  | _, [] => True
  | m, op :: ops => P m op ∧ AllSteps P (step m op) ops

variable {m : RssidManager}

theorem allocate_ok_iff (h : m.Inverse) (key : SegmentKey) : StepOk m (.allocate key) ↔ StepFree m (.allocate key) := by
  cases hkey : m.reverseMapping key with
  | some existing =>
    have halloc : m.allocate key = (existing, m) := by rw [allocate, hkey]
    simp only [StepOk, step, Promise, StepFree, halloc, hkey]
    refine ⟨fun _ e => (by cases e), fun _ => ⟨h, fun other hother => ?_⟩⟩
    rw [(h existing key).2 hkey] at hother
    exact (Option.some.inj hother).symm
  | none =>
    have halloc : m.allocate key = (m.nextRssid, ⟨m.nextRssid + 1, update m.mapping m.nextRssid (some key),
        update m.reverseMapping key (some m.nextRssid)⟩) := by rw [allocate, hkey]
    simp only [StepOk, step, Promise, StepFree, halloc, hkey, true_implies]
    refine ⟨fun ⟨_, hother⟩ => ?_, fun hfree => ⟨h.insert hfree hkey _, fun other hother => ?_⟩⟩
    · cases hnext : m.mapping m.nextRssid with
      | none => rfl
      | some other =>
        -- the id belongs to the pair that is just being added, which has none
        obtain rfl := hother other hnext
        exact absurd hnext (h.none_of_none hkey _)
    · rw [hfree] at hother
      cases hother

theorem registerExisting_ok_iff (h : m.Inverse) (rssid : Rssid) (key : SegmentKey) :
    StepOk m (.registerExisting rssid key) ↔ StepFree m (.registerExisting rssid key) := by
  cases hr : m.mapping rssid with
  | some existing =>
    simp only [StepOk, step, Promise, StepFree, registerExisting, hr]
    by_cases hne : existing = key
    · subst hne
      have hback := (h rssid existing).1 hr
      simp only [ne_eq, not_true_eq_false, if_false, registerExisting.registerReverse, hback]
      exact ⟨fun _ e => (by cases e), fun _ => ⟨h, fun e he => (by cases he)⟩⟩
    · rw [if_pos hne]
      exact ⟨fun _ e => (by cases e), fun _ => ⟨h, fun _ _ => rfl⟩⟩
  | none =>
    simp only [StepOk, step, Promise, StepFree, registerExisting, hr, registerExisting.registerReverse, true_implies]
    cases hk : m.reverseMapping key with
    | none => exact ⟨fun _ => rfl, fun _ => ⟨h.insert hr hk _, fun e he => (by cases he)⟩⟩
    | some existing =>
      have hne : existing ≠ rssid := by
        rintro rfl
        rw [(h existing key).2 hk] at hr
        cases hr
      dsimp only
      rw [if_pos hne]
      -- the call fails, and the forward map has the id it did not have before
      refine ⟨fun ⟨_, hsame⟩ => ?_, fun e => (by cases e)⟩
      have hmap : update m.mapping rssid (some key) rssid = m.mapping rssid :=
        congrFun (congrArg RssidManager.mapping (hsame _ rfl)) rssid
      rw [update_self, hr] at hmap
      cases hmap

/-- On inverse maps a call does what it should exactly when it finds what it takes free. -/
theorem stepOk_iff (h : m.Inverse) (op : Op) : StepOk m op ↔ StepFree m op := by
  cases op with
  | allocate key => exact allocate_ok_iff h key
  | registerExisting rssid key => exact registerExisting_ok_iff h rssid key
  | removeMany rssids => exact ⟨fun _ => trivial, fun _ => ⟨h.removeMany rssids, trivial⟩⟩

theorem allSteps_iff (h : m.Inverse) (ops : List Op) : AllSteps StepOk m ops ↔ AllSteps StepFree m ops := by
  induction ops generalizing m with
  | nil => exact Iff.rfl
  | cons op ops ih =>
    constructor
    · intro ⟨hop, hops⟩
      exact ⟨(stepOk_iff h op).1 hop, (ih hop.1).1 hops⟩
    · intro ⟨hop, hops⟩
      have hok := (stepOk_iff h op).2 hop
      exact ⟨hok, (ih hok.1).2 hops⟩

/-- **Rowset-segment ids.** Rebuilt from consistent entries, the maps are inverse to each other, and every call
of a run keeps them so, hands out no id of another pair and changes nothing when it fails, exactly when every
call of the run finds what it takes free. -/
theorem rssid_bijection {entries : List RssidMappingEntry} (hc : Consistent entries) (ops : List Op) :
    (fromEntries entries).Inverse ∧
      (AllSteps StepOk (fromEntries entries) ops ↔ AllSteps StepFree (fromEntries entries) ops) :=
  ⟨inverse_fromEntries hc, allSteps_iff (inverse_fromEntries hc) ops⟩

/-- Two entries, a new id for a third pair, an id registered again and one removed. -/
theorem rssid_bijection_two_entries :
    Consistent [⟨0, (7, 0)⟩, ⟨1, (7, 1)⟩] ∧
      AllSteps StepOk (fromEntries [⟨0, (7, 0)⟩, ⟨1, (7, 1)⟩])
        [.allocate (8, 0), .registerExisting 2 (8, 0), .removeMany [0]] := by
  have hc : Consistent [⟨0, (7, 0)⟩, ⟨1, (7, 1)⟩] := by unfold Consistent; decide
  refine ⟨hc, (rssid_bijection hc _).2.2 ⟨fun _ => by decide, fun h => ?_, trivial, trivial⟩⟩
  exact absurd h (by decide)

/-- `register_existing` of a free id for a pair that has one fails and leaves the id mapped; after an entry with
the last id, `allocate` hands that id out again. -/
theorem register_existing_leaves_id :
    ((fromEntries [⟨0, (7, 0)⟩]).registerExisting 1 (7, 0)).1 = .error (.keyMapped (7, 0) 0 1) ∧
      (fromEntries [⟨0, (7, 0)⟩]).mapping 1 = none ∧
      ((fromEntries [⟨0, (7, 0)⟩]).registerExisting 1 (7, 0)).2.mapping 1 = some (7, 0) ∧
      ((fromEntries [⟨0xFFFFFFFF, (7, 0)⟩]).allocate (8, 0)).1 = 0xFFFFFFFF ∧
      (fromEntries [⟨0xFFFFFFFF, (7, 0)⟩]).mapping 0xFFFFFFFF = some (7, 0) := by
  refine ⟨rfl, rfl, rfl, rfl, rfl⟩

end Paro.L3.RssidBijection
