import Mathlib.Algebra.Order.Ring.Int

/-!
# Rowset-segment ids

Model of `RssidManager` (crates/storage/src/primary_key/rssid.rs): a map from ids to `(rowset, segment)` pairs,
a map back, and the counter that gives out ids. The maps are functions, the counter is a `u32`: `allocate`
increments it with wrapping (`fetch_add`), the other calls raise it with saturation.

`Inverse` says that the two maps are inverse to each other. Writing a new pair under a new id keeps that
(`Inverse.insert`), removing always does (`Inverse.removeMany`), and a manager rebuilt from consistent entries
starts with it (`inverse_fromEntries`).
-/
namespace Paro.L2

open List Function Option

/-- rssid.rs:13 -/
abbrev Rssid := UInt32

abbrev SegmentKey := UInt64 × UInt32

/-- rssid.rs:17-21 -/
@[ext]
structure RssidMappingEntry where
  rssid : Rssid
  key : SegmentKey
deriving DecidableEq, Repr

/-- rssid.rs:25-29 -/
structure RssidManager where
  nextRssid : Rssid
  mapping : Rssid → Option SegmentKey
  reverseMapping : SegmentKey → Option Rssid

/-- The errors of `register_existing`, with what their texts report. -/
inductive RssidError
  /-- `rssid … already mapped to …, cannot remap to …` -/
  | rssidMapped (rssid : Rssid) (existing key : SegmentKey)
  /-- `rowset/segment … already mapped to rssid …, cannot remap to …` -/
  | keyMapped (key : SegmentKey) (existing rssid : Rssid)
deriving DecidableEq, Repr

namespace RssidManager

def saturatingSucc (rssid : Rssid) : Rssid := if rssid = 0xFFFFFFFF then rssid else rssid + 1

/-- rssid.rs:33-35 -/
def new : RssidManager := ⟨0, fun _ => none, fun _ => none⟩

variable (entries : List RssidMappingEntry)

/-- rssid.rs:38-52 -/
def fromEntries : RssidManager :=
  entries.foldl (fun m entry =>
    { nextRssid := max m.nextRssid (saturatingSucc entry.rssid)
      mapping := update m.mapping entry.rssid (some entry.key)
      reverseMapping := update m.reverseMapping entry.key (some entry.rssid) }) new

variable (m : RssidManager)

/-- rssid.rs:55-70 -/
def allocate (key : SegmentKey) : Rssid × RssidManager :=
  match m.reverseMapping key with
  | some existing => (existing, m)
  | none =>
    (m.nextRssid,
      { nextRssid := m.nextRssid + 1
        mapping := update m.mapping m.nextRssid (some key)
        reverseMapping := update m.reverseMapping key (some m.nextRssid) })

/-- The reverse map is checked after the forward map has been written. rssid.rs:73-101 -/
def registerExisting (rssid : Rssid) (key : SegmentKey) : Except RssidError Unit × RssidManager :=
  match m.mapping rssid with
  | some existing =>
    if existing ≠ key then (.error (.rssidMapped rssid existing key), m) else registerReverse m
  | none => registerReverse { m with mapping := update m.mapping rssid (some key) }
where
  /-- rssid.rs:87-100 -/
  registerReverse (m : RssidManager) : Except RssidError Unit × RssidManager :=
    match m.reverseMapping key with
    | some existing =>
      if existing ≠ rssid then (.error (.keyMapped key existing rssid), m)
      else (.ok (), { m with nextRssid := max m.nextRssid (saturatingSucc rssid) })
    | none =>
      (.ok (), { m with
        reverseMapping := update m.reverseMapping key (some rssid)
        nextRssid := max m.nextRssid (saturatingSucc rssid) })

def remove (rssid : Rssid) : RssidManager :=
  match m.mapping rssid with
  | some key =>
    { m with
      mapping := update m.mapping rssid none
      reverseMapping := update m.reverseMapping key none }
  | none => m

/-- rssid.rs:119-130 -/
def removeMany (rssids : List Rssid) : RssidManager := rssids.foldl remove m

/-! ## Inverse maps -/

def Inverse : Prop := ∀ rssid key, m.mapping rssid = some key ↔ m.reverseMapping key = some rssid

variable {m} {rssid : Rssid} {key : SegmentKey}

theorem Inverse.none_of_none (h : m.Inverse) (hk : m.reverseMapping key = none) (r : Rssid) :
    m.mapping r ≠ some key := by
  intro hr
  rw [h, hk] at hr
  cases hr

/-- Writing a new pair under a new id in both maps. -/
theorem Inverse.insert (h : m.Inverse) (hr : m.mapping rssid = none) (hk : m.reverseMapping key = none) (next : Rssid) :
    Inverse ⟨next, update m.mapping rssid (some key), update m.reverseMapping key (some rssid)⟩ := by
  intro r k
  simp only [update_apply]
  split
  · rename_i hrr
    subst hrr
    split
    · rename_i hkk
      simp [hkk]
    rename_i hkk
    -- the new id is the image of no other pair
    have hne : m.reverseMapping k ≠ some r := by
      rw [Ne, ← h, hr]
      exact fun e => by cases e
    exact ⟨fun e => absurd (some.inj e).symm hkk, fun e => absurd e hne⟩
  · rename_i hrr
    split
    · rename_i hkk
      subst hkk
      exact ⟨fun e => absurd e (h.none_of_none hk r), fun e => absurd (some.inj e).symm hrr⟩
    · exact h r k

theorem Inverse.remove (h : m.Inverse) (rssid : Rssid) : (m.remove rssid).Inverse := by
  unfold RssidManager.remove
  split
  · rename_i key hkey
    intro r k
    simp only [update_apply]
    split
    · rename_i hrr
      subst hrr
      split
      · simp
      rename_i hkk
      have hne : m.reverseMapping k ≠ some r := by
        rw [Ne, ← h, hkey]
        exact fun e => hkk (some.inj e).symm
      exact ⟨fun e => (by cases e), fun e => absurd e hne⟩
    · rename_i hrr
      split
      · rename_i hkk
        subst hkk
        have hback := (h _ _).1 hkey
        refine ⟨fun e => ?_, fun e => (by cases e)⟩
        rw [h, hback] at e
        exact absurd (some.inj e).symm hrr
      · exact h r k
  · exact h

theorem Inverse.removeMany (h : m.Inverse) (rssids : List Rssid) : (m.removeMany rssids).Inverse := by
  induction rssids generalizing m with
  | nil => exact h
  | cons r rssids ih => exact ih (h.remove r)

/-! ## Rebuilding -/

/-- No id stands for two pairs and no pair for two ids. -/
def Consistent : Prop :=
  ∀ e ∈ entries, ∀ e' ∈ entries, e.rssid = e'.rssid ↔ e.key = e'.key

structure Holds (m : RssidManager) (entries : List RssidMappingEntry) : Prop where
  forward : ∀ r k, m.mapping r = some k ↔ ⟨r, k⟩ ∈ entries
  backward : ∀ r k, m.reverseMapping k = some r ↔ ⟨r, k⟩ ∈ entries

variable {entries}

theorem Holds.inverse (h : m.Holds entries) : m.Inverse :=
  fun r k => (h.forward r k).trans (h.backward r k).symm

theorem holds_foldl {done todo : List RssidMappingEntry} (hc : Consistent (done ++ todo)) (h : m.Holds done) :
    Holds (todo.foldl (fun m entry =>
      { nextRssid := max m.nextRssid (saturatingSucc entry.rssid)
        mapping := update m.mapping entry.rssid (some entry.key)
        reverseMapping := update m.reverseMapping entry.key (some entry.rssid) }) m) (done ++ todo) := by
  induction todo generalizing m done with
  | nil => simpa using h
  | cons e todo ih =>
    have he : e ∈ done ++ e :: todo := by simp
    have hsame : ∀ r k, (⟨r, k⟩ : RssidMappingEntry) ∈ done → (r = e.rssid ↔ k = e.key) := fun r k hd =>
      hc ⟨r, k⟩ (mem_append_left _ hd) e he
    rw [foldl_cons, append_cons]
    refine ih (by rwa [← append_cons]) ⟨fun r k => ?_, fun r k => ?_⟩
    · simp only [update_apply, mem_append, mem_singleton, RssidMappingEntry.ext_iff]
      split
      · rename_i hr
        refine ⟨fun hk => .inr ⟨hr, (some.inj hk).symm⟩, fun hk => ?_⟩
        rcases hk with hd | hk
        · rw [((hsame r k hd).1 hr)]
        · rw [hk.2]
      · rename_i hr
        rw [h.forward]
        exact ⟨.inl, fun hk => hk.resolve_right fun hk => hr hk.1⟩
    · simp only [update_apply, mem_append, mem_singleton, RssidMappingEntry.ext_iff]
      split
      · rename_i hk
        refine ⟨fun hr => .inr ⟨(some.inj hr).symm, hk⟩, fun hr => ?_⟩
        rcases hr with hd | hr
        · rw [((hsame r k hd).2 hk)]
        · rw [hr.1]
      · rename_i hk
        rw [h.backward]
        exact ⟨.inl, fun hr => hr.resolve_right fun hr => hk hr.2⟩

theorem inverse_fromEntries (hc : Consistent entries) : (fromEntries entries).Inverse :=
  (@holds_foldl _ [] entries hc ⟨by simp [new], by simp [new]⟩).inverse

end RssidManager
end Paro.L2
