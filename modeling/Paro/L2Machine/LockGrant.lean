import Paro.L2Machine.LockManager

/-!
# What `lock_many` does to the lock tables

The coarse table and the fine shards together are one map from a transaction and a
resource to the merged mode and reference count (`Manager.held`). `Extends` relates the
tables before a call to the tables while its set is being built; every function of the
manager keeps it, and so a call either adds one set on top of the old map or leaves the map
as it was (`lockMany_builds`), whatever it granted, escalated and took back on the way.
-/
namespace Paro.L2.LockManager
open L1 L2 List Function LockTableShard GrantedLock

variable {n : Nat}

/-! ## The tables as one map -/

/-- Where the holders of a resource are kept. -/
def Config.route (cfg : Config n) (r : LockResource) : LockLocation n :=
  if r.isCoarseResource then .coarse else .fineShard (cfg.shardIndex r)

def Manager.held (cfg : Config n) (m : Manager n) (t : TxnId) (r : LockResource) :
    Option (LockMode × Nat) :=
  (m.tables (cfg.route r)).held t r

structure Manager.WF (m : Manager n) : Prop where
  unique : ∀ loc, Keyed.Unique LockHolder.key (m.tables loc)
  count : m.coarseActiveCount = (m.tables .coarse).length
  refs : ∀ loc t r M k, (m.tables loc).held t r = some (M, k) → 0 < k

variable {cfg : Config n} {m m0 : Manager n} {t t' : TxnId} {q : LockRequest}
  {g : GrantedLock n} {r : LockResource}
  {M : LockMode} {k : Nat} {loc : LockLocation n} {qs : List LockRequest} {i : Fin n}

theorem Manager.WF.held_pos (h : m.WF) (hh : m.held cfg t r = some (M, k)) : 0 < k := h.refs _ _ _ _ _ hh

theorem wf_empty : (Manager.empty : Manager n).WF := by
  refine ⟨fun _ => Keyed.unique_nil, rfl, ?_⟩
  intro loc t r M k h
  simp [Manager.empty, held] at h

theorem mergeHeld_pos (o : Option (LockMode × Nat)) (mode : LockMode) : 0 < (mergeHeld o mode).2 := by
  rcases o with - | ⟨M, k⟩ <;> simp [mergeHeld]

theorem unmergeHeld_pos {o : Option (LockMode × Nat)} {p : Option LockMode}
    (h : unmergeHeld o p = some (M, k)) : 0 < k := by
  unfold unmergeHeld at h
  split at h
  · cases h; omega
  · cases h

@[simp] theorem grantLock_record : (grantLock m t q (cfg.route q.resource)).2 =
    ⟨q.resource, q.mode, cfg.route q.resource, (m.held cfg t q.resource).map Prod.fst⟩ := by
  simp [grantLock, grant_previousMode, Manager.held]

theorem held_grantLock : (grantLock m t q (cfg.route q.resource)).1.held cfg t' r =
    if t' = t ∧ r = q.resource then some (mergeHeld (m.held cfg t q.resource) q.mode)
    else m.held cfg t' r := by
  by_cases hl : cfg.route r = cfg.route q.resource
  · simp [Manager.held, grantLock, hl, held_grant]
  · have hne : ¬ (t' = t ∧ r = q.resource) := fun h => hl (by rw [h.2])
    simp [Manager.held, grantLock, hl, hne]

theorem wf_grantLock (h : m.WF) (loc : LockLocation n) : (grantLock m t q loc).1.WF where
  unique loc' := by
    by_cases hl : loc' = loc
    · subst hl; simpa [grantLock] using unique_grant (h.unique loc')
    · simpa [grantLock, hl] using h.unique loc'
  count := by
    by_cases hl : loc = .coarse
    · subst hl
      simp only [grantLock, true_and, update_self, length_grant, h.count]
      split <;> rfl
    · have hl' : LockLocation.coarse ≠ loc := fun e => hl e.symm
      simp [grantLock, hl, hl', h.count]
  refs loc' t' r M k hh := by
    by_cases hl : loc' = loc
    · subst hl
      simp only [grantLock, update_self, held_grant] at hh
      split at hh
      · have := mergeHeld_pos ((m.tables loc').held t q.resource) q.mode
        rw [Option.some.inj hh] at this; exact this
      · exact h.refs _ _ _ _ _ hh
    · simp only [grantLock, update_of_ne hl] at hh
      exact h.refs _ _ _ _ _ hh

theorem releaseLock_tables : (releaseLock m t g).tables = update m.tables g.location
      ((m.tables g.location).release t g.resource g.previousMode).1 := by
  unfold releaseLock
  split <;> rename_i he <;> rw [he]
  rfl

theorem held_releaseLock (hg : g.location = cfg.route g.resource) :
    (releaseLock m t g).held cfg t' r = if t' = t ∧ r = g.resource then
        unmergeHeld (m.held cfg t g.resource) g.previousMode
      else m.held cfg t' r := by
  simp only [Manager.held, releaseLock_tables, hg]
  by_cases hl : cfg.route r = cfg.route g.resource
  · simp [hl, held_release]
  · have hne : ¬ (t' = t ∧ r = g.resource) := fun h => hl (by rw [h.2])
    simp [hl, hne]

theorem wf_releaseLock (h : m.WF) : (releaseLock m t g).WF where
  unique loc := by
    rw [releaseLock_tables]
    by_cases hl : loc = g.location
    · subst hl; simpa using unique_release (h.unique g.location)
    · simpa [hl] using h.unique loc
  count := by
    have hc := length_release (t := t) (r := g.resource) (p := g.previousMode) (h.unique .coarse)
    cases hl : g.location with
    | fineShard i => simp [releaseLock, hl, h.count]
    | coarse =>
      simp only [releaseLock, hl, releaseCoarseLock, update_self, h.count]
      split <;> rename_i hr <;> simp only [hr] at hc <;> simp at hc ⊢ <;> omega
  refs loc t' r M k hh := by
    rw [releaseLock_tables] at hh
    by_cases hl : loc = g.location
    · subst hl
      simp only [update_self, held_release] at hh
      split at hh
      · exact unmergeHeld_pos hh
      · exact h.refs _ _ _ _ _ hh
    · rw [update_of_ne hl] at hh
      exact h.refs _ _ _ _ _ hh

/-- A table changes only at the resources that are kept in it. -/
theorem held_grantLock_elsewhere (hr : cfg.route r ≠ loc) :
    ((grantLock m t q (cfg.route q.resource)).1.tables loc).held t' r = (m.tables loc).held t' r := by
  by_cases hl : loc = cfg.route q.resource
  · subst hl
    have hne : ¬ (t' = t ∧ r = q.resource) := fun h => hr (by rw [h.2])
    simp [grantLock, held_grant, hne]
  · simp [grantLock, hl]

theorem held_releaseLock_elsewhere (hg : g.location = cfg.route g.resource) (hr : cfg.route r ≠ loc) :
    ((releaseLock m t g).tables loc).held t' r = (m.tables loc).held t' r := by
  rw [releaseLock_tables, hg]
  by_cases hl : loc = cfg.route g.resource
  · subst hl
    have hne : ¬ (t' = t ∧ r = g.resource) := fun h => hr (by rw [h.2])
    simp [held_release, hne]
  · simp [hl]

theorem keys_sublist_grantLock (loc loc' : LockLocation n) :
    (m.tables loc).keys.Sublist ((grantLock m t q loc').1.tables loc).keys := by
  by_cases hl : loc = loc'
  · subst hl; simpa [grantLock] using keys_sublist_grant
  · simp [grantLock, hl]

/-- Releasing a lock on which two references are held, or one that `m0` did not hold,
keeps the holders of `m0` in place. -/
theorem sublist_keys_releaseLock {ks : List (TxnId × LockResource)} (loc : LockLocation n)
    (hg : g.location = cfg.route g.resource) (h : ks.Sublist (m.tables loc).keys)
    (hk : cfg.route g.resource = loc → (t, g.resource) ∈ ks → ∃ M k, m.held cfg t g.resource = some (M, k + 2)) :
    ks.Sublist ((releaseLock m t g).tables loc).keys := by
  rw [releaseLock_tables]
  by_cases hl : loc = g.location
  · subst hl
    rw [update_self]
    refine sublist_keys_release h fun hm => ?_
    rw [hg]; exact hk hg.symm hm
  · rw [update_of_ne hl]; exact h

/-- A grant on top of a resource that `m0` held makes at least two references. -/
theorem twice (h0 : m0.WF) {mode : LockMode} (hin : m.held cfg t r = some (mergeHeld (m0.held cfg t r) mode))
    (hm : (t, r) ∈ (m0.tables loc).keys) (hr : cfg.route r = loc) : ∃ M k, m.held cfg t r = some (M, k + 2) := by
  subst hr
  obtain ⟨M, k, hk⟩ := mem_keys.1 hm
  obtain ⟨j, rfl⟩ : ∃ j, k = j + 1 := ⟨k - 1, by have := h0.refs _ _ _ _ _ hk; omega⟩
  have hk' : m0.held cfg t r = some (M, j + 1) := hk
  rw [hk'] at hin
  exact ⟨M.strongest mode, j, hin⟩

/-! ## A set under construction -/

/-- `m` is `m0` with the grants `gs` of `t` on top: each grant found in `m0` what its record
says, conflicts with nothing another transaction holds there, and comes from a request that
meets `P`; everything else is as in `m0`, and the holders of `m0` stand in the order they
had. -/
structure Extends (cfg : Config n) (P : LockRequest → Prop) (m0 m : Manager n) (t : TxnId)
    (gs : List (GrantedLock n)) : Prop where
  wf0 : m0.WF
  wf : m.WF
  nodup : (gs.map resource).Nodup
  loc : ∀ g ∈ gs, g.location = cfg.route g.resource
  prev : ∀ g ∈ gs, g.previousMode = (m0.held cfg t g.resource).map Prod.fst
  inside : ∀ g ∈ gs, m.held cfg t g.resource = some (mergeHeld (m0.held cfg t g.resource) g.mode)
  outside : ∀ t' r, (t' = t → r ∉ gs.map resource) → m.held cfg t' r = m0.held cfg t' r
  free : ∀ g ∈ gs, ∀ t' r M k, t' ≠ t → m0.held cfg t' r = some (M, k) →
    lockGrantsConflict r M g.resource g.mode = false
  request : ∀ g ∈ gs, P ⟨g.resource, g.mode⟩
  elsewhere : ∀ loc t' r, cfg.route r ≠ loc → (m.tables loc).held t' r = (m0.tables loc).held t' r
  order : ∀ loc, (m0.tables loc).keys.Sublist (m.tables loc).keys

variable {P : LockRequest → Prop} {gs : List (GrantedLock n)}

namespace Extends

theorem nil (h : m.WF) : Extends cfg P m m t [] :=
  ⟨h, h, by simp, by simp, by simp, by simp, fun _ _ _ => rfl, by simp, by simp, fun _ _ _ _ => rfl, fun _ => .refl _⟩

section
variable (h : Extends cfg P m0 m t gs)
include h

theorem held_other (hne : t' ≠ t) : m.held cfg t' r = m0.held cfg t' r := h.outside t' r fun e => absurd e hne

/-- A grant of a resource the set does not have yet. -/
theorem grant (hfresh : q.resource ∉ gs.map resource) (hP : P q)
    (hfree : ∀ t' r M k, t' ≠ t → m0.held cfg t' r = some (M, k) → lockGrantsConflict r M q.resource q.mode = false) :
    Extends cfg P m0 (grantLock m t q (cfg.route q.resource)).1 t
      (gs ++ [(grantLock m t q (cfg.route q.resource)).2]) := by
  have hq : m.held cfg t q.resource = m0.held cfg t q.resource := h.outside _ _ fun _ => hfresh
  have hne : ∀ g ∈ gs, g.resource ≠ q.resource :=
    fun g hg e => hfresh (mem_map.2 ⟨g, hg, e⟩)
  refine ⟨h.wf0, wf_grantLock h.wf _, ?_, ?_, ?_, ?_, ?_, ?_, ?_,
    fun loc t' r hr => (held_grantLock_elsewhere hr).trans (h.elsewhere loc t' r hr),
    fun loc => (h.order loc).trans (keys_sublist_grantLock loc _)⟩
  · rw [map_append, nodup_append]
    refine ⟨h.nodup, by simp, ?_⟩
    rintro _ ha _ hb rfl
    simp only [map_cons, map_nil, grantLock_record, mem_singleton] at hb
    exact hfresh (hb ▸ ha)
  all_goals simp only [mem_append, mem_singleton, grantLock_record]
  · rintro g (hg | rfl)
    · exact h.loc g hg
    · rfl
  · rintro g (hg | rfl)
    · exact h.prev g hg
    · simp [hq]
  · rintro g (hg | rfl)
    · rw [held_grantLock, if_neg (fun e => hne g hg e.2)]
      exact h.inside g hg
    · rw [held_grantLock, if_pos ⟨rfl, rfl⟩, hq]
  · intro t' r hr
    rw [held_grantLock, if_neg (fun e => hr e.1 (by simp [e.2]))]
    exact h.outside t' r fun e hm => hr e (by simp [hm])
  · rintro g (hg | rfl)
    · exact h.free g hg
    · exact hfree
  · rintro g (hg | rfl)
    · exact h.request g hg
    · exact hP

/-- Releasing one grant of the set takes back exactly that grant. -/
theorem release (hg : g ∈ gs) : Extends cfg P m0 (releaseLock m t g) t (gs.filter fun x => decide (x ≠ g)) := by
  have hinj : ∀ x ∈ gs, x.resource = g.resource → x = g :=
    fun x hx e => inj_on_of_nodup_map h.nodup hx hg e
  have hmem : ∀ x, x ∈ gs.filter (fun x => decide (x ≠ g)) ↔ x ∈ gs ∧ x ≠ g := by simp
  refine ⟨h.wf0, wf_releaseLock h.wf, ?_, ?_, ?_, ?_, ?_, ?_, ?_, fun loc t' r hr =>
      (held_releaseLock_elsewhere (h.loc g hg) hr).trans (h.elsewhere loc t' r hr),
    fun loc => sublist_keys_releaseLock loc (h.loc g hg) (h.order loc) fun hr hm => twice h.wf0 (h.inside g hg) hm hr⟩
  · exact (List.Sublist.map _ filter_sublist).nodup h.nodup
  · exact fun x hx => h.loc x ((hmem x).1 hx).1
  · exact fun x hx => h.prev x ((hmem x).1 hx).1
  · intro x hx
    obtain ⟨hx, hne⟩ := (hmem x).1 hx
    rw [held_releaseLock (h.loc g hg), if_neg (fun e => hne (hinj x hx e.2))]
    exact h.inside x hx
  · intro t' r hr
    rw [held_releaseLock (h.loc g hg)]
    by_cases he : t' = t ∧ r = g.resource
    · obtain ⟨rfl, rfl⟩ := he
      rw [if_pos ⟨rfl, rfl⟩, h.inside g hg, h.prev g hg]
      exact unmerge_merge _ _ fun M k e => h.wf0.held_pos e
    · rw [if_neg he]
      refine h.outside t' r fun e hm => hr e ?_
      obtain ⟨x, hx, rfl⟩ := mem_map.1 hm
      exact mem_map.2 ⟨x, (hmem x).2 ⟨hx, fun e' => he ⟨e, by rw [e']⟩⟩, rfl⟩
  · exact fun x hx => h.free x ((hmem x).1 hx).1
  · exact fun x hx => h.request x ((hmem x).1 hx).1

end

theorem releaseLocks (ls : List (GrantedLock n)) (h : Extends cfg P m0 m t gs) (hl : ∀ g ∈ ls, g ∈ gs) (hn : ls.Nodup) :
    Extends cfg P m0 (releaseLocks m t ls) t (gs.filter fun x => decide (x ∉ ls)) := by
  induction ls with
  | nil =>
    have he : gs.filter (fun x => decide (x ∉ ([] : List (GrantedLock n)))) = gs := by simp
    rw [he]; exact h
  | cons g ls ih =>
    obtain ⟨hg, hn⟩ := nodup_cons.1 hn
    have ih' := ih (fun x hx => hl x (mem_cons_of_mem _ hx)) hn
    have hin : g ∈ gs.filter (fun x => decide (x ∉ ls)) := by
      simpa [hg] using hl g mem_cons_self
    have he : gs.filter (fun x => decide (x ∉ g :: ls)) =
        (gs.filter fun x => decide (x ∉ ls)).filter fun x => decide (x ≠ g) := by
      rw [filter_filter]
      apply filter_congr
      intro x _
      simp
    rw [he]
    exact ih'.release hin

theorem nodup_locks (h : Extends cfg P m0 m t gs) : gs.Nodup := List.Nodup.of_map _ h.nodup

/-- Releasing the whole set restores `m0`. -/
theorem releaseAll (h : Extends cfg P m0 m t gs) : Extends cfg P m0 (LockManager.releaseLocks m t gs) t [] := by
  have h' := h.releaseLocks gs (fun _ hg => hg) h.nodup_locks
  rwa [filter_eq_nil_iff.2 (by simp)] at h'

/-- With nothing on top, the tables and the counter are those of `m0`. -/
theorem eq_of_nil (h : Extends cfg P m0 m t []) : m = m0 := by
  have htables : m.tables = m0.tables := by
    funext loc
    refine eq_of_held (h.order loc) (h.wf.unique loc) ?_
    intro t' r
    by_cases hr : cfg.route r = loc
    · subst hr; exact h.outside t' r (by simp)
    · exact h.elsewhere loc t' r hr
  have hcount : m.coarseActiveCount = m0.coarseActiveCount := by
    rw [h.wf.count, h.wf0.count, htables]
  cases m
  cases m0
  simp_all

end Extends

/-- Releasing a grant restores what was there before it, also when the grant conflicts. -/
theorem releaseLock_grantLock (cfg : Config n) (h : m.WF) : releaseLock (grantLock m t q (cfg.route q.resource)).1 t
    (grantLock m t q (cfg.route q.resource)).2 = m := by
  have hloc : (grantLock m t q (cfg.route q.resource)).2.location =
      cfg.route (grantLock m t q (cfg.route q.resource)).2.resource := by simp
  have hnil : Extends cfg (fun _ => True) m m t [] := .nil h
  refine Extends.eq_of_nil (P := fun _ => True) { hnil with
    wf := wf_releaseLock (wf_grantLock h _), inside := by simp, outside := fun t' r _ => ?_,
    elsewhere := fun loc t' r hr => (held_releaseLock_elsewhere hloc hr).trans (held_grantLock_elsewhere hr),
    order := fun loc => sublist_keys_releaseLock loc hloc (keys_sublist_grantLock loc _) fun hl hm =>
      twice h ((held_grantLock ..).trans (if_pos ⟨rfl, rfl⟩)) hm hl }
  rw [held_releaseLock hloc]
  simp only [grantLock_record, held_grantLock]
  by_cases he : t' = t ∧ r = q.resource
  · obtain ⟨rfl, rfl⟩ := he
    simp only [and_self, if_true]
    exact unmerge_merge _ _ fun M k e => h.held_pos e
  · simp only [if_neg he]

/-! ## What the calls do to a set under construction -/

theorem route_coarse (h : r.isCoarseResource = true) : cfg.route r = .coarse := by
  simp [Config.route, h]

theorem route_fine (h : r.isCoarseResource = false) : cfg.route r = .fineShard (cfg.shardIndex r) := by
  simp [Config.route, h]

/-- No blocker in the coarse table and none in any fine shard: nothing another transaction
holds conflicts. -/
theorem free_of_coarse (hc : (m.tables .coarse).blockers t q = []) (hf : fineBlockers m t q = []) (hne : t' ≠ t)
    (hh : m.held cfg t' r = some (M, k)) : lockGrantsConflict r M q.resource q.mode = false := by
  by_cases hr : r.isCoarseResource = true
  · rw [Manager.held, route_coarse hr] at hh
    exact free_of_blockers_nil hc hne hh
  rw [Bool.not_eq_true] at hr
  rw [Manager.held, route_fine hr] at hh
  have hb : (m.tables (.fineShard (cfg.shardIndex r))).blockers t q = [] := by
    simp only [fineBlockers, normalizeTxnIds, sortDedup_eq_nil, flatMap_eq_nil_iff, mem_finRange, true_implies] at hf
    exact hf _
  exact free_of_blockers_nil hb hne hh

/-- A fine request needs no blocker in the coarse table and none on its own resource: two
fine resources conflict only when they are equal. -/
theorem free_of_fine (hwf : m.WF) (hq : q ∈ qs) (hqf : q.resource.isCoarseResource = false)
    (hc : ¬ (m.coarseActiveCount > 0 ∧ coarseBlockersMany m t qs ≠ []))
    (hf : (m.tables (.fineShard (cfg.shardIndex q.resource))).exactBlockers t q = []) (hne : t' ≠ t)
    (hh : m.held cfg t' r = some (M, k)) : lockGrantsConflict r M q.resource q.mode = false := by
  by_cases hr : r.isCoarseResource = true
  · rw [Manager.held, route_coarse hr] at hh
    have hpos : m.coarseActiveCount > 0 := by
      rw [hwf.count]; exact length_pos_of_mem (mem_of_held hh)
    have hb : (m.tables .coarse).blockers t q = [] := by
      have hn : coarseBlockersMany m t qs = [] := by
        by_contra hcon; exact hc ⟨hpos, hcon⟩
      simp only [coarseBlockersMany, Nat.ne_of_gt hpos, if_false, normalizeTxnIds,
        sortDedup_eq_nil, flatMap_eq_nil_iff] at hn
      exact hn q hq
    exact free_of_blockers_nil hb hne hh
  · rw [Bool.not_eq_true] at hr
    by_contra hcon
    rw [Bool.not_eq_false] at hcon
    obtain rfl := LockResource.fine_conflict_eq hr hqf (conflictsWith_of_lockGrantsConflict hcon)
    rw [Manager.held, route_fine hr] at hh
    rw [free_of_exactBlockers_nil hf hne hh] at hcon
    cases hcon

theorem fineBlockers_grantLock : fineBlockers (grantLock m t q .coarse).1 t q = fineBlockers m t q := by
  simp [fineBlockers, grantLock]

/-- A coarse request either joins the set or leaves it as it was. -/
theorem tryGrantCoarse_spec (h : Extends cfg P m0 m t gs) (hq : q.resource.isCoarseResource = true)
    (hfresh : q.resource ∉ gs.map resource) (hP : P q) :
    (∃ m' g, tryGrantCoarse m t q = (m', .ok [g]) ∧ g.resource = q.resource ∧ Extends cfg P m0 m' t (gs ++ [g])) ∨
    (∃ m' e, tryGrantCoarse m t q = (m', .error e) ∧ Extends cfg P m0 m' t gs) := by
  unfold tryGrantCoarse
  by_cases hb : (m.tables .coarse).blockers t q = []
  · by_cases hf : fineBlockers m t q = []
    · left
      have hfree : ∀ t' r M k, t' ≠ t → m0.held cfg t' r = some (M, k) →
          lockGrantsConflict r M q.resource q.mode = false := by
        intro t' r M k hne hh
        rw [← h.held_other hne] at hh
        exact free_of_coarse hb hf hne hh
      have hg := h.grant hfresh hP hfree
      rw [route_coarse hq] at hg
      exact ⟨_, _, by simp [hb, fineBlockers_grantLock, hf], rfl, hg⟩
    · right
      refine ⟨_, classifyWoundWait t (fineBlockers m t q), ?_, h⟩
      simp only [hb, fineBlockers_grantLock, hf, ne_eq, not_true_eq_false, not_false_eq_true, if_false, if_true]
      have hundo := releaseLock_grantLock cfg (q := q) (t := t) h.wf
      rw [route_coarse hq] at hundo
      exact congrArg (·, _) hundo
  · right
    exact ⟨m, _, by simp [hb]; rfl, h⟩

theorem grantFine_spec (qs : List LockRequest) (h : Extends cfg P m0 m t gs)
    (hq : ∀ q ∈ qs, cfg.route q.resource = .fineShard i ∧ P q ∧ ∀ t' r M k, t' ≠ t → m0.held cfg t' r = some (M, k) →
        lockGrantsConflict r M q.resource q.mode = false)
    (hn : (gs.map resource ++ qs.map LockRequest.resource).Nodup) :
    Extends cfg P m0 (grantFine m t i qs).1 t (gs ++ (grantFine m t i qs).2) ∧
      (grantFine m t i qs).2.map resource = qs.map LockRequest.resource := by
  induction qs generalizing m gs with
  | nil => simpa [grantFine] using h
  | cons q qs ih =>
    obtain ⟨hr, hP, hfree⟩ := hq q mem_cons_self
    have hfresh : q.resource ∉ gs.map resource := by
      intro hm
      exact (nodup_append.1 hn).2.2 _ hm _ (by simp) rfl
    have hg := h.grant hfresh hP hfree
    have hrec : (grantLock m t q (cfg.route q.resource)).2.resource = q.resource := by simp
    rw [hr] at hg hrec
    have ih' := ih hg (fun q' hq' => hq q' (mem_cons_of_mem _ hq')) (by simpa [hrec, append_assoc] using hn)
    refine ⟨?_, ?_⟩
    · simpa [grantFine, append_assoc] using ih'.1
    · simpa [grantFine, hrec] using ih'.2

theorem tryGrantFineBatch_spec (h : Extends cfg P m0 m t gs)
    (hq : ∀ q ∈ qs, q.resource.isCoarseResource = false ∧ cfg.shardIndex q.resource = i ∧ P q)
    (hn : (gs.map resource ++ qs.map LockRequest.resource).Nodup) :
    (∃ m' new, tryGrantFineBatch m t i qs = (m', .ok new) ∧ new.map resource = qs.map LockRequest.resource ∧
      Extends cfg P m0 m' t (gs ++ new)) ∨
    (∃ e, tryGrantFineBatch m t i qs = (m, .error e)) := by
  unfold tryGrantFineBatch
  by_cases hc : m.coarseActiveCount > 0 ∧ coarseBlockersMany m t qs ≠ []
  · exact .inr ⟨_, by rw [if_pos hc]⟩
  by_cases hb : normalizeTxnIds (qs.flatMap fun q => (m.tables (.fineShard i)).exactBlockers t q) = []
  · left
    have hexact : ∀ q ∈ qs, (m.tables (.fineShard i)).exactBlockers t q = [] := by
      simpa [normalizeTxnIds, flatMap_eq_nil_iff] using hb
    have hspec := grantFine_spec qs h (i := i) (fun q hm => by
      obtain ⟨hcf, hi, hP⟩ := hq q hm
      refine ⟨by rw [route_fine hcf, hi], hP, fun t' r M k hne hh => ?_⟩
      rw [← h.held_other hne] at hh
      exact free_of_fine h.wf hm hcf hc (hi ▸ hexact q hm) hne hh) hn
    exact ⟨_, _, by simp only [hc, hb, if_false, ne_eq, not_true_eq_false], hspec.2, hspec.1⟩
  · exact .inr ⟨_, by simp only [hc, hb, if_false, ne_eq, not_false_eq_true, if_true]; rfl⟩

def Builds (cfg : Config n) (P : LockRequest → Prop) (m0 : Manager n) (t : TxnId)
    (Q : List (GrantedLock n) → Prop)
    (res : Manager n × Except LockAcquireError (List (GrantedLock n))) : Prop :=
  match res with
  | (m, .ok gs) => Extends cfg P m0 m t gs ∧ Q gs
  | (m, .error _) => Extends cfg P m0 m t []

theorem lockCoarse_builds (qs : List LockRequest) (h : Extends cfg P m0 m t gs)
    (hq : ∀ q ∈ qs, q.resource.isCoarseResource = true ∧ P q)
    (hn : (gs.map resource ++ qs.map LockRequest.resource).Nodup) :
    Builds cfg P m0 t
      (fun gs' => gs'.map resource = gs.map resource ++ qs.map LockRequest.resource) (lockCoarse t m gs qs) := by
  induction qs generalizing m gs with
  | nil => exact ⟨h, by simp⟩
  | cons q qs ih =>
    obtain ⟨hc, hP⟩ := hq q mem_cons_self
    have hfresh : q.resource ∉ gs.map resource :=
      fun hm => (nodup_append.1 hn).2.2 _ hm _ (by simp) rfl
    rcases tryGrantCoarse_spec h hc hfresh hP with ⟨m', g, he, hr, hx⟩ | ⟨m', e, he, hx⟩
    · have ih' := ih hx (fun q' hq' => hq q' (mem_cons_of_mem _ hq')) (by simpa [hr, append_assoc] using hn)
      simpa [lockCoarse, he, hr, append_assoc] using ih'
    · simpa [lockCoarse, he, Builds] using hx.releaseAll

theorem lockFine_builds (batch : Fin n → List LockRequest) (is : List (Fin n)) (h : Extends cfg P m0 m t gs)
    (hb : ∀ i, ∀ q ∈ batch i, q.resource.isCoarseResource = false ∧ cfg.shardIndex q.resource = i ∧ P q)
    (hn : ∀ i, ((batch i).map LockRequest.resource).Nodup) (his : is.Nodup)
    (hgs : ∀ g ∈ gs, g.resource.isCoarseResource = true ∨ cfg.shardIndex g.resource ∉ is) :
    Builds cfg P m0 t (fun _ => True) (lockFine t batch m gs is) := by
  induction is generalizing m gs with
  | nil => exact ⟨h, trivial⟩
  | cons i is ih =>
    obtain ⟨hi, his⟩ := nodup_cons.1 his
    have hskip : ∀ g ∈ gs, g.resource.isCoarseResource = true ∨ cfg.shardIndex g.resource ∉ is :=
      fun g hg => (hgs g hg).imp_right fun hni hm => hni (mem_cons_of_mem _ hm)
    unfold lockFine
    split
    · exact ih h his hskip
    have hdis : (gs.map resource ++ (batch i).map LockRequest.resource).Nodup := by
      refine nodup_append.2 ⟨h.nodup, hn i, ?_⟩
      rintro _ ha _ hb' rfl
      obtain ⟨g, hg, rfl⟩ := mem_map.1 ha
      obtain ⟨q, hq, hqr⟩ := mem_map.1 hb'
      obtain ⟨hc, hsi, -⟩ := hb i q hq
      rw [hqr] at hc hsi
      rcases hgs g hg with hg' | hg'
      · rw [hc] at hg'; cases hg'
      · exact hg' (hsi ▸ mem_cons_self)
    rcases tryGrantFineBatch_spec h (hb i) hdis with ⟨m', new, he, hr, hx⟩ | ⟨e, he⟩
    · rw [he]
      refine ih hx his ?_
      intro g hg
      rcases mem_append.1 hg with hg | hg
      · exact hskip g hg
      right
      have hm : g.resource ∈ new.map resource := mem_map_of_mem hg
      rw [hr] at hm
      obtain ⟨q, hq, hqr⟩ := mem_map.1 hm
      rw [← hqr, (hb i q hq).2.1]; exact hi
    · rw [he]; exact h.releaseAll

theorem escalateLoop_builds {count : TabletKey → Nat} {ks : List TabletKey}
    (h : Extends cfg P m0 m t gs) (hX : ∀ ns tid tb, P ⟨.tablet ns tid tb, .x⟩) :
    Builds cfg P m0 t (fun _ => True) (escalateLoop cfg t count m gs ks) := by
  induction ks generalizing m gs with
  | nil => exact ⟨h, trivial⟩
  | cons k ks ih =>
    unfold escalateLoop
    split
    · exact ih h
    rename_i hgo
    have hfresh : LockResource.tablet k.1 k.2.1 k.2.2 ∉ gs.map resource := by
      intro hm
      obtain ⟨g, hg, hr⟩ := mem_map.1 hm
      exact hgo (.inr (any_eq_true.2 ⟨g, hg, by simpa using hr⟩))
    rcases tryGrantCoarse_spec (q := ⟨.tablet k.1 k.2.1 k.2.2, .x⟩) h rfl hfresh (hX _ _ _) with
      ⟨m', g, he, hr, hx⟩ | ⟨m', e, he, hx⟩
    · rw [he]
      have hgid : fineTabletIdentity g.resource = none := by rw [hr]; rfl
      have hrel := hx.releaseLocks (gs.filter fun g => decide (fineTabletIdentity g.resource = some k))
        (fun x hx' => mem_append_left _ (mem_of_mem_filter hx')) (h.nodup_locks.filter _)
      have heq : (gs ++ [g]).filter (fun x => decide (x ∉ gs.filter fun g =>
            decide (fineTabletIdentity g.resource = some k))) =
          gs.filter (fun g => decide (fineTabletIdentity g.resource ≠ some k)) ++ [g] := by
        rw [filter_append]
        congr 1
        · apply filter_congr
          intro x hx'
          simp [hx']
        · simp [hgid]
      rw [heq] at hrel
      exact ih hrel
    · rw [he]
      dsimp only
      split
      · exact hx.releaseAll
      · exact ih hx

/-! ## Normalised requests -/

theorem mergeRequests_pairwise {last : LockRequest}
    (h : (last :: qs).Pairwise fun a b => a.resource.sortKey ≤ b.resource.sortKey) :
    (∀ q ∈ mergeRequests last qs, last.resource.sortKey ≤ q.resource.sortKey) ∧
      (mergeRequests last qs).Pairwise fun a b => a.resource.sortKey < b.resource.sortKey := by
  induction qs generalizing last with
  | nil => simp [mergeRequests]
  | cons q qs ih =>
    obtain ⟨hlast, hqs⟩ := pairwise_cons.1 h
    unfold mergeRequests
    split
    · exact ih (pairwise_cons.2 ⟨fun b hb => hlast b (mem_cons_of_mem _ hb), (pairwise_cons.1 hqs).2⟩)
    rename_i hne
    obtain ⟨hge, hpw⟩ := ih hqs
    have hlt : last.resource.sortKey < q.resource.sortKey :=
      lt_of_le_of_ne (hlast q mem_cons_self)
        fun e => hne (LockResource.sortKey_injective e)
    refine ⟨?_, pairwise_cons.2 ⟨fun b hb => lt_of_lt_of_le hlt (hge b hb), hpw⟩⟩
    exact forall_mem_cons.2 ⟨le_refl _, fun b hb => le_of_lt (lt_of_lt_of_le hlt (hge b hb))⟩

/-- `normalize_requests` asks for each resource once. -/
theorem normalizeRequests_nodup (requests : List LockRequest) :
    ((normalizeRequests requests).map LockRequest.resource).Nodup := by
  have hs : (requests.insertionSort fun a b => a.resource.sortKey ≤ b.resource.sortKey).Pairwise
      fun a b => a.resource.sortKey ≤ b.resource.sortKey := by
    have : Std.Total fun a b : LockRequest => a.resource.sortKey ≤ b.resource.sortKey := ⟨fun a b => le_total _ _⟩
    have : IsTrans LockRequest fun a b => a.resource.sortKey ≤ b.resource.sortKey := ⟨fun a b c => le_trans⟩
    exact pairwise_insertionSort _ _
  unfold normalizeRequests
  split
  · simp
  rename_i q qs he
  rw [he] at hs
  refine pairwise_map.2 ((mergeRequests_pairwise hs).2.imp ?_)
  intro a b hlt e
  rw [e] at hlt
  exact lt_irrefl _ hlt

theorem lockMany_builds (cfg : Config n) (order : IterOrder) (h : m.WF) {requests : List LockRequest}
    (hP : ∀ q ∈ normalizeRequests requests, P q) (hX : ∀ ns tid tb, P ⟨.tablet ns tid tb, .x⟩) :
    Builds cfg P m t (fun _ => True) (lockMany cfg m t requests order) := by
  have hnodup := normalizeRequests_nodup requests
  have hnil : Extends cfg P m m t [] := .nil h
  have hcoarse := lockCoarse_builds ((normalizeRequests requests).filter fun q => q.resource.isCoarseResource) hnil
    (fun q hq => by
      obtain ⟨hq, hc⟩ := mem_filter.1 hq
      exact ⟨hc, hP q hq⟩)
    (by simpa using (List.Sublist.map _ filter_sublist).nodup hnodup)
  unfold lockMany
  dsimp only
  split
  · rename_i m1 e he
    rw [he] at hcoarse; exact hcoarse
  rename_i m1 granted he
  rw [he] at hcoarse
  obtain ⟨hx, hres⟩ := hcoarse
  have hfine := lockFine_builds (fun i => (normalizeRequests requests).filter fun q =>
      !q.resource.isCoarseResource && decide (cfg.shardIndex q.resource = i))
    (List.finRange n) hx
    (fun i q hq => by
      obtain ⟨hq, hc⟩ := mem_filter.1 hq
      simp only [Bool.and_eq_true, Bool.not_eq_true', decide_eq_true_eq] at hc
      exact ⟨hc.1, hc.2, hP q hq⟩)
    (fun i => (List.Sublist.map _ filter_sublist).nodup hnodup) (nodup_finRange n)
    (fun g hg => by
      left
      have hm : g.resource ∈ granted.map resource := mem_map_of_mem hg
      rw [hres] at hm
      simp only [map_nil, nil_append, mem_map, mem_filter] at hm
      obtain ⟨q, ⟨-, hq⟩, hqr⟩ := hm
      rw [← hqr]; exact hq)
  split
  · rename_i m2 e he2
    rw [he2] at hfine; exact hfine
  rename_i m2 granted2 he2
  rw [he2] at hfine
  unfold tryEscalate
  split
  · exact hfine
  · exact escalateLoop_builds hfine.1 hX

end Paro.L2.LockManager
