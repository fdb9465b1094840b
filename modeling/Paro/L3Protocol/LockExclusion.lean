import Mathlib
import Paro.Core.LTS
import Paro.L2Machine.LockGrant

/-!
# Mutual exclusion of the lock manager

Runs of `lock_many` calls and of drops of the returned sets, in any order and by any
transactions. A transaction may hold one resource through several sets. The table then
keeps a single mode, the `strongest` of what was asked, and a drop puts back the mode its
own grant found (crates/transaction/src/lock_manager.rs:1183-1234). Neither is always
enough:

* `strongest` of `ix` and a mode of strength three, or of `schemaStability` and a shared
  mode, does not stand for both;
* a set that is not the newest puts back a mode that newer sets may have outgrown.

`exclusion_broken` has a run for each, and `granted_exclusion` shows that these are the only
ways. `lock_many_all_or_nothing` says that a refused call, and a granted set dropped at once,
put back the very tables and the counter of coarse holders.
-/
namespace Paro.L3.LockExclusion
open L1 L2 LockManager List GrantedLock Keyed LockTableShard LTS

variable {n : Nat}

/-! ## Runs -/

/-- A live `TxnLockSet`. lock_manager.rs:588-593 -/
structure TxnLockSet (n : Nat) where
  id : Nat
  txnId : TxnId
  locks : List (GrantedLock n)

structure State (n : Nat) where
  manager : Manager n
  live : List (TxnLockSet n)
  nextId : Nat

def State.init : State n := ⟨.empty, [], 0⟩

inductive Lbl
  | lockMany (t : TxnId) (requests : List LockRequest) (order : IterOrder)
  | release (id : Nat)

variable (cfg : Config n) (s : State n)

def step : Lbl → Option (State n)
  | .lockMany t requests order =>
    match lockMany cfg s.manager t requests order with
    | (m, .ok locks) => some ⟨m, s.live ++ [⟨s.nextId, t, locks⟩], s.nextId + 1⟩
    | (m, .error _) => some { s with manager := m }
  | .release id =>
    (lookup TxnLockSet.id id s.live).map fun S =>
      { s with manager := releaseLocks s.manager S.txnId S.locks
               live := drop TxnLockSet.id id s.live }

def lts : LTS (State n) Lbl := .ofStep .init (step cfg)

/-- No granted `(resource, mode)` of one live set conflicts with one of a live set of
another transaction. -/
def Exclusive : Prop :=
  ∀ A ∈ s.live, ∀ B ∈ s.live, A.txnId ≠ B.txnId → ∀ g ∈ A.locks, ∀ h ∈ B.locks,
    lockGrantsConflict g.resource g.mode h.resource h.mode = false

/-! ## Mutual exclusion over runs -/

/-- The modes that the live sets of `t` record for `r`. -/
def modesOn (live : List (TxnLockSet n)) (t : TxnId) (r : LockResource) : List LockMode :=
  live.flatMap fun S =>
    if S.txnId = t then (S.locks.filter fun g => decide (g.resource = r)).map mode else []

/-- A grant merges into a mode that stands for both; a drop puts back a mode that stands
for what the other live sets of its transaction record. -/
def Guard : Lbl → Prop
  | .lockMany t requests _ => ∀ q ∈ normalizeRequests requests,
      ∀ h ∈ s.manager.held cfg t q.resource,
        (h.1.strongest q.mode).covers h.1 = true ∧ (h.1.strongest q.mode).covers q.mode = true
  | .release id => ∀ A ∈ s.live, A.id = id → ∀ B ∈ s.live, B.id ≠ id → B.txnId = A.txnId →
      ∀ g ∈ A.locks, ∀ g' ∈ B.locks, g'.resource = g.resource →
        ∀ p ∈ g.previousMode, p.covers g'.mode = true

instance (cfg : Config n) (s : State n) : (l : Lbl) → Decidable (Guard cfg s l)
  | .lockMany t requests _ => by unfold Guard; infer_instance
  | .release id => by unfold Guard; infer_instance

instance (s : State n) : Decidable (Exclusive s) := by unfold Exclusive; infer_instance

def oneShard : Config 1 where
  shardIndex _ := Fin.last 0
  escalationPolicy := ⟨2 ^ 64 - 1, .keepFineGrained⟩

def demoKey : LockResource := .primaryKey ⟨0, 1⟩ 10 20 1

def demoTable : LockResource := .table ⟨0, 1⟩ 10

variable {cfg : Config n} {m m0 : Manager n} {t t' : TxnId} {q : LockRequest}
  {g : GrantedLock n} {r : LockResource} {P : LockRequest → Prop} {gs : List (GrantedLock n)} {guarded : Prop}

/-- What the table says about `(t, r)` agrees with what the live sets record. Their modes are covered in `guarded` runs
only. -/
def Accounts (guarded : Prop) (o : Option (LockMode × Nat)) (modes : List LockMode) : Prop :=
  match o with
  | none => modes = []
  | some (M, k) => k = modes.length ∧ (guarded → ∀ m ∈ modes, M.covers m = true)

structure Inv (guarded : Prop) (cfg : Config n) (s : State n) : Prop where
  wf : s.manager.WF
  ids : Keyed.Unique TxnLockSet.id s.live
  fresh : ∀ S ∈ s.live, S.id < s.nextId
  nodup : ∀ S ∈ s.live, (S.locks.map resource).Nodup
  loc : ∀ S ∈ s.live, ∀ g ∈ S.locks, g.location = cfg.route g.resource
  accounts : ∀ t r, Accounts guarded (s.manager.held cfg t r) (modesOn s.live t r)
  excl : guarded → Exclusive s

theorem filter_resource_of_mem (hn : (gs.map resource).Nodup) (hg : g ∈ gs) :
    gs.filter (fun x => decide (x.resource = g.resource)) = [g] := by
  induction gs with
  | nil => cases hg
  | cons x gs ih =>
    obtain ⟨hx, hn⟩ := nodup_cons.1 hn
    rcases mem_cons.1 hg with rfl | hg
    · have hnone : gs.filter (fun x => decide (x.resource = g.resource)) = [] := by
        refine filter_eq_nil_iff.2 fun y hy => ?_
        simpa using fun e => hx (mem_map.2 ⟨y, hy, e⟩)
      simp [hnone]
    · have hne : x.resource ≠ g.resource := fun e => hx (e ▸ mem_map_of_mem hg)
      simp [hne, ih hn hg]

theorem filter_resource_of_not_mem (hr : r ∉ gs.map resource) : gs.filter (fun x => decide (x.resource = r)) = [] := by
  refine filter_eq_nil_iff.2 fun y hy => ?_
  simpa using fun e => hr (mem_map.2 ⟨y, hy, e⟩)

variable {S : TxnLockSet n} {s : State n}

theorem mode_mem_modesOn {live : List (TxnLockSet n)} (hS : S ∈ live)
    (hg : g ∈ S.locks) : g.mode ∈ modesOn live S.txnId g.resource := by
  refine mem_flatMap.2 ⟨S, hS, ?_⟩
  rw [if_pos rfl]
  exact mem_map_of_mem (mem_filter.2 ⟨hg, by simp⟩)

/-- A recorded grant is covered by the mode in the table. -/
theorem Inv.covered (h : Inv guarded cfg s) (hS : S ∈ s.live) (hg : g ∈ S.locks) :
    ∃ M k, s.manager.held cfg S.txnId g.resource = some (M, k) ∧ (guarded → M.covers g.mode = true) := by
  have hm := mode_mem_modesOn hS hg
  have ha := h.accounts S.txnId g.resource
  rcases hh : s.manager.held cfg S.txnId g.resource with - | ⟨M, k⟩
  · rw [hh] at ha; rw [show modesOn s.live S.txnId g.resource = [] from ha] at hm; cases hm
  · rw [hh] at ha; exact ⟨M, k, rfl, fun hG => ha.2 hG _ hm⟩

theorem inv_init : Inv guarded cfg (State.init : State n) where
  wf := wf_empty
  ids := unique_nil
  fresh := by simp [State.init]
  nodup := by simp [State.init]
  loc := by simp [State.init]
  accounts t r := rfl
  excl := by simp [Exclusive, State.init]

theorem strongest_x_covers (M : LockMode) : (M.strongest .x).covers M = true ∧ (M.strongest .x).covers .x = true := by
  cases M <;> decide

/-- A refused call keeps the invariant: it leaves the map as it was. -/
theorem inv_of_restored (h : Inv guarded cfg s) (hx : Extends cfg P s.manager m t []) :
    Inv guarded cfg { s with manager := m } where
  __ := h
  wf := hx.wf
  accounts t' r := by rw [hx.outside t' r (by simp)]; exact h.accounts t' r

/-- A granted set keeps the invariant when every grant merges into a covering mode. -/
theorem inv_of_granted (h : Inv guarded cfg s)
    (hx : Extends cfg (fun q => guarded → ∀ o ∈ s.manager.held cfg t q.resource,
      (o.1.strongest q.mode).covers o.1 = true ∧ (o.1.strongest q.mode).covers q.mode = true)
      s.manager m t gs) :
    Inv guarded cfg ⟨m, s.live ++ [⟨s.nextId, t, gs⟩], s.nextId + 1⟩ where
  wf := hx.wf
  ids := by
    refine Keyed.Unique.concat h.ids (lookup_eq_none.2 fun S hS => ?_)
    exact Nat.ne_of_lt (h.fresh S hS)
  fresh := forall_mem_append.2
    ⟨fun S hS => Nat.lt_succ_of_lt (h.fresh S hS), forall_mem_singleton.2 (Nat.lt_succ_self _)⟩
  nodup := forall_mem_append.2 ⟨h.nodup, forall_mem_singleton.2 hx.nodup⟩
  loc := forall_mem_append.2 ⟨h.loc, forall_mem_singleton.2 hx.loc⟩
  accounts t' r := by
    have ha := h.accounts t' r
    simp only [modesOn, flatMap_append, flatMap_cons, flatMap_nil, append_nil]
    by_cases hm : t' = t ∧ r ∈ gs.map resource
    · obtain ⟨rfl, hr⟩ := hm
      obtain ⟨g, hg, rfl⟩ := mem_map.1 hr
      rw [hx.inside g hg, if_pos rfl, filter_resource_of_mem hx.nodup hg]
      have hreq := hx.request g hg
      rcases hh : s.manager.held cfg t' g.resource with - | ⟨M, k⟩
      · rw [hh] at ha
        simp only [Accounts, modesOn] at ha
        rw [ha]; simp [Accounts, mergeHeld]
      rw [hh] at ha hreq
      refine ⟨by simpa [modesOn] using ha.1, fun hG => ?_⟩
      obtain ⟨hM, hg'⟩ := hreq hG (M, k) rfl
      exact forall_mem_append.2
        ⟨fun y hy => LockMode.covers_trans hM (ha.2 hG y hy), forall_mem_singleton.2 hg'⟩
    · rw [hx.outside t' r fun e hr => hm ⟨e, hr⟩]
      by_cases ht : t = t'
      · rw [if_pos ht, filter_resource_of_not_mem fun hr => hm ⟨ht.symm, hr⟩]
        simpa [modesOn] using ha
      · rw [if_neg ht]; simpa [modesOn] using ha
  excl hG := by
    -- a new grant is free of what the table says, and the table covers what was recorded
    have hnew : ∀ B ∈ s.live, B.txnId ≠ t → ∀ g ∈ gs, ∀ b ∈ B.locks,
        lockGrantsConflict g.resource g.mode b.resource b.mode = false := by
      intro B hB hne g hg b hb
      obtain ⟨M, k, hh, hc⟩ := h.covered hB hb
      by_contra hcon
      rw [Bool.not_eq_false, lockGrantsConflict_comm] at hcon
      have hfree := hx.free g hg _ _ _ _ hne hh
      rw [covers_conflict (hc hG) hcon] at hfree
      cases hfree
    intro A hA B hB hne a ha b hb
    rcases mem_append.1 hA with hA | hA <;> rcases mem_append.1 hB with hB | hB
    · exact h.excl hG A hA B hB hne a ha b hb
    · obtain rfl := mem_singleton.1 hB
      rw [lockGrantsConflict_comm]; exact hnew A hA hne b hb a ha
    · obtain rfl := mem_singleton.1 hA
      exact hnew B hB (fun e => hne e.symm) a ha b hb
    · rw [mem_singleton.1 hA, mem_singleton.1 hB] at hne
      exact absurd rfl hne

theorem wf_releaseLocks (h : m.WF) : (releaseLocks m t gs).WF := by
  induction gs with
  | nil => exact h
  | cons g gs ih => exact wf_releaseLock ih

/-- What dropping a set does to the map: each of its resources is released once. -/
theorem held_releaseLocks (hn : (gs.map resource).Nodup) (hl : ∀ g ∈ gs, g.location = cfg.route g.resource) :
    (∀ g ∈ gs, (releaseLocks m t gs).held cfg t g.resource = unmergeHeld (m.held cfg t g.resource) g.previousMode) ∧
    (∀ t' r, (t' = t → r ∉ gs.map resource) → (releaseLocks m t gs).held cfg t' r = m.held cfg t' r) := by
  induction gs with
  | nil => exact ⟨by simp, fun _ _ _ => rfl⟩
  | cons x gs ih =>
    obtain ⟨hx, hn⟩ := nodup_cons.1 hn
    obtain ⟨ih1, ih2⟩ := ih hn fun g hg => hl g (mem_cons_of_mem _ hg)
    have hlx := hl x mem_cons_self
    refine ⟨fun g hg => ?_, fun t' r hr => ?_⟩
    · rw [releaseLocks, held_releaseLock hlx]
      rcases mem_cons.1 hg with rfl | hg
      · rw [if_pos ⟨rfl, rfl⟩, ih2 _ _ fun _ => hx]
      · have hne : g.resource ≠ x.resource := fun e => hx (e ▸ mem_map_of_mem hg)
        rw [if_neg (fun e => hne e.2), ih1 g hg]
    · rw [releaseLocks, held_releaseLock hlx, if_neg fun e => hr e.1 (by simp [e.2])]
      exact ih2 t' r fun e hm => hr e (mem_cons_of_mem _ hm)

theorem accounts_unmerge {o : Option (LockMode × Nat)} {modes1 modes2 : List LockMode}
    {mode : LockMode} {p : Option LockMode} (h : Accounts guarded o (modes1 ++ mode :: modes2))
    (hp : guarded → ∀ M' ∈ p, ∀ y ∈ modes1 ++ modes2, M'.covers y = true) :
    Accounts guarded (unmergeHeld o p) (modes1 ++ modes2) := by
  rcases o with - | ⟨M, k⟩
  · simp [Accounts] at h
  obtain ⟨hk, hc⟩ := h
  have hk' : k = (modes1 ++ modes2).length + 1 := by rw [hk]; simp; omega
  cases hlen : (modes1 ++ modes2).length with
  | zero =>
    rw [hlen] at hk'
    subst hk'
    exact length_eq_zero_iff.1 hlen
  | succ j =>
    rw [hlen] at hk'
    subst hk'
    refine ⟨hlen.symm, fun hG y hy => ?_⟩
    rcases p with - | M'
    · exact hc hG y (append_sublist_append_left _ |>.2 (sublist_cons_self _ _) |>.subset hy)
    · exact hp hG M' rfl y hy

theorem inv_of_released (h : Inv guarded cfg s)
    (hS : Keyed.lookup TxnLockSet.id S.id s.live = some S) (hG : guarded → Guard cfg s (.release S.id)) :
    Inv guarded cfg { s with manager := releaseLocks s.manager S.txnId S.locks
                             live := Keyed.drop TxnLockSet.id S.id s.live } := by
  have hmem := Keyed.mem_of_lookup hS
  obtain ⟨l1, l2, hsplit, hdrop⟩ := Keyed.split_of_lookup h.ids hS
  have hsub : ∀ B ∈ Keyed.drop TxnLockSet.id S.id s.live, B ∈ s.live ∧ B.id ≠ S.id := by
    simp [Keyed.drop]
  obtain ⟨hin, hout⟩ := held_releaseLocks (m := s.manager) (t := S.txnId) (h.nodup S hmem) (h.loc S hmem)
  refine ⟨wf_releaseLocks h.wf, Keyed.Unique.drop h.ids, fun B hB => h.fresh B (hsub B hB).1,
    fun B hB => h.nodup B (hsub B hB).1, fun B hB => h.loc B (hsub B hB).1, ?_, ?_⟩
  · intro t' r
    dsimp only
    have ha := h.accounts t' r
    have hold : modesOn s.live t' r = modesOn l1 t' r ++ (modesOn [S] t' r ++ modesOn l2 t' r) := by
      rw [hsplit]; simp [modesOn]
    have hnew : modesOn (Keyed.drop TxnLockSet.id S.id s.live) t' r = modesOn l1 t' r ++ modesOn l2 t' r := by
      rw [hdrop]; simp [modesOn]
    rw [hold] at ha
    by_cases hm : t' = S.txnId ∧ r ∈ S.locks.map resource
    · obtain ⟨rfl, hr⟩ := hm
      obtain ⟨g, hg, rfl⟩ := mem_map.1 hr
      have hone : modesOn [S] S.txnId g.resource = [g.mode] := by
        simp [modesOn, filter_resource_of_mem (h.nodup S hmem) hg]
      rw [hone] at ha
      rw [hin g hg, hnew]
      refine accounts_unmerge ha fun hguarded p hp y hy => ?_
      rw [← hnew] at hy
      obtain ⟨B, hB, hy⟩ := mem_flatMap.1 hy
      split at hy
      · rename_i htx
        obtain ⟨g', hg', rfl⟩ := mem_map.1 hy
        obtain ⟨hg', hr'⟩ := mem_filter.1 hg'
        exact hG hguarded S hmem rfl B (hsub B hB).1 (hsub B hB).2 htx g hg g' hg' (by simpa using hr') p hp
      · cases hy
    · rw [hout t' r fun e hr => hm ⟨e, hr⟩, hnew]
      have hone : modesOn [S] t' r = [] := by
        simp only [modesOn, flatMap_cons, flatMap_nil, append_nil]
        split
        · rename_i htx
          rw [filter_resource_of_not_mem fun hr => hm ⟨htx.symm, hr⟩]; rfl
        · rfl
      simpa [hone] using ha
  · exact fun hG A hA B hB => h.excl hG A (hsub A hA).1 B (hsub B hB).1

theorem inv_step {s' : State n} {l : Lbl} (h : Inv guarded cfg s) (hG : guarded → Guard cfg s l)
    (hs : step cfg s l = some s') : Inv guarded cfg s' := by
  cases l with
  | lockMany t requests order =>
    have hb := lockMany_builds cfg order (t := t) h.wf (fun q hq hguarded => hG hguarded q hq)
      fun ns tid tb _ o _ => strongest_x_covers o.1
    simp only [step] at hs
    split at hs
    · rename_i m locks he
      rw [he] at hb
      cases hs
      exact inv_of_granted h hb.1
    · rename_i m e he
      rw [he] at hb
      cases hs
      exact inv_of_restored h hb
  | release id =>
    obtain ⟨S, hS, rfl⟩ := Option.map_eq_some_iff.1 hs
    obtain rfl := key_of_lookup hS
    exact inv_of_released h hS hG

variable (cfg : Config n)

theorem inv_invariant : ((lts cfg).guard (Guard cfg)).Invariant (Inv True cfg) where
  init := by rintro s rfl; exact inv_init
  step := fun _ _ _ h hs => inv_step h (fun _ => hs.1) hs.2

theorem inv_unguarded : (lts cfg).Invariant (Inv False cfg) where
  init := by rintro s rfl; exact inv_init
  step := fun _ _ _ h hs => inv_step h False.elim hs

/-- **Mutual exclusion.** In every run whose grants merge into a covering mode and whose
drops put back a covering mode, live sets of different transactions never conflict. -/
theorem granted_exclusion (s : State n)
    (h : ((lts cfg).guard (Guard cfg)).Reachable s) : Exclusive s :=
  ((inv_invariant cfg).reachable h).excl trivial

/-- Two transactions on one key, with an upgrade that is dropped in order. -/
theorem granted_exclusion_upgrade :
    ∃ s, ((lts oneShard).guard (Guard oneShard)).Reachable s ∧ s.live.length = 2 ∧ Exclusive s := by
  have hrun : ∃ s, ((lts oneShard).guard (Guard oneShard)).Reachable s ∧ s.live.length = 2 :=
    reachable_of_exec_guard [.lockMany 1 [⟨demoKey, .s⟩] .id, .lockMany 1 [⟨demoKey, .x⟩] .id,
      .lockMany 2 [⟨demoKey, .s⟩] .id, .release 1, .lockMany 2 [⟨demoKey, .s⟩] .id] (by decide)
  obtain ⟨s, hr, hl⟩ := hrun
  exact ⟨s, hr, hl, granted_exclusion oneShard s hr⟩

/-- **No lock leaks.** The tables hold a resource for a transaction exactly when one of its live sets
records it, so a transaction whose sets were all dropped holds nothing. -/
theorem held_iff_recorded : (lts cfg).Always fun s => ∀ t r,
    (s.manager.held cfg t r).isSome ↔ ∃ S ∈ s.live, S.txnId = t ∧ ∃ g ∈ S.locks, g.resource = r := by
  refine (inv_unguarded cfg).always fun s h t r => ⟨fun hh => ?_, ?_⟩
  · obtain ⟨⟨M, k⟩, hMk⟩ := Option.isSome_iff_exists.1 hh
    have ha := h.accounts t r
    rw [hMk] at ha
    obtain ⟨m, hm⟩ := exists_mem_of_length_pos (ha.1 ▸ h.wf.held_pos hMk)
    obtain ⟨S, hS, hm⟩ := mem_flatMap.1 hm
    split at hm
    · next ht =>
      obtain ⟨g, hg, -⟩ := mem_map.1 hm
      exact ⟨S, hS, ht, g, (mem_filter.1 hg).1, of_decide_eq_true (mem_filter.1 hg).2⟩
    · cases hm
  · rintro ⟨S, hS, rfl, g, hg, rfl⟩
    obtain ⟨M, k, hMk, -⟩ := h.covered hS hg
    rw [hMk, Option.isSome_some]

/-! ## Runs that break it -/

/-- Transaction 1 takes `s`, then twice `x`; dropping the second set puts back `s` while
the third still records `x`, and transaction 2 is granted `s`. -/
def lostUpgrade : List Lbl :=
  [.lockMany 1 [⟨demoKey, .s⟩] .id, .lockMany 1 [⟨demoKey, .x⟩] .id, .lockMany 1 [⟨demoKey, .x⟩] .id,
   .release 1, .lockMany 2 [⟨demoKey, .s⟩] .id]

/-- Transaction 1 takes `ix` and then `s` on a table; the table keeps `s` only, and
transaction 2 is granted `s` against the recorded `ix`. -/
def lostIntent : List Lbl :=
  [.lockMany 1 [⟨demoTable, .ix⟩] .id, .lockMany 1 [⟨demoTable, .s⟩] .id, .lockMany 2 [⟨demoTable, .s⟩] .id]

/-- **Counterexample.** Both a drop out of order and a merge of `ix` with `s` reach a state
in which two transactions record conflicting grants. -/
theorem exclusion_broken :
    (∃ s, exec (step oneShard) .init lostUpgrade = some s ∧ ¬ Exclusive s) ∧
    (∃ s, exec (step oneShard) .init lostIntent = some s ∧ ¬ Exclusive s) := by
  have h1 : (exec (step oneShard) .init lostUpgrade).any (fun s => decide (¬ Exclusive s)) = true := by decide
  have h2 : (exec (step oneShard) .init lostIntent).any (fun s => decide (¬ Exclusive s)) = true := by decide
  obtain ⟨s1, e1, b1⟩ := (Option.any_eq_true _ _).1 h1
  obtain ⟨s2, e2, b2⟩ := (Option.any_eq_true _ _).1 h2
  exact ⟨⟨s1, e1, of_decide_eq_true b1⟩, ⟨s2, e2, of_decide_eq_true b2⟩⟩

/-! ## All or nothing

A call that is refused has by then granted, upgraded and taken back locks: provisional
coarse grants that a fine holder vetoes, whole shards, and row locks already traded for a
tablet lock when a later escalation fails under `Abort` (lock_manager.rs:641-696, 924-991,
1036-1083). No condition on modes or on the order of drops is needed, unlike for mutual
exclusion: between the grants of one call and their release no other set changes the tables. -/

/-- **All or nothing.** In every reachable state, a refused `lock_many` leaves the coarse
table, every fine shard and the counter as they were, and so does a granted one whose set
is dropped at once. -/
theorem lock_many_all_or_nothing (s : State n) (h : (lts cfg).Reachable s)
    (t : TxnId) (requests : List LockRequest) (order : IterOrder) :
    (∀ m e, lockMany cfg s.manager t requests order = (m, .error e) → m = s.manager) ∧
    (∀ m locks, lockMany cfg s.manager t requests order = (m, .ok locks) →
      releaseLocks m t locks = s.manager) := by
  have hb : Builds cfg (fun _ => True) s.manager t (fun _ => True) (lockMany cfg s.manager t requests order) :=
    lockMany_builds cfg order ((inv_unguarded cfg).reachable h).wf (fun _ _ => trivial) fun _ _ _ => trivial
  constructor
  · intro m e he
    rw [he] at hb
    exact Extends.eq_of_nil hb
  · intro m locks he
    rw [he] at hb
    exact hb.1.releaseAll.eq_of_nil

def eagerAbort : Config 1 where
  shardIndex _ := Fin.last 0
  escalationPolicy := ⟨1, .abort⟩

def demoRow (tablet row : Nat) : LockResource := .rowId ⟨0, 1⟩ 10 tablet 0 0 row

/-- Transaction 2 keeps a key of tablet 21. Transaction 1 asks for a row in each of two
tablets: the first row is traded for tablet 20 before the escalation to tablet 21 is
refused, and the trade is undone. -/
theorem lock_many_all_or_nothing_traded : ∃ s, (lts eagerAbort).Reachable s ∧
    (lockMany eagerAbort s.manager 1 [⟨demoRow 20 1, .x⟩, ⟨demoRow 21 2, .x⟩] .id).2 =
      .error (.wouldWound [2]) ∧
    (lockMany eagerAbort s.manager 1 [⟨demoRow 20 1, .x⟩, ⟨demoRow 21 2, .x⟩] .id).1 =
      s.manager := by
  have hrun : ∃ s, (lts eagerAbort).Reachable s ∧
      (lockMany eagerAbort s.manager 1 [⟨demoRow 20 1, .x⟩, ⟨demoRow 21 2, .x⟩] .id).2 = .error (.wouldWound [2]) :=
    LTS.reachable_of_exec [.lockMany 2 [⟨.primaryKey ⟨0, 1⟩ 10 21 1, .x⟩] .id] (by decide)
  obtain ⟨s, hr, he⟩ := hrun
  exact ⟨s, hr, he, (lock_many_all_or_nothing eagerAbort s hr 1 _ .id).1 _ _ (Prod.ext rfl he)⟩

end Paro.L3.LockExclusion
