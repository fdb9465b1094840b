import Paro.L2Machine.WriteConflictIndex

/-!
# The write-conflict index against a linear scan

Runs of successful `register_commit` calls and of `advance_horizon` calls, with the list of
all registered writes beside the index. The scan that a query stands for looks at every
registered write above the read timestamp and above the horizon (`Match`).

`agrees_iff` says exactly when the index answers as the scan does: one of the earliest
matches has to be placed where its query looks. By `meets_of_conflict` that can fail only
for the pairs of `Blind`: a database query and a coarse write under it, a table query and a
tablet write, and a key or range against a range that wraps inside one bucket.
`scan_missed` has one run for each.

A commit registered at or below the horizon is kept until the next `advance_horizon`; runs
register above the horizon, as the publisher does.
-/
namespace Paro.L3.ConflictScan
open L1 L2.WriteConflictIndex List Option

variable {n : Nat} (hash : ShardKey → Fin n)

structure State (n : Nat) where
  index : Index n
  /-- ghost: every registered write -/
  registered : List (CommitTs × LockResource)

def State.init : State n := ⟨.empty, []⟩

inductive Lbl
  | registerCommit (ts : CommitTs) (writes : List LockResource)
  | advanceHorizon (target : CommitTs)

variable (s : State n)

def step : Lbl → Option (State n)
  | .registerCommit ts writes =>
    match registerCommit hash s.index ts writes with
    | (ix, .ok _) => some ⟨ix, s.registered ++ writes.map fun w => (ts, w)⟩
    | (_, .error _) => none
  | .advanceHorizon target => some { s with index := advanceHorizon s.index target }

def lts : LTS (State n) Lbl := .ofStep .init (step hash)

def AboveHorizon : Lbl → Prop
  | .registerCommit ts _ => s.index.conflictHorizon < ts
  | .advanceHorizon _ => True

instance (s : State n) : (l : Lbl) → Decidable (AboveHorizon s l)
  | .registerCommit _ _ => by unfold AboveHorizon; infer_instance
  | .advanceHorizon _ => .isTrue trivial

def Match (readTs : Nat) (query : List LockResource) (p : CommitTs × LockResource) :
    Prop :=
  p ∈ s.registered ∧ readTs < p.1 ∧ s.index.conflictHorizon < p.1 ∧ ∃ q ∈ query, p.2.conflictsWith q = true

instance (s : State n) (readTs : Nat) (query : List LockResource) (p : CommitTs × LockResource) :
    Decidable (Match s readTs query p) := by unfold Match; infer_instance

/-- The index finds a conflict exactly when the scan does, and then an earliest one. -/
def Agrees (readTs : Nat) (query : List LockResource) : Prop :=
  (hasConflict hash s.index readTs query = true ↔ ∃ p, Match s readTs query p) ∧
  ∀ m, firstConflict hash s.index readTs query = some m → Match s readTs query (m.commitTs, m.resource) ∧
      ∀ p, Match s readTs query p → m.commitTs ≤ p.1

/-- Some match no later than any given one is placed where its query looks. -/
def EarliestMeets (readTs : Nat) (query : List LockResource) : Prop :=
  ∀ p, Match s readTs query p → ∃ p', Match s readTs query p' ∧ p'.1 ≤ p.1 ∧
    ∃ q ∈ query, p'.2.conflictsWith q = true ∧ Meets hash p'.2 q

/-! ## What the shards hold -/

variable {p : ConflictPlacement n} {w : LockResource} {writes : List LockResource} {ts : CommitTs}

theorem resource_of_mem_placements (h : p ∈ placementsForWrite hash w) : p.resource = w := by
  unfold placementsForWrite at h
  split at h
  · simp only [List.mem_append, List.mem_map, List.mem_singleton] at h
    rcases h with (⟨i, -, rfl⟩ | rfl) | h
    · rfl
    · rfl
    · split at h
      · rw [List.mem_singleton.1 h]
      · cases h
  · rw [List.mem_singleton.1 h]

theorem mem_placementsForCommit :
    p ∈ placementsForCommit hash writes ↔ ∃ w ∈ writes, p ∈ placementsForWrite hash w := by
  simp [placementsForCommit]

/-- The push loop appends to each shard the entries placed there. -/
theorem pushAll_spec (ix : Index n) (ts : CommitTs) (ps : List (ConflictPlacement n))
    (hl : ∀ i, (ix.shards i).lastCommitTs ≤ ts) :
    ∃ ix', pushAll ix ts ps = (ix', .ok ()) ∧ ix'.durableTs = ix.durableTs ∧
      ix'.conflictHorizon = ix.conflictHorizon ∧ (∀ i, (ix'.shards i).lastCommitTs ≤ ts) ∧
      ∀ i, (ix'.shards i).entries = (ix.shards i).entries ++
        (ps.filter fun p => decide (p.shardIndex = i)).map fun p => ⟨ts, p.resource, p.kind⟩ := by
  induction ps generalizing ix with
  | nil => exact ⟨ix, rfl, rfl, rfl, hl, by simp⟩
  | cons p ps ih =>
    have hp : (ix.shards p.shardIndex).push ts p.resource p.kind =
        .ok ⟨(ix.shards p.shardIndex).entries ++ [⟨ts, p.resource, p.kind⟩], ts⟩ := by
      unfold ConflictShard.push
      rw [if_neg (not_lt.2 (hl _))]
    let shard : ConflictShard := ⟨(ix.shards p.shardIndex).entries ++ [⟨ts, p.resource, p.kind⟩], ts⟩
    have hl1 : ∀ i, (Function.update ix.shards p.shardIndex shard i).lastCommitTs ≤ ts := by
      intro i
      by_cases hi : i = p.shardIndex
      · subst hi; simp [shard]
      · simpa [hi] using hl i
    obtain ⟨ix', he, hd, hh, hl', hent⟩ := ih { ix with shards := Function.update ix.shards p.shardIndex shard } hl1
    refine ⟨ix', by simpa [pushAll, hp] using he, hd, hh, hl', fun i => ?_⟩
    rw [hent i]
    by_cases hi : p.shardIndex = i
    · subst hi; simp [shard]
    · have hi' : i ≠ p.shardIndex := fun e => hi e.symm
      simp [hi, hi']

structure Inv (s : State n) : Prop where
  sorted : ∀ i, (s.index.shards i).entries.Pairwise fun a b => a.commitTs ≤ b.commitTs
  mem : ∀ i e, e ∈ (s.index.shards i).entries ↔ (e.commitTs, e.resource) ∈ s.registered ∧
    s.index.conflictHorizon < e.commitTs ∧
    ⟨i, e.kind, e.resource⟩ ∈ placementsForWrite hash e.resource
  durable : ∀ p ∈ s.registered, p.1 ≤ s.index.durableTs
  last : ∀ i, (s.index.shards i).lastCommitTs ≤ s.index.durableTs

theorem inv_init : Inv hash (State.init : State n) := by
  refine ⟨fun i => ?_, fun i e => ?_, ?_, fun i => ?_⟩ <;> simp [State.init, Index.empty]

theorem inv_register {s : State n} (h : Inv hash s) (hts : s.index.conflictHorizon < ts) {ix : Index n} {k : Nat}
    (he : registerCommit hash s.index ts writes = (ix, .ok k)) :
    Inv hash ⟨ix, s.registered ++ writes.map fun w => (ts, w)⟩ := by
  unfold registerCommit at he
  split at he
  · cases he
  split at he
  · cases he
  rename_i hd
  have hd : s.index.durableTs ≤ ts := not_lt.1 hd
  obtain ⟨ix', hp, hdur, hhor, hlast, hent⟩ := pushAll_spec s.index ts
    (placementsForCommit hash writes) fun i => le_trans (h.last i) hd
  rw [hp] at he
  obtain ⟨rfl, -⟩ := Prod.mk.inj he
  have hold : ∀ i, ∀ e ∈ (s.index.shards i).entries, e.commitTs ≤ ts := fun i e hm =>
    le_trans (h.durable _ ((h.mem i e).1 hm).1) hd
  refine ⟨fun i => ?_, fun i e => ?_, ?_, fun i => ?_⟩
  · dsimp only
    rw [hent i, pairwise_append]
    refine ⟨h.sorted i, ?_, ?_⟩
    · rw [pairwise_map]
      exact pairwise_of_forall fun _ _ => le_rfl
    · intro a ha b hb
      obtain ⟨p, -, rfl⟩ := List.mem_map.1 hb
      exact hold i a ha
  · dsimp only
    rw [hent i, List.mem_append, h.mem i e, hhor]
    simp only [List.mem_append, List.mem_map, List.mem_filter, decide_eq_true_eq,
      mem_placementsForCommit, Prod.mk.injEq]
    constructor
    · rintro (⟨h1, h2, h3⟩ | ⟨p, ⟨⟨w, hw, hpw⟩, rfl⟩, rfl⟩)
      · exact ⟨.inl h1, h2, h3⟩
      · obtain rfl := resource_of_mem_placements hash hpw
        exact ⟨.inr ⟨_, hw, rfl, rfl⟩, hts, hpw⟩
    · rintro ⟨h1 | ⟨w, hw, htw, hwr⟩, h2, h3⟩
      · exact .inl ⟨h1, h2, h3⟩
      · subst hwr htw
        exact .inr ⟨_, ⟨⟨_, hw, h3⟩, rfl⟩, rfl⟩
  · intro p hp
    dsimp only
    rcases List.mem_append.1 hp with hp | hp
    · exact le_trans (h.durable p hp) (by rw [hdur]; exact le_max_left _ _)
    · obtain ⟨w, -, rfl⟩ := List.mem_map.1 hp
      exact le_max_right _ _
  · exact le_trans (hlast i) (le_max_right _ _)

variable {s : State n} {ix : Index n} {readTs : Nat} {query : List LockResource} {q : LockResource}

theorem inv_advance (h : Inv hash s) (target : CommitTs) :
    Inv hash { s with index := advanceHorizon s.index target } := by
  refine ⟨fun i => ?_, fun i e => ?_, h.durable, h.last⟩
  · exact (h.sorted i).sublist (dropWhile_sublist _)
  · simp only [advanceHorizon, ConflictShard.gc]
    rw [mem_dropWhile_of_sorted (h.sorted i), h.mem i e]
    constructor
    · exact fun ⟨⟨h1, _, h3⟩, h4⟩ => ⟨h1, h4, h3⟩
    · exact fun ⟨h1, h2, h3⟩ => ⟨⟨h1, lt_of_le_of_lt (le_max_left _ _) h2, h3⟩, h2⟩

theorem inv_invariant : ((lts hash).guard AboveHorizon).Invariant (Inv hash) where
  init := by rintro s rfl; exact inv_init hash
  step := by
    rintro s l s' h ⟨hg, hs⟩
    cases l with
    | registerCommit ts writes =>
      simp only [lts, LTS.ofStep, step] at hs
      split at hs
      · rename_i ix k he
        cases hs
        exact inv_register hash h hg he
      · cases hs
    | advanceHorizon target =>
      simp only [lts, LTS.ofStep, step, some.injEq] at hs
      subst hs
      exact inv_advance hash h target

/-! ## What a query computes -/

def candidates (ix : Index n) (readTs : Nat) (query : List LockResource) : List ConflictMatch :=
  query.flatMap fun q => (probesForQuery hash q).filterMap fun p =>
    ((ix.shards p.shardIndex).firstConflict readTs q p.kindMask).map fun e => ⟨e.commitTs, e.resource⟩

theorem firstConflict_eq (ix : Index n) (readTs : Nat) (query : List LockResource) :
    firstConflict hash ix readTs query = (candidates hash ix readTs query).foldl selectEarlierMatch none := by
  have hres : ∀ best q, probeResource hash ix readTs best q = ((probesForQuery hash q).filterMap fun p =>
        ((ix.shards p.shardIndex).firstConflict readTs q p.kindMask).map fun e =>
          (⟨e.commitTs, e.resource⟩ : ConflictMatch)).foldl selectEarlierMatch best := by
    intro best q
    rw [foldl_filterMap]
    unfold probeResource
    congr 1
    funext b p
    cases (ix.shards p.shardIndex).firstConflict readTs q p.kindMask <;> rfl
  unfold firstConflict candidates
  rw [foldl_flatMap]
  congr 1
  funext b q
  exact hres b q

theorem selectEarlierMatch_spec (o : Option ConflictMatch) (c : ConflictMatch) :
    ∃ m, selectEarlierMatch o c = some m ∧ (o = some m ∨ m = c) ∧ m.commitTs ≤ c.commitTs ∧
      ∀ m', o = some m' → m.commitTs ≤ m'.commitTs := by
  rcases o with - | cur
  · exact ⟨c, rfl, .inr rfl, le_rfl, by simp⟩
  · unfold selectEarlierMatch
    dsimp only
    split
    · rename_i hlt
      refine ⟨c, rfl, .inr rfl, le_rfl, fun m' e => ?_⟩
      cases e
      rcases hlt with hlt | hlt
      · exact le_of_lt hlt
      · exact le_of_eq hlt.1
    · rename_i hge
      refine ⟨cur, rfl, .inl rfl, not_lt.1 fun h => hge (.inl h), fun m' e => ?_⟩
      cases e; exact le_rfl

/-- Folding keeps the earliest of what it started from and what it saw. -/
theorem foldl_selectEarlierMatch (cs : List ConflictMatch) (o : Option ConflictMatch) :
    (cs.foldl selectEarlierMatch o = none ↔ o = none ∧ cs = []) ∧
    ∀ m, cs.foldl selectEarlierMatch o = some m → (o = some m ∨ m ∈ cs) ∧
      (∀ c ∈ cs, m.commitTs ≤ c.commitTs) ∧ ∀ m', o = some m' → m.commitTs ≤ m'.commitTs := by
  induction cs generalizing o with
  | nil =>
    refine ⟨by simp, fun m h => ⟨.inl h, by simp, fun m' h' => ?_⟩⟩
    obtain rfl : m = m' := some.inj (h.symm.trans h')
    exact le_rfl
  | cons c cs ih =>
    obtain ⟨m1, hm1, horig, hle, hold⟩ := selectEarlierMatch_spec o c
    rw [foldl_cons, hm1]
    obtain ⟨ih1, ih2⟩ := ih (some m1)
    refine ⟨by simp [ih1], fun m h => ?_⟩
    obtain ⟨hin, hcs, hfrom⟩ := ih2 m h
    have hm : m.commitTs ≤ m1.commitTs := hfrom m1 rfl
    refine ⟨?_, ?_, fun m' h' => le_trans hm (hold m' h')⟩
    · rcases hin with hin | hin
      · obtain rfl := some.inj hin
        rcases horig with h' | rfl
        · exact .inl h'
        · exact .inr mem_cons_self
      · exact .inr (mem_cons_of_mem _ hin)
    · exact forall_mem_cons.2 ⟨le_trans hm hle, hcs⟩

def Hit (ix : Index n) (readTs : Nat) (q : LockResource) (p : ConflictProbe n) (e : ConflictEntry) :
    Prop :=
  p ∈ probesForQuery hash q ∧ e ∈ (ix.shards p.shardIndex).entries ∧ readTs < e.commitTs ∧
    e.kind.bit &&& p.kindMask ≠ 0 ∧ e.resource.conflictsWith q = true

theorem hit_of_mem_candidates {c : ConflictMatch} (h : c ∈ candidates hash ix readTs query) :
    ∃ q ∈ query, ∃ p e, Hit hash ix readTs q p e ∧ c = ⟨e.commitTs, e.resource⟩ := by
  simp only [candidates, mem_flatMap, mem_filterMap, map_eq_some_iff] at h
  obtain ⟨q, hq, p, hp, e, he, rfl⟩ := h
  have hm := mem_of_find?_eq_some he
  have hs := find?_some he
  simp only [gt_iff_lt, Bool.and_eq_true, decide_eq_true_eq] at hs
  exact ⟨q, hq, p, e, ⟨hp, hm, hs.1.1, hs.1.2, hs.2⟩, rfl⟩

/-- A shard is ordered by commit timestamp, so its first conflict is its earliest. -/
theorem candidate_of_hit (hs : ∀ i, (ix.shards i).entries.Pairwise fun a b => a.commitTs ≤ b.commitTs)
    (hq : q ∈ query) {p : ConflictProbe n} {e : ConflictEntry} (h : Hit hash ix readTs q p e) :
    ∃ c ∈ candidates hash ix readTs query, c.commitTs ≤ e.commitTs := by
  obtain ⟨hp, hm, hts, hk, hc⟩ := h
  have hsome : ((ix.shards p.shardIndex).firstConflict readTs q p.kindMask).isSome := by
    unfold ConflictShard.firstConflict
    rw [find?_isSome]
    exact ⟨e, hm, by simp [hts, hk, hc]⟩
  obtain ⟨e', he'⟩ := isSome_iff_exists.1 hsome
  refine ⟨⟨e'.commitTs, e'.resource⟩, ?_, ?_⟩
  · simp only [candidates, mem_flatMap, mem_filterMap, map_eq_some_iff]
    exact ⟨q, hq, p, hp, e', he', rfl⟩
  · obtain ⟨-, l1, l2, hl, hbefore⟩ := find?_eq_some_iff_append.1 he'
    have hsort := hs p.shardIndex
    rw [hl] at hm hsort
    rcases mem_append.1 hm with hm | hm
    · have := hbefore e hm
      simp [hts, hk, hc] at this
    · rcases mem_cons.1 hm with rfl | hm
      · exact le_rfl
      · exact (pairwise_cons.1 (pairwise_append.1 hsort).2.1).1 e hm

/-- Hits are the matches that meet their query. -/
theorem hit_iff (h : Inv hash s) : (∃ p e, Hit hash s.index readTs q p e ∧ e.commitTs = ts ∧ e.resource = w) ↔
      (ts, w) ∈ s.registered ∧ readTs < ts ∧ s.index.conflictHorizon < ts ∧
        w.conflictsWith q = true ∧ Meets hash w q := by
  constructor
  · rintro ⟨p, e, ⟨hp, hm, hts, hk, hc⟩, rfl, rfl⟩
    obtain ⟨hr, hh, hpl⟩ := (h.mem _ _).1 hm
    exact ⟨hr, hts, hh, hc, ⟨_, hpl, p, hp, rfl, hk⟩⟩
  · rintro ⟨hr, hts, hh, hc, pl, hpl, p, hp, hi, hk⟩
    obtain rfl := resource_of_mem_placements hash hpl
    exact ⟨p, ⟨ts, pl.resource, pl.kind⟩, ⟨hp, (h.mem _ _).2 ⟨hr, hh, hi ▸ hpl⟩, hts, hk, hc⟩, rfl, rfl⟩

theorem agrees_iff_earliestMeets (h : Inv hash s) (readTs : Nat) (query : List LockResource) :
    Agrees hash s readTs query ↔ EarliestMeets hash s readTs query := by
  obtain ⟨hnone, hsome⟩ := foldl_selectEarlierMatch (candidates hash s.index readTs query) none
  rw [← firstConflict_eq] at hnone hsome
  have hcand : ∀ c ∈ candidates hash s.index readTs query, Match s readTs query (c.commitTs, c.resource) ∧
        ∃ q ∈ query, c.resource.conflictsWith q = true ∧ Meets hash c.resource q := by
    intro c hc
    obtain ⟨q, hq, p, e, hhit, rfl⟩ := hit_of_mem_candidates hash hc
    obtain ⟨hr, hts, hh, hcw, hmeet⟩ := (hit_iff hash h).1 ⟨p, e, hhit, rfl, rfl⟩
    exact ⟨⟨hr, hts, hh, q, hq, hcw⟩, q, hq, hcw, hmeet⟩
  have hfirst : ∀ m, firstConflict hash s.index readTs query = some m → m ∈ candidates hash s.index readTs query := by
    intro m hm
    rcases (hsome m hm).1 with h' | h'
    · cases h'
    · exact h'
  constructor
  · rintro ⟨hhas, hleast⟩ p hp
    obtain ⟨m, hm⟩ := isSome_iff_exists.1 (hhas.2 ⟨p, hp⟩)
    obtain ⟨hmatch, hmeet⟩ := hcand m (hfirst m hm)
    exact ⟨_, hmatch, (hleast m hm).2 p hp, hmeet⟩
  · intro hmeets
    have hbelow : ∀ p, Match s readTs query p → ∃ c ∈ candidates hash s.index readTs query, c.commitTs ≤ p.1 := by
      intro p hp
      obtain ⟨p', ⟨hr, hts, hh, -⟩, hle, q, hq, hcw, hmeet⟩ := hmeets p hp
      obtain ⟨pr, e, hhit, he, -⟩ := (hit_iff hash h).2 ⟨hr, hts, hh, hcw, hmeet⟩
      obtain ⟨c, hc, hce⟩ := candidate_of_hit hash h.sorted hq hhit
      exact ⟨c, hc, le_trans (he ▸ hce) hle⟩
    refine ⟨⟨fun hh => ?_, fun ⟨p, hp⟩ => ?_⟩, fun m hm => ⟨(hcand m (hfirst m hm)).1, ?_⟩⟩
    · obtain ⟨m, hm⟩ := isSome_iff_exists.1 hh
      exact ⟨_, (hcand m (hfirst m hm)).1⟩
    · obtain ⟨c, hc, -⟩ := hbelow p hp
      refine isSome_iff_ne_none.2 fun hn => ?_
      rw [(hnone.1 hn).2] at hc
      cases hc
    · intro p hp
      obtain ⟨c, hc, hle⟩ := hbelow p hp
      exact le_trans ((hsome m hm).2.1 c hc) hle

/-- **Agreement with the scan.** In every run that registers above the horizon, and for
every query, the index answers as the scan does exactly when one of the earliest matches is
placed where its query looks; and it does so whenever no live write and query resource form
a blind pair. -/
theorem agrees_iff (s : State n) (h : ((lts hash).guard AboveHorizon).Reachable s) (readTs : Nat)
    (query : List LockResource) :
    (Agrees hash s readTs query ↔ EarliestMeets hash s readTs query) ∧
    ((∀ p ∈ s.registered, s.index.conflictHorizon < p.1 → readTs < p.1 → ∀ q ∈ query,
      p.2.conflictsWith q = true → ¬ Blind n p.2 q) → Agrees hash s readTs query) := by
  have hi := (inv_invariant hash).reachable h
  refine ⟨agrees_iff_earliestMeets hash hi readTs query, fun hb => ?_⟩
  rw [agrees_iff_earliestMeets hash hi]
  rintro p ⟨hr, hts, hh, q, hq, hc⟩
  exact ⟨p, ⟨hr, hts, hh, q, hq, hc⟩, le_rfl, q, hq, hc, meets_of_conflict hash hc (hb p hr hh hts q hq hc)⟩

/-- Three shards: databases, tables and tablets apart, key buckets in order. -/
def threeShards : ShardKey → Fin 3
  | .database _ => 0
  | .table _ _ => 1
  | .tablet _ _ _ => 2
  | .keyBucket _ _ _ b => ⟨b % 3, Nat.mod_lt _ (by decide)⟩
  | .rowBucket _ _ _ _ _ _ => 0
  | .resource _ => 1

def demoNs : LockNamespace := ⟨0, 1⟩

/-- A key and a later range over it, with the horizon in between. -/
theorem agrees_iff_key_range :
    ∃ s, ((lts threeShards).guard AboveHorizon).Reachable s ∧ s.registered.length = 2 ∧
      (Agrees threeShards s 0 [.primaryKey demoNs 10 20 7] ↔
        EarliestMeets threeShards s 0 [.primaryKey demoNs 10 20 7]) := by
  have hrun : ∃ s, ((lts threeShards).guard AboveHorizon).Reachable s ∧ s.registered.length = 2 :=
    LTS.reachable_of_exec_guard [.registerCommit 5 [.primaryKey demoNs 10 20 7], .advanceHorizon 5,
      .registerCommit 6 [.range demoNs 10 20 3 9]] (by decide)
  obtain ⟨s, hr, hl⟩ := hrun
  exact ⟨s, hr, hl, (agrees_iff threeShards s hr 0 _).1⟩

/-! ## Runs in which the index misses a conflict -/

variable {hash}

theorem not_agrees_of_missed {p : CommitTs × LockResource} (hm : Match s readTs query p)
    (hc : hasConflict hash s.index readTs query = false) : ¬ Agrees hash s readTs query := by
  intro h
  rw [h.1.2 ⟨p, hm⟩] at hc
  cases hc

/-- A run that ends with a missed match breaks the agreement. -/
theorem run_missed {ls : List Lbl} (p : CommitTs × LockResource)
    (h : (LTS.exec (step hash) .init ls).any (fun s => decide (Match s 0 query p ∧
      hasConflict hash s.index 0 query = false)) = true) :
    ∃ s, LTS.exec (step hash) .init ls = some s ∧ ¬ Agrees hash s 0 query := by
  obtain ⟨s, hs, hp⟩ := (any_eq_true _ _).1 h
  obtain ⟨hm, hc⟩ := of_decide_eq_true hp
  exact ⟨s, hs, not_agrees_of_missed hm hc⟩

/-- **Counterexample.** A committed table write is invisible to a query on its database, a
committed tablet write to a query on its table, and a committed range from hash 10 around to
hash 5 to a query on a key in its middle. -/
theorem scan_missed :
    (∃ s, LTS.exec (step threeShards) .init [.registerCommit 5 [.table demoNs 10]] = some s ∧
      ¬ Agrees threeShards s 0 [.database demoNs]) ∧
    (∃ s, LTS.exec (step threeShards) .init [.registerCommit 5 [.tablet demoNs 10 20]] = some s ∧
      ¬ Agrees threeShards s 0 [.table demoNs 10]) ∧
    (∃ s, LTS.exec (step threeShards) .init [.registerCommit 5 [.range demoNs 10 20 10 5]] = some s ∧
      ¬ Agrees threeShards s 0 [.primaryKey demoNs 10 20 0xC000000000000000]) :=
  ⟨run_missed (5, .table demoNs 10) (by decide), run_missed (5, .tablet demoNs 10 20) (by decide),
    run_missed (5, .range demoNs 10 20 10 5) (by decide)⟩

end Paro.L3.ConflictScan
