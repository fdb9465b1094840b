import Paro.L3Protocol.ArtScan

/-!
# A secondary index is an ordered multimap

Any sequence of insertions of distinct pairs into a non-unique index leaves a tree that holds exactly those pairs
(`insertAll_holds`), and every search returns exactly the row ids of the pairs whose key is in bounds, each once.

* `art_is_ordered_multimap`
-/
namespace Paro.L3.ArtIndex

open BytePath L1.ArtKey L2.Art List

structure Call (ty : LogicalType) where
  value : Value ty
  rowId : Nat
  mode : IndexAppendMode

def Call.key {ty : LogicalType} (c : Call ty) : Bytes := createKey ty c.value

def Call.row {ty : LogicalType} (c : Call ty) : Row := (c.key, c.rowId)

def insertAll {ty : LogicalType} (fuel : Nat) : ART → List (Call ty) → Option ART
  | art, [] => some art
  | art, c :: calls => do
    let (art, _) ← insertKey fuel art c.key c.rowId c.mode
    insertAll fuel art calls

structure Contains (art : ART) (rows : List Row) : Prop where
  notUnique : art.isUnique = false
  capacity : 2 ≤ art.prefixCount
  tree : (art.tree = .empty ∧ rows = []) ∨ ∃ d, Holds art.prefixCount d (.outer []) art.tree rows

section
variable {ty : LogicalType} {art : ART} {rows : List Row}

/-- Every insertion of a fresh row adds it. -/
theorem insertKey_contains (h : Contains art rows) (c : Call ty) (hr : RowId c.rowId)
    (hfresh : Fresh c.key c.rowId rows) :
    ∃ d art' rows', (∀ fuel, d ≤ fuel → insertKey fuel art c.key c.rowId c.mode = some (art', .noConflict)) ∧
      Contains art' rows' ∧ rows'.Perm (c.row :: rows) := by
  rcases h.tree with ⟨htree, rfl⟩ | ⟨d, hold⟩
  · have hleaf : Holds art.prefixCount 1 ((Place.outer []).push c.key) (.newLeaf c.rowId) [c.row] := by
      rw [newLeaf_eq hr]
      exact .leaf hr
    obtain ⟨d, hchain⟩ := createChain_holds (lt_of_lt_of_le Nat.zero_lt_two h.capacity) hleaf
    refine ⟨1, { art with tree := createChain art.prefixCount c.key (.newLeaf c.rowId) }, [c.row], ?_,
      ⟨h.notUnique, h.capacity, .inr ⟨d, hchain⟩⟩, List.Perm.refl _⟩
    refine succ_fuel (d := 0) fun fuel _ => ?_
    unfold insertKey
    rw [htree, insertRecursive]
    rfl
  · obtain ⟨m, hm, -, d', rows', hold', hperm⟩ :=
      insertRecursive_holds h.capacity hr hold (List.nil_prefix : ([] : Bytes) <+: c.key) hfresh
    refine ⟨d, { art with tree := m }, rows', fun fuel hfuel => ?_, ⟨h.notUnique, h.capacity, .inr ⟨d', hold'⟩⟩, hperm⟩
    have hrun : insertRecursive art.prefixCount false c.mode c.key c.rowId fuel art.tree 0 .notSet =
        some (m, .noConflict) := hm fuel hfuel
    unfold insertKey
    rw [h.notUnique, hrun]
    rfl

theorem insertAll_contains (calls : List (Call ty)) (h : Contains art rows)
    (hkeys : ∀ x ∈ rows, ∃ v : Value ty, x.1 = createKey ty v) (hrows : ∀ c ∈ calls, RowId c.rowId)
    (hdistinct : (rows ++ calls.map Call.row).Nodup) :
    ∃ N art' rows', (∀ fuel, N ≤ fuel → insertAll fuel art calls = some art') ∧ Contains art' rows' ∧
      rows'.Perm (rows ++ calls.map Call.row) := by
  induction calls generalizing art rows with
  | nil => exact ⟨0, art, rows, fun _ _ => rfl, h, by rw [map_nil, append_nil]⟩
  | cons c calls ih =>
    have hfresh : Fresh c.key c.rowId rows := by
      intro x hx
      obtain ⟨v, hv⟩ := hkeys x hx
      refine ⟨hv ▸ createKey_apart ty v c.value, fun heq => ?_⟩
      exact (nodup_append.1 hdistinct).2.2 x hx c.row mem_cons_self heq
    obtain ⟨d, art1, rows1, hstep, hart1, hperm⟩ :=
      insertKey_contains h c (hrows c mem_cons_self) hfresh
    have hmove : (rows1 ++ calls.map Call.row).Perm (rows ++ (c :: calls).map Call.row) := by
      refine (hperm.append_right _).trans ?_
      rw [map_cons, cons_append]
      exact perm_middle.symm
    have hkeys1 : ∀ x ∈ rows1, ∃ v : Value ty, x.1 = createKey ty v := by
      intro x hx
      rcases mem_cons.1 (hperm.mem_iff.1 hx) with rfl | hx
      · exact ⟨c.value, rfl⟩
      · exact hkeys x hx
    obtain ⟨N, art', rows', hrest, hart', hperm'⟩ := ih hart1 hkeys1
      (fun c' hc' => hrows c' (mem_cons_of_mem _ hc')) (hmove.nodup_iff.2 hdistinct)
    refine ⟨max d N, art', rows', fun fuel hfuel => ?_, hart', hperm'.trans hmove⟩
    unfold insertAll
    rw [hstep fuel (by omega)]
    exact hrest fuel (by omega)

end

/-! ## Lookup -/

section
variable {pc d fuel : Nat} {n c : Node} {rows : List Row} {key k bytes : Bytes}

theorem lookupPrefix_agree (bytes t : Bytes) : lookupPrefix bytes (bytes ++ t) = .agrees := by
  induction bytes with
  | nil => rfl
  | cons b bytes ih => rw [cons_append, lookupPrefix, if_neg (not_not.2 rfl), ih]

variable {y : UInt8}

theorem lookupPrefix_diff {q s t : Bytes} {x : UInt8} (hxy : x ≠ y) :
    lookupPrefix (q ++ x :: s) (q ++ y :: t) = .differs := by
  induction q with
  | nil => exact if_pos hxy
  | cons b q ih => rw [cons_append, cons_append, lookupPrefix, if_neg (not_not.2 rfl), ih]

/-- A node that ends the key and holds the rows of the key, if there is any. -/
def Found (pc d : Nat) (key : Bytes) (rows : List Row) : Option (Option Node) → Prop
  | none => False
  | some none => ∀ x ∈ rows, x.1 ≠ key
  | some (some m) => (m.isAnyLeaf = true ∨ m.getGateStatus = .set) ∧
      ∃ rows', Holds pc d (.outer key) m rows' ∧ rows'.Sublist rows ∧ ∀ x ∈ rows, x.1 = key → x ∈ rows'

theorem lookupInternal_chain (hlen : k.length < key.length) :
    lookupInternal key (fuel + 1) (.prefixNode .notSet bytes c) k.length =
      match lookupPrefix bytes (key.drop k.length) with
      | .keyEnds => some (some (.prefixNode .notSet bytes c))
      | .differs => some none
      | .agrees => lookupInternal key fuel c (k.length + bytes.length) := by
  rw [lookupInternal]
  cases lookupPrefix bytes (key.drop k.length) <;>
    simp [Node.hasMetadata, Node.isAnyLeaf, Node.getGateStatus, if_neg (not_le.2 hlen)]

theorem lookupInternal_node (hok : n.Ok) (hgate : n.getGateStatus = .notSet) (hlen : k.length < key.length)
    (hy : key[k.length]? = some y) :
    lookupInternal key (fuel + 1) n k.length =
      match n.getChild y with
      | some child => lookupInternal key fuel child (k.length + 1)
      | none => some none := by
  rw [lookupInternal, if_neg (by rw [hok.hasMetadata]; exact nofun),
    if_neg (by rw [hok.isAnyLeaf, hgate]; exact nofun), if_neg (not_le.2 hlen)]
  · cases hchild : n.getChild y <;> simp only [hy, hchild, Option.bind_eq_bind, Option.bind_some]
  · exact not_prefixNode hok

theorem Found.of_part {rows' : List Row} {result : Option (Option Node)} (h : Found pc d key rows result)
    (hsub : rows.Sublist rows') (hmem : ∀ x ∈ rows', x.1 = key → x ∈ rows) : Found pc (d + 1) key rows' result := by
  cases result with
  | none => exact h
  | some m =>
    cases m with
    | none => exact fun x hx heq => h x (hmem x hx heq) heq
    | some m =>
      obtain ⟨hend, found, hold, hfound, hall⟩ := h
      exact ⟨hend, found, hold.mono (Nat.le_succ d), hfound.trans hsub,
        fun x hx heq => hall x (hmem x hx heq) heq⟩

theorem lookupInternal_spec (h : Holds pc d (.outer k) n rows) (hkey : k <+: key)
    (hapart : ∀ x ∈ rows, Apart x.1 key) (hfuel : d ≤ fuel) :
    Found pc d key rows (lookupInternal key fuel n k.length) := by
  generalize hplace : Place.outer k = place at h
  induction h generalizing fuel k with
  | nestedLeaf | lastBytes => cases hplace
  | @leaf d k' r hr =>
    obtain rfl : k = k' := Place.outer.inj hplace
    obtain ⟨fuel, rfl⟩ := exists_succ hfuel
    obtain rfl : k = key := (hapart _ mem_cons_self).1 hkey
    exact ⟨.inl rfl, _, .leaf hr, List.Sublist.refl _, fun x hx _ => hx⟩
  | @gate d k' bytes child rows hne hcap hchild ih =>
    obtain rfl : k = k' := Place.outer.inj hplace
    obtain ⟨fuel, rfl⟩ := exists_succ hfuel
    obtain ⟨row, hrow⟩ := exists_mem_of_ne_nil _ hchild.ne_nil
    obtain rfl : k = key := by
      have := hapart row hrow
      rw [(hchild.row_below hrow).1] at this
      exact this.1 hkey
    exact ⟨.inr rfl, _, .gate hne hcap hchild, List.Sublist.refl _, fun x hx _ => hx⟩
  | @chain d place bytes child rows hne hcap hchild ih =>
    subst hplace
    obtain ⟨fuel, rfl⟩ := exists_succ hfuel
    have hdrop : ∀ t, key = k ++ t → key.drop k.length = t := fun t ht => by rw [ht, drop_left]
    rcases reads_cases (r := 0) hchild hkey hapart with ⟨t, ht⟩ | ⟨q, x, s, y, t, hb, ht, hxy⟩
    · have ht' : key = k ++ (bytes ++ t) := ht
      have hlen : k.length < key.length := by
        have := length_pos_iff.2 hne
        rw [ht', length_append, length_append]
        omega
      rw [lookupInternal_chain hlen, hdrop _ ht', lookupPrefix_agree]
      have hpre : k ++ bytes <+: key := by
        rw [ht', ← append_assoc]
        exact prefix_append _ _
      have hrec := ih hpre hapart (show d ≤ fuel by omega) rfl
      rw [length_append] at hrec
      exact hrec.of_part (List.Sublist.refl _) fun x hx _ => hx
    · have ht' : key = k ++ (q ++ y :: t) := ht
      have hlen : k.length < key.length := by
        rw [ht', length_append, length_append, length_cons]
        omega
      rw [lookupInternal_chain hlen, hdrop _ ht', hb, lookupPrefix_diff hxy]
      intro row hrow heq
      have hp : k ++ bytes <+: row.1 := hchild.row_below hrow
      rw [heq, ht', hb, prefix_append_right_inj, prefix_append_right_inj, cons_prefix_cons] at hp
      exact hxy hp.1
  | @node d place n part hok hgate hchild hnone hsome ih =>
    subst hplace
    obtain ⟨fuel, rfl⟩ := exists_succ hfuel
    obtain ⟨y, t, ht⟩ := reads_byte (r := 0) (.node hok hgate hchild hnone hsome) hok hkey hapart
    have hkey' : key = k ++ y :: t := ht
    have hlen : k.length < key.length := by
      rw [hkey', length_append, length_cons]
      omega
    rw [lookupInternal_node hok hgate hlen (getElem?_rest hkey')]
    -- only the rows below the key's own byte can have the key
    have honly : ∀ x ∈ (bytesFrom 0).flatMap part, x.1 = key → x ∈ part y := by
      intro x hx heq
      obtain ⟨b, hb⟩ := mem_flatMap_bytes.1 hx
      obtain ⟨c, hc⟩ := Holds.exists_child hnone hb
      have hp : k ++ [b] <+: x.1 := (hchild b c hc).row_below hb
      rw [heq, hkey', prefix_append_right_inj, cons_prefix_cons] at hp
      rwa [← hp.1]
    cases hc : n.getChild y with
    | none =>
      intro x hx heq
      have := honly x hx heq
      rw [hnone y hc] at this
      cases this
    | some c =>
      have hpre : k ++ [y] <+: key := by
        rw [hkey']
        exact ⟨t, by simp⟩
      have hrec := ih y c hc hpre (fun x hx => hapart x (mem_flatMap_bytes.2 ⟨y, hx⟩)) (show d ≤ fuel by omega) rfl
      rw [length_append, length_singleton] at hrec
      refine hrec.of_part ?_ honly
      obtain ⟨l, hl, -⟩ := bytesFrom_split (Nat.zero_le y.toNat)
      rw [hl, flatMap_append, flatMap_cons]
      exact (sublist_append_left _ _).trans (sublist_append_right _ _)

end

/-! ## Searches -/

section
variable {ty : LogicalType} {art : ART} {rows : List Row} {key lo hi : Bytes} {maxCount : Nat} {equal : Bool}

/-- The search ends within `max_count` and returns the ids of the rows whose key satisfies `P`, each once. -/
def Returns (result : Option (Bool × List Nat)) (rows : List Row) (P : Bytes → Prop) : Prop :=
  ∃ ids, result = some (true, ids) ∧ ids.Nodup ∧ ∀ r, r ∈ ids ↔ ∃ x ∈ rows, P x.1 ∧ x.2 = r

variable {P : Bytes → Prop} {pc : Nat}

theorem Returns.none (h : ∀ x ∈ rows, ¬ P x.1) : Returns (some (true, [])) rows P :=
  ⟨[], rfl, nodup_nil, fun _ => ⟨nofun, fun ⟨x, hx, hp, _⟩ => absurd hp (h x hx)⟩⟩

theorem nodup_of_sorted_ids {ids : List Nat} (h : SortedList.Sorted id ids) : ids.Nodup :=
  List.Pairwise.imp (fun hlt => ne_of_lt hlt) h

theorem At.new : At Iterator.new (.outer []) := ⟨rfl, rfl, rfl, rfl, rfl⟩

/-- A scan from a leaf reached by a walk from the root. -/
theorem scan_returns {D fuel : Nat} {it : Iterator} {upper : Option Bytes}
    (hon : OnLeaf pc D (.outer []) it rows) (hsorted : rows.Pairwise fun x y => x.1 ≤ y.1)
    (hapart : ∀ b, upper = some b → ∀ x ∈ rows, Apart x.1 b) (hmax : rows.length ≤ maxCount)
    (hfuel : rows.length < fuel) (hwalk : D ≤ fuel) :
    Returns (it.scan upper maxCount equal fuel fuel []) rows (Within upper equal) := by
  obtain ⟨place, here, rest, hrows, hleaf⟩ := hon
  have hcheck : Checked upper equal it place := by
    have hentered := hleaf.entered
    cases place with
    | outer k => exact .inl (.inl hleaf.reads.status)
    | nested k p => exact .inl (.inr (hentered.resolve_right fun ⟨_, hq⟩ => by cases hq))
  obtain ⟨ids, hscan, hs, hmem⟩ := scan_spec hsorted hapart List.Pairwise.nil
    (show [].length + rows.length ≤ maxCount by rwa [length_nil, zero_add]) hfuel hwalk hrows hleaf hcheck
  exact ⟨ids, hscan, nodup_of_sorted_ids hs, fun r => (hmem r).trans (or_iff_right not_mem_nil)⟩

theorem Returns.of_part {rows' : List Row} {result : Option (Bool × List Nat)} {Q : Bytes → Prop}
    (h : Returns result rows' P) (hiff : ∀ r, (∃ x ∈ rows', P x.1 ∧ x.2 = r) ↔ ∃ x ∈ rows, Q x.1 ∧ x.2 = r) :
    Returns result rows Q := by
  obtain ⟨ids, hres, hnodup, hmem⟩ := h
  exact ⟨ids, hres, hnodup, fun r => (hmem r).trans (hiff r)⟩

/-- The rows of a node that ends a key, read from a fresh iterator. -/
theorem Holds.reroot {m : Node} {d : Nat} (h : Holds pc d (.outer key) m rows)
    (hend : m.isAnyLeaf = true ∨ m.getGateStatus = .set) :
    Holds pc d (.outer []) m (rows.map fun x => ([], x.2)) ∧ ∀ x ∈ rows, x.1 = key := by
  cases h with
  | leaf hr => exact ⟨.leaf hr, fun x hx => by rw [mem_singleton.1 hx]⟩
  | gate hne hcap hchild => exact ⟨.gate hne hcap hchild.rekey, fun x hx => (hchild.row_below hx).1⟩
  | chain => rcases hend with h | h <;> cases h
  | node hok hgate =>
    rw [hok.isAnyLeaf, hgate] at hend
    rcases hend with h | h <;> cases h

variable {d fuel : Nat} (h : Holds art.prefixCount d (.outer []) art.tree rows) (hapart : ∀ x ∈ rows, Apart x.1 key)
  (hmax : rows.length ≤ maxCount) (hfuel : d + d + rows.length < fuel)
include h hapart hmax hfuel

theorem searchLess_returns : Returns (searchLess fuel art key equal maxCount) rows (Within (some key) equal) := by
  obtain ⟨it, hit, hon, -⟩ := findMinimum_spec h At.new .root (show d ≤ fuel by omega) (le_refl d)
  rw [append_nil] at hon
  unfold searchLess
  rw [if_neg (by rw [h.hasMetadata]; exact nofun), hit]
  exact scan_returns hon h.sorted (fun b hb x hx => Option.some.inj hb ▸ hapart x hx) hmax (by omega) (by omega)

/-- Both searches from a lower bound: the rows from it on, up to an upper bound. -/
theorem fromLower_returns {upper : Option Bytes} {equal' : Bool}
    (hupper : ∀ b, upper = some b → ∀ x ∈ rows, Apart x.1 b) :
    Returns (do
      let (found, it) ← Iterator.lowerBound key equal fuel Iterator.new art.tree 0
      if found = false then some (true, []) else it.scan upper maxCount equal' fuel fuel [])
      rows fun k => Above key equal k ∧ Within upper equal' k := by
  obtain ⟨found, it, hlow, hspec⟩ : NextSpec art.prefixCount d (.outer []) (rowsAbove key equal rows ++ [])
      (Iterator.lowerBound key equal fuel Iterator.new art.tree 0) :=
    lowerBound_spec h At.new .root nil_prefix hapart (show d + d ≤ fuel by omega) (le_refl d)
  rw [append_nil] at hspec
  rw [hlow]
  have hpart : ∀ r, (∃ x ∈ rowsAbove key equal rows, Within upper equal' x.1 ∧ x.2 = r) ↔
      ∃ x ∈ rows, (Above key equal x.1 ∧ Within upper equal' x.1) ∧ x.2 = r := by
    intro r
    constructor
    · intro ⟨x, hx, hw, hr⟩
      obtain ⟨hx, ha⟩ := mem_filter.1 hx
      exact ⟨x, hx, ⟨of_decide_eq_true ha, hw⟩, hr⟩
    · intro ⟨x, hx, ⟨ha, hw⟩, hr⟩
      exact ⟨x, mem_filter.2 ⟨hx, decide_eq_true ha⟩, hw, hr⟩
  cases found with
  | false =>
    have hnil : rowsAbove key equal rows = [] := hspec
    refine Returns.none fun x hx ⟨ha, _⟩ => ?_
    have hmem : x ∈ rowsAbove key equal rows := mem_filter.2 ⟨hx, decide_eq_true ha⟩
    rw [hnil] at hmem
    cases hmem
  | true =>
    have hsub : (rowsAbove key equal rows).Sublist rows := filter_sublist
    have hlen := hsub.length_le
    refine Returns.of_part ?_ hpart
    exact scan_returns hspec (h.sorted.sublist hsub) (fun b hb x hx => hupper b hb x (hsub.subset hx)) (by omega)
      (by omega) (by omega)

theorem searchGreater_returns : Returns (searchGreater fuel art key equal maxCount) rows (Above key equal) := by
  unfold searchGreater
  rw [if_neg (by rw [h.hasMetadata]; exact nofun)]
  have hscan := @fromLower_returns art rows key maxCount equal d fuel h hapart hmax hfuel none false nofun
  refine hscan.of_part fun r => ?_
  simp [Within]

theorem searchCloseRange_returns (hhi : ∀ x ∈ rows, Apart x.1 hi) :
    Returns (searchCloseRange fuel art key hi maxCount) rows fun k => key ≤ k ∧ k ≤ hi := by
  unfold searchCloseRange
  rw [if_neg (by rw [h.hasMetadata]; exact nofun)]
  exact fromLower_returns h hapart hmax hfuel fun b hb x hx => Option.some.inj hb ▸ hhi x hx

theorem searchEqual_returns : Returns (searchEqual fuel art key maxCount) rows (· = key) := by
  have hfound : Found art.prefixCount d key rows (lookup fuel art key) :=
    lookupInternal_spec h nil_prefix hapart (show d ≤ fuel by omega)
  unfold searchEqual
  rw [if_neg (by rw [h.hasMetadata]; exact nofun)]
  cases hres : lookup fuel art key with
  | none =>
    rw [hres] at hfound
    exact hfound.elim
  | some m =>
    rw [hres] at hfound
    cases m with
    | none => exact Returns.none hfound
    | some m =>
      obtain ⟨hend, rows', hold, hsub, hall⟩ := hfound
      obtain ⟨hroot, hkey⟩ := hold.reroot hend
      have hlen := hsub.length_le
      obtain ⟨it, hit, hon, -⟩ := findMinimum_spec hroot At.new .root (show d ≤ fuel by omega) (le_refl d)
      rw [append_nil] at hon
      have hscan : Returns (it.scan none maxCount false fuel fuel []) (rows'.map fun x => ([], x.2))
          (Within none false) :=
        scan_returns hon hroot.sorted nofun (by rw [length_map]; omega) (by rw [length_map]; omega)
          (show d ≤ fuel by omega)
      have hcollect : collectRowIds fuel m maxCount = it.scan none maxCount false fuel fuel [] := by
        unfold collectRowIds
        rw [if_neg (by rw [hold.hasMetadata]; exact nofun), hit]
        rfl
      show Returns (collectRowIds fuel m maxCount) rows (· = key)
      rw [hcollect]
      refine hscan.of_part fun r => ⟨fun ⟨x, hx, _, hr⟩ => ?_, fun ⟨x, hx, heq, hr⟩ => ?_⟩
      · obtain ⟨x', hx', rfl⟩ := mem_map.1 hx
        exact ⟨x', hsub.subset hx', hkey x' hx', hr⟩
      · exact ⟨([], x.2), mem_map.2 ⟨x, hall x hx heq, rfl⟩, trivial, hr⟩

end

/-- A non-unique index is an ordered multimap: after any sequence of insertions of distinct pairs every search
returns exactly the row ids of the pairs in bounds, each once. -/
theorem art_is_ordered_multimap (ty : LogicalType) (calls : List (Call ty)) (hrows : ∀ c ∈ calls, RowId c.rowId)
    (hdistinct : (calls.map Call.row).Nodup) :
    ∃ N art, (∀ fuel, N ≤ fuel → insertAll fuel (ART.new false ty) calls = some art) ∧
      ∀ fuel maxCount, N ≤ fuel → calls.length ≤ maxCount → ∀ (lo hi : Value ty) (equal : Bool),
        Returns (searchEqual fuel art (createKey ty lo) maxCount) (calls.map Call.row) (· = createKey ty lo) ∧
        Returns (searchGreater fuel art (createKey ty lo) equal maxCount) (calls.map Call.row)
          (fun k => if equal then createKey ty lo ≤ k else createKey ty lo < k) ∧
        Returns (searchLess fuel art (createKey ty hi) equal maxCount) (calls.map Call.row)
          (fun k => if equal then k ≤ createKey ty hi else k < createKey ty hi) ∧
        Returns (searchCloseRange fuel art (createKey ty lo) (createKey ty hi) maxCount) (calls.map Call.row)
          (fun k => createKey ty lo ≤ k ∧ k ≤ createKey ty hi) := by
  have hnew : Contains (ART.new false ty) [] := by
    refine ⟨rfl, ?_, .inl ⟨rfl, rfl⟩⟩
    show 2 ≤ calculatePrefixCount ty
    rw [calculatePrefixCount_eq]
    decide
  obtain ⟨N, art, rows, hrun, hart, hperm⟩ := insertAll_contains calls hnew nofun hrows hdistinct
  rw [nil_append] at hperm
  have hlen : rows.length = calls.length := hperm.length_eq.trans (length_map _)
  have hkeys : ∀ v : Value ty, ∀ x ∈ rows, Apart x.1 (createKey ty v) := by
    intro v x hx
    obtain ⟨c, -, rfl⟩ := mem_map.1 (hperm.mem_iff.1 hx)
    exact createKey_apart ty c.value v
  have hreturn : ∀ {result : Option (Bool × List Nat)} {P : Bytes → Prop}, Returns result rows P →
      Returns result (calls.map Call.row) P := fun h => h.of_part fun r => by simp only [hperm.mem_iff]
  rcases hart.tree with ⟨hempty, hnil⟩ | ⟨d, hold⟩
  · have hcalls : calls = [] := by
      rw [hnil, length_nil] at hlen
      exact length_eq_zero_iff.1 hlen.symm
    subst hcalls
    refine ⟨N, art, hrun, fun fuel maxCount _ _ lo hi equal => ?_⟩
    unfold searchEqual searchGreater searchLess searchCloseRange
    rw [if_pos (by rw [hempty]; rfl), if_pos (by rw [hempty]; rfl), if_pos (by rw [hempty]; rfl),
      if_pos (by rw [hempty]; rfl)]
    exact ⟨.none nofun, .none nofun, .none nofun, .none nofun⟩
  · refine ⟨max N (d + d + rows.length + 1), art, fun fuel hfuel => hrun fuel (by omega),
      fun fuel maxCount hfuel hmax lo hi equal => ?_⟩
    have hf : d + d + rows.length < fuel := by omega
    have hm : rows.length ≤ maxCount := by omega
    exact ⟨hreturn (searchEqual_returns hold (hkeys lo) hm hf), hreturn (searchGreater_returns hold (hkeys lo) hm hf),
      hreturn (searchLess_returns hold (hkeys hi) hm hf),
      hreturn (searchCloseRange_returns hold (hkeys lo) hm hf (hkeys hi))⟩

def integerCall (value : BitVec 32) (rowId : Nat) : Call .integer := ⟨value, rowId, .default⟩

/-- Two rows of one key and one of another. -/
theorem art_multimap_duplicates :
    ∃ N art, (∀ fuel, N ≤ fuel → insertAll fuel (ART.new false .integer)
        [integerCall 7 3, integerCall 7 300, integerCall 9 3] = some art) ∧
      ∀ fuel maxCount, N ≤ fuel → 3 ≤ maxCount →
        Returns (searchEqual fuel art (integerCall 7 0).key maxCount)
          [(integerCall 7 3).row, (integerCall 7 300).row, (integerCall 9 3).row] (· = (integerCall 7 0).key) := by
  obtain ⟨N, art, hrun, hsearch⟩ := art_is_ordered_multimap .integer
    [integerCall 7 3, integerCall 7 300, integerCall 9 3] (by decide) (by decide)
  exact ⟨N, art, hrun, fun fuel maxCount hfuel hmax =>
    (hsearch fuel maxCount hfuel hmax (integerCall 7 0).value (integerCall 7 0).value true).1⟩

end Paro.L3.ArtIndex
