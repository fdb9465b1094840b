import Paro.L2Machine.ArtTree

/-!
# What a radix tree holds

`Holds` relates a node to the list of its rows, pairs of a key and a row id, in key order. Outside a gate the path
to a node spells key bytes; behind one it spells row-id bytes of a single key. The relation carries everything the
walks rely on: no cleared child, no empty prefix, gates only on prefixes, row ids below their path. Its index
bounds the height, so enough fuel is a bound on it.
-/
namespace Paro.L3.ArtIndex

open BytePath L1.ArtKey L2.Art List Node Option

abbrev Row := Bytes × Nat

/-- Where a node hangs: below the key bytes `key`, or behind the gate of `key` below the row-id bytes `path`. -/
inductive Place where
  | outer (key : Bytes)
  | nested (key path : Bytes)

namespace Place

def push : Place → Bytes → Place
  | outer k, bs => outer (k ++ bs)
  | nested k p, bs => nested k (p ++ bs)

def path : Place → Bytes
  | outer k => k
  | nested _ p => p

def status : Place → GateStatus
  | outer _ => .notSet
  | nested .. => .set

def active (key : Bytes) (r : Nat) : Place → Bytes
  | outer _ => key
  | nested .. => fromRowId r

/-- The way to this place is the way of the row. -/
def Reads (key : Bytes) (r : Nat) : Place → Prop
  | outer k => k <+: key
  | nested k p => k = key ∧ p <+: fromRowId r

variable (place : Place)

@[simp] theorem push_nil : place.push [] = place := by
  cases place <;> simp [push]

theorem push_push (a b : Bytes) : (place.push a).push b = place.push (a ++ b) := by
  cases place <;> simp [push]

@[simp] theorem path_push (a : Bytes) : (place.push a).path = place.path ++ a := by
  cases place <;> rfl

@[simp] theorem status_push (a : Bytes) : (place.push a).status = place.status := by
  cases place <;> rfl

@[simp] theorem active_push (a key : Bytes) (r : Nat) : (place.push a).active key r = place.active key r := by
  cases place <;> rfl

variable {place} {key bs : Bytes} {r : Nat}

theorem Reads.exists_rest (h : place.Reads key r) : ∃ rest, place.active key r = place.path ++ rest := by
  cases place with
  | outer k => exact ⟨_, (prefix_iff_eq_append.1 h).symm⟩
  | nested k p => exact ⟨_, (prefix_iff_eq_append.1 h.2).symm⟩

theorem Reads.push (h : place.Reads key r) {rest : Bytes} (heq : place.active key r = place.path ++ (bs ++ rest)) :
    (place.push bs).Reads key r := by
  have hpre : place.path ++ bs <+: place.active key r := by
    rw [heq, ← append_assoc]
    exact prefix_append _ _
  cases place with
  | outer k => exact hpre
  | nested k p => exact ⟨h.1, hpre⟩

end Place

inductive Holds (pc : Nat) : Nat → Place → Node → List Row → Prop where
  | leaf {d k r} (hr : RowId r) : Holds pc (d + 1) (.outer k) (.leafInlined r) [(k, r)]
  | nestedLeaf {d k p r} (hr : RowId r) (hp : p <+: fromRowId r) (hlen : p.length ≤ 7) :
      Holds pc (d + 1) (.nested k p) (.leafInlined r) [(k, r)]
  | chain {d place bytes child rows} (hne : bytes ≠ []) (hcap : bytes.length ≤ pc)
      (hchild : Holds pc d (place.push bytes) child rows) :
      Holds pc (d + 1) place (.prefixNode .notSet bytes child) rows
  | gate {d k bytes child rows} (hne : bytes ≠ []) (hcap : bytes.length ≤ pc)
      (hchild : Holds pc d (.nested k bytes) child rows) :
      Holds pc (d + 1) (.outer k) (.prefixNode .set bytes child) rows
  | node {d place n part} (hok : n.Ok) (hgate : n.getGateStatus = .notSet)
      (hchild : ∀ b c, n.getChild b = some c → Holds pc d (place.push [b]) c (part b))
      (hnone : ∀ b, n.getChild b = none → part b = []) (hsome : ∃ b c, n.getChild b = some c) :
      Holds pc (d + 1) place n ((bytesFrom 0).flatMap part)
  | lastBytes {d k p n} (hok : n.LeafOk) (hgate : n.getGateStatus = .notSet) (hlen : p.length = 7)
      (hrows : ∀ b ∈ n.leafBytes, ∃ r, RowId r ∧ fromRowId r = p ++ [b]) (hne : n.leafBytes ≠ []) :
      Holds pc (d + 1) (.nested k p) n (n.leafBytes.map fun b => (k, getRowId (p ++ [b])))

open Place

namespace Holds

variable {pc d d' : Nat} {place : Place} {n : Node} {rows : List Row} {k p : Bytes}

section
variable (h : Holds pc d place n rows)
include h

theorem succ : Holds pc (d + 1) place n rows := by
  induction h with
  | leaf hr => exact leaf hr
  | nestedLeaf hr hp hlen => exact nestedLeaf hr hp hlen
  | chain hne hcap _ ih => exact chain hne hcap ih
  | gate hne hcap _ ih => exact gate hne hcap ih
  | node hok hgate _ hnone hsome ih => exact node hok hgate ih hnone hsome
  | lastBytes hok hgate hlen hrows hne => exact lastBytes hok hgate hlen hrows hne

theorem mono (hd : d ≤ d') : Holds pc d' place n rows := by
  induction hd with
  | refl => exact h
  | step _ ih => exact ih.succ

theorem hasMetadata : n.hasMetadata = true := by
  cases h with
  | leaf | nestedLeaf | chain | gate => rfl
  | node hok | lastBytes hok => exact hok.hasMetadata

theorem ne_nil : rows ≠ [] := by
  induction h with
  | leaf | nestedLeaf => exact cons_ne_nil _ _
  | chain _ _ _ ih | gate _ _ _ ih => exact ih
  | node _ _ _ _ hsome ih =>
    obtain ⟨b, c, hc⟩ := hsome
    obtain ⟨x, hx⟩ := exists_mem_of_ne_nil _ (ih b c hc)
    exact ne_nil_of_mem (mem_flatMap_bytes.2 ⟨b, hx⟩)
  | lastBytes _ _ _ _ hne => rwa [ne_eq, map_eq_nil_iff]

end

/-- What a row below a place has in common with it. -/
def Below : Place → Row → Prop
  | .outer k, x => k <+: x.1
  | .nested k p, x => x.1 = k ∧ RowId x.2 ∧ p <+: fromRowId x.2

theorem Below.of_push {bs : Bytes} {x : Row} (h : Below (place.push bs) x) : Below place x := by
  cases place with
  | outer k => exact (prefix_append k bs).trans h
  | nested k p => exact ⟨h.1, h.2.1, (prefix_append p bs).trans h.2.2⟩

theorem exists_child {part : UInt8 → List Row} {b : UInt8} {x : Row} (hnone : ∀ b, n.getChild b = none → part b = [])
    (hx : x ∈ part b) : ∃ c, n.getChild b = some c := by
  refine ne_none_iff_exists'.1 fun hc => ?_
  rw [hnone b hc] at hx
  cases hx

theorem row_below (h : Holds pc d place n rows) {x : Row} (hx : x ∈ rows) : Below place x := by
  induction h with
  | leaf =>
    rw [mem_singleton.1 hx]
    exact prefix_rfl
  | nestedLeaf hr hp _ =>
    rw [mem_singleton.1 hx]
    exact ⟨rfl, hr, hp⟩
  | chain _ _ _ ih => exact (ih hx).of_push
  | gate _ _ _ ih =>
    rw [← (ih hx).1]
    exact prefix_rfl
  | node _ _ _ hnone _ ih =>
    obtain ⟨b, hb⟩ := mem_flatMap_bytes.1 hx
    obtain ⟨c, hc⟩ := exists_child hnone hb
    exact (ih b c hc hb).of_push
  | lastBytes _ _ _ hrows _ =>
    obtain ⟨b, hb, rfl⟩ := mem_map.1 hx
    obtain ⟨r, hr, heq⟩ := hrows b hb
    refine ⟨rfl, ?_⟩
    rw [← heq, getRowId_fromRowId hr, heq]
    exact ⟨hr, prefix_append _ _⟩

theorem path_le (h : Holds pc d (.nested k p) n rows) : p.length ≤ 7 := by
  generalize hplace : nested k p = place at h
  induction h generalizing p with
  | leaf | gate => cases hplace
  | nestedLeaf _ _ hlen =>
    cases hplace
    exact hlen
  | chain _ _ _ ih =>
    subst hplace
    have := ih rfl
    rw [length_append] at this
    omega
  | node _ _ _ _ hsome ih =>
    subst hplace
    obtain ⟨b, c, hc⟩ := hsome
    have := ih b c hc rfl
    rw [length_append] at this
    omega
  | lastBytes _ _ hlen =>
    cases hplace
    exact le_of_eq hlen

theorem nested_le {b : UInt8} (h : Holds pc d (place.push [b]) n rows) (hplace : place = .nested k p) :
    p.length ≤ 6 := by
  rw [hplace] at h
  have hle := h.path_le
  rw [length_append, length_singleton] at hle
  omega

end Holds

/-! ## Chains and branches -/

section
variable {pc d d' : Nat} {place : Place} {n m c : Node} {rows rows' : List Row} {part : UInt8 → List Row}
  {x y : UInt8} {row : Row}

/-- `n` holds the rows and one more. -/
def Adds (pc : Nat) (place : Place) (n : Node) (row : Row) (rows : List Row) : Prop :=
  ∃ d rows', Holds pc d place n rows' ∧ rows'.Perm (row :: rows)

variable {bytes : Bytes}

theorem createChainLoop_holds (hpc : 0 < pc) {fuel : Nat} (hfuel : bytes.length ≤ fuel)
    (h : Holds pc d (place.push bytes) n rows) : ∃ d', Holds pc d' place (createChainLoop pc n fuel bytes) rows := by
  induction fuel generalizing bytes place with
  | zero =>
    rw [length_eq_zero_iff.1 (Nat.le_zero.1 hfuel), push_nil] at h
    exact ⟨d, h⟩
  | succ fuel ih =>
    unfold createChainLoop
    split
    · rename_i hnil
      rw [hnil, push_nil] at h
      exact ⟨d, h⟩
    rename_i hne
    have hsplit : (place.push (bytes.take pc)).push (bytes.drop pc) = place.push bytes := by
      rw [push_push, take_append_drop]
    obtain ⟨d', h'⟩ := ih (by rw [length_drop]; omega) (hsplit.symm ▸ h)
    exact ⟨d' + 1, .chain (mt take_eq_nil_iff.1 (not_or.2 ⟨hpc.ne', hne⟩)) (by rw [length_take]; omega) h'⟩

theorem createChain_holds (hpc : 0 < pc) (h : Holds pc d (place.push bytes) n rows) :
    ∃ d', Holds pc d' place (createChain pc bytes n) rows :=
  createChainLoop_holds hpc le_rfl h

theorem collectChain_stop (h : ∀ bytes child, n ≠ .prefixNode .notSet bytes child) : collectChain n = ([], n) := by
  unfold collectChain
  split
  · rename_i bytes child
    exact absurd rfl (h bytes child)
  · rfl

/-- The bytes of a chain and the node behind it hold what the chain held. -/
theorem collectChain_holds (h : Holds pc d place n rows) :
    ∃ d', Holds pc d' (place.push (collectChain n).1) (collectChain n).2 rows := by
  have hstop : (∀ bytes child, n ≠ .prefixNode .notSet bytes child) →
      ∃ d', Holds pc d' (place.push (collectChain n).1) (collectChain n).2 rows := by
    intro hn
    rw [collectChain_stop hn, push_nil]
    exact ⟨d, h⟩
  induction h with
  | leaf | nestedLeaf | gate => exact hstop nofun
  | chain hne hcap hchild ih =>
    obtain ⟨d', h'⟩ : ∃ d', Holds pc d' _ _ _ := ih fun hn => ⟨_, by rwa [collectChain_stop hn, push_nil]⟩
    rw [push_push] at h'
    exact ⟨d', h'⟩
  | node hok | lastBytes hok => exact hstop fun bytes child heq => by rw [heq] at hok; exact hok

structure Branches (pc d : Nat) (place : Place) (n : Node) (part : UInt8 → List Row) : Prop where
  ok : n.Ok
  gate : n.getGateStatus = .notSet
  child : ∀ b c, n.getChild b = some c → Holds pc d (place.push [b]) c (part b)
  absent : ∀ b, n.getChild b = none → part b = []

/-- A node whose child at one byte is new or replaced holds the new part there. -/
theorem Branches.put (h : Branches pc d place n part) (hm : Node.Inserted n y c m)
    (hc : Holds pc d' (place.push [y]) c rows') :
    Holds pc (max d d' + 1) place m ((bytesFrom 0).flatMap fun b => if b = y then rows' else part b) := by
  refine .node hm.ok (hm.gate.trans h.gate) (fun b c' hb => ?_) (fun b hb => ?_) ⟨y, c, ?_⟩
  · rw [hm.getChild] at hb
    split at hb
    · rename_i hby
      rw [if_pos hby, hby, ← Option.some.inj hb]
      exact hc.mono (le_max_right _ _)
    · rename_i hby
      rw [if_neg hby]
      exact (h.child b c' hb).mono (le_max_left _ _)
  · rw [hm.getChild] at hb
    split at hb
    · cases hb
    · rename_i hby
      rw [if_neg hby]
      exact h.absent b hb
  · rw [hm.getChild, if_pos rfl]

theorem Branches.put_adds (h : Branches pc d place n part) (hm : Node.Inserted n y c m)
    (hc : Adds pc (place.push [y]) c row (part y)) : Adds pc place m row ((bytesFrom 0).flatMap part) := by
  obtain ⟨d', rows', hold, hperm⟩ := hc
  refine ⟨_, _, h.put hm hold, perm_flatMap_bytes ?_ fun b hb => if_neg hb⟩
  rw [if_pos rfl]
  exact hperm

/-- A `Node4` with one child. -/
theorem branches_single (hc : Holds pc d (place.push [x]) c rows) :
    Branches pc d place (.node4 .notSet [(x, c)]) fun b => if b = x then rows else [] := by
  have hentries : Node.Entries [(x, c)] :=
    ⟨pairwise_singleton _ _, fun e he => mem_singleton.1 he ▸ hc.hasMetadata⟩
  refine ⟨⟨hentries, by simp⟩, rfl, fun b c' hb => ?_, fun b hb => ?_⟩
  · have hmem := mem_singleton.1 (hentries.entryChild_eq_some.1 hb)
    rw [Prod.mk.injEq] at hmem
    rw [if_pos hmem.1, hmem.1, hmem.2]
    exact hc
  · exact if_neg fun hbx => hentries.entryChild_eq_none.1 hb (x, c) mem_cons_self hbx.symm

theorem flatMap_single (x : UInt8) (rows : List Row) :
    ((bytesFrom 0).flatMap fun b => if b = x then rows else []) = rows := by
  rw [flatMap_bytesFrom_next (Nat.zero_le x.toNat) fun c _ hlt => if_neg (ne_of_lt hlt), if_pos rfl,
    flatMap_bytesFrom_nil fun c hc => if_neg fun heq => ?_, append_nil]
  rw [heq] at hc
  omega

theorem getChild_single (hxy : x ≠ y) : (node4 .notSet [(x, c)]).getChild y = none := by
  show (find? _ [(x, c)]).bind _ = none
  rw [find?_cons_of_neg (by simpa using hxy)]
  rfl

end

/-! ## Insertion -/

section
variable {pc d : Nat} {place : Place} {n c : Node} {rows : List Row} {key k p : Bytes} {r old : Nat}
  {part : UInt8 → List Row} {mode : IndexAppendMode} {fuel depth : Nat} {status : GateStatus}

theorem newLeaf_eq (hr : RowId r) : newLeaf r = .leafInlined r := by
  unfold newLeaf
  rw [Nat.mod_eq_of_lt]
  unfold RowId at hr
  omega

variable {q t s bytes : Bytes} {y x : UInt8} {a q s t : Bytes} {x y : UInt8} {g : GateStatus}

theorem getElem?_rest (h : a = q ++ y :: t) : a[q.length]? = some y := by
  rw [h, List.getElem?_append_right le_rfl, Nat.sub_self]
  rfl

theorem drop_rest (h : a = q ++ y :: t) : a.drop (q.length + 1) = t := by
  rw [h, drop_append, Nat.add_sub_cancel_left, drop_eq_nil_of_le (Nat.le_succ _)]
  rfl

theorem length_rest (h : a = q ++ y :: t) : a.length = q.length + 1 + t.length := by
  rw [h, length_append, length_cons]
  omega

theorem nestedLeaf_holds (hr : RowId r) (h : fromRowId r = q ++ x :: s)
    (hlen : q.length ≤ 6) : Holds pc 1 ((nested k q).push [x]) (.newLeaf r) [(k, r)] := by
  rw [newLeaf_eq hr]
  refine .nestedLeaf hr ?_ ?_
  · rw [h]
    exact ⟨s, by simp⟩
  · rw [length_append, length_singleton]
    omega

/-- A new row below an internal node that has no child for its byte. -/
theorem insertIntoNode_adds (hpc : 0 < pc) (h : Branches pc d place n part) (hr : RowId r)
    (hreads : place.Reads key r) (hrest : place.active key r = place.path ++ y :: t)
    (hfree : n.getChild y = none) (hnested : ∀ k p, place = .nested k p → p.length ≤ 6) :
    ∃ m, insertIntoNode pc n key r place.path.length place.status = some m ∧
      m.getGateStatus = .notSet ∧ Adds pc place m (key, r) ((bytesFrom 0).flatMap part) := by
  have hbyte := getElem?_rest hrest
  have hpart := h.absent y hfree
  cases place with
  | outer k =>
    have hkey : ((outer k).push [y]).push t = .outer key := by
      show outer (k ++ [y] ++ t) = .outer key
      rw [append_assoc]
      exact congrArg outer hrest.symm
    have hleaf : Holds pc 1 (((outer k).push [y]).push t) (.newLeaf r) [(key, r)] := by
      rw [hkey, newLeaf_eq hr]
      exact .leaf hr
    obtain ⟨d', hc⟩ := createChain_holds hpc hleaf
    obtain ⟨m, hm, hins⟩ := insertChild_spec h.ok hfree hc.hasMetadata
    refine ⟨m, ?_, hins.gate.trans h.gate, h.put_adds hins ⟨d', _, hc, by rw [hpart]⟩⟩
    show (do let byte ← key[k.length]?; n.insertChild byte (createChain pc (key.drop (k.length + 1)) _)) = _
    rw [show key[k.length]? = some y from hbyte, show key.drop (k.length + 1) = t from drop_rest hrest]
    exact hm
  | nested k p =>
    obtain ⟨rfl, -⟩ := hreads
    have hc : Holds pc 1 ((nested k p).push [y]) (.newLeaf r) [(k, r)] :=
      nestedLeaf_holds hr hrest (hnested k p rfl)
    obtain ⟨m, hm, hins⟩ := insertChild_spec h.ok hfree hc.hasMetadata
    refine ⟨m, ?_, hins.gate.trans h.gate, h.put_adds hins ⟨1, _, hc, by rw [hpart]⟩⟩
    show (do let byte ← (fromRowId r)[p.length]?; n.insertChild byte (.newLeaf r)) = _
    rw [show (fromRowId r)[p.length]? = some y from hbyte]
    exact hm

/-- What `split` leaves behind the split byte holds what the prefix held. -/
theorem splitChild_holds (hpc : 0 < pc) (hbytes : bytes = q ++ x :: s)
    (hcap : bytes.length ≤ pc) (h : Holds pc d (place.push bytes) c rows) :
    ∃ d', Holds pc d' (place.push (q ++ [x])) (splitChild pc bytes c q.length) rows := by
  have hlen := length_rest hbytes
  have hlast : s = [] → ∃ d', Holds pc d' (place.push (q ++ [x])) c rows := by
    intro hs
    rw [hs] at hbytes
    exact ⟨d, hbytes ▸ h⟩
  unfold splitChild
  split
  · exact hlast (length_eq_zero_iff.1 (by omega))
  split
  · obtain ⟨d', h'⟩ := collectChain_holds h
    have hplace : (place.push bytes).push (collectChain c).1 =
        (place.push (q ++ [x])).push (s ++ (collectChain c).1) := by
      rw [push_push, push_push, hbytes]
      simp
    rw [drop_rest hbytes]
    exact createChain_holds hpc (hplace ▸ h')
  · exact hlast (length_eq_zero_iff.1 (by omega))

/-- Splitting a prefix at the byte where the row differs: the branch below holds the old rows and the new one. -/
theorem insertIntoPrefix_adds (hpc : 2 ≤ pc) {bytes : Bytes}
    (hbytes : bytes = q ++ x :: s) (hcap : bytes.length ≤ pc) (h : Holds pc d (place.push bytes) c rows)
    (hr : RowId r) (hreads : place.Reads key r) (hrest : place.active key r = place.path ++ (q ++ y :: t))
    (hxy : x ≠ y) (hgate : q = [] → g = .notSet) :
    ∃ m, insertIntoPrefix pc g bytes c key r q.length (place.path.length + q.length) place.status =
        some (if q = [] then m else .prefixNode g q m) ∧
      m.getGateStatus = .notSet ∧ Adds pc (place.push q) m (key, r) rows := by
  obtain ⟨d', hbelow⟩ := splitChild_holds (by omega) hbytes hcap h
  rw [← push_push] at hbelow
  obtain ⟨m, hm, hmg, hadds⟩ := insertIntoNode_adds (by omega) (branches_single hbelow) hr
    (hreads.push hrest) (by rw [active_push, path_push, append_assoc]; exact hrest)
    (getChild_single hxy) fun _ _ => hbelow.nested_le
  rw [flatMap_single] at hadds
  refine ⟨m, ?_, hmg, hadds⟩
  rw [path_push, length_append, status_push] at hm
  have hstatus : (if q.length + 1 = pc then GateStatus.notSet else if q.length = 0 then g else .notSet) = .notSet := by
    split
    · rfl
    · split
      · rename_i hq
        exact hgate (length_eq_zero_iff.1 hq)
      · rfl
  have hlen := length_rest hbytes
  have htake : ∀ i, i = q.length → bytes.take i = q := by
    intro i hi
    rw [hi, hbytes, take_left']
    rfl
  unfold insertIntoPrefix
  rw [getElem?_rest hbytes]
  simp only [Option.pure_def, Option.bind_eq_bind, Option.bind_some, hstatus, hm]
  by_cases hfull : q.length + 1 = pc
  · have hq : q ≠ [] := fun hq => by rw [hq, length_nil] at hfull; omega
    rw [if_pos hfull, if_neg hq, htake _ (by omega)]
  · by_cases hq : q = []
    · rw [if_neg hfull, if_pos hq, if_pos (by rw [hq]; rfl)]
    · rw [if_neg hfull, if_neg hq, if_neg (fun h0 => hq (length_eq_zero_iff.1 h0)), htake _ rfl]

/-! ### Two row ids at one key -/

/-- The node at the byte where two row ids differ. -/
theorem merged_adds (hold : RowId old) (hr : RowId r)
    (ho : fromRowId old = q ++ x :: s) (hn : fromRowId r = q ++ y :: t) (hxy : x ≠ y) :
    Adds pc (.nested k q) (if q.length = 7 then node7Leaf .notSet (insertInternal id y [x])
      else .node4 .notSet (insertInternal Prod.fst (y, newLeaf r) [(x, newLeaf old)]))
      (k, r) [(k, old)] := by
  have hlen := (length_rest ho).symm.trans (length_fromRowId old)
  have hlen' := (length_rest hn).symm.trans (length_fromRowId r)
  split
  · rename_i h7
    have hs : s = [] := length_eq_zero_iff.1 (by omega)
    have ht : t = [] := length_eq_zero_iff.1 (by omega)
    subst hs ht
    have hbytes : (insertInternal id y [x]).Perm [y, x] := perm_insertInternal
    refine ⟨1, _, .lastBytes (n := .node7Leaf .notSet (insertInternal id y [x])) ?_ rfl h7 ?_ ?_, ?_⟩
    · refine ⟨sorted_insertInternal (pairwise_singleton _ _) fun b hb => ?_, ?_⟩
      · rw [mem_singleton.1 hb]
        exact hxy
      · rw [length_insertInternal]
        simp
    · intro b hb
      rcases mem_cons.1 (hbytes.mem_iff.1 hb) with rfl | hb
      · exact ⟨r, hr, hn⟩
      · rw [mem_singleton.1 hb]
        exact ⟨old, hold, ho⟩
    · intro hnil
      have := hbytes.length_eq
      rw [show insertInternal id y [x] = [] from hnil] at this
      cases this
    · refine (hbytes.map _).trans ?_
      rw [map_cons, map_cons, map_nil, ← hn, ← ho, getRowId_fromRowId hr, getRowId_fromRowId hold]
  · have hleft : Holds pc 1 ((nested k q).push [x]) (.newLeaf old) [(k, old)] :=
      nestedLeaf_holds hold ho (by omega)
    have hright : Holds pc 1 ((nested k q).push [y]) (.newLeaf r) [(k, r)] := nestedLeaf_holds hr hn (by omega)
    have hsingle := branches_single hleft
    obtain ⟨m, hm, hins⟩ := insertChild_spec hsingle.ok (getChild_single hxy) hright.hasMetadata
    have hm' : node4 .notSet (insertInternal Prod.fst (y, newLeaf r) [(x, newLeaf old)]) = m :=
      Option.some.inj hm
    have hadds := hsingle.put_adds hins ⟨1, _, hright, by rw [if_neg hxy.symm]⟩
    rw [flatMap_single, ← hm'] at hadds
    exact hadds

theorem createChain_gate (hpc : 0 < pc) (hne : bytes ≠ []) (h : Holds pc d (.nested k bytes) n rows) :
    ∃ d', Holds pc d' (.outer k) ((createChain pc bytes n).setGateStatus .set) rows := by
  obtain ⟨i, hi⟩ : ∃ i, bytes.length = i + 1 := ⟨bytes.length - 1, by have := length_pos_iff.2 hne; omega⟩
  have hplace : (nested k (bytes.take pc)).push (bytes.drop pc) = .nested k bytes := by
    show nested k (bytes.take pc ++ bytes.drop pc) = _
    rw [take_append_drop]
  obtain ⟨d', h'⟩ := createChainLoop_holds hpc (show (bytes.drop pc).length ≤ i by rw [length_drop]; omega)
    (hplace.symm ▸ h)
  refine ⟨d' + 1, ?_⟩
  unfold createChain
  rw [hi, createChainLoop, if_neg hne]
  exact .gate (mt take_eq_nil_iff.1 (not_or.2 ⟨hpc.ne', hne⟩)) (by rw [length_take]; omega) h'

/-- Where the keys of two row ids part. -/
theorem rowIds_diff (hold : RowId old) (hr : RowId r) (hne : old ≠ r) :
    ∃ q x s y t, fromRowId old = q ++ x :: s ∧ fromRowId r = q ++ y :: t ∧ x ≠ y ∧ q ≠ [] := by
  have hapart : Apart (fromRowId old) (fromRowId r) := apart_of_length (by simp)
  obtain ⟨q, x, s, y, t, ho, hn, hxy⟩ := hapart.exists_diff fun heq => hne (fromRowId_inj hold hr heq)
  refine ⟨q, x, s, y, t, ho, hn, hxy, fun hq => ?_⟩
  -- all row-id keys start with one byte
  obtain ⟨s', hs'⟩ := fromRowId_head hold
  obtain ⟨t', ht'⟩ := fromRowId_head hr
  rw [hq, hs'] at ho
  rw [hq, ht'] at hn
  exact hxy ((cons.inj ho).1.symm.trans (cons.inj hn).1)

theorem mergeInlined_eq (ho : fromRowId old = q ++ x :: s)
    (hn : fromRowId r = q ++ y :: t) (hxy : x ≠ y) (hdepth : status = .set → depth ≤ q.length) :
    mergeInlined old r status depth pc =
      let node := if q.length = 7 then node7Leaf .notSet (insertInternal id y [x])
        else .node4 .notSet (insertInternal Prod.fst (y, newLeaf r) [(x, newLeaf old)])
      some (if status = .set then createChain pc (q.drop depth) node
        else (createChain pc q node).setGateStatus .set) := by
  have hchain : ∀ i, i ≤ q.length → ((q ++ x :: s).drop i).take (q.length - i) = q.drop i := by
    intro i hi
    rw [drop_append_of_le_length hi, take_append_of_le_length (by rw [length_drop]),
      take_of_length_le (by rw [length_drop])]
  unfold mergeInlined
  cases status with
  | notSet =>
    have h0 := hchain 0 (Nat.zero_le _)
    rw [drop_zero, drop_zero] at h0
    simp [ho, hn, getMismatchPos_eq (Nat.zero_le q.length) hxy]
  | set =>
    have hd := hdepth rfl
    simp [ho, hn, getMismatchPos_eq hd hxy, hchain depth hd]

theorem mergeInlined_outer (hpc : 0 < pc) (hold : RowId old) (hr : RowId r) (hne : old ≠ r) :
    ∃ m, mergeInlined old r .notSet depth pc = some m ∧ Adds pc (.outer k) m (k, r) [(k, old)] := by
  obtain ⟨q, x, s, y, t, ho, hn, hxy, hq⟩ := rowIds_diff hold hr hne
  obtain ⟨d, rows, hnode, hperm⟩ : Adds pc (.nested k q) _ (k, r) [(k, old)] := merged_adds hold hr ho hn hxy
  obtain ⟨d', hgate⟩ := createChain_gate hpc hq hnode
  exact ⟨_, mergeInlined_eq ho hn hxy nofun, d', rows, hgate, hperm⟩

theorem mergeInlined_nested (hpc : 0 < pc) (hold : RowId old) (hr : RowId r) (hne : old ≠ r)
    (hpo : p <+: fromRowId old) (hpr : p <+: fromRowId r) :
    ∃ m, mergeInlined old r .set p.length pc = some m ∧ Adds pc (.nested k p) m (k, r) [(k, old)] := by
  obtain ⟨q, x, s, y, t, ho, hn, hxy, hq⟩ := rowIds_diff hold hr hne
  obtain ⟨d, rows, hnode, hperm⟩ : Adds pc (.nested k q) _ (k, r) [(k, old)] := merged_adds hold hr ho hn hxy
  have hpq : p <+: q := prefix_of_diff hxy (ho ▸ hpo) (hn ▸ hpr)
  have hplace : (nested k p).push (q.drop p.length) = .nested k q := by
    show nested k (p ++ q.drop p.length) = _
    rw [prefix_iff_eq_append.1 hpq]
  obtain ⟨d', hchain⟩ := createChain_holds hpc (hplace.symm ▸ hnode)
  exact ⟨_, mergeInlined_eq ho hn hxy fun _ => hpq.length_le, d', rows, hchain, hperm⟩

/-! ### The walk down -/

theorem mismatch_agree (bytes t : Bytes) (i : Nat) : mismatch bytes (bytes ++ t) i = some none := by
  induction bytes generalizing i with
  | nil => rfl
  | cons b bytes ih =>
    rw [cons_append, mismatch, if_neg (not_not.2 rfl), ih]

theorem mismatch_diff (hxy : x ≠ y) (q s t : Bytes) (i : Nat) :
    mismatch (q ++ x :: s) (q ++ y :: t) i = some (some (i + q.length)) := by
  induction q generalizing i with
  | nil => exact if_pos hxy
  | cons b q ih =>
    rw [cons_append, cons_append, mismatch, if_neg (not_not.2 rfl), ih, length_cons]
    congr 2
    omega

/-- Crossing a gate: the walk goes on with the row id from its first byte. -/
theorem insertRecursive_gate : insertRecursive pc false mode key r (fuel + 1) (.prefixNode .set bytes c) depth .notSet =
      insertRecursive pc false mode key r (fuel + 1) (.prefixNode .set bytes c) 0 .set := by
  simp [insertRecursive, hasMetadata, getGateStatus]

abbrev walkKey (key : Bytes) (r : Nat) (status : GateStatus) : Bytes := if status = .set then fromRowId r else key

section
variable {g : GateStatus} {bytes : Bytes} (h : status = .set ∨ g = .notSet)
include h

theorem insertRecursive_prefixNode {differs : Option Nat}
    (hm : mismatch bytes ((walkKey key r status).drop depth) 0 = some differs) :
    insertRecursive pc false mode key r (fuel + 1) (.prefixNode g bytes c) depth status =
      differs.elim ((insertRecursive pc false mode key r fuel c (depth + bytes.length) status).map
          fun r => (.prefixNode g bytes r.1, r.2))
        fun pos => (insertIntoPrefix pc g bytes c key r pos (depth + pos) status).map fun node =>
          (node, .noConflict) := by
  have hcross : ¬ (status = .notSet ∧ g = .set) := by
    rcases h with rfl | rfl <;> simp
  simp only [insertRecursive, hasMetadata, getGateStatus, reduceCtorEq, ↓reduceIte, hcross,
    Bool.false_eq_true, and_false, hm]
  cases differs <;> rfl

end

section
variable (hgate : n.getGateStatus = .notSet) {y : UInt8}
include hgate

theorem insertRecursive_node (hok : n.Ok) (hy : (walkKey key r status)[depth]? = some y) :
    insertRecursive pc false mode key r (fuel + 1) n depth status =
      (n.getChild y).elim ((insertIntoNode pc n key r depth status).map fun node => (node, .noConflict)) fun c =>
        (insertRecursive pc false mode key r fuel c (depth + 1) status).map fun r => (n.replaceChild y r.1, r.2) := by
  have hmeta := hok.hasMetadata
  have hleaf := hok.isAnyLeaf
  cases n <;>
    first
    | exact hok.elim
    | (simp only [insertRecursive, hmeta, hgate, hleaf, reduceCtorEq, ↓reduceIte, Bool.false_eq_true, and_false, hy,
        bind_eq_bind, bind_some]
       split <;> simp only [*, elim_none, elim_some])

theorem insertRecursive_lastBytes (hok : n.LeafOk) (hy : (fromRowId r)[7]? = some y) {m : Node}
    (hm : n.insertLeafByte y = some m) :
    insertRecursive pc false mode key r (fuel + 1) n depth .set = some (m, .noConflict) := by
  have hmeta := hok.hasMetadata
  have hleaf := hok.isAnyLeaf
  cases n <;>
    first
    | exact hok.elim
    | simp only [insertRecursive, hmeta, hgate, hleaf, reduceCtorEq, ↓reduceIte, Bool.false_eq_true, and_false, hy,
        Option.bind_eq_bind, Option.bind_some, Option.pure_def, hm]

end

/-- The row is new: its key is apart from every key and no row is its equal. -/
def Fresh (key : Bytes) (r : Nat) (rows : List Row) : Prop := ∀ x ∈ rows, Apart x.1 key ∧ x ≠ (key, r)

theorem Fresh.apart (h : Fresh key r rows) : ∀ x ∈ rows, Apart x.1 key := fun x hx => (h x hx).1

/-- What an insertion below a place does, with any fuel from `d` on. -/
def Inserts (pc d : Nat) (mode : IndexAppendMode) (key : Bytes) (r : Nat) (place : Place) (n : Node) (rows : List Row)
    (depth : Nat) (status : GateStatus) : Prop :=
  ∃ m, (∀ fuel, d ≤ fuel → insertRecursive pc false mode key r fuel n depth status = some (m, .noConflict)) ∧
    (n.getGateStatus = .set → m.getGateStatus = .set) ∧ Adds pc place m (key, r) rows

theorem exists_succ {fuel : Nat} (h : d < fuel) : ∃ i, fuel = i + 1 := ⟨fuel - 1, by omega⟩

theorem succ_fuel {P : Nat → Prop} (h : ∀ fuel, d ≤ fuel → P (fuel + 1)) : ∀ fuel, d + 1 ≤ fuel → P fuel := by
  intro fuel hfuel
  obtain ⟨fuel, rfl⟩ := exists_succ hfuel
  exact h fuel (by omega)

theorem replaced_eq {old child : Node} (h : old.getGateStatus = .set → child.getGateStatus = .set) :
    replaced old child = child := by
  unfold replaced
  split
  · rename_i hs
    cases child <;> simp_all [setGateStatus, getGateStatus]
  · rfl

/-- A row that reads on after a prefix, or differs from it, but never ends inside it. -/
theorem reads_cases (h : Holds pc d (place.push bytes) c rows) (hreads : place.Reads key r)
    (hapart : ∀ x ∈ rows, Apart x.1 key) :
    (∃ t, place.active key r = place.path ++ (bytes ++ t)) ∨
    ∃ q x s y t, bytes = q ++ x :: s ∧ place.active key r = place.path ++ (q ++ y :: t) ∧ x ≠ y := by
  obtain ⟨rest, hrest⟩ := hreads.exists_rest
  rcases compare_paths bytes rest with ⟨t, rfl⟩ | ⟨q, x, s, y, t, hb, rfl, hxy⟩ | ⟨x, s, hb⟩
  · exact .inl ⟨t, hrest⟩
  · exact .inr ⟨q, x, s, y, t, hb, hrest, hxy⟩
  · exfalso
    obtain ⟨row, hrow⟩ := exists_mem_of_ne_nil _ h.ne_nil
    have hbelow := h.row_below hrow
    cases place with
    | outer k =>
      have hkey : key = k ++ rest := hrest
      have hlong : key ++ x :: s <+: row.1 := by
        rw [hkey, append_assoc, ← hb]
        exact hbelow
      have heq := (hapart row hrow).2 ((prefix_append _ _).trans hlong)
      have hle := hlong.length_le
      rw [heq, length_append, length_cons] at hle
      omega
    | nested k p =>
      have hlen := length_fromRowId r
      rw [show fromRowId r = p ++ rest from hrest, length_append] at hlen
      have hle := h.path_le
      rw [hb, length_append, length_append, length_cons] at hle
      omega

theorem walkKey_status : walkKey key r place.status = place.active key r := by
  cases place <;> rfl

theorem drop_path {rest : Bytes} (h : place.active key r = place.path ++ rest) :
    (walkKey key r place.status).drop place.path.length = rest := by
  rw [walkKey_status, h, drop_left]

/-- Insertion into a prefix, plain or a gate, whose bytes are read at `place`. -/
theorem insert_prefix (hpc : 2 ≤ pc) (hr : RowId r) (hne : bytes ≠ [])
    (hcap : bytes.length ≤ pc) (h : Holds pc d (place.push bytes) c rows) (hreads : place.Reads key r)
    (hfresh : Fresh key r rows) (hgate : place.status = .set ∨ g = .notSet)
    (hfirst : g = .set → ∀ x s t, bytes = x :: s → place.active key r = place.path ++ t → t.head? = some x)
    (ih : (place.push bytes).Reads key r →
      Inserts pc d mode key r (place.push bytes) c rows (place.push bytes).path.length place.status) :
    ∃ q m, (∀ fuel, d ≤ fuel →
        insertRecursive pc false mode key r (fuel + 1) (.prefixNode g bytes c) place.path.length place.status =
          some (if q = [] then m else .prefixNode g q m, .noConflict)) ∧ q.length ≤ pc ∧ (q = [] → g = .notSet) ∧
      Adds pc (place.push q) m (key, r) rows := by
  rcases reads_cases h hreads hfresh.apart with ⟨t, ht⟩ | ⟨q, x, s, y, t, hb, ht, hxy⟩
  · obtain ⟨m, hm, -, hadds⟩ := ih (hreads.push ht)
    refine ⟨bytes, m, fun fuel hfuel => ?_, hcap, fun hnil => absurd hnil hne, hadds⟩
    rw [path_push, length_append] at hm
    rw [insertRecursive_prefixNode hgate (by rw [drop_path ht, mismatch_agree]), elim_none, hm fuel hfuel, if_neg hne]
    rfl
  · have hq : q = [] → g = .notSet := by
      intro hnil
      subst hnil
      cases g with
      | notSet => rfl
      | set =>
        have := hfirst rfl x s (y :: t) hb ht
        exact absurd (Option.some.inj this).symm hxy
    obtain ⟨m, hm, -, hadds⟩ := insertIntoPrefix_adds hpc hb hcap h hr hreads ht hxy hq
    refine ⟨q, m, fun fuel _ => ?_, ?_, hq, hadds⟩
    · have hpos : mismatch bytes ((walkKey key r place.status).drop place.path.length) 0 = some (some q.length) := by
        rw [drop_path ht, hb, mismatch_diff hxy, zero_add]
      rw [insertRecursive_prefixNode hgate hpos, elim_some, hm]
      rfl
    · rw [hb, length_append] at hcap
      omega

theorem Adds.chain {m : Node} {q : Bytes} (h : Adds pc (place.push q) m (key, r) rows) (hcap : q.length ≤ pc) :
    Adds pc place (if q = [] then m else .prefixNode .notSet q m) (key, r) rows := by
  split
  · rename_i hq
    rwa [hq, push_nil] at h
  · rename_i hq
    obtain ⟨d, rows', hold, hperm⟩ := h
    exact ⟨d + 1, rows', .chain hq hcap hold, hperm⟩

/-- The byte that a row reads at an internal node. -/
theorem reads_byte (h : Holds pc d place n rows) (hok : n.Ok) (hreads : place.Reads key r)
    (hapart : ∀ x ∈ rows, Apart x.1 key) : ∃ y t, place.active key r = place.path ++ y :: t := by
  obtain ⟨rest, hrest⟩ := hreads.exists_rest
  cases rest with
  | cons y t => exact ⟨y, t, hrest⟩
  | nil =>
    exfalso
    cases h with
    | leaf | nestedLeaf | chain | gate => exact hok
    | lastBytes hleaf => cases n <;> first | exact hok | exact hleaf
    | node _ _ hchild _ hsome =>
      obtain ⟨b, c, hc⟩ := hsome
      have hb := hchild b c hc
      rcases reads_cases hb hreads fun x hx => hapart x (mem_flatMap_bytes.2 ⟨b, hx⟩) with ⟨t, ht⟩ |
        ⟨q, x, s, y, t, hq, ht, hxy⟩
      all_goals
        rw [hrest] at ht
        have := congrArg length ht
        simp at this

/-- An insertion of a fresh row adds that row and nothing else. -/
theorem insertRecursive_holds (hpc : 2 ≤ pc) (hr : RowId r) (h : Holds pc d place n rows) (hreads : place.Reads key r)
    (hfresh : Fresh key r rows) : Inserts pc d mode key r place n rows place.path.length place.status := by
  induction h with
  | @leaf d k old hold =>
    obtain ⟨hapart, hne⟩ := hfresh _ mem_cons_self
    obtain rfl : k = key := hapart.1 hreads
    obtain ⟨m, hm, hadds⟩ := mergeInlined_outer (show 0 < pc by omega) hold hr fun heq => hne (by rw [heq])
    refine ⟨m, succ_fuel fun fuel _ => ?_, nofun, hadds⟩
    exact congrArg (Option.map _) hm
  | @nestedLeaf d k p old hold hp hlen =>
    obtain ⟨rfl, hpr⟩ := hreads
    obtain ⟨m, hm, hadds⟩ := mergeInlined_nested (show 0 < pc by omega) hold hr
      (fun heq => (hfresh _ mem_cons_self).2 (by rw [heq])) hp hpr
    refine ⟨m, succ_fuel fun fuel _ => ?_, nofun, hadds⟩
    exact congrArg (Option.map _) hm
  | @chain d place bytes child rows hne hcap hchild ih =>
    have hrec : (place.push bytes).Reads key r → Inserts pc d mode key r (place.push bytes) child rows
        (place.push bytes).path.length place.status := by
      intro hpush
      rw [← status_push place bytes]
      exact ih hpush hfresh
    obtain ⟨q, m, hm, hq, -, hadds⟩ := insert_prefix hpc hr hne hcap hchild hreads hfresh (.inr rfl) nofun hrec
    exact ⟨_, succ_fuel hm, nofun, hadds.chain hq⟩
  | @gate d k bytes child rows hne hcap hchild ih =>
    obtain ⟨row, hrow⟩ := exists_mem_of_ne_nil _ hchild.ne_nil
    obtain ⟨hrk, hrid, hrp⟩ := hchild.row_below hrow
    obtain rfl : k = key := by
      have hapart := (hfresh row hrow).1
      rw [hrk] at hapart
      exact hapart.1 hreads
    have hroot : (nested k []).Reads k r := ⟨rfl, nil_prefix⟩
    -- all row ids start with one byte, so a gate is never split before its first byte
    have hfirst : ∀ x s t, bytes = x :: s → (nested k []).active k r = (nested k []).path ++ t → t.head? = some x := by
      intro x s t hb ht
      obtain ⟨s', hs'⟩ := fromRowId_head hrid
      obtain ⟨t', ht'⟩ := fromRowId_head hr
      rw [hb, hs', cons_prefix_cons] at hrp
      rw [← show fromRowId r = t from ht, ht', hrp.1]
      rfl
    have hrec : ((nested k []).push bytes).Reads k r → Inserts pc d mode k r ((nested k []).push bytes)
        child rows ((nested k []).push bytes).path.length .set := fun hpush => ih hpush hfresh
    obtain ⟨q, m, hm, hq, hqg, d', rows', hold, hperm⟩ :=
      insert_prefix (g := .set) hpc hr hne hcap hchild hroot hfresh (.inl rfl) (fun _ => hfirst) hrec
    have hqne : q ≠ [] := fun hnil => absurd (hqg hnil) nofun
    rw [if_neg hqne] at hm
    exact ⟨_, succ_fuel fun fuel hfuel => insertRecursive_gate.trans (hm fuel hfuel), fun _ => rfl, d' + 1, rows',
      .gate hqne hq hold, hperm⟩
  | @node d place n part hok hgate hchild hnone hsome ih =>
    have hbranches : Branches pc d place n part := ⟨hok, hgate, hchild, hnone⟩
    obtain ⟨y, t, hy⟩ := reads_byte (.node hok hgate hchild hnone hsome) hok hreads hfresh.apart
    have hbyte : (walkKey key r place.status)[place.path.length]? = some y := by rw [walkKey_status, getElem?_rest hy]
    cases hc : n.getChild y with
    | some c =>
      have hpart : Fresh key r (part y) := fun x hx => hfresh x (mem_flatMap_bytes.2 ⟨y, hx⟩)
      obtain ⟨m, hm, hmg, hadds⟩ := ih y c hc (hreads.push hy) hpart
      rw [path_push, length_append, status_push] at hm
      have hmeta : m.hasMetadata = true := by
        obtain ⟨_, _, hold, _⟩ := hadds
        exact hold.hasMetadata
      have hins := replaceChild_spec hok hc hmeta
      rw [replaced_eq hmg] at hins
      refine ⟨_, succ_fuel fun fuel hfuel => ?_, fun hg => ?_, hbranches.put_adds hins hadds⟩
      · rw [insertRecursive_node hgate hok hbyte, hc, elim_some]
        exact congrArg (Option.map _) (hm fuel hfuel)
      · cases hgate.symm.trans hg
    | none =>
      obtain ⟨b, c, hb⟩ := hsome
      obtain ⟨m, hm, -, hadds⟩ :=
        insertIntoNode_adds (by omega) hbranches hr hreads hy hc fun _ _ => (hchild b c hb).nested_le
      refine ⟨m, succ_fuel fun fuel _ => ?_, fun hg => ?_, hadds⟩
      · rw [insertRecursive_node hgate hok hbyte, hc, elim_none, hm]
        rfl
      · cases hgate.symm.trans hg
  | @lastBytes d k p n hok hgate hlen hrows hne =>
    obtain ⟨rfl, hp⟩ := hreads
    obtain ⟨t, ht⟩ := hp
    obtain ⟨y, rfl⟩ : ∃ y, t = [y] := by
      have := length_fromRowId r
      rw [← ht, length_append] at this
      exact length_eq_one_iff.1 (by omega)
    have hbyte : (fromRowId r)[7]? = some y := hlen ▸ getElem?_rest ht.symm
    have hnew : y ∉ n.leafBytes := by
      intro hy
      refine (hfresh _ (mem_map.2 ⟨y, hy, rfl⟩)).2 ?_
      rw [ht, getRowId_fromRowId hr]
    obtain ⟨m, hm, hmok, hmg, hperm⟩ := insertLeafByte_spec hok hnew
    refine ⟨m, succ_fuel fun fuel _ => insertRecursive_lastBytes hgate hok hbyte hm, fun hg => ?_, d + 1, _,
      .lastBytes hmok (hmg.trans hgate) hlen (fun b hb => ?_) (fun hnil => ?_), ?_⟩
    · cases hgate.symm.trans hg
    · rcases mem_cons.1 (hperm.mem_iff.1 hb) with rfl | hb
      · exact ⟨r, hr, ht.symm⟩
      · exact hrows b hb
    · rw [hnil] at hperm
      cases hperm.length_eq
    · refine (hperm.map _).trans ?_
      rw [map_cons, ht, getRowId_fromRowId hr]

end

end Paro.L3.ArtIndex
