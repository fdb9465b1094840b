import Paro.L2Machine.ArtIterator
import Paro.L3Protocol.ArtContents

/-!
# Scans visit the rows in key order

The iterator's stack stands for the rows that are still to come: those of the later children of each node on it.
`findMinimum`, `next` and `lowerBound` move to the first leaf of such a list, and a scan takes row ids from it up
to the upper bound (`scan_spec`, `lowerBound_spec`).
-/
namespace Paro.L3.ArtIndex

open BytePath L1.ArtKey L2.Art List Node
open Iterator hiding contains

/-! ## Order of the rows -/

open Place
open SortedList (Sorted insertBy mem_insertBy sorted_insertBy)

section
variable {pc d : Nat} {place : Place} {n : Node} {rows : List Row} {k p : Bytes}

/-- Two paths that part at a byte. -/
theorem lt_of_below {b c : UInt8} {u v : Bytes} (hu : k ++ [b] <+: u) (hv : k ++ [c] <+: v) (hbc : b < c) : u < v := by
  obtain ⟨s, rfl⟩ := hu
  obtain ⟨t, rfl⟩ := hv
  rw [append_assoc, append_assoc]
  exact path_lt_of_byte hbc

/-- Rows below one place come in key order. -/
theorem Holds.sorted (h : Holds pc d place n rows) : rows.Pairwise fun x y => x.1 ≤ y.1 := by
  induction h with
  | leaf | nestedLeaf => exact pairwise_singleton _ _
  | chain _ _ _ ih | gate _ _ _ ih => exact ih
  | @node d place n part hok hgate hchild hnone hsome ih =>
    refine pairwise_flatMap.2 ⟨fun b _ => ?_, ?_⟩
    · cases hc : n.getChild b with
      | none =>
        rw [hnone b hc]
        exact List.Pairwise.nil
      | some c => exact ih b c hc
    · refine (sorted_bytesFrom 0).imp fun {b b'} hlt x hx y hy => ?_
      obtain ⟨c, hc⟩ := exists_child hnone hx
      obtain ⟨c', hc'⟩ := exists_child hnone hy
      have hxb := (hchild b c hc).row_below hx
      have hyb := (hchild b' c' hc').row_below hy
      cases place with
      | outer k => exact le_of_lt (lt_of_below hxb hyb hlt)
      | nested k p => exact le_of_eq (hxb.1.trans hyb.1.symm)
  | lastBytes =>
    rw [pairwise_map]
    exact List.Pairwise.imp (fun _ => le_rfl) (pairwise_of_forall fun _ _ => trivial)

/-- The rows behind a gate do not depend on the key of the gate. -/
theorem Holds.rekey {k' : Bytes} (h : Holds pc d (.nested k p) n rows) :
    Holds pc d (.nested k' p) n (rows.map fun x => (k', x.2)) := by
  generalize hplace : nested k p = place at h
  induction h generalizing p with
  | leaf | gate => cases hplace
  | nestedLeaf hr hp hlen =>
    cases hplace
    exact .nestedLeaf hr hp hlen
  | chain hne hcap _ ih =>
    subst hplace
    exact .chain hne hcap (ih rfl)
  | @node d place n part hok hgate hchild hnone hsome ih =>
    subst hplace
    rw [map_flatMap]
    refine .node hok hgate (fun b c hc => ih b c hc rfl) (fun b hb => ?_) hsome
    rw [hnone b hb]
    rfl
  | lastBytes hok hgate hlen hrows hne =>
    cases hplace
    rw [map_map]
    exact .lastBytes hok hgate hlen hrows hne

end

/-! ## Where the iterator is -/

namespace Place

def key : Place → Bytes
  | outer k => k
  | nested k _ => k

def nestedPath : Place → Bytes
  | outer _ => []
  | nested _ p => p

theorem key_push (place : Place) (bytes : Bytes) :
    (place.push bytes).key ++ (place.push bytes).nestedPath = place.key ++ place.nestedPath ++ bytes := by
  cases place <;> simp [push, key, nestedPath]

end Place

structure At (it : Iterator) (place : Place) : Prop where
  key : it.currentKey = place.key ++ place.nestedPath
  status : it.status = place.status
  depth : it.nestedDepth = place.nestedPath.length
  length : it.rowId.length = 8
  row : it.rowId.take place.nestedPath.length = place.nestedPath

/-- The rows to come after the current leaf: those of the later children on the stack. -/
inductive Stack (pc D : Nat) : Place → List (Node × UInt8) → List Row → Prop where
  | root : Stack pc D (.outer []) [] []
  | chain {place nodes rest bytes child b} (h : Stack pc D place nodes rest) :
      Stack pc D (place.push bytes) ((.prefixNode .notSet bytes child, b) :: nodes) rest
  | gate {k nodes rest bytes child b} (h : Stack pc D (.outer k) nodes rest) :
      Stack pc D (.nested k bytes) ((.prefixNode .set bytes child, b) :: nodes) rest
  | node {place nodes rest d n part b} (h : Stack pc D place nodes rest) (hd : d ≤ D)
      (hn : Branches pc d place n part) :
      Stack pc D (place.push [b]) ((n, b) :: nodes) ((bytesFrom (b.toNat + 1)).flatMap part ++ rest)

/-- A walk that ends behind a gate has crossed it, or was behind the same gate before. -/
def Entered (place : Place) (entered : Bool) : Place → Prop
  | .outer _ => True
  | .nested k _ => entered = true ∨ ∃ p, place = .nested k p

/-- The iterator stands on a leaf that holds `here`, with `rest` to come. -/
structure LeafAt (pc D : Nat) (origin : Place) (it : Iterator) (place : Place) (here rest : List Row) : Prop where
  reads : At it place
  stack : Stack pc D place it.nodes rest
  holds : ∃ d, Holds pc d place it.lastLeaf here
  isLeaf : it.lastLeaf.isAnyLeaf = true
  entered : Entered origin it.enteredNestedLeaf place

/-- `rows` are those of the current leaf and all that follow. -/
def OnLeaf (pc D : Nat) (origin : Place) (it : Iterator) (rows : List Row) : Prop :=
  ∃ place here rest, rows = here ++ rest ∧ LeafAt pc D origin it place here rest

section
variable {pc D d fuel : Nat} {it : Iterator} {place origin : Place} {n : Node} {rows rest : List Row} {bytes : Bytes}
  {part : UInt8 → List Row}

theorem take_set_succ (l : Bytes) (i : Nat) (b : UInt8) (h : i < l.length) :
    (l.set i b).take (i + 1) = l.take i ++ [b] := by
  rw [set_eq_take_append_cons_drop, if_pos h, take_append, take_of_length_le (by simp),
    length_take, min_eq_left (le_of_lt h), Nat.add_sub_cancel_left]
  rfl

/-- Reading one more byte on the way down. -/
theorem push_spec (h : At it place) (b : UInt8) (hroom : ∀ k p, place = .nested k p → p.length < 8) :
    ∃ it', it.push b = some it' ∧ At it' (place.push [b]) ∧ it'.nodes = it.nodes ∧
      it'.enteredNestedLeaf = it.enteredNestedLeaf := by
  have hkey : it.currentKey ++ [b] = (place.push [b]).key ++ (place.push [b]).nestedPath := by
    rw [h.key, key_push]
  cases place with
  | outer k =>
    have hs : it.status ≠ .set := by
      rw [h.status]
      exact nofun
    exact ⟨_, if_neg hs, { h with key := hkey }, rfl, rfl⟩
  | nested k p =>
    have hdepth : it.nestedDepth = p.length := h.depth
    have hp := hroom k p rfl
    refine ⟨_, (if_pos h.status).trans (if_pos (by omega)), ⟨hkey, h.status, ?_, ?_, ?_⟩, rfl, rfl⟩
    · show it.nestedDepth + 1 = (p ++ [b]).length
      rw [hdepth, length_append, length_singleton]
    · show (it.rowId.set it.nestedDepth b).length = 8
      rw [length_set, h.length]
    · show (it.rowId.set it.nestedDepth b).take (p ++ [b]).length = p ++ [b]
      rw [length_append, length_singleton, hdepth, take_set_succ _ _ _ (by rw [h.length]; exact hp)]
      exact congrArg (· ++ [b]) h.row

theorem pushAll_spec (h : At it place) (hroom : ∀ k p, place = .nested k p → p.length + bytes.length ≤ 8) :
    ∃ it', bytes.foldlM push it = some it' ∧ At it' (place.push bytes) ∧ it'.nodes = it.nodes ∧
      it'.enteredNestedLeaf = it.enteredNestedLeaf := by
  induction bytes generalizing it place with
  | nil => exact ⟨it, rfl, by rwa [push_nil], rfl, rfl⟩
  | cons b bytes ih =>
    have hfirst : ∀ k p, place = .nested k p → p.length < 8 := by
      intro k p hp
      have := hroom k p hp
      rw [length_cons] at this
      omega
    have hrest : ∀ k p, place.push [b] = .nested k p → p.length + bytes.length ≤ 8 := by
      intro k p hp
      cases place with
      | outer k' => cases hp
      | nested k' p' =>
        cases hp
        have := hroom k p' rfl
        rw [length_cons] at this
        rw [length_append, length_singleton]
        omega
    obtain ⟨it1, h₁, hat, hnodes, hentered⟩ := push_spec h b hfirst
    obtain ⟨it2, h₂, hat', hnodes', hentered'⟩ := ih hat hrest
    refine ⟨it2, ?_, ?_, hnodes'.trans hnodes, hentered'.trans hentered⟩
    · rw [foldlM_cons, h₁]
      exact h₂
    · rwa [push_push] at hat'

theorem Entered.refl (place : Place) (entered : Bool) : Entered place entered place := by
  cases place with
  | outer k => trivial
  | nested k p => exact .inr ⟨p, rfl⟩

variable {entered : Bool} {place' origin' : Place} {it' : Iterator} {child : Node} {b : UInt8}
  {nodes : List (Node × UInt8)} {k : Bytes}

theorem Entered.of_push (h : Entered (place.push bytes) entered place') : Entered place entered place' := by
  cases place' with
  | outer k => trivial
  | nested k p =>
    refine h.imp_right fun ⟨q, hq⟩ => ?_
    cases place with
    | outer k' => cases hq
    | nested k' p' =>
      cases hq
      exact ⟨p', rfl⟩

theorem OnLeaf.mono_origin (h : OnLeaf pc D origin it rows)
    (himp : ∀ place', Entered origin it.enteredNestedLeaf place' → Entered origin' it.enteredNestedLeaf place') :
    OnLeaf pc D origin' it rows := by
  obtain ⟨place, here, rest, hrows, h⟩ := h
  exact ⟨place, here, rest, hrows, { h with entered := himp place h.entered }⟩

theorem At.of_eq (h : At it place) (hkey : it'.currentKey = it.currentKey) (hstatus : it'.status = it.status)
    (hdepth : it'.nestedDepth = it.nestedDepth) (hrow : it'.rowId = it.rowId) : At it' place :=
  ⟨hkey.trans h.key, hstatus.trans h.status, hdepth.trans h.depth, hrow ▸ h.length, hrow ▸ h.row⟩

theorem Holds.room (h : Holds pc d (place.push bytes) n rows) :
    ∀ k p, place = .nested k p → p.length + bytes.length ≤ 7 := by
  intro k p hplace
  subst hplace
  have hle := h.path_le
  rwa [length_append] at hle

/-! ### `find_minimum` -/

theorem findMinimum_leaf (hmeta : n.hasMetadata = true) (hleaf : n.isAnyLeaf = true) :
    findMinimum (fuel + 1) it n = some { it with lastLeaf := n } := by
  unfold findMinimum
  rw [if_neg (by rw [hmeta]; exact nofun), if_pos hleaf]

theorem findMinimum_chain {g : GateStatus} (h : bytes.foldlM push (if g = .set then
      { it with status := .set, enteredNestedLeaf := true, nestedDepth := 0 } else it) = some it') :
    findMinimum (fuel + 1) it (.prefixNode g bytes child) =
      findMinimum fuel { it' with nodes := (.prefixNode g bytes child, 0) :: it'.nodes } child := by
  rw [findMinimum]
  cases g <;>
    (simp only [reduceCtorEq, ↓reduceIte] at h
     simp only [hasMetadata, isAnyLeaf, getGateStatus, reduceCtorEq, ↓reduceIte, Bool.false_eq_true, h,
      Option.bind_eq_bind, Option.bind_some])

theorem findMinimum_node (hok : n.Ok) (hgate : n.getGateStatus = .notSet) {c : Node}
    (hnext : n.getNextChild 0 = some (b, c)) (hpush : it.push b = some it') :
    findMinimum (fuel + 1) it n = findMinimum fuel { it' with nodes := (n, b) :: it'.nodes } c := by
  have hmeta := hok.hasMetadata
  have hleaf := hok.isAnyLeaf
  cases n <;>
    first
    | exact hok.elim
    | (rw [findMinimum]
       simp only [hmeta, hleaf, hgate, reduceCtorEq, ↓reduceIte, Bool.false_eq_true, hnext, hpush,
        Option.bind_eq_bind, Option.bind_some])

theorem Branches.first (h : Branches pc d place n part) (hsome : ∃ b c, n.getChild b = some c) :
    ∃ b c, n.getNextChild 0 = some (b, c) ∧ n.getChild b = some c ∧
      (bytesFrom 0).flatMap part = part b ++ (bytesFrom (b.toNat + 1)).flatMap part := by
  cases hnext : n.getNextChild 0 with
  | none =>
    obtain ⟨b, c, hc⟩ := hsome
    rw [getNextChild_none h.ok hnext (show (0 : UInt8) ≤ b from UInt8.zero_le)] at hc
    cases hc
  | some e =>
    have hn := getNextChild_some h.ok hnext
    exact ⟨e.1, e.2, rfl, hn.getChild, flatMap_bytesFrom_next (Nat.zero_le _)
      fun c _ hlt => h.absent c (hn.skipped c UInt8.zero_le hlt)⟩

/-- The walk to the minimum ends on the first leaf of the subtree. -/
theorem findMinimum_spec (h : Holds pc d place n rows) (hat : At it place) (hstack : Stack pc D place it.nodes rest)
    (hfuel : d ≤ fuel) (hD : d ≤ D) :
    ∃ it', findMinimum fuel it n = some it' ∧ OnLeaf pc D place it' (rows ++ rest) ∧
      (it.enteredNestedLeaf = true → it'.enteredNestedLeaf = true) := by
  induction h generalizing it rest fuel with
  | @leaf d k r hr =>
    obtain ⟨fuel, rfl⟩ := exists_succ hfuel
    exact ⟨_, findMinimum_leaf rfl rfl, ⟨_, _, rest, rfl, hat.of_eq rfl rfl rfl rfl, hstack, ⟨1, .leaf hr⟩, rfl,
      Entered.refl _ _⟩, id⟩
  | @nestedLeaf d k p r hr hp hlen =>
    obtain ⟨fuel, rfl⟩ := exists_succ hfuel
    exact ⟨_, findMinimum_leaf rfl rfl, ⟨_, _, rest, rfl, hat.of_eq rfl rfl rfl rfl, hstack,
      ⟨1, .nestedLeaf hr hp hlen⟩, rfl, Entered.refl _ _⟩, id⟩
  | @lastBytes d k p n hok hgate hlen hrows hne =>
    obtain ⟨fuel, rfl⟩ := exists_succ hfuel
    exact ⟨_, findMinimum_leaf hok.hasMetadata hok.isAnyLeaf, ⟨_, _, rest, rfl, hat.of_eq rfl rfl rfl rfl, hstack,
      ⟨1, .lastBytes hok hgate hlen hrows hne⟩, hok.isAnyLeaf, Entered.refl _ _⟩, id⟩
  | @chain d place bytes child rows hne hcap hchild ih =>
    obtain ⟨fuel, rfl⟩ := exists_succ hfuel
    obtain ⟨it1, h₁, hat1, hnodes, hentered⟩ := pushAll_spec hat fun k p hp => Nat.le_succ_of_le (hchild.room k p hp)
    have hat2 : At { it1 with nodes := (.prefixNode .notSet bytes child, 0) :: it1.nodes } (place.push bytes) :=
      hat1.of_eq rfl rfl rfl rfl
    obtain ⟨it', hit', hon, hkeep⟩ := ih hat2 (.chain (hnodes ▸ hstack)) (show d ≤ fuel by omega) (by omega)
    exact ⟨it', (findMinimum_chain (g := .notSet) h₁).trans hit', hon.mono_origin fun _ he => he.of_push,
      fun he => hkeep (hentered.trans he)⟩
  | @gate d k bytes child rows hne hcap hchild ih =>
    obtain ⟨fuel, rfl⟩ := exists_succ hfuel
    have hroot : At { it with status := .set, enteredNestedLeaf := true, nestedDepth := 0 } (.nested k []) :=
      ⟨hat.key, rfl, rfl, hat.length, rfl⟩
    have hroom : ∀ k' p', nested k [] = .nested k' p' → p'.length + bytes.length ≤ 8 := by
      intro k' p' hp
      cases hp
      have := hchild.path_le
      rw [length_nil]
      omega
    obtain ⟨it1, h₁, hat1, hnodes, hentered⟩ := pushAll_spec hroot hroom
    have hat2 : At { it1 with nodes := (.prefixNode .set bytes child, 0) :: it1.nodes } (.nested k bytes) :=
      hat1.of_eq rfl rfl rfl rfl
    obtain ⟨it', hit', hon, hkeep⟩ := ih hat2 (.gate (hnodes ▸ hstack)) (show d ≤ fuel by omega) (by omega)
    have hcrossed := hkeep hentered
    refine ⟨it', (findMinimum_chain (g := .set) h₁).trans hit', hon.mono_origin fun place' _ => ?_, fun _ => hcrossed⟩
    cases place' with
    | outer k => trivial
    | nested k p => exact .inl hcrossed
  | @node d place n part hok hgate hchild hnone hsome ih =>
    obtain ⟨fuel, rfl⟩ := exists_succ hfuel
    have hbranches : Branches pc d place n part := ⟨hok, hgate, hchild, hnone⟩
    obtain ⟨b, c, hnext, hc, hrows⟩ := hbranches.first hsome
    obtain ⟨it1, h₁, hat1, hnodes, hentered⟩ :=
      push_spec hat b fun k p hp => Nat.le_succ_of_le ((hchild b c hc).room k p hp)
    have hat2 : At { it1 with nodes := (n, b) :: it1.nodes } (place.push [b]) := hat1.of_eq rfl rfl rfl rfl
    obtain ⟨it', hit', hon, hkeep⟩ :=
      ih b c hc hat2 (.node (hnodes ▸ hstack) (by omega) hbranches) (show d ≤ fuel by omega) (by omega)
    rw [← append_assoc, ← hrows] at hon
    exact ⟨it', (findMinimum_node hok hgate hnext h₁).trans hit', hon.mono_origin fun _ he => he.of_push,
      fun he => hkeep (hentered.trans he)⟩

/-! ### `next` -/

theorem take_sub_length (a b : Bytes) : (a ++ b).take ((a ++ b).length - b.length) = a := by
  rw [length_append, Nat.add_sub_cancel, take_left]

/-- Leaving a node that is no gate. -/
theorem At.pop (h : At it (place.push bytes)) : At { it with
      nodes
      currentKey := it.currentKey.take (it.currentKey.length - bytes.length)
      nestedDepth := if it.status = .set then it.nestedDepth - bytes.length else it.nestedDepth } place := by
  have hkey := h.key.trans (key_push ..)
  refine ⟨?_, h.status.trans (status_push _ _), ?_, h.length, ?_⟩
  · show it.currentKey.take (it.currentKey.length - bytes.length) = _
    rw [hkey, take_sub_length]
  · show (if it.status = .set then it.nestedDepth - bytes.length else it.nestedDepth) = _
    cases place with
    | outer k => rw [if_neg (by rw [h.status]; exact nofun), h.depth]; rfl
    | nested k p =>
      have hs : it.status = .set := h.status
      rw [if_pos hs, h.depth]
      show (p ++ bytes).length - bytes.length = p.length
      rw [length_append, Nat.add_sub_cancel]
  · cases place with
    | outer k => rfl
    | nested k p =>
      have hrow : it.rowId.take (p ++ bytes).length = p ++ bytes := h.row
      have htake := congrArg (take p.length) hrow
      rwa [take_take, length_append, min_eq_left (by omega), take_left] at htake

/-- Leaving a gate. -/
theorem At.pop_gate (h : At it (.nested k bytes)) : At { it with
      nodes
      currentKey := it.currentKey.take (it.currentKey.length - bytes.length)
      nestedDepth := if it.status = .set then it.nestedDepth - bytes.length else it.nestedDepth
      status := .notSet } (.outer k) := by
  have hkey : it.currentKey = k ++ bytes := h.key
  refine ⟨?_, rfl, ?_, h.length, rfl⟩
  · show it.currentKey.take (it.currentKey.length - bytes.length) = k ++ []
    rw [hkey, take_sub_length, append_nil]
  · show (if it.status = .set then it.nestedDepth - bytes.length else it.nestedDepth) = 0
    have hs : it.status = .set := h.status
    rw [if_pos hs, h.depth]
    exact Nat.sub_self _

/-- Moving to another child of the node on top: its byte is taken back and the other one read. -/
theorem At.advance {b b' : UInt8} {nodes : List (Node × UInt8)} (h : At it (place.push [b])) :
    At (it.advance n nodes b') (place.push [b']) := by
  have hroom : ∀ k p, place = .nested k p → p.length < 8 := by
    rintro k p rfl
    have hrow := congrArg List.length h.row
    rw [length_take, h.length, show ((nested k p).push [b]).nestedPath.length = p.length + 1 from length_append] at hrow
    omega
  obtain ⟨it', hpush, hat, -⟩ := push_spec (@At.pop _ _ _ nodes h) b' hroom
  cases place with
  | outer k =>
    have hs : it.status ≠ .set := by
      rw [h.status]
      exact nofun
    cases (if_neg hs).symm.trans hpush
    exact hat.of_eq rfl rfl (if_neg hs).symm (if_neg hs)
  | nested k p =>
    have hs : it.status = .set := h.status
    have hdepth : it.nestedDepth = p.length + 1 := h.depth.trans length_append
    simp only [Iterator.push, hs, ↓reduceIte] at hpush
    split at hpush <;> cases hpush
    refine hat.of_eq rfl hs ?_ (if_pos hs)
    show it.nestedDepth = it.nestedDepth - 1 + 1
    rw [hdepth, Nat.add_sub_cancel]

/-- What `next` does from a stack with the rows `rest` to come. -/
def NextSpec (pc D : Nat) (origin : Place) (rest : List Row) (result : Option (Bool × Iterator)) : Prop :=
  ∃ more it', result = some (more, it') ∧ if more then OnLeaf pc D origin it' rest else rest = []

theorem NextSpec.mono {result : Option (Bool × Iterator)} (h : NextSpec pc D origin rest result)
    (himp : ∀ e place', Entered origin e place' → Entered origin' e place') : NextSpec pc D origin' rest result := by
  obtain ⟨more, it', hr, hspec⟩ := h
  refine ⟨more, it', hr, ?_⟩
  cases more with
  | false => exact hspec
  | true => exact OnLeaf.mono_origin hspec (himp _)

theorem Entered.push {entered : Bool} {place' : Place} (h : Entered place entered place') :
    Entered (place.push bytes) entered place' := by
  cases place' with
  | outer k => trivial
  | nested k p => exact h.imp_right fun ⟨q, hq⟩ => ⟨q ++ bytes, by rw [hq]; rfl⟩

theorem Entered.of_outer (h : Entered (.outer k) entered place') : Entered origin entered place' := by
  cases place' with
  | outer k => trivial
  | nested k p => exact .inl (h.resolve_right fun ⟨_, hq⟩ => by cases hq)

theorem popNode_eq {top : Node} (hnodes : it.nodes = (top, b) :: nodes) : it.popNode = { it with
      nodes
      currentKey := it.currentKey.take (it.currentKey.length - byteCount top)
      nestedDepth := if it.status = .set then it.nestedDepth - byteCount top else it.nestedDepth
      status := if top.getGateStatus = .set then .notSet else it.status } := by
  unfold popNode
  rw [hnodes]

theorem popNode_node (hat : At it (place.push [b])) (hok : n.Ok) (hgate : n.getGateStatus = .notSet)
    (hnodes : it.nodes = (n, b) :: nodes) : At it.popNode place ∧ it.popNode.nodes = nodes := by
  have hpop : it.popNode = { it with
      nodes
      currentKey := it.currentKey.take (it.currentKey.length - [b].length)
      nestedDepth := if it.status = .set then it.nestedDepth - [b].length else it.nestedDepth } := by
    have hcount : byteCount n = 1 := by cases n <;> first | exact hok.elim | rfl
    rw [popNode_eq hnodes, hgate, hcount]
    rfl
  rw [hpop]
  exact ⟨hat.pop, rfl⟩

theorem not_prefixNode (hok : n.Ok) : ∀ g bytes c, n = .prefixNode g bytes c → False := by
  intro g bytes c heq
  rw [heq] at hok
  exact hok

section
variable {b : UInt8} {nodes : List (Node × UInt8)} (hok : n.Ok)
include hok

theorem nextLoop_last (hb : b = 255) : nextLoop fuel ((n, b) :: nodes) it = nextLoop fuel nodes it.popNode := by
  rw [nextLoop, if_pos hb]
  exact not_prefixNode hok

theorem nextLoop_node (hb : b ≠ 255) : nextLoop fuel ((n, b) :: nodes) it =
    (n.getNextChild (b + 1)).elim (nextLoop fuel nodes it.popNode) fun e =>
      (findMinimum fuel (it.advance n nodes e.1) e.2).map fun it => (true, it) := by
  rw [nextLoop, if_neg hb]
  · cases n.getNextChild (b + 1) <;> rfl
  · exact not_prefixNode hok

end

theorem toNat_succ (h : b ≠ 255) : (b + 1).toNat = b.toNat + 1 := by
  have hb := b.toNat_lt
  have hne : b.toNat ≠ 255 := fun heq => h (UInt8.toNat_inj.1 heq)
  rw [UInt8.toNat_add, UInt8.toNat_one]
  omega

/-- `next` moves to the first of the rows to come, or finds that there is none. -/
theorem nextLoop_spec (h : Stack pc D place nodes rest) (hat : At it place) (hnodes : it.nodes = nodes)
    (hfuel : D ≤ fuel) : NextSpec pc D place rest (nextLoop fuel nodes it) := by
  induction h generalizing it with
  | root => exact ⟨false, it, rfl, rfl⟩
  | @chain place nodes rest bytes child b hstack ih =>
    have hpop : At it.popNode place := by
      rw [popNode_eq hnodes]
      exact hat.pop
    exact (ih hpop (by rw [popNode_eq hnodes])).mono fun e place' he => he.push
  | @gate k nodes rest bytes child b hstack ih =>
    have hpop : At it.popNode (.outer k) := by
      rw [popNode_eq hnodes]
      exact hat.pop_gate
    exact (ih hpop (by rw [popNode_eq hnodes])).mono fun e place' he => he.of_outer
  | @node place nodes rest d n part b hstack hd hn ih =>
    obtain ⟨hpop, hpopNodes⟩ := popNode_node hat hn.ok hn.gate hnodes
    have hrest : NextSpec pc D (place.push [b]) rest (nextLoop fuel nodes it.popNode) :=
      (ih hpop hpopNodes).mono fun e place' he => he.push
    -- with no later child the node contributes nothing
    have hskip : (∀ c : UInt8, b.toNat + 1 ≤ c.toNat → n.getChild c = none) →
        NextSpec pc D (place.push [b]) ((bytesFrom (b.toNat + 1)).flatMap part ++ rest)
          (nextLoop fuel nodes it.popNode) := by
      intro hnone
      rw [flatMap_bytesFrom_nil fun c hc => hn.absent c (hnone c hc), nil_append]
      exact hrest
    by_cases hlast : b = 255
    · rw [nextLoop_last hn.ok hlast]
      refine hskip fun c hc => ?_
      have := c.toNat_lt
      rw [hlast] at hc
      exact absurd hc (by simp; omega)
    · have hsucc : (b + 1).toNat = b.toNat + 1 := toNat_succ hlast
      rw [nextLoop_node hn.ok hlast]
      cases hnext : n.getNextChild (b + 1) with
      | none =>
        exact hskip fun c hc => getNextChild_none hn.ok hnext (UInt8.le_iff_toNat_le.2 (hsucc ▸ hc))
      | some e =>
        obtain ⟨b', c⟩ := e
        have hc := getNextChild_some hn.ok hnext
        have hle : b.toNat + 1 ≤ b'.toNat := hsucc ▸ UInt8.le_iff_toNat_le.1 hc.le
        have hrows : (bytesFrom (b.toNat + 1)).flatMap part = part b' ++ (bytesFrom (b'.toNat + 1)).flatMap part :=
          flatMap_bytesFrom_next hle fun c' hc' hlt =>
            hn.absent c' (hc.skipped c' (UInt8.le_iff_toNat_le.2 (hsucc ▸ hc')) hlt)
        have hstack' : Stack pc D (place.push [b']) (it.advance n nodes b').nodes
            ((bytesFrom (b'.toNat + 1)).flatMap part ++ rest) := .node hstack hd hn
        obtain ⟨it', hit', hon, -⟩ :=
          findMinimum_spec (hn.child b' c hc.getChild) hat.advance hstack' (le_trans hd hfuel) hd
        rw [hrows, append_assoc]
        refine ⟨true, it', ?_, hon.mono_origin fun place' he => he.of_push.push⟩
        rw [Option.elim_some, hit']
        rfl

end

/-! ## Scans -/

/-- The keys a scan with this upper bound may return. -/
def Within (upper : Option Bytes) (equal : Bool) (k : Bytes) : Prop :=
  match upper with
  | none => True
  | some b => if equal then k ≤ b else k < b

section
variable {pc D fuel walk maxCount : Nat} {it : Iterator} {place origin : Place} {leaf : Node}
  {rows here rest : List Row} {ids ids' : List Nat} {upper : Option Bytes} {equal : Bool} {k p bound : Bytes}

theorem compareBytes_cons (b : UInt8) (p q : Bytes) : compareBytes (b :: p) (b :: q) = compareBytes p q := by
  show (if b < b then some true else if b < b then some false else compareBytes _ _) = _
  rw [if_neg (lt_irrefl b), if_neg (lt_irrefl b)]

theorem compareBytes_diff {q s t : Bytes} {x y : UInt8} (hxy : x ≠ y) :
    compareBytes (q ++ x :: s) (q ++ y :: t) = some (decide (y < x)) := by
  induction q with
  | nil =>
    show (if y < x then some true else if x < y then some false else _) = _
    by_cases h : y < x
    · rw [if_pos h, decide_eq_true h]
    · rw [if_neg h, if_pos (lt_of_le_of_ne (not_lt.1 h) hxy), decide_eq_false h]
  | cons b q ih => exact (compareBytes_cons ..).trans ih

theorem compareBytes_self (k p : Bytes) : compareBytes (k ++ p) k = none := by
  induction k with
  | nil => cases p <;> rfl
  | cons b k ih => exact (compareBytes_cons ..).trans ih

/-- The row-id bytes read behind a gate do not count in the comparison with a bound. -/
theorem greaterThan_spec (h : Apart k bound) :
    greaterThan (k ++ p) bound equal p.length = true ↔ ¬ Within (some bound) equal k := by
  unfold Within greaterThan
  by_cases heq : k = bound
  · subst heq
    rw [compareBytes_self]
    simp only [length_append, Nat.add_sub_cancel]
    cases equal <;> simp
  · obtain ⟨q, x, s, y, t, rfl, rfl, hxy⟩ := h.exists_diff heq
    rw [append_assoc, cons_append, compareBytes_diff hxy]
    simp only [decide_eq_true_eq]
    rcases lt_or_gt_of_ne hxy with hlt | hlt
    · have hk : q ++ x :: s < q ++ y :: t := path_lt_of_byte hlt
      have hnot : ¬ y < x := not_lt.2 (le_of_lt hlt)
      cases equal
      · simp [hk, hnot]
      · simp [le_of_lt hk, hnot]
    · have hk : q ++ y :: t < q ++ x :: s := path_lt_of_byte hlt
      cases equal
      · simp [hlt, le_of_lt hk]
      · simp [hlt, hk]

structure Collected (ids : List Nat) (rows : List Row) (ids' : List Nat) : Prop where
  sorted : Sorted id ids'
  mem : ∀ r, r ∈ ids' ↔ r ∈ ids ∨ ∃ x ∈ rows, x.2 = r
  length : ids'.length ≤ ids.length + rows.length

theorem length_insertRow (ids : List Nat) (r : Nat) : (insertRow ids r).length ≤ ids.length + 1 := by
  induction ids with
  | nil => exact le_rfl
  | cons a ids ih =>
    unfold insertRow insertBy
    split
    · exact le_rfl
    · split
      · rw [length_cons, length_cons]
        exact Nat.succ_le_succ ih
      · rw [length_cons, length_cons]
        omega

theorem Collected.nil (h : Sorted id ids) : Collected ids [] ids :=
  ⟨h, fun r => by simp, le_rfl⟩

theorem Collected.single (h : Sorted id ids) (x : Row) : Collected ids [x] (insertRow ids x.2) where
  sorted := sorted_insertBy h
  mem := by
    intro r
    rw [mem_insertBy h]
    simp only [id_eq, mem_singleton, exists_eq_left]
    constructor
    · intro hr
      exact hr.elim (fun heq => .inr heq.symm) fun hm => .inl hm.1
    · intro hr
      by_cases heq : r = x.2
      · exact .inl heq
      · exact .inr ⟨hr.resolve_right fun h' => heq h'.symm, heq⟩
  length := length_insertRow ids x.2

theorem exists_row_append {rows' : List Row} {p : Row → Prop} :
    ((∃ x ∈ rows, p x) ∨ ∃ x ∈ rows', p x) ↔ ∃ x ∈ rows ++ rows', p x := by
  simp [or_and_right, exists_or]

theorem Collected.trans {rows' : List Row} {ids'' : List Nat} (h : Collected ids rows ids')
    (h' : Collected ids' rows' ids'') : Collected ids (rows ++ rows') ids'' where
  sorted := h'.sorted
  mem := by
    intro r
    rw [h'.mem, h.mem, or_assoc]
    exact or_congr_right exists_row_append
  length := by
    have h1 := h.length
    have h2 := h'.length
    rw [length_append]
    omega

variable {byte : UInt8}

/-- The bytes of a sorted list after its first one. -/
theorem filter_tail {l l' : List UInt8} {b : UInt8} (hl : Sorted id l) (hb : b ≠ 255)
    (h : (l.filter fun c => byte ≤ c) = b :: l') : (l.filter fun c => b + 1 ≤ c) = l' := by
  have hs : Sorted id (b :: l') := h ▸ hl.filter _
  have hle : byte ≤ b := of_decide_eq_true (mem_filter.1 (h ▸ mem_cons_self : b ∈ l.filter _)).2
  have hiff : ∀ c, decide (b + 1 ≤ c) = (decide (byte ≤ c) && decide (b < c)) := by
    intro c
    have hstep : b + 1 ≤ c ↔ b < c := by
      rw [UInt8.le_iff_toNat_le, toNat_succ hb, UInt8.lt_iff_toNat_lt]
      exact Nat.succ_le_iff
    rw [decide_eq_decide.2 hstep, Bool.eq_iff_iff, Bool.and_eq_true, decide_eq_true_eq, decide_eq_true_eq]
    exact ⟨fun hc => ⟨le_trans hle (le_of_lt hc), hc⟩, And.right⟩
  have hfilter : (l.filter fun c => b + 1 ≤ c) = (l.filter fun c => byte ≤ c).filter fun c => b < c := by
    rw [filter_filter]
    exact filter_congr fun c _ => by rw [hiff, Bool.and_comm]
  rw [hfilter, h, filter_cons_of_neg (by simp), filter_eq_self]
  intro c hc
  exact decide_eq_true ((pairwise_cons.1 hs).1 c hc)

theorem scanBytes_spec (hok : leaf.LeafOk) {rowId l : Bytes}
    (hl : (leaf.leafBytes.filter fun c => byte ≤ c) = l) (hfuel : 256 - byte.toNat < fuel) (hlen : rowId.length = 8)
    (hrow : rowId.take 7 = p) (hids : Sorted id ids) (hmax : ids.length + l.length ≤ maxCount) :
    ∃ rowId' ids', scanBytes leaf maxCount fuel byte rowId ids = some (true, rowId', ids') ∧
      rowId'.length = 8 ∧ rowId'.take 7 = p ∧ Collected ids (l.map fun b => (k, getRowId (p ++ [b]))) ids' := by
  induction l generalizing byte fuel rowId ids with
  | nil =>
    obtain ⟨fuel, rfl⟩ := exists_succ hfuel
    have hnext : leaf.getNextByte byte = none := by rw [hok.getNextByte, hl]; rfl
    refine ⟨rowId, ids, ?_, hlen, hrow, .nil hids⟩
    rw [scanBytes, hnext]
  | cons b l ih =>
    obtain ⟨fuel, rfl⟩ := exists_succ hfuel
    have hnext : leaf.getNextByte byte = some b := by rw [hok.getNextByte, hl]; rfl
    have hle : byte ≤ b := of_decide_eq_true (mem_filter.1 (hl ▸ mem_cons_self : b ∈ leaf.leafBytes.filter _)).2
    have hset : rowId.set 7 b = p ++ [b] := by
      have := take_set_succ rowId 7 b (by omega)
      rwa [hrow, take_of_length_le (by rw [length_set]; omega)] at this
    have hset7 : (rowId.set 7 b).take 7 = p := by
      rw [hset, take_left' (by rw [← hrow, length_take]; omega)]
    rw [length_cons] at hmax
    have hfirst := Collected.single hids (k, getRowId (p ++ [b]))
    have hstep : scanBytes leaf maxCount (fuel + 1) byte rowId ids =
        if b = 255 then some (true, rowId.set 7 b, insertRow ids (getRowId (p ++ [b])))
        else scanBytes leaf maxCount fuel (b + 1) (rowId.set 7 b)
          (insertRow ids (getRowId (p ++ [b]))) := by
      rw [scanBytes, hnext]
      simp only [if_neg (show ¬ maxCount < ids.length + 1 by omega), hset]
    rw [hstep]
    by_cases hb : b = 255
    · have hnil : l = [] := by
        have hs : Sorted id (b :: l) := hl ▸ hok.sorted.filter _
        cases l with
        | nil => rfl
        | cons c l =>
          have hlt : b < c := (pairwise_cons.1 hs).1 c mem_cons_self
          rw [hb, UInt8.lt_iff_toNat_lt] at hlt
          have := c.toNat_lt
          exact absurd hlt (by simp; omega)
      rw [if_pos hb, hnil]
      exact ⟨_, _, rfl, by rw [length_set, hlen], hset7, hfirst⟩
    · have hle' := UInt8.le_iff_toNat_le.1 hle
      have hsucc := toNat_succ hb
      have hlt := b.toNat_lt
      have hgrow := length_insertRow ids (getRowId (p ++ [b]))
      obtain ⟨rowId', ids', hscan, hlen', hrow', hcol⟩ := ih (filter_tail hok.sorted hb hl)
        (show 256 - (b + 1).toNat < fuel by omega) (by rw [length_set, hlen]) hset7 hfirst.sorted
        (show (insertRow ids (getRowId (p ++ [b]))).length + l.length ≤ maxCount by omega)
      rw [if_neg hb]
      exact ⟨rowId', ids', hscan, hlen', hrow', hfirst.trans hcol⟩

theorem scanLeaf_spec (h : LeafAt pc D origin it place here rest) (hids : Sorted id ids)
    (hmax : ids.length + here.length ≤ maxCount) :
    ∃ rowId ids', it.scanLeaf maxCount ids = some (true, rowId, ids') ∧ Collected ids here ids' ∧
      At { it with rowId, enteredNestedLeaf := false } place := by
  obtain ⟨d, hold⟩ := h.holds
  have hleaf := h.isLeaf
  have hat := h.reads
  generalize hn : it.lastLeaf = n at hold hleaf
  cases hold with
  | leaf | nestedLeaf =>
    refine ⟨it.rowId, _, ?_, Collected.single hids _, hat.of_eq rfl rfl rfl rfl⟩
    unfold scanLeaf
    rw [hn]
    exact if_neg (by rw [length_singleton] at hmax; omega)
  | chain | gate => cases hleaf
  | node hok => cases hok.isAnyLeaf.symm.trans hleaf
  | @lastBytes _ k p _ hok hgate hlen hrows hne =>
    have hrow : it.rowId.take 7 = p := by
      have := hat.row
      rwa [show (nested k p).nestedPath.length = 7 from hlen] at this
    have hall : (n.leafBytes.filter fun c => (0 : UInt8) ≤ c) = n.leafBytes :=
      filter_eq_self.2 fun c _ => decide_eq_true UInt8.zero_le
    rw [length_map] at hmax
    obtain ⟨rowId, ids', hscan, hlen', hrow', hcol⟩ := scanBytes_spec (k := k) hok hall
      (show 256 - (0 : UInt8).toNat < 257 by decide) hat.length hrow hids hmax
    refine ⟨rowId, ids', ?_, hcol, hat.key, hat.status, hat.depth, hlen', ?_⟩
    · unfold scanLeaf
      rw [hn]
      cases n <;> first | exact hok.elim | exact hscan
    · show rowId.take p.length = p
      rw [hlen, hrow']

/-- The key of the current leaf is in bounds, or the bound is about to be checked. -/
def Checked (upper : Option Bytes) (equal : Bool) (it : Iterator) (place : Place) : Prop :=
  (it.status = .notSet ∨ it.enteredNestedLeaf = true) ∨ Within upper equal place.key

theorem LeafAt.key (h : LeafAt pc D origin it place here rest) {x : Row} (hx : x ∈ here) : x.1 = place.key := by
  obtain ⟨d, hold⟩ := h.holds
  have hleaf := h.isLeaf
  generalize it.lastLeaf = n at hold hleaf
  cases hold with
  | leaf | nestedLeaf =>
    rw [mem_singleton.1 hx]
    rfl
  | chain | gate => cases hleaf
  | node hok => cases hok.isAnyLeaf.symm.trans hleaf
  | lastBytes =>
    obtain ⟨b, -, rfl⟩ := mem_map.1 hx
    rfl

theorem LeafAt.ne_nil (h : LeafAt pc D origin it place here rest) : here ≠ [] := by
  obtain ⟨d, hold⟩ := h.holds
  exact hold.ne_nil

theorem Within.of_le {k' : Bytes} (h : Within upper equal k') (hle : k ≤ k') : Within upper equal k := by
  cases upper with
  | none => trivial
  | some b =>
    cases equal with
    | false => exact lt_of_le_of_lt hle h
    | true => exact le_trans hle h

abbrev passesBound (upper : Option Bytes) (equal : Bool) (it : Iterator) : Bool :=
  upper.any fun bound => (it.status = .notSet || it.enteredNestedLeaf) &&
    greaterThan it.currentKey bound equal it.nestedDepth

section
variable (hat : At it place) (hapart : ∀ b, upper = some b → Apart place.key b)
include hat hapart

theorem not_within_of_passes (h : passesBound upper equal it = true) : ¬ Within upper equal place.key := by
  cases upper with
  | none => cases h
  | some b =>
    have hg := (Bool.and_eq_true_iff.1 h).2
    rw [hat.key, hat.depth] at hg
    exact (greaterThan_spec (hapart b rfl)).1 hg

theorem within_of_not_passes (hcheck : Checked upper equal it place) (h : ¬ passesBound upper equal it = true) :
    Within upper equal place.key := by
  rcases hcheck with hcheck | hcheck
  · cases upper with
    | none => trivial
    | some b =>
      by_contra hout
      have hg := (greaterThan_spec (p := place.nestedPath) (hapart b rfl)).2 hout
      rw [← hat.key, ← hat.depth] at hg
      refine h (Bool.and_eq_true_iff.2 ⟨?_, hg⟩)
      simpa using hcheck
  · exact hcheck

end

/-- A scan collects the ids of the listed rows within the bound. -/
theorem scan_spec (hsorted : rows.Pairwise fun x y => x.1 ≤ y.1)
    (hapart : ∀ b, upper = some b → ∀ x ∈ rows, Apart x.1 b) (hids : Sorted id ids)
    (hmax : ids.length + rows.length ≤ maxCount) (hfuel : rows.length < fuel) (hwalk : D ≤ walk)
    (hrows : rows = here ++ rest) (hleaf : LeafAt pc D origin it place here rest)
    (hcheck : Checked upper equal it place) :
    ∃ ids', scan upper maxCount equal walk fuel it ids = some (true, ids') ∧
      Sorted id ids' ∧ ∀ r, r ∈ ids' ↔ r ∈ ids ∨ ∃ x ∈ rows, Within upper equal x.1 ∧ x.2 = r := by
  induction fuel generalizing rows here rest origin it place ids with
  | zero => omega
  | succ fuel ih =>
    obtain ⟨row, hrow⟩ := exists_mem_of_ne_nil _ hleaf.ne_nil
    have hplace : ∀ b, upper = some b → Apart place.key b := by
      intro b hb
      rw [← hleaf.key hrow]
      exact hapart b hb row (hrows ▸ mem_append_left _ hrow)
    by_cases hstop : passesBound upper equal it = true
    · have hout := not_within_of_passes hleaf.reads hplace hstop
      -- every row that is left has a key at or behind the current one
      have hle : ∀ x ∈ rows, place.key ≤ x.1 := by
        intro x hx
        rw [hrows] at hx hsorted
        rcases mem_append.1 hx with hx | hx
        · exact le_of_eq (hleaf.key hx).symm
        · rw [← hleaf.key hrow]
          exact (pairwise_append.1 hsorted).2.2 row hrow x hx
      refine ⟨ids, if_pos hstop, hids, fun r => ⟨.inl, fun hr => hr.resolve_right fun ⟨x, hx, hw, _⟩ => ?_⟩⟩
      exact hout (hw.of_le (hle x hx))
    · have hin := within_of_not_passes hleaf.reads hplace hcheck hstop
      have hlen : rows.length = here.length + rest.length := by rw [hrows, length_append]
      have hpos := length_pos_iff.2 hleaf.ne_nil
      obtain ⟨rowId, ids1, hscan, hcol, hat⟩ := scanLeaf_spec hleaf hids (by omega : _ ≤ maxCount)
      obtain ⟨more, it', hnext, hmore⟩ := nextLoop_spec hleaf.stack hat rfl hwalk
      have hstep : scan upper maxCount equal walk (fuel + 1) it ids =
          if more then scan upper maxCount equal walk fuel it' ids1 else some (true, ids1) := by
        rw [scan, if_neg hstop, hscan]
        simp only [Option.bind_eq_bind, Option.bind_some, Bool.true_eq_false, ↓reduceIte, Iterator.next, hnext]
        rfl
      rw [hstep]
      have hhere : ∀ r, r ∈ ids1 ↔ r ∈ ids ∨ ∃ x ∈ here, Within upper equal x.1 ∧ x.2 = r := by
        intro r
        rw [hcol.mem]
        refine or_congr_right ⟨fun ⟨x, hx, hr⟩ => ⟨x, hx, ?_, hr⟩, fun ⟨x, hx, _, hr⟩ => ⟨x, hx, hr⟩⟩
        rw [hleaf.key hx]
        exact hin
      cases more with
      | false =>
        have hrest : rest = [] := hmore
        rw [hrest, append_nil] at hrows
        exact ⟨ids1, rfl, hcol.sorted, hrows ▸ hhere⟩
      | true =>
        obtain ⟨place', here', rest', hrest, hleaf'⟩ := (hmore : OnLeaf pc D place it' rest)
        have hcheck' : Checked upper equal it' place' := by
          have hentered := hleaf'.entered
          cases place' with
          | outer k => exact .inl (.inl hleaf'.reads.status)
          | nested k p =>
            rcases hentered with he | ⟨q, hq⟩
            · exact .inl (.inr he)
            · rw [hq] at hin
              exact .inr hin
        rw [hrows] at hsorted
        have hgrow := hcol.length
        obtain ⟨ids', hscan', hsorted', hmem⟩ := ih (pairwise_append.1 hsorted).2.1
          (fun b hb x hx => hapart b hb x (hrows ▸ mem_append_right _ hx)) hcol.sorted (by omega) (by omega)
          hrest hleaf' hcheck'
        refine ⟨ids', hscan', hsorted', fun r => ?_⟩
        rw [hmem, hhere, hrows, or_assoc]
        exact or_congr_right exists_row_append

end

/-! ## Lower bounds -/

/-- The keys a scan from this lower bound may return. -/
def Above (key : Bytes) (equal : Bool) (k : Bytes) : Prop := if equal then key ≤ k else key < k

instance (key : Bytes) (equal : Bool) (k : Bytes) : Decidable (Above key equal k) := by
  unfold Above
  infer_instance

section
variable {pc D d fuel : Nat} {it : Iterator} {n c : Node} {rows rest : List Row} {key k bytes : Bytes} {equal : Bool}
  {part : UInt8 → List Row}

abbrev rowsAbove (key : Bytes) (equal : Bool) (rows : List Row) : List Row :=
  rows.filter fun x => Above key equal x.1

theorem rowsAbove_all (h : ∀ x ∈ rows, key < x.1) : rowsAbove key equal rows = rows := by
  refine filter_eq_self.2 fun x hx => decide_eq_true ?_
  cases equal with
  | false => exact h x hx
  | true => exact le_of_lt (h x hx)

theorem rowsAbove_none (h : ∀ x ∈ rows, x.1 < key) : rowsAbove key equal rows = [] := by
  refine filter_eq_nil_iff.2 fun x hx => ?_
  rw [decide_eq_true_eq]
  cases equal with
  | false => exact not_lt.2 (le_of_lt (h x hx))
  | true => exact not_le.2 (h x hx)

theorem rowsAbove_eq (h : ∀ x ∈ rows, x.1 = key) : rowsAbove key equal rows = if equal then rows else [] := by
  cases equal with
  | false =>
    refine filter_eq_nil_iff.2 fun x hx => ?_
    rw [decide_eq_true_eq, h x hx]
    exact lt_irrefl key
  | true =>
    refine filter_eq_self.2 fun x hx => decide_eq_true ?_
    rw [h x hx]
    exact le_refl key

theorem comparePrefix_self (bytes t : Bytes) : comparePrefix bytes (bytes ++ t) = some .eq := by
  induction bytes with
  | nil => rfl
  | cons b bytes ih => rw [cons_append, comparePrefix, if_neg (lt_irrefl b), if_neg (lt_irrefl b), ih]

variable {q t : Bytes} {y : UInt8}

theorem comparePrefix_diff {s : Bytes} {x : UInt8} (hxy : x ≠ y) :
    comparePrefix (q ++ x :: s) (q ++ y :: t) = some (if x < y then .lt else .gt) := by
  induction q with
  | nil =>
    show (if x < y then some Ordering.lt else if y < x then some .gt else _) = _
    by_cases h : x < y
    · rw [if_pos h, if_pos h]
    · rw [if_neg h, if_neg h, if_pos (lt_of_le_of_ne (not_lt.1 h) hxy.symm)]
  | cons b q ih => rw [cons_append, cons_append, comparePrefix, if_neg (lt_irrefl b), if_neg (lt_irrefl b), ih]

/-- The iterator after a step down outside a gate. -/
abbrev descend (it : Iterator) (n : Node) (bytes : Bytes) (b : UInt8) : Iterator :=
  { it with currentKey := it.currentKey ++ bytes, nodes := (n, b) :: it.nodes }

theorem At.descend {b : UInt8} (h : At it (.outer k)) : At (descend it n bytes b) (.outer (k ++ bytes)) := by
  refine ⟨?_, h.status, h.depth, h.length, rfl⟩
  show it.currentKey ++ bytes = (k ++ bytes) ++ []
  rw [h.key, append_nil]
  exact congrArg (· ++ bytes) (append_nil k)

theorem lowerBound_chain {order : Ordering} (hcmp : comparePrefix bytes (key.drop d) = some order) :
    lowerBound key equal (fuel + 1) it (.prefixNode .notSet bytes c) d =
      if order = .lt then next fuel (descend it (.prefixNode .notSet bytes c) bytes 0)
      else if order = .gt then
        (findMinimum fuel (descend it (.prefixNode .notSet bytes c) bytes 0) c).map fun it => (true, it)
      else lowerBound key equal fuel (descend it (.prefixNode .notSet bytes c) bytes 0) c (d + bytes.length) := by
  rw [lowerBound]
  cases order <;>
    simp [hasMetadata, isAnyLeaf, getGateStatus, hcmp]

theorem lowerBound_end (hmeta : n.hasMetadata = true) (hend : n.isAnyLeaf = true ∨ n.getGateStatus = .set)
    (hkey : it.currentKey = key) :
    lowerBound key equal (fuel + 1) it n d = if equal = false then it.next fuel
      else if n.getGateStatus = .set then (findMinimum fuel it n).map fun it => (true, it)
      else some (true, { it with lastLeaf := n }) := by
  have hcontains : Iterator.contains it.currentKey key = true := by
    rw [hkey]
    simp [Iterator.contains]
  cases n <;>
    (rw [lowerBound, if_neg (by rw [hmeta]; exact nofun), if_pos hend, hcontains] <;>
      first | (cases equal <;> rfl) | exact nofun)

section
variable (hok : n.Ok) (hgate : n.getGateStatus = .notSet) {y : UInt8} (hy : key[d]? = some y)
include hok hgate hy

theorem lowerBound_node : lowerBound key equal (fuel + 1) it n d = (n.getNextChild y).elim (it.next fuel) fun e =>
    if y < e.1 then (findMinimum fuel (descend it n [e.1] e.1) e.2).map fun it => (true, it)
    else lowerBound key equal fuel (descend it n [e.1] e.1) e.2 (d + 1) := by
  rw [lowerBound, if_neg (by rw [hok.hasMetadata]; exact nofun), if_neg (by rw [hok.isAnyLeaf, hgate]; exact nofun)]
  · cases hnext : n.getNextChild y <;> simp [hy, hnext]
  · exact not_prefixNode hok

end

theorem NextSpec.of_outer {origin : Place} {result : Option (Bool × Iterator)}
    (h : NextSpec pc D (.outer k) rest result) : NextSpec pc D origin rest result :=
  h.mono fun _ _ he => he.of_outer

theorem findMinimum_next (h : Holds pc d (.outer k) n rows) (hat : At it (.outer k))
    (hstack : Stack pc D (.outer k) it.nodes rest) (hfuel : d ≤ fuel) (hD : d ≤ D) :
    NextSpec pc D (.outer k) (rows ++ rest) ((findMinimum fuel it n).map fun it => (true, it)) := by
  obtain ⟨it', hit', hon, -⟩ := findMinimum_spec h hat hstack hfuel hD
  exact ⟨true, it', by rw [hit']; rfl, hon⟩

/-- The part of the rows of an internal node at or above the key: those of the key's own byte and all later ones. -/
theorem Branches.rowsAbove (h : Branches pc d (.outer k) n part) {y : UInt8} {t : Bytes} (hkey : key = k ++ y :: t) :
    rowsAbove key equal ((bytesFrom 0).flatMap part) =
      rowsAbove key equal (part y) ++ (bytesFrom (y.toNat + 1)).flatMap part := by
  have hbelow : ∀ b x, x ∈ part b → k ++ [b] <+: x.1 := by
    intro b x hx
    obtain ⟨c, hc⟩ := Holds.exists_child h.absent hx
    exact (h.child b c hc).row_below hx
  have hprefix : k ++ [y] <+: key := ⟨t, by simp [hkey]⟩
  obtain ⟨l, hl, hlow⟩ := bytesFrom_split (Nat.zero_le y.toNat)
  have hleft : ArtIndex.rowsAbove key equal (l.flatMap part) = [] := by
    refine rowsAbove_none fun x hx => ?_
    obtain ⟨b, hb, hx⟩ := mem_flatMap.1 hx
    exact lt_of_below (hbelow b x hx) hprefix (hlow b hb).2
  have hright : ArtIndex.rowsAbove key equal ((bytesFrom (y.toNat + 1)).flatMap part) =
      (bytesFrom (y.toNat + 1)).flatMap part := by
    refine rowsAbove_all fun x hx => ?_
    obtain ⟨b, hb, hx⟩ := mem_flatMap.1 hx
    exact lt_of_below hprefix (hbelow b x hx) (UInt8.lt_iff_toNat_lt.2 (mem_bytesFrom.1 hb))
  unfold ArtIndex.rowsAbove at hleft hright ⊢
  rw [hl, flatMap_append, flatMap_cons, filter_append, filter_append, hleft, hright, nil_append]

/-- The walk to a lower bound skips exactly the rows below it. -/
theorem lowerBound_spec (h : Holds pc d (.outer k) n rows) (hat : At it (.outer k))
    (hstack : Stack pc D (.outer k) it.nodes rest) (hkey : k <+: key) (hapart : ∀ x ∈ rows, Apart x.1 key)
    (hfuel : D + d ≤ fuel) (hD : d ≤ D) :
    NextSpec pc D (.outer k) (rowsAbove key equal rows ++ rest) (lowerBound key equal fuel it n k.length) := by
  generalize hplace : outer k = place at h
  induction h generalizing it rest fuel k with
  | nestedLeaf | lastBytes => cases hplace
  | @leaf d k' r hr =>
    obtain rfl : k = k' := outer.inj hplace
    obtain ⟨fuel, rfl⟩ := exists_succ hfuel
    obtain rfl : k = key := (hapart _ mem_cons_self).1 hkey
    rw [lowerBound_end rfl (.inl rfl) (hat.key.trans (append_nil k)),
      rowsAbove_eq fun x hx => by rw [mem_singleton.1 hx]]
    cases equal with
    | false => exact nextLoop_spec hstack hat rfl (by omega)
    | true => exact ⟨true, _, rfl, _, _, rest, rfl, hat.of_eq rfl rfl rfl rfl, hstack, ⟨1, .leaf hr⟩, rfl, trivial⟩
  | @gate d k' bytes child rows hne hcap hchild ih =>
    obtain rfl : k = k' := outer.inj hplace
    obtain ⟨fuel, rfl⟩ := exists_succ hfuel
    have hrows : ∀ x ∈ rows, x.1 = k := fun x hx => (hchild.row_below hx).1
    obtain ⟨row, hrow⟩ := exists_mem_of_ne_nil _ hchild.ne_nil
    obtain rfl : k = key := by
      have := hapart row hrow
      rw [hrows row hrow] at this
      exact this.1 hkey
    rw [lowerBound_end rfl (.inr rfl) (hat.key.trans (append_nil k)), rowsAbove_eq hrows]
    cases equal with
    | false => exact nextLoop_spec hstack hat rfl (by omega)
    | true => exact findMinimum_next (.gate hne hcap hchild) hat hstack (by omega) hD
  | @chain d place bytes child rows hne hcap hchild ih =>
    subst hplace
    obtain ⟨fuel, rfl⟩ := exists_succ hfuel
    have hstack' : Stack pc D (.outer (k ++ bytes))
        (descend it (.prefixNode .notSet bytes child) bytes 0).nodes rest := .chain hstack
    have hdrop : ∀ t, key = k ++ t → key.drop k.length = t := fun t ht => by rw [ht, drop_left]
    rcases reads_cases (r := 0) hchild hkey hapart with ⟨t, ht⟩ | ⟨q, x, s, y, t, hb, ht, hxy⟩
    · have ht' : key = k ++ (bytes ++ t) := ht
      rw [lowerBound_chain (by rw [hdrop _ ht', comparePrefix_self]), if_neg (by decide), if_neg (by decide),
        ← length_append]
      refine (ih hat.descend hstack' ?_ hapart (by omega) (by omega) rfl).of_outer
      rw [ht', ← append_assoc]
      exact prefix_append _ _
    · have hprefix : (k ++ q) ++ [y] <+: key := ⟨t, by simp [show key = k ++ (q ++ y :: t) from ht]⟩
      have hcmp := comparePrefix_diff (q := q) (s := s) (t := t) hxy
      rw [← hb, ← hdrop _ ht] at hcmp
      have hbelow : ∀ row ∈ rows, (k ++ q) ++ [x] <+: row.1 := by
        intro row hrow
        have hp : k ++ bytes <+: row.1 := hchild.row_below hrow
        refine List.IsPrefix.trans ⟨s, ?_⟩ hp
        rw [hb]
        simp
      by_cases hlt : x < y
      · rw [if_pos hlt] at hcmp
        rw [lowerBound_chain hcmp, if_pos rfl, rowsAbove_none fun row hrow => lt_of_below (hbelow row hrow) hprefix hlt]
        exact (nextLoop_spec hstack' hat.descend rfl (by omega)).of_outer
      · have hgt := lt_of_le_of_ne (not_lt.1 hlt) hxy.symm
        rw [if_neg hlt] at hcmp
        rw [lowerBound_chain hcmp, if_neg (by decide), if_pos rfl,
          rowsAbove_all fun row hrow => lt_of_below hprefix (hbelow row hrow) hgt]
        exact (findMinimum_next hchild hat.descend hstack' (by omega) (by omega)).of_outer
  | @node d place n part hok hgate hchild hnone hsome ih =>
    subst hplace
    obtain ⟨fuel, rfl⟩ := exists_succ hfuel
    have hbranches : Branches pc d (.outer k) n part := ⟨hok, hgate, hchild, hnone⟩
    obtain ⟨y, t, ht⟩ := reads_byte (r := 0) (.node hok hgate hchild hnone hsome) hok hkey hapart
    have hkey' : key = k ++ y :: t := ht
    have hbyte : key[k.length]? = some y := getElem?_rest hkey'
    rw [hbranches.rowsAbove hkey', lowerBound_node hok hgate hbyte]
    cases hnext : n.getNextChild y with
    | none =>
      have hgone : ∀ b, y ≤ b → part b = [] := fun b hb => hnone b (getNextChild_none hok hnext hb)
      rw [hgone y (le_refl y), flatMap_bytesFrom_nil fun b hb =>
        hgone b (UInt8.le_iff_toNat_le.2 (by omega))]
      exact nextLoop_spec hstack hat rfl (by omega)
    | some e =>
      obtain ⟨b, c⟩ := e
      have hc := getNextChild_some hok hnext
      have hstack' : Stack pc D (.outer (k ++ [b])) (descend it n [b] b).nodes
          ((bytesFrom (b.toNat + 1)).flatMap part ++ rest) := .node hstack (by omega) hbranches
      have hchild' : Holds pc d (.outer (k ++ [b])) c (part b) := hchild b c hc.getChild
      rw [Option.elim_some]
      by_cases hlt : y < b
      · have hnil : part y = [] := hnone y (hc.skipped y (le_refl y) hlt)
        have hrows : (bytesFrom (y.toNat + 1)).flatMap part = part b ++ (bytesFrom (b.toNat + 1)).flatMap part :=
          flatMap_bytesFrom_next (UInt8.lt_iff_toNat_lt.1 hlt) fun b' hb' hlt' =>
            hnone b' (hc.skipped b' (UInt8.le_iff_toNat_le.2 (by omega)) hlt')
        rw [if_pos hlt, hnil, hrows, append_assoc, append_assoc]
        exact (findMinimum_next hchild' hat.descend hstack' (by omega) (by omega)).of_outer
      · obtain rfl : y = b := le_antisymm hc.le (not_lt.1 hlt)
        rw [if_neg hlt, append_assoc]
        have hlen : k.length + 1 = (k ++ [y]).length := by rw [length_append, length_singleton]
        rw [hlen]
        refine (ih y c hc.getChild hat.descend hstack' ?_ (fun x hx => hapart x (mem_flatMap_bytes.2 ⟨y, hx⟩))
          (by omega) (by omega) rfl).of_outer
        rw [hkey']
        exact ⟨t, by simp⟩

end

end Paro.L3.ArtIndex
