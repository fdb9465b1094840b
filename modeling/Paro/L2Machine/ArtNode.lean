import Paro.L1Encoding.ArtKey

/-!
# Nodes of the adaptive radix tree

`index/art/{node,internal_node,leaf}.rs`: a node is an inlined row id, a prefix, an internal node of one of four
sizes, or a leaf of one of three sizes that holds last row-id bytes. Pointers into the fixed-size allocators are
the subtrees they lead to; a cleared pointer is `empty`.

* `getChild_insertChild`, `getChild_replaceChild`: whatever its size and whether it grows, an internal node is a
  map from bytes to children.
* `getNextChild_spec`: its children are walked in ascending byte order.
* `mem_insertLeafByte`: the leaves of last bytes are ascending sets of bytes.
-/
namespace Paro.L2.Art

open BytePath List Option SortedList

inductive GateStatus where
  | notSet
  | set
  deriving DecidableEq, Repr

/-- `Node4` and `Node16` keep their keys and children in two sorted arrays, `Node48` an index of 256 slots (48 is
`EMPTY_MARKER`) into 48 children, `Node256` one child for each byte. `Node7Leaf` and `Node15Leaf` keep sorted
bytes, `Node256Leaf` a mask. The deprecated linked leaf is never built. -/
inductive Node where
  | empty
  | leafInlined (rowId : Nat)
  | prefixNode (gate : GateStatus) (bytes : List UInt8) (child : Node)
  | node4 (gate : GateStatus) (entries : List (UInt8 × Node))
  | node16 (gate : GateStatus) (entries : List (UInt8 × Node))
  | node48 (gate : GateStatus) (count : Nat) (childIndex : UInt8 → Nat) (children : List Node)
  | node256 (gate : GateStatus) (count : Nat) (children : List Node)
  | node7Leaf (gate : GateStatus) (bytes : List UInt8)
  | node15Leaf (gate : GateStatus) (bytes : List UInt8)
  | node256Leaf (gate : GateStatus) (count : Nat) (mask : UInt8 → Bool)

open Prod

namespace Node

/-- node.rs:245-247 -/
def hasMetadata : Node → Bool
  | empty => false
  | _ => true

/-- node.rs:292-294 and 108-117 -/
def isAnyLeaf : Node → Bool
  | leafInlined _ | node7Leaf .. | node15Leaf .. | node256Leaf .. => true
  | _ => false

/-- node.rs:300-306; an inlined leaf never carries the bit (314-317). -/
def getGateStatus : Node → GateStatus
  | empty | leafInlined _ => .notSet
  | prefixNode g .. | node4 g .. | node16 g .. | node48 g .. | node256 g .. | node7Leaf g .. | node15Leaf g ..
  | node256Leaf g .. => g

/-- node.rs:310-324 -/
def setGateStatus (status : GateStatus) : Node → Node
  | empty => empty
  | leafInlined r => leafInlined r
  | prefixNode _ bytes child => prefixNode status bytes child
  | node4 _ entries => node4 status entries
  | node16 _ entries => node16 status entries
  | node48 _ count childIndex children => node48 status count childIndex children
  | node256 _ count children => node256 status count children
  | node7Leaf _ bytes => node7Leaf status bytes
  | node15Leaf _ bytes => node15Leaf status bytes
  | node256Leaf _ count mask => node256Leaf status count mask

/-- `Leaf::new`, see leaf.rs:55-63 and node.rs:339-342: the low 56 bits are kept. -/
def newLeaf (rowId : Nat) : Node := leafInlined (rowId % 2 ^ 56)

/-! ## Reading children -/

def present (child : Node) : Option Node := if child.hasMetadata then some child else none

variable (node : Node) (byte : UInt8)

/-- `get_child_copy`, see art.rs:732-756 and internal_node.rs:147-166, 495-513, 861-877, 1183-1195 -/
def getChild : Option Node :=
  match node with
  | node4 _ entries | node16 _ entries => (entries.find? fun e => e.1 = byte).bind fun e => present e.2
  | node48 _ _ childIndex children =>
    if childIndex byte ≠ 48 then present (children.getD (childIndex byte) empty) else none
  | node256 _ _ children => present (children.getD byte.toNat empty)
  | _ => none

/-- iterator.rs:518-538 and internal_node.rs:180-196, 527-543, 889-904, 1207-1222: the first child at or
after the byte, with its own byte -/
def getNextChild : Option (UInt8 × Node) :=
  match node with
  | node4 _ entries | node16 _ entries => entries.find? fun e => byte ≤ e.1
  | node48 _ _ childIndex children =>
    ((bytesFrom byte.toNat).find? fun i => childIndex i ≠ 48).map fun i => (i, children.getD (childIndex i) empty)
  | node256 _ _ children =>
    ((bytesFrom byte.toNat).find? fun i => (children.getD i.toNat empty).hasMetadata).map
      fun i => (i, children.getD i.toNat empty)
  | _ => none

/-! ## Writing children -/

/-- Sorted insertion into the arrays of a small node: `insert_child_internal` (internal_node.rs:214-232,
561-579) and `insert_byte_internal` (leaf.rs:473-491, 705-723). -/
def insertInternal {α : Type} (key : α → UInt8) (a : α) : List α → List α
  | [] => [a]
  | b :: l => if key b < key a then b :: insertInternal key a l else a :: b :: l

def replaced (old child : Node) : Node :=
  if old.getGateStatus = .set ∧ child.hasMetadata then child.setGateStatus .set else child

/-- The first entry of the byte gets the new child, see internal_node.rs:199-211 and 546-558. -/
def replaceEntry (byte : UInt8) (child : Node) : List (UInt8 × Node) → List (UInt8 × Node)
  | [] => []
  | e :: l => if e.1 = byte then (byte, replaced e.2 child) :: l else e :: replaceEntry byte child l

/-- art.rs:759-784 and internal_node.rs:907-915, 1225-1231 -/
def replaceChild (child : Node) : Node :=
  match node with
  | node4 g entries => node4 g (replaceEntry byte child entries)
  | node16 g entries => node16 g (replaceEntry byte child entries)
  | node48 g count childIndex children =>
    node48 g count childIndex
      (children.set (childIndex byte) (replaced (children.getD (childIndex byte) empty) child))
  | node256 g count children =>
    node256 g count (children.set byte.toNat (replaced (children.getD byte.toNat empty) child))
  | node => node

/-- `Node48::insert_child` below capacity, see internal_node.rs:918-941: the slot at `count`, or the first
free one when that is taken. -/
def insertNode48 (g : GateStatus) (count : Nat) (childIndex : UInt8 → Nat) (children : List Node) (byte : UInt8)
    (child : Node) : Node :=
  let pos := if (children.getD count empty).hasMetadata then children.findIdx fun c => !c.hasMetadata else count
  node48 g (count + 1) (fun b => if b = byte then pos else childIndex b) (children.set pos child)

/-- internal_node.rs:1234-1244 -/
def insertNode256 (g : GateStatus) (count : Nat) (children : List Node) (byte : UInt8) (child : Node) : Node :=
  node256 g (count + 1) (children.set byte.toNat child)

/-- The slot of a byte in a node grown from sorted arrays, see internal_node.rs:1010-1014 -/
def indexOf (entries : List (UInt8 × Node)) (byte : UInt8) : Nat :=
  match entries.findIdx? fun e => e.1 = byte with
  | some i => i
  | none => 48

/-- The children of a node grown from an index, see internal_node.rs:1284-1289 -/
def spread (childIndex : UInt8 → Nat) (children : List Node) : List Node :=
  (bytesFrom 0).map fun i => if childIndex i ≠ 48 then children.getD (childIndex i) empty else empty

/-- art.rs:598-659; a full node grows to the next size first. `none` is the panic on other types. -/
def insertChild (child : Node) : Option Node :=
  match node with
  | node4 g entries =>
    if entries.length < 4 then some (node4 g (insertInternal Prod.fst (byte, child) entries))
    else some (node16 g (insertInternal Prod.fst (byte, child) entries))
  | node16 g entries =>
    if entries.length < 16 then some (node16 g (insertInternal Prod.fst (byte, child) entries))
    else some (insertNode48 g entries.length (indexOf entries)
      (entries.map Prod.snd ++ replicate (48 - entries.length) empty) byte child)
  | node48 g count childIndex children =>
    if count < 48 then some (insertNode48 g count childIndex children byte child)
    else some (insertNode256 g count (spread childIndex children) byte child)
  | node256 g count children => some (insertNode256 g count children byte child)
  | _ => none

/-! ## Leaves of last bytes -/

/-- art.rs:662-729 -/
def insertLeafByte : Option Node :=
  match node with
  | node7Leaf g bytes =>
    if bytes.length < 7 then some (node7Leaf g (insertInternal id byte bytes))
    else some (node15Leaf g (insertInternal id byte bytes))
  | node15Leaf g bytes =>
    if bytes.length < 15 then some (node15Leaf g (insertInternal id byte bytes))
    else some (node256Leaf g (bytes.length + 1) fun b => b = byte ∨ b ∈ bytes)
  | node256Leaf g count mask => some (node256Leaf g (count + 1) fun b => b = byte ∨ mask b)
  | _ => none

/-- iterator.rs:541-572 and leaf.rs:461-470, 693-702, 978-985 -/
def getNextByte : Option UInt8 :=
  match node with
  | node7Leaf _ bytes | node15Leaf _ bytes => bytes.find? fun b => byte ≤ b
  | node256Leaf _ _ mask => (bytesFrom byte.toNat).find? mask
  | _ => none

/-! ## Sorted arrays -/

section
variable {α : Type} {key : α → UInt8} {a b : α} {l : List α}

theorem insertInternal_eq (h : ∀ b ∈ l, key b ≠ key a) : insertInternal key a l = insertBy key a l := by
  induction l with
  | nil => rfl
  | cons b l ih =>
    have hne := h b mem_cons_self
    unfold insertInternal insertBy
    by_cases hlt : key b < key a
    · rw [if_pos hlt, if_neg (not_lt.2 (le_of_lt hlt)), if_pos hlt, ih fun c hc => h c (mem_cons_of_mem _ hc)]
    · rw [if_neg hlt, if_pos (lt_of_le_of_ne (not_lt.1 hlt) hne.symm)]

theorem sorted_insertInternal (hl : Sorted key l) (h : ∀ b ∈ l, key b ≠ key a) :
    Sorted key (insertInternal key a l) := by
  rw [insertInternal_eq h]
  exact sorted_insertBy hl

theorem perm_insertInternal : (insertInternal key a l).Perm (a :: l) := by
  induction l with
  | nil => exact List.Perm.refl _
  | cons b l ih =>
    unfold insertInternal
    split
    · exact (ih.cons b).trans (List.Perm.swap a b l)
    · exact List.Perm.refl _

theorem mem_insertInternal : b ∈ insertInternal key a l ↔ b = a ∨ b ∈ l :=
  perm_insertInternal.mem_iff.trans mem_cons

theorem length_insertInternal : (insertInternal key a l).length = l.length + 1 :=
  perm_insertInternal.length_eq

end

/-! ## Internal nodes are maps -/

@[simp] theorem hasMetadata_setGateStatus (s : GateStatus) (n : Node) :
    (n.setGateStatus s).hasMetadata = n.hasMetadata := by
  cases n <;> rfl

@[simp] theorem hasMetadata_replaced (old n : Node) : (replaced old n).hasMetadata = n.hasMetadata := by
  unfold replaced
  split <;> simp

theorem present_eq_some {n c : Node} : present n = some c ↔ n = c ∧ c.hasMetadata = true := by
  unfold present
  split
  · rename_i h
    rw [some.injEq]
    exact ⟨fun heq => ⟨heq, heq ▸ h⟩, And.left⟩
  · rename_i h
    refine ⟨fun hn => (some_ne_none _ hn.symm).elim, fun hn => absurd hn.2 ?_⟩
    rwa [← hn.1]

theorem present_of (n : Node) (h : n.hasMetadata = true) : present n = some n := present_eq_some.2 ⟨rfl, h⟩

structure Entries (entries : List (UInt8 × Node)) : Prop where
  sorted : SortedList.Sorted Prod.fst entries
  filled : ∀ e ∈ entries, e.2.hasMetadata = true

/-- The index of `Node48`: the first `count` slots are taken, by one byte each. -/
structure Indexed (count : Nat) (childIndex : UInt8 → Nat) (children : List Node) : Prop where
  slots : children.length = 48
  bound : count ≤ 48
  filled : ∀ i, i < count → (children.getD i empty).hasMetadata = true
  free : ∀ i, count ≤ i → children.getD i empty = empty
  index : ∀ b, childIndex b = 48 ∨ childIndex b < count
  inj : ∀ b c, childIndex b ≠ 48 → childIndex b = childIndex c → b = c

def Ok : Node → Prop
  | node4 _ entries => Entries entries ∧ entries.length ≤ 4
  | node16 _ entries => Entries entries ∧ entries.length ≤ 16
  | node48 _ count childIndex children => Indexed count childIndex children
  | node256 _ _ children => children.length = 256
  | _ => False

theorem Ok.isAnyLeaf {n : Node} (h : n.Ok) : n.isAnyLeaf = false := by
  cases n <;> first | rfl | exact h.elim

theorem Ok.hasMetadata {n : Node} (h : n.Ok) : n.hasMetadata = true := by
  cases n <;> first | rfl | exact h.elim

section
variable {entries : List (UInt8 × Node)} {byte b : UInt8} {child c : Node}

abbrev entryChild (entries : List (UInt8 × Node)) (byte : UInt8) : Option Node :=
  (entries.find? fun e => e.1 = byte).bind fun e => present e.2

section
variable (h : Entries entries)
include h

theorem Entries.entryChild_eq_some : entryChild entries byte = some c ↔ (byte, c) ∈ entries := by
  unfold entryChild
  constructor
  · intro hc
    obtain ⟨e, he, hp⟩ := bind_eq_some_iff.1 hc
    have hkey : e.1 = byte := by simpa using find?_some he
    have hmem := mem_of_find?_eq_some he
    rw [← (present_eq_some.1 hp).1, ← hkey]
    exact hmem
  · intro hc
    cases hf : entries.find? fun e => e.1 = byte with
    | none => exact absurd (find?_eq_none.1 hf _ hc) (by simp)
    | some e =>
      have hkey : e.1 = byte := by simpa using find?_some hf
      have heq : e = (byte, c) := h.sorted.eq_of_key (mem_of_find?_eq_some hf) hc hkey
      rw [heq]
      exact present_of c (h.filled _ hc)

theorem Entries.entryChild_eq_none : entryChild entries byte = none ↔ ∀ e ∈ entries, e.1 ≠ byte := by
  rw [eq_none_iff_forall_ne_some]
  constructor
  · intro hnone e he hkey
    exact hnone e.2 (h.entryChild_eq_some.2 (by rw [← hkey]; exact he))
  · intro hne c hc
    exact hne _ (h.entryChild_eq_some.1 hc) rfl

theorem Entries.insert (hfree : entryChild entries byte = none)
    (hchild : child.hasMetadata = true) : Entries (insertInternal fst (byte, child) entries) where
  sorted := sorted_insertInternal h.sorted (h.entryChild_eq_none.1 hfree)
  filled := by
    intro e he
    rcases mem_insertInternal.1 he with rfl | he
    · exact hchild
    · exact h.filled e he

theorem Entries.entryChild_insert (hfree : entryChild entries byte = none) (hchild : child.hasMetadata = true) :
    entryChild (insertInternal fst (byte, child) entries) b =
      if b = byte then some child else entryChild entries b := by
  apply Option.ext
  intro c
  rw [(h.insert hfree hchild).entryChild_eq_some, mem_insertInternal, mk.injEq]
  split
  · rename_i hb
    have hold : (byte, c) ∉ entries := fun hc => h.entryChild_eq_none.1 hfree _ hc rfl
    rw [some.injEq, hb, or_iff_left hold, and_iff_right rfl, eq_comm]
  · rename_i hb
    rw [h.entryChild_eq_some]
    exact ⟨fun hc => hc.resolve_left fun heq => hb heq.1, .inr⟩

end

theorem Entries.replaceEntry_eq (h : Entries entries) : replaceEntry byte child entries =
    entries.map fun e => (e.1, if e.1 = byte then replaced e.2 child else e.2) := by
  obtain ⟨hsorted, -⟩ := h
  induction entries with
  | nil => rfl
  | cons d l ih =>
    obtain ⟨hd, hl⟩ := pairwise_cons.1 hsorted
    unfold replaceEntry
    split
    · rename_i heq
      have hrest : ∀ e ∈ l, (e.1, if e.1 = byte then replaced e.2 child else e.2) = e := fun e he => by
        rw [if_neg (heq ▸ (hd e he).ne')]
      rw [map_cons, if_pos heq, map_congr_left hrest, List.map_id', heq]
    · rename_i hne
      rw [map_cons, if_neg hne, ih hl]

theorem Entries.replace (h : Entries entries) (hchild : child.hasMetadata = true) :
    Entries (replaceEntry byte child entries) := by
  rw [h.replaceEntry_eq]
  refine ⟨pairwise_map.2 h.sorted, forall_mem_map.2 fun e he => ?_⟩
  dsimp only
  split
  · rw [hasMetadata_replaced, hchild]
  · exact h.filled e he

theorem Entries.entryChild_replace (h : Entries entries) (hchild : child.hasMetadata = true)
    (hold : entryChild entries byte = some c) :
    entryChild (replaceEntry byte child entries) b =
      if b = byte then some (replaced c child) else entryChild entries b := by
  have hr : Entries (replaceEntry byte child entries) := h.replace hchild
  split
  · rename_i hb
    rw [hr.entryChild_eq_some, h.replaceEntry_eq]
    exact mem_map.2 ⟨_, h.entryChild_eq_some.1 hold, by rw [if_pos rfl, hb]⟩
  · rename_i hb
    apply Option.ext
    intro d
    rw [hr.entryChild_eq_some, h.entryChild_eq_some, h.replaceEntry_eq, List.mem_map]
    constructor
    · rintro ⟨e, he, heq⟩
      obtain ⟨rfl, rfl⟩ := mk.inj heq
      rwa [if_neg hb]
    · exact fun hd => ⟨_, hd, by rw [if_neg hb]⟩

end

section
variable {g : GateStatus} {count : Nat} {childIndex : UInt8 → Nat} {children : List Node} {byte b : UInt8}
  {child c : Node}

theorem getD_set (l : List Node) (i j : Nat) (n : Node) :
    (l.set i n).getD j empty = if i = j ∧ j < l.length then n else l.getD j empty := by
  rw [getD_eq_getElem?_getD, getD_eq_getElem?_getD, getElem?_set]
  by_cases hij : i = j
  · subst hij
    by_cases hi : i < l.length
    · simp [hi]
    · simp [hi]
  · simp [hij]

abbrev slotChild (childIndex : UInt8 → Nat) (children : List Node) (byte : UInt8) : Option Node :=
  if childIndex byte ≠ 48 then present (children.getD (childIndex byte) empty) else none

section
variable (h : Indexed count childIndex children)
include h

namespace Indexed

theorem slotChild_eq_some :
    slotChild childIndex children b = some c ↔ childIndex b ≠ 48 ∧ children.getD (childIndex b) empty = c := by
  unfold slotChild
  split
  · rename_i hne
    have hfilled := h.filled _ ((h.index b).resolve_left hne)
    rw [present_of _ hfilled, some.injEq]
    exact ⟨fun heq => ⟨hne, heq⟩, And.right⟩
  · rename_i hne
    exact ⟨fun heq => (some_ne_none _ heq.symm).elim, fun hc => absurd hc.1 hne⟩

theorem slotChild_eq_none : slotChild childIndex children b = none ↔ childIndex b = 48 := by
  rw [eq_none_iff_forall_ne_some]
  constructor
  · intro hnone
    by_contra hne
    exact hnone _ (h.slotChild_eq_some.2 ⟨hne, rfl⟩)
  · intro heq c hc
    exact (h.slotChild_eq_some.1 hc).1 heq

/-- Below capacity the child goes to the slot at `count`. -/
theorem insertNode48_eq : insertNode48 g count childIndex children byte child =
      node48 g (count + 1) (fun b => if b = byte then count else childIndex b) (children.set count child) := by
  unfold insertNode48
  rw [h.free count le_rfl]
  rfl

theorem insert (hcount : count < 48) (hchild : child.hasMetadata = true) :
    Indexed (count + 1) (fun b => if b = byte then count else childIndex b) (children.set count child) where
  slots := by rw [length_set, h.slots]
  bound := hcount
  filled := by
    intro i hi
    rw [getD_set]
    split
    · exact hchild
    · rename_i hne
      refine h.filled i (lt_of_le_of_ne (Nat.lt_succ_iff.1 hi) fun heq => hne ⟨heq.symm, ?_⟩)
      rw [h.slots]
      omega
  free := by
    intro i hi
    rw [getD_set, if_neg fun hc => by omega]
    exact h.free i (by omega)
  index := by
    intro b
    split
    · exact .inr (Nat.lt_succ_self _)
    · exact (h.index b).imp_right fun hlt => Nat.lt_succ_of_lt hlt
  inj := by
    intro b c hb heq
    by_cases h1 : b = byte <;> by_cases h2 : c = byte
    · rw [h1, h2]
    · rw [if_pos h1, if_neg h2] at heq
      rcases h.index c with hc | hc <;> omega
    · rw [if_neg h1, if_pos h2] at heq
      rw [if_neg h1] at hb
      rcases h.index b with hc | hc <;> omega
    · rw [if_neg h1, if_neg h2] at heq
      rw [if_neg h1] at hb
      exact h.inj b c hb heq

theorem slotChild_insert (hcount : count < 48) (hchild : child.hasMetadata = true) :
    slotChild (fun b => if b = byte then count else childIndex b) (children.set count child) b =
      if b = byte then some child else slotChild childIndex children b := by
  unfold slotChild
  by_cases hb : b = byte
  · simp only [if_pos hb]
    rw [if_pos (by omega), getD_set, if_pos ⟨rfl, by rw [h.slots]; exact hcount⟩, present_of child hchild]
  simp only [if_neg hb]
  rw [getD_set]
  by_cases hne : childIndex b ≠ 48
  · have hlt := (h.index b).resolve_left hne
    rw [if_pos hne, if_pos hne, if_neg fun hc => by omega]
  · rw [if_neg hne, if_neg hne]

theorem replace (hbyte : childIndex byte ≠ 48) (hchild : child.hasMetadata = true) :
    Indexed count childIndex (children.set (childIndex byte) child) where
  __ := h
  slots := by rw [length_set, h.slots]
  filled := by
    intro i hi
    rw [getD_set]
    split
    · exact hchild
    · exact h.filled i hi
  free := by
    intro i hi
    have hlt := (h.index byte).resolve_left hbyte
    rw [getD_set, if_neg fun hc => by omega]
    exact h.free i hi

theorem slotChild_replace (hbyte : childIndex byte ≠ 48) (hchild : child.hasMetadata = true) :
    slotChild childIndex (children.set (childIndex byte) child) b =
      if b = byte then some child else slotChild childIndex children b := by
  have hlt := (h.index byte).resolve_left hbyte
  have hslots := h.slots
  have hbound := h.bound
  unfold slotChild
  by_cases hb : b = byte
  · rw [if_pos hb, hb, if_pos hbyte, getD_set, if_pos ⟨rfl, by omega⟩, present_of child hchild]
  · have hne : ¬ (childIndex byte = childIndex b ∧ childIndex b < children.length) :=
      fun hc => hb (h.inj byte b hbyte hc.1).symm
    rw [if_neg hb, getD_set, if_neg hne]

end Indexed

end

theorem getD_map_bytesFrom (f : UInt8 → Node) (b : UInt8) : ((bytesFrom 0).map f).getD b.toNat empty = f b := by
  have hget : (bytesFrom 0)[b.toNat]? = some b := by
    have hb := b.toNat_lt
    rw [bytesFrom, getElem?_map, getElem?_range' (by omega), zero_add, one_mul, map_some, UInt8.ofNat_toNat]
  rw [getD_eq_getElem?_getD, getElem?_map, hget]
  rfl

theorem length_spread : (spread childIndex children).length = 256 := by
  rw [spread, length_map, bytesFrom, length_map, length_range']

theorem present_spread : present ((spread childIndex children).getD b.toNat empty) =
    slotChild childIndex children b := by
  rw [spread, getD_map_bytesFrom]
  unfold slotChild
  split
  · rfl
  · rfl

theorem present_set256 (hlen : children.length = 256) (hchild : child.hasMetadata = true) :
    present ((children.set byte.toNat child).getD b.toNat empty) =
      if b = byte then some child else present (children.getD b.toNat empty) := by
  have hb := b.toNat_lt
  rw [getD_set]
  by_cases heq : b = byte
  · rw [if_pos heq, heq, if_pos ⟨rfl, by rw [← heq]; omega⟩, present_of child hchild]
  · rw [if_neg heq, if_neg fun hc => heq (UInt8.toNat_inj.1 hc.1).symm]

end

section
variable {entries : List (UInt8 × Node)} {byte b : UInt8}

abbrev grown (entries : List (UInt8 × Node)) : List Node :=
  entries.map Prod.snd ++ replicate (48 - entries.length) empty

theorem getD_grown {i : Nat} : (grown entries).getD i empty = ((entries[i]?).map snd).getD empty := by
  rw [getD_eq_getElem?_getD, getElem?_append]
  split
  · rw [getElem?_map]
  · rename_i hi
    rw [length_map] at hi
    rw [getElem?_eq_none (Nat.le_of_not_lt hi), getElem?_replicate]
    split <;> rfl

theorem indexOf_cases (entries : List (UInt8 × Node)) (b : UInt8) : (indexOf entries b = 48 ∧ ∀ e ∈ entries, e.1 ≠ b) ∨
    (indexOf entries b < entries.length ∧ ∃ c, entries[indexOf entries b]? = some (b, c)) := by
  unfold indexOf
  cases hf : entries.findIdx? fun e => e.1 = b with
  | none => exact .inl ⟨rfl, fun e he => by simpa using findIdx?_eq_none_iff.1 hf e he⟩
  | some i =>
    obtain ⟨hi, hkey, -⟩ := findIdx?_eq_some_iff_getElem.1 hf
    refine .inr ⟨hi, entries[i].2, ?_⟩
    rw [getElem?_eq_getElem hi]
    simp only [decide_eq_true_eq] at hkey
    rw [← hkey]

theorem Entries.indexed (h : Entries entries) (hlen : entries.length ≤ 16) :
    Indexed entries.length (indexOf entries) (grown entries) where
  slots := by
    rw [length_append, length_map, length_replicate]
    omega
  bound := by omega
  filled := by
    intro i hi
    rw [getD_grown, getElem?_eq_getElem hi]
    exact h.filled _ (getElem_mem hi)
  free := by
    intro i hi
    rw [getD_grown, getElem?_eq_none hi]
    rfl
  index := fun b => (indexOf_cases entries b).imp And.left And.left
  inj := by
    intro b c hb heq
    obtain ⟨-, d, hd⟩ := (indexOf_cases entries b).resolve_left fun h' => hb h'.1
    obtain ⟨-, d', hd'⟩ := (indexOf_cases entries c).resolve_left fun h' => hb (heq.trans h'.1)
    rw [heq, hd'] at hd
    exact (congrArg fst (some.inj hd)).symm

theorem Entries.slotChild_grown (h : Entries entries) (hlen : entries.length ≤ 16) :
    slotChild (indexOf entries) (grown entries) b = entryChild entries b := by
  rcases indexOf_cases entries b with hc | hc
  · rw [(h.indexed hlen).slotChild_eq_none.2 hc.1, h.entryChild_eq_none.2 hc.2]
  obtain ⟨hi, c, hget⟩ := hc
  rw [h.entryChild_eq_some.2 (mem_of_getElem? hget)]
  refine (h.indexed hlen).slotChild_eq_some.2 ⟨by omega, ?_⟩
  rw [getD_grown, hget]
  rfl

end

section
variable {n : Node} {byte b : UInt8} {child c : Node}

structure Inserted (n : Node) (byte : UInt8) (child m : Node) : Prop where
  ok : m.Ok
  gate : m.getGateStatus = n.getGateStatus
  getChild : ∀ b, m.getChild b = if b = byte then some child else n.getChild b

theorem insertChild_spec (h : n.Ok) (hfree : n.getChild byte = none) (hchild : child.hasMetadata = true) :
    ∃ m, n.insertChild byte child = some m ∧ Inserted n byte child m := by
  cases n with
  | node4 g entries =>
    obtain ⟨he, hlen⟩ := h
    have hl : (insertInternal fst (byte, child) entries).length = entries.length + 1 := length_insertInternal
    have hins := he.insert hfree hchild
    by_cases hroom : entries.length < 4
    · exact ⟨node4 g _, if_pos hroom, ⟨hins, by omega⟩, rfl, fun b => he.entryChild_insert hfree hchild⟩
    · exact ⟨node16 g _, if_neg hroom, ⟨hins, by omega⟩, rfl, fun b => he.entryChild_insert hfree hchild⟩
  | node16 g entries =>
    obtain ⟨he, hlen⟩ := h
    have hl : (insertInternal fst (byte, child) entries).length = entries.length + 1 := length_insertInternal
    by_cases hroom : entries.length < 16
    · exact ⟨node16 g _, if_pos hroom, ⟨he.insert hfree hchild, by omega⟩, rfl,
        fun b => he.entryChild_insert hfree hchild⟩
    have hi := he.indexed hlen
    refine ⟨_, (if_neg hroom).trans (congrArg some hi.insertNode48_eq), hi.insert (by omega) hchild, rfl, fun b => ?_⟩
    refine (hi.slotChild_insert (by omega) hchild).trans ?_
    rw [he.slotChild_grown hlen]
    rfl
  | node48 g count childIndex children =>
    have hi : Indexed count childIndex children := h
    by_cases hroom : count < 48
    · exact ⟨_, (if_pos hroom).trans (congrArg some hi.insertNode48_eq), hi.insert hroom hchild, rfl,
        fun b => hi.slotChild_insert hroom hchild⟩
    refine ⟨_, if_neg hroom, ?_, rfl, fun b => (present_set256 length_spread hchild).trans ?_⟩
    · show (set _ _ _).length = 256
      rw [length_set, length_spread]
    · rw [present_spread]
      rfl
  | node256 g count children =>
    have hlen : children.length = 256 := h
    refine ⟨_, rfl, ?_, rfl, fun b => present_set256 hlen hchild⟩
    show (set _ _ _).length = 256
    rw [length_set, hlen]
  | _ => exact h.elim

theorem replaceChild_spec (h : n.Ok) (hold : n.getChild byte = some c) (hchild : child.hasMetadata = true) :
    Inserted n byte (replaced c child) (n.replaceChild byte child) := by
  have hr : (replaced c child).hasMetadata = true := by rw [hasMetadata_replaced, hchild]
  cases n with
  | node4 g entries | node16 g entries =>
    exact ⟨⟨h.1.replace hchild, by rw [h.1.replaceEntry_eq, length_map]; exact h.2⟩, rfl,
      fun b => h.1.entryChild_replace hchild hold⟩
  | node48 g count childIndex children =>
    have hi : Indexed count childIndex children := h
    obtain ⟨hne, rfl⟩ := hi.slotChild_eq_some.1 hold
    exact ⟨hi.replace hne hr, rfl, fun b => hi.slotChild_replace hne hr⟩
  | node256 g count children =>
    have hlen : children.length = 256 := h
    obtain ⟨rfl, -⟩ := present_eq_some.1 hold
    refine ⟨?_, rfl, fun b => present_set256 hlen hr⟩
    show (set _ _ _).length = 256
    rw [length_set, hlen]
  | _ => exact h.elim

/-- The children of a node are found in ascending order: nothing lies between `byte` and the child returned. -/
structure NextChild (n : Node) (byte b : UInt8) (c : Node) : Prop where
  le : byte ≤ b
  getChild : n.getChild b = some c
  skipped : ∀ d, byte ≤ d → d < b → n.getChild d = none

theorem sorted_bytesFrom (m : Nat) : Sorted id (bytesFrom m) := by
  rw [Sorted, bytesFrom, pairwise_map]
  refine List.Pairwise.imp_of_mem ?_ (pairwise_lt_range' 1 (by decide))
  intro i j hi hj hij
  rw [mem_range'_1] at hi hj
  show UInt8.ofNat i < UInt8.ofNat j
  rw [UInt8.lt_iff_toNat_lt, UInt8.toNat_ofNat_of_lt' (show i < 2 ^ 8 by omega),
    UInt8.toNat_ofNat_of_lt' (show j < 2 ^ 8 by omega)]
  exact hij

theorem find?_bytesFrom {p : UInt8 → Bool} (hf : (bytesFrom byte.toNat).find? p = some b) :
    byte ≤ b ∧ p b = true ∧ ∀ d, byte ≤ d → d < b → p d = false := by
  refine ⟨UInt8.le_iff_toNat_le.2 (mem_bytesFrom.1 (mem_of_find?_eq_some hf)), find?_some hf, fun d hd hlt => ?_⟩
  exact (sorted_bytesFrom _).find?_first hf (mem_bytesFrom.2 (UInt8.le_iff_toNat_le.1 hd)) hlt

variable {entries : List (UInt8 × Node)}

theorem Entries.nextChild (h : Entries entries) (hf : (entries.find? fun e => byte ≤ e.1) = some (b, c)) :
    byte ≤ b ∧ entryChild entries b = some c ∧ ∀ d, byte ≤ d → d < b → entryChild entries d = none := by
  refine ⟨by simpa using find?_some hf, h.entryChild_eq_some.2 (mem_of_find?_eq_some hf),
    fun d hd hlt => h.entryChild_eq_none.2 fun e he heq => ?_⟩
  exact absurd (heq ▸ hd) (of_decide_eq_false (h.sorted.find?_first hf he (heq ▸ hlt)))

theorem getNextChild_some (h : n.Ok) (hnext : n.getNextChild byte = some (b, c)) : NextChild n byte b c := by
  cases n with
  | node4 g entries | node16 g entries =>
    obtain ⟨h1, h2, h3⟩ := h.1.nextChild hnext
    exact ⟨h1, h2, h3⟩
  | node48 g count childIndex children =>
    have hi : Indexed count childIndex children := h
    obtain ⟨i, hf, heq⟩ := map_eq_some_iff.1 hnext
    rw [mk.injEq] at heq
    obtain ⟨rfl, rfl⟩ := heq
    obtain ⟨h1, h2, h3⟩ := find?_bytesFrom hf
    refine ⟨h1, hi.slotChild_eq_some.2 ⟨by simpa using h2, rfl⟩, fun d hd hlt => hi.slotChild_eq_none.2 ?_⟩
    simpa using h3 d hd hlt
  | node256 g count children =>
    obtain ⟨i, hf, heq⟩ := map_eq_some_iff.1 hnext
    rw [mk.injEq] at heq
    obtain ⟨rfl, rfl⟩ := heq
    obtain ⟨h1, h2, h3⟩ := find?_bytesFrom hf
    refine ⟨h1, present_of _ h2, fun d hd hlt => ?_⟩
    show present _ = none
    unfold present
    rw [h3 d hd hlt]
    rfl
  | _ => exact h.elim

theorem getNextChild_none (h : n.Ok) (hnext : n.getNextChild byte = none) (hb : byte ≤ b) : n.getChild b = none := by
  cases n with
  | node4 g entries | node16 g entries =>
    refine h.1.entryChild_eq_none.2 fun e he heq => ?_
    have := find?_eq_none.1 hnext e he
    rw [heq] at this
    exact this (by simpa using hb)
  | node48 g count childIndex children =>
    have hi : Indexed count childIndex children := h
    have hf := find?_eq_none.1 (map_eq_none_iff.1 hnext) b (mem_bytesFrom.2 (UInt8.le_iff_toNat_le.1 hb))
    exact hi.slotChild_eq_none.2 (by simpa using hf)
  | node256 g count children =>
    have hf := find?_eq_none.1 (map_eq_none_iff.1 hnext) b (mem_bytesFrom.2 (UInt8.le_iff_toNat_le.1 hb))
    show present _ = none
    unfold present
    rw [if_neg hf]
  | _ => exact h.elim

end

/-! ## Leaves of last bytes are ascending sets -/

section
variable {n : Node} {byte b : UInt8}

def leafBytes : Node → List UInt8
  | node7Leaf _ bytes | node15Leaf _ bytes => bytes
  | node256Leaf _ _ mask => (bytesFrom 0).filter mask
  | _ => []

def LeafOk : Node → Prop
  | node7Leaf _ bytes => Sorted id bytes ∧ bytes.length ≤ 7
  | node15Leaf _ bytes => Sorted id bytes ∧ bytes.length ≤ 15
  | node256Leaf .. => True
  | _ => False

theorem LeafOk.sorted (h : n.LeafOk) : Sorted id n.leafBytes := by
  cases n with
  | node7Leaf g bytes | node15Leaf g bytes => exact h.1
  | node256Leaf g count mask => exact (sorted_bytesFrom 0).filter _
  | _ => exact h.elim

theorem LeafOk.isAnyLeaf (h : n.LeafOk) : n.isAnyLeaf = true := by
  cases n <;> first | rfl | exact h.elim

theorem LeafOk.hasMetadata (h : n.LeafOk) : n.hasMetadata = true := by
  cases n <;> first | rfl | exact h.elim

variable {l : List UInt8}

theorem nodup_of_sorted (h : Sorted id l) : l.Nodup :=
  List.Pairwise.imp (fun hlt => ne_of_lt hlt) h

theorem perm_filter_insert {mask : UInt8 → Bool} (hl : l.Nodup) (hb : byte ∉ l)
    (hmask : ∀ b, mask b = true ↔ b = byte ∨ b ∈ l) : ((bytesFrom 0).filter mask).Perm (byte :: l) := by
  refine (perm_ext_iff_of_nodup ?_ (nodup_cons.2 ⟨hb, hl⟩)).2 fun b => ?_
  · exact (nodup_of_sorted (sorted_bytesFrom 0)).filter _
  · rw [mem_filter, hmask, mem_cons]
    exact ⟨And.right, fun h => ⟨mem_bytesFrom.2 (Nat.zero_le _), h⟩⟩

theorem insertLeafByte_spec (h : n.LeafOk) (hb : byte ∉ n.leafBytes) :
    ∃ m, n.insertLeafByte byte = some m ∧ m.LeafOk ∧ m.getGateStatus = n.getGateStatus ∧
      m.leafBytes.Perm (byte :: n.leafBytes) := by
  have hinsert {bytes : List UInt8} (hs : Sorted id bytes) (hb : byte ∉ bytes) :
      Sorted id (insertInternal id byte bytes) ∧ (insertInternal id byte bytes).length = bytes.length + 1 :=
    ⟨sorted_insertInternal hs fun c hc heq => hb ((show c = byte from heq) ▸ hc), length_insertInternal⟩
  cases n with
  | node7Leaf g bytes =>
    obtain ⟨hs, hl⟩ := hinsert h.1 hb
    have hlen := h.2
    by_cases hroom : bytes.length < 7
    · exact ⟨node7Leaf g _, if_pos hroom, ⟨hs, by omega⟩, rfl, perm_insertInternal⟩
    · exact ⟨node15Leaf g _, if_neg hroom, ⟨hs, by omega⟩, rfl, perm_insertInternal⟩
  | node15Leaf g bytes =>
    obtain ⟨hs, hl⟩ := hinsert h.1 hb
    by_cases hroom : bytes.length < 15
    · exact ⟨node15Leaf g _, if_pos hroom, ⟨hs, by omega⟩, rfl, perm_insertInternal⟩
    · refine ⟨node256Leaf g _ _, if_neg hroom, trivial, rfl, ?_⟩
      show ((bytesFrom 0).filter fun b => decide (b = byte ∨ b ∈ bytes)).Perm (byte :: bytes)
      exact perm_filter_insert (nodup_of_sorted h.1) hb fun b => by simp
  | node256Leaf g count mask =>
    refine ⟨node256Leaf g _ _, rfl, trivial, rfl, ?_⟩
    show ((bytesFrom 0).filter fun b => decide (b = byte ∨ mask b = true)).Perm (byte :: (bytesFrom 0).filter mask)
    refine perm_filter_insert (nodup_of_sorted h.sorted) hb fun b => ?_
    simp only [mem_filter, decide_eq_true_eq]
    exact or_congr_right ⟨fun hm => ⟨mem_bytesFrom.2 (Nat.zero_le _), hm⟩, And.right⟩
  | _ => exact h.elim

theorem filter_bytesFrom : (bytesFrom 0).filter (fun b => byte ≤ b) = bytesFrom byte.toNat := by
  obtain ⟨l, hl, hlow⟩ := bytesFrom_split (Nat.zero_le byte.toNat)
  have hself : bytesFrom byte.toNat = byte :: bytesFrom (byte.toNat + 1) := by
    obtain ⟨l', hl', hlow'⟩ := bytesFrom_split (le_refl byte.toNat)
    cases l' with
    | nil => exact hl'
    | cons c l' =>
      have := hlow' c mem_cons_self
      rw [UInt8.lt_iff_toNat_lt] at this
      omega
  rw [hl, filter_append, filter_eq_nil_iff.2 fun c hc => by simpa using (hlow c hc).2, nil_append,
    ← hself, filter_eq_self]
  intro c hc
  exact decide_eq_true (UInt8.le_iff_toNat_le.2 (mem_bytesFrom.1 hc))

/-- The next byte is the first of the bytes that are left. -/
theorem LeafOk.getNextByte (h : n.LeafOk) (byte : UInt8) :
    n.getNextByte byte = (n.leafBytes.filter fun b => byte ≤ b).head? := by
  cases n with
  | node7Leaf g bytes | node15Leaf g bytes => exact head?_filter.symm
  | node256Leaf g count mask =>
    show (bytesFrom byte.toNat).find? mask = (((bytesFrom 0).filter mask).filter _).head?
    rw [filter_comm, filter_bytesFrom, head?_filter]
  | _ => exact h.elim

end

end Node

end Paro.L2.Art
