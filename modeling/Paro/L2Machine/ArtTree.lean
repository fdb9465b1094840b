import Paro.L2Machine.ArtNode

/-!
# Insertion and lookup in the adaptive radix tree

`index/art/{art,prefix,leaf}.rs`. Keys are compared byte by byte along prefix chains and internal nodes; the row
ids of one key live in a second tree over the row-id bytes, whose root is marked as a gate. Functions return
`none` where the source panics or a `fuel` that bounds the depth of the walk runs out.
-/
namespace Paro.L2.Art

open L1.ArtKey

inductive ARTConflictType where
  | noConflict
  | constraint
  | transaction
  deriving DecidableEq, Repr

inductive IndexAppendMode where
  | default
  | ignoreDuplicates
  | insertDuplicates
  deriving DecidableEq, Repr

structure ART where
  isUnique : Bool
  prefixCount : Nat
  tree : Node

/-- art.rs:92-126: an empty tree -/
def ART.new (isUnique : Bool) (ty : LogicalType) : ART := ⟨isUnique, calculatePrefixCount ty, .empty⟩

/-! ## Prefix chains -/

/-- The loop of `create_chain` (prefix.rs:250-271) over the bytes that are left. -/
def createChainLoop (prefixCount : Nat) (last : Node) : Nat → Bytes → Node
  | 0, _ => last
  | fuel + 1, bytes =>
    if bytes = [] then last
    else .prefixNode .notSet (bytes.take prefixCount) (createChainLoop prefixCount last fuel (bytes.drop prefixCount))

variable (prefixCount : Nat)

/-- prefix.rs:230-279, with the node its caller puts at the end of the chain -/
def createChain (bytes : Bytes) (last : Node) : Node :=
  createChainLoop prefixCount last bytes.length bytes

/-- What `append_chain` (prefix.rs:456-492) copies: the bytes of the prefixes that follow up to a gate, and the
node behind them. -/
def collectChain : Node → Bytes × Node
  | .prefixNode .notSet bytes child => (bytes ++ (collectChain child).1, (collectChain child).2)
  | node => ([], node)

/-- What `split` leaves behind the split byte, see prefix.rs:356-395: the child itself when the byte was the
last one, else a prefix of the remaining bytes, refilled from the prefixes that follow. -/
def splitChild (bytes : Bytes) (child : Node) (pos : Nat) : Node :=
  if pos + 1 = prefixCount then child
  else if pos + 1 < bytes.length then
    createChain prefixCount (bytes.drop (pos + 1) ++ (collectChain child).1) (collectChain child).2
  else child

/-! ## Insertion -/

/-- leaf.rs:78-182 -/
def mergeInlined (left right : Nat) (status : GateStatus) (depth prefixCount : Nat) : Option Node := do
  let newStatus := if status = .notSet then GateStatus.set else .notSet
  -- outside a nested leaf the row ids are compared from their first byte
  let depth := if newStatus = .set then 0 else depth
  let leftKey := fromRowId left
  let rightKey := fromRowId right
  let pos ← getMismatchPos leftKey rightKey depth
  let leftByte ← leftKey[pos]?
  let rightByte ← rightKey[pos]?
  let node :=
    if pos = 7 then Node.node7Leaf .notSet (Node.insertInternal id rightByte [leftByte])
    else .node4 .notSet
      (Node.insertInternal Prod.fst (rightByte, Node.newLeaf right) [(leftByte, Node.newLeaf left)])
  let chain := createChain prefixCount ((leftKey.drop depth).take (pos - depth)) node
  return if newStatus = .set then chain.setGateStatus .set else chain

/-- art.rs:483-521 -/
def insertIntoNode (node : Node) (key : Bytes) (rowId depth : Nat)
    (status : GateStatus) : Option Node := do
  if status = .set then
    let byte ← (fromRowId rowId)[depth]?
    node.insertChild byte (.newLeaf rowId)
  else
    let byte ← key[depth]?
    node.insertChild byte (createChain prefixCount (key.drop (depth + 1)) (.newLeaf rowId))

/-- art.rs:524-595 for a prefix with a mismatch at `pos`. The prefix keeps the bytes before `pos` and its
gate; with no byte left the new `Node4` takes its place and its gate. -/
def insertIntoPrefix (gate : GateStatus) (bytes : Bytes) (child : Node) (key : Bytes)
    (rowId pos depth : Nat) (status : GateStatus) : Option Node := do
  let byte ← bytes[pos]?
  let full := pos + 1 = prefixCount
  let splitStatus := if full then GateStatus.notSet else if pos = 0 then gate else .notSet
  let node4 := Node.node4 splitStatus [(byte, splitChild prefixCount bytes child pos)]
  let node4 ← insertIntoNode prefixCount node4 key rowId depth status
  if full then return .prefixNode gate (bytes.take (bytes.length - 1)) node4
  else if pos = 0 then return node4
  else return .prefixNode gate (bytes.take pos) node4

/-- The comparison loop of a prefix (art.rs:420-435): the position of the first byte that differs from the key.
`none` is a read behind the end of the key. -/
def mismatch : Bytes → Bytes → Nat → Option (Option Nat)
  | [], _, _ => some none
  | _ :: _, [], _ => none
  | b :: bytes, k :: key, i => if b ≠ k then some (some i) else mismatch bytes key (i + 1)

/-- art.rs:276-480 -/
def insertRecursive (prefixCount : Nat) (isUnique : Bool) (mode : IndexAppendMode) (key : Bytes) (rowId : Nat) :
    Nat → Node → Nat → GateStatus → Option (Node × ARTConflictType)
  | 0, _, _, _ => none
  | fuel + 1, node, depth, status =>
    if node.hasMetadata = false then
      if status = .set then some (.newLeaf rowId, .noConflict)
      else some (createChain prefixCount (key.drop depth) (.newLeaf rowId), .noConflict)
    else if status = .notSet ∧ node.getGateStatus = .set ∧ isUnique then some (node, .transaction)
    else
      -- behind a gate the row id is the key, from its first byte
      let crossing := status = .notSet ∧ node.getGateStatus = .set
      let status := if crossing then .set else status
      let depth := if crossing then 0 else depth
      let activeKey := if status = .set then fromRowId rowId else key
      match node with
      | .leafInlined old =>
        if !isUnique || mode = .insertDuplicates then
          (mergeInlined old rowId status depth prefixCount).map fun node => (node, .noConflict)
        else if mode = .ignoreDuplicates then some (node, .noConflict)
        else some (node, .constraint)
      | .prefixNode gate bytes child =>
        match mismatch bytes (activeKey.drop depth) 0 with
        | none => none
        | some (some pos) =>
          (insertIntoPrefix prefixCount gate bytes child key rowId pos (depth + pos) status).map
            fun node => (node, .noConflict)
        | some none =>
          (insertRecursive prefixCount isUnique mode key rowId fuel child (depth + bytes.length) status).map
            fun r => (.prefixNode gate bytes r.1, r.2)
      | node =>
        if node.isAnyLeaf then do
          let byte ← activeKey[7]?
          let node ← node.insertLeafByte byte
          return (node, .noConflict)
        else do
          let byte ← activeKey[depth]?
          match node.getChild byte with
          | some child =>
            (insertRecursive prefixCount isUnique mode key rowId fuel child (depth + 1) status).map
              fun r => (node.replaceChild byte r.1, r.2)
          | none => (insertIntoNode prefixCount node key rowId depth status).map fun node => (node, .noConflict)

/-- art.rs:245-273 -/
def insertKey (fuel : Nat) (art : ART) (key : Bytes) (rowId : Nat) (mode : IndexAppendMode) :
    Option (ART × ARTConflictType) :=
  (insertRecursive art.prefixCount art.isUnique mode key rowId fuel art.tree 0 .notSet).map
    fun r => ({ art with tree := r.1 }, r.2)

/-! ## Lookup -/

/-- The prefix loop of `lookup_internal` (art.rs:816-824): the node found when the key ends inside the prefix,
nothing on a mismatch, else how far the key has been read. -/
inductive PrefixLookup where
  | keyEnds
  | differs
  | agrees

def lookupPrefix : Bytes → Bytes → PrefixLookup
  | [], _ => .agrees
  | _ :: _, [] => .keyEnds
  | b :: bytes, k :: key => if b ≠ k then .differs else lookupPrefix bytes key

/-- art.rs:796-864; the outer `none` is spent fuel -/
def lookupInternal (key : Bytes) : Nat → Node → Nat → Option (Option Node)
  | 0, _, _ => none
  | fuel + 1, current, depth =>
    if current.hasMetadata = false then some none
    else if current.isAnyLeaf ∨ current.getGateStatus = .set then some (some current)
    else if key.length ≤ depth then some (some current)
    else
      match current with
      | .prefixNode _ bytes child =>
        match lookupPrefix bytes (key.drop depth) with
        | .keyEnds => some (some current)
        | .differs => some none
        | .agrees => lookupInternal key fuel child (depth + bytes.length)
      | current => do
        let byte ← key[depth]?
        match current.getChild byte with
        | some child => lookupInternal key fuel child (depth + 1)
        | none => some none

/-- art.rs:791-793 -/
def lookup (fuel : Nat) (art : ART) (key : Bytes) : Option (Option Node) := lookupInternal key fuel art.tree 0

end Paro.L2.Art
