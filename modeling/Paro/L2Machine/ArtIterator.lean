import Paro.L2Machine.ArtTree

/-!
# Range scans over the adaptive radix tree

`index/art/iterator.rs`: a stack of the nodes on the way to the current leaf, the key bytes read so far and, behind
a gate, the row-id bytes read so far. A scan collects row ids into an ordered set until the upper bound or
`max_count` is passed. Functions return `none` where the source panics or the fuel runs out.
-/
namespace Paro.L2.Art

open L1.ArtKey

/-- `nodes` has the top of the stack first. -/
structure Iterator where
  nodes : List (Node × UInt8)
  currentKey : Bytes
  lastLeaf : Node
  rowId : Bytes
  status : GateStatus
  nestedDepth : Nat
  enteredNestedLeaf : Bool

namespace Iterator

/-- iterator.rs:150-162 -/
def new : Iterator := ⟨[], [], .empty, List.replicate 8 0, .notSet, 0, false⟩

variable (keyBytes key : Bytes)

/-- iterator.rs:86-96 -/
def contains : Bool := key.length ≤ keyBytes.length ∧ keyBytes.take key.length = key

/-- The comparison loop of `greater_than` (iterator.rs:100-107); `none` when no byte decides. -/
def compareBytes : Bytes → Bytes → Option Bool
  | a :: keyBytes, b :: key => if b < a then some true else if a < b then some false else compareBytes keyBytes key
  | _, _ => none

/-- iterator.rs:99-117 -/
def greaterThan (equal : Bool) (nestedDepth : Nat) : Bool :=
  match compareBytes keyBytes key with
  | some r => r
  | none =>
    let thisLen := keyBytes.length - nestedDepth
    if equal then key.length < thisLen else key.length ≤ thisLen

variable (it : Iterator)

/-- One byte on the way down (iterator.rs:316-323, 338-343); behind a gate it is also a row-id byte, and a write
behind the array of eight bytes panics. -/
def push (byte : UInt8) : Option Iterator :=
  if it.status = .set then
    if it.nestedDepth < 8 then
      some { it with currentKey := it.currentKey ++ [byte], rowId := it.rowId.set it.nestedDepth byte,
                     nestedDepth := it.nestedDepth + 1 }
    else none
  else some { it with currentKey := it.currentKey ++ [byte] }

/-- iterator.rs:294-349 -/
def findMinimum : Nat → Iterator → Node → Option Iterator
  | 0, _, _ => none
  | fuel + 1, it, current =>
    if current.hasMetadata = false then none
    else if current.isAnyLeaf then some { it with lastLeaf := current }
    else
      let it := if current.getGateStatus = .set
        then { it with status := .set, enteredNestedLeaf := true, nestedDepth := 0 } else it
      match current with
      | .prefixNode _ bytes child => do
        let it ← bytes.foldlM push it
        findMinimum fuel { it with nodes := (current, 0) :: it.nodes } child
      | current =>
        match current.getNextChild 0 with
        | none => none
        | some (byte, child) => do
          let it ← it.push byte
          findMinimum fuel { it with nodes := (current, byte) :: it.nodes } child

def byteCount : Node → Nat
  | .prefixNode _ bytes _ => bytes.length
  | _ => 1

/-- iterator.rs:487-515 -/
def popNode : Iterator :=
  match it.nodes with
  | [] => it
  | (top, _) :: nodes =>
    { it with
      nodes
      currentKey := it.currentKey.take (it.currentKey.length - byteCount top)
      nestedDepth := if it.status = .set then it.nestedDepth - byteCount top else it.nestedDepth
      status := if top.getGateStatus = .set then .notSet else it.status }

/-- The move of `next` to the next child of the node on top (iterator.rs:469-478). -/
def advance (top : Node) (nodes : List (Node × UInt8)) (byte : UInt8) : Iterator :=
  { it with
    nodes := (top, byte) :: nodes
    currentKey := it.currentKey.take (it.currentKey.length - 1) ++ [byte]
    rowId := if it.status = .set then it.rowId.set (it.nestedDepth - 1) byte else it.rowId }

/-- The loop of `next` (iterator.rs:441-484) over the stack, which is `it.nodes`. -/
def nextLoop (fuel : Nat) : List (Node × UInt8) → Iterator → Option (Bool × Iterator)
  | [], it => some (false, it)
  | (top, byte) :: nodes, it =>
    match top with
    | .prefixNode .. => nextLoop fuel nodes it.popNode
    | top =>
      if byte = 255 then nextLoop fuel nodes it.popNode
      else
        match top.getNextChild (byte + 1) with
        | none => nextLoop fuel nodes it.popNode
        | some (byte, child) => (findMinimum fuel (it.advance top nodes byte) child).map fun it => (true, it)

def next (fuel : Nat) (it : Iterator) : Option (Bool × Iterator) := nextLoop fuel it.nodes it

/-- The comparison loop of `lower_bound` (iterator.rs:413-427): how a prefix compares with the key from `depth` on.
`none` is a read behind the end of the key. -/
def comparePrefix : Bytes → Bytes → Option Ordering
  | [], _ => some .eq
  | _ :: _, [] => none
  | b :: bytes, k :: key => if b < k then some .lt else if k < b then some .gt else comparePrefix bytes key

/-- iterator.rs:355-435 -/
def lowerBound (key : Bytes) (equal : Bool) : Nat → Iterator → Node → Nat → Option (Bool × Iterator)
  | 0, _, _, _ => none
  | fuel + 1, it, current, depth =>
    if current.hasMetadata = false then none
    else if current.isAnyLeaf ∨ current.getGateStatus = .set then
      if !equal && contains it.currentKey key then it.next fuel
      else if current.getGateStatus = .set then (findMinimum fuel it current).map fun it => (true, it)
      else some (true, { it with lastLeaf := current })
    else
      match current with
      | .prefixNode _ bytes child =>
        let it := { it with currentKey := it.currentKey ++ bytes, nodes := (current, 0) :: it.nodes }
        match comparePrefix bytes (key.drop depth) with
        | none => none
        | some .lt => it.next fuel
        | some .gt => (findMinimum fuel it child).map fun it => (true, it)
        | some .eq => lowerBound key equal fuel it child (depth + bytes.length)
      | current => do
        let nextByte ← key[depth]?
        match current.getNextChild nextByte with
        | none => it.next fuel
        | some (byte, child) =>
          let it := { it with currentKey := it.currentKey ++ [byte], nodes := (current, byte) :: it.nodes }
          if nextByte < byte then (findMinimum fuel it child).map fun it => (true, it)
          else lowerBound key equal fuel it child (depth + 1)

abbrev insertRow (rowIds : List Nat) (rowId : Nat) : List Nat := SortedList.insertBy id rowId rowIds

/-- The loop over the bytes of a nested leaf (iterator.rs:219-232): `false` when `max_count` is passed. -/
def scanBytes (leaf : Node) (maxCount : Nat) : Nat → UInt8 → Bytes → List Nat → Option (Bool × Bytes × List Nat)
  | 0, _, _, _ => none
  | fuel + 1, byte, rowId, rowIds =>
    match leaf.getNextByte byte with
    | none => some (true, rowId, rowIds)
    | some byte =>
      if maxCount < rowIds.length + 1 then some (false, rowId, rowIds)
      else
        let rowId := rowId.set 7 byte
        let rowIds := insertRow rowIds (getRowId rowId)
        if byte = 255 then some (true, rowId, rowIds) else scanBytes leaf maxCount fuel (byte + 1) rowId rowIds

/-- One leaf of the scan (iterator.rs:198-238): `false` when `max_count` is passed. A byte loop takes at most one
turn for each byte and one to find that none is left. -/
def scanLeaf (maxCount : Nat) (rowIds : List Nat) : Option (Bool × Bytes × List Nat) :=
  match it.lastLeaf with
  | .leafInlined r =>
    if maxCount < rowIds.length + 1 then some (false, it.rowId, rowIds)
    else some (true, it.rowId, insertRow rowIds r)
  | leaf => if leaf.isAnyLeaf then scanBytes leaf maxCount 257 0 it.rowId rowIds else some (false, it.rowId, rowIds)

/-- iterator.rs:179-244; `walk` bounds each step down the tree, the recursion the number of leaves. -/
def scan (upperBound : Option Bytes) (maxCount : Nat) (equal : Bool) (walk : Nat) :
    Nat → Iterator → List Nat → Option (Bool × List Nat)
  | 0, _, _ => none
  | fuel + 1, it, rowIds =>
    if upperBound.any fun bound => (it.status = .notSet || it.enteredNestedLeaf) &&
        greaterThan it.currentKey bound equal it.nestedDepth then some (true, rowIds)
    else do
      let (ok, rowId, rowIds) ← it.scanLeaf maxCount rowIds
      if ok = false then return (false, rowIds)
      let (more, it) ← next walk { it with rowId, enteredNestedLeaf := false }
      if more then scan upperBound maxCount equal walk fuel it rowIds else return (true, rowIds)

end Iterator

/-! ## Searches

The sets returned start empty, as in every caller; the boolean is `false` when `max_count` was exceeded. -/

variable (fuel : Nat)

/-- art.rs:1360-1374 -/
def collectRowIds (node : Node) (maxCount : Nat) : Option (Bool × List Nat) :=
  if node.hasMetadata = false then some (true, [])
  else do
    let it ← Iterator.new.findMinimum fuel node
    it.scan none maxCount false fuel fuel []

variable (art : ART) (key : Bytes)

/-- art.rs:1237-1252 -/
def searchEqual (maxCount : Nat) : Option (Bool × List Nat) :=
  if art.tree.hasMetadata = false then some (true, [])
  else do
    match ← lookup fuel art key with
    | some node => collectRowIds fuel node maxCount
    | none => some (true, [])

/-- art.rs:1282-1300 -/
def searchGreater (equal : Bool) (maxCount : Nat) : Option (Bool × List Nat) :=
  if art.tree.hasMetadata = false then some (true, [])
  else do
    let (found, it) ← Iterator.lowerBound key equal fuel Iterator.new art.tree 0
    if found = false then some (true, []) else it.scan none maxCount false fuel fuel []

/-- art.rs:1312-1328 -/
def searchLess (equal : Bool) (maxCount : Nat) : Option (Bool × List Nat) :=
  if art.tree.hasMetadata = false then some (true, [])
  else do
    let it ← Iterator.new.findMinimum fuel art.tree
    it.scan (some key) maxCount equal fuel fuel []

/-- art.rs:1340-1358 -/
def searchCloseRange (lower upper : Bytes) (maxCount : Nat) : Option (Bool × List Nat) :=
  if art.tree.hasMetadata = false then some (true, [])
  else do
    let (found, it) ← Iterator.lowerBound lower true fuel Iterator.new art.tree 0
    if found = false then some (true, []) else it.scan (some upper) maxCount true fuel fuel []

end Paro.L2.Art
