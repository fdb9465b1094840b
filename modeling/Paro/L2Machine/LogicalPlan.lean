import Mathlib.Data.List.Dedup
import Mathlib.Algebra.Order.Ring.Int

/-!
# Logical plans (planner/src/logical/operator)

Plans with what their operators return: filters and projections, joins of every type, set operations, CTEs, and the
operators that only select or extend the rows of their child. Rows are assignments of values to column bindings. A plan
is evaluated in an environment that holds the rows of CTEs and of duplicate-eliminated columns.
-/
namespace Paro.L2.LogicalPlan

/-! ## Rows -/

structure ColumnBinding where
  (tableIndex columnIndex : Nat)
  deriving DecidableEq

structure ColumnRef where
  binding : ColumnBinding
  depth : Nat
  deriving DecidableEq

/-- An assignment of values to column bindings. -/
abbrev Row (V : Type) := ColumnBinding → Option V

/-- The values of a row at depth 0, and those of the enclosing queries. -/
def assign {V : Type} (outer : ColumnRef → Option V) (row : Row V) (c : ColumnRef) : Option V :=
  if c.depth = 0 then row c.binding else outer c

/-! ## Expressions -/

/-- An expression of another shape: `columnRefs` is what `visit_expression` meets. -/
structure Expression (V β : Type) where
  columnRefs : List ColumnRef
  eval : (ColumnRef → Option V) → β
  eval_congr : ∀ a b, (∀ c ∈ columnRefs, a c = b c) → eval a = eval b

/-- A value that is not NULL. -/
inductive Datum (α : Type) where
  | boolean (value : Bool)
  | other (value : α)
  deriving DecidableEq

variable (α : Type)

/-- `none` is NULL. -/
abbrev Value := Option (Datum α)

/-- The values of the columns in scope. -/
abbrev Scope := ColumnRef → Value α

abbrev Rows := List (Row (Datum α))

/-- join.rs:211-228 -/
inductive ComparisonType where
  | equal | notEqual | lessThan | greaterThan | lessThanOrEqual | greaterThanOrEqual | notDistinctFrom
  | distinctFrom
  deriving DecidableEq

/-- The shapes of expressions that the rewrites look into. -/
inductive Expr (α : Type) where
  | constant (value : Value α)
  | columnRef (column : ColumnRef)
  | comparison (comparisonType : ComparisonType) (left right : Expr α)
  | not (child : Expr α)
  | other (e : Expression (Datum α) (Value α))

variable {α : Type}

/-- The table indices of the columns (`extract_bindings`, pushdown.rs:47-55). -/
def Expr.bindings : Expr α → List Nat
  | .constant _ => []
  | .columnRef c => [c.binding.tableIndex]
  | .comparison _ left right => left.bindings ++ right.bindings
  | .not child => child.bindings
  | .other e => e.columnRefs.map (·.binding.tableIndex)

def truth : Value α → Option Bool
  | some (.boolean b) => some b
  | _ => none

/-- The order of values, `Value::partial_cmp`. -/
class PartialCmp (α : Type) where
  partialCmp : Datum α → Datum α → Option Ordering

instance natCmp : PartialCmp Nat where
  partialCmp
    | .boolean a, .boolean b => some (compare a b)
    | .other a, .other b => some (compare a b)
    | _, _ => none

open PartialCmp (partialCmp)

variable [DecidableEq α] [PartialCmp α]

/-- A comparison that is NULL when an operand is. -/
def strict (test : Datum α → Datum α → Bool) (left right : Value α) : Option Bool :=
  left.bind fun l => right.map (test l)

/-- nested_loop/runtime.rs:784-825 -/
def compareWithNulls (comparison : ComparisonType) (left right : Value α) : Option Bool :=
  match comparison with
  | .notDistinctFrom => some (left = right)
  | .distinctFrom => some (left ≠ right)
  | .equal => strict (· = ·) left right
  | .notEqual => strict (· ≠ ·) left right
  | .lessThan => strict (partialCmp · · = some .lt) left right
  | .greaterThan => strict (partialCmp · · = some .gt) left right
  | .lessThanOrEqual => strict (fun l r => partialCmp l r = some .lt ∨ partialCmp l r = some .eq) left right
  | .greaterThanOrEqual => strict (fun l r => partialCmp l r = some .gt ∨ partialCmp l r = some .eq) left right

def Expr.eval (a : Scope α) : Expr α → Value α
  | .constant value => value
  | .columnRef c => a c
  | .comparison t left right => (compareWithNulls t (left.eval a) (right.eval a)).map .boolean
  | .not child => (truth (child.eval a)).map fun b => .boolean !b
  | .other e => e.eval a

/-- The test of a `WHERE`: NULL does not pass. -/
def Expr.holds (a : Scope α) (e : Expr α) : Bool := truth (e.eval a) = some true

/-! ## Joins -/

/-- join.rs:16-39 -/
inductive JoinType where
  | invalid | left | right | inner | outer | semi | anti | mark | single | rightSemi | rightAnti
  deriving DecidableEq

/-- join.rs:48-52 -/
inductive AntiJoinMode where
  | regular | nullAware
  deriving DecidableEq

/-- join.rs:339-347 -/
inductive MarkJoinSemantics where
  | notMark
  | twoValued
  | threeValuedFrom (start : Nat)
  deriving DecidableEq

structure JoinCondition (α : Type) where
  (left right : Expr α)
  comparison : ComparisonType

/-- join.rs:391-416. Only `make_null_aware_anti` makes a join null-aware, for one equality. -/
structure ComparisonJoin (α : Type) where
  joinType : JoinType
  antiJoinMode : AntiJoinMode
  conditions : List (JoinCondition α)
  markIndex : Option Nat
  markSemantics : MarkJoinSemantics
  nullAware : antiJoinMode = .nullAware → joinType = .anti ∧ ∀ c ∈ conditions, c.comparison = .equal

section
variable (outer : Scope α) (join : ComparisonJoin α) (l r : Row (Datum α))

/-- nested_loop/runtime.rs:610-616 -/
def markConditionNullIsUnknown (semantics : MarkJoinSemantics) (index : Nat) : Bool :=
  match semantics with
  | .threeValuedFrom start => start ≤ index
  | .twoValued => false
  | .notMark => true

def JoinCondition.compare (c : JoinCondition α) : Option Bool :=
  compareWithNulls c.comparison (c.left.eval (assign outer l)) (c.right.eval (assign outer r))

/-- nested_loop/runtime.rs:571-608; `Match`, `NoMatch` and `Null` are TRUE, FALSE and NULL. -/
def rowMatch (semantics : MarkJoinSemantics) (index : Nat) (sawNull : Bool) : List (JoinCondition α) → Option Bool
  | [] => if sawNull then none else some true
  | c :: rest =>
    match c.compare outer l r with
    | some true => rowMatch semantics (index + 1) sawNull rest
    | some false => some false
    | none =>
      if markConditionNullIsUnknown semantics index then rowMatch semantics (index + 1) true rest else some false

def ComparisonJoin.match : Option Bool := rowMatch outer l r join.markSemantics 0 false join.conditions

/-- nested_loop/runtime.rs:618-646 -/
def marker (partner : Row (Datum α) → Option Bool) (rights : Rows α) : Option Bool :=
  if rights.any (partner · = some true) then some true
  else if rights.any (partner · = none) then none
  else some false

/-- The left rows that a semi or an anti join keeps; the latter in both modes (join.rs:41-46). -/
def ComparisonJoin.keeps (rights : Rows α) (l : Row (Datum α)) : Bool :=
  if join.joinType = .semi then rights.any (join.match outer l · = some true)
  else
    rights.all (join.match outer l · ≠ some true) &&
      (join.antiJoinMode = .regular || rights.isEmpty ||
        join.conditions.all fun c => (c.left.eval (assign outer l)).isSome &&
          rights.all fun r => (c.right.eval (assign outer r)).isSome)

end

/-! ## Plans -/

/-- projection_map.rs:16-19 -/
inductive ProjectionMap where
  | all | columns (indices : List Nat)

/-- join.rs:142-153 -/
def ProjectionMap.project (bindings : List ColumnBinding) : ProjectionMap → List ColumnBinding
  | .all => bindings
  | .columns indices => indices.filterMap (bindings[·]?)

/-- An `AnyJoin` is its condition on two rows, a cross product joins all pairs. -/
inductive JoinKind (α : Type) where
  | comparison (join : ComparisonJoin α)
  | any (joinType : JoinType) (markIndex : Option Nat) (condition : Row (Datum α) → Row (Datum α) → Option Bool)
  | cross

def JoinKind.joinType : JoinKind α → JoinType
  | .comparison join => join.joinType
  | .any joinType _ _ => joinType
  | .cross => .inner

def JoinKind.markColumn : JoinKind α → ColumnBinding
  | .comparison join => ⟨join.markIndex.getD 0, 0⟩
  | .any _ markIndex _ => ⟨markIndex.getD 0, 0⟩
  | .cross => ⟨0, 0⟩

/-- The rows of CTEs and of duplicate-eliminated columns. -/
abbrev Env (α : Type) := Nat → Rows α

/-- `delim` adds the duplicate-eliminated columns of the left rows for the right side. -/
structure Join (α : Type) where
  kind : JoinKind α
  (leftProjectionMap rightProjectionMap : ProjectionMap)
  delim : Rows α → Env α → Env α

inductive SetOpType where
  | union | intersect | except
  deriving DecidableEq

/-- `other` stands for aggregates and all else. -/
inductive UnaryType where
  | order | topN | limit | distinct | window | rowFetch | externalProject | explain | other
  deriving DecidableEq

/-- An operator that selects or extends the rows of its child, if it does not make rows of its own. -/
structure Unary (α : Type) where
  type : UnaryType
  columns : List ColumnBinding → List ColumnBinding
  rows : List ColumnBinding → Rows α → Rows α
  keeps : type ≠ .explain → type ≠ .other →
    ∀ columns input, ∀ r ∈ rows columns input, ∃ r' ∈ input, ∀ b ∈ columns, r b = r' b

/-- `LIMIT count OFFSET offset`. -/
def Unary.limit (offset count : Nat) : Unary α where
  type := .limit
  columns := id
  rows _ input := (input.drop offset).take count
  keeps _ _ _ _ r hr := ⟨r, List.mem_of_mem_drop (List.mem_of_mem_take hr), fun _ _ => rfl⟩

/-- `iterate` runs a recursive CTE from the rows of its anchor. -/
inductive Plan (α : Type) where
  | source (columns : List ColumnBinding) (rows : Env α → Rows α)
  | emptyResult (child : Plan α)
  | filter (expressions : List (Expr α)) (projectionMap : ProjectionMap) (child : Plan α)
  | projection (tableIndex : Nat) (expressions : List (Expr α)) (child : Plan α)
  | unary (op : Unary α) (child : Plan α)
  | join (j : Join α) (left right : Plan α)
  | setOperation (tableIndex columnCount : Nat) (setopType : SetOpType) (setopAll : Bool) (left right : Plan α)
  | materializedCte (index : Nat) (query child : Plan α)
  | recursiveCte (index columnCount : Nat)
    (iterate : Rows α → (Rows α → Rows α) → Rows α)
    (ends : ∀ step, iterate [] step = []) (anchor recursive : Plan α)

def generateColumnBindings (tableIndex columnCount : Nat) : List ColumnBinding :=
  (List.range columnCount).map (⟨tableIndex, ·⟩)

/-- join.rs:187-207 -/
def Join.columns (j : Join α) (left right : List ColumnBinding) : List ColumnBinding :=
  let left := j.leftProjectionMap.project left
  let right := j.rightProjectionMap.project right
  match j.kind.joinType with
  | .semi | .anti => left
  | .rightSemi | .rightAnti => right
  | .mark => left ++ [j.kind.markColumn]
  | _ => left ++ right

/-- plan_operator.rs:1219-1342 -/
def Plan.columns : Plan α → List ColumnBinding
  | .source columns _ => columns
  | .emptyResult child | .materializedCte _ _ child => child.columns
  | .filter _ map child => map.project child.columns
  | .projection t expressions _ => generateColumnBindings t expressions.length
  | .unary op child => op.columns child.columns
  | .join j left right => j.columns left.columns right.columns
  | .setOperation t count _ _ _ _ | .recursiveCte t count _ _ _ _ => generateColumnBindings t count

section
variable (outer : Scope α)

def JoinKind.partner (l r : Row (Datum α)) : JoinKind α → Option Bool
  | .comparison join => join.match outer l r
  | .any _ _ condition => condition l r
  | .cross => some true

def JoinKind.keeps (rights : Rows α) (l : Row (Datum α)) : JoinKind α → Bool
  | .comparison join => join.keeps outer rights l
  | kind => decide (kind.joinType = .semi) == rights.any (kind.partner outer l · = some true)

/-- The left row with its marker. -/
def withMarker (mark : ColumnBinding) (m : Option Bool) (l : Row (Datum α)) : Row (Datum α) :=
  fun b => if b = mark then m.map .boolean else l b

/-- What a join returns for rows whose left columns are `columns`. -/
def JoinKind.rows (kind : JoinKind α) (columns : List ColumnBinding) (lefts rights : Rows α) :
    Rows α :=
  let matching l r := kind.partner outer l r = some true
  let pair l r b := if b ∈ columns then l b else r b
  let orNull l partners := if partners = [] then [pair l fun _ => none] else partners.map (pair l)
  let pairs := lefts.flatMap fun l => (rights.filter (matching l ·)).map (pair l)
  let lonely := (rights.filter fun r => lefts.all (¬ matching · r)).map (pair fun _ => none)
  match kind.joinType with
  | .invalid => []
  | .inner => pairs
  | .left => lefts.flatMap fun l => orNull l (rights.filter (matching l ·))
  | .single => lefts.flatMap fun l => orNull l ((rights.filter (matching l ·)).take 1)
  | .right => pairs ++ lonely
  | .outer => (lefts.flatMap fun l => orNull l (rights.filter (matching l ·))) ++ lonely
  | .semi | .anti => lefts.filter (kind.keeps outer rights ·)
  | .mark => lefts.map fun l => withMarker kind.markColumn (marker (kind.partner outer l ·) rights) l
  | .rightSemi => rights.filter fun r => lefts.any (matching · r)
  | .rightAnti => rights.filter fun r => lefts.all (¬ matching · r)

/-- Set operations take NULLs as equal; of the duplicates that are removed one stays. -/
def combine {β : Type} [DecidableEq β] (setopAll : Bool) (left right : List β) : SetOpType → List β
  | .union => if setopAll then left ++ right else (left ++ right).dedup
  | .intersect => if setopAll then left.bagInter right else (left.filter (· ∈ right)).dedup
  | .except => if setopAll then left.diff right else (left.filter (· ∉ right)).dedup

def toRow (tableIndex : Nat) (values : List (Value α)) : Row (Datum α) :=
  fun b => if b.tableIndex = tableIndex then (values[b.columnIndex]?).join else none

def Plan.rows : Plan α → Env α → Rows α
  | .source _ rows, env => rows env
  | .emptyResult _, _ => []
  | .filter expressions _ child, env => (child.rows env).filter fun r => expressions.all (·.holds (assign outer r))
  | .projection t expressions child, env =>
    (child.rows env).map fun r => toRow t (expressions.map (·.eval (assign outer r)))
  | .unary op child, env => op.rows child.columns (child.rows env)
  | .join j left right, env =>
    j.kind.rows outer left.columns (left.rows env) (right.rows (j.delim (left.rows env) env))
  | .setOperation t _ type all left right, env =>
    (combine all ((left.rows env).map (left.columns.map ·)) ((right.rows env).map (right.columns.map ·)) type).map
      (toRow t)
  | .materializedCte index query child, env => child.rows (Function.update env index (query.rows env))
  | .recursiveCte index _ iterate _ anchor recursive, env =>
    iterate (anchor.rows env) fun working => recursive.rows (Function.update env index working)

end

end Paro.L2.LogicalPlan
