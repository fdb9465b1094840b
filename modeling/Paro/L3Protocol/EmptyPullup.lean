import Paro.L2Machine.LogicalPlan

/-!
# Empty results are pulled up (optimizer/src/rewrite/subquery/empty_result.rs)

`EmptyResult` nodes bubble up through operators that return nothing for an empty input. Two rules replace an operator by
its left input when the right one is empty: an anti join, which may show fewer columns, and `EXCEPT`, whose own columns
and removal of duplicates are lost. `pullup_iff` says that nothing else goes wrong.
-/
namespace Paro.L3.EmptyPullup

open L2.LogicalPlan List Plan

variable {α : Type}

/-! ## The rewrite -/

def isEmptyResult : Plan α → Bool
  | .emptyResult _ => true
  | _ => false

def emptyIf (empty : Bool) (plan : Plan α) : Plan α := if empty then .emptyResult plan else plan

/-- empty_result.rs:139-213 -/
def pullUpJoin (j : Join α) (left right : Plan α) : Plan α :=
  match j.kind.joinType with
  | .inner | .semi => emptyIf (isEmptyResult left || isEmptyResult right) (.join j left right)
  | .anti => if isEmptyResult right then left else emptyIf (isEmptyResult left) (.join j left right)
  | .mark | .single | .left => emptyIf (isEmptyResult left) (.join j left right)
  | _ => .join j left right

/-- The operators of empty_result.rs:52-93. -/
def pulled (type : UnaryType) : Bool := type ∈ [.order, .topN, .limit, .distinct, .window, .explain]

/-- empty_result.rs:36-137. -/
def pullUp : Plan α → Plan α
  | .filter expressions map child => emptyIf (isEmptyResult child) (.filter expressions map child)
  | .projection t expressions child => emptyIf (isEmptyResult child) (.projection t expressions child)
  | .unary op child => emptyIf (isEmptyResult child && pulled op.type) (.unary op child)
  | .join j left right => pullUpJoin j left right
  | .setOperation t count type all left right =>
    let setop := .setOperation t count type all left right
    match type with
    | .union => emptyIf (isEmptyResult left && isEmptyResult right) setop
    | .intersect => emptyIf (isEmptyResult left || isEmptyResult right) setop
    | .except => if isEmptyResult right then left else emptyIf (isEmptyResult left) setop
  | .materializedCte index query child => emptyIf (isEmptyResult child) (.materializedCte index query child)
  | .recursiveCte index count iterate ends anchor recursive =>
    emptyIf (isEmptyResult anchor && isEmptyResult recursive)
      (.recursiveCte index count iterate ends anchor recursive)
  | plan => plan

/-- empty_result.rs:25-28 -/
def optimize : Plan α → Plan α
  | .source columns rows => pullUp (.source columns rows)
  | .emptyResult child => pullUp (.emptyResult (optimize child))
  | .filter expressions map child => pullUp (.filter expressions map (optimize child))
  | .projection t expressions child => pullUp (.projection t expressions (optimize child))
  | .unary op child => pullUp (.unary op (optimize child))
  | .join j left right => pullUp (.join j (optimize left) (optimize right))
  | .setOperation t count type all left right =>
    pullUp (.setOperation t count type all (optimize left) (optimize right))
  | .materializedCte index query child => pullUp (.materializedCte index (optimize query) (optimize child))
  | .recursiveCte index count iterate ends anchor recursive =>
    pullUp (.recursiveCte index count iterate ends (optimize anchor) (optimize recursive))

/-! ## When it keeps the results -/

/-- The plans that the rewrite recognises as empty. -/
def empties : Plan α → Bool
  | .source _ _ => false
  | .emptyResult _ => true
  | .filter _ _ child | .projection _ _ child | .materializedCte _ _ child => empties child
  | .unary op child => empties child && pulled op.type
  | .join j left right =>
    match j.kind.joinType with
    | .inner | .semi => empties left || empties right
    | .anti | .mark | .single | .left => empties left
    | _ => false
  | .setOperation _ _ type _ left right =>
    match type with
    | .union => empties left && empties right
    | .intersect => empties left || empties right
    | .except => empties left
  | .recursiveCte _ _ _ _ anchor recursive => empties anchor && empties recursive

def children : Plan α → List (Plan α)
  | .source _ _ => []
  | .emptyResult child | .filter _ _ child | .projection _ _ child | .unary _ child => [child]
  | .join _ left right | .setOperation _ _ _ _ left right => [left, right]
  | .materializedCte _ query child => [query, child]
  | .recursiveCte _ _ _ _ anchor recursive => [anchor, recursive]

inductive Within (q : Plan α) : Plan α → Prop
  | self : Within q q
  | child {p c : Plan α} (hc : c ∈ children p) (h : Within q c) : Within q p

theorem forall_within {p : Plan α} {P : Plan α → Prop} :
    (∀ q, Within q p → P q) ↔ P p ∧ ∀ c ∈ children p, ∀ q, Within q c → P q := by
  constructor
  · exact fun h => ⟨h p .self, fun c hc q hq => h q (.child hc hq)⟩
  · rintro ⟨hself, hchildren⟩ q (_ | ⟨hc, hq⟩)
    · exact hself
    · exact hchildren _ hc q hq

/-- The table index of a set operation is its own, and it has a column. `EXPLAIN` is taken off the plan before
(statement.rs:360). -/
def Fresh : Plan α → Prop
  | .unary op _ => op.type ≠ .explain
  | .setOperation t count _ _ left _ => 0 < count ∧ ∀ b ∈ left.columns, b.tableIndex ≠ t
  | _ => True

/-- Where a node is not replaced by its left input, or that has the same columns. -/
def Sound : Plan α → Prop
  | .join j left right =>
    j.kind.joinType = .anti → empties right = true → j.leftProjectionMap.project left.columns = left.columns
  | .setOperation _ _ .except _ _ right => empties right = false
  | _ => True

theorem isEmptyResult_emptyIf {b : Bool} {p : Plan α} (h : isEmptyResult p = false) :
    isEmptyResult (emptyIf b p) = b := by
  cases b
  · exact h
  · rfl

theorem isEmptyResult_optimize (p : Plan α) : isEmptyResult (optimize p) = empties p := by
  induction p with
  | source | emptyResult => rfl
  | filter _ _ _ ih | projection _ _ _ ih | unary _ _ ih | materializedCte _ _ _ _ ih =>
    rw [optimize, pullUp, isEmptyResult_emptyIf rfl, ih, empties]
  | join j left right ihl ihr =>
    rw [optimize, pullUp, pullUpJoin, empties]
    cases j.kind.joinType <;> dsimp only
    case anti =>
      split
      · exact ihl
      · exact (isEmptyResult_emptyIf rfl).trans ihl
    all_goals first | rfl | rw [isEmptyResult_emptyIf rfl, ihl, ihr] | rw [isEmptyResult_emptyIf rfl, ihl]
  | setOperation t count type all left right ihl ihr =>
    cases type <;> rw [optimize, pullUp, empties]
    case except =>
      split
      · exact ihl
      · exact (isEmptyResult_emptyIf rfl).trans ihl
    all_goals rw [isEmptyResult_emptyIf rfl, ihl, ihr]
  | recursiveCte _ _ _ _ _ _ iha ihr => rw [optimize, pullUp, isEmptyResult_emptyIf rfl, iha, ihr, empties]

theorem sizeOf_child {p c : Plan α} (h : c ∈ children p) : sizeOf c < sizeOf p := by
  cases p <;> simp only [children, mem_cons, not_mem_nil, or_false] at h <;> rcases h with rfl | rfl <;> simp <;> omega

theorem Within.of_child {p q c : Plan α} (hc : c ∈ children q) (h : Within q p) : Within c p := by
  induction h with
  | self => exact .child hc .self
  | child hp _ ih => exact .child hp ih

theorem unary_nil {op : Unary α} (hexplain : op.type ≠ .explain) (hother : op.type ≠ .other)
    (columns : List ColumnBinding) : op.rows columns [] = [] := by
  refine eq_nil_iff_forall_not_mem.2 fun r hr => ?_
  obtain ⟨r', hr', -⟩ := op.keeps hexplain hother columns [] r hr
  cases hr'

variable [DecidableEq α] [PartialCmp α] {p q left right child : Plan α} {b : Bool}

structure Same (p q : Plan α) : Prop where
  columns : p.columns = q.columns
  rows : ∀ outer env, p.rows outer env = q.rows outer env

theorem rows_of_isEmptyResult (h : isEmptyResult p = true) (outer : Scope α) (env : Env α) : p.rows outer env = [] := by
  cases p with
  | emptyResult => rfl
  | _ => cases h

theorem Same.nil (h : Same p q) (hp : isEmptyResult p = true) (outer : Scope α) (env : Env α) :
    q.rows outer env = [] := (h.rows outer env).symm.trans (rows_of_isEmptyResult hp outer env)

theorem Same.emptyIf (h : Same p q) (hnil : b = true → ∀ outer env, q.rows outer env = []) : Same (emptyIf b p) q := by
  cases b with
  | false => exact h
  | true => exact ⟨h.columns, fun outer env => (hnil rfl outer env).symm⟩

section
variable {kind : JoinKind α} {outer : Scope α} {columns : List ColumnBinding}
  {lefts rights : Rows α} {l : Row (Datum α)}

theorem keeps_nil : kind.keeps outer [] l = decide (kind.joinType ≠ .semi) := by
  cases kind with
  | comparison join =>
    by_cases h : join.joinType = .semi <;> simp [JoinKind.keeps, ComparisonJoin.keeps, h, JoinKind.joinType]
  | any joinType => by_cases h : joinType = .semi <;> simp [JoinKind.keeps, h, JoinKind.joinType]
  | cross => simp [JoinKind.keeps, JoinKind.joinType]

theorem rows_left_nil (h : kind.joinType ∈ [.inner, .semi, .anti, .mark, .single, .left]) :
    kind.rows outer columns [] rights = [] := by
  unfold JoinKind.rows
  cases ht : kind.joinType <;> simp_all

theorem rows_right_nil (h : kind.joinType = .inner ∨ kind.joinType = .semi) :
    kind.rows outer columns lefts [] = [] := by
  unfold JoinKind.rows
  rcases h with h | h <;> simp [h, keeps_nil]

theorem rows_anti_nil (h : kind.joinType = .anti) : kind.rows outer columns lefts [] = lefts := by
  unfold JoinKind.rows
  simp [h, keeps_nil]

end

theorem join_iff {j : Join α} (hl : Same (optimize left) left) (hr : Same (optimize right) right) :
    Same (optimize (.join j left right)) (.join j left right) ↔ Sound (.join j left right) := by
  have hjoin : Same (.join j (optimize left) (optimize right)) (.join j left right) := by
    refine ⟨?_, fun outer env => ?_⟩
    · simp [columns, hl.columns, hr.columns]
    · simp [rows, hl.columns, hl.rows, hr.rows]
  have hleft : isEmptyResult (optimize left) = true → j.kind.joinType ∈ [.inner, .semi, .anti, .mark, .single, .left] →
      ∀ outer env, (join j left right).rows outer env = [] := by
    intro he ht outer env
    rw [rows, hl.nil he, rows_left_nil ht]
  have hright : isEmptyResult (optimize right) = true → j.kind.joinType = .inner ∨ j.kind.joinType = .semi →
      ∀ outer env, (join j left right).rows outer env = [] := by
    intro he ht outer env
    rw [rows, hr.nil he, rows_right_nil ht]
  rw [optimize, pullUp, pullUpJoin, Sound, ← isEmptyResult_optimize]
  cases ht : j.kind.joinType
  case anti =>
    dsimp only
    split
    · -- the left input itself
      rename_i he
      have hcolumns : (join j left right).columns = j.leftProjectionMap.project left.columns := by
        simp [columns, Join.columns, ht]
      refine ⟨fun hsame _ _ => ?_, fun hmap => ⟨?_, fun outer env => ?_⟩⟩
      · rw [← hcolumns, ← hsame.columns, hl.columns]
      · rw [hcolumns, hmap rfl he, hl.columns]
      · rw [rows, hr.nil he, rows_anti_nil ht, hl.rows]
    · rename_i he
      exact ⟨fun _ _ hempty => absurd hempty he, fun _ => hjoin.emptyIf fun hb => hleft hb (by simp [ht])⟩
  case inner | semi =>
    refine ⟨fun _ hanti => (by cases hanti), fun _ => hjoin.emptyIf fun hb => ?_⟩
    rcases Bool.or_eq_true_iff.1 hb with hb | hb
    · exact hleft hb (by simp [ht])
    · exact hright hb (by simp [ht])
  case mark | single | left =>
    exact ⟨fun _ hanti => (by cases hanti), fun _ => hjoin.emptyIf fun hb => hleft hb (by simp [ht])⟩
  all_goals exact ⟨fun _ hanti => (by cases hanti), fun _ => hjoin⟩

theorem setOperation_iff {t count : Nat} {type : SetOpType} {all : Bool}
    (hfresh : Fresh (.setOperation t count type all left right)) (hl : Same (optimize left) left)
    (hr : Same (optimize right) right) :
    Same (optimize (.setOperation t count type all left right)) (.setOperation t count type all left right) ↔
      Sound (.setOperation t count type all left right) := by
  have hsetop : Same (.setOperation t count type all (optimize left) (optimize right))
      (.setOperation t count type all left right) :=
    ⟨rfl, fun outer env => by simp [rows, hl.columns, hl.rows, hr.columns, hr.rows]⟩
  cases type with
  | union =>
    refine ⟨fun _ => trivial, fun _ => hsetop.emptyIf fun hb outer env => ?_⟩
    obtain ⟨hbl, hbr⟩ := Bool.and_eq_true_iff.1 hb
    simp [rows, hl.nil hbl, hr.nil hbr, combine]
  | intersect =>
    refine ⟨fun _ => trivial, fun _ => hsetop.emptyIf fun hb outer env => ?_⟩
    rcases Bool.or_eq_true_iff.1 hb with hb | hb
    · simp [rows, hl.nil hb, combine]
    · simp [rows, hr.nil hb, combine]
  | except =>
    rw [optimize, pullUp, Sound, ← isEmptyResult_optimize]
    split
    · -- the left input has other columns
      rename_i he
      refine ⟨fun hsame => absurd (hl.columns.symm.trans hsame.columns) fun hcolumns => ?_, fun hf => ?_⟩
      · have hmem : (⟨t, 0⟩ : ColumnBinding) ∈ left.columns := by
          rw [hcolumns]
          exact mem_map.2 ⟨0, mem_range.2 hfresh.1, rfl⟩
        exact hfresh.2 _ hmem rfl
      · rw [hf] at he
        cases he
    · rename_i he
      refine ⟨fun _ => by simpa using he, fun _ => hsetop.emptyIf fun hb outer env => ?_⟩
      simp [rows, hl.nil hb, combine]

/-- A node over optimized children is kept when it is sound. -/
theorem same_iff (hfresh : Fresh p) (h : ∀ c ∈ children p, Same (optimize c) c) : Same (optimize p) p ↔ Sound p := by
  cases p with
  | source => exact ⟨fun _ => trivial, fun _ => ⟨rfl, fun _ _ => rfl⟩⟩
  | emptyResult c => exact ⟨fun _ => trivial, fun _ => ⟨(h c mem_cons_self).columns, fun _ _ => rfl⟩⟩
  | filter es map c =>
    have hc := h c mem_cons_self
    refine ⟨fun _ => trivial, fun _ => Same.emptyIf ⟨?_, fun outer env => ?_⟩ fun he outer env => ?_⟩
    · simp [columns, hc.columns]
    · simp [rows, hc.rows]
    · simp [rows, hc.nil he]
  | projection t es c =>
    have hc := h c mem_cons_self
    refine ⟨fun _ => trivial, fun _ => Same.emptyIf ⟨rfl, fun outer env => ?_⟩ fun he outer env => ?_⟩
    · simp [rows, hc.rows]
    · simp [rows, hc.nil he]
  | unary op c =>
    have hc := h c mem_cons_self
    refine ⟨fun _ => trivial, fun _ => Same.emptyIf ⟨?_, fun outer env => ?_⟩ fun he outer env => ?_⟩
    · simp [columns, hc.columns]
    · simp [rows, hc.rows, hc.columns]
    · obtain ⟨hnil, htype⟩ := Bool.and_eq_true_iff.1 he
      rw [rows, hc.nil hnil, unary_nil hfresh]
      intro hother
      rw [hother] at htype
      cases htype
  | materializedCte index query c =>
    have hquery := h query mem_cons_self
    have hc := h c (mem_cons_of_mem _ mem_cons_self)
    refine ⟨fun _ => trivial, fun _ => Same.emptyIf ⟨hc.columns, fun outer env => ?_⟩ fun he outer env => hc.nil he _ _⟩
    simp [rows, hc.rows, hquery.rows]
  | recursiveCte index count iterate ends anchor recursive =>
    have hanchor := h anchor mem_cons_self
    have hrec := h recursive (mem_cons_of_mem _ mem_cons_self)
    refine ⟨fun _ => trivial, fun _ => Same.emptyIf ⟨rfl, fun outer env => ?_⟩ fun he outer env => ?_⟩
    · simp [rows, hanchor.rows, hrec.rows]
    · rw [rows, hanchor.nil (Bool.and_eq_true_iff.1 he).1, ends]
  | join j left right => exact join_iff (h left mem_cons_self) (h right (mem_cons_of_mem _ mem_cons_self))
  | setOperation t count type all left right =>
    exact setOperation_iff hfresh (h left mem_cons_self) (h right (mem_cons_of_mem _ mem_cons_self))

/-- **Pulling up empty results.** All parts of a plan keep their columns and rows if and only if no `EXCEPT` in it has a
right input that is recognised as empty, and no anti join that hides columns. -/
theorem pullup_iff {plan : Plan α} (hfresh : ∀ q, Within q plan → Fresh q) :
    (∀ q, Within q plan → Same (optimize q) q) ↔ ∀ q, Within q plan → Sound q := by
  constructor
  · intro h q hq
    exact (same_iff (hfresh q hq) fun c hc => h c (hq.of_child hc)).1 (h q hq)
  · intro h q
    induction hn : sizeOf q using Nat.strong_induction_on generalizing q with
    | _ n ih =>
      intro hq
      refine (same_iff (hfresh q hq) fun c hc => ?_).2 (h q hq)
      exact ih (sizeOf c) (hn ▸ sizeOf_child hc) c rfl (hq.of_child hc)

/-- `SELECT a FROM t EXCEPT SELECT b FROM u WHERE FALSE` -/
def exceptEmpty : Plan Nat :=
  .setOperation 2 1 .except false (.source [⟨0, 0⟩] fun _ => [fun _ => none, fun _ => none])
    (.emptyResult (.source [⟨1, 0⟩] fun _ => []))

/-- The two equal rows of `t` are returned, under the columns of `t`. -/
theorem exceptEmpty_changed :
    (exceptEmpty.rows (fun _ => none) fun _ => []).length = 1 ∧
      ((optimize exceptEmpty).rows (fun _ => none) fun _ => []).length = 2 ∧
      (optimize exceptEmpty).columns ≠ exceptEmpty.columns := by
  decide

/-- `(SELECT a FROM t LIMIT 1) UNION ALL SELECT b FROM u WHERE FALSE` -/
def unionWithEmpty : Plan Nat :=
  .setOperation 2 1 .union true (.unary (.limit 0 1) (.source [⟨0, 0⟩] fun _ =>
    [fun _ => some (.other 1), fun _ => none]))
    (.filter [] .all (.emptyResult (.source [⟨1, 0⟩] fun _ => [])))

theorem unionWithEmpty_kept :
    Same (optimize unionWithEmpty) unionWithEmpty ∧ (unionWithEmpty.rows (fun _ => none) fun _ => []).length = 1 := by
  refine ⟨(pullup_iff ?_).2 ?_ _ .self, by decide⟩
  all_goals
    unfold unionWithEmpty
    repeat' first | refine forall_within.2 ⟨?_, ?_⟩ | exact forall_mem_nil _ | refine forall_mem_cons.2 ⟨?_, ?_⟩
  all_goals simp [Fresh, Sound, columns, Unary.limit]

end Paro.L3.EmptyPullup
