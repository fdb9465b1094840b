import Paro.L2Machine.LogicalPlan

/-!
# Mark joins that become semi and anti joins (optimizer/src/rewrite/predicate/pushdown.rs)

A filter that tests the truth of a marker is dropped and the mark join becomes a semi, anti or null-aware anti join. The
test is remembered as one boolean, the expected truth. An `IS DISTINCT FROM` also passes on UNKNOWN, which that boolean
forgets: `markLowering_iff` says that nothing else goes wrong.
-/
namespace Paro.L3.MarkLowering

open L2.LogicalPlan List Expr

variable {α : Type}

/-! ## The rewrite -/

/-- pushdown.rs:1308-1312 -/
def expectedTruth (comparison : ComparisonType) (value : Bool) : Option Bool :=
  match comparison with
  | .equal | .notDistinctFrom => some value
  | .notEqual | .distinctFrom => some !value
  | _ => none

/-- pushdown.rs:1272-1316 -/
def markerTruthTest (mark : ColumnBinding) : Expr α → Option Bool
  | .columnRef c => if c = ⟨mark, 0⟩ then some true else none
  | .not (.columnRef c) => if c = ⟨mark, 0⟩ then some false else none
  | .comparison t (.columnRef c) (.constant (some (.boolean v))) => if c = ⟨mark, 0⟩ then expectedTruth t v else none
  | .comparison t (.constant (some (.boolean v))) (.columnRef c) => if c = ⟨mark, 0⟩ then expectedTruth t v else none
  | _ => none

variable (join : ComparisonJoin α)

/-- pushdown.rs:731-744 -/
def consumedMarkerTruthFilter (filters : List (Expr α)) : Option (Nat × Bool) :=
  join.markIndex.bind fun mark =>
    match filters.zipIdx.filter (·.1.bindings.contains mark) with
    | [(f, i)] => (markerTruthTest ⟨mark, 0⟩ f).map (i, ·)
    | _ => none

/-- join.rs:451-456 -/
def makeNullAwareAnti (h : ∀ c ∈ join.conditions, c.comparison = .equal) :
    ComparisonJoin α :=
  ⟨.anti, .nullAware, join.conditions, none, .notMark, fun _ => ⟨rfl, h⟩⟩

theorem not_nullAware {join : ComparisonJoin α} (hmark : join.joinType = .mark) : join.antiJoinMode ≠ .nullAware := by
  intro h
  have hanti := (join.nullAware h).1
  rw [hmark] at hanti
  cases hanti

/-- pushdown.rs:1321-1346 for a join of type `Mark`, `none` when the join is left as it is. -/
def lowerMarkJoinForTruth (hmark : join.joinType = .mark) (expected : Bool) :
    Option (ComparisonJoin α) :=
  if expected then some ⟨.semi, join.antiJoinMode, join.conditions, none, .notMark, (absurd · (not_nullAware hmark))⟩
  else if join.markSemantics = .twoValued then
    some ⟨.anti, join.antiJoinMode, join.conditions, none, .notMark, (absurd · (not_nullAware hmark))⟩
  else if h : join.markSemantics = .threeValuedFrom 0 ∧ join.conditions.length = 1 ∧
      ∀ c ∈ join.conditions, c.comparison = .equal then some (makeNullAwareAnti join h.2.2)
  else none

/-- The consumed filter is the one that reads the marker, and it is a truth test. -/
theorem consumed_spec {join : ComparisonJoin α} {filters : List (Expr α)} {f : Expr α} {index markIndex : Nat}
    {expected : Bool} (hindex : join.markIndex = some markIndex)
    (h : consumedMarkerTruthFilter join filters = some (index, expected)) (hf : filters[index]? = some f) :
    markerTruthTest ⟨markIndex, 0⟩ f = some expected := by
  rw [consumedMarkerTruthFilter, hindex, Option.bind_some] at h
  split at h
  · rename_i g i hone
    obtain ⟨e, htest, he⟩ := Option.map_eq_some_iff.1 h
    cases he
    have hmem : (g, index) ∈ filters.zipIdx := (mem_filter.1 (hone ▸ mem_singleton_self (g, index))).1
    have hg : filters[index]? = some g := by simpa [mem_zipIdx_iff_getElem?] using hmem
    rw [hf] at hg
    cases hg
    exact htest
  · cases h

/-! ## What the joins keep -/

open ComparisonJoin

section
variable {rights : Rows α} {partner : Row (Datum α) → Option Bool}

theorem marker_eq_true : marker partner rights = some true ↔ ∃ r ∈ rights, partner r = some true := by
  unfold marker
  split <;> simp_all

theorem marker_eq_false : marker partner rights = some false ↔ ∀ r ∈ rights, partner r = some false := by
  have hfalse : ∀ m : Option Bool, m = some false ↔ m ≠ some true ∧ m ≠ none := by
    rintro (_ | _ | _) <;> simp
  unfold marker
  simp only [any_eq_true, decide_eq_true_eq, hfalse (partner _)]
  split
  · grind
  · split <;> grind

variable [DecidableEq α] [PartialCmp α] {outer : Scope α} {join lowered : ComparisonJoin α}
  {l r : Row (Datum α)} {semantics : MarkJoinSemantics} {conditions : List (JoinCondition α)} {expected : Bool}

/-- A pair of rows matches when all conditions are TRUE, whatever NULL counts as. -/
theorem rowMatch_eq_true {index : Nat} {sawNull : Bool} :
    rowMatch outer l r semantics index sawNull conditions = some true ↔
      sawNull = false ∧ ∀ c ∈ conditions, c.compare outer l r = some true := by
  induction conditions generalizing index sawNull with
  | nil => cases sawNull <;> simp [rowMatch]
  | cons c rest ih =>
    rw [rowMatch, forall_mem_cons]
    rcases hc : c.compare outer l r with _ | _ | _
    · cases markConditionNullIsUnknown semantics index <;> simp [ih]
    · simp
    · simp [ih]

theorem rowMatch_twoValued {index : Nat} : rowMatch outer l r .twoValued index false conditions ≠ none := by
  induction conditions generalizing index with
  | nil => simp [rowMatch]
  | cons c rest ih =>
    rw [rowMatch]
    rcases c.compare outer l r with _ | _ | _
    · simp [markConditionNullIsUnknown]
    · simp
    · exact ih

theorem compare_equal_eq_none {c : JoinCondition α} (h : c.comparison = .equal) :
    c.compare outer l r = none ↔ c.left.eval (assign outer l) = none ∨ c.right.eval (assign outer r) = none := by
  rw [JoinCondition.compare, h, compareWithNulls, strict]
  cases c.left.eval (assign outer l) <;> cases c.right.eval (assign outer r) <;> simp

/-- A scalar `IN` is FALSE when nothing matches and no key is NULL, and for no rows. -/
theorem nullAware_false {c : JoinCondition α} (hequal : c.comparison = .equal) :
    (∀ r ∈ rights, c.compare outer l r = some false) ↔ (∀ r ∈ rights, c.compare outer l r ≠ some true) ∧
      (rights = [] ∨ (c.left.eval (assign outer l)).isSome = true ∧
        ∀ r ∈ rights, (c.right.eval (assign outer r)).isSome = true) := by
  simp only [Option.isSome_iff_ne_none]
  constructor
  · intro h
    refine ⟨fun r hr => by simp [h r hr], ?_⟩
    cases rights with
    | nil => exact .inl rfl
    | cons first rest =>
      have hsome : ∀ r ∈ first :: rest, _ := fun r hr =>
        not_or.1 ((compare_equal_eq_none hequal).not.1 (by rw [h r hr]; exact Option.some_ne_none _))
      exact .inr ⟨(hsome first mem_cons_self).1, fun r hr => (hsome r hr).2⟩
  · rintro ⟨hno, hsome⟩ r hr
    rcases hp : c.compare outer l r with _ | _ | _
    · rcases hsome with rfl | ⟨hl, hrights⟩
      · cases hr
      · rcases (compare_equal_eq_none hequal).1 hp with h | h
        · exact absurd h hl
        · exact absurd h (hrights r hr)
    · rfl
    · exact absurd hp (hno r hr)

/-- What the lowered join keeps, by the marker. -/
theorem keeps_iff (hmark : join.joinType = .mark) (h : lowerMarkJoinForTruth join hmark expected = some lowered) :
    lowered.keeps outer rights l = true ↔ marker (join.match outer l) rights = some expected := by
  have hmatch : ∀ r, lowered.conditions = join.conditions →
      (lowered.match outer l r = some true ↔ join.match outer l r = some true) := by
    intro r hc
    rw [ComparisonJoin.match, ComparisonJoin.match, hc, rowMatch_eq_true, rowMatch_eq_true]
  unfold lowerMarkJoinForTruth at h
  split at h
  · -- TRUE: a semi join
    subst expected
    cases h
    rw [marker_eq_true]
    simp [keeps, hmatch]
  rename_i hexpected
  obtain rfl : expected = false := by simpa using hexpected
  rw [marker_eq_false]
  split at h
  · -- FALSE of an EXISTS marker: an anti join
    rename_i htwo
    cases h
    have hmode : join.antiJoinMode = .regular := by
      cases hm : join.antiJoinMode with
      | regular => rfl
      | nullAware => exact absurd hm (not_nullAware hmark)
    simp only [keeps, reduceCtorEq, if_false, hmode, decide_true, Bool.true_or, Bool.and_true, all_eq_true,
      decide_eq_true_eq, ne_eq]
    refine forall₂_congr fun r _ => ?_
    have hnull : join.match outer l r ≠ none := by
      rw [ComparisonJoin.match, htwo]
      exact rowMatch_twoValued
    rcases hp : join.match outer l r with _ | _ | _ <;> simp_all
  · split at h
    · -- FALSE of a scalar IN marker: a null-aware anti join
      rename_i hthree
      cases h
      obtain ⟨c, hc⟩ := length_eq_one_iff.1 hthree.2.1
      have hequal := hthree.2.2 c (by simp [hc])
      have hpair : ∀ r, join.match outer l r = c.compare outer l r := by
        intro r
        rw [ComparisonJoin.match, hthree.1, hc, rowMatch]
        rcases c.compare outer l r with _ | _ | _ <;> rfl
      have hkept := fun r => hmatch r rfl
      simp only [hpair, nullAware_false hequal] at hkept ⊢
      simp [keeps, makeNullAwareAnti, hc, ← hkept]
    · cases h

/-! ## What the filter keeps -/

/-- An `IS DISTINCT FROM`. -/
def distinctTest : Expr α → Bool
  | .comparison .distinctFrom _ _ => true
  | _ => false

variable {mark : ColumnBinding} {f : Expr α} {m : Option Bool}

theorem compare_marker {t : ComparisonType} {v : Bool} (h : expectedTruth t v = some expected) {a b : Value α}
    (hab : a = m.map .boolean ∧ b = some (.boolean v) ∨ a = some (.boolean v) ∧ b = m.map .boolean) :
    compareWithNulls t a b = some true ↔ m = some expected ∨ m = none ∧ t = .distinctFrom := by
  rcases hab with ⟨rfl, rfl⟩ | ⟨rfl, rfl⟩
  all_goals
    cases t <;> simp only [expectedTruth, Option.some.injEq, reduceCtorEq] at h <;> subst h <;>
      rcases m with _ | _ | _ <;> cases v <;> simp [compareWithNulls, strict]

/-- Every recognised test is true on the expected truth; `IS DISTINCT FROM` on UNKNOWN too. -/
theorem holds_iff (h : markerTruthTest mark f = some expected) :
    f.holds (assign outer (withMarker mark m l)) = true ↔ m = some expected ∨ m = none ∧ distinctTest f = true := by
  have hcolumn : assign outer (withMarker mark m l) ⟨mark, 0⟩ = m.map .boolean := by simp [assign, withMarker]
  have htruth : ∀ {t} {a b : Value α}, truth ((compareWithNulls t a b).map Datum.boolean : Value α) = some true ↔
      compareWithNulls t a b = some true := by
    intro t a b
    rcases compareWithNulls t a b with _ | _ | _ <;> simp [truth]
  have hdistinct : ∀ {t} {a b : Expr α}, distinctTest (.comparison t a b) = true ↔ t = .distinctFrom := by
    intro t a b
    cases t <;> simp [distinctTest]
  unfold markerTruthTest at h
  rw [holds, decide_eq_true_eq]
  split at h
  case h_5 => cases h
  all_goals
    split at h
    case isFalse => cases h
    subst_vars
  · cases h
    rw [eval, hcolumn]
    rcases m with _ | _ | _ <;> simp [truth, distinctTest]
  · cases h
    rw [eval, eval, hcolumn]
    rcases m with _ | _ | _ <;> simp [truth, distinctTest]
  · rw [eval, eval, eval, hcolumn, htruth, hdistinct]
    exact compare_marker h (.inl ⟨rfl, rfl⟩)
  · rw [eval, eval, eval, hcolumn, htruth, hdistinct]
    exact compare_marker h (.inr ⟨rfl, rfl⟩)

variable {lefts : Rows α} {filters : List (Expr α)} {index markIndex : Nat}

/-- **Lowering a mark join.** The join without the marker keeps the left rows on which the dropped filter is true,
unless the filter is an `IS DISTINCT FROM` and the marker of a left row is UNKNOWN. -/
theorem markLowering_iff (hmark : join.joinType = .mark) (hindex : join.markIndex = some markIndex)
    (hconsumed : consumedMarkerTruthFilter join filters = some (index, expected)) (hf : filters[index]? = some f)
    (hlower : lowerMarkJoinForTruth join hmark expected = some lowered) :
    lefts.filter (lowered.keeps outer rights) =
        lefts.filter (fun l => f.holds (assign outer (withMarker ⟨markIndex, 0⟩
          (marker (join.match outer l) rights) l))) ↔
      (distinctTest f = true → ∀ l ∈ lefts, marker (join.match outer l) rights ≠ none) := by
  have htest := consumed_spec hindex hconsumed hf
  constructor
  · intro heq hdistinct l hl hnull
    have hkept : l ∈ lefts.filter (lowered.keeps outer rights) := by
      rw [heq]
      exact mem_filter.2 ⟨hl, (holds_iff htest).2 (.inr ⟨hnull, hdistinct⟩)⟩
    have hfalse := (keeps_iff hmark hlower).1 (mem_filter.1 hkept).2
    rw [hnull] at hfalse
    cases hfalse
  · intro h
    refine filter_congr fun l hl => ?_
    rw [Bool.eq_iff_iff, keeps_iff hmark hlower, holds_iff htest]
    constructor
    · exact .inl
    · rintro (hm | ⟨hnull, hdistinct⟩)
      · exact hm
      · exact absurd hnull (h hdistinct l hl)

end

/-! ## A scalar `IN` over NULL -/

/-- `t.a IN (SELECT b FROM u)` -/
def scalarIn : ComparisonJoin Nat :=
  ⟨.mark, .regular, [⟨.columnRef ⟨⟨0, 0⟩, 0⟩, .columnRef ⟨⟨1, 0⟩, 0⟩, .equal⟩], some 2, .threeValuedFrom 0,
    fun h => by cases h⟩

def markerIs (t : ComparisonType) (v : Bool) : Expr Nat :=
  .comparison t (.columnRef ⟨⟨2, 0⟩, 0⟩) (.constant (some (.boolean v)))

/-- Rows of one column. -/
def keyRows (keys : List (Option Nat)) : Rows Nat := keys.map fun key _ => key.map .other

/-- Right keys without and with a NULL. -/
def rightKeys : List (List (Option Nat)) := [[some 2, some 3], [some 2, none, some 3]]

/-- `marker <> TRUE` for keys with and without NULL on both sides. -/
theorem notEqual_true_kept :
    (rightKeys.map fun keys => (keyRows [some 1, some 2, none, some 4]).filter
        ((makeNullAwareAnti scalarIn (by decide)).keeps (fun _ => none) (keyRows keys))) =
      rightKeys.map fun keys => (keyRows [some 1, some 2, none, some 4]).filter fun l =>
        (markerIs .notEqual true).holds
          (assign (fun _ => none) (withMarker ⟨2, 0⟩ (marker (scalarIn.match (fun _ => none) l) (keyRows keys)) l)) := by
  have hconsumed : consumedMarkerTruthFilter scalarIn [markerIs .notEqual true] = some (0, false) := rfl
  refine map_congr_left fun keys _ => ?_
  exact (markLowering_iff rfl rfl hconsumed rfl rfl).2 fun h => by cases h

/-- Of the four keys 1 and 4 are kept when no right key is NULL, and none otherwise. -/
example : (rightKeys.map fun keys =>
    ((keyRows [some 1, some 2, none, some 4]).filter
      ((makeNullAwareAnti scalarIn (by decide)).keeps (fun _ => none) (keyRows keys))).length) = [2, 0] := by
  decide

/-- `a IN (SELECT b FROM u) IS DISTINCT FROM TRUE` is true for a NULL `a`, and the rewritten plan drops the row. -/
theorem nullRow_lost :
    consumedMarkerTruthFilter scalarIn [markerIs .distinctFrom true] = some (0, false) ∧
      ((lowerMarkJoinForTruth scalarIn rfl false).map fun lowered =>
        ([fun _ => none].filter (lowered.keeps (fun _ => none) [fun _ => some (.other 1)])).length) = some 0 ∧
      ([fun _ => none].filter fun l => (markerIs .distinctFrom true).holds (assign (fun _ => none) (withMarker ⟨2, 0⟩
        (marker (scalarIn.match (fun _ => none) l) [fun _ => some (.other 1)]) l))).length = 1 := by
  decide

end Paro.L3.MarkLowering
