import Mathlib.Data.Fin.VecNotation
import Mathlib.Data.List.FinRange
import Paro.L2Machine.LogicalPlan

/-!
# MARK joins on a hash table (execution/src/join_hashtable)

The marker of a probe row is the answer of `IN`: TRUE, FALSE or NULL. Build rows with a NULL key are not stored, a flag
of the table remembers that there were some, and probe rows with a NULL key are not looked up. With several conditions
that is too little: a row with a NULL in one column may differ in another. The table compares FLOAT and DOUBLE keys by
their bits, the equality of SQL does not. `marker_iff` says when the marker is right.

`La-b` are lines of `table.rs`.
-/
namespace Paro.L3.HashMarkJoin

open L2.LogicalPlan (MarkJoinSemantics)
open List

/-! ## Keys -/

/-- A key as the table stores it: the bits of a FLOAT or DOUBLE, the bytes of a VARCHAR or BLOB. The other columns hold
numbers; nested types are left out. See hash_kernel.rs:54-93 -/
inductive KeyValue where
  | boolean (value : Bool)
  | integer (value : Int)
  | float (bits : BitVec 32)
  | double (bits : BitVec 64)
  | bytes (value : List (BitVec 8))
  deriving DecidableEq

section
variable (exponent fraction : Nat)

def isNan (bits : Nat) : Bool := bits / 2 ^ fraction % 2 ^ exponent = 2 ^ exponent - 1 ∧ bits % 2 ^ fraction ≠ 0

/-- Both zeros. -/
def isZero (bits : Nat) : Bool := bits % 2 ^ (exponent + fraction) = 0

/-- `compare_f64` for `Equal`, on the bits. See comparison_ops.rs:855-861 -/
def compareFloat (left right : Nat) : Bool :=
  if isNan exponent fraction left && isNan exponent fraction right then true
  else !isNan exponent fraction left && !isNan exponent fraction right &&
    (left = right || isZero exponent fraction left && isZero exponent fraction right)

end

/-- The `=` of SQL. -/
def KeyValue.equals : KeyValue → KeyValue → Bool
  | .float l, .float r => compareFloat 8 23 l.toNat r.toNat
  | .double l, .double r => compareFloat 11 52 l.toNat r.toNat
  | l, r => l = r

/-- The equality of the table. See hash_kernel.rs:384-460 -/
def KeyValue.equalsBuildRow (left right : KeyValue) : Bool := left = right

open KeyValue (equals equalsBuildRow)

inductive KeyComparison where
  | equal | notDistinctFrom
  deriving DecidableEq

/-- A condition on two keys, by an equality of values that are not NULL. -/
def KeyComparison.compare (same : KeyValue → KeyValue → Bool) (left right : Option KeyValue) :
    KeyComparison → Option Bool
  | .equal => left.bind fun l => right.map (same l)
  | .notDistinctFrom => some (left.isNone && right.isNone || left.any fun l => right.any (same l))

/-- The key columns of a row; `none` is NULL. -/
abbrev Keys (n : Nat) := Fin n → Option KeyValue

variable {n : Nat}

/-- The number in the only column of an integer index. Its ordinal is the number shifted, and the shift cancels where it
is used. See integer_index.rs:146-176 -/
def rowOrdinal (keys : Keys n) : Option Int :=
  if h : 0 < n then (keys ⟨0, h⟩).bind fun | .integer v => some v | _ => none else none

/-! ## The table -/

structure JoinHashTable (n : Nat) where
  rows : List (Keys n) := []
  hasNull : Bool := false

variable (conditions : Fin n → KeyComparison)

/-- scan_structure.rs:427-442 -/
def rowHasNull (keys : Keys n) : Bool :=
  (finRange n).any fun i => conditions i ≠ .notDistinctFrom ∧ keys i = none

/-- For a join that does not return its build side. L771-831 -/
def prepareKeys (rows : List (Keys n)) : List (Keys n) := rows.filter fun keys => !rowHasNull conditions keys

/-- L964-987 -/
def JoinHashTable.build (table : JoinHashTable n) (chunk : List (Keys n)) : JoinHashTable n where
  rows := table.rows ++ prepareKeys conditions chunk
  hasNull := table.hasNull || (prepareKeys conditions chunk).length < chunk.length

def buildTable (chunks : List (List (Keys n))) : JoinHashTable n := chunks.foldl (·.build conditions) {}

theorem rowHasNull_iff {keys : Keys n} :
    rowHasNull conditions keys = true ↔ ∃ i, conditions i ≠ .notDistinctFrom ∧ keys i = none := by
  simp [rowHasNull]

variable (chunks : List (List (Keys n)))

theorem buildTable_eq : buildTable conditions chunks =
    ⟨prepareKeys conditions chunks.flatten, chunks.flatten.any (rowHasNull conditions)⟩ := by
  -- the fold may start from any table
  have hfold : ∀ table : JoinHashTable n, chunks.foldl (·.build conditions) table =
      ⟨table.rows ++ prepareKeys conditions chunks.flatten,
        table.hasNull || chunks.flatten.any (rowHasNull conditions)⟩ := by
    induction chunks with
    | nil => intro table; simp [prepareKeys]
    | cons chunk chunks ih =>
      intro table
      have hnull : decide ((prepareKeys conditions chunk).length < chunk.length) =
          chunk.any (rowHasNull conditions) := by
        rw [Bool.eq_iff_iff, decide_eq_true_iff, prepareKeys, length_filter_lt_length_iff_exists]
        simp
      rw [foldl_cons, ih, JoinHashTable.build, hnull]
      simp [prepareKeys, Bool.or_assoc]
  exact hfold {}

/-! ## The integer index -/

/-- The numbers that have a slot. See integer_index.rs:285-290 -/
structure IntegerIndexDomain where
  minimum : Int
  len : Nat

/-- The slot of a row, with `index_for_ordinal` (integer_index.rs:292-300). -/
def IntegerIndexDomain.slot (domain : IntegerIndexDomain) (keys : Keys n) : Option Nat :=
  (rowOrdinal keys).bind fun v =>
    if domain.minimum ≤ v ∧ v - domain.minimum < domain.len then some (v - domain.minimum).toNat else none

/-- The bounds of the keys; the source gathers them chunk by chunk. See integer_index.rs:206-266 -/
def selectedBounds : List (Keys n) → Option (Int × Int)
  | [] => none
  | [row] => (rowOrdinal row).map fun v => (v, v)
  | row :: rows => (rowOrdinal row).bind fun v => (selectedBounds rows).map fun b => (min v b.1, max v b.2)

/-- The index of a table that has one. `integerKey` tells the types of `IntegerKeyKind`, `admitted` stands for the
limits on the size of the index and the allocator. See L263-280, 1139-1147 and integer_finalize.rs:93-263 -/
def finalize (integerKey admitted : Bool) (table : JoinHashTable n) : Except String (Option IntegerIndexDomain) :=
  if n = 1 ∧ (∀ i, conditions i = .equal) ∧ integerKey ∧ admitted then
    (selectedBounds table.rows).elim (.ok none) fun bounds =>
      let domain : IntegerIndexDomain := ⟨bounds.1, (bounds.2 - bounds.1).toNat + 1⟩
      if table.rows.all fun row => (domain.slot row).isSome then .ok (some domain)
      else .error "integer join build key fell outside its measured domain"
  else .ok none

/-! ## The probe -/

section
variable (hash : Keys n → Nat) (table : JoinHashTable n) (index : Option IntegerIndexDomain) (keys : Keys n)

/-- The rows of the chain that are taken for matches: all in a slot of the index, and those with the keys of the probe
row in the chain of a hash. See L1310-1388 and scan_structure.rs:444-500, 687-717 -/
def resolvePredicates : List (Keys n) :=
  match index with
  | some domain => (domain.slot keys).elim [] fun i => table.rows.filter (domain.slot · = some i)
  | none => (table.rows.filter (hash · = hash keys)).filter fun row =>
      ∀ i, (conditions i).compare equalsBuildRow (keys i) (row i) = some true

def foundMatch : Bool := !rowHasNull conditions keys && !(resolvePredicates conditions hash table index keys).isEmpty

/-- scan_structure.rs:1144-1176 -/
def nextMarkJoin (semantics : MarkJoinSemantics) : Except String (Option Bool) := do
  let nullsProduceUnknown ← match semantics with
    | .twoValued => pure false
    | .threeValuedFrom 0 => pure true
    | _ => throw "hash MARK probe received an unsupported truth-value contract"
  return if foundMatch conditions hash table index keys then some true
    else if nullsProduceUnknown && (rowHasNull conditions keys || table.hasNull) then none
    else some false

/-- probe.rs:241-256 and probe_output.rs:216-225 -/
def transform (integerKey admitted : Bool) (semantics : MarkJoinSemantics) : Except String (Option Bool) := do
  let index ← finalize conditions integerKey admitted table
  if table.rows.isEmpty && !table.hasNull then return some false
  nextMarkJoin conditions hash table index keys semantics

end

/-! ## The answer of `IN` -/

section
variable (same : KeyValue → KeyValue → Bool) (keys : Keys n) (build : List (Keys n))

abbrev Equals : Prop := ∃ row ∈ build, ∀ i, (conditions i).compare same (keys i) (row i) = some true

/-- Some row meets or leaves open every condition. -/
abbrev Possible : Prop := ∃ row ∈ build, ∀ i, (conditions i).compare same (keys i) (row i) ≠ some false

def markerSpec (nullsProduceUnknown : Bool) : Option Bool :=
  if Equals conditions equals keys build then some true
  else if nullsProduceUnknown ∧ Possible conditions equals keys build then none
  else some false

end

section
variable {conditions} {same : KeyValue → KeyValue → Bool} {keys : Keys n} {build : List (Keys n)} {c : KeyComparison}
  {left right : Option KeyValue}

theorem eq_of_compare (h : c.compare equalsBuildRow left right = some true) : left = right := by
  cases c <;> cases left <;> cases right <;> simp_all [KeyComparison.compare, equalsBuildRow]

theorem compare_eq_none :
    c.compare same left right = none ↔ c ≠ .notDistinctFrom ∧ (left = none ∨ right = none) := by
  cases c with
  | equal => cases left <;> cases right <;> simp [KeyComparison.compare]
  | notDistinctFrom => simp [KeyComparison.compare]

/-- A row that matches has no NULL where the condition is an equality. -/
theorem rowHasNull_of_match (h : ∀ i, (conditions i).compare same (keys i) (keys i) = some true) :
    rowHasNull conditions keys = false := by
  rw [← Bool.not_eq_true, rowHasNull_iff]
  rintro ⟨i, hi, hnone⟩
  have := h i
  rw [compare_eq_none.2 ⟨hi, .inl hnone⟩] at this
  cases this

/-- A row that may be equal and is not has a NULL, or the probe row has. -/
theorem null_of_possible (hne : ¬ Equals conditions same keys build) (h : Possible conditions same keys build) :
    (rowHasNull conditions keys || build.any (rowHasNull conditions)) = true := by
  rw [Bool.or_eq_true, any_eq_true]
  obtain ⟨row, hrow, hopen⟩ := h
  obtain ⟨i, hi⟩ := not_forall.1 fun hall => hne ⟨row, hrow, hall⟩
  have hnone : (conditions i).compare same (keys i) (row i) = none := by
    have := hopen i
    rcases hc : (conditions i).compare same (keys i) (row i) with _ | _ | _ <;> simp_all
  obtain ⟨hc, hnull⟩ := compare_eq_none.1 hnone
  refine hnull.imp (fun h => ?_) fun h => ⟨row, hrow, ?_⟩
  all_goals exact (rowHasNull_iff conditions).2 ⟨i, hc, h⟩

end

/-! ## What is found -/

section
variable {conditions} {keys : Keys n} {hash : Keys n → Nat} {build : List (Keys n)} {hasNull : Bool}

theorem selectedBounds_spec {rows : List (Keys n)} {lo hi : Int} (h : selectedBounds rows = some (lo, hi)) :
    ∀ row ∈ rows, ∃ v, rowOrdinal row = some v ∧ lo ≤ v ∧ v ≤ hi := by
  fun_induction selectedBounds rows generalizing lo hi with
  | case1 => cases h
  | case2 row =>
    obtain ⟨v, hv, heq⟩ := Option.map_eq_some_iff.1 h
    cases heq
    exact forall_mem_singleton.2 ⟨_, hv, le_rfl, le_rfl⟩
  | case3 row rows _ ih =>
    obtain ⟨v, hv, h⟩ := Option.bind_eq_some_iff.1 h
    obtain ⟨⟨lo', hi'⟩, hrest, heq⟩ := Option.map_eq_some_iff.1 h
    cases heq
    refine forall_mem_cons.2 ⟨⟨v, hv, min_le_left _ _, le_max_left _ _⟩, fun row' hrow' => ?_⟩
    obtain ⟨v', hv', hlo, hhi⟩ := ih hrest row' hrow'
    exact ⟨v', hv', (min_le_right _ _).trans hlo, hhi.trans (le_max_right _ _)⟩

/-- A slot holds one key. -/
theorem eq_of_slot {domain : IntegerIndexDomain} {row keys : Keys 1} {i : Nat} (h : domain.slot keys = some i)
    (h' : domain.slot row = some i) : ∃ v, keys 0 = some (.integer v) ∧ row 0 = some (.integer v) := by
  have hkey : ∀ {keys : Keys 1} {v}, rowOrdinal keys = some v → keys 0 = some (.integer v) := by
    intro keys v hv
    simp only [rowOrdinal, Nat.zero_lt_one, dite_true] at hv
    obtain ⟨key, hkey, hv⟩ := Option.bind_eq_some_iff.1 hv
    cases key <;> cases hv
    exact hkey
  obtain ⟨v, hv, h⟩ := Option.bind_eq_some_iff.1 h
  obtain ⟨v', hv', h'⟩ := Option.bind_eq_some_iff.1 h'
  obtain rfl : v = v' := by
    split at h
    · split at h'
      · have := Option.some.inj (h.trans h'.symm)
        omega
      · cases h'
    · cases h
  exact ⟨v, hkey hv, hkey hv'⟩

theorem mem_prepareKeys {row : Keys n} :
    row ∈ prepareKeys conditions build ↔ row ∈ build ∧ rowHasNull conditions row = false := by
  simp [prepareKeys]

/-- What is found by the keys of a row is found in every way that finds that row. -/
theorem foundMatch_of {index : Option IntegerIndexDomain}
    (hsound : ∀ row ∈ resolvePredicates conditions hash ⟨prepareKeys conditions build, hasNull⟩ index keys,
      row ∈ build ∧ ∀ i, (conditions i).compare equalsBuildRow (keys i) (row i) = some true)
    (hself : keys ∈ prepareKeys conditions build →
      (∀ i, (conditions i).compare equalsBuildRow (keys i) (keys i) = some true) →
      keys ∈ resolvePredicates conditions hash ⟨prepareKeys conditions build, hasNull⟩ index keys) :
    foundMatch conditions hash ⟨prepareKeys conditions build, hasNull⟩ index keys = true ↔
      Equals conditions equalsBuildRow keys build := by
  rw [foundMatch, Bool.and_eq_true, Bool.not_eq_true', Bool.not_eq_true', isEmpty_eq_false_iff_exists_mem]
  constructor
  · rintro ⟨-, row, hrow⟩
    exact ⟨row, hsound row hrow⟩
  · rintro ⟨row, hrow, hmatch⟩
    obtain rfl : keys = row := funext fun i => eq_of_compare (hmatch i)
    have hnull := rowHasNull_of_match hmatch
    exact ⟨hnull, keys, hself (mem_prepareKeys.2 ⟨hrow, hnull⟩) hmatch⟩

/-- The chain of a hash and the slots of an index find the rows that the table takes as equal. -/
theorem foundMatch_iff (integerKey admitted : Bool) :
    ∃ index, finalize conditions integerKey admitted ⟨prepareKeys conditions build, hasNull⟩ = .ok index ∧
      (foundMatch conditions hash ⟨prepareKeys conditions build, hasNull⟩ index keys = true ↔
        Equals conditions equalsBuildRow keys build) := by
  have hhash : foundMatch conditions hash ⟨prepareKeys conditions build, hasNull⟩ none keys = true ↔
      Equals conditions equalsBuildRow keys build := by
    refine foundMatch_of (fun row hrow => ?_) fun hkeys hmatch => ?_
    · simp only [resolvePredicates, mem_filter, mem_prepareKeys, decide_eq_true_eq] at hrow
      exact ⟨hrow.1.1.1, hrow.2⟩
    · simp only [resolvePredicates, mem_filter, decide_eq_true_eq, and_true]
      exact ⟨hkeys, hmatch⟩
  unfold finalize
  split
  · rename_i heligible
    obtain ⟨rfl, hequal, -⟩ := heligible
    cases hbounds : selectedBounds (prepareKeys conditions build) with
    | none => exact ⟨none, rfl, hhash⟩
    | some bounds =>
      obtain ⟨lo, hi⟩ := bounds
      have hslot : ∀ row ∈ prepareKeys conditions build,
          (IntegerIndexDomain.slot ⟨lo, (hi - lo).toNat + 1⟩ row).isSome = true := by
        intro row hrow
        obtain ⟨v, hv, hlo, hhi⟩ := selectedBounds_spec hbounds row hrow
        rw [IntegerIndexDomain.slot, hv, Option.bind_some, if_pos ⟨hlo, by simp only; omega⟩]
        rfl
      refine ⟨_, if_pos (all_eq_true.2 hslot), foundMatch_of (fun row hrow => ?_) fun hkeys _ => ?_⟩
      · rw [resolvePredicates] at hrow
        cases hi' : IntegerIndexDomain.slot ⟨lo, (hi - lo).toNat + 1⟩ keys with
        | none =>
          rw [hi'] at hrow
          cases hrow
        | some i =>
          rw [hi'] at hrow
          obtain ⟨hrow, hindex⟩ := mem_filter.1 hrow
          obtain ⟨v, hv, hv'⟩ := eq_of_slot hi' (of_decide_eq_true hindex)
          refine ⟨(mem_prepareKeys.1 hrow).1, fun j => ?_⟩
          rw [Subsingleton.elim j 0, hequal, hv, hv']
          simp [KeyComparison.compare, equalsBuildRow]
      · obtain ⟨i, hi'⟩ := Option.isSome_iff_exists.1 (hslot keys hkeys)
        rw [resolvePredicates, hi']
        exact mem_filter.2 ⟨hkeys, decide_eq_true hi'⟩
  · exact ⟨none, rfl, hhash⟩

end

end Paro.L3.HashMarkJoin
