import Paro.L1Resource.LockResource

/-!
# Read dependencies

Model of `ReadDependency` (crates/transaction/src/view.rs:163-378): the eight kinds of read
that a serializable transaction records, the test `conflicts_with_write` against a written
resource, and the two ways a dependency is widened (`table_marker`, `normalize_dependency`).

`Covers d' d` says that `d'` conflicts with every write that `d` conflicts with. Widening
gives a covering dependency (`covers_widen`, `covers_normalize`); everything the read
dependency index does to a read set rests on that.
-/
namespace Paro.L1

/-- types/mod.rs:151-159 -/
inductive ParticipantKind
  | storage | catalog | search | graph | maintenance | external | bulkLoad
deriving DecidableEq, Repr

/-- Only the table of the key matters for conflicts; the remaining fields tell keys apart.
types/mod.rs:166-172 -/
structure TxnResourceKey where
  kind : ParticipantKind
  databaseId : Nat
  tableId : Option Nat
  (localHi localLo : Nat)
deriving DecidableEq, Repr

/-- view.rs:163-201 -/
inductive ReadDependency
  | table (tableId : Nat)
  | row (tableId rowId : Nat)
  | tablet (tableId tabletId readTs layoutEpoch rowsetCount : Nat)
  | rowset (tableId tabletId rowsetId readTs layoutEpoch : Nat)
  | keyRange (tableId : Nat) (startHash endHash : UInt64)
  | predicate (tableId predicateHash : Nat)
  | analyticalScan (tableId : Nat)
  | generation (resourceKey : TxnResourceKey) (generation : Nat)
deriving DecidableEq, Repr

variable (w : LockResource)

/-- view.rs:284-286 -/
def writeMatchesTable (t : Nat) : Bool :=
  match w with
  | .database _ => true
  | _ => decide (w.tableId = some t)

/-- view.rs:286-324 -/
def writeMatchesTablet (t tb : Nat) : Bool :=
  match w with
  | .database _ => true
  | .table _ t' | .predicate _ t' _ => decide (t' = t)
  | .tablet _ t' tb' | .primaryKey _ t' tb' _ | .rowId _ t' tb' _ _ _ | .range _ t' tb' _ _ =>
    decide (t' = t ∧ tb' = tb)
  | .schema _ _ | .catalogObject _ _ _ => false

/-- view.rs:323-338 -/
def writeMatchesRowset (t tb rs : Nat) : Bool :=
  match w with
  | .rowId _ t' tb' rs' _ _ => decide (t' = t ∧ tb' = tb ∧ rs' = rs)
  | other => writeMatchesTablet other t tb

/-- view.rs:340-363 -/
def writeMatchesKeyRange (t : Nat) (s e : UInt64) : Bool :=
  match w with
  | .primaryKey _ t' _ k => decide (t' = t) && hashInRange k s e
  | .range _ t' _ s' e' => decide (t' = t) && rangesOverlap s e s' e'
  | other => writeMatchesTable other t

namespace ReadDependency

/-- view.rs:205-216 -/
def tableId : ReadDependency → Option Nat
  | table t | row t _ | tablet t _ _ _ _ | rowset t _ _ _ _ | keyRange t _ _ | predicate t _
  | analyticalScan t => some t
  | generation k _ => k.tableId

/-- view.rs:219-226 -/
def tableMarker : ReadDependency → Option ReadDependency
  | analyticalScan t => some (analyticalScan t)
  | d => d.tableId.map table

/-- view.rs:229-231 -/
def isCoarseScanMarker : ReadDependency → Bool
  | analyticalScan _ => true
  | _ => false

/-- view.rs:234-245 -/
def estimatedBytes : ReadDependency → Nat
  | table _ => 32
  | row _ _ => 40
  | tablet _ _ _ _ _ => 56
  | rowset _ _ _ _ _ => 56
  | keyRange _ _ _ => 48
  | predicate _ _ => 40
  | analyticalScan _ => 32
  | generation _ _ => 48

variable (d : ReadDependency)

/-- view.rs:247-281 -/
def conflictsWithWrite (w : LockResource) : Bool :=
  match d with
  | table t | row t _ => writeMatchesTable w t
  | tablet t tb _ _ _ => writeMatchesTablet w t tb
  | rowset t tb rs _ _ => writeMatchesRowset w t tb rs
  | keyRange t s e => writeMatchesKeyRange w t s e
  | predicate t _ | analyticalScan t => writeMatchesTable w t
  | generation k _ =>
    match k.tableId with
    | some t => writeMatchesTable w t
    | none =>
      match w with
      | .database _ | .catalogObject _ _ _ => true
      | _ => false

def widen : ReadDependency := d.tableMarker.getD d

/-- read_dependency_index.rs:729-734 -/
def normalize : ReadDependency → ReadDependency
  | row t _ => table t
  | d => d

/-- read_dependency_index.rs:753-786 -/
def orderKey : ReadDependency → List Nat
  | table t => [0, t, 0, 0, 0]
  | tablet t tb _ _ _ => [1, t, tb, 0, 0]
  | rowset t tb rs _ _ => [2, t, tb, rs, 0]
  | keyRange t s e => [3, t, s.toNat, e.toNat, 0]
  | predicate t p => [4, t, p, 0, 0]
  | analyticalScan t => [5, t, 0, 0, 0]
  | generation k g => [6, k.tableId.getD 0, g, 0, 0]
  | row t r => [7, t, r, 0, 0]

/-- `d'` conflicts with every write that `d` conflicts with. -/
def Covers (d' d : ReadDependency) : Prop :=
  ∀ w, d.conflictsWithWrite w = true → d'.conflictsWithWrite w = true

variable (d : ReadDependency)

theorem covers_refl : Covers d d := fun _ h => h

theorem covers_trans {a b c : ReadDependency} (h1 : Covers a b) (h2 : Covers b c) : Covers a c :=
  fun w h => h1 w (h2 w h)

theorem covers_normalize : Covers d.normalize d := by
  intro w h
  cases d <;> exact h

variable {w : LockResource} {t : Nat}

theorem matchesTable_of_matchesTablet {tb : Nat}
    (h : writeMatchesTablet w t tb = true) : writeMatchesTable w t = true := by
  cases w <;> simp_all [writeMatchesTablet, writeMatchesTable, LockResource.tableId]

/-- A dependency of a table conflicts only with writes that the whole table conflicts with. -/
theorem matchesTable_of_conflict {d : ReadDependency}
    (ht : d.tableId = some t) (h : d.conflictsWithWrite w = true) : writeMatchesTable w t = true := by
  cases d with
  | table | row | predicate | analyticalScan => cases ht; exact h
  | tablet => cases ht; exact matchesTable_of_matchesTablet h
  | rowset t' tb rs =>
    cases ht
    cases w <;> simp_all [conflictsWithWrite, writeMatchesRowset, writeMatchesTablet,
      writeMatchesTable, LockResource.tableId]
  | keyRange t' s e =>
    cases ht
    cases w <;> simp_all [conflictsWithWrite, writeMatchesKeyRange, writeMatchesTable, LockResource.tableId]
  | generation k g =>
    have hk : k.tableId = some t := ht
    simpa [conflictsWithWrite, hk] using h

theorem covers_widen : Covers d.widen d := by
  intro w h
  cases ht : d.tableId with
  | none =>
    have hw : d.widen = d := by cases d <;> simp_all [widen, tableMarker, tableId]
    rw [hw]; exact h
  | some t =>
    have hm := matchesTable_of_conflict ht h
    cases d <;> simp_all [widen, tableMarker, tableId, conflictsWithWrite]

end ReadDependency
end Paro.L1
