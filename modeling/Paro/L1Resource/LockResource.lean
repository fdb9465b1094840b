import Mathlib.Algebra.Order.Ring.Int
import Mathlib.Data.List.Lex

/-!
# Lock resources and lock modes

Model of the resource and mode algebra of crates/transaction/src/lock_manager.rs:
the nine kinds of `LockResource`, the overlap test `conflicts_with` that the lock
manager, the write-conflict index and the sequencer share, the mode matrix of
`LockMode`, and the multi-granularity rule `lock_grants_conflict`.

Identifiers are natural numbers. Key hashes are `UInt64`, since the bucket
arithmetic of the write-conflict index depends on their width.

* `conflictsWith_comm`: overlap is symmetric.
* `fine_conflict_eq`: two resources kept in the fine shards overlap only when equal,
  which is what lets a fine grant look at its exact resource only.
* `covers_conflict`: what it takes for one held mode to stand for another.
`La-b` are lines of this file.
-/
namespace Paro.L1

/-- L13-30 -/
@[ext]
structure LockNamespace where
  (tenantId databaseId : Nat)
deriving DecidableEq, Repr

/-- L32-81 -/
inductive LockResource
  | database (ns : LockNamespace)
  | schema (ns : LockNamespace) (schemaId : Nat)
  | table (ns : LockNamespace) (tableId : Nat)
  | tablet (ns : LockNamespace) (tableId tabletId : Nat)
  | primaryKey (ns : LockNamespace) (tableId tabletId : Nat) (keyHash : UInt64)
  | rowId (ns : LockNamespace) (tableId tabletId rowsetId segmentId rowOffset : Nat)
  | range (ns : LockNamespace) (tableId tabletId : Nat) (startHash endHash : UInt64)
  | predicate (ns : LockNamespace) (tableId predicateHash : Nat)
  | catalogObject (ns : LockNamespace) (objectKind objectId : Nat)
deriving DecidableEq, Repr

/-- L1298-1304; a range whose start lies above its end wraps. -/
def hashInRange (hash start stop : UInt64) : Bool :=
  if start ≤ stop then decide (start ≤ hash ∧ hash ≤ stop)
  else decide (hash ≥ start ∨ hash ≤ stop)

/-- L1306-1311 -/
def rangesOverlap (leftStart leftEnd rightStart rightEnd : UInt64) : Bool :=
  hashInRange leftStart rightStart rightEnd
    || hashInRange leftEnd rightStart rightEnd
    || hashInRange rightStart leftStart leftEnd
    || hashInRange rightEnd leftStart leftEnd

namespace LockResource

/-- L235-247 -/
def ns : LockResource → LockNamespace
  | database n | schema n _ | table n _ | tablet n _ _ | primaryKey n _ _ _
  | rowId n _ _ _ _ _ | range n _ _ _ _ | predicate n _ _ | catalogObject n _ _ => n

/-- L249-259 -/
def tableId : LockResource → Option Nat
  | table _ t | tablet _ t _ | primaryKey _ t _ _ | rowId _ t _ _ _ _ | range _ t _ _ _
  | predicate _ t _ => some t
  | database _ | schema _ _ | catalogObject _ _ _ => none

/-- L261-285 -/
def tabletIdentity : LockResource → Option (Nat × Nat)
  | tablet _ t tb | primaryKey _ t tb _ | rowId _ t tb _ _ _ | range _ t tb _ _ => some (t, tb)
  | _ => none

/-- Overlap of two resources, arm by arm in the source's order: the arm for a tablet
stands before the one for a predicate, so these two kinds never overlap.
L116-233 -/
def conflictsWith (a b : LockResource) : Bool :=
  if a = b then true
  else if a.ns ≠ b.ns then false
  else match a, b with
    | database _, _ => true
    | _, database _ => true
    | table _ l, table _ r => decide (l = r)
    | table _ t, other => decide (other.tableId = some t)
    | other, table _ t => decide (other.tableId = some t)
    | tablet _ lt l, tablet _ rt r => decide (lt = rt ∧ l = r)
    | tablet _ t tb, other => decide (other.tabletIdentity = some (t, tb))
    | other, tablet _ t tb => decide (other.tabletIdentity = some (t, tb))
    | primaryKey _ lt ltab k, range _ rt rtab s e =>
      decide (lt = rt ∧ ltab = rtab) && hashInRange k s e
    | range _ rt rtab s e, primaryKey _ lt ltab k =>
      decide (lt = rt ∧ ltab = rtab) && hashInRange k s e
    | range _ lt ltab ls le, range _ rt rtab rs re =>
      decide (lt = rt ∧ ltab = rtab) && rangesOverlap ls le rs re
    | predicate _ l _, other => decide (other.tableId = some l)
    | other, predicate _ l _ => decide (other.tableId = some l)
    | schema _ l, schema _ r => decide (l = r)
    | catalogObject _ lk li, catalogObject _ rk ri => decide (lk = rk ∧ li = ri)
    | _, _ => false

/-- The derived `Ord` of the source compares the variant first and then the fields in
order; the key lists them so that the lexicographic order on lists is that order. -/
def sortKey : LockResource → List Nat
  | database n => [0, n.tenantId, n.databaseId]
  | schema n s => [1, n.tenantId, n.databaseId, s]
  | table n t => [2, n.tenantId, n.databaseId, t]
  | tablet n t tb => [3, n.tenantId, n.databaseId, t, tb]
  | primaryKey n t tb k => [4, n.tenantId, n.databaseId, t, tb, k.toNat]
  | rowId n t tb rs sg ro => [5, n.tenantId, n.databaseId, t, tb, rs, sg, ro]
  | range n t tb s e => [6, n.tenantId, n.databaseId, t, tb, s.toNat, e.toNat]
  | predicate n t p => [7, n.tenantId, n.databaseId, t, p]
  | catalogObject n k o => [8, n.tenantId, n.databaseId, k, o]

/-- L996-1006 -/
def isCoarseResource : LockResource → Bool
  | database _ | schema _ _ | table _ _ | tablet _ _ _ | range _ _ _ _ _ | predicate _ _ _ => true
  | primaryKey _ _ _ _ | rowId _ _ _ _ _ _ | catalogObject _ _ _ => false

theorem sortKey_injective : Function.Injective sortKey := by
  rintro a b h
  cases a <;> cases b <;>
    simp_all [sortKey, UInt64.toNat_inj, LockNamespace.ext_iff]

variable {a b : LockResource}

/-- Resources of different namespaces never overlap. -/
theorem ns_eq_of_conflictsWith (h : a.conflictsWith b = true) : a.ns = b.ns := by
  by_contra hn
  have hab : a ≠ b := fun e => hn (congrArg ns e)
  simp [conflictsWith, hab, hn] at h

theorem rangesOverlap_comm (ls le rs re : UInt64) : rangesOverlap ls le rs re = rangesOverlap rs re ls le := by
  simp only [rangesOverlap]
  cases hashInRange ls rs re <;> cases hashInRange le rs re <;>
    cases hashInRange rs ls le <;> cases hashInRange re ls le <;> rfl

theorem conflictsWith_comm (a b : LockResource) : a.conflictsWith b = b.conflictsWith a := by
  by_cases hab : a = b
  · subst hab; rfl
  by_cases hn : a.ns = b.ns
  · have hba : b ≠ a := fun e => hab e.symm
    cases a <;> cases b <;>
      simp_all [conflictsWith, ns, tableId, tabletIdentity, rangesOverlap_comm, eq_comm]
  · have hba : b ≠ a := fun e => hab e.symm
    have hn' : b.ns ≠ a.ns := fun e => hn e.symm
    simp [conflictsWith, hab, hba, hn, hn']

/-- Two resources of the fine shards overlap only when they are the same resource. -/
theorem fine_conflict_eq (ha : a.isCoarseResource = false)
    (hb : b.isCoarseResource = false) (h : a.conflictsWith b = true) : a = b := by
  by_contra hab
  have hn := ns_eq_of_conflictsWith h
  cases a <;> cases b <;>
    simp_all [conflictsWith, isCoarseResource, ns]

end LockResource

/-! ## Modes -/

/-- L292-304 -/
inductive LockMode
  | is | ix | s | x | rangeS | rangeX | predicateX | schemaStability | schemaModification
deriving DecidableEq, Repr

namespace LockMode

/-- L307-317 -/
def compatibleWith : LockMode → LockMode → Bool
  | is, is | is, ix | is, s | is, rangeS | is, schemaStability => true
  | ix, is | ix, ix | ix, schemaStability => true
  | s, is | s, s | s, rangeS | s, schemaStability => true
  | rangeS, is | rangeS, s | rangeS, rangeS | rangeS, schemaStability => true
  | schemaStability, is | schemaStability, ix | schemaStability, s | schemaStability, rangeS
  | schemaStability, schemaStability => true
  | _, _ => false

/-- L339-346 -/
def strength : LockMode → Nat
  | is => 1
  | ix => 2
  | s | rangeS | schemaStability => 3
  | x | rangeX | predicateX | schemaModification => 4

/-- L348-354 -/
def strongest (a b : LockMode) : LockMode := if a.strength ≥ b.strength then a else b

/-- `a.covers b`: holding `a` blocks every grant that holding `b` would block. The two
plain intents are blocked by exclusive modes only; `ix` and the shared modes block
different sets, so neither stands for the other. -/
def covers : LockMode → LockMode → Bool
  | _, is | _, schemaStability => true
  | x, _ | rangeX, _ | predicateX, _ | schemaModification, _ => true
  | ix, ix => true
  | s, s | s, rangeS | rangeS, s | rangeS, rangeS => true
  | _, _ => false

@[simp] theorem covers_self (m : LockMode) : m.covers m = true := by cases m <;> rfl

theorem covers_trans {a b c : LockMode} (h1 : a.covers b = true) (h2 : b.covers c = true) : a.covers c = true := by
  cases a <;> cases b <;> cases c <;> simp_all [covers]

end LockMode

/-- L381-413 -/
def properAncestorIntent (ancestor : LockResource) (mode : LockMode) (descendant : LockResource) :
    Bool :=
  if mode ≠ .is ∧ mode ≠ .ix ∧ mode ≠ .schemaStability then false
  else match ancestor with
    | .database _ => decide (ancestor.ns = descendant.ns)
    | .table _ t => decide (descendant.tableId = some t) &&
        (match descendant with | .table _ _ => false | _ => true)
    | .tablet _ t tb => decide (descendant.tabletIdentity = some (t, tb)) &&
        (match descendant with | .tablet _ _ _ => false | _ => true)
    | _ => false

/-- L363-383 -/
def lockGrantsConflict (heldResource : LockResource) (heldMode : LockMode)
    (requestedResource : LockResource) (requestedMode : LockMode) : Bool :=
  if !heldResource.conflictsWith requestedResource then false
  else if heldResource ≠ requestedResource ∧
      (properAncestorIntent heldResource heldMode requestedResource ||
        properAncestorIntent requestedResource requestedMode heldResource) then false
  else !heldMode.compatibleWith requestedMode || !requestedMode.compatibleWith heldMode

theorem lockGrantsConflict_comm (r r' : LockResource) (m m' : LockMode) :
    lockGrantsConflict r m r' m' = lockGrantsConflict r' m' r m := by
  simp only [lockGrantsConflict, LockResource.conflictsWith_comm r' r, ne_comm (a := r'),
    Bool.or_comm (properAncestorIntent r' m' r), Bool.or_comm (!m'.compatibleWith m)]

variable {r r' : LockResource} {m m' M : LockMode}

theorem conflictsWith_of_lockGrantsConflict (h : lockGrantsConflict r m r' m' = true) : r.conflictsWith r' = true := by
  by_contra hc
  simp [lockGrantsConflict, hc] at h

/-- An intent covers intents only, so the ancestor exemption of a covering mode is one of
the covered mode too. -/
theorem properAncestorIntent_of_covers (hc : M.covers m = true) (h : properAncestorIntent r M r' = true) :
    properAncestorIntent r m r' = true := by
  cases M <;> cases m <;> simp_all [LockMode.covers, properAncestorIntent]

theorem compatible_of_covers (hc : M.covers m = true) (h : M.compatibleWith m' = true ∧ m'.compatibleWith M = true) :
    m.compatibleWith m' = true ∧ m'.compatibleWith m = true := by
  cases M <;> cases m <;> cases m' <;> simp_all [LockMode.covers, LockMode.compatibleWith]

/-- A covering mode on the same resource conflicts with whatever the covered one does. -/
theorem covers_conflict (hc : M.covers m = true)
    (h : lockGrantsConflict r m r' m' = true) : lockGrantsConflict r M r' m' = true := by
  have hr := conflictsWith_of_lockGrantsConflict h
  by_contra hn
  simp only [lockGrantsConflict, hr, Bool.not_true, Bool.false_eq_true, if_false] at h hn
  split at h
  · cases h
  rename_i hne
  split at hn
  · rename_i hM
    refine hne ⟨hM.1, ?_⟩
    rcases Bool.or_eq_true_iff.1 hM.2 with h' | h'
    · simp [properAncestorIntent_of_covers hc h']
    · simp [h']
  · simp only [Bool.or_eq_true, Bool.not_eq_true', not_or, Bool.not_eq_false] at hn
    obtain ⟨h1, h2⟩ := compatible_of_covers hc hn
    simp [h1, h2] at h

end Paro.L1
