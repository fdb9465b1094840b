import Mathlib.Data.Fin.Basic
import Mathlib.Data.List.Lex
import Paro.L1Encoding.Signed
import Paro.L1Encoding.StringPattern

/-!
# Values (common/src/runtime_value.rs)

The values a column may hold and the order `Value::partial_cmp` gives them. `sqlCompare` decides every pair of values of
one type; the source's own comparison, `Value.partialCmp`, leaves some of those pairs undecided. Floats, and the types
that exist only while a query is bound, are left out.
-/
namespace Paro.L1

open StringPattern (Text utf8)

/-! ## Values -/

mutual

/-- common/src/types/logical_type.rs:18-160 -/
inductive LogicalType where
  | boolean
  | tinyInt
  | smallInt
  | integer
  | bigInt
  | hugeInt
  | uTinyInt
  | uSmallInt
  | uInteger
  | uBigInt
  | uHugeInt
  | decimal (precision scale : Nat)
  | varchar
  | varcharCollation (collation : String)
  | tsVector
  | tsQuery
  | date
  | timestamp
  | timestampTz
  | time
  | interval
  | blob
  | uuid
  | json
  | jsonb
  | array (element : LogicalType) (size : Nat)
  | list (element : LogicalType)
  | struct (fields : Fields)
  deriving DecidableEq

inductive Fields where
  | nil
  | cons (name : String) (type : LogicalType) (rest : Fields)
  deriving DecidableEq

end

instance neZeroU8 : NeZero (2 ^ 8) := ⟨by decide⟩
instance neZeroU16 : NeZero (2 ^ 16) := ⟨by decide⟩
instance neZeroU32 : NeZero (2 ^ 32) := ⟨by decide⟩
instance neZeroU64 : NeZero (2 ^ 64) := ⟨by decide⟩
instance neZeroU128 : NeZero (2 ^ 128) := ⟨by decide⟩

/-- runtime_value.rs:35-115 -/
inductive Value where
  | null (type : LogicalType)
  | boolean (v : Bool)
  | tinyInt (v : Signed 8)
  | smallInt (v : Signed 16)
  | integer (v : Signed 32)
  | bigInt (v : Signed 64)
  | hugeInt (v : Signed 128)
  | uTinyInt (v : Fin (2 ^ 8))
  | uSmallInt (v : Fin (2 ^ 16))
  | uInteger (v : Fin (2 ^ 32))
  | uBigInt (v : Fin (2 ^ 64))
  | uHugeInt (v : Fin (2 ^ 128))
  | decimal (v : Signed 128) (precision scale : Nat)
  | varchar (v : Text)
  | blob (v : List UInt8)
  | uuid (v : Fin (2 ^ 128))
  | date (v : Signed 32)
  | timestamp (v : Signed 64)
  | timestampTz (v : Signed 64)
  | time (v : Signed 64)
  | interval (months days : Signed 32) (micros : Signed 64)
  | list (values : List Value) (element : LogicalType)
  | struct (values : List Value) (fields : Fields)
  | array (values : List Value) (element : LogicalType) (size : Nat)

namespace Value

/-- runtime_value.rs:359-361 -/
def isNull : Value → Bool
  | null _ => true
  | _ => false

/-- runtime_value.rs:322-356 -/
def logicalType : Value → LogicalType
  | null type => type
  | boolean _ => .boolean
  | tinyInt _ => .tinyInt
  | smallInt _ => .smallInt
  | integer _ => .integer
  | bigInt _ => .bigInt
  | hugeInt _ => .hugeInt
  | uTinyInt _ => .uTinyInt
  | uSmallInt _ => .uSmallInt
  | uInteger _ => .uInteger
  | uBigInt _ => .uBigInt
  | uHugeInt _ => .uHugeInt
  | decimal _ precision scale => .decimal precision scale
  | varchar _ => .varchar
  | blob _ => .blob
  | uuid _ => .uuid
  | date _ => .date
  | timestamp _ => .timestamp
  | timestampTz _ => .timestampTz
  | time _ => .time
  | interval .. => .interval
  | list _ element => .list element
  | struct _ fields => .struct fields
  | array _ element size => .array element size

def text : Value → Option Text
  | varchar v => some v
  | _ => none

def bytes : Value → Option (List UInt8)
  | varchar v => some (utf8 v)
  | blob v => some v
  | _ => none

/-! ## Comparison -/

/-- The rows of `Value::partial_cmp` (runtime_value.rs:597-633) for values that hold no others. There is none
for intervals and none for blobs. -/
def partialCmpScalar : Value → Value → Option Ordering
  | boolean a, boolean b => some (cmp a b)
  | tinyInt a, tinyInt b => some (cmp a b)
  | smallInt a, smallInt b => some (cmp a b)
  | integer a, integer b => some (cmp a b)
  | bigInt a, bigInt b => some (cmp a b)
  | hugeInt a, hugeInt b => some (cmp a b)
  | uTinyInt a, uTinyInt b => some (cmp a b)
  | uSmallInt a, uSmallInt b => some (cmp a b)
  | uInteger a, uInteger b => some (cmp a b)
  | uBigInt a, uBigInt b => some (cmp a b)
  | uHugeInt a, uHugeInt b => some (cmp a b)
  | decimal a ap as, decimal b bp bs => if ap = bp ∧ as = bs then some (cmp a b) else none
  | varchar a, varchar b => some (cmp (utf8 a) (utf8 b))
  | uuid a, uuid b => some (cmp a b)
  | date a, date b => some (cmp a b)
  | timestamp a, timestamp b => some (cmp a b)
  | timestampTz a, timestampTz b => some (cmp a b)
  | time a, time b => some (cmp a b)
  | _, _ => none

/-- The order of SQL: also of intervals, as the sort keys have it (sort_key.rs:792-802), and of blobs. -/
def sqlCompareScalar : Value → Value → Option Ordering
  | interval am ad au, interval bm bd bu => some ((cmp am bm).then ((cmp ad bd).then (cmp au bu)))
  | blob a, blob b => some (cmp a b)
  | a, b => partialCmpScalar a b

mutual

/-- The rows of `Value::partial_cmp` for lists, structs and arrays, over a comparison of the others. -/
def compareBy (scalar : Value → Value → Option Ordering) : Value → Value → Option Ordering
  | list a _, list b _ => compareListBy scalar a b
  | struct a afields, struct b bfields => if afields = bfields then compareListBy scalar a b else none
  | array a _ _, array b _ _ => compareListBy scalar a b
  | a, b => scalar a b

/-- `Vec::partial_cmp`: the first pair that is not equal decides. -/
def compareListBy (scalar : Value → Value → Option Ordering) : List Value → List Value → Option Ordering
  | [], [] => some .eq
  | [], _ :: _ => some .lt
  | _ :: _, [] => some .gt
  | a :: as, b :: bs => match compareBy scalar a b with
    | some .eq => compareListBy scalar as bs
    | other => other

end

/-- runtime_value.rs:596-640 -/
def partialCmp : Value → Value → Option Ordering := compareBy partialCmpScalar

def sqlCompare : Value → Value → Option Ordering := compareBy sqlCompareScalar

end Value

/-! ## Types -/

/-- The types whose values are texts (vector_access.rs:45-53). -/
def LogicalType.isText : LogicalType → Bool
  | varchar | varcharCollation _ | tsVector | tsQuery | json | jsonb => true
  | _ => false

/-- A value of a type, other than its NULL. -/
def Value.isOf (type : LogicalType) (v : Value) : Bool :=
  !v.isNull && if type.isText then v.text.isSome else v.logicalType = type

variable {v : Value}

theorem Value.isNull_of_isOf {type : LogicalType} (h : v.isOf type = true) : v.isNull = false := by
  rw [isOf, Bool.and_eq_true] at h
  simpa using h.1

theorem Value.text_of_isOf {type : LogicalType} (htype : type.isText = true) (h : v.isOf type = true) :
    ∃ s, v = .varchar s := by
  rw [isOf, htype, if_pos rfl, Bool.and_eq_true] at h
  cases v with
  | varchar s => exact ⟨s, rfl⟩
  | _ => cases h.2

theorem Value.logicalType_of_isOf {type : LogicalType} (htype : type.isText = false) (h : v.isOf type = true) :
    v.logicalType = type := by
  rw [isOf, htype, if_neg (by simp), Bool.and_eq_true, decide_eq_true_eq] at h
  exact h.2

theorem Value.blob_of_isOf (h : v.isOf .blob = true) : ∃ bytes, v = .blob bytes := by
  have hnull := isNull_of_isOf h
  have htype := logicalType_of_isOf rfl h
  cases v with
  | blob bytes => exact ⟨bytes, rfl⟩
  | null => cases hnull
  | _ => cases htype

/-- What a column can hold: a decimal of up to 18 digits is kept in 64 bits. -/
def Value.storedAs (type : LogicalType) (v : Value) : Bool :=
  v.isNull || v.isOf type && match type, v with
    | .decimal precision _, .decimal v _ _ => 18 < precision || (Signed.ofInt? 64 v.val).isSome
    | _, _ => true

end Paro.L1
