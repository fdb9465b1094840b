import Paro.Core.LittleEndian
import Paro.Core.BytePath

/-!
# Radix-encoded keys

`index/art/art_key.rs` turns a column value into bytes that compare like the value: big-endian integers with
the sign bit flipped, floats mapped to an ordered integer, strings escaped and terminated by a zero byte. A row
id is encoded as a signed 64-bit key.

* `createKey_apart`: of two keys of one type neither is a proper start of the other.
* `getRowId_fromRowId`: a row id is read back from its key.
-/
namespace Paro.L1.ArtKey

open BytePath List

abbrev Bytes := List UInt8

/-! ## `Radix` -/

def beBytes (width n : Nat) : Bytes := (leBytes width n).reverse

variable (bs : Bytes)

def ofBeBytes : Nat := ofLeBytes bs.reverse

/-- art_key.rs:38-40 -/
def flipSign (byte : UInt8) : UInt8 := byte ^^^ 0x80

def flipFirst : Bytes → Bytes
  | [] => []
  | b :: bs => flipSign b :: bs

/-- art_key.rs:46-48 -/
def encodeBool (value : Bool) : Bytes := [if value then 1 else 0]

/-- The shape of `encode_i8` … `encode_i128`; `bits` is the value's two's complement pattern. -/
def encodeSigned (width bits : Nat) : Bytes := flipFirst (beBytes width bits)

def encodeI8 := encodeSigned 1
def encodeI16 := encodeSigned 2
def encodeI32 := encodeSigned 4
def encodeI64 := encodeSigned 8
def encodeI128 := encodeSigned 16

/-- The shape of `encode_u8` … `encode_u128`. -/
def encodeUnsigned (width value : Nat) : Bytes := beBytes width value

def encodeU8 := encodeUnsigned 1
def encodeU16 := encodeUnsigned 2
def encodeU32 := encodeUnsigned 4
def encodeU64 := encodeUnsigned 8
def encodeU128 := encodeUnsigned 16

/-- The shape of `encode_float_bits` and `encode_double_bits` (art_key.rs:150-205) for a format of `width` bits
whose positive infinity is `infinity`. -/
def encodeIeeeBits (width infinity bits : Nat) : Nat :=
  let sign := 2 ^ (width - 1)
  -- `value == 0.0` holds of both zeros
  if bits % sign = 0 then sign
  else if infinity < bits % sign then 2 ^ width - 1
  else if bits = infinity then 2 ^ width - 2
  else if bits = sign + infinity then 0
  else if bits < sign then bits + sign
  else 2 ^ width - 1 - bits

def encodeFloatBits := encodeIeeeBits 32 0x7f800000
def encodeDoubleBits := encodeIeeeBits 64 0x7ff0000000000000

def encodeF32 (bits : Nat) : Bytes := beBytes 4 (encodeFloatBits bits)
def encodeF64 (bits : Nat) : Bytes := beBytes 8 (encodeDoubleBits bits)

/-- art_key.rs:241-246 -/
def decodeI64 (data : Bytes) : Nat := ofBeBytes (flipFirst data)

/-! ## `ARTKey` -/

def escape (byte : UInt8) : Bytes := if byte ≤ 1 then [1, byte] else [byte]

/-- art_key.rs:584-613 -/
def fromBytes (value : Bytes) : Bytes := value.flatMap escape ++ [0]

/-- art_key.rs:514-516 -/
def fromRowId (rowId : Nat) : Bytes := encodeI64 rowId

/-- art_key.rs:834-837 -/
def getRowId (key : Bytes) : Nat := decodeI64 key

/-- art_key.rs:859-874; `none` is the panic on identical keys. -/
def getMismatchPos (key other : Bytes) (start : Nat) : Option Nat :=
  (List.range' start (other.length - start)).find? fun i => key[i]? ≠ other[i]?

inductive LogicalType where
  | boolean | tinyInt | smallInt | integer | date | bigInt | time | timestamp | timestampTz | hugeInt
  | uTinyInt | uSmallInt | uInteger | uBigInt | uHugeInt | uuid | float | double | varchar
  | varcharCollation (collation : String) | json | jsonb
  deriving DecidableEq, Repr

/-- A non-null column value: the bit pattern of a number, the bytes of a string. -/
def Value : LogicalType → Type
  | .boolean => Bool
  | .tinyInt | .uTinyInt => BitVec 8
  | .smallInt | .uSmallInt => BitVec 16
  | .integer | .date | .uInteger | .float => BitVec 32
  | .bigInt | .time | .timestamp | .timestampTz | .uBigInt | .double => BitVec 64
  | .hugeInt | .uHugeInt | .uuid => BitVec 128
  | .varchar | .varcharCollation _ | .json | .jsonb => Bytes

/-- art_key.rs:701-807, `from_vector_value` of a row that is not null -/
def createKey : (ty : LogicalType) → Value ty → Bytes
  | .boolean, v => encodeBool v
  | .tinyInt, v => encodeI8 (BitVec.toNat v)
  | .smallInt, v => encodeI16 (BitVec.toNat v)
  | .integer, v | .date, v => encodeI32 (BitVec.toNat v)
  | .bigInt, v | .time, v | .timestamp, v | .timestampTz, v => encodeI64 (BitVec.toNat v)
  | .hugeInt, v => encodeI128 (BitVec.toNat v)
  | .uTinyInt, v => encodeU8 (BitVec.toNat v)
  | .uSmallInt, v => encodeU16 (BitVec.toNat v)
  | .uInteger, v => encodeU32 (BitVec.toNat v)
  | .uBigInt, v => encodeU64 (BitVec.toNat v)
  | .uHugeInt, v | .uuid, v => encodeU128 (BitVec.toNat v)
  | .float, v => encodeF32 (BitVec.toNat v)
  | .double, v => encodeF64 (BitVec.toNat v)
  | .varchar, v | .varcharCollation _, v | .json, v | .jsonb, v => fromBytes v

/-! ## Keys of one type are apart -/

@[simp] theorem length_beBytes (width n : Nat) : (beBytes width n).length = width := by
  rw [beBytes, length_reverse, length_leBytes]

@[simp] theorem length_flipFirst : (flipFirst bs).length = bs.length := by
  cases bs <;> rfl

variable (b : UInt8)

theorem fromBytes_cons (v : Bytes) : fromBytes (b :: v) = escape b ++ fromBytes v := by
  rw [fromBytes, flatMap_cons, append_assoc]
  rfl

/-- No escaped byte starts with the terminator. -/
theorem escape_head : ∃ x s, escape b = x :: s ∧ x ≠ 0 := by
  unfold escape
  split
  · exact ⟨1, [b], rfl, by decide⟩
  · rename_i h
    refine ⟨b, [], rfl, fun h0 => h ?_⟩
    rw [h0]
    decide

theorem escape_apart {b c : UInt8} (h : b ≠ c) (s t : Bytes) : Apart (escape b ++ s) (escape c ++ t) := by
  unfold escape
  split <;> split
  · exact apart_cons (apart_of_ne h)
  · rename_i hc
    exact apart_of_ne fun h1 => hc (by rw [← h1])
  · rename_i hb _
    exact apart_of_ne fun h1 => hb (by rw [h1])
  · exact apart_of_ne h

theorem fromBytes_apart (u v : Bytes) : Apart (fromBytes u) (fromBytes v) := by
  induction u generalizing v with
  | nil =>
    cases v with
    | nil => exact apart_of_length rfl
    | cons c v =>
      obtain ⟨x, s, hx, h0⟩ := escape_head c
      rw [fromBytes_cons, hx]
      exact apart_of_ne h0.symm
  | cons b u ih =>
    cases v with
    | nil =>
      obtain ⟨x, s, hx, h0⟩ := escape_head b
      rw [fromBytes_cons, hx]
      exact apart_of_ne h0
    | cons c v =>
      rw [fromBytes_cons, fromBytes_cons]
      by_cases hbc : b = c
      · rw [hbc]
        exact apart_append_iff.2 (ih v)
      · exact escape_apart hbc _ _

theorem createKey_apart (ty : LogicalType) (u v : Value ty) : Apart (createKey ty u) (createKey ty v) := by
  cases ty
  case varchar | varcharCollation | json | jsonb => exact fromBytes_apart u v
  all_goals
    refine apart_of_length ?_
    simp [createKey, encodeBool, encodeI8, encodeI16, encodeI32, encodeI64, encodeI128, encodeU8, encodeU16,
      encodeU32, encodeU64, encodeU128, encodeSigned, encodeUnsigned, encodeF32, encodeF64]

/-! ## Row ids -/

/-- The row ids that fit an inlined leaf, `0 ≤ row_id < MAX_ROW_ID_LOCAL` (leaf.rs:29). -/
def RowId (r : Nat) : Prop := r < 2 ^ 56 - 1

instance (r : Nat) : Decidable (RowId r) := inferInstanceAs (Decidable (r < 2 ^ 56 - 1))

theorem flipSign_flipSign : flipSign (flipSign b) = b := by
  rw [flipSign, flipSign, UInt8.xor_assoc, UInt8.xor_self, UInt8.xor_zero]

theorem flipFirst_flipFirst : flipFirst (flipFirst bs) = bs := by
  cases bs with
  | nil => rfl
  | cons b bs => rw [flipFirst, flipFirst, flipSign_flipSign]

@[simp] theorem length_fromRowId (r : Nat) : (fromRowId r).length = 8 := by
  rw [fromRowId, encodeI64, encodeSigned, length_flipFirst, length_beBytes]

variable {r : Nat}

theorem getRowId_fromRowId (h : RowId r) : getRowId (fromRowId r) = r := by
  have hfit : r < 256 ^ 8 := by
    unfold RowId at h
    omega
  rw [getRowId, fromRowId, decodeI64, encodeI64, encodeSigned, flipFirst_flipFirst, ofBeBytes, beBytes,
    reverse_reverse, ofLeBytes_leBytes hfit]

theorem fromRowId_inj {r' : Nat} (h : RowId r) (h' : RowId r') (heq : fromRowId r = fromRowId r') : r = r' := by
  rw [← getRowId_fromRowId h, heq, getRowId_fromRowId h']

/-- The keys of all row ids start with the same byte. -/
theorem fromRowId_head (h : RowId r) : ∃ s, fromRowId r = 0x80 :: s := by
  have hlast : leBytes 8 r = leBytes 7 r ++ [UInt8.ofNat (r / 256 ^ 7)] := leBytes_succ_last 7 r
  have hzero : r / 256 ^ 7 = 0 := by
    refine Nat.div_eq_of_lt ?_
    unfold RowId at h
    omega
  refine ⟨(leBytes 7 r).reverse, ?_⟩
  rw [fromRowId, encodeI64, encodeSigned, beBytes, hlast, hzero, reverse_append]
  rfl

/-- `get_mismatch_pos` finds the byte at which two keys of one length differ. -/
theorem getMismatchPos_eq {p s t : Bytes} {x y : UInt8} {start : Nat} (hstart : start ≤ p.length)
    (hxy : x ≠ y) : getMismatchPos (p ++ x :: s) (p ++ y :: t) start = some p.length := by
  have hlen : (p ++ y :: t).length - start = (p.length - start) + (t.length + 1) := by
    rw [length_append, length_cons]
    omega
  have hbefore : ∀ i ∈ range' start (p.length - start), ¬ ((p ++ x :: s)[i]? ≠ (p ++ y :: t)[i]?) := by
    intro i hi
    rw [mem_range'_1] at hi
    rw [getElem?_append_left (by omega), getElem?_append_left (by omega)]
    simp
  have hat : (p ++ x :: s)[p.length]? ≠ (p ++ y :: t)[p.length]? := by
    simpa using hxy
  rw [getMismatchPos, hlen, ← range'_append_1, find?_append,
    find?_eq_none.2 (by simpa using hbefore), show start + (p.length - start) = p.length by omega,
    range'_succ, find?_cons_of_pos (by simpa using hat)]
  rfl

/-! ## Prefix capacity -/

/-- art.rs:203-215 -/
def typeSize : LogicalType → Nat
  | .boolean | .tinyInt | .uTinyInt => 1
  | .smallInt | .uSmallInt => 2
  | .integer | .uInteger | .float => 4
  | _ => 8

/-- art.rs:197-200 -/
def alignPrefixCount (rawPrefixCount : Nat) : Nat := min ((rawPrefixCount + 1 + 7) / 8 * 8 - 1) 255

/-- art.rs:193-195 -/
def calculatePrefixCount (ty : LogicalType) : Nat := alignPrefixCount (typeSize ty - 1)

theorem calculatePrefixCount_eq (ty : LogicalType) : calculatePrefixCount ty = 7 := by
  cases ty <;> simp [calculatePrefixCount, alignPrefixCount, typeSize]

end Paro.L1.ArtKey
