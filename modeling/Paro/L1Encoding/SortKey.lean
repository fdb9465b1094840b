import Paro.L1Encoding.OrderedValue

/-!
# Sort keys (common/src/sort_key.rs)

The key of a row is the concatenation of its fields' keys: a byte that says whether the field is NULL, and the value,
complemented if the order is descending. A NULL of a fixed-width type is padded with zeros. A text is written with
one added to each byte and ends in a zero; a blob has its bytes 0 and 1 escaped and ends in a zero.

The encoder is generic in the writer it sends its bytes to. Here it gives the list of its calls (`KeyWrite`), which
the two writers of the source then execute: `Vec<u8>` appends, `SplitKeyWriter` fills an inline part and an
overflow part.

`sort_key_order`: keys compare as `ORDER BY` does, `encoded_len` is their length, and the two parts joined are the
key. `La-b` are lines of this file.
-/
namespace Paro.L1.SortKey

open OrderedCode List Signed
open StringPattern (Text utf8)

inductive Error
  | countMismatch (types modifiers : Nat)
  | columnCountMismatch (columns fields : Nat)
  | columnTypeMismatch (column : Nat)
  | notImplemented (type : LogicalType)
  | bufferMismatch (inlineLen overflowLen gotInline gotOverflow : Nat)
  /-- an index that the source panics on -/
  | outOfBounds
deriving DecidableEq

/-! ## Writers -/

/-- A call of the encoder on its `KeyWriter`. -/
inductive KeyWrite
  | pushByte (byte : UInt8)
  | extendBytes (bytes : List UInt8)
deriving DecidableEq

def KeyWrite.bytes : KeyWrite → List UInt8
  | pushByte byte => [byte]
  | extendBytes bytes => bytes

/-- What the `Vec` writer holds after the calls. L39-49 -/
def written (writes : List KeyWrite) : List UInt8 := writes.flatMap KeyWrite.bytes

@[simp] theorem written_append (x y : List KeyWrite) : written (x ++ y) = written x ++ written y :=
  flatMap_append

def overwrite (slice : List UInt8) (offset : Nat) (bytes : List UInt8) : Option (List UInt8) :=
  if offset + bytes.length ≤ slice.length then
    some (slice.take offset ++ bytes ++ slice.drop (offset + bytes.length))
  else none

/-- L50-54 -/
structure SplitKeyWriter where
  (inlinePart overflow : List UInt8)
  written : Nat := 0
deriving DecidableEq

namespace SplitKeyWriter

variable (w : SplitKeyWriter)

/-- L72-81 -/
def pushByte (byte : UInt8) : Option SplitKeyWriter :=
  if w.written < w.inlinePart.length then
    (overwrite w.inlinePart w.written [byte]).map fun inlinePart =>
      { w with inlinePart, written := w.written + 1 }
  else
    (overwrite w.overflow (w.written - w.inlinePart.length) [byte]).map fun overflow =>
      { w with overflow, written := w.written + 1 }

/-- L84-104 -/
def extendBytes (bytes : List UInt8) : Option SplitKeyWriter := do
  let (w, remaining) ←
    if w.written < w.inlinePart.length then do
      let inlineCopy := min (w.inlinePart.length - w.written) bytes.length
      let inlinePart ← overwrite w.inlinePart w.written (bytes.take inlineCopy)
      some ({ w with inlinePart, written := w.written + inlineCopy }, bytes.drop inlineCopy)
    else some (w, bytes)
  if remaining = [] then some w
  else do
    let overflow ← overwrite w.overflow (w.written - w.inlinePart.length) remaining
    some { w with overflow, written := w.written + remaining.length }

def execute (w : SplitKeyWriter) : List KeyWrite → Option SplitKeyWriter
  | [] => some w
  | .pushByte byte :: writes => (w.pushByte byte).bind (execute · writes)
  | .extendBytes bytes :: writes => (w.extendBytes bytes).bind (execute · writes)

end SplitKeyWriter

/-! ## Values -/

def nullFirstByte : UInt8 := 1
def nullLastByte : UInt8 := 2
def stringDelimiter : UInt8 := 0
def blobEscapeCharacter : UInt8 := 1
def variableInlinePrefixLen : Nat := 16
def variableSlotSize : Nat := variableInlinePrefixLen + 4 * 4
def transformBufferLen : Nat := 256

/-- L859-867 -/
def encodeOrderedBytes (bytes : List UInt8) (ascending : Bool) : List KeyWrite :=
  if ascending then [.extendBytes bytes] else bytes.map fun byte => .pushByte (~~~ byte)

/-- L688-692 -/
def encodeBool (value ascending : Bool) : List KeyWrite :=
  let byte : UInt8 := if value then 1 else 0
  [.pushByte (if ascending then byte else ~~~ byte)]

/-- L694-698 -/
def encodeI8 (value : Signed 8) (ascending : Bool) : List KeyWrite :=
  let encoded := UInt8.ofNat (value.bits ^^^ 2 ^ 7)
  [.pushByte (if ascending then encoded else ~~~ encoded)]

/-- L726-728 -/
def encodeU8 (value : Fin (2 ^ 8)) (ascending : Bool) : List KeyWrite :=
  let encoded := UInt8.ofNat value
  [.pushByte (if ascending then encoded else ~~~ encoded)]

/-- The shape of `encode_i16`, `encode_i32` and `encode_i64`. -/
def encodeSigned (width : Nat) {w : Nat} (value : Signed w) (ascending : Bool) : List KeyWrite :=
  encodeOrderedBytes (beBytes width (value.bits ^^^ 2 ^ (w - 1))) ascending

/-- L700-703 -/
def encodeI16 (value : Signed 16) (ascending : Bool) : List KeyWrite := encodeSigned 2 value ascending

/-- L705-708 -/
def encodeI32 (value : Signed 32) (ascending : Bool) : List KeyWrite := encodeSigned 4 value ascending

/-- L710-717 -/
def encodeI64 (value : Signed 64) (ascending : Bool) : List KeyWrite := encodeSigned 8 value ascending

/-- L731-743 (`encode_u16`, `encode_u32`, `encode_u64`) -/
def encodeUnsigned (width n : Nat) (ascending : Bool) : List KeyWrite :=
  encodeOrderedBytes (beBytes width n) ascending

/-- L719-723 -/
def encodeHugeint (value : Signed 128) (ascending : Bool) : List KeyWrite :=
  encodeI64 (wrap 64 (value.val / 2 ^ 64)) ascending ++ encodeUnsigned 8 (value.bits % 2 ^ 64) ascending

/-- L746-749 -/
def encodeUhugeint (value : Fin (2 ^ 128)) (ascending : Bool) : List KeyWrite :=
  encodeUnsigned 8 (value.val / 2 ^ 64) ascending ++ encodeUnsigned 8 (value.val % 2 ^ 64) ascending

/-- L792-802 -/
def encodeInterval (months days : Signed 32) (micros : Signed 64) (ascending : Bool) : List KeyWrite :=
  encodeI32 months ascending ++ encodeI32 days ascending ++ encodeI64 micros ascending

/-- L884-893 (`flush_transformed_bytes`) -/
def flush (scratch : List UInt8) : List KeyWrite := if scratch = [] then [] else [.extendBytes scratch]

/-- The bytes, each transformed, through a buffer that is flushed when the next ones do not fit.
L814-856, 869-881 -/
def transformBytes (transform : UInt8 → List UInt8) (scratch : List UInt8) : List UInt8 → List KeyWrite
  | [] => flush scratch
  | byte :: bytes =>
    if scratch.length + (transform byte).length > transformBufferLen then
      flush scratch ++ transformBytes transform (transform byte) bytes
    else transformBytes transform (scratch ++ transform byte) bytes

variable (value : List UInt8)

/-- L804-812 -/
def encodeString (ascending : Bool) : List KeyWrite :=
  if ascending then transformBytes (fun byte => [byte + 1]) [] value ++ [.pushByte stringDelimiter]
  else transformBytes (fun byte => [~~~ (byte + 1)]) [] value ++ [.pushByte (~~~ stringDelimiter)]

/-- L814-856 -/
def encodeBlob (ascending : Bool) : List KeyWrite :=
  if ascending then
    transformBytes (fun byte => if byte ≤ 1 then [blobEscapeCharacter, byte] else [byte]) [] value ++
      [.pushByte stringDelimiter]
  else
    transformBytes (fun byte => if byte ≤ 1 then [~~~ blobEscapeCharacter, ~~~ byte] else [~~~ byte]) [] value ++
      [.pushByte (~~~ stringDelimiter)]

/-- A row of a vector of `type`: a value the type can hold, or its NULL. -/
structure Cell where
  type : LogicalType
  value : Value
  stored : value.storedAs type = true
  nullType : value.isNull = true → value = .null type

/-- The calls for a value that is not NULL. A vector of one type gives no value of another, and then nothing is
written. L446-566 -/
def encodeValueInto (value : Value) (type : LogicalType) (ascending : Bool) : Except Error (List KeyWrite) :=
  match type, value with
  | .boolean, .boolean v => .ok (encodeBool v ascending)
  | .tinyInt, .tinyInt v => .ok (encodeI8 v ascending)
  | .smallInt, .smallInt v => .ok (encodeI16 v ascending)
  | .integer, .integer v => .ok (encodeI32 v ascending)
  | .bigInt, .bigInt v => .ok (encodeI64 v ascending)
  | .hugeInt, .hugeInt v => .ok (encodeHugeint v ascending)
  | .uTinyInt, .uTinyInt v => .ok (encodeU8 v ascending)
  | .uSmallInt, .uSmallInt v => .ok (encodeUnsigned 2 v ascending)
  | .uInteger, .uInteger v => .ok (encodeUnsigned 4 v ascending)
  | .uBigInt, .uBigInt v => .ok (encodeUnsigned 8 v ascending)
  | .uHugeInt, .uHugeInt v => .ok (encodeUhugeint v ascending)
  | .uuid, .uuid v => .ok (encodeUhugeint v ascending)
  | .date, .date v => .ok (encodeI32 v ascending)
  | .time, .time v => .ok (encodeI64 v ascending)
  | .timestamp, .timestamp v => .ok (encodeI64 v ascending)
  | .timestampTz, .timestampTz v => .ok (encodeI64 v ascending)
  | .interval, .interval months days micros => .ok (encodeInterval months days micros ascending)
  | .decimal precision _, .decimal v _ _ =>
    if precision ≤ 18 then .ok (encodeI64 (wrap 64 v.val) ascending) else .ok (encodeHugeint v ascending)
  | .varchar, .varchar s => .ok (encodeString (utf8 s) ascending)
  | .varcharCollation _, .varchar s => .ok (encodeString (utf8 s) ascending)
  | .tsVector, .varchar s => .ok (encodeString (utf8 s) ascending)
  | .tsQuery, .varchar s => .ok (encodeString (utf8 s) ascending)
  | .json, .varchar s => .ok (encodeString (utf8 s) ascending)
  | .jsonb, .varchar s => .ok (encodeString (utf8 s) ascending)
  | .blob, .blob b => .ok (encodeBlob b ascending)
  | .array element size, _ => .error (.notImplemented (.array element size))
  | .list element, _ => .error (.notImplemented (.list element))
  | .struct fields, _ => .error (.notImplemented (.struct fields))
  | _, _ => .ok []

/-- L654-686 -/
def fixedValueLen : LogicalType → Except Error (Option Nat)
  | .boolean | .tinyInt | .uTinyInt => .ok (some 1)
  | .smallInt | .uSmallInt => .ok (some 2)
  | .integer | .uInteger | .date => .ok (some 4)
  | .bigInt | .uBigInt | .time | .timestamp | .timestampTz => .ok (some 8)
  | .hugeInt | .uHugeInt | .uuid | .interval => .ok (some 16)
  | .decimal precision _ => .ok (some (if precision ≤ 18 then 8 else 16))
  | .varchar | .varcharCollation _ | .tsVector | .tsQuery | .json | .jsonb | .blob => .ok none
  | type => .error (.notImplemented type)

/-! ## Fields and rows -/

/-- L108-113 -/
structure OrderModifiers where
  (ascending nullsFirst : Bool)
deriving DecidableEq

/-- L152-156 -/
structure SortKeyFieldEncoding where
  logicalType : LogicalType
  modifiers : OrderModifiers
deriving DecidableEq

namespace SortKeyFieldEncoding

variable (f : SortKeyFieldEncoding)

def markers : UInt8 × UInt8 :=
  if f.modifiers.nullsFirst then (nullFirstByte, nullLastByte) else (nullLastByte, nullFirstByte)

/-- L567-590 -/
def encodeField (cell : Cell) : Except Error (List KeyWrite) :=
  if cell.value.isNull then do
    let padding ← fixedValueLen f.logicalType
    .ok (.pushByte f.markers.1 :: List.replicate (padding.getD 0) (.pushByte 0))
  else do
    let value ← encodeValueInto cell.value cell.type f.modifiers.ascending
    .ok (.pushByte f.markers.2 :: value)

end SortKeyFieldEncoding

/-- L592-652 -/
def encodedColumnLen (cell : Cell) (type : LogicalType) : Except Error Nat :=
  if cell.value.isNull then do
    let padding ← fixedValueLen type
    .ok (1 + padding.getD 0)
  else
    match type with
    | .varchar | .varcharCollation _ | .tsVector | .tsQuery | .json | .jsonb =>
      .ok (1 + (cell.value.text.map fun value => (utf8 value).length + 1).getD 1)
    | .blob =>
      .ok (1 + ((cell.value.bytes.map fun value => (value.map fun byte => if byte ≤ 1 then 2 else 1).sum).getD 0 + 1))
    | type => do
      let valueLen ← fixedValueLen type
      .ok (1 + valueLen.getD 0)

/-- L158-165 -/
structure SortKeyEncoding where
  fields : List SortKeyFieldEncoding
  fixedKeyLen : Option Nat
  (slotSize inlinePrefixLen : Nat)
deriving DecidableEq

namespace SortKeyEncoding

/-- The loop over the fields: their total length, and whether all are of fixed width.
L181-190 -/
def measure : List SortKeyFieldEncoding → Except Error (Nat × Bool)
  | [] => .ok (0, true)
  | f :: fields => do
    let len ← fixedValueLen f.logicalType
    let (total, allFixed) ← measure fields
    .ok (match len with
      | some dataLen => (1 + dataLen + total, allFixed)
      | none => (total, false))

/-- L168-207 -/
def new (types : List LogicalType) (modifiers : List OrderModifiers) : Except Error SortKeyEncoding :=
  if types.length ≠ modifiers.length then .error (.countMismatch types.length modifiers.length)
  else do
    let fields := List.zipWith SortKeyFieldEncoding.mk types modifiers
    let (totalLen, allFixed) ← measure fields
    let fixedKeyLen := if allFixed ∧ totalLen ≤ variableSlotSize then some totalLen else none
    .ok ⟨fields, fixedKeyLen, fixedKeyLen.getD variableSlotSize, fixedKeyLen.getD variableInlinePrefixLen⟩

/-- The loop over the columns. L253-269 -/
def validateTypes : Nat → List SortKeyFieldEncoding → List Cell → Except Error Unit
  | column, f :: fields, cell :: row =>
    if cell.type ≠ f.logicalType then .error (.columnTypeMismatch column) else validateTypes (column + 1) fields row
  | _, _, _ => .ok ()

variable (e : SortKeyEncoding)

/-- L243-270 -/
def validateColumns (row : List Cell) : Except Error Unit :=
  if row.length ≠ e.fields.length then .error (.columnCountMismatch row.length e.fields.length)
  else validateTypes 0 e.fields row

/-- L379-400 -/
def encodeRowTrusted : List SortKeyFieldEncoding → List Cell → Except Error (List KeyWrite)
  | f :: fields, cell :: row => do
    let field ← f.encodeField cell
    let rest ← encodeRowTrusted fields row
    .ok (field ++ rest)
  | _, _ => .ok []

/-- L362-377 -/
def encodeRow (row : List Cell) : Except Error (List UInt8) := do
  e.validateColumns row
  let writes ← encodeRowTrusted e.fields row
  .ok (written writes)

/-- The loop over the columns. L289-300 -/
def columnsLen : List SortKeyFieldEncoding → List Cell → Except Error Nat
  | f :: fields, cell :: row => do
    let len ← encodedColumnLen cell f.logicalType
    let rest ← columnsLen fields row
    .ok (len + rest)
  | _, _ => .ok 0

variable (row : List Cell)

/-- L277-302 -/
def encodedLenTrusted : Except Error Nat :=
  match e.fixedKeyLen with
  | some fixedLen => .ok fixedLen
  | none => columnsLen e.fields row

/-- L272-275 -/
def encodedLen : Except Error Nat := do
  e.validateColumns row
  e.encodedLenTrusted row

/-- The two parts after the call. L318-360 -/
def encodeRowIntoParts (inlinePart overflow : List UInt8) : Except Error SplitKeyWriter := do
  e.validateColumns row
  let totalLen ← e.encodedLenTrusted row
  let inlineLen := min totalLen e.inlinePrefixLen
  let overflowLen := totalLen - inlineLen
  if inlinePart.length ≠ inlineLen ∨ overflow.length ≠ overflowLen then
    .error (.bufferMismatch inlineLen overflowLen inlinePart.length overflow.length)
  else do
    let writes ← encodeRowTrusted e.fields row
    match SplitKeyWriter.execute { inlinePart, overflow } writes with
    | some w => .ok w
    | none => .error .outOfBounds

end SortKeyEncoding

/-- L403-406 -/
def compareKeys (left right : List UInt8) : Ordering := cmp left right

/-! ## What `ORDER BY` means -/

namespace SortKeyFieldEncoding

/-- The order of two values of a field: NULLs by `nulls_first`, whatever the direction. -/
def order (f : SortKeyFieldEncoding) (a b : Cell) : Ordering :=
  match a.value.isNull, b.value.isNull with
  | true, true => .eq
  | true, false => if f.modifiers.nullsFirst then .lt else .gt
  | false, true => if f.modifiers.nullsFirst then .gt else .lt
  | false, false => if f.modifiers.ascending then a.value.order b.value else (a.value.order b.value).swap

end SortKeyFieldEncoding

/-! ## The bytes of a value -/

variable (ascending : Bool) (bytes : List UInt8)

def directed : List UInt8 :=
  if ascending then bytes else bytes.map (~~~ ·)

theorem directed_append (x y : List UInt8) :
    directed ascending (x ++ y) = directed ascending x ++ directed ascending y := by
  cases ascending with
  | true => rfl
  | false => exact map_append

@[simp] theorem length_directed :
    (directed ascending bytes).length = bytes.length := by
  cases ascending <;> simp [directed]

def escape (byte : UInt8) : List UInt8 := if byte ≤ 1 then [blobEscapeCharacter, byte] else [byte]

def stringCode : List UInt8 := bytes.map (· + 1) ++ [stringDelimiter]

def blobCode : List UInt8 := bytes.flatMap escape ++ [stringDelimiter]

def ascendingCode (v : Value) : List UInt8 :=
  match v with
  | .varchar s => stringCode (utf8 s)
  | .blob b => blobCode b
  | .interval months days micros => beBytes 4 months.ordinal ++ beBytes 4 days.ordinal ++ beBytes 8 micros.ordinal
  | v => (v.ordinal.map fun (width, n) => beBytes width n).getD []

variable {v : Value}

theorem ascendingCode_of_ordinal {width n : Nat} (h : v.ordinal = some (width, n)) :
    ascendingCode v = beBytes width n := by
  unfold ascendingCode
  split
  · cases h
  · cases h
  · cases h
  · rw [h]
    rfl

theorem ascendingCode_decimal (v : Signed 128) (precision scale : Nat) : ascendingCode (.decimal v precision scale) =
    if precision ≤ 18 then beBytes 8 (wrap 64 v.val).ordinal else beBytes 16 v.ordinal := by
  by_cases hp : precision ≤ 18
  · rw [if_pos hp]
    exact ascendingCode_of_ordinal (if_pos hp)
  · rw [if_neg hp]
    exact ascendingCode_of_ordinal (if_neg hp)

variable (bytes : List UInt8) (ascending : Bool)

theorem written_orderedBytes :
    written (encodeOrderedBytes bytes ascending) = directed ascending bytes := by
  cases ascending with
  | true => simp [encodeOrderedBytes, directed, written, KeyWrite.bytes]
  | false =>
    simp only [encodeOrderedBytes, Bool.false_eq_true, if_false, directed, written, flatMap_map, KeyWrite.bytes]
    exact (map_eq_flatMap ..).symm

theorem written_signed (width : Nat) {w : Nat} (v : Signed (w + 1)) (ascending : Bool) :
    written (encodeSigned width v ascending) = directed ascending (beBytes width v.ordinal) := by
  rw [encodeSigned, written_orderedBytes, Nat.add_sub_cancel, bits_xor]

theorem written_unsigned (width n : Nat) (ascending : Bool) :
    written (encodeUnsigned width n ascending) = directed ascending (beBytes width n) :=
  written_orderedBytes _ _

/-- A single byte, pushed in the given direction. -/
theorem written_byte (n : Nat) (ascending : Bool) :
    written [.pushByte (if ascending then UInt8.ofNat n else ~~~ UInt8.ofNat n)] =
      directed ascending (beBytes 1 n) := by
  cases ascending <;> simp [written, KeyWrite.bytes, directed, beBytes, leBytes]

/-- The two halves of a 128-bit value, as the key counts them. -/
theorem halves (v : Signed 128) : (wrap 64 (v.val / 2 ^ 64)).val = v.val / 2 ^ 64 ∧
      (wrap 64 (v.val / 2 ^ 64)).ordinal = v.ordinal / 256 ^ 8 ∧
      ((v.ordinal % 256 ^ 8 : Nat) : Int) = v.val % 2 ^ 64 := by
  have hbounds := v.val_bounds
  have hordinal := v.ordinal_eq
  obtain ⟨u, hu⟩ : ∃ u : Signed 64, u.val = v.val / 2 ^ 64 := ⟨⟨v.val / 2 ^ 64, by omega, by omega⟩, rfl⟩
  have hu' := u.ordinal_eq
  rw [← hu, wrap_val]
  omega

/-- The two halves of a 128-bit value are the bytes of the whole. -/
theorem written_hugeint (v : Signed 128) (ascending : Bool) :
    written (encodeHugeint v ascending) = directed ascending (beBytes 16 v.ordinal) := by
  obtain ⟨-, hhigh, hlow⟩ := halves v
  have hbits : v.bits % 2 ^ 64 = v.ordinal % 256 ^ 8 := by
    have hbits : (v.bits : Int) = v.val % 2 ^ 128 := by
      rw [bits]
      omega
    omega
  rw [encodeHugeint, written_append, encodeI64, written_signed, written_unsigned, hhigh, hbits, ← directed_append,
    beBytes_mod, beBytes_add 8 8]

theorem written_uhugeint (v : Fin (2 ^ 128)) (ascending : Bool) :
    written (encodeUhugeint v ascending) = directed ascending (beBytes 16 v.val) := by
  have hlow : beBytes 8 (v.val % 2 ^ 64) = beBytes 8 v.val := beBytes_mod 8 v.val
  rw [encodeUhugeint, written_append, written_unsigned, written_unsigned, hlow, ← directed_append, beBytes_add 8 8]
  rfl

theorem written_flush (scratch : List UInt8) : written (flush scratch) = scratch := by
  unfold flush
  split
  · rename_i hnil
    rw [hnil]
    rfl
  · simp [written, KeyWrite.bytes]

theorem written_transformBytes (transform : UInt8 → List UInt8) (scratch bytes : List UInt8) :
    written (transformBytes transform scratch bytes) = scratch ++ bytes.flatMap transform := by
  induction bytes generalizing scratch with
  | nil => rw [transformBytes, written_flush, flatMap_nil, append_nil]
  | cons byte bytes ih =>
    rw [transformBytes, flatMap_cons]
    split
    · rw [written_append, written_flush, ih]
    · rw [ih, append_assoc]

theorem written_string :
    written (encodeString bytes ascending) = directed ascending (stringCode bytes) := by
  have hmap (f : UInt8 → UInt8) : bytes.flatMap (fun b => [f b]) = bytes.map f := (map_eq_flatMap ..).symm
  unfold encodeString
  cases ascending with
  | true =>
    rw [if_pos rfl, written_append, written_transformBytes, nil_append, hmap]
    rfl
  | false =>
    rw [if_neg (by simp), written_append, written_transformBytes, nil_append, hmap, directed, if_neg (by simp),
      stringCode, map_append, map_map]
    rfl

theorem written_blob :
    written (encodeBlob bytes ascending) = directed ascending (blobCode bytes) := by
  unfold encodeBlob
  cases ascending with
  | true =>
    rw [if_pos rfl, written_append, written_transformBytes]
    rfl
  | false =>
    have hescape : (fun byte : UInt8 => if byte ≤ 1 then [~~~ blobEscapeCharacter, ~~~ byte] else [~~~ byte]) =
        fun byte => (escape byte).map (~~~ ·) := by
      funext byte
      unfold escape
      split <;> rfl
    rw [if_neg (by simp), written_append, written_transformBytes, nil_append, hescape, directed, if_neg (by simp),
      blobCode, map_append, map_flatMap]
    rfl

def isFieldType (type : LogicalType) : Bool := (fixedValueLen type).toOption.isSome

theorem encodeValueInto_eq {type : LogicalType} (htype : isFieldType type = true) (hnull : v.isNull = false)
    (hstored : v.storedAs type = true) (ascending : Bool) :
    ∃ writes, encodeValueInto v type ascending = .ok writes ∧ written writes =
      directed ascending (ascendingCode v) := by
  have hof := Value.isOf_of_storedAs hstored hnull
  cases htext : type.isText with
  | true =>
    obtain ⟨s, rfl⟩ := Value.text_of_isOf htext hof
    cases type with
    | varchar | varcharCollation | tsVector | tsQuery | json | jsonb => exact ⟨_, rfl, written_string _ _⟩
    | _ => cases htext
  | false =>
    obtain rfl := Value.logicalType_of_isOf htext hof
    cases v with
    | null => cases hnull
    | varchar => cases htext
    | blob b => exact ⟨_, rfl, written_blob b _⟩
    | boolean v => exact ⟨_, rfl, by cases v <;> exact written_byte _ _⟩
    | tinyInt v =>
      refine ⟨_, rfl, ?_⟩
      rw [encodeI8, bits_xor]
      exact written_byte _ _
    | uTinyInt v => exact ⟨_, rfl, written_byte _ _⟩
    | smallInt v | integer v | bigInt v | date v | timestamp v | timestampTz v | time v =>
      exact ⟨_, rfl, written_signed _ v _⟩
    | uSmallInt | uInteger | uBigInt => exact ⟨_, rfl, written_unsigned _ _ _⟩
    | hugeInt v => exact ⟨_, rfl, written_hugeint v _⟩
    | uHugeInt v | uuid v => exact ⟨_, rfl, written_uhugeint v _⟩
    | interval months days micros =>
      refine ⟨_, rfl, ?_⟩
      rw [encodeInterval, written_append, written_append, encodeI32, encodeI32, encodeI64,
        written_signed, written_signed, written_signed, ← directed_append, ← directed_append]
      rfl
    | decimal v precision scale =>
      by_cases hp : precision ≤ 18
      · refine ⟨encodeI64 (wrap 64 v.val) ascending, if_pos hp, ?_⟩
        rw [ascendingCode_decimal, if_pos hp]
        exact written_signed 8 (wrap 64 v.val) _
      · refine ⟨encodeHugeint v ascending, if_neg hp, ?_⟩
        rw [ascendingCode_decimal, if_neg hp]
        exact written_hugeint v _
    | list | struct | array => cases htype

end Paro.L1.SortKey
