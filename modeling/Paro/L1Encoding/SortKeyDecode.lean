import Paro.L1Encoding.SortKeyOrder

/-!
# Reading sort keys back (common/src/sort_key/decode.rs)

The decoder walks the fields over the bytes of a key: the marker, the padding of a NULL, or the value with its bytes
complemented back. It gives the values in the order of the fields; where they are written in the output chunk is left
out.

That a beginning of a key is refused (`sort_key_roundtrip`) needs no separate argument about where it was cut: the
decoder does the same with more bytes behind (`extends_row`), so it would have left bytes of the whole key over.
`La-b` are lines of this file.
-/
namespace Paro.L1.SortKey

open OrderedCode List Signed SortKeyEncoding
open StringPattern (Text utf8)

inductive DecodeError
  | truncated
  | nonZeroPadding
  | invalidMarker (marker : Nat) (type : LogicalType)
  | invalidBoolean (byte : Nat)
  | invalidEscape (byte : Nat)
  | notUtf8
  | notImplemented (type : LogicalType)
  | trailingBytes (remaining fields : Nat)

/-! ## Decoding -/

/-- L388-397 -/
def readOrdered (n : Nat) (ascending : Bool) : Reader DecodeError (List UInt8) := do
  let bytes ← take n .truncated
  pure (directed ascending bytes)

def readUnsigned (width : Nat) (ascending : Bool) : Reader DecodeError Nat :=
  ofBeBytes <$> readOrdered width ascending

/-- L399-409 (`decode_i16`, `decode_i32`, `decode_i64`) -/
def decodeSigned (w width : Nat) (ascending : Bool) : Reader DecodeError (Signed w) :=
  (fun raw => wrap w ((raw ^^^ 2 ^ (w - 1) : Nat) : Int)) <$> readUnsigned width ascending

variable (ascending : Bool)

/-- `(high << 64) | low`. L411-415 -/
def decodeI128 : Reader DecodeError (Signed 128) := do
  let high ← decodeSigned 64 8 ascending
  let low ← readUnsigned 8 ascending
  pure (wrap 128 (high.val * 2 ^ 64 + low))

/-- L417-421 -/
def decodeU128 : Reader DecodeError (Fin (2 ^ 128)) := do
  let high ← readUnsigned 8 ascending
  let low ← readUnsigned 8 ascending
  pure (Fin.ofNat (2 ^ 128) (high * 2 ^ 64 + low))

/-- L481-488 -/
def normalizeVariableByte (byte : UInt8) (ascending : Bool) : UInt8 := if ascending then byte else ~~~ byte

/-- L449-458 -/
def decodeString (ascending : Bool) : List UInt8 → Except DecodeError (List UInt8 × List UInt8)
  | [] => .error .truncated
  | byte :: rest =>
    if normalizeVariableByte byte ascending = stringDelimiter then .ok ([], rest)
    else
      match decodeString ascending rest with
      | .ok (output, rest) => .ok ((normalizeVariableByte byte ascending - 1) :: output, rest)
      | .error e => .error e

/-- The loop of `decode_blob`, at a byte or at the byte behind an escape. L460-479 -/
def decodeBlobFrom (ascending : Bool) : Bool → List UInt8 → Except DecodeError (List UInt8 × List UInt8)
  | _, [] => .error .truncated
  | false, byte :: rest =>
    if normalizeVariableByte byte ascending = stringDelimiter then .ok ([], rest)
    else if normalizeVariableByte byte ascending = blobEscapeCharacter then decodeBlobFrom ascending true rest
    else
      match decodeBlobFrom ascending false rest with
      | .ok (output, rest) => .ok (normalizeVariableByte byte ascending :: output, rest)
      | .error e => .error e
  | true, escaped :: rest =>
    if normalizeVariableByte escaped ascending > blobEscapeCharacter then
      .error (.invalidEscape (normalizeVariableByte escaped ascending).toNat)
    else
      match decodeBlobFrom ascending false rest with
      | .ok (output, rest) => .ok (normalizeVariableByte escaped ascending :: output, rest)
      | .error e => .error e

def decodeBlob : Reader DecodeError (List UInt8) := decodeBlobFrom ascending false

def decodeBool : Reader DecodeError Value := do
  let byte ← readUnsigned 1 ascending
  if byte = 0 then pure (.boolean false)
  else if byte = 1 then pure (.boolean true)
  else fun _ => .error (.invalidBoolean byte)

def decodeText : Reader DecodeError Value := do
  let bytes ← decodeString ascending
  match fromUtf8 bytes with
  | some text => pure (.varchar text)
  | none => fun _ => .error .notUtf8

def decodeInterval : Reader DecodeError Value := do
  let months ← decodeSigned 32 4 ascending
  let days ← decodeSigned 32 4 ascending
  let micros ← decodeSigned 64 8 ascending
  pure (.interval months days micros)

/-- L158-321 -/
def decodeValue : LogicalType → Reader DecodeError Value
  | .boolean => decodeBool ascending
  | .tinyInt => .tinyInt <$> decodeSigned 8 1 ascending
  | .smallInt => .smallInt <$> decodeSigned 16 2 ascending
  | .integer => .integer <$> decodeSigned 32 4 ascending
  | .date => .date <$> decodeSigned 32 4 ascending
  | .bigInt => .bigInt <$> decodeSigned 64 8 ascending
  | .time => .time <$> decodeSigned 64 8 ascending
  | .timestamp => .timestamp <$> decodeSigned 64 8 ascending
  | .timestampTz => .timestampTz <$> decodeSigned 64 8 ascending
  | .hugeInt => .hugeInt <$> decodeI128 ascending
  | .uTinyInt => (fun n => .uTinyInt (Fin.ofNat (2 ^ 8) n)) <$> readUnsigned 1 ascending
  | .uSmallInt => (fun n => .uSmallInt (Fin.ofNat (2 ^ 16) n)) <$> readUnsigned 2 ascending
  | .uInteger => (fun n => .uInteger (Fin.ofNat (2 ^ 32) n)) <$> readUnsigned 4 ascending
  | .uBigInt => (fun n => .uBigInt (Fin.ofNat (2 ^ 64) n)) <$> readUnsigned 8 ascending
  | .uHugeInt => .uHugeInt <$> decodeU128 ascending
  | .uuid => .uuid <$> decodeU128 ascending
  | .interval => decodeInterval ascending
  | .decimal precision scale =>
    if precision ≤ 18 then
      (fun v => .decimal (wrap 128 v.val) precision scale) <$> decodeSigned 64 8 ascending
    else (fun v => .decimal v precision scale) <$> decodeI128 ascending
  | .varchar | .varcharCollation _ | .tsVector | .tsQuery | .json | .jsonb => decodeText ascending
  | .blob => .blob <$> decodeBlob ascending
  | type => fun _ => .error (.notImplemented type)

variable (f : SortKeyFieldEncoding)

/-- The padding of a NULL. L129-137 -/
def decodeNull : Reader DecodeError Value :=
  match fixedValueLen f.logicalType with
  | .error _ => fun _ => .error (.notImplemented f.logicalType)
  | .ok none => pure (.null f.logicalType)
  | .ok (some width) => do
    let padding ← take width .truncated
    if padding.any (· != 0) then fun _ => .error .nonZeroPadding else pure (.null f.logicalType)

/-- One turn of the loop. L121-146 -/
def decodeField : Reader DecodeError Value := do
  let marker ← take 1 .truncated
  if marker = [f.markers.1] then decodeNull f
  else if marker ≠ [f.markers.2] then fun _ => .error (.invalidMarker (ofBeBytes marker) f.logicalType)
  else decodeValue f.modifiers.ascending f.logicalType

/-- L107-156 -/
def SortKeyEncoding.decodeRow (e : SortKeyEncoding) (encoded : List UInt8) : Except DecodeError (List Value) :=
  match readAll decodeField e.fields encoded with
  | .ok (values, rest) => if rest.length ≠ 0 then .error (.trailingBytes rest.length e.fields.length) else .ok values
  | .error e => .error e

/-! ## More bytes behind -/

theorem extends_ordered (n : Nat) (ascending : Bool) : Extends (readOrdered n ascending) :=
  (Extends.take n _).bind fun _ => .pure _

theorem extends_unsigned (width : Nat) (ascending : Bool) : Extends (readUnsigned width ascending) :=
  (extends_ordered width ascending).map _

theorem extends_signed (w width : Nat) (ascending : Bool) : Extends (decodeSigned w width ascending) :=
  (extends_unsigned width ascending).map _

variable (ascending : Bool)

theorem extends_i128 : Extends (decodeI128 ascending) :=
  (extends_signed 64 8 ascending).bind fun _ => (extends_unsigned 8 ascending).bind fun _ => .pure _

theorem extends_u128 : Extends (decodeU128 ascending) :=
  (extends_unsigned 8 ascending).bind fun _ => (extends_unsigned 8 ascending).bind fun _ => .pure _

theorem extends_string : Extends (decodeString ascending : Reader DecodeError (List UInt8)) := by
  intro bytes
  induction bytes with
  | nil => intro a rest more h; cases h
  | cons byte bytes ih =>
    intro a rest more h
    rw [decodeString] at h
    rw [cons_append, decodeString]
    split at h
    · rename_i hend
      cases h
      rw [if_pos hend]
    rename_i hend
    rw [if_neg hend]
    split at h
    · rename_i output rest' hrest
      cases h
      rw [ih _ _ more hrest]
    · cases h

theorem extends_blob (ascending escaping : Bool) :
    Extends (decodeBlobFrom ascending escaping : Reader DecodeError (List UInt8)) := by
  intro bytes
  induction bytes generalizing escaping with
  | nil => intro a rest more h; cases escaping <;> cases h
  | cons byte bytes ih =>
    intro a rest more h
    cases escaping with
    | false =>
      rw [decodeBlobFrom] at h
      rw [cons_append, decodeBlobFrom]
      split at h
      · rename_i hend
        cases h
        rw [if_pos hend]
      rename_i hend
      rw [if_neg hend]
      split at h
      · rename_i hescape
        rw [if_pos hescape]
        exact ih true a rest more h
      rename_i hescape
      rw [if_neg hescape]
      split at h
      · rename_i output rest' hrest
        cases h
        rw [ih false _ _ more hrest]
      · cases h
    | true =>
      rw [decodeBlobFrom] at h
      rw [cons_append, decodeBlobFrom]
      split at h
      · cases h
      rename_i hle
      rw [if_neg hle]
      split at h
      · rename_i output rest' hrest
        cases h
        rw [ih false _ _ more hrest]
      · cases h

theorem extends_value (type : LogicalType) : Extends (decodeValue ascending type) := by
  have hbool : Extends (decodeBool ascending) := by
    refine (extends_unsigned 1 ascending).bind fun byte => ?_
    split
    · exact .pure _
    split
    · exact .pure _
    · exact .throw _
  have htext : Extends (decodeText ascending) := by
    refine (extends_string ascending).bind fun bytes => ?_
    split
    · exact .pure _
    · exact .throw _
  cases type with
  | boolean => exact hbool
  | varchar | varcharCollation | tsVector | tsQuery | json | jsonb => exact htext
  | tinyInt | smallInt | integer | date | bigInt | time | timestamp | timestampTz =>
    exact (extends_signed _ _ ascending).map _
  | uTinyInt | uSmallInt | uInteger | uBigInt => exact (extends_unsigned _ ascending).map _
  | hugeInt => exact (extends_i128 ascending).map _
  | uHugeInt | uuid => exact (extends_u128 ascending).map _
  | interval =>
    exact (extends_signed 32 4 ascending).bind fun _ => (extends_signed 32 4 ascending).bind fun _ =>
      (extends_signed 64 8 ascending).bind fun _ => .pure _
  | decimal precision scale =>
    rw [decodeValue]
    split
    · exact (extends_signed 64 8 ascending).map _
    · exact (extends_i128 ascending).map _
  | blob => exact (extends_blob ascending false).map _
  | array | list | struct => exact .throw _

theorem extends_field : Extends (decodeField f) := by
  have hnull : Extends (decodeNull f) := by
    unfold decodeNull
    split
    · exact .throw _
    · exact .pure _
    · refine (Extends.take _ _).bind fun padding => ?_
      split
      · exact .throw _
      · exact .pure _
  refine (Extends.take 1 _).bind fun marker => ?_
  split
  · exact hnull
  split
  · exact .throw _
  · exact extends_value _ _

theorem extends_row (fields : List SortKeyFieldEncoding) : Extends (readAll decodeField fields) :=
  .readAll extends_field fields

/-! ## Reading what was written -/

theorem directed_directed (bytes : List UInt8) : directed ascending (directed ascending bytes) = bytes := by
  cases ascending with
  | true => rfl
  | false => simp [directed, Function.comp_def]

variable {n width : Nat} {bytes : List UInt8}

theorem reads_ordered (h : bytes.length = n) (ascending : Bool) :
    Reads (readOrdered n ascending) (directed ascending bytes) bytes := by
  have hread : Reads (readOrdered n ascending) (directed ascending bytes)
    (directed ascending (directed ascending bytes)) :=
    (Reads.take (by rw [length_directed, h])).bindPure (directed ascending)
  rw [directed_directed] at hread
  exact hread

theorem reads_unsigned (h : n < 256 ^ width) (ascending : Bool) :
    Reads (readUnsigned width ascending) (directed ascending (beBytes width n)) n := by
  have hread := (reads_ordered (length_beBytes width n) ascending).map ofBeBytes
  rw [ofBeBytes_beBytes h] at hread
  exact hread

theorem reads_fin {m : Nat} [NeZero m] (width : Nat) (v : Fin m) (h : v.val < 256 ^ width) (f : Fin m → Value)
    (ascending : Bool) :
    Reads ((fun n => f (Fin.ofNat m n)) <$> readUnsigned width ascending) (directed ascending (beBytes width v.val))
      (f v) := by
  have hread := (reads_unsigned h ascending).map fun n => f (Fin.ofNat m n)
  rw [Fin.ofNat_val_eq_self] at hread
  exact hread

theorem reads_signed {w : Nat} (v : Signed (w + 1)) (h : v.ordinal < 256 ^ width) (ascending : Bool) :
    Reads (decodeSigned (w + 1) width ascending) (directed ascending (beBytes width v.ordinal)) v := by
  have hread := (reads_unsigned h ascending).map fun raw => wrap (w + 1) ((raw ^^^ 2 ^ w : Nat) : Int)
  rw [wrap_ordinal] at hread
  exact hread

theorem reads_i128 (v : Signed 128) (ascending : Bool) :
    Reads (decodeI128 ascending) (directed ascending (beBytes 16 v.ordinal)) v := by
  obtain ⟨hval, hhigh, hlow⟩ := halves v
  have hwhole : v.val / 2 ^ 64 * 2 ^ 64 + v.val % 2 ^ 64 = v.val := by omega
  have hlowRead : Reads (readUnsigned 8 ascending >>= fun low =>
      (pure (wrap 128 ((wrap 64 (v.val / 2 ^ 64)).val * 2 ^ 64 + low)) : Reader DecodeError (Signed 128)))
      (directed ascending (beBytes 8 v.ordinal)) v := by
    have hread := (reads_unsigned (Nat.mod_lt v.ordinal (show 0 < 256 ^ 8 by decide)) ascending).bindPure
      fun (low : Nat) => wrap 128 ((wrap 64 (v.val / 2 ^ 64)).val * 2 ^ 64 + low)
    rw [beBytes_mod, hval, hlow, hwhole, wrap_val] at hread
    rw [hval]
    exact hread
  have hread : Reads (decodeI128 ascending) _ v :=
    (reads_signed (wrap 64 (v.val / 2 ^ 64)) (ordinal_lt _) ascending).bind hlowRead
  rw [hhigh, ← directed_append, ← beBytes_add 8 8] at hread
  exact hread

theorem reads_u128 (v : Fin (2 ^ 128)) (ascending : Bool) :
    Reads (decodeU128 ascending) (directed ascending (beBytes 16 v.val)) v := by
  have hlt := v.isLt
  have hwhole : v.val / 256 ^ 8 * 2 ^ 64 + v.val % 256 ^ 8 = v.val := by omega
  have hlowRead : Reads (readUnsigned 8 ascending >>= fun low =>
      (pure (Fin.ofNat (2 ^ 128) (v.val / 256 ^ 8 * 2 ^ 64 + low)) : Reader DecodeError (Fin (2 ^ 128))))
      (directed ascending (beBytes 8 v.val)) v := by
    have hread := (reads_unsigned (Nat.mod_lt v.val (show 0 < 256 ^ 8 by decide)) ascending).bindPure
      fun low => Fin.ofNat (2 ^ 128) (v.val / 256 ^ 8 * 2 ^ 64 + low)
    rw [beBytes_mod, hwhole, Fin.ofNat_val_eq_self] at hread
    exact hread
  have hread : Reads (decodeU128 ascending) _ v :=
    (reads_unsigned (show v.val / 256 ^ 8 < 256 ^ 8 by omega) ascending).bind hlowRead
  rw [← directed_append, ← beBytes_add 8 8] at hread
  exact hread

theorem normalize_directed (byte : UInt8) (ascending : Bool) :
    ∃ written, (∀ bytes, directed ascending (byte :: bytes) = written :: directed ascending bytes) ∧
      normalizeVariableByte written ascending = byte := by
  cases ascending with
  | true => exact ⟨byte, fun _ => rfl, rfl⟩
  | false => exact ⟨~~~ byte, fun _ => rfl, by simp [normalizeVariableByte]⟩

theorem reads_string (h : ∀ b ∈ bytes, b.toNat < 255) (ascending : Bool) :
    Reads (decodeString ascending : Reader DecodeError (List UInt8)) (directed ascending (stringCode bytes)) bytes := by
  intro rest
  induction bytes with
  | nil =>
    obtain ⟨delimiter, hdirected, hnormal⟩ := normalize_directed stringDelimiter ascending
    show decodeString ascending (directed ascending (stringDelimiter :: []) ++ rest) = _
    rw [hdirected, cons_append, decodeString, hnormal, if_pos rfl]
    cases ascending <;> rfl
  | cons b bytes ih =>
    obtain ⟨written, hdirected, hnormal⟩ := normalize_directed (b + 1) ascending
    have hne : b + 1 ≠ stringDelimiter := by
      intro heq
      have hnat := congrArg UInt8.toNat heq
      rw [toNat_add_one (h b mem_cons_self)] at hnat
      cases hnat
    show decodeString ascending (directed ascending ((b + 1) :: stringCode bytes) ++ rest) = _
    rw [hdirected, cons_append, decodeString, hnormal, if_neg hne, ih fun b' hb' => h b' (mem_cons_of_mem _ hb')]
    simp

theorem reads_blob (bytes : List UInt8) (ascending : Bool) :
    Reads (decodeBlob ascending) (directed ascending (blobCode bytes)) bytes := by
  intro rest
  unfold decodeBlob
  induction bytes with
  | nil =>
    obtain ⟨delimiter, hdirected, hnormal⟩ := normalize_directed stringDelimiter ascending
    show decodeBlobFrom ascending false (directed ascending (stringDelimiter :: []) ++ rest) = _
    rw [hdirected, cons_append, decodeBlobFrom, hnormal, if_pos rfl]
    cases ascending <;> rfl
  | cons b bytes ih =>
    obtain ⟨written, hdirected, hnormal⟩ := normalize_directed b ascending
    have hcode : blobCode (b :: bytes) = escape b ++ blobCode bytes := by
      simp [blobCode]
    rw [hcode]
    unfold escape
    split
    · rename_i hle
      obtain ⟨escaped, hdirected', hnormal'⟩ := normalize_directed blobEscapeCharacter ascending
      have hgt : ¬ b > blobEscapeCharacter := UInt8.not_lt.2 hle
      show decodeBlobFrom ascending false (directed ascending (blobEscapeCharacter :: b :: blobCode bytes) ++ rest) = _
      rw [hdirected', hdirected, cons_append, cons_append, decodeBlobFrom, hnormal', if_neg (by decide),
        if_pos rfl, decodeBlobFrom, hnormal, if_neg hgt, ih]
    · rename_i hgt
      have hzero : b ≠ stringDelimiter := fun heq => hgt (heq ▸ by decide)
      have hone : b ≠ blobEscapeCharacter := fun heq => hgt (heq ▸ by decide)
      show decodeBlobFrom ascending false (directed ascending (b :: blobCode bytes) ++ rest) = _
      rw [hdirected, cons_append, decodeBlobFrom, hnormal, if_neg hzero, if_neg hone, ih]

theorem reads_text (s : Text) (ascending : Bool) :
    Reads (decodeText ascending) (directed ascending (stringCode (utf8 s))) (.varchar s) := by
  intro rest
  show (decodeString ascending (directed ascending (stringCode (utf8 s)) ++ rest)).bind _ = _
  rw [reads_string (fun _ => lt_of_mem_utf8) ascending rest]
  simp only [Except.bind, fromUtf8_utf8]
  rfl

theorem reads_bool (v ascending : Bool) :
    Reads (decodeBool ascending) (directed ascending (beBytes 1 v.toNat)) (.boolean v) := by
  have hlt : v.toNat < 256 ^ 1 := by cases v <;> decide
  have hread : Reads (decodeBool ascending) (directed ascending (beBytes 1 v.toNat) ++ []) (.boolean v) := by
    refine (reads_unsigned hlt ascending).bind ?_
    cases v <;> exact .pure _
  rw [append_nil] at hread
  exact hread

theorem reads_interval (months days : Signed 32) (micros : Signed 64) (ascending : Bool) :
    Reads (decodeInterval ascending)
      (directed ascending (beBytes 4 months.ordinal ++ beBytes 4 days.ordinal ++ beBytes 8 micros.ordinal))
      (.interval months days micros) := by
  have hread : Reads (decodeInterval ascending) _ (.interval months days micros) :=
    (reads_signed months months.ordinal_lt ascending).bind ((reads_signed days days.ordinal_lt ascending).bind
      ((reads_signed micros micros.ordinal_lt ascending).bindPure (Value.interval months days)))
  rw [directed_append, directed_append, append_assoc]
  exact hread

theorem reads_value {type : LogicalType} {v : Value} (htype : isFieldType type = true) (hnull : v.isNull = false)
    (hstored : v.storedAs type = true) (ascending : Bool) :
    Reads (decodeValue ascending type) (directed ascending (ascendingCode v)) v := by
  have hof := Value.isOf_of_storedAs hstored hnull
  cases htext : type.isText with
  | true =>
    obtain ⟨s, rfl⟩ := Value.text_of_isOf htext hof
    cases type with
    | varchar | varcharCollation | tsVector | tsQuery | json | jsonb => exact reads_text s ascending
    | _ => cases htext
  | false =>
    obtain rfl := Value.logicalType_of_isOf htext hof
    cases v with
    | null => cases hnull
    | varchar => cases htext
    | blob b => exact (reads_blob b ascending).map _
    | boolean v => exact reads_bool v ascending
    | tinyInt v | smallInt v | integer v | bigInt v | date v | timestamp v | timestampTz v | time v =>
      exact (reads_signed v v.ordinal_lt ascending).map _
    | uTinyInt v | uSmallInt v | uInteger v | uBigInt v => exact reads_fin _ v v.isLt _ ascending
    | hugeInt v => exact (reads_i128 v ascending).map _
    | uHugeInt v | uuid v => exact (reads_u128 v ascending).map _
    | interval months days micros => exact reads_interval months days micros ascending
    | decimal v precision scale =>
      rw [Value.logicalType, decodeValue]
      by_cases hp : precision ≤ 18
      · have hread := (reads_signed (wrap 64 v.val) (ordinal_lt _ : _ < 256 ^ 8) ascending).map
          fun u => Value.decimal (wrap 128 u.val) precision scale
        rw [Value.wrap_of_storedAs hp hstored, wrap_val] at hread
        rw [if_pos hp, ascendingCode_decimal, if_pos hp]
        exact hread
      · rw [if_neg hp, ascendingCode_decimal, if_neg hp]
        exact (reads_i128 v ascending).map _
    | list | struct | array => cases htype

theorem reads_field {f : SortKeyFieldEncoding} {cell : Cell} (h : f.Fits cell) :
    Reads (decodeField f) (f.code cell) cell.value := by
  obtain ⟨htype, hfield⟩ := h
  have hmarkers : f.markers.2 ≠ f.markers.1 := by
    unfold SortKeyFieldEncoding.markers
    split <;> decide
  have hmarker (marker : UInt8) : Reads (take 1 DecodeError.truncated) [marker] [marker] := .take rfl
  unfold SortKeyFieldEncoding.code
  cases hnull : cell.value.isNull with
  | true =>
    have hvalue : cell.value = .null f.logicalType := htype ▸ cell.nullType hnull
    rw [if_pos rfl, hvalue]
    have hread : Reads (decodeNull f) (replicate ((fixedValueLen f.logicalType).toOption.join.getD 0) 0)
        (.null f.logicalType) := by
      unfold decodeNull
      cases hlen : fixedValueLen f.logicalType with
      | error e => simp [isFieldType, hlen, Except.toOption] at hfield
      | ok len =>
        cases len with
        | none => exact .pure _
        | some width =>
          have htake : Reads (take width DecodeError.truncated) (replicate width 0) (replicate width 0) :=
            .take (by simp)
          refine append_nil (replicate width (0 : UInt8)) ▸ htake.bind ?_
          rw [if_neg (by simp)]
          exact .pure _
    refine (hmarker f.markers.1).bind ?_
    rw [if_pos rfl]
    exact hread
  | false =>
    rw [if_neg (by simp)]
    refine (hmarker f.markers.2).bind ?_
    rw [if_neg (by simp [hmarkers]), if_neg (by simp)]
    exact reads_value hfield hnull (htype ▸ cell.stored) f.modifiers.ascending

/-- The key of a row decodes to the values of the row; a proper beginning of the key and the key with more behind it
are errors. -/
theorem sort_key_roundtrip (types : List LogicalType) (modifiers : List OrderModifiers) (e : SortKeyEncoding)
    (hnew : new types modifiers = .ok e) (row : List Cell) (hrow : row.map Cell.type = types) :
    ∃ key, e.encodeRow row = .ok key ∧ e.decodeRow key = .ok (row.map Cell.value) ∧
      (∀ beginning more, key = beginning ++ more → more ≠ [] → ∃ err, e.decodeRow beginning = .error err) ∧
      ∀ extra, extra ≠ [] → ∃ err, e.decodeRow (key ++ extra) = .error err := by
  obtain ⟨htypes, hfield, -⟩ := new_spec hnew
  have hfits := fits_of_types hfield (hrow.trans htypes.symm)
  have hfield' : ∀ (f : SortKeyFieldEncoding) cell, f.Fits cell → Reads (decodeField f) (f.code cell) cell.value :=
    fun _ _ => reads_field
  have hread := Reads.readAll hfield' hfits
  refine ⟨_, encodeRow_eq hfits, ?_, ?_, ?_⟩
  · have hnil := hread []
    rw [append_nil] at hnil
    unfold decodeRow
    rw [hnil]
    rfl
  · intro beginning more hkey hmore
    unfold decodeRow
    cases hrun : readAll decodeField e.fields beginning with
    | error err => exact ⟨err, rfl⟩
    | ok out =>
      obtain ⟨values, rest⟩ := out
      have hrest := (extends_row e.fields).rest_ne_nil hread hkey hmore hrun
      exact ⟨_, if_pos fun h => hrest (length_eq_zero_iff.1 h)⟩
  · intro extra hextra
    unfold decodeRow
    rw [hread extra]
    exact ⟨_, if_pos fun h => hextra (length_eq_zero_iff.1 h)⟩

/-- A descending blob with an escaped byte before a NULL interval. -/
theorem sort_key_roundtrip_blob_and_null :
    let row : List Cell := [⟨.blob, .blob [0, 7], rfl, nofun⟩, ⟨.interval, .null .interval, rfl, fun _ => rfl⟩]
    ∃ e key, new [.blob, .interval] [⟨false, true⟩, ⟨true, false⟩] = .ok e ∧
      e.encodeRow row = .ok key ∧ key.length = 22 ∧ e.decodeRow key = .ok (row.map Cell.value) ∧
      ∃ err, e.decodeRow (key.take 5) = .error err := by
  intro row
  obtain ⟨key, hkey, hdecode, hcut, -⟩ :=
    sort_key_roundtrip [.blob, .interval] [⟨false, true⟩, ⟨true, false⟩] _ rfl row rfl
  have hlen : key.length = 22 := by
    rw [← Except.ok.inj hkey]
    decide
  refine ⟨_, key, rfl, hkey, hlen, hdecode, hcut (key.take 5) (key.drop 5) (take_append_drop 5 key).symm ?_⟩
  intro hnil
  rw [drop_eq_nil_iff, hlen] at hnil
  omega

end Paro.L1.SortKey
