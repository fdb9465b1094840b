import Paro.L1Encoding.OrderedValue

/-!
# Comparable primary keys (storage/src/primary_key/comparable_encoding.rs)

A primary key is the concatenation of its columns' encodings, and keys are compared, scanned and locked as bytes.
A fixed-width value is a big-endian number with the sign bit flipped. A text or blob is cut into groups of eight
bytes, each followed by the number of its bytes that count; a group that is not full, perhaps an empty one, ends it.

`primary_key_sound`: keys compare as the tuples they encode, none is a proper beginning of another, and decoding
column by column gives the tuple back and leaves nothing over.
`La-b` are lines of this file.
-/
namespace Paro.L1.ComparableEncoder

open OrderedCode List Value
open StringPattern (Text utf8)

inductive Error
  | nullKey
  | decimalMismatch (precision scale typePrecision typeScale : Nat)
  | unsupportedValue (type : LogicalType) (value : Value)
  | unsupportedType (type : LogicalType)
  | payloadTruncated
  | bytePayloadTruncated
  | invalidMarker (marker : Nat)
  | notUtf8

/-! ## Encoding -/

def groupSize : Nat := 8

/-- `(v as uN) ^ sign bit`, in big-endian bytes. -/
def encodeSigned (width : Nat) {w : Nat} (v : Signed w) : List UInt8 :=
  beBytes width (v.bits ^^^ 2 ^ (w - 1))

/-- L189-195 -/
def encodeDecimal (value : Signed 128) (precision : Nat) : List UInt8 :=
  if precision ≤ 18 then encodeSigned 8 (Signed.wrap 64 value.val) else encodeSigned 16 value

/-- The rest of a string, with `group` the bytes already seen of the group it is in. -/
def encodeGroups (group : List UInt8) : List UInt8 → List UInt8
  | [] => group ++ List.replicate (groupSize - group.length) 0 ++ [UInt8.ofNat group.length]
  | b :: bytes =>
    if group.length + 1 = groupSize then group ++ [b] ++ UInt8.ofNat groupSize :: encodeGroups [] bytes
    else encodeGroups (group ++ [b]) bytes

/-- L245-264 -/
def encodeBytes (bytes : List UInt8) : List UInt8 := encodeGroups [] bytes

/-- L23-111 -/
def encodeValue (value : Value) (type : LogicalType) : Except Error (List UInt8) :=
  if value.isNull then .error .nullKey
  else
    match value, type with
    | .boolean v, .boolean => .ok [if v then 1 else 0]
    | .tinyInt v, .tinyInt => .ok (encodeSigned 1 v)
    | .smallInt v, .smallInt => .ok (encodeSigned 2 v)
    | .integer v, .integer => .ok (encodeSigned 4 v)
    | .bigInt v, .bigInt => .ok (encodeSigned 8 v)
    | .hugeInt v, .hugeInt => .ok (encodeSigned 16 v)
    | .uTinyInt v, .uTinyInt => .ok (beBytes 1 v)
    | .uSmallInt v, .uSmallInt => .ok (beBytes 2 v)
    | .uInteger v, .uInteger => .ok (beBytes 4 v)
    | .uBigInt v, .uBigInt => .ok (beBytes 8 v)
    | .uHugeInt v, .uHugeInt => .ok (beBytes 16 v)
    | .uuid v, .uuid => .ok (beBytes 16 v)
    | .date v, .date => .ok (encodeSigned 4 v)
    | .timestamp v, .timestamp => .ok (encodeSigned 8 v)
    | .timestampTz v, .timestampTz => .ok (encodeSigned 8 v)
    | .time v, .time => .ok (encodeSigned 8 v)
    | .decimal v precision scale, .decimal p s =>
      if precision ≠ p ∨ scale ≠ s then .error (.decimalMismatch precision scale p s) else .ok (encodeDecimal v p)
    | .bigInt v, .decimal p _ => .ok (encodeDecimal (Signed.wrap 128 v.val) p)
    | .hugeInt v, .decimal p _ => .ok (encodeDecimal v p)
    | .varchar s, .varchar => .ok (encodeBytes (utf8 s))
    | .varchar s, .varcharCollation _ => .ok (encodeBytes (utf8 s))
    | .varchar s, .tsVector => .ok (encodeBytes (utf8 s))
    | .varchar s, .tsQuery => .ok (encodeBytes (utf8 s))
    | .varchar s, .json => .ok (encodeBytes (utf8 s))
    | .varchar s, .jsonb => .ok (encodeBytes (utf8 s))
    | .blob b, .blob => .ok (encodeBytes b)
    | value, type => .error (.unsupportedValue type value)

/-- The key of a row, from the values of its key columns. primary_index.rs:1155-1171 -/
def encodeRow : List LogicalType → List Value → Except Error (List UInt8)
  | type :: types, value :: values => do
    let column ← encodeValue value type
    let rest ← encodeRow types values
    .ok (column ++ rest)
  | _, _ => .ok []

/-! ## Decoding -/

/-- `read_u8` to `read_u128`. L288-332 -/
def readUnsigned (width : Nat) : Reader Error Nat := do
  let bytes ← take width .payloadTruncated
  pure (ofBeBytes bytes)

def readSigned (w width : Nat) : Reader Error (Signed w) := do
  let raw ← readUnsigned width
  pure (Signed.wrap w ((raw ^^^ 2 ^ (w - 1) : Nat) : Int))

def readFin (n width : Nat) [NeZero n] : Reader Error (Fin n) := do
  let raw ← readUnsigned width
  pure (Fin.ofNat n raw)

/-- L265-286 -/
def decodeBytes (input : List UInt8) : Except Error (List UInt8 × List UInt8) :=
  if input.length < groupSize + 1 then .error .bytePayloadTruncated
  else
    let chunk := input.take groupSize
    let marker := ((input.drop groupSize).headD 0).toNat
    if marker > groupSize then .error (.invalidMarker marker)
    else if marker < groupSize then .ok (chunk.take marker, input.drop (groupSize + 1))
    else
      match decodeBytes (input.drop (groupSize + 1)) with
      | .ok (out, rest) => .ok (chunk.take marker ++ out, rest)
      | .error e => .error e
termination_by input.length
decreasing_by
  simp only [length_drop, groupSize] at *
  omega

def decodeText : Reader Error Value := do
  let bytes ← decodeBytes
  match fromUtf8 bytes with
  | some text => pure (.varchar text)
  | none => fun _ => .error .notUtf8

/-- L114-187 -/
def decodeValue : LogicalType → Reader Error Value
  | .boolean => do pure (.boolean ((← readUnsigned 1) != 0))
  | .tinyInt => .tinyInt <$> readSigned 8 1
  | .smallInt => .smallInt <$> readSigned 16 2
  | .integer => .integer <$> readSigned 32 4
  | .bigInt => .bigInt <$> readSigned 64 8
  | .hugeInt => .hugeInt <$> readSigned 128 16
  | .uTinyInt => .uTinyInt <$> readFin (2 ^ 8) 1
  | .uSmallInt => .uSmallInt <$> readFin (2 ^ 16) 2
  | .uInteger => .uInteger <$> readFin (2 ^ 32) 4
  | .uBigInt => .uBigInt <$> readFin (2 ^ 64) 8
  | .uHugeInt => .uHugeInt <$> readFin (2 ^ 128) 16
  | .uuid => .uuid <$> readFin (2 ^ 128) 16
  | .date => .date <$> readSigned 32 4
  | .timestamp => .timestamp <$> readSigned 64 8
  | .timestampTz => .timestampTz <$> readSigned 64 8
  | .time => .time <$> readSigned 64 8
  | .decimal precision scale =>
    if precision ≤ 18 then (fun v => .decimal (Signed.wrap 128 v.val) precision scale) <$> readSigned 64 8
    else (fun v => .decimal v precision scale) <$> readSigned 128 16
  | .varchar | .varcharCollation _ | .tsVector | .tsQuery | .json | .jsonb => decodeText
  | .blob => .blob <$> decodeBytes
  | type => fun _ => .error (.unsupportedType type)

def decodeRow : List LogicalType → Reader Error (List Value) := readAll decodeValue

/-! ## Groups -/

open UInt8

theorem encodeGroups_isPrefix (group bytes : List UInt8) : ∃ rest, encodeGroups group bytes = group ++ rest := by
  induction bytes generalizing group with
  | nil => exact ⟨_, append_assoc ..⟩
  | cons b bytes ih =>
    rw [encodeGroups]
    split
    · exact ⟨b :: ofNat groupSize :: encodeGroups [] bytes, by simp⟩
    · obtain ⟨rest, hrest⟩ := ih (group ++ [b])
      exact ⟨b :: rest, by rw [hrest, append_assoc]; rfl⟩

variable {group : List UInt8} {w width n : Nat} {v : Value}

/-- The group that `group` begins, and the number behind it. -/
theorem encodeGroups_marker (hg : group.length < groupSize) (b : UInt8) (bytes : List UInt8) :
    ∃ more marker rest, encodeGroups group (b :: bytes) = group ++ more ++ ofNat marker :: rest ∧
      more.length = groupSize - group.length ∧ group.length < marker ∧ marker ≤ groupSize := by
  induction bytes generalizing group b with
  | nil =>
    rw [encodeGroups]
    split
    · exact ⟨[b], groupSize, _, rfl, by simp; omega, hg, le_rfl⟩
    · refine ⟨b :: replicate (groupSize - (group ++ [b]).length) 0, (group ++ [b]).length, [], ?_, ?_, ?_, ?_⟩
      · simp [encodeGroups]
      · simp only [length_cons, length_replicate, length_append, length_nil]
        omega
      · simp
      · simp only [length_append, length_cons, length_nil]
        omega
  | cons c bytes ih =>
    rw [encodeGroups]
    split
    · exact ⟨[b], groupSize, _, rfl, by simp; omega, hg, le_rfl⟩
    · rename_i hne
      have hlen : (group ++ [b]).length = group.length + 1 := by simp
      obtain ⟨more, marker, rest, heq, hmore, hlt, hle⟩ := @ih (group ++ [b]) (by omega) c
      refine ⟨b :: more, marker, rest, ?_, ?_, by omega, hle⟩
      · rw [heq]
        simp
      · rw [length_cons, hmore]
        omega

/-- A padded group is below any other group with more bytes that count. -/
theorem split_padding {k m m' : Nat} {more rest : List UInt8} (hlen : more.length = k) (hlt : m < m')
    (hm' : m' ≤ groupSize) :
    split (List.replicate k 0 ++ [ofNat m]) (more ++ ofNat m' :: rest) = some .lt := by
  induction k generalizing more with
  | zero =>
    obtain rfl := length_eq_zero_iff.1 hlen
    rw [groupSize] at hm'
    have hmarker : ofNat m < ofNat m' := by
      rw [lt_iff_toNat_lt, toNat_ofNat', toNat_ofNat']
      omega
    simp [split, hmarker]
  | succ k ih =>
    cases more with
    | nil => cases hlen
    | cons c more =>
      rw [replicate_succ, cons_append, cons_append, split]
      split
      · rfl
      · rename_i hzero
        rw [if_neg (by simp), ih (Nat.succ.inj hlen)]

theorem encodeGroups_cons (group : List UInt8) (c : UInt8) (a : List UInt8) :
    ∃ x, encodeGroups group (c :: a) = group ++ c :: x := by
  rw [encodeGroups]
  split
  · exact ⟨_, by simp only [append_assoc]; rfl⟩
  · obtain ⟨rest, hrest⟩ := encodeGroups_isPrefix (group ++ [c]) a
    exact ⟨rest, by rw [hrest, append_assoc]; rfl⟩

theorem split_encodeGroups (hg : group.length < groupSize) (a b : List UInt8) :
    split (encodeGroups group a) (encodeGroups group b) = some (cmp a b) := by
  induction a generalizing group b with
  | nil =>
    cases b with
    | nil => exact split_self _
    | cons d b =>
      obtain ⟨more, marker, rest, heq, hmore, hlt, hle⟩ := encodeGroups_marker hg d b
      rw [heq, encodeGroups, append_assoc, append_assoc, split_append_left, split_padding hmore hlt hle]
      rfl
  | cons c a ih =>
    cases b with
    | nil =>
      obtain ⟨more, marker, rest, heq, hmore, hlt, hle⟩ := encodeGroups_marker hg c a
      rw [split_swap, heq, encodeGroups, append_assoc, append_assoc, split_append_left, split_padding hmore hlt hle]
      rfl
    | cons d b =>
      -- both bytes stand at the same place behind the group
      obtain ⟨x, hx⟩ := encodeGroups_cons group c a
      obtain ⟨y, hy⟩ := encodeGroups_cons group d b
      by_cases hcd : c < d
      · rw [hx, hy, split_append_left, cmp_cons, split, if_pos hcd, if_pos hcd]
      by_cases hdc : d < c
      · rw [hx, hy, split_append_left, cmp_cons, split, if_neg hcd, if_neg hcd, if_pos hdc, if_pos hdc]
      obtain rfl := uInt8_eq_of_not_lt hcd hdc
      rw [cmp_cons, if_neg hcd, if_neg hdc, encodeGroups, encodeGroups]
      split
      · rw [split_append_left, split_cons_self]
        exact ih (by decide) b
      · exact ih (by rw [length_append, length_singleton]; omega) b

theorem decodeBytes_encodeGroups (hg : group.length < groupSize) (bytes rest : List UInt8) :
    decodeBytes (encodeGroups group bytes ++ rest) = .ok (group ++ bytes, rest) := by
  -- a whole group: eight bytes and the number behind them
  have hgroup (chunk tail : List UInt8) (marker : Nat) (hchunk : chunk.length = groupSize) (hm : marker ≤ groupSize) :
      (chunk ++ ofNat marker :: tail).take groupSize = chunk ∧
        (((chunk ++ ofNat marker :: tail).drop groupSize).headD 0).toNat = marker ∧
        (chunk ++ ofNat marker :: tail).drop (groupSize + 1) = tail ∧
        ¬ (chunk ++ ofNat marker :: tail).length < groupSize + 1 := by
    refine ⟨?_, ?_, ?_, ?_⟩
    · rw [← hchunk, take_left]
    · rw [← hchunk, drop_left, headD_cons, toNat_ofNat']
      rw [groupSize] at hm
      omega
    · rw [← drop_drop, ← hchunk, drop_left]
      rfl
    · rw [length_append, length_cons]
      omega
  induction bytes generalizing group with
  | nil =>
    have hchunk : (group ++ replicate (groupSize - group.length) 0).length = groupSize := by
      rw [length_append, length_replicate]
      omega
    obtain ⟨htake, hmarker, hdrop, hlen⟩ := hgroup _ rest _ hchunk (le_of_lt hg)
    rw [encodeGroups, append_assoc _ _ rest]
    change decodeBytes (_ ++ ofNat group.length :: rest) = _
    rw [decodeBytes, if_neg hlen]
    simp only [htake, hmarker, hdrop]
    rw [if_neg (by omega), if_pos hg, take_left, append_nil]
  | cons b bytes ih =>
    rw [encodeGroups]
    split
    · rename_i hfull
      have hchunk : (group ++ [b]).length = groupSize := by simpa using hfull
      obtain ⟨htake, hmarker, hdrop, hlen⟩ := hgroup _ (encodeGroups [] bytes ++ rest) _ hchunk le_rfl
      rw [append_assoc _ _ rest]
      change decodeBytes (_ ++ ofNat groupSize :: (encodeGroups [] bytes ++ rest)) = _
      rw [decodeBytes, if_neg hlen]
      simp only [htake, hmarker, hdrop]
      rw [if_neg (by omega), if_neg (by omega), ih (by decide), ← hchunk, take_length]
      simp
    · rw [ih (by rw [length_append, length_singleton]; omega), append_assoc]
      rfl

/-! ## Values -/

def isKeyType : LogicalType → Bool
  | .interval | .array .. | .list _ | .struct _ => false
  | _ => true

/-- A value of a type that no key column has is refused. -/
theorem encodeValue_refuses {type : LogicalType} (v : Value) (h : isKeyType type = false) :
    ∃ e, encodeValue v type = .error e := by
  unfold encodeValue
  split
  · exact ⟨_, rfl⟩
  cases type with
  | interval | array | list | struct => cases v <;> exact ⟨_, rfl⟩
  | _ => cases h

/-- A value a key column can hold. -/
def KeyValue (type : LogicalType) (v : Value) : Prop :=
  isKeyType type = true ∧ v.isNull = false ∧ v.storedAs type = true

instance (type : LogicalType) (v : Value) : Decidable (KeyValue type v) := inferInstanceAs (Decidable (_ ∧ _ ∧ _))

variable {type : LogicalType} {b a : Value}

/-- A key value is a number or a byte string. -/
theorem KeyValue.cases {v : Value} (h : KeyValue type v) :
    (∃ width n, v.ordinal = some (width, n)) ∨ ∃ bytes, v.bytes = some bytes := by
  obtain ⟨htype, hnull, hstored⟩ := h
  have hof := isOf_of_storedAs hstored hnull
  cases v with
  | null => cases hnull
  | varchar s => exact .inr ⟨_, rfl⟩
  | blob b => exact .inr ⟨b, rfl⟩
  | decimal v precision scale =>
    by_cases hp : precision ≤ 18
    · exact .inl ⟨8, _, if_pos hp⟩
    · exact .inl ⟨16, _, if_neg hp⟩
  | interval | list | struct | array =>
    cases htext : type.isText with
    | true =>
      obtain ⟨s, hs⟩ := text_of_isOf htext hof
      cases hs
    | false =>
      cases logicalType_of_isOf htext hof
      cases htype
  | _ => exact .inl ⟨_, _, rfl⟩

/-- A code splits as the values compare when it does so on numbers and on byte strings. -/
theorem KeyValue.split {f : Value → List UInt8} (ha : KeyValue type a)
    (hb : KeyValue type b) (hf : ∀ v width n, KeyValue type v → v.ordinal = some (width, n) → f v = beBytes width n)
    (hbytes : ∀ abytes bbytes, a.bytes = some abytes → b.bytes = some bbytes →
      split (f a) (f b) = some (cmp abytes bbytes)) : split (f a) (f b) = some (a.order b) := by
  have hoa := isOf_of_storedAs ha.2.2 ha.2.1
  have hob := isOf_of_storedAs hb.2.2 hb.2.1
  by_cases hvar : type.isText = true ∨ type = .blob
  · obtain ⟨abytes, hab⟩ := Option.isSome_iff_exists.1 ((bytes_isSome_iff hoa).2 hvar)
    obtain ⟨bbytes, hbb⟩ := Option.isSome_iff_exists.1 ((bytes_isSome_iff hob).2 hvar)
    rw [hbytes abytes bbytes hab hbb, order_of_bytes hab hbb hoa hob]
  · have hordinal {v : Value} (hv : KeyValue type v) : ∃ width n, v.ordinal = some (width, n) := by
      refine hv.cases.resolve_right ?_
      rintro ⟨bytes, hbytes⟩
      exact hvar ((bytes_isSome_iff (isOf_of_storedAs hv.2.2 hv.2.1)).1 (by rw [hbytes]; rfl))
    obtain ⟨aw, an, han⟩ := hordinal ha
    obtain ⟨bw, bn, hbn⟩ := hordinal hb
    obtain ⟨rfl, hcmp⟩ := cmp_ordinal han hbn ha.2.2 hb.2.2
    rw [hf a aw an ha han, hf b aw bn hb hbn, split_beBytes (ordinal_lt han) (ordinal_lt hbn), hcmp]

theorem encodeSigned_eq (width : Nat) (v : Signed (w + 1)) : encodeSigned width v = beBytes width v.ordinal := by
  rw [encodeSigned, Nat.add_sub_cancel, Signed.bits_xor]

theorem encodeValue_of_ordinal (h : KeyValue type v)
    (hv : v.ordinal = some (width, n)) : encodeValue v type = .ok (beBytes width n) := by
  obtain ⟨-, hnull, hstored⟩ := h
  have hof := isOf_of_storedAs hstored hnull
  obtain rfl := logicalType_of_isOf (isText_of_ordinal hv hof) hof
  cases v with
  | boolean v => cases hv; cases v <;> rfl
  | uTinyInt | uSmallInt | uInteger | uBigInt | uHugeInt | uuid => cases hv; rfl
  | tinyInt v | smallInt v | integer v | bigInt v | hugeInt v | date v | timestamp v | timestampTz v | time v =>
    cases hv
    exact congrArg Except.ok (encodeSigned_eq _ v)
  | decimal v precision scale =>
    have hencode : encodeValue (.decimal v precision scale) (.decimal precision scale) =
        .ok (encodeDecimal v precision) := by
      simp [encodeValue, isNull]
    rw [logicalType, hencode, encodeDecimal]
    rw [ordinal] at hv
    split at hv
    · rename_i hp
      cases hv
      rw [if_pos hp]
      exact congrArg Except.ok (encodeSigned_eq 8 (Signed.wrap 64 v.val))
    · rename_i hp
      cases hv
      rw [if_neg hp]
      exact congrArg Except.ok (encodeSigned_eq 16 v)
  | _ => cases hv

theorem encodeValue_of_bytes {bytes : List UInt8} (h : KeyValue type v)
    (hv : v.bytes = some bytes) : encodeValue v type = .ok (encodeBytes bytes) := by
  obtain ⟨-, hnull, hstored⟩ := h
  have hof := isOf_of_storedAs hstored hnull
  cases v with
  | varchar s =>
    cases hv
    cases type with
    | varchar | varcharCollation | tsVector | tsQuery | json | jsonb => rfl
    | _ => cases hof
  | blob b =>
    cases hv
    cases type with
    | blob => rfl
    | _ => cases hof
  | _ => cases hv

def code (type : LogicalType) (v : Value) : List UInt8 := (encodeValue v type).toOption.getD []

theorem encodeValue_code (h : KeyValue type v) : encodeValue v type = .ok (code type v) := by
  unfold code
  rcases h.cases with ⟨width, n, hv⟩ | ⟨bytes, hv⟩
  · rw [encodeValue_of_ordinal h hv]; rfl
  · rw [encodeValue_of_bytes h hv]; rfl

theorem split_code (ha : KeyValue type a) (hb : KeyValue type b) :
    split (code type a) (code type b) = some (a.order b) := by
  have hcode {v : Value} {bytes : List UInt8} (h : encodeValue v type = .ok bytes) : code type v = bytes := by
    rw [code, h]
    rfl
  refine ha.split hb (fun _ _ _ hv hn => hcode (encodeValue_of_ordinal hv hn)) fun abytes bbytes hab hbb => ?_
  rw [hcode (encodeValue_of_bytes ha hab), hcode (encodeValue_of_bytes hb hbb)]
  exact split_encodeGroups (by decide) _ _

theorem reads_unsigned (h : n < 256 ^ width) : Reads (readUnsigned width) (beBytes width n) n := by
  have hread : Reads (readUnsigned width) (beBytes width n) (ofBeBytes (beBytes width n)) :=
    (Reads.take (length_beBytes width n)).bindPure ofBeBytes
  rw [ofBeBytes_beBytes h] at hread
  exact hread

theorem reads_signed (v : Signed (w + 1)) (h : v.ordinal < 256 ^ width) :
    Reads (readSigned (w + 1) width) (beBytes width v.ordinal) v := by
  have hread := (reads_unsigned h).bindPure fun raw => Signed.wrap (w + 1) ((raw ^^^ 2 ^ w : Nat) : Int)
  rw [Signed.wrap_ordinal] at hread
  exact hread

theorem reads_fin [NeZero n] (v : Fin n) (h : v.val < 256 ^ width) :
    Reads (readFin n width) (beBytes width v.val) v := by
  have hread := (reads_unsigned h).bindPure fun raw => Fin.ofNat n raw
  rw [Fin.ofNat_val_eq_self] at hread
  exact hread

theorem reads_bytes (bytes : List UInt8) : Reads (decodeBytes : Reader Error (List UInt8)) (encodeBytes bytes) bytes :=
  fun rest => decodeBytes_encodeGroups (by decide) bytes rest

theorem reads_text (s : Text) : Reads decodeText (encodeBytes (utf8 s)) (.varchar s) := by
  intro rest
  show (decodeBytes (encodeBytes (utf8 s) ++ rest)).bind _ = _
  rw [reads_bytes (utf8 s) rest]
  simp only [Except.bind, fromUtf8_utf8]
  rfl

theorem reads_code (h : KeyValue type v) : Reads (decodeValue type) (code type v) v := by
  have hof := isOf_of_storedAs h.2.2 h.2.1
  have hok := encodeValue_code h
  rcases h.cases with ⟨width, n, hv⟩ | ⟨bytes, hv⟩
  · have hlt := ordinal_lt hv
    obtain rfl := logicalType_of_isOf (isText_of_ordinal hv hof) hof
    rw [Except.ok.inj (hok.symm.trans (encodeValue_of_ordinal h hv))]
    cases v with
    | boolean v =>
      cases hv
      have hread := (reads_unsigned hlt).bindPure fun n => boolean (n != 0)
      cases v <;> exact hread
    | tinyInt v | smallInt v | integer v | bigInt v | hugeInt v | date v | timestamp v | timestampTz v | time v =>
      cases hv
      exact (reads_signed v hlt).map _
    | uTinyInt v | uSmallInt v | uInteger v | uBigInt v | uHugeInt v | uuid v =>
      cases hv
      exact (reads_fin v hlt).map _
    | decimal v precision scale =>
      rw [ordinal] at hv
      rw [logicalType, decodeValue]
      split at hv
      · rename_i hp
        cases hv
        have hread := (reads_signed (Signed.wrap 64 v.val) hlt).map
          fun u => decimal (Signed.wrap 128 u.val) precision scale
        rw [wrap_of_storedAs hp h.2.2, Signed.wrap_val] at hread
        rw [if_pos hp]
        exact hread
      · rename_i hp
        cases hv
        rw [if_neg hp]
        exact (reads_signed v hlt).map _
    | _ => cases hv
  · rw [Except.ok.inj (hok.symm.trans (encodeValue_of_bytes h hv))]
    cases v with
    | varchar s =>
      cases hv
      cases type with
      | varchar | varcharCollation | tsVector | tsQuery | json | jsonb => exact reads_text s
      | _ => cases hof
    | blob bytes =>
      cases hv
      cases type with
      | blob => exact (reads_bytes bytes).map _
      | _ => cases hof
    | _ => cases hv

/-! ## Keys -/

theorem encodeRow_eq {types : List LogicalType} {values : List Value} (h : List.Forall₂ KeyValue types values) :
    encodeRow types values = .ok (encodeAll code types values) := by
  induction h with
  | nil => rfl
  | @cons type v types values hv _ ih =>
    rw [encodeRow, encodeValue_code hv, ih]
    rfl

/-- Keys compare as the tuples do, none is a proper beginning of the other, and each decodes to its tuple. -/
theorem primary_key_sound (types : List LogicalType) (a b : List Value) (ha : List.Forall₂ KeyValue types a)
    (hb : List.Forall₂ KeyValue types b) :
    ∃ akey bkey, encodeRow types a = .ok akey ∧ encodeRow types b = .ok bkey ∧
      cmp akey bkey = lexCompare (fun _ => order) types a b ∧
      (akey <+: bkey → akey = bkey) ∧ (bkey <+: akey → akey = bkey) ∧
      decodeRow types akey = .ok (a, []) := by
  have hcode : ∀ type a b, KeyValue type a → KeyValue type b →
      split (code type a) (code type b) = some ((fun _ => order) type a b) := fun _ _ _ => split_code
  have hsplit := split_encodeAll hcode ha hb
  refine ⟨_, _, encodeRow_eq ha, encodeRow_eq hb, cmp_of_split hsplit, eq_of_isPrefix hsplit,
    eq_of_isPrefix_right hsplit, ?_⟩
  have hread := Reads.readAll (g := id) (fun type v (h : KeyValue type v) => reads_code h) ha []
  rw [append_nil, map_id] at hread
  exact hread

/-- A text that fills its group against its own beginning, with signed numbers behind. -/
theorem primary_key_sound_text_and_number :
    let types : List LogicalType := [.varchar, .integer]
    let a : List Value := [.varchar ['p', 'a', 'r', 'o', 'p', 'a', 'r', 'o'], .integer (Signed.wrap 32 (-1))]
    let b : List Value := [.varchar ['p', 'a', 'r', 'o'], .integer (Signed.wrap 32 7)]
    ∃ akey bkey, encodeRow types a = .ok akey ∧ encodeRow types b = .ok bkey ∧ akey.length = 22 ∧
      bkey.length = 13 ∧ cmp akey bkey = .gt ∧ decodeRow types akey = .ok (a, []) := by
  intro types a b
  obtain ⟨akey, bkey, hakey, hbkey, hcmp, -, -, hdecode⟩ := primary_key_sound types a b
    (.cons (by decide) (.cons (by decide) .nil)) (.cons (by decide) (.cons (by decide) .nil))
  refine ⟨akey, bkey, hakey, hbkey, ?_, ?_, ?_, hdecode⟩
  · rw [← Except.ok.inj hakey]; decide
  · rw [← Except.ok.inj hbkey]; decide
  · rw [hcmp]; decide

end Paro.L1.ComparableEncoder
