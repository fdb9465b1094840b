import Paro.Core.MapM
import Paro.L1Encoding.ComparableEncoding
import Paro.L1Encoding.SortKey

/-!
# Sort keys compare as `ORDER BY`

From the bytes of a value (`encodeValueInto_eq`) to those of a row. Two codes of a type split as the values compare,
in either direction; a NULL splits from a value at the first byte; and the fields of a row follow one another, so the
first that differs decides. The lengths add up in the same way, and the split writer fills its two parts with what
the `Vec` writer appends.
-/
namespace Paro.L1.SortKey

open OrderedCode List Option Value
open SortKeyFieldEncoding hiding logicalType mk
open StringPattern (Text utf8)
open ComparableEncoder (KeyValue isKeyType)

/-! ## Texts and blobs -/

variable {b : UInt8} {len : Nat} {cell : Cell}

/-- No byte of a text is 255, so one can be added to each. -/
theorem lt_of_mem_utf8 {s : Text} (h : b ∈ utf8 s) : b.toNat < 255 := by
  obtain ⟨c, -, hb⟩ := mem_flatMap.1 h
  unfold String.utf8EncodeChar at hb
  dsimp only at hb
  split at hb
  · simp only [mem_singleton] at hb
    subst hb
    rw [UInt8.toNat_ofNat']
    omega
  split at hb
  · simp only [mem_cons, not_mem_nil, or_false] at hb
    rcases hb with rfl | rfl <;> rw [UInt8.toNat_ofNat'] <;> omega
  split at hb
  · simp only [mem_cons, not_mem_nil, or_false] at hb
    rcases hb with rfl | rfl | rfl <;> rw [UInt8.toNat_ofNat'] <;> omega
  · simp only [mem_cons, not_mem_nil, or_false] at hb
    rcases hb with rfl | rfl | rfl | rfl <;> rw [UInt8.toNat_ofNat'] <;> omega

theorem toNat_add_one (h : b.toNat < 255) : (b + 1).toNat = b.toNat + 1 := by
  rw [UInt8.toNat_add]
  show (b.toNat + 1) % 256 = _
  omega

theorem split_stringCode {a b : List UInt8} (ha : ∀ c ∈ a, c.toNat < 255) (hb : ∀ c ∈ b, c.toNat < 255) :
    split (stringCode a) (stringCode b) = some (cmp a b) := by
  have hsplit (c d : UInt8) (hc : c.toNat < 255) (hd : d.toNat < 255) : split [c + 1] [d + 1] = some (cmp c d) := by
    simp only [split, cmp, cmpUsing, UInt8.lt_iff_toNat_lt, toNat_add_one hc, toNat_add_one hd,
      Nat.add_lt_add_iff_right]
    split
    · rfl
    split <;> rfl
  rw [stringCode, stringCode, map_eq_flatMap, map_eq_flatMap]
  refine split_delimited (fun c hc => ⟨c + 1, [], rfl, ?_⟩) hsplit ha hb
  rw [UInt8.lt_iff_toNat_lt, toNat_add_one hc]
  exact Nat.succ_pos _

/-- The escapes of two bytes split as the bytes do, and each is above the delimiter. -/
theorem split_escape (c d : UInt8) : split (escape c) (escape d) = some (cmp c d) := by
  have hcross {x y : UInt8} (hx : x ≤ 1) (hy : ¬ y ≤ 1) : blobEscapeCharacter < y ∧ x < y := by
    have hlow := UInt8.le_iff_toNat_le.1 hx
    have hhigh : 1 < y.toNat := not_le.1 fun h => hy (UInt8.le_iff_toNat_le.2 h)
    exact ⟨UInt8.lt_iff_toNat_lt.2 hhigh, UInt8.lt_iff_toNat_lt.2 (lt_of_le_of_lt hlow hhigh)⟩
  have hsame {x y : UInt8} : split [x] [y] = some (cmp x y) := by
    simp only [split, cmp, cmpUsing]
    split
    · rfl
    split <;> rfl
  unfold escape
  split <;> split
  · rw [split_cons_self]
    exact hsame
  · rename_i hc hd
    obtain ⟨hlt, hcd⟩ := hcross hc hd
    rw [split, if_pos hlt, cmp, cmpUsing, if_pos hcd]
  · rename_i hc hd
    obtain ⟨hlt, hdc⟩ := hcross hd hc
    rw [split, if_neg (UInt8.lt_asymm hlt), if_pos hlt, cmp, cmpUsing, if_neg (UInt8.lt_asymm hdc), if_pos hdc]
  · exact hsame

theorem delimiter_lt_escape (c : UInt8) : ∃ first rest, escape c = first :: rest ∧ stringDelimiter < first := by
  unfold escape
  split
  · exact ⟨_, _, rfl, by decide⟩
  rename_i hc
  refine ⟨_, _, rfl, UInt8.lt_iff_toNat_lt.2 ?_⟩
  have : ¬ c.toNat ≤ 1 := fun h => hc (UInt8.le_iff_toNat_le.2 h)
  show 0 < c.toNat
  omega

theorem split_blobCode (a b : List UInt8) : split (blobCode a) (blobCode b) = some (cmp a b) :=
  split_delimited (P := fun _ => True) (fun c _ => delimiter_lt_escape c) (fun c d _ _ => split_escape c d)
    (fun _ _ => trivial) fun _ _ => trivial

/-! ## Values -/

variable {type : LogicalType} {f : SortKeyFieldEncoding}

theorem split_ascendingCode {a b : Value} (htype : isFieldType type = true)
    (hinterval : type ≠ .interval) (hna : a.isNull = false) (hnb : b.isNull = false) (hsa : a.storedAs type = true)
    (hsb : b.storedAs type = true) : split (ascendingCode a) (ascendingCode b) = some (a.order b) := by
  have hkey : isKeyType type = true := by
    cases type with
    | interval => exact absurd rfl hinterval
    | list | struct | array => cases htype
    | _ => rfl
  have hoa := isOf_of_storedAs hsa hna
  have hob := isOf_of_storedAs hsb hnb
  refine KeyValue.split ⟨hkey, hna, hsa⟩ ⟨hkey, hnb, hsb⟩ (fun _ _ _ _ => ascendingCode_of_ordinal) ?_
  intro abytes bbytes hab hbb
  rcases (bytes_isSome_iff hoa).1 (by rw [hab]; rfl) with htext | rfl
  · obtain ⟨s, rfl⟩ := text_of_isOf htext hoa
    obtain ⟨t, rfl⟩ := text_of_isOf htext hob
    cases hab
    cases hbb
    exact split_stringCode (fun _ => lt_of_mem_utf8) fun _ => lt_of_mem_utf8
  · obtain ⟨s, rfl⟩ := blob_of_isOf hoa
    obtain ⟨t, rfl⟩ := blob_of_isOf hob
    cases hab
    cases hbb
    exact split_blobCode _ _

theorem split_directed {u v : List UInt8} {o : Ordering} (h : split u v = some o) (ascending : Bool) :
    split (directed ascending u) (directed ascending v) = some (if ascending then o else o.swap) := by
  cases ascending with
  | true => exact h
  | false =>
    show split (u.map _) (v.map _) = _
    rw [split_complement, h]
    rfl

/-! ## Fields -/

namespace SortKeyFieldEncoding

variable (f : SortKeyFieldEncoding)

/-- The cell is from a vector of the field's type, and the type has a sort key. -/
def Fits (cell : Cell) : Prop :=
  cell.type = f.logicalType ∧ isFieldType f.logicalType = true

def code (cell : Cell) : List UInt8 :=
  if cell.value.isNull then
    f.markers.1 :: List.replicate (((fixedValueLen f.logicalType).toOption.join).getD 0) 0
  else f.markers.2 :: directed f.modifiers.ascending (ascendingCode cell.value)

variable {f}

theorem encodeField_eq {cell : Cell} (h : f.Fits cell) :
    ∃ writes, f.encodeField cell = .ok writes ∧ written writes = f.code cell := by
  obtain ⟨htype, hfield⟩ := h
  unfold encodeField code
  cases hnull : cell.value.isNull with
  | true =>
    unfold isFieldType at hfield
    cases hlen : fixedValueLen f.logicalType with
    | error e => simp [hlen, Except.toOption] at hfield
    | ok len =>
      refine ⟨_, rfl, ?_⟩
      have hzeros (n : Nat) : (replicate n (KeyWrite.pushByte 0)).flatMap KeyWrite.bytes = replicate n 0 := by
        rw [flatMap_replicate]
        exact flatten_replicate_singleton
      simp [written, KeyWrite.bytes, Except.toOption, hzeros]
  | false =>
    obtain ⟨writes, hok, hwritten⟩ := encodeValueInto_eq (htype ▸ hfield) hnull cell.stored f.modifiers.ascending
    refine ⟨.pushByte f.markers.2 :: writes, by simp [hok, bind, Except.bind], ?_⟩
    rw [if_neg (by simp), ← hwritten]
    rfl

/-- Fields compare as `ORDER BY` does. -/
theorem split_code {a b : Cell} (hinterval : f.logicalType ≠ .interval) (ha : f.Fits a) (hb : f.Fits b) :
    split (f.code a) (f.code b) = some (f.order a b) := by
  unfold code order
  cases hna : a.value.isNull with
  | true =>
    cases hnb : b.value.isNull with
    | true => exact split_self _
    | false =>
      cases hfirst : f.modifiers.nullsFirst <;>
        simp [markers, hfirst, split, nullFirstByte, nullLastByte]
  | false =>
    cases hnb : b.value.isNull with
    | true =>
      cases hfirst : f.modifiers.nullsFirst <;>
        simp [markers, hfirst, split, nullFirstByte, nullLastByte]
    | false =>
      have hsplit := split_ascendingCode ha.2 hinterval hna hnb (ha.1 ▸ a.stored) (hb.1 ▸ b.stored)
      rw [if_neg (by simp), if_neg (by simp), split_cons_self]
      exact split_directed hsplit f.modifiers.ascending

end SortKeyFieldEncoding

/-! ## Lengths -/

variable (bytes : List UInt8)

theorem length_stringCode : (stringCode bytes).length = bytes.length + 1 := by
  simp [stringCode]

theorem length_blobCode :
    (blobCode bytes).length = (bytes.map fun byte => if byte ≤ 1 then 2 else 1).sum + 1 := by
  have hescape : (fun byte => (escape byte).length) = fun byte : UInt8 => if byte ≤ 1 then 2 else 1 := by
    funext byte
    unfold escape
    split <;> rfl
  rw [blobCode, length_append, length_flatMap, hescape]
  rfl

/-- A fixed-width value takes the bytes of its type. -/
theorem length_ascendingCode {v : Value} (hlen : fixedValueLen type = .ok (some len))
    (hv : v.isOf type = true) : (ascendingCode v).length = len := by
  have hnull := isNull_of_isOf hv
  cases htext : type.isText with
  | true =>
    cases type with
    | varchar | varcharCollation | tsVector | tsQuery | json | jsonb => cases hlen
    | _ => cases htext
  | false =>
    obtain rfl := logicalType_of_isOf htext hv
    cases v with
    | null => cases hnull
    | varchar => cases htext
    | blob | list | struct | array => cases hlen
    | decimal v precision scale =>
      by_cases hp : precision ≤ 18
      · simp only [logicalType, fixedValueLen, if_pos hp] at hlen
        cases hlen
        rw [ascendingCode_decimal, if_pos hp, length_beBytes]
      · simp only [logicalType, fixedValueLen, if_neg hp] at hlen
        cases hlen
        rw [ascendingCode_decimal, if_neg hp, length_beBytes]
    | interval months days micros =>
      cases hlen
      simp [ascendingCode]
    | _ =>
      cases hlen
      simp [ascendingCode, ordinal]

theorem SortKeyFieldEncoding.length_code_fixed
    (hlen : fixedValueLen f.logicalType = .ok (some len)) (h : f.Fits cell) : (f.code cell).length = 1 + len := by
  unfold code
  cases hnull : cell.value.isNull with
  | true => simp [hlen, Except.toOption, add_comm]
  | false =>
    rw [if_neg (by simp), length_cons, length_directed,
      length_ascendingCode hlen (h.1 ▸ isOf_of_storedAs cell.stored hnull), add_comm]

theorem encodedColumnLen_value (hfield : isFieldType type = true)
    (hnull : cell.value.isNull = false) (hof : cell.value.isOf type = true) :
    encodedColumnLen cell type = .ok (1 + (ascendingCode cell.value).length) := by
  cases type with
  | varchar | varcharCollation | tsVector | tsQuery | json | jsonb =>
    obtain ⟨s, hs⟩ := text_of_isOf rfl hof
    rw [hs, ascendingCode, length_stringCode, encodedColumnLen, if_neg (by simp [hnull]), hs]
    rfl
  | blob =>
    obtain ⟨b, hb⟩ := blob_of_isOf hof
    rw [hb, ascendingCode, length_blobCode, encodedColumnLen, if_neg (by simp [hnull]), hb]
    rfl
  | list | struct | array => cases hfield
  | _ =>
    rw [length_ascendingCode rfl hof]
    unfold encodedColumnLen
    rw [hnull]
    rfl

/-- `encoded_column_len` is exact. -/
theorem SortKeyFieldEncoding.encodedColumnLen_eq (h : f.Fits cell) :
    encodedColumnLen cell f.logicalType = .ok (f.code cell).length := by
  obtain ⟨htype, hfield⟩ := h
  cases hnull : cell.value.isNull with
  | true =>
    cases hlen : fixedValueLen f.logicalType with
    | error e => simp [isFieldType, hlen, Except.toOption] at hfield
    | ok len => simp [encodedColumnLen, hnull, hlen, bind, Except.bind, code, Except.toOption, add_comm]
  | false =>
    rw [encodedColumnLen_value hfield hnull (htype ▸ isOf_of_storedAs cell.stored hnull), code,
      if_neg (by simp [hnull]), length_cons, length_directed, add_comm]

/-! ## The split writer -/

theorem overwrite_spec (slice : List UInt8) (offset : Nat) (bytes : List UInt8)
    (h : offset + bytes.length ≤ slice.length) :
    ∃ slice', overwrite slice offset bytes = some slice' ∧ slice'.length = slice.length ∧
      slice' = slice.take offset ++ bytes ++ slice.drop (offset + bytes.length) := by
  refine ⟨_, if_pos h, ?_, rfl⟩
  simp only [length_append, length_take, length_drop]
  omega

namespace SplitKeyWriter

/-- The writer has written `out`, into parts of the given lengths. -/
structure Holds (inlineLen overflowLen : Nat) (out : List UInt8) (w : SplitKeyWriter) : Prop where
  inlineLength : w.inlinePart.length = inlineLen
  overflowLength : w.overflow.length = overflowLen
  written : w.written = out.length
  parts : (w.inlinePart ++ w.overflow).take w.written = out

variable {inlineLen overflowLen : Nat} {out : List UInt8} {w : SplitKeyWriter}

section
variable (h : w.Holds inlineLen overflowLen out)
include h

variable (bytes : List UInt8)

/-- Bytes that go to the inline part. -/
theorem Holds.inline (hfit : w.written + bytes.length ≤ inlineLen) :
    ∃ inlinePart, overwrite w.inlinePart w.written bytes = some inlinePart ∧
      { w with inlinePart, written := w.written + bytes.length }.Holds inlineLen overflowLen (out ++ bytes) := by
  have hlen := h.inlineLength
  have hwritten := h.written
  obtain ⟨slice, hslice, hlength, heq⟩ := overwrite_spec w.inlinePart w.written bytes (hlen ▸ hfit)
  refine ⟨slice, hslice, hlength.trans hlen, h.overflowLength, by simp [hwritten], ?_⟩
  have hparts := h.parts
  rw [take_append_of_le_length (by omega)] at hparts
  show (slice ++ w.overflow).take (w.written + bytes.length) = out ++ bytes
  rw [take_append_of_le_length (by omega), heq, hparts, take_append_of_le_length, take_of_length_le]
  all_goals
    simp only [length_append]
    omega

/-- Bytes that go to the overflow part. -/
theorem Holds.overflow (hge : inlineLen ≤ w.written)
    (hfit : w.written + bytes.length ≤ inlineLen + overflowLen) :
    ∃ overflow, overwrite w.overflow (w.written - w.inlinePart.length) bytes = some overflow ∧
      { w with overflow, written := w.written + bytes.length }.Holds inlineLen overflowLen (out ++ bytes) := by
  have hlen := h.inlineLength
  have hover := h.overflowLength
  have hwritten := h.written
  obtain ⟨slice, hslice, hlength, heq⟩ :=
    overwrite_spec w.overflow (w.written - w.inlinePart.length) bytes (by omega)
  refine ⟨slice, hslice, hlen, hlength.trans hover, by simp [hwritten], ?_⟩
  have hparts := h.parts
  rw [take_append, take_of_length_le (by omega)] at hparts
  show (w.inlinePart ++ slice).take (w.written + bytes.length) = out ++ bytes
  rw [take_append, take_of_length_le (by omega), heq, take_append_of_le_length, take_of_length_le,
    ← append_assoc, hparts]
  all_goals
    simp only [length_append, length_take]
    omega

theorem Holds.pushByte (byte : UInt8) (hfit : w.written + 1 ≤ inlineLen + overflowLen) :
    ∃ w', w.pushByte byte = some w' ∧ w'.Holds inlineLen overflowLen (out ++ [byte]) := by
  have hlen := h.inlineLength
  unfold SplitKeyWriter.pushByte
  split
  · obtain ⟨inlinePart, heq, hholds⟩ := h.inline [byte] (by simp only [length_singleton]; omega)
    exact ⟨_, by rw [heq]; rfl, hholds⟩
  · obtain ⟨overflow, heq, hholds⟩ := h.overflow [byte] (by omega) (by simp only [length_singleton]; omega)
    exact ⟨_, by rw [heq]; rfl, hholds⟩

theorem Holds.extendBytes (hfit : w.written + bytes.length ≤ inlineLen + overflowLen) :
    ∃ w', w.extendBytes bytes = some w' ∧ w'.Holds inlineLen overflowLen (out ++ bytes) := by
  have hlen := h.inlineLength
  -- what the first half of the function leaves to write
  have hrest {w : SplitKeyWriter} {out : List UInt8} (h : w.Holds inlineLen overflowLen out) (remaining : List UInt8)
      (hge : remaining = [] ∨ inlineLen ≤ w.written) (hfit : w.written + remaining.length ≤ inlineLen + overflowLen) :
      ∃ w', (if remaining = [] then some w
        else do
          let overflow ← overwrite w.overflow (w.written - w.inlinePart.length) remaining
          some { w with overflow, written := w.written + remaining.length }) = some w' ∧
        w'.Holds inlineLen overflowLen (out ++ remaining) := by
    split
    · rename_i hnil
      exact ⟨w, rfl, by rw [hnil, append_nil]; exact h⟩
    · rename_i hne
      obtain ⟨overflow, heq, hholds⟩ := h.overflow remaining (hge.resolve_left hne) hfit
      exact ⟨_, by rw [heq]; rfl, hholds⟩
  unfold SplitKeyWriter.extendBytes
  split
  · rename_i hlt
    have htake : (bytes.take (min (w.inlinePart.length - w.written) bytes.length)).length =
        min (w.inlinePart.length - w.written) bytes.length := by
      rw [length_take]
      omega
    obtain ⟨inlinePart, heq, hholds⟩ :=
      h.inline (bytes.take (min (w.inlinePart.length - w.written) bytes.length)) (by omega)
    rw [htake] at hholds
    obtain ⟨w', hw', hdone⟩ := hrest hholds (bytes.drop (min (w.inlinePart.length - w.written) bytes.length)) (by
        rw [drop_eq_nil_iff]
        show _ ∨ inlineLen ≤ w.written + _
        omega)
      (by
        rw [length_drop]
        show w.written + _ + _ ≤ _
        omega)
    rw [append_assoc, take_append_drop] at hdone
    exact ⟨w', by simp only [heq, bind_eq_bind, bind_some]; exact hw', hdone⟩
  · exact hrest h bytes (.inr (by omega)) hfit

/-- The writer fills its parts with what the calls write. -/
theorem Holds.execute (writes : List KeyWrite)
    (hfit : w.written + (SortKey.written writes).length ≤ inlineLen + overflowLen) :
    ∃ w', w.execute writes = some w' ∧ w'.Holds inlineLen overflowLen (out ++ SortKey.written writes) := by
  induction writes generalizing w out with
  | nil => exact ⟨w, rfl, by rw [SortKey.written, flatMap_nil, append_nil]; exact h⟩
  | cons write writes ih =>
    have hsplit : SortKey.written (write :: writes) = write.bytes ++ SortKey.written writes := flatMap_cons
    rw [hsplit, length_append] at hfit
    rw [hsplit, ← append_assoc]
    have hstep : ∃ w' : SplitKeyWriter, (∀ ws, w.execute (write :: ws) = w'.execute ws) ∧
        w'.Holds inlineLen overflowLen (out ++ write.bytes) := by
      cases write with
      | pushByte byte =>
        obtain ⟨w', hw', hholds⟩ := h.pushByte byte (by simp only [KeyWrite.bytes, length_singleton] at hfit; omega)
        exact ⟨w', fun ws => by rw [SplitKeyWriter.execute, hw', bind_some], hholds⟩
      | extendBytes bytes =>
        obtain ⟨w', hw', hholds⟩ := h.extendBytes bytes (by simp only [KeyWrite.bytes] at hfit; omega)
        exact ⟨w', fun ws => by rw [SplitKeyWriter.execute, hw', bind_some], hholds⟩
    obtain ⟨w', hw', hholds⟩ := hstep
    have hlength := hholds.written
    rw [length_append, ← h.written] at hlength
    obtain ⟨w'', hw'', hdone⟩ := ih hholds (by omega)
    exact ⟨w'', by rw [hw', hw''], hdone⟩

end

end SplitKeyWriter

/-! ## Rows -/

namespace SortKeyEncoding

variable {fields : List SortKeyFieldEncoding} {row : List Cell}

section
variable (h : List.Forall₂ SortKeyFieldEncoding.Fits fields row)
include h

theorem encodeRowTrusted_eq : ∃ writes, encodeRowTrusted fields row = .ok writes ∧
      written writes = encodeAll code fields row := by
  induction h with
  | nil => exact ⟨[], rfl, rfl⟩
  | @cons f cell fields row hf _ ih =>
    obtain ⟨field, hfield, hwritten⟩ := f.encodeField_eq hf
    obtain ⟨rest, hrest, hwritten'⟩ := ih
    refine ⟨field ++ rest, by simp [encodeRowTrusted, hfield, hrest, bind, Except.bind], ?_⟩
    rw [written_append, hwritten, hwritten']
    rfl

theorem columnsLen_eq : columnsLen fields row = .ok (encodeAll code fields row).length := by
  induction h with
  | nil => rfl
  | @cons f cell fields row hf _ ih =>
    rw [columnsLen, f.encodedColumnLen_eq hf, ih, encodeAll, length_append]
    rfl

/-- With every field of fixed width, every key has the same length. -/
theorem length_of_measure {total : Nat} (hmeasure : measure fields = .ok (total, true)) :
    (encodeAll code fields row).length = total := by
  induction h generalizing total with
  | nil =>
    cases hmeasure
    rfl
  | @cons f cell fields row hf _ ih =>
    simp only [measure, bind_eq_ok] at hmeasure
    obtain ⟨len, hlen, rest, hrest, hmeasure⟩ := hmeasure
    cases len with
    | none => cases hmeasure
    | some dataLen =>
      simp only [Except.ok.injEq, Prod.mk.injEq] at hmeasure
      obtain ⟨rfl, hall⟩ := hmeasure
      rw [encodeAll, length_append, f.length_code_fixed hlen hf, ih (hrest.trans (by rw [← hall]))]

theorem validateTypes_eq (column : Nat) : validateTypes column fields row = .ok () := by
  induction h generalizing column with
  | nil => rfl
  | @cons f cell fields row hf _ ih => rw [validateTypes, if_neg (by simp [hf.1]), ih]

end

theorem encodeRow_eq {e : SortKeyEncoding} (h : List.Forall₂ SortKeyFieldEncoding.Fits e.fields row) :
    e.encodeRow row = .ok (encodeAll code e.fields row) := by
  obtain ⟨writes, hok, hwritten⟩ := encodeRowTrusted_eq h
  simp [encodeRow, validateColumns, h.length_eq, validateTypes_eq h, hok, hwritten, bind, Except.bind]

theorem isFieldType_of_measure {out : Nat × Bool} (h : measure fields = .ok out) :
    ∀ f ∈ fields, isFieldType f.logicalType = true := by
  induction fields generalizing out with
  | nil => simp
  | cons f fields ih =>
    simp only [measure, bind_eq_ok] at h
    obtain ⟨len, hlen, rest, hrest, -⟩ := h
    refine forall_mem_cons.2 ⟨?_, ih hrest⟩
    simp [isFieldType, hlen, Except.toOption]

variable {modifiers : List OrderModifiers}

theorem types_of_zip {types : List LogicalType} (h : types.length = modifiers.length) :
    (List.zipWith SortKeyFieldEncoding.mk types modifiers).map SortKeyFieldEncoding.logicalType = types := by
  rw [← map_uncurry_zip_eq_zipWith, List.map_map]
  exact map_fst_zip (le_of_eq h)

/-- What `new` establishes. -/
theorem new_spec {types : List LogicalType} {e : SortKeyEncoding} (h : SortKeyEncoding.new types modifiers = .ok e) :
    e.fields.map SortKeyFieldEncoding.logicalType = types ∧ (∀ f ∈ e.fields, isFieldType f.logicalType = true) ∧
      ∀ len, e.fixedKeyLen = some len → measure e.fields = .ok (len, true) := by
  unfold SortKeyEncoding.new at h
  split at h
  · cases h
  rename_i hlen
  have htypes := types_of_zip (not_not.1 hlen)
  generalize zipWith SortKeyFieldEncoding.mk types modifiers = fields at h htypes
  obtain ⟨out, hmeasure, h⟩ := bind_eq_ok.1 h
  cases h
  refine ⟨htypes, isFieldType_of_measure hmeasure, ?_⟩
  intro len hlen'
  dsimp only at hlen'
  split at hlen'
  · rename_i hfixed
    rw [← some.inj hlen', hmeasure]
    exact congrArg Except.ok (Prod.ext rfl hfixed.1)
  · cases hlen'

/-- A row of vectors of the types fits the fields. -/
theorem fits_of_types (hfield : ∀ f ∈ fields, isFieldType f.logicalType = true)
    (h : row.map Cell.type = fields.map SortKeyFieldEncoding.logicalType) :
    List.Forall₂ SortKeyFieldEncoding.Fits fields row := by
  have htypes : List.Forall₂ (fun f cell => cell.type = f.logicalType) fields row := by
    have heq : List.Forall₂ (· = ·) (row.map Cell.type) (fields.map SortKeyFieldEncoding.logicalType) := by
      rw [h]
      exact forall₂_refl _
    rw [forall₂_map_left_iff, forall₂_map_right_iff] at heq
    exact heq.flip
  exact ((forall₂_and_left _ _).2 ⟨hfield, htypes⟩).imp fun _ _ h => h.symm

/-- Keys compare as `ORDER BY` compares the rows, `encoded_len` is the length of the key, and the inline part and the
overflow part joined are the key. -/
theorem sort_key_order (types : List LogicalType) (modifiers : List OrderModifiers) (e : SortKeyEncoding)
    (hnew : SortKeyEncoding.new types modifiers = .ok e) (hinterval : .interval ∉ types) (a b : List Cell)
    (ha : a.map Cell.type = types) (hb : b.map Cell.type = types) :
    ∃ akey bkey, e.encodeRow a = .ok akey ∧ e.encodeRow b = .ok bkey ∧
      compareKeys akey bkey = lexCompare order e.fields a b ∧
      e.encodedLen a = .ok akey.length ∧
      ∀ inlinePart overflow : List UInt8, inlinePart.length = min akey.length e.inlinePrefixLen →
        overflow.length = akey.length - min akey.length e.inlinePrefixLen →
        ∃ w, e.encodeRowIntoParts a inlinePart overflow = .ok w ∧ w.inlinePart ++ w.overflow = akey := by
  obtain ⟨htypes, hfield, hfixed⟩ := new_spec hnew
  have hfa := fits_of_types hfield (ha.trans htypes.symm)
  have hfb := fits_of_types hfield (hb.trans htypes.symm)
  have hlen : e.encodedLenTrusted a = .ok (encodeAll code e.fields a).length := by
    unfold encodedLenTrusted
    split
    · rename_i len hsome
      rw [length_of_measure hfa (hfixed len hsome)]
    · exact columnsLen_eq hfa
  have hvalid : e.validateColumns a = .ok () := by
    simp [validateColumns, hfa.length_eq, validateTypes_eq hfa]
  refine ⟨_, _, encodeRow_eq hfa, encodeRow_eq hfb, ?_, ?_, ?_⟩
  · have hcode : ∀ (f : SortKeyFieldEncoding) (a b : Cell), (f.logicalType ≠ .interval ∧ f.Fits a) →
        (f.logicalType ≠ .interval ∧ f.Fits b) → split (f.code a) (f.code b) = some (f.order a b) :=
      fun f a b ha hb => f.split_code ha.1 ha.2 hb.2
    have hall : ∀ f ∈ e.fields, f.logicalType ≠ .interval := by
      intro f hf heq
      exact hinterval (htypes ▸ heq ▸ mem_map_of_mem hf)
    have hwith {row : List Cell} (h : List.Forall₂ SortKeyFieldEncoding.Fits e.fields row) :
        List.Forall₂ (fun f cell => f.logicalType ≠ .interval ∧ f.Fits cell) e.fields row :=
      (forall₂_and_left _ _).2 ⟨hall, h⟩
    exact cmp_of_split (split_encodeAll hcode (hwith hfa) (hwith hfb))
  · simp [encodedLen, hvalid, hlen, bind, Except.bind]
  · intro inlinePart overflow hinline hoverflow
    obtain ⟨writes, hok, hwritten⟩ := encodeRowTrusted_eq hfa
    have hstart : (SplitKeyWriter.mk inlinePart overflow 0).Holds inlinePart.length overflow.length [] :=
      ⟨rfl, rfl, rfl, rfl⟩
    obtain ⟨w, hw, hholds⟩ := hstart.execute writes (by
      rw [hwritten]
      show 0 + _ ≤ _
      omega)
    refine ⟨w, ?_, ?_⟩
    · simp [encodeRowIntoParts, hvalid, hlen, hok, hinline, hoverflow, hw, bind, Except.bind]
    · have hparts := hholds.parts
      rw [hholds.written, nil_append, hwritten, take_of_length_le] at hparts
      · exact hparts
      · rw [length_append, hholds.inlineLength, hholds.overflowLength]
        omega

/-- Descending texts with NULLs last, then ascending integers: the longer text comes first. -/
theorem sort_key_order_descending_text :
    let cell (s : Text) : Cell := ⟨.varchar, .varchar s, rfl, nofun⟩
    let count (n : Int) : Cell := ⟨.integer, .integer (Signed.wrap 32 n), rfl, nofun⟩
    ∃ e akey bkey, SortKeyEncoding.new [.varchar, .integer] [⟨false, false⟩, ⟨true, true⟩] = .ok e ∧
      e.encodeRow [cell ['a', 'b'], count 7] = .ok akey ∧ e.encodeRow [cell ['a'], count (-3)] = .ok bkey ∧
      compareKeys akey bkey = .lt ∧ e.encodedLen [cell ['a', 'b'], count 7] = .ok akey.length := by
  intro cell count
  obtain ⟨akey, bkey, ha, hb, hcmp, hlen, -⟩ :=
    sort_key_order [.varchar, .integer] [⟨false, false⟩, ⟨true, true⟩] _ rfl (by decide)
      [cell ['a', 'b'], count 7] [cell ['a'], count (-3)] rfl rfl
  exact ⟨_, akey, bkey, rfl, ha, hb, hcmp.trans (by decide), hlen⟩

end SortKeyEncoding

end Paro.L1.SortKey
