import Paro.L1Encoding.BinaryPlainPage
import Paro.L2Machine.BitShufflePage

/-!
# Dictionary string pages

Model of `BinaryDictPageBuilder` and `BinaryDictPageDecoder` (crates/storage/src/rowset/encoding/binary_dict.rs). A data
page holds either bit-shuffled codes of a dictionary that all pages of the column share, or plain strings, once the
dictionary is full. `Content` is what a page holds and `Content.Means` which strings that is under a dictionary;
`Column` relates a builder to its dictionary and to the content of the page it is building.

* `Column.addSlice`: a string is added to the page, or the page is not empty.
* `Column.finish`, `Column.reset`: the page is written, and the next one starts empty with the same dictionary.
* `reads_page`: a page is opened and read as the strings it means.

The first and last value of a page, the global dictionary checks and the code and cache interfaces are left out.
`La-b` are lines of this file.
-/
namespace Paro.L2.BinaryDictPage
open L1 L2.BitShufflePage List Option
open BinaryPlain (pageOf decoderAt valueRefAt_eq)

abbrev Str := List UInt8

inductive EncodingMode
  | dict
  | plain
deriving DecidableEq, Repr

inductive Error
  | code (e : L1.BitShuffle.Error)
  | strings (e : BinaryPlain.Error)
  /-- `BinaryDictPageDecoder: empty data` -/
  | emptyData
  /-- `BinaryDictPageDecoder: element count … does not match ordinal index …` -/
  | elementCount (count expected : Nat)
  /-- `BinaryDictPageDecoder: invalid encoding marker …` -/
  | marker (marker : UInt8)
  /-- `dictionary not set` -/
  | dictionaryNotSet
  /-- `no code decoder` -/
  | noCodeDecoder
  /-- `no plain decoder` -/
  | noPlainDecoder
  /-- `invalid dictionary code …` -/
  | invalidCode (code : Nat)
  /-- `dictionary code … exceeds dictionary size …` -/
  | codeExceeds (code size : Nat)

/-- L36-37 -/
def dictEncodingMarker : UInt8 := 0

def plainEncodingMarker : UInt8 := 1

/-! ## Builder -/

/-- L43-64 -/
structure DictBuilder where
  (pageSize dictPageSize : Nat)
  dictBuilder : BinaryPlain.PageBuilder
  codeBuilder : PageBuilder
  dictionary : List (Str × Nat)
  encodingType : EncodingMode
  plainBuilder : Option BinaryPlain.PageBuilder

namespace DictBuilder

/-- A builder with a dictionary size limit; `none` when the capacity of the code page overflows.
L74-94 -/
def new (pageSize dictPageSize : Nat) : Option DictBuilder :=
  (PageBuilder.new 4 pageSize).map fun codeBuilder =>
    ⟨pageSize, dictPageSize, .new dictPageSize, codeBuilder, [], .dict, none⟩

variable (builder : DictBuilder)

/-- L97-105 -/
def isPageFull : Bool :=
  match builder.encodingType with
  | .dict => builder.codeBuilder.isPageFull
  | .plain => builder.plainBuilder.any (·.isPageFull)

/-- L160-166 -/
def addSlicePlain (s : Str) : DictBuilder × Bool :=
  match builder.plainBuilder with
  | none => (builder, false)
  | some plain => ({ builder with plainBuilder := some (plain.addSlice s).1 }, (plain.addSlice s).2)

/-- L168-173 -/
def switchToPlain : DictBuilder :=
  { builder with encodingType := .plain, plainBuilder := some (.new builder.pageSize) }

/-- L140-141 -/
def addCode (code : Nat) : DictBuilder × Bool :=
  ({ builder with codeBuilder := (builder.codeBuilder.addOne (leBytes 4 code)).1 },
    (builder.codeBuilder.addOne (leBytes 4 code)).2)

/-- L108-151 -/
def addSlice (s : Str) : DictBuilder × Bool :=
  if builder.isPageFull then (builder, false)
  else
    match builder.encodingType with
    | .dict =>
      match builder.dictionary.lookup s with
      | some code => builder.addCode code
      | none =>
        if builder.dictPageSize < builder.dictBuilder.size + s.length + 4 then
          if 0 < builder.codeBuilder.count then (builder, false) else builder.switchToPlain.addSlicePlain s
        else
          let code := builder.dictionary.length % 2 ^ 32
          addCode
            { builder with
              dictBuilder := (builder.dictBuilder.addSlice s).1
              dictionary := (s, code) :: builder.dictionary } code
    | .plain => builder.addSlicePlain s

/-- L176-200 -/
def finish (lz4 : Lz4) : Option (List UInt8) :=
  match builder.encodingType with
  | .dict => (builder.codeBuilder.finish lz4).map (dictEncodingMarker :: ·)
  | .plain => builder.plainBuilder.map fun plain => plainEncodingMarker :: plain.finish

/-- L203-209 -/
def getDictionaryPage : Option (List UInt8) :=
  if builder.dictionary ≠ [] then some builder.dictBuilder.finish else none

/-- L213-221 -/
def reset : DictBuilder :=
  { builder with codeBuilder := builder.codeBuilder.reset, plainBuilder := builder.plainBuilder.map (·.reset) }

/-- L224-229 -/
def count : Nat :=
  match builder.encodingType with
  | .dict => builder.codeBuilder.count
  | .plain => (builder.plainBuilder.map (·.count)).getD 0

end DictBuilder

/-! ## Decoder -/

/-- A decoder after `init`. L271-288 -/
structure DictDecoder where
  encodingType : EncodingMode
  codeDecoder : Option PageDecoder
  (plainDecoder dictDecoder : Option BinaryPlain.PageDecoder)

namespace DictDecoder

/-- L319-324 -/
def setDictDecoder (dictData : Option (List UInt8)) : Except Error (Option BinaryPlain.PageDecoder) :=
  match dictData with
  | none => .ok none
  | some dictData =>
    match BinaryPlain.PageDecoder.init dictData with
    | .error e => .error (.strings e)
    | .ok decoder => .ok (some decoder)

/-- L340-395 -/
def init (lz4 : Lz4) (data : List UInt8) (expectedNumElements : Nat) (dictDecoder : Option BinaryPlain.PageDecoder) :
    Except Error DictDecoder :=
  match data with
  | [] => .error .emptyData
  | marker :: pageData =>
    if marker = dictEncodingMarker then
      match PageDecoder.init lz4 pageData expectedNumElements 4 with
      | .error e => .error (.code e)
      | .ok decoder => .ok ⟨.dict, some decoder, none, dictDecoder⟩
    else if marker = plainEncodingMarker then
      match BinaryPlain.PageDecoder.init pageData with
      | .error e => .error (.strings e)
      | .ok decoder =>
        if decoder.numElements ≠ expectedNumElements then
          .error (.elementCount decoder.numElements expectedNumElements)
        else .ok ⟨.plain, none, some decoder, dictDecoder⟩
    else .error (.marker marker)

variable (decoder : DictDecoder)

/-- L424-475 -/
def nextBatch (n : Nat) : Except Error (List Str × DictDecoder) :=
  match decoder.encodingType with
  | .dict =>
    match decoder.dictDecoder, decoder.codeDecoder with
    | none, _ => .error .dictionaryNotSet
    | some _, none => .error .noCodeDecoder
    | some dict, some codeDecoder =>
      match codeDecoder.nextBatch n with
      | .error e => .error (.code e)
      | .ok ((count, codeData), codeDecoder) =>
        ((List.range count).mapM fun i =>
          let code := ofLeBytes ((codeData.drop (i * 4)).take 4)
          match dict.stringAt code with
          | some s => Except.ok s
          | none => Except.error (Error.invalidCode code)).map
            fun strs => (strs, { decoder with codeDecoder := some codeDecoder })
  | .plain =>
    match decoder.plainDecoder with
    | none => .error .noPlainDecoder
    | some plain => .ok ((plain.nextBatch n).1, { decoder with plainDecoder := some (plain.nextBatch n).2 })

/-- L497-502 -/
def count : Nat :=
  match decoder.encodingType with
  | .dict => (decoder.codeDecoder.map (·.numElements)).getD 0
  | .plain => (decoder.plainDecoder.map (·.numElements)).getD 0

/-- L523-552 -/
def valueAt (idx : Nat) : Except Error (Option Str) :=
  if decoder.count ≤ idx then .ok none
  else
    match decoder.encodingType with
    | .plain => .ok (decoder.plainDecoder.bind (·.stringAt idx))
    | .dict =>
      match decoder.codeDecoder with
      | none => .error .noCodeDecoder
      | some codeDecoder =>
        match codeDecoder.copyValueAt idx with
        | .error e => .error (.code e)
        | .ok encoded =>
          match decoder.dictDecoder with
          | none => .error .dictionaryNotSet
          | some dictionary =>
            match dictionary.stringAt (ofLeBytes encoded) with
            | some s => .ok (some s)
            | none => .error (.codeExceeds (ofLeBytes encoded) dictionary.numElements)

end DictDecoder

/-! ## The content of a page -/

/-- What a page holds: places in the dictionary, or strings. -/
inductive Content
  | codes (places : List Nat)
  | strings (strs : List Str)

namespace Content

def Means (dict : List Str) : Content → List Str → Prop
  | .codes places, strs => places.map (dict[·]?) = strs.map some
  | .strings own, strs => own = strs

def length : Content → Nat
  | .codes places => places.length
  | .strings strs => strs.length

def codeBytes (places : List Nat) : List UInt8 := places.flatMap fun i => leBytes 4 (i % 2 ^ 32)

def page (lz4 : Lz4) : Content → List UInt8 × Nat
  | .codes places => (dictEncodingMarker :: pageBytes lz4 (codeBytes places) 4 places.length, places.length)
  | .strings strs => (plainEncodingMarker :: pageOf strs, strs.length % 2 ^ 32)

variable {dict : List Str} {content : Content} {strs : List Str}

theorem Means.length_eq (h : content.Means dict strs) : content.length = strs.length := by
  cases content with
  | codes places =>
    have hlen := congrArg List.length h
    rwa [length_map, length_map] at hlen
  | strings own => rw [show own = strs from h]; rfl

/-- A dictionary that has grown means the same. -/
theorem Means.mono (h : content.Means dict strs) (rest : List Str) : content.Means (dict ++ rest) strs := by
  cases content with
  | codes places =>
    have h : places.map (dict[·]?) = strs.map some := h
    show places.map ((dict ++ rest)[·]?) = strs.map some
    rw [← h]
    refine map_congr_left fun i hi => ?_
    have hmem : dict[i]? ∈ strs.map some := h ▸ mem_map_of_mem hi
    obtain ⟨s, -, hs⟩ := mem_map.1 hmem
    have hlt := (List.getElem?_eq_some_iff.1 hs.symm).1
    rw [List.getElem?_append_left hlt]
  | strings own => exact h

theorem length_codeBytes (places : List Nat) : (codeBytes places).length = places.length * 4 := by
  simp [codeBytes, length_flatMap, map_const']

end Content

/-- A builder with a dictionary, and the content of the page it is building. -/
structure Column (builder : DictBuilder) (dict : List Str) (content : Content) : Prop where
  dictHolds : BinaryPlain.Holds builder.dictBuilder dict
  limit : builder.dictBuilder.pageSize = builder.dictPageSize
  size : builder.dictionary.length = dict.length
  lookup : ∀ s code, builder.dictionary.lookup s = some code → ∃ i, dict[i]? = some s ∧ code = i % 2 ^ 32
  page : 8 ≤ builder.pageSize
  width : builder.codeBuilder.typeSize = 4
  room : 0 < builder.codeBuilder.maxCount
  codes : builder.codeBuilder.Holds builder.codeBuilder.data
  current : match content with
    | .codes places => builder.encodingType = .dict ∧ builder.codeBuilder.data = Content.codeBytes places ∧
        builder.codeBuilder.count = places.length
    | .strings strs => builder.encodingType = .plain ∧ ∃ plain, builder.plainBuilder = some plain ∧
        BinaryPlain.Holds plain strs ∧ plain.pageSize = builder.pageSize

namespace Content

def cleared : Content → Content
  | .codes _ => .codes []
  | .strings _ => .strings []

theorem means_cleared (dict : List Str) (content : Content) : content.cleared.Means dict [] := by
  cases content <;> exact rfl

theorem codeBytes_concat (places : List Nat) (i : Nat) :
    codeBytes (places ++ [i]) = codeBytes places ++ leBytes 4 (i % 2 ^ 32) := by
  rw [codeBytes, flatMap_append, flatMap_singleton]
  rfl

end Content

/-! ## Building -/

open DictBuilder DictDecoder

section
variable {builder : DictBuilder} {dict : List Str} {content : Content} {places : List Nat} {strs : List Str} {s : Str}
open Content

theorem column_new {pageSize limit : Nat} (h8 : 8 ≤ pageSize) (hpos : 0 < pageSize / 4 % 2 ^ 32)
    (h : new pageSize limit = some builder) : Column builder [] (.codes []) := by
  obtain ⟨codeBuilder, hcode, rfl⟩ := map_eq_some_iff.1 h
  obtain ⟨hholds, hwidth⟩ := PageBuilder.holds_new hcode
  obtain ⟨aligned, haligned, rfl⟩ := map_eq_some_iff.1 hcode
  exact ⟨BinaryPlain.holds_new limit, rfl, rfl, nofun, h8, hwidth, hpos, hholds, rfl, rfl, rfl⟩

/-- A code of the dictionary is added to a page with room. -/
theorem Column.addCode (h : Column builder dict (.codes places))
    (hroom : builder.codeBuilder.count < builder.codeBuilder.maxCount) (i : Nat) :
    ∃ next, builder.addCode (i % 2 ^ 32) = (next, true) ∧ Column next dict (.codes (places ++ [i])) := by
  obtain ⟨hmode, hdata, hcount⟩ := h.current
  have hwidth : (leBytes 4 (i % 2 ^ 32)).length = builder.codeBuilder.typeSize := by rw [length_leBytes, h.width]
  obtain ⟨next, hadd, hholds, hnext, hsize, hmax⟩ := h.codes.addOne hroom hwidth
  have hholds' : next.Holds next.data := by rw [hholds.buffer]; exact hholds
  refine ⟨{ builder with codeBuilder := next }, by rw [DictBuilder.addCode, hadd], h.dictHolds, h.limit,
    h.size, h.lookup, h.page, hsize.trans h.width,
    by rw [hmax]; exact h.room, hholds', hmode, ?_, ?_⟩
  · rw [codeBytes_concat, ← hdata]
    exact hholds.buffer
  · rw [hnext, hcount, length_append, length_singleton]

/-- A new string gets the next place of the dictionary. -/
theorem Column.learn (h : Column builder dict (.codes places))
    (hfits : builder.dictBuilder.size + s.length + 4 ≤ builder.dictPageSize) :
    Column { builder with
      dictBuilder := (builder.dictBuilder.addSlice s).1
      dictionary := (s, dict.length % 2 ^ 32) :: builder.dictionary } (dict ++ [s]) (.codes places) := by
  have hroom : builder.dictBuilder.isPageFull = false := by
    have hlimit := h.limit
    have hsize : builder.dictBuilder.size = builder.dictBuilder.sizeEstimate := rfl
    exact decide_eq_false (by omega)
  obtain ⟨next, hadd, hholds, hpage⟩ := h.dictHolds.addSlice hroom s
  rw [hadd]
  refine ⟨hholds, hpage.trans h.limit, ?_, ?_, h.page, h.width, h.room, h.codes, h.current⟩
  · rw [length_cons, length_append, length_singleton, h.size]
  · intro t code hlookup
    rw [lookup_cons] at hlookup
    split at hlookup
    · next heq =>
      obtain rfl := eq_of_beq heq
      refine ⟨dict.length, ?_, (some.inj hlookup).symm⟩
      rw [List.getElem?_append_right le_rfl, Nat.sub_self]
      rfl
    · obtain ⟨i, hi, hcode⟩ := h.lookup t code hlookup
      have hlt := (List.getElem?_eq_some_iff.1 hi).1
      exact ⟨i, by rw [List.getElem?_append_left hlt, hi], hcode⟩

theorem means_concat {i : Nat} (h : (codes places).Means dict strs) (hi : dict[i]? = some s) :
    (codes (places ++ [i])).Means dict (strs ++ [s]) := by
  have h : places.map (dict[·]?) = strs.map some := h
  show (places ++ [i]).map (dict[·]?) = (strs ++ [s]).map some
  rw [map_append, map_append, h, map_singleton, map_singleton, hi]

section
variable (h : Column builder dict content)
include h

/-- **Adding a string.** It becomes the last of the page, and the dictionary at most grows; or the page has strings. -/
theorem Column.addSlice (hm : content.Means dict strs) (s : Str) :
    (∃ next grown content', builder.addSlice s = (next, true) ∧ Column next (dict ++ grown) content' ∧
      content'.Means (dict ++ grown) (strs ++ [s])) ∨
    (builder.addSlice s = (builder, false) ∧ 0 < content.length) := by
  have hpage := h.page
  cases content with
  | codes places =>
    obtain ⟨hmode, hdata, hcount⟩ := h.current
    have hroom := h.room
    by_cases hfull : builder.codeBuilder.maxCount ≤ builder.codeBuilder.count
    · refine .inr ⟨?_, by show 0 < places.length; omega⟩
      rw [addSlice, isPageFull, hmode]
      rw [PageBuilder.isPageFull, decide_eq_true hfull]
      rfl
    rw [addSlice, isPageFull, hmode]
    rw [PageBuilder.isPageFull, decide_eq_false hfull, if_neg Bool.false_ne_true]
    dsimp only
    cases hlookup : builder.dictionary.lookup s with
    | some code =>
      obtain ⟨i, hi, rfl⟩ := h.lookup s code hlookup
      obtain ⟨next, hnext, hcolumn⟩ := h.addCode (by omega) i
      exact .inl ⟨next, [], _, hnext, by rwa [append_nil], by rw [append_nil]; exact means_concat hm hi⟩
    | none =>
      by_cases hlimit : builder.dictPageSize < builder.dictBuilder.size + s.length + 4
      · rw [if_pos hlimit]
        by_cases hsome : 0 < builder.codeBuilder.count
        · rw [if_pos hsome]
          exact .inr ⟨rfl, by show 0 < places.length; omega⟩
        · -- the dictionary is full and the page is empty: the page becomes a plain one
          rw [if_neg hsome]
          have hempty : strs = [] := by
            have := hm.length_eq
            rw [show (Content.codes places).length = places.length from rfl] at this
            exact length_eq_zero_iff.1 (by omega)
          have hfresh : (BinaryPlain.PageBuilder.new builder.pageSize).isPageFull = false := by
            refine decide_eq_false ?_
            show ¬ (0 < builder.pageSize ∧ builder.pageSize < 4)
            omega
          obtain ⟨next, hnext, hholds, hsize⟩ := (BinaryPlain.holds_new builder.pageSize).addSlice hfresh s
          refine .inl ⟨{ builder.switchToPlain with plainBuilder := some next }, [], .strings [s], ?_, ?_,
            by rw [hempty]; rfl⟩
          · rw [addSlicePlain, switchToPlain]
            dsimp only
            rw [hnext]
          · rw [append_nil]
            exact { h with current := ⟨rfl, next, rfl, hholds, hsize⟩ }
      · rw [if_neg hlimit, h.size]
        obtain ⟨next, hnext, hcolumn⟩ := Column.addCode (h.learn (s := s) (by omega))
          (Nat.lt_of_not_le hfull) dict.length
        rw [hmode] at hnext
        refine .inl ⟨next, [s], _, hnext, hcolumn, means_concat (hm.mono [s]) ?_⟩
        rw [List.getElem?_append_right le_rfl, Nat.sub_self]
        rfl
  | strings own =>
    obtain ⟨hmode, plain, hplain, hholds, hsize⟩ := h.current
    obtain rfl : own = strs := hm
    have hadd : builder.addSlice s = if plain.isPageFull then (builder, false)
        else ({ builder with plainBuilder := some (plain.addSlice s).1 }, (plain.addSlice s).2) := by
      simp only [addSlice, isPageFull, addSlicePlain, hmode, hplain, any_some]
    rw [hadd]
    cases hfull : plain.isPageFull with
    | true =>
      refine .inr ⟨rfl, ?_⟩
      have hlarge := (of_decide_eq_true hfull).2
      have hestimate := hholds.estimate
      show 0 < own.length
      cases own with
      | nil => rw [flatten_nil, length_nil] at hestimate; omega
      | cons t own => exact Nat.zero_lt_succ _
    | false =>
      obtain ⟨next, hnext, hholds', hsize'⟩ := hholds.addSlice hfull s
      refine .inl ⟨{ builder with plainBuilder := some next }, [], .strings (own ++ [s]), by rw [hnext]; rfl, ?_, rfl⟩
      rw [append_nil]
      exact { h with current := ⟨hmode, next, rfl, hholds', hsize'.trans hsize⟩ }

theorem Column.finish (lz4 : Lz4) :
    builder.finish lz4 = some (content.page lz4).1 ∧ builder.count = (content.page lz4).2 := by
  rw [DictBuilder.finish, DictBuilder.count]
  cases content with
  | codes places =>
    obtain ⟨hmode, hdata, hcount⟩ := h.current
    rw [hmode]
    rw [finish_eq h.codes, h.width, hdata, hcount]
    exact ⟨rfl, rfl⟩
  | strings own =>
    obtain ⟨hmode, plain, hplain, hholds, -⟩ := h.current
    rw [hmode, hplain]
    rw [map_some, map_some, hholds.finish, hholds.count]
    exact ⟨rfl, rfl⟩

theorem Column.reset : Column builder.reset dict content.cleared := by
  refine { h with codes := h.codes.reset, current := ?_ }
  cases content with
  | codes places => exact ⟨h.current.1, rfl, rfl⟩
  | strings own =>
    obtain ⟨hmode, plain, hplain, -, hsize⟩ := h.current
    exact ⟨hmode, plain.reset, by rw [reset, hplain]; rfl, BinaryPlain.holds_reset plain, hsize⟩

theorem Column.getDictionaryPage :
    builder.getDictionaryPage = if dict = [] then none else some (pageOf dict) := by
  have hsize := h.size
  rw [DictBuilder.getDictionaryPage, h.dictHolds.finish]
  by_cases hempty : dict = []
  · rw [if_pos hempty, if_neg]
    rw [hempty] at hsize
    exact not_not.2 (length_eq_zero_iff.1 hsize)
  · rw [if_neg hempty, if_pos]
    intro hnil
    rw [hnil] at hsize
    exact hempty (length_eq_zero_iff.1 hsize.symm)

end

end

/-! ## Reading -/

section
variable {decoder : DictDecoder} {dict : List Str} {content : Content} {places : List Nat} {strs : List Str} {pos : Nat}
open Content

structure ReadsAt (decoder : DictDecoder) (dict : List Str) (content : Content) (pos : Nat) : Prop where
  current : match content with
    | .codes places => decoder.encodingType = .dict ∧ decoder.dictDecoder = some (decoderAt dict 0) ∧
        ∃ codeDecoder, decoder.codeDecoder = some codeDecoder ∧ codeDecoder.curIndex = pos ∧
          Opened codeDecoder (paddedData (codeBytes places) 4 places.length) 4 places.length
    | .strings strs => decoder.encodingType = .plain ∧ decoder.plainDecoder = some (decoderAt strs pos)

def Content.Fits (lz4 : Lz4) : Content → Prop
  | .codes places => BitShufflePage.Fits lz4 (codeBytes places) 4 places.length
  | .strings strs => (pageOf strs).length < 2 ^ 32

theorem codes_eq_map (places : List Nat) : codeBytes places = (places.map (· % 2 ^ 32)).flatMap (leBytes 4) := by
  rw [codeBytes, flatMap_map]

variable {i : Nat} {s : Str}

/-- The code at a place of a page. -/
theorem read_code {place : Nat} (hget : places[i]? = some place) (rest : List UInt8) :
    ofLeBytes (((codeBytes places ++ rest).drop (i * 4)).take 4) = place % 2 ^ 32 := by
  have hmod : (places.map (· % 2 ^ 32))[i]? = some (place % 2 ^ 32) := by rw [getElem?_map, hget, map_some]
  rw [codes_eq_map, mul_comm, take_drop_flatMap_leBytes hmod, ofLeBytes_leBytes (by omega)]

theorem drop_codeBytes (places : List Nat) (n : Nat) : (codeBytes places).drop (n * 4) = codeBytes (places.drop n) :=
  drop_flatMap_width 4 n (fun _ => length_leBytes 4 _) places

/-- The place of a string of a page in the dictionary. -/
theorem means_get (h : (codes places).Means dict strs) (hi : i < strs.length) :
    ∃ place, places[i]? = some place ∧ dict[place]? = some strs[i] := by
  have hlength : places.length = strs.length := h.length_eq
  have hat : (places.map (dict[·]?))[i]? = (strs.map some)[i]? := congrArg (fun l : List (Option Str) => l[i]?) h
  obtain ⟨place, hplace⟩ : ∃ place, places[i]? = some place := ⟨_, getElem?_eq_getElem (by omega)⟩
  rw [getElem?_map, getElem?_map, hplace, getElem?_eq_getElem hi, map_some, map_some] at hat
  exact ⟨place, hplace, some.inj hat⟩

/-- The sizes a page of this content depends on: its own, and that of the dictionary. -/
def Content.Readable (dict : List Str) : Content → Prop
  | .codes _ => (pageOf dict).length < 2 ^ 32
  | .strings strs => (pageOf strs).length < 2 ^ 32

section
variable (hdict : (pageOf dict).length < 2 ^ 32) (h : dict[i]? = some s)
include hdict h

/-- A place of the dictionary is its own code. -/
theorem code_of_place : i % 2 ^ 32 = i := by
  have hlt := (List.getElem?_eq_some_iff.1 h).1
  have hlen := BinaryPlain.length_pageOf dict
  exact Nat.mod_eq_of_lt (by omega)

/-- The string of a code. -/
theorem stringAt_code : (decoderAt dict 0).stringAt (i % 2 ^ 32) = some s := by
  rw [BinaryPlain.PageDecoder.stringAt, valueRefAt_eq hdict, code_of_place hdict h, h]

end

section
variable (h : ReadsAt decoder dict content pos)
include h

section
variable (hm : content.Means dict strs)
include hm

/-- **A batch** of a page is the next strings. -/
theorem ReadsAt.nextBatch (hfit : content.Readable dict) (hpos : pos ≤ strs.length) (n : Nat) :
    ∃ next, decoder.nextBatch n = .ok ((strs.drop pos).take n, next) ∧
      ReadsAt next dict content (min (pos + n) strs.length) := by
  have hlength := hm.length_eq
  cases content with
  | codes places =>
    obtain ⟨hmode, hdictionary, codeDecoder, hcode, hindex, hopened⟩ := h.current
    have hlength : places.length = strs.length := hlength
    obtain ⟨next, hbatch, hnext, hmoved, -⟩ := hopened.nextBatch (by omega) n
    rw [hindex, elements_paddedData (length_codeBytes places) (by omega)] at hbatch
    generalize hcount : min n (places.length - pos) = count at hbatch hmoved
    have hdata : elements (codeBytes places) 4 pos count = (codeBytes (places.drop pos)).take (count * 4) := by
      rw [elements, drop_codeBytes]
    have htaken : ((strs.drop pos).take n).length = count := by
      rw [length_take, length_drop]
      omega
    have hloop : (List.range count).mapM (fun i =>
        let code := ofLeBytes (((elements (codeBytes places) 4 pos count).drop (i * 4)).take 4)
        match (decoderAt dict 0).stringAt code with
        | some s => Except.ok s
        | none => Except.error (Error.invalidCode code)) = .ok ((strs.drop pos).take n) := by
      have hmap := map_range_getD id ((strs.drop pos).take n) []
      rw [List.map_id, htaken] at hmap
      rw [← hmap]
      refine mapM_eq_pure fun i hi => ?_
      have hi := mem_range.1 hi
      have hat : pos + i < strs.length := by omega
      obtain ⟨place, hplace, hstr⟩ := means_get hm hat
      have hcodeAt : ofLeBytes (((elements (codeBytes places) 4 pos count).drop (i * 4)).take 4) = place % 2 ^ 32 := by
        have hread := read_code (show (places.drop pos)[i]? = some place by rw [List.getElem?_drop]; exact hplace) []
        rw [append_nil] at hread
        rw [hdata, drop_take, take_take, min_eq_left (by omega)]
        exact hread
      dsimp only
      rw [hcodeAt, stringAt_code hfit hstr, getD_eq_getElem _ _ (by omega), getElem_take, getElem_drop]
      rfl
    refine ⟨{ decoder with codeDecoder := some next }, ?_, ⟨hmode, hdictionary, next, rfl, by omega, hnext⟩⟩
    rw [nextBatch, hmode, hdictionary, hcode]
    dsimp only
    rw [hbatch]
    exact congrArg (Except.map _) hloop
  | strings own =>
    obtain ⟨hmode, hplain⟩ := h.current
    obtain rfl : own = strs := hm
    have hbatch := BinaryPlain.nextBatch_eq hfit hpos n
    refine ⟨{ decoder with plainDecoder := some (decoderAt own (min (pos + n) own.length)) }, ?_, ⟨hmode, rfl⟩⟩
    rw [nextBatch, hmode, hplain]
    dsimp only
    rw [hbatch]

theorem ReadsAt.count : decoder.count = strs.length := by
  rw [← hm.length_eq, DictDecoder.count]
  cases content with
  | codes places =>
    obtain ⟨hmode, -, codeDecoder, hcode, -, hopened⟩ := h.current
    rw [hmode, hcode]
    exact hopened.num
  | strings own =>
    obtain ⟨hmode, hplain⟩ := h.current
    rw [hmode, hplain]
    rfl

/-- **A value** of a page by its index. -/
theorem ReadsAt.valueAt (hfit : content.Readable dict) {idx : Nat} (hidx : idx < strs.length) :
    decoder.valueAt idx = .ok (some strs[idx]) := by
  have hlength := hm.length_eq
  rw [DictDecoder.valueAt, h.count hm, if_neg (by omega)]
  cases content with
  | codes places =>
    obtain ⟨hmode, hdictionary, codeDecoder, hcode, -, hopened⟩ := h.current
    have hlength : places.length = strs.length := hlength
    obtain ⟨place, hplace, hstr⟩ := means_get hm hidx
    have hread := read_code hplace []
    rw [append_nil] at hread
    rw [hmode, hcode]
    dsimp only
    rw [hopened.copyValueAt (by omega), elements_paddedData (length_codeBytes places) (by omega)]
    rw [hdictionary]
    dsimp only
    rw [elements, one_mul, hread, stringAt_code hfit hstr]
  | strings own =>
    obtain ⟨hmode, hplain⟩ := h.current
    obtain rfl : own = strs := hm
    rw [hmode, hplain]
    rw [bind_some, BinaryPlain.PageDecoder.stringAt, valueRefAt_eq hfit, getElem?_eq_getElem hidx]

end

end

/-- **Opening** a page; a page of codes needs the dictionary. -/
theorem reads_page (lz4 : Lz4) (dict : List Str) {dictDecoder : Option BinaryPlain.PageDecoder}
    (hdict : (∃ places, content = .codes places) → dictDecoder = some (decoderAt dict 0))
    (hcount : content.length + 7 < 2 ^ 32) (hfit : content.Fits lz4) :
    ∃ decoder, init lz4 (content.page lz4).1 (content.page lz4).2 dictDecoder = .ok decoder ∧
      ReadsAt decoder dict content 0 := by
  cases content with
  | codes places =>
    have hinit := (@init_page 4 _ lz4 _ (by decide) (length_codeBytes places) hcount).1 hfit
    refine ⟨⟨.dict, some (decoderOf (codeBytes places) 4 places.length), none, dictDecoder⟩, ?_,
      ⟨rfl, hdict ⟨places, rfl⟩, _, rfl, rfl, opened_decoderOf (by decide) (length_codeBytes places)⟩⟩
    show init lz4 (dictEncodingMarker :: _) places.length dictDecoder = _
    rw [init, if_pos rfl, hinit]
  | strings own =>
    have hinit := BinaryPlain.init_page hfit
    have hown : own.length % 2 ^ 32 = own.length := Nat.mod_eq_of_lt (by
      have : own.length + 7 < 2 ^ 32 := hcount
      omega)
    refine ⟨⟨.plain, none, some (decoderAt own 0), dictDecoder⟩, ?_, ⟨rfl, rfl⟩⟩
    show init lz4 (plainEncodingMarker :: _) (own.length % 2 ^ 32) dictDecoder = _
    rw [init, if_neg (by decide), if_pos rfl, hinit, hown]
    dsimp only
    rw [if_neg (not_not.2 (show (decoderAt own 0).numElements = own.length from rfl))]

end

end Paro.L2.BinaryDictPage
