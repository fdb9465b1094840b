import Mathlib.Data.List.Basic
import Paro.Core.LittleEndian

/-!
# Plain string pages

Model of `BinaryPlainPageBuilder` and `BinaryPlainPageDecoder` (crates/storage/src/rowset/encoding/binary_plain.rs). A
page is the bytes of its strings, the offset of each of them, and their number. `Holds` says what strings a builder
has; a page below `2 ^ 32` bytes is opened (`init_page`) and returns them by index (`valueRefAt_eq`) and in batches
(`nextBatch_eq`).

The head space of a page (`reserve_head`), the first and last value, the encoded batches and the other ways to add
strings are left out. The offset of the next string is a `u32`; a page where it would overflow is larger than `2 ^ 32`
bytes. `La-b` are lines of this file.
-/
namespace Paro.L1.BinaryPlain

open List

inductive Error
  /-- `BinaryPlainPageDecoder: data too small for trailer` -/
  | trailer
  /-- `BinaryPlainPageDecoder: truncated offset table` -/
  | offsetTable
  /-- `BinaryPlainPageDecoder: invalid string offset` -/
  | stringOffset
deriving DecidableEq, Repr

/-- L32-51 -/
structure PageBuilder where
  buffer : List UInt8
  offsets : List Nat
  (pageSize nextOffset sizeEstimate : Nat)

namespace PageBuilder

/-- L55-67 -/
def new (pageSize : Nat) : PageBuilder := ⟨[], [], pageSize, 0, 4⟩

variable (builder : PageBuilder)

/-- L77-79 -/
def isPageFull : Bool := decide (0 < builder.pageSize ∧ builder.pageSize < builder.sizeEstimate)

/-- L82-94 -/
def addSlice (s : List UInt8) : PageBuilder × Bool :=
  if builder.isPageFull then (builder, false)
  else
    ({ builder with
        offsets := builder.offsets ++ [builder.nextOffset]
        buffer := builder.buffer ++ s
        nextOffset := (builder.nextOffset + s.length) % 2 ^ 32
        sizeEstimate := builder.sizeEstimate + (s.length + 4) }, true)

/-- L151-170 -/
def finish : List UInt8 :=
  builder.buffer ++ (builder.offsets.flatMap (leBytes 4) ++ leBytes 4 builder.offsets.length)

/-- L173-184 -/
def reset : PageBuilder := { builder with offsets := [], buffer := [], nextOffset := 0, sizeEstimate := 4 }

/-- L187-189 -/
def count : Nat := builder.offsets.length % 2 ^ 32

/-- L192-194 -/
def size : Nat := builder.sizeEstimate

end PageBuilder

/-- A decoder after `init`. L220-231 -/
structure PageDecoder where
  data : List UInt8
  (numElements offsetsPos curIndex : Nat)

open PageDecoder

namespace PageDecoder

variable (data : List UInt8)

def field (pos : Nat) : Nat := ofLeBytes ((data.drop pos).take 4)

/-- One round of the check of the offsets. L417-430 -/
def checkOffset (offsetsPos previous idx : Nat) : Except Error Nat :=
  let offset := field data (offsetsPos + idx * 4)
  if offset < previous ∨ offsetsPos < offset then .error .stringOffset else .ok offset

/-- L379-435 -/
def init : Except Error PageDecoder :=
  if data.length < 4 then .error .trailer
  else
    let numElements := field data (data.length - 4)
    if data.length < 4 + numElements * 4 then .error .offsetTable
    else
      let offsetsPos := data.length - (4 + numElements * 4)
      match (List.range numElements).foldlM (checkOffset data offsetsPos) 0 with
      | .error e => .error e
      | .ok _ => .ok ⟨data, numElements, offsetsPos, 0⟩

variable (decoder : PageDecoder)

/-- L438-449 -/
def offset (idx : Nat) : Nat :=
  if decoder.numElements ≤ idx then decoder.offsetsPos % 2 ^ 32 else field decoder.data (decoder.offsetsPos + idx * 4)

/-- L481-488 -/
def valueRefAt (idx : Nat) : Option (List UInt8) :=
  if decoder.numElements ≤ idx then none
  else
    let start := decoder.offset idx
    let finish := decoder.offset (idx + 1)
    if start ≤ finish ∧ finish ≤ decoder.data.length then some ((decoder.data.drop start).take (finish - start))
    else none

/-- L469-473 -/
def stringAt (idx : Nat) : Option (List UInt8) := decoder.valueRefAt idx

/-- The loop of `next_batch`. L504-511 -/
def readStrings (decoder : PageDecoder) : Nat → List (List UInt8) × PageDecoder
  | 0 => ([], decoder)
  | toRead + 1 =>
    match decoder.stringAt decoder.curIndex with
    | none => ([], decoder)
    | some s =>
      let rest := readStrings { decoder with curIndex := decoder.curIndex + 1 } toRead
      (s :: rest.1, rest.2)

/-- L493-514 -/
def nextBatch (n : Nat) : List (List UInt8) × PageDecoder :=
  decoder.readStrings (min n (decoder.numElements - decoder.curIndex))

end PageDecoder

/-! ## The strings of a page -/

variable (strs : List (List UInt8))

def startOf (i : Nat) : Nat := (strs.take i).flatten.length

def offsetsOf : List Nat := (List.range strs.length).map fun i => startOf strs i % 2 ^ 32

structure Holds (builder : PageBuilder) (strs : List (List UInt8)) : Prop where
  data : builder.buffer = strs.flatten
  table : builder.offsets = offsetsOf strs
  next : builder.nextOffset = strs.flatten.length % 2 ^ 32
  estimate : builder.sizeEstimate = 4 + strs.flatten.length + 4 * strs.length

def pageOf : List UInt8 :=
  strs.flatten ++ ((offsetsOf strs).flatMap (leBytes 4) ++ leBytes 4 strs.length)

def decoderAt (pos : Nat) : PageDecoder := ⟨pageOf strs, strs.length, strs.flatten.length, pos⟩

variable {builder : PageBuilder} {strs} {s : List UInt8}

theorem holds_new (pageSize : Nat) : Holds (PageBuilder.new pageSize) [] := ⟨rfl, rfl, rfl, rfl⟩

theorem holds_reset (builder : PageBuilder) : Holds builder.reset [] := ⟨rfl, rfl, rfl, rfl⟩

theorem offsetsOf_concat (strs : List (List UInt8)) (s : List UInt8) :
    offsetsOf (strs ++ [s]) = offsetsOf strs ++ [strs.flatten.length % 2 ^ 32] := by
  rw [offsetsOf, length_append, length_singleton, range_succ, map_append, map_singleton, startOf, take_left]
  congr 1
  refine map_congr_left fun i hi => ?_
  rw [startOf, startOf, take_append_of_le_length (le_of_lt (mem_range.1 hi))]

/-- A string is added unless the page is full. -/
theorem Holds.addSlice (h : Holds builder strs) (hroom : builder.isPageFull = false) (s : List UInt8) :
    ∃ next, builder.addSlice s = (next, true) ∧ Holds next (strs ++ [s]) ∧ next.pageSize = builder.pageSize := by
  rw [PageBuilder.addSlice, hroom]
  refine ⟨_, rfl, ⟨?_, ?_, ?_, ?_⟩, rfl⟩
  · simp [h.data, flatten_append]
  · simp only [h.table, h.next, offsetsOf_concat]
  · simp [h.next, flatten_append, Nat.mod_add_mod]
  · simp only [h.estimate, flatten_append, flatten_singleton, length_append, length_singleton]
    omega

theorem length_offsetsOf (strs : List (List UInt8)) : (offsetsOf strs).length = strs.length := by
  rw [offsetsOf, length_map, length_range]

theorem Holds.finish (h : Holds builder strs) : builder.finish = pageOf strs := by
  rw [PageBuilder.finish, h.data, h.table, length_offsetsOf]
  rfl

theorem Holds.count (h : Holds builder strs) : builder.count = strs.length % 2 ^ 32 := by
  rw [PageBuilder.count, h.table, length_offsetsOf]

/-! ## Reading -/

variable (strs)

theorem length_pageOf : (pageOf strs).length = strs.flatten.length + (4 * strs.length + 4) := by
  rw [pageOf, length_append, length_append, length_flatMap_leBytes, length_offsetsOf, length_leBytes]

theorem startOf_le (i : Nat) : startOf strs i ≤ strs.flatten.length := by
  conv => rhs; rw [← take_append_drop i strs, flatten_append, length_append]
  exact Nat.le_add_right _ _

variable {i pos : Nat} {strs}

theorem startOf_succ (h : strs[i]? = some s) : startOf strs (i + 1) = startOf strs i + s.length := by
  rw [startOf, take_add_one, h, flatten_append, length_append]
  simp [startOf]

variable (hfit : (pageOf strs).length < 2 ^ 32)
include hfit

theorem field_offset (hi : i < strs.length) :
    field (pageOf strs) (strs.flatten.length + i * 4) = startOf strs i := by
  have hlen := length_pageOf strs
  have hstart := startOf_le strs i
  have hget : (offsetsOf strs)[i]? = some (startOf strs i) := by
    rw [offsetsOf, getElem?_map, getElem?_range hi, Option.map_some, Nat.mod_eq_of_lt (by omega)]
  rw [field, pageOf, ← drop_drop, drop_left' rfl, mul_comm i, take_drop_flatMap_leBytes hget,
    ofLeBytes_leBytes (show startOf strs i < 2 ^ 32 by omega)]

theorem checkOffsets_ok {n : Nat} (hn : n ≤ strs.length) :
    ∃ last, (List.range n).foldlM (checkOffset (pageOf strs) strs.flatten.length) 0 = .ok last ∧
      ∀ i, n ≤ i → last ≤ startOf strs i := by
  induction n with
  | zero => exact ⟨0, rfl, fun i _ => Nat.zero_le _⟩
  | succ n ih =>
    obtain ⟨last, hlast, hle⟩ := ih (by omega)
    refine ⟨startOf strs n, ?_, fun i hi => ?_⟩
    · have hprevious := hle n (le_refl n)
      have hend := startOf_le strs n
      have hround : checkOffset (pageOf strs) strs.flatten.length last n = .ok (startOf strs n) := by
        rw [checkOffset, field_offset hfit (by omega), if_neg (by omega)]
      rw [range_succ, foldlM_append, hlast]
      show List.foldlM (checkOffset (pageOf strs) strs.flatten.length) last [n] = _
      rw [foldlM_cons, hround]
      rfl
    · rw [startOf, startOf, ← take_append_drop n (strs.take i), take_take, min_eq_left (by omega),
        flatten_append, length_append]
      exact Nat.le_add_right _ _

/-- **Opening** a page. -/
theorem init_page : init (pageOf strs) = .ok (decoderAt strs 0) := by
  have hlen := length_pageOf strs
  have hnum : field (pageOf strs) ((pageOf strs).length - 4) = strs.length := by
    rw [field, hlen, pageOf, show strs.flatten.length + (4 * strs.length + 4) - 4 =
      strs.flatten.length + 4 * strs.length by omega, ← drop_drop, drop_left' rfl, drop_left'
      (by rw [length_flatMap_leBytes, length_offsetsOf]), take_of_length_le (le_of_eq (length_leBytes 4 _)),
      ofLeBytes_leBytes (show strs.length < 2 ^ 32 by omega)]
  obtain ⟨last, hlast, -⟩ := checkOffsets_ok hfit (le_refl strs.length)
  rw [init, if_neg (by omega), hnum]
  dsimp only
  rw [if_neg (by omega), show (pageOf strs).length - (4 + strs.length * 4) = strs.flatten.length by omega, hlast]
  rfl

theorem offset_eq {idx : Nat} (hidx : idx ≤ strs.length) (pos : Nat) :
    (decoderAt strs pos).offset idx = startOf strs idx := by
  have hlen := length_pageOf strs
  unfold offset decoderAt
  dsimp only
  split
  · next hend =>
    rw [show idx = strs.length by omega, startOf, take_length, Nat.mod_eq_of_lt (by omega)]
  · exact field_offset hfit (by omega)

/-- **By index.** -/
theorem valueRefAt_eq (pos idx : Nat) : (decoderAt strs pos).valueRefAt idx = strs[idx]? := by
  have hlen := length_pageOf strs
  unfold valueRefAt
  rw [show (decoderAt strs pos).numElements = strs.length from rfl,
    show (decoderAt strs pos).data = pageOf strs from rfl]
  split
  · next hend => rw [getElem?_eq_none hend]
  · next hidx =>
    have hget := getElem?_eq_getElem (show idx < strs.length by omega)
    have hsucc := startOf_succ hget
    have hle := startOf_le strs (idx + 1)
    rw [offset_eq hfit (by omega), offset_eq hfit (by omega), hget]
    dsimp only
    rw [if_pos (by omega), hsucc, Nat.add_sub_cancel_left, pageOf]
    -- the bytes of the strings before this one end where it starts
    have hsplit : strs.flatten = (strs.take idx).flatten ++ (strs[idx] ++ (strs.drop (idx + 1)).flatten) := by
      conv => lhs; rw [← take_append_drop idx strs, drop_eq_getElem_cons (by omega), flatten_append, flatten_cons]
    rw [hsplit, append_assoc, startOf, drop_left' rfl, append_assoc, take_left' rfl]

theorem readStrings_eq {toRead : Nat} (hle : pos + toRead ≤ strs.length) :
    (decoderAt strs pos).readStrings toRead = ((strs.drop pos).take toRead, decoderAt strs (pos + toRead)) := by
  induction toRead generalizing pos with
  | zero => rfl
  | succ toRead ih =>
    have hlt : pos < strs.length := by omega
    have hrest := @ih (pos + 1) (by omega)
    rw [readStrings, stringAt, valueRefAt_eq hfit, show (decoderAt strs pos).curIndex = pos from rfl,
      getElem?_eq_getElem hlt]
    dsimp only
    rw [show ({ decoderAt strs pos with curIndex := pos + 1 } : PageDecoder) = decoderAt strs (pos + 1) from rfl, hrest,
      drop_eq_getElem_cons hlt, take_succ_cons, show pos + 1 + toRead = pos + (toRead + 1) by omega]

/-- **In batches.** -/
theorem nextBatch_eq (hpos : pos ≤ strs.length) (n : Nat) :
    (decoderAt strs pos).nextBatch n = ((strs.drop pos).take n, decoderAt strs (min (pos + n) strs.length)) := by
  rw [nextBatch, show (decoderAt strs pos).numElements = strs.length from rfl,
    show (decoderAt strs pos).curIndex = pos from rfl, readStrings_eq hfit (by omega), ← length_drop,
    ← take_eq_take_min, length_drop, show pos + min n (strs.length - pos) = min (pos + n) strs.length by omega]

end Paro.L1.BinaryPlain
