import Paro.Core.MapM
import Paro.L1Encoding.FramePack
import Paro.L1Encoding.OrderedValue

/-!
# Frame-of-reference pages

Model of `FrameOfReferencePageBuilder` and `FrameOfReferencePageDecoder`
(crates/storage/src/rowset/encoding/frame_of_reference.rs) for signed integers of `size` bytes. A page is a header and
frames of 128 values; a frame is its least value, the bit width of its spread, and the distances of its values from the
least one, bit-packed. Arithmetic is checked: an overflow ends the call.

What becomes of a frame depends on its spread. A frame with a spread of `2 ^ 63` or more is not written
(`encodeFrame_overflow`), unless its values have 16 bytes; then it is written, but from a spread of `2 ^ 64` on it is
not decoded (`decodeFrame_wide`). Below that, it is decoded to what the bit packing kept of it
(`decodeFrame_regular`).

The first and last value of a page and `value_at` are left out.
`La-b` are lines of this file.
-/
namespace Paro.L2.FramePage
open L1 FramePack List Option Signed BitPackWriter

inductive Error
  /-- `FrameOfReferencePageDecoder: data too small` -/
  | dataTooSmall
  /-- `position … > num_elements …` -/
  | position (pos numElements : Nat)
  /-- `invalid type size` -/
  | typeSize
  /-- An overflow of an arithmetic operation. -/
  | overflow
  /-- An index behind the end of the page or of the frame table. -/
  | outOfBounds
  /-- A round of the batch loop that reads nothing. -/
  | diverges
deriving DecidableEq, Repr

/-- L41 -/
def pageHeaderSize : Nat := 12

/-- L44 -/
def frameValueNum : Nat := 128

/-- L48 -/
def formatDeltaMin : UInt8 := 0

/-- L57-72, for numbers of 64 and of 128 bits -/
def bitsNeeded (v : Nat) : Nat := if v = 0 then 0 else v.log2 + 1

variable {size : Nat}

/-- L613-623 -/
def valueBytes (v : Signed (8 * size)) : List UInt8 := leBytes size v.bits

/-- L607-611 -/
def readValue (size : Nat) (bytes : List UInt8) : Signed (8 * size) := wrap (8 * size) (ofLeBytes bytes)

/-! ## Builder -/

variable (values : List (Signed (8 * size)))

/-- The values of a frame, for at most eight bytes. L217-248 -/
def encodeFrameTyped : Option (List UInt8) :=
  match values.min?, values.max? with
  | some minVal, some maxVal =>
    match ofInt? 64 (maxVal.val - minVal.val) with
    | none => none
    | some maxDelta =>
      let bitWidth := if 0 ≤ maxDelta.val then bitsNeeded maxDelta.bits else size * 8
      let head := valueBytes minVal ++ [UInt8.ofNat bitWidth, formatDeltaMin]
      if bitWidth = 0 then some head
      else
        (values.foldlM (fun (writer : BitPackWriter) val =>
          (ofInt? 64 (val.val - minVal.val)).map fun delta => writer.write delta.bits) (.new bitWidth)).map
            fun writer => head ++ writer.flush
  | _, _ => none

/-- L261-283 -/
def encodeFrameTypedI128 : Option (List UInt8) :=
  match values.min?, values.max? with
  | some minVal, some maxVal =>
    let maxDelta := ((maxVal.val - minVal.val) % 2 ^ 128).toNat
    let bitWidth := bitsNeeded maxDelta
    let head := valueBytes minVal ++ [UInt8.ofNat bitWidth, formatDeltaMin]
    if bitWidth = 0 then some head
    else
      let writer := values.foldl (fun (writer : BitPackWriter) val =>
        writer.writeU128 ((val.val - minVal.val) % 2 ^ 128).toNat) (.new bitWidth)
      some (head ++ writer.flush)
  | _, _ => none

def encodeValues : Option (List UInt8) :=
  if size = 16 then encodeFrameTypedI128 values else encodeFrameTyped values

/-- L75-90 -/
structure PageBuilder where
  data : List UInt8
  (typeSize pageSize count : Nat)

namespace PageBuilder

/-- L94-105 -/
def new (typeSize pageSize : Nat) : PageBuilder := ⟨[], typeSize, pageSize, 0⟩

variable (builder : PageBuilder)

/-- The builder, and how many of the values it took; `none` when the count overflows.
L113-141 -/
def add (vals : List UInt8) (count : Nat) : Option (PageBuilder × Nat) :=
  if builder.pageSize ≤ builder.data.length then some (builder, 0)
  else
    let bytesToAdd := count * builder.typeSize
    if vals.length < bytesToAdd then some (builder, 0)
    else if 2 ^ 32 ≤ builder.count + count then none
    else some ({ builder with data := builder.data ++ vals.take bytesToAdd, count := builder.count + count }, count)

/-- The values of a frame. L208-215 and 252-259 -/
def frameValues (start count : Nat) : List (Signed (8 * builder.typeSize)) :=
  (range count).map fun i =>
    readValue builder.typeSize ((builder.data.drop ((start + i) * builder.typeSize)).take builder.typeSize)

/-- L191-200 -/
def encodeFrame (start count : Nat) : Option (List UInt8) :=
  encodeValues (builder.frameValues start count)

/-- `none` when encoding a frame overflows. L144-189 -/
def finish : Option (List UInt8) :=
  if builder.count = 0 then
    some (leBytes 4 0 ++ (leBytes 4 0 ++ [UInt8.ofNat frameValueNum, 0, UInt8.ofNat builder.typeSize, 0]))
  else
    let frameCount := (builder.count + (frameValueNum - 1)) / frameValueNum
    let lastFrameSize := if builder.count % frameValueNum = 0 then frameValueNum else builder.count % frameValueNum
    let header := leBytes 4 builder.count ++ (leBytes 4 frameCount ++
      [UInt8.ofNat frameValueNum, UInt8.ofNat lastFrameSize, UInt8.ofNat builder.typeSize, 0])
    ((range frameCount).mapM fun frameIdx =>
      builder.encodeFrame (frameIdx * frameValueNum)
        (if frameIdx = frameCount - 1 then lastFrameSize else frameValueNum)).map fun frames => header ++ frames.flatten

end PageBuilder

/-! ## Decoder -/

/-- A decoder after `init`. L317-338 -/
structure PageDecoder where
  data : List UInt8
  (numElements frameCount frameSize lastFrameSize typeSize : Nat)
  frameOffsets : List Nat
  curIndex : Nat
  decodedFrame : Option (Nat × List UInt8)

namespace PageDecoder

/-- The loop of `init` over the frames. L387-406 -/
def frameOffsetsFrom (data : List UInt8) (frameCount frameSize lastFrameSize typeSize : Nat) :
    Nat → Nat → Nat → Except Error (List Nat)
  | 0, _, _ => .ok []
  | remaining + 1, frameIdx, offset =>
    let frameSize' := if frameIdx = frameCount - 1 then lastFrameSize else frameSize
    match data[offset + typeSize]? with
    | none => .error .outOfBounds
    | some bitWidth =>
      let packedBytes := if 0 < bitWidth.toNat then (frameSize' * bitWidth.toNat + 7) / 8 else 0
      (frameOffsetsFrom data frameCount frameSize lastFrameSize typeSize remaining (frameIdx + 1)
        (offset + (typeSize + 2) + packedBytes)).map (offset :: ·)

/-- L358-411 -/
def init (data : List UInt8) : Except Error PageDecoder :=
  if data.length < pageHeaderSize then .error .dataTooSmall
  else
    let numElements := ofLeBytes (data.take 4)
    let frameCount := ofLeBytes ((data.drop 4).take 4)
    let frameSize := (data.getD 8 0).toNat
    let lastFrameSize := (data.getD 9 0).toNat
    let typeSize := (data.getD 10 0).toNat
    if numElements = 0 then .ok ⟨data, numElements, frameCount, frameSize, lastFrameSize, typeSize, [], 0, none⟩
    else
      match frameOffsetsFrom data frameCount frameSize lastFrameSize typeSize frameCount 0 pageHeaderSize with
      | .error e => .error e
      | .ok offsets => .ok ⟨data, numElements, frameCount, frameSize, lastFrameSize, typeSize, offsets, 0, none⟩

variable (decoder : PageDecoder)

/-- L414-428 -/
def seekToPosition (pos : Nat) : Except Error PageDecoder :=
  if decoder.numElements < pos then .error (.position pos decoder.numElements)
  else .ok { decoder with curIndex := pos }

def sizeOfFrame (frameIdx : Nat) : Nat :=
  if frameIdx = decoder.frameCount - 1 then decoder.lastFrameSize else decoder.frameSize

end PageDecoder

/-- One value of a frame of at most eight bytes. L526-528 -/
def decodeDelta (minVal : Signed (8 * size)) (delta : Option Nat) : Except Error (Signed (8 * size)) :=
  match delta with
  | none => .error .overflow
  | some delta =>
    match ofInt? 64 (minVal.val + (wrap 64 delta).val) with
    | none => .error .overflow
    | some val => .ok ((ofInt? (8 * size) val.val).getD minVal)

/-- L506-533 -/
def decodeFrameTyped (data : List UInt8) (size offset frameSize : Nat) : Except Error (List UInt8) :=
  if data.length < offset + size + 2 then .error .outOfBounds
  else
    let minVal := readValue size ((data.drop offset).take size)
    let bitWidth := (data.getD (offset + size) 0).toNat
    if bitWidth = 0 then .ok ((replicate frameSize minVal).flatMap valueBytes)
    else
      ((range frameSize).mapM fun i =>
        decodeDelta minVal (read (data.drop (offset + size + 2)) bitWidth i)).map (·.flatMap valueBytes)

/-- One value of a frame of sixteen bytes. L562-563 -/
def decodeDeltaI128 (minVal : Signed (8 * size)) (delta : Option Nat) : Except Error (Signed (8 * size)) :=
  match delta with
  | none => .error .overflow
  | some delta => .ok (wrap (8 * size) (minVal.val + delta))

/-- L545-568 -/
def decodeFrameTypedI128 (data : List UInt8) (size offset frameSize : Nat) : Except Error (List UInt8) :=
  if data.length < offset + size + 1 then .error .outOfBounds
  else
    let minVal := readValue size ((data.drop offset).take size)
    let bitWidth := (data.getD (offset + size) 0).toNat
    if bitWidth = 0 then .ok ((replicate frameSize minVal).flatMap valueBytes)
    else if data.length < offset + size + 2 then .error .outOfBounds
    else
      ((range frameSize).mapM fun i =>
        decodeDeltaI128 minVal (readU128 (data.drop (offset + size + 2)) bitWidth i)).map (·.flatMap valueBytes)

def decodeAt (data : List UInt8) (size offset frameSize : Nat) : Except Error (List UInt8) :=
  if size = 16 then decodeFrameTypedI128 data size offset frameSize else decodeFrameTyped data size offset frameSize

namespace PageDecoder
variable (decoder : PageDecoder)

/-- L481-490, with the start of both decoders (497-503, 537-542) -/
def decodeFrame (frameIdx : Nat) : Except Error (List UInt8) :=
  if decoder.typeSize ∉ [1, 2, 4, 8, 16] then .error .typeSize
  else
    match decoder.frameOffsets[frameIdx]? with
    | none => .error .outOfBounds
    | some offset => decodeAt decoder.data decoder.typeSize offset (decoder.sizeOfFrame frameIdx)

/-- The decoder with a frame in its cache. L453-458 -/
def cacheFrame (frameIdx : Nat) : Except Error (List UInt8 × PageDecoder) :=
  match decoder.decodedFrame with
  | some (cached, frameData) =>
    if cached = frameIdx then .ok (frameData, decoder)
    else (decoder.decodeFrame frameIdx).map fun frameData =>
      (frameData, { decoder with decodedFrame := some (frameIdx, frameData) })
  | none => (decoder.decodeFrame frameIdx).map fun frameData =>
      (frameData, { decoder with decodedFrame := some (frameIdx, frameData) })

/-- The loop of `next_batch`, with as many rounds as values to read. L448-476 -/
def readLoop (decoder : PageDecoder) : Nat → Nat → Except Error (List UInt8 × PageDecoder)
  | _, 0 => .ok ([], decoder)
  | 0, _ + 1 => .error .diverges
  | rounds + 1, toRead =>
    let frameIdx := decoder.curIndex / decoder.frameSize
    let posInFrame := decoder.curIndex % decoder.frameSize
    match decoder.cacheFrame frameIdx with
    | .error e => .error e
    | .ok (frameData, decoder) =>
      if decoder.sizeOfFrame frameIdx < posInFrame then .error .overflow
      else
        let toCopy := min (decoder.sizeOfFrame frameIdx - posInFrame) toRead
        let start := posInFrame * decoder.typeSize
        if frameData.length < start + toCopy * decoder.typeSize then .error .outOfBounds
        else
          match readLoop { decoder with curIndex := decoder.curIndex + toCopy } rounds (toRead - toCopy) with
          | .error e => .error e
          | .ok (rest, next) => .ok ((frameData.drop start).take (toCopy * decoder.typeSize) ++ rest, next)

/-- L431-479 -/
def nextBatch (n : Nat) : Except Error ((Nat × List UInt8) × PageDecoder) :=
  let toRead := min n (decoder.numElements - decoder.curIndex)
  match decoder.readLoop toRead toRead with
  | .error e => .error e
  | .ok (output, decoder) => .ok ((toRead, output), decoder)

end PageDecoder

/-! ## Values -/

theorem bits_lt (v : Signed (8 * size)) : v.bits < 256 ^ size := by
  have hpos : (0 : Int) < 2 ^ (8 * size) := Int.pow_pos (by decide)
  have hpow : ((256 ^ size : Nat) : Int) = 2 ^ (8 * size) := by
    rw [show (256 : Nat) = 2 ^ 8 from rfl, ← Nat.pow_mul]
    rfl
  show (v.val % 2 ^ (8 * size)).toNat < 256 ^ size
  omega

theorem readValue_valueBytes (v : Signed (8 * size)) : readValue size (valueBytes v) = v := by
  rw [readValue, valueBytes, ofLeBytes_leBytes (bits_lt v), wrap_bits]

theorem length_valueBytes (v : Signed (8 * size)) : (valueBytes v).length = size := length_leBytes size _

section
variable (vs : List (Signed (8 * size)))
include vs

theorem length_flatMap_valueBytes : (vs.flatMap valueBytes).length = vs.length * size := by
  simp [length_flatMap, length_valueBytes, map_const']

theorem drop_flatMap_valueBytes (n : Nat) : (vs.flatMap valueBytes).drop (n * size) = (vs.drop n).flatMap valueBytes :=
  drop_flatMap_width size n length_valueBytes vs

theorem take_flatMap_valueBytes (n : Nat) : (vs.flatMap valueBytes).take (n * size) = (vs.take n).flatMap valueBytes :=
  take_flatMap_width size n length_valueBytes vs

end

variable {vs : List (Signed (8 * size))} {v k offset d : Nat} {data bytes rest : List UInt8}

theorem flatMap_valueBytes_inj {us : List (Signed (8 * size))} (hlen : us.length = vs.length)
    (h : us.flatMap valueBytes = vs.flatMap valueBytes) : us = vs := by
  induction us generalizing vs with
  | nil => exact (length_eq_zero_iff.1 hlen.symm).symm
  | cons u us ih =>
    cases vs with
    | nil => cases hlen
    | cons v vs =>
      obtain ⟨hhead, htail⟩ := append_inj h (by rw [length_valueBytes, length_valueBytes])
      rw [← readValue_valueBytes u, hhead, readValue_valueBytes, ih (Nat.succ.inj hlen) htail]

/-! ## Frames -/

theorem lt_bitsNeeded (v : Nat) : v < 2 ^ bitsNeeded v := by
  unfold bitsNeeded
  split
  · next h => rw [h]; exact Nat.one_pos
  · exact Nat.lt_log2_self

theorem bitsNeeded_le (h : v < 2 ^ k) : bitsNeeded v ≤ k := by
  unfold bitsNeeded
  split
  · exact Nat.zero_le k
  · next hne => exact (Nat.log2_lt hne).2 h

theorem lt_of_bitsNeeded (h : 2 ^ k ≤ v) : k < bitsNeeded v := by
  have hpos : 0 < 2 ^ k := Nat.two_pow_pos k
  unfold bitsNeeded
  rw [if_neg (by omega)]
  exact Nat.lt_succ_of_le ((Nat.le_log2 (by omega)).2 h)

def spread : Nat :=
  match values.min?, values.max? with
  | some minVal, some maxVal => (maxVal.val - minVal.val).toNat
  | _, _ => 0

def deltas : List Nat :=
  match values.min? with
  | some minVal => values.map fun v => (v.val - minVal.val).toNat
  | none => []

def width : Nat := bitsNeeded (spread values)

def Regular : Prop := spread values < if size = 16 then 2 ^ 64 else 2 ^ 63

def restored : List (Signed (8 * size)) :=
  match values.min? with
  | some minVal => (stored (width values) (deltas values)).map fun d : Nat => wrap (8 * size) (minVal.val + (d : Int))
  | none => []

def frameBytes (minVal : Signed (8 * size)) (packedBytes : List UInt8) : List UInt8 :=
  valueBytes minVal ++ ([UInt8.ofNat (width values), formatDeltaMin] ++ packedBytes)

structure Bounds (values : List (Signed (8 * size))) (minVal maxVal : Signed (8 * size)) : Prop where
  min : values.min? = some minVal
  max : values.max? = some maxVal

variable {values} {minVal maxVal : Signed (8 * size)}

theorem exists_bounds (h : values ≠ []) : ∃ minVal maxVal, Bounds values minVal maxVal := by
  obtain ⟨v, hv⟩ := exists_mem_of_ne_nil values h
  obtain ⟨a, ha⟩ := isSome_iff_exists.1 (isSome_min?_of_mem hv)
  obtain ⟨b, hb⟩ := isSome_iff_exists.1 (isSome_max?_of_mem hv)
  exact ⟨a, b, ha, hb⟩

namespace Bounds

section
variable (h : Bounds values minVal maxVal)
include h

theorem le {v : Signed (8 * size)} (hv : v ∈ values) : minVal.val ≤ v.val ∧ v.val ≤ maxVal.val :=
  ⟨(min?_eq_some_iff.1 h.min).2 v hv, (max?_eq_some_iff.1 h.max).2 v hv⟩

theorem spread_eq : (spread values : Int) = maxVal.val - minVal.val := by
  have hle := (h.le (min?_eq_some_iff.1 h.min).1).2
  rw [spread, h.min, h.max]
  dsimp only
  omega

theorem deltas_eq : deltas values = values.map fun v => (v.val - minVal.val).toNat := by
  rw [deltas, h.min]

theorem deltas_lt : ∀ d ∈ deltas values, d ≤ spread values ∧ d < 2 ^ width values := by
  intro d hd
  rw [h.deltas_eq] at hd
  obtain ⟨v, hv, rfl⟩ := mem_map.1 hd
  have hle := h.le hv
  have hspread := h.spread_eq
  exact ⟨by omega, lt_of_le_of_lt (by omega) (lt_bitsNeeded _)⟩

theorem restored_eq :
    restored values = (stored (width values) (deltas values)).map fun d : Nat =>
      wrap (8 * size) (minVal.val + (d : Int)) := by
  rw [restored, h.min]

end

end Bounds

theorem length_stored (w : Nat) (ds : List Nat) : (stored w ds).length = ds.length := length_mapIdx

theorem length_restored (h : values ≠ []) : (restored values).length = values.length := by
  obtain ⟨_, _, hb⟩ := exists_bounds h
  rw [hb.restored_eq, length_map, length_stored, hb.deltas_eq, length_map]

theorem Regular.width_le (h : Regular values) : width values ≤ if size = 16 then 64 else 63 := by
  unfold Regular at h
  split at h
  · next h16 => rw [if_pos h16]; exact bitsNeeded_le h
  · next h16 => rw [if_neg h16]; exact bitsNeeded_le h

theorem Regular.width_le_64 (h : Regular values) : width values ≤ 64 := by
  have := h.width_le
  split at this <;> omega

def packedBytes (values : List (Signed (8 * size))) : List UInt8 :=
  ((deltas values).foldl .write (new (width values))).flush

theorem packedBytes_spec (hb : Bounds values minVal maxVal) (h : Regular values) :
    (packedBytes values).length = (values.length * width values + 7) / 8 ∧
      ofLeBytes (packedBytes values) = packed (width values) (stored (width values) (deltas values)) ∧
      ∀ d ∈ stored (width values) (deltas values), d < 2 ^ width values := by
  have hpacks := packs_writeAll h.width_le_64 fun d hd => (hb.deltas_lt d hd).2
  obtain ⟨hlen, hnum⟩ := hpacks.flush
  rw [length_stored, hb.deltas_eq, length_map] at hlen
  rw [← hb.deltas_eq] at hlen
  exact ⟨hlen, hnum, hpacks.fits⟩

theorem packedBytes_eq_nil (hb : Bounds values minVal maxVal) (h : Regular values) (hzero : width values = 0) :
    packedBytes values = [] := by
  have hlen := (packedBytes_spec hb h).1
  rw [hzero, mul_zero] at hlen
  exact length_eq_zero_iff.1 hlen

theorem ofInt?_val {w : Nat} {n : Int} (hlow : -2 ^ w ≤ 2 * n) (hhigh : 2 * n < 2 ^ w) :
    ofInt? w n = some ⟨n, hlow, hhigh⟩ := by
  rw [ofInt?, dif_pos ⟨hlow, hhigh⟩]

/-- A distance as a number of 64 bits. -/
theorem ofInt?_delta {a b : Int} (hle : a ≤ b) (hlt : b - a < 2 ^ 63) :
    ∃ delta, ofInt? 64 (b - a) = some delta ∧ delta.val = b - a ∧ delta.bits = (b - a).toNat := by
  refine ⟨⟨b - a, by omega, by omega⟩, ofInt?_val _ _, rfl, ?_⟩
  show ((b - a) % 2 ^ 64).toNat = _
  rw [Int.emod_eq_of_lt (by omega) (by omega)]

theorem foldlM_write (hvs : ∀ v ∈ vs, minVal.val ≤ v.val ∧ v.val - minVal.val < 2 ^ 63) (writer : BitPackWriter) :
    vs.foldlM (fun (writer : BitPackWriter) val =>
      (ofInt? 64 (val.val - minVal.val)).map fun delta => writer.write delta.bits) writer =
      some ((vs.map fun v => (v.val - minVal.val).toNat).foldl .write writer) := by
  induction vs generalizing writer with
  | nil => rfl
  | cons v vs ih =>
    obtain ⟨hle, hlt⟩ := hvs v mem_cons_self
    obtain ⟨delta, hdelta, -, hbits⟩ := ofInt?_delta hle hlt
    rw [foldlM_cons, hdelta, map_some, hbits, map_cons, foldl_cons]
    exact ih (fun u hu => hvs u (mem_cons_of_mem v hu)) _

theorem encodeFrameTyped_regular (hb : Bounds values minVal maxVal) (h16 : size ≠ 16) (h : Regular values) :
    encodeFrameTyped values = some (frameBytes values minVal (packedBytes values)) := by
  have hspread := hb.spread_eq
  have hlt : spread values < 2 ^ 63 := by
    have := h
    rwa [Regular, if_neg h16] at this
  obtain ⟨maxDelta, hmax, hval, hbits⟩ := ofInt?_delta (a := minVal.val) (b := maxVal.val) (by omega) (by omega)
  have hwidth : (if 0 ≤ maxDelta.val then bitsNeeded maxDelta.bits else size * 8) = width values := by
    rw [if_pos (by omega), hbits, ← hspread]
    rfl
  rw [encodeFrameTyped, hb.min, hb.max]
  dsimp only
  rw [hmax]
  dsimp only
  rw [hwidth]
  split
  · next hzero => rw [frameBytes, packedBytes_eq_nil hb h hzero, append_nil]
  · rw [foldlM_write fun v hv => ⟨(hb.le hv).1, by have := hb.le hv; omega⟩, ← hb.deltas_eq, map_some, frameBytes,
      append_assoc]
    rfl

theorem encodeFrameTyped_overflow (hb : Bounds values minVal maxVal) (h : 2 ^ 63 ≤ spread values) :
    encodeFrameTyped values = none := by
  have hspread := hb.spread_eq
  have hover : ofInt? 64 (maxVal.val - minVal.val) = none := ofInt?_eq_none.2 fun v hv => by
    have := v.high
    omega
  rw [encodeFrameTyped, hb.min, hb.max]
  dsimp only
  rw [hover]

/-- A distance as a number of 128 bits. -/
theorem emod_delta (h16 : size = 16) (hle : minVal.val ≤ maxVal.val) :
    ((maxVal.val - minVal.val) % 2 ^ 128).toNat = (maxVal.val - minVal.val).toNat := by
  subst h16
  have hlow := minVal.low
  have hhigh := maxVal.high
  rw [Int.emod_eq_of_lt (by omega) (by omega)]

/-- The frame of sixteen-byte values, as it is written at any width. -/
theorem encodeFrameTypedI128_eq (hb : Bounds values minVal maxVal) (h16 : size = 16) :
    encodeFrameTypedI128 values = some (frameBytes values minVal (if width values = 0 then []
        else ((deltas values).foldl .writeU128 (new (width values))).flush)) := by
  have hspread := hb.spread_eq
  have hwidth : bitsNeeded ((maxVal.val - minVal.val) % 2 ^ 128).toNat = width values := by
    rw [emod_delta h16 (by omega), ← hspread]
    rfl
  have hdeltas : values.map (fun v => ((v.val - minVal.val) % 2 ^ 128).toNat) = deltas values := by
    rw [hb.deltas_eq]
    exact map_congr_left fun v hv => emod_delta h16 (hb.le hv).1
  rw [encodeFrameTypedI128, hb.min, hb.max]
  dsimp only
  rw [hwidth]
  split
  · rw [frameBytes, append_nil]
  · rw [frameBytes, append_assoc, ← hdeltas, foldl_map]

theorem foldl_writeU128 {ds : List Nat} (hds : ∀ d ∈ ds, d < 2 ^ 64) {writer : BitPackWriter}
    (hwidth : writer.bitWidth ≤ 64) : ds.foldl .writeU128 writer = ds.foldl .write writer := by
  induction ds generalizing writer with
  | nil => rfl
  | cons d ds ih =>
    have hone : writer.writeU128 d = writer.write d := by
      rw [writeU128, if_pos hwidth, Nat.mod_eq_of_lt (hds d mem_cons_self)]
    rw [foldl_cons, foldl_cons, hone]
    exact ih (fun e he => hds e (mem_cons_of_mem d he)) (by rw [(writer.length_write d).2.2]; exact hwidth)

theorem encodeValues_regular (hb : Bounds values minVal maxVal) (h : Regular values) :
    encodeValues values = some (frameBytes values minVal (packedBytes values)) := by
  unfold encodeValues
  split
  · next h16 =>
    have hlt : spread values < 2 ^ 64 := by
      have := h
      rwa [Regular, if_pos h16] at this
    rw [encodeFrameTypedI128_eq hb h16]
    split
    · next hzero => rw [packedBytes_eq_nil hb h hzero]
    · rw [foldl_writeU128 (fun d hd => lt_of_le_of_lt (hb.deltas_lt d hd).1 hlt) h.width_le_64]
      rfl
  · next h16 => exact encodeFrameTyped_regular hb h16 h

theorem foldl_writeU128_length {ds : List Nat} {writer : BitPackWriter} (hbits : writer.bitsInBuffer < 8)
    (hwidth : 64 < writer.bitWidth) :
    8 * writer.output.length + writer.bitsInBuffer + ds.length * (2 * writer.bitWidth) ≤
      8 * (ds.foldl .writeU128 writer).flush.length := by
  induction ds generalizing writer with
  | nil =>
    rw [length_nil, zero_mul, foldl_nil, flush]
    split
    · rw [length_append, length_singleton]
      omega
    · omega
  | cons d ds ih =>
    obtain ⟨hfirst, hfirstBits, hfirstWidth⟩ := writer.length_write (d % 2 ^ 64)
    obtain ⟨hsecond, hsecondBits, hsecondWidth⟩ := (writer.write (d % 2 ^ 64)).length_write (d / 2 ^ 64)
    have hone : writer.writeU128 d = (writer.write (d % 2 ^ 64)).write (d / 2 ^ 64) := by
      rw [writeU128, if_neg (by omega)]
    have hrest := ih hsecondBits (by omega)
    rw [hsecond, hsecondWidth, hfirstWidth, hfirst] at hrest
    rw [foldl_cons, hone, length_cons, Nat.succ_mul ds.length]
    omega

/-- A frame of a width above 64 is written in more than eight bytes. -/
theorem encodeValues_wide (hb : Bounds values minVal maxVal) (h16 : size = 16) (h : ¬ Regular values) :
    64 < width values ∧ ∃ bytes, 8 < bytes.length ∧ encodeValues values = some (frameBytes values minVal bytes) := by
  rw [Regular, if_pos h16, not_lt] at h
  have hwidth : 64 < width values := lt_of_bitsNeeded h
  have hne : 0 < (deltas values).length := by
    rw [hb.deltas_eq, length_map]
    exact length_pos_of_mem (min?_eq_some_iff.1 hb.min).1
  have hlen := @foldl_writeU128_length (deltas values) (.new (width values)) (Nat.zero_lt_succ 7) hwidth
  refine ⟨hwidth, _, ?_, by rw [encodeValues, if_pos h16, encodeFrameTypedI128_eq hb h16, if_neg (by omega)]⟩
  have hmul : 1 * (2 * width values) ≤ (deltas values).length * (2 * width values) := Nat.mul_le_mul_right _ hne
  have : (deltas values).length * (2 * width values) ≤
      8 * ((deltas values).foldl .writeU128 (new (width values))).flush.length :=
    le_trans (Nat.le_add_left _ _) hlen
  omega

/-! ## Decoding a frame -/

theorem width_le_128 (hb : Bounds values minVal maxVal) (hsize : size ≤ 16) : width values ≤ 128 := by
  have hspread := hb.spread_eq
  have hlow := minVal.low
  have hhigh := maxVal.high
  have hpow : (2 : Int) ^ (8 * size) ≤ 2 ^ 128 := pow_le_pow_right₀ (by decide) (by omega)
  exact bitsNeeded_le (by omega)

/-- The head of a frame at its place in the page. -/
theorem read_head (hwidth : width values ≤ 128) (hdata : data.drop offset = frameBytes values minVal bytes ++ rest) :
    offset + size + 2 ≤ data.length ∧ readValue size ((data.drop offset).take size) = minVal ∧
      data[offset + size]? = some (UInt8.ofNat (width values)) ∧ (UInt8.ofNat (width values)).toNat = width values ∧
      data.drop (offset + size + 2) = bytes ++ rest := by
  have hhead : (valueBytes minVal).length = size := length_valueBytes minVal
  have htail : data.drop (offset + size) = [UInt8.ofNat (width values), formatDeltaMin] ++ (bytes ++ rest) := by
    rw [← drop_drop, hdata, frameBytes, append_assoc, drop_left' hhead, append_assoc]
  have hlen := congrArg length htail
  rw [length_drop, length_append, length_cons, length_singleton] at hlen
  refine ⟨by omega, ?_, ?_, ?_, ?_⟩
  · rw [hdata, frameBytes, append_assoc, take_left' hhead, readValue_valueBytes]
  · have hget : (data.drop (offset + size))[0]? = some (UInt8.ofNat (width values)) := by rw [htail]; rfl
    rwa [getElem?_drop, add_zero] at hget
  · rw [UInt8.toNat_ofNat', Nat.mod_eq_of_lt (by omega)]
  · rw [← drop_drop, htail]
    rfl

section
variable (hb : Bounds values minVal maxVal)
include hb

/-- What is kept of a distance is at most the spread. -/
theorem stored_le (hd : d ∈ stored (width values) (deltas values)) : d ≤ spread values := by
  obtain ⟨i, hi, rfl⟩ := mem_mapIdx.1 hd
  exact le_trans (Nat.mod_le _ _) (hb.deltas_lt _ (getElem_mem hi)).1

theorem read_packedBytes (h : Regular values) (rest : List UInt8) {i : Nat} (hi : i < values.length) :
    read (packedBytes values ++ rest) (width values) i = some ((stored (width values) (deltas values)).getD i 0) := by
  obtain ⟨hlen, hnum, hfits⟩ := packedBytes_spec hb h
  have hstored : (stored (width values) (deltas values)).length = values.length := by
    rw [length_stored, hb.deltas_eq, length_map]
  have hend : (i + 1) * width values ≤ values.length * width values := Nat.mul_le_mul_right _ hi
  rw [Nat.succ_mul, mul_comm i] at hend
  rw [read_eq h.width_le_64, ofLeBytes_append_div_mod (by omega), hnum,
    packed_div_mod hfits (getElem?_eq_getElem (by omega : i < (stored (width values) (deltas values)).length)),
    getD_eq_getElem]

/-- A distance that the spread allows is added to the least value without an overflow. -/
theorem ofInt?_restored (hd : d ≤ spread values) :
    ofInt? (8 * size) (minVal.val + (d : Int)) = some (wrap (8 * size) (minVal.val + (d : Int))) := by
  have hspread := hb.spread_eq
  have hlow := minVal.low
  have hhigh := maxVal.high
  rw [ofInt?_val (by omega) (by omega)]
  exact congrArg some (wrap_val ⟨minVal.val + (d : Int), by omega, by omega⟩).symm

theorem decodeDelta_eq (hsize : size ≤ 8) (h : spread values < 2 ^ 63) (hd : d ≤ spread values) :
    decodeDelta minVal (some d) = .ok (wrap (8 * size) (minVal.val + (d : Int))) := by
  have hspread := hb.spread_eq
  have hlow := minVal.low
  have hhigh := maxVal.high
  have hpow : (2 : Int) ^ (8 * size) ≤ 2 ^ 64 := pow_le_pow_right₀ (by decide) (by omega)
  have hwrap : (wrap 64 (d : Int)).val = d :=
    congrArg val (wrap_val ⟨(d : Int), by omega, by omega⟩)
  unfold decodeDelta
  dsimp only
  rw [hwrap, ofInt?_val (by omega) (by omega)]
  dsimp only
  rw [ofInt?_restored hb hd]
  rfl

/-- The values of a frame without spread. -/
theorem restored_of_width_zero (h : Regular values) (hzero : width values = 0) :
    restored values = replicate values.length minVal := by
  have hfits := (packedBytes_spec hb h).2.2
  have hlen : (restored values).length = values.length := length_restored fun hnil => by rw [hnil] at hb; cases hb.min
  refine eq_replicate_iff.2 ⟨hlen, fun v hv => ?_⟩
  rw [hb.restored_eq] at hv
  obtain ⟨d, hd, rfl⟩ := mem_map.1 hv
  have hd0 := hfits d hd
  rw [hzero, Nat.pow_zero] at hd0
  rw [show d = 0 by omega, Int.natCast_zero, Int.add_zero, wrap_val]

end

theorem decodeAt_regular (hsize : size ∈ [1, 2, 4, 8, 16]) (hb : Bounds values minVal maxVal) (h : Regular values)
    (hdata : data.drop offset = frameBytes values minVal (packedBytes values) ++ rest) :
    decodeAt data size offset values.length = .ok ((restored values).flatMap valueBytes) := by
  have hwidth := h.width_le_64
  obtain ⟨hlen, hmin, hget, hbyte, hpacked⟩ := read_head (by omega) hdata
  have hgetD : (data.getD (offset + size) 0).toNat = width values := by
    rw [getD_eq_getElem?_getD, hget, getD_some, hbyte]
  have hstored : (stored (width values) (deltas values)).length = values.length := by
    rw [length_stored, hb.deltas_eq, length_map]
  have hloop : ∀ f : Option Nat → Except Error (Signed (8 * size)),
      (∀ d ∈ stored (width values) (deltas values), f (some d) = .ok (wrap (8 * size) (minVal.val + (d : Int)))) →
        (range values.length).mapM (fun i => f (read (packedBytes values ++ rest) (width values) i)) =
          .ok (restored values) := by
    intro f hf
    rw [hb.restored_eq, ← map_range_getD (fun d : Nat => wrap (8 * size) (minVal.val + (d : Int))) _ 0, hstored]
    refine mapM_eq_pure fun i hi => ?_
    have hi := mem_range.1 hi
    rw [read_packedBytes hb h rest hi]
    exact hf _ (by rw [getD_eq_getElem _ _ (by omega)]; exact getElem_mem _)
  unfold decodeAt
  split
  · next h16 =>
    unfold decodeFrameTypedI128
    rw [if_neg (by omega), hmin, hgetD, hpacked]
    dsimp only
    split
    · next hzero => rw [restored_of_width_zero hb h hzero]
    have hread : ∀ i, readU128 (packedBytes values ++ rest) (width values) i =
        read (packedBytes values ++ rest) (width values) i := fun i => by rw [readU128, if_pos hwidth]
    simp only [hread]
    rw [if_neg (by omega), hloop (decodeDeltaI128 minVal) fun d _ => rfl]
    rfl
  · next h16 =>
    have hle : size ≤ 8 := by
      simp only [mem_cons, not_mem_nil, or_false] at hsize
      omega
    have hlt : spread values < 2 ^ 63 := by
      have := h
      rwa [Regular, if_neg h16] at this
    unfold decodeFrameTyped
    rw [if_neg (by omega), hmin, hgetD, hpacked]
    dsimp only
    split
    · next hzero => rw [restored_of_width_zero hb h hzero]
    · rw [hloop (decodeDelta minVal) fun d hd => decodeDelta_eq hb hle hlt (stored_le hb hd)]
      rfl

/-- A frame of a width above 64 is not decoded. -/
theorem decodeAt_wide (h16 : size = 16) (hb : Bounds values minVal maxVal) (hwidth : 64 < width values) {n : Nat}
    (hbytes : 8 < bytes.length) (hdata : data.drop offset = frameBytes values minVal bytes ++ rest) :
    decodeAt data size offset (n + 1) = .error .overflow := by
  obtain ⟨hlen, hmin, hget, hbyte, hpacked⟩ := read_head (width_le_128 hb (by omega)) hdata
  have hgetD : (data.getD (offset + size) 0).toNat = width values := by
    rw [getD_eq_getElem?_getD, hget, getD_some, hbyte]
  have hread : readU128 (bytes ++ rest) (width values) 0 = none := by
    rw [readU128, if_neg (by omega), zero_mul, read_wide hwidth (by rw [length_append]; omega)]
  rw [decodeAt, if_pos h16, decodeFrameTypedI128, if_neg (by omega), hmin, hgetD, hpacked]
  rw [if_neg (by omega), if_neg (by omega), range_succ_eq_map, mapM_cons, hread]
  rfl

end Paro.L2.FramePage
