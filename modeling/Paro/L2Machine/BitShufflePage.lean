import Paro.L1Encoding.BitShuffle

/-!
# Bit-shuffled pages

Model of `BitShufflePageBuilder` and `BitShufflePageDecoder` (crates/storage/src/rowset/encoding/bitshuffle.rs) and of
the size-prefixed LZ4 block they use (crates/storage/src/compression/lz4.rs). A page is a header of six numbers and the
compressed planes of the padded elements. The decoder keeps the planes and, once a sequential read has asked for it, the
elements themselves; point reads and gathers work on either.

`Opened` is a decoder of the page of some elements, with the elements materialized or not. Every read of it returns the
bytes of the elements and leaves such a decoder: `Opened.nextBatch`, `Opened.copyValueAt`, `Opened.valueAt`,
`Opened.gather`.

LZ4 itself is a parameter of which only the round trip is assumed. The head space of a page (`reserve_head`), the first
and last value and the page caches are left out. `La-b` are lines of `bitshuffle.rs`.
-/
namespace Paro.L2.BitShufflePage
open L1.BitShuffle List

structure Lz4 where
  compress : List UInt8 → List UInt8
  decompress : List UInt8 → Option (List UInt8)
  decompress_compress : ∀ data, decompress (compress data) = some data

/-- A block format that stores its input. -/
def Lz4.stored : Lz4 := ⟨id, some, fun _ => rfl⟩

/-- `lz4_flex::compress_prepend_size`: the length as a `u32`, and the block. -/
def Lz4.compressPrependSize (lz4 : Lz4) (data : List UInt8) : List UInt8 :=
  leBytes 4 data.length ++ lz4.compress data

/-- lz4.rs:32-52 and 54-90 -/
def Lz4.decompressSizePrependedExact (lz4 : Lz4) (input : List UInt8) (expectedSize : Nat) :
    Except Error (List UInt8) :=
  if input.length < 4 then .error .lz4Short
  else
    let advertisedSize := ofLeBytes (input.take 4)
    if advertisedSize ≠ expectedSize then .error (.lz4SizePrefix advertisedSize expectedSize)
    else
      match lz4.decompress (input.drop 4) with
      | none => .error .lz4Failed
      | some decoded =>
        if decoded.length ≠ expectedSize then .error (.lz4Size decoded.length expectedSize) else .ok decoded

/-! ## Builder -/

/-- L41 -/
def pageHeaderSize : Nat := 24

/-- L42 -/
def pageMagic : List UInt8 := [0x42, 0x53, 0x48, 0x32]

/-- `none` when `n + 7` overflows. L46-48 -/
def alignUp8 (n : Nat) : Option Nat := if n + 7 < 2 ^ 32 then some ((n + 7) / 8 * 8) else none

/-- L51-68 -/
structure PageBuilder where
  data : List UInt8
  (typeSize maxCount count : Nat)

namespace PageBuilder

/-- `none` when the capacity overflows. L76-90 -/
def new (typeSize pageSize : Nat) : Option PageBuilder :=
  let maxCount := pageSize / typeSize % 2 ^ 32
  (alignUp8 maxCount).map fun _ => ⟨[], typeSize, maxCount, 0⟩

variable (builder : PageBuilder)

/-- The builder, and how many of the elements it took. L104-132 -/
def add (vals : List UInt8) (count : Nat) : PageBuilder × Nat :=
  let toAdd := min (builder.maxCount - builder.count) count
  let bytesToAdd := toAdd * builder.typeSize
  if vals.length < bytesToAdd then (builder, 0)
  else ({ builder with data := builder.data ++ vals.take bytesToAdd, count := builder.count + toAdd }, toAdd)

/-- L135-148 -/
def addOne (elem : List UInt8) : PageBuilder × Bool :=
  if builder.maxCount ≤ builder.count ∨ elem.length ≠ builder.typeSize then (builder, false)
  else ({ builder with data := builder.data ++ elem, count := builder.count + 1 }, true)

/-- L99-101 -/
def isPageFull : Bool := decide (builder.maxCount ≤ builder.count)

/-- L191-197 -/
def reset : PageBuilder := { builder with data := [], count := 0 }

/-- `none` when the padded count overflows. L151-188 -/
def finish (lz4 : Lz4) (builder : PageBuilder) : Option (List UInt8) :=
  (alignUp8 builder.count).map fun paddedCount =>
    let padded := builder.data ++ List.replicate ((paddedCount - builder.count) * builder.typeSize) 0
    let compressed := lz4.compressPrependSize (bitshuffle padded builder.typeSize)
    leBytes 4 builder.count ++ (leBytes 4 (pageHeaderSize + compressed.length) ++ (leBytes 4 paddedCount ++
      (leBytes 4 builder.typeSize ++ (pageMagic ++ (leBytes 4 blockElements ++ compressed)))))

end PageBuilder

/-! ## Decoder -/

/-- A decoder after `init`. L231-258 -/
structure PageDecoder where
  shuffledData : List UInt8
  decodedData : Option (List UInt8)
  (numElements paddedNumElements typeSize blockElements curIndex : Nat)
  streamSequential : Bool

namespace PageDecoder

def field (data : List UInt8) (at_ : Nat) : Nat := ofLeBytes ((data.drop at_).take 4)

/-- L346-461 -/
def init (lz4 : Lz4) (data : List UInt8) (expectedNumElements expectedTypeSize : Nat) : Except Error PageDecoder :=
  if data.length < pageHeaderSize then .error .dataTooSmall
  else if (data.drop 16).take 4 ≠ pageMagic then .error .format
  else if field data 20 ≠ L1.BitShuffle.blockElements then .error (.blockElementCount (field data 20))
  else if field data 4 ≠ data.length then .error (.encodedSize (field data 4) data.length)
  else if field data 0 ≠ expectedNumElements then .error (.elementCount (field data 0) expectedNumElements)
  else
    match alignUp8 expectedNumElements with
    | none => .error .paddedOverflow
    | some expectedPadded =>
      if field data 8 ≠ expectedPadded then .error .paddedCount
      else if field data 12 ∉ [1, 2, 4, 8, 16] then .error (.typeSize (field data 12))
      else if field data 12 ≠ expectedTypeSize then .error (.schemaTypeSize (field data 12) expectedTypeSize)
      else
        match lz4.decompressSizePrependedExact (data.drop pageHeaderSize) (expectedPadded * expectedTypeSize) with
        | .error e => .error e
        | .ok decompressed =>
          .ok
            { shuffledData := decompressed
              decodedData := none
              numElements := field data 0
              paddedNumElements := field data 8
              typeSize := field data 12
              blockElements := field data 20
              curIndex := 0
              streamSequential := false }

variable (decoder : PageDecoder)

/-- L839-847, with `materialize_into` (794-816) -/
def ensureMaterialized : Except Error PageDecoder :=
  match decoder.decodedData with
  | some _ => .ok decoder
  | none =>
    let size := decoder.paddedNumElements * decoder.typeSize
    match bitunshuffleInto decoder.shuffledData decoder.typeSize decoder.blockElements (fun _ => 0) size with
    | .error e => .error e
    | .ok decoded => .ok { decoder with decodedData := some (bytesOf decoded size) }

/-- L726-744 -/
def validateGatherIndices (sourceIdx outputIdx outputRows : Nat) : Except Error Unit :=
  if decoder.numElements ≤ sourceIdx then .error (.valueIndex sourceIdx decoder.numElements)
  else if outputRows ≤ outputIdx then .error (.gatherIndex outputIdx outputRows)
  else .ok ()

/-- `copy_fixed_unaligned`: `size` bytes from one place to another. L851-858 -/
def copyFixed (source : Nat → UInt8) (sourceStart outputStart size : Nat) (output : Buffer) : Buffer :=
  (List.range size).foldl (fun output i => write output (outputStart + i, source (sourceStart + i))) output

structure GatherState where
  (output group : Buffer)
  groupStart : Option Nat

variable (validate : Bool)

/-- One round of the gather on the planes. L690-722 -/
def gatherStep (outputRows : Nat) (state : GatherState) (value : Nat × Nat) : Except Error GatherState :=
  match (if validate then decoder.validateGatherIndices value.1 value.2 outputRows else .ok ()) with
  | .error e => .error e
  | .ok () =>
    let blockStart := value.1 / decoder.blockElements * decoder.blockElements
    let rowInBlock := value.1 - blockStart
    let groupStart := blockStart + rowInBlock / 8 * 8
    match (if state.groupStart ≠ some groupStart then
        decodeBitSlicedGroup decoder.shuffledData groupStart decoder.paddedNumElements decoder.typeSize
          decoder.blockElements state.group
      else .ok state.group) with
    | .error e => .error e
    | .ok group =>
      .ok
        { output := copyFixed group ((value.1 - groupStart) * decoder.typeSize) (value.2 * decoder.typeSize)
            decoder.typeSize state.output
          group
          groupStart := some groupStart }

/-- One round of the gather on the materialized page. L664-680 -/
def gatherDecodedStep (decoded : List UInt8) (outputRows : Nat) (output : Buffer)
    (value : Nat × Nat) : Except Error Buffer :=
  match (if validate then decoder.validateGatherIndices value.1 value.2 outputRows else .ok ()) with
  | .error e => .error e
  | .ok () =>
    .ok (copyFixed (decoded.getD · 0) (value.1 * decoder.typeSize) (value.2 * decoder.typeSize) decoder.typeSize output)

/-- L651-724 -/
def gatherFixedValues (values : List (Nat × Nat)) (output : Buffer) (outputLen : Nat) : Except Error Buffer :=
  let outputRows := outputLen / decoder.typeSize
  match decoder.decodedData with
  | some decoded => values.foldlM (decoder.gatherDecodedStep validate decoded outputRows) output
  | none => (values.foldlM (decoder.gatherStep validate outputRows) ⟨output, fun _ => 0, none⟩).map (·.output)

/-- L585-611, and 620-649 without the validation of indices -/
def gatherValuesAt (values : List (Nat × Nat)) (output : Buffer) (outputLen : Nat) : Except Error Buffer :=
  if outputLen % decoder.typeSize ≠ 0 then .error .gatherAlignment
  else decoder.gatherFixedValues validate values output outputLen

/-- L481-518 -/
def nextBatch (n : Nat) : Except Error ((Nat × List UInt8) × PageDecoder) :=
  let toRead := min n (decoder.numElements - decoder.curIndex)
  if toRead = 0 then .ok ((0, []), decoder)
  else if decoder.streamSequential ∧ decoder.decodedData = none then
    match decoder.gatherValuesAt false ((List.range toRead).map fun i => (decoder.curIndex + i, i)) (fun _ => 0)
        (toRead * decoder.typeSize) with
    | .error e => .error e
    | .ok output =>
      .ok ((toRead, bytesOf output (toRead * decoder.typeSize)), { decoder with curIndex := decoder.curIndex + toRead })
  else
    match decoder.ensureMaterialized with
    | .error e => .error e
    | .ok decoder =>
      let start := decoder.curIndex * decoder.typeSize
      .ok ((toRead, ((decoder.decodedData.getD []).drop start).take (toRead * decoder.typeSize)),
        { decoder with curIndex := decoder.curIndex + toRead })

/-- L540-577, for an output of the element width -/
def copyValueAt (idx : Nat) : Except Error (List UInt8) :=
  if decoder.numElements ≤ idx then .error (.valueIndex idx decoder.numElements)
  else
    match decoder.decodedData with
    | some decoded => .ok ((decoded.drop (idx * decoder.typeSize)).take decoder.typeSize)
    | none =>
      copyBitSlicedValue decoder.shuffledData idx decoder.paddedNumElements decoder.typeSize decoder.blockElements

/-- L521-534 -/
def valueAt (idx : Nat) : Option (List UInt8) :=
  if decoder.numElements ≤ idx then none
  else
    match decoder.decodedData with
    | some decoded => some ((decoded.drop (idx * decoder.typeSize)).take decoder.typeSize)
    | none => (decoder.copyValueAt idx).toOption

end PageDecoder

/-! ## A decoder of a page -/

/-- The decoder of the page of `count` elements, whose padded bytes are `padded`. -/
structure Opened (decoder : PageDecoder) (padded : List UInt8) (typeSize count : Nat) : Prop where
  size : decoder.typeSize = typeSize
  width : typeSize ∈ [1, 2, 4, 8, 16]
  num : decoder.numElements = count
  le : count ≤ decoder.paddedNumElements
  aligned : decoder.paddedNumElements % 8 = 0
  block : decoder.blockElements = blockElements
  shuffled : Shuffled padded decoder.shuffledData typeSize decoder.paddedNumElements
  decoded : decoder.decodedData = none ∨ decoder.decodedData = some padded

variable (padded : List UInt8)

def elements (typeSize start n : Nat) : List UInt8 :=
  (padded.drop (start * typeSize)).take (n * typeSize)

def place (typeSize : Nat) (output : Buffer) (value : Nat × Nat) : Buffer := fun i =>
  if value.2 * typeSize ≤ i ∧ i < value.2 * typeSize + typeSize then
    padded.getD (value.1 * typeSize + (i - value.2 * typeSize)) 0
  else output i

variable {decoder : PageDecoder} {padded} {typeSize count : Nat}

theorem pos_of_width (h : typeSize ∈ [1, 2, 4, 8, 16]) : 0 < typeSize :=
  pos_of_ne_zero fun hzero => by simp [hzero] at h

open PageDecoder hiding blockElements

theorem copyFixed_eq {source : Nat → UInt8} {sourceStart idx outputIdx : Nat} (output : Buffer)
    (h : ∀ i < typeSize, source (sourceStart + i) = padded.getD (idx * typeSize + i) 0) :
    copyFixed source sourceStart (outputIdx * typeSize) typeSize output =
      place padded typeSize output (idx, outputIdx) := by
  funext i
  have hflat : copyFixed source sourceStart (outputIdx * typeSize) typeSize output =
      ((range typeSize).map fun i => (outputIdx * typeSize + i, source (sourceStart + i))).foldl write output := by
    rw [foldl_map]
    rfl
  rw [hflat, place]
  dsimp only
  split
  · rename_i hin
    refine foldl_write (fun w hw hwi => ?_) (.inl ?_)
    · obtain ⟨k, hk, rfl⟩ := mem_map.1 hw
      have hk' : i - outputIdx * typeSize = k := by
        dsimp only at hwi
        omega
      dsimp only
      rw [h k (mem_range.1 hk), hk']
    · refine ⟨_, mem_map.2 ⟨i - outputIdx * typeSize, mem_range.2 (by omega), rfl⟩, ?_⟩
      dsimp only
      omega
  · rename_i hout
    refine foldl_write_other fun w hw => ?_
    obtain ⟨k, hk, rfl⟩ := mem_map.1 hw
    have := mem_range.1 hk
    dsimp only
    omega

variable {validate : Bool} {outputRows : Nat} {value : Nat × Nat}

theorem Opened.validate_eq (h : Opened decoder padded typeSize count)
    (hsource : value.1 < count) (htarget : validate = true → value.2 < outputRows) :
    (if validate then decoder.validateGatherIndices value.1 value.2 outputRows else .ok ()) = .ok () := by
  split
  · rename_i hv
    have := htarget hv
    rw [validateGatherIndices, if_neg (by rw [h.num]; omega), if_neg (by omega)]
  · rfl

def GroupOk (padded : List UInt8) (typeSize : Nat) (state : PageDecoder.GatherState) : Prop :=
  ∀ start, state.groupStart = some start →
    ∀ i < 8 * typeSize, state.group i = padded.getD (start * typeSize + i) 0

theorem Opened.gatherStep (h : Opened decoder padded typeSize count)
    {state : PageDecoder.GatherState} (hgroup : GroupOk padded typeSize state)
    (hsource : value.1 < count) (htarget : validate = true → value.2 < outputRows) :
    ∃ next, decoder.gatherStep validate outputRows state value = .ok next ∧
      next.output = place padded typeSize state.output value ∧
      GroupOk padded typeSize next := by
  have hle := h.le
  have haligned := h.aligned
  unfold PageDecoder.gatherStep
  rw [h.validate_eq hsource htarget, h.block]
  dsimp only
  -- the group of the element, in its block
  have hstart : value.1 / blockElements * blockElements +
      (value.1 - value.1 / blockElements * blockElements) / 8 * 8 = value.1 / 8 * 8 := by
    rw [blockElements]
    omega
  rw [hstart]
  obtain ⟨group, hdecode, hvalues⟩ : ∃ group, (if state.groupStart ≠ some (value.1 / 8 * 8) then
        decodeBitSlicedGroup decoder.shuffledData (value.1 / 8 * 8) decoder.paddedNumElements decoder.typeSize
          blockElements state.group
      else .ok state.group) = .ok group ∧
      ∀ i < 8 * typeSize, group i = padded.getD (value.1 / 8 * 8 * typeSize + i) 0 := by
    split
    · rw [h.size]
      exact decodeBitSlicedGroup_eq h.shuffled haligned (Nat.mul_mod_left _ _) (by omega) _
    · rename_i hcached
      exact ⟨state.group, rfl, hgroup _ (not_not.1 hcached)⟩
  rw [hdecode, h.size]
  refine ⟨_, rfl, ?_, fun start hs => Option.some.inj hs ▸ hvalues⟩
  refine copyFixed_eq state.output fun i hi => ?_
  have hrow : value.1 - value.1 / 8 * 8 < 8 := by omega
  have hbyte : (value.1 - value.1 / 8 * 8) * typeSize + i < 8 * typeSize := by
    calc (value.1 - value.1 / 8 * 8) * typeSize + i < (value.1 - value.1 / 8 * 8) * typeSize + typeSize := by omega
      _ = (value.1 - value.1 / 8 * 8 + 1) * typeSize := (Nat.succ_mul _ _).symm
      _ ≤ 8 * typeSize := Nat.mul_le_mul_right _ hrow
  rw [hvalues _ hbyte, ← add_assoc, ← Nat.add_mul, show value.1 / 8 * 8 + (value.1 - value.1 / 8 * 8) = value.1 by
    omega]

variable {values : List (Nat × Nat)} {start n i : Nat}

section
variable (h : Opened decoder padded typeSize count)
include h

theorem Opened.gatherPlanes {validate : Bool} {outputRows : Nat} (hsource : ∀ v ∈ values, v.1 < count)
    (htarget : validate = true → ∀ v ∈ values, v.2 < outputRows) {state : PageDecoder.GatherState}
    (hgroup : GroupOk padded typeSize state) :
    (values.foldlM (decoder.gatherStep validate outputRows) state).map (·.output) =
      .ok (values.foldl (place padded typeSize) state.output) := by
  induction values generalizing state with
  | nil => rfl
  | cons v values ih =>
    obtain ⟨next, hstep, houtput, hnext⟩ := h.gatherStep hgroup (hsource v mem_cons_self)
      fun hv : validate = true => htarget hv v mem_cons_self
    rw [foldlM_cons, hstep, foldl_cons, ← houtput]
    exact ih (fun u hu => hsource u (mem_cons_of_mem v hu)) (fun hv u hu => htarget hv u (mem_cons_of_mem v hu)) hnext

/-- A gather copies the elements one after the other. -/
theorem Opened.gather {validate : Bool} {values : List (Nat × Nat)} {output : Buffer} {rows : Nat}
    (hsource : ∀ v ∈ values, v.1 < count) (htarget : ∀ v ∈ values, v.2 < rows) :
    decoder.gatherValuesAt validate values output (rows * typeSize) =
      .ok (values.foldl (place padded typeSize) output) := by
  have hrows : rows * typeSize / typeSize = rows := Nat.mul_div_cancel _ (pos_of_width h.width)
  unfold gatherValuesAt gatherFixedValues
  rw [h.size, if_neg (by simp), hrows]
  rcases h.decoded with hnone | hsome
  · rw [hnone]
    exact h.gatherPlanes hsource (fun _ => htarget) fun _ hs => by cases hs
  rw [hsome]
  refine foldlM_ok (fun output v hv => ?_) output
  rw [gatherDecodedStep, h.validate_eq (hsource v hv) fun _ => htarget v hv, h.size]
  exact congrArg Except.ok (copyFixed_eq output fun _ _ => rfl)

theorem length_elements (hle : start + n ≤ count) : (elements padded typeSize start n).length = n * typeSize := by
  have hsize := h.shuffled.size
  have hbound := h.le
  have hmul : (start + n) * typeSize ≤ decoder.paddedNumElements * typeSize := Nat.mul_le_mul_right _ (by omega)
  rw [elements, length_take, length_drop, hsize]
  rw [Nat.add_mul] at hmul
  omega

end

theorem getD_elements (hi : i < n * typeSize) :
    (elements padded typeSize start n).getD i 0 = padded.getD (start * typeSize + i) 0 := by
  rw [elements, getD_eq_getElem?_getD, getElem?_take, if_pos hi, getElem?_drop, ← getD_eq_getElem?_getD]

theorem bytesOf_list {buffer : Buffer} {bytes : List UInt8}
    (h : ∀ i < bytes.length, buffer i = bytes.getD i 0) : bytesOf buffer bytes.length = bytes := by
  refine ext_getElem (length_bytesOf ..) fun i _ hi => ?_
  rw [← getD_eq_getElem _ 0, ← getD_eq_getElem _ 0 hi, getD_bytesOf hi, h i hi]

/-- A buffer with the bytes of elements. -/
theorem bytesOf_eq (h : Opened decoder padded typeSize count) {start n : Nat} (hle : start + n ≤ count)
    {buffer : Buffer} (hbuffer : ∀ i < n * typeSize, buffer i = padded.getD (start * typeSize + i) 0) :
    bytesOf buffer (n * typeSize) = elements padded typeSize start n := by
  rw [← length_elements h hle] at hbuffer ⊢
  refine bytesOf_list fun i hi => ?_
  rw [hbuffer i hi, getD_elements (length_elements h hle ▸ hi)]

/-- What a run of neighbouring elements leaves in the output. -/
theorem foldl_place_range (hi : i < n * typeSize) (output : Buffer) :
    ((List.range n).map fun k => (start + k, k)).foldl (place padded typeSize) output i =
      padded.getD (start * typeSize + i) 0 := by
  induction n with
  | zero => simp at hi
  | succ n ih =>
    rw [range_succ, map_append, foldl_append, map_singleton, foldl_cons, foldl_nil, place]
    split
    · rename_i hin
      dsimp only at hin ⊢
      congr 1
      rw [Nat.add_mul]
      omega
    · rename_i hout
      dsimp only at hout
      rw [Nat.succ_mul] at hi
      exact ih (by omega)

section
variable (h : Opened decoder padded typeSize count)
include h

theorem Opened.ensureMaterialized : decoder.ensureMaterialized = .ok { decoder with decodedData := some padded } := by
  unfold PageDecoder.ensureMaterialized
  rcases h.decoded with hnone | hsome
  · rw [hnone]
    dsimp only
    obtain ⟨result, hunshuffle, hresult⟩ := bitunshuffleInto_eq h.shuffled h.aligned h.width fun _ => 0
    rw [h.size, h.block, hunshuffle]
    dsimp only
    rw [← h.shuffled.size] at hresult ⊢
    rw [bytesOf_list hresult, ← h.size, ← h.block]
  · rw [hsome]
    dsimp only
    rw [← hsome]

/-- **Batches**, in either mode. -/
theorem Opened.nextBatch (hcur : decoder.curIndex ≤ count) (n : Nat) : ∃ next, decoder.nextBatch n =
        .ok ((min n (count - decoder.curIndex), elements padded typeSize decoder.curIndex
          (min n (count - decoder.curIndex))), next) ∧
      Opened next padded typeSize count ∧
      next.curIndex = decoder.curIndex + min n (count - decoder.curIndex) ∧
      next.streamSequential = decoder.streamSequential := by
  obtain rfl := h.size
  obtain rfl := h.num
  unfold nextBatch
  dsimp only
  split
  · rename_i hzero
    rw [hzero]
    refine ⟨decoder, ?_, h, by rw [add_zero], rfl⟩
    rw [elements, Nat.zero_mul, take_zero]
  · split
    · rw [@Opened.gather _ _ _ _ h _ _ _ (min n (decoder.numElements - decoder.curIndex))]
      · dsimp only
        rw [@bytesOf_eq _ _ _ _ h decoder.curIndex _ (by omega) _ fun i hi => foldl_place_range hi _]
        exact ⟨_, rfl, { h with size := rfl, num := rfl }, rfl, rfl⟩
      · intro v hv
        obtain ⟨k, hk, rfl⟩ := mem_map.1 hv
        have := mem_range.1 hk
        dsimp only
        omega
      · intro v hv
        obtain ⟨k, hk, rfl⟩ := mem_map.1 hv
        exact mem_range.1 hk
    · rw [h.ensureMaterialized]
      exact ⟨_, rfl, { h with size := rfl, num := rfl, decoded := .inr rfl }, rfl, rfl⟩

theorem Opened.copyValueAt {idx : Nat} (hidx : idx < count) :
    decoder.copyValueAt idx = .ok (elements padded typeSize idx 1) := by
  have hle := h.le
  unfold PageDecoder.copyValueAt
  rw [if_neg (by rw [h.num]; omega)]
  rcases h.decoded with hnone | hsome
  · rw [hnone]
    dsimp only
    rw [h.size, h.block, copyBitSlicedValue_eq h.shuffled h.aligned (by omega)]
    have := @bytesOf_eq _ _ _ _ h idx 1 (by omega) (fun i => padded.getD (idx * typeSize + i) 0)
      fun _ _ => rfl
    rw [one_mul] at this
    exact congrArg Except.ok this
  · rw [hsome, h.size, elements, one_mul]

theorem Opened.valueAt {idx : Nat} (hidx : idx < count) :
    decoder.valueAt idx = some (elements padded typeSize idx 1) := by
  unfold PageDecoder.valueAt
  rw [if_neg (by rw [h.num]; omega)]
  rcases h.decoded with hnone | hsome
  · rw [hnone, h.copyValueAt hidx]
    rfl
  · rw [hsome, h.size, elements, one_mul]

end

/-! ## What the builder writes -/

namespace PageBuilder

def addAll (builder : PageBuilder) : List (List UInt8 × Nat) → PageBuilder × List UInt8
  | [] => (builder, [])
  | call :: calls =>
    let added := builder.add call.1 call.2
    let rest := addAll added.1 calls
    (rest.1, call.1.take (added.2 * builder.typeSize) ++ rest.2)

structure Holds (builder : PageBuilder) (data : List UInt8) : Prop where
  buffer : builder.data = data
  length : data.length = builder.count * builder.typeSize
  le : builder.count ≤ builder.maxCount
  fits : builder.maxCount + 7 < 2 ^ 32

variable {builder : PageBuilder} {data : List UInt8}

theorem holds_new {pageSize : Nat} (h : new typeSize pageSize = some builder) :
    Holds builder [] ∧ builder.typeSize = typeSize := by
  obtain ⟨aligned, haligned, rfl⟩ := Option.map_eq_some_iff.1 h
  rw [alignUp8] at haligned
  split at haligned
  · rename_i hfits
    exact ⟨⟨rfl, (Nat.zero_mul _).symm, Nat.zero_le _, hfits⟩, rfl⟩
  · cases haligned

section
variable (h : Holds builder data)
include h

theorem Holds.add (vals : List UInt8) (count : Nat) :
    Holds (builder.add vals count).1 (data ++ vals.take ((builder.add vals count).2 * builder.typeSize)) ∧
      (builder.add vals count).1.typeSize = builder.typeSize := by
  have hle := h.le
  unfold PageBuilder.add
  dsimp only
  split
  · simpa using h
  rename_i henough
  refine ⟨⟨by rw [h.buffer], ?_, ?_, h.fits⟩, rfl⟩
  · dsimp only
    rw [length_append, h.length, length_take, min_eq_left (by omega), Nat.add_mul]
  · dsimp only
    omega

theorem Holds.addOne (hroom : builder.count < builder.maxCount) {elem : List UInt8}
    (helem : elem.length = builder.typeSize) :
    ∃ next, builder.addOne elem = (next, true) ∧ Holds next (data ++ elem) ∧ next.count = builder.count + 1 ∧
      next.typeSize = builder.typeSize ∧ next.maxCount = builder.maxCount := by
  rw [PageBuilder.addOne, if_neg (by omega)]
  refine ⟨_, rfl, ⟨by rw [h.buffer], ?_, hroom, h.fits⟩, rfl, rfl, rfl⟩
  dsimp only
  rw [length_append, h.length, helem, Nat.succ_mul]

theorem Holds.reset : Holds builder.reset [] :=
  ⟨rfl, (Nat.zero_mul _).symm, Nat.zero_le _, h.fits⟩

theorem Holds.addAll (calls : List (List UInt8 × Nat)) :
    Holds (builder.addAll calls).1 (data ++ (builder.addAll calls).2) ∧
      (builder.addAll calls).1.typeSize = builder.typeSize := by
  induction calls generalizing builder data with
  | nil => simpa [PageBuilder.addAll] using h
  | cons call calls ih =>
    obtain ⟨hadd, hsize⟩ := h.add call.1 call.2
    obtain ⟨hall, hsize'⟩ := ih hadd
    rw [append_assoc] at hall
    exact ⟨hall, hsize'.trans hsize⟩

end

end PageBuilder

def paddedCount (count : Nat) : Nat := (count + 7) / 8 * 8

def paddedData (data : List UInt8) (typeSize count : Nat) : List UInt8 :=
  data ++ List.replicate ((paddedCount count - count) * typeSize) 0

def compressedData (lz4 : Lz4) (data : List UInt8) (typeSize count : Nat) : List UInt8 :=
  lz4.compressPrependSize (bitshuffle (paddedData data typeSize count) typeSize)

def pageBytes (lz4 : Lz4) (data : List UInt8) (typeSize count : Nat) : List UInt8 :=
  leBytes 4 count ++ (leBytes 4 (pageHeaderSize + (compressedData lz4 data typeSize count).length) ++
    (leBytes 4 (paddedCount count) ++ (leBytes 4 typeSize ++ (pageMagic ++ (leBytes 4 blockElements ++
      compressedData lz4 data typeSize count)))))

variable {lz4 : Lz4} {data : List UInt8}

theorem finish_eq {builder : PageBuilder} (h : builder.Holds data) :
    builder.finish lz4 = some (pageBytes lz4 data builder.typeSize builder.count) := by
  have hle := h.le
  have hfits := h.fits
  rw [PageBuilder.finish, alignUp8, if_pos (by omega), Option.map_some, h.buffer]
  rfl

theorem length_page (lz4 : Lz4) (data : List UInt8) (typeSize count : Nat) :
    (pageBytes lz4 data typeSize count).length = 24 + (compressedData lz4 data typeSize count).length := by
  simp only [pageBytes, length_append, length_leBytes]
  show 4 + (4 + (4 + (4 + (4 + (4 + _))))) = _
  omega

theorem field_eq {page rest : List UInt8} {at_ n : Nat} (h : page.drop at_ = leBytes 4 n ++ rest) :
    field page at_ = n % 2 ^ 32 := by
  rw [field, h, take_left' (length_leBytes 4 n), ofLeBytes_leBytes_mod,
    show (256 : Nat) ^ 4 = 2 ^ 32 from rfl]

/-- The sizes that are written as `u32` fit: the elements with their padding, and the page. -/
def Fits (lz4 : Lz4) (data : List UInt8) (typeSize count : Nat) : Prop :=
  paddedCount count * typeSize < 2 ^ 32 ∧
    pageHeaderSize + 4 + (lz4.compress (bitshuffle (paddedData data typeSize count) typeSize)).length < 2 ^ 32

theorem length_paddedData (hlen : data.length = count * typeSize) :
    (paddedData data typeSize count).length = paddedCount count * typeSize := by
  have hle : count ≤ paddedCount count := by
    rw [paddedCount]
    omega
  rw [paddedData, length_append, length_replicate, hlen, ← Nat.add_mul,
    show count + (paddedCount count - count) = paddedCount count by omega]

theorem length_compressedData : (compressedData lz4 data typeSize count).length =
      4 + (lz4.compress (bitshuffle (paddedData data typeSize count) typeSize)).length := by
  rw [compressedData, Lz4.compressPrependSize, length_append, length_leBytes]

theorem shuffled_page (hts : 0 < typeSize) (hlen : data.length = count * typeSize) :
    Shuffled (paddedData data typeSize count) (bitshuffle (paddedData data typeSize count) typeSize) typeSize
      (paddedCount count) :=
  shuffled_bitshuffle hts (Nat.mul_mod_left _ _) (length_paddedData hlen)

/-- Decompression checks the size that is stored in front of the block. -/
theorem decompress_page (hts : 0 < typeSize) (hlen : data.length = count * typeSize) :
    lz4.decompressSizePrependedExact (compressedData lz4 data typeSize count) (paddedCount count * typeSize) =
      if paddedCount count * typeSize % 2 ^ 32 = paddedCount count * typeSize then
        .ok (bitshuffle (paddedData data typeSize count) typeSize)
      else .error (.lz4SizePrefix (paddedCount count * typeSize % 2 ^ 32) (paddedCount count * typeSize)) := by
  have hshuffled := (shuffled_page hts hlen).length
  have hprefix : (leBytes 4 (bitshuffle (paddedData data typeSize count) typeSize).length).length = 4 :=
    length_leBytes 4 _
  unfold Lz4.decompressSizePrependedExact
  rw [if_neg (by rw [length_compressedData]; omega), compressedData, Lz4.compressPrependSize, take_left' hprefix,
    drop_left' hprefix, ofLeBytes_leBytes_mod, hshuffled, lz4.decompress_compress,
    show (256 : Nat) ^ 4 = 2 ^ 32 from rfl]
  dsimp only
  by_cases hfit : paddedCount count * typeSize % 2 ^ 32 = paddedCount count * typeSize
  · rw [if_pos hfit, if_neg (not_not.2 hfit), if_neg (not_not.2 hshuffled)]
  · rw [if_neg hfit, if_pos hfit]

def decoderOf (data : List UInt8) (typeSize count : Nat) : PageDecoder where
  shuffledData := bitshuffle (paddedData data typeSize count) typeSize
  decodedData := none
  numElements := count
  paddedNumElements := paddedCount count
  typeSize := typeSize
  blockElements := blockElements
  curIndex := 0
  streamSequential := false

section
variable (hts : typeSize ∈ [1, 2, 4, 8, 16]) (hlen : data.length = count * typeSize)
include hts hlen

theorem opened_decoderOf : Opened (decoderOf data typeSize count) (paddedData data typeSize count) typeSize count := by
  refine ⟨rfl, hts, rfl, ?_, Nat.mul_mod_left _ _, rfl, shuffled_page (pos_of_width hts) hlen, .inl rfl⟩
  show count ≤ (count + 7) / 8 * 8
  omega

/-- **Opening a page** succeeds exactly when its sizes fit. -/
theorem init_page (hcount : count + 7 < 2 ^ 32) : (Fits lz4 data typeSize count →
      init lz4 (pageBytes lz4 data typeSize count) count typeSize = .ok (decoderOf data typeSize count)) ∧
    (¬ Fits lz4 data typeSize count → ∃ e, init lz4 (pageBytes lz4 data typeSize count) count typeSize = .error e) := by
  have hsmall : typeSize < 2 ^ 32 := by
    simp only [mem_cons, not_mem_nil, or_false] at hts
    omega
  have hpadded : paddedCount count < 2 ^ 32 := by
    rw [paddedCount]
    omega
  have hlength := length_page lz4 data typeSize count
  have hcompressed := @length_compressedData typeSize count lz4 data
  obtain ⟨page, hpage⟩ : ∃ page, page = pageBytes lz4 data typeSize count := ⟨_, rfl⟩
  rw [← hpage] at hlength ⊢
  have h0 : page.drop 0 = leBytes 4 count ++ _ := hpage
  have h4 : page.drop 4 = _ := drop_field h0 rfl
  have h8 : page.drop 8 = _ := drop_field h4 rfl
  have h12 : page.drop 12 = _ := drop_field h8 rfl
  have h16 : page.drop 16 = _ := drop_field h12 rfl
  have h20 : page.drop 20 = _ := drop_field h16 rfl
  have h24 : page.drop pageHeaderSize = _ := drop_field h20 rfl
  have f0 : field page 0 = count := by rw [field_eq h0, Nat.mod_eq_of_lt (by omega)]
  have f8 : field page 8 = paddedCount count := by rw [field_eq h8, Nat.mod_eq_of_lt hpadded]
  have f12 : field page 12 = typeSize := by rw [field_eq h12, Nat.mod_eq_of_lt hsmall]
  have f20 : field page 20 = blockElements := by rw [field_eq h20, Nat.mod_eq_of_lt (by decide)]
  have hmagic : ¬ (page.drop 16).take 4 ≠ pageMagic := by
    rw [h16]
    exact not_not.2 (take_left' rfl)
  -- the checks that every written page passes
  have hinit : init lz4 page count typeSize =
      if (pageHeaderSize + (compressedData lz4 data typeSize count).length) % 2 ^ 32 ≠ page.length then
        .error (.encodedSize ((pageHeaderSize + (compressedData lz4 data typeSize count).length) % 2 ^ 32) page.length)
      else if paddedCount count * typeSize % 2 ^ 32 = paddedCount count * typeSize then
        .ok (decoderOf data typeSize count)
      else .error (.lz4SizePrefix (paddedCount count * typeSize % 2 ^ 32) (paddedCount count * typeSize)) := by
    unfold init
    rw [if_neg (by rw [hlength, pageHeaderSize]; omega), if_neg hmagic, f20, if_neg (not_not.2 rfl),
      field_eq h4, f0, f8, f12]
    split
    · rfl
    rw [if_neg (not_not.2 rfl), alignUp8, if_pos hcount]
    dsimp only
    rw [if_neg (not_not.2 (show paddedCount count = (count + 7) / 8 * 8 from rfl)), if_neg (not_not.2 rfl), h24]
    show (match lz4.decompressSizePrependedExact (compressedData lz4 data typeSize count)
      (paddedCount count * typeSize) with
      | .error e => Except.error e
      | .ok decompressed => _) = _
    rw [decompress_page (pos_of_width hts) hlen]
    by_cases hfit : paddedCount count * typeSize % 2 ^ 32 = paddedCount count * typeSize
    · rw [if_pos hfit, if_pos hfit]
      rfl
    · rw [if_neg hfit, if_neg hfit]
  rw [hinit, Fits, pageHeaderSize]
  constructor
  · rintro ⟨hsize, hpage⟩
    rw [if_neg (by omega), if_pos (Nat.mod_eq_of_lt hsize)]
  · intro hnot
    split
    · exact ⟨_, rfl⟩
    · rename_i hpage
      rw [if_neg (by omega)]
      exact ⟨_, rfl⟩

end

/-- The elements of a page are those of its padded data. -/
theorem elements_paddedData (hlen : data.length = count * typeSize) (hle : start + n ≤ count) :
    elements (paddedData data typeSize count) typeSize start n = elements data typeSize start n := by
  have hmul : (start + n) * typeSize ≤ count * typeSize := Nat.mul_le_mul_right _ hle
  rw [Nat.add_mul] at hmul
  rw [elements, elements, paddedData, drop_append_of_le_length (by omega),
    take_append_of_le_length (by rw [length_drop]; omega)]

theorem foldl_place_paddedData (hlen : data.length = count * typeSize)
    (hsource : ∀ v ∈ values, v.1 < count) (output : Buffer) :
    values.foldl (place (paddedData data typeSize count) typeSize) output =
      values.foldl (place data typeSize) output := by
  refine foldl_ext _ _ output fun out v hv => ?_
  have hlt := hsource v hv
  have hmul : (v.1 + 1) * typeSize ≤ count * typeSize := Nat.mul_le_mul_right _ hlt
  rw [Nat.succ_mul] at hmul
  funext i
  rw [place, place]
  split
  · rw [paddedData, getD_append _ _ _ _ (by omega)]
  · rfl

end Paro.L2.BitShufflePage
