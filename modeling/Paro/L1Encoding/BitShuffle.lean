import Mathlib.Tactic.IntervalCases
import Mathlib.Data.List.Basic
import Paro.Core.BitBytes
import Paro.Core.MapM

/-!
# Bit shuffling

Model of the kernels of crates/storage/src/rowset/encoding/bitshuffle.rs: `bitshuffle` transposes blocks of 1024
elements into bit planes, `bitunshuffle_into` undoes it for a whole page, `decode_bit_sliced_group` for eight
elements and `copy_bit_sliced_value` for one.

`planeIndex` is the byte of the shuffled data that holds a bit of an element, and `Shuffled` says that all bits are
where it says; `bitshuffle` makes such data (`shuffled_bitshuffle`). The eight-by-eight transpose by masks and shifts
is a permutation of bits (`bit_transpose8x8`), so a group of planes gives back the bytes of its elements
(`Shuffled.group`), and every reading function rests on that.

Only the scalar path is modelled. Output buffers are memory by index (`Buffer`).
-/
namespace Paro.L1.BitShuffle

open List Nat

/-- bitshuffle.rs:43 -/
def blockElements : Nat := 1024

inductive Error
  /-- `BitShuffle value extends past decompressed page` -/
  | valuePastPage
  /-- `BitShuffle group extends past decompressed page` -/
  | groupPastPage
  /-- `BitShuffle page has an invalid decoded layout` -/
  | decodedLayout
  /-- `BitShuffle page has an invalid block layout` -/
  | blockLayout
  /-- `BitShufflePageDecoder: data too small for header` -/
  | dataTooSmall
  /-- `BitShufflePageDecoder: unsupported page format` -/
  | format
  /-- `BitShufflePageDecoder: unsupported block element count …` -/
  | blockElementCount (count : Nat)
  /-- `BitShufflePageDecoder: encoded size … does not match page size …` -/
  | encodedSize (encoded page : Nat)
  /-- `BitShufflePageDecoder: element count … does not match ordinal index …` -/
  | elementCount (count expected : Nat)
  /-- `BitShufflePageDecoder: padded element count overflow` -/
  | paddedOverflow
  /-- `BitShufflePageDecoder: invalid padded element count` -/
  | paddedCount
  /-- `BitShufflePageDecoder: invalid type size …` -/
  | typeSize (size : Nat)
  /-- `BitShufflePageDecoder: type size … does not match column schema …` -/
  | schemaTypeSize (size expected : Nat)
  /-- `LZ4 block is shorter than its size prefix` -/
  | lz4Short
  /-- `LZ4 decoded size prefix … does not match expected size …` -/
  | lz4SizePrefix (advertised expected : Nat)
  /-- `LZ4 decompression failed: …` -/
  | lz4Failed
  /-- `LZ4 decoded size … does not match expected size …` -/
  | lz4Size (decoded expected : Nat)
  /-- `BitShufflePageDecoder: value index … exceeds element count …` -/
  | valueIndex (index count : Nat)
  /-- `BitShufflePageDecoder: gather output index … exceeds row count …` -/
  | gatherIndex (index rows : Nat)
  /-- `BitShuffle gather output is not aligned to the element width` -/
  | gatherAlignment
deriving DecidableEq, Repr

def stepBy (n step : Nat) : List Nat := (range ((n + step - 1) / step)).map (· * step)

def bytesOf (buffer : Buffer) (len : Nat) : List UInt8 := (range len).map buffer

/-- bitshuffle.rs:936-961 -/
def bitshuffle (data : List UInt8) (typeSize : Nat) : List UInt8 :=
  let numElements := data.length / typeSize
  if numElements = 0 then []
  else
    let output := (stepBy numElements blockElements).foldl (fun output blockStart =>
      let elements := min (numElements - blockStart) blockElements
      let planeBytes := elements / 8
      let blockOutput := blockStart * typeSize
      (range (typeSize * 8)).foldl (fun output bit =>
        let planeOutput := blockOutput + bit * planeBytes
        (range elements).foldl (fun output element =>
          let value := data.getD ((blockStart + element) * typeSize + bit / 8) 0
          orWrite output (planeOutput + element / 8,
            ((value >>> UInt8.ofNat (bit % 8)) &&& 1) <<< UInt8.ofNat (element % 8))) output) output) fun _ => 0
    bytesOf output data.length

/-- bitshuffle.rs:1041-1048 -/
def transpose8x8 (value : BitVec 64) : BitVec 64 :=
  deltaSwap 0x00000000F0F0F0F0#64 28 (deltaSwap 0x0000CCCC0000CCCC#64 14 (deltaSwap 0x00AA00AA00AA00AA#64 7 value))

def transposePlanes (planes : List UInt8) : List UInt8 :=
  leBytes 8 (transpose8x8 (BitVec.ofNat 64 (ofLeBytes planes))).toNat

variable (data : List UInt8)

def planesAt (base planeBytes : Nat) : List UInt8 :=
  (range 8).map fun bit => data.getD (base + bit * planeBytes) 0

/-- bitshuffle.rs:964-1031, without the vector kernel -/
def bitunshuffleInto (typeSize blockElements : Nat) (output : Buffer) (outputLen : Nat) :
    Except Error Buffer :=
  if typeSize ∉ [1, 2, 4, 8, 16] ∨ data.length % typeSize ≠ 0 ∨ outputLen ≠ data.length then .error .decodedLayout
  else
    let numElements := data.length / typeSize
    if numElements = 0 then .ok output
    else if numElements % 8 ≠ 0 ∨ blockElements = 0 ∨ blockElements % 8 ≠ 0 then .error .blockLayout
    else
      .ok ((stepBy numElements blockElements).foldl (fun output blockStart =>
        let elements := min (numElements - blockStart) blockElements
        let planeBytes := elements / 8
        let blockInput := blockStart * typeSize
        (range typeSize).foldl (fun output byteIdx =>
          let planeBase := byteIdx * 8 * planeBytes
          (range planeBytes).foldl (fun output group =>
            let values := transposePlanes (planesAt data (blockInput + (planeBase + group)) planeBytes)
            let outputBase := blockInput + (group * 8 * typeSize + byteIdx)
            (range 8).foldl (fun output element =>
              write output (outputBase + element * typeSize, values.getD element 0)) output) output) output) output)

variable (shuffled : List UInt8)

/-- bitshuffle.rs:860-899 -/
def copyBitSlicedValue (idx paddedNumElements typeSize blockElements : Nat) :
    Except Error (List UInt8) :=
  let blockStart := idx / blockElements * blockElements
  let elements := min (paddedNumElements - blockStart) blockElements
  let planeBytes := elements / 8
  let rowInBlock := idx - blockStart
  let bitMask : UInt8 := 1 <<< UInt8.ofNat (rowInBlock % 8)
  let rowByte := rowInBlock / 8
  let blockOffset := blockStart * typeSize
  (range typeSize).mapM fun byteIdx =>
    let planeBase := blockOffset + byteIdx * 8 * planeBytes
    (range 8).foldlM (fun (value : UInt8) bit =>
      match shuffled[planeBase + bit * planeBytes + rowByte]? with
      | none => .error .valuePastPage
      | some encoded =>
        .ok (value ||| ((if encoded &&& bitMask ≠ 0 then 1 else 0) <<< UInt8.ofNat bit))) 0

/-- bitshuffle.rs:901-931 -/
def decodeBitSlicedGroup (groupStart paddedNumElements typeSize blockElements : Nat)
    (output : Buffer) : Except Error Buffer :=
  let blockStart := groupStart / blockElements * blockElements
  let elements := min (paddedNumElements - blockStart) blockElements
  let planeBytes := elements / 8
  let groupInBlock := (groupStart - blockStart) / 8
  let blockOffset := blockStart * typeSize
  (range typeSize).foldlM (fun output byteIdx =>
    let planeBase := blockOffset + byteIdx * 8 * planeBytes
    let lastPlaneByte := planeBase + 7 * planeBytes + groupInBlock
    if shuffled.length ≤ lastPlaneByte then .error .groupPastPage
    else
      let values := transposePlanes (planesAt shuffled (planeBase + groupInBlock) planeBytes)
      .ok ((range 8).foldl (fun output rowIdx =>
        write output (rowIdx * typeSize + byteIdx, values.getD rowIdx 0)) output)) output

/-! ## The transpose -/

/-- The place a bit of the transpose comes from. -/
def transposePlace (i : Nat) : Nat :=
  deltaPlace 0x00AA00AA00AA00AA#64 7 (deltaPlace 0x0000CCCC0000CCCC#64 14 (deltaPlace 0x00000000F0F0F0F0#64 28 i))

theorem getLsbD_transpose8x8 (value : BitVec 64) {i : Nat} (hi : i < 64) :
    (transpose8x8 value).getLsbD i = value.getLsbD (transposePlace i) := by
  have hplaces : ∀ i : Fin 64,
      ((0x00000000F0F0F0F0#64).getLsbD i = true → 28 ≤ i.val → (0x00000000F0F0F0F0#64).getLsbD (i - 28) = false) ∧
      ((0x0000CCCC0000CCCC#64).getLsbD i = true → 14 ≤ i.val → (0x0000CCCC0000CCCC#64).getLsbD (i - 14) = false) ∧
      ((0x00AA00AA00AA00AA#64).getLsbD i = true → 7 ≤ i.val → (0x00AA00AA00AA00AA#64).getLsbD (i - 7) = false) := by
    decide +kernel
  have hbound : ∀ i : Fin 64, deltaPlace 0x00000000F0F0F0F0#64 28 i < 64 ∧
      deltaPlace 0x0000CCCC0000CCCC#64 14 i < 64 := by decide +kernel
  obtain ⟨h1, -, -⟩ := hplaces ⟨i, hi⟩
  have hi2 := (hbound ⟨i, hi⟩).1
  obtain ⟨-, h2, -⟩ := hplaces ⟨_, hi2⟩
  have hi3 := (hbound ⟨_, hi2⟩).2
  obtain ⟨-, -, h3⟩ := hplaces ⟨_, hi3⟩
  rw [transpose8x8, getLsbD_deltaSwap _ hi h1, getLsbD_deltaSwap _ hi2 h2, getLsbD_deltaSwap _ hi3 h3]
  rfl

/-- Bit `bit` of the transposed byte `element` is bit `element` of plane `bit`. -/
theorem bit_transposePlanes {planes : List UInt8} {element bit : Nat} (he : element < 8) (hb : bit < 8) :
    byteBit ((transposePlanes planes).getD element 0) bit = byteBit (planes.getD bit 0) element := by
  have hplace : ∀ element bit : Fin 8, transposePlace (8 * element + bit) = 8 * bit + element := by decide +kernel
  have hbits : (BitVec.ofNat 64 (ofLeBytes planes)).getLsbD (8 * bit + element) =
    byteBit (planes.getD bit 0) element := by
    rw [BitVec.getLsbD_ofNat, testBit_ofLeBytes he, decide_eq_true (by omega), Bool.true_and]
  rw [transposePlanes, testBit_leBytes he hb]
  show (transpose8x8 _).getLsbD (8 * element + bit) = _
  rw [getLsbD_transpose8x8 _ (by omega), hplace ⟨element, he⟩ ⟨bit, hb⟩]
  exact hbits

/-! ## Places of bits -/

section
variable {data shuffled : List UInt8} {typeSize padded : Nat}

def planeBytes (padded element : Nat) : Nat :=
  min (padded - element / blockElements * blockElements) blockElements / 8

/-- The byte of the shuffled data with bit `bit` of an element. -/
def planeIndex (padded typeSize element bit : Nat) : Nat :=
  element / blockElements * blockElements * typeSize +
    (bit * planeBytes padded element + (element - element / blockElements * blockElements) / 8)

/-- All bits of the elements are where `planeIndex` says. -/
structure Shuffled (data shuffled : List UInt8) (typeSize padded : Nat) : Prop where
  size : data.length = padded * typeSize
  length : shuffled.length = padded * typeSize
  bits : ∀ element < padded, ∀ bit < typeSize * 8,
    byteBit (shuffled.getD (planeIndex padded typeSize element bit) 0) (element % 8) =
      byteBit (data.getD (element * typeSize + bit / 8) 0) (bit % 8)

variable {element bit m j : Nat}

section
variable (h8 : padded % 8 = 0) (he : element < padded) (hb : bit < typeSize * 8)
include h8 he hb

/-- The place within the block. -/
theorem planeIndex_bounds :
    element / blockElements * blockElements * typeSize ≤ planeIndex padded typeSize element bit ∧
      planeIndex padded typeSize element bit <
        element / blockElements * blockElements * typeSize + 8 * planeBytes padded element * typeSize ∧
      (element - element / blockElements * blockElements) / 8 < planeBytes padded element := by
  have hrow : (element - element / blockElements * blockElements) / 8 < planeBytes padded element := by
    rw [planeBytes, blockElements]
    omega
  refine ⟨Nat.le_add_right _ _, Nat.add_lt_add_left ?_ _, hrow⟩
  calc bit * planeBytes padded element + (element - element / blockElements * blockElements) / 8
      < bit * planeBytes padded element + planeBytes padded element := Nat.add_lt_add_left hrow _
    _ = (bit + 1) * planeBytes padded element := (succ_mul _ _).symm
    _ ≤ typeSize * 8 * planeBytes padded element := Nat.mul_le_mul_right _ hb
    _ = 8 * planeBytes padded element * typeSize := by
      rw [mul_comm typeSize 8, mul_assoc, mul_assoc, mul_comm typeSize]

theorem planeIndex_lt : planeIndex padded typeSize element bit < padded * typeSize := by
  obtain ⟨-, hlt, -⟩ := planeIndex_bounds h8 he hb
  refine lt_of_lt_of_le hlt ?_
  rw [← Nat.add_mul]
  refine Nat.mul_le_mul_right _ ?_
  rw [planeBytes, blockElements]
  omega

end

/-- Different bits are at different places. -/
theorem planeIndex_inj (h8 : padded % 8 = 0) {element' bit' : Nat} (he : element < padded)
    (hb : bit < typeSize * 8) (he' : element' < padded) (hb' : bit' < typeSize * 8)
    (hindex : planeIndex padded typeSize element bit = planeIndex padded typeSize element' bit')
    (hrow : element % 8 = element' % 8) : element = element' ∧ bit = bit' := by
  have hts : 0 < typeSize := by omega
  -- the blocks are disjoint
  have hblock : ∀ {e b}, e < padded → b < typeSize * 8 →
      planeIndex padded typeSize e b / (blockElements * typeSize) = e / blockElements := by
    intro e b he hb
    obtain ⟨hle, hlt, -⟩ := planeIndex_bounds h8 he hb
    refine Nat.div_eq_of_lt_le (by rwa [← mul_assoc]) (lt_of_lt_of_le hlt ?_)
    rw [← mul_assoc, ← Nat.add_mul]
    refine Nat.mul_le_mul_right _ ?_
    rw [planeBytes, blockElements]
    omega
  have hsame : element / blockElements = element' / blockElements := by
    rw [← hblock he hb, ← hblock he' hb', hindex]
  obtain ⟨-, -, hlt⟩ := planeIndex_bounds h8 he hb
  obtain ⟨-, -, hlt'⟩ := planeIndex_bounds h8 he' hb'
  have hplane : planeBytes padded element = planeBytes padded element' := by rw [planeBytes, planeBytes, hsame]
  rw [planeIndex, planeIndex, hsame, hplane] at hindex
  rw [hsame, hplane] at hlt
  have hrest := add_left_cancel hindex
  -- within a block, a place is a plane and a byte in it
  have hpos : 0 < planeBytes padded element' := by omega
  have hbit : bit = bit' := by
    have := congrArg (· / planeBytes padded element') hrest
    simpa [add_comm, add_mul_div_right _ _ hpos, div_eq_of_lt hlt, div_eq_of_lt hlt'] using this
  subst hbit
  have hbyte := add_left_cancel hrest
  refine ⟨?_, rfl⟩
  rw [blockElements] at hsame hbyte
  omega

/-! ## Shuffling -/

open UInt8

theorem byte_of_fin {p : UInt8 → Prop} (h : ∀ k : Fin 256, p (ofNat k)) (b : UInt8) : p b := by
  have := h ⟨b.toNat, b.toNat_lt⟩
  rwa [UInt8.ofNat_toNat] at this

theorem shift_and_one (value : UInt8) {k : Nat} (hk : k < 8) :
    (value >>> ofNat k) &&& 1 = if byteBit value k then 1 else 0 := by
  have hall : ∀ k : Fin 8, ∀ v : Fin 256, (ofNat v >>> ofNat k) &&& 1 =
      if byteBit (ofNat v) k then 1 else 0 := by decide +kernel
  exact byte_of_fin (p := fun b => (b >>> ofNat k) &&& 1 = if byteBit b k then 1 else 0) (hall ⟨k, hk⟩) value

theorem bit_shiftLeft (c : Bool) (hm : m < 8) (hj : j < 8) :
    byteBit ((if c then 1 else 0) <<< ofNat m) j = (decide (j = m) && c) := by
  have hall : ∀ c : Bool, ∀ m j : Fin 8,
      byteBit ((if c then 1 else 0) <<< ofNat m) j = (decide (j.val = m.val) && c) := by decide +kernel
  exact hall c ⟨m, hm⟩ ⟨j, hj⟩

theorem and_mask (encoded : UInt8) (hm : m < 8) : (encoded &&& 1 <<< ofNat m ≠ 0) ↔ byteBit encoded m = true := by
  have hall : ∀ m : Fin 8, ∀ v : Fin 256, (ofNat v &&& 1 <<< ofNat m ≠ 0) ↔
      byteBit (ofNat v) m = true := by decide +kernel
  exact byte_of_fin (p := fun b => (b &&& 1 <<< ofNat m ≠ 0) ↔ byteBit b m = true) (hall ⟨m, hm⟩) encoded

/-- The elements of the blocks are the elements. -/
theorem mem_stepBy {n blockStart element : Nat} :
    blockStart ∈ stepBy n blockElements ∧ element < min (n - blockStart) blockElements ↔
      blockStart + element < n ∧ (blockStart + element) / blockElements * blockElements = blockStart := by
  simp only [stepBy, blockElements, mem_map, mem_range]
  constructor
  · rintro ⟨⟨k, hk, rfl⟩, he⟩
    omega
  · rintro ⟨hlt, hblock⟩
    exact ⟨⟨(blockStart + element) / 1024, by omega, hblock⟩, by omega⟩

def shuffleWrites (data : List UInt8) (typeSize n : Nat) : List (Nat × UInt8) :=
  (stepBy n blockElements).flatMap fun blockStart =>
    (range (typeSize * 8)).flatMap fun bit =>
      (range (min (n - blockStart) blockElements)).map fun element =>
        (blockStart * typeSize + bit * (min (n - blockStart) blockElements / 8) + element / 8,
          ((data.getD ((blockStart + element) * typeSize + bit / 8) 0 >>> UInt8.ofNat (bit % 8)) &&& 1) <<<
            UInt8.ofNat (element % 8))

theorem mem_shuffleWrites {n : Nat} {w : Nat × UInt8} :
    w ∈ shuffleWrites data typeSize n ↔ ∃ element < n, ∃ bit < typeSize * 8, w = (planeIndex n typeSize element bit,
        ((data.getD (element * typeSize + bit / 8) 0 >>> ofNat (bit % 8)) &&& 1) <<< ofNat (element % 8)) := by
  simp only [shuffleWrites, mem_flatMap, mem_map, mem_range]
  constructor
  · rintro ⟨blockStart, hblock, bit, hbit, e, he, rfl⟩
    obtain ⟨hlt, hstart⟩ := mem_stepBy.1 ⟨hblock, he⟩
    refine ⟨blockStart + e, hlt, bit, hbit, ?_⟩
    rw [planeIndex, planeBytes, hstart, Nat.add_sub_cancel_left, add_assoc]
    have hrow : (blockStart + e) % 8 = e % 8 := by
      rw [blockElements] at hstart
      omega
    rw [hrow]
  · rintro ⟨element, hlt, bit, hbit, rfl⟩
    rw [planeIndex, planeBytes]
    generalize hstart : element / blockElements * blockElements = start
    have hsplit : start + (element - start) = element ∧ (element - start) % 8 = element % 8 := by
      rw [blockElements] at hstart
      omega
    obtain ⟨hblock, he⟩ := (@mem_stepBy n start (element - start)).2 (by rw [hsplit.1]; exact ⟨hlt, hstart⟩)
    refine ⟨start, hblock, bit, hbit, element - start, he, ?_⟩
    rw [hsplit.1, hsplit.2, add_assoc]

theorem getD_bytesOf {buffer : Buffer} {len i : Nat} (h : i < len) : (bytesOf buffer len).getD i 0 = buffer i := by
  rw [bytesOf, getD_eq_getElem _ _ (by simpa using h), getElem_map, getElem_range]

@[simp] theorem length_bytesOf (buffer : Buffer) (len : Nat) : (bytesOf buffer len).length = len := by
  rw [bytesOf, length_map, length_range]

theorem shuffled_bitshuffle (hts : 0 < typeSize) (h8 : padded % 8 = 0) (hsize : data.length = padded * typeSize) :
    Shuffled data (bitshuffle data typeSize) typeSize padded := by
  have hcount : data.length / typeSize = padded := by rw [hsize, Nat.mul_div_cancel _ hts]
  unfold bitshuffle
  dsimp only
  rw [hcount]
  split
  · rename_i hzero
    subst hzero
    exact ⟨hsize, by simp, fun _ h => absurd h (Nat.not_lt_zero _)⟩
  refine ⟨hsize, by rw [length_bytesOf, hsize], fun element he bit hb => ?_⟩
  rw [getD_bytesOf (by rw [hsize]; exact planeIndex_lt h8 he hb)]
  -- the loops make the writes one after the other
  have hflat : ∀ output : Buffer, (shuffleWrites data typeSize padded).foldl orWrite output =
      (stepBy padded blockElements).foldl (fun output blockStart =>
        (range (typeSize * 8)).foldl (fun output bit =>
          (range (min (padded - blockStart) blockElements)).foldl (fun output element =>
            orWrite output (blockStart * typeSize + bit * (min (padded - blockStart) blockElements / 8) + element / 8,
              ((data.getD ((blockStart + element) * typeSize + bit / 8) 0 >>> ofNat (bit % 8)) &&& 1) <<<
                ofNat (element % 8))) output) output) output := by
    intro output
    simp only [shuffleWrites, foldl_flatMap, foldl_map]
  rw [← hflat, Bool.eq_iff_iff, bit_foldl_orWrite]
  have hvalue : ∀ e b, byteBit (((data.getD (e * typeSize + b / 8) 0 >>> ofNat (b % 8)) &&& 1) <<<
      ofNat (e % 8)) (element % 8) =
        (decide (element % 8 = e % 8) && byteBit (data.getD (e * typeSize + b / 8) 0) (b % 8)) := by
    intro e b
    rw [shift_and_one _ (mod_lt _ (by decide)), bit_shiftLeft _ (mod_lt _ (by decide)) (mod_lt _ (by decide))]
  constructor
  · rintro (hzero | ⟨w, hw, hindex, hbit⟩)
    · simp [byteBit] at hzero
    · obtain ⟨e, he', b, hb', rfl⟩ := mem_shuffleWrites.1 hw
      rw [hvalue, Bool.and_eq_true, decide_eq_true_eq] at hbit
      obtain ⟨rfl, rfl⟩ := planeIndex_inj h8 he' hb' he hb hindex hbit.1.symm
      exact hbit.2
  · intro hbit
    refine .inr ⟨_, mem_shuffleWrites.2 ⟨element, he, bit, hb, rfl⟩, rfl, ?_⟩
    rw [hvalue, hbit, decide_eq_true rfl]
    rfl

/-! ## Groups of eight elements -/

/-- The planes of a group are at the places of its elements. -/
theorem planeIndex_group {group byteIdx : Nat} (hgroup : group % 8 = 0) (he : element < 8) :
    planeIndex padded typeSize (group + element) (byteIdx * 8 + bit) =
      planeIndex padded typeSize group (byteIdx * 8) + bit * planeBytes padded group := by
  have hblock : (group + element) / blockElements = group / blockElements := by
    rw [blockElements]
    omega
  have hrow : (group + element - group / blockElements * blockElements) / 8 =
      (group - group / blockElements * blockElements) / 8 := by
    rw [blockElements]
    omega
  rw [planeIndex, planeBytes, hblock, hrow, ← planeBytes, Nat.add_mul, planeIndex]
  omega

theorem Shuffled.group (h : Shuffled data shuffled typeSize padded) (h8 : padded % 8 = 0) {group byteIdx element : Nat}
    (hgroup : group % 8 = 0) (hlt : group < padded) (hbyte : byteIdx < typeSize) (he : element < 8) :
    (transposePlanes (planesAt shuffled (planeIndex padded typeSize group (byteIdx * 8))
      (planeBytes padded group))).getD
      element 0 = data.getD ((group + element) * typeSize + byteIdx) 0 := by
  refine byte_ext fun bit hbit => ?_
  rw [bit_transposePlanes he hbit, planesAt, getD_eq_getElem _ _ (by simpa using hbit), getElem_map, getElem_range,
    ← planeIndex_group hgroup he]
  have hbits := h.bits (group + element) (by omega) (byteIdx * 8 + bit) (by omega)
  rw [show (group + element) % 8 = element by omega, show (byteIdx * 8 + bit) / 8 = byteIdx by omega,
    show (byteIdx * 8 + bit) % 8 = bit by omega] at hbits
  exact hbits

/-! ## Reading -/

def unshuffleWrites (shuffled : List UInt8) (typeSize n : Nat) : List (Nat × UInt8) :=
  (stepBy n blockElements).flatMap fun blockStart =>
    (range typeSize).flatMap fun byteIdx =>
      (range (min (n - blockStart) blockElements / 8)).flatMap fun group =>
        (range 8).map fun element =>
          (blockStart * typeSize + (group * 8 * typeSize + byteIdx) + element * typeSize,
            (transposePlanes (planesAt shuffled (blockStart * typeSize +
              (byteIdx * 8 * (min (n - blockStart) blockElements / 8) + group))
              (min (n - blockStart) blockElements / 8))).getD element 0)

section
variable (h : Shuffled data shuffled typeSize padded) (h8 : padded % 8 = 0)
include h h8

/-- A write of `bitunshuffle_into` is of one byte of one element. -/
theorem mem_unshuffleWrites {w : Nat × UInt8} :
    w ∈ unshuffleWrites shuffled typeSize padded ↔ ∃ element < padded, ∃ byteIdx < typeSize,
      w = (element * typeSize + byteIdx, data.getD (element * typeSize + byteIdx) 0) := by
  -- the element of a block, a group and a place in the group
  have hwrite : ∀ {blockStart group element byteIdx}, blockStart + 8 * group < padded →
      (blockStart + 8 * group) / blockElements * blockElements = blockStart → byteIdx < typeSize → element < 8 →
      (blockStart * typeSize + (group * 8 * typeSize + byteIdx) + element * typeSize,
        (transposePlanes (planesAt shuffled (blockStart * typeSize +
          (byteIdx * 8 * (min (padded - blockStart) blockElements / 8) + group))
          (min (padded - blockStart) blockElements / 8))).getD element 0) =
        ((blockStart + 8 * group + element) * typeSize + byteIdx,
          data.getD ((blockStart + 8 * group + element) * typeSize + byteIdx) 0) := by
    intro blockStart group element byteIdx hlt hstart hbyte he
    have hmod : (blockStart + 8 * group) % 8 = 0 := by
      rw [blockElements] at hstart
      omega
    have hvalue := h.group h8 hmod hlt hbyte he
    rw [planeIndex, planeBytes, hstart, Nat.add_sub_cancel_left, Nat.mul_div_cancel_left _ (by decide)] at hvalue
    rw [hvalue, Nat.add_mul, Nat.add_mul, mul_comm group 8]
    congr 1
    omega
  simp only [unshuffleWrites, mem_flatMap, mem_map, mem_range]
  constructor
  · rintro ⟨blockStart, hblock, byteIdx, hbyte, group, hgroup, element, he, rfl⟩
    obtain ⟨hlt, hstart⟩ := mem_stepBy.1 ⟨hblock, show 8 * group < min (padded - blockStart) blockElements by omega⟩
    exact ⟨blockStart + 8 * group + element, by omega, byteIdx, hbyte, hwrite hlt hstart hbyte he⟩
  · rintro ⟨element, hlt, byteIdx, hbyte, rfl⟩
    obtain ⟨start, group, hstart, hsum⟩ : ∃ start group, (start + 8 * group) / blockElements * blockElements = start ∧
        start + 8 * group + element % 8 = element := by
      refine ⟨element / blockElements * blockElements, element % blockElements / 8, ?_⟩
      rw [blockElements]
      omega
    have hlt' : start + 8 * group < padded := by omega
    obtain ⟨hblock, hgroup⟩ := mem_stepBy.2 ⟨hlt', hstart⟩
    refine ⟨_, hblock, byteIdx, hbyte, group, ?_, element % 8, mod_lt _ (by decide), ?_⟩
    · rw [blockElements] at hgroup ⊢
      omega
    · rw [hwrite hlt' hstart hbyte (mod_lt _ (by decide)), hsum]

theorem bitunshuffleInto_eq (hts : typeSize ∈ [1, 2, 4, 8, 16]) (output : Buffer) :
    ∃ result, bitunshuffleInto shuffled typeSize blockElements output (padded * typeSize) = .ok result ∧
      ∀ i < padded * typeSize, result i = data.getD i 0 := by
  have hpos : 0 < typeSize := pos_of_ne_zero fun hzero => by
    subst hzero
    simp at hts
  have hcount : shuffled.length / typeSize = padded := by rw [h.length, Nat.mul_div_cancel _ hpos]
  have hlayout : ¬ (typeSize ∉ [1, 2, 4, 8, 16] ∨ shuffled.length % typeSize ≠ 0 ∨
      padded * typeSize ≠ shuffled.length) := by
    rw [h.length, mul_mod_left]
    simp [hts]
  unfold bitunshuffleInto
  rw [if_neg hlayout]
  dsimp only
  rw [hcount]
  split
  · rename_i hzero
    subst hzero
    exact ⟨output, rfl, fun i hi => by simp at hi⟩
  rw [if_neg (by simp [h8, blockElements])]
  refine ⟨(unshuffleWrites shuffled typeSize padded).foldl write output, ?_, fun i hi => ?_⟩
  · simp only [unshuffleWrites, foldl_flatMap, foldl_map]
  refine foldl_write (fun w hw hwi => ?_) (.inl ?_)
  · obtain ⟨element, -, byteIdx, -, rfl⟩ := (mem_unshuffleWrites h h8).1 hw
    exact congrArg (data.getD · 0) hwi
  · refine ⟨_, (mem_unshuffleWrites h h8).2 ⟨i / typeSize, Nat.div_lt_of_lt_mul (by rwa [mul_comm]),
      i % typeSize, mod_lt _ hpos, rfl⟩, ?_⟩
    exact div_add_mod' i typeSize

end

theorem decodeBitSlicedGroup_eq (h : Shuffled data shuffled typeSize padded) (h8 : padded % 8 = 0) {group : Nat}
    (hgroup : group % 8 = 0) (hlt : group < padded) (output : Buffer) :
    ∃ result, decodeBitSlicedGroup shuffled group padded typeSize blockElements output = .ok result ∧
      ∀ i < 8 * typeSize, result i = data.getD (group * typeSize + i) 0 := by
  refine ⟨((range typeSize).flatMap fun byteIdx => (range 8).map fun rowIdx =>
    (rowIdx * typeSize + byteIdx, data.getD ((group + rowIdx) * typeSize + byteIdx) 0)).foldl write output, ?_, ?_⟩
  · unfold decodeBitSlicedGroup
    dsimp only
    rw [foldlM_ok (g := fun output byteIdx => (range 8).foldl (fun output rowIdx =>
      write output (rowIdx * typeSize + byteIdx, data.getD ((group + rowIdx) * typeSize + byteIdx) 0)) output)]
    · simp only [foldl_flatMap, foldl_map]
    · intro output byteIdx hbyte
      have hbyte := mem_range.1 hbyte
      have hlast := planeIndex_lt h8 (show group + 0 < padded by omega) (show byteIdx * 8 + 7 < typeSize * 8 by omega)
      rw [planeIndex_group hgroup (by decide), planeIndex, planeBytes] at hlast
      rw [if_neg (by rw [h.length]; omega)]
      congr 1
      refine foldl_ext _ _ output fun out rowIdx hrow => ?_
      rw [← h.group h8 hgroup hlt hbyte (mem_range.1 hrow), planeIndex, planeBytes, add_assoc]
  · intro i hi
    have hpos : 0 < typeSize := by omega
    refine foldl_write (fun w hw hwi => ?_) (.inl ?_)
    · simp only [mem_flatMap, mem_map, mem_range] at hw
      obtain ⟨byteIdx, -, rowIdx, -, rfl⟩ := hw
      dsimp only at hwi ⊢
      rw [Nat.add_mul, add_assoc, hwi]
    · refine ⟨(i / typeSize * typeSize + i % typeSize, data.getD ((group + i / typeSize) * typeSize + i % typeSize) 0),
        ?_, div_add_mod' i typeSize⟩
      simp only [mem_flatMap, mem_map, mem_range]
      exact ⟨i % typeSize, mod_lt _ hpos, i / typeSize, Nat.div_lt_of_lt_mul (by rwa [mul_comm]), rfl⟩

/-- A byte collected bit by bit. -/
theorem foldl_bits (c : Nat → Bool) (hj : j < 8) : byteBit ((range 8).foldl (fun (value : UInt8) bit =>
      value ||| ((if c bit then 1 else 0) <<< ofNat bit)) 0) j = c j := by
  have hall : ∀ c0 c1 c2 c3 c4 c5 c6 c7 : Bool, ∀ j : Fin 8, byteBit ((range 8).foldl (fun (value : UInt8) bit =>
        value ||| ((if [c0, c1, c2, c3, c4, c5, c6, c7].getD bit false then 1 else 0) <<< ofNat bit)) 0) j =
          [c0, c1, c2, c3, c4, c5, c6, c7].getD j false := by decide +kernel
  have hlist : ∀ bit < 8, [c 0, c 1, c 2, c 3, c 4, c 5, c 6, c 7].getD bit false = c bit := by
    intro bit hbit
    interval_cases bit <;> rfl
  rw [← hlist j hj, ← hall (c 0) (c 1) (c 2) (c 3) (c 4) (c 5) (c 6) (c 7) ⟨j, hj⟩]
  rfl

theorem copyBitSlicedValue_eq (h : Shuffled data shuffled typeSize padded) (h8 : padded % 8 = 0) {idx : Nat}
    (hidx : idx < padded) :
    copyBitSlicedValue shuffled idx padded typeSize blockElements =
      .ok ((range typeSize).map fun byteIdx => data.getD (idx * typeSize + byteIdx) 0) := by
  unfold copyBitSlicedValue
  dsimp only
  refine mapM_eq_pure fun byteIdx hbyte => ?_
  have hbyte := mem_range.1 hbyte
  have hrow : (idx - idx / blockElements * blockElements) % 8 = idx % 8 := by
    rw [blockElements]
    omega
  -- each bit is read from the plane byte of the element
  rw [foldlM_ok (g := fun (value : UInt8) bit => value |||
    ((if byteBit (data.getD (idx * typeSize + byteIdx) 0) bit then 1 else 0) <<< ofNat bit))]
  · exact congrArg Except.ok (byte_ext fun j hj => foldl_bits _ hj)
  · intro value bit hbit
    have hbit := mem_range.1 hbit
    have hplace : idx / blockElements * blockElements * typeSize +
        byteIdx * 8 * (min (padded - idx / blockElements * blockElements) blockElements / 8) +
        bit * (min (padded - idx / blockElements * blockElements) blockElements / 8) +
        (idx - idx / blockElements * blockElements) / 8 = planeIndex padded typeSize idx (byteIdx * 8 + bit) := by
      rw [planeIndex, planeBytes, Nat.add_mul]
      omega
    have hlt := planeIndex_lt h8 hidx (show byteIdx * 8 + bit < typeSize * 8 by omega)
    have hbits := h.bits idx hidx (byteIdx * 8 + bit) (by omega)
    rw [show (byteIdx * 8 + bit) / 8 = byteIdx by omega, show (byteIdx * 8 + bit) % 8 = bit by omega] at hbits
    rw [hplace, getElem?_eq_getElem (by rwa [h.length]), hrow]
    dsimp only
    rw [← getD_eq_getElem _ 0 (by rwa [h.length]), ← hbits]
    simp only [and_mask _ (mod_lt idx (by decide : 0 < 8))]

end

end Paro.L1.BitShuffle
