import Mathlib.Data.List.Induction
import Paro.Core.BitBytes
import Paro.Core.BitPack

/-!
# Bit packing of frame-of-reference pages

Model of `BitPackWriter` and `BitPackReader` (crates/storage/src/rowset/encoding/frame_of_reference.rs). The writer
collects values in a 64-bit buffer behind at most seven bits of the value before, so of a value at a position that is
not a whole byte it keeps only the low bits (`stored`). Widths above 64 are written in two halves.

* `packs_writeAll`: up to a width of 64, the bytes written are the number `packed width (stored width values)`.
* `read_eq`: up to a width of 64, a value is read back from its place in that number.
* `read_wide`: a wider value cannot be read, since the shift that puts its parts together overflows.
`La-b` are lines of this file.
-/
namespace Paro.L1.FramePack

open List Nat

/-- L626-631; `output` has the bytes this writer has written -/
structure BitPackWriter where
  output : List UInt8
  (bitWidth buffer bitsInBuffer : Nat)

namespace BitPackWriter

/-- L634-641 -/
def new (bitWidth : Nat) : BitPackWriter := ⟨[], bitWidth, 0, 0⟩

/-- The loop over the whole bytes of the buffer. L654-658 -/
def emit (writer : BitPackWriter) : BitPackWriter :=
  if 8 ≤ writer.bitsInBuffer then
    emit
      { writer with
        output := writer.output ++ [UInt8.ofNat writer.buffer]
        buffer := writer.buffer / 256
        bitsInBuffer := writer.bitsInBuffer - 8 }
  else writer
termination_by writer.bitsInBuffer

/-- L643-659 -/
def write (writer : BitPackWriter) (value : Nat) : BitPackWriter :=
  let mask := if 64 ≤ writer.bitWidth then 2 ^ 64 - 1 else 2 ^ writer.bitWidth - 1
  let value := value &&& mask
  emit
    { writer with
      buffer := writer.buffer ||| (value * 2 ^ writer.bitsInBuffer % 2 ^ 64)
      bitsInBuffer := writer.bitsInBuffer + writer.bitWidth }

variable (writer : BitPackWriter)

/-- L661-669 -/
def writeU128 (value : Nat) : BitPackWriter :=
  if writer.bitWidth ≤ 64 then writer.write (value % 2 ^ 64)
  else (writer.write (value % 2 ^ 64)).write (value / 2 ^ 64)

/-- L671-675 -/
def flush : List UInt8 :=
  if 0 < writer.bitsInBuffer then writer.output ++ [UInt8.ofNat writer.buffer] else writer.output

theorem emit_eq (writer : BitPackWriter) : writer.emit =
      { writer with
        output := writer.output ++ leBytes (writer.bitsInBuffer / 8) writer.buffer
        buffer := writer.buffer / 256 ^ (writer.bitsInBuffer / 8)
        bitsInBuffer := writer.bitsInBuffer % 8 } := by
  fun_induction emit writer with
  | case1 writer h ih =>
    rw [ih]
    have hdiv : writer.bitsInBuffer / 8 = (writer.bitsInBuffer - 8) / 8 + 1 := by omega
    have hmod : (writer.bitsInBuffer - 8) % 8 = writer.bitsInBuffer % 8 := by omega
    rw [hdiv, leBytes, Nat.div_div_eq_div_mul, ← Nat.pow_succ', append_assoc, hmod]
    rfl
  | case2 writer h =>
    have hdiv : writer.bitsInBuffer / 8 = 0 := by omega
    rw [hdiv, leBytes, append_nil, Nat.pow_zero, Nat.div_one, mod_eq_of_lt (by omega)]

/-- A write adds the bits of its width. -/
theorem length_write (value : Nat) : 8 * (writer.write value).output.length + (writer.write value).bitsInBuffer =
      8 * writer.output.length + writer.bitsInBuffer + writer.bitWidth ∧
      (writer.write value).bitsInBuffer < 8 ∧ (writer.write value).bitWidth = writer.bitWidth := by
  rw [write, emit_eq]
  refine ⟨?_, mod_lt _ (by decide), rfl⟩
  dsimp only
  rw [length_append, length_leBytes]
  omega

end BitPackWriter

/-- What the buffer keeps of each value: the bits that fit behind those of the value before. -/
def stored (width : Nat) (values : List Nat) : List Nat :=
  values.mapIdx fun i v => v % 2 ^ (64 - width * i % 8)

structure Packs (writer : BitPackWriter) (width : Nat) (kept : List Nat) : Prop where
  size : writer.bitWidth = width
  length : 8 * writer.output.length + writer.bitsInBuffer = width * kept.length
  bits : writer.bitsInBuffer < 8
  buffer : writer.buffer < 2 ^ writer.bitsInBuffer
  number : ofLeBytes writer.output + 256 ^ writer.output.length * writer.buffer = packed width kept
  fits : ∀ v ∈ kept, v < 2 ^ width

variable {writer : BitPackWriter} {width : Nat} {kept : List Nat}

theorem packs_new (width : Nat) : Packs (.new width) width [] :=
  ⟨rfl, rfl, zero_lt_succ 7, Nat.one_pos, rfl, nofun⟩

/-- The buffer after a value, before its whole bytes are written. -/
theorem or_shift {buffer bits value : Nat} (hbuffer : buffer < 2 ^ bits) (hbits : bits < 8) :
    buffer ||| (value * 2 ^ bits % 2 ^ 64) = buffer + 2 ^ bits * (value % 2 ^ (64 - bits)) := by
  have hpow : (2 : Nat) ^ 64 = 2 ^ (64 - bits) * 2 ^ bits := by
    rw [← Nat.pow_add]
    congr 1
    omega
  rw [hpow, mul_mod_mul_right, Nat.mul_comm (value % _), Nat.or_comm, ← two_pow_add_eq_or_of_lt hbuffer, add_comm]

theorem Packs.write (h : Packs writer width kept) (hwidth : width ≤ 64) {value : Nat} (hvalue : value < 2 ^ width) :
    Packs (writer.write value) width (kept ++ [value % 2 ^ (64 - width * kept.length % 8)]) := by
  have hlength := h.length
  have hbits := h.bits
  have hat : writer.bitsInBuffer = width * kept.length % 8 := by omega
  obtain ⟨hadded, -, -⟩ := writer.length_write value
  have hmask : value &&& (if 64 ≤ width then 2 ^ 64 - 1 else 2 ^ width - 1) = value := by
    rw [show (if 64 ≤ width then 2 ^ 64 - 1 else 2 ^ width - 1) = 2 ^ width - 1 by
      split
      · rw [show width = 64 by omega]
      · rfl, and_two_pow_sub_one_eq_mod, mod_eq_of_lt hvalue]
  have hkept : value % 2 ^ (64 - writer.bitsInBuffer) < 2 ^ width := lt_of_le_of_lt (mod_le _ _) hvalue
  rw [← hat]
  have hwrite : writer.write value = BitPackWriter.emit
      { writer with
        buffer := writer.buffer + 2 ^ writer.bitsInBuffer * (value % 2 ^ (64 - writer.bitsInBuffer))
        bitsInBuffer := writer.bitsInBuffer + width } := by
    rw [BitPackWriter.write, h.size, hmask, or_shift h.buffer hbits]
  rw [BitPackWriter.emit_eq] at hwrite
  dsimp only at hwrite
  rw [hwrite] at hadded ⊢
  -- the buffer as it was, with the value behind it
  generalize hfull : writer.buffer + 2 ^ writer.bitsInBuffer * (value % 2 ^ (64 - writer.bitsInBuffer)) = full at *
  have hfulllt : full < 2 ^ (writer.bitsInBuffer + width) := by
    rw [← hfull, Nat.pow_add]
    calc writer.buffer + 2 ^ writer.bitsInBuffer * (value % 2 ^ (64 - writer.bitsInBuffer))
        < 2 ^ writer.bitsInBuffer * (value % 2 ^ (64 - writer.bitsInBuffer) + 1) := by
          have := h.buffer
          rw [mul_succ]
          omega
      _ ≤ 2 ^ writer.bitsInBuffer * 2 ^ width := Nat.mul_le_mul_left _ hkept
  refine ⟨h.size, ?_, mod_lt _ (by decide), ?_, ?_, ?_⟩
  · dsimp only at hadded ⊢
    rw [hadded, h.size, length_append, length_singleton, mul_succ, ← hlength]
  · show full / 256 ^ _ < 2 ^ _
    rw [Nat.div_lt_iff_lt_mul (Nat.pow_pos (by decide)), show (256 : Nat) = 2 ^ 8 from rfl, ← Nat.pow_mul,
      ← Nat.pow_add,
      mod_add_div]
    exact hfulllt
  · show ofLeBytes (writer.output ++ leBytes _ full) + 256 ^ (writer.output ++ leBytes _ full).length *
      (full / 256 ^ _) = _
    have hsplit := mod_add_div full (256 ^ ((writer.bitsInBuffer + width) / 8))
    rw [ofLeBytes_append, ofLeBytes_leBytes_mod, length_append, length_leBytes, Nat.pow_add, mul_assoc,
      add_assoc, ← Nat.mul_add, hsplit, ← hfull, Nat.mul_add, ← add_assoc, h.number, packed_concat, ← mul_assoc,
      ← hlength, Nat.pow_add, Nat.pow_mul]
  · exact forall_mem_append.2 ⟨h.fits, forall_mem_singleton.2 hkept⟩

theorem packs_writeAll (hwidth : width ≤ 64) {values : List Nat} (hvalues : ∀ v ∈ values, v < 2 ^ width) :
    Packs (values.foldl .write (.new width)) width (stored width values) := by
  induction values using reverseRecOn with
  | nil => exact packs_new width
  | append_singleton values v ih =>
    have hpacks := (ih fun u hu => hvalues u (mem_append_left _ hu)).write hwidth
      (hvalues v (mem_append_right _ mem_cons_self))
    rw [stored, length_mapIdx] at hpacks
    rw [foldl_append, stored, mapIdx_concat]
    exact hpacks

theorem Packs.flush (h : Packs writer width kept) :
    writer.flush.length = (kept.length * width + 7) / 8 ∧ ofLeBytes writer.flush = packed width kept := by
  have hlength := h.length
  have hbits := h.bits
  have hbuffer := h.buffer
  have hnumber := h.number
  rw [Nat.mul_comm kept.length]
  unfold BitPackWriter.flush
  split
  · next hpos =>
    have hbyte : writer.buffer < 256 :=
      lt_of_lt_of_le hbuffer (Nat.pow_le_pow_right (by decide) (show writer.bitsInBuffer ≤ 8 by omega))
    rw [length_append, length_singleton, ofLeBytes_append, ofLeBytes, ofLeBytes, UInt8.toNat_ofNat',
      mul_zero, mod_eq_of_lt hbyte, add_zero writer.buffer, hnumber]
    exact ⟨by omega, rfl⟩
  · next hzero =>
    have hnone : writer.bitsInBuffer = 0 := by omega
    rw [hnone, Nat.pow_zero] at hbuffer
    rw [show writer.buffer = 0 by omega, mul_zero, add_zero] at hnumber
    exact ⟨by omega, hnumber⟩

/-! ## Reader -/

/-- `none` when the shift by `bits_read` overflows. L701-718 -/
def readLoop (data : List UInt8) (bitWidth byteOffset bitInByte bitsRead result : Nat) : Option Nat :=
  if bitsRead < bitWidth then
    match data[byteOffset + (bitInByte + bitsRead) / 8]? with
    | none => some result
    | some byte =>
      let bitPos := (bitInByte + bitsRead) % 8
      let bitsToRead := min (8 - bitPos) (bitWidth - bitsRead)
      let value := byte.toNat / 2 ^ bitPos &&& (2 ^ bitsToRead - 1)
      if 64 ≤ bitsRead then none
      else
        readLoop data bitWidth byteOffset bitInByte (bitsRead + bitsToRead) (result ||| (value * 2 ^ bitsRead % 2 ^ 64))
  else some result
termination_by bitWidth - bitsRead
decreasing_by omega

variable (data : List UInt8) (bitWidth index : Nat)

/-- L689-719 -/
def read : Option Nat :=
  if bitWidth = 0 then some 0
  else
    let bitOffset := index * bitWidth
    readLoop data bitWidth (bitOffset / 8) (bitOffset % 8) 0 0

/-- L721-729 -/
def readU128 : Option Nat :=
  if bitWidth ≤ 64 then read data bitWidth index
  else
    match read data bitWidth (index * 2), read data bitWidth (index * 2 + 1) with
    | some low, some high => some (low ||| high * 2 ^ 64 % 2 ^ 128)
    | _, _ => none

variable {data : List UInt8} {byteOffset bitInByte bitsRead result : Nat}

theorem readLoop_eq (hwidth : width ≤ 64) (hread : bitsRead ≤ width)
    (hresult : result = ofLeBytes data / 2 ^ (8 * byteOffset + bitInByte) % 2 ^ bitsRead) :
    readLoop data width byteOffset bitInByte bitsRead result =
      some (ofLeBytes data / 2 ^ (8 * byteOffset + bitInByte) % 2 ^ width) := by
  fun_induction readLoop data width byteOffset bitInByte bitsRead result with
  | case1 bitsRead result hlt hnone =>
    -- the data ends here, and the bits behind it are zero
    rw [hresult]
    congr 1
    refine eq_of_testBit_eq fun j => ?_
    rw [testBit_mod_two_pow, testBit_mod_two_pow, testBit_div_two_pow]
    rcases lt_or_ge j bitsRead with hj | hj
    · rw [decide_eq_true hj, decide_eq_true (by omega : j < width)]
    have hend : data.length ≤ (j + (8 * byteOffset + bitInByte)) / 8 := by
      have := getElem?_eq_none_iff.1 hnone
      omega
    have hzero : (ofLeBytes data).testBit (j + (8 * byteOffset + bitInByte)) = false := by
      rw [← div_add_mod (j + (8 * byteOffset + bitInByte)) 8, testBit_ofLeBytes (mod_lt _ (by decide)),
        getD_eq_default _ _ hend]
      exact zero_testBit _
    rw [hzero, Bool.and_false, Bool.and_false]
  | case2 bitsRead result hlt byte hbyte hover => omega
  | case3 bitsRead result hlt byte hbyte bitPos bitsToRead value hover ih =>
    refine ih (by omega) ?_
    refine eq_of_testBit_eq fun j => ?_
    rw [hresult, testBit_or, testBit_mod_two_pow, testBit_mod_two_pow, testBit_mod_two_pow,
      testBit_mul_two_pow, testBit_div_two_pow]
    rcases lt_or_ge j bitsRead with hj | hj
    · rw [decide_eq_true hj, decide_eq_true (by omega : j < bitsRead + bitsToRead),
        decide_eq_false (by omega : ¬ bitsRead ≤ j)]
      simp
    rw [decide_eq_false (by omega : ¬ j < bitsRead), Bool.false_and, Bool.false_or, decide_eq_true hj, Bool.true_and]
    show (_ && (byte.toNat / 2 ^ bitPos &&& (2 ^ bitsToRead - 1)).testBit _) = _
    rw [and_two_pow_sub_one_eq_mod, testBit_mod_two_pow, testBit_div_two_pow]
    rcases lt_or_ge j (bitsRead + bitsToRead) with hin | hout
    · have hplace : j + (8 * byteOffset + bitInByte) =
          8 * (byteOffset + (bitInByte + bitsRead) / 8) + (j - bitsRead + bitPos) := by omega
      rw [decide_eq_true hin, decide_eq_true (by omega : j < 64), decide_eq_true (by omega : j - bitsRead < bitsToRead),
        hplace, testBit_ofLeBytes (by omega), getD_eq_getElem?_getD, hbyte]
      rfl
    · rw [decide_eq_false (by omega : ¬ j < bitsRead + bitsToRead),
        decide_eq_false (by omega : ¬ j - bitsRead < bitsToRead)]
      simp
  | case4 bitsRead result hge =>
    rw [hresult, show bitsRead = width by omega]

theorem read_eq (hwidth : width ≤ 64) (data : List UInt8) (index : Nat) :
    read data width index = some (ofLeBytes data / 2 ^ (width * index) % 2 ^ width) := by
  unfold read
  split
  · next hzero => rw [hzero, Nat.pow_zero, mod_one]
  · rw [readLoop_eq hwidth (zero_le _) (by rw [Nat.pow_zero, mod_one]), div_add_mod, Nat.mul_comm index]

/-- The first value of a width above 64 cannot be read. -/
theorem read_wide (hwidth : 64 < width) (hdata : 8 < data.length) : read data width 0 = none := by
  have hloop : ∀ k ≤ 8, ∀ result, readLoop data width 0 0 (8 * (8 - k)) result = none := by
    intro k
    induction k with
    | zero =>
      intro _ result
      rw [readLoop, if_pos (by omega), getElem?_eq_getElem (by omega)]
      rfl
    | succ k ih =>
      intro hk result
      rw [readLoop, if_pos (by omega), getElem?_eq_getElem (by omega)]
      dsimp only
      rw [if_neg (by omega), show min (8 - (0 + 8 * (8 - (k + 1))) % 8) (width - 8 * (8 - (k + 1))) = 8 by omega,
        show 8 * (8 - (k + 1)) + 8 = 8 * (8 - k) by omega]
      exact ih (by omega) _
  unfold read
  rw [if_neg (by omega), zero_mul]
  exact hloop 8 (le_refl 8) 0

end Paro.L1.FramePack
