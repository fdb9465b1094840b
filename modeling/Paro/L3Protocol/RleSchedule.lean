import Paro.Core.Calls
import Paro.L1Encoding.RlePage

/-!
# Reading a run-length page under any schedule

A page decoder is asked to seek and to read batches in any order. The abstract reader is a position in the list of
values (`Cursor`); `Reads` relates the decoder to it, and every call keeps the relation (`Reads.seek`, `Reads.next`),
so every schedule returns what the cursor returns (`rle_schedule`).
-/
namespace Paro.L3.RleSchedule
open L1.Rle List PageBuilder

variable {T : Type} (codec : ValueCodec T)

def call (page : PageDecoder T) : PageCall → Except Error ((List T × Nat) × PageDecoder T)
  | .seekToPosition pos => (page.seekToPosition codec pos).map fun page => (([], page.curIndex), page)
  | .nextBatch n => .ok (((page.nextBatch codec n).1, (page.nextBatch codec n).2.curIndex), (page.nextBatch codec n).2)

def cursorCall (values : List T) (pos : Nat) : PageCall → (List T × Nat) × Nat
  | .seekToPosition p => (([], p), p)
  | .nextBatch n => (((values.drop pos).take n, min (pos + n) values.length), min (pos + n) values.length)

structure Reads (page : PageDecoder T) (values : List T) (pos : Nat) : Prop where
  count : page.numElements = values.length
  index : page.curIndex = pos
  le : pos ≤ values.length
  data : IsPage codec page.decoder.data values
  place : At codec page.decoder (values.drop pos)

variable {codec} {page : PageDecoder T} {values : List T} {pos : Nat}

theorem Reads.seek (h : Reads codec page values pos) {p : Nat} (hp : p ≤ values.length) :
    ∃ next, page.seekToPosition codec p = .ok next ∧ Reads codec next values p := by
  have hcount := h.count
  -- a seek backwards starts again at the front
  obtain ⟨start, from_, hstart, hle, hreads⟩ : ∃ start from_,
      (if p < page.curIndex then { page with decoder := page.decoder.reset, curIndex := 0 } else page) = start ∧
        from_ ≤ p ∧ Reads codec start values from_ := by
    by_cases hback : p < page.curIndex
    · rw [if_pos hback]
      exact ⟨_, 0, rfl, Nat.zero_le p, h.count, rfl, Nat.zero_le _, h.data, at_reset h.data⟩
    · rw [if_neg hback]
      exact ⟨_, pos, rfl, by rw [← h.index]; omega, h⟩
  unfold PageDecoder.seekToPosition
  rw [if_neg (by omega), hstart]
  dsimp only
  split
  · obtain ⟨decoder, hskip, hdata, hat⟩ := hreads.place.skip (n := p - start.curIndex)
      (by rw [length_drop, hreads.index]; omega)
    rw [hskip]
    refine ⟨_, rfl, hreads.count, rfl, hp, hdata ▸ hreads.data, ?_⟩
    rw [drop_drop, hreads.index] at hat
    rwa [show from_ + (p - from_) = p by omega] at hat
  · rename_i hzero
    rw [hreads.index] at hzero
    obtain rfl : from_ = p := by omega
    exact ⟨_, rfl, hreads.count, rfl, hp, hreads.data, hreads.place⟩

theorem Reads.readValues {toRead : Nat} (h : Reads codec page values pos) (hle : pos + toRead ≤ values.length) :
    (page.readValues codec toRead).1 = (values.drop pos).take toRead ∧
      Reads codec (page.readValues codec toRead).2 values (pos + toRead) := by
  induction toRead generalizing page pos with
  | zero => exact ⟨rfl, h⟩
  | succ toRead ih =>
    have hlt : pos < values.length := by omega
    have hplace := h.place
    rw [drop_eq_getElem_cons hlt] at hplace
    obtain ⟨decoder, hget, hdata, hat⟩ := hplace.get
    have hnext : Reads codec { page with decoder, curIndex := page.curIndex + 1 } values (pos + 1) :=
      ⟨h.count, by rw [h.index], hlt, hdata ▸ h.data, hat⟩
    obtain ⟨hrest, hreads⟩ := ih hnext (by omega)
    rw [PageDecoder.readValues, hget]
    dsimp only
    refine ⟨?_, by rwa [show pos + (toRead + 1) = pos + 1 + toRead by omega]⟩
    rw [hrest, drop_eq_getElem_cons hlt, take_succ_cons]

theorem Reads.next (h : Reads codec page values pos) (n : Nat) :
    (page.nextBatch codec n).1 = (values.drop pos).take n ∧
      Reads codec (page.nextBatch codec n).2 values (min (pos + n) values.length) := by
  have hle := h.le
  unfold PageDecoder.nextBatch
  rw [h.count, h.index]
  obtain ⟨hvalues, hreads⟩ := h.readValues (show pos + min n (values.length - pos) ≤ values.length by omega)
  refine ⟨?_, by rwa [show min (pos + n) values.length = pos + min n (values.length - pos) by omega]⟩
  rw [hvalues, ← length_drop]
  exact take_eq_take_min.symm

theorem Reads.call (h : Reads codec page values pos) {c : PageCall} (hc : c.InRange values.length) :
    ∃ next, call codec page c = .ok ((cursorCall values pos c).1, next) ∧
      Reads codec next values (cursorCall values pos c).2 := by
  cases c with
  | seekToPosition p =>
    obtain ⟨next, hseek, hreads⟩ := h.seek hc
    refine ⟨next, ?_, hreads⟩
    rw [RleSchedule.call, hseek, cursorCall, ← hreads.index]
    rfl
  | nextBatch n =>
    obtain ⟨hbatch, hreads⟩ := h.next n
    refine ⟨_, ?_, hreads⟩
    rw [RleSchedule.call, hbatch, hreads.index]
    rfl

/-- **Any schedule.** Every page of fewer than `2 ^ 32` values, built by any calls of `add`, is opened, and every
schedule of seeks in range and batches runs without a failure and returns after each call what the cursor over the
added values returns, with its position. -/
theorem rle_schedule {T : Type} [DecidableEq T] [Inhabited T] (codec : ValueCodec T) (pageSize : Nat)
    (adds : List (List T)) (calls : List PageCall)
    (hcount : ((new pageSize).addAll codec adds).2.length < 2 ^ 32)
    (hcalls : ∀ c ∈ calls, c.InRange ((new pageSize).addAll codec adds).2.length) :
    ∃ page, PageDecoder.init (((new pageSize).addAll codec adds).1.finish codec) = .ok page ∧
      runCalls (call codec) page calls =
        .ok (specCalls (cursorCall ((new pageSize).addAll codec adds).2) 0 calls) := by
  obtain ⟨runs, hencodes⟩ := @encodes_addAll _ codec _ _ _ (new pageSize) encodes_new adds
  rw [nil_append] at hencodes
  generalize ((new pageSize).addAll codec adds).2 = values at *
  have hpage := isPage_finish hencodes hcount
  obtain ⟨runs, hruns, hvalues, hdata⟩ := hpage.layout
  have hheader : (leBytes 4 values.length).length = 4 := length_leBytes 4 _
  have hlen : ¬ (((new pageSize).addAll codec adds).1.finish codec).length < pageHeaderSize := by
    show ¬ (Encoder.finish codec _).length < 4
    rw [hdata, length_append]
    omega
  refine ⟨_, by rw [PageDecoder.init, if_neg hlen], ?_⟩
  refine runCalls_eq (Reads codec · values ·) (PageCall.InRange values.length)
    (by intro _ _ _ h hc; exact h.call hc) ?_ hcalls
  refine ⟨?_, rfl, Nat.zero_le _, hpage, ?_⟩
  · show ofLeBytes ((Encoder.finish codec _).take 4) = _
    rw [hdata, take_left' hheader, ofLeBytes_leBytes (by simpa using hcount)]
  · refine ⟨runs, hruns, ?_, hvalues.symm⟩
    show (Encoder.finish codec _).drop 4 = _
    rw [hdata, drop_left' hheader]

def byteCodec : ValueCodec UInt8 where
  size := 1
  encode v := [v]
  decode bytes := bytes.headD 0
  length_encode _ := rfl
  decode_encode _ := rfl

theorem rle_schedule_bytes :
    ∃ page, PageDecoder.init (((new 64).addAll byteCodec [[7, 7], [8]]).1.finish byteCodec) = .ok page ∧
      runCalls (call byteCodec) page [.nextBatch 2, .seekToPosition 1, .nextBatch 5] =
        .ok [([7, 7], 2), ([], 1), ([7, 8], 3)] :=
  rle_schedule byteCodec 64 [[7, 7], [8]] [.nextBatch 2, .seekToPosition 1, .nextBatch 5] (by decide)
    (forall_mem_cons.2 ⟨trivial, forall_mem_cons.2 ⟨(by decide : 1 ≤ 3), forall_mem_singleton.2 trivial⟩⟩)

end Paro.L3.RleSchedule
