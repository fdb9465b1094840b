import Paro.Core.Calls
import Paro.L2Machine.BitShufflePage

/-!
# All read paths of a bit-shuffled page agree

A page is read in batches (materialized or streaming), by index, or gathered. `ReadsBack` says that each of them
returns the bytes that were added. It holds for the decoder of every written page, before and after materialization
(`Opened.readsBack`); what can fail is only the opening of a page, when a size does not fit the `u32` it is written
in (`reads_back_iff`).
-/
namespace Paro.L3.BitShuffleReads
open L1.BitShuffle L2.BitShufflePage List PageDecoder PageBuilder

def cursorBatch (data : List UInt8) (typeSize count pos n : Nat) : (Nat × List UInt8) × Nat :=
  ((min n (count - pos), elements data typeSize pos (min n (count - pos))), pos + min n (count - pos))

structure ReadsBack (decoder : PageDecoder) (data : List UInt8) (typeSize count : Nat) : Prop where
  batches : ∀ streamSequential ns, runCalls PageDecoder.nextBatch { decoder with streamSequential, curIndex := 0 } ns =
    .ok (specCalls (cursorBatch data typeSize count) 0 ns)
  valueAt : ∀ idx < count, decoder.valueAt idx = some (elements data typeSize idx 1)
  copyValueAt : ∀ idx < count, decoder.copyValueAt idx = .ok (elements data typeSize idx 1)
  gather : ∀ values output rows, (∀ v ∈ values, v.1 < count ∧ v.2 < rows) →
    decoder.gatherValuesAt true values output (rows * typeSize) = .ok (values.foldl (place data typeSize) output)

variable {decoder : PageDecoder} {data : List UInt8} {typeSize count : Nat}

section
variable (hlen : data.length = count * typeSize) (h : Opened decoder (paddedData data typeSize count) typeSize count)
include hlen h

theorem runCalls_nextBatch (hcur : decoder.curIndex ≤ count) (ns : List Nat) :
    runCalls nextBatch decoder ns = .ok (specCalls (cursorBatch data typeSize count) decoder.curIndex ns) := by
  refine runCalls_eq (fun decoder pos => Opened decoder (paddedData data typeSize count) typeSize count ∧
    decoder.curIndex = pos ∧ pos ≤ count) (fun _ => True) ?_ ⟨h, rfl, hcur⟩ fun _ _ => trivial
  rintro decoder _ n ⟨h, rfl, hcur⟩ -
  obtain ⟨next, hbatch, hnext, hindex, -⟩ := h.nextBatch hcur n
  rw [elements_paddedData hlen (by omega)] at hbatch
  refine ⟨next, hbatch, hnext, hindex, ?_⟩
  show decoder.curIndex + min n (count - decoder.curIndex) ≤ count
  omega

theorem readsBack : ReadsBack decoder data typeSize count where
  batches streamSequential ns :=
    @runCalls_nextBatch { decoder with streamSequential, curIndex := 0 } _ _ _ hlen
      { h with } (Nat.zero_le _) ns
  valueAt idx hidx := by rw [h.valueAt hidx, elements_paddedData hlen (by omega)]
  copyValueAt idx hidx := by rw [h.copyValueAt hidx, elements_paddedData hlen (by omega)]
  gather values output rows hvalues := by
    rw [h.gather (fun v hv => (hvalues v hv).1) fun v hv => (hvalues v hv).2,
      foldl_place_paddedData hlen fun v hv => (hvalues v hv).1]

end

/-- **All read paths**, for every element width, any elements added by any calls, and any LZ4 that inverts itself: the
page is written, and it is opened and read back by every path, on the planes and after materialization, exactly when
the sizes fit that it stores as `u32`. -/
theorem reads_back_iff (lz4 : Lz4) (typeSize pageSize : Nat) (adds : List (List UInt8 × Nat)) (builder : PageBuilder)
    (hts : typeSize ∈ [1, 2, 4, 8, 16]) (hnew : PageBuilder.new typeSize pageSize = some builder) :
    ∃ page, (builder.addAll adds).1.finish lz4 = some page ∧
      ((∃ decoder, init lz4 page (builder.addAll adds).1.count typeSize = .ok decoder ∧
          ReadsBack decoder (builder.addAll adds).2 typeSize (builder.addAll adds).1.count ∧
          ∃ materialized, decoder.ensureMaterialized = .ok materialized ∧
            ReadsBack materialized (builder.addAll adds).2 typeSize (builder.addAll adds).1.count) ↔
        Fits lz4 (builder.addAll adds).2 typeSize (builder.addAll adds).1.count) := by
  obtain ⟨hempty, hsize⟩ := holds_new hnew
  obtain ⟨hholds, hsize'⟩ := hempty.addAll adds
  rw [nil_append] at hholds
  have hlen := hholds.length
  have hle := hholds.le
  have hfits := hholds.fits
  rw [hsize', hsize] at hlen
  refine ⟨_, finish_eq hholds, ?_⟩
  rw [hsize', hsize]
  obtain ⟨hok, hfail⟩ := @init_page _ _ lz4 _ hts hlen (by omega)
  constructor
  · rintro ⟨decoder, hinit, -⟩
    by_contra hnot
    obtain ⟨e, he⟩ := hfail hnot
    rw [hinit] at he
    cases he
  · intro hfit
    have hopened := opened_decoderOf hts hlen
    refine ⟨_, hok hfit, readsBack hlen hopened, _, hopened.ensureMaterialized, readsBack hlen ?_⟩
    exact ⟨rfl, hts, rfl, hopened.le, hopened.aligned, rfl, hopened.shuffled, .inr rfl⟩

theorem reads_back_iff_three_elements :
    ∃ page, ((⟨[], 2, 32, 0⟩ : PageBuilder).addAll [([1, 2, 3, 4, 5, 6], 3)]).1.finish .stored = some page ∧
      ((∃ decoder, init .stored page 3 2 = .ok decoder ∧
          ReadsBack decoder [1, 2, 3, 4, 5, 6] 2 3 ∧
          ∃ materialized, decoder.ensureMaterialized = .ok materialized ∧
            ReadsBack materialized [1, 2, 3, 4, 5, 6] 2 3) ↔ Fits .stored [1, 2, 3, 4, 5, 6] 2 3) :=
  reads_back_iff .stored 2 64 [([1, 2, 3, 4, 5, 6], 3)] ⟨[], 2, 32, 0⟩ (by decide) rfl

/-- `2 ^ 28` elements of 16 bytes: the page is written, but the size in front of its LZ4 block is 0, or the size in its
header is not its size, so that it cannot be opened, whatever LZ4 makes of it. -/
theorem large_page_is_not_opened :
    ∃ builder,
      PageBuilder.new 16 (2 ^ 32) = some builder ∧
      (builder.addAll [(List.replicate (2 ^ 32) 0, 2 ^ 28)]).2 = List.replicate (2 ^ 32) 0 ∧
      ∀ lz4, ∃ page, (builder.addAll [(List.replicate (2 ^ 32) 0, 2 ^ 28)]).1.finish lz4 = some page ∧
        ∃ e, init lz4 page (2 ^ 28) 16 = .error e := by
  have hcount : ((⟨[], 16, 2 ^ 28, 0⟩ : PageBuilder).add (replicate (2 ^ 32) 0) (2 ^ 28)) =
      (⟨replicate (2 ^ 32) 0, 16, 2 ^ 28, 2 ^ 28⟩, 2 ^ 28) := by
    unfold PageBuilder.add
    dsimp only
    rw [Nat.sub_zero, Nat.min_self, if_neg (by rw [length_replicate]; omega), nil_append, Nat.zero_add, take_replicate]
    rfl
  have hadd : (⟨[], 16, 2 ^ 28, 0⟩ : PageBuilder).addAll [(replicate (2 ^ 32) 0, 2 ^ 28)] =
      (⟨replicate (2 ^ 32) 0, 16, 2 ^ 28, 2 ^ 28⟩, replicate (2 ^ 32) 0) := by
    rw [addAll, addAll, hcount]
    dsimp only
    rw [append_nil, take_replicate]
    rfl
  have hholds : (⟨replicate (2 ^ 32) 0, 16, 2 ^ 28, 2 ^ 28⟩ : PageBuilder).Holds (replicate (2 ^ 32) 0) :=
    ⟨rfl, by rw [length_replicate]; rfl, le_rfl, by show 2 ^ 28 + 7 < 2 ^ 32; omega⟩
  refine ⟨⟨[], 16, 2 ^ 28, 0⟩, rfl, by rw [hadd], fun lz4 => ⟨_, by rw [hadd]; exact finish_eq hholds, ?_⟩⟩
  refine (@init_page 16 (2 ^ 28) lz4 (replicate (2 ^ 32) 0) (by decide)
    (by rw [length_replicate]; rfl) (by omega)).2 fun hfits => ?_
  have := hfits.1
  rw [paddedCount] at this
  omega

end Paro.L3.BitShuffleReads
