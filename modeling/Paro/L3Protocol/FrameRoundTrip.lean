import Paro.Core.Calls
import Paro.L2Machine.FramePage

/-!
# Frame-of-reference pages read back

A page is built from chunks of values and read under any schedule of seeks and batches; the abstract reader is a
position in the list of values. `Decodes` relates a decoder to the values it returns, and every call keeps it
(`Decodes.nextBatch`). A page whose frames are all regular is read as the values its frames are restored to
(`decodes_page`), so it reads back exactly when no frame loses a bit; a frame that is not regular is not written or
not decoded (`round_trips_iff`).
-/
namespace Paro.L3.FrameRoundTrip
open L1 FramePack L2.FramePage List Option
open PageDecoder hiding cacheFrame nextBatch readLoop sizeOfFrame

variable {size : Nat}

/-! ## Building and reading -/

def addAll (builder : PageBuilder) : List (List (Signed (8 * size))) → Option PageBuilder
  | [] => some builder
  | chunk :: chunks =>
    match builder.add (chunk.flatMap valueBytes) chunk.length with
    | none => none
    | some (next, _) => addAll next chunks

def buildPage (pageSize : Nat) (chunks : List (List (Signed (8 * size)))) : Option (List UInt8) :=
  (addAll (PageBuilder.new size pageSize) chunks).bind PageBuilder.finish

def call (decoder : PageDecoder) : PageCall → Except Error ((Nat × List UInt8) × PageDecoder)
  | .seekToPosition pos => (decoder.seekToPosition pos).map fun decoder => ((0, []), decoder)
  | .nextBatch n => decoder.nextBatch n

def cursorCall (values : List (Signed (8 * size))) (pos : Nat) : PageCall → (Nat × List UInt8) × Nat
  | .seekToPosition p => ((0, []), p)
  | .nextBatch n =>
    ((min n (values.length - pos), ((values.drop pos).take n).flatMap valueBytes), min (pos + n) values.length)

/-- The page of the values is built and opened, and every schedule returns the values. -/
def RoundTrips (pageSize : Nat) (chunks : List (List (Signed (8 * size)))) : Prop :=
  ∃ page decoder, buildPage pageSize chunks = some page ∧ init page = .ok decoder ∧
    ∀ calls, (∀ c ∈ calls, PageCall.InRange chunks.flatten.length c) →
      runCalls call decoder calls = .ok (specCalls (cursorCall chunks.flatten) 0 calls)

/-! ## Frames of a page -/

def frameCount (n : Nat) : Nat := (n + (frameValueNum - 1)) / frameValueNum

def lastFrameSize (n : Nat) : Nat := if n % frameValueNum = 0 then frameValueNum else n % frameValueNum

def frame {α : Type} (values : List α) (f : Nat) : List α := (values.drop (f * frameValueNum)).take frameValueNum

/-- The bits of every distance fit behind those of the value before it. -/
def Lossless (values : List (Signed (8 * size))) : Prop :=
  ∀ i d, (deltas values)[i]? = some d → d < 2 ^ (64 - width values * i % 8)

structure Sound (values : List (Signed (8 * size))) : Prop where
  count : values.length < 2 ^ 32
  regular : ∀ f < frameCount values.length, Regular (frame values f)
  lossless : ∀ f < frameCount values.length, Lossless (frame values f)

section
variable {α : Type} {values : List α} {f n : Nat}

theorem length_frame (hf : f < frameCount values.length) :
    (frame values f).length = if f = frameCount values.length - 1 then lastFrameSize values.length
      else frameValueNum := by
  unfold frameCount frameValueNum at *
  rw [frame, length_take, length_drop, lastFrameSize, frameValueNum]
  split
  · split <;> omega
  · omega

theorem frame_ne_nil (hf : f < frameCount values.length) : frame values f ≠ [] := by
  unfold frameCount frameValueNum at hf
  refine ne_nil_of_length_pos ?_
  rw [frame, length_take, length_drop, frameValueNum]
  omega

theorem flatMap_frames (values : List α) (m : Nat) :
    (range m).flatMap (frame values) = values.take (m * frameValueNum) := by
  induction m with
  | zero => rw [zero_mul, take_zero]; rfl
  | succ m ih =>
    rw [range_succ, flatMap_append, ih, Nat.succ_mul, take_add, flatMap_singleton]
    rfl

theorem flatMap_frames_all (values : List α) : (range (frameCount values.length)).flatMap (frame values) = values := by
  rw [flatMap_frames, take_of_length_le]
  unfold frameCount frameValueNum
  omega

/-- The parts of a list put together from parts, from one of them on. -/
theorem drop_flatMap_range {m : Nat} (parts : Nat → List α) (hf : f < m) : ∃ rest, (f + 1 = m → rest = []) ∧
      ((range m).flatMap parts).drop ((range f).flatMap parts).length = parts f ++ rest := by
  obtain ⟨k, rfl⟩ := Nat.exists_eq_add_of_lt hf
  refine ⟨((range k).map (f + ·.succ)).flatMap parts, fun hlast => ?_, ?_⟩
  · obtain rfl : k = 0 := by omega
    rfl
  · rw [add_assoc, range_add, flatMap_append, drop_left' rfl, range_succ_eq_map, map_cons, List.map_map, flatMap_cons]
    rfl

/-- A list put together from parts of the sizes of frames has them as its frames. -/
theorem frame_flatMap {parts : Nat → List α}
    (hparts : ∀ g < frameCount n, (parts g).length = if g = frameCount n - 1 then lastFrameSize n else frameValueNum)
    (hf : f < frameCount n) : frame ((range (frameCount n)).flatMap parts) f = parts f := by
  have hlast : lastFrameSize n ≤ frameValueNum := by
    unfold lastFrameSize frameValueNum
    split <;> omega
  have hbefore : ∀ g ≤ f, ((range g).flatMap parts).length = g * frameValueNum := by
    intro g
    induction g with
    | zero => intro _; rw [zero_mul]; rfl
    | succ g ih =>
      intro hg
      rw [range_succ, flatMap_append, length_append, ih (by omega), flatMap_singleton,
        hparts g (by omega), if_neg (by omega), Nat.succ_mul]
  obtain ⟨rest, hrest, hdrop⟩ := drop_flatMap_range parts hf
  rw [hbefore f (le_refl f)] at hdrop
  rw [frame, hdrop]
  by_cases hend : f + 1 = frameCount n
  · rw [hrest hend, append_nil, take_of_length_le]
    rw [hparts f hf]
    split <;> omega
  · rw [take_left' (by rw [hparts f hf, if_neg (by omega)])]

end

variable {values : List (Signed (8 * size))}

/-! ## Reading -/

structure Decodes (decoder : PageDecoder) (values : List (Signed (8 * size))) : Prop where
  num : decoder.numElements = values.length
  frames : decoder.frameCount = frameCount values.length
  frameSize : decoder.frameSize = frameValueNum
  last : decoder.lastFrameSize = lastFrameSize values.length
  width : decoder.typeSize = size
  decode : ∀ f < frameCount values.length, decoder.decodeFrame f = .ok ((frame values f).flatMap valueBytes)
  cache : decoder.decodedFrame = none ∨
    ∃ f, decoder.decodedFrame = some (f, (frame values f).flatMap valueBytes)

variable {decoder : PageDecoder}

section
variable (h : Decodes decoder values)
include h

theorem Decodes.move (pos : Nat) : Decodes { decoder with curIndex := pos } values :=
  { h with }

theorem Decodes.sizeOfFrame {f : Nat} (hf : f < frameCount values.length) :
    decoder.sizeOfFrame f = (frame values f).length := by
  rw [PageDecoder.sizeOfFrame, h.frames, h.last, h.frameSize, length_frame hf]

theorem Decodes.cacheFrame {f : Nat} (hf : f < frameCount values.length) :
    ∃ next, decoder.cacheFrame f = .ok ((frame values f).flatMap valueBytes, next) ∧ Decodes next values ∧
      next.curIndex = decoder.curIndex := by
  have hload : (decoder.decodeFrame f).map (fun frameData =>
      (frameData, { decoder with decodedFrame := some (f, frameData) })) = .ok ((frame values f).flatMap valueBytes,
          { decoder with decodedFrame := some (f, (frame values f).flatMap valueBytes) }) := by
    rw [h.decode f hf]
    rfl
  have hloaded : Decodes { decoder with decodedFrame := some (f, (frame values f).flatMap valueBytes) } values :=
    { h with cache := .inr ⟨f, rfl⟩ }
  unfold PageDecoder.cacheFrame
  rcases h.cache with hnone | ⟨g, hsome⟩
  · rw [hnone]
    exact ⟨_, hload, hloaded, rfl⟩
  · rw [hsome]
    dsimp only
    split
    · next heq => exact ⟨decoder, by rw [heq], h, rfl⟩
    · exact ⟨_, hload, hloaded, rfl⟩

theorem Decodes.readLoop {rounds toRead : Nat}
    (hle : decoder.curIndex + toRead ≤ values.length) (hrounds : toRead ≤ rounds) :
    ∃ next, decoder.readLoop rounds toRead =
        .ok (((values.drop decoder.curIndex).take toRead).flatMap valueBytes, next) ∧
      Decodes next values ∧ next.curIndex = decoder.curIndex + toRead := by
  induction rounds generalizing decoder toRead with
  | zero =>
    obtain rfl : toRead = 0 := by omega
    exact ⟨decoder, by rw [PageDecoder.readLoop, take_zero]; rfl, h, rfl⟩
  | succ rounds ih =>
    cases toRead with
    | zero => exact ⟨decoder, by rw [PageDecoder.readLoop, take_zero]; rfl, h, rfl⟩
    | succ toRead =>
      have hf : decoder.curIndex / frameValueNum < frameCount values.length := by
        unfold frameCount frameValueNum
        omega
      have hlen := length_frame hf
      obtain ⟨cached, hcache, hcached, hindex⟩ := h.cacheFrame hf
      have hframe : (frame values (decoder.curIndex / frameValueNum)).length =
          min frameValueNum (values.length - decoder.curIndex / frameValueNum * frameValueNum) := by
        rw [frame, length_take, length_drop]
      have hdrop : (frame values (decoder.curIndex / frameValueNum)).drop (decoder.curIndex % frameValueNum) =
          (values.drop decoder.curIndex).take (frameValueNum - decoder.curIndex % frameValueNum) := by
        rw [frame, drop_take, drop_drop, mul_comm (decoder.curIndex / frameValueNum), Nat.div_add_mod]
      rw [PageDecoder.readLoop, h.frameSize, hcache]
      · dsimp only
        rw [hcached.sizeOfFrame hf, hcached.width, hindex, length_flatMap_valueBytes]
        generalize hcopy : min ((frame values (decoder.curIndex / frameValueNum)).length -
          decoder.curIndex % frameValueNum) (toRead + 1) = toCopy
        have hfits : decoder.curIndex % frameValueNum + toCopy ≤
            (frame values (decoder.curIndex / frameValueNum)).length := by
          unfold frameValueNum at *
          omega
        have hbytes : decoder.curIndex % frameValueNum * size + toCopy * size ≤
            (frame values (decoder.curIndex / frameValueNum)).length * size := by
          rw [← Nat.add_mul]
          exact Nat.mul_le_mul_right size hfits
        obtain ⟨next, hnext, hdecodes, hmoved⟩ := ih (hcached.move (decoder.curIndex + toCopy))
          (show decoder.curIndex + toCopy + (toRead + 1 - toCopy) ≤ values.length by omega)
          (by unfold frameValueNum at *; omega)
        rw [hcached.width] at hnext
        rw [if_neg (by omega), if_neg (by omega), hnext]
        refine ⟨next, ?_, hdecodes, by rw [hmoved]; dsimp only; omega⟩
        dsimp only
        rw [drop_flatMap_valueBytes, take_flatMap_valueBytes, hdrop, take_take, ← flatMap_append,
          min_eq_left (by unfold frameValueNum at *; omega), ← drop_drop, ← take_add,
          show toCopy + (toRead + 1 - toCopy) = toRead + 1 by omega]
      · exact fun hzero => nomatch hzero

section
variable (hle : decoder.curIndex ≤ values.length)
include hle

theorem Decodes.nextBatch (n : Nat) :
    ∃ next, decoder.nextBatch n = .ok ((cursorCall values decoder.curIndex (.nextBatch n)).1, next) ∧
      Decodes next values ∧ next.curIndex = (cursorCall values decoder.curIndex (.nextBatch n)).2 := by
  obtain ⟨next, hnext, hdecodes, hindex⟩ := h.readLoop
    (show decoder.curIndex + min n (values.length - decoder.curIndex) ≤ values.length by omega) le_rfl
  refine ⟨next, ?_, hdecodes, by rw [hindex, cursorCall]; dsimp only; omega⟩
  rw [PageDecoder.nextBatch, h.num, hnext, cursorCall, ← length_drop, ← take_eq_take_min]

theorem Decodes.call {c : PageCall} (hc : c.InRange values.length) :
    ∃ next, call decoder c = .ok ((cursorCall values decoder.curIndex c).1, next) ∧ Decodes next values ∧
      next.curIndex = (cursorCall values decoder.curIndex c).2 ∧ next.curIndex ≤ values.length := by
  cases c with
  | seekToPosition p =>
    have hp : p ≤ values.length := hc
    have hnum := h.num
    refine ⟨_, ?_, h.move p, rfl, hp⟩
    rw [FrameRoundTrip.call, seekToPosition, if_neg (by omega)]
    rfl
  | nextBatch n =>
    obtain ⟨next, hbatch, hnext, hindex⟩ := h.nextBatch hle n
    refine ⟨next, hbatch, hnext, hindex, ?_⟩
    rw [hindex, cursorCall]
    exact min_le_right _ _

theorem Decodes.run {calls : List PageCall} (hcalls : ∀ c ∈ calls, PageCall.InRange values.length c) :
    runCalls FrameRoundTrip.call decoder calls = .ok (specCalls (cursorCall values) decoder.curIndex calls) := by
  refine runCalls_eq (fun decoder pos => Decodes decoder values ∧ decoder.curIndex = pos ∧ pos ≤ values.length) _ ?_
    ⟨h, rfl, hle⟩ hcalls
  rintro decoder _ c ⟨h, rfl, hle⟩ hc
  obtain ⟨next, hcall, hnext, hindex, hle'⟩ := h.call hle hc
  exact ⟨next, hcall, hnext, hindex, hindex ▸ hle'⟩

end

end

/-! ## Writing -/

structure Holds (builder : PageBuilder) (values : List (Signed (8 * size))) : Prop where
  buffer : builder.data = values.flatMap valueBytes
  width : builder.typeSize = size
  num : builder.count = values.length
  fits : values.length < 2 ^ 32

variable {builder : PageBuilder}

/-- A chunk is taken whole when the page has room for it, unless the count overflows. -/
theorem Holds.add (h : Holds builder values) (hsize : 0 < size) {chunk : List (Signed (8 * size))}
    (hroom : (values.length + chunk.length) * size ≤ builder.pageSize) :
    (values.length + chunk.length < 2 ^ 32 → ∃ next n,
      builder.add (chunk.flatMap valueBytes) chunk.length = some (next, n) ∧
      Holds next (values ++ chunk) ∧ next.pageSize = builder.pageSize) ∧
    (2 ^ 32 ≤ values.length + chunk.length → builder.add (chunk.flatMap valueBytes) chunk.length = none) := by
  have hlen : builder.data.length = values.length * size := by rw [h.buffer, length_flatMap_valueBytes]
  have hnum := h.num
  have hfits := h.fits
  have hbytes : ¬ (chunk.flatMap valueBytes).length < chunk.length * builder.typeSize := by
    rw [length_flatMap_valueBytes, h.width]
    omega
  rw [Nat.add_mul] at hroom
  unfold PageBuilder.add
  by_cases hfull : builder.pageSize ≤ builder.data.length
  · -- only an empty chunk has room in a full page
    have hzero : chunk.length = 0 := by
      rcases Nat.eq_zero_or_pos chunk.length with hc | hc
      · exact hc
      · have := Nat.mul_pos hc hsize
        omega
    obtain rfl := length_eq_zero_iff.1 hzero
    rw [if_pos hfull]
    exact ⟨fun _ => ⟨builder, 0, rfl, by rwa [append_nil], rfl⟩, fun hover => absurd hover (by
      rw [length_nil]
      omega)⟩
  · rw [if_neg hfull]
    dsimp only
    rw [if_neg hbytes, hnum]
    refine ⟨fun hlt => ?_, fun hover => by rw [if_pos hover]⟩
    rw [if_neg (by omega)]
    refine ⟨_, _, rfl, ⟨?_, h.width, ?_, by rw [length_append]; exact hlt⟩, rfl⟩
    · dsimp only
      rw [h.buffer, flatMap_append, h.width, ← length_flatMap_valueBytes, take_length]
    · dsimp only
      rw [length_append]

theorem Holds.addAll (h : Holds builder values) (hsize : 0 < size) (chunks : List (List (Signed (8 * size))))
    (hroom : (values.length + chunks.flatten.length) * size ≤ builder.pageSize) :
    (values.length + chunks.flatten.length < 2 ^ 32 →
      ∃ next, addAll builder chunks = some next ∧ Holds next (values ++ chunks.flatten)) ∧
    (2 ^ 32 ≤ values.length + chunks.flatten.length → addAll builder chunks = none) := by
  induction chunks generalizing builder values with
  | nil =>
    have hfits := h.fits
    refine ⟨fun _ => ⟨builder, rfl, by rwa [flatten_nil, append_nil]⟩, fun hover => ?_⟩
    rw [flatten_nil, length_nil] at hover
    omega
  | cons chunk chunks ih =>
    rw [flatten_cons, length_append, ← add_assoc] at *
    obtain ⟨hok, hover⟩ := h.add hsize (show (values.length + chunk.length) * size ≤ builder.pageSize from
        le_trans (Nat.mul_le_mul_right size (Nat.le_add_right _ _)) hroom)
    rw [FrameRoundTrip.addAll]
    by_cases hlt : values.length + chunk.length < 2 ^ 32
    · obtain ⟨next, n, hadd, hnext, hpage⟩ := hok hlt
      rw [hadd, ← append_assoc]
      rw [← length_append] at hroom ⊢
      exact ih hnext (by rw [hpage]; exact hroom)
    · rw [hover (by omega)]
      exact ⟨fun hall => absurd hall (by omega), fun _ => rfl⟩

open PageBuilder

theorem holds_new (size pageSize : Nat) : @Holds size (new size pageSize) [] :=
  ⟨rfl, rfl, rfl, Nat.two_pow_pos 32⟩

def frameOf (values : List (Signed (8 * size))) (f : Nat) : List UInt8 := (encodeValues (frame values f)).getD []

/-- frame_of_reference.rs:169-174 -/
def header (n size : Nat) : List UInt8 :=
  leBytes 4 n ++ (leBytes 4 (frameCount n) ++
    [UInt8.ofNat frameValueNum, UInt8.ofNat (lastFrameSize n), UInt8.ofNat size, 0])

def pageOf (values : List (Signed (8 * size))) : List UInt8 :=
  header values.length size ++ (range (frameCount values.length)).flatMap (frameOf values)

theorem frameValues_eq {data : List UInt8} {count pageSize : Nat} (hdata : data = values.flatMap valueBytes)
    {start n : Nat} (hn : start + n ≤ values.length) :
    (⟨data, size, pageSize, count⟩ : PageBuilder).frameValues start n = (values.drop start).take n := by
  subst hdata
  have hlen : ((values.drop start).take n).length = n := by
    rw [length_take, length_drop]
    omega
  unfold frameValues
  refine ext_getElem (by rw [length_map, length_range, hlen]) fun i hi hi' => ?_
  rw [hlen] at hi'
  have hcons := drop_eq_getElem_cons (l := values) (i := start + i) (by omega)
  rw [getElem_map, getElem_range, getElem_take, getElem_drop]
  dsimp only
  rw [drop_flatMap_valueBytes, hcons, flatMap_cons, take_left' (length_valueBytes _), readValue_valueBytes]

variable {f : Nat}

section
variable (h : Holds builder values)
include h

theorem encodeFrame_eq (hf : f < frameCount values.length) : builder.encodeFrame (f * frameValueNum)
      (if f = frameCount values.length - 1 then lastFrameSize values.length else frameValueNum) =
      encodeValues (frame values f) := by
  have hlen := length_frame hf
  have hmin : (frame values f).length = min frameValueNum (values.length - f * frameValueNum) := by
    rw [frame, length_take, length_drop]
  rw [← hlen]
  obtain ⟨data, typeSize, pageSize, count⟩ := builder
  obtain rfl : typeSize = size := h.width
  have hroom : f * frameValueNum ≤ values.length := by
    unfold frameCount frameValueNum at *
    omega
  unfold encodeFrame
  rw [frameValues_eq h.buffer (by omega), frame, length_take, ← take_eq_take_min]

/-- The page is its header and the encoded frames. -/
theorem finish_frames (hne : values ≠ []) :
    builder.finish = ((range (frameCount values.length)).mapM fun f => builder.encodeFrame (f * frameValueNum)
      (if f = frameCount values.length - 1 then lastFrameSize values.length else frameValueNum)).map
        fun frames => header values.length size ++ frames.flatten := by
  have hpos := length_pos_of_ne_nil hne
  have hnum := h.num
  rw [finish, if_neg (by omega), h.num, h.width]
  rfl

theorem finish_eq (hne : values ≠ [])
    (hframes : ∀ f < frameCount values.length, (encodeValues (frame values f)).isSome = true) :
    builder.finish = some (pageOf values) := by
  rw [finish_frames h hne]
  refine congrArg (Option.map _) (mapM_eq_pure fun f hf => ?_)
  have hf := mem_range.1 hf
  obtain ⟨bytes, hbytes⟩ := isSome_iff_exists.1 (hframes f hf)
  rw [encodeFrame_eq h hf, show frameOf values f = bytes by rw [frameOf, hbytes]; rfl, hbytes]
  rfl

theorem finish_eq_none (hne : values ≠ []) (hf : f < frameCount values.length)
    (hover : encodeValues (frame values f) = none) : builder.finish = none := by
  rw [finish_frames h hne, mapM_eq_none (mem_range.2 hf) (by rw [encodeFrame_eq h hf, hover]), map_none]

end

/-! ## Opening -/

def offsetOf (values : List (Signed (8 * size))) (f : Nat) : Nat :=
  pageHeaderSize + ((range f).flatMap (frameOf values)).length

theorem length_header (n size : Nat) : (header n size).length = pageHeaderSize := by
  rw [header, length_append, length_append, length_leBytes, length_leBytes]
  rfl

theorem drop_offsetOf (hf : f < frameCount values.length) :
    ∃ rest, (pageOf values).drop (offsetOf values f) = frameOf values f ++ rest := by
  obtain ⟨rest, -, hdrop⟩ := drop_flatMap_range (frameOf values) hf
  refine ⟨rest, ?_⟩
  rw [pageOf, offsetOf, ← drop_drop, drop_left' (length_header _ _), hdrop]

theorem offsetOf_succ (values : List (Signed (8 * size))) (f : Nat) :
    offsetOf values (f + 1) = offsetOf values f + (frameOf values f).length := by
  rw [offsetOf, range_succ, flatMap_append, length_append, flatMap_singleton, offsetOf, add_assoc]

def decoderOf (values : List (Signed (8 * size))) (offsets : List Nat) : PageDecoder :=
  ⟨pageOf values, values.length, frameCount values.length, frameValueNum, lastFrameSize values.length, size, offsets, 0,
    none⟩

def offsetsFrom (values : List (Signed (8 * size))) (remaining f offset : Nat) : Except Error (List Nat) :=
  frameOffsetsFrom (pageOf values) (frameCount values.length) frameValueNum (lastFrameSize values.length) size
    remaining f offset

theorem init_page (hne : values ≠ []) (hcount : values.length < 2 ^ 32) (hsize : size < 256) : init (pageOf values) =
      (offsetsFrom values (frameCount values.length) 0 (offsetOf values 0)).map (decoderOf values) := by
  have hpos := length_pos_of_ne_nil hne
  have hframes : frameCount values.length < 2 ^ 32 := by
    unfold frameCount frameValueNum
    omega
  have hlast : lastFrameSize values.length < 256 := by
    unfold lastFrameSize frameValueNum
    split <;> omega
  have hn : (leBytes 4 values.length).length = 4 := length_leBytes 4 _
  have hm : (leBytes 4 (frameCount values.length)).length = 4 := length_leBytes 4 _
  obtain ⟨fields, body, hfields, hbody⟩ : ∃ fields body,
      fields = [UInt8.ofNat frameValueNum, UInt8.ofNat (lastFrameSize values.length), UInt8.ofNat size, 0] ∧
        pageOf values = leBytes 4 values.length ++ (leBytes 4 (frameCount values.length) ++ (fields ++ body)) :=
    ⟨_, _, rfl, by rw [pageOf, header, append_assoc, append_assoc]⟩
  have hdrop4 : (pageOf values).drop 4 = leBytes 4 (frameCount values.length) ++ (fields ++ body) := by
    rw [hbody, drop_left' hn]
  have hdrop8 : (pageOf values).drop 8 = fields ++ body := drop_field hdrop4 hm
  have hget : ∀ i, (pageOf values).getD (8 + i) 0 = (fields ++ body).getD i 0 := by
    intro i
    rw [← hdrop8, getD_eq_getElem?_getD, getD_eq_getElem?_getD, getElem?_drop]
  have hnum : ofLeBytes ((pageOf values).take 4) = values.length := by
    rw [hbody, take_left' hn, ofLeBytes_leBytes hcount]
  have hcountField : ofLeBytes (((pageOf values).drop 4).take 4) = frameCount values.length := by
    rw [hdrop4, take_left' hm, ofLeBytes_leBytes hframes]
  have hframe : ((pageOf values).getD 8 0).toNat = frameValueNum := by rw [hget 0, hfields]; rfl
  have hlastField : ((pageOf values).getD 9 0).toNat = lastFrameSize values.length := by
    rw [hget 1, hfields]
    exact (UInt8.toNat_ofNat').trans (Nat.mod_eq_of_lt hlast)
  have hsizeField : ((pageOf values).getD 10 0).toNat = size := by
    rw [hget 2, hfields]
    exact (UInt8.toNat_ofNat').trans (Nat.mod_eq_of_lt hsize)
  have hlen : ¬ (pageOf values).length < pageHeaderSize := by
    rw [pageOf, length_append, length_header]
    omega
  rw [init, if_neg hlen, hnum, hcountField, hframe, hlastField, hsizeField]
  dsimp only
  rw [if_neg (by omega)]
  rw [show offsetOf values 0 = pageHeaderSize from rfl, offsetsFrom]
  split
  all_goals
    rename_i hoffsets
    rw [hoffsets]
    rfl

theorem frameOf_regular (hf : f < frameCount values.length) (h : Regular (frame values f)) :
    ∃ minVal maxVal, Bounds (frame values f) minVal maxVal ∧
      frameOf values f = frameBytes (frame values f) minVal (packedBytes (frame values f)) := by
  obtain ⟨minVal, maxVal, hb⟩ := exists_bounds (frame_ne_nil hf)
  exact ⟨minVal, maxVal, hb, by rw [frameOf, encodeValues_regular hb h, getD_some]⟩

/-- The loop of `init` passes regular frames. -/
theorem offsetsFrom_regular {j remaining f : Nat} (hf : f + j ≤ frameCount values.length)
    (h : ∀ g, f ≤ g → g < f + j → Regular (frame values g)) :
    offsetsFrom values (j + remaining) f (offsetOf values f) =
      (offsetsFrom values remaining (f + j) (offsetOf values (f + j))).map
        ((range' f j).map (offsetOf values) ++ ·) := by
  induction j generalizing f with
  | zero =>
    rw [zero_add, add_zero]
    cases offsetsFrom values remaining f (offsetOf values f) <;> rfl
  | succ j ih =>
    have hregular := h f (le_refl f) (by omega)
    obtain ⟨minVal, maxVal, hb, hbytes⟩ := frameOf_regular (by omega) hregular
    obtain ⟨rest, hdrop⟩ := drop_offsetOf (show f < frameCount values.length by omega)
    have hwidth := hregular.width_le_64
    rw [hbytes] at hdrop
    obtain ⟨-, -, hget, hbyte, -⟩ := read_head (by omega) hdrop
    have hnext : offsetOf values f + (size + 2) +
        (if 0 < width (frame values f) then ((frame values f).length * width (frame values f) + 7) / 8 else 0) =
          offsetOf values (f + 1) := by
      rw [offsetOf_succ, hbytes, frameBytes, length_append, length_append, length_valueBytes, length_cons,
        length_singleton, (packedBytes_spec hb hregular).1]
      split
      · omega
      · next hzero =>
        rw [show width (frame values f) = 0 by omega, mul_zero]
        omega
    have hstep : offsetsFrom values (j + 1 + remaining) f (offsetOf values f) =
        (offsetsFrom values (j + remaining) (f + 1) (offsetOf values (f + 1))).map (offsetOf values f :: ·) := by
      rw [show j + 1 + remaining = (j + remaining) + 1 by omega, offsetsFrom, frameOffsetsFrom, hget]
      dsimp only
      rw [hbyte, ← length_frame (by omega : f < frameCount values.length), hnext]
      rfl
    rw [hstep, ih (by omega) fun g hg hlt => h g (by omega) (by omega), show f + 1 + j = f + (j + 1) by omega]
    cases offsetsFrom values remaining (f + (j + 1)) (offsetOf values (f + (j + 1))) <;> rfl

/-! ## Round trip -/

def restoredAll (values : List (Signed (8 * size))) : List (Signed (8 * size)) :=
  (range (frameCount values.length)).flatMap fun f => restored (frame values f)

theorem length_restoredAll (values : List (Signed (8 * size))) : (restoredAll values).length = values.length := by
  have hframes := congrArg length (flatMap_frames_all values)
  rw [length_flatMap] at hframes
  rw [restoredAll, length_flatMap]
  refine Eq.trans ?_ hframes
  exact congrArg sum (map_congr_left fun f hf => length_restored (frame_ne_nil (mem_range.1 hf)))

theorem frame_restoredAll (hf : f < frameCount values.length) :
    frame (restoredAll values) f = restored (frame values f) :=
  frame_flatMap (n := values.length) (fun _ hg => (length_restored (frame_ne_nil hg)).trans (length_frame hg)) hf

/-- A frame is restored as it was exactly when no distance loses a bit. -/
theorem restored_eq_iff (hne : values ≠ []) : restored values = values ↔ Lossless values := by
  obtain ⟨minVal, maxVal, hb⟩ := exists_bounds hne
  have hlow := minVal.low
  have hhigh := maxVal.high
  have hspread := hb.spread_eq
  have hwrap : ∀ d : Nat, d ≤ spread values → (Signed.wrap (8 * size) (minVal.val + (d : Int))).val = minVal.val + d :=
    fun d hd => congrArg Signed.val (Signed.wrap_val ⟨minVal.val + (d : Int), by omega, by omega⟩)
  -- place by place: the value is the least one and what is kept of the distance
  have hplace : ∀ i (hi : i < values.length), (restored values)[i]? = values[i]? ↔
      (values[i].val - minVal.val).toNat < 2 ^ (64 - width values * i % 8) := by
    intro i hi
    have hv := hb.le (getElem_mem hi)
    have hdelta : (deltas values)[i]? = some (values[i].val - minVal.val).toNat := by
      rw [hb.deltas_eq, getElem?_map, getElem?_eq_getElem hi]
      rfl
    rw [hb.restored_eq, getElem?_map, stored, getElem?_mapIdx, hdelta, getElem?_eq_getElem hi,
      map_some, map_some, some.injEq]
    generalize hd : (values[i].val - minVal.val).toNat = d
    have hmod : d % 2 ^ (64 - width values * i % 8) ≤ d := Nat.mod_le _ _
    constructor
    · intro heq
      have hval := congrArg Signed.val heq
      rw [hwrap _ (by omega)] at hval
      have hfix : d % 2 ^ (64 - width values * i % 8) = d := by omega
      rw [← hfix]
      exact Nat.mod_lt _ (Nat.two_pow_pos _)
    · intro hlt
      rw [Nat.mod_eq_of_lt hlt]
      refine Signed.ext ?_
      rw [hwrap _ (by omega)]
      omega
  constructor
  · intro heq i d hd
    have hi : i < values.length := by
      have hlt := (List.getElem?_eq_some_iff.1 hd).1
      rwa [hb.deltas_eq, length_map] at hlt
    rw [hb.deltas_eq, getElem?_map, getElem?_eq_getElem hi, map_some] at hd
    rw [← some.inj hd]
    exact (hplace i hi).1 (by rw [heq])
  · intro h
    refine ext_getElem? fun i => ?_
    rcases lt_or_ge i values.length with hi | hi
    · refine (hplace i hi).2 (h i _ ?_)
      rw [hb.deltas_eq, getElem?_map, getElem?_eq_getElem hi]
      rfl
    · rw [getElem?_eq_none (by rw [length_restored hne]; exact hi), getElem?_eq_none hi]

theorem restoredAll_eq_iff (values : List (Signed (8 * size))) :
    restoredAll values = values ↔ ∀ f < frameCount values.length, Lossless (frame values f) := by
  constructor
  · intro heq f hf
    refine (restored_eq_iff (frame_ne_nil hf)).1 ?_
    rw [← frame_restoredAll hf, heq]
  · intro h
    have hall := flatMap_frames_all values
    rw [flatMap_def] at hall
    conv => rhs; rw [← hall]
    rw [restoredAll, flatMap_def]
    exact congrArg flatten (map_congr_left fun f hf =>
      (restored_eq_iff (frame_ne_nil (mem_range.1 hf))).2 (h f (mem_range.1 hf)))

/-- A page of regular frames is opened and read as what its frames are restored to. -/
theorem decodes_page (hsize : size ∈ [1, 2, 4, 8, 16]) (hne : values ≠ []) (hcount : values.length < 2 ^ 32)
    (h : ∀ f < frameCount values.length, Regular (frame values f)) :
    ∃ decoder, init (pageOf values) = .ok decoder ∧ Decodes decoder (restoredAll values) ∧ decoder.curIndex = 0 := by
  have hlt : size < 256 := by
    simp only [mem_cons, not_mem_nil, or_false] at hsize
    omega
  have hloop := @offsetsFrom_regular size values (frameCount values.length) 0 0 (by omega) fun g _ hg => h g (by omega)
  have hoffsets : offsetsFrom values (frameCount values.length) 0 (offsetOf values 0) =
      .ok ((range' 0 (frameCount values.length)).map (offsetOf values) ++ []) := hloop
  refine ⟨_, by rw [init_page hne hcount hlt, hoffsets]; rfl, ?_, rfl⟩
  have hlen := length_restoredAll values
  refine ⟨hlen.symm, by rw [hlen]; rfl, rfl, by rw [hlen]; rfl, rfl, ?_, .inl rfl⟩
  intro f hf
  rw [hlen] at hf
  obtain ⟨minVal, maxVal, hb, hbytes⟩ := frameOf_regular hf (h f hf)
  obtain ⟨rest, hdrop⟩ := drop_offsetOf hf
  rw [hbytes] at hdrop
  have hget : ((range' 0 (frameCount values.length)).map (offsetOf values) ++ [])[f]? = some (offsetOf values f) := by
    rw [append_nil, getElem?_map, getElem?_range' hf]
    simp
  rw [frame_restoredAll hf, ← decodeAt_regular hsize hb (h f hf) hdrop, length_frame hf]
  unfold decodeFrame decoderOf
  dsimp only
  rw [if_neg (fun hnot => hnot hsize), hget]
  rfl

/-- A frame that is not decoded stops a schedule that reads its first value. -/
theorem run_decode_error {e : Error} (hframe : decoder.frameSize = frameValueNum)
    (hcache : decoder.decodedFrame = none) (hlt : f * frameValueNum < decoder.numElements)
    (hdecode : decoder.decodeFrame f = .error e) :
    runCalls call decoder [.seekToPosition (f * frameValueNum), .nextBatch 1] = .error e := by
  have hdiv : f * frameValueNum / decoder.frameSize = f := by
    rw [hframe]
    exact Nat.mul_div_cancel f (by decide)
  have hload : { decoder with curIndex := f * frameValueNum }.cacheFrame f = .error e := by
    rw [PageDecoder.cacheFrame]
    simp only [hcache]
    exact congrArg (Except.map _) hdecode
  have hbatch : { decoder with curIndex := f * frameValueNum }.nextBatch 1 = .error e := by
    unfold PageDecoder.nextBatch
    dsimp only
    rw [show min 1 (decoder.numElements - f * frameValueNum) = 1 by omega, PageDecoder.readLoop]
    · dsimp only
      rw [hdiv, hload]
    · exact fun hzero => nomatch hzero
  rw [runCalls, call, seekToPosition, if_neg (by omega)]
  dsimp only [Except.map]
  rw [runCalls, call, hbatch]

theorem encodeValues_overflow (hf : f < frameCount values.length) (h16 : size ≠ 16)
    (h : ¬ Regular (frame values f)) : encodeValues (frame values f) = none := by
  obtain ⟨minVal, maxVal, hb⟩ := exists_bounds (frame_ne_nil hf)
  rw [Regular, if_neg h16, not_lt] at h
  rw [encodeValues, if_neg h16, encodeFrameTyped_overflow hb h]

theorem isSome_encodeValues (hf : f < frameCount values.length) (h : size = 16 ∨ Regular (frame values f)) :
    (encodeValues (frame values f)).isSome = true := by
  obtain ⟨minVal, maxVal, hb⟩ := exists_bounds (frame_ne_nil hf)
  by_cases hregular : Regular (frame values f)
  · rw [encodeValues_regular hb hregular]
    rfl
  · obtain ⟨-, bytes, -, hbytes⟩ := encodeValues_wide hb (h.resolve_right hregular) hregular
    rw [hbytes]
    rfl

/-- The first frame of sixteen-byte values that is not regular is found by `init`, if it returns, and not decoded. -/
theorem wide_page_fails (h16 : size = 16) (hne : values ≠ []) (hcount : values.length < 2 ^ 32)
    (hf : f < frameCount values.length) (hwide : ¬ Regular (frame values f))
    (hbefore : ∀ g < f, Regular (frame values g)) (hinit : init (pageOf values) = .ok decoder) :
    runCalls call decoder [.seekToPosition (f * frameValueNum), .nextBatch 1] = .error .overflow := by
  have hloop := @offsetsFrom_regular size values f (frameCount values.length - f) 0
    (by omega) fun g _ hg => hbefore g (by omega)
  rw [init_page hne hcount (by omega),
    show frameCount values.length = f + (frameCount values.length - f) by omega, hloop,
    zero_add, show frameCount values.length - f = (frameCount values.length - f - 1) + 1 by omega] at hinit
  cases hrest : offsetsFrom values (frameCount values.length - f - 1 + 1) f (offsetOf values f) with
  | error e => rw [hrest] at hinit; cases hinit
  | ok offsets =>
    rw [hrest] at hinit
    obtain rfl := Except.ok.inj hinit
    -- the offset of the frame itself is recorded before its width is read
    have hhead : offsets[0]? = some (offsetOf values f) := by
      rw [offsetsFrom, frameOffsetsFrom] at hrest
      split at hrest
      · cases hrest
      · dsimp only at hrest
        generalize frameOffsetsFrom _ _ _ _ _ _ _ _ = tail at hrest
        cases tail with
        | error e => cases hrest
        | ok tail =>
          rw [← Except.ok.inj hrest]
          rfl
    have hget : ((range' 0 f).map (offsetOf values) ++ offsets)[f]? = some (offsetOf values f) := by
      rw [getElem?_append_right (by rw [length_map, length_range']), length_map, length_range', Nat.sub_self, hhead]
    obtain ⟨minVal, maxVal, hb⟩ := exists_bounds (frame_ne_nil hf)
    obtain ⟨hwidth, bytes, hbytes, hencode⟩ := encodeValues_wide hb h16 hwide
    obtain ⟨rest, hdrop⟩ := drop_offsetOf hf
    rw [frameOf, hencode, getD_some] at hdrop
    have hpos := length_pos_of_ne_nil (frame_ne_nil hf)
    have hdecode := decodeAt_wide (n := (frame values f).length - 1) h16 hb hwidth hbytes hdrop
    rw [Nat.sub_add_cancel hpos, length_frame hf] at hdecode
    refine run_decode_error rfl rfl
      (by show f * frameValueNum < values.length; unfold frameCount frameValueNum at *; omega) ?_
    unfold decodeFrame decoderOf
    dsimp only
    rw [if_neg (fun hnot => hnot (by rw [h16]; decide)), hget]
    exact hdecode

/-- **Round trip.** Values of 1, 2, 4, 8 or 16 bytes, added in any chunks to a builder with room for them: the page is
written and opened, and every schedule of seeks and batches returns the values, exactly when there are fewer than
`2 ^ 32` of them, no frame of 128 has a spread of `2 ^ 63` or more (`2 ^ 64` for 16 bytes), and every distance of a value
from the least of its frame leaves the bits of the 64-bit buffer free that the value before it still occupies. -/
theorem round_trips_iff (size pageSize : Nat) (chunks : List (List (Signed (8 * size))))
    (hsize : size ∈ [1, 2, 4, 8, 16])
    (hne : chunks.flatten ≠ []) (hroom : chunks.flatten.length * size ≤ pageSize) :
    RoundTrips pageSize chunks ↔ Sound chunks.flatten := by
  have hpos : 0 < size := by
    simp only [mem_cons, not_mem_nil, or_false] at hsize
    omega
  obtain ⟨hadd, hover⟩ := (holds_new size pageSize).addAll hpos chunks (by
    rw [length_nil, zero_add]
    exact hroom)
  rw [length_nil, zero_add, nil_append] at hadd
  rw [length_nil, zero_add] at hover
  constructor
  · rintro ⟨page, decoder, hbuild, hinit, hrun⟩
    have hcount : chunks.flatten.length < 2 ^ 32 := by
      by_contra hlarge
      rw [buildPage, hover (by omega)] at hbuild
      cases hbuild
    obtain ⟨builder, hbuilder, hholds⟩ := hadd hcount
    rw [buildPage, hbuilder, bind_some] at hbuild
    have hregular : ∀ f < frameCount chunks.flatten.length, Regular (frame chunks.flatten f) := by
      by_contra hnot
      simp only [not_forall] at hnot
      by_cases h16 : size = 16
      · classical
        obtain ⟨hf, hwide⟩ := Nat.find_spec hnot
        have hpage := finish_eq hholds hne fun g hg => isSome_encodeValues hg (.inl h16)
        obtain rfl := some.inj (hbuild.symm.trans hpage)
        have hfail := wide_page_fails h16 hne hcount hf hwide (fun g hg => by
          by_contra hg'
          exact Nat.find_min hnot hg ⟨by omega, hg'⟩) hinit
        have hok := hrun [.seekToPosition (Nat.find hnot * frameValueNum), .nextBatch 1] fun c hc => by
          rcases mem_cons.1 hc with rfl | hc
          · show _ * frameValueNum ≤ chunks.flatten.length
            unfold frameCount frameValueNum at *
            omega
          · rw [mem_singleton.1 hc]
            trivial
        rw [hfail] at hok
        cases hok
      · obtain ⟨f, hf, hspread⟩ := hnot
        rw [finish_eq_none hholds hne hf (encodeValues_overflow hf h16 hspread)] at hbuild
        cases hbuild
    have hpage := finish_eq hholds hne fun g hg => isSome_encodeValues hg (.inr (hregular g hg))
    obtain rfl := some.inj (hbuild.symm.trans hpage)
    obtain ⟨decoder', hinit', hdecodes, hindex⟩ := decodes_page hsize hne hcount hregular
    obtain rfl := Except.ok.inj (hinit.symm.trans hinit')
    refine ⟨hcount, hregular, (restoredAll_eq_iff _).1 (flatMap_valueBytes_inj (length_restoredAll _) ?_)⟩
    -- one batch reads the whole page
    have hmine := @Decodes.run _ _ _ hdecodes (by omega) [.nextBatch chunks.flatten.length] fun c hc => by
      rw [mem_singleton.1 hc]
      trivial
    have hall := hrun [.nextBatch chunks.flatten.length] fun c hc => by
      rw [mem_singleton.1 hc]
      trivial
    rw [hmine, hindex] at hall
    have hbytes := congrArg Prod.snd (cons.inj (Except.ok.inj hall)).1
    rw [cursorCall, cursorCall] at hbytes
    dsimp only at hbytes
    rwa [drop_zero, drop_zero, take_length, take_of_length_le (le_of_eq (length_restoredAll chunks.flatten))] at hbytes
  · intro h
    obtain ⟨builder, hbuilder, hholds⟩ := hadd h.count
    have hpage := finish_eq hholds hne fun g hg => isSome_encodeValues hg (.inr (h.regular g hg))
    obtain ⟨decoder, hinit, hdecodes, hindex⟩ := decodes_page hsize hne h.count h.regular
    rw [(restoredAll_eq_iff _).2 h.lossless] at hdecodes
    refine ⟨_, decoder, by rw [buildPage, hbuilder, bind_some, hpage], hinit, fun calls hcalls => ?_⟩
    have hrun := hdecodes.run (by omega) hcalls
    rwa [hindex] at hrun

theorem round_trips_iff_two_chunks :
    RoundTrips 6 [[(⟨-3, by decide, by decide⟩ : Signed (8 * 2))],
      [⟨5, by decide, by decide⟩, ⟨5, by decide, by decide⟩]] ↔
      Sound [(⟨-3, by decide, by decide⟩ : Signed (8 * 2)), ⟨5, by decide, by decide⟩, ⟨5, by decide, by decide⟩] :=
  round_trips_iff 2 6 [[⟨-3, by decide, by decide⟩], [⟨5, by decide, by decide⟩, ⟨5, by decide, by decide⟩]] (by decide)
    (by simp) (by decide)

/-- The least `i64` next to the greatest: the distance overflows while the page is written. Zero next to the greatest:
the page is written without the six highest bits of the distance, and the value read back is `2 ^ 57 - 1`. -/
theorem min_next_to_max_overflows :
    buildPage 16 [[(⟨-2 ^ 63, by decide, by decide⟩ : Signed (8 * 8)), ⟨2 ^ 63 - 1, by decide, by decide⟩]] = none ∧
    (do
      let page ← buildPage 16 [[(⟨0, by decide, by decide⟩ : Signed (8 * 8)), ⟨2 ^ 63 - 1, by decide, by decide⟩]]
      let decoder ← (init page).toOption
      let batch ← (decoder.nextBatch 2).toOption
      pure batch.1) =
      some (2, [(⟨0, by decide, by decide⟩ : Signed (8 * 8)),
        ⟨2 ^ 57 - 1, by decide, by decide⟩].flatMap valueBytes) := by
  decide +kernel

end Paro.L3.FrameRoundTrip
