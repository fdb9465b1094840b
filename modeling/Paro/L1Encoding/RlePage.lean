import Paro.Core.LittleEndian
import Paro.Core.Varint

/-!
# Run-length encoded pages

Model of crates/storage/src/rowset/encoding/rle.rs: a page is the number of its values and a list of runs, each a
varint length and the bytes of the value. The builder holds the open run, the decoder a byte position and what is
left of the current run.

A page is described by its runs (`runsBytes`, `runsValues`). `Encodes` is what the builder keeps
(`Encodes.put`, `encodes_addAll`), and `At` is the decoder at a place of the values: one step of `get`
(`At.get`) and a skip over any number of runs (`At.skip`) keep it.

A value is its bytes: `ValueCodec` is the memory of a `Copy` type. The first and the last value and the flags of
the builder are left out. Counts are numbers here: the results are about pages of fewer than `2 ^ 32` values, for
which no `u32` of the source overflows. `La-b` are lines of this file.
-/
namespace Paro.L1.Rle
open Varint List

structure ValueCodec (T : Type) where
  size : Nat
  encode : T → List UInt8
  decode : List UInt8 → T
  length_encode : ∀ v, (encode v).length = size
  decode_encode : ∀ v, decode (encode v) = v

/-- L28 -/
def pageHeaderSize : Nat := 4

variable {T : Type} (codec : ValueCodec T)

/-! ## Builder -/

/-- L31-43 -/
structure Encoder (T : Type) where
  buffer : List UInt8
  currentValue : Option T
  (runLength count : Nat)

namespace Encoder

/-- L47-59 -/
def new : Encoder T := ⟨replicate pageHeaderSize 0, none, 0, 0⟩

variable (encoder : Encoder T)

/-- L79-103 -/
def flushRun : Encoder T :=
  if encoder.runLength = 0 then encoder
  else
    match encoder.currentValue with
    -- the source unwraps: a run has a value
    | none => encoder
    | some value =>
      { encoder with
        buffer := encoder.buffer ++ (putVarint encoder.runLength ++ codec.encode value)
        runLength := 0 }

/-- L62-76 -/
def put [DecidableEq T] (value : T) : Encoder T :=
  let encoder :=
    match encoder.currentValue with
    | some current =>
      if value = current then { encoder with runLength := encoder.runLength + 1 }
      else { encoder.flushRun codec with currentValue := some value, runLength := 1 }
    | none => { encoder with currentValue := some value, runLength := 1 }
  { encoder with count := encoder.count + 1 }

/-- L106-114 -/
def finish : List UInt8 :=
  let encoder := encoder.flushRun codec
  leBytes 4 encoder.count ++ encoder.buffer.drop 4

end Encoder

/-- L231-242 -/
structure PageBuilder (T : Type) where
  encoder : Encoder T
  pageSize : Nat

namespace PageBuilder

/-- L246-254 -/
def new (pageSize : Nat) : PageBuilder T := ⟨Encoder.new, pageSize⟩

variable (builder : PageBuilder T)

/-- L257-259 -/
def isPageFull : Bool := decide (builder.pageSize ≤ builder.encoder.buffer.length)

/-- The builder, and how many of the values it took. L262-278 -/
def add [DecidableEq T] (builder : PageBuilder T) : List T → PageBuilder T × Nat
  | [] => (builder, 0)
  | value :: values =>
    if builder.isPageFull then (builder, 0)
    else
      let rest := add { builder with encoder := builder.encoder.put codec value } values
      (rest.1, rest.2 + 1)

/-- L281-285 -/
def finish : List UInt8 := builder.encoder.finish codec

/-- Any number of `add` calls: the builder, and the values it took. -/
def addAll [DecidableEq T] (builder : PageBuilder T) : List (List T) → PageBuilder T × List T
  | [] => (builder, [])
  | values :: calls =>
    let added := builder.add codec values
    let rest := addAll added.1 calls
    (rest.1, values.take added.2 ++ rest.2)

end PageBuilder

/-! ## Decoder -/

/-- L132-144 -/
structure Decoder (T : Type) where
  data : List UInt8
  pos : Nat
  currentValue : T
  remainingInRun : Nat

namespace Decoder

/-- L148-156 -/
def new [Inhabited T] (data : List UInt8) : Decoder T := ⟨data, pageHeaderSize, default, 0⟩

variable (decoder : Decoder T)

/-- A shift of more than 31 loses its bits. L159-197 -/
def readNextRun : Bool × Decoder T :=
  if decoder.data.length ≤ decoder.pos then (false, decoder)
  else
    match readVarint 32 (fun _ => false) 0 0 (decoder.data.drop decoder.pos) with
    | .error _ => (false, { decoder with pos := decoder.data.length })
    | .ok (runLength, rest) =>
      let pos := decoder.data.length - rest.length
      if decoder.data.length < pos + codec.size then (false, { decoder with pos })
      else
        (true, { decoder with
          currentValue := codec.decode (rest.take codec.size)
          pos := pos + codec.size
          remainingInRun := runLength })

/-- Read a run when the current one is used up. L201 and 212 -/
def ensureRun : Bool × Decoder T :=
  if decoder.remainingInRun = 0 then decoder.readNextRun codec else (true, decoder)

/-- L200-207 -/
def get : Option T × Decoder T :=
  match decoder.ensureRun codec with
  | (false, decoder) => (none, decoder)
  | (true, decoder) =>
    (some decoder.currentValue, { decoder with remainingInRun := decoder.remainingInRun - 1 })

theorem readNextRun_progress {decoder next : Decoder T} (h : decoder.readNextRun codec = (true, next)) :
    next.data = decoder.data ∧ decoder.pos < next.pos ∧ decoder.pos < decoder.data.length := by
  unfold readNextRun at h
  split at h
  · cases h
  rename_i hpos
  split at h
  · cases h
  rename_i runLength rest hread
  have hshort := length_readVarint hread
  rw [length_drop] at hshort
  dsimp only at h
  split at h
  · cases h
  · cases h
    exact ⟨rfl, by show _ < _ - _ + _; omega, by omega⟩

/-- Every round uses up values to skip or bytes. L210-221 -/
def skip (decoder : Decoder T) (n : Nat) : Bool × Decoder T :=
  if _hn : n = 0 then (true, decoder)
  else
    match _hrun : decoder.ensureRun codec with
    | (false, decoder) => (false, decoder)
    | (true, next) =>
      skip { next with remainingInRun := next.remainingInRun - min n next.remainingInRun }
        (n - min n next.remainingInRun)
termination_by n + (decoder.data.length - decoder.pos)
decreasing_by
  unfold ensureRun at _hrun
  split at _hrun
  · obtain ⟨hdata, hpos, hlen⟩ := readNextRun_progress codec _hrun
    simp only [hdata]
    omega
  · cases _hrun
    omega

/-- L224-227 -/
def reset : Decoder T := { decoder with pos := pageHeaderSize, remainingInRun := 0 }

end Decoder

inductive Error
  /-- `RlePageDecoder: data too small` -/
  | dataTooSmall
  /-- `position … > num_elements …` -/
  | outOfRange (position numElements : Nat)
  /-- `RLE skip failed` -/
  | skipFailed
deriving DecidableEq, Repr

/-- A decoder after `init`. L317-330 -/
structure PageDecoder (T : Type) where
  numElements : Nat
  decoder : Decoder T
  curIndex : Nat

namespace PageDecoder

/-- L346-364 -/
def init [Inhabited T] (data : List UInt8) : Except Error (PageDecoder T) :=
  if data.length < pageHeaderSize then .error .dataTooSmall
  else .ok ⟨ofLeBytes (data.take 4), Decoder.new data, 0⟩

variable (page : PageDecoder T)

/-- L367-400 -/
def seekToPosition (pos : Nat) : Except Error (PageDecoder T) :=
  if page.numElements < pos then .error (.outOfRange pos page.numElements)
  else
    let page := if pos < page.curIndex then { page with decoder := page.decoder.reset, curIndex := 0 } else page
    let toSkip := pos - page.curIndex
    if 0 < toSkip then
      match page.decoder.skip codec toSkip with
      | (false, _) => .error .skipFailed
      | (true, decoder) => .ok { page with decoder, curIndex := pos }
    else .ok { page with curIndex := pos }

/-- The loop of `next_batch`. L415-422 -/
def readValues (page : PageDecoder T) : Nat → List T × PageDecoder T
  | 0 => ([], page)
  | toRead + 1 =>
    match page.decoder.get codec with
    | (some value, decoder) =>
      let rest := readValues { page with decoder, curIndex := page.curIndex + 1 } toRead
      (value :: rest.1, rest.2)
    | (none, decoder) => ([], { page with decoder })

/-- L403-426 -/
def nextBatch (n : Nat) : List T × PageDecoder T :=
  page.readValues codec (min n (page.numElements - page.curIndex))

end PageDecoder

/-! ## Runs -/

variable (runs : List (Nat × T))

def runsBytes : List UInt8 := runs.flatMap fun run => putVarint run.1 ++ codec.encode run.2

def runsValues : List T := runs.flatMap fun run => replicate run.1 run.2

def RunsOk : Prop := ∀ run ∈ runs, 0 < run.1 ∧ run.1 < 2 ^ 32

/-- The values that an encoder has taken: the runs in the buffer and the open run. -/
structure Encodes (encoder : Encoder T) (values : List T) (runs : List (Nat × T)) : Prop where
  buffer : encoder.buffer.drop 4 = runsBytes codec runs
  taken : values = runsValues runs ++ encoder.currentValue.elim [] (replicate encoder.runLength ·)
  count : encoder.count = values.length
  positive : ∀ run ∈ runs, 0 < run.1
  header : 4 ≤ encoder.buffer.length
  openRun : encoder.currentValue.isSome → 0 < encoder.runLength
  noRun : encoder.currentValue = none → encoder.runLength = 0

variable {codec} {encoder : Encoder T} {values : List T} {runs : List (Nat × T)}

theorem Encodes.flush {value : T} (h : Encodes codec encoder values runs) (hvalue : encoder.currentValue = some value) :
    (encoder.flushRun codec).buffer.drop 4 = runsBytes codec (runs ++ [(encoder.runLength, value)]) ∧
      (encoder.flushRun codec).count = encoder.count ∧ 4 ≤ (encoder.flushRun codec).buffer.length := by
  have hpos := h.openRun (by rw [hvalue]; rfl)
  have hheader := h.header
  rw [Encoder.flushRun, if_neg (by omega), hvalue]
  refine ⟨?_, rfl, ?_⟩
  · dsimp only
    rw [drop_append_of_le_length hheader, h.buffer, runsBytes, runsBytes, flatMap_append, flatMap_singleton]
  · rw [length_append]
    omega

theorem encodes_put [DecidableEq T] (h : Encodes codec encoder values runs) (value : T) :
    ∃ runs', Encodes codec (encoder.put codec value) (values ++ [value]) runs' := by
  have hcount : encoder.count + 1 = (values ++ [value]).length := by
    rw [h.count, length_append, length_singleton]
  unfold Encoder.put
  cases hcurrent : encoder.currentValue with
  | none =>
    refine ⟨runs, h.buffer, ?_, hcount, h.positive, h.header, fun _ => Nat.one_pos, nofun⟩
    have hvalues := h.taken
    rw [hcurrent, Option.elim_none, append_nil] at hvalues
    rw [hvalues]
    rfl
  | some current =>
    have hvalues := h.taken
    rw [hcurrent, Option.elim_some] at hvalues
    dsimp only
    split
    · rename_i heq
      subst heq
      refine ⟨runs, h.buffer, ?_, hcount, h.positive, h.header, fun _ => Nat.succ_pos _, ?_⟩
      · rw [hvalues, append_assoc]
        exact congrArg (runsValues runs ++ ·) replicate_succ'.symm
      · nofun
    · obtain ⟨hbuffer, hcount', hheader⟩ := h.flush hcurrent
      refine ⟨runs ++ [(encoder.runLength, current)], hbuffer, ?_, ?_, ?_, hheader, fun _ => Nat.one_pos, nofun⟩
      · rw [hvalues, runsValues, runsValues, flatMap_append, flatMap_singleton]
        rfl
      · exact (congrArg (· + 1) hcount').trans hcount
      · exact forall_mem_append.2 ⟨h.positive, forall_mem_singleton.2 (h.openRun (by rw [hcurrent]; rfl))⟩

theorem encodes_new : Encodes codec (Encoder.new : Encoder T) [] [] :=
  ⟨rfl, rfl, rfl, fun _ h => absurd h not_mem_nil, le_refl 4, nofun, fun _ => rfl⟩

section
variable [DecidableEq T] {builder : PageBuilder T} (h : Encodes codec builder.encoder values runs)
include h

theorem encodes_add (vals : List T) :
    ∃ runs', Encodes codec (builder.add codec vals).1.encoder (values ++ vals.take (builder.add codec vals).2)
      runs' := by
  induction vals generalizing builder values runs with
  | nil => exact ⟨runs, by simpa [PageBuilder.add] using h⟩
  | cons value vals ih =>
    unfold PageBuilder.add
    split
    · exact ⟨runs, by simpa using h⟩
    · obtain ⟨runs1, h1⟩ := encodes_put h value
      obtain ⟨runs2, h2⟩ := @ih _ _ { builder with encoder := builder.encoder.put codec value } h1
      exact ⟨runs2, by simpa using h2⟩

theorem encodes_addAll (calls : List (List T)) :
    ∃ runs', Encodes codec (builder.addAll codec calls).1.encoder (values ++ (builder.addAll codec calls).2) runs' := by
  induction calls generalizing builder values runs with
  | nil => exact ⟨runs, by simpa [PageBuilder.addAll] using h⟩
  | cons vals calls ih =>
    obtain ⟨runs1, h1⟩ := encodes_add h vals
    obtain ⟨runs2, h2⟩ := ih h1
    refine ⟨runs2, ?_⟩
    rw [append_assoc] at h2
    exact h2

end

structure IsPage (codec : ValueCodec T) (data : List UInt8) (values : List T) : Prop where
  layout : ∃ runs, RunsOk runs ∧ runsValues runs = values ∧ data = leBytes 4 values.length ++ runsBytes codec runs

theorem length_le_runsValues {run : Nat × T} (h : run ∈ runs) : run.1 ≤ (runsValues runs).length := by
  obtain ⟨before, behind, rfl⟩ := append_of_mem h
  rw [runsValues, flatMap_append, flatMap_cons, length_append, length_append, length_replicate]
  omega

theorem runsOk_of_positive (h : ∀ run ∈ runs, 0 < run.1) (hlen : (runsValues runs).length < 2 ^ 32) : RunsOk runs :=
  fun run hrun => ⟨h run hrun, lt_of_le_of_lt (length_le_runsValues hrun) hlen⟩

theorem isPage_finish (h : Encodes codec encoder values runs) (hlen : values.length < 2 ^ 32) :
    IsPage codec (encoder.finish codec) values := by
  cases hcurrent : encoder.currentValue with
  | none =>
    have hvalues := h.taken
    rw [hcurrent, Option.elim_none, append_nil] at hvalues
    refine ⟨runs, runsOk_of_positive h.positive (hvalues ▸ hlen), hvalues.symm, ?_⟩
    rw [Encoder.finish, Encoder.flushRun, if_pos (h.noRun hcurrent), h.buffer, h.count]
  | some value =>
    obtain ⟨hbuffer, hcount, -⟩ := h.flush hcurrent
    have hvalues : runsValues (runs ++ [(encoder.runLength, value)]) = values := by
      rw [h.taken, hcurrent, runsValues, runsValues, flatMap_append, flatMap_singleton]
      rfl
    refine ⟨runs ++ [(encoder.runLength, value)], runsOk_of_positive ?_ (hvalues.symm ▸ hlen), hvalues, ?_⟩
    · exact forall_mem_append.2 ⟨h.positive, forall_mem_singleton.2 (h.openRun (by rw [hcurrent]; rfl))⟩
    · rw [Encoder.finish, hbuffer, hcount, h.count]

/-! ## The decoder at a place -/

/-- The decoder stands before the values `rest`: what is left of its run, and the runs behind its position. -/
structure At (codec : ValueCodec T) (decoder : Decoder T) (rest : List T) : Prop where
  place : ∃ runs, RunsOk runs ∧ decoder.data.drop decoder.pos = runsBytes codec runs ∧
    rest = replicate decoder.remainingInRun decoder.currentValue ++ runsValues runs

variable {decoder : Decoder T} {rest : List T}

theorem at_reset (h : IsPage codec decoder.data values) : At codec decoder.reset values := by
  obtain ⟨runs, hruns, hvalues, hdata⟩ := h.layout
  refine ⟨runs, hruns, ?_, hvalues.symm⟩
  show decoder.data.drop 4 = _
  rw [hdata]
  exact drop_left' (length_leBytes 4 _)

/-- Before a value, the decoder gets to a run that is not used up. -/
theorem At.ensureRun (h : At codec decoder rest) (hrest : rest ≠ []) :
    ∃ next, decoder.ensureRun codec = (true, next) ∧ next.data = decoder.data ∧ 0 < next.remainingInRun ∧
      At codec next rest := by
  obtain ⟨runs, hruns, hbytes, hvalues⟩ := h.place
  unfold Decoder.ensureRun
  split
  · rename_i hzero
    rw [hzero, replicate_zero, nil_append] at hvalues
    cases runs with
    | nil => exact absurd hvalues hrest
    | cons run runs =>
      obtain ⟨hpos, hfits⟩ := hruns run mem_cons_self
      have hsplit : runsBytes codec (run :: runs) =
          putVarint run.1 ++ (codec.encode run.2 ++ runsBytes codec runs) := by
        rw [runsBytes, flatMap_cons, append_assoc]
        rfl
      have hread := @readVarint_putVarint 32 0 0 _ (fun _ => false)
        (codec.encode run.2 ++ runsBytes codec runs) (fun _ _ => rfl) (by decide) (by simpa using hfits)
      rw [Nat.pow_zero, mul_one, zero_add] at hread
      rw [hsplit] at hbytes
      have hlen := congrArg List.length hbytes
      have hvarint : 0 < (putVarint run.1).length := length_pos_iff.2 (putVarint_ne_nil _)
      simp only [length_drop, length_append, codec.length_encode] at hlen
      unfold Decoder.readNextRun
      rw [if_neg (by omega), hbytes, hread]
      dsimp only
      rw [if_neg (by simp only [length_append, codec.length_encode]; omega)]
      refine ⟨_, rfl, rfl, hpos, runs, fun r hr => hruns r (mem_cons_of_mem run hr), ?_, ?_⟩
      · -- the value is behind the varint, the other runs behind the value
        have hplace : decoder.data.length - (codec.encode run.2 ++ runsBytes codec runs).length + codec.size =
            decoder.pos + ((putVarint run.1).length + codec.size) := by
          simp only [length_append, codec.length_encode]
          omega
        show decoder.data.drop (_ + _) = _
        rw [hplace, ← drop_drop, hbytes, ← drop_drop, drop_left, drop_left' (codec.length_encode run.2)]
      · rw [hvalues, runsValues, flatMap_cons, take_left' (codec.length_encode run.2), codec.decode_encode]
        rfl
  · rename_i hpos
    exact ⟨decoder, rfl, rfl, pos_of_ne_zero hpos, h⟩

/-- Within a run, values are used up from the front. -/
theorem At.take (h : At codec decoder rest) {n : Nat} (hn : n ≤ decoder.remainingInRun) :
    rest.take n = replicate n decoder.currentValue ∧
      At codec { decoder with remainingInRun := decoder.remainingInRun - n } (rest.drop n) := by
  obtain ⟨runs, hruns, hbytes, hvalues⟩ := h.place
  refine ⟨?_, runs, hruns, hbytes, ?_⟩
  · rw [hvalues, take_append_of_le_length (by rwa [length_replicate]), take_replicate, min_eq_left hn]
  · rw [hvalues, drop_append_of_le_length (by rwa [length_replicate]), drop_replicate]

theorem At.get {value : T} (h : At codec decoder (value :: rest)) :
    ∃ next, decoder.get codec = (some value, next) ∧ next.data = decoder.data ∧ At codec next rest := by
  obtain ⟨next, hrun, hdata, hpos, hat⟩ := h.ensureRun (cons_ne_nil _ _)
  obtain ⟨htake, hdrop⟩ := hat.take (n := 1) hpos
  have hvalue : value = next.currentValue := by simpa using htake
  exact ⟨{ next with remainingInRun := next.remainingInRun - 1 }, by rw [Decoder.get, hrun, hvalue], hdata, hdrop⟩

theorem At.skip (h : At codec decoder rest) {n : Nat} (hn : n ≤ rest.length) :
    ∃ next, decoder.skip codec n = (true, next) ∧ next.data = decoder.data ∧ At codec next (rest.drop n) := by
  induction n using Nat.strongRecOn generalizing decoder rest with
  | ind n ih =>
    rw [Decoder.skip]
    split
    · rename_i hzero
      subst hzero
      exact ⟨decoder, rfl, rfl, h⟩
    rename_i hne
    obtain ⟨run, hrun, hdata, hpos, hat⟩ := h.ensureRun (length_pos_iff.1 (by omega))
    have hdrop := (hat.take (n := min n run.remainingInRun) (min_le_right _ _)).2
    obtain ⟨next, hskip, hdata', hat'⟩ := ih (n - min n run.remainingInRun) (by omega) hdrop
      (by rw [length_drop]; omega)
    refine ⟨next, ?_, hdata'.trans hdata, ?_⟩
    · split
      · rename_i hfail
        rw [hrun] at hfail
        cases hfail
      · rename_i hok
        rw [hrun] at hok
        cases hok
        exact hskip
    · rw [drop_drop] at hat'
      rwa [show min n run.remainingInRun + (n - min n run.remainingInRun) = n by omega] at hat'

end Paro.L1.Rle
