import Paro.L1Encoding.BinaryPrefixPage

/-!
# Seeking in a prefix-compressed page

A decoder of a written page always stands at a position (`At`), after seeks and batches that succeed and after the
ones that fail. So a seek to a position of a value, a batch and a search can be described without knowing what was
done before: `Opened.seek`, `At.nextBatch`, `Opened.seekAtOrAfterValue`.

The one failure is a seek to the end of a page that is not empty: the loop reads a value for each position up to the
target, and there is none at the end (`Opened.seek_end`). `prefix_seek_iff` says that it is the only one.
-/
namespace Paro.L3.PrefixSeek
open L1.BinaryPrefix Varint List
open Decoder hiding advance nextBatch readForward seekAtOrAfterValue

variable (values : List Value)

def trailerOf : Trailer where
  data := pageBytes values
  numEntries := values.length
  restartInterval := restartPointInterval
  numRestarts := restartCount values.length
  restartsOffset := (entries 0 [] values).length + 5
  footerStart := (entries 0 [] values).length

structure Opened (values : List Value) (decoder : Decoder) : Prop where
  trailer : decoder.toTrailer = trailerOf values
  fits : (pageBytes values).length < 2 ^ 32

structure At (values : List Value) (decoder : Decoder) (pos : Nat) : Prop extends Opened values decoder where
  curPos : decoder.curPos = pos
  le : pos ≤ values.length
  value : ∀ v, values[pos]? = some v → decoder.currentValue = v ∧ decoder.nextPtr = offset values (pos + 1)

variable {values} {decoder : Decoder} {pos : Nat}

namespace Opened

section
variable (h : Opened values decoder)
include h

theorem data : decoder.data = pageBytes values := congrArg Trailer.data h.trailer

theorem numEntries : decoder.numEntries = values.length :=
  congrArg Trailer.numEntries h.trailer

theorem restartInterval : decoder.restartInterval = 16 :=
  congrArg Trailer.restartInterval h.trailer

theorem numRestarts : decoder.numRestarts = restartCount values.length :=
  congrArg Trailer.numRestarts h.trailer

theorem restartsOffset : decoder.restartsOffset = (entries 0 [] values).length + 5 :=
  congrArg Trailer.restartsOffset h.trailer

theorem footerStart : decoder.footerStart = (entries 0 [] values).length :=
  congrArg Trailer.footerStart h.trailer

end

end Opened

variable (values)

theorem length_restarts : (restarts values).length = restartCount values.length := by
  rw [restarts, length_map, length_range]

theorem length_pageBytes :
    (pageBytes values).length = (entries 0 [] values).length + 9 + 4 * restartCount values.length := by
  simp only [pageBytes, length_append, length_cons, length_leBytes, length_flatMap_leBytes, length_restarts]
  omega

/-- The page behind its entries. -/
theorem drop_entries : (pageBytes values).drop (entries 0 [] values).length = leBytes 4 values.length ++
    ([UInt8.ofNat restartPointInterval] ++ ((restarts values).flatMap (leBytes 4) ++
      leBytes 4 (restarts values).length)) :=
  drop_left

theorem drop_restarts : (pageBytes values).drop ((entries 0 [] values).length + 5) =
    (restarts values).flatMap (leBytes 4) ++ leBytes 4 (restarts values).length :=
  (drop_field (drop_field (drop_entries values) (length_leBytes 4 _)) rfl :)

/-! ## Reading one value -/

theorem getVarint_putVarint {n : Nat} (h : n < 2 ^ 32) (rest : List UInt8) :
    getVarint (putVarint n ++ rest) = .ok (n, (putVarint n).length) := by
  have hread := @readVarint_putVarint 32 0 0 _ (fun shift => decide (32 ≤ shift)) rest
    (fun s hs => by simpa using hs) (by decide) (by simpa using h)
  rw [getVarint, hread]
  simp

def sharedLen (pos : Nat) (v : Value) : Nat :=
  if pos % restartPointInterval = 0 then 0 else commonPrefixLen (before values pos) v

theorem sharedLen_le (pos : Nat) (v : Value) :
    sharedLen values pos v ≤ (before values pos).length ∧ sharedLen values pos v ≤ v.length := by
  have h := take_commonPrefixLen (before values pos) v
  unfold sharedLen
  split
  · exact ⟨Nat.zero_le _, Nat.zero_le _⟩
  · exact h.2

variable {v : Value} {values}

/-- The value is rebuilt from the one before it, or, at a restart point, from nothing. -/
theorem rebuild {current : Value} (h : pos % restartPointInterval = 0 ∨ current = before values pos) :
    current.take (sharedLen values pos v) ++ v.drop (sharedLen values pos v) = v := by
  unfold sharedLen
  split
  · rfl
  · rename_i hrestart
    obtain rfl := h.resolve_left hrestart
    rw [(take_commonPrefixLen (before values pos) v).1, take_append_drop]

/-- The page from the start of a value on. -/
theorem drop_page (hv : values[pos]? = some v) :
    ∃ tail, (pageBytes values).drop (offset values pos) = putVarint (sharedLen values pos v % 2 ^ 32) ++
        (putVarint ((v.length - sharedLen values pos v) % 2 ^ 32) ++ (v.drop (sharedLen values pos v) ++ tail)) := by
  obtain ⟨hlt, hget⟩ := List.getElem?_eq_some_iff.1 hv
  have hle := @offset_le_entries values _ (le_of_lt hlt)
  have hdrop : values.drop pos = v :: values.drop (pos + 1) := by rw [drop_eq_getElem_cons hlt, hget]
  have hentries := drop_offset (le_of_lt hlt)
  rw [hdrop, entries, entryBytes] at hentries
  refine ⟨entries (pos + 1) v (values.drop (pos + 1)) ++ (pageBytes values).drop (entries 0 [] values).length, ?_⟩
  have hpage : pageBytes values = entries 0 [] values ++ (pageBytes values).drop (entries 0 [] values).length := by
    rw [pageBytes, drop_left]
  rw [hpage, drop_append_of_le_length (by omega), hentries, ← hpage]
  simp only [append_assoc]
  rfl

theorem readNextValue_spec (h : Opened values decoder) (hptr : decoder.nextPtr = offset values pos)
    (hv : values[pos]? = some v) (hbefore : pos % restartPointInterval = 0 ∨ decoder.currentValue = before values pos) :
    decoder.readNextValue = (.ok (), { decoder with nextPtr := offset values (pos + 1), currentValue := v }) := by
  obtain ⟨hlt, -⟩ := List.getElem?_eq_some_iff.1 hv
  obtain ⟨tail, hdrop⟩ := drop_page hv
  have hfits := h.fits
  rw [length_pageBytes] at hfits
  have hoffset := @offset_le_entries values _ (le_of_lt hlt)
  have hend := @offset_le_entries values (pos + 1) hlt
  have hlen := @length_before_le values (pos + 1) hlt
  rw [before_succ hv] at hlen
  obtain ⟨hshared, hsharedv⟩ := sharedLen_le values pos v
  rw [Nat.mod_eq_of_lt (by omega), Nat.mod_eq_of_lt (by omega)] at hdrop
  have hnext : offset values (pos + 1) = offset values pos + ((putVarint (sharedLen values pos v)).length +
      ((putVarint (v.length - sharedLen values pos v)).length + (v.length - sharedLen values pos v))) := by
    have hentry : (entryBytes pos (before values pos) v).length = (putVarint (sharedLen values pos v % 2 ^ 32)).length +
        ((putVarint ((v.length - sharedLen values pos v) % 2 ^ 32)).length +
          (v.drop (sharedLen values pos v)).length) := by
      rw [entryBytes, length_append, length_append]
      rfl
    rw [offset_succ hv, hentry, length_drop, Nat.mod_eq_of_lt (by omega), Nat.mod_eq_of_lt (by omega)]
  have hrebuild := rebuild (v := v) hbefore
  generalize sharedLen values pos v = shared at *
  -- the page behind the first and behind the second varint
  have hdrop1 : (pageBytes values).drop (offset values pos + (putVarint shared).length) =
      putVarint (v.length - shared) ++ (v.drop shared ++ tail) := drop_field hdrop rfl
  have hdrop2 : (pageBytes values).drop (offset values pos + (putVarint shared).length +
      (putVarint (v.length - shared)).length) = v.drop shared ++ tail := drop_field hdrop1 rfl
  unfold readNextValue
  rw [h.footerStart, h.data, hptr, if_neg (by omega), hdrop, getVarint_putVarint (by omega)]
  dsimp only
  rw [hdrop1, getVarint_putVarint (by omega)]
  dsimp only
  rw [if_neg (by rw [length_pageBytes]; omega), hdrop2, take_left' (by rw [length_drop]), hrebuild, hnext]
  simp only [add_assoc]

/-! ## Positions -/

/-- The state after reading the value of a position. -/
theorem at_read (h : Opened values decoder) (hcur : decoder.curPos = pos) (hv : values[pos]? = some v) :
    At values { decoder with nextPtr := offset values (pos + 1), currentValue := v } pos := by
  refine ⟨⟨h.trailer, h.fits⟩, hcur, le_of_lt (List.getElem?_eq_some_iff.1 hv).1, fun w hw => ?_⟩
  rw [hv] at hw
  exact ⟨Option.some.inj hw, rfl⟩

theorem exists_value (h : pos < values.length) : ∃ v, values[pos]? = some v := ⟨_, getElem?_eq_getElem h⟩

namespace Opened

theorem restart (h : Opened values decoder) {k : Nat} (hk : k < restartCount values.length) :
    ∃ next, decoder.seekToRestartPoint k = (.ok (), next) ∧ At values next (16 * k) := by
  have hpos : 16 * k < values.length := by
    rw [restartCount] at hk
    omega
  obtain ⟨v, hv⟩ := exists_value hpos
  have hlen := length_pageBytes values
  have hfits := h.fits
  have hle := @offset_le_entries values _ (le_of_lt hpos)
  have hcount := @offset_le_entries values 0 (Nat.zero_le _)
  have hstored : (restarts values)[k]? = some (offset values (16 * k) % 2 ^ 32) := by
    rw [restarts, List.getElem?_map, List.getElem?_range hk]
    rfl
  have hread : ofLeBytes ((decoder.data.drop (decoder.restartsOffset + k * 4)).take 4) = offset values (16 * k) := by
    rw [h.data, h.restartsOffset, ← drop_drop, drop_restarts, mul_comm, take_drop_flatMap_leBytes hstored,
      Nat.mod_eq_of_lt (by omega), ofLeBytes_leBytes (by simpa using (show offset values (16 * k) < 2 ^ 32 by omega))]
  have hcur : k * decoder.restartInterval % 2 ^ 32 = 16 * k := by
    rw [h.restartInterval, Nat.mod_eq_of_lt (by omega), mul_comm]
  unfold seekToRestartPoint
  rw [if_neg (by rw [h.data, h.restartsOffset]; omega), hread, hcur]
  have hopened : Opened values
      { decoder with nextPtr := offset values (16 * k), curPos := 16 * k, currentValue := [] } :=
    ⟨h.trailer, h.fits⟩
  rw [readNextValue_spec hopened rfl hv (.inl (Nat.mul_mod_right 16 k))]
  exact ⟨_, rfl, at_read hopened rfl hv⟩

end Opened

section
variable (h : At values decoder pos)
include h

/-- Reading on from a position. -/
theorem At.readNext (hlt : pos + 1 < values.length) : ∃ v, values[pos + 1]? = some v ∧ decoder.readNextValue =
      (.ok (), { decoder with nextPtr := offset values (pos + 1 + 1), currentValue := v }) := by
  obtain ⟨v, hv⟩ := exists_value hlt
  obtain ⟨u, hu⟩ := exists_value (show pos < values.length by omega)
  obtain ⟨hvalue, hptr⟩ := h.value u hu
  exact ⟨v, hv, readNextValue_spec h.toOpened hptr hv (.inr (hvalue.trans (before_succ hu).symm))⟩

/-- There is no value at the end. -/
theorem At.readNext_end (hlast : pos + 1 = values.length) :
    decoder.readNextValue = (.error .noMoreValues, decoder) := by
  obtain ⟨u, hu⟩ := exists_value (show pos < values.length by omega)
  obtain ⟨-, hptr⟩ := h.value u hu
  unfold readNextValue
  rw [if_pos]
  rw [h.footerStart, hptr, hlast, offset_length]

/-- One round of reading forward. -/
theorem At.readForward_succ (hlt : pos + 1 < values.length) (rounds : Nat) :
    ∃ next, decoder.readForward (rounds + 1) = next.readForward rounds ∧ At values next (pos + 1) := by
  obtain ⟨v, hv, hread⟩ := h.readNext hlt
  have hopened : Opened values { decoder with curPos := decoder.curPos + 1 } := ⟨h.trailer, h.fits⟩
  refine ⟨_, ?_, at_read hopened (congrArg (· + 1) h.curPos) hv⟩
  rw [Decoder.readForward, hread]
  rfl

theorem At.readForward {rounds : Nat} (hlt : pos + rounds < values.length) :
    ∃ next, decoder.readForward rounds = (.ok (), next) ∧ At values next (pos + rounds) := by
  induction rounds generalizing decoder pos with
  | zero => exact ⟨decoder, rfl, h⟩
  | succ rounds ih =>
    obtain ⟨next, hnext, hat⟩ := h.readForward_succ (by omega) rounds
    rw [hnext, show pos + (rounds + 1) = pos + 1 + rounds by omega]
    exact ih hat (by omega)

theorem At.readForward_end {rounds : Nat} (hend : pos + (rounds + 1) = values.length) :
    ∃ next, decoder.readForward (rounds + 1) = (.error .noMoreValues, next) ∧ At values next (pos + rounds) := by
  induction rounds generalizing decoder pos with
  | zero =>
    refine ⟨decoder, ?_, h⟩
    rw [Decoder.readForward, h.readNext_end hend]
    rfl
  | succ rounds ih =>
    obtain ⟨next, hnext, hat⟩ := h.readForward_succ (by omega) (rounds + 1)
    rw [hnext, show pos + (rounds + 1) = pos + 1 + rounds by omega]
    exact ih hat (by omega)

end

/-! ## Seeks and batches -/

namespace Opened

section
variable (h : Opened values decoder)
include h

/-- The restart point a seek starts from. -/
theorem seek_from_restart {p : Nat} (hp : p ≤ values.length) (hpos : 0 < p) :
    ∃ k start, 16 * k ≤ p ∧ 16 * k < values.length ∧ At values start (16 * k) ∧
      decoder.seekToPosition p = start.readForward (p - 16 * k) := by
  have hk : min (p / 16) (restartCount values.length - 1) < restartCount values.length := by
    rw [restartCount]
    omega
  obtain ⟨start, hstart, hat⟩ := h.restart hk
  refine ⟨_, start, by omega, by rw [restartCount] at hk ⊢; omega, hat, ?_⟩
  unfold seekToPosition
  rw [if_neg (by rw [h.numEntries]; omega), if_neg (by omega), h.restartInterval, h.numRestarts]
  dsimp only
  rw [hstart]
  show start.readForward (p - start.curPos) = _
  rw [hat.curPos]

theorem seek {p : Nat} (hp : p < values.length ∨ p = 0 ∧ values.length = 0) :
    ∃ next, decoder.seekToPosition p = (.ok (), next) ∧ At values next p := by
  rcases Nat.eq_zero_or_pos p with rfl | hpos
  · unfold seekToPosition
    rw [if_neg (Nat.not_lt_zero _), if_pos rfl]
    dsimp only
    have hopened : Opened values { decoder with nextPtr := 0, curPos := 0, currentValue := [] } := ⟨h.trailer, h.fits⟩
    split
    · rename_i hsome
      rw [h.numEntries] at hsome
      obtain ⟨v, hv⟩ := exists_value hsome
      rw [readNextValue_spec hopened rfl hv (.inl rfl)]
      exact ⟨_, rfl, at_read hopened rfl hv⟩
    · rename_i hnone
      rw [h.numEntries] at hnone
      refine ⟨_, rfl, hopened, rfl, Nat.zero_le _, fun v hv => ?_⟩
      have := (List.getElem?_eq_some_iff.1 hv).1
      omega
  · obtain ⟨k, start, hle, -, hat, hseek⟩ := h.seek_from_restart (by omega) hpos
    obtain ⟨next, hnext, hat'⟩ := hat.readForward (show 16 * k + (p - 16 * k) < values.length by omega)
    exact ⟨next, hseek.trans hnext, by rwa [show 16 * k + (p - 16 * k) = p by omega] at hat'⟩

/-- A seek to the end fails, and leaves the decoder at the last value. -/
theorem seek_end (hpos : 0 < values.length) :
    ∃ next, decoder.seekToPosition values.length = (.error .noMoreValues, next) ∧
      At values next (values.length - 1) := by
  obtain ⟨k, start, hle, hlt, hat, hseek⟩ := h.seek_from_restart le_rfl hpos
  obtain ⟨next, hnext, hat'⟩ := hat.readForward_end
    (show 16 * k + (values.length - 16 * k - 1 + 1) = values.length by omega)
  rw [show values.length - 16 * k - 1 + 1 = values.length - 16 * k by omega] at hnext
  exact ⟨next, hseek.trans hnext, by
    rwa [show 16 * k + (values.length - 16 * k - 1) = values.length - 1 by omega] at hat'⟩

end

end Opened

section
variable (h : At values decoder pos)
include h

theorem At.advance (hlt : pos < values.length) :
    ∃ next, decoder.advance = (.ok (), next) ∧ At values next (pos + 1) := by
  obtain ⟨u, hu⟩ := exists_value hlt
  obtain ⟨hvalue, hptr⟩ := h.value u hu
  unfold Decoder.advance
  dsimp only
  rw [h.curPos, h.numEntries]
  have hopened : Opened values { decoder with curPos := pos + 1 } := ⟨h.trailer, h.fits⟩
  split
  · rename_i hmore
    obtain ⟨v, hv⟩ := exists_value hmore
    rw [readNextValue_spec hopened hptr hv (.inr (hvalue.trans (before_succ hu).symm))]
    exact ⟨_, rfl, at_read hopened rfl hv⟩
  · rename_i hend
    refine ⟨_, rfl, hopened, rfl, hlt, fun v hv => ?_⟩
    have := (List.getElem?_eq_some_iff.1 hv).1
    omega

theorem At.readBatch {rounds : Nat} (hle : pos + rounds ≤ values.length) :
    ∃ next, decoder.readBatch rounds = (.ok ((values.drop pos).take rounds), next) ∧ At values next (pos + rounds) := by
  induction rounds generalizing decoder pos with
  | zero => exact ⟨decoder, rfl, h⟩
  | succ rounds ih =>
    have hlt : pos < values.length := by omega
    obtain ⟨hvalue, -⟩ := h.value _ (getElem?_eq_getElem hlt)
    obtain ⟨next, hnext, hat⟩ := h.advance hlt
    obtain ⟨final, hfinal, hat'⟩ := ih hat (by omega)
    refine ⟨final, ?_, by rwa [show pos + (rounds + 1) = pos + 1 + rounds by omega]⟩
    rw [readBatch, hnext]
    show (next.readBatch rounds).andThen _ = _
    rw [hfinal, drop_eq_getElem_cons hlt, take_succ_cons, hvalue]
    rfl

theorem At.nextBatch (n : Nat) :
    ∃ next, decoder.nextBatch n = (.ok (min n (values.length - pos), (values.drop pos).take n), next) ∧
      At values next (min (pos + n) values.length) := by
  have hle := h.le
  have htake : (values.drop pos).take (min n (values.length - pos)) = (values.drop pos).take n := by
    rw [← length_drop]
    exact take_eq_take_min.symm
  unfold Decoder.nextBatch
  dsimp only
  rw [h.numEntries, h.curPos]
  split
  · rename_i hzero
    rw [hzero, take_zero] at htake
    rw [hzero, ← htake]
    exact ⟨decoder, rfl, by rwa [show min (pos + n) values.length = pos by omega]⟩
  · obtain ⟨next, hnext, hat⟩ := h.readBatch (show pos + min n (values.length - pos) ≤ values.length by omega)
    refine ⟨next, ?_, by rwa [show min (pos + n) values.length = pos + min n (values.length - pos) by omega]⟩
    rw [hnext, htake]
    rfl

end

/-! ## Searching a value -/

/-- The block before a restart point starts with a smaller value. -/
def BlockBelow (values : List Value) (target : Value) (left : Nat) : Prop :=
  left = 0 ∨ ∃ v, values[16 * (left - 1)]? = some v ∧ v < target

theorem Opened.searchRestarts {target : Value} {left right : Nat} (h : Opened values decoder)
    (hright : right ≤ restartCount values.length) (hleft : left ≤ right) (hbelow : BlockBelow values target left) :
    ∃ found next, decoder.searchRestarts target left right = (.ok found, next) ∧ Opened values next ∧
      found ≤ restartCount values.length ∧ BlockBelow values target found := by
  induction hsize : right - left using Nat.strongRecOn generalizing decoder left right with
  | ind size ih =>
    rw [searchRestarts]
    split
    · rename_i hlt
      obtain ⟨probe, hprobe, hat⟩ := h.restart (k := left + (right - left) / 2) (by omega)
      have hpos : 16 * (left + (right - left) / 2) < values.length := by
        have : left + (right - left) / 2 < restartCount values.length := by omega
        rw [restartCount] at this
        omega
      obtain ⟨v, hv⟩ := exists_value hpos
      obtain ⟨hvalue, -⟩ := hat.value v hv
      dsimp only
      rw [hprobe]
      show ∃ found next, (if probe.currentValue < target then _ else _) = _ ∧ _
      split
      · rename_i hbelow'
        refine ih _ (by omega) hat.toOpened hright (by omega) (.inr ⟨v, ?_, hvalue ▸ hbelow'⟩) rfl
        rwa [Nat.add_sub_cancel]
      · exact ih _ (by omega) hat.toOpened (by omega) (by omega) hbelow rfl
    · exact ⟨left, decoder, rfl, h, by omega, hbelow⟩

/-- The scan ends at the first value that is not smaller, or at the end. -/
theorem At.scan {target : Value} {rounds : Nat} (h : At values decoder pos) (hrounds : pos + rounds = values.length) :
    (∃ i v next, pos ≤ i ∧ values[i]? = some v ∧ target ≤ v ∧
        (∀ m u, pos ≤ m → m < i → values[m]? = some u → u < target) ∧
        decoder.scan target rounds = (.ok (decide (v = target)), next) ∧ At values next i) ∨
      (∀ m u, pos ≤ m → values[m]? = some u → u < target) ∧
        ∃ next, decoder.scan target rounds = (.error .valueNotFound, next) ∧ At values next values.length := by
  induction rounds generalizing decoder pos with
  | zero =>
    refine .inr ⟨fun m u hm hu => ?_, decoder, rfl, by rwa [← hrounds]⟩
    have := (List.getElem?_eq_some_iff.1 hu).1
    omega
  | succ rounds ih =>
    obtain ⟨v, hv⟩ := exists_value (show pos < values.length by omega)
    obtain ⟨hvalue, -⟩ := h.value v hv
    rw [scan]
    split
    · rename_i hle
      refine .inl ⟨pos, v, decoder, le_rfl, hv, hvalue ▸ hle, fun m u hm hlt _ => by omega, ?_, h⟩
      rw [hvalue]
    rename_i hgt
    have hsmall : v < target := by rwa [hvalue, not_le] at hgt
    -- the value here is smaller, the others are those of the scan from the next position on
    have hextend : ∀ bound : Nat → Prop, (∀ m u, pos + 1 ≤ m → bound m → values[m]? = some u → u < target) →
        ∀ m u, pos ≤ m → bound m → values[m]? = some u → u < target := by
      intro bound hrest m u hm hb hu
      rcases lt_or_eq_of_le hm with hlt | rfl
      · exact hrest m u hlt hb hu
      · rw [hv] at hu
        exact Option.some.inj hu ▸ hsmall
    obtain ⟨next, hnext, hat⟩ := h.advance (by omega)
    rw [hnext]
    rcases ih hat (by omega) with ⟨i, w, final, hi, hw, hge, hrest, hscan, hat'⟩ | ⟨hrest, final, hscan, hat'⟩
    · exact .inl ⟨i, w, final, by omega, hw, hge, hextend (· < i) fun m u hm hb hu => hrest m u hm hb hu, hscan, hat'⟩
    · refine .inr ⟨fun m u hm hu => ?_, final, hscan, hat'⟩
      exact hextend (fun _ => True) (fun m u hm _ hu => hrest m u hm hu) m u hm trivial hu

/-- A search scans from a restart point with a smaller value, or from the front. -/
theorem Opened.seekAtOrAfterValue (h : Opened values decoder) (hsome : 0 < values.length) (target : Value) :
    ∃ k start, At values start (16 * k) ∧ (k = 0 ∨ ∃ v, values[16 * k]? = some v ∧ v < target) ∧
      decoder.seekAtOrAfterValue target = start.scan target (values.length - 16 * k) := by
  have hrestarts : 0 < restartCount values.length := by
    rw [restartCount]
    omega
  obtain ⟨left, probe, hsearch, hopened, hle, hbelow⟩ :=
    h.searchRestarts (Nat.le_refl _) (Nat.zero_le _) (show BlockBelow values target 0 from .inl rfl)
  obtain ⟨start, hstart, hat⟩ := hopened.restart (k := if 0 < left then left - 1 else 0) (by split <;> omega)
  refine ⟨_, start, hat, ?_, ?_⟩
  · rcases hbelow with rfl | hbelow
    · exact .inl rfl
    · split
      · exact .inr hbelow
      · exact .inl rfl
  · unfold Decoder.seekAtOrAfterValue
    rw [if_neg (by rw [h.numEntries]; omega), h.numRestarts, hsearch]
    show (probe.seekToRestartPoint _).andThen _ = _
    rw [hstart]
    show start.scan target (start.numEntries - start.curPos) = _
    rw [hat.numEntries, hat.curPos]

/-! ## Any schedule -/

inductive Call
  | seekToPosition (pos : Nat)
  | nextBatch (n : Nat)
  | seekAtOrAfterValue (target : Value)

def afterCall (decoder : Decoder) : Call → Decoder
  | .seekToPosition pos => (decoder.seekToPosition pos).2
  | .nextBatch n => (decoder.nextBatch n).2
  | .seekAtOrAfterValue target => (decoder.seekAtOrAfterValue target).2

def after (decoder : Decoder) (calls : List Call) : Decoder := calls.foldl afterCall decoder

theorem At.afterCall (h : At values decoder pos) (c : Call) : ∃ next, At values (afterCall decoder c) next := by
  cases c with
  | seekToPosition p =>
    show ∃ next, At values (decoder.seekToPosition p).2 next
    rcases lt_or_ge values.length p with hout | hle
    · refine ⟨pos, ?_⟩
      rw [seekToPosition, if_pos (by rwa [h.numEntries])]
      exact h
    rcases lt_or_eq_of_le hle with hlt | rfl
    · obtain ⟨next, hseek, hat⟩ := h.toOpened.seek (.inl hlt)
      exact ⟨p, by rwa [hseek]⟩
    rcases Nat.eq_zero_or_pos values.length with hzero | hpos
    · obtain ⟨next, hseek, hat⟩ := h.toOpened.seek (.inr ⟨hzero, hzero⟩)
      exact ⟨_, by rw [hseek]; exact hat⟩
    · obtain ⟨next, hseek, hat⟩ := h.toOpened.seek_end hpos
      exact ⟨_, by rw [hseek]; exact hat⟩
  | nextBatch n =>
    obtain ⟨next, hbatch, hat⟩ := h.nextBatch n
    show ∃ next, At values (decoder.nextBatch n).2 next
    rw [hbatch]
    exact ⟨_, hat⟩
  | seekAtOrAfterValue target =>
    show ∃ next, At values (decoder.seekAtOrAfterValue target).2 next
    rcases Nat.eq_zero_or_pos values.length with hzero | hpos
    · refine ⟨pos, ?_⟩
      rw [Decoder.seekAtOrAfterValue, if_pos (by rw [h.numEntries, hzero])]
      exact h
    obtain ⟨k, start, hat, -, hseek⟩ := h.toOpened.seekAtOrAfterValue hpos target
    have hle := hat.le
    rw [hseek]
    rcases @At.scan _ _ _ target _ hat (show 16 * k + (values.length - 16 * k) = values.length by omega) with
      ⟨i, v, next, -, -, -, -, hscan, hat'⟩ | ⟨-, next, hscan, hat'⟩
    · exact ⟨i, by rwa [hscan]⟩
    · exact ⟨_, by rw [hscan]; exact hat'⟩

theorem At.after (h : At values decoder pos) (calls : List Call) : ∃ next, At values (after decoder calls) next := by
  induction calls generalizing decoder pos with
  | nil => exact ⟨pos, h⟩
  | cons c calls ih =>
    obtain ⟨next, hnext⟩ := h.afterCall c
    exact ih hnext

def Reads (values : List Value) (decoder : Decoder) (pos : Nat) : Prop :=
  ∀ n, ∃ next, decoder.nextBatch n = (.ok (min n (values.length - pos), (values.drop pos).take n), next)

theorem At.reads (h : At values decoder pos) : Reads values decoder pos := fun n =>
  (h.nextBatch n).imp fun _ hnext => hnext.1

variable (values)

/-- A seek succeeds, and batches then return the values from its position on. -/
def SeeksTo (decoder : Decoder) (pos : Nat) : Prop :=
  ∃ next, decoder.seekToPosition pos = (.ok (), next) ∧ next.curPos = pos ∧ Reads values next pos

/-- A search leaves the decoder on the first value that is not smaller and says whether it is equal, and it fails
when there is none. -/
def FindsFirst (decoder : Decoder) (target : Value) : Prop :=
  (∃ i v next, values[i]? = some v ∧ target ≤ v ∧ (∀ m u, m < i → values[m]? = some u → u < target) ∧
      decoder.seekAtOrAfterValue target = (.ok (decide (v = target)), next) ∧
      next.curPos = i ∧ next.currentValue = v ∧ Reads values next i) ∨
    (∀ u ∈ values, u < target) ∧ ∃ e next, decoder.seekAtOrAfterValue target = (.error e, next)

variable {values}

theorem Opened.seeksTo_iff (h : Opened values decoder) {p : Nat} (hp : p ≤ values.length) :
    SeeksTo values decoder p ↔ p < values.length ∨ values.length = 0 := by
  constructor
  · rintro ⟨next, hseek, -⟩
    rcases lt_or_eq_of_le hp with hlt | rfl
    · exact .inl hlt
    · refine .inr (Nat.eq_zero_of_not_pos fun hpos => ?_)
      obtain ⟨_, hfail, -⟩ := h.seek_end hpos
      rw [hseek] at hfail
      cases hfail
  · intro hcond
    obtain ⟨next, hseek, hat⟩ := h.seek (p := p) (hcond.imp id fun hzero => ⟨by omega, hzero⟩)
    exact ⟨next, hseek, hat.curPos, hat.reads⟩

theorem Opened.findsFirst (h : Opened values decoder) (hsorted : values.Pairwise (· ≤ ·)) (target : Value) :
    FindsFirst values decoder target := by
  rcases Nat.eq_zero_or_pos values.length with hzero | hpos
  · refine .inr ⟨fun u hu => ?_, .pageIsEmpty, decoder, ?_⟩
    · rw [length_eq_zero_iff.1 hzero] at hu
      cases hu
    · rw [Decoder.seekAtOrAfterValue, if_pos (by rw [h.numEntries, hzero])]
  · obtain ⟨k, start, hat, hblock, hseek⟩ := h.seekAtOrAfterValue hpos target
    have hle := hat.le
    -- in a sorted list the values before the block are smaller as well
    have hbefore : ∀ m u, m < 16 * k → values[m]? = some u → u < target := by
      intro m u hm hu
      rcases hblock with rfl | ⟨v, hv, hlt⟩
      · omega
      · obtain ⟨hm', rfl⟩ := List.getElem?_eq_some_iff.1 hu
        obtain ⟨hk, rfl⟩ := List.getElem?_eq_some_iff.1 hv
        exact lt_of_le_of_lt (pairwise_iff_getElem.1 hsorted m (16 * k) hm' hk hm) hlt
    rcases @At.scan _ _ _ target _ hat (show 16 * k + (values.length - 16 * k) = values.length by omega) with
      ⟨i, v, next, hi, hv, hge, hrest, hscan, hat'⟩ | ⟨hrest, next, hscan, -⟩
    · refine .inl ⟨i, v, next, hv, hge, fun m u hm hu => ?_, hseek.trans hscan, hat'.curPos, (hat'.value v hv).1,
        hat'.reads⟩
      rcases lt_or_ge m (16 * k) with hlt | hge'
      · exact hbefore m u hlt hu
      · exact hrest m u hge' hm hu
    · refine .inr ⟨fun u hu => ?_, _, next, hseek.trans hscan⟩
      obtain ⟨m, hm⟩ := List.getElem?_of_mem hu
      rcases lt_or_ge m (16 * k) with hlt | hge'
      · exact hbefore m u hlt hm
      · exact hrest m u hge' hm

/-! ## Opening a page -/

theorem init_pageBytes (hfits : (pageBytes values).length < 2 ^ 32) :
    ∃ decoder, init (pageBytes values) = .ok decoder ∧ At values decoder 0 := by
  have hlen := length_pageBytes values
  have hcount := @offset_le_entries values 0 (Nat.zero_le _)
  have hrestarts : ofLeBytes ((pageBytes values).drop ((pageBytes values).length - 4)) =
    restartCount values.length := by
    have hdrop := drop_field (drop_restarts values) (length_flatMap_leBytes 4 _)
    rw [length_restarts] at hdrop
    rw [show (pageBytes values).length - 4 = (entries 0 [] values).length + 5 + 4 * restartCount values.length by omega,
      hdrop, ofLeBytes_leBytes]
    omega
  have hoffset : (pageBytes values).length - 4 - restartCount values.length * 4 = (entries 0 [] values).length + 5 := by
    omega
  have hinterval : ((pageBytes values).drop ((entries 0 [] values).length + 5 - 1)).headD 0 =
      UInt8.ofNat restartPointInterval :=
    congrArg (headD · 0) (drop_field (drop_entries values) (length_leBytes 4 _))
  have hentries : ofLeBytes (((pageBytes values).drop ((entries 0 [] values).length + 5 - 5)).take 4) =
      values.length := by
    rw [Nat.add_sub_cancel, drop_entries, take_left' (length_leBytes 4 _), ofLeBytes_leBytes]
    omega
  unfold init
  dsimp only
  rw [if_neg (by omega), hrestarts, if_neg (by omega), hoffset, hinterval, hentries]
  have hopened : Opened values ⟨trailerOf values, 0, [], 0⟩ := ⟨rfl, hfits⟩
  split
  · rename_i hsome
    obtain ⟨v, hv⟩ := exists_value hsome
    have hread := readNextValue_spec hopened rfl hv (.inl rfl)
    refine ⟨_, ?_, at_read hopened rfl hv⟩
    erw [hread]
  · rename_i hnone
    refine ⟨_, rfl, hopened, rfl, Nat.zero_le _, fun v hv => ?_⟩
    have := (List.getElem?_eq_some_iff.1 hv).1
    omega

/-- **Seeking.** For every list of values that a builder accepts into a page below `2 ^ 32` bytes, the page is
opened, and in every state that any seeks, searches and batches leave: a seek to a position up to the end succeeds,
with the values from there on behind it, exactly when there is a value at the position or the page is empty; and when
the list is sorted, a search finds the first value that is not smaller. -/
theorem prefix_seek_iff (pageSize : Nat) (values : List Value) (builder : PageBuilder)
    (hadd : (PageBuilder.new pageSize).addAll values = some builder) (hfits : builder.finish.length < 2 ^ 32) :
    ∃ decoder, init builder.finish = .ok decoder ∧ ∀ calls,
      (∀ pos ≤ values.length, SeeksTo values (after decoder calls) pos ↔ pos < values.length ∨ values.length = 0) ∧
      (values.Pairwise (· ≤ ·) → ∀ target, FindsFirst values (after decoder calls) target) := by
  have hbuilt := (built_new pageSize).addAll hadd
  rw [nil_append] at hbuilt
  rw [finish_eq hbuilt] at hfits ⊢
  obtain ⟨decoder, hinit, hat⟩ := init_pageBytes hfits
  refine ⟨decoder, hinit, fun calls => ?_⟩
  obtain ⟨pos, hafter⟩ := hat.after calls
  exact ⟨fun p hp => hafter.toOpened.seeksTo_iff hp, fun hsorted target => hafter.toOpened.findsFirst hsorted target⟩

def sharedPrefixes : List Value := (List.range 17).map fun i => [97, 98, .ofNat i]

/-- The last of 17 values with a common prefix is a restart point. -/
theorem prefix_seek_iff_shared : ∃ builder decoder, (PageBuilder.new 4096).addAll sharedPrefixes = some builder ∧
    builder.restartOffsets.length = 2 ∧ init builder.finish = .ok decoder ∧ ∀ calls,
      (∀ pos ≤ 17, SeeksTo sharedPrefixes (after decoder calls) pos ↔ pos < 17 ∨ 17 = 0) ∧
      ∀ target, FindsFirst sharedPrefixes (after decoder calls) target := by
  have hbuilt : ((PageBuilder.new 4096).addAll sharedPrefixes).any (fun builder =>
      builder.restartOffsets.length = 2 ∧ builder.finish.length < 2 ^ 32) = true := by decide +kernel
  obtain ⟨builder, hadd, hsizes⟩ := (Option.any_eq_true _ _).1 hbuilt
  obtain ⟨hrestarts, hfits⟩ := of_decide_eq_true hsizes
  obtain ⟨decoder, hinit, hafter⟩ := prefix_seek_iff 4096 sharedPrefixes builder hadd hfits
  exact ⟨builder, decoder, hadd, hrestarts, hinit, fun calls => ⟨(hafter calls).1, (hafter calls).2 (by decide)⟩⟩

def oneValueBuilder : PageBuilder := ⟨putVarint 0 ++ (putVarint 1 ++ [1]), [0], [1], 1, 64⟩

theorem addAll_oneValue : (PageBuilder.new 64).addAll [[1]] = some oneValueBuilder := rfl

theorem length_oneValue : oneValueBuilder.finish.length < 2 ^ 32 := by
  simp [oneValueBuilder, PageBuilder.finish, putVarint]

/-- A page of one value: the seek to position 1, its end, fails. -/
theorem seek_to_end_fails :
    (PageBuilder.new 64).addAll [[1]] = some oneValueBuilder ∧
      ∃ decoder next, init oneValueBuilder.finish = .ok decoder ∧
        decoder.seekToPosition 1 = (.error .noMoreValues, next) := by
  refine ⟨addAll_oneValue, ?_⟩
  have hbuilt := (built_new 64).addAll addAll_oneValue
  have hfits := length_oneValue
  rw [finish_eq hbuilt] at hfits ⊢
  obtain ⟨decoder, hinit, hat⟩ := init_pageBytes hfits
  obtain ⟨next, hseek, -⟩ := hat.toOpened.seek_end (Nat.one_pos)
  exact ⟨decoder, next, hinit, hseek⟩

end Paro.L3.PrefixSeek
