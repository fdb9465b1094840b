import Paro.L1Encoding.WalFormat

/-!
# WAL reader

Model of `WalReader` (crates/journal/src/wal/wal_reader.rs): reading the header, one entry at a time
with detection of torn writes, and the scan for the truncation point. The reader holds the bytes of
the file; `reset` and a truncation between two passes give a new reader.

What it reads of a log whose bytes are cut anywhere is stated against the entries that were written:
`At.readEntry_whole`, `At.readEntry_torn` and `At.readEntry_end` say what the next entry gives,
`scanLoop_ok` what the whole scan gives, in terms of the entries that are whole and not over the size
limit (`readable`), whether the file ends where they do (`clean`), and the last flush among them
(`flushed`). `La-b` are lines of this file.
-/
namespace Paro.L2
open L1 List WalType WalHeaderMetadata Nat

structure WalReader where
  file : Bytes
  currentOffset : Nat := 0
  walVersion : Nat := 1
  headerRead : Bool := false
  headerMetadata : WalHeaderMetadata := {}
  lastSuccessfulOffset : Nat := 0
  lastFlushOffset : Nat := 0

/-- L22-54; the sizes the variants report are left out -/
inductive ReadEntryResult (R : Type)
  | entry (e : WalEntry R)
  | endOfFile
  | tornWriteIncompleteHeader (position : Nat)
  | tornWriteIncompleteData (position : Nat)
  | tornWriteChecksumMismatch (position : Nat)

/-- L58-65 -/
def ReadEntryResult.tailCorruptionPosition {R : Type} : ReadEntryResult R → Option Nat
  | tornWriteIncompleteHeader p | tornWriteIncompleteData p | tornWriteChecksumMismatch p => some p
  | entry _ | endOfFile => none

namespace WalReader
variable {R : Type} (codec : JournalCodec R)

/-- L112-135 -/
def finished (r : WalReader) : Prop := r.file.length ≤ r.currentOffset

instance (r : WalReader) : Decidable r.finished := inferInstanceAs (Decidable (_ ≤ _))

variable (r : WalReader)

def remaining : Nat := r.file.length - r.currentOffset

/-- L156-162 -/
def readExact (n : Nat) : Except WalError (Bytes × WalReader) :=
  if n ≤ r.remaining then
    .ok ((r.file.drop r.currentOffset).take n, { r with currentOffset := r.currentOffset + n })
  else .error .readFailed

/-- The rest of the header of a version 3 file. L363-367 -/
def readMetadata : Except WalError WalReader := do
  let (dbIdentifier, r) ← r.readExact 16
  let (iteration, r) ← r.readExact 8
  if h : dbIdentifier.length = 16 then
    .ok { r with headerMetadata := ⟨dbIdentifier, UInt64.ofNat (ofLeBytes iteration), h⟩ }
  else .error .readFailed

/-- L326-375 -/
def readHeader : Except WalError WalReader :=
  if r.headerRead then .ok r
  else if r.finished then .error .emptyWalFile
  else do
    let (typeByte, r) ← r.readExact 1
    let walType ← tryFrom (typeByte.headD 0)
    if walType ≠ .walVersion then .error (.invalidWalHeader walType)
    else
      let (version, r) ← r.readExact 8
      let r := { r with walVersion := ofLeBytes version }
      if r.walVersion > walVersionNumber then .error (.unsupportedWalVersion r.walVersion)
      else if r.walVersion < 2 then .error (.unsupportedWalVersion r.walVersion)
      else
        let r ← if 3 ≤ r.walVersion then r.readMetadata else .ok { r with headerMetadata := {} }
        .ok { r with headerRead := true, lastSuccessfulOffset := r.currentOffset }

def maxEntrySize : Nat := 1024 * 1024 * 1024

/-- The offsets after an entry was read up to `offset`. L506-512 -/
def advance (offset : Nat) (e : WalEntry R) : WalReader :=
  { r with
    currentOffset := offset
    lastSuccessfulOffset := offset
    lastFlushOffset := match e with
      | .flush => offset
      | _ => r.lastFlushOffset }

/-- L432-515 -/
def readChecksummedEntryWithDetection : Except WalError (ReadEntryResult R × WalReader) :=
  let start := r.currentOffset
  if r.remaining < entryHeaderSize then
    if r.remaining = 0 then .ok (.endOfFile, r) else .ok (.tornWriteIncompleteHeader start, r)
  else
    let header := (r.file.drop start).take entryHeaderSize
    let size := ofLeBytes (header.take 8)
    let storedChecksum := ofLeBytes (header.drop 8)
    let r := { r with currentOffset := start + entryHeaderSize }
    if size > maxEntrySize then .ok (.tornWriteChecksumMismatch start, r)
    else if size > r.remaining then .ok (.tornWriteIncompleteData start, r)
    else
      let data := (r.file.drop r.currentOffset).take size
      let r := { r with currentOffset := r.currentOffset + size }
      if storedChecksum ≠ (computeWalChecksum data).toNat then .ok (.tornWriteChecksumMismatch start, r)
      else
        match WalEntry.deserialize codec data with
        | .error e => .error e
        | .ok entry => .ok (.entry entry, r.advance r.currentOffset entry)

/-- L416-429 -/
def readEntryWithTornDetection : Except WalError (ReadEntryResult R × WalReader) := do
  let r ← r.readHeader
  if r.finished then .ok (.endOfFile, r) else r.readChecksummedEntryWithDetection codec

/-- L595-606; the entry count is left out -/
structure TruncationScanResult where
  lastSuccessfulOffset : Nat := 0
  lastFlushOffset : Nat := 0
  tornWritePosition : Option Nat := none
  hasUnflushedTail : Bool := false
deriving DecidableEq

variable {r}

/-- The loop of the scan; every turn that goes on consumes an entry, so the length of the file is
enough fuel. L544-570 -/
def scanLoop : Nat → WalReader → TruncationScanResult → Bool → Except WalError TruncationScanResult
  | 0, _, result, _ => .ok result
  | fuel + 1, r, result, hasEntriesSinceFlush =>
    match r.readEntryWithTornDetection codec with
    | .error e => .error e
    | .ok (.entry .flush, r) =>
      scanLoop fuel r { result with
        lastSuccessfulOffset := r.lastSuccessfulOffset
        lastFlushOffset := r.lastSuccessfulOffset } false
    | .ok (.entry _, r) =>
      scanLoop fuel r { result with lastSuccessfulOffset := r.lastSuccessfulOffset } true
    | .ok (.endOfFile, _) =>
      .ok (if hasEntriesSinceFlush then { result with hasUnflushedTail := true } else result)
    | .ok (torn, _) => .ok { result with tornWritePosition := torn.tailCorruptionPosition }

variable (r)

/-- L532-573 -/
def scanForTruncationPoint : Except WalError TruncationScanResult :=
  scanLoop codec (r.file.length + 1) { file := r.file } {} false

/-- L625-627 -/
def TruncationScanResult.needsTruncation (t : TruncationScanResult) : Bool :=
  t.tornWritePosition.isSome || t.hasUnflushedTail

/-- L614-622 -/
def TruncationScanResult.recommendedTruncationPoint (t : TruncationScanResult) : Nat :=
  if t.needsTruncation then t.lastFlushOffset else t.lastSuccessfulOffset

/-! ## The header -/

def behindHeader (file : Bytes) (m : WalHeaderMetadata) : WalReader :=
  { file, currentOffset := walHeaderSize, walVersion := walVersionNumber, headerRead := true,
    headerMetadata := m, lastSuccessfulOffset := walHeaderSize }

variable {xs ys file rest : Bytes} {n : Nat} {m : WalHeaderMetadata}

theorem readExact_ok {r : WalReader} (hn : xs.length = n) (h : r.file.drop r.currentOffset = xs ++ ys) :
    r.readExact n = .ok (xs, { r with currentOffset := r.currentOffset + n }) := by
  have hrem : n ≤ r.remaining := by
    rw [remaining, ← length_drop, h, length_append]
    omega
  rw [readExact, if_pos hrem, h, ← hn, take_left]

theorem readExact_short {r : WalReader} (h : r.remaining < n) : r.readExact n = .error .readFailed :=
  if_neg (not_le.2 h)

theorem version_bytes : ofLeBytes (leBytes 8 walVersionNumber) = walVersionNumber :=
  ofLeBytes_leBytes (by decide)

/-- The header up to the version, for a file that holds it. -/
theorem readHeader_version (hfile : file = WalType.walVersion.code :: (leBytes 8 walVersionNumber ++ rest)) :
    readHeader { file } = (readMetadata { file, currentOffset := 9, walVersion := walVersionNumber }).map
        fun r => { r with headerRead := true, lastSuccessfulOffset := r.currentOffset } := by
  have h₀ : file.drop 0 = [WalType.walVersion.code] ++ (leBytes 8 walVersionNumber ++ rest) := hfile
  have h1 := drop_field h₀ rfl
  have hne : ¬ finished { file } := by
    unfold finished
    rw [hfile]; simp
  have e1 : readExact { file } 1 = .ok ([WalType.walVersion.code], { file, currentOffset := 1 }) := readExact_ok rfl h₀
  have e2 : readExact { file, currentOffset := 1 } 8 = .ok (leBytes 8 walVersionNumber, { file, currentOffset := 9 }) :=
    readExact_ok (length_leBytes 8 _) h1
  simp only [readHeader, Bool.false_eq_true, if_false, hne, e1, e2, bind, Except.bind, headD_cons,
    tryFrom_code, ne_eq, not_true_eq_false, version_bytes]
  cases readMetadata { file, currentOffset := 9, walVersion := walVersionNumber } <;> rfl

theorem readHeader_whole (hfile : file = m.headerBytes ++ rest) : readHeader { file } = .ok (behindHeader file m) := by
  have hv : file = WalType.walVersion.code :: (leBytes 8 walVersionNumber ++ (m.dbIdentifier ++
      (leBytes 8 m.checkpointIteration.toNat ++ rest))) := by
    rw [hfile, headerBytes]; simp
  have h2 : file.drop 9 = m.dbIdentifier ++ (leBytes 8 m.checkpointIteration.toNat ++ rest) := by
    rw [hv, drop_succ_cons, drop_left' (length_leBytes 8 _)]
  have h3 := drop_field h2 m.length_dbIdentifier
  have e3 : readExact { file, currentOffset := 9, walVersion := walVersionNumber } 16 =
      .ok (m.dbIdentifier, { file, currentOffset := 25, walVersion := walVersionNumber }) :=
    readExact_ok m.length_dbIdentifier h2
  have e4 : readExact { file, currentOffset := 25, walVersion := walVersionNumber } 8 =
      .ok (leBytes 8 m.checkpointIteration.toNat, { file, currentOffset := 33, walVersion := walVersionNumber }) :=
    readExact_ok (length_leBytes 8 _) h3
  have hiteration : UInt64.ofNat (ofLeBytes (leBytes 8 m.checkpointIteration.toNat)) = m.checkpointIteration := by
    rw [ofLeBytes_leBytes m.checkpointIteration.toNat_lt, UInt64.ofNat_toNat]
  rw [readHeader_version hv]
  simp only [readMetadata, e3, e4, bind, Except.bind, m.length_dbIdentifier, dite_true, hiteration]
  rfl

theorem readMetadata_short {r : WalReader} (h : r.remaining < 24) : r.readMetadata = .error .readFailed := by
  by_cases h16 : 16 ≤ r.remaining
  · have hrem : remaining { r with currentOffset := r.currentOffset + 16 } < 8 := by
      unfold remaining at h ⊢
      simp only
      omega
    have e1 : r.readExact 16 = .ok ((r.file.drop r.currentOffset).take 16,
        { r with currentOffset := r.currentOffset + 16 }) := if_pos h16
    simp [readMetadata, e1, readExact_short hrem, bind, Except.bind]
  · simp [readMetadata, readExact_short (not_le.1 h16), bind, Except.bind]

/-- A file that was cut in its header has none. -/
theorem readHeader_cut {c : Nat} (hc : c < walHeaderSize) :
    ∃ e, readHeader { file := m.headerBytes.take c } = .error e := by
  have hlen : (m.headerBytes.take c).length = c := by
    rw [length_take, length_headerBytes]; omega
  have hsplit : m.headerBytes = [WalType.walVersion.code] ++ (leBytes 8 walVersionNumber ++
      (m.dbIdentifier ++ leBytes 8 m.checkpointIteration.toNat)) := by
    simp [headerBytes]
  by_cases h0 : c = 0
  · subst h0
    exact ⟨.emptyWalFile, rfl⟩
  by_cases h9 : c < 9
  · -- cut in the version
    obtain ⟨k, rfl⟩ := exists_eq_succ_of_ne_zero h0
    rw [hsplit, singleton_append, take_succ_cons] at hlen ⊢
    generalize take k (leBytes 8 walVersionNumber ++ _) = rest at hlen ⊢
    have hrem : remaining { file := WalType.walVersion.code :: rest, currentOffset := 1 } < 8 := by
      unfold remaining
      simp only
      omega
    have hne : ¬ finished { file := WalType.walVersion.code :: rest } := by
      unfold finished
      simp
    refine ⟨.readFailed, ?_⟩
    have e1 : readExact { file := WalType.walVersion.code :: rest } 1 = .ok ([WalType.walVersion.code],
        { file := WalType.walVersion.code :: rest, currentOffset := 1 }) :=
      readExact_ok rfl rfl
    simp only [readHeader, Bool.false_eq_true, if_false, hne, e1, bind, Except.bind, headD_cons,
      tryFrom_code, ne_eq, not_true_eq_false, readExact_short hrem]
  · -- cut behind the version
    have hfile : m.headerBytes.take c = WalType.walVersion.code :: (leBytes 8 walVersionNumber ++
        (m.dbIdentifier ++ leBytes 8 m.checkpointIteration.toNat).take (c - 9)) := by
      rw [hsplit, take_append, take_append, take_of_length_le, take_of_length_le]
      · simp [Nat.sub_sub]
      · rw [length_leBytes]; simp; omega
      · simp; omega
    refine ⟨.readFailed, ?_⟩
    rw [readHeader_version hfile, readMetadata_short]
    · rfl
    · unfold remaining
      rw [hlen]
      unfold walHeaderSize at hc
      simp only
      omega

/-! ## Reading a log that was cut -/

/-- The reader stands behind the header, and the rest of the file is the log of `es` cut after `c`
bytes. -/
structure At (r : WalReader) (es : List (LogEntry codec)) (c : Nat) : Prop where
  header : r.headerRead = true
  offset : r.currentOffset ≤ r.file.length
  rest : r.file.drop r.currentOffset = (logBytes codec es).take c

/-- The entry lies before the cut and is not over the limit of the reader. -/
def Whole (e : LogEntry codec) (c : Nat) : Prop := e.bytes.length ≤ c ∧ e.data.length ≤ maxEntrySize

instance (e : LogEntry codec) (c : Nat) : Decidable (Whole codec e c) := inferInstanceAs (Decidable (_ ∧ _))

variable {codec} {r} {e : LogEntry codec} {es : List (LogEntry codec)} {c : Nat}

theorem At.remaining (h : At codec r es c) : r.remaining = ((logBytes codec es).take c).length := by
  rw [WalReader.remaining, ← h.rest, length_drop]

theorem At.readEntry (h : At codec r es c) : r.readEntryWithTornDetection codec =
    if r.finished then .ok (.endOfFile, r) else r.readChecksummedEntryWithDetection codec := by
  simp only [readEntryWithTornDetection, readHeader, h.header, if_true]
  rfl

/-- At the end of the entries or of the file. -/
theorem At.readEntry_end (h : At codec r es c) (hend : es = [] ∨ c = 0) :
    r.readEntryWithTornDetection codec = .ok (.endOfFile, r) := by
  have hrem : r.remaining = 0 := by
    rw [h.remaining]
    rcases hend with rfl | rfl
    · simp [logBytes]
    · rfl
  rw [h.readEntry, if_pos]
  unfold WalReader.remaining at hrem
  unfold finished
  omega

theorem not_finished (hpos : 0 < r.remaining) : ¬ r.finished := by
  unfold finished
  unfold WalReader.remaining at hpos
  omega

section
variable (h : At codec r (e :: es) c)
include h

/-- The header of the next entry, when the file holds it. -/
theorem At.entryHeader (hc : entryHeaderSize ≤ c) : entryHeaderSize ≤ r.remaining ∧
      ofLeBytes (((r.file.drop r.currentOffset).take entryHeaderSize).take 8) = e.data.length ∧
      ofLeBytes (((r.file.drop r.currentOffset).take entryHeaderSize).drop 8) = (computeWalChecksum e.data).toNat ∧
      r.file.drop (r.currentOffset + entryHeaderSize) = (e.data ++ logBytes codec es).take (c - entryHeaderSize) := by
  have hsplit : logBytes codec (e :: es) = (leBytes 8 e.data.length ++
      leBytes 8 (computeWalChecksum e.data).toNat) ++ (e.data ++ logBytes codec es) := by
    rw [logBytes, flatMap_cons, e.bytes_eq, append_assoc]; rfl
  have hlen : (leBytes 8 e.data.length ++ leBytes 8 (computeWalChecksum e.data).toNat).length = entryHeaderSize := by
    simp [entryHeaderSize]
  have hrest := h.rest
  rw [hsplit, take_append, hlen, take_of_length_le (by rw [hlen]; exact hc)] at hrest
  have htake : (r.file.drop r.currentOffset).take entryHeaderSize =
      leBytes 8 e.data.length ++ leBytes 8 (computeWalChecksum e.data).toNat := by
    rw [hrest, ← hlen, take_left]
  refine ⟨?_, ?_, ?_, ?_⟩
  · rw [WalReader.remaining, ← length_drop, hrest, length_append, hlen]
    exact le_add_right _ _
  · rw [htake, take_left' (length_leBytes 8 _), ofLeBytes_leBytes e.length_data_lt]
  · rw [htake, drop_left' (length_leBytes 8 _), ofLeBytes_leBytes]
    exact (computeWalChecksum e.data).toNat_lt
  · exact drop_field hrest hlen

/-- A whole entry is read, and the reader stands before the next one. -/
theorem At.readEntry_whole (hw : Whole codec e c) : r.readEntryWithTornDetection codec =
        .ok (.entry e.decoded, r.advance (r.currentOffset + e.bytes.length) e.decoded) ∧
      At codec (r.advance (r.currentOffset + e.bytes.length) e.decoded) es (c - e.bytes.length) := by
  obtain ⟨hle, hmax⟩ := hw
  have hwidth := e.length_bytes
  obtain ⟨hrem, hsize, hsum, hbody⟩ := h.entryHeader (by omega)
  have hdata : r.file.drop (r.currentOffset + entryHeaderSize) =
      e.data ++ (logBytes codec es).take (c - e.bytes.length) := by
    rw [hbody, take_append, take_of_length_le (by omega), hwidth, sub_add_eq]
  have hrem' : e.data.length ≤ r.file.length - (r.currentOffset + entryHeaderSize) := by
    rw [← length_drop, hdata, length_append]
    exact le_add_right _ _
  have hnext : r.currentOffset + entryHeaderSize + e.data.length = r.currentOffset + e.bytes.length := by
    omega
  refine ⟨?_, h.header, ?_, ?_⟩
  · rw [h.readEntry, if_neg (not_finished (by unfold entryHeaderSize at hrem; omega)),
      readChecksummedEntryWithDetection]
    simp only [hsize, hsum, hdata, take_left, WalReader.remaining]
    unfold WalReader.remaining at hrem
    rw [if_neg (by omega), if_neg (by omega), if_neg (by omega)]
    simp only [ne_eq, not_true_eq_false, if_false, e.deserialize_data, hnext]
    rfl
  · have hoff := h.offset
    change r.currentOffset + e.bytes.length ≤ r.file.length
    unfold WalReader.remaining at hrem
    omega
  · change r.file.drop (r.currentOffset + e.bytes.length) = _
    rw [← hnext, ← drop_drop, hdata, drop_left]

/-- What is left of an entry that was cut, or one over the limit, is reported as torn. -/
theorem At.readEntry_torn (hpos : 0 < c) (hw : ¬ Whole codec e c) :
    ∃ t r', r.readEntryWithTornDetection codec = .ok (t, r') ∧ t.tailCorruptionPosition = some r.currentOffset := by
  have hwidth := e.length_bytes
  by_cases hc : entryHeaderSize ≤ c
  · obtain ⟨hrem, hsize, hsum, hbody⟩ := h.entryHeader hc
    rw [h.readEntry, if_neg (not_finished (by unfold entryHeaderSize at hrem; omega)),
      readChecksummedEntryWithDetection]
    simp only [hsize]
    rw [if_neg (by omega)]
    by_cases hmax : e.data.length > maxEntrySize
    · rw [if_pos hmax]
      exact ⟨_, _, rfl, rfl⟩
    have hcut : c < e.bytes.length := not_le.1 fun hle => hw ⟨hle, not_lt.1 hmax⟩
    have hrem' : e.data.length > r.file.length - (r.currentOffset + entryHeaderSize) := by
      rw [← length_drop, hbody, length_take]
      omega
    rw [if_neg hmax, WalReader.remaining, if_pos hrem']
    exact ⟨_, _, rfl, rfl⟩
  · have hrem : r.remaining = c := by
      rw [h.remaining, length_take, logBytes, flatMap_cons, length_append]
      omega
    rw [h.readEntry, if_neg (not_finished (by omega)), readChecksummedEntryWithDetection, hrem,
      if_pos (by omega), if_neg (by omega)]
    exact ⟨_, _, rfl, rfl⟩

end

def readable : List (LogEntry codec) → Nat → List (LogEntry codec)
  | [], _ => []
  | e :: es, c => if Whole codec e c then e :: readable es (c - e.bytes.length) else []

def clean : List (LogEntry codec) → Nat → Bool
  | [], _ => true
  | e :: es, c =>
    if c = 0 then true else if Whole codec e c then clean es (c - e.bytes.length) else false

def flushed : List (LogEntry codec) → List (LogEntry codec)
  | [] => []
  | .record a :: es => if flushed es = [] then [] else .record a :: flushed es
  | .flush :: es => .flush :: flushed es

/-- What the scan finds from where the reader stands: the last flush it passed, and whether the tail
behind it has to go. -/
structure ScanOk (offset : Nat) (es : List (LogEntry codec)) (c : Nat) (before : TruncationScanResult)
    (sinceFlush : Bool) (after : TruncationScanResult) : Prop where
  lastFlush : after.lastFlushOffset = if flushed (readable es c) = [] then before.lastFlushOffset
    else offset + (logBytes codec (flushed (readable es c))).length
  tail : after.needsTruncation = false ↔
    clean es c = true ∧ flushed (readable es c) = readable es c ∧ (readable es c = [] → sinceFlush = false)

theorem readable_zero (es : List (LogEntry codec)) : readable es 0 = [] := by
  cases es with
  | nil => rfl
  | cons e es =>
    refine if_neg fun hw => ?_
    have hle := hw.1
    rw [e.length_bytes, entryHeaderSize] at hle
    omega

theorem length_logBytes_cons (e : LogEntry codec) (es : List (LogEntry codec)) :
    (logBytes codec (e :: es)).length = e.bytes.length + (logBytes codec es).length := by
  rw [logBytes, flatMap_cons, length_append]; rfl

theorem flushed_record (a : AppendedRecord codec) (l : List (LogEntry codec)) :
    flushed (.record a :: l) = if flushed l = [] then [] else .record a :: flushed l := rfl

variable {a : AppendedRecord codec} {before after : TruncationScanResult} {offset o : Nat} {sinceFlush : Bool}

theorem flushed_record_eq {l : List (LogEntry codec)} :
    flushed (.record a :: l) = .record a :: l ↔ flushed l = l ∧ l ≠ [] := by
  rw [flushed_record]
  by_cases hnil : flushed l = []
  · rw [if_pos hnil, hnil]
    constructor
    · intro h; cases h
    · rintro ⟨rfl, hne⟩; exact absurd rfl hne
  · rw [if_neg hnil]
    constructor
    · intro h
      have hl := (cons.inj h).2
      exact ⟨hl, fun hn => hnil (hl.trans hn)⟩
    · rintro ⟨hl, -⟩
      rw [hl]

theorem scan_end (hbefore : before.needsTruncation = false)
    (hread : readable es c = []) (hclean : clean es c = true) (offset : Nat) (sinceFlush : Bool) :
    ScanOk offset es c before sinceFlush (if sinceFlush then { before with hasUnflushedTail := true } else before) := by
  refine ⟨?_, ?_⟩
  · rw [hread]
    cases sinceFlush <;> rfl
  · rw [hread, hclean]
    cases sinceFlush
    · exact ⟨fun _ => ⟨rfl, rfl, fun _ => rfl⟩, fun _ => hbefore⟩
    · simp [TruncationScanResult.needsTruncation, flushed]

theorem ScanOk.record (hpos : c ≠ 0) (hw : Whole codec (.record a) c)
    (h : ScanOk (offset + (LogEntry.record a).bytes.length) es (c - (LogEntry.record a).bytes.length)
      { before with lastSuccessfulOffset := o } true after) :
    ScanOk offset (.record a :: es) c before sinceFlush after := by
  refine ⟨?_, ?_⟩
  · rw [h.lastFlush, readable, if_pos hw, flushed_record]
    by_cases hnil : flushed (readable es (c - (LogEntry.record a).bytes.length)) = []
    · rw [if_pos hnil, if_pos hnil, if_pos rfl]
    · rw [if_neg hnil, if_neg hnil, if_neg (cons_ne_nil _ _), length_logBytes_cons, add_assoc]
  · rw [h.tail, readable, if_pos hw, clean, if_neg hpos, if_pos hw, flushed_record_eq]
    constructor
    · rintro ⟨hc, hl, hne⟩
      exact ⟨hc, ⟨hl, fun hn => Bool.noConfusion (hne hn)⟩, fun hn => by cases hn⟩
    · rintro ⟨hc, ⟨hl, hne⟩, -⟩
      exact ⟨hc, hl, fun hn => absurd hn hne⟩

theorem ScanOk.flush (hpos : c ≠ 0)
    (hw : Whole codec .flush c) (h : ScanOk (offset + (.flush : LogEntry codec).bytes.length) es
      (c - (.flush : LogEntry codec).bytes.length)
      { before with
        lastSuccessfulOffset := o
        lastFlushOffset := offset + (.flush : LogEntry codec).bytes.length } false after) :
    ScanOk offset (.flush :: es) c before sinceFlush after := by
  refine ⟨?_, ?_⟩
  · rw [h.lastFlush, readable, if_pos hw, flushed, if_neg (cons_ne_nil _ _), length_logBytes_cons]
    split
    · rename_i hnil
      rw [hnil]; rfl
    · rw [add_assoc]
  · rw [h.tail, readable, if_pos hw, clean, if_neg hpos, if_pos hw, flushed]
    constructor
    · rintro ⟨hc, hl, -⟩
      exact ⟨hc, by rw [hl], fun hn => by cases hn⟩
    · rintro ⟨hc, hl, -⟩
      exact ⟨hc, (cons.inj hl).2, fun _ => rfl⟩

/-- The scan from an entry boundary, by induction on the entries that were written. -/
theorem scanLoop_ok (fuel : Nat) (h : At codec r es c) (hfuel : (readable es c).length < fuel)
    (before : TruncationScanResult) (hbefore : before.needsTruncation = false) (sinceFlush : Bool) :
    ∃ after, scanLoop codec fuel r before sinceFlush = .ok after ∧
      ScanOk r.currentOffset es c before sinceFlush after := by
  induction es generalizing r c fuel before sinceFlush with
  | nil =>
    obtain ⟨fuel, rfl⟩ := exists_eq_succ_of_ne_zero (ne_of_gt (zero_lt_of_lt hfuel))
    refine ⟨_, ?_, scan_end hbefore rfl rfl _ sinceFlush⟩
    simp [scanLoop, h.readEntry_end (.inl rfl)]
  | cons e es ih =>
    obtain ⟨fuel, rfl⟩ := exists_eq_succ_of_ne_zero (ne_of_gt (zero_lt_of_lt hfuel))
    by_cases hpos : c = 0
    · subst hpos
      refine ⟨_, ?_, scan_end hbefore (readable_zero _) rfl _ sinceFlush⟩
      simp [scanLoop, h.readEntry_end (.inr rfl)]
    by_cases hw : Whole codec e c
    · obtain ⟨hread, hnext⟩ := h.readEntry_whole hw
      rw [readable, if_pos hw, length_cons] at hfuel
      have hfuel' := lt_of_succ_lt_succ hfuel
      cases e with
      | record a =>
        obtain ⟨after, hscan, hok⟩ := ih fuel hnext hfuel'
          { before with lastSuccessfulOffset := r.currentOffset + (LogEntry.record a).bytes.length }
          hbefore true
        refine ⟨after, ?_, ScanOk.record hpos hw hok⟩
        simp only [scanLoop, hread]
        exact hscan
      | flush =>
        obtain ⟨after, hscan, hok⟩ := ih fuel hnext hfuel'
          { before with
            lastSuccessfulOffset := r.currentOffset + (.flush : LogEntry codec).bytes.length
            lastFlushOffset := r.currentOffset + (.flush : LogEntry codec).bytes.length }
          hbefore false
        refine ⟨after, ?_, ScanOk.flush hpos hw hok⟩
        simp only [scanLoop, hread]
        exact hscan
    · obtain ⟨t, r', hread, htorn⟩ := h.readEntry_torn (Nat.pos_of_ne_zero hpos) hw
      refine ⟨{ before with tornWritePosition := some r.currentOffset }, ?_, ?_, ?_⟩
      · cases t with
        | entry e | endOfFile => cases htorn
        | tornWriteIncompleteHeader p | tornWriteIncompleteData p | tornWriteChecksumMismatch p =>
          simp only [scanLoop, hread, htorn]
      · rw [readable, if_neg hw]; rfl
      · rw [clean, if_neg hpos, if_neg hw]
        simp [TruncationScanResult.needsTruncation]

theorem logBytes_append (l k : List (LogEntry codec)) :
    logBytes codec (l ++ k) = logBytes codec l ++ logBytes codec k := flatMap_append

variable (es)

/-- The readable entries start the log and end before the cut. -/
theorem readable_spec (c : Nat) : readable es c <+: es ∧ (logBytes codec (readable es c)).length ≤ c := by
  induction es generalizing c with
  | nil => exact ⟨List.nil_prefix, zero_le _⟩
  | cons e es ih =>
    rw [readable]
    by_cases hw : Whole codec e c
    · obtain ⟨hpre, hlen⟩ := ih (c - e.bytes.length)
      have hle := hw.1
      rw [if_pos hw, length_logBytes_cons]
      exact ⟨cons_prefix_cons.2 ⟨rfl, hpre⟩, by omega⟩
    · rw [if_neg hw]
      exact ⟨List.nil_prefix, zero_le _⟩

theorem length_le_logBytes : es.length ≤ (logBytes codec es).length := by
  induction es with
  | nil => exact zero_le _
  | cons e es ih =>
    have hwidth := e.length_bytes
    unfold entryHeaderSize at hwidth
    rw [length_logBytes_cons, length_cons]
    omega

/-! ## The scan of a file -/

theorem readEntry_fresh (hfile : file = m.headerBytes ++ rest) :
    readEntryWithTornDetection codec { file } = readEntryWithTornDetection codec (behindHeader file m) := by
  simp only [readEntryWithTornDetection, readHeader_whole hfile]
  rfl

variable (m)

theorem at_behindHeader (es : List (LogEntry codec)) (c : Nat) :
    At codec (behindHeader (m.headerBytes ++ (logBytes codec es).take c) m) es c := by
  refine ⟨rfl, ?_, drop_left' (length_headerBytes m)⟩
  change walHeaderSize ≤ (m.headerBytes ++ (logBytes codec es).take c).length
  rw [length_append, length_headerBytes]
  exact le_add_right _ _

theorem scanForTruncationPoint_ok (es : List (LogEntry codec)) (c : Nat) :
    ∃ t, scanForTruncationPoint codec { file := m.headerBytes ++ (logBytes codec es).take c } = .ok t ∧
      ScanOk walHeaderSize es c {} false t := by
  have hfuel : (readable es c).length < (m.headerBytes ++ (logBytes codec es).take c).length + 1 := by
    obtain ⟨⟨k, hk⟩, hlen⟩ := readable_spec es c
    have hle := length_le_logBytes (readable es c)
    have hes : (logBytes codec es).length = (logBytes codec (readable es c)).length + (logBytes codec k).length := by
      rw [← length_append, ← logBytes_append, hk]
    rw [length_append, length_take]
    omega
  obtain ⟨t, hscan, hok⟩ := scanLoop_ok _ (at_behindHeader m es c) hfuel {} rfl false
  refine ⟨t, ?_, hok⟩
  rw [← hscan, scanForTruncationPoint]
  simp only [scanLoop, readEntry_fresh rfl]

theorem flushed_isPrefix (l : List (LogEntry codec)) : flushed l <+: l := by
  induction l with
  | nil => exact nil_prefix
  | cons e l ih =>
    cases e with
    | record a =>
      rw [flushed_record]
      split
      · exact nil_prefix
      · exact cons_prefix_cons.2 ⟨rfl, ih⟩
    | flush => exact cons_prefix_cons.2 ⟨rfl, ih⟩

/-- The bytes up to the last flush are the flushed entries. -/
theorem take_flushed (c : Nat) : ((logBytes codec es).take c).take (logBytes codec (flushed (readable es c))).length =
      logBytes codec (flushed (readable es c)) := by
  obtain ⟨hpre, hlen⟩ := readable_spec es c
  obtain ⟨k, hk⟩ := flushed_isPrefix (readable es c)
  obtain ⟨k', hk'⟩ := hpre
  have hle : (logBytes codec (flushed (readable es c))).length ≤ c := by
    rw [← hk, logBytes_append, length_append] at hlen
    omega
  have hes : logBytes codec es = logBytes codec (flushed (readable es c)) ++ logBytes codec (k ++ k') := by
    rw [← logBytes_append, ← append_assoc, hk, hk']
  rw [take_take, min_eq_left hle, hes, take_left]

variable {es}

/-- A file that ends where a readable entry ends holds nothing else. -/
theorem take_of_clean (h : clean es c = true) : (logBytes codec es).take c = logBytes codec (readable es c) := by
  induction es generalizing c with
  | nil => rw [readable, logBytes, flatMap_nil, take_nil]
  | cons e es ih =>
    by_cases hpos : c = 0
    · rw [hpos, readable_zero]; rfl
    rw [clean, if_neg hpos] at h
    by_cases hw : Whole codec e c
    · rw [if_pos hw] at h
      have hcons : logBytes codec (e :: es) = e.bytes ++ logBytes codec es := flatMap_cons
      have hread : logBytes codec (readable (e :: es) c) =
          e.bytes ++ logBytes codec (readable es (c - e.bytes.length)) := by
        rw [readable, if_pos hw]
        exact flatMap_cons
      rw [hcons, hread, take_append, take_of_length_le hw.1, ih h]
    · rw [if_neg hw] at h
      cases h

theorem logBytes_ne_nil (h : es ≠ []) : logBytes codec es ≠ [] := by
  cases es with
  | nil => exact absurd rfl h
  | cons e es =>
    have hpos := e.length_bytes
    have hlen := length_logBytes_cons e es
    intro hnil
    rw [hnil, length_nil, hpos, entryHeaderSize] at hlen
    omega

/-! ## A log that was not cut -/

/-- The reader stands behind the header, the rest of the file is the log of `es`, and none of them is
over the limit. -/
structure Complete (r : WalReader) (es : List (LogEntry codec)) : Prop where
  standsAt : At codec r es (logBytes codec es).length
  fits : ∀ e ∈ es, e.data.length ≤ maxEntrySize

theorem Complete.readEntry (h : Complete r (e :: es)) : r.readEntryWithTornDetection codec =
        .ok (.entry e.decoded, r.advance (r.currentOffset + e.bytes.length) e.decoded) ∧
      Complete (r.advance (r.currentOffset + e.bytes.length) e.decoded) es := by
  have hlen := length_logBytes_cons e es
  have hw : Whole codec e (logBytes codec (e :: es)).length := by
    refine ⟨?_, h.fits e mem_cons_self⟩
    omega
  obtain ⟨hread, hat⟩ := h.standsAt.readEntry_whole hw
  have hrest : (logBytes codec (e :: es)).length - e.bytes.length = (logBytes codec es).length := by omega
  rw [hrest] at hat
  exact ⟨hread, hat, fun e' he' => h.fits e' (mem_cons_of_mem _ he')⟩

theorem Complete.finished_iff (h : Complete r es) : r.finished ↔ es = [] := by
  have hrem := h.standsAt.remaining
  rw [take_length, remaining] at hrem
  unfold finished
  cases es with
  | nil =>
    have hnil : (logBytes codec ([] : List (LogEntry codec))).length = 0 := rfl
    simp only [iff_true]
    omega
  | cons e es =>
    have hpos := e.length_bytes
    rw [length_logBytes_cons] at hrem
    unfold entryHeaderSize at hpos
    simp only [reduceCtorEq, iff_false]
    omega

theorem complete_behindHeader (m : WalHeaderMetadata) (hfits : ∀ e ∈ es, e.data.length ≤ maxEntrySize) :
    Complete (behindHeader (m.headerBytes ++ logBytes codec es) m) es := by
  have hat := at_behindHeader m es (logBytes codec es).length
  rw [take_length] at hat
  exact ⟨hat, hfits⟩

end WalReader
end Paro.L2
