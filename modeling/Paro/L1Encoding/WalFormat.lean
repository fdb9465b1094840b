import Paro.L1Encoding.WalChecksum

/-!
# WAL format

The bytes of a WAL segment (crates/journal/src/wal/wal_type.rs, wal_entry.rs, wal_writer.rs): a
header of 33 bytes, then entries of size, checksum and data, where the first data byte is the type.
`WalWriter` is the file it writes; `appendBatch` is `WalJournalSink::append_batch`.

The codecs of the payloads are a parameter (`JournalCodec`): of `encode_record` and `decode_frame` it
is used that the second undoes the first and that a frame is shorter than 2^32 bytes. Journal records,
transaction ops, hooks and rowset changes are values that recovery only hands on, all of one type `R`;
times and sequence numbers that nothing reads are left out.
-/
namespace Paro.L1

/-- wal_type.rs:11-52 -/
inductive WalType
  | invalid | rowsetCommit | primaryDelete | rowIdDelete | compactionPublish | journalRecord
  | txnBegin | txnCatalogOp | txnDataOp | txnPostCommitHook | txnCommit | txnAbort
  | walVersion | walFlush
deriving DecidableEq, Repr

inductive WalError
  | emptyWalFile
  | readFailed
  | emptyWalEntry
  | unsupportedHistoricalWalOpcode (value : UInt8)
  | invalidWalType (value : UInt8)
  | invalidWalHeader (walType : WalType)
  | unsupportedWalVersion (version : Nat)
  | walVersionNotReplayable (version : Nat)
  | databaseIdentityMismatch
  | checkpointIterationMismatch
  | truncatedVersionEntry
  | journalDecode
  | txnDecode
  | unexpectedTxnRecord (walType : WalType)
  | rowChangeDecode (walType : WalType)
  | unsupportedWalType (walType : WalType)
  | catalogInvalid
  | legacySeedLayout
  | replayStartNotFound (segmentId : Nat)
  | unflushedTail
  | corruptedTail (position : Nat)
  | replayHandler
deriving DecidableEq, Repr

namespace WalType

def code : WalType → UInt8
  | invalid => 0 | rowsetCommit => 30 | primaryDelete => 31 | rowIdDelete => 32
  | compactionPublish => 33 | txnBegin => 43 | txnCatalogOp => 44 | txnDataOp => 45
  | txnPostCommitHook => 46 | txnCommit => 47 | txnAbort => 48 | journalRecord => 49
  | walVersion => 98 | walFlush => 100

/-- wal_type.rs:51-56 -/
def legacyCatalogOpcode (value : UInt8) : Bool :=
  (1 ≤ value && value ≤ 6) || (8 ≤ value && value ≤ 24)

/-- wal_type.rs:103-135 -/
def tryFrom (value : UInt8) : Except WalError WalType :=
  if legacyCatalogOpcode value then .error (.unsupportedHistoricalWalOpcode value)
  else
    match value with
    | 0 => .ok invalid
    | 25 | 26 | 27 | 28 | 29 => .error (.unsupportedHistoricalWalOpcode value)
    | 30 => .ok rowsetCommit
    | 31 => .ok primaryDelete
    | 32 => .ok rowIdDelete
    | 33 => .ok compactionPublish
    | 43 => .ok txnBegin
    | 44 => .ok txnCatalogOp
    | 45 => .ok txnDataOp
    | 46 => .ok txnPostCommitHook
    | 47 => .ok txnCommit
    | 48 => .ok txnAbort
    | 49 => .ok journalRecord
    | 98 => .ok walVersion
    | 99 => .error (.unsupportedHistoricalWalOpcode value)
    | 100 => .ok walFlush
    | _ => .error (.invalidWalType value)

/-- Every type is read back from its byte. -/
theorem tryFrom_code (t : WalType) : tryFrom t.code = .ok t := by
  cases t <;> rfl

end WalType

/-! ## Header -/

theorem length_zeroIdentifier : (List.replicate 16 (0 : UInt8)).length = 16 := rfl

/-- wal_entry.rs:25-32 -/
structure WalHeaderMetadata where
  dbIdentifier : Bytes := List.replicate 16 0
  checkpointIteration : UInt64 := 0
  length_dbIdentifier : dbIdentifier.length = 16 := by exact length_zeroIdentifier
deriving DecidableEq

def walVersionNumber : Nat := 3

/-- What `write_header` writes. wal_writer.rs:263-267 -/
def WalHeaderMetadata.headerBytes (m : WalHeaderMetadata) : Bytes :=
  WalType.walVersion.code :: leBytes 8 walVersionNumber ++ m.dbIdentifier ++
    leBytes 8 m.checkpointIteration.toNat

def walHeaderSize : Nat := 33

theorem length_headerBytes (m : WalHeaderMetadata) : m.headerBytes.length = walHeaderSize := by
  simp [WalHeaderMetadata.headerBytes, m.length_dbIdentifier, walHeaderSize]

/-! ## Entries -/

def entryHeaderSize : Nat := 16

variable (walType : WalType)

/-- The data of an entry with its type byte. wal_writer.rs:291-294 -/
def entryData (data : Bytes) : Bytes := walType.code :: data

/-- What `write_entry` writes. wal_writer.rs:283-306 -/
def entryBytes (data : Bytes) : Bytes :=
  leBytes 8 (entryData walType data).length ++
    leBytes 8 (computeWalChecksum (entryData walType data)).toNat ++ entryData walType data

theorem length_entryBytes (data : Bytes) :
    (entryBytes walType data).length = entryHeaderSize + (entryData walType data).length := by
  simp only [entryBytes, List.length_append, length_leBytes, entryHeaderSize]

/-- txn_record.rs:9-34 -/
inductive TxnRecord (R : Type)
  | txnBegin (txnId : Nat)
  | catalogOp (op : R)
  | dataOp (op : R)
  | postCommitHook (hook : R)
  | commit (txnId commitId : Nat)
  | abort (txnId : Nat)

/-- The codecs of the payloads. `encodeRecord` is `encode_record` of codec.rs, which fails for a frame
that does not fit 32 bits, `decodeFrame` is `decode_frame`, `decodeTxnRecord` is
`TxnRecord::deserialize_data`, and `decodeRowChange` reads the fields of the deletes, rowset commits and
compaction publishes. -/
structure JournalCodec (R : Type) where
  encodeRecord : R → Nat → Option Bytes
  decodeFrame : Bytes → Option (Nat × R)
  decodeTxnRecord : Bytes → Option (TxnRecord R)
  decodeRowChange : WalType → Bytes → Option R
  decode_encode : ∀ r lsn frame, encodeRecord r lsn = some frame → decodeFrame frame = some (lsn, r)
  length_lt : ∀ r lsn frame, encodeRecord r lsn = some frame → frame.length < 2 ^ 32

/-- wal_entry.rs:103-167; `rowChange` stands for `PrimaryDelete`, `RowIdDelete`, `RowsetCommit`
and `CompactionPublish` -/
inductive WalEntry (R : Type)
  | version (version : Nat)
  | journalRecord (lsn : Nat) (record : R)
  | txnBegin (txnId : Nat)
  | txnCatalogOp (op : R)
  | txnDataOp (op : R)
  | txnPostCommitHook (hook : R)
  | txnCommit (txnId commitId : Nat)
  | txnAbort (txnId : Nat)
  | rowChange (walType : WalType) (change : R)
  | flush
deriving DecidableEq

/-- The entry of a transaction record, when its kind is the one the type byte names. -/
def TxnRecord.entry {R : Type} : WalType → TxnRecord R → Except WalError (WalEntry R)
  | .txnBegin, txnBegin id => .ok (.txnBegin id)
  | .txnCatalogOp, catalogOp op => .ok (.txnCatalogOp op)
  | .txnDataOp, dataOp op => .ok (.txnDataOp op)
  | .txnPostCommitHook, postCommitHook hook => .ok (.txnPostCommitHook hook)
  | .txnCommit, commit id commitId => .ok (.txnCommit id commitId)
  | .txnAbort, abort id => .ok (.txnAbort id)
  | t, _ => .error (.unexpectedTxnRecord t)

/-- wal_entry.rs:1479-1697 -/
def WalEntry.deserialize {R : Type} (codec : JournalCodec R) : Bytes → Except WalError (WalEntry R)
  | [] => .error .emptyWalEntry
  | type :: data =>
    match WalType.tryFrom type with
    | .error e => .error e
    | .ok .walVersion =>
      if data.length < 8 then .error .truncatedVersionEntry
      else .ok (.version (ofLeBytes (data.take 8)))
    | .ok .journalRecord =>
      match codec.decodeFrame data with
      | none => .error .journalDecode
      | some (lsn, record) => .ok (.journalRecord lsn record)
    | .ok .walFlush => .ok .flush
    | .ok .invalid => .error (.unsupportedWalType .invalid)
    | .ok t =>
      if t ∈ [.primaryDelete, .rowIdDelete, .rowsetCommit, .compactionPublish] then
        match codec.decodeRowChange t data with
        | none => .error (.rowChangeDecode t)
        | some change => .ok (.rowChange t change)
      else
        match codec.decodeTxnRecord data with
        | none => .error .txnDecode
        | some record => record.entry t

/-! ## Writing -/

variable {R : Type} (codec : JournalCodec R)

structure AppendedRecord where
  lsn : Nat
  record : R
  frame : Bytes
  encoded : codec.encodeRecord record lsn = some frame

inductive LogEntry
  | record (r : AppendedRecord codec)
  | flush

namespace LogEntry
variable {codec}

def data : LogEntry codec → Bytes
  | record r => entryData .journalRecord r.frame
  | flush => entryData .walFlush []

def bytes : LogEntry codec → Bytes
  | record r => entryBytes .journalRecord r.frame
  | flush => entryBytes .walFlush []

def decoded : LogEntry codec → WalEntry R
  | record r => .journalRecord r.lsn r.record
  | flush => .flush

variable (e : LogEntry codec)

theorem bytes_eq : e.bytes = leBytes 8 e.data.length ++ leBytes 8 (computeWalChecksum e.data).toNat ++ e.data := by
  cases e <;> rfl

theorem length_bytes : e.bytes.length = entryHeaderSize + e.data.length := by
  cases e <;> exact length_entryBytes _ _

theorem deserialize_data : WalEntry.deserialize codec e.data = .ok e.decoded := by
  cases e with
  | record r =>
    rw [data, entryData, WalEntry.deserialize, WalType.tryFrom_code]
    simp only [codec.decode_encode _ _ _ r.encoded, decoded]
  | flush => rfl

theorem length_data_lt : e.data.length < 256 ^ 8 := by
  cases e with
  | record r =>
    have := codec.length_lt _ _ _ r.encoded
    rw [data, entryData, List.length_cons]
    omega
  | flush => exact (by decide : 1 < 256 ^ 8)

end LogEntry

/-- The entries of a batch. `append_batch` writes nothing for no frames.
journal_sink.rs:23-34 -/
def batchEntries (batch : List (AppendedRecord codec)) : List (LogEntry codec) :=
  if batch = [] then [] else batch.map .record ++ [.flush]

def logBytes (es : List (LogEntry codec)) : Bytes := es.flatMap LogEntry.bytes

/-- The segment file after one more batch. The file and its header are created by the first write.
journal_sink.rs:23-34 and wal_writer.rs:244-270 -/
def appendBatch (metadata : WalHeaderMetadata) (file : Option Bytes)
    (batch : List (AppendedRecord codec)) : Option Bytes :=
  if batch = [] then file
  else some (file.getD metadata.headerBytes ++ logBytes codec (batchEntries codec batch))

end Paro.L1
