import Mathlib
import Paro.L2Machine.SegmentCatalog
import Paro.L2Machine.WalReader

/-!
# WAL recovery

Model of `WalRecovery` (crates/journal/src/wal/recovery.rs): the scan and truncation of a segment, the
second pass that hands the flushed entries to a handler, the loop over the segments of the catalog and
the reopening of the WAL (crates/journal/src/wal/write_ahead_log.rs).

A handler is what it answers to a call, given the calls before it; the calls are recorded in the state,
so what a recovery delivers is a list. Logging, `wal_keep_from` (which is only logged) and the byte
counts of the log lines are left out. `La-b` are lines of `recovery.rs`.
-/
namespace Paro.L2
open L1 WalReader MonadExcept Function

/-- The calls of the trait `ReplayHandler`. L29-100 -/
inductive ReplayCall (R : Type)
  | transaction (catalogOps dataOps postCommitHooks : List R) (commitId : Nat)
  | journalRecord (lsn : Nat) (record : R)
  | validateRowsetCommit (change : R)
  | rowChange (walType : WalType) (change : R)
  | onFlush
deriving DecidableEq

def ReplayCall.isFlush {R : Type} : ReplayCall R → Bool
  | onFlush => true
  | _ => false

abbrev ReplayHandler (R : Type) := List (ReplayCall R) → ReplayCall R → Except WalError Unit

/-- replay_state.rs:55-64; the error is kept instead of its text -/
structure ReplayResult where
  (entriesReplayed lastSuccessfulOffset : Nat)
  allSucceeded : Bool
  error : Option WalError
deriving DecidableEq

variable (entriesReplayed lastOffset : Nat)

/-- replay_state.rs:67-74 -/
def ReplayResult.success : ReplayResult :=
  ⟨entriesReplayed, lastOffset, true, none⟩

/-- `ReplayResult::partial`. replay_state.rs:76-83 -/
def ReplayResult.incomplete (error : WalError) : ReplayResult :=
  ⟨entriesReplayed, lastOffset, false, some error⟩

structure RecoveryState (R : Type) where
  catalog : Option SegmentCatalog
  legacySeedExists : Bool := false
  segments : Nat → Option Bytes
  calls : List (ReplayCall R) := []

abbrev Recover (R : Type) := EStateM WalError (RecoveryState R)

inductive WalInitState
  | uninitialized | uninitializedRequiresTruncate
deriving DecidableEq, Repr

structure WriteAheadLog where
  headerMetadata : WalHeaderMetadata
  initState : WalInitState
deriving DecidableEq

/-- L365-381; the bounds are kept in order by `with_replay_lsn_bounds` -/
structure WalRecovery where
  autoTruncateTornWrites : Bool := true
  expectedWalHeaderMetadata : Option WalHeaderMetadata := none
  logicalStartLsn : Nat := 1
  replayFromLsn : Nat := 1
  one_le_logicalStartLsn : 1 ≤ logicalStartLsn := by decide
  logicalStartLsn_le : logicalStartLsn ≤ replayFromLsn := by decide

def saturatingSucc (n : Nat) : Nat := min (n + 1) (2 ^ 64 - 1)

open List hiding get set modify

namespace WalRecovery
variable {R : Type} (w : WalRecovery) (codec : JournalCodec R) (handler : ReplayHandler R)

/-- L414-418 -/
def withReplayLsnBounds (logicalStartLsn replayFromLsn : Nat) : WalRecovery :=
  { w with
    logicalStartLsn := max logicalStartLsn 1
    replayFromLsn := max replayFromLsn (max logicalStartLsn 1)
    one_le_logicalStartLsn := Nat.le_max_right _ _
    logicalStartLsn_le := Nat.le_max_right _ _ }

/-- L454-498 -/
def validateWalHeaderMetadata (actual : WalHeaderMetadata) : Except WalError Unit :=
  match w.expectedWalHeaderMetadata with
  | none => .ok ()
  | some expected =>
    if actual.dbIdentifier ≠ expected.dbIdentifier then .error .databaseIdentityMismatch
    else if actual.checkpointIteration = expected.checkpointIteration then .ok ()
    else if saturatingSucc actual.checkpointIteration.toNat = expected.checkpointIteration.toNat then .ok ()
    else .error .checkpointIterationMismatch

/-- L501-511 -/
def validateReplayableWal (reader : WalReader) : Except WalError Unit :=
  if reader.walVersion ≠ walVersionNumber then .error (.walVersionNotReplayable reader.walVersion)
  else w.validateWalHeaderMetadata reader.headerMetadata

/-! ## Applying the entries of a flushed group -/

def hand (call : ReplayCall R) : Recover R Unit := fun s =>
  match handler s.calls call with
  | .ok _ => .ok () { s with calls := s.calls ++ [call] }
  | .error e => .error e { s with calls := s.calls ++ [call] }

/-- L1021-1095 -/
def applyEntry : WalEntry R → Recover R Unit
  | .rowChange .rowsetCommit change => do
    hand handler (.validateRowsetCommit change)
    hand handler (.rowChange .rowsetCommit change)
  | .rowChange walType change => hand handler (.rowChange walType change)
  | _ => pure ()

structure TxnEnvelope (R : Type) where
  catalogOps : List R := []
  dataOps : List R := []
  hooks : List R := []
  commitId : Option Nat := none

/-- The inner loop of an envelope: what it holds, and the entries behind it.
L946-971 -/
def readEnvelope (txnId : Nat) : TxnEnvelope R → List (WalEntry R) → TxnEnvelope R × List (WalEntry R)
  | env, .txnCatalogOp op :: es => readEnvelope txnId { env with catalogOps := env.catalogOps ++ [op] } es
  | env, .txnDataOp op :: es => readEnvelope txnId { env with dataOps := env.dataOps ++ [op] } es
  | env, .txnPostCommitHook hook :: es => readEnvelope txnId { env with hooks := env.hooks ++ [hook] } es
  | env, .txnCommit id commitId :: es =>
    if id = txnId then ({ env with commitId := some commitId }, es)
    else (env, .txnCommit id commitId :: es)
  | env, .txnAbort id :: es => if id = txnId then (env, es) else (env, .txnAbort id :: es)
  | env, es => (env, es)

/-- The loop over the pending entries, with the next LSN for entries that carry none and the entries
replayed so far. Every turn drops an entry, so their number is enough fuel.
L928-1012 -/
def applyEntries : Nat → List (WalEntry R) → Nat → Nat → Recover R (Nat × Nat)
  | 0, _, nextLsn, replayed => pure (replayed, nextLsn)
  | _, [], nextLsn, replayed => pure (replayed, nextLsn)
  | fuel + 1, .journalRecord lsn record :: es, nextLsn, replayed =>
    let nextLsn := max nextLsn (saturatingSucc lsn)
    if w.replayFromLsn ≤ lsn then do
      hand handler (.journalRecord lsn record)
      applyEntries fuel es nextLsn (replayed + 1)
    else applyEntries fuel es nextLsn replayed
  | fuel + 1, .txnBegin txnId :: es, nextLsn, replayed =>
    let (env, rest) := readEnvelope txnId {} es
    match env.commitId with
    | some commitId =>
      if w.replayFromLsn ≤ nextLsn then do
        hand handler (.transaction env.catalogOps env.dataOps env.hooks commitId)
        applyEntries fuel rest (saturatingSucc nextLsn) (replayed + 1)
      else applyEntries fuel rest (saturatingSucc nextLsn) replayed
    | none => applyEntries fuel rest nextLsn (replayed + (es.length + 1 - rest.length))
  | fuel + 1, .version _ :: es, nextLsn, replayed => applyEntries fuel es nextLsn replayed
  | fuel + 1, .flush :: es, nextLsn, replayed => applyEntries fuel es nextLsn replayed
  | fuel + 1, entry :: es, nextLsn, replayed =>
    if w.replayFromLsn ≤ nextLsn then do
      applyEntry handler entry
      applyEntries fuel es (saturatingSucc nextLsn) (replayed + 1)
    else applyEntries fuel es (saturatingSucc nextLsn) replayed

/-- L917-1018 -/
def applyPendingTransactionEntries (entries : List (WalEntry R)) (nextLsn : Nat) : Recover R (Nat × Nat) := do
  let (replayed, nextLsn) ← w.applyEntries handler entries.length entries nextLsn 0
  hand handler .onFlush
  pure (replayed + 1, nextLsn)

/-! ## The second pass -/

structure Pass (R : Type) where
  pending : List (WalEntry R) := []
  nextLsn : Nat
  entriesReplayed : Nat := 0
  lastSuccessfulOffset : Nat := 0

/-- Every turn that goes on consumes an entry, so the length of the file is enough fuel. An error of the
reader or of the handler ends the pass with what was replayed. L797-887 -/
def secondPassLoop : Nat → WalReader → Pass R → Recover R ReplayResult
  | 0, _, p => pure (.success p.entriesReplayed p.lastSuccessfulOffset)
  | fuel + 1, r, p =>
    match r.readEntryWithTornDetection codec with
    | .error e => pure (.incomplete p.entriesReplayed p.lastSuccessfulOffset e)
    | .ok (.entry .flush, r) => fun s =>
      match w.applyPendingTransactionEntries handler p.pending p.nextLsn s with
      | .error e s => .ok (.incomplete p.entriesReplayed p.lastSuccessfulOffset e) s
      | .ok (replayed, nextLsn) s =>
        if r.finished then .ok (.success (p.entriesReplayed + replayed) r.currentOffset) s
        else
          secondPassLoop fuel r
            { nextLsn
              entriesReplayed := p.entriesReplayed + replayed
              lastSuccessfulOffset := r.currentOffset } s
    | .ok (.entry entry, r) => secondPassLoop fuel r { p with pending := p.pending ++ [entry] }
    | .ok (.endOfFile, _) =>
      if p.pending.isEmpty then pure (.success p.entriesReplayed p.lastSuccessfulOffset)
      else pure (.incomplete p.entriesReplayed p.lastSuccessfulOffset .unflushedTail)
    | .ok (torn, _) =>
      pure (.incomplete p.entriesReplayed p.lastSuccessfulOffset
        (.corruptedTail (torn.tailCorruptionPosition.getD 0)))

/-- L782-911 -/
def secondPass (r : WalReader) : Recover R ReplayResult :=
  w.secondPassLoop codec handler (r.file.length + 1) r { nextLsn := w.logicalStartLsn }

/-! ## Recovery -/

/-- The file after `truncate_wal_file_with_reason`; both pointers are the requested offset.
L687-779 -/
def truncateWalFile (file : Bytes) (offset : Nat) : Bytes :=
  let logicalAckOffset := min offset file.length
  let physicalTruncateOffset := min (min offset file.length) logicalAckOffset
  if file.length ≤ physicalTruncateOffset then file else file.take physicalTruncateOffset

/-- L623-685 -/
def recoverFromWal (segmentId : Nat) (file : Bytes) : Recover R ReplayResult := do
  let scan ← ofExcept (scanForTruncationPoint codec { file })
  let file :=
    if scan.needsTruncation && w.autoTruncateTornWrites then
      truncateWalFile file scan.recommendedTruncationPoint
    else file
  modify fun s => { s with segments := update s.segments segmentId (some file) }
  if file.length = 0 then pure (.success 0 0) else w.secondPass codec handler { file }

/-- L612-620 -/
def replayOnly (segmentId : Nat) : Recover R ReplayResult := do
  match (← get).segments segmentId with
  | none => pure (.success 0 0)
  | some file =>
    let reader ← ofExcept (readHeader { file })
    ofExcept (w.validateReplayableWal reader)
    w.recoverFromWal codec handler segmentId file

/-- The loop over the segments. L563-586 -/
def replaySegments : List ReplayCursorEntry → ReplayResult → Recover R ReplayResult
  | [], result => pure result
  | entry :: rest, result => do
    let segment ← (w.withReplayLsnBounds entry.startingLsn entry.replayFromLsn).replayOnly codec handler
      entry.segmentId
    let result : ReplayResult :=
      { result with
        entriesReplayed := result.entriesReplayed + segment.entriesReplayed
        lastSuccessfulOffset := segment.lastSuccessfulOffset }
    if segment.allSucceeded then replaySegments rest result
    else pure { result with allSucceeded := false, error := result.error.or segment.error }

/-- write_ahead_log.rs:101-114 -/
def loadActiveHeaderMetadata (s : RecoveryState R) (catalog : SegmentCatalog) :
    Except WalError (Option WalHeaderMetadata) :=
  match catalog.activeSegment.bind fun active => s.segments active.segmentId with
  | none => .ok none
  | some file => (readHeader { file }).map fun reader => some reader.headerMetadata

/-- `create_wal`, which loads the catalog or creates it and reads the header of the active segment.
L432-439 and write_ahead_log.rs:63-92 -/
def createWal (initState : WalInitState) : Recover R WriteAheadLog := do
  let catalog := (← get).catalog.getD (.new 1)
  ofExcept catalog.validate
  modify fun s => { s with catalog := some catalog }
  let metadata ← ofExcept (loadActiveHeaderMetadata (← get) catalog)
  pure ⟨metadata.getD (w.expectedWalHeaderMetadata.getD {}), initState⟩

/-- L527-604 -/
def recover : Recover R (WriteAheadLog × ReplayResult) := do
  let entries ← match (← get).catalog with
    | some catalog => do
      ofExcept catalog.validate
      ofExcept (catalog.replayCursor 0 (max w.replayFromLsn w.logicalStartLsn))
    | none => if (← get).legacySeedExists then throw .legacySeedLayout else pure []
  let result ← w.replaySegments codec handler entries (.success 0 0)
  let wal ← w.createWal
    (if result.allSucceeded then .uninitialized else .uninitializedRequiresTruncate)
  pure (wal, result)

/-! ## What a handler that never fails is handed -/

def NeverFails (handler : ReplayHandler R) : Prop := ∀ calls call, handler calls call = .ok ()

variable (replayFromLsn : Nat)

/-- The calls for the records of a batch that are not below the replay bound. -/
def delivered {codec : JournalCodec R} (batch : List (AppendedRecord codec)) :
    List (ReplayCall R) :=
  (batch.filter fun a => replayFromLsn ≤ a.lsn).map fun a => .journalRecord a.lsn a.record

def batchCalls {codec : JournalCodec R} (batch : List (AppendedRecord codec)) :
    List (ReplayCall R) :=
  if batch = [] then [] else delivered replayFromLsn batch ++ [.onFlush]

variable {w codec handler} {s s' : RecoveryState R}
  {β α : Type} {f : α → Recover R β} {x : Recover R α} {m : WalHeaderMetadata}

theorem bind_ok {a : α} (h : x s = .ok a s') : (x >>= f) s = f a s' := by
  simp only [bind, EStateM.bind, h]

variable {e : WalError} {fuel : Nat} {batches : List (List (AppendedRecord codec))} {result : ReplayResult}

theorem bind_error (h : x s = .error e s') : (x >>= f) s = .error e s' := by
  simp only [bind, EStateM.bind, h]

theorem hand_ok (hn : NeverFails handler) (call : ReplayCall R) :
    hand handler call s = .ok () { s with calls := s.calls ++ [call] } := by
  simp only [hand, hn s.calls call]

theorem delivered_cons (lsn : Nat) (a : AppendedRecord codec) (batch : List (AppendedRecord codec)) :
    delivered lsn (a :: batch) =
      (if lsn ≤ a.lsn then [.journalRecord a.lsn a.record] else []) ++ delivered lsn batch := by
  unfold delivered
  by_cases h : lsn ≤ a.lsn
  · simp [h]
  · simp [h]

theorem applyEntries_records (hn : NeverFails handler) (batch : List (AppendedRecord codec))
    (hfuel : batch.length ≤ fuel) (nextLsn replayed : Nat) (s : RecoveryState R) :
    ∃ out, w.applyEntries handler fuel (batch.map fun a => (LogEntry.record a).decoded) nextLsn replayed s =
      .ok out { s with calls := s.calls ++ delivered w.replayFromLsn batch } := by
  induction batch generalizing fuel nextLsn replayed s with
  | nil =>
    refine ⟨(replayed, nextLsn), ?_⟩
    cases fuel <;> simp [applyEntries, delivered, pure, EStateM.pure]
  | cons a batch ih =>
    rw [length_cons] at hfuel
    obtain ⟨fuel, rfl⟩ := Nat.exists_eq_succ_of_ne_zero (by omega : fuel ≠ 0)
    simp only [map_cons, LogEntry.decoded, applyEntries, delivered_cons]
    by_cases hlsn : w.replayFromLsn ≤ a.lsn
    · rw [if_pos hlsn, if_pos hlsn, bind_ok (hand_ok hn _)]
      obtain ⟨out, hout⟩ := ih (Nat.le_of_succ_le_succ hfuel) (max nextLsn (saturatingSucc a.lsn))
        (replayed + 1) { s with calls := s.calls ++ [.journalRecord a.lsn a.record] }
      refine ⟨out, ?_⟩
      rw [append_assoc] at hout
      exact hout
    · rw [if_neg hlsn, if_neg hlsn, nil_append]
      exact ih (Nat.le_of_succ_le_succ hfuel) _ _ _

theorem applyPending_records (hn : NeverFails handler) {batch : List (AppendedRecord codec)}
    (hne : batch ≠ []) (nextLsn : Nat) (s : RecoveryState R) :
    ∃ out, w.applyPendingTransactionEntries handler (batch.map fun a => (LogEntry.record a).decoded)
      nextLsn s = .ok out { s with calls := s.calls ++ batchCalls w.replayFromLsn batch } := by
  obtain ⟨⟨replayed, nextLsn'⟩, hout⟩ := applyEntries_records hn batch
    (Nat.le_of_eq (length_map (fun a => (LogEntry.record a).decoded)).symm) nextLsn 0 s
  refine ⟨(replayed + 1, nextLsn'), ?_⟩
  rw [applyPendingTransactionEntries, bind_ok hout]
  change (hand handler .onFlush >>= fun _ => pure (replayed + 1, nextLsn')) _ = _
  rw [bind_ok (hand_ok hn _), batchCalls, if_neg hne]
  simp [pure, EStateM.pure]

section
variable (w handler) {r : WalReader} {es : List (LogEntry codec)}

theorem secondPassLoop_record {a : AppendedRecord codec} (h : WalReader.Complete r (.record a :: es)) (p : Pass R) :
    ∃ r', WalReader.Complete r' es ∧ ∀ fuel, w.secondPassLoop codec handler (fuel + 1) r p =
      w.secondPassLoop codec handler fuel r'
        { p with pending := p.pending ++ [(LogEntry.record a).decoded] } := by
  obtain ⟨hread, hnext⟩ := h.readEntry
  refine ⟨_, hnext, fun fuel => ?_⟩
  simp [secondPassLoop, hread, LogEntry.decoded]

/-- The records of a batch become pending. -/
theorem secondPassLoop_records (batch : List (AppendedRecord codec))
    (h : WalReader.Complete r (batch.map .record ++ es)) (p : Pass R) :
    ∃ r', WalReader.Complete r' es ∧ ∀ fuel, w.secondPassLoop codec handler (fuel + batch.length) r p =
      w.secondPassLoop codec handler fuel r'
        { p with pending := p.pending ++ batch.map fun a => (LogEntry.record a).decoded } := by
  induction batch generalizing r p with
  | nil =>
    refine ⟨r, h, fun fuel => ?_⟩
    simp
  | cons a batch ih =>
    obtain ⟨r1, h1, hstep⟩ := secondPassLoop_record w handler h p
    obtain ⟨r2, h2, hrest⟩ := ih h1 { p with pending := p.pending ++ [(LogEntry.record a).decoded] }
    refine ⟨r2, h2, fun fuel => ?_⟩
    rw [length_cons, ← Nat.add_assoc, hstep, hrest]
    simp

/-- A flush applies what is pending; behind the last one the pass is done. -/
theorem secondPassLoop_flush (h : WalReader.Complete r (.flush :: es)) {p : Pass R} {out : Nat × Nat}
    (happly : w.applyPendingTransactionEntries handler p.pending p.nextLsn s = .ok out s') :
    ∃ r', WalReader.Complete r' es ∧ ∃ p', p'.pending = [] ∧ ∀ fuel, w.secondPassLoop codec handler (fuel + 1) r p s =
        if es = [] then .ok (.success p'.entriesReplayed p'.lastSuccessfulOffset) s'
        else w.secondPassLoop codec handler fuel r' p' s' := by
  obtain ⟨hread, hnext⟩ := h.readEntry
  refine ⟨_, hnext,
    { nextLsn := out.2
      entriesReplayed := p.entriesReplayed + out.1
      lastSuccessfulOffset := r.currentOffset + (.flush : LogEntry codec).bytes.length },
    rfl, fun fuel => ?_⟩
  simp only [secondPassLoop, hread, LogEntry.decoded, happly]
  by_cases hes : es = []
  · rw [if_pos hes]
    exact if_pos (hnext.finished_iff.2 hes)
  · rw [if_neg hes]
    exact if_neg fun hf => hes (hnext.finished_iff.1 hf)

end

theorem flatMap_batchEntries_eq_nil : batches.flatMap (batchEntries codec) = [] ↔ ∀ b ∈ batches, b = [] := by
  rw [flatMap_eq_nil_iff]
  refine forall₂_congr fun b _ => ?_
  by_cases hb : b = []
  · simp [batchEntries, hb]
  · simp [batchEntries, hb]

theorem batchCalls_eq_nil (h : batches.flatMap (batchEntries codec) = []) (lsn : Nat) :
    batches.flatMap (batchCalls lsn) = [] := by
  rw [flatMap_batchEntries_eq_nil] at h
  rw [flatMap_eq_nil_iff]
  intro b hb
  exact if_pos (h b hb)

/-- The second pass over a whole log hands over its batches in order. -/
theorem secondPassLoop_batches (hn : NeverFails handler) (batches : List (List (AppendedRecord codec)))
    {r : WalReader} (h : WalReader.Complete r (batches.flatMap (batchEntries codec)))
    (hfuel : (batches.flatMap (batchEntries codec)).length < fuel) {p : Pass R} (hp : p.pending = [])
    (s : RecoveryState R) :
    ∃ result, w.secondPassLoop codec handler fuel r p s =
        .ok result { s with calls := s.calls ++ batches.flatMap (batchCalls w.replayFromLsn) } ∧
      result.allSucceeded = true := by
  induction batches generalizing r fuel p s with
  | nil =>
    obtain ⟨fuel, rfl⟩ := Nat.exists_eq_succ_of_ne_zero (Nat.ne_of_gt (Nat.zero_lt_of_lt hfuel))
    refine ⟨.success p.entriesReplayed p.lastSuccessfulOffset, ?_, rfl⟩
    simp [secondPassLoop, h.standsAt.readEntry_end (.inl rfl), hp, pure, EStateM.pure]
  | cons batch batches ih =>
    rw [flatMap_cons] at h hfuel ⊢
    by_cases hne : batch = []
    · rw [batchEntries, if_pos hne, nil_append] at h hfuel
      rw [batchCalls, if_pos hne, nil_append]
      exact ih h hfuel hp s
    rw [batchEntries, if_neg hne, append_assoc] at h
    rw [batchEntries, if_neg hne, length_append, length_append, length_map, length_singleton] at hfuel
    obtain ⟨r1, h1, hrecords⟩ := secondPassLoop_records w handler batch h p
    obtain ⟨out, happly⟩ := applyPending_records (w := w) hn hne p.nextLsn s
    rw [← nil_append (map _ batch), ← hp] at happly
    obtain ⟨r2, h2, p', hp', hflush⟩ := secondPassLoop_flush w handler h1
      (p := { p with pending := p.pending ++ batch.map fun a => (LogEntry.record a).decoded }) happly
    obtain ⟨k, rfl⟩ : ∃ k, fuel = k + 1 + batch.length := ⟨fuel - 1 - batch.length, by omega⟩
    rw [hrecords, hflush]
    by_cases hdone : batches.flatMap (batchEntries codec) = []
    · refine ⟨.success p'.entriesReplayed p'.lastSuccessfulOffset, ?_, rfl⟩
      rw [batchCalls_eq_nil hdone, append_nil]
      exact if_pos hdone
    have hk : (batches.flatMap (batchEntries codec)).length < k := by omega
    obtain ⟨result, hresult, hok⟩ := ih h2 hk hp'
      { s with calls := s.calls ++ batchCalls w.replayFromLsn batch }
    refine ⟨result, ?_, hok⟩
    rw [append_assoc] at hresult
    exact (if_neg hdone).trans hresult

/-! ## The segment after the repair -/

theorem truncateWalFile_eq (file : Bytes) (offset : Nat) : truncateWalFile file offset = file.take offset := by
  unfold truncateWalFile
  simp only [Nat.min_self]
  split
  · rw [take_of_length_le]
    omega
  · rw [Nat.min_eq_left]
    omega

/-- The file that is replayed. With no flush in it, a file with a torn or unflushed tail loses its header
too. -/
theorem repaired_file {es : List (LogEntry codec)} {c : Nat}
    {t : WalReader.TruncationScanResult} (h : WalReader.ScanOk walHeaderSize es c {} false t) :
    (if t.needsTruncation && true then
        truncateWalFile (m.headerBytes ++ (logBytes codec es).take c) t.recommendedTruncationPoint
      else m.headerBytes ++ (logBytes codec es).take c) =
    if flushed (readable es c) = [] ∧ c ≠ 0 ∧ es ≠ [] then []
    else m.headerBytes ++ logBytes codec (flushed (readable es c)) := by
  rw [Bool.and_true]
  by_cases hneed : t.needsTruncation = true
  · rw [if_pos hneed, truncateWalFile_eq, WalReader.TruncationScanResult.recommendedTruncationPoint,
      if_pos hneed, h.lastFlush]
    by_cases hnil : flushed (readable es c) = []
    · have hcut : c ≠ 0 ∧ es ≠ [] := by
        refine ⟨fun hc => ?_, fun hes => ?_⟩
        · have hclean : clean es c = true := by
            rw [hc]
            cases es <;> rfl
          rw [h.tail.2 ⟨hclean, by rw [hc, readable_zero]; rfl, fun _ => rfl⟩] at hneed
          cases hneed
        · rw [h.tail.2 (by rw [hes]; exact ⟨rfl, rfl, fun _ => rfl⟩)] at hneed
          cases hneed
      rw [if_pos hnil, if_pos ⟨hnil, hcut⟩]
      rfl
    · rw [if_neg hnil, if_neg (fun h => hnil h.1), take_append, length_headerBytes,
        Nat.add_sub_cancel_left, take_flushed, take_of_length_le]
      rw [length_headerBytes]
      exact Nat.le_add_right _ _
  · rw [if_neg hneed]
    obtain ⟨hclean, hflushed, -⟩ := h.tail.1 (Bool.eq_false_iff.2 hneed)
    have htake := take_of_clean hclean
    rw [hflushed, htake, if_neg]
    intro hcut
    obtain ⟨hnil, hc, hes⟩ := hcut
    rw [hnil] at htake
    rcases take_eq_nil_iff.1 htake with hc' | hes'
    · exact hc hc'
    · exact logBytes_ne_nil hes hes'

/-! ## Recovery with a fresh catalog -/

theorem ofExcept_ok (a : α) : (ofExcept (.ok a : Except WalError α) : Recover R α) s = .ok a s := rfl

theorem ofExcept_error (e : WalError) : (ofExcept (.error e : Except WalError α) : Recover R α) s = .error e s := rfl

def freshEntry (w : WalRecovery) (startLsn : Nat) : ReplayCursorEntry :=
  ⟨1, max startLsn 1, max (max w.replayFromLsn w.logicalStartLsn) (max startLsn 1)⟩

def forFreshSegment (w : WalRecovery) (startLsn : Nat) : WalRecovery :=
  w.withReplayLsnBounds (w.freshEntry startLsn).startingLsn (w.freshEntry startLsn).replayFromLsn

section
variable {startLsn : Nat}

/-- With a fresh catalog the segment is replayed and the log reopened. -/
theorem recover_fresh (hs : s.catalog = some (.new startLsn)) : w.recover codec handler s = (do
        let result ← w.replaySegments codec handler [w.freshEntry startLsn] (.success 0 0)
        let wal ← w.createWal
          (if result.allSucceeded then .uninitialized else .uninitializedRequiresTruncate)
        pure (wal, result) : Recover R (WriteAheadLog × ReplayResult)) s := by
  obtain ⟨hvalid, hcursor⟩ :=
    SegmentCatalog.replayCursor_new startLsn (max w.replayFromLsn w.logicalStartLsn)
  simp [recover, bind, EStateM.bind, get, getThe, MonadStateOf.get, EStateM.get, hs, hvalid, hcursor,
    ofExcept_ok, freshEntry]

/-- Reopening reads the header of the segment. -/
theorem createWal_fresh (hs : s.catalog = some (.new startLsn)) (initState : WalInitState) : w.createWal initState s =
      (do
        let metadata ← ofExcept (loadActiveHeaderMetadata s (.new startLsn))
        pure ⟨metadata.getD (w.expectedWalHeaderMetadata.getD {}), initState⟩ : Recover R WriteAheadLog) s := by
  obtain ⟨hvalid, -⟩ := SegmentCatalog.replayCursor_new startLsn 0
  have hsame : { s with catalog := some (.new startLsn) } = s := by rw [← hs]
  simp [createWal, bind, EStateM.bind, get, getThe, MonadStateOf.get, EStateM.get, modify, modifyGet,
    MonadStateOf.modifyGet, EStateM.modifyGet, hs, hvalid, ofExcept_ok, hsame]

theorem replaySegments_fresh (h : (w.forFreshSegment startLsn).replayOnly codec handler 1 s = .ok result s')
    (hok : result.allSucceeded = true) :
    w.replaySegments codec handler [w.freshEntry startLsn] (.success 0 0) s =
      .ok (.success (0 + result.entriesReplayed) result.lastSuccessfulOffset) s' := by
  rw [replaySegments]
  change ((w.forFreshSegment startLsn).replayOnly codec handler 1 >>= _) s = _
  rw [bind_ok h]
  simp only [hok, if_true, replaySegments]
  rfl

section
variable (hs : s.catalog = some (.new startLsn))
include hs

section
variable (hreplay : (w.forFreshSegment startLsn).replayOnly codec handler 1 s = .ok result s')
include hreplay

theorem recover_ok
    (hok : result.allSucceeded = true) (hs' : s'.catalog = some (.new startLsn)) {m : Option WalHeaderMetadata}
    (hm : loadActiveHeaderMetadata s' (.new startLsn) = .ok m) : ∃ out, w.recover codec handler s = .ok out s' := by
  have hwal : ∀ i, w.createWal i s' = .ok ⟨m.getD (w.expectedWalHeaderMetadata.getD {}), i⟩ s' := by
    intro i
    rw [createWal_fresh hs', bind_ok (by rw [hm]; exact ofExcept_ok m)]
    rfl
  exact ⟨_, by rw [recover_fresh hs, bind_ok (replaySegments_fresh hreplay hok), bind_ok (hwal _)]; rfl⟩

theorem recover_reopen_error (hok : result.allSucceeded = true) (hs' : s'.catalog = some (.new startLsn))
    (he : loadActiveHeaderMetadata s' (.new startLsn) = .error e) : w.recover codec handler s = .error e s' := by
  rw [recover_fresh hs, bind_ok (replaySegments_fresh hreplay hok), bind_error]
  rw [createWal_fresh hs', bind_error (by rw [he]; exact ofExcept_error e)]

end

theorem recover_replay_error (hreplay : (w.forFreshSegment startLsn).replayOnly codec handler 1 s = .error e s') :
    w.recover codec handler s = .error e s' := by
  rw [recover_fresh hs, bind_error]
  rw [replaySegments]
  change ((w.forFreshSegment startLsn).replayOnly codec handler 1 >>= _) s = _
  rw [bind_error hreplay]

end

end

/-! ## One segment on disk -/

/-- A journal with a fresh catalog, the given segment file, and the calls made so far. -/
def onDisk (startLsn : Nat) (file : Option Bytes) (calls : List (ReplayCall R)) : RecoveryState R where
  catalog := some (.new startLsn)
  segments := update (fun _ => none) 1 file
  calls

variable {startLsn : Nat} {file : Bytes} {calls : List (ReplayCall R)}

theorem loadActive_onDisk (startLsn : Nat) (file : Bytes) (calls : List (ReplayCall R)) :
    loadActiveHeaderMetadata (onDisk startLsn (some file) calls) (.new startLsn) =
      (readHeader { file }).map fun reader => some reader.headerMetadata := by
  have hactive : (SegmentCatalog.new startLsn).activeSegment =
      some { segmentId := 1, startLsn := max startLsn 1 } := rfl
  simp [loadActiveHeaderMetadata, hactive, onDisk]

/-- A missing file is a log nothing was written to. -/
theorem recover_missing (w : WalRecovery) (codec : JournalCodec R) (handler : ReplayHandler R)
    (startLsn : Nat) (calls : List (ReplayCall R)) :
    ∃ out, w.recover codec handler (onDisk startLsn none calls) = .ok out (onDisk startLsn none calls) := by
  have hreplay : (w.forFreshSegment startLsn).replayOnly codec handler 1 (onDisk startLsn none calls) =
      .ok (.success 0 0) (onDisk startLsn none calls) := by
    simp only [replayOnly, onDisk, bind, EStateM.bind, get, getThe, MonadStateOf.get, EStateM.get, update_self]
    rfl
  exact recover_ok rfl hreplay rfl rfl (m := none) rfl

/-- A segment without a header cannot be replayed. -/
theorem recover_no_header {e : WalError} (h : readHeader { file } = .error e) :
    w.recover codec handler (onDisk startLsn (some file) calls) = .error e (onDisk startLsn (some file) calls) := by
  refine recover_replay_error rfl ?_
  simp only [replayOnly, onDisk, bind, EStateM.bind, get, getThe, MonadStateOf.get, EStateM.get,
    update_self, h, ofExcept_error]

theorem secondPass_batches (hn : NeverFails handler) (m : WalHeaderMetadata)
    (batches : List (List (AppendedRecord codec)))
    (hfits : ∀ e ∈ batches.flatMap (batchEntries codec), e.data.length ≤ maxEntrySize) (s : RecoveryState R) :
    ∃ result, w.secondPass codec handler
        { file := m.headerBytes ++ logBytes codec (batches.flatMap (batchEntries codec)) } s =
        .ok result { s with calls := s.calls ++ batches.flatMap (batchCalls w.replayFromLsn) } ∧
      result.allSucceeded = true := by
  have hcomplete := complete_behindHeader m hfits
  have hfuel : (batches.flatMap (batchEntries codec)).length <
      (m.headerBytes ++ logBytes codec (batches.flatMap (batchEntries codec))).length + 1 := by
    have hle := length_le_logBytes (batches.flatMap (batchEntries codec))
    rw [length_append]
    omega
  obtain ⟨result, hresult, hok⟩ := secondPassLoop_batches (w := w) hn batches hcomplete hfuel
    (p := { nextLsn := w.logicalStartLsn }) rfl s
  refine ⟨result, ?_, hok⟩
  rw [← hresult, secondPass]
  simp only [secondPassLoop, readEntry_fresh rfl]

/-- What replaying the segment comes to, for a log that was cut in or behind its header. -/
theorem replayOnly_cut (handler : ReplayHandler R) (startLsn : Nat) (calls : List (ReplayCall R))
    (es : List (LogEntry codec)) (c : Nat)
    (hauto : w.autoTruncateTornWrites = true) (hid : w.validateWalHeaderMetadata m = .ok ()) :
    w.replayOnly codec handler 1 (onDisk startLsn (some (m.headerBytes ++ (logBytes codec es).take c)) calls) =
      if flushed (readable es c) = [] ∧ c ≠ 0 ∧ es ≠ [] then
        .ok (.success 0 0) (onDisk startLsn (some []) calls)
      else
        w.secondPass codec handler
          { file := m.headerBytes ++ logBytes codec (flushed (readable es c)) }
          (onDisk startLsn (some (m.headerBytes ++ logBytes codec (flushed (readable es c)))) calls) := by
  obtain ⟨t, hscan, hok⟩ := scanForTruncationPoint_ok m es c
  have hrepaired := repaired_file (m := m) hok
  have hvalid : w.validateReplayableWal (behindHeader (m.headerBytes ++ (logBytes codec es).take c) m) = .ok () := hid
  simp only [replayOnly, onDisk, bind, EStateM.bind, get, getThe, MonadStateOf.get, EStateM.get,
    update_self, readHeader_whole rfl, ofExcept_ok, hvalid, recoverFromWal, hscan, modify,
    modifyGet, MonadStateOf.modifyGet, EStateM.modifyGet, update_idem, hauto, hrepaired]
  by_cases hcut : flushed (readable es c) = [] ∧ c ≠ 0 ∧ es ≠ []
  · simp only [if_pos hcut]
    rfl
  · simp only [if_neg hcut]
    rw [if_neg]
    rw [length_append, length_headerBytes, walHeaderSize]
    omega

section
variable {m : WalHeaderMetadata} {es : List (LogEntry codec)} {c : Nat}

/-- Recovery of a cut log, when the cut left a flush, nothing behind the header, or nothing was cut:
the segment ends at the last flush and the batches up to it are handed over. -/
theorem recover_cut (hn : NeverFails handler) (hauto : w.autoTruncateTornWrites = true)
    (hid : w.validateWalHeaderMetadata m = .ok ()) {batches : List (List (AppendedRecord codec))}
    (hread : flushed (readable es c) = batches.flatMap (batchEntries codec))
    (hfits : ∀ e ∈ batches.flatMap (batchEntries codec), e.data.length ≤ maxEntrySize)
    (hcut : ¬ (flushed (readable es c) = [] ∧ c ≠ 0 ∧ es ≠ [])) :
    ∃ out, w.recover codec handler (onDisk startLsn (some (m.headerBytes ++ (logBytes codec es).take c)) calls) =
      .ok out (onDisk startLsn (some (m.headerBytes ++ logBytes codec (batches.flatMap (batchEntries codec))))
        (calls ++ batches.flatMap (batchCalls (w.forFreshSegment startLsn).replayFromLsn))) := by
  have hreplay := replayOnly_cut (w := w.forFreshSegment startLsn) handler startLsn calls es c hauto hid
  rw [if_neg hcut, hread] at hreplay
  obtain ⟨result, hpass, hok⟩ := secondPass_batches (w := w.forFreshSegment startLsn) hn m batches hfits
    (onDisk startLsn (some (m.headerBytes ++ logBytes codec (batches.flatMap (batchEntries codec)))) calls)
  refine recover_ok rfl (hreplay.trans hpass) hok rfl (m := some m) ?_
  refine (loadActive_onDisk startLsn _ _).trans ?_
  rw [readHeader_whole rfl]
  rfl

/-- Otherwise the segment is emptied, and reopening the log fails on it. -/
theorem recover_cut_fails (hauto : w.autoTruncateTornWrites = true) (hid : w.validateWalHeaderMetadata m = .ok ())
    (hcut : flushed (readable es c) = [] ∧ c ≠ 0 ∧ es ≠ []) :
    w.recover codec handler (onDisk startLsn (some (m.headerBytes ++ (logBytes codec es).take c)) calls) =
      .error .emptyWalFile (onDisk startLsn (some []) calls) := by
  have hreplay := replayOnly_cut (w := w.forFreshSegment startLsn) handler startLsn calls es c hauto hid
  rw [if_pos hcut] at hreplay
  have hopen := loadActive_onDisk startLsn [] calls
  exact recover_reopen_error rfl hreplay rfl rfl hopen

end

end WalRecovery
end Paro.L2
