import Paro.L2Machine.WalRecovery

/-!
# Crash recovery of the active segment

A fresh segment is filled by `append_batch`, a crash cuts its file after any number of bytes, and
`WalRecovery::recover` runs with auto-truncation and a handler that never fails. What is expected of it:
it succeeds, hands over the records of the batches whose flush lies before the cut, and leaves a segment
on which recovery gives the same again (`Recovers`).

* `recovers_iff`: this holds exactly for the cuts that are `Recoverable`.
* `cut_in_first_batch`: a cut in the first batch is not.

Two things go wrong. A cut in the header, or behind it and before the first flush, leaves a segment
without a readable header: in the second case the scan has seen no flush, so the tail is truncated to
offset 0, and opening the log for further use then fails on the empty file, in this run and in every
later one. And the writer takes frames of almost 4 GiB, while the reader takes an entry over 1 GiB for a
torn write and drops it with everything behind it.
-/
namespace Paro.L3.CrashRecovery
open L1 L2 List WalRecovery WalReader

variable {R : Type} {codec : JournalCodec R}

/-! ## Batches before a cut -/

def batchLength (b : List (AppendedRecord codec)) : Nat := (logBytes codec (batchEntries codec b)).length

def Fits (b : List (AppendedRecord codec)) : Prop :=
  ∀ a ∈ b, (LogEntry.record a).data.length ≤ maxEntrySize

instance (b : List (AppendedRecord codec)) : Decidable (Fits b) := inferInstanceAs (Decidable (∀ _ ∈ _, _))

/-- The batches whose flush lies before the cut, `c` bytes behind the header. -/
def kept : List (List (AppendedRecord codec)) → Nat → List (List (AppendedRecord codec))
  | [], _ => []
  | b :: bs, c => if batchLength b ≤ c then b :: kept bs (c - batchLength b) else []

def readBatches : List (List (AppendedRecord codec)) → Nat → List (List (AppendedRecord codec))
  | [], _ => []
  | b :: bs, c =>
    if batchLength b ≤ c ∧ Fits b then b :: readBatches bs (c - batchLength b) else []

section
variable (bs : List (List (AppendedRecord codec))) (c : Nat)
include bs c

theorem readBatches_isPrefix : readBatches bs c <+: kept bs c := by
  induction bs generalizing c with
  | nil => exact nil_prefix
  | cons b bs ih =>
    rw [readBatches, kept]
    by_cases h : batchLength b ≤ c ∧ Fits b
    · rw [if_pos h, if_pos h.1]
      exact cons_prefix_cons.2 ⟨rfl, ih _⟩
    · rw [if_neg h]
      exact nil_prefix

theorem kept_isPrefix : kept bs c <+: bs := by
  induction bs generalizing c with
  | nil => exact nil_prefix
  | cons b bs ih =>
    rw [kept]
    split
    · exact cons_prefix_cons.2 ⟨rfl, ih _⟩
    · exact nil_prefix

theorem fits_of_mem_readBatches : ∀ b ∈ readBatches bs c, Fits b := by
  induction bs generalizing c with
  | nil => intro b hb; cases hb
  | cons b0 bs ih =>
    intro b hb
    rw [readBatches] at hb
    split at hb
    · rename_i h
      rcases mem_cons.1 hb with rfl | hb
      · exact h.2
      · exact ih _ b hb
    · cases hb

end

section
variable {bs : List (List (AppendedRecord codec))} (hfits : ∀ b ∈ bs, Fits b)
include hfits

/-- A log of batches that fit and was not cut is read as a whole. -/
theorem readBatches_whole : readBatches bs (logBytes codec (bs.flatMap (batchEntries codec))).length = bs := by
  induction bs with
  | nil => rfl
  | cons b bs ih =>
    have hlen : (logBytes codec ((b :: bs).flatMap (batchEntries codec))).length =
        batchLength b + (logBytes codec (bs.flatMap (batchEntries codec))).length := by
      rw [flatMap_cons, logBytes_append, length_append, batchLength]
    rw [readBatches, hlen, if_pos ⟨Nat.le_add_right _ _, hfits b mem_cons_self⟩,
      Nat.add_sub_cancel_left, ih fun b' hb' => hfits b' (mem_cons_of_mem _ hb')]

theorem entries_fit : ∀ e ∈ bs.flatMap (batchEntries codec), e.data.length ≤ maxEntrySize := by
  intro e he
  obtain ⟨b, hb, he⟩ := mem_flatMap.1 he
  unfold batchEntries at he
  split at he
  · cases he
  · rcases mem_append.1 he with he | he
    · obtain ⟨a, ha, rfl⟩ := mem_map.1 he
      exact hfits b hb a ha
    · rw [mem_singleton.1 he]
      exact (by decide : 1 ≤ 1024 * 1024 * 1024)

end

/-! ## What the reader sees of a batch -/

theorem flushed_readable_batch (b : List (AppendedRecord codec)) (es : List (LogEntry codec)) (c : Nat) :
    flushed (readable (b.map .record ++ .flush :: es) c) =
      if (logBytes codec (b.map .record ++ [.flush])).length ≤ c ∧ Fits b then
        b.map .record ++ .flush :: flushed (readable es (c - (logBytes codec (b.map .record ++ [.flush])).length))
      else [] := by
  induction b generalizing c with
  | nil =>
    have hlen : (logBytes codec [.flush]).length = (.flush : LogEntry codec).bytes.length := rfl
    have hfits : Fits ([] : List (AppendedRecord codec)) := fun a ha => by cases ha
    simp only [map_nil, nil_append, readable, hlen, hfits, and_true]
    by_cases hw : (.flush : LogEntry codec).bytes.length ≤ c
    · rw [if_pos hw, if_pos ⟨hw, (by decide : 1 ≤ 1024 * 1024 * 1024)⟩]
      rfl
    · rw [if_neg hw, if_neg fun h => hw h.1]
      rfl
  | cons a b ih =>
    have hlen : (logBytes codec ((a :: b).map .record ++ [.flush])).length =
        (LogEntry.record a).bytes.length + (logBytes codec (b.map .record ++ [.flush])).length :=
      length_logBytes_cons _ _
    have hfits : Fits (a :: b) ↔ (LogEntry.record a).data.length ≤ maxEntrySize ∧ Fits b := forall_mem_cons
    rw [hlen, map_cons, cons_append, readable]
    by_cases hw : WalReader.Whole codec (.record a) c
    · have hle := hw.1
      rw [if_pos hw, flushed_record, ih, ← Nat.sub_sub]
      by_cases hrest : (logBytes codec (b.map .record ++ [.flush])).length ≤
          c - (LogEntry.record a).bytes.length ∧ Fits b
      · rw [if_pos hrest, if_neg (by simp), if_pos ⟨by omega, hfits.2 ⟨hw.2, hrest.2⟩⟩]
        rfl
      · rw [if_neg hrest, if_pos rfl, if_neg]
        intro h
        exact hrest ⟨by omega, (hfits.1 h.2).2⟩
    · rw [if_neg hw, if_neg fun h => hw ⟨by omega, (hfits.1 h.2).1⟩]
      rfl

/-- Up to the last flush, the reader sees the read batches. -/
theorem flushed_readable (bs : List (List (AppendedRecord codec))) (c : Nat) :
    flushed (readable (bs.flatMap (batchEntries codec)) c) = (readBatches bs c).flatMap (batchEntries codec) := by
  induction bs generalizing c with
  | nil => rfl
  | cons b bs ih =>
    rw [flatMap_cons, readBatches]
    by_cases hne : b = []
    · have hread : batchLength b ≤ c ∧ Fits b := by
        rw [hne]
        exact ⟨Nat.zero_le _, fun a ha => by cases ha⟩
      have hzero : batchLength b = 0 := by rw [hne]; rfl
      rw [if_pos hread, hzero, Nat.sub_zero, flatMap_cons, batchEntries, if_pos hne, nil_append, nil_append, ih]
    · have hentries : batchEntries codec b = b.map .record ++ [.flush] := if_neg hne
      rw [batchLength, hentries, append_assoc, singleton_append, flushed_readable_batch]
      split
      · rw [flatMap_cons, hentries, ih, append_assoc, singleton_append]
      · rfl

/-! ## The segment -/

/-- A fresh segment of the catalog and the batches appended to it. Its LSNs start at its start LSN. -/
structure Segment (codec : JournalCodec R) where
  startLsn : Nat
  metadata : WalHeaderMetadata
  batches : List (List (AppendedRecord codec))
  le_lsn : ∀ b ∈ batches, ∀ a ∈ b, max startLsn 1 ≤ a.lsn

namespace Segment
variable (seg : Segment codec)

def entries : List (LogEntry codec) := seg.batches.flatMap (batchEntries codec)

def file : Option Bytes := seg.batches.foldl (appendBatch codec seg.metadata) none

/-- What is on disk after a crash that leaves the first `cut` bytes. -/
def crashed (cut : Nat) : RecoveryState R := onDisk seg.startLsn (seg.file.map (·.take cut)) []

end Segment

theorem foldl_appendBatch_some (m : WalHeaderMetadata) (bs : List (List (AppendedRecord codec))) (f : Bytes) :
    bs.foldl (appendBatch codec m) (some f) = some (f ++ logBytes codec (bs.flatMap (batchEntries codec))) := by
  induction bs generalizing f with
  | nil => simp [logBytes]
  | cons b bs ih =>
    rw [foldl_cons, flatMap_cons, logBytes_append, appendBatch]
    by_cases hb : b = []
    · rw [if_pos hb, ih, batchEntries, if_pos hb]
      rfl
    · rw [if_neg hb, Option.getD_some, ih, append_assoc]

open Segment

/-- Nothing is written for empty batches; otherwise the file is the header and the log. -/
theorem Segment.file_eq (seg : Segment codec) :
    seg.file = if seg.entries = [] then none else some (seg.metadata.headerBytes ++ logBytes codec seg.entries) := by
  unfold file entries
  generalize seg.batches = bs
  induction bs with
  | nil => rfl
  | cons b bs ih =>
    rw [foldl_cons, flatMap_cons, appendBatch]
    by_cases hb : b = []
    · rw [if_pos hb, ih, batchEntries, if_pos hb, nil_append]
    · have hentries : batchEntries codec b = b.map .record ++ [.flush] := if_neg hb
      rw [if_neg hb, Option.getD_none, foldl_appendBatch_some, if_neg, logBytes_append, append_assoc]
      rw [hentries]
      simp

/-! ## Recovery -/

def handed (calls : List (ReplayCall R)) : List (ReplayCall R) := calls.filter fun call => !call.isFlush

/-- What a crash at `cut` must leave: the records of the kept batches from the replay bound on. -/
def Segment.expected (seg : Segment codec) (cut replayFromLsn : Nat) : List (ReplayCall R) :=
  (kept seg.batches (cut - walHeaderSize)).flatMap (delivered replayFromLsn)

/-- Recovery succeeds and hands over what is expected, and so does a second recovery. -/
def Recovers (w : WalRecovery) (handler : ReplayHandler R) (seg : Segment codec) (cut : Nat) : Prop :=
  ∃ out s, w.recover codec handler (seg.crashed cut) = .ok out s ∧ handed s.calls = seg.expected cut w.replayFromLsn ∧
    ∃ out' s', w.recover codec handler { s with calls := [] } = .ok out' s' ∧
      handed s'.calls = seg.expected cut w.replayFromLsn

/-- Nothing was written; or the header is whole, behind it there is nothing or a first batch that is whole
and fits the reader, and the kept batches from the first one on that does not fit have no record to
replay. -/
def Recoverable (seg : Segment codec) (cut replayFromLsn : Nat) : Prop :=
  (∀ b ∈ seg.batches, b = []) ∨
  walHeaderSize ≤ cut ∧ (cut = walHeaderSize ∨ ∃ b ∈ readBatches seg.batches (cut - walHeaderSize), b ≠ []) ∧
    ∀ b ∈ (kept seg.batches (cut - walHeaderSize)).drop
      (readBatches seg.batches (cut - walHeaderSize)).length, ∀ a ∈ b, a.lsn < replayFromLsn

variable {w : WalRecovery} {handler : ReplayHandler R} {startLsn : Nat} {m : WalHeaderMetadata}
  {bs : List (List (AppendedRecord codec))}

theorem handed_batchCalls (bs : List (List (AppendedRecord codec))) (lsn : Nat) :
    handed (bs.flatMap (batchCalls lsn)) = bs.flatMap (delivered lsn) := by
  induction bs with
  | nil => rfl
  | cons b bs ih =>
    have hdelivered : handed (delivered lsn b) = delivered lsn b := by
      unfold handed delivered
      rw [filter_eq_self]
      intro call hcall
      obtain ⟨a, -, rfl⟩ := mem_map.1 hcall
      rfl
    have hb : handed (batchCalls lsn b) = delivered lsn b := by
      by_cases hne : b = []
      · rw [hne]; rfl
      · rw [batchCalls, if_neg hne, handed, filter_append]
        change handed (delivered lsn b) ++ [] = _
        rw [hdelivered, append_nil]
    rw [flatMap_cons, flatMap_cons, handed, filter_append]
    change handed _ ++ handed _ = _
    rw [hb, ih]

/-- The start LSN of the segment does not raise the bound above its records. -/
theorem delivered_fresh {b : List (AppendedRecord codec)} (hlsn : ∀ a ∈ b, max startLsn 1 ≤ a.lsn) :
    delivered (w.forFreshSegment startLsn).replayFromLsn b = delivered w.replayFromLsn b := by
  have hbound : (w.forFreshSegment startLsn).replayFromLsn =
      max (max (max w.replayFromLsn w.logicalStartLsn) (max startLsn 1)) (max (max startLsn 1) 1) := rfl
  have hle := w.logicalStartLsn_le
  unfold delivered
  congr 1
  refine filter_congr fun a ha => ?_
  have hlow := hlsn a ha
  rw [hbound, decide_eq_decide]
  omega

variable {c cut : Nat} {seg : Segment codec}

/-- One recovery of a log cut behind its header, where the cut left a flush, nothing behind the header, or
everything. -/
theorem recover_log (startLsn : Nat) (bs : List (List (AppendedRecord codec))) (hn : WalRecovery.NeverFails handler)
    (hauto : w.autoTruncateTornWrites = true) (hid : w.validateWalHeaderMetadata m = .ok ())
    (hcut : c = 0 ∨ (∀ b ∈ bs, b = []) ∨ ∃ b ∈ readBatches bs c, b ≠ []) :
    ∃ out, w.recover codec handler (onDisk startLsn
        (some (m.headerBytes ++ (logBytes codec (bs.flatMap (batchEntries codec))).take c)) []) =
      .ok out (onDisk startLsn
        (some (m.headerBytes ++ logBytes codec ((readBatches bs c).flatMap (batchEntries codec))))
        ((readBatches bs c).flatMap (batchCalls (w.forFreshSegment startLsn).replayFromLsn))) := by
  refine recover_cut hn hauto hid (flushed_readable bs c) (entries_fit (fits_of_mem_readBatches bs c)) fun h => ?_
  obtain ⟨hnil, hc, hes⟩ := h
  rw [flushed_readable, flatMap_batchEntries_eq_nil] at hnil
  rcases hcut with hc' | hall | ⟨b, hb, hne⟩
  · exact hc hc'
  · exact hes (flatMap_batchEntries_eq_nil.2 hall)
  · exact hne (hnil b hb)

/-- Both recoveries of such a log hand over the batches that are read. -/
theorem recover_log_twice (hn : WalRecovery.NeverFails handler) (hauto : w.autoTruncateTornWrites = true)
    (hid : w.validateWalHeaderMetadata m = .ok ()) (hlsn : ∀ b ∈ bs, ∀ a ∈ b, max startLsn 1 ≤ a.lsn)
    (hcut : c = 0 ∨ ∃ b ∈ readBatches bs c, b ≠ []) :
    ∃ out s, w.recover codec handler (onDisk startLsn
        (some (m.headerBytes ++ (logBytes codec (bs.flatMap (batchEntries codec))).take c)) []) =
        .ok out s ∧
      handed s.calls = (readBatches bs c).flatMap (delivered w.replayFromLsn) ∧
      ∃ out' s', w.recover codec handler { s with calls := [] } = .ok out' s' ∧
        handed s'.calls = (readBatches bs c).flatMap (delivered w.replayFromLsn) := by
  have hcalls : handed ((readBatches bs c).flatMap (batchCalls (w.forFreshSegment startLsn).replayFromLsn)) =
      (readBatches bs c).flatMap (delivered w.replayFromLsn) := by
    rw [handed_batchCalls]
    refine flatMap_congr fun b hb => delivered_fresh (hlsn b ?_)
    exact ((readBatches_isPrefix bs c).trans (kept_isPrefix bs c)).subset hb
  have hsame := readBatches_whole (fits_of_mem_readBatches bs c)
  obtain ⟨out, hfirst⟩ := recover_log startLsn bs hn hauto hid (hcut.elim .inl fun h => .inr (.inr h))
  obtain ⟨out', hsecond⟩ := recover_log startLsn (readBatches bs c)
    (c := (logBytes codec ((readBatches bs c).flatMap (batchEntries codec))).length) hn hauto hid
    (by
      rw [hsame]
      by_cases hall : ∀ b ∈ readBatches bs c, b = []
      · exact .inr (.inl hall)
      · simp only [not_forall] at hall
        obtain ⟨b, hb, hne⟩ := hall
        exact .inr (.inr ⟨b, hb, hne⟩))
  rw [take_length, hsame] at hsecond
  exact ⟨out, _, hfirst, hcalls, out', _, hsecond, hcalls⟩

theorem Segment.crashed_eq (seg : Segment codec) (hbs : ¬ ∀ b ∈ seg.batches, b = []) (cut : Nat) :
    seg.crashed cut = onDisk seg.startLsn
      (some ((seg.metadata.headerBytes ++ logBytes codec seg.entries).take cut)) [] := by
  have hentries : seg.entries ≠ [] := fun h => hbs (flatMap_batchEntries_eq_nil.1 h)
  rw [crashed, seg.file_eq, if_neg hentries]
  rfl

/-- The same for a cut `c` bytes behind the header. -/
theorem Segment.crashed_behind (seg : Segment codec) (hbs : ¬ ∀ b ∈ seg.batches, b = []) (c : Nat) :
    seg.crashed (walHeaderSize + c) = onDisk seg.startLsn
      (some (seg.metadata.headerBytes ++ (logBytes codec seg.entries).take c)) [] := by
  rw [seg.crashed_eq hbs, ← length_headerBytes seg.metadata, take_length_add_append]

/-- A cut in the header leaves no segment that can be replayed. -/
theorem recover_cut_header (hbs : ¬ ∀ b ∈ seg.batches, b = [])
    (hcut : cut < walHeaderSize) : ∃ e s, w.recover codec handler (seg.crashed cut) = .error e s := by
  obtain ⟨e, he⟩ := readHeader_cut (m := seg.metadata) hcut
  have htake : (seg.metadata.headerBytes ++ logBytes codec seg.entries).take cut =
      seg.metadata.headerBytes.take cut := by
    rw [take_append_of_le_length]
    rw [length_headerBytes]
    exact le_of_lt hcut
  rw [seg.crashed_eq hbs, htake]
  exact ⟨e, _, recover_no_header he⟩

/-- A cut behind the header that leaves no batch to read. -/
theorem recover_cut_unflushed (hbs : ¬ ∀ b ∈ seg.batches, b = []) (hauto : w.autoTruncateTornWrites = true)
    (hid : w.validateWalHeaderMetadata seg.metadata = .ok ()) (hc : c ≠ 0)
    (hread : ∀ b ∈ readBatches seg.batches c, b = []) :
    ∃ e s, w.recover codec handler (seg.crashed (walHeaderSize + c)) = .error e s := by
  rw [seg.crashed_behind hbs]
  refine ⟨_, _, recover_cut_fails hauto hid ⟨?_, hc, ?_⟩⟩
  · rw [entries, flushed_readable]
    exact flatMap_batchEntries_eq_nil.2 hread
  · exact fun h => hbs (flatMap_batchEntries_eq_nil.1 h)

/-- The kept batches that are not read add nothing exactly if their records are below the bound. -/
theorem delivered_drop {lsn : Nat} : bs.flatMap (delivered lsn) = [] ↔ ∀ b ∈ bs, ∀ a ∈ b, a.lsn < lsn := by
  rw [flatMap_eq_nil_iff]
  refine forall₂_congr fun b _ => ?_
  rw [delivered, map_eq_nil_iff, filter_eq_nil_iff]
  refine forall₂_congr fun a _ => ?_
  rw [decide_eq_true_eq, not_le]

theorem expected_eq (seg : Segment codec) (cut lsn : Nat) :
    seg.expected cut lsn = (readBatches seg.batches (cut - walHeaderSize)).flatMap (delivered lsn) ↔
      ∀ b ∈ (kept seg.batches (cut - walHeaderSize)).drop
        (readBatches seg.batches (cut - walHeaderSize)).length, ∀ a ∈ b, a.lsn < lsn := by
  obtain ⟨rest, hrest⟩ := readBatches_isPrefix seg.batches (cut - walHeaderSize)
  rw [expected, ← hrest, drop_left, flatMap_append, ← delivered_drop]
  exact append_right_eq_self

theorem not_recovers
    (h : ∃ e s, w.recover codec handler (seg.crashed cut) = .error e s) : ¬ Recovers w handler seg cut := by
  intro hrec
  obtain ⟨e, s, he⟩ := h
  obtain ⟨out, s', hok, -⟩ := hrec
  rw [he] at hok
  cases hok

/-- With nothing written there is nothing to recover. -/
theorem recovers_empty (hbs : ∀ b ∈ seg.batches, b = []) (cut : Nat) : Recovers w handler seg cut := by
  have hcrashed : seg.crashed cut = onDisk seg.startLsn none [] := by
    have hentries : seg.entries = [] := flatMap_batchEntries_eq_nil.2 hbs
    rw [crashed, seg.file_eq, if_pos hentries]
    rfl
  have hexpected : seg.expected cut w.replayFromLsn = [] := by
    rw [expected, delivered_drop]
    intro b hb a ha
    rw [hbs b ((kept_isPrefix _ _).subset hb)] at ha
    cases ha
  obtain ⟨out, hout⟩ := recover_missing w codec handler seg.startLsn []
  rw [Recovers, hcrashed, hexpected]
  exact ⟨out, _, hout, rfl, out, _, hout, rfl⟩

theorem recoverable_iff (hbs : ¬ ∀ b ∈ seg.batches, b = []) (c lsn : Nat) :
    Recoverable seg (walHeaderSize + c) lsn ↔ (c = 0 ∨ ∃ b ∈ readBatches seg.batches c, b ≠ []) ∧
        seg.expected (walHeaderSize + c) lsn = (readBatches seg.batches c).flatMap (delivered lsn) := by
  have hexpected := expected_eq seg (walHeaderSize + c) lsn
  have hzero : walHeaderSize + c = walHeaderSize ↔ c = 0 := by omega
  unfold Recoverable
  rw [Nat.add_sub_cancel_left] at hexpected ⊢
  rw [hexpected, hzero]
  rw [or_iff_right hbs, and_iff_right (Nat.le_add_right _ _)]

/-- **Crash recovery**: whatever was appended and wherever the file was cut, recovery hands over the
records of the batches flushed before the cut, and does so again on what it leaves, exactly if the cut is
`Recoverable`. -/
theorem recovers_iff (seg : Segment codec) (cut : Nat) (hn : WalRecovery.NeverFails handler)
    (hauto : w.autoTruncateTornWrites = true)
    (hid : w.validateWalHeaderMetadata seg.metadata = .ok ()) :
    Recovers w handler seg cut ↔ Recoverable seg cut w.replayFromLsn := by
  by_cases hbs : ∀ b ∈ seg.batches, b = []
  · exact ⟨fun _ => .inl hbs, fun _ => recovers_empty hbs cut⟩
  by_cases hheader : cut < walHeaderSize
  · refine iff_of_false (not_recovers (recover_cut_header hbs hheader)) fun h => ?_
    rcases h with h | ⟨h, -⟩
    · exact hbs h
    · omega
  obtain ⟨c, rfl⟩ := Nat.exists_eq_add_of_le (not_lt.1 hheader)
  rw [recoverable_iff hbs]
  by_cases hread : c = 0 ∨ ∃ b ∈ readBatches seg.batches c, b ≠ []
  · obtain ⟨out, s, hfirst, hcalls, out', s', hsecond, hcalls'⟩ := recover_log_twice hn hauto hid seg.le_lsn hread
    rw [← Segment.entries, ← seg.crashed_behind hbs] at hfirst
    constructor
    · intro hrec
      obtain ⟨out1, s1, hok, hexpected, -⟩ := hrec
      rw [hfirst] at hok
      cases hok
      exact ⟨hread, hexpected.symm.trans hcalls⟩
    · intro h
      refine ⟨out, s, hfirst, ?_, out', s', hsecond, ?_⟩
      · rw [hcalls, h.2]
      · rw [hcalls', h.2]
  · have hc : c ≠ 0 := fun h => hread (.inl h)
    refine iff_of_false (not_recovers (recover_cut_unflushed hbs hauto hid hc fun b hb => ?_))
      fun h => hread h.1
    by_contra hne
    exact hread (.inr ⟨b, hb, hne⟩)

/-! ## Runs -/

/-- Records of one byte, framed behind their LSN. -/
def byteCodec : JournalCodec UInt8 where
  encodeRecord r lsn := if lsn < 256 then some [UInt8.ofNat lsn, r] else none
  decodeFrame
    | [lsn, r] => some (lsn.toNat, r)
    | _ => none
  decodeTxnRecord _ := none
  decodeRowChange _ _ := none
  decode_encode r lsn frame h := by
    split at h
    · rename_i hlt
      cases h
      simp only [UInt8.toNat_ofNat', Nat.mod_eq_of_lt hlt]
    · cases h
  length_lt r lsn frame h := by
    split at h
    · cases h
      exact (by decide : 2 < 2 ^ 32)
    · cases h

def twoBatches : Segment byteCodec where
  startLsn := 1
  metadata := {}
  batches := [[⟨1, 7, [1, 7], rfl⟩], [⟨2, 8, [2, 8], rfl⟩, ⟨3, 9, [3, 9], rfl⟩]]
  le_lsn := by decide

/-- A cut in the second batch: the first one is recovered. -/
theorem recovers_iff_second_batch :
    WalRecovery.NeverFails (fun _ _ => .ok () : ReplayHandler UInt8) ∧
      validateWalHeaderMetadata {} twoBatches.metadata = .ok () ∧
      Recovers {} (fun _ _ => .ok ()) twoBatches 80 :=
  ⟨fun _ _ => rfl, rfl, (recovers_iff twoBatches 80 (fun _ _ => rfl) rfl rfl).2
    (.inr ⟨by decide, .inr (by decide), by decide⟩)⟩

/-- **A cut in the first batch**: there is nothing to hand over, and yet recovery fails. -/
theorem cut_in_first_batch :
    twoBatches.expected (walHeaderSize + 7) 1 = [] ∧
      ¬ Recovers {} (fun _ _ => .ok ()) twoBatches (walHeaderSize + 7) := by
  have hbs : ¬ ∀ b ∈ twoBatches.batches, b = [] := by decide
  have hread : ∀ b ∈ readBatches twoBatches.batches 7, b = [] := by decide
  exact ⟨rfl, not_recovers (recover_cut_unflushed hbs rfl rfl (by decide) hread)⟩

end Paro.L3.CrashRecovery
