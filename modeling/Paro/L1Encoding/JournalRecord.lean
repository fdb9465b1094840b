import Paro.Core.SortDedup
import Paro.L1Encoding.JournalTypes

/-!
# Journal records and their size estimate

Model of the journal record schema (crates/common/src/journal.rs), of
`PreparedCommitPlan::into_record` (crates/common/src/durability/prepared_plan.rs), of
`encode_record` and of `encoded_size_upper_bound_for_plan` (crates/journal/src/codec.rs).

A commit record carries metadata derived from its payload: object keys, object and tablet
ids, artifact descriptors and schema dependencies, collected operation by operation and
partly deduplicated. The estimate is computed before the record exists. It encodes a record
with empty metadata and adds the encoded sizes of the catalog operations and the apply
descriptors and a fixed amount per storage operation and mutation.

`crc32c` is a parameter: a checksum is a 32-bit word whatever its value.
`La-b` are lines of `journal.rs`.
-/
namespace Paro.L1.Journal
open Bincode
open Serialize (serialize)

/-! ## Stable artifact ids -/

/-- effect/data_op.rs:414-462 -/
abbrev StableHasher := UInt64

namespace StableHasher

def new (seed : UInt64) : StableHasher := 0xcbf29ce484222325 ^^^ seed

variable (state : StableHasher)

def writeU8 (value : UInt8) : StableHasher :=
  (state ^^^ value.toUInt64) * 0x100000001b3

variable (bytes : List UInt8)

def writeRawBytes : StableHasher := bytes.foldl writeU8 state

def writeU32 (value : UInt32) : StableHasher :=
  writeRawBytes state (leBytes 4 value.toNat)

def writeU64 (value : UInt64) : StableHasher :=
  writeRawBytes state (leBytes 8 value.toNat)

def writeLen (len : Nat) : StableHasher := writeU64 state (UInt64.ofNat len)

def writeBytes : StableHasher :=
  writeRawBytes (writeLen state bytes.length) bytes

end StableHasher

/-- effect/data_op.rs:346-353 -/
def stableHashKeys (keys : List (List UInt8)) : UInt64 :=
  keys.foldl StableHasher.writeBytes
    ((StableHasher.new 0x504b44454c455445).writeLen keys.length)

/-- effect/data_op.rs:355-360 -/
def stableSearchGenerationArtifactId (definitionId generationId : UInt64) : UInt64 :=
  ((StableHasher.new 0x534541524348474e).writeU64 definitionId).writeU64 generationId

/-- effect/data_op.rs:362-372 -/
def stableSearchGenerationRevisionId (definitionId generationId rootVersion : UInt64) : UInt64 :=
  (((StableHasher.new 0x5345415243485256).writeU64 definitionId).writeU64 generationId).writeU64
    rootVersion

/-- effect/data_op.rs:374-379 -/
def stableSearchGenerationRetirementId (definitionId : UInt64) : UInt64 :=
  let hash : UInt64 := 0x7265746972657367 ^^^ definitionId * 0x9e3779b97f4a7c15
  (hash <<< 29 ||| hash >>> 35) ^^^ 0xa0761d6478bd642f

/-- effect/data_op.rs:381-418 -/
def stableHashDeletePatch : DeletePatchRef → UInt64
  | .inline patch =>
    let state := (((StableHasher.new 0x4450415443485631).writeU8 0).writeU8 1).writeU32 patch.rowCount
    patch.groups.foldl (fun (state : StableHasher) group =>
      group.segments.foldl (fun (state : StableHasher) segment =>
        segment.rowOffsetsDelta.foldl StableHasher.writeU32
          ((state.writeU32 segment.segmentId).writeLen segment.rowOffsetsDelta.length))
        ((state.writeU64 group.rowsetId).writeLen group.segments.length))
      (state.writeLen patch.groups.length)
  | .artifact reference =>
    let code : UInt8 := match reference.artifactNamespace with
      | .canonicalRowset => 1
      | .staged => 2
      | .deletePatch => 3
      | .searchGeneration => 4
    let state := ((StableHasher.new 0x4450415443485631).writeU8 1).writeU8 code
    reference.locator.foldl (fun (state : StableHasher) component => state.writeBytes component.toUTF8.data.toList)
      (state.writeLen reference.locator.length)

/-- effect/data_op.rs:279-296 -/
def TabletMutation.stableArtifactId : TabletMutation → UInt64
  | .publishRowset rowsetId _ _ => rowsetId
  | .publishCompaction _ _ outputRowsetId _ _ _ _ _ _ => outputRowsetId
  | .publishSearchGeneration _ _ head =>
    stableSearchGenerationRevisionId head.definitionId head.generationId head.rootVersion
  | .retireSearchGeneration definitionId => stableSearchGenerationRetirementId definitionId
  | .applyPrimaryDelete keys => stableHashKeys keys
  | .applyDeletePatch patch _ => stableHashDeletePatch patch

/-! ## Record metadata -/

/-- L114-118 -/
inductive JournalRecordKind | transaction | maintenance
deriving DecidableEq

instance : Serialize JournalRecordKind := ⟨fun x => tag x.ctorIdx⟩

/-- L202-208 -/
structure CdcMetadata where
  catalogChangeCount : UInt32 := 0
  storageMutationCount : UInt32 := 0
  userDataChange : Bool := false
  maintenanceChange : Bool := false

instance : Serialize CdcMetadata := ⟨fun x =>
  serialize (x.catalogChangeCount, x.storageMutationCount, x.userDataChange, x.maintenanceChange)⟩

/-- L385-395 -/
inductive JournalArtifactKind
  | rowset | primaryDelete | deletePatch | compactionOutput | searchGeneration
  | searchGenerationRetirement | applyDescriptor | bulkLoadRowset

instance : Serialize JournalArtifactKind := ⟨fun x => tag x.ctorIdx⟩

/-- L398-409 -/
def JournalArtifactKind.fromMutation : TabletMutation → JournalArtifactKind
  | .publishRowset .. => .rowset
  | .applyPrimaryDelete .. => .primaryDelete
  | .applyDeletePatch .. => .deletePatch
  | .publishCompaction .. => .compactionOutput
  | .publishSearchGeneration .. => .searchGeneration
  | .retireSearchGeneration .. => .searchGenerationRetirement

/-- L411-417 -/
structure JournalArtifactDescriptor where
  tabletId : Option UInt64
  artifactId : UInt64
  kind : JournalArtifactKind
  descriptorChecksumCrc32c : UInt32

instance : Serialize JournalArtifactDescriptor := ⟨fun x =>
  serialize (x.tabletId, x.artifactId, x.kind, x.descriptorChecksumCrc32c)⟩

/-- L419-425 -/
structure JournalSchemaDependency where
  schemaId : Option UInt64
  schemaName : Option String
  (schemaVersion schemaHash : Option UInt32)
deriving DecidableEq

instance : Serialize JournalSchemaDependency := ⟨fun x =>
  serialize (x.schemaId, x.schemaName, x.schemaVersion, x.schemaHash)⟩

/-- L226-233 -/
structure JournalChangeDescriptor where
  catalogObjects : List DdlObjectKey := []
  objectIds : List UInt64 := []
  tabletIds : List UInt64 := []
  artifacts : List JournalArtifactDescriptor := []
  schemaDependencies : List JournalSchemaDependency := []

instance : Serialize JournalChangeDescriptor := ⟨fun x =>
  serialize (x.catalogObjects, x.objectIds, x.tabletIds, x.artifacts, x.schemaDependencies)⟩

/-- L427-438 -/
structure JournalReplayDescriptor where
  catalogOpCount : UInt32 := 0
  storageOpCount : UInt32 := 0
  storageMutationCount : UInt32 := 0
  applyDescriptorCount : UInt32 := 0
  deferredTaskCount : UInt32 := 0
  catalogOpsChecksumCrc32c : UInt32 := 0
  storageOpsChecksumCrc32c : UInt32 := 0
  applyDescriptorsChecksumCrc32c : UInt32 := 0
  deferredTasksChecksumCrc32c : UInt32 := 0

instance : Serialize JournalReplayDescriptor := ⟨fun x =>
  serialize (x.catalogOpCount, x.storageOpCount, x.storageMutationCount, x.applyDescriptorCount,
    x.deferredTaskCount, x.catalogOpsChecksumCrc32c, x.storageOpsChecksumCrc32c,
    x.applyDescriptorsChecksumCrc32c, x.deferredTasksChecksumCrc32c)⟩

/-- The defaults are those of `JournalRecordMetadata::default`. L120-128,
188-199 -/
structure JournalRecordMetadata where
  metadataVersion : UInt16 := 1
  participantDescriptorVersion : UInt16 := 1
  recordKind : JournalRecordKind := .transaction
  cdc : CdcMetadata := {}
  change : JournalChangeDescriptor := {}
  replay : JournalReplayDescriptor := {}

instance : Serialize JournalRecordMetadata := ⟨fun x =>
  serialize (x.metadataVersion, x.participantDescriptorVersion, x.recordKind, x.cdc, x.change,
    x.replay)⟩

/-- L558-560 -/
def usizeToU32Saturating (value : Nat) : UInt32 := UInt32.ofNat (min value (2 ^ 32 - 1))

/-- L549-556 -/
def pushUnique {α : Type} [DecidableEq α] (values : List α) (value : α) : List α :=
  if value ∈ values then values else values ++ [value]

/-- L543-547 -/
def pushNonzeroU64 (values : List UInt64) (value : UInt64) : List UInt64 :=
  if value ≠ 0 ∧ value ∉ values then values ++ [value] else values

/-- codec.rs:272-279, and before saturation journal.rs:512-520 -/
def mutationCount (storageOps : List StorageCommitOp) : Nat :=
  (storageOps.map fun | .tablet op => op.mutations.length).sum

/-- L522-544 -/
def ddlChangeObjectId (change : DdlChange) : Option UInt64 :=
  let id : Option UInt64 := match change with
    | .createSchema payload => some payload.objectId
    | .createTable payload => some payload.objectId
    | .createView payload => some payload.objectId
    | .createIndex payload => some payload.objectId
    | .createPropertyGraph payload => some payload.objectId
    | .createSequence payload => some payload.objectId
    | .createRoutine payload => some (max payload.objectId payload.routineId)
    | _ => none
  id.filter fun objectId => objectId ≠ 0

namespace JournalChangeDescriptor

variable (d : JournalChangeDescriptor)

/-- L286-296 -/
def recordStorageSchemaDependency (storage : DdlStorageDescriptor) :
    JournalChangeDescriptor :=
  let dependency : JournalSchemaDependency :=
    ⟨some storage.schemaId, none, some storage.schemaVersion, some storage.schemaHash⟩
  { d with schemaDependencies := pushUnique d.schemaDependencies dependency }

/-- One round of the loop of `record_dependency_refs`. L298-311 -/
def recordDependencyRef (dependency : DdlDependencyRef) :
    JournalChangeDescriptor :=
  let schema : JournalSchemaDependency := ⟨dependency.object.schemaId, dependency.object.schemaName, none, none⟩
  { d with
    objectIds := pushNonzeroU64 d.objectIds dependency.object.objectId
    schemaDependencies := pushUnique d.schemaDependencies schema }

def recordObjectId (objectId : UInt64) : JournalChangeDescriptor :=
  { d with objectIds := pushNonzeroU64 d.objectIds objectId }

def recordTabletId (tabletId : UInt64) : JournalChangeDescriptor :=
  { d with tabletIds := pushNonzeroU64 d.tabletIds tabletId }

def recordCatalogObject (key : DdlObjectKey) :
    JournalChangeDescriptor :=
  { d with catalogObjects := pushUnique d.catalogObjects key }

def recordArtifact (artifact : JournalArtifactDescriptor) :
    JournalChangeDescriptor :=
  { d with artifacts := d.artifacts ++ [artifact] }

/-- What the payload of a change adds. L258-284 -/
def recordChangePayload : DdlChange → JournalChangeDescriptor
  | .createTable payload =>
    payload.storage.elim d fun storage =>
      ((d.recordStorageSchemaDependency storage).recordObjectId storage.tableId).recordTabletId
        storage.tabletId
  | .createView payload => payload.dependencies.foldl recordDependencyRef d
  | .createPropertyGraph payload =>
    payload.edgeTables.foldl (fun d edge => d.recordObjectId edge.tableOid)
      (payload.vertexTables.foldl (fun d vertex => d.recordObjectId vertex.tableOid) d)
  | _ => d

/-- L258-284 -/
def recordCatalogChange (record : DdlChangeRecord) :
    JournalChangeDescriptor :=
  let d1 := d.recordCatalogObject record.key
  let d2 := (ddlChangeObjectId record.change).elim d1 d1.recordObjectId
  d2.recordChangePayload record.change

variable (crc32c : List UInt8 → UInt32) (d : JournalChangeDescriptor)

/-- L313-327 -/
def recordStorageOp : StorageCommitOp → JournalChangeDescriptor
  | .tablet op =>
    op.mutations.foldl (fun d mutation => d.recordArtifact
      ⟨some op.tabletId, mutation.stableArtifactId, .fromMutation mutation,
        crc32c (serialize mutation)⟩) (d.recordTabletId op.tabletId)

/-- L329-382 -/
def recordApplyDescriptor (descriptor : ApplyDescriptor) :
    JournalChangeDescriptor :=
  let checksum := crc32c (serialize descriptor)
  match descriptor with
  | .publishStagedArtifact (.propertyGraphBuild object staging _) =>
    (d.recordCatalogObject object).recordArtifact
      ⟨none, (crc32c (serialize staging)).toUInt64, .applyDescriptor, checksum⟩
  | .publishStagedArtifact (.bulkLoadRowset artifact) =>
    (((d.recordCatalogObject artifact.tableObject).recordObjectId artifact.tableId).recordTabletId
      artifact.tabletId).recordArtifact
        ⟨some artifact.tabletId, artifact.rowsetId, .bulkLoadRowset, checksum⟩
  | .publishStagedArtifact (.searchGenerationBuild artifact) =>
    (((d.recordCatalogObject artifact.tableObject).recordObjectId artifact.tableId).recordTabletId
      artifact.tabletId).recordArtifact
        ⟨some artifact.tabletId, stableSearchGenerationArtifactId artifact.definitionId artifact.generationId,
          .applyDescriptor, checksum⟩
  | .runtimeTransition _ | .cleanup _ => d.recordArtifact ⟨none, checksum.toUInt64, .applyDescriptor, checksum⟩

/-- L236-258 -/
def fromParts (catalogOps : List CatalogTxnOp) (storageOps : List StorageCommitOp)
    (applyDescriptors : List ApplyDescriptor) : JournalChangeDescriptor :=
  let d1 := catalogOps.foldl (fun d op => d.recordCatalogChange op.change) {}
  let d2 := storageOps.foldl (recordStorageOp crc32c) d1
  let d := applyDescriptors.foldl (recordApplyDescriptor crc32c) d2
  { d with
    objectIds := sortDedup (· ≤ ·) d.objectIds
    tabletIds := sortDedup (· ≤ ·) d.tabletIds }

end JournalChangeDescriptor

variable (crc32c : List UInt8 → UInt32)

/-- L440-459 -/
def JournalReplayDescriptor.fromParts (catalogOps : List CatalogTxnOp)
    (storageOps : List StorageCommitOp) (applyDescriptors : List ApplyDescriptor)
    (deferredTasks : List DeferredTask) : JournalReplayDescriptor where
  catalogOpCount := usizeToU32Saturating catalogOps.length
  storageOpCount := usizeToU32Saturating storageOps.length
  storageMutationCount := usizeToU32Saturating (mutationCount storageOps)
  applyDescriptorCount := usizeToU32Saturating applyDescriptors.length
  deferredTaskCount := usizeToU32Saturating deferredTasks.length
  catalogOpsChecksumCrc32c := crc32c (serialize catalogOps)
  storageOpsChecksumCrc32c := crc32c (serialize storageOps)
  applyDescriptorsChecksumCrc32c := crc32c (serialize applyDescriptors)
  deferredTasksChecksumCrc32c := crc32c (serialize deferredTasks)

variable (recordKind : JournalRecordKind) (catalogOps : List CatalogTxnOp) (storageOps : List StorageCommitOp)

/-- L210-223 -/
def CdcMetadata.fromParts
    : CdcMetadata where
  catalogChangeCount := usizeToU32Saturating catalogOps.length
  storageMutationCount := usizeToU32Saturating (mutationCount storageOps)
  userDataChange := decide (recordKind = .transaction) &&
    (!catalogOps.isEmpty || decide (usizeToU32Saturating (mutationCount storageOps) > 0))
  maintenanceChange := decide (recordKind = .maintenance)

/-- L159-186 -/
def JournalRecordMetadata.fromParts
    (applyDescriptors : List ApplyDescriptor) (deferredTasks : List DeferredTask) :
    JournalRecordMetadata where
  recordKind := recordKind
  cdc := .fromParts recordKind catalogOps storageOps
  change := .fromParts crc32c catalogOps storageOps applyDescriptors
  replay := .fromParts crc32c catalogOps storageOps applyDescriptors deferredTasks

/-! ## Records -/

/-- L49-61 -/
structure CommitRecord where
  recordVersion : UInt16
  metadata : JournalRecordMetadata
  (txnId startTime commitId : UInt64)
  catalogOps : List CatalogTxnOp
  storageOps : List StorageCommitOp
  applyDescriptors : List ApplyDescriptor
  deferredTasks : List DeferredTask

instance : Serialize CommitRecord := ⟨fun x =>
  serialize (x.recordVersion, x.metadata, x.txnId, x.startTime, x.commitId, x.catalogOps,
    x.storageOps, x.applyDescriptors, x.deferredTasks)⟩

/-- L106-112 -/
inductive MaintenanceKind
  | compaction | indexBackfill | searchGenerationMaintenance | materializedViewRefresh

instance : Serialize MaintenanceKind := ⟨fun x => tag x.ctorIdx⟩

/-- L78-90 -/
structure MaintenanceRecord where
  recordVersion : UInt16
  metadata : JournalRecordMetadata
  maintenanceId : UInt64
  kind : MaintenanceKind
  catalogOps : List CatalogTxnOp
  storageOps : List StorageCommitOp
  applyDescriptors : List ApplyDescriptor
  deferredTasks : List DeferredTask

instance : Serialize MaintenanceRecord := ⟨fun x =>
  serialize (x.recordVersion, x.metadata, x.maintenanceId, x.kind, x.catalogOps, x.storageOps,
    x.applyDescriptors, x.deferredTasks)⟩

/-- A checkpoint fence is its marker. L24-30, 461-465 -/
inductive JournalRecord
  | commit (record : CommitRecord)
  | maintenance (record : MaintenanceRecord)
  | checkpointFence (checkpointMarker : UInt64)

instance : Serialize JournalRecord := ⟨fun
  | .commit record => tag 0 ++ serialize record
  | .maintenance record => tag 1 ++ serialize record
  | .checkpointFence checkpointMarker => tag 2 ++ serialize checkpointMarker⟩

def commitRecordVersion : UInt16 := 2

/-- The tablets of a plan are admission tokens, which no record holds.
prepared_plan.rs:35-45 -/
structure PreparedCommitPlan where
  (txnId startTime : UInt64)
  catalogOps : List CatalogTxnOp
  storageOps : List StorageCommitOp
  applyDescriptors : List ApplyDescriptor
  deferredTasks : List DeferredTask

variable (commitVersion : Int64)

/-- A published rowset gets the commit's version. prepared_plan.rs:126-132 -/
def TabletMutation.rewriteVersion : TabletMutation → TabletMutation
  | .publishRowset rowsetId _ rowsetRef => .publishRowset rowsetId ⟨commitVersion, commitVersion⟩ rowsetRef
  | mutation => mutation

def StorageCommitOp.rewriteVersion : StorageCommitOp → StorageCommitOp
  | .tablet op => .tablet { op with mutations := op.mutations.map (.rewriteVersion commitVersion) }

/-- `none` when the commit id does not fit an `i64`. prepared_plan.rs:115-139 -/
def rewriteRowsetVersions (commitId : UInt64) :
    Option (List StorageCommitOp) :=
  if commitId.toNat < 2 ^ 63 then
    some (storageOps.map (.rewriteVersion commitId.toInt64))
  else none

variable (plan : PreparedCommitPlan)

/-- `none` is a panic. prepared_plan.rs:48-69 -/
def PreparedCommitPlan.intoRecord (commitId : UInt64) : Option CommitRecord :=
  (rewriteRowsetVersions plan.storageOps commitId).map fun storageOps =>
    { recordVersion := commitRecordVersion
      metadata := .fromParts crc32c .transaction plan.catalogOps storageOps plan.applyDescriptors
        plan.deferredTasks
      txnId := plan.txnId
      startTime := plan.startTime
      commitId := commitId
      catalogOps := plan.catalogOps
      storageOps := storageOps
      applyDescriptors := plan.applyDescriptors
      deferredTasks := plan.deferredTasks }

/-! ## The frame -/

def journalFrameHeaderSize : Nat := 18

def journalFormatVersion : UInt16 := 7

def u32Max : Nat := 2 ^ 32 - 1

def u64Max : Nat := 2 ^ 64 - 1

/-- codec.rs:84-108 -/
structure JournalFrameHeader where
  formatVersion : UInt16
  payloadLen : UInt32
  lsn : UInt64
  checksum : UInt32

def JournalFrameHeader.encode (h : JournalFrameHeader) : List UInt8 :=
  leBytes 2 h.formatVersion.toNat ++ leBytes 4 h.payloadLen.toNat ++ leBytes 8 h.lsn.toNat ++ leBytes 4 h.checksum.toNat

/-- codec.rs:134-150 -/
def encodeRecord (record : JournalRecord) (lsn : UInt64) : Except String (List UInt8) :=
  let payload := serialize record
  if payload.length > u32Max then .error "journal payload exceeds u32 length"
  else
    let frameLen := journalFrameHeaderSize + payload.length
    if frameLen > u64Max then .error "journal frame length overflow"
    else if frameLen > u32Max then .error "journal frame exceeds u32 length"
    else
      let header : JournalFrameHeader := ⟨journalFormatVersion, UInt32.ofNat payload.length, lsn, crc32c payload⟩
      .ok (header.encode ++ payload)

/-! ## The estimate -/

/-- codec.rs:22-36 -/
structure CodecSizeOverflow where
  (encodedSize maxSize : Nat)
deriving DecidableEq, Repr

def CodecSizeOverflow.new (encodedSize : Nat) : CodecSizeOverflow := ⟨encodedSize, u32Max⟩

def checkedU64 (value : Nat) : Except CodecSizeOverflow Nat :=
  if value ≤ u64Max then .ok value else .error (.new u64Max)

/-- codec.rs:227-231 -/
def serializedSizeUpperBound {α : Type} [Serialize α] (value : α) : Except CodecSizeOverflow Nat :=
  checkedU64 (size value)

/-- codec.rs:233-240 -/
def encodedFrameSizeUpperBound (payloadSize : Nat) : Except CodecSizeOverflow Nat := do
  let encodedSize ← checkedU64 (payloadSize + journalFrameHeaderSize)
  if encodedSize ≤ u32Max then .ok encodedSize else .error (.new encodedSize)

/-- codec.rs:281-286 -/
def checkedSum (values : List Nat) : Except CodecSizeOverflow Nat :=
  values.foldlM (fun sum value => checkedU64 (sum + value)) 0

/-- codec.rs:288-291 -/
def checkedProduct (left right : Nat) : Except CodecSizeOverflow Nat := checkedU64 (left * right)

/-- codec.rs:242-270 -/
def metadataSizeUpperBound (metadataBaseSize : Nat) : Except CodecSizeOverflow Nat := do
  let catalogMetadataSlack ← serializedSizeUpperBound plan.catalogOps
  let applyMetadataSlack ← serializedSizeUpperBound plan.applyDescriptors
  let tabletIdSize ← serializedSizeUpperBound (0 : UInt64)
  let artifactDescriptorSize ← serializedSizeUpperBound
    (⟨some (UInt64.ofNat u64Max), UInt64.ofNat u64Max, .applyDescriptor, UInt32.ofNat u32Max⟩ :
      JournalArtifactDescriptor)
  let tabletIds ← checkedProduct tabletIdSize plan.storageOps.length
  let artifacts ← checkedProduct artifactDescriptorSize (mutationCount plan.storageOps)
  checkedSum [metadataBaseSize, catalogMetadataSlack, applyMetadataSlack, tabletIds, artifacts]

/-- The record the estimate encodes: the plan's payload, empty metadata and the largest
commit id. The source's borrowed mirror has the fields of a `CommitRecord` in the same order
and the same tag. codec.rs:206-219, 295-312 -/
def PreparedCommitPlan.emptyMetadataRecord : JournalRecord :=
  .commit
    { recordVersion := commitRecordVersion
      metadata := {}
      txnId := plan.txnId
      startTime := plan.startTime
      commitId := UInt64.ofNat u64Max
      catalogOps := plan.catalogOps
      storageOps := plan.storageOps
      applyDescriptors := plan.applyDescriptors
      deferredTasks := plan.deferredTasks }

/-- codec.rs:203-226 -/
def encodedSizeUpperBoundForPlan : Except CodecSizeOverflow Nat := do
  let metadataBaseSize ← serializedSizeUpperBound ({} : JournalRecordMetadata)
  let metadataBound ← metadataSizeUpperBound plan metadataBaseSize
  let recordSizeWithEmptyMetadata ← serializedSizeUpperBound plan.emptyMetadataRecord
  let recordSizeBound ←
    checkedU64 (recordSizeWithEmptyMetadata + (metadataBound - metadataBaseSize))
  encodedFrameSizeUpperBound recordSizeBound

end Paro.L1.Journal
