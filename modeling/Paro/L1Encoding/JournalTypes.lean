import Paro.Core.Bincode

/-!
# Durable payload of a commit

The catalog operations, storage operations, apply descriptors and deferred tasks that a
commit record carries (crates/common/src/ddl, crates/common/src/effect), each with its
encoding: the fields in the order of the source, and the position of a variant as its tag.
`La-b` are lines of `ddl/change.rs`.
-/
namespace Paro.L1.Journal
open Bincode
open Serialize (serialize)

/-! ## Catalog operations -/

/-- A logical type stands here as its encoding: no function of the journal looks inside. -/
structure LogicalType where
  encoding : List UInt8

instance : Serialize LogicalType := ⟨LogicalType.encoding⟩

/-- ddl/object_key.rs:6-16 -/
inductive DdlObjectKind
  | schema | table | view | index | sequence | routine | propertyGraph | database
deriving DecidableEq, Repr

instance : Serialize DdlObjectKind := ⟨fun x => tag x.ctorIdx⟩

/-- ddl/object_key.rs:18-24 -/
structure DdlObjectKey where
  database : String
  schema : Option String
  name : String
  kind : DdlObjectKind
deriving DecidableEq, Repr

instance : Serialize DdlObjectKey := ⟨fun x => serialize (x.database, x.schema, x.name, x.kind)⟩

/-- L7-12 -/
structure DdlWalColumnInfo where
  name : String
  logicalType : LogicalType
  nullable : Bool

instance : Serialize DdlWalColumnInfo := ⟨fun x => serialize (x.name, x.logicalType, x.nullable)⟩

/-- L14-21 -/
structure DdlWalConstraint where
  constraintType : String
  columns : List UInt32
  (expression referencedTable : Option String)
  referencedColumns : Option (List UInt32)

instance : Serialize DdlWalConstraint := ⟨fun x =>
  serialize (x.constraintType, x.columns, x.expression, x.referencedTable, x.referencedColumns)⟩

/-- L23-28 -/
structure CreateSchemaPayload where
  objectId : UInt64
  ifNotExists : Bool

instance : Serialize CreateSchemaPayload := ⟨fun x => serialize (x.objectId, x.ifNotExists)⟩

/-- L30-34 -/
structure DropSchemaPayload where
  (cascade ifExists : Bool)

instance : Serialize DropSchemaPayload := ⟨fun x => serialize (x.cascade, x.ifExists)⟩

/-- L51-62 -/
structure DdlStorageDescriptor where
  formatVersion : UInt16
  (tabletId tableId partitionId schemaId : UInt64)
  (schemaVersion schemaHash : UInt32)
  dataDir : String
  keysType : UInt8

instance : Serialize DdlStorageDescriptor := ⟨fun x =>
  serialize (x.formatVersion, x.tabletId, x.tableId, x.partitionId, x.schemaId, x.schemaVersion,
    x.schemaHash, x.dataDir, x.keysType)⟩

/-- L36-44 -/
structure CreateTablePayload where
  objectId : UInt64
  columns : List DdlWalColumnInfo
  constraints : List DdlWalConstraint
  ifNotExists : Bool
  storage : Option DdlStorageDescriptor

instance : Serialize CreateTablePayload := ⟨fun x =>
  serialize (x.objectId, x.columns, x.constraints, x.ifNotExists, x.storage)⟩

/-- The payload of most drops: one flag. L46-49, 75-78, 98-101,
138-141, 155-158 -/
structure DropPayload where
  ifExists : Bool

instance : Serialize DropPayload := ⟨fun x => serialize x.ifExists⟩

/-- L180-188 -/
structure DdlDependencyObjectRef where
  objectId : UInt64
  (kind catalogName : String)
  schemaId : Option UInt64
  schemaName : Option String
  name : String

instance : Serialize DdlDependencyObjectRef := ⟨fun x =>
  serialize (x.objectId, x.kind, x.catalogName, x.schemaId, x.schemaName, x.name)⟩

/-- L190-194 -/
structure DdlDependencyRef where
  object : DdlDependencyObjectRef
  dependencyType : String

instance : Serialize DdlDependencyRef := ⟨fun x => serialize (x.object, x.dependencyType)⟩

/-- L64-73 -/
structure CreateViewPayload where
  objectId : UInt64
  sql : String
  columnAliases : List String
  dependencies : List DdlDependencyRef
  ifNotExists : Bool

instance : Serialize CreateViewPayload := ⟨fun x =>
  serialize (x.objectId, x.sql, x.columnAliases, x.dependencies, x.ifNotExists)⟩

/-- L80-96 -/
structure CreateIndexPayload where
  objectId : UInt64
  tableName : String
  columnIds : List UInt32
  columnTypes : List LogicalType
  indexType : String
  (isUnique ifNotExists : Bool)
  fulltextConfig : Option String
  providerConfigJson : String

instance : Serialize CreateIndexPayload := ⟨fun x =>
  serialize (x.objectId, x.tableName, x.columnIds, x.columnTypes, x.indexType, x.isUnique,
    x.ifNotExists, x.fulltextConfig, x.providerConfigJson)⟩

/-- L114-121 -/
structure PropertyGraphVertexPayload where
  tableName : String
  tableOid : UInt64
  keyColumnIds : List UInt32
  label : String
  propertyColumnIds : List UInt32

instance : Serialize PropertyGraphVertexPayload := ⟨fun x =>
  serialize (x.tableName, x.tableOid, x.keyColumnIds, x.label, x.propertyColumnIds)⟩

/-- L123-136 -/
structure PropertyGraphEdgePayload where
  tableName : String
  tableOid : UInt64
  (keyColumnIds sourceKeyColumnIds : List UInt32)
  sourceVertexTable : String
  (sourceRefColumnIds destinationKeyColumnIds : List UInt32)
  destinationVertexTable : String
  destinationRefColumnIds : List UInt32
  label : String
  propertyColumnIds : List UInt32

instance : Serialize PropertyGraphEdgePayload := ⟨fun x =>
  serialize (x.tableName, x.tableOid, x.keyColumnIds, x.sourceKeyColumnIds, x.sourceVertexTable,
    x.sourceRefColumnIds, x.destinationKeyColumnIds, x.destinationVertexTable,
    x.destinationRefColumnIds, x.label, x.propertyColumnIds)⟩

/-- L103-112 -/
structure CreatePropertyGraphPayload where
  objectId : UInt64
  (schema graphName : String)
  ifNotExists : Bool
  vertexTables : List PropertyGraphVertexPayload
  edgeTables : List PropertyGraphEdgePayload

instance : Serialize CreatePropertyGraphPayload := ⟨fun x =>
  serialize (x.objectId, x.schema, x.graphName, x.ifNotExists, x.vertexTables, x.edgeTables)⟩

/-- L143-153 -/
structure CreateSequencePayload where
  objectId : UInt64
  ifNotExists : Bool
  (increment minValue maxValue startValue : Int64)
  cycle : Bool

instance : Serialize CreateSequencePayload := ⟨fun x =>
  serialize (x.objectId, x.ifNotExists, x.increment, x.minValue, x.maxValue, x.startValue, x.cycle)⟩

/-- L160-168 -/
structure CreateRoutinePayload where
  (objectId routineId : UInt64)
  (specJson sql : String)

instance : Serialize CreateRoutinePayload := ⟨fun x =>
  serialize (x.objectId, x.routineId, x.specJson, x.sql)⟩

/-- L170-174 -/
structure DropRoutinePayload where
  ifExists : Bool
  argTypes : List LogicalType

instance : Serialize DropRoutinePayload := ⟨fun x => serialize (x.ifExists, x.argTypes)⟩

/-- L176-179 -/
structure AlterEntryPayload where
  sql : String

instance : Serialize AlterEntryPayload := ⟨fun x => serialize x.sql⟩

/-- L196-213 -/
inductive DdlChange
  | createSchema (payload : CreateSchemaPayload)
  | dropSchema (payload : DropSchemaPayload)
  | createTable (payload : CreateTablePayload)
  | dropTable (payload : DropPayload)
  | createView (payload : CreateViewPayload)
  | dropView (payload : DropPayload)
  | createIndex (payload : CreateIndexPayload)
  | dropIndex (payload : DropPayload)
  | createPropertyGraph (payload : CreatePropertyGraphPayload)
  | dropPropertyGraph (payload : DropPayload)
  | createSequence (payload : CreateSequencePayload)
  | dropSequence (payload : DropPayload)
  | createRoutine (payload : CreateRoutinePayload)
  | dropRoutine (payload : DropRoutinePayload)
  | alterEntry (payload : AlterEntryPayload)

instance : Serialize DdlChange := ⟨fun
  | .createSchema p => tag 0 ++ serialize p
  | .dropSchema p => tag 1 ++ serialize p
  | .createTable p => tag 2 ++ serialize p
  | .dropTable p => tag 3 ++ serialize p
  | .createView p => tag 4 ++ serialize p
  | .dropView p => tag 5 ++ serialize p
  | .createIndex p => tag 6 ++ serialize p
  | .dropIndex p => tag 7 ++ serialize p
  | .createPropertyGraph p => tag 8 ++ serialize p
  | .dropPropertyGraph p => tag 9 ++ serialize p
  | .createSequence p => tag 10 ++ serialize p
  | .dropSequence p => tag 11 ++ serialize p
  | .createRoutine p => tag 12 ++ serialize p
  | .dropRoutine p => tag 13 ++ serialize p
  | .alterEntry p => tag 14 ++ serialize p⟩

/-- L215-219 -/
structure DdlChangeRecord where
  key : DdlObjectKey
  change : DdlChange

instance : Serialize DdlChangeRecord := ⟨fun x => serialize (x.key, x.change)⟩

/-- effect/txn_catalog_op.rs:7-10 -/
structure CatalogTxnOp where
  change : DdlChangeRecord

instance : Serialize CatalogTxnOp := ⟨fun x => serialize x.change⟩

/-! ## Storage operations -/

/-- effect/data_op.rs:13-19 -/
inductive ArtifactNamespace | canonicalRowset | staged | deletePatch | searchGeneration
deriving DecidableEq, Repr

instance : Serialize ArtifactNamespace := ⟨fun x => tag x.ctorIdx⟩

/-- effect/data_op.rs:21-25 -/
structure ArtifactRef where
  artifactNamespace : ArtifactNamespace
  locator : List String

instance : Serialize ArtifactRef := ⟨fun x => serialize (x.artifactNamespace, x.locator)⟩

/-- effect/data_op.rs:132-138 -/
structure SearchGenerationHeadMeta where
  (definitionId generationId rootVersion configFingerprint : UInt64)
  rootFileName : String

instance : Serialize SearchGenerationHeadMeta := ⟨fun x =>
  serialize (x.definitionId, x.generationId, x.rootVersion, x.configFingerprint, x.rootFileName)⟩

/-- effect/data_op.rs:148-151 -/
inductive SearchGenerationPublication
  | installStaged (stagedRef : ArtifactRef)
  | advanceInstalled

instance : Serialize SearchGenerationPublication := ⟨fun
  | .installStaged stagedRef => tag 0 ++ serialize stagedRef
  | .advanceInstalled => tag 1⟩

/-- effect/data_op.rs:184-187 -/
structure VersionSpan where
  (start stop : Int64)

instance : Serialize VersionSpan := ⟨fun x => serialize (x.start, x.stop)⟩

/-- effect/data_op.rs:190-193 -/
inductive CompactionCumulativePointAction | preserve | advanceToOutputEndExclusive

instance : Serialize CompactionCumulativePointAction := ⟨fun x => tag x.ctorIdx⟩

/-- effect/data_op.rs:196-201 -/
structure RetiredRowsetInput where
  rowsetId : UInt64
  (startVersion endVersion : Int64)
  rssids : List UInt32

instance : Serialize RetiredRowsetInput := ⟨fun x =>
  serialize (x.rowsetId, x.startVersion, x.endVersion, x.rssids)⟩

/-- effect/data_op.rs:499-503 -/
structure DeletePatchSegment where
  segmentId : UInt32
  rowOffsetsDelta : List UInt32

instance : Serialize DeletePatchSegment := ⟨fun x => serialize (x.segmentId, x.rowOffsetsDelta)⟩

/-- effect/data_op.rs:493-497 -/
structure DeletePatchGroup where
  rowsetId : UInt64
  segments : List DeletePatchSegment

instance : Serialize DeletePatchGroup := ⟨fun x => serialize (x.rowsetId, x.segments)⟩

/-- The one encoding there is, `GroupedRowOffsetDeltaV1`, is written as its tag.
effect/data_op.rs:298-301, 339-344 -/
structure DeletePatchInline where
  rowCount : UInt32
  groups : List DeletePatchGroup

instance : Serialize DeletePatchInline := ⟨fun x => tag 0 ++ serialize (x.rowCount, x.groups)⟩

/-- effect/data_op.rs:305-308 -/
inductive DeletePatchRef
  | inline (patch : DeletePatchInline)
  | artifact (reference : ArtifactRef)

instance : Serialize DeletePatchRef := ⟨fun
  | .inline patch => tag 0 ++ serialize patch
  | .artifact reference => tag 1 ++ serialize reference⟩

/-- effect/data_op.rs:223-263 -/
inductive TabletMutation
  | publishRowset (rowsetId : UInt64) (versionSpan : VersionSpan) (rowsetRef : ArtifactRef)
  | applyPrimaryDelete (keys : List (List UInt8))
  | applyDeletePatch (patch : DeletePatchRef) (deletedRowCount : UInt32)
  | publishCompaction (planId jobId outputRowsetId : UInt64) (outputVersion : VersionSpan)
      (stagedRef outputRef : ArtifactRef) (replacedInputs : List UInt64)
      (retiredInputs : List RetiredRowsetInput)
      (cumulativePointAction : CompactionCumulativePointAction)
  | publishSearchGeneration (publication : SearchGenerationPublication)
      (generationRef : ArtifactRef) (head : SearchGenerationHeadMeta)
  | retireSearchGeneration (definitionId : UInt64)

instance : Serialize TabletMutation := ⟨fun
  | .publishRowset rowsetId versionSpan rowsetRef =>
    tag 0 ++ serialize (rowsetId, versionSpan, rowsetRef)
  | .applyPrimaryDelete keys => tag 1 ++ serialize keys
  | .applyDeletePatch patch deletedRowCount => tag 2 ++ serialize (patch, deletedRowCount)
  | .publishCompaction planId jobId outputRowsetId outputVersion stagedRef outputRef replacedInputs
      retiredInputs cumulativePointAction =>
    tag 3 ++ serialize (planId, jobId, outputRowsetId, outputVersion, stagedRef, outputRef,
      replacedInputs, retiredInputs, cumulativePointAction)
  | .publishSearchGeneration publication generationRef head =>
    tag 4 ++ serialize (publication, generationRef, head)
  | .retireSearchGeneration definitionId => tag 5 ++ serialize definitionId⟩

/-- effect/data_op.rs:217-220 -/
structure TabletApplyOp where
  tabletId : UInt64
  mutations : List TabletMutation

instance : Serialize TabletApplyOp := ⟨fun x => serialize (x.tabletId, x.mutations)⟩

/-- effect/data_op.rs:204-206 -/
inductive StorageCommitOp
  | tablet (op : TabletApplyOp)

instance : Serialize StorageCommitOp := ⟨fun
  | .tablet op => tag 0 ++ serialize op⟩

/-! ## Apply descriptors and deferred tasks -/

/-- effect/staged_artifact.rs:8-12 -/
structure StagingArtifactId where
  txnId : UInt64
  pathComponents : List String

instance : Serialize StagingArtifactId := ⟨fun x => serialize (x.txnId, x.pathComponents)⟩

/-- effect/staged_artifact.rs:23-30 -/
structure BulkLoadUniqueSummary where
  (keyCount duplicateKeyCount : UInt64)
  checksumCrc32c : UInt32
  (minKeyHash maxKeyHash : Option UInt64)

instance : Serialize BulkLoadUniqueSummary := ⟨fun x =>
  serialize (x.keyCount, x.duplicateKeyCount, x.checksumCrc32c, x.minKeyHash, x.maxKeyHash)⟩

/-- effect/staged_artifact.rs:64-76 -/
structure BulkLoadRowsetArtifact where
  tableObject : DdlObjectKey
  (tableId tabletId rowsetId : UInt64)
  staging : StagingArtifactId
  rowsetRef : ArtifactRef
  (rowCount byteSize : UInt64)
  (schemaEpoch physicalSchemaToken : Option UInt64)
  uniqueSummary : BulkLoadUniqueSummary

instance : Serialize BulkLoadRowsetArtifact := ⟨fun x =>
  serialize (x.tableObject, x.tableId, x.tabletId, x.rowsetId, x.staging, x.rowsetRef, x.rowCount,
    x.byteSize, x.schemaEpoch, x.physicalSchemaToken, x.uniqueSummary)⟩

/-- effect/staged_artifact.rs:86-98 -/
structure SearchGenerationBuildArtifact where
  tableObject : DdlObjectKey
  (tableId tabletId definitionId generationId : UInt64)
  buildSnapshotVersion : Int64
  configFingerprint : UInt64
  (stagedRef generationRef : ArtifactRef)

instance : Serialize SearchGenerationBuildArtifact := ⟨fun x =>
  serialize (x.tableObject, x.tableId, x.tabletId, x.definitionId, x.generationId,
    x.buildSnapshotVersion, x.configFingerprint, x.stagedRef, x.generationRef)⟩

/-- effect/staged_artifact.rs:99-109 -/
inductive StagedArtifactDescriptor
  | propertyGraphBuild (object : DdlObjectKey) (staging : StagingArtifactId)
      (schemaFingerprint : String)
  | bulkLoadRowset (artifact : BulkLoadRowsetArtifact)
  | searchGenerationBuild (artifact : SearchGenerationBuildArtifact)

instance : Serialize StagedArtifactDescriptor := ⟨fun
  | .propertyGraphBuild object staging schemaFingerprint =>
    tag 0 ++ serialize (object, staging, schemaFingerprint)
  | .bulkLoadRowset artifact => tag 1 ++ serialize artifact
  | .searchGenerationBuild artifact => tag 2 ++ serialize artifact⟩

/-- effect/runtime_transition.rs:7-29 -/
inductive RuntimeTransitionDescriptor
  | attachIndexState (index : DdlObjectKey) (tableName indexType : String)
      (columnIds : List UInt32) (fulltextConfig : Option String)
  | detachIndexState (index : DdlObjectKey) (tableName indexType : String)
      (columnIds : List UInt32) (fulltextConfig : Option String)
  | registerGraphRuntime (graph : DdlObjectKey)
  | unregisterGraphRuntime (graph : DdlObjectKey)

instance : Serialize RuntimeTransitionDescriptor := ⟨fun
  | .attachIndexState index tableName indexType columnIds fulltextConfig =>
    tag 0 ++ serialize (index, tableName, indexType, columnIds, fulltextConfig)
  | .detachIndexState index tableName indexType columnIds fulltextConfig =>
    tag 1 ++ serialize (index, tableName, indexType, columnIds, fulltextConfig)
  | .registerGraphRuntime graph => tag 2 ++ serialize graph
  | .unregisterGraphRuntime graph => tag 3 ++ serialize graph⟩

/-- effect/cleanup.rs:6-17 -/
inductive CleanupDescriptor
  | shutdownTablet (tabletId : UInt64) (dataDirComponents : List String) (moveToTrash : Bool)
  | removeDirectory (pathComponents : List String) (recursive : Bool)

instance : Serialize CleanupDescriptor := ⟨fun
  | .shutdownTablet tabletId dataDirComponents moveToTrash =>
    tag 0 ++ serialize (tabletId, dataDirComponents, moveToTrash)
  | .removeDirectory pathComponents recursive =>
    tag 1 ++ serialize (pathComponents, recursive)⟩

/-- effect/apply_descriptor.rs:7-12 -/
inductive ApplyDescriptor
  | publishStagedArtifact (descriptor : StagedArtifactDescriptor)
  | runtimeTransition (descriptor : RuntimeTransitionDescriptor)
  | cleanup (descriptor : CleanupDescriptor)

instance : Serialize ApplyDescriptor := ⟨fun
  | .publishStagedArtifact descriptor => tag 0 ++ serialize descriptor
  | .runtimeTransition descriptor => tag 1 ++ serialize descriptor
  | .cleanup descriptor => tag 2 ++ serialize descriptor⟩

/-- effect/post_commit_hook.rs:7-14 -/
structure GraphDmlTableDelta where
  (tableOid inserted deleted updated : UInt64)
  updatedColumns : List UInt32

instance : Serialize GraphDmlTableDelta := ⟨fun x =>
  serialize (x.tableOid, x.inserted, x.deleted, x.updated, x.updatedColumns)⟩

/-- effect/deferred_task.rs:8-20 -/
inductive DeferredTask
  | finalizeIndexState (index : DdlObjectKey) (tableName indexType : String)
      (columnIds : List UInt32) (fulltextConfig : Option String)
  | graphDmlMaintenance (deltas : List GraphDmlTableDelta)

instance : Serialize DeferredTask := ⟨fun
  | .finalizeIndexState index tableName indexType columnIds fulltextConfig =>
    tag 0 ++ serialize (index, tableName, indexType, columnIds, fulltextConfig)
  | .graphDmlMaintenance deltas => tag 1 ++ serialize deltas⟩

end Paro.L1.Journal
