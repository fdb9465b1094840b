import Paro.Core.MapM
import Paro.L1Encoding.JournalRecord

/-!
# The size estimate of a commit is an upper bound

The metadata of a record grows with each operation it describes. `JournalChangeDescriptor.items`
measures what a descriptor holds beyond its empty form. Each catalog operation and each apply
descriptor adds at most its own encoded size, variant by variant, and each storage operation
at most one tablet id and one artifact descriptor per mutation; deduplication only takes away.
The estimate adds exactly these amounts to the size of a record with empty metadata
(crates/journal/src/codec.rs:203-264), and rewriting versions and commit id changes no size.

The tightest variant is a `RemoveDirectory` cleanup without path components: its encoding has
the 17 bytes of the artifact descriptor it adds.
-/
namespace Paro.L3.CommitSizeBound
open Bincode L1.Journal List JournalChangeDescriptor PreparedCommitPlan
open Serialize (serialize)

/-! ## What an operation adds -/

def items (d : JournalChangeDescriptor) : Nat :=
  itemsSize d.catalogObjects + itemsSize d.objectIds + itemsSize d.tabletIds +
    itemsSize d.artifacts + itemsSize d.schemaDependencies

theorem itemsSize_pushUnique_le {α : Type} [DecidableEq α] [Serialize α] (l : List α) (a : α) :
    itemsSize (pushUnique l a) ≤ itemsSize l + (serialize a).length := by
  unfold pushUnique
  split
  · omega
  · simp

theorem itemsSize_pushNonzeroU64_le (l : List UInt64) (x : UInt64) :
    itemsSize (pushNonzeroU64 l x) ≤ itemsSize l + 8 := by
  unfold pushNonzeroU64
  split
  · simp
  · omega

variable (d : JournalChangeDescriptor)

theorem items_recordObjectId (x : UInt64) : items (d.recordObjectId x) ≤ items d + 8 := by
  have h := itemsSize_pushNonzeroU64_le d.objectIds x
  simp only [items, recordObjectId]
  omega

theorem items_recordTabletId (x : UInt64) : items (d.recordTabletId x) ≤ items d + 8 := by
  have h := itemsSize_pushNonzeroU64_le d.tabletIds x
  simp only [items, recordTabletId]
  omega

theorem items_recordCatalogObject (key : DdlObjectKey) :
    items (d.recordCatalogObject key) ≤ items d + (serialize key).length := by
  have h := itemsSize_pushUnique_le d.catalogObjects key
  simp only [items, recordCatalogObject]
  omega

theorem items_recordArtifact (a : JournalArtifactDescriptor) :
    items (d.recordArtifact a) = items d + (serialize a).length := by
  simp only [items, recordArtifact, itemsSize_append, itemsSize_cons, itemsSize_nil]
  omega

theorem length_artifact_some (x id : UInt64) (k : JournalArtifactKind) (c : UInt32) :
    (serialize (⟨some x, id, k, c⟩ : JournalArtifactDescriptor)).length = 25 := by
  simp [serialize]

theorem length_artifact_none (id : UInt64) (k : JournalArtifactKind) (c : UInt32) :
    (serialize (⟨none, id, k, c⟩ : JournalArtifactDescriptor)).length = 17 := by
  simp [serialize]

/-- A dependency of a view is longer than the id and the schema dependency it adds. -/
theorem items_recordDependencyRef (x : DdlDependencyRef) :
    items (d.recordDependencyRef x) ≤ items d + (serialize x).length := by
  have h1 := itemsSize_pushNonzeroU64_le d.objectIds x.object.objectId
  have h2 := itemsSize_pushUnique_le d.schemaDependencies ⟨x.object.schemaId, x.object.schemaName, none, none⟩
  simp only [items, recordDependencyRef]
  simp [serialize] at h2 ⊢
  omega

theorem items_recordStorage (x : DdlStorageDescriptor) :
    items (((d.recordStorageSchemaDependency x).recordObjectId x.tableId).recordTabletId x.tabletId)
      ≤ items d + (serialize x).length := by
  have h1 := itemsSize_pushUnique_le d.schemaDependencies
    ⟨some x.schemaId, none, some x.schemaVersion, some x.schemaHash⟩
  have h2 := items_recordObjectId (d.recordStorageSchemaDependency x) x.tableId
  have h3 := items_recordTabletId ((d.recordStorageSchemaDependency x).recordObjectId x.tableId) x.tabletId
  have h0 : items (d.recordStorageSchemaDependency x) ≤ items d + 20 := by
    simp only [items, recordStorageSchemaDependency]
    simp [serialize] at h1 ⊢
    omega
  have hx : 44 ≤ (serialize x).length := by
    simp [serialize]
    omega
  omega

theorem items_recordTable {α : Type} [Serialize α] {f : α → UInt64} (hx : ∀ x : α, 8 ≤ (serialize x).length)
    (d : JournalChangeDescriptor) (x : α) : items (d.recordObjectId (f x)) ≤ items d + (serialize x).length :=
  (items_recordObjectId d _).trans (Nat.add_le_add_left (hx x) _)

variable (change : DdlChange)

/-- The id of the object a change creates. -/
theorem items_recordChangeObjectId :
    items ((ddlChangeObjectId change).elim d d.recordObjectId) ≤ items d + 8 := by
  cases ddlChangeObjectId change with
  | none => exact Nat.le_add_right _ _
  | some x => exact items_recordObjectId d x

/-- A view is encoded with its id and its dependencies. -/
theorem itemsSize_dependencies_le (p : CreateViewPayload) :
    8 + itemsSize p.dependencies ≤ (serialize (DdlChange.createView p)).length := by
  have hchange : serialize (DdlChange.createView p) = tag 4 ++ serialize p := rfl
  have hp : 8 + itemsSize p.dependencies ≤ (serialize p).length := by
    unfold serialize instSerializeCreateViewPayload
    simp only [length_prod, length_u64, length_list]
    omega
  rw [hchange, length_append]
  omega

/-- A property graph is encoded with its id and its tables. -/
theorem itemsSize_tables_le (p : CreatePropertyGraphPayload) : 8 + itemsSize p.vertexTables + itemsSize p.edgeTables
      ≤ (serialize (DdlChange.createPropertyGraph p)).length := by
  have hchange : serialize (DdlChange.createPropertyGraph p) = tag 8 ++ serialize p := rfl
  have hp : 8 + itemsSize p.vertexTables + itemsSize p.edgeTables ≤ (serialize p).length := by
    unfold serialize instSerializeCreatePropertyGraphPayload
    simp only [length_prod, length_u64, length_list]
    omega
  rw [hchange, length_append]
  omega

/-- A change adds at most its own encoded size. -/
theorem items_recordChange :
    items (((ddlChangeObjectId change).elim d d.recordObjectId).recordChangePayload change)
      ≤ items d + (serialize change).length := by
  have hid := items_recordChangeObjectId d change
  generalize hd : (ddlChangeObjectId change).elim d d.recordObjectId = d1 at hid ⊢
  cases change with
  | createTable p =>
    obtain ⟨objectId, columns, constraints, ifNotExists, storage⟩ := p
    cases storage with
    | none =>
      refine hid.trans (Nat.add_le_add_left ?_ _)
      simp [serialize]
      omega
    | some storage =>
      have hs := items_recordStorage d1 storage
      simp only [recordChangePayload, Option.elim_some]
      simp [serialize] at hs ⊢
      omega
  | createView p =>
    have hv := foldl_le_itemsSize items_recordDependencyRef p.dependencies d1
    have hp := itemsSize_dependencies_le p
    simp only [recordChangePayload]
    omega
  | createPropertyGraph p =>
    have hv := foldl_le_itemsSize (items_recordTable (f := (·.tableOid)) (by simp [serialize])) p.vertexTables d1
    have he := foldl_le_itemsSize (items_recordTable (f := (·.tableOid)) (by simp [serialize])) p.edgeTables
      (p.vertexTables.foldl (fun d vertex => d.recordObjectId vertex.tableOid) d1)
    have hp := itemsSize_tables_le p
    simp only [recordChangePayload]
    omega
  | createSchema p | createSequence p =>
    refine hid.trans (Nat.add_le_add_left ?_ _)
    simp [serialize]
  | createIndex p | createRoutine p =>
    refine hid.trans (Nat.add_le_add_left ?_ _)
    simp [serialize]
    omega
  | dropSchema _ | dropTable _ | dropView _ | dropIndex _ | dropPropertyGraph _ | dropSequence _
  | dropRoutine _ | alterEntry _ =>
    subst hd
    exact Nat.le_add_right _ _

theorem items_recordCatalogChange (op : CatalogTxnOp) :
    items (d.recordCatalogChange op.change) ≤ items d + (serialize op).length := by
  have h1 := items_recordCatalogObject d op.change.key
  have h2 := items_recordChange (d.recordCatalogObject op.change.key) op.change.change
  have hlen : (serialize op).length = (serialize op.change.key).length + (serialize op.change.change).length :=
    length_append
  simp only [recordCatalogChange]
  omega

variable (crc32c : List UInt8 → UInt32)

/-- A storage operation adds a tablet id and an artifact descriptor per mutation. -/
theorem items_recordStorageOp (op : TabletApplyOp) :
    items (d.recordStorageOp crc32c (.tablet op)) ≤ items d + (8 + 25 * op.mutations.length) := by
  have h1 := items_recordTabletId d op.tabletId
  have h2 : ∀ (ms : List TabletMutation) (d : JournalChangeDescriptor),
      items (ms.foldl (fun d mutation => d.recordArtifact
        ⟨some op.tabletId, mutation.stableArtifactId, .fromMutation mutation,
          crc32c (serialize mutation)⟩) d) = items d + 25 * ms.length := by
    intro ms
    induction ms with
    | nil => intro d; rfl
    | cons m ms ih =>
      intro d
      rw [foldl_cons, ih, items_recordArtifact, length_artifact_some, length_cons]
      omega
  have h3 := h2 op.mutations (d.recordTabletId op.tabletId)
  simp only [recordStorageOp]
  omega

theorem items_recordStorageOps (ops : List StorageCommitOp) (d : JournalChangeDescriptor) :
    items (ops.foldl (recordStorageOp crc32c) d) ≤ items d + (8 * ops.length + 25 * mutationCount ops) := by
  induction ops generalizing d with
  | nil => exact le_rfl
  | cons op ops ih =>
    obtain ⟨op⟩ := op
    have h1 := ih (d.recordStorageOp crc32c (.tablet op))
    have h2 := items_recordStorageOp d crc32c op
    have hc : mutationCount (.tablet op :: ops) = op.mutations.length + mutationCount ops := rfl
    rw [foldl_cons, hc, length_cons]
    omega

/-- A published artifact adds its object, two ids and one artifact descriptor. -/
theorem items_recordPublished (key : DdlObjectKey) (x y id : UInt64) (k : JournalArtifactKind) (c : UInt32) :
    items ((((d.recordCatalogObject key).recordObjectId x).recordTabletId y).recordArtifact
      ⟨some y, id, k, c⟩) ≤ items d + ((serialize key).length + 41) := by
  have h1 := items_recordCatalogObject d key
  have h2 := items_recordObjectId (d.recordCatalogObject key) x
  have h3 := items_recordTabletId ((d.recordCatalogObject key).recordObjectId x) y
  rw [items_recordArtifact, length_artifact_some]
  omega

/-- An apply descriptor adds at most its own encoded size. -/
theorem items_recordApplyDescriptor (descriptor : ApplyDescriptor) :
    items (d.recordApplyDescriptor crc32c descriptor) ≤ items d + (serialize descriptor).length := by
  cases descriptor with
  | publishStagedArtifact descriptor =>
    cases descriptor with
    | propertyGraphBuild object staging fingerprint =>
      have h := items_recordCatalogObject d object
      simp only [recordApplyDescriptor]
      rw [items_recordArtifact, length_artifact_none]
      simp [serialize] at h ⊢
      omega
    | bulkLoadRowset artifact | searchGenerationBuild artifact =>
      refine (items_recordPublished d _ _ _ _ _ _).trans (Nat.add_le_add_left ?_ _)
      simp [serialize]
      omega
  | runtimeTransition descriptor | cleanup descriptor =>
    simp only [recordApplyDescriptor]
    rw [items_recordArtifact, length_artifact_none]
    cases descriptor <;> simp [serialize] <;> omega

/-! ## The metadata -/

theorem itemsSize_sortDedup_le (l : List UInt64) : itemsSize (sortDedup (· ≤ ·) l) ≤ itemsSize l := by
  rw [itemsSize_eq_mul length_u64, itemsSize_eq_mul length_u64]
  exact Nat.mul_le_mul_left 8 (length_sortDedup_le _ l)

/-- What the metadata lists is covered by the encoded catalog operations and apply
descriptors and by the fixed amounts per storage operation and mutation. -/
theorem items_fromParts (catalogOps : List CatalogTxnOp)
    (storageOps : List StorageCommitOp) (applyDescriptors : List ApplyDescriptor) :
    items (.fromParts crc32c catalogOps storageOps applyDescriptors) ≤
      itemsSize catalogOps + (8 * storageOps.length + 25 * mutationCount storageOps) + itemsSize applyDescriptors := by
  let d1 := catalogOps.foldl (fun d op => d.recordCatalogChange op.change)
    ({} : JournalChangeDescriptor)
  let d2 := storageOps.foldl (recordStorageOp crc32c) d1
  let d3 := applyDescriptors.foldl (recordApplyDescriptor crc32c) d2
  have h1 : items d1 ≤ 0 + itemsSize catalogOps := foldl_le_itemsSize items_recordCatalogChange catalogOps {}
  have h2 : items d2 ≤ items d1 + _ := items_recordStorageOps crc32c storageOps d1
  have h3 : items d3 ≤ items d2 + itemsSize applyDescriptors :=
    foldl_le_itemsSize (fun d => items_recordApplyDescriptor d crc32c) applyDescriptors d2
  have ho := itemsSize_sortDedup_le d3.objectIds
  have ht := itemsSize_sortDedup_le d3.tabletIds
  have hle : items (.fromParts crc32c catalogOps storageOps applyDescriptors) ≤ items d3 := by
    show itemsSize d3.catalogObjects + itemsSize (sortDedup (· ≤ ·) d3.objectIds) +
      itemsSize (sortDedup (· ≤ ·) d3.tabletIds) + itemsSize d3.artifacts +
      itemsSize d3.schemaDependencies ≤ items d3
    unfold items
    omega
  omega

/-- Metadata has a fixed size and what it lists. -/
theorem size_metadata (m : JournalRecordMetadata) : size m = 94 + items m.change := by
  have hk : (serialize m.recordKind).length = 4 := length_tag _
  have hlen : size m = 2 + 2 + (serialize m.recordKind).length + (serialize m.cdc).length +
      (serialize m.change).length + (serialize m.replay).length := by
    unfold size
    show (serialize (m.metadataVersion, m.participantDescriptorVersion, m.recordKind, m.cdc,
      m.change, m.replay)).length = _
    simp only [length_prod, length_u16]
    omega
  have hcdc : (serialize m.cdc).length = 10 := by simp [serialize]
  have hreplay : (serialize m.replay).length = 36 := by simp [serialize]
  have hchange : (serialize m.change).length = 40 + items m.change := by
    show (serialize (m.change.catalogObjects, m.change.objectIds, m.change.tabletIds,
      m.change.artifacts, m.change.schemaDependencies)).length = _
    simp only [length_prod, length_list, items]
    omega
  omega

/-! ## The record -/

theorem size_commit (r : CommitRecord) : size (JournalRecord.commit r) = 62 + size r.metadata +
    itemsSize r.catalogOps + itemsSize r.storageOps + itemsSize r.applyDescriptors +
    itemsSize r.deferredTasks := by
  unfold size
  show (tag 0 ++ serialize (r.recordVersion, r.metadata, r.txnId, r.startTime, r.commitId,
    r.catalogOps, r.storageOps, r.applyDescriptors, r.deferredTasks)).length = _
  simp only [length_append, length_tag, length_prod, length_u16, length_u64, length_list]
  omega

variable (v : Int64)

/-- A version span has one size, whatever the versions. -/
theorem length_rewriteVersion (m : TabletMutation) :
    (serialize (m.rewriteVersion v)).length = (serialize m).length := by
  cases m with
  | publishRowset rowsetId versionSpan rowsetRef => simp [TabletMutation.rewriteVersion, serialize]
  | _ => rfl

theorem length_rewriteOp (op : StorageCommitOp) :
    (serialize (op.rewriteVersion v)).length = (serialize op).length := by
  obtain ⟨op⟩ := op
  show (tag 0 ++ serialize (op.tabletId, op.mutations.map (TabletMutation.rewriteVersion v))).length =
    (tag 0 ++ serialize (op.tabletId, op.mutations)).length
  simp [length_list, itemsSize_map_eq (length_rewriteVersion v)]

theorem mutationCount_rewrite (ops : List StorageCommitOp) :
    mutationCount (ops.map (StorageCommitOp.rewriteVersion v)) = mutationCount ops := by
  unfold mutationCount
  rw [map_map]
  congr 1
  apply map_congr_left
  rintro ⟨op⟩ -
  simp [StorageCommitOp.rewriteVersion]

/-! ## The estimate -/

/-- The bound that the estimate computes when nothing overflows. -/
def frameBound (plan : PreparedCommitPlan) : Nat :=
  size plan.emptyMetadataRecord + ((8 + itemsSize plan.catalogOps) +
    (8 + itemsSize plan.applyDescriptors) + 8 * plan.storageOps.length +
    25 * mutationCount plan.storageOps) + journalFrameHeaderSize

variable {v w b : Nat} {record : JournalRecord}

theorem checkedU64_eq_ok : checkedU64 v = .ok w ↔ v = w ∧ v ≤ u64Max := by
  unfold checkedU64
  split
  · rename_i h
    simp [h]
  · rename_i h
    simp [h]

/-- A checked sum is the sum, unless it overflows. -/
theorem checkedSum_eq_ok {values : List Nat} : checkedSum values = .ok w ↔ values.sum = w ∧ values.sum ≤ u64Max := by
  have hgen : ∀ (values : List Nat) (acc : Nat), acc ≤ u64Max →
      (values.foldlM (fun sum value => checkedU64 (sum + value)) acc = .ok w ↔
        acc + values.sum = w ∧ acc + values.sum ≤ u64Max) := by
    intro values
    induction values with
    | nil =>
      intro acc hacc
      simp [pure, Except.pure, hacc]
    | cons v values ih =>
      intro acc hacc
      simp only [foldlM_cons, bind_eq_ok, checkedU64_eq_ok, sum_cons, ← Nat.add_assoc]
      constructor
      · rintro ⟨_, ⟨rfl, hv⟩, h⟩
        exact (ih _ hv).1 h
      · rintro ⟨hw, h⟩
        have hv : acc + v ≤ u64Max := by omega
        exact ⟨_, ⟨rfl, hv⟩, (ih _ hv).2 ⟨hw, h⟩⟩
  unfold checkedSum
  simpa using hgen values 0 (Nat.zero_le _)

theorem encodedFrameSizeUpperBound_eq_ok :
    encodedFrameSizeUpperBound v = .ok b ↔ v + journalFrameHeaderSize = b ∧ v + journalFrameHeaderSize ≤ u32Max := by
  have hmax : u32Max < u64Max := by decide
  unfold encodedFrameSizeUpperBound
  simp only [bind_eq_ok, checkedU64_eq_ok]
  constructor
  · rintro ⟨_, ⟨rfl, -⟩, h⟩
    split at h
    · rename_i hle
      exact ⟨Except.ok.inj h, hle⟩
    · cases h
  · rintro ⟨rfl, hle⟩
    exact ⟨_, ⟨rfl, by omega⟩, if_pos hle⟩

variable (plan : PreparedCommitPlan)

/-- The slack for the metadata, as the source adds it up. -/
theorem metadataSizeUpperBound_eq_ok {base : Nat} : metadataSizeUpperBound plan base = .ok w ↔
      base + ((8 + itemsSize plan.catalogOps) + (8 + itemsSize plan.applyDescriptors) +
        8 * plan.storageOps.length + 25 * mutationCount plan.storageOps) = w ∧ w ≤ u64Max := by
  have hcat : size plan.catalogOps = 8 + itemsSize plan.catalogOps := length_list _
  have happ : size plan.applyDescriptors = 8 + itemsSize plan.applyDescriptors := length_list _
  have hid : size (0 : UInt64) = 8 := length_u64 _
  have hart : size (⟨some (UInt64.ofNat u64Max), UInt64.ofNat u64Max, .applyDescriptor,
      UInt32.ofNat u32Max⟩ : JournalArtifactDescriptor) = 25 := length_artifact_some ..
  have hmax : 25 ≤ u64Max := by decide
  unfold metadataSizeUpperBound serializedSizeUpperBound checkedProduct
  simp only [bind_eq_ok, checkedU64_eq_ok, checkedSum_eq_ok, hcat, happ, hid, hart, sum_cons, sum_nil]
  constructor
  · rintro ⟨_, ⟨rfl, -⟩, _, ⟨rfl, -⟩, _, ⟨rfl, -⟩, _, ⟨rfl, -⟩, _, ⟨rfl, -⟩, _, ⟨rfl, -⟩, hw, hle⟩
    omega
  · rintro ⟨rfl, hle⟩
    exact ⟨_, ⟨rfl, by omega⟩, _, ⟨rfl, by omega⟩, _, ⟨rfl, by omega⟩, _, ⟨rfl, hmax⟩,
      _, ⟨rfl, by omega⟩, _, ⟨rfl, by omega⟩, by omega, by omega⟩

/-- The estimate succeeds exactly when the bound fits a `u32`, and then it is the bound. -/
theorem upperBound_eq_ok :
    encodedSizeUpperBoundForPlan plan = .ok b ↔ frameBound plan = b ∧ frameBound plan ≤ u32Max := by
  have hbase : size ({} : JournalRecordMetadata) = 94 := size_metadata {}
  have hrecord : 94 ≤ size plan.emptyMetadataRecord := by
    unfold emptyMetadataRecord
    rw [size_commit, hbase]
    omega
  have hmax : u32Max < u64Max := by decide
  unfold encodedSizeUpperBoundForPlan serializedSizeUpperBound frameBound
  simp only [bind_eq_ok, checkedU64_eq_ok, metadataSizeUpperBound_eq_ok, encodedFrameSizeUpperBound_eq_ok, hbase]
  constructor
  · rintro ⟨_, ⟨rfl, -⟩, _, ⟨rfl, -⟩, _, ⟨rfl, -⟩, _, ⟨rfl, -⟩, hb, hle⟩
    omega
  · rintro ⟨hb, hle⟩
    exact ⟨_, ⟨rfl, by omega⟩, _, ⟨rfl, by omega⟩, _, ⟨rfl, by omega⟩, _, ⟨rfl, by omega⟩, by omega, by omega⟩

theorem upperBound_eq_error {e : CodecSizeOverflow}
    (h : encodedSizeUpperBoundForPlan plan = .error e) : u32Max < frameBound plan := by
  by_contra hle
  have hok := (upperBound_eq_ok plan).2 ⟨rfl, Nat.le_of_not_lt hle⟩
  rw [h] at hok
  cases hok

/-! ## The bound -/

/-- The record of a plan encodes to at most the bound. -/
theorem size_intoRecord_le {plan : PreparedCommitPlan}
    {commitId : UInt64} {record : CommitRecord} (h : plan.intoRecord crc32c commitId = some record) :
    journalFrameHeaderSize + size (JournalRecord.commit record) ≤ frameBound plan := by
  obtain ⟨storageOps, hrw, rfl⟩ := Option.map_eq_some_iff.1 h
  unfold rewriteRowsetVersions at hrw
  split at hrw
  · obtain rfl := Option.some.inj hrw
    have hsize := itemsSize_map_eq (length_rewriteOp commitId.toInt64) plan.storageOps
    have hcount := mutationCount_rewrite commitId.toInt64 plan.storageOps
    have hitems := items_fromParts crc32c plan.catalogOps
      (plan.storageOps.map (StorageCommitOp.rewriteVersion commitId.toInt64)) plan.applyDescriptors
    have hbase : size ({} : JournalRecordMetadata) = 94 := size_metadata {}
    rw [hcount, length_map] at hitems
    unfold frameBound emptyMetadataRecord
    rw [size_commit, size_commit, size_metadata, hbase]
    simp only [JournalRecordMetadata.fromParts, hsize]
    omega
  · cases hrw

theorem length_encode (h : JournalFrameHeader) : h.encode.length = journalFrameHeaderSize := by
  simp [JournalFrameHeader.encode, journalFrameHeaderSize]

theorem length_encodeRecord {crc32c : List UInt8 → UInt32} {lsn : UInt64} {frame : List UInt8}
    (h : encodeRecord crc32c record lsn = .ok frame) : frame.length = journalFrameHeaderSize + size record := by
  unfold encodeRecord at h
  dsimp only at h
  split at h
  · cases h
  split at h
  · cases h
  split at h
  · cases h
  obtain rfl := Except.ok.inj h
  rw [length_append, length_encode]
  rfl

theorem encodeRecord_eq_ok (lsn : UInt64) (h : journalFrameHeaderSize + size record ≤ u32Max) :
    ∃ frame, encodeRecord crc32c record lsn = .ok frame := by
  have hmax : u32Max < u64Max := by decide
  have hsize : size record = (serialize record).length := rfl
  unfold encodeRecord
  rw [if_neg (by omega), if_neg (by omega), if_neg (by omega)]
  exact ⟨_, rfl⟩

/-- **The estimate is an upper bound.** A plan with a commit id below `2 ^ 63` has a record.
When the record encodes to a frame, the estimate is at least the frame's length, or it is
refused because the bound does not fit a `u32`. -/
theorem commit_size_upper_bound (crc32c : List UInt8 → UInt32) (plan : PreparedCommitPlan)
    (commitId lsn : UInt64) (hid : commitId.toNat < 2 ^ 63) :
    ∃ record, plan.intoRecord crc32c commitId = some record ∧
      ∀ frame, encodeRecord crc32c (.commit record) lsn = .ok frame →
        (∃ b, encodedSizeUpperBoundForPlan plan = .ok b ∧ frame.length ≤ b) ∨
        (∃ e, encodedSizeUpperBoundForPlan plan = .error e ∧ u32Max < frameBound plan) := by
  have hsome : ∃ record, plan.intoRecord crc32c commitId = some record := by
    rw [intoRecord, rewriteRowsetVersions, if_pos hid]
    exact ⟨_, rfl⟩
  obtain ⟨record, hrecord⟩ := hsome
  refine ⟨record, hrecord, fun frame hframe => ?_⟩
  have hle := size_intoRecord_le crc32c hrecord
  have hlen := length_encodeRecord hframe
  cases hu : encodedSizeUpperBoundForPlan plan with
  | ok b =>
    obtain ⟨rfl, -⟩ := (upperBound_eq_ok plan).1 hu
    exact .inl ⟨_, rfl, by omega⟩
  | error e => exact .inr ⟨e, rfl, upperBound_eq_error plan hu⟩

def tightPlan : PreparedCommitPlan :=
  ⟨7, 11, [], [], [.cleanup (.removeDirectory [] true)], []⟩

theorem frameBound_tightPlan : frameBound tightPlan = 224 := by
  have hbase : size ({} : JournalRecordMetadata) = 94 := size_metadata {}
  unfold frameBound emptyMetadataRecord
  rw [size_commit, hbase]
  simp [tightPlan, mutationCount, serialize, journalFrameHeaderSize]

theorem commit_size_upper_bound_tight : ∃ record frame b,
    tightPlan.intoRecord (fun _ => 0) 42 = some record ∧
    encodeRecord (fun _ => 0) (.commit record) 1 = .ok frame ∧
    encodedSizeUpperBoundForPlan tightPlan = .ok b ∧ frame.length ≤ b := by
  obtain ⟨record, hrecord, hbound⟩ := commit_size_upper_bound (fun _ => 0) tightPlan 42 1 (by decide)
  have hfit : frameBound tightPlan ≤ u32Max := by rw [frameBound_tightPlan]; decide
  obtain ⟨frame, hframe⟩ := encodeRecord_eq_ok (fun _ => 0) 1 ((size_intoRecord_le _ hrecord).trans hfit)
  rcases hbound frame hframe with ⟨b, hb, hle⟩ | ⟨e, -, hover⟩
  · exact ⟨record, frame, b, hrecord, hframe, hb, hle⟩
  · omega

end Paro.L3.CommitSizeBound
