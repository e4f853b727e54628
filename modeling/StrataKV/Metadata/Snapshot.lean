import StrataKV.Lib.OrdMap
import StrataKV.Metadata.StateMachine

/-!
# Snapshots of the state machine

`Snapshot` writes the state into one message and `Restore` reads it back. The message is taken as it
is: protobuf gives back what it was given. `Restore` checks the message before it touches the state,
rebuilds the index of the active operators from the operators, and recomputes the high-water marks.
-/

namespace StrataKV.Metadata

open Std (ExtTreeMap)

structure MetadataSnapshot where
  formatVersion : UInt32 := 0
  revision : UInt64 := 0
  regions : List RegionDescriptor := []
  stores : List StoreDescriptor := []
  regionIdHighWater : UInt64 := 0
  peerIdHighWater : UInt64 := 0
  storeIdHighWater : UInt64 := 0
  bootstrapDigest : Bytes := []
  recentMutations : List MutationRecord := []
  migrations : List ReplicaMigrationStatus := []
  storeHeartbeats : List StoreHeartbeat := []
  balancerConfig : Option AutoBalancerConfig := none
  schedulingOperators : List SchedulingOperator := []

def kSnapshotFormatVersion : UInt32 := 1

/-! ## The checks of a restore -/

/-- The exception that a failed check throws. -/
def require (ok : Bool) (message : String) : Except String Unit :=
  if ok then .ok () else .error message

/-- The map of the entries under their keys, or the exception for an entry that is refused. -/
def collect {κ β : Type} [Ord κ] [Std.TransOrd κ] (key : β → κ) (valid : β → Bool)
    (message : String) (entries : List β) : Except String (ExtTreeMap κ β compare) :=
  match OrdMap.emplaceAll key valid ∅ entries with
  | none => .error message
  | some m => .ok m

namespace MetadataSnapshot

/-- The Regions of a bootstrapped cluster have to form a catalog. -/
def validateRegions (revision : UInt64) (regions : List RegionMetadata) : Except String Unit :=
  if 0 < revision then (regionCatalog regions).map fun _ => () else .ok ()

def validMutation (record : MutationRecord) : Bool := record.mutationId ≠ []

def validMigration (migration : ReplicaMigrationStatus) : Bool :=
  migration.regionId ≠ 0 && migration.sourcePeerId ≠ 0 && migration.targetPeer.peerId ≠ 0

def validHeartbeat (stores : ExtTreeMap UInt64 StoreDescriptor compare)
    (heartbeat : StoreHeartbeat) : Bool :=
  heartbeat.storeId ≠ 0 && heartbeat.sequence ≠ 0 &&
    heartbeat.observedAtMs < heartbeat.expiresAtMs && stores.contains heartbeat.storeId

def validConfig (config : AutoBalancerConfig) : Bool :=
  config.version ≠ 0 && config.evaluationIntervalMs ≠ 0 &&
    config.evaluationIntervalMs ≤ config.heartbeatTimeoutMs && config.replicationFactor ≠ 0 &&
    config.maximumActiveOperators ≠ 0 && config.maximumActivePerStore ≠ 0 &&
    config.maximumActivePerStore ≤ config.maximumActiveOperators

/-- The loop over the operators, which fills the map of the operators and the index of the active
ones. -/
def addOperators (revision : UInt64) : ExtTreeMap Bytes SchedulingOperator compare →
    ExtTreeMap UInt64 Bytes compare → List SchedulingOperator →
      Except String (ExtTreeMap Bytes SchedulingOperator compare × ExtTreeMap UInt64 Bytes compare)
  | operators, active, [] => .ok (operators, active)
  | operators, active, operator :: rest =>
    if operator.operatorId = [] ∨ operator.regionId = 0 ∨ revision < operator.sourceRevision ∨
        operators.contains operator.operatorId then
      .error "invalid scheduling operator in metadata snapshot"
    else
      let operators := operators.insert operator.operatorId operator
      if isTerminal operator.phase then addOperators revision operators active rest
      else if active.contains operator.regionId then
        .error "multiple active operators for one Region in snapshot"
      else
        addOperators revision operators (active.insert operator.regionId operator.operatorId) rest

end MetadataSnapshot

namespace MetadataState

open MetadataSnapshot

/-- `Snapshot()`. The maps are written in the order of their keys. -/
def snapshot (σ : MetadataState) : MetadataSnapshot where
  formatVersion := kSnapshotFormatVersion
  revision := σ.revision
  regions := σ.regions.map toProtoRegion
  stores := σ.stores.toList.map Prod.snd
  regionIdHighWater := σ.regionIdHighWater
  peerIdHighWater := σ.peerIdHighWater
  storeIdHighWater := σ.storeIdHighWater
  bootstrapDigest := σ.bootstrapDigest
  recentMutations := σ.dedupOrder.filterMap fun mutationId => σ.dedup[mutationId]?
  migrations := σ.migrations.toList.map Prod.snd
  storeHeartbeats := σ.storeHeartbeats.toList.map Prod.snd
  balancerConfig := some σ.balancerConfig
  schedulingOperators := σ.schedulingOperators.toList.map Prod.snd

/-- The checks of `Restore`, and the members that it assigns after them. -/
def restored (σ : MetadataState) (snapshot : MetadataSnapshot) : Except String MetadataState := do
  require (snapshot.formatVersion = kSnapshotFormatVersion) "invalid metadata snapshot format"
  let regions ← decodeRegions snapshot.regions
  require (snapshot.revision ≠ 0 || regions.isEmpty)
    "uncommitted metadata snapshot contains Regions"
  validateRegions snapshot.revision regions
  let stores ← collect StoreDescriptor.storeId StoreDescriptor.valid
    "invalid Store in metadata snapshot" snapshot.stores
  require (snapshot.revision = 0 || !snapshot.bootstrapDigest.isEmpty)
    "committed metadata snapshot is missing bootstrap digest"
  require (regions.all fun region => region.peers.all (peerMatches stores))
    "snapshot Region peer does not match a Store descriptor"
  let dedup ← collect MutationRecord.mutationId validMutation
    "invalid mutation record in metadata snapshot" snapshot.recentMutations
  let migrations ← collect ReplicaMigrationStatus.regionId validMigration
    "invalid migration in metadata snapshot" snapshot.migrations
  let heartbeats ← collect StoreHeartbeat.storeId (validHeartbeat stores)
    "invalid Store heartbeat in metadata snapshot" snapshot.storeHeartbeats
  let balancerConfig := snapshot.balancerConfig.getD defaultAutoBalancerConfig
  require (validConfig balancerConfig) "invalid Auto-Balancer configuration in metadata snapshot"
  let (operators, activeOperators) ← addOperators snapshot.revision ∅ ∅ snapshot.schedulingOperators
  return {
    published := σ.published
    regions := regions
    stores := stores
    revision := snapshot.revision
    regionIdHighWater := snapshot.regionIdHighWater
    peerIdHighWater := snapshot.peerIdHighWater
    storeIdHighWater := snapshot.storeIdHighWater
    bootstrapDigest := snapshot.bootstrapDigest
    migrations := migrations
    storeHeartbeats := heartbeats
    balancerConfig := balancerConfig
    schedulingOperators := operators
    activeOperatorByRegion := activeOperators
    dedup := dedup
    dedupOrder := snapshot.recentMutations.map MutationRecord.mutationId }

/-- `Restore`: the error, if there is one, and the state. -/
def restore (σ : MetadataState) (snapshot : MetadataSnapshot) : Option String × MetadataState :=
  match σ.restored snapshot with
  | .error message => (some message, σ)
  | .ok τ =>
    let (result, τ) := τ.recomputeHighWater.publish accept
    (if result.error = .ok then none else some result.message, τ)

end MetadataState

end StrataKV.Metadata
