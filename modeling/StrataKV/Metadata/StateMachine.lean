import Std.Data.ExtTreeMap
import StrataKV.Metadata.Region

/-!
# The metadata state machine

The model of `metadata_state_machine.cpp`. A command either answers with an error or changes the
state; the handlers throw exceptions, which `Apply` turns into an answer, and what a handler had
changed before it threw stays changed. `publish` is where this matters: it validates the Regions
once more and may throw at the end of a handler.
-/

namespace StrataKV.Metadata

open Std (ExtTreeMap)

/-! ## Commands and answers -/

inductive MetadataErrorCode
  | ok
  | invalidArgument
  | revisionMismatch
  | alreadyBootstrapped
  | notFound
  | conflict
  deriving DecidableEq

/-- Enumerations of the protocol are open: a number that has no name is passed on as it is. -/
inductive IdNamespace
  | region
  | peer
  | store
  | unknown (value : Int32)
  deriving DecidableEq

inductive ReplicaMigrationPhase
  | notStarted
  | preparingTarget
  | catchingUp
  | promoted
  | retiringSource
  | complete
  | cancelled
  deriving DecidableEq

structure ReplicaMigrationStatus where
  regionId : UInt64 := 0
  sourcePeerId : UInt64 := 0
  fromStoreId : UInt64 := 0
  targetPeer : PeerDescriptor := {}
  phase : ReplicaMigrationPhase := .notStarted
  mutationId : Bytes := []
  deriving DecidableEq

structure RegionSchedulingObservation where
  regionId : UInt64 := 0
  peerId : UInt64 := 0
  epoch : RegionEpoch := ⟨0, 0⟩
  approximateBytes : UInt64 := 0
  requestCount : UInt64 := 0
  isLeader : Bool := false
  topologyOperationActive : Bool := false
  splitCandidateGeneration : UInt64 := 0
  deriving DecidableEq

structure StoreHeartbeat where
  storeId : UInt64 := 0
  sequence : UInt64 := 0
  observedAtMs : UInt64 := 0
  expiresAtMs : UInt64 := 0
  capacityBytes : UInt64 := 0
  availableBytes : UInt64 := 0
  requestCount : UInt64 := 0
  regions : List RegionSchedulingObservation := []
  deriving DecidableEq

/-- A `double`, of which only comparisons with numbers are used. -/
inductive Double
  | nan
  | negInf
  | posInf
  | finite (value : ℚ)
  deriving DecidableEq

namespace Double

def le (d : Double) (q : ℚ) : Bool :=
  match d with
  | finite value => value ≤ q
  | negInf => true
  | posInf | nan => false

def lt (d : Double) (q : ℚ) : Bool :=
  match d with
  | finite value => value < q
  | negInf => true
  | posInf | nan => false

def gt (d : Double) (q : ℚ) : Bool :=
  match d with
  | finite value => q < value
  | posInf => true
  | negInf | nan => false

end Double

structure AutoBalancerConfig where
  enabled : Bool := false
  paused : Bool := false
  version : UInt64 := 0
  evaluationIntervalMs : UInt64 := 0
  heartbeatTimeoutMs : UInt64 := 0
  minimumFreeBytes : UInt64 := 0
  maximumDiskUsedRatio : Double := .finite 0
  replicationFactor : UInt32 := 0
  imbalanceThreshold : Double := .finite 0
  splitSizeBytes : UInt64 := 0
  splitRequestThreshold : UInt64 := 0
  splitConsecutiveWindows : UInt32 := 0
  regionCooldownMs : UInt64 := 0
  maximumActiveOperators : UInt32 := 0
  maximumActivePerStore : UInt32 := 0
  deriving DecidableEq

def defaultAutoBalancerConfig : AutoBalancerConfig where
  enabled := true
  paused := false
  version := 1
  evaluationIntervalMs := 5000
  heartbeatTimeoutMs := 15000
  minimumFreeBytes := 64 * 1024 * 1024
  maximumDiskUsedRatio := .finite (9 / 10)
  replicationFactor := 3
  imbalanceThreshold := .finite (15 / 100)
  splitSizeBytes := 512 * 1024 * 1024
  splitRequestThreshold := 10000
  splitConsecutiveWindows := 3
  regionCooldownMs := 60000
  maximumActiveOperators := 1
  maximumActivePerStore := 1

inductive SchedulingOperatorType
  | movePeer
  | splitRegion
  | unknown (value : Int32)
  deriving DecidableEq

inductive SchedulingOperatorPhase
  | pending
  | dispatching
  | waiting
  | succeeded
  | cancelling
  | cancelled
  | failed
  | unknown (value : Int32)
  deriving DecidableEq

structure SchedulingOperator where
  operatorId : Bytes := []
  type : SchedulingOperatorType := .movePeer
  regionId : UInt64 := 0
  sourceRevision : UInt64 := 0
  regionEpoch : Option RegionEpoch := none
  sourceStoreId : UInt64 := 0
  targetStoreId : UInt64 := 0
  splitCandidateGeneration : UInt64 := 0
  phase : SchedulingOperatorPhase := .pending
  attempts : UInt32 := 0
  deadlineMs : UInt64 := 0
  lastError : Bytes := []
  cancelRequested : Bool := false
  irreversible : Bool := false
  createdAtMs : UInt64 := 0
  updatedAtMs : UInt64 := 0
  deriving DecidableEq

/-- The operations of a command; a submessage that may be absent is an option. -/
inductive Operation
  | bootstrap (configDigest : Bytes) (regions : List RegionDescriptor)
      (stores : List StoreDescriptor)
  | replaceRegions (removeRegionIds : List UInt64) (addRegions : List RegionDescriptor)
  | allocateIds (namespace_ : IdNamespace) (count : UInt64)
  | putStore (store : StoreDescriptor)
  | prepareSplit (regionId : UInt64) (splitKey : Bytes) (expectedEpoch : Option RegionEpoch)
  | commitSplit (regionId : UInt64)
  | ackSplit (childRegionIds : List UInt64)
  | prepareMovePeer (regionId fromStoreId toStoreId : UInt64) (expectedEpoch : Option RegionEpoch)
  | commitMovePeer (regionId newPeerId : UInt64) (expectedEpoch : Option RegionEpoch)
  | cancelMovePeer (regionId newPeerId : UInt64)
  | reportStoreHeartbeat (heartbeat : StoreHeartbeat)
  | updateAutoBalancerConfig (config : AutoBalancerConfig)
  | createSchedulingOperator (requested : SchedulingOperator)
  | updateSchedulingOperator (operatorId : Bytes) (expectedPhase phase : SchedulingOperatorPhase)
      (attempts : UInt32) (lastError : Bytes) (irreversible : Bool) (updatedAtMs : UInt64)
  | cancelSchedulingOperator (operatorId : Bytes) (updatedAtMs : UInt64)
  | notSet

structure MetadataCommand where
  mutationId : Bytes
  expectedRevision : UInt64
  operation : Operation

structure MetadataCommandResult where
  error : MetadataErrorCode
  message : String := ""
  revision : UInt64
  firstAllocatedId : UInt64 := 0
  allocatedCount : UInt64 := 0
  regions : List RegionDescriptor := []
  migration : Option ReplicaMigrationStatus := none
  heartbeat : Option StoreHeartbeat := none
  balancerConfig : Option AutoBalancerConfig := none
  operator : Option SchedulingOperator := none

structure MutationRecord where
  mutationId : Bytes
  result : MetadataCommandResult
  appliedRevision : UInt64

/-! ## State -/

structure MetadataView where
  revision : UInt64 := 0
  catalog : Option (List RegionMetadata) := none
  stores : ExtTreeMap UInt64 StoreDescriptor compare := ∅
  regionIdHighWater : UInt64 := 0
  peerIdHighWater : UInt64 := 0
  storeIdHighWater : UInt64 := 0
  bootstrapDigest : Bytes := []
  migrations : ExtTreeMap UInt64 ReplicaMigrationStatus compare := ∅
  storeHeartbeats : ExtTreeMap UInt64 StoreHeartbeat compare := ∅
  balancerConfig : AutoBalancerConfig := {}
  schedulingOperators : ExtTreeMap Bytes SchedulingOperator compare := ∅
  activeOperatorByRegion : ExtTreeMap UInt64 Bytes compare := ∅

structure MetadataState where
  published : MetadataView := {}
  regions : List RegionMetadata := []
  stores : ExtTreeMap UInt64 StoreDescriptor compare := ∅
  revision : UInt64 := 0
  regionIdHighWater : UInt64 := 0
  peerIdHighWater : UInt64 := 0
  storeIdHighWater : UInt64 := 0
  bootstrapDigest : Bytes := []
  migrations : ExtTreeMap UInt64 ReplicaMigrationStatus compare := ∅
  storeHeartbeats : ExtTreeMap UInt64 StoreHeartbeat compare := ∅
  balancerConfig : AutoBalancerConfig := defaultAutoBalancerConfig
  schedulingOperators : ExtTreeMap Bytes SchedulingOperator compare := ∅
  activeOperatorByRegion : ExtTreeMap UInt64 Bytes compare := ∅
  dedup : ExtTreeMap Bytes MutationRecord compare := ∅
  dedupOrder : List Bytes := []

def kDedupRetention : ℕ := 4096

/-! ## Helpers of the handlers -/

/-- The sum, or `none` where `SafeAdd` throws. -/
def safeAdd (value count : UInt64) : Option UInt64 :=
  if count = 0 ∨ 18446744073709551615 - count < value then none else some (value + count)

/-- Apply `f` to the first element with the property. -/
def updateFirst {α : Type} (p : α → Bool) (f : α → α) : List α → List α
  | [] => []
  | a :: rest => if p a then f a :: rest else a :: updateFirst p f rest

namespace RegionMetadata

/-- The descriptor at a revision. -/
def stamped (region : RegionMetadata) (revision : UInt64) : RegionMetadata :=
  { region with metadataRevision := revision }

/-- Has the id, which a command carries as a `uint64_t`. -/
def hasId (regionId : UInt64) (region : RegionMetadata) : Bool := ofInt region.regionId = regionId

/-- The epoch that a command expects; an absent one is all zero. -/
def atEpoch (region : RegionMetadata) (expected : Option RegionEpoch) : Bool :=
  region.epoch = expected.getD ⟨0, 0⟩

def samePeers (lhs rhs : RegionMetadata) : Bool :=
  lhs.peers.map (fun peer => (peer.peerId, peer.storeId, peer.host, peer.port)) =
    rhs.peers.map fun peer => (peer.peerId, peer.storeId, peer.host, peer.port)

end RegionMetadata

/-- Every Region ends where the next one starts. -/
def contiguous : List RegionMetadata → Bool
  | [] => true
  | region :: rest => rest.head?.all (fun next => region.endKey = next.startKey) && contiguous rest

def coveredInterval (regions : List RegionMetadata) : Except String (Bytes × Bytes) :=
  if regions = [] then .error "replacement set must not be empty"
  else
    let regions := sortRegions regions
    if contiguous regions then
      .ok ((regions.head?.map RegionMetadata.startKey).getD [],
        (regions.getLast?.map RegionMetadata.endKey).getD [])
    else .error "replacement Regions must be contiguous"

def StoreDescriptor.valid (store : StoreDescriptor) : Bool :=
  store.storeId ≠ 0 && store.host ≠ [] && store.port ≠ 0 && store.port ≤ 65535

/-- The loop that collects Store descriptors; `none` if one is invalid or repeated. -/
def addStores : ExtTreeMap UInt64 StoreDescriptor compare → List StoreDescriptor →
    Option (ExtTreeMap UInt64 StoreDescriptor compare)
  | stores, [] => some stores
  | stores, store :: rest =>
    if store.valid && !stores.contains store.storeId then
      addStores (stores.insert store.storeId store) rest
    else none

/-- The peer's endpoint is the one of its Store. -/
def peerMatches (stores : ExtTreeMap UInt64 StoreDescriptor compare) (peer : RegionPeerLocation) :
    Bool :=
  stores[peer.storeId]?.any fun store => store.host = peer.host && store.port = ofShort peer.port

/-- The peers of a split's child, with ids from the high-water mark `highWater`. The mark moves also
when the allocation overflows half way. -/
def childPeers : UInt64 → List RegionPeerLocation → Option (List RegionPeerLocation) × UInt64
  | highWater, [] => (some [], highWater)
  | highWater, peer :: rest =>
    match safeAdd highWater 1 with
    | none => (none, highWater)
    | some peerId =>
      let (peers, highWater) := childPeers peerId rest
      (peers.map ({ peer with peerId := peerId } :: ·), highWater)

/-- The Regions with the removed ids, the others, and the ids that no Region has. -/
def takeRemoved : List UInt64 → List RegionMetadata →
    List RegionMetadata × List RegionMetadata × List UInt64
  | ids, [] => ([], [], ids)
  | ids, region :: rest =>
    if ofInt region.regionId ∈ ids then
      let (removed, retained, left) := takeRemoved (ids.erase (ofInt region.regionId)) rest
      (region :: removed, retained, left)
    else
      let (removed, retained, left) := takeRemoved ids rest
      (removed, region :: retained, left)

/-- The epoch check of `ReplaceRegionsLocked` on one added Region. -/
def checkReplacement (removed : List RegionMetadata) (region : RegionMetadata) :
    Except String Unit :=
  let maxOldVersion := removed.foldl (fun version old => max version old.epoch.version) 0
  match removed.find? fun old => old.regionId = region.regionId with
  | none =>
    if region.epoch.version ≤ maxOldVersion then
      .error "new Region version must advance past replaced Regions"
    else .ok ()
  | some old =>
    let rangeChanged : Bool := old.startKey ≠ region.startKey || old.endKey ≠ region.endKey
    let peersChanged := !old.samePeers region
    if rangeChanged && region.epoch.version ≤ old.epoch.version ||
        !rangeChanged && region.epoch.version < old.epoch.version ||
        peersChanged && region.epoch.confVersion ≤ old.epoch.confVersion ||
        !peersChanged && region.epoch.confVersion < old.epoch.confVersion then
      .error "replacement Region epoch did not advance"
    else .ok ()

def isTerminal (phase : SchedulingOperatorPhase) : Bool :=
  phase = .succeeded || phase = .cancelled || phase = .failed

def validTransition (from_ to_ : SchedulingOperatorPhase) : Bool :=
  if from_ = to_ then true
  else
    match from_ with
    | .pending => to_ ∈ [.dispatching, .cancelling, .cancelled, .failed]
    | .dispatching => to_ ∈ [.waiting, .succeeded, .cancelling, .failed]
    | .waiting => to_ ∈ [.dispatching, .succeeded, .cancelling, .failed]
    | .cancelling => to_ ∈ [.cancelled, .failed]
    | .succeeded | .cancelled | .failed | .unknown _ => false

def epochOlder (lhs rhs : RegionEpoch) : Bool :=
  lhs.version < rhs.version || lhs.version = rhs.version && lhs.confVersion < rhs.confVersion

def StoreHeartbeat.invalid (heartbeat : StoreHeartbeat) : Bool :=
  heartbeat.storeId = 0 || heartbeat.sequence = 0 || heartbeat.observedAtMs = 0 ||
    heartbeat.expiresAtMs ≤ heartbeat.observedAtMs || heartbeat.capacityBytes = 0 ||
    heartbeat.capacityBytes < heartbeat.availableBytes

/-- The observations of a heartbeat, where one of an older epoch than before is kept back; `none`
if one is invalid or repeated. `seen` are the Regions observed so far. -/
def mergeObservations (previous : List RegionSchedulingObservation) :
    List UInt64 → List RegionSchedulingObservation → Option (List RegionSchedulingObservation)
  | _, [] => some []
  | seen, observation :: rest =>
    if observation.regionId = 0 ∨ observation.peerId = 0 ∨ observation.epoch.version = 0 ∨
        observation.epoch.confVersion = 0 ∨ observation.regionId ∈ seen then none
    else
      let merged :=
        match previous.find? fun old => old.regionId = observation.regionId with
        | none => observation
        | some old => if epochOlder observation.epoch old.epoch then old else observation
      (mergeObservations previous (observation.regionId :: seen) rest).map (merged :: ·)

/-- A configuration without a version gets the next one. -/
def AutoBalancerConfig.withVersion (config : AutoBalancerConfig) (version : UInt64) :
    AutoBalancerConfig :=
  { config with version := if config.version = 0 then version + 1 else config.version }

def AutoBalancerConfig.invalid (config : AutoBalancerConfig) (version : UInt64) : Bool :=
  config.version ≤ version || config.evaluationIntervalMs = 0 ||
    config.heartbeatTimeoutMs < config.evaluationIntervalMs ||
    config.maximumDiskUsedRatio.le 0 || config.maximumDiskUsedRatio.gt 1 ||
    config.replicationFactor = 0 || config.imbalanceThreshold.lt 0 ||
    config.imbalanceThreshold.gt 1 || config.splitConsecutiveWindows = 0 ||
    config.maximumActiveOperators = 0 || config.maximumActivePerStore = 0 ||
    config.maximumActiveOperators < config.maximumActivePerStore

namespace MetadataState

variable (σ : MetadataState)

def error (code : MetadataErrorCode) (message : String) : MetadataCommandResult :=
  { error := code, message := message, revision := σ.revision }

/-- Answer with an error. -/
def reject (code : MetadataErrorCode) (message : String) : MetadataCommandResult × MetadataState :=
  (σ.error code message, σ)

/-- An exception that `ApplyLocked` catches, with what was changed until then. -/
def throwing (message : String) : MetadataCommandResult × MetadataState :=
  σ.reject .invalidArgument message

/-- The answer of a command that was accepted. -/
def accept : MetadataCommandResult := { error := .ok, revision := σ.revision }

def viewOf (catalog : Option (List RegionMetadata)) : MetadataView where
  revision := σ.revision
  catalog := catalog
  stores := σ.stores
  regionIdHighWater := σ.regionIdHighWater
  peerIdHighWater := σ.peerIdHighWater
  storeIdHighWater := σ.storeIdHighWater
  bootstrapDigest := σ.bootstrapDigest
  migrations := σ.migrations
  storeHeartbeats := σ.storeHeartbeats
  balancerConfig := σ.balancerConfig
  schedulingOperators := σ.schedulingOperators
  activeOperatorByRegion := σ.activeOperatorByRegion

/-- `PublishLocked(regions_)` at the end of a handler, and the handler's answer after it. -/
def publish (answer : MetadataState → MetadataCommandResult) :
    MetadataCommandResult × MetadataState :=
  if σ.regions = [] then (answer σ, { σ with published := σ.viewOf none })
  else
    match regionCatalog σ.regions with
    | .error message => σ.throwing message
    | .ok catalog => (answer σ, { σ with published := σ.viewOf (some catalog) })

def recomputeHighWater : MetadataState :=
  let peers := σ.regions.flatMap RegionMetadata.peers
  { σ with
    regionIdHighWater :=
      σ.regions.foldl (fun mark region => max mark (ofInt region.regionId)) σ.regionIdHighWater
    peerIdHighWater := peers.foldl (fun mark peer => max mark peer.peerId) σ.peerIdHighWater
    storeIdHighWater :=
      σ.stores.keys.foldl max
        (peers.foldl (fun mark peer => max mark peer.storeId) σ.storeIdHighWater) }

/-- All Regions at the current revision. -/
def stampRegions : MetadataState :=
  { σ with regions := σ.regions.map fun region => region.stamped σ.revision }

/-! ## Topology -/

variable (expectedRevision : UInt64)

def bootstrapLocked (configDigest : Bytes)
    (regions : List RegionDescriptor) (stores : List StoreDescriptor) :
    MetadataCommandResult × MetadataState :=
  if σ.revision ≠ 0 ∨ σ.regions ≠ [] then
    σ.reject .alreadyBootstrapped "metadata cluster is already bootstrapped"
  else if expectedRevision ≠ 0 ∨ configDigest = [] then
    σ.reject .invalidArgument "bootstrap requires revision zero and a configuration digest"
  else
    match decodeRegions regions with
    | .error message => σ.throwing message
    | .ok candidate =>
      match regionCatalog (candidate.map fun region => region.stamped 1) with
      | .error message => σ.throwing message
      | .ok validated =>
        match addStores ∅ stores with
        | none => σ.throwing "invalid or duplicate Store descriptor"
        | some stores =>
          if validated.all fun region => region.peers.all (peerMatches stores) then
            ({ σ with
              revision := 1
              bootstrapDigest := configDigest
              stores := stores
              regions := validated }.stampRegions.recomputeHighWater).publish accept
          else σ.throwing "Region peer does not match a Store descriptor"

def replaceRegionsLocked (removeRegionIds : List UInt64) (addRegions : List RegionDescriptor) :
    MetadataCommandResult × MetadataState :=
  if σ.revision = 0 then σ.reject .invalidArgument "metadata cluster is not bootstrapped"
  else if expectedRevision ≠ σ.revision then
    σ.reject .revisionMismatch "metadata revision precondition failed"
  else if removeRegionIds = [] ∨ addRegions = [] then
    σ.throwing "Region replacement requires removed and added Regions"
  else if ¬removeRegionIds.Nodup then σ.throwing "duplicate removed Region ID"
  else
    let (removed, retained, left) := takeRemoved removeRegionIds σ.regions
    if left ≠ [] then σ.throwing "removed Region does not exist"
    else
      match decodeRegions addRegions with
      | .error message => σ.throwing message
      | .ok added =>
        let added := added.map fun region => region.stamped (σ.revision + 1)
        match coveredInterval removed, coveredInterval added with
        | .error message, _ => σ.throwing message
        | _, .error message => σ.throwing message
        | .ok old, .ok new =>
          if old ≠ new then
            σ.throwing "replacement Regions must exactly cover the removed interval"
          else
            match added.mapM (checkReplacement removed) with
            | .error message => σ.throwing message
            | .ok _ =>
              match regionCatalog (retained ++ added) with
              | .error message => σ.throwing message
              | .ok validated =>
                ({ σ with revision := σ.revision + 1, regions := validated
                  }.stampRegions.recomputeHighWater).publish accept

/-- The last Region whose id is the narrowed one of the command. -/
def findParent (regionId : UInt64) : Option RegionMetadata :=
  σ.regions.reverse.find? fun region => region.regionId = toInt regionId

variable (region : RegionMetadata)

/-- `regions_` with every Region that has the id of `region` replaced by it. -/
def replaceRegion : List RegionMetadata :=
  σ.regions.map fun other => if other.regionId = region.regionId then region else other

def prepareSplitLocked (expectedRevision regionId : UInt64) (splitKey : Bytes)
    (expectedEpoch : Option RegionEpoch) : MetadataCommandResult × MetadataState :=
  if σ.revision = 0 ∨ expectedRevision ≠ σ.revision then
    σ.reject (if expectedRevision ≠ σ.revision ∧ σ.revision ≠ 0 then .revisionMismatch
      else .invalidArgument) "metadata revision precondition failed"
  else
    match σ.findParent regionId with
    | none => σ.throwing "split target Region does not exist"
    | some parent =>
      if parent.splitPending.isSome then σ.throwing "Region already has a split in progress"
      else if ¬parent.atEpoch expectedEpoch then
        σ.reject .revisionMismatch "split expected epoch does not match the Region descriptor"
      else if splitKey ≤ parent.startKey ∨ parent.endKey ≠ [] ∧ parent.endKey ≤ splitKey then
        σ.throwing "split key must be strictly inside the Region range"
      else
        match safeAdd σ.regionIdHighWater 1 with
        | none => σ.throwing "identifier allocation overflows"
        | some childId =>
          let (peers, peerIdHighWater) := childPeers σ.peerIdHighWater parent.peers
          let σ := { σ with regionIdHighWater := childId, peerIdHighWater := peerIdHighWater }
          match peers with
          | none => σ.throwing "identifier allocation overflows"
          | some peers =>
            let child : RegionMetadata :=
              { regionId := toInt childId
                startKey := splitKey
                endKey := parent.endKey
                epoch := ⟨1, 1⟩
                peers := peers
                leaderPeerId := (peers.head?.map RegionPeerLocation.peerId).getD 0 }
            let marked := { parent with splitPending := some (splitKey, child) }
            ({ σ with
              revision := σ.revision + 1
              regions := σ.replaceRegion marked }.recomputeHighWater).publish fun σ =>
                { σ.accept with regions := [toProtoRegion marked] }

/-- The parent after the split: its range ends at the split key. -/
def shrunken (parent : RegionMetadata) (splitKey : Bytes) : RegionMetadata :=
  { parent with
    splitPending := none
    endKey := splitKey
    epoch := { parent.epoch with version := parent.epoch.version + 1 } }

def commitSplitLocked (expectedRevision regionId : UInt64) :
    MetadataCommandResult × MetadataState :=
  if σ.revision = 0 ∨ expectedRevision ≠ σ.revision then
    σ.reject .revisionMismatch "metadata revision precondition failed"
  else
    match (σ.findParent regionId).bind fun parent =>
      parent.splitPending.map fun pending => (parent, pending) with
    | none => σ.throwing "commit requires a prepared split on the Region"
    | some (parent, splitKey, pendingChild) =>
      let shrunken := shrunken parent splitKey
      let child :=
        { pendingChild with endKey := parent.endKey, metadataRevision := σ.revision + 1 }
      match regionCatalog (σ.replaceRegion shrunken ++ [child]) with
      | .error message => σ.throwing message
      | .ok validated =>
        ({ σ with revision := σ.revision + 1, regions := validated
          }.stampRegions.recomputeHighWater).publish fun σ =>
            { σ.accept with
              regions := (σ.regions.filter fun region : RegionMetadata =>
                region.regionId = shrunken.regionId || region.regionId = child.regionId).map
                  toProtoRegion }

def ackSplitLocked (childRegionIds : List UInt64) : MetadataCommandResult × MetadataState :=
  if σ.revision = 0 ∨ expectedRevision ≠ σ.revision then
    σ.reject .revisionMismatch "metadata revision precondition failed"
  else if childRegionIds.all fun childId => σ.regions.any (RegionMetadata.hasId childId) then
    (σ.accept, σ)
  else σ.throwing "split ack names an unknown child Region"

/-! ## Moving peers -/

/-- The location of a migration's target. -/
def targetLocation (target : PeerDescriptor) (isLearner : Bool) : RegionPeerLocation where
  nodeId := toInt (target.storeId - 1)
  host := target.host
  port := toShort target.port
  storeId := target.storeId
  peerId := target.peerId
  isLearner := isLearner

def prepareMovePeerLocked (mutationId : Bytes)
    (expectedRevision regionId fromStoreId toStoreId : UInt64) (expectedEpoch : Option RegionEpoch) :
    MetadataCommandResult × MetadataState :=
  if σ.revision = 0 ∨ expectedRevision ≠ σ.revision then
    σ.reject .revisionMismatch "metadata revision precondition failed"
  else
    match σ.regions.find? (RegionMetadata.hasId regionId) with
    | none => σ.throwing "migration Region does not exist"
    | some region =>
      if σ.migrations.contains regionId then
        σ.throwing "Region already has a migration in progress"
      else if expectedEpoch ≠ some region.epoch then
        σ.reject .revisionMismatch "migration expected epoch does not match the Region descriptor"
      else
        match region.peers.find? fun peer => peer.storeId = fromStoreId with
        | none => σ.throwing "migration source Store does not host the Region"
        | some source =>
          if region.peers.any fun peer => peer.storeId = toStoreId then
            σ.throwing "migration target Store already hosts the Region"
          else
            match σ.stores[toStoreId]? with
            | none => σ.throwing "migration target Store does not exist"
            | some targetStore =>
              match safeAdd σ.peerIdHighWater 1 with
              | none => σ.throwing "identifier allocation overflows"
              | some newPeerId =>
                let status : ReplicaMigrationStatus :=
                  { regionId := regionId
                    sourcePeerId := source.peerId
                    fromStoreId := fromStoreId
                    targetPeer :=
                      { peerId := newPeerId
                        storeId := toStoreId
                        host := targetStore.host
                        port := targetStore.port
                        isLearner := true }
                    phase := .preparingTarget
                    mutationId := mutationId }
                ({ σ with
                  peerIdHighWater := newPeerId
                  migrations := σ.migrations.insert regionId status
                  revision := σ.revision + 1 }.stampRegions).publish fun σ =>
                    { σ.accept with
                      migration := some status
                      regions := [toProtoRegion
                        { region with
                          metadataRevision := σ.revision
                          epoch := { region.epoch with confVersion := region.epoch.confVersion + 1 }
                          peers := region.peers ++ [targetLocation status.targetPeer true] }] }

/-- The Region with the source of the migration replaced by its target. -/
def moved (migration : ReplicaMigrationStatus) : RegionMetadata :=
  { region with
    peers := updateFirst (fun peer => peer.peerId = migration.sourcePeerId)
      (fun _ => targetLocation migration.targetPeer false) region.peers
    leaderPeerId := if region.leaderPeerId = migration.sourcePeerId then migration.targetPeer.peerId
      else region.leaderPeerId
    epoch := { region.epoch with confVersion := region.epoch.confVersion + 3 } }

def commitMovePeerLocked (expectedRevision regionId newPeerId : UInt64)
    (expectedEpoch : Option RegionEpoch) : MetadataCommandResult × MetadataState :=
  if σ.revision = 0 ∨ expectedRevision ≠ σ.revision then
    σ.reject .revisionMismatch "metadata revision precondition failed"
  else
    match σ.migrations[regionId]?.filter fun migration =>
      migration.targetPeer.peerId = newPeerId with
    | none => σ.throwing "migration commit does not match an in-flight move"
    | some migration =>
      match σ.regions.find? (RegionMetadata.hasId regionId) with
      | none => σ.throwing "migration Region does not exist"
      | some region =>
        if expectedEpoch ≠ some region.epoch then
          σ.reject .revisionMismatch "migration expected epoch does not match the Region descriptor"
        else if ¬region.peers.any fun peer => peer.peerId = migration.sourcePeerId then
          σ.throwing "migration source peer is no longer present"
        else
          ({ σ with
            regions := updateFirst (RegionMetadata.hasId regionId) (moved · migration) σ.regions
            revision := σ.revision + 1
            migrations := σ.migrations.erase regionId }.stampRegions).publish fun σ =>
              { σ.accept with
                migration := some
                  { migration with
                    targetPeer := { migration.targetPeer with isLearner := false }
                    phase := .complete }
                regions := [toProtoRegion ((moved region migration).stamped σ.revision)] }

def cancelMovePeerLocked (expectedRevision regionId newPeerId : UInt64) :
    MetadataCommandResult × MetadataState :=
  if σ.revision = 0 ∨ expectedRevision ≠ σ.revision then
    σ.reject .revisionMismatch "metadata revision precondition failed"
  else
    match σ.migrations[regionId]?.filter fun migration =>
      migration.targetPeer.peerId = newPeerId with
    | none => σ.throwing "migration cancellation does not match an in-flight move"
    | some migration =>
      ({ σ with
        migrations := σ.migrations.erase regionId
        revision := σ.revision + 1 }.stampRegions).publish fun σ =>
          { σ.accept with migration := some { migration with phase := .cancelled } }

/-! ## Scheduling -/

def reportStoreHeartbeatLocked
    (heartbeat : StoreHeartbeat) : MetadataCommandResult × MetadataState :=
  if σ.revision = 0 then σ.reject .invalidArgument "metadata cluster is not bootstrapped"
  else if expectedRevision ≠ 0 ∧ expectedRevision ≠ σ.revision then
    σ.reject .revisionMismatch "heartbeat metadata revision precondition failed"
  else if heartbeat.invalid then σ.throwing "invalid Store heartbeat"
  else if ¬σ.stores.contains heartbeat.storeId then σ.throwing "heartbeat Store is not registered"
  else
    let previous := σ.storeHeartbeats[heartbeat.storeId]?
    match previous.filter fun previous => heartbeat.sequence ≤ previous.sequence with
    | some previous => ({ σ.accept with heartbeat := some previous }, σ)
    | none =>
      match mergeObservations ((previous.map StoreHeartbeat.regions).getD []) []
        heartbeat.regions with
      | none => σ.throwing "invalid or duplicate Region heartbeat observation"
      | some regions =>
        let merged := { heartbeat with regions := regions }
        { σ with storeHeartbeats := σ.storeHeartbeats.insert heartbeat.storeId merged }.publish
          fun σ => { σ.accept with heartbeat := some merged }

def updateAutoBalancerConfigLocked
    (config : AutoBalancerConfig) : MetadataCommandResult × MetadataState :=
  if σ.revision = 0 then σ.reject .invalidArgument "metadata cluster is not bootstrapped"
  else if expectedRevision ≠ 0 ∧ expectedRevision ≠ σ.revision then
    σ.reject .revisionMismatch "balancer configuration revision precondition failed"
  else
    let config := config.withVersion σ.balancerConfig.version
    if config.invalid σ.balancerConfig.version then
      σ.throwing "invalid Auto-Balancer configuration"
    else
      { σ with balancerConfig := config }.publish fun σ =>
        { σ.accept with balancerConfig := some config }

/-- How many unfinished operators use the store. -/
def activeOn (storeId : UInt64) : ℕ :=
  (σ.schedulingOperators.toList.map fun item =>
    if isTerminal item.2.phase then 0
    else (if item.2.sourceStoreId = storeId then 1 else 0) +
      if item.2.targetStoreId = storeId then 1 else 0).sum

/-- The checks on the kind of work of a new operator. -/
def checkWork (requested : SchedulingOperator) : Option (MetadataCommandResult × MetadataState) :=
  match requested.type with
  | .movePeer =>
    if requested.sourceStoreId = 0 ∨ requested.targetStoreId = 0 ∨
        requested.sourceStoreId = requested.targetStoreId then
      some (σ.throwing "move operator requires distinct source and target Stores")
    else if ¬region.peers.any (fun peer => peer.storeId = requested.sourceStoreId) ∨
        region.peers.any (fun peer => peer.storeId = requested.targetStoreId) ∨
        ¬σ.storeHeartbeats[requested.targetStoreId]?.any fun target =>
          !(target.expiresAtMs ≤ requested.createdAtMs) &&
            !(target.availableBytes < σ.balancerConfig.minimumFreeBytes) then
      some (σ.reject .conflict "move operator has no safe fresh destination")
    else none
  | .splitRegion =>
    if requested.splitCandidateGeneration = 0 then
      some (σ.throwing "split operator requires an opaque candidate generation")
    else none
  | .unknown _ => some (σ.throwing "unknown scheduling operator type")

def createSchedulingOperatorLocked
    (requested : SchedulingOperator) : MetadataCommandResult × MetadataState :=
  if σ.revision = 0 ∨ expectedRevision ≠ σ.revision then
    σ.reject .revisionMismatch "operator source revision is stale"
  else if requested.operatorId = [] ∨ requested.regionId = 0 ∨
      requested.sourceRevision ≠ σ.revision ∨ requested.phase ≠ .pending ∨
      requested.createdAtMs = 0 ∨ requested.updatedAtMs < requested.createdAtMs ∨
      requested.deadlineMs ≤ requested.createdAtMs then
    σ.throwing "invalid scheduling operator"
  else
    match σ.schedulingOperators[requested.operatorId]? with
    | some existing =>
      if existing.regionId ≠ requested.regionId ∨ existing.type ≠ requested.type then
        σ.reject .conflict "operator identifier is already used by different work"
      else ({ σ.accept with operator := some existing }, σ)
    | none =>
      if ¬σ.balancerConfig.enabled ∨ σ.balancerConfig.paused then
        σ.reject .conflict "Auto-Balancer is disabled or paused"
      else if σ.activeOperatorByRegion.contains requested.regionId then
        σ.reject .conflict "Region already has an active topology operator"
      else
        match σ.regions.find? (RegionMetadata.hasId requested.regionId) with
        | none => σ.throwing "operator Region does not exist"
        | some region =>
          if requested.regionEpoch ≠ some region.epoch then
            σ.reject .revisionMismatch "operator Region epoch is stale"
          else if σ.balancerConfig.maximumActiveOperators.toNat ≤ σ.activeOperatorByRegion.size then
            σ.reject .conflict "cluster scheduling concurrency budget is exhausted"
          else
            match σ.checkWork region requested with
            | some refused => refused
            | none =>
              let limit := σ.balancerConfig.maximumActivePerStore.toNat
              if requested.sourceStoreId ≠ 0 ∧ limit ≤ σ.activeOn requested.sourceStoreId ∨
                  requested.targetStoreId ≠ 0 ∧ limit ≤ σ.activeOn requested.targetStoreId then
                σ.reject .conflict "Store scheduling concurrency budget is exhausted"
              else
                { σ with
                  schedulingOperators := σ.schedulingOperators.insert requested.operatorId requested
                  activeOperatorByRegion :=
                    σ.activeOperatorByRegion.insert requested.regionId requested.operatorId
                  }.publish fun σ => { σ.accept with operator := some requested }

/-- The state with a changed operator, which is no longer active in its Region if `done`. -/
def putOperator (operatorId : Bytes) (current : SchedulingOperator)
    (done : Bool) : MetadataCommandResult × MetadataState :=
  { σ with
    schedulingOperators := σ.schedulingOperators.insert operatorId current
    activeOperatorByRegion := if done then σ.activeOperatorByRegion.erase current.regionId
      else σ.activeOperatorByRegion }.publish fun σ => { σ.accept with operator := some current }

def updateSchedulingOperatorLocked
    (operatorId : Bytes) (expectedPhase phase : SchedulingOperatorPhase) (attempts : UInt32)
    (lastError : Bytes) (irreversible : Bool) (updatedAtMs : UInt64) :
    MetadataCommandResult × MetadataState :=
  if expectedRevision ≠ 0 ∧ expectedRevision ≠ σ.revision then
    σ.reject .revisionMismatch "operator update revision precondition failed"
  else
    match σ.schedulingOperators[operatorId]? with
    | none => σ.reject .notFound "scheduling operator does not exist"
    | some current =>
      if current.phase ≠ expectedPhase then
        σ.reject .conflict "scheduling operator phase precondition failed"
      else if ¬validTransition current.phase phase ∨ attempts < current.attempts ∨
          updatedAtMs < current.updatedAtMs then
        σ.reject .conflict "invalid scheduling operator transition"
      else
        σ.putOperator operatorId
          { current with
            phase := phase
            attempts := attempts
            lastError := lastError
            irreversible := current.irreversible || irreversible
            updatedAtMs := updatedAtMs } (isTerminal phase)

def cancelSchedulingOperatorLocked
    (operatorId : Bytes) (updatedAtMs : UInt64) : MetadataCommandResult × MetadataState :=
  if expectedRevision ≠ 0 ∧ expectedRevision ≠ σ.revision then
    σ.reject .revisionMismatch "operator cancellation revision precondition failed"
  else
    match σ.schedulingOperators[operatorId]? with
    | none => σ.reject .notFound "scheduling operator does not exist"
    | some current =>
      if isTerminal current.phase then ({ σ.accept with operator := some current }, σ)
      else if current.irreversible then
        σ.reject .conflict "scheduling operator has crossed its irreversible point"
      else
        σ.putOperator operatorId
          { current with
            cancelRequested := true
            updatedAtMs := max current.updatedAtMs updatedAtMs
            phase := if current.phase = .pending then .cancelled else .cancelling }
          (current.phase = .pending)

/-! ## Ids and stores -/

def allocateIdsLocked (namespace_ : IdNamespace)
    (count : UInt64) : MetadataCommandResult × MetadataState :=
  if σ.revision = 0 then σ.reject .invalidArgument "metadata cluster is not bootstrapped"
  else if expectedRevision ≠ σ.revision then
    σ.reject .revisionMismatch "metadata revision precondition failed"
  else
    let allocate (highWater : UInt64) (update : UInt64 → MetadataState) :=
      match safeAdd highWater count with
      | none => σ.throwing "identifier allocation overflows"
      | some mark =>
        { update mark with revision := σ.revision + 1 }.publish fun σ =>
          { σ.accept with firstAllocatedId := highWater + 1, allocatedCount := count }
    match namespace_ with
    | .region => allocate σ.regionIdHighWater fun mark => { σ with regionIdHighWater := mark }
    | .peer => allocate σ.peerIdHighWater fun mark => { σ with peerIdHighWater := mark }
    | .store => allocate σ.storeIdHighWater fun mark => { σ with storeIdHighWater := mark }
    | .unknown _ => σ.throwing "unknown identifier namespace"

def putStoreLocked (store : StoreDescriptor) : MetadataCommandResult × MetadataState :=
  if σ.revision = 0 ∨ expectedRevision ≠ σ.revision then
    σ.reject .revisionMismatch "metadata revision precondition failed"
  else if ¬store.valid then σ.throwing "invalid Store descriptor"
  else
    { σ with
      stores := σ.stores.insert store.storeId store
      storeIdHighWater := max σ.storeIdHighWater store.storeId
      revision := σ.revision + 1 }.publish accept

/-! ## Applying a command -/

def applyLocked (command : MetadataCommand) : MetadataCommandResult × MetadataState :=
  let expectedRevision := command.expectedRevision
  match command.operation with
  | .bootstrap configDigest regions stores =>
    σ.bootstrapLocked expectedRevision configDigest regions stores
  | .replaceRegions removeRegionIds addRegions =>
    σ.replaceRegionsLocked expectedRevision removeRegionIds addRegions
  | .allocateIds namespace_ count => σ.allocateIdsLocked expectedRevision namespace_ count
  | .putStore store => σ.putStoreLocked expectedRevision store
  | .prepareSplit regionId splitKey expectedEpoch =>
    σ.prepareSplitLocked expectedRevision regionId splitKey expectedEpoch
  | .commitSplit regionId => σ.commitSplitLocked expectedRevision regionId
  | .ackSplit childRegionIds => σ.ackSplitLocked expectedRevision childRegionIds
  | .prepareMovePeer regionId fromStoreId toStoreId expectedEpoch =>
    σ.prepareMovePeerLocked command.mutationId expectedRevision regionId fromStoreId toStoreId
      expectedEpoch
  | .commitMovePeer regionId newPeerId expectedEpoch =>
    σ.commitMovePeerLocked expectedRevision regionId newPeerId expectedEpoch
  | .cancelMovePeer regionId newPeerId => σ.cancelMovePeerLocked expectedRevision regionId newPeerId
  | .reportStoreHeartbeat heartbeat => σ.reportStoreHeartbeatLocked expectedRevision heartbeat
  | .updateAutoBalancerConfig config => σ.updateAutoBalancerConfigLocked expectedRevision config
  | .createSchedulingOperator requested =>
    σ.createSchedulingOperatorLocked expectedRevision requested
  | .updateSchedulingOperator operatorId expectedPhase phase attempts lastError irreversible
      updatedAtMs =>
    σ.updateSchedulingOperatorLocked expectedRevision operatorId expectedPhase phase attempts
      lastError irreversible updatedAtMs
  | .cancelSchedulingOperator operatorId updatedAtMs =>
    σ.cancelSchedulingOperatorLocked expectedRevision operatorId updatedAtMs
  | .notSet => σ.reject .invalidArgument "metadata command is missing an operation"

def recordResultLocked (mutationId : Bytes) (result : MetadataCommandResult) : MetadataState :=
  let dedup := σ.dedup.insert mutationId ⟨mutationId, result, σ.revision⟩
  let dedupOrder := σ.dedupOrder ++ [mutationId]
  let excess := dedupOrder.length - kDedupRetention
  { σ with
    dedup := (dedupOrder.take excess).foldl (fun dedup id => dedup.erase id) dedup
    dedupOrder := dedupOrder.drop excess }

def apply (command : MetadataCommand) : MetadataCommandResult × MetadataState :=
  if command.mutationId = [] then
    σ.reject .invalidArgument "metadata mutation ID must not be empty"
  else
    match σ.dedup[command.mutationId]? with
    | some record => (record.result, σ)
    | none =>
      let (result, σ) := σ.applyLocked command
      (result, σ.recordResultLocked command.mutationId result)

/-- `LookupKey` on the published view. -/
def lookupKey (key : Bytes) : Option RegionMetadata :=
  σ.published.catalog.bind fun catalog => (findByKey catalog key).toOption

end MetadataState

end StrataKV.Metadata
