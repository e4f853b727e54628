import StrataKV.Lib.Decimal
import StrataKV.Lib.Lists
import StrataKV.Lib.Ranges

/-!
# Region descriptors and the Region catalog

The model of `region_metadata.cpp`: a Region is a half-open range of keys with its peers and epoch;
`regionCatalog` is the constructor of `RegionCatalog`, which sorts a set of Regions, fills in missing
ids and refuses whatever does not tile the key space. Descriptors are the protobuf form in which
Regions travel; decoding one checks and narrows its fields.
-/

namespace StrataKV.Metadata

/-! ## Machine integers of the source -/

/-- `std::numeric_limits<int>::max()` as a `uint64_t`. -/
def intMax : UInt64 := 2147483647

/-- `std::numeric_limits<short>::max()` as a `uint32_t`. -/
def shortMax : UInt32 := 32767

/-- `static_cast<int>` of a `uint64_t`. -/
def toInt (n : UInt64) : Int32 := n.toUInt32.toInt32

/-- `static_cast<uint64_t>` of an `int`. -/
def ofInt (n : Int32) : UInt64 := n.toInt64.toUInt64

/-- `static_cast<short>` of a `uint32_t`. -/
def toShort (n : UInt32) : Int16 := n.toUInt16.toInt16

/-- `static_cast<uint32_t>` of a `short`. -/
def ofShort (n : Int16) : UInt32 := n.toInt32.toUInt32

/-! ## Regions -/

structure RegionEpoch where
  version : UInt64 := 1
  confVersion : UInt64 := 1
  deriving DecidableEq

structure RegionPeerLocation where
  nodeId : Int32 := -1
  host : Bytes := []
  port : Int16 := 0
  storeId : UInt64 := 0
  peerId : UInt64 := 0
  isLearner : Bool := false
  deriving DecidableEq

/-- A Region; between the phases of a split `splitPending` holds the split key and the child. -/
structure RegionMetadata where
  regionId : Int32 := -1
  startKey : Bytes := []
  endKey : Bytes := []
  peers : List RegionPeerLocation := []
  epoch : RegionEpoch := {}
  metadataRevision : UInt64 := 1
  leaderPeerId : UInt64 := 0
  splitPending : Option (Bytes × RegionMetadata) := none

namespace RegionMetadata

variable (region : RegionMetadata)

/-- The range of the Region; an empty `endKey` is no upper end. -/
def range : Range Bytes :=
  ⟨region.startKey, if region.endKey = [] then none else some region.endKey⟩

def contains (key : Bytes) : Bool :=
  !(key < region.startKey) && (region.endKey = [] || key < region.endKey)

def findPeer (wantedPeerId : UInt64) : Option RegionPeerLocation :=
  region.peers.find? fun peer => peer.peerId = wantedPeerId

end RegionMetadata

/-! ## The catalog -/

namespace RegionPeerLocation

/-- The ids that a configuration may leave out. -/
def withDefaults (peer : RegionPeerLocation) (regionId : Int32) (peerIndex : ℕ) :
    RegionPeerLocation :=
  { peer with
    storeId := if peer.storeId = 0 then ofInt peer.nodeId + 1 else peer.storeId
    peerId := if peer.peerId = 0 then
      (ofInt regionId + 1) * 1000000 + UInt64.ofNat peerIndex + 1 else peer.peerId }

/-- The store of `peer` is known under another endpoint. -/
def conflicts (peer other : RegionPeerLocation) : Bool :=
  other.storeId = peer.storeId && (other.host, other.port) != (peer.host, peer.port)

end RegionPeerLocation

/-- The loop over the peers of a Region; `seen` are the peers checked before. -/
def checkPeers (regionId : Int32) :
    ℕ → List RegionPeerLocation → List RegionPeerLocation → Except String (List RegionPeerLocation)
  | _, _, [] => .ok []
  | peerIndex, seen, peer :: rest =>
    if peer.nodeId < 0 ∨ peer.host = [] ∨ peer.port ≤ 0 then .error "invalid Region peer"
    else
      let peer := peer.withDefaults regionId peerIndex
      if seen.any fun other => other.peerId = peer.peerId then .error "duplicate peer ID"
      else if seen.any peer.conflicts then .error "Store ID has conflicting endpoint"
      else
        match checkPeers regionId (peerIndex + 1) (seen ++ [peer]) rest with
        | .error message => .error message
        | .ok peers => .ok (peer :: peers)

namespace RegionMetadata

variable (region : RegionMetadata)

/-- The fields of a Region that are checked on their own. -/
def invalid : Bool :=
  region.regionId < 0 || region.peers.isEmpty ||
    (region.endKey ≠ [] && !(region.startKey < region.endKey)) ||
    region.epoch.version = 0 || region.epoch.confVersion = 0 || region.metadataRevision = 0

def withPeers (peers : List RegionPeerLocation) : RegionMetadata :=
  { region with peers := peers }

/-- The leader that a configuration may leave out is the first peer. -/
def withLeader : RegionMetadata :=
  { region with
    leaderPeerId := if region.leaderPeerId = 0 then
      (region.peers.head?.map RegionPeerLocation.peerId).getD 0 else region.leaderPeerId }

end RegionMetadata

/-- The loop over the sorted Regions; `seen` are the Regions checked before. -/
def checkRegions : List RegionMetadata → List RegionMetadata → Except String (List RegionMetadata)
  | _, [] => .ok []
  | seen, region :: rest =>
    if region.invalid then .error "invalid Region metadata"
    else if seen.any fun other => other.regionId = region.regionId then .error "duplicate Region ID"
    else if seen = [] ∧ region.startKey ≠ [] then
      .error "first Region must start at the configured lower bound"
    else if seen.getLast?.any fun last => last.endKey ≠ region.startKey then
      .error "Region ranges must be contiguous"
    else if rest ≠ [] ∧ region.endKey = [] then
      .error "only the final Region may have an empty endKey"
    else if rest = [] ∧ region.endKey ≠ [] then
      .error "final Region must end at the configured upper bound"
    else
      match checkPeers region.regionId 0 (seen.flatMap RegionMetadata.peers) region.peers with
      | .error message => .error message
      | .ok peers =>
        let region := (region.withPeers peers).withLeader
        if region.findPeer region.leaderPeerId = none then
          .error "Region leader peer is not in the peer set"
        else
          match checkRegions (seen ++ [region]) rest with
          | .error message => .error message
          | .ok regions => .ok (region :: regions)

variable (regions : List RegionMetadata)

/-- `std::sort` by `startKey`. -/
def sortRegions : List RegionMetadata :=
  regions.insertionSort fun lhs rhs => ¬rhs.startKey < lhs.startKey

/-- The constructor of `RegionCatalog`: its Regions, or the exception it throws. -/
def regionCatalog : Except String (List RegionMetadata) :=
  if regions = [] then .error "RegionCatalog needs at least one region"
  else checkRegions [] (sortRegions regions)

/-- `RegionCatalog::FindByKey`: the Region before `upper_bound`. -/
def findByKey (key : Bytes) : Except String RegionMetadata :=
  match (regions.takeWhile fun region => ¬key < region.startKey).getLast? with
  | none => .error "key is before the first Region"
  | some region =>
    if region.contains key then .ok region
    else .error "key is not covered by Region metadata"

/-! ## Descriptors -/

structure PeerDescriptor where
  peerId : UInt64 := 0
  storeId : UInt64 := 0
  host : Bytes := []
  port : UInt32 := 0
  isLearner : Bool := false
  deriving DecidableEq

structure RegionDescriptor where
  regionId : UInt64 := 0
  startKey : Bytes := []
  endKey : Bytes := []
  peers : List PeerDescriptor := []
  leaderPeerId : UInt64 := 0
  epoch : RegionEpoch := ⟨0, 0⟩
  metadataRevision : UInt64 := 0
  splitPending : Option (Bytes × RegionDescriptor) := none

structure StoreDescriptor where
  storeId : UInt64 := 0
  host : Bytes := []
  port : UInt32 := 0
  deriving DecidableEq

/-- A peer of a descriptor, or `none` if it is refused. -/
def fromProtoPeer (encoded : PeerDescriptor) : Option RegionPeerLocation :=
  if encoded.storeId = 0 ∨ encoded.peerId = 0 ∨ encoded.port = 0 ∨ shortMax < encoded.port then none
  else
    some
      { nodeId := if encoded.storeId ≤ intMax then toInt (encoded.storeId - 1) else -1
        host := encoded.host
        port := toShort encoded.port
        storeId := encoded.storeId
        peerId := encoded.peerId
        isLearner := encoded.isLearner }

/-- The fields of a descriptor other than the pending split, whose child is decoded before. -/
def fromProtoFields (descriptor : RegionDescriptor) (pending : Option (Bytes × RegionMetadata)) :
    Except String RegionMetadata :=
  match descriptor.peers.mapM fromProtoPeer with
  | none => .error "invalid protobuf Region peer"
  | some peers =>
    .ok
      { regionId := toInt descriptor.regionId
        startKey := descriptor.startKey
        endKey := descriptor.endKey
        peers := peers
        epoch := descriptor.epoch
        metadataRevision := descriptor.metadataRevision
        leaderPeerId := descriptor.leaderPeerId
        splitPending := pending }

def fromProtoRegion : RegionDescriptor → Except String RegionMetadata
  | descriptor@⟨regionId, _, _, _, _, _, _, pending⟩ =>
    if intMax < regionId then .error "Region ID exceeds the local implementation limit"
    else
      match pending with
      | none => fromProtoFields descriptor none
      | some (splitKey, child) =>
        match fromProtoRegion child with
        | .error message => .error message
        | .ok child => fromProtoFields descriptor (some (splitKey, child))

def toProtoPeer (peer : RegionPeerLocation) : PeerDescriptor where
  peerId := peer.peerId
  storeId := peer.storeId
  host := peer.host
  port := ofShort peer.port
  isLearner := peer.isLearner

def toProtoRegion : RegionMetadata → RegionDescriptor
  | ⟨regionId, startKey, endKey, peers, epoch, metadataRevision, leaderPeerId, pending⟩ =>
    { regionId := ofInt regionId
      startKey := startKey
      endKey := endKey
      peers := peers.map toProtoPeer
      leaderPeerId := leaderPeerId
      epoch := epoch
      metadataRevision := metadataRevision
      splitPending :=
        match pending with
        | none => none
        | some (splitKey, child) => some (splitKey, toProtoRegion child) }

/-- `DecodeRegions` of the state machine. -/
def decodeRegions : List RegionDescriptor → Except String (List RegionMetadata)
  | [] => .ok []
  | descriptor :: rest =>
    if descriptor.regionId = 0 ∨ intMax < descriptor.regionId then .error "invalid Region ID"
    else
      match fromProtoRegion descriptor with
      | .error message => .error message
      | .ok region =>
        match decodeRegions rest with
        | .error message => .error message
        | .ok regions => .ok (region :: regions)

end StrataKV.Metadata
