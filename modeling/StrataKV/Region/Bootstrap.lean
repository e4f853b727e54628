import StrataKV.Metadata.Topology
import StrataKV.Region.Peer

/-!
# The peers that a node starts with

A node in dynamic mode reads the Regions of one metadata revision and builds its peers from them. It
takes from its own configuration, though, which Regions it serves and at which place of their peer
lists: `PeersOnNode` of the local catalog, which the metadata has left behind since a Region was
split, a peer moved or a Region replaced.

`bootstrapNodeRegions` is `BootstrapNodeRegions`, and `NodeServer.factory` the factory that the node
passes to it.
-/

namespace StrataKV.Region

open Metadata List RegionMetadata MetadataState

/-! ## The assignment of a node -/

/-- `RegionPeerAssignment`: a Region and the place of the node's peer in it. -/
structure RegionPeerAssignment where
  region : RegionMetadata
  peerIndex : ℕ

/-- `PeersOnNode`. -/
def peersOnNode (regions : List RegionMetadata) (nodeId : Int32) : List RegionPeerAssignment :=
  regions.flatMap fun region =>
    (region.peers.zipIdx.filter fun peer => peer.1.nodeId = nodeId).map fun peer =>
      ⟨region, peer.2⟩

structure NodeBootstrapFailure where
  regionId : Int32
  component : String
  message : String

structure NodeBootstrapReport where
  revision : UInt64
  peers : List RegionPeer := []
  failures : List NodeBootstrapFailure := []

variable (report : NodeBootstrapReport)

def NodeBootstrapReport.ok : Bool := report.failures.isEmpty && !report.peers.isEmpty

/-- `RegionPeerFactory`: a peer, a null pointer or an exception. -/
abbrev RegionPeerFactory : Type := RegionMetadata → ℕ → Except String (Option RegionPeer)

/-! ## Building the peers -/

/-- The loop over the assignments that compares their ports; `0` is no port yet. -/
def checkPorts : Int16 → List RegionPeerAssignment → Option NodeBootstrapFailure
  | _, [] => none
  | sharedPort, assignment :: rest =>
    match assignment.region.peers[assignment.peerIndex]? with
    | none =>
      some ⟨assignment.region.regionId, "config",
        "local peer index is outside the configured peer set"⟩
    | some location =>
      if sharedPort = 0 then checkPorts location.port rest
      else if sharedPort ≠ location.port then
        some ⟨assignment.region.regionId, "config", "local peers must share one RPC port"⟩
      else checkPorts sharedPort rest

/-- The peer of one assignment. -/
def buildPeer (metadataRegions : List RegionMetadata) (metadataRevision : UInt64)
    (factory : RegionPeerFactory) (assignment : RegionPeerAssignment) :
    Except NodeBootstrapFailure RegionPeer :=
  let regionId := assignment.region.regionId
  match metadataRegions.find? fun region => region.regionId = regionId with
  | none =>
    .error ⟨regionId, "metadata", "Region is absent from the bootstrap metadata revision"⟩
  | some descriptor =>
    if descriptor.metadataRevision ≠ metadataRevision then
      .error ⟨regionId, "metadata", "Region descriptor revision does not match the bootstrap view"⟩
    else if descriptor.peers.length ≤ assignment.peerIndex then
      .error ⟨regionId, "descriptor", "metadata descriptor has no peer at the local index"⟩
    else
      match factory descriptor assignment.peerIndex with
      | .ok (some peer) => .ok peer
      | .ok none => .error ⟨regionId, "peer", "Region peer factory returned no peer"⟩
      | .error message => .error ⟨regionId, "peer", message⟩

namespace NodeBootstrapReport

/-- One assignment is built or reported. -/
def add : Except NodeBootstrapFailure RegionPeer → NodeBootstrapReport
  | .ok peer => { report with peers := report.peers ++ [peer] }
  | .error failure => { report with failures := report.failures ++ [failure] }

/-- Nothing is published unless every assignment was built. -/
def allOrNothing : NodeBootstrapReport :=
  if report.failures.isEmpty then report else { report with peers := [] }

end NodeBootstrapReport

def bootstrapNodeRegions (nodeId : Int32) (localCatalog metadataRegions : List RegionMetadata)
    (metadataRevision : UInt64) (factory : RegionPeerFactory) : NodeBootstrapReport :=
  let report : NodeBootstrapReport := { revision := metadataRevision }
  if metadataRevision = 0 then
    { report with
      failures := [⟨-1, "metadata", "bootstrap metadata revision must be positive"⟩] }
  else
    let assignments := peersOnNode localCatalog nodeId
    if assignments.isEmpty then
      { report with
        failures := [⟨-1, "config", "local Region configuration assigns no peer"⟩] }
    else
      match checkPorts 0 assignments with
      | some failure => { report with failures := [failure] }
      | none =>
        (assignments.foldl (fun report assignment =>
          report.add (buildPeer metadataRegions metadataRevision factory assignment))
          report).allOrNothing

/-- The factory of the node: the constructor of `RegionPeer`. Opening its files may throw. -/
def NodeServer.factory (opens : RegionMetadata → ℕ → Except String Unit) : RegionPeerFactory :=
  fun descriptor peerIndex =>
    if descriptor.peers.length ≤ peerIndex then
      .error "local peer index is outside the Region peer list"
    else (opens descriptor peerIndex).map fun _ => some (RegionPeer.create peerIndex descriptor)

/-! ## Runs of the metadata from a configuration -/

/-- A configuration that `RegionCatalog` takes. -/
structure StaticCatalog where
  configured : List RegionMetadata
  regions : List RegionMetadata
  valid : regionCatalog configured = .ok regions

/-- The metadata was bootstrapped with the Regions and has accepted commands since. -/
structure BootstrappedWith (regions : List RegionMetadata) (σ : MetadataState) where
  mutationId : Bytes
  configDigest : Bytes
  stores : List StoreDescriptor
  accepted : Accepted {} ⟨mutationId, 0, .bootstrap configDigest (regions.map toProtoRegion) stores⟩
  reaches : metadataSystem.Reaches Accepted (MetadataState.apply {}
      ⟨mutationId, 0, .bootstrap configDigest (regions.map toProtoRegion) stores⟩).2 σ

variable {σ : MetadataState}

/-- The node has a peer in the Region. -/
def onNode (nodeId : Int32) (region : RegionMetadata) : Bool :=
  region.peers.any fun peer => peer.nodeId = nodeId

/-- One peer for each Region of the view with a peer on the node and no others, each at a place that
names the node. -/
structure BuildsExactly (nodeId : Int32) (view : List RegionMetadata) (peers : List RegionPeer) :
    Prop where
  regions : (peers.map RegionPeer.descriptor).Perm (view.filter (onNode nodeId))
  places : ∀ peer ∈ peers, ∃ location, peer.localPeerDescriptor = some location ∧
    location.nodeId = nodeId

/-- The configuration assigns to the node the Regions in which the view has a peer on it, each once
and at a place that the view gives to the node. -/
structure SameAssignment (nodeId : Int32) (localCatalog view : List RegionMetadata) : Prop where
  regions : ((peersOnNode localCatalog nodeId).map fun assignment =>
    assignment.region.regionId).Perm ((view.filter (onNode nodeId)).map RegionMetadata.regionId)
  places : ∀ assignment ∈ peersOnNode localCatalog nodeId, ∀ region ∈ view,
    region.regionId = assignment.region.regionId →
      ∃ location, region.peers[assignment.peerIndex]? = some location ∧ location.nodeId = nodeId

/-! ## Ids in the view -/

lemma regionCatalog_ids {regions catalog : List RegionMetadata}
    (h : regionCatalog regions = .ok catalog) :
    catalog.Pairwise fun a b => a.regionId ≠ b.regionId := by
  obtain ⟨-, rfl, hfollows⟩ := regionCatalog_eq_ok.1 h
  exact pairwise_map.2 hfollows.ids

/-- No two Regions share an id. -/
def DistinctIds (regions : List RegionMetadata) : Prop :=
  regions.Pairwise fun a b => a.regionId ≠ b.regionId

variable {answer : MetadataState → MetadataCommandResult}

/-- What a handler publishes comes from the constructor of the catalog; if that throws, the view
stays. -/
lemma publish_ids {τ : MetadataState} (h : ∀ view ∈ τ.published.catalog, DistinctIds view) :
    ∀ view ∈ (τ.publish answer).2.published.catalog, DistinctIds view := by
  unfold publish
  split
  · intro view hview
    cases hview
  · split
    · exact h
    · rename_i catalog hcatalog
      rintro view ⟨⟩
      exact regionCatalog_ids hcatalog

variable {command : MetadataCommand}

lemma apply_ids {answer : MetadataCommandResult × MetadataState}
    (happlied : Applied σ command answer) (h : ∀ view ∈ σ.published.catalog, DistinctIds view) :
    ∀ view ∈ answer.2.published.catalog, DistinctIds view := by
  refine happlied.lift (P := fun τ => ∀ view ∈ τ.published.catalog, DistinctIds view) h
    (fun houtcome => ?_) fun _ _ hτ => hτ
  cases houtcome with
  | refused | kept | exhausted => exact h
  | @installed τ answer hinstalls =>
    have hsame : τ.published = σ.published := by
      cases hinstalls with
      | @allocateIds kind => cases kind <;> rfl
      | _ => rfl
    exact publish_ids (hsame ▸ h)

/-- No two Regions of the published view share an id, whatever commands were applied. -/
lemma published_ids {guard : MetadataState → MetadataCommand → Prop}
    (h : metadataSystem.Reachable guard σ) : ∀ view ∈ σ.published.catalog, DistinctIds view := by
  refine h.invariant (I := fun σ => ∀ view ∈ σ.published.catalog, DistinctIds view) ?_ ?_
  · rintro _ rfl view hview
    cases hview
  · rintro σ command _ hσ - rfl
    exact apply_ids (apply_applied σ command) hσ

/-! ## What is built -/

/-- The assignments with their peers, if nothing was reported. -/
lemma foldl_add {build : RegionPeerAssignment → Except NodeBootstrapFailure RegionPeer}
    {assignments : List RegionPeerAssignment} {report : NodeBootstrapReport}
    (h : (assignments.foldl (fun report assignment => report.add (build assignment))
      report).failures = []) :
    ∃ built, (assignments.foldl (fun report assignment => report.add (build assignment))
        report).peers = report.peers ++ built ∧
      List.Forall₂ (fun assignment peer => build assignment = .ok peer) assignments built := by
  have hgrows (assignments : List RegionPeerAssignment) (report : NodeBootstrapReport) :
      report.failures <+: (assignments.foldl (fun report assignment =>
        report.add (build assignment)) report).failures := by
    induction assignments generalizing report with
    | nil => exact prefix_rfl
    | cons assignment rest ih =>
      refine List.IsPrefix.trans ?_ (ih (report.add (build assignment)))
      cases build assignment with
      | ok peer => exact prefix_rfl
      | error failure => exact prefix_append _ _
  induction assignments generalizing report with
  | nil => exact ⟨[], by simp, .nil⟩
  | cons assignment rest ih =>
    rw [foldl_cons] at h ⊢
    cases hbuild : build assignment with
    | error failure =>
      rw [hbuild] at h
      have hnone := hgrows rest (report.add (.error failure))
      rw [h, prefix_nil] at hnone
      simp [NodeBootstrapReport.add] at hnone
    | ok peer =>
      rw [hbuild] at h
      obtain ⟨built, hpeers, hbuilt⟩ := ih h
      refine ⟨peer :: built, ?_, .cons hbuild hbuilt⟩
      rw [hpeers]
      simp [NodeBootstrapReport.add]

variable {revision : UInt64}

/-- A report that is ok has one peer for every assignment. -/
lemma forall₂_of_ok {nodeId : Int32} {localCatalog view : List RegionMetadata}
    {factory : RegionPeerFactory}
    (h : (bootstrapNodeRegions nodeId localCatalog view revision factory).ok = true) :
    List.Forall₂ (fun assignment peer => buildPeer view revision factory assignment = .ok peer)
      (peersOnNode localCatalog nodeId)
      (bootstrapNodeRegions nodeId localCatalog view revision factory).peers := by
  generalize hreport : bootstrapNodeRegions nodeId localCatalog view revision factory = report at h
  unfold bootstrapNodeRegions at hreport
  dsimp only at hreport
  split_ifs at hreport
  · cases hreport
    cases h
  · cases hreport
    cases h
  · split at hreport
    · cases hreport
      cases h
    · unfold NodeBootstrapReport.allOrNothing at hreport
      split_ifs at hreport with hnone
      · obtain ⟨built, hpeers, hbuilt⟩ := foldl_add (isEmpty_iff.1 hnone)
        rw [← hreport, hpeers]
        exact hbuilt
      · rw [← hreport] at h
        simp [NodeBootstrapReport.ok] at h

/-- The peer of an assignment: a Region of the view with its id, at the place of the assignment. -/
structure PeerOf (view : List RegionMetadata) (assignment : RegionPeerAssignment)
    (peer : RegionPeer) : Prop where
  mem : peer.descriptor ∈ view
  regionId : peer.descriptor.regionId = assignment.region.regionId
  me : peer.me = assignment.peerIndex

variable {assignment : RegionPeerAssignment} {peer : RegionPeer} {view : List RegionMetadata}

lemma peerOf_of_buildPeer {opens : RegionMetadata → ℕ → Except String Unit}
    (h : buildPeer view revision (NodeServer.factory opens) assignment = .ok peer) :
    PeerOf view assignment peer := by
  unfold buildPeer at h
  dsimp only at h
  split at h
  · cases h
  · rename_i descriptor hfind
    have hmem := mem_of_find?_eq_some hfind
    have hid : descriptor.regionId = assignment.region.regionId := by simpa using find?_some hfind
    split_ifs at h with hrevision hplace
    rw [NodeServer.factory, if_neg hplace] at h
    cases hopen : opens descriptor assignment.peerIndex with
    | error message =>
      rw [hopen] at h
      cases h
    | ok _ =>
      rw [hopen] at h
      cases h
      exact ⟨hmem, hid, rfl⟩

section

variable {view : List RegionMetadata} {assignments : List RegionPeerAssignment}
  {peers : List RegionPeer}

section

variable (h : List.Forall₂ (PeerOf view) assignments peers)

include h

lemma regionIds_of_forall₂ : (peers.map RegionPeer.descriptor).map regionId =
      assignments.map fun assignment => assignment.region.regionId := by
  induction h with
  | nil => rfl
  | cons hfirst _ ih =>
    simp only [map_cons, hfirst.regionId]
    rw [ih]

lemma exists_peer_of_forall₂ (hmem : assignment ∈ assignments) :
    ∃ peer ∈ peers, PeerOf view assignment peer := by
  obtain ⟨k, hk, rfl⟩ := getElem_of_mem hmem
  exact ⟨_, getElem_mem (h.length_eq ▸ hk), h.get hk (h.length_eq ▸ hk)⟩

lemma exists_assignment_of_forall₂ (hmem : peer ∈ peers) :
    ∃ assignment ∈ assignments, PeerOf view assignment peer := by
  obtain ⟨k, hk, rfl⟩ := getElem_of_mem hmem
  exact ⟨_, getElem_mem (h.length_eq ▸ hk), h.get (h.length_eq ▸ hk) hk⟩

end

end

lemma eq_of_regionId (hids : DistinctIds view) {a b : RegionMetadata}
    (ha : a ∈ view) (hb : b ∈ view) (h : a.regionId = b.regionId) : a = b := by
  by_contra hne
  have hsymm : Std.Symm fun a b : RegionMetadata => a.regionId ≠ b.regionId := ⟨fun _ _ => Ne.symm⟩
  exact hids.forall ha hb hne h

/-- Among Regions with distinct ids, the ids determine a list up to its order. -/
lemma perm_of_regionId_perm {view some_ all_ : List RegionMetadata} (hids : DistinctIds view)
    (hsome : ∀ region ∈ some_, region ∈ view) (hall : all_.Sublist view)
    (h : (some_.map regionId).Perm (all_.map regionId)) : some_.Perm all_ := by
  have hallIds : (all_.map regionId).Nodup := pairwise_map.2 (hids.sublist hall)
  refine (perm_ext_iff_of_nodup (h.nodup_iff.2 hallIds).of_map hallIds.of_map).2 ?_
  intro region
  constructor
  · intro hregion
    obtain ⟨other, hother, heq⟩ := mem_map.1 (h.subset (mem_map_of_mem hregion))
    rwa [← eq_of_regionId hids (hall.subset hother) (hsome region hregion) heq]
  · intro hregion
    obtain ⟨other, hother, heq⟩ := mem_map.1 (h.symm.subset (mem_map_of_mem hregion))
    rwa [← eq_of_regionId hids (hsome other hother) (hall.subset hregion) heq]

/-- A node whose bootstrap is ok has built exactly its peers if and only if its configuration
assigns to it what the view does. -/
theorem buildsExactly_iff_sameAssignment (localCatalog : StaticCatalog) (σ : MetadataState)
    (h : BootstrappedWith localCatalog.regions σ) (view : List RegionMetadata)
    (hview : σ.published.catalog = some view) (nodeId : Int32)
    (opens : RegionMetadata → ℕ → Except String Unit)
    (hok : (bootstrapNodeRegions nodeId localCatalog.regions view σ.published.revision
      (NodeServer.factory opens)).ok = true) :
    BuildsExactly nodeId view (bootstrapNodeRegions nodeId localCatalog.regions view
        σ.published.revision (NodeServer.factory opens)).peers ↔
      SameAssignment nodeId localCatalog.regions view := by
  have hids : DistinctIds view := published_ids
    (((TransitionSystem.Reachable.initial rfl).tail h.accepted rfl).reaches h.reaches) view hview
  have hbuilt := forall₂_of_ok hok
  generalize (bootstrapNodeRegions nodeId localCatalog.regions view σ.published.revision
    (NodeServer.factory opens)).peers = peers at hbuilt ⊢
  have hmade : List.Forall₂ (PeerOf view) (peersOnNode localCatalog.regions nodeId) peers :=
    hbuilt.imp fun _ _ hbuild => peerOf_of_buildPeer hbuild
  have hregionIds := regionIds_of_forall₂ hmade
  constructor
  · intro hexact
    refine ⟨?_, ?_⟩
    · rw [← hregionIds]
      exact hexact.regions.map _
    · intro assignment hassignment region hregion hid
      obtain ⟨peer, hpeer, hof⟩ := exists_peer_of_forall₂ hmade hassignment
      obtain ⟨location, hlocation, hnode⟩ := hexact.places peer hpeer
      have hsame := eq_of_regionId hids hregion hof.mem (hid.trans hof.regionId.symm)
      rw [RegionPeer.localPeerDescriptor, hof.me, ← hsame] at hlocation
      exact ⟨location, hlocation, hnode⟩
  · intro hassigned
    refine ⟨?_, ?_⟩
    · refine perm_of_regionId_perm hids ?_ filter_sublist ?_
      · intro region hregion
        obtain ⟨peer, hpeer, rfl⟩ := mem_map.1 hregion
        obtain ⟨assignment, -, hof⟩ := exists_assignment_of_forall₂ hmade hpeer
        exact hof.mem
      · rw [hregionIds]
        exact hassigned.regions
    · intro peer hpeer
      obtain ⟨assignment, hassignment, hof⟩ := exists_assignment_of_forall₂ hmade hpeer
      obtain ⟨location, hlocation, hnode⟩ :=
        hassigned.places assignment hassignment peer.descriptor hof.mem hof.regionId
      refine ⟨location, ?_, hnode⟩
      rw [RegionPeer.localPeerDescriptor, hof.me]
      exact hlocation

/-! ## Runs -/

/-- One Region with one peer, on node 0. -/
def oneRegion : RegionMetadata where
  regionId := 10
  peers := [{ nodeId := 0, host := [1], port := 26001, storeId := 1, peerId := 101 }]
  leaderPeerId := 101

def oneRegionCatalog : StaticCatalog where
  configured := [oneRegion]
  regions := [oneRegion]
  valid := rfl

/-- The Region below `7`, with a second peer on node 1. -/
def leftRegion : RegionMetadata :=
  { oneRegion with
    endKey := [7]
    peers := oneRegion.peers ++
      [{ nodeId := 1, host := [2], port := 26002, storeId := 2, peerId := 102 }] }

/-- The keys from `7` on, with one peer, on node 1. -/
def rightRegion : RegionMetadata where
  regionId := 20
  startKey := [7]
  peers := [{ nodeId := 1, host := [2], port := 26002, storeId := 2, peerId := 201 }]
  leaderPeerId := 201

def twoRegionCatalog : StaticCatalog where
  configured := [rightRegion, leftRegion]
  regions := [leftRegion, rightRegion]
  valid := rfl

/-- The metadata after a bootstrap with the catalog and some commands. -/
def afterCommands (localCatalog : StaticCatalog) (commands : List MetadataCommand) :
    MetadataState :=
  MetadataState.run (MetadataState.apply {} ⟨[1], 0, .bootstrap [1]
    (localCatalog.regions.map toProtoRegion) [⟨1, [1], 26001⟩, ⟨2, [2], 26002⟩]⟩).2 commands

def afterCommands_bootstrappedWith {localCatalog : StaticCatalog}
    {commands : List MetadataCommand}
    (haccepted : Accepted {} ⟨[1], 0, .bootstrap [1]
      (localCatalog.regions.map toProtoRegion) [⟨1, [1], 26001⟩, ⟨2, [2], 26002⟩]⟩)
    (h : TransitionSystem.Guarded (fun σ command => (MetadataState.apply σ command).2) Accepted
      (afterCommands localCatalog []) commands) :
    BootstrappedWith localCatalog.regions (afterCommands localCatalog commands) where
  mutationId := [1]
  configDigest := [1]
  stores := [⟨1, [1], 26001⟩, ⟨2, [2], 26002⟩]
  accepted := haccepted
  reaches := h.reaches

/-- A Region is split at a key. -/
def splitRun (regionId : UInt64) (splitKey : Bytes) : List MetadataCommand :=
  [⟨[2], 1, .prepareSplit regionId splitKey (some ⟨1, 1⟩)⟩, ⟨[3], 2, .commitSplit regionId⟩]

/-- The right Region is split, which has no peer on node 0: the node builds its peer of the left one
from a view of three Regions. -/
theorem buildsExactly_otherNode_split :
    (afterCommands twoRegionCatalog (splitRun 20 [9])).regions.length = 3 ∧
      BuildsExactly 0 (afterCommands twoRegionCatalog (splitRun 20 [9])).regions
        (bootstrapNodeRegions 0 twoRegionCatalog.regions
          (afterCommands twoRegionCatalog (splitRun 20 [9])).regions 3
          (NodeServer.factory fun _ _ => .ok ())).peers := by
  refine ⟨by decide, (buildsExactly_iff_sameAssignment twoRegionCatalog
    (afterCommands twoRegionCatalog (splitRun 20 [9]))
    (afterCommands_bootstrappedWith (by decide) (by decide)) _ rfl 0 (fun _ _ => .ok ())
    (by decide)).2 ⟨by decide, ?_⟩⟩
  have hplaces : ∀ assignment ∈ peersOnNode twoRegionCatalog.regions 0,
      ∀ region ∈ (afterCommands twoRegionCatalog (splitRun 20 [9])).regions,
        region.regionId = assignment.region.regionId →
          region.peers[assignment.peerIndex]?.map RegionPeerLocation.nodeId = some 0 := by decide
  intro assignment hassignment region hregion hid
  exact Option.map_eq_some_iff.1 (hplaces assignment hassignment region hregion hid)

/-- After a split the node does not build the child, and its bootstrap is ok. -/
theorem buildsExactly_fails_after_split : ¬∀ (localCatalog : StaticCatalog) (σ : MetadataState),
      BootstrappedWith localCatalog.regions σ → ∀ view, σ.published.catalog = some view →
        ∀ (nodeId : Int32) (opens : RegionMetadata → ℕ → Except String Unit),
          (bootstrapNodeRegions nodeId localCatalog.regions view σ.published.revision
            (NodeServer.factory opens)).ok = true →
          BuildsExactly nodeId view (bootstrapNodeRegions nodeId localCatalog.regions view
            σ.published.revision (NodeServer.factory opens)).peers := by
  intro h
  have hexact := h oneRegionCatalog (afterCommands oneRegionCatalog (splitRun 10 [7]))
    (afterCommands_bootstrappedWith (by decide) (by decide)) _ rfl 0 (fun _ _ => .ok ())
    (by decide)
  exact absurd hexact.regions.length_eq (by decide)

end StrataKV.Region
