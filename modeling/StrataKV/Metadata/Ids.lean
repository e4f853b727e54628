import StrataKV.Metadata.Lineage

/-!
# Ids that are handed out

An id is handed out by `AllocateIds`, is created for the child of a split or the target of a
migration, or comes with a Region of `Bootstrap` or `ReplaceRegions`: `introduced`. The marks are at
least as great as every id that is in use, pending splits and migrations included, and never go back;
an id above the mark has therefore never been seen before. The handlers take ids above the marks,
with two exceptions, which `FreshIds` excludes. `PrepareSplit` narrows the id of the child to an
`int`, and `ReplaceRegions` takes the ids that its descriptors have.
-/

namespace StrataKV.Metadata

open Std (ExtTreeMap)
open MetadataState List UInt64 RegionDescriptor

variable {σ τ ρ : MetadataState} {command : MetadataCommand} {kind : IdNamespace} {id : UInt64}

/-! ## Ids of descriptors -/

/-- The Region and the child of its pending split. -/
def RegionDescriptor.withChild (region : RegionDescriptor) : List RegionDescriptor :=
  region :: (region.splitPending.map Prod.snd).toList

/-- The ids of the Regions, or of their peers. -/
def idsOf (kind : IdNamespace) (regions : List RegionDescriptor) : List UInt64 :=
  match kind with
  | .region => regions.map RegionDescriptor.regionId
  | .peer => (regions.flatMap RegionDescriptor.peers).map PeerDescriptor.peerId
  | .store | .unknown _ => []

/-- The descriptors of the Regions and of the children of pending splits. -/
def MetadataState.descriptors (σ : MetadataState) : List RegionDescriptor :=
  (σ.regions.map toProtoRegion).flatMap RegionDescriptor.withChild

/-- The id belongs to a Region, a peer or a Store; pending splits and migrations count. -/
def InUse (σ : MetadataState) (kind : IdNamespace) (id : UInt64) : Prop :=
  match kind with
  | .region => id ∈ idsOf .region σ.descriptors
  | .peer => id ∈ idsOf .peer σ.descriptors ∨
      ∃ (regionId : UInt64) (migration : ReplicaMigrationStatus),
        σ.migrations[regionId]? = some migration ∧ migration.targetPeer.peerId = id
  | .store => σ.stores.contains id = true ∨
      ∃ region ∈ σ.descriptors, ∃ peer ∈ region.peers, peer.storeId = id
  | .unknown _ => False

/-- The ids that an accepted command brings in, from the answer or from the command. A Region of
`ReplaceRegions` brings in what no removed Region had. -/
def introducedBy (σ : MetadataState) (command : MetadataCommand) (result : MetadataCommandResult)
    (kind : IdNamespace) : List UInt64 :=
  match command.operation with
  | .allocateIds allocated _ =>
    if kind = allocated then
      (List.range result.allocatedCount.toNat).map fun i => result.firstAllocatedId + UInt64.ofNat i
    else []
  | .prepareSplit .. =>
    idsOf kind (result.regions.flatMap fun region => (region.splitPending.map Prod.snd).toList)
  | .prepareMovePeer .. =>
    if kind = .peer then
      (result.migration.map fun migration => migration.targetPeer.peerId).toList
    else []
  | .bootstrap _ regions _ => idsOf kind (regions.flatMap RegionDescriptor.withChild)
  | .replaceRegions removeRegionIds addRegions =>
    (idsOf kind (addRegions.flatMap RegionDescriptor.withChild)).filter fun id =>
      id ∉ idsOf kind ((takeRemoved removeRegionIds σ.regions).1.map toProtoRegion)
  | _ => []

/-- The id is in the state as it was given: not narrowed, and a child has the next id. What
`AllocateIds` hands out is not stored. -/
def Stored (σ τ : MetadataState) (command : MetadataCommand) (kind : IdNamespace) (id : UInt64) :
    Prop :=
  match command.operation with
  | .allocateIds .. => True
  | .prepareSplit .. => InUse τ kind id ∧ (kind = .region → id = σ.regionIdHighWater + 1)
  | _ => InUse τ kind id

/-- The ids that the command brings in. A command that is rejected brings in none, and one that was
recorded before is only answered once more. -/
def introduced (σ : MetadataState) (command : MetadataCommand) (kind : IdNamespace) : List UInt64 :=
  if (σ.apply command).1.error = .ok ∧ σ.dedup.contains command.mutationId = false then
    introducedBy σ command (σ.apply command).1 kind
  else []

lemma toProtoRegion_peers (region : RegionMetadata) :
    (toProtoRegion region).peers = region.peers.map toProtoPeer := by
  match region with
  | ⟨_, _, _, _, _, _, _, none⟩ | ⟨_, _, _, _, _, _, _, some (_, _)⟩ => rw [toProtoRegion]

lemma toProtoRegion_splitPending (region : RegionMetadata) : (toProtoRegion region).splitPending =
      region.splitPending.map fun pending => (pending.1, toProtoRegion pending.2) := by
  match region with
  | ⟨_, _, _, _, _, _, _, none⟩ | ⟨_, _, _, _, _, _, _, some (_, _)⟩ => rw [toProtoRegion]; rfl

lemma idsOf_append (kind : IdNamespace) (a b : List RegionDescriptor) :
    idsOf kind (a ++ b) = idsOf kind a ++ idsOf kind b := by
  cases kind <;> simp [idsOf]

lemma idsOf_region (regions : List RegionMetadata) :
    idsOf .region (regions.map toProtoRegion) = regions.map fun region => ofInt region.regionId := by
  simp [idsOf, toProtoRegion_regionId]

lemma idsOf_peer (regions : List RegionMetadata) : idsOf .peer (regions.map toProtoRegion) =
      (regions.flatMap RegionMetadata.peers).map RegionPeerLocation.peerId := by
  induction regions with
  | nil => rfl
  | cons region rest ih =>
    simp only [idsOf, map_cons, flatMap_cons, map_append] at ih ⊢
    rw [ih, toProtoRegion_peers, map_map]
    rfl

lemma idsOf_map {f : RegionMetadata → RegionMetadata}
    (hid : ∀ region, (f region).regionId = region.regionId)
    (hpeers : ∀ region, (f region).peers = region.peers) (regions : List RegionMetadata) :
    idsOf kind ((regions.map f).map toProtoRegion) = idsOf kind (regions.map toProtoRegion) := by
  cases kind with
  | region =>
    rw [idsOf_region, idsOf_region, map_map]
    simp [hid]
  | peer =>
    rw [idsOf_peer, idsOf_peer, flatMap_map]
    simp [hpeers]
  | store | unknown => rfl

lemma idsOf_perm {regions others : List RegionMetadata} (h : regions.Perm others) :
    (idsOf kind (regions.map toProtoRegion)).Perm (idsOf kind (others.map toProtoRegion)) := by
  cases kind with
  | region =>
    rw [idsOf_region, idsOf_region]
    exact h.map _
  | peer =>
    rw [idsOf_peer, idsOf_peer]
    exact (h.flatMap_right _).map _
  | store | unknown => exact .refl _

/-- Validated and stamped Regions have the ids of the candidates. -/
lemma idsOf_validated (kind : IdNamespace) {candidates regions : List RegionMetadata}
    (revision : UInt64) (hcandidates : ∀ region ∈ candidates, region.Identified)
    (hvalid : regionCatalog candidates = .ok regions) :
    (idsOf kind ((regions.map fun region => region.stamped revision).map toProtoRegion)).Perm
      (idsOf kind (candidates.map toProtoRegion)) := by
  rw [idsOf_map (f := fun region => region.stamped revision) (fun _ => rfl) (fun _ => rfl),
    regionCatalog_eq_map (fun region hr => (hcandidates region hr).hasIds) hvalid,
    idsOf_map (f := RegionMetadata.withLeader) (fun _ => rfl) (fun _ => rfl)]
  exact idsOf_perm (perm_insertionSort _ candidates)

lemma IsCatalog.idsOf_nodup {regions : List RegionMetadata} (h : IsCatalog regions) :
    (idsOf kind (regions.map toProtoRegion)).Nodup := by
  cases kind with
  | region =>
    rw [idsOf_region, List.Nodup, pairwise_map]
    exact h.ids.imp fun hne heq => hne (ofInt_injective heq)
  | peer =>
    rw [idsOf_peer, List.Nodup, pairwise_map]
    exact h.peers.imp fun hpq => hpq.1
  | store | unknown => exact nodup_nil

variable {descriptors : List RegionDescriptor}

lemma idsOf_decoded {regions : List RegionMetadata} (h : decodeRegions descriptors = .ok regions) :
    idsOf kind (regions.map toProtoRegion) = idsOf kind descriptors := by
  have hread := forall₂_of_decodeRegions h
  clear h
  induction hread with
  | nil => rfl
  | @cons descriptor first rest others hfirst _ ih =>
    obtain ⟨hid, hpeers⟩ := fromProtoRegion_spec hfirst.2
    have hhead : idsOf kind [toProtoRegion first] = idsOf kind [descriptor] := by
      cases kind <;> simp [idsOf, toProtoRegion_regionId, toProtoRegion_peers, hid, hpeers]
    calc idsOf kind ((first :: others).map toProtoRegion)
        = idsOf kind [toProtoRegion first] ++ idsOf kind (others.map toProtoRegion) :=
          idsOf_append kind [_] _
      _ = idsOf kind [descriptor] ++ idsOf kind rest := by rw [hhead, ih]
      _ = idsOf kind (descriptor :: rest) := (idsOf_append kind [_] _).symm

variable {regions : List RegionDescriptor}

lemma idsOf_booted (kind : IdNamespace)
    {candidate validated : List RegionMetadata} (revision : UInt64)
    (hdecoded : decodeRegions regions = .ok candidate)
    (hvalid : regionCatalog (candidate.map fun region => region.stamped revision) = .ok validated) :
    (idsOf kind ((validated.map fun region => region.stamped revision).map toProtoRegion)).Perm
      (idsOf kind regions) := by
  have hperm := idsOf_validated kind revision
    (stamped_identified (decodeRegions_identified hdecoded)) hvalid
  rw [idsOf_map (f := fun region => region.stamped revision) (fun _ => rfl) (fun _ => rfl) candidate,
    idsOf_decoded hdecoded] at hperm
  exact hperm

/-- A replacement installs the ids of the Regions it retains and of its descriptors. -/
lemma idsOf_replaced (kind : IdNamespace) {removeRegionIds left : List UInt64}
    {addRegions : List RegionDescriptor}
    {removed retained added validated : List RegionMetadata} (revision : UInt64) (hcore : Core σ)
    (htaken : takeRemoved removeRegionIds σ.regions = (removed, retained, left))
    (hdecoded : decodeRegions addRegions = .ok added) (hvalid : regionCatalog
      (retained ++ added.map fun region => region.stamped revision) = .ok validated) :
    (idsOf kind ((validated.map fun region => region.stamped revision).map toProtoRegion)).Perm
      (idsOf kind (retained.map toProtoRegion) ++ idsOf kind addRegions) := by
  have hperm := idsOf_validated kind revision (hcore.replaced htaken hdecoded revision) hvalid
  rw [map_append, idsOf_append,
    idsOf_map (f := fun region => region.stamped revision) (fun _ => rfl) (fun _ => rfl) added,
    idsOf_decoded hdecoded] at hperm
  exact hperm

/-- Ids of descriptors that are read are not zero. -/
lemma idsOf_ne_zero {regions : List RegionMetadata}
    (h : decodeRegions descriptors = .ok regions) (hid : id ∈ idsOf kind descriptors) : id ≠ 0 := by
  rw [← idsOf_decoded h] at hid
  cases kind with
  | region =>
    rw [idsOf_region] at hid
    obtain ⟨region, hregion, rfl⟩ := mem_map.1 hid
    obtain ⟨descriptor, -, hne, hread⟩ := exists_of_mem_decodeRegions h hregion
    rw [(fromProtoRegion_spec hread).1]
    exact hne
  | peer =>
    rw [idsOf_peer] at hid
    obtain ⟨peer, hpeer, rfl⟩ := mem_map.1 hid
    obtain ⟨region, hregion, hpeer⟩ := mem_flatMap.1 hpeer
    exact ((decodeRegions_identified h region hregion).hasIds peer hpeer).2
  | store | unknown => cases hid

lemma flatMap_withChild (h : ∀ region ∈ regions, region.splitPending.isNone = true) :
    regions.flatMap withChild = regions := by
  induction regions with
  | nil => rfl
  | cons region rest ih =>
    obtain ⟨hregion, hrest⟩ := forall_mem_cons.1 h
    rw [flatMap_cons, ih hrest, withChild, Option.isNone_iff_eq_none.1 hregion]
    rfl

lemma mem_descriptors {descriptor : RegionDescriptor} (h : descriptor ∈ σ.descriptors) :
    ∃ region ∈ σ.regions, descriptor = toProtoRegion region ∨
      ∃ pending ∈ region.splitPending, descriptor = toProtoRegion pending.2 := by
  obtain ⟨_, hmem, hdescriptor⟩ := mem_flatMap.1 h
  obtain ⟨region, hregion, rfl⟩ := mem_map.1 hmem
  refine ⟨region, hregion, ?_⟩
  rw [withChild, toProtoRegion_splitPending] at hdescriptor
  rcases mem_cons.1 hdescriptor with rfl | hchild
  · exact .inl rfl
  · cases hpending : region.splitPending with
    | none => simp [hpending] at hchild
    | some pending =>
      rw [hpending] at hchild
      exact .inr ⟨pending, rfl, by simpa using hchild⟩

lemma idsOf_subset {regions others : List RegionDescriptor}
    (hsubset : ∀ region ∈ regions, region ∈ others) (h : id ∈ idsOf kind regions) :
    id ∈ idsOf kind others := by
  cases kind with
  | region =>
    obtain ⟨region, hregion, rfl⟩ := mem_map.1 h
    exact mem_map_of_mem (hsubset region hregion)
  | peer =>
    obtain ⟨peer, hpeer, rfl⟩ := mem_map.1 h
    obtain ⟨region, hregion, hpeer⟩ := mem_flatMap.1 hpeer
    exact mem_map_of_mem (mem_flatMap.2 ⟨region, hsubset region hregion, hpeer⟩)
  | store | unknown => cases h

lemma inUse_of_subset
    (hsubset : ∀ region ∈ regions, region ∈ σ.descriptors) (h : id ∈ idsOf kind regions) :
    InUse σ kind id := by
  have hmem := idsOf_subset hsubset h
  cases kind with
  | region => exact hmem
  | peer => exact .inl hmem
  | store | unknown => cases h

/-! ## Pending splits -/

/-- The marks cover the child of a split, which is not being split itself. -/
structure ChildCovered (σ : MetadataState) (child : RegionMetadata) : Prop where
  plain : child.splitPending = none
  regionId : ofInt child.regionId ≤ σ.regionIdHighWater
  peers : ∀ peer ∈ child.peers, peer.peerId ≤ σ.peerIdHighWater ∧ peer.storeId ≤ σ.storeIdHighWater

lemma ChildCovered.mono {child : RegionMetadata} (h : ChildCovered σ child) (hmarks : MarksLE σ τ) :
    ChildCovered τ child where
  plain := h.plain
  regionId := UInt64.le_trans h.regionId hmarks.region
  peers := fun peer hpeer => ⟨UInt64.le_trans (h.peers peer hpeer).1 hmarks.peer,
    UInt64.le_trans (h.peers peer hpeer).2 hmarks.store⟩

/-- The marks cover the children of all pending splits. -/
def PendingCovered (σ : MetadataState) : Prop :=
  ∀ region ∈ σ.regions, ∀ pending ∈ region.splitPending, ChildCovered σ pending.2

lemma PendingCovered.mono (h : PendingCovered σ) (hregions : τ.regions = σ.regions)
    (hmarks : MarksLE σ τ) : PendingCovered τ := by
  intro region hregion pending hpending
  rw [hregions] at hregion
  exact (h region hregion pending hpending).mono hmarks

/-- Descriptors bring in no pending splits, Regions of `ReplaceRegions` have the id of a Region that
is removed or one above the mark, and the id of a split's child fits in an `int`. -/
def FreshRegions (σ : MetadataState) (command : MetadataCommand) : Prop :=
  match command.operation with
  | .bootstrap _ regions _ => ∀ region ∈ regions, region.splitPending.isNone = true
  | .replaceRegions removeRegionIds addRegions =>
    ∀ region ∈ addRegions, region.splitPending.isNone = true ∧
      (region.regionId ∈ removeRegionIds ∨ σ.regionIdHighWater < region.regionId)
  | .prepareSplit .. => σ.regionIdHighWater < intMax
  | _ => True

lemma childPeers_ids {highWater mark : UInt64} {peers result : List RegionPeerLocation}
    (h : childPeers highWater peers = (some result, mark)) :
    (∀ peer ∈ result, highWater < peer.peerId ∧ peer.peerId ≤ mark) ∧
      (result.map RegionPeerLocation.peerId).Nodup := by
  induction peers generalizing highWater result with
  | nil =>
    cases h
    simp
  | cons first rest ih =>
    rw [childPeers] at h
    split at h
    · cases h
    · rename_i peerId hadd
      rcases hplaced : childPeers peerId rest with ⟨placed, next⟩
      rw [hplaced] at h
      obtain ⟨hmap, rfl⟩ := Prod.mk.inj h
      obtain ⟨others, rfl, rfl⟩ := Option.map_eq_some_iff.1 hmap
      obtain ⟨hbounds, hnodup⟩ := ih hplaced
      have hlt : highWater < peerId := by
        rw [lt_iff_toNat_lt, (safeAdd_eq hadd).2.2]
        simp
      refine ⟨forall_mem_cons.2 ⟨⟨hlt, childPeers_mark hplaced⟩, ?_⟩, ?_⟩
      · intro peer hpeer
        exact ⟨UInt64.lt_trans hlt (hbounds peer hpeer).1, (hbounds peer hpeer).2⟩
      · refine nodup_cons.2 ⟨?_, hnodup⟩
        intro hmem
        obtain ⟨peer, hpeer, heq⟩ := mem_map.1 hmem
        exact UInt64.ne_of_lt (hbounds peer hpeer).1 heq.symm

variable {mark next : UInt64}

/-- The next id fits in an `int` if the mark is below the greatest one. -/
lemma le_intMax_of_safeAdd (h : safeAdd mark 1 = some next)
    (hlt : mark < intMax) : next ≤ intMax := by
  rw [(safeAdd_eq h).2.1]
  unfold intMax at hlt ⊢
  grind

variable {answer : MetadataState → MetadataCommandResult}

lemma PendingCovered.installs
    (h : PendingCovered σ) (hinstalls : Installs σ command τ answer) (hcore : Core σ)
    (hcovered : Covered σ) (hfresh : FreshRegions σ command) : PendingCovered τ := by
  have hmarks := hinstalls.marks
  intro region hregion pending hpending
  have hold {old : RegionMetadata} (hmem : old ∈ σ.regions)
      (hsame : region.splitPending = old.splitPending) : ChildCovered τ pending.2 := by
    rw [hsame] at hpending
    exact (h old hmem pending hpending).mono hmarks
  have hnone (hnone : region.splitPending = none) : False := by
    rw [hnone] at hpending
    cases hpending
  rw [FreshRegions] at hfresh
  cases hinstalls.regionStep hcore region hregion with
  | kept hmem _ halike | moved _ _ hmem _ halike => exact hold hmem halike.splitPending
  | booted hop _ hmem _ hread halike =>
    rw [hop] at hfresh
    have hplain := (reads_of_fromProtoRegion hread).plain (hfresh _ hmem)
    exact (hnone (halike.splitPending.trans hplain)).elim
  | added hop _ hmem hread _ halike =>
    rw [hop] at hfresh
    have hplain := (reads_of_fromProtoRegion hread).plain (hfresh _ hmem).1
    exact (hnone (halike.splitPending.trans hplain)).elim
  | @marked _ splitKey _ parent childId mark peers hop hfound hallocated hplaced hchild halike =>
    rw [hop] at hfresh
    rw [halike.splitPending] at hpending
    cases hpending
    refine ⟨rfl, ?_, ?_⟩
    · show ofInt (toInt childId) ≤ _
      rw [ofInt_toInt (le_intMax_of_safeAdd hallocated hfresh)]
      exact hchild.1
    · intro peer hpeer
      obtain ⟨old, hmem, peerId, -, rfl⟩ := mem_childPeers hplaced hpeer
      have hstore := (hcovered.peers parent (mem_of_findParent hfound) old hmem).2
      exact ⟨UInt64.le_trans ((childPeers_ids hplaced).1 _ hpeer).2 hchild.2,
        UInt64.le_trans hstore hmarks.store⟩
  | shrunken _ _ _ halike => exact (hnone halike.splitPending).elim
  | child _ hfound hchild halike =>
    have hplain := (h _ (mem_of_findParent hfound) _ hchild).plain
    exact (hnone (halike.splitPending.trans hplain)).elim

/-! ## The marks cover what is in use -/

/-- Peers of `ReplaceRegions` have the id of a peer of a Region that is removed, or one above the
mark. -/
def FreshPeers (σ : MetadataState) (command : MetadataCommand) : Prop :=
  match command.operation with
  | .replaceRegions removeRegionIds addRegions =>
    ∀ id ∈ idsOf .peer addRegions,
      id ∈ idsOf .peer ((takeRemoved removeRegionIds σ.regions).1.map toProtoRegion) ∨
        σ.peerIdHighWater < id
  | _ => True

def FreshIds (σ : MetadataState) (command : MetadataCommand) : Prop :=
  StepFits σ command ∧ FreshRegions σ command ∧ FreshPeers σ command

lemma InUse.le_highWater (hused : InUse σ kind id) (hcovered : Covered σ)
    (hpending : PendingCovered σ) : id ≤ σ.highWater kind := by
  have hregion {descriptor : RegionDescriptor} (hmem : descriptor ∈ σ.descriptors) :
      descriptor.regionId ≤ σ.regionIdHighWater ∧ ∀ peer ∈ descriptor.peers,
        peer.peerId ≤ σ.peerIdHighWater ∧ peer.storeId ≤ σ.storeIdHighWater := by
    obtain ⟨region, hregion, rfl | ⟨pending, hchild, rfl⟩⟩ := mem_descriptors hmem
    · rw [toProtoRegion_regionId, toProtoRegion_peers, forall_mem_map]
      exact ⟨hcovered.regions region hregion, hcovered.peers region hregion⟩
    · rw [toProtoRegion_regionId, toProtoRegion_peers, forall_mem_map]
      have hchild := hpending region hregion pending hchild
      exact ⟨hchild.regionId, hchild.peers⟩
  cases kind with
  | region =>
    obtain ⟨descriptor, hmem, rfl⟩ := mem_map.1 hused
    exact (hregion hmem).1
  | peer =>
    rcases hused with hused | ⟨regionId, migration, hget, rfl⟩
    · obtain ⟨peer, hpeer, rfl⟩ := mem_map.1 hused
      obtain ⟨descriptor, hmem, hpeer⟩ := mem_flatMap.1 hpeer
      exact ((hregion hmem).2 peer hpeer).1
    · exact (hcovered.targets regionId migration hget).1
  | store =>
    rcases hused with hused | ⟨descriptor, hmem, peer, hpeer, rfl⟩
    · rw [ExtTreeMap.contains_eq_isSome_getElem?] at hused
      obtain ⟨store, hget⟩ := Option.isSome_iff_exists.1 hused
      exact hcovered.stores id store hget
    · exact ((hregion hmem).2 peer hpeer).2
  | unknown => cases hused

/-- The marks cover all ids in use, and are zero before the bootstrap. -/
structure IdsInv (σ : MetadataState) : Prop where
  topology : Inv σ
  covered : Covered σ
  pending : PendingCovered σ
  unused : σ.revision = 0 → ∀ kind, σ.highWater kind = 0

namespace IdsInv

lemma of_empty : IdsInv {} where
  topology := Inv.of_empty
  covered := ⟨by simp, by simp, by simp, by simp⟩
  pending := by simp [PendingCovered]
  unused := fun _ kind => by cases kind <;> rfl

lemma congr (h : IdsInv σ) (hinv : Inv τ) (hregions : τ.regions = σ.regions)
    (hstores : τ.stores = σ.stores) (hmigrations : τ.migrations = σ.migrations)
    (hmarks : MarksLE σ τ) (hunused : τ.revision = 0 → ∀ kind, τ.highWater kind = 0) : IdsInv τ :=
  ⟨hinv, h.covered.mono hmarks hregions hstores hmigrations, h.pending.mono hregions hmarks,
    hunused⟩

variable (h : IdsInv σ) (hfits : StepFits σ command) (hfresh : FreshRegions σ command)

include h hfits hfresh

lemma installs (hinstalls : Installs σ command τ answer) :
    Core τ ∧ Covered τ ∧ PendingCovered τ ∧ (τ.revision = 0 → ∀ kind, τ.highWater kind = 0) := by
  have hcore := hinstalls.core h.topology.toCore hfits
  have hcovered := hinstalls.covered h.covered
  have hpending := h.pending.installs hinstalls h.topology.toCore h.covered hfresh
  have hnext : σ.revision + 1 ≠ 0 := by
    have hrevision := hfits.1
    grind
  refine ⟨hcore, hcovered, hpending, fun hzero => ?_⟩
  cases hinstalls with
  | bootstrap => exact absurd hzero (by simp [stampRegions, recomputeHighWater])
  | reportStoreHeartbeat | updateAutoBalancerConfig | createSchedulingOperator
  | updateSchedulingOperator | cancelSchedulingOperator => exact h.unused hzero
  | _ => exact absurd hzero hnext

lemma outcome {answer : MetadataCommandResult × MetadataState}
    (houtcome : Outcome σ command answer) : IdsInv answer.2 := by
  have hinv := (h.topology.outcome hfits houtcome).1
  cases houtcome with
  | refused | kept => exact h
  | @exhausted _ _ _ parent _ _ _ hfound hallocated hplaced =>
    refine h.congr hinv rfl rfl rfl
      ⟨le_of_safeAdd hallocated, childPeers_mark hplaced, UInt64.le_refl _⟩ ?_
    -- before the bootstrap there is no Region to be split
    intro hzero
    have hmem := mem_of_findParent hfound
    rw [h.topology.unbootstrapped hzero] at hmem
    cases hmem
  | @installed τ answer hinstalls =>
    obtain ⟨hcore, hcovered, hpending, hunused⟩ := h.installs hfits hfresh hinstalls
    obtain ⟨catalog, hpublish, -⟩ := hcore.publish answer
    rw [hpublish] at hinv ⊢
    exact ⟨hinv, hcovered.mono (.of_eq rfl rfl rfl) rfl rfl rfl,
      hpending.mono rfl (.of_eq rfl rfl rfl), hunused⟩

lemma applied {answer : MetadataCommandResult × MetadataState}
    (happlied : Applied σ command answer) : IdsInv answer.2 := by
  refine happlied.lift h (h.outcome hfits hfresh) ?_
  intro τ dedup dedupOrder hτ
  exact hτ.congr { hτ.topology with } rfl rfl rfl (.of_eq rfl rfl rfl) hτ.unused

end IdsInv

lemma idsInv_of_reachable (h : metadataSystem.Reachable FreshIds σ) : IdsInv σ := by
  refine h.invariant ?_ ?_
  · rintro _ rfl
    exact IdsInv.of_empty
  · rintro σ command _ hσ hfresh rfl
    exact hσ.applied hfresh.1 hfresh.2.1 (apply_applied σ command)

/-! ## Marks along a run -/

lemma MetadataState.Applied.marks {answer : MetadataCommandResult × MetadataState}
    (h : Applied σ command answer) : MarksLE σ answer.2 := by
  refine h.lift (.of_eq rfl rfl rfl) (fun houtcome => ?_) fun _ _ hmarks =>
    hmarks.trans (.of_eq rfl rfl rfl)
  cases houtcome with
  | refused | kept => exact .of_eq rfl rfl rfl
  | exhausted _ _ hallocated hplaced =>
    exact ⟨le_of_safeAdd hallocated, childPeers_mark hplaced, UInt64.le_refl _⟩
  | @installed τ answer hinstalls =>
    obtain ⟨view, heq⟩ := τ.publish_snd answer
    rw [heq]
    exact hinstalls.marks.trans (.of_eq rfl rfl rfl)

lemma marks_of_reaches {G : MetadataState → MetadataCommand → Prop}
    (h : metadataSystem.Reaches G σ τ) : MarksLE σ τ := by
  refine h.stable ?_ (.of_eq rfl rfl rfl)
  rintro υ command _ hυ - rfl
  exact hυ.trans (apply_applied υ command).marks

lemma MarksLE.highWater (h : MarksLE σ τ) (kind : IdNamespace) :
    σ.highWater kind ≤ τ.highWater kind := by
  cases kind with
  | region => exact h.region
  | peer => exact h.peer
  | store => exact h.store
  | unknown => exact UInt64.le_refl _

/-! ## Ids that are brought in -/

lemma lt_of_safeAdd (h : safeAdd mark 1 = some next) : mark < next := by
  rw [lt_iff_toNat_lt, (safeAdd_eq h).2.2]
  simp

lemma mem_allocated {mark count next : UInt64} (h : safeAdd mark count = some next) :
    ((range count.toNat).map fun i => mark + 1 + ofNat i).Nodup ∧
      ∀ id ∈ (range count.toNat).map fun i => mark + 1 + ofNat i, mark < id ∧ id ≤ next := by
  obtain ⟨-, -, hnext⟩ := safeAdd_eq h
  have hlt := next.toNat_lt
  have hvalue {i : ℕ} (hi : i ∈ range count.toNat) :
      (mark + 1 + ofNat i).toNat = mark.toNat + 1 + i := by
    rw [mem_range] at hi
    have hsmall : i < 2 ^ 64 := by omega
    rw [UInt64.toNat_add, UInt64.toNat_add, UInt64.toNat_ofNat', Nat.mod_eq_of_lt hsmall]
    simp
    omega
  refine ⟨?_, ?_⟩
  · refine List.Nodup.map_on ?_ nodup_range
    intro i hi j hj heq
    have hnat := congrArg toNat heq
    rw [hvalue hi, hvalue hj] at hnat
    omega
  · intro id hid
    obtain ⟨i, hi, rfl⟩ := mem_map.1 hid
    rw [lt_iff_toNat_lt, le_iff_toNat_le, hvalue hi]
    rw [mem_range] at hi
    omega

/-- The ids of a split's child are above the marks. -/
lemma idsOf_splitChild (kind : IdNamespace) {parent : RegionMetadata} (splitKey : Bytes)
    {childId mark : UInt64} {peers : List RegionPeerLocation} (hfits : σ.regionIdHighWater < intMax)
    (hallocated : safeAdd σ.regionIdHighWater 1 = some childId)
    (hplaced : childPeers σ.peerIdHighWater parent.peers = (some peers, mark)) :
    (idsOf kind [toProtoRegion (splitChild parent splitKey childId peers)]).Nodup ∧
      ∀ id ∈ idsOf kind [toProtoRegion (splitChild parent splitKey childId peers)],
        σ.highWater kind < id ∧ (kind = .region → id = σ.regionIdHighWater + 1) := by
  cases kind with
  | region =>
    have hids := idsOf_region [splitChild parent splitKey childId peers]
    rw [map_singleton, map_singleton] at hids
    rw [hids]
    refine ⟨nodup_singleton _, fun id hid => ?_⟩
    rw [mem_singleton.1 hid]
    show σ.regionIdHighWater < ofInt (toInt childId) ∧ (_ → ofInt (toInt childId) = _)
    rw [ofInt_toInt (le_intMax_of_safeAdd hallocated hfits)]
    exact ⟨lt_of_safeAdd hallocated, fun _ => (safeAdd_eq hallocated).2.1⟩
  | peer =>
    have hids := idsOf_peer [splitChild parent splitKey childId peers]
    rw [map_singleton, flatMap_singleton] at hids
    rw [hids]
    refine ⟨(childPeers_ids hplaced).2, fun id hid => ?_⟩
    obtain ⟨peer, hpeer, rfl⟩ := mem_map.1 hid
    exact ⟨((childPeers_ids hplaced).1 peer hpeer).1, fun h => by cases h⟩
  | store | unknown => exact ⟨nodup_nil, by simp [idsOf]⟩

/-- An id that a replacement brings in, and that the Regions it removes did not have, is above the
mark. -/
lemma highWater_lt_of_added {ids : List UInt64} {added : List RegionDescriptor}
    {removed retained : List RegionMetadata}
    (htaken : takeRemoved ids σ.regions = (removed, retained, []))
    (hregions : ∀ region ∈ added, region.regionId ∈ ids ∨ σ.regionIdHighWater < region.regionId)
    (hpeers : ∀ id ∈ idsOf .peer added,
      id ∈ idsOf .peer (removed.map toProtoRegion) ∨ σ.peerIdHighWater < id)
    (hid : id ∈ idsOf kind added) (hnew : id ∉ idsOf kind (removed.map toProtoRegion)) :
    σ.highWater kind < id := by
  cases kind with
  | region =>
    obtain ⟨region, hregion, rfl⟩ := mem_map.1 hid
    refine (hregions region hregion).resolve_left fun hremoved => hnew ?_
    -- every id to remove was found, so its Region is among the removed ones
    rcases (takeRemoved_spec htaken).2 _ hremoved with hleft | ⟨old, hold, heq⟩
    · cases hleft
    · rw [idsOf_region, ← heq]
      exact mem_map_of_mem hold
  | peer => exact (hpeers id hid).resolve_left hnew
  | store | unknown => cases hid

/-- A prepared split's child is among the descriptors: its parent is replaced by the marked one. -/
lemma toProtoRegion_child_mem {regionId : UInt64} {parent child : RegionMetadata}
    (splitKey : Bytes) (hfound : σ.findParent regionId = some parent)
    (hinstalled : τ.regions = σ.replaceRegion (marked parent splitKey child)) :
    toProtoRegion child ∈ τ.descriptors := by
  have hmarked : marked parent splitKey child ∈ τ.regions := by
    rw [hinstalled]
    exact mem_map.2 ⟨parent, mem_of_findParent hfound, if_pos rfl⟩
  refine mem_flatMap.2 ⟨_, mem_map_of_mem hmarked, mem_cons_of_mem _ ?_⟩
  rw [toProtoRegion_splitPending]
  exact mem_singleton.2 rfl

/-- `introduced_spec` for a command that installs a state, one case per operation. -/
lemma MetadataState.Installs.introduced_spec
    (h : Installs σ command τ answer) (hσ : IdsInv σ) (hfresh : FreshIds σ command) :
    (introducedBy σ command (answer τ) kind).Nodup ∧ ∀ id ∈ introducedBy σ command (answer τ) kind,
        σ.highWater kind < id ∧ id ≤ τ.highWater kind ∧ Stored σ τ command kind id := by
  obtain ⟨hcore, hcovered, hpending, -⟩ := hσ.installs hfresh.1 hfresh.2.1 h
  obtain ⟨⟨hrevision, -⟩, hregions, hpeers⟩ := hfresh
  have hnext : σ.revision + 1 ≠ 0 := by grind
  rw [FreshRegions] at hregions
  rw [FreshPeers] at hpeers
  have hle {id : UInt64} (hused : InUse τ kind id) : id ≤ τ.highWater kind :=
    hused.le_highWater hcovered hpending
  have hinstalled {id : UInt64} (hid : id ∈ idsOf kind (τ.regions.map toProtoRegion)) :
      InUse τ kind id :=
    inUse_of_subset (fun region hr => mem_flatMap.2 ⟨region, hr, mem_cons_self⟩) hid
  unfold Stored
  cases h with
  | bootstrap hop hzero _ hdecoded hvalid =>
    rw [hop] at hregions
    simp only [introducedBy, hop]
    -- a bootstrap has no pending children
    rw [flatMap_withChild hregions]
    have hperm := idsOf_booted kind 1 hdecoded hvalid
    have hcatalog := hcore.catalog (by simp [stampRegions, recomputeHighWater])
    refine ⟨hperm.nodup_iff.1 hcatalog.idsOf_nodup, ?_⟩
    intro id hid
    have hused := hinstalled (hperm.mem_iff.2 hid)
    refine ⟨?_, hle hused, hused⟩
    have hne := idsOf_ne_zero hdecoded hid
    rw [hσ.unused hzero kind]
    grind
  | replaceRegions hop hboot htaken hdecoded _ hvalid =>
    rw [hop] at hregions hpeers
    simp only [introducedBy, hop, htaken] at hpeers ⊢
    rw [flatMap_withChild fun region hr => (hregions region hr).1]
    have hperm := idsOf_replaced kind (σ.revision + 1) hσ.topology.toCore htaken hdecoded hvalid
    have hnodup := hperm.nodup_iff.1 (hcore.catalog hnext).idsOf_nodup
    refine ⟨(nodup_append.1 hnodup).2.1.filter _, ?_⟩
    intro id hid
    -- ids that a removed Region had are not new
    obtain ⟨hid, hnew⟩ := mem_filter.1 hid
    have hnew := of_decide_eq_true hnew
    have hused := hinstalled (hperm.mem_iff.2 (mem_append_right _ hid))
    refine ⟨?_, hle hused, hused⟩
    exact highWater_lt_of_added htaken (fun region hr => (hregions region hr).2) hpeers hid hnew
  | @prepareSplit _ splitKey _ parent childId mark peers hop hboot hfound _ hallocated hplaced =>
    rw [hop] at hregions
    simp only [introducedBy, hop, flatMap_cons, flatMap_nil, toProtoRegion_splitPending,
      marked, Option.map_some, Option.toList_some, append_nil]
    obtain ⟨hnodup, hbounds⟩ := idsOf_splitChild kind splitKey hregions hallocated hplaced
    refine ⟨hnodup, fun id hid => ?_⟩
    -- the child is stored under its parent until the split is committed
    suffices hused : InUse _ kind id from
      ⟨(hbounds id hid).1, hle hused, hused, (hbounds id hid).2⟩
    refine inUse_of_subset (fun child hchild => ?_) hid
    rw [mem_singleton.1 hchild]
    exact toProtoRegion_child_mem splitKey hfound rfl
  | @prepareMovePeer regionId _ _ newPeerId _ _ _ _ hop _ _ _ _ _ hallocated =>
    simp only [introducedBy, hop, Option.map_some, Option.toList_some]
    split_ifs with hkind
    · subst hkind
      refine ⟨nodup_singleton _, ?_⟩
      intro id hid
      rw [mem_singleton.1 hid]
      refine ⟨lt_of_safeAdd hallocated, UInt64.le_refl _, .inr ⟨regionId, _, ?_, rfl⟩⟩
      dsimp only [stampRegions]
      rw [OrdMap.getElem?_insert, if_pos rfl]
    · exact ⟨nodup_nil, by simp⟩
  | @allocateIds allocated count mark hop _ hknown hallocated =>
    simp only [introducedBy, hop]
    split_ifs with hkind
    · subst hkind
      obtain ⟨hnodup, hbounds⟩ := mem_allocated hallocated
      refine ⟨hnodup, ?_⟩
      intro id hid
      refine ⟨(hbounds id hid).1, ?_, trivial⟩
      have hmark := (hbounds id hid).2
      cases kind with
      | region | peer | store => exact hmark
      | unknown value => exact absurd rfl (hknown value)
    · exact ⟨nodup_nil, by simp⟩
  | commitSplit hop | commitMovePeer hop | cancelMovePeer hop | putStore hop
  | reportStoreHeartbeat hop | updateAutoBalancerConfig hop | createSchedulingOperator hop
  | updateSchedulingOperator hop | cancelSchedulingOperator hop => simp [introducedBy, hop]

/-- A command that brings in ids has installed a state. -/
lemma MetadataState.Applied.introduced_cases {answer : MetadataCommandResult × MetadataState}
    (h : Applied σ command answer) (hcore : Core σ) (hfits : StepFits σ command)
    (hok : answer.1.error = .ok) (hnew : σ.dedup.contains command.mutationId = false) :
    introducedBy σ command answer.1 kind = [] ∨
      ∃ τ result, Installs σ command τ result ∧ answer.1 = result τ ∧
        ∃ view dedup dedupOrder, answer.2 =
          { τ with published := view, dedup := dedup, dedupOrder := dedupOrder } := by
  cases h with
  | unnamed hcode => exact absurd hok hcode
  | repeated hrecord =>
    rw [(OrdMap.contains_eq_false_iff _ _).1 hnew] at hrecord
    cases hrecord
  | @recorded answer _ _ houtcome =>
    obtain ⟨dedup, dedupOrder, heq⟩ := answer.2.recordResultLocked_eq command.mutationId answer.1
    rw [heq]
    cases houtcome with
    | refused hcode => exact absurd hok hcode
    | @kept result hquiet _ =>
      left
      unfold introducedBy
      cases hop : command.operation <;> first | rfl | simp [hop, Operation.mayKeep] at hquiet
    | exhausted => cases hok
    | @installed τ result hinstalls =>
      obtain ⟨catalog, hpublish, -⟩ := (hinstalls.core hcore hfits).publish result
      rw [hpublish]
      exact .inr ⟨τ, result, hinstalls, rfl, _, dedup, dedupOrder, rfl⟩

/-- The ids that a command brings in are pairwise different, lie between the marks before and after
it, and are stored as they were given. -/
lemma introduced_spec (hσ : IdsInv σ) (hfresh : FreshIds σ command) :
    (introduced σ command kind).Nodup ∧ ∀ id ∈ introduced σ command kind,
        σ.highWater kind < id ∧ id ≤ (σ.apply command).2.highWater kind ∧
          Stored σ (σ.apply command).2 command kind id := by
  unfold introduced
  split_ifs with haccepted
  · rcases (apply_applied σ command).introduced_cases hσ.topology.toCore hfresh.1 haccepted.1
      haccepted.2 with hnil | ⟨τ, result, hinstalls, hanswer, view, dedup, dedupOrder, heq⟩
    · rw [hnil]
      exact ⟨nodup_nil, by simp⟩
    · rw [hanswer, heq]
      exact hinstalls.introduced_spec hσ hfresh
  · exact ⟨nodup_nil, by simp⟩

/-- In every run of commands that take fresh ids, the ids that a command brings in are pairwise
different, have not been in use in any state before, were not brought in by any command before, and
are stored as they were given. -/
theorem ids_never_reused (h : metadataSystem.Reachable FreshIds ρ)
    (hlater : metadataSystem.Reaches FreshIds ρ σ) (hfresh : FreshIds σ command)
    (kind : IdNamespace) :
    (introduced σ command kind).Nodup ∧ ∀ id ∈ introduced σ command kind, ¬InUse ρ kind id ∧
      (∀ earlier, FreshIds ρ earlier →
        metadataSystem.Reaches FreshIds (ρ.apply earlier).2 σ → id ∉ introduced ρ earlier kind) ∧
      Stored σ (σ.apply command).2 command kind id := by
  have hρ := idsInv_of_reachable h
  have hσ := idsInv_of_reachable (h.reaches hlater)
  obtain ⟨hnodup, hspec⟩ := @introduced_spec σ command kind hσ hfresh
  refine ⟨hnodup, fun id hid => ?_⟩
  obtain ⟨habove, -, hstored⟩ := hspec id hid
  refine ⟨?_, ?_, hstored⟩
  · intro hused
    have hle := hused.le_highWater hρ.covered hρ.pending
    have hmark := (marks_of_reaches hlater).highWater kind
    exact absurd habove (Std.not_lt.2 (UInt64.le_trans hle hmark))
  · intro earlier hearlier hrun hmem
    have hle := ((introduced_spec hρ hearlier).2 id hmem).2.1
    have hmark := (marks_of_reaches hrun).highWater kind
    exact absurd habove (Std.not_lt.2 (UInt64.le_trans hle hmark))

/-! ## A fresh child and one that is not -/

instance (σ : MetadataState) (command : MetadataCommand) : Decidable (FreshRegions σ command) := by
  obtain ⟨_, _, operation⟩ := command
  induction operation using Operation.casesOn <;> dsimp only [FreshRegions] <;> infer_instance

instance (σ : MetadataState) (command : MetadataCommand) : Decidable (FreshPeers σ command) := by
  obtain ⟨_, _, operation⟩ := command
  induction operation using Operation.casesOn with
  | replaceRegions => exact List.decidableBAll _ _
  | _ => exact isTrue trivial

instance (σ : MetadataState) (command : MetadataCommand) : Decidable (FreshIds σ command) :=
  inferInstanceAs (Decidable (_ ∧ _))

/-- One Region, after `count` more Region ids were handed out. -/
def allocateCommands (count : UInt64) : List MetadataCommand :=
  [bootstrapCommand, ⟨[2], 1, .allocateIds .region count⟩]

/-- The split of that Region. -/
def splitAfter : MetadataCommand := ⟨[3], 2, .prepareSplit 10 [7] (some ⟨1, 1⟩)⟩

theorem ids_allocateCommands : introduced (run {} (allocateCommands 5)) splitAfter .region = [16] ∧
      ¬InUse (run {} (allocateCommands 5)) .region 16 ∧
      InUse ((run {} (allocateCommands 5)).apply splitAfter).2 .region 16 := by
  have hreach : metadataSystem.Reachable FreshIds (run {} (allocateCommands 5)) :=
    TransitionSystem.Guarded.reachable (by decide)
  have hchild : introduced (run {} (allocateCommands 5)) splitAfter .region = [16] := by decide
  have hfresh := (ids_never_reused hreach .refl (by decide : FreshIds _ splitAfter) .region).2 16
    (by rw [hchild]; exact mem_singleton.2 rfl)
  exact ⟨hchild, hfresh.1, hfresh.2.2.1⟩

/-- After 2 ^ 32 - 1 Region ids were handed out, the child gets the id of its parent. -/
theorem child_has_id_of_parent :
    ¬∀ (σ : MetadataState) (command : MetadataCommand) (kind : IdNamespace) (id : UInt64),
      metadataSystem.Reachable Accepted σ → Accepted σ command → id ∈ introduced σ command kind →
        ¬InUse σ kind id := by
  intro h
  have hreach : metadataSystem.Reachable Accepted (run {} (allocateCommands 4294967295)) :=
    TransitionSystem.Guarded.reachable (by decide)
  refine h _ splitAfter .region 10 hreach (by decide) (by decide) ?_
  show (10 : UInt64) ∈ idsOf .region (run {} (allocateCommands 4294967295)).descriptors
  decide

end StrataKV.Metadata
