import StrataKV.Metadata.Encoding
import StrataKV.Metadata.Marks

/-!
# Where Regions come from

`RegionStep` traces a Region that a command has installed back to what it was made of: a Region that
was there before, a descriptor of the command, or a pending split. What a property of Regions has to
be checked for is then one case per constructor, and not one per handler. Leaders and revisions are
filled in on the way and do not matter here.
-/

namespace StrataKV.Metadata

open Std (ExtTreeMap)
open MetadataState List

variable {σ τ : MetadataState} {command : MetadataCommand}

/-- The Regions agree but for leader and revision. -/
structure RegionMetadata.Alike (region other : RegionMetadata) : Prop where
  regionId : region.regionId = other.regionId
  peers : region.peers = other.peers
  epoch : region.epoch = other.epoch
  splitPending : region.splitPending = other.splitPending

namespace RegionMetadata.Alike

variable {region other third : RegionMetadata}

lemma refl (region : RegionMetadata) : region.Alike region := ⟨rfl, rfl, rfl, rfl⟩

lemma trans (h₁ : region.Alike other) (h₂ : other.Alike third) : region.Alike third :=
  ⟨h₁.regionId.trans h₂.regionId, h₁.peers.trans h₂.peers, h₁.epoch.trans h₂.epoch,
    h₁.splitPending.trans h₂.splitPending⟩

lemma stamped (region : RegionMetadata) (revision : UInt64) :
    (region.stamped revision).Alike region := ⟨rfl, rfl, rfl, rfl⟩

lemma withLeader (region : RegionMetadata) : region.withLeader.Alike region := ⟨rfl, rfl, rfl, rfl⟩

end RegionMetadata.Alike

/-- What a Region of the state `τ` that the command installs was made of. -/
inductive RegionStep (σ : MetadataState) (command : MetadataCommand) (τ : MetadataState)
    (region : RegionMetadata) : Prop
  | kept {old : RegionMetadata} (mem : old ∈ σ.regions)
      (unsplit : ∀ regionId, command.operation = .commitSplit regionId →
        ∀ parent ∈ σ.findParent regionId, old.regionId ≠ parent.regionId)
      (alike : region.Alike old)
  | booted {configDigest : Bytes} {regions : List RegionDescriptor} {stores : List StoreDescriptor}
      {descriptor : RegionDescriptor} {decoded : RegionMetadata}
      (operation : command.operation = .bootstrap configDigest regions stores)
      (fresh : σ.revision = 0) (mem : descriptor ∈ regions) (named : descriptor.regionId ≠ 0)
      (read : fromProtoRegion descriptor = .ok decoded) (alike : region.Alike decoded)
  | added {removeRegionIds : List UInt64} {addRegions : List RegionDescriptor}
      {removed retained : List RegionMetadata} {descriptor : RegionDescriptor}
      {decoded : RegionMetadata}
      (operation : command.operation = .replaceRegions removeRegionIds addRegions)
      (taken : takeRemoved removeRegionIds σ.regions = (removed, retained, []))
      (mem : descriptor ∈ addRegions) (read : fromProtoRegion descriptor = .ok decoded)
      (checked : checkReplacement removed (decoded.stamped (σ.revision + 1)) = .ok ())
      (alike : region.Alike decoded)
  | marked {regionId : UInt64} {splitKey : Bytes} {expectedEpoch : Option RegionEpoch}
      {parent : RegionMetadata} {childId mark : UInt64} {peers : List RegionPeerLocation}
      (operation : command.operation = .prepareSplit regionId splitKey expectedEpoch)
      (found : σ.findParent regionId = some parent)
      (allocated : safeAdd σ.regionIdHighWater 1 = some childId)
      (placed : childPeers σ.peerIdHighWater parent.peers = (some peers, mark))
      (marks : childId ≤ τ.regionIdHighWater ∧ mark ≤ τ.peerIdHighWater)
      (alike : region.Alike (marked parent splitKey (splitChild parent splitKey childId peers)))
  | shrunken {regionId : UInt64} {splitKey : Bytes} {parent pendingChild : RegionMetadata}
      (operation : command.operation = .commitSplit regionId)
      (found : σ.findParent regionId = some parent)
      (pending : parent.splitPending = some (splitKey, pendingChild))
      (alike : region.Alike (shrunken parent splitKey))
  | child {regionId : UInt64} {splitKey : Bytes} {parent pendingChild : RegionMetadata}
      (operation : command.operation = .commitSplit regionId)
      (found : σ.findParent regionId = some parent)
      (pending : parent.splitPending = some (splitKey, pendingChild))
      (alike : region.Alike pendingChild)
  | moved {regionId newPeerId : UInt64} {expectedEpoch : Option RegionEpoch}
      {old : RegionMetadata} {migration : ReplicaMigrationStatus}
      (operation : command.operation = .commitMovePeer regionId newPeerId expectedEpoch)
      (started : σ.migrations[regionId]? = some migration) (mem : old ∈ σ.regions)
      (target : old.hasId regionId = true) (alike : region.Alike (moved old migration))

variable {candidates regions : List RegionMetadata}

namespace RegionStep

lemma congr {region other : RegionMetadata} (h : RegionStep σ command τ region)
    (halike : other.Alike region) : RegionStep σ command τ other := by
  cases h with
  | kept mem unsplit alike => exact .kept mem unsplit (halike.trans alike)
  | booted operation fresh mem named read alike =>
    exact .booted operation fresh mem named read (halike.trans alike)
  | added operation taken mem read checked alike =>
    exact .added operation taken mem read checked (halike.trans alike)
  | marked operation found allocated placed marks alike =>
    exact .marked operation found allocated placed marks (halike.trans alike)
  | shrunken operation found pending alike =>
    exact .shrunken operation found pending (halike.trans alike)
  | child operation found pending alike => exact .child operation found pending (halike.trans alike)
  | moved operation started mem target alike =>
    exact .moved operation started mem target (halike.trans alike)

lemma stamped {regions : List RegionMetadata} (h : ∀ region ∈ regions, RegionStep σ command τ region)
    (revision : UInt64) :
    ∀ region ∈ regions.map fun region => region.stamped revision, RegionStep σ command τ region :=
  forall_mem_map.2 fun old hold => (h old hold).congr (.stamped old revision)

/-- Validation only fills in leaders. -/
lemma validated (hcandidates : ∀ region ∈ candidates, region.Identified)
    (hvalid : regionCatalog candidates = .ok regions)
    (h : ∀ region ∈ candidates, RegionStep σ command τ region) :
    ∀ region ∈ regions, RegionStep σ command τ region := by
  intro region hregion
  obtain ⟨old, hold, rfl⟩ := mem_regionCatalog hcandidates hvalid hregion
  exact (h old hold).congr (.withLeader old)

end RegionStep

namespace MetadataState.Installs

variable {answer : MetadataState → MetadataCommandResult}

/-- Where each Region of an installed state comes from. -/
theorem regionStep (h : Installs σ command τ answer) (hσ : Core σ) :
    ∀ region ∈ τ.regions, RegionStep σ command τ region := by
  have hsame {υ : MetadataState} (hop : ∀ regionId, command.operation ≠ .commitSplit regionId) :
      ∀ region ∈ σ.regions, RegionStep σ command υ region :=
    fun region hr => .kept hr (fun regionId hcommit => absurd hcommit (hop regionId)) (.refl region)
  cases h with
  | bootstrap hop hfresh _ hdecoded hvalid =>
    have hids := decodeRegions_identified hdecoded
    refine RegionStep.stamped (RegionStep.validated (stamped_identified hids) hvalid
      (RegionStep.stamped ?_ _)) _
    intro region hregion
    obtain ⟨descriptor, hmem, hnamed, hread⟩ := exists_of_mem_decodeRegions hdecoded hregion
    exact .booted hop hfresh hmem hnamed hread (.refl region)
  | replaceRegions hop _ htaken hdecoded hepochs hvalid =>
    refine RegionStep.stamped (RegionStep.validated (hσ.replaced htaken hdecoded _) hvalid ?_) _
    intro region hregion
    rcases mem_append.1 hregion with hregion | hregion
    · exact hsame (by simp [hop]) region
        ((takeRemoved_perm htaken).mem_iff.1 (mem_append_right _ hregion))
    · refine RegionStep.stamped ?_ _ region hregion
      intro region hregion
      obtain ⟨descriptor, hmem, -, hread⟩ := exists_of_mem_decodeRegions hdecoded hregion
      exact .added hop htaken hmem hread (hepochs region hregion) (.refl region)
  | prepareSplit hop _ hfound _ hallocated hplaced =>
    intro region hregion
    obtain ⟨old, hold, rfl⟩ := mem_map.1 hregion
    split
    · exact .marked hop hfound hallocated hplaced
        ⟨(foldl_max_spec _ _ _).1, (foldl_max_spec _ _ _).1⟩ (.refl _)
    · exact hsame (by simp [hop]) old hold
  -- the parent shrinks and the child is new; the others stay
  | commitSplit hop _ hfound hpending hvalid =>
    refine RegionStep.stamped (RegionStep.validated (hσ.split hfound hpending _) hvalid ?_) _
    intro region hregion
    rcases mem_append.1 hregion with hregion | hregion
    · obtain ⟨old, hold, rfl⟩ := mem_map.1 hregion
      split_ifs with hne
      · exact .shrunken hop hfound hpending (.refl _)
      · refine .kept hold ?_ (.refl old)
        intro regionId hcommit parent hparent
        rw [hop] at hcommit
        cases hcommit
        rw [hfound] at hparent
        cases hparent
        exact hne
    · rw [mem_singleton.1 hregion]
      exact .child hop hfound hpending ⟨rfl, rfl, rfl, rfl⟩
  | prepareMovePeer hop | cancelMovePeer hop => exact RegionStep.stamped (hsame (by simp [hop])) _
  | commitMovePeer hop _ _ hstarted =>
    refine RegionStep.stamped ?_ _
    intro region hregion
    rcases mem_updateFirst hregion with hold | ⟨old, hold, htarget, rfl⟩
    · exact hsame (by simp [hop]) region hold
    · exact .moved hop hstarted hold htarget (.refl _)
  | @allocateIds kind _ _ hop => cases kind <;> exact hsame (by simp [hop])
  | putStore hop | reportStoreHeartbeat hop | updateAutoBalancerConfig hop
  | createSchedulingOperator hop | updateSchedulingOperator hop | cancelSchedulingOperator hop =>
    exact hsame (by simp [hop])

end MetadataState.Installs

/-! ## Regions that stay -/

/-- The command is not about this Region. -/
def Untouched (σ : MetadataState) (command : MetadataCommand) (region : RegionMetadata) : Prop :=
  match command.operation with
  | .replaceRegions removeRegionIds _ => ofInt region.regionId ∉ removeRegionIds
  | .prepareSplit regionId _ _ => ∀ parent ∈ σ.findParent regionId, region.regionId ≠ parent.regionId
  | .commitSplit regionId =>
    ∀ parent ∈ σ.findParent regionId, parent.splitPending ≠ none → region.regionId ≠ parent.regionId
  | .commitMovePeer regionId _ _ => region.hasId regionId = false
  | _ => True

/-- The Regions that are removed have the ids of the command, and every id is found. -/
lemma takeRemoved_spec {ids : List UInt64} {regions removed retained : List RegionMetadata}
    {left : List UInt64} (h : takeRemoved ids regions = (removed, retained, left)) :
    (∀ region ∈ removed, ofInt region.regionId ∈ ids) ∧
      ∀ id ∈ ids, id ∈ left ∨ ∃ region ∈ removed, ofInt region.regionId = id := by
  induction regions generalizing ids removed retained with
  | nil =>
    cases h
    exact ⟨by simp, fun id hid => .inl hid⟩
  | cons region rest ih =>
    rw [takeRemoved] at h
    split_ifs at h with hmem
    · rcases hrest : takeRemoved (ids.erase (ofInt region.regionId)) rest with
        ⟨removed', retained', left'⟩
      rw [hrest] at h
      cases h
      obtain ⟨hids, hfound⟩ := ih hrest
      refine ⟨forall_mem_cons.2 ⟨hmem, fun other hother =>
        mem_of_mem_erase (hids other hother)⟩, ?_⟩
      intro id hid
      by_cases heq : id = ofInt region.regionId
      · exact .inr ⟨region, mem_cons_self, heq.symm⟩
      · rcases hfound id ((mem_erase_of_ne heq).2 hid) with hleft | ⟨other, hother, hid⟩
        · exact .inl hleft
        · exact .inr ⟨other, mem_cons_of_mem _ hother, hid⟩
    · rcases hrest : takeRemoved ids rest with ⟨removed', retained', left'⟩
      rw [hrest] at h
      cases h
      exact ih hrest

variable {old : RegionMetadata}

/-- Validating and stamping keep every Region. -/
lemma exists_validated (revision : UInt64) (hcandidates : ∀ region ∈ candidates, region.Identified)
    (hvalid : regionCatalog candidates = .ok regions) (hold : old ∈ candidates) :
    ∃ region ∈ regions.map fun region => region.stamped revision, region.Alike old := by
  rw [regionCatalog_eq_map (fun region hr => (hcandidates region hr).hasIds) hvalid]
  have hsorted : old ∈ sortRegions candidates := (perm_insertionSort _ candidates).mem_iff.2 hold
  exact ⟨_, mem_map_of_mem (mem_map_of_mem hsorted),
    (RegionMetadata.Alike.stamped _ _).trans (.withLeader old)⟩

lemma mem_updateFirst_of_not {α : Type} {p : α → Bool} {f : α → α} {l : List α} {a : α}
    (h : a ∈ l) (hp : p a = false) : a ∈ updateFirst p f l := by
  induction l with
  | nil => cases h
  | cons first rest ih =>
    rw [updateFirst]
    split_ifs with hfirst
    · rcases mem_cons.1 h with rfl | h
      · rw [hp] at hfirst
        cases hfirst
      · exact mem_cons_of_mem _ h
    · rcases mem_cons.1 h with rfl | h
      · exact mem_cons_self
      · exact mem_cons_of_mem _ (ih h)

/-- A Region that the command is not about stays. -/
theorem MetadataState.Installs.exists_alike {answer : MetadataState → MetadataCommandResult}
    (h : Installs σ command τ answer) (hσ : Core σ) (hold : old ∈ σ.regions)
    (huntouched : Untouched σ command old) : ∃ region ∈ τ.regions, region.Alike old := by
  have hstamped (revision : UInt64) :
      ∃ region ∈ σ.regions.map fun region => region.stamped revision, region.Alike old :=
    ⟨_, mem_map_of_mem hold, .stamped old revision⟩
  rw [Untouched] at huntouched
  cases h with
  | bootstrap _ hfresh =>
    rw [hσ.unbootstrapped hfresh] at hold
    cases hold
  | replaceRegions hop _ htaken hdecoded _ hvalid =>
    rw [hop] at huntouched
    refine exists_validated _ (hσ.replaced htaken hdecoded _) hvalid (mem_append_left _ ?_)
    rcases mem_append.1 ((takeRemoved_perm htaken).mem_iff.2 hold) with hremoved | hretained
    · exact absurd ((takeRemoved_spec htaken).1 old hremoved) huntouched
    · exact hretained
  | prepareSplit hop _ hfound =>
    rw [hop] at huntouched
    exact ⟨old, mem_map.2 ⟨old, hold, if_neg (huntouched _ hfound)⟩, .refl old⟩
  | commitSplit hop _ hfound hpending hvalid =>
    rw [hop] at huntouched
    refine exists_validated _ (hσ.split hfound hpending _) hvalid (mem_append_left _ ?_)
    exact mem_map.2 ⟨old, hold, if_neg (huntouched _ hfound (by simp [hpending]))⟩
  | prepareMovePeer | cancelMovePeer => exact hstamped _
  | commitMovePeer hop =>
    rw [hop] at huntouched
    exact ⟨_, mem_map_of_mem (mem_updateFirst_of_not hold huntouched), .stamped old _⟩
  | @allocateIds kind => cases kind <;> exact ⟨old, hold, .refl old⟩
  | _ => exact ⟨old, hold, .refl old⟩

end StrataKV.Metadata
