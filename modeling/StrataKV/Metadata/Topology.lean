import StrataKV.Lib.OrdMap
import StrataKV.Lib.TransitionSystem
import StrataKV.Metadata.Changes
import StrataKV.Metadata.Outcome

/-!
# The topology invariant

After a bootstrap the Regions of the state machine form a catalog, and the published view shows
them. Most handlers validate the Regions they are about to install, or leave range, ids and peers
as they are. `CommitMovePeer` does neither: it puts the target of a migration into the Region and
finds out about a target that does not fit only when it publishes. `TargetFits` is what it takes for
granted.
-/

namespace StrataKV.Metadata

open RegionMetadata MetadataState List TransitionSystem

open Std (ExtTreeMap)

/-! ## The invariant -/

/-- The state without the published view. -/
structure Core (σ : MetadataState) : Prop where
  unbootstrapped : σ.revision = 0 → σ.regions = []
  catalog : σ.revision ≠ 0 → IsCatalog σ.regions
  identified : ∀ region ∈ σ.regions, region.Identified
  stores : ∀ (storeId : UInt64) (store : StoreDescriptor), σ.stores[storeId]? = some store →
    storeId ≠ 0 ∧ store.host ≠ []
  migrations : ∀ (regionId : UInt64) (migration : ReplicaMigrationStatus),
    σ.migrations[regionId]? = some migration → TargetNamed migration

/-- The Regions form a catalog, and the view shows them. -/
structure Inv (σ : MetadataState) : Prop extends Core σ where
  published : σ.revision ≠ 0 → σ.published.catalog = some σ.regions

lemma Inv.of_empty : Inv {} where
  unbootstrapped := fun _ => rfl
  catalog := fun h => absurd rfl h
  identified := by simp
  stores := by simp
  migrations := by simp
  published := fun h => absurd rfl h

/-- Publishing a catalog succeeds, and the view shows the Regions. -/
lemma Core.publish {τ : MetadataState} (h : Core τ)
    (answer : MetadataState → MetadataCommandResult) :
    ∃ catalog, τ.publish answer = (answer τ, { τ with published := τ.viewOf catalog }) ∧
      (τ.revision ≠ 0 → catalog = some τ.regions) := by
  unfold MetadataState.publish
  split_ifs with hnil
  · refine ⟨none, rfl, ?_⟩
    intro hrevision
    exact absurd hnil (h.catalog hrevision).tiles.ne_nil
  · have hcatalog : IsCatalog τ.regions := h.catalog fun hzero => hnil (h.unbootstrapped hzero)
    rw [hcatalog.regionCatalog_eq]
    exact ⟨some τ.regions, rfl, fun _ => rfl⟩

/-! ## What handlers install -/

variable {regions : List RegionMetadata}

/-- A validated Region is one of the candidates, with its leader filled in. -/
lemma mem_regionCatalog {candidates : List RegionMetadata}
    (hcandidates : ∀ region ∈ candidates, region.Identified)
    (h : regionCatalog candidates = .ok regions) {region : RegionMetadata}
    (hregion : region ∈ regions) : ∃ old ∈ candidates, region = old.withLeader := by
  rw [regionCatalog_eq_map (fun region hr => (hcandidates region hr).hasIds) h] at hregion
  obtain ⟨old, hold, rfl⟩ := mem_map.1 hregion
  exact ⟨old, (perm_insertionSort _ candidates).mem_iff.1 hold, rfl⟩

namespace Core

variable {σ τ : MetadataState}

/-- A validated set of Regions, installed at a revision that is not zero. -/
lemma install {candidates regions : List RegionMetadata}
    (hcandidates : ∀ region ∈ candidates, region.Identified)
    (hvalidated : regionCatalog candidates = .ok regions) (hregions : τ.regions = regions)
    (hrevision : τ.revision ≠ 0)
    (hstores : ∀ (storeId : UInt64) (store : StoreDescriptor), τ.stores[storeId]? = some store →
      storeId ≠ 0 ∧ store.host ≠ [])
    (hmigrations : ∀ (regionId : UInt64) (migration : ReplicaMigrationStatus),
      τ.migrations[regionId]? = some migration → TargetNamed migration) :
    Core τ.stampRegions.recomputeHighWater := by
  have hids : ∀ region ∈ candidates, region.HasIds := fun region hr => (hcandidates region hr).hasIds
  have hcatalog := regionCatalog_ok hids hvalidated
  refine ⟨fun hzero => absurd hzero hrevision, fun _ => ?_, ?_, hstores, hmigrations⟩
  · show IsCatalog (τ.regions.map _)
    rw [hregions]
    exact hcatalog.stamp hrevision
  · show ∀ region ∈ τ.regions.map fun region => region.stamped τ.revision, region.Identified
    rw [hregions]
    intro region hregion
    obtain ⟨validated, hvalidated', rfl⟩ := mem_map.1 hregion
    obtain ⟨old, hold, rfl⟩ := mem_regionCatalog hcandidates hvalidated hvalidated'
    exact (hcandidates old hold).congr rfl (.inl rfl)

/-- A handler that moves the revision, and perhaps the stores, but no Region. -/
lemma renumbered (h : Core σ) (hboot : σ.revision ≠ 0) (hrevision : τ.revision ≠ 0)
    (hregions : τ.regions = σ.regions)
    (hstores : ∀ (storeId : UInt64) (store : StoreDescriptor), τ.stores[storeId]? = some store →
      storeId ≠ 0 ∧ store.host ≠ []) (hmigrations : τ.migrations = σ.migrations) : Core τ := by
  refine ⟨fun hzero => absurd hzero hrevision, ?_, ?_, hstores, ?_⟩
  · intro _
    rw [hregions]
    exact h.catalog hboot
  · rw [hregions]
    exact h.identified
  · rw [hmigrations]
    exact h.migrations

lemma untouched (h : Core σ) (hrevision : τ.revision = σ.revision) (hregions : τ.regions = σ.regions)
    (hstores : τ.stores = σ.stores) (hmigrations : τ.migrations = σ.migrations) : Core τ := by
  refine ⟨?_, ?_, ?_, ?_, ?_⟩
  · rw [hrevision, hregions]
    exact h.unbootstrapped
  · rw [hrevision, hregions]
    exact h.catalog
  · rw [hregions]
    exact h.identified
  · rw [hstores]
    exact h.stores
  · rw [hmigrations]
    exact h.migrations

end Core

lemma stamped_identified {revision : UInt64} (h : ∀ region ∈ regions, region.Identified) :
    ∀ region ∈ regions.map fun region => region.stamped revision, region.Identified :=
  forall_mem_map.2 fun old hold => (h old hold).congr rfl (.inl rfl)

lemma Core.stampRegions {τ : MetadataState} (h : Core τ) (hrevision : τ.revision ≠ 0) :
    Core τ.stampRegions where
  unbootstrapped := fun hzero => absurd hzero hrevision
  catalog := fun _ => (h.catalog hrevision).stamp hrevision
  identified := stamped_identified h.identified
  stores := h.stores
  migrations := h.migrations

lemma StoreDescriptor.named_of_valid {store : StoreDescriptor} (h : store.valid = true) :
    store.storeId ≠ 0 ∧ store.host ≠ [] := by
  simp only [StoreDescriptor.valid, Bool.and_eq_true, decide_eq_true_eq] at h
  exact ⟨h.1.1.1, h.1.1.2⟩

/-- What holds of the stores before and of every valid store holds of the stores after. -/
lemma addStores_induction {P : UInt64 → StoreDescriptor → Prop}
    (hvalid : ∀ store : StoreDescriptor, store.valid = true → P store.storeId store)
    {stores result : ExtTreeMap UInt64 StoreDescriptor compare} {added : List StoreDescriptor}
    (h : addStores stores added = some result)
    (hstores : ∀ storeId store, stores[storeId]? = some store → P storeId store) :
    ∀ storeId store, result[storeId]? = some store → P storeId store := by
  induction added generalizing stores with
  | nil =>
    cases h
    exact hstores
  | cons first rest ih =>
    rw [addStores] at h
    split_ifs at h with hfirst
    refine ih h fun storeId store hget => ?_
    rw [OrdMap.getElem?_insert] at hget
    split_ifs at hget with heq
    · cases hget
      exact heq ▸ hvalid first (Bool.and_eq_true_iff.1 hfirst).1
    · exact hstores storeId store hget

lemma takeRemoved_perm {ids left : List UInt64} {removed retained : List RegionMetadata}
    (h : takeRemoved ids regions = (removed, retained, left)) :
    (removed ++ retained).Perm regions := by
  induction regions generalizing ids removed retained with
  | nil =>
    cases h
    exact .refl _
  | cons first rest ih =>
    rw [takeRemoved] at h
    split at h
    · cases h
      exact (ih rfl).cons first
    · cases h
      exact perm_middle.trans ((ih rfl).cons first)

variable {σ : MetadataState} {parent : RegionMetadata} {regionId : UInt64}

lemma mem_of_findParent (h : σ.findParent regionId = some parent) : parent ∈ σ.regions :=
  mem_reverse.1 (mem_of_find?_eq_some h)

lemma safeAdd_one_ne_zero {value result : UInt64} (h : safeAdd value 1 = some result) :
    result ≠ 0 := by
  unfold safeAdd at h
  split_ifs at h with hover
  cases h
  show value + 1 ≠ 0
  grind

variable {peers result : List RegionPeerLocation}

lemma mem_childPeers {highWater mark : UInt64}
    (h : childPeers highWater peers = (some result, mark)) {peer : RegionPeerLocation}
    (hpeer : peer ∈ result) :
    ∃ old ∈ peers, ∃ peerId, peerId ≠ 0 ∧ peer = { old with peerId := peerId } := by
  induction peers generalizing highWater result with
  | nil =>
    cases h
    cases hpeer
  | cons first rest ih =>
    rw [childPeers] at h
    split at h
    · cases h
    · rename_i peerId hadd
      rcases hplaced : childPeers peerId rest with ⟨placed, next⟩
      rw [hplaced] at h
      obtain ⟨hmap, rfl⟩ := Prod.mk.inj h
      obtain ⟨others, rfl, rfl⟩ := Option.map_eq_some_iff.1 hmap
      rcases mem_cons.1 hpeer with rfl | hpeer
      · exact ⟨first, mem_cons_self, peerId, safeAdd_one_ne_zero hadd, rfl⟩
      · obtain ⟨old, hold, hspec⟩ := ih hplaced hpeer
        exact ⟨old, mem_cons_of_mem _ hold, hspec⟩

lemma childPeers_hasIds {highWater mark : UInt64}
    (h : childPeers highWater peers = (some result, mark)) (hpeers : ∀ peer ∈ peers, peer.HasIds) :
    ∀ peer ∈ result, peer.HasIds := by
  intro peer hpeer
  obtain ⟨old, hold, peerId, hid, rfl⟩ := mem_childPeers h hpeer
  exact ⟨(hpeers old hold).1, hid⟩

variable {splitKey : Bytes}

/-- The Region marked has the range, the id and the peers that the parent had. -/
lemma IsCatalog.mark {child : RegionMetadata} (h : IsCatalog σ.regions)
    (hmem : parent ∈ σ.regions) : IsCatalog (σ.replaceRegion (marked parent splitKey child)) := by
  refine h.map ?_ ?_ ?_ ?_
  all_goals intro other hother
  · split_ifs with hid
    · rw [h.eq_of_regionId hother hmem hid]
      rfl
    · rfl
  · split_ifs with hid
    · exact hid.symm
    · rfl
  · split_ifs with hid
    · rw [h.eq_of_regionId hother hmem hid]
      rfl
    · rfl
  · intro hwf
    split
    · have hwf := h.wellFormed parent hmem
      exact ⟨hwf.valid, hwf.peers, hwf.leader, hwf.findPeer⟩
    · exact hwf

lemma Core.replaced (h : Core σ) {removeRegionIds left : List UInt64}
    {removed retained added : List RegionMetadata} {addRegions : List RegionDescriptor}
    (htaken : takeRemoved removeRegionIds σ.regions = (removed, retained, left))
    (hdecoded : decodeRegions addRegions = .ok added) (revision : UInt64) :
    ∀ region ∈ retained ++ added.map fun region => region.stamped revision, region.Identified := by
  intro region hregion
  rcases mem_append.1 hregion with hregion | hregion
  · have hmem := (takeRemoved_perm htaken).mem_iff.1 (mem_append_right _ hregion)
    exact h.identified region hmem
  · exact stamped_identified (decodeRegions_identified hdecoded) region hregion

lemma Core.split (h : Core σ)
    {pendingChild : RegionMetadata} (hfound : σ.findParent regionId = some parent)
    (hpending : parent.splitPending = some (splitKey, pendingChild)) (revision : UInt64) :
    ∀ region ∈ σ.replaceRegion (shrunken parent splitKey) ++
      [{ pendingChild with endKey := parent.endKey, metadataRevision := revision }],
      region.Identified := by
  have hidentified := h.identified _ (mem_of_findParent hfound)
  intro region hregion
  rcases mem_append.1 hregion with hregion | hregion
  · obtain ⟨old, hold, rfl⟩ := mem_map.1 hregion
    split
    · exact hidentified.congr rfl (.inr rfl)
    · exact h.identified old hold
  · rw [mem_singleton.1 hregion]
    have hchild := (identified_iff.1 hidentified).2 _ _ hpending
    exact hchild.congr rfl (.inl rfl)

/-! ## Runs -/

/-- The revision does not wrap around, and the move that the command commits puts in a peer that
fits, into a Region whose configuration version does not wrap around to zero. -/
def StepFits (σ : MetadataState) (command : MetadataCommand) : Prop :=
  σ.revision < σ.revision + 1 ∧
    match command.operation with
    | .commitMovePeer regionId _ _ =>
      (∀ migration ∈ σ.migrations[regionId]?, TargetFits σ.regions migration) ∧
        ∀ region ∈ σ.regions, region.hasId regionId = true → region.epoch.confVersion + 3 ≠ 0
    | _ => True

namespace MetadataState.Installs

variable {σ τ : MetadataState} {command : MetadataCommand}
  {answer : MetadataState → MetadataCommandResult}

section

variable (h : Installs σ command τ answer)

include h

/-- What a handler installs has the Regions of a catalog, if the move that it commits fits. -/
lemma core (hσ : Core σ) (hfits : StepFits σ command) : Core τ := by
  obtain ⟨hrevision, hmove⟩ := hfits
  have hnext : σ.revision + 1 ≠ 0 := by grind
  cases h with
  | bootstrap _ _ _ hdecoded hvalid hregistered _ =>
    exact Core.install (stamped_identified (decodeRegions_identified hdecoded)) hvalid rfl (by simp)
      (addStores_induction (fun _ => StoreDescriptor.named_of_valid) hregistered (by simp)) hσ.migrations
  | replaceRegions _ hboot htaken hdecoded _ hvalid =>
    exact Core.install (hσ.replaced htaken hdecoded _) hvalid rfl hnext hσ.stores hσ.migrations
  | prepareSplit _ hboot hfound _ _ hplaced =>
    have hmem := mem_of_findParent hfound
    have hidentified := hσ.identified _ hmem
    refine ⟨fun hzero => absurd hzero hnext, fun _ => (hσ.catalog hboot).mark hmem, ?_, hσ.stores,
      hσ.migrations⟩
    intro region hregion
    obtain ⟨old, hold, rfl⟩ := mem_map.1 hregion
    split
    · refine identified_iff.2 ⟨hidentified.hasIds, ?_⟩
      rintro _ _ ⟨⟩
      refine identified_iff.2 ⟨?_, by simp [splitChild]⟩
      exact childPeers_hasIds hplaced hidentified.hasIds
    · exact hσ.identified old hold
  | commitSplit _ hboot hfound hpending hvalid =>
    exact Core.install (hσ.split hfound hpending _) hvalid rfl hnext hσ.stores hσ.migrations
  | @prepareMovePeer regionId _ toStoreId _ _ _ _ targetStore _ hboot _ _ _ hregistered hadd =>
    refine Core.stampRegions ⟨fun hzero => absurd hzero hnext, fun _ => hσ.catalog hboot,
      hσ.identified, hσ.stores, ?_⟩ hnext
    intro id migration hget
    rcases OrdMap.insert_cases hget with ⟨-, rfl⟩ | hget
    · obtain ⟨hstore, hhost⟩ := hσ.stores toStoreId targetStore hregistered
      exact ⟨hstore, hhost, safeAdd_one_ne_zero hadd⟩
    · exact hσ.migrations id migration hget
  | @commitMovePeer regionId _ _ region migration hop hboot _ hstarted _ hfound hpresent =>
    rw [hop] at hmove
    have hmem := mem_of_find?_eq_some hfound
    have hmoved := (hσ.catalog hboot).move hfound hpresent (hmove.1 migration hstarted)
      (hσ.migrations regionId migration hstarted) (hmove.2 region hmem (find?_some hfound))
    refine Core.stampRegions ⟨fun hzero => absurd hzero hnext, fun _ => hmoved, ?_, hσ.stores,
      fun _ _ hget => hσ.migrations _ _ (OrdMap.of_getElem?_erase hget).2⟩ hnext
    intro other hother
    refine identified_iff.2 ⟨(hmoved.wellFormed other hother).hasIds, ?_⟩
    -- a move leaves pending splits alone
    obtain ⟨old, hold, hpending⟩ : ∃ old ∈ σ.regions, other.splitPending = old.splitPending := by
      rcases mem_updateFirst hother with hold | ⟨old, hold, -, rfl⟩
      · exact ⟨other, hold, rfl⟩
      · exact ⟨old, hold, rfl⟩
    rw [hpending]
    exact (identified_iff.1 (hσ.identified old hold)).2
  | cancelMovePeer _ hboot =>
    exact Core.stampRegions ⟨fun hzero => absurd hzero hnext, fun _ => hσ.catalog hboot,
      hσ.identified, hσ.stores,
      fun _ _ hget => hσ.migrations _ _ (OrdMap.of_getElem?_erase hget).2⟩ hnext
  | @putStore store _ hboot hvalid =>
    refine hσ.renumbered hboot hnext rfl ?_ rfl
    intro storeId other hget
    rcases OrdMap.insert_cases hget with ⟨heq, rfl⟩ | hget
    · rw [← heq]
      exact StoreDescriptor.named_of_valid hvalid
    · exact hσ.stores storeId other hget
  | @allocateIds kind _ mark _ hboot _ _ =>
    cases kind <;> exact hσ.renumbered hboot hnext rfl hσ.stores rfl
  | _ => exact hσ.untouched rfl rfl rfl rfl

/-- Regions change only together with the revision. -/
lemma grows (hrevision : σ.revision < σ.revision + 1) :
    τ.regions = σ.regions ∨ σ.revision < τ.revision := by
  cases h with
  | bootstrap _ hfresh =>
    right
    show σ.revision < 1
    rw [hfresh]
    decide
  | replaceRegions | prepareSplit | commitSplit | prepareMovePeer | commitMovePeer
  | cancelMovePeer => exact .inr hrevision
  | @allocateIds kind => cases kind <;> exact .inl rfl
  | _ => exact .inl rfl

lemma revision_le (hrevision : σ.revision < σ.revision + 1) : σ.revision ≤ τ.revision := by
  have hnext : σ.revision ≤ σ.revision + 1 := by grind
  cases h with
  | bootstrap _ hfresh =>
    rw [hfresh]
    exact UInt64.zero_le
  | replaceRegions | prepareSplit | commitSplit | prepareMovePeer | commitMovePeer
  | cancelMovePeer | putStore | allocateIds => exact hnext
  | _ => exact UInt64.le_refl _

end

end MetadataState.Installs

/-- A command kept the invariant, and if it was accepted and changed the Regions, the revision has
grown. -/
def Keeps (σ : MetadataState) (answer : MetadataCommandResult × MetadataState) : Prop :=
  Inv answer.2 ∧
    (answer.1.error = .ok → answer.2.regions = σ.regions ∨ σ.revision < answer.2.revision)

variable {command : MetadataCommand}

section

variable (h : Inv σ) (hfits : StepFits σ command)

include h hfits

variable {answer : MetadataCommandResult × MetadataState}

lemma Inv.outcome (houtcome : MetadataState.Outcome σ command answer) : Keeps σ answer := by
  cases houtcome with
  | refused | kept => exact ⟨h, fun _ => .inl rfl⟩
  | exhausted => exact ⟨{ h with }, fun _ => .inl rfl⟩
  | @installed τ answer hinstalls =>
    have hcore := hinstalls.core h.toCore hfits
    obtain ⟨catalog, hpublish, hcatalog⟩ := hcore.publish answer
    rw [hpublish]
    exact ⟨{ hcore with published := hcatalog }, fun _ => hinstalls.grows hfits.1⟩

lemma Inv.applied (happlied : MetadataState.Applied σ command answer) : Keeps σ answer := by
  cases happlied with
  | unnamed | repeated => exact ⟨h, fun _ => .inl rfl⟩
  | @recorded answer _ _ houtcome =>
    obtain ⟨hinv, hgrows⟩ := h.outcome hfits houtcome
    obtain ⟨dedup, dedupOrder, heq⟩ := answer.2.recordResultLocked_eq command.mutationId answer.1
    rw [heq]
    exact ⟨{ hinv with }, hgrows⟩

lemma Inv.apply : Keeps σ (σ.apply command) := h.applied hfits (apply_applied σ command)

end

/-- The runs of the state machine by its commands. A replica also takes over snapshots: `Restore` is a
step of `replicaSystem`. -/
def metadataSystem : TransitionSystem MetadataState MetadataCommand :=
  .ofFun {} fun σ command => (σ.apply command).2

/-- The commands that the machine accepts. -/
def Accepted (σ : MetadataState) (command : MetadataCommand) : Prop :=
  (σ.apply command).1.error = .ok

instance (σ : MetadataState) (command : MetadataCommand) : Decidable (Accepted σ command) :=
  inferInstanceAs (Decidable (_ = _))

lemma inv_of_reachable (h : metadataSystem.Reachable StepFits σ) : Inv σ := by
  refine h.invariant ?_ ?_
  · rintro _ rfl
    exact Inv.of_empty
  · rintro σ command _ hσ hfits rfl
    exact (hσ.apply hfits).1

/-- In every run that commits only moves whose target fits, the Regions of a bootstrapped state
tile the key space with unique ids, the view shows them, every key is looked up in the Region that
contains it, and a command that changes them moves the revision forward. -/
theorem topology_of_stepFits {σ : MetadataState} (h : metadataSystem.Reachable StepFits σ)
    (hboot : σ.revision ≠ 0) :
    (∀ key, ∃! region, region ∈ σ.regions ∧ region.contains key = true) ∧
    (σ.regions.map RegionMetadata.regionId).Nodup ∧
    ((σ.regions.flatMap RegionMetadata.peers).map RegionPeerLocation.peerId).Nodup ∧
    (∀ region ∈ σ.regions,
      region.epoch.version ≠ 0 ∧ region.epoch.confVersion ≠ 0 ∧ region.peers ≠ []) ∧
    σ.published.catalog = some σ.regions ∧
    (∀ key, ∃ region ∈ σ.regions, region.contains key = true ∧ σ.lookupKey key = some region) ∧
    ∀ command, StepFits σ command → (σ.apply command).1.error = .ok →
      (σ.apply command).2.regions ≠ σ.regions → σ.revision < (σ.apply command).2.revision := by
  have hinv := inv_of_reachable h
  have hcatalog := hinv.catalog hboot
  have hview := hinv.published hboot
  refine ⟨?_, ?_, ?_, ?_, hview, ?_, ?_⟩
  · intro key
    obtain ⟨region, hmem, -, hcontains, hunique⟩ := findByKey_of_tiles hcatalog.tiles key
    exact ⟨region, ⟨hmem, hcontains⟩, fun other hother => hunique other hother.1 hother.2⟩
  · exact pairwise_map.2 hcatalog.ids
  · exact pairwise_map.2 (hcatalog.peers.imp fun hpq => hpq.1)
  · intro region hmem
    obtain ⟨-, hpeers, -, hversion, hconf, -⟩ :=
      invalid_eq_false (hcatalog.wellFormed region hmem).valid
    exact ⟨hversion, hconf, hpeers⟩
  · intro key
    obtain ⟨region, hmem, hfind, hcontains, -⟩ := findByKey_of_tiles hcatalog.tiles key
    refine ⟨region, hmem, hcontains, ?_⟩
    rw [lookupKey, hview, Option.bind_some, hfind]
    rfl
  · intro command hfits haccepted hchanged
    exact ((hinv.apply hfits).2 haccepted).resolve_left hchanged

/-! ## A move that fits and one that does not -/

instance (regions : List RegionMetadata) (migration : ReplicaMigrationStatus) :
    Decidable (TargetFits regions migration) :=
  decidable_of_iff _ (targetFits_iff regions migration).symm

instance (σ : MetadataState) (command : MetadataCommand) : Decidable (StepFits σ command) := by
  obtain ⟨_, _, operation⟩ := command
  induction operation using Operation.casesOn <;> dsimp only [StepFits] <;> infer_instance

/-- One Region with one peer on a registered Store. -/
def bootstrapCommand : MetadataCommand :=
  ⟨[1], 0, .bootstrap [1]
    [{ regionId := 10
       peers := [{ peerId := 101, storeId := 1, host := [1], port := 26001 }]
       epoch := ⟨1, 1⟩ }]
    [⟨1, [1], 26001⟩]⟩

/-- One Region with one peer, which is moved to a second Store that listens on `port`. -/
def moveCommands (port : UInt32) : List MetadataCommand :=
  [bootstrapCommand, ⟨[2], 1, .putStore ⟨2, [2], port⟩⟩,
    ⟨[3], 2, .prepareMovePeer 10 1 2 (some ⟨1, 1⟩)⟩, ⟨[4], 3, .commitMovePeer 10 102 (some ⟨1, 1⟩)⟩]

def MetadataState.run (σ : MetadataState) (commands : List MetadataCommand) : MetadataState :=
  commands.foldl (fun σ command => (σ.apply command).2) σ

theorem topology_moveCommands :
    metadataSystem.Reachable StepFits (MetadataState.run {} (moveCommands 26002)) ∧
      (MetadataState.run {} (moveCommands 26002)).revision = 4 ∧
      (MetadataState.run {} (moveCommands 26002)).published.catalog =
        some (MetadataState.run {} (moveCommands 26002)).regions := by
  have hreach : metadataSystem.Reachable StepFits (run {} (moveCommands 26002)) :=
    Guarded.reachable (by decide)
  have hrevision : (run {} (moveCommands 26002)).revision = 4 := by decide
  have htopology := topology_of_stepFits hreach (by rw [hrevision]; decide)
  exact ⟨hreach, hrevision, htopology.2.2.2.2.1⟩

/-- A Store on a port above 32767 is registered and chosen as a target, and then the commit changes
the Regions and fails to publish them. -/
theorem view_differs_after_moveCommands :
    ¬∀ σ : MetadataState, metadataSystem.Reachable TransitionSystem.anyStep σ → σ.revision ≠ 0 →
      σ.published.catalog = some σ.regions := by
  intro h
  have hreach : metadataSystem.Reachable anyStep
      (run {} (moveCommands 40000)) :=
    Guarded.reachable (by decide)
  have hview := h _ hreach (by decide)
  have hpeers := congrArg (Option.map (flatMap peers)) hview
  exact absurd hpeers (by decide)

/-! ## Revisions -/

/-- The revision has not gone back, and has moved if the Regions have changed. -/
def MetadataState.Precedes (σ τ : MetadataState) : Prop :=
  σ.revision ≤ τ.revision ∧ (τ.revision = σ.revision → τ.regions = σ.regions)

lemma MetadataState.precedes_apply (command : MetadataCommand)
    (hrevision : σ.revision < σ.revision + 1) : σ.Precedes (σ.apply command).2 := by
  have hkept : σ.Precedes σ := ⟨UInt64.le_refl _, fun _ => rfl⟩
  refine (apply_applied σ command).lift hkept (fun houtcome => ?_) fun _ _ h => h
  cases houtcome with
  | refused | kept | exhausted => exact hkept
  | @installed τ answer hinstalls =>
    -- the Regions are installed even if they cannot be published
    obtain ⟨view, hview⟩ := τ.publish_snd answer
    rw [hview]
    refine ⟨hinstalls.revision_le hrevision, fun heq => ?_⟩
    exact (hinstalls.grows hrevision).resolve_right (heq ▸ UInt64.lt_irrefl _)

/-- Over a whole run, also one of refused and failing commands, a revision stands for one topology. -/
theorem regions_of_revision
    (hrun : metadataSystem.Reaches (fun σ _ => σ.revision < σ.revision + 1) σ τ) : σ.Precedes τ := by
  refine hrun.stable (I := σ.Precedes) ?_ ⟨UInt64.le_refl _, fun _ => rfl⟩
  rintro τ command _ ⟨hle, hregions⟩ hrevision rfl
  obtain ⟨hle', hregions'⟩ := precedes_apply command hrevision
  refine ⟨UInt64.le_trans hle hle', fun heq => ?_⟩
  have hsame : τ.revision = σ.revision := UInt64.le_antisymm (heq ▸ hle') hle
  rw [hregions' (heq.trans hsame.symm), hregions hsame]

theorem regions_of_revision_moveCommands :
    (run {} (moveCommands 40000)).revision = 4 ∧ Precedes {} (run {} (moveCommands 40000)) :=
  ⟨by decide, regions_of_revision (Guarded.reaches (by decide))⟩

end StrataKV.Metadata
