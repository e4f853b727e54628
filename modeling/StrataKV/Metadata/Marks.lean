import StrataKV.Metadata.Topology

/-!
# High-water marks

The three high-water marks are at least as great as every id in use: `Covered`. A handler that
installs Regions recomputes the marks, and the others move a mark to the id they have just given out.
No mark ever goes back (`Installs.marks`).
-/

namespace StrataKV.Metadata

open Std (ExtTreeMap)
open MetadataState List

variable {σ τ : MetadataState} {command : MetadataCommand}

/-! ## The greatest of some ids -/

lemma max_def (a b : UInt64) : max a b = if a ≤ b then b else a := rfl

/-- A running maximum is at least its start and every value it has met. -/
lemma foldl_max_spec {α : Type} (f : α → UInt64) (items : List α) (mark : UInt64) :
    mark ≤ items.foldl (fun mark item => max mark (f item)) mark ∧
      ∀ item ∈ items, f item ≤ items.foldl (fun mark item => max mark (f item)) mark := by
  induction items generalizing mark with
  | nil => simp
  | cons item rest ih =>
    obtain ⟨hmark, hrest⟩ := ih (max mark (f item))
    have hfirst := max_def mark (f item)
    rw [foldl_cons]
    refine ⟨by grind, forall_mem_cons.2 ⟨by grind, hrest⟩⟩

/-- It stays at its start if no value is greater. -/
lemma foldl_max_eq {α : Type} {f : α → UInt64} {items : List α} {mark : UInt64}
    (h : ∀ item ∈ items, f item ≤ mark) :
    items.foldl (fun mark item => max mark (f item)) mark = mark := by
  induction items with
  | nil => rfl
  | cons item rest ih =>
    obtain ⟨hitem, hrest⟩ := forall_mem_cons.1 h
    have hsame : max mark (f item) = mark := by
      rw [max_def]
      grind
    rw [foldl_cons, hsame, ih hrest]

variable {value count result : UInt64}

/-- An addition that is allowed does not wrap. -/
lemma safeAdd_eq (h : safeAdd value count = some result) :
    count ≠ 0 ∧ result = value + count ∧ result.toNat = value.toNat + count.toNat := by
  unfold safeAdd at h
  split_ifs at h with hover
  cases h
  simp only [not_or] at hover
  refine ⟨hover.1, rfl, ?_⟩
  have hle : value.toNat ≤ 18446744073709551615 - count.toNat := by
    have hnot := hover.2
    rw [UInt64.lt_iff_toNat_lt, UInt64.toNat_sub_of_le _ _ (UInt64.le_iff_toNat_le.2 (by
      have := count.toNat_lt
      simp only [UInt64.reduceToNat]
      omega))] at hnot
    simp only [UInt64.reduceToNat] at hnot
    omega
  have hlt := count.toNat_lt
  rw [UInt64.toNat_add]
  exact Nat.mod_eq_of_lt (by omega)

/-- So it does not go down. -/
lemma le_of_safeAdd (h : safeAdd value count = some result) : value ≤ result := by
  rw [UInt64.le_iff_toNat_le, (safeAdd_eq h).2.2]
  omega

/-- Placing the peers of a child does not take the mark back. -/
lemma childPeers_mark {highWater mark : UInt64} {peers : List RegionPeerLocation}
    {placed : Option (List RegionPeerLocation)} (h : childPeers highWater peers = (placed, mark)) :
    highWater ≤ mark := by
  induction peers generalizing highWater placed with
  | nil =>
    cases h
    exact UInt64.le_refl _
  | cons first rest ih =>
    rw [childPeers] at h
    split at h
    · cases h
      exact UInt64.le_refl _
    · rename_i peerId hadd
      cases h
      exact UInt64.le_trans (le_of_safeAdd hadd) (ih rfl)

/-! ## The ids in use -/

/-- The marks are at least as great as the ids of Regions, peers and Stores, and of the targets of
migrations. -/
structure Covered (σ : MetadataState) : Prop where
  regions : ∀ region ∈ σ.regions, ofInt region.regionId ≤ σ.regionIdHighWater
  peers : ∀ region ∈ σ.regions, ∀ peer ∈ region.peers,
    peer.peerId ≤ σ.peerIdHighWater ∧ peer.storeId ≤ σ.storeIdHighWater
  stores : ∀ (storeId : UInt64) (store : StoreDescriptor), σ.stores[storeId]? = some store →
    storeId ≤ σ.storeIdHighWater
  targets : ∀ (regionId : UInt64) (migration : ReplicaMigrationStatus),
    σ.migrations[regionId]? = some migration → migration.targetPeer.peerId ≤ σ.peerIdHighWater ∧
        migration.targetPeer.storeId ≤ σ.storeIdHighWater

/-- No mark goes back. -/
structure MarksLE (σ τ : MetadataState) : Prop where
  region : σ.regionIdHighWater ≤ τ.regionIdHighWater
  peer : σ.peerIdHighWater ≤ τ.peerIdHighWater
  store : σ.storeIdHighWater ≤ τ.storeIdHighWater

namespace MarksLE

/-- Equal marks are ordered. -/
lemma of_eq (hregion : τ.regionIdHighWater = σ.regionIdHighWater)
    (hpeer : τ.peerIdHighWater = σ.peerIdHighWater)
    (hstore : τ.storeIdHighWater = σ.storeIdHighWater) : MarksLE σ τ :=
  ⟨UInt64.le_of_eq hregion.symm, UInt64.le_of_eq hpeer.symm, UInt64.le_of_eq hstore.symm⟩

lemma trans {υ : MetadataState} (h₁ : MarksLE σ τ) (h₂ : MarksLE τ υ) : MarksLE σ υ :=
  ⟨UInt64.le_trans h₁.region h₂.region, UInt64.le_trans h₁.peer h₂.peer,
    UInt64.le_trans h₁.store h₂.store⟩

/-- Recomputing the marks only raises them. -/
lemma recompute (h : MarksLE σ τ) : MarksLE σ τ.recomputeHighWater := by
  refine h.trans ⟨(foldl_max_spec _ _ _).1, (foldl_max_spec _ _ _).1, ?_⟩
  exact UInt64.le_trans (foldl_max_spec _ _ _).1 (foldl_max_spec id _ _).1

lemma recomputed (τ : MetadataState) : MarksLE τ τ.recomputeHighWater :=
  (MarksLE.of_eq rfl rfl rfl).recompute

end MarksLE

namespace Covered

/-- Recomputed marks cover all but the targets of migrations. -/
lemma recompute (h : ∀ (regionId : UInt64) (migration : ReplicaMigrationStatus),
    τ.migrations[regionId]? = some migration → migration.targetPeer.peerId ≤ τ.peerIdHighWater ∧
        migration.targetPeer.storeId ≤ τ.storeIdHighWater) : Covered τ.recomputeHighWater := by
  have hmarks := MarksLE.recomputed τ
  have hpeer {region : RegionMetadata} (hregion : region ∈ τ.regions) {peer : RegionPeerLocation}
      (hpeer : peer ∈ region.peers) : peer ∈ τ.regions.flatMap RegionMetadata.peers :=
    mem_flatMap.2 ⟨region, hregion, hpeer⟩
  refine ⟨?_, ?_, ?_, ?_⟩
  · exact (foldl_max_spec (fun region : RegionMetadata => ofInt region.regionId) τ.regions _).2
  · intro region hregion peer hmem
    refine ⟨(foldl_max_spec RegionPeerLocation.peerId _ _).2 peer (hpeer hregion hmem), ?_⟩
    exact UInt64.le_trans
      ((foldl_max_spec RegionPeerLocation.storeId _ _).2 peer (hpeer hregion hmem))
      (foldl_max_spec id _ _).1
  · intro storeId store hget
    have hget : τ.stores[storeId]? = some store := hget
    refine (foldl_max_spec id _ _).2 storeId ?_
    rw [ExtTreeMap.mem_keys, ExtTreeMap.mem_iff_isSome_getElem?, hget]
    rfl
  · intro regionId migration hget
    obtain ⟨hpeer, hstore⟩ := h regionId migration hget
    exact ⟨UInt64.le_trans hpeer hmarks.peer, UInt64.le_trans hstore hmarks.store⟩

/-- Covered marks stay as they are when they are recomputed. -/
lemma recompute_eq (h : Covered σ) : σ.recomputeHighWater = σ := by
  have hregions := foldl_max_eq (f := fun region : RegionMetadata => ofInt region.regionId) h.regions
  have hpeer {f : RegionPeerLocation → UInt64} {mark : UInt64}
      (hf : ∀ region ∈ σ.regions, ∀ peer ∈ region.peers, f peer ≤ mark) :
      ∀ peer ∈ σ.regions.flatMap RegionMetadata.peers, f peer ≤ mark := by
    intro peer hmem
    obtain ⟨region, hregion, hmem⟩ := mem_flatMap.1 hmem
    exact hf region hregion peer hmem
  have hpeers := foldl_max_eq (hpeer fun region hr peer hp => (h.peers region hr peer hp).1)
  have hstores := foldl_max_eq (hpeer fun region hr peer hp => (h.peers region hr peer hp).2)
  have hkeys : σ.stores.keys.foldl max σ.storeIdHighWater = σ.storeIdHighWater := by
    refine foldl_max_eq (f := id) ?_
    intro storeId hmem
    rw [ExtTreeMap.mem_keys, ExtTreeMap.mem_iff_isSome_getElem?] at hmem
    obtain ⟨store, hget⟩ := Option.isSome_iff_exists.1 hmem
    exact h.stores storeId store hget
  unfold recomputeHighWater
  dsimp only
  rw [hregions, hpeers, hstores, hkeys]

/-- Greater marks cover the same Regions, Stores and migrations. -/
lemma mono (h : Covered σ) (hmarks : MarksLE σ τ) (hregions : τ.regions = σ.regions)
    (hstores : τ.stores = σ.stores) (hmigrations : τ.migrations = σ.migrations) : Covered τ := by
  refine ⟨?_, ?_, ?_, ?_⟩
  · rw [hregions]
    exact fun region hr => UInt64.le_trans (h.regions region hr) hmarks.region
  · rw [hregions]
    exact fun region hr peer hp => ⟨UInt64.le_trans (h.peers region hr peer hp).1 hmarks.peer,
      UInt64.le_trans (h.peers region hr peer hp).2 hmarks.store⟩
  · rw [hstores]
    exact fun storeId store hget => UInt64.le_trans (h.stores storeId store hget) hmarks.store
  · rw [hmigrations]
    exact fun id migration hget => ⟨UInt64.le_trans (h.targets id migration hget).1 hmarks.peer,
      UInt64.le_trans (h.targets id migration hget).2 hmarks.store⟩

/-- Stamping Regions with a revision changes no id. -/
lemma stampRegions (h : Covered τ) : Covered τ.stampRegions where
  regions := by
    intro region hregion
    obtain ⟨old, hold, rfl⟩ := mem_map.1 hregion
    exact h.regions old hold
  peers := by
    intro region hregion
    obtain ⟨old, hold, rfl⟩ := mem_map.1 hregion
    exact h.peers old hold
  stores := h.stores
  targets := h.targets

end Covered

namespace MetadataState.Installs

variable {answer : MetadataState → MetadataCommandResult}

/-- No command takes a mark back. -/
lemma marks (h : Installs σ command τ answer) : MarksLE σ τ := by
  cases h with
  | bootstrap | replaceRegions | commitSplit => exact MarksLE.recompute (.of_eq rfl rfl rfl)
  | @prepareSplit _ _ _ parent childId mark peers _ _ _ _ hallocated hplaced =>
    refine MarksLE.recompute ⟨?_, ?_, UInt64.le_refl _⟩
    · exact le_of_safeAdd hallocated
    · exact childPeers_mark hplaced
  | prepareMovePeer _ _ _ _ _ _ hallocated =>
    exact ⟨UInt64.le_refl _, le_of_safeAdd hallocated, UInt64.le_refl _⟩
  | @allocateIds kind _ _ _ _ _ hallocated =>
    cases kind with
    | region => exact ⟨le_of_safeAdd hallocated, UInt64.le_refl _, UInt64.le_refl _⟩
    | peer => exact ⟨UInt64.le_refl _, le_of_safeAdd hallocated, UInt64.le_refl _⟩
    | store => exact ⟨UInt64.le_refl _, UInt64.le_refl _, le_of_safeAdd hallocated⟩
    | unknown => exact .of_eq rfl rfl rfl
  | putStore =>
    refine ⟨UInt64.le_refl _, UInt64.le_refl _, ?_⟩
    rw [max_def]
    grind
  | _ => exact .of_eq rfl rfl rfl

/-- Every command leaves the ids in use below the marks. -/
lemma covered (h : Installs σ command τ answer) (hσ : Covered σ) : Covered τ := by
  have hmarks := h.marks
  cases h with
  -- these recompute the marks over all Regions, so only the migrations are left
  | bootstrap | replaceRegions | commitSplit => exact Covered.recompute hσ.targets
  | prepareSplit _ _ _ _ _ hplaced =>
    refine Covered.recompute ?_
    intro id migration hget
    obtain ⟨hpeer, hstore⟩ := hσ.targets id migration hget
    exact ⟨UInt64.le_trans hpeer (childPeers_mark hplaced), hstore⟩
  -- the target takes the next peer id and stands on a registered Store
  | @prepareMovePeer _ _ toStoreId newPeerId _ _ _ targetStore _ _ _ _ _ hregistered hallocated =>
    refine Covered.stampRegions ⟨hσ.regions, ?_, hσ.stores, ?_⟩
    · intro region hr peer hp
      exact ⟨UInt64.le_trans (hσ.peers region hr peer hp).1 (le_of_safeAdd hallocated),
        (hσ.peers region hr peer hp).2⟩
    · intro id migration hget
      rcases OrdMap.insert_cases hget with ⟨-, rfl⟩ | hget
      · exact ⟨UInt64.le_refl _, hσ.stores toStoreId targetStore hregistered⟩
      · exact ⟨UInt64.le_trans (hσ.targets id migration hget).1 (le_of_safeAdd hallocated),
          (hσ.targets id migration hget).2⟩
  | @commitMovePeer regionId _ _ _ migration _ _ _ hstarted =>
    have htarget := hσ.targets regionId migration hstarted
    refine Covered.stampRegions ⟨?_, ?_, hσ.stores, ?_⟩
    · intro region hregion
      rcases mem_updateFirst hregion with hold | ⟨old, hold, -, rfl⟩
      · exact hσ.regions region hold
      · exact hσ.regions old hold
    · intro region hregion peer hpeer
      rcases mem_updateFirst hregion with hold | ⟨old, hold, -, rfl⟩
      · exact hσ.peers region hold peer hpeer
      · -- the peer that is put in is the target
        rcases mem_updateFirst hpeer with hpeer | ⟨-, -, -, rfl⟩
        · exact hσ.peers old hold peer hpeer
        · exact htarget
    · intro id other hget
      exact hσ.targets id other (OrdMap.of_getElem?_erase hget).2
  | cancelMovePeer =>
    refine Covered.stampRegions ⟨hσ.regions, hσ.peers, hσ.stores, ?_⟩
    intro id other hget
    exact hσ.targets id other (OrdMap.of_getElem?_erase hget).2
  | @allocateIds kind => cases kind <;> exact hσ.mono hmarks rfl rfl rfl
  | @putStore store =>
    refine ⟨hσ.regions, ?_, ?_, ?_⟩
    · intro region hr peer hp
      exact ⟨(hσ.peers region hr peer hp).1,
        UInt64.le_trans (hσ.peers region hr peer hp).2 hmarks.store⟩
    · intro storeId other hget
      rw [OrdMap.getElem?_insert] at hget
      split_ifs at hget with heq
      · rw [max_def, ← heq]
        grind
      · exact UInt64.le_trans (hσ.stores storeId other hget) hmarks.store
    · intro id migration hget
      exact ⟨(hσ.targets id migration hget).1,
        UInt64.le_trans (hσ.targets id migration hget).2 hmarks.store⟩
  | _ => exact hσ.mono hmarks rfl rfl rfl

end MetadataState.Installs

end StrataKV.Metadata
