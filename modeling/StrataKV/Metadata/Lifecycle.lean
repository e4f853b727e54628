import StrataKV.Metadata.Ids

/-!
# Splits and migrations of a Region

A split and a migration both take two commands, and between the two the Region is in a state that
the other operation should not meet. The handlers do not look at each other: `PrepareSplit` accepts a
Region that is migrating, `PrepareMovePeer` one that is being split, and `ReplaceRegions` removes
both. `Exclusive` is the discipline under which a migration always finds its Region with the source
and without the target, no Region is in both states, and the epochs of a Region id never go back.
-/

namespace StrataKV.Metadata

open Std (ExtTreeMap)
open MetadataState TransitionSystem List OrdMap

variable {σ τ ρ : MetadataState} {command : MetadataCommand}
  {answer : MetadataState → MetadataCommandResult}

/-! ## The discipline -/

/-- The command does not start an operation on a Region that is in the middle of another one, and no
epoch wraps around. -/
def Exclusive (σ : MetadataState) (command : MetadataCommand) : Prop :=
  match command.operation with
  | .prepareSplit regionId _ _ =>
    ∀ parent ∈ σ.findParent regionId, σ.migrations.contains (ofInt parent.regionId) = false
  | .prepareMovePeer regionId _ _ _ =>
    ∀ region ∈ σ.regions, region.hasId regionId = true → region.splitPending.isNone = true
  | .replaceRegions removeRegionIds _ =>
    ∀ regionId ∈ removeRegionIds, σ.migrations.contains regionId = false
  | .commitSplit regionId =>
    ∀ parent ∈ σ.findParent regionId, parent.epoch.version ≤ parent.epoch.version + 1
  | .commitMovePeer regionId _ _ =>
    ∀ region ∈ σ.regions, region.hasId regionId = true →
      region.epoch.confVersion ≤ region.epoch.confVersion + 3
  | _ => True

def LifeStep (σ : MetadataState) (command : MetadataCommand) : Prop :=
  StepFits σ command ∧ FreshRegions σ command ∧ Exclusive σ command

/-! ## The invariant -/

/-- The id of the child of a pending split is not the id of a Region, nor of another child. -/
def PendingApart (σ : MetadataState) : Prop :=
  ∀ parent ∈ σ.regions, ∀ pending ∈ parent.splitPending, ∀ other ∈ σ.regions,
    other.regionId ≠ pending.2.regionId ∧
      ∀ otherPending ∈ other.splitPending, otherPending.2.regionId = pending.2.regionId →
        other.regionId = parent.regionId

/-- The Region has the source of the migration and not yet its target, and is not being split. -/
structure Migrating (migration : ReplicaMigrationStatus) (region : RegionMetadata) : Prop where
  source : ∃ peer ∈ region.peers, peer.peerId = migration.sourcePeerId
  target : ∀ peer ∈ region.peers, peer.peerId ≠ migration.targetPeer.peerId
  unsplit : region.splitPending = none

structure LifeInv (σ : MetadataState) : Prop where
  ids : IdsInv σ
  apart : PendingApart σ
  migrating : ∀ (regionId : UInt64) (migration : ReplicaMigrationStatus),
    σ.migrations[regionId]? = some migration →
      ∃ region ∈ σ.regions, region.hasId regionId = true ∧ Migrating migration region

/-! ## Ids of Regions and of children -/

variable {region : RegionMetadata}

/-- Where the id of an installed Region comes from. -/
lemma RegionStep.regionId_cases (h : RegionStep σ command τ region)
    (hfresh : FreshRegions σ command) :
    (∃ old ∈ σ.regions, old.regionId = region.regionId) ∨ σ.revision = 0 ∨
      (∃ removeRegionIds addRegions, command.operation = .replaceRegions removeRegionIds addRegions ∧
        σ.regionIdHighWater < ofInt region.regionId) ∨
      ∃ regionId splitKey parent child, command.operation = .commitSplit regionId ∧
        σ.findParent regionId = some parent ∧ parent.splitPending = some (splitKey, child) ∧
        region.regionId = child.regionId := by
  rw [FreshRegions] at hfresh
  cases h with
  | @kept old mem _ alike | @moved _ _ _ old _ _ _ mem _ alike =>
    exact .inl ⟨old, mem, alike.regionId.symm⟩
  | booted _ fresh => exact .inr (.inl fresh)
  | @added _ _ removed _ descriptor decoded operation taken mem read _ alike =>
    rw [operation] at hfresh
    have hid : ofInt region.regionId = descriptor.regionId := by
      rw [alike.regionId, (fromProtoRegion_spec read).1]
    rcases (hfresh descriptor mem).2 with hremoved | habove
    · rcases (takeRemoved_spec taken).2 _ hremoved with hleft | ⟨old, hold, heq⟩
      · cases hleft
      · refine .inl ⟨old, (takeRemoved_perm taken).mem_iff.1 (mem_append_left _ hold), ?_⟩
        exact ofInt_injective (heq.trans hid.symm)
    · exact .inr (.inr (.inl ⟨_, _, operation, hid ▸ habove⟩))
  | @marked _ _ _ parent _ _ _ _ found _ _ _ alike | @shrunken _ _ parent _ _ found _ alike =>
    exact .inl ⟨parent, mem_of_findParent found, alike.regionId.symm⟩
  | @child regionId splitKey parent child operation found pending alike =>
    exact .inr (.inr (.inr
      ⟨regionId, splitKey, parent, child, operation, found, pending, alike.regionId⟩))

/-- Where a pending split of an installed Region comes from: it was there before and is not the one
that the command commits, or the command has prepared it. -/
lemma RegionStep.pending_cases (h : RegionStep σ command τ region)
    (hfresh : FreshRegions σ command) (hpendings : PendingCovered σ)
    {pending : Bytes × RegionMetadata} (hpending : pending ∈ region.splitPending) :
    (∃ old ∈ σ.regions, old.regionId = region.regionId ∧ pending ∈ old.splitPending ∧
      ∀ regionId, command.operation = .commitSplit regionId →
        ∀ parent ∈ σ.findParent regionId, old.regionId ≠ parent.regionId) ∨
    ∃ regionId splitKey expectedEpoch parent,
      command.operation = .prepareSplit regionId splitKey expectedEpoch ∧
      σ.findParent regionId = some parent ∧ region.regionId = parent.regionId ∧
      σ.regionIdHighWater < ofInt pending.2.regionId := by
  rw [FreshRegions] at hfresh
  have hnone (hnone : region.splitPending = none) : False := by
    rw [hnone] at hpending
    cases hpending
  cases h with
  | @kept old mem unsplit alike =>
    exact .inl ⟨old, mem, alike.regionId.symm, alike.splitPending ▸ hpending, unsplit⟩
  | booted operation _ mem _ read alike =>
    rw [operation] at hfresh
    have hplain := (reads_of_fromProtoRegion read).plain (hfresh _ mem)
    exact (hnone (alike.splitPending.trans hplain)).elim
  | added operation _ mem read _ alike =>
    rw [operation] at hfresh
    have hplain := (reads_of_fromProtoRegion read).plain (hfresh _ mem).1
    exact (hnone (alike.splitPending.trans hplain)).elim
  | @marked regionId splitKey expectedEpoch parent childId _ _ operation found allocated _ _ alike =>
    rw [operation] at hfresh
    rw [alike.splitPending] at hpending
    cases hpending
    refine .inr ⟨regionId, splitKey, expectedEpoch, parent, operation, found, alike.regionId, ?_⟩
    show σ.regionIdHighWater < ofInt (toInt childId)
    rw [ofInt_toInt (le_intMax_of_safeAdd allocated hfresh)]
    exact lt_of_safeAdd allocated
  | shrunken _ _ _ alike => exact (hnone alike.splitPending).elim
  | child _ found pending alike =>
    have hplain := (hpendings _ (mem_of_findParent found) _ pending).plain
    exact (hnone (alike.splitPending.trans hplain)).elim
  | @moved _ _ _ old _ operation _ mem _ alike =>
    exact .inl ⟨old, mem, alike.regionId.symm, alike.splitPending ▸ hpending, by simp [operation]⟩

lemma PendingApart.installs (h : PendingApart σ) (hids : IdsInv σ)
    (hinstalls : Installs σ command τ answer) (hfresh : FreshRegions σ command) :
    PendingApart τ := by
  have hstep := hinstalls.regionStep hids.topology.toCore
  have hcovered {region : RegionMetadata} (hregion : region ∈ σ.regions)
      {pending : Bytes × RegionMetadata} (hpending : pending ∈ region.splitPending) :
      ofInt pending.2.regionId ≤ σ.regionIdHighWater :=
    (hids.pending region hregion pending hpending).regionId
  have hbooted {region : RegionMetadata} (hregion : region ∈ σ.regions) : σ.revision ≠ 0 := by
    intro hzero
    rw [hids.topology.unbootstrapped hzero] at hregion
    cases hregion
  intro parent hparent pending hpending other hother
  rcases (hstep parent hparent).pending_cases hfresh hids.pending hpending with
    ⟨old, hold, holdId, holdPending, hunsplit⟩ |
      ⟨regionId, splitKey, expectedEpoch, old, hop, hfound, hid, habove⟩
  · obtain hapart := h old hold pending holdPending
    refine ⟨?_, ?_⟩
    · rcases (hstep other hother).regionId_cases hfresh with
        ⟨otherOld, hmem, hid⟩ | hzero | ⟨-, -, -, habove⟩ |
          ⟨regionId, splitKey, committed, child, hop, hfound, hcommitted, hid⟩
      · rw [← hid]
        exact (hapart otherOld hmem).1
      · exact absurd hzero (hbooted hold)
      · intro heq
        rw [heq] at habove
        exact absurd (hcovered hold holdPending) (Std.not_le.2 habove)
      · intro heq
        -- the child that becomes a Region was the child of another parent
        have hsame := (hapart committed (mem_of_findParent hfound)).2 _ hcommitted
          (hid.symm.trans heq)
        exact hunsplit regionId hop committed hfound hsame.symm
    · intro otherPending hotherPending heq
      rcases (hstep other hother).pending_cases hfresh hids.pending hotherPending with
        ⟨otherOld, hmem, hid, hpending, -⟩ | ⟨-, -, -, -, -, -, -, habove⟩
      · rw [← hid, ← holdId]
        exact (hapart otherOld hmem).2 otherPending hpending heq
      · rw [heq] at habove
        exact absurd (hcovered hold holdPending) (Std.not_le.2 habove)
  · refine ⟨?_, ?_⟩
    · rcases (hstep other hother).regionId_cases hfresh with
        ⟨otherOld, hmem, hid⟩ | hzero | ⟨_, _, hreplace, -⟩ | ⟨_, _, _, _, hcommit, -⟩
      · intro heq
        have hle := hids.covered.regions otherOld hmem
        rw [hid, heq] at hle
        exact absurd hle (Std.not_le.2 habove)
      · exact absurd hzero (hbooted (mem_of_findParent hfound))
      · rw [hop] at hreplace
        cases hreplace
      · rw [hop] at hcommit
        cases hcommit
    · intro otherPending hotherPending heq
      rcases (hstep other hother).pending_cases hfresh hids.pending hotherPending with
        ⟨otherOld, hmem, -, hpending, -⟩ | ⟨_, _, _, otherOld, hotherOp, hotherFound, hotherId, -⟩
      · have hle := hcovered hmem hpending
        rw [heq] at hle
        exact absurd hle (Std.not_le.2 habove)
      · rw [hop] at hotherOp
        cases hotherOp
        rw [hfound] at hotherFound
        cases hotherFound
        exact hotherId.trans hid.symm

/-! ## Migrations -/

variable {migration : ReplicaMigrationStatus}

/-- Where a migration comes from: it was there before and the command does not commit it, or the
command has started it. -/
lemma MetadataState.Installs.migration_cases (h : Installs σ command τ answer) {id : UInt64}
    (hget : τ.migrations[id]? = some migration) :
    (σ.migrations[id]? = some migration ∧ ∀ regionId newPeerId expectedEpoch,
        command.operation = .commitMovePeer regionId newPeerId expectedEpoch → id ≠ regionId) ∨
    ∃ fromStoreId toStoreId expectedEpoch region,
      command.operation = .prepareMovePeer id fromStoreId toStoreId expectedEpoch ∧
      region ∈ σ.regions ∧ region.hasId id = true ∧
      (∃ peer ∈ region.peers, peer.peerId = migration.sourcePeerId) ∧
      σ.peerIdHighWater < migration.targetPeer.peerId := by
  have hsame (hop : ∀ regionId newPeerId expectedEpoch,
      command.operation ≠ .commitMovePeer regionId newPeerId expectedEpoch)
      (hget : σ.migrations[id]? = some migration) :
      σ.migrations[id]? = some migration ∧ ∀ regionId newPeerId expectedEpoch,
        command.operation = .commitMovePeer regionId newPeerId expectedEpoch → id ≠ regionId :=
    ⟨hget, fun regionId newPeerId expectedEpoch h =>
      absurd h (hop regionId newPeerId expectedEpoch)⟩
  cases h with
  | @prepareMovePeer regionId fromStoreId toStoreId _ expectedEpoch region source _ hop _ hfound _
      hhosts _ hallocated =>
    dsimp only [stampRegions] at hget
    rcases insert_cases hget with ⟨rfl, rfl⟩ | hget
    · exact .inr ⟨fromStoreId, toStoreId, expectedEpoch, region, hop,
        mem_of_find?_eq_some hfound, find?_some hfound,
        ⟨source, mem_of_find?_eq_some hhosts, rfl⟩, lt_of_safeAdd hallocated⟩
    · exact .inl (hsame (by simp [hop]) hget)
  | @commitMovePeer regionId _ _ _ _ hop =>
    dsimp only [stampRegions] at hget
    obtain ⟨hne, hget⟩ := of_getElem?_erase hget
    refine .inl ⟨hget, ?_⟩
    intro other newPeerId expectedEpoch hother heq
    rw [hop] at hother
    cases hother
    exact hne heq.symm
  | @cancelMovePeer regionId _ _ hop =>
    dsimp only [stampRegions] at hget
    exact .inl (hsame (by simp [hop]) (of_getElem?_erase hget).2)
  | bootstrap hop | replaceRegions hop | prepareSplit hop | commitSplit hop | putStore hop
  | reportStoreHeartbeat hop | updateAutoBalancerConfig hop | createSchedulingOperator hop
  | updateSchedulingOperator hop | cancelSchedulingOperator hop =>
    exact .inl (hsame (by simp [hop]) hget)
  | @allocateIds kind _ _ hop => cases kind <;> exact .inl (hsame (by simp [hop]) hget)

variable {old : RegionMetadata}

lemma Migrating.congr (h : Migrating migration old) (halike : region.Alike old) :
    Migrating migration region := by
  refine ⟨?_, ?_, halike.splitPending.trans h.unsplit⟩
  · rw [halike.peers]
    exact h.source
  · rw [halike.peers]
    exact h.target

/-- A Region that is migrating is not touched by a command that keeps the discipline. -/
lemma LifeInv.untouched (h : LifeInv σ) (hexclusive : Exclusive σ command) {id : UInt64}
    (hget : σ.migrations[id]? = some migration) (hid : region.hasId id = true)
    (hregion : region ∈ σ.regions) (hmigrating : Migrating migration region)
    (hcommit : ∀ regionId newPeerId expectedEpoch,
      command.operation = .commitMovePeer regionId newPeerId expectedEpoch → id ≠ regionId) :
    Untouched σ command region := by
  have hid : ofInt region.regionId = id := of_decide_eq_true hid
  have hmigrates (hnone : σ.migrations.contains (ofInt region.regionId) = false) : False := by
    rw [contains_eq_false_iff, hid, hget] at hnone
    cases hnone
  rw [Exclusive] at hexclusive
  rw [Untouched]
  split
  · rename_i removeRegionIds _ hop
    rw [hop] at hexclusive
    exact fun hmem => hmigrates (hexclusive _ hmem)
  · rename_i regionId _ _ hop
    rw [hop] at hexclusive
    intro parent hparent heq
    rw [heq] at hmigrates
    exact hmigrates (hexclusive parent hparent)
  · intro parent hparent hpending heq
    have hcatalog := h.ids.topology.catalog (by
      intro hzero
      rw [h.ids.topology.unbootstrapped hzero] at hregion
      cases hregion)
    have hsame := hcatalog.eq_of_regionId hregion (mem_of_findParent hparent) heq
    exact hpending (hsame ▸ hmigrating.unsplit)
  · rename_i regionId newPeerId expectedEpoch hop
    rw [RegionMetadata.hasId, hid]
    exact decide_eq_false (hcommit regionId newPeerId expectedEpoch hop)
  · trivial

lemma LifeInv.installs (h : LifeInv σ) (hinstalls : Installs σ command τ answer)
    (hstep : LifeStep σ command) :
    PendingApart τ ∧ ∀ (regionId : UInt64) (migration : ReplicaMigrationStatus),
      τ.migrations[regionId]? = some migration →
        ∃ region ∈ τ.regions, region.hasId regionId = true ∧ Migrating migration region := by
  obtain ⟨hfits, hfresh, hexclusive⟩ := hstep
  have hcore := h.ids.topology.toCore
  refine ⟨h.apart.installs h.ids hinstalls hfresh, ?_⟩
  intro id migration hget
  -- the Region before the command
  obtain ⟨old, hold, hid, hmigrating, huntouched⟩ : ∃ old ∈ σ.regions, old.hasId id = true ∧
      Migrating migration old ∧ Untouched σ command old := by
    rcases hinstalls.migration_cases hget with
      ⟨hget, hcommit⟩ | ⟨_, _, _, region, hop, hregion, hid, hsource, habove⟩
    · obtain ⟨old, hold, hid, hmigrating⟩ := h.migrating id migration hget
      exact ⟨old, hold, hid, hmigrating, h.untouched hexclusive hget hid hold hmigrating hcommit⟩
    · rw [Exclusive, hop] at hexclusive
      have hunsplit := Option.isNone_iff_eq_none.1 (hexclusive region hregion hid)
      refine ⟨region, hregion, hid, ⟨hsource, ?_, hunsplit⟩, by simp [Untouched, hop]⟩
      intro peer hpeer heq
      have hle := (h.ids.covered.peers region hregion peer hpeer).1
      rw [heq] at hle
      exact absurd hle (Std.not_le.2 habove)
  obtain ⟨region, hregion, halike⟩ := hinstalls.exists_alike hcore hold huntouched
  refine ⟨region, hregion, ?_, hmigrating.congr halike⟩
  rw [RegionMetadata.hasId, halike.regionId]
  exact hid

namespace LifeInv

lemma of_empty : LifeInv {} where
  ids := IdsInv.of_empty
  apart := by simp [PendingApart]
  migrating := by simp

lemma outcome (h : LifeInv σ) (hstep : LifeStep σ command)
    {answer : MetadataCommandResult × MetadataState} (houtcome : Outcome σ command answer) :
    LifeInv answer.2 := by
  have hids := h.ids.outcome hstep.1 hstep.2.1 houtcome
  cases houtcome with
  | refused | kept => exact h
  | exhausted => exact ⟨hids, h.apart, h.migrating⟩
  | @installed τ answer hinstalls =>
    obtain ⟨hapart, hmigrating⟩ := h.installs hinstalls hstep
    obtain ⟨view, heq⟩ := τ.publish_snd answer
    rw [heq] at hids ⊢
    exact ⟨hids, hapart, hmigrating⟩

lemma applied (h : LifeInv σ) (hstep : LifeStep σ command)
    {answer : MetadataCommandResult × MetadataState} (happlied : Applied σ command answer) :
    LifeInv answer.2 := by
  have hids := h.ids.applied hstep.1 hstep.2.1 happlied
  cases happlied with
  | unnamed | repeated => exact h
  | @recorded answer _ _ houtcome =>
    have hnext := h.outcome hstep houtcome
    obtain ⟨dedup, dedupOrder, heq⟩ := answer.2.recordResultLocked_eq command.mutationId answer.1
    rw [heq] at hids ⊢
    exact ⟨hids, hnext.apart, hnext.migrating⟩

end LifeInv

lemma lifeInv_of_reachable (h : metadataSystem.Reachable LifeStep σ) : LifeInv σ := by
  refine h.invariant ?_ ?_
  · rintro _ rfl
    exact LifeInv.of_empty
  · rintro σ command _ hσ hstep rfl
    exact hσ.applied hstep (apply_applied σ command)

/-! ## Epochs -/

/-- The id of the Region is not given to a child, and whoever has it has no smaller epoch. -/
structure EpochKept (old : RegionMetadata) (σ : MetadataState) : Prop where
  marked : ofInt old.regionId ≤ σ.regionIdHighWater
  children : ∀ parent ∈ σ.regions, ∀ pending ∈ parent.splitPending,
    pending.2.regionId ≠ old.regionId
  epochs : ∀ region ∈ σ.regions, region.regionId = old.regionId →
    old.epoch.version ≤ region.epoch.version ∧ old.epoch.confVersion ≤ region.epoch.confVersion

/-- The epoch check of a replacement: no part of the epoch goes back. -/
lemma checkReplacement_epoch {removed : List RegionMetadata}
    (h : checkReplacement removed region = .ok ())
    (hfound : removed.find? (fun old => old.regionId = region.regionId) = some old) :
    old.epoch.version ≤ region.epoch.version ∧
      old.epoch.confVersion ≤ region.epoch.confVersion := by
  unfold checkReplacement at h
  rw [hfound] at h
  dsimp only at h
  split_ifs at h with hepoch
  simp only [Bool.or_eq_true, Bool.and_eq_true, decide_eq_true_eq, Bool.not_eq_true', not_or,
    not_and] at hepoch
  obtain ⟨⟨⟨hrange, hsameRange⟩, hpeers⟩, hsamePeers⟩ := hepoch
  refine ⟨?_, ?_⟩
  · by_cases hchanged : old.startKey ≠ region.startKey ∨ old.endKey ≠ region.endKey
    · exact UInt64.le_of_lt (Std.not_le.1 (hrange hchanged))
    · exact Std.not_lt.1 (hsameRange (by simpa using hchanged))
  · by_cases hchanged : old.samePeers region = false
    · exact UInt64.le_of_lt (Std.not_le.1 (hpeers hchanged))
    · exact Std.not_lt.1 (hsamePeers (by simpa using hchanged))

lemma EpochKept.of_mem (h : LifeInv σ) (hold : old ∈ σ.regions) : EpochKept old σ := by
  refine ⟨h.ids.covered.regions old hold, ?_, ?_⟩
  · intro parent hparent pending hpending
    exact (h.apart parent hparent pending hpending old hold).1.symm
  · intro region hregion hid
    have hcatalog := h.ids.topology.catalog (by
      intro hzero
      rw [h.ids.topology.unbootstrapped hzero] at hold
      cases hold)
    rw [hcatalog.eq_of_regionId hregion hold hid]
    exact ⟨UInt64.le_refl _, UInt64.le_refl _⟩

lemma EpochKept.installs (h : EpochKept old σ) (hσ : LifeInv σ)
    (hinstalls : Installs σ command τ answer) (hstep : LifeStep σ command) : EpochKept old τ := by
  obtain ⟨-, hfresh, hexclusive⟩ := hstep
  have hregionStep := hinstalls.regionStep hσ.ids.topology.toCore
  refine ⟨UInt64.le_trans h.marked hinstalls.marks.region, ?_, ?_⟩
  · intro parent hparent pending hpending
    rcases (hregionStep parent hparent).pending_cases hfresh hσ.ids.pending hpending with
      ⟨before, hbefore, -, hpending, -⟩ | ⟨-, -, -, -, -, -, -, habove⟩
    · exact h.children before hbefore pending hpending
    · intro heq
      rw [heq] at habove
      exact absurd h.marked (Std.not_le.2 habove)
  · intro region hregion hid
    rw [Exclusive] at hexclusive
    rw [FreshRegions] at hfresh
    cases hregionStep region hregion with
    | kept mem _ alike =>
      rw [alike.epoch]
      exact h.epochs _ mem (alike.regionId.symm.trans hid)
    | booted _ fresh _ named read alike =>
      -- before the bootstrap all ids are zero
      have hle := h.marked
      have hzero : σ.regionIdHighWater = 0 := hσ.ids.unused fresh .region
      rw [← (fromProtoRegion_spec read).1, ← alike.regionId, hid] at named
      rw [hzero] at hle
      grind
    | @added _ _ removed _ descriptor decoded operation taken mem read checked alike =>
      rw [operation] at hfresh
      have hdescriptor : ofInt old.regionId = descriptor.regionId := by
        rw [← hid, alike.regionId, (fromProtoRegion_spec read).1]
      have habsent : ¬σ.regionIdHighWater < descriptor.regionId := by
        rw [← hdescriptor]
        exact Std.not_lt.2 h.marked
      obtain ⟨before, hbefore, hsame⟩ : ∃ before ∈ removed, before.regionId = decoded.regionId := by
        rcases (takeRemoved_spec taken).2 _ ((hfresh descriptor mem).2.resolve_right habsent) with
          hleft | ⟨before, hbefore, heq⟩
        · cases hleft
        · exact ⟨before, hbefore, ofInt_injective (heq.trans (fromProtoRegion_spec read).1.symm)⟩
      obtain ⟨found, hfound⟩ : ∃ found, removed.find? (fun other =>
          other.regionId = (decoded.stamped (σ.revision + 1)).regionId) = some found :=
        Option.isSome_iff_exists.1 (find?_isSome.2 ⟨before, hbefore, decide_eq_true hsame⟩)
      have hmem : found ∈ σ.regions := (takeRemoved_perm taken).mem_iff.1
        (mem_append_left _ (mem_of_find?_eq_some hfound))
      have hfoundId : found.regionId = decoded.regionId := by
        have hdecided := find?_some hfound
        exact of_decide_eq_true hdecided
      obtain ⟨hversion, hconf⟩ := checkReplacement_epoch checked hfound
      obtain ⟨hversion', hconf'⟩ :=
        h.epochs found hmem (hfoundId.trans (alike.regionId.symm.trans hid))
      rw [alike.epoch]
      exact ⟨UInt64.le_trans hversion' hversion, UInt64.le_trans hconf' hconf⟩
    | @marked _ _ _ parent _ _ _ _ found _ _ _ alike =>
      rw [alike.epoch]
      exact h.epochs parent (mem_of_findParent found) (alike.regionId.symm.trans hid)
    | shrunken operation found _ alike =>
      rw [operation] at hexclusive
      rw [alike.epoch]
      obtain ⟨hversion, hconf⟩ :=
        h.epochs _ (mem_of_findParent found) (alike.regionId.symm.trans hid)
      exact ⟨UInt64.le_trans hversion (hexclusive _ found), hconf⟩
    | child _ found pending alike =>
      exact absurd (alike.regionId.symm.trans hid) (h.children _ (mem_of_findParent found) _ pending)
    | moved operation _ mem target alike =>
      rw [operation] at hexclusive
      rw [alike.epoch]
      obtain ⟨hversion, hconf⟩ := h.epochs _ mem (alike.regionId.symm.trans hid)
      exact ⟨hversion, UInt64.le_trans hconf (hexclusive _ mem target)⟩

lemma EpochKept.congr (h : EpochKept old σ) (hregions : τ.regions = σ.regions)
    (hmarks : MarksLE σ τ) : EpochKept old τ := by
  refine ⟨UInt64.le_trans h.marked hmarks.region, ?_, ?_⟩
  · rw [hregions]
    exact h.children
  · rw [hregions]
    exact h.epochs

lemma EpochKept.applied (h : EpochKept old σ) (hσ : LifeInv σ) (hstep : LifeStep σ command)
    {answer : MetadataCommandResult × MetadataState} (happlied : Applied σ command answer) :
    EpochKept old answer.2 := by
  refine happlied.lift h (fun houtcome => ?_) fun _ _ hkept => hkept.congr rfl (.of_eq rfl rfl rfl)
  cases houtcome with
  | refused | kept => exact h
  | exhausted _ _ hallocated hplaced =>
    exact h.congr rfl ⟨le_of_safeAdd hallocated, childPeers_mark hplaced, UInt64.le_refl _⟩
  | @installed τ answer hinstalls =>
    obtain ⟨view, heq⟩ := τ.publish_snd answer
    rw [heq]
    exact (h.installs hσ hinstalls hstep).congr rfl (.of_eq rfl rfl rfl)

lemma epochKept_of_reaches (h : metadataSystem.Reachable LifeStep ρ)
    (hlater : metadataSystem.Reaches LifeStep ρ σ) (hold : old ∈ ρ.regions) : EpochKept old σ := by
  have hboth : metadataSystem.Reachable LifeStep σ ∧ EpochKept old σ := by
    refine hlater.stable (I := fun σ => metadataSystem.Reachable LifeStep σ ∧ EpochKept old σ) ?_
      ⟨h, EpochKept.of_mem (lifeInv_of_reachable h) hold⟩
    rintro σ command _ ⟨hreach, hkept⟩ hstep rfl
    exact ⟨hreach.tail hstep rfl,
      hkept.applied (lifeInv_of_reachable hreach) hstep (apply_applied σ command)⟩
  exact hboth.2

/-- In every run of commands that do not interfere with an operation on the same Region, each
migration finds its Region with the source and without the target, no Region has a pending split and
a migration, and a Region has no smaller epoch than any Region that had its id before. -/
theorem lifecycles_consistent (h : metadataSystem.Reachable LifeStep ρ)
    (hlater : metadataSystem.Reaches LifeStep ρ σ) :
    (∀ (regionId : UInt64) (migration : ReplicaMigrationStatus),
      σ.migrations[regionId]? = some migration →
        ∃ region ∈ σ.regions, region.hasId regionId = true ∧
          (∃ peer ∈ region.peers, peer.peerId = migration.sourcePeerId) ∧
          ∀ peer ∈ region.peers, peer.peerId ≠ migration.targetPeer.peerId) ∧
    (∀ region ∈ σ.regions, region.splitPending.isSome = true →
      σ.migrations.contains (ofInt region.regionId) = false) ∧
    ∀ old ∈ ρ.regions, ∀ region ∈ σ.regions, region.regionId = old.regionId →
      old.epoch.version ≤ region.epoch.version ∧
        old.epoch.confVersion ≤ region.epoch.confVersion := by
  have hσ := lifeInv_of_reachable (h.reaches hlater)
  refine ⟨?_, ?_, ?_⟩
  · intro regionId migration hget
    obtain ⟨region, hregion, hid, hmigrating⟩ := hσ.migrating regionId migration hget
    exact ⟨region, hregion, hid, hmigrating.source, hmigrating.target⟩
  · intro region hregion hpending
    rw [contains_eq_false_iff]
    cases hget : σ.migrations[ofInt region.regionId]? with
    | none => rfl
    | some migration =>
      -- the Region of the migration is this one, and it is not being split
      obtain ⟨other, hother, hid, hmigrating⟩ := hσ.migrating _ migration hget
      have hcatalog := hσ.ids.topology.catalog (by
        intro hzero
        rw [hσ.ids.topology.unbootstrapped hzero] at hregion
        cases hregion)
      have hsame := hcatalog.eq_of_regionId hother hregion (ofInt_injective (of_decide_eq_true hid))
      rw [← hsame, hmigrating.unsplit] at hpending
      cases hpending
  · intro old hold region hregion hid
    exact (epochKept_of_reaches h hlater hold).epochs region hregion hid

/-! ## One operation after the other, and two at once -/

instance (σ : MetadataState) (command : MetadataCommand) : Decidable (Exclusive σ command) := by
  obtain ⟨_, _, operation⟩ := command
  induction operation using Operation.casesOn with
  | replaceRegions => exact List.decidableBAll _ _
  | _ =>
    dsimp only [Exclusive]
    infer_instance

instance (σ : MetadataState) (command : MetadataCommand) : Decidable (LifeStep σ command) :=
  inferInstanceAs (Decidable (_ ∧ _))

/-- The move of the Region to a second Store is prepared. -/
def movingCommands : List MetadataCommand :=
  [bootstrapCommand, ⟨[2], 1, .putStore ⟨2, [2], 26002⟩⟩,
    ⟨[3], 2, .prepareMovePeer 10 1 2 (some ⟨1, 1⟩)⟩]

/-- The move is committed, and the Region is split. -/
def splittingCommands : List MetadataCommand :=
  [⟨[4], 3, .commitMovePeer 10 102 (some ⟨1, 1⟩)⟩, ⟨[5], 4, .prepareSplit 10 [7] (some ⟨1, 4⟩)⟩,
    ⟨[6], 5, .commitSplit 10⟩]

theorem lifecycles_splittingCommands : (run {} movingCommands).migrations.contains 10 = true ∧
    ((run {} movingCommands).regions.map RegionMetadata.epoch = [⟨1, 1⟩]) ∧
    ((run (run {} movingCommands) splittingCommands).regions.map RegionMetadata.epoch =
      [⟨2, 4⟩, ⟨1, 1⟩]) ∧ ∀ old ∈ (run {} movingCommands).regions,
      ∀ region ∈ (run (run {} movingCommands) splittingCommands).regions,
        region.regionId = old.regionId → old.epoch.version ≤ region.epoch.version ∧
            old.epoch.confVersion ≤ region.epoch.confVersion := by
  have hreach : metadataSystem.Reachable LifeStep (run {} movingCommands) :=
    Guarded.reachable (by decide)
  have hlater : metadataSystem.Reaches LifeStep (run {} movingCommands)
      (run (run {} movingCommands) splittingCommands) :=
    Guarded.reaches (by decide)
  exact ⟨by decide, by decide, by decide, (lifecycles_consistent hreach hlater).2.2⟩

/-- The Region that is about to move is accepted for a split. -/
theorem split_of_moving_region : ¬∀ σ : MetadataState, metadataSystem.Reachable Accepted σ →
      ∀ region ∈ σ.regions, region.splitPending.isSome = true →
        σ.migrations.contains (ofInt region.regionId) = false := by
  intro h
  have hreach : metadataSystem.Reachable Accepted
      (run {} (movingCommands ++ [⟨[4], 3, .prepareSplit 10 [7] (some ⟨1, 1⟩)⟩])) :=
    Guarded.reachable (by decide)
  exact absurd (h _ hreach) (by decide)

end StrataKV.Metadata
