import StrataKV.Metadata.Catalog
import StrataKV.Metadata.StateMachine

/-!
# Changes of a catalog

What the handlers of the state machine do to a catalog: they install decoded Regions, whose peers
have their ids (`Identified`); they stamp Regions with a revision, which keeps a catalog one; and they
replace the source of a migration by its target, which keeps it one if the target fits
(`TargetFits`).
-/

namespace StrataKV.Metadata

open RegionMetadata MetadataState List

/-! ## Regions with their ids -/

/-- The peers have their ids, also those of the children of pending splits. -/
def RegionMetadata.Identified : RegionMetadata → Prop
  | ⟨_, _, _, peers, _, _, _, pending⟩ =>
    (∀ peer ∈ peers, peer.HasIds) ∧
      match pending with
      | none => True
      | some (_, child) => child.Identified

variable {region : RegionMetadata}

namespace RegionMetadata

lemma identified_iff : region.Identified ↔ region.HasIds ∧
      ∀ splitKey child, region.splitPending = some (splitKey, child) → child.Identified := by
  obtain ⟨_, _, _, peers, _, _, _, pending⟩ := region
  cases pending with
  | none => simp [Identified, HasIds]
  | some pending =>
    obtain ⟨splitKey, child⟩ := pending
    simp [Identified, HasIds]

lemma Identified.hasIds (h : region.Identified) : region.HasIds := (identified_iff.1 h).1

lemma Identified.congr {region other : RegionMetadata} (h : region.Identified)
    (hpeers : other.peers = region.peers)
    (hpending : other.splitPending = region.splitPending ∨ other.splitPending = none) :
    other.Identified := by
  obtain ⟨hids, hchild⟩ := identified_iff.1 h
  refine identified_iff.2 ⟨?_, ?_⟩
  · intro peer hpeer
    exact hids peer (hpeers ▸ hpeer)
  · intro splitKey child heq
    rcases hpending with hsame | hnone
    · exact hchild splitKey child (hsame ▸ heq)
    · rw [hnone] at heq
      cases heq

end RegionMetadata

lemma fromProtoPeer_hasIds {encoded : PeerDescriptor} {peer : RegionPeerLocation}
    (h : fromProtoPeer encoded = some peer) : peer.HasIds := by
  unfold fromProtoPeer at h
  split at h
  · cases h
  · rename_i hbad
    cases h
    exact ⟨fun hzero => hbad (.inl hzero), fun hzero => hbad (.inr (.inl hzero))⟩

/-- The Region is what the fields of the descriptor are read as. -/
structure Reads (descriptor : RegionDescriptor) (region : RegionMetadata) : Prop where
  id_le : descriptor.regionId ≤ intMax
  regionId : region.regionId = toInt descriptor.regionId
  peers : List.Forall₂ (fun encoded peer => fromProtoPeer encoded = some peer)
    descriptor.peers region.peers
  plain : descriptor.splitPending.isNone = true → region.splitPending = none

/-- What follows from the fields of a Region and the child of its pending split holds of every Region
that was read. -/
lemma fromProtoRegion_induction {P : RegionMetadata → Prop}
    (hP : ∀ {descriptor : RegionDescriptor} {region : RegionMetadata}, Reads descriptor region →
      (∀ splitKey child, region.splitPending = some (splitKey, child) → P child) → P region)
    {descriptor : RegionDescriptor} {region : RegionMetadata}
    (h : fromProtoRegion descriptor = .ok region) : Reads descriptor region ∧ P region := by
  have hfields {descriptor : RegionDescriptor} {pending : Option (Bytes × RegionMetadata)}
      (hid : ¬intMax < descriptor.regionId)
      (hplain : descriptor.splitPending.isNone = true → pending = none)
      (hchild : ∀ splitKey child, pending = some (splitKey, child) → P child)
      (h : fromProtoFields descriptor pending = .ok region) : Reads descriptor region ∧ P region := by
    unfold fromProtoFields at h
    split at h
    · cases h
    · rename_i peers hpeers
      cases h
      refine ⟨?reads, hP ?reads hchild⟩
      exact ⟨Std.not_lt.1 hid, rfl, forall₂_of_mapM hpeers, hplain⟩
  match descriptor with
  | ⟨_, _, _, _, _, _, _, none⟩ =>
    rw [fromProtoRegion] at h
    split_ifs at h with hid
    exact hfields hid (by simp) (by simp) h
  | ⟨_, _, _, _, _, _, _, some (splitKey, child)⟩ =>
    rw [fromProtoRegion] at h
    split_ifs at h with hid
    cases hchild : fromProtoRegion child with
    | error message => simp [hchild] at h
    | ok decoded =>
      simp only [hchild] at h
      refine hfields hid (by simp) ?_ h
      rintro _ _ ⟨⟩
      exact (fromProtoRegion_induction hP hchild).2

variable {descriptor : RegionDescriptor}

lemma reads_of_fromProtoRegion
    (h : fromProtoRegion descriptor = .ok region) : Reads descriptor region :=
  (fromProtoRegion_induction (P := fun _ => True) (fun _ _ => trivial) h).1

lemma fromProtoRegion_identified
    (h : fromProtoRegion descriptor = .ok region) : region.Identified := by
  refine (fromProtoRegion_induction (fun hreads hchild => identified_iff.2 ⟨?_, hchild⟩) h).2
  intro peer hpeer
  obtain ⟨encoded, -, hread⟩ := exists_of_forall₂ hreads.peers hpeer
  exact fromProtoPeer_hasIds hread

variable {descriptors : List RegionDescriptor} {regions : List RegionMetadata}

section

variable (h : decodeRegions descriptors = .ok regions)

include h

/-- Each descriptor is read, one by one. -/
lemma forall₂_of_decodeRegions : List.Forall₂ (fun descriptor region => descriptor.regionId ≠ 0 ∧
      fromProtoRegion descriptor = .ok region) descriptors regions := by
  induction descriptors generalizing regions with
  | nil =>
    cases h
    exact .nil
  | cons descriptor rest ih =>
    rw [decodeRegions] at h
    split_ifs at h with hid
    cases hfirst : fromProtoRegion descriptor with
    | error message => simp [hfirst] at h
    | ok first =>
      cases hrest : decodeRegions rest with
      | error message => simp [hfirst, hrest] at h
      | ok others =>
        simp only [hfirst, hrest, Except.ok.injEq] at h
        subst h
        exact .cons ⟨fun hzero => hid (.inl hzero), hfirst⟩ (ih hrest)

/-- Every Region that was read comes from a descriptor with an id. -/
lemma exists_of_mem_decodeRegions (hregion : region ∈ regions) :
    ∃ descriptor ∈ descriptors, descriptor.regionId ≠ 0 ∧ fromProtoRegion descriptor = .ok region :=
  exists_of_forall₂ (forall₂_of_decodeRegions h) hregion

lemma decodeRegions_identified : ∀ region ∈ regions, region.Identified := by
  intro region hregion
  obtain ⟨_, -, -, hread⟩ := exists_of_mem_decodeRegions h hregion
  exact fromProtoRegion_identified hread

end

/-! ## Changes that keep a catalog -/

namespace IsCatalog

variable {regions : List RegionMetadata}

/-- A change of the single Regions that keeps their ranges, ids and peers. -/
lemma map (h : IsCatalog regions) {f : RegionMetadata → RegionMetadata}
    (hrange : ∀ r ∈ regions, (f r).range = r.range) (hid : ∀ r ∈ regions, (f r).regionId = r.regionId)
    (hpeers : ∀ r ∈ regions, (f r).peers = r.peers)
    (hwf : ∀ r ∈ regions, r.WellFormed → (f r).WellFormed) : IsCatalog (regions.map f) := by
  refine ⟨h.tiles.map hrange, ?_, ?_, ?_⟩
  · intro r hr
    obtain ⟨old, hold, rfl⟩ := mem_map.1 hr
    exact hwf old hold (h.wellFormed old hold)
  · rw [pairwise_map]
    refine h.ids.imp_of_mem ?_
    intro a b ha hb hne
    rw [hid a ha, hid b hb]
    exact hne
  · rw [flatMap_map, flatMap_congr hpeers]
    exact h.peers

/-- The id determines a Region of a catalog. -/
lemma eq_of_regionId (h : IsCatalog regions) {a b : RegionMetadata} (ha : a ∈ regions)
    (hb : b ∈ regions) (heq : a.regionId = b.regionId) : a = b := by
  by_contra hne
  have hsymm : Std.Symm fun a b : RegionMetadata => a.regionId ≠ b.regionId := ⟨fun _ _ h => h.symm⟩
  exact h.ids.forall ha hb hne heq

end IsCatalog

variable {revision : UInt64}

lemma RegionMetadata.WellFormed.stamped (h : region.WellFormed)
    (hrevision : revision ≠ 0) : (region.stamped revision).WellFormed := by
  refine ⟨?_, h.peers, h.leader, h.findPeer⟩
  have hvalid := h.valid
  simp only [invalid, Bool.or_eq_false_iff] at hvalid ⊢
  exact ⟨hvalid.1, decide_eq_false hrevision⟩

/-- Stamping keeps a catalog one. -/
lemma IsCatalog.stamp (h : IsCatalog regions)
    (hrevision : revision ≠ 0) : IsCatalog (regions.map fun region => region.stamped revision) :=
  h.map (fun _ _ => rfl) (fun _ _ => rfl) (fun _ _ => rfl) fun _ _ hwf => hwf.stamped hrevision

/-! ## Replacing a peer -/

/-- What `CommitMovePeer` needs of the target of a migration: it survives the narrowing of its node
and port, no Region has a peer with its id, and its store is not known under another endpoint. -/
@[mk_iff]
structure TargetFits (regions : List RegionMetadata) (migration : ReplicaMigrationStatus) :
    Prop where
  nodeId : ¬toInt (migration.targetPeer.storeId - 1) < 0
  port : ¬toShort migration.targetPeer.port ≤ 0
  peerId : ∀ region ∈ regions, ∀ peer ∈ region.peers, peer.peerId ≠ migration.targetPeer.peerId
  endpoint : ∀ region ∈ regions, ∀ peer ∈ region.peers, peer.peerId ≠ migration.sourcePeerId →
    peer.storeId = migration.targetPeer.storeId →
    peer.host = migration.targetPeer.host ∧ peer.port = toShort migration.targetPeer.port

/-- The target of a migration names a store with an endpoint. -/
def TargetNamed (migration : ReplicaMigrationStatus) : Prop :=
  migration.targetPeer.storeId ≠ 0 ∧ migration.targetPeer.host ≠ [] ∧
    migration.targetPeer.peerId ≠ 0

/-- If the property holds at most once, updating the first is updating all. -/
lemma updateFirst_eq_map {α : Type} {p : α → Bool} {f : α → α} {l : List α}
    (h : l.Pairwise fun a b => ¬(p a = true ∧ p b = true)) :
    updateFirst p f l = l.map fun a => if p a then f a else a := by
  induction l with
  | nil => rfl
  | cons a l ih =>
    obtain ⟨ha, hl⟩ := pairwise_cons.1 h
    rw [updateFirst, map_cons]
    by_cases hp : p a = true
    · have hrest : l.map (fun b => if p b then f b else b) = l := by
        conv_rhs => rw [← map_id l]
        refine map_congr_left ?_
        intro b hb
        exact if_neg fun hpb => ha b hb ⟨hp, hpb⟩
      rw [if_pos hp, if_pos hp, hrest]
    · rw [if_neg hp, if_neg hp, ih hl]

/-- An item of the updated list was there, or is the updated one. -/
lemma mem_updateFirst {α : Type} {p : α → Bool} {f : α → α} {l : List α} {b : α}
    (h : b ∈ updateFirst p f l) : b ∈ l ∨ ∃ a ∈ l, p a = true ∧ f a = b := by
  induction l with
  | nil => exact .inl h
  | cons a l ih =>
    rw [updateFirst] at h
    split_ifs at h with hp
    · rcases mem_cons.1 h with heq | h
      · exact .inr ⟨a, mem_cons_self, hp, heq.symm⟩
      · exact .inl (mem_cons_of_mem a h)
    · rcases mem_cons.1 h with heq | h
      · exact .inl (heq ▸ mem_cons_self)
      · rcases ih h with h | ⟨c, hc, hb⟩
        · exact .inl (mem_cons_of_mem a h)
        · exact .inr ⟨c, mem_cons_of_mem a hc, hb⟩

lemma ofInt_injective {a b : Int32} (h : ofInt a = ofInt b) : a = b := by
  unfold ofInt at h
  have hwide : a.toInt64 = b.toInt64 := by
    cases ha : a.toInt64
    cases hb : b.toInt64
    rw [ha, hb] at h
    exact congrArg _ h
  have hnarrow := congrArg Int64.toInt32 hwide
  simpa using hnarrow

/-- The peer after the move. -/
def movedPeer (migration : ReplicaMigrationStatus) (peer : RegionPeerLocation) :
    RegionPeerLocation :=
  if peer.peerId = migration.sourcePeerId then
    MetadataState.targetLocation migration.targetPeer false
  else peer

section

variable {regions : List RegionMetadata} {migration : ReplicaMigrationStatus} {regionId : UInt64}
  {region : RegionMetadata}

/-- The target keeps the distance to the other peers that the source had. -/
lemma TargetFits.apart (h : TargetFits regions migration) {p q : RegionPeerLocation}
    (hp : p ∈ regions.flatMap peers) (hq : q ∈ regions.flatMap peers)
    (hpq : p.Apart q) : (movedPeer migration p).Apart (movedPeer migration q) := by
  have htarget {q : RegionPeerLocation} (hq : q ∈ regions.flatMap peers)
      (hne : q.peerId ≠ migration.sourcePeerId) :
      q.Apart (targetLocation migration.targetPeer false) := by
    obtain ⟨r, hr, hq⟩ := mem_flatMap.1 hq
    exact ⟨h.peerId r hr q hq, h.endpoint r hr q hq hne⟩
  unfold movedPeer
  by_cases hps : p.peerId = migration.sourcePeerId
  · have hqs : q.peerId ≠ migration.sourcePeerId := fun hqs => hpq.1 (hps.trans hqs.symm)
    rw [if_pos hps, if_neg hqs]
    exact (htarget hq hqs).symm
  · rw [if_neg hps]
    by_cases hqs : q.peerId = migration.sourcePeerId
    · rw [if_pos hqs]
      exact htarget hp hps
    · rw [if_neg hqs]
      exact hpq

/-- Peers with different ids: the source is replaced wherever it is. -/
lemma moved_peers (hpeers : region.peers.Pairwise RegionPeerLocation.Apart) :
    (moved region migration).peers = region.peers.map (movedPeer migration) := by
  have honce : region.peers.Pairwise fun a b =>
      ¬(decide (a.peerId = migration.sourcePeerId) = true ∧
        decide (b.peerId = migration.sourcePeerId) = true) := by
    refine hpeers.imp ?_
    rintro a b hab ⟨ha, hb⟩
    exact hab.1 ((of_decide_eq_true ha).trans (of_decide_eq_true hb).symm)
  refine (updateFirst_eq_map honce).trans (map_congr_left ?_)
  intro peer _
  by_cases hsource : peer.peerId = migration.sourcePeerId
  · simp [movedPeer, hsource]
  · simp [movedPeer, hsource]

/-- A move leaves the Region well-formed. -/
lemma moved_wellFormed (hwf : region.WellFormed)
    (hpeers : region.peers.Pairwise RegionPeerLocation.Apart)
    (hsource : ∃ peer ∈ region.peers, peer.peerId = migration.sourcePeerId)
    (htarget : (targetLocation migration.targetPeer false).WellFormed)
    (hconf : region.epoch.confVersion + 3 ≠ 0) : (moved region migration).WellFormed := by
  have hmoved : (moved region migration).peers =
      region.peers.map (movedPeer migration) := moved_peers hpeers
  refine ⟨?_, ?_, ?_, ?_⟩
  · have hvalid := hwf.valid
    simp only [invalid, Bool.or_eq_false_iff, isEmpty_eq_false_iff] at hvalid ⊢
    refine ⟨⟨⟨⟨⟨hvalid.1.1.1.1.1, ?_⟩, hvalid.1.1.1.2⟩, hvalid.1.1.2⟩, decide_eq_false hconf⟩,
      hvalid.2⟩
    rw [hmoved]
    simpa using hvalid.1.1.1.1.2
  · rw [hmoved]
    intro peer hpeer
    obtain ⟨old, hold, rfl⟩ := mem_map.1 hpeer
    unfold movedPeer
    split
    · exact htarget
    · exact hwf.peers old hold
  -- the target takes over the leadership of the source
  · show (if region.leaderPeerId = migration.sourcePeerId then migration.targetPeer.peerId
      else region.leaderPeerId) ≠ 0
    split
    · exact htarget.peerId
    · exact hwf.leader
  · -- the leader is the target, or a peer that stays
    have hfound (peerId : UInt64)
        (h : ∃ peer ∈ region.peers, (movedPeer migration peer).peerId = peerId) :
        (moved region migration).findPeer peerId ≠ none := by
      obtain ⟨peer, hpeer, hid⟩ := h
      rw [findPeer, hmoved, ne_eq, find?_eq_none]
      intro hnone
      exact hnone _ (mem_map_of_mem hpeer) (decide_eq_true hid)
    refine hfound _ ?_
    show ∃ peer ∈ region.peers, (movedPeer migration peer).peerId =
      if region.leaderPeerId = migration.sourcePeerId then migration.targetPeer.peerId
      else region.leaderPeerId
    split_ifs with hleader
    · obtain ⟨peer, hpeer, hid⟩ := hsource
      refine ⟨peer, hpeer, ?_⟩
      rw [movedPeer, if_pos hid]
      rfl
    · cases hfind : region.findPeer region.leaderPeerId with
      | none => exact absurd hfind hwf.findPeer
      | some peer =>
        have hid : peer.peerId = region.leaderPeerId := by simpa using find?_some hfind
        refine ⟨peer, mem_of_find?_eq_some hfind, ?_⟩
        rw [movedPeer, if_neg (by rw [hid]; exact hleader)]
        exact hid

/-- A move keeps a catalog one. -/
lemma IsCatalog.move (h : IsCatalog regions) (hfind : regions.find? (hasId regionId) = some region)
    (hsource : ∃ peer ∈ region.peers, peer.peerId = migration.sourcePeerId)
    (hfits : TargetFits regions migration) (hnamed : TargetNamed migration)
    (hconf : region.epoch.confVersion + 3 ≠ 0) :
    IsCatalog (updateFirst (hasId regionId) (moved · migration) regions) := by
  obtain ⟨hown, hcross⟩ := pairwise_flatMap.1 h.peers
  have hmem := mem_of_find?_eq_some hfind
  have hthis {r : RegionMetadata} (hr : r ∈ regions)
      (hid : hasId regionId r = true) : r = region := by
    have hregion := find?_some hfind
    simp only [hasId, decide_eq_true_eq] at hid hregion
    exact h.eq_of_regionId hr hmem (ofInt_injective (hid.trans hregion.symm))
  have honce : regions.Pairwise fun a b =>
      ¬(hasId regionId a = true ∧ hasId regionId b = true) := by
    refine h.ids.imp_of_mem ?_
    rintro a b ha hb hne ⟨hida, hidb⟩
    exact hne (by rw [hthis ha hida, hthis hb hidb])
  have hsymm : Std.Symm fun a b : RegionMetadata =>
      ∀ p ∈ a.peers, ∀ q ∈ b.peers, p.Apart q :=
    ⟨fun _ _ hab p hp q hq => (hab q hq p hp).symm⟩
  -- the source is a peer of this Region only, so that the move renames it everywhere
  have hpeers (r : RegionMetadata) (hr : r ∈ regions) :
      (if hasId regionId r then moved r migration else r).peers =
        r.peers.map (movedPeer migration) := by
    split_ifs with hid
    · exact moved_peers (hown r hr)
    · conv_lhs => rw [← map_id r.peers]
      refine map_congr_left ?_
      intro peer hpeer
      obtain ⟨source, hsourceMem, hsourceId⟩ := hsource
      have hne : r ≠ region := by
        rintro rfl
        exact hid (find?_some hfind)
      have hapart := hcross.forall hr hmem hne peer hpeer source hsourceMem
      rw [movedPeer, if_neg]
      · rfl
      · intro heq
        exact hapart.1 (heq.trans hsourceId.symm)
  rw [updateFirst_eq_map honce]
  refine ⟨h.tiles.map ?_, ?_, ?_, ?_⟩
  · intro r _
    split <;> rfl
  · intro r hr
    obtain ⟨old, hold, rfl⟩ := mem_map.1 hr
    split_ifs with hid
    · obtain rfl := hthis hold hid
      exact moved_wellFormed (h.wellFormed old hold) (hown old hold) hsource
        ⟨hfits.nodeId, hnamed.2.1, hfits.port, hnamed.1, hnamed.2.2⟩ hconf
    · exact h.wellFormed old hold
  · rw [pairwise_map]
    refine h.ids.imp ?_
    intro a b hne
    split <;> split <;> exact hne
  · rw [flatMap_map, flatMap_congr hpeers, ← map_flatMap, pairwise_map]
    exact h.peers.imp_of_mem fun ha hb hab => hfits.apart ha hb hab

end

end StrataKV.Metadata
