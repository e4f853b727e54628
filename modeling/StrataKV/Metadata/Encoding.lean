import StrataKV.Metadata.Changes

/-!
# Regions as descriptors

A Region is written into a descriptor and read back. Reading narrows the Region id to an `int` and
the port to a `short`, and computes the node of a peer from its Store, so that not every Region is
read back as it was: `Decodes` is the property of one that is. Whatever was read from a descriptor has
it.
-/

namespace StrataKV.Metadata

open List

/-! ## Machine integers -/

lemma toInt_ofInt (n : Int32) : toInt (ofInt n) = n := by
  obtain ⟨⟨b⟩⟩ := n
  show (⟨⟨(b.signExtend 64).setWidth 32⟩⟩ : Int32) = ⟨⟨b⟩⟩
  congr 2
  ext i hi
  rw [BitVec.getElem_setWidth, BitVec.getLsbD_signExtend, if_pos hi, BitVec.getLsbD_eq_getElem hi]
  simp
  omega

lemma ofInt_toInt {n : UInt64} (h : n ≤ intMax) : ofInt (toInt n) = n := by
  obtain ⟨b⟩ := n
  show (⟨(b.setWidth 32).signExtend 64⟩ : UInt64) = ⟨b⟩
  congr 1
  have hle : b.toNat ≤ 2147483647 := h
  have hmsb : (b.setWidth 32).msb = false := by
    rw [BitVec.msb_eq_decide]
    simp
    omega
  apply BitVec.eq_of_toNat_eq
  rw [BitVec.toNat_signExtend, hmsb]
  simp
  omega

lemma ofInt_le_intMax {n : Int32} : ofInt n ≤ intMax ↔ ¬n < 0 := by
  obtain ⟨⟨b⟩⟩ := n
  show (b.signExtend 64).toNat ≤ 2147483647 ↔ ¬b.slt 0#32 = true
  rw [BitVec.toNat_signExtend, BitVec.slt_zero_eq_msb]
  cases hmsb : b.msb with
  | true => simp
  | false =>
    rw [BitVec.msb_eq_decide] at hmsb
    simp at hmsb ⊢
    omega

lemma toShort_ofShort (n : Int16) : toShort (ofShort n) = n := by
  obtain ⟨⟨b⟩⟩ := n
  show (⟨⟨(b.signExtend 32).setWidth 16⟩⟩ : Int16) = ⟨⟨b⟩⟩
  congr 2
  ext i hi
  rw [BitVec.getElem_setWidth, BitVec.getLsbD_signExtend, if_pos hi, BitVec.getLsbD_eq_getElem hi]
  simp
  omega

lemma ofShort_toShort {n : UInt32} (h : n ≤ shortMax) : ofShort (toShort n) = n := by
  obtain ⟨b⟩ := n
  show (⟨(b.setWidth 16).signExtend 32⟩ : UInt32) = ⟨b⟩
  congr 1
  have hle : b.toNat ≤ 32767 := h
  have hmsb : (b.setWidth 16).msb = false := by
    rw [BitVec.msb_eq_decide]
    simp
    omega
  apply BitVec.eq_of_toNat_eq
  rw [BitVec.toNat_signExtend, hmsb]
  simp
  omega

/-- A usable port of a peer is one of a descriptor. -/
lemma ofShort_of_pos {n : Int16} (h : ¬n ≤ 0) : ofShort n ≠ 0 ∧ ofShort n ≤ shortMax := by
  obtain ⟨⟨b⟩⟩ := n
  have hpos : 0 < b.toInt := by
    have hsle : ¬b.sle 0#16 = true := h
    rw [BitVec.sle_iff_toInt_le] at hsle
    simpa using hsle
  have hnat : b.toInt = b.toNat ∧ b.toNat < 2 ^ 15 := by
    have hcases := BitVec.toInt_eq_toNat_cond b
    have hlt := b.isLt
    split at hcases
    · exact ⟨hcases, by omega⟩
    · omega
  have hmsb : b.msb = false := by
    rw [BitVec.msb_eq_decide]
    simp
    omega
  have hwide : (b.signExtend 32).toNat = b.toNat := by
    rw [BitVec.toNat_signExtend, hmsb]
    simp
    omega
  refine ⟨fun hzero => ?_, ?_⟩
  · have hzero : (b.signExtend 32).toNat = 0 := congrArg UInt32.toNat hzero
    omega
  · show (b.signExtend 32).toNat ≤ 32767
    omega

/-! ## Peers -/

/-- The peer is read back as it was written. -/
def RegionPeerLocation.Decodes (peer : RegionPeerLocation) : Prop :=
  fromProtoPeer (toProtoPeer peer) = some peer

namespace RegionPeerLocation

variable {peer : RegionPeerLocation}

/-- The node is the one of the Store, and the other fields are valid in a descriptor. -/
lemma decodes_iff : peer.Decodes ↔
    peer.HasIds ∧ ofShort peer.port ≠ 0 ∧ ofShort peer.port ≤ shortMax ∧
      peer.nodeId = if peer.storeId ≤ intMax then toInt (peer.storeId - 1) else -1 := by
  unfold Decodes fromProtoPeer toProtoPeer
  constructor
  · intro h
    split at h
    · cases h
    rename_i hvalid
    simp only [not_or] at hvalid
    obtain ⟨hstore, hpeer, hport, hmax⟩ := hvalid
    exact ⟨⟨hstore, hpeer⟩, hport, Std.not_lt.1 hmax,
      (congrArg RegionPeerLocation.nodeId (Option.some.inj h)).symm⟩
  · rintro ⟨hids, hport, hmax, hnode⟩
    rw [if_neg]
    · dsimp only
      rw [toShort_ofShort, ← hnode]
    · rintro (hstore | hpeer | hzero | hover)
      · exact hids.1 hstore
      · exact hids.2 hpeer
      · exact hport hzero
      · exact absurd hmax (Std.not_le.2 hover)

/-- Another id does not matter, as long as it is one. -/
lemma Decodes.withPeerId (h : peer.Decodes) {peerId : UInt64}
    (hpeer : peerId ≠ 0) : ({ peer with peerId := peerId } : RegionPeerLocation).Decodes := by
  obtain ⟨hids, hport⟩ := decodes_iff.1 h
  exact decodes_iff.2 ⟨⟨hids.1, hpeer⟩, hport⟩

end RegionPeerLocation

variable {encoded : PeerDescriptor} {peer : RegionPeerLocation}

/-- A peer that was read is written as it was. -/
lemma toProtoPeer_of_fromProtoPeer
    (h : fromProtoPeer encoded = some peer) : toProtoPeer peer = encoded := by
  unfold fromProtoPeer at h
  split at h
  · cases h
  · rename_i hvalid
    simp only [not_or] at hvalid
    cases h
    unfold toProtoPeer
    rw [ofShort_toShort (Std.not_lt.1 hvalid.2.2.2)]

lemma decodes_of_fromProtoPeer (h : fromProtoPeer encoded = some peer) : peer.Decodes := by
  unfold RegionPeerLocation.Decodes
  rw [toProtoPeer_of_fromProtoPeer h, h]

lemma mapM_toProtoPeer {peers : List RegionPeerLocation} (h : ∀ peer ∈ peers, peer.Decodes) :
    (peers.map toProtoPeer).mapM fromProtoPeer = some peers := by
  induction peers with
  | nil => rfl
  | cons peer rest ih =>
    obtain ⟨hpeer, hrest⟩ := forall_mem_cons.1 h
    have hfirst : fromProtoPeer (toProtoPeer peer) = some peer := hpeer
    rw [map_cons, mapM_cons, hfirst, ih hrest]
    rfl

/-! ## Regions -/

/-- The Region, and the child of its pending split, are read back as they were written. -/
def RegionMetadata.Decodes : RegionMetadata → Prop
  | ⟨regionId, _, _, peers, _, _, _, pending⟩ =>
    ¬regionId < 0 ∧ (∀ peer ∈ peers, peer.Decodes) ∧
      match pending with
      | none => True
      | some (_, child) => child.Decodes

variable {region : RegionMetadata}

namespace RegionMetadata

/-- A Region can be read back if its id and peers can, and its pending child. -/
lemma decodes_iff : region.Decodes ↔ ¬region.regionId < 0 ∧ (∀ peer ∈ region.peers, peer.Decodes) ∧
      ∀ splitKey child, region.splitPending = some (splitKey, child) → child.Decodes := by
  obtain ⟨_, _, _, peers, _, _, _, pending⟩ := region
  cases pending with
  | none => simp [Decodes]
  | some pending =>
    obtain ⟨splitKey, child⟩ := pending
    simp [Decodes]

lemma Decodes.congr {region other : RegionMetadata} (h : region.Decodes)
    (hid : other.regionId = region.regionId) (hpeers : other.peers = region.peers)
    (hpending : other.splitPending = region.splitPending ∨ other.splitPending = none) :
    other.Decodes := by
  obtain ⟨hnonneg, hdecodes, hchild⟩ := decodes_iff.1 h
  refine decodes_iff.2 ⟨hid ▸ hnonneg, hpeers ▸ hdecodes, ?_⟩
  intro splitKey child heq
  rcases hpending with hsame | hnone
  · exact hchild splitKey child (hsame ▸ heq)
  · rw [hnone] at heq
    cases heq

/-- A Region is read back as it was written. -/
theorem Decodes.fromProtoRegion_toProtoRegion {region : RegionMetadata} (h : region.Decodes) :
    fromProtoRegion (toProtoRegion region) = .ok region := by
  match region with
  | ⟨regionId, startKey, endKey, peers, epoch, metadataRevision, leaderPeerId, none⟩ =>
    obtain ⟨hnonneg, hpeers, -⟩ := h
    rw [toProtoRegion, fromProtoRegion, if_neg (Std.not_lt.2 (ofInt_le_intMax.2 hnonneg))]
    simp only [fromProtoFields, mapM_toProtoPeer hpeers, toInt_ofInt]
  | ⟨regionId, startKey, endKey, peers, epoch, metadataRevision, leaderPeerId,
      some (splitKey, child)⟩ =>
    obtain ⟨hnonneg, hpeers, hchild⟩ := h
    have hchild : child.Decodes := hchild
    rw [toProtoRegion, fromProtoRegion, if_neg (Std.not_lt.2 (ofInt_le_intMax.2 hnonneg))]
    simp only [hchild.fromProtoRegion_toProtoRegion, fromProtoFields, mapM_toProtoPeer hpeers,
      toInt_ofInt]

end RegionMetadata

variable {descriptor : RegionDescriptor}

/-- A Region that was read can be read back. -/
lemma fromProtoRegion_decodes (h : fromProtoRegion descriptor = .ok region) : region.Decodes := by
  refine (fromProtoRegion_induction (fun {descriptor _} hreads hchild =>
    RegionMetadata.decodes_iff.2 ⟨?_, ?_, hchild⟩) h).2
  · rw [hreads.regionId, ← ofInt_le_intMax, ofInt_toInt hreads.id_le]
    exact hreads.id_le
  · intro peer hpeer
    obtain ⟨encoded, -, hread⟩ := exists_of_forall₂ hreads.peers hpeer
    exact decodes_of_fromProtoPeer hread

/-- A Region that was read has the id and the peers of its descriptor. -/
lemma fromProtoRegion_spec (h : fromProtoRegion descriptor = .ok region) :
    ofInt region.regionId = descriptor.regionId ∧ region.peers.map toProtoPeer = descriptor.peers := by
  have hreads := reads_of_fromProtoRegion h
  refine ⟨hreads.regionId ▸ ofInt_toInt hreads.id_le, ?_⟩
  rw [← forall₂_eq_eq_eq, forall₂_map_left_iff]
  exact (hreads.peers.imp fun _ _ hread => toProtoPeer_of_fromProtoPeer hread).flip

/-! ## Lists of Regions -/

/-- The Region can be part of a message: it is read back, and its id is not zero. -/
structure RegionMetadata.Encodable (region : RegionMetadata) : Prop where
  decodes : region.Decodes
  id : region.regionId ≠ 0

variable {regions : List RegionMetadata}

lemma decodeRegions_encodable {descriptors : List RegionDescriptor}
    (h : decodeRegions descriptors = .ok regions) : ∀ region ∈ regions, region.Encodable := by
  intro region hregion
  obtain ⟨descriptor, -, hid, hread⟩ := exists_of_mem_decodeRegions h hregion
  refine ⟨fromProtoRegion_decodes hread, ?_⟩
  intro hzero
  rw [← (fromProtoRegion_spec hread).1, hzero] at hid
  exact hid (by decide)

lemma toProtoRegion_regionId (region : RegionMetadata) :
    (toProtoRegion region).regionId = ofInt region.regionId := by
  match region with
  | ⟨_, _, _, _, _, _, _, none⟩ | ⟨_, _, _, _, _, _, _, some (_, _)⟩ => rw [toProtoRegion]

lemma decodeRegions_map_toProtoRegion (h : ∀ region ∈ regions, region.Encodable) :
    decodeRegions (regions.map toProtoRegion) = .ok regions := by
  induction regions with
  | nil => rfl
  | cons region rest ih =>
    obtain ⟨hregion, hrest⟩ := forall_mem_cons.1 h
    rw [map_cons, decodeRegions, if_neg, hregion.decodes.fromProtoRegion_toProtoRegion, ih hrest]
    rw [toProtoRegion_regionId, not_or]
    refine ⟨fun hzero => hregion.id ?_, ?_⟩
    · rw [← toInt_ofInt region.regionId, hzero]
      decide
    · exact Std.not_lt.2 (ofInt_le_intMax.2 (RegionMetadata.decodes_iff.1 hregion.decodes).1)

end StrataKV.Metadata
