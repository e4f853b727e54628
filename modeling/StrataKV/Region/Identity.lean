import StrataKV.Region.Membership

/-!
# The identity of a peer under membership changes

A peer knows itself by its place in the descriptor, `m_me`, and by its id in Raft. The descriptor is
compacted when a peer is removed, and Raft keeps every peer it has ever had, so the place means
another peer once one before it is gone; and a peer that is gone can still be promoted in Raft. The
identity is kept as long as neither is done (`identity_kept`).
-/

namespace StrataKV.Region

open Metadata Mvcc Members List

/-! ## Applying changes -/

/-- The roles by the descriptor. -/
def Members.ofPeers (peers : List RegionPeerLocation) : Members :=
  peers.map fun peer => (peer.peerId, if peer.isLearner then .learner else .voter)

namespace Member

/-- A `ConfChange` command is applied, by the Region and by Raft. -/
def change (m : Member) (command : ConfChangeCommand) : Option Member :=
  (m.peer.applyConfChange command).map fun answer =>
    { (if (command.region m.peer.descriptor).isSome then m.changeRoles command else m) with
      peer := answer.2 }

/-- The place is that of the local peer, the roles in Raft are those of the descriptor, and an
accepted removal retires the peer exactly if it names it. -/
structure Identified (m : Member) : Prop where
  place : m.peer.localPeerDescriptor.map RegionPeerLocation.peerId = some m.localPeerId
  roles : ∀ peerId, (m.members.role peerId).filter (· ≠ .removed) =
    (Members.ofPeers m.peer.descriptor.peers).role peerId
  retires : ∀ command m', command.changeType = .removePeer →
    (command.region m.peer.descriptor).isSome = true → m.change command = some m' →
      (m'.removed = true ↔ command.peer.peerId = m.localPeerId) ∧
      (m'.peer.removals ≠ m.peer.removals ↔ command.peer.peerId = m.localPeerId)

end Member

/-- The runs of a peer over changes that are applied. -/
def changeSystem (config : MemberConfig) : TransitionSystem Member ConfChangeCommand :=
  .ofPartial (Member.create config) Member.change

/-- The change does not remove the local peer. -/
def Stays (m : Member) (command : ConfChangeCommand) : Prop :=
  ¬(command.changeType = .removePeer ∧ command.peer.peerId = m.localPeerId)

/-- The change removes no peer before the local one, and promotes only a peer that is there. -/
def InPlace (m : Member) (command : ConfChangeCommand) : Prop :=
  Stays m command ∧
    (command.changeType = .removePeer → ∀ peer ∈ m.peer.descriptor.peers.take m.peer.me,
      peer.peerId ≠ command.peer.peerId) ∧ (command.changeType = .promoteLearner →
      ∃ peer ∈ m.peer.descriptor.peers, peer.peerId = command.peer.peerId)

instance (m : Member) (command : ConfChangeCommand) : Decidable (Stays m command) :=
  inferInstanceAs (Decidable (¬_))

instance (m : Member) (command : ConfChangeCommand) : Decidable (InPlace m command) :=
  inferInstanceAs (Decidable (_ ∧ _ ∧ _))

/-! ## The descriptor -/

section

variable {peers : List RegionPeerLocation} {command : ConfChangeCommand} {peerId : UInt64}

lemma role_ofPeers (peers : List RegionPeerLocation) (peerId : UInt64) :
    ((ofPeers peers).role peerId).filter (· ≠ .removed) = (ofPeers peers).role peerId := by
  cases hrole : (ofPeers peers).role peerId with
  | none => rfl
  | some role =>
    obtain ⟨member, hfind, rfl⟩ := Option.map_eq_some_iff.1 hrole
    obtain ⟨peer, -, rfl⟩ := mem_map.1 (mem_of_find?_eq_some hfind)
    split <;> rfl

lemma ofPeers_setLearner (peerId : UInt64) (learner : Bool) (peers : List RegionPeerLocation) :
    ofPeers (setLearner peerId learner peers) =
      (ofPeers peers).setRole peerId (if learner then .learner else .voter) := by
  induction peers with
  | nil => rfl
  | cons peer rest ih =>
    have hcons : ofPeers (peer :: rest) =
        (peer.peerId, if peer.isLearner then .learner else .voter) :: ofPeers rest := rfl
    rw [setLearner, hcons, setRole_cons, ← ih]
    split <;> rfl

lemma role_filter (peerId other : UInt64) (peers : List RegionPeerLocation) :
    (ofPeers (peers.filter fun peer => peer.peerId ≠ peerId)).role other =
      if other = peerId then none else (ofPeers peers).role other := by
  unfold role ofPeers
  rw [find?_map, find?_map, find?_filter]
  split_ifs with heq
  · rw [find?_eq_none.2 (by simp [heq])]
    rfl
  · congr 3
    funext peer
    by_cases hother : peer.peerId = other <;> simp [hother, heq]

/-- The role that the descriptor has for a peer after a change. -/
def descriptorRole (command : ConfChangeCommand) (old : Option PeerRole) : Option PeerRole :=
  if command.changeType = .removePeer then none else Members.newRole command old

lemma role_peers (command : ConfChangeCommand) (peers : List RegionPeerLocation) (other : UInt64) :
    (ofPeers (command.peers peers)).role other =
      if other = command.peer.peerId then
        descriptorRole command ((ofPeers peers).role other)
      else (ofPeers peers).role other := by
  have hraft := role_applyConfChange (ofPeers peers) command other
  have hany : ((ofPeers peers).any fun member => member.1 = command.peer.peerId) =
      peers.any fun peer => peer.peerId = command.peer.peerId := any_map
  unfold ConfChangeCommand.peers descriptorRole
  unfold applyConfChange at hraft
  cases htype : command.changeType with
  | removePeer =>
    rw [role_filter, if_pos rfl]
  | promoteLearner =>
    rw [htype] at hraft
    rw [ofPeers_setLearner]
    exact hraft
  | addLearner =>
    rw [htype, hany] at hraft
    dsimp only at hraft ⊢
    refine Eq.trans ?_ hraft
    split
    · rw [ofPeers_setLearner]
      rfl
    · exact congrArg (role · other) map_append
  | addPeer =>
    rw [htype] at hraft
    exact hraft

lemma ids_setLearner (learner : Bool) :
    (setLearner peerId learner peers).map RegionPeerLocation.peerId =
      peers.map RegionPeerLocation.peerId := by
  induction peers with
  | nil => rfl
  | cons peer rest ih =>
    rw [setLearner]
    split
    · rfl
    · rw [map_cons, map_cons, ih]

/-- An element stays in its place if nothing up to it goes. -/
lemma getElem?_filter_of_take {α : Type} {l : List α} {p : α → Bool} {i : ℕ} {a : α}
    (hget : l[i]? = some a) (h : ∀ b ∈ l.take (i + 1), p b = true) : (l.filter p)[i]? = some a := by
  have hlt := (List.getElem?_eq_some_iff.1 hget).1
  rw [← take_append_drop (i + 1) l, filter_append, filter_eq_self.2 h,
    getElem?_append_left (by rw [length_take]; omega),
    getElem?_take_of_lt (Nat.lt_succ_self i), hget]

end

/-! ## Runs -/

/-- What the changes keep. -/
structure IdInv (m : Member) : Prop where
  place : (m.peer.descriptor.peers.map RegionPeerLocation.peerId)[m.peer.me]? = some m.localPeerId
  raftPlace : (m.members.map Prod.fst)[m.peer.me]? = some m.localPeerId
  roles : ∀ peerId, (m.members.role peerId).filter (· ≠ .removed) =
    (Members.ofPeers m.peer.descriptor.peers).role peerId
  running : m.removed = false

section

variable {config : MemberConfig} {m m' : Member} {command : ConfChangeCommand}
  {peer peer' : RegionPeer} {result : TxnStatus} {region : RegionMetadata} {peerId : UInt64}

/-- An accepted change: the descriptor, and the callback for the peer at the place. -/
lemma applyConfChange_accepted (h : peer.applyConfChange command = some (result, peer'))
    (hregion : command.region peer.descriptor = some region) :
    peer'.descriptor = region ∧ peer'.me = peer.me ∧
      (peer'.removals ≠ peer.removals ↔ command.changeType = .removePeer ∧
        (peer.descriptor.peers[peer.me]?.any fun self =>
          command.peer.peerId = self.peerId) = true) := by
  have hkept (p q : RegionPeer) (hq : (if p.beginRetire.inFlightRequests = 0 then
      p.beginRetire.markStopped else some p.beginRetire) = some q) :
      q.descriptor = p.descriptor ∧ q.me = p.me ∧ q.removals = p.removals := by
    unfold RegionPeer.beginRetire RegionPeer.markStopped at hq
    split_ifs at hq <;> cases hq <;> exact ⟨rfl, rfl, rfl⟩
  simp only [RegionPeer.applyConfChange, hregion] at h
  split at h
  · rename_i hself
    obtain ⟨stopped, hstopped, heq⟩ := Option.map_eq_some_iff.1 h
    obtain ⟨hdescriptor, hme, hremovals⟩ := hkept _ _ hstopped
    cases heq
    refine ⟨hdescriptor, hme, iff_of_true ?_ hself⟩
    simp [hremovals]
  · rename_i hself
    cases h
    exact ⟨rfl, rfl, iff_of_false (by simp) hself⟩

/-- The roles go on agreeing if a peer that is promoted is there. -/
lemma newRole_agrees {old : Option PeerRole} (hpromoted : command.changeType = .promoteLearner →
      (old.filter (· ≠ .removed)).isSome = true) :
    (newRole command old).filter (· ≠ .removed) =
      descriptorRole command (old.filter (· ≠ .removed)) := by
  unfold descriptorRole newRole
  cases htype : command.changeType with
  | addPeer | addLearner => rfl
  | removePeer => cases old <;> rfl
  | promoteLearner =>
    specialize hpromoted htype
    rcases old with - | role
    · rfl
    · cases role <;> first | rfl | cases hpromoted

/-- Raft keeps every peer in its place. -/
lemma keys_applyConfChange {members : Members} {i : ℕ}
    (h : (members.map Prod.fst)[i]? = some peerId) :
    ((members.applyConfChange command).map Prod.fst)[i]? = some peerId := by
  unfold applyConfChange
  split
  · exact h
  · split
    · rwa [keys_setRole]
    · rw [List.map_append, List.getElem?_append_left (List.getElem?_eq_some_iff.1 h).1, h]
  · rwa [keys_setRole]
  · rwa [keys_setRole]

lemma IdInv.peers (h : IdInv m) (hguard : InPlace m command) :
    ((command.peers m.peer.descriptor.peers).map RegionPeerLocation.peerId)[m.peer.me]? =
      some m.localPeerId := by
  unfold ConfChangeCommand.peers
  cases htype : command.changeType with
  | addPeer => exact h.place
  | addLearner =>
    dsimp only
    split
    · rw [ids_setLearner, h.place]
    · rw [List.map_append, List.getElem?_append_left (List.getElem?_eq_some_iff.1 h.place).1,
        h.place]
  | promoteLearner =>
    rw [ids_setLearner, h.place]
  | removePeer =>
    -- neither the local peer nor one before it goes
    obtain ⟨self, hself, hid⟩ := Option.map_eq_some_iff.1 (getElem?_map.symm.trans h.place)
    rw [getElem?_map, getElem?_filter_of_take hself, Option.map_some, hid]
    intro peer hpeer
    rw [take_add_one, hself] at hpeer
    rcases mem_append.1 hpeer with hbefore | hlast
    · simpa using hguard.2.1 htype peer hbefore
    · obtain rfl : peer = self := by simpa using hlast
      rw [decide_eq_true_eq, hid]
      exact fun heq => hguard.1 ⟨htype, heq.symm⟩

/-- Raft removes itself for exactly the id that it was started with. -/
lemma IdInv.removed_iff (h : IdInv m) {changed : Member}
    (hchanged : m.changeRoles command = changed) :
    changed.removed = true ↔
      command.changeType = .removePeer ∧ command.peer.peerId = m.localPeerId := by
  obtain ⟨self, hself, hid⟩ := Option.map_eq_some_iff.1 (getElem?_map.symm.trans h.raftPlace)
  subst hchanged
  unfold Member.changeRoles
  dsimp only
  split_ifs with hcond
  · obtain ⟨htype, -, heq | hindex⟩ := hcond
    · exact iff_of_true rfl ⟨htype, heq⟩
    · have hfound := of_findIdx?_eq_some hindex
      rw [hself] at hfound
      exact iff_of_true rfl ⟨htype, (of_decide_eq_true hfound).symm.trans hid⟩
  · refine iff_of_false (by simp [h.running]) ?_
    rintro ⟨htype, heq⟩
    refine hcond ⟨htype, ?_, .inl heq⟩
    rw [findIdx?_isSome, any_eq_true]
    exact ⟨self, mem_of_getElem? hself, by simp [hid, heq]⟩

lemma IdInv.change (h : IdInv m) (hguard : InPlace m command) (hm' : m.change command = some m') :
    IdInv m' := by
  obtain ⟨⟨result, peer'⟩, hpeer, rfl⟩ := Option.map_eq_some_iff.1 hm'
  cases hregion : command.region m.peer.descriptor with
  | none =>
    rw [RegionPeer.applyConfChange, hregion] at hpeer
    cases hpeer
    exact h
  | some region =>
    obtain ⟨hdescriptor, hme, -⟩ := applyConfChange_accepted hpeer hregion
    have hpeers : region.peers = command.peers m.peer.descriptor.peers := by
      unfold ConfChangeCommand.region at hregion
      split at hregion
      · cases hregion
      · cases hregion
        rfl
    obtain ⟨hmembers, hlocal⟩ : (m.changeRoles command).members =
        m.members.applyConfChange command ∧
          (m.changeRoles command).localPeerId = m.localPeerId := by
      unfold Member.changeRoles
      dsimp only
      split <;> exact ⟨rfl, rfl⟩
    rw [Option.isSome_some, if_pos rfl]
    refine ⟨?_, ?_, ?_, ?_⟩
    · rw [hdescriptor, hpeers, hme, hlocal]
      exact h.peers hguard
    · rw [hmembers, hme, hlocal]
      exact keys_applyConfChange h.raftPlace
    · intro other
      rw [hdescriptor, hpeers, hmembers, role_peers, role_applyConfChange]
      split_ifs with heq
      · rw [newRole_agrees, h.roles]
        intro htype
        obtain ⟨peer, hmem, hid⟩ := hguard.2.2 htype
        rw [h.roles, role_isSome_iff, any_eq_true]
        exact ⟨_, mem_map_of_mem hmem, by simp [hid, heq]⟩
      · exact h.roles other
    · rw [Bool.eq_false_iff]
      exact fun hremoved => hguard.1 ((h.removed_iff rfl).1 hremoved)

lemma IdInv.identified (h : IdInv m) : m.Identified where
  place := getElem?_map.symm.trans h.place
  roles := h.roles
  retires command m' htype hsome hm' := by
    obtain ⟨⟨result, peer'⟩, hpeer, rfl⟩ := Option.map_eq_some_iff.1 hm'
    obtain ⟨region, hregion⟩ := Option.isSome_iff_exists.1 hsome
    obtain ⟨self, hself, hid⟩ := Option.map_eq_some_iff.1 (getElem?_map.symm.trans h.place)
    obtain ⟨-, -, hremovals⟩ := applyConfChange_accepted hpeer hregion
    rw [if_pos hsome, hremovals, hself, and_iff_right htype]
    exact ⟨(h.removed_iff rfl).trans (and_iff_right htype), by simp [hid]⟩

/-- As long as the local peer is not removed and the changes are in place, the peer keeps its
identity. -/
theorem identity_kept (hlocal : config.descriptor.peers[config.me]?.map RegionPeerLocation.peerId =
      some config.localPeerId) (hm : (changeSystem config).Reachable InPlace m) : m.Identified := by
  refine (hm.invariant (I := IdInv) ?_ ?_).identified
  · rintro _ rfl
    refine ⟨getElem?_map.trans hlocal, ?_, ?_, rfl⟩
    · have hkeys := congrArg (·[config.me]?) (map_map (g := Prod.fst)
        (l := config.descriptor.peers) (f := fun peer =>
          (peer.peerId, if peer.isLearner then PeerRole.learner else .voter)))
      exact hkeys.trans (getElem?_map.trans hlocal)
    · exact role_ofPeers _
  · intro m command m' h hguard hm'
    exact h.change hguard hm'

end

/-! ## Samples -/

/-- Three voters, seen from the second one. -/
def secondVoter : MemberConfig where
  me := 1
  localPeerId := 5
  descriptor := { peers := [{ peerId := 4 }, { peerId := 5 }, { peerId := 6 }] }
  distinct := by decide

theorem identity_kept_secondVoter : ∃ m, (changeSystem secondVoter).Reachable InPlace m ∧
      m.peer.descriptor.peers.length = 2 ∧ m.Identified := by
  have hrun : TransitionSystem.Ends Member.change InPlace
      (fun m => m.peer.descriptor.peers.length = 2) (Member.create secondVoter)
      [{ changeType := .removePeer, peer := { peerId := 6 } }] := by decide
  obtain ⟨m, hm, hpeers⟩ := hrun.exists_reachable
  exact ⟨m, hm, hpeers, identity_kept rfl hm⟩

/-- The first peer is removed, and the place of the second one is that of the third. -/
theorem identity_lost : ¬∀ (config : MemberConfig) (m : Member),
      config.descriptor.peers[config.me]?.map RegionPeerLocation.peerId = some config.localPeerId →
      (changeSystem config).Reachable Stays m → m.Identified := by
  intro h
  have hrun : TransitionSystem.Ends Member.change Stays
      (fun m => m.peer.localPeerDescriptor.map RegionPeerLocation.peerId ≠ some m.localPeerId)
      (Member.create secondVoter) [{ changeType := .removePeer, peer := { peerId := 4 } }] := by
    decide
  obtain ⟨m, hm, hplace⟩ := hrun.exists_reachable
  exact hplace (h _ m rfl hm).place

end StrataKV.Region
