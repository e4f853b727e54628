import StrataKV.Region.Descriptor

/-!
# Fencing between the replicas of a Region

Raft messages carry the epoch of their sender, and `ValidateRaftPeerRequest` compares it with the
epoch of the receiver before the message reaches Raft. Both epochs are what the two replicas have
made of the log so far: an accepted `AdminSplit` adds one to the version, an accepted `ConfChange`
one to the configuration version. So the fence between a leader and a replica behind it depends on
what the entries between their positions did.

The receiver looks its own id up at its place in the list of peers. A removal moves the peers behind
the removed one, and the place is not corrected.
-/

namespace StrataKV.Region

open Metadata Decimal RegionPeer UInt64 Option

/-! ## The validator -/

/-- The codes that the validator returns. -/
inductive RegionErrorCode
  | none
  | epochNotMatch
  | regionNotFound
  | peerNotFound
  | missingHeader
  deriving DecidableEq

structure RegionValidationResult where
  code : RegionErrorCode := .none
  message : Bytes := []

def RegionValidationResult.ok (result : RegionValidationResult) : Bool := result.code = .none

structure RaftPeerHeader where
  regionId : UInt64
  fromPeerId : UInt64
  toPeerId : UInt64
  epoch : Option RegionEpoch

def validateRaftPeerRequest (descriptor : RegionMetadata) (localPeerId : UInt64)
    (legacyRegionId : Int32) (header : Option RaftPeerHeader) (requireHeader : Bool) :
    RegionValidationResult :=
  let text (n : UInt64) : Bytes := toDecimal n.toNat
  match header with
  | none =>
    if requireHeader then
      ⟨.missingHeader, ascii "dynamic topology request is missing a Region header"⟩
    else if legacyRegionId ≠ descriptor.regionId then
      ⟨.regionNotFound, ascii "legacy Region ID does not match the target peer"⟩
    else {}
  | some header =>
    if header.regionId ≠ ofInt descriptor.regionId ∨ legacyRegionId ≠ descriptor.regionId then
      ⟨.regionNotFound, ascii "request Region ID does not match the target peer"⟩
    else if header.toPeerId ≠ localPeerId then
      ⟨.peerNotFound, ascii "request target peer ID is not served by this process"⟩
    else if descriptor.findPeer header.fromPeerId = none then
      ⟨.peerNotFound, ascii "Raft source peer ID is not in the current descriptor"⟩
    else
      match header.epoch with
      | none =>
        ⟨.epochNotMatch, ascii "request epoch confversion none vs local " ++
          text descriptor.epoch.confVersion⟩
      | some epoch =>
        if epoch.confVersion ≠ descriptor.epoch.confVersion then
          ⟨.epochNotMatch, ascii "request epoch confversion " ++ text epoch.confVersion ++
            ascii " vs local " ++ text descriptor.epoch.confVersion⟩
        -- a split is applied at slightly different times
        else if epoch.version ≠ descriptor.epoch.version ∧
            epoch.version + 1 ≠ descriptor.epoch.version ∧
            epoch.version ≠ descriptor.epoch.version + 1 then
          ⟨.epochNotMatch, ascii "request epoch " ++ text epoch.version ++ ascii "." ++
            text epoch.confVersion ++ ascii " vs local " ++ text descriptor.epoch.version ++
            ascii "." ++ text descriptor.epoch.confVersion⟩
        else {}

/-! ## Sender and receiver -/

/-- The client of one peer. -/
structure RaftRpcUtil where
  regionId : Int32
  fromPeerId : UInt64
  toPeerId : UInt64
  epoch : RegionEpoch

/-- `PopulateHeader`. -/
def RaftRpcUtil.header (util : RaftRpcUtil) : Option RaftPeerHeader :=
  if util.fromPeerId = 0 ∨ util.toPeerId = 0 then none
  else some ⟨ofInt util.regionId, util.fromPeerId, util.toPeerId, some util.epoch⟩

namespace RegionPeer

/-- What `AppendEntries` and `InstallSnapshot` of the dispatcher do first; `none` if they throw. -/
def fence (peer : RegionPeer) (requireRegionHeader : Bool) (regionId : Int32)
    (header : Option RaftPeerHeader) : Option RegionValidationResult :=
  if requireRegionHeader ∨ header.isSome then
    peer.localPeerDescriptor.map fun self =>
      validateRaftPeerRequest peer.descriptor self.peerId regionId header requireRegionHeader
  else some {}

end RegionPeer

/-- The committed entries of a Region; their indexes are `int`. -/
structure CommittedLog where
  ops : List Op
  short : ops.length < 2 ^ 31

variable (view : RegionView)

def RegionView.peerIdAt (place : ℕ) : Option UInt64 :=
  view.peers[place]?.map RegionPeerLocation.peerId

/-- Two peers with their ids. Each took its id from its place in the descriptor it was mounted
with, that of the start or a later one; peers with an id send it in their headers. -/
structure Link (descriptor : RegionMetadata) (log : List Op) where
  leader : ℕ
  replica : ℕ
  fromPeerId : UInt64
  toPeerId : UInt64
  fromMounted : ℕ
  toMounted : ℕ
  from_eq : (regionAfter descriptor log fromMounted).view.peerIdAt leader = some fromPeerId
  to_eq : (regionAfter descriptor log toMounted).view.peerIdAt replica = some toPeerId
  from_ne : fromPeerId ≠ 0
  to_ne : toPeerId ≠ 0

namespace Link

variable {descriptor : RegionMetadata} {log : List Op} (link : Link descriptor log)

/-- The leader's client of the replica, whose epoch `SetEpoch` keeps at that of the descriptor. -/
def util (group : Group) : RaftRpcUtil where
  regionId := descriptor.regionId
  fromPeerId := link.fromPeerId
  toPeerId := link.toPeerId
  epoch := (group.peer link.leader).descriptor.epoch

/-- The fence of the replica lets a message of the leader pass. -/
def Passes (group : Group) (requireRegionHeader : Bool) : Prop :=
  ((group.peer link.replica).fence requireRegionHeader descriptor.regionId
    (link.util group).header).any RegionValidationResult.ok = true

/-- Both peers are among the peers of the view. -/
def MembersOf : Prop :=
  link.fromPeerId ∈ view.peers.map RegionPeerLocation.peerId ∧
    link.toPeerId ∈ view.peers.map RegionPeerLocation.peerId

instance decidableMembersOf : Decidable (link.MembersOf view) := inferInstanceAs (Decidable (_ ∧ _))

end Link

/-- The leader is at least as far as the replica, and both are members at both positions. -/
structure Behind (descriptor : RegionMetadata) (log : List Op) (group : Group) extends
    Link descriptor log where
  ahead : group.reflected replica ≤ group.reflected leader
  member : toLink.MembersOf (regionAfter descriptor log (group.reflected replica)).view
  leaderMember : toLink.MembersOf (regionAfter descriptor log (group.reflected leader)).view

/-! ## How far the epochs of two positions are apart -/

/-- How many of the entries change a number of the epoch. -/
def bumps (number : RegionEpoch → UInt64) : RegionState → List Op → ℕ
  | _, [] => 0
  | state, op :: rest =>
    let next := regionStep state op
    (if number next.view.epoch = number state.view.epoch then 0 else 1) + bumps number next rest

/-- The accepted `ConfChange` entries between two positions of the log. -/
def confChangesBetween (descriptor : RegionMetadata) (log : List Op) (n m : ℕ) : ℕ :=
  bumps RegionEpoch.confVersion (regionAfter descriptor log n) ((log.take m).drop n)

/-- The accepted `AdminSplit` entries between two positions of the log. -/
def splitsBetween (descriptor : RegionMetadata) (log : List Op) (n m : ℕ) : ℕ :=
  bumps RegionEpoch.version (regionAfter descriptor log n) ((log.take m).drop n)

section

variable {number : RegionEpoch → UInt64}

lemma bumps_le_length (state : RegionState) (ops : List Op) :
    bumps number state ops ≤ ops.length := by
  induction ops generalizing state with
  | nil => exact le_rfl
  | cons op rest ih =>
    have hrest := ih (regionStep state op)
    rw [bumps, List.length_cons]
    split <;> omega

/-- The numbers of an epoch go up one by one. -/
def CountsUp (number : RegionEpoch → UInt64) : Prop :=
  ∀ (state : RegionState) (op : Op),
    number (regionStep state op).view.epoch = number state.view.epoch ∨
      number (regionStep state op).view.epoch = number state.view.epoch + 1

/-- What an entry can do to the epoch, and that it leaves the id. -/
lemma execute_epoch (operation : Operation) : (view.execute operation).regionId = view.regionId ∧
      ((view.execute operation).epoch = view.epoch ∨ (view.execute operation).epoch =
          { view.epoch with version := view.epoch.version + 1 } ∨ (view.execute operation).epoch =
          { view.epoch with confVersion := view.epoch.confVersion + 1 }) := by
  unfold RegionView.execute
  split
  · unfold RegionView.splitBy
    split_ifs with hmatch
    · rw [hmatch.2.1]
      exact ⟨rfl, .inr (.inl rfl)⟩
    · exact ⟨rfl, .inl rfl⟩
  · unfold RegionView.changeBy
    split
    · exact ⟨rfl, .inl rfl⟩
    · exact ⟨rfl, .inr (.inr rfl)⟩
  · exact ⟨rfl, .inl rfl⟩

lemma regionStep_epoch (state : RegionState) (op : Op) :
    (regionStep state op).view.regionId = state.view.regionId ∧
      ((regionStep state op).view.epoch = state.view.epoch ∨ (regionStep state op).view.epoch =
          { state.view.epoch with version := state.view.epoch.version + 1 } ∨
        (regionStep state op).view.epoch =
          { state.view.epoch with confVersion := state.view.epoch.confVersion + 1 }) := by
  unfold regionStep
  split
  · exact ⟨rfl, .inl rfl⟩
  · exact execute_epoch state.view op.operation

lemma countsUp_version : CountsUp RegionEpoch.version := by
  intro state op
  rcases (regionStep_epoch state op).2 with h | h | h <;> rw [h]
  · exact .inl rfl
  · exact .inr rfl
  · exact .inl rfl

lemma countsUp_confVersion : CountsUp RegionEpoch.confVersion := by
  intro state op
  rcases (regionStep_epoch state op).2 with h | h | h <;> rw [h]
  · exact .inl rfl
  · exact .inl rfl
  · exact .inr rfl

lemma number_foldl (hcounts : CountsUp number) (state : RegionState) (ops : List Op) :
    number (ops.foldl regionStep state).view.epoch =
      number state.view.epoch + ofNat (bumps number state ops) := by
  induction ops generalizing state with
  | nil => simp [bumps]
  | cons op rest ih =>
    rw [List.foldl_cons, ih, bumps]
    split_ifs with hsame
    · rw [hsame, Nat.zero_add]
    · rw [(hcounts state op).resolve_left hsame, UInt64.ofNat_add, ← UInt64.add_assoc]
      rfl

end

section

variable {descriptor : RegionMetadata} {log : List Op} {n m : ℕ}

lemma regionAfter_eq_foldl (hle : n ≤ m) : regionAfter descriptor log m =
      ((log.take m).drop n).foldl regionStep (regionAfter descriptor log n) := by
  obtain ⟨count, rfl⟩ := Nat.exists_eq_add_of_le hle
  rw [regionAfter_add, List.drop_take, Nat.add_sub_cancel_left]

lemma regionAfter_regionId (n : ℕ) :
    (regionAfter descriptor log n).view.regionId = descriptor.regionId := by
  have hfold (ops : List Op) (state : RegionState) :
      (ops.foldl regionStep state).view.regionId = state.view.regionId := by
    induction ops generalizing state with
    | nil => rfl
    | cons op rest ih => exact (ih _).trans (regionStep_epoch state op).1
  exact hfold _ _

/-- A number of the epoch is ahead by the entries between that changed it. -/
lemma number_between {number : RegionEpoch → UInt64} (hcounts : CountsUp number) (hle : n ≤ m)
    (hshort : log.length < 2 ^ 31) :
    ∃ k, k = bumps number (regionAfter descriptor log n) ((log.take m).drop n) ∧ k < 2 ^ 31 ∧
      number (regionAfter descriptor log m).view.epoch =
        number (regionAfter descriptor log n).view.epoch + ofNat k := by
  refine ⟨_, rfl, ?_, ?_⟩
  · have hbumps := @bumps_le_length number (regionAfter descriptor log n) ((log.take m).drop n)
    have hlength : ((log.take m).drop n).length ≤ log.length := by simp
    omega
  · rw [regionAfter_eq_foldl hle, number_foldl hcounts]

end

/-! ## The place of a replica -/

variable {descriptor : RegionMetadata}

lemma me_eq {log : List Op} {guard : Group → GroupEvent → Prop}
    {group : Group} (h : (groupSystem descriptor log).Reachable guard group) (r : ℕ) :
    (group.peer r).me = r := by
  have hset {group : Group} (hme : ∀ r, (group.peer r).me = r) {replica reflected : ℕ}
      {peer : RegionPeer} (hpeer : peer.me = (group.peer replica).me) :
      ∀ r, ((group.setPeer replica peer reflected).peer r).me = r := by
    intro r
    by_cases hr : r = replica
    · subst hr
      simpa [Group.setPeer] using hpeer.trans (hme r)
    · simpa [Group.setPeer, hr] using hme r
  refine h.invariant (I := fun group => ∀ r, (group.peer r).me = r) ?_ ?_ r
  · intro group hinit
    rw [show group = Group.create descriptor from hinit]
    exact fun _ => rfl
  · intro group event group' hme _ hstep
    cases event with
    | apply replica env =>
      obtain ⟨-, op, succeeded, status, peer, -, happly, rfl⟩ := Group.next_apply hstep
      exact hset hme (applyCommand_me happly)
    | applyBatch replica count env =>
      obtain ⟨-, -, rfl⟩ := Group.next_applyBatch hstep
      exact hset hme (tryBatchApplyFromRaft_me rfl)
    | materialize replica =>
      obtain ⟨job, -, heq⟩ := map_eq_some_iff.1 hstep
      rw [← heq]
      exact hset hme (materializeSplitChild_frame _ job).1
    | capture replica =>
      obtain ⟨-, rfl⟩ := Group.next_capture hstep
      exact hme
    | install replica snapshot env =>
      obtain ⟨taken, -, hok, rfl⟩ := Group.next_install hstep
      refine hset hme ?_
      simp [getSnapShotFromRaft, hok, advanceStateMachineApplied]

/-! ## What the fence lets pass -/

/-- The place of the replica still has its id. -/
def Behind.KeepsPlace {descriptor : RegionMetadata} {log : List Op} {group : Group}
    (behind : Behind descriptor log group) : Prop :=
  (regionAfter descriptor log (group.reflected behind.replica)).view.peerIdAt behind.replica =
    some behind.toPeerId

lemma validateRaftPeerRequest_ok (descriptor : RegionMetadata) (localPeerId : UInt64)
    (legacyRegionId : Int32) (header : RaftPeerHeader) (requireHeader : Bool) :
    (validateRaftPeerRequest descriptor localPeerId legacyRegionId (some header)
        requireHeader).ok = true ↔
      header.regionId = ofInt descriptor.regionId ∧ legacyRegionId = descriptor.regionId ∧
        header.toPeerId = localPeerId ∧ descriptor.findPeer header.fromPeerId ≠ none ∧
        ∃ epoch, header.epoch = some epoch ∧ epoch.confVersion = descriptor.epoch.confVersion ∧
          (epoch.version = descriptor.epoch.version ∨ epoch.version + 1 = descriptor.epoch.version ∨
            epoch.version = descriptor.epoch.version + 1) := by
  unfold validateRaftPeerRequest
  dsimp only
  split_ifs with hregion hto hfrom
  · simp only [RegionValidationResult.ok]
    grind
  · simp [RegionValidationResult.ok, hto]
  · simp [RegionValidationResult.ok, hfrom]
  · push Not at hregion hto
    cases header.epoch with
    | none => simp [RegionValidationResult.ok]
    | some epoch =>
      dsimp only
      split_ifs with hconf hversion
      · simp [RegionValidationResult.ok, hconf]
      · simp only [RegionValidationResult.ok]
        grind
      · simp only [RegionValidationResult.ok]
        grind

/-- A version that is `k` ahead is tolerated if `k` is at most one. -/
lemma version_tolerated_iff {version : UInt64} {k : ℕ} (hk : k < 2 ^ 31) :
    (version + ofNat k = version ∨ version + ofNat k + 1 = version ∨
      version + ofNat k = version + 1) ↔ k ≤ 1 := by
  simp only [← UInt64.toNat_inj, UInt64.toNat_add, UInt64.toNat_ofNat']
  have hversion := version.toNat_lt
  have hone : (1 : UInt64).toNat = 1 := rfl
  omega

lemma add_ofNat_eq_self_iff {number : UInt64} {k : ℕ} (hk : k < 2 ^ 31) :
    number + ofNat k = number ↔ k = 0 := by
  simp only [← UInt64.toNat_inj, UInt64.toNat_add, UInt64.toNat_ofNat']
  have hnumber := number.toNat_lt
  omega

/-- The fence in terms of the views of the two replicas. -/
lemma Link.passes_iff {log : List Op} {group : Group}
    (link : Link descriptor log) (requireRegionHeader : Bool)
    (hme : (group.peer link.replica).me = link.replica)
    (hid : (group.peer link.replica).view.regionId = descriptor.regionId)
    (hmember : link.MembersOf (group.peer link.replica).view) :
    link.Passes group requireRegionHeader ↔
      (group.peer link.replica).view.peerIdAt link.replica = some link.toPeerId ∧
        (group.peer link.leader).view.epoch.confVersion =
          (group.peer link.replica).view.epoch.confVersion ∧
        ((group.peer link.leader).view.epoch.version =
            (group.peer link.replica).view.epoch.version ∨
          (group.peer link.leader).view.epoch.version + 1 =
            (group.peer link.replica).view.epoch.version ∨
          (group.peer link.leader).view.epoch.version =
            (group.peer link.replica).view.epoch.version + 1) := by
  have hheader : (link.util group).header = some
      ⟨ofInt descriptor.regionId, link.fromPeerId, link.toPeerId,
        some (group.peer link.leader).view.epoch⟩ := by
    rw [RaftRpcUtil.header, if_neg]
    · rfl
    · rintro (h | h)
      · exact link.from_ne h
      · exact link.to_ne h
  have hid : (group.peer link.replica).descriptor.regionId = descriptor.regionId := hid
  have hfrom : (group.peer link.replica).descriptor.findPeer link.fromPeerId ≠ none := by
    obtain ⟨peer, hpeer, hpeerId⟩ := List.mem_map.1 hmember.1
    rw [RegionMetadata.findPeer, ne_eq, List.find?_eq_none]
    intro hnone
    exact hnone peer hpeer (by simpa using hpeerId)
  rw [Link.Passes, hheader, fence, if_pos (by simp), localPeerDescriptor, hme]
  change Option.any _ (Option.map _ (group.peer link.replica).view.peers[link.replica]?) = true ↔ _
  rw [RegionView.peerIdAt]
  cases (group.peer link.replica).view.peers[link.replica]? with
  | none => simp
  | some self =>
    rw [map_some, any_some, validateRaftPeerRequest_ok, map_some, some.injEq]
    constructor
    · rintro ⟨-, -, hto, -, epoch, hepoch, hconf, hversion⟩
      cases hepoch
      exact ⟨hto.symm, hconf, hversion⟩
    · rintro ⟨hto, hconf, hversion⟩
      exact ⟨by rw [hid], hid.symm, hto.symm, hfrom, _, rfl, hconf, hversion⟩

/-- A message of a replica that is ahead passes if and only if the place of the receiver still has
its id, no `ConfChange` takes effect between the two positions and at most one `AdminSplit` does. -/
theorem passes_iff_keepsPlace_unchanged (descriptor : RegionMetadata) (log : CommittedLog)
    (group : Group)
    (h : (groupSystem descriptor log.ops).Reachable (InstallsUnchanged log.ops) group)
    (behind : Behind descriptor log.ops group) (requireRegionHeader : Bool) :
    behind.Passes group requireRegionHeader ↔ behind.KeepsPlace ∧
        confChangesBetween descriptor log.ops (group.reflected behind.replica)
          (group.reflected behind.leader) = 0 ∧
        splitsBetween descriptor log.ops (group.reflected behind.replica)
          (group.reflected behind.leader) ≤ 1 := by
  have hview (r : ℕ) : (group.peer r).view =
      (regionAfter descriptor log.ops (group.reflected r)).view :=
    ((groupInv_of_reachable h).replica r).view
  have hid : (group.peer behind.replica).view.regionId = descriptor.regionId := by
    rw [hview, regionAfter_regionId]
  have hmember : behind.MembersOf (group.peer behind.replica).view := by
    rw [hview]
    exact behind.member
  rw [behind.passes_iff requireRegionHeader (me_eq h _) hid hmember, hview, hview]
  -- the epoch of the leader is that of the replica plus the changes between them
  obtain ⟨changes, hchanges, hchangesLt, hconf⟩ :=
    number_between countsUp_confVersion behind.ahead log.short
  obtain ⟨splits, hsplits, hsplitsLt, hversion⟩ :=
    number_between countsUp_version behind.ahead log.short
  rw [hconf, hversion, add_ofNat_eq_self_iff hchangesLt, version_tolerated_iff hsplitsLt, hchanges,
    hsplits]
  rfl

/-! ## Runs -/

/-- The peers of `sampleDescriptor`; the first one leads. -/
def sampleLink (log : List Op) : Link sampleDescriptor log where
  leader := 0
  replica := 1
  fromPeerId := 1
  toPeerId := 2
  fromMounted := 0
  toMounted := 0
  from_eq := rfl
  to_eq := rfl
  from_ne := by decide
  to_ne := by decide

/-- The first peer has applied one entry and the second none. -/
def oneBehind {log : List Op} {group : Group} (h0 : group.reflected 0 = 1)
    (h1 : group.reflected 1 = 0)
    (hmember : (sampleLink log).MembersOf (regionAfter sampleDescriptor log 0).view)
    (hleader : (sampleLink log).MembersOf (regionAfter sampleDescriptor log 1).view) :
    Behind sampleDescriptor log group where
  toLink := sampleLink log
  ahead := by
    change group.reflected 1 ≤ group.reflected 0
    omega
  member := h1.symm ▸ hmember
  leaderMember := h0.symm ▸ hleader

/-- A leader that has applied the split passes the fence of a replica that has not. -/
theorem passes_before_split :
    ∃ group, (groupSystem sampleDescriptor splitLog).Reachable (InstallsUnchanged splitLog) group ∧
      group.reflected 0 = 1 ∧ group.reflected 1 = 0 ∧
      ∀ requireRegionHeader, (sampleLink splitLog).Passes group requireRegionHeader := by
  have hrun : TransitionSystem.Ends (Group.next splitLog) (InstallsUnchanged splitLog)
      (fun group => group.reflected 0 = 1 ∧ group.reflected 1 = 0) (Group.create sampleDescriptor)
      [.apply 0 ⟨⟨0, true⟩, 0⟩] := by
    decide
  obtain ⟨group, hreach, h0, h1⟩ := hrun.exists_reachable
  refine ⟨group, hreach, h0, h1, fun requireRegionHeader => ?_⟩
  refine (passes_iff_keepsPlace_unchanged sampleDescriptor ⟨splitLog, by decide⟩ group hreach
    (oneBehind h0 h1 (by decide) (by decide))
    requireRegionHeader).2 ?_
  change (regionAfter sampleDescriptor splitLog (group.reflected 1)).view.peerIdAt 1 = some 2 ∧
    confChangesBetween sampleDescriptor splitLog (group.reflected 1) (group.reflected 0) = 0 ∧
    splitsBetween sampleDescriptor splitLog (group.reflected 1) (group.reflected 0) ≤ 1
  rw [h0, h1]
  decide

/-- A leader that has applied the addition of a learner is fenced off by a replica that has not,
and cannot send it that entry. -/
theorem fenced_before_learner :
    ¬∀ (descriptor : RegionMetadata) (log : CommittedLog) (group : Group),
      (groupSystem descriptor log.ops).Reachable (InstallsUnchanged log.ops) group →
        ∀ (behind : Behind descriptor log.ops group) (requireRegionHeader : Bool),
          behind.Passes group requireRegionHeader := by
  intro h
  have hrun : TransitionSystem.Ends (Group.next learnerLog) (InstallsUnchanged learnerLog)
      (fun group => group.reflected 0 = 1 ∧ group.reflected 1 = 0 ∧
        ¬(sampleLink learnerLog).Passes group true) (Group.create sampleDescriptor)
      [.apply 0 ⟨⟨0, true⟩, 0⟩] := by
    unfold Link.Passes
    decide
  obtain ⟨group, hreach, h0, h1, hfenced⟩ := hrun.exists_reachable
  exact hfenced (h sampleDescriptor ⟨learnerLog, by decide⟩ group hreach
    (oneBehind h0 h1 (by decide) (by decide)) true)

end StrataKV.Region
