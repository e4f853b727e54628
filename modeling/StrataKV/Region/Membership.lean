import StrataKV.Lib.TransitionSystem
import StrataKV.Metadata.StateMachine
import StrataKV.Region.Peer

/-!
# Membership changes

One replica of a Region on the way of its `ConfChange` entries: `ProposeConfChange` checks that none
is in flight, compares the epoch and queues it, `raftPollerTicker` appends the queue to the log, `applierTicker` hands
committed entries to the Region's state machine, and that changes the roles of the peers when it
applies them. The three steps of `ProposeConfChange` each take a lock of their own, so anything may
happen between them, except another `ProposeConfChange`. The rest of the cluster is the environment: it elects the replica or has it step down,
overwrites its log while it does not lead, sends it snapshots and tells what is committed.
-/

namespace StrataKV.Region

open Metadata List Prod

/-! ## Roles -/

inductive PeerRole
  | voter
  | learner
  | removed
  deriving DecidableEq

/-- `m_peerIds` with `m_peerRoles`. -/
abbrev Members := List (UInt64 × PeerRole)

namespace Members

variable (members : Members)

def role (peerId : UInt64) : Option PeerRole :=
  (members.find? fun member => member.1 = peerId).map Prod.snd

/-- The first peer with the id gets the role. -/
def setRole (peerId : UInt64) (role : PeerRole) : Members :=
  updateFirst (fun member => member.1 = peerId) (fun member => (member.1, role)) members

def getVoterCount : ℕ := members.countP fun member => member.2 = .voter

def getQuorum : ℕ := members.getVoterCount / 2 + 1

/-- The peers whose role is that of a voter. -/
def voters : Finset UInt64 :=
  (members.map Prod.fst).toFinset.filter fun peerId => members.role peerId = some .voter

/-- `Raft::ApplyConfChange`; the role is set whatever it was before. -/
def applyConfChange (command : ConfChangeCommand) : Members :=
  match command.changeType with
  | .addPeer => members
  | .addLearner =>
    if members.any fun member => member.1 = command.peer.peerId then
      members.setRole command.peer.peerId .learner
    else members ++ [(command.peer.peerId, .learner)]
  | .promoteLearner => members.setRole command.peer.peerId .voter
  | .removePeer => members.setRole command.peer.peerId .removed

end Members

/-! ## The replica -/

def Op.isConfChange (op : Op) : Bool :=
  match op.operation with
  | .confChange _ => true
  | _ => false

/-- A message in `applyChan`. -/
inductive Delivered
  | command (index : ℕ) (op : Op)
  | proposalRejected (op : Op)
  | snapshot (index : ℕ) (payload : SnapshotPayload)

/-- What a replica is started with; the peers of its Region have different ids. -/
structure MemberConfig where
  me : ℕ
  localPeerId : UInt64
  descriptor : RegionMetadata
  distinct : (descriptor.peers.map RegionPeerLocation.peerId).Nodup

/-- How far `ProposeConfChange` is; `m_confChangeMutex` lets one call in. -/
inductive ConfProposal
  | none
  /-- no change was in flight -/
  | unopposed (command : ConfChangeCommand)
  /-- and the epoch was that of the descriptor -/
  | current (command : ConfChangeCommand)

/-- The changes that a call still has to queue. -/
def ConfProposal.pending : ConfProposal → ℕ
  | .none => 0
  | .unopposed _ | .current _ => 1

structure Member where
  peer : RegionPeer
  localPeerId : UInt64
  members : Members
  leader : Bool := false
  removed : Bool := false
  lastSnapshotIncludeIndex : ℕ := 0
  /-- the entries after the snapshot -/
  logs : List Op := []
  commitIndex : ℕ := 0
  lastApplied : ℕ := 0
  proposeQueue : List Op := []
  confChangePendingInQueue : Bool := false
  applyChan : List Delivered := []
  adminConfChangeRequestId : Int32 := 1
  proposal : ConfProposal := .none

namespace Member

/-- `init` with the peers of the descriptor. -/
def create (config : MemberConfig) : Member where
  peer := RegionPeer.create config.me config.descriptor
  localPeerId := config.localPeerId
  members := config.descriptor.peers.map fun peer =>
    (peer.peerId, if peer.isLearner then .learner else .voter)

variable (m : Member)

def getLastLogIndex : ℕ := m.lastSnapshotIncludeIndex + m.logs.length

/-- The entries of the log with an index above `index`. -/
def entriesAfter (index : ℕ) : List Op := m.logs.drop (index - m.lastSnapshotIncludeIndex)

/-- The entries with an index above `lo` and up to `hi`. -/
def entriesBetween (lo hi : ℕ) : List Op :=
  (m.entriesAfter lo).take (hi - max lo m.lastSnapshotIncludeIndex)

def hasConfChangeInFlight : Bool :=
  m.confChangePendingInQueue || (m.entriesAfter m.lastApplied).any Op.isConfChange

/-- The `ConfChange` entries of the log that the state machine has not applied. -/
def unappliedConfChanges : ℕ :=
  (m.entriesAfter m.peer.stateMachineAppliedIndex).countP Op.isConfChange

def start (op : Op) : Member :=
  if m.removed ∨ ¬m.leader then m
  else
    { m with
      confChangePendingInQueue := m.confChangePendingInQueue || op.isConfChange
      proposeQueue := m.proposeQueue ++ [op] }

/-- `ProposeConfChange` up to `HasConfChangeInFlight`. -/
def proposeConfChange (command : ConfChangeCommand) : Member :=
  if m.hasConfChangeInFlight then m else { m with proposal := .unopposed command }

/-- `ProposeConfChange` under `m_descriptorMutex`. -/
def compareEpoch (command : ConfChangeCommand) : Member :=
  if command.expectedEpoch.any fun expected => expected ≠ m.peer.descriptor.epoch then
    { m with proposal := .none }
  else { m with proposal := .current command }

/-- `ProposeConfChange` from the request id to the answer. -/
def startConfChange (command : ConfChangeCommand) : Member :=
  { m with
    proposal := .none
    adminConfChangeRequestId := m.adminConfChangeRequestId + 1 }.start
      { operation := .confChange (some command)
        clientId := ascii "conf-change"
        requestId := m.adminConfChangeRequestId }

/-- The call of `ProposeConfChange` that is running goes on, if there is one. -/
def resumePropose : Option Member :=
  match m.proposal with
  | .none => none
  | .unopposed command => some (m.compareEpoch command)
  | .current command => some (m.startConfChange command)

/-- One round of `raftPollerTicker` with a batch of `count` proposals. -/
def poll (count : ℕ) : Member :=
  let batch := m.proposeQueue.take count
  let taken := { m with
    proposeQueue := m.proposeQueue.drop count
    confChangePendingInQueue := m.confChangePendingInQueue && !batch.any Op.isConfChange }
  if m.leader then { taken with logs := m.logs ++ batch }
  else { taken with applyChan := m.applyChan ++ batch.map .proposalRejected }

/-- One round of `applierTicker`; `none` for a failed assertion. -/
def deliver : Option Member :=
  if m.getLastLogIndex < m.commitIndex ∨
      m.lastApplied < m.commitIndex ∧ m.lastApplied < m.lastSnapshotIncludeIndex then none
  else
    let entries := (m.entriesAfter m.lastApplied).take (m.commitIndex - m.lastApplied)
    some { m with
      lastApplied := max m.lastApplied m.commitIndex
      applyChan := m.applyChan ++
        (entries.zipIdx (m.lastApplied + 1)).map fun (op, index) => .command index op }

/-- The membership change that `GetCommandFromRaft` makes for an entry: one that is not covered by a
snapshot, no duplicate, and made for the epoch of the descriptor. -/
def acceptedChange (peer : RegionPeer) (index : ℕ) (op : Op) : Option ConfChangeCommand :=
  if index ≤ peer.lastSnapShotRaftLogIndex ∨ peer.ifRequestDuplicate op.clientId op.requestId then
    none
  else
    match op.operation with
    | .confChange (some command) =>
      if (command.region peer.descriptor).isSome then some command else none
    | _ => none

/-- The effect of a membership change on the Raft object. -/
def changeRoles (command : ConfChangeCommand) : Member :=
  let targetIndex := m.members.findIdx? fun member => member.1 = command.peer.peerId
  let changed := { m with members := m.members.applyConfChange command }
  if command.changeType = .removePeer ∧ targetIndex.isSome ∧
      (command.peer.peerId = m.localPeerId ∨ targetIndex = some m.peer.me) then
    { changed with removed := true, leader := false }
  else changed

/-- The next message of the apply loop; `none` if there is none or the process ends. -/
def applyNext (env : PeerEnv) : Option Member :=
  match m.applyChan with
  | [] => none
  | .proposalRejected _ :: rest => some { m with applyChan := rest }
  | .snapshot index payload :: rest =>
    some { m with peer := m.peer.getSnapShotFromRaft index payload env, applyChan := rest }
  | .command index op :: rest =>
    match m.peer.applyCommand index op env with
    | none => none
    | some (_, _, peer) =>
      let changed := match acceptedChange m.peer index op with
        | some command => m.changeRoles command
        | none => m
      some { changed with peer := peer, applyChan := rest }

/-- The first messages if they are all commands. -/
def nextCommands (count : ℕ) : Option (List (ℕ × Op)) :=
  (m.applyChan.take count).mapM fun message =>
    match message with
    | .command index op => some (index, op)
    | _ => none

/-- `TryBatchApplyFromRaft` of the first messages; they stay if the batch is refused. -/
def applyBatch (count : ℕ) (env : PeerEnv) : Option Member :=
  (m.nextCommands count).map fun messages =>
    match m.peer.tryBatchApplyFromRaft messages env with
    | (true, peer) => { m with peer := peer, applyChan := m.applyChan.drop count }
    | (false, peer) => { m with peer := peer }

/-- `InstallSnapshot` of a complete snapshot. -/
def installSnapshot (index : ℕ) (payload : SnapshotPayload) : Member :=
  if index ≤ m.lastSnapshotIncludeIndex then m
  else
    { m with
      logs := m.entriesAfter index
      commitIndex := max m.commitIndex index
      lastApplied := max m.lastApplied index
      lastSnapshotIncludeIndex := index
      applyChan := m.applyChan ++ [.snapshot index payload] }

/-- `Raft::Snapshot` after the state machine has applied the entries up to `index`. -/
def compact (index : ℕ) : Member :=
  if m.lastSnapshotIncludeIndex < index ∧ index ≤ m.peer.stateMachineAppliedIndex ∧
      index ≤ m.lastApplied ∧ index ≤ m.commitIndex ∧ index ≤ m.getLastLogIndex then
    { m with logs := m.entriesAfter index, lastSnapshotIncludeIndex := index }
  else m

/-- The no-op that a new leader appends. -/
def noOp : Op := { operation := .raftNoop, clientId := [], requestId := 0 }

end Member

inductive MemberEvent
  | propose (command : ConfChangeCommand)
  /-- the call of `ProposeConfChange` takes its next lock -/
  | resume
  /-- any other proposal, such as that of `PutAppend` -/
  | start (op : Op)
  | poll (count : ℕ)
  | commit (index : ℕ)
  | deliver
  | apply (env : PeerEnv)
  | applyBatch (count : ℕ) (env : PeerEnv)
  | compact (index : ℕ)
  | elected
  | stepDown
  /-- entries of another leader replace what follows the first `keep` entries -/
  | appendEntries (keep : ℕ) (entries : List Op) (leaderCommit : ℕ)
  | installSnapshot (index : ℕ) (payload : SnapshotPayload)

namespace Member

/-- The step of an event, if it can happen. -/
def next (m : Member) : MemberEvent → Option Member
  | .propose command =>
    match m.proposal with
    | .none => some (m.proposeConfChange command)
    | _ => none
  | .resume => m.resumePropose
  | .start op => some (m.start op)
  | .poll count => if m.removed then none else some (m.poll count)
  | .commit index =>
    if m.commitIndex < index ∧ index ≤ m.getLastLogIndex then some { m with commitIndex := index }
    else none
  | .deliver => if m.removed then none else m.deliver
  | .apply env => if m.peer.stateMachineHealthy then m.applyNext env else none
  | .applyBatch count env => if m.peer.stateMachineHealthy then m.applyBatch count env else none
  | .compact index => some (m.compact index)
  | .elected =>
    if m.removed ∨ m.leader then none
    else some { m with leader := true, logs := m.logs ++ [noOp] }
  | .stepDown => some { m with leader := false }
  | .appendEntries keep entries leaderCommit =>
    if m.leader then none
    else
      let followed := { m with logs := m.logs.take keep ++ entries }
      some { followed with
        commitIndex := max m.commitIndex (min leaderCommit followed.getLastLogIndex) }
  | .installSnapshot index payload =>
    if m.leader then none else some (m.installSnapshot index payload)

/-- The membership change that the replica makes at an event. -/
def change? (m : Member) : MemberEvent → Option ConfChangeCommand
  | .apply _ =>
    match m.applyChan with
    | .command index op :: _ => acceptedChange m.peer index op
    | _ => none
  | _ => none

end Member

def memberSystem (config : MemberConfig) : TransitionSystem Member MemberEvent :=
  .ofPartial (Member.create config) Member.next

/-! ## Roles and voters -/

namespace Members

variable {members : Members} {peerId : UInt64} {role : PeerRole}

lemma role_cons (member : UInt64 × PeerRole) (rest : Members) (peerId : UInt64) :
    Members.role (member :: rest) peerId =
      if member.1 = peerId then some member.2 else Members.role rest peerId := by
  by_cases hfound : member.1 = peerId <;> simp [Members.role, hfound]

lemma setRole_cons (member : UInt64 × PeerRole) (rest : Members) (peerId : UInt64)
    (role : PeerRole) :
    setRole (member :: rest) peerId role = if member.1 = peerId then (member.1, role) :: rest
      else member :: setRole rest peerId role := by
  by_cases hfound : member.1 = peerId <;> simp [setRole, updateFirst, hfound]

lemma role_setRole (members : Members) (peerId other : UInt64) (role : PeerRole) :
    (members.setRole peerId role).role other =
      if other = peerId then (members.role peerId).map fun _ => role else members.role other := by
  induction members with
  | nil => simp [setRole, updateFirst, Members.role]
  | cons member rest ih =>
    rw [setRole_cons, role_cons member rest peerId, role_cons member rest other]
    by_cases hhead : member.1 = peerId
    · rw [if_pos hhead, if_pos hhead, role_cons, hhead]
      simp only [eq_comm, Option.map_some]
      split <;> rfl
    · rw [if_neg hhead, if_neg hhead, role_cons, ih]
      split
      · rename_i hother
        rw [if_neg fun h => hhead (hother.trans h)]
      · rfl

lemma role_append_new (hnew : (members.any fun member => member.1 = peerId) = false)
    (other : UInt64) :
    Members.role (members ++ [(peerId, role)]) other =
      if other = peerId then some role else members.role other := by
  induction members with
  | nil =>
    rw [nil_append, role_cons]
    simp only [eq_comm]
  | cons member rest ih =>
    simp only [any_cons, Bool.or_eq_false_iff, decide_eq_false_iff_not] at hnew
    rw [cons_append, role_cons, role_cons, ih hnew.2]
    split
    · rename_i hother
      rw [if_neg fun h => hnew.1 (hother.trans h)]
    · rfl

/-- The role that a change gives to its peer. -/
def newRole (command : ConfChangeCommand) (old : Option PeerRole) : Option PeerRole :=
  match command.changeType with
  | .addPeer => old
  | .addLearner => some .learner
  | .promoteLearner => old.map fun _ => .voter
  | .removePeer => old.map fun _ => .removed

lemma role_isSome_iff : (members.role peerId).isSome = true ↔
    (members.any fun member => member.1 = peerId) = true := by
  rw [Members.role, Option.isSome_map, find?_isSome, any_eq_true]

/-- A change gives its peer a role and leaves the others alone. -/
lemma role_applyConfChange (members : Members) (command : ConfChangeCommand) (other : UInt64) :
    (members.applyConfChange command).role other =
      if other = command.peer.peerId then newRole command (members.role other)
      else members.role other := by
  unfold applyConfChange newRole
  cases command.changeType with
  | addPeer => simp
  | addLearner =>
    dsimp only
    split
    · rename_i hany
      obtain ⟨old, hold⟩ := Option.isSome_iff_exists.1 (role_isSome_iff.2 hany)
      rw [role_setRole, hold]
      rfl
    · rename_i hnew
      exact role_append_new (Bool.eq_false_iff.2 hnew) other
  | promoteLearner | removePeer =>
    rw [role_setRole]
    split_ifs with heq
    · rw [heq]
    · rfl

lemma mem_voters : peerId ∈ members.voters ↔ members.role peerId = some .voter := by
  rw [voters, Finset.mem_filter, and_iff_right_iff_imp]
  intro hrole
  have hany := role_isSome_iff.1 (by rw [hrole]; rfl)
  obtain ⟨member, hmem, heq⟩ := any_eq_true.1 hany
  simp only [decide_eq_true_eq] at heq
  exact mem_toFinset.2 (mem_map.2 ⟨member, hmem, heq⟩)

/-- A change moves at most its own peer into or out of the voters. -/
lemma voters_applyConfChange (members : Members) (command : ConfChangeCommand) :
    (members.applyConfChange command).voters.erase command.peer.peerId =
      members.voters.erase command.peer.peerId := by
  ext other
  simp only [Finset.mem_erase, mem_voters, role_applyConfChange]
  refine and_congr_right fun hne => ?_
  rw [if_neg hne]

lemma keys_setRole (members : Members) (peerId : UInt64) (role : PeerRole) :
    (members.setRole peerId role).map fst = members.map fst := by
  induction members with
  | nil => rfl
  | cons member rest ih =>
    rw [setRole_cons]
    split
    · rfl
    · rw [map_cons, map_cons, ih]

section

variable (h : (members.map fst).Nodup)

include h

lemma nodup_applyConfChange {command : ConfChangeCommand} :
    ((members.applyConfChange command).map fst).Nodup := by
  unfold applyConfChange
  split
  · exact h
  · split_ifs with hnew
    · rwa [keys_setRole]
    · rw [map_append, nodup_append]
      refine ⟨h, nodup_singleton _, ?_⟩
      rintro a ha b hb rfl
      rw [map_singleton, mem_singleton] at hb
      obtain ⟨member, hmem, rfl⟩ := mem_map.1 ha
      exact hnew (any_eq_true.2 ⟨member, hmem, decide_eq_true hb⟩)
  · rwa [keys_setRole]
  · rwa [keys_setRole]

lemma role_eq_some_iff : members.role peerId = some role ↔ (peerId, role) ∈ members := by
  induction members with
  | nil => simp [Members.role]
  | cons member rest ih =>
    obtain ⟨hnew, hrest⟩ := nodup_cons.1 h
    rw [role_cons, mem_cons]
    split_ifs with hhead
    · subst hhead
      rw [Option.some.injEq, Prod.ext_iff]
      constructor
      · intro heq
        exact Or.inl ⟨rfl, heq.symm⟩
      · rintro (⟨-, heq⟩ | hmem)
        · exact heq.symm
        · exact absurd (mem_map_of_mem hmem) hnew
    · rw [ih hrest, or_iff_right]
      rintro rfl
      exact hhead rfl

lemma card_voters : members.voters.card = members.getVoterCount := by
  have hvoters : members.voters =
      ((members.filter fun member => member.2 = .voter).map fst).toFinset := by
    ext peerId
    rw [mem_voters, role_eq_some_iff h, mem_toFinset, mem_map]
    constructor
    · intro hmem
      exact ⟨_, mem_filter.2 ⟨hmem, rfl⟩, rfl⟩
    · rintro ⟨⟨id, role⟩, hmem, rfl⟩
      obtain ⟨hmem, hrole⟩ := mem_filter.1 hmem
      rw [← of_decide_eq_true hrole]
      exact hmem
  have hnodup : ((members.filter fun member => member.2 = .voter).map fst).Nodup :=
    h.sublist (filter_sublist.map _)
  rw [hvoters, toFinset_card_of_nodup hnodup, length_map, getVoterCount, countP_eq_length_filter]

end

end Members

/-- Majorities of two sets that differ by at most one element have an element in common. -/
lemma majorities_intersect {α : Type*} [DecidableEq α] {V V' Q Q' : Finset α} {a : α}
    (hdiffer : V'.erase a = V.erase a) (hQ : Q ⊆ V) (hQ' : Q' ⊆ V')
    (hcard : V.card / 2 + 1 ≤ Q.card) (hcard' : V'.card / 2 + 1 ≤ Q'.card) : (Q ∩ Q').Nonempty := by
  by_contra hempty
  rw [Finset.not_nonempty_iff_eq_empty] at hempty
  -- the two majorities are disjoint parts of the union
  have hunion : Q.card + Q'.card ≤ (V ∪ V').card := by
    rw [← Finset.card_union_add_card_inter Q Q', hempty, Finset.card_empty, Nat.add_zero]
    exact Finset.card_le_card (Finset.union_subset_union hQ hQ')
  have herase : (V ∪ V').erase a = V.erase a := by
    rw [Finset.erase_union_distrib, hdiffer, Finset.union_self]
  have hsize : ∀ W : Finset α, W.erase a = V.erase a →
      W.card = (V.erase a).card + if a ∈ W then 1 else 0 := by
    intro W hW
    rw [← hW]
    split_ifs with hmem
    · rw [Finset.card_erase_add_one hmem]
    · rw [Finset.erase_eq_of_notMem hmem, Nat.add_zero]
  have hV := hsize V rfl
  have hV' := hsize V' hdiffer
  have hU := hsize (V ∪ V') herase
  by_cases ha : a ∈ V <;> by_cases ha' : a ∈ V' <;> simp only [Finset.mem_union, ha, ha', or_self,
    or_true, or_false, if_true, if_false] at hV hV' hU <;> omega

end StrataKV.Region
