import StrataKV.Region.Membership

/-!
# Safety of membership changes

What is in flight is counted from the last entry that was handed to the state machine and not from
the last one it applied, the count is over before the change is queued, and a role is changed
whatever it was before. So the guarantees of single membership changes need `SafeStep`: proposals
wait for the applies, a new leader has at most one change to queue or to apply, no voter is added again and no removed peer is promoted. The change of one peer at a
time needs no condition (`Members.voters_applyConfChange`).
-/

namespace StrataKV.Region

open Metadata Member List Members TransitionSystem RegionPeer

/-! ## Proposals in flight -/

namespace Member

variable {m : Member}

/-- The entries after an index are those up to a later one and those after that. -/
lemma countP_entriesAfter_le_add (m : Member) (lo hi : ℕ) :
    (m.entriesAfter lo).countP Op.isConfChange ≤ (m.entriesBetween lo hi).countP Op.isConfChange +
        (m.entriesAfter hi).countP Op.isConfChange := by
  have hsplit : (m.entriesAfter lo).countP Op.isConfChange =
      ((m.entriesAfter lo).take (hi - max lo m.lastSnapshotIncludeIndex)).countP Op.isConfChange +
        ((m.entriesAfter lo).drop (hi - max lo m.lastSnapshotIncludeIndex)).countP
          Op.isConfChange := by
    rw [← countP_append, take_append_drop]
  have hrest : ((m.entriesAfter lo).drop (hi - max lo m.lastSnapshotIncludeIndex)).countP
      Op.isConfChange ≤ (m.entriesAfter hi).countP Op.isConfChange := by
    rw [entriesAfter, drop_drop, entriesAfter]
    exact (drop_sublist_drop_left _ (by omega)).countP_le
  rw [entriesBetween]
  omega

/-- What is appended adds at most its own changes. -/
lemma countP_drop_append_le (n : ℕ) (logs batch : List Op) :
    ((logs ++ batch).drop n).countP Op.isConfChange ≤
      (logs.drop n).countP Op.isConfChange + batch.countP Op.isConfChange := by
  rw [drop_append, countP_append]
  have hle := (drop_sublist (n - logs.length) batch).countP_le (p := Op.isConfChange)
  omega

/-- The changes on their way into the log: checked by `ProposeConfChange`, or queued. -/
def waiting (m : Member) : ℕ := m.proposal.pending + m.proposeQueue.countP Op.isConfChange

/-- A leader waits for one membership change at most, checked, queued or in the log; the flag tells
whether one is queued. -/
structure Inv (m : Member) : Prop where
  distinct : (m.members.map Prod.fst).Nodup
  waits : m.waiting ≤ 1
  flagged : m.confChangePendingInQueue = false → m.proposeQueue.countP Op.isConfChange = 0
  single : m.leader = true → m.waiting + m.unappliedConfChanges ≤ 1

end Member

/-- Proposals wait until the changes handed to the state machine are applied, no client proposes a
change as if it were a write, and a replica is elected with at most one change that it has to queue
or to apply. -/
def Timely (m : Member) : MemberEvent → Prop
  | .propose _ =>
    (m.entriesBetween m.peer.stateMachineAppliedIndex m.lastApplied).any Op.isConfChange = false
  | .start op => op.isConfChange = false
  | .elected => m.waiting + m.unappliedConfChanges ≤ 1
  | _ => True

/-- No voter is added as a learner, and no removed peer is promoted. -/
def FitsRole (members : Members) (command : ConfChangeCommand) : Prop :=
  match command.changeType with
  | .addLearner => members.role command.peer.peerId ≠ some .voter
  | .promoteLearner => members.role command.peer.peerId ≠ some .removed
  | .addPeer | .removePeer => True

def SafeStep (m : Member) (event : MemberEvent) : Prop :=
  Timely m event ∧ ∀ command ∈ m.change? event, FitsRole m.members command

instance (m : Member) (event : MemberEvent) : Decidable (Timely m event) := by
  unfold Timely
  cases event <;> infer_instance

instance (members : Members) (command : ConfChangeCommand) :
    Decidable (FitsRole members command) := by
  unfold FitsRole
  cases command.changeType <;> infer_instance

instance (m : Member) (event : MemberEvent) : Decidable (SafeStep m event) :=
  inferInstanceAs (Decidable (_ ∧ ∀ command ∈ m.change? event, FitsRole m.members command))

namespace Member

variable {m m' : Member} {event : MemberEvent}

lemma countP_eq_zero_of_any {ops : List Op} (h : ops.any Op.isConfChange = false) :
    ops.countP Op.isConfChange = 0 := by
  rw [countP_eq_zero]
  intro op hop hconf
  rw [any_eq_false] at h
  exact h op hop hconf

/-- Only the waiting changes, the log and the applied index matter for what is in flight. -/
lemma Inv.of_eq (h : m.Inv) (hmembers : (m'.members.map Prod.fst).Nodup)
    (hproposal : m'.proposal = m.proposal) (hqueue : m'.proposeQueue = m.proposeQueue)
    (hflag : m'.confChangePendingInQueue = m.confChangePendingInQueue)
    (hsingle : m'.leader = true → m.leader = true ∧
      m'.unappliedConfChanges ≤ m.unappliedConfChanges) : m'.Inv := by
  have hwaiting : m'.waiting = m.waiting := by rw [waiting, waiting, hproposal, hqueue]
  refine ⟨hmembers, hwaiting.le.trans h.waits, ?_, fun hleader => ?_⟩
  · rw [hqueue, hflag]
    exact h.flagged
  · obtain ⟨hled, hle⟩ := hsingle hleader
    have hold := h.single hled
    omega

/-- After the check nothing is queued, nothing is in the log after the delivered entries, and by the
guard nothing is between the applied and the delivered ones. -/
lemma Inv.propose (h : m.Inv) {command : ConfChangeCommand}
    (hsafe : (m.entriesBetween m.peer.stateMachineAppliedIndex m.lastApplied).any
      Op.isConfChange = false) : (m.proposeConfChange command).Inv := by
  unfold proposeConfChange
  split
  · exact h
  rename_i hclear
  have hflight := Bool.eq_false_iff.2 hclear
  rw [hasConfChangeInFlight, Bool.or_eq_false_iff] at hflight
  have hqueue := h.flagged hflight.1
  have hbetween := countP_eq_zero_of_any hsafe
  have hafter := countP_eq_zero_of_any hflight.2
  have hle := m.countP_entriesAfter_le_add m.peer.stateMachineAppliedIndex m.lastApplied
  have hwaiting : ({ m with proposal := .unopposed command } : Member).waiting = 1 := by
    simp [waiting, ConfProposal.pending, hqueue]
  refine ⟨h.distinct, hwaiting.le, h.flagged, fun _ => ?_⟩
  change _ + m.unappliedConfChanges ≤ 1
  rw [hwaiting, unappliedConfChanges]
  omega

lemma Inv.dropProposal (h : m.Inv) (requestId : Int32) :
    ({ m with proposal := .none, adminConfChangeRequestId := requestId } : Member).Inv := by
  have hle : m.proposeQueue.countP Op.isConfChange ≤ m.waiting := Nat.le_add_left _ _
  have hwaiting : ({ m with proposal := .none, adminConfChangeRequestId := requestId } :
      Member).waiting = m.proposeQueue.countP Op.isConfChange := Nat.zero_add _
  refine ⟨h.distinct, hwaiting.le.trans (hle.trans h.waits), h.flagged, fun hleader => ?_⟩
  have hold := h.single hleader
  change _ + m.unappliedConfChanges ≤ 1
  omega

lemma Inv.compareEpoch (h : m.Inv) {command : ConfChangeCommand}
    (hunopposed : m.proposal = .unopposed command) : (m.compareEpoch command).Inv := by
  unfold Member.compareEpoch
  split
  · exact h.dropProposal m.adminConfChangeRequestId
  · have hsame : ({ m with proposal := .current command } : Member).waiting = m.waiting := by
      rw [waiting, waiting, hunopposed]
      rfl
    exact ⟨h.distinct, hsame.le.trans h.waits, h.flagged, fun hleader =>
      (Nat.add_le_add_right hsame.le _).trans (h.single hleader)⟩

/-- The change that was checked is queued, or dropped by a replica that does not lead. -/
lemma Inv.startConfChange (h : m.Inv) {command : ConfChangeCommand}
    (hcurrent : m.proposal = .current command) : (m.startConfChange command).Inv := by
  unfold Member.startConfChange start
  split
  · exact h.dropProposal _
  · have hpushed : 0 + (m.proposeQueue ++ [({ operation := .confChange (some command)
                                              clientId := ascii "conf-change"
                                              requestId := m.adminConfChangeRequestId } :
        Op)]).countP Op.isConfChange = m.waiting := by
      rw [countP_append, waiting, hcurrent, Nat.zero_add, Nat.add_comm]
      rfl
    refine ⟨h.distinct, hpushed.le.trans h.waits, ?_, fun hleader =>
      (Nat.add_le_add_right hpushed.le _).trans (h.single hleader)⟩
    intro hflag
    simp [Op.isConfChange] at hflag

lemma Inv.resume (h : m.Inv) (hstep : m.resumePropose = some m') : m'.Inv := by
  unfold resumePropose at hstep
  split at hstep
  · cases hstep
  · cases hstep
    exact h.compareEpoch ‹_›
  · cases hstep
    exact h.startConfChange ‹_›

lemma Inv.start (h : m.Inv) {op : Op} (hop : op.isConfChange = false) : (m.start op).Inv := by
  unfold Member.start
  split
  · exact h
  have hcount : (m.proposeQueue ++ [op]).countP Op.isConfChange =
      m.proposeQueue.countP Op.isConfChange := by
    rw [countP_append]
    simp [hop]
  have hwaiting : m.proposal.pending + (m.proposeQueue ++ [op]).countP Op.isConfChange =
      m.waiting := by rw [hcount, waiting]
  refine ⟨h.distinct, hwaiting.le.trans h.waits, ?_, fun hleader => ?_⟩
  · intro hflag
    rw [Bool.or_eq_false_iff] at hflag
    exact hcount.trans (h.flagged hflag.1)
  · exact (Nat.add_le_add_right hwaiting.le _).trans (h.single hleader)

lemma Inv.poll (h : m.Inv) (count : ℕ) : (m.poll count).Inv := by
  have hsplit : (m.proposeQueue.take count).countP Op.isConfChange +
      (m.proposeQueue.drop count).countP Op.isConfChange =
        m.proposeQueue.countP Op.isConfChange := by
    rw [← countP_append, take_append_drop]
  have hqueued := h.waits
  rw [waiting] at hqueued
  have hflagged : (m.confChangePendingInQueue &&
      !(m.proposeQueue.take count).any Op.isConfChange) = false →
      (m.proposeQueue.drop count).countP Op.isConfChange = 0 := by
    intro hflag
    rcases Bool.and_eq_false_iff.1 hflag with hflag | hany
    · have hzero := h.flagged hflag
      omega
    · -- the one change of the queue was taken
      have hpos : 0 < (m.proposeQueue.take count).countP Op.isConfChange := by
        rw [countP_pos_iff]
        simpa using hany
      omega
  unfold Member.poll
  split_ifs with hleader
  · refine ⟨h.distinct, by dsimp only [waiting]; omega, hflagged, fun _ => ?_⟩
    have hold := h.single hleader
    have happend := countP_drop_append_le
      (m.peer.stateMachineAppliedIndex - m.lastSnapshotIncludeIndex) m.logs
      (m.proposeQueue.take count)
    simp only [waiting, unappliedConfChanges, entriesAfter] at hold ⊢
    omega
  · exact ⟨h.distinct, by dsimp only [waiting]; omega, hflagged, fun hled => absurd hled hleader⟩

lemma changeRoles_eq (m : Member) (command : ConfChangeCommand) :
    ∃ removed leader, m.changeRoles command =
      { m with
        members := m.members.applyConfChange command
        removed := removed
        leader := leader } ∧ (leader = true → m.leader = true) := by
  unfold changeRoles
  dsimp only
  split
  · exact ⟨true, false, rfl, by simp⟩
  · exact ⟨m.removed, m.leader, rfl, id⟩

/-- All that the next message of the apply loop can change. -/
lemma applyNext_eq {env : PeerEnv} (h : m.applyNext env = some m') : ∃ peer removed leader rest,
      m' = { m with
        peer := peer
        members := match m.change? (.apply env) with
          | some command => m.members.applyConfChange command
          | none => m.members
        removed := removed
        leader := leader
        applyChan := rest } ∧ (leader = true → m.leader = true) ∧
      m.peer.stateMachineAppliedIndex ≤ peer.stateMachineAppliedIndex := by
  unfold applyNext at h
  split at h
  · cases h
  · rename_i op rest hchan
    cases h
    refine ⟨m.peer, m.removed, m.leader, rest, ?_, id, le_rfl⟩
    simp [change?, hchan]
  -- a snapshot changes no membership
  · rename_i index payload rest hchan
    cases h
    refine ⟨m.peer.getSnapShotFromRaft index payload env, m.removed, m.leader, rest, ?_, id, ?_⟩
    · simp [change?, hchan]
    · unfold getSnapShotFromRaft
      split
      · exact le_rfl
      · exact le_max_left _ _
  · rename_i index op rest hchan
    split at h
    · cases h
    · rename_i succeeded status peer happly
      have hprogress : m.peer.stateMachineAppliedIndex ≤ peer.stateMachineAppliedIndex := by
        have heq := congrArg Prod.fst (applyCommand_progress happly)
        cases succeeded with
        | true => exact (le_max_left _ _).trans heq.ge
        | false => exact heq.ge
      have hchange : m.change? (.apply env) = acceptedChange m.peer index op := by
        simp [change?, hchan]
      rw [hchange]
      cases haccepted : acceptedChange m.peer index op with
      | none =>
        rw [haccepted] at h
        cases h
        exact ⟨peer, m.removed, m.leader, rest, rfl, id, hprogress⟩
      | some command =>
        rw [haccepted] at h
        cases h
        obtain ⟨removed, leader, heq, hleader⟩ := m.changeRoles_eq command
        refine ⟨peer, removed, leader, rest, ?_, hleader, hprogress⟩
        dsimp only
        rw [heq]

lemma applyBatch_eq {count : ℕ} {env : PeerEnv} (h : m.applyBatch count env = some m') :
    ∃ peer chan, m' = { m with peer := peer, applyChan := chan } ∧
      m.peer.stateMachineAppliedIndex ≤ peer.stateMachineAppliedIndex := by
  obtain ⟨messages, -, rfl⟩ := Option.map_eq_some_iff.1 h
  rcases happly : m.peer.tryBatchApplyFromRaft messages env with ⟨applied, peer⟩
  cases applied with
  | true =>
    have heq := congrArg Prod.fst (tryBatchApplyFromRaft_progress happly)
    exact ⟨peer, _, rfl, (le_max_left _ _).trans heq.ge⟩
  | false =>
    have heq := congrArg Prod.fst (tryBatchApplyFromRaft_progress_of_refused happly)
    exact ⟨peer, m.applyChan, rfl, heq.ge⟩

/-- The entries after an index do not depend on how far the log was compacted before it. -/
lemma unapplied_compact (m : Member) (index : ℕ) :
    (m.compact index).unappliedConfChanges = m.unappliedConfChanges := by
  unfold compact
  split_ifs with h
  · simp only [unappliedConfChanges, entriesAfter, drop_drop]
    congr 2
    omega
  · rfl

/-- The members change only when a membership change is applied. -/
lemma members_next (h : m.next event = some m') :
    m'.members = match m.change? event with
      | some command => m.members.applyConfChange command
      | none => m.members := by
  cases event with
  | apply env =>
    simp only [next] at h
    split at h
    · obtain ⟨peer, removed, leader, rest, rfl, -, -⟩ := applyNext_eq h
      rfl
    · cases h
  | applyBatch count env =>
    simp only [next] at h
    split at h
    · obtain ⟨peer, chan, rfl, -⟩ := applyBatch_eq h
      rfl
    · cases h
  | propose command =>
    simp only [next] at h
    split at h
    · cases h
      simp only [change?, proposeConfChange]
      split_ifs <;> rfl
    · cases h
  | resume =>
    simp only [next, resumePropose] at h
    split at h <;> cases h
    · simp only [change?, compareEpoch]
      split_ifs <;> rfl
    · simp only [change?, startConfChange, start]
      split_ifs <;> rfl
  | start op =>
    cases h
    simp only [change?, start]
    split_ifs <;> rfl
  | poll count =>
    simp only [next] at h
    split_ifs at h
    cases h
    simp only [change?, poll]
    split_ifs <;> rfl
  | deliver =>
    simp only [next, deliver] at h
    split_ifs at h
    cases h
    rfl
  | compact index =>
    cases h
    simp only [change?, compact]
    split_ifs <;> rfl
  | installSnapshot index payload =>
    simp only [next] at h
    split_ifs at h
    cases h
    simp only [change?, installSnapshot]
    split_ifs <;> rfl
  -- the rest does not touch the configuration
  | stepDown =>
    cases h
    rfl
  | commit index | elected | appendEntries keep entries leaderCommit =>
    simp only [next] at h
    split_ifs at h
    cases h
    rfl

lemma Inv.create (config : MemberConfig) : (create config).Inv where
  distinct := by
    rw [Member.create, map_map]
    exact config.distinct
  waits := Nat.zero_le _
  flagged := fun _ => rfl
  single := by
    intro hleader
    cases hleader

lemma Inv.distinct_next (h : m.Inv) (hstep : m.next event = some m') :
    (m'.members.map Prod.fst).Nodup := by
  rw [members_next hstep]
  split
  · exact nodup_applyConfChange h.distinct
  · exact h.distinct

/-- What the state machine has still to apply only gets less as it goes on. -/
lemma unapplied_le_of_applied {peer : RegionPeer}
    (hle : m.peer.stateMachineAppliedIndex ≤ peer.stateMachineAppliedIndex) :
    (m.entriesAfter peer.stateMachineAppliedIndex).countP Op.isConfChange ≤
      m.unappliedConfChanges :=
  (drop_sublist_drop_left _ (by omega)).countP_le

lemma Inv.apply (h : m.Inv) {env : PeerEnv} (hstep : m.next (.apply env) = some m') : m'.Inv := by
  have hdistinct := h.distinct_next hstep
  simp only [Member.next] at hstep
  split at hstep
  · obtain ⟨peer, removed, leader, rest, rfl, hleader, hle⟩ := applyNext_eq hstep
    exact h.of_eq hdistinct rfl rfl rfl fun hled => ⟨hleader hled, unapplied_le_of_applied hle⟩
  · cases hstep

lemma Inv.applyBatch (h : m.Inv) {count : ℕ} {env : PeerEnv}
    (hstep : m.next (.applyBatch count env) = some m') : m'.Inv := by
  simp only [Member.next] at hstep
  split at hstep
  · obtain ⟨peer, chan, rfl, hle⟩ := applyBatch_eq hstep
    exact h.of_eq h.distinct rfl rfl rfl fun hled => ⟨hled, unapplied_le_of_applied hle⟩
  · cases hstep

lemma Inv.compact (h : m.Inv) (index : ℕ) : (m.compact index).Inv := by
  have hunapplied := m.unapplied_compact index
  unfold Member.compact at hunapplied ⊢
  split_ifs at hunapplied ⊢
  · exact h.of_eq h.distinct rfl rfl rfl fun hled => ⟨hled, hunapplied.le⟩
  · exact h

/-- The no-op of a new leader is no membership change. -/
lemma Inv.elected (h : m.Inv) (hsafe : m.waiting + m.unappliedConfChanges ≤ 1) :
    ({ m with leader := true, logs := m.logs ++ [noOp] } : Member).Inv := by
  have hnoOp := countP_drop_append_le
    (m.peer.stateMachineAppliedIndex - m.lastSnapshotIncludeIndex) m.logs [noOp]
  have hzero : [noOp].countP Op.isConfChange = 0 := rfl
  refine ⟨h.distinct, h.waits, h.flagged, fun _ => ?_⟩
  simp only [waiting, unappliedConfChanges, entriesAfter] at hsafe ⊢
  omega

/-- What a replica that does not lead has in its log is free. -/
lemma Inv.installSnapshot (h : m.Inv) (hfollows : ¬m.leader = true) (index : ℕ)
    (payload : SnapshotPayload) : (m.installSnapshot index payload).Inv := by
  unfold Member.installSnapshot
  split
  · exact h
  · exact h.of_eq h.distinct rfl rfl rfl fun hled => absurd hled hfollows

lemma Inv.next (h : m.Inv) (hsafe : SafeStep m event) (hstep : m.next event = some m') :
    m'.Inv := by
  cases event with
  | apply env => exact h.apply hstep
  | applyBatch count env => exact h.applyBatch hstep
  | resume => exact h.resume hstep
  | start op =>
    cases hstep
    exact h.start hsafe.1
  | compact index =>
    cases hstep
    exact h.compact index
  | stepDown =>
    cases hstep
    exact h.of_eq h.distinct rfl rfl rfl (by simp)
  | propose command =>
    simp only [Member.next] at hstep
    split at hstep
    · cases hstep
      exact h.propose hsafe.1
    · cases hstep
  | poll count =>
    simp only [Member.next] at hstep
    split_ifs at hstep
    cases hstep
    exact h.poll count
  | deliver =>
    simp only [Member.next, deliver] at hstep
    split_ifs at hstep
    cases hstep
    exact h.of_eq h.distinct rfl rfl rfl fun hled => ⟨hled, le_rfl⟩
  | commit index =>
    simp only [Member.next] at hstep
    split_ifs at hstep
    cases hstep
    exact h.of_eq h.distinct rfl rfl rfl fun hled => ⟨hled, le_rfl⟩
  | elected =>
    simp only [Member.next] at hstep
    split_ifs at hstep
    cases hstep
    exact h.elected hsafe.1
  | appendEntries keep entries leaderCommit =>
    simp only [Member.next] at hstep
    split_ifs at hstep with hfollows
    cases hstep
    exact h.of_eq h.distinct rfl rfl rfl fun hled => absurd hled hfollows
  | installSnapshot index payload =>
    simp only [Member.next] at hstep
    split_ifs at hstep with hfollows
    cases hstep
    exact h.installSnapshot hfollows index payload

lemma inv_of_reachable {config : MemberConfig} (h : (memberSystem config).Reachable SafeStep m) :
    m.Inv := by
  refine h.invariant ?_ ?_
  · rintro _ rfl
    exact .create config
  · intro m event m' hm hsafe hstep
    exact hm.next hsafe hstep

/-! ## Safety -/

/-- Two sets of voters with their quorums. -/
lemma quorums_intersect (h : m.Inv) (h' : m'.Inv) {peerId : UInt64} {Q Q' : Finset UInt64}
    (hdiffer : m'.members.voters.erase peerId = m.members.voters.erase peerId)
    (hQ : Q ⊆ m.members.voters) (hQ' : Q' ⊆ m'.members.voters)
    (hcard : m.members.getQuorum ≤ Q.card) (hcard' : m'.members.getQuorum ≤ Q'.card) :
    (Q ∩ Q').Nonempty := by
  rw [getQuorum, ← card_voters h.distinct] at hcard
  rw [getQuorum, ← card_voters h'.distinct] at hcard'
  exact majorities_intersect hdiffer hQ hQ' hcard hcard'

/-- A step moves at most one peer into or out of the voters. -/
lemma voters_next (hstep : m.next event = some m') :
    ∃ peerId, m'.members.voters.erase peerId = m.members.voters.erase peerId := by
  rw [members_next hstep]
  split
  · exact ⟨_, voters_applyConfChange _ _⟩
  · exact ⟨0, rfl⟩

/-- What a safe step does to the role of a peer. -/
lemma role_next (hsafe : SafeStep m event) (hstep : m.next event = some m') (peerId : UInt64) :
    m'.members.role peerId = m.members.role peerId ∨
    (∃ command, m.change? event = some command ∧ command.peer.peerId = peerId ∧
      (command.changeType = .addLearner ∧ m.members.role peerId ≠ some .voter ∧
          m'.members.role peerId = some .learner ∨
        command.changeType = .promoteLearner ∧ m.members.role peerId ≠ some .removed ∧
          m'.members.role peerId = some .voter ∨ m'.members.role peerId = some .removed)) := by
  rw [members_next hstep]
  cases hchange : m.change? event with
  | none => exact .inl rfl
  | some command =>
    rw [role_applyConfChange]
    split_ifs with hpeer
    · subst hpeer
      have hrole := hsafe.2 command hchange
      unfold FitsRole at hrole
      unfold newRole
      cases htype : command.changeType with
      | addPeer => exact .inl rfl
      | addLearner =>
        rw [htype] at hrole
        exact .inr ⟨command, rfl, rfl, .inl ⟨htype, hrole, rfl⟩⟩
      | promoteLearner =>
        rw [htype] at hrole
        cases hold : m.members.role command.peer.peerId with
        | none => exact .inl rfl
        | some old =>
          rw [hold] at hrole
          exact .inr ⟨command, rfl, rfl, .inr (.inl ⟨htype, hrole, rfl⟩)⟩
      | removePeer =>
        cases hold : m.members.role command.peer.peerId with
        | none => exact .inl rfl
        | some old => exact .inr ⟨command, rfl, rfl, .inr (.inr rfl)⟩
    · exact .inl rfl

/-- The replica adds the peer at the event. -/
def adds (m : Member) (event : MemberEvent) (peerId : UInt64) : Bool :=
  (m.change? event).any fun command =>
    command.changeType = .addLearner && command.peer.peerId = peerId

end Member

/-- In every run whose steps are safe a leader has at most one membership change in its log that it
has not applied, consecutive sets of voters differ by at most one and have no disjoint quorums, no
voter becomes a learner, and a removed peer becomes no voter unless it is added. -/
theorem membership_changes_safe {config : MemberConfig} {m : Member}
    (h : (memberSystem config).Reachable SafeStep m) :
    (m.leader = true → m.unappliedConfChanges ≤ 1) ∧
    (∀ event m', SafeStep m event → (memberSystem config).step m event m' →
      (∃ peerId, m'.members.voters.erase peerId = m.members.voters.erase peerId) ∧
      (∀ Q ⊆ m.members.voters, ∀ Q' ⊆ m'.members.voters, m.members.getQuorum ≤ Q.card →
        m'.members.getQuorum ≤ Q'.card → (Q ∩ Q').Nonempty) ∧
      ∀ peerId, m.members.role peerId = some .voter → m'.members.role peerId ≠ some .learner) ∧
    ∀ m' peerId, m.members.role peerId = some .removed →
      (memberSystem config).Reaches (fun m event => SafeStep m event ∧ m.adds event peerId = false)
        m m' → m'.members.role peerId ≠ some .voter := by
  have hinv := inv_of_reachable h
  refine ⟨fun hleader => ?_, fun event m' hsafe hstep => ⟨?_, ?_, ?_⟩, ?_⟩
  · have hsingle := hinv.single hleader
    omega
  · exact voters_next hstep
  · intro Q hQ Q' hQ' hcard hcard'
    obtain ⟨peerId, hdiffer⟩ := voters_next hstep
    exact quorums_intersect hinv (hinv.next hsafe hstep) hdiffer hQ hQ' hcard hcard'
  · intro peerId hvoter hlearner
    rcases role_next hsafe hstep peerId with heq | ⟨command, -, -, hcases⟩
    · rw [heq, hvoter] at hlearner
      cases hlearner
    · rcases hcases with ⟨-, hnot, -⟩ | ⟨-, -, heq⟩ | heq
      · exact hnot hvoter
      · rw [heq] at hlearner
        cases hlearner
      · rw [heq] at hlearner
        cases hlearner
  · intro m' peerId hremoved hrun
    have hkept : m'.members.role peerId = some .removed := by
      refine hrun.stable (I := fun m => m.members.role peerId = some .removed) ?_ hremoved
      rintro m event m' hm ⟨hsafe, hadds⟩ hstep
      rw [← Bool.not_eq_true] at hadds
      rcases role_next hsafe hstep peerId with heq | ⟨command, hchange, hpeer, hcases⟩
      · rw [heq, hm]
      · rcases hcases with ⟨htype, -, -⟩ | ⟨-, hnot, -⟩ | heq
        · exact absurd (by simp [adds, hchange, htype, hpeer]) hadds
        · exact absurd hm hnot
        · exact heq
    rw [hkept]
    decide

/-! ## Runs -/

/-- Three voters, seen from the first one. -/
def threeVoters : MemberConfig where
  me := 0
  localPeerId := 1
  descriptor := { peers := [{ peerId := 1 }, { peerId := 2 }, { peerId := 3 }] }
  distinct := by decide

/-- A change is proposed, appended at `index`, committed and handed to the state machine. -/
def changeEvents (index : ℕ) (changeType : ConfChangeType) (peerId : UInt64) : List MemberEvent :=
  [.propose { changeType := changeType, peer := { peerId := peerId } }, .resume, .resume, .poll 1,
    .commit index, .deliver]

/-- An apply for which the engine is fine. -/
def applyEvent : MemberEvent := .apply ⟨⟨0, true⟩, 0⟩

/-- A leader adds a learner and promotes it. -/
def promotionEvents : List MemberEvent :=
  [.elected] ++ changeEvents 2 .addLearner 4 ++ [applyEvent, applyEvent] ++
    changeEvents 3 .promoteLearner 4

theorem membership_changes_promotionEvents :
    ∃ m, (memberSystem threeVoters).Reachable SafeStep m ∧ m.leader = true ∧
      m.unappliedConfChanges = 1 ∧
      ∀ m', m.next applyEvent = some m' → ∀ Q ⊆ m.members.voters, ∀ Q' ⊆ m'.members.voters,
        m.members.getQuorum ≤ Q.card → m'.members.getQuorum ≤ Q'.card → (Q ∩ Q').Nonempty := by
  have hrun : Ends next SafeStep
      (fun m => (m.leader = true ∧ m.unappliedConfChanges = 1) ∧ SafeStep m applyEvent)
      (create threeVoters) promotionEvents := by decide
  obtain ⟨m, hreach, ⟨hleader, hone⟩, hsafe⟩ := hrun.exists_reachable
  exact ⟨m, hreach, hleader, hone, fun m' hstep =>
    ((membership_changes_safe hreach).2.1 applyEvent m' hsafe hstep).2.1⟩

/-- Each of three guarantees fails without the conditions: a leader gets a second change into its log
before it has applied the first, a voter is added as a learner, and a removed peer is promoted. -/
theorem membership_changes_unsafe : (¬∀ (config : MemberConfig) (m : Member),
      (memberSystem config).Reachable TransitionSystem.anyStep m →
        m.leader = true → m.unappliedConfChanges ≤ 1) ∧
    (¬∀ (config : MemberConfig) (m : Member) (event : MemberEvent) (m' : Member),
      (memberSystem config).Reachable TransitionSystem.anyStep m →
        (memberSystem config).step m event m' → ∀ peerId, m.members.role peerId = some .voter →
          m'.members.role peerId ≠ some .learner) ∧
    ¬∀ (config : MemberConfig) (m m' : Member) (peerId : UInt64),
      (memberSystem config).Reachable TransitionSystem.anyStep m →
        m.members.role peerId = some .removed →
        (memberSystem config).Reaches (fun m event => m.adds event peerId = false) m m' →
        m'.members.role peerId ≠ some .voter := by
  refine ⟨fun h => ?_, fun h => ?_, fun h => ?_⟩
  · have hrun : Ends next anyStep
        (fun m => m.leader = true ∧ m.unappliedConfChanges = 2) (create threeVoters)
        ([.elected] ++ changeEvents 2 .addLearner 4 ++ changeEvents 3 .addLearner 5) := by decide
    obtain ⟨m, hreach, hleader, htwo⟩ := hrun.exists_reachable
    have hle := h threeVoters m hreach hleader
    omega
  · have hrun : Ends next anyStep (fun m => m.members.role 2 = some .voter ∧
          (m.next applyEvent).any (fun m' => m'.members.role 2 = some .learner) = true)
        (create threeVoters)
        ([.elected] ++ changeEvents 2 .addLearner 2 ++ [applyEvent]) := by decide
    obtain ⟨m, hreach, hvoter, hnext⟩ := hrun.exists_reachable
    obtain ⟨m', hstep, hlearner⟩ := (Option.any_eq_true _ _).1 hnext
    exact h threeVoters m applyEvent m' hreach hstep 2 hvoter (of_decide_eq_true hlearner)
  · have hrun : Ends next anyStep (fun m => m.members.role 2 = some .removed ∧
          Ends next (fun m event => m.adds event 2 = false)
            (fun m => m.members.role 2 = some .voter) m
            (changeEvents 3 .promoteLearner 2 ++ [applyEvent]))
        (create threeVoters)
        ([.elected] ++ changeEvents 2 .removePeer 2 ++ [applyEvent, applyEvent]) := by decide
    obtain ⟨m, hreach, hremoved, hagain⟩ := hrun.exists_reachable
    obtain ⟨m', hrun', hvoter⟩ := hagain.exists_reaches
    exact h threeVoters m m' 2 hreach hremoved hrun' hvoter

end StrataKV.Region
