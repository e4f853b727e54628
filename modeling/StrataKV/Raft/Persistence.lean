import StrataKV.Raft.Safety

/-!
# The Raft state on disk follows the one in memory

Every function of `raft/raft.cpp` that changes the term, the vote, the log or the boundary of the
snapshot persists them before it releases the mutex, except one: `HandleAppendEntriesReply` takes a
higher term and leaves the old one on disk.

The incremental write of `AppendEntries1` and `raftPollerTicker` relies on what was written before.
-/

namespace StrataKV.Raft

open TransitionSystem Option Cluster Node

variable {n : ℕ}

/-- What the persister holds is what is in memory. -/
structure Node.Saved (r : Node n) : Prop where
  currentTerm : r.persisted.currentTerm = r.currentTerm
  votedFor : r.persisted.votedFor = r.votedFor
  lastSnapshotIncludeIndex : r.persisted.lastSnapshotIncludeIndex = r.lastSnapshotIncludeIndex
  lastSnapshotIncludeTerm : r.persisted.lastSnapshotIncludeTerm = r.lastSnapshotIncludeTerm
  logs : r.persisted.logs = r.logs

/-- `persistAppended`. `AppendRaftState` keeps the entries it has and takes the others from the tail;
it refuses if the stored state is not `binary`, or has another boundary or number of entries, and
then everything is written. -/
def Node.persistAppended (r : Node n) (binary : Bool) (oldLogSize : ℕ) : Node n :=
  if oldLogSize ≤ r.logs.length ∧ binary = true ∧
      r.persisted.lastSnapshotIncludeIndex = r.lastSnapshotIncludeIndex ∧
      r.persisted.logs.length = oldLogSize then
    { r with persisted :=
      { r.persist.persisted with logs := r.persisted.logs ++ r.logs.drop oldLogSize } }
  else r.persist

/-- The term of an answer to `AppendEntries`. -/
def ReplyBody.appendTerm : ReplyBody → ℕ
  | .appendEntries reply => reply.term
  | _ => 0

/-- No peer takes an answer to `AppendEntries` with a term above its own. -/
def KnownTerm (s : Cluster n) : Event n → Prop
  | .reply number => ∀ reply ∈ s.replies[number]?, ∀ request ∈ s.requests[reply.request]?,
      reply.body.appendTerm ≤ (s.nodes request.src).currentTerm
  | _ => True

instance (s : Cluster n) (event : Event n) : Decidable (KnownTerm s event) := by
  unfold KnownTerm
  induction event using Event.casesOn <;> infer_instance

/-! ## The terms of one peer -/

/-- The term on disk is the one in memory. What else is persisted is known of every run. -/
def Node.TermSaved (r : Node n) : Prop := r.persisted.currentTerm = r.currentTerm

namespace Node.TermSaved

variable {cfg : Config n} {me server : Fin n} {r r' : Node n} {args : AppendEntriesArgs n}
  {reply : AppendEntriesReply} {changed : Bool} (h : r.TermSaved)

/-- A change is saved at once. -/
lemma persistIf (h : changed = true ∨ r.TermSaved) : (r.persistIf changed).TermSaved := by
  cases changed with
  | true => rfl
  | false => exact h.resolve_left Bool.false_ne_true

/-- The loop over the entries leaves the term alone, and does not take back the flag. -/
lemma takeAll {entries : List LogEntry} {changed' : Bool} (h : changed = true ∨ r.TermSaved)
    (hfold : entries.foldlM appendEntry (r, changed) = some (r', changed')) :
    changed' = true ∨ r'.TermSaved := by
  induction entries generalizing r changed with
  | nil =>
    cases hfold
    exact h
  | cons entry entries ih =>
    obtain ⟨⟨r₁, changed₁⟩, hentry, hfold⟩ := bind_eq_some_iff.1 hfold
    refine ih ?_ hfold
    unfold appendEntry at hentry
    dsimp only at hentry
    split_ifs at hentry
    · cases hentry
      exact .inl rfl
    obtain ⟨sliceIndex, -, hentry⟩ := bind_eq_some_iff.1 hentry
    obtain ⟨old, -, hentry⟩ := bind_eq_some_iff.1 hentry
    split_ifs at hentry <;> cases hentry
    · exact h
    · exact .inl rfl

/-- The flag is set if the term is a new one. -/
lemma followEntries (h : changed = true ∨ r.TermSaved)
    (hstep : r.followEntries args changed = some (r', reply)) : r'.TermSaved := by
  unfold Node.followEntries at hstep
  split_ifs at hstep
  · cases hstep
    exact persistIf h
  · cases hstep
    exact persistIf h
  obtain ⟨agrees, -, hstep⟩ := bind_eq_some_iff.1 hstep
  split_ifs at hstep
  · unfold takeEntries at hstep
    obtain ⟨⟨r₁, changed₁⟩, hfold, hstep⟩ := bind_eq_some_iff.1 hstep
    have hloop := takeAll h hfold
    dsimp only at hstep
    split_ifs at hstep
    cases hstep
    exact persistIf hloop
  · obtain ⟨next, -, hstep⟩ := bind_eq_some_iff.1 hstep
    cases hstep
    exact persistIf h

include h

lemma finishElection : (r.finishElection cfg me).TermSaved := by
  unfold Node.finishElection
  split_ifs
  · dsimp only
    split <;> rfl
  · exact h

lemma requestVoteReplied {args : RequestVoteArgs n} {reply : RequestVoteReply}
    (hstep : r.requestVoteReplied cfg args server reply = some r') : r'.TermSaved := by
  unfold Node.requestVoteReplied at hstep
  dsimp only at hstep
  split_ifs at hstep <;> cases hstep
  all_goals first | rfl | exact h

lemma poll {count : ℕ} (hstep : r.poll cfg me count = some r') : r'.TermSaved := by
  unfold Node.poll at hstep
  dsimp only at hstep
  split_ifs at hstep
  · cases hstep
    exact h
  · cases hstep
    exact h
  · obtain ⟨r₁, -, hstep⟩ := bind_eq_some_iff.1 hstep
    cases hstep
    rfl

lemma appendEntries1 (hstep : r.appendEntries1 args = some (r', reply)) : r'.TermSaved := by
  unfold Node.appendEntries1 at hstep
  split_ifs at hstep
  · cases hstep
    exact h
  · exact followEntries (.inl rfl) hstep
  · have h : TermSaved { r with status := .follower } := h
    exact followEntries (.inr h) hstep

lemma handleAppendEntriesReply (hterm : reply.term ≤ r.currentTerm)
    (hstep : r.handleAppendEntriesReply cfg me server args reply = some r') : r'.TermSaved := by
  unfold Node.handleAppendEntriesReply at hstep
  rw [if_neg (Nat.not_lt.2 hterm)] at hstep
  split_ifs at hstep
  iterate 3
    · cases hstep
      exact h
  · split at hstep <;> cases hstep <;> exact h
  · dsimp only at hstep
    split_ifs at hstep
    obtain ⟨r₁, hcommit, hstep⟩ := bind_eq_some_iff.1 hstep
    split_ifs at hstep
    cases hstep
    rcases updateCommitIndexFrom_eq_some _ hcommit with rfl | ⟨i, rfl, -⟩ <;> exact h

lemma installSnapshot {args : InstallSnapshotArgs n} : (r.installSnapshot args).1.TermSaved := by
  have hfollow : (r.followSnapshot args).TermSaved := by
    unfold followSnapshot
    split_ifs
    · rfl
    · exact h
  unfold Node.installSnapshot
  dsimp only
  split_ifs
  all_goals first | exact h | exact hfollow | rfl

lemma snapshot {index : ℕ} {data : Bytes} (hstep : r.snapshot index data = some r') :
    r'.TermSaved := by
  unfold Node.snapshot at hstep
  split_ifs at hstep
  · cases hstep
    exact h
  · obtain ⟨sliceIndex, -, hstep⟩ := bind_eq_some_iff.1 hstep
    obtain ⟨entry, -, hstep⟩ := bind_eq_some_iff.1 hstep
    cases hstep
    split_ifs <;> rfl

end Node.TermSaved

/-! ## Runs -/

namespace Cluster

/-- The term of every peer is on disk. -/
def TermsSaved (s : Cluster n) : Prop := ∀ me, (s.nodes me).TermSaved

variable {cfg : Config n} {s : Cluster n} {me server : Fin n}

namespace TermsSaved

variable (h : s.TermsSaved)

include h

lemma setNode {r : Node n} (hr : r.TermSaved) : (s.setNode me r).TermsSaved :=
  (Function.forall_update_iff s.nodes fun _ r => r.TermSaved).2 ⟨hr, fun other _ => h other⟩

lemma run {r : Option (Node n)} (hr : ∀ r', r = some r' → r'.TermSaved) :
    (s.run me r).TermsSaved := by
  refine h.setNode ?_
  cases r with
  | none => rfl
  | some r => exact hr r rfl

lemma doElection : (s.doElection cfg me).TermsSaved := by
  have hbegin : ((s.nodes me).beginElection me).TermSaved := rfl
  unfold Cluster.doElection
  dsimp only
  split_ifs
  · exact h
  · exact h.setNode hbegin.finishElection
  · exact h.setNode hbegin.finishElection

/-- A replication worker goes on, or its process ends. -/
lemma worker : (s.replicate me server).TermsSaved ∧ (s.leaderSendSnapShot me server).TermsSaved ∧
    (s.sendChunk me server).TermsSaved ∧ (s.callFailed me server).TermsSaved := by
  unfold replicate leaderSendSnapShot sendChunk callFailed
  refine ⟨?_, ?_, ?_, ?_⟩ <;> dsimp only <;> repeat' split
  all_goals first | exact h | exact h.setNode (h me) | exact h.setNode rfl

variable {number : ℕ}

/-- The receiver has saved its term and vote before it answers. -/
lemma deliver {leaderContact : Bool} : (s.deliver cfg number leaderContact).TermsSaved := by
  unfold Cluster.deliver
  split
  · exact h
  dsimp only
  split_ifs
  · exact h
  split
  · refine h.setNode ?_
    unfold requestVote vote
    split_ifs <;> rfl
  · split
    · exact h.setNode rfl
    · rename_i hstep
      exact h.setNode ((h _).appendEntries1 hstep)
  · exact h.setNode (h _).installSnapshot

lemma installSnapshotCrash : (s.installSnapshotCrash number).TermsSaved := by
  unfold Cluster.installSnapshotCrash
  split
  · dsimp only
    split_ifs
    · exact h
    · exact h.setNode rfl
  · exact h

/-- The answers. This is the step that needs the terms to be known. -/
lemma reply (hknown : KnownTerm s (.reply number)) : (s.reply cfg number).TermsSaved := by
  unfold Cluster.reply
  split
  · exact h
  rename_i reply hreply
  split
  · exact h
  rename_i request hrequest
  have hterm := hknown reply hreply request hrequest
  dsimp only
  split
  · split_ifs
    · exact h
    · exact h.run fun _ hstep => (h _).requestVoteReplied hstep
  · rename_i hbody
    rw [hbody] at hterm
    split
    · split_ifs
      · exact h
      · have hidle : (setWorker (s.nodes request.src) request.dst .idle).TermSaved := h _
        exact h.run fun _ hstep => hidle.handleAppendEntriesReply hterm hstep
    · exact h
  · split
    · split_ifs
      · exact h
      · refine h.setNode ?_
        unfold chunkReplied
        split_ifs
        · exact h _
        · rfl
        · exact h _
    · exact h
  · exact h

lemma getApplyLogs : (s.getApplyLogs me).TermsSaved := by
  unfold Cluster.getApplyLogs
  dsimp only
  split_ifs
  · split
    · exact h.setNode rfl
    · rename_i hstep
      refine h.setNode ?_
      unfold Node.getApplyLogs at hstep
      split_ifs at hstep
      obtain ⟨msgs, -, hstep⟩ := bind_eq_some_iff.1 hstep
      cases hstep
      exact h me
  · exact h

lemma ite {c : Prop} [Decidable c] {t : Cluster n} (ht : t.TermsSaved) :
    (if c then t else s).TermsSaved := by
  split_ifs
  · exact ht
  · exact h

/-- Every event keeps the terms saved, unless an answer tells a new one. -/
lemma next {event : Event n} (hknown : KnownTerm s event) : (s.next cfg event).TermsSaved := by
  cases event with
  | activate me | pushBatch me => exact h.setNode (h me)
  | crash me => exact h.setNode rfl
  | doElection me => exact h.ite h.doElection
  | doElectionCrash me =>
    rw [Cluster.next, ← ite_not]
    exact h.ite (h.setNode rfl)
  | propose me command =>
    refine h.setNode ?_
    unfold propose
    split_ifs <;> exact h me
  | poll me count => exact h.ite (h.run fun _ hstep => (h me).poll hstep)
  | replicate me server => exact h.ite h.worker.1
  | leaderSendSnapShot me server => exact h.worker.2.1
  | sendChunk me server => exact h.worker.2.2.1
  | callFailed me server => exact h.worker.2.2.2
  | deliver request leaderContact => exact h.deliver
  | installSnapshotCrash request => exact h.installSnapshotCrash
  | reply number => exact h.reply hknown
  | snapshot me index data => exact h.run fun _ hstep => (h me).snapshot hstep
  | getApplyLogs me => exact h.ite h.getApplyLogs

end TermsSaved

end Cluster

/-- Over every run in which no peer takes an answer to `AppendEntries` with a term above its own,
each peer has on disk what it has in memory, and an incremental write behind a handler that only
appends to the log writes what a full one would. -/
theorem saved_of_reachable (cfg : Config n) (s : Cluster n)
    (hs : (raftSystem cfg).Reachable KnownTerm s) (me : Fin n) :
    (s.nodes me).Saved ∧ ∀ (r : Node n) (binary : Bool), r.persisted = (s.nodes me).persisted →
        (s.nodes me).logs <+: r.logs →
        r.persistAppended binary (s.nodes me).logs.length = r.persist := by
  have hterms : s.TermsSaved := by
    refine hs.invariant ?_ ?_
    · rintro _ rfl me
      rfl
    · rintro s event _ hs hknown rfl
      exact hs.next hknown
  obtain ⟨s₀, hinit, hrun⟩ := hs
  obtain ⟨p, hrel⟩ := exists_clusterRel ⟨s₀, hinit, hrun.mono fun _ _ _ => trivial⟩
  have hnode := hrel.node me
  constructor
  · refine ⟨hterms me, ?_, hnode.persisted_index, hnode.persisted_term, hnode.persisted_logs⟩
    rcases hnode.vote with ⟨-, hvote⟩ | ⟨hlt, -⟩
    · exact hvote
    · exact absurd (hterms me) hlt.ne
  · intro r binary hpersisted hprefix
    unfold persistAppended
    split_ifs
    · -- what is on disk is the log as it was, and the tail is what was added
      obtain ⟨added, hadded⟩ := hprefix
      have hlogs : r.persisted.logs ++ r.logs.drop (s.nodes me).logs.length = r.logs := by
        rw [hpersisted, hnode.persisted_logs, ← hadded, List.drop_left]
      rw [hlogs]
      rfl
    · rfl

theorem saved_of_reachable_delivered :
    (((electedRun ++ deliveredRun).foldl (next threeVoters) (initial 3)).nodes 1).Saved :=
  (saved_of_reachable threeVoters _ (Guarded.reachable (by decide)) 1).1

/-- The old leader is in term 2 and has term 1 on disk. -/
theorem not_saved_outdatedRun : ¬∀ s : Cluster 3, (raftSystem threeVoters).Reachable anyStep s →
    ∀ me, (s.nodes me).Saved := by
  intro h
  have hsaved := h (outdatedRun.foldl (next threeVoters) (initial 3))
    (Guarded.reachable (by decide)) 0
  exact absurd hsaved.currentTerm (by decide)

end StrataKV.Raft
