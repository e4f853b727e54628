import StrataKV.Raft.Refinement

/-!
# Safety of a Raft group

One leader and one vote per term, one command per delivered index, and logs that match and lose no
committed entry, over every run with lost, repeated, delayed and reordered calls and with crashes.
-/

namespace StrataKV.Raft

open TransitionSystem

variable {n : ℕ} {cfg : Config n} {s t : Cluster n} {p : Abstract n}

namespace Cluster

def LeaderIn (s : Cluster n) (v : Fin n) (term : ℕ) : Prop :=
  (s.nodes v).status = .leader ∧ (s.nodes v).currentTerm = term

instance (s : Cluster n) (v : Fin n) (term : ℕ) : Decidable (s.LeaderIn v term) :=
  inferInstanceAs (Decidable (_ ∧ _))

/-- The peer has answered a `RequestVote` of the candidate for the term with its vote. -/
def Grants (s : Cluster n) (v : Fin n) (term : ℕ) (candidate : Fin n) : Prop :=
  ∃ reply ∈ s.replies, ∃ src args granted,
    s.requests[reply.request]? = some ⟨src, v, .requestVote args⟩ ∧
    reply.body = .requestVote granted ∧ granted.voteGranted = true ∧
    args.term = term ∧ args.candidateId = candidate

/-- The peer has given its vote, to another or to itself. -/
def Votes (s : Cluster n) (v : Fin n) (term : ℕ) (candidate : Fin n) : Prop :=
  (s.nodes v).currentTerm = term ∧ (s.nodes v).votedFor = some candidate ∨ s.Grants v term candidate

end Cluster

/-! ## A run -/

/-- Three voters. -/
def threeVoters : Config 3 where
  voter := fun _ => true
  noOp := fun term => [UInt8.ofNat term]

/-- The first peer is elected by the second. -/
def electedRun : List (Event 3) :=
  [.activate 0, .activate 1, .activate 2, .doElection 0, .deliver 0 false, .reply 0]

/-- The no-op of the leader is replicated, committed and delivered by two peers. -/
def deliveredRun : List (Event 3) :=
  [.replicate 0 1, .deliver 2 false, .reply 1, .getApplyLogs 0, .replicate 0 1, .deliver 3 false,
    .getApplyLogs 1]

/-- The third peer begins two elections, and the leader learns of the new term from its answer. -/
def outdatedRun : List (Event 3) :=
  electedRun ++ [.doElection 2, .doElection 2, .replicate 0 2, .deliver 6 false, .reply 1]

def electedCluster : Cluster 3 := electedRun.foldl (Cluster.next threeVoters) (Cluster.initial 3)

def deliveredCluster : Cluster 3 := deliveredRun.foldl (Cluster.next threeVoters) electedCluster

lemma reachable_electedCluster : (raftSystem threeVoters).Reachable anyStep electedCluster :=
  Guarded.reachable (by decide)

lemma reaches_deliveredCluster :
    (raftSystem threeVoters).Reaches anyStep electedCluster deliveredCluster :=
  Guarded.reaches (by decide)

/-! ## Elections -/

lemma ClusterRel.elected (h : ClusterRel cfg s p) {v : Fin n} {term : ℕ} (hleader : s.LeaderIn v term) :
    p.elected term = some v := by
  obtain ⟨hstatus, rfl⟩ := hleader
  exact ((h.node v).leader hstatus).2.1

lemma ClusterRel.vote (h : ClusterRel cfg s p) {v candidate : Fin n} {term : ℕ}
    (hvotes : s.Votes v term candidate) : p.vote v term = some candidate := by
  rcases hvotes with
    ⟨rfl, hvoted⟩ | ⟨reply, hreply, src, args, granted, hrequest, hbody, hgranted, rfl, rfl⟩
  · -- a vote in memory is persisted
    have hnode := h.node v
    rcases hnode.vote with ⟨hterm, hpersisted⟩ | ⟨-, hnone⟩
    · rw [← hterm, hnode.persisted_vote, hpersisted, hvoted]
    · rw [hnone] at hvoted
      cases hvoted
  · obtain ⟨request, hget, hok⟩ := h.reply reply hreply
    obtain rfl := Option.some.inj (hrequest.symm.trans hget)
    obtain ⟨hid, -⟩ := h.request _ (List.mem_of_getElem? hrequest)
    rw [hbody] at hok
    rw [hid]
    exact (hok hgranted).2.2

/-- Over a whole run, a term has one leader at most, and a peer votes for one candidate in it. -/
theorem election_safety (hs : (raftSystem cfg).Reachable anyStep s)
    (hrun : (raftSystem cfg).Reaches anyStep s t) :
    (∀ v w term, s.LeaderIn v term → t.LeaderIn w term → v = w) ∧
      ∀ v term c d, s.Votes v term c → t.Votes v term d → c = d := by
  obtain ⟨p, hrel⟩ := exists_clusterRel hs
  obtain ⟨p', hext, hrel'⟩ := hrel.reaches hrun
  constructor
  · intro v w term hv hw
    have hv' := hext.elected _ _ (hrel.elected hv)
    exact Option.some.inj (hv'.symm.trans (hrel'.elected hw))
  · intro v term c d hc hd
    have hc' := hext.vote _ _ _ (hrel.vote hc)
    exact Option.some.inj (hc'.symm.trans (hrel'.vote hd))

theorem election_safety_deliveredCluster :
    electedCluster.LeaderIn 0 1 ∧ deliveredCluster.LeaderIn 0 1 ∧ electedCluster.Votes 1 1 0 ∧
      (∀ v, deliveredCluster.LeaderIn v 1 → 0 = v) ∧ ∀ c, deliveredCluster.Votes 1 1 c → 0 = c := by
  have hvotes : electedCluster.Votes 1 1 0 := Or.inl (by decide)
  have hleader : electedCluster.LeaderIn 0 1 := by decide
  obtain ⟨hleaders, hvoters⟩ := election_safety reachable_electedCluster reaches_deliveredCluster
  exact ⟨hleader, by decide, hvotes, fun v hv => hleaders 0 v 1 hleader hv,
    fun c hc => hvoters 1 1 0 c hvotes hc⟩

/-! ## Delivery -/

/-- Peers never deliver different commands at one index, whatever processes they were. -/
theorem delivered_agree (hs : (raftSystem cfg).Reachable anyStep s) {v w : Fin n} {index : ℕ}
    {c d : Bytes} (hv : .command index c ∈ s.delivered v) (hw : .command index d ∈ s.delivered w) :
    c = d := by
  obtain ⟨p, hrel⟩ := exists_clusterRel hs
  obtain ⟨-, hc⟩ := hrel.delivered v _ hv
  obtain ⟨-, hd⟩ := hrel.delivered w _ hw
  exact Option.some.inj (hc.symm.trans hd)

theorem delivered_agree_deliveredCluster :
    (.command 1 [1] ∈ deliveredCluster.delivered 0) ∧ (.command 1 [1] ∈ deliveredCluster.delivered 1) ∧
      ∀ c, .command 1 c ∈ deliveredCluster.delivered 1 → [1] = c := by
  have hreach := reachable_electedCluster.reaches reaches_deliveredCluster
  have hfirst : .command 1 [1] ∈ deliveredCluster.delivered 0 := by decide
  exact ⟨hfirst, by decide, fun c hc => delivered_agree hreach hfirst hc⟩

/-! ## Logs -/

/-- Logs with an entry of the same term at an index are the same up to it, as far as both reach back. -/
def Cluster.LogMatching (s : Cluster n) : Prop :=
  ∀ v w i e f, (s.nodes v).entryAt i = some e → (s.nodes w).entryAt i = some f →
    e.logTerm = f.logTerm → ∀ j d g, j ≤ i → (s.nodes v).entryAt j = some d →
      (s.nodes w).entryAt j = some g → d = g

theorem log_matching (hs : (raftSystem cfg).Reachable anyStep s) : s.LogMatching := by
  obtain ⟨p, h⟩ := exists_clusterRel hs
  -- up to its entry of a term, a log is the log of the leader of that term
  have hleader {v : Fin n} {i j : ℕ} {e d : LogEntry} (he : (s.nodes v).entryAt i = some e)
      (hd : (s.nodes v).entryAt j = some d) (hji : j ≤ i) :
      (p.leaderLog e.logTerm)[j - 1]? = some d := by
    obtain ⟨hi, -, he⟩ := ((h.node v).hasLog h.good).entryAt_eq_some he
    obtain ⟨hj, -, hd⟩ := ((h.node v).hasLog h.good).entryAt_eq_some hd
    rw [← (h.node v).base] at hi hj
    have hget := congrArg (·[j - 1 - p.base v]?) ((h.good.inv.node v).segment _ e (by omega) he)
    simp only [List.getElem?_drop, Nat.add_sub_cancel' (show p.base v ≤ j - 1 by omega)] at hget
    rw [List.getElem?_take_of_lt (by omega), List.getElem?_take_of_lt (by omega), hd] at hget
    exact hget.symm
  intro v w i e f he hf hterm j d g hji hd hg
  have hv := hleader he hd hji
  rw [hterm, hleader hf hg hji] at hv
  exact (Option.some.inj hv).symm

theorem log_matching_deliveredCluster : deliveredCluster.LogMatching :=
  log_matching (reachable_electedCluster.reaches reaches_deliveredCluster)

/-- Behind its snapshot, a leader of `t` has what it had in `s` as the leader of the term and what any
peer had committed by then. -/
def Cluster.KeptIn (s t : Cluster n) : Prop :=
  ∀ v w term i e, (s.nodes v).entryAt i = some e → t.LeaderIn w term →
    (s.LeaderIn v term ∨ i ≤ (s.nodes v).commitIndex ∧ (s.nodes v).currentTerm ≤ term) →
    (t.nodes w).lastSnapshotIncludeIndex < i →
    (t.nodes w).logs[i - 1 - (t.nodes w).lastSnapshotIncludeIndex]? = some e

/-- No committed entry is lost, and a leader overwrites none. -/
theorem leader_complete (hs : (raftSystem cfg).Reachable anyStep s)
    (hrun : (raftSystem cfg).Reaches anyStep s t) : s.KeptIn t := by
  obtain ⟨p, h⟩ := exists_clusterRel hs
  obtain ⟨p', hext, h'⟩ := h.reaches hrun
  rintro v w _ i e he ⟨hw, rfl⟩ hv hlt
  obtain ⟨-, -, he⟩ := ((h.node v).hasLog h.good).entryAt_eq_some he
  have hw' := h'.node w
  rw [(hw'.hasLog h'.good).getElem?_logs, Nat.add_sub_cancel' (by omega), (hw'.leader_log h'.good hw).1]
  rcases hv with ⟨hv, hterm⟩ | hv
  · rw [((h.node v).leader_log h.good hv).1, hterm] at he
    obtain ⟨l, hl⟩ := hext.leaderLog (t.nodes w).currentTerm
    rw [← hl, List.getElem?_append_left (List.getElem?_eq_some_iff.1 he).1, he]
  · -- what is committed is decided, and so in the log of every later leader
    have hnode := h.good.inv.node v
    rw [← (h.node v).commit, ← (h.node v).term] at hv
    have hdecided := (hext.decidedBy hnode.commit_decided).mono hv.2
    have htake := h'.good.inv.take_of_decidedBy hdecided (by simp [h'.elected ⟨hw, rfl⟩])
    rw [hext.take_chosen hnode.commit_decided.le_length, ← hnode.commit_take] at htake
    have hi : i - 1 < p.commit v := by omega
    rw [← List.getElem?_take_of_lt hi, htake, List.getElem?_take_of_lt hi, he]

theorem leader_complete_deliveredCluster :
    deliveredCluster.LeaderIn 0 1 ∧ electedCluster.KeptIn deliveredCluster :=
  ⟨by decide, leader_complete reachable_electedCluster reaches_deliveredCluster⟩

end StrataKV.Raft
