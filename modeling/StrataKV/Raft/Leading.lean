import StrataKV.Raft.Election

/-!
# Leading

What the leader of a term does: it counts the copies of its entries, adds proposals to its log and
sends its log to the others.
-/

namespace StrataKV.Raft

open Node Option Function Consensus
open Consensus (termAt lastTerm Extends)

variable {n : ℕ} {cfg : Config n} {me : Fin n} {p : Abstract n} {r r' : Node n}

/-! ## The commit index -/

variable {l : List LogEntry}

/-- The commit index moves to an entry of the current term that a quorum has. -/
lemma updateCommitIndexFrom_eq_some (index : ℕ)
    (hstep : r.updateCommitIndexFrom cfg me index = some r') :
    r' = r ∨ ∃ i, r' = { r with commitIndex := i } ∧
      r.getLogTermFromLogIndex i = some r.currentTerm ∧
      cfg.getQuorum ≤ (r.replicas cfg me i).card := by
  induction index with
  | zero => exact .inl (some.inj hstep).symm
  | succ index ih =>
    unfold updateCommitIndexFrom at hstep
    split_ifs at hstep with hle hquorum
    · exact .inl (some.inj hstep).symm
    · obtain ⟨t, ht, hcommit⟩ := bind_eq_some_iff.1 hstep
      split_ifs at hcommit with hcurrent
      · exact .inr ⟨_, (some.inj hcommit).symm, hcurrent ▸ ht, hquorum⟩
      · exact ih hcommit
    · exact ih hstep

variable {t : ℕ}

lemma local_choose {k : ℕ} (hgood : Good cfg p) (hc : p.Committed cfg.IsQuorum t k) :
    Local me p (p.choose t k) :=
  { (Local.refl : Local me p p) with
    toExtends := hgood.inv.extends_choose hc }

variable {i : ℕ}

lemma local_setCommit : Local me p (p.setCommit me i) :=
  { (Local.refl : Local me p p) with
    toExtends := extends_setCommit
    commit_of_ne := fun _ hw => update_of_ne hw .. }

section

variable (hgood : Good cfg p) (h : NodeRel cfg p me r)

include hgood h

/-- A peer may commit what is decided and in its log. -/
lemma NodeRel.setCommit
    (hdecided : p.DecidedBy cfg.IsQuorum r.currentTerm i) (hi : i ≤ (p.log me).length)
    (htake : (p.log me).take i = p.chosen.take i) :
    Moves cfg me p { r with commitIndex := i } fun _ => True := by
  refine ⟨_, local_setCommit, ⟨hgood.inv.setCommit (h.term ▸ hdecided) hi htake, hgood.index⟩, ?_,
    trivial⟩
  exact { h with commit := update_self .. }

section

variable (hleader : r.status = .leader)

include hleader

/-- A leader has the log of its term. -/
lemma NodeRel.leader_log : p.log me = p.leaderLog r.currentTerm ∧ 0 < r.currentTerm := by
  obtain ⟨hpromise, helected, -⟩ := h.leader hleader
  constructor
  · rw [← hpromise] at helected ⊢
    exact h.elected_log helected
  · have hvoted := hgood.inv.elected_voted _ _ helected
    have hself := hgood.inv.vote_self_of_voted cfg.quorum_inter hvoted
    exact (hgood.inv.vote_le _ _ _ hself).1

omit hgood in
/-- What the leader counts as replicated on a quorum is decided, or can be now. -/
lemma NodeRel.committed (hown : p.Own r.currentTerm i)
    (hquorum : cfg.getQuorum ≤ (r.replicas cfg me i).card) :
    p.Committed cfg.IsQuorum r.currentTerm i ∨ p.DecidedBy cfg.IsQuorum r.currentTerm i := by
  obtain ⟨-, -, hacked, hmatch⟩ := h.leader hleader
  by_cases hdecided : p.DecidedBy cfg.IsQuorum r.currentTerm i
  · exact .inr hdecided
  · left
    refine ⟨hown, r.replicas cfg me i, ⟨Finset.filter_subset _ _, hquorum⟩, fun j hj => ?_⟩
    by_cases hme : j = me
    · subst hme
      obtain ⟨m, hle, hm⟩ := hacked
      exact ⟨m, hown.le_length.trans hle, hm⟩
    · have hle := ((Finset.mem_filter.1 hj).2).resolve_left hme
      exact ((hmatch j hme).2 i hle hown).resolve_right hdecided

/-- An entry of the own term that a quorum has is committed. -/
lemma NodeRel.commitOwn (hterm : termAt (p.log me) i = r.currentTerm)
    (hquorum : cfg.getQuorum ≤ (r.replicas cfg me i).card) :
    Moves cfg me p { r with commitIndex := i } fun _ => True := by
  obtain ⟨hlog, hpos⟩ := h.leader_log hgood hleader
  have hown : p.Own r.currentTerm i := ⟨hpos, hlog ▸ hterm⟩
  -- decide the entry first, if that has not happened yet
  have hdecide : Moves cfg me p r fun p' => p'.DecidedBy cfg.IsQuorum r.currentTerm i := by
    rcases h.committed hleader hown hquorum with hcommitted | hdecided
    · refine ⟨_, local_choose hgood hcommitted, ⟨hgood.inv.choose hcommitted, hgood.index⟩, ?_, ?_⟩
      · exact h.extend (hgood.inv.extends_choose hcommitted) rfl rfl rfl rfl rfl (fun _ => rfl)
          fun _ he => ⟨he, rfl⟩
      · exact .inr ⟨_, _, hgood.inv.decided_choose hcommitted, le_rfl, le_rfl⟩
    · exact .stay hgood h hdecided
  refine hdecide.bind fun p₁ _ hgood₁ h₁ hdecided => ?_
  obtain ⟨hlog₁, -⟩ := h₁.leader_log hgood₁ hleader
  have helected : p₁.elected r.currentTerm ≠ none := by
    rw [(h₁.leader hleader).2.1]
    exact some_ne_none me
  have htake := hgood₁.inv.take_of_decidedBy hdecided helected
  rw [← hlog₁] at htake
  exact h₁.setCommit hgood₁ hdecided (length_le_of_take_eq htake hdecided.le_length) htake

lemma NodeRel.updateCommitIndex (hstep : r.leaderUpdateCommitIndex cfg me = some r') :
    Moves cfg me p r' fun _ => True := by
  rcases updateCommitIndexFrom_eq_some _ hstep with rfl | ⟨i, rfl, hterm, hquorum⟩
  · exact .stay hgood h trivial
  · have hterm := ((h.hasLog hgood).getLogTerm_eq_some hterm).2.2
    exact h.commitOwn hgood hleader hterm hquorum

end

omit hgood h in
/-- The same for entries that are persisted only afterwards. -/
lemma NodeRel.updateCommitIndex_persist (hgood : Good cfg p) (h : NodeRel cfg p me r.persist)
    (hleader : r.status = .leader) (hstep : r.leaderUpdateCommitIndex cfg me = some r') :
    Moves cfg me p r'.persist fun _ => True := by
  rcases updateCommitIndexFrom_eq_some _ hstep with rfl | ⟨i, rfl, hterm, hquorum⟩
  · exact .stay hgood h trivial
  · have hterm := ((h.hasLog hgood).getLogTerm_eq_some hterm).2.2
    exact h.commitOwn hgood hleader hterm hquorum

/-! ## The only voter -/

lemma NodeRel.finishElection (hme : cfg.voter me = true) :
    Moves cfg me p ((r.beginElection me).finishElection cfg me) fun p' => 1 < cfg.getQuorum →
      ∀ i, RequestOk cfg p' ⟨me, i, .requestVote ((r.beginElection me).requestVoteArgs me)⟩ := by
  unfold Node.finishElection
  split_ifs with hquorum
  · have hbegin := h.campaign hgood hme (h.awaited_me (r.currentTerm + 1))
    rw [update_eq_self] at hbegin
    refine hbegin.bind fun p₁ _ hgood₁ h₁ hcampaign => ?_
    have h₁ : NodeRel cfg p₁ me (r.beginElection me) := h₁
    have hdone {P : Prop} (hlt : 1 < cfg.getQuorum) : P := absurd hlt (by omega)
    -- its own vote is the quorum
    have hvoted : p₁.Voted cfg.IsQuorum me (r.currentTerm + 1) := by
      refine ⟨{me}, ⟨?_, by simpa using hquorum⟩, fun i hi => ?_⟩
      · simpa [Config.voters] using hme
      · rw [Finset.mem_singleton.1 hi]
        exact hcampaign.1
    have h₀ := h₁.resetVotes (r.beginElection me).currentTerm
    dsimp only
    split
    · exact (h₁.restart hgood₁).map (fun _ h => h) fun _ _ _ _ => hdone
    · rename_i hstep
      refine (h₀.becomeLeader hgood₁ hvoted).bind fun p₂ _ hgood₂ h₂ _ => ?_
      exact (h₂.updateCommitIndex_persist hgood₂ rfl hstep).map (fun _ h => h) fun _ _ _ _ => hdone
  · refine (h.campaign hgood hme (by simp)).map (fun _ h => h) fun p' hgood' h' hcampaign _ i => ?_
    obtain ⟨hvote, hlog, -⟩ := hcampaign
    have hhas := h'.hasLog hgood'
    refine ⟨rfl, hvote, ?_, ?_⟩
    · show _ = (p'.candidateLog (r.currentTerm + 1) me).length
      rw [hlog]
      exact hhas.getLastLogIndex_eq
    · show _ = lastTerm (p'.candidateLog (r.currentTerm + 1) me)
      rw [hlog]
      exact hhas.getLastLogTerm_eq

/-! ## Proposals -/

omit hgood h in
lemma batchEntries_getElem? (batch : List Bytes) :
    ∀ {lastLogIndex i : ℕ} {e : LogEntry}, (batchEntries t lastLogIndex batch)[i]? = some e →
      e.logIndex = lastLogIndex + i + 1 ∧ e.logTerm = t := by
  induction batch with
  | nil => intro lastLogIndex i e he; cases he
  | cons command batch ih =>
    intro lastLogIndex i e he
    cases i with
    | zero =>
      rw [← some.inj he]
      exact ⟨rfl, rfl⟩
    | succ i =>
      obtain ⟨hindex, hterm⟩ := ih (i := i) he
      exact ⟨by omega, hterm⟩

omit hgood h in
lemma batchEntries_ne_nil {lastLogIndex : ℕ} {batch : List Bytes} (h : batch ≠ []) :
    batchEntries t lastLogIndex batch ≠ [] := by
  cases batch with
  | nil => exact absurd rfl h
  | cons command batch => exact List.cons_ne_nil _ _

lemma NodeRel.canLead_of_leader
    (hleader : r.status = .leader) : CanLead cfg.IsQuorum p me r.currentTerm := by
  obtain ⟨hpromise, helected, -⟩ := h.leader hleader
  exact .of_elected hgood.inv hpromise helected (h.leader_log hgood hleader).1

/-- The leader appends what was proposed. -/
lemma NodeRel.poll {count : ℕ}
    (hstep : r.poll cfg me count = some r') : Moves cfg me p r' fun _ => True := by
  have h₀ : NodeRel cfg p me { r with proposeQueue := r.proposeQueue.drop count } := { h with }
  unfold Node.poll at hstep
  dsimp only at hstep
  split_ifs at hstep with hempty hleader
  · obtain rfl := some.inj hstep
    exact .stay hgood h₀ trivial
  · obtain rfl := some.inj hstep
    exact .stay hgood { h₀ with } trivial
  · obtain ⟨r₁, hcommit, hpersist⟩ := bind_eq_some_iff.1 hstep
    obtain rfl := some.inj hpersist
    have hleader := not_not.1 hleader
    have hlast := (h.hasLog hgood).getLastLogIndex_eq
    have hlead : Moves cfg me p (Node.persist { r with
        proposeQueue := r.proposeQueue.drop count
        logs := r.logs ++ batchEntries r.currentTerm r.getLastLogIndex (r.proposeQueue.take count) })
        fun _ => True := by
      refine h₀.lead hgood (h₀.canLead_of_leader hgood hleader) (batchEntries_ne_nil hempty)
        (fun e he => ?_) (fun i e he => ?_) (h.leader hleader).2.2.2
      · obtain ⟨i, hi⟩ := List.mem_iff_getElem?.1 he
        exact (batchEntries_getElem? _ hi).2
      · rw [← hlast]
        exact (batchEntries_getElem? _ he).1
    exact hlead.bind fun p₁ _ hgood₁ h₁ _ => h₁.updateCommitIndex_persist hgood₁ hleader hcommit

end

/-! ## Replication -/

variable {server : Fin n}

/-- The request starts within the log. -/
lemma getPrevLogInfo_eq_some (h : HasLog r l) (hprev : r.getPrevLogInfo server = some (i, t)) :
    r.lastSnapshotIncludeIndex ≤ i ∧ i ≤ l.length ∧ t = termAt l i := by
  unfold getPrevLogInfo at hprev
  split_ifs at hprev with hnext
  · obtain ⟨rfl, rfl⟩ := Prod.mk.inj (some.inj hprev)
    exact ⟨le_rfl, h.le_length, h.snapshotTerm⟩
  · obtain ⟨e, he, hpair⟩ := bind_eq_some_iff.1 hprev
    obtain ⟨rfl, rfl⟩ := Prod.mk.inj (some.inj hpair)
    obtain ⟨hlt, hle, hget⟩ := h.entryAt_eq_some he
    refine ⟨hlt.le, hle, ?_⟩
    have hterm := termAt_succ hget
    rw [Nat.sub_add_cancel (by omega)] at hterm
    exact hterm.symm

lemma entriesAfter_eq_some {entries : List LogEntry} (h : HasLog r l)
    (hentries : r.entriesAfter i = some entries) : entries = l.drop i := by
  unfold entriesAfter at hentries
  split_ifs at hentries with hi
  · obtain ⟨s, hs, hdrop⟩ := bind_eq_some_iff.1 hentries
    obtain ⟨-, -, hsum⟩ := h.getSlices_eq_some hs
    rw [← some.inj hdrop, h.logs, List.drop_drop]
    congr 1
  · rw [← some.inj hentries, h.logs, not_not.1 hi]

variable {args : AppendEntriesArgs n}

/-- A request carries the rest of the log. -/
lemma appendEntriesArgs_eq_some (h : HasLog r l)
    (hargs : r.appendEntriesArgs me server = some args) :
    args.term = r.currentTerm ∧ args.leaderCommit = r.commitIndex ∧
      args.prevLogIndex + args.entries.length = l.length ∧ args.entries = l.drop args.prevLogIndex ∧
      args.prevLogTerm = termAt l args.prevLogIndex := by
  obtain ⟨⟨i, t⟩, hprev, hrest⟩ := bind_eq_some_iff.1 hargs
  obtain ⟨entries, hentries, hcheck⟩ := bind_eq_some_iff.1 hrest
  obtain ⟨-, -, hterm⟩ := getPrevLogInfo_eq_some h hprev
  have hdrop := entriesAfter_eq_some h hentries
  rw [h.getLastLogIndex_eq] at hcheck
  split_ifs at hcheck with hlast
  rw [← some.inj hcheck]
  exact ⟨rfl, rfl, hlast, hdrop, hterm⟩

/-- What a leader sends is a part of its log. -/
lemma NodeRel.requestOk (hgood : Good cfg p) (h : NodeRel cfg p me r)
    (hleader : r.status = .leader) (hne : me ≠ server)
    (hargs : r.appendEntriesArgs me server = some args) :
    RequestOk cfg p ⟨me, server, .appendEntries args⟩ := by
  obtain ⟨hterm, hcommit, hlast, hentries, hprevTerm⟩ :=
    appendEntriesArgs_eq_some (h.hasLog hgood) hargs
  have hn := hgood.inv.node me
  have hle := hn.commit_le
  rw [h.commit] at hle
  rw [(h.leader_log hgood hleader).1] at hlast hentries hprevTerm hle
  refine ⟨hne, ?_, ?_, ?_, ?_, ?_, ?_⟩
  · rw [hterm]
    exact (h.leader hleader).2.1
  · rw [hterm]
    exact hlast.le
  · rw [hterm, hlast, List.take_length]
    exact hentries
  · rw [hterm]
    exact hprevTerm
  · rw [hcommit, hlast]
    exact hle
  · rw [hterm, hcommit, ← h.commit, ← h.term]
    exact hn.commit_decided

/-- A change of what the leader knows about a peer. -/
lemma NodeRel.setMatch (h : NodeRel cfg p me r) (server : Fin n) (index : ℕ) (next : Fin n → ℕ)
    (hreplicated : r.status = .leader → Replicated cfg p server r.currentTerm index) :
    NodeRel cfg p me { r with
      matchIndex := update r.matchIndex server index, nextIndex := next } := by
  refine { h with leader := fun hleader => ?_ }
  obtain ⟨hpromise, helected, hacked, hmatch⟩ := h.leader hleader
  refine ⟨hpromise, helected, hacked, fun i hi => ?_⟩
  by_cases his : i = server
  · subst his
    show Replicated cfg p i r.currentTerm (update r.matchIndex i index i)
    rw [update_self]
    exact hreplicated hleader
  · show Replicated cfg p i r.currentTerm (update r.matchIndex server index i)
    rw [update_of_ne his]
    exact hmatch i hi

lemma Replicated.max {i : Fin n} {a b : ℕ} (h : Replicated cfg p i t a)
    (h' : Replicated cfg p i t b) : Replicated cfg p i t (max a b) := by
  rcases le_total a b with hle | hle
  · rw [max_eq_right hle]
    exact h'
  · rw [max_eq_left hle]
    exact h

/-- A reply moves the match index up, and with it the commit index. -/
lemma NodeRel.handleAppendEntriesReply (hgood : Good cfg p) (h : NodeRel cfg p me r)
    (hne : server ≠ me) {reply : AppendEntriesReply}
    (hreply : ReplyOk cfg p ⟨me, server, .appendEntries args⟩ (.appendEntries reply))
    (hstep : r.handleAppendEntriesReply cfg me server args reply = some r') :
    Moves cfg me p r' fun _ => True := by
  unfold Node.handleAppendEntriesReply at hstep
  split_ifs at hstep with hstate hhigh hlow hstatus hfailed
  · obtain rfl := some.inj hstep
    exact .stay hgood h trivial
  · obtain rfl := some.inj hstep
    exact h.stepDown hgood hhigh
  · obtain rfl := some.inj hstep
    exact .stay hgood h trivial
  · obtain rfl := some.inj hstep
    exact .stay hgood h trivial
  · split at hstep
    · obtain rfl := some.inj hstep
      exact .stay hgood h trivial
    · obtain rfl := some.inj hstep
      exact .stay hgood { h with } trivial
  · have hleader := not_not.1 hstatus
    obtain ⟨hterm, hreplicated⟩ := hreply (Bool.not_eq_false _ ▸ hfailed)
    have hcurrent : args.term = r.currentTerm := by omega
    rw [hcurrent] at hreplicated
    dsimp only at hstep
    split_ifs at hstep with hlast
    obtain ⟨r₁, hcommit, hcheck⟩ := bind_eq_some_iff.1 hstep
    split_ifs at hcheck with hle
    obtain rfl := some.inj hcheck
    refine NodeRel.updateCommitIndex hgood (h.setMatch server _ _ fun _ => ?_) hleader hcommit
    exact ((h.leader hleader).2.2.2 server hne).max hreplicated

end StrataKV.Raft
