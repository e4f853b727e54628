import StrataKV.Raft.Following

/-!
# A group refines the replicated log

`ClusterRel` relates a group to the abstract protocol, and every event is a step of it that forgets
nothing (`ClusterRel.next`).
-/

namespace StrataKV.Raft

open Node Function List Cluster Consensus
open Consensus (termAt lastTerm Extends)

variable {n : ℕ} {cfg : Config n} {s : Cluster n} {p : Abstract n} {me server : Fin n}

structure ClusterRel (cfg : Config n) (s : Cluster n) (p : Abstract n) : Prop where
  good : Good cfg p
  node : ∀ v, NodeRel cfg p v (s.nodes v)
  request : ∀ request ∈ s.requests, RequestOk cfg p request
  reply : ∀ reply ∈ s.replies, ∃ request, s.requests[reply.request]? = some request ∧
    ReplyOk cfg p request reply.body
  delivered : ∀ v, ∀ msg ∈ s.delivered v, DeliveredOk p msg

/-- The abstract protocol goes on from `p` to a state that is related to the group. -/
def Follows (cfg : Config n) (p : Abstract n) (s : Cluster n) : Prop :=
  ∃ p', Extends p p' ∧ ClusterRel cfg s p'

namespace ClusterRel

lemma follows (h : ClusterRel cfg s p) : Follows cfg p s := ⟨p, Extends.refl, h⟩

lemma ite (h : ClusterRel cfg s p) {c : Prop} [Decidable c] {t : Cluster n}
    (ht : Follows cfg p t) : Follows cfg p (if c then t else s) := by
  split_ifs
  · exact ht
  · exact h.follows

variable {r : Node n}

section

variable (h : ClusterRel cfg s p)

include h

variable {Q : Abstract n → Prop}

/-- A step of one node is a step of the protocol, and the others stay related. -/
lemma setNode (hmoves : Moves cfg me p r Q) :
    ∃ p', Extends p p' ∧ ClusterRel cfg (s.setNode me r) p' ∧ Q p' := by
  obtain ⟨p', hlocal, hgood, hrel, hQ⟩ := hmoves
  have hext := hlocal.toExtends
  refine ⟨p', hext, ⟨hgood, fun v => ?_, fun request hr => (h.request request hr).extend hext,
    fun reply hr => ?_, fun v msg hm => (h.delivered v msg hm).extend hext⟩, hQ⟩
  · by_cases hv : v = me
    · subst hv
      show NodeRel cfg p' v (update s.nodes v r v)
      rw [update_self]
      exact hrel
    · show NodeRel cfg p' v (update s.nodes me r v)
      rw [update_of_ne hv]
      exact (h.node v).of_local hlocal hv
  · obtain ⟨request, hrequest, hok⟩ := h.reply reply hr
    exact ⟨request, hrequest, hok.extend hext⟩

lemma moves (hmoves : Moves cfg me p r Q) : Follows cfg p (s.setNode me r) := by
  obtain ⟨p', hext, hrel, -⟩ := h.setNode hmoves
  exact ⟨p', hext, hrel⟩

/-- The peer changes nothing that the relation speaks of. -/
lemma stay (hrel : NodeRel cfg p me r) : ClusterRel cfg (s.setNode me r) p := by
  refine { h with node := fun v => ?_ }
  by_cases hv : v = me
  · subst hv
    show NodeRel cfg p v (update s.nodes v r v)
    rw [update_self]
    exact hrel
  · show NodeRel cfg p v (update s.nodes me r v)
    rw [update_of_ne hv]
    exact h.node v

/-- The peer goes on, or its process ends and it restarts. -/
lemma run {r : Option (Node n)}
    (hmoves : ∀ r', r = some r' → Moves cfg me p r' fun _ => True) : Follows cfg p (s.run me r) := by
  cases r with
  | none => exact h.moves ((h.node me).restart h.good)
  | some r => exact h.moves (hmoves r rfl)

/-- Requests may be sent that the protocol state justifies. -/
lemma send {requests : List (Request n)}
    (hok : ∀ request ∈ requests, RequestOk cfg p request) : ClusterRel cfg (s.send requests) p := by
  refine { h with request := fun request hr => ?_, reply := fun reply hr => ?_ }
  · rcases mem_append.1 hr with hr | hr
    · exact h.request request hr
    · exact hok request hr
  · obtain ⟨request, hrequest, hreply⟩ := h.reply reply hr
    refine ⟨request, ?_, hreply⟩
    show (s.requests ++ requests)[reply.request]? = some request
    rw [List.getElem?_append_left (List.getElem?_eq_some_iff.1 hrequest).1]
    exact hrequest

variable {number : ℕ} {request : Request n} {body : ReplyBody}

/-- An answer may be given that the protocol state justifies. -/
lemma answer (hrequest : s.requests[number]? = some request) (hok : ReplyOk cfg p request body) :
    ClusterRel cfg (s.answer number body) p := by
  refine { h with reply := fun reply hr => ?_ }
  rcases mem_append.1 hr with hr | hr
  · exact h.reply reply hr
  · rw [mem_singleton.1 hr]
    exact ⟨request, hrequest, hok⟩

/-- A peer handles a request and answers it. -/
lemma setNode_answer (hrequest : s.requests[number]? = some request)
    (hmoves : Moves cfg me p r fun p' => ReplyOk cfg p' request body) :
    Follows cfg p ((s.setNode me r).answer number body) := by
  obtain ⟨p', hext, hrel, hok⟩ := h.setNode hmoves
  exact ⟨p', hext, hrel.answer hrequest hok⟩

/-! ## Elections -/

lemma doElection : Follows cfg p (s.doElection cfg me) := by
  unfold Cluster.doElection
  dsimp only
  split_ifs with hskip hquorum
  · exact h.follows
  · exact h.moves ((h.node me).finishElection h.good (by simp_all))
  · obtain ⟨p', hext, hrel, hcampaign⟩ :=
      h.setNode ((h.node me).finishElection h.good (by simp_all))
    refine ⟨p', hext, hrel.send fun request hr => ?_⟩
    obtain ⟨i, -, rfl⟩ := mem_map.1 hr
    exact hcampaign (Nat.lt_of_not_le hquorum) i

lemma doElectionCrash (hme : cfg.voter me = true) :
    Follows cfg p (s.setNode me ((s.nodes me).beginElection me).restart) := by
  have hbegin := (h.node me).campaign h.good hme
    ((h.node me).awaited_me ((s.nodes me).currentTerm + 1))
  rw [update_eq_self] at hbegin
  exact h.moves (hbegin.bind fun p₁ _ hgood₁ h₁ _ => h₁.restart hgood₁)

/-! ## Replication -/

omit h in
/-- A worker may send a snapshot that the protocol state justifies. -/
lemma setWorker (h : NodeRel cfg p me r) {worker : Worker}
    (hworker : ∀ task call, worker = .sending task call →
      SnapshotOk cfg p task.leaderTerm task.snapshotIndex task.snapshotTerm) :
    NodeRel cfg p me (setWorker r server worker) := by
  refine { h with sending := fun i task call hi => ?_ }
  by_cases his : i = server
  · subst his
    have hi : update r.worker i worker i = .sending task call := hi
    rw [update_self] at hi
    exact hworker task call hi
  · have hi : update r.worker server worker i = .sending task call := hi
    rw [update_of_ne his] at hi
    exact h.sending i task call hi

omit h in
lemma setIdle (h : NodeRel cfg p me r) : NodeRel cfg p me (Cluster.setWorker r server .idle) :=
  setWorker h fun _ _ hworker => by cases hworker

lemma replicate : Follows cfg p (s.replicate me server) := by
  unfold Cluster.replicate
  dsimp only
  split
  · split_ifs with hskip hnext hsnap
    · exact h.follows
    · exact h.run fun _ hr => by cases hr
    · exact (h.stay (setWorker (h.node me) fun _ _ hworker => by cases hworker)).follows
    · split
      · exact h.run fun _ hr => by cases hr
      · rename_i args hargs
        obtain ⟨hne, hleader⟩ : me ≠ server ∧ (s.nodes me).status = .leader := by simpa using hskip
        have hok := (h.node me).requestOk h.good hleader hne hargs
        refine (send (h.stay (setWorker (h.node me) fun _ _ hworker => ?_)) fun request hr => ?_).follows
        · cases hworker
        · rw [mem_singleton.1 hr]
          exact hok
  · exact h.follows

lemma leaderSendSnapShot : Follows cfg p (s.leaderSendSnapShot me server) := by
  unfold Cluster.leaderSendSnapShot
  dsimp only
  split
  · split_ifs with hempty
    · exact (h.stay (setIdle (h.node me))).follows
    · refine (h.stay (setWorker (h.node me) fun task call hworker => ?_)).follows
      obtain ⟨rfl, -⟩ := Worker.sending.inj hworker
      -- a peer has decided what it has compacted
      have hnode := h.node me
      have hn := h.good.inv.node me
      have hdecided := hn.base_decided.mono hn.promise_le
      rw [hnode.term, hnode.base] at hdecided
      refine ⟨hdecided, hnode.snapshotTerm.trans ?_⟩
      have htake := hn.base_take
      rw [hnode.base] at htake
      exact termAt_eq_of_take_eq htake le_rfl
  · exact h.follows

lemma sendChunk : Follows cfg p (s.sendChunk me server) := by
  have hnode := h.node me
  unfold Cluster.sendChunk
  dsimp only
  split
  · rename_i task hworker
    have hok := hnode.sending server task none hworker
    split_ifs with hoffset hleader
    · refine (send (h.stay (setWorker hnode fun task' call heq => ?_)) fun request hr => ?_).follows
      · obtain ⟨rfl, -⟩ := Worker.sending.inj heq
        exact hok
      · rw [mem_singleton.1 hr]
        exact hok
    · refine (h.stay (setIdle (hnode.setMatch server _ _ fun hstatus => ?_))).follows
      have hdecided := hok.1
      rw [← hleader.2] at hdecided
      have helected := (hnode.leader hstatus).2.1
      have hne : p.elected (s.nodes me).currentTerm ≠ none := by
        rw [helected]
        exact Option.some_ne_none me
      refine ⟨?_, fun k hk _ => .inr (hdecided.of_le hk)⟩
      exact length_le_of_take_eq (h.good.inv.take_of_decidedBy hdecided hne) hdecided.le_length
    · exact (h.stay (setIdle hnode)).follows
  · exact h.follows

lemma callFailed : Follows cfg p (s.callFailed me server) := by
  unfold Cluster.callFailed
  dsimp only
  split
  · exact (h.stay (setIdle (h.node me))).follows
  · exact (h.stay (setIdle (h.node me))).follows
  · exact h.follows

/-! ## Messages -/

/-- The receiver of a request moves, and answers. -/
lemma deliver {leaderContact : Bool} : Follows cfg p (s.deliver cfg number leaderContact) := by
  unfold Cluster.deliver
  split
  · exact h.follows
  · rename_i request hrequest
    obtain ⟨src, me, body⟩ := request
    have hok := h.request _ (mem_of_getElem? hrequest)
    have hnode := h.node me
    dsimp only
    split_ifs with hinit
    · refine (h.answer hrequest ?_).follows
      cases body with
      | requestVote args => exact fun hgranted => by cases hgranted
      | appendEntries args => exact fun hsuccess => by cases hsuccess
      | installSnapshot args => trivial
    · cases body with
      | requestVote args =>
        exact h.setNode_answer hrequest (hnode.requestVote h.good leaderContact hok)
      | appendEntries args =>
        dsimp only
        split
        · exact h.run fun _ hr => by cases hr
        · rename_i hstep
          exact h.setNode_answer hrequest (hnode.appendEntries1 h.good hok hstep)
      | installSnapshot args =>
        exact h.setNode_answer hrequest ((hnode.installSnapshot h.good hok).map (fun _ h => h)
          fun _ _ _ _ => trivial)

lemma installSnapshotCrash : Follows cfg p (s.installSnapshotCrash number) := by
  unfold Cluster.installSnapshotCrash
  split
  · rename_i me args hrequest
    dsimp only
    split_ifs with hskip
    · exact h.follows
    · exact h.moves (((h.node me).followSnapshot h.good args).bind fun p₁ _ hgood₁ h₁ _ =>
        h₁.restart hgood₁)
  · exact h.follows

omit h in
lemma chunkReplied (hgood : Good cfg p) (h : NodeRel cfg p me r) {task : SnapshotTask}
    {call : Option ℕ} {term : ℕ} (hworker : r.worker server = .sending task call) :
    Moves cfg me p (chunkReplied r server task term) fun _ => True := by
  unfold Cluster.chunkReplied
  split_ifs with hskip hhigh
  · exact .stay hgood (setIdle h) trivial
  · refine (h.stepDown hgood hhigh).bind fun p₁ _ hgood₁ h₁ _ => ?_
    exact (h₁.persist hgood₁).map (fun _ h₂ => setIdle h₂) fun _ _ _ _ => trivial
  · refine .stay hgood (setWorker h fun task' call' heq => ?_) trivial
    obtain ⟨rfl, -⟩ := Worker.sending.inj heq
    exact h.sending server task call hworker

lemma takeReply : Follows cfg p (s.reply cfg number) := by
  unfold Cluster.reply
  split
  · exact h.follows
  · rename_i reply hreply
    obtain ⟨request, hrequest, hok⟩ := h.reply reply (mem_of_getElem? hreply)
    rw [hrequest]
    obtain ⟨me, server, body⟩ := request
    obtain ⟨number, answer⟩ := reply
    have hnode := h.node me
    cases body <;> cases answer <;> dsimp only
    case requestVote.requestVote args reply =>
      split_ifs with hawaited
      · exact h.follows
      · exact h.run fun r' hstep => hnode.requestVoteReplied h.good hawaited hok hstep
    case appendEntries.appendEntries args reply =>
      split
      · split_ifs with hcall
        · exact h.follows
        · have hne := (h.request _ (mem_of_getElem? hrequest)).1
          exact h.run fun r' hstep =>
            (setIdle hnode).handleAppendEntriesReply h.good (Ne.symm hne) hok hstep
      · exact h.follows
    case installSnapshot.installSnapshot args term =>
      split
      · rename_i task call hworker
        split_ifs with hcall
        · exact h.follows
        · exact h.moves (chunkReplied h.good hnode hworker)
      · exact h.follows
    all_goals exact h.follows

lemma getApplyLogs : Follows cfg p (s.getApplyLogs me) := by
  unfold Cluster.getApplyLogs
  dsimp only
  split_ifs with hready
  · split
    · exact h.run fun _ hr => by cases hr
    · rename_i r applyMsgs hstep
      obtain ⟨hrel, hmsgs⟩ := (h.node me).getApplyLogs h.good hready.2 hstep
      have hstay := h.stay (r := { r with applyMsgs := applyMsgs }) { hrel with }
      refine ⟨p, Extends.refl, { hstay with delivered := fun v msg hmsg => ?_ }⟩
      by_cases hv : v = me
      · subst hv
        have hmsg : msg ∈ update s.delivered v (s.delivered v ++ applyMsgs) v := hmsg
        rw [update_self] at hmsg
        rcases mem_append.1 hmsg with hmsg | hmsg
        · exact h.delivered v msg hmsg
        · exact hmsgs msg hmsg
      · have hmsg : msg ∈ update s.delivered me (s.delivered me ++ applyMsgs) v := hmsg
        rw [update_of_ne hv] at hmsg
        exact h.delivered v msg hmsg
  · exact h.follows

/-! ## Runs -/

/-- Every event of a group is a step of the abstract protocol. -/
theorem next (event : Event n) : Follows cfg p (s.next cfg event) := by
  cases event with
  | activate me =>
    have hrel : NodeRel cfg p me { s.nodes me with initialized := true } := { h.node me with }
    exact (h.stay hrel).follows
  | crash me => exact h.run fun _ hr => by cases hr
  | doElection me => exact h.ite h.doElection
  | doElectionCrash me =>
    show Follows cfg p (if _ then s else _)
    split_ifs with hskip
    · exact h.follows
    · exact h.doElectionCrash (by simp_all)
  | propose me command =>
    show Follows cfg p (s.setNode me (((s.nodes me).propose command).getD (s.nodes me)))
    unfold propose
    split_ifs
    · have hrel : NodeRel cfg p me { s.nodes me with
          proposeQueue := (s.nodes me).proposeQueue ++ [command] } := { h.node me with }
      exact (h.stay hrel).follows
    · exact (h.stay (h.node me)).follows
  | poll me count => exact h.ite (h.run fun r' hstep => (h.node me).poll h.good hstep)
  | replicate me server => exact h.ite h.replicate
  | leaderSendSnapShot me server => exact h.leaderSendSnapShot
  | sendChunk me server => exact h.sendChunk
  | callFailed me server => exact h.callFailed
  | deliver request leaderContact => exact h.deliver
  | installSnapshotCrash request => exact h.installSnapshotCrash
  | reply number => exact h.takeReply
  | snapshot me index data => exact h.run fun r' hstep => (h.node me).snapshot h.good hstep
  | getApplyLogs me => exact h.ite h.getApplyLogs
  | pushBatch me =>
    have hrel : NodeRel cfg p me { s.nodes me with
        applyChan := (s.nodes me).applyChan ++ (s.nodes me).applyMsgs, applyMsgs := [] } :=
      { h.node me with }
    exact (h.stay hrel).follows

end

/-- The initial states are related. -/
lemma initial (cfg : Config n) : ClusterRel cfg (initial n) (State.initial _ _) where
  good := ⟨Inv.initial _, fun _ _ _ he => by cases he⟩
  node := fun v => by
    refine ⟨rfl, rfl, rfl, rfl, rfl, rfl, rfl, rfl, rfl, .inl ⟨rfl, rfl⟩, rfl, fun he => ?_,
      fun hleader => ?_, fun t => Nat.zero_le _, fun t => rfl, fun i task call hi => ?_⟩
    · cases he
    · cases hleader
    · cases hi
  request := fun _ hr => by cases hr
  reply := fun _ hr => by cases hr
  delivered := fun _ _ hm => by cases hm

/-- A run goes on with the abstract protocol. -/
theorem reaches {t : Cluster n} (h : ClusterRel cfg s p)
    (hrun : (raftSystem cfg).Reaches TransitionSystem.anyStep s t) : Follows cfg p t := by
  refine hrun.stable (I := Follows cfg p) (fun s₁ event s₂ hs _ hstep => ?_) h.follows
  obtain ⟨p₁, hext, hrel⟩ := hs
  obtain rfl : s₂ = s₁.next cfg event := hstep
  obtain ⟨p₂, hext', hrel'⟩ := hrel.next event
  exact ⟨p₂, hext.trans hext', hrel'⟩

end ClusterRel

/-- Every reachable cluster has a state of the protocol behind it. -/
theorem exists_clusterRel (h : (raftSystem cfg).Reachable TransitionSystem.anyStep s) :
    ∃ p, ClusterRel cfg s p := by
  obtain ⟨s₀, hinit, hrun⟩ := h
  obtain rfl : s₀ = initial n := hinit
  obtain ⟨p, -, hrel⟩ := (ClusterRel.initial cfg).reaches hrun
  exact ⟨p, hrel⟩

end StrataKV.Raft
