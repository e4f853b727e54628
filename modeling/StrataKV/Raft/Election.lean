import StrataKV.Raft.Relation

/-!
# Elections

What a peer does with a `RequestVote`, how it becomes a candidate, and how it comes to lead.
-/

namespace StrataKV.Raft

open Node Function Consensus Finset Nat Option
open Consensus (termAt lastTerm Extends)

variable {n : ℕ} {cfg : Config n} {me : Fin n} {p : Abstract n} {r : Node n}

/-! ## Votes -/

variable {t : ℕ}

lemma local_grant {c : Fin n} (hvote : p.vote me t = none ∨ p.vote me t = some c) :
    Local me p (p.grant me t c) :=
  { (Local.refl : Local me p p) with
    toExtends := extends_grant hvote
    vote_of_ne := fun _ _ hw => if_neg fun h => hw h.1 }

/-- A vote is cast once it is persisted. -/
lemma NodeRel.grant (hgood : Good cfg p) (h : NodeRel cfg p me r) {c : Fin n}
    (hpromise : p.promise me = r.currentTerm) (hvote : r.votedFor = none ∨ r.votedFor = some c)
    (hself : p.vote c r.currentTerm = some c)
    (hup : UpToDate (lastTerm (p.candidateLog r.currentTerm c))
      (p.candidateLog r.currentTerm c).length (lastTerm (p.log me)) (p.log me).length) :
    Moves cfg me p (Node.persist { r with votedFor := some c }) fun p' =>
      p'.vote me r.currentTerm = some c := by
  have hterm : r.persisted.currentTerm = r.currentTerm := by
    rw [← h.promise]
    exact hpromise
  have hpersisted : p.vote me r.currentTerm = r.votedFor := by
    rcases h.vote with ⟨-, hvoted⟩ | ⟨hlt, -⟩
    · rw [← hterm, ← hvoted]
      exact h.persisted_vote
    · omega
  rw [← hpersisted] at hvote
  have hlocal := @local_grant n me p _ _ hvote
  have hnew : (p.grant me r.currentTerm c).vote me r.currentTerm = some c := if_pos ⟨rfl, rfl⟩
  refine ⟨_, hlocal, ⟨hgood.inv.grant hpromise hvote hself hup, hgood.index⟩, ?_, hnew⟩
  refine { h with
    promise := hpromise
    persisted_logs := rfl
    persisted_index := rfl
    persisted_term := rfl
    vote := .inl ⟨rfl, rfl⟩
    persisted_vote := hnew
    votedNum := fun t => (h.votedNum t).trans (card_le_card fun i hi => ?_) }
  rw [mem_filter] at hi ⊢
  exact ⟨hi.1, hlocal.vote _ _ _ hi.2.1, hi.2.2⟩

variable {src : Fin n} {args : RequestVoteArgs n}

section

variable (hgood : Good cfg p) (h : NodeRel cfg p me r)

include hgood h

lemma NodeRel.refuse :
    Moves cfg me p r.persist fun p' =>
      ReplyOk cfg p' ⟨src, me, .requestVote args⟩ (.requestVote ⟨t, false⟩) :=
  (h.persist hgood).map (fun _ h => h) fun _ _ _ _ hgranted => by cases hgranted

lemma NodeRel.castVote (hme : cfg.voter me = true) (hterm : r.currentTerm = args.term)
    (hrequest : RequestOk cfg p ⟨src, me, .requestVote args⟩) :
    Moves cfg me p (r.vote args).1 fun p' =>
      ReplyOk cfg p' ⟨src, me, .requestVote args⟩ (.requestVote (r.vote args).2) := by
  unfold Node.vote
  split_ifs with hup hvoted
  · exact h.refuse hgood
  · exact h.refuse hgood
  · -- the term is persisted together with the vote
    refine (h.persist hgood).bind fun p₁ hlocal hgood₁ h₁ _ => ?_
    obtain ⟨hid, hself, hindex, hlast⟩ := hrequest.extend hlocal.toExtends
    subst hid
    have hup' : r.persist.upToDate args.lastLogIndex args.lastLogTerm = true :=
      Bool.not_eq_false _ ▸ hup
    rw [(h₁.hasLog hgood₁).upToDate_iff, hindex, hlast, ← hterm] at hup'
    rw [← hterm] at hself
    refine (h₁.grant hgood₁ h₁.promise ?_ hself hup').map (fun _ h => h) fun p₂ _ _ hvote _ => ?_
    · by_cases hnone : r.votedFor = none
      · exact .inl hnone
      · right
        by_contra hne
        exact hvoted ⟨hnone, hne⟩
    · exact ⟨hterm, by simp [Config.voters, hme], hterm ▸ hvote⟩

lemma NodeRel.requestVote (leaderContact : Bool)
    (hrequest : RequestOk cfg p ⟨src, me, .requestVote args⟩) :
    Moves cfg me p (r.requestVote cfg me args leaderContact).1 fun p' =>
      ReplyOk cfg p' ⟨src, me, .requestVote args⟩
        (.requestVote (r.requestVote cfg me args leaderContact).2) := by
  unfold Node.requestVote
  split_ifs with hvoter hlow hhigh hcontact
  · exact h.refuse hgood
  · exact h.refuse hgood
  · exact h.refuse hgood
  · refine (h.stepDown hgood hhigh).bind fun p₁ hlocal hgood₁ h₁ _ => ?_
    exact h₁.castVote hgood₁ (by simp_all) rfl (hrequest.extend hlocal.toExtends)
  · exact h.castVote hgood (by simp_all) (by omega) hrequest

end

/-! ## Candidates -/

lemma local_campaign (hgood : Good cfg p) (ht : p.term me < t) : Local me p (p.campaign me t) :=
  { (Local.refl : Local me p p) with
    toExtends := hgood.inv.extends_campaign ht
    term_of_ne := fun _ hw => update_of_ne hw ..
    promise_of_ne := fun _ hw => update_of_ne hw ..
    vote_of_ne := fun _ _ hw => if_neg fun h => hw h.1 }

/-- The peer has voted for itself in its term, with the log that it has. -/
def Campaigns (me : Fin n) (t : ℕ) (p : Abstract n) : Prop :=
  p.vote me t = some me ∧ p.candidateLog t me = p.log me ∧ p.promise me = t

variable {awaited : Fin n → Bool}

/-- A candidate with its own vote, whoever else it awaits. -/
lemma NodeRel.campaign (hgood : Good cfg p) (h : NodeRel cfg p me r) (hme : cfg.voter me = true)
    (hawaited : awaited me = false) :
    Moves cfg me p { r.beginElection me with
        awaited := update r.awaited (r.currentTerm + 1) awaited }
      (Campaigns me (r.currentTerm + 1)) := by
  have ht : p.term me < r.currentTerm + 1 := by
    rw [h.term]
    exact lt_succ_self _
  have hlocal := local_campaign hgood ht
  have hself : (p.campaign me (r.currentTerm + 1)).vote me (r.currentTerm + 1) = some me :=
    if_pos ⟨rfl, rfl⟩
  have hpromise : (p.campaign me (r.currentTerm + 1)).promise me = r.currentTerm + 1 :=
    update_self ..
  refine ⟨_, hlocal, ⟨hgood.inv.campaign ht, hgood.index⟩, ?_, hself, if_pos ⟨rfl, rfl⟩, hpromise⟩
  refine { h with
    term := update_self ..
    promise := hpromise
    persisted_logs := rfl
    persisted_index := rfl
    persisted_term := rfl
    vote := .inl ⟨rfl, rfl⟩
    persisted_vote := hself
    elected_log := fun he => ?_
    leader := fun hleader => by cases hleader
    votedNum := fun t => ?_
    awaited_me := fun t => ?_
    sending := fun i task call hi => (h.sending i task call hi).extend hlocal.toExtends }
  · -- nobody is elected in the new term
    rw [hpromise] at he
    have hvoted := hgood.inv.elected_voted _ _ he
    have hvote := hgood.inv.vote_self_of_voted cfg.quorum_inter hvoted
    have hle := (hgood.inv.vote_le _ _ _ hvote).2.1
    have := h.promise_le
    omega
  -- the own vote is the first one counted in the new term
  · by_cases hnew : t = r.currentTerm + 1
    · subst hnew
      have hone : (r.beginElection me).votedNum (r.currentTerm + 1) = 1 := update_self ..
      show (r.beginElection me).votedNum (r.currentTerm + 1) ≤ _
      rw [hone, one_le_iff_ne_zero, Finset.card_ne_zero]
      refine ⟨me, mem_filter.2 ⟨by simp [Config.voters, hme], hself, ?_⟩⟩
      show update r.awaited (r.currentTerm + 1) awaited (r.currentTerm + 1) me = false
      rw [update_self]
      exact hawaited
    · have hsame : (r.beginElection me).votedNum t = r.votedNum t := update_of_ne hnew ..
      show (r.beginElection me).votedNum t ≤ _
      rw [hsame]
      refine (h.votedNum t).trans (card_le_card fun i hi => ?_)
      rw [mem_filter] at hi ⊢
      refine ⟨hi.1, hlocal.vote _ _ _ hi.2.1, ?_⟩
      show update r.awaited (r.currentTerm + 1) awaited t i = false
      rw [update_of_ne hnew]
      exact hi.2.2
  · show update r.awaited (r.currentTerm + 1) awaited t me = false
    by_cases hnew : t = r.currentTerm + 1
    · rw [hnew, update_self]
      exact hawaited
    · rw [update_of_ne hnew]
      exact h.awaited_me t

/-! ## Leaders -/

variable {es : List LogEntry}

lemma local_lead (hcan : CanLead cfg.IsQuorum p me t) : Local me p (p.lead me t es) :=
  { (Local.refl : Local me p p) with
    toExtends := hcan.extends_lead es
    log_of_ne := fun _ hw => log_lead_of_ne hw
    elected_of_ne := by
      intro w u hw he
      have hu : u ≠ t := by
        rintro rfl
        have hme : (p.lead me u es).elected u = some me := update_self ..
        exact hw (some.inj (he.symm.trans hme))
      have hsame : (p.lead me t es).elected u = p.elected u := update_of_ne hu ..
      exact ⟨hsame.symm.trans he, leaderLog_lead_of_ne hu⟩ }

/-- The log of a leader is one of leaders, and so each entry carries its index. -/
lemma Good.index_of_leads (hgood : Good cfg p) {i : ℕ} {l : List LogEntry} {e : LogEntry}
    (hleads : p.Leads t l) (he : l[i]? = some e) : e.logIndex = i + 1 := by
  have htake := congrArg (·[i]?) (hleads i e he).2
  simp only [List.getElem?_take_of_lt (lt_succ_self i), he] at htake
  exact hgood.index _ i e htake.symm

lemma Good.lead (hgood : Good cfg p) (hcan : CanLead cfg.IsQuorum p me t)
    (hes : es ≠ []) (hterm : ∀ e ∈ es, Termed.term e = t)
    (hindex : ∀ (i : ℕ) (e : LogEntry), es[i]? = some e → e.logIndex = (p.log me).length + i + 1) :
    Good cfg (p.lead me t es) := by
  have hself := hgood.inv.vote_self_of_voted cfg.quorum_inter hcan.voted
  have hpos := (hgood.inv.vote_le _ _ _ hself).1
  refine ⟨hgood.inv.lead hcan cfg.quorum_inter hpos hes hterm, fun u i e he => ?_⟩
  by_cases hu : u = t
  · rw [hu, leaderLog_lead] at he
    rcases lt_or_ge i (p.log me).length with hlt | hge
    · rw [List.getElem?_append_left hlt] at he
      exact hgood.index_of_leads hcan.leads he
    · rw [List.getElem?_append_right hge] at he
      have := hindex _ e he
      omega
  · rw [leaderLog_lead_of_ne hu] at he
    exact hgood.index u i e he

section

variable (hgood : Good cfg p) (h : NodeRel cfg p me r)

include hgood h

/-- Own entries of a leader, persisted. -/
lemma NodeRel.lead (hcan : CanLead cfg.IsQuorum p me r.currentTerm) (hes : es ≠ [])
    (hterm : ∀ e ∈ es, Termed.term e = r.currentTerm)
    (hindex : ∀ (i : ℕ) (e : LogEntry), es[i]? = some e → e.logIndex = (p.log me).length + i + 1)
    {status : Status} {nextIndex matchIndex : Fin n → ℕ}
    (hmatch : ∀ i, i ≠ me → Replicated cfg p i r.currentTerm (matchIndex i)) :
    Moves cfg me p (Node.persist { r with
      status := status, nextIndex := nextIndex, matchIndex := matchIndex, logs := r.logs ++ es })
      fun _ => True := by
  have hlocal := @local_lead n cfg me p _ es hcan
  have hlog : (p.lead me r.currentTerm es).log me = p.log me ++ es := log_lead
  have hleaderLog : (p.lead me r.currentTerm es).leaderLog r.currentTerm = p.log me ++ es :=
    leaderLog_lead
  have hpromise : (p.lead me r.currentTerm es).promise me = r.currentTerm := hcan.promise
  have hhas := (h.hasLog hgood).append hindex
  refine ⟨_, hlocal, hgood.lead hcan hes hterm hindex, ?_, trivial⟩
  refine { h with
    promise := hpromise
    logs := ?_
    snapshotTerm := ?_
    persisted_logs := rfl
    persisted_index := rfl
    persisted_term := rfl
    vote := .inl ⟨rfl, rfl⟩
    persisted_vote := ?_
    elected_log := fun _ => ?_
    leader := fun _ => ⟨hpromise, update_self .., ?_, fun i hi => (hmatch i hi).extend hlocal.toExtends⟩
    sending := fun i task call hi => (h.sending i task call hi).extend hlocal.toExtends }
  · rw [hlog]
    exact hhas.logs
  · rw [hlog]
    exact hhas.snapshotTerm
  · show p.vote me r.currentTerm = r.votedFor
    have hpersisted := h.promise.symm.trans hcan.promise
    rcases h.vote with ⟨-, hvote⟩ | ⟨hlt, -⟩
    · rw [← hpersisted, ← hvote]
      exact h.persisted_vote
    · omega
  · rw [hpromise, hlog, hleaderLog]
  · show (p.lead me r.currentTerm es).Acked me r.currentTerm
      ((p.lead me r.currentTerm es).leaderLog r.currentTerm).length
    rw [hleaderLog]
    exact ⟨_, le_rfl, .inr ⟨rfl, rfl, le_rfl⟩⟩

/-- A peer for which a quorum has voted may lead. -/
lemma NodeRel.canLead (hvoted : p.Voted cfg.IsQuorum me r.currentTerm) :
    CanLead cfg.IsQuorum p me r.currentTerm := by
  have hself := hgood.inv.vote_self_of_voted cfg.quorum_inter hvoted
  have hpromise : p.promise me = r.currentTerm :=
    le_antisymm h.promise_le (hgood.inv.vote_le _ _ _ hself).2.1
  cases helected : p.elected r.currentTerm with
  | none => exact .of_voted hgood.inv cfg.quorum_inter hpromise hvoted helected
  | some c =>
    have hother := hgood.inv.elected_voted _ _ helected
    obtain rfl := hother.unique cfg.quorum_inter hvoted
    rw [← hpromise] at helected
    have hlog := h.elected_log helected
    rw [hpromise] at helected hlog
    exact .of_elected hgood.inv hpromise helected hlog

lemma NodeRel.becomeLeader (hvoted : p.Voted cfg.IsQuorum me r.currentTerm) :
    Moves cfg me p (r.becomeLeader cfg).persist fun _ => True := by
  refine h.lead hgood (h.canLead hgood hvoted) (List.cons_ne_nil _ _) (fun e he => ?_) (fun i e he => ?_)
    fun i hi => ⟨zero_le _, fun k hk ho => ?_⟩
  · rw [List.mem_singleton.1 he]
    rfl
  · cases i with
    | zero =>
      rw [← (h.hasLog hgood).getLastLogIndex_eq, ← some.inj he]
    | succ i => cases he
  · -- there is no entry at index 0
    rw [le_zero.1 hk] at ho
    exact absurd ho.2 ho.1.ne

end

/-! ## The answers of the voters -/

/-- The voters that are counted for the peer in a term. -/
def counted (cfg : Config n) (p : Abstract n) (me : Fin n) (t : ℕ) (awaited : Fin n → Bool) :
    Finset (Fin n) :=
  cfg.voters.filter fun i => p.vote i t = some me ∧ awaited i = false

/-- The answer of one more voter. -/
lemma card_counted {server : Fin n} (hvoter : server ∈ cfg.voters)
    (hvote : p.vote server t = some me) (hawaited : awaited server ≠ false) :
    (counted cfg p me t awaited).card + 1 ≤
      (counted cfg p me t (update awaited server false)).card := by
  have hnot : server ∉ counted cfg p me t awaited := fun hmem =>
    hawaited (mem_filter.1 hmem).2.2
  rw [← card_insert_of_notMem hnot]
  refine card_le_card fun i hi => ?_
  rcases mem_insert.1 hi with rfl | hi
  · exact mem_filter.2 ⟨hvoter, hvote, update_self ..⟩
  · obtain ⟨hmem, hvoted, hold⟩ := mem_filter.1 hi
    refine mem_filter.2 ⟨hmem, hvoted, ?_⟩
    by_cases his : i = server
    · rw [his, update_self]
    · rw [update_of_ne his]
      exact hold

lemma voted_of_counted (hquorum : cfg.getQuorum ≤ (counted cfg p me t awaited).card) :
    p.Voted cfg.IsQuorum me t :=
  ⟨_, ⟨filter_subset _ _, hquorum⟩, fun _ hi => (mem_filter.1 hi).2.1⟩

/-- Other counters, as long as they count votes that were cast. -/
lemma NodeRel.setVotes (h : NodeRel cfg p me r) {votedNum : ℕ → ℕ} {awaited : ℕ → Fin n → Bool}
    (hcount : ∀ t, votedNum t ≤ (counted cfg p me t (awaited t)).card)
    (hme : ∀ t, awaited t me = false) :
    NodeRel cfg p me { r with votedNum := votedNum, awaited := awaited } :=
  { h with votedNum := hcount, awaited_me := hme }

lemma NodeRel.resetVotes (h : NodeRel cfg p me r) (t : ℕ) :
    NodeRel cfg p me { r with votedNum := update r.votedNum t 0 } := by
  refine h.setVotes (fun u => ?_) h.awaited_me
  by_cases hu : u = t
  · rw [hu, update_self]
    exact zero_le _
  · rw [update_of_ne hu]
    exact h.votedNum u

lemma NodeRel.requestVoteReplied (hgood : Good cfg p) (h : NodeRel cfg p me r) {server : Fin n}
    {reply : RequestVoteReply} {r' : Node n} (hawaited : r.awaited args.term server ≠ false)
    (hreply : ReplyOk cfg p ⟨me, server, .requestVote args⟩ (.requestVote reply))
    (hstep : r.requestVoteReplied cfg args server reply = some r') :
    Moves cfg me p r' fun _ => True := by
  -- the peer is no longer awaited
  have hawait (t : ℕ) (i : Fin n) (hi : r.awaited t i = false) : update r.awaited args.term
      (update (r.awaited args.term) server false) t i = false := by
    by_cases ht : t = args.term
    · subst ht
      rw [update_self]
      by_cases his : i = server
      · rw [his, update_self]
      · rw [update_of_ne his]
        exact hi
    · rw [update_of_ne ht]
      exact hi
  have hmono (t : ℕ) : (counted cfg p me t (r.awaited t)).card ≤ (counted cfg p me t
      (update r.awaited args.term (update (r.awaited args.term) server false) t)).card := by
    refine card_le_card fun i hi => ?_
    obtain ⟨hmem, hvote, hold⟩ := mem_filter.1 hi
    exact mem_filter.2 ⟨hmem, hvote, hawait t i hold⟩
  have h₀ := h.setVotes (fun t => (h.votedNum t).trans (hmono t)) fun t => hawait t me (h.awaited_me t)
  unfold Node.requestVoteReplied at hstep
  dsimp only at hstep
  split_ifs at hstep with hhigh hlow hrefused hquorum hleader
  · obtain rfl := some.inj hstep
    exact (h₀.stepDown hgood hhigh).bind fun p₁ _ hgood₁ h₁ _ => h₁.persist hgood₁
  · obtain rfl := some.inj hstep
    exact .stay hgood h₀ trivial
  · obtain rfl := some.inj hstep
    exact .stay hgood h₀ trivial
  · obtain rfl := some.inj hstep
    obtain ⟨hterm, hvoter, hvote⟩ := hreply (Bool.not_eq_false _ ▸ hrefused)
    have hcurrent : r.currentTerm = args.term := by
      rw [← hterm]
      omega
    have hcard := (Nat.add_le_add_right (h.votedNum args.term) 1).trans
      (card_counted hvoter hvote hawaited)
    have hvoted := voted_of_counted (hquorum.trans hcard)
    refine NodeRel.becomeLeader hgood (h₀.resetVotes args.term) ?_
    show p.Voted cfg.IsQuorum me r.currentTerm
    rw [hcurrent]
    exact hvoted
  · obtain rfl := some.inj hstep
    obtain ⟨hterm, hvoter, hvote⟩ := hreply (Bool.not_eq_false _ ▸ hrefused)
    have hcard := (Nat.add_le_add_right (h.votedNum args.term) 1).trans
      (card_counted hvoter hvote hawaited)
    refine .stay hgood (h₀.setVotes (fun t => ?_) h₀.awaited_me) trivial
    by_cases ht : t = args.term
    · subst ht
      rw [update_self, update_self]
      exact hcard
    · rw [update_of_ne ht]
      exact h₀.votedNum t

end StrataKV.Raft
