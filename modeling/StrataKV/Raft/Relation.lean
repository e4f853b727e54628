import StrataKV.Raft.Log
import StrataKV.Raft.Cluster

/-!
# What a peer holds of the replicated log

A peer keeps the part of its log behind its last snapshot. Here its state is related to that of the
abstract protocol, whose logs are complete, and so are the requests and the answers that are on the
way.

- `NodeRel` — a peer and its abstract state;
- `Local` — an abstract step of one peer;
- `NodeRel.persist`, `NodeRel.stepDown`, `NodeRel.restart` — what terms do to the relation.
-/

namespace StrataKV.Raft

open Function Consensus Finset

open Consensus (termAt lastTerm Extends)

variable {n : ℕ}

abbrev Abstract (n : ℕ) := Consensus.State (Fin n) LogEntry

/-! ## Quorums -/

variable (cfg : Config n)

def Config.IsQuorum (Q : Finset (Fin n)) : Prop := Q ⊆ cfg.voters ∧ cfg.getQuorum ≤ Q.card

/-- Two majorities of the voters have a voter in common. -/
lemma Config.quorum_inter (Q Q' : Finset (Fin n)) (h : cfg.IsQuorum Q)
    (h' : cfg.IsQuorum Q') : ∃ v ∈ Q, v ∈ Q' := by
  have hcard : cfg.voters.card < Q.card + Q'.card := by
    have hQ := h.2
    have hQ' := h'.2
    unfold Config.getQuorum at hQ hQ'
    omega
  obtain ⟨v, hv⟩ := inter_nonempty_of_card_lt_card_add_card h.1 h'.1 hcard
  exact ⟨v, (mem_inter.1 hv).1, (mem_inter.1 hv).2⟩

/-- The abstract protocol keeps its invariant, and each entry carries its index. -/
structure Good (cfg : Config n) (p : Abstract n) : Prop where
  inv : Consensus.Inv cfg.IsQuorum p
  index : ∀ (t i : ℕ) (e : LogEntry), (p.leaderLog t)[i]? = some e → e.logIndex = i + 1

/-! ## Peers -/

variable (p : Abstract n)

/-- A snapshot of the index covers decided entries, the last of the given term. -/
def SnapshotOk (term index snapshotTerm : ℕ) : Prop :=
  p.DecidedBy cfg.IsQuorum term index ∧ snapshotTerm = termAt p.chosen index

/-- The peer has the leader's log up to the index, as far as the leader has to know. -/
def Replicated (peer : Fin n) (term index : ℕ) : Prop :=
  index ≤ (p.leaderLog term).length ∧
    ∀ k, k ≤ index → p.Own term k → p.Acked peer term k ∨ p.DecidedBy cfg.IsQuorum term k

structure NodeRel (cfg : Config n) (p : Abstract n) (me : Fin n) (r : Node n) : Prop where
  term : p.term me = r.currentTerm
  promise : p.promise me = r.persisted.currentTerm
  base : p.base me = r.lastSnapshotIncludeIndex
  commit : p.commit me = r.commitIndex
  logs : r.logs = (p.log me).drop r.lastSnapshotIncludeIndex
  snapshotTerm : r.lastSnapshotIncludeTerm = termAt (p.log me) r.lastSnapshotIncludeIndex
  persisted_logs : r.persisted.logs = r.logs
  persisted_index : r.persisted.lastSnapshotIncludeIndex = r.lastSnapshotIncludeIndex
  persisted_term : r.persisted.lastSnapshotIncludeTerm = r.lastSnapshotIncludeTerm
  vote : r.persisted.currentTerm = r.currentTerm ∧ r.persisted.votedFor = r.votedFor ∨
    r.persisted.currentTerm < r.currentTerm ∧ r.votedFor = none
  persisted_vote : p.vote me r.persisted.currentTerm = r.persisted.votedFor
  elected_log : p.elected (p.promise me) = some me → p.log me = p.leaderLog (p.promise me)
  leader : r.status = .leader → p.promise me = r.currentTerm ∧ p.elected r.currentTerm = some me ∧
    p.Acked me r.currentTerm (p.leaderLog r.currentTerm).length ∧
    ∀ i, i ≠ me → Replicated cfg p i r.currentTerm (r.matchIndex i)
  votedNum : ∀ t, r.votedNum t ≤
    (cfg.voters.filter fun i => p.vote i t = some me ∧ r.awaited t i = false).card
  awaited_me : ∀ t, r.awaited t me = false
  sending : ∀ i task call, r.worker i = .sending task call →
    SnapshotOk cfg p task.leaderTerm task.snapshotIndex task.snapshotTerm

/-! ## Messages -/

def RequestOk (request : Request n) : Prop :=
  match request.body with
  | .requestVote args =>
    args.candidateId = request.src ∧ p.vote request.src args.term = some request.src ∧
      args.lastLogIndex = (p.candidateLog args.term request.src).length ∧
      args.lastLogTerm = lastTerm (p.candidateLog args.term request.src)
  | .appendEntries args =>
    request.src ≠ request.dst ∧ p.elected args.term = some request.src ∧
      args.prevLogIndex + args.entries.length ≤ (p.leaderLog args.term).length ∧
      args.entries = ((p.leaderLog args.term).take
        (args.prevLogIndex + args.entries.length)).drop args.prevLogIndex ∧
      args.prevLogTerm = termAt (p.leaderLog args.term) args.prevLogIndex ∧
      args.leaderCommit ≤ args.prevLogIndex + args.entries.length ∧
      p.DecidedBy cfg.IsQuorum args.term args.leaderCommit
  | .installSnapshot args =>
    SnapshotOk cfg p args.term args.lastSnapshotIncludeIndex args.lastSnapshotIncludeTerm

def ReplyOk (request : Request n) (body : ReplyBody) : Prop :=
  match request.body, body with
  | .requestVote args, .requestVote reply =>
    reply.voteGranted = true → reply.term = args.term ∧ request.dst ∈ cfg.voters ∧
      p.vote request.dst args.term = some request.src
  | .appendEntries args, .appendEntries reply =>
    reply.success = true → reply.term = args.term ∧
      Replicated cfg p request.dst args.term (args.prevLogIndex + args.entries.length)
  | _, _ => True

/-- What is delivered is what was decided. -/
def DeliveredOk : ApplyMsg → Prop
  | .command index command => 0 < index ∧ (p.chosen[index - 1]?).map LogEntry.command = some command
  | _ => True

/-! ## Steps of one peer -/

/-- The peer `me` goes on, and the state of the others stays as it is. -/
structure Local (me : Fin n) (p p' : Abstract n) : Prop extends Extends p p' where
  term_of_ne : ∀ w, w ≠ me → p'.term w = p.term w
  promise_of_ne : ∀ w, w ≠ me → p'.promise w = p.promise w
  base_of_ne : ∀ w, w ≠ me → p'.base w = p.base w
  commit_of_ne : ∀ w, w ≠ me → p'.commit w = p.commit w
  log_of_ne : ∀ w, w ≠ me → p'.log w = p.log w
  vote_of_ne : ∀ w t, w ≠ me → p'.vote w t = p.vote w t
  elected_of_ne : ∀ w t, w ≠ me → p'.elected t = some w →
    p.elected t = some w ∧ p'.leaderLog t = p.leaderLog t

namespace Local

variable {cfg} {me : Fin n} {p} {p' p'' : Abstract n}

lemma refl : Local me p p :=
  ⟨Extends.refl, fun _ _ => rfl, fun _ _ => rfl, fun _ _ => rfl, fun _ _ => rfl, fun _ _ => rfl,
    fun _ _ _ => rfl, fun _ _ _ h => ⟨h, rfl⟩⟩

lemma trans (h : Local me p p') (h' : Local me p' p'') : Local me p p'' where
  toExtends := h.toExtends.trans h'.toExtends
  term_of_ne := fun w hw => (h'.term_of_ne w hw).trans (h.term_of_ne w hw)
  promise_of_ne := fun w hw => (h'.promise_of_ne w hw).trans (h.promise_of_ne w hw)
  base_of_ne := fun w hw => (h'.base_of_ne w hw).trans (h.base_of_ne w hw)
  commit_of_ne := fun w hw => (h'.commit_of_ne w hw).trans (h.commit_of_ne w hw)
  log_of_ne := fun w hw => (h'.log_of_ne w hw).trans (h.log_of_ne w hw)
  vote_of_ne := fun w t hw => (h'.vote_of_ne w t hw).trans (h.vote_of_ne w t hw)
  elected_of_ne := by
    intro w t hw he
    obtain ⟨he', hlog'⟩ := h'.elected_of_ne w t hw he
    obtain ⟨he, hlog⟩ := h.elected_of_ne w t hw he'
    exact ⟨he, hlog'.trans hlog⟩

end Local

section

variable {cfg} {me : Fin n} {p} {p' : Abstract n} (hext : Extends p p')

include hext

lemma Replicated.extend {i : Fin n} {t index : ℕ} (h : Replicated cfg p i t index) :
    Replicated cfg p' i t index := by
  refine ⟨h.1.trans (hext.leaderLog t).length_le, fun k hk ho => ?_⟩
  exact (h.2 k hk (hext.own_of_le ho (hk.trans h.1))).imp hext.acked hext.decidedBy

lemma SnapshotOk.extend {t i u : ℕ} (h : SnapshotOk cfg p t i u) : SnapshotOk cfg p' t i u := by
  obtain ⟨hdecided, rfl⟩ := h
  refine ⟨hext.decidedBy hdecided, ?_⟩
  exact (termAt_of_isPrefix hext.chosen hdecided.le_length).symm

variable {request : Request n}

lemma RequestOk.extend (h : RequestOk cfg p request) : RequestOk cfg p' request := by
  obtain ⟨src, dst, body⟩ := request
  cases body with
  | requestVote args =>
    obtain ⟨hid, hvote, hindex, hterm⟩ := h
    refine ⟨hid, hext.vote _ _ _ hvote, ?_, ?_⟩
    · rw [hext.candidateLog _ _ hvote]
      exact hindex
    · rw [hext.candidateLog _ _ hvote]
      exact hterm
  | appendEntries args =>
    obtain ⟨hne, helected, hlen, hentries, hterm, hcommit, hdecided⟩ := h
    refine ⟨hne, hext.elected _ _ helected, hlen.trans (hext.leaderLog _).length_le, ?_, ?_, hcommit,
      hext.decidedBy hdecided⟩
    · rw [hext.take_leaderLog hlen]
      exact hentries
    · have hprev : args.prevLogIndex ≤ (p.leaderLog args.term).length := by omega
      rw [termAt_of_isPrefix (hext.leaderLog _) hprev]
      exact hterm
  | installSnapshot args => exact SnapshotOk.extend hext h

lemma ReplyOk.extend {body : ReplyBody} (h : ReplyOk cfg p request body) :
    ReplyOk cfg p' request body := by
  obtain ⟨src, dst, asked⟩ := request
  cases asked <;> cases body
  case requestVote.requestVote args reply =>
    intro hgranted
    obtain ⟨hterm, hvoter, hvote⟩ := h hgranted
    exact ⟨hterm, hvoter, hext.vote _ _ _ hvote⟩
  case appendEntries.appendEntries args reply =>
    intro hsuccess
    obtain ⟨hterm, hreplicated⟩ := h hsuccess
    exact ⟨hterm, hreplicated.extend hext⟩
  all_goals trivial

lemma DeliveredOk.extend {msg : ApplyMsg} (h : DeliveredOk p msg) : DeliveredOk p' msg := by
  cases msg with
  | command index command =>
    obtain ⟨hpos, hget⟩ := h
    refine ⟨hpos, ?_⟩
    obtain ⟨l, hl⟩ := hext.chosen
    rw [← hl]
    obtain ⟨e, he, hcommand⟩ := Option.map_eq_some_iff.1 hget
    rw [List.getElem?_append_left (List.getElem?_eq_some_iff.1 he).1]
    exact hget
  | _ => trivial

/-- A peer that stays as it is. -/
lemma NodeRel.extend {w : Fin n} {r : Node n} (h : NodeRel cfg p w r)
    (hterm : p'.term w = p.term w) (hpromise : p'.promise w = p.promise w)
    (hbase : p'.base w = p.base w) (hcommit : p'.commit w = p.commit w) (hlog : p'.log w = p.log w)
    (hvote : ∀ t, p'.vote w t = p.vote w t) (helected : ∀ t, p'.elected t = some w →
      p.elected t = some w ∧ p'.leaderLog t = p.leaderLog t) : NodeRel cfg p' w r := by
  refine ⟨hterm.trans h.term, hpromise.trans h.promise, hbase.trans h.base, hcommit.trans h.commit, ?_, ?_,
    h.persisted_logs, h.persisted_index, h.persisted_term, h.vote, (hvote _).trans h.persisted_vote,
    fun he => ?_, fun hleader => ?_, fun t => (h.votedNum t).trans ?_, h.awaited_me,
    fun i task call hi => (h.sending i task call hi).extend hext⟩
  · rw [hlog]
    exact h.logs
  · rw [hlog]
    exact h.snapshotTerm
  · rw [hpromise] at he ⊢
    obtain ⟨hold, hsame⟩ := helected _ he
    rw [hlog, hsame]
    exact h.elected_log hold
  · obtain ⟨hterm, hold, hacked, hmatch⟩ := h.leader hleader
    have hnew := hext.elected _ _ hold
    refine ⟨hpromise.trans hterm, hnew, ?_, fun i hi => (hmatch i hi).extend hext⟩
    rw [(helected _ hnew).2]
    exact hext.acked hacked
  · refine card_le_card fun i hi => ?_
    rw [mem_filter] at hi ⊢
    exact ⟨hi.1, hext.vote _ _ _ hi.2.1, hi.2.2⟩

omit hext in
/-- A step of one peer says nothing about the others. -/
lemma NodeRel.of_local {w : Fin n} {r : Node n} (h : NodeRel cfg p w r) (hlocal : Local me p p')
    (hw : w ≠ me) : NodeRel cfg p' w r :=
  h.extend hlocal.toExtends (hlocal.term_of_ne w hw) (hlocal.promise_of_ne w hw)
    (hlocal.base_of_ne w hw) (hlocal.commit_of_ne w hw) (hlocal.log_of_ne w hw)
    (fun t => hlocal.vote_of_ne w t hw) fun t => hlocal.elected_of_ne w t hw

end

/-! ## Going on -/

/-- The abstract peer can go on such that it is related to `r`, and `Q` holds then. -/
def Moves (cfg : Config n) (me : Fin n) (p : Abstract n) (r : Node n) (Q : Abstract n → Prop) : Prop :=
  ∃ p', Local me p p' ∧ Good cfg p' ∧ NodeRel cfg p' me r ∧ Q p'

section

variable {cfg} {me : Fin n} {p} {p' : Abstract n} {r r' : Node n} {Q Q' : Abstract n → Prop}

/-- A node that changes nothing of the protocol state. -/
lemma Moves.stay (hgood : Good cfg p) (h : NodeRel cfg p me r) (hQ : Q p) : Moves cfg me p r Q :=
  ⟨p, Local.refl, hgood, h, hQ⟩

/-- One move after another. -/
lemma Moves.bind (h : Moves cfg me p r Q)
    (h' : ∀ p', Local me p p' → Good cfg p' → NodeRel cfg p' me r → Q p' → Moves cfg me p' r' Q') :
    Moves cfg me p r' Q' := by
  obtain ⟨p₁, hlocal, hgood, hrel, hQ⟩ := h
  obtain ⟨p₂, hlocal', hgood', hrel', hQ'⟩ := h' p₁ hlocal hgood hrel hQ
  exact ⟨p₂, hlocal.trans hlocal', hgood', hrel', hQ'⟩

/-- A node of the same state as far as the relation goes. -/
lemma Moves.map (h : Moves cfg me p r Q) (hrel : ∀ p', NodeRel cfg p' me r → NodeRel cfg p' me r')
    (hQ : ∀ p', Good cfg p' → NodeRel cfg p' me r → Q p' → Q' p') : Moves cfg me p r' Q' := by
  obtain ⟨p', hlocal, hgood, h, hq⟩ := h
  exact ⟨p', hlocal, hgood, hrel p' h, hQ p' hgood h hq⟩

/-- The entries in memory are those behind the snapshot. -/
lemma NodeRel.hasLog (h : NodeRel cfg p me r) (hgood : Good cfg p) : HasLog r (p.log me) where
  le_length := h.base ▸ (hgood.inv.node me).base_le
  logs := h.logs
  snapshotTerm := h.snapshotTerm
  index := by
    intro i e hi he
    refine hgood.index _ i e ((hgood.inv.node me).segment.getElem? ?_ he)
    rw [h.base]
    exact hi

lemma NodeRel.promise_le (h : NodeRel cfg p me r) : p.promise me ≤ r.currentTerm := by
  rw [h.promise]
  rcases h.vote with ⟨heq, -⟩ | ⟨hlt, -⟩
  · exact heq.le
  · exact hlt.le

/-- A peer that was elected in its term has persisted the term. -/
lemma Good.promise_of_elected (hgood : Good cfg p) (h : NodeRel cfg p me r)
    (he : p.elected r.currentTerm = some me) : p.promise me = r.currentTerm := by
  have hvoted := hgood.inv.elected_voted _ _ he
  have hvote := hgood.inv.vote_self_of_voted cfg.quorum_inter hvoted
  exact le_antisymm h.promise_le (hgood.inv.vote_le _ _ _ hvote).2.1

/-! ### Terms -/

variable {t q : ℕ}

lemma local_raise (hq : p.promise me ≤ q) : Local me p (p.raise me t q) :=
  { (Local.refl : Local me p p) with
    toExtends := extends_raise hq
    term_of_ne := fun _ hw => update_of_ne hw ..
    promise_of_ne := fun _ hw => update_of_ne hw .. }

lemma term_raise : (p.raise me t q).term me = t := update_self ..

lemma promise_raise : (p.raise me t q).promise me = q := update_self ..

section

variable (hgood : Good cfg p) (h : NodeRel cfg p me r)

include hgood h

/-- A higher term, not yet persisted. -/
lemma NodeRel.stepDown {t : ℕ} (ht : r.currentTerm < t) :
    Moves cfg me p (r.stepDown t) fun _ => True := by
  have hle := h.promise_le
  refine ⟨p.raise me t (p.promise me), local_raise le_rfl, ⟨?_, hgood.index⟩, ?_, trivial⟩
  · refine hgood.inv.raise ?_ le_rfl (hle.trans ht.le)
    rw [h.term]
    exact ht.le
  · refine { h with
      term := term_raise
      promise := promise_raise.trans h.promise
      vote := .inr ⟨?_, rfl⟩
      elected_log := fun he => ?_
      leader := fun hleader => by cases hleader }
    · rw [h.promise] at hle
      exact lt_of_le_of_lt hle ht
    · rw [promise_raise] at he ⊢
      exact h.elected_log he

/-- The term and the vote are persisted. -/
lemma NodeRel.persist : Moves cfg me p r.persist fun _ => True := by
  have hle := h.promise_le
  refine ⟨p.raise me r.currentTerm r.currentTerm, local_raise hle, ⟨?_, hgood.index⟩, ?_, trivial⟩
  · exact hgood.inv.raise h.term.le hle le_rfl
  · refine { h with
      term := term_raise
      promise := promise_raise
      persisted_logs := rfl
      persisted_index := rfl
      persisted_term := rfl
      vote := .inl ⟨rfl, rfl⟩
      persisted_vote := ?_
      elected_log := fun he => ?_
      leader := fun hleader => ⟨promise_raise, (h.leader hleader).2⟩ }
    · show p.vote me r.currentTerm = r.votedFor
      rcases h.vote with ⟨hterm, hvote⟩ | ⟨hterm, hvote⟩
      · rw [← hterm, ← hvote]
        exact h.persisted_vote
      · rw [hvote]
        refine hgood.inv.vote_none ?_
        rw [h.promise]
        exact hterm
    · rw [promise_raise] at he ⊢
      have hpromise := hgood.promise_of_elected h he
      rw [← hpromise] at he ⊢
      exact h.elected_log he

omit hgood h in
lemma local_restart : Local me p (p.restart me) :=
  { (Local.refl : Local me p p) with
    toExtends := extends_restart
    term_of_ne := fun _ hw => update_of_ne hw ..
    commit_of_ne := fun _ hw => update_of_ne hw .. }

/-- A new process goes on with what was persisted. -/
lemma NodeRel.restart : Moves cfg me p r.restart fun _ => True := by
  refine ⟨p.restart me, local_restart, ⟨hgood.inv.restart, hgood.index⟩, ?_, trivial⟩
  refine ⟨?_, h.promise, ?_, update_self .., ?_, ?_, rfl, rfl, rfl, .inl ⟨rfl, rfl⟩,
    h.persisted_vote, h.elected_log, (fun hleader => by cases hleader), fun t => Nat.zero_le _,
    fun _ => rfl, (fun i task call hi => by cases hi)⟩
  · exact (update_self ..).trans h.promise
  · exact h.base.trans h.persisted_index.symm
  · show r.persisted.logs = (p.log me).drop r.persisted.lastSnapshotIncludeIndex
    rw [h.persisted_logs, h.persisted_index]
    exact h.logs
  · show r.persisted.lastSnapshotIncludeTerm = termAt (p.log me) r.persisted.lastSnapshotIncludeIndex
    rw [h.persisted_term, h.persisted_index]
    exact h.snapshotTerm

end

end

end StrataKV.Raft
