import StrataKV.Raft.Leading

/-!
# Following

What a peer does with the log and the snapshots it is sent, how it compacts its own log, and what it
delivers.
-/

namespace StrataKV.Raft

open Node Consensus List Option Nat Prod
open Consensus (termAt lastTerm Extends splice)

variable {n : ℕ} {cfg : Config n} {me src : Fin n} {p : Abstract n} {r r' : Node n}

/-- A peer that keeps its log keeps its complete log. -/
lemma NodeRel.log_eq (h : NodeRel cfg p me r) (hgood : Good cfg p) {p' : Abstract n}
    (h' : NodeRel cfg p' me r') (hgood' : Good cfg p') (hext : Extends p p') (hlogs : r'.logs = r.logs)
    (hsnap : r'.lastSnapshotIncludeIndex = r.lastSnapshotIncludeIndex) : p'.log me = p.log me := by
  have hn := hgood.inv.node me
  have hn' := hgood'.inv.node me
  have hbase : p'.base me = p.base me := by rw [h.base, h'.base, hsnap]
  refine eq_of_take_eq_of_drop_eq (i := p.base me) ?_ ?_
  · have htake' := hn'.base_take
    rw [hbase, hext.take_chosen hn.base_decided.le_length] at htake'
    exact htake'.trans hn.base_take.symm
  · rw [h.base, ← h.logs, ← hlogs, h'.logs, hsnap]

/-! ## Acknowledgements -/

lemma local_ack {t m : ℕ} (hpromise : p.promise me = t) : Local me p (p.ack me t m) :=
  { (Local.refl : Local me p p) with
    toExtends := extends_ack hpromise }

/-- A peer that has not persisted a term has no entry of it. -/
lemma Good.not_own (hgood : Good cfg p) {t k m : ℕ} (hpromise : p.promise me < t)
    (htake : (p.log me).take m = (p.leaderLog t).take m) (hkm : k ≤ m) : ¬p.Own t k := by
  intro hown
  have hn := hgood.inv.node me
  have hterm : termAt (p.log me) k = t := (termAt_eq_of_take_eq htake hkm).trans hown.2
  obtain ⟨j, e, rfl, he, heq⟩ := exists_of_termAt_pos (hterm.symm ▸ hown.1)
  rcases lt_or_ge j (p.base me) with hlt | hge
  · -- a compacted entry was decided in a term the peer has persisted
    rcases hn.base_decided with hzero | ⟨u, i, ⟨-, -, hchosen⟩, hbi, hu⟩
    · omega
    · have hbase := hn.base_take.trans (take_eq_take_of_le hchosen hbi)
      have hle := hgood.inv.termAt_le u (j + 1)
      rw [← termAt_eq_of_take_eq hbase hlt, hterm] at hle
      omega
  · have hle := hn.entry_le j e hge he
    omega

section

variable (hgood : Good cfg p) (h : NodeRel cfg p me r)

include hgood h

/-- A peer whose log agrees with that of the leader may say so. -/
lemma NodeRel.acknowledge {m : ℕ} (hm : m ≤ (p.leaderLog r.currentTerm).length)
    (htake : (p.log me).take m = (p.leaderLog r.currentTerm).take m) :
    Moves cfg me p r fun p' => Replicated cfg p' me r.currentTerm m := by
  rcases lt_or_eq_of_le h.promise_le with hlt | hpromise
  · exact .stay hgood h ⟨hm, fun k hk hown => absurd hown (hgood.not_own hlt htake hk)⟩
  · rcases lt_or_ge (p.base me) m with hbase | hbase
    · have hlocal := @local_ack n me p _ m hpromise
      refine ⟨_, hlocal, ⟨hgood.inv.ack hpromise hbase hm htake, hgood.index⟩, ?_, hm, fun k hk _ => ?_⟩
      · exact h.extend hlocal.toExtends rfl rfl rfl rfl rfl (fun _ => rfl) fun _ he => ⟨he, rfl⟩
      · exact .inl ⟨m, hk, .inr ⟨rfl, rfl, rfl⟩⟩
    · -- all of it is compacted, and so decided
      have hdecided := (hgood.inv.node me).base_decided
      rw [hpromise] at hdecided
      exact .stay hgood h ⟨hm, fun k hk _ => .inr (hdecided.of_le (hk.trans hbase))⟩

/-- The commit index moves up to a decided index. -/
lemma NodeRel.commitUpTo {i : ℕ}
    (hdecided : p.DecidedBy cfg.IsQuorum r.currentTerm i) (hi : i ≤ (p.log me).length)
    (htake : (p.log me).take i = p.chosen.take i) :
    Moves cfg me p { r with commitIndex := max r.commitIndex i } fun _ => True := by
  rcases le_total i r.commitIndex with hle | hle
  · rw [max_eq_left hle]
    exact .stay hgood h trivial
  · rw [max_eq_right hle]
    exact h.setCommit hgood hdecided hi htake

/-! ## Entries -/

lemma NodeRel.persistIf (changed : Bool) : Moves cfg me p (r.persistIf changed) fun _ => True := by
  cases changed with
  | false => exact .stay hgood h trivial
  | true => exact h.persist hgood

end

variable {l : List LogEntry}

lemma local_rewrite {b : ℕ} : Local me p (p.rewrite me l b) :=
  { (Local.refl : Local me p p) with
    toExtends := extends_rewrite
    base_of_ne := fun _ hw => base_rewrite_of_ne hw
    log_of_ne := fun _ hw => log_rewrite_of_ne hw }

/-- Another log, persisted. -/
lemma NodeRel.rewrite (h : NodeRel cfg p me r.persist) {logs l : List LogEntry} {index term : ℕ}
    (hlogs : logs = l.drop index) (hterm : term = termAt l index)
    (helected : p.elected r.currentTerm = some me → l = p.leaderLog r.currentTerm) :
    NodeRel cfg (p.rewrite me l index) me (Node.persist { r with
      logs := logs, lastSnapshotIncludeIndex := index, lastSnapshotIncludeTerm := term }) := by
  have hlog : (p.rewrite me l index).log me = l := log_rewrite
  have hpromise : (p.rewrite me l index).promise me = r.currentTerm := h.promise
  refine { h with
    base := base_rewrite
    logs := ?_
    snapshotTerm := ?_
    persisted_logs := rfl
    persisted_index := rfl
    persisted_term := rfl
    elected_log := fun he => ?_ }
  · rw [hlog]
    exact hlogs
  · rw [hlog]
    exact hterm
  · rw [hpromise] at he ⊢
    rw [hlog]
    exact helected he

section

variable {args : AppendEntriesArgs n} {reply : AppendEntriesReply}

/-- The log of the request is that of the leader, up to its last entry. -/
structure Matches (cfg : Config n) (p : Abstract n) (me : Fin n) (args : AppendEntriesArgs n) : Prop where
  elected : p.elected args.term ≠ none
  elected_ne : p.elected args.term ≠ some me
  le_length : args.prevLogIndex + args.entries.length ≤ (p.leaderLog args.term).length
  entries : args.entries = ((p.leaderLog args.term).take
    (args.prevLogIndex + args.entries.length)).drop args.prevLogIndex
  leaderCommit_le : args.leaderCommit ≤ args.prevLogIndex + args.entries.length
  leaderCommit : p.DecidedBy cfg.IsQuorum args.term args.leaderCommit

lemma RequestOk.matches (h : RequestOk cfg p ⟨src, me, .appendEntries args⟩) : Matches cfg p me args := by
  obtain ⟨hne, helected, hlen, hentries, -, hcommit, hdecided⟩ := h
  refine ⟨?_, ?_, hlen, hentries, hcommit, hdecided⟩
  · rw [helected]
    exact some_ne_none src
  · rw [helected]
    exact fun heq => hne (some.inj heq)

variable {changed : Bool}

section

variable (hgood : Good cfg p) (h : NodeRel cfg p me r) (hterm : r.currentTerm = args.term)
  (hrequest : RequestOk cfg p ⟨src, me, .appendEntries args⟩)

include hgood h hterm hrequest

/-- A peer with the entries of the request acknowledges them and commits. -/
lemma NodeRel.accept (htake : (p.log me).take (args.prevLogIndex + args.entries.length) =
      (p.leaderLog args.term).take (args.prevLogIndex + args.entries.length)) :
    Moves cfg me p { r with
        commitIndex := max r.commitIndex (min args.leaderCommit r.getLastLogIndex) } fun p' =>
      ReplyOk cfg p' ⟨src, me, .appendEntries args⟩
        (.appendEntries ⟨.appNormal, r.currentTerm, true, some 0⟩) := by
  have hmatches := hrequest.matches
  have hack := h.acknowledge hgood (hterm ▸ hmatches.le_length) (hterm ▸ htake)
  refine hack.bind fun p₁ hlocal hgood₁ h₁ hreplicated => ?_
  have hmatches₁ := (hrequest.extend hlocal.toExtends).matches
  have hlast₁ := (h₁.hasLog hgood₁).getLastLogIndex_eq
  rw [hlast₁]
  -- what the leader has committed is in both logs
  have hlen : min args.leaderCommit (p₁.log me).length ≤ args.prevLogIndex + args.entries.length :=
    (min_le_left _ _).trans hmatches.leaderCommit_le
  have hdecided := hmatches₁.leaderCommit.of_le (min_le_left _ (p₁.log me).length)
  have hchosen := hgood₁.inv.take_of_decidedBy hdecided hmatches₁.elected
  have htake₁ : (p₁.log me).take (args.prevLogIndex + args.entries.length) =
      (p₁.leaderLog args.term).take (args.prevLogIndex + args.entries.length) := by
    rw [h.log_eq hgood h₁ hgood₁ hlocal.toExtends rfl rfl,
      hlocal.toExtends.take_leaderLog hmatches.le_length]
    exact htake
  refine (h₁.commitUpTo hgood₁ (hterm ▸ hdecided) (min_le_right _ _)
    ((take_eq_take_of_le htake₁ hlen).trans hchosen)).bind fun p₂ hlocal₂ hgood₂ h₂ _ => ?_
  exact .stay hgood₂ h₂ fun _ => ⟨hterm, hterm ▸ hreplicated.extend hlocal₂.toExtends⟩

/-- The entries of a request whose previous entry is in the log. -/
lemma NodeRel.takeEntries (hmatch : r.matchLog args.prevLogIndex args.prevLogTerm = some true)
    (hstep : r.takeEntries args changed = some (r', reply)) :
    Moves cfg me p r' fun p' =>
      ReplyOk cfg p' ⟨src, me, .appendEntries args⟩ (.appendEntries reply) := by
  have hmatches := hrequest.matches
  have hhas := h.hasLog hgood
  obtain ⟨hsnap, hprev, hprevTerm⟩ := hhas.matchLog_eq_some hmatch
  -- `x` is the log of the leader up to the last entry sent
  set x := (p.leaderLog args.term).take (args.prevLogIndex + args.entries.length) with hx
  have hlen : x.length = args.prevLogIndex + args.entries.length := by
    rw [hx, length_take, min_eq_left hmatches.le_length]
  have htake : (p.log me).take args.prevLogIndex = (p.leaderLog args.term).take args.prevLogIndex := by
    refine hgood.inv.take_eq_of_match hmatches.elected (hterm ▸ h.promise_le) (h.base ▸ hsnap) hprev ?_
    rw [hprevTerm]
    exact hrequest.2.2.2.2.1
  have hxtake : x.take args.prevLogIndex = (p.leaderLog args.term).take args.prevLogIndex := by
    rw [hx, take_take, min_eq_left (le_add_right _ _)]
  obtain ⟨⟨r₁, changed₁⟩, hfold, hrest⟩ := bind_eq_some_iff.1 hstep
  have hindex (i : ℕ) (e : LogEntry) (he : x[i]? = some e) : e.logIndex = i + 1 := by
    rw [hx, getElem?_take] at he
    split_ifs at he with hi
    exact hgood.index _ i e he
  have hloop := foldlM_appendEntry hindex args.entries hhas hsnap hprev (htake.trans hxtake.symm)
    hmatches.entries.symm hfold
  dsimp only at hrest
  split_ifs at hrest with hlast hcommit
  obtain ⟨rfl, rfl⟩ := mk.inj (some.inj hrest)
  rcases hloop with ⟨hpre, rfl, rfl⟩ | ⟨hpre, rfl, rfl⟩
  · -- nothing new: at most the term is persisted
    refine (h.persistIf hgood changed₁).bind fun p₁ hlocal hgood₁ h₁ _ => ?_
    have hlog := h.log_eq hgood h₁ hgood₁ hlocal.toExtends (by cases changed₁ <;> rfl)
      (by cases changed₁ <;> rfl)
    have haccept := h₁.accept hgood₁ (by cases changed₁ <;> exact hterm)
      (hrequest.extend hlocal.toExtends) (by
        rw [hlog, hlocal.toExtends.take_leaderLog hmatches.le_length, ← hx, ← hlen]
        exact (prefix_iff_eq_take.1 hpre).symm)
    cases changed₁ <;> exact haccept
  · -- the log of the leader takes the place of the own one, and the term is persisted with it
    refine (h.persist hgood).bind fun p₁ hlocal hgood₁ h₁ _ => ?_
    have hlog := h.log_eq hgood h₁ hgood₁ hlocal.toExtends rfl rfl
    have hrequest₁ := hrequest.extend hlocal.toExtends
    have hmatches₁ := hrequest₁.matches
    have hx₁ : (p₁.leaderLog args.term).take (args.prevLogIndex + args.entries.length) = x :=
      hlocal.toExtends.take_leaderLog hmatches.le_length
    have hinv := hgood₁.inv.overwrite (h₁.promise.trans hterm) (h₁.term.trans hterm) hmatches₁.elected
      (h₁.base.le.trans (hsnap.trans (le_add_right _ _))) hmatches₁.le_length (by
        rw [hx₁, hlog]
        exact hpre)
    have hhas₁ := hhas.replace hsnap (hlen ▸ le_add_right _ _) (htake.trans hxtake.symm) hindex
    have h₂ := h₁.rewrite rfl hhas₁.snapshotTerm fun he =>
      absurd (hterm ▸ he) hmatches₁.elected_ne
    rw [hx₁, h₁.base] at hinv
    have hgood₂ : Good cfg (p₁.rewrite me x r.lastSnapshotIncludeIndex) := ⟨hinv, hgood₁.index⟩
    have haccept := h₂.accept hgood₂ hterm (hrequest₁.extend local_rewrite.toExtends) (by
      rw [log_rewrite, ← hlen, take_length, hlen]
      exact hx₁.symm)
    obtain ⟨p₃, hlocal₃, hgood₃, h₃, hreply⟩ := haccept
    exact ⟨p₃, local_rewrite.trans hlocal₃, hgood₃, h₃, hreply⟩

end

section

variable (hgood : Good cfg p) (h : NodeRel cfg p me r)

include hgood h

lemma NodeRel.rejectEntries {t : ℕ}
    {next : Option ℕ} : Moves cfg me p (r.persistIf changed) fun p' =>
      ReplyOk cfg p' ⟨src, me, .appendEntries args⟩ (.appendEntries ⟨.appNormal, t, false, next⟩) :=
  (h.persistIf hgood changed).map (fun _ h => h) fun _ _ _ _ hsuccess => by cases hsuccess

lemma NodeRel.followEntries
    (hterm : r.currentTerm = args.term) (hrequest : RequestOk cfg p ⟨src, me, .appendEntries args⟩)
    (hstep : r.followEntries args changed = some (r', reply)) :
    Moves cfg me p r' fun p' =>
      ReplyOk cfg p' ⟨src, me, .appendEntries args⟩ (.appendEntries reply) := by
  unfold Node.followEntries at hstep
  split_ifs at hstep with hlast hsnap
  · obtain ⟨rfl, rfl⟩ := mk.inj (some.inj hstep)
    exact h.rejectEntries hgood
  · obtain ⟨rfl, rfl⟩ := mk.inj (some.inj hstep)
    exact h.rejectEntries hgood
  · obtain ⟨found, hfound, hrest⟩ := bind_eq_some_iff.1 hstep
    cases found with
    | true => exact h.takeEntries hgood hterm hrequest hfound hrest
    | false =>
      obtain ⟨next, -, hnext⟩ := bind_eq_some_iff.1 hrest
      obtain ⟨rfl, rfl⟩ := mk.inj (some.inj hnext)
      exact h.rejectEntries hgood

omit hgood h in
/-- A peer that is no longer the leader, or never was. -/
lemma NodeRel.follow (h : NodeRel cfg p me r) : NodeRel cfg p me { r with status := .follower } :=
  { h with leader := fun hleader => by cases hleader }

lemma NodeRel.appendEntries1 (hrequest : RequestOk cfg p ⟨src, me, .appendEntries args⟩)
    (hstep : r.appendEntries1 args = some (r', reply)) :
    Moves cfg me p r' fun p' =>
      ReplyOk cfg p' ⟨src, me, .appendEntries args⟩ (.appendEntries reply) := by
  unfold Node.appendEntries1 at hstep
  split_ifs at hstep with hlow hhigh
  · obtain ⟨rfl, rfl⟩ := mk.inj (some.inj hstep)
    exact .stay hgood h fun hsuccess => by cases hsuccess
  · refine (h.stepDown hgood hhigh).bind fun p₁ hlocal hgood₁ h₁ _ => ?_
    exact h₁.followEntries hgood₁ rfl (hrequest.extend hlocal.toExtends) hstep
  · exact h.follow.followEntries hgood (by
      show r.currentTerm = args.term
      omega) hrequest hstep

end

end

/-! ## Snapshots -/

section

variable {args : InstallSnapshotArgs n}

section

variable (hgood : Good cfg p) (h : NodeRel cfg p me r)

include hgood h

lemma NodeRel.followSnapshot (args : InstallSnapshotArgs n) :
    Moves cfg me p (r.followSnapshot args) fun _ => True := by
  unfold Node.followSnapshot
  split_ifs with hhigh
  · exact (h.stepDown hgood hhigh).bind fun p₁ _ hgood₁ h₁ _ => h₁.persist hgood₁
  · exact .stay hgood h.follow trivial

/-- A decided prefix takes the place of the own one, and is persisted. -/
lemma NodeRel.install {index : ℕ}
    {logs : List LogEntry} {term : ℕ} (hindex : r.lastSnapshotIncludeIndex ≤ index)
    (hdecided : p.DecidedBy cfg.IsQuorum r.currentTerm index)
    (hlogs : logs = (p.log me).drop index) (hterm : term = termAt p.chosen index) :
    Moves cfg me p (Node.persist { r with
      logs := logs, lastSnapshotIncludeIndex := index, lastSnapshotIncludeTerm := term })
      fun p' => p'.DecidedBy cfg.IsQuorum r.currentTerm index ∧ index ≤ (p'.log me).length ∧
        (p'.log me).take index = p'.chosen.take index := by
  refine (h.persist hgood).bind fun p₁ hlocal hgood₁ h₁ _ => ?_
  have hlog := h.log_eq hgood h₁ hgood₁ hlocal.toExtends rfl rfl
  have hdecided₁ := hlocal.toExtends.decidedBy hdecided
  have hle := hdecided₁.le_length
  have hchosen : p₁.chosen.take index = p.chosen.take index :=
    hlocal.toExtends.take_chosen hdecided.le_length
  have hpromise : p₁.promise me = r.currentTerm := h₁.promise
  have hinv := hgood₁.inv.install (h₁.base.le.trans hindex) (hpromise.symm ▸ hdecided₁)
  have htake : (splice p₁.chosen index (p₁.log me)).take index = p₁.chosen.take index := by
    rw [splice, take_append_of_le_length, take_take, min_self]
    rw [length_take, min_eq_left hle]
  refine ⟨p₁.rewrite me (splice p₁.chosen index (p₁.log me)) index, local_rewrite,
    ⟨hinv, hgood₁.index⟩, h₁.rewrite ?_ ?_ fun helected => ?_, hdecided₁, ?_, ?_⟩
  · rw [drop_splice hle, hlog]
    exact hlogs
  · rw [termAt_eq_of_take_eq htake le_rfl, termAt_eq_of_take_eq hchosen le_rfl]
    exact hterm
  · -- a former leader of the term has the prefix already
    have hlead : p₁.log me = p₁.leaderLog r.currentTerm := by
      rw [← hpromise] at helected ⊢
      exact h₁.elected_log helected
    have hne : p₁.elected r.currentTerm ≠ none := by
      rw [helected]
      exact some_ne_none me
    have hpre := hgood₁.inv.take_of_decidedBy hdecided₁ hne
    rw [← hlead] at hpre ⊢
    exact splice_eq_self hpre
  · rw [log_rewrite, length_splice hle]
    exact le_max_left _ _
  · rw [log_rewrite]
    exact htake

lemma NodeRel.restoreSnapshot (hindex : r.lastSnapshotIncludeIndex ≤ args.lastSnapshotIncludeIndex)
    (hterm : args.term ≤ r.currentTerm)
    (hok : SnapshotOk cfg p args.term args.lastSnapshotIncludeIndex args.lastSnapshotIncludeTerm)
    (data : Bytes) : Moves cfg me p (r.restoreSnapshot args data) fun _ => True := by
  have hhas := h.hasLog hgood
  have hlogs : (if args.lastSnapshotIncludeIndex < r.getLastLogIndex then
      r.logs.drop (args.lastSnapshotIncludeIndex - r.lastSnapshotIncludeIndex) else []) =
      (p.log me).drop args.lastSnapshotIncludeIndex := by
    rw [hhas.getLastLogIndex_eq]
    split_ifs with hlast
    · rw [hhas.logs, drop_drop, Nat.add_sub_cancel' hindex]
    · exact (drop_eq_nil_of_le (Nat.le_of_not_lt hlast)).symm
  refine (h.install hgood hindex (hok.1.mono hterm) hlogs hok.2).bind fun p₁ _ hgood₁ h₁ hpre => ?_
  obtain ⟨hdecided, hle, htake⟩ := hpre
  exact (h₁.commitUpTo hgood₁ hdecided hle htake).map (fun _ h => { h with }) fun _ _ _ _ => trivial

lemma NodeRel.installSnapshot
    (hok : SnapshotOk cfg p args.term args.lastSnapshotIncludeIndex args.lastSnapshotIncludeTerm) :
    Moves cfg me p (r.installSnapshot args).1 fun _ => True := by
  unfold Node.installSnapshot
  dsimp only
  by_cases hlow : args.term < r.currentTerm
  · rw [if_pos hlow]
    exact .stay hgood h trivial
  rw [if_neg hlow]
  have hterm : args.term ≤ (r.followSnapshot args).currentTerm := by
    unfold Node.followSnapshot
    split_ifs with hhigh
    · exact le_rfl
    · exact Nat.le_of_not_lt hhigh
  refine (h.followSnapshot hgood args).bind fun p₁ hlocal hgood₁ h₁ _ => ?_
  have hok₁ := hok.extend hlocal.toExtends
  have hbuffer (buffer : Bytes) : NodeRel cfg p₁ me { r.followSnapshot args with
      snapshotReceiveBuffer := buffer } := { h₁ with }
  split_ifs with hold hone hdone
  · exact .stay hgood₁ h₁ trivial
  · exact (hbuffer []).restoreSnapshot hgood₁ (Nat.le_of_not_le hold) hterm hok₁ _
  · exact (hbuffer []).restoreSnapshot hgood₁ (Nat.le_of_not_le hold) hterm hok₁ _
  · exact .stay hgood₁ (hbuffer _) trivial

/-- Compaction keeps the complete log. -/
lemma NodeRel.snapshot {index : ℕ} {data : Bytes}
    (hstep : r.snapshot index data = some r') : Moves cfg me p r' fun _ => True := by
  have hhas := h.hasLog hgood
  have hn := hgood.inv.node me
  unfold Node.snapshot at hstep
  split_ifs at hstep with hreject
  · obtain rfl := some.inj hstep
    exact .stay hgood h trivial
  · obtain ⟨s, hs, hread⟩ := bind_eq_some_iff.1 hstep
    obtain ⟨entry, hentry, hresult⟩ := bind_eq_some_iff.1 hread
    obtain ⟨hlt, hle, hsum⟩ := hhas.getSlices_eq_some hs
    have hcommit : index ≤ p.commit me := by
      rw [h.commit]
      omega
    rw [hhas.getElem?_logs] at hentry
    have hterm : entry.logTerm = termAt p.chosen index := by
      have htake := take_eq_take_of_le hn.commit_take hcommit
      rw [← termAt_eq_of_take_eq htake le_rfl, ← hsum, termAt_succ hentry]
      rfl
    have hlogs : (r.logs.drop (s + 1)).take (r.getLastLogIndex - index) = (p.log me).drop index := by
      rw [hhas.getLastLogIndex_eq, hhas.logs, drop_drop, ← add_assoc, hsum]
      exact take_of_length_le (by rw [length_drop])
    have hdecided := hn.commit_decided.of_le hcommit
    rw [h.term] at hdecided
    refine (h.install hgood hlt.le hdecided hlogs hterm).bind fun p₁ _ hgood₁ h₁ hpre => ?_
    obtain ⟨hdecided₁, hle₁, htake₁⟩ := hpre
    refine (h₁.commitUpTo hgood₁ hdecided₁ hle₁ htake₁).bind fun p₂ _ hgood₂ h₂ _ => ?_
    obtain rfl := some.inj hresult
    split_ifs
    · exact .stay hgood₂ { h₂ with } trivial
    · exact NodeRel.restart hgood₂ { h₂ with }

end

end

/-! ## Delivery -/

lemma applyLogs_eq_some (h : HasLog r l) (count : ℕ) :
    ∀ {lastApplied : ℕ} {msgs : List ApplyMsg}, r.applyLogs lastApplied count = some msgs →
      ∀ msg ∈ msgs, ∃ i e, lastApplied < i ∧ i ≤ lastApplied + count ∧ l[i - 1]? = some e ∧
        msg = .command i e.command := by
  induction count with
  | zero =>
    intro lastApplied msgs happly msg hmsg
    rw [← some.inj happly] at hmsg
    cases hmsg
  | succ count ih =>
    intro lastApplied msgs happly msg hmsg
    obtain ⟨e, he, hcheck⟩ := bind_eq_some_iff.1 happly
    split_ifs at hcheck with hindex
    obtain ⟨rest, hrest, hcons⟩ := bind_eq_some_iff.1 hcheck
    rw [← some.inj hcons] at hmsg
    rcases mem_cons.1 hmsg with rfl | hmsg
    · exact ⟨lastApplied + 1, e, by omega, by omega, (h.entryAt_eq_some he).2.2, rfl⟩
    · obtain ⟨i, e', hlt, hle, hget, rfl⟩ := ih hrest msg hmsg
      exact ⟨i, e', by omega, by omega, hget, rfl⟩

/-- Only decided entries are delivered. -/
lemma NodeRel.getApplyLogs (hgood : Good cfg p) (h : NodeRel cfg p me r) {msgs : List ApplyMsg}
    (hlt : r.lastApplied < r.commitIndex) (hstep : r.getApplyLogs = some (r', msgs)) :
    NodeRel cfg p me r' ∧ ∀ msg ∈ msgs, DeliveredOk p msg := by
  unfold Node.getApplyLogs at hstep
  split_ifs at hstep with hlast
  obtain ⟨msgs', happly, hresult⟩ := bind_eq_some_iff.1 hstep
  obtain ⟨rfl, rfl⟩ := mk.inj (some.inj hresult)
  refine ⟨{ h with }, fun msg hmsg => ?_⟩
  obtain ⟨i, e, hpos, hle, hget, rfl⟩ := applyLogs_eq_some (h.hasLog hgood) _ happly msg hmsg
  refine ⟨by omega, ?_⟩
  have htake := congrArg (·[i - 1]?) (hgood.inv.node me).commit_take
  rw [h.commit] at htake
  simp only [getElem?_take_of_lt (by omega : i - 1 < r.commitIndex), hget] at htake
  rw [← htake]
  rfl

end StrataKV.Raft
