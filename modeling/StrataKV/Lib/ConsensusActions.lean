import StrataKV.Lib.Consensus

/-!
# What the nodes of a replicated log do

Each action keeps the invariant of the protocol and forgets nothing.
-/

namespace StrataKV.Consensus

open Function List State Nat

/-! ## The beginning -/

/-- Nothing has happened. -/
def State.initial (ν α : Type*) : State ν α where
  term := fun _ => 0
  promise := fun _ => 0
  log := fun _ => []
  base := fun _ => 0
  commit := fun _ => 0
  vote := fun _ _ => none
  candidateLog := fun _ _ => []
  elected := fun _ => none
  leaderLog := fun _ => []
  acks := fun _ _ _ => False
  chosen := []

/-- The initial state meets the invariant. -/
lemma Inv.initial {ν α : Type*} [Termed α] (isQuorum : Finset ν → Prop) :
    Inv isQuorum (initial ν α) where
  node := fun v => by
    refine ⟨le_rfl, fun i e _ he => ?_, fun i e _ he => ?_, le_rfl, rfl, .inl rfl, le_rfl, rfl,
      .inl rfl⟩
    · cases he
    · cases he
  vote_le := fun _ _ _ h => by cases h
  elected_voted := fun _ _ h => by cases h
  leaderLog_elected := fun _ _ => rfl
  leads := fun _ _ _ h => by cases h
  term_pos := fun _ _ _ h => by cases h
  acks_le := fun _ _ _ h => h.elim
  acked := fun _ _ _ ⟨_, _, h⟩ => h.elim
  complete := fun _ _ _ _ h => absurd rfl h
  voted := fun _ _ _ _ _ h => by cases h
  candidate := fun _ _ h => by cases h
  candidate_log := fun _ _ h => by cases h
  chosen_decided := .inl rfl

/-! ## Small actions -/

section

variable {ν α : Type*} [Termed α] {isQuorum : Finset ν → Prop} {p p' : State ν α} {v : ν}

/-- A node whose log, base and commit index stay keeps its invariant in every later state. -/
lemma NodeInv.extend (h : NodeInv isQuorum p v) (hext : Extends p p') (hlog : p'.log v = p.log v)
    (hbase : p'.base v = p.base v) (hcommit : p'.commit v = p.commit v)
    (hterm : p.term v ≤ p'.term v) (hpromise : p'.promise v ≤ p'.term v) :
    NodeInv isQuorum p' v := by
  refine ⟨hpromise, ?_, ?_, ?_, ?_, ?_, ?_, ?_, ?_⟩
  · rw [hlog, hbase]
    exact hext.segment h.segment
  · rw [hlog, hbase]
    exact fun i e hi he => (h.entry_le i e hi he).trans (hext.promise v)
  · rw [hlog, hbase]
    exact h.base_le
  · rw [hlog, hbase, hext.take_chosen h.base_decided.le_length]
    exact h.base_take
  · rw [hbase]
    exact (hext.decidedBy h.base_decided).mono (hext.promise v)
  · rw [hlog, hcommit]
    exact h.commit_le
  · rw [hlog, hcommit, hext.take_chosen h.commit_decided.le_length]
    exact h.commit_take
  · rw [hcommit]
    exact (hext.decidedBy h.commit_decided).mono hterm

variable [DecidableEq ν]

/-- A node enters a term, and keeps the promise not to fall back behind `q`. -/
def State.raise (p : State ν α) (v : ν) (t q : ℕ) : State ν α :=
  { p with term := Function.update p.term v t, promise := Function.update p.promise v q }

omit [Termed α] in
lemma extends_raise {t q : ℕ} (hq : p.promise v ≤ q) : Extends p (p.raise v t q) := by
  refine { Extends.refl with promise := fun w => ?_ }
  by_cases hw : w = v
  · subst hw
    simpa [raise] using hq
  · simp [raise, update_of_ne hw]

/-- A later term and a later promise keep the invariant. -/
lemma Inv.raise (h : Inv isQuorum p) {t q : ℕ} (ht : p.term v ≤ t) (hq : p.promise v ≤ q)
    (hqt : q ≤ t) : Inv isQuorum (p.raise v t q) := by
  have hext := extends_raise (t := t) hq
  refine ⟨fun w => ?_, fun w t c hc => ?_, h.elected_voted, h.leaderLog_elected, h.leads, h.term_pos,
    fun w t m hm => ?_, fun w t k ha ho hc => h.acked w t k ha ho (hext.choosable hc),
    fun t t' k hlt he ho hc => h.complete t t' k hlt he ho (hext.choosable hc),
    fun w t' c t k hv hlt ha ho hc => h.voted w t' c t k hv hlt ha ho (hext.choosable hc), h.candidate,
    fun c t hv hp he => ?_, h.chosen_decided⟩
  · refine (h.node w).extend hext rfl rfl rfl ?_ ?_
    · by_cases hw : w = v
      · subst hw
        simpa [raise] using ht
      · simp [State.raise, update_of_ne hw]
    · by_cases hw : w = v
      · subst hw
        simpa [raise] using hqt
      · simpa [State.raise, update_of_ne hw] using (h.node w).promise_le
  · obtain ⟨hpos, hle, hself⟩ := h.vote_le w t c hc
    exact ⟨hpos, hle.trans (hext.promise w), hself⟩
  · exact ⟨(h.acks_le w t m hm).1.trans (hext.promise w), (h.acks_le w t m hm).2⟩
  · -- a candidate of the term has promised it already
    have hle := (h.vote_le c t c hv).2.1
    refine h.candidate_log c t hv (le_antisymm ?_ hle) he
    exact hp ▸ hext.promise c

/-- A node falls back to what it promised and forgets what is committed. -/
def State.restart (p : State ν α) (v : ν) : State ν α :=
  { p with
    term := Function.update p.term v (p.promise v)
    commit := Function.update p.commit v 0 }

omit [Termed α] in
lemma extends_restart : Extends p (p.restart v) := { Extends.refl with }

/-- A restart keeps the invariant. -/
lemma Inv.restart (h : Inv isQuorum p) : Inv isQuorum (p.restart v) := by
  refine { h with node := fun w => ?_ }
  by_cases hw : w = v
  · subst hw
    have hn := h.node w
    refine ⟨?_, hn.segment, hn.entry_le, hn.base_le, hn.base_take, hn.base_decided, ?_, ?_, ?_⟩
    · simp [restart]
    · simp [restart]
    · simp [restart]
    · exact .inl (by simp [restart])
  · refine (h.node w).extend extends_restart rfl rfl ?_ ?_ ?_
    · simp [State.restart, update_of_ne hw]
    · simp [State.restart, update_of_ne hw]
    · simpa [State.restart, update_of_ne hw] using (h.node w).promise_le

/-! ### Votes -/

/-- A node becomes a candidate in a new term. -/
def State.campaign (p : State ν α) (v : ν) (t : ℕ) : State ν α :=
  { p.raise v t t with
    vote := fun w t' => if w = v ∧ t' = t then some v else p.vote w t'
    candidateLog := fun t' c => if c = v ∧ t' = t then p.log v else p.candidateLog t' c }

variable {t : ℕ}

omit [DecidableEq ν] in
/-- A node has not voted in a term above its promise. -/
lemma Inv.vote_none (h : Inv isQuorum p) (ht : p.promise v < t) : p.vote v t = none := by
  cases hv : p.vote v t with
  | none => rfl
  | some c => exact absurd (h.vote_le v t c hv).2.1 (by omega)

lemma Inv.extends_campaign (h : Inv isQuorum p) (ht : p.term v < t) :
    Extends p (p.campaign v t) := by
  have hlt := lt_of_le_of_lt (h.node v).promise_le ht
  refine { extends_raise (t := t) hlt.le with vote := fun w t' c hc => ?_, candidateLog := ?_ }
  · show (if w = v ∧ t' = t then some v else p.vote w t') = some c
    rw [if_neg, hc]
    rintro ⟨rfl, rfl⟩
    rw [h.vote_none hlt] at hc
    cases hc
  · intro t' c hc
    refine if_neg ?_
    rintro ⟨rfl, rfl⟩
    rw [h.vote_none hlt] at hc
    cases hc

/-- A candidacy for a new term keeps the invariant. -/
lemma Inv.campaign (h : Inv isQuorum p) (ht : p.term v < t) : Inv isQuorum (p.campaign v t) := by
  have hn := h.node v
  have hlt := lt_of_le_of_lt hn.promise_le ht
  have hnone := h.vote_none hlt
  have hext := h.extends_campaign ht
  have hr := h.raise (v := v) ht.le hlt.le le_rfl
  -- nobody has voted for the candidate yet
  have hnew (w : ν) : p.vote w t ≠ some v := by
    intro hv
    rw [(h.vote_le w t v hv).2.2] at hnone
    cases hnone
  refine ⟨fun w => ?_, fun w t' c hc => ?_, fun t' c hc => ?_, h.leaderLog_elected, h.leads, h.term_pos,
    hr.acks_le, hr.acked, hr.complete, fun w t' c u k hv hut ha ho hc => ?_, fun c t' hv => ?_,
    fun c t' hv hp he => ?_, h.chosen_decided⟩
  · obtain ⟨a, b, c, d, e, f, g, i, j⟩ := hr.node w
    exact ⟨a, b, c, d, e, f, g, i, j⟩
  · by_cases hwt : w = v ∧ t' = t
    · obtain ⟨rfl, rfl⟩ := hwt
      obtain rfl : w = c := by simpa [campaign] using hc
      exact ⟨by omega, by simp [State.campaign, State.raise], by simp [State.campaign]⟩
    · have hold : p.vote w t' = some c := by simpa [State.campaign, hwt] using hc
      obtain ⟨hpos, hle, hself⟩ := h.vote_le w t' c hold
      exact ⟨hpos, hle.trans (hext.promise w), hext.vote c t' c hself⟩
  · obtain ⟨Q, hQ, hall⟩ := h.elected_voted t' c hc
    exact ⟨Q, hQ, fun w hw => hext.vote w t' c (hall w hw)⟩
  · by_cases hwt : w = v ∧ t' = t
    · obtain ⟨rfl, rfl⟩ := hwt
      obtain rfl : w = c := by simpa [campaign] using hv
      simpa [State.campaign, State.raise] using (hr.acked w u k ha ho hc).2
    · have hold : p.vote w t' = some c := by simpa [State.campaign, hwt] using hv
      have hct : ¬(c = v ∧ t' = t) := by
        rintro ⟨rfl, rfl⟩
        exact hnew w hold
      simpa [State.campaign, State.raise, hct] using hr.voted w t' c u k hold hut ha ho hc
  · by_cases hct : c = v ∧ t' = t
    · obtain ⟨rfl, rfl⟩ := hct
      have hlog : (p.campaign c t').candidateLog t' c = p.log c := by simp [campaign]
      rw [hlog]
      refine ⟨p.base c, hn.base_le, hn.base_take, ?_, hn.segment, fun i e hi he => ?_⟩
      · exact hext.decidedBy (hn.base_decided.mono (by omega))
      · exact lt_of_le_of_lt (hn.entry_le i e hi he) hlt
    · have hold : p.vote c t' = some c := by simpa [State.campaign, hct] using hv
      rw [hext.candidateLog t' c hold]
      exact h.candidate c t' hold
  · by_cases hct : c = v ∧ t' = t
    · obtain ⟨rfl, rfl⟩ := hct
      simp [State.campaign, State.raise]
    · have hold : p.vote c t' = some c := by simpa [State.campaign, hct] using hv
      rw [hext.candidateLog t' c hold]
      exact hr.candidate_log c t' hold hp he

/-- A node votes for a candidate of its term. -/
def State.grant (p : State ν α) (v : ν) (t : ℕ) (c : ν) : State ν α :=
  { p with vote := fun w t' => if w = v ∧ t' = t then some c else p.vote w t' }

omit [Termed α] in
lemma extends_grant {c : ν} (hvote : p.vote v t = none ∨ p.vote v t = some c) :
    Extends p (p.grant v t c) := by
  refine { Extends.refl with vote := fun w t' c' hc => ?_ }
  show (if w = v ∧ t' = t then some c else p.vote w t') = some c'
  split_ifs with hwt
  · obtain ⟨rfl, rfl⟩ := hwt
    rcases hvote with hv | hv
    · rw [hv] at hc
      cases hc
    · exact hv.symm.trans hc
  · exact hc

/-- A vote for a candidate that is up to date keeps the invariant. -/
lemma Inv.grant (h : Inv isQuorum p) {c : ν} (hpromise : p.promise v = t)
    (hvote : p.vote v t = none ∨ p.vote v t = some c) (hself : p.vote c t = some c)
    (hup : UpToDate (lastTerm (p.candidateLog t c)) (p.candidateLog t c).length
      (lastTerm (p.log v)) (p.log v).length) : Inv isQuorum (p.grant v t c) := by
  have hext := extends_grant hvote
  have hold {w : ν} {t' : ℕ} {c' : ν} (hwt : ¬(w = v ∧ t' = t))
      (hv : (p.grant v t c).vote w t' = some c') : p.vote w t' = some c' := by
    simpa [State.grant, hwt] using hv
  have hcand {c' : ν} {t' : ℕ} (hv : (p.grant v t c).vote c' t' = some c') : p.vote c' t' = some c' := by
    by_cases hct : c' = v ∧ t' = t
    · obtain ⟨rfl, rfl⟩ := hct
      obtain rfl : c = c' := by simpa [grant] using hv
      exact hself
    · exact hold hct hv
  refine ⟨fun w => (h.node w).extend hext rfl rfl rfl le_rfl (h.node w).promise_le,
    fun w t' c' hc => ?_, fun t' c' hc => ?_, h.leaderLog_elected, h.leads, h.term_pos, h.acks_le, h.acked,
    h.complete, fun w t' c' u k hv hut ha ho hc => ?_, fun c' t' hv => h.candidate c' t' (hcand hv),
    fun c' t' hv hp he => h.candidate_log c' t' (hcand hv) hp he, h.chosen_decided⟩
  · by_cases hwt : w = v ∧ t' = t
    · obtain ⟨rfl, rfl⟩ := hwt
      obtain rfl : c = c' := by simpa [grant] using hc
      exact ⟨(h.vote_le c t' c hself).1, hpromise.ge, hext.vote c t' c hself⟩
    · obtain ⟨hpos, hle, hself'⟩ := h.vote_le w t' c' (hold hwt hc)
      exact ⟨hpos, hle, hext.vote c' t' c' hself'⟩
  · obtain ⟨Q, hQ, hall⟩ := h.elected_voted t' c' hc
    exact ⟨Q, hQ, fun w hw => hext.vote w t' c' (hall w hw)⟩
  · by_cases hwt : w = v ∧ t' = t
    · obtain ⟨rfl, rfl⟩ := hwt
      obtain rfl : c = c' := by simpa [grant] using hv
      exact hup.trans (h.acked w u k ha ho hc).2
    · exact h.voted w t' c' u k (hold hwt hv) hut ha ho hc

/-! ### Leading -/

/-- A node writes entries of its own to its log, as the leader of the term. -/
def State.lead (p : State ν α) (c : ν) (t : ℕ) (es : List α) : State ν α :=
  { p with
    elected := Function.update p.elected t (some c)
    leaderLog := Function.update p.leaderLog t (p.log c ++ es)
    log := Function.update p.log c (p.log c ++ es)
    acks := fun v t' m => p.acks v t' m ∨ v = c ∧ t' = t ∧ m ≤ (p.log c ++ es).length }

/-- The node leads the term, or has won the election for it. -/
structure CanLead (isQuorum : Finset ν → Prop) (p : State ν α) (c : ν) (t : ℕ) : Prop where
  promise : p.promise c = t
  elected : p.elected t = none ∨ p.elected t = some c
  voted : p.Voted isQuorum c t
  leaderLog : p.leaderLog t <+: p.log c
  leads : p.Leads t (p.log c)
  complete : ∀ u k, u < t → p.Own u k → p.Choosable isQuorum u k →
    (p.log c).take k = (p.leaderLog u).take k

section

variable {c : ν} {t : ℕ} {es : List α}

section

omit [Termed α]

@[simp] lemma log_lead : (p.lead c t es).log c = p.log c ++ es := update_self ..

@[simp] lemma leaderLog_lead : (p.lead c t es).leaderLog t = p.log c ++ es := update_self ..

lemma log_lead_of_ne {w : ν} (hw : w ≠ c) : (p.lead c t es).log w = p.log w := update_of_ne hw ..

lemma leaderLog_lead_of_ne {u : ℕ} (hu : u ≠ t) : (p.lead c t es).leaderLog u = p.leaderLog u :=
  update_of_ne hu ..

end

lemma lastTerm_append (hes : es ≠ []) (hterm : ∀ e ∈ es, Termed.term e = t) (l : List α) :
    lastTerm (l ++ es) = t := by
  have hpos := length_pos_of_ne_nil hes
  obtain ⟨e, he⟩ : ∃ e, (l ++ es)[l.length + (es.length - 1)]? = some e := by
    refine ⟨_, getElem?_eq_getElem ?_⟩
    rw [length_append]
    omega
  have hlen : (l ++ es).length = l.length + (es.length - 1) + 1 := by
    rw [length_append]
    omega
  rw [lastTerm, hlen, termAt_succ he]
  rw [getElem?_append_right (Nat.le_add_right _ _), Nat.add_sub_cancel_left] at he
  exact hterm e (mem_of_getElem? he)

lemma CanLead.extends_lead (hc : CanLead isQuorum p c t) (es : List α) :
    Extends p (p.lead c t es) := by
  refine { Extends.refl with
    leaderLog := fun u => ?_, elected := fun u d hd => ?_, acks := fun v u m hm => .inl hm,
    acks_late := fun v u m hm => ?_ }
  · by_cases hu : u = t
    · subst hu
      rw [leaderLog_lead]
      exact hc.leaderLog.trans (prefix_append _ _)
    · rw [leaderLog_lead_of_ne hu]
  · by_cases hu : u = t
    · subst hu
      rcases hc.elected with hnone | hsome
      · rw [hnone] at hd
        cases hd
      · rw [← hd, hsome]
        exact update_self ..
    · exact (update_of_ne hu ..).trans hd
  · rcases hm with hm | ⟨rfl, rfl, -⟩
    · exact .inl hm
    · exact .inr hc.promise.le

/-- An acknowledgement that a later vote or a log entry can speak of is not new. -/
lemma Inv.acked_of_lead (h : Inv isQuorum p) (hc : CanLead isQuorum p c t) {v : ν} {u k : ℕ}
    (ha : (p.lead c t es).Acked v u k) (ho : (p.lead c t es).Own u k) (hnew : ¬(v = c ∧ u = t)) :
    p.Acked v u k ∧ p.Own u k := by
  obtain ⟨m, hkm, hm | ⟨rfl, rfl, -⟩⟩ := ha
  · exact ⟨⟨m, hkm, hm⟩, (hc.extends_lead es).own_of_le ho (hkm.trans (h.acks_le v u m hm).2)⟩
  · exact absurd ⟨rfl, rfl⟩ hnew

omit [DecidableEq ν] in
/-- An entry of the longer log is an old one, or new and of the term. -/
lemma getElem?_lead {i : ℕ} {e : α} (hterm : ∀ e ∈ es, Termed.term e = t)
    (hi : (p.log c ++ es)[i]? = some e) :
    ((p.log c)[i]? = some e ∧ (p.log c ++ es).take (i + 1) = (p.log c).take (i + 1)) ∨
      ((p.log c).length ≤ i ∧ Termed.term e = t) := by
  rcases lt_or_ge i (p.log c).length with hlt | hge
  · left
    rw [getElem?_append_left hlt] at hi
    exact ⟨hi, take_append_of_le_length hlt⟩
  · right
    rw [getElem?_append_right hge] at hi
    exact ⟨hge, hterm e (mem_of_getElem? hi)⟩

lemma Inv.leads_lead (h : Inv isQuorum p) (hc : CanLead isQuorum p c t)
    (hterm : ∀ e ∈ es, Termed.term e = t) (u : ℕ) :
    (p.lead c t es).Leads u ((p.lead c t es).leaderLog u) := by
  by_cases hu : u = t
  · subst hu
    intro i e he
    rw [leaderLog_lead] at he ⊢
    rcases getElem?_lead hterm he with ⟨hold, htake⟩ | ⟨-, hnew⟩
    · rw [htake]
      exact (hc.extends_lead es).leads hc.leads i e hold
    · rw [hnew, leaderLog_lead]
      exact ⟨le_rfl, rfl⟩
  · rw [leaderLog_lead_of_ne hu]
    exact (hc.extends_lead es).leads (h.leads u)

lemma Inv.term_pos_lead (h : Inv isQuorum p) (hc : CanLead isQuorum p c t) (ht : 0 < t)
    (hterm : ∀ e ∈ es, Termed.term e = t) (u i : ℕ) (e : α)
    (he : ((p.lead c t es).leaderLog u)[i]? = some e) : 0 < Termed.term e := by
  by_cases hu : u = t
  · subst hu
    rw [leaderLog_lead] at he
    rcases getElem?_lead hterm he with ⟨hold, -⟩ | ⟨-, hnew⟩
    · have htake := congrArg (·[i]?) (hc.leads i e hold).2
      simp only [getElem?_take_of_lt (lt_succ_self i), hold] at htake
      exact h.term_pos _ i e htake.symm
    · exact hnew ▸ ht
  · rw [leaderLog_lead_of_ne hu] at he
    exact h.term_pos u i e he

lemma NodeInv.lead (h : NodeInv isQuorum p c) (hc : CanLead isQuorum p c t)
    (hterm : ∀ e ∈ es, Termed.term e = t) : NodeInv isQuorum (p.lead c t es) c := by
  have hext := hc.extends_lead es
  have hlen := (prefix_append (p.log c) es).length_le
  refine ⟨h.promise_le, fun i e hi he => ?_, fun i e hi he => ?_, ?_, ?_,
    hext.decidedBy h.base_decided, ?_, ?_, hext.decidedBy h.commit_decided⟩
  · rw [log_lead] at he ⊢
    rcases getElem?_lead hterm he with ⟨hold, htake⟩ | ⟨-, hnew⟩
    · rw [htake]
      exact hext.segment h.segment i e hi hold
    · rw [hnew, leaderLog_lead]
  · rw [log_lead] at he
    rcases getElem?_lead hterm he with ⟨hold, -⟩ | ⟨-, hnew⟩
    · exact h.entry_le i e hi hold
    · exact (hnew.trans hc.promise.symm).le
  · rw [log_lead]
    exact h.base_le.trans hlen
  · rw [log_lead]
    exact (take_append_of_le_length h.base_le).trans h.base_take
  · rw [log_lead]
    exact h.commit_le.trans hlen
  · rw [log_lead]
    exact (take_append_of_le_length h.commit_le).trans h.commit_take

section

variable (h : Inv isQuorum p) (hc : CanLead isQuorum p c t)
  (hinter : ∀ Q Q', isQuorum Q → isQuorum Q' → ∃ v ∈ Q, v ∈ Q')

include h hc

include hinter in
/-- Leader completeness, after the leader has appended. -/
lemma Inv.complete_lead {u u' k : ℕ} (hlt : u < u') (he : (p.lead c t es).elected u' ≠ none) (ho : (p.lead c t es).Own u k)
    (hch : (p.lead c t es).Choosable isQuorum u k) :
    ((p.lead c t es).leaderLog u').take k = ((p.lead c t es).leaderLog u).take k := by
  have hext := hc.extends_lead es
  have hold := hext.choosable hch
  by_cases hu' : u' = t
  · subst hu'
    rw [leaderLog_lead_of_ne hlt.ne] at ⊢
    have hown : p.Own u k := by
      refine hext.own_of_le ho ?_
      rw [← @leaderLog_lead_of_ne ν α p _ c u' es u hlt.ne]
      exact ho.le_length
    have htake := hc.complete u k hlt hown hold
    rw [leaderLog_lead, take_append_of_le_length (length_le_of_take_eq htake hown.le_length)]
    exact htake
  · have he' : p.elected u' ≠ none := by
      rw [← update_of_ne hu' (some c) p.elected]
      exact he
    rw [leaderLog_lead_of_ne hu']
    rcases lt_or_ge (p.leaderLog u).length k with hk | hk
    · -- nobody but the leader has the new entries, and it did not vote for the later one
      obtain ⟨d, hd⟩ := Option.ne_none_iff_exists'.1 he'
      obtain ⟨Q, hQ, hvotes⟩ := h.elected_voted u' d hd
      obtain ⟨Q', hQ', hall⟩ := hch
      obtain ⟨v, hv, hv'⟩ := hinter Q Q' hQ hQ'
      have hpromise := (h.vote_le v u' d (hvotes v hv)).2.1
      rcases hall v hv' with ⟨m, hkm, hm | ⟨rfl, rfl, -⟩⟩ | hle
      · have := (h.acks_le v u m hm).2
        omega
      · have := hc.promise
        omega
      · have hle : p.promise v ≤ u := hle
        omega
    · have hown := hext.own_of_le ho hk
      rw [hext.take_leaderLog hk]
      exact h.complete u u' k hlt he' hown hold

/-- The append takes no choosable entry from a node that has acknowledged it. -/
lemma Inv.acked_lead (hes : es ≠ [])
    (hterm : ∀ e ∈ es, Termed.term e = t) {v : ν} {u k : ℕ} (ha : (p.lead c t es).Acked v u k)
    (ho : (p.lead c t es).Own u k) (hch : (p.lead c t es).Choosable isQuorum u k) :
    ((p.lead c t es).log v).take k = ((p.lead c t es).leaderLog u).take k ∧
      UpToDate (lastTerm ((p.lead c t es).log v)) ((p.lead c t es).log v).length u k := by
  have hext := hc.extends_lead es
  by_cases hnew : v = c ∧ u = t
  · obtain ⟨rfl, rfl⟩ := hnew
    have hlen := ho.le_length
    rw [leaderLog_lead] at hlen ⊢
    rw [log_lead, lastTerm_append hes hterm]
    exact ⟨rfl, .inr ⟨rfl, hlen⟩⟩
  · obtain ⟨hacked, hown⟩ := h.acked_of_lead hc ha ho hnew
    obtain ⟨htake, hup⟩ := h.acked v u k hacked hown (hext.choosable hch)
    rw [hext.take_leaderLog hown.le_length]
    by_cases hv : v = c
    · subst hv
      -- an acknowledgement of an earlier term
      obtain ⟨m, -, hm⟩ := hacked
      have hle := (h.acks_le v u m hm).1
      have hlt : u < t := lt_of_le_of_ne (hle.trans hc.promise.le) fun heq => hnew ⟨rfl, heq⟩
      rw [log_lead, lastTerm_append hes hterm,
        take_append_of_le_length (length_le_of_take_eq htake hown.le_length)]
      exact ⟨htake, .inl hlt⟩
    · rw [log_lead_of_ne hv]
      exact ⟨htake, hup⟩

include hinter in
/-- An append of the leader keeps the invariant. -/
lemma Inv.lead (ht : 0 < t) (hes : es ≠ []) (hterm : ∀ e ∈ es, Termed.term e = t) : Inv isQuorum (p.lead c t es) := by
  have hext := hc.extends_lead es
  have helected (u : ℕ) (hu : u ≠ t) : (p.lead c t es).elected u = p.elected u := update_of_ne hu ..
  have hself : (p.lead c t es).elected t = some c := update_self ..
  refine ⟨fun w => ?_, h.vote_le, fun u d hd => ?_, fun u hu => ?_, h.leads_lead hc hterm,
    h.term_pos_lead hc ht hterm, fun v u m hm => ?_,
    fun v u k ha ho hch => h.acked_lead hc hes hterm ha ho hch,
    fun u u' k hlt he ho hch => h.complete_lead hc hinter hlt he ho hch,
    fun v u' d u k hv hlt ha ho hch => ?_, fun d u hd => ?_, fun d u hd hp he => ?_, ?_⟩
  · by_cases hw : w = c
    · subst hw
      exact (h.node w).lead hc hterm
    · exact (h.node w).extend hext (log_lead_of_ne hw) rfl rfl le_rfl (h.node w).promise_le
  · by_cases hu : u = t
    · subst hu
      rw [hself] at hd
      exact Option.some.inj hd ▸ hc.voted
    · exact h.elected_voted u d (helected u hu ▸ hd)
  · by_cases hut : u = t
    · rw [hut, hself] at hu
      cases hu
    · rw [leaderLog_lead_of_ne hut]
      exact h.leaderLog_elected u (helected u hut ▸ hu)
  · rcases hm with hm | ⟨rfl, rfl, hm⟩
    · obtain ⟨hle, hlen⟩ := h.acks_le v u m hm
      exact ⟨hle, hlen.trans (hext.leaderLog u).length_le⟩
    · rw [leaderLog_lead]
      exact ⟨hc.promise.ge, hm⟩
  · have hnew : ¬(v = c ∧ u = t) := by
      rintro ⟨rfl, rfl⟩
      have hle := (h.vote_le v u' d hv).2.1
      have heq := hc.promise
      omega
    obtain ⟨hacked, hown⟩ := h.acked_of_lead hc ha ho hnew
    exact h.voted v u' d u k hv hlt hacked hown (hext.choosable hch)
  · obtain ⟨s, hs, htake, hdecided, hsegment, hbelow⟩ := h.candidate d u hd
    exact ⟨s, hs, htake, hext.decidedBy hdecided, hext.segment hsegment, hbelow⟩
  · have hut : u ≠ t := by
      intro hut
      rw [hut, hself] at he
      cases he
    have hdc : d ≠ c := by
      intro hdc
      exact hut (hp.symm.trans (hdc ▸ hc.promise))
    rw [log_lead_of_ne hdc]
    exact h.candidate_log d u hd hp (helected u hut ▸ he)
  · exact h.chosen_decided.imp_right fun ⟨u, hu⟩ => ⟨u, hext.decided hu⟩

end

omit [DecidableEq ν] in
/-- An elected leader that still has its log can append. -/
lemma CanLead.of_elected (h : Inv isQuorum p) (hpromise : p.promise c = t)
    (helected : p.elected t = some c) (hlog : p.log c = p.leaderLog t) : CanLead isQuorum p c t := by
  refine ⟨hpromise, .inr helected, h.elected_voted t c helected, ?_, ?_, fun u k hlt ho hch => ?_⟩
  · rw [hlog]
  · rw [hlog]
    exact h.leads t
  · rw [hlog]
    refine h.complete u t k hlt ?_ ho hch
    rw [helected]
    exact Option.some_ne_none c

omit [DecidableEq ν]

variable (h : Inv isQuorum p) (hinter : ∀ Q Q', isQuorum Q → isQuorum Q' → ∃ v ∈ Q, v ∈ Q')
  (hpromise : p.promise c = t) (hvoted : p.Voted isQuorum c t) (hnone : p.elected t = none)

include h hinter hpromise hvoted hnone

/-- The winner of an election still has the log with which it became a candidate. -/
lemma Inv.log_eq_candidateLog : p.log c = p.candidateLog t c := by
  have hself := h.vote_self_of_voted hinter hvoted
  refine eq_of_take_eq_of_drop_eq ?_ (h.candidate_log c t hself hpromise hnone)
  rw [(h.node c).base_take]
  rcases (h.node c).base_decided with hzero | ⟨u, k, ⟨hcommitted, -, htake⟩, hbk, hu⟩
  · simp [hzero]
  · have hlt : u < t := by
      refine lt_of_le_of_ne (hpromise ▸ hu) fun heq => ?_
      exact h.elected_of_own hcommitted.1 (heq ▸ hnone)
    have heq := (h.take_eq_of_voted hinter hvoted hlt hcommitted.1 hcommitted.choosable).1
    exact take_eq_take_of_le (htake.trans heq.symm) hbk

/-- A candidate with the votes of a quorum can append. -/
lemma CanLead.of_voted : CanLead isQuorum p c t := by
  have hlog := h.log_eq_candidateLog hinter hpromise hvoted hnone
  obtain ⟨u, hu, heq⟩ := h.candidateLog_eq_take hinter hvoted
  refine ⟨hpromise, .inl hnone, hvoted, ?_, fun i e he => ?_, fun u k hlt ho hch => ?_⟩
  · rw [h.leaderLog_elected t hnone]
    exact nil_prefix
  · rw [hlog] at he ⊢
    have hi := (List.getElem?_eq_some_iff.1 he).1
    rw [heq, getElem?_take_of_lt hi] at he
    obtain ⟨hle, htake⟩ := h.leads u i e he
    rw [heq, take_take, min_eq_left hi]
    exact ⟨hle.trans hu.le, htake⟩
  · rw [hlog]
    exact (h.take_eq_of_voted hinter hvoted hlt ho hch).1

end

/-! ### Following -/

section

variable {t k m : ℕ}

section

omit [DecidableEq ν]

/-- A leader log is as up to date, from an agreed position on, as the leader log it agrees with. -/
lemma Inv.upToDate_of_take (h : Inv isQuorum p) {u : ℕ} (ho : p.Own u k)
    (htake : (p.leaderLog t).take k = (p.leaderLog u).take k) (hkm : k ≤ m)
    (hm : m ≤ (p.leaderLog t).length) : UpToDate (termAt (p.leaderLog t) m) m u k := by
  have hterm : termAt (p.leaderLog t) k = u := (termAt_eq_of_take_eq htake le_rfl).trans ho.2
  have hk : 0 < k := by
    refine Nat.pos_of_ne_zero fun hzero => ?_
    rw [hzero] at hterm
    exact absurd hterm ho.1.ne
  obtain ⟨j, rfl⟩ : ∃ j, m = j + 1 := ⟨m - 1, by omega⟩
  have he := getElem?_eq_getElem hm
  obtain ⟨-, hleads⟩ := h.leads t j _ he
  rw [termAt_succ he]
  -- the entry at `k` is also one of the leader log that wrote the last entry
  have hle := h.termAt_le (Termed.term (p.leaderLog t)[j]) k
  rw [← termAt_eq_of_take_eq hleads hkm, hterm] at hle
  rcases lt_or_eq_of_le hle with hlt | heq
  · exact .inl hlt
  · exact .inr ⟨heq, hkm⟩

lemma lastTerm_take {l : List α} (hm : m ≤ l.length) :
    lastTerm (l.take m) = termAt l m ∧ (l.take m).length = m := by
  have hlen : (l.take m).length = m := by rw [length_take, min_eq_left hm]
  refine ⟨?_, hlen⟩
  rw [lastTerm, hlen, termAt_take le_rfl]

/-- A node acknowledges the log of the term's leader. -/
def State.ack (p : State ν α) (v : ν) (t m : ℕ) : State ν α :=
  { p with acks := fun w u n => p.acks w u n ∨ w = v ∧ u = t ∧ n = m }

omit [Termed α] in
lemma extends_ack (hpromise : p.promise v = t) : Extends p (p.ack v t m) := by
  refine { Extends.refl with acks := fun w u n hn => .inl hn, acks_late := fun w u n hn => ?_ }
  rcases hn with hn | ⟨rfl, rfl, -⟩
  · exact .inl hn
  · exact .inr hpromise.le

variable (h : Inv isQuorum p) (hpromise : p.promise v = t) (hbase : p.base v < m)
  (hm : m ≤ (p.leaderLog t).length) (htake : (p.log v).take m = (p.leaderLog t).take m)

include h hpromise hbase hm htake

/-- Nothing behind an agreed position is older than it, unless it was compacted. -/
lemma Inv.upToDate_of_match (ho : p.Own t k) (hkm : k ≤ m) :
    UpToDate (lastTerm (p.log v)) (p.log v).length t k := by
  have hlen := length_le_of_take_eq htake hm
  obtain ⟨j, hj⟩ : ∃ j, (p.log v).length = j + 1 := ⟨(p.log v).length - 1, by omega⟩
  obtain ⟨e, he⟩ : ∃ e, (p.log v)[j]? = some e := ⟨_, getElem?_eq_getElem (by omega)⟩
  have hle := (h.node v).entry_le j e (by omega) he
  -- the leader of the last entry had the entry at `m`, which is one of the term
  have hsegment := (h.node v).segment j e (by omega) he
  have hterm : termAt (p.leaderLog (Termed.term e)) m = termAt (p.log v) m := by
    obtain ⟨i, rfl⟩ : ∃ i, m = i + 1 := ⟨m - 1, by omega⟩
    have hget := congrArg (·[i - p.base v]?) hsegment
    simp only [getElem?_drop, Nat.add_sub_cancel' (Nat.le_of_lt_succ hbase)] at hget
    rw [getElem?_take_of_lt (by omega), getElem?_take_of_lt (by omega)] at hget
    simp only [termAt, hget]
  have hup := h.upToDate_of_take ho rfl hkm hm
  rw [← termAt_eq_of_take_eq htake le_rfl, ← hterm] at hup
  have hle' := h.termAt_le (Termed.term e) m
  rw [lastTerm, hj, termAt_succ he]
  unfold UpToDate at hup ⊢
  omega

/-- An acknowledgement keeps the invariant. -/
lemma Inv.ack : Inv isQuorum (p.ack v t m) := by
  have hext := extends_ack (m := m) hpromise
  refine { h with
    node := fun w => (h.node w).extend hext rfl rfl rfl le_rfl (h.node w).promise_le
    acks_le := fun w u n hn => ?_
    acked := fun w u k ha ho hch => ?_
    complete := fun u u' k hlt he ho hch => h.complete u u' k hlt he ho (hext.choosable hch)
    voted := fun w u' d u k hv hlt ha ho hch => ?_
    candidate := fun d u hd => ?_
    chosen_decided := h.chosen_decided.imp_right fun ⟨u, hu⟩ => ⟨u, hext.decided hu⟩ }
  · rcases hn with hn | ⟨rfl, rfl, rfl⟩
    · exact h.acks_le w u n hn
    · exact ⟨hpromise.ge, hm⟩
  · obtain ⟨n, hkn, hn | ⟨rfl, rfl, rfl⟩⟩ := ha
    · exact h.acked w u k ⟨n, hkn, hn⟩ ho (hext.choosable hch)
    · exact ⟨take_eq_take_of_le htake hkn, h.upToDate_of_match hpromise hbase hm htake ho hkn⟩
  · obtain ⟨n, hkn, hn | ⟨rfl, rfl, rfl⟩⟩ := ha
    · exact h.voted w u' d u k hv hlt ⟨n, hkn, hn⟩ ho (hext.choosable hch)
    · have := (h.vote_le w u' d hv).2.1
      omega
  · obtain ⟨s, hs, hpre, hdecided, hsegment, hbelow⟩ := h.candidate d u hd
    exact ⟨s, hs, hpre, hext.decidedBy hdecided, hsegment, hbelow⟩

end

/-- A node replaces its log and the length of its compacted prefix. -/
def State.rewrite (p : State ν α) (v : ν) (l : List α) (b : ℕ) : State ν α :=
  { p with log := Function.update p.log v l, base := Function.update p.base v b }

section

variable {l : List α} {b : ℕ}

section

omit [Termed α]

lemma extends_rewrite : Extends p (p.rewrite v l b) := { Extends.refl with }

@[simp] lemma log_rewrite : (p.rewrite v l b).log v = l := update_self ..

@[simp] lemma base_rewrite : (p.rewrite v l b).base v = b := update_self ..

lemma log_rewrite_of_ne {w : ν} (hw : w ≠ v) : (p.rewrite v l b).log w = p.log w :=
  update_of_ne hw ..

lemma base_rewrite_of_ne {w : ν} (hw : w ≠ v) : (p.rewrite v l b).base w = p.base w :=
  update_of_ne hw ..

end

/-- A log may be replaced by one that keeps what the node has acknowledged. -/
lemma Inv.rewrite (h : Inv isQuorum p) (hnode : NodeInv isQuorum (p.rewrite v l b) v)
    (hacked : ∀ u k, p.Own u k → p.Choosable isQuorum u k → u ≤ p.promise v →
      (p.log v).take k = (p.leaderLog u).take k →
      UpToDate (lastTerm (p.log v)) (p.log v).length u k →
      l.take k = (p.leaderLog u).take k ∧ UpToDate (lastTerm l) l.length u k)
    (hcandidate : p.elected (p.promise v) = none → p.base v ≤ b ∧ l.drop b = (p.log v).drop b) :
    Inv isQuorum (p.rewrite v l b) := by
  refine { h with
    node := fun w => ?_, acked := fun w u k ha ho hch => ?_, candidate_log := fun d u hd hp he => ?_ }
  · by_cases hw : w = v
    · subst hw
      exact hnode
    · exact (h.node w).extend extends_rewrite (log_rewrite_of_ne hw) (base_rewrite_of_ne hw) rfl le_rfl
        (h.node w).promise_le
  · obtain ⟨htake, hup⟩ := h.acked w u k ha ho hch
    by_cases hw : w = v
    · subst hw
      obtain ⟨m, -, hm⟩ := ha
      rw [log_rewrite]
      exact hacked u k ho hch (h.acks_le w u m hm).1 htake hup
    · rw [log_rewrite_of_ne hw]
      exact ⟨htake, hup⟩
  · have hold := h.candidate_log d u hd hp he
    by_cases hdv : d = v
    · subst hdv
      have hp : p.promise d = u := hp
      subst hp
      obtain ⟨hle, hdrop⟩ := hcandidate he
      rw [log_rewrite, base_rewrite, hdrop]
      exact drop_eq_drop_of_le hold hle
    · rw [log_rewrite_of_ne hdv, base_rewrite_of_ne hdv]
      exact hold

end

omit [DecidableEq ν] [Termed α] in
/-- What a node has of the leader log ends before a prefix that it has not. -/
lemma lt_of_not_prefix {l L : List α} (hpre : ¬L.take m <+: l) (htake : l.take k = L.take k) :
    k < m := by
  by_contra hkm
  refine hpre ?_
  rw [← take_eq_take_of_le htake (Nat.le_of_not_lt hkm)]
  exact take_prefix m l

/-- A follower takes over the log of its leader where its own differs from it. -/
lemma Inv.overwrite (h : Inv isQuorum p) (hpromise : p.promise v = t) (hterm : p.term v = t)
    (helected : p.elected t ≠ none) (hbase : p.base v ≤ m) (hm : m ≤ (p.leaderLog t).length)
    (hpre : ¬(p.leaderLog t).take m <+: p.log v) :
    Inv isQuorum (p.rewrite v ((p.leaderLog t).take m) (p.base v)) := by
  have hn := h.node v
  obtain ⟨hlast, hlen⟩ := lastTerm_take hm
  refine h.rewrite ?_ (fun u k ho hch hu htake hup => ?_) (fun hnone => ?_)
  · -- what is committed here is in the leader log
    have hcommit := h.take_of_decidedBy (hterm ▸ hn.commit_decided) helected
    have hlt := lt_of_not_prefix hpre (hn.commit_take.trans hcommit.symm)
    refine ⟨hn.promise_le, fun i e hi he => ?_, fun i e hi he => ?_, ?_, ?_, ?_, ?_, ?_,
      hn.commit_decided⟩
    · rw [log_rewrite] at he ⊢
      rw [base_rewrite]
      have him : i < m := by
        have := (List.getElem?_eq_some_iff.1 he).1
        omega
      rw [getElem?_take_of_lt him] at he
      rw [take_take, min_eq_left him]
      exact congrArg (drop (p.base v)) (h.leads t i e he).2
    · rw [log_rewrite] at he
      have him : i < m := by
        have := (List.getElem?_eq_some_iff.1 he).1
        omega
      rw [getElem?_take_of_lt him] at he
      exact (h.leads t i e he).1.trans hpromise.ge
    · rw [log_rewrite, base_rewrite, hlen]
      exact hbase
    · rw [log_rewrite, base_rewrite, take_take, min_eq_left hbase]
      exact h.take_of_decidedBy (hpromise ▸ hn.base_decided) helected
    · rw [base_rewrite]
      exact hn.base_decided
    · rw [log_rewrite, hlen]
      exact hlt.le
    · rw [log_rewrite]
      refine Eq.trans ?_ hcommit
      rw [take_take]
      exact congrArg (fun n => take n (p.leaderLog t)) (min_eq_left hlt.le)
  · have hagree : (p.leaderLog t).take k = (p.leaderLog u).take k := by
      rcases lt_or_eq_of_le (hu.trans hpromise.le) with hlt | rfl
      · exact h.complete u t k hlt helected ho hch
      · rfl
    have hkm := lt_of_not_prefix hpre (htake.trans hagree.symm)
    rw [hlast, hlen, take_take, min_eq_left hkm.le]
    exact ⟨hagree, h.upToDate_of_take ho hagree hkm.le hm⟩
  · rw [hpromise] at hnone
    exact absurd hnone helected

end

/-! ### Compaction -/

section

/-- The first log up to the position, and the second behind it. -/
def splice {α : Type*} (c : List α) (i : ℕ) (l : List α) : List α := c.take i ++ l.drop i

variable {α : Type*} {d l x : List α} {i k : ℕ}

section

variable (hi : i ≤ d.length)

include hi

lemma getElem?_splice (j : ℕ) : (splice d i l)[j]? = if j < i then d[j]? else l[j]? := by
  have hlen : (d.take i).length = i := by rw [length_take, min_eq_left hi]
  unfold splice
  split_ifs with hj
  · rw [getElem?_append_left (by omega), getElem?_take_of_lt hj]
  · rw [getElem?_append_right (by omega), hlen, getElem?_drop,
      Nat.add_sub_cancel' (Nat.le_of_not_lt hj)]

lemma length_splice : (splice d i l).length = max i l.length := by
  rw [splice, length_append, length_take, length_drop]
  omega

lemma drop_splice : (splice d i l).drop i = l.drop i := by
  refine ext_getElem? fun j => ?_
  rw [getElem?_drop, getElem?_splice hi, if_neg (by omega), getElem?_drop]

/-- A splice agrees with a list up to a place if both of its parts do. -/
lemma take_splice (hl : l.take k = x.take k)
    (hc : ∀ j, j ≤ i → j ≤ k → d.take j = x.take j) : (splice d i l).take k = x.take k := by
  refine ext_getElem? fun j => ?_
  rcases lt_or_ge j k with hjk | hjk
  · rw [getElem?_take_of_lt hjk, getElem?_take_of_lt hjk, getElem?_splice hi]
    split_ifs with hji
    · have hget := congrArg (·[j]?) (hc (j + 1) hji hjk)
      simpa only [getElem?_take_of_lt (lt_succ_self j)] using hget
    · have hget := congrArg (·[j]?) hl
      simpa only [getElem?_take_of_lt hjk] using hget
  · rw [getElem?_take_eq_none hjk, getElem?_take_eq_none hjk]

end

lemma splice_eq_self (h : l.take i = d.take i) : splice d i l = l := by
  rw [splice, ← h, take_append_drop]

lemma splice_of_length_le (h : l.length ≤ i) : splice d i l = d.take i := by
  rw [splice, drop_eq_nil_of_le h, append_nil]

lemma lastTerm_splice [Termed α] (hi : i ≤ d.length) (hl : i < l.length) :
    lastTerm (splice d i l) = lastTerm l := by
  obtain ⟨n, hn⟩ : ∃ n, l.length = n + 1 := ⟨l.length - 1, by omega⟩
  rw [lastTerm, lastTerm, length_splice hi, max_eq_right hl.le, hn, termAt, termAt, getElem?_splice hi,
    if_neg (by omega)]

end

section

variable {i : ℕ}

/-- A node that takes over a decided prefix keeps its invariant. -/
lemma NodeInv.install (h : NodeInv isQuorum p v) (hbase : p.base v ≤ i)
    (hdecided : p.DecidedBy isQuorum (p.promise v) i) :
    NodeInv isQuorum (p.rewrite v (splice p.chosen i (p.log v)) i) v := by
  have hi := hdecided.le_length
  have hlen := @length_splice _ p.chosen (p.log v) i hi
  refine ⟨h.promise_le, fun j e hj he => ?_, fun j e hj he => ?_, ?_, ?_, ?_, ?_, ?_, h.commit_decided⟩
  · rw [base_rewrite] at hj ⊢
    rw [log_rewrite] at he ⊢
    rw [getElem?_splice hi, if_neg (by omega)] at he
    have hsegment := drop_eq_drop_of_le (h.segment j e (by omega) he) hbase
    rw [drop_take, drop_splice hi, ← drop_take]
    exact hsegment
  · rw [base_rewrite] at hj
    rw [log_rewrite, getElem?_splice hi, if_neg (by omega)] at he
    exact h.entry_le j e (by omega) he
  · rw [base_rewrite, log_rewrite, hlen]
    exact le_max_left _ _
  · rw [base_rewrite, log_rewrite, splice, take_append_of_le_length, take_take, min_self]
    · rfl
    · rw [length_take, min_eq_left hi]
  · rw [base_rewrite]
    exact hdecided
  · rw [log_rewrite, hlen]
    exact h.commit_le.trans (le_max_right _ _)
  · rw [log_rewrite]
    exact take_splice hi h.commit_take fun _ _ _ => rfl

/-- A node puts a decided prefix in the place of its own. -/
lemma Inv.install (h : Inv isQuorum p) (hbase : p.base v ≤ i)
    (hdecided : p.DecidedBy isQuorum (p.promise v) i) :
    Inv isQuorum (p.rewrite v (splice p.chosen i (p.log v)) i) := by
  have hi := hdecided.le_length
  refine h.rewrite ((h.node v).install hbase hdecided) (fun u k ho hch hu htake hup => ⟨?_, ?_⟩)
    fun _ => ⟨hbase, drop_splice hi⟩
  · exact take_splice hi htake fun j hj hjk => h.take_chosen_of_choosable ho hch hdecided hj hjk
  · rcases lt_or_ge i (p.log v).length with hlt | hge
    · rw [lastTerm_splice hi hlt, length_splice hi, max_eq_right hlt.le]
      exact hup
    · -- all of the log was compacted away: what counts is the decided log
      have hki : k ≤ i := (length_le_of_take_eq htake ho.le_length).trans hge
      have hchosen := h.take_chosen_of_choosable ho hch hdecided hki le_rfl
      rw [splice_of_length_le hge, (lastTerm_take hi).1, (lastTerm_take hi).2]
      rcases hdecided with rfl | ⟨w, n, ⟨hcommitted, -, heq⟩, hin, -⟩
      · rw [le_zero.1 hki] at ho
        exact absurd ho.2.symm ho.1.ne'
      · have hpre := take_eq_take_of_le heq hin
        rw [termAt_eq_of_take_eq hpre le_rfl]
        refine h.upToDate_of_take ho ?_ hki (hin.trans hcommitted.1.le_length)
        rw [← take_eq_take_of_le hpre hki, hchosen]

end

/-! ### Commitment -/

section

variable {t k i : ℕ}

/-- A node learns that a prefix of its log is committed. -/
def State.setCommit (p : State ν α) (v : ν) (i : ℕ) : State ν α :=
  { p with commit := Function.update p.commit v i }

omit [Termed α] in
lemma extends_setCommit : Extends p (p.setCommit v i) := { Extends.refl with }

/-- A commit index within what is decided keeps the invariant. -/
lemma Inv.setCommit (h : Inv isQuorum p) (hdecided : p.DecidedBy isQuorum (p.term v) i)
    (hi : i ≤ (p.log v).length) (htake : (p.log v).take i = p.chosen.take i) :
    Inv isQuorum (p.setCommit v i) := by
  refine { h with node := fun w => ?_ }
  by_cases hw : w = v
  · subst hw
    have hn := h.node w
    have hcommit : (p.setCommit w i).commit w = i := update_self ..
    refine { hn with commit_le := ?_, commit_take := ?_, commit_decided := ?_ }
    · rw [hcommit]
      exact hi
    · rw [hcommit]
      exact htake
    · rw [hcommit]
      exact hdecided
  · exact (h.node w).extend extends_setCommit rfl rfl (update_of_ne hw ..) le_rfl
      (h.node w).promise_le

omit [DecidableEq ν]

/-- What a quorum has acknowledged is decided. -/
def State.choose (p : State ν α) (t k : ℕ) : State ν α :=
  { p with chosen := if p.chosen.length < k then (p.leaderLog t).take k else p.chosen }

section

variable (h : Inv isQuorum p) (hc : p.Committed isQuorum t k)

include h hc

/-- What is chosen is only extended. -/
lemma Inv.chosen_prefix : p.chosen <+: (p.choose t k).chosen := by
  show p.chosen <+: if p.chosen.length < k then (p.leaderLog t).take k else p.chosen
  split_ifs with hlt
  · rcases h.chosen_decided with hnil | ⟨u, hcommitted, -, htake⟩
    · rw [hnil]
      exact nil_prefix
    · have hboth := h.take_eq_of_choosable hc.1 hc.choosable hcommitted.1 hcommitted.choosable hlt.le
        le_rfl
      rw [take_length] at htake
      rw [htake, ← hboth]
      exact take_prefix_take_left hlt.le
  · exact prefix_refl _

lemma Inv.extends_choose :
    Extends p (p.choose t k) := { Extends.refl with chosen := h.chosen_prefix hc }

lemma Inv.decided_choose : (p.choose t k).Decided isQuorum t k := by
  have hk := hc.1.le_length
  show p.Committed isQuorum t k ∧
    k ≤ (if p.chosen.length < k then (p.leaderLog t).take k else p.chosen).length ∧
    (if p.chosen.length < k then (p.leaderLog t).take k else p.chosen).take k = (p.leaderLog t).take k
  refine ⟨hc, ?_⟩
  split_ifs with hlt
  · rw [(lastTerm_take hk).2, take_take, min_self]
    exact ⟨le_rfl, rfl⟩
  · refine ⟨Nat.le_of_not_lt hlt, ?_⟩
    rcases h.chosen_decided with hnil | ⟨u, hd⟩
    · rw [hnil, length_nil] at hlt
      rw [Nat.eq_zero_of_not_pos hlt]
      rfl
    · exact h.take_chosen_of_choosable hc.1 hc.choosable (.inr ⟨u, _, hd, le_rfl, le_rfl⟩)
        (Nat.le_of_not_lt hlt) le_rfl

/-- Choosing what a quorum has acknowledged keeps the invariant. -/
lemma Inv.choose : Inv isQuorum (p.choose t k) := by
  have hext := h.extends_choose hc
  refine { h with
    node := fun w => (h.node w).extend hext rfl rfl rfl le_rfl (h.node w).promise_le
    candidate := fun d u hd => ?_, chosen_decided := ?_ }
  · obtain ⟨s, hs, hpre, hdecided, hsegment, hbelow⟩ := h.candidate d u hd
    refine ⟨s, hs, ?_, hext.decidedBy hdecided, hsegment, hbelow⟩
    rw [hext.take_chosen hdecided.le_length]
    exact hpre
  · by_cases hlt : p.chosen.length < k
    · have hlen : (p.choose t k).chosen.length = k := by
        show (if p.chosen.length < k then (p.leaderLog t).take k else p.chosen).length = k
        rw [if_pos hlt, (lastTerm_take hc.1.le_length).2]
      rw [hlen]
      exact .inr ⟨t, h.decided_choose hc⟩
    · have hsame : (p.choose t k).chosen = p.chosen := if_neg hlt
      rw [hsame]
      exact h.chosen_decided.imp_right fun ⟨u, hd⟩ => ⟨u, hext.decided hd⟩

end

end

end

end StrataKV.Consensus
