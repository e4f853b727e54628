import Mathlib.Data.Finset.Basic

/-!
# Replicated logs with leaders, votes and snapshots

The mathematics of a leader-based replicated log, in terms of what has happened so far and of nothing
that is sent: who voted for whom in which term, which log a leader had in its term, which positions
of it were acknowledged by whom, and which entries are chosen. Messages are not part of the state,
since all that a message says stays true.

A node may have compacted a prefix of its log (`base`), in which case it only knows that the prefix
is chosen. What lies behind the prefix agrees with the leader logs entry by entry, but not
necessarily with the prefix: a snapshot can be put under a suffix it does not belong to.

`Inv` is the invariant, with one lemma for each small action that it is kept. The main facts are

- `Inv.take_eq_of_voted` — the log of a candidate with a quorum of votes has every entry that may be
  chosen in an earlier term;
- `Inv.take_eq_of_match` — a log that agrees with a leader log in the term at one position agrees
  with it up to that position.
-/

namespace StrataKV.Consensus

open List Nat

/-- Entries are written in a term. -/
class Termed (α : Type*) where
  term : α → ℕ

open Termed (term)

section

variable {α : Type*} {l l' : List α} {i k : ℕ}

lemma take_eq_take_of_le (h : l.take k = l'.take k) (hik : i ≤ k) : l.take i = l'.take i := by
  have := congrArg (take i) h
  rwa [take_take, take_take, min_eq_left hik] at this

lemma length_le_of_take_eq (h : l.take k = l'.take k) (hk : k ≤ l'.length) : k ≤ l.length := by
  have := congrArg length h
  rw [length_take, length_take, min_eq_left hk] at this
  omega

lemma take_of_isPrefix (h : l <+: l') (hk : k ≤ l.length) : l'.take k = l.take k := by
  obtain ⟨t, rfl⟩ := h
  rw [take_append_of_le_length hk]

lemma drop_eq_drop_of_le (h : l.drop i = l'.drop i) (hik : i ≤ k) : l.drop k = l'.drop k := by
  have := congrArg (drop (k - i)) h
  rwa [drop_drop, drop_drop, Nat.add_sub_cancel' hik] at this

lemma eq_of_take_eq_of_drop_eq (htake : l.take i = l'.take i) (hdrop : l.drop i = l'.drop i) :
    l = l' := by
  rw [← take_append_drop i l, htake, hdrop, take_append_drop]

end

/-! ## Logs

Positions are counted from 1; position 0 is before the first entry and has term 0. -/

section

variable {α : Type*} [Termed α] {l l' : List α} {i k : ℕ}

def termAt (l : List α) : ℕ → ℕ
  | 0 => 0
  | i + 1 => (l[i]?).elim 0 term

def lastTerm (l : List α) : ℕ := termAt l l.length

/-- A log that ends at position `i` in term `t` is as up to date as one that ends at `i'` in `t'`. -/
def UpToDate (t i t' i' : ℕ) : Prop := t' < t ∨ t' = t ∧ i' ≤ i

/-- `UpToDate` is transitive. -/
lemma UpToDate.trans {t i t' i' t'' i'' : ℕ} (h : UpToDate t i t' i') (h' : UpToDate t' i' t'' i'') :
    UpToDate t i t'' i'' := by
  unfold UpToDate at *
  omega

lemma termAt_take (hik : i ≤ k) : termAt (l.take k) i = termAt l i := by
  cases i with
  | zero => rfl
  | succ i => simp only [termAt, getElem?_take_of_lt (lt_of_succ_le hik)]

lemma termAt_eq_of_take_eq (h : l.take k = l'.take k) (hik : i ≤ k) : termAt l i = termAt l' i := by
  rw [← termAt_take hik, h, termAt_take hik]

lemma termAt_succ {e : α} (h : l[i]? = some e) : termAt l (i + 1) = term e := by
  simp only [termAt, h, Option.elim_some]

/-- A position with a term is one of an entry. -/
lemma exists_of_termAt_pos (h : 0 < termAt l i) :
    ∃ j e, i = j + 1 ∧ l[j]? = some e ∧ term e = termAt l i := by
  cases i with
  | zero => exact absurd h (lt_irrefl 0)
  | succ j =>
    cases hj : l[j]? with
    | none => simp [termAt, hj] at h
    | some e => exact ⟨j, e, rfl, hj, (termAt_succ hj).symm⟩

lemma le_length_of_termAt_pos (h : 0 < termAt l i) : i ≤ l.length := by
  obtain ⟨j, e, rfl, hj, -⟩ := exists_of_termAt_pos h
  exact (List.getElem?_eq_some_iff.1 hj).1

lemma termAt_of_isPrefix (h : l <+: l') (hk : k ≤ l.length) : termAt l' k = termAt l k :=
  termAt_eq_of_take_eq (take_of_isPrefix h hk) le_rfl

end

/-! ## What has happened so far -/

structure State (ν α : Type*) where
  /-- The term a node is in, and the one it would still be in after a restart. -/
  term : ν → ℕ
  promise : ν → ℕ
  log : ν → List α
  /-- The length of the compacted prefix. -/
  base : ν → ℕ
  commit : ν → ℕ
  vote : ν → ℕ → Option ν
  /-- The log with which a node became a candidate in a term. -/
  candidateLog : ℕ → ν → List α
  elected : ℕ → Option ν
  leaderLog : ℕ → List α
  /-- A node has acknowledged the log of a term's leader up to a position. -/
  acks : ν → ℕ → ℕ → Prop
  chosen : List α

namespace State

variable {ν α : Type*} [Termed α] (isQuorum : Finset ν → Prop) (p : State ν α)

def Acked (v : ν) (t k : ℕ) : Prop := ∃ m, k ≤ m ∧ p.acks v t m

/-- The leader of the term has written the entry itself. -/
def Own (t k : ℕ) : Prop := 0 < t ∧ termAt (p.leaderLog t) k = t

/-- Each node of some quorum has acknowledged the position in the term or still could. -/
def Choosable (t k : ℕ) : Prop := ∃ Q, isQuorum Q ∧ ∀ v ∈ Q, p.Acked v t k ∨ p.promise v ≤ t

/-- A quorum has voted for the candidate. -/
def Voted (c : ν) (t : ℕ) : Prop := ∃ Q, isQuorum Q ∧ ∀ v ∈ Q, p.vote v t = some c

def Committed (t k : ℕ) : Prop := p.Own t k ∧ ∃ Q, isQuorum Q ∧ ∀ v ∈ Q, p.Acked v t k

def Decided (t k : ℕ) : Prop :=
  p.Committed isQuorum t k ∧ k ≤ p.chosen.length ∧ p.chosen.take k = (p.leaderLog t).take k

/-- The position was decided in the term or before. -/
def DecidedBy (t i : ℕ) : Prop := i = 0 ∨ ∃ t' k, p.Decided isQuorum t' k ∧ i ≤ k ∧ t' ≤ t

/-- Behind the position `s`, the log agrees with the leader logs of its entries. -/
def Segment (s : ℕ) (l : List α) : Prop :=
  ∀ i e, s ≤ i → l[i]? = some e →
    (l.take (i + 1)).drop s = ((p.leaderLog (Termed.term e)).take (i + 1)).drop s

end State

/-- The log is that of the leaders of its entries, up to each of them. -/
def State.Leads {ν α : Type*} [Termed α] (p : State ν α) (t : ℕ) (l : List α) : Prop :=
  ∀ i e, l[i]? = some e →
    Termed.term e ≤ t ∧ (l.take (i + 1)) = (p.leaderLog (Termed.term e)).take (i + 1)

/-- What is known about one node. -/
structure NodeInv {ν α : Type*} [Termed α] (isQuorum : Finset ν → Prop) (p : State ν α) (v : ν) :
    Prop where
  promise_le : p.promise v ≤ p.term v
  segment : p.Segment (p.base v) (p.log v)
  entry_le : ∀ (i : ℕ) (e : α), p.base v ≤ i → (p.log v)[i]? = some e → Termed.term e ≤ p.promise v
  base_le : p.base v ≤ (p.log v).length
  base_take : (p.log v).take (p.base v) = p.chosen.take (p.base v)
  base_decided : p.DecidedBy isQuorum (p.promise v) (p.base v)
  commit_le : p.commit v ≤ (p.log v).length
  commit_take : (p.log v).take (p.commit v) = p.chosen.take (p.commit v)
  commit_decided : p.DecidedBy isQuorum (p.term v) (p.commit v)

structure Inv {ν α : Type*} [Termed α] (isQuorum : Finset ν → Prop) (p : State ν α) : Prop where
  node : ∀ v, NodeInv isQuorum p v
  vote_le : ∀ v t c, p.vote v t = some c → 0 < t ∧ t ≤ p.promise v ∧ p.vote c t = some c
  elected_voted : ∀ t c, p.elected t = some c → p.Voted isQuorum c t
  leaderLog_elected : ∀ t, p.elected t = none → p.leaderLog t = []
  leads : ∀ t, p.Leads t (p.leaderLog t)
  term_pos : ∀ t (i : ℕ) (e : α), (p.leaderLog t)[i]? = some e → 0 < Termed.term e
  acks_le : ∀ v t m, p.acks v t m → t ≤ p.promise v ∧ m ≤ (p.leaderLog t).length
  acked : ∀ v t k, p.Acked v t k → p.Own t k → p.Choosable isQuorum t k →
    (p.log v).take k = (p.leaderLog t).take k ∧ UpToDate (lastTerm (p.log v)) (p.log v).length t k
  complete : ∀ t t' k, t < t' → p.elected t' ≠ none → p.Own t k → p.Choosable isQuorum t k →
    (p.leaderLog t').take k = (p.leaderLog t).take k
  voted : ∀ v t' c t k, p.vote v t' = some c → t < t' → p.Acked v t k → p.Own t k →
    p.Choosable isQuorum t k →
    UpToDate (lastTerm (p.candidateLog t' c)) (p.candidateLog t' c).length t k
  candidate : ∀ c t, p.vote c t = some c → ∃ s, s ≤ (p.candidateLog t c).length ∧
    (p.candidateLog t c).take s = p.chosen.take s ∧ p.DecidedBy isQuorum (t - 1) s ∧
    p.Segment s (p.candidateLog t c) ∧
    ∀ (i : ℕ) (e : α), s ≤ i → (p.candidateLog t c)[i]? = some e → Termed.term e < t
  candidate_log : ∀ c t, p.vote c t = some c → p.promise c = t → p.elected t = none →
    (p.log c).drop (p.base c) = (p.candidateLog t c).drop (p.base c)
  chosen_decided : p.chosen = [] ∨ ∃ t, p.Decided isQuorum t p.chosen.length

/-! ## Consequences -/

variable {t k : ℕ} {t i : ℕ}

section

variable {ν α : Type*} [Termed α] {isQuorum : Finset ν → Prop} {p : State ν α}

lemma State.Own.le_length (h : p.Own t k) : k ≤ (p.leaderLog t).length :=
  le_length_of_termAt_pos (h.2.symm ▸ h.1)

/-- An entry behind the position is one of its leader's log. -/
lemma State.Segment.getElem? {s i : ℕ} {l : List α} {e : α} (h : p.Segment s l) (hs : s ≤ i)
    (hi : l[i]? = some e) : (p.leaderLog (Termed.term e))[i]? = some e := by
  have hget := congrArg (·[i - s]?) (h i e hs hi)
  simpa only [getElem?_drop, Nat.add_sub_cancel' hs,
    getElem?_take_of_lt (lt_succ_self i), hi, eq_comm] using hget

/-- What is committed can be chosen. -/
lemma State.Committed.choosable (h : p.Committed isQuorum t k) : p.Choosable isQuorum t k := by
  obtain ⟨-, Q, hQ, hacked⟩ := h
  exact ⟨Q, hQ, fun v hv => .inl (hacked v hv)⟩

variable {t : ℕ}

/-- A term has one leader, since two quorums share a node. -/
lemma State.Voted.unique {ν α : Type*} {isQuorum : Finset ν → Prop} {p : State ν α}
    (hinter : ∀ Q Q', isQuorum Q → isQuorum Q' → ∃ v ∈ Q, v ∈ Q') {c c' : ν}
    (h : p.Voted isQuorum c t) (h' : p.Voted isQuorum c' t) : c = c' := by
  obtain ⟨Q, hQ, hc⟩ := h
  obtain ⟨Q', hQ', hc'⟩ := h'
  obtain ⟨v, hv, hv'⟩ := hinter Q Q' hQ hQ'
  exact Option.some.inj ((hc v hv).symm.trans (hc' v hv'))

/-- What is decided by a term is decided by every later one. -/
lemma State.DecidedBy.mono {t t' i : ℕ} (h : p.DecidedBy isQuorum t i) (htt' : t ≤ t') :
    p.DecidedBy isQuorum t' i := by
  rcases h with rfl | ⟨u, k, hd, hik, hu⟩
  · exact .inl rfl
  · exact .inr ⟨u, k, hd, hik, hu.trans htt'⟩

lemma State.DecidedBy.of_le {t i j : ℕ} (h : p.DecidedBy isQuorum t i) (hji : j ≤ i) :
    p.DecidedBy isQuorum t j := by
  rcases h with rfl | ⟨u, k, hd, hik, hu⟩
  · exact .inl (le_zero.1 hji)
  · exact .inr ⟨u, k, hd, hji.trans hik, hu⟩

lemma State.DecidedBy.le_length (h : p.DecidedBy isQuorum t i) : i ≤ p.chosen.length := by
  rcases h with rfl | ⟨u, k, hd, hik, -⟩
  · exact zero_le _
  · exact hik.trans hd.2.1

namespace Inv

variable (h : Inv isQuorum p)

include h

lemma elected_of_own (hown : p.Own t k) : p.elected t ≠ none := by
  intro hnone
  have hlen := hown.le_length
  have hk : k = 0 := by
    rw [h.leaderLog_elected t hnone] at hlen
    exact le_zero.1 hlen
  rw [hk] at hown
  exact absurd hown.2.symm hown.1.ne'

/-- An entry is its own term's leader's. -/
lemma own_of_elem {e : α} (hi : (p.leaderLog t)[i]? = some e) : p.Own (Termed.term e) (i + 1) := by
  refine ⟨h.term_pos t i e hi, ?_⟩
  have htake := (h.leads t i e hi).2
  rw [← termAt_eq_of_take_eq htake le_rfl, termAt_succ hi]

/-- A decided prefix is one of every later leader log. -/
lemma take_of_decidedBy (hdecided : p.DecidedBy isQuorum t i) (helected : p.elected t ≠ none) :
    (p.leaderLog t).take i = p.chosen.take i := by
  rcases hdecided with rfl | ⟨u, k, ⟨hcommitted, -, htake⟩, hik, hu⟩
  · simp
  · rcases lt_or_eq_of_le hu with hlt | rfl
    · have hcomplete := h.complete u t k hlt helected hcommitted.1 hcommitted.choosable
      exact take_eq_take_of_le (hcomplete.trans htake.symm) hik
    · exact take_eq_take_of_le htake.symm hik

/-- Two positions that may be chosen lie in one log. -/
lemma take_eq_of_choosable {t k t' k' i : ℕ} (hown : p.Own t k) (hchoosable : p.Choosable isQuorum t k)
    (hown' : p.Own t' k') (hchoosable' : p.Choosable isQuorum t' k') (hik : i ≤ k) (hik' : i ≤ k') :
    (p.leaderLog t).take i = (p.leaderLog t').take i := by
  rcases lt_trichotomy t t' with hlt | rfl | hlt
  · have hcomplete := h.complete t t' k hlt (h.elected_of_own hown') hown hchoosable
    exact (take_eq_take_of_le hcomplete hik).symm
  · rfl
  · have hcomplete := h.complete t' t k' hlt (h.elected_of_own hown) hown' hchoosable'
    exact take_eq_take_of_le hcomplete hik'

/-- A position that may be chosen agrees with what is decided. -/
lemma take_chosen_of_choosable {t k t' i : ℕ} (hown : p.Own t k)
    (hchoosable : p.Choosable isQuorum t k) (hdecided : p.DecidedBy isQuorum t' i) {j : ℕ} (hji : j ≤ i)
    (hjk : j ≤ k) : p.chosen.take j = (p.leaderLog t).take j := by
  rcases hdecided with rfl | ⟨u, k', ⟨hcommitted, -, htake⟩, hik, -⟩
  · rw [le_zero.1 hji]
    simp
  · have hboth := h.take_eq_of_choosable hown hchoosable hcommitted.1 hcommitted.choosable hjk
      (hji.trans hik)
    exact (take_eq_take_of_le htake (hji.trans hik)).trans hboth.symm

/-- A log that agrees with a leader log in the term at one position agrees with it up to it. -/
lemma take_eq_of_match {v : ν} (helected : p.elected t ≠ none) (hpromise : p.promise v ≤ t)
    (hbase : p.base v ≤ i) (hi : i ≤ (p.log v).length)
    (hterm : termAt (p.log v) i = termAt (p.leaderLog t) i) :
    (p.log v).take i = (p.leaderLog t).take i := by
  have hpre : (p.log v).take (p.base v) = (p.leaderLog t).take (p.base v) := by
    rw [(h.node v).base_take]
    exact (h.take_of_decidedBy ((h.node v).base_decided.mono hpromise) helected).symm
  rcases eq_or_lt_of_le hbase with heq | hlt
  · rw [← heq]
    exact hpre
  · obtain ⟨j, rfl⟩ : ∃ j, i = j + 1 := ⟨i - 1, by omega⟩
    obtain ⟨e, he⟩ : ∃ e, (p.log v)[j]? = some e := ⟨_, getElem?_eq_getElem hi⟩
    rw [termAt_succ he] at hterm
    have hbj : p.base v ≤ j := by omega
    have hpos := h.term_pos _ j e ((h.node v).segment.getElem? hbj he)
    -- the entry of the leader log there has the same term, and so the same leader log before it
    obtain ⟨j', e', hj', he', hterm'⟩ := exists_of_termAt_pos (hterm ▸ hpos)
    obtain rfl : j' = j := by omega
    have hleads := (h.leads t j' e' he').2
    rw [hterm', ← hterm] at hleads
    refine eq_of_take_eq_of_drop_eq (i := p.base v) ?_ ?_
    · rw [take_take, take_take, min_eq_left (by omega)]
      exact hpre
    · rw [(h.node v).segment j' e hbj he, hleads]

lemma termAt_le (t i : ℕ) : termAt (p.leaderLog t) i ≤ t := by
  rcases Nat.eq_zero_or_pos (termAt (p.leaderLog t) i) with hzero | hpos
  · exact hzero ▸ zero_le t
  · obtain ⟨j, e, -, he, hterm⟩ := exists_of_termAt_pos hpos
    exact hterm ▸ (h.leads t j e he).1

/-- A prefix of a leader log that ends in a term is one of that term's leader log. -/
lemma take_eq_of_termAt {t u i : ℕ} (hpos : 0 < u) (hterm : termAt (p.leaderLog t) i = u) :
    (p.leaderLog t).take i = (p.leaderLog u).take i ∧ p.Own u i := by
  obtain ⟨j, e, rfl, he, hterm'⟩ := exists_of_termAt_pos (hterm.symm ▸ hpos)
  rw [hterm] at hterm'
  rw [← hterm']
  exact ⟨(h.leads t j e he).2, h.own_of_elem he⟩

section

variable (hinter : ∀ Q Q', isQuorum Q → isQuorum Q' → ∃ v ∈ Q, v ∈ Q')

include hinter

variable {c : ν} {t t' k : ℕ}

/-- A voter of a later candidate has acknowledged what may be chosen. -/
lemma exists_acked_of_voted (hvoted : p.Voted isQuorum c t') (hlt : t < t')
    (hchoosable : p.Choosable isQuorum t k) : ∃ v, p.vote v t' = some c ∧ p.Acked v t k := by
  obtain ⟨Q, hQ, hc⟩ := hvoted
  obtain ⟨Q', hQ', hacked⟩ := hchoosable
  obtain ⟨v, hv, hv'⟩ := hinter Q Q' hQ hQ'
  refine ⟨v, hc v hv, (hacked v hv').resolve_right ?_⟩
  have := (h.vote_le v t' c (hc v hv)).2.1
  omega

/-- A candidate with a quorum of votes has every choosable entry of earlier terms. -/
lemma candidate_upToDate (hvoted : p.Voted isQuorum c t') (hlt : t < t')
    (hown : p.Own t k) (hchoosable : p.Choosable isQuorum t k) :
    UpToDate (lastTerm (p.candidateLog t' c)) (p.candidateLog t' c).length t k := by
  obtain ⟨v, hvote, hacked⟩ := h.exists_acked_of_voted hinter hvoted hlt hchoosable
  exact h.voted v t' c t k hvote hlt hacked hown hchoosable

lemma vote_self_of_voted (hvoted : p.Voted isQuorum c t) : p.vote c t = some c := by
  obtain ⟨Q, hQ, hc⟩ := hvoted
  obtain ⟨v, hv, -⟩ := hinter Q Q hQ hQ
  exact (h.vote_le v t c (hc v hv)).2.2

/-- The log of a candidate that a quorum has voted for is a prefix of an earlier leader log. -/
lemma candidateLog_eq_take (hvoted : p.Voted isQuorum c t) :
    ∃ u, u < t ∧ p.candidateLog t c = (p.leaderLog u).take (p.candidateLog t c).length := by
  have hself := h.vote_self_of_voted hinter hvoted
  have hpos := (h.vote_le c t c hself).1
  obtain ⟨s, hs, hpre, hdecided, hsegment, hterm⟩ := h.candidate c t hself
  rcases eq_or_lt_of_le hs with heq | hlt
  · -- all of it is compacted
    rcases hdecided with hzero | ⟨u, k, ⟨-, -, htake⟩, hsk, hu⟩
    · refine ⟨0, hpos, ?_⟩
      rw [← heq, hzero, take_zero]
      exact eq_nil_of_length_eq_zero (heq.symm.trans hzero)
    · refine ⟨u, by omega, ?_⟩
      rw [take_of_length_le heq.ge] at hpre
      rw [← heq, hpre]
      exact take_eq_take_of_le htake hsk
  · obtain ⟨e, he⟩ : ∃ e, (p.candidateLog t c)[(p.candidateLog t c).length - 1]? = some e :=
      ⟨_, getElem?_eq_getElem (by omega)⟩
    have hlast : (p.candidateLog t c).length - 1 + 1 = (p.candidateLog t c).length := by omega
    have hseg := hsegment _ e (by omega) he
    rw [hlast, take_length] at hseg
    refine ⟨Termed.term e, hterm _ e (by omega) he, eq_of_take_eq_of_drop_eq (i := s) ?_ hseg⟩
    rw [hpre, take_take, min_eq_left hs]
    -- the compacted prefix is decided, and so in the leader log of the last entry
    rcases hdecided with rfl | ⟨u, k, ⟨hcommitted, -, htake⟩, hsk, hu⟩
    · simp
    · have hlastTerm : lastTerm (p.candidateLog t c) = Termed.term e := by
        rw [lastTerm, ← hlast]
        exact termAt_succ he
      have hup := h.candidate_upToDate hinter hvoted (by omega) hcommitted.1 hcommitted.choosable
      rw [hlastTerm] at hup
      rw [take_eq_take_of_le htake hsk]
      rcases hup with hlt' | ⟨rfl, -⟩
      · have hownLast := h.own_of_elem (hsegment.getElem? (by omega) he)
        have hcomplete := h.complete u _ k hlt' (h.elected_of_own hownLast) hcommitted.1
          hcommitted.choosable
        exact (take_eq_take_of_le hcomplete hsk).symm
      · rfl

/-- The log of a candidate that a quorum has voted for has what may be chosen before. -/
lemma take_eq_of_voted (hvoted : p.Voted isQuorum c t') (hlt : t < t')
    (hown : p.Own t k) (hchoosable : p.Choosable isQuorum t k) :
    (p.candidateLog t' c).take k = (p.leaderLog t).take k ∧ k ≤ (p.candidateLog t' c).length := by
  obtain ⟨u, hu, heq⟩ := h.candidateLog_eq_take hinter hvoted
  have hup := h.candidate_upToDate hinter hvoted hlt hown hchoosable
  set m := (p.candidateLog t' c).length with hm
  have hterm : lastTerm (p.candidateLog t' c) = termAt (p.leaderLog u) m := by
    rw [lastTerm, ← hm, heq, termAt_take le_rfl]
  rw [hterm] at hup
  have hpos : 0 < termAt (p.leaderLog u) m := by
    rcases hup with hup | hup
    · omega
    · exact hup.1 ▸ hown.1
  obtain ⟨htake, hown'⟩ := h.take_eq_of_termAt hpos rfl
  rw [heq, htake, take_take]
  rcases hup with hup | ⟨hup, hkm⟩
  · have hcomplete := h.complete t _ k hup (h.elected_of_own hown') hown hchoosable
    have hkm : k ≤ m := by
      by_contra hkm
      have heqTerm := termAt_eq_of_take_eq hcomplete (by omega : m ≤ k)
      have hle := h.termAt_le t m
      have hown'' := hown'.2
      omega
    rw [min_eq_left hkm]
    exact ⟨hcomplete, hkm⟩
  · rw [min_eq_left hkm, ← hup]
    exact ⟨rfl, hkm⟩

end

end Inv

end

/-! ## Going on -/

/-- From `p` to `p'` nothing is forgotten, and what is new comes from nodes that could still do it. -/
structure Extends {ν α : Type*} (p p' : State ν α) : Prop where
  leaderLog : ∀ t, p.leaderLog t <+: p'.leaderLog t
  elected : ∀ t c, p.elected t = some c → p'.elected t = some c
  chosen : p.chosen <+: p'.chosen
  acks : ∀ v t m, p.acks v t m → p'.acks v t m
  acks_late : ∀ v t m, p'.acks v t m → p.acks v t m ∨ p.promise v ≤ t
  vote : ∀ v t c, p.vote v t = some c → p'.vote v t = some c
  candidateLog : ∀ t c, p.vote c t = some c → p'.candidateLog t c = p.candidateLog t c
  promise : ∀ v, p.promise v ≤ p'.promise v

namespace Extends

variable {ν α : Type*} {isQuorum : Finset ν → Prop} {p p' p'' : State ν α}

lemma refl : Extends p p :=
  ⟨fun _ => prefix_refl _, fun _ _ h => h, prefix_refl _, fun _ _ _ h => h,
    fun _ _ _ h => .inl h, fun _ _ _ h => h, fun _ _ _ => rfl, fun _ => le_rfl⟩

lemma trans (h : Extends p p') (h' : Extends p' p'') : Extends p p'' := by
  refine ⟨fun t => (h.leaderLog t).trans (h'.leaderLog t),
    fun t c hc => h'.elected t c (h.elected t c hc),
    h.chosen.trans h'.chosen, fun v t m hm => h'.acks v t m (h.acks v t m hm), fun v t m hm => ?_,
    fun v t c hc => h'.vote v t c (h.vote v t c hc), fun t c hc => ?_,
    fun v => (h.promise v).trans (h'.promise v)⟩
  · rcases h'.acks_late v t m hm with hm | hm
    · exact h.acks_late v t m hm
    · exact .inr ((h.promise v).trans hm)
  · rw [h'.candidateLog t c (h.vote c t c hc), h.candidateLog t c hc]

variable (h : Extends p p')

include h

lemma acked {v : ν} (ha : p.Acked v t k) : p'.Acked v t k := by
  obtain ⟨m, hkm, hm⟩ := ha
  exact ⟨m, hkm, h.acks v t m hm⟩

/-- What can be chosen later could be chosen before. -/
lemma choosable (hc : p'.Choosable isQuorum t k) : p.Choosable isQuorum t k := by
  obtain ⟨Q, hQ, hall⟩ := hc
  refine ⟨Q, hQ, fun v hv => ?_⟩
  rcases hall v hv with ⟨m, hkm, hm⟩ | hle
  · exact (h.acks_late v t m hm).imp_left fun hm => ⟨m, hkm, hm⟩
  · exact .inr ((h.promise v).trans hle)

lemma take_leaderLog (hk : k ≤ (p.leaderLog t).length) :
    (p'.leaderLog t).take k = (p.leaderLog t).take k :=
  take_of_isPrefix (h.leaderLog t) hk

lemma take_chosen {k : ℕ} (hk : k ≤ p.chosen.length) : p'.chosen.take k = p.chosen.take k :=
  take_of_isPrefix h.chosen hk

variable [Termed α]

lemma own (ho : p.Own t k) : p'.Own t k :=
  ⟨ho.1, (termAt_of_isPrefix (h.leaderLog t) ho.le_length).trans ho.2⟩

lemma own_of_le (ho : p'.Own t k) (hk : k ≤ (p.leaderLog t).length) : p.Own t k :=
  ⟨ho.1, (termAt_of_isPrefix (h.leaderLog t) hk).symm.trans ho.2⟩

/-- What is decided stays decided. -/
lemma decided (hd : p.Decided isQuorum t k) : p'.Decided isQuorum t k := by
  obtain ⟨⟨hown, Q, hQ, hall⟩, hlen, htake⟩ := hd
  refine ⟨⟨h.own hown, Q, hQ, fun v hv => h.acked (hall v hv)⟩, ?_, ?_⟩
  · exact hlen.trans h.chosen.length_le
  · rw [h.take_chosen hlen, h.take_leaderLog hown.le_length, htake]

lemma decidedBy (hd : p.DecidedBy isQuorum t i) : p'.DecidedBy isQuorum t i := by
  rcases hd with rfl | ⟨u, k, hd, hrest⟩
  · exact .inl rfl
  · exact .inr ⟨u, k, h.decided hd, hrest⟩

lemma segment {s : ℕ} {l : List α} (hs : p.Segment s l) : p'.Segment s l := by
  intro i e hsi he
  have hlen := (List.getElem?_eq_some_iff.1 (hs.getElem? hsi he)).1
  rw [h.take_leaderLog hlen]
  exact hs i e hsi he

lemma leads {t : ℕ} {l : List α} (hl : p.Leads t l) : p'.Leads t l := by
  intro i e he
  obtain ⟨hle, htake⟩ := hl i e he
  refine ⟨hle, ?_⟩
  have hlen : i + 1 ≤ (p.leaderLog (Termed.term e)).length :=
    length_le_of_take_eq htake.symm (List.getElem?_eq_some_iff.1 he).1
  rw [h.take_leaderLog hlen]
  exact htake

end Extends

end StrataKV.Consensus
