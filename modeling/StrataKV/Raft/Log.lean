import StrataKV.Lib.ConsensusActions
import StrataKV.Raft.Node

/-!
# The complete log of a peer

A peer keeps only the entries behind its last snapshot. `HasLog r l` says that they are the rest of
the complete log `l`; under it, the functions that read the log by index are those of `l`.
-/

namespace StrataKV.Raft

open List Option Consensus Node

open Consensus (termAt lastTerm termAt_succ splice)

instance : Consensus.Termed LogEntry := ⟨LogEntry.logTerm⟩

variable {n : ℕ}

structure HasLog (r : Node n) (l : List LogEntry) : Prop where
  le_length : r.lastSnapshotIncludeIndex ≤ l.length
  logs : r.logs = l.drop r.lastSnapshotIncludeIndex
  snapshotTerm : r.lastSnapshotIncludeTerm = termAt l r.lastSnapshotIncludeIndex
  index : ∀ (i : ℕ) (e : LogEntry), r.lastSnapshotIncludeIndex ≤ i → l[i]? = some e →
    e.logIndex = i + 1

namespace HasLog

variable {r : Node n} {l : List LogEntry} {i : ℕ}

section

variable (h : HasLog r l)

include h

lemma length_logs : r.lastSnapshotIncludeIndex + r.logs.length = l.length := by
  rw [h.logs, length_drop]
  exact Nat.add_sub_cancel' h.le_length

lemma getElem?_logs (j : ℕ) : r.logs[j]? = l[r.lastSnapshotIncludeIndex + j]? := by
  rw [h.logs, getElem?_drop]

/-- The last entry is that of the complete log, unless all of it is in the snapshot. -/
lemma getLast?_logs : r.logs.getLast? =
    if r.lastSnapshotIncludeIndex < l.length then l[l.length - 1]? else none := by
  have hlen := h.length_logs
  rw [getLast?_eq_getElem?, h.getElem?_logs]
  split_ifs with hlt
  · congr 1
    omega
  · exact getElem?_eq_none (by omega)

lemma getLastLogIndex_eq : r.getLastLogIndex = l.length := by
  unfold getLastLogIndex
  rw [h.getLast?_logs]
  have hle := h.le_length
  split_ifs with hlt
  · have hget := getElem?_eq_getElem (by omega : l.length - 1 < l.length)
    rw [hget]
    have hindex := h.index _ _ (by omega) hget
    show (l[l.length - 1]).logIndex = l.length
    omega
  · show r.lastSnapshotIncludeIndex = l.length
    omega

lemma getLastLogTerm_eq : r.getLastLogTerm = lastTerm l := by
  unfold getLastLogTerm
  rw [h.getLast?_logs]
  have hle := h.le_length
  split_ifs with hlt
  · have hget := getElem?_eq_getElem (by omega : l.length - 1 < l.length)
    have hterm := termAt_succ hget
    rw [Nat.sub_add_cancel (by omega)] at hterm
    rw [hget]
    exact hterm.symm
  · show r.lastSnapshotIncludeTerm = lastTerm l
    rw [h.snapshotTerm, lastTerm]
    congr 1
    omega

lemma getSlices_eq_some {s : ℕ} (hs : r.getSlicesIndexFromLogIndex i = some s) :
    r.lastSnapshotIncludeIndex < i ∧ i ≤ l.length ∧ r.lastSnapshotIncludeIndex + s + 1 = i := by
  unfold getSlicesIndexFromLogIndex at hs
  rw [h.getLastLogIndex_eq] at hs
  split_ifs at hs with hi
  have := some.inj hs
  omega

lemma entryAt_eq_some {e : LogEntry} (he : r.entryAt i = some e) :
    r.lastSnapshotIncludeIndex < i ∧ i ≤ l.length ∧ l[i - 1]? = some e := by
  obtain ⟨s, hs, hget⟩ := bind_eq_some_iff.1 he
  obtain ⟨hlt, hle, hsum⟩ := h.getSlices_eq_some hs
  rw [h.getElem?_logs] at hget
  refine ⟨hlt, hle, ?_⟩
  rw [← hget]
  congr 1
  omega

variable {t : ℕ}

lemma getLogTerm_eq_some (ht : r.getLogTermFromLogIndex i = some t) :
    r.lastSnapshotIncludeIndex ≤ i ∧ i ≤ l.length ∧ termAt l i = t := by
  unfold getLogTermFromLogIndex at ht
  rw [h.getLastLogIndex_eq] at ht
  split_ifs at ht with hrange hsnap
  · rw [hsnap, ← h.snapshotTerm]
    exact ⟨le_rfl, h.le_length, some.inj ht⟩
  · obtain ⟨e, he, rfl⟩ := map_eq_some_iff.1 ht
    obtain ⟨hlt, hle, hget⟩ := h.entryAt_eq_some he
    obtain ⟨j, rfl⟩ : ∃ j, i = j + 1 := ⟨i - 1, by omega⟩
    exact ⟨hlt.le, hle, termAt_succ hget⟩

lemma matchLog_eq_some (hm : r.matchLog i t = some true) :
    r.lastSnapshotIncludeIndex ≤ i ∧ i ≤ l.length ∧ termAt l i = t := by
  obtain ⟨u, hu, heq⟩ := map_eq_some_iff.1 hm
  rw [of_decide_eq_true heq]
  exact h.getLogTerm_eq_some hu

lemma upToDate_iff : r.upToDate i t = true ↔ UpToDate t i (lastTerm l) l.length := by
  unfold upToDate UpToDate
  rw [h.getLastLogIndex_eq, h.getLastLogTerm_eq]
  simp only [Bool.or_eq_true, Bool.and_eq_true, decide_eq_true_eq]
  exact or_congr Iff.rfl (and_congr eq_comm Iff.rfl)

end

/-! ### What changes it -/

lemma append (h : HasLog r l) {es : List LogEntry}
    (hindex : ∀ (i : ℕ) (e : LogEntry), es[i]? = some e → e.logIndex = l.length + i + 1) :
    HasLog { r with logs := r.logs ++ es } (l ++ es) where
  le_length := h.le_length.trans (prefix_append l es).length_le
  logs := by
    rw [drop_append_of_le_length h.le_length]
    exact congrArg (· ++ es) h.logs
  snapshotTerm := by
    rw [termAt_of_isPrefix (prefix_append l es) h.le_length]
    exact h.snapshotTerm
  index := by
    intro i e hi he
    rcases Nat.lt_or_ge i l.length with hlt | hge
    · rw [getElem?_append_left hlt] at he
      exact h.index i e hi he
    · rw [getElem?_append_right hge] at he
      have := hindex _ e he
      omega

/-- Another log behind an agreed position. -/
lemma replace (h : HasLog r l) {x : List LogEntry} (hle : r.lastSnapshotIncludeIndex ≤ i)
    (hi : i ≤ x.length) (htake : l.take i = x.take i)
    (hindex : ∀ (i : ℕ) (e : LogEntry), x[i]? = some e → e.logIndex = i + 1) :
    HasLog { r with logs := x.drop r.lastSnapshotIncludeIndex } x where
  le_length := hle.trans hi
  logs := rfl
  snapshotTerm := by
    rw [← termAt_eq_of_take_eq htake hle]
    exact h.snapshotTerm
  index := fun j e _ he => hindex j e he

end HasLog

/-! ## The loop of `AppendEntries1` -/

section

variable {r r' : Node n} {l x : List LogEntry} {i : ℕ} {e : LogEntry} {changed changed' : Bool}

/-- One entry: it is in the log already, or it ends what the log shares with the request. -/
lemma appendEntry_eq_some (h : HasLog r l) (hle : r.lastSnapshotIncludeIndex ≤ i) (hi : i ≤ l.length)
    (he : e.logIndex = i + 1) (hstep : appendEntry (r, changed) e = some (r', changed')) :
    l[i]? = some e ∧ r' = r ∧ changed' = changed ∨
      l[i]? ≠ some e ∧ r' = { r with logs := (l.take i ++ [e]).drop r.lastSnapshotIncludeIndex } ∧
        changed' = true := by
  have hlen : r.lastSnapshotIncludeIndex ≤ (l.take i).length := by
    rw [length_take]
    omega
  unfold appendEntry at hstep
  dsimp only at hstep
  rw [h.getLastLogIndex_eq, he] at hstep
  split_ifs at hstep with hlt
  · -- behind the end of the log
    obtain rfl : i = l.length := by omega
    obtain ⟨rfl, rfl⟩ := Prod.mk.inj (some.inj hstep)
    right
    refine ⟨by simp, ?_, rfl⟩
    rw [drop_append_of_le_length hlen, take_length, h.logs]
  · obtain ⟨s, hs, hread⟩ := bind_eq_some_iff.1 hstep
    obtain ⟨old, hold, hput⟩ := bind_eq_some_iff.1 hread
    clear hstep hread
    obtain ⟨-, -, hsum⟩ := h.getSlices_eq_some hs
    obtain rfl : r.lastSnapshotIncludeIndex + s = i := by omega
    rw [h.getElem?_logs] at hold
    split_ifs at hput with hterm hcommand
    · left
      obtain ⟨rfl, rfl⟩ := Prod.mk.inj (some.inj hput)
      refine ⟨?_, rfl, rfl⟩
      have hindex := h.index _ old (Nat.le_add_right _ _) hold
      rw [hold]
      cases old
      cases e
      simp_all
    · right
      obtain ⟨rfl, rfl⟩ := Prod.mk.inj (some.inj hput)
      refine ⟨?_, ?_, rfl⟩
      · rw [hold]
        intro heq
        exact hterm (congrArg LogEntry.logTerm (some.inj heq))
      · rw [drop_append_of_le_length hlen, drop_take, Nat.add_sub_cancel_left, ← h.logs]

/-- The loop leaves a log that has the request already, and else takes over that of the request. -/
lemma foldlM_appendEntry (hindex : ∀ (i : ℕ) (e : LogEntry), x[i]? = some e → e.logIndex = i + 1)
    (es : List LogEntry) :
    ∀ {r : Node n} {l : List LogEntry} {i : ℕ} {changed : Bool}, HasLog r l →
      r.lastSnapshotIncludeIndex ≤ i → i ≤ l.length → l.take i = x.take i → x.drop i = es →
      es.foldlM appendEntry (r, changed) = some (r', changed') →
      x <+: l ∧ r' = r ∧ changed' = changed ∨
        ¬x <+: l ∧ r' = { r with logs := x.drop r.lastSnapshotIncludeIndex } ∧ changed' = true := by
  induction es with
  | nil =>
    intro r l i changed h hle hi htake hes hfold
    obtain ⟨rfl, rfl⟩ := Prod.mk.inj (some.inj hfold)
    left
    refine ⟨?_, rfl, rfl⟩
    rw [← take_append_drop i x, hes, ← htake, append_nil]
    exact take_prefix i l
  | cons e es ih =>
    intro r l i changed h hle hi htake hes hfold
    rw [foldlM_cons] at hfold
    obtain ⟨⟨r₁, changed₁⟩, hstep, hrest⟩ := bind_eq_some_iff.1 hfold
    clear hfold
    have hx : x[i]? = some e := by
      have := congrArg (·[0]?) hes
      simpa only [getElem?_drop, Nat.add_zero, getElem?_cons_zero] using this
    have hdrop : x.drop (i + 1) = es := by
      rw [← drop_drop, hes]
      rfl
    have hxlen := (List.getElem?_eq_some_iff.1 hx).1
    rcases appendEntry_eq_some h hle hi (hindex i e hx) hstep with ⟨hl, rfl, rfl⟩ | ⟨hl, rfl, rfl⟩
    -- the entry is there already
    · have hlen := (List.getElem?_eq_some_iff.1 hl).1
      exact ih h (by omega) hlen (by rw [take_add_one, take_add_one, htake, hl, hx]) hdrop hrest
    · -- from here on, the log is a prefix of that of the request
      have hpre : l.take i ++ [e] = x.take (i + 1) := by
        rw [take_add_one, htake, hx]
        rfl
      have hnot : ¬x <+: l := by
        intro hpre
        obtain ⟨t, rfl⟩ := hpre
        rw [getElem?_append_left hxlen, hx] at hl
        exact hl rfl
      have hlen : (x.take (i + 1)).length = i + 1 := by rw [length_take, min_eq_left hxlen]
      have h₁ : HasLog { r with logs := (x.take (i + 1)).drop r.lastSnapshotIncludeIndex }
          (x.take (i + 1)) := by
        refine h.replace hle (by omega) ?_ fun j e' he' => ?_
        · rw [take_take, min_eq_left (Nat.le_succ i), htake]
        · rw [getElem?_take] at he'
          split_ifs at he' with hj
          exact hindex j e' he'
      right
      refine ⟨hnot, ?_⟩
      rw [hpre] at hrest
      have hrec := ih h₁ (Nat.le_succ_of_le hle) hlen.ge (by rw [take_take, min_self]) hdrop hrest
      rcases hrec with ⟨hpre, rfl, rfl⟩ | ⟨-, rfl, rfl⟩
      · refine ⟨?_, rfl⟩
        have heq : x.take (i + 1) = x := by
          refine IsPrefix.eq_of_length ( take_prefix _ x) ?_
          exact le_antisymm ( take_prefix _ x).length_le hpre.length_le
        rw [heq]
      · exact ⟨rfl, rfl⟩

end

end StrataKV.Raft
