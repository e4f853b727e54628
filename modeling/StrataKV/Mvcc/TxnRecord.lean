import StrataKV.Mvcc.Read

/-!
# A transaction's records on a key

What a key says about the fate of a transaction: it holds a commit record, a rollback marker, or
neither. `TxnInv` says that it never holds both, and the lemmas about `KeyStep` that once decided,
the fate of a transaction on a key does not change.
-/

namespace StrataKV.Mvcc

open OrdMap KeyView

open Std (ExtTreeMap)

variable {startTs : Ts}

namespace KeyView

variable (v : KeyView) (startTs : Ts)

/-- The key holds a commit record of the transaction: a Put, a Delete or a Lock. -/
def Committed : Prop :=
  ∃ (c : Ts) (w : MvccWrite), v.versions[c]? = some w ∧ w.startTs = startTs ∧ w.type ≠ .rollback

/-- The key holds a rollback marker of the transaction. -/
def RolledBack : Prop :=
  ∃ (c : Ts) (w : MvccWrite), v.versions[c]? = some w ∧ w.startTs = startTs ∧ w.type = .rollback

/-- The key holds a Put or a Delete of the transaction. -/
def Wrote : Prop :=
  ∃ (c : Ts) (w : MvccWrite), v.versions[c]? = some w ∧ w.startTs = startTs ∧
    (w.type = .put ∨ w.type = .delete)

lemma Wrote.committed {v : KeyView} (h : v.Wrote startTs) : v.Committed startTs := by
  obtain ⟨c, w, hget, hstart, htype⟩ := h
  exact ⟨c, w, hget, hstart, by rcases htype with h | h <;> simp [h]⟩

instance : Decidable (v.Committed startTs) :=
  decidable_of_iff (v.versions.toList.any fun item =>
      decide (item.2.startTs = startTs ∧ item.2.type ≠ .rollback)) <| by
    simp only [OrdMap.any_toList, decide_eq_true_eq]
    rfl

instance : Decidable (v.RolledBack startTs) :=
  decidable_of_iff (v.versions.toList.any fun item =>
      decide (item.2.startTs = startTs ∧ item.2.type = .rollback)) <| by
    simp only [OrdMap.any_toList, decide_eq_true_eq]
    rfl

instance : Decidable (v.Wrote startTs) :=
  decidable_of_iff (v.versions.toList.any fun item =>
      decide (item.2.startTs = startTs ∧ (item.2.type = .put ∨ item.2.type = .delete))) <| by
    simp only [OrdMap.any_toList, decide_eq_true_eq]
    rfl

/-- No lock's transaction has been rolled back on the key. -/
def LockUnmarked : Prop :=
  ∀ lock, v.lock = some lock → ∀ (c : Ts) (w : MvccWrite), v.versions[c]? = some w →
    w.type = .rollback → w.startTs ≠ lock.startTs

/-- A rollback marker is kept at the start timestamp of its transaction. -/
def MarkersAtStart : Prop :=
  ∀ (c : Ts) (w : MvccWrite), v.versions[c]? = some w → w.type = .rollback → w.startTs = c

end KeyView

/-- The primary key that a lock taken by the command carries. -/
def KeyCommand.primaryKey? : KeyCommand → Option Bytes
  | .prewrite _ _ primaryKey .. => some primaryKey
  | .pessimisticLock _ primaryKey .. => some primaryKey
  | .prewriteLock _ primaryKey .. => some primaryKey
  | .commit .. => none
  | .rollback .. => none

lemma MvccLock.writeType_ne_rollback (lock : MvccLock) : lock.writeType ≠ .rollback := by
  unfold writeType
  split <;> [skip; split] <;> decide

section

variable {v v' : KeyView} {c : KeyCommand}

/-- A transaction that was rolled back on the key gets no lock again. -/
lemma KeyView.LockUnmarked.step (h : v.LockUnmarked) (hstep : KeyStep c v v') :
    v'.LockUnmarked := by
  cases hstep with
  | prewrite lock _ _ unmarked startTs_eq =>
    rintro _ ⟨⟩ c w hget hmark heq
    exact unmarked c w hget (heq.trans startTs_eq) hmark
  | pessimisticLock lock old _ unmarked _ startTs_eq =>
    rintro _ ⟨⟩ c w hget hmark heq
    cases hold : v.lock with
    | none => exact unmarked hold c w hget (heq.trans startTs_eq) hmark
    | some l =>
      exact h l hold c w hget hmark (heq.trans (startTs_eq.trans (old l hold).1.symm))
  | prewriteLock old ttlMs lock_eq =>
    rintro _ ⟨⟩ c w hget hmark
    exact h old lock_eq c w hget hmark
  | commit => simp [LockUnmarked]
  | rollback =>
    intro lock hlock c w hw hmark
    obtain ⟨hlock, hne⟩ := Option.filter_eq_some_iff.1 hlock
    rcases insert_cases hw with ⟨-, rfl⟩ | hw
    · exact fun heq => by simp [← heq] at hne
    · exact h lock hlock c w hw hmark

variable {safePointTs : Ts}

lemma KeyView.LockUnmarked.collect (h : v.LockUnmarked)
    (hstep : CollectStep safePointTs v v') : v'.LockUnmarked := by
  intro lock hlock c w hw hmark
  rw [hstep.lock_eq] at hlock
  exact h lock hlock c w (hstep.of_get hw).1 hmark

/-- A marker is only put at the start timestamp of its transaction. -/
lemma KeyView.MarkersAtStart.step (h : v.MarkersAtStart) (hstep : KeyStep c v v') :
    v'.MarkersAtStart := by
  intro ts w hget hmark
  cases hstep with
  | commit lock =>
    rcases insert_cases hget with ⟨-, rfl⟩ | hget
    · exact absurd hmark lock.writeType_ne_rollback
    · exact h ts w hget hmark
  | rollback =>
    rcases insert_cases hget with ⟨heq, rfl⟩ | hget
    · exact heq
    · exact h ts w hget hmark
  | _ => exact h ts w hget hmark

lemma KeyView.MarkersAtStart.collect (h : v.MarkersAtStart)
    (hstep : CollectStep safePointTs v v') : v'.MarkersAtStart :=
  fun ts w hget => h ts w (hstep.of_get hget).1

/-- A lock that is new belongs to the command's transaction and names its primary key. -/
lemma KeyStep.lock_of (hstep : KeyStep c v v') {lock : MvccLock} (hlock : v'.lock = some lock) :
    v.lock = some lock ∨ lock.startTs = c.startTs ∧ c.primaryKey? = some lock.primaryKey := by
  cases hstep with
  | prewrite _ _ _ _ startTs_eq primaryKey_eq | pessimisticLock _ _ _ _ _ startTs_eq primaryKey_eq =>
    cases hlock
    exact .inr ⟨startTs_eq, by rw [primaryKey_eq]; rfl⟩
  | prewriteLock old ttlMs _ startTs_eq primaryKey_eq =>
    cases hlock
    exact .inr ⟨startTs_eq, by rw [← primaryKey_eq]; rfl⟩
  | commit => cases hlock
  | rollback => exact .inl (Option.filter_eq_some_iff.1 hlock).1

variable {startTs : Ts}

/-- Only a commit of the transaction adds a commit record of it. -/
lemma KeyStep.committed_of (hstep : KeyStep c v v') (h : v'.Committed startTs) :
    v.Committed startTs ∨ ∃ key commitTs, c = .commit key startTs commitTs ∧
        ∃ lock, v.lock = some lock ∧ lock.startTs = startTs := by
  obtain ⟨ts, w, hget, rfl, hne⟩ := h
  cases hstep with
  | commit lock lock_eq startTs_eq =>
    rcases insert_cases hget with ⟨-, rfl⟩ | hget
    · exact .inr ⟨_, _, rfl, lock, lock_eq, startTs_eq⟩
    · exact .inl ⟨ts, w, hget, rfl, hne⟩
  | rollback =>
    rcases insert_cases hget with ⟨-, rfl⟩ | hget
    · exact absurd rfl hne
    · exact .inl ⟨ts, w, hget, rfl, hne⟩
  | _ => exact .inl ⟨ts, w, hget, rfl, hne⟩

/-- Only a rollback of the transaction adds a marker of it, on a key without its records. -/
lemma KeyStep.rolledBack_of (hstep : KeyStep c v v') (h : v'.RolledBack startTs) :
    v.RolledBack startTs ∨ (∃ key, c = .rollback key startTs) ∧ ¬v.Committed startTs := by
  obtain ⟨ts, w, hget, rfl, hmark⟩ := h
  cases hstep with
  | commit lock =>
    rcases insert_cases hget with ⟨-, rfl⟩ | hget
    · exact absurd hmark lock.writeType_ne_rollback
    · exact .inl ⟨ts, w, hget, rfl, hmark⟩
  | rollback unrecorded =>
    rcases insert_cases hget with ⟨-, rfl⟩ | hget
    · refine .inr ⟨⟨_, rfl⟩, ?_⟩
      rintro ⟨c, w, hget, hstart, -⟩
      exact unrecorded c w hget hstart
    · exact .inl ⟨ts, w, hget, rfl, hmark⟩
  | _ => exact .inl ⟨ts, w, hget, rfl, hmark⟩

variable {key : Bytes}

/-- A rollback that is applied leaves a marker. -/
lemma KeyStep.rolledBack (hstep : KeyStep (.rollback key startTs) v v') :
    v'.RolledBack startTs := by
  cases hstep with
  | rollback =>
    exact ⟨startTs, ⟨startTs, startTs, .rollback⟩, by rw [getElem?_insert, if_pos rfl], rfl, rfl⟩

/-- A commit that is applied leaves a record. -/
lemma KeyStep.committed {startTs commitTs : Ts}
    (hstep : KeyStep (.commit key startTs commitTs) v v') : v'.Committed startTs := by
  cases hstep with
  | commit lock =>
    exact ⟨commitTs, ⟨startTs, commitTs, lock.writeType⟩, by rw [getElem?_insert, if_pos rfl],
      rfl, lock.writeType_ne_rollback⟩

lemma KeyDone.rolledBack (hdone : KeyDone (.rollback key startTs) v) : v.RolledBack startTs := by
  cases hdone with
  | rollback c w get_eq startTs_eq type_eq => exact ⟨c, w, get_eq, startTs_eq, type_eq⟩

end

/-! ## The fate of a transaction is decided once -/

/-- A key's records, where no start timestamp is a commit timestamp. -/
structure TxnInv (isStart : Ts → Prop) (v : KeyView) : Prop where
  commit_apart : ∀ (c : Ts) (w : MvccWrite), v.versions[c]? = some w → w.type ≠ .rollback →
    ¬isStart c
  marker_startTs : ∀ (c : Ts) (w : MvccWrite), v.versions[c]? = some w → w.type = .rollback →
    w.startTs = c
  lock_unmarked : v.LockUnmarked
  exclusive : ∀ startTs, v.Committed startTs → ¬v.RolledBack startTs

/-- The timestamps of a part: `startTs` is a start timestamp and `commitTs` is none. -/
def KeyCommand.TimestampsApart (isStart : Ts → Prop) (c : KeyCommand) : Prop :=
  isStart c.startTs ∧ match c with
    | .commit _ _ commitTs => ¬isStart commitTs
    | _ => True

instance (isStart : Ts → Prop) [DecidablePred isStart] :
    DecidablePred (KeyCommand.TimestampsApart isStart) := fun c => by
  cases c <;> dsimp only [KeyCommand.TimestampsApart] <;> infer_instance

namespace TxnInv

variable {isStart : Ts → Prop} {v v' : KeyView} {c : KeyCommand}

lemma of_empty (key : Bytes) : TxnInv isStart (MvccStorage.empty.view key) := by
  constructor <;> simp [LockUnmarked, Committed]

section

variable (h : TxnInv isStart v) (hstep : KeyStep c v v')

include h hstep

/-- A committed transaction stays so. -/
lemma committed_step (hts : c.TimestampsApart isStart) (hc : v.Committed startTs) :
    v'.Committed startTs := by
  obtain ⟨ts, w, hget, hstart, hne⟩ := hc
  refine ⟨ts, w, ?_, hstart, hne⟩
  cases hstep with
  | commit _ _ _ _ _ absent =>
    rw [getElem?_insert, if_neg, hget]
    rintro rfl
    simp [absent] at hget
  | rollback =>
    -- a marker is written at a start timestamp
    rw [getElem?_insert, if_neg, hget]
    rintro rfl
    exact h.commit_apart _ w hget hne hts.1
  | _ => exact hget

/-- So does one that was rolled back. -/
lemma rolledBack_step (hr : v.RolledBack startTs) : v'.RolledBack startTs := by
  obtain ⟨ts, w, hget, hstart, hmark⟩ := hr
  refine ⟨ts, w, ?_, hstart, hmark⟩
  cases hstep with
  | commit _ _ _ _ _ absent =>
    rw [getElem?_insert, if_neg, hget]
    rintro rfl
    simp [absent] at hget
  | rollback unrecorded =>
    -- the marker at a start timestamp is the one of that transaction
    rw [getElem?_insert, if_neg, hget]
    rintro rfl
    exact unrecorded _ w hget (h.marker_startTs _ w hget hmark)
  | _ => exact hget

/-- One command, with timestamps kept apart. -/
lemma step (hts : c.TimestampsApart isStart) : TxnInv isStart v' := by
  refine ⟨?_, MarkersAtStart.step h.marker_startTs hstep, h.lock_unmarked.step hstep, ?_⟩
  · intro ts w hget hne
    cases hstep with
    | commit =>
      rw [getElem?_insert] at hget
      split_ifs at hget with heq
      · exact heq ▸ hts.2
      · exact h.commit_apart ts w hget hne
    | rollback =>
      rcases insert_cases hget with ⟨-, rfl⟩ | hget
      · exact absurd rfl hne
      · exact h.commit_apart ts w hget hne
    | _ => exact h.commit_apart ts w hget hne
  · intro startTs hc hr
    rcases hstep.rolledBack_of hr with hr | ⟨⟨key, rfl⟩, hnot⟩
    · rcases hstep.committed_of hc with hc | ⟨key, commitTs, rfl, lock, hlock, hstart⟩
      · exact h.exclusive startTs hc hr
      · -- a commit needs the lock, which no rolled back transaction holds
        obtain ⟨ts, w, hget, hw, hmark⟩ := hr
        exact h.lock_unmarked lock hlock ts w hget hmark (hw.trans hstart.symm)
    · rcases hstep.committed_of hc with hc | ⟨key', commitTs, heq, -⟩
      · exact hnot hc
      · cases heq

end

lemma committed_of_done (h : TxnInv isStart v) {key : Bytes} {startTs commitTs : Ts}
    (hdone : KeyDone (.commit key startTs commitTs) v) : v.Committed startTs := by
  cases hdone with
  | commit _ c w get_eq startTs_eq type_ne => exact ⟨c, w, get_eq, startTs_eq, type_ne⟩
  | commitAgain _ _ _ startTs_lt w get_eq startTs_eq =>
    refine ⟨commitTs, w, get_eq, startTs_eq, fun hmark => ?_⟩
    -- a marker would be at its start timestamp
    have := h.marker_startTs commitTs w get_eq hmark
    grind

end TxnInv

end StrataKV.Mvcc
