import StrataKV.Mvcc.CommittedData

/-!
# Reads refine the history of committed transactions

The abstract side is a map from commit timestamps to what was committed there. It knows nothing of
locks, markers, data records or collections: a transaction's first prewrite of the key says what it
writes, a rollback forgets it, and a commit moves it to the commit timestamp.

* `KeyHistory` is the abstract state of one key, `KeyHistory.exec` its steps.
* `HistoryState` runs the storage and the histories side by side.
* `Simulates` relates a key's records to its history, and is kept by every step.
-/

namespace StrataKV.Mvcc

open MvccStorage Function KeyView OrdMap

open Std (ExtTreeMap)

/-! ## The abstract history -/

/-- What a transaction does to a key: `some value` for a Put and `none` for a Delete. -/
abbrev Effect := Option Bytes

/-- What a read answers that finds the effect. -/
def Effect.answer : Effect → TxnStatus × Option Bytes
  | none => (.notFound, none)
  | some value => (.ok, some value)

/-- The history of one key. -/
structure KeyHistory where
  /-- The first effect each transaction prewrote. -/
  pending : Ts → Option Effect
  /-- The committed effects by commit timestamp. -/
  committed : ExtTreeMap Ts Effect compare

namespace KeyHistory

def empty : KeyHistory := ⟨fun _ => none, ∅⟩

/-- One carried out command. `forget` says whether a rollback forgets what its transaction
prewrote, or a later prewrite of the same transaction still counts as a repetition. -/
def exec (forget : Bool) (h : KeyHistory) : KeyCommand → KeyHistory
  | .prewrite _ value _ startTs isDelete _ =>
    if (h.pending startTs).isSome then h
    else { h with
      pending := Function.update h.pending startTs (some (if isDelete then none else some value)) }
  | .commit _ startTs commitTs =>
    match h.pending startTs with
    | none => h
    | some effect =>
      { pending := Function.update h.pending startTs none
        committed := h.committed.insert commitTs effect }
  | .rollback _ startTs =>
    if forget then { h with pending := Function.update h.pending startTs none } else h
  | .pessimisticLock .. => h
  | .prewriteLock .. => h

/-- The answer of the newest committed transaction that is not after `readTs`. -/
def read (h : KeyHistory) (readTs : Ts) : TxnStatus × Option Bytes :=
  match h.committed.toList.reverse.find? fun item => item.1 ≤ readTs with
  | none => (.notFound, none)
  | some (_, effect) => effect.answer

/-- A read answers with the newest commit up to its timestamp. -/
lemma read_of_newest {h : KeyHistory} {readTs c : Ts} {effect : Effect}
    (hget : h.committed[c]? = some effect) (hle : c ≤ readTs)
    (hmax : ∀ (c' : Ts) (effect' : Effect), h.committed[c']? = some effect' → c' ≤ readTs → c' ≤ c) :
    h.read readTs = effect.answer := by
  have hfind : (h.committed.toList.reverse.find? fun item => item.1 ≤ readTs) = some (c, effect) := by
    rw [find?_reverse_toList_eq_some]
    exact ⟨hget, by simpa using hle, fun c' e' hg hp => hmax c' e' hg (by simpa using hp)⟩
  rw [read, hfind]

lemma read_of_none {h : KeyHistory} {readTs : Ts}
    (hnone : ∀ (c : Ts) (effect : Effect), h.committed[c]? = some effect → ¬c ≤ readTs) :
    h.read readTs = (.notFound, none) := by
  have hfind : (h.committed.toList.reverse.find? fun item => item.1 ≤ readTs) = none := by
    rw [find?_reverse_toList_eq_none]
    intro c effect hget
    simpa using hnone c effect hget
  rw [read, hfind]

end KeyHistory

/-- A storage, the histories of its keys and the highest safe point collected so far. -/
structure HistoryState where
  storage : MvccStorage
  history : Bytes → KeyHistory
  safePoint : Ts

namespace HistoryState

def empty : HistoryState := ⟨.empty, fun _ => .empty, 0⟩

/-- A history takes its part of a command that was carried out: one that was answered with `Ok`
and not skipped as applied before. -/
def nextHistory (forget : Bool) (s : HistoryState) (step : Step) (key : Bytes) : KeyHistory :=
  if (s.storage.exec step).1 = .ok ∧ ¬s.storage.Stale step.raftIndex then
    match step.command.parts.find? fun c => c.key = key with
    | none => s.history key
    | some c => (s.history key).exec forget c
  else s.history key

def next (forget : Bool) (s : HistoryState) (step : Step) : HistoryState where
  storage := (s.storage.exec step).2
  history := s.nextHistory forget step
  safePoint := match step.command with
    | .garbageCollect safePointTs =>
      if step.env.engineOk ∧ s.safePoint ≤ safePointTs then safePointTs else s.safePoint
    | _ => s.safePoint

lemma safePoint_le_next (forget : Bool) (s : HistoryState) (step : Step) :
    s.safePoint ≤ (s.next forget step).safePoint := by
  unfold next
  split
  · split <;> grind
  · exact UInt64.le_refl _

lemma le_safePoint_next (forget : Bool) (s : HistoryState) {step : Step} {safePointTs : Ts}
    (h : step.command = .garbageCollect safePointTs) (hok : step.env.engineOk = true) :
    safePointTs ≤ (s.next forget step).safePoint := by
  simp only [next, h, hok]
  split <;> grind

end HistoryState

/-- A storage with its histories, from an empty engine. -/
def historySystem (forget : Bool) : TransitionSystem HistoryState Step :=
  .ofFun .empty (HistoryState.next forget)

/-! ## The simulation relation -/

/-- The effect a Put or Delete record stands for. -/
def KeyView.effectOf (v : KeyView) (isDelete : Bool) (startTs : Ts) : Effect :=
  if isDelete then none else v.data startTs

/-- A key's records and its history say the same. Below the safe point a committed effect may have
lost its record, if a newer one is still there. -/
structure Simulates (isStart : Ts → Prop) (safePoint : Ts) (v : KeyView) (h : KeyHistory) :
    Prop where
  data : DataInv v
  writes : ∀ lock, v.lock = some lock → lock.isLockOnly = false
  pending_lock : ∀ startTs effect, h.pending startTs = some effect →
    ∃ lock, v.lock = some lock ∧ lock.startTs = startTs ∧ lock.isPessimistic = false
  lock_pending : ∀ lock, v.lock = some lock → lock.isPessimistic = false →
    h.pending lock.startTs = some (v.effectOf lock.isDelete lock.startTs)
  value_committed : ∀ (c : Ts) (w : MvccWrite), v.versions[c]? = some w → w.IsValue →
    ¬isStart c ∧ h.committed[c]? = some (v.effectOf (w.type = .delete) w.startTs)
  committed_value : ∀ (c : Ts) (effect : Effect), h.committed[c]? = some effect →
    ∃ (c' : Ts) (w : MvccWrite), v.versions[c']? = some w ∧ w.IsValue ∧
      (c' = c ∨ c < c' ∧ c' < safePoint)

namespace Simulates

variable {isStart : Ts → Prop} {safePoint : Ts} {v v' : KeyView} {h : KeyHistory}

lemma of_empty (key : Bytes) : Simulates isStart safePoint (empty.view key) .empty := by
  refine ⟨DataInv.of_empty key, ?_, ?_, ?_, ?_, ?_⟩ <;> simp [KeyHistory.empty]

/-- A later safe point asks for less. -/
lemma mono (hs : Simulates isStart safePoint v h) {safePoint' : Ts} (hle : safePoint ≤ safePoint') :
    Simulates isStart safePoint' v h := by
  refine { hs with committed_value := fun c effect hget => ?_ }
  obtain ⟨c', w, hw, hvalue, hc⟩ := hs.committed_value c effect hget
  exact ⟨c', w, hw, hvalue, hc.imp_right fun hc => ⟨hc.1, Std.lt_of_lt_of_le hc.2 hle⟩⟩

variable {startTs : Ts}

/-- A transaction without a prewritten lock has nothing pending. -/
lemma pending_eq_none (hs : Simulates isStart safePoint v h)
    (hlock : ∀ lock, v.lock = some lock → lock.startTs = startTs → lock.isPessimistic = true) :
    h.pending startTs = none := by
  cases hp : h.pending startTs with
  | none => rfl
  | some effect =>
    obtain ⟨lock, hl, hstart, hpess⟩ := hs.pending_lock startTs effect hp
    simp [hlock lock hl hstart] at hpess

variable {key : Bytes}

section

variable (hs : Simulates isStart safePoint v h)

include hs

variable {forUpdateTs : Ts}

/-- A prewrite is pending in the history. -/
lemma prewrite {value primaryKey : Bytes} {isDelete : Bool}
    (hstep : KeyStep (.prewrite key value primaryKey startTs isDelete forUpdateTs) v v') :
    Simulates isStart safePoint v'
      (h.exec true (.prewrite key value primaryKey startTs isDelete forUpdateTs)) := by
  have hdata := hs.data.prewrite hstep
  cases hstep with
  | prewrite lock old below _ startTs_eq _ isDelete_eq isPessimistic_eq isLockOnly_eq _ =>
    -- no prewritten lock was there, so nothing was pending
    have hnone (s : Ts) : h.pending s = none :=
      hs.pending_eq_none fun lock hlock _ => (old lock hlock).2.2.1
    have hexec : h.exec true (.prewrite key value primaryKey startTs isDelete forUpdateTs) =
        { pending := update h.pending startTs (some (if isDelete then none else some value))
          committed := h.committed } := by
      simp [KeyHistory.exec, hnone]
    rw [hexec]
    refine ⟨hdata, ?_, ?_, ?_, ?_, hs.committed_value⟩
    · rintro _ ⟨⟩
      exact isLockOnly_eq
    · intro s effect hp
      by_cases hsEq : s = startTs
      · exact ⟨lock, rfl, startTs_eq.trans hsEq.symm, isPessimistic_eq⟩
      · simp [update_of_ne hsEq, hnone] at hp
    · rintro _ ⟨⟩ -
      simp only [startTs_eq, isDelete_eq, effectOf, update_self]
      cases isDelete <;> rfl
    · intro c w hw hvalue
      obtain ⟨hc, hget⟩ := hs.value_committed c w hw hvalue
      refine ⟨hc, hget.trans ?_⟩
      have hne : w.startTs ≠ startTs := by
        have hlt := hs.data.startTs_lt c w hw (by rcases hvalue with h | h <;> simp [h])
        have := below c w hw
        grind
      simp only [effectOf, update_of_ne hne]

/-- A pessimistic lock is no part of it. -/
lemma pessimisticLock {primaryKey : Bytes} {expireAt : UInt64}
    (hstep : KeyStep (.pessimisticLock key primaryKey startTs forUpdateTs expireAt) v v') :
    Simulates isStart safePoint v' h := by
  have hdata := hs.data.pessimisticLock hstep
  cases hstep with
  | pessimisticLock lock old fresh _ _ _ _ isPessimistic_eq =>
    refine ⟨hdata, ?_, ?_, ?_, hs.value_committed, hs.committed_value⟩
    · rintro _ ⟨⟩
      cases hold : v.lock with
      | none => exact (fresh hold).1
      | some l =>
        rw [(old l hold).2.2.2]
        exact hs.writes l hold
    · intro s effect hp
      have hnone := @hs.pending_eq_none _ _ _ _ s fun lock hlock _ => (old lock hlock).2.2.1
      simp [hnone] at hp
    · rintro _ ⟨⟩ hpess
      simp [isPessimistic_eq] at hpess

/-- A commit turns the pending effect into a committed one. -/
lemma commit {commitTs : Ts} (hstep : KeyStep (.commit key startTs commitTs) v v')
    (hprewritten : ∀ lock, v.lock = some lock → lock.startTs = startTs → lock.isPessimistic = false)
    (hcommit : ¬isStart commitTs) :
    Simulates isStart safePoint v' (h.exec true (.commit key startTs commitTs)) := by
  have hdata := hs.data.commit hstep hprewritten
  cases hstep with
  | commit lock lock_eq startTs_eq startTs_lt _ absent _ =>
    have hpess := hprewritten lock lock_eq startTs_eq
    have honly := hs.writes lock lock_eq
    have hpending := hs.lock_pending lock lock_eq hpess
    rw [startTs_eq] at hpending
    -- the lock's value is what the history has pending
    have hexec : h.exec true (.commit key startTs commitTs) =
        { pending := update h.pending startTs none
          committed := h.committed.insert commitTs (v.effectOf lock.isDelete startTs) } := by
      simp [KeyHistory.exec, hpending]
    have htype : lock.writeType = if lock.isDelete then .delete else .put := by
      simp [MvccLock.writeType, honly]
    rw [hexec]
    refine ⟨hdata, by simp, ?_, by simp, ?_, ?_⟩
    · intro s effect hp
      by_cases hsEq : s = startTs
      · simp [hsEq] at hp
      · -- the only pending transaction is the one whose lock goes
        simp only [update_of_ne hsEq] at hp
        obtain ⟨l, hl, hstart, -⟩ := hs.pending_lock s effect hp
        rw [lock_eq] at hl
        cases hl
        exact absurd (hstart.symm.trans startTs_eq) hsEq
    · intro c w hw hvalue
      rw [getElem?_insert] at hw
      rw [getElem?_insert]
      split_ifs at hw with hc
      · cases hw
        refine ⟨hc ▸ hcommit, ?_⟩
        rw [if_pos hc, htype]
        cases lock.isDelete <;> rfl
      · rw [if_neg hc]
        exact hs.value_committed c w hw hvalue
    · intro c effect hc
      rw [getElem?_insert] at hc
      simp only [getElem?_insert]
      split_ifs at hc with heq
      · refine ⟨c, ⟨startTs, commitTs, lock.writeType⟩, if_pos heq, ?_, .inl rfl⟩
        rw [MvccWrite.IsValue, htype]
        cases lock.isDelete <;> simp
      · obtain ⟨c', w, hw, hvalue, hle⟩ := hs.committed_value c effect hc
        refine ⟨c', w, ?_, hvalue, hle⟩
        rw [if_neg, hw]
        rintro rfl
        simp [absent] at hw

/-- A rollback drops the pending effect. -/
lemma rollback (hstep : KeyStep (.rollback key startTs) v v') (hstart : isStart startTs) :
    Simulates isStart safePoint v' (h.exec true (.rollback key startTs)) := by
  have hdata := hs.data.rollback hstep
  cases hstep with
  | rollback unrecorded =>
    have hlock {lock : MvccLock}
        (hl : v.lock.filter (fun lock => lock.startTs != startTs) = some lock) :
        v.lock = some lock ∧ lock.startTs ≠ startTs := by
      obtain ⟨hl, hne⟩ := Option.filter_eq_some_iff.1 hl
      exact ⟨hl, by simpa using hne⟩
    simp only [KeyHistory.exec, if_true]
    refine ⟨hdata, ?_, ?_, ?_, ?_, ?_⟩
    · intro lock hl
      exact hs.writes lock (hlock hl).1
    · intro s effect hp
      by_cases hsEq : s = startTs
      · simp [hsEq] at hp
      · simp only [update_of_ne hsEq] at hp
        obtain ⟨lock, hl, rfl, hpess⟩ := hs.pending_lock s effect hp
        refine ⟨lock, ?_, rfl, hpess⟩
        simp [hl, hsEq]
    · intro lock hl hpess
      obtain ⟨hl, hne⟩ := hlock hl
      simp only [effectOf, update_of_ne hne]
      exact hs.lock_pending lock hl hpess
    · intro c w hw hvalue
      rcases insert_cases hw with ⟨-, rfl⟩ | hw
      · simp [MvccWrite.IsValue] at hvalue
      · simp only [effectOf, update_of_ne (unrecorded c w hw)]
        exact hs.value_committed c w hw hvalue
    · -- the marker replaces no value: commit timestamps are not start timestamps
      intro c effect hc
      obtain ⟨c', w, hw, hvalue, hle⟩ := hs.committed_value c effect hc
      refine ⟨c', w, ?_, hvalue, hle⟩
      rw [getElem?_insert, if_neg, hw]
      rintro rfl
      exact (hs.value_committed startTs w hw hvalue).1 hstart

/-- A part that was done already changes nothing on the abstract side either. -/
lemma done {c : KeyCommand} (hdone : KeyDone c v)
    (hprewritten : ∀ key startTs commitTs, c = .commit key startTs commitTs →
      ∀ lock, v.lock = some lock → lock.startTs = startTs → lock.isPessimistic = false) :
    h.exec true c = h := by
  cases hdone with
  | prewrite lock lock_eq startTs_eq _ isPessimistic_eq =>
    have := hs.lock_pending lock lock_eq isPessimistic_eq
    rw [startTs_eq] at this
    simp [KeyHistory.exec, this]
  | pessimisticLock | prewriteLock => rfl
  | @commit _ startTs _ _ lock_eq =>
    have := @hs.pending_eq_none _ _ _ _ startTs (by simp [lock_eq])
    simp [KeyHistory.exec, this]
  | commitAgain lock lock_eq lock_startTs startTs_lt w get_eq startTs_eq =>
    -- a prewritten lock excludes every record of its transaction
    exfalso
    have hpess := hprewritten _ _ _ rfl lock lock_eq lock_startTs
    exact hs.data.ne_startTs lock_eq hpess (hs.writes lock lock_eq) get_eq
      (startTs_eq.trans lock_startTs.symm)
  | @rollback _ startTs _ c w get_eq startTs_eq type_eq =>
    have hnone : h.pending startTs = none := by
      apply hs.pending_eq_none
      intro lock hlock hstart
      exact absurd (startTs_eq.trans hstart.symm)
        (hs.data.lock_unmarked lock hlock c w get_eq type_eq)
    simp only [KeyHistory.exec, if_true]
    rw [← hnone, update_eq_self]

/-- A collection removes a value only if a newer one below the safe point stays. -/
lemma collect {safePointTs : Ts}
    (hstep : CollectStep safePointTs v v') (hle : safePoint ≤ safePoint')
    (hle' : safePointTs ≤ safePoint') : Simulates isStart safePoint' v' h := by
  refine ⟨hs.data.collect hstep, ?_, ?_, ?_, ?_, ?_⟩
  · intro lock hlock
    exact hs.writes lock (hstep.lock_eq ▸ hlock)
  · intro s effect hp
    rw [hstep.lock_eq]
    exact hs.pending_lock s effect hp
  · intro lock hlock hpess
    rw [hstep.lock_eq] at hlock
    rw [hs.lock_pending lock hlock hpess, effectOf, effectOf,
      hstep.data_kept lock.startTs fun c w hc hput => ?_]
    exact hs.data.ne_startTs hlock hpess (hs.writes lock hlock) hc.1
  · intro c w hw hvalue
    obtain ⟨hw, hkept⟩ := hstep.of_get hw
    obtain ⟨hc, hget⟩ := hs.value_committed c w hw hvalue
    refine ⟨hc, hget.trans ?_⟩
    rcases hvalue with hput | hdelete
    · rw [effectOf, effectOf, hstep.data_kept w.startTs fun c' w' hgone hput' heq => ?_]
      have := hs.data.put_unique c' c w' w hgone.1 hw hput' hput heq
      subst this
      exact hkept w' hgone
    · simp [effectOf, hdelete]
  · intro c effect hc
    obtain ⟨c', w, hw, hvalue, hcc'⟩ := hs.committed_value c effect hc
    by_cases hcollected : v.Collected safePointTs c' w
    · obtain ⟨c'', hkept, hle'', hlt⟩ := exists_kept hw hvalue hcollected.2.1
      obtain ⟨w'', hw'', hvalue'', -⟩ := id hkept
      have hne : c'' ≠ c' := by
        rintro rfl
        exact hcollected.2.2 hkept
      refine ⟨c'', w'', ?_, hvalue'', .inr ?_⟩
      · rw [hstep.kept c'' fun w hc => hc.2.2 hkept]
        exact hw''
      · grind
    · refine ⟨c', w, ?_, hvalue, hcc'.imp_right fun hc => ⟨hc.1, Std.lt_of_lt_of_le hc.2 hle⟩⟩
      rw [hstep.kept c' fun w' hc' => ?_]
      · exact hw
      · have : w' = w := Option.some.inj (hc'.1.symm.trans hw)
        exact hcollected (this ▸ hc')

/-- Where no lock blocks it, a read at or above the safe point answers as the history. -/
lemma read {readTs : Ts} (hread : safePoint ≤ readTs) : v.read readTs = h.read readTs := by
  unfold KeyView.read
  cases hvisible : v.versions.visible readTs with
  | none =>
    have hnone := Versions.visible_eq_none.1 hvisible
    refine (KeyHistory.read_of_none fun c effect hc hle => ?_).symm
    obtain ⟨c', w, hw, hvalue, hcc'⟩ := hs.committed_value c effect hc
    apply hnone c' w hw hvalue
    grind
  | some item =>
    obtain ⟨c, w⟩ := item
    obtain ⟨hw, hle, hvalue, hmax⟩ := Versions.visible_eq_some.1 hvisible
    have hget := (hs.value_committed c w hw hvalue).2
    rw [KeyHistory.read_of_newest hget hle fun c' effect hc hle' => ?_]
    · rcases hvalue with hput | hdelete
      · have hdata := hs.data.put_data c w hw hput
        obtain ⟨value, hvalue⟩ := Option.isSome_iff_exists.1 hdata
        simp [effectOf, Effect.answer, hput, hvalue]
      · simp [effectOf, Effect.answer, hdelete]
    · -- a committed effect without its record has a newer value still below `readTs`
      obtain ⟨c'', w'', hw'', hvalue'', hcc''⟩ := hs.committed_value c' effect hc
      have := hmax c'' w'' hw'' hvalue''
      grind

end

end Simulates

/-! ## Runs -/

/-- The conditions on a run: commits hit prewritten locks only, there are no lock-only prewrites,
and no commit timestamp is a start timestamp. -/
structure UniqueTimestamps (isStart : Ts → Prop) (s : HistoryState) (step : Step) : Prop where
  prewritten : CommitsPrewritten s.storage step
  writes : ∀ key primaryKey startTs forUpdateTs,
    KeyCommand.prewriteLock key primaryKey startTs forUpdateTs ∉ step.command.parts
  start : ∀ c ∈ step.command.parts, isStart c.startTs
  commit : ∀ key startTs commitTs, KeyCommand.commit key startTs commitTs ∈ step.command.parts →
    ¬isStart commitTs

/-- `UniqueTimestamps` for one part of the step. -/
def KeyCommand.UniqueTimestamps (isStart : Ts → Prop) (σ : MvccStorage) (c : KeyCommand) : Prop :=
  c.CommitsPrewritten σ ∧ isStart c.startTs ∧ match c with
    | .commit _ _ commitTs => ¬isStart commitTs
    | .prewriteLock .. => False
    | _ => True

instance (isStart : Ts → Prop) [DecidablePred isStart] (σ : MvccStorage) :
    DecidablePred (KeyCommand.UniqueTimestamps isStart σ) := fun c => by
  induction c using KeyCommand.casesOn <;> dsimp only [KeyCommand.UniqueTimestamps] <;> infer_instance

variable {isStart : Ts → Prop} {s : HistoryState} {step : Step}

lemma uniqueTimestamps_iff : (∀ c ∈ step.command.parts, c.UniqueTimestamps isStart s.storage) ↔
      UniqueTimestamps isStart s step := by
  constructor
  · intro h
    refine ⟨commitsPrewritten_iff.1 fun c hc => (h c hc).1, ?_, fun c hc => (h c hc).2.1, ?_⟩
    · intro key primaryKey startTs forUpdateTs hpart
      exact (h _ hpart).2.2
    · intro key startTs commitTs hpart
      exact (h _ hpart).2.2
  · intro h c hc
    refine ⟨commitsPrewritten_iff.2 h.prewritten c hc, h.start c hc, ?_⟩
    cases c with
    | commit key startTs commitTs => exact h.commit key startTs commitTs hc
    | prewriteLock key primaryKey startTs forUpdateTs => exact h.writes _ _ _ _ hc
    | _ => trivial

instance (isStart : Ts → Prop) [DecidablePred isStart] (s : HistoryState) (step : Step) :
    Decidable (UniqueTimestamps isStart s step) :=
  decidable_of_iff _ uniqueTimestamps_iff

lemma Simulates.outcome {key : Bytes} {v' : KeyView} {c : KeyCommand}
    (hguard : UniqueTimestamps isStart s step) (hpart : c ∈ step.command.parts)
    (hkey : c.key = key) (hs : Simulates isStart s.safePoint (s.storage.view key) (s.history key))
    (hout : KeyStep c (s.storage.view key) v' ∨
      KeyDone c (s.storage.view key) ∧ v' = s.storage.view key) :
    Simulates isStart s.safePoint v' ((s.history key).exec true c) := by
  have hprewritten : ∀ key' startTs commitTs, c = .commit key' startTs commitTs →
      ∀ lock, (s.storage.view key).lock = some lock → lock.startTs = startTs →
        lock.isPessimistic = false := by
    rintro key' startTs commitTs rfl
    subst hkey
    exact hguard.prewritten key' startTs commitTs hpart
  rcases hout with hstep | ⟨hdone, rfl⟩
  · cases c with
    | prewrite => exact hs.prewrite hstep
    | pessimisticLock => exact hs.pessimisticLock hstep
    | prewriteLock => exact absurd hpart (hguard.writes _ _ _ _)
    | commit => exact hs.commit hstep (hprewritten _ _ _ rfl) (hguard.commit _ _ _ hpart)
    | rollback => exact hs.rollback hstep (hguard.start _ hpart)
  · rw [hs.done hdone hprewritten]
    exact hs

/-- Every step keeps the simulation, for each key. -/
lemma Simulates.next (hguard : UniqueTimestamps isStart s step)
    (h : ∀ key, Simulates isStart s.safePoint (s.storage.view key) (s.history key)) (key : Bytes) :
    Simulates isStart (s.next true step).safePoint ((s.next true step).storage.view key)
      ((s.next true step).history key) := by
  have hle := s.safePoint_le_next true step
  show Simulates _ _ ((s.storage.exec step).2.view key) (s.nextHistory true step key)
  by_cases hcollect : ∃ safePointTs, step.command = .garbageCollect safePointTs
  · obtain ⟨safePointTs, hcommand⟩ := hcollect
    have hsame : s.nextHistory true step key = s.history key := by
      simp [HistoryState.nextHistory, hcommand, Command.parts]
    rw [hsame]
    have hexec : (s.storage.exec step).2 =
        (s.storage.garbageCollect safePointTs step.env.engineOk).2 := by
      simp only [exec, hcommand]
    rw [hexec]
    cases hok : step.env.engineOk with
    | false =>
      rw [garbageCollect_of_not_engineOk]
      exact (h key).mono hle
    | true =>
      rcases s.storage.garbageCollect_view safePointTs true key with hid | hstep
      · rw [hid]
        exact (h key).mono hle
      · exact (h key).collect hstep hle (s.le_safePoint_next true hcommand hok)
  · refine Simulates.mono ?_ hle
    rcases s.storage.exec_outcome step fun sp h => hcollect ⟨sp, h⟩ with ⟨hid, hok⟩ | ⟨hok, hstale, hout⟩
    · -- nothing was carried out
      have hskip : ¬((s.storage.exec step).1 = .ok ∧ ¬s.storage.Stale step.raftIndex) :=
        fun hc => hc.2 (hok hc.1)
      rw [HistoryState.nextHistory, if_neg hskip, hid]
      exact h key
    · rcases hout key with ⟨hnone, hid⟩ | ⟨c, hc, hkey, hunique, hstep⟩
      · have hfind : (step.command.parts.find? fun c => c.key = key) = none := by
          rw [List.find?_eq_none]
          simpa using hnone
        simp only [HistoryState.nextHistory, hfind, ite_self, hid]
        exact h key
      · have hfind : (step.command.parts.find? fun c => c.key = key) = some c := by
          cases hf : step.command.parts.find? fun c => c.key = key with
          | none =>
            have := List.find?_eq_none.1 hf c hc
            simp [hkey] at this
          | some c' =>
            have hp := List.find?_some hf
            rw [hunique c' (List.mem_of_find?_eq_some hf) (by simpa using hp)]
        rw [HistoryState.nextHistory, if_pos ⟨hok, hstale⟩, hfind]
        exact (h key).outcome hguard hc hkey hstep

lemma simulates_of_reachable (h : (historySystem true).Reachable (UniqueTimestamps isStart) s)
    (key : Bytes) : Simulates isStart s.safePoint (s.storage.view key) (s.history key) := by
  refine h.invariant
    (I := fun s => ∀ key, Simulates isStart s.safePoint (s.storage.view key) (s.history key)) ?_ ?_ key
  · rintro _ rfl
    exact Simulates.of_empty
  · rintro s step _ hs hguard rfl
    exact Simulates.next hguard hs

/-- At or above every collected safe point, a read that no lock blocks answers as the history of
the committed transactions, each with what it first prewrote since it was last rolled back. -/
theorem get_eq_history {isStart : Ts → Prop} {s : HistoryState}
    (h : (historySystem true).Reachable (UniqueTimestamps isStart) s) (key : Bytes) {readTs : Ts}
    (hread : s.safePoint ≤ readTs) (hconflict : (s.storage.get key readTs).1 ≠ .lockConflict) :
    s.storage.get key readTs = (s.history key).read readTs := by
  rcases s.storage.get_cases key readTs with ⟨-, hget⟩ | ⟨-, hget⟩
  · simp [hget] at hconflict
  · rw [hget]
    exact (simulates_of_reachable h key).read hread

/-- A rollback whose marker is collected, after which the same transaction prewrites another value
and commits it. -/
def rollbackCollectRun : List Step :=
  [{ command := .prewrite [1] [7] ⟨[1], one_lt_maxSize⟩ 5 100 false 0 0 0 },
    { command := .rollback [1] 5 }, { command := .rollback [1] 3 },
    { command := .garbageCollect 10 },
    { command := .prewrite [1] [8] ⟨[1], one_lt_maxSize⟩ 5 100 false 0 0 0 },
    { command := .commit [1] 5 20 }]

def HistoryState.run (forget : Bool) (steps : List Step) : HistoryState :=
  steps.foldl (HistoryState.next forget) .empty

theorem get_eq_history_rollbackCollectRun :
    (historySystem true).Reachable (UniqueTimestamps (· < 10)) (.run true rollbackCollectRun) ∧
      (HistoryState.run true rollbackCollectRun).safePoint ≤ 20 ∧
      (HistoryState.run true rollbackCollectRun).storage.get [1] 20 =
        ((HistoryState.run true rollbackCollectRun).history [1]).read 20 := by
  have hreach : (historySystem true).Reachable (UniqueTimestamps (· < 10))
      (.run true rollbackCollectRun) :=
    TransitionSystem.Guarded.reachable (by decide)
  have hread : (HistoryState.run true rollbackCollectRun).safePoint ≤ 20 := by decide
  exact ⟨hreach, hread, get_eq_history hreach [1] hread (by decide)⟩

/-- If a rollback does not count, the transaction's first prewrite is not what it commits. -/
theorem get_ne_history_of_not_forget : ¬∀ (isStart : Ts → Prop) (s : HistoryState),
      (historySystem false).Reachable (UniqueTimestamps isStart) s → ∀ (key : Bytes) (readTs : Ts),
      s.safePoint ≤ readTs → (s.storage.get key readTs).1 ≠ .lockConflict →
      s.storage.get key readTs = (s.history key).read readTs := by
  intro h
  have hreach : (historySystem false).Reachable (UniqueTimestamps (· < 10))
      (.run false rollbackCollectRun) :=
    TransitionSystem.Guarded.reachable (by decide)
  have hget := h _ _ hreach [1] 20 (by decide) (by decide)
  exact absurd hget (by decide)

end StrataKV.Mvcc
