import StrataKV.Mvcc.CommittedData

/-!
# Reads at an allocated timestamp are stable

Timestamps come from one clock that only grows. A read at `readTs` that was answered saw every
transaction that can still commit at or below `readTs`: a commit timestamp is allocated after the
transaction's prewrites were applied, so such a transaction's lock was on the key and the read would
have reported a conflict.

* `TsoState` adds the clock to the storage and remembers, for each transaction, the clock reading at
  its last applied prewrite.
* `Stable` is the invariant between the first read and the second.
-/

namespace StrataKV.Mvcc

open Versions TransitionSystem Option KeyCommand

open Std (ExtTreeMap)

/-! ## The storage and its clock -/

structure TsoState where
  storage : MvccStorage
  /-- The last allocated timestamp. -/
  clock : Ts
  /-- The clock when the transaction's last prewrite was applied. -/
  prewriteClock : Ts → Ts

inductive TsoEvent
  | allocate (ts : Ts)
  | command (step : Step)

/-- The key holds the lock of an applied prewrite of the transaction. -/
def MvccStorage.hasPrewritten (σ : MvccStorage) (key : Bytes) (startTs : Ts) : Bool :=
  σ.locks[key]?.any fun lock => lock.startTs == startTs && !lock.isPessimistic

/-- The part is a prewrite of the transaction that its key does not hold yet. -/
def KeyCommand.prewrites (σ : MvccStorage) (startTs : Ts) : KeyCommand → Bool
  | .prewrite key _ _ startTs' _ _ => startTs' == startTs && !σ.hasPrewritten key startTs
  | .prewriteLock key _ startTs' _ => startTs' == startTs && !σ.hasPrewritten key startTs
  | _ => false

namespace TsoState

def empty : TsoState := ⟨.empty, 0, fun _ => 0⟩

def next (s : TsoState) : TsoEvent → TsoState
  | .allocate ts => { s with clock := ts }
  | .command step =>
    { storage := (s.storage.exec step).2
      clock := s.clock
      prewriteClock := fun startTs =>
        if (s.storage.exec step).1 = .ok ∧ ¬s.storage.Stale step.raftIndex ∧
            step.command.parts.any (KeyCommand.prewrites s.storage startTs) then s.clock
        else s.prewriteClock startTs }

end TsoState

def tsoSystem : TransitionSystem TsoState TsoEvent := .ofFun .empty TsoState.next

/-- What the timestamps of a part promise: they were allocated, once each, and a commit timestamp
after the prewrites of its transaction were applied. -/
def KeyCommand.Allocated (isStart : Ts → Prop) (s : TsoState) (c : KeyCommand) : Prop :=
  (isStart c.startTs ∧ c.startTs ≤ s.clock) ∧ match c with
    | .commit _ startTs commitTs =>
      ¬isStart commitTs ∧ commitTs ≤ s.clock ∧ s.prewriteClock startTs < commitTs
    | _ => True

instance (isStart : Ts → Prop) [DecidablePred isStart] (s : TsoState) :
    DecidablePred (KeyCommand.Allocated isStart s) := fun c => by
  induction c using KeyCommand.casesOn <;> dsimp only [KeyCommand.Allocated] <;> infer_instance

/-- All timestamps come from one increasing clock. -/
def Allocated (isStart : Ts → Prop) (s : TsoState) : TsoEvent → Prop
  | .allocate ts => s.clock < ts
  | .command step => ∀ c ∈ step.command.parts, c.Allocated isStart s

instance (isStart : Ts → Prop) [DecidablePred isStart] (s : TsoState) :
    DecidablePred (Allocated isStart s) := fun event =>
  match event with
  | .allocate _ => inferInstanceAs (Decidable (_ < _))
  | .command _ => inferInstanceAs (Decidable (∀ c ∈ _, _))

/-- No collection runs above `readTs`. -/
def CollectsUpTo (readTs : Ts) : TsoEvent → Prop
  | .allocate _ => True
  | .command step => ∀ safePointTs ∈ step.command.safePoint?, safePointTs ≤ readTs

instance (readTs : Ts) : DecidablePred (CollectsUpTo readTs) := fun event =>
  match event with
  | .allocate _ => isTrue trivial
  | .command _ => Option.decidableForallMem _

/-- As `CommitsPrewritten`, for the steps of the storage. -/
def TsoEvent.CommitsPrewritten (s : TsoState) : TsoEvent → Prop
  | .allocate _ => True
  | .command step => Mvcc.CommitsPrewritten s.storage step

instance (s : TsoState) : DecidablePred (TsoEvent.CommitsPrewritten s) := fun event =>
  match event with
  | .allocate _ => isTrue trivial
  | .command step => inferInstanceAs (Decidable (Mvcc.CommitsPrewritten s.storage step))

/-! ## Answers that do not change -/

namespace KeyView

variable {v v' : KeyView} {readTs : Ts}

/-- A read answers by the record it stops at and, for a Put, that record's data. -/
lemma read_congr (hvisible : v'.versions.visible readTs = v.versions.visible readTs)
    (hdata : ∀ (c : Ts) (w : MvccWrite), v.versions.visible readTs = some (c, w) →
      w.type = .put → v'.data w.startTs = v.data w.startTs) : v'.read readTs = v.read readTs := by
  unfold read
  rw [hvisible]
  split
  · rfl
  · rename_i c w hw
    obtain ⟨-, -, hvalue, -⟩ := visible_eq_some.1 hw
    split_ifs with hdelete
    · rfl
    · rw [hdata c w hw (hvalue.resolve_right hdelete)]

/-- A read stops at the same record if the values up to `readTs` are the same. -/
lemma visible_congr {versions versions' : Versions}
    (h : ∀ (c : Ts) (w : MvccWrite), c ≤ readTs → w.IsValue →
      (versions'[c]? = some w ↔ versions[c]? = some w)) :
    versions'.visible readTs = versions.visible readTs := by
  apply ext
  rintro ⟨c, w⟩
  rw [visible_eq_some, visible_eq_some]
  constructor
  · rintro ⟨hget, hle, hvalue, hmax⟩
    refine ⟨(h c w hle hvalue).1 hget, hle, hvalue, fun c' w' hget' hvalue' hle' => ?_⟩
    exact hmax c' w' ((h c' w' hle' hvalue').2 hget') hvalue' hle'
  · rintro ⟨hget, hle, hvalue, hmax⟩
    refine ⟨(h c w hle hvalue).2 hget, hle, hvalue, fun c' w' hget' hvalue' hle' => ?_⟩
    exact hmax c' w' ((h c' w' hle' hvalue').1 hget') hvalue' hle'

end KeyView

/-- Commit timestamps of values are no start timestamps. -/
def KeyView.CommitsApart (isStart : Ts → Prop) (v : KeyView) : Prop :=
  ∀ (c : Ts) (w : MvccWrite), v.versions[c]? = some w → w.IsValue → ¬isStart c

section

variable {v v' : KeyView} {isStart : Ts → Prop} {c : KeyCommand} {readTs : Ts}
  {ts : Ts} {w : MvccWrite}

/-- A command adds a value at its commit timestamp at most. -/
lemma KeyStep.get_of_value (hstep : KeyStep c v v') (hget : v'.versions[ts]? = some w)
    (hvalue : w.IsValue) :
    v.versions[ts]? = some w ∨ ∃ key startTs, c = .commit key startTs ts ∧
      ∃ lock, v.lock = some lock ∧ lock.startTs = startTs ∧ lock.isLockOnly = false ∧
        startTs < ts := by
  cases hstep with
  | commit lock lock_eq startTs_eq startTs_lt =>
    rcases OrdMap.insert_cases hget with ⟨hts, rfl⟩ | hget
    · refine .inr ⟨_, _, by rw [hts], lock, lock_eq, startTs_eq, ?_, hts ▸ startTs_lt⟩
      by_contra honly
      simp only [Bool.not_eq_false] at honly
      simp [MvccWrite.IsValue, MvccLock.writeType, honly] at hvalue
    · exact .inl hget
  | rollback =>
    rcases OrdMap.insert_cases hget with ⟨-, rfl⟩ | hget
    · simp [MvccWrite.IsValue] at hvalue
    · exact .inl hget
  | _ => exact .inl hget

/-- A command removes no value: a rollback marker takes the place of a start timestamp. -/
lemma KeyStep.get_value (hstep : KeyStep c v v') (hapart : v.CommitsApart isStart)
    (hstart : isStart c.startTs) (hget : v.versions[ts]? = some w) (hvalue : w.IsValue) :
    v'.versions[ts]? = some w := by
  cases hstep with
  | commit lock _ _ _ _ absent =>
    rw [OrdMap.getElem?_insert, if_neg, hget]
    rintro rfl
    simp [absent] at hget
  | rollback =>
    rw [OrdMap.getElem?_insert, if_neg, hget]
    rintro rfl
    exact hapart _ w hget hvalue hstart
  | _ => exact hget

/-- A command leaves the data of the Puts that are there. -/
lemma KeyStep.data_eq (hstep : KeyStep c v v') (hinv : DataInv v)
    (hget : v.versions[ts]? = some w) (hput : w.type = .put) :
    v'.data w.startTs = v.data w.startTs := by
  cases hstep with
  | @prewrite _ _ _ startTs _ _ _ _ _ below =>
    have hne : w.startTs ≠ startTs := by
      have hlt := hinv.startTs_lt ts w hget (by simp [hput])
      have := below ts w hget
      grind
    exact Function.update_of_ne hne _ _
  | pessimisticLock | prewriteLock | commit => rfl
  | rollback unrecorded => exact Function.update_of_ne (unrecorded ts w hget) _ _

lemma KeyView.CommitsApart.step (hapart : v.CommitsApart isStart) (hstep : KeyStep c v v')
    (hcommit : ∀ key startTs commitTs, c = .commit key startTs commitTs → ¬isStart commitTs) :
    v'.CommitsApart isStart := by
  intro ts w hget hvalue
  rcases hstep.get_of_value hget hvalue with hget | ⟨key, startTs, rfl, -⟩
  · exact hapart ts w hget hvalue
  · exact hcommit _ _ _ rfl

/-- A command that commits no value up to `readTs` leaves the answer at `readTs`. -/
lemma KeyStep.read_eq (hstep : KeyStep c v v') (hinv : DataInv v) (hapart : v.CommitsApart isStart)
    (hstart : isStart c.startTs)
    (hcommit : ∀ key startTs commitTs lock, c = .commit key startTs commitTs →
      v.lock = some lock → lock.startTs = startTs → lock.isLockOnly = false → startTs < commitTs →
      readTs < commitTs) : v'.read readTs = v.read readTs := by
  refine KeyView.read_congr (KeyView.visible_congr fun ts w hle hvalue => ?_)
    fun ts w hw hput => hstep.data_eq hinv (visible_eq_some.1 hw).1 hput
  refine ⟨fun hget => ?_, fun hget => hstep.get_value hapart hstart hget hvalue⟩
  rcases hstep.get_of_value hget hvalue with hget | ⟨key, startTs, rfl, lock, hl, hs, ho, hlt⟩
  · exact hget
  · have := hcommit key startTs ts lock rfl hl hs ho hlt
    grind

/-- A collection up to `readTs` keeps the record a read at `readTs` stops at. -/
lemma CollectStep.read_eq {safePointTs : Ts} (hstep : CollectStep safePointTs v v')
    (hinv : DataInv v) (hle : safePointTs ≤ readTs) : v'.read readTs = v.read readTs := by
  -- the newest value up to `readTs` is not older than the one that is kept
  have hstays {c : Ts} {w : MvccWrite} (hvisible : v.versions.visible readTs = some (c, w)) :
      ∀ w', ¬v.Collected safePointTs c w' := by
    obtain ⟨hget, -, hvalue, hmax⟩ := visible_eq_some.1 hvisible
    rintro w' ⟨-, -, hkept⟩
    refine hkept ⟨w, hget, hvalue, fun c' w' hget' hvalue' hlt => hmax c' w' hget' hvalue' ?_⟩
    grind
  have hvisible : v'.versions.visible readTs = v.versions.visible readTs := by
    cases hv : v.versions.visible readTs with
    | none =>
      rw [visible_eq_none] at hv ⊢
      exact fun c w hget => hv c w (hstep.of_get hget).1
    | some item =>
      obtain ⟨c, w⟩ := item
      have hkept := hstep.kept c (hstays hv)
      rw [visible_eq_some] at hv ⊢
      obtain ⟨hget, hc, hvalue, hmax⟩ := hv
      exact ⟨hkept.trans hget, hc, hvalue, fun c' w' hget' => hmax c' w' (hstep.of_get hget').1⟩
  refine KeyView.read_congr hvisible fun c w hw hput => ?_
  have hget := (visible_eq_some.1 hw).1
  refine hstep.data_kept w.startTs fun c' w' hc' hput' heq => ?_
  have := hinv.put_unique c' c w' w hc'.1 hget hput' hput heq
  subst this
  exact hstays hw w' hc'

end

/-! ## Runs -/

variable {isStart : Ts → Prop} {s : TsoState}

lemma KeyCommand.Allocated.start {c : KeyCommand} (h : c.Allocated isStart s) :
    isStart c.startTs := h.1.1

lemma KeyCommand.Allocated.commit {key : Bytes} {startTs commitTs : Ts}
    (h : (commit key startTs commitTs).Allocated isStart s) :
    ¬isStart commitTs ∧ s.prewriteClock startTs < commitTs := ⟨h.2.1, h.2.2.2⟩

/-- The conditions on the runs: timestamps from one clock, and commits of prewritten locks. -/
def TsoRun (isStart : Ts → Prop) (s : TsoState) (event : TsoEvent) : Prop :=
  Allocated isStart s event ∧ event.CommitsPrewritten s

instance (isStart : Ts → Prop) [DecidablePred isStart] (s : TsoState) :
    DecidablePred (TsoRun isStart s) := fun _ => inferInstanceAs (Decidable (_ ∧ _))

/-- What is known of a key in every state. -/
structure KeyInv (isStart : Ts → Prop) (v : KeyView) : Prop where
  data : DataInv v
  apart : v.CommitsApart isStart

lemma KeyInv.of_empty (isStart : Ts → Prop) (key : Bytes) :
    KeyInv isStart (MvccStorage.empty.view key) := by
  refine ⟨DataInv.of_empty key, fun c w hget => ?_⟩
  simp at hget

variable {event : TsoEvent}

lemma KeyInv.next (hrun : TsoRun isStart s event)
    (h : ∀ key, KeyInv isStart (s.storage.view key)) (key : Bytes) :
    KeyInv isStart ((s.next event).storage.view key) := by
  cases event with
  | allocate ts => exact h key
  | command step =>
    refine ⟨DataInv.exec (fun key => (h key).data) hrun.2 key, ?_⟩
    rcases s.storage.exec_view step key with hid | ⟨c, hpart, rfl, hstep⟩ | ⟨safePointTs, -, hstep⟩
    · exact hid ▸ (h key).apart
    · refine (h _).apart.step hstep ?_
      rintro key startTs commitTs rfl
      exact (hrun.1 _ hpart).commit.1
    · intro c w hget
      exact (h key).apart c w (hstep.of_get hget).1

lemma keyInv_of_reachable (h : tsoSystem.Reachable (TsoRun isStart) s) (key : Bytes) :
    KeyInv isStart (s.storage.view key) := by
  refine h.invariant (I := fun s => ∀ key, KeyInv isStart (s.storage.view key)) ?_ ?_ key
  · rintro _ rfl
    exact KeyInv.of_empty isStart
  · rintro s event _ hs hrun rfl
    exact KeyInv.next hrun hs

/-- Between two reads of the key at `readTs`: the answer is the first one's, and whoever holds a
prewritten lock on the key can commit above `readTs` only. -/
structure Stable (key : Bytes) (readTs : Ts) (answer : TxnStatus × Option Bytes) (s : TsoState) :
    Prop where
  clock : readTs ≤ s.clock
  lock : ∀ lock, (s.storage.view key).lock = some lock → lock.isPessimistic = false →
    lock.isLockOnly = false → readTs < lock.startTs ∨ readTs ≤ s.prewriteClock lock.startTs
  answer_eq : (s.storage.view key).read readTs = answer

namespace Stable

variable {isStart : Ts → Prop} {key : Bytes} {readTs : Ts} {answer : TxnStatus × Option Bytes}
  {s : TsoState}

/-- After a read that was answered, no lock that is not newer than the read is on the key. -/
lemma of_get (hinv : KeyInv isStart (s.storage.view key)) (hread : readTs ≤ s.clock)
    (hget : (s.storage.get key readTs).1 ≠ .lockConflict) :
    Stable key readTs (s.storage.get key readTs) s := by
  rcases s.storage.get_cases key readTs with ⟨-, hconflict⟩ | ⟨hblocked, heq⟩
  · simp [hconflict] at hget
  refine ⟨hread, fun lock hlock hpess honly => .inl ?_, heq.symm⟩
  by_contra hle
  rw [UInt64.not_lt] at hle
  exact hblocked ⟨lock, hlock, hle, fun c w hget => hinv.data.ne_startTs hlock hpess honly hget⟩

section

variable (hs : Stable key readTs answer s)

include hs

/-- The clock of a transaction's last prewrite is kept or becomes the present clock. -/
lemma prewriteClock_next (event : TsoEvent) {startTs : Ts}
    (h : readTs ≤ s.prewriteClock startTs) : readTs ≤ (s.next event).prewriteClock startTs := by
  cases event with
  | allocate ts => exact h
  | command step =>
    simp only [TsoState.next]
    split
    · exact hs.clock
    · exact h

lemma of_view_eq {step : Step} (hid : (s.storage.exec step).2.view key = s.storage.view key) :
    Stable key readTs answer (s.next (.command step)) := by
  have hview : (s.next (.command step)).storage.view key = s.storage.view key := hid
  refine ⟨hs.clock, ?_, hview ▸ hs.answer_eq⟩
  intro lock hlock hpess honly
  rw [hview] at hlock
  exact (hs.lock lock hlock hpess honly).imp_right (hs.prewriteClock_next (.command step))

/-- A step that carries out a part on the key. -/
lemma of_keyStep (hinv : KeyInv isStart (s.storage.view key))
    {step : Step} (hrun : TsoRun isStart s (.command step)) (hok : (s.storage.exec step).1 = .ok)
    (hstale : ¬s.storage.Stale step.raftIndex) {c : KeyCommand} (hpart : c ∈ step.command.parts)
    (hkey : c.key = key)
    (hstep : KeyStep c (s.storage.view key) ((s.storage.exec step).2.view key)) :
    Stable key readTs answer (s.next (.command step)) := by
  have hallocated := hrun.1 c hpart
  refine ⟨hs.clock, ?_, ?_⟩
  · intro lock hlock hpess honly
    have hlock : ((s.storage.exec step).2.view key).lock = some lock := hlock
    -- the lock is the one that a prewrite has just taken, or it was there before
    generalize (s.storage.exec step).2.view key = v' at hstep hlock
    cases hstep with
    | prewrite taken old _ _ startTs_eq =>
      have htaken : taken = lock := some.inj hlock
      rw [htaken] at startTs_eq
      have hprewritten : s.storage.hasPrewritten key lock.startTs = false := by
        rw [MvccStorage.hasPrewritten]
        cases hl : s.storage.locks[key]? with
        | none => rfl
        | some l => simp [(old l hl).2.2.1]
      have hany : step.command.parts.any (prewrites s.storage lock.startTs) = true := by
        refine List.any_eq_true.2 ⟨_, hpart, ?_⟩
        cases hkey
        simpa [prewrites, startTs_eq, key] using hprewritten
      right
      simp only [TsoState.next, hok, hstale, hany, not_false_eq_true, and_self, if_true]
      exact hs.clock
    | pessimisticLock _ _ _ _ _ _ _ isPessimistic_eq =>
      obtain rfl := some.inj hlock
      simp [isPessimistic_eq] at hpess
    | prewriteLock =>
      obtain rfl := some.inj hlock
      simp [MvccLock.normalize] at honly
    | commit => cases hlock
    | rollback =>
      have hold := (filter_eq_some_iff.1 hlock).1
      exact (hs.lock lock hold hpess honly).imp_right (hs.prewriteClock_next (.command step))
  · refine (hstep.read_eq hinv.data hinv.apart hallocated.start ?_).trans hs.answer_eq
    rintro key' startTs commitTs lock rfl hlock rfl honly hlt
    cases hkey
    have hpess := hrun.2 _ _ _ hpart lock hlock rfl
    have hafter := hallocated.commit.2
    rcases hs.lock lock hlock hpess honly with hnewer | hlater
    · exact UInt64.lt_trans hnewer hlt
    · exact Std.lt_of_le_of_lt hlater hafter

/-- Every step that collects nothing above `readTs` keeps the answer. -/
lemma next (hinv : KeyInv isStart (s.storage.view key))
    (hrun : TsoRun isStart s event) (hcollect : CollectsUpTo readTs event) :
    Stable key readTs answer (s.next event) := by
  cases event with
  | allocate ts =>
    have hlt : s.clock < ts := hrun.1
    exact ⟨Std.le_of_lt (Std.lt_of_le_of_lt hs.clock hlt), hs.lock, hs.answer_eq⟩
  | command step =>
    by_cases hgc : ∃ safePointTs, step.command = .garbageCollect safePointTs
    · obtain ⟨safePointTs, hcommand⟩ := hgc
      have hle : safePointTs ≤ readTs := hcollect safePointTs (by rw [hcommand]; rfl)
      rcases s.storage.exec_view step key with hid | ⟨c, hpart, -⟩ | ⟨_, hcommand', hstep⟩
      · exact hs.of_view_eq hid
      · simp [hcommand, Command.parts] at hpart
      · rw [hcommand] at hcommand'
        cases hcommand'
        refine ⟨hs.clock, fun lock hlock hpess honly => ?_,
          (hstep.read_eq hinv.data hle).trans hs.answer_eq⟩
        exact (hs.lock lock (hstep.lock_eq ▸ hlock) hpess honly).imp_right
          (hs.prewriteClock_next (.command step))
    · rcases s.storage.exec_outcome step fun sp h => hgc ⟨sp, h⟩ with ⟨hid, -⟩ | ⟨hok, hstale, hout⟩
      · exact hs.of_view_eq (by rw [hid])
      · rcases hout key with ⟨-, hid⟩ | ⟨c, hpart, hkey, -, hstep | ⟨-, hid⟩⟩
        · exact hs.of_view_eq hid
        · exact hs.of_keyStep hinv hrun hok hstale hpart hkey hstep
        · exact hs.of_view_eq hid

end

end Stable

/-- Once a read at an allocated timestamp was answered, every later read at it that is answered has
the same answer. -/
theorem get_stable_of_commitsPrewritten {isStart : Ts → Prop} {s t : TsoState} {key : Bytes}
    {readTs : Ts} (hs : tsoSystem.Reachable (TsoRun isStart) s) (hread : readTs ≤ s.clock)
    (hfirst : (s.storage.get key readTs).1 = .ok ∨ (s.storage.get key readTs).1 = .notFound)
    (ht : tsoSystem.Reaches (fun s event => TsoRun isStart s event ∧ CollectsUpTo readTs event) s t)
    (hsecond : (t.storage.get key readTs).1 ≠ .lockConflict) :
    t.storage.get key readTs = s.storage.get key readTs := by
  have hanswered : (s.storage.get key readTs).1 ≠ .lockConflict := by
    rcases hfirst with h | h <;> simp [h]
  have hstable : Stable key readTs (s.storage.get key readTs) s :=
    .of_get (keyInv_of_reachable hs key) hread hanswered
  have hend : (∀ key, KeyInv isStart (t.storage.view key)) ∧
      Stable key readTs (s.storage.get key readTs) t := by
    refine ht.stable (I := fun u => (∀ key, KeyInv isStart (u.storage.view key)) ∧
      Stable key readTs (s.storage.get key readTs) u) ?_ ⟨keyInv_of_reachable hs, hstable⟩
    rintro u event _ ⟨hinv, hu⟩ ⟨hrun, hcollect⟩ rfl
    exact ⟨KeyInv.next hrun hinv, hu.next (hinv key) hrun hcollect⟩
  rcases t.storage.get_cases key readTs with ⟨-, hget⟩ | ⟨-, hget⟩
  · simp [hget] at hsecond
  · rw [hget]
    exact hend.2.answer_eq

def TsoState.run (s : TsoState) (events : List TsoEvent) : TsoState := events.foldl TsoState.next s

/-- A transaction commits at 10, and 20 is allocated for a read. -/
def committedRun : List TsoEvent :=
  [.allocate 5, .command { command := .prewrite [2] [7] ⟨[2], one_lt_maxSize⟩ 5 100 false 0 0 0 },
    .allocate 10, .command { command := .commit [2] 5 10 }, .allocate 20]

/-- A later transaction overwrites the key, and the versions below the read are collected. -/
def overwriteRun : List TsoEvent :=
  [.allocate 30, .command { command := .prewrite [2] [8] ⟨[2], one_lt_maxSize⟩ 30 100 false 0 0 0 },
    .allocate 40, .command { command := .commit [2] 30 40 },
    .command { command := .garbageCollect 20 }]

theorem get_stable_overwriteRun :
    (TsoState.empty.run committedRun).storage.get [2] 20 = (.ok, some [7]) ∧
      ((TsoState.empty.run committedRun).run overwriteRun).storage.get [2] 20 =
        (TsoState.empty.run committedRun).storage.get [2] 20 := by
  have hs : tsoSystem.Reachable (TsoRun fun ts => ts = 5 ∨ ts = 30)
      (TsoState.empty.run committedRun) := Guarded.reachable (by decide)
  have ht : tsoSystem.Reaches
      (fun s event => TsoRun (fun ts => ts = 5 ∨ ts = 30) s event ∧ CollectsUpTo 20 event)
      (TsoState.empty.run committedRun) ((TsoState.empty.run committedRun).run overwriteRun) :=
    Guarded.reaches (by decide)
  exact ⟨by decide,
    get_stable_of_commitsPrewritten hs (by decide) (.inl (by decide)) ht (by decide)⟩

/-- The committed transaction's pessimistic lock on another key arrives late, and is resolved like
its primary. -/
def lateLockRun : List TsoEvent :=
  [.command { command := .pessimisticLock [1] ⟨[2], one_lt_maxSize⟩ 5 100 0 0 0 },
    .command { command := .resolveLock [1] 5 .committed 10 }]

theorem get_unstable_lateLockRun :
    ¬∀ (isStart : Ts → Prop) (s t : TsoState) (key : Bytes) (readTs : Ts),
      tsoSystem.Reachable (Allocated isStart) s → readTs ≤ s.clock →
      (s.storage.get key readTs).1 = .ok ∨ (s.storage.get key readTs).1 = .notFound →
      tsoSystem.Reaches (fun s event => Allocated isStart s event ∧ CollectsUpTo readTs event) s t →
      (t.storage.get key readTs).1 ≠ .lockConflict →
      t.storage.get key readTs = s.storage.get key readTs := by
  intro h
  have hs : tsoSystem.Reachable (Allocated (· = 5)) (TsoState.empty.run committedRun) :=
    Guarded.reachable (by decide)
  have ht : tsoSystem.Reaches (fun s event => Allocated (· = 5) s event ∧ CollectsUpTo 20 event)
      (TsoState.empty.run committedRun) ((TsoState.empty.run committedRun).run lateLockRun) :=
    Guarded.reaches (by decide)
  have hsame := h _ _ _ [1] 20 hs (by decide) (.inr (by decide)) ht (by decide)
  exact absurd hsame (by decide)

end StrataKV.Mvcc
