import StrataKV.Mvcc.TxnRecord

/-!
# Committed Puts and their data

A Put record points to a data record that another command wrote. The link is kept by an invariant
of each key (`DataInv`), which has to say what the key's lock promises about the data:
a prewritten lock guards its data record, and no commit of the key is newer than its `startTs`.

A commit does not look at the kind of lock it commits. On a bare pessimistic lock, for which no data
was ever written, it writes a Put without data; the invariant holds as long as this never happens.
-/

namespace StrataKV.Mvcc

open MvccStorage

open Std (ExtTreeMap)

/-- Every record other than a new rollback marker was there before. -/
lemma of_insert_marker {v : KeyView} {startTs c : Ts} {w : MvccWrite}
    (hw : (v.versions.insert startTs ⟨startTs, startTs, .rollback⟩)[c]? = some w)
    (hne : w.type ≠ .rollback) : v.versions[c]? = some w := by
  rcases OrdMap.insert_cases hw with ⟨-, rfl⟩ | hw
  · exact absurd rfl hne
  · exact hw

/-- The links between a key's records. -/
structure DataInv (v : KeyView) : Prop where
  lock_unmarked : v.LockUnmarked
  put_data : ∀ (c : Ts) (w : MvccWrite), v.versions[c]? = some w → w.type = .put →
    (v.data w.startTs).isSome
  lock_data : ∀ lock, v.lock = some lock → lock.isPessimistic = false → lock.writeType = .put →
    (v.data lock.startTs).isSome
  lock_newest : ∀ lock, v.lock = some lock → lock.isPessimistic = false →
    lock.isLockOnly = false → ∀ (c : Ts) (w : MvccWrite), v.versions[c]? = some w →
    w.type ≠ .rollback → c < lock.startTs
  startTs_lt : ∀ (c : Ts) (w : MvccWrite), v.versions[c]? = some w → w.type ≠ .rollback →
    w.startTs < c
  put_unique : ∀ (c c' : Ts) (w w' : MvccWrite), v.versions[c]? = some w →
    v.versions[c']? = some w' → w.type = .put → w'.type = .put → w.startTs = w'.startTs → c = c'

lemma MvccLock.writeType_eq_put {lock : MvccLock} :
    lock.writeType = .put ↔ lock.isLockOnly = false ∧ lock.isDelete = false := by
  unfold writeType
  cases lock.isLockOnly <;> cases lock.isDelete <;> simp

namespace DataInv

variable {v v' : KeyView}

/-- No record of the transaction whose prewritten lock is on the key. -/
lemma ne_startTs (h : DataInv v) {lock : MvccLock} (hlock : v.lock = some lock)
    (hpess : lock.isPessimistic = false) (honly : lock.isLockOnly = false) {c : Ts} {w : MvccWrite}
    (hget : v.versions[c]? = some w) : w.startTs ≠ lock.startTs := by
  by_cases hmark : w.type = .rollback
  · exact h.lock_unmarked lock hlock c w hget hmark
  · have hlt := h.startTs_lt c w hget hmark
    have hlt' := h.lock_newest lock hlock hpess honly c w hget hmark
    grind

lemma of_empty (key : Bytes) : DataInv (empty.view key) := by
  constructor <;> simp [KeyView.LockUnmarked]

variable {key primaryKey : Bytes} {startTs forUpdateTs : Ts}

section

variable (h : DataInv v)

include h

/-- The data of a put is written with its lock. -/
lemma prewrite {value : Bytes} {isDelete : Bool}
    (hstep : KeyStep (.prewrite key value primaryKey startTs isDelete forUpdateTs) v v') :
    DataInv v' := by
  have hmark := h.lock_unmarked.step hstep
  cases hstep with
  | prewrite lock _ below _ startTs_eq _ isDelete_eq _ _ _ =>
    refine ⟨hmark, fun c w hget hput => ?_, ?_, ?_, h.startTs_lt, h.put_unique⟩
    · -- the data record written belongs to a transaction that has no Put yet
      have hlt := h.startTs_lt c w hget (by simp [hput])
      have hne : w.startTs ≠ startTs := by
        have := below c w hget
        grind
      simpa [Function.update_of_ne hne] using h.put_data c w hget hput
    · rintro _ ⟨⟩ - hput
      have hdel := (MvccLock.writeType_eq_put.1 hput).2
      simp [startTs_eq, ← isDelete_eq, hdel]
    · rintro _ ⟨⟩ - - c w hget -
      exact startTs_eq ▸ below c w hget

lemma pessimisticLock {expireAt : UInt64}
    (hstep : KeyStep (.pessimisticLock key primaryKey startTs forUpdateTs expireAt) v v') :
    DataInv v' := by
  have hmark := h.lock_unmarked.step hstep
  cases hstep with
  | pessimisticLock lock _ _ _ _ _ _ isPessimistic_eq =>
    refine ⟨hmark, h.put_data, ?_, ?_, h.startTs_lt, h.put_unique⟩
    · rintro _ ⟨⟩ hpess
      simp [isPessimistic_eq] at hpess
    · rintro _ ⟨⟩ hpess
      simp [isPessimistic_eq] at hpess

lemma prewriteLock
    (hstep : KeyStep (.prewriteLock key primaryKey startTs forUpdateTs) v v') : DataInv v' := by
  have hmark := h.lock_unmarked.step hstep
  cases hstep with
  | prewriteLock old ttlMs =>
    refine ⟨hmark, h.put_data, ?_, ?_, h.startTs_lt, h.put_unique⟩
    · rintro _ ⟨⟩ - hput
      exact absurd (MvccLock.writeType_eq_put.1 hput).1 (by simp [MvccLock.normalize])
    · rintro _ ⟨⟩ - honly
      simp [MvccLock.normalize] at honly

/-- A commit keeps the invariant if its lock was prewritten. -/
lemma commit {commitTs : Ts} (hstep : KeyStep (.commit key startTs commitTs) v v')
    (hprewritten : ∀ lock, v.lock = some lock → lock.startTs = startTs → lock.isPessimistic = false) :
    DataInv v' := by
  have hmark := h.lock_unmarked.step hstep
  cases hstep with
  | commit lock lock_eq startTs_eq startTs_lt _ absent _ =>
    have hpess := hprewritten lock lock_eq startTs_eq
    refine ⟨hmark, fun c w hw hput => ?_, by simp, by simp, fun c w hw hne => ?_,
      fun c c' w w' hw hw' hput hput' heq => ?_⟩
    · rcases OrdMap.insert_cases hw with ⟨-, rfl⟩ | hw
      · exact startTs_eq ▸ h.lock_data lock lock_eq hpess hput
      · exact h.put_data c w hw hput
    · rcases OrdMap.insert_cases hw with ⟨hc, rfl⟩ | hw
      · exact hc ▸ startTs_lt
      · exact h.startTs_lt c w hw hne
    · -- the lock's transaction has no other Put, so the new one is its only one
      have hold {c : Ts} {w : MvccWrite} (hw : v.versions[c]? = some w)
          (hput : lock.writeType = .put) : w.startTs ≠ startTs :=
        startTs_eq ▸ h.ne_startTs lock_eq hpess (MvccLock.writeType_eq_put.1 hput).1 hw
      rw [OrdMap.getElem?_insert] at hw hw'
      split at hw <;> split at hw'
      · grind
      · cases hw
        exact absurd heq.symm (hold hw' hput)
      · cases hw'
        exact absurd heq (hold hw hput')
      · exact h.put_unique c c' w w' hw hw' hput hput' heq

/-- A rollback deletes the data of its own transaction only. -/
lemma rollback (hstep : KeyStep (.rollback key startTs) v v') : DataInv v' := by
  have hmark := h.lock_unmarked.step hstep
  cases hstep with
  | rollback unrecorded =>
    refine ⟨hmark, fun c w hw hput => ?_, fun lock hlock hpess hput => ?_,
      fun lock hlock hpess honly c w hw hne => ?_,
      fun c w hw hne => ?_, fun c c' w w' hw hw' hput hput' heq => ?_⟩
    · have hw := of_insert_marker hw (by simp [hput])
      simpa [Function.update_of_ne (unrecorded c w hw)] using h.put_data c w hw hput
    · obtain ⟨hlock, hstart⟩ := Option.filter_eq_some_iff.1 hlock
      have hstart : lock.startTs ≠ startTs := by simpa using hstart
      simpa [Function.update_of_ne hstart] using h.lock_data lock hlock hpess hput
    · obtain ⟨hlock, -⟩ := Option.filter_eq_some_iff.1 hlock
      exact h.lock_newest lock hlock hpess honly c w (of_insert_marker hw hne) hne
    · exact h.startTs_lt c w (of_insert_marker hw hne) hne
    · exact h.put_unique c c' w w' (of_insert_marker hw (by simp [hput]))
        (of_insert_marker hw' (by simp [hput'])) hput hput' heq

/-- Data is collected only with its put. -/
lemma collect {safePointTs : Ts} (hstep : CollectStep safePointTs v v') : DataInv v' := by
  refine ⟨h.lock_unmarked.collect hstep, fun c w hw hput => ?_, fun lock hlock hpess hput => ?_,
    fun lock hlock hpess honly c w hw hne => ?_,
    fun c w hw hne => ?_, fun c c' w w' hw hw' hput hput' heq => ?_⟩
  · -- the data record goes only with its Put, and no other Put shares it
    obtain ⟨hw, hkept⟩ := hstep.of_get hw
    rw [hstep.data_kept w.startTs fun c' w' hc hput' heq => ?_]
    · exact h.put_data c w hw hput
    · have := h.put_unique c' c w' w hc.1 hw hput' hput heq
      subst this
      exact hkept w' hc
  · rw [hstep.lock_eq] at hlock
    rw [hstep.data_kept lock.startTs fun c' w' hc hput' => ?_]
    · exact h.lock_data lock hlock hpess hput
    · exact h.ne_startTs hlock hpess (MvccLock.writeType_eq_put.1 hput).1 hc.1
  · rw [hstep.lock_eq] at hlock
    exact h.lock_newest lock hlock hpess honly c w (hstep.of_get hw).1 hne
  · exact h.startTs_lt c w (hstep.of_get hw).1 hne
  · exact h.put_unique c c' w w' (hstep.of_get hw).1 (hstep.of_get hw').1 hput hput' heq

end

end DataInv

/-! ## Runs -/

/-- The step commits no key whose lock, of the transaction it commits, is a bare pessimistic one. -/
def CommitsPrewritten (σ : MvccStorage) (step : Step) : Prop :=
  ∀ key startTs commitTs, KeyCommand.commit key startTs commitTs ∈ step.command.parts →
    ∀ lock, σ.locks[key]? = some lock → lock.startTs = startTs → lock.isPessimistic = false

/-- `CommitsPrewritten` for one part of the step. -/
def KeyCommand.CommitsPrewritten (σ : MvccStorage) : KeyCommand → Prop
  | .commit key startTs _ =>
    ∀ lock ∈ σ.locks[key]?, lock.startTs = startTs → lock.isPessimistic = false
  | _ => True

instance (σ : MvccStorage) : DecidablePred (KeyCommand.CommitsPrewritten σ) := fun c => by
  induction c using KeyCommand.casesOn <;> dsimp only [KeyCommand.CommitsPrewritten] <;> infer_instance

variable {σ : MvccStorage}

lemma commitsPrewritten_iff {step : Step} :
    (∀ c ∈ step.command.parts, c.CommitsPrewritten σ) ↔ CommitsPrewritten σ step := by
  constructor
  · intro h key startTs commitTs hpart lock hlock
    exact h _ hpart lock hlock
  · intro h c hpart
    cases c with
    | commit key startTs commitTs => exact fun lock hlock => h key startTs commitTs hpart lock hlock
    | _ => trivial

instance (σ : MvccStorage) (step : Step) : Decidable (CommitsPrewritten σ step) :=
  decidable_of_iff _ commitsPrewritten_iff

lemma DataInv.exec {step : Step} (h : ∀ key, DataInv (σ.view key))
    (hstep : CommitsPrewritten σ step) (key : Bytes) : DataInv ((σ.exec step).2.view key) := by
  rcases σ.exec_view step key with hid | ⟨c, hpart, rfl, hkey⟩ | ⟨safePointTs, -, hcollect⟩
  · exact hid ▸ h key
  · cases c with
    | prewrite => exact (h _).prewrite hkey
    | pessimisticLock => exact (h _).pessimisticLock hkey
    | prewriteLock => exact (h _).prewriteLock hkey
    | commit key startTs commitTs =>
      exact (h _).commit hkey (hstep key startTs commitTs hpart)
    | rollback => exact (h _).rollback hkey
  · exact (h key).collect hcollect

/-- Every put has its data, if only prewritten locks are committed. -/
lemma dataInv_of_reachable (h : storageSystem.Reachable CommitsPrewritten σ) (key : Bytes) :
    DataInv (σ.view key) := by
  refine h.invariant (I := fun σ => ∀ key, DataInv (σ.view key)) ?_ ?_ key
  · rintro _ rfl
    exact DataInv.of_empty
  · rintro σ step _ hσ hstep rfl
    exact DataInv.exec hσ hstep

/-- In every run that commits no bare pessimistic lock, every Put has its data record, and so no
read fails. -/
theorem put_has_data_of_commitsPrewritten {σ : MvccStorage}
    (h : storageSystem.Reachable CommitsPrewritten σ) (key : Bytes) :
    (∀ (commitTs : Ts) (write : MvccWrite), (σ.versionsOf key)[commitTs]? = some write →
      write.type = .put → (σ.engine[dataKey key write.startTs]?).isSome) ∧
    ∀ readTs, (σ.get key readTs).1 ≠ .storageError := by
  have hinv := dataInv_of_reachable h key
  refine ⟨hinv.put_data, fun readTs herror => ?_⟩
  rcases σ.get_cases key readTs with ⟨-, hget⟩ | ⟨-, hget⟩
  · simp [hget] at herror
  · rw [hget] at herror
    obtain ⟨c, w, hw, hput, hnone⟩ := KeyView.read_eq_storageError herror
    have := hinv.put_data c w hw hput
    simp [hnone] at this

/-- A prewrite and its commit. -/
def prewriteCommitRun : List Step :=
  [{ command := .prewrite [1] [7] ⟨[1], one_lt_maxSize⟩ 5 100 false 0 0 0 },
    { command := .commit [1] 5 10 }]

theorem put_has_data_prewriteCommitRun :
    storageSystem.Reachable CommitsPrewritten (MvccStorage.empty.run prewriteCommitRun) ∧
      ((MvccStorage.empty.run prewriteCommitRun).get [1] 10).1 ≠ .storageError := by
  have hreach : storageSystem.Reachable CommitsPrewritten (empty.run prewriteCommitRun) :=
    TransitionSystem.Guarded.reachable (by decide)
  exact ⟨hreach, (put_has_data_of_commitsPrewritten hreach [1]).2 10⟩

/-- A pessimistic lock that is committed without a prewrite. -/
def barePessimisticRun : List Step :=
  [{ command := .pessimisticLock [1] ⟨[2], one_lt_maxSize⟩ 5 100 0 0 0 },
    { command := .commit [1] 5 10 }]

theorem put_without_data_barePessimisticRun :
    ¬∀ σ : MvccStorage, storageSystem.Reachable TransitionSystem.anyStep σ → ∀ key,
      (∀ (commitTs : Ts) (write : MvccWrite), (σ.versionsOf key)[commitTs]? = some write →
        write.type = .put → (σ.engine[dataKey key write.startTs]?).isSome) ∧
      ∀ readTs, (σ.get key readTs).1 ≠ .storageError := by
  intro h
  have hreach : storageSystem.Reachable TransitionSystem.anyStep (empty.run barePessimisticRun) :=
    .tail (.tail (.initial rfl) trivial rfl) trivial rfl
  exact (h _ hreach [1]).2 10 (by decide)

end StrataKV.Mvcc
