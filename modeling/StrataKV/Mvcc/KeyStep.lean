import StrataKV.Lib.OrdMap
import StrataKV.Mvcc.KeyView

/-!
# What a step does to a key

`KeyStep c v v'` lists the ways a single-key command can change a key's view, each with the checks
that the prepare function made before; `CollectStep` does the same for a collection. The theorem
`exec_view` says that a step of a run is made of these and nothing else.
-/

namespace StrataKV.Mvcc

open List KeyMod OrdMap Versions
open Std (ExtTreeMap)

/-- A single-key command that changes its key's records. -/
inductive KeyStep : KeyCommand → KeyView → KeyView → Prop
  | prewrite {key value primaryKey : Bytes} {startTs forUpdateTs : Ts} {isDelete : Bool}
      {v : KeyView} (lock : MvccLock)
      (old : ∀ old, v.lock = some old → old.startTs = startTs ∧ old.primaryKey = primaryKey ∧
        old.isPessimistic = true ∧ (forUpdateTs ≠ 0 → old.forUpdateTs ≤ forUpdateTs))
      (below : ∀ (c : Ts) (w : MvccWrite), v.versions[c]? = some w → c < startTs)
      (unmarked : ∀ (c : Ts) (w : MvccWrite), v.versions[c]? = some w → w.startTs = startTs →
        w.type ≠ .rollback)
      (startTs_eq : lock.startTs = startTs) (primaryKey_eq : lock.primaryKey = primaryKey)
      (isDelete_eq : lock.isDelete = isDelete) (isPessimistic_eq : lock.isPessimistic = false)
      (isLockOnly_eq : lock.isLockOnly = false)
      (forUpdateTs_old : ∀ old, v.lock = some old → old.forUpdateTs ≠ 0 →
        lock.forUpdateTs = old.forUpdateTs)
      (expireAt_old : ∀ old, v.lock = some old → lock.expireAtPhysicalMs = old.expireAtPhysicalMs) :
      KeyStep (.prewrite key value primaryKey startTs isDelete forUpdateTs) v
        { lock := some lock
          versions := v.versions
          data := Function.update v.data startTs (if isDelete then none else some value)
          revision := v.revision + 1 }
  | pessimisticLock {key primaryKey : Bytes} {startTs forUpdateTs : Ts} {expireAt : UInt64}
      {v : KeyView} (lock : MvccLock)
      (old : ∀ old, v.lock = some old → old.startTs = startTs ∧ old.primaryKey = primaryKey ∧
        old.isPessimistic = true ∧
        lock = { old with
          forUpdateTs := max old.forUpdateTs (requestedTs startTs forUpdateTs)
          expireAtPhysicalMs := max old.expireAtPhysicalMs expireAt }.normalize)
      (fresh : v.lock = none → lock.isLockOnly = false ∧ lock.isDelete = false ∧
        lock.forUpdateTs = requestedTs startTs forUpdateTs ∧ lock.expireAtPhysicalMs = expireAt)
      (unmarked : v.lock = none → ∀ (c : Ts) (w : MvccWrite), v.versions[c]? = some w →
        w.startTs = startTs → w.type ≠ .rollback)
      (current : v.lock = none → ∀ (c : Ts) (w : MvccWrite), v.versions[c]? = some w →
        w.type ≠ .rollback → c ≤ requestedTs startTs forUpdateTs)
      (startTs_eq : lock.startTs = startTs) (primaryKey_eq : lock.primaryKey = primaryKey)
      (isPessimistic_eq : lock.isPessimistic = true) :
      KeyStep (.pessimisticLock key primaryKey startTs forUpdateTs expireAt) v
        { v with lock := some lock, revision := v.revision + 1 }
  | prewriteLock {key primaryKey : Bytes} {startTs forUpdateTs : Ts} {v : KeyView}
      (old : MvccLock) (ttlMs : UInt64) (lock_eq : v.lock = some old)
      (startTs_eq : old.startTs = startTs) (primaryKey_eq : old.primaryKey = primaryKey)
      (isPessimistic_eq : old.isPessimistic = true)
      (forUpdateTs_le : forUpdateTs ≠ 0 → old.forUpdateTs ≤ forUpdateTs) :
      KeyStep (.prewriteLock key primaryKey startTs forUpdateTs) v
        { v with
          lock := some { old with isPessimistic := false, isLockOnly := true, ttlMs := ttlMs }.normalize
          revision := v.revision + 1 }
  | commit {key : Bytes} {startTs commitTs : Ts} {v : KeyView} (lock : MvccLock)
      (lock_eq : v.lock = some lock) (startTs_eq : lock.startTs = startTs)
      (startTs_lt : startTs < commitTs) (forUpdateTs_lt : lock.forUpdateTs < commitTs)
      (absent : v.versions[commitTs]? = none)
      (between : ∀ (c : Ts) (w : MvccWrite), v.versions[c]? = some w → startTs ≤ c → c ≤ commitTs →
        w.startTs = startTs ∨ w.type = .rollback) :
      KeyStep (.commit key startTs commitTs) v
        { v with
          lock := none
          versions := v.versions.insert commitTs ⟨startTs, commitTs, lock.writeType⟩
          revision := v.revision + 1 }
  | rollback {key : Bytes} {startTs : Ts} {v : KeyView}
      (unrecorded : ∀ (c : Ts) (w : MvccWrite), v.versions[c]? = some w → w.startTs ≠ startTs) :
      KeyStep (.rollback key startTs) v
        { lock := v.lock.filter fun lock => lock.startTs != startTs
          versions := v.versions.insert startTs ⟨startTs, startTs, .rollback⟩
          data := Function.update v.data startTs none
          revision := v.revision + 1 }

/-- The key already is as the command wants it, so that the command has nothing to do. -/
inductive KeyDone : KeyCommand → KeyView → Prop
  | prewrite {key value primaryKey : Bytes} {startTs forUpdateTs : Ts} {isDelete : Bool}
      {v : KeyView} (lock : MvccLock) (lock_eq : v.lock = some lock)
      (startTs_eq : lock.startTs = startTs) (primaryKey_eq : lock.primaryKey = primaryKey)
      (isPessimistic_eq : lock.isPessimistic = false) :
      KeyDone (.prewrite key value primaryKey startTs isDelete forUpdateTs) v
  | pessimisticLock {key primaryKey : Bytes} {startTs forUpdateTs : Ts} {expireAt : UInt64}
      {v : KeyView} (lock : MvccLock) (lock_eq : v.lock = some lock)
      (startTs_eq : lock.startTs = startTs) (primaryKey_eq : lock.primaryKey = primaryKey)
      (isPessimistic_eq : lock.isPessimistic = true)
      (forUpdateTs_le : requestedTs startTs forUpdateTs ≤ lock.forUpdateTs) :
      KeyDone (.pessimisticLock key primaryKey startTs forUpdateTs expireAt) v
  | prewriteLock {key primaryKey : Bytes} {startTs forUpdateTs : Ts} {v : KeyView}
      (lock : MvccLock) (lock_eq : v.lock = some lock) (startTs_eq : lock.startTs = startTs)
      (primaryKey_eq : lock.primaryKey = primaryKey)
      (isPessimistic_eq : lock.isPessimistic = false) (isLockOnly_eq : lock.isLockOnly = true) :
      KeyDone (.prewriteLock key primaryKey startTs forUpdateTs) v
  | commit {key : Bytes} {startTs commitTs : Ts} {v : KeyView} (lock_eq : v.lock = none)
      (c : Ts) (w : MvccWrite) (get_eq : v.versions[c]? = some w) (startTs_eq : w.startTs = startTs)
      (type_ne : w.type ≠ .rollback) : KeyDone (.commit key startTs commitTs) v
  | commitAgain {key : Bytes} {startTs commitTs : Ts} {v : KeyView} (lock : MvccLock)
      (lock_eq : v.lock = some lock) (lock_startTs : lock.startTs = startTs)
      (startTs_lt : startTs < commitTs) (w : MvccWrite) (get_eq : v.versions[commitTs]? = some w)
      (startTs_eq : w.startTs = startTs) : KeyDone (.commit key startTs commitTs) v
  | rollback {key : Bytes} {startTs : Ts} {v : KeyView} (c : Ts) (w : MvccWrite)
      (get_eq : v.versions[c]? = some w) (startTs_eq : w.startTs = startTs)
      (type_eq : w.type = .rollback) : KeyDone (.rollback key startTs) v

/-- What the prepare half of a single-key command can return. -/
inductive PreparedMvccWrite.Prepares (prepared : PreparedMvccWrite) (σ : MvccStorage)
    (c : KeyCommand) : Prop
  | refused (ops : prepared.modifications = []) (status : prepared.status ≠ .ok)
  | done (ops : prepared.modifications = []) (status : prepared.status = .ok)
      (done : KeyDone c (σ.view c.key))
  | changes (status : prepared.status = .ok) (mods : List KeyMod)
      (carries : prepared.Carries c.key mods) (ne_nil : mods ≠ [])
      (step : KeyStep c (σ.view c.key) (mods.foldl (fun v m => m.onView v) (σ.view c.key)))

namespace PreparedMvccWrite.Prepares

variable {prepared : PreparedMvccWrite} {σ : MvccStorage} {c : KeyCommand}

lemma exists_carries (h : prepared.Prepares σ c) : ∃ mods, prepared.Carries c.key mods := by
  cases h with
  | refused ops | done ops => exact ⟨[], .nil ops⟩
  | changes _ mods carries => exact ⟨mods, carries⟩

/-- The fields of the reply do not matter. -/
lemma congr {prepared' : PreparedMvccWrite} (h : prepared.Prepares σ c)
    (hstatus : prepared'.status = prepared.status)
    (hops : prepared'.modifications = prepared.modifications)
    (hnew : prepared'.newRevision = prepared.newRevision) : prepared'.Prepares σ c := by
  cases h with
  | refused ops status => exact .refused (hops.trans ops) (hstatus.symm ▸ status)
  | done ops status done => exact .done (hops.trans ops) (hstatus.trans status) done
  | changes status mods carries ne_nil step =>
    exact .changes (hstatus.trans status) mods
      ⟨hops.trans carries.ops, carries.sized, hnew ▸ carries.revision⟩ ne_nil step

end PreparedMvccWrite.Prepares

/-! ## Walks over a chain as lookups -/

namespace Versions

variable {versions : Versions} {startTs : Ts}

lemma hasRollback_eq_false : versions.hasRollback startTs = false ↔
    ∀ (c : Ts) (w : MvccWrite), versions[c]? = some w → w.startTs = startTs → w.type ≠ .rollback := by
  rw [hasRollback, any_toList_eq_false]
  simp

/-- No record at or above the timestamp. -/
lemma reaches_eq_false : versions.reaches startTs = false ↔
    ∀ (c : Ts) (w : MvccWrite), versions[c]? = some w → c < startTs := by
  rw [reaches, any_toList_eq_false]
  simp [UInt64.not_le]

/-- No record of the transaction. -/
lemma recordOf_eq_none : versions.recordOf startTs = none ↔
    ∀ (c : Ts) (w : MvccWrite), versions[c]? = some w → w.startTs ≠ startTs := by
  rw [recordOf, find?_toList_eq_none]
  simp

lemma recordOf_eq_some {c : Ts} {w : MvccWrite} (h : versions.recordOf startTs = some (c, w)) :
    versions[c]? = some w ∧ w.startTs = startTs := by
  simpa using find?_toList_eq_some versions h

end Versions

/-! ## The prepare functions -/

namespace MvccStorage

variable (σ : MvccStorage) (key value primaryKey : Bytes) (startTs commitTs forUpdateTs : Ts)
  {existing : Option MvccLock}

/-- A prewrite goes on over its own pessimistic lock only. -/
lemma prewriteLockCheck_eq_none
    (h : prewriteLockCheck existing primaryKey startTs forUpdateTs = none) (old : MvccLock)
    (hold : existing = some old) :
    old.startTs = startTs ∧ old.primaryKey = primaryKey ∧ old.isPessimistic = true ∧
      (forUpdateTs ≠ 0 → old.forUpdateTs ≤ forUpdateTs) := by
  subst hold
  unfold prewriteLockCheck at h
  grind

/-- A repeated prewrite is ok and writes nothing. -/
lemma prewriteLockCheck_eq_ok
    (h : prewriteLockCheck existing primaryKey startTs forUpdateTs = some .ok) :
    ∃ old, existing = some old ∧ old.startTs = startTs ∧ old.primaryKey = primaryKey ∧
      old.isPessimistic = false := by
  unfold prewriteLockCheck at h
  grind

/-- `PreparePrewrite`, branch by branch. -/
lemma preparePrewrite_prepares (ttlMs : UInt64) (isDelete : Bool) (nowMs nowMs' : UInt64)
    (hsize : primaryKey.length < maxSize) :
    (σ.preparePrewrite key value primaryKey startTs ttlMs isDelete forUpdateTs nowMs
      nowMs').Prepares σ (.prewrite key value primaryKey startTs isDelete forUpdateTs) := by
  unfold preparePrewrite
  split
  · rename_i status hcheck
    by_cases hok : status = .ok
    · rw [hok] at hcheck
      obtain ⟨old, hlock, hstart, hprimary, hpess⟩ :=
        prewriteLockCheck_eq_ok primaryKey startTs forUpdateTs hcheck
      exact .done rfl hok (.prewrite old hlock hstart hprimary hpess)
    · exact .refused rfl hok
  rename_i hcheck
  split
  · exact .refused rfl (by simp)
  rename_i hrollback
  split
  · exact .refused rfl (by simp)
  rename_i hreaches
  set lock := prewriteLockRecord σ.locks[key]? value primaryKey startTs ttlMs isDelete forUpdateTs
    nowMs nowMs' with hlock
  have hfields : lock.startTs = startTs ∧ lock.primaryKey = primaryKey ∧
      lock.isDelete = isDelete ∧ lock.isPessimistic = false ∧ lock.isLockOnly = false ∧
      ∀ old, σ.locks[key]? = some old → lock.forUpdateTs = old.forUpdateTs ∧
        lock.expireAtPhysicalMs = old.expireAtPhysicalMs := by
    rw [hlock]
    unfold prewriteLockRecord
    cases σ.locks[key]? <;> simp
  obtain ⟨hstart, hprimary, hdelete, hpess, honly, hold⟩ := hfields
  refine .changes rfl [if isDelete then .delData startTs else .putData startTs value,
    .putLock lock, .putRevision (σ.currentRevision key + 1)] ⟨?_, ?_, ?_⟩ (by simp) ?_
  · cases isDelete <;> rfl
  · cases isDelete <;> simp [Sized, hprimary, hsize]
  · simp
  · have hstep : KeyStep (.prewrite key value primaryKey startTs isDelete forUpdateTs) (σ.view key)
        { lock := some lock.normalize
          versions := (σ.view key).versions
          data := Function.update (σ.view key).data startTs (if isDelete then none else some value)
          revision := (σ.view key).revision + 1 } :=
      .prewrite lock.normalize (prewriteLockCheck_eq_none primaryKey startTs forUpdateTs hcheck)
        (reaches_eq_false.1 (eq_false_of_ne_true hreaches))
        (hasRollback_eq_false.1 (eq_false_of_ne_true hrollback)) hstart hprimary hdelete
        hpess honly
        (fun old hlock hne => by simp only [MvccLock.normalize, (hold old hlock).1, if_neg hne])
        fun old hlock => (hold old hlock).2
    cases isDelete <;> exact hstep

/-- A command that writes a lock and the next revision. -/
lemma prepares_putLock {c : KeyCommand} {prepared : PreparedMvccWrite} {lock : MvccLock}
    (hstatus : prepared.status = .ok) (hnew : prepared.newRevision = σ.currentRevision c.key + 1)
    (hops : prepared.modifications =
      [⟨.put, lockKey c.key, encodeLockValue lock⟩, σ.revisionMutation c.key])
    (hsize : lock.primaryKey.length < maxSize) (hstep : KeyStep c (σ.view c.key)
      { σ.view c.key with
        lock := some lock.normalize, revision := (σ.view c.key).revision + 1 }) :
    prepared.Prepares σ c := by
  refine .changes hstatus [.putLock lock, .putRevision (σ.currentRevision c.key + 1)]
    ⟨hops, ?_, ?_⟩ (by simp) hstep
  · simp [Sized, hsize]
  · simp [hnew]

lemma le_of_max_eq_left {a b : UInt64} (h : max a b = a) : b ≤ a := by
  rw [show max a b = if a ≤ b then b else a from rfl] at h
  split at h <;> grind

/-- `PreparePessimisticLock`, branch by branch. -/
lemma preparePessimisticLock_prepares (ttlMs expireAt nowMs : UInt64)
    (hsize : primaryKey.length < maxSize) :
    (σ.preparePessimisticLock key primaryKey startTs ttlMs forUpdateTs expireAt nowMs).Prepares σ
      (.pessimisticLock key primaryKey startTs forUpdateTs expireAt) := by
  unfold preparePessimisticLock
  split
  -- over an own pessimistic lock the request renews it
  · rename_i old hlock
    split
    · exact .refused rfl (by simp)
    split
    · exact .refused rfl (by simp)
    rename_i hstart hpess
    simp only [ne_eq, not_not, not_or, Bool.not_eq_true', Bool.not_eq_false] at hstart hpess
    simp only
    split
    · exact .refused rfl (by simp)
    split
    · rename_i hsame
      exact .done rfl rfl
        (.pessimisticLock old hlock hstart hpess.2 hpess.1 (le_of_max_eq_left hsame.1))
    refine prepares_putLock σ rfl rfl rfl (by simpa [hpess.2] using hsize) ?_
    refine .pessimisticLock _ (fun o ho => ?_) (fun hnone => ?_) (fun hnone => ?_) (fun hnone => ?_)
      hstart hpess.2 hpess.1
    · obtain rfl : old = o := Option.some.inj (hlock.symm.trans ho)
      exact ⟨hstart, hpess.2, hpess.1, rfl⟩
    all_goals exact absurd (hlock.symm.trans hnone) (by simp)
  -- without a lock the versions decide
  · rename_i hlock
    split
    · exact .refused rfl (by simp)
    rename_i hrollback
    simp only
    split
    · exact .refused rfl (by simp)
    rename_i hlatest
    split
    · exact .refused rfl (by simp)
    refine prepares_putLock σ rfl rfl rfl hsize ?_
    refine .pessimisticLock _ (fun o ho => ?_) (fun _ => ⟨rfl, rfl, ?_, rfl⟩) (fun _ => ?_)
      (fun _ => ?_) rfl rfl rfl
    · exact absurd (hlock.symm.trans ho) (by simp)
    · simp only [MvccLock.normalize, requestedTs]
      split_ifs <;> simp_all
    · exact hasRollback_eq_false.1 (eq_false_of_ne_true hrollback)
    · -- the newest record that is no marker bounds all of them
      intro c w hget hne
      cases hfind : (σ.versionsOf key).toList.reverse.find? fun item => item.2.type != .rollback with
      | none =>
        have := (find?_reverse_toList_eq_none _).1 hfind c w hget
        simp [hne] at this
      | some item =>
        obtain ⟨-, -, hmax⟩ := (find?_reverse_toList_eq_some _).1 hfind
        have hle := hmax c w hget (by simpa using hne)
        simp only [hfind, Option.any_some, decide_eq_true_eq] at hlatest
        exact UInt64.le_trans hle (UInt64.not_lt.1 hlatest)

lemma preparePrewriteLock_prepares (ttlMs : UInt64) (hsize : primaryKey.length < maxSize) :
    (σ.preparePrewriteLock key primaryKey startTs ttlMs forUpdateTs).Prepares σ
      (.prewriteLock key primaryKey startTs forUpdateTs) := by
  unfold preparePrewriteLock
  split
  · exact .refused rfl (by simp)
  rename_i old hlock
  split
  · exact .refused rfl (by simp)
  rename_i hsame
  simp only [not_or, ne_eq, not_not] at hsame
  split
  · rename_i hpess
    have hpess : old.isPessimistic = false := by simpa using hpess
    cases honly : old.isLockOnly with
    | false => exact .refused rfl (by simp)
    | true => exact .done rfl rfl (.prewriteLock old hlock hsame.1 hsame.2 hpess honly)
  rename_i hpess
  split
  · exact .refused rfl (by simp)
  rename_i hfor
  simp only [ne_eq, not_and, UInt64.not_lt] at hfor
  refine prepares_putLock σ rfl rfl rfl (by simpa [hsame.2] using hsize) ?_
  exact .prewriteLock old ttlMs hlock hsame.1 hsame.2 (by simpa using hpess) hfor

lemma max_lt_iff {a b c : UInt64} : ¬c ≤ max a b ↔ a < c ∧ b < c := by
  rw [show max a b = if a ≤ b then b else a from rfl]
  split <;> grind

/-- A commit carries its record, or returns a status that is not `ok`; the status
`alreadyCommitted` means that the key is done. -/
lemma prepareCommit_prepares :
    (σ.prepareCommit key startTs commitTs).Prepares σ (.commit key startTs commitTs) ∧
      ((σ.prepareCommit key startTs commitTs).status = .alreadyCommitted →
        KeyDone (.commit key startTs commitTs) (σ.view key)) := by
  unfold prepareCommit
  dsimp only
  split
  · rename_i hlock
    split
    · rename_i c write hrecord
      obtain ⟨hget, hstart⟩ := recordOf_eq_some hrecord
      by_cases htype : write.type = .rollback
      · simp only [htype, if_true]
        exact ⟨.refused rfl (by simp), by simp⟩
      · simp only [htype, if_false]
        exact ⟨.refused rfl (by simp), fun _ => .commit hlock c write hget hstart htype⟩
    · exact ⟨.refused rfl (by simp), by simp⟩
  rename_i lock hlock
  split
  · exact ⟨.refused rfl (by simp), by simp⟩
  rename_i hstart
  split
  · exact ⟨.refused rfl (by simp), by simp⟩
  rename_i hts
  obtain ⟨hstartTs, hforUpdate⟩ := max_lt_iff.1 hts
  split
  · rename_i write hget
    by_cases hsame : write.startTs = startTs
    · simp only [hsame, if_true]
      exact ⟨.refused rfl (by simp),
        fun _ => .commitAgain lock hlock (not_not.1 hstart) hstartTs write hget hsame⟩
    · simp only [hsame, if_false]
      exact ⟨.refused rfl (by simp), by simp⟩
  rename_i habsent
  split
  · exact ⟨.refused rfl (by simp), by simp⟩
  rename_i hbetween
  refine ⟨.changes rfl [.putWrite commitTs ⟨startTs, commitTs, lock.writeType⟩, .delLock,
    .putRevision (σ.currentRevision key + 1)] ⟨rfl, ?_, ?_⟩ (by simp) ?_, by simp⟩
  · simp [Sized]
  · simp
  · refine .commit lock hlock (not_not.1 hstart) hstartTs hforUpdate habsent ?_
    intro c w hget hle hle'
    have := (any_toList_eq_false _ _).1 (eq_false_of_ne_true hbetween) c w hget
    grind

lemma prepareRollback_prepares :
    (σ.prepareRollback key startTs).Prepares σ (.rollback key startTs) := by
  unfold prepareRollback
  split
  · rename_i c write hrecord
    obtain ⟨hget, hstart⟩ := recordOf_eq_some hrecord
    by_cases htype : write.type = .rollback
    · simp only [htype, if_true]
      exact .done rfl rfl (.rollback c write hget hstart htype)
    · simp only [htype, if_false]
      exact .refused rfl (by simp)
  rename_i hnone
  have hstep : KeyStep (.rollback key startTs) (σ.view key) _ :=
    .rollback (recordOf_eq_none.1 hnone)
  by_cases hlock : (σ.locks[key]?.any fun lock => lock.startTs == startTs) = true
  · rw [if_pos hlock]
    refine .changes rfl [.delLock, .delData startTs,
      .putWrite startTs ⟨startTs, startTs, .rollback⟩, .putRevision (σ.currentRevision key + 1)]
      ⟨rfl, ?_, ?_⟩ (by simp) ?_
    · simp [Sized]
    · simp
    · have hfilter : ((σ.view key).lock.filter fun lock => lock.startTs != startTs) = none := by
        simp only [view]
        cases hl : σ.locks[key]? <;> simp_all
      rw [hfilter] at hstep
      exact hstep
  · rw [if_neg hlock]
    refine .changes rfl [.delData startTs, .putWrite startTs ⟨startTs, startTs, .rollback⟩,
      .putRevision (σ.currentRevision key + 1)] ⟨rfl, ?_, ?_⟩ (by simp) ?_
    · simp [Sized]
    · simp
    · have hfilter : ((σ.view key).lock.filter fun lock => lock.startTs != startTs) =
          (σ.view key).lock := by
        simp only [view]
        cases hl : σ.locks[key]? <;> simp_all
      rw [hfilter] at hstep
      exact hstep

/-- A resolution is a commit or a rollback of the lock's transaction, or refused. -/
lemma prepareResolveLock_prepares (decision : TxnRecordState) :
    (σ.prepareResolveLock key startTs decision commitTs = { status := .storageError } ∧
        ¬(decision = .committed ∧ commitTs ≠ 0) ∧ decision ≠ .rolledBack) ∨
      (decision = .committed ∧ commitTs ≠ 0 ∧
        (σ.prepareResolveLock key startTs decision commitTs).Prepares σ
          (.commit key startTs commitTs)) ∨ (decision = .rolledBack ∧
        (σ.prepareResolveLock key startTs decision commitTs).Prepares σ
          (.rollback key startTs)) := by
  unfold prepareResolveLock
  split
  · rename_i h
    exact .inr (.inl
      ⟨h.1, h.2, (σ.prepareCommit_prepares key startTs commitTs).1.congr rfl rfl rfl⟩)
  rename_i hcommit
  split_ifs with h
  · exact .inr (.inr ⟨h, (σ.prepareRollback_prepares key startTs).congr rfl rfl rfl⟩)
  · exact .inl ⟨rfl, hcommit, h⟩

/-- A status check only inspects, or it rolls back a lock that is there and expired. -/
lemma prepareCheckTxnStatus_prepares (currentPhysicalMs : UInt64) (rollbackIfExpired : Bool) :
    (σ.prepareCheckTxnStatus key startTs currentPhysicalMs rollbackIfExpired).modifications = [] ∨
      (rollbackIfExpired = true ∧
        (σ.prepareCheckTxnStatus key startTs currentPhysicalMs rollbackIfExpired).Prepares σ
          (.rollback key startTs)) := by
  unfold prepareCheckTxnStatus
  dsimp only
  split
  · exact .inl rfl
  split
  · exact .inl rfl
  rename_i hexpired
  split
  · exact .inl rfl
  right
  refine ⟨by simpa using (not_or.1 hexpired).1, ?_⟩
  have hprep := σ.prepareRollback_prepares key startTs
  split
  · exact hprep.congr rfl rfl rfl
  · exact hprep

/-! ## Batches -/

/-- The items of a batch prepare the parts of its command: each of the items one of them, with
status `ok`, and if the batch has status `ok`, all of them. -/
structure BatchPrepares (batch : PreparedMvccBatch) (parts : List KeyCommand) : Prop where
  part : ∀ item ∈ batch.items, item.prepared.status = .ok ∧
    ∃ c ∈ parts, c.key = item.key ∧ item.prepared.Prepares σ c
  item : batch.status = .ok → ∀ c ∈ parts, ∃ item ∈ batch.items, item.key = c.key
  unique : batch.status = .ok → (batch.items.map PreparedMvccBatchItem.key).Nodup →
    ∀ c ∈ parts, ∀ c' ∈ parts, c.key = c'.key → c = c'

/-- Every key of the list becomes an item, or a status that is not `ok` ends the batch. -/
lemma prepareItems_cases (prepare : Bytes → PreparedMvccWrite) (items : List PreparedMvccBatchItem)
    (keys : List Bytes) :
    ((prepareItems prepare items keys).status ≠ .ok ∧ (prepareItems prepare items keys).items = []) ∨
      ((∀ key ∈ keys, (prepare key).status = .ok) ∧ prepareItems prepare items keys =
          { status := .ok, items := items ++ keys.map fun key => ⟨key, prepare key⟩ }) := by
  induction keys generalizing items with
  | nil => simp [prepareItems]
  | cons key rest ih =>
    unfold prepareItems
    dsimp only
    split_ifs with hne
    · exact .inl ⟨hne, rfl⟩
    · rcases ih (items ++ [⟨key, prepare key⟩]) with h | ⟨hall, heq⟩
      · exact .inl h
      · refine .inr ⟨?_, by rw [heq]; simp⟩
        simpa using ⟨not_not.1 hne, hall⟩

/-- As `prepareItems_cases`, except that an empty or repeated key leaves the items so far. -/
lemma prewriteItems_cases (prepare : MvccMutation → PreparedMvccWrite)
    (items : List PreparedMvccBatchItem) (previous : Option Bytes) (mutations : List MvccMutation) :
    ((prewriteItems prepare items previous mutations).status ≠ .ok ∧
        ∀ item ∈ (prewriteItems prepare items previous mutations).items, item ∈ items ∨
          ∃ mutation ∈ mutations, item = ⟨mutation.key, prepare mutation⟩ ∧
            (prepare mutation).status = .ok) ∨
      ((∀ mutation ∈ mutations, (prepare mutation).status = .ok) ∧
        prewriteItems prepare items previous mutations =
          { status := .ok
            items := items ++ mutations.map fun mutation => ⟨mutation.key, prepare mutation⟩ }) := by
  induction mutations generalizing items previous with
  | nil => simp [prewriteItems]
  | cons mutation rest ih =>
    unfold prewriteItems
    dsimp only
    split
    · exact .inl ⟨by simp, fun item hitem => .inl hitem⟩
    split
    · rename_i hne
      exact .inl ⟨hne, by simp⟩
    · rename_i hok
      rcases ih (items ++ [⟨mutation.key, prepare mutation⟩]) (some mutation.key) with
        ⟨hne, hitems⟩ | ⟨hall, heq⟩
      · refine .inl ⟨hne, fun item hitem => ?_⟩
        rcases hitems item hitem with h | ⟨m, hmem, h⟩
        · rcases mem_append.1 h with h | h
          · exact .inl h
          · exact .inr ⟨mutation, mem_cons_self, mem_singleton.1 h, not_not.1 hok⟩
        · exact .inr ⟨m, mem_cons_of_mem _ hmem, h⟩
      · refine .inr ⟨?_, by rw [heq]; simp⟩
        simpa using ⟨not_not.1 hok, hall⟩

lemma mem_orderedKeys {keys : List Bytes} {key : Bytes} : key ∈ orderedKeys keys ↔ key ∈ keys := by
  rw [orderedKeys, mem_dedup, mem_insertionSort]

lemma orderedKeys_pairwise (keys : List Bytes) : (orderedKeys keys).Pairwise (· < ·) := by
  have hle : (orderedKeys keys).Pairwise (· ≤ ·) :=
    (pairwise_insertionSort (· ≤ ·) keys).sublist (dedup_sublist _)
  have hne : (orderedKeys keys).Pairwise (· ≠ ·) := nodup_dedup _
  refine (hle.and hne).imp ?_
  rintro a b ⟨hab, hne⟩
  exact Std.lt_of_le_of_ne hab hne

/-- A batch prepares each key as the single command does. -/
lemma batchPrepares_prepareItems {prepare : Bytes → PreparedMvccWrite} {c : Bytes → KeyCommand}
    (hkey : ∀ key, (c key).key = key) (hprep : ∀ key, (prepare key).Prepares σ (c key))
    (keys : List Bytes) :
    σ.BatchPrepares (prepareItems prepare [] (orderedKeys keys)) (keys.map c) := by
  rcases prepareItems_cases prepare [] (orderedKeys keys) with ⟨hne, hnil⟩ | ⟨hall, heq⟩
  · exact ⟨by simp [hnil], fun h => absurd h hne, fun h => absurd h hne⟩
  · rw [heq]
    refine ⟨fun item hitem => ?_, fun _ c' hc' => ?_, fun _ _ c₁ h₁ c₂ h₂ heq => ?_⟩
    · obtain ⟨key, hmem, rfl⟩ := mem_map.1 hitem
      exact ⟨hall key hmem, c key, mem_map.2 ⟨key, mem_orderedKeys.1 hmem, rfl⟩, hkey key,
        hprep key⟩
    · obtain ⟨key, hmem, rfl⟩ := mem_map.1 hc'
      exact ⟨⟨key, prepare key⟩, mem_map.2 ⟨key, mem_orderedKeys.2 hmem, rfl⟩, (hkey key).symm⟩
    · obtain ⟨k₁, -, rfl⟩ := mem_map.1 h₁
      obtain ⟨k₂, -, rfl⟩ := mem_map.1 h₂
      rw [hkey, hkey] at heq
      rw [heq]

lemma batchPrepares_default {batch : PreparedMvccBatch} (hstatus : batch.status ≠ .ok)
    (hitems : batch.items = []) (parts : List KeyCommand) : σ.BatchPrepares batch parts :=
  ⟨by simp [hitems], fun h => absurd h hstatus, fun h => absurd h hstatus⟩

lemma prepareBatchCommit_prepares (keys : List Bytes) :
    σ.BatchPrepares (σ.prepareBatchCommit keys startTs commitTs)
      (keys.map fun key => .commit key startTs commitTs) := by
  unfold prepareBatchCommit
  dsimp only
  split
  · exact σ.batchPrepares_default (by simp) rfl _
  refine σ.batchPrepares_prepareItems (fun _ => rfl) (fun key => ?_) keys
  obtain ⟨hprep, hdone⟩ := σ.prepareCommit_prepares key startTs commitTs
  split_ifs with halready
  · -- a commit that is already there carries no mutation
    cases hprep with
    | refused ops | done ops => exact .done ops rfl (hdone halready)
    | changes hok => exact absurd (hok.symm.trans halready) (by decide)
  · exact hprep

lemma prepareBatchRollback_prepares (keys : List Bytes) :
    σ.BatchPrepares (σ.prepareBatchRollback keys startTs)
      (keys.map fun key => .rollback key startTs) := by
  unfold prepareBatchRollback
  dsimp only
  split
  · exact σ.batchPrepares_default (by simp) rfl _
  exact σ.batchPrepares_prepareItems (fun _ => rfl)
    (fun key => σ.prepareRollback_prepares key startTs) keys

/-- The single-key command of a mutation of a batch prewrite. -/
def mutationCommand (mutation : MvccMutation) : KeyCommand :=
  if mutation.isLockOnly then .prewriteLock mutation.key primaryKey startTs forUpdateTs
  else .prewrite mutation.key mutation.value primaryKey startTs mutation.isDelete forUpdateTs

lemma mutationCommand_key (mutation : MvccMutation) :
    (mutationCommand primaryKey startTs forUpdateTs mutation).key = mutation.key := by
  unfold mutationCommand
  split <;> rfl

lemma prepareBatchPrewrite_prepares (mutations : List MvccMutation) (ttlMs : UInt64)
    (nowMs nowMs' : Bytes → UInt64) (hsize : primaryKey.length < maxSize) :
    σ.BatchPrepares
      (σ.prepareBatchPrewrite mutations primaryKey startTs ttlMs forUpdateTs nowMs nowMs')
      (mutations.map (mutationCommand primaryKey startTs forUpdateTs)) := by
  unfold prepareBatchPrewrite
  dsimp only
  split
  · exact σ.batchPrepares_default (by simp) rfl _
  set prepare : MvccMutation → PreparedMvccWrite := fun mutation =>
    if mutation.isLockOnly then
      σ.preparePrewriteLock mutation.key primaryKey startTs ttlMs forUpdateTs
    else
      σ.preparePrewrite mutation.key mutation.value primaryKey startTs ttlMs mutation.isDelete
        forUpdateTs (nowMs mutation.key) (nowMs' mutation.key)
  have hprep (mutation : MvccMutation) :
      (prepare mutation).Prepares σ (mutationCommand primaryKey startTs forUpdateTs mutation) := by
    unfold mutationCommand
    simp only [prepare]
    split
    · exact σ.preparePrewriteLock_prepares mutation.key primaryKey startTs forUpdateTs ttlMs hsize
    · exact σ.preparePrewrite_prepares mutation.key mutation.value primaryKey startTs forUpdateTs
        ttlMs mutation.isDelete _ _ hsize
  have hpart {mutation : MvccMutation}
      (hmem : mutation ∈ mutations.insertionSort fun a b => a.key ≤ b.key) :
      ∃ c ∈ mutations.map (mutationCommand primaryKey startTs forUpdateTs), c.key = mutation.key ∧
        (prepare mutation).Prepares σ c :=
    ⟨_, mem_map.2 ⟨mutation, (mem_insertionSort _).1 hmem, rfl⟩,
      mutationCommand_key primaryKey startTs forUpdateTs mutation, hprep mutation⟩
  rcases prewriteItems_cases prepare [] none (mutations.insertionSort fun a b => a.key ≤ b.key) with
    ⟨hne, hitems⟩ | ⟨hall, heq⟩
  · refine ⟨fun item hitem => ?_, fun h => absurd h hne, fun h => absurd h hne⟩
    rcases hitems item hitem with h | ⟨mutation, hmem, rfl, hok⟩
    · simp at h
    · exact ⟨hok, hpart hmem⟩
  · rw [heq]
    refine ⟨fun item hitem => ?_, fun _ c hc => ?_, fun _ hnodup c₁ h₁ c₂ h₂ hkeys => ?_⟩
    · obtain ⟨mutation, hmem, rfl⟩ := mem_map.1 hitem
      exact ⟨hall mutation hmem, hpart hmem⟩
    · obtain ⟨mutation, hmem, rfl⟩ := mem_map.1 hc
      exact ⟨⟨mutation.key, prepare mutation⟩,
        mem_map.2 ⟨mutation, (mem_insertionSort _).2 hmem, rfl⟩,
        (mutationCommand_key primaryKey startTs forUpdateTs mutation).symm⟩
    · obtain ⟨m₁, hm₁, rfl⟩ := mem_map.1 h₁
      obtain ⟨m₂, hm₂, rfl⟩ := mem_map.1 h₂
      rw [mutationCommand_key, mutationCommand_key] at hkeys
      simp only [nil_append, map_map] at hnodup
      have := inj_on_of_nodup_map hnodup ((mem_insertionSort _).2 hm₁)
        ((mem_insertionSort _).2 hm₂) hkeys
      rw [this]

end MvccStorage

end StrataKV.Mvcc
