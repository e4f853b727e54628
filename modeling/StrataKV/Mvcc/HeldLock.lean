import StrataKV.Mvcc.Serve

/-!
# What a held lock protects

While a transaction holds the lock of a key, no other transaction commits there: the commands of the
others can only leave rollback markers, and a collection can only remove records. `HeldStep` says so
once, and the rest follows from it:

- a prewrite over a pessimistic lock succeeds as long as nothing was recorded on the key since the
  transaction started;
- a commit of a prewritten lock succeeds as long as nobody else committed since then;
- the value that a locking read returned stays the newest one.
-/

namespace StrataKV.Mvcc

open MvccStorage TransitionSystem Versions

open Std (ExtTreeMap)

/-! ## Steps of a locked key -/

/-- What a command can do to a key while the transaction of `lock` holds it before and after. The
command rolls back the transactions of `marks` on the key. -/
inductive HeldStep (marks : Ts → Prop) (lock : MvccLock) (v v' : KeyView) : MvccLock → Prop
  /-- The transaction renews its pessimistic lock or upgrades it. -/
  | own (lock' : MvccLock) (isPessimistic : lock.isPessimistic = true)
      (primaryKey_eq : lock'.primaryKey = lock.primaryKey)
      (forUpdateTs_le : lock.forUpdateTs ≤ lock'.forUpdateTs)
      (expireAt_le : lock.expireAtPhysicalMs ≤ lock'.expireAtPhysicalMs)
      (versions_eq : v'.versions = v.versions)
      (data_eq : ∀ s, v'.data s = v.data s ∨
        s = lock.startTs ∧ ∀ (c : Ts) (w : MvccWrite), v.versions[c]? = some w → c < s) :
      HeldStep marks lock v v' lock'
  /-- Another transaction is rolled back. -/
  | mark (startTs : Ts) (marked : marks startTs)
      (unrecorded : ∀ (c : Ts) (w : MvccWrite), v.versions[c]? = some w → w.startTs ≠ startTs)
      (versions_eq : v'.versions = v.versions.insert startTs ⟨startTs, startTs, .rollback⟩)
      (data_eq : ∀ s, s ≠ startTs → v'.data s = v.data s) : HeldStep marks lock v v' lock

lemma le_max_left_ts (a b : UInt64) : a ≤ max a b := by
  rw [show max a b = if a ≤ b then b else a from rfl]
  split
  · assumption
  · exact UInt64.le_refl a

lemma MvccLock.forUpdateTs_le_normalize (lock : MvccLock) :
    lock.forUpdateTs ≤ lock.normalize.forUpdateTs := by
  unfold normalize
  split_ifs with hzero
  · rw [hzero]
    exact UInt64.zero_le
  · exact UInt64.le_refl _

lemma KeyStep.held {c : KeyCommand} {v v' : KeyView} {lock lock' : MvccLock}
    (hstep : KeyStep c v v') (hlock : v.lock = some lock) (hlock' : v'.lock = some lock')
    (hstart : lock'.startTs = lock.startTs) :
    HeldStep (fun startTs => c = .rollback c.key startTs) lock v v' lock' := by
  cases hstep with
  | @prewrite _ value _ startTs _ _ _ taken old below _ startTs_eq primaryKey_eq _ _ _ hfor hexpire =>
    cases hlock'
    obtain ⟨hstart, hprimary, hpess, -⟩ := old lock hlock
    refine .own _ hpess (primaryKey_eq.trans hprimary.symm) ?_ ?_ rfl fun s => ?_
    · by_cases hzero : lock.forUpdateTs = 0
      · rw [hzero]
        exact UInt64.zero_le
      · rw [hfor lock hlock hzero]
        exact UInt64.le_refl _
    · rw [hexpire lock hlock]
      exact UInt64.le_refl _
    · by_cases hs : s = startTs
      · subst hs
        exact .inr ⟨hstart.symm, below⟩
      · exact .inl (Function.update_of_ne hs _ _)
  | @pessimisticLock _ _ startTs forUpdateTs expireAt _ _ old =>
    cases hlock'
    obtain ⟨-, -, hpess, rfl⟩ := old lock hlock
    have hnormal := MvccLock.forUpdateTs_le_normalize
      { lock with
        forUpdateTs := max lock.forUpdateTs (requestedTs startTs forUpdateTs)
        expireAtPhysicalMs := max lock.expireAtPhysicalMs expireAt }
    exact .own _ hpess rfl (UInt64.le_trans (le_max_left_ts _ _) hnormal) (le_max_left_ts _ _) rfl
      fun s => .inl rfl
  | prewriteLock old ttlMs lock_eq _ _ hpess =>
    cases hlock'
    obtain rfl : old = lock := Option.some.inj (lock_eq.symm.trans hlock)
    exact .own _ hpess rfl (MvccLock.forUpdateTs_le_normalize _) (UInt64.le_refl _) rfl
      fun s => .inl rfl
  | commit => cases hlock'
  | @rollback _ startTs _ unrecorded =>
    obtain ⟨hlock', -⟩ := Option.filter_eq_some_iff.1 hlock'
    obtain rfl : lock = lock' := Option.some.inj (hlock.symm.trans hlock')
    exact .mark startTs rfl unrecorded rfl fun s hs => Function.update_of_ne hs _ _

namespace MvccStorage

variable {σ : MvccStorage} {step : Step} {key : Bytes} {lock lock' : MvccLock}

/-- A step that leaves the key locked by the same transaction. -/
lemma exec_held (hlock : σ.locks[key]? = some lock)
    (hlock' : (σ.exec step).2.locks[key]? = some lock') (hstart : lock'.startTs = lock.startTs) :
    (lock' = lock ∧ (σ.exec step).2.view key = σ.view key) ∨
      HeldStep (fun startTs => .rollback key startTs ∈ step.command.parts) lock (σ.view key)
        ((σ.exec step).2.view key) lock' ∨
      lock' = lock ∧ ∃ safePointTs, step.command = .garbageCollect safePointTs ∧
        CollectStep safePointTs (σ.view key) ((σ.exec step).2.view key) := by
  have hsame (heq : (σ.exec step).2.locks[key]? = σ.locks[key]?) : lock' = lock :=
    Option.some.inj (hlock'.symm.trans (heq.trans hlock))
  rcases σ.exec_view step key with hid | ⟨c, hpart, rfl, hkey⟩ | ⟨safePointTs, hcommand, hcollect⟩
  · exact .inl ⟨hsame (congrArg KeyView.lock hid), hid⟩
  · refine .inr (.inl ?_)
    cases hkey.held hlock hlock' hstart with
    | own _ hpess hprimary hfor hexpire hversions hdata =>
      exact .own _ hpess hprimary hfor hexpire hversions hdata
    | mark startTs marked unrecorded hversions hdata =>
      exact .mark startTs (marked ▸ hpart) unrecorded hversions hdata
  · exact .inr (.inr ⟨hsame hcollect.lock_eq, safePointTs, hcommand, hcollect⟩)

end MvccStorage

/-- The step leaves the key locked by the transaction. -/
def KeepsLock (key : Bytes) (startTs : Ts) (σ : MvccStorage) (step : Step) : Prop :=
  ∃ lock ∈ (σ.exec step).2.locks[key]?, lock.startTs = startTs

instance (key : Bytes) (startTs : Ts) (σ : MvccStorage) (step : Step) :
    Decidable (KeepsLock key startTs σ step) :=
  decidable_of_iff (((σ.exec step).2.locks[key]?).any fun lock => lock.startTs = startTs) <| by
    simp [KeepsLock, Option.any_eq_true]

/-! ## Granted locks -/

/-- The arguments of a pessimistic lock request, with the clock reading of its prepare half. -/
structure LockRequest where
  key : Bytes
  primaryKey : Str
  startTs : Ts
  ttlMs : UInt64
  forUpdateTs : Ts
  expireAtPhysicalMs : UInt64
  nowMs : UInt64

namespace LockRequest

variable {request : LockRequest} {σ τ ρ : MvccStorage}

def command (request : LockRequest) : Command :=
  .pessimisticLock request.key request.primaryKey request.startTs request.ttlMs
    request.forUpdateTs request.expireAtPhysicalMs request.nowMs

def prepared (request : LockRequest) (σ : MvccStorage) : PreparedMvccWrite :=
  σ.preparePessimisticLock request.key request.primaryKey request.startTs request.ttlMs
    request.forUpdateTs request.expireAtPhysicalMs request.nowMs

/-- The request is answered with `ok` on `σ`, and what it prepared is applied there and gives `τ`. -/
def Granted (request : LockRequest) (σ τ : MvccStorage) : Prop :=
  ∃ (raftIndex : UInt64) (env : ApplyEnv), ¬σ.Stale raftIndex ∧
    (σ.serve ⟨request.command, raftIndex, env⟩).1.status = .ok ∧
    (σ.serve ⟨request.command, raftIndex, env⟩).2 = τ

section

variable (h : request.Granted σ τ)

include h

lemma Granted.reachable
    (hσ : storageSystem.Reachable anyStep σ) : storageSystem.Reachable anyStep τ := by
  obtain ⟨raftIndex, env, -, -, rfl⟩ := h
  rcases σ.serve_state ⟨request.command, raftIndex, env⟩ with heq | heq
  · rwa [heq]
  · rw [heq]
    exact hσ.tail trivial rfl

lemma Granted.status : (request.prepared σ).status = .ok := by
  obtain ⟨raftIndex, env, -, hok, -⟩ := h
  have hok : (σ.serveWrite request.key (request.prepared σ) raftIndex env).1.status = .ok := hok
  unfold serveWrite at hok
  split_ifs at hok with hchanges
  · simp only [PreparedMvccWrite.hasChanges, Bool.and_eq_true, beq_iff_eq] at hchanges
    exact hchanges.1
  · exact hok

/-- The lock is there, and nothing else changed. -/
lemma Granted.lock : ∃ lock, τ.locks[request.key]? = some lock ∧ lock.startTs = request.startTs ∧
      lock.primaryKey = request.primaryKey.1 ∧ lock.isPessimistic = true ∧
      (τ.view request.key).versions = (σ.view request.key).versions ∧
      (τ.view request.key).data = (σ.view request.key).data := by
  obtain ⟨raftIndex, env, hfresh, hok, rfl⟩ := h
  have hprepares := σ.preparePessimisticLock_prepares request.key request.primaryKey
    request.startTs request.forUpdateTs request.ttlMs request.expireAtPhysicalMs request.nowMs
    request.primaryKey.2
  rcases serveWrite_ok hprepares hfresh hok with hstep | ⟨hdone, heq⟩
  · generalize hτ : (σ.serveWrite _ _ raftIndex env).2.view _ = v at hstep
    have hview : (σ.serve ⟨request.command, raftIndex, env⟩).2.view request.key = v := hτ
    cases hstep with
    | pessimisticLock lock _ _ _ _ startTs_eq primaryKey_eq isPessimistic_eq =>
      exact ⟨lock, congrArg KeyView.lock hview, startTs_eq, primaryKey_eq, isPessimistic_eq,
        by rw [hview]; rfl, by rw [hview]; rfl⟩
  · have hview : (σ.serve ⟨request.command, raftIndex, env⟩).2.view request.key =
        σ.view request.key := heq
    cases hdone with
    | pessimisticLock lock lock_eq startTs_eq primaryKey_eq isPessimistic_eq =>
      exact ⟨lock, (congrArg KeyView.lock hview).trans lock_eq, startTs_eq, primaryKey_eq,
        isPessimistic_eq, congrArg KeyView.versions hview, congrArg KeyView.data hview⟩

/-- While the lock is held it stays a lock of the same transaction and primary. -/
lemma Granted.held (hrun : storageSystem.Reaches (KeepsLock request.key request.startTs) τ ρ) :
    ∃ lock, ρ.locks[request.key]? = some lock ∧ lock.startTs = request.startTs ∧
      lock.primaryKey = request.primaryKey.1 := by
  refine hrun.stable (I := fun ρ => ∃ lock, ρ.locks[request.key]? = some lock ∧
    lock.startTs = request.startTs ∧ lock.primaryKey = request.primaryKey.1) ?_ ?_
  · rintro ρ step _ ⟨lock, hlock, hstart, hprimary⟩ ⟨lock', hlock', hstart'⟩ rfl
    refine ⟨lock', hlock', hstart', ?_⟩
    rcases exec_held hlock hlock' (hstart'.trans hstart.symm) with
      ⟨rfl, -⟩ | hstep | ⟨rfl, -⟩
    · exact hprimary
    · cases hstep with
      | own _ _ primaryKey_eq => exact primaryKey_eq.trans hprimary
      | mark => exact hprimary
    · exact hprimary
  · obtain ⟨lock, hlock, hstart, hprimary, -⟩ := h.lock
    exact ⟨lock, hlock, hstart, hprimary⟩

end

end LockRequest

/-! ## A prewrite over a pessimistic lock -/

namespace MvccStorage

variable {σ : MvccStorage} {key : Bytes} {lock : MvccLock}

/-- A prewrite over the transaction's own lock. -/
lemma preparePrewrite_status_iff (hordered : (σ.view key).Ordered)
    (hlock : σ.locks[key]? = some lock) {forUpdateTs : Ts} (hfor : lock.forUpdateTs ≤ forUpdateTs)
    (value : Bytes) (ttlMs : UInt64) (isDelete : Bool) (nowMs nowMs' : UInt64) :
    (σ.preparePrewrite key value lock.primaryKey lock.startTs ttlMs isDelete forUpdateTs nowMs
        nowMs').status = .ok ↔ lock.isPessimistic = false ∨
        (forUpdateTs ≠ 0 ∨ lock.legacyExpiry = true) ∧
          ∀ (c : Ts) (w : MvccWrite), (σ.versionsOf key)[c]? = some w → c < lock.startTs := by
  have hcheck : prewriteLockCheck σ.locks[key]? lock.primaryKey lock.startTs forUpdateTs =
      if lock.isPessimistic = false then some .ok
      else if forUpdateTs ≠ 0 ∨ lock.legacyExpiry = true then none
      else some .writeConflict := by
    rw [hlock]
    unfold prewriteLockCheck
    have hnot : ¬forUpdateTs < lock.forUpdateTs := UInt64.not_lt.2 hfor
    grind
  have hrecords : ((σ.versionsOf key).hasRollback lock.startTs = false ∧
      (σ.versionsOf key).reaches lock.startTs = false) ↔
      ∀ (c : Ts) (w : MvccWrite), (σ.versionsOf key)[c]? = some w → c < lock.startTs := by
    rw [hasRollback_eq_false, reaches_eq_false]
    refine ⟨fun hnone => hnone.2, fun hbelow => ⟨fun c w hget hstart _ => ?_, hbelow⟩⟩
    -- a marker is no older than its transaction
    have hle : w.startTs ≤ c := hordered c w hget
    exact absurd (hstart ▸ hle) (UInt64.not_le.2 (hbelow c w hget))
  unfold preparePrewrite
  rw [hcheck, ← hrecords]
  by_cases hpess : lock.isPessimistic = false
  · simp [hpess]
  · by_cases hrequest : forUpdateTs ≠ 0 ∨ lock.legacyExpiry = true
    · simp only [hpess, hrequest, if_true, true_and]
      split_ifs <;> simp_all
    · simp [hpess, hrequest]

end MvccStorage

namespace LockRequest

/-- In every run, while a granted lock is held a prewrite of its transaction succeeds if and only if
it is a retry, or it names its `forUpdateTs` and the key has no record since the transaction
started. -/
theorem prewrite_ok_iff {σ τ ρ : MvccStorage} {request : LockRequest}
    (hσ : storageSystem.Reachable TransitionSystem.anyStep σ) (hgrant : request.Granted σ τ)
    (hrun : storageSystem.Reaches (KeepsLock request.key request.startTs) τ ρ) {lock : MvccLock}
    (hlock : ρ.locks[request.key]? = some lock) {forUpdateTs : Ts}
    (hfor : lock.forUpdateTs ≤ forUpdateTs) (value : Bytes) (ttlMs : UInt64) (isDelete : Bool)
    (nowMs nowMs' : UInt64) :
    (ρ.preparePrewrite request.key value request.primaryKey request.startTs ttlMs isDelete
        forUpdateTs nowMs nowMs').status = .ok ↔ lock.isPessimistic = false ∨
        (forUpdateTs ≠ 0 ∨ lock.legacyExpiry = true) ∧
          ∀ (c : Ts) (w : MvccWrite), (ρ.versionsOf request.key)[c]? = some w →
            c < request.startTs := by
  have hρ : storageSystem.Reachable anyStep ρ :=
    (hgrant.reachable hσ).reaches (hrun.mono fun _ _ _ => trivial)
  obtain ⟨lock', hlock', hstart, hprimary⟩ := hgrant.held hrun
  obtain rfl : lock = lock' := Option.some.inj (hlock.symm.trans hlock')
  rw [← hstart, ← hprimary]
  exact preparePrewrite_status_iff (ordered_of_reachable hρ request.key)
    hlock hfor value ttlMs isDelete nowMs nowMs'

/-- A transaction that starts at 5 locks a key for update at 10. -/
def lockAt10 : LockRequest := ⟨[1], ⟨[1], one_lt_maxSize⟩, 5, 100, 10, 0, 0⟩

/-- The state in which the request is granted. -/
def granted (request : LockRequest) (σ : MvccStorage) : MvccStorage :=
  (σ.serve ⟨request.command, 0, ⟨0, true⟩⟩).2

/-- Another transaction commits the key before. -/
def committedBefore : List Step :=
  [{ command := .prewrite [1] [7] ⟨[1], one_lt_maxSize⟩ 2 100 false 0 0 0 },
    { command := .commit [1] 2 3 }]

theorem prewrite_ok_committedBefore : lockAt10.Granted (MvccStorage.empty.run committedBefore)
        (lockAt10.granted (MvccStorage.empty.run committedBefore)) ∧
      ((lockAt10.granted (MvccStorage.empty.run committedBefore)).preparePrewrite [1] [8] [1] 5 100
        false 10 0 0).status = .ok := by
  have hreach : storageSystem.Reachable anyStep
      (empty.run committedBefore) := Guarded.reachable (by decide)
  have hgrant : lockAt10.Granted (empty.run committedBefore)
      (lockAt10.granted (empty.run committedBefore)) :=
    ⟨0, ⟨0, true⟩, by decide, by decide, rfl⟩
  obtain ⟨lock, hlock, -⟩ := hgrant.lock
  have hfor : lock.forUpdateTs ≤ 10 := by
    have hall : ∀ l ∈ (lockAt10.granted (empty.run committedBefore)).locks[lockAt10.key]?,
        l.forUpdateTs ≤ 10 := by decide
    exact hall lock hlock
  refine ⟨hgrant, (prewrite_ok_iff hreach hgrant .refl hlock hfor [8] 100 false 0 0).2 (.inr ⟨?_, ?_⟩)⟩
  · exact .inl (by decide)
  · exact reaches_eq_false.1 (by decide)

/-- Another transaction commits the key after the start of the first and before its lock. -/
def committedBetween : List Step :=
  [{ command := .prewrite [1] [7] ⟨[1], one_lt_maxSize⟩ 6 100 false 0 0 0 },
    { command := .commit [1] 6 8 }]

theorem prewrite_conflict_committedBetween : ¬∀ (σ τ ρ : MvccStorage) (request : LockRequest),
      storageSystem.Reachable TransitionSystem.anyStep σ → request.Granted σ τ →
      storageSystem.Reaches (KeepsLock request.key request.startTs) τ ρ →
      ∀ lock, ρ.locks[request.key]? = some lock → ∀ forUpdateTs, lock.forUpdateTs ≤ forUpdateTs →
      ∀ (value : Bytes) (ttlMs : UInt64) (isDelete : Bool) (nowMs nowMs' : UInt64),
        (ρ.preparePrewrite request.key value request.primaryKey request.startTs ttlMs isDelete
          forUpdateTs nowMs nowMs').status = .ok := by
  intro h
  have hreach : storageSystem.Reachable anyStep
      (empty.run committedBetween) := Guarded.reachable (by decide)
  have hgrant : lockAt10.Granted (empty.run committedBetween)
      (lockAt10.granted (empty.run committedBetween)) :=
    ⟨0, ⟨0, true⟩, by decide, by decide, rfl⟩
  obtain ⟨lock, hlock, -⟩ := hgrant.lock
  have hfor : lock.forUpdateTs ≤ 10 := by
    have hall : ∀ l ∈ (lockAt10.granted
        (empty.run committedBetween)).locks[lockAt10.key]?, l.forUpdateTs ≤ 10 := by
      decide
    exact hall lock hlock
  have hok := h _ _ _ lockAt10 hreach hgrant .refl lock hlock 10 hfor [8] 100 false 0 0
  exact absurd hok (by decide)

end LockRequest

/-! ## The commit of a prewritten lock -/

/-- Since the transaction started, nobody else committed on the key. -/
def KeyView.Clear (v : KeyView) (startTs : Ts) : Prop :=
  ∀ (c : Ts) (w : MvccWrite), v.versions[c]? = some w → startTs ≤ c →
    w.startTs = startTs ∨ w.type = .rollback

instance (v : KeyView) (startTs : Ts) : Decidable (v.Clear startTs) :=
  decidable_of_iff (∀ item ∈ v.versions.toList, startTs ≤ item.1 →
    item.2.startTs = startTs ∨ item.2.type = .rollback)
    ⟨fun h c w hget => h (c, w) (ExtTreeMap.mem_toList_iff_getElem?_eq_some.2 hget),
      fun h item hmem => h item.1 item.2 (ExtTreeMap.mem_toList_iff_getElem?_eq_some.1 hmem)⟩

namespace KeyView.Clear

variable {v v' : KeyView} {startTs : Ts}

lemma mark (h : v.Clear startTs) {ts : Ts}
    (hversions : v'.versions = v.versions.insert ts ⟨ts, ts, .rollback⟩) : v'.Clear startTs := by
  intro c w hget hle
  rcases OrdMap.insert_cases (hversions ▸ hget) with ⟨-, rfl⟩ | hget
  · exact .inr rfl
  · exact h c w hget hle

lemma collect (h : v.Clear startTs) {safePointTs : Ts} (hstep : CollectStep safePointTs v v') :
    v'.Clear startTs :=
  fun c w hget => h c w (hstep.of_get hget).1

end KeyView.Clear

namespace MvccStorage

variable {σ τ : MvccStorage} {key : Bytes} {lock : MvccLock} {commitTs : Ts}

/-- The commit timestamp is larger than every timestamp of the lock and of the key's chain. -/
structure CommitsAfter (σ : MvccStorage) (key : Bytes) (lock : MvccLock) (commitTs : Ts) : Prop where
  startTs_lt : lock.startTs < commitTs
  forUpdateTs_lt : lock.forUpdateTs < commitTs
  chain_lt : ∀ (c : Ts) (w : MvccWrite), (σ.versionsOf key)[c]? = some w → c < commitTs

/-- A commit that is later than everything on the key. -/
lemma prepareCommit_ok_iff (hlock : σ.locks[key]? = some lock)
    (hafter : σ.CommitsAfter key lock commitTs) :
    (σ.prepareCommit key lock.startTs commitTs).status = .ok ∧
        (σ.prepareCommit key lock.startTs commitTs).hasChanges = true ↔
      (σ.view key).Clear lock.startTs := by
  have hbound : ¬commitTs ≤ max lock.startTs lock.forUpdateTs :=
    max_lt_iff.2 ⟨hafter.startTs_lt, hafter.forUpdateTs_lt⟩
  have habsent : (σ.versionsOf key)[commitTs]? = none := by
    cases hget : (σ.versionsOf key)[commitTs]? with
    | none => rfl
    | some w => exact absurd (hafter.chain_lt commitTs w hget) (UInt64.lt_irrefl commitTs)
  have hclear : ((σ.versionsOf key).toList.any fun item =>
      lock.startTs ≤ item.1 && item.1 ≤ commitTs && item.2.startTs != lock.startTs &&
        item.2.type != .rollback) = false ↔ (σ.view key).Clear lock.startTs := by
    rw [OrdMap.any_toList_eq_false]
    refine forall₃_congr fun c w hget => ?_
    have hle : c ≤ commitTs := UInt64.le_of_lt (hafter.chain_lt c w hget)
    simp only [hle, decide_true, Bool.and_true, Bool.and_eq_false_iff, decide_eq_false_iff_not,
      bne_eq_false_iff_eq, or_assoc]
    exact ⟨fun h hc => h.resolve_left (not_not.2 hc), fun h => (em _).symm.imp_right h⟩
  unfold prepareCommit
  simp only [hlock, ne_eq, not_true_eq_false, if_false, hbound, habsent]
  rw [← hclear]
  split_ifs with hany
  · rw [hany]
    simp
  · rw [eq_false_of_ne_true hany]
    simp [PreparedMvccWrite.hasChanges]

/-- A prewritten lock can be committed if and only if nobody else committed on the key since its
transaction started, and then it can until the lock is removed. -/
theorem commit_ok_iff (hlock : σ.locks[key]? = some lock) (hprewritten : lock.isPessimistic = false) :
    (∀ commitTs, σ.CommitsAfter key lock commitTs →
      ((σ.prepareCommit key lock.startTs commitTs).status = .ok ∧
          (σ.prepareCommit key lock.startTs commitTs).hasChanges = true ↔
        (σ.view key).Clear lock.startTs)) ∧ ((σ.view key).Clear lock.startTs →
      ∀ τ, storageSystem.Reaches (KeepsLock key lock.startTs) σ τ →
        ∀ commitTs, τ.CommitsAfter key lock commitTs →
          (τ.prepareCommit key lock.startTs commitTs).status = .ok ∧
            (τ.prepareCommit key lock.startTs commitTs).hasChanges = true) := by
  refine ⟨fun commitTs hafter => prepareCommit_ok_iff hlock hafter, ?_⟩
  intro hclear τ hrun commitTs hafter
  -- a prewritten lock is not changed any more, so the chain only gets markers or loses records
  have hinv : τ.locks[key]? = some lock ∧ (τ.view key).Clear lock.startTs := by
    refine hrun.stable (I := fun τ => τ.locks[key]? = some lock ∧
      (τ.view key).Clear lock.startTs) ?_ ⟨hlock, hclear⟩
    rintro τ step _ ⟨hheld, hclear⟩ ⟨lock', hlock', hstart⟩ rfl
    rcases exec_held hheld hlock' hstart with ⟨rfl, hid⟩ | hstep | ⟨rfl, _, -, hcollect⟩
    · exact ⟨hlock', hid ▸ hclear⟩
    · cases hstep with
      | own _ isPessimistic => simp [hprewritten] at isPessimistic
      | mark startTs _ _ versions_eq => exact ⟨hlock', hclear.mark versions_eq⟩
    · exact ⟨hlock', hclear.collect hcollect⟩
  exact (prepareCommit_ok_iff hinv.1 hafter).2 hinv.2

/-- A key that is prewritten after another transaction committed it. -/
def prewrittenRun : List Step :=
  LockRequest.committedBefore ++
    [{ command := .prewrite [1] [8] ⟨[1], one_lt_maxSize⟩ 5 100 false 0 0 0 }]

theorem commit_ok_prewrittenRun :
    storageSystem.Reaches (KeepsLock [1] 5) (empty.run prewrittenRun)
        ((empty.run prewrittenRun).run [{ command := .rollback [1] 9 }]) ∧
      (((empty.run prewrittenRun).run [{ command := .rollback [1] 9 }]).prepareCommit [1] 5
        20).status = .ok := by
  have hrun : storageSystem.Reaches (KeepsLock [1] 5) (empty.run prewrittenRun)
      ((empty.run prewrittenRun).run [{ command := .rollback [1] 9 }]) :=
    Guarded.reaches (by decide)
  obtain ⟨lock, hlock⟩ : ∃ lock, (empty.run prewrittenRun).locks[([1] : Bytes)]? = some lock :=
    Option.isSome_iff_exists.1 (by decide)
  have hfields : ∀ l ∈ (empty.run prewrittenRun).locks[([1] : Bytes)]?,
      l.isPessimistic = false ∧ l.startTs = 5 ∧ l.forUpdateTs = 5 := by decide
  obtain ⟨hprewritten, hstart, hfor⟩ := hfields lock hlock
  have hcommit := (commit_ok_iff hlock hprewritten).2
  rw [hstart] at hcommit
  refine ⟨hrun, (hcommit (by decide) _ hrun 20 ⟨?_, ?_, ?_⟩).1⟩
  · rw [hstart]
    decide
  · rw [hfor]
    decide
  · exact reaches_eq_false.1 (by decide)

/-- A pessimistic lock over a commit of another transaction, upgraded without a mutation. -/
def lockOnlyRun : List Step :=
  LockRequest.committedBetween ++
    [{ command := .pessimisticLock [1] ⟨[1], one_lt_maxSize⟩ 5 100 10 0 0 },
      { command := .prewriteLock [1] ⟨[1], one_lt_maxSize⟩ 5 100 10 }]

theorem commit_conflict_lockOnlyRun :
    ¬∀ (σ τ : MvccStorage) (key : Bytes) (lock : MvccLock) (commitTs : Ts),
      storageSystem.Reachable TransitionSystem.anyStep σ → σ.locks[key]? = some lock →
      lock.isPessimistic = false → storageSystem.Reaches (KeepsLock key lock.startTs) σ τ →
      τ.CommitsAfter key lock commitTs → (τ.prepareCommit key lock.startTs commitTs).status = .ok ∧
        (τ.prepareCommit key lock.startTs commitTs).hasChanges = true := by
  intro h
  have hreach : storageSystem.Reachable anyStep (empty.run lockOnlyRun) :=
    Guarded.reachable (by decide)
  obtain ⟨lock, hlock⟩ : ∃ lock, (empty.run lockOnlyRun).locks[([1] : Bytes)]? = some lock :=
    Option.isSome_iff_exists.1 (by decide)
  have hfields : ∀ l ∈ (empty.run lockOnlyRun).locks[([1] : Bytes)]?,
      l.isPessimistic = false ∧ l.startTs = 5 ∧ l.forUpdateTs = 10 := by decide
  obtain ⟨hprewritten, hstart, hfor⟩ := hfields lock hlock
  have hcommit := h _ _ [1] lock 20 hreach hlock hprewritten .refl
  rw [hstart] at hcommit
  refine absurd (hcommit ⟨?_, ?_, ?_⟩).1 (by decide)
  · rw [hstart]
    decide
  · rw [hfor]
    decide
  · exact reaches_eq_false.1 (by decide)

end MvccStorage

end StrataKV.Mvcc
