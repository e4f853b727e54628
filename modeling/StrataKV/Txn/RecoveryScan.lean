import StrataKV.Txn.Verdict

/-!
# The recovery scan and locks without a comparable expiry

`TxnRecoveryManager::ScanOnce` asks each Region that it leads for its expired locks and resolves them
one after another: a lock on its own primary key is rolled back, any other one by what the primary key
says. A lock of the old format, or one that was taken without an expiry, has only the creation time of
another process's clock. `CheckTxnStatus` never compares that with the time of the oracle, but the
filter of `ExpiredLocks` does, and what passes the filter is resolved like any other lock.

The scan runs beside everything else: between two of its steps any command may be applied, and a
resolution that was not answered in time may still be executed later.
-/

namespace StrataKV

open Mvcc TransitionSystem List MvccStorage

/-- The lock has no expiry that can be compared with the time of the oracle. -/
def Mvcc.MvccLock.legacy (lock : MvccLock) : Bool :=
  lock.legacyExpiry || lock.expireAtPhysicalMs == 0

/-- `ExpiredLocks`. -/
def Mvcc.MvccStorage.expiredLocks (σ : MvccStorage) (nowMs : UInt64) : List (Bytes × MvccLock) :=
  σ.locks.toList.filter fun item =>
    if !item.2.legacyExpiry && item.2.expireAtPhysicalMs != 0 then
      item.2.expireAtPhysicalMs ≤ nowMs
    else
      item.2.createTimeMs != 0 && item.2.ttlMs != 0 && item.2.createTimeMs + item.2.ttlMs ≤ nowMs

namespace Txn
namespace TxnRecoveryManager

/-! ## The scan -/

/-- The primary key has a rollback record of the transaction, or its lock has expired by an expiry
that is comparable. -/
def excused (primary : MvccStorage) (primaryKey : Bytes) (startTs : Ts) (nowMs : UInt64) : Bool :=
  (primary.versionsOf primaryKey).hasRollback startTs ||
    primary.locks[primaryKey]?.any fun lock =>
      lock.startTs == startTs && !lock.legacy && lock.expireAtPhysicalMs ≤ nowMs

/-- A scheduled `ResolveLock` command, with the lock that the scan has read and whether the primary
excused a rollback when it was decided. -/
structure Resolution where
  region : ℕ
  key : Bytes
  lock : MvccLock
  decision : TxnRecordState
  commitTs : Ts
  excused : Bool
  deriving DecidableEq

/-- A lock that the scan has rolled back. -/
structure RolledBackLock where
  lock : MvccLock
  excused : Bool
  deriving DecidableEq

/-- The deployment, the place of the scan and what it has scheduled and rolled back. -/
structure ScanState where
  deployment : Deployment := .initial
  currentPhysicalMs : UInt64 := 0
  /-- the Regions that are still to be read -/
  regions : List ℕ := []
  /-- the Region that was read last, and its expired locks that are still to be resolved -/
  region : ℕ := 0
  expired : List (Bytes × MvccLock) := []
  scheduled : List Resolution := []
  rolledBack : List RolledBackLock := []

inductive ScanEvent
  /-- anything else that happens in the deployment -/
  | other (event : DeploymentEvent)
  /-- a scan begins: `Next` returns `currentTso`, and the scheduler has these Regions -/
  | start (currentTso : Ts) (regions : List ℕ)
  /-- the next Region tells its expired locks in the range that it owns, which is none if the peer
  is not the leader -/
  | readExpired (owned : Bytes → Bool)
  /-- the next lock is left: no route, or an exception -/
  | skip
  /-- the next lock is decided on; the query of its primary may remain without a reply -/
  | decide (replied : Bool) (env : ApplyEnv)
  /-- a scheduled command is executed -/
  | execute (position : ℕ) (raftIndex : UInt64) (env : ApplyEnv)
  /-- a scheduled command is lost -/
  | drop (position : ℕ)

/-- The lock of the transaction that is gone from the key. -/
def goneLock (before after : MvccStorage) (key : Bytes) (startTs : Ts) : Option MvccLock :=
  before.locks[key]?.filter fun lock => lock.startTs == startTs && after.locks[key]?.isNone

namespace ScanState

variable (route : Bytes → ℕ) (s : ScanState)

/-- The Region of the primary key of a lock. -/
def primary (lock : MvccLock) : MvccStorage := s.deployment.regions (route lock.primaryKey)

/-- Whether the primary key excuses a rollback now. -/
def excusedNow (lock : MvccLock) : Bool :=
  excused (s.primary route lock) lock.primaryKey lock.startTs s.currentPhysicalMs

/-- Record the lock of the transaction if it is gone. -/
def recordGone (before after : MvccStorage) (key : Bytes) (startTs : Ts)
    (isExcused : Bool) : ScanState :=
  { s with
    rolledBack := s.rolledBack ++
      ((goneLock before after key startTs).map fun lock => ⟨lock, isExcused⟩).toList }

/-- Schedule the command that resolves the lock, if the decision is not to leave it. -/
def schedule (key : Bytes) (lock : MvccLock)
    (decision : Option (TxnRecordState × Ts)) (isExcused : Bool) : ScanState :=
  { s with
    scheduled := s.scheduled ++ (decision.map fun (state, commitTs) =>
      ⟨s.region, key, lock, state, commitTs, isExcused⟩).toList }

/-- The decision on one lock. -/
def decideLock (key : Bytes) (lock : MvccLock) (replied : Bool) (env : ApplyEnv) : ScanState :=
  let isExcused := s.excusedNow route lock
  if key = lock.primaryKey then s.schedule key lock (some (.rolledBack, 0)) isExcused
  else
    let answer := (s.primary route lock).checkTxnStatus lock.primaryKey lock.startTs
      s.currentPhysicalMs true env
    let asked : ScanState :=
      { s with
        deployment :=
          { s.deployment with
            regions := Function.update s.deployment.regions (route lock.primaryKey) answer.2 } }
    let recorded := asked.recordGone (s.primary route lock) answer.2 lock.primaryKey lock.startTs
      isExcused
    if replied then
      recorded.schedule key lock (LockResolver.resolution (LockResolver.checkPrimary answer.1))
        isExcused
    else recorded

/-- The execution of a scheduled command. -/
def executeResolution (command : Resolution) (raftIndex : UInt64) (env : ApplyEnv) : ScanState :=
  let executed : ScanState :=
    { s with
      deployment := s.deployment.exec command.region
        ⟨.resolveLock command.key command.lock.startTs command.decision command.commitTs,
          raftIndex, env⟩ }
  if command.decision = .rolledBack then
    executed.recordGone (s.deployment.regions command.region)
      (executed.deployment.regions command.region) command.key command.lock.startTs command.excused
  else executed

def next : ScanEvent → ScanState
  | .other event => { s with deployment := s.deployment.next event }
  | .start currentTso regions =>
    { s with
      deployment := { s.deployment with clock := currentTso }
      currentPhysicalMs := currentTso >>> 18
      regions := regions }
  | .readExpired owned =>
    match s.regions with
    | [] => s
    | region :: rest =>
      { s with
        region := region
        regions := rest
        expired := ((s.deployment.regions region).expiredLocks s.currentPhysicalMs).filter
          fun item => owned item.1 }
  | .skip => { s with expired := s.expired.tail }
  | .decide replied env =>
    match s.expired with
    | [] => s
    | (key, lock) :: rest => decideLock route { s with expired := rest } key lock replied env
  | .execute position raftIndex env =>
    match s.scheduled[position]? with
    | none => s
    | some command =>
      executeResolution { s with scheduled := s.scheduled.eraseIdx position } command raftIndex env
  | .drop position => { s with scheduled := s.scheduled.eraseIdx position }

def Enabled : ScanEvent → Prop
  | .other event => s.deployment.Enabled event
  | .start currentTso _ => s.deployment.clock < currentTso ∧ s.regions = [] ∧ s.expired = []
  | .readExpired _ => s.expired = []
  | _ => True

instance decidableEnabled : DecidablePred s.Enabled := fun event => by
  cases event <;> dsimp only [Enabled] <;> infer_instance

end ScanState

/-- A recovery manager beside the rest of the deployment. -/
def scanSystem (route : Bytes → ℕ) : TransitionSystem ScanState ScanEvent :=
  .ofEnabled {} ScanState.Enabled (ScanState.next route)

/-! ## What a query does -/

section

variable {σ : MvccStorage} {primaryKey : Bytes} {startTs : Ts} {nowMs : UInt64} {env : ApplyEnv}

/-- The query tells what the key holds, unless the lock of the transaction has expired there. -/
lemma checkTxnStatus_cases (σ : MvccStorage) (primaryKey : Bytes) (startTs : Ts) (nowMs : UInt64)
    (env : ApplyEnv) :
    σ.checkTxnStatus primaryKey startTs nowMs true env =
        ((.ok, some (σ.inspectTxnStatus primaryKey startTs)), σ) ∨
      ∃ lock, σ.locks[primaryKey]? = some lock ∧ lock.startTs = startTs ∧ lock.legacy = false ∧
        lock.expireAtPhysicalMs ≤ nowMs := by
  cases hlock : (σ.inspectTxnStatus primaryKey startTs).lock with
  | none =>
    left
    simp [checkTxnStatus, prepareCheckTxnStatus, hlock, PreparedMvccWrite.hasChanges]
  | some lock =>
    obtain ⟨hheld, hstart, hstate⟩ : σ.locks[primaryKey]? = some lock ∧ lock.startTs = startTs ∧
        (σ.inspectTxnStatus primaryKey startTs).state = .locked := by
      unfold inspectTxnStatus at hlock ⊢
      grind
    by_cases hexpired : lock.legacy = false ∧ lock.expireAtPhysicalMs ≤ nowMs
    · exact .inr ⟨lock, hheld, hstart, hexpired.1, hexpired.2⟩
    · left
      have hleft : (!(!lock.legacyExpiry && lock.expireAtPhysicalMs != 0 &&
          lock.expireAtPhysicalMs ≤ nowMs)) = true := by
        unfold MvccLock.legacy at hexpired
        grind
      simp [checkTxnStatus, prepareCheckTxnStatus, hlock, hstate,
        PreparedMvccWrite.hasChanges, hleft]

/-- The resolver rolls back what is missing or excused. -/
lemma missing_or_excused {commitTs : Ts} (h : LockResolver.resolution (LockResolver.checkPrimary
      (σ.checkTxnStatus primaryKey startTs nowMs true env).1) = some (.rolledBack, commitTs)) :
    (σ.inspectTxnStatus primaryKey startTs).state = .notFound ∨
      excused σ primaryKey startTs nowMs = true := by
  rcases checkTxnStatus_cases σ primaryKey startTs nowMs env with heq | ⟨lock, hheld, hstart, hown⟩
  · rw [heq] at h
    cases hrecord : (σ.versionsOf primaryKey).recordOf startTs with
    | none =>
      rcases inspectTxnStatus_of_none hrecord with hstate | hstate
      · simp [LockResolver.resolution, LockResolver.checkPrimary, hstate] at h
      · exact .inl hstate
    | some record =>
      obtain ⟨c, w⟩ := record
      rw [inspectTxnStatus_of_record hrecord] at h
      by_cases hrollback : w.type = .rollback
      · obtain ⟨hget, hstart⟩ := Versions.recordOf_eq_some hrecord
        have hmarker : (σ.versionsOf primaryKey).hasRollback startTs = true :=
          (OrdMap.any_toList _ _).2 ⟨c, w, hget, by simp [hstart, hrollback]⟩
        exact .inr (by simp [excused, hmarker])
      · simp [LockResolver.resolution, LockResolver.checkPrimary, hrollback] at h
  · right
    have hlock : (σ.locks[primaryKey]?.any fun lock => lock.startTs == startTs && !lock.legacy &&
        lock.expireAtPhysicalMs ≤ nowMs) = true := by
      simp [hheld, hstart, hown.1, hown.2]
    simp [excused, hlock]

/-- A query removes only a lock with a comparable expiry. -/
lemma legacy_of_goneLock {lock : MvccLock}
    (h : goneLock σ (σ.checkTxnStatus primaryKey startTs nowMs true env).2 primaryKey startTs =
      some lock) : lock.legacy = false := by
  obtain ⟨hheld, hgone⟩ := Option.filter_eq_some_iff.1 h
  simp only [Bool.and_eq_true, Option.isNone_iff_eq_none] at hgone
  rcases checkTxnStatus_cases σ primaryKey startTs nowMs env with heq | ⟨held, hget, -, hlegacy, -⟩
  · rw [heq] at hgone
    rw [hgone.2] at hheld
    cases hheld
  · rw [hget] at hheld
    cases hheld
    exact hlegacy

end

/-! ## Runs -/

/-- Every lock that the scan has rolled back has a comparable expiry, or its primary key excused the
rollback. -/
def Excused (s : ScanState) : Prop :=
  ∀ rolledBack ∈ s.rolledBack, rolledBack.lock.legacy = true → rolledBack.excused = true

/-- A lock without a comparable expiry is decided on only if it is not on its primary key and the
primary key has a record or a lock of the transaction; and the lock that a command finds has a
comparable expiry if the one that the scan had read has. -/
def Checked (route : Bytes → ℕ) (s : ScanState) : ScanEvent → Prop
  | .decide .. => ∀ item ∈ s.expired.head?, item.2.legacy = true → item.1 ≠ item.2.primaryKey ∧
      ((s.primary route item.2).inspectTxnStatus item.2.primaryKey item.2.startTs).state ≠ .notFound
  | .execute position _ _ => ∀ command ∈ s.scheduled[position]?,
    ∀ lock ∈ (s.deployment.regions command.region).locks[command.key]?,
      lock.startTs = command.lock.startTs → lock.legacy = true → command.lock.legacy = true
  | _ => True

/-- What is scheduled to be rolled back is excused. -/
structure ScanInv (s : ScanState) : Prop where
  scheduled : ∀ command ∈ s.scheduled, command.decision = .rolledBack →
    command.lock.legacy = true → command.excused = true
  rolledBack : Excused s

section

variable {route : Bytes → ℕ} {s : ScanState} {key : Bytes} {lock : MvccLock}

section

variable (h : ScanInv s)

include h

variable {isExcused : Bool}

lemma ScanInv.schedule {decision : Option (TxnRecordState × Ts)}
    (hdecision : ∀ commitTs, decision = some (.rolledBack, commitTs) → lock.legacy = true →
      isExcused = true) : ScanInv (s.schedule key lock decision isExcused) where
  scheduled := by
    intro command hcommand hrolled hlegacy
    rcases mem_append.1 hcommand with hold | hnew
    · exact h.scheduled command hold hrolled hlegacy
    · cases decision with
      | none => simp at hnew
      | some choice =>
        obtain ⟨state, commitTs⟩ := choice
        simp only [Option.map_some, Option.toList_some, mem_singleton] at hnew
        subst hnew
        obtain rfl : state = .rolledBack := hrolled
        exact hdecision commitTs rfl hlegacy
  rolledBack := h.rolledBack

lemma ScanInv.recordGone {before after : MvccStorage} {startTs : Ts}
    (hgone : ∀ lock, goneLock before after key startTs = some lock →
      lock.legacy = true → isExcused = true) :
    ScanInv (s.recordGone before after key startTs isExcused) where
  scheduled := h.scheduled
  rolledBack := by
    intro rolledBack hmem hlegacy
    rcases mem_append.1 hmem with hold | hnew
    · exact h.rolledBack rolledBack hold hlegacy
    · cases hlock : goneLock before after key startTs with
      | none => simp [hlock] at hnew
      | some lock =>
        simp only [hlock, Option.map_some, Option.toList_some, mem_singleton] at hnew
        subst hnew
        exact hgone lock hlock hlegacy

lemma ScanInv.congr {t : ScanState} (hscheduled : t.scheduled = s.scheduled)
    (hrolledBack : t.rolledBack = s.rolledBack) : ScanInv t where
  scheduled := by
    rw [hscheduled]
    exact h.scheduled
  rolledBack := by
    unfold Excused
    rw [hrolledBack]
    exact h.rolledBack

lemma ScanInv.withDeployment (deployment : Deployment) :
    ScanInv { s with deployment := deployment } := h.congr rfl rfl

lemma ScanInv.decideLock (replied : Bool) (env : ApplyEnv)
    (hchecked : lock.legacy = true → key ≠ lock.primaryKey ∧
      ((s.primary route lock).inspectTxnStatus lock.primaryKey lock.startTs).state ≠ .notFound) :
    ScanInv (s.decideLock route key lock replied env) := by
  unfold ScanState.decideLock
  split
  · rename_i hprimary
    exact h.schedule fun _ _ hlegacy => absurd hprimary (hchecked hlegacy).1
  · have hasked : ScanInv (ScanState.recordGone
        { s with
          deployment :=
            { s.deployment with
              regions := Function.update s.deployment.regions (route lock.primaryKey)
                ((s.primary route lock).checkTxnStatus lock.primaryKey lock.startTs
                  s.currentPhysicalMs true env).2 } }
        (s.primary route lock) ((s.primary route lock).checkTxnStatus lock.primaryKey lock.startTs
          s.currentPhysicalMs true env).2 lock.primaryKey lock.startTs
        (s.excusedNow route lock)) := by
      refine (h.withDeployment _).recordGone fun gone hgone hlegacy => ?_
      rw [legacy_of_goneLock hgone] at hlegacy
      cases hlegacy
    split
    · refine hasked.schedule fun commitTs hresolution hlegacy => ?_
      exact (missing_or_excused hresolution).resolve_left (hchecked hlegacy).2
    · exact hasked

lemma ScanInv.executeResolution {command : Resolution} (raftIndex : UInt64) (env : ApplyEnv)
    (hcommand : command.decision = .rolledBack → command.lock.legacy = true →
      command.excused = true)
    (hchecked : ∀ lock ∈ (s.deployment.regions command.region).locks[command.key]?,
      lock.startTs = command.lock.startTs → lock.legacy = true → command.lock.legacy = true) :
    ScanInv (s.executeResolution command raftIndex env) := by
  unfold ScanState.executeResolution
  split_ifs with hrolled
  · refine (h.withDeployment _).recordGone fun gone hgone hlegacy => ?_
    obtain ⟨hheld, hown⟩ := Option.filter_eq_some_iff.1 hgone
    simp only [Bool.and_eq_true, beq_iff_eq] at hown
    exact hcommand hrolled (hchecked gone hheld hown.1 hlegacy)
  · exact h.congr rfl rfl

lemma ScanInv.next {event : ScanEvent} (hchecked : Checked route s event) :
    ScanInv (s.next route event) := by
  cases event with
  | readExpired owned =>
    unfold ScanState.next
    dsimp only
    split
    · exact h
    · exact h.congr rfl rfl
  | decide replied env =>
    unfold ScanState.next
    dsimp only
    split
    · exact h
    · rename_i key lock rest hexpired
      have hitem := hchecked (key, lock) (by simp [hexpired])
      have hrest : ScanInv { s with expired := rest } := h.congr rfl rfl
      exact hrest.decideLock replied env hitem
  | execute position raftIndex env =>
    unfold ScanState.next
    dsimp only
    split
    · exact h
    · rename_i command hposition
      have hrest : ScanInv { s with scheduled := s.scheduled.eraseIdx position } :=
        ⟨fun c hc => h.scheduled c (mem_of_mem_eraseIdx hc), h.rolledBack⟩
      exact hrest.executeResolution raftIndex env
        (h.scheduled command (mem_of_getElem? hposition)) (hchecked command hposition)
  | drop position =>
    exact ⟨fun c hc => h.scheduled c (mem_of_mem_eraseIdx hc), h.rolledBack⟩
  | _ => exact h.congr rfl rfl

end

end

/-- In every run in which a lock without a comparable expiry is decided on only with a primary key
that tells what became of the transaction, no such lock is rolled back without an excuse. -/
theorem excused_of_checked {route : Bytes → ℕ} {s : ScanState}
    (h : (scanSystem route).Reachable (Checked route) s) : Excused s := by
  have hinv : ScanInv s := by
    refine h.invariant (I := ScanInv) ?_ ?_
    · rintro _ rfl
      exact ⟨by simp, by simp [Excused]⟩
    · rintro s event _ hs hchecked ⟨-, rfl⟩
      exact hs.next hchecked
  exact hinv.rolledBack

/-! ## Two scans -/

instance decidableChecked (route : Bytes → ℕ) (s : ScanState) : DecidablePred (Checked route s) :=
  fun event => by
    induction event using ScanEvent.casesOn <;> dsimp only [Checked] <;> infer_instance

def ScanState.after (route : Bytes → ℕ) (events : List ScanEvent) : ScanState :=
  events.foldl (next route) {}

/-- A transaction with the primary key `[1]` locks a key. -/
def lockKeyStep (key : Bytes) (expireAtPhysicalMs : UInt64) : Step where
  command := .pessimisticLock key ⟨[1], one_lt_maxSize⟩ (atMs 1) 100 (atMs 1) expireAtPhysicalMs 1

/-- Both keys are locked, the second one without an expiry. -/
def lockedKeys : List ScanEvent :=
  [.other (.allocate (atMs 1)), .other (.apply 0 (lockKeyStep [1] 101)),
    .other (.apply 0 (lockKeyStep [2] 0))]

/-- The scan leaves the primary key and asks it for the second one. -/
def excusedScan : ScanState :=
  .after (fun _ => 0) (lockedKeys ++ [.start (atMs 300) [0], .readExpired fun _ => true, .skip,
    .decide true ⟨0, true⟩, .execute 0 0 ⟨0, true⟩])

theorem excused_excusedScan :
    excusedScan.rolledBack.map (fun rolledBack => rolledBack.lock.legacy) = [false, true] ∧
      Excused excusedScan := by
  have hreach : (scanSystem fun _ => 0).Reachable (Checked fun _ => 0) excusedScan :=
    Guarded.reachable_enabled (by decide)
  exact ⟨by decide, excused_of_checked hreach⟩

/-- A primary key is locked without an expiry, and a scan comes by two hundred milliseconds
later. -/
def unexpiringScan : ScanState :=
  .after (fun _ => 0) [.other (.allocate (atMs 1)), .other (.apply 0 (lockKeyStep [1] 0)),
    .start (atMs 300) [0], .readExpired fun _ => true, .decide true ⟨0, true⟩,
    .execute 0 0 ⟨0, true⟩]

/-- The scan rolls the lock back by its creation time. -/
theorem not_excused_unexpiringScan : ¬∀ (route : Bytes → ℕ) (s : ScanState),
      (scanSystem route).Reachable TransitionSystem.anyStep s → Excused s := by
  intro h
  have hreach : (scanSystem fun _ => 0).Reachable anyStep unexpiringScan :=
    Guarded.reachable_enabled (by decide)
  have hrolled : unexpiringScan.rolledBack.all (fun rolledBack =>
      !rolledBack.lock.legacy || rolledBack.excused) = false := by decide
  rw [all_eq_false] at hrolled
  obtain ⟨rolledBack, hmem, hbad⟩ := hrolled
  have hexcused := h _ _ hreach rolledBack hmem
  cases hlegacy : rolledBack.lock.legacy with
  | false => simp [hlegacy] at hbad
  | true => simp [hlegacy, hexcused hlegacy] at hbad

end TxnRecoveryManager
end Txn
end StrataKV
