import StrataKV.Mvcc.Scan
import StrataKV.Mvcc.TxnRecord

/-!
# Collections and the verdict on a transaction

A lock that its coordinator has left is resolved by asking the primary key of its transaction
(`LockResolver::CheckPrimary`). The answer is the transaction's record on that key, a commit record
or a rollback marker, and `TxnRecoveryManager::AdvanceGc` collects records five minutes after they
were written, whether or not locks of the transaction are left in other Regions.

The collection of one key leaves the answer alone if and only if it does not remove that record.
-/

namespace StrataKV.Txn

open Mvcc MvccStorage TransitionSystem
open Std (ExtTreeMap)

/-! ## The resolver -/

inductive PrimaryTxnState
  | committed
  | rolledBack
  | locked
  | missing
  deriving DecidableEq

structure PrimaryTxnStatus where
  queryStatus : TxnStatus := .storageError
  state : PrimaryTxnState := .missing
  commitTs : Ts := 0
  lock : Option MvccLock := none
  deriving DecidableEq

namespace LockResolver

/-- `CheckPrimary`, given the answer of `CheckTxnStatus` in the Region of the primary key. -/
def checkPrimary (answer : TxnStatus × Option TxnRecordStatus) : PrimaryTxnStatus :=
  if answer.1 ≠ .ok then { queryStatus := answer.1 }
  else
    let record := answer.2.getD {}
    match record.state with
    | .committed => ⟨.ok, .committed, record.commitTs, none⟩
    | .rolledBack => ⟨.ok, .rolledBack, 0, none⟩
    | .locked => ⟨.ok, .locked, 0, record.lock⟩
    | .notFound => ⟨.ok, .missing, 0, none⟩

/-- How `ResolveLock` and the recovery scan resolve a lock whose primary is in this status; `none` if
they leave it. -/
def resolution (primary : PrimaryTxnStatus) : Option (TxnRecordState × Ts) :=
  if primary.queryStatus ≠ .ok then none
  else if primary.state = .committed then some (.committed, primary.commitTs)
  else if primary.state = .locked then none
  else some (.rolledBack, 0)

end LockResolver

/-! ## The recovery manager -/

namespace TxnRecoveryManager

def retentionMs : UInt64 := 5 * 60 * 1000

/-- The safe point of `AdvanceGc` at the timestamp that `Next` returned. -/
def safePointTs (currentTso : Ts) : Option Ts :=
  let currentPhysicalMs := currentTso >>> 18
  if currentPhysicalMs ≤ retentionMs then none
  else some ((currentPhysicalMs - retentionMs) <<< 18)

end TxnRecoveryManager

/-- The Regions and the last timestamp of the oracle. -/
structure Deployment where
  regions : ℕ → MvccStorage
  clock : Ts

inductive DeploymentEvent
  | allocate (ts : Ts)
  /-- a command of a transaction, of a resolver or of a recovery scan -/
  | apply (region : ℕ) (step : Step)
  /-- a collection of `AdvanceGc`, whose `Next` has returned `currentTso` -/
  | collect (region : ℕ) (currentTso : Ts) (raftIndex : UInt64) (env : ApplyEnv)

namespace Deployment

def initial : Deployment := ⟨fun _ => .empty, 0⟩

def exec (s : Deployment) (region : ℕ) (step : Step) : Deployment :=
  { s with regions := Function.update s.regions region ((s.regions region).exec step).2 }

def next (s : Deployment) : DeploymentEvent → Deployment
  | .allocate ts => { s with clock := ts }
  | .apply region step => s.exec region step
  | .collect region currentTso raftIndex env =>
    match TxnRecoveryManager.safePointTs currentTso with
    | none => s
    | some safePointTs => s.exec region ⟨.garbageCollect safePointTs, raftIndex, env⟩

/-- The timestamps of a part come from the oracle. -/
def Issued (clock : Ts) : KeyCommand → Prop
  | .commit _ startTs commitTs => startTs ≤ clock ∧ commitTs ≤ clock
  | c => c.startTs ≤ clock

def Enabled (s : Deployment) : DeploymentEvent → Prop
  | .allocate ts => s.clock < ts
  | .apply _ step => step.command.safePoint? = none ∧ ∀ c ∈ step.command.parts, Issued s.clock c
  | .collect _ currentTso _ _ => currentTso ≤ s.clock

end Deployment

def deploymentSystem : TransitionSystem Deployment DeploymentEvent :=
  .ofEnabled .initial Deployment.Enabled Deployment.next

/-! ## The verdict -/

/-- A lock whose transaction has a record on its primary key. -/
structure LeftLock (s : Deployment) (route : Bytes → ℕ) where
  key : Bytes
  lock : MvccLock
  held : (s.regions (route key)).locks[key]? = some lock
  commitTs : Ts
  write : MvccWrite
  record : ((s.regions (route lock.primaryKey)).versionsOf lock.primaryKey).recordOf lock.startTs =
    some (commitTs, write)

/-- A collection of `AdvanceGc`. -/
structure GcRound (s : Deployment) where
  currentTso : Ts
  issued : currentTso ≤ s.clock
  safePointTs : Ts
  safePoint : TxnRecoveryManager.safePointTs currentTso = some safePointTs

namespace LeftLock

variable {s : Deployment} {route : Bytes → ℕ}

/-- The Region of the primary key. -/
def primary (left : LeftLock s route) : MvccStorage := s.regions (route left.lock.primaryKey)

/-- After the collection in the Region of the primary key, `CheckTxnStatus` answers as before, and
the resolver resolves the lock as before. -/
def VerdictKept (left : LeftLock s route) (gc : GcRound s) (engineOk : Bool) : Prop :=
  ∀ (currentPhysicalMs : UInt64) (rollbackIfExpired : Bool) (env : ApplyEnv),
    let ask (σ : MvccStorage) := (σ.checkTxnStatus left.lock.primaryKey left.lock.startTs
      currentPhysicalMs rollbackIfExpired env).1
    let collected := (left.primary.garbageCollect gc.safePointTs engineOk).2
    ask collected = ask left.primary ∧
      LockResolver.resolution (LockResolver.checkPrimary (ask collected)) =
        LockResolver.resolution (LockResolver.checkPrimary (ask left.primary))

end LeftLock

section

variable {σ : MvccStorage} {primaryKey : Bytes} {startTs safePointTs c : Ts} {w : MvccWrite}

/-- A transaction with a record is not rolled back by the query. -/
lemma checkTxnStatus_of_record
    (h : (σ.versionsOf primaryKey).recordOf startTs = some (c, w)) (currentPhysicalMs : UInt64)
    (rollbackIfExpired : Bool) (env : ApplyEnv) :
    (σ.checkTxnStatus primaryKey startTs currentPhysicalMs rollbackIfExpired env).1 =
      (.ok, some (σ.inspectTxnStatus primaryKey startTs)) := by
  have hlock : (σ.inspectTxnStatus primaryKey startTs).lock = none := by
    unfold inspectTxnStatus
    rw [h]
    dsimp only
    split <;> rfl
  unfold checkTxnStatus prepareCheckTxnStatus
  simp [hlock, PreparedMvccWrite.hasChanges]

/-- A query that rolls nothing back tells what the key holds. -/
lemma checkTxnStatus_inspects (σ : MvccStorage) (primaryKey : Bytes) (startTs : Ts)
    (currentPhysicalMs : UInt64) (env : ApplyEnv) :
    (σ.checkTxnStatus primaryKey startTs currentPhysicalMs false env).1 =
      (.ok, some (σ.inspectTxnStatus primaryKey startTs)) := by
  have hprepared : σ.prepareCheckTxnStatus primaryKey startTs currentPhysicalMs false =
      { expectedRevision := σ.currentRevision primaryKey
        status := .ok
        txnRecordStatus := σ.inspectTxnStatus primaryKey startTs } := by
    unfold prepareCheckTxnStatus
    dsimp only
    split
    · rfl
    · rw [if_pos (.inl rfl)]
  unfold checkTxnStatus
  rw [hprepared]
  rfl

lemma markersAtStart_of_reachable {G : MvccStorage → Step → Prop}
    (h : storageSystem.Reachable G σ) (key : Bytes) : (σ.view key).MarkersAtStart := by
  refine view_of_reachable ?_ KeyView.MarkersAtStart.step KeyView.MarkersAtStart.collect h key
  intro key c w hget
  simp at hget

/-- The first record of a transaction stays the first one unless it is removed. -/
lemma recordOf_garbageCollect (engineOk : Bool)
    (h : (σ.versionsOf primaryKey).recordOf startTs = some (c, w))
    (hkept : engineOk = false ∨ ¬(σ.view primaryKey).Removed safePointTs c w) :
    ((σ.garbageCollect safePointTs engineOk).2.versionsOf primaryKey).recordOf startTs =
      some (c, w) := by
  have hget := (Versions.recordOf_eq_some h).1
  -- the key is left alone, or the collection is one that keeps the record
  have hview : (σ.garbageCollect safePointTs engineOk).2.view primaryKey = σ.view primaryKey ∨
      CollectStep safePointTs (σ.view primaryKey)
        ((σ.garbageCollect safePointTs engineOk).2.view primaryKey) ∧
        ∀ w', ¬(σ.view primaryKey).Collected safePointTs c w' := by
    rcases hkept with rfl | hkept
    · rw [σ.garbageCollect_of_not_engineOk safePointTs]
      exact .inl rfl
    by_cases hsize : (σ.view primaryKey).versions.size ≤ 1
    · exact .inl (σ.garbageCollect_view_of_size_le safePointTs engineOk hsize)
    refine (σ.garbageCollect_view safePointTs engineOk primaryKey).imp_right fun hstep =>
      ⟨hstep, fun w' hcollected => hkept ⟨Nat.lt_of_not_le hsize, ?_⟩⟩
    obtain rfl : w = w' := Option.some.inj (hget.symm.trans hcollected.1)
    exact hcollected
  rcases hview with heq | ⟨hstep, hkept⟩
  · exact (congrArg (fun v => v.versions.recordOf startTs) heq).trans h
  · exact OrdMap.find?_toList_of_subset (fun _ _ hget' => (hstep.of_get hget').1) h
      ((hstep.kept c hkept).trans hget)

/-- A removed record is gone. -/
lemma getElem?_garbageCollect_of_removed (hremoved : (σ.view primaryKey).Removed safePointTs c w) :
    ((σ.garbageCollect safePointTs true).2.versionsOf primaryKey)[c]? = none := by
  have hmem : (c, w) ∈ collected (σ.versionsOf primaryKey) safePointTs :=
    mem_collected.2 ⟨Nat.not_le_of_lt hremoved.1, hremoved.2⟩
  have htouched : σ.touched safePointTs ≠ [] :=
    List.ne_nil_of_mem (mem_touched.2 ⟨rfl, List.ne_nil_of_mem hmem⟩)
  have hversions : (σ.garbageCollect safePointTs true).2.versionsOf primaryKey =
      (collected (σ.versionsOf primaryKey) safePointTs).foldl
        (fun versions version => versions.erase version.1) (σ.versionsOf primaryKey) := by
    unfold garbageCollect
    rw [← touched]
    rw [if_neg (by simpa using htouched)]
    exact σ.versionsOf_garbageCollect safePointTs primaryKey
  rw [hversions, getElem?_foldl_erase, if_pos (List.mem_map_of_mem hmem)]

lemma inspectTxnStatus_of_record (h : (σ.versionsOf primaryKey).recordOf startTs = some (c, w)) :
    σ.inspectTxnStatus primaryKey startTs = if w.type = .rollback then { state := .rolledBack }
      else { state := .committed, commitTs := c } := by
  unfold inspectTxnStatus
  rw [h]

/-- Only a record says that the transaction was committed or rolled back. -/
lemma inspectTxnStatus_of_none (h : (σ.versionsOf primaryKey).recordOf startTs = none) :
    (σ.inspectTxnStatus primaryKey startTs).state = .locked ∨
      (σ.inspectTxnStatus primaryKey startTs).state = .notFound := by
  unfold inspectTxnStatus
  rw [h]
  dsimp only
  split
  · split
    · exact .inl rfl
    · exact .inr rfl
  · exact .inr rfl

/-- A removed record is missed by the query. -/
lemma inspectTxnStatus_ne_of_removed (hmarkers : (σ.view primaryKey).MarkersAtStart)
    (h : (σ.versionsOf primaryKey).recordOf startTs = some (c, w))
    (hremoved : (σ.view primaryKey).Removed safePointTs c w) :
    (σ.garbageCollect safePointTs true).2.inspectTxnStatus primaryKey startTs ≠
      σ.inspectTxnStatus primaryKey startTs := by
  obtain ⟨hget, hstart⟩ := Versions.recordOf_eq_some h
  have hgone := getElem?_garbageCollect_of_removed hremoved
  have hmarkers' : ((σ.garbageCollect safePointTs true).2.view primaryKey).MarkersAtStart := by
    rcases σ.garbageCollect_view safePointTs true primaryKey with heq | hstep
    · exact heq ▸ hmarkers
    · exact hmarkers.collect hstep
  generalize (σ.garbageCollect safePointTs true).2 = τ at hgone hmarkers'
  intro heq
  rw [inspectTxnStatus_of_record h] at heq
  cases hrecord : (τ.versionsOf primaryKey).recordOf startTs with
  | none =>
    rcases inspectTxnStatus_of_none hrecord with hstate | hstate
    · rw [heq] at hstate
      split at hstate <;> cases hstate
    · rw [heq] at hstate
      split at hstate <;> cases hstate
  | some record =>
    obtain ⟨c', w'⟩ := record
    obtain ⟨hget', hstart'⟩ := Versions.recordOf_eq_some hrecord
    rw [inspectTxnStatus_of_record hrecord] at heq
    -- the record that is left would have to be at the same place
    have hsame : c' = c := by
      by_cases hmark : w.type = .rollback <;> by_cases hmark' : w'.type = .rollback
      · have hc : w.startTs = c := hmarkers c w hget hmark
        have hc' : w'.startTs = c' := hmarkers' c' w' hget' hmark'
        rw [← hc, ← hc', hstart, hstart']
      · rw [if_pos hmark, if_neg hmark'] at heq
        cases heq
      · rw [if_neg hmark, if_pos hmark'] at heq
        cases heq
      · rw [if_neg hmark, if_neg hmark'] at heq
        exact congrArg TxnRecordStatus.commitTs heq
    rw [hsame, hgone] at hget'
    cases hget'

end

/-! ## Runs -/

/-- Every Region of a deployment is a storage that has carried out commands. -/
lemma storage_reachable {s : Deployment} (h : deploymentSystem.Reachable anyStep s) (region : ℕ) :
    storageSystem.Reachable anyStep (s.regions region) := by
  have hexec (s : Deployment) (target : ℕ) (step : Step)
      (hs : ∀ region, storageSystem.Reachable anyStep (s.regions region))
      (region : ℕ) : storageSystem.Reachable anyStep ((s.exec target step).regions region) := by
    unfold Deployment.exec
    by_cases hregion : region = target
    · subst hregion
      simp only [Function.update_self]
      exact (hs region).tail trivial rfl
    · simp only [Function.update_of_ne hregion]
      exact hs region
  refine h.invariant (I := fun s => ∀ region, storageSystem.Reachable anyStep
    (s.regions region)) ?_ ?_ region
  · rintro _ rfl region
    exact .initial rfl
  · rintro s event _ hs - ⟨-, rfl⟩
    cases event with
    | allocate ts => exact hs
    | apply target step => exact hexec s target step hs
    | collect target currentTso raftIndex env =>
      unfold Deployment.next
      dsimp only
      split
      · exact hs
      · exact hexec s target _ hs

/-- In every run, a collection of `AdvanceGc` keeps the verdict on the transaction of a lock if and
only if it does not remove the transaction's record from the primary key. -/
theorem verdict_kept_iff {s : Deployment}
    (h : deploymentSystem.Reachable TransitionSystem.anyStep s) {route : Bytes → ℕ}
    (left : LeftLock s route) (gc : GcRound s) (engineOk : Bool) :
    left.VerdictKept gc engineOk ↔
      engineOk = false ∨ ¬(left.primary.view left.lock.primaryKey).Removed gc.safePointTs
        left.commitTs left.write := by
  have hrecord : (left.primary.versionsOf left.lock.primaryKey).recordOf left.lock.startTs = _ :=
    left.record
  have hmarkers : (left.primary.view left.lock.primaryKey).MarkersAtStart :=
    markersAtStart_of_reachable (storage_reachable h (route left.lock.primaryKey)) _
  constructor
  · intro hkept
    by_contra hnot
    rw [not_or, Bool.not_eq_false, not_not] at hnot
    obtain ⟨rfl, hremoved⟩ := hnot
    have hanswer := (hkept 0 false ⟨0, true⟩).1
    dsimp only at hanswer
    rw [checkTxnStatus_inspects, checkTxnStatus_inspects] at hanswer
    exact inspectTxnStatus_ne_of_removed hmarkers hrecord hremoved
      (Option.some.inj (Prod.mk.inj hanswer).2)
  · intro hstays currentPhysicalMs rollbackIfExpired env
    have hrecord' := recordOf_garbageCollect engineOk hrecord hstays
    dsimp only
    rw [checkTxnStatus_of_record hrecord', checkTxnStatus_of_record hrecord,
      inspectTxnStatus_of_record hrecord', inspectTxnStatus_of_record hrecord]
    exact ⟨rfl, rfl⟩

instance (clock : Ts) : DecidablePred (Deployment.Issued clock) := fun c => by
  induction c using KeyCommand.casesOn <;> dsimp only [Deployment.Issued] <;> infer_instance

instance (s : Deployment) : DecidablePred s.Enabled := fun event => by
  cases event <;> dsimp only [Deployment.Enabled] <;> infer_instance

def Deployment.after (events : List DeploymentEvent) : Deployment := events.foldl next .initial

/-- The timestamp of a millisecond. -/
def atMs (ms : UInt64) : Ts := ms <<< 18

/-- Two keys in two Regions. -/
def keyRegion (key : Bytes) : ℕ := if key = [2] then 1 else 0

/-- A transaction writes both keys with the primary key `[1]` and commits it; its lock on the other
key is left. -/
def halfCommitted (startMs commitMs : UInt64) : List DeploymentEvent :=
  [.allocate (atMs startMs),
    .apply 0 { command := .prewrite [1] [7] ⟨[1], one_lt_maxSize⟩ (atMs startMs) 100 false 0 0 0 },
    .apply 1 { command := .prewrite [2] [8] ⟨[1], one_lt_maxSize⟩ (atMs startMs) 100 false 0 0 0 },
    .allocate (atMs commitMs), .apply 0 { command := .commit [1] (atMs startMs) (atMs commitMs) }]

/-- Another transaction writes the primary key. -/
def overwritten (startMs commitMs : UInt64) : List DeploymentEvent :=
  [.allocate (atMs startMs),
    .apply 0 { command := .prewrite [1] [9] ⟨[1], one_lt_maxSize⟩ (atMs startMs) 100 false 0 0 0 },
    .allocate (atMs commitMs), .apply 0 { command := .commit [1] (atMs startMs) (atMs commitMs) }]

/-- The lock that is left on the second key. -/
def secondLock (startMs : UInt64) : MvccLock :=
  { primaryKey := [1], value := [], startTs := atMs startMs, ttlMs := 100, createTimeMs := 0,
    isDelete := false, isPessimistic := false, forUpdateTs := atMs startMs,
    expireAtPhysicalMs := startMs + 100, legacyExpiry := false }

/-- Ten milliseconds after the retention the safe point is at the tenth millisecond. -/
def nowMs : UInt64 := 300010

/-- The record of the primary is the newest one below the safe point. -/
def resolvable : Deployment :=
  .after (overwritten 1 2 ++ halfCommitted 3 4 ++ [.allocate (atMs nowMs)])

theorem verdict_kept_resolvable :
    ∃ (left : LeftLock resolvable keyRegion) (gc : GcRound resolvable),
      (left.primary.garbageCollect gc.safePointTs true).1 = 1 ∧ left.VerdictKept gc true := by
  have hreach : deploymentSystem.Reachable anyStep resolvable :=
    TransitionSystem.Guarded.reachable_enabled (by decide)
  refine ⟨⟨[2], secondLock 3, by decide, atMs 4, ⟨atMs 3, atMs 4, .put⟩, by decide⟩,
    ⟨atMs nowMs, by decide, atMs 10, by decide⟩, by decide, ?_⟩
  refine (verdict_kept_iff hreach _ _ true).2 (.inr fun hremoved => ?_)
  exact absurd (mem_collected.2 ⟨Nat.not_le_of_lt hremoved.1, hremoved.2⟩) (by decide)

/-- The record of the primary is older than another one below the safe point. -/
def overtaken : Deployment :=
  .after (halfCommitted 1 2 ++ overwritten 3 4 ++ [.allocate (atMs nowMs)])

/-- After the collection the primary of a committed transaction is missing, and the resolver rolls
the other key back. -/
theorem verdict_lost_overtaken :
    ¬∀ s : Deployment, deploymentSystem.Reachable TransitionSystem.anyStep s →
      ∀ (route : Bytes → ℕ) (left : LeftLock s route) (gc : GcRound s) (engineOk : Bool),
        left.VerdictKept gc engineOk := by
  intro h
  have hreach : deploymentSystem.Reachable anyStep overtaken :=
    TransitionSystem.Guarded.reachable_enabled (by decide)
  have hkept := h overtaken hreach keyRegion
    ⟨[2], secondLock 1, by decide, atMs 2, ⟨atMs 1, atMs 2, .put⟩, by decide⟩
    ⟨atMs nowMs, by decide, atMs 10, by decide⟩ true 0 true ⟨0, true⟩
  exact absurd hkept.2 (by decide)

end StrataKV.Txn
