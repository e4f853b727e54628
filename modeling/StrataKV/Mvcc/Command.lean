import StrataKV.Lib.TransitionSystem
import StrataKV.Mvcc.Storage

/-!
# Commands and runs of `MvccStorage`

A run is a sequence of steps, each of which prepares a command on the current state and applies
what was prepared at some Raft index. `Command.parts` names the single-key commands a command
stands for; it is what the properties of runs speak about.
-/

namespace StrataKV.Mvcc

/-- A `std::string` that is stored behind a length field: its size is below `max_size`. -/
abbrev Str := { bytes : Bytes // bytes.length < maxSize }

/-- A command of one key. -/
inductive KeyCommand
  | prewrite (key value primaryKey : Bytes) (startTs : Ts) (isDelete : Bool) (forUpdateTs : Ts)
  | pessimisticLock (key primaryKey : Bytes) (startTs forUpdateTs : Ts) (expireAt : UInt64)
  | prewriteLock (key primaryKey : Bytes) (startTs forUpdateTs : Ts)
  | commit (key : Bytes) (startTs commitTs : Ts)
  | rollback (key : Bytes) (startTs : Ts)
  deriving DecidableEq

def KeyCommand.key : KeyCommand → Bytes
  | .prewrite key .. => key
  | .pessimisticLock key .. => key
  | .prewriteLock key .. => key
  | .commit key .. => key
  | .rollback key .. => key

def KeyCommand.startTs : KeyCommand → Ts
  | .prewrite _ _ _ startTs .. => startTs
  | .pessimisticLock _ _ startTs .. => startTs
  | .prewriteLock _ _ startTs _ => startTs
  | .commit _ startTs _ => startTs
  | .rollback _ startTs => startTs

/-- The prepared commands and the collector, with the clock readings of the prepare half. -/
inductive Command
  | prewrite (key value : Bytes) (primaryKey : Str) (startTs : Ts) (ttlMs : UInt64)
      (isDelete : Bool) (forUpdateTs : Ts) (nowMs nowMs' : UInt64)
  | pessimisticLock (key : Bytes) (primaryKey : Str) (startTs : Ts) (ttlMs : UInt64)
      (forUpdateTs : Ts) (expireAtPhysicalMs nowMs : UInt64)
  | prewriteLock (key : Bytes) (primaryKey : Str) (startTs : Ts) (ttlMs : UInt64) (forUpdateTs : Ts)
  | commit (key : Bytes) (startTs commitTs : Ts)
  | rollback (key : Bytes) (startTs : Ts)
  | checkTxnStatus (primaryKey : Bytes) (startTs : Ts) (currentPhysicalMs : UInt64)
      (rollbackIfExpired : Bool)
  | resolveLock (key : Bytes) (startTs : Ts) (decision : TxnRecordState) (commitTs : Ts)
  | batchPrewrite (mutations : List MvccMutation) (primaryKey : Str) (startTs : Ts)
      (ttlMs : UInt64) (forUpdateTs : Ts) (nowMs nowMs' : Bytes → UInt64)
  | batchCommit (keys : List Bytes) (startTs commitTs : Ts)
  | batchRollback (keys : List Bytes) (startTs : Ts)
  | garbageCollect (safePointTs : Ts)

namespace Command

/-- The single-key commands that a command may carry out. -/
def parts : Command → List KeyCommand
  | prewrite key value primaryKey startTs _ isDelete forUpdateTs _ _ =>
    [.prewrite key value primaryKey startTs isDelete forUpdateTs]
  | pessimisticLock key primaryKey startTs _ forUpdateTs expireAt _ =>
    [.pessimisticLock key primaryKey startTs forUpdateTs expireAt]
  | prewriteLock key primaryKey startTs _ forUpdateTs =>
    [.prewriteLock key primaryKey startTs forUpdateTs]
  | commit key startTs commitTs => [.commit key startTs commitTs]
  | rollback key startTs => [.rollback key startTs]
  | checkTxnStatus primaryKey startTs _ rollbackIfExpired =>
    if rollbackIfExpired then [.rollback primaryKey startTs] else []
  | resolveLock key startTs decision commitTs =>
    if decision = .committed ∧ commitTs ≠ 0 then [.commit key startTs commitTs]
    else if decision = .rolledBack then [.rollback key startTs]
    else []
  | batchPrewrite mutations primaryKey startTs _ forUpdateTs _ _ =>
    mutations.map fun mutation =>
      if mutation.isLockOnly then .prewriteLock mutation.key primaryKey startTs forUpdateTs
      else .prewrite mutation.key mutation.value primaryKey startTs mutation.isDelete forUpdateTs
  | batchCommit keys startTs commitTs => keys.map fun key => .commit key startTs commitTs
  | batchRollback keys startTs => keys.map fun key => .rollback key startTs
  | garbageCollect _ => []

/-- The safe point of a collection. -/
def safePoint? : Command → Option Ts
  | garbageCollect safePointTs => some safePointTs
  | _ => none

end Command

/-- One step of a run: a command, the Raft index it is applied at, and the apply environment. -/
structure Step where
  command : Command
  raftIndex : UInt64 := 0
  env : ApplyEnv := ⟨0, true⟩

namespace MvccStorage

/-- Prepare the command on the current state and apply what was prepared. -/
def exec (σ : MvccStorage) (step : Step) : TxnStatus × MvccStorage :=
  let single (key : Bytes) (prepared : PreparedMvccWrite) :=
    σ.applyPrepared key prepared step.raftIndex step.env
  let batch (prepared : PreparedMvccBatch) := σ.applyPreparedBatch prepared step.raftIndex step.env
  match step.command with
  | .prewrite key value primaryKey startTs ttlMs isDelete forUpdateTs nowMs nowMs' =>
    single key (σ.preparePrewrite key value primaryKey startTs ttlMs isDelete forUpdateTs
      nowMs nowMs')
  | .pessimisticLock key primaryKey startTs ttlMs forUpdateTs expireAt nowMs =>
    single key (σ.preparePessimisticLock key primaryKey startTs ttlMs forUpdateTs expireAt nowMs)
  | .prewriteLock key primaryKey startTs ttlMs forUpdateTs =>
    single key (σ.preparePrewriteLock key primaryKey startTs ttlMs forUpdateTs)
  | .commit key startTs commitTs => single key (σ.prepareCommit key startTs commitTs)
  | .rollback key startTs => single key (σ.prepareRollback key startTs)
  | .checkTxnStatus primaryKey startTs currentPhysicalMs rollbackIfExpired =>
    single primaryKey
      (σ.prepareCheckTxnStatus primaryKey startTs currentPhysicalMs rollbackIfExpired)
  | .resolveLock key startTs decision commitTs =>
    single key (σ.prepareResolveLock key startTs decision commitTs)
  | .batchPrewrite mutations primaryKey startTs ttlMs forUpdateTs nowMs nowMs' =>
    batch (σ.prepareBatchPrewrite mutations primaryKey startTs ttlMs forUpdateTs nowMs nowMs')
  | .batchCommit keys startTs commitTs => batch (σ.prepareBatchCommit keys startTs commitTs)
  | .batchRollback keys startTs => batch (σ.prepareBatchRollback keys startTs)
  | .garbageCollect safePointTs => (.ok, (σ.garbageCollect safePointTs step.env.engineOk).2)

end MvccStorage

/-- The runs of one storage from an empty engine. -/
def storageSystem : TransitionSystem MvccStorage Step :=
  .ofFun MvccStorage.empty fun σ step => (σ.exec step).2

/-- The steps of a run, taken one after another. -/
def MvccStorage.run (σ : MvccStorage) (steps : List Step) : MvccStorage :=
  steps.foldl (fun σ step => (σ.exec step).2) σ

end StrataKV.Mvcc
