import StrataKV.Mvcc.KeyStep

/-!
# What a leader proposes

The scheduler prepares a command on the leader's storage and puts what was prepared into the log; the
replicas apply it from there. `exec` does both on one storage. What any storage prepares carries
mutations of its own keys only, whatever the replica that applies it looks like.
-/

namespace StrataKV.Mvcc

/-- The payload of a `TxnPrepared` or `TxnPreparedBatch` entry. -/
inductive Proposal
  | single (key : Bytes) (prepared : PreparedMvccWrite)
  | batch (prepared : PreparedMvccBatch)

namespace MvccStorage

/-- The prepare half of a command; a collection is not prepared. -/
def prepare (σ : MvccStorage) : Command → Option Proposal
  | .prewrite key value primaryKey startTs ttlMs isDelete forUpdateTs nowMs nowMs' =>
    some (.single key (σ.preparePrewrite key value primaryKey startTs ttlMs isDelete forUpdateTs
      nowMs nowMs'))
  | .pessimisticLock key primaryKey startTs ttlMs forUpdateTs expireAt nowMs =>
    some (.single key
      (σ.preparePessimisticLock key primaryKey startTs ttlMs forUpdateTs expireAt nowMs))
  | .prewriteLock key primaryKey startTs ttlMs forUpdateTs =>
    some (.single key (σ.preparePrewriteLock key primaryKey startTs ttlMs forUpdateTs))
  | .commit key startTs commitTs => some (.single key (σ.prepareCommit key startTs commitTs))
  | .rollback key startTs => some (.single key (σ.prepareRollback key startTs))
  | .checkTxnStatus primaryKey startTs currentPhysicalMs rollbackIfExpired =>
    some (.single primaryKey
      (σ.prepareCheckTxnStatus primaryKey startTs currentPhysicalMs rollbackIfExpired))
  | .resolveLock key startTs decision commitTs =>
    some (.single key (σ.prepareResolveLock key startTs decision commitTs))
  | .batchPrewrite mutations primaryKey startTs ttlMs forUpdateTs nowMs nowMs' =>
    some (.batch (σ.prepareBatchPrewrite mutations primaryKey startTs ttlMs forUpdateTs nowMs
      nowMs'))
  | .batchCommit keys startTs commitTs => some (.batch (σ.prepareBatchCommit keys startTs commitTs))
  | .batchRollback keys startTs => some (.batch (σ.prepareBatchRollback keys startTs))
  | .garbageCollect _ => none

end MvccStorage

namespace Proposal

/-- The apply half. -/
def apply (proposal : Proposal) (σ : MvccStorage) (raftIndex : UInt64) (env : ApplyEnv) :
    TxnStatus × MvccStorage :=
  match proposal with
  | single key prepared => σ.applyPrepared key prepared raftIndex env
  | batch prepared => σ.applyPreparedBatch prepared raftIndex env

/-- The proposal holds what the storage prepares for the parts of a command, or nothing. -/
def Prepares (σ : MvccStorage) (parts : List KeyCommand) : Proposal → Prop
  | single key prepared =>
    prepared.modifications = [] ∨ ∃ c, parts = [c] ∧ c.key = key ∧ prepared.Prepares σ c
  | batch prepared => σ.BatchPrepares prepared parts

/-- The proposal carries mutations of its own keys. -/
def Carries : Proposal → Prop
  | single key prepared => ∃ mods, prepared.Carries key mods
  | batch prepared => MvccStorage.ItemsCarry prepared.items

end Proposal

variable {σ : MvccStorage} {proposal : Proposal}

/-- A command that is prepared and applied on one storage. -/
lemma MvccStorage.exec_eq_apply {step : Step} (h : σ.prepare step.command = some proposal) :
    σ.exec step = proposal.apply σ step.raftIndex step.env := by
  unfold exec
  cases hcommand : step.command
  all_goals
    rw [hcommand] at h
    cases h
    try rfl

lemma MvccStorage.BatchPrepares.itemsCarry {batch : PreparedMvccBatch}
    {parts : List KeyCommand} (h : σ.BatchPrepares batch parts) :
    MvccStorage.ItemsCarry batch.items := by
  intro item hitem
  obtain ⟨-, c, -, hkey, hprep⟩ := h.part item hitem
  exact hkey ▸ hprep.exists_carries

/-- Every prepare function builds mutations for the parts of its command. -/
lemma MvccStorage.prepare_prepares {command : Command} (h : σ.prepare command = some proposal) :
    proposal.Prepares σ command.parts := by
  cases command with
  | prewrite key value primaryKey startTs ttlMs isDelete forUpdateTs nowMs nowMs' =>
    cases h
    exact .inr ⟨_, rfl, rfl, σ.preparePrewrite_prepares key value primaryKey startTs forUpdateTs
      ttlMs isDelete nowMs nowMs' primaryKey.2⟩
  | pessimisticLock key primaryKey startTs ttlMs forUpdateTs expireAt nowMs =>
    cases h
    exact .inr ⟨_, rfl, rfl, σ.preparePessimisticLock_prepares key primaryKey startTs forUpdateTs
      ttlMs expireAt nowMs primaryKey.2⟩
  | prewriteLock key primaryKey startTs ttlMs forUpdateTs =>
    cases h
    exact .inr ⟨_, rfl, rfl, σ.preparePrewriteLock_prepares key primaryKey startTs forUpdateTs ttlMs
      primaryKey.2⟩
  | commit key startTs commitTs =>
    cases h
    exact .inr ⟨_, rfl, rfl, (σ.prepareCommit_prepares key startTs commitTs).1⟩
  | rollback key startTs =>
    cases h
    exact .inr ⟨_, rfl, rfl, σ.prepareRollback_prepares key startTs⟩
  | checkTxnStatus key startTs currentPhysicalMs rollbackIfExpired =>
    cases h
    rcases σ.prepareCheckTxnStatus_prepares key startTs currentPhysicalMs rollbackIfExpired with
      hnil | ⟨rfl, hprep⟩
    · exact .inl hnil
    · exact .inr ⟨_, rfl, rfl, hprep⟩
  | resolveLock key startTs decision commitTs =>
    cases h
    rcases σ.prepareResolveLock_prepares key startTs commitTs decision with
      ⟨heq, -, -⟩ | ⟨rfl, hne, hprep⟩ | ⟨rfl, hprep⟩
    · exact .inl (by rw [heq])
    · exact .inr ⟨_, if_pos ⟨rfl, hne⟩, rfl, hprep⟩
    · exact .inr ⟨_, rfl, rfl, hprep⟩
  | batchPrewrite mutations primaryKey startTs ttlMs forUpdateTs nowMs nowMs' =>
    cases h
    exact σ.prepareBatchPrewrite_prepares primaryKey startTs forUpdateTs mutations ttlMs nowMs nowMs'
      primaryKey.2
  | batchCommit keys startTs commitTs =>
    cases h
    exact σ.prepareBatchCommit_prepares startTs commitTs keys
  | batchRollback keys startTs =>
    cases h
    exact σ.prepareBatchRollback_prepares startTs keys
  | garbageCollect safePointTs => cases h

theorem MvccStorage.prepare_carries {command : Command}
    (h : σ.prepare command = some proposal) : proposal.Carries := by
  have hprepares := prepare_prepares h
  cases proposal with
  | single key prepared =>
    rcases hprepares with hnil | ⟨c, -, rfl, hprep⟩
    · exact ⟨[], .nil hnil⟩
    · exact hprep.exists_carries
  | batch prepared => exact hprepares.itemsCarry

end StrataKV.Mvcc
