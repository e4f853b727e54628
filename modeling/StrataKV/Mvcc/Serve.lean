import StrataKV.Mvcc.TxnRecord

/-!
# Requests and their replies

A region serves a request by preparing it and, if there is something to apply, applying it. The
reply is the status of the one or the other. The lemmas say what a reply tells about the fate of the
transaction it is about.
-/

namespace StrataKV.Mvcc

open List PreparedMvccWrite

/-- What a caller gets to know; `record` is the answer of a status check. -/
structure Reply where
  status : TxnStatus
  record : TxnRecordStatus := {}
  deriving DecidableEq

/-- `ResolveLock` reports a key that is committed already as resolved. -/
def Reply.resolved (reply : Reply) : Reply :=
  { reply with status := if reply.status = .alreadyCommitted then .ok else reply.status }

def PreparedMvccBatch.hasChanges (prepared : PreparedMvccBatch) : Bool :=
  prepared.status == .ok && prepared.items.any fun item => item.prepared.hasChanges

variable {c : KeyCommand}

lemma PreparedMvccWrite.Prepares.done_of_not_hasChanges {prepared : PreparedMvccWrite}
    {σ : MvccStorage} (h : prepared.Prepares σ c) (hok : prepared.status = .ok)
    (hchanges : prepared.hasChanges = false) : KeyDone c (σ.view c.key) := by
  have hnil : prepared.modifications = [] := by simpa [hasChanges, hok] using hchanges
  cases h with
  | refused _ status => exact absurd hok status
  | done _ _ done => exact done
  | changes _ mods carries ne_nil =>
    have hops := carries.ops
    rw [hnil] at hops
    exact absurd (map_eq_nil_iff.1 hops.symm) ne_nil

namespace MvccStorage

/-- A prepared write without changes is answered with its own status. -/
def serveWrite (σ : MvccStorage) (key : Bytes) (prepared : PreparedMvccWrite) (raftIndex : UInt64)
    (env : ApplyEnv) : Reply × MvccStorage :=
  if prepared.hasChanges then
    let result := σ.applyPrepared key prepared raftIndex env
    (⟨result.1, prepared.txnRecordStatus⟩, result.2)
  else (⟨prepared.status, prepared.txnRecordStatus⟩, σ)

def serveBatch (σ : MvccStorage) (prepared : PreparedMvccBatch) (raftIndex : UInt64)
    (env : ApplyEnv) : Reply × MvccStorage :=
  if prepared.hasChanges then
    let result := σ.applyPreparedBatch prepared raftIndex env
    (⟨result.1, {}⟩, result.2)
  else (⟨prepared.status, {}⟩, σ)

def serve (σ : MvccStorage) (step : Step) : Reply × MvccStorage :=
  let single (key : Bytes) (prepared : PreparedMvccWrite) :=
    σ.serveWrite key prepared step.raftIndex step.env
  let batch (prepared : PreparedMvccBatch) := σ.serveBatch prepared step.raftIndex step.env
  match step.command with
  | .prewrite key value primaryKey startTs ttlMs isDelete forUpdateTs nowMs nowMs' =>
    single key (σ.preparePrewrite key value primaryKey startTs ttlMs isDelete forUpdateTs
      nowMs nowMs')
  | .pessimisticLock key primaryKey startTs ttlMs forUpdateTs expireAt nowMs =>
    single key (σ.preparePessimisticLock key primaryKey startTs ttlMs forUpdateTs expireAt nowMs)
  | .prewriteLock key primaryKey startTs ttlMs forUpdateTs =>
    single key (σ.preparePrewriteLock key primaryKey startTs ttlMs forUpdateTs)
  | .commit key startTs commitTs => single key (σ.prepareCommit key startTs commitTs)
  | .rollback key startTs => single key (σ.prepareRollback key startTs)
  | .checkTxnStatus primaryKey startTs currentPhysicalMs rollbackIfExpired =>
    single primaryKey
      (σ.prepareCheckTxnStatus primaryKey startTs currentPhysicalMs rollbackIfExpired)
  | .resolveLock key startTs decision commitTs =>
    let result := single key (σ.prepareResolveLock key startTs decision commitTs)
    (result.1.resolved, result.2)
  | .batchPrewrite mutations primaryKey startTs ttlMs forUpdateTs nowMs nowMs' =>
    batch (σ.prepareBatchPrewrite mutations primaryKey startTs ttlMs forUpdateTs nowMs nowMs')
  | .batchCommit keys startTs commitTs => batch (σ.prepareBatchCommit keys startTs commitTs)
  | .batchRollback keys startTs => batch (σ.prepareBatchRollback keys startTs)
  | .garbageCollect safePointTs =>
    (⟨.ok, {}⟩, (σ.garbageCollect safePointTs step.env.engineOk).2)

section

variable {σ : MvccStorage} {raftIndex : UInt64} {env : ApplyEnv}

lemma serveWrite_state (key : Bytes) (prepared : PreparedMvccWrite) :
    (σ.serveWrite key prepared raftIndex env).2 = σ ∨ (σ.serveWrite key prepared raftIndex env).2 =
        (σ.applyPrepared key prepared raftIndex env).2 := by
  unfold serveWrite
  split
  · exact .inr rfl
  · exact .inl rfl

lemma serveBatch_state (prepared : PreparedMvccBatch) :
    (σ.serveBatch prepared raftIndex env).2 = σ ∨ (σ.serveBatch prepared raftIndex env).2 =
        (σ.applyPreparedBatch prepared raftIndex env).2 := by
  unfold serveBatch
  split
  · exact .inr rfl
  · exact .inl rfl

/-- Serving changes the state as a step of a run does, or not at all. -/
lemma serve_state (σ : MvccStorage) (step : Step) :
    (σ.serve step).2 = σ ∨ (σ.serve step).2 = (σ.exec step).2 := by
  obtain ⟨command, raftIndex, env⟩ := step
  cases command with
  | batchPrewrite | batchCommit | batchRollback => exact serveBatch_state _
  | garbageCollect => exact .inr rfl
  | _ => exact serveWrite_state _ _

/-- What serving does to a key. -/
theorem serve_view (σ : MvccStorage) (step : Step)
    (hcollect : ∀ safePointTs, step.command ≠ .garbageCollect safePointTs) (k : Bytes) :
    (σ.serve step).2.view k = σ.view k ∨
      ∃ c ∈ step.command.parts, c.key = k ∧ KeyStep c (σ.view k) ((σ.serve step).2.view k) := by
  rcases σ.serve_state step with hid | hexec
  · exact .inl (by rw [hid])
  · rw [hexec]
    rcases σ.exec_view step k with hid | hstep | ⟨safePointTs, hcommand, -⟩
    · exact .inl hid
    · exact .inr hstep
    · exact absurd hcommand (hcollect safePointTs)

lemma applyPrepared_status (key : Bytes) (prepared : PreparedMvccWrite) :
    (σ.applyPrepared key prepared raftIndex env).1 = .ok ∨
      (σ.applyPrepared key prepared raftIndex env).1 = .storageError := by
  unfold applyPrepared
  dsimp only
  split_ifs <;> simp

lemma applyPreparedBatch_status (prepared : PreparedMvccBatch) :
    (σ.applyPreparedBatch prepared raftIndex env).1 = .ok ∨
      (σ.applyPreparedBatch prepared raftIndex env).1 = .storageError := by
  unfold applyPreparedBatch
  split
  · simp
  split
  · simp
  split
  · simp
  split
  · simp
  dsimp only
  split <;> simp

/-- A reply that is not about the apply is about the prepare, and nothing was applied. -/
lemma serveWrite_alreadyCommitted {key : Bytes} {prepared : PreparedMvccWrite} :
    let result := σ.serveWrite key prepared raftIndex env
    result.1.status = .alreadyCommitted → prepared.status = .alreadyCommitted ∧ result.2 = σ := by
  unfold serveWrite
  dsimp only
  split
  · rcases @applyPrepared_status σ raftIndex env key prepared with hs | hs <;> simp [hs]
  · exact fun h => ⟨h, rfl⟩

lemma serveBatch_alreadyCommitted {prepared : PreparedMvccBatch} :
    let result := σ.serveBatch prepared raftIndex env
    result.1.status = .alreadyCommitted → prepared.status = .alreadyCommitted ∧ result.2 = σ := by
  unfold serveBatch
  dsimp only
  split
  · rcases @applyPreparedBatch_status σ raftIndex env prepared with hs | hs <;> simp [hs]
  · exact fun h => ⟨h, rfl⟩

lemma serveWrite_ok {prepared : PreparedMvccWrite} (hprep : prepared.Prepares σ c)
    (hstale : ¬σ.Stale raftIndex)
    (hok : (σ.serveWrite c.key prepared raftIndex env).1.status = .ok) :
    KeyStep c (σ.view c.key) ((σ.serveWrite c.key prepared raftIndex env).2.view c.key) ∨
      KeyDone c (σ.view c.key) ∧
        (σ.serveWrite c.key prepared raftIndex env).2.view c.key = σ.view c.key := by
  unfold serveWrite at hok ⊢
  split_ifs with hchanges
  · rw [if_pos hchanges] at hok
    rcases @applyPrepared_outcome σ raftIndex env prepared c hprep with ⟨-, hs⟩ | ⟨-, -, hout⟩
    · exact absurd (hs hok) hstale
    · rcases hout c.key with ⟨hnone, -⟩ | ⟨c', hmem, -, -, hstep | ⟨hdone, hid⟩⟩
      · exact absurd rfl (hnone c (mem_singleton_self c))
      · rw [mem_singleton.1 hmem] at hstep
        exact .inl hstep
      · rw [mem_singleton.1 hmem] at hdone
        exact .inr ⟨hdone, hid⟩
  · rw [if_neg hchanges] at hok
    exact .inr ⟨hprep.done_of_not_hasChanges hok (eq_false_of_ne_true hchanges), rfl⟩

/-- A command of a batch that is answered with `ok` is done, if it is the only one of its key. -/
lemma serveBatch_ok {batch : PreparedMvccBatch} {parts : List KeyCommand}
    (hprep : σ.BatchPrepares batch parts) (hstale : ¬σ.Stale raftIndex)
    (hok : (σ.serveBatch batch raftIndex env).1.status = .ok) (hc : c ∈ parts)
    (hunique : ∀ c' ∈ parts, c'.key = c.key → c' = c) :
    KeyStep c (σ.view c.key) ((σ.serveBatch batch raftIndex env).2.view c.key) ∨
      KeyDone c (σ.view c.key) ∧
        (σ.serveBatch batch raftIndex env).2.view c.key = σ.view c.key := by
  unfold serveBatch at hok ⊢
  split_ifs with hchanges
  · rw [if_pos hchanges] at hok
    rcases @applyPreparedBatch_outcome σ raftIndex env parts batch hprep with ⟨-, hs⟩ | ⟨-, -, hout⟩
    · exact absurd (hs hok) hstale
    · rcases hout c.key with ⟨hnone, -⟩ | ⟨c', hmem, hkey, -, hstep | ⟨hdone, hid⟩⟩
      · exact absurd rfl (hnone c hc)
      · rw [hunique c' hmem hkey] at hstep
        exact .inl hstep
      · rw [hunique c' hmem hkey] at hdone
        exact .inr ⟨hdone, hid⟩
  · rw [if_neg hchanges] at hok
    have hok : batch.status = .ok := hok
    obtain ⟨item, hitem, hkey⟩ := hprep.item hok c hc
    obtain ⟨hstatus, c', hc', hkey', hitemPrep⟩ := hprep.part item hitem
    rw [hunique c' hc' (hkey'.trans hkey)] at hitemPrep
    refine .inr ⟨hitemPrep.done_of_not_hasChanges hstatus ?_, rfl⟩
    by_contra hitemChanges
    refine hchanges ?_
    simp only [PreparedMvccBatch.hasChanges, hok, beq_self_eq_true, Bool.true_and, any_eq_true]
    exact ⟨item, hitem, by simpa using hitemChanges⟩

/-! ## What replies tell about a transaction -/

variable {key : Bytes} {startTs : Ts}

lemma prepareRollback_alreadyCommitted
    (h : (σ.prepareRollback key startTs).status = .alreadyCommitted) :
    (σ.view key).Committed startTs := by
  unfold prepareRollback at h
  split at h
  · rename_i c write hrecord
    obtain ⟨hget, hstart⟩ := Versions.recordOf_eq_some hrecord
    refine ⟨c, write, hget, hstart, fun htype => ?_⟩
    simp [htype] at h
  · simp at h

lemma prepareItems_status (prepare : Bytes → PreparedMvccWrite) (items : List PreparedMvccBatchItem)
    (keys : List Bytes) (h : (prepareItems prepare items keys).status ≠ .ok) :
    ∃ key ∈ keys, (prepare key).status = (prepareItems prepare items keys).status := by
  induction keys generalizing items with
  | nil => simp [prepareItems] at h
  | cons key rest ih =>
    unfold prepareItems at h ⊢
    dsimp only at h ⊢
    split_ifs with hok
    · exact ⟨key, mem_cons_self, rfl⟩
    · rw [if_neg hok] at h
      obtain ⟨key', hmem, hstatus⟩ := ih _ h
      exact ⟨key', mem_cons_of_mem _ hmem, hstatus⟩

end

end MvccStorage

/-- What a reply tells about the fate of the command's transaction on the keys of the command. -/
def Reply.Tells (isStart : Ts → Prop) (view : Bytes → KeyView) (command : Command) (reply : Reply) :
    Prop :=
  match command with
  | .commit key startTs _ =>
    reply.status = .ok ∨ reply.status = .alreadyCommitted → (view key).Committed startTs
  | .rollback key startTs =>
    (reply.status = .ok → (view key).RolledBack startTs) ∧
      (reply.status = .alreadyCommitted → (view key).Committed startTs)
  | .batchRollback keys startTs =>
    (reply.status = .ok → ∀ key ∈ keys, (view key).RolledBack startTs) ∧
      (reply.status = .alreadyCommitted → ∃ key ∈ keys, (view key).Committed startTs)
  | .checkTxnStatus key startTs _ _ =>
    reply.status = .ok → (reply.record.state = .committed →
        (view key).Committed startTs ∧ ¬isStart reply.record.commitTs) ∧
      (reply.record.state = .rolledBack → (view key).RolledBack startTs)
  | .resolveLock key startTs decision _ =>
    decision = .rolledBack → reply.status = .ok →
      (view key).RolledBack startTs ∨ (view key).Committed startTs
  | _ => True

namespace Reply.Tells

variable {isStart : Ts → Prop} {view view' : Bytes → KeyView} {command : Command} {reply : Reply}

/-- What was told stays true while fates do not change. -/
lemma mono (h : reply.Tells isStart view command)
    (hcommitted : ∀ key startTs, (view key).Committed startTs → (view' key).Committed startTs)
    (hrolledBack : ∀ key startTs, (view key).RolledBack startTs → (view' key).RolledBack startTs) :
    reply.Tells isStart view' command := by
  cases command with
  | commit key startTs commitTs => exact fun hs => hcommitted _ _ (h hs)
  | rollback key startTs =>
    exact ⟨fun hs => hrolledBack _ _ (h.1 hs), fun hs => hcommitted _ _ (h.2 hs)⟩
  | batchRollback keys startTs =>
    refine ⟨fun hs key hkey => hrolledBack _ _ (h.1 hs key hkey), fun hs => ?_⟩
    obtain ⟨key, hkey, hc⟩ := h.2 hs
    exact ⟨key, hkey, hcommitted _ _ hc⟩
  | checkTxnStatus key startTs currentPhysicalMs rollbackIfExpired =>
    intro hs
    refine ⟨fun hstate => ?_, fun hstate => hrolledBack _ _ ((h hs).2 hstate)⟩
    exact ⟨hcommitted _ _ ((h hs).1 hstate).1, ((h hs).1 hstate).2⟩
  | resolveLock key startTs decision commitTs =>
    intro hd hs
    exact (h hd hs).imp (hrolledBack _ _) (hcommitted _ _)
  | _ => trivial

end Reply.Tells

namespace MvccStorage

variable {σ : MvccStorage} {isStart : Ts → Prop}

lemma inspectTxnStatus_tells {key : Bytes} {startTs : Ts} (hinv : TxnInv isStart (σ.view key)) :
    let status := σ.inspectTxnStatus key startTs
    (status.state = .committed → (σ.view key).Committed startTs ∧ ¬isStart status.commitTs) ∧
      (status.state = .rolledBack → (σ.view key).RolledBack startTs) := by
  unfold inspectTxnStatus
  dsimp only
  split
  · rename_i c write hrecord
    obtain ⟨hget, hstart⟩ := Versions.recordOf_eq_some hrecord
    split_ifs with htype
    · exact ⟨nofun, fun _ => ⟨c, write, hget, hstart, htype⟩⟩
    · exact ⟨fun _ => ⟨⟨c, write, hget, hstart, htype⟩, hinv.commit_apart c write hget htype⟩, nofun⟩
  · split
    · split <;> exact ⟨nofun, nofun⟩
    · exact ⟨nofun, nofun⟩

/-- A status check answers what it inspects, or rolls back the transaction's expired lock. -/
lemma prepareCheckTxnStatus_record (σ : MvccStorage) (key : Bytes) (startTs : Ts)
    (currentPhysicalMs : UInt64) (rollbackIfExpired : Bool) :
    let prepared := σ.prepareCheckTxnStatus key startTs currentPhysicalMs rollbackIfExpired
    (prepared.modifications = [] ∧ prepared.txnRecordStatus = σ.inspectTxnStatus key startTs) ∨
      (prepared.Prepares σ (.rollback key startTs) ∧
        prepared.txnRecordStatus.state ≠ .committed) := by
  unfold prepareCheckTxnStatus
  dsimp only
  split
  · exact .inl ⟨rfl, rfl⟩
  split
  · exact .inl ⟨rfl, rfl⟩
  split
  · exact .inl ⟨rfl, rfl⟩
  have hprep := σ.prepareRollback_prepares key startTs
  right
  split
  · exact ⟨hprep.congr rfl rfl rfl, by simp⟩
  · refine ⟨hprep, ?_⟩
    unfold prepareRollback
    split <;> simp

section

variable {raftIndex : UInt64} {env : ApplyEnv} {key : Bytes} {startTs commitTs : Ts}
  (hstale : ¬σ.Stale raftIndex)

include hstale

lemma serve_commit_tells (hinv : ∀ key, TxnInv isStart (σ.view key)) :
    let result := σ.serve ⟨.commit key startTs commitTs, raftIndex, env⟩
    result.1.Tells isStart result.2.view (.commit key startTs commitTs) := by
  obtain ⟨hprep, hdone⟩ := σ.prepareCommit_prepares key startTs commitTs
  rintro result (hok | halready)
  · rcases serveWrite_ok hprep hstale hok with hstep | ⟨hd, hid⟩
    · exact hstep.committed
    · exact hid.symm ▸ (hinv key).committed_of_done hd
  · obtain ⟨hstatus, hid⟩ := serveWrite_alreadyCommitted halready
    exact (congrArg (·.view key) hid).symm ▸ (hinv key).committed_of_done (hdone hstatus)

/-- The reply to a rollback, before a resolution turns `AlreadyCommitted` into `Ok`. -/
lemma serveWrite_rollback_tells {prepared : PreparedMvccWrite}
    (hprep : prepared.Prepares σ (.rollback key startTs))
    (hstatus : prepared.status = (σ.prepareRollback key startTs).status) :
    let result := σ.serveWrite key prepared raftIndex env
    (result.1.status = .ok → (result.2.view key).RolledBack startTs) ∧
      (result.1.status = .alreadyCommitted → (result.2.view key).Committed startTs) := by
  refine ⟨fun hok => ?_, fun halready => ?_⟩
  · rcases serveWrite_ok hprep hstale hok with hstep | ⟨hd, hid⟩
    · exact hstep.rolledBack
    · exact hid.symm ▸ hd.rolledBack
  · obtain ⟨hs, hid⟩ := serveWrite_alreadyCommitted halready
    exact (congrArg (·.view key) hid).symm ▸ prepareRollback_alreadyCommitted (hstatus.symm.trans hs)

lemma serve_batchRollback_tells (keys : List Bytes) :
    let result := σ.serve ⟨.batchRollback keys startTs, raftIndex, env⟩
    result.1.Tells isStart result.2.view (.batchRollback keys startTs) := by
  have hprep := σ.prepareBatchRollback_prepares startTs keys
  refine ⟨fun hok key hkey => ?_, fun halready => ?_⟩
  · have hunique : ∀ c' ∈ keys.map fun key => KeyCommand.rollback key startTs,
        c'.key = (KeyCommand.rollback key startTs).key → c' = .rollback key startTs := by
      intro c' hc' heq
      obtain ⟨key', -, rfl⟩ := mem_map.1 hc'
      exact congrArg (KeyCommand.rollback · startTs) heq
    rcases serveBatch_ok hprep hstale hok (mem_map.2 ⟨key, hkey, rfl⟩) hunique with
      hstep | ⟨hd, hid⟩
    · exact hstep.rolledBack
    · exact hid.symm ▸ hd.rolledBack
  · obtain ⟨hs, hid⟩ := serveBatch_alreadyCommitted halready
    have hkey : ∃ key ∈ keys, (σ.prepareRollback key startTs).status = .alreadyCommitted := by
      unfold prepareBatchRollback at hs
      dsimp only at hs
      split_ifs at hs
      obtain ⟨key, hmem, hk⟩ := prepareItems_status _ _ _ (by rw [hs]; simp)
      exact ⟨key, mem_orderedKeys.1 hmem, hk.trans hs⟩
    obtain ⟨key, hmem, hk⟩ := hkey
    exact ⟨key, hmem, (congrArg (·.view key) hid).symm ▸ prepareRollback_alreadyCommitted hk⟩

lemma serve_checkTxnStatus_tells (hinv : ∀ key, TxnInv isStart (σ.view key))
    (currentPhysicalMs : UInt64) (rollbackIfExpired : Bool) :
    let command := .checkTxnStatus key startTs currentPhysicalMs rollbackIfExpired
    let result := σ.serve ⟨command, raftIndex, env⟩
    result.1.Tells isStart result.2.view command := by
  intro command result hok
  have hrecord : result.1.record =
      (σ.prepareCheckTxnStatus key startTs currentPhysicalMs rollbackIfExpired).txnRecordStatus := by
    show (σ.serveWrite key _ raftIndex env).1.record = _
    unfold serveWrite
    split <;> rfl
  rw [hrecord]
  rcases σ.prepareCheckTxnStatus_record key startTs currentPhysicalMs rollbackIfExpired with
    ⟨hnil, hinspect⟩ | ⟨hprep, hstate⟩
  · have hid : result.2 = σ := by
      show (σ.serveWrite key _ raftIndex env).2 = _
      simp [serveWrite, hasChanges, hnil]
    rw [hinspect, hid]
    exact inspectTxnStatus_tells (hinv key)
  · refine ⟨fun hc => absurd hc hstate, fun _ => ?_⟩
    rcases serveWrite_ok hprep hstale hok with hstep | ⟨hd, hid⟩
    · exact hstep.rolledBack
    · exact hid.symm ▸ hd.rolledBack

lemma serve_resolveLock_tells (decision : TxnRecordState) :
    let command := .resolveLock key startTs decision commitTs
    let result := σ.serve ⟨command, raftIndex, env⟩
    result.1.Tells isStart result.2.view command := by
  rintro command result rfl hok
  have hprep : (σ.prepareResolveLock key startTs .rolledBack commitTs).Prepares σ
      (.rollback key startTs) := (σ.prepareRollback_prepares key startTs).congr rfl rfl rfl
  have htells := @serveWrite_rollback_tells σ raftIndex env key startTs hstale _ hprep rfl
  have hstatus : (if (σ.serveWrite key (σ.prepareResolveLock key startTs .rolledBack commitTs)
      raftIndex env).1.status = .alreadyCommitted then TxnStatus.ok
      else (σ.serveWrite key (σ.prepareResolveLock key startTs .rolledBack commitTs)
        raftIndex env).1.status) = .ok := hok
  split_ifs at hstatus with halready
  · exact .inr (htells.2 halready)
  · exact .inl (htells.1 hstatus)

end

/-- Every reply tells the truth about the state it was served in. -/
theorem serve_tells (hinv : ∀ key, TxnInv isStart (σ.view key)) (step : Step)
    (hstale : ¬σ.Stale step.raftIndex) :
    (σ.serve step).1.Tells isStart (σ.serve step).2.view step.command := by
  obtain ⟨command, raftIndex, env⟩ := step
  cases command with
  | commit => exact serve_commit_tells hstale hinv
  | rollback key startTs =>
    exact serveWrite_rollback_tells hstale (σ.prepareRollback_prepares key startTs) rfl
  | batchRollback keys => exact serve_batchRollback_tells hstale keys
  | checkTxnStatus => exact serve_checkTxnStatus_tells hstale hinv _ _
  | resolveLock => exact serve_resolveLock_tells hstale _
  | _ => trivial

end MvccStorage

end StrataKV.Mvcc
