import StrataKV.Lib.OrdMap
import StrataKV.Mvcc.Storage

/-!
# `MvccStorage` beside the prepared writes

The rest of what a Region's apply loop calls on its storage:

- the commands of the old protocol, which decide and write in one step and carry no Raft index;
- `applyPreparedCommandsAtomically`, one engine batch for a run of prepared commands;
- the reconstruction of the in-memory indexes from the engine, after a restart or a snapshot;
- the removal of a range of keys from the indexes.
-/

namespace StrataKV.Mvcc

open List MvccStorage
open Std (ExtTreeMap)

namespace MvccStorage

/-! ## The old protocol -/

variable (σ : MvccStorage)

/-- `PrewriteLocked`, behind `Prewrite` and `PrewriteDelete`. -/
def prewriteLocked (key value primaryKey : Bytes) (startTs : Ts) (ttlMs : UInt64)
    (isDelete : Bool) (forUpdateTs : Ts) (nowMs nowMs' : UInt64) (engineOk : Bool) :
    TxnStatus × MvccStorage :=
  if σ.locks[key]?.any fun lock => lock.startTs != startTs || !lock.isPessimistic ||
      lock.primaryKey != primaryKey || (forUpdateTs != 0 && forUpdateTs < lock.forUpdateTs) then
    (.lockConflict, σ)
  else if (σ.versionsOf key).hasRollback startTs then (.writeConflict, σ)
  else if (σ.versionsOf key).reaches startTs then (.writeConflict, σ)
  else if !engineOk then (.storageError, σ)
  else
    let lock := prewriteLockRecord σ.locks[key]? value primaryKey startTs ttlMs isDelete
      forUpdateTs nowMs nowMs'
    let data : KVBatchOp :=
      if isDelete then ⟨.delete, dataKey key startTs, []⟩ else ⟨.put, dataKey key startTs, value⟩
    (.ok,
      { σ with
        engine := writeBatch σ.engine
          [data, ⟨.put, lockKey key, encodeLockValue lock⟩, σ.revisionMutation key]
        locks := σ.locks.insert key lock
        revisions := σ.revisions.insert key (σ.currentRevision key + 1) })

/-- `Commit`; its checks are those of `PrepareCommit`, in the same order. -/
def commit (key : Bytes) (startTs commitTs : Ts) (engineOk : Bool) : TxnStatus × MvccStorage :=
  let prepared := σ.prepareCommit key startTs commitTs
  if prepared.status ≠ .ok then (prepared.status, σ)
  else if !engineOk then (.storageError, σ)
  else
    match σ.locks[key]? with
    | none => (.notFound, σ)
    | some lock =>
      (.ok,
        { σ with
          engine := writeBatch σ.engine prepared.modifications
          writes := σ.writes.insert key ((σ.versionsOf key).insert commitTs
            { startTs := startTs, commitTs := commitTs, type := lock.writeType })
          locks := σ.locks.erase key
          revisions := σ.revisions.insert key (σ.currentRevision key + 1) })

/-- `Rollback`; unlike `PrepareRollback` it writes its marker again when there is one. -/
def rollback (key : Bytes) (startTs : Ts) (engineOk : Bool) : TxnStatus × MvccStorage :=
  if (σ.versionsOf key).toList.any fun item =>
      item.2.startTs == startTs && item.2.type != .rollback then (.alreadyCommitted, σ)
  else if !engineOk then (.storageError, σ)
  else
    let locked := σ.locks[key]?.any fun lock => lock.startTs == startTs
    let marker : MvccWrite := { startTs := startTs, commitTs := startTs, type := .rollback }
    (.ok,
      { σ with
        engine := writeBatch σ.engine ((if locked then [⟨.delete, lockKey key, []⟩] else []) ++
          [⟨.delete, dataKey key startTs, []⟩,
            ⟨.put, writeKey key startTs, encodeWriteValue marker⟩, σ.revisionMutation key])
        writes := σ.writes.insert key ((σ.versionsOf key).insert startTs marker)
        locks := if locked then σ.locks.erase key else σ.locks
        revisions := σ.revisions.insert key (σ.currentRevision key + 1) })

/-- `AcquirePessimisticLock`. -/
def acquirePessimisticLock (key primaryKey : Bytes) (startTs : Ts)
    (ttlMs : UInt64) (forUpdateTs : Ts) (expireAtPhysicalMs nowMs : UInt64) (engineOk : Bool) :
    TxnStatus × MvccStorage :=
  match σ.locks[key]? with
  | some lock => (if lock.startTs = startTs then .ok else .lockConflict, σ)
  | none =>
    if (σ.versionsOf key).hasRollback startTs then (.writeConflict, σ)
    else if (σ.versionsOf key).reaches startTs then (.writeConflict, σ)
    else if !engineOk then (.storageError, σ)
    else
      let lock : MvccLock :=
        { primaryKey := primaryKey, startTs := startTs, ttlMs := ttlMs, createTimeMs := nowMs
          isDelete := false, isPessimistic := true
          forUpdateTs := requestedTs startTs forUpdateTs
          expireAtPhysicalMs := expireAtPhysicalMs, legacyExpiry := expireAtPhysicalMs = 0 }
      (.ok,
        { σ with
          engine := writeBatch σ.engine
            [⟨.put, lockKey key, encodeLockValue lock⟩, σ.revisionMutation key]
          locks := σ.locks.insert key lock
          revisions := σ.revisions.insert key (σ.currentRevision key + 1) })

end MvccStorage

/-! ## Runs of prepared commands -/

/-- `PreparedApplyCommand`: a single or a batch command with its Raft index. -/
inductive PreparedApplyCommand
  | single (raftIndex : UInt64) (key : Bytes) (prepared : PreparedMvccWrite)
  | batch (raftIndex : UInt64) (prepared : PreparedMvccBatch)

namespace PreparedApplyCommand

def raftIndex : PreparedApplyCommand → UInt64
  | single raftIndex .. => raftIndex
  | batch raftIndex _ => raftIndex

def modifications : PreparedApplyCommand → List KVBatchOp
  | single _ _ prepared => prepared.modifications
  | batch _ prepared => prepared.items.flatMap fun item => item.prepared.modifications

end PreparedApplyCommand

namespace MvccStorage

variable (σ : MvccStorage)

/-- The revision of a key with the staged revisions of the run before it. -/
def currentOrStagedRevision (staged : ExtTreeMap Bytes UInt64 compare) (key : Bytes) : UInt64 :=
  staged.getD key (σ.currentRevision key)

/-- The items of a batch on top of the staged revisions. -/
def stageItems (σ : MvccStorage) :
    ExtTreeMap Bytes UInt64 compare → Bytes → List PreparedMvccBatchItem →
      Option (ExtTreeMap Bytes UInt64 compare)
  | staged, _, [] => some staged
  | staged, previous, item :: rest =>
    if item.key = [] ∨ (previous ≠ [] ∧ item.key ≤ previous) ∨ item.prepared.status ≠ .ok then none
    else if item.prepared.modifications = [] then stageItems σ staged item.key rest
    else if item.prepared.newRevision ≠ item.prepared.expectedRevision + 1 ∨
        σ.currentOrStagedRevision staged item.key ≠ item.prepared.expectedRevision then none
    else stageItems σ (staged.insert item.key item.prepared.newRevision) item.key rest

/-- The checks of the commands of a run, each on top of the ones before it. -/
def stageCommands (σ : MvccStorage) :
    ExtTreeMap Bytes UInt64 compare → UInt64 → List PreparedApplyCommand →
      Option (ExtTreeMap Bytes UInt64 compare)
  | staged, _, [] => some staged
  | staged, prevRaftIndex, command :: rest =>
    if command.raftIndex = 0 ∨ command.raftIndex ≤ prevRaftIndex then none
    else
      match command with
      | .single raftIndex key prepared =>
        if (prepared.commandVersion ≠ PreparedMvccWrite.kLegacyCommandVersion ∧
              prepared.commandVersion ≠ PreparedMvccWrite.kCommandVersion) ∨
            prepared.status ≠ .ok ∨ prepared.modifications = [] ∨
            prepared.newRevision ≠ prepared.expectedRevision + 1 ∨
            σ.currentOrStagedRevision staged key ≠ prepared.expectedRevision then none
        else stageCommands σ (staged.insert key prepared.newRevision) raftIndex rest
      | .batch raftIndex prepared =>
        if prepared.commandVersion ≠ PreparedMvccBatch.kCommandVersion ∨ prepared.status ≠ .ok ∨
            prepared.items = [] then none
        else
          match stageItems σ staged [] prepared.items with
          | none => none
          | some staged => stageCommands σ staged raftIndex rest

/-- `ApplyPreparedCommandsAtomically`: whether the run was applied, and the new state. -/
def applyPreparedCommandsAtomically (commands : List PreparedApplyCommand)
    (env : ApplyEnv) : Bool × MvccStorage :=
  match commands.getLast? with
  | none => (false, σ)
  | some last =>
    match σ.stageCommands ∅ σ.appliedRaftIndex commands with
    | none => (false, σ)
    | some staged =>
      let modifications := commands.flatMap PreparedApplyCommand.modifications
      if modifications = [] ∨ !env.engineOk then (false, σ)
      else
        let σ' := modifications.foldl (applyMetadataMutation env.nowMs)
          (σ.commitBatch modifications last.raftIndex)
        if staged.toList.any fun item => σ'.currentRevision item.1 != item.2 then (false, σ')
        else (true, { σ' with appliedRaftIndex := last.raftIndex })

/-! ## Recovery -/

/-- `ScanPrefix`: the records whose key starts with the bytes, in the order of the keys. -/
def scanPrefix (engine : ExtTreeMap Bytes Bytes compare) (start : Bytes) : List (Bytes × Bytes) :=
  engine.toList.filter fun item => start.isPrefixOf item.1

/-- One record of the scan of `write/`. -/
def recoverWrite (writes : ExtTreeMap Bytes Versions compare) (item : Bytes × Bytes) :
    ExtTreeMap Bytes Versions compare :=
  match splitKeyTs (stripPrefix item.1 (ascii "write/")) with
  | none => writes
  | some (key, commitTs) =>
    match decodeWriteValue item.2 with
    | none => writes
    | some write =>
      writes.insert key ((writes.getD key ∅).insert commitTs { write with commitTs := commitTs })

/-- One record of the scan of `lock/`: a lock whose transaction has finished on the key is deleted
from the engine, any other one takes its value from the data record. -/
def recoverLock (nowMs : UInt64) (σ : MvccStorage) (item : Bytes × Bytes) : MvccStorage :=
  match decodeLockValue nowMs item.2 with
  | none => σ
  | some lock =>
    let key := stripPrefix item.1 (ascii "lock/")
    if ((σ.versionsOf key).recordOf lock.startTs).isSome then
      { σ with engine := σ.engine.erase (lockKey key) }
    else
      let value := if lock.isDelete then none else σ.engine[dataKey key lock.startTs]?
      { σ with locks := σ.locks.insert key { lock with value := value.getD [] } }

/-- `RecoverMetadataFromEngine`: the storage that opens the engine. -/
def recoverMetadataFromEngine (nowMs : UInt64) (engine : ExtTreeMap Bytes Bytes compare) :
    MvccStorage :=
  let opened : MvccStorage :=
    { engine := engine
      appliedRaftIndex := (engine[appliedRaftIndexKey]?.map decodeTs).getD 0
      revisions := (scanPrefix engine (ascii "meta/revision/")).foldl
        (fun revisions item => revisions.insert (stripPrefix item.1 (ascii "meta/revision/"))
          (decodeTs item.2)) ∅
      writes := (scanPrefix engine (ascii "write/")).foldl recoverWrite ∅ }
  (scanPrefix engine (ascii "lock/")).foldl (recoverLock nowMs) opened

/-- A key of the half-open range; an empty `rangeEnd` is no upper end. -/
def inRange (rangeBegin rangeEnd key : Bytes) : Bool :=
  !(key < rangeBegin) && (rangeEnd = [] || key < rangeEnd)

/-- `DropKeysInRange`: the indexes forget the keys of the range. -/
def dropKeysInRange (rangeBegin rangeEnd : Bytes) : MvccStorage :=
  { σ with
    locks := OrdMap.eraseWhere σ.locks (inRange rangeBegin rangeEnd)
    writes := OrdMap.eraseWhere σ.writes (inRange rangeBegin rangeEnd)
    revisions := OrdMap.eraseWhere σ.revisions (inRange rangeBegin rangeEnd) }

/-! ## The records that the old protocol writes -/

end MvccStorage

/-- A key of the data, lock, write or revision table. -/
def RecordKey (x : Bytes) : Prop :=
  (∃ key ts, x = dataKey key ts) ∨ (∃ key, x = lockKey key) ∨ (∃ key ts, x = writeKey key ts) ∨
    ∃ key, x = revisionKey key

namespace RecordKey

lemma data (key : Bytes) (ts : Ts) : RecordKey (dataKey key ts) := .inl ⟨key, ts, rfl⟩

lemma lock (key : Bytes) : RecordKey (lockKey key) := .inr (.inl ⟨key, rfl⟩)

lemma write (key : Bytes) (ts : Ts) : RecordKey (writeKey key ts) := .inr (.inr (.inl ⟨key, ts, rfl⟩))

lemma revision (key : Bytes) : RecordKey (revisionKey key) := .inr (.inr (.inr ⟨key, rfl⟩))

end RecordKey

namespace MvccStorage

/-- From `σ` to `τ` the engine has one batch of records more, and the applied index is the same. -/
structure WritesRecords (σ τ : MvccStorage) : Prop where
  engine : ∃ ops, τ.engine = writeBatch σ.engine ops ∧ ∀ op ∈ ops, RecordKey op.key
  appliedRaftIndex : τ.appliedRaftIndex = σ.appliedRaftIndex

section

variable {σ : MvccStorage}

section

variable (σ)

lemma WritesRecords.refl : σ.WritesRecords σ := ⟨⟨[], rfl, by simp⟩, rfl⟩

/-- The direct calls write records and never the applied index. -/
lemma writesRecords_prewriteLocked (key value primaryKey : Bytes) (startTs : Ts)
    (ttlMs : UInt64) (isDelete : Bool) (forUpdateTs : Ts) (nowMs nowMs' : UInt64)
    (engineOk : Bool) :
    σ.WritesRecords (σ.prewriteLocked key value primaryKey startTs ttlMs isDelete forUpdateTs nowMs
      nowMs' engineOk).2 := by
  unfold prewriteLocked
  split_ifs
  · exact .refl σ
  · exact .refl σ
  · exact .refl σ
  · exact .refl σ
  -- the data record is put or deleted
  all_goals
    refine ⟨⟨_, rfl, fun op hop => ?_⟩, rfl⟩
    simp only [mem_cons, not_mem_nil, or_false] at hop
    rcases hop with rfl | rfl | rfl
    · exact .data key startTs
    · exact .lock key
    · exact .revision key

lemma writesRecords_commit (key : Bytes) (startTs commitTs : Ts)
    (engineOk : Bool) : σ.WritesRecords (σ.commit key startTs commitTs engineOk).2 := by
  have hkeys : ∀ op ∈ (σ.prepareCommit key startTs commitTs).modifications, RecordKey op.key := by
    intro op hop
    have hop' : op ∈ ([⟨.put, writeKey key commitTs, op.value⟩, ⟨.delete, lockKey key, []⟩,
        σ.revisionMutation key] : List KVBatchOp) := by
      unfold prepareCommit at hop
      grind
    simp only [mem_cons, not_mem_nil, or_false] at hop'
    rcases hop' with heq | rfl | rfl
    · rw [heq]
      exact .write key commitTs
    · exact .lock key
    · exact .revision key
  unfold commit
  dsimp only
  split_ifs
  · exact .refl σ
  · exact .refl σ
  · split
    · exact .refl σ
    · exact ⟨⟨_, rfl, hkeys⟩, rfl⟩

lemma writesRecords_rollback (key : Bytes) (startTs : Ts) (engineOk : Bool) :
    σ.WritesRecords (σ.rollback key startTs engineOk).2 := by
  unfold rollback
  split_ifs
  · exact .refl σ
  · exact .refl σ
  · refine ⟨⟨_, rfl, fun op hop => ?_⟩, rfl⟩
    rcases mem_append.1 hop with hop | hop
    · split at hop
      · rw [mem_singleton.1 hop]
        exact .lock key
      · cases hop
    · simp only [mem_cons, not_mem_nil, or_false] at hop
      rcases hop with rfl | rfl | rfl
      · exact .data key startTs
      · exact .write key startTs
      · exact .revision key

lemma writesRecords_acquirePessimisticLock (key primaryKey : Bytes)
    (startTs : Ts) (ttlMs : UInt64) (forUpdateTs : Ts) (expireAtPhysicalMs nowMs : UInt64)
    (engineOk : Bool) :
    σ.WritesRecords (σ.acquirePessimisticLock key primaryKey startTs ttlMs forUpdateTs
      expireAtPhysicalMs nowMs engineOk).2 := by
  unfold acquirePessimisticLock
  split
  · exact .refl σ
  · split_ifs
    · exact .refl σ
    · exact .refl σ
    · exact .refl σ
    · refine ⟨⟨_, rfl, fun op hop => ?_⟩, rfl⟩
      simp only [mem_cons, not_mem_nil, or_false] at hop
      rcases hop with rfl | rfl
      · exact .lock key
      · exact .revision key

lemma writesRecords_garbageCollect (safePointTs : Ts) (engineOk : Bool) :
    σ.WritesRecords (σ.garbageCollect safePointTs engineOk).2 := by
  unfold garbageCollect
  dsimp only
  split_ifs
  · exact .refl σ
  · refine ⟨⟨_, rfl, fun op hop => ?_⟩, rfl⟩
    rcases mem_append.1 hop with hop | hop
    · obtain ⟨item, -, hop⟩ := mem_flatMap.1 hop
      obtain ⟨version, -, hop⟩ := mem_flatMap.1 hop
      rcases mem_append.1 hop with hop | hop
      · split at hop
        · rw [mem_singleton.1 hop]
          exact .data _ _
        · cases hop
      · rw [mem_singleton.1 hop]
        exact .write _ _
    · obtain ⟨item, -, rfl⟩ := mem_map.1 hop
      exact .revision _

end

end

/-! ## The applied index -/

section

variable {σ : MvccStorage}

/-- A batch leaves the keys alone that it does not name. -/
lemma getElem?_writeBatch_of_forall_ne (engine : ExtTreeMap Bytes Bytes compare)
    {ops : List KVBatchOp} {key : Bytes} (h : ∀ op ∈ ops, op.key ≠ key) :
    (writeBatch engine ops)[key]? = engine[key]? := by
  induction ops generalizing engine with
  | nil => rfl
  | cons op rest ih =>
    have hop : op.key ≠ key := h op mem_cons_self
    have hrest := ih (applyOp engine op) fun op hop => h op (mem_cons_of_mem _ hop)
    refine hrest.trans ?_
    unfold applyOp
    split
    · simp [ExtTreeMap.getElem?_insert, hop]
    · simp [ExtTreeMap.getElem?_erase, hop]

/-- Its last put decides. -/
lemma getElem?_writeBatch_concat_put (engine : ExtTreeMap Bytes Bytes compare)
    (ops : List KVBatchOp) (key value : Bytes) :
    (writeBatch engine (ops ++ [⟨.put, key, value⟩]))[key]? = some value := by
  unfold writeBatch
  rw [foldl_append]
  simp [applyOp]

/-- Updating the indexes touches neither engine nor applied index. -/
lemma foldl_applyMetadataMutation_applied (nowMs : UInt64) (ops : List KVBatchOp)
    (σ : MvccStorage) :
    (ops.foldl (applyMetadataMutation nowMs) σ).engine = σ.engine ∧
      (ops.foldl (applyMetadataMutation nowMs) σ).appliedRaftIndex = σ.appliedRaftIndex := by
  induction ops generalizing σ with
  | nil => exact ⟨rfl, rfl⟩
  | cons op rest ih =>
    have hop : (applyMetadataMutation nowMs σ op).engine = σ.engine ∧
        (applyMetadataMutation nowMs σ op).appliedRaftIndex = σ.appliedRaftIndex := by
      unfold applyMetadataMutation
      repeat' split
      all_goals exact ⟨rfl, rfl⟩
    rw [foldl_cons, (ih _).1, (ih _).2]
    exact hop

variable {staged staged' : ExtTreeMap Bytes UInt64 compare} {previous : UInt64}

/-- The first command of a staged run has a later index, and the rest is staged on top of it. -/
lemma stageCommands_cons {command : PreparedApplyCommand} {rest : List PreparedApplyCommand}
    (h : σ.stageCommands staged previous (command :: rest) = some staged') :
    command.raftIndex ≠ 0 ∧ previous < command.raftIndex ∧
      ∃ inner, σ.stageCommands inner command.raftIndex rest = some staged' := by
  unfold stageCommands at h
  split_ifs at h with hindex
  simp only [not_or] at hindex
  refine ⟨hindex.1, UInt64.not_le.1 hindex.2, ?_⟩
  cases command with
  | single index key prepared =>
    dsimp only at h
    split_ifs at h
    exact ⟨_, h⟩
  | batch index prepared =>
    dsimp only at h
    split_ifs at h
    cases hitems : σ.stageItems staged [] prepared.items with
    | none => simp [hitems] at h
    | some inner =>
      rw [hitems] at h
      exact ⟨inner, h⟩

variable {commands : List PreparedApplyCommand}

section

variable (h : σ.stageCommands staged previous commands = some staged')

include h

lemma raftIndex_ne_zero_of_stageCommands : ∀ command ∈ commands, command.raftIndex ≠ 0 := by
  induction commands generalizing staged previous with
  | nil => simp
  | cons command rest ih =>
    obtain ⟨hindex, -, inner, hrest⟩ := stageCommands_cons h
    exact forall_mem_cons.2 ⟨hindex, ih hrest⟩

/-- Staged commands have ascending indexes. -/
lemma raftIndex_isChain_of_stageCommands :
    (previous :: commands.map PreparedApplyCommand.raftIndex).IsChain (· < ·) := by
  induction commands generalizing staged previous with
  | nil => exact isChain_singleton _
  | cons command rest ih =>
    obtain ⟨-, hlt, inner, hrest⟩ := stageCommands_cons h
    exact isChain_cons_cons.2 ⟨hlt, ih hrest⟩

end

end

end MvccStorage

end StrataKV.Mvcc
