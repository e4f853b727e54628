import Std.Data.ExtTreeMap
import StrataKV.Mvcc.Codec

/-!
# `MvccStorage`

The storage of one region: an ordered key-value engine and, in memory, the lock table, the
version chain of every key, the per-key revisions and the last applied Raft index.

Writes go in two halves. A `prepare*` function reads the current state and returns the engine
mutations together with the key's expected revision; `applyPrepared` checks the revision,
writes the batch and replays the mutations on the in-memory indexes. Where the source reads
a clock, the reading is an argument.
-/

namespace StrataKV.Mvcc

open Decimal
open Std (ExtTreeMap)

/-- The versions of one key, by commit timestamp. -/
abbrev Versions := ExtTreeMap Ts MvccWrite compare

structure MvccStorage where
  engine : ExtTreeMap Bytes Bytes compare := ∅
  locks : ExtTreeMap Bytes MvccLock compare := ∅
  writes : ExtTreeMap Bytes Versions compare := ∅
  revisions : ExtTreeMap Bytes UInt64 compare := ∅
  appliedRaftIndex : UInt64 := 0

/-- A storage over an empty engine. -/
def MvccStorage.empty : MvccStorage := {}

/-! ## The engine -/

def applyOp (engine : ExtTreeMap Bytes Bytes compare) (op : KVBatchOp) :
    ExtTreeMap Bytes Bytes compare :=
  match op.type with
  | .put => engine.insert op.key op.value
  | .delete => engine.erase op.key

/-- A write batch that the engine accepts. -/
def writeBatch (engine : ExtTreeMap Bytes Bytes compare) (ops : List KVBatchOp) :
    ExtTreeMap Bytes Bytes compare :=
  ops.foldl applyOp engine

/-! ## Reads -/

namespace MvccStorage

/-- The chain of a key; a key without one behaves as a key with an empty one. -/
def versionsOf (σ : MvccStorage) (key : Bytes) : Versions := σ.writes.getD key ∅

def currentRevision (σ : MvccStorage) (key : Bytes) : UInt64 := σ.revisions.getD key 0

end MvccStorage

namespace Versions

variable (versions : Versions)

/-- The first record of `startTs`, in the order of the chain. -/
def recordOf (startTs : Ts) : Option (Ts × MvccWrite) :=
  versions.toList.find? fun item => item.2.startTs == startTs

/-- Some record of `startTs` is a rollback marker. -/
def hasRollback (startTs : Ts) : Bool :=
  versions.toList.any fun item => item.2.startTs == startTs && item.2.type == .rollback

/-- The record a read at `readTs` stops at: from the newest commit not after `readTs` back,
skipping rollback and lock records. -/
def visible (readTs : Ts) : Option (Ts × MvccWrite) :=
  (versions.toList.filter fun item => item.1 ≤ readTs).reverse.find? fun item =>
    item.2.type != .rollback && item.2.type != .lock

/-- The newest commit timestamp of the chain is at or above `ts`. -/
def reaches (ts : Ts) : Bool := versions.toList.any fun item => ts ≤ item.1

end Versions

namespace MvccStorage

def readCommitted (σ : MvccStorage) (key : Bytes) (readTs : Ts) : TxnStatus × Option Bytes × Ts :=
  match (σ.versionsOf key).visible readTs with
  | none => (.notFound, none, 0)
  | some (commitTs, write) =>
    if write.type = .delete then (.notFound, none, commitTs)
    else match σ.engine[dataKey key write.startTs]? with
      | some value => (.ok, some value, commitTs)
      | none => (.storageError, none, commitTs)

/-- `Get`: the status and, for `ok`, the value. -/
def get (σ : MvccStorage) (key : Bytes) (readTs : Ts) : TxnStatus × Option Bytes :=
  let blocked := match σ.locks[key]? with
    | none => false
    | some lock =>
      lock.startTs ≤ readTs && ((σ.versionsOf key).recordOf lock.startTs).isNone
  if blocked then (.lockConflict, none)
  else match (σ.versionsOf key).visible readTs with
    | none => (.notFound, none)
    | some (_, write) =>
      if write.type = .delete then (.notFound, none)
      else match σ.engine[dataKey key write.startTs]? with
        | some value => (.ok, some value)
        | none => (.storageError, none)

end MvccStorage

/-! ## Prepared writes -/

structure PreparedMvccWrite where
  commandVersion : ℕ := 1
  status : TxnStatus := .storageError
  expectedRevision : UInt64 := 0
  newRevision : UInt64 := 0
  modifications : List KVBatchOp := []
  readStatus : TxnStatus := .notFound
  readValue : Bytes := []
  readCommitTs : Ts := 0
  txnRecordStatus : TxnRecordStatus := {}
  deriving DecidableEq

namespace PreparedMvccWrite

def kLegacyCommandVersion : ℕ := 1

def kCommandVersion : ℕ := 2

def hasChanges (prepared : PreparedMvccWrite) : Bool :=
  prepared.status == .ok && !prepared.modifications.isEmpty

end PreparedMvccWrite

structure MvccMutation where
  key : Bytes
  value : Bytes := []
  isDelete : Bool := false
  isLockOnly : Bool := false
  deriving DecidableEq

structure PreparedMvccBatchItem where
  key : Bytes
  prepared : PreparedMvccWrite
  deriving DecidableEq

structure PreparedMvccBatch where
  commandVersion : ℕ := 1
  status : TxnStatus := .storageError
  items : List PreparedMvccBatchItem := []
  deriving DecidableEq

def PreparedMvccBatch.kCommandVersion : ℕ := 1

/-- The environment of one apply: the clock, and whether the engine accepts the batch. -/
structure ApplyEnv where
  nowMs : UInt64
  engineOk : Bool
  deriving DecidableEq

/-- `HlcTimestamp::PhysicalMs`: the timestamp without its 18 logical bits. -/
def physicalMs (ts : Ts) : UInt64 := ts >>> 18

/-- A request without a `forUpdateTs` asks for its `startTs`. -/
def requestedTs (startTs forUpdateTs : Ts) : Ts := if forUpdateTs = 0 then startTs else forUpdateTs

/-- The type of record that committing a lock writes. -/
def MvccLock.writeType (lock : MvccLock) : MvccWriteType :=
  if lock.isLockOnly then .lock else if lock.isDelete then .delete else .put

namespace MvccStorage

variable (σ : MvccStorage) (key : Bytes)

def revisionMutation : KVBatchOp :=
  ⟨.put, revisionKey key, toDecimal (σ.currentRevision key + 1).toNat⟩

/-- The early returns of `PreparePrewrite` on the key's lock. -/
def prewriteLockCheck (existing : Option MvccLock) (primaryKey : Bytes) (startTs forUpdateTs : Ts) :
    Option TxnStatus :=
  match existing with
  | none => none
  | some lock =>
    if lock.startTs ≠ startTs then some .lockConflict
    else if lock.primaryKey ≠ primaryKey then some .lockConflict
    -- a retry of an applied prewrite succeeds without another entry
    else if !lock.isPessimistic then some .ok
    else if forUpdateTs ≠ 0 ∧ forUpdateTs < lock.forUpdateTs then some .writeConflict
    else if forUpdateTs = 0 ∧ !lock.legacyExpiry ∧ lock.isPessimistic then some .writeConflict
    else none

/-- The lock a prewrite writes: it keeps the bounds of a pessimistic lock, or derives its own.
`nowMs` and `nowMs'` are the two readings of the clock, for the creation time and for the expiry
of a timestamp without a physical part. -/
def prewriteLockRecord (existing : Option MvccLock) (value primaryKey : Bytes) (startTs : Ts)
    (ttlMs : UInt64) (isDelete : Bool) (forUpdateTs : Ts) (nowMs nowMs' : UInt64) : MvccLock :=
  let fresh : MvccLock :=
    { primaryKey := primaryKey, value := value, startTs := startTs, ttlMs := ttlMs
      createTimeMs := nowMs, isDelete := isDelete, isPessimistic := false }
  match existing with
  | some old =>
    { fresh with
      forUpdateTs := old.forUpdateTs
      expireAtPhysicalMs := old.expireAtPhysicalMs
      legacyExpiry := old.legacyExpiry }
  | none =>
    let requested := requestedTs startTs forUpdateTs
    let base := physicalMs requested
    { fresh with
      forUpdateTs := requested
      expireAtPhysicalMs := (if 0 < base then base else nowMs') + ttlMs
      legacyExpiry := false }

def preparePrewrite (key value primaryKey : Bytes) (startTs : Ts)
    (ttlMs : UInt64) (isDelete : Bool) (forUpdateTs : Ts) (nowMs nowMs' : UInt64) :
    PreparedMvccWrite :=
  let prepared : PreparedMvccWrite := { expectedRevision := σ.currentRevision key }
  match prewriteLockCheck σ.locks[key]? primaryKey startTs forUpdateTs with
  | some status => { prepared with status := status }
  | none =>
    if (σ.versionsOf key).hasRollback startTs then { prepared with status := .writeConflict }
    else if (σ.versionsOf key).reaches startTs then { prepared with status := .writeConflict }
    else
      let lock := prewriteLockRecord σ.locks[key]? value primaryKey startTs ttlMs isDelete
        forUpdateTs nowMs nowMs'
      let data : KVBatchOp :=
        if isDelete then ⟨.delete, dataKey key startTs, []⟩ else ⟨.put, dataKey key startTs, value⟩
      { prepared with
        status := .ok
        newRevision := σ.currentRevision key + 1
        modifications := [data, ⟨.put, lockKey key, encodeLockValue lock⟩, σ.revisionMutation key] }

def preparePessimisticLock (key primaryKey : Bytes) (startTs : Ts)
    (ttlMs : UInt64) (forUpdateTs : Ts) (expireAtPhysicalMs nowMs : UInt64) : PreparedMvccWrite :=
  let prepared : PreparedMvccWrite :=
    { commandVersion := PreparedMvccWrite.kCommandVersion
      expectedRevision := σ.currentRevision key }
  let requested := requestedTs startTs forUpdateTs
  let withRead (read : TxnStatus × Option Bytes × Ts) : PreparedMvccWrite :=
    { prepared with
      readStatus := read.1, readValue := read.2.1.getD [], readCommitTs := read.2.2 }
  let granted (p : PreparedMvccWrite) (lock : MvccLock) : PreparedMvccWrite :=
    { p with
      status := .ok
      newRevision := σ.currentRevision key + 1
      modifications := [⟨.put, lockKey key, encodeLockValue lock⟩, σ.revisionMutation key] }
  match σ.locks[key]? with
  | some lock =>
    if lock.startTs ≠ startTs then { prepared with status := .lockConflict }
    else if !lock.isPessimistic ∨ lock.primaryKey ≠ primaryKey then
      { prepared with status := .lockConflict }
    else
      let effective := max lock.forUpdateTs requested
      let read := σ.readCommitted key effective
      if read.1 = .storageError then { withRead read with status := .storageError }
      else
        let expiry := max lock.expireAtPhysicalMs expireAtPhysicalMs
        if effective = lock.forUpdateTs ∧ expiry = lock.expireAtPhysicalMs then
          { withRead read with status := .ok }
        else
          granted (withRead read)
            { lock with
              forUpdateTs := effective
              expireAtPhysicalMs := expiry
              legacyExpiry := expiry = 0 }
  | none =>
    if (σ.versionsOf key).hasRollback startTs then { prepared with status := .writeConflict }
    else
      -- only the newest record that is no rollback marker is compared
      let latest := (σ.versionsOf key).toList.reverse.find? fun item => item.2.type != .rollback
      if latest.any fun item => requested < item.1 then { prepared with status := .writeConflict }
      else
        let read := σ.readCommitted key requested
        if read.1 = .storageError then { withRead read with status := .storageError }
        else
          granted (withRead read)
            { primaryKey := primaryKey, startTs := startTs, ttlMs := ttlMs, createTimeMs := nowMs
              isDelete := false, isPessimistic := true, forUpdateTs := requested
              expireAtPhysicalMs := expireAtPhysicalMs, legacyExpiry := expireAtPhysicalMs = 0 }

def preparePrewriteLock (key primaryKey : Bytes) (startTs : Ts)
    (ttlMs : UInt64) (forUpdateTs : Ts) : PreparedMvccWrite :=
  let prepared : PreparedMvccWrite :=
    { commandVersion := PreparedMvccWrite.kCommandVersion
      expectedRevision := σ.currentRevision key }
  match σ.locks[key]? with
  | none => { prepared with status := .notFound }
  | some lock =>
    if lock.startTs ≠ startTs ∨ lock.primaryKey ≠ primaryKey then
      { prepared with status := .lockConflict }
    else if !lock.isPessimistic then
      { prepared with status := if lock.isLockOnly then .ok else .lockConflict }
    else if forUpdateTs ≠ 0 ∧ forUpdateTs < lock.forUpdateTs then
      { prepared with status := .writeConflict }
    else
      let upgraded := { lock with isPessimistic := false, isLockOnly := true, ttlMs := ttlMs }
      { prepared with
        status := .ok
        newRevision := σ.currentRevision key + 1
        modifications := [⟨.put, lockKey key, encodeLockValue upgraded⟩, σ.revisionMutation key] }

def prepareCommit (startTs commitTs : Ts) : PreparedMvccWrite :=
  let prepared : PreparedMvccWrite := { expectedRevision := σ.currentRevision key }
  let versions := σ.versionsOf key
  match σ.locks[key]? with
  | none =>
    match versions.recordOf startTs with
    | some (_, write) =>
      { prepared with
        status := if write.type = .rollback then .writeConflict else .alreadyCommitted }
    | none => { prepared with status := .notFound }
  | some lock =>
    if lock.startTs ≠ startTs then { prepared with status := .lockConflict }
    else if commitTs ≤ max startTs lock.forUpdateTs then { prepared with status := .writeConflict }
    else match versions[commitTs]? with
      | some write =>
        { prepared with
          status := if write.startTs = startTs then .alreadyCommitted else .writeConflict }
      | none =>
        -- a commit of another transaction inside [startTs, commitTs]
        if versions.toList.any fun item =>
            startTs ≤ item.1 && item.1 ≤ commitTs && item.2.startTs != startTs &&
              item.2.type != .rollback then
          { prepared with status := .writeConflict }
        else
          let write : MvccWrite :=
            { startTs := startTs, commitTs := commitTs, type := lock.writeType }
          { prepared with
            status := .ok
            newRevision := σ.currentRevision key + 1
            modifications :=
              [⟨.put, writeKey key commitTs, encodeWriteValue write⟩, ⟨.delete, lockKey key, []⟩,
                σ.revisionMutation key] }

def prepareRollback (startTs : Ts) : PreparedMvccWrite :=
  let prepared : PreparedMvccWrite := { expectedRevision := σ.currentRevision key }
  match (σ.versionsOf key).recordOf startTs with
  | some (_, write) =>
    { prepared with status := if write.type = .rollback then .ok else .alreadyCommitted }
  | none =>
    let unlock : List KVBatchOp :=
      if σ.locks[key]?.any fun lock => lock.startTs == startTs then
        [⟨.delete, lockKey key, []⟩]
      else []
    let rollback : MvccWrite := { startTs := startTs, commitTs := startTs, type := .rollback }
    { prepared with
      status := .ok
      newRevision := σ.currentRevision key + 1
      modifications := unlock ++
        [⟨.delete, dataKey key startTs, []⟩,
          ⟨.put, writeKey key startTs, encodeWriteValue rollback⟩, σ.revisionMutation key] }

def inspectTxnStatus (startTs : Ts) : TxnRecordStatus :=
  match (σ.versionsOf key).recordOf startTs with
  | some (commitTs, write) =>
    if write.type = .rollback then { state := .rolledBack }
    else { state := .committed, commitTs := commitTs }
  | none =>
    match σ.locks[key]? with
    | some lock =>
      if lock.startTs = startTs then { state := .locked, lock := some lock } else {}
    | none => {}

def prepareCheckTxnStatus (primaryKey : Bytes) (startTs : Ts)
    (currentPhysicalMs : UInt64) (rollbackIfExpired : Bool) : PreparedMvccWrite :=
  let record := σ.inspectTxnStatus primaryKey startTs
  let prepared : PreparedMvccWrite :=
    { expectedRevision := σ.currentRevision primaryKey, status := .ok, txnRecordStatus := record }
  match record.lock with
  | none => prepared
  | some lock =>
    if !rollbackIfExpired ∨ record.state ≠ .locked then prepared
    -- an expiry of the old format is never compared with the HLC
    else if !(!lock.legacyExpiry && lock.expireAtPhysicalMs != 0 &&
        lock.expireAtPhysicalMs ≤ currentPhysicalMs) then prepared
    else
      let rollback := σ.prepareRollback primaryKey startTs
      if rollback.status = .ok then
        { rollback with
          commandVersion := PreparedMvccWrite.kCommandVersion
          txnRecordStatus := { state := .rolledBack } }
      else rollback

def prepareResolveLock (startTs : Ts) (decision : TxnRecordState)
    (commitTs : Ts) : PreparedMvccWrite :=
  if decision = .committed ∧ commitTs ≠ 0 then
    { σ.prepareCommit key startTs commitTs with
      commandVersion := PreparedMvccWrite.kCommandVersion }
  else if decision = .rolledBack then
    { σ.prepareRollback key startTs with commandVersion := PreparedMvccWrite.kCommandVersion }
  else { status := .storageError }

/-! ## Batches -/

/-- `std::sort` followed by `std::unique`, which on a sorted list removes all duplicates. -/
def orderedKeys (keys : List Bytes) : List Bytes := (keys.insertionSort fun a b => a ≤ b).dedup

/-- The loop of a batch over its keys: the first status that is not `ok` ends it. -/
def prepareItems (prepare : Bytes → PreparedMvccWrite) :
    List PreparedMvccBatchItem → List Bytes → PreparedMvccBatch
  | items, [] => { status := .ok, items := items }
  | items, key :: rest =>
    let prepared := prepare key
    if prepared.status ≠ .ok then { status := prepared.status }
    else prepareItems prepare (items ++ [⟨key, prepared⟩]) rest

/-- The loop of a batch prewrite: an empty or repeated key ends it with the default status. -/
def prewriteItems (prepare : MvccMutation → PreparedMvccWrite) :
    List PreparedMvccBatchItem → Option Bytes → List MvccMutation → PreparedMvccBatch
  | items, _, [] => { status := .ok, items := items }
  | items, previous, mutation :: rest =>
    if mutation.key = [] ∨ previous = some mutation.key then { items := items }
    else
      let prepared := prepare mutation
      if prepared.status ≠ .ok then { status := prepared.status }
      else prewriteItems prepare (items ++ [⟨mutation.key, prepared⟩]) (some mutation.key) rest

def prepareBatchPrewrite (mutations : List MvccMutation) (primaryKey : Bytes)
    (startTs : Ts) (ttlMs : UInt64) (forUpdateTs : Ts) (nowMs nowMs' : Bytes → UInt64) :
    PreparedMvccBatch :=
  let ordered := mutations.insertionSort fun a b => a.key ≤ b.key
  if ordered = [] then {}
  else prewriteItems (fun mutation =>
    if mutation.isLockOnly then
      σ.preparePrewriteLock mutation.key primaryKey startTs ttlMs forUpdateTs
    else
      σ.preparePrewrite mutation.key mutation.value primaryKey startTs ttlMs mutation.isDelete
        forUpdateTs (nowMs mutation.key) (nowMs' mutation.key)) [] none ordered

def prepareBatchCommit (keys : List Bytes) (startTs commitTs : Ts) : PreparedMvccBatch :=
  let ordered := orderedKeys keys
  if ordered = [] ∨ ordered.head? = some [] then {}
  else prepareItems (fun key =>
    let prepared := σ.prepareCommit key startTs commitTs
    if prepared.status = .alreadyCommitted then { prepared with status := .ok } else prepared)
    [] ordered

def prepareBatchRollback (keys : List Bytes) (startTs : Ts) : PreparedMvccBatch :=
  let ordered := orderedKeys keys
  if ordered = [] ∨ ordered.head? = some [] then {}
  else prepareItems (fun key => σ.prepareRollback key startTs) [] ordered

/-! ## Apply -/

/-- `ApplyMetadataMutationLocked`: replay one engine mutation on the in-memory indexes. -/
def applyMetadataMutation (nowMs : UInt64) (σ : MvccStorage) (op : KVBatchOp) : MvccStorage :=
  if (ascii "lock/").isPrefixOf op.key then
    let key := stripPrefix op.key (ascii "lock/")
    match op.type with
    | .delete => { σ with locks := σ.locks.erase key }
    | .put =>
      match decodeLockValue nowMs op.value with
      | some lock => { σ with locks := σ.locks.insert key lock }
      | none => σ
  else if (ascii "write/").isPrefixOf op.key then
    match splitKeyTs (stripPrefix op.key (ascii "write/")) with
    | none => σ
    | some (key, commitTs) =>
      match op.type with
      | .delete =>
        match σ.writes[key]? with
        | none => σ
        | some versions => { σ with writes := σ.writes.insert key (versions.erase commitTs) }
      | .put =>
        match decodeWriteValue op.value with
        | none => σ
        | some write =>
          let versions := (σ.versionsOf key).insert commitTs { write with commitTs := commitTs }
          { σ with writes := σ.writes.insert key versions }
  else if (ascii "meta/revision/").isPrefixOf op.key ∧ op.type = .put then
    let key := stripPrefix op.key (ascii "meta/revision/")
    { σ with revisions := σ.revisions.insert key (decodeTs op.value) }
  else σ

/-- The engine batch of the mutations, with the applied index when there is one. -/
def commitBatch (modifications : List KVBatchOp) (appliedRaftIndex : UInt64) : MvccStorage :=
  let progress : List KVBatchOp :=
    if appliedRaftIndex ≠ 0 then [⟨.put, appliedRaftIndexKey, toDecimal appliedRaftIndex.toNat⟩]
    else []
  { σ with engine := writeBatch σ.engine (modifications ++ progress) }

def applyPrepared (prepared : PreparedMvccWrite)
    (appliedRaftIndex : UInt64) (env : ApplyEnv) : TxnStatus × MvccStorage :=
  if (prepared.commandVersion ≠ PreparedMvccWrite.kLegacyCommandVersion ∧
        prepared.commandVersion ≠ PreparedMvccWrite.kCommandVersion) ∨
      prepared.status ≠ .ok ∨ prepared.modifications = [] ∨
      prepared.newRevision ≠ prepared.expectedRevision + 1 then (.storageError, σ)
  -- replaying an entry that the engine already includes changes nothing
  else if appliedRaftIndex ≠ 0 ∧ appliedRaftIndex ≤ σ.appliedRaftIndex then (.ok, σ)
  else if σ.currentRevision key ≠ prepared.expectedRevision then (.storageError, σ)
  else if !env.engineOk then (.storageError, σ)
  else
    let σ' := prepared.modifications.foldl (applyMetadataMutation env.nowMs)
      (σ.commitBatch prepared.modifications appliedRaftIndex)
    if σ'.currentRevision key ≠ prepared.newRevision then (.storageError, σ')
    else (.ok, { σ' with
      appliedRaftIndex := if appliedRaftIndex ≠ 0 then appliedRaftIndex else σ.appliedRaftIndex })

/-- The mutations of a batch whose items pass the checks, the previous key being `previous`. -/
def batchModifications (σ : MvccStorage) :
    Bytes → List PreparedMvccBatchItem → Option (List KVBatchOp)
  | _, [] => some []
  | previous, item :: rest =>
    if item.key = [] ∨ (previous ≠ [] ∧ item.key ≤ previous) ∨ item.prepared.status ≠ .ok then none
    else if item.prepared.modifications = [] then batchModifications σ item.key rest
    else if item.prepared.newRevision ≠ item.prepared.expectedRevision + 1 ∨
        σ.currentRevision item.key ≠ item.prepared.expectedRevision then none
    else (batchModifications σ item.key rest).map (item.prepared.modifications ++ ·)

/-- Replay the items of a batch on the in-memory indexes, checking each key's revision. -/
def applyItems (nowMs : UInt64) (σ : MvccStorage) : List PreparedMvccBatchItem → Bool × MvccStorage
  | [] => (true, σ)
  | item :: rest =>
    let σ' := item.prepared.modifications.foldl (applyMetadataMutation nowMs) σ
    if item.prepared.modifications ≠ [] ∧
        σ'.currentRevision item.key ≠ item.prepared.newRevision then (false, σ')
    else applyItems nowMs σ' rest

def applyPreparedBatch (prepared : PreparedMvccBatch)
    (appliedRaftIndex : UInt64) (env : ApplyEnv) : TxnStatus × MvccStorage :=
  if prepared.commandVersion ≠ PreparedMvccBatch.kCommandVersion ∨ prepared.status ≠ .ok ∨
      prepared.items = [] then (.storageError, σ)
  else if appliedRaftIndex ≠ 0 ∧ appliedRaftIndex ≤ σ.appliedRaftIndex then (.ok, σ)
  else match σ.batchModifications [] prepared.items with
    | none => (.storageError, σ)
    | some modifications =>
      if (modifications = [] ∧ appliedRaftIndex = 0) ∨ !env.engineOk then (.storageError, σ)
      else
        let (checked, σ') :=
          applyItems env.nowMs (σ.commitBatch modifications appliedRaftIndex) prepared.items
        if !checked then (.storageError, σ')
        else (.ok, { σ' with
          appliedRaftIndex :=
            if appliedRaftIndex ≠ 0 then appliedRaftIndex else σ.appliedRaftIndex })

/-! ## Garbage collection -/

/-- The newest Put or Delete below the safe point. -/
def keepCommitTs (versions : Versions) (safePointTs : Ts) : Option Ts :=
  (versions.toList.takeWhile fun item => item.1 < safePointTs).foldl
    (fun keep item => if item.2.type = .put ∨ item.2.type = .delete then some item.1 else keep) none

/-- The versions of a chain that a collection at the safe point removes. -/
def collected (versions : Versions) (safePointTs : Ts) : List (Ts × MvccWrite) :=
  if versions.size ≤ 1 then []
  else versions.toList.filter fun item =>
    !(safePointTs ≤ item.1 || keepCommitTs versions safePointTs == some item.1)

def collectOps (removed : List (Ts × MvccWrite)) : List KVBatchOp :=
  removed.flatMap fun item =>
    (if item.2.type = .put then [⟨.delete, dataKey key item.2.startTs, []⟩] else []) ++
      [⟨.delete, writeKey key item.1, []⟩]

/-- `GarbageCollect`: the number of versions removed and the new state. -/
def garbageCollect (safePointTs : Ts) (engineOk : Bool) : ℕ × MvccStorage :=
  let touched := (σ.writes.toList.map fun item => (item.1, collected item.2 safePointTs)).filter
    fun item => item.2 ≠ []
  if touched = [] ∨ !engineOk then (0, σ)
  else
    let ops := (touched.flatMap fun item => collectOps item.1 item.2) ++
      touched.map fun item => σ.revisionMutation item.1
    ((touched.map fun item => item.2.length).sum,
      { σ with
        engine := writeBatch σ.engine ops
        writes := touched.foldl (fun writes item => writes.insert item.1
          (item.2.foldl (fun versions version => versions.erase version.1)
            (σ.versionsOf item.1))) σ.writes
        revisions := touched.foldl (fun revisions item =>
          revisions.insert item.1 (σ.currentRevision item.1 + 1)) σ.revisions })

end MvccStorage

end StrataKV.Mvcc
