import StrataKV.Metadata.Region
import StrataKV.Mvcc.Direct

/-!
# `RegionPeer`

The state machine of one replica of a Region, as `region_peer.cpp` drives it from the Raft log:
the request de-duplication table, the storage, the Region descriptor that `AdminSplit` and
`ConfChange` entries change, and the split that a background thread materializes.

A log entry is a parsed `Op`. The engine may refuse a write, which is the `engineOk` of the
environment; the file system never does. A function whose exception escapes the apply thread, and
so ends the process, returns `none`.
-/

namespace StrataKV.Region

open Metadata Mvcc MvccStorage Option
open Std (ExtTreeMap)

/-- The content of a RocksDB directory. -/
abbrev Engine := ExtTreeMap Bytes Bytes compare

/-! ## Commands -/

/-- `TxnOpPayload`; `parsed` is what `parseFromString` returned. -/
structure TxnOpPayload where
  value : Bytes := []
  primaryKey : Bytes := []
  startTs : Ts := 0
  commitTs : Ts := 0
  ttlMs : UInt64 := 0
  isDelete : Bool := false
  parsed : Bool := true
  deriving DecidableEq

structure AdminSplitCommand where
  splitKey : Bytes
  metadataRevision : UInt64
  parent : RegionDescriptor
  child : RegionDescriptor

inductive ConfChangeType
  | addPeer
  | removePeer
  | addLearner
  | promoteLearner
  deriving DecidableEq

structure ConfChangeCommand where
  changeType : ConfChangeType
  peer : PeerDescriptor
  expectedEpoch : Option RegionEpoch := none
  metadataRevision : UInt64 := 0
  deriving DecidableEq

/-- `Operation` with what its `Value` parses to; `none` is a value that does not parse. -/
inductive Operation
  | get
  | put (value : Bytes)
  | append (value : Bytes)
  | txnGet (payload : TxnOpPayload)
  | txnPrepared (prepared : Option PreparedMvccWrite)
  | txnPreparedBatch (prepared : Option PreparedMvccBatch)
  | txnPrewrite (payload : TxnOpPayload)
  | txnCommit (payload : TxnOpPayload)
  | txnRollback (payload : TxnOpPayload)
  | txnAcquirePessimisticLock (payload : TxnOpPayload)
  | txnGarbageCollect (payload : TxnOpPayload)
  | adminSplit (command : Option AdminSplitCommand)
  | confChange (command : Option ConfChangeCommand)
  | raftNoop
  | unknown

structure Op where
  operation : Operation
  key : Bytes := []
  clientId : Bytes
  requestId : Int32

/-- `Op::Status` after the apply: a transaction status or the count of a collection. -/
inductive OpStatus
  | unset
  | txn (status : TxnStatus)
  | removed (count : ℕ)
  deriving DecidableEq

/-- The environment of one apply: the readings of the clock and the engine's answer. -/
structure PeerEnv extends ApplyEnv where
  nowMs' : UInt64 := nowMs
  deriving DecidableEq

/-! ## Splits -/

def kSplitPhaseCheckpointing : ℕ := 1

def kSplitPhaseChildReady : ℕ := 2

def kSplitPhaseParentShrunk : ℕ := 3

def kSplitPhaseComplete : ℕ := 4

/-- The split state file. -/
structure SplitState where
  phase : ℕ
  generation : ℕ
  command : AdminSplitCommand

/-- One write of `DeleteKeysInRange` to an engine, or its scan for raw keys. -/
inductive CleanupOp
  | deleteRange (rangeBegin rangeEnd : Bytes)
  | scanRaw (rangeBegin rangeEnd : Bytes)
  | delete (key : Bytes)
  deriving DecidableEq

/-- The place of the background thread in `MaterializeSplitChildAsync`. -/
inductive MaterializeStep
  | removePending
  | createCheckpoint
  | recordChildReady
  | rename
  | childCleanup (remaining : List CleanupOp)
  | recordParentShrunk
  | parentCleanup (remaining : List CleanupOp)
  | dropIndexes
  | recordComplete
  | callback
  deriving DecidableEq

/-- The arguments of the background thread and its place. -/
structure SplitJob where
  command : AdminSplitCommand
  persistedPhase : ℕ
  parent : RegionMetadata
  child : RegionMetadata
  step : MaterializeStep

/-! ## The peer -/

inductive RegionPeerState
  | initializing
  | serving
  | retiring
  | stopped
  deriving DecidableEq

structure RegionPeer where
  me : ℕ
  descriptor : RegionMetadata
  regionStartKey : Bytes
  regionEndKey : Bytes
  lifecycle : RegionPeerState := .serving
  inFlightRequests : ℕ := 0
  storage : MvccStorage := {}
  lastRequestId : ExtTreeMap Bytes Int32 compare := ∅
  stateMachineAppliedIndex : ℕ := 0
  stateMachineHealthy : Bool := true
  lastSnapShotRaftLogIndex : ℕ := 0
  /-- the file at `m_splitStatePath` -/
  splitState : Option SplitState := none
  /-- the running background thread; `m_splitMaterializing` is that there is one -/
  splitJob : Option SplitJob := none
  /-- the directories of split children by Region id, and the unfinished ones by generation -/
  finalDirs : UInt64 → Option Engine := fun _ => none
  pendingDirs : UInt64 → ℕ → Option Engine := fun _ _ => none
  /-- the calls of `m_splitCompletedCallback` -/
  completedSplits : List (RegionMetadata × RegionMetadata) := []
  /-- the calls of `m_removedCallback`, as peer id and revision -/
  removals : List (UInt64 × UInt64) := []

namespace RegionPeer

/-- The constructor over an empty engine directory. -/
def create (me : ℕ) (descriptor : RegionMetadata) : RegionPeer where
  me := me
  descriptor := descriptor
  regionStartKey := descriptor.startKey
  regionEndKey := descriptor.endKey

variable (peer : RegionPeer)

/-- `LocalPeerDescriptor`, which throws if the place is not in the list. -/
def localPeerDescriptor : Option RegionPeerLocation := peer.descriptor.peers[peer.me]?

def ownsKey (key : Bytes) : Bool :=
  !(key < peer.regionStartKey) && (peer.regionEndKey = [] || key < peer.regionEndKey)

def ifRequestDuplicate (clientId : Bytes) (requestId : Int32) : Bool :=
  peer.lastRequestId[clientId]?.any fun last => requestId ≤ last

/-- `m_lastRequestId[op.ClientId] = op.RequestId`. -/
def markRequest (op : Op) : RegionPeer :=
  { peer with lastRequestId := peer.lastRequestId.insert op.clientId op.requestId }

def withStorage (storage : MvccStorage) : RegionPeer :=
  { peer with storage := storage }

def advanceStateMachineApplied (raftIndex : ℕ) : RegionPeer :=
  { peer with stateMachineAppliedIndex := max peer.stateMachineAppliedIndex raftIndex }

def markStateMachineUnhealthy : RegionPeer :=
  { peer with stateMachineHealthy := false }

def writeSplitState (phase generation : ℕ) (command : AdminSplitCommand) : RegionPeer :=
  { peer with splitState := some ⟨phase, generation, command⟩ }

def updateDescriptorShrunk (shrunken : RegionMetadata) : Option RegionPeer :=
  if shrunken.regionId ≠ peer.descriptor.regionId ∨
      shrunken.epoch.version ≤ peer.descriptor.epoch.version then none
  else some { peer with descriptor := shrunken, regionEndKey := shrunken.endKey }

def beginRetire : RegionPeer :=
  if peer.lifecycle = .serving then { peer with lifecycle := .retiring } else peer

def markStopped : Option RegionPeer :=
  if peer.lifecycle = .stopped then some peer
  else if peer.lifecycle ≠ .retiring ∨ peer.inFlightRequests ≠ 0 then none
  else some { peer with lifecycle := .stopped }

end RegionPeer

/-! ## `ApplyAdminSplit` -/

namespace AdminSplitCommand

variable (command : AdminSplitCommand)

/-- The fields of the command's parent that the apply reads. -/
def parentRegion : RegionMetadata where
  regionId := toInt command.parent.regionId
  startKey := command.parent.startKey
  endKey := command.parent.endKey
  epoch := command.parent.epoch

/-- A peer of the child, decoded without checks. -/
def location (peer : PeerDescriptor) : RegionPeerLocation where
  nodeId := if 0 < peer.storeId then toInt peer.storeId - 1 else -1
  host := peer.host
  port := toShort peer.port
  storeId := peer.storeId
  peerId := peer.peerId

/-- The child, with the revision of the command for the one it was prepared with. -/
def stampedChild : RegionMetadata where
  regionId := toInt command.child.regionId
  startKey := command.child.startKey
  endKey := command.child.endKey
  epoch := command.child.epoch
  metadataRevision := command.metadataRevision
  leaderPeerId := command.child.leaderPeerId
  peers := command.child.peers.map location

/-- The command was made for this descriptor. -/
def exactMatch (region : RegionMetadata) : Bool :=
  region.regionId = command.parentRegion.regionId && region.epoch = command.parentRegion.epoch &&
    region.startKey = command.parentRegion.startKey && region.endKey = command.parentRegion.endKey

/-- The descriptor is the one that this command leaves. -/
def alreadyShrunk (region : RegionMetadata) : Bool :=
  region.regionId = command.parentRegion.regionId &&
    region.epoch.version = command.parentRegion.epoch.version + 1 &&
    region.endKey = command.splitKey

def shrunken (region : RegionMetadata) : RegionMetadata where
  regionId := command.parentRegion.regionId
  startKey := command.parentRegion.startKey
  endKey := command.splitKey
  epoch :=
    { version := command.parentRegion.epoch.version + 1
      confVersion := command.parentRegion.epoch.confVersion }
  metadataRevision := command.metadataRevision
  leaderPeerId := command.parentRegion.leaderPeerId
  peers := region.peers

end AdminSplitCommand

namespace RegionPeer

/-- The phase that the split state file records, 0 without one. -/
def persistedPhase (peer : RegionPeer) : ℕ := (peer.splitState.map SplitState.phase).getD 0

end RegionPeer

/-- `DeleteKeysInRange`. -/
def deleteKeysInRange (rangeBegin rangeEnd : Bytes) : List CleanupOp :=
  let range (key keyEnd : String) : CleanupOp :=
    .deleteRange (if rangeBegin = [] then ascii key else ascii key ++ rangeBegin)
      (if rangeEnd = [] then ascii keyEnd else ascii key ++ rangeEnd)
  [range "data/" "data0", range "lock/" "lock0", range "write/" "write0",
    range "meta/revision/" "meta/revision0", .scanRaw rangeBegin rangeEnd]

/-- Where the background thread starts, by the phase found in the state file. -/
def SplitJob.firstStep (command : AdminSplitCommand) (parent : RegionMetadata)
    (persistedPhase : ℕ) : MaterializeStep :=
  if persistedPhase < kSplitPhaseChildReady then .removePending
  else if persistedPhase < kSplitPhaseParentShrunk then .rename
  else if persistedPhase < kSplitPhaseComplete then
    .parentCleanup (deleteKeysInRange command.splitKey parent.endKey)
  else .callback

namespace RegionPeer

/-- The thread is started unless one is running. -/
def startMaterializing (peer : RegionPeer) (command : AdminSplitCommand) (persistedPhase : ℕ) :
    RegionPeer :=
  match peer.splitJob with
  | some _ => peer
  | none =>
    { peer with
      splitJob := some
        { command := command
          persistedPhase := persistedPhase
          parent := command.parentRegion
          child := command.stampedChild
          step := SplitJob.firstStep command command.parentRegion persistedPhase } }

def applyAdminSplit (peer : RegionPeer) (command : AdminSplitCommand) :
    Option (TxnStatus × RegionPeer) :=
  let persistedPhase := peer.persistedPhase
  let alreadyShrunkNow := command.alreadyShrunk peer.descriptor
  if !command.exactMatch peer.descriptor && !alreadyShrunkNow then some (.storageError, peer)
  else if alreadyShrunkNow && kSplitPhaseComplete ≤ persistedPhase then some (.ok, peer)
  else
    let shrunk := if alreadyShrunkNow then some peer
      else peer.updateDescriptorShrunk (command.shrunken peer.descriptor)
    shrunk.map fun peer =>
      (.ok, (peer.writeSplitState kSplitPhaseCheckpointing 1 command).startMaterializing command
        persistedPhase)

/-! ## `MaterializeSplitChildAsync` -/

end RegionPeer

namespace CleanupOp

/-- A key of the storage's own records. -/
def isSystemKey (key : Bytes) : Bool :=
  (ascii "data/").isPrefixOf key || (ascii "lock/").isPrefixOf key ||
    (ascii "write/").isPrefixOf key || (ascii "meta/").isPrefixOf key

/-- The engine after the operation, and the deletions that a scan adds. -/
def run (engine : Engine) : CleanupOp → Engine × List CleanupOp
  | deleteRange rangeBegin rangeEnd =>
    (OrdMap.eraseWhere engine fun key => !(key < rangeBegin) && key < rangeEnd, [])
  | scanRaw rangeBegin rangeEnd =>
    (engine, (engine.toList.filter fun item =>
      !isSystemKey item.1 && MvccStorage.inRange rangeBegin rangeEnd item.1).map fun item =>
        delete item.1)
  | delete key => (engine.erase key, [])

end CleanupOp

namespace SplitJob

/-- The generation in the name of the pending directory. -/
def generation (job : SplitJob) : ℕ := if 0 < job.persistedPhase then job.persistedPhase else 1

/-- The cleanup of the cloned child: the left half and the applied index of the parent. -/
def childOps (job : SplitJob) : List CleanupOp :=
  deleteKeysInRange job.parent.startKey job.command.splitKey ++ [.delete appliedRaftIndexKey]

def parentOps (job : SplitJob) : List CleanupOp :=
  deleteKeysInRange job.command.splitKey job.parent.endKey

end SplitJob

namespace RegionPeer

def atStep (peer : RegionPeer) (job : SplitJob) (step : MaterializeStep) : RegionPeer :=
  { peer with splitJob := some { job with step := step } }

/-- One step of the background thread. -/
def materializeSplitChild (peer : RegionPeer) (job : SplitJob) : RegionPeer :=
  let childId := job.command.child.regionId
  match job.step with
  | .removePending =>
    { peer with
      pendingDirs := Function.update peer.pendingDirs childId
        (Function.update (peer.pendingDirs childId) job.generation none) }.atStep job
          .createCheckpoint
  | .createCheckpoint =>
    { peer with
      pendingDirs := Function.update peer.pendingDirs childId
        (Function.update (peer.pendingDirs childId) job.generation (some peer.storage.engine))
      }.atStep job .recordChildReady
  | .recordChildReady =>
    (peer.writeSplitState kSplitPhaseChildReady job.generation job.command).atStep job .rename
  | .rename =>
    match peer.finalDirs childId, peer.pendingDirs childId job.generation with
    | some _, _ => peer.atStep job (.childCleanup job.childOps)
    | none, some pending =>
      { peer with
        finalDirs := Function.update peer.finalDirs childId (some pending)
        pendingDirs := Function.update peer.pendingDirs childId
          (Function.update (peer.pendingDirs childId) job.generation none) }.atStep job
            (.childCleanup job.childOps)
    -- the rename fails: the thread gives up
    | none, none => { peer with splitJob := none }
  | .childCleanup [] => peer.atStep job .recordParentShrunk
  | .childCleanup (op :: rest) =>
    let (engine, more) := op.run ((peer.finalDirs childId).getD ∅)
    { peer with finalDirs := Function.update peer.finalDirs childId (some engine) }.atStep job
      (.childCleanup (more ++ rest))
  | .recordParentShrunk =>
    (peer.writeSplitState kSplitPhaseParentShrunk job.generation job.command).atStep job
      (.parentCleanup job.parentOps)
  | .parentCleanup [] => peer.atStep job .dropIndexes
  | .parentCleanup (op :: rest) =>
    let (engine, more) := op.run peer.storage.engine
    (peer.withStorage { peer.storage with engine := engine }).atStep job
      (.parentCleanup (more ++ rest))
  | .dropIndexes =>
    (peer.withStorage (peer.storage.dropKeysInRange job.command.splitKey job.parent.endKey)).atStep
      job .recordComplete
  | .recordComplete =>
    (peer.writeSplitState kSplitPhaseComplete job.generation job.command).atStep job .callback
  | .callback =>
    { peer with
      completedSplits := peer.completedSplits ++ [(peer.descriptor,
        { job.child with metadataRevision := peer.descriptor.metadataRevision })]
      splitJob := none }

end RegionPeer

/-! ## `ApplyConfChange` -/

/-- The first peer with the id becomes a learner or stops being one. -/
def setLearner (peerId : UInt64) (learner : Bool) :
    List RegionPeerLocation → List RegionPeerLocation
  | [] => []
  | peer :: rest =>
    if peer.peerId = peerId then { peer with isLearner := learner } :: rest
    else peer :: setLearner peerId learner rest

namespace ConfChangeCommand

/-- The peers after the change; adding a voter directly changes none of them. -/
def peers (command : ConfChangeCommand) (peers : List RegionPeerLocation) :
    List RegionPeerLocation :=
  match command.changeType with
  | .addPeer => peers
  | .addLearner =>
    if peers.any fun peer => peer.peerId = command.peer.peerId then
      setLearner command.peer.peerId true peers
    else peers ++ [{ AdminSplitCommand.location command.peer with isLearner := true }]
  | .promoteLearner => setLearner command.peer.peerId false peers
  | .removePeer => peers.filter fun peer => peer.peerId ≠ command.peer.peerId

/-- The descriptor after the change, or `none` for an epoch that is not the expected one. -/
def region (command : ConfChangeCommand) (region : RegionMetadata) : Option RegionMetadata :=
  if command.expectedEpoch.any fun expected => expected ≠ region.epoch then none
  else
    some { region with
      peers := command.peers region.peers
      epoch := { region.epoch with confVersion := region.epoch.confVersion + 1 }
      metadataRevision := if 0 < command.metadataRevision then command.metadataRevision
        else region.metadataRevision }

end ConfChangeCommand

namespace RegionPeer

variable (peer : RegionPeer)

def applyConfChange (command : ConfChangeCommand) : Option (TxnStatus × RegionPeer) :=
  match command.region peer.descriptor with
  | none => some (.storageError, peer)
  | some region =>
    let isTargetSelf :=
      peer.descriptor.peers[peer.me]?.any fun self => command.peer.peerId = self.peerId
    let changed := { peer with descriptor := region }
    if command.changeType = .removePeer ∧ isTargetSelf then
      let retired := changed.beginRetire
      let stopped := if retired.inFlightRequests = 0 then retired.markStopped else some retired
      stopped.map fun peer =>
        (.ok, { peer with
          removals := peer.removals ++ [(command.peer.peerId, region.metadataRevision)] })
    else some (.ok, changed)

/-! ## `GetCommandFromRaft` -/

/-- `ApplyPrepared` of what the value of an entry parses to. -/
def applyParsed (σ : MvccStorage) (key : Bytes) (prepared : Option PreparedMvccWrite) (index : ℕ)
    (env : PeerEnv) : TxnStatus × MvccStorage :=
  match prepared with
  | none => (.storageError, σ)
  | some write => σ.applyPrepared key write (UInt64.ofNat index) env.toApplyEnv

/-- `ApplyPreparedBatch` of what the value of an entry parses to. -/
def applyParsedBatch (σ : MvccStorage) (prepared : Option PreparedMvccBatch) (index : ℕ)
    (env : PeerEnv) : TxnStatus × MvccStorage :=
  match prepared with
  | none => (.storageError, σ)
  | some batch => σ.applyPreparedBatch batch (UInt64.ofNat index) env.toApplyEnv

/-- A storage operation whose failure alone fails the apply; the request is marked either way. -/
def applyLegacy (op : Op) (result : TxnStatus × MvccStorage) : Bool × OpStatus × RegionPeer :=
  (result.1 ≠ .storageError, .txn result.1, (peer.withStorage result.2).markRequest op)

/-- The execution of an entry that is no duplicate: whether it succeeded, its status and the
peer. -/
def execute (index : ℕ) (op : Op) (env : PeerEnv) : Option (Bool × OpStatus × RegionPeer) :=
  let σ := peer.storage
  match op.operation with
  | .put value =>
    if env.engineOk then
      some (true, .unset,
        (peer.withStorage { σ with engine := σ.engine.insert op.key value }).markRequest op)
    else some (false, .unset, peer)
  | .append value =>
    if env.engineOk then
      some (true, .unset,
        (peer.withStorage { σ with
          engine := σ.engine.insert op.key ((σ.engine[op.key]?).getD [] ++ value) }).markRequest op)
    else some (false, .unset, peer)
  | .txnGet payload =>
    some (true, .txn (if payload.parsed then (σ.get op.key payload.startTs).1 else .storageError),
      peer)
  | .txnPreparedBatch prepared =>
    let result := applyParsedBatch σ prepared index env
    if result.1 = .ok then some (true, .txn .ok, (peer.withStorage result.2).markRequest op)
    else some (false, .txn result.1, peer.withStorage result.2)
  | .txnPrepared prepared =>
    let result := applyParsed σ op.key prepared index env
    some (result.1 = .ok, .txn result.1, (peer.withStorage result.2).markRequest op)
  | .txnPrewrite payload =>
    let result :=
      if !payload.parsed then (.storageError, σ)
      else σ.prewriteLocked op.key (if payload.isDelete then [] else payload.value)
        payload.primaryKey payload.startTs payload.ttlMs payload.isDelete 0 env.nowMs env.nowMs'
        env.engineOk
    some (peer.applyLegacy op result)
  | .txnCommit payload =>
    let result :=
      if !payload.parsed then (.storageError, σ)
      else σ.commit op.key payload.startTs payload.commitTs env.engineOk
    some (peer.applyLegacy op result)
  | .txnRollback payload =>
    let result :=
      if !payload.parsed then (.storageError, σ)
      else σ.rollback op.key payload.startTs env.engineOk
    some (peer.applyLegacy op result)
  | .txnAcquirePessimisticLock payload =>
    let result :=
      if !payload.parsed then (.storageError, σ)
      else σ.acquirePessimisticLock op.key payload.primaryKey payload.startTs payload.ttlMs 0 0
        env.nowMs env.engineOk
    some (peer.applyLegacy op result)
  | .txnGarbageCollect payload =>
    let result := if !payload.parsed then (0, σ) else σ.garbageCollect payload.startTs env.engineOk
    some (payload.parsed, .removed result.1, (peer.withStorage result.2).markRequest op)
  | .adminSplit command =>
    let result : Option (TxnStatus × RegionPeer) := match command with
      | none => some (.storageError, peer)
      | some command => peer.applyAdminSplit command
    result.map fun (status, peer) => (true, .txn status, peer.markRequest op)
  | .confChange command =>
    let result : Option (TxnStatus × RegionPeer) := match command with
      | none => some (.storageError, peer)
      | some command => peer.applyConfChange command
    result.map fun (status, peer) => (true, .txn status, peer.markRequest op)
  | .get => some (true, .unset, peer)
  | .raftNoop => some (true, .unset, peer)
  | .unknown => some (false, .unset, peer)

/-- The branch of an entry whose request id is not above the last one of its client. -/
def executeDuplicate (op : Op) (env : PeerEnv) : OpStatus × RegionPeer :=
  let σ := peer.storage
  let ownLock (payload : TxnOpPayload) : OpStatus :=
    .txn (if σ.locks[op.key]?.any fun lock => lock.startTs = payload.startTs then .ok
      else .writeConflict)
  match op.operation with
  | .txnPrepared _ | .txnPreparedBatch _ => (.txn .ok, peer)
  | .txnPrewrite payload | .txnAcquirePessimisticLock payload => (ownLock payload, peer)
  | .txnCommit payload =>
    let result := σ.commit op.key payload.startTs payload.commitTs env.engineOk
    (.txn result.1, peer.withStorage result.2)
  | .txnRollback payload =>
    let result := σ.rollback op.key payload.startTs env.engineOk
    (.txn result.1, peer.withStorage result.2)
  | .txnGarbageCollect payload =>
    let result := σ.garbageCollect payload.startTs env.engineOk
    (.removed result.1, peer.withStorage result.2)
  | _ => (.unset, peer)

/-- `GetCommandFromRaft`: what it returns, the status sent to whoever waits, and the peer. -/
def getCommandFromRaft (index : ℕ) (op : Op) (env : PeerEnv) :
    Option (Bool × OpStatus × RegionPeer) :=
  if index ≤ peer.lastSnapShotRaftLogIndex then some (true, .unset, peer)
  else if peer.ifRequestDuplicate op.clientId op.requestId then
    let (status, peer) := peer.executeDuplicate op env
    some (true, status, peer)
  else peer.execute index op env

/-- One command message of `ReadRaftApplyCommandLoop`: whether the loop goes on. -/
def applyCommand (index : ℕ) (op : Op) (env : PeerEnv) : Option (Bool × OpStatus × RegionPeer) :=
  (peer.getCommandFromRaft index op env).map fun (succeeded, status, peer) =>
    if succeeded then (true, status, peer.advanceStateMachineApplied index)
    else (false, status, peer.markStateMachineUnhealthy)

/-! ## `TryBatchApplyFromRaft` -/

/-- The prepared command of a message of the batch path. -/
def preparedCommand (index : ℕ) (op : Op) : Option PreparedApplyCommand :=
  match op.operation with
  | .txnPrepared prepared => prepared.map (.single (UInt64.ofNat index) op.key)
  | .txnPreparedBatch prepared => prepared.map (.batch (UInt64.ofNat index))
  | _ => none

/-- No request of the batch is a duplicate, also of one before it in the batch. -/
def stageRequests (lastRequestId : ExtTreeMap Bytes Int32 compare) :
    ExtTreeMap Bytes Int32 compare → List Op → Bool
  | _, [] => true
  | staged, op :: rest =>
    match staged[op.clientId]? with
    | some last => !(op.requestId ≤ last) && stageRequests lastRequestId
        (staged.insert op.clientId op.requestId) rest
    | none => !(lastRequestId[op.clientId]?.any fun last => op.requestId ≤ last) &&
        stageRequests lastRequestId (staged.insert op.clientId op.requestId) rest

/-- `TryBatchApplyFromRaft`: whether the batch was applied, and the peer. -/
def tryBatchApplyFromRaft (messages : List (ℕ × Op)) (env : PeerEnv) : Bool × RegionPeer :=
  if messages.length < 2 ∨ messages.any fun m => m.1 ≤ peer.lastSnapShotRaftLogIndex then
    (false, peer)
  else
    match messages.mapM fun m => preparedCommand m.1 m.2 with
    | none => (false, peer)
    | some commands =>
      if !stageRequests peer.lastRequestId ∅ (messages.map Prod.snd) then (false, peer)
      else
        let (applied, storage) := peer.storage.applyPreparedCommandsAtomically commands
          env.toApplyEnv
        let written := peer.withStorage storage
        if !applied then (false, written)
        else
          (true, ((messages.map Prod.snd).foldl markRequest written).advanceStateMachineApplied
            ((messages.getLast?.map Prod.fst).getD 0))

end RegionPeer

/-! ## Snapshots -/

/-- `SnapshotPayload`: all that a Region snapshot carries. -/
structure SnapshotPayload where
  kvData : Engine
  lastRequestId : ExtTreeMap Bytes Int32 compare

namespace RegionPeer

variable (peer : RegionPeer)

/-- `MakeSnapShot`. -/
def makeSnapShot : SnapshotPayload where
  kvData := peer.storage.engine
  lastRequestId := peer.lastRequestId

/-- `GetSnapShotFromRaft` of a snapshot that is not empty. -/
def getSnapShotFromRaft (index : ℕ) (snapshot : SnapshotPayload) (env : PeerEnv) : RegionPeer :=
  let taken := { peer with lastRequestId := snapshot.lastRequestId }
  if !env.engineOk then taken.markStateMachineUnhealthy
  else
    { taken with
      storage := MvccStorage.recoverMetadataFromEngine env.nowMs snapshot.kvData
      lastSnapShotRaftLogIndex := index }.advanceStateMachineApplied index

/-- A process restart: the constructor and `Start` over the files that the peer has left, which are
its engine, the split state, the directories of children and the Raft snapshot if there is one. -/
def restart (descriptor : RegionMetadata)
    (snapshot : Option (ℕ × SnapshotPayload)) (env : PeerEnv) : RegionPeer :=
  let opened : RegionPeer :=
    { create peer.me descriptor with
      storage := MvccStorage.recoverMetadataFromEngine env.nowMs peer.storage.engine
      splitState := peer.splitState
      finalDirs := peer.finalDirs
      pendingDirs := peer.pendingDirs }
  match snapshot with
  | none => opened
  | some (index, payload) =>
    { opened with
      storage := MvccStorage.recoverMetadataFromEngine env.nowMs payload.kvData
      lastRequestId := payload.lastRequestId
      lastSnapShotRaftLogIndex := index
      stateMachineAppliedIndex := index }

/-! ## What an apply leaves alone -/

/-- How far the state machine has come, which only the apply loop itself moves. -/
def progress : ℕ × Bool × ℕ :=
  (peer.stateMachineAppliedIndex, peer.stateMachineHealthy, peer.lastSnapShotRaftLogIndex)

section

variable {peer} {peer' : RegionPeer} {op : Op} {env : PeerEnv} {index : ℕ} {status : OpStatus}
  {succeeded : Bool} {result : TxnStatus} {command : AdminSplitCommand}

/-- All that a split entry can change: the descriptor and its range, the state file and the
background thread. -/
lemma applyAdminSplit_eq (h : peer.applyAdminSplit command = some (result, peer')) :
    ∃ descriptor regionEndKey splitState splitJob, peer' =
      { peer with
        descriptor := descriptor
        regionEndKey := regionEndKey
        splitState := splitState
        splitJob := splitJob } := by
  have hjob (p : RegionPeer) (phase : ℕ) :
      ∃ job, p.startMaterializing command phase = { p with splitJob := job } := by
    unfold startMaterializing
    split
    · exact ⟨p.splitJob, rfl⟩
    · exact ⟨_, rfl⟩
  unfold applyAdminSplit at h
  dsimp only at h
  split at h
  · cases h
    exact ⟨_, _, _, _, rfl⟩
  · split at h
    · cases h
      exact ⟨_, _, _, _, rfl⟩
    · obtain ⟨shrunk, hshrunk, hpeer⟩ := map_eq_some_iff.1 h
      obtain ⟨job, hjob⟩ := hjob (shrunk.writeSplitState kSplitPhaseCheckpointing 1 command)
        peer.persistedPhase
      simp only [Prod.mk.injEq] at hpeer
      rw [← hpeer.2, hjob]
      split at hshrunk
      · cases hshrunk
        exact ⟨_, _, _, _, rfl⟩
      · unfold updateDescriptorShrunk at hshrunk
        split_ifs at hshrunk
        cases hshrunk
        exact ⟨_, _, _, _, rfl⟩

/-- All that a configuration change can change: the descriptor, and the lifecycle of a peer that
is removed. -/
lemma applyConfChange_eq {command : ConfChangeCommand}
    (h : peer.applyConfChange command = some (result, peer')) :
    ∃ descriptor lifecycle removals, peer' =
      { peer with
        descriptor := descriptor
        lifecycle := lifecycle
        removals := removals } := by
  have hretire (p : RegionPeer) : ∃ lifecycle, p.beginRetire = { p with lifecycle := lifecycle } := by
    unfold beginRetire
    split
    · exact ⟨_, rfl⟩
    · exact ⟨p.lifecycle, rfl⟩
  have hstop (p q : RegionPeer) (hq : p.markStopped = some q) :
      ∃ lifecycle, q = { p with lifecycle := lifecycle } := by
    unfold markStopped at hq
    split_ifs at hq
    all_goals
      cases hq
      exact ⟨_, rfl⟩
  unfold applyConfChange at h
  split at h
  · cases h
    exact ⟨_, _, _, rfl⟩
  · rename_i region hregion
    dsimp only at h
    split at h
    · obtain ⟨stopped, hstopped, hpeer⟩ := map_eq_some_iff.1 h
      simp only [Prod.mk.injEq] at hpeer
      rw [← hpeer.2]
      obtain ⟨lifecycle, hretired⟩ := hretire { peer with descriptor := region }
      rw [hretired] at hstopped
      split at hstopped
      · obtain ⟨lifecycle', rfl⟩ := hstop _ _ hstopped
        exact ⟨_, _, _, rfl⟩
      · cases hstopped
        exact ⟨_, _, _, rfl⟩
    · cases h
      exact ⟨_, _, _, rfl⟩

/-- All that an execution can change. What is neither a raw write nor a prepared command writes records
only. -/
lemma execute_eq (h : peer.execute index op env = some (succeeded, status, peer')) :
    ∃ descriptor regionEndKey lifecycle storage lastRequestId splitState splitJob removals, peer' =
      { peer with
        descriptor := descriptor
        regionEndKey := regionEndKey
        lifecycle := lifecycle
        storage := storage
        lastRequestId := lastRequestId
        splitState := splitState
        splitJob := splitJob
        removals := removals } ∧
      ((∀ value, op.operation ≠ .put value) → (∀ value, op.operation ≠ .append value) →
        (∀ prepared, op.operation ≠ .txnPrepared prepared) →
        (∀ prepared, op.operation ≠ .txnPreparedBatch prepared) →
        peer.storage.WritesRecords storage) := by
  obtain ⟨operation, key, clientId, requestId⟩ := op
  unfold execute at h
  cases operation with
  | adminSplit command =>
    obtain ⟨⟨result, applied⟩, happly, hpeer⟩ := map_eq_some_iff.1 h
    simp only [Prod.mk.injEq] at hpeer
    rw [← hpeer.2.2]
    cases command with
    | none =>
      cases happly
      exact ⟨_, _, _, _, _, _, _, _, rfl, fun _ _ _ _ => .refl _⟩
    | some command =>
      obtain ⟨_, _, _, _, rfl⟩ := applyAdminSplit_eq happly
      exact ⟨_, _, _, _, _, _, _, _, rfl, fun _ _ _ _ => .refl _⟩
  | confChange command =>
    obtain ⟨⟨result, applied⟩, happly, hpeer⟩ := map_eq_some_iff.1 h
    simp only [Prod.mk.injEq] at hpeer
    rw [← hpeer.2.2]
    cases command with
    | none =>
      cases happly
      exact ⟨_, _, _, _, _, _, _, _, rfl, fun _ _ _ _ => .refl _⟩
    | some command =>
      obtain ⟨_, _, _, rfl⟩ := applyConfChange_eq happly
      exact ⟨_, _, _, _, _, _, _, _, rfl, fun _ _ _ _ => .refl _⟩
  -- the storage is free here: the statement leaves these operations out
  | put value | append value | txnPreparedBatch prepared =>
    simp only at h
    split at h
    all_goals
      simp only [some.injEq, Prod.mk.injEq] at h
      obtain ⟨-, -, rfl⟩ := h
      exact ⟨_, _, _, _, _, _, _, _, rfl, by simp⟩
  | txnPrepared prepared =>
    simp only [some.injEq, Prod.mk.injEq] at h
    obtain ⟨-, -, rfl⟩ := h
    exact ⟨_, _, _, _, _, _, _, _, rfl, by simp⟩
  | get | raftNoop | unknown | txnGet payload =>
    simp only [some.injEq, Prod.mk.injEq] at h
    obtain ⟨-, -, rfl⟩ := h
    exact ⟨_, _, _, _, _, _, _, _, rfl, fun _ _ _ _ => .refl _⟩
  -- the direct calls of old logs
  | txnPrewrite payload | txnCommit payload | txnRollback payload
  | txnAcquirePessimisticLock payload | txnGarbageCollect payload =>
    simp only [applyLegacy, some.injEq, Prod.mk.injEq] at h
    obtain ⟨-, -, rfl⟩ := h
    refine ⟨_, _, _, _, _, _, _, _, rfl, fun _ _ _ _ => ?_⟩
    dsimp only [markRequest, withStorage]
    split
    · exact .refl _
    · first
      | exact writesRecords_prewriteLocked ..
      | exact writesRecords_commit ..
      | exact writesRecords_rollback ..
      | exact writesRecords_acquirePessimisticLock ..
      | exact writesRecords_garbageCollect ..

lemma executeDuplicate_writesRecords :
    peer.storage.WritesRecords (peer.executeDuplicate op env).2.storage := by
  unfold executeDuplicate
  cases op.operation with
  | txnCommit payload => exact writesRecords_commit ..
  | txnRollback payload => exact writesRecords_rollback ..
  | txnGarbageCollect payload => exact writesRecords_garbageCollect ..
  | _ => exact .refl _

lemma executeDuplicate_eq : ∃ storage, (peer.executeDuplicate op env).2 = peer.withStorage storage := by
  unfold executeDuplicate
  cases op.operation <;> exact ⟨_, rfl⟩

/-- An entry leaves the place of the peer and its progress. -/
lemma getCommandFromRaft_frame
    (h : peer.getCommandFromRaft index op env = some (succeeded, status, peer')) :
    peer'.me = peer.me ∧ peer'.progress = peer.progress := by
  unfold getCommandFromRaft at h
  split at h
  · cases h
    exact ⟨rfl, rfl⟩
  · split at h
    · simp only [some.injEq, Prod.mk.injEq] at h
      obtain ⟨storage, heq⟩ := @executeDuplicate_eq peer op env
      rw [← h.2.2, heq]
      exact ⟨rfl, rfl⟩
    · obtain ⟨_, _, _, _, _, _, _, _, rfl, -⟩ := execute_eq h
      exact ⟨rfl, rfl⟩

section

variable (h : peer.applyCommand index op env = some (succeeded, status, peer'))

include h

/-- The apply loop takes what the execution leaves, and moves on or gives up. -/
lemma applyCommand_eq :
    ∃ applied, peer.getCommandFromRaft index op env = some (succeeded, status, applied) ∧
      peer' = if succeeded then applied.advanceStateMachineApplied index
        else applied.markStateMachineUnhealthy := by
  obtain ⟨⟨_ | _, result, applied⟩, hget, heq⟩ := map_eq_some_iff.1 h
  all_goals
    cases heq
    exact ⟨applied, hget, rfl⟩

lemma applyCommand_me : peer'.me = peer.me := by
  obtain ⟨applied, hget, rfl⟩ := applyCommand_eq h
  rw [← (getCommandFromRaft_frame hget).1]
  split <;> rfl

/-- An entry that is applied moves the applied index and nothing else of the progress. -/
lemma applyCommand_progress : peer'.progress =
      if succeeded then (max peer.stateMachineAppliedIndex index, peer.stateMachineHealthy,
        peer.lastSnapShotRaftLogIndex)
      else (peer.stateMachineAppliedIndex, false, peer.lastSnapShotRaftLogIndex) := by
  obtain ⟨applied, hget, rfl⟩ := applyCommand_eq h
  have hprogress := (getCommandFromRaft_frame hget).2
  simp only [progress, Prod.mk.injEq] at hprogress
  cases succeeded <;>
    simp [progress, advanceStateMachineApplied, markStateMachineUnhealthy, hprogress]

end

/-- The background thread of a split leaves the progress of the apply loop. -/
lemma materializeSplitChild_frame (peer : RegionPeer) (job : SplitJob) :
    (peer.materializeSplitChild job).me = peer.me ∧
      (peer.materializeSplitChild job).progress = peer.progress := by
  unfold materializeSplitChild
  split <;> try exact ⟨rfl, rfl⟩
  · dsimp only
    split <;> exact ⟨rfl, rfl⟩

lemma foldl_markRequest (ops : List Op) (peer : RegionPeer) :
    ops.foldl markRequest peer = { peer with
      lastRequestId := ops.foldl (fun table op => table.insert op.clientId op.requestId)
        peer.lastRequestId } := by
  induction ops generalizing peer with
  | nil => rfl
  | cons op rest ih => exact ih (peer.markRequest op)

/-- The first request of a batch that passes the check is no duplicate, and the rest of the batch
passes on top of it; `staged` over `last` is the table that the entries before have left. -/
lemma stageRequests_cons {last staged table : ExtTreeMap Bytes Int32 compare} {rest : List Op}
    (htable : ∀ client : Bytes, table[client]? = staged[client]?.or last[client]?)
    (h : stageRequests last staged (op :: rest) = true) :
    (table[op.clientId]?.any fun last => op.requestId ≤ last) = false ∧
      stageRequests last (staged.insert op.clientId op.requestId) rest = true ∧
      ∀ client : Bytes, (table.insert op.clientId op.requestId)[client]? =
        (staged.insert op.clientId op.requestId)[client]?.or last[client]? := by
  rw [← and_assoc]
  constructor
  · rw [htable]
    unfold stageRequests at h
    cases hstaged : staged[op.clientId]? with
    | none | some value => simpa [hstaged] using h
  · intro client
    simp only [ExtTreeMap.getElem?_insert, htable]
    split <;> simp

variable {messages : List (ℕ × Op)}

/-- A batch that is refused changes nothing but the storage it was tried on. -/
lemma tryBatchApplyFromRaft_refused (h : peer.tryBatchApplyFromRaft messages env = (false, peer')) :
    peer' = peer ∨ ∃ commands, (messages.mapM fun m => preparedCommand m.1 m.2) = some commands ∧
      (peer.storage.applyPreparedCommandsAtomically commands env.toApplyEnv).1 = false ∧
      peer' = peer.withStorage
        (peer.storage.applyPreparedCommandsAtomically commands env.toApplyEnv).2 := by
  unfold tryBatchApplyFromRaft at h
  split at h
  · cases h
    exact .inl rfl
  · split at h
    · cases h
      exact .inl rfl
    · rename_i commands hcommands
      split at h
      · cases h
        exact .inl rfl
      · dsimp only at h
        split_ifs at h with hrefused
        · cases h
          exact .inr ⟨commands, hcommands, by simpa using hrefused, rfl⟩
        · simp at h

section

variable (h : peer.tryBatchApplyFromRaft messages env = (true, peer'))

include h

/-- What an applied batch has passed and done. -/
lemma tryBatchApplyFromRaft_applied : 2 ≤ messages.length ∧ ∃ commands,
      (messages.mapM fun m => preparedCommand m.1 m.2) = some commands ∧
      stageRequests peer.lastRequestId ∅ (messages.map Prod.snd) = true ∧
      (peer.storage.applyPreparedCommandsAtomically commands env.toApplyEnv).1 = true ∧
      peer' = { peer with
        storage := (peer.storage.applyPreparedCommandsAtomically commands env.toApplyEnv).2
        lastRequestId := (messages.map Prod.snd).foldl
          (fun table op => table.insert op.clientId op.requestId) peer.lastRequestId
        stateMachineAppliedIndex :=
          max peer.stateMachineAppliedIndex ((messages.getLast?.map Prod.fst).getD 0) } := by
  unfold tryBatchApplyFromRaft at h
  split at h
  · simp at h
  · rename_i hready
    refine ⟨by omega, ?_⟩
    split at h
    · simp at h
    · rename_i commands hcommands
      split_ifs at h with hstage
      · simp at h
      · dsimp only at h
        split_ifs at h with happlied
        · simp at h
        · simp only [Prod.mk.injEq, true_and, foldl_markRequest] at h
          exact ⟨commands, hcommands, by simpa using hstage, by simpa using happlied, h.symm⟩

lemma tryBatchApplyFromRaft_above : ∀ m ∈ messages, peer.lastSnapShotRaftLogIndex < m.1 := by
  unfold tryBatchApplyFromRaft at h
  split at h
  · simp at h
  · rename_i hready
    simp only [not_or, List.any_eq_true, decide_eq_true_eq, not_exists, not_and, not_le] at hready
    exact hready.2

end

lemma tryBatchApplyFromRaft_progress_of_refused
    (h : peer.tryBatchApplyFromRaft messages env = (false, peer')) :
    peer'.progress = peer.progress := by
  rcases tryBatchApplyFromRaft_refused h with rfl | ⟨commands, -, -, rfl⟩ <;> rfl

/-- A batch that is applied moves the applied index to its last entry. -/
lemma tryBatchApplyFromRaft_progress (h : peer.tryBatchApplyFromRaft messages env = (true, peer')) :
    peer'.progress = (max peer.stateMachineAppliedIndex ((messages.getLast?.map Prod.fst).getD 0),
      peer.stateMachineHealthy, peer.lastSnapShotRaftLogIndex) := by
  obtain ⟨-, commands, -, -, -, rfl⟩ := tryBatchApplyFromRaft_applied h
  rfl

lemma tryBatchApplyFromRaft_me (h : peer.tryBatchApplyFromRaft messages env = (succeeded, peer')) :
    peer'.me = peer.me := by
  cases succeeded with
  | true =>
    obtain ⟨-, commands, -, -, -, rfl⟩ := tryBatchApplyFromRaft_applied h
    rfl
  | false => rcases tryBatchApplyFromRaft_refused h with rfl | ⟨commands, -, -, rfl⟩ <;> rfl

end

end RegionPeer

end StrataKV.Region
