import StrataKV.Mvcc.Serve

/-!
# The transaction coordinator, the resolvers and the regions

One transaction is driven by its coordinator (`DistributedTransactionCoordinator::Commit` and
`Rollback`) while resolvers (`LockResolver::ResolveLock` and `TxnRecoveryManager::ScanOnce`) act on
the locks it leaves behind. All of them talk to the regions by messages that may be delayed, lost,
reordered or delivered many times.

* A request is a message that is in `World.sent` from then on; `Event.deliver` has its region
  serve it, once more each time.
* A caller that waits for requests proceeds with an outcome for each: a reply to it, or a failure of
  the transport that tells nothing.
* The coordinator is a state machine whose phases are the points where it waits.
* `Config.route` finds a region for every key. Where the router or a storage throws instead, the
  exception leaves `Commit` or `Rollback` with the handle as it is at that point (`CallEvent.leave`).
-/

namespace StrataKV.Txn

open Mvcc
open Std (ExtTreeMap)

/-! ## The transaction handle -/

inductive TransactionState
  | active
  | abortOnly
  | cleanupPending
  | resultUnknown
  | finished
  deriving DecidableEq

structure TxnMutation where
  value : Bytes
  isDelete : Bool := false
  deriving DecidableEq

structure Transaction where
  startTs : Ts
  mutations : ExtTreeMap Bytes TxnMutation compare
  pessimisticLocks : List Bytes := []
  uncertainPessimisticLocks : List Bytes := []
  primaryKey : Str
  maxForUpdateTs : Ts := 0
  state : TransactionState := .active

namespace Transaction

variable (txn : Transaction)

def hasMutation (key : Bytes) : Bool := txn.mutations.contains key

/-- The keys of the mutations, in ascending order. -/
def mutationKeys : List Bytes := txn.mutations.toList.map Prod.fst

def cleanupKeys : List Bytes :=
  MvccStorage.orderedKeys
    (txn.mutationKeys ++ txn.pessimisticLocks ++ txn.uncertainPessimisticLocks)

def forgetPessimisticLocks (keys : List Bytes) : Transaction :=
  { txn with
    pessimisticLocks := txn.pessimisticLocks.filter (· ∉ keys)
    uncertainPessimisticLocks := txn.uncertainPessimisticLocks.filter (· ∉ keys) }

def clearPessimisticLocks : Transaction :=
  { txn with pessimisticLocks := [], uncertainPessimisticLocks := [] }

def markAbortOnly : Transaction :=
  if txn.state = .active then { txn with state := .abortOnly } else txn

def markCleanupPending : Transaction :=
  if txn.state = .active ∨ txn.state = .abortOnly then { txn with state := .cleanupPending } else txn

def markResultUnknown : Transaction :=
  if txn.state ≠ .finished then { txn with state := .resultUnknown } else txn

def markFinished : Transaction := { txn with state := .finished }

/-- What `Commit` prewrites: the mutations, and a lock-only one of a primary that has none. -/
def pending : List MvccMutation :=
  (if txn.hasMutation txn.primaryKey then []
    else [{ key := txn.primaryKey, isLockOnly := true }]) ++
  txn.mutations.toList.map fun item =>
    { key := item.1, value := item.2.value, isDelete := item.2.isDelete }

/-- The confirmed locks that are neither mutated nor the primary. -/
def purePessimisticLocks : List Bytes :=
  txn.pessimisticLocks.filter fun key => key ≠ txn.primaryKey ∧ ¬txn.hasMutation key

end Transaction

/-! ## Requests by region -/

/-- The routing table and the options of the coordinator. -/
structure Config where
  route : Bytes → ℕ
  batchEnabled : Bool
  lockTtlMs : UInt64

namespace Config

variable {α : Type} (cfg : Config)

def groupByRegion (keyOf : α → Bytes) (items : List α) : List (ℕ × List α) :=
  ((items.map fun item => cfg.route (keyOf item)).insertionSort (· ≤ ·)).dedup.map fun region =>
    (region, items.filter fun item => cfg.route (keyOf item) = region)

/-- What is sent now, and what is left: all of it by region, or one after another without
batches. -/
def dispatch (keyOf : α → Bytes) (items : List α) : List (ℕ × List α) × List α :=
  if cfg.batchEnabled then (cfg.groupByRegion keyOf items, [])
  else match items with
    | [] => ([], [])
    | item :: rest => ([(cfg.route (keyOf item), [item])], rest)

/-- Batches are made of sorted keys. -/
def batchOrder (keys : List Bytes) : List Bytes :=
  if cfg.batchEnabled then MvccStorage.orderedKeys keys else keys

def rollbackCommand (startTs : Ts) (keys : List Bytes) : Command :=
  if cfg.batchEnabled then .batchRollback keys startTs else .rollback (keys.headD []) startTs

def commitCommand (startTs commitTs : Ts) (keys : List Bytes) : Command :=
  if cfg.batchEnabled then .batchCommit keys startTs commitTs
  else .commit (keys.headD []) startTs commitTs

/-- A prewrite request; the clocks are read by the region that serves it. -/
def prewriteCommand (txn : Transaction) (mutations : List MvccMutation) : Command :=
  if cfg.batchEnabled then
    .batchPrewrite mutations txn.primaryKey txn.startTs cfg.lockTtlMs txn.maxForUpdateTs
      (fun _ => 0) (fun _ => 0)
  else
    let mutation := mutations.headD { key := [] }
    if mutation.isLockOnly then
      .prewriteLock mutation.key txn.primaryKey txn.startTs cfg.lockTtlMs txn.maxForUpdateTs
    else
      .prewrite mutation.key mutation.value txn.primaryKey txn.startTs cfg.lockTtlMs
        mutation.isDelete txn.maxForUpdateTs 0 0

end Config

/-- The request with the clock readings of the region that serves it. -/
def atClock (nowMs nowMs' : Bytes → UInt64) : Command → Command
  | .prewrite key value primaryKey startTs ttlMs isDelete forUpdateTs _ _ =>
    .prewrite key value primaryKey startTs ttlMs isDelete forUpdateTs (nowMs key) (nowMs' key)
  | .pessimisticLock key primaryKey startTs ttlMs forUpdateTs expireAt _ =>
    .pessimisticLock key primaryKey startTs ttlMs forUpdateTs expireAt (nowMs key)
  | .batchPrewrite mutations primaryKey startTs ttlMs forUpdateTs _ _ =>
    .batchPrewrite mutations primaryKey startTs ttlMs forUpdateTs nowMs nowMs'
  | command => command

/-! ## The state of the system -/

inductive Sender
  | coordinator
  | resolver
  deriving DecidableEq

structure Message where
  sender : Sender
  region : ℕ
  command : Command

/-- What the caller of a request goes on with. -/
structure Outcome where
  status : TxnStatus
  record : TxnRecordStatus := {}
  regroupRequired : Bool := false
  deriving DecidableEq

inductive ApiCall
  | commit
  | rollback
  deriving DecidableEq

/-- A return of `Commit` or `Rollback`, and whether a prewrite had been sent by then. -/
structure CallReturn where
  call : ApiCall
  status : TxnStatus
  sentPrewrite : Bool
  deriving DecidableEq

/-- Who called `CleanupTransaction`, and so what happens after it. -/
inductive AfterCleanup
  | emptyCommit
  | abort (status : TxnStatus)
  | rollback
  deriving DecidableEq

/-- Where the coordinator waits. A list of calls pairs the number of a request with what it is
about; `rest` is what is left to send. -/
inductive Phase
  | idle
  | prewrite (calls : List (ℕ × List MvccMutation)) (rest : List MvccMutation) (mayRegroup : Bool)
      (status : TxnStatus) (prewritten : List Bytes)
  | allocateCommitTs (prewritten : List Bytes)
  | commitPrimary (call : ℕ) (commitTs : Ts) (prewritten : List Bytes)
  | queryPrimary (call : ℕ) (commitTs : Ts) (prewritten : List Bytes)
  | commitSecondaries (calls : List (ℕ × List Bytes)) (rest : List Bytes) (commitTs : Ts)
  | releaseLocks (calls : List (ℕ × List Bytes)) (rest : List Bytes)
  | cleanup (calls : List (ℕ × List Bytes)) (rest : List Bytes) (aggregate : TxnStatus)
      (after : AfterCleanup)
  | queryRollback (call : ℕ)
  | resolve (call : ℕ) (key : Bytes) (rest : List Bytes) (record : TxnRecordStatus)
      (resolved : TxnStatus)
  | crashed

/-- The requests that the coordinator waits for. -/
def Phase.calls : Phase → List ℕ
  | .prewrite calls .. => calls.map Prod.fst
  | .commitPrimary call .. => [call]
  | .queryPrimary call .. => [call]
  | .commitSecondaries calls .. => calls.map Prod.fst
  | .releaseLocks calls .. => calls.map Prod.fst
  | .cleanup calls .. => calls.map Prod.fst
  | .queryRollback call => [call]
  | .resolve call .. => [call]
  | _ => []

def Phase.isIdle : Phase → Bool
  | .idle => true
  | _ => false

/-- A resolver that has asked for the status of a lock's primary. -/
structure ResolverTask where
  key : Bytes
  call : ℕ

structure World where
  regions : ℕ → MvccStorage
  sent : List Message := []
  /-- The replies to requests, with the number of the request. -/
  replies : List (ℕ × Reply) := []
  tasks : List ResolverTask := []
  txn : Transaction
  phase : Phase := .idle
  returned : List CallReturn := []

namespace World

def initial (txn : Transaction) : World := { regions := fun _ => .empty, txn := txn }

def isPrewrite : Command → Bool
  | .prewrite .. => true
  | .prewriteLock .. => true
  | .batchPrewrite .. => true
  | _ => false

variable (w : World)

def prewriteSent : Bool := w.sent.any fun message => isPrewrite message.command

/-- Return from the running call. -/
def ret (call : ApiCall) (status : TxnStatus) : World :=
  { w with phase := .idle, returned := w.returned ++ [⟨call, status, w.prewriteSent⟩] }

def send (sender : Sender) (region : ℕ) (command : Command) : World :=
  { w with sent := w.sent ++ [⟨sender, region, command⟩] }

/-- Send one request for each batch. -/
def sendAll {α : Type} (batches : List (ℕ × List α)) (command : List α → Command) : World :=
  { w with sent := w.sent ++ batches.map fun batch => ⟨.coordinator, batch.1, command batch.2⟩ }

/-- The numbers of the requests that `sendAll` sends. -/
def numbered {α : Type} (batches : List (ℕ × List α)) : List (ℕ × List α) :=
  batches.zipIdx.map fun item => (w.sent.length + item.2, item.1.2)

/-! ## Cleanup -/

/-- The end of `CleanupTransaction` and what its caller does next. -/
def finishCleanup (aggregate : TxnStatus) (after : AfterCleanup) : World :=
  let txn := if aggregate = .ok then w.txn.clearPessimisticLocks else w.txn
  match after with
  | .emptyCommit =>
    if aggregate = .ok then { w with txn := txn.markFinished }.ret .commit .ok
    else { w with txn := txn.markCleanupPending }.ret .commit .cleanupPending
  | .abort status =>
    if aggregate = .ok then
      -- a lost prewrite reply is a known abort once every key is rolled back
      { w with txn := txn }.ret .commit (if status = TxnStatus.resultUnknown then .timeout else status)
    else { w with txn := txn.markCleanupPending }.ret .commit .cleanupPending
  | .rollback =>
    if aggregate = .ok then { w with txn := txn.markFinished }.ret .rollback .ok
    else if aggregate = .alreadyCommitted then
      { w with txn := txn.markFinished }.ret .rollback .alreadyCommitted
    else { w with txn := txn.markCleanupPending }.ret .rollback .cleanupPending

variable (cfg : Config)

/-- Roll back the keys that are left. -/
def cleanupNext (w : World) (keys : List Bytes) (aggregate : TxnStatus)
    (after : AfterCleanup) : World :=
  let (batches, rest) := cfg.dispatch id keys
  if batches = [] then w.finishCleanup aggregate after
  else
    { w.sendAll batches (cfg.rollbackCommand w.txn.startTs) with
      phase := .cleanup (w.numbered batches) rest aggregate after }

/-- `CleanupTransaction`. -/
def startCleanup (w : World) (after : AfterCleanup) : World :=
  w.cleanupNext cfg w.txn.cleanupKeys .ok after

/-- One reply to a rollback request. -/
def cleanupReply (acc : Transaction × TxnStatus) (keys : List Bytes) (status : TxnStatus) :
    Transaction × TxnStatus :=
  if status = .ok then (acc.1.forgetPessimisticLocks keys, acc.2)
  else if status = .alreadyCommitted then (acc.1, .alreadyCommitted)
  else (acc.1, .cleanupPending)

def cleanupReplies (acc : Transaction × TxnStatus) :
    List ((ℕ × List Bytes) × Outcome) → Transaction × TxnStatus
  | [] => acc
  | (call, outcome) :: items => cleanupReplies (cleanupReply acc call.2 outcome.status) items

/-! ## Commit -/

/-- All prewrites are answered. -/
def prewriteDone (w : World) (status : TxnStatus) (prewritten : List Bytes) : World :=
  if status ≠ .ok then { w with txn := w.txn.markAbortOnly }.startCleanup cfg (.abort status)
  else { w with phase := .allocateCommitTs prewritten }

/-- Prewrite the mutations that are left. -/
def prewriteNext (w : World) (mutations : List MvccMutation) (mayRegroup : Bool)
    (status : TxnStatus) (prewritten : List Bytes) : World :=
  let (batches, rest) := cfg.dispatch MvccMutation.key
    (if cfg.batchEnabled then mutations.insertionSort fun a b => a.key ≤ b.key else mutations)
  if batches = [] then w.prewriteDone cfg status prewritten
  else
    { w.sendAll batches (cfg.prewriteCommand w.txn) with
      phase := .prewrite (w.numbered batches) rest mayRegroup status prewritten }

/-- The replies of one round of prewrites: the first failure, the keys that are prewritten and the
mutations that have to be grouped again. -/
def prewriteReplies (mayRegroup : Bool) (acc : TxnStatus × List Bytes × List MvccMutation) :
    List ((ℕ × List MvccMutation) × Outcome) → TxnStatus × List Bytes × List MvccMutation
  | [] => acc
  | (call, outcome) :: items =>
    let (status, prewritten, regroup) := acc
    prewriteReplies mayRegroup
      (if outcome.status = .ok then (status, prewritten ++ call.2.map MvccMutation.key, regroup)
      else if outcome.regroupRequired && mayRegroup then (status, prewritten, regroup ++ call.2)
      else (if status = .ok then outcome.status else status, prewritten, regroup)) items

/-- Release the locks that nothing was written under, and finish. -/
def releaseNext (w : World) (keys : List Bytes) : World :=
  let (batches, rest) := cfg.dispatch id keys
  if batches = [] then
    { w with txn := w.txn.clearPessimisticLocks.markFinished }.ret .commit .ok
  else
    { w.sendAll batches (cfg.rollbackCommand w.txn.startTs) with
      phase := .releaseLocks (w.numbered batches) rest }

/-- Commit the secondaries that are left. -/
def commitNext (w : World) (keys : List Bytes) (commitTs : Ts) : World :=
  let (batches, rest) := cfg.dispatch id keys
  if batches = [] then w.releaseNext cfg (cfg.batchOrder w.txn.purePessimisticLocks)
  else
    { w.sendAll batches (cfg.commitCommand w.txn.startTs commitTs) with
      phase := .commitSecondaries (w.numbered batches) rest commitTs }

def secondaryKeys (w : World) (prewritten : List Bytes) : List Bytes :=
  cfg.batchOrder (prewritten.filter (· ≠ w.txn.primaryKey.1))

def sendCommitPrimary (w : World) (commitTs : Ts) (prewritten : List Bytes) : World :=
  { w.send .coordinator (cfg.route w.txn.primaryKey)
      (.commit w.txn.primaryKey w.txn.startTs commitTs) with
    phase := .commitPrimary w.sent.length commitTs prewritten }

/-- `QueryStatus`: ask for the primary's status without rolling it back. -/
def sendQuery (w : World) (nowMs : UInt64) (phase : ℕ → Phase) : World :=
  { w.send .coordinator (cfg.route w.txn.primaryKey)
      (.checkTxnStatus w.txn.primaryKey w.txn.startTs nowMs false) with
    phase := phase w.sent.length }

def resultUnknown : World :=
  { w with txn := w.txn.markResultUnknown }.ret .commit .resultUnknown

def isCommitSuccess (status : TxnStatus) : Bool := status = .ok || status = .alreadyCommitted

/-- `Commit` up to its first request; `active` is what `CheckActiveAndDeadline` says of an active
transaction. -/
def startCommit (w : World) (active : TxnStatus) : World :=
  match w.txn.state with
  | .abortOnly => w.ret .commit .abortOnly
  | .cleanupPending => w.ret .commit .cleanupPending
  | .resultUnknown => w.ret .commit .resultUnknown
  | .finished => w.ret .commit .abortOnly
  | .active =>
    if active = .timeout then { w with txn := w.txn.markAbortOnly }.ret .commit .timeout
    else if active ≠ .ok then w.ret .commit .storageError
    else if w.txn.mutations.isEmpty then w.startCleanup cfg .emptyCommit
    else if w.txn.primaryKey.1 = [] then w.ret .commit .storageError
    else w.prewriteNext cfg w.txn.pending cfg.batchEnabled .ok []

/-! ## Rollback -/

/-- The decision that `Rollback` resolves the keys with: what is not decided is rolled back. -/
def resolutionState (state : TxnRecordState) : TxnRecordState :=
  if state = .locked ∨ state = .notFound then .rolledBack else state

/-- Resolve the keys that are left, one after another. -/
def resolveNext (w : World) (keys : List Bytes) (record : TxnRecordStatus)
    (resolved : TxnStatus) : World :=
  match keys with
  | key :: rest =>
    { w.send .coordinator (cfg.route key)
        (.resolveLock key w.txn.startTs (resolutionState record.state) record.commitTs) with
      phase := .resolve w.sent.length key rest record resolved }
  | [] =>
    if resolved ≠ .ok then { w with txn := w.txn.markCleanupPending }.ret .rollback resolved
    else
      { w with txn := w.txn.clearPessimisticLocks.markFinished }.ret .rollback
        (if record.state = TxnRecordState.committed then .alreadyCommitted else .ok)

/-- `Rollback` up to its first request; `nowMs` is the clock of the query, if it could be read. -/
def startRollback (w : World) (nowMs : Option UInt64) : World :=
  match w.txn.state with
  | .finished => w.ret .rollback .ok
  | .resultUnknown =>
    match nowMs with
    | some nowMs =>
      if w.txn.primaryKey.1 = [] then w.ret .rollback .resultUnknown
      else w.sendQuery cfg nowMs .queryRollback
    | none => w.ret .rollback .resultUnknown
  | _ => w.startCleanup cfg .rollback

/-- The coordinator goes on with the outcomes of the requests it waits for. `expired` says whether
the budget of the commit loop is used up, `nowMs` is the clock of its next query. -/
def proceed (w : World) (outcomes : List Outcome) (expired : Bool) (nowMs : UInt64) : World :=
  match w.phase with
  | .prewrite calls rest mayRegroup status prewritten =>
    let (status, prewritten, regroup) :=
      prewriteReplies mayRegroup (status, prewritten, []) (calls.zip outcomes)
    if regroup ≠ [] then w.prewriteNext cfg regroup false status prewritten
    else if status = .ok then w.prewriteNext cfg rest mayRegroup status prewritten
    else w.prewriteDone cfg status prewritten
  | .commitPrimary _ commitTs prewritten =>
    match outcomes with
    | [outcome] =>
      if isCommitSuccess outcome.status then
        w.commitNext cfg (w.secondaryKeys cfg prewritten) commitTs
      else if expired then w.resultUnknown
      else w.sendQuery cfg nowMs (.queryPrimary · commitTs prewritten)
    | _ => w
  | .queryPrimary _ commitTs prewritten =>
    match outcomes with
    | [outcome] =>
      if outcome.status = .ok ∧ outcome.record.state = .committed then
        w.commitNext cfg (w.secondaryKeys cfg prewritten) outcome.record.commitTs
      else if outcome.status = .ok ∧ outcome.record.state = .rolledBack then
        { w with txn := w.txn.markAbortOnly }.startCleanup cfg (.abort .writeConflict)
      else if expired then w.resultUnknown
      else if outcome.status = .ok then w.sendCommitPrimary cfg commitTs prewritten
      else w.sendQuery cfg nowMs (.queryPrimary · commitTs prewritten)
    | _ => w
  | .commitSecondaries _ rest commitTs => w.commitNext cfg rest commitTs
  | .releaseLocks _ rest => w.releaseNext cfg rest
  | .cleanup calls rest aggregate after =>
    let (txn, aggregate) := cleanupReplies (w.txn, aggregate) (calls.zip outcomes)
    { w with txn := txn }.cleanupNext cfg rest aggregate after
  | .queryRollback _ =>
    match outcomes with
    | [outcome] =>
      if outcome.status ≠ .ok then w.ret .rollback .resultUnknown
      else w.resolveNext cfg w.txn.cleanupKeys outcome.record .ok
    | _ => w
  | .resolve _ _ rest record resolved =>
    match outcomes with
    | [outcome] =>
      w.resolveNext cfg rest record (if outcome.status = .ok then resolved else .cleanupPending)
    | _ => w
  | .idle => w
  | .allocateCommitTs _ => w
  | .crashed => w

/-- The commit timestamp is there, or the oracle fails. -/
def allocated (w : World) (commitTs : Option Ts) : World :=
  match w.phase with
  | .allocateCommitTs prewritten =>
    match commitTs with
    | some commitTs => w.sendCommitPrimary cfg commitTs prewritten
    | none =>
      { w with txn := w.txn.markAbortOnly }.startCleanup cfg (.abort .storageError)
  | _ => w

/-! ## Regions and resolvers -/

/-- A region serves a request that was sent to it. -/
def deliver (number : ℕ) (nowMs nowMs' : Bytes → UInt64) (raftIndex : UInt64)
    (env : ApplyEnv) : World :=
  match w.sent[number]? with
  | none => w
  | some message =>
    let result := (w.regions message.region).serve
      ⟨atClock nowMs nowMs' message.command, raftIndex, env⟩
    { w with
      regions := Function.update w.regions message.region result.2
      replies := w.replies ++ [(number, result.1)] }

def isExpired (lock : MvccLock) (nowMs : UInt64) : Bool :=
  if !lock.legacyExpiry && lock.expireAtPhysicalMs != 0 then lock.expireAtPhysicalMs ≤ nowMs
  else lock.createTimeMs != 0 && lock.ttlMs != 0 && lock.createTimeMs + lock.ttlMs ≤ nowMs

/-- A resolver takes up a lock of the transaction. The recovery scan does not ask for the status of
a primary it finds expired. -/
def observe (w : World) (key : Bytes) (nowMs : UInt64) (scan : Bool) : World :=
  match (w.regions (cfg.route key)).locks[key]? with
  | none => w
  | some lock =>
    if scan ∧ key = lock.primaryKey then
      w.send .resolver (cfg.route key) (.resolveLock key w.txn.startTs .rolledBack 0)
    else
      { w.send .resolver (cfg.route lock.primaryKey)
          (.checkTxnStatus lock.primaryKey w.txn.startTs nowMs true) with
        tasks := w.tasks ++ [⟨key, w.sent.length⟩] }

/-- The resolver acts on the status of the primary: committed, or anything else but locked. -/
def resolveTask (w : World) (task : ℕ) (record : TxnRecordStatus) : World :=
  match w.tasks[task]? with
  | none => w
  | some task =>
    w.send .resolver (cfg.route task.key)
      (if record.state = .committed then
        .resolveLock task.key w.txn.startTs .committed record.commitTs
      else .resolveLock task.key w.txn.startTs .rolledBack 0)

end World

/-! ## Runs -/

inductive Event
  /-- A command of another transaction. -/
  | other (region : ℕ) (step : Step)
  /-- A pessimistic lock request that the transaction made before `Commit`. -/
  | acquire (key : Bytes) (forUpdateTs : Ts) (expireAt : UInt64)
  | deliver (number : ℕ) (nowMs nowMs' : Bytes → UInt64) (raftIndex : UInt64) (env : ApplyEnv)
  | observe (key : Bytes) (nowMs : UInt64) (scan : Bool)
  | resolveTask (task : ℕ) (reply : Reply)
  | commit (active : TxnStatus)
  | allocated (commitTs : Option Ts)
  | proceed (outcomes : List Outcome) (expired : Bool) (nowMs : UInt64)
  | rollback (nowMs : Option UInt64)
  | crash

namespace World

def next (cfg : Config) (w : World) : Event → World
  | .other region step =>
    { w with regions := Function.update w.regions region ((w.regions region).exec step).2 }
  | .acquire key forUpdateTs expireAt =>
    w.send .coordinator (cfg.route key)
      (.pessimisticLock key w.txn.primaryKey w.txn.startTs cfg.lockTtlMs forUpdateTs expireAt 0)
  | .deliver number nowMs nowMs' raftIndex env => w.deliver number nowMs nowMs' raftIndex env
  | .observe key nowMs scan => w.observe cfg key nowMs scan
  | .resolveTask task reply => w.resolveTask cfg task reply.record
  | .commit active => w.startCommit cfg active
  | .allocated commitTs => w.allocated cfg commitTs
  | .proceed outcomes expired nowMs => w.proceed cfg outcomes expired nowMs
  | .rollback nowMs => w.startRollback cfg nowMs
  | .crash => { w with phase := .crashed }

/-- A reply to the request, or a failure of the transport. -/
def Possible (w : World) (number : ℕ) (outcome : Outcome) : Prop :=
  ((number, ⟨outcome.status, outcome.record⟩) ∈ w.replies ∧ outcome.regroupRequired = false) ∨
    outcome.status ∈ [.resultUnknown, .timeout, .storageError]

instance (w : World) (number : ℕ) (outcome : Outcome) : Decidable (w.Possible number outcome) :=
  inferInstanceAs (Decidable (_ ∨ _))

/-- When an event can happen. -/
def Enabled (cfg : Config) (isStart : Ts → Prop) (w : World) : Event → Prop
  | .other _ step =>
    step.command.safePoint? = none ∧
      ∀ c ∈ step.command.parts, c.startTs ≠ w.txn.startTs ∧ c.TimestampsApart isStart
  | .acquire .. => True
  | .deliver number _ _ raftIndex _ =>
    ∀ message ∈ w.sent[number]?, ¬(w.regions message.region).Stale raftIndex
  | .observe key nowMs _ =>
    ∃ lock ∈ (w.regions (cfg.route key)).locks[key]?,
      lock.startTs = w.txn.startTs ∧ isExpired lock nowMs = true
  | .resolveTask task reply =>
    reply.status = .ok ∧ reply.record.state ≠ .locked ∧
      ∀ t ∈ w.tasks[task]?, (ResolverTask.call t, reply) ∈ w.replies
  | .commit _ => w.phase.isIdle
  | .allocated commitTs => ∀ ts ∈ commitTs,
    max w.txn.startTs w.txn.maxForUpdateTs < ts ∧ ¬isStart ts
  | .proceed outcomes _ _ =>
    List.Forall₂ w.Possible w.phase.calls outcomes
  | .rollback _ => w.phase.isIdle
  | .crash => True

end World

/-! ## Exceptions -/

/-- A step of a run in which calls may also end by an exception. -/
inductive CallEvent
  | step (event : Event)
  /-- The running call is left after `outcomes`, the first of those that it waits for; `aborting` if
  it has given up the commit by then. -/
  | leave (outcomes : List Outcome) (aborting : Bool)

namespace World

/-- Nothing is returned, and the handle stays as the call has made it. -/
def leave (w : World) (outcomes : List Outcome) (aborting : Bool) : World :=
  { w with
    phase := .idle
    txn := match w.phase with
      | .cleanup calls _ aggregate _ => (cleanupReplies (w.txn, aggregate) (calls.zip outcomes)).1
      | _ => if aborting then w.txn.markAbortOnly else w.txn }

def nextCall (cfg : Config) (w : World) : CallEvent → World
  | .step event => w.next cfg event
  | .leave outcomes aborting => w.leave outcomes aborting

/-- The commit is given up for a failed prewrite, for want of a timestamp, or because the primary is
found rolled back. -/
def MayAbort (w : World) (outcomes : List Outcome) : Prop :=
  match w.phase with
  | .prewrite .. | .allocateCommitTs _ => True
  | .queryPrimary .. =>
    outcomes.any (fun outcome => outcome.status = .ok && outcome.record.state = .rolledBack) = true
  | _ => False

def EnabledCall (cfg : Config) (isStart : Ts → Prop) (w : World) : CallEvent → Prop
  | .step event => w.Enabled cfg isStart event
  | .leave outcomes aborting =>
    (w.phase matches .idle | .crashed) = false ∧
      List.Forall₂ w.Possible (w.phase.calls.take outcomes.length) outcomes ∧
      (aborting = true → w.MayAbort outcomes)

end World

end StrataKV.Txn
