import StrataKV.Lib.Decimal

/-!
# One Raft object (`raft/raft.cpp`)

The members of `Raft` that decide anything, and its functions as they act on them while they hold
the state mutex. A failed `myAssert` ends the process: such a function returns `none`, and what it
had not persisted is lost.

Terms and indexes are `int` in the source and natural numbers here: the runs are those in which they
stay below 2³¹.

Not modelled: `ReadIndex`, the removal of a peer (the membership is fixed), timers and the counters
that are only reported.
-/

namespace StrataKV.Raft

structure LogEntry where
  command : Bytes
  logTerm : ℕ
  logIndex : ℕ
deriving DecidableEq, Repr

/-- The roles of the peers, and what `Op::asString` gives for the no-op of a term. -/
structure Config (n : ℕ) where
  voter : Fin n → Bool
  noOp : ℕ → Bytes

def Config.voters {n : ℕ} (cfg : Config n) : Finset (Fin n) :=
  Finset.univ.filter fun i => cfg.voter i

def Config.getQuorum {n : ℕ} (cfg : Config n) : ℕ := cfg.voters.card / 2 + 1

inductive Status
  | follower
  | candidate
  | leader
deriving DecidableEq, Repr

/-- What the Region state machine is handed through `applyChan`. -/
inductive ApplyMsg
  | command (commandIndex : ℕ) (command : Bytes)
  | proposalRejected (command : Bytes)
  | snapshot (snapshotIndex snapshotTerm : ℕ) (snapshot : Bytes)
deriving DecidableEq, Repr

/-- What the persister holds. -/
structure Persisted (n : ℕ) where
  currentTerm : ℕ := 0
  votedFor : Option (Fin n) := none
  lastSnapshotIncludeIndex : ℕ := 0
  lastSnapshotIncludeTerm : ℕ := 0
  logs : List LogEntry := []
  snapshot : Bytes := []

/-- The locals of `leaderSendSnapShot`. -/
structure SnapshotTask where
  leaderTerm : ℕ
  snapshotIndex : ℕ
  snapshotTerm : ℕ
  snapshotData : Bytes
  offset : ℕ

/-- Where the replication worker for a peer is; a call is the number of its request. -/
inductive Worker
  | idle
  | sendSnapshot
  | sending (task : SnapshotTask) (call : Option ℕ)
  | appending (call : ℕ)

structure Node (n : ℕ) where
  currentTerm : ℕ
  votedFor : Option (Fin n)
  logs : List LogEntry
  commitIndex : ℕ
  lastApplied : ℕ
  nextIndex : Fin n → ℕ
  matchIndex : Fin n → ℕ
  status : Status
  lastSnapshotIncludeIndex : ℕ
  lastSnapshotIncludeTerm : ℕ
  snapshotReceiveBuffer : Bytes
  proposeQueue : List Bytes
  /-- The vote counter of the election for a term, and the peers whose answer is still awaited. -/
  votedNum : ℕ → ℕ
  awaited : ℕ → Fin n → Bool
  worker : Fin n → Worker
  /-- What `applierTicker` has taken from the log and not yet pushed. -/
  applyMsgs : List ApplyMsg
  applyChan : List ApplyMsg
  initialized : Bool
  persisted : Persisted n

namespace Node

variable {n : ℕ}

/-- `init`: a process starts from what is persisted. -/
def start (persisted : Persisted n) : Node n where
  currentTerm := persisted.currentTerm
  votedFor := persisted.votedFor
  logs := persisted.logs
  commitIndex := 0
  lastApplied := persisted.lastSnapshotIncludeIndex
  nextIndex := fun _ => 0
  matchIndex := fun _ => 0
  status := .follower
  lastSnapshotIncludeIndex := persisted.lastSnapshotIncludeIndex
  lastSnapshotIncludeTerm := persisted.lastSnapshotIncludeTerm
  snapshotReceiveBuffer := []
  proposeQueue := []
  votedNum := fun _ => 0
  awaited := fun _ _ => false
  worker := fun _ => .idle
  applyMsgs := []
  applyChan := []
  initialized := false
  persisted := persisted

variable (r : Node n)

/-- The process ends and is started again. -/
def restart : Node n := start r.persisted

def persist : Node n :=
  { r with persisted :=
    { currentTerm := r.currentTerm
      votedFor := r.votedFor
      lastSnapshotIncludeIndex := r.lastSnapshotIncludeIndex
      lastSnapshotIncludeTerm := r.lastSnapshotIncludeTerm
      logs := r.logs
      snapshot := r.persisted.snapshot } }

def persistIf (changed : Bool) : Node n := if changed then r.persist else r

/-- The reaction to a higher term. -/
def stepDown (term : ℕ) : Node n :=
  { r with status := .follower, currentTerm := term, votedFor := none }

/-! ## The log -/

def getLastLogIndex : ℕ :=
  match r.logs.getLast? with
  | none => r.lastSnapshotIncludeIndex
  | some entry => entry.logIndex

def getLastLogTerm : ℕ :=
  match r.logs.getLast? with
  | none => r.lastSnapshotIncludeTerm
  | some entry => entry.logTerm

def getSlicesIndexFromLogIndex (logIndex : ℕ) : Option ℕ :=
  if r.lastSnapshotIncludeIndex < logIndex ∧ logIndex ≤ r.getLastLogIndex then
    some (logIndex - r.lastSnapshotIncludeIndex - 1)
  else none

/-- `m_logs[getSlicesIndexFromLogIndex(logIndex)]` -/
def entryAt (logIndex : ℕ) : Option LogEntry := do
  let sliceIndex ← r.getSlicesIndexFromLogIndex logIndex
  r.logs[sliceIndex]?

def getLogTermFromLogIndex (logIndex : ℕ) : Option ℕ :=
  if logIndex < r.lastSnapshotIncludeIndex ∨ r.getLastLogIndex < logIndex then none
  else if logIndex = r.lastSnapshotIncludeIndex then some r.lastSnapshotIncludeTerm
  else (r.entryAt logIndex).map LogEntry.logTerm

def matchLog (logIndex logTerm : ℕ) : Option Bool :=
  (r.getLogTermFromLogIndex logIndex).map fun term => decide (logTerm = term)

def upToDate (index term : ℕ) : Bool :=
  decide (r.getLastLogTerm < term) ||
    (decide (term = r.getLastLogTerm) && decide (r.getLastLogIndex ≤ index))

/-! ## Commitment -/

variable (cfg : Config n) (me : Fin n)

/-- The voters that have the entry, as far as the leader knows. -/
def replicas (r : Node n) (index : ℕ) : Finset (Fin n) :=
  cfg.voters.filter fun i => i = me ∨ index ≤ r.matchIndex i

/-- The loop of `leaderUpdateCommitIndex`, from `index` downwards. -/
def updateCommitIndexFrom (cfg : Config n) (me : Fin n) (r : Node n) : ℕ → Option (Node n)
  | 0 => some r
  | index + 1 =>
    if index + 1 ≤ r.commitIndex then some r
    else if cfg.getQuorum ≤ (r.replicas cfg me (index + 1)).card then do
      let term ← r.getLogTermFromLogIndex (index + 1)
      if term = r.currentTerm then some { r with commitIndex := index + 1 }
      else r.updateCommitIndexFrom cfg me index
    else r.updateCommitIndexFrom cfg me index

def leaderUpdateCommitIndex (r : Node n) : Option (Node n) :=
  r.updateCommitIndexFrom cfg me r.getLastLogIndex

/-! ## Elections -/

/-- `doElection` up to the point where the new term and the own vote are persisted. -/
def beginElection (r : Node n) : Node n :=
  let r := { r with
    status := .candidate, currentTerm := r.currentTerm + 1, votedFor := some me }
  let r := r.persist
  { r with votedNum := Function.update r.votedNum r.currentTerm 1 }

/-- The new leader adds a no-op of its own term to the log. -/
def becomeLeader (r : Node n) : Node n :=
  let lastLogIndex := r.getLastLogIndex
  { r with
    status := .leader
    nextIndex := fun _ => lastLogIndex + 1
    matchIndex := fun _ => 0
    logs := r.logs ++ [⟨cfg.noOp r.currentTerm, r.currentTerm, lastLogIndex + 1⟩] }

/-- The part of `doElection` behind the first `persist`. -/
def finishElection (cfg : Config n) (me : Fin n) (r : Node n) : Node n :=
  if cfg.getQuorum ≤ 1 then
    let leader := { r with votedNum := Function.update r.votedNum r.currentTerm 0 }
    match (leader.becomeLeader cfg).leaderUpdateCommitIndex cfg me with
    | none => r.restart
    | some r => r.persist
  else
    { r with awaited := Function.update r.awaited r.currentTerm fun i => decide (i ≠ me) && cfg.voter i }

structure RequestVoteArgs (n : ℕ) where
  term : ℕ
  candidateId : Fin n
  lastLogIndex : ℕ
  lastLogTerm : ℕ
deriving DecidableEq, Repr

structure RequestVoteReply where
  term : ℕ
  voteGranted : Bool
deriving DecidableEq, Repr

def requestVoteArgs (r : Node n) : RequestVoteArgs n :=
  ⟨r.currentTerm, me, r.getLastLogIndex, r.getLastLogTerm⟩

/-- The part of `RequestVote` for a request of the current term. -/
def vote (args : RequestVoteArgs n) : Node n × RequestVoteReply :=
  if r.upToDate args.lastLogIndex args.lastLogTerm = false then (r.persist, ⟨r.currentTerm, false⟩)
  else if r.votedFor ≠ none ∧ r.votedFor ≠ some args.candidateId then
    (r.persist, ⟨r.currentTerm, false⟩)
  else (Node.persist { r with votedFor := some args.candidateId }, ⟨r.currentTerm, true⟩)

/-- `RequestVote`; `leaderContact` says that a leader was heard of within an election timeout. -/
def requestVote (cfg : Config n) (me : Fin n) (r : Node n) (args : RequestVoteArgs n)
    (leaderContact : Bool) : Node n × RequestVoteReply :=
  if cfg.voter me = false ∨ cfg.voter args.candidateId = false then
    (r.persist, ⟨r.currentTerm, false⟩)
  else if args.term < r.currentTerm then (r.persist, ⟨r.currentTerm, false⟩)
  else if r.currentTerm < args.term then
    if leaderContact then (r.persist, ⟨r.currentTerm, false⟩)
    else (r.stepDown args.term).vote args
  else r.vote args

/-- What `sendRequestVote` does with the answer of a peer. -/
def requestVoteReplied (cfg : Config n) (r : Node n) (args : RequestVoteArgs n) (server : Fin n)
    (reply : RequestVoteReply) : Option (Node n) :=
  let r := { r with
    awaited := Function.update r.awaited args.term
      (Function.update (r.awaited args.term) server false) }
  if r.currentTerm < reply.term then some (r.stepDown reply.term).persist
  else if reply.term < r.currentTerm then some r
  else if reply.voteGranted = false then some r
  else if cfg.getQuorum ≤ r.votedNum args.term + 1 then
    if r.status = .leader then none
    else
      let r := { r with votedNum := Function.update r.votedNum args.term 0 }
      some (r.becomeLeader cfg).persist
  else some { r with votedNum := Function.update r.votedNum args.term (r.votedNum args.term + 1) }

/-! ## Proposals -/

/-- `Start`; `none` stands for the answer that this peer is not the leader. -/
def propose (command : Bytes) : Option (Node n) :=
  if r.status = .leader then some { r with proposeQueue := r.proposeQueue ++ [command] } else none

/-- The entries `raftPollerTicker` makes of a batch. -/
def batchEntries (term : ℕ) : ℕ → List Bytes → List LogEntry
  | _, [] => []
  | lastLogIndex, command :: batch =>
    ⟨command, term, lastLogIndex + 1⟩ :: batchEntries term (lastLogIndex + 1) batch

/-- A round of `raftPollerTicker` that pops `count` proposals. -/
def poll (r : Node n) (count : ℕ) : Option (Node n) :=
  let batch := r.proposeQueue.take count
  let r := { r with proposeQueue := r.proposeQueue.drop count }
  if batch = [] then some r
  else if r.status ≠ .leader then
    some { r with applyChan := r.applyChan ++ batch.map .proposalRejected }
  else do
    let r := { r with logs := r.logs ++ batchEntries r.currentTerm r.getLastLogIndex batch }
    let r ← r.leaderUpdateCommitIndex cfg me
    some r.persist

/-! ## Replication -/

structure AppendEntriesArgs (n : ℕ) where
  term : ℕ
  leaderId : Fin n
  prevLogIndex : ℕ
  prevLogTerm : ℕ
  entries : List LogEntry
  leaderCommit : ℕ
deriving DecidableEq, Repr

inductive AppState
  | disconnected
  | appNormal
deriving DecidableEq, Repr

/-- In `updateNextIndex`, `none` stands for -100. -/
structure AppendEntriesReply where
  appState : AppState
  term : ℕ
  success : Bool
  updateNextIndex : Option ℕ
deriving DecidableEq, Repr

/-- The index and the term before the entries that a peer is sent next. -/
def getPrevLogInfo (server : Fin n) : Option (ℕ × ℕ) :=
  if r.nextIndex server = r.lastSnapshotIncludeIndex + 1 then
    some (r.lastSnapshotIncludeIndex, r.lastSnapshotIncludeTerm)
  else do
    let entry ← r.entryAt (r.nextIndex server - 1)
    some (r.nextIndex server - 1, entry.logTerm)

def entriesAfter (prevLogIndex : ℕ) : Option (List LogEntry) :=
  if prevLogIndex ≠ r.lastSnapshotIncludeIndex then do
    let sliceIndex ← r.getSlicesIndexFromLogIndex prevLogIndex
    some (r.logs.drop (sliceIndex + 1))
  else some r.logs

/-- What `replicationWorker` sends a peer whose next entry is still in the log. -/
def appendEntriesArgs (r : Node n) (server : Fin n) : Option (AppendEntriesArgs n) := do
  let (prevLogIndex, prevLogTerm) ← r.getPrevLogInfo server
  let entries ← r.entriesAfter prevLogIndex
  if prevLogIndex + entries.length = r.getLastLogIndex then
    some ⟨r.currentTerm, me, prevLogIndex, prevLogTerm, entries, r.commitIndex⟩
  else none

/-- One round of the loop over the entries; the flag is `persistentStateChanged`. -/
def appendEntry (state : Node n × Bool) (entry : LogEntry) : Option (Node n × Bool) :=
  let (r, changed) := state
  if r.getLastLogIndex < entry.logIndex then some ({ r with logs := r.logs ++ [entry] }, true)
  else do
    let sliceIndex ← r.getSlicesIndexFromLogIndex entry.logIndex
    let old ← r.logs[sliceIndex]?
    if old.logTerm = entry.logTerm then
      -- equal index and term must identify the same entry
      if old.command = entry.command then some (r, changed) else none
    else some ({ r with logs := r.logs.take sliceIndex ++ [entry] }, true)

/-- The first index of the conflicting term, from `index` downwards. -/
def conflictIndexFrom (r : Node n) (prevLogIndex : ℕ) : ℕ → Option ℕ
  | 0 =>
    if 0 < r.lastSnapshotIncludeIndex then some prevLogIndex
    else do
      let term ← r.getLogTermFromLogIndex 0
      let prevTerm ← r.getLogTermFromLogIndex prevLogIndex
      some (if term ≠ prevTerm then 1 else prevLogIndex)
  | index + 1 =>
    if index + 1 < r.lastSnapshotIncludeIndex then some prevLogIndex
    else do
      let term ← r.getLogTermFromLogIndex (index + 1)
      let prevTerm ← r.getLogTermFromLogIndex prevLogIndex
      if term ≠ prevTerm then some (index + 2) else r.conflictIndexFrom prevLogIndex index

variable (args : AppendEntriesArgs n)

/-- The entries and the commit index of a request whose previous entry is in the log. -/
def takeEntries (changed : Bool) :
    Option (Node n × AppendEntriesReply) := do
  let (r, changed) ← args.entries.foldlM appendEntry (r, changed)
  if r.getLastLogIndex < args.prevLogIndex + args.entries.length then none
  else
    let r := { r with commitIndex := max r.commitIndex (min args.leaderCommit r.getLastLogIndex) }
    if r.getLastLogIndex < r.commitIndex then none
    else some (r.persistIf changed, ⟨.appNormal, r.currentTerm, true, some 0⟩)

/-- The part of `AppendEntries1` for a request of the current term. -/
def followEntries (changed : Bool) : Option (Node n × AppendEntriesReply) :=
  if r.getLastLogIndex < args.prevLogIndex then
    some (r.persistIf changed, ⟨.appNormal, r.currentTerm, false, some (r.getLastLogIndex + 1)⟩)
  else if args.prevLogIndex < r.lastSnapshotIncludeIndex then
    some (r.persistIf changed,
      ⟨.appNormal, r.currentTerm, false, some (r.lastSnapshotIncludeIndex + 1)⟩)
  else do
    if ← r.matchLog args.prevLogIndex args.prevLogTerm then r.takeEntries args changed
    else
      let next ← r.conflictIndexFrom args.prevLogIndex args.prevLogIndex
      some (r.persistIf changed, ⟨.appNormal, r.currentTerm, false, some next⟩)

def appendEntries1 : Option (Node n × AppendEntriesReply) :=
  if args.term < r.currentTerm then some (r, ⟨.appNormal, r.currentTerm, false, none⟩)
  else if r.currentTerm < args.term then (r.stepDown args.term).followEntries args true
  else Node.followEntries { r with status := .follower } args false

def handleAppendEntriesReply (r : Node n) (server : Fin n)
    (args : AppendEntriesArgs n) (reply : AppendEntriesReply) : Option (Node n) :=
  if reply.appState = .disconnected then some r
  -- the higher term is not persisted here
  else if r.currentTerm < reply.term then some (r.stepDown reply.term)
  else if reply.term < r.currentTerm then some r
  else if r.status ≠ .leader then some r
  else if reply.success = false then
    match reply.updateNextIndex with
    | none => some r
    | some next => some { r with nextIndex := Function.update r.nextIndex server next }
  else
    let replicated := max (r.matchIndex server) (args.prevLogIndex + args.entries.length)
    let r := { r with
      matchIndex := Function.update r.matchIndex server replicated
      nextIndex := Function.update r.nextIndex server (replicated + 1) }
    if r.getLastLogIndex < replicated then none
    else do
      let r ← r.leaderUpdateCommitIndex cfg me
      if r.getLastLogIndex < r.commitIndex then none else some r

/-! ## Snapshots -/

structure InstallSnapshotArgs (n : ℕ) where
  leaderId : Fin n
  term : ℕ
  lastSnapshotIncludeIndex : ℕ
  lastSnapshotIncludeTerm : ℕ
  data : Bytes
  chunkOffset : ℕ
  chunkDone : Bool
deriving DecidableEq, Repr

variable (args : InstallSnapshotArgs n)

/-- The compaction of the log by a complete snapshot. -/
def restoreSnapshot (snapshotData : Bytes) : Node n :=
  let index := args.lastSnapshotIncludeIndex
  let r := { r with
    logs := if index < r.getLastLogIndex then r.logs.drop (index - r.lastSnapshotIncludeIndex) else []
    commitIndex := max r.commitIndex index
    lastApplied := max r.lastApplied index
    lastSnapshotIncludeIndex := index
    lastSnapshotIncludeTerm := args.lastSnapshotIncludeTerm
    applyChan := r.applyChan ++ [ApplyMsg.snapshot index args.lastSnapshotIncludeTerm snapshotData] }
  let r := r.persist
  { r with persisted := { r.persisted with snapshot := snapshotData } }

/-- `m_snapshotReceiveBuffer` after a chunk of a snapshot. -/
def receiveChunk (buffer : Bytes) (args : InstallSnapshotArgs n) : Bytes :=
  if args.chunkOffset = 0 then args.data
  else if args.chunkOffset ≤ buffer.length then buffer.take args.chunkOffset ++ args.data
  else buffer ++ args.data

/-- The part of `InstallSnapshot` that persists a higher term. -/
def followSnapshot : Node n :=
  if r.currentTerm < args.term then (r.stepDown args.term).persist
  else { r with status := .follower }

/-- `InstallSnapshot`; the answer is the term. -/
def installSnapshot : Node n × ℕ :=
  if args.term < r.currentTerm then (r, r.currentTerm)
  else
    let r := r.followSnapshot args
    if args.lastSnapshotIncludeIndex ≤ r.lastSnapshotIncludeIndex then (r, r.currentTerm)
    else if args.chunkOffset = 0 ∧ args.chunkDone then
      (Node.restoreSnapshot { r with snapshotReceiveBuffer := [] } args args.data, r.currentTerm)
    else
      let buffer := receiveChunk r.snapshotReceiveBuffer args
      if args.chunkDone then
        (Node.restoreSnapshot { r with snapshotReceiveBuffer := [] } args buffer, r.currentTerm)
      else ({ r with snapshotReceiveBuffer := buffer }, r.currentTerm)

def chunkSize : ℕ := 256 * 1024

/-- The next chunk that `leaderSendSnapShot` sends. -/
def installSnapshotArgs (task : SnapshotTask) : InstallSnapshotArgs n where
  leaderId := me
  term := task.leaderTerm
  lastSnapshotIncludeIndex := task.snapshotIndex
  lastSnapshotIncludeTerm := task.snapshotTerm
  data := (task.snapshotData.drop task.offset).take chunkSize
  chunkOffset := task.offset
  chunkDone := decide (task.snapshotData.length ≤ task.offset + chunkSize)

/-- The beginning of `leaderSendSnapShot`. -/
def snapshotTask : SnapshotTask :=
  ⟨r.currentTerm, r.lastSnapshotIncludeIndex, r.lastSnapshotIncludeTerm, r.persisted.snapshot, 0⟩

/-- `Snapshot`: the log is compacted up to an applied index. -/
def snapshot (index : ℕ) (data : Bytes) : Option (Node n) :=
  if index ≤ r.lastSnapshotIncludeIndex ∨ r.commitIndex < index then some r
  else do
    let sliceIndex ← r.getSlicesIndexFromLogIndex index
    let entry ← r.logs[sliceIndex]?
    let trunckedLogs := (r.logs.drop (sliceIndex + 1)).take (r.getLastLogIndex - index)
    let lastLogIndex := r.getLastLogIndex
    let r := { r with
      lastSnapshotIncludeIndex := index
      lastSnapshotIncludeTerm := entry.logTerm
      logs := trunckedLogs
      commitIndex := max r.commitIndex index
      lastApplied := max r.lastApplied index }
    let r := r.persist
    let r := { r with persisted := { r.persisted with snapshot := data } }
    some (if trunckedLogs.length + index = lastLogIndex then r else r.restart)

/-! ## Delivery -/

/-- The loop of `getApplyLogs`: `count` messages behind `lastApplied`. -/
def applyLogs (r : Node n) : ℕ → ℕ → Option (List ApplyMsg)
  | _, 0 => some []
  | lastApplied, count + 1 => do
    let entry ← r.entryAt (lastApplied + 1)
    if entry.logIndex ≠ lastApplied + 1 then none
    else
      let rest ← r.applyLogs (lastApplied + 1) count
      some (.command (lastApplied + 1) entry.command :: rest)

def getApplyLogs : Option (Node n × List ApplyMsg) :=
  if r.getLastLogIndex < r.commitIndex then none
  else do
    let applyMsgs ← r.applyLogs r.lastApplied (r.commitIndex - r.lastApplied)
    some ({ r with lastApplied := max r.lastApplied r.commitIndex }, applyMsgs)

end Node

end StrataKV.Raft
