import StrataKV.Lib.TransitionSystem
import StrataKV.Raft.Node

/-!
# A Raft group

The peers of a group and the calls between them. A request is kept for ever and may be handled any
number of times, in any order or not at all; each time, the answer is kept as well, and the caller
takes one of them or none. Every process may end at any moment, also between the two writes of a
function that persists twice, and starts again from what it has persisted.
-/

namespace StrataKV.Raft

open Node

variable {n : ℕ}

inductive RequestBody (n : ℕ)
  | requestVote (args : RequestVoteArgs n)
  | appendEntries (args : AppendEntriesArgs n)
  | installSnapshot (args : InstallSnapshotArgs n)
deriving DecidableEq

structure Request (n : ℕ) where
  src : Fin n
  dst : Fin n
  body : RequestBody n
deriving DecidableEq

inductive ReplyBody
  | requestVote (reply : RequestVoteReply)
  | appendEntries (reply : AppendEntriesReply)
  | installSnapshot (term : ℕ)
deriving DecidableEq

/-- An answer to the request of the given number. -/
structure Reply where
  request : ℕ
  body : ReplyBody
deriving DecidableEq

structure Cluster (n : ℕ) where
  nodes : Fin n → Node n
  requests : List (Request n)
  replies : List Reply
  /-- All that `getApplyLogs` has returned on a peer, over all its processes. -/
  delivered : Fin n → List ApplyMsg

def Cluster.initial (n : ℕ) : Cluster n where
  nodes := fun _ => Node.start {}
  requests := []
  replies := []
  delivered := fun _ => []

inductive Event (n : ℕ)
  /-- `Activate`: the peer begins to serve and its workers start. -/
  | activate (me : Fin n)
  | crash (me : Fin n)
  | doElection (me : Fin n)
  /-- The process ends behind the first `persist` of `doElection`. -/
  | doElectionCrash (me : Fin n)
  | propose (me : Fin n) (command : Bytes)
  | poll (me : Fin n) (count : ℕ)
  | replicate (me server : Fin n)
  | leaderSendSnapShot (me server : Fin n)
  /-- `leaderSendSnapShot` sends its next chunk, or finds that the last one is sent. -/
  | sendChunk (me server : Fin n)
  /-- The call of a replication worker fails. -/
  | callFailed (me server : Fin n)
  /-- A request arrives, at a peer that has heard of a leader lately or not. -/
  | deliver (request : ℕ) (leaderContact : Bool)
  /-- The process ends behind the first `persist` of `InstallSnapshot`. -/
  | installSnapshotCrash (request : ℕ)
  /-- The caller takes an answer. -/
  | reply (reply : ℕ)
  | snapshot (me : Fin n) (index : ℕ) (data : Bytes)
  | getApplyLogs (me : Fin n)
  /-- `applierTicker` pushes what it has taken. -/
  | pushBatch (me : Fin n)

namespace Cluster

variable (s : Cluster n)

def setNode (me : Fin n) (r : Node n) : Cluster n :=
  { s with nodes := Function.update s.nodes me r }

/-- The peer goes on as `r`, or its process ends. -/
def run (me : Fin n) (r : Option (Node n)) : Cluster n := s.setNode me (r.getD (s.nodes me).restart)

def send (requests : List (Request n)) : Cluster n :=
  { s with requests := s.requests ++ requests }

def answer (request : ℕ) (body : ReplyBody) : Cluster n :=
  { s with replies := s.replies ++ [⟨request, body⟩] }

def setWorker (r : Node n) (server : Fin n) (worker : Worker) : Node n :=
  { r with worker := Function.update r.worker server worker }

/-- `doElection` -/
def doElection (cfg : Config n) (s : Cluster n) (me : Fin n) : Cluster n :=
  let r := s.nodes me
  if cfg.voter me = false ∨ r.status = .leader then s
  else
    let r := r.beginElection me
    let s := s.setNode me (r.finishElection cfg me)
    if cfg.getQuorum ≤ 1 then s
    else
      let servers := (List.finRange n).filter fun i => decide (i ≠ me) && cfg.voter i
      s.send (servers.map fun i => ⟨me, i, .requestVote (r.requestVoteArgs me)⟩)

variable (me server : Fin n)

/-- A round of `replicationWorker` for a peer. -/
def replicate : Cluster n :=
  let r := s.nodes me
  match r.worker server with
  | .idle =>
    if me = server ∨ r.status ≠ .leader then s
    else if r.nextIndex server < 1 then s.run me none
    else if r.nextIndex server ≤ r.lastSnapshotIncludeIndex then
      s.setNode me (setWorker r server .sendSnapshot)
    else
      match r.appendEntriesArgs me server with
      | none => s.run me none
      | some args =>
        (s.setNode me (setWorker r server (.appending s.requests.length))).send
          [⟨me, server, .appendEntries args⟩]
  | _ => s

/-- `leaderSendSnapShot` takes a snapshot to send, without asking again whether it is the leader. -/
def leaderSendSnapShot : Cluster n :=
  let r := s.nodes me
  match r.worker server with
  | .sendSnapshot =>
    if r.persisted.snapshot = [] then s.setNode me (setWorker r server .idle)
    else s.setNode me (setWorker r server (.sending r.snapshotTask none))
  | _ => s

def sendChunk : Cluster n :=
  let r := s.nodes me
  match r.worker server with
  | .sending task none =>
    if task.offset < task.snapshotData.length then
      (s.setNode me (setWorker r server (.sending task (some s.requests.length)))).send
        [⟨me, server, .installSnapshot (installSnapshotArgs me task)⟩]
    else if r.status = .leader ∧ r.currentTerm = task.leaderTerm then
      s.setNode me (setWorker { r with
        matchIndex := Function.update r.matchIndex server task.snapshotIndex
        nextIndex := Function.update r.nextIndex server (task.snapshotIndex + 1) } server .idle)
    else s.setNode me (setWorker r server .idle)
  | _ => s

def callFailed : Cluster n :=
  let r := s.nodes me
  match r.worker server with
  | .sending _ (some _) => s.setNode me (setWorker r server .idle)
  | .appending _ => s.setNode me (setWorker r server .idle)
  | _ => s

/-- What a peer answers before `Activate`. -/
def uninitializedReply : RequestBody n → ReplyBody
  | .requestVote _ => .requestVote ⟨0, false⟩
  | .appendEntries _ => .appendEntries ⟨.disconnected, 0, false, some 1⟩
  | .installSnapshot _ => .installSnapshot 0

def deliver (cfg : Config n) (s : Cluster n) (number : ℕ) (leaderContact : Bool) : Cluster n :=
  match s.requests[number]? with
  | none => s
  | some request =>
    let me := request.dst
    let r := s.nodes me
    if r.initialized = false then s.answer number (uninitializedReply request.body)
    else
      match request.body with
      | .requestVote args =>
        let (r, reply) := r.requestVote cfg me args leaderContact
        (s.setNode me r).answer number (.requestVote reply)
      | .appendEntries args =>
        match r.appendEntries1 args with
        | none => s.run me none
        | some (r, reply) => (s.setNode me r).answer number (.appendEntries reply)
      | .installSnapshot args =>
        let (r, term) := r.installSnapshot args
        (s.setNode me r).answer number (.installSnapshot term)

def installSnapshotCrash (number : ℕ) : Cluster n :=
  match s.requests[number]? with
  | some ⟨_, me, .installSnapshot args⟩ =>
    let r := s.nodes me
    if r.initialized = false ∨ args.term < r.currentTerm then s
    else s.setNode me (r.followSnapshot args).restart
  | _ => s

/-- What `leaderSendSnapShot` does with the answer to a chunk. -/
def chunkReplied (r : Node n) (server : Fin n) (task : SnapshotTask) (term : ℕ) : Node n :=
  if r.status ≠ .leader ∨ r.currentTerm ≠ task.leaderTerm then setWorker r server .idle
  else if r.currentTerm < term then setWorker (r.stepDown term).persist server .idle
  else
    let chunkLen := min chunkSize (task.snapshotData.length - task.offset)
    setWorker r server (.sending { task with offset := task.offset + chunkLen } none)

def reply (cfg : Config n) (s : Cluster n) (number : ℕ) : Cluster n :=
  match s.replies[number]? with
  | none => s
  | some reply =>
    match s.requests[reply.request]? with
    | none => s
    | some request =>
      let me := request.src
      let server := request.dst
      let r := s.nodes me
      match request.body, reply.body with
      | .requestVote args, .requestVote body =>
        if r.awaited args.term server = false then s
        else s.run me (r.requestVoteReplied cfg args server body)
      | .appendEntries args, .appendEntries body =>
        match r.worker server with
        | .appending call =>
          if call ≠ reply.request then s
          else s.run me ((setWorker r server .idle).handleAppendEntriesReply cfg me server args body)
        | _ => s
      | .installSnapshot _, .installSnapshot term =>
        match r.worker server with
        | .sending task (some call) =>
          if call ≠ reply.request then s else s.setNode me (chunkReplied r server task term)
        | _ => s
      | _, _ => s

/-- `applierTicker` takes what is committed and not yet delivered. -/
def getApplyLogs (me : Fin n) : Cluster n :=
  let r := s.nodes me
  if r.applyMsgs = [] ∧ r.lastApplied < r.commitIndex then
    match r.getApplyLogs with
    | none => s.run me none
    | some (r, applyMsgs) =>
      { s.setNode me { r with applyMsgs := applyMsgs } with
        delivered := Function.update s.delivered me (s.delivered me ++ applyMsgs) }
  else s

/-- One step of the group; an event that is not possible changes nothing. -/
def next (cfg : Config n) (s : Cluster n) : Event n → Cluster n
  | .activate me => s.setNode me { s.nodes me with initialized := true }
  | .crash me => s.run me none
  | .doElection me => if (s.nodes me).initialized then s.doElection cfg me else s
  | .doElectionCrash me =>
    if (s.nodes me).initialized = false ∨ cfg.voter me = false ∨ (s.nodes me).status = .leader then s
    else s.setNode me ((s.nodes me).beginElection me).restart
  | .propose me command => s.setNode me (((s.nodes me).propose command).getD (s.nodes me))
  | .poll me count => if (s.nodes me).initialized then s.run me ((s.nodes me).poll cfg me count) else s
  | .replicate me server => if (s.nodes me).initialized then s.replicate me server else s
  | .leaderSendSnapShot me server => s.leaderSendSnapShot me server
  | .sendChunk me server => s.sendChunk me server
  | .callFailed me server => s.callFailed me server
  | .deliver request leaderContact => s.deliver cfg request leaderContact
  | .installSnapshotCrash request => s.installSnapshotCrash request
  | .reply number => s.reply cfg number
  | .snapshot me index data => s.run me ((s.nodes me).snapshot index data)
  | .getApplyLogs me => if (s.nodes me).initialized then s.getApplyLogs me else s
  | .pushBatch me =>
    s.setNode me { s.nodes me with
      applyChan := (s.nodes me).applyChan ++ (s.nodes me).applyMsgs, applyMsgs := [] }

end Cluster

/-- The runs of a group from empty disks. -/
def raftSystem (cfg : Config n) : TransitionSystem (Cluster n) (Event n) :=
  .ofFun (Cluster.initial n) (Cluster.next cfg)

end StrataKV.Raft
