import StrataKV.Metadata.Operators
import StrataKV.Region.Peer

/-!
# `TopologyOperationCoordinator::DriveMovePeer`

The coordinator moves a peer of a Region step by step: it records its phase in the scheduling
operator, prepares the migration in the metadata, has the target mounted and added as a learner,
waits until it has caught up, promotes it, removes the source and commits the migration.

Everything the coordinator asks for is answered by the environment `MoveEnv`. A metadata mutation
is retried until it is answered, so while the coordinator waits its command may be applied any
number of times, and so may commands of others; each of these applications is an event of the run,
together with the requests that are sent to the stores.
-/

namespace StrataKV.Metadata

open Region (ConfChangeType)
open MetadataState Decimal List

/-! ## The environment -/

/-- A command that the metadata state machine applies while the coordinator waits: the command it
waits for, or one of another client. -/
inductive ServiceStep
  | own
  | other (command : MetadataCommand)

variable (own : MetadataCommand)

def ServiceStep.command : ServiceStep → MetadataCommand
  | .own => own
  | .other command => command

/-- The answer of the environment to `MetadataClient::Mutate`: what is applied until the next
request of the coordinator, and which of the applications of its own command is answered. With none
of them the client returns an error of its own with the text `errorText`. -/
structure Call where
  nowMs : UInt64 := 0
  steps : List ServiceStep := []
  replied : Option ℕ := none
  errorText : Bytes := []

/-- The places where `shouldStop` is asked. -/
inductive StopPoint
  | started
  | dispatched
  | prepared
  | mounted
  | waiting
  | polled
  | promoted
  deriving DecidableEq

/-- The answers the coordinator gets in one run; a hook that is not set is `none`. -/
structure MoveEnv where
  shouldStop : StopPoint → Bool := fun _ => false
  lookupRegion : Except Bytes (RegionMetadata × UInt64)
  targetPreparer : Option Bool := none
  confChangeSender : Option (ConfChangeType → Bool) := none
  statusPoller : Option Bool := none
  sourceRetirer : Bool := false
  dispatching : Call := {}
  preparing : Call := {}
  waiting : Call := {}
  promoting : Call := {}
  committing : Call := {}
  succeeding : Call := {}
  failing : Call := {}

/-! ## The run -/

/-- What happens in a run: an application of a command in a state, the answer to a mutation, a
request for a membership change while the metadata are in a state, and requests to the stores. -/
inductive MoveEvent
  | applied (σ : MetadataState) (step : ServiceStep) (command : MetadataCommand)
  | answered (command : MetadataCommand) (answer : Option MetadataCommandResult)
  | prepareTarget (peerId : UInt64)
  | confChange (σ : MetadataState) (type : ConfChangeType) (peer : RegionPeerLocation)
  | poll (peerId : UInt64)
  | retire (peerId : UInt64)

inductive CoordinatorStepResult
  | success
  | stopped
  | failed
  | cancelled
  deriving DecidableEq

/-- The metadata and the events until now. -/
structure MoveRun where
  state : MetadataState
  events : List MoveEvent := []

/-- The state after the steps of a call. -/
def served (own : MetadataCommand) : MetadataState → List ServiceStep → MetadataState
  | σ, [] => σ
  | σ, step :: rest => served own (σ.apply (step.command own)).2 rest

/-- The applications of a call. -/
def applications (own : MetadataCommand) : MetadataState → List ServiceStep → List MoveEvent
  | _, [] => []
  | σ, step :: rest =>
    .applied σ step (step.command own) :: applications own (σ.apply (step.command own)).2 rest

/-- The results of the applications of the coordinator's own command. -/
def ownResults (own : MetadataCommand) : MetadataState → List ServiceStep →
    List MetadataCommandResult
  | _, [] => []
  | σ, .own :: rest => (σ.apply own).1 :: ownResults own (σ.apply own).2 rest
  | σ, .other command :: rest => ownResults own (σ.apply command).2 rest

variable (call : Call)

/-- The answer to a mutation, if it comes from the state machine. -/
def Call.answer (σ : MetadataState) : Option MetadataCommandResult :=
  call.replied.bind fun i => (ownResults own σ call.steps)[i]?

/-- The events of a call. -/
def Call.events (σ : MetadataState) : List MoveEvent :=
  applications own σ call.steps ++ [.answered own (call.answer own σ)]

namespace MoveRun

def log (run : MoveRun) (event : MoveEvent) : MoveRun :=
  { run with events := run.events ++ [event] }

def mutate (run : MoveRun) (call : Call) (command : MetadataCommand) : MoveRun where
  state := served command run.state call.steps
  events := run.events ++ call.events command run.state

/-- A request for a membership change, if the hook is set. -/
def sendConfChange (run : MoveRun) (env : MoveEnv) (type : ConfChangeType)
    (peer : RegionPeerLocation) : MoveRun :=
  if env.confChangeSender.isSome then run.log (.confChange run.state type peer) else run

end MoveRun

variable (env : MoveEnv)

/-- The stores accept a membership change, or none is asked for. -/
def MoveEnv.accepts (type : ConfChangeType) : Bool :=
  (env.confChangeSender.map fun sender => sender type).getD true

/-! ## The commands of the coordinator -/

/-- The number of a phase in the protocol. -/
def SchedulingOperatorPhase.number : SchedulingOperatorPhase → ℤ
  | .pending => 0
  | .dispatching => 1
  | .waiting => 2
  | .succeeded => 3
  | .cancelling => 4
  | .cancelled => 5
  | .failed => 6
  | .unknown value => value.toInt

/-- `std::to_string` of an `int`. -/
def intToDecimal (n : ℤ) : Bytes :=
  if n < 0 then ascii "-" ++ toDecimal n.natAbs else toDecimal n.natAbs

/-- The mutation of `UpdateOperatorPhase`; its id tells the next phase and the attempt, and not
whether the operator may still turn back. -/
def updateOperatorPhase (operatorId : Bytes) (expected next : SchedulingOperatorPhase)
    (attempts : UInt32) (lastError : Bytes) (irreversible : Bool) (nowMs : UInt64) :
    MetadataCommand where
  mutationId := ascii "op-update:" ++ operatorId ++ ascii ":" ++ intToDecimal next.number ++
    ascii ":" ++ toDecimal attempts.toNat
  expectedRevision := 0
  operation := .updateSchedulingOperator operatorId expected next attempts lastError irreversible
    nowMs

/-- The arguments of `DriveMovePeer`. -/
structure MoveRequest where
  operatorId : Bytes
  regionId : UInt64
  sourceStoreId : UInt64
  targetStoreId : UInt64
  deriving DecidableEq

namespace MoveRequest

variable (request : MoveRequest) (original : RegionMetadata)

def prepareCmd (revision : UInt64) : MetadataCommand where
  mutationId := ascii "move-peer:prepare:" ++ request.operatorId
  expectedRevision := revision
  operation := .prepareMovePeer request.regionId request.sourceStoreId request.targetStoreId
    (some original.epoch)

/-- The commit of the migration; its revision is not set. -/
def commitCmd (targetPeerId : UInt64) : MetadataCommand where
  mutationId := ascii "move-peer:commit:" ++ request.operatorId
  expectedRevision := 0
  operation := .commitMovePeer request.regionId targetPeerId (some original.epoch)

def dispatchingCmd : MetadataCommand :=
  updateOperatorPhase request.operatorId .pending .dispatching 1 [] false env.dispatching.nowMs

def waitingCmd : MetadataCommand :=
  updateOperatorPhase request.operatorId .dispatching .waiting 1 [] false env.waiting.nowMs

/-- The update after the promotion, which marks the operator as irreversible. -/
def promotedCmd : MetadataCommand :=
  updateOperatorPhase request.operatorId .waiting .waiting 1 [] true env.promoting.nowMs

def succeededCmd : MetadataCommand :=
  updateOperatorPhase request.operatorId .waiting .succeeded 1 [] true env.succeeding.nowMs

def targetPeerId (prepared : MetadataCommandResult) : UInt64 :=
  match prepared.migration with
  | some migration => migration.targetPeer.peerId
  | none => 1000 + request.targetStoreId

/-- The location of the target, with an endpoint that follows from the id of its store. -/
def targetLocation (targetPeerId : UInt64) : RegionPeerLocation where
  nodeId := toInt (request.targetStoreId - 1)
  host := ascii "127.0.0.1"
  port := toShort (30000 + request.targetStoreId).toUInt32
  storeId := request.targetStoreId
  peerId := targetPeerId
  isLearner := true

def sourceLoc : Option RegionPeerLocation :=
  original.peers.find? fun peer => peer.storeId = request.sourceStoreId

/-! ## The coordinator -/

/-- Give up in a phase. -/
def fail (run : MoveRun) (phase : SchedulingOperatorPhase) (lastError : Bytes) :
    CoordinatorStepResult × MoveRun :=
  (.failed, run.mutate env.failing
    (updateOperatorPhase request.operatorId phase .failed 1 lastError false env.failing.nowMs))

/-- The run with the request to remove the source. -/
def removeSource (run : MoveRun) : MoveRun :=
  match request.sourceLoc original with
  | some source => run.sendConfChange env .removePeer source
  | none => run

/-- The run with the request to retire the source. -/
def retireSource (run : MoveRun) : MoveRun :=
  match request.sourceLoc original with
  | some source => if env.sourceRetirer then run.log (.retire source.peerId) else run
  | none => run

/-- Steps 9 to 12: remove the source, commit the migration and retire the source. No answer is
looked at. -/
def finish (targetPeerId : UInt64) (run : MoveRun) : CoordinatorStepResult × MoveRun :=
  let run := request.removeSource env original run
  let run := run.mutate env.committing (request.commitCmd original targetPeerId)
  let run := request.retireSource env original run
  (.success, run.mutate env.succeeding (request.succeededCmd env))

/-- Step 8: promote the learner and mark the operator as irreversible. -/
def promote (targetPeerId : UInt64) (run : MoveRun) : CoordinatorStepResult × MoveRun :=
  let run := run.sendConfChange env .promoteLearner (request.targetLocation targetPeerId)
  if env.accepts .promoteLearner = false then
    request.fail env run .waiting (ascii "PromoteLearner rejected")
  else
    let run := run.mutate env.promoting (request.promotedCmd env)
    if env.shouldStop .promoted then (.stopped, run)
    else request.finish env original targetPeerId run

/-- Steps 6 and 7: wait until the learner has caught up. -/
def catchUp (targetPeerId : UInt64) (run : MoveRun) : CoordinatorStepResult × MoveRun :=
  let run := run.mutate env.waiting (request.waitingCmd env)
  if env.shouldStop .waiting then (.stopped, run)
  else
    let run := if env.statusPoller.isSome then run.log (.poll targetPeerId) else run
    if env.shouldStop .polled then (.stopped, run)
    else if env.statusPoller = some false then
      request.fail env run .waiting (ascii "catch-up timed out")
    else request.promote env original targetPeerId run

/-- Steps 4 and 5: mount the target and add it as a learner. -/
def mount (targetPeerId : UInt64) (run : MoveRun) : CoordinatorStepResult × MoveRun :=
  let run := if env.targetPreparer.isSome then run.log (.prepareTarget targetPeerId) else run
  if env.targetPreparer = some false then
    request.fail env run .dispatching (ascii "target preparation failed")
  else if env.shouldStop .mounted then (.stopped, run)
  else
    let run := run.sendConfChange env .addLearner (request.targetLocation targetPeerId)
    if env.accepts .addLearner = false then
      request.fail env run .dispatching (ascii "AddLearner rejected")
    else request.catchUp env original targetPeerId run

/-- Step 3: prepare the migration in the metadata. -/
def prepare (revision : UInt64) (run : MoveRun) : CoordinatorStepResult × MoveRun :=
  let command := request.prepareCmd original revision
  let answer := env.preparing.answer command run.state
  let run := run.mutate env.preparing command
  match answer with
  | none => request.fail env run .dispatching env.preparing.errorText
  | some prepared =>
    if prepared.error ≠ .ok then request.fail env run .dispatching (ascii prepared.message)
    else if env.shouldStop .prepared then (.stopped, run)
    else request.mount env original (request.targetPeerId prepared) run

def driveMovePeer (σ : MetadataState) : CoordinatorStepResult × MoveRun :=
  let run : MoveRun := { state := σ }
  if env.shouldStop .started then (.stopped, run)
  else
    let run := run.mutate env.dispatching (request.dispatchingCmd env)
    if env.shouldStop .dispatched then (.stopped, run)
    else
      match env.lookupRegion with
      | .error what => request.fail env run .dispatching what
      | .ok (original, revision) => request.prepare env original revision run

end MoveRequest

/-! ## The calls of a run -/

def stateAfter : List (Call × MetadataCommand) → MetadataState → MetadataState
  | [], σ => σ
  | (call, command) :: rest, σ => stateAfter rest (served command σ call.steps)

section

variable {own} {σ : MetadataState} {steps : List ServiceStep} {event : MoveEvent}

/-- The rule for the applications of a call. -/
lemma served_invariant {I : MetadataState → Prop}
    (hstep : ∀ step ∈ steps, ∀ τ, I τ → I (τ.apply (step.command own)).2) (h : I σ) :
    I (served own σ steps) := by
  induction steps generalizing σ with
  | nil => exact h
  | cons step rest ih =>
    exact ih (fun later hlater => hstep later (mem_cons_of_mem _ hlater))
      (hstep step mem_cons_self σ h)

/-- The applications of a call are those of its own command or of another one. -/
lemma exists_of_mem_applications (h : event ∈ applications own σ steps) :
    ∃ (τ : MetadataState) (step : ServiceStep),
      step ∈ steps ∧ event = .applied τ step (step.command own) := by
  induction steps generalizing σ with
  | nil => cases h
  | cons step rest ih =>
    rcases mem_cons.1 h with rfl | hrest
    · exact ⟨σ, step, mem_cons_self, rfl⟩
    · obtain ⟨τ, later, hmem, heq⟩ := ih hrest
      exact ⟨τ, later, mem_cons_of_mem _ hmem, heq⟩

@[simp]
lemma confChange_notMem_callEvents (own : MetadataCommand) (σ τ : MetadataState)
    (type : ConfChangeType) (peer : RegionPeerLocation) :
    MoveEvent.confChange τ type peer ∉ call.events own σ := by
  intro h
  rcases mem_append.1 h with happlied | hanswered
  · obtain ⟨_, _, _, heq⟩ := exists_of_mem_applications happlied
    cases heq
  · cases mem_singleton.1 hanswered

end

namespace MoveRun

variable (run : MoveRun)

@[simp]
lemma mem_log (event e : MoveEvent) : e ∈ (run.log event).events ↔ e ∈ run.events ∨ e = event := by
  simp [log]

@[simp]
lemma mem_mutate (command : MetadataCommand) (e : MoveEvent) :
    e ∈ (run.mutate call command).events ↔ e ∈ run.events ∨ e ∈ call.events command run.state := by
  simp [mutate]

@[simp]
lemma state_sendConfChange (type : ConfChangeType) (peer : RegionPeerLocation) :
    (run.sendConfChange env type peer).state = run.state := by
  unfold sendConfChange
  split <;> rfl

@[simp]
lemma mem_sendConfChange (type : ConfChangeType) (peer : RegionPeerLocation) (e : MoveEvent) :
    e ∈ (run.sendConfChange env type peer).events ↔ e ∈ run.events ∨
        env.confChangeSender.isSome = true ∧ e = .confChange run.state type peer := by
  unfold sendConfChange
  split_ifs with hset
  · simp [hset]
  · simp [hset]

/-- A request that is logged only if its hook is set. -/
lemma state_logIf (set : Bool) (event : MoveEvent) :
    (if set then run.log event else run).state = run.state := by
  split <;> rfl

lemma mem_logIf (set : Bool) (event e : MoveEvent) :
    e ∈ (if set then run.log event else run).events ↔ e ∈ run.events ∨ set = true ∧ e = event := by
  cases set <;> simp

end MoveRun

/-! ## The runs that end with success -/

namespace MoveRequest

variable (request : MoveRequest) {env : MoveEnv} {σ : MetadataState}

/-- The mutations until the operator is marked as irreversible. -/
def callsToPromotion (env : MoveEnv) (original : RegionMetadata) (revision : UInt64) :
    List (Call × MetadataCommand) :=
  [(env.dispatching, request.dispatchingCmd env),
    (env.preparing, request.prepareCmd original revision),
    (env.waiting, request.waitingCmd env), (env.promoting, request.promotedCmd env)]

/-- The coordinator passes every check: nobody stops it, it finds the Region, its preparation is
answered with success, and the hooks that are set do not refuse. -/
structure Completes (env : MoveEnv) (σ : MetadataState) (original : RegionMetadata)
    (revision : UInt64) (prepared : MetadataCommandResult) : Prop where
  running : ∀ point, env.shouldStop point = false
  found : env.lookupRegion = .ok (original, revision)
  answered : env.preparing.answer (request.prepareCmd original revision)
    (served (request.dispatchingCmd env) σ env.dispatching.steps) = some prepared
  accepted : prepared.error = .ok
  mounted : env.targetPreparer ≠ some false
  added : env.accepts .addLearner = true
  caughtUp : env.statusPoller ≠ some false
  promoted : env.accepts .promoteLearner = true

/-- The run until the promotion is recorded. -/
def promotedRun (env : MoveEnv) (σ : MetadataState) (original : RegionMetadata)
    (revision targetPeerId : UInt64) : MoveRun :=
  let run := ({ state := σ } : MoveRun).mutate env.dispatching (request.dispatchingCmd env)
  let run := run.mutate env.preparing (request.prepareCmd original revision)
  let run := if env.targetPreparer.isSome then run.log (.prepareTarget targetPeerId) else run
  let run := run.sendConfChange env .addLearner (request.targetLocation targetPeerId)
  let run := run.mutate env.waiting (request.waitingCmd env)
  let run := if env.statusPoller.isSome then run.log (.poll targetPeerId) else run
  let run := run.sendConfChange env .promoteLearner (request.targetLocation targetPeerId)
  run.mutate env.promoting (request.promotedCmd env)

variable {request} {original : RegionMetadata} {revision : UInt64}
  {prepared : MetadataCommandResult}

lemma state_promotedRun (targetPeerId : UInt64) :
    (request.promotedRun env σ original revision targetPeerId).state =
      stateAfter (request.callsToPromotion env original revision) σ := by
  simp only [promotedRun, MoveRun.mutate, MoveRun.state_sendConfChange, MoveRun.state_logIf]
  rfl

lemma Completes.driveMovePeer_eq (h : request.Completes env σ original revision prepared) :
    request.driveMovePeer env σ = request.finish env original (request.targetPeerId prepared)
      (request.promotedRun env σ original revision (request.targetPeerId prepared)) := by
  have hanswer : env.preparing.answer (request.prepareCmd original revision)
      (({ state := σ } : MoveRun).mutate env.dispatching (request.dispatchingCmd env)).state =
        some prepared := h.answered
  simp only [driveMovePeer, h.running, h.found, prepare, hanswer, h.accepted, mount, h.mounted,
    h.added, catchUp, h.caughtUp, promote, h.promoted, Bool.false_eq_true, if_false, ne_eq,
    not_true_eq_false, Bool.true_eq_false]
  rfl

/-- Success is returned exactly if every check is passed. -/
lemma driveMovePeer_success_iff : (request.driveMovePeer env σ).1 = .success ↔
      ∃ original revision prepared, request.Completes env σ original revision prepared := by
  constructor
  · intro h
    -- stage by stage, every other branch ends the drive without success
    unfold driveMovePeer at h
    split at h
    · cases h
    rename_i hstarted
    split_ifs at h with hdispatched
    split at h
    · cases h
    rename_i original revision hfound
    unfold prepare at h
    dsimp only at h
    split at h
    · cases h
    rename_i prepared hanswer
    split at h
    · cases h
    rename_i hok
    split_ifs at h with hprepared
    unfold mount at h
    dsimp only at h
    split at h
    · cases h
    rename_i hpreparer
    split at h
    · cases h
    rename_i hmounted
    split at h
    · cases h
    rename_i hadded
    unfold catchUp at h
    dsimp only at h
    split at h
    · cases h
    rename_i hwaiting
    split at h
    · cases h
    rename_i hpolled
    split at h
    · cases h
    rename_i hpoller
    unfold promote at h
    dsimp only at h
    split at h
    · cases h
    rename_i hpromoted
    split at h
    · cases h
    rename_i hstop
    refine ⟨original, revision, prepared, ⟨fun point => ?_, hfound, hanswer, not_not.1 hok,
      hpreparer, Bool.of_not_eq_false hadded, hpoller, Bool.of_not_eq_false hpromoted⟩⟩
    cases point <;> simp_all
  · rintro ⟨original, revision, prepared, h⟩
    rw [h.driveMovePeer_eq]
    rfl

end MoveRequest

end StrataKV.Metadata
