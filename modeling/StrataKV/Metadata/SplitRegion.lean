import StrataKV.Metadata.MoveCommit

/-!
# `TopologyOperationCoordinator::DriveSplitRegion`

The coordinator splits a Region by preparing the split in the metadata, committing it there, and
having it proposed to the Region itself. It sets no revision on its two commands, and the metadata
accept a split only at the current revision, so neither is accepted; the coordinator looks at no
answer, proposes a child with an id and peers of its own making, and reports success. So unless
another client prepares the split, a success is not recorded.
-/

namespace StrataKV.Metadata

open MetadataState MoveRun

/-! ## The environment -/

/-- The answers that the coordinator gets in one run; a hook that is not set is `none` or
`false`. -/
structure SplitEnv where
  shouldStop : StopPoint → Bool := fun _ => false
  lookupRegion : Except Bytes (RegionMetadata × UInt64)
  candidateResolver : Option (UInt64 → UInt64 → Bytes) := none
  splitProposer : Bool := true
  splitStatusPoller : Bool := false
  dispatching : Call := {}
  preparing : Call := {}
  committing : Call := {}
  waiting : Call := {}
  succeeding : Call := {}

/-- Nothing stops the coordinator, and it finds the Region. -/
structure SplitEnv.Completes (env : SplitEnv) (original : RegionMetadata) (revision : UInt64) :
    Prop where
  goesOn : ∀ point ∈ [StopPoint.started, .dispatched, .prepared, .waiting],
    env.shouldStop point = false
  found : env.lookupRegion = .ok (original, revision)

/-- The requests that are sent to the Region. -/
inductive SplitHook
  | propose (parent child : RegionMetadata) (splitKey : Bytes) (revision : UInt64)
  | poll (regionId : UInt64)

/-- What the coordinator returns, or the text of the exception it leaves with, the metadata after
it and the requests it sent. -/
structure SplitOutcome where
  result : Except Bytes CoordinatorStepResult
  run : MoveRun
  hooks : List SplitHook := []

/-! ## The coordinator -/

/-- The arguments of `DriveSplitRegion`. -/
structure SplitRequest where
  operatorId : Bytes
  regionId : UInt64
  splitCandidateGeneration : UInt64

namespace SplitRequest

variable (request : SplitRequest) (env : SplitEnv)

def splitKey : Bytes :=
  match env.candidateResolver with
  | some resolver => resolver request.regionId request.splitCandidateGeneration
  | none => ascii "m"

def dispatchingCmd : MetadataCommand :=
  updateOperatorPhase request.operatorId .pending .dispatching 1 [] false env.dispatching.nowMs

variable (original : RegionMetadata)

/-- The preparation; its revision is not set. -/
def prep : MetadataCommand where
  mutationId := ascii "split:prep:" ++ request.operatorId
  expectedRevision := 0
  operation := .prepareSplit request.regionId (request.splitKey env) (some original.epoch)

/-- The commit; its revision is not set. -/
def commit : MetadataCommand where
  mutationId := ascii "split:commit:" ++ request.operatorId
  expectedRevision := 0
  operation := .commitSplit request.regionId

def waitingCmd : MetadataCommand :=
  updateOperatorPhase request.operatorId .dispatching .waiting 1 [] true env.waiting.nowMs

def succeededCmd : MetadataCommand :=
  updateOperatorPhase request.operatorId .waiting .succeeded 1 [] true env.succeeding.nowMs

/-- The child that is proposed: its id is made up, and its peers are those of the parent. -/
def child : RegionMetadata :=
  { original with regionId := original.regionId + 1000, startKey := request.splitKey env }

def hooks (revision : UInt64) : List SplitHook :=
  (if env.splitProposer then
    [.propose original (request.child env original) (request.splitKey env) revision]
  else []) ++ if env.splitStatusPoller then [.poll request.regionId] else []

/-- The part of the run after the Region has been looked up. -/
def split (revision : UInt64) (run : MoveRun) : SplitOutcome :=
  let run := run.mutate env.preparing (request.prep env original)
  if env.shouldStop .prepared then ⟨.ok .stopped, run, []⟩
  else
    let run := run.mutate env.committing request.commit
    let run := run.mutate env.waiting (request.waitingCmd env)
    if env.shouldStop .waiting then ⟨.ok .stopped, run, []⟩
    else
      let run := run.mutate env.succeeding (request.succeededCmd env)
      ⟨.ok .success, run, request.hooks env original revision⟩

def driveSplitRegion (σ : MetadataState) : SplitOutcome :=
  let run : MoveRun := { state := σ }
  if env.shouldStop .started then ⟨.ok .stopped, run, []⟩
  else
    let run := run.mutate env.dispatching (request.dispatchingCmd env)
    if env.shouldStop .dispatched then ⟨.ok .stopped, run, []⟩
    else
      match env.lookupRegion with
      | .error what => ⟨.error what, run, []⟩
      | .ok (original, revision) => request.split env original revision run

/-- The run with all its mutations. -/
def completedRun (σ : MetadataState) : MoveRun :=
  let run := ({ state := σ } : MoveRun).mutate env.dispatching (request.dispatchingCmd env)
  let run := run.mutate env.preparing (request.prep env original)
  let run := run.mutate env.committing request.commit
  let run := run.mutate env.waiting (request.waitingCmd env)
  run.mutate env.succeeding (request.succeededCmd env)

variable {request env} {original} {revision : UInt64} {σ : MetadataState}

lemma driveSplitRegion_eq (h : env.Completes original revision) :
    request.driveSplitRegion env σ = ⟨.ok .success, request.completedRun env original σ,
      request.hooks env original revision⟩ := by
  have hstop : env.shouldStop .started = false ∧ env.shouldStop .dispatched = false ∧
      env.shouldStop .prepared = false ∧ env.shouldStop .waiting = false := by
    simpa using h.goesOn
  simp [driveSplitRegion, split, h.found, hstop, completedRun]

/-- The coordinator succeeds exactly if it is not stopped and finds the Region. -/
lemma driveSplitRegion_success_iff : (request.driveSplitRegion env σ).result = .ok .success ↔
      ∃ original revision, env.Completes original revision := by
  constructor
  · intro hsuccess
    unfold driveSplitRegion at hsuccess
    split at hsuccess
    · cases hsuccess
    rename_i hstarted
    split at hsuccess
    · cases hsuccess
    rename_i hdispatched
    split at hsuccess
    · cases hsuccess
    rename_i original revision hfound
    unfold SplitRequest.split at hsuccess
    split at hsuccess
    · cases hsuccess
    rename_i hprepared
    split at hsuccess
    · cases hsuccess
    rename_i hwaiting
    refine ⟨original, revision, ?_, hfound⟩
    simp_all
  · rintro ⟨original, revision, h⟩
    rw [driveSplitRegion_eq h]

end SplitRequest

/-! ## What is recorded -/

def SplitEnv.calls (env : SplitEnv) : List Call :=
  [env.dispatching, env.preparing, env.committing, env.waiting, env.succeeding]

namespace SplitRequest

variable (request : SplitRequest) {env : SplitEnv} {original : RegionMetadata}
  {σ : MetadataState}

/-- A preparation and a commit of a split of the Region are accepted, and the commit leaves a Region
with the id, the range and the peers of each child that is proposed. -/
def SplitRecorded (events : List MoveEvent) (hooks : List SplitHook) : Prop :=
  (∃ τ step command splitKey expectedEpoch, .applied τ step command ∈ events ∧
    command.operation = .prepareSplit request.regionId splitKey expectedEpoch ∧
      (τ.apply command).1.error = .ok) ∧
  ∃ τ step command, .applied τ step command ∈ events ∧
    command.operation = .commitSplit request.regionId ∧ (τ.apply command).1.error = .ok ∧
    ∀ parent child splitKey revision, .propose parent child splitKey revision ∈ hooks →
      ∃ region ∈ (τ.apply command).2.regions, region.regionId = child.regionId ∧
        region.startKey = child.startKey ∧ region.endKey = child.endKey ∧ region.peers = child.peers

/-- A split that succeeds is recorded, with the child that is proposed. -/
def RecordedIfSuccess (outcome : SplitOutcome) : Prop :=
  outcome.result = .ok .success → request.SplitRecorded outcome.run.events outcome.hooks

/-- The operation prepares a split of the Region. -/
def Prepares (operation : Operation) : Prop :=
  ∃ splitKey expectedEpoch, operation = .prepareSplit request.regionId splitKey expectedEpoch

/-- Until the coordinator returns no other client prepares a split of the Region or uses the
mutation id of the coordinator's preparation, and none was accepted under it before. -/
structure PreparesAlone (env : SplitEnv) (σ : MetadataState) : Prop where
  others : ∀ call ∈ env.calls,
    call.Spares request.Prepares (ascii "split:prep:" ++ request.operatorId)
  unrecorded : Unrecorded (ascii "split:prep:" ++ request.operatorId) σ

variable {request}

/-- A preparation without a revision is refused in every state. -/
lemma harmless_prep : Harmless request.Prepares (ascii "split:prep:" ++ request.operatorId)
      (request.prep env original) := by
  refine .inr ⟨rfl, by simp [ascii], fun σ => ?_⟩
  have hstale : σ.revision = 0 ∨ (0 : UInt64) ≠ σ.revision := by tauto
  simp only [prep, applyLocked, prepareSplitLocked, if_pos hstale]
  by_cases hzero : σ.revision = 0
  · simp [hzero, reject, error]
  · simp [hzero, Ne.symm hzero, reject, error]

lemma harmless_commit :
    Harmless request.Prepares (ascii "split:prep:" ++ request.operatorId) request.commit := by
  refine .inl ⟨fun ⟨_, _, hop⟩ => (by cases hop), fun heq => ?_⟩
  simp [commit, ascii] at heq

lemma harmless_update {expected next : SchedulingOperatorPhase} {irreversible : Bool}
    {nowMs : UInt64} : Harmless request.Prepares (ascii "split:prep:" ++ request.operatorId)
      (updateOperatorPhase request.operatorId expected next 1 [] irreversible nowMs) := by
  refine .inl ⟨fun ⟨_, _, hop⟩ => (by cases hop), fun heq => ?_⟩
  simp [updateOperatorPhase, ascii] at heq

lemma PreparesAlone.refuses (halone : request.PreparesAlone env σ) :
    (request.completedRun env original σ).Refuses request.Prepares
      (ascii "split:prep:" ++ request.operatorId) := by
  have hothers {call : Call} (hmem : call ∈ env.calls) := halone.others call hmem
  refine Refuses.mutate ?_ (hothers (by simp [SplitEnv.calls])) harmless_update
  refine Refuses.mutate ?_ (hothers (by simp [SplitEnv.calls])) harmless_update
  refine Refuses.mutate ?_ (hothers (by simp [SplitEnv.calls])) harmless_commit
  refine Refuses.mutate ?_ (hothers (by simp [SplitEnv.calls])) harmless_prep
  refine Refuses.mutate ?_ (hothers (by simp [SplitEnv.calls])) harmless_update
  exact ⟨halone.unrecorded, by simp⟩

/-- If no other client prepares a split of the Region, and none is recorded under the mutation id of
the coordinator's preparation, a success is never recorded: a split that succeeds is recorded
exactly if the coordinator is stopped or does not find the Region. -/
theorem driven_split_recorded_iff (halone : request.PreparesAlone env σ) :
    request.RecordedIfSuccess (request.driveSplitRegion env σ) ↔
      ∀ original revision, ¬env.Completes original revision := by
  constructor
  · intro hrecorded original revision h
    rw [driveSplitRegion_eq h] at hrecorded
    obtain ⟨⟨τ, step, command, splitKey, expectedEpoch, hmem, hop, hok⟩, -⟩ := hrecorded rfl
    exact halone.refuses.events τ step command hmem ⟨splitKey, expectedEpoch, hop⟩ hok
  · intro hfails hsuccess
    obtain ⟨original, revision, h⟩ := driveSplitRegion_success_iff.1 hsuccess
    exact absurd h (hfails original revision)

end SplitRequest

/-! ## A split that is not recorded -/

/-- A split of the only Region that nobody disturbs. -/
def splitEnv : SplitEnv where
  lookupRegion := moveEnv.lookupRegion
  dispatching := moveEnv.dispatching
  preparing := moveEnv.preparing
  committing := moveEnv.committing
  waiting := moveEnv.waiting
  succeeding := moveEnv.succeeding

def splitRequest : SplitRequest := ⟨[66], 10, 0⟩

lemma preparesAlone_splitEnv (shouldStop : StopPoint → Bool) :
    splitRequest.PreparesAlone { splitEnv with shouldStop := shouldStop }
      (run {} (moveOperatorCommands false)) := by
  refine ⟨by simp [SplitEnv.calls, splitEnv, moveEnv, Call.Spares], fun record hrecord => ?_⟩
  have hnone : (run {} (moveOperatorCommands false)).dedup[ascii "split:prep:" ++
      splitRequest.operatorId]? = none := by decide
  rw [hnone] at hrecord
  cases hrecord

/-- The coordinator is stopped before it waits. -/
theorem driven_split_recorded_stopped : splitRequest.RecordedIfSuccess
    (splitRequest.driveSplitRegion { splitEnv with shouldStop := fun point => point = .waiting }
      (run {} (moveOperatorCommands false))) := by
  refine (SplitRequest.driven_split_recorded_iff (preparesAlone_splitEnv _)).2 ?_
  intro original revision h
  cases h.goesOn .waiting (by simp)

/-- The coordinator reports success, and its preparation was refused. -/
theorem driven_split_not_recorded :
    ¬∀ (request : SplitRequest) (env : SplitEnv) (σ : MetadataState),
      metadataSystem.Reachable TransitionSystem.anyStep σ →
        request.RecordedIfSuccess (request.driveSplitRegion env σ) := by
  intro h
  have hreach : metadataSystem.Reachable TransitionSystem.anyStep
      (run {} (moveOperatorCommands false)) := TransitionSystem.Guarded.reachable (by decide)
  have hrun : splitEnv.Completes _ _ := ⟨by simp [splitEnv], rfl⟩
  have hrecorded := h splitRequest splitEnv _ hreach
  rw [SplitRequest.driveSplitRegion_eq hrun] at hrecorded
  obtain ⟨⟨τ, step, command, _, _, hmem, hop, hok⟩, -⟩ := hrecorded rfl
  exact (preparesAlone_splitEnv _).refuses.events τ step command hmem ⟨_, _, hop⟩ hok

end StrataKV.Metadata
