import StrataKV.Metadata.MoveMilestone

/-!
# The commit of a move

The last steps of the coordinator look at no answer: it removes the source, commits the migration
and has the source retired whatever becomes of the commit. Its commit carries no revision, and a
commit that does not name the current revision is refused. So unless another client commits the
move, or a commit was recorded under the mutation id of the coordinator's, no commit is accepted
(`MoveRun.Refuses`), and a success that is reported is one that is not recorded.
-/

namespace StrataKV.Metadata

open Region (ConfChangeType)
open MetadataState MoveRun List

/-! ## Commands that are refused in a whole run -/

section

variable {σ : MetadataState} {command own : MetadataCommand} {refused : Operation → Prop}
  {mutationId : Bytes} {steps : List ServiceStep}

/-- No command was accepted under the mutation id. -/
def Unrecorded (mutationId : Bytes) (σ : MetadataState) : Prop :=
  ∀ record, σ.dedup[mutationId]? = some record → record.result.error ≠ .ok

/-- The command is of another kind and has another id, or it is refused in every state that has no
record of it. -/
def Harmless (refused : Operation → Prop) (mutationId : Bytes) (command : MetadataCommand) : Prop :=
  ¬refused command.operation ∧ command.mutationId ≠ mutationId ∨
    command.mutationId = mutationId ∧ mutationId ≠ [] ∧
      ∀ σ : MetadataState, (σ.applyLocked command).1.error ≠ .ok

lemma Unrecorded.apply (h : Unrecorded mutationId σ) (hcommand : Harmless refused mutationId command) :
    Unrecorded mutationId (σ.apply command).2 ∧
      (refused command.operation → (σ.apply command).1.error ≠ .ok) := by
  rcases hcommand with ⟨hkind, hid⟩ | ⟨rfl, hnamed, hrefused⟩
  · refine ⟨fun record hrecord => ?_, fun hop => absurd hop hkind⟩
    exact h record ((dedup_apply_cases hrecord).resolve_right fun hnew => hid hnew.1)
  · have herror : (σ.apply command).1.error ≠ .ok := by
      cases hknown : σ.dedup[command.mutationId]? with
      | none =>
        rw [apply_fresh hnamed hknown]
        exact hrefused σ
      | some record =>
        rw [MetadataState.apply, if_neg hnamed, hknown]
        exact h record hknown
    refine ⟨fun record hrecord => ?_, fun _ => herror⟩
    rcases dedup_apply_cases hrecord with hold | ⟨-, hresult⟩
    · exact h record hold
    · rwa [hresult]

/-- The steps of a call accept no command of the kind. -/
lemma Unrecorded.applications (h : Unrecorded mutationId σ)
    (hsteps : ∀ step ∈ steps, Harmless refused mutationId (step.command own)) :
    ∀ τ step command, .applied τ step command ∈ applications own σ steps →
      refused command.operation → (τ.apply command).1.error ≠ .ok := by
  induction steps generalizing σ with
  | nil => simp [Metadata.applications]
  | cons first rest ih =>
    have hfirst := h.apply (hsteps first mem_cons_self)
    intro τ step command hmem hop
    rcases mem_cons.1 hmem with heq | hrest
    · cases heq
      exact hfirst.2 hop
    · exact ih hfirst.1 (fun later hlater => hsteps later (mem_cons_of_mem _ hlater)) τ step command
        hrest hop

/-- The run has accepted no command of the kind, and none is recorded under the mutation id. -/
structure MoveRun.Refuses (refused : Operation → Prop) (mutationId : Bytes) (run : MoveRun) :
    Prop where
  unrecorded : Unrecorded mutationId run.state
  events : ∀ τ step command, .applied τ step command ∈ run.events →
    refused command.operation → (τ.apply command).1.error ≠ .ok

/-- Nobody else sends a command of the kind or one with the mutation id during the call. -/
def Call.Spares (call : Call) (refused : Operation → Prop) (mutationId : Bytes) : Prop :=
  ∀ command, .other command ∈ call.steps →
    ¬refused command.operation ∧ command.mutationId ≠ mutationId

namespace MoveRun.Refuses

variable {run : MoveRun} {env : MoveEnv}

/-- A call whose commands are harmless keeps it so. -/
lemma mutate (h : run.Refuses refused mutationId) {call : Call}
    (hothers : call.Spares refused mutationId) (hown : Harmless refused mutationId own) :
    (run.mutate call own).Refuses refused mutationId := by
  have hsteps : ∀ step ∈ call.steps, Harmless refused mutationId (step.command own) := by
    intro step hmem
    cases step with
    | own => exact hown
    | other command => exact .inl (hothers command hmem)
  refine ⟨served_invariant (fun step hmem τ hτ => (hτ.apply (hsteps step hmem)).1) h.unrecorded, ?_⟩
  intro τ step command hmem hop
  rcases (mem_mutate _ run _ _).1 hmem with hold | hcall
  · exact h.events τ step command hold hop
  · rcases mem_append.1 hcall with happlied | hanswered
    · exact h.unrecorded.applications hsteps τ step command happlied hop
    · cases mem_singleton.1 hanswered

lemma log (h : run.Refuses refused mutationId) {event : MoveEvent}
    (hevent : ∀ τ step command, event ≠ .applied τ step command) :
    (run.log event).Refuses refused mutationId := by
  refine ⟨h.unrecorded, fun τ step command hmem => h.events τ step command ?_⟩
  exact ((mem_log run _ _).1 hmem).resolve_right fun heq => hevent τ step command heq.symm

lemma logIf (h : run.Refuses refused mutationId) (set : Bool) {event : MoveEvent}
    (hevent : ∀ τ step command, event ≠ .applied τ step command) :
    (if set then run.log event else run).Refuses refused mutationId := by
  split
  · exact h.log hevent
  · exact h

lemma sendConfChange (h : run.Refuses refused mutationId) (type : ConfChangeType)
    (peer : RegionPeerLocation) : (run.sendConfChange env type peer).Refuses refused mutationId := by
  exact h.logIf _ (by simp)

end MoveRun.Refuses

end

/-! ## The commit of the migration -/

/-- The Region and the new peer of a commit. -/
def Operation.commitOf : Operation → Option (UInt64 × UInt64)
  | .commitMovePeer regionId newPeerId _ => some (regionId, newPeerId)
  | _ => none

/-- The commit that the state machine accepts. -/
def MoveEvent.acceptedCommit : MoveEvent → Option (UInt64 × UInt64)
  | .applied σ _ command =>
    if (σ.apply command).1.error = .ok then command.operation.commitOf else none
  | _ => none

def MoveEnv.calls (env : MoveEnv) : List Call :=
  [env.dispatching, env.preparing, env.waiting, env.promoting, env.committing, env.succeeding,
    env.failing]

namespace MoveRequest

variable (request : MoveRequest) {env : MoveEnv} {σ : MetadataState} {original : RegionMetadata}
  {revision : UInt64} {prepared : MetadataCommandResult}

/-- The operation commits a move of a peer of the Region. -/
def Commits (operation : Operation) : Prop :=
  ∃ newPeerId, operation.commitOf = some (request.regionId, newPeerId)

/-- Until the coordinator returns no other client commits a move of the Region or uses the mutation
id of the coordinator's commit, and none was accepted under it before. -/
structure CommitsAlone (env : MoveEnv) (σ : MetadataState) : Prop where
  others : ∀ call ∈ env.calls,
    call.Spares request.Commits (ascii "move-peer:commit:" ++ request.operatorId)
  unrecorded : Unrecorded (ascii "move-peer:commit:" ++ request.operatorId) σ

/-- After a success the migration that was prepared is committed, the learner was added at the
endpoint of its target, and the source was asked to retire only after the commit. -/
def RecordedBeforeRetirement (outcome : CoordinatorStepResult × MoveRun) : Prop :=
  outcome.1 = .success → ∃ original revision prepared,
      .answered (request.prepareCmd original revision) (some prepared) ∈ outcome.2.events ∧
      (∃ event ∈ outcome.2.events,
        event.acceptedCommit = some (request.regionId, request.targetPeerId prepared)) ∧
      (∀ σ peer, .confChange σ .addLearner peer ∈ outcome.2.events →
        ∃ migration, prepared.migration = some migration ∧
          peer.host = migration.targetPeer.host ∧ peer.port = toShort migration.targetPeer.port) ∧
      ∀ before peerId after, outcome.2.events = before ++ .retire peerId :: after →
        ∃ event ∈ before,
          event.acceptedCommit = some (request.regionId, request.targetPeerId prepared)

variable {request}

/-- A commit without a revision is refused in every state. -/
lemma harmless_commitCmd (original : RegionMetadata) (targetPeerId : UInt64) :
    Harmless request.Commits (ascii "move-peer:commit:" ++ request.operatorId)
      (request.commitCmd original targetPeerId) := by
  refine .inr ⟨rfl, by simp [ascii], fun σ => ?_⟩
  have hstale : σ.revision = 0 ∨ (0 : UInt64) ≠ σ.revision := by tauto
  simp [applyLocked, commitCmd, commitMovePeerLocked, if_pos hstale, reject, error]

/-- Neither the preparation nor an update commits the move. -/
lemma harmless_prepareCmd :
    Harmless request.Commits (ascii "move-peer:commit:" ++ request.operatorId)
      (request.prepareCmd original revision) := by
  refine .inl ⟨fun ⟨_, hcommits⟩ => (by cases hcommits), fun heq => ?_⟩
  simp [prepareCmd, ascii] at heq

lemma harmless_updateOperatorPhase {expected next : SchedulingOperatorPhase} {attempts : UInt32}
    {lastError : Bytes} {irreversible : Bool} {nowMs : UInt64} :
    Harmless request.Commits (ascii "move-peer:commit:" ++ request.operatorId)
      (updateOperatorPhase request.operatorId expected next attempts lastError irreversible
        nowMs) := by
  refine .inl ⟨fun ⟨_, hcommits⟩ => (by cases hcommits), fun heq => ?_⟩
  simp [updateOperatorPhase, ascii] at heq

/-- Until the promotion no commit of the move was accepted. -/
lemma CommitsAlone.refuses_promotedRun (halone : request.CommitsAlone env σ)
    (targetPeerId : UInt64) :
    (request.promotedRun env σ original revision targetPeerId).Refuses request.Commits
      (ascii "move-peer:commit:" ++ request.operatorId) := by
  have hothers {call : Call} (hmem : call ∈ env.calls) := halone.others call hmem
  -- from the mark back: the promotion, the poll, the wait, the learner, the mounting
  refine Refuses.mutate ?_ (hothers (by simp [MoveEnv.calls])) harmless_updateOperatorPhase
  refine Refuses.sendConfChange (Refuses.logIf ?_ _ (by simp)) _ _
  refine Refuses.mutate ?_ (hothers (by simp [MoveEnv.calls])) harmless_updateOperatorPhase
  refine Refuses.sendConfChange (Refuses.logIf ?_ _ (by simp)) _ _
  refine Refuses.mutate ?_ (hothers (by simp [MoveEnv.calls])) harmless_prepareCmd
  refine Refuses.mutate ?_ (hothers (by simp [MoveEnv.calls])) harmless_updateOperatorPhase
  exact ⟨halone.unrecorded, by simp⟩

/-- A run that completes accepts no commit of the move. -/
lemma Completes.refuses (h : request.Completes env σ original revision prepared)
    (halone : request.CommitsAlone env σ) :
    (request.driveMovePeer env σ).2.Refuses request.Commits
      (ascii "move-peer:commit:" ++ request.operatorId) := by
  have hremoved : (request.removeSource env original (request.promotedRun env σ original revision
      (request.targetPeerId prepared))).Refuses request.Commits
      (ascii "move-peer:commit:" ++ request.operatorId) := by
    unfold removeSource
    split
    · exact (halone.refuses_promotedRun _).sendConfChange _ _
    · exact halone.refuses_promotedRun _
  rw [h.driveMovePeer_eq]
  refine Refuses.mutate ?_ (halone.others env.succeeding (by simp [MoveEnv.calls]))
    harmless_updateOperatorPhase
  have hcommitted := hremoved.mutate (halone.others env.committing (by simp [MoveEnv.calls]))
    (harmless_commitCmd original (request.targetPeerId prepared))
  unfold retireSource
  split
  · exact hcommitted.logIf _ (by simp)
  · exact hcommitted

/-- If no other client commits the move, and none is recorded under the mutation id of the
coordinator's commit, a success is never recorded: the move is recorded before the source is retired
exactly if the coordinator does not pass every check. -/
theorem move_recorded_iff (halone : request.CommitsAlone env σ) :
    request.RecordedBeforeRetirement (request.driveMovePeer env σ) ↔
      ∀ original revision prepared, ¬request.Completes env σ original revision prepared := by
  constructor
  · intro hrecorded original revision prepared h
    obtain ⟨_, _, answer, -, ⟨event, hmem, haccepted⟩, -, -⟩ :=
      hrecorded (driveMovePeer_success_iff.2 ⟨original, revision, prepared, h⟩)
    cases event with
    | applied τ step command =>
      simp only [MoveEvent.acceptedCommit] at haccepted
      split_ifs at haccepted with hok
      exact (h.refuses halone).events τ step command hmem ⟨_, haccepted⟩ hok
    | _ => cases haccepted
  · intro hfails hsuccess
    obtain ⟨original, revision, prepared, h⟩ := driveMovePeer_success_iff.1 hsuccess
    exact absurd h (hfails original revision prepared)

end MoveRequest

/-- The coordinator is stopped after the promotion, while another client registers a store. -/
def stoppedEnv : MoveEnv :=
  { moveEnv with
    shouldStop := fun point => point = .promoted
    waiting := { nowMs := 2, steps := [.other ⟨[7], 2, .putStore ⟨3, [3], 26003⟩⟩, .own] } }

theorem move_recorded_stoppedEnv : moveRequest.RecordedBeforeRetirement
    (moveRequest.driveMovePeer stoppedEnv (run {} (moveOperatorCommands false))) := by
  have halone : moveRequest.CommitsAlone stoppedEnv (run {} (moveOperatorCommands false)) := by
    refine ⟨?_, fun record hrecord => ?_⟩
    · simp [MoveEnv.calls, stoppedEnv, moveEnv, Call.Spares, MoveRequest.Commits,
        Operation.commitOf, ascii]
    · have hnone : (run {} (moveOperatorCommands false)).dedup[ascii "move-peer:commit:" ++
          moveRequest.operatorId]? = none := by decide
      rw [hnone] at hrecord
      cases hrecord
  refine (MoveRequest.move_recorded_iff halone).2 fun original revision prepared h => ?_
  cases h.running .promoted

/-- The coordinator reports success, and its commit was refused. -/
theorem move_not_recorded : ¬∀ (request : MoveRequest) (env : MoveEnv) (σ : MetadataState),
      metadataSystem.Reachable TransitionSystem.anyStep σ →
        request.RecordedBeforeRetirement (request.driveMovePeer env σ) := by
  intro h
  have hreach : metadataSystem.Reachable TransitionSystem.anyStep
      (run {} (moveOperatorCommands false)) := TransitionSystem.Guarded.reachable (by decide)
  obtain ⟨_, _, prepared, -, ⟨event, hmem, hcommits⟩, -, -⟩ :=
    h moveRequest moveEnv _ hreach (by decide)
  -- whichever peer is meant, no application of a commit is accepted
  have hnone : ∀ event ∈ (moveRequest.driveMovePeer moveEnv
      (run {} (moveOperatorCommands false))).2.events, event.acceptedCommit = none := by decide
  rw [hnone event hmem] at hcommits
  cases hcommits

end StrataKV.Metadata
