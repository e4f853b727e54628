import StrataKV.Metadata.Deduplication
import StrataKV.Metadata.MovePeer

/-!
# The point of no return of a move

The source of a move is removed after the target was promoted, and before that the coordinator marks
its operator as irreversible, so that it is not cancelled any more. The update that does so has the
mutation id of the update to the waiting phase, which tells the phase and the attempt only: once
that one has been applied, the mark is taken for a repetition and the operator stays as it was.
-/

namespace StrataKV.Metadata

open Region (ConfChangeType)
open MetadataState MoveRun TransitionSystem Option

variable {event : MoveEvent}

/-! ## The removal of the source -/

/-- The run has sent the removal of the peer in the state. -/
def Removes (run : MoveRun) (τ : MetadataState) (peer : RegionPeerLocation) : Prop :=
  .confChange τ .removePeer peer ∈ run.events

namespace MoveRequest

variable {request : MoveRequest} {env : MoveEnv} {σ τ : MetadataState} {original : RegionMetadata}
  {revision : UInt64} {run : MoveRun} {peer : RegionPeerLocation}
  {prepared : MetadataCommandResult}

@[simp] lemma removes_mutate {call : Call} {command : MetadataCommand} :
    Removes (run.mutate call command) τ peer ↔ Removes run τ peer := by
  simp [Removes]

@[simp] lemma removes_sendConfChange {type : ConfChangeType} {target : RegionPeerLocation}
    (htype : type ≠ .removePeer) :
    Removes (run.sendConfChange env type target) τ peer ↔ Removes run τ peer := by
  simp [Removes, htype.symm]

@[simp] lemma removes_logIf {b : Bool} (hevent : .confChange τ .removePeer peer ≠ event) :
    Removes (if b then run.log event else run) τ peer ↔ Removes run τ peer := by
  simp [Removes, mem_logIf, hevent]

@[simp] lemma not_removes_start : ¬Removes { state := σ } τ peer := by
  simp [Removes]

/-- A removal is sent on the way to success only. -/
def RemovesLast (τ : MetadataState) (peer : RegionPeerLocation)
    (outcome : CoordinatorStepResult × MoveRun) : Prop :=
  Removes outcome.2 τ peer → outcome.1 = .success

lemma removesLast_of_not {result : CoordinatorStepResult} {run : MoveRun}
    (h : ¬Removes run τ peer) : RemovesLast τ peer (result, run) :=
  fun hmem => absurd hmem h

section

variable {run : MoveRun} {targetPeerId : UInt64} (h : ¬Removes run τ peer)

include h

/-- The stages one by one, from the last: each sends its own changes only. -/
lemma removesLast_promote :
    RemovesLast τ peer (request.promote env original targetPeerId run) := by
  unfold promote
  iterate 2
    split
    · exact removesLast_of_not (by simpa using h)
  · exact fun _ => rfl

lemma removesLast_catchUp :
    RemovesLast τ peer (request.catchUp env original targetPeerId run) := by
  unfold catchUp
  dsimp only
  iterate 3
    split
    · exact removesLast_of_not (by simpa using h)
  · exact removesLast_promote (by simpa using h)

lemma removesLast_mount : RemovesLast τ peer (request.mount env original targetPeerId run) := by
  unfold mount
  dsimp only
  iterate 3
    split
    · exact removesLast_of_not (by simpa using h)
  · exact removesLast_catchUp (by simpa using h)

lemma removesLast_prepare : RemovesLast τ peer (request.prepare env original revision run) := by
  unfold prepare
  dsimp only
  iterate 3
    split
    · exact removesLast_of_not (by simpa using h)
  · exact removesLast_mount (by simpa using h)

end

/-- No other ending of the driver removes the source. -/
lemma removesLast_driveMovePeer : RemovesLast τ peer (request.driveMovePeer env σ) := by
  unfold driveMovePeer
  iterate 3
    split
    · exact removesLast_of_not (by simp)
  · exact removesLast_prepare (by simp)

/-- The source is removed in the state after the mutations until the promotion. -/
lemma Completes.removes_iff (h : request.Completes env σ original revision prepared) :
    Removes (request.driveMovePeer env σ).2 τ peer ↔
      env.confChangeSender.isSome = true ∧ request.sourceLoc original = some peer ∧
        τ = stateAfter (request.callsToPromotion env original revision) σ := by
  have hpromoted : ¬Removes (request.promotedRun env σ original revision
      (request.targetPeerId prepared)) τ peer := by
    simp [promotedRun]
  rw [h.driveMovePeer_eq, ← state_promotedRun (request.targetPeerId prepared)]
  unfold finish retireSource removeSource
  cases hsource : request.sourceLoc original with
  | none => simpa using hpromoted
  | some source =>
    have hsent (run : MoveRun) : Removes (run.sendConfChange env .removePeer source) τ peer ↔
        Removes run τ peer ∨ env.confChangeSender.isSome = true ∧ τ = run.state ∧ peer = source := by
      simp [Removes]
    simp only [removes_mutate, removes_logIf, ne_eq, reduceCtorEq, not_false_eq_true, hsent,
      hpromoted, false_or, Option.some.injEq]
    tauto

end MoveRequest

/-! ## The point of no return -/

/-- The operator's record says that it may not turn back. -/
def MetadataState.irreversible (σ : MetadataState) (operatorId : Bytes) : Bool :=
  σ.schedulingOperators[operatorId]?.any SchedulingOperator.irreversible

section

variable {σ τ : MetadataState} {command own : MetadataCommand} {operatorId : Bytes}

lemma irreversible_iff : σ.irreversible operatorId = true ↔
    ∃ operator : SchedulingOperator, σ.schedulingOperators[operatorId]? = some operator ∧
      operator.irreversible = true := by
  unfold irreversible
  rw [any_eq_true]

/-- No command takes the mark away. -/
lemma irreversible_step (hstep : OperatorStep σ command τ)
    (h : σ.irreversible operatorId = true) : τ.irreversible operatorId = true := by
  obtain ⟨operator, hget, hmarked⟩ := irreversible_iff.1 h
  have hput : ∀ {id : Bytes} {current changed : SchedulingOperator},
      σ.schedulingOperators[id]? = some current →
      τ.schedulingOperators = σ.schedulingOperators.insert id changed →
      (current.irreversible = true → changed.irreversible = true) →
      τ.irreversible operatorId = true := by
    intro id current changed hfound hoperators hkept
    rw [irreversible_iff, hoperators, OrdMap.getElem?_insert]
    split_ifs with hid
    · subst hid
      rw [hfound] at hget
      cases hget
      exact ⟨changed, rfl, hkept hmarked⟩
    · exact ⟨operator, hget, hmarked⟩
  cases hstep with
  | unchanged hoperators => exact irreversible_iff.2 ⟨operator, by rw [hoperators, hget], hmarked⟩
  | @created requested _ _ absent _ _ hoperators =>
    refine irreversible_iff.2 ⟨operator, ?_, hmarked⟩
    rw [hoperators, OrdMap.getElem?_insert, if_neg, hget]
    rintro rfl
    rw [absent] at hget
    cases hget
  | updated _ found _ hoperators =>
    refine hput found hoperators fun hirreversible => ?_
    simp [updatedOperator, hirreversible]
  | cancelled found _ reversible hoperators =>
    refine hput found hoperators fun hirreversible => ?_
    rw [reversible] at hirreversible
    cases hirreversible

lemma irreversible_apply (command : MetadataCommand) (h : σ.irreversible operatorId = true) :
    (σ.apply command).2.irreversible operatorId = true :=
  irreversible_step (operatorStep_apply σ command) h

/-- An update that sets no mark, like a command that is not about the operators, leaves the mark. -/
def Operation.isUnmarking : Operation → Bool
  | .createSchedulingOperator _ => false
  | .updateSchedulingOperator _ _ _ _ _ irreversible _ => !irreversible
  | _ => true

/-- A command that sets no mark leaves the one that is there. -/
lemma irreversible_apply_eq (hop : command.operation.isUnmarking = true) :
    (σ.apply command).2.irreversible operatorId = σ.irreversible operatorId := by
  refine Bool.eq_iff_iff.2 ⟨fun h => ?_, irreversible_apply command⟩
  have hput : ∀ {id : Bytes} {current changed : SchedulingOperator},
      σ.schedulingOperators[id]? = some current →
      (σ.apply command).2.schedulingOperators = σ.schedulingOperators.insert id changed →
      changed.irreversible = current.irreversible → σ.irreversible operatorId = true := by
    intro id current changed hfound hoperators hkept
    rw [irreversible_iff, hoperators, OrdMap.getElem?_insert] at h
    obtain ⟨operator, hget, hmarked⟩ := h
    split_ifs at hget with hid
    · subst hid
      cases hget
      exact irreversible_iff.2 ⟨current, hfound, hkept ▸ hmarked⟩
    · exact irreversible_iff.2 ⟨operator, hget, hmarked⟩
  cases operatorStep_apply σ command with
  | unchanged hoperators =>
    rw [irreversible_iff, hoperators, ← irreversible_iff] at h
    exact h
  | created operation => simp [operation, Operation.isUnmarking] at hop
  | updated operation found _ hoperators =>
    simp only [operation, Operation.isUnmarking, Bool.not_eq_true'] at hop
    exact hput found hoperators (by simp [updatedOperator, hop])
  | cancelled found _ _ hoperators => exact hput found hoperators rfl

/-- A marked operator stays marked. -/
lemma irreversible_of_reaches (h : metadataSystem.Reaches anyStep σ τ)
    (hmarked : σ.irreversible operatorId = true) : τ.irreversible operatorId = true := by
  refine h.stable (I := fun τ => τ.irreversible operatorId = true) ?_ hmarked
  rintro τ command _ hτ - rfl
  exact irreversible_apply command hτ

/-- The cancellation of an operator that may not turn back changes no operator, and it is refused
unless the operator has ended or the cancellation repeats an earlier one. -/
lemma cancel_of_irreversible {updatedAtMs : UInt64} (hmarked : σ.irreversible operatorId = true)
    (hop : command.operation = .cancelSchedulingOperator operatorId updatedAtMs) :
    (σ.apply command).2.schedulingOperators = σ.schedulingOperators ∧
      (σ.dedup[command.mutationId]? = none →
        σ.schedulingOperators[operatorId]?.any (fun operator => isTerminal operator.phase) = false →
        (σ.apply command).1.error ≠ .ok) := by
  obtain ⟨operator, hget, hirreversible⟩ := irreversible_iff.1 hmarked
  have hlocked : (σ.applyLocked command).2 = σ ∧ (isTerminal operator.phase = false →
      (σ.applyLocked command).1.error ≠ .ok) := by
    unfold applyLocked
    rw [hop]
    dsimp only
    unfold cancelSchedulingOperatorLocked
    split
    · exact ⟨rfl, fun _ => by simp [reject, error]⟩
    rw [hget]
    dsimp only
    split_ifs with hended
    · exact ⟨rfl, fun hrunning => by simp [hrunning] at hended⟩
    · simp [reject, error]
  unfold apply
  split
  · exact ⟨rfl, fun _ _ => by simp [reject, error]⟩
  split
  · rename_i record hrecord
    exact ⟨rfl, fun hnone => by simp [hrecord] at hnone⟩
  · rcases h : σ.applyLocked command with ⟨result, next⟩
    rw [h] at hlocked
    obtain ⟨rfl, hrefused⟩ := hlocked
    obtain ⟨dedup, dedupOrder, heq⟩ := next.recordResultLocked_eq command.mutationId result
    dsimp only
    rw [heq]
    refine ⟨rfl, fun _ hrunning => hrefused ?_⟩
    rw [hget] at hrunning
    exact hrunning

end

namespace MoveRequest

variable (request : MoveRequest) {env : MoveEnv} {σ τ : MetadataState} {original : RegionMetadata}
  {revision : UInt64}

/-- Until the source is removed nobody else changes the metadata, and the update to the waiting
phase is not lost. -/
structure MovesAlone (env : MoveEnv) : Prop where
  alone : ∀ call ∈ [env.dispatching, env.preparing, env.waiting, env.promoting],
    ∀ step ∈ call.steps, step = .own
  waits : env.waiting.steps ≠ []

variable {request}

/-- A command whose id is recorded changes nothing. -/
lemma served_repeated {own : MetadataCommand} {steps : List ServiceStep}
    (hown : ∀ step ∈ steps, step = .own) (hknown : σ.dedup[own.mutationId]?.isSome = true) :
    served own σ steps = σ := by
  refine served_invariant (I := fun τ => τ = σ) ?_ rfl
  rintro step hmem _ rfl
  rw [hown step hmem]
  exact apply_repeated hknown

/-- The machine remembers its mutations, and the mark of the operator is the one it had. -/
def SameMark (σ : MetadataState) (operatorId : Bytes) (τ : MetadataState) : Prop :=
  (∃ history, Remembers τ history) ∧ τ.irreversible operatorId = σ.irreversible operatorId

/-- So do the updates of the driver that set no mark. -/
lemma SameMark.served {operatorId : Bytes} (h : SameMark σ operatorId τ) (own : MetadataCommand)
    (hop : own.operation.isUnmarking = true) {steps : List ServiceStep}
    (hown : ∀ step ∈ steps, step = .own) : SameMark σ operatorId (served own τ steps) := by
  refine served_invariant (fun step hmem υ hυ => ?_) h
  obtain ⟨⟨history, hremembers⟩, hmark⟩ := hυ
  rw [hown step hmem]
  exact ⟨⟨_, hremembers.apply own⟩, (irreversible_apply_eq hop).trans hmark⟩

/-- The mark repeats the mutation id of the update before it, and the updates before it set none. -/
lemma irreversible_stateAfter_eq {past : History} (hσ : Timeline σ past)
    (halone : MovesAlone env) :
    (stateAfter (request.callsToPromotion env original revision) σ).irreversible
      request.operatorId = σ.irreversible request.operatorId := by
  have hstart : SameMark σ request.operatorId σ := ⟨⟨past, hσ.remembers⟩, rfl⟩
  have hdispatched := hstart.served (request.dispatchingCmd env) rfl
    (halone.alone env.dispatching (by simp))
  have hprepared := hdispatched.served (request.prepareCmd original revision) rfl
    (halone.alone env.preparing (by simp))
  have hwaiting := hprepared.served (request.waitingCmd env) rfl
    (halone.alone env.waiting (by simp))
  refine Eq.trans ?_ hwaiting.2
  -- the first application of the update to the waiting phase leaves a record under its id
  have hknown : (served (request.waitingCmd env) (served (request.prepareCmd original revision)
      (served (request.dispatchingCmd env) σ env.dispatching.steps) env.preparing.steps)
      env.waiting.steps).dedup[(request.promotedCmd env).mutationId]?.isSome = true := by
    obtain ⟨first, rest, hsteps⟩ := List.exists_cons_of_ne_nil halone.waits
    have hown := halone.alone env.waiting (by simp)
    obtain ⟨⟨history, hremembers⟩, -⟩ := hprepared
    have hnamed : (request.waitingCmd env).mutationId ≠ [] := by
      simp [waitingCmd, updateOperatorPhase, ascii]
    have hfirst := hremembers.isSome_apply hnamed
    rw [hsteps] at hown ⊢
    cases hown first (by simp)
    rw [served, ServiceStep.command,
      served_repeated (fun step hmem => hown step (List.mem_cons_of_mem _ hmem)) hfirst]
    exact hfirst
  simp only [stateAfter, callsToPromotion]
  rw [served_repeated (halone.alone env.promoting (by simp)) hknown]

/-- When the removal of a source is proposed the operator may not turn back, and from then on no
cancellation has an effect: it is refused, or it finds the operator at its end, or it repeats a
mutation that was recorded before. -/
def RemovedAfterMilestone (request : MoveRequest) (run : MoveRun) : Prop :=
  ∀ τ peer, .confChange τ .removePeer peer ∈ run.events →
    τ.irreversible request.operatorId = true ∧
      ∀ υ, metadataSystem.Reaches TransitionSystem.anyStep τ υ →
        ∀ (command : MetadataCommand) (updatedAtMs : UInt64),
          command.operation = .cancelSchedulingOperator request.operatorId updatedAtMs →
          (υ.apply command).2.schedulingOperators = υ.schedulingOperators ∧
            (υ.dedup[command.mutationId]? = none → υ.schedulingOperators[request.operatorId]?.any
                (fun operator => isTerminal operator.phase) = false →
              (υ.apply command).1.error ≠ .ok)

end MoveRequest

/-! ## A move between two stores -/

/-- A Region on the first of two stores, and an operator that moves it to the second one. -/
def moveOperatorCommands (irreversible : Bool) : List MetadataCommand :=
  [bootstrapCommand, ⟨[2], 1, .putStore ⟨2, [2], 26002⟩⟩, ⟨[3], 0, .reportStoreHeartbeat
      { storeId := 2
        sequence := 1
        observedAtMs := 1
        expiresAtMs := 9
        capacityBytes := 128 * 1024 * 1024
        availableBytes := 128 * 1024 * 1024 }⟩, ⟨[4], 2, .createSchedulingOperator
      { operatorId := [65]
        regionId := 10
        sourceRevision := 2
        regionEpoch := some ⟨1, 1⟩
        sourceStoreId := 1
        targetStoreId := 2
        deadlineMs := 9
        createdAtMs := 1
        updatedAtMs := 1
        irreversible := irreversible }⟩]

def moveRequest : MoveRequest := ⟨[65], 10, 1, 2⟩

/-- Every mutation is applied once and answered, and every request is accepted. -/
def moveEnv : MoveEnv where
  lookupRegion := .ok
    ({ regionId := 10
       peers := [{ nodeId := 0, host := [1], port := 26001, storeId := 1, peerId := 101 }]
       epoch := ⟨1, 1⟩
       metadataRevision := 2 }, 2)
  targetPreparer := some true
  confChangeSender := some fun _ => true
  statusPoller := some true
  sourceRetirer := true
  dispatching := { nowMs := 2, steps := [.own], replied := some 0 }
  preparing := { nowMs := 2, steps := [.own], replied := some 0 }
  waiting := { nowMs := 2, steps := [.own], replied := some 0 }
  promoting := { nowMs := 2, steps := [.own], replied := some 0 }
  committing := { nowMs := 2, steps := [.own], replied := some 0 }
  succeeding := { nowMs := 2, steps := [.own], replied := some 0 }

/-- The metadata when the removal of a peer is proposed. -/
def MoveEvent.removalState? : MoveEvent → Option MetadataState
  | .confChange σ .removePeer _ => some σ
  | _ => none

lemma MoveEvent.eq_of_removalState? {σ : MetadataState}
    (h : event.removalState? = some σ) : ∃ peer, event = .confChange σ .removePeer peer := by
  cases event with
  | confChange τ type peer =>
    cases type <;> cases h
    exact ⟨peer, rfl⟩
  | _ => cases h

end StrataKV.Metadata
