import StrataKV.Metadata.Snapshot
import StrataKV.Metadata.Topology

/-!
# The life of a scheduling operator

Operators are kept in one map, and the running ones are indexed by their Region, so that a Region has
at most one of them. `OperatorStep` says what a command can do to the two maps. The index stays exact
as long as no update reaches an operator that has ended while another one runs in its Region: an
update that repeats the final phase takes the Region's entry out of the index, whoever it belongs to.

The point of no return of an operator is a flag that only cancellations check: an update may still ask
for a cancelled phase.
-/

namespace StrataKV.Metadata

open Std (ExtTreeMap)
open MetadataState OrdMap MetadataSnapshot TransitionSystem

variable {σ τ : MetadataState} {command : MetadataCommand}

/-! ## Steps of the operators -/

/-- What a command does to the operators. -/
inductive OperatorStep (σ : MetadataState) (command : MetadataCommand) (τ : MetadataState) : Prop
  | unchanged (hoperators : τ.schedulingOperators = σ.schedulingOperators)
      (hactive : τ.activeOperatorByRegion = σ.activeOperatorByRegion)
  | created {requested : SchedulingOperator}
      (operation : command.operation = .createSchedulingOperator requested)
      (phase : requested.phase = .pending)
      (absent : σ.schedulingOperators[requested.operatorId]? = none)
      (idle : σ.activeOperatorByRegion[requested.regionId]? = none)
      (budget : σ.activeOperatorByRegion.size < σ.balancerConfig.maximumActiveOperators.toNat)
      (hoperators : τ.schedulingOperators =
        σ.schedulingOperators.insert requested.operatorId requested)
      (hactive : τ.activeOperatorByRegion =
        σ.activeOperatorByRegion.insert requested.regionId requested.operatorId)
  | updated {operatorId lastError : Bytes} {expectedPhase phase : SchedulingOperatorPhase}
      {attempts : UInt32} {irreversible : Bool} {updatedAtMs : UInt64}
      {current : SchedulingOperator}
      (operation : command.operation = .updateSchedulingOperator operatorId expectedPhase phase
        attempts lastError irreversible updatedAtMs)
      (found : σ.schedulingOperators[operatorId]? = some current)
      (transition : validTransition current.phase phase = true)
      (hoperators : τ.schedulingOperators = σ.schedulingOperators.insert operatorId
        (updatedOperator current phase attempts lastError irreversible updatedAtMs))
      (hactive : τ.activeOperatorByRegion =
        if isTerminal phase then σ.activeOperatorByRegion.erase current.regionId
        else σ.activeOperatorByRegion)
  | cancelled {operatorId : Bytes} {updatedAtMs : UInt64} {current : SchedulingOperator}
      (found : σ.schedulingOperators[operatorId]? = some current)
      (running : isTerminal current.phase = false) (reversible : current.irreversible = false)
      (hoperators : τ.schedulingOperators =
        σ.schedulingOperators.insert operatorId (cancelledOperator current updatedAtMs))
      (hactive : τ.activeOperatorByRegion =
        if current.phase = .pending then σ.activeOperatorByRegion.erase current.regionId
        else σ.activeOperatorByRegion)

variable {υ : MetadataState}

lemma OperatorStep.congr (h : OperatorStep σ command τ)
    (hoperators : υ.schedulingOperators = τ.schedulingOperators)
    (hactive : υ.activeOperatorByRegion = τ.activeOperatorByRegion) : OperatorStep σ command υ := by
  cases h with
  | unchanged ho ha => exact .unchanged (hoperators.trans ho) (hactive.trans ha)
  | created operation phase absent idle budget ho ha =>
    exact .created operation phase absent idle budget (hoperators.trans ho) (hactive.trans ha)
  | updated operation found transition ho ha =>
    exact .updated operation found transition (hoperators.trans ho) (hactive.trans ha)
  | cancelled found running reversible ho ha =>
    exact .cancelled found running reversible (hoperators.trans ho) (hactive.trans ha)

lemma MetadataState.Installs.operatorStep {answer : MetadataState → MetadataCommandResult}
    (h : Installs σ command τ answer) : OperatorStep σ command τ := by
  cases h with
  | createSchedulingOperator operation _ _ _ phase absent idle budget =>
    exact .created operation phase absent ((contains_eq_false_iff _ _).1 idle) budget rfl rfl
  | updateSchedulingOperator operation found transition =>
    exact .updated operation found transition rfl rfl
  | cancelSchedulingOperator _ found running reversible =>
    refine .cancelled found running reversible rfl ?_
    simp only [withOperator, decide_eq_true_eq]
    rfl
  | @allocateIds kind => cases kind <;> exact .unchanged rfl rfl
  | _ => exact .unchanged rfl rfl

variable {answer : MetadataCommandResult × MetadataState}

lemma MetadataState.Outcome.operatorStep
    (h : Outcome σ command answer) : OperatorStep σ command answer.2 := by
  cases h with
  | @installed τ answer hinstalls =>
    obtain ⟨view, heq⟩ := τ.publish_snd answer
    rw [heq]
    exact hinstalls.operatorStep.congr rfl rfl
  | _ => exact .unchanged rfl rfl

lemma MetadataState.Applied.operatorStep
    (h : Applied σ command answer) : OperatorStep σ command answer.2 :=
  h.lift (.unchanged rfl rfl) (fun houtcome => houtcome.operatorStep)
    fun _ _ hstep => hstep.congr rfl rfl

/-- What a command does to the operators, failed publications included. -/
lemma operatorStep_apply (σ : MetadataState) (command : MetadataCommand) :
    OperatorStep σ command (σ.apply command).2 :=
  (apply_applied σ command).operatorStep

/-! ## The index of the running operators -/

/-- The index contains exactly the operators in a phase that is not final, each under its Region. -/
def ActiveExact (operators : ExtTreeMap Bytes SchedulingOperator compare)
    (active : ExtTreeMap UInt64 Bytes compare) : Prop :=
  ∀ (regionId : UInt64) (operatorId : Bytes), active[regionId]? = some operatorId ↔
    ∃ operator : SchedulingOperator, operators[operatorId]? = some operator ∧
      isTerminal operator.phase = false ∧ operator.regionId = regionId

variable {current changed : SchedulingOperator}

namespace ActiveExact

variable {operators : ExtTreeMap Bytes SchedulingOperator compare}
  {active : ExtTreeMap UInt64 Bytes compare}

lemma empty : ActiveExact ∅ ∅ := by
  intro regionId operatorId
  simp

section

variable (h : ActiveExact operators active)

include h

/-- A Region has at most one running operator. -/
lemma unique {id id' : Bytes} {operator operator' : SchedulingOperator}
    (hget : operators[id]? = some operator) (hget' : operators[id']? = some operator')
    (hrunning : isTerminal operator.phase = false) (hrunning' : isTerminal operator'.phase = false)
    (hregion : operator.regionId = operator'.regionId) : id = id' := by
  have hactive := (h operator'.regionId id).2 ⟨operator, hget, hrunning, hregion⟩
  have hactive' := (h operator'.regionId id').2 ⟨operator', hget', hrunning', rfl⟩
  exact Option.some.inj (hactive.symm.trans hactive')

variable {operator : SchedulingOperator} {id : Bytes}

lemma insert_ended (habsent : operators[id]? = none) (hended : isTerminal operator.phase = true) :
    ActiveExact (operators.insert id operator) active := by
  intro regionId operatorId
  rw [h regionId operatorId]
  constructor
  · rintro ⟨other, hget, hother⟩
    refine ⟨other, ?_, hother⟩
    rw [getElem?_insert, if_neg, hget]
    rintro rfl
    rw [habsent] at hget
    cases hget
  · rintro ⟨other, hget, hrunning, hregion⟩
    rcases insert_cases hget with ⟨-, rfl⟩ | hget
    · rw [hended] at hrunning
      cases hrunning
    · exact ⟨other, hget, hrunning, hregion⟩

lemma insert_running
    (habsent : operators[id]? = none) (hrunning : isTerminal operator.phase = false)
    (hidle : active[operator.regionId]? = none) :
    ActiveExact (operators.insert id operator) (active.insert operator.regionId id) := by
  intro regionId operatorId
  rw [getElem?_insert]
  constructor
  · intro hactive
    split_ifs at hactive with hregion
    · cases hactive
      exact ⟨operator, by rw [getElem?_insert, if_pos rfl], hrunning, hregion⟩
    · obtain ⟨other, hget, hother⟩ := (h regionId operatorId).1 hactive
      refine ⟨other, ?_, hother⟩
      rw [getElem?_insert, if_neg, hget]
      rintro rfl
      rw [habsent] at hget
      cases hget
  · rintro ⟨other, hget, hother, hregion⟩
    rcases insert_cases hget with ⟨hid, rfl⟩ | hget
    · rw [if_pos hregion, hid]
    · have hactive := (h regionId operatorId).2 ⟨other, hget, hother, hregion⟩
      rw [if_neg, hactive]
      rintro rfl
      rw [hidle] at hactive
      cases hactive

/-- A change of an operator that does not bring it back, and that comes late only if no other
operator runs in its Region. -/
lemma put (hget : operators[id]? = some current) (hregion : changed.regionId = current.regionId)
    (hforward : isTerminal changed.phase = false → isTerminal current.phase = false)
    (hlate : isTerminal current.phase = true → active[current.regionId]? = none) :
    ActiveExact (operators.insert id changed)
      (if isTerminal changed.phase then active.erase current.regionId else active) := by
  intro regionId operatorId
  cases hended : isTerminal changed.phase with
  | false =>
    -- the operator runs on under its entry
    have hrunning := hforward hended
    rw [if_neg (by decide), h regionId operatorId]
    constructor
    · rintro ⟨other, hother, hphase, hin⟩
      by_cases hid : id = operatorId
      · subst hid
        rw [hget] at hother
        cases hother
        exact ⟨changed, by rw [getElem?_insert, if_pos rfl], hended, hregion.trans hin⟩
      · exact ⟨other, by rw [getElem?_insert, if_neg hid, hother], hphase, hin⟩
    · rintro ⟨other, hother, hphase, hin⟩
      rcases insert_cases hother with ⟨hid, rfl⟩ | hother
      · exact ⟨current, hid ▸ hget, hrunning, hregion.symm.trans hin⟩
      · exact ⟨other, hother, hphase, hin⟩
  | true =>
    -- the entry of the Region, if there is one, is the operator's own
    rw [if_pos rfl, ExtTreeMap.getElem?_erase]
    have howner (owner : Bytes) (howner : active[current.regionId]? = some owner) : owner = id := by
      cases hphase : isTerminal current.phase with
      | true =>
        rw [hlate hphase] at howner
        cases howner
      | false =>
        have hactive := (h current.regionId id).2 ⟨current, hget, hphase, rfl⟩
        exact Option.some.inj (howner.symm.trans hactive)
    constructor
    · intro hactive
      split_ifs at hactive with hne
      obtain ⟨other, hother, hphase, hin⟩ := (h regionId operatorId).1 hactive
      refine ⟨other, ?_, hphase, hin⟩
      rw [getElem?_insert, if_neg, hother]
      rintro rfl
      rw [hget] at hother
      cases hother
      exact hne (by simp [hin])
    · rintro ⟨other, hother, hphase, hin⟩
      rw [getElem?_insert] at hother
      split at hother
      · cases hother
        rw [hended] at hphase
        cases hphase
      rename_i hid
      have hactive := (h regionId operatorId).2 ⟨other, hother, hphase, hin⟩
      rw [if_neg, hactive]
      intro heq
      have hsame : current.regionId = regionId := by simpa using heq
      rw [← hsame] at hactive
      exact hid (howner operatorId hactive).symm

end

end ActiveExact

lemma running_of_validTransition {from_ to_ : SchedulingOperatorPhase}
    (h : validTransition from_ to_ = true) (hto : isTerminal to_ = false) :
    isTerminal from_ = false := by
  by_contra hfrom
  have hended : isTerminal from_ = true := by simpa using hfrom
  have hsame : from_ = to_ := by
    by_contra hne
    unfold validTransition at h
    rw [if_neg hne] at h
    cases from_ <;> simp_all [isTerminal]
  rw [hsame, hto] at hended
  cases hended

/-- An update does not reach an operator that has ended while another one runs in its Region. -/
def UpdateInTime (σ : MetadataState) (command : MetadataCommand) : Prop :=
  match command.operation with
  | .updateSchedulingOperator operatorId _ _ _ _ _ _ =>
    ∀ current ∈ σ.schedulingOperators[operatorId]?, isTerminal current.phase = true →
      σ.activeOperatorByRegion[current.regionId]? = none
  | _ => True

lemma ActiveExact.step (h : ActiveExact σ.schedulingOperators σ.activeOperatorByRegion)
    (hstep : OperatorStep σ command τ) (htime : UpdateInTime σ command) :
    ActiveExact τ.schedulingOperators τ.activeOperatorByRegion := by
  cases hstep with
  | unchanged hoperators hactive =>
    rw [hoperators, hactive]
    exact h
  | created _ phase absent idle _ hoperators hactive =>
    rw [hoperators, hactive]
    exact h.insert_running absent (by rw [phase]; rfl) idle
  | updated operation found transition hoperators hactive =>
    rw [hoperators, hactive]
    rw [UpdateInTime, operation] at htime
    exact h.put found rfl (running_of_validTransition transition) (htime _ found)
  | @cancelled operatorId updatedAtMs current found running _ hoperators hactive =>
    rw [hoperators, hactive]
    have hended : isTerminal (cancelledOperator current updatedAtMs).phase =
        decide (current.phase = .pending) := by
      unfold cancelledOperator
      by_cases hpending : current.phase = .pending
      · simp [hpending, isTerminal]
      · simp [hpending, isTerminal]
    have hput : ActiveExact
        (σ.schedulingOperators.insert operatorId (cancelledOperator current updatedAtMs)) _ :=
      h.put found rfl (fun _ => running) fun hphase =>
        absurd (running.symm.trans hphase) (by decide)
    rw [hended] at hput
    simpa using hput

/-! ## Restoring the operators -/

lemma bind_eq_ok {α β : Type} {x : Except String α} {f : α → Except String β} {b : β}
    (h : (x >>= f) = .ok b) : ∃ a, x = .ok a ∧ f a = .ok b := by
  cases x with
  | error message => cases h
  | ok a => exact ⟨a, rfl, h⟩

variable {snapshot : MetadataSnapshot}

/-- The records and the operators of a restored state are those of the snapshot. -/
lemma restored_members (h : σ.restored snapshot = .ok τ) :
    collect MutationRecord.mutationId validMutation
        "invalid mutation record in metadata snapshot" snapshot.recentMutations = .ok τ.dedup ∧
      τ.dedupOrder = snapshot.recentMutations.map MutationRecord.mutationId ∧
      addOperators snapshot.revision ∅ ∅ snapshot.schedulingOperators =
        .ok (τ.schedulingOperators, τ.activeOperatorByRegion) := by
  unfold restored at h
  obtain ⟨-, -, h⟩ := bind_eq_ok h
  obtain ⟨regions, -, h⟩ := bind_eq_ok h
  obtain ⟨-, -, h⟩ := bind_eq_ok h
  obtain ⟨-, -, h⟩ := bind_eq_ok h
  obtain ⟨stores, -, h⟩ := bind_eq_ok h
  obtain ⟨-, -, h⟩ := bind_eq_ok h
  obtain ⟨-, -, h⟩ := bind_eq_ok h
  obtain ⟨dedup, hdedup, h⟩ := bind_eq_ok h
  obtain ⟨migrations, -, h⟩ := bind_eq_ok h
  obtain ⟨heartbeats, -, h⟩ := bind_eq_ok h
  obtain ⟨-, -, h⟩ := bind_eq_ok h
  obtain ⟨⟨operators, active⟩, hoperators, h⟩ := bind_eq_ok h
  cases h
  exact ⟨hdedup, rfl, hoperators⟩

/-- A restore leaves the operators as they are, or replaces them by those of the snapshot. -/
lemma restore_operators (σ : MetadataState) (snapshot : MetadataSnapshot) :
    (σ.restore snapshot).2.schedulingOperators = σ.schedulingOperators ∧
        (σ.restore snapshot).2.activeOperatorByRegion = σ.activeOperatorByRegion ∨
      addOperators snapshot.revision ∅ ∅ snapshot.schedulingOperators =
        .ok ((σ.restore snapshot).2.schedulingOperators,
          (σ.restore snapshot).2.activeOperatorByRegion) := by
  unfold restore
  cases hrestored : σ.restored snapshot with
  | error message => exact .inl ⟨rfl, rfl⟩
  | ok τ =>
    right
    obtain ⟨view, heq⟩ := τ.recomputeHighWater.publish_snd accept
    rw [(restored_members hrestored).2.2]
    rw [heq]
    rfl

namespace MetadataSnapshot

variable {revision : UInt64} {operators operators' : ExtTreeMap Bytes SchedulingOperator compare}
  {active active' : ExtTreeMap UInt64 Bytes compare} {added : List SchedulingOperator}

section

variable (h : addOperators revision operators active added = .ok (operators', active'))

include h

lemma addOperators_exact
    (hexact : ActiveExact operators active) : ActiveExact operators' active' := by
  induction added generalizing operators active with
  | nil =>
    cases h
    exact hexact
  | cons operator rest ih =>
    rw [addOperators] at h
    split at h
    · cases h
    rename_i hvalid
    simp only [not_or] at hvalid
    have habsent := (contains_eq_false_iff _ _).1 (Bool.eq_false_iff.2 hvalid.2.2.2)
    split at h
    · rename_i hended
      exact ih h (hexact.insert_ended habsent hended)
    rename_i hrunning
    split_ifs at h with hidle
    have hidle := (contains_eq_false_iff _ _).1 (Bool.eq_false_iff.2 hidle)
    exact ih h (hexact.insert_running habsent (by simpa using hrunning) hidle)

/-- The loop keeps the operators it had and adds those of the list under their ids. -/
lemma getElem?_addOperators (operatorId : Bytes) (operator : SchedulingOperator) :
    operators'[operatorId]? = some operator ↔
      operators[operatorId]? = some operator ∨ operator ∈ added ∧ operator.operatorId = operatorId := by
  induction added generalizing operators active with
  | nil =>
    cases h
    simp
  | cons first rest ih =>
    rw [addOperators] at h
    split at h
    · cases h
    rename_i hvalid
    simp only [not_or] at hvalid
    have habsent := (contains_eq_false_iff _ _).1 (Bool.eq_false_iff.2 hvalid.2.2.2)
    have hmem : (operators.insert first.operatorId first)[operatorId]? = some operator ∨
        operator ∈ rest ∧ operator.operatorId = operatorId ↔
        operators[operatorId]? = some operator ∨
          operator ∈ first :: rest ∧ operator.operatorId = operatorId := by
      rw [getElem?_insert, List.mem_cons]
      by_cases hid : first.operatorId = operatorId
      · subst hid
        grind
      · grind
    rw [← hmem]
    split at h
    · exact ih h
    split_ifs at h
    exact ih h

end

end MetadataSnapshot

/-! ## Runs with restores -/

/-- A replica of the state machine applies commands, and is replaced by a snapshot. -/
inductive MetadataEvent
  | apply (command : MetadataCommand)
  | restore (snapshot : MetadataSnapshot)

def MetadataState.handle (σ : MetadataState) : MetadataEvent → MetadataState
  | .apply command => (σ.apply command).2
  | .restore snapshot => (σ.restore snapshot).2

/-- The runs of a replica. -/
def replicaSystem : TransitionSystem MetadataState MetadataEvent := .ofFun {} MetadataState.handle

/-- Updates come in time; a restore may be given any snapshot. -/
def InTime (σ : MetadataState) : MetadataEvent → Prop
  | .apply command => UpdateInTime σ command
  | .restore _ => True

lemma activeExact_of_reachable (h : replicaSystem.Reachable InTime σ) :
    ActiveExact σ.schedulingOperators σ.activeOperatorByRegion := by
  refine h.invariant (I := fun σ => ActiveExact σ.schedulingOperators σ.activeOperatorByRegion)
    ?_ ?_
  · rintro _ rfl
    exact ActiveExact.empty
  · rintro σ event _ hσ htime rfl
    cases event with
    | apply command => exact hσ.step (operatorStep_apply σ command) htime
    | restore snapshot =>
      show ActiveExact (σ.restore snapshot).2.schedulingOperators
        (σ.restore snapshot).2.activeOperatorByRegion
      rcases restore_operators σ snapshot with ⟨hoperators, hactive⟩ | hadded
      · rw [hoperators, hactive]
        exact hσ
      · exact addOperators_exact hadded ActiveExact.empty

/-- In every run in which no update reaches an ended operator while another one runs in its Region,
the index of the active operators is exact, so that a Region has at most one running operator, and a
command that creates an operator leaves the active operators within the configured budget. -/
theorem active_index_exact (h : replicaSystem.Reachable InTime σ) :
    (∀ (regionId : UInt64) (operatorId : Bytes),
      σ.activeOperatorByRegion[regionId]? = some operatorId ↔
        ∃ operator : SchedulingOperator, σ.schedulingOperators[operatorId]? = some operator ∧
          isTerminal operator.phase = false ∧ operator.regionId = regionId) ∧
    (∀ (id id' : Bytes) (operator operator' : SchedulingOperator),
      σ.schedulingOperators[id]? = some operator → σ.schedulingOperators[id']? = some operator' →
      isTerminal operator.phase = false → isTerminal operator'.phase = false →
      operator.regionId = operator'.regionId → id = id') ∧
    ∀ (command : MetadataCommand) (operatorId : Bytes), σ.schedulingOperators[operatorId]? = none →
      (σ.apply command).2.schedulingOperators[operatorId]? ≠ none →
      (σ.apply command).2.activeOperatorByRegion.size ≤
        σ.balancerConfig.maximumActiveOperators.toNat := by
  have hexact := activeExact_of_reachable h
  refine ⟨hexact, fun _ _ _ _ hget hget' => hexact.unique hget hget', ?_⟩
  intro command operatorId hnone hsome
  -- an operator that is there already is only changed
  have hpresent {id : Bytes} {current changed : SchedulingOperator}
      (hfound : σ.schedulingOperators[id]? = some current)
      (hoperators : (σ.apply command).2.schedulingOperators =
        σ.schedulingOperators.insert id changed) : False := by
    rw [hoperators, getElem?_insert] at hsome
    split_ifs at hsome with hid
    · rw [hid, hnone] at hfound
      cases hfound
    · exact hsome hnone
  cases operatorStep_apply σ command with
  | unchanged hoperators =>
    rw [hoperators] at hsome
    exact absurd hnone hsome
  | created _ _ _ idle budget _ hactive =>
    rw [hactive, ExtTreeMap.size_insert, if_neg]
    · exact budget
    · rw [(contains_eq_false_iff _ _).2 idle]
      decide
  | updated _ found _ hoperators | cancelled found _ _ hoperators =>
    exact (hpresent found hoperators).elim

/-! ## A late update -/

/-- A split operator on the Region of `bootstrapCommand`. -/
def createCommand (mutationId operatorId : Bytes) : MetadataCommand :=
  ⟨mutationId, 1, .createSchedulingOperator
    { operatorId := operatorId
      type := .splitRegion
      regionId := 10
      sourceRevision := 1
      regionEpoch := some ⟨1, 1⟩
      splitCandidateGeneration := 1
      deadlineMs := 9
      createdAtMs := 1
      updatedAtMs := 1 }⟩

def updateCommand (mutationId operatorId : Bytes) (expectedPhase phase : SchedulingOperatorPhase)
    (irreversible : Bool) : MetadataCommand :=
  ⟨mutationId, 0, .updateSchedulingOperator operatorId expectedPhase phase 1 [] irreversible 2⟩

/-- An operator runs to its end, and a second one is created in its Region. -/
def operatorCommands : List MetadataCommand :=
  [bootstrapCommand, createCommand [2] [65], updateCommand [3] [65] .pending .dispatching false,
    updateCommand [4] [65] .dispatching .succeeded false, createCommand [5] [66]]

instance (σ : MetadataState) (command : MetadataCommand) : Decidable (UpdateInTime σ command) := by
  obtain ⟨_, _, operation⟩ := command
  induction operation using Operation.casesOn <;> dsimp only [UpdateInTime] <;> infer_instance

instance (σ : MetadataState) (event : MetadataEvent) : Decidable (InTime σ event) :=
  match event with
  | .apply command => inferInstanceAs (Decidable (UpdateInTime σ command))
  | .restore _ => inferInstanceAs (Decidable True)

/-- The state after a list of commands. -/
def MetadataState.after (commands : List MetadataCommand) : MetadataState :=
  (commands.map MetadataEvent.apply).foldl handle {}

theorem active_index_operatorCommands :
    (after operatorCommands).activeOperatorByRegion[(10 : UInt64)]? = some [66] ∧
      ∃ operator : SchedulingOperator,
        (after operatorCommands).schedulingOperators[([66] : Bytes)]? = some operator ∧
          isTerminal operator.phase = false ∧ operator.regionId = 10 := by
  have hreach : replicaSystem.Reachable InTime (after operatorCommands) :=
    Guarded.reachable (by decide)
  have hactive : (after operatorCommands).activeOperatorByRegion[(10 : UInt64)]? = some [66] := by
    decide
  exact ⟨hactive, ((active_index_exact hreach).1 10 [66]).1 hactive⟩

/-- An update that repeats the final phase of the first operator takes the second one out of the
index. -/
theorem active_index_loses_operator :
    ¬∀ σ : MetadataState, replicaSystem.Reachable TransitionSystem.anyStep σ →
      ∀ (regionId : UInt64) (operatorId : Bytes),
        σ.activeOperatorByRegion[regionId]? = some operatorId ↔
          ∃ operator : SchedulingOperator, σ.schedulingOperators[operatorId]? = some operator ∧
            isTerminal operator.phase = false ∧ operator.regionId = regionId := by
  intro h
  have hreach : replicaSystem.Reachable anyStep
      (after (operatorCommands ++ [updateCommand [6] [65] .succeeded .succeeded false])) :=
    Guarded.reachable (by decide)
  have hactive := (h _ hreach 10 [66]).2
    ⟨{ operatorId := [66]
       type := .splitRegion
       regionId := 10
       sourceRevision := 1
       regionEpoch := some ⟨1, 1⟩
       splitCandidateGeneration := 1
       deadlineMs := 9
       createdAtMs := 1
       updatedAtMs := 1 }, by decide, by decide, rfl⟩
  exact absurd hactive (by decide)

/-! ## The point of no return -/

/-- An update asks for a cancelled phase only where the operator may still turn back, or is in that
phase already. -/
def KeepsForward (σ : MetadataState) (command : MetadataCommand) : Prop :=
  match command.operation with
  | .updateSchedulingOperator operatorId _ phase _ _ _ _ =>
    ∀ current ∈ σ.schedulingOperators[operatorId]?, current.irreversible = true →
      phase = .cancelling ∨ phase = .cancelled → phase = current.phase
  | _ => True

/-- The snapshot was taken by a replica that has applied all this one has, and perhaps more. -/
def TakenAfter (σ : MetadataState) (snapshot : MetadataSnapshot) : Prop :=
  ∃ τ, metadataSystem.Reaches KeepsForward σ τ ∧ snapshot = τ.snapshot

def ForwardOnly (σ : MetadataState) : MetadataEvent → Prop
  | .apply command => KeepsForward σ command
  | .restore snapshot => TakenAfter σ snapshot

/-- An operator that may not turn back is still there, and has not entered a cancelled phase. -/
def Forward (σ τ : MetadataState) : Prop :=
  ∀ (operatorId : Bytes) (operator : SchedulingOperator),
    σ.schedulingOperators[operatorId]? = some operator → operator.irreversible = true →
    ∃ later : SchedulingOperator, τ.schedulingOperators[operatorId]? = some later ∧
      later.irreversible = true ∧
      (later.phase = .cancelling ∨ later.phase = .cancelled → later.phase = operator.phase)

namespace Forward

lemma refl (σ : MetadataState) : Forward σ σ :=
  fun _ operator hget hirreversible => ⟨operator, hget, hirreversible, fun _ => rfl⟩

lemma trans (h₁ : Forward σ τ) (h₂ : Forward τ υ) : Forward σ υ := by
  intro operatorId operator hget hirreversible
  obtain ⟨later, hlater, hirreversible', hphase⟩ := h₁ operatorId operator hget hirreversible
  obtain ⟨last, hlast, hirreversible'', hphase'⟩ := h₂ operatorId later hlater hirreversible'
  refine ⟨last, hlast, hirreversible'', fun hcancelled => ?_⟩
  have hsame := hphase' hcancelled
  rw [hsame] at hcancelled
  exact hsame.trans (hphase hcancelled)

/-- A change of one operator, which only matters if that one may not turn back. -/
lemma put {id : Bytes} (hget : σ.schedulingOperators[id]? = some current)
    (hoperators : τ.schedulingOperators = σ.schedulingOperators.insert id changed)
    (hchanged : current.irreversible = true → changed.irreversible = true ∧
      (changed.phase = .cancelling ∨ changed.phase = .cancelled → changed.phase = current.phase)) :
    Forward σ τ := by
  intro operatorId operator hoperator hirreversible
  rw [hoperators, getElem?_insert]
  by_cases hid : id = operatorId
  · subst hid
    rw [hget] at hoperator
    cases hoperator
    obtain ⟨hkept, hphase⟩ := hchanged hirreversible
    exact ⟨changed, if_pos rfl, hkept, hphase⟩
  · rw [if_neg hid]
    exact ⟨operator, hoperator, hirreversible, fun _ => rfl⟩

lemma step (hstep : OperatorStep σ command τ) (hforward : KeepsForward σ command) :
    Forward σ τ := by
  cases hstep with
  | unchanged hoperators =>
    intro operatorId operator hget hirreversible
    exact ⟨operator, by rw [hoperators, hget], hirreversible, fun _ => rfl⟩
  | created _ _ absent _ _ hoperators =>
    intro operatorId operator hget hirreversible
    refine ⟨operator, ?_, hirreversible, fun _ => rfl⟩
    rw [hoperators, getElem?_insert, if_neg, hget]
    rintro rfl
    rw [absent] at hget
    cases hget
  | updated operation found _ hoperators =>
    rw [KeepsForward, operation] at hforward
    refine put found hoperators fun hirreversible => ⟨?_, hforward _ found hirreversible⟩
    simp [updatedOperator, hirreversible]
  | cancelled found _ reversible hoperators =>
    refine put found hoperators fun hirreversible => ?_
    rw [reversible] at hirreversible
    cases hirreversible

end Forward

/-- Every operator is found under its id. -/
def Named (operators : ExtTreeMap Bytes SchedulingOperator compare) : Prop :=
  ∀ (operatorId : Bytes) (operator : SchedulingOperator), operators[operatorId]? = some operator →
    operator.operatorId = operatorId

lemma Named.insert {operators : ExtTreeMap Bytes SchedulingOperator compare} (h : Named operators)
    {id : Bytes} {operator : SchedulingOperator} (hid : operator.operatorId = id) :
    Named (operators.insert id operator) := by
  intro operatorId other hget
  rcases insert_cases hget with ⟨heq, rfl⟩ | hget
  · exact hid.trans heq
  · exact h operatorId other hget

lemma Named.step (h : Named σ.schedulingOperators) (hstep : OperatorStep σ command τ) :
    Named τ.schedulingOperators := by
  cases hstep with
  | unchanged hoperators =>
    rw [hoperators]
    exact h
  | created _ _ _ _ _ hoperators =>
    rw [hoperators]
    exact h.insert rfl
  | updated _ found _ hoperators | cancelled found _ _ hoperators =>
    rw [hoperators]
    have hid := h _ _ found
    exact h.insert hid

lemma named_of_reachable (h : replicaSystem.Reachable ForwardOnly σ) :
    Named σ.schedulingOperators := by
  refine h.invariant (I := fun σ => Named σ.schedulingOperators) ?_ ?_
  · rintro _ rfl
    intro operatorId operator hget
    simp at hget
  · rintro σ event _ hσ hforward rfl
    cases event with
    | apply command => exact hσ.step (operatorStep_apply σ command)
    | restore snapshot =>
      show Named (σ.restore snapshot).2.schedulingOperators
      rcases restore_operators σ snapshot with ⟨hoperators, -⟩ | hadded
      · rw [hoperators]
        exact hσ
      · intro operatorId operator hget
        rcases (getElem?_addOperators hadded operatorId operator).1 hget with
          hempty | ⟨-, hid⟩
        · simp at hempty
        · exact hid

/-- Commands alone keep the operators going forward and under their ids. -/
lemma forward_of_commands (h : metadataSystem.Reaches KeepsForward σ τ)
    (hnamed : Named σ.schedulingOperators) : Forward σ τ ∧ Named τ.schedulingOperators := by
  refine h.stable (I := fun τ => Forward σ τ ∧ Named τ.schedulingOperators) ?_ ⟨.refl σ, hnamed⟩
  rintro τ command _ ⟨hforward, hnamed⟩ hkeeps rfl
  have hstep := operatorStep_apply τ command
  exact ⟨hforward.trans (.step hstep hkeeps), hnamed.step hstep⟩

/-- What is restored from a snapshot taken later is as far as that. -/
lemma Forward.restore (h : TakenAfter σ snapshot)
    (hnamed : Named σ.schedulingOperators) : Forward σ (σ.restore snapshot).2 := by
  obtain ⟨τ, hrun, rfl⟩ := h
  obtain ⟨hforward, hnamed⟩ := forward_of_commands hrun hnamed
  rcases restore_operators σ τ.snapshot with ⟨hoperators, -⟩ | hadded
  · intro operatorId operator hget hirreversible
    exact ⟨operator, by rw [hoperators, hget], hirreversible, fun _ => rfl⟩
  · intro operatorId operator hget hirreversible
    obtain ⟨later, hlater, hkept⟩ := hforward operatorId operator hget hirreversible
    refine ⟨later, ?_, hkept⟩
    refine (getElem?_addOperators hadded operatorId later).2 (.inr ⟨?_, ?_⟩)
    · exact List.mem_map.2 ⟨(operatorId, later),
        ExtTreeMap.mem_toList_iff_getElem?_eq_some.2 hlater, rfl⟩
    · exact hnamed operatorId later hlater

/-- Once an operator may not turn back, it stays so in every run whose updates do not ask for a
cancelled phase and whose restores do not go back in time, and it enters no cancelled phase. -/
theorem irreversible_goes_forward (h : replicaSystem.Reachable ForwardOnly σ)
    (hrun : replicaSystem.Reaches ForwardOnly σ τ) {operatorId : Bytes}
    {operator : SchedulingOperator} (hget : σ.schedulingOperators[operatorId]? = some operator)
    (hirreversible : operator.irreversible = true) :
    ∃ later : SchedulingOperator, τ.schedulingOperators[operatorId]? = some later ∧
      later.irreversible = true ∧
      (later.phase = .cancelling ∨ later.phase = .cancelled → later.phase = operator.phase) := by
  have hforward : replicaSystem.Reachable ForwardOnly τ ∧ Forward σ τ := by
    refine hrun.stable (I := fun τ => replicaSystem.Reachable ForwardOnly τ ∧ Forward σ τ) ?_
      ⟨h, .refl σ⟩
    rintro τ event _ ⟨hτ, hforward⟩ hguard rfl
    refine ⟨hτ.tail hguard rfl, hforward.trans ?_⟩
    cases event with
    | apply command => exact .step (operatorStep_apply τ command) hguard
    | restore snapshot => exact .restore hguard (named_of_reachable hτ)
  exact hforward.2 operatorId operator hget hirreversible

/-- An operator that was dispatched and marked as irreversible. -/
def irreversibleCommands : List MetadataCommand :=
  [bootstrapCommand, createCommand [2] [65], updateCommand [3] [65] .pending .dispatching true]

def irreversibleOperator : SchedulingOperator where
  operatorId := [65]
  type := .splitRegion
  regionId := 10
  sourceRevision := 1
  regionEpoch := some ⟨1, 1⟩
  splitCandidateGeneration := 1
  phase := .dispatching
  attempts := 1
  deadlineMs := 9
  irreversible := true
  createdAtMs := 1
  updatedAtMs := 2

/-- The cancellation is refused, and a restore brings the operator back as it was. -/
theorem irreversible_irreversibleCommands :
    (after irreversibleCommands).schedulingOperators[([65] : Bytes)]? = some irreversibleOperator ∧
      ∃ later : SchedulingOperator, (((after irreversibleCommands).handle
            (.apply ⟨[4], 0, .cancelSchedulingOperator [65] 3⟩)).handle
            (.restore ((after irreversibleCommands).handle
              (.apply ⟨[4], 0, .cancelSchedulingOperator [65] 3⟩)).snapshot)
            ).schedulingOperators[([65] : Bytes)]? = some later ∧ later.irreversible = true ∧
          (later.phase = .cancelling ∨ later.phase = .cancelled →
            later.phase = irreversibleOperator.phase) := by
  have hreach : replicaSystem.Reachable ForwardOnly (after irreversibleCommands) := by
    refine Guarded.reachable ⟨trivial, trivial, ?_, trivial⟩
    show ∀ current ∈ _, _
    decide
  have hget : (after irreversibleCommands).schedulingOperators[([65] : Bytes)]? =
      some irreversibleOperator := by decide
  refine ⟨hget, irreversible_goes_forward hreach (.tail (.single ?_ rfl) ?_ rfl) hget rfl⟩
  · exact trivial
  · exact ⟨_, .refl, rfl⟩

/-- An update takes an operator that may not turn back into the phase of a cancellation. -/
theorem irreversible_turns_back :
    ¬∀ σ τ : MetadataState, replicaSystem.Reachable TransitionSystem.anyStep σ →
      replicaSystem.Reaches TransitionSystem.anyStep σ τ →
      ∀ (operatorId : Bytes) (operator : SchedulingOperator),
        σ.schedulingOperators[operatorId]? = some operator → operator.irreversible = true →
        ∃ later : SchedulingOperator, τ.schedulingOperators[operatorId]? = some later ∧
          later.irreversible = true ∧
          (later.phase = .cancelling ∨ later.phase = .cancelled → later.phase = operator.phase) := by
  intro h
  have hreach : replicaSystem.Reachable anyStep (after irreversibleCommands) :=
    Guarded.reachable (by decide)
  have hrun : replicaSystem.Reaches anyStep (after irreversibleCommands)
      (after (irreversibleCommands ++ [updateCommand [4] [65] .dispatching .cancelling false])) :=
    .single (a := .apply (updateCommand [4] [65] .dispatching .cancelling false)) trivial rfl
  obtain ⟨later, hlater, -, hphase⟩ := h _ _ hreach hrun [65] irreversibleOperator (by decide) rfl
  have hcancelling : later.phase = .cancelling := by
    have hsome : (after (irreversibleCommands ++
        [updateCommand [4] [65] .dispatching .cancelling false])).schedulingOperators[
          ([65] : Bytes)]?.map SchedulingOperator.phase = some .cancelling := by decide
    rw [hlater] at hsome
    exact Option.some.inj hsome
  rw [hphase (.inl hcancelling)] at hcancelling
  cases hcancelling

end StrataKV.Metadata
