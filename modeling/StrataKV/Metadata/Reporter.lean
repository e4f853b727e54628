import StrataKV.Metadata.Deduplication
import StrataKV.Metadata.Heartbeats
import StrataKV.Mvcc.Codec

/-!
# Heartbeats of a Store that restarts

The reporter of a Store counts its heartbeats in memory, from one in each process, and names the
mutation after the Store and the count. The machine takes a heartbeat only if its number is above the
recorded one and its mutation is not remembered. So what a new process sends is lost until its count
has passed that of the process before.

A `StoreNode` is the machine together with the counter of one Store's reporter and the heartbeats
that were sent: each of them arrives at any later time, any number of times or never, also after the
process that has sent it has stopped.
-/

namespace StrataKV.Metadata

open MetadataState TransitionSystem
open Decimal
open Std (ExtTreeMap)

/-! ## The reporter -/

structure StoreHeartbeatReporterConfig where
  storeId : UInt64
  timeout : UInt64
  capacityBytes : UInt64
  availableBytes : UInt64

/-- What one heartbeat reports: the clock, the request counter and the observations. -/
structure HeartbeatSample where
  now : UInt64
  requestCount : UInt64 := 0
  regions : List RegionSchedulingObservation := []

namespace StoreHeartbeatReporterConfig

variable (config : StoreHeartbeatReporterConfig)

/-- `CollectHeartbeat`, where `sequence` is the number that the counter gives. -/
def collectHeartbeat (sequence : UInt64) (sample : HeartbeatSample) : StoreHeartbeat where
  storeId := config.storeId
  sequence := sequence
  observedAtMs := sample.now
  expiresAtMs := sample.now + config.timeout
  capacityBytes := config.capacityBytes
  availableBytes := config.availableBytes
  requestCount := sample.requestCount
  regions := sample.regions

end StoreHeartbeatReporterConfig

/-- What the mutation ids of a Store's heartbeats start with. -/
def heartbeatIds (storeId : UInt64) : Bytes :=
  ascii "heartbeat:" ++ toDecimal storeId.toNat ++ ascii ":"

/-- The mutation id of a heartbeat. -/
def heartbeatMutationId (storeId sequence : UInt64) : Bytes :=
  heartbeatIds storeId ++ toDecimal sequence.toNat

/-- The command that `SendHeartbeat` makes of a heartbeat. -/
def StoreHeartbeat.command (heartbeat : StoreHeartbeat) : MetadataCommand where
  mutationId := heartbeatMutationId heartbeat.storeId heartbeat.sequence
  expectedRevision := 0
  operation := .reportStoreHeartbeat heartbeat

/-- The machine, the counter of the reporter's process, the last reading of its clock, the
heartbeats that were sent, and the greatest number among those that have arrived. -/
structure StoreNode where
  metadata : MetadataState := {}
  sequence : UInt64 := 0
  clock : UInt64 := 0
  sent : List StoreHeartbeat := []
  arrived : UInt64 := 0

inductive ReporterEvent
  /-- `TriggerOnce`: a new sample is collected and sent -/
  | report (sample : HeartbeatSample)
  /-- the command of a heartbeat that was sent is applied, for the first time or again -/
  | arrive (heartbeat : StoreHeartbeat)
  /-- the process stops and is started again -/
  | restart
  /-- another command of the machine -/
  | other (command : MetadataCommand)

namespace StoreNode

variable (config : StoreHeartbeatReporterConfig)

/-- The clock does not go back, and the heartbeats of the Store and their ids are its reporter's. -/
def Enabled (node : StoreNode) : ReporterEvent → Prop
  | .report sample => node.clock ≤ sample.now
  | .arrive heartbeat => heartbeat ∈ node.sent
  | .restart => True
  | .other command => ¬(heartbeatIds config.storeId).isPrefixOf command.mutationId ∧
    match command.operation with
    | .reportStoreHeartbeat heartbeat => heartbeat.storeId ≠ config.storeId
    | _ => True

def next (node : StoreNode) : ReporterEvent → StoreNode
  | .report sample =>
    { node with
      sequence := node.sequence + 1
      clock := sample.now
      sent := node.sent ++ [config.collectHeartbeat (node.sequence + 1) sample] }
  | .arrive heartbeat =>
    { node with
      metadata := (node.metadata.apply heartbeat.command).2
      arrived :=
        if node.arrived < heartbeat.sequence then heartbeat.sequence else node.arrived }
  | .restart => { node with sequence := 0 }
  | .other command => { node with metadata := (node.metadata.apply command).2 }

end StoreNode

def reporterSystem (config : StoreHeartbeatReporterConfig) :
    TransitionSystem StoreNode ReporterEvent :=
  .ofEnabled {} (StoreNode.Enabled config) (StoreNode.next config)

/-! ## Heartbeats that are taken -/

/-- The machine knows the Store, and the heartbeat and its observations pass the checks. -/
@[mk_iff]
structure Reportable (σ : MetadataState) (heartbeat : StoreHeartbeat) : Prop where
  bootstrapped : σ.revision ≠ 0
  registered : σ.stores.contains heartbeat.storeId = true
  valid : heartbeat.invalid = false
  observations : (mergeObservations
    ((σ.storeHeartbeats[heartbeat.storeId]?.map StoreHeartbeat.regions).getD []) []
    heartbeat.regions).isSome = true

/-- The heartbeat is applied, neither answered from the table nor dropped as stale, and becomes the
recorded one of its Store. -/
structure Takes (σ : MetadataState) (heartbeat : StoreHeartbeat) : Prop where
  fresh : σ.dedup[heartbeat.command.mutationId]? = none
  newer : ∀ previous, σ.storeHeartbeats[heartbeat.storeId]? = some previous →
    previous.sequence < heartbeat.sequence
  recorded : ∃ regions, (σ.apply heartbeat.command).2.storeHeartbeats[heartbeat.storeId]? =
    some { heartbeat with regions := regions }

variable {σ : MetadataState} {config : StoreHeartbeatReporterConfig} {node : StoreNode}

lemma takes_of_newer {heartbeat : StoreHeartbeat} (h : Reportable σ heartbeat)
    (hfresh : σ.dedup[heartbeat.command.mutationId]? = none)
    (hnewer : ∀ previous, σ.storeHeartbeats[heartbeat.storeId]? = some previous →
      previous.sequence < heartbeat.sequence) : Takes σ heartbeat := by
  refine ⟨hfresh, hnewer, ?_⟩
  obtain ⟨regions, hregions⟩ := Option.isSome_iff_exists.1 h.observations
  have hstale : (σ.storeHeartbeats[heartbeat.storeId]?.filter fun previous =>
      heartbeat.sequence ≤ previous.sequence) = none := by
    rw [Option.filter_eq_none_iff]
    intro previous hprevious
    simpa using hnewer previous hprevious
  have hlocked : (σ.applyLocked heartbeat.command).2.storeHeartbeats =
      σ.storeHeartbeats.insert heartbeat.storeId { heartbeat with regions := regions } := by
    show (σ.reportStoreHeartbeatLocked 0 heartbeat).2.storeHeartbeats = _
    rw [reportStoreHeartbeatLocked, if_neg h.bootstrapped, if_neg (by simp),
      if_neg (by simp [h.valid]), if_neg (by simp [h.registered])]
    dsimp only
    rw [hstale, hregions]
    exact publish_storeHeartbeats _ _
  have hnamed : heartbeat.command.mutationId ≠ [] := by
    simp [StoreHeartbeat.command, heartbeatMutationId, toDecimal_ne_nil]
  refine ⟨regions, ?_⟩
  rw [apply, if_neg hnamed, hfresh]
  obtain ⟨dedup, dedupOrder, heq⟩ := (σ.applyLocked heartbeat.command).2.recordResultLocked_eq
    heartbeat.command.mutationId (σ.applyLocked heartbeat.command).1
  dsimp only
  rw [heq]
  rw [hlocked, OrdMap.getElem?_insert, if_pos rfl]

/-! ## Numbers that are ahead -/

/-- Every heartbeat that arrives passes the checks of the machine. -/
def Sound (node : StoreNode) : ReporterEvent → Prop
  | .arrive heartbeat => Reportable node.metadata heartbeat
  | _ => True

/-- The mutation id tells the sequence number. -/
lemma heartbeatMutationId_inj {storeId sequence sequence' : UInt64}
    (h : heartbeatMutationId storeId sequence = heartbeatMutationId storeId sequence') :
    sequence = sequence' := by
  have hdigits := List.append_cancel_left h
  rw [← strtoull_toDecimal sequence, hdigits, strtoull_toDecimal]

/-- A command adds its own id to the remembered ones. -/
lemma remembered_of_apply {command : MetadataCommand} {mutationId : Bytes}
    (h : (σ.apply command).2.dedup[mutationId]? ≠ none) :
    mutationId = command.mutationId ∨ σ.dedup[mutationId]? ≠ none := by
  obtain ⟨record, hrecord⟩ := Option.ne_none_iff_exists'.1 h
  rcases dedup_apply_cases hrecord with hold | ⟨hid, -⟩
  · exact .inr (Option.ne_none_iff_exists'.2 ⟨record, hold⟩)
  · exact .inl hid.symm

/-- The recorded heartbeat of the Store has the greatest number that has arrived, and no number
above it is remembered. -/
structure Counted (config : StoreHeartbeatReporterConfig) (node : StoreNode) : Prop where
  own : ∀ heartbeat ∈ node.sent, heartbeat.storeId = config.storeId
  remembered : ∀ sequence,
    node.metadata.dedup[heartbeatMutationId config.storeId sequence]? ≠ none →
      sequence ≤ node.arrived
  recorded : (node.metadata.storeHeartbeats[config.storeId]?.map StoreHeartbeat.sequence).getD 0 =
    node.arrived

lemma Reportable.pos {heartbeat : StoreHeartbeat} (h : Reportable σ heartbeat) :
    0 < heartbeat.sequence := by
  have hvalid := h.valid
  simp only [StoreHeartbeat.invalid, Bool.or_eq_false_iff, decide_eq_false_iff_not] at hvalid
  obtain ⟨⟨⟨⟨⟨-, hne⟩, -⟩, -⟩, -⟩, -⟩ := hvalid
  exact UInt64.pos_iff_ne_zero.2 hne

namespace Counted

variable {heartbeat : StoreHeartbeat} (h : Counted config node)

include h

/-- The recorded number, if there is one. -/
lemma newer_iff (hstore : heartbeat.storeId = config.storeId)
    (hreportable : Reportable node.metadata heartbeat) :
    (∀ previous, node.metadata.storeHeartbeats[heartbeat.storeId]? = some previous →
      previous.sequence < heartbeat.sequence) ↔ node.arrived < heartbeat.sequence := by
  have hrecorded := h.recorded
  rw [hstore]
  cases hget : node.metadata.storeHeartbeats[config.storeId]? with
  | none =>
    rw [hget] at hrecorded
    simpa [← hrecorded] using hreportable.pos
  | some previous =>
    rw [hget] at hrecorded
    simp [← hrecorded]

/-- A heartbeat is taken exactly if its number is above those that have arrived. -/
lemma takes_iff (hstore : heartbeat.storeId = config.storeId)
    (hreportable : Reportable node.metadata heartbeat) :
    Takes node.metadata heartbeat ↔ node.arrived < heartbeat.sequence := by
  constructor
  · intro htakes
    exact (h.newer_iff hstore hreportable).1 htakes.newer
  · intro hahead
    refine takes_of_newer hreportable ?_ ((h.newer_iff hstore hreportable).2 hahead)
    by_contra hremembered
    rw [StoreHeartbeat.command, hstore] at hremembered
    exact UInt64.not_lt.2 (h.remembered _ hremembered) hahead

lemma arrive (hstore : heartbeat.storeId = config.storeId)
    (hreportable : Reportable node.metadata heartbeat) :
    Counted config (node.next config (.arrive heartbeat)) := by
  simp only [StoreNode.next]
  by_cases hahead : node.arrived < heartbeat.sequence
  · obtain ⟨regions, hrecorded⟩ := ((h.takes_iff hstore hreportable).2 hahead).recorded
    rw [if_pos hahead]
    refine ⟨h.own, fun sequence hremembered => ?_, by rw [← hstore, hrecorded]; rfl⟩
    rcases remembered_of_apply hremembered with hid | hold
    · rw [StoreHeartbeat.command, hstore] at hid
      exact UInt64.le_of_eq (heartbeatMutationId_inj hid)
    · exact UInt64.le_trans (h.remembered sequence hold) (UInt64.le_of_lt hahead)
  · rw [if_neg hahead]
    refine ⟨h.own, fun sequence hremembered => ?_, Eq.trans ?_ h.recorded⟩
    · rcases remembered_of_apply hremembered with hid | hold
      · rw [StoreHeartbeat.command, hstore] at hid
        rw [heartbeatMutationId_inj hid]
        exact UInt64.not_lt.1 hahead
      · exact h.remembered sequence hold
    · -- what is recorded stays, because the number is not above it
      cases heartbeatStep_apply node.metadata heartbeat.command with
      | unchanged heartbeats => rw [heartbeats]
      | recorded operation newer =>
        cases operation
        exact absurd ((h.newer_iff hstore hreportable).1 newer) hahead

lemma other {command : MetadataCommand} (henabled : node.Enabled config (.other command)) :
    Counted config (node.next config (.other command)) := by
  obtain ⟨hid, hstore⟩ := henabled
  refine ⟨h.own, fun sequence hremembered => ?_, ?_⟩
  · rcases remembered_of_apply hremembered with hown | hold
    · refine absurd ?_ hid
      rw [← hown, List.isPrefixOf_iff_prefix]
      exact List.prefix_append _ _
    · exact h.remembered sequence hold
  · refine Eq.trans ?_ h.recorded
    show ((node.metadata.apply command).2.storeHeartbeats[config.storeId]?.map _).getD 0 = _
    cases heartbeatStep_apply node.metadata command with
    | unchanged heartbeats => rw [heartbeats]
    | recorded operation _ _ heartbeats =>
      rw [operation] at hstore
      rw [heartbeats, OrdMap.getElem?_insert, if_neg hstore]

/-- Every event keeps the count of what has arrived. -/
lemma next {event : ReporterEvent} (henabled : node.Enabled config event)
    (hsound : Sound node event) : Counted config (node.next config event) := by
  cases event with
  | restart => exact ⟨h.own, h.remembered, h.recorded⟩
  | arrive heartbeat => exact h.arrive (h.own heartbeat henabled) hsound
  | other command => exact h.other henabled
  | report sample =>
    refine ⟨fun heartbeat hmem => ?_, h.remembered, h.recorded⟩
    rcases List.mem_append.1 hmem with hold | hnew
    · exact h.own heartbeat hold
    · rw [List.mem_singleton.1 hnew]
      rfl

end Counted

/-- In every run in which the heartbeats that arrive pass the checks, a heartbeat that arrives is
applied and becomes the recorded one exactly if its number is above that of every heartbeat of the
Store that has arrived before, whichever process has sent it. -/
theorem heartbeat_taken_iff (h : (reporterSystem config).Reachable Sound node)
    {heartbeat : StoreHeartbeat} (hsent : heartbeat ∈ node.sent)
    (hreportable : Reportable node.metadata heartbeat) :
    Takes node.metadata heartbeat ↔ node.arrived < heartbeat.sequence := by
  have hinv : Counted config node := by
    refine h.invariant (I := Counted config) ?_ ?_
    · rintro _ rfl
      exact ⟨by simp, by simp, by simp⟩
    · rintro node event _ hnode hsound ⟨henabled, rfl⟩
      exact hnode.next henabled hsound
  exact hinv.takes_iff (hinv.own heartbeat hsent) hreportable

/-! ## Samples -/

def sampleReporter : StoreHeartbeatReporterConfig := ⟨1, 5000, 100, 50⟩

instance (config : StoreHeartbeatReporterConfig) (node : StoreNode) :
    DecidablePred (node.Enabled config)
  | .report _ => inferInstanceAs (Decidable (_ ≤ _))
  | .arrive _ => inferInstanceAs (Decidable (_ ∈ _))
  | .restart => isTrue trivial
  | .other ⟨_, _, operation⟩ =>
    have : Decidable (match operation with
        | .reportStoreHeartbeat heartbeat => heartbeat.storeId ≠ config.storeId
        | _ => True) := by
      split <;> infer_instance
    inferInstanceAs (Decidable (_ ∧ _))

instance (σ : MetadataState) (heartbeat : StoreHeartbeat) : Decidable (Reportable σ heartbeat) :=
  decidable_of_iff _ (reportable_iff σ heartbeat).symm

instance (node : StoreNode) : DecidablePred (Sound node)
  | .arrive _ => inferInstanceAs (Decidable (Reportable _ _))
  | .report _ | .restart | .other _ => isTrue trivial

/-- The first process has sent one heartbeat, which has arrived, and a second process runs. -/
def restartedEvents : List ReporterEvent :=
  [.other bootstrapCommand, .report { now := 10 },
    .arrive (sampleReporter.collectHeartbeat 1 { now := 10 }), .restart]

/-- The second process has sent two heartbeats. -/
def reportedNode : StoreNode :=
  (restartedEvents ++ [ReporterEvent.report { now := 20 }, .report { now := 30 }]).foldl
    (StoreNode.next sampleReporter) {}

/-- The second heartbeat of the second process is taken, if it is the next one to arrive. -/
theorem heartbeat_taken_reportedNode :
    Takes reportedNode.metadata (sampleReporter.collectHeartbeat 2 { now := 30 }) := by
  have hreach : (reporterSystem sampleReporter).Reachable Sound reportedNode :=
    Guarded.reachable_enabled (by decide)
  exact (heartbeat_taken_iff hreach (by decide) (by decide)).2 (by decide)

/-- The first heartbeat of the second process arrives at once and is answered from the table. -/
theorem heartbeats_lost_after_restart :
    ¬∀ (config : StoreHeartbeatReporterConfig) (node : StoreNode) (sample : HeartbeatSample),
      (reporterSystem config).Reachable TransitionSystem.anyStep node →
      node.Enabled config (.report sample) →
      Reportable node.metadata (config.collectHeartbeat (node.sequence + 1) sample) →
      Takes node.metadata (config.collectHeartbeat (node.sequence + 1) sample) := by
  intro h
  have hreach : (reporterSystem sampleReporter).Reachable anyStep
      (restartedEvents.foldl (StoreNode.next sampleReporter) {}) :=
    Guarded.reachable_enabled (by decide)
  have htakes := h sampleReporter _ { now := 20 } hreach (by decide) (by decide)
  exact absurd (htakes.newer _ rfl) (by decide)

end StrataKV.Metadata
