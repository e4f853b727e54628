import StrataKV.Metadata.Topology

/-!
# The recorded heartbeats of the Stores

The machine keeps one heartbeat for each Store and replaces it as a whole. A newer heartbeat is
merged with the recorded one: where it reports a Region with an older epoch, the recorded observation
stays. So the recorded heartbeat is all that an observation is compared with, and what a Store has
reported about a Region is forgotten as soon as one heartbeat leaves the Region out. Epochs are
compared by version first, so that a newer version may bring an older configuration.

`HeartbeatStep` says what a command can do to the recorded heartbeats.
-/

namespace StrataKV.Metadata

open MetadataState TransitionSystem List
open Std (ExtTreeMap)

variable {σ τ : MetadataState} {command : MetadataCommand}

/-! ## What a command does to the heartbeats -/

inductive HeartbeatStep (σ : MetadataState) (command : MetadataCommand) (τ : MetadataState) : Prop
  | unchanged (heartbeats : τ.storeHeartbeats = σ.storeHeartbeats)
  | recorded {heartbeat : StoreHeartbeat} {regions : List RegionSchedulingObservation}
      (operation : command.operation = .reportStoreHeartbeat heartbeat)
      (newer : ∀ previous, σ.storeHeartbeats[heartbeat.storeId]? = some previous →
        previous.sequence < heartbeat.sequence)
      (merged : mergeObservations
        ((σ.storeHeartbeats[heartbeat.storeId]?.map StoreHeartbeat.regions).getD []) []
        heartbeat.regions = some regions)
      (heartbeats : τ.storeHeartbeats =
        σ.storeHeartbeats.insert heartbeat.storeId { heartbeat with regions := regions })

lemma MetadataState.publish_storeHeartbeats (τ : MetadataState)
    (answer : MetadataState → MetadataCommandResult) :
    (τ.publish answer).2.storeHeartbeats = τ.storeHeartbeats := by
  obtain ⟨view, heq⟩ := publish_snd τ answer
  rw [heq]

lemma heartbeatStep_reportStoreHeartbeatLocked {expectedRevision : UInt64}
    {heartbeat : StoreHeartbeat} (hop : command.operation = .reportStoreHeartbeat heartbeat) :
    HeartbeatStep σ command (σ.reportStoreHeartbeatLocked expectedRevision heartbeat).2 := by
  unfold reportStoreHeartbeatLocked
  split
  · exact .unchanged rfl
  split
  · exact .unchanged rfl
  split
  · exact .unchanged rfl
  split
  · exact .unchanged rfl
  dsimp only
  split
  · exact .unchanged rfl
  rename_i hnewer
  split
  · exact .unchanged rfl
  · rename_i regions hmerged
    refine .recorded hop ?_ hmerged (publish_storeHeartbeats _ _)
    intro previous hprevious
    simpa [hprevious] using hnewer

/-- Only a heartbeat touches the heartbeats. -/
lemma MetadataState.Outcome.storeHeartbeats_eq {answer : MetadataCommandResult × MetadataState}
    (h : Outcome σ command answer)
    (hother : ∀ heartbeat, command.operation ≠ .reportStoreHeartbeat heartbeat) :
    answer.2.storeHeartbeats = σ.storeHeartbeats := by
  cases h with
  | refused | kept | exhausted => rfl
  | @installed τ answer h =>
    rw [publish_storeHeartbeats]
    cases h with
    | reportStoreHeartbeat operation => exact absurd operation (hother _)
    | @allocateIds kind => cases kind <;> rfl
    | _ => rfl

lemma heartbeatStep_applyLocked (σ : MetadataState) (command : MetadataCommand) :
    HeartbeatStep σ command (σ.applyLocked command).2 := by
  by_cases hop : ∃ heartbeat, command.operation = .reportStoreHeartbeat heartbeat
  · obtain ⟨heartbeat, hop⟩ := hop
    rw [applyLocked, hop]
    exact heartbeatStep_reportStoreHeartbeatLocked hop
  · exact .unchanged ((applyLocked_outcome σ command).storeHeartbeats_eq (not_exists.1 hop))

lemma heartbeatStep_apply (σ : MetadataState) (command : MetadataCommand) :
    HeartbeatStep σ command (σ.apply command).2 := by
  have hlocked := heartbeatStep_applyLocked σ command
  unfold apply
  split
  · exact .unchanged rfl
  split
  · exact .unchanged rfl
  · -- recording the answer leaves the heartbeats
    generalize σ.applyLocked command = answer at hlocked
    obtain ⟨dedup, dedupOrder, heq⟩ := answer.2.recordResultLocked_eq command.mutationId answer.1
    dsimp only
    rw [heq]
    cases hlocked with
    | unchanged heartbeats => exact .unchanged heartbeats
    | recorded operation newer merged heartbeats =>
      exact .recorded operation newer merged heartbeats

/-! ## The merge -/

section

variable {previous observations merged : List RegionSchedulingObservation} {seen : List UInt64}

/-- The observation that the merge keeps of a Region. -/
def keptObservation (previous : List RegionSchedulingObservation)
    (observation : RegionSchedulingObservation) : RegionSchedulingObservation :=
  match previous.find? fun old => old.regionId = observation.regionId with
  | none => observation
  | some old => if epochOlder observation.epoch old.epoch then old else observation

lemma keptObservation_regionId (observation : RegionSchedulingObservation) :
    (keptObservation previous observation).regionId = observation.regionId := by
  unfold keptObservation
  split
  · rfl
  · rename_i old hfind
    split
    · simpa using find?_some hfind
    · rfl

/-- The merge keeps one observation of each reported Region. -/
lemma mergeObservations_eq (h : mergeObservations previous seen observations = some merged) :
    merged = observations.map (keptObservation previous) ∧
      (observations.map RegionSchedulingObservation.regionId).Nodup ∧
      ∀ observation ∈ observations, observation.regionId ∉ seen := by
  induction observations generalizing seen merged with
  | nil =>
    cases h
    simp
  | cons observation rest ih =>
    unfold mergeObservations at h
    split_ifs at h with hvalid
    obtain ⟨more, hmore, rfl⟩ := Option.map_eq_some_iff.1 h
    obtain ⟨rfl, hnodup, hfresh⟩ := ih hmore
    simp only [not_or] at hvalid
    refine ⟨rfl, ?_, ?_⟩
    · rw [map_cons, nodup_cons]
      refine ⟨?_, hnodup⟩
      intro hmem
      obtain ⟨other, hother, heq⟩ := mem_map.1 hmem
      exact hfresh other hother (by simp [heq])
    · intro other hother
      rcases mem_cons.1 hother with rfl | hother
      · exact hvalid.2.2.2.2
      · exact fun hmem => hfresh other hother (mem_cons_of_mem _ hmem)

end

/-! ## Heartbeats that do not go back -/

/-- Nothing that was observed of the Region is newer than the later observation of it. -/
def RegionSchedulingObservation.NotAfter (earlier later : RegionSchedulingObservation) : Prop :=
  earlier.epoch.version ≤ later.epoch.version ∧ earlier.epoch.confVersion ≤ later.epoch.confVersion

/-- A heartbeat that is recorded at the same time or after another one of the Store: it is the same
one or has a higher sequence number, and no Region of both has gone back. -/
structure StoreHeartbeat.Follows (later earlier : StoreHeartbeat) : Prop where
  sequence : later = earlier ∨ earlier.sequence < later.sequence
  epochs : ∀ observed ∈ earlier.regions, ∀ observation ∈ later.regions,
    observation.regionId = observed.regionId → observed.NotAfter observation

/-- A heartbeat reports every Region that the recorded one has, and with a newer version of a Region
not an older configuration. -/
def ReportsOn (σ : MetadataState) (command : MetadataCommand) : Prop :=
  match command.operation with
  | .reportStoreHeartbeat heartbeat =>
    ∀ previous ∈ σ.storeHeartbeats[heartbeat.storeId]?, ∀ old ∈ previous.regions,
      (∃ observation ∈ heartbeat.regions, observation.regionId = old.regionId) ∧
      ∀ observation ∈ heartbeat.regions, observation.regionId = old.regionId →
        old.epoch.version < observation.epoch.version →
          old.epoch.confVersion ≤ observation.epoch.confVersion
  | _ => True

/-- The Regions of a recorded heartbeat are distinct. -/
def DistinctRegions (σ : MetadataState) : Prop :=
  ∀ (storeId : UInt64) (heartbeat : StoreHeartbeat), σ.storeHeartbeats[storeId]? = some heartbeat →
    (heartbeat.regions.map RegionSchedulingObservation.regionId).Nodup

lemma HeartbeatStep.distinctRegions (h : HeartbeatStep σ command τ) (hσ : DistinctRegions σ) :
    DistinctRegions τ := by
  intro storeId heartbeat hget
  cases h with
  | unchanged heartbeats =>
    rw [heartbeats] at hget
    exact hσ storeId heartbeat hget
  | recorded _ _ merged heartbeats =>
    rcases OrdMap.insert_cases (heartbeats ▸ hget) with ⟨-, rfl⟩ | hget
    · obtain ⟨rfl, hnodup, -⟩ := mergeObservations_eq merged
      rw [map_map]
      convert hnodup using 2
      funext observation
      exact keptObservation_regionId observation
    · exact hσ storeId heartbeat hget

lemma distinctRegions_of_reachable {G : MetadataState → MetadataCommand → Prop}
    (h : metadataSystem.Reachable G σ) : DistinctRegions σ := by
  refine h.invariant (I := DistinctRegions) ?_ ?_
  · rintro _ rfl storeId heartbeat hget
    simp at hget
  · rintro σ command _ hσ - rfl
    exact (heartbeatStep_apply σ command).distinctRegions hσ

/-- The record that is kept of a Region is not older than the one before. -/
lemma notAfter_keptObservation {previous : List RegionSchedulingObservation}
    {old observation : RegionSchedulingObservation}
    (hnodup : (previous.map RegionSchedulingObservation.regionId).Nodup) (hold : old ∈ previous)
    (hregion : observation.regionId = old.regionId)
    (hconf : old.epoch.version < observation.epoch.version →
      old.epoch.confVersion ≤ observation.epoch.confVersion) :
    old.NotAfter (keptObservation previous observation) := by
  have hfind : previous.find? (fun o => o.regionId = observation.regionId) = some old := by
    obtain ⟨found, hfound⟩ : ∃ found,
        previous.find? (fun o => o.regionId = observation.regionId) = some found := by
      rw [← Option.isSome_iff_exists, find?_isSome]
      exact ⟨old, hold, by simp [hregion]⟩
    have hsame : found = old := by
      refine inj_on_of_nodup_map hnodup (mem_of_find?_eq_some hfound) hold ?_
      have := find?_some hfound
      rw [decide_eq_true_eq] at this
      rw [this, hregion]
    rw [hfound, hsame]
  unfold keptObservation
  rw [hfind]
  dsimp only
  split_ifs with hnewer
  · exact ⟨UInt64.le_refl _, UInt64.le_refl _⟩
  · simp only [epochOlder, Bool.or_eq_true, Bool.and_eq_true, decide_eq_true_eq, not_or,
      not_and, UInt64.not_lt] at hnewer
    refine ⟨hnewer.1, ?_⟩
    rcases UInt64.lt_or_eq_of_le hnewer.1 with hlt | heq
    · exact hconf hlt
    · exact hnewer.2 heq.symm

/-- What a run keeps of one recorded heartbeat: its Regions are still on record, with no older
epochs. -/
def StillRecorded (storeId : UInt64) (earlier : StoreHeartbeat) (τ : MetadataState) : Prop :=
  ∃ later, τ.storeHeartbeats[storeId]? = some later ∧
    (later = earlier ∨ earlier.sequence < later.sequence) ∧
    ∀ observed ∈ earlier.regions, ∃ observation ∈ later.regions,
      observation.regionId = observed.regionId ∧ observed.NotAfter observation

lemma HeartbeatStep.stillRecorded {storeId : UInt64} {earlier : StoreHeartbeat}
    (h : HeartbeatStep σ command τ) (hdistinct : DistinctRegions σ) (hreports : ReportsOn σ command)
    (hσ : StillRecorded storeId earlier σ) : StillRecorded storeId earlier τ := by
  obtain ⟨later, hlater, hsequence, hregions⟩ := hσ
  cases h with
  | unchanged heartbeats => exact ⟨later, by rw [heartbeats, hlater], hsequence, hregions⟩
  | @recorded heartbeat regions operation newer merged heartbeats =>
    by_cases hstore : heartbeat.storeId = storeId
    · subst hstore
      obtain ⟨rfl, -, -⟩ := mergeObservations_eq merged
      refine ⟨_, by rw [heartbeats, OrdMap.getElem?_insert, if_pos rfl], .inr ?_, ?_⟩
      · have hnewer := newer later hlater
        rcases hsequence with rfl | hlt
        · exact hnewer
        · exact UInt64.lt_trans hlt hnewer
      · -- the Region is reported again, and what is kept of it is not older
        intro observed hobserved
        obtain ⟨old, hold, hregion, hold'⟩ := hregions observed hobserved
        rw [ReportsOn, operation] at hreports
        obtain ⟨⟨observation, hmem, hsame⟩, hconf⟩ := hreports later hlater old hold
        rw [hlater, Option.map_some, Option.getD_some]
        refine ⟨_, mem_map_of_mem hmem, ?_, ?_⟩
        · rw [keptObservation_regionId, hsame, hregion]
        · have hkept := notAfter_keptObservation (hdistinct _ _ hlater) hold hsame
            (hconf observation hmem hsame)
          exact ⟨UInt64.le_trans hold'.1 hkept.1, UInt64.le_trans hold'.2 hkept.2⟩
    · refine ⟨later, ?_, hsequence, hregions⟩
      rw [heartbeats, OrdMap.getElem?_insert, if_neg hstore, hlater]

/-- In every run in which the heartbeats report on every Region of the recorded one, what is recorded
for a Store later has a higher sequence number, unless nothing new was recorded, and no older epoch
of any Region. -/
theorem heartbeats_never_backwards (hσ : metadataSystem.Reachable TransitionSystem.anyStep σ)
    (hτ : metadataSystem.Reaches ReportsOn σ τ) (storeId : UInt64) {earlier later : StoreHeartbeat}
    (hearlier : σ.storeHeartbeats[storeId]? = some earlier)
    (hlater : τ.storeHeartbeats[storeId]? = some later) : later.Follows earlier := by
  have hdistinct := distinctRegions_of_reachable hσ
  have hinv : DistinctRegions τ ∧ StillRecorded storeId earlier τ := by
    refine hτ.stable (I := fun τ => DistinctRegions τ ∧ StillRecorded storeId earlier τ) ?_ ?_
    · rintro σ command _ ⟨hdistinct, hrecorded⟩ hreports rfl
      have hstep := heartbeatStep_apply σ command
      exact ⟨hstep.distinctRegions hdistinct, hstep.stillRecorded hdistinct hreports hrecorded⟩
    · refine ⟨hdistinct, earlier, hearlier, .inl rfl, ?_⟩
      intro observed hobserved
      exact ⟨observed, hobserved, rfl, UInt64.le_refl _, UInt64.le_refl _⟩
  obtain ⟨hunique, recorded, hrecorded, hsequence, hregions⟩ := hinv
  obtain rfl : recorded = later := Option.some.inj (hrecorded.symm.trans hlater)
  refine ⟨hsequence, ?_⟩
  intro observed hobserved observation hobservation hregion
  obtain ⟨other, hother, hsame, hnotAfter⟩ := hregions observed hobserved
  obtain rfl := inj_on_of_nodup_map (hunique _ _ hlater) hother hobservation
    (hsame.trans hregion.symm)
  exact hnotAfter

/-! ## Samples -/

/-- A heartbeat of the Store of `bootstrapCommand` with the observations. -/
def heartbeatCommand (sequence : UInt64) (regions : List RegionSchedulingObservation) :
    MetadataCommand :=
  ⟨[10, sequence.toUInt8], 0, .reportStoreHeartbeat
    { storeId := 1
      sequence := sequence
      observedAtMs := 1
      expiresAtMs := 2
      capacityBytes := 1
      regions := regions }⟩

/-- An observation of the Region at a version. -/
def observationAt (version : UInt64) : RegionSchedulingObservation :=
  { regionId := 10, peerId := 101, epoch := ⟨version, 1⟩ }

instance (σ : MetadataState) (command : MetadataCommand) : Decidable (ReportsOn σ command) := by
  unfold ReportsOn
  split
  · exact Option.decidableForallMem _
  · infer_instance

/-- After the first heartbeat. -/
def observedOnce : MetadataState := run {} [bootstrapCommand, heartbeatCommand 1 [observationAt 5]]

theorem heartbeats_never_backwards_observedOnce :
    ∃ earlier later : StoreHeartbeat, observedOnce.storeHeartbeats[(1 : UInt64)]? = some earlier ∧
      (run observedOnce [heartbeatCommand 2 [observationAt 4]]).storeHeartbeats[(1 : UInt64)]? =
        some later ∧ later.Follows earlier := by
  have hreach : metadataSystem.Reachable anyStep observedOnce := Guarded.reachable (by decide)
  have hreaches : metadataSystem.Reaches ReportsOn observedOnce
      (run observedOnce [heartbeatCommand 2 [observationAt 4]]) :=
    Guarded.reaches (by decide)
  refine ⟨_, _, ?_, ?_, heartbeats_never_backwards hreach hreaches 1 rfl rfl⟩ <;> rfl

/-- A heartbeat without the Region, and the next one goes back from version 5 to version 2. -/
theorem heartbeats_go_backwards :
    ¬∀ σ τ : MetadataState, metadataSystem.Reachable TransitionSystem.anyStep σ →
      metadataSystem.Reaches TransitionSystem.anyStep σ τ →
      ∀ (storeId : UInt64) (earlier later : StoreHeartbeat),
        σ.storeHeartbeats[storeId]? = some earlier → τ.storeHeartbeats[storeId]? = some later →
        later.Follows earlier := by
  intro h
  have hreach : metadataSystem.Reachable anyStep observedOnce := Guarded.reachable (by decide)
  have hreaches : metadataSystem.Reaches anyStep observedOnce
      (run observedOnce [heartbeatCommand 2 [], heartbeatCommand 3 [observationAt 2]]) :=
    Guarded.reaches (by decide)
  have hepochs := (h _ _ hreach hreaches 1 _ _ rfl rfl).epochs (observationAt 5) (by decide)
    (observationAt 2) (by decide) rfl
  exact absurd hepochs.1 (by decide)

end StrataKV.Metadata
