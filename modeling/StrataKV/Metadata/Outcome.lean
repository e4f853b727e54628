import StrataKV.Metadata.StateMachine

/-!
# What a command does

Every property of the state machine is about what its commands can do to the state. A command is
refused and leaves the state as it is, is accepted without a change, runs out of ids half way through
a split, or installs a new state and publishes it. `Installs` lists the last kind: one constructor
per handler, with the state that the handler installs and what it has checked until then.
`applyLocked_outcome` reads this off the handlers once.
-/

namespace StrataKV.Metadata

open Std (ExtTreeMap)

/-- The operations that may be accepted without a change. -/
def Operation.mayKeep : Operation → Bool
  | .ackSplit .. | .reportStoreHeartbeat .. | .createSchedulingOperator ..
  | .cancelSchedulingOperator .. => true
  | _ => false

namespace MetadataState

variable {σ τ : MetadataState} {command : MetadataCommand}

/-! ## High-water marks -/

def highWater (σ : MetadataState) : IdNamespace → UInt64
  | .region => σ.regionIdHighWater
  | .peer => σ.peerIdHighWater
  | .store => σ.storeIdHighWater
  | .unknown _ => 0

def withHighWater (σ : MetadataState) (mark : UInt64) : IdNamespace → MetadataState
  | .region => { σ with regionIdHighWater := mark }
  | .peer => { σ with peerIdHighWater := mark }
  | .store => { σ with storeIdHighWater := mark }
  | .unknown _ => σ

/-! ## The states that handlers install -/

/-- The child of a split, which takes over the upper part of its parent's range. -/
def splitChild (parent : RegionMetadata) (splitKey : Bytes) (childId : UInt64)
    (peers : List RegionPeerLocation) : RegionMetadata where
  regionId := toInt childId
  startKey := splitKey
  endKey := parent.endKey
  epoch := ⟨1, 1⟩
  peers := peers
  leaderPeerId := (peers.head?.map RegionPeerLocation.peerId).getD 0

/-- The parent between the two phases of a split. -/
def marked (parent : RegionMetadata) (splitKey : Bytes) (child : RegionMetadata) : RegionMetadata :=
  { parent with splitPending := some (splitKey, child) }

/-- The migration that `PrepareMovePeer` starts. -/
def startedMigration (mutationId : Bytes) (regionId fromStoreId : UInt64)
    (source : RegionPeerLocation) (targetStore : StoreDescriptor) (toStoreId newPeerId : UInt64) :
    ReplicaMigrationStatus where
  regionId := regionId
  sourcePeerId := source.peerId
  fromStoreId := fromStoreId
  targetPeer :=
    { peerId := newPeerId
      storeId := toStoreId
      host := targetStore.host
      port := targetStore.port
      isLearner := true }
  phase := .preparingTarget
  mutationId := mutationId

/-- The operator after an update. -/
def updatedOperator (current : SchedulingOperator) (phase : SchedulingOperatorPhase)
    (attempts : UInt32) (lastError : Bytes) (irreversible : Bool) (updatedAtMs : UInt64) :
    SchedulingOperator :=
  { current with
    phase := phase
    attempts := attempts
    lastError := lastError
    irreversible := current.irreversible || irreversible
    updatedAtMs := updatedAtMs }

/-- The operator after a cancellation. -/
def cancelledOperator (current : SchedulingOperator) (updatedAtMs : UInt64) : SchedulingOperator :=
  { current with
    cancelRequested := true
    updatedAtMs := max current.updatedAtMs updatedAtMs
    phase := if current.phase = .pending then .cancelled else .cancelling }

/-- The maps of the operators with a changed one. -/
def withOperator (σ : MetadataState) (operatorId : Bytes) (current : SchedulingOperator)
    (done : Bool) : MetadataState :=
  { σ with
    schedulingOperators := σ.schedulingOperators.insert operatorId current
    activeOperatorByRegion := if done then σ.activeOperatorByRegion.erase current.regionId
      else σ.activeOperatorByRegion }

/-- `Installs σ command τ answer`: the handler of the command has passed its checks, publishes the
state `τ` and answers with `answer`. -/
inductive Installs (σ : MetadataState) (command : MetadataCommand) :
    MetadataState → (MetadataState → MetadataCommandResult) → Prop
  | bootstrap {configDigest : Bytes} {regions : List RegionDescriptor}
      {stores : List StoreDescriptor} {candidate validated : List RegionMetadata}
      {collected : ExtTreeMap UInt64 StoreDescriptor compare}
      (operation : command.operation = .bootstrap configDigest regions stores)
      (fresh : σ.revision = 0) (digest : configDigest ≠ [])
      (decoded : decodeRegions regions = .ok candidate)
      (valid : regionCatalog (candidate.map fun region => region.stamped 1) = .ok validated)
      (registered : addStores ∅ stores = some collected)
      (endpoints : ∀ region ∈ validated, ∀ peer ∈ region.peers, peerMatches collected peer = true) :
      Installs σ command
        { σ with
          revision := 1
          bootstrapDigest := configDigest
          stores := collected
          regions := validated }.stampRegions.recomputeHighWater accept
  | replaceRegions {removeRegionIds : List UInt64} {addRegions : List RegionDescriptor}
      {removed retained added validated : List RegionMetadata}
      (operation : command.operation = .replaceRegions removeRegionIds addRegions)
      (bootstrapped : σ.revision ≠ 0)
      (taken : takeRemoved removeRegionIds σ.regions = (removed, retained, []))
      (decoded : decodeRegions addRegions = .ok added)
      (epochs : ∀ region ∈ added, checkReplacement removed (region.stamped (σ.revision + 1)) = .ok ())
      (valid : regionCatalog
        (retained ++ added.map fun region => region.stamped (σ.revision + 1)) = .ok validated) :
      Installs σ command
        { σ with revision := σ.revision + 1, regions := validated }.stampRegions.recomputeHighWater
        accept
  | prepareSplit {regionId : UInt64} {splitKey : Bytes} {expectedEpoch : Option RegionEpoch}
      {parent : RegionMetadata} {childId mark : UInt64} {peers : List RegionPeerLocation}
      (operation : command.operation = .prepareSplit regionId splitKey expectedEpoch)
      (bootstrapped : σ.revision ≠ 0) (found : σ.findParent regionId = some parent)
      (idle : parent.splitPending = none)
      (allocated : safeAdd σ.regionIdHighWater 1 = some childId)
      (placed : childPeers σ.peerIdHighWater parent.peers = (some peers, mark)) :
      Installs σ command
        { σ with
          regionIdHighWater := childId
          peerIdHighWater := mark
          revision := σ.revision + 1
          regions := σ.replaceRegion (marked parent splitKey (splitChild parent splitKey childId
            peers)) }.recomputeHighWater
        fun σ =>
          { σ.accept with
            regions := [toProtoRegion (marked parent splitKey (splitChild parent splitKey childId
              peers))] }
  | commitSplit {regionId : UInt64} {parent pendingChild : RegionMetadata} {splitKey : Bytes}
      {validated : List RegionMetadata}
      (operation : command.operation = .commitSplit regionId) (bootstrapped : σ.revision ≠ 0)
      (found : σ.findParent regionId = some parent)
      (pending : parent.splitPending = some (splitKey, pendingChild))
      (valid : regionCatalog (σ.replaceRegion (shrunken parent splitKey) ++
        [{ pendingChild with endKey := parent.endKey, metadataRevision := σ.revision + 1 }]) =
          .ok validated) :
      Installs σ command
        { σ with revision := σ.revision + 1, regions := validated }.stampRegions.recomputeHighWater
        fun σ =>
          { σ.accept with
            regions := (σ.regions.filter fun region : RegionMetadata =>
              region.regionId = (shrunken parent splitKey).regionId ||
                region.regionId = pendingChild.regionId).map toProtoRegion }
  | prepareMovePeer {regionId fromStoreId toStoreId newPeerId : UInt64}
      {expectedEpoch : Option RegionEpoch} {region : RegionMetadata} {source : RegionPeerLocation}
      {targetStore : StoreDescriptor}
      (operation : command.operation = .prepareMovePeer regionId fromStoreId toStoreId expectedEpoch)
      (bootstrapped : σ.revision ≠ 0)
      (found : σ.regions.find? (RegionMetadata.hasId regionId) = some region)
      (idle : σ.migrations.contains regionId = false)
      (hosts : region.peers.find? (fun peer => peer.storeId = fromStoreId) = some source)
      (registered : σ.stores[toStoreId]? = some targetStore)
      (allocated : safeAdd σ.peerIdHighWater 1 = some newPeerId) :
      Installs σ command
        { σ with
          peerIdHighWater := newPeerId
          migrations := σ.migrations.insert regionId (startedMigration command.mutationId regionId
            fromStoreId source targetStore toStoreId newPeerId)
          revision := σ.revision + 1 }.stampRegions
        fun σ =>
          { σ.accept with
            migration := some (startedMigration command.mutationId regionId fromStoreId source
              targetStore toStoreId newPeerId)
            regions := [toProtoRegion
              { region with
                metadataRevision := σ.revision
                epoch := { region.epoch with confVersion := region.epoch.confVersion + 1 }
                peers := region.peers ++ [targetLocation (startedMigration command.mutationId
                  regionId fromStoreId source targetStore toStoreId newPeerId).targetPeer true] }] }
  | commitMovePeer {regionId newPeerId : UInt64} {expectedEpoch : Option RegionEpoch}
      {region : RegionMetadata} {migration : ReplicaMigrationStatus}
      (operation : command.operation = .commitMovePeer regionId newPeerId expectedEpoch)
      (bootstrapped : σ.revision ≠ 0) (expected : command.expectedRevision = σ.revision)
      (started : σ.migrations[regionId]? = some migration)
      (target : migration.targetPeer.peerId = newPeerId)
      (found : σ.regions.find? (RegionMetadata.hasId regionId) = some region)
      (present : ∃ peer ∈ region.peers, peer.peerId = migration.sourcePeerId) :
      Installs σ command
        { σ with
          regions := updateFirst (RegionMetadata.hasId regionId) (moved · migration) σ.regions
          revision := σ.revision + 1
          migrations := σ.migrations.erase regionId }.stampRegions
        fun σ =>
          { σ.accept with
            migration := some
              { migration with
                targetPeer := { migration.targetPeer with isLearner := false }
                phase := .complete }
            regions := [toProtoRegion ((moved region migration).stamped σ.revision)] }
  | cancelMovePeer {regionId newPeerId : UInt64} {migration : ReplicaMigrationStatus}
      (operation : command.operation = .cancelMovePeer regionId newPeerId)
      (bootstrapped : σ.revision ≠ 0) :
      Installs σ command
        { σ with
          migrations := σ.migrations.erase regionId
          revision := σ.revision + 1 }.stampRegions
        fun σ => { σ.accept with migration := some { migration with phase := .cancelled } }
  | reportStoreHeartbeat {heartbeat merged : StoreHeartbeat}
      (operation : command.operation = .reportStoreHeartbeat heartbeat)
      (bootstrapped : σ.revision ≠ 0) (valid : heartbeat.invalid = false)
      (known : σ.stores.contains heartbeat.storeId = true)
      (same : ∃ regions, merged = { heartbeat with regions := regions }) :
      Installs σ command
        { σ with storeHeartbeats := σ.storeHeartbeats.insert heartbeat.storeId merged }
        fun σ => { σ.accept with heartbeat := some merged }
  | updateAutoBalancerConfig {requested config : AutoBalancerConfig}
      (operation : command.operation = .updateAutoBalancerConfig requested)
      (valid : config.invalid σ.balancerConfig.version = false) :
      Installs σ command { σ with balancerConfig := config }
        fun σ => { σ.accept with balancerConfig := some config }
  | createSchedulingOperator {requested : SchedulingOperator}
      (operation : command.operation = .createSchedulingOperator requested)
      (named : requested.operatorId ≠ []) (region : requested.regionId ≠ 0)
      (source : requested.sourceRevision = σ.revision) (phase : requested.phase = .pending)
      (absent : σ.schedulingOperators[requested.operatorId]? = none)
      (idle : σ.activeOperatorByRegion.contains requested.regionId = false)
      (budget : σ.activeOperatorByRegion.size < σ.balancerConfig.maximumActiveOperators.toNat) :
      Installs σ command
        { σ with
          schedulingOperators := σ.schedulingOperators.insert requested.operatorId requested
          activeOperatorByRegion :=
            σ.activeOperatorByRegion.insert requested.regionId requested.operatorId }
        fun σ => { σ.accept with operator := some requested }
  | updateSchedulingOperator {operatorId lastError : Bytes}
      {expectedPhase phase : SchedulingOperatorPhase} {attempts : UInt32} {irreversible : Bool}
      {updatedAtMs : UInt64} {current : SchedulingOperator}
      (operation : command.operation = .updateSchedulingOperator operatorId expectedPhase phase
        attempts lastError irreversible updatedAtMs)
      (found : σ.schedulingOperators[operatorId]? = some current)
      (transition : validTransition current.phase phase = true) :
      Installs σ command (σ.withOperator operatorId
          (updatedOperator current phase attempts lastError irreversible updatedAtMs)
          (isTerminal phase))
        fun σ =>
          { σ.accept with
            operator := some
              (updatedOperator current phase attempts lastError irreversible updatedAtMs) }
  | cancelSchedulingOperator {operatorId : Bytes} {updatedAtMs : UInt64}
      {current : SchedulingOperator}
      (operation : command.operation = .cancelSchedulingOperator operatorId updatedAtMs)
      (found : σ.schedulingOperators[operatorId]? = some current)
      (running : isTerminal current.phase = false) (reversible : current.irreversible = false) :
      Installs σ command (σ.withOperator operatorId (cancelledOperator current updatedAtMs)
          (current.phase = .pending))
        fun σ => { σ.accept with operator := some (cancelledOperator current updatedAtMs) }
  | allocateIds {kind : IdNamespace} {count mark : UInt64}
      (operation : command.operation = .allocateIds kind count) (bootstrapped : σ.revision ≠ 0)
      (known : ∀ value, kind ≠ .unknown value)
      (allocated : safeAdd (σ.highWater kind) count = some mark) :
      Installs σ command { σ.withHighWater mark kind with revision := σ.revision + 1 }
        fun τ =>
          { τ.accept with firstAllocatedId := σ.highWater kind + 1, allocatedCount := count }
  | putStore {store : StoreDescriptor} (operation : command.operation = .putStore store)
      (bootstrapped : σ.revision ≠ 0) (valid : store.valid = true) :
      Installs σ command
        { σ with
          stores := σ.stores.insert store.storeId store
          storeIdHighWater := max σ.storeIdHighWater store.storeId
          revision := σ.revision + 1 }
        accept

/-- The four ways in which a command ends. -/
inductive Outcome (σ : MetadataState) (command : MetadataCommand) :
    MetadataCommandResult × MetadataState → Prop
  | refused {code : MetadataErrorCode} (hcode : code ≠ .ok) (message : String) :
      Outcome σ command (σ.reject code message)
  | kept {result : MetadataCommandResult} (quiet : command.operation.mayKeep = true)
      (hok : result.error = .ok) : Outcome σ command (result, σ)
  | exhausted {regionId : UInt64} {splitKey : Bytes} {expectedEpoch : Option RegionEpoch}
      {parent : RegionMetadata} {childId mark : UInt64}
      (operation : command.operation = .prepareSplit regionId splitKey expectedEpoch)
      (found : σ.findParent regionId = some parent)
      (allocated : safeAdd σ.regionIdHighWater 1 = some childId)
      (placed : childPeers σ.peerIdHighWater parent.peers = (none, mark)) :
      Outcome σ command ({ σ with regionIdHighWater := childId, peerIdHighWater := mark }.throwing
          "identifier allocation overflows")
  | installed {τ : MetadataState} {answer : MetadataState → MetadataCommandResult}
      (h : Installs σ command τ answer) : Outcome σ command (τ.publish answer)

/-! ## The handlers -/

variable {answer : MetadataCommandResult × MetadataState}

namespace Outcome

lemma throwing (message : String) : Outcome σ command (σ.throwing message) :=
  refused (by decide) message

/-- Each handler refuses, keeps the state or installs one of `Installs`. -/
lemma bootstrapLocked {configDigest : Bytes} {regions : List RegionDescriptor}
    {stores : List StoreDescriptor}
    (hop : command.operation = .bootstrap configDigest regions stores) :
    Outcome σ command (σ.bootstrapLocked command.expectedRevision configDigest regions stores) := by
  unfold MetadataState.bootstrapLocked
  split
  · exact refused (by decide) _
  rename_i hfresh
  split
  · exact refused (by decide) _
  rename_i hdigest
  split
  · exact throwing _
  rename_i candidate hdecoded
  split
  · exact throwing _
  rename_i validated hvalid
  split
  · exact throwing _
  rename_i collected hcollected
  split_ifs with hmatch
  · rw [not_or, not_not] at hfresh
    rw [not_or] at hdigest
    refine installed (.bootstrap hop hfresh.1 hdigest.2 hdecoded hvalid hcollected ?_)
    intro region hregion peer hpeer
    exact List.all_eq_true.1 (List.all_eq_true.1 hmatch region hregion) peer hpeer
  · exact throwing _

/-- A loop that ends without an exception has checked every element. -/
lemma forall_of_mapM_ok {α : Type} {f : α → Except String Unit} {l : List α} {units : List Unit}
    (h : l.mapM f = .ok units) : ∀ a ∈ l, f a = .ok () := by
  induction l generalizing units with
  | nil => simp
  | cons a l ih =>
    rw [List.mapM_cons] at h
    cases ha : f a with
    | error message => simp [ha, bind, Except.bind] at h
    | ok _ =>
      cases hl : l.mapM f with
      | error message => simp [ha, hl, bind, Except.bind] at h
      | ok units => exact List.forall_mem_cons.2 ⟨ha, ih hl⟩

lemma replaceRegionsLocked {removeRegionIds : List UInt64} {addRegions : List RegionDescriptor}
    (hop : command.operation = .replaceRegions removeRegionIds addRegions) :
    Outcome σ command
      (σ.replaceRegionsLocked command.expectedRevision removeRegionIds addRegions) := by
  unfold MetadataState.replaceRegionsLocked
  split
  · exact refused (by decide) _
  rename_i hboot
  split
  · exact refused (by decide) _
  split
  · exact throwing _
  split
  · exact throwing _
  rcases htaken : takeRemoved removeRegionIds σ.regions with ⟨removed, retained, left⟩
  dsimp only
  split
  · exact throwing _
  rename_i hleft
  split
  · exact throwing _
  rename_i added hdecoded
  split
  · exact throwing _
  · exact throwing _
  split
  · exact throwing _
  split
  · exact throwing _
  rename_i hepochs
  split
  · exact throwing _
  rename_i validated hvalid
  rw [not_not] at hleft
  subst hleft
  refine installed (.replaceRegions hop hboot htaken hdecoded ?_ hvalid)
  intro region hregion
  exact forall_of_mapM_ok hepochs _ (List.mem_map_of_mem hregion)

variable {regionId : UInt64} {expectedEpoch : Option RegionEpoch}

lemma prepareSplitLocked {splitKey : Bytes}
    (hop : command.operation = .prepareSplit regionId splitKey expectedEpoch) :
    Outcome σ command
      (σ.prepareSplitLocked command.expectedRevision regionId splitKey expectedEpoch) := by
  unfold MetadataState.prepareSplitLocked
  split
  · refine refused ?_ _
    split <;> decide
  rename_i hboot
  rw [not_or] at hboot
  split
  · exact throwing _
  rename_i parent hfound
  split
  · exact throwing _
  rename_i hidle
  split
  · exact refused (by decide) _
  split
  · exact throwing _
  split
  · exact throwing _
  rename_i childId hchild
  rcases hplaced : childPeers σ.peerIdHighWater parent.peers with ⟨peers, mark⟩
  dsimp only
  split
  · exact exhausted hop hfound hchild hplaced
  · exact installed (.prepareSplit hop hboot.1 hfound (by simpa using hidle) hchild hplaced)

lemma commitSplitLocked (hop : command.operation = .commitSplit regionId) :
    Outcome σ command (σ.commitSplitLocked command.expectedRevision regionId) := by
  unfold MetadataState.commitSplitLocked
  split
  · exact refused (by decide) _
  rename_i hboot
  rw [not_or] at hboot
  split
  · exact throwing _
  rename_i parent splitKey child hparent
  obtain ⟨found, hfound, hpending⟩ := Option.bind_eq_some_iff.1 hparent
  obtain ⟨pending, hpending, heq⟩ := Option.map_eq_some_iff.1 hpending
  cases heq
  dsimp only
  split
  · exact throwing _
  · rename_i validated hvalid
    exact installed (.commitSplit hop hboot.1 hfound hpending hvalid)

lemma ackSplitLocked {childRegionIds : List UInt64}
    (hop : command.operation = .ackSplit childRegionIds) :
    Outcome σ command (σ.ackSplitLocked command.expectedRevision childRegionIds) := by
  unfold MetadataState.ackSplitLocked
  split
  · exact refused (by decide) _
  split
  · exact kept (by rw [hop]; rfl) rfl
  · exact throwing _

lemma prepareMovePeerLocked {fromStoreId toStoreId : UInt64}
    (hop : command.operation = .prepareMovePeer regionId fromStoreId toStoreId expectedEpoch) :
    Outcome σ command
      (σ.prepareMovePeerLocked command.mutationId command.expectedRevision regionId fromStoreId
        toStoreId expectedEpoch) := by
  unfold MetadataState.prepareMovePeerLocked
  split
  · exact refused (by decide) _
  rename_i hboot
  rw [not_or] at hboot
  split
  · exact throwing _
  rename_i region hfound
  split
  · exact throwing _
  rename_i hidle
  split
  · exact refused (by decide) _
  split
  · exact throwing _
  rename_i source hsource
  split
  · exact throwing _
  split
  · exact throwing _
  rename_i targetStore htarget
  split
  · exact throwing _
  · rename_i newPeerId hadd
    exact installed (.prepareMovePeer hop hboot.1 hfound (Bool.eq_false_iff.2 hidle) hsource htarget
      hadd)

variable {newPeerId : UInt64}

lemma commitMovePeerLocked
    (hop : command.operation = .commitMovePeer regionId newPeerId expectedEpoch) :
    Outcome σ command
      (σ.commitMovePeerLocked command.expectedRevision regionId newPeerId expectedEpoch) := by
  unfold MetadataState.commitMovePeerLocked
  split
  · exact refused (by decide) _
  rename_i hboot
  rw [not_or, not_not] at hboot
  split
  · exact throwing _
  rename_i migration hmigration
  obtain ⟨hmigration, htarget⟩ := Option.filter_eq_some_iff.1 hmigration
  split
  · exact throwing _
  rename_i region hfound
  split
  · exact refused (by decide) _
  split
  · exact throwing _
  · rename_i hsource
    exact installed (.commitMovePeer hop hboot.1 hboot.2 hmigration (of_decide_eq_true htarget)
      hfound (by simpa using hsource))

lemma cancelMovePeerLocked (hop : command.operation = .cancelMovePeer regionId newPeerId) :
    Outcome σ command (σ.cancelMovePeerLocked command.expectedRevision regionId newPeerId) := by
  unfold MetadataState.cancelMovePeerLocked
  split
  · exact refused (by decide) _
  rename_i hboot
  rw [not_or] at hboot
  split
  · exact throwing _
  · exact installed (.cancelMovePeer hop hboot.1)

lemma reportStoreHeartbeatLocked {heartbeat : StoreHeartbeat}
    (hop : command.operation = .reportStoreHeartbeat heartbeat) :
    Outcome σ command (σ.reportStoreHeartbeatLocked command.expectedRevision heartbeat) := by
  unfold MetadataState.reportStoreHeartbeatLocked
  split
  · exact refused (by decide) _
  rename_i hboot
  split
  · exact refused (by decide) _
  split
  · exact throwing _
  rename_i hvalid
  split
  · exact throwing _
  rename_i hknown
  dsimp only
  split
  · exact kept (by rw [hop]; rfl) rfl
  split
  · exact throwing _
  · exact installed (.reportStoreHeartbeat hop hboot (by simpa using hvalid)
      (by simpa using hknown) ⟨_, rfl⟩)

lemma updateAutoBalancerConfigLocked {config : AutoBalancerConfig}
    (hop : command.operation = .updateAutoBalancerConfig config) :
    Outcome σ command (σ.updateAutoBalancerConfigLocked command.expectedRevision config) := by
  unfold MetadataState.updateAutoBalancerConfigLocked
  split
  · exact refused (by decide) _
  split
  · exact refused (by decide) _
  dsimp only
  split_ifs with hvalid
  · exact throwing _
  · exact installed (.updateAutoBalancerConfig hop (by simpa using hvalid))

variable {requested : SchedulingOperator}

/-- The checks on the kind of work refuse an operator or throw. -/
lemma checkWork {region : RegionMetadata}
    (h : σ.checkWork region requested = some answer) : Outcome σ command answer := by
  unfold MetadataState.checkWork at h
  split at h
  · split_ifs at h
    · cases h
      exact throwing _
    · cases h
      exact refused (by decide) _
  · split_ifs at h
    cases h
    exact throwing _
  · cases h
    exact throwing _

lemma createSchedulingOperatorLocked
    (hop : command.operation = .createSchedulingOperator requested) :
    Outcome σ command (σ.createSchedulingOperatorLocked command.expectedRevision requested) := by
  unfold MetadataState.createSchedulingOperatorLocked
  split
  · exact refused (by decide) _
  split
  · exact throwing _
  rename_i hvalid
  simp only [not_or, not_not] at hvalid
  obtain ⟨hnamed, hregion, hsource, hphase, -⟩ := hvalid
  split
  · split
    · exact refused (by decide) _
    · exact kept (by rw [hop]; rfl) rfl
  rename_i habsent
  split
  · exact refused (by decide) _
  split
  · exact refused (by decide) _
  rename_i hidle
  split
  · exact throwing _
  split
  · exact refused (by decide) _
  split
  · exact refused (by decide) _
  rename_i hbudget
  split
  · rename_i answer hanswer
    exact checkWork hanswer
  dsimp only
  split
  · exact refused (by decide) _
  · exact installed (.createSchedulingOperator hop hnamed hregion hsource hphase habsent
      (Bool.eq_false_iff.2 hidle) (Nat.lt_of_not_le hbudget))

variable {updatedAtMs : UInt64}

lemma updateSchedulingOperatorLocked {operatorId lastError : Bytes}
    {expectedPhase phase : SchedulingOperatorPhase} {attempts : UInt32} {irreversible : Bool}
    (hop : command.operation = .updateSchedulingOperator operatorId expectedPhase phase attempts
      lastError irreversible updatedAtMs) :
    Outcome σ command (σ.updateSchedulingOperatorLocked command.expectedRevision operatorId
      expectedPhase phase attempts lastError irreversible updatedAtMs) := by
  unfold MetadataState.updateSchedulingOperatorLocked
  split
  · exact refused (by decide) _
  split
  · exact refused (by decide) _
  rename_i current hfound
  split
  · exact refused (by decide) _
  split_ifs with hvalid
  · exact refused (by decide) _
  · simp only [not_or, not_not] at hvalid
    exact installed (.updateSchedulingOperator hop hfound hvalid.1)

lemma cancelSchedulingOperatorLocked {operatorId : Bytes}
    (hop : command.operation = .cancelSchedulingOperator operatorId updatedAtMs) :
    Outcome σ command
      (σ.cancelSchedulingOperatorLocked command.expectedRevision operatorId updatedAtMs) := by
  unfold MetadataState.cancelSchedulingOperatorLocked
  split
  · exact refused (by decide) _
  split
  · exact refused (by decide) _
  rename_i current hfound
  split
  · exact kept (by rw [hop]; rfl) rfl
  rename_i hrunning
  split
  · exact refused (by decide) _
  · rename_i hreversible
    exact installed (.cancelSchedulingOperator hop hfound (by simpa using hrunning)
      (by simpa using hreversible))

lemma allocateIdsLocked {kind : IdNamespace} {count : UInt64}
    (hop : command.operation = .allocateIds kind count) :
    Outcome σ command (σ.allocateIdsLocked command.expectedRevision kind count) := by
  unfold MetadataState.allocateIdsLocked
  split
  · exact refused (by decide) _
  rename_i hboot
  split
  · exact refused (by decide) _
  dsimp only
  split
  case h_4 => exact throwing _
  all_goals
    split
    · exact throwing _
    · rename_i mark hmark
      exact installed (.allocateIds hop hboot (by simp) hmark)

lemma putStoreLocked {store : StoreDescriptor} (hop : command.operation = .putStore store) :
    Outcome σ command (σ.putStoreLocked command.expectedRevision store) := by
  unfold MetadataState.putStoreLocked
  split
  · exact refused (by decide) _
  rename_i hboot
  rw [not_or] at hboot
  split
  · exact throwing _
  · rename_i hvalid
    exact installed (.putStore hop hboot.1 (by simpa using hvalid))

end Outcome

/-- So does the dispatch over all operations. -/
theorem applyLocked_outcome (σ : MetadataState) (command : MetadataCommand) :
    Outcome σ command (σ.applyLocked command) := by
  unfold applyLocked
  cases hop : command.operation with
  | bootstrap => exact .bootstrapLocked hop
  | replaceRegions => exact .replaceRegionsLocked hop
  | allocateIds => exact .allocateIdsLocked hop
  | putStore => exact .putStoreLocked hop
  | prepareSplit => exact .prepareSplitLocked hop
  | commitSplit => exact .commitSplitLocked hop
  | ackSplit => exact .ackSplitLocked hop
  | prepareMovePeer => exact .prepareMovePeerLocked hop
  | commitMovePeer => exact .commitMovePeerLocked hop
  | cancelMovePeer => exact .cancelMovePeerLocked hop
  | reportStoreHeartbeat => exact .reportStoreHeartbeatLocked hop
  | updateAutoBalancerConfig => exact .updateAutoBalancerConfigLocked hop
  | createSchedulingOperator => exact .createSchedulingOperatorLocked hop
  | updateSchedulingOperator => exact .updateSchedulingOperatorLocked hop
  | cancelSchedulingOperator => exact .cancelSchedulingOperatorLocked hop
  | notSet => exact .refused (by decide) _

/-! ## Publishing and recording -/

/-- Publishing changes the view only. -/
lemma publish_snd (τ : MetadataState) (answer : MetadataState → MetadataCommandResult) :
    ∃ view, (τ.publish answer).2 = { τ with published := view } := by
  unfold publish
  split
  · exact ⟨_, rfl⟩
  split
  · exact ⟨τ.published, rfl⟩
  · exact ⟨_, rfl⟩

/-- How `Apply` ends, given how the handler did. -/
inductive Applied (σ : MetadataState) (command : MetadataCommand) :
    MetadataCommandResult × MetadataState → Prop
  | unnamed {code : MetadataErrorCode} (hcode : code ≠ .ok) (message : String) :
      Applied σ command (σ.reject code message)
  | repeated {record : MutationRecord} (hrecord : σ.dedup[command.mutationId]? = some record) :
      Applied σ command (record.result, σ)
  | recorded {answer : MetadataCommandResult × MetadataState} (hnamed : command.mutationId ≠ [])
      (hnew : σ.dedup[command.mutationId]? = none) (houtcome : Outcome σ command answer) :
      Applied σ command (answer.1, answer.2.recordResultLocked command.mutationId answer.1)

/-- `Apply`: a repeated command answers as before, a new one is recorded. -/
theorem apply_applied (σ : MetadataState) (command : MetadataCommand) :
    Applied σ command (σ.apply command) := by
  unfold apply
  split
  · exact .unnamed (by decide) _
  rename_i hnamed
  split
  · rename_i record hrecord
    exact .repeated hrecord
  · rename_i hnew
    exact .recorded hnamed hnew (applyLocked_outcome σ command)

/-- Recording a result changes the deduplication table only. -/
lemma recordResultLocked_eq (σ : MetadataState) (mutationId : Bytes)
    (result : MetadataCommandResult) :
    ∃ dedup dedupOrder, σ.recordResultLocked mutationId result =
      { σ with dedup := dedup, dedupOrder := dedupOrder } :=
  ⟨_, _, rfl⟩

/-- What holds before the request, after every handler, and whatever is recorded of the mutation, holds
after the request. -/
lemma Applied.lift {P : MetadataState → Prop} (h : Applied σ command answer) (hσ : P σ)
    (houtcome : ∀ {answer}, Outcome σ command answer → P answer.2)
    (hrecord : ∀ {τ : MetadataState} dedup dedupOrder, P τ →
      P { τ with dedup := dedup, dedupOrder := dedupOrder }) : P answer.2 := by
  cases h with
  | unnamed | repeated => exact hσ
  | recorded _ _ hanswer => exact hrecord _ _ (houtcome hanswer)

end MetadataState

end StrataKV.Metadata
