import StrataKV.Lib.TransitionSystem
import StrataKV.Region.Peer

/-!
# The descriptor as a function of the log

Every replica of a Region starts from one descriptor and changes it when it applies an `AdminSplit`
or a `ConfChange` entry. What an entry does to the range, epoch and peers depends on these and on
the de-duplication table alone (`regionStep`), so that replicas which apply the same entries agree.

A Raft snapshot carries the table but no descriptor: a replica that installs one keeps the
descriptor it had, and replicas agree only as long as no installed snapshot skips an entry that
changes the Region. Nor may a snapshot be behind the replica: Raft compares its index with that of
its last snapshot alone, and the restored table then lets entries take effect a second time.
-/

namespace StrataKV.Region

open Metadata Mvcc RegionPeer List Option TransitionSystem AdminSplitCommand Operation
open Std (ExtTreeMap)

/-- The part of a peer that decides which keys it owns and who replicates them. -/
structure RegionView where
  regionId : Int32
  startKey : Bytes
  endKey : Bytes
  ownedStart : Bytes
  ownedEnd : Bytes
  epoch : RegionEpoch
  peers : List RegionPeerLocation
  deriving DecidableEq

def RegionPeer.view (peer : RegionPeer) : RegionView where
  regionId := peer.descriptor.regionId
  startKey := peer.descriptor.startKey
  endKey := peer.descriptor.endKey
  ownedStart := peer.regionStartKey
  ownedEnd := peer.regionEndKey
  epoch := peer.descriptor.epoch
  peers := peer.descriptor.peers

/-! ## A group of replicas -/

/-- The replicas of a Region, how much of the log each state machine has gone past, and the snapshots
that were captured, with their indexes. -/
structure Group where
  peer : ℕ → RegionPeer
  reflected : ℕ → ℕ
  snapshots : List (ℕ × SnapshotPayload)

inductive GroupEvent
  /-- the apply loop takes the next entry -/
  | apply (replica : ℕ) (env : PeerEnv)
  /-- the apply loop takes the next `count` entries as one batch -/
  | applyBatch (replica count : ℕ) (env : PeerEnv)
  /-- the background thread of a split takes a step -/
  | materialize (replica : ℕ)
  /-- the log collector captures a snapshot -/
  | capture (replica : ℕ)
  /-- the apply loop installs a captured snapshot, wherever the replica is; Raft delivers on from the
  later of the two positions -/
  | install (replica snapshot : ℕ) (env : PeerEnv)

namespace Group

/-- All replicas created with one descriptor, each at its own place among the peers. -/
def create (descriptor : RegionMetadata) : Group where
  peer := fun replica => RegionPeer.create replica descriptor
  reflected := fun _ => 0
  snapshots := []

def setPeer (group : Group) (replica : ℕ) (peer : RegionPeer) (reflected : ℕ) : Group :=
  { group with
    peer := Function.update group.peer replica peer
    reflected := Function.update group.reflected replica reflected }

/-- The messages of the next `count` entries after `reflected`. -/
def nextMessages (log : List Op) (reflected count : ℕ) : List (ℕ × Op) :=
  (((log.drop reflected).take count).zipIdx (reflected + 1)).map fun (op, index) => (index, op)

/-- The step of an event, if it can happen. A replica whose apply failed takes no more entries. -/
def next (log : List Op) (group : Group) : GroupEvent → Option Group
  | .apply replica env =>
    let peer := group.peer replica
    let reflected := group.reflected replica
    if !peer.stateMachineHealthy then none
    else
      match log[reflected]? with
      | none => none
      | some op =>
        match peer.applyCommand (reflected + 1) op env with
        | none => none
        | some (true, _, peer) => some (group.setPeer replica peer (reflected + 1))
        | some (false, _, peer) => some (group.setPeer replica peer reflected)
  | .applyBatch replica count env =>
    let peer := group.peer replica
    let reflected := group.reflected replica
    let messages := nextMessages log reflected count
    if !peer.stateMachineHealthy ∨ messages.length ≠ count then none
    else
      match peer.tryBatchApplyFromRaft messages env with
      | (true, peer) => some (group.setPeer replica peer (reflected + count))
      | (false, peer) => some (group.setPeer replica peer reflected)
  | .materialize replica =>
    let peer := group.peer replica
    peer.splitJob.map fun job =>
      group.setPeer replica (peer.materializeSplitChild job) (group.reflected replica)
  | .capture replica =>
    let peer := group.peer replica
    if !peer.stateMachineHealthy then none
    else
      some { group with
        snapshots := group.snapshots ++ [(group.reflected replica, peer.makeSnapShot)] }
  | .install replica snapshot env =>
    match group.snapshots[snapshot]? with
    | none => none
    | some (index, payload) =>
      if !env.engineOk ∨ !(group.peer replica).stateMachineHealthy then none
      else some (group.setPeer replica ((group.peer replica).getSnapShotFromRaft index payload env)
        (max (group.reflected replica) index))

section

variable {log : List Op} {group group' : Group} {r : ℕ} {env : PeerEnv}

lemma next_apply (h : group.next log (.apply r env) = some group') :
    (group.peer r).stateMachineHealthy = true ∧ ∃ op succeeded status peer,
      log[group.reflected r]? = some op ∧
      (group.peer r).applyCommand (group.reflected r + 1) op env = some (succeeded, status, peer) ∧
      group' = group.setPeer r peer
        (if succeeded then group.reflected r + 1 else group.reflected r) := by
  simp only [next] at h
  split_ifs at h with hhealthy
  refine ⟨by simpa using hhealthy, ?_⟩
  split at h
  · cases h
  · rename_i op hop
    split at h
    · cases h
    · rename_i status peer happly
      cases h
      exact ⟨op, true, status, peer, hop, happly, rfl⟩
    · rename_i status peer happly
      cases h
      exact ⟨op, false, status, peer, hop, happly, rfl⟩

lemma next_applyBatch {count : ℕ} (h : group.next log (.applyBatch r count env) = some group') :
    (group.peer r).stateMachineHealthy = true ∧
      (nextMessages log (group.reflected r) count).length = count ∧ group' = group.setPeer r
        ((group.peer r).tryBatchApplyFromRaft (nextMessages log (group.reflected r) count) env).2
        (if ((group.peer r).tryBatchApplyFromRaft (nextMessages log (group.reflected r) count)
          env).1 then group.reflected r + count else group.reflected r) := by
  simp only [next] at h
  split_ifs at h with hready
  push Not at hready
  refine ⟨by simpa using hready.1, hready.2, ?_⟩
  split at h
  · rename_i peer happly
    cases h
    simp [happly]
  · rename_i peer happly
    cases h
    simp [happly]

lemma next_capture (h : group.next log (.capture r) = some group') :
    (group.peer r).stateMachineHealthy = true ∧
      group' = { group with
        snapshots := group.snapshots ++ [(group.reflected r, (group.peer r).makeSnapShot)] } := by
  simp only [next] at h
  split_ifs at h with hhealthy
  cases h
  exact ⟨by simpa using hhealthy, rfl⟩

lemma next_install {snapshot : ℕ} (h : group.next log (.install r snapshot env) = some group') :
    ∃ taken, group.snapshots[snapshot]? = some taken ∧ env.engineOk = true ∧
      group' = group.setPeer r ((group.peer r).getSnapShotFromRaft taken.1 taken.2 env)
        (max (group.reflected r) taken.1) := by
  simp only [next] at h
  split at h
  · cases h
  · rename_i index payload htaken
    split_ifs at h with hready
    cases h
    push Not at hready
    exact ⟨_, htaken, by simpa using hready.1, rfl⟩

end

end Group

/-- The runs of the replicas of one Region over its committed log. -/
def groupSystem (descriptor : RegionMetadata) (log : List Op) : TransitionSystem Group GroupEvent :=
  .ofPartial (Group.create descriptor) (Group.next log)

/-! ## What an entry does to the view and the table -/

/-- The operation writes its request id into the table when it succeeds. -/
def Operation.marks : Operation → Bool
  | .get | .txnGet _ | .raftNoop | .unknown => false
  | _ => true

/-- The operation may change the range, the epoch or the peers. -/
def Operation.changesRegion : Operation → Bool
  | .adminSplit _ | .confChange _ => true
  | _ => false

namespace RegionView

variable (view : RegionView)

def splitBy (command : AdminSplitCommand) : RegionView :=
  if view.regionId = command.parentRegion.regionId ∧ view.epoch = command.parentRegion.epoch ∧
      view.startKey = command.parentRegion.startKey ∧
      view.endKey = command.parentRegion.endKey then
    { view with
      endKey := command.splitKey
      ownedEnd := command.splitKey
      epoch :=
        { version := command.parentRegion.epoch.version + 1
          confVersion := command.parentRegion.epoch.confVersion } }
  else view

def changeBy (command : ConfChangeCommand) : RegionView :=
  if command.expectedEpoch.any fun expected => expected ≠ view.epoch then view
  else
    { view with
      peers := command.peers view.peers
      epoch := { view.epoch with confVersion := view.epoch.confVersion + 1 } }

def execute : Operation → RegionView
  | .adminSplit (some command) => view.splitBy command
  | .confChange (some command) => view.changeBy command
  | _ => view

lemma execute_of_not_changesRegion {operation : Operation}
    (h : operation.changesRegion = false) : view.execute operation = view := by
  cases operation <;> first | rfl | simp [changesRegion] at h

end RegionView

/-- What decides the effect of an entry on the Region: the view and the table. -/
structure RegionState where
  view : RegionView
  lastRequestId : ExtTreeMap Bytes Int32 compare

def RegionPeer.region (peer : RegionPeer) : RegionState := ⟨peer.view, peer.lastRequestId⟩

/-- The effect of one entry. -/
def regionStep (state : RegionState) (op : Op) : RegionState :=
  if state.lastRequestId[op.clientId]?.any fun last => op.requestId ≤ last then state
  else
    { view := state.view.execute op.operation
      lastRequestId := if op.operation.marks then
        state.lastRequestId.insert op.clientId op.requestId else state.lastRequestId }

/-- The view and the table after a prefix of the log. -/
def regionAfter (descriptor : RegionMetadata) (log : List Op) (n : ℕ) : RegionState :=
  (log.take n).foldl regionStep (RegionPeer.create 0 descriptor).region

section

variable {peer peer' : RegionPeer} {op : Op} {env : PeerEnv} {index : ℕ} {status : OpStatus}
  {result : TxnStatus}

/-- An accepted split shrinks the view, a repeated or refused one leaves it. -/
lemma applyAdminSplit_region {command : AdminSplitCommand}
    (h : peer.applyAdminSplit command = some (result, peer')) :
    peer'.region = ⟨peer.view.splitBy command, peer.lastRequestId⟩ := by
  have hjob (p : RegionPeer) (phase : ℕ) :
      (p.startMaterializing command phase).region = p.region := by
    unfold startMaterializing
    split <;> rfl
  have hmatch : command.exactMatch peer.descriptor = true ↔
      peer.view.regionId = command.parentRegion.regionId ∧
        peer.view.epoch = command.parentRegion.epoch ∧
        peer.view.startKey = command.parentRegion.startKey ∧
        peer.view.endKey = command.parentRegion.endKey := by
    simp [exactMatch, view, and_assoc]
  unfold applyAdminSplit at h
  by_cases hexact : command.exactMatch peer.descriptor = true
  · have hview := hmatch.1 hexact
    -- the version cannot be the old one and the next one at once
    have hnot : command.alreadyShrunk peer.descriptor = false := by
      have hepoch : peer.descriptor.epoch = command.parentRegion.epoch := hview.2.1
      simp only [alreadyShrunk, hepoch, Bool.and_eq_false_iff, decide_eq_false_iff_not]
      exact .inl (.inr (by grind))
    simp only [hexact, hnot, Bool.not_true, Bool.not_false, Bool.and_true, Bool.false_eq_true,
      if_false, Bool.false_and, map_eq_some_iff, Prod.mk.injEq] at h
    obtain ⟨shrunk, hshrunk, -, rfl⟩ := h
    rw [hjob]
    unfold updateDescriptorShrunk at hshrunk
    split_ifs at hshrunk
    cases hshrunk
    obtain ⟨hid, -, hstart, -⟩ := hview
    simp only [RegionView.splitBy, hmatch.1 hexact, and_self, if_true]
    simp [region, view, writeSplitState, shrunken, ← hid, ← hstart]
  · have hview : peer.view.splitBy command = peer.view := by
      rw [RegionView.splitBy, if_neg (mt hmatch.2 hexact)]
    rw [hview]
    by_cases halready : command.alreadyShrunk peer.descriptor = true
    · simp only [halready, Bool.not_true, Bool.and_false, Bool.false_eq_true, if_false, if_true,
        Bool.true_and, map_some] at h
      split at h
      · cases h
        rfl
      · cases h
        rw [hjob]
        rfl
    · simp only [hexact, halready, Bool.not_false, Bool.and_self, if_true] at h
      cases h
      rfl

lemma applyConfChange_region {command : ConfChangeCommand}
    (h : peer.applyConfChange command = some (result, peer')) :
    peer'.region = ⟨peer.view.changeBy command, peer.lastRequestId⟩ := by
  have hretire (p : RegionPeer) : p.beginRetire.region = p.region := by
    unfold beginRetire
    split <;> rfl
  have hstop (p q : RegionPeer) (hq : p.markStopped = some q) : q.region = p.region := by
    unfold markStopped at hq
    split_ifs at hq
    all_goals cases hq; rfl
  unfold applyConfChange at h
  cases hregion : command.region peer.descriptor with
  | none =>
    rw [hregion] at h
    cases h
    have hexpected : command.expectedEpoch.any (fun expected => expected ≠ peer.view.epoch) =
        true := by
      unfold ConfChangeCommand.region at hregion
      split at hregion
      · assumption
      · exact absurd hregion (by simp)
    rw [RegionView.changeBy, if_pos hexpected]
    rfl
  | some region =>
    have hchanged : ({ peer with descriptor := region } : RegionPeer).region =
        ⟨peer.view.changeBy command, peer.lastRequestId⟩ := by
      unfold ConfChangeCommand.region at hregion
      split at hregion
      · exact absurd hregion (by simp)
      · rename_i hexpected
        cases hregion
        have hview : ¬command.expectedEpoch.any (fun expected => expected ≠ peer.view.epoch) =
            true := hexpected
        rw [RegionView.changeBy, if_neg hview]
        rfl
    simp only [hregion] at h
    split at h
    · obtain ⟨stopped, hstopped, hpeer⟩ := map_eq_some_iff.1 h
      cases hpeer
      have : stopped.region = ({ peer with descriptor := region } : RegionPeer).region := by
        split at hstopped
        · rw [hstop _ _ hstopped, hretire]
        · cases hstopped
          rw [hretire]
      rw [← hchanged, ← this]
      rfl
    · cases h
      exact hchanged

/-- An execution that succeeds acts on the view and the table as the entry says. -/
lemma execute_region (h : peer.execute index op env = some (true, status, peer')) :
    peer'.region = ⟨peer.view.execute op.operation, if op.operation.marks then
      peer.lastRequestId.insert op.clientId op.requestId else peer.lastRequestId⟩ := by
  obtain ⟨operation, key, clientId, requestId⟩ := op
  unfold execute at h
  cases operation with
  | adminSplit command =>
    cases command with
    | none =>
      simp only [map_some, some.injEq, Prod.mk.injEq] at h
      rw [← h.2.2]
      rfl
    | some command =>
      obtain ⟨⟨result, applied⟩, happly, heq⟩ := map_eq_some_iff.1 h
      simp only [Prod.mk.injEq] at heq
      have hregion := applyAdminSplit_region happly
      rw [← heq.2.2]
      simp only [region, RegionState.mk.injEq] at hregion ⊢
      exact ⟨hregion.1, by simp [markRequest, marks, hregion.2]⟩
  | confChange command =>
    cases command with
    | none =>
      simp only [map_some, some.injEq, Prod.mk.injEq] at h
      rw [← h.2.2]
      rfl
    | some command =>
      obtain ⟨⟨result, applied⟩, happly, heq⟩ := map_eq_some_iff.1 h
      simp only [Prod.mk.injEq] at heq
      have hregion := applyConfChange_region happly
      rw [← heq.2.2]
      simp only [region, RegionState.mk.injEq] at hregion ⊢
      exact ⟨hregion.1, by simp [markRequest, marks, hregion.2]⟩
  | put value | append value | txnPreparedBatch prepared =>
    simp only at h
    split at h
    · simp only [some.injEq, Prod.mk.injEq] at h
      rw [← h.2.2]
      rfl
    · simp at h
  | unknown => simp at h
  | _ =>
    simp only [applyLegacy, some.injEq, Prod.mk.injEq] at h
    rw [← h.2.2]
    rfl

lemma executeDuplicate_region : (peer.executeDuplicate op env).2.region = peer.region := by
  unfold executeDuplicate
  cases op.operation <;> rfl

lemma execute_view (h : peer.execute index op env = some (false, status, peer')) :
    peer'.view = peer.view := by
  obtain ⟨operation, key, clientId, requestId⟩ := op
  unfold execute at h
  cases operation with
  | adminSplit command | confChange command =>
    obtain ⟨result, -, heq⟩ := map_eq_some_iff.1 h
    simp at heq
  | put value | append value | txnPreparedBatch prepared =>
    simp only at h
    split at h
    · simp at h
    · simp only [some.injEq, Prod.mk.injEq] at h
      obtain ⟨-, -, rfl⟩ := h
      rfl
  | get | txnGet payload | raftNoop => simp at h
  | unknown =>
    cases h
    rfl
  | _ =>
    simp only [applyLegacy, some.injEq, Prod.mk.injEq] at h
    rw [← h.2.2]
    rfl

lemma applyCommand_region (hindex : peer.lastSnapShotRaftLogIndex < index)
    (h : peer.applyCommand index op env = some (true, status, peer')) :
    peer'.region = regionStep peer.region op := by
  obtain ⟨applied, hget, rfl⟩ := applyCommand_eq h
  change applied.region = _
  unfold getCommandFromRaft at hget
  rw [if_neg (by omega)] at hget
  by_cases hduplicate : peer.ifRequestDuplicate op.clientId op.requestId = true
  · rw [if_pos hduplicate] at hget
    simp only [some.injEq, Prod.mk.injEq, true_and] at hget
    rw [← hget.2, executeDuplicate_region]
    exact (if_pos hduplicate).symm
  · rw [if_neg hduplicate] at hget
    rw [execute_region hget]
    exact (if_neg hduplicate).symm

lemma applyCommand_view_of_failed (h : peer.applyCommand index op env = some (false, status, peer')) :
    peer'.view = peer.view := by
  obtain ⟨applied, hget, rfl⟩ := applyCommand_eq h
  change applied.view = _
  unfold getCommandFromRaft at hget
  split at hget
  · simp at hget
  · split at hget
    · simp at hget
    · exact execute_view hget

/-- The background thread never touches the descriptor or the table. -/
lemma materializeSplitChild_region (peer : RegionPeer) (job : SplitJob) :
    (peer.materializeSplitChild job).region = peer.region := by
  unfold materializeSplitChild
  split <;> try rfl
  · dsimp only
    split <;> rfl

end

/-! ## Batches -/

/-- The operations that the batch path takes. -/
def Operation.isPrepared : Operation → Bool
  | .txnPrepared _ | .txnPreparedBatch _ => true
  | _ => false

/-- A batch that passes the request check marks its requests one after another; `staged` over
`last` is the table that the entries before have left. -/
lemma foldl_regionStep_of_stageRequests {last staged : ExtTreeMap Bytes Int32 compare}
    (table : ExtTreeMap Bytes Int32 compare) {ops : List Op}
    (hprepared : ∀ op ∈ ops, op.operation.isPrepared = true)
    (h : stageRequests last staged ops = true)
    (htable : ∀ client : Bytes, table[client]? = staged[client]?.or last[client]?)
    (view : RegionView) :
    ops.foldl regionStep ⟨view, table⟩ =
      ⟨view, ops.foldl (fun table op => table.insert op.clientId op.requestId) table⟩ := by
  induction ops generalizing staged table with
  | nil => rfl
  | cons op rest ih =>
    have hop : op.operation.isPrepared = true := hprepared op mem_cons_self
    have hview : view.execute op.operation = view ∧ op.operation.marks = true := by
      cases hoperation : op.operation <;> simp_all [isPrepared, RegionView.execute, marks]
    obtain ⟨hfresh, hrest, htable'⟩ := stageRequests_cons htable h
    have hstep : regionStep ⟨view, table⟩ op = ⟨view, table.insert op.clientId op.requestId⟩ := by
      simp only [regionStep, hfresh, Bool.false_eq_true, if_false, hview.1, hview.2, if_true]
    rw [foldl_cons, foldl_cons, hstep]
    exact ih _ (fun op hmem => hprepared op (mem_cons_of_mem _ hmem)) hrest htable'

variable {messages : List (ℕ × Op)}

lemma isPrepared_of_mapM {commands : List PreparedApplyCommand}
    (h : (messages.mapM fun m => preparedCommand m.1 m.2) = some commands) :
    ∀ op ∈ messages.map Prod.snd, op.operation.isPrepared = true := by
  intro op hop
  obtain ⟨message, hmessage, rfl⟩ := mem_map.1 hop
  obtain ⟨command, -, hcommand⟩ := exists_of_forall₂ (forall₂_of_mapM h).flip hmessage
  unfold preparedCommand at hcommand
  cases hoperation : message.2.operation <;> simp_all [isPrepared]

/-- A batch acts on the view and the table as its entries one after another. -/
lemma tryBatchApplyFromRaft_region {peer peer' : RegionPeer}
    {env : PeerEnv} (h : peer.tryBatchApplyFromRaft messages env = (true, peer')) :
    peer'.region = (messages.map Prod.snd).foldl regionStep peer.region := by
  obtain ⟨-, commands, hcommands, hstage, -, rfl⟩ := tryBatchApplyFromRaft_applied h
  exact (foldl_regionStep_of_stageRequests peer.lastRequestId (isPrepared_of_mapM hcommands)
    hstage (by simp) peer.view).symm

/-! ## Agreement -/

/-- No entry between two positions of the log may change the Region. -/
def SkipsNoChange (log : List Op) (n m : ℕ) : Prop :=
  ∀ op ∈ (log.take m).drop n, op.operation.changesRegion = false

instance (log : List Op) (n m : ℕ) : Decidable (SkipsNoChange log n m) :=
  inferInstanceAs (Decidable (∀ op ∈ _, _))

/-- A snapshot is installed only where it is not behind the replica and skips no `AdminSplit` and no
`ConfChange`. -/
def InstallsUnchanged (log : List Op) (group : Group) : GroupEvent → Prop
  | .install replica snapshot _ =>
    ∀ taken ∈ group.snapshots[snapshot]?, group.reflected replica ≤ taken.1 ∧
      SkipsNoChange log (group.reflected replica) taken.1
  | _ => True

instance (log : List Op) (group : Group) (event : GroupEvent) :
    Decidable (InstallsUnchanged log group event) := by
  unfold InstallsUnchanged
  cases event <;> infer_instance

section

variable {descriptor : RegionMetadata} {log : List Op} {group group' : Group}

lemma regionAfter_add (n count : ℕ) : regionAfter descriptor log (n + count) =
      ((log.drop n).take count).foldl regionStep (regionAfter descriptor log n) := by
  unfold regionAfter
  rw [take_add, foldl_append]

lemma foldl_regionStep_view {ops : List Op}
    (h : ∀ op ∈ ops, op.operation.changesRegion = false) (state : RegionState) :
    (ops.foldl regionStep state).view = state.view := by
  induction ops generalizing state with
  | nil => rfl
  | cons op rest ih =>
    rw [foldl_cons, ih fun op hop => h op (mem_cons_of_mem _ hop)]
    unfold regionStep
    split
    · rfl
    · exact state.view.execute_of_not_changesRegion (h op mem_cons_self)

/-- Positions with no change between them have the same view. -/
lemma regionAfter_view_of_skips {n m : ℕ} (hle : n ≤ m) (h : SkipsNoChange log n m) :
    (regionAfter descriptor log m).view = (regionAfter descriptor log n).view := by
  obtain ⟨count, rfl⟩ := Nat.exists_eq_add_of_le hle
  rw [regionAfter_add]
  refine foldl_regionStep_view ?_ _
  intro op hop
  refine h op ?_
  rw [drop_take]
  simpa using hop

/-- The view of a replica is that of the prefix it reflects; so is its table, unless its last apply
failed. -/
structure ReplicaInv (descriptor : RegionMetadata) (log : List Op) (peer : RegionPeer)
    (reflected : ℕ) : Prop where
  view : peer.view = (regionAfter descriptor log reflected).view
  table : peer.stateMachineHealthy = true →
    peer.lastRequestId = (regionAfter descriptor log reflected).lastRequestId
  snapshotIndex : peer.lastSnapShotRaftLogIndex ≤ reflected

structure GroupInv (descriptor : RegionMetadata) (log : List Op) (group : Group) : Prop where
  replica : ∀ r, ReplicaInv descriptor log (group.peer r) (group.reflected r)
  snapshots : ∀ taken ∈ group.snapshots,
    taken.2.lastRequestId = (regionAfter descriptor log taken.1).lastRequestId

lemma GroupInv.setPeer (hinv : GroupInv descriptor log group) {replica reflected : ℕ}
    {peer : RegionPeer} (h : ReplicaInv descriptor log peer reflected) :
    GroupInv descriptor log (group.setPeer replica peer reflected) where
  replica := by
    intro r
    by_cases hr : r = replica
    · subst hr
      simpa [Group.setPeer] using h
    · simpa [Group.setPeer, hr] using hinv.replica r
  snapshots := hinv.snapshots

namespace ReplicaInv

variable {peer peer' : RegionPeer} {reflected : ℕ} {op : Op} {env : PeerEnv} {status : OpStatus}

lemma region_eq (hinv : ReplicaInv descriptor log peer reflected)
    (hhealthy : peer.stateMachineHealthy = true) :
    peer.region = regionAfter descriptor log reflected := by
  have hview := hinv.view
  have htable := hinv.table hhealthy
  simp only [region, hview, htable]

lemma of_region (hregion : peer.region = regionAfter descriptor log reflected)
    (hindex : peer.lastSnapShotRaftLogIndex ≤ reflected) :
    ReplicaInv descriptor log peer reflected where
  view := congrArg RegionState.view hregion
  table := fun _ => congrArg RegionState.lastRequestId hregion
  snapshotIndex := hindex

section

variable (hinv : ReplicaInv descriptor log peer reflected)

include hinv

lemma apply (hhealthy : peer.stateMachineHealthy = true) (hop : log[reflected]? = some op)
    (h : peer.applyCommand (reflected + 1) op env = some (true, status, peer')) :
    ReplicaInv descriptor log peer' (reflected + 1) := by
  have hindex := hinv.snapshotIndex
  have hprogress := applyCommand_progress h
  simp only [progress, if_true, Prod.mk.injEq] at hprogress
  refine of_region ?_ (by omega)
  rw [applyCommand_region (by omega) h, hinv.region_eq hhealthy, regionAfter_add]
  obtain ⟨hlt, hget⟩ := List.getElem?_eq_some_iff.1 hop
  rw [drop_eq_getElem_cons hlt, hget]
  rfl

lemma apply_failed (h : peer.applyCommand (reflected + 1) op env = some (false, status, peer')) :
    ReplicaInv descriptor log peer' reflected := by
  have hprogress := applyCommand_progress h
  simp only [progress, Bool.false_eq_true, if_false, Prod.mk.injEq] at hprogress
  constructor
  · rw [applyCommand_view_of_failed h]
    exact hinv.view
  · intro hhealthy
    rw [hprogress.2.1] at hhealthy
    cases hhealthy
  · rw [hprogress.2.2]
    exact hinv.snapshotIndex

lemma applyBatch (hhealthy : peer.stateMachineHealthy = true) {count : ℕ}
    (h : peer.tryBatchApplyFromRaft (Group.nextMessages log reflected count) env = (true, peer')) :
    ReplicaInv descriptor log peer' (reflected + count) := by
  have hindex := hinv.snapshotIndex
  refine of_region ?_ ?_
  · rw [tryBatchApplyFromRaft_region h, hinv.region_eq hhealthy, regionAfter_add]
    congr 1
    simp [Group.nextMessages, Function.comp_def]
  · have hprogress := tryBatchApplyFromRaft_progress h
    simp only [progress, Prod.mk.injEq] at hprogress
    omega

/-- A step that touches neither the Region nor the progress. -/
lemma congr (hregion : peer'.region = peer.region) (hprogress : peer'.progress = peer.progress) :
    ReplicaInv descriptor log peer' reflected := by
  simp only [progress, Prod.mk.injEq] at hprogress
  simp only [region, RegionState.mk.injEq] at hregion
  constructor
  · rw [hregion.1]
    exact hinv.view
  · rw [hprogress.2.1, hregion.2]
    exact hinv.table
  · rw [hprogress.2.2]
    exact hinv.snapshotIndex

/-- A snapshot replaces the table; the view stays, and is the right one if nothing was skipped. -/
lemma install {index : ℕ}
    {payload : SnapshotPayload} (hle : reflected ≤ index) (hskips : SkipsNoChange log reflected index)
    (htable : payload.lastRequestId = (regionAfter descriptor log index).lastRequestId)
    (hok : env.engineOk = true) :
    ReplicaInv descriptor log (peer.getSnapShotFromRaft index payload env) index := by
  refine of_region ?_ ?_
  · have hview : peer.view = (regionAfter descriptor log index).view := by
      rw [regionAfter_view_of_skips hle hskips]
      exact hinv.view
    simp only [getSnapShotFromRaft, hok, Bool.not_true, Bool.false_eq_true, if_false]
    rw [show regionAfter descriptor log index =
      ⟨(regionAfter descriptor log index).view, (regionAfter descriptor log index).lastRequestId⟩
      from rfl, ← hview, ← htable]
    rfl
  · simp [getSnapShotFromRaft, hok, advanceStateMachineApplied]

end

end ReplicaInv

lemma groupInv_create : GroupInv descriptor log (Group.create descriptor) where
  replica := fun _ => .of_region rfl (Nat.le_refl 0)
  snapshots := by simp [Group.create]

lemma GroupInv.next {event : GroupEvent} (hinv : GroupInv descriptor log group)
    (hguard : InstallsUnchanged log group event) (h : group.next log event = some group') :
    GroupInv descriptor log group' := by
  cases event with
  | apply replica env =>
    obtain ⟨hhealthy, op, succeeded, status, peer, hop, happly, rfl⟩ := Group.next_apply h
    cases succeeded with
    | true => exact hinv.setPeer ((hinv.replica replica).apply hhealthy hop happly)
    | false => exact hinv.setPeer ((hinv.replica replica).apply_failed happly)
  | applyBatch replica count env =>
    obtain ⟨hhealthy, -, rfl⟩ := Group.next_applyBatch h
    generalize hbatch : (group.peer replica).tryBatchApplyFromRaft
      (Group.nextMessages log (group.reflected replica) count) env = result
    obtain ⟨applied, peer⟩ := result
    cases applied with
    | true => exact hinv.setPeer ((hinv.replica replica).applyBatch hhealthy hbatch)
    | false =>
      refine hinv.setPeer ((hinv.replica replica).congr ?_
        (tryBatchApplyFromRaft_progress_of_refused hbatch))
      rcases tryBatchApplyFromRaft_refused hbatch with rfl | ⟨commands, -, -, rfl⟩ <;> rfl
  | materialize replica =>
    obtain ⟨job, -, heq⟩ := map_eq_some_iff.1 h
    rw [← heq]
    exact hinv.setPeer ((hinv.replica replica).congr (materializeSplitChild_region _ job)
      (materializeSplitChild_frame _ job).2)
  | capture replica =>
    obtain ⟨hhealthy, rfl⟩ := Group.next_capture h
    refine ⟨hinv.replica, ?_⟩
    intro taken htaken
    rcases mem_append.1 htaken with htaken | htaken
    · exact hinv.snapshots taken htaken
    · rw [mem_singleton.1 htaken]
      exact (hinv.replica replica).table hhealthy
  | install replica snapshot env =>
    obtain ⟨taken, htaken, hok, rfl⟩ := Group.next_install h
    obtain ⟨hle, hskips⟩ := hguard taken htaken
    rw [Nat.max_eq_right hle]
    refine hinv.setPeer ((hinv.replica replica).install hle hskips ?_ hok)
    exact hinv.snapshots _ (mem_of_getElem? htaken)

lemma groupInv_of_reachable
    (h : (groupSystem descriptor log).Reachable (InstallsUnchanged log) group) :
    GroupInv descriptor log group := by
  refine h.invariant ?_ ?_
  · intro group hinit
    rw [show group = Group.create descriptor from hinit]
    exact groupInv_create
  · intro group event group' hinv hguard hstep
    exact hinv.next hguard hstep

/-- While no installed snapshot is behind its replica or skips an `AdminSplit` or `ConfChange` entry,
replicas that reflect the same prefix of the log have the same range, epoch and peers. -/
theorem view_eq_of_installsUnchanged (descriptor : RegionMetadata) (log : List Op) (group : Group)
    (h : (groupSystem descriptor log).Reachable (InstallsUnchanged log) group) (r s : ℕ)
    (hrs : group.reflected r = group.reflected s) : (group.peer r).view = (group.peer s).view := by
  have hinv := groupInv_of_reachable h
  calc (group.peer r).view
      = (regionAfter descriptor log (group.reflected r)).view := (hinv.replica r).view
    _ = (regionAfter descriptor log (group.reflected s)).view := by rw [hrs]
    _ = (group.peer s).view := (hinv.replica s).view.symm

end

/-! ## Runs -/

def sampleDescriptor : RegionMetadata where
  regionId := 1
  peers := [{ nodeId := 0, peerId := 1 }, { nodeId := 1, peerId := 2 }]

/-- A peer is added as a learner, then a raw key is written. -/
def learnerLog : List Op :=
  [{ operation := .confChange (some { changeType := .addLearner, peer := { peerId := 3 } })
     clientId := ascii "conf-change", requestId := 1 },
    { operation := .put (ascii "v"), key := ascii "k", clientId := ascii "c", requestId := 1 }]

/-- The second replica applies the change and takes the write from a snapshot of the first. -/
theorem view_eq_learnerLog :
    ∃ group, (groupSystem sampleDescriptor learnerLog).Reachable (InstallsUnchanged learnerLog)
        group ∧ group.reflected 0 = 2 ∧ group.reflected 1 = 2 ∧
      (group.peer 0).view = (group.peer 1).view := by
  have hrun : Ends (Group.next learnerLog) (InstallsUnchanged learnerLog)
      (fun group => group.reflected 0 = 2 ∧ group.reflected 1 = 2)
      (Group.create sampleDescriptor)
      [.apply 0 ⟨⟨0, true⟩, 0⟩, .apply 0 ⟨⟨0, true⟩, 0⟩, .capture 0, .apply 1 ⟨⟨0, true⟩, 0⟩,
        .install 1 0 ⟨⟨0, true⟩, 0⟩] := by
    decide
  obtain ⟨group, hreach, h0, h1⟩ := hrun.exists_reachable
  exact ⟨group, hreach, h0, h1,
    view_eq_of_installsUnchanged _ _ group hreach 0 1 (h0.trans h1.symm)⟩

/-- The Region is split at `m`. -/
def splitLog : List Op :=
  [{ operation := .adminSplit (some
       { splitKey := ascii "m", metadataRevision := 2
         parent := { regionId := 1, epoch := ⟨1, 1⟩ }
         child := { regionId := 2, startKey := ascii "m", epoch := ⟨1, 1⟩ } })
     clientId := ascii "admin-split", requestId := 1 }]

/-- A replica that takes the split from a snapshot keeps the range and epoch from before it. -/
theorem view_differs_after_snapshot :
    ¬∀ (descriptor : RegionMetadata) (log : List Op) (group : Group),
      (groupSystem descriptor log).Reachable TransitionSystem.anyStep group →
        ∀ r s, group.reflected r = group.reflected s →
          (group.peer r).view = (group.peer s).view := by
  intro h
  have hrun : Ends (Group.next splitLog) anyStep
      (fun group => group.reflected 0 = group.reflected 1 ∧
        (group.peer 0).view ≠ (group.peer 1).view)
      (Group.create sampleDescriptor)
      [.apply 0 ⟨⟨0, true⟩, 0⟩, .capture 0, .install 1 0 ⟨⟨0, true⟩, 0⟩] := by
    decide
  obtain ⟨group, hreach, hsame, hview⟩ := hrun.exists_reachable
  exact hview (h _ _ group hreach 0 1 hsame)

end StrataKV.Region
