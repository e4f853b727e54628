import StrataKV.Metadata.Encoding
import StrataKV.Metadata.Marks
import StrataKV.Metadata.Operators
import StrataKV.Metadata.Rejected

/-!
# Snapshots that can be restored

`Restore` checks more than the handlers guarantee: every peer of a Region must be on a registered
Store with the same endpoint, every Region and every child of a pending split must be read back from
its descriptor as it was, the index of the running operators must be the one that their phases
determine. `Restorable` collects what `Restore` checks and recomputes; from such a state the snapshot
gives back the state. The steps that lead to such states only are `RestorableStep`.
-/

namespace StrataKV.Metadata

open Std (ExtTreeMap)
open MetadataState RegionMetadata OrdMap MetadataSnapshot Option Bool

variable {σ τ : MetadataState} {command : MetadataCommand}

/-! ## The records of the mutations -/

/-- The table has exactly the mutations of the order, each under its id. -/
structure Recorded (σ : MetadataState) : Prop where
  nodup : σ.dedupOrder.Nodup
  found : ∀ mutationId ∈ σ.dedupOrder, ∃ record, σ.dedup[mutationId]? = some record
  listed : ∀ (mutationId : Bytes) (record : MutationRecord), σ.dedup[mutationId]? = some record →
    mutationId ∈ σ.dedupOrder ∧ record.mutationId = mutationId ∧ mutationId ≠ []

namespace Recorded

lemma congr (h : Recorded σ) (hdedup : τ.dedup = σ.dedup) (horder : τ.dedupOrder = σ.dedupOrder) :
    Recorded τ := by
  refine ⟨?_, ?_, ?_⟩
  · rw [horder]
    exact h.nodup
  · rw [horder, hdedup]
    exact h.found
  · rw [horder, hdedup]
    exact h.listed

lemma record (h : Recorded σ) {mutationId : Bytes} (hnamed : mutationId ≠ [])
    (hnew : σ.dedup[mutationId]? = none) (result : MetadataCommandResult) :
    Recorded (σ.recordResultLocked mutationId result) := by
  have hfresh : mutationId ∉ σ.dedupOrder := by
    intro hmem
    obtain ⟨record, hget⟩ := h.found mutationId hmem
    rw [hnew] at hget
    cases hget
  have hnodup : (σ.dedupOrder ++ [mutationId]).Nodup := by
    rw [List.nodup_append]
    refine ⟨h.nodup, List.nodup_singleton _, ?_⟩
    rintro id hid _ hmem rfl
    exact hfresh (List.mem_singleton.1 hmem ▸ hid)
  dsimp only [recordResultLocked]
  generalize (σ.dedupOrder ++ [mutationId]).length - kDedupRetention = excess
  -- the table is what was there before, the new record, and without the forgotten ones
  have hget (id : Bytes) (hid : id ∈ (σ.dedupOrder ++ [mutationId]).drop excess) :
      id ∉ (σ.dedupOrder ++ [mutationId]).take excess := by
    rw [← List.take_append_drop excess (σ.dedupOrder ++ [mutationId])] at hnodup
    intro hmem
    exact (List.nodup_append.1 hnodup).2.2 id hmem id hid rfl
  refine ⟨hnodup.sublist (List.drop_sublist _ _), ?_, ?_⟩
  · intro id hid
    rw [getElem?_foldl_erase, if_neg (hget id hid), getElem?_insert]
    split_ifs with hne
    · exact ⟨_, rfl⟩
    · rcases List.mem_append.1 (List.mem_of_mem_drop hid) with hold | hnew
      · exact h.found id hold
      · exact absurd (List.mem_singleton.1 hnew).symm hne
  · intro id record hrecord
    rw [getElem?_foldl_erase] at hrecord
    split_ifs at hrecord with hkept
    have hdrop (hmem : id ∈ σ.dedupOrder ++ [mutationId]) :
        id ∈ (σ.dedupOrder ++ [mutationId]).drop excess := by
      rw [← List.take_append_drop excess (σ.dedupOrder ++ [mutationId])] at hmem
      exact (List.mem_append.1 hmem).resolve_left hkept
    rcases insert_cases hrecord with ⟨rfl, rfl⟩ | hrecord
    · exact ⟨hdrop (by simp), rfl, hnamed⟩
    · obtain ⟨hmem, hid⟩ := h.listed id record hrecord
      exact ⟨hdrop (List.mem_append_left _ hmem), hid⟩

/-- The records, written in the order of the mutations, give table and order back. -/
lemma collect_recent (h : Recorded σ) (message : String) :
    collect MutationRecord.mutationId validMutation message
        (σ.dedupOrder.filterMap fun mutationId => σ.dedup[mutationId]?) = .ok σ.dedup ∧
      (σ.dedupOrder.filterMap fun mutationId => σ.dedup[mutationId]?).map
        MutationRecord.mutationId = σ.dedupOrder := by
  have horder (order : List Bytes)
      (horder : ∀ mutationId ∈ order, ∃ record, σ.dedup[mutationId]? = some record) :
      (order.filterMap fun mutationId => σ.dedup[mutationId]?).map MutationRecord.mutationId =
        order := by
    induction order with
    | nil => rfl
    | cons mutationId rest ih =>
      obtain ⟨⟨record, hget⟩, hrest⟩ := List.forall_mem_cons.1 horder
      rw [List.filterMap_cons, hget]
      rw [List.map_cons, ih hrest, (h.listed mutationId record hget).2.1]
  have hids := horder σ.dedupOrder h.found
  have hmem {record : MutationRecord}
      (hrecord : record ∈ σ.dedupOrder.filterMap fun mutationId => σ.dedup[mutationId]?) :
      σ.dedup[record.mutationId]? = some record := by
    obtain ⟨mutationId, -, hget⟩ := List.mem_filterMap.1 hrecord
    rw [(h.listed mutationId record hget).2.1, hget]
  refine ⟨?_, hids⟩
  obtain ⟨collected, hcollected⟩ : ∃ collected, emplaceAll MutationRecord.mutationId validMutation ∅
        (σ.dedupOrder.filterMap fun mutationId => σ.dedup[mutationId]?) = some collected := by
    have hnodup := h.nodup
    rw [← hids] at hnodup
    refine emplaceAll_isSome ?_ hnodup (by simp)
    intro record hrecord
    exact decide_eq_true (h.listed _ record (hmem hrecord)).2.2
  unfold collect
  rw [hcollected]
  refine congrArg Except.ok (ExtTreeMap.ext_getElem? fun mutationId => ext fun record => ?_)
  rw [getElem?_emplaceAll hcollected]
  constructor
  · rintro (hempty | ⟨hrecord, hid⟩)
    · simp at hempty
    · rw [← hid]
      exact hmem hrecord
  · intro hget
    obtain ⟨hlisted, hid, -⟩ := h.listed mutationId record hget
    exact .inr ⟨List.mem_filterMap.2 ⟨mutationId, hlisted, hget⟩, hid⟩

end Recorded

/-! ## The operators -/

lemma addOperators_isOk {revision : UInt64} {added : List SchedulingOperator}
    {operators : ExtTreeMap Bytes SchedulingOperator compare}
    {active : ExtTreeMap UInt64 Bytes compare}
    (hvalid : ∀ operator ∈ added, operator.operatorId ≠ [] ∧ operator.regionId ≠ 0 ∧
      operator.sourceRevision ≤ revision)
    (hapart : added.Pairwise fun a b => a.operatorId ≠ b.operatorId ∧
      (isTerminal a.phase = false → isTerminal b.phase = false → a.regionId ≠ b.regionId))
    (hfree : ∀ operator ∈ added, operators[operator.operatorId]? = none)
    (hidle : ∀ operator ∈ added, isTerminal operator.phase = false →
      active[operator.regionId]? = none) :
    ∃ maps, addOperators revision operators active added = .ok maps := by
  induction added generalizing operators active with
  | nil => exact ⟨_, rfl⟩
  | cons first rest ih =>
    obtain ⟨hfirst, hrest⟩ := List.forall_mem_cons.1 hvalid
    obtain ⟨hapartFirst, hapartRest⟩ := List.pairwise_cons.1 hapart
    obtain ⟨hfreeFirst, hfreeRest⟩ := List.forall_mem_cons.1 hfree
    obtain ⟨hidleFirst, hidleRest⟩ := List.forall_mem_cons.1 hidle
    have hfreeNext : ∀ operator ∈ rest,
        (operators.insert first.operatorId first)[operator.operatorId]? = none := by
      intro operator hmem
      rw [getElem?_insert, if_neg (hapartFirst operator hmem).1, hfreeRest operator hmem]
    rw [addOperators, if_neg]
    · dsimp only
      split
      · exact ih hrest hapartRest hfreeNext hidleRest
      rename_i hrunning
      have hrunning : isTerminal first.phase = false := by simpa using hrunning
      rw [(contains_eq_false_iff _ _).2 (hidleFirst hrunning), if_neg (by decide)]
      refine ih hrest hapartRest hfreeNext ?_
      intro operator hmem hphase
      rw [getElem?_insert, if_neg ((hapartFirst operator hmem).2 hrunning hphase),
        hidleRest operator hmem hphase]
    · rintro (hid | hregion | hrevision | htaken)
      · exact hfirst.1 hid
      · exact hfirst.2.1 hregion
      · exact absurd hfirst.2.2 (Std.not_le.2 hrevision)
      · rw [(contains_eq_false_iff _ _).2 hfreeFirst] at htaken
        cases htaken

/-- The fields of an operator that a restore checks. -/
def OperatorKnown (σ : MetadataState) (operatorId : Bytes) (operator : SchedulingOperator) : Prop :=
  operator.operatorId = operatorId ∧ operatorId ≠ [] ∧ operator.regionId ≠ 0 ∧
    operator.sourceRevision ≤ σ.revision

lemma ActiveExact.addOperators (h : ActiveExact σ.schedulingOperators σ.activeOperatorByRegion)
    (hknown : ∀ (operatorId : Bytes) (operator : SchedulingOperator),
      σ.schedulingOperators[operatorId]? = some operator → OperatorKnown σ operatorId operator) :
    MetadataSnapshot.addOperators σ.revision ∅ ∅ (σ.schedulingOperators.toList.map Prod.snd) =
      .ok (σ.schedulingOperators, σ.activeOperatorByRegion) := by
  have hget {item : Bytes × SchedulingOperator} (hitem : item ∈ σ.schedulingOperators.toList) :
      σ.schedulingOperators[item.1]? = some item.2 :=
    ExtTreeMap.mem_toList_iff_getElem?_eq_some.1 hitem
  obtain ⟨⟨operators, active⟩, hok⟩ : ∃ maps, MetadataSnapshot.addOperators σ.revision ∅ ∅
      (σ.schedulingOperators.toList.map Prod.snd) = .ok maps := by
    refine addOperators_isOk ?_ ?_ (by simp) (by simp)
    · intro operator hmem
      obtain ⟨item, hitem, rfl⟩ := List.mem_map.1 hmem
      obtain ⟨hid, hnamed, hregion, hrevision⟩ := hknown item.1 item.2 (hget hitem)
      exact ⟨hid ▸ hnamed, hregion, hrevision⟩
    · rw [List.pairwise_map]
      refine ExtTreeMap.ordered_keys_toList.imp_of_mem ?_
      intro a b ha hb hlt
      have hne : a.1 ≠ b.1 := by
        intro heq
        rw [heq] at hlt
        simp at hlt
      refine ⟨?_, fun hrunning hrunning' hregion => ?_⟩
      · rw [(hknown a.1 a.2 (hget ha)).1, (hknown b.1 b.2 (hget hb)).1]
        exact hne
      · exact hne (h.unique (hget ha) (hget hb) hrunning hrunning' hregion)
  have hoperators : operators = σ.schedulingOperators := by
    refine ExtTreeMap.ext_getElem? fun operatorId => ext fun operator => ?_
    rw [MetadataSnapshot.getElem?_addOperators hok, List.mem_map]
    constructor
    · rintro (hempty | ⟨⟨item, hitem, rfl⟩, hid⟩)
      · simp at hempty
      · rw [← hid, (hknown item.1 item.2 (hget hitem)).1]
        exact hget hitem
    · intro hoperator
      refine .inr ⟨⟨(operatorId, operator), ?_, rfl⟩, (hknown operatorId operator hoperator).1⟩
      exact ExtTreeMap.mem_toList_iff_getElem?_eq_some.2 hoperator
  have hexact := MetadataSnapshot.addOperators_exact hok ActiveExact.empty
  have hactive : active = σ.activeOperatorByRegion := by
    refine ExtTreeMap.ext_getElem? fun regionId => ext fun operatorId => ?_
    rw [hexact regionId operatorId, h regionId operatorId, hoperators]
  rw [hok, hoperators, hactive]

/-! ## States that can be restored -/

lemma ok_bind {α β : Type} (a : α) (f : α → Except String β) : (Except.ok a >>= f) = f a := rfl

/-- The Region is read back as it was, and its peers are at the endpoints of their Stores. -/
structure RegionMetadata.Known (stores : ExtTreeMap UInt64 StoreDescriptor compare)
    (region : RegionMetadata) : Prop where
  encodable : region.Encodable
  hosted : ∀ peer ∈ region.peers, peerMatches stores peer = true

/-- What `Restore` checks of the members other than the operators and the records. -/
structure Checked (σ : MetadataState) : Prop where
  covered : Covered σ
  digest : σ.revision ≠ 0 → σ.bootstrapDigest ≠ []
  unheard : σ.revision = 0 → σ.storeHeartbeats = ∅
  regions : ∀ region ∈ σ.regions, region.Known σ.stores
  stores : ∀ (storeId : UInt64) (store : StoreDescriptor), σ.stores[storeId]? = some store →
    store.storeId = storeId ∧ store.valid = true
  migrations : ∀ (regionId : UInt64) (migration : ReplicaMigrationStatus),
    σ.migrations[regionId]? = some migration →
      migration.regionId = regionId ∧ MetadataSnapshot.validMigration migration = true
  heartbeats : ∀ (storeId : UInt64) (heartbeat : StoreHeartbeat),
    σ.storeHeartbeats[storeId]? = some heartbeat →
      heartbeat.storeId = storeId ∧ MetadataSnapshot.validHeartbeat σ.stores heartbeat = true
  config : MetadataSnapshot.validConfig σ.balancerConfig = true

/-- What `Restore` checks of a snapshot, on the state that was written into it. -/
structure Restorable (σ : MetadataState) : Prop where
  topology : Inv σ
  checked : Checked σ
  active : ActiveExact σ.schedulingOperators σ.activeOperatorByRegion
  operators : ∀ (operatorId : Bytes) (operator : SchedulingOperator),
    σ.schedulingOperators[operatorId]? = some operator → OperatorKnown σ operatorId operator
  recorded : Recorded σ
  published : σ.revision ≠ 0 → σ.published = σ.viewOf (some σ.regions)

lemma collect_toList {κ β : Type} [Ord κ] [Std.TransOrd κ] [Std.LawfulEqOrd κ]
    {m : ExtTreeMap κ β compare} {key : β → κ} {valid : β → Bool} (message : String)
    (h : ∀ (k : κ) (b : β), m[k]? = some b → key b = k ∧ valid b = true) :
    collect key valid message (m.toList.map Prod.snd) = .ok m := by
  unfold collect
  rw [emplaceAll_toList h]

namespace Restorable

/-- The checks pass, and the members that are assigned are those of the state. -/
lemma restored_eq (h : Restorable σ) (hboot : σ.revision ≠ 0) (ρ : MetadataState) :
    ρ.restored σ.snapshot = .ok { σ with published := ρ.published } := by
  have hpositive : 0 < σ.revision := by grind
  have hregions : decodeRegions (σ.regions.map toProtoRegion) = .ok σ.regions :=
    decodeRegions_map_toProtoRegion fun region hr => (h.checked.regions region hr).encodable
  have hcatalog : validateRegions σ.revision σ.regions = .ok () := by
    unfold validateRegions
    rw [if_pos hpositive, (h.topology.catalog hboot).regionCatalog_eq]
    rfl
  have hdigest : σ.bootstrapDigest.isEmpty = false := by simpa using h.checked.digest hboot
  have hhosted : (σ.regions.all fun region => region.peers.all (peerMatches σ.stores)) = true := by
    simp only [List.all_eq_true]
    exact fun region hr => (h.checked.regions region hr).hosted
  obtain ⟨hdedup, horder⟩ := h.recorded.collect_recent "invalid mutation record in metadata snapshot"
  unfold restored snapshot
  simp only [hregions, hcatalog, collect_toList _ h.checked.stores, hhosted, hdedup, horder,
    collect_toList _ h.checked.migrations, collect_toList _ h.checked.heartbeats,
    getD_some, h.checked.config, h.active.addOperators h.operators, hdigest, require, hboot,
    ok_bind, decide_true, if_true,
    ne_eq, not_false_eq_true, Bool.true_or, Bool.not_false, Bool.or_true]
  rfl

theorem restore_eq (h : Restorable σ) (hboot : σ.revision ≠ 0) (ρ : MetadataState) :
    ρ.restore σ.snapshot = (none, σ) := by
  have hcovered : Covered { σ with published := ρ.published } :=
    h.checked.covered.mono (.of_eq rfl rfl rfl) rfl rfl rfl
  have hcore : Core { σ with published := ρ.published } :=
    h.topology.toCore.untouched rfl rfl rfl rfl
  obtain ⟨catalog, hpublish, hview⟩ := hcore.publish accept
  unfold restore
  rw [h.restored_eq hboot ρ]
  dsimp only
  rw [hcovered.recompute_eq, hpublish, hview hboot]
  refine Prod.ext rfl ?_
  show { σ with published := σ.viewOf (some σ.regions) } = σ
  rw [← h.published hboot]

end Restorable

/-! ## Steps to states that can be restored -/

/-- The endpoint that a descriptor gives for its Store is the registered one. -/
def EndpointKnown (stores : ExtTreeMap UInt64 StoreDescriptor compare) (peer : PeerDescriptor) :
    Prop :=
  ∃ store ∈ stores[peer.storeId]?, store.host = peer.host ∧ store.port = peer.port

/-- The command does not separate a peer from the endpoint of its Store, and the Region ids that it
puts in can be written into a descriptor. -/
def KeepsEndpoints (σ : MetadataState) (command : MetadataCommand) : Prop :=
  match command.operation with
  | .putStore store =>
    ∀ region ∈ σ.regions, ∀ peer ∈ region.peers, peer.storeId = store.storeId →
      store.host = peer.host ∧ store.port = ofShort peer.port
  | .replaceRegions _ addRegions =>
    ∀ descriptor ∈ addRegions, ∀ peer ∈ descriptor.peers, EndpointKnown σ.stores peer
  | .prepareSplit .. => σ.regionIdHighWater < intMax
  | .commitSplit regionId =>
    ∀ parent ∈ σ.findParent regionId, ∀ pending ∈ parent.splitPending,
      pending.2.regionId ≠ 0 ∧ ∀ peer ∈ pending.2.peers, peerMatches σ.stores peer = true
  | .commitMovePeer regionId _ _ =>
    ∀ migration ∈ σ.migrations[regionId]?, migration.targetPeer.storeId ≤ intMax ∧
      peerMatches σ.stores (targetLocation migration.targetPeer false) = true
  | _ => True

def RestorableStep (σ : MetadataState) (command : MetadataCommand) : Prop :=
  AtomicStep σ command ∧ UpdateInTime σ command ∧ KeepsEndpoints σ command

lemma peerMatches_iff {stores : ExtTreeMap UInt64 StoreDescriptor compare}
    {peer : RegionPeerLocation} :
    peerMatches stores peer = true ↔ EndpointKnown stores (toProtoPeer peer) := by
  unfold peerMatches EndpointKnown toProtoPeer
  rw [any_eq_true]
  simp

namespace RegionMetadata.Known

variable {stores : ExtTreeMap UInt64 StoreDescriptor compare} {region other : RegionMetadata}

/-- Only the id, the peers and the pending split matter. -/
lemma congr (h : region.Known stores) (hid : other.regionId = region.regionId)
    (hpeers : other.peers = region.peers)
    (hpending : other.splitPending = region.splitPending ∨ other.splitPending = none) :
    other.Known stores := by
  refine ⟨⟨h.encodable.decodes.congr hid hpeers hpending, ?_⟩, ?_⟩
  · rw [hid]
    exact h.encodable.id
  · rw [hpeers]
    exact h.hosted

variable {regions : List RegionMetadata}

lemma stamped (h : ∀ region ∈ regions, region.Known stores) (revision : UInt64) :
    ∀ region ∈ regions.map fun region => region.stamped revision, region.Known stores :=
  List.forall_mem_map.2 fun old hold => (h old hold).congr rfl rfl (.inl rfl)

lemma validated {candidates regions : List RegionMetadata}
    (hcandidates : ∀ region ∈ candidates, region.Identified)
    (hvalid : regionCatalog candidates = .ok regions)
    (h : ∀ region ∈ candidates, region.Known stores) : ∀ region ∈ regions, region.Known stores := by
  intro region hregion
  obtain ⟨old, hold, rfl⟩ := mem_regionCatalog hcandidates hvalid hregion
  exact (h old hold).congr rfl rfl (.inl rfl)

/-- The parent of a split that was prepared with an id that fits. -/
lemma marked (h : region.Known stores) {splitKey : Bytes} {childId highWater mark : UInt64}
    {peers : List RegionPeerLocation} (hchild : childId ≤ intMax)
    (hplaced : childPeers highWater region.peers = (some peers, mark)) :
    (marked region splitKey (splitChild region splitKey childId peers)).Known
      stores := by
  obtain ⟨hid, hpeers, -⟩ := decodes_iff.1 h.encodable.decodes
  refine ⟨⟨decodes_iff.2 ⟨hid, hpeers, ?_⟩, h.encodable.id⟩, h.hosted⟩
  rintro _ _ ⟨⟩
  refine decodes_iff.2 ⟨?_, ?_, by simp [splitChild]⟩
  · show ¬toInt childId < 0
    rw [← ofInt_le_intMax, ofInt_toInt hchild]
    exact hchild
  · intro peer hpeer
    obtain ⟨old, hold, peerId, hne, rfl⟩ := mem_childPeers hplaced hpeer
    exact (hpeers old hold).withPeerId hne

lemma moved (h : region.Known stores) {migration : ReplicaMigrationStatus}
    (hfits : TargetFits regions migration)
    (hnamed : TargetNamed migration) (hnode : migration.targetPeer.storeId ≤ intMax)
    (hhosted : peerMatches stores (targetLocation migration.targetPeer false) = true) :
    (moved region migration).Known stores := by
  obtain ⟨hid, hpeers, hpending⟩ := decodes_iff.1 h.encodable.decodes
  refine ⟨⟨decodes_iff.2 ⟨hid, ?_, hpending⟩, h.encodable.id⟩, ?_⟩
  · intro peer hpeer
    rcases mem_updateFirst hpeer with hold | ⟨-, -, -, rfl⟩
    · exact hpeers peer hold
    · obtain ⟨hport, hmax⟩ := ofShort_of_pos hfits.port
      exact RegionPeerLocation.decodes_iff.2 ⟨⟨hnamed.1, hnamed.2.2⟩, hport, hmax, (if_pos hnode).symm⟩
  · intro peer hpeer
    rcases mem_updateFirst hpeer with hold | ⟨-, -, -, rfl⟩
    · exact h.hosted peer hold
    · exact hhosted

end RegionMetadata.Known

/-! ### The other members -/

namespace Checked

variable (hσ : Checked σ)

include hσ

/-- A migration that is started names its Region, the peer it moves and a fresh peer. -/
lemma validMigration_started (hinv : Inv σ) {regionId fromStoreId toStoreId newPeerId : UInt64}
    {region : RegionMetadata} {source : RegionPeerLocation} {targetStore : StoreDescriptor}
    {mutationId : Bytes} (hfound : σ.regions.find? (hasId regionId) = some region)
    (hhosts : region.peers.find? (fun peer => peer.storeId = fromStoreId) = some source)
    (hallocated : safeAdd σ.peerIdHighWater 1 = some newPeerId) :
    validMigration (startedMigration mutationId regionId fromStoreId source
      targetStore toStoreId newPeerId) = true := by
  have hregion := List.mem_of_find?_eq_some hfound
  have hid : ofInt region.regionId = regionId := by simpa [hasId] using List.find?_some hfound
  simp only [validMigration, startedMigration, and_eq_true]
  refine ⟨⟨decide_eq_true ?_, decide_eq_true ?_⟩, decide_eq_true (safeAdd_one_ne_zero hallocated)⟩
  · intro hzero
    refine (hσ.regions _ hregion).encodable.id ?_
    rw [← toInt_ofInt region.regionId, hid, hzero]
    rfl
  · exact ((hinv.identified _ hregion).hasIds _ (List.mem_of_find?_eq_some hhosts)).2

/-- A heartbeat of a Store that is registered stays valid when another Store is registered. -/
lemma heartbeats_putStore (store : StoreDescriptor) {storeId : UInt64} {heartbeat : StoreHeartbeat}
    (hget : σ.storeHeartbeats[storeId]? = some heartbeat) : heartbeat.storeId = storeId ∧
      validHeartbeat (σ.stores.insert store.storeId store) heartbeat = true := by
  obtain ⟨hid, hheartbeat⟩ := hσ.heartbeats storeId heartbeat hget
  refine ⟨hid, ?_⟩
  simp only [validHeartbeat, and_eq_true] at hheartbeat ⊢
  exact ⟨hheartbeat.1, by simp [ExtTreeMap.contains_insert, hheartbeat.2]⟩

end Checked

/-- A heartbeat that the machine takes passes the weaker check of a restore. -/
lemma validHeartbeat_of_valid {stores : ExtTreeMap UInt64 StoreDescriptor compare}
    {heartbeat : StoreHeartbeat} (regions : List RegionSchedulingObservation)
    (hvalid : heartbeat.invalid = false) (hknown : stores.contains heartbeat.storeId = true) :
    validHeartbeat stores { heartbeat with regions := regions } = true := by
  simp only [StoreHeartbeat.invalid, or_eq_false_iff, decide_eq_false_iff_not] at hvalid
  simp only [validHeartbeat, and_eq_true, decide_eq_true_eq]
  exact ⟨⟨⟨hvalid.1.1.1.1.1, hvalid.1.1.1.1.2⟩, Std.not_le.1 hvalid.1.1.2⟩, hknown⟩

/-- So does a configuration. -/
lemma validConfig_of_valid {config : AutoBalancerConfig} {version : UInt64}
    (hvalid : config.invalid version = false) : validConfig config = true := by
  simp only [AutoBalancerConfig.invalid, or_eq_false_iff, decide_eq_false_iff_not] at hvalid
  simp only [validConfig, and_eq_true, decide_eq_true_eq]
  grind

namespace MetadataState.Installs

variable {answer : MetadataState → MetadataCommandResult}

section

variable (h : Installs σ command τ answer)

include h

lemma regions_known (hσ : ∀ region ∈ σ.regions, region.Known σ.stores) (hinv : Inv σ)
    (hstep : RestorableStep σ command) : ∀ region ∈ τ.regions, region.Known τ.stores := by
  obtain ⟨⟨⟨-, hmove⟩, -⟩, -, hkeeps⟩ := hstep
  rw [KeepsEndpoints] at hkeeps
  cases h with
  | bootstrap _ _ _ hdecoded hvalid _ hendpoints =>
    refine Known.stamped (fun region hregion => ⟨?_, hendpoints region hregion⟩) _
    obtain ⟨old, hold, rfl⟩ :=
      mem_regionCatalog (stamped_identified (decodeRegions_identified hdecoded)) hvalid hregion
    obtain ⟨candidate, hcandidate, rfl⟩ := List.mem_map.1 hold
    have hencodable := decodeRegions_encodable hdecoded candidate hcandidate
    exact ⟨hencodable.decodes.congr rfl rfl (.inl rfl), hencodable.id⟩
  | replaceRegions hop _ htaken hdecoded _ hvalid =>
    rw [hop] at hkeeps
    refine Known.stamped (Known.validated (hinv.replaced htaken hdecoded _) hvalid ?_) _
    intro region hregion
    rcases List.mem_append.1 hregion with hregion | hregion
    · exact hσ region ((takeRemoved_perm htaken).mem_iff.1 (List.mem_append_right _ hregion))
    · refine Known.stamped (fun region hregion => ⟨?_, ?_⟩) _ region hregion
      · exact decodeRegions_encodable hdecoded region hregion
      · intro peer hpeer
        obtain ⟨descriptor, hdescriptor, -, hread⟩ := exists_of_mem_decodeRegions hdecoded hregion
        refine peerMatches_iff.2 (hkeeps descriptor hdescriptor _ ?_)
        rw [← (fromProtoRegion_spec hread).2]
        exact List.mem_map_of_mem hpeer
  | prepareSplit hop _ hfound _ hallocated hplaced =>
    rw [hop] at hkeeps
    intro region hregion
    obtain ⟨old, hold, rfl⟩ := List.mem_map.1 hregion
    split
    · refine (hσ _ (mem_of_findParent hfound)).marked ?_ hplaced
      rw [(safeAdd_eq hallocated).2.1]
      have hlt : σ.regionIdHighWater < intMax := hkeeps
      unfold intMax at hlt ⊢
      grind
    · exact hσ old hold
  | commitSplit hop _ hfound hpending hvalid =>
    rw [hop] at hkeeps
    have hknown := hσ _ (mem_of_findParent hfound)
    refine Known.stamped (Known.validated (hinv.split hfound hpending _) hvalid ?_) _
    intro region hregion
    rcases List.mem_append.1 hregion with hregion | hregion
    · obtain ⟨old, hold, rfl⟩ := List.mem_map.1 hregion
      split
      · exact hknown.congr rfl rfl (.inr rfl)
      · exact hσ old hold
    · rw [List.mem_singleton.1 hregion]
      -- the child was pending, so it could be read back already
      obtain ⟨hid, hhosted⟩ := hkeeps _ hfound _ hpending
      have hdecodes := (decodes_iff.1 hknown.encodable.decodes).2.2 _ _ hpending
      exact ⟨⟨hdecodes.congr rfl rfl (.inl rfl), hid⟩, hhosted⟩
  | prepareMovePeer | cancelMovePeer => exact Known.stamped hσ _
  | commitMovePeer hop _ _ hstarted =>
    rw [hop] at hkeeps hmove
    refine Known.stamped ?_ _
    intro region hregion
    rcases mem_updateFirst hregion with hold | ⟨old, hold, -, rfl⟩
    · exact hσ region hold
    · obtain ⟨hnode, hhosted⟩ := hkeeps _ hstarted
      exact (hσ old hold).moved (hmove.1 _ hstarted) (hinv.migrations _ _ hstarted) hnode hhosted
  -- a peer on the Store still has its endpoint
  | @putStore store hop =>
    rw [hop] at hkeeps
    intro region hregion
    refine ⟨(hσ region hregion).encodable, ?_⟩
    intro peer hpeer
    obtain ⟨old, hget, hendpoint⟩ := peerMatches_iff.1 ((hσ region hregion).hosted peer hpeer)
    rw [peerMatches_iff, EndpointKnown, getElem?_insert]
    split_ifs with heq
    · exact ⟨store, rfl, hkeeps region hregion peer hpeer heq.symm⟩
    · exact ⟨old, hget, hendpoint⟩
  | @allocateIds kind => cases kind <;> exact hσ
  | _ => exact hσ

/-- What a handler installs passes the checks on Regions, Stores, migrations, heartbeats and
configuration. -/
lemma checked (hσ : Checked σ) (hinv : Inv σ) (hstep : RestorableStep σ command) : Checked τ := by
  have hcovered := h.covered hσ.covered
  have hregions := h.regions_known hσ.regions hinv hstep
  have hrevision := hstep.1.1.1
  have hnext : σ.revision + 1 ≠ 0 := by grind
  -- a migration that ends leaves the others
  have herase (regionId : UInt64) (id : UInt64) (migration : ReplicaMigrationStatus)
      (hget : (σ.migrations.erase regionId)[id]? = some migration) :
      migration.regionId = id ∧ validMigration migration = true := by
    exact hσ.migrations id migration (of_getElem?_erase hget).2
  cases h with
  | bootstrap _ hfresh hdigest _ _ hregistered =>
    refine { hσ with
      covered := hcovered
      regions := hregions
      digest := fun _ => hdigest
      unheard := fun h => absurd h (by simp [stampRegions, recomputeHighWater])
      stores := addStores_induction (fun _ hvalid => ⟨rfl, hvalid⟩) hregistered (by simp)
      heartbeats := ?_ }
    intro storeId heartbeat hget
    have hget : σ.storeHeartbeats[storeId]? = some heartbeat := hget
    -- before the bootstrap no Store was heard
    rw [hσ.unheard hfresh] at hget
    simp at hget
  | replaceRegions _ hboot | prepareSplit _ hboot | commitSplit _ hboot =>
    exact { hσ with
      covered := hcovered
      regions := hregions
      digest := fun _ => hσ.digest hboot
      unheard := fun h => absurd h hnext }
  | prepareMovePeer _ hboot hfound _ hhosts _ hallocated =>
    refine { hσ with
      covered := hcovered
      regions := hregions
      digest := fun _ => hσ.digest hboot
      unheard := fun h => absurd h hnext
      migrations := ?_ }
    intro id migration hget
    dsimp only [stampRegions] at hget
    rcases insert_cases hget with ⟨heq, rfl⟩ | hget
    · exact ⟨heq, hσ.validMigration_started hinv hfound hhosts hallocated⟩
    · exact hσ.migrations id migration hget
  | commitMovePeer _ hboot | cancelMovePeer _ hboot =>
    exact { hσ with
      covered := hcovered
      regions := hregions
      digest := fun _ => hσ.digest hboot
      unheard := fun h => absurd h hnext
      migrations := herase _ }
  | reportStoreHeartbeat _ hboot hvalid hknown hsame =>
    refine { hσ with
      covered := hcovered
      unheard := fun h => absurd h hboot
      heartbeats := ?_ }
    intro storeId other hget
    rcases insert_cases hget with ⟨heq, rfl⟩ | hget
    · obtain ⟨regions, rfl⟩ := hsame
      exact ⟨heq, validHeartbeat_of_valid regions hvalid hknown⟩
    · exact hσ.heartbeats storeId other hget
  | updateAutoBalancerConfig _ hvalid =>
    exact { hσ with
      covered := hcovered
      config := validConfig_of_valid hvalid }
  | @allocateIds kind _ _ _ hboot =>
    cases kind <;> exact { hσ with
      covered := hcovered
      digest := fun _ => hσ.digest hboot
      unheard := fun h => absurd h hnext }
  | @putStore store hop hboot hvalid =>
    refine { hσ with
      covered := hcovered
      regions := hregions
      digest := fun _ => hσ.digest hboot
      unheard := fun h => absurd h hnext
      stores := ?_
      heartbeats := fun _ _ hget => hσ.heartbeats_putStore store hget }
    intro storeId other hget
    rcases insert_cases hget with ⟨heq, rfl⟩ | hget
    · exact ⟨heq, hvalid⟩
    · exact hσ.stores storeId other hget
  | _ => exact { hσ with covered := hcovered }

lemma operators_known (hσ : ∀ (operatorId : Bytes) (operator : SchedulingOperator),
      σ.schedulingOperators[operatorId]? = some operator → OperatorKnown σ operatorId operator)
    (hrevision : σ.revision < σ.revision + 1) :
    ∀ (operatorId : Bytes) (operator : SchedulingOperator),
      τ.schedulingOperators[operatorId]? = some operator → OperatorKnown τ operatorId operator := by
  have hle := h.revision_le hrevision
  have hold (operatorId : Bytes) (operator : SchedulingOperator)
      (hget : σ.schedulingOperators[operatorId]? = some operator) :
      OperatorKnown τ operatorId operator := by
    obtain ⟨hid, hnamed, hregion, hsource⟩ := hσ operatorId operator hget
    exact ⟨hid, hnamed, hregion, UInt64.le_trans hsource hle⟩
  -- a changed operator keeps its id, its Region and its revision
  have hput (id : Bytes) (current changed : SchedulingOperator)
      (hfound : σ.schedulingOperators[id]? = some current)
      (hid : changed.operatorId = current.operatorId) (hregion : changed.regionId = current.regionId)
      (hsource : changed.sourceRevision = current.sourceRevision) (operatorId : Bytes)
      (operator : SchedulingOperator)
      (hget : (σ.schedulingOperators.insert id changed)[operatorId]? = some operator) :
      OperatorKnown τ operatorId operator := by
    rcases insert_cases hget with ⟨rfl, rfl⟩ | hget
    · have hknown := hold id current hfound
      rw [OperatorKnown, ← hid, ← hregion, ← hsource] at hknown
      exact hknown
    · exact hold operatorId operator hget
  cases h with
  | createSchedulingOperator _ hnamed hregion hsource =>
    intro operatorId operator hget
    rcases insert_cases hget with ⟨heq, rfl⟩ | hget
    · exact ⟨heq, heq ▸ hnamed, hregion, UInt64.le_of_eq hsource⟩
    · exact hold operatorId operator hget
  | updateSchedulingOperator _ hfound | cancelSchedulingOperator _ hfound =>
    exact hput _ _ _ hfound rfl rfl rfl
  | @allocateIds kind => cases kind <;> exact hold
  | _ => exact hold

/-- Handlers leave the records of the mutations to `Apply`. -/
lemma records : τ.dedup = σ.dedup ∧ τ.dedupOrder = σ.dedupOrder := by
  cases h
  case allocateIds kind _ _ _ _ _ _ => cases kind <;> exact ⟨rfl, rfl⟩
  all_goals exact ⟨rfl, rfl⟩

end

end MetadataState.Installs

variable {answer : MetadataCommandResult × MetadataState}

lemma MetadataState.Outcome.records (h : Outcome σ command answer) :
    answer.2.dedup = σ.dedup ∧ answer.2.dedupOrder = σ.dedupOrder := by
  cases h with
  | @installed τ answer hinstalls =>
    obtain ⟨view, heq⟩ := τ.publish_snd answer
    rw [heq]
    exact hinstalls.records
  | _ => exact ⟨rfl, rfl⟩

/-! ## Runs -/

namespace Restorable

lemma of_empty : Restorable {} where
  topology := Inv.of_empty
  checked :=
    { covered := ⟨by simp, by simp, by simp, by simp⟩
      digest := fun h => absurd rfl h
      unheard := fun _ => rfl
      regions := by simp
      stores := by simp
      migrations := by simp
      heartbeats := by simp
      config := by decide }
  active := ActiveExact.empty
  operators := by simp
  recorded := ⟨List.nodup_nil, by simp, by simp⟩
  published := fun h => absurd rfl h

/-- The published view and the records aside. -/
lemma outcome (h : Restorable σ) (hstep : RestorableStep σ command) (houtcome : Outcome σ command answer) :
    Restorable answer.2 := by
  have htopology := (h.topology.outcome hstep.1.1 houtcome).1
  have hactive := h.active.step houtcome.operatorStep hstep.2.1
  obtain ⟨hdedup, horder⟩ := houtcome.records
  cases houtcome with
  | refused | kept => exact h
  | exhausted hop hfound _ hplaced =>
    have hleft := hstep.1.2
    rw [PeersLeft, hop] at hleft
    exact absurd hplaced (childPeers_ne_none (hleft _ hfound))
  | @installed τ answer hinstalls =>
    obtain ⟨catalog, hpublish, hcatalog⟩ :=
      (hinstalls.core h.topology.toCore hstep.1.1).publish answer
    have hchecked := hinstalls.checked h.checked h.topology hstep
    have hoperators := hinstalls.operators_known h.operators hstep.1.1.1
    rw [hpublish] at htopology hactive hdedup horder ⊢
    refine ⟨htopology, ?_, hactive, hoperators, h.recorded.congr hdedup horder, ?_⟩
    · exact { hchecked with covered := hchecked.covered.mono (.of_eq rfl rfl rfl) rfl rfl rfl }
    · intro hboot
      show τ.viewOf catalog = τ.viewOf (some τ.regions)
      rw [hcatalog hboot]

lemma applied (h : Restorable σ) (hstep : RestorableStep σ command) (happlied : Applied σ command answer) :
    Restorable answer.2 := by
  cases happlied with
  | unnamed | repeated => exact h
  | @recorded answer hnamed hnew houtcome =>
    have hrestorable := h.outcome hstep houtcome
    rw [← houtcome.records.1] at hnew
    have hrecorded := hrestorable.recorded.record hnamed hnew answer.1
    obtain ⟨dedup, dedupOrder, heq⟩ := answer.2.recordResultLocked_eq command.mutationId answer.1
    have hchecked := hrestorable.checked
    rw [heq] at hrecorded ⊢
    exact { hrestorable with
      topology := { hrestorable.topology with }
      checked := { hchecked with covered := hchecked.covered.mono (.of_eq rfl rfl rfl) rfl rfl rfl }
      recorded := hrecorded }

end Restorable

lemma restorable_of_reachable (h : metadataSystem.Reachable RestorableStep σ) : Restorable σ := by
  refine h.invariant ?_ ?_
  · rintro _ rfl
    exact Restorable.of_empty
  · rintro σ command _ hσ hstep rfl
    exact hσ.applied hstep (apply_applied σ command)

/-- In every run of commands that keep peers at the endpoints of their Stores, a fresh machine that
restores the snapshot of a bootstrapped one is in the same state, view and records included. -/
theorem restore_snapshot (h : metadataSystem.Reachable RestorableStep σ) (hboot : σ.revision ≠ 0) :
    restore {} σ.snapshot = (none, σ) :=
  (restorable_of_reachable h).restore_eq hboot {}

/-! ## A snapshot that is restored and one that is not -/

instance (stores : ExtTreeMap UInt64 StoreDescriptor compare) (peer : PeerDescriptor) :
    Decidable (EndpointKnown stores peer) :=
  decidable_of_iff (stores[peer.storeId]?.any fun store =>
      store.host = peer.host && store.port = peer.port) (by
    unfold EndpointKnown
    rw [Option.any_eq_true]
    simp)

instance (σ : MetadataState) (command : MetadataCommand) : Decidable (KeepsEndpoints σ command) := by
  obtain ⟨_, _, operation⟩ := command
  induction operation using Operation.casesOn <;> dsimp only [KeepsEndpoints] <;> infer_instance

instance (σ : MetadataState) (command : MetadataCommand) : Decidable (RestorableStep σ command) :=
  inferInstanceAs (Decidable (_ ∧ _))

/-- The Region is split, gets an operator, and its first half is about to move. -/
def topologyCommands : List MetadataCommand :=
  [bootstrapCommand, createCommand [2] [65], ⟨[3], 1, .prepareSplit 10 [7] (some ⟨1, 1⟩)⟩,
    ⟨[4], 2, .commitSplit 10⟩, ⟨[5], 3, .putStore ⟨2, [2], 26002⟩⟩,
    ⟨[6], 4, .prepareMovePeer 10 1 2 (some ⟨2, 1⟩)⟩]

theorem restore_topologyCommands :
    (run {} topologyCommands).revision = 5 ∧ (run {} topologyCommands).regions.length = 2 ∧
      restore {} (run {} topologyCommands).snapshot = (none, run {} topologyCommands) := by
  have hreach : metadataSystem.Reachable RestorableStep (run {} topologyCommands) :=
    TransitionSystem.Guarded.reachable (by decide)
  have hrevision : (run {} topologyCommands).revision = 5 := by decide
  exact ⟨hrevision, by decide, restore_snapshot hreach (by rw [hrevision]; decide)⟩

/-- A Store that hosts a peer is registered at another endpoint, and the snapshot of the state is
refused. -/
theorem restore_fails_after_putStore :
    ¬∀ σ : MetadataState, metadataSystem.Reachable Accepted σ → σ.revision ≠ 0 →
      restore {} σ.snapshot = (none, σ) := by
  intro h
  have hreach : metadataSystem.Reachable Accepted
      (run {} [bootstrapCommand, ⟨[2], 1, .putStore ⟨1, [2], 26001⟩⟩]) :=
    TransitionSystem.Guarded.reachable (by decide)
  have hrestored := congrArg Prod.fst (h _ hreach (by decide))
  exact absurd hrestored (by decide)

end StrataKV.Metadata
