import StrataKV.Region.Peer

/-!
# Retiring a peer of a node

`RetireMigrationPeer` takes a hosted peer out of the registry, waits for its requests and stops it;
then the node drops its tasks, lets go of it and deletes its data. The registry gives the peer up
before the wait. So a call that reaches its deadline leaves nothing that a later call can find: the
peer stays hosted and keeps its data.
-/

namespace StrataKV.Region

/-! ## The node -/

/-- The view that `RegionRegistry` publishes. A peer is known by its number among those that the
process has created. -/
structure RegistryView where
  revision : UInt64
  peers : Int32 → Option ℕ

structure RegionRetireResult where
  found : Bool := false
  drained : Bool := false
  remainingRequests : ℕ := 0

/-- The registry, the peers, those of them that the node hosts, the Regions whose tasks were dropped
and the peers whose storage is deleted. -/
structure NodeServer where
  registry : RegistryView
  created : ℕ → RegionPeer
  hosted : List ℕ
  removedRegions : List Int32 := []
  deletedStorage : List ℕ := []

/-- A call for a peer: its revision, and the requests in flight when its wait ends. -/
structure RetireCall where
  revision : UInt64
  remainingRequests : ℕ

namespace NodeServer

/-- `RegionRegistry::Unregister`; without a result it has thrown. -/
def unregister (node : NodeServer) (regionId : Int32) (call : RetireCall) :
    Option RegionRetireResult × NodeServer :=
  if call.revision < node.registry.revision then (some {}, node)
  else
    match node.registry.peers regionId with
    | none => (some {}, node)
    | some number =>
      let node := { node with
        registry := ⟨call.revision, Function.update node.registry.peers regionId none⟩ }
      let peer := node.created number
      if peer.lifecycle = .initializing then (none, node)
      else
        let retiring := { peer.beginRetire with inFlightRequests := call.remainingRequests }
        let node := { node with created := Function.update node.created number retiring }
        if call.remainingRequests = 0 then
          match retiring.markStopped with
          | none => (none, node)
          | some stopped =>
            (some ⟨true, true, 0⟩,
              { node with created := Function.update node.created number stopped })
        else (some ⟨true, false, call.remainingRequests⟩, node)

/-- The hosted peer of the Region with the id. `none` is the exception of `LocalPeerDescriptor`: the
search has met a peer of the Region that has lost its own place. -/
def findHosted (node : NodeServer) (regionId : Int32) (peerId : UInt64) : Option (Option ℕ) :=
  node.hosted.findM? fun number =>
    if (node.created number).descriptor.regionId = regionId then
      (node.created number).localPeerDescriptor.map fun peer => peer.peerId = peerId
    else some false

/-- `RetireMigrationPeer`; without a result it has thrown. -/
def retireMigrationPeer (node : NodeServer) (regionId : Int32) (peerId : UInt64)
    (call : RetireCall) : Option RegionRetireResult × NodeServer :=
  match node.findHosted regionId peerId with
  | none => (none, node)
  | some none => (some {}, node)
  | some (some number) =>
    match node.unregister regionId call with
    | (none, node) => (none, node)
    | (some result, node) =>
      if !result.found || !result.drained then (some result, node)
      else (some result, { node with
        removedRegions := regionId :: node.removedRegions
        hosted := node.hosted.filter (· ≠ number)
        deletedStorage := number :: node.deletedStorage })

/-! ## Sequences of calls -/

/-- The peer has left the registry and is stopped, and its tasks and its data are dropped. -/
structure Retired (node : NodeServer) (regionId : Int32) (number : ℕ) : Prop where
  unmapped : node.registry.peers regionId ≠ some number
  stopped : (node.created number).lifecycle = .stopped
  tasks : regionId ∈ node.removedRegions
  storage : number ∈ node.deletedStorage

/-- A call that returns found and drained has retired the peer, and if an earlier call found it and
did not drain it, so has a call after its requests are done. -/
def Completes (regionId : Int32) (peerId : UInt64) (number : ℕ) :
    Bool → NodeServer → List RetireCall → Prop
  | _, _, [] => True
  | undrained, node, call :: calls =>
    let answer := node.retireMigrationPeer regionId peerId call
    (answer.1.any (fun result => result.found && result.drained) = true ∨
        undrained = true ∧ call.remainingRequests = 0 → answer.2.Retired regionId number) ∧
      Completes regionId peerId number
        (undrained || answer.1.any fun result => result.found && !result.drained) answer.2 calls

/-- The peer is hosted, and the registry maps its Region to it. The search finds it: neither it nor a
peer of the Region before it has lost its own place, as a peer does that applies its own
REMOVE_PEER. -/
structure Hosts (node : NodeServer) (regionId : Int32) (peerId : UInt64) (number : ℕ) : Prop where
  hosted : node.findHosted regionId peerId = some (some number)
  mapped : node.registry.peers regionId = some number
  initialized : (node.created number).lifecycle ≠ .initializing
  kept : number ∉ node.deletedStorage

/-- The first call that is not behind the registry drains the peer, or no later one could. -/
def DrainsFirst (revision : UInt64) (calls : List RetireCall) : Prop :=
  match calls.dropWhile fun call => call.revision < revision with
  | [] => True
  | call :: later => call.remainingRequests = 0 ∨ ∀ call ∈ later, call.remainingRequests ≠ 0

variable {node : NodeServer} {regionId : Int32} {peerId : UInt64} {number : ℕ}
  {calls : List RetireCall} {call : RetireCall} {undrained : Bool}

/-- The call finds no peer, or throws, and changes nothing. -/
def LeavesAlone (node : NodeServer) (regionId : Int32) (peerId : UInt64) (call : RetireCall) : Prop :=
  ∃ result, node.retireMigrationPeer regionId peerId call = (result, node) ∧
    ∀ answer ∈ result, answer.found = false

/-- Without an entry in the registry the call does nothing. -/
lemma leavesAlone_unmapped (h : node.registry.peers regionId = none) :
    node.LeavesAlone regionId peerId call := by
  unfold LeavesAlone retireMigrationPeer
  rcases node.findHosted regionId peerId with _ | _ | number
  · exact ⟨none, rfl, by simp⟩
  · exact ⟨some {}, rfl, by simp⟩
  · exact ⟨some {}, by simp [unregister, h], by simp⟩

lemma LeavesAlone.completes_cons (h : node.LeavesAlone regionId peerId call) :
    Completes regionId peerId number undrained node (call :: calls) ↔
      (undrained = true → call.remainingRequests = 0 → node.Retired regionId number) ∧
        Completes regionId peerId number undrained node calls := by
  obtain ⟨result, hcall, hfound⟩ := h
  cases result <;> simp_all [Completes]

/-- Once the Region has no entry, the calls complete exactly if nothing is left to do. -/
lemma completes_unmapped (h : node.registry.peers regionId = none) :
    Completes regionId peerId number undrained node calls ↔
      (undrained = true → ¬node.Retired regionId number →
        ∀ call ∈ calls, call.remainingRequests ≠ 0) := by
  induction calls with
  | nil => simp [Completes]
  | cons call calls ih =>
    rw [(leavesAlone_unmapped h).completes_cons, ih, List.forall_mem_cons]
    tauto

/-- A peer that is not being set up stops once its requests are done. -/
lemma stops_of_beginRetire {peer : RegionPeer} (h : peer.lifecycle ≠ .initializing) :
    ∃ stopped, { peer.beginRetire with inFlightRequests := 0 }.markStopped = some stopped ∧
      stopped.lifecycle = .stopped := by
  cases hlifecycle : peer.lifecycle <;> simp_all [RegionPeer.markStopped, RegionPeer.beginRetire]

section

variable (h : node.Hosts regionId peerId number) (hrevision : ¬call.revision < node.registry.revision)

include h hrevision

/-- What the first call does that is not behind the registry. -/
lemma Hosts.retires_iff :
    ∃ result node', node.retireMigrationPeer regionId peerId call = (some result, node') ∧
      result.found = true ∧ (result.drained = true ↔ call.remainingRequests = 0) ∧
      node'.registry.peers regionId = none ∧
      (node'.Retired regionId number ↔ call.remainingRequests = 0) := by
  by_cases hdrained : call.remainingRequests = 0
  · obtain ⟨stopped, hstop, hstopped⟩ := stops_of_beginRetire h.initialized
    simp only [retireMigrationPeer, h.hosted, unregister, hrevision, h.mapped, if_false, if_true,
      h.initialized, hdrained, hstop]
    refine ⟨_, _, rfl, rfl, by simp, Function.update_self .., by simp, fun _ => ?_⟩
    exact ⟨by simp, by simpa using hstopped, List.mem_cons_self, List.mem_cons_self⟩
  · simp only [retireMigrationPeer, h.hosted, unregister, hrevision, h.mapped, if_false,
      h.initialized, hdrained]
    refine ⟨_, _, rfl, rfl, by simp, Function.update_self .., fun hretired => ?_, by simp⟩
    exact absurd hretired.storage h.kept

/-- The first call that counts decides. -/
lemma Hosts.completes_cons : Completes regionId peerId number false node (call :: calls) ↔
      call.remainingRequests = 0 ∨ ∀ call ∈ calls, call.remainingRequests ≠ 0 := by
  obtain ⟨result, node', hcall, hfound, hdrained, hunmapped, hretired⟩ := h.retires_iff hrevision
  -- after this call the Region has no entry, so the later ones change nothing
  simp only [Completes, hcall, ← hdrained]
  cases hdone : result.drained <;>
    simp [hdone, hfound, completes_unmapped hunmapped, hretired, ← hdrained]

end

/-- Retirement completes if the first call drains the peer: after a call that did not, those that come
when the requests are done find nothing. -/
theorem retirement_completes_iff (node : NodeServer) (regionId : Int32) (peerId : UInt64)
    (number : ℕ) (calls : List RetireCall) (h : node.Hosts regionId peerId number) :
    Completes regionId peerId number false node calls ↔
      DrainsFirst node.registry.revision calls := by
  induction calls with
  | nil => simp [Completes, DrainsFirst]
  | cons call calls ih =>
    by_cases hrevision : call.revision < node.registry.revision
    · have hcall : node.LeavesAlone regionId peerId call :=
        ⟨some {}, by simp [retireMigrationPeer, h.hosted, unregister, hrevision], by simp⟩
      rw [hcall.completes_cons, ih]
      simp [DrainsFirst, hrevision]
    · rw [h.completes_cons hrevision]
      simp [DrainsFirst, hrevision]

/-- A node that hosts one peer. -/
def oneRegion : NodeServer where
  registry := ⟨1, fun regionId => if regionId = 1 then some 0 else none⟩
  created _ := { RegionPeer.create 0 { regionId := 1, peers := [{ peerId := 7 }] } with
    lifecycle := .serving }
  hosted := [0]

lemma oneRegion_hosts : oneRegion.Hosts 1 7 0 := ⟨by decide, by decide, by decide, by decide⟩

theorem oneRegion_retires : Completes 1 7 0 false oneRegion [⟨1, 0⟩, ⟨1, 0⟩] :=
  (retirement_completes_iff oneRegion 1 7 0 _ oneRegion_hosts).2 (.inl rfl)

/-- The first call times out; the second comes when the requests are done. -/
theorem oneRegion_stays :
    ¬∀ (node : NodeServer) (regionId : Int32) (peerId : UInt64) (number : ℕ)
      (calls : List RetireCall), node.Hosts regionId peerId number →
        Completes regionId peerId number false node calls := by
  intro hall
  have hcalls := hall oneRegion 1 7 0 [⟨1, 3⟩, ⟨1, 0⟩] oneRegion_hosts
  simpa using (oneRegion_hosts.completes_cons (by decide)).1 hcalls

end NodeServer

end StrataKV.Region
