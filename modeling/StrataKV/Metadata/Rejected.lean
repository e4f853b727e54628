import StrataKV.Metadata.Topology

/-!
# Rejected commands

A handler that rejects a command should leave no trace but the record of the mutation. Two handlers
may leave more. `PrepareSplit` moves the high-water marks before it knows that the ids suffice for
every peer of the child, and whatever a handler installed stays when `PublishLocked` throws, which
after a checked history only `CommitMovePeer` brings about (`StepFits`).

The second half is what a rejected command means for later ones: the handlers do not read the records
of the mutations, so that a command whose own record is not affected is answered as before.
-/

namespace StrataKV.Metadata

open TransitionSystem List

open Std (ExtTreeMap)

namespace MetadataState

variable {σ τ : MetadataState} {command : MetadataCommand}

/-! ## The records of the mutations -/

section

variable {dedup : ExtTreeMap Bytes MutationRecord compare} {dedupOrder : List Bytes}

/-- The answer depends on the Regions that are published. -/
lemma publish_fst_congr {answer : MetadataState → MetadataCommandResult}
    (hregions : σ.regions = τ.regions) (hrevision : σ.revision = τ.revision)
    (hanswer : answer σ = answer τ) : (σ.publish answer).1 = (τ.publish answer).1 := by
  unfold publish
  rw [hregions]
  split
  · exact hanswer
  split
  · simp only [throwing, reject, error, hrevision]
  · exact hanswer

lemma checkWork_dedup (region : RegionMetadata) (requested : SchedulingOperator) :
    { σ with dedup := dedup, dedupOrder := dedupOrder }.checkWork region requested =
      (σ.checkWork region requested).map fun answer =>
        (answer.1, { answer.2 with dedup := dedup, dedupOrder := dedupOrder }) := by
  unfold checkWork
  repeat' split
  all_goals rfl

lemma activeOn_dedup (storeId : UInt64) :
    { σ with dedup := dedup, dedupOrder := dedupOrder }.activeOn storeId = σ.activeOn storeId := rfl

lemma createSchedulingOperatorLocked_dedup (expectedRevision : UInt64)
    (requested : SchedulingOperator) :
    ({ σ with dedup := dedup, dedupOrder := dedupOrder }.createSchedulingOperatorLocked
      expectedRevision requested).1 =
        (σ.createSchedulingOperatorLocked expectedRevision requested).1 := by
  unfold createSchedulingOperatorLocked
  simp only [checkWork_dedup, activeOn_dedup]
  split
  · rfl
  split
  · rfl
  split
  · split <;> rfl
  split
  · rfl
  split
  · rfl
  split
  · rfl
  split
  · rfl
  split
  · rfl
  rename_i region _ _ _
  cases σ.checkWork region requested with
  | some refused => rfl
  | none =>
    dsimp only [Option.map_none]
    split_ifs with hexhausted
    · exact (congrArg Prod.fst (if_pos hexhausted)).trans rfl
    · refine (congrArg Prod.fst (if_neg hexhausted)).trans ?_
      exact publish_fst_congr rfl rfl rfl

/-- The handlers do not look at the records of the mutations. -/
lemma applyLocked_dedup (command : MetadataCommand) :
    ({ σ with dedup := dedup, dedupOrder := dedupOrder }.applyLocked command).1 =
      (σ.applyLocked command).1 := by
  unfold applyLocked
  cases command.operation
  case createSchedulingOperator => exact createSchedulingOperatorLocked_dedup _ _
  all_goals
    dsimp only [bootstrapLocked, replaceRegionsLocked, prepareSplitLocked, findParent,
      commitSplitLocked, replaceRegion, ackSplitLocked, prepareMovePeerLocked, commitMovePeerLocked,
      cancelMovePeerLocked, reportStoreHeartbeatLocked, updateAutoBalancerConfigLocked,
      updateSchedulingOperatorLocked, cancelSchedulingOperatorLocked, putOperator,
      allocateIdsLocked, putStoreLocked]
    repeat' split
  all_goals first | rfl | exact publish_fst_congr rfl rfl rfl

end

/-- Recording the mutation of `command` leaves the record of `later` alone: they are different
mutations, and `later` is not the one that a full table forgets. -/
def LeavesRecord (σ : MetadataState) (command later : MetadataCommand) : Prop :=
  later.mutationId ≠ command.mutationId ∧
    (σ.dedupOrder.length < kDedupRetention ∨ σ.dedupOrder.head? ≠ some later.mutationId)

instance (σ : MetadataState) (command later : MetadataCommand) :
    Decidable (LeavesRecord σ command later) :=
  inferInstanceAs (Decidable (_ ∧ _))

lemma length_recordResultLocked (σ : MetadataState) (mutationId : Bytes)
    (result : MetadataCommandResult) :
    (σ.recordResultLocked mutationId result).dedupOrder.length ≤ kDedupRetention := by
  dsimp only [recordResultLocked]
  rw [length_drop]
  omega

variable {result : MetadataCommandResult} {later : MetadataCommand}

section

variable (hlength : σ.dedupOrder.length ≤ kDedupRetention) (hleaves : LeavesRecord σ command later)

include hlength hleaves

/-- The mutation that the table forgets is the oldest one. -/
lemma getElem?_recordResultLocked :
    (σ.recordResultLocked command.mutationId result).dedup[later.mutationId]? =
      σ.dedup[later.mutationId]? := by
  obtain ⟨hne, hold⟩ := hleaves
  have hkept : later.mutationId ∉ (σ.dedupOrder ++ [command.mutationId]).take
      ((σ.dedupOrder ++ [command.mutationId]).length - kDedupRetention) := by
    rcases Nat.lt_or_eq_of_le hlength with hlt | hfull
    · have hzero : (σ.dedupOrder ++ [command.mutationId]).length - kDedupRetention = 0 := by
        rw [length_append, length_singleton]
        omega
      rw [hzero]
      simp
    · have hone : (σ.dedupOrder ++ [command.mutationId]).length - kDedupRetention = 1 := by
        rw [length_append, length_singleton]
        omega
      have hhead := hold.resolve_left (by omega)
      cases horder : σ.dedupOrder with
      | nil =>
        rw [horder] at hfull
        exact absurd hfull (by decide)
      | cons oldest rest =>
        rw [horder] at hone hhead
        rw [hone]
        simpa [eq_comm] using hhead
  dsimp only [recordResultLocked]
  rw [OrdMap.getElem?_foldl_erase, if_neg hkept, OrdMap.getElem?_insert, if_neg hne.symm]

/-- A command whose record is left alone is answered as before. -/
lemma apply_of_leavesRecord :
    ((σ.recordResultLocked command.mutationId result).apply later).1 = (σ.apply later).1 := by
  have hget : (σ.recordResultLocked command.mutationId result).dedup[later.mutationId]? =
      σ.dedup[later.mutationId]? := getElem?_recordResultLocked hlength hleaves
  obtain ⟨dedup, dedupOrder, heq⟩ := σ.recordResultLocked_eq command.mutationId result
  rw [heq] at hget ⊢
  unfold apply
  dsimp only at hget ⊢
  rw [hget]
  split
  · rfl
  split
  · rfl
  · show ({ σ with dedup := dedup, dedupOrder := dedupOrder }.applyLocked later).1 =
      (σ.applyLocked later).1
    exact applyLocked_dedup later

end

end MetadataState

open MetadataState

variable {σ : MetadataState} {command : MetadataCommand}

/-! ## Rejections that leave no trace -/

/-- There are enough ids for the peers of the child that a split prepares. -/
def PeersLeft (σ : MetadataState) (command : MetadataCommand) : Prop :=
  match command.operation with
  | .prepareSplit regionId _ _ =>
    ∀ parent ∈ σ.findParent regionId, σ.peerIdHighWater.toNat + parent.peers.length < 2 ^ 64
  | _ => True

/-- The command publishes what it installs, and does not run out of ids half way. -/
def AtomicStep (σ : MetadataState) (command : MetadataCommand) : Prop :=
  StepFits σ command ∧ PeersLeft σ command

lemma childPeers_ne_none {highWater mark : UInt64} {peers : List RegionPeerLocation}
    (h : highWater.toNat + peers.length < 2 ^ 64) : childPeers highWater peers ≠ (none, mark) := by
  induction peers generalizing highWater mark with
  | nil => simp [childPeers]
  | cons first rest ih =>
    rw [length_cons] at h
    have hlt : highWater < 18446744073709551615 := by
      rw [UInt64.lt_iff_toNat_lt]
      simp only [UInt64.reduceToNat]
      omega
    have hadd : safeAdd highWater 1 = some (highWater + 1) := by
      unfold safeAdd
      rw [if_neg]
      grind
    have hnext : (highWater + 1).toNat = highWater.toNat + 1 := by
      rw [UInt64.toNat_add]
      exact Nat.mod_eq_of_lt (by simp; omega)
    rw [childPeers, hadd]
    intro heq
    obtain ⟨hnone, -⟩ := Prod.mk.inj heq
    exact ih (by omega) (Prod.ext (Option.map_eq_none_iff.1 hnone) rfl)

variable {answer : MetadataCommandResult × MetadataState}

/-- A handler that rejects the command leaves the state as it was. -/
lemma Inv.eq_of_rejected (h : Inv σ) (hfits : AtomicStep σ command)
    (houtcome : Outcome σ command answer) (hrejected : answer.1.error ≠ .ok) : answer.2 = σ := by
  cases houtcome with
  | refused | kept => rfl
  | exhausted hop hfound _ hplaced =>
    have hleft := hfits.2
    rw [PeersLeft, hop] at hleft
    exact absurd hplaced (childPeers_ne_none (hleft _ hfound))
  | @installed τ answer hinstalls =>
    obtain ⟨catalog, hpublish, -⟩ := (hinstalls.core h.toCore hfits.1).publish answer
    rw [hpublish] at hrejected
    exact absurd (by cases hinstalls <;> rfl) hrejected

/-- The invariant of the topology, and a table of bounded length. -/
structure AtomicInv (σ : MetadataState) : Prop where
  topology : Inv σ
  length : σ.dedupOrder.length ≤ kDedupRetention

lemma AtomicInv.applied (h : AtomicInv σ) (hfits : AtomicStep σ command)
    (happlied : Applied σ command answer) : AtomicInv answer.2 := by
  refine ⟨(h.topology.applied hfits.1 happlied).1, ?_⟩
  cases happlied with
  | unnamed | repeated => exact h.length
  | recorded => exact length_recordResultLocked _ _ _

lemma atomicInv_of_reachable (h : metadataSystem.Reachable AtomicStep σ) : AtomicInv σ := by
  refine h.invariant ?_ ?_
  · rintro _ rfl
    exact ⟨Inv.of_empty, Nat.zero_le _⟩
  · rintro σ command _ hσ hfits rfl
    exact hσ.applied hfits (apply_applied σ command)

lemma AtomicInv.rejected (h : AtomicInv σ) (hfits : AtomicStep σ command)
    (happlied : Applied σ command answer) (hrejected : answer.1.error ≠ .ok) :
    answer.2 = σ ∨ answer.2 = σ.recordResultLocked command.mutationId answer.1 := by
  cases happlied with
  | unnamed | repeated => exact .inl rfl
  | recorded _ _ houtcome =>
    right
    rw [h.topology.eq_of_rejected hfits houtcome hrejected]

/-- In every run of commands that publish what they install and do not run out of ids half way, a
rejected command changes nothing but the record of its mutation, and whatever would have been
accepted before is accepted after it, unless the record of that very mutation is concerned. -/
theorem unchanged_of_rejected (h : metadataSystem.Reachable AtomicStep σ)
    (hfits : AtomicStep σ command) (hrejected : (σ.apply command).1.error ≠ .ok) :
    (∃ dedup dedupOrder,
      (σ.apply command).2 = { σ with dedup := dedup, dedupOrder := dedupOrder }) ∧
    ∀ later, LeavesRecord σ command later → (σ.apply later).1.error = .ok →
      ((σ.apply command).2.apply later).1.error = .ok := by
  have hinv := atomicInv_of_reachable h
  rcases hinv.rejected hfits (apply_applied σ command) hrejected with hsame | hrecord
  · rw [hsame]
    exact ⟨⟨σ.dedup, σ.dedupOrder, rfl⟩, fun _ _ hlater => hlater⟩
  · rw [hrecord]
    refine ⟨σ.recordResultLocked_eq command.mutationId _, ?_⟩
    intro later hleaves hlater
    rw [apply_of_leavesRecord hinv.length hleaves]
    exact hlater

/-! ## A rejected split -/

instance (σ : MetadataState) (command : MetadataCommand) : Decidable (PeersLeft σ command) := by
  obtain ⟨_, _, operation⟩ := command
  induction operation using Operation.casesOn <;> dsimp only [PeersLeft] <;> infer_instance

instance (σ : MetadataState) (command : MetadataCommand) : Decidable (AtomicStep σ command) :=
  inferInstanceAs (Decidable (_ ∧ _))

/-- One Region with one peer, after `count` more peer ids were allocated. -/
def splitCommands (count : UInt64) : List MetadataCommand :=
  [bootstrapCommand, ⟨[2], 1, .allocateIds .peer count⟩]

/-- The split of that Region at a key, for an epoch. -/
def splitCommand (version : UInt64) : MetadataCommand :=
  ⟨[3], 2, .prepareSplit 10 [7] (some ⟨version, 1⟩)⟩

theorem unchanged_splitCommands :
    ((run {} (splitCommands 5)).apply (splitCommand 2)).1.error = .revisionMismatch ∧
    (∃ dedup dedupOrder, ((run {} (splitCommands 5)).apply (splitCommand 2)).2 =
      { run {} (splitCommands 5) with dedup := dedup, dedupOrder := dedupOrder }) ∧
    (((run {} (splitCommands 5)).apply (splitCommand 2)).2.apply
      { splitCommand 1 with mutationId := [4] }).1.error = .ok := by
  have hreach : metadataSystem.Reachable AtomicStep (run {} (splitCommands 5)) :=
    Guarded.reachable (by decide)
  have hmismatch : ((run {} (splitCommands 5)).apply (splitCommand 2)).1.error =
      .revisionMismatch := by decide
  have hfits : AtomicStep (run {} (splitCommands 5)) (splitCommand 2) := by decide
  have hunchanged := unchanged_of_rejected hreach hfits (by rw [hmismatch]; decide)
  exact ⟨hmismatch, hunchanged.1, hunchanged.2 _ (by decide) (by decide)⟩

/-- With no peer id left the split is rejected, but the child keeps the Region id it was given. -/
theorem highWater_moves_after_splitCommands :
    ¬∀ σ : MetadataState, metadataSystem.Reachable TransitionSystem.anyStep σ →
      ∀ command, (σ.apply command).1.error ≠ .ok → ∃ dedup dedupOrder,
          (σ.apply command).2 = { σ with dedup := dedup, dedupOrder := dedupOrder } := by
  intro h
  have hreach : metadataSystem.Reachable anyStep
      (run {} (splitCommands 18446744073709551514)) :=
    Guarded.reachable (by decide)
  obtain ⟨dedup, dedupOrder, heq⟩ := h _ hreach (splitCommand 1) (by decide)
  have hmark := congrArg MetadataState.regionIdHighWater heq
  dsimp only at hmark
  exact absurd hmark (by decide)

end StrataKV.Metadata
