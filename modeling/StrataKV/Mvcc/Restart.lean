import StrataKV.Mvcc.BatchParts
import StrataKV.Mvcc.Durable

/-!
# Restarts of a storage

A storage takes prepared commands, collections and snapshots. Whatever it has taken, the indexes in
memory repeat the records of the engine (`Mirrored`), revision by revision. Rebuilding them from the
engine gives them back, with one exception: the recovery takes a lock whose transaction has a record
on the key for the leftover of an interrupted commit, and drops it. A pessimistic lock that a
transaction takes on a key it has already committed is such a lock.
-/

namespace StrataKV.Mvcc

open Decimal MvccStorage List KeyMod
open Std (ExtTreeMap)

namespace MvccStorage

/-! ## Snapshots -/

/-- `RestoreSnapshot`: `snapshot` is the content that `Load` has read, `none` for the empty string,
which `Load` accepts without a change; `loaded` tells whether it succeeded. -/
def restoreSnapshot (σ : MvccStorage) (snapshot : Option (ExtTreeMap Bytes Bytes compare))
    (loaded : Bool) (nowMs : UInt64) : Bool × MvccStorage :=
  match snapshot with
  | none => (true, recoverMetadataFromEngine nowMs σ.engine)
  | some engine => if loaded then (true, recoverMetadataFromEngine nowMs engine) else (false, σ)

/-! ## Indexes that mirror the engine -/

/-- The indexes are those of the records, and a revision is in memory exactly if it has a record. -/
structure Mirrored (σ : MvccStorage) : Prop extends σ.Durable where
  revisions : ∀ key, σ.revisions[key]? = (σ.engine[revisionKey key]?).map decodeTs

variable {σ τ : MvccStorage} {nowMs : UInt64}

lemma mirrored_empty : MvccStorage.Mirrored {} where
  toDurable := durable_empty
  revisions := by simp

/-- One mutation sets the revision in memory if it sets the record. -/
lemma revisions_applyMetadataMutation (nowMs : UInt64) (σ : MvccStorage) {m : KeyMod}
    (hm : m.Sized) (key k : Bytes) (h : σ.revisions[k]? = (σ.engine[revisionKey k]?).map decodeTs) :
    (applyMetadataMutation nowMs σ (m.toOp key)).revisions[k]? =
      ((applyOp σ.engine (m.toOp key))[revisionKey k]?).map decodeTs := by
  rw [getElem?_applyOp]
  cases m with
  | putData s value | delData s =>
    rw [applyMetadataMutation_data nowMs σ _ key s rfl, if_neg (by simp [toOp])]
    exact h
  | putLock lock =>
    rw [applyMetadataMutation_putLock nowMs σ key lock hm, if_neg (by simp [toOp])]
    exact h
  | delLock =>
    rw [applyMetadataMutation_delLock, if_neg (by simp [toOp])]
    exact h
  | putWrite commitTs write =>
    rw [applyMetadataMutation_putWrite, if_neg (by simp [toOp])]
    exact h
  | putRevision revision =>
    rw [applyMetadataMutation_putRevision]
    by_cases hk : key = k
    · simp [toOp, hk, decodeTs, strtoull_toDecimal]
    · simp [toOp, hk, h, ExtTreeMap.getElem?_insert]

variable {ops : List KVBatchOp}

lemma revisions_afterWrites (nowMs : UInt64) (hops : ∀ op ∈ ops, IsKeyMod op) {k : Bytes}
    (h : σ.revisions[k]? = (σ.engine[revisionKey k]?).map decodeTs) :
    (σ.afterWrites nowMs ops).revisions[k]? =
      ((σ.afterWrites nowMs ops).engine[revisionKey k]?).map decodeTs := by
  induction ops generalizing σ with
  | nil => exact h
  | cons op rest ih =>
    obtain ⟨key, m, hm, rfl⟩ := hops op mem_cons_self
    have hfirst : (σ.afterWrites nowMs [m.toOp key]).revisions[k]? =
        ((σ.afterWrites nowMs [m.toOp key]).engine[revisionKey k]?).map decodeTs :=
      revisions_applyMetadataMutation nowMs σ hm key k h
    have hrest := ih (fun op hop => hops op (mem_cons_of_mem _ hop)) hfirst
    rw [afterWrites_afterWrites] at hrest
    exact hrest

namespace Mirrored

lemma afterWrites (h : σ.Mirrored) (nowMs : UInt64)
    (hops : ∀ op ∈ ops, IsKeyMod op) : (σ.afterWrites nowMs ops).Mirrored where
  toDurable := h.mutations nowMs hops rfl (foldl_applyMetadataMutation_applied nowMs ops σ).2
    (fun _ => rfl) (fun _ => rfl) fun _ => rfl
  revisions := fun key => revisions_afterWrites nowMs hops (h.revisions key)

lemma recordIndex (h : σ.Mirrored) (raftIndex : UInt64) : (σ.recordIndex raftIndex).Mirrored := by
  by_cases hindex : raftIndex = 0
  · rw [MvccStorage.recordIndex, if_pos hindex]
    exact h
  have hafter : σ.recordIndex raftIndex = σ.afterOps 0 [] raftIndex := by
    rw [MvccStorage.recordIndex, if_neg hindex]
    rfl
  rw [hafter]
  refine ⟨h.afterOps 0 (by simp) raftIndex, fun key => ?_⟩
  rw [← hafter, MvccStorage.recordIndex, if_neg hindex]
  have hkey : appliedRaftIndexKey ≠ revisionKey key := (revisionKey_ne_appliedRaftIndexKey key).symm
  simpa [ExtTreeMap.getElem?_insert, hkey] using h.revisions key

end Mirrored

/-! ## Prepared commands -/

/-- What the replay of prepared writes leaves. -/
def Writes (σ τ : MvccStorage) (raftIndex nowMs : UInt64) : Prop :=
  ∃ ops, (∀ op ∈ ops, IsKeyMod op) ∧ τ = (σ.afterWrites nowMs ops).recordIndex raftIndex

lemma Mirrored.of_writes (h : σ.Mirrored) {raftIndex : UInt64}
    (hwrites : σ.Writes τ raftIndex nowMs) : τ.Mirrored := by
  obtain ⟨ops, hops, rfl⟩ := hwrites
  exact (h.afterWrites nowMs hops).recordIndex raftIndex

end MvccStorage

open MvccStorage

variable {σ τ : MvccStorage} {proposal : Proposal}

/-- A proposal changes nothing or replays its mutations. -/
lemma Proposal.apply_cases (h : proposal.Carries) (σ : MvccStorage)
    (raftIndex : UInt64) (env : ApplyEnv) :
    (proposal.apply σ raftIndex env).2 = σ ∨
      σ.Writes (proposal.apply σ raftIndex env).2 raftIndex env.nowMs := by
  cases proposal with
  | single key prepared =>
    obtain ⟨mods, hcarries⟩ := h
    change (σ.applyPrepared key prepared raftIndex env).2 = σ ∨
      σ.Writes (σ.applyPrepared key prepared raftIndex env).2 raftIndex env.nowMs
    rw [applyPrepared_eq hcarries]
    split_ifs
    · exact .inl rfl
    · exact .inl rfl
    · exact .inl rfl
    · exact .inl rfl
    · refine .inr ⟨prepared.modifications, IsKeyMod.of_carries hcarries, ?_⟩
      exact afterWrites_recordIndex prepared.modifications
  | batch prepared =>
    change (σ.applyPreparedBatch prepared raftIndex env).2 = σ ∨
      σ.Writes (σ.applyPreparedBatch prepared raftIndex env).2 raftIndex env.nowMs
    unfold applyPreparedBatch
    split
    · exact .inl rfl
    split
    · exact .inl rfl
    split
    · exact .inl rfl
    rename_i ops hops
    split
    · exact .inl rfl
    -- the check of the revisions passes: they are those that the items announce
    obtain ⟨hflat, -, -⟩ := batchModifications_eq_some hops
    rw [applyItems_eq env.nowMs prepared.items _ h, ← hflat]
    simp only [Bool.not_true, Bool.false_eq_true, if_false]
    exact .inr ⟨ops, hflat ▸ IsKeyMod.of_itemsCarry h, afterWrites_recordIndex ops⟩

/-- A command that some storage has prepared, to be applied at its index. -/
def PreparedApplyCommand.Prepared : PreparedApplyCommand → Prop
  | .single _ key prepared => ∃ leader : MvccStorage, ∃ command,
    leader.prepare command = some (.single key prepared)
  | .batch _ prepared => ∃ leader : MvccStorage, ∃ command,
    leader.prepare command = some (.batch prepared)

lemma PreparedApplyCommand.Prepared.carries {command : PreparedApplyCommand}
    (h : command.Prepared) : command.Carries := by
  cases command with
  | single raftIndex key prepared | batch raftIndex prepared =>
    obtain ⟨leader, command, hprepare⟩ := h
    exact prepare_carries hprepare

lemma MvccStorage.Mirrored.apply (h : σ.Mirrored) (hcarries : proposal.Carries)
    (raftIndex : UInt64) (env : ApplyEnv) : (proposal.apply σ raftIndex env).2.Mirrored := by
  rcases proposal.apply_cases hcarries σ raftIndex env with heq | hwrites
  · rw [heq]
    exact h
  · exact h.of_writes hwrites

/-- What every proposal keeps, commands one after another keep. -/
lemma MvccStorage.applyEach_induction {P : MvccStorage → Prop} {env : ApplyEnv}
    (hstep : ∀ (σ : MvccStorage) (proposal : Proposal), proposal.Carries → ∀ raftIndex,
      P σ → P (proposal.apply σ raftIndex env).2)
    {commands : List PreparedApplyCommand} (hcarries : ∀ command ∈ commands, command.Carries)
    (h : P σ) (heach : applyEach env σ commands = some τ) : P τ := by
  induction commands generalizing σ with
  | nil =>
    cases heach
    exact h
  | cons command rest ih =>
    have hnext : P (command.apply σ env).2 := by
      have hown := hcarries command mem_cons_self
      cases command with
      | single raftIndex key prepared => exact hstep σ (.single key prepared) hown raftIndex h
      | batch raftIndex prepared => exact hstep σ (.batch prepared) hown raftIndex h
    rw [applyEach] at heach
    split at heach
    · rename_i heq
      rw [heq] at hnext
      exact ih (fun c hc => hcarries c (mem_cons_of_mem _ hc)) hnext heach
    · cases heach

/-! ## Collections -/

namespace MvccStorage

variable {safePointTs : Ts}

/-- The engine batch of a collection. -/
def collectionOps (σ : MvccStorage) (safePointTs : Ts) : List KVBatchOp :=
  ((σ.touched safePointTs).flatMap fun item => collectOps item.1 item.2) ++
    (σ.touched safePointTs).map fun item => σ.revisionMutation item.1

/-- A collection deletes data and write records and counts the revisions of their keys up. -/
lemma mem_collectOps {op : KVBatchOp}
    (h : op ∈ (σ.touched safePointTs).flatMap fun item => collectOps item.1 item.2) :
    (∃ key ts, op = ⟨.delete, dataKey key ts, []⟩) ∨
      ∃ key commitTs write, (commitTs, write) ∈ collected (σ.versionsOf key) safePointTs ∧
        op = ⟨.delete, writeKey key commitTs, []⟩ := by
  obtain ⟨⟨key, removed⟩, htouched, hop⟩ := mem_flatMap.1 h
  obtain ⟨rfl, -⟩ := mem_touched.1 htouched
  obtain ⟨⟨commitTs, write⟩, hmem, hop⟩ := mem_flatMap.1 hop
  rcases mem_append.1 hop with hop | hop
  · split at hop
    · exact .inl ⟨key, write.startTs, mem_singleton.1 hop⟩
    · cases hop
  · exact .inr ⟨key, commitTs, write, hmem, mem_singleton.1 hop⟩

lemma mem_collectionOps {op : KVBatchOp} (h : op ∈ σ.collectionOps safePointTs) :
    (∃ key ts, op = ⟨.delete, dataKey key ts, []⟩) ∨
      (∃ key commitTs write, (commitTs, write) ∈ collected (σ.versionsOf key) safePointTs ∧
        op = ⟨.delete, writeKey key commitTs, []⟩) ∨ ∃ key, op = σ.revisionMutation key := by
  rcases mem_append.1 h with hop | hop
  · exact (mem_collectOps hop).imp_right .inl
  · obtain ⟨item, -, rfl⟩ := mem_map.1 hop
    exact .inr (.inr ⟨item.1, rfl⟩)

lemma delete_mem_collectionOps {key : Bytes} {commitTs : Ts} {write : MvccWrite}
    (h : (commitTs, write) ∈ collected (σ.versionsOf key) safePointTs) :
    ⟨.delete, writeKey key commitTs, []⟩ ∈ σ.collectionOps safePointTs := by
  have htouched : (key, collected (σ.versionsOf key) safePointTs) ∈ σ.touched safePointTs :=
    mem_touched.2 ⟨rfl, ne_nil_of_mem h⟩
  refine mem_append_left _ (mem_flatMap.2 ⟨_, htouched, ?_⟩)
  exact mem_flatMap.2 ⟨_, h, mem_append_right _ (mem_singleton.2 rfl)⟩

/-- The engine after a collection, outside the data, write and revision records. -/
lemma getElem?_collectionOps_of_ne {x : Bytes} (hdata : ∀ key ts, x ≠ dataKey key ts)
    (hwrite : ∀ key ts, x ≠ writeKey key ts) (hrevision : ∀ key, x ≠ revisionKey key) :
    (writeBatch σ.engine (σ.collectionOps safePointTs))[x]? = σ.engine[x]? := by
  refine getElem?_writeBatch_of_forall_ne _ fun op hop => ?_
  rcases mem_collectionOps hop with ⟨key, ts, rfl⟩ | ⟨key, commitTs, write, -, rfl⟩ | ⟨key, rfl⟩
  · exact (hdata key ts).symm
  · exact (hwrite key commitTs).symm
  · exact (hrevision key).symm

lemma getElem?_collectionOps_writeKey (key : Bytes) (commitTs : Ts) :
    (writeBatch σ.engine (σ.collectionOps safePointTs))[writeKey key commitTs]? =
      if commitTs ∈ (collected (σ.versionsOf key) safePointTs).map Prod.fst then none
      else σ.engine[writeKey key commitTs]? := by
  have hdeletes : ∀ op ∈ σ.collectionOps safePointTs, op.key = writeKey key commitTs →
      op.type = .delete ∧ commitTs ∈ (collected (σ.versionsOf key) safePointTs).map Prod.fst := by
    intro op hop hkey
    rcases mem_collectionOps hop with ⟨k, ts, rfl⟩ | ⟨k, c, write, hmem, rfl⟩ | ⟨k, rfl⟩
    · exact absurd hkey (by simp)
    · obtain ⟨rfl, rfl⟩ := writeKey_inj.1 hkey
      exact ⟨rfl, mem_map.2 ⟨_, hmem, rfl⟩⟩
    · exact absurd hkey (by simp [revisionMutation])
  rw [getElem?_writeBatch_of_deletes _ _ _ fun op hop hkey => (hdeletes op hop hkey).1]
  refine if_congr ⟨?_, ?_⟩ rfl rfl
  · rintro ⟨op, hop, hkey⟩
    exact (hdeletes op hop hkey).2
  · intro hmem
    obtain ⟨⟨c, write⟩, hcollected, rfl⟩ := mem_map.1 hmem
    exact ⟨_, delete_mem_collectionOps hcollected, rfl⟩

/-- The revision records after their keys have been counted up. -/
lemma getElem?_revisionMutations (keys : List Bytes) (engine : ExtTreeMap Bytes Bytes compare)
    (k : Bytes) :
    (writeBatch engine (keys.map σ.revisionMutation))[revisionKey k]? =
      if k ∈ keys then some (toDecimal (σ.currentRevision k + 1).toNat)
      else engine[revisionKey k]? := by
  induction keys generalizing engine with
  | nil => simp [writeBatch]
  | cons key rest ih =>
    have hrest := ih (applyOp engine (σ.revisionMutation key))
    rw [getElem?_applyOp] at hrest
    refine hrest.trans ?_
    by_cases hk : key = k
    · subst hk
      by_cases hmem : key ∈ rest <;> simp [hmem, revisionMutation]
    · simp [revisionMutation, hk, Ne.symm hk]

lemma getElem?_collectionOps_revisionKey (k : Bytes) :
    (writeBatch σ.engine (σ.collectionOps safePointTs))[revisionKey k]? =
      if k ∈ (σ.touched safePointTs).map Prod.fst then
        some (toDecimal (σ.currentRevision k + 1).toNat)
      else σ.engine[revisionKey k]? := by
  have hsplit : writeBatch σ.engine (σ.collectionOps safePointTs) =
      writeBatch (writeBatch σ.engine ((σ.touched safePointTs).flatMap fun item =>
        collectOps item.1 item.2)) (((σ.touched safePointTs).map Prod.fst).map
          σ.revisionMutation) := by
    rw [collectionOps, writeBatch, foldl_append, map_map]
    rfl
  rw [hsplit, getElem?_revisionMutations, getElem?_writeBatch_of_forall_ne]
  intro op hop
  rcases mem_collectOps hop with ⟨key, ts, rfl⟩ | ⟨key, commitTs, write, -, rfl⟩
  · exact dataKey_ne_revisionKey key k ts
  · exact writeKey_ne_revisionKey key k commitTs

lemma Mirrored.garbageCollect (h : σ.Mirrored) (safePointTs : Ts) (engineOk : Bool) :
    (σ.garbageCollect safePointTs engineOk).2.Mirrored := by
  have hversions (key : Bytes) := σ.versionsOf_garbageCollect safePointTs key
  have hrevisions (key : Bytes) := getElem?_foldl_insert (σ.touched safePointTs)
    (fun item => σ.currentRevision item.1 + 1) (fun key => σ.currentRevision key + 1)
    (fun _ _ => rfl) σ.revisions key
  have hlock (key : Bytes) := @getElem?_collectionOps_of_ne σ safePointTs (lockKey key)
    (fun _ _ => by simp) (fun _ _ => by simp) (fun _ => by simp)
  have happlied := @getElem?_collectionOps_of_ne σ safePointTs appliedRaftIndexKey
    (fun _ _ => appliedRaftIndexKey_ne_dataKey _ _)
    (fun _ _ => (writeKey_ne_appliedRaftIndexKey _ _).symm)
    (fun _ => (revisionKey_ne_appliedRaftIndexKey _).symm)
  unfold MvccStorage.garbageCollect
  rw [← touched]
  dsimp only
  split
  · exact h
  -- a key that is collected takes its next revision, in memory and in the engine
  have hexact (key : Bytes) : ((σ.touched safePointTs).foldl (fun revisions item =>
      revisions.insert item.1 (σ.currentRevision item.1 + 1)) σ.revisions)[key]? =
      ((writeBatch σ.engine (σ.collectionOps safePointTs))[revisionKey key]?).map decodeTs := by
    rw [hrevisions, getElem?_collectionOps_revisionKey, h.revisions]
    split
    · rw [Option.map_some, decodeTs, strtoull_toDecimal]
    · rfl
  refine ⟨⟨⟨fun key nowMs => ?_, fun key commitTs => ?_, fun key => ?_⟩, ⟨?_, ?_⟩, ?_⟩, hexact⟩
  · exact (h.indexed.locks key nowMs).trans (by rw [← hlock key]; rfl)
  · refine (congrArg (fun versions : Versions => versions[commitTs]?) (hversions key)).trans ?_
    change _ = (((writeBatch σ.engine (σ.collectionOps safePointTs))[writeKey key commitTs]?).bind
      decodeWriteValue).map _
    rw [getElem?_foldl_erase, getElem?_collectionOps_writeKey, h.indexed.versions]
    split <;> rfl
  · rw [currentRevision, ExtTreeMap.getD_eq_getD_getElem?]
    exact congrArg (fun revision => Option.getD revision 0) (hexact key)
  · -- only revision records are put, and these are in another table
    intro x value hget hstart
    change (writeBatch σ.engine (σ.collectionOps safePointTs))[x]? = some value at hget
    have hdeletes : ∀ op ∈ σ.collectionOps safePointTs, op.key = x → op.type = .delete := by
      intro op hop hkey
      rcases mem_collectionOps hop with ⟨k, ts, rfl⟩ | ⟨k, c, write, -, rfl⟩ | ⟨k, rfl⟩
      · rfl
      · rfl
      · rw [← hkey] at hstart
        simp [revisionMutation, revisionKey, ascii_revision, ascii_write, isPrefixOf] at hstart
    rw [getElem?_writeBatch_of_deletes _ _ _ hdeletes] at hget
    split_ifs at hget
    exact h.canonical.writes x value hget hstart
  · intro key value hget
    exact h.canonical.locks key value ((hlock key).symm.trans hget)
  · exact h.applied.trans (by rw [← happlied]; rfl)

/-! ## Recoveries -/

lemma mirrored_recover {engine : ExtTreeMap Bytes Bytes compare} (hcanonical : Canonical engine)
    (nowMs : UInt64) : (recoverMetadataFromEngine nowMs engine).Mirrored := by
  have hrecovered : Recovered engine (recoverMetadataFromEngine nowMs engine) := recovered nowMs
  refine ⟨⟨indexed_recover hcanonical, hcanonical.mono hrecovered.sub, ?_⟩, fun key => ?_⟩
  · rw [hrecovered.others _ fun key => (lockKey_ne_appliedRaftIndexKey key).symm]
    exact hrecovered.applied
  · rw [revision_recover, hrecovered.others _ fun _ => by simp]

end MvccStorage

/-! ## The states of a storage -/

/-- The states of a storage that has taken prepared commands, collections and snapshots of other
such storages, from the empty one. -/
inductive Reached : MvccStorage → Prop
  | empty : Reached .empty
  | applied {σ leader : MvccStorage} {command : Command} {proposal : Proposal} (raftIndex : UInt64)
      (env : ApplyEnv) : Reached σ → leader.prepare command = some proposal →
      Reached (proposal.apply σ raftIndex env).2
  | appliedAtomically {σ : MvccStorage} {commands : List PreparedApplyCommand} (env : ApplyEnv) :
      Reached σ → (∀ command ∈ commands, command.Prepared) →
      Reached (σ.applyPreparedCommandsAtomically commands env).2
  | collected {σ : MvccStorage} (safePointTs : Ts) (engineOk : Bool) : Reached σ →
      Reached (σ.garbageCollect safePointTs engineOk).2
  | restored {σ source : MvccStorage} (loaded : Bool) (nowMs : UInt64) : Reached σ →
      Reached source → Reached (σ.restoreSnapshot (some source.engine) loaded nowMs).2
  | reopened {σ : MvccStorage} (loaded : Bool) (nowMs : UInt64) : Reached σ →
      Reached (σ.restoreSnapshot none loaded nowMs).2

/-- In every state the indexes mirror the engine. -/
theorem Reached.mirrored (h : Reached σ) : σ.Mirrored := by
  induction h with
  | empty => exact mirrored_empty
  | applied raftIndex env _ hprepare ih => exact ih.apply (prepare_carries hprepare) raftIndex env
  | @appliedAtomically σ commands env _ hprepared ih =>
    have hcarries : ∀ command ∈ commands, command.Carries :=
      fun command hcommand => (hprepared command hcommand).carries
    cases happlied : σ.applyPreparedCommandsAtomically commands env with
    | mk ok τ =>
      cases ok with
      | true =>
        exact applyEach_induction (fun _ _ hown raftIndex h => h.apply hown raftIndex env) hcarries ih
          (applyEach_of_applyPreparedCommandsAtomically hcarries happlied).1
      | false =>
        rw [applyPreparedCommandsAtomically_refused hcarries happlied]
        exact ih
  | collected safePointTs engineOk _ ih => exact ih.garbageCollect safePointTs engineOk
  | @restored σ source loaded nowMs _ _ ih ihsource =>
    cases loaded with
    | true => exact mirrored_recover ihsource.canonical nowMs
    | false => exact ih
  | reopened loaded nowMs _ ih => exact mirrored_recover ih.canonical nowMs

/-- `ρ` has the locks of `σ` but for their cached values, its versions, its revisions and its
applied index. -/
structure Rebuilt (σ ρ : MvccStorage) : Prop where
  locks : ∀ key : Bytes, (ρ.locks[key]?).map MvccLock.bare = (σ.locks[key]?).map MvccLock.bare
  versions : ∀ key, ρ.versionsOf key = σ.versionsOf key
  revisions : ρ.revisions = σ.revisions
  applied : ρ.appliedRaftIndex = σ.appliedRaftIndex

/-- No transaction holds a lock on a key where it has a write record. -/
def LocksUnfinished (σ : MvccStorage) : Prop :=
  ∀ (key : Bytes) (lock : MvccLock) (commitTs : Ts) (write : MvccWrite),
    σ.locks[key]? = some lock → (σ.versionsOf key)[commitTs]? = some write →
      write.startTs ≠ lock.startTs

/-- Rebuilding the indexes from the engine gives those in memory if and only if no transaction holds
a lock on a key where it has a write record. -/
theorem rebuilt_iff_locksUnfinished (h : Reached σ) (nowMs : UInt64) :
    Rebuilt σ (recoverMetadataFromEngine nowMs σ.engine) ↔ LocksUnfinished σ := by
  have hmirrored := h.mirrored
  have hversions (key : Bytes) :
      (recoverMetadataFromEngine nowMs σ.engine).versionsOf key = σ.versionsOf key := by
    refine ExtTreeMap.ext_getElem? fun commitTs => ?_
    rw [versionsOf_recover hmirrored.canonical, hmirrored.indexed.versions]
  have hfinished (key : Bytes) (lock : MvccLock) : finished σ.engine key lock = true ↔
      ∃ (commitTs : Ts) (write : MvccWrite), (σ.versionsOf key)[commitTs]? = some write ∧
        write.startTs = lock.startTs := by
    rw [finished, Option.isSome_iff_ne_none, Ne, Versions.recordOf_eq_none,
      ← hversions, versionsOf, versionsOf, (recovered nowMs).writes]
    simp only [not_forall, exists_prop, not_not]
  have hlock (key : Bytes) :
      ((recoverMetadataFromEngine nowMs σ.engine).locks[key]?).map MvccLock.bare =
        ((σ.locks[key]?).map MvccLock.bare).filter fun lock => !finished σ.engine key lock := by
    rw [bare_locks_recover hmirrored.canonical, hmirrored.indexed.locks key nowMs]
  constructor
  · intro hrebuilt key lock commitTs write hheld hwrite hown
    have hsame := hrebuilt.locks key
    have hlive : finished σ.engine key lock.bare = true :=
      (hfinished key lock.bare).2 ⟨commitTs, write, hwrite, hown⟩
    rw [hlock, hheld, Option.map_some, Option.filter_some, hlive] at hsame
    cases hsame
  · intro hunfinished
    refine ⟨fun key => ?_, hversions, ?_, ?_⟩
    · rw [hlock]
      cases hheld : σ.locks[key]? with
      | none => rfl
      | some lock =>
        have hlive : finished σ.engine key lock.bare = false := by
          rw [← Bool.not_eq_true, hfinished]
          rintro ⟨commitTs, write, hwrite, hown⟩
          exact hunfinished key lock commitTs write hheld hwrite hown
        rw [Option.map_some, Option.filter_some, hlive]
        rfl
    · refine ExtTreeMap.ext_getElem? fun key => ?_
      rw [revision_recover, hmirrored.revisions]
    · rw [(recovered nowMs).applied, hmirrored.applied]
      rfl

/-- The runs of a storage on its own are among them. -/
lemma Reached.run (h : Reached σ) (steps : List Step) : Reached (σ.run steps) := by
  induction steps generalizing σ with
  | nil => exact h
  | cons step rest ih =>
    refine ih ?_
    change Reached (σ.exec step).2
    cases hprepare : σ.prepare step.command with
    | some proposal =>
      rw [exec_eq_apply hprepare]
      exact h.applied step.raftIndex step.env hprepare
    | none =>
      obtain ⟨command, raftIndex, env⟩ := step
      cases command with
      | garbageCollect safePointTs => exact h.collected safePointTs env.engineOk
      | _ => cases hprepare

/-- A transaction commits a key and takes a pessimistic lock on it afterwards. -/
def relockingRun : List Step :=
  [{ command := .prewrite [1] [7] ⟨[1], one_lt_maxSize⟩ 10 100 false 0 0 0 },
    { command := .commit [1] 10 20 },
    { command := .pessimisticLock [1] ⟨[1], one_lt_maxSize⟩ 10 100 30 500 0 }]

/-- The storage after the first two steps is rebuilt as it was. -/
theorem rebuilt_relockingRun_take :
    Reached (MvccStorage.empty.run (relockingRun.take 2)) ∧ Rebuilt (MvccStorage.empty.run (relockingRun.take 2))
      (recoverMetadataFromEngine 0 (MvccStorage.empty.run (relockingRun.take 2)).engine) := by
  have hreached : Reached (empty.run (relockingRun.take 2)) := Reached.empty.run _
  refine ⟨hreached, (rebuilt_iff_locksUnfinished hreached 0).2 ?_⟩
  intro key lock commitTs write hlock
  have hfree : (empty.run (relockingRun.take 2)).locks = ∅ := ExtTreeMap.isEmpty_iff.1 (by decide)
  rw [hfree] at hlock
  simp at hlock

/-- The lock of the third step is in memory and in the engine, and a restart drops it. -/
theorem not_rebuilt_relockingRun : ¬∀ σ : MvccStorage, Reached σ →
      ∀ nowMs, Rebuilt σ (recoverMetadataFromEngine nowMs σ.engine) := by
  intro h
  have hrebuilt := h _ (Reached.empty.run relockingRun) 0
  have hheld : ((empty.run relockingRun).locks[([1] : Bytes)]?).map
      MvccLock.startTs = some 10 := by decide
  have hdropped : (recoverMetadataFromEngine 0
      (empty.run relockingRun).engine).locks[([1] : Bytes)]? = none := by decide
  have hlock := hrebuilt.locks [1]
  rw [hdropped, Option.map_none, eq_comm, Option.map_eq_none_iff] at hlock
  rw [hlock] at hheld
  cases hheld

/-! ## Replays -/

section

variable {commands : List PreparedApplyCommand} {env env' : ApplyEnv}
  (hcommands : ∀ command ∈ commands, command.Carries ∧ command.raftIndex ≠ 0)
  (happlied : applyEach env σ commands = some τ)

include hcommands happlied

lemma applyEach_stale {ρ : MvccStorage} (hle : τ.appliedRaftIndex ≤ ρ.appliedRaftIndex) :
    applyEach env' ρ commands = some ρ := by
  induction commands generalizing σ with
  | nil => rfl
  | cons command rest ih =>
    obtain ⟨⟨-, hindex⟩, hrest⟩ := forall_mem_cons.1 hcommands
    obtain ⟨proposal, hproposal⟩ : ∃ proposal : Proposal, ∀ σ env,
        command.apply σ env = proposal.apply σ command.raftIndex env := by
      cases command with
      | single _ key prepared => exact ⟨.single key prepared, fun _ _ => rfl⟩
      | batch _ prepared => exact ⟨.batch prepared, fun _ _ => rfl⟩
    rw [applyEach, hproposal] at happlied
    split at happlied
    · rename_i σ' hok
      obtain ⟨hformed, hrecorded⟩ := Proposal.apply_ok hok hindex
      -- the rest of the commands has not taken the applied index back
      have hlater := applyEach_induction (P := (command.raftIndex ≤ ·.appliedRaftIndex))
        (fun ρ p _ _ h => UInt64.le_trans h (p.appliedRaftIndex_le ρ))
        (fun c hc => (hrest c hc).1) hrecorded happlied
      rw [applyEach, hproposal, Proposal.apply_stale hformed hindex (UInt64.le_trans hlater hle)]
      exact ih hrest happlied
    · cases happlied

/-- A restarted process that is given its log again finds everything applied. -/
theorem replay_after_restart (h : Reached σ) (nowMs : UInt64) :
    let ρ := recoverMetadataFromEngine nowMs τ.engine
    applyEach env' ρ commands = some ρ := by
  have hmirrored : τ.Mirrored := applyEach_induction (fun _ _ hown index h => h.apply hown index env)
    (fun c hc => (hcommands c hc).1) h.mirrored happlied
  refine applyEach_stale hcommands happlied ?_
  rw [(recovered nowMs).applied, hmirrored.applied]
  exact UInt64.le_refl _

end

/-- A second transaction overwrites the key that the first one has committed, and a third one is
rolled back on two keys. Each command is prepared on what the ones before it have left. -/
def overwritingLog : List PreparedApplyCommand :=
  let committed := MvccStorage.empty.run (relockingRun.take 2)
  let prewrite := preparePrewrite committed [1] [8] [1] 30 100 false 0 0 0
  let locked := (committed.applyPrepared [1] prewrite 5 ⟨0, true⟩).2
  [.single 5 [1] prewrite, .single 6 [1] (prepareCommit locked [1] 30 40),
    .batch 7 (prepareBatchRollback committed [[2], [3]] 50)]

/-- The log is applied to a storage with a committed key. After a restart it changes nothing, also
if the engine fails from then on. -/
theorem replay_after_restart_overwritingLog :
    ∃ τ, applyEach ⟨0, true⟩ (MvccStorage.empty.run (relockingRun.take 2)) overwritingLog = some τ ∧
      τ.appliedRaftIndex = 7 ∧
      let ρ := recoverMetadataFromEngine 0 τ.engine
      applyEach ⟨9, false⟩ ρ overwritingLog = some ρ := by
  have happlied : ((applyEach ⟨0, true⟩ (MvccStorage.empty.run (relockingRun.take 2))
      overwritingLog).map appliedRaftIndex) = some 7 := by decide
  obtain ⟨τ, hτ, hindex⟩ := Option.map_eq_some_iff.1 happlied
  refine ⟨τ, hτ, hindex, replay_after_restart ?_ hτ (Reached.empty.run _) 0⟩
  have hprepared : ∀ command ∈ overwritingLog, command.Prepared := by
    simp only [overwritingLog, forall_mem_cons, PreparedApplyCommand.Prepared]
    exact ⟨⟨_, .prewrite [1] [8] ⟨[1], one_lt_maxSize⟩ 30 100 false 0 0 0, rfl⟩,
      ⟨_, .commit [1] 30 40, rfl⟩, ⟨_, .batchRollback [[2], [3]] 50, rfl⟩, by simp⟩
  have hindexes : ∀ command ∈ overwritingLog, command.raftIndex ≠ 0 := by decide
  exact fun command hmem => ⟨(hprepared command hmem).carries, hindexes command hmem⟩

end StrataKV.Mvcc
