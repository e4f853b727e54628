import StrataKV.Mvcc.Batching
import StrataKV.Mvcc.Serve

/-!
# Batches and the single commands they stand for

A batch prepares the single command of each of its keys on one state and applies all that was
prepared at once. What a command prepares depends on the records of its own key only, and its
mutations leave the other keys alone. So a batch that succeeds leaves the state that the single
commands leave one after another, and a batch that fails leaves the state as it was.

A prepared command or batch that is applied again at its Raft index changes nothing.
-/

namespace StrataKV.Mvcc

open Decimal MvccStorage PreparedMvccWrite List Function
open Std (ExtTreeMap)

namespace MvccStorage

/-! ## States after writes -/

/-- The state after mutations without an applied index. -/
def afterWrites (nowMs : UInt64) (σ : MvccStorage) (ops : List KVBatchOp) : MvccStorage :=
  { ops.foldl (applyMetadataMutation nowMs) σ with engine := writeBatch σ.engine ops }

/-- The state with an applied index, if there is one. -/
def recordIndex (σ : MvccStorage) (raftIndex : UInt64) : MvccStorage :=
  if raftIndex = 0 then σ
  else
    { σ with
      engine := σ.engine.insert appliedRaftIndexKey (toDecimal raftIndex.toNat)
      appliedRaftIndex := raftIndex }

variable {σ : MvccStorage} {nowMs raftIndex : UInt64}

lemma afterWrites_nil : σ.afterWrites nowMs [] = σ := rfl

lemma afterWrites_afterWrites (ops rest : List KVBatchOp) :
    (σ.afterWrites nowMs ops).afterWrites nowMs rest = σ.afterWrites nowMs (ops ++ rest) := by
  have hwith := foldl_applyMetadataMutation_with nowMs rest
    (ops.foldl (applyMetadataMutation nowMs) σ) (writeBatch σ.engine ops)
    (ops.foldl (applyMetadataMutation nowMs) σ).appliedRaftIndex
  have hindex := (foldl_applyMetadataMutation_applied nowMs rest
    (ops.foldl (applyMetadataMutation nowMs) σ)).2
  unfold afterWrites
  rw [hwith, foldl_append, writeBatch, writeBatch, writeBatch, foldl_append, ← hindex]

/-- The replay of a committed batch is its writes and its index. -/
lemma afterWrites_recordIndex (ops : List KVBatchOp) :
    { ops.foldl (applyMetadataMutation nowMs) (σ.commitBatch ops raftIndex) with
      appliedRaftIndex := if raftIndex ≠ 0 then raftIndex else σ.appliedRaftIndex } =
      (σ.afterWrites nowMs ops).recordIndex raftIndex := by
  have hcommit : σ.commitBatch ops raftIndex =
      { σ with
        engine := (σ.commitBatch ops raftIndex).engine
        appliedRaftIndex := σ.appliedRaftIndex } := rfl
  rw [hcommit, foldl_applyMetadataMutation_with]
  have hindex := (foldl_applyMetadataMutation_applied nowMs ops σ).2
  by_cases h : raftIndex = 0
  · simp [recordIndex, afterWrites, commitBatch, h, hindex]
  · simp [recordIndex, afterWrites, commitBatch, h, writeBatch, applyOp]

end MvccStorage

/-! ## Single commands -/

/-- The write was prepared on the current revision of its key. -/
structure PreparedMvccWrite.Current (prepared : PreparedMvccWrite) (σ : MvccStorage) (key : Bytes) :
    Prop where
  version : prepared.commandVersion = PreparedMvccWrite.kLegacyCommandVersion ∨
    prepared.commandVersion = PreparedMvccWrite.kCommandVersion
  expected : prepared.expectedRevision = σ.currentRevision key
  next : prepared.modifications ≠ [] →
    prepared.status = .ok ∧ prepared.newRevision = prepared.expectedRevision + 1

/-- A single command: what it prepares is up to the records of its key, and is about its key. -/
structure Part where
  key : Bytes
  command : Command
  prepare : MvccStorage → PreparedMvccWrite
  serve_eq : ∀ (σ : MvccStorage) (raftIndex : UInt64) (env : ApplyEnv),
    σ.serve ⟨command, raftIndex, env⟩ = σ.serveWrite key (prepare σ) raftIndex env
  congr : ∀ {σ τ : MvccStorage}, τ.view key = σ.view key → prepare τ = prepare σ
  current : ∀ σ : MvccStorage, (prepare σ).Current σ key
  carries : ∀ σ : MvccStorage, ∃ mods, (prepare σ).Carries key mods

namespace MvccStorage

/-! ### What the prepare functions read -/

section

variable {σ τ : MvccStorage} {key : Bytes}

section

variable (h : τ.view key = σ.view key)

include h

lemma locks_of_view : τ.locks[key]? = σ.locks[key]? := congrArg KeyView.lock h

lemma versionsOf_of_view : τ.versionsOf key = σ.versionsOf key := congrArg KeyView.versions h

lemma currentRevision_of_view : τ.currentRevision key = σ.currentRevision key :=
  congrArg KeyView.revision h

/-- What is prepared depends on the view of the key only. -/
lemma preparePrewrite_congr (value primaryKey : Bytes) (startTs : Ts)
    (ttlMs : UInt64) (isDelete : Bool) (forUpdateTs : Ts) (nowMs nowMs' : UInt64) :
    τ.preparePrewrite key value primaryKey startTs ttlMs isDelete forUpdateTs nowMs nowMs' =
      σ.preparePrewrite key value primaryKey startTs ttlMs isDelete forUpdateTs nowMs nowMs' := by
  unfold preparePrewrite revisionMutation
  rw [locks_of_view h, versionsOf_of_view h, currentRevision_of_view h]

lemma preparePrewriteLock_congr (primaryKey : Bytes) (startTs : Ts)
    (ttlMs : UInt64) (forUpdateTs : Ts) :
    τ.preparePrewriteLock key primaryKey startTs ttlMs forUpdateTs =
      σ.preparePrewriteLock key primaryKey startTs ttlMs forUpdateTs := by
  unfold preparePrewriteLock revisionMutation
  rw [locks_of_view h, currentRevision_of_view h]

lemma prepareCommit_congr (startTs commitTs : Ts) :
    τ.prepareCommit key startTs commitTs = σ.prepareCommit key startTs commitTs := by
  unfold prepareCommit revisionMutation
  rw [locks_of_view h, versionsOf_of_view h, currentRevision_of_view h]

lemma prepareRollback_congr (startTs : Ts) :
    τ.prepareRollback key startTs = σ.prepareRollback key startTs := by
  unfold prepareRollback revisionMutation
  rw [locks_of_view h, versionsOf_of_view h, currentRevision_of_view h]

end

end

section

variable (σ : MvccStorage) (key : Bytes)

/-- What is prepared names the revision that the key has. -/
lemma preparePrewrite_current (value primaryKey : Bytes) (startTs : Ts) (ttlMs : UInt64)
    (isDelete : Bool) (forUpdateTs : Ts) (nowMs nowMs' : UInt64) :
    (σ.preparePrewrite key value primaryKey startTs ttlMs isDelete forUpdateTs nowMs
      nowMs').Current σ key := by
  unfold preparePrewrite
  split
  · exact ⟨.inl rfl, rfl, fun h => absurd rfl h⟩
  · split_ifs
    · exact ⟨.inl rfl, rfl, fun h => absurd rfl h⟩
    · exact ⟨.inl rfl, rfl, fun h => absurd rfl h⟩
    · exact ⟨.inl rfl, rfl, fun _ => ⟨rfl, rfl⟩⟩
    · exact ⟨.inl rfl, rfl, fun _ => ⟨rfl, rfl⟩⟩

lemma preparePrewriteLock_current (primaryKey : Bytes) (startTs : Ts) (ttlMs : UInt64)
    (forUpdateTs : Ts) :
    (σ.preparePrewriteLock key primaryKey startTs ttlMs forUpdateTs).Current σ key := by
  unfold preparePrewriteLock
  split
  · exact ⟨.inr rfl, rfl, fun h => absurd rfl h⟩
  · split
    · exact ⟨.inr rfl, rfl, fun h => absurd rfl h⟩
    · split
      · exact ⟨.inr rfl, rfl, fun h => absurd rfl h⟩
      · split
        · exact ⟨.inr rfl, rfl, fun h => absurd rfl h⟩
        · exact ⟨.inr rfl, rfl, fun _ => ⟨rfl, rfl⟩⟩

lemma prepareCommit_current (startTs commitTs : Ts) :
    (σ.prepareCommit key startTs commitTs).Current σ key := by
  unfold prepareCommit
  dsimp only
  split
  · split
    · exact ⟨.inl rfl, rfl, fun h => absurd rfl h⟩
    · exact ⟨.inl rfl, rfl, fun h => absurd rfl h⟩
  · split
    · exact ⟨.inl rfl, rfl, fun h => absurd rfl h⟩
    · split
      · exact ⟨.inl rfl, rfl, fun h => absurd rfl h⟩
      · split
        · exact ⟨.inl rfl, rfl, fun h => absurd rfl h⟩
        · split
          · exact ⟨.inl rfl, rfl, fun h => absurd rfl h⟩
          · exact ⟨.inl rfl, rfl, fun _ => ⟨rfl, rfl⟩⟩

lemma prepareRollback_current (startTs : Ts) : (σ.prepareRollback key startTs).Current σ key := by
  unfold prepareRollback
  split
  · exact ⟨.inl rfl, rfl, fun h => absurd rfl h⟩
  · exact ⟨.inl rfl, rfl, fun _ => ⟨rfl, rfl⟩⟩

end

end MvccStorage

namespace Part

def commit (key : Bytes) (startTs commitTs : Ts) : Part where
  key := key
  command := .commit key startTs commitTs
  prepare := fun σ => σ.prepareCommit key startTs commitTs
  serve_eq := fun _ _ _ => rfl
  congr := fun h => MvccStorage.prepareCommit_congr h startTs commitTs
  current := fun σ => σ.prepareCommit_current key startTs commitTs
  carries := fun σ => (σ.prepareCommit_prepares key startTs commitTs).1.exists_carries

def rollback (key : Bytes) (startTs : Ts) : Part where
  key := key
  command := .rollback key startTs
  prepare := fun σ => σ.prepareRollback key startTs
  serve_eq := fun _ _ _ => rfl
  congr := fun h => MvccStorage.prepareRollback_congr h startTs
  current := fun σ => σ.prepareRollback_current key startTs
  carries := fun σ => (σ.prepareRollback_prepares key startTs).exists_carries

def prewrite (mutation : MvccMutation) (primaryKey : Str) (startTs : Ts) (ttlMs : UInt64)
    (forUpdateTs : Ts) (nowMs nowMs' : UInt64) : Part where
  key := mutation.key
  command := .prewrite mutation.key mutation.value primaryKey startTs ttlMs mutation.isDelete
    forUpdateTs nowMs nowMs'
  prepare := fun σ => σ.preparePrewrite mutation.key mutation.value primaryKey startTs ttlMs
    mutation.isDelete forUpdateTs nowMs nowMs'
  serve_eq := fun _ _ _ => rfl
  congr := fun h => MvccStorage.preparePrewrite_congr h mutation.value primaryKey startTs ttlMs
    mutation.isDelete forUpdateTs nowMs nowMs'
  current := fun σ => σ.preparePrewrite_current mutation.key mutation.value primaryKey startTs ttlMs
    mutation.isDelete forUpdateTs nowMs nowMs'
  carries := fun σ => (σ.preparePrewrite_prepares mutation.key mutation.value primaryKey startTs
    forUpdateTs ttlMs mutation.isDelete nowMs nowMs' primaryKey.2).exists_carries

def prewriteLock (key : Bytes) (primaryKey : Str) (startTs : Ts) (ttlMs : UInt64)
    (forUpdateTs : Ts) : Part where
  key := key
  command := .prewriteLock key primaryKey startTs ttlMs forUpdateTs
  prepare := fun σ => σ.preparePrewriteLock key primaryKey startTs ttlMs forUpdateTs
  serve_eq := fun _ _ _ => rfl
  congr := fun h => MvccStorage.preparePrewriteLock_congr h primaryKey startTs ttlMs forUpdateTs
  current := fun σ => σ.preparePrewriteLock_current key primaryKey startTs ttlMs forUpdateTs
  carries := fun σ => (σ.preparePrewriteLock_prepares key primaryKey startTs forUpdateTs ttlMs
    primaryKey.2).exists_carries

end Part

/-! ## Batches -/

/-- A batch prewrite, commit or rollback; the clock readings of a prewrite are those for its
keys. -/
inductive BatchRequest
  | prewrite (mutations : List MvccMutation) (primaryKey : Str) (startTs : Ts) (ttlMs : UInt64)
      (forUpdateTs : Ts) (nowMs nowMs' : Bytes → UInt64)
  | commit (keys : List Bytes) (startTs commitTs : Ts)
  | rollback (keys : List Bytes) (startTs : Ts)

namespace BatchRequest

def keys : BatchRequest → List Bytes
  | prewrite mutations .. => mutations.map MvccMutation.key
  | commit keys .. => keys
  | rollback keys _ => keys

def command : BatchRequest → Command
  | prewrite mutations primaryKey startTs ttlMs forUpdateTs nowMs nowMs' =>
    .batchPrewrite mutations primaryKey startTs ttlMs forUpdateTs nowMs nowMs'
  | commit keys startTs commitTs => .batchCommit keys startTs commitTs
  | rollback keys startTs => .batchRollback keys startTs

def prepare (σ : MvccStorage) : BatchRequest → PreparedMvccBatch
  | prewrite mutations primaryKey startTs ttlMs forUpdateTs nowMs nowMs' =>
    σ.prepareBatchPrewrite mutations primaryKey startTs ttlMs forUpdateTs nowMs nowMs'
  | commit keys startTs commitTs => σ.prepareBatchCommit keys startTs commitTs
  | rollback keys startTs => σ.prepareBatchRollback keys startTs

/-- The single commands of the keys, in ascending order. -/
def parts : BatchRequest → List Part
  | prewrite mutations primaryKey startTs ttlMs forUpdateTs nowMs nowMs' =>
    (mutations.insertionSort fun a b => a.key ≤ b.key).map fun mutation =>
      if mutation.isLockOnly then
        .prewriteLock mutation.key primaryKey startTs ttlMs forUpdateTs
      else
        .prewrite mutation primaryKey startTs ttlMs forUpdateTs (nowMs mutation.key)
          (nowMs' mutation.key)
  | commit keys startTs commitTs =>
    (MvccStorage.orderedKeys keys).map fun key => .commit key startTs commitTs
  | rollback keys startTs => (MvccStorage.orderedKeys keys).map fun key => .rollback key startTs

def singles (request : BatchRequest) : List Command := request.parts.map Part.command

/-- A batch commit takes a key that is committed already for done. -/
def takesCommitted : BatchRequest → Bool
  | commit .. => true
  | _ => false

/-- The answers of a single command that the batch takes for a success. -/
def Accepts (request : BatchRequest) (status : TxnStatus) : Prop :=
  status = .ok ∨ request.takesCommitted = true ∧ status = .alreadyCommitted

instance decidableAccepts (request : BatchRequest) (status : TxnStatus) :
    Decidable (request.Accepts status) :=
  inferInstanceAs (Decidable (_ ∨ _))

/-- What a single command prepares, as an item of the batch. -/
def accept (request : BatchRequest) (prepared : PreparedMvccWrite) : PreparedMvccWrite :=
  if request.Accepts prepared.status then { prepared with status := .ok } else prepared

/-- The keys are distinct and none is empty. -/
structure Valid (request : BatchRequest) : Prop where
  nodup : request.keys.Nodup
  nonempty : [] ∉ request.keys

variable {request : BatchRequest} {σ : MvccStorage}

lemma parts_keys (request : BatchRequest) :
    request.parts.map Part.key = match request with
      | prewrite mutations .. =>
        (mutations.insertionSort fun a b => a.key ≤ b.key).map MvccMutation.key
      | commit keys .. => orderedKeys keys
      | rollback keys _ => orderedKeys keys := by
  cases request with
  | prewrite mutations primaryKey startTs ttlMs forUpdateTs nowMs nowMs' =>
    simp only [parts, map_map]
    refine map_congr_left fun mutation _ => ?_
    simp only [comp]
    split <;> rfl
  | commit keys startTs commitTs => simp [parts, Part.commit, comp_def]
  | rollback keys startTs => simp [parts, Part.rollback, comp_def]

/-- The parts have the keys of the request. -/
lemma mem_parts_keys {key : Bytes} : key ∈ request.parts.map Part.key ↔ key ∈ request.keys := by
  rw [parts_keys]
  cases request with
  | prewrite mutations primaryKey startTs ttlMs forUpdateTs nowMs nowMs' =>
    simp only [keys, mem_map, mem_insertionSort]
  | commit keys startTs commitTs | rollback keys startTs => exact mem_orderedKeys

/-- The parts of a valid request are in ascending order of their keys. -/
lemma Valid.ascending (h : request.Valid) : (request.parts.map Part.key).Pairwise (· < ·) := by
  rw [parts_keys]
  cases request with
  | prewrite mutations primaryKey startTs ttlMs forUpdateTs nowMs nowMs' =>
    have hperm := (perm_insertionSort (fun a b : MvccMutation => a.key ≤ b.key) mutations).map
      MvccMutation.key
    have hnodup := hperm.nodup_iff.2 h.nodup
    have htotal : Std.Total fun a b : MvccMutation => a.key ≤ b.key := ⟨fun a b => Std.le_total⟩
    have htrans : IsTrans MvccMutation fun a b => a.key ≤ b.key := ⟨fun a b c => Std.le_trans⟩
    have hsorted := pairwise_map.2
      (pairwise_insertionSort (fun a b : MvccMutation => a.key ≤ b.key) mutations)
    refine (hsorted.and hnodup).imp ?_
    rintro a b ⟨hle, hne⟩
    exact Std.lt_of_le_of_ne hle hne
  | commit keys startTs commitTs | rollback keys startTs => exact orderedKeys_pairwise keys

lemma Valid.nodup_parts (h : request.Valid) : (request.parts.map Part.key).Nodup := by
  refine h.ascending.imp ?_
  rintro a b hlt rfl
  exact Std.lt_irrefl hlt

lemma Valid.key_ne_nil (h : request.Valid) {part : Part} (hpart : part ∈ request.parts) :
    part.key ≠ [] := by
  intro hnil
  refine h.nonempty (mem_parts_keys.1 ?_)
  rw [← hnil]
  exact mem_map_of_mem hpart

/-- The status is all that a batch changes in what a single command prepares. -/
lemma accept_eq (request : BatchRequest) (prepared : PreparedMvccWrite) :
    request.accept prepared = { prepared with status := (request.accept prepared).status } := by
  unfold accept
  split <;> rfl

/-- The batch accepts a part that is ok, and a commit one that is committed already. -/
lemma accept_status_eq_ok {prepared : PreparedMvccWrite} :
    (request.accept prepared).status = .ok ↔ request.Accepts prepared.status := by
  unfold accept
  split_ifs with h
  · exact ⟨fun _ => h, fun _ => rfl⟩
  · exact ⟨fun hok => absurd (.inl hok) h, fun hok => absurd hok h⟩

lemma accept_of_not_takesCommitted (h : request.takesCommitted = false)
    (prepared : PreparedMvccWrite) : request.accept prepared = prepared := by
  unfold accept
  split_ifs with haccepts
  · have hok : prepared.status = .ok := haccepts.resolve_right (by simp [h])
    rw [← hok]
  · rfl

lemma accept_of_takesCommitted (h : request.takesCommitted = true) (prepared : PreparedMvccWrite) :
    request.accept prepared =
      if prepared.status = .alreadyCommitted then { prepared with status := .ok }
      else prepared := by
  unfold accept
  by_cases halready : prepared.status = .alreadyCommitted
  · have haccepts : request.Accepts prepared.status := .inr ⟨h, halready⟩
    rw [if_pos haccepts, if_pos halready]
  · rw [if_neg halready]
    split_ifs with haccepts
    · have hok : prepared.status = .ok := haccepts.resolve_right fun h => halready h.2
      rw [← hok]
    · rfl

/-- The items of a batch for single commands that were prepared on the state. -/
def items (request : BatchRequest) (σ : MvccStorage) : List PreparedMvccBatchItem :=
  request.parts.map fun part => ⟨part.key, request.accept (part.prepare σ)⟩

/-- A loop that goes over the keys of the single commands. -/
lemma items_of_prepareItems {keys : List Bytes} {f : Bytes → Part}
    (hparts : request.parts = keys.map f) (hkey : ∀ key, (f key).key = key)
    {prepare : Bytes → PreparedMvccWrite}
    (hprepare : ∀ key, prepare key = request.accept ((f key).prepare σ)) (hkeys : keys ≠ []) :
    (prepareItems prepare [] keys).status ≠ .ok ∨
      request.items σ ≠ [] ∧ (∀ item ∈ request.items σ, item.prepared.status = .ok) ∧
        prepareItems prepare [] keys = { status := .ok, items := request.items σ } := by
  have hitems : request.items σ = keys.map fun key => ⟨key, prepare key⟩ := by
    simp only [items, hparts, map_map]
    refine map_congr_left fun key _ => ?_
    simp only [comp, hkey, hprepare]
  rcases prepareItems_cases prepare [] keys with ⟨hne, -⟩ | ⟨hall, heq⟩
  · exact .inl hne
  · rw [heq, hitems]
    refine .inr ⟨by simpa using hkeys, ?_, by simp⟩
    intro item hitem
    obtain ⟨key, hkey, rfl⟩ := mem_map.1 hitem
    exact hall key hkey

/-- A batch is refused, or it has what its single commands prepare. -/
lemma prepare_cases (request : BatchRequest) (σ : MvccStorage) : (request.prepare σ).status ≠ .ok ∨
      request.items σ ≠ [] ∧ (∀ item ∈ request.items σ, item.prepared.status = .ok) ∧
        request.prepare σ = { status := .ok, items := request.items σ } := by
  cases request with
  | prewrite mutations primaryKey startTs ttlMs forUpdateTs nowMs nowMs' =>
    unfold prepare prepareBatchPrewrite
    dsimp only
    split
    · exact .inl (by simp)
    rename_i hready
    have haccept := @accept_of_not_takesCommitted
      (prewrite mutations primaryKey startTs ttlMs forUpdateTs nowMs nowMs') rfl
    have hitems : items (prewrite mutations primaryKey startTs ttlMs forUpdateTs nowMs nowMs') σ =
        (mutations.insertionSort fun a b => a.key ≤ b.key).map fun mutation =>
          ⟨mutation.key, if mutation.isLockOnly then
            σ.preparePrewriteLock mutation.key primaryKey startTs ttlMs forUpdateTs
          else
            σ.preparePrewrite mutation.key mutation.value primaryKey startTs ttlMs
              mutation.isDelete forUpdateTs (nowMs mutation.key) (nowMs' mutation.key)⟩ := by
      simp only [items, parts, map_map]
      refine map_congr_left fun mutation _ => ?_
      simp only [comp, haccept]
      split <;> rfl
    rcases prewriteItems_cases _ [] none
      (mutations.insertionSort fun a b => a.key ≤ b.key) with ⟨hne, -⟩ | ⟨hall, heq⟩
    · exact .inl hne
    · rw [heq, hitems]
      refine .inr ⟨by simpa using hready, ?_, rfl⟩
      intro item hitem
      obtain ⟨mutation, hmutation, rfl⟩ := mem_map.1 hitem
      exact hall mutation hmutation
  | commit keys startTs commitTs =>
    unfold prepare prepareBatchCommit
    dsimp only
    split
    · exact .inl (by simp)
    rename_i hready
    refine items_of_prepareItems (f := fun key => .commit key startTs commitTs) rfl
      (fun _ => rfl) ?_ (fun h => hready (.inl h))
    intro key
    exact (accept_of_takesCommitted rfl _).symm
  | rollback keys startTs =>
    unfold prepare prepareBatchRollback
    dsimp only
    split
    · exact .inl (by simp)
    rename_i hready
    refine items_of_prepareItems (f := fun key => .rollback key startTs) rfl
      (fun _ => rfl) ?_ (fun h => hready (.inl h))
    intro key
    exact (accept_of_not_takesCommitted rfl _).symm

end BatchRequest

namespace MvccStorage

/-- Serve the commands one after another, without Raft indexes. -/
def serveAll (env : ApplyEnv) : MvccStorage → List Command → List Reply × MvccStorage
  | σ, [] => ([], σ)
  | σ, command :: rest =>
    let served := σ.serve ⟨command, 0, env⟩
    let others := serveAll env served.2 rest
    (served.1 :: others.1, others.2)

variable {σ τ : MvccStorage} {env : ApplyEnv} {raftIndex : UInt64}

/-! ## The single commands one after another -/

lemma recordIndex_zero (σ : MvccStorage) : σ.recordIndex 0 = σ := if_pos rfl

/-- What a command has prepared on the state is applied to it. -/
lemma serveWrite_part (part : Part) (hok : env.engineOk = true) :
    σ.serveWrite part.key (part.prepare σ) 0 env =
      (⟨(part.prepare σ).status, (part.prepare σ).txnRecordStatus⟩,
        σ.afterWrites env.nowMs (part.prepare σ).modifications) := by
  have hcurrent := part.current σ
  obtain ⟨mods, hcarries⟩ := part.carries σ
  unfold serveWrite
  by_cases hnil : (part.prepare σ).modifications = []
  · rw [if_neg (by simp [hasChanges, hnil]), hnil, afterWrites_nil]
  · obtain ⟨hstatus, hnew⟩ := hcurrent.next hnil
    have hchecks : ¬(((part.prepare σ).commandVersion ≠ kLegacyCommandVersion ∧
          (part.prepare σ).commandVersion ≠ kCommandVersion) ∨
        (part.prepare σ).status ≠ .ok ∨ (part.prepare σ).modifications = [] ∨
        (part.prepare σ).newRevision ≠ (part.prepare σ).expectedRevision + 1) := by
      have hversion := hcurrent.version
      tauto
    rw [if_pos (by simp [hasChanges, hstatus, hnil]), applyPrepared_eq hcarries,
      if_neg hchecks, if_neg (by simp [Stale]), if_neg (not_not.2 hcurrent.expected.symm),
      if_neg (by simp [hok]), afterApply, afterWrites_recordIndex, recordIndex_zero, hstatus]

/-- A part leaves the other keys alone. -/
lemma view_afterWrites_part (part : Part) (nowMs : UInt64) {k : Bytes} (hk : part.key ≠ k) :
    (σ.afterWrites nowMs (part.prepare σ).modifications).view k = σ.view k := by
  obtain ⟨mods, hcarries⟩ := part.carries σ
  have hview : (σ.afterApply (part.prepare σ) 0 ⟨nowMs, true⟩).view k = _ :=
    view_afterApply hcarries k
  rw [if_neg hk, afterApply, afterWrites_recordIndex, recordIndex_zero] at hview
  exact hview

variable {parts : List Part}

/-- The commands of different keys, one after another, do what each of them prepares on the first
state. -/
lemma serveAll_parts (hnodup : (parts.map Part.key).Nodup)
    (hok : env.engineOk = true) (hview : ∀ part ∈ parts, τ.view part.key = σ.view part.key) :
    serveAll env τ (parts.map Part.command) =
      (parts.map fun part => ⟨(part.prepare σ).status, (part.prepare σ).txnRecordStatus⟩,
        τ.afterWrites env.nowMs (parts.flatMap fun part => (part.prepare σ).modifications)) := by
  induction parts generalizing τ with
  | nil => rfl
  | cons part rest ih =>
    obtain ⟨hfirst, hrest⟩ := forall_mem_cons.1 hview
    obtain ⟨hnotin, hnodup'⟩ := nodup_cons.1 hnodup
    rw [map_cons, serveAll, part.serve_eq, serveWrite_part part hok]
    have hview' : ∀ other ∈ rest,
        (τ.afterWrites env.nowMs (part.prepare τ).modifications).view other.key =
          σ.view other.key := by
      intro other hother
      have hne : part.key ≠ other.key := fun heq => hnotin (heq ▸ mem_map_of_mem hother)
      rw [view_afterWrites_part part env.nowMs hne]
      exact hrest other hother
    rw [ih hnodup' hview', part.congr hfirst, afterWrites_afterWrites]
    rfl

/-! ## The batch at once -/

/-- The items of single commands pass the checks on the state they were prepared on. -/
lemma batchModifications_parts {request : BatchRequest} {previous : Bytes}
    (hascending : (parts.map Part.key).Pairwise (· < ·))
    (hprevious : ∀ part ∈ parts, previous = [] ∨ previous < part.key)
    (hkeys : ∀ part ∈ parts, part.key ≠ [])
    (hstatus : ∀ part ∈ parts, (request.accept (part.prepare σ)).status = .ok) :
    σ.batchModifications previous
        (parts.map fun part => ⟨part.key, request.accept (part.prepare σ)⟩) =
      some (parts.flatMap fun part => (part.prepare σ).modifications) := by
  induction parts generalizing previous with
  | nil => rfl
  | cons part rest ih =>
    obtain ⟨hbelow, hascending'⟩ := pairwise_cons.1 hascending
    obtain ⟨hfirst, -⟩ := forall_mem_cons.1 hprevious
    obtain ⟨hkey, hkeys'⟩ := forall_mem_cons.1 hkeys
    obtain ⟨hok, hstatus'⟩ := forall_mem_cons.1 hstatus
    have hrest := @ih part.key hascending'
      (fun other hother => .inr (hbelow _ (mem_map_of_mem hother))) hkeys' hstatus'
    have horder : ¬(previous ≠ [] ∧ part.key ≤ previous) := by
      rintro ⟨hne, hle⟩
      rcases hfirst with hnil | hlt
      · exact hne hnil
      · exact absurd hle (Std.not_le.2 hlt)
    have hcurrent := part.current σ
    rw [map_cons, batchModifications, if_neg (by simp [hkey, horder, hok])]
    rw [request.accept_eq] at hok ⊢
    by_cases hnil : (part.prepare σ).modifications = []
    · rw [if_pos hnil, hrest, flatMap_cons, hnil]
      rfl
    · have hnew := (hcurrent.next hnil).2
      rw [if_neg hnil, if_neg (by simp [hnew, hcurrent.expected]), hrest]
      rfl

/-- The clock of the apply does not matter to what was prepared. -/
lemma afterWrites_parts_clock (parts : List Part) (nowMs nowMs' : UInt64) :
    σ.afterWrites nowMs (parts.flatMap fun part => (part.prepare σ).modifications) =
      σ.afterWrites nowMs' (parts.flatMap fun part => (part.prepare σ).modifications) := by
  have hfold : ∀ τ : MvccStorage, (parts.flatMap fun part => (part.prepare σ).modifications).foldl
          (applyMetadataMutation nowMs) τ =
        (parts.flatMap fun part => (part.prepare σ).modifications).foldl
          (applyMetadataMutation nowMs') τ := by
    induction parts with
    | nil => exact fun _ => rfl
    | cons part rest ih =>
      intro τ
      obtain ⟨mods, hcarries⟩ := part.carries σ
      rw [flatMap_cons, foldl_append, foldl_append,
        foldl_applyMetadataMutation_clock nowMs nowMs' τ hcarries, ih]
  unfold afterWrites
  rw [hfold]

variable {request : BatchRequest}

/-- The items of a batch carry modifications of their own keys. -/
lemma itemsCarry_items (request : BatchRequest) (σ : MvccStorage) :
    ItemsCarry (request.items σ) := by
  intro item hitem
  obtain ⟨part, -, rfl⟩ := mem_map.1 hitem
  obtain ⟨mods, hcarries⟩ := part.carries σ
  refine ⟨mods, ?_⟩
  rw [request.accept_eq]
  exact ⟨hcarries.ops, hcarries.sized, hcarries.revision⟩

/-- The batch of single commands that has something to change is written at once. -/
lemma applyPreparedBatch_items (hvalid : request.Valid)
    (hstatus : ∀ item ∈ request.items σ, item.prepared.status = .ok)
    (hfresh : raftIndex = 0 ∨ σ.appliedRaftIndex < raftIndex)
    (hchanges : (request.parts.flatMap fun part => (part.prepare σ).modifications) ≠ []) :
    σ.applyPreparedBatch { status := .ok, items := request.items σ } raftIndex env =
      if env.engineOk then
        (.ok, (σ.afterWrites env.nowMs
          (request.parts.flatMap fun part => (part.prepare σ).modifications)).recordIndex raftIndex)
      else (.storageError, σ) := by
  have hitems : request.items σ ≠ [] := by
    intro hnil
    rw [map_eq_nil_iff.1 hnil] at hchanges
    exact hchanges rfl
  have hstale : ¬(raftIndex ≠ 0 ∧ raftIndex ≤ σ.appliedRaftIndex) := by
    rintro ⟨hne, hle⟩
    exact absurd (hfresh.resolve_left hne) (UInt64.not_lt.2 hle)
  have hops : σ.batchModifications [] (request.items σ) =
      some (request.parts.flatMap fun part => (part.prepare σ).modifications) :=
    batchModifications_parts hvalid.ascending (fun _ _ => .inl rfl)
      (fun part hpart => hvalid.key_ne_nil hpart)
      (fun part hpart => hstatus _ (mem_map_of_mem hpart))
  obtain ⟨hflat, -, -⟩ := batchModifications_eq_some hops
  unfold applyPreparedBatch
  rw [if_neg (by simpa [PreparedMvccBatch.kCommandVersion] using hitems), if_neg hstale]
  simp only [hops]
  cases hengine : env.engineOk with
  | false => simp
  | true =>
    have hready : ¬((request.parts.flatMap fun part => (part.prepare σ).modifications) = [] ∧
        raftIndex = 0 ∨ (!true) = true) := by
      rintro (⟨hnil, -⟩ | h)
      · exact hchanges hnil
      · simp at h
    rw [if_neg hready,
      applyItems_eq env.nowMs (request.items σ) _ (itemsCarry_items request σ), ← hflat]
    simp only [Bool.not_true, Bool.false_eq_true, if_false, if_true]
    rw [afterWrites_recordIndex]

/-- The batch has something to change if one of its single commands has. -/
lemma hasChanges_items (hstatus : ∀ item ∈ request.items σ, item.prepared.status = .ok) :
    (PreparedMvccBatch.hasChanges { status := .ok, items := request.items σ }) = true ↔
      (request.parts.flatMap fun part => (part.prepare σ).modifications) ≠ [] := by
  have hitem (part : Part) (hpart : part ∈ request.parts) :
      (request.accept (part.prepare σ)).hasChanges = true ↔
        (part.prepare σ).modifications ≠ [] := by
    have hok : (request.accept (part.prepare σ)).status = .ok := hstatus _ (mem_map_of_mem hpart)
    rw [hasChanges, hok, request.accept_eq]
    simp
  rw [Ne, flatMap_eq_nil_iff, PreparedMvccBatch.hasChanges]
  simp only [beq_self_eq_true, Bool.true_and, BatchRequest.items, any_map, any_eq_true,
    comp, not_forall, exists_prop]
  exact exists_congr fun part => and_congr_right (hitem part)

lemma serve_request (request : BatchRequest) :
    σ.serve ⟨request.command, raftIndex, env⟩ = σ.serveBatch (request.prepare σ) raftIndex env := by
  cases request <;> rfl

end MvccStorage

/-! ## Applying again -/

section

variable {σ τ : MvccStorage} {raftIndex : UInt64} {env : ApplyEnv} {proposal : Proposal}

/-- What the checks of a proposal before the index are about. -/
def Proposal.WellFormed : Proposal → Prop
  | .single _ prepared =>
    ¬((prepared.commandVersion ≠ PreparedMvccWrite.kLegacyCommandVersion ∧
        prepared.commandVersion ≠ PreparedMvccWrite.kCommandVersion) ∨
      prepared.status ≠ .ok ∨ prepared.modifications = [] ∨
      prepared.newRevision ≠ prepared.expectedRevision + 1)
  | .batch prepared =>
    ¬(prepared.commandVersion ≠ PreparedMvccBatch.kCommandVersion ∨ prepared.status ≠ .ok ∨
      prepared.items = [])

/-- A proposal that is applied is well-formed, and its index is recorded. -/
lemma Proposal.apply_ok (h : proposal.apply σ raftIndex env = (.ok, τ)) (hindex : raftIndex ≠ 0) :
    proposal.WellFormed ∧ raftIndex ≤ τ.appliedRaftIndex := by
  cases proposal with
  | single key prepared =>
    unfold Proposal.apply applyPrepared at h
    dsimp only at h
    rw [if_pos hindex] at h
    split_ifs at h with hchecks hstale hrevision hengine hnew
    · cases h
    · cases h
      exact ⟨hchecks, hstale.2⟩
    · cases h
    · cases h
    · cases h
    · cases h
      exact ⟨hchecks, UInt64.le_refl _⟩
  | batch prepared =>
    unfold Proposal.apply applyPreparedBatch at h
    dsimp only at h
    rw [if_pos hindex] at h
    split_ifs at h with hchecks hstale
    · cases h
    · cases h
      exact ⟨hchecks, hstale.2⟩
    · split at h
      · cases h
      · split_ifs at h
        · cases h
        · cases h
        · cases h
          exact ⟨hchecks, UInt64.le_refl _⟩

/-- A well-formed proposal at an index that was applied changes nothing. -/
lemma Proposal.apply_stale (h : proposal.WellFormed) (hindex : raftIndex ≠ 0)
    (hle : raftIndex ≤ σ.appliedRaftIndex) : proposal.apply σ raftIndex env = (.ok, σ) := by
  cases proposal with
  | single key prepared =>
    change σ.applyPrepared key prepared raftIndex env = (.ok, σ)
    unfold applyPrepared
    rw [if_neg h, if_pos ⟨hindex, hle⟩]
  | batch prepared =>
    change σ.applyPreparedBatch prepared raftIndex env = (.ok, σ)
    unfold applyPreparedBatch
    rw [if_neg h, if_pos ⟨hindex, hle⟩]

lemma MvccStorage.applyItems_index (nowMs : UInt64) (items : List PreparedMvccBatchItem)
    (σ : MvccStorage) : (applyItems nowMs σ items).2.appliedRaftIndex = σ.appliedRaftIndex := by
  induction items generalizing σ with
  | nil => rfl
  | cons item rest ih =>
    have hitem := (foldl_applyMetadataMutation_applied nowMs item.prepared.modifications σ).2
    unfold applyItems
    dsimp only
    split
    · exact hitem
    · rw [ih, hitem]

/-- An index that is not stale is recorded above the one before. -/
lemma MvccStorage.le_of_not_stale (h : ¬(raftIndex ≠ 0 ∧ raftIndex ≤ σ.appliedRaftIndex)) :
    σ.appliedRaftIndex ≤ if raftIndex ≠ 0 then raftIndex else σ.appliedRaftIndex := by
  split_ifs with hne
  · have hlt : σ.appliedRaftIndex < raftIndex := UInt64.not_le.1 fun hle => h ⟨hne, hle⟩
    exact UInt64.le_of_lt hlt
  · exact UInt64.le_refl _

/-- The applied index does not go back. -/
lemma Proposal.appliedRaftIndex_le (proposal : Proposal) (σ : MvccStorage) :
    σ.appliedRaftIndex ≤ (proposal.apply σ raftIndex env).2.appliedRaftIndex := by
  cases proposal with
  | single key prepared =>
    unfold Proposal.apply applyPrepared
    dsimp only
    split
    · exact UInt64.le_refl _
    split
    · exact UInt64.le_refl _
    rename_i hstale
    split
    · exact UInt64.le_refl _
    split
    · exact UInt64.le_refl _
    split
    · rw [(foldl_applyMetadataMutation_applied _ _ _).2]
      exact UInt64.le_refl _
    · exact le_of_not_stale hstale
  | batch prepared =>
    unfold Proposal.apply applyPreparedBatch
    dsimp only
    split
    · exact UInt64.le_refl _
    split
    · exact UInt64.le_refl _
    rename_i hstale
    split
    · exact UInt64.le_refl _
    split
    · exact UInt64.le_refl _
    split
    · rw [applyItems_index]
      exact UInt64.le_refl _
    · exact le_of_not_stale hstale

lemma MvccStorage.appliedRaftIndex_le_exec (σ : MvccStorage) (step : Step) :
    σ.appliedRaftIndex ≤ (σ.exec step).2.appliedRaftIndex := by
  cases hprepare : σ.prepare step.command with
  | some proposal =>
    rw [exec_eq_apply hprepare]
    exact proposal.appliedRaftIndex_le σ
  | none =>
    obtain ⟨command, raftIndex, env⟩ := step
    cases command with
    | garbageCollect safePointTs =>
      change _ ≤ (σ.garbageCollect safePointTs env.engineOk).2.appliedRaftIndex
      unfold garbageCollect
      dsimp only
      split <;> exact UInt64.le_refl _
    | _ => cases hprepare

end

/-- A batch of distinct keys is refused and changes nothing, or leaves the state of its single
commands one after another, with the Raft index it is applied at; and what was applied at a Raft
index once changes nothing when it is applied at the index again. -/
theorem batch_eq_singles (σ : MvccStorage) :
    (∀ request : BatchRequest, request.Valid → ∀ (raftIndex : UInt64) (env : ApplyEnv)
      (nowMs : UInt64), raftIndex = 0 ∨ σ.appliedRaftIndex < raftIndex →
      let served := σ.serve ⟨request.command, raftIndex, env⟩
      let singles := σ.serveAll ⟨nowMs, true⟩ request.singles
      served.1.status ≠ .ok ∧ served.2 = σ ∨
        served.1.status = .ok ∧ (∀ reply ∈ singles.1, request.Accepts reply.status) ∧
          served.2 = if (request.prepare σ).hasChanges then singles.2.recordIndex raftIndex
            else singles.2) ∧
    ∀ (proposal : Proposal) (raftIndex : UInt64) (env : ApplyEnv) (σ' : MvccStorage),
      raftIndex ≠ 0 → proposal.apply σ raftIndex env = (.ok, σ') →
      ∀ (τ : MvccStorage), storageSystem.Reaches TransitionSystem.anyStep σ' τ →
      ∀ env', proposal.apply τ raftIndex env' = (.ok, τ) := by
  constructor
  · intro request hvalid raftIndex env nowMs hfresh
    dsimp only
    rw [serve_request]
    rcases request.prepare_cases σ with hrefused | ⟨-, hstatus, heq⟩
    · -- what is refused has no changes
      have hchanges : (request.prepare σ).hasChanges = false := by
        simp [PreparedMvccBatch.hasChanges, hrefused]
      rw [serveBatch, if_neg (by simp [hchanges])]
      exact .inl ⟨hrefused, rfl⟩
    -- the parts have different keys, so each is prepared as on the first storage
    have hsingles : σ.serveAll ⟨nowMs, true⟩ request.singles = _ :=
      serveAll_parts hvalid.nodup_parts rfl (fun _ _ => rfl)
    have haccepts : ∀ reply ∈ (σ.serveAll ⟨nowMs, true⟩ request.singles).1,
        request.Accepts reply.status := by
      rw [hsingles]
      intro reply hreply
      obtain ⟨part, hpart, rfl⟩ := mem_map.1 hreply
      exact BatchRequest.accept_status_eq_ok.1 (hstatus _ (mem_map_of_mem hpart))
    have hchanged := hasChanges_items hstatus
    rw [heq, serveBatch]
    by_cases hchanges : (request.parts.flatMap fun part => (part.prepare σ).modifications) = []
    · rw [if_neg (fun h => hchanged.1 h hchanges), if_neg (fun h => hchanged.1 h hchanges)]
      refine .inr ⟨rfl, haccepts, ?_⟩
      rw [hsingles, hchanges]
      rfl
    · rw [if_pos (hchanged.2 hchanges), if_pos (hchanged.2 hchanges)]
      rw [applyPreparedBatch_items hvalid hstatus hfresh hchanges]
      split
      · refine .inr ⟨rfl, haccepts, ?_⟩
        rw [hsingles]
        rw [afterWrites_parts_clock request.parts env.nowMs nowMs]
      · exact .inl ⟨by simp, rfl⟩
  -- applied again, the index tells that it was applied
  · intro proposal raftIndex env σ' hindex happly τ hreach env'
    obtain ⟨hformed, hle⟩ := Proposal.apply_ok happly hindex
    refine Proposal.apply_stale hformed hindex ?_
    refine hreach.stable (I := fun τ => raftIndex ≤ τ.appliedRaftIndex) ?_ hle
    intro τ step τ' hτ _ hstep
    have hexec : τ' = (τ.exec step).2 := hstep
    rw [hexec]
    exact UInt64.le_trans hτ (τ.appliedRaftIndex_le_exec step)

/-- Two keys in the wrong order. -/
def twoRollbacks : BatchRequest := .rollback [[2], [1]] 10

theorem batch_eq_singles_twoRollbacks :
    (MvccStorage.empty.serve ⟨twoRollbacks.command, 5, ⟨0, true⟩⟩).1.status = .ok ∧
      (MvccStorage.empty.serve ⟨twoRollbacks.command, 5, ⟨0, true⟩⟩).2 =
        (MvccStorage.empty.serveAll ⟨7, true⟩
          [.rollback [1] 10, .rollback [2] 10]).2.recordIndex 5 := by
  have hok : (empty.serve ⟨twoRollbacks.command, 5, ⟨0, true⟩⟩).1.status = .ok := by
    decide
  have hparts := (batch_eq_singles .empty).1 twoRollbacks ⟨by decide, by decide⟩ 5 ⟨0, true⟩ 7
    (by decide)
  obtain ⟨-, -, hstate⟩ := hparts.resolve_left fun h => h.1 hok
  have hchanges : (twoRollbacks.prepare empty).hasChanges = true := by decide
  rw [if_pos hchanges] at hstate
  exact ⟨hok, hstate⟩

end StrataKV.Mvcc
