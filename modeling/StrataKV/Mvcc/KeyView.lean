import StrataKV.Mvcc.Command

/-!
# One key of the storage

Every prepared command reads and writes one key's records only: its lock, its version chain, its
data records and its revision. `MvccStorage.view` collects them and `KeyStep` says, once for the
whole development, what a command can do to them. `exec_view` connects the two: each step of a
run changes each key's view by a part of its command, by a collection, or not at all.
-/

namespace StrataKV.Mvcc

open Decimal List
open Std (ExtTreeMap)

/-- The records of one key. -/
@[ext]
structure KeyView where
  lock : Option MvccLock
  versions : Versions
  data : Ts → Option Bytes
  revision : UInt64

def MvccStorage.view (σ : MvccStorage) (key : Bytes) : KeyView where
  lock := σ.locks[key]?
  versions := σ.versionsOf key
  data := fun ts => σ.engine[dataKey key ts]?
  revision := σ.currentRevision key

/-! ## Mutations of one key -/

/-- The mutations that prepared writes are made of. -/
inductive KeyMod
  | putData (startTs : Ts) (value : Bytes)
  | delData (startTs : Ts)
  | putLock (lock : MvccLock)
  | delLock
  | putWrite (commitTs : Ts) (write : MvccWrite)
  | putRevision (revision : UInt64)

namespace KeyMod

/-- The engine mutation of a key's mutation. -/
def toOp (key : Bytes) : KeyMod → KVBatchOp
  | putData startTs value => ⟨.put, dataKey key startTs, value⟩
  | delData startTs => ⟨.delete, dataKey key startTs, []⟩
  | putLock lock => ⟨.put, lockKey key, encodeLockValue lock⟩
  | delLock => ⟨.delete, lockKey key, []⟩
  | putWrite commitTs write => ⟨.put, writeKey key commitTs, encodeWriteValue write⟩
  | putRevision revision => ⟨.put, revisionKey key, toDecimal revision.toNat⟩

/-- A lock is stored behind a length field, so its primary key must be a string. -/
def Sized : KeyMod → Prop
  | putLock lock => lock.primaryKey.length < maxSize
  | _ => True

/-- What a mutation does to the key's data records, which live in the engine. -/
def onData : KeyMod → (Ts → Option Bytes) → Ts → Option Bytes
  | putData startTs value, data => Function.update data startTs (some value)
  | delData startTs, data => Function.update data startTs none
  | _, data => data

/-- What a mutation does to the key's in-memory records. -/
def onIndexes : KeyMod → KeyView → KeyView
  | putLock lock, v => { v with lock := some lock.normalize }
  | delLock, v => { v with lock := none }
  | putWrite commitTs write, v =>
    { v with versions := v.versions.insert commitTs { write with commitTs := commitTs } }
  | putRevision revision, v => { v with revision := revision }
  | _, v => v

/-- What a mutation does to the key's view. -/
def onView (m : KeyMod) (v : KeyView) : KeyView :=
  { m.onIndexes v with data := m.onData v.data }

lemma onIndexes_with_data (m : KeyMod) (v : KeyView) (data : Ts → Option Bytes) :
    m.onIndexes { v with data := data } = { m.onIndexes v with data := data } := by
  cases m <;> rfl

lemma foldl_onIndexes_with_data (mods : List KeyMod) (v : KeyView) (data : Ts → Option Bytes) :
    mods.foldl (fun v m => m.onIndexes v) { v with data := data } =
      { mods.foldl (fun v m => m.onIndexes v) v with data := data } := by
  induction mods generalizing v with
  | nil => rfl
  | cons m mods ih => rw [foldl_cons, onIndexes_with_data, ih, foldl_cons]

/-- The data records and the in-memory records of a view are updated independently. -/
lemma foldl_onView (mods : List KeyMod) (v : KeyView) : mods.foldl (fun v m => m.onView v) v =
      { mods.foldl (fun v m => m.onIndexes v) v with
        data := mods.foldl (fun data m => m.onData data) v.data } := by
  induction mods generalizing v with
  | nil => rfl
  | cons m mods ih =>
    rw [foldl_cons, ih, onView, foldl_onIndexes_with_data]
    rfl

end KeyMod

/-! ## Mutations on the engine -/

variable (engine : ExtTreeMap Bytes Bytes compare)

lemma getElem?_applyOp (op : KVBatchOp) (x : Bytes) : (applyOp engine op)[x]? =
      if op.key = x then (if op.type = .put then some op.value else none) else engine[x]? := by
  cases h : op.type <;>
    simp [applyOp, h, ExtTreeMap.getElem?_insert, ExtTreeMap.getElem?_erase]

/-- The data records of key `k` in an engine. -/
def dataOf (k : Bytes) : Ts → Option Bytes := fun ts => engine[dataKey k ts]?

lemma dataOf_applyOp_toOp (m : KeyMod) (key k : Bytes) : dataOf (applyOp engine (m.toOp key)) k =
      if key = k then m.onData (dataOf engine k) else dataOf engine k := by
  funext ts
  simp only [dataOf, getElem?_applyOp]
  by_cases hk : key = k
  · subst hk
    cases m with
    | putData s value | delData s =>
      by_cases hs : s = ts
      · subst hs
        simp [KeyMod.toOp, KeyMod.onData]
      · simp [KeyMod.toOp, KeyMod.onData, dataOf, dataKey_inj, hs,
          Function.update_of_ne (Ne.symm hs)]
    | putLock | delLock | putWrite | putRevision => simp [KeyMod.toOp, KeyMod.onData, dataOf]
  · rw [if_neg hk]
    cases m <;> simp [KeyMod.toOp, dataKey_inj, hk, dataOf]

/-- A batch of mutations of `key` changes the data records of `key` only. -/
lemma dataOf_writeBatch_toOp (mods : List KeyMod) (key k : Bytes) :
    dataOf (writeBatch engine (mods.map (KeyMod.toOp key))) k =
      if key = k then mods.foldl (fun data m => m.onData data) (dataOf engine k)
      else dataOf engine k := by
  induction mods generalizing engine with
  | nil => simp [writeBatch]
  | cons m mods ih =>
    have := ih (applyOp engine (m.toOp key))
    simp only [writeBatch, map_cons, foldl_cons] at this ⊢
    rw [this, dataOf_applyOp_toOp]
    by_cases hk : key = k <;> simp [hk]

/-! ## Mutations on the in-memory indexes -/

namespace MvccStorage

variable (nowMs : UInt64) (σ : MvccStorage) (key : Bytes)

@[simp] lemma getElem?_writes_getD : (σ.writes[key]?).getD ∅ = σ.versionsOf key := by
  simp [versionsOf, ExtTreeMap.getD_eq_getD_getElem?]

lemma applyMetadataMutation_putLock (lock : MvccLock) (hsize : lock.primaryKey.length < maxSize) :
    applyMetadataMutation nowMs σ ((KeyMod.putLock lock).toOp key) =
      { σ with locks := σ.locks.insert key lock.normalize } := by
  simp [applyMetadataMutation, KeyMod.toOp, lockKey, stripPrefix,
    decodeLockValue_encodeLockValue nowMs lock hsize]

lemma applyMetadataMutation_delLock : applyMetadataMutation nowMs σ (KeyMod.delLock.toOp key) =
      { σ with locks := σ.locks.erase key } := by
  simp [applyMetadataMutation, KeyMod.toOp, lockKey, stripPrefix]

lemma applyMetadataMutation_putWrite (commitTs : Ts) (write : MvccWrite) :
    applyMetadataMutation nowMs σ ((KeyMod.putWrite commitTs write).toOp key) =
      { σ with
        writes := σ.writes.insert key
          ((σ.versionsOf key).insert commitTs { write with commitTs := commitTs }) } := by
  have hlock : (ascii "lock/").isPrefixOf (writeKey key commitTs) = false := by
    simp [writeKey, ascii_lock, ascii_write, isPrefixOf]
  have hwrite : (ascii "write/").isPrefixOf (writeKey key commitTs) = true := by simp [writeKey]
  have hstrip : stripPrefix (writeKey key commitTs) (ascii "write/") =
      key ++ [slash] ++ encodeTs commitTs := by
    simp [stripPrefix, writeKey]
  simp only [applyMetadataMutation, KeyMod.toOp, hlock, hwrite, hstrip, splitKeyTs_append,
    decodeWriteValue_encodeWriteValue, Bool.false_eq_true, if_false, if_true]

lemma applyMetadataMutation_putRevision (revision : UInt64) :
    applyMetadataMutation nowMs σ ((KeyMod.putRevision revision).toOp key) =
      { σ with revisions := σ.revisions.insert key revision } := by
  simp [applyMetadataMutation, KeyMod.toOp, revisionKey, stripPrefix, ascii_lock, ascii_write,
    ascii_revision]

lemma applyMetadataMutation_data (op : KVBatchOp) (key : Bytes) (ts : Ts)
    (hop : op.key = dataKey key ts) : applyMetadataMutation nowMs σ op = σ := by
  simp [applyMetadataMutation, hop, dataKey, ascii_data, ascii_lock, ascii_write, ascii_revision]

end MvccStorage

namespace MvccStorage

variable (nowMs : UInt64)

/-- A mutation of `key` changes the in-memory records of `key` only. -/
lemma view_applyMetadataMutation (σ : MvccStorage) (m : KeyMod) (hm : m.Sized) (key k : Bytes) :
    (applyMetadataMutation nowMs σ (m.toOp key)).view k =
      if key = k then m.onIndexes (σ.view k) else σ.view k := by
  cases m with
  | putData s value | delData s =>
    rw [applyMetadataMutation_data nowMs σ _ key s rfl]
    split <;> rfl
  | putLock lock =>
    rw [applyMetadataMutation_putLock nowMs σ key lock hm]
    by_cases hk : key = k <;>
      simp [view, KeyMod.onIndexes, hk, ExtTreeMap.getElem?_insert, versionsOf, currentRevision]
  | delLock =>
    rw [applyMetadataMutation_delLock]
    by_cases hk : key = k <;>
      simp [view, KeyMod.onIndexes, hk, ExtTreeMap.getElem?_erase, versionsOf, currentRevision]
  | putWrite commitTs write =>
    rw [applyMetadataMutation_putWrite]
    by_cases hk : key = k <;>
      simp [view, KeyMod.onIndexes, hk, ExtTreeMap.getD_insert, versionsOf, currentRevision]
  | putRevision revision =>
    rw [applyMetadataMutation_putRevision]
    by_cases hk : key = k <;>
      simp [view, KeyMod.onIndexes, hk, ExtTreeMap.getD_insert, versionsOf, currentRevision]

lemma view_foldl_applyMetadataMutation (σ : MvccStorage) (mods : List KeyMod)
    (hsized : ∀ m ∈ mods, m.Sized) (key k : Bytes) :
    ((mods.map (KeyMod.toOp key)).foldl (applyMetadataMutation nowMs) σ).view k =
      if key = k then mods.foldl (fun v m => m.onIndexes v) (σ.view k) else σ.view k := by
  induction mods generalizing σ with
  | nil => simp
  | cons m mods ih =>
    rw [map_cons, foldl_cons, ih _ fun m hm => hsized m (mem_cons_of_mem _ hm),
      view_applyMetadataMutation nowMs σ m (hsized m mem_cons_self)]
    by_cases hk : key = k <;> simp [hk]

end MvccStorage

/-! ## Prepared writes as mutations of their key -/

/-- The prepared write carries the mutations `mods` of `key`, the last of which sets the revision
that the apply half checks. -/
structure PreparedMvccWrite.Carries (prepared : PreparedMvccWrite) (key : Bytes)
    (mods : List KeyMod) : Prop where
  ops : prepared.modifications = mods.map (KeyMod.toOp key)
  sized : ∀ m ∈ mods, m.Sized
  revision : ∀ m ∈ mods.getLast?, m = .putRevision prepared.newRevision

namespace PreparedMvccWrite.Carries

variable {prepared : PreparedMvccWrite} {key : Bytes} {mods : List KeyMod}

lemma nil (h : prepared.modifications = []) : prepared.Carries key [] :=
  ⟨by simpa using h, by simp, by simp⟩

/-- After the mutations the key's revision is the one the write announces. -/
lemma revision_foldl (h : prepared.Carries key mods) (hne : mods ≠ []) (v : KeyView) :
    (mods.foldl (fun v m => m.onIndexes v) v).revision = prepared.newRevision := by
  obtain ⟨init, m, rfl⟩ := (eq_nil_or_concat mods).resolve_left hne
  have hm := h.revision m (by simp)
  rw [concat_eq_append, foldl_append, hm]
  rfl

end PreparedMvccWrite.Carries

namespace MvccStorage

variable {σ : MvccStorage} {key : Bytes} {prepared : PreparedMvccWrite} {mods : List KeyMod}
  {raftIndex : UInt64} {env : ApplyEnv}

lemma dataOf_commitBatch (ops : List KVBatchOp) (k : Bytes) :
    dataOf (σ.commitBatch ops raftIndex).engine k = dataOf (writeBatch σ.engine ops) k := by
  funext ts
  simp only [commitBatch, writeBatch, foldl_append, dataOf]
  split <;> simp [getElem?_applyOp]

/-- The state after a prepared write is applied with all its checks passed. -/
def afterApply (σ : MvccStorage) (prepared : PreparedMvccWrite) (raftIndex : UInt64)
    (env : ApplyEnv) : MvccStorage :=
  { prepared.modifications.foldl (applyMetadataMutation env.nowMs)
      (σ.commitBatch prepared.modifications raftIndex) with
    appliedRaftIndex := if raftIndex ≠ 0 then raftIndex else σ.appliedRaftIndex }

lemma foldl_applyMetadataMutation_engine (nowMs : UInt64) (ops : List KVBatchOp)
    (σ : MvccStorage) : (ops.foldl (applyMetadataMutation nowMs) σ).engine = σ.engine := by
  induction ops generalizing σ with
  | nil => rfl
  | cons op ops ih =>
    rw [foldl_cons, ih]
    unfold applyMetadataMutation
    repeat' split
    all_goals rfl

section

variable (h : prepared.Carries key mods)

include h

/-- Applying a prepared write of `key` changes that key's view by its mutations. -/
lemma view_afterApply (k : Bytes) : (σ.afterApply prepared raftIndex env).view k =
      if key = k then mods.foldl (fun v m => m.onView v) (σ.view k) else σ.view k := by
  have hdata : dataOf (σ.afterApply prepared raftIndex env).engine k =
      if key = k then mods.foldl (fun data m => m.onData data) (dataOf σ.engine k)
      else dataOf σ.engine k := by
    simp only [afterApply, foldl_applyMetadataMutation_engine, dataOf_commitBatch, h.ops]
    exact dataOf_writeBatch_toOp σ.engine mods key k
  have hview := view_foldl_applyMetadataMutation env.nowMs
    (σ.commitBatch prepared.modifications raftIndex) mods h.sized key k
  rw [← h.ops] at hview
  have hcommit : (σ.commitBatch prepared.modifications raftIndex).view k =
      { σ.view k with data := dataOf (writeBatch σ.engine prepared.modifications) k } := by
    ext1
    · rfl
    · rfl
    · exact dataOf_commitBatch _ k
    · rfl
  have hsplit : (σ.afterApply prepared raftIndex env).view k =
      { (prepared.modifications.foldl (applyMetadataMutation env.nowMs)
          (σ.commitBatch prepared.modifications raftIndex)).view k with
        data := dataOf (σ.afterApply prepared raftIndex env).engine k } := rfl
  rw [hsplit, hview, hdata, hcommit]
  split
  · rw [KeyMod.foldl_onView, KeyMod.foldl_onIndexes_with_data]
    rfl
  · rfl

/-- The index was applied before, so that applying at it again changes nothing. -/
def Stale (σ : MvccStorage) (raftIndex : UInt64) : Prop :=
  raftIndex ≠ 0 ∧ raftIndex ≤ σ.appliedRaftIndex

instance (σ : MvccStorage) (raftIndex : UInt64) : Decidable (σ.Stale raftIndex) :=
  inferInstanceAs (Decidable (_ ∧ _))

/-- `applyPrepared` without its last check: the mutations set the revision that it compares. -/
lemma applyPrepared_eq : σ.applyPrepared key prepared raftIndex env =
      if (prepared.commandVersion ≠ PreparedMvccWrite.kLegacyCommandVersion ∧
            prepared.commandVersion ≠ PreparedMvccWrite.kCommandVersion) ∨
          prepared.status ≠ .ok ∨ prepared.modifications = [] ∨
          prepared.newRevision ≠ prepared.expectedRevision + 1 then (.storageError, σ)
      else if σ.Stale raftIndex then (.ok, σ)
      else if σ.currentRevision key ≠ prepared.expectedRevision then (.storageError, σ)
      else if !env.engineOk then (.storageError, σ)
      else (.ok, σ.afterApply prepared raftIndex env) := by
  unfold applyPrepared
  refine if_ctx_congr Iff.rfl (fun _ => rfl) fun hchecks => ?_
  simp only [not_or, not_not] at hchecks
  obtain ⟨-, -, hne, -⟩ := hchecks
  have hmods : mods ≠ [] := by
    rintro rfl
    exact hne (by simpa using h.ops)
  have hrev := view_foldl_applyMetadataMutation env.nowMs
    (σ.commitBatch prepared.modifications raftIndex) mods h.sized key key
  rw [← h.ops, if_pos rfl] at hrev
  have hcheck := (congrArg KeyView.revision hrev).trans (h.revision_foldl hmods _)
  simp only [view] at hcheck
  rw [if_neg (not_not.2 hcheck)]
  rfl

/-- What `applyPrepared` can do: nothing, with status `ok` at a stale index only, or all of the
mutations with status `ok`. -/
theorem applyPrepared_cases : ((σ.applyPrepared key prepared raftIndex env).2 = σ ∧
        ((σ.applyPrepared key prepared raftIndex env).1 = .ok → σ.Stale raftIndex)) ∨
      ¬σ.Stale raftIndex ∧ prepared.modifications ≠ [] ∧
        σ.applyPrepared key prepared raftIndex env = (.ok, σ.afterApply prepared raftIndex env) := by
  rw [applyPrepared_eq h]
  split
  · exact .inl ⟨rfl, by simp⟩
  rename_i hchecks
  split
  · rename_i hstale
    exact .inl ⟨rfl, fun _ => hstale⟩
  rename_i hstale
  split
  · exact .inl ⟨rfl, by simp⟩
  split
  · exact .inl ⟨rfl, by simp⟩
  · exact .inr ⟨hstale, fun hnil => hchecks (.inr (.inr (.inl hnil))), rfl⟩

end

/-! ## Batches -/

variable {items : List PreparedMvccBatchItem}

/-- The mutations of a checked batch are those of its items, whose keys ascend. -/
lemma batchModifications_eq_some {previous : Bytes}
    {ops : List KVBatchOp} (h : σ.batchModifications previous items = some ops) :
    ops = items.flatMap (fun item => item.prepared.modifications) ∧
      items.Pairwise (fun a b => a.key < b.key) ∧
      (previous ≠ [] → ∀ item ∈ items, previous < item.key) := by
  induction items generalizing previous ops with
  | nil => simpa [batchModifications, eq_comm] using h
  | cons item rest ih =>
    unfold batchModifications at h
    split at h
    · cases h
    rename_i hitem
    simp only [not_or, not_and, not_not] at hitem
    obtain ⟨hkey, hprev, -⟩ := hitem
    -- whatever the item carries, the rest of the batch follows its key
    have hrest : ∃ ops', σ.batchModifications item.key rest = some ops' ∧
        ops = item.prepared.modifications ++ ops' := by
      split at h
      · rename_i hnil
        exact ⟨ops, h, by simp [hnil]⟩
      · split_ifs at h
        obtain ⟨ops', hops', rfl⟩ := Option.map_eq_some_iff.1 h
        exact ⟨ops', hops', rfl⟩
    obtain ⟨ops', hops', rfl⟩ := hrest
    obtain ⟨rfl, hpair, hlt⟩ := ih hops'
    refine ⟨by simp, pairwise_cons.2 ⟨hlt hkey, hpair⟩, fun hne => ?_⟩
    have hfirst : previous < item.key := List.not_le.1 (hprev hne)
    intro x hx
    rcases mem_cons.1 hx with rfl | hx
    · exact hfirst
    · exact List.lt_trans hfirst (hlt hkey x hx)

/-- Every item carries mutations of its own key. -/
def ItemsCarry (items : List PreparedMvccBatchItem) : Prop :=
  ∀ item ∈ items, ∃ mods, item.prepared.Carries item.key mods

/-- The revision checks of a batch never fail, so all items are replayed. -/
lemma applyItems_eq (nowMs : UInt64) (items : List PreparedMvccBatchItem) (σ : MvccStorage)
    (hcarry : ItemsCarry items) :
    applyItems nowMs σ items = (true, (items.flatMap fun item => item.prepared.modifications).foldl
        (applyMetadataMutation nowMs) σ) := by
  induction items generalizing σ with
  | nil => rfl
  | cons item rest ih =>
    obtain ⟨mods, h⟩ := hcarry item mem_cons_self
    have hcheck : ¬(item.prepared.modifications ≠ [] ∧
        (item.prepared.modifications.foldl (applyMetadataMutation nowMs) σ).currentRevision
          item.key ≠ item.prepared.newRevision) := by
      rintro ⟨hne, hrev⟩
      have hmods : mods ≠ [] := by
        rintro rfl
        exact hne (by simpa using h.ops)
      have hview := view_foldl_applyMetadataMutation nowMs σ mods h.sized item.key item.key
      rw [← h.ops, if_pos rfl] at hview
      exact hrev ((congrArg KeyView.revision hview).trans (h.revision_foldl hmods _))
    rw [applyItems, if_neg hcheck, ih _ fun x hx => hcarry x (mem_cons_of_mem _ hx)]
    simp

/-- The state after the items of a batch are applied with all checks passed. -/
def afterBatch (σ : MvccStorage) (items : List PreparedMvccBatchItem) (raftIndex : UInt64)
    (env : ApplyEnv) : MvccStorage :=
  let ops := items.flatMap fun item => item.prepared.modifications
  { ops.foldl (applyMetadataMutation env.nowMs) (σ.commitBatch ops raftIndex) with
    appliedRaftIndex := if raftIndex ≠ 0 then raftIndex else σ.appliedRaftIndex }

/-- Items of other keys change neither the data nor the in-memory records of `k`. -/
lemma frame_items (hcarry : ItemsCarry items) {k : Bytes}
    (hk : ∀ item ∈ items, item.key ≠ k) (nowMs : UInt64)
    (engine : ExtTreeMap Bytes Bytes compare) (σ : MvccStorage) :
    dataOf (writeBatch engine (items.flatMap fun item => item.prepared.modifications)) k =
        dataOf engine k ∧ ((items.flatMap fun item => item.prepared.modifications).foldl
        (applyMetadataMutation nowMs) σ).view k = σ.view k := by
  induction items generalizing engine σ with
  | nil => exact ⟨rfl, rfl⟩
  | cons item rest ih =>
    obtain ⟨mods, h⟩ := hcarry item mem_cons_self
    have hne := hk item mem_cons_self
    obtain ⟨hdata, hview⟩ := ih (fun x hx => hcarry x (mem_cons_of_mem _ hx))
      (fun x hx => hk x (mem_cons_of_mem _ hx))
      (writeBatch engine item.prepared.modifications)
      (item.prepared.modifications.foldl (applyMetadataMutation nowMs) σ)
    constructor
    · simp only [flatMap_cons, writeBatch, foldl_append] at hdata ⊢
      rw [hdata]
      have := dataOf_writeBatch_toOp engine mods item.key k
      rwa [if_neg hne, ← h.ops] at this
    · rw [flatMap_cons, foldl_append, hview, h.ops,
        view_foldl_applyMetadataMutation nowMs σ mods h.sized item.key k, if_neg hne]

lemma view_commitBatch (ops : List KVBatchOp) (k : Bytes) : (σ.commitBatch ops raftIndex).view k =
      { σ.view k with data := dataOf (writeBatch σ.engine ops) k } := by
  ext1
  · rfl
  · rfl
  · exact dataOf_commitBatch ops k
  · rfl

lemma view_afterBatch_eq (items : List PreparedMvccBatchItem) (k : Bytes) :
    (σ.afterBatch items raftIndex env).view k =
      { ((items.flatMap fun item => item.prepared.modifications).foldl
          (applyMetadataMutation env.nowMs) (σ.commitBatch
            (items.flatMap fun item => item.prepared.modifications) raftIndex)).view k with
        data := dataOf (writeBatch σ.engine
          (items.flatMap fun item => item.prepared.modifications)) k } := by
  ext1
  · rfl
  · rfl
  · simp only [view, afterBatch, foldl_applyMetadataMutation_engine]
    exact dataOf_commitBatch _ k
  · rfl

/-- A batch changes the view of a key by the mutations of that key's item, if it has one. -/
lemma view_afterBatch (hcarry : ItemsCarry items)
    (hkeys : items.Pairwise (fun a b => a.key < b.key)) (k : Bytes) :
    ((∀ item ∈ items, item.key ≠ k) ∧ (σ.afterBatch items raftIndex env).view k = σ.view k) ∨
      ∃ item ∈ items, item.key = k ∧ ∀ mods, item.prepared.Carries k mods →
        (σ.afterBatch items raftIndex env).view k =
          mods.foldl (fun v m => m.onView v) (σ.view k) := by
  rw [view_afterBatch_eq]
  by_cases hk : ∃ item ∈ items, item.key = k
  · right
    obtain ⟨item, hmem, rfl⟩ := hk
    refine ⟨item, hmem, rfl, fun mods h => ?_⟩
    obtain ⟨pre, post, rfl⟩ := append_of_mem hmem
    obtain ⟨-, hpost, hpre⟩ := pairwise_append.1 hkeys
    have hpost' := (pairwise_cons.1 hpost).1
    have hcpre : ItemsCarry pre := fun x hx => hcarry x (mem_append_left _ hx)
    have hcpost : ItemsCarry post := fun x hx =>
      hcarry x (mem_append_right _ (mem_cons_of_mem _ hx))
    have hnpre : ∀ x ∈ pre, x.key ≠ item.key := by
      intro x hx heq
      have := hpre x hx item mem_cons_self
      exact absurd (heq ▸ this) (List.lt_irrefl _)
    have hnpost : ∀ x ∈ post, x.key ≠ item.key := by
      intro x hx heq
      have := hpost' x hx
      exact absurd (heq ▸ this) (List.lt_irrefl _)
    -- the items before and after the key's own item are framed away
    simp only [flatMap_append, flatMap_cons, writeBatch, foldl_append]
    have hd₁ := fun e => (frame_items hcpre hnpre 0 e σ).1
    have hd₂ := fun e => (frame_items hcpost hnpost 0 e σ).1
    have hv₁ := fun τ => (frame_items hcpre hnpre env.nowMs ∅ τ).2
    have hv₂ := fun τ => (frame_items hcpost hnpost env.nowMs ∅ τ).2
    have hdata := fun e => dataOf_writeBatch_toOp e mods item.key item.key
    simp only [if_true, ← h.ops] at hdata
    simp only [writeBatch] at hd₁ hd₂ hdata
    rw [hd₂, hdata, hd₁, hv₂, h.ops, view_foldl_applyMetadataMutation _ _ mods h.sized, if_pos rfl,
      hv₁, view_commitBatch, KeyMod.foldl_onIndexes_with_data, KeyMod.foldl_onView]
    rfl
  · left
    have hne : ∀ item ∈ items, item.key ≠ k := fun item hi heq => hk ⟨item, hi, heq⟩
    refine ⟨hne, ?_⟩
    rw [(frame_items hcarry hne env.nowMs ∅ _).2, (frame_items hcarry hne 0 σ.engine σ).1,
      view_commitBatch]
    rfl

/-- What `applyPreparedBatch` can do: nothing, with status `ok` at a stale index only, or all of the
items' mutations with status `ok`, the items' keys ascending. -/
theorem applyPreparedBatch_cases {prepared : PreparedMvccBatch}
    (hcarry : ItemsCarry prepared.items) :
    ((σ.applyPreparedBatch prepared raftIndex env).2 = σ ∧
        ((σ.applyPreparedBatch prepared raftIndex env).1 = .ok → σ.Stale raftIndex)) ∨
      ¬σ.Stale raftIndex ∧ prepared.status = .ok ∧
        prepared.items.Pairwise (fun a b => a.key < b.key) ∧
        σ.applyPreparedBatch prepared raftIndex env =
          (.ok, σ.afterBatch prepared.items raftIndex env) := by
  unfold applyPreparedBatch
  split
  · exact .inl ⟨rfl, by simp⟩
  rename_i hchecks
  simp only [not_or, not_not] at hchecks
  split
  · rename_i hstale
    exact .inl ⟨rfl, fun _ => hstale⟩
  rename_i hstale
  split
  · exact .inl ⟨rfl, by simp⟩
  rename_i ops hops
  obtain ⟨rfl, hkeys, -⟩ := batchModifications_eq_some hops
  split
  · exact .inl ⟨rfl, by simp⟩
  simp only [applyItems_eq env.nowMs prepared.items _ hcarry, Bool.not_true, Bool.false_eq_true,
    if_false]
  exact .inr ⟨hstale, hchecks.2.1, hkeys, rfl⟩

end MvccStorage

end StrataKV.Mvcc
