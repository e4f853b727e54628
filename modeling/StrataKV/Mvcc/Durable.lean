import StrataKV.Mvcc.Batching
import StrataKV.Mvcc.Exec
import StrataKV.Mvcc.Recovery

/-!
# Storages that their engine determines

The indexes in memory repeat what the engine's records say. As long as every write goes through
the storage this stays so (`Durable`).
-/

namespace StrataKV.Mvcc

open Decimal KeyMod List MvccLock
open Std (ExtTreeMap)

/-! ## Engine keys -/

lemma writeKey_inj {key key' : Bytes} {ts ts' : Ts} :
    writeKey key ts = writeKey key' ts' ↔ key = key' ∧ ts = ts' := by
  constructor
  · intro h
    simp only [writeKey, append_assoc] at h
    exact keyTs_inj (by simpa using h)
  · rintro ⟨rfl, rfl⟩
    rfl

namespace MvccStorage

/-- The indexes and the applied index are those of the records, and these are encodings. -/
structure Durable (σ : MvccStorage) : Prop where
  indexed : σ.Indexed
  canonical : Canonical σ.engine
  applied : σ.appliedRaftIndex = ((σ.engine[appliedRaftIndexKey]?).map decodeTs).getD 0

lemma durable_empty : MvccStorage.Durable {} where
  indexed := ⟨by simp, by simp [versionsOf], by simp [currentRevision]⟩
  canonical := ⟨by simp, by simp⟩
  applied := by simp

/-! ## Mutations -/

/-- One mutation in the engine and in the indexes. -/
def mutate (nowMs : UInt64) (σ : MvccStorage) (op : KVBatchOp) : MvccStorage :=
  { applyMetadataMutation nowMs σ op with engine := applyOp σ.engine op }

section

variable {σ τ : MvccStorage} {m : KeyMod}

/-- Storages with the same answers on every key. -/
lemma Indexed.congr (h : σ.Indexed) (hengine : τ.engine = σ.engine)
    (hlocks : ∀ key : Bytes, (τ.locks[key]?).map bare = (σ.locks[key]?).map bare)
    (hversions : ∀ key, τ.versionsOf key = σ.versionsOf key)
    (hrevisions : ∀ key, τ.currentRevision key = σ.currentRevision key) : τ.Indexed where
  locks := by
    intro key nowMs
    rw [hlocks, hengine]
    exact h.locks key nowMs
  versions := by
    intro key commitTs
    rw [hversions, hengine]
    exact h.versions key commitTs
  revisions := by
    intro key
    rw [hrevisions, hengine]
    exact h.revisions key

/-- A modification changes record and index alike. -/
lemma Indexed.mutate (h : σ.Indexed) (nowMs : UInt64) (hm : m.Sized) (key : Bytes) :
    (σ.mutate nowMs (m.toOp key)).Indexed := by
  have hview (k : Bytes) := view_applyMetadataMutation nowMs σ m hm key k
  refine ⟨fun k now => ?_, fun k commitTs => ?_, fun k => ?_⟩
  · have hlock := congrArg KeyView.lock (hview k)
    change ((applyMetadataMutation nowMs σ (m.toOp key)).locks[k]?).map bare =
      ((applyOp σ.engine (m.toOp key))[lockKey k]?).bind (decodeLockValue now)
    change (applyMetadataMutation nowMs σ (m.toOp key)).locks[k]? = _ at hlock
    rw [hlock, getElem?_applyOp]
    have hold := h.locks k now
    -- another key's record and index stay
    by_cases hk : key = k
    · subst hk
      cases m with
      | putLock lock =>
        simp [toOp, onIndexes, decodeLockValue_encodeLockValue now lock hm,
          MvccLock.bare, MvccLock.normalize]
      | delLock => simp [toOp, onIndexes]
      | putData | delData | putWrite | putRevision =>
        simp [toOp, onIndexes, view, hold]
    · cases m <;> simp [toOp, view, hk, hold]
  · have hversions := congrArg KeyView.versions (hview k)
    change ((applyMetadataMutation nowMs σ (m.toOp key)).versionsOf k)[commitTs]? =
      (((applyOp σ.engine (m.toOp key))[writeKey k commitTs]?).bind decodeWriteValue).map _
    change (applyMetadataMutation nowMs σ (m.toOp key)).versionsOf k = _ at hversions
    rw [hversions, getElem?_applyOp]
    have hold := h.versions k commitTs
    by_cases hk : key = k
    · subst hk
      cases m with
      | putWrite ts write =>
        by_cases hts : ts = commitTs
        · subst hts
          simp [toOp, onIndexes, decodeWriteValue_encodeWriteValue]
        · simp [toOp, onIndexes, view, writeKey_inj, hts, ExtTreeMap.getElem?_insert, hold]
      | putData | delData | putLock | delLock | putRevision =>
        simp [toOp, onIndexes, view, hold]
    · cases m <;> simp [toOp, view, hk, hold, writeKey_inj]
  · have hrevision := congrArg KeyView.revision (hview k)
    change (applyMetadataMutation nowMs σ (m.toOp key)).currentRevision k =
      (((applyOp σ.engine (m.toOp key))[revisionKey k]?).map decodeTs).getD 0
    change (applyMetadataMutation nowMs σ (m.toOp key)).currentRevision k = _ at hrevision
    rw [hrevision, getElem?_applyOp]
    have hold := h.revisions k
    by_cases hk : key = k
    · subst hk
      cases m with
      | putRevision revision => simp [toOp, onIndexes, decodeTs, strtoull_toDecimal]
      | putData | delData | putLock | delLock | putWrite =>
        simp [toOp, onIndexes, view, hold]
    · cases m <;> simp [toOp, view, hk, hold]

end

end MvccStorage

section

variable {engine : ExtTreeMap Bytes Bytes compare}

lemma isPrefixOf_writeKey (key : Bytes) (ts : Ts) :
    (ascii "write/").isPrefixOf (writeKey key ts) = true := by
  simp [writeKey]

/-- A modification leaves records that can be read. -/
lemma Canonical.applyOp (h : Canonical engine) {m : KeyMod} (hm : m.Sized) (key : Bytes) :
    Canonical (applyOp engine (m.toOp key)) where
  writes := by
    intro x value hget hstart
    rw [getElem?_applyOp] at hget
    split at hget
    · rename_i hx
      subst hx
      cases m with
      | putWrite commitTs write =>
        simp only [toOp, if_true, Option.some.injEq] at hget
        exact ⟨key, commitTs, write, rfl, hget.symm⟩
      | putData | delData =>
        simp [toOp, dataKey, ascii_data, ascii_write, isPrefixOf] at hstart
      | putLock | delLock =>
        simp [toOp, lockKey, ascii_lock, ascii_write, isPrefixOf] at hstart
      | putRevision =>
        simp [toOp, revisionKey, ascii_revision, ascii_write, isPrefixOf] at hstart
    · exact h.writes x value hget hstart
  locks := by
    intro k value hget
    rw [getElem?_applyOp] at hget
    split at hget
    · rename_i hx
      cases m with
      | putLock lock =>
        simp only [toOp, if_true, Option.some.injEq] at hget
        exact ⟨lock, hm, hget.symm⟩
      | delLock => simp [toOp] at hget
      | putData | delData | putWrite | putRevision => simp [toOp] at hx
    · exact h.locks k value hget

/-- The engine mutations that prepared writes are made of. -/
def IsKeyMod (op : KVBatchOp) : Prop := ∃ key, ∃ m : KeyMod, m.Sized ∧ op = m.toOp key

lemma IsKeyMod.ne_appliedRaftIndexKey {op : KVBatchOp} (h : IsKeyMod op) :
    op.key ≠ appliedRaftIndexKey := by
  obtain ⟨key, m, -, rfl⟩ := h
  cases m <;> simp [toOp, Ne.symm]

lemma Canonical.writeBatch {ops : List KVBatchOp} (h : Canonical engine)
    (hops : ∀ op ∈ ops, IsKeyMod op) : Canonical (writeBatch engine ops) := by
  induction ops generalizing engine with
  | nil => exact h
  | cons op rest ih =>
    obtain ⟨key, m, hm, rfl⟩ := hops op mem_cons_self
    exact ih (h.applyOp hm key) fun op hop => hops op (mem_cons_of_mem _ hop)

end

namespace MvccStorage

section

variable {σ τ : MvccStorage} {nowMs : UInt64} {ops : List KVBatchOp}

lemma Indexed.foldl_mutate (h : σ.Indexed) (nowMs : UInt64) (hops : ∀ op ∈ ops, IsKeyMod op) :
    ({ ops.foldl (applyMetadataMutation nowMs) σ with
      engine := writeBatch σ.engine ops } : MvccStorage).Indexed := by
  induction ops generalizing σ with
  | nil => exact h
  | cons op rest ih =>
    obtain ⟨key, m, hm, rfl⟩ := hops op mem_cons_self
    have hrest := ih (h.mutate nowMs hm key) fun op hop => hops op (mem_cons_of_mem _ hop)
    have hwith := foldl_applyMetadataMutation_with nowMs rest
      (applyMetadataMutation nowMs σ (m.toOp key)) (applyOp σ.engine (m.toOp key))
      (applyMetadataMutation nowMs σ (m.toOp key)).appliedRaftIndex
    have hmutate : σ.mutate nowMs (m.toOp key) =
        { applyMetadataMutation nowMs σ (m.toOp key) with
          engine := applyOp σ.engine (m.toOp key)
          appliedRaftIndex := (applyMetadataMutation nowMs σ (m.toOp key)).appliedRaftIndex } := rfl
    rw [hmutate, hwith] at hrest
    exact hrest.congr rfl (fun _ => rfl) (fun _ => rfl) (fun _ => rfl)

/-- An applied command leaves the indexes those of the records. -/
lemma Durable.afterOps (h : σ.Durable) (nowMs : UInt64)
    (hops : ∀ op ∈ ops, IsKeyMod op) (index : UInt64) : (σ.afterOps nowMs ops index).Durable := by
  -- the record of the index is in no table
  have hindex (x : Bytes) (hx : x ≠ appliedRaftIndexKey) :
      (σ.afterOps nowMs ops index).engine[x]? = (writeBatch σ.engine ops)[x]? := by
    simp only [MvccStorage.afterOps, Mvcc.writeBatch, foldl_append, foldl_cons,
      foldl_nil, getElem?_applyOp]
    rw [if_neg fun heq => hx heq.symm]
  have hfold := h.indexed.foldl_mutate nowMs hops
  have hcanonical := h.canonical.writeBatch hops
  refine ⟨⟨fun key now => ?_, fun key commitTs => ?_, fun key => ?_⟩, ⟨?_, ?_⟩, ?_⟩
  · rw [hindex _ (by simp)]
    exact hfold.locks key now
  · rw [hindex _ (by simp)]
    exact hfold.versions key commitTs
  · rw [hindex _ (by simp)]
    exact hfold.revisions key
  · intro x value hget hstart
    have hx : x ≠ appliedRaftIndexKey := by
      rintro rfl
      exact absurd hstart (by decide)
    rw [hindex x hx] at hget
    exact hcanonical.writes x value hget hstart
  · intro key value hget
    rw [hindex _ (by simp)] at hget
    exact hcanonical.locks key value hget
  · have hget : (σ.afterOps nowMs ops index).engine[appliedRaftIndexKey]? =
        some (toDecimal index.toNat) := getElem?_writeBatch_concat_put _ _ _ _
    rw [hget]
    simp [MvccStorage.afterOps, decodeTs, strtoull_toDecimal]

/-- So does any change of the indexes with the same effect on each key. -/
lemma Durable.mutations (h : σ.Durable) (nowMs : UInt64)
    (hops : ∀ op ∈ ops, IsKeyMod op) (hengine : τ.engine = writeBatch σ.engine ops)
    (happlied : τ.appliedRaftIndex = σ.appliedRaftIndex)
    (hlocks : ∀ key : Bytes, (τ.locks[key]?).map bare =
      ((ops.foldl (applyMetadataMutation nowMs) σ).locks[key]?).map bare)
    (hversions : ∀ key, τ.versionsOf key =
      (ops.foldl (applyMetadataMutation nowMs) σ).versionsOf key)
    (hrevisions : ∀ key, τ.currentRevision key =
      (ops.foldl (applyMetadataMutation nowMs) σ).currentRevision key) : τ.Durable where
  indexed := (h.indexed.foldl_mutate nowMs hops).congr hengine hlocks hversions hrevisions
  canonical := by
    rw [hengine]
    exact h.canonical.writeBatch hops
  applied := by
    rw [happlied, hengine, getElem?_writeBatch_of_forall_ne _ fun op hop =>
      (hops op hop).ne_appliedRaftIndexKey]
    exact h.applied

end

/-! ## Prepared commands -/

lemma IsKeyMod.of_carries {prepared : PreparedMvccWrite} {key : Bytes} {mods : List KeyMod}
    (h : prepared.Carries key mods) : ∀ op ∈ prepared.modifications, IsKeyMod op := by
  intro op hop
  rw [h.ops] at hop
  obtain ⟨m, hm, rfl⟩ := mem_map.1 hop
  exact ⟨key, m, h.sized m hm, rfl⟩

lemma IsKeyMod.of_itemsCarry {items : List PreparedMvccBatchItem} (h : ItemsCarry items) :
    ∀ op ∈ items.flatMap fun item => item.prepared.modifications, IsKeyMod op := by
  intro op hop
  obtain ⟨item, hitem, hop⟩ := mem_flatMap.1 hop
  obtain ⟨mods, hcarries⟩ := h item hitem
  exact IsKeyMod.of_carries hcarries op hop

end MvccStorage

end StrataKV.Mvcc
