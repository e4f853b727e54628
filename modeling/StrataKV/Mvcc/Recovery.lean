import StrataKV.Mvcc.Direct
import StrataKV.Mvcc.KeyStep

/-!
# The indexes that a restart reads back

`RecoverMetadataFromEngine` builds the lock table, the version chains, the revisions and the applied
index from the records of the engine. On an engine that the storage itself has written this gives the
indexes that the running storage had (`Indexed`), but for two things: the buffered value of a lock,
which nothing reads, and the locks of transactions that have finished on the key, whose records the
recovery deletes.
-/

namespace StrataKV.Mvcc

open Option OrdMap
open Std (ExtTreeMap)

/-- The lock without its buffered value. -/
def MvccLock.bare (lock : MvccLock) : MvccLock := { lock with value := [] }

/-- The records of the tables are encodings, under keys that the storage builds. -/
structure Canonical (engine : ExtTreeMap Bytes Bytes compare) : Prop where
  writes : ∀ x value, engine[x]? = some value → (ascii "write/").isPrefixOf x = true →
    ∃ key commitTs write, x = writeKey key commitTs ∧ value = encodeWriteValue write
  locks : ∀ key value, engine[lockKey key]? = some value →
    ∃ lock : MvccLock, lock.primaryKey.length < maxSize ∧ value = encodeLockValue lock

section

variable {engine engine' : ExtTreeMap Bytes Bytes compare}

/-- Deleting records keeps the others. -/
lemma Canonical.mono (hcanonical : Canonical engine)
    (hsub : ∀ x value : Bytes, engine'[x]? = some value → engine[x]? = some value) :
    Canonical engine' where
  writes := fun x value hget hstart => hcanonical.writes x value (hsub x value hget) hstart
  locks := fun key value hget => hcanonical.locks key value (hsub _ value hget)

end

/-- A lock is decoded to the same lock at any time. -/
lemma Canonical.exists_lock {engine : ExtTreeMap Bytes Bytes compare} {key value : Bytes}
    (hcanonical : Canonical engine) (hget : engine[lockKey key]? = some value) :
    ∃ lock : MvccLock, lock.bare = lock ∧ ∀ nowMs, decodeLockValue nowMs value = some lock := by
  obtain ⟨lock, hsize, heq⟩ := hcanonical.locks key value hget
  refine ⟨lock.normalize, rfl, fun nowMs => ?_⟩
  rw [heq]
  exact decodeLockValue_encodeLockValue nowMs lock hsize

namespace MvccStorage

/-- The indexes in memory are those of the engine's records. -/
structure Indexed (σ : MvccStorage) : Prop where
  locks : ∀ key nowMs, (σ.locks[key]?).map MvccLock.bare =
    (σ.engine[lockKey key]?).bind (decodeLockValue nowMs)
  versions : ∀ key commitTs, (σ.versionsOf key)[commitTs]? =
    ((σ.engine[writeKey key commitTs]?).bind decodeWriteValue).map
      fun write => { write with commitTs := commitTs }
  revisions : ∀ key, σ.currentRevision key = ((σ.engine[revisionKey key]?).map decodeTs).getD 0

/-! ## The recovered indexes -/

section

variable {engine : ExtTreeMap Bytes Bytes compare} {nowMs : UInt64}
  {start : Bytes} {item : Bytes × Bytes}

lemma mem_scanPrefix : item ∈ scanPrefix engine start ↔
      engine[item.1]? = some item.2 ∧ start.isPrefixOf item.1 = true := by
  unfold scanPrefix
  rw [List.mem_filter, ← ExtTreeMap.mem_toList_iff_getElem?_eq_some]

lemma mem_scanPrefix_append {rest value : Bytes} (h : engine[start ++ rest]? = some value) :
    (start ++ rest, value) ∈ scanPrefix engine start :=
  mem_scanPrefix.2 ⟨h, List.isPrefixOf_iff_prefix.2 (List.prefix_append start rest)⟩

/-- A record that the scan finds is the prefix and a rest. -/
lemma exists_of_mem_scanPrefix (h : item ∈ scanPrefix engine start) :
    ∃ rest, item.1 = start ++ rest ∧ stripPrefix item.1 start = rest ∧
      engine[start ++ rest]? = some item.2 := by
  obtain ⟨hget, hstart⟩ := mem_scanPrefix.1 h
  obtain ⟨rest, hrest⟩ := List.isPrefixOf_iff_prefix.1 hstart
  refine ⟨rest, hrest.symm, ?_, by rw [hrest, hget]⟩
  rw [← hrest]
  simp [stripPrefix]

variable (key : Bytes)

/-- The revisions are those of the records. -/
lemma revisions_recover : ((scanPrefix engine (ascii "meta/revision/")).foldl
      (fun revisions item => revisions.insert (stripPrefix item.1 (ascii "meta/revision/"))
        (decodeTs item.2)) (∅ : ExtTreeMap Bytes UInt64 compare))[key]? =
      (engine[revisionKey key]?).map decodeTs := by
  let sets (item : Bytes × Bytes) : Option UInt64 :=
    if stripPrefix item.1 (ascii "meta/revision/") = key then some (decodeTs item.2) else none
  refine view_foldl_eq (fun _ => True) (fun m => m[key]?) sets ?_ ?_ ?_ trivial rfl
  · intro m _ item _
    refine ⟨trivial, ?_⟩
    by_cases h : stripPrefix item.1 (ascii "meta/revision/") = key <;>
      simp [sets, ExtTreeMap.getElem?_insert, h]
  · intro item hitem b hb
    obtain ⟨rest, -, hstrip, hrecord⟩ := exists_of_mem_scanPrefix hitem
    simp only [sets, hstrip] at hb
    split at hb
    · rename_i heq
      subst heq
      rw [revisionKey, hrecord]
      exact hb
    · cases hb
  · intro b hb
    obtain ⟨value, hget, rfl⟩ := map_eq_some_iff.1 hb
    exact ⟨_, mem_scanPrefix_append hget, by simp [sets, stripPrefix]⟩

lemma stripPrefix_writeKey (commitTs : Ts) :
    stripPrefix (writeKey key commitTs) (ascii "write/") = key ++ [slash] ++ encodeTs commitTs := by
  simp [stripPrefix, writeKey]

/-- The versions of a key are its write records. -/
lemma versions_recover (hcanonical : Canonical engine) (key : Bytes) (commitTs : Ts) :
    (((scanPrefix engine (ascii "write/")).foldl recoverWrite ∅).getD key ∅)[commitTs]? =
      ((engine[writeKey key commitTs]?).bind decodeWriteValue).map
        fun write => { write with commitTs := commitTs } := by
  let sets (item : Bytes × Bytes) : Option MvccWrite :=
    if splitKeyTs (stripPrefix item.1 (ascii "write/")) = some (key, commitTs) then
      (decodeWriteValue item.2).map fun write => { write with commitTs := commitTs }
    else none
  refine view_foldl_eq (fun _ => True) 
    (fun m : ExtTreeMap Bytes Versions compare => (m.getD key ∅)[commitTs]?) sets ?_ ?_ ?_ trivial
    (by simp)
  · intro m _ item _
    refine ⟨trivial, ?_⟩
    unfold recoverWrite
    cases hsplit : splitKeyTs (stripPrefix item.1 (ascii "write/")) with
    | none => simp [sets, hsplit]
    | some place =>
      obtain ⟨key', commitTs'⟩ := place
      cases hdecode : decodeWriteValue item.2 with
      | none => simp [sets, hdecode]
      | some write =>
        simp only [sets, hsplit, hdecode, some.injEq, Prod.mk.injEq, map_some]
        by_cases hkey : key' = key
        · subst hkey
          by_cases hts : commitTs' = commitTs
          · subst hts
            simp
          · simp [hts, ExtTreeMap.getElem?_insert]
        · simp [hkey, ExtTreeMap.getD_insert]
  · intro item hitem b hb
    obtain ⟨hget, hstart⟩ := mem_scanPrefix.1 hitem
    obtain ⟨key', commitTs', write, hkey, -⟩ := hcanonical.writes _ _ hget hstart
    simp only [sets, hkey, stripPrefix_writeKey, splitKeyTs_append, some.injEq, Prod.mk.injEq] at hb
    split at hb
    · rename_i heq
      obtain ⟨rfl, rfl⟩ := heq
      rw [← hkey, hget]
      exact hb
    · cases hb
  · intro b hb
    obtain ⟨write, hbind, rfl⟩ := map_eq_some_iff.1 hb
    obtain ⟨value, hget, hdecode⟩ := bind_eq_some_iff.1 hbind
    refine ⟨(writeKey key commitTs, value), mem_scanPrefix.2 ⟨hget, ?_⟩, ?_⟩
    · simp [writeKey, List.isPrefixOf_iff_prefix]
    · simp only [sets, stripPrefix_writeKey, splitKeyTs_append, hdecode, if_true, map_some]

section

variable (engine)

/-- The lock with the value of its data record. -/
def withValue (key : Bytes) (lock : MvccLock) : MvccLock :=
  { lock with
    value := (if lock.isDelete then none else engine[dataKey key lock.startTs]?).getD [] }

/-- The storage before the scan of the locks. -/
def opened : MvccStorage :=
  { engine := engine
    appliedRaftIndex := (engine[appliedRaftIndexKey]?.map decodeTs).getD 0
    revisions := (scanPrefix engine (ascii "meta/revision/")).foldl
      (fun revisions item => revisions.insert (stripPrefix item.1 (ascii "meta/revision/"))
        (decodeTs item.2)) ∅
    writes := (scanPrefix engine (ascii "write/")).foldl recoverWrite ∅ }

lemma recover_eq : recoverMetadataFromEngine nowMs engine =
    (scanPrefix engine (ascii "lock/")).foldl (recoverLock nowMs) (opened engine) := rfl

/-- The transaction of the lock has a record on the key. -/
def finished (key : Bytes) (lock : MvccLock) : Bool :=
  (((opened engine).versionsOf key).recordOf lock.startTs).isSome

end

/-- What the scan of the locks keeps: the other indexes, and the engine but for lock records. -/
structure Recovered (engine : ExtTreeMap Bytes Bytes compare) (σ : MvccStorage) : Prop where
  writes : σ.writes = (opened engine).writes
  revisions : σ.revisions = (opened engine).revisions
  applied : σ.appliedRaftIndex = (opened engine).appliedRaftIndex
  sub : ∀ x value : Bytes, σ.engine[x]? = some value → engine[x]? = some value
  others : ∀ x : Bytes, (∀ key, x ≠ lockKey key) → σ.engine[x]? = engine[x]?

lemma recovered_opened : Recovered engine (opened engine) :=
  ⟨rfl, rfl, rfl, fun _ _ h => h, fun _ _ => rfl⟩

variable {σ : MvccStorage}

section

variable (h : Recovered engine σ)

include h

lemma Recovered.withValue_eq (key : Bytes) (lock : MvccLock) :
    withValue σ.engine key lock = withValue engine key lock := by
  unfold withValue
  rw [h.others (dataKey key lock.startTs) fun key' => (lockKey_ne_dataKey key' key _).symm]

lemma Recovered.erase (key : Bytes) :
    Recovered engine { σ with engine := σ.engine.erase (lockKey key) } := by
  refine ⟨h.writes, h.revisions, h.applied, fun x value hget => ?_, fun x hx => ?_⟩
  · exact h.sub x value (of_getElem?_erase hget).2
  · rw [ExtTreeMap.getElem?_erase, if_neg (by simpa using (hx key).symm)]
    exact h.others x hx

/-- One round over the lock records: it is taken over, or dropped if its transaction is finished. -/
lemma Recovered.recoverLock (nowMs : UInt64) (hitem : item ∈ scanPrefix engine (ascii "lock/")) :
    ∃ key, item.1 = lockKey key ∧ MvccStorage.recoverLock nowMs σ item =
      match decodeLockValue nowMs item.2 with
      | none => σ
      | some lock =>
        if finished engine key lock then { σ with engine := σ.engine.erase (lockKey key) }
        else { σ with locks := σ.locks.insert key (withValue engine key lock) } := by
  obtain ⟨key, hkey, hstrip, -⟩ := exists_of_mem_scanPrefix hitem
  refine ⟨key, hkey, ?_⟩
  unfold MvccStorage.recoverLock
  cases hdecode : decodeLockValue nowMs item.2 with
  | none => rfl
  | some lock =>
    dsimp only
    rw [hstrip, ← h.withValue_eq, finished, MvccStorage.versionsOf, h.writes]
    rfl

lemma Recovered.step (hitem : item ∈ scanPrefix engine (ascii "lock/")) :
    Recovered engine (MvccStorage.recoverLock nowMs σ item) := by
  obtain ⟨key, -, heq⟩ := h.recoverLock nowMs hitem
  rw [heq]
  split
  · exact h
  · split
    · exact h.erase key
    · exact ⟨h.writes, h.revisions, h.applied, h.sub, h.others⟩

end

lemma recovered (nowMs : UInt64) : Recovered engine (recoverMetadataFromEngine nowMs engine) :=
  foldl_keeps (Recovered engine) (fun _ h _ hitem => h.step hitem) recovered_opened

/-- A lock is recovered unless its transaction has a record on the key. -/
lemma locks_recover : (recoverMetadataFromEngine nowMs engine).locks[key]? =
      (((engine[lockKey key]?).bind (decodeLockValue nowMs)).filter
        fun lock => !finished engine key lock).map (withValue engine key) := by
  let sets (item : Bytes × Bytes) : Option MvccLock :=
    if item.1 = lockKey key then
      ((decodeLockValue nowMs item.2).filter fun lock => !finished engine key lock).map
        (withValue engine key)
    else none
  rw [recover_eq]
  refine view_foldl_eq (Recovered engine) (fun σ => σ.locks[key]?) sets ?_ ?_ ?_
    recovered_opened (by simp [opened])
  · intro σ h item hitem
    refine ⟨h.step hitem, ?_⟩
    obtain ⟨key', hkey, heq⟩ := h.recoverLock nowMs hitem
    simp only [sets, heq, hkey, lockKey_inj]
    cases hdecode : decodeLockValue nowMs item.2 with
    | none => simp
    | some lock =>
      by_cases hk : key' = key
      · subst hk
        by_cases hfinished : finished engine key' lock = true <;>
          simp [hfinished, filter_some]
      · by_cases hfinished : finished engine key' lock = true <;>
          simp [hfinished, hk, ExtTreeMap.getElem?_insert]
  · intro item hitem lock hlock
    obtain ⟨hget, -⟩ := mem_scanPrefix.1 hitem
    simp only [sets] at hlock
    split at hlock
    · rename_i hkey
      rw [← hkey, hget]
      exact hlock
    · cases hlock
  · intro lock hlock
    obtain ⟨value, hget⟩ : ∃ value, engine[lockKey key]? = some value := by
      cases hget : engine[lockKey key]? with
      | none => simp [hget] at hlock
      | some value => exact ⟨value, rfl⟩
    rw [hget] at hlock
    exact ⟨(lockKey key, value), mem_scanPrefix_append hget, by simpa [sets] using hlock⟩

/-- The record of a finished transaction's lock is deleted. -/
lemma lockRecord_recover :
    (recoverMetadataFromEngine nowMs engine).engine[lockKey key]? = (engine[lockKey key]?).filter
        fun value => !(decodeLockValue nowMs value).any (finished engine key) := by
  have hsub := (recovered nowMs : Recovered engine _).sub (lockKey key)
  cases hget : engine[lockKey key]? with
  | none =>
    refine eq_none_iff_forall_ne_some.2 fun value hafter => ?_
    rw [hsub value hafter] at hget
    cases hget
  | some value =>
    -- whether the record is gone is a view that the scan only ever sets
    let gone (σ : MvccStorage) : Option Unit :=
      if σ.engine[lockKey key]? = none then some () else none
    let sets (item : Bytes × Bytes) : Option Unit :=
      if item.1 = lockKey key ∧ (decodeLockValue nowMs item.2).any (finished engine key) then
        some ()
      else none
    have hgone : gone (recoverMetadataFromEngine nowMs engine) = sets (lockKey key, value) := by
      refine view_foldl_eq (Recovered engine) gone sets ?_ ?_
        (fun _ hset => ⟨_, mem_scanPrefix_append hget, hset⟩) recovered_opened ?_
      · intro σ h item hitem
        refine ⟨h.step hitem, ?_⟩
        obtain ⟨key', hkey, heq⟩ := h.recoverLock nowMs hitem
        simp only [gone, sets, heq, hkey, lockKey_inj]
        cases hdecode : decodeLockValue nowMs item.2 with
        | none => simp
        | some lock =>
          by_cases hk : key' = key
          · subst hk
            by_cases hfinished : finished engine key' lock = true <;> simp [hfinished]
          · by_cases hfinished : finished engine key' lock = true <;>
              simp [hfinished, hk]
      · intro item hitem done hset
        obtain ⟨hitemGet, -⟩ := mem_scanPrefix.1 hitem
        simp only [sets] at hset
        split_ifs at hset with hitem
        rw [hitem.1, hget] at hitemGet
        cases hitemGet
        exact (if_pos ⟨rfl, hitem.2⟩).trans hset
      · exact if_neg (by simp [hget])
    cases hafter : (recoverMetadataFromEngine nowMs engine).engine[lockKey key]? with
    | none =>
      simp only [gone, sets, hafter] at hgone
      grind
    | some value' =>
      rw [hsub value' hafter] at hget
      cases hget
      simp only [gone, sets, hafter] at hgone
      grind

lemma versionsOf_recover (hcanonical : Canonical engine) (key : Bytes) (commitTs : Ts) :
    ((recoverMetadataFromEngine nowMs engine).versionsOf key)[commitTs]? =
      ((engine[writeKey key commitTs]?).bind decodeWriteValue).map
        fun write => { write with commitTs := commitTs } := by
  rw [versionsOf, (recovered nowMs).writes]
  exact versions_recover hcanonical key commitTs

lemma revision_recover : (recoverMetadataFromEngine nowMs engine).revisions[key]? =
      (engine[revisionKey key]?).map decodeTs := by
  rw [(recovered nowMs).revisions]
  exact revisions_recover key

section

variable (hcanonical : Canonical engine)

include hcanonical

lemma bare_locks_recover (key : Bytes) :
    ((recoverMetadataFromEngine nowMs engine).locks[key]?).map MvccLock.bare =
      ((engine[lockKey key]?).bind (decodeLockValue nowMs)).filter
        fun lock => !finished engine key lock := by
  rw [locks_recover, map_map]
  cases hget : engine[lockKey key]? with
  | none => rfl
  | some value =>
    obtain ⟨lock, hbare, hdecode⟩ := hcanonical.exists_lock hget
    rw [bind_some, hdecode, filter_some]
    split_ifs
    · exact congrArg some hbare
    · rfl

/-- What is recovered repeats the records. -/
lemma indexed_recover : (recoverMetadataFromEngine nowMs engine).Indexed := by
  have hothers := (recovered nowMs : Recovered engine _).others
  refine ⟨fun key now => ?_, fun key commitTs => ?_, fun key => ?_⟩
  · rw [bare_locks_recover hcanonical, lockRecord_recover]
    cases hget : engine[lockKey key]? with
    | none => rfl
    | some value =>
      obtain ⟨lock, -, hdecode⟩ := hcanonical.exists_lock hget
      cases hfinished : finished engine key lock <;> simp [filter_some, hdecode, hfinished]
  · rw [versionsOf_recover hcanonical, hothers _ fun _ => by simp]
  · rw [currentRevision, ExtTreeMap.getD_eq_getD_getElem?, revision_recover,
      hothers _ fun _ => by simp]

end

end

end MvccStorage

end StrataKV.Mvcc
