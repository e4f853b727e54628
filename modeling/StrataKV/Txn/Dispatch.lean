import StrataKV.Txn.Coordinator

/-!
# Sending requests

Facts about what `dispatch` sends, about the numbers of requests, and about the keys of a command,
which the invariants of the coordinator are stated with.
-/

namespace StrataKV.Txn

open Mvcc List
open Std (ExtTreeMap)

/-! ## Batches -/

variable {key : Bytes}

namespace Config

variable {α : Type} (cfg : Config) (keyOf : α → Bytes) (items : List α) {batch : ℕ × List α}

/-- A batch has items of one Region and is not empty. -/
lemma mem_groupByRegion (h : batch ∈ cfg.groupByRegion keyOf items) :
    batch.2 ≠ [] ∧ ∀ item ∈ batch.2, item ∈ items ∧ cfg.route (keyOf item) = batch.1 := by
  obtain ⟨region, hregion, rfl⟩ := mem_map.1 h
  rw [mem_dedup, mem_insertionSort, mem_map] at hregion
  obtain ⟨item, hitem, rfl⟩ := hregion
  refine ⟨?_, fun item' hitem' => ?_⟩
  · exact ne_nil_of_mem (mem_filter.2 ⟨hitem, by simp⟩)
  · simpa using mem_filter.1 hitem'

variable {item : α}

/-- Every item is in a batch. -/
lemma exists_mem_groupByRegion (h : item ∈ items) :
    ∃ batch ∈ cfg.groupByRegion keyOf items, item ∈ batch.2 := by
  refine ⟨_, mem_map.2 ⟨cfg.route (keyOf item), ?_, rfl⟩, ?_⟩
  · rw [mem_dedup, mem_insertionSort]
    exact mem_map.2 ⟨item, h, rfl⟩
  · exact mem_filter.2 ⟨h, by simp⟩

/-- What is sent now goes to the region of its keys, one item a request without batches. -/
lemma mem_dispatch (h : batch ∈ (cfg.dispatch keyOf items).1) :
    (∀ item ∈ batch.2, item ∈ items ∧ cfg.route (keyOf item) = batch.1) ∧
      (cfg.batchEnabled = true ∨ ∃ item, batch.2 = [item]) := by
  unfold dispatch at h
  split_ifs at h with henabled
  · exact ⟨(mem_groupByRegion cfg keyOf items h).2, .inl henabled⟩
  · cases items with
    | nil => simp at h
    | cons item rest =>
      rw [mem_singleton.1 h]
      simp

/-- An item is sent now or left for the next round. -/
lemma mem_dispatch_or (h : item ∈ items) : item ∈ (cfg.dispatch keyOf items).2 ∨
      ∃ batch ∈ (cfg.dispatch keyOf items).1, item ∈ batch.2 := by
  unfold dispatch
  split
  · exact .inr (exists_mem_groupByRegion cfg keyOf items h)
  · cases items with
    | nil => simp at h
    | cons first rest =>
      rcases mem_cons.1 h with rfl | h
      · exact .inr ⟨_, mem_singleton_self _, mem_singleton_self _⟩
      · exact .inl h

lemma mem_of_mem_dispatch_rest (h : item ∈ (cfg.dispatch keyOf items).2) : item ∈ items := by
  unfold dispatch at h
  split at h
  · exact absurd h not_mem_nil
  · cases items with
    | nil => simp at h
    | cons first rest => exact mem_cons_of_mem _ h

/-- A round sends something as long as there are items. -/
lemma eq_nil_of_dispatch (h : (cfg.dispatch keyOf items).1 = []) : items = [] := by
  rw [eq_nil_iff_forall_not_mem]
  intro item hitem
  unfold dispatch at h
  split at h
  · obtain ⟨batch, hbatch, -⟩ := exists_mem_groupByRegion cfg keyOf items hitem
    rw [show cfg.groupByRegion keyOf items = [] from h] at hbatch
    exact absurd hbatch not_mem_nil
  · cases items with
    | nil => simp at hitem
    | cons first rest => simp at h

lemma mem_batchOrder {keys : List Bytes} : key ∈ cfg.batchOrder keys ↔ key ∈ keys := by
  unfold batchOrder
  split
  · exact MvccStorage.mem_orderedKeys
  · exact Iff.rfl

end Config

namespace World

variable {α : Type} {w : World} {batches : List (ℕ × List α)} {command : List α → Command}

/-- A numbered request is the message that was sent under its number. -/
lemma sent_of_mem_numbered {call : ℕ × List α} (h : call ∈ w.numbered batches) :
    ∃ batch ∈ batches, batch.2 = call.2 ∧ (w.sendAll batches command).sent[call.1]? =
        some ⟨.coordinator, batch.1, command batch.2⟩ := by
  obtain ⟨⟨batch, i⟩, hmem, rfl⟩ := mem_map.1 h
  have hget := (mem_zipIdx_iff_getElem?).1 hmem
  refine ⟨batch, mem_of_getElem? hget, rfl, ?_⟩
  simp [sendAll, getElem?_append_right, hget]

lemma exists_numbered {batch : ℕ × List α} (h : batch ∈ batches) :
    ∃ call ∈ w.numbered batches, call.2 = batch.2 := by
  obtain ⟨i, hi⟩ := mem_iff_getElem?.1 h
  refine ⟨(w.sent.length + i, batch.2), mem_map.2 ⟨(batch, i), ?_, rfl⟩, rfl⟩
  exact mem_zipIdx_iff_getElem?.2 hi

end World

/-! ## The keys of a command -/

/-- The keys a command is about. -/
def keysOf : Command → List Bytes
  | .prewrite key .. => [key]
  | .pessimisticLock key .. => [key]
  | .prewriteLock key .. => [key]
  | .commit key .. => [key]
  | .rollback key .. => [key]
  | .checkTxnStatus key .. => [key]
  | .resolveLock key .. => [key]
  | .batchPrewrite mutations .. => mutations.map MvccMutation.key
  | .batchCommit keys .. => keys
  | .batchRollback keys .. => keys
  | .garbageCollect _ => []

variable {command : Command}

lemma key_mem_keysOf {c : KeyCommand} (h : c ∈ command.parts) : c.key ∈ keysOf command := by
  cases command with
  | checkTxnStatus key startTs nowMs rollbackIfExpired =>
    simp only [Command.parts] at h
    split at h
    · rw [mem_singleton.1 h]
      exact mem_singleton_self _
    · simp at h
  | resolveLock key startTs decision commitTs =>
    simp only [Command.parts] at h
    split at h
    · rw [mem_singleton.1 h]
      exact mem_singleton_self _
    · split at h
      · rw [mem_singleton.1 h]
        exact mem_singleton_self _
      · simp at h
  | batchPrewrite mutations =>
    obtain ⟨mutation, hmem, rfl⟩ := mem_map.1 h
    refine mem_map.2 ⟨mutation, hmem, ?_⟩
    split <;> rfl
  | batchCommit keys | batchRollback keys =>
    obtain ⟨key, hmem, rfl⟩ := mem_map.1 h
    exact hmem
  | garbageCollect => simp [Command.parts] at h
  | _ =>
    rw [mem_singleton.1 h]
    exact mem_singleton_self _

lemma parts_atClock (nowMs nowMs' : Bytes → UInt64) (command : Command) :
    (atClock nowMs nowMs' command).parts = command.parts := by
  cases command <;> rfl

lemma safePoint?_atClock (nowMs nowMs' : Bytes → UInt64) (command : Command) :
    (atClock nowMs nowMs' command).safePoint? = command.safePoint? := by
  cases command <;> rfl

variable {isStart : Ts → Prop}

/-- What a reply tells does not depend on the clocks of the Regions. -/
lemma tells_atClock {view : Bytes → KeyView} {nowMs nowMs' : Bytes → UInt64} {reply : Reply}
    (h : reply.Tells isStart view (atClock nowMs nowMs' command)) :
    reply.Tells isStart view command := by
  cases command <;> exact h

/-- A reply tells something about the keys of its command only. -/
lemma tells_congr {view view' : Bytes → KeyView}
    {reply : Reply} (h : reply.Tells isStart view command)
    (hview : ∀ key ∈ keysOf command, view' key = view key) : reply.Tells isStart view' command := by
  cases command with
  | commit key | rollback key | checkTxnStatus key | resolveLock key =>
    simpa only [Reply.Tells, hview key (mem_singleton_self _)] using h
  | batchRollback keys startTs =>
    refine ⟨fun hs key hkey => ?_, fun hs => ?_⟩
    · rw [hview key hkey]
      exact h.1 hs key hkey
    · obtain ⟨key, hkey, hc⟩ := h.2 hs
      refine ⟨key, hkey, ?_⟩
      rw [hview key hkey]
      exact hc
  | _ => trivial

/-! ## The keys of a transaction -/

namespace Transaction

lemma mem_mutationKeys {txn : Transaction} :
    key ∈ txn.mutationKeys ↔ txn.hasMutation key = true := by
  rw [mutationKeys, mem_map, hasMutation, ExtTreeMap.contains_iff_mem,
    ExtTreeMap.mem_iff_isSome_getElem?, Option.isSome_iff_exists]
  constructor
  · rintro ⟨⟨k, mutation⟩, hmem, rfl⟩
    exact ⟨mutation, ExtTreeMap.mem_toList_iff_getElem?_eq_some.1 hmem⟩
  · rintro ⟨mutation, hget⟩
    exact ⟨(key, mutation), ExtTreeMap.mem_toList_iff_getElem?_eq_some.2 hget, rfl⟩

/-- The cleanup covers every key with a mutation. -/
lemma mem_cleanupKeys {txn : Transaction} (h : txn.hasMutation key = true) :
    key ∈ txn.cleanupKeys := by
  rw [cleanupKeys, MvccStorage.mem_orderedKeys, append_assoc]
  exact mem_append_left _ (mem_mutationKeys.2 h)

/-- The transaction is the same but for its state and its locks. -/
structure Same (txn txn' : Transaction) : Prop where
  startTs : txn'.startTs = txn.startTs
  mutations : txn'.mutations = txn.mutations
  primaryKey : txn'.primaryKey = txn.primaryKey

namespace Same

variable {txn txn' : Transaction}

lemma refl (txn : Transaction) : Same txn txn := ⟨rfl, rfl, rfl⟩

section

variable (h : Same txn txn')

include h

lemma hasMutation (key : Bytes) : txn'.hasMutation key = txn.hasMutation key := by
  rw [Transaction.hasMutation, h.mutations]
  rfl

lemma markAbortOnly : Same txn txn'.markAbortOnly := by
  unfold Transaction.markAbortOnly
  split
  · exact ⟨h.startTs, h.mutations, h.primaryKey⟩
  · exact h

lemma markCleanupPending : Same txn txn'.markCleanupPending := by
  unfold Transaction.markCleanupPending
  split
  · exact ⟨h.startTs, h.mutations, h.primaryKey⟩
  · exact h

lemma markResultUnknown : Same txn txn'.markResultUnknown := by
  unfold Transaction.markResultUnknown
  split
  · exact ⟨h.startTs, h.mutations, h.primaryKey⟩
  · exact h

lemma markFinished : Same txn txn'.markFinished := ⟨h.startTs, h.mutations, h.primaryKey⟩

lemma clearPessimisticLocks : Same txn txn'.clearPessimisticLocks :=
  ⟨h.startTs, h.mutations, h.primaryKey⟩

lemma forgetPessimisticLocks (keys : List Bytes) :
    Same txn (txn'.forgetPessimisticLocks keys) := ⟨h.startTs, h.mutations, h.primaryKey⟩

end

end Same

end Transaction

end StrataKV.Txn
