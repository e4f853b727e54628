import StrataKV.Metadata.RoundTrip

/-!
# The memory of the mutations

`Apply` answers a mutation that it remembers with the result of its first application. What it
remembers is a table and a queue of ids that decides which record goes next; a snapshot carries the
records in the order of the queue, and a restore rebuilds both.

A `Timeline` is a machine together with the mutations that were applied on the way to its state. A
restore takes over the timeline of the snapshot. On every timeline the queue is the end of the
history and the table has its results.
-/

namespace StrataKV.Metadata

open MetadataState List
open Std (ExtTreeMap)

variable {σ τ : MetadataState} {command : MetadataCommand}

/-! ## Timelines -/

/-- The applied mutations with their results, the oldest first. -/
abbrev History := List (Bytes × MetadataCommandResult)

/-- The end of the history that the machine has to remember. -/
def History.recent (history : History) : History := history.drop (history.length - kDedupRetention)

/-- The history after a command: a mutation without an id and a remembered one are not applied. -/
def History.next (history : History) (σ : MetadataState) (command : MetadataCommand) : History :=
  if command.mutationId = [] ∨ σ.dedup.contains command.mutationId then history
  else history ++ [(command.mutationId, (σ.apply command).1)]

/-- The machines with their histories: a machine applies any command, and takes over a snapshot of
any other one. A restore that fails in its checks leaves the machine as it was. -/
inductive Timeline : MetadataState → History → Prop
  | fresh : Timeline {} []
  | apply {σ : MetadataState} {history : History} (h : Timeline σ history)
      (command : MetadataCommand) : Timeline (σ.apply command).2 (history.next σ command)
  | restore {σ τ : MetadataState} {history past : History} (h : Timeline σ history)
      (hτ : Timeline τ past) : Timeline (σ.restore τ.snapshot).2
        (if (σ.restored τ.snapshot).isOk then past else history)

/-! ## What is remembered -/

/-- The queue is the end of the history, and the table has the results of its mutations. -/
structure Remembers (σ : MetadataState) (history : History) : Prop extends Recorded σ where
  order : σ.dedupOrder = history.recent.map Prod.fst
  results : ∀ entry ∈ history.recent, σ.dedup[entry.1]?.map MutationRecord.result = some entry.2

variable {mutationId : Bytes}

/-- A mutation that is remembered changes nothing. -/
lemma apply_repeated (h : σ.dedup[command.mutationId]?.isSome = true) :
    (σ.apply command).2 = σ := by
  obtain ⟨record, hrecord⟩ := Option.isSome_iff_exists.1 h
  unfold MetadataState.apply
  split
  · rfl
  · rw [hrecord]

lemma apply_fresh (hnamed : command.mutationId ≠ []) (hnew : σ.dedup[command.mutationId]? = none) :
    σ.apply command = ((σ.applyLocked command).1,
      (σ.applyLocked command).2.recordResultLocked command.mutationId
        (σ.applyLocked command).1) := by
  rw [MetadataState.apply, if_neg hnamed, hnew]

/-- What is recorded under an id after a command. -/
lemma dedup_apply_cases {record : MutationRecord}
    (h : (σ.apply command).2.dedup[mutationId]? = some record) :
    σ.dedup[mutationId]? = some record ∨
      command.mutationId = mutationId ∧ record.result = (σ.apply command).1 := by
  by_cases hfresh : command.mutationId ≠ [] ∧ σ.dedup[command.mutationId]? = none
  · -- the oldest records are forgotten, and the new one is that of the command
    rw [apply_fresh hfresh.1 hfresh.2] at h ⊢
    dsimp only [recordResultLocked] at h
    rw [OrdMap.getElem?_foldl_erase, (applyLocked_outcome σ command).records.1] at h
    split_ifs at h
    rcases OrdMap.insert_cases h with ⟨rfl, rfl⟩ | hold
    · exact .inr ⟨rfl, rfl⟩
    · exact .inl hold
  · rw [not_and_or, not_not, ← ne_eq, Option.ne_none_iff_isSome] at hfresh
    rcases hfresh with hunnamed | hknown
    · rw [MetadataState.apply, if_pos hunnamed] at h
      exact .inl h
    · rw [apply_repeated hknown] at h
      exact .inl h

/-- The table after a mutation, at an id that stays in the queue. -/
lemma Recorded.getElem?_record (h : Recorded σ) (hnamed : mutationId ≠ [])
    (hnew : σ.dedup[mutationId]? = none) (result : MetadataCommandResult) {id : Bytes}
    (hid : id ∈ (σ.recordResultLocked mutationId result).dedupOrder) :
    (σ.recordResultLocked mutationId result).dedup[id]? =
      if mutationId = id then some ⟨mutationId, result, σ.revision⟩ else σ.dedup[id]? := by
  obtain ⟨record, hget⟩ := (h.record hnamed hnew result).found id hid
  rw [hget]
  dsimp only [recordResultLocked] at hget
  rw [OrdMap.getElem?_foldl_erase] at hget
  split_ifs at hget
  rw [← hget, OrdMap.getElem?_insert]

/-- One more mutation moves the window by one. -/
lemma History.recent_concat (history : History) (entry : Bytes × MetadataCommandResult) :
    recent (history ++ [entry]) = (history.recent ++ [entry]).drop
      ((history.recent ++ [entry]).length - kDedupRetention) := by
  unfold recent
  generalize kDedupRetention = retention
  have hdrop : history.drop (history.length - retention) ++ [entry] =
      (history ++ [entry]).drop (history.length - retention) := by
    rw [drop_append_of_le_length (by omega)]
  rw [hdrop, drop_drop]
  simp only [length_append, length_drop, length_singleton]
  congr 1
  omega

namespace Remembers

variable {history : History}

section

variable (h : Remembers σ history)

include h

lemma congr (hdedup : τ.dedup = σ.dedup)
    (horder : τ.dedupOrder = σ.dedupOrder) : Remembers τ history where
  toRecorded := h.toRecorded.congr hdedup horder
  order := by rw [horder, h.order]
  results := by
    rw [hdedup]
    exact h.results

lemma record (hnamed : mutationId ≠ [])
    (hnew : σ.dedup[mutationId]? = none) (result : MetadataCommandResult) :
    Remembers (σ.recordResultLocked mutationId result) (history ++ [(mutationId, result)]) := by
  have horder : (σ.recordResultLocked mutationId result).dedupOrder =
      (History.recent (history ++ [(mutationId, result)])).map Prod.fst := by
    rw [History.recent_concat, map_drop]
    dsimp only [recordResultLocked]
    rw [h.order]
    simp
  refine ⟨h.toRecorded.record hnamed hnew result, horder, ?_⟩
  intro entry hentry
  have hid : entry.1 ∈ (σ.recordResultLocked mutationId result).dedupOrder := by
    rw [horder]
    exact mem_map_of_mem hentry
  rw [h.toRecorded.getElem?_record hnamed hnew result hid]
  rw [History.recent_concat] at hentry
  rcases mem_append.1 (mem_of_mem_drop hentry) with hold | hlast
  · -- a mutation from before, which is not the new one
    have hresult := h.results entry hold
    rw [if_neg, hresult]
    rintro rfl
    rw [hnew] at hresult
    cases hresult
  · rw [mem_singleton.1 hlast, if_pos rfl]
    rfl

lemma apply (command : MetadataCommand) :
    Remembers (σ.apply command).2 (history.next σ command) := by
  unfold History.next
  split
  · rename_i hanswered
    have hsame : (σ.apply command).2 = σ := by
      rcases hanswered with hunnamed | hknown
      · rw [MetadataState.apply, if_pos hunnamed]
        rfl
      · exact apply_repeated (ExtTreeMap.isSome_getElem?_eq_contains.trans hknown)
    rw [hsame]
    exact h
  · rename_i hfresh
    rw [not_or, Bool.not_eq_true] at hfresh
    have hnew := (OrdMap.contains_eq_false_iff _ _).1 hfresh.2
    rw [apply_fresh hfresh.1 hnew]
    obtain ⟨hdedup, horder⟩ := (applyLocked_outcome σ command).records
    exact (h.congr hdedup horder).record hfresh.1 (by rw [hdedup, hnew]) _

/-- A mutation with an id is remembered right after it was applied. -/
lemma isSome_apply (hnamed : command.mutationId ≠ []) :
    (σ.apply command).2.dedup[command.mutationId]?.isSome = true := by
  cases hknown : σ.dedup[command.mutationId]?.isSome with
  | true => rw [apply_repeated hknown, hknown]
  | false =>
    have hfresh : ¬(command.mutationId = [] ∨ σ.dedup.contains command.mutationId = true) := by
      rw [← ExtTreeMap.isSome_getElem?_eq_contains, hknown]
      simpa using hnamed
    have hnext := h.apply command
    rw [History.next, if_neg hfresh] at hnext
    have hlast : (command.mutationId, (σ.apply command).1) ∈
        History.recent (history ++ [(command.mutationId, (σ.apply command).1)]) := by
      have hretention : kDedupRetention = 4096 := rfl
      rw [History.recent, drop_append_of_le_length (by rw [length_append, length_singleton]; omega)]
      exact mem_append_right _ (mem_singleton_self _)
    obtain ⟨record, hrecord, -⟩ := Option.map_eq_some_iff.1 (hnext.results _ hlast)
    rw [hrecord]
    rfl

lemma restore {past : History} (hτ : Remembers τ past) : Remembers (σ.restore τ.snapshot).2
      (if (σ.restored τ.snapshot).isOk then past else history) := by
  unfold MetadataState.restore
  cases hrestored : σ.restored τ.snapshot with
  | error message => exact h
  | ok ρ =>
    obtain ⟨hdedup, horder, -⟩ := restored_members hrestored
    obtain ⟨hcollect, hids⟩ :=
      hτ.toRecorded.collect_recent "invalid mutation record in metadata snapshot"
    obtain ⟨view, heq⟩ := ρ.recomputeHighWater.publish_snd accept
    rw [heq]
    refine hτ.congr ?_ (horder.trans hids)
    exact Except.ok.inj (hdedup.symm.trans hcollect)

end

end Remembers

lemma Timeline.remembers {history : History} (h : Timeline σ history) : Remembers σ history := by
  induction h with
  | fresh => exact ⟨⟨nodup_nil, by simp, by simp⟩, rfl, by simp [History.recent]⟩
  | apply _ command ih => exact ih.apply command
  | restore _ _ ih ihτ => exact ih.restore ihτ

/-- On every timeline a mutation among the last 4096 applied ones is answered with the result of that
application and changes nothing, and the queue and the table have the same ids, those of these
mutations, each once. -/
theorem mutations_idempotent {history : History} (h : Timeline σ history) :
    (∀ (mutationId : Bytes) (result : MetadataCommandResult),
      (mutationId, result) ∈ history.recent → ∀ command : MetadataCommand,
        command.mutationId = mutationId → σ.apply command = (result, σ)) ∧
    σ.dedupOrder = history.recent.map Prod.fst ∧ σ.dedupOrder.Nodup ∧
    (∀ mutationId, mutationId ∈ σ.dedupOrder ↔ σ.dedup.contains mutationId = true) ∧
    σ.dedupOrder.length ≤ 4096 ∧ σ.dedup.size ≤ 4096 := by
  have hremembers := h.remembers
  have hlength : σ.dedupOrder.length ≤ 4096 := by
    rw [hremembers.order, length_map, History.recent, length_drop]
    have hretention : kDedupRetention = 4096 := rfl
    omega
  have hcontains (mutationId : Bytes) :
      mutationId ∈ σ.dedupOrder ↔ σ.dedup.contains mutationId = true := by
    rw [← ExtTreeMap.isSome_getElem?_eq_contains, Option.isSome_iff_exists]
    constructor
    · exact hremembers.found mutationId
    · rintro ⟨record, hrecord⟩
      exact (hremembers.listed mutationId record hrecord).1
  refine ⟨?_, hremembers.order, hremembers.nodup, hcontains, hlength, ?_⟩
  · rintro mutationId result hrecent command rfl
    obtain ⟨record, hrecord, hresult⟩ := Option.map_eq_some_iff.1 (hremembers.results _ hrecent)
    have hnamed := (hremembers.listed _ record hrecord).2.2
    rw [MetadataState.apply, if_neg hnamed, hrecord]
    exact congrArg (·, σ) hresult
  · -- both list the same ids once
    have hperm : σ.dedup.keys.Perm σ.dedupOrder := by
      refine (perm_ext_iff_of_nodup ExtTreeMap.nodup_keys hremembers.nodup).2 ?_
      intro mutationId
      rw [ExtTreeMap.mem_keys, hcontains, ExtTreeMap.contains_iff_mem]
    rw [← ExtTreeMap.length_keys, hperm.length_eq]
    exact hlength

/-- A second machine takes over a snapshot of a bootstrapped one and is given the same command. -/
theorem mutations_idempotent_restored :
    ((({} : MetadataState).restore (run {} [bootstrapCommand]).snapshot).2).apply
        bootstrapCommand = ((({} : MetadataState).apply bootstrapCommand).1,
        (({} : MetadataState).restore (run {} [bootstrapCommand]).snapshot).2) := by
  have htimeline := Timeline.fresh.restore (Timeline.fresh.apply bootstrapCommand)
  have hok : (({} : MetadataState).restored
      (({} : MetadataState).apply bootstrapCommand).2.snapshot).isOk = true := by decide
  have hnext : History.next [] {} bootstrapCommand =
      [(bootstrapCommand.mutationId, (({} : MetadataState).apply bootstrapCommand).1)] := by
    rw [History.next, if_neg (by decide)]
    rfl
  rw [if_pos hok, hnext] at htimeline
  exact (mutations_idempotent htimeline).1 bootstrapCommand.mutationId _
    (by simp [History.recent, kDedupRetention]) _ rfl

end StrataKV.Metadata
