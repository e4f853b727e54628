import StrataKV.Mvcc.Direct
import StrataKV.Mvcc.KeyView

/-!
# A run of prepared commands as one batch

`applyPreparedCommandsAtomically` checks a run of prepared commands against staged revisions and
writes it as one engine batch with one applied index. For commands that carry mutations of their own
keys this is the same as applying them one after another, and a refused run leaves no trace.
-/

namespace StrataKV.Mvcc

open Decimal List PreparedApplyCommand
open Std (ExtTreeMap)

namespace PreparedApplyCommand

/-- The command carries mutations of its own keys, as the prepare functions build it. -/
def Carries : PreparedApplyCommand → Prop
  | single _ key prepared => ∃ mods, prepared.Carries key mods
  | batch _ prepared => MvccStorage.ItemsCarry prepared.items

/-- The command on its own. -/
def apply (σ : MvccStorage) (env : ApplyEnv) : PreparedApplyCommand → TxnStatus × MvccStorage
  | single raftIndex key prepared => σ.applyPrepared key prepared raftIndex env
  | batch raftIndex prepared => σ.applyPreparedBatch prepared raftIndex env

end PreparedApplyCommand

namespace MvccStorage

/-- The commands one after another, as long as each one succeeds. -/
def applyEach (env : ApplyEnv) : MvccStorage → List PreparedApplyCommand → Option MvccStorage
  | σ, [] => some σ
  | σ, command :: rest =>
    match command.apply σ env with
    | (.ok, σ') => applyEach env σ' rest
    | _ => none

/-! ## The engine -/

variable {key : Bytes}

lemma getElem?_writeBatch_congr {engine engine' : ExtTreeMap Bytes Bytes compare}
    (h : engine[key]? = engine'[key]?) (ops : List KVBatchOp) :
    (writeBatch engine ops)[key]? = (writeBatch engine' ops)[key]? := by
  induction ops generalizing engine engine' with
  | nil => exact h
  | cons op rest ih =>
    refine ih ?_
    rw [getElem?_applyOp, getElem?_applyOp, h]

/-- An applied index that a later batch overwrites leaves no trace. -/
lemma writeBatch_overwrites (engine : ExtTreeMap Bytes Bytes compare) (ops rest : List KVBatchOp)
    (first last : Bytes) :
    writeBatch (writeBatch engine (ops ++ [⟨.put, appliedRaftIndexKey, first⟩]))
        (rest ++ [⟨.put, appliedRaftIndexKey, last⟩]) =
      writeBatch engine (ops ++ rest ++ [⟨.put, appliedRaftIndexKey, last⟩]) := by
  refine ExtTreeMap.ext_getElem? fun key => ?_
  by_cases hkey : key = appliedRaftIndexKey
  · subst hkey
    rw [getElem?_writeBatch_concat_put, getElem?_writeBatch_concat_put]
  · have hfirst : (writeBatch engine (ops ++ [⟨.put, appliedRaftIndexKey, first⟩]))[key]? =
        (writeBatch engine ops)[key]? := by
      unfold writeBatch
      rw [foldl_append, foldl_cons, foldl_nil, getElem?_applyOp, if_neg fun h => hkey h.symm]
    rw [getElem?_writeBatch_congr hfirst]
    unfold writeBatch
    rw [← foldl_append, ← append_assoc]

/-! ## The in-memory indexes -/

variable (nowMs : UInt64)

/-- The replay of mutations neither reads nor writes the engine and the applied index. -/
lemma foldl_applyMetadataMutation_with (ops : List KVBatchOp) (σ : MvccStorage)
    (engine : ExtTreeMap Bytes Bytes compare) (index : UInt64) :
    ops.foldl (applyMetadataMutation nowMs)
        { σ with engine := engine, appliedRaftIndex := index } =
      { ops.foldl (applyMetadataMutation nowMs) σ with
        engine := engine, appliedRaftIndex := index } := by
  induction ops generalizing σ with
  | nil => rfl
  | cons op rest ih =>
    have hop : applyMetadataMutation nowMs { σ with engine := engine, appliedRaftIndex := index }
        op = { applyMetadataMutation nowMs σ op with
          engine := engine, appliedRaftIndex := index } := by
      unfold applyMetadataMutation versionsOf
      repeat' split
      all_goals first | rfl | simp_all
    rw [foldl_cons, foldl_cons, hop, ih]

/-- The state after mutations and an applied index. -/
def afterOps (σ : MvccStorage) (ops : List KVBatchOp) (index : UInt64) : MvccStorage :=
  { ops.foldl (applyMetadataMutation nowMs) σ with
    engine := writeBatch σ.engine (ops ++ [⟨.put, appliedRaftIndexKey, toDecimal index.toNat⟩])
    appliedRaftIndex := index }

lemma foldl_commitBatch (σ : MvccStorage) (ops : List KVBatchOp) {index : UInt64}
    (hindex : index ≠ 0) :
    { ops.foldl (applyMetadataMutation nowMs) (σ.commitBatch ops index) with
      appliedRaftIndex := index } = σ.afterOps nowMs ops index := by
  have hcommit : σ.commitBatch ops index =
      { σ with
        engine := writeBatch σ.engine (ops ++ [⟨.put, appliedRaftIndexKey, toDecimal index.toNat⟩])
        appliedRaftIndex := σ.appliedRaftIndex } := by
    simp [commitBatch, hindex]
  rw [hcommit, foldl_applyMetadataMutation_with]
  rfl

/-- Two batches in a row are one batch with the later index. -/
lemma afterOps_afterOps (σ : MvccStorage) (ops rest : List KVBatchOp) (first last : UInt64) :
    (σ.afterOps nowMs ops first).afterOps nowMs rest last =
      σ.afterOps nowMs (ops ++ rest) last := by
  unfold afterOps
  rw [foldl_applyMetadataMutation_with, writeBatch_overwrites, foldl_append]

/-! ## The clock -/

/-- The mutations of a prepared write do not need the clock that a lock of the old format is decoded
with. -/
lemma applyMetadataMutation_clock (nowMs nowMs' : UInt64) (σ : MvccStorage) {m : KeyMod}
    (hm : m.Sized) (key : Bytes) :
    applyMetadataMutation nowMs σ (m.toOp key) = applyMetadataMutation nowMs' σ (m.toOp key) := by
  cases m with
  | putData startTs value | delData startTs =>
    rw [applyMetadataMutation_data nowMs σ _ key startTs rfl,
      applyMetadataMutation_data nowMs' σ _ key startTs rfl]
  | putLock lock =>
    rw [applyMetadataMutation_putLock nowMs σ key lock hm,
      applyMetadataMutation_putLock nowMs' σ key lock hm]
  | delLock => rw [applyMetadataMutation_delLock, applyMetadataMutation_delLock]
  | putWrite commitTs write =>
    rw [applyMetadataMutation_putWrite, applyMetadataMutation_putWrite]
  | putRevision revision =>
    rw [applyMetadataMutation_putRevision, applyMetadataMutation_putRevision]

variable {prepared : PreparedMvccWrite} {mods : List KeyMod}

lemma foldl_applyMetadataMutation_clock (nowMs nowMs' : UInt64) (σ : MvccStorage)
    (h : prepared.Carries key mods) :
    prepared.modifications.foldl (applyMetadataMutation nowMs) σ =
      prepared.modifications.foldl (applyMetadataMutation nowMs') σ := by
  rw [h.ops, foldl_map, foldl_map]
  refine foldl_ext _ _ σ ?_
  intro τ m hm
  exact applyMetadataMutation_clock nowMs nowMs' τ (h.sized m hm) key

variable {items : List PreparedMvccBatchItem}

lemma applyItems_clock (nowMs nowMs' : UInt64) (h : ItemsCarry items) (σ : MvccStorage) :
    applyItems nowMs σ items = applyItems nowMs' σ items := by
  induction items generalizing σ with
  | nil => rfl
  | cons item rest ih =>
    obtain ⟨mods, hmods⟩ := h item mem_cons_self
    rw [applyItems, applyItems, foldl_applyMetadataMutation_clock nowMs nowMs' σ hmods]
    simp only [ih fun x hx => h x (mem_cons_of_mem _ hx)]

/-- Only the answer of the engine matters to a command that was prepared. -/
lemma apply_clock {command : PreparedApplyCommand} (h : command.Carries) (σ : MvccStorage)
    {env env' : ApplyEnv} (hengine : env.engineOk = env'.engineOk) :
    command.apply σ env = command.apply σ env' := by
  cases command with
  | single raftIndex key prepared =>
    obtain ⟨mods, hmods⟩ := h
    simp only [apply, applyPrepared, hengine,
      foldl_applyMetadataMutation_clock env.nowMs env'.nowMs _ hmods]
  | batch raftIndex prepared =>
    simp only [apply, applyPreparedBatch, hengine, applyItems_clock env.nowMs env'.nowMs h]

/-- The commands one after another, each at its own time, as long as each one succeeds. -/
def applySequence : MvccStorage → List (PreparedApplyCommand × ApplyEnv) → Option MvccStorage
  | σ, [] => some σ
  | σ, (command, env) :: rest =>
    match command.apply σ env with
    | (.ok, σ') => applySequence σ' rest
    | _ => none

lemma applySequence_eq {env : ApplyEnv} {steps : List (PreparedApplyCommand × ApplyEnv)}
    (hcarry : ∀ step ∈ steps, step.1.Carries)
    (hengine : ∀ step ∈ steps, step.2.engineOk = env.engineOk) (σ : MvccStorage) :
    applySequence σ steps = applyEach env σ (steps.map Prod.fst) := by
  induction steps generalizing σ with
  | nil => rfl
  | cons step rest ih =>
    obtain ⟨command, own⟩ := step
    obtain ⟨hfirst, hrest⟩ := forall_mem_cons.1 hcarry
    obtain ⟨hown, hothers⟩ := forall_mem_cons.1 hengine
    rw [applySequence, map_cons, applyEach, apply_clock hfirst σ hown]
    simp only [ih hrest hothers]

/-! ## Revisions -/

section

variable {σ : MvccStorage} {env : ApplyEnv} {index : UInt64}

lemma currentRevision_afterOps (ops : List KVBatchOp) (key : Bytes) :
    (σ.afterOps nowMs ops index).currentRevision key =
      (ops.foldl (applyMetadataMutation nowMs) σ).currentRevision key := rfl

/-- The revision of a key after the mutations that a write carries. -/
lemma currentRevision_foldl (h : prepared.Carries key mods) (nowMs : UInt64) (k : Bytes) :
    (prepared.modifications.foldl (applyMetadataMutation nowMs) σ).currentRevision k =
      if key = k ∧ prepared.modifications ≠ [] then prepared.newRevision
      else σ.currentRevision k := by
  have hview := congrArg KeyView.revision
    (view_foldl_applyMetadataMutation nowMs σ mods h.sized key k)
  rw [← h.ops] at hview
  refine Eq.trans hview ?_
  by_cases hk : key = k
  · by_cases hnil : prepared.modifications = []
    · have hmods : mods = [] := by simpa [h.ops] using hnil
      simp [hk, hnil, hmods, view]
    · have hmods : mods ≠ [] := by
        rintro rfl
        exact hnil (by simpa using h.ops)
      rw [if_pos hk, if_pos ⟨hk, hnil⟩, h.revision_foldl hmods]
  · rw [if_neg hk, if_neg fun h => hk h.1]
    rfl

lemma applyPrepared_passed
    (h : prepared.Carries key mods) (hindex : index ≠ 0) (hfresh : σ.appliedRaftIndex < index)
    (hchecks : ¬((prepared.commandVersion ≠ PreparedMvccWrite.kLegacyCommandVersion ∧
        prepared.commandVersion ≠ PreparedMvccWrite.kCommandVersion) ∨
      prepared.status ≠ .ok ∨ prepared.modifications = [] ∨
      prepared.newRevision ≠ prepared.expectedRevision + 1))
    (hrevision : σ.currentRevision key = prepared.expectedRevision) (hok : env.engineOk = true) :
    σ.applyPrepared key prepared index env =
      (.ok, σ.afterOps env.nowMs prepared.modifications index) := by
  have hstale : ¬σ.Stale index := by
    rintro ⟨-, hle⟩
    exact absurd hfresh (UInt64.not_lt.2 hle)
  rw [applyPrepared_eq h, if_neg hchecks, if_neg hstale, if_neg (not_not.2 hrevision),
    if_neg (by simp [hok]), afterApply, if_pos hindex, foldl_commitBatch _ _ _ hindex]

lemma applyPreparedBatch_eq {prepared : PreparedMvccBatch} {ops : List KVBatchOp}
    (h : ItemsCarry prepared.items) (hindex : index ≠ 0) (hfresh : σ.appliedRaftIndex < index)
    (hchecks : ¬(prepared.commandVersion ≠ PreparedMvccBatch.kCommandVersion ∨
      prepared.status ≠ .ok ∨ prepared.items = []))
    (hops : σ.batchModifications [] prepared.items = some ops) (hok : env.engineOk = true) :
    σ.applyPreparedBatch prepared index env = (.ok, σ.afterOps env.nowMs ops index) := by
  have hstale : ¬(index ≠ 0 ∧ index ≤ σ.appliedRaftIndex) := by
    rintro ⟨-, hle⟩
    exact absurd hfresh (UInt64.not_lt.2 hle)
  obtain ⟨hflat, -, -⟩ := batchModifications_eq_some hops
  unfold applyPreparedBatch
  rw [if_neg hchecks, if_neg hstale]
  simp only [hops]
  rw [if_neg (by simp [hindex, hok]), applyItems_eq env.nowMs prepared.items _ h, ← hflat]
  simp only [Bool.not_true, Bool.false_eq_true, if_false]
  rw [if_pos hindex, foldl_commitBatch _ _ _ hindex]

end

/-! ## The staged run -/

section

variable {σ τ ρ : MvccStorage} {env : ApplyEnv} {staged staged' : ExtTreeMap Bytes UInt64 compare}

lemma currentOrStagedRevision_insert (key k : Bytes) (revision : UInt64) :
    σ.currentOrStagedRevision (staged.insert key revision) k =
      if key = k then revision else σ.currentOrStagedRevision staged k := by
  unfold currentOrStagedRevision
  rw [ExtTreeMap.getD_insert]
  simp

/-- The items of a batch that pass on the staged revisions pass on the storage that the run has
reached, and leave the staged revisions in it. `ρ` is the storage with the items before replayed:
only the keys up to `previous` differ from `τ`. -/
lemma batchModifications_of_stageItems {previous : Bytes} (hcarry : ItemsCarry items)
    (h : σ.stageItems staged previous items = some staged')
    (hstaged : ∀ k, σ.currentOrStagedRevision staged k = ρ.currentRevision k)
    (hrest : ∀ k, previous = [] ∨ previous < k → ρ.currentRevision k = τ.currentRevision k) :
    ∃ ops, τ.batchModifications previous items = some ops ∧
      ∀ k, σ.currentOrStagedRevision staged' k =
        (ops.foldl (applyMetadataMutation nowMs) ρ).currentRevision k := by
  induction items generalizing staged previous ρ with
  | nil =>
    cases h
    exact ⟨[], rfl, hstaged⟩
  | cons item rest ih =>
    have hcarry' : ItemsCarry rest := fun x hx => hcarry x (mem_cons_of_mem _ hx)
    unfold stageItems at h
    unfold batchModifications
    split at h
    · cases h
    rename_i hitem
    rw [if_neg hitem]
    simp only [not_or, not_and, not_not] at hitem
    obtain ⟨hkey, hprevious, -⟩ := hitem
    have hbefore : previous = [] ∨ previous < item.key := by
      by_cases hnil : previous = []
      · exact .inl hnil
      · exact .inr (List.not_le.1 (hprevious hnil))
    have hafter : ∀ k, item.key = [] ∨ item.key < k → previous = [] ∨ previous < k := by
      intro k hk
      rcases hk with hk | hk
      · exact absurd hk hkey
      · exact hbefore.imp_right fun hlt => List.lt_trans hlt hk
    split at h
    · rename_i hnil
      rw [if_pos hnil]
      exact ih hcarry' h hstaged fun k hk => hrest k (hafter k hk)
    · rename_i hnil
      rw [if_neg hnil]
      split_ifs at h with hcheck
      have hsame : σ.currentOrStagedRevision staged item.key = τ.currentRevision item.key :=
        (hstaged item.key).trans (hrest item.key hbefore)
      rw [hsame] at hcheck
      rw [if_neg hcheck]
      obtain ⟨mods, hmods⟩ := hcarry item mem_cons_self
      -- the item's own mutations set the revision of its key and of no other
      have hfold : ∀ k, (item.prepared.modifications.foldl (applyMetadataMutation nowMs)
          ρ).currentRevision k = if item.key = k then item.prepared.newRevision
            else ρ.currentRevision k := by
        intro k
        rw [currentRevision_foldl hmods]
        simp [hnil]
      have hstaged' : ∀ k,
          σ.currentOrStagedRevision (staged.insert item.key item.prepared.newRevision) k =
            (item.prepared.modifications.foldl (applyMetadataMutation nowMs)
              ρ).currentRevision k := by
        intro k
        rw [hfold, currentOrStagedRevision_insert, hstaged]
      have hrest' : ∀ k, item.key = [] ∨ item.key < k →
          (item.prepared.modifications.foldl (applyMetadataMutation nowMs) ρ).currentRevision k =
            τ.currentRevision k := by
        intro k hk
        have hne : ¬item.key = k := by
          rintro rfl
          rcases hk with hk | hk
          · exact hkey hk
          · exact absurd hk (List.lt_irrefl _)
        rw [hfold, if_neg hne]
        exact hrest k (hafter k hk)
      obtain ⟨ops, hops, hfinal⟩ := ih hcarry' h hstaged' hrest'
      refine ⟨item.prepared.modifications ++ ops, by simp [hops], ?_⟩
      intro k
      rw [foldl_append]
      exact hfinal k

/-- The state after the commands of a run, as one batch. -/
def afterCommands (σ : MvccStorage) (commands : List PreparedApplyCommand) : MvccStorage :=
  match commands.getLast? with
  | none => σ
  | some last =>
    σ.afterOps nowMs (commands.flatMap PreparedApplyCommand.modifications) last.raftIndex

lemma afterCommands_cons (command : PreparedApplyCommand) (rest : List PreparedApplyCommand) :
    (σ.afterOps nowMs command.modifications command.raftIndex).afterCommands nowMs rest =
      σ.afterCommands nowMs (command :: rest) := by
  unfold afterCommands
  cases hrest : rest.getLast? with
  | none =>
    have hnil : rest = [] := getLast?_eq_none_iff.1 hrest
    simp [hnil]
  | some last =>
    have hlast : (command :: rest).getLast? = some last := by
      rw [getLast?_cons, hrest]
      rfl
    simp only [hlast, flatMap_cons]
    exact afterOps_afterOps _ _ _ _ _ _

variable {commands : List PreparedApplyCommand}

section

variable (hcarry : ∀ command ∈ commands, command.Carries)

include hcarry

/-- A staged run succeeds command by command, and its staged revisions are the ones it leaves. -/
lemma applyEach_of_stageCommands (hok : env.engineOk = true)
    (h : σ.stageCommands staged ρ.appliedRaftIndex commands = some staged')
    (hstaged : ∀ k, σ.currentOrStagedRevision staged k = ρ.currentRevision k) :
    applyEach env ρ commands = some (ρ.afterCommands env.nowMs commands) ∧
      ∀ k, σ.currentOrStagedRevision staged' k =
        (ρ.afterCommands env.nowMs commands).currentRevision k := by
  induction commands generalizing staged ρ with
  | nil =>
    cases h
    exact ⟨rfl, hstaged⟩
  | cons command rest ih =>
    have hcarry' : ∀ command ∈ rest, command.Carries := fun x hx => hcarry x (mem_cons_of_mem _ hx)
    have hown := hcarry command mem_cons_self
    unfold stageCommands at h
    split_ifs at h with hindex
    simp only [not_or] at hindex
    have hfresh : ρ.appliedRaftIndex < command.raftIndex := UInt64.not_le.1 hindex.2
    -- the command alone, and what it does to the revisions
    obtain ⟨staged₁, happly, hrest, hstaged₁⟩ : ∃ staged₁, command.apply ρ env =
          (.ok, ρ.afterOps env.nowMs command.modifications command.raftIndex) ∧
        σ.stageCommands staged₁ command.raftIndex rest = some staged' ∧
        ∀ k, σ.currentOrStagedRevision staged₁ k =
          (ρ.afterOps env.nowMs command.modifications command.raftIndex).currentRevision k := by
      cases command with
      | single raftIndex key prepared =>
        obtain ⟨mods, hmods⟩ := hown
        dsimp only at h
        split_ifs at h with hchecks
        simp only [not_or] at hchecks
        obtain ⟨hversion, hstatus, hne, hnew, hrevision⟩ := hchecks
        rw [hstaged, not_not] at hrevision
        refine ⟨_, applyPrepared_passed hmods hindex.1 hfresh ?_ hrevision hok, h, ?_⟩
        · simp only [not_or]
          exact ⟨hversion, hstatus, hne, hnew⟩
        · intro k
          rw [currentRevision_afterOps, currentOrStagedRevision_insert, hstaged]
          refine Eq.trans ?_ (currentRevision_foldl hmods env.nowMs k).symm
          by_cases hk : key = k <;> simp [hk, hne]
      | batch raftIndex prepared =>
        dsimp only at h
        split_ifs at h with hchecks
        cases hitems : σ.stageItems staged [] prepared.items with
        | none => simp [hitems] at h
        | some staged₁ =>
          rw [hitems] at h
          obtain ⟨ops, hops, hfinal⟩ := batchModifications_of_stageItems env.nowMs hown hitems
            hstaged fun k _ => rfl
          obtain ⟨hflat, -, -⟩ := batchModifications_eq_some hops
          refine ⟨staged₁, ?_, h, ?_⟩
          · rw [hflat] at hops
            exact applyPreparedBatch_eq hown hindex.1 hfresh hchecks hops hok
          · intro k
            rw [hfinal, hflat]
            rfl
    have hnext := ih hcarry' hrest hstaged₁
    rw [afterCommands_cons] at hnext
    refine ⟨?_, hnext.2⟩
    rw [applyEach, happly]
    exact hnext.1

/-- A run is refused, or it is its commands one after another. -/
lemma applyPreparedCommandsAtomically_cases :
    σ.applyPreparedCommandsAtomically commands env = (false, σ) ∨
      σ.applyPreparedCommandsAtomically commands env = (true, σ.afterCommands env.nowMs commands) ∧
        applyEach env σ commands = some (σ.afterCommands env.nowMs commands) := by
  unfold applyPreparedCommandsAtomically
  cases hlast : commands.getLast? with
  | none => exact .inl rfl
  | some last =>
    cases hstaged : σ.stageCommands ∅ σ.appliedRaftIndex commands with
    | none => exact .inl rfl
    | some staged =>
      dsimp only
      by_cases hready : commands.flatMap modifications = [] ∨ !env.engineOk
      · exact .inl (if_pos hready)
      have hok : env.engineOk = true := by
        by_contra hno
        exact hready (.inr (by simpa using hno))
      obtain ⟨heach, hfinal⟩ := applyEach_of_stageCommands hcarry hok hstaged
        fun k => by simp [currentOrStagedRevision]
      have hafter := foldl_commitBatch env.nowMs σ (commands.flatMap modifications)
        (raftIndex_ne_zero_of_stageCommands hstaged last (mem_of_getLast? hlast))
      have hcommands : σ.afterCommands env.nowMs commands = σ.afterOps env.nowMs
          (commands.flatMap modifications) last.raftIndex := by
        simp only [afterCommands, hlast]
      rw [← hcommands] at hafter
      rw [if_neg hready, if_neg, hafter]
      · exact .inr ⟨rfl, heach⟩
      · -- the last check compares with the revisions that were staged
        intro hmismatch
        obtain ⟨key, revision, hget, hne⟩ := (OrdMap.any_toList _ _).1 hmismatch
        have hrevision : σ.currentOrStagedRevision staged key = revision := by
          simp [currentOrStagedRevision, ExtTreeMap.getD_eq_getD_getElem?, hget]
        rw [← hrevision, hfinal, ← hafter] at hne
        simp [currentRevision] at hne

/-- An applied run is its commands one after another. -/
theorem applyEach_of_applyPreparedCommandsAtomically
    (h : σ.applyPreparedCommandsAtomically commands env = (true, τ)) :
    applyEach env σ commands = some τ ∧ τ = σ.afterCommands env.nowMs commands := by
  rcases applyPreparedCommandsAtomically_cases hcarry with heq | ⟨heq, heach⟩
  · cases heq.symm.trans h
  · cases heq.symm.trans h
    exact ⟨heach, rfl⟩

end

lemma raftIndex_isChain_of_applied (h : (σ.applyPreparedCommandsAtomically commands env).1 = true) :
    (commands.map raftIndex).IsChain (· < ·) := by
  unfold applyPreparedCommandsAtomically at h
  cases hlast : commands.getLast? with
  | none => simp [hlast] at h
  | some last =>
    cases hstaged : σ.stageCommands ∅ σ.appliedRaftIndex commands with
    | none => simp [hlast, hstaged] at h
    | some staged => exact (raftIndex_isChain_of_stageCommands hstaged).tail

/-- A refused run leaves the storage as it was. -/
theorem applyPreparedCommandsAtomically_refused (hcarry : ∀ command ∈ commands, command.Carries)
    (h : σ.applyPreparedCommandsAtomically commands env = (false, τ)) : τ = σ := by
  rcases applyPreparedCommandsAtomically_cases hcarry with heq | ⟨heq, -⟩
  · cases heq.symm.trans h
    rfl
  · cases heq.symm.trans h

end

end MvccStorage

end StrataKV.Mvcc
