import StrataKV.Mvcc.TxnRecord

/-!
# One outcome per key and transaction

A key holds at most one record of a transaction, and none while it holds the transaction's lock.
What has to be excluded is a lock that is granted after the commit. A prewrite is refused because
the commit is newer than `startTs`; a pessimistic lock is refused because the commit is newer than
its `forUpdateTs`, which is where the coordinator's choice of `commitTs` comes in.
-/

namespace StrataKV.Mvcc

open MvccStorage List

open Std (ExtTreeMap)

/-- The single-key commands of all steps of a run. -/
def runParts (steps : List Step) : List KeyCommand := steps.flatMap fun step => step.command.parts

/-- Every commit timestamp of the transaction exceeds the `forUpdateTs` of all its lock requests. -/
def CommitsAfterLocks (startTs : Ts) (parts : List KeyCommand) : Prop :=
  ∀ key commitTs, KeyCommand.commit key startTs commitTs ∈ parts →
    ∀ key' primaryKey forUpdateTs expireAt,
      KeyCommand.pessimisticLock key' primaryKey startTs forUpdateTs expireAt ∈ parts →
      forUpdateTs < commitTs

/-- The records of transaction `startTs` on a key, where `parts` are the commands of the run. -/
structure OutcomeInv (startTs : Ts) (parts : List KeyCommand) (v : KeyView) : Prop where
  unique : ∀ (c c' : Ts) (w w' : MvccWrite), v.versions[c]? = some w → v.versions[c']? = some w' →
    w.startTs = startTs → w'.startTs = startTs → c = c'
  lock_unrecorded : ∀ lock, v.lock = some lock → lock.startTs = startTs →
    ∀ (c : Ts) (w : MvccWrite), v.versions[c]? = some w → w.startTs ≠ startTs
  committed : ∀ (c : Ts) (w : MvccWrite), v.versions[c]? = some w → w.startTs = startTs →
    w.type ≠ .rollback → startTs < c ∧ ∃ key, KeyCommand.commit key startTs c ∈ parts

namespace OutcomeInv

variable {startTs : Ts} {parts : List KeyCommand} {v v' : KeyView}

lemma of_empty (key : Bytes) : OutcomeInv startTs parts (empty.view key) := by
  constructor <;> simp

section

variable (h : OutcomeInv startTs parts v)

include h

/-- A new pessimistic lock finds no record of its transaction. -/
lemma unrecorded_of_current (hafter : CommitsAfterLocks startTs parts)
    {key primaryKey : Bytes} {forUpdateTs : Ts} {expireAt : UInt64}
    (hpart : KeyCommand.pessimisticLock key primaryKey startTs forUpdateTs expireAt ∈ parts)
    (hunmarked : ∀ (c : Ts) (w : MvccWrite), v.versions[c]? = some w → w.startTs = startTs →
      w.type ≠ .rollback)
    (hcurrent : ∀ (c : Ts) (w : MvccWrite), v.versions[c]? = some w → w.type ≠ .rollback →
      c ≤ requestedTs startTs forUpdateTs) (c : Ts) (w : MvccWrite) (hw : v.versions[c]? = some w) :
    w.startTs ≠ startTs := by
  intro hstart
  have htype := hunmarked c w hw hstart
  obtain ⟨hlt, key', hcommit⟩ := h.committed c w hw hstart htype
  have hlt' := hafter key' c hcommit key primaryKey forUpdateTs expireAt hpart
  have hle := hcurrent c w hw htype
  unfold requestedTs at hle
  grind

lemma step (hafter : CommitsAfterLocks startTs parts)
    {c : KeyCommand} (hpart : c ∈ parts) (hstep : KeyStep c v v') : OutcomeInv startTs parts v' := by
  cases hstep with
  | prewrite lock _ below unmarked startTs_eq =>
    refine ⟨h.unique, ?_, h.committed⟩
    rintro _ ⟨⟩ hlock
    obtain rfl := startTs_eq.symm.trans hlock
    -- a prewrite that is not refused finds no record of its transaction
    intro c w hw hstart
    have hlt := (h.committed c w hw hstart (unmarked c w hw hstart)).1
    have hlt' := below c w hw
    grind
  | pessimisticLock lock old _ unmarked current startTs_eq =>
    refine ⟨h.unique, ?_, h.committed⟩
    rintro _ ⟨⟩ hlock
    obtain rfl := startTs_eq.symm.trans hlock
    cases hold : v.lock with
    | none => exact h.unrecorded_of_current hafter hpart (unmarked hold) (current hold)
    | some l => exact h.lock_unrecorded l hold (old l hold).1
  | prewriteLock old ttlMs lock_eq =>
    refine ⟨h.unique, ?_, h.committed⟩
    rintro _ ⟨⟩ hlock
    exact h.lock_unrecorded old lock_eq hlock
  | @commit key s commitTs _ lock lock_eq startTs_eq startTs_lt =>
    -- the lock says that the record is the transaction's first
    have hfirst {c : Ts} {w : MvccWrite} (hw : v.versions[c]? = some w) (hs : s = startTs) :
        w.startTs ≠ startTs :=
      h.lock_unrecorded lock lock_eq (startTs_eq.trans hs) c w hw
    refine ⟨?_, by simp, ?_⟩
    · intro c c' w w' hw hw' hstart hstart'
      rw [OrdMap.getElem?_insert] at hw hw'
      split at hw <;> split at hw'
      · grind
      · cases hw
        exact absurd hstart' (hfirst hw' hstart)
      · cases hw'
        exact absurd hstart (hfirst hw hstart')
      · exact h.unique c c' w w' hw hw' hstart hstart'
    · intro c w hw hstart htype
      rcases OrdMap.insert_cases hw with ⟨hc, rfl⟩ | hw
      · subst hc hstart
        exact ⟨startTs_lt, key, hpart⟩
      · exact h.committed c w hw hstart htype
  | @rollback key s _ unrecorded =>
    refine ⟨?_, ?_, ?_⟩
    · intro c c' w w' hw hw' hstart hstart'
      rw [OrdMap.getElem?_insert] at hw hw'
      split at hw <;> split at hw'
      · grind
      · cases hw
        exact absurd (hstart'.trans hstart.symm) (unrecorded c' w' hw')
      · cases hw'
        exact absurd (hstart.trans hstart'.symm) (unrecorded c w hw)
      · exact h.unique c c' w w' hw hw' hstart hstart'
    · intro lock hlock hstart c w hw
      obtain ⟨hlock, hne⟩ := Option.filter_eq_some_iff.1 hlock
      rcases OrdMap.insert_cases hw with ⟨-, rfl⟩ | hw
      · intro heq
        rw [hstart, bne_iff_ne] at hne
        exact hne heq.symm
      · exact h.lock_unrecorded lock hlock hstart c w hw
    · intro c w hw hstart htype
      rcases OrdMap.insert_cases hw with ⟨-, rfl⟩ | hw
      · exact absurd rfl htype
      · exact h.committed c w hw hstart htype

lemma collect {safePointTs : Ts}
    (hstep : CollectStep safePointTs v v') : OutcomeInv startTs parts v' := by
  refine ⟨?_, ?_, ?_⟩
  · intro c c' w w' hw hw'
    exact h.unique c c' w w' (hstep.of_get hw).1 (hstep.of_get hw').1
  · intro lock hlock hstart c w hw
    rw [hstep.lock_eq] at hlock
    exact h.lock_unrecorded lock hlock hstart c w (hstep.of_get hw).1
  · intro c w hw
    exact h.committed c w (hstep.of_get hw).1

end

end OutcomeInv

/-! ## Runs -/

lemma outcomeInv_run {steps : List Step} {startTs : Ts}
    (hafter : CommitsAfterLocks startTs (runParts steps)) (key : Bytes) :
    OutcomeInv startTs (runParts steps) ((empty.run steps).view key) := by
  have hreach : storageSystem.Reachable (fun _ step => step ∈ steps) (empty.run steps) :=
    TransitionSystem.Guarded.reachable (.of_forall fun _ _ h => h)
  refine hreach.invariant
    (I := fun σ => ∀ key, OutcomeInv startTs (runParts steps) (σ.view key)) ?_ ?_ key
  · rintro _ rfl
    exact OutcomeInv.of_empty
  · rintro σ step _ hσ hmem rfl key
    rcases σ.exec_view step key with hid | ⟨c, hpart, -, hkey⟩ | ⟨safePointTs, -, hcollect⟩
    · exact hid ▸ hσ key
    · exact (hσ key).step hafter (mem_flatMap.2 ⟨step, hmem, hpart⟩) hkey
    · exact (hσ key).collect hcollect

/-- If a transaction's commit timestamps exceed the `forUpdateTs` of its lock requests, every key
holds at most one record of it, and none together with its lock. -/
theorem one_outcome {steps : List Step} {startTs : Ts}
    (hafter : CommitsAfterLocks startTs (runParts steps)) (key : Bytes) :
    (∀ (c c' : Ts) (w w' : MvccWrite), ((MvccStorage.empty.run steps).versionsOf key)[c]? = some w →
      ((MvccStorage.empty.run steps).versionsOf key)[c']? = some w' →
      w.startTs = startTs → w'.startTs = startTs → c = c' ∧ w = w') ∧
    ∀ lock, (MvccStorage.empty.run steps).locks[key]? = some lock → lock.startTs = startTs →
      ∀ (c : Ts) (w : MvccWrite),
        ((MvccStorage.empty.run steps).versionsOf key)[c]? = some w → w.startTs ≠ startTs := by
  have hinv := outcomeInv_run hafter key
  refine ⟨?_, hinv.lock_unrecorded⟩
  intro c c' w w' hw hw' hstart hstart'
  obtain rfl := hinv.unique c c' w w' hw hw' hstart hstart'
  exact ⟨rfl, Option.some.inj (hw.symm.trans hw')⟩

/-- A transaction that locks, prewrites and commits its key, and whose commands arrive again. -/
def repeatedRun : List Step :=
  [{ command := .pessimisticLock [1] ⟨[1], one_lt_maxSize⟩ 5 100 7 0 0 },
    { command := .prewrite [1] [7] ⟨[1], one_lt_maxSize⟩ 5 100 false 7 0 0 },
    { command := .commit [1] 5 10 },
    { command := .pessimisticLock [1] ⟨[1], one_lt_maxSize⟩ 5 100 7 0 0 },
    { command := .commit [1] 5 20 }, { command := .rollback [1] 5 }]

theorem one_outcome_repeatedRun : CommitsAfterLocks 5 (runParts repeatedRun) ∧
      ((MvccStorage.empty.run repeatedRun).versionsOf [1])[(10 : Ts)]? = some ⟨5, 10, .put⟩ ∧
      ∀ (c : Ts) (w : MvccWrite),
        ((MvccStorage.empty.run repeatedRun).versionsOf [1])[c]? = some w → w.startTs = 5 →
        c = 10 := by
  have hafter : CommitsAfterLocks 5 (runParts repeatedRun) := by
    simp only [CommitsAfterLocks, runParts, repeatedRun, Command.parts, flatMap_cons,
      flatMap_nil, cons_append, nil_append, mem_cons, not_mem_nil, or_false,
      KeyCommand.commit.injEq, KeyCommand.pessimisticLock.injEq, reduceCtorEq, false_or]
    grind
  have hcommit : ((empty.run repeatedRun).versionsOf [1])[(10 : Ts)]? =
      some ⟨5, 10, .put⟩ := by decide
  refine ⟨hafter, hcommit, ?_⟩
  intro c w hw hstart
  exact ((one_outcome hafter [1]).1 c 10 w _ hw hcommit hstart rfl).1

end StrataKV.Mvcc
