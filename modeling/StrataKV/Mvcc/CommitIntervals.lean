import StrataKV.Mvcc.CommittedData

/-!
# First committer wins

A committed transaction occupies the interval from its `startTs` to its `commitTs` on every key it
wrote. `IntervalInv` is the invariant of a key that keeps the intervals of different transactions
apart: whoever holds the key's lock has seen every commit of the key, so that a commit only has to
look at the records between its own two timestamps.

The intervals of one transaction may overlap. A transaction that already committed can lock the key
again with a newer `forUpdateTs`, and a second commit at another timestamp then passes every check.
-/

namespace StrataKV.Mvcc

open MvccStorage TransitionSystem

open Std (ExtTreeMap)

/-- The timestamp lies in the closed interval of a record committed at `commitTs`. -/
def MvccWrite.Covers (write : MvccWrite) (commitTs ts : Ts) : Prop :=
  write.startTs ≤ ts ∧ ts ≤ commitTs

instance (write : MvccWrite) (commitTs ts : Ts) : Decidable (write.Covers commitTs ts) :=
  inferInstanceAs (Decidable (_ ∧ _))

/-- The lock's transaction has seen every commit of the key, and of two transactions that both
committed on the key one had committed before the other started. -/
structure IntervalInv (v : KeyView) : Prop where
  lock_current : ∀ lock, v.lock = some lock → ∀ (c : Ts) (w : MvccWrite), v.versions[c]? = some w →
    w.type ≠ .rollback → c ≤ lock.startTs ∨ c ≤ lock.forUpdateTs
  apart : ∀ (c c' : Ts) (w w' : MvccWrite), v.versions[c]? = some w → v.versions[c']? = some w' →
    w.type ≠ .rollback → w'.type ≠ .rollback → w.startTs ≠ w'.startTs →
    c < w'.startTs ∨ c' < w.startTs

namespace IntervalInv

variable {v v' : KeyView}

lemma of_empty (key : Bytes) : IntervalInv (empty.view key) := by
  constructor <;> simp

/-- The other transactions of the key committed before the transaction that commits now started. -/
lemma lt_startTs (h : IntervalInv v) {lock : MvccLock} (hlock : v.lock = some lock)
    {startTs commitTs : Ts} (hstart : lock.startTs = startTs) (hlt : startTs < commitTs)
    (hfor : lock.forUpdateTs < commitTs)
    (hbetween : ∀ (c : Ts) (w : MvccWrite), v.versions[c]? = some w → startTs ≤ c → c ≤ commitTs →
      w.startTs = startTs ∨ w.type = .rollback)
    {c : Ts} {w : MvccWrite} (hw : v.versions[c]? = some w) (htype : w.type ≠ .rollback)
    (hne : w.startTs ≠ startTs) : c < startTs := by
  have hseen := h.lock_current lock hlock c w hw htype
  by_contra hge
  have hle : c ≤ commitTs := by grind
  rcases hbetween c w hw (by grind) hle with heq | hmark
  · exact hne heq
  · exact htype hmark

lemma step (h : IntervalInv v) {c : KeyCommand} (hstep : KeyStep c v v') : IntervalInv v' := by
  cases hstep with
  | prewrite lock _ below _ startTs_eq =>
    refine ⟨?_, h.apart⟩
    rintro _ ⟨⟩ c w hw -
    have := below c w hw
    rw [← startTs_eq] at this
    exact .inl (UInt64.le_of_lt this)
  | @pessimisticLock key primaryKey startTs forUpdateTs _ _ lock old fresh _ current startTs_eq =>
    refine ⟨?_, h.apart⟩
    rintro _ ⟨⟩ c w hw htype
    cases hold : v.lock with
    | none =>
      rw [(fresh hold).2.2.1]
      exact .inr (current hold c w hw htype)
    | some l =>
      -- a renewed lock only raises `forUpdateTs`
      have hseen := h.lock_current l hold c w hw htype
      have hmax (a b : Ts) : max a b = if a ≤ b then b else a := rfl
      obtain ⟨-, -, -, rfl⟩ := old l hold
      simp only [MvccLock.normalize, hmax]
      clear fresh current startTs_eq
      grind
  | prewriteLock old ttlMs lock_eq =>
    refine ⟨?_, h.apart⟩
    rintro _ ⟨⟩ c w hw htype
    have hseen := h.lock_current old lock_eq c w hw htype
    simp only [MvccLock.normalize]
    grind
  | @commit key startTs commitTs _ lock lock_eq startTs_eq startTs_lt forUpdateTs_lt _ between =>
    have hbefore {c : Ts} {w : MvccWrite} := @h.lt_startTs _ lock lock_eq _ _ startTs_eq startTs_lt
      forUpdateTs_lt between c w
    refine ⟨by simp, ?_⟩
    intro c c' w w' hw hw' htype htype' hne
    rw [OrdMap.getElem?_insert] at hw hw'
    split at hw <;> split at hw'
    · cases hw
      cases hw'
      exact absurd rfl hne
    · cases hw
      exact .inr (hbefore hw' htype' hne.symm)
    · cases hw'
      exact .inl (hbefore hw htype hne)
    · exact h.apart c c' w w' hw hw' htype htype' hne
  | @rollback key startTs _ unrecorded =>
    refine ⟨?_, ?_⟩
    · intro lock hlock c w hw htype
      obtain ⟨hlock, -⟩ := Option.filter_eq_some_iff.1 hlock
      exact h.lock_current lock hlock c w (of_insert_marker hw htype) htype
    · intro c c' w w' hw hw' htype htype'
      exact h.apart c c' w w' (of_insert_marker hw htype) (of_insert_marker hw' htype') htype htype'

lemma collect (h : IntervalInv v) {safePointTs : Ts} (hstep : CollectStep safePointTs v v') :
    IntervalInv v' := by
  refine ⟨?_, ?_⟩
  · intro lock hlock c w hw
    rw [hstep.lock_eq] at hlock
    exact h.lock_current lock hlock c w (hstep.of_get hw).1
  · intro c c' w w' hw hw'
    exact h.apart c c' w w' (hstep.of_get hw).1 (hstep.of_get hw').1

end IntervalInv

/-! ## Runs -/

lemma intervalInv_of_reachable {G : MvccStorage → Step → Prop} {σ : MvccStorage}
    (h : storageSystem.Reachable G σ) (key : Bytes) : IntervalInv (σ.view key) :=
  view_of_reachable IntervalInv.of_empty (fun hv => hv.step) (fun hv => hv.collect) h key

/-- In every run, no timestamp lies in the intervals of two Put or Delete records that different
transactions committed on one key. -/
theorem commit_intervals_disjoint {σ : MvccStorage}
    (h : storageSystem.Reachable TransitionSystem.anyStep σ) (key : Bytes) {c c' : Ts}
    {w w' : MvccWrite} (hw : (σ.versionsOf key)[c]? = some w)
    (hw' : (σ.versionsOf key)[c']? = some w') (hvalue : w.IsValue) (hvalue' : w'.IsValue)
    (hne : w.startTs ≠ w'.startTs) (ts : Ts) : ¬(w.Covers c ts ∧ w'.Covers c' ts) := by
  have htype {w : MvccWrite} (hvalue : w.IsValue) : w.type ≠ .rollback := by
    rcases hvalue with hput | hdelete
    · simp [hput]
    · simp [hdelete]
  have hapart := (intervalInv_of_reachable h key).apart c c' w w' hw hw' (htype hvalue)
    (htype hvalue') hne
  unfold MvccWrite.Covers
  grind

/-- Two transactions that write one key, one after the other. -/
def overwritingRun : List Step :=
  [{ command := .prewrite [1] [7] ⟨[1], one_lt_maxSize⟩ 5 100 false 0 0 0 },
    { command := .commit [1] 5 10 },
    { command := .pessimisticLock [1] ⟨[1], one_lt_maxSize⟩ 11 100 12 0 0 },
    { command := .prewrite [1] [8] ⟨[1], one_lt_maxSize⟩ 11 100 false 12 0 0 },
    { command := .commit [1] 11 20 }]

theorem commit_intervals_disjoint_overwritingRun :
    storageSystem.Reachable TransitionSystem.anyStep (MvccStorage.empty.run overwritingRun) ∧
      ∀ ts, ¬((⟨5, 10, .put⟩ : MvccWrite).Covers 10 ts ∧
        (⟨11, 20, .put⟩ : MvccWrite).Covers 20 ts) := by
  have hreach : storageSystem.Reachable anyStep (empty.run overwritingRun) :=
    Guarded.reachable (by decide)
  have hfirst : ((empty.run overwritingRun).versionsOf [1])[(10 : Ts)]? =
      some ⟨5, 10, .put⟩ := by decide
  have hsecond : ((empty.run overwritingRun).versionsOf [1])[(20 : Ts)]? =
      some ⟨11, 20, .put⟩ := by decide
  exact ⟨hreach, commit_intervals_disjoint hreach [1] hfirst hsecond (by decide) (by decide)
    (by decide)⟩

/-- A transaction that locks its key again after its commit and commits once more. -/
def relockRun : List Step :=
  [{ command := .prewrite [1] [7] ⟨[1], one_lt_maxSize⟩ 5 100 false 0 0 0 },
    { command := .commit [1] 5 10 },
    { command := .pessimisticLock [1] ⟨[1], one_lt_maxSize⟩ 5 100 12 0 0 },
    { command := .commit [1] 5 20 }]

/-- With timestamps that are all different, two records of one transaction can overlap. -/
theorem commit_intervals_overlap_relockRun :
    ¬∀ (isStart : Ts → Prop) (σ : MvccStorage), storageSystem.Reachable
        (fun _ step => ∀ c ∈ step.command.parts, c.TimestampsApart isStart) σ →
      ∀ (key : Bytes) (c c' : Ts) (w w' : MvccWrite), (σ.versionsOf key)[c]? = some w →
      (σ.versionsOf key)[c']? = some w' → w.IsValue → w'.IsValue → c ≠ c' →
      ∀ ts, ¬(w.Covers c ts ∧ w'.Covers c' ts) := by
  intro h
  have hreach : storageSystem.Reachable
      (fun _ step => ∀ c ∈ step.command.parts, c.TimestampsApart (· = 5))
      (empty.run relockRun) :=
    Guarded.reachable (by decide)
  have hfirst : ((empty.run relockRun).versionsOf [1])[(10 : Ts)]? = some ⟨5, 10, .put⟩ := by decide
  have hsecond : ((empty.run relockRun).versionsOf [1])[(20 : Ts)]? =
      some ⟨5, 20, .put⟩ := by decide
  exact h _ _ hreach [1] 10 20 _ _ hfirst hsecond (by decide) (by decide) (by decide) 7 (by decide)

end StrataKV.Mvcc
