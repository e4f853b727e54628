import StrataKV.Mvcc.HeldLock

/-!
# Locking reads

A pessimistic lock request returns the newest committed value of its key, and its lock keeps that
value the newest: as long as it is held nobody else commits, and a retry reads the same again. The
storage itself leaves two ways open to take the value away under the lock: a rollback marker that
lands on the commit record, because the rolled back transaction started at that very timestamp, and
a collection that deletes the data record together with another Put of the same transaction. Both
are closed by the timestamp oracle, which gives no timestamp out twice, and by the coordinator,
which commits a transaction at one timestamp.
-/

namespace StrataKV.Mvcc

open MvccStorage TransitionSystem KeyView OrdMap

open Std (ExtTreeMap)

/-! ## The newest value of a key -/

namespace KeyView

variable {v v' : KeyView} {c ts : Ts} {w : MvccWrite}

/-- The newest committed Put or Delete. -/
def newest (v : KeyView) : Option (Ts × MvccWrite) :=
  v.versions.toList.reverse.find? fun item => (item.2.IsValue : Bool)

/-- The status, the value and the commit timestamp of the newest committed Put or Delete. -/
def readNewest (v : KeyView) : TxnStatus × Option Bytes × Ts :=
  match v.newest with
  | none => (.notFound, none, 0)
  | some (commitTs, write) =>
    if write.type = .delete then (.notFound, none, commitTs)
    else match v.data write.startTs with
      | some value => (.ok, some value, commitTs)
      | none => (.storageError, none, commitTs)

/-- The newest value of a key. -/
lemma newest_eq_some : v.newest = some (c, w) ↔ v.versions[c]? = some w ∧ w.IsValue ∧
      ∀ (c' : Ts) (w' : MvccWrite), v.versions[c']? = some w' → w'.IsValue → c' ≤ c := by
  rw [newest, find?_reverse_toList_eq_some]
  simp only [decide_eq_true_eq]

lemma newest_eq_none : v.newest = none ↔
    ∀ (c : Ts) (w : MvccWrite), v.versions[c]? = some w → ¬w.IsValue := by
  rw [newest, find?_reverse_toList_eq_none]
  simp only [decide_eq_false_iff_not]

/-- The newest value stays the newest if it stays and no value is new. -/
lemma newest_eq_of_kept (hkept : ∀ (c : Ts) (w : MvccWrite), v.newest = some (c, w) →
      v'.versions[c]? = some w)
    (hold : ∀ (c : Ts) (w : MvccWrite), v'.versions[c]? = some w → w.IsValue →
      v.versions[c]? = some w) : v'.newest = v.newest := by
  rcases hnewest : v.newest with _ | ⟨c, w⟩
  · exact newest_eq_none.2 fun c w hget hvalue =>
      newest_eq_none.1 hnewest c w (hold c w hget hvalue) hvalue
  · obtain ⟨-, hvalue, hmax⟩ := newest_eq_some.1 hnewest
    exact newest_eq_some.2 ⟨hkept c w hnewest, hvalue, fun c' w' hget' hvalue' =>
      hmax c' w' (hold c' w' hget' hvalue') hvalue'⟩

/-- The read depends on the newest value and its data only. -/
lemma readNewest_congr (hnewest : v'.newest = v.newest)
    (hdata : ∀ (c : Ts) (w : MvccWrite), v.newest = some (c, w) → w.type = .put →
      v'.data w.startTs = v.data w.startTs) : v'.readNewest = v.readNewest := by
  unfold readNewest
  rw [hnewest]
  rcases hfound : v.newest with _ | ⟨c, w⟩
  · rfl
  by_cases hdelete : w.type = .delete
  · simp only [hdelete, if_true]
  · have hput := (newest_eq_some.1 hfound).2.1.resolve_right hdelete
    simp only [hdelete, if_false, hdata c w hfound hput]

/-- A read above all values of the key reads the newest one. -/
lemma visible_eq_newest (h : ∀ (c : Ts) (w : MvccWrite), v.versions[c]? = some w → w.IsValue →
    c ≤ ts) : v.versions.visible ts = v.newest := by
  refine Option.ext fun ⟨c, w⟩ => ?_
  rw [Versions.visible_eq_some, newest_eq_some]
  constructor
  · rintro ⟨hget, -, hvalue, hmax⟩
    exact ⟨hget, hvalue, fun c' w' hget' hvalue' => hmax c' w' hget' hvalue' (h c' w' hget' hvalue')⟩
  · rintro ⟨hget, hvalue, hmax⟩
    exact ⟨hget, h c w hget hvalue, hvalue, fun c' w' hget' hvalue' _ => hmax c' w' hget' hvalue'⟩

end KeyView

lemma MvccWrite.IsValue.type_ne {w : MvccWrite} (h : w.IsValue) : w.type ≠ .rollback := by
  rcases h with hput | hdelete
  · simp [hput]
  · simp [hdelete]

/-- Above every commit, a read gives the newest value. -/
lemma MvccStorage.readCommitted_eq_readNewest {σ : MvccStorage} {key : Bytes} {ts : Ts}
    (h : ∀ (c : Ts) (w : MvccWrite), (σ.versionsOf key)[c]? = some w → w.type ≠ .rollback →
      c ≤ ts) : σ.readCommitted key ts = (σ.view key).readNewest := by
  have hvisible : (σ.versionsOf key).visible ts = (σ.view key).newest :=
    visible_eq_newest (v := σ.view key) fun c w hget hvalue => h c w hget hvalue.type_ne
  unfold readCommitted readNewest
  rw [hvisible]
  rfl

/-! ## A pessimistic lock has seen every commit -/

/-- No commit record is newer than the lock's `forUpdateTs`. -/
def KeyView.Current (v : KeyView) (lock : MvccLock) : Prop :=
  ∀ (c : Ts) (w : MvccWrite), v.versions[c]? = some w → w.type ≠ .rollback → c ≤ lock.forUpdateTs

namespace KeyView.Current

variable {v v' : KeyView} {lock lock' : MvccLock}

lemma mono (h : v.Current lock) (hle : lock.forUpdateTs ≤ lock'.forUpdateTs)
    (hold : ∀ (c : Ts) (w : MvccWrite), v'.versions[c]? = some w → w.type ≠ .rollback →
      v.versions[c]? = some w) : v'.Current lock' :=
  fun c w hget htype => UInt64.le_trans (h c w (hold c w hget htype) htype) hle

/-- A lock stays current while it is held: no other transaction commits under it. -/
lemma held {marks : Ts → Prop} (h : v.Current lock) (hstep : HeldStep marks lock v v' lock') :
    v'.Current lock' := by
  cases hstep with
  | own _ _ _ forUpdateTs_le _ versions_eq =>
    exact h.mono forUpdateTs_le fun c w hget _ => versions_eq ▸ hget
  | mark startTs _ _ versions_eq =>
    refine h.mono (UInt64.le_refl _) fun c w hget htype => ?_
    rcases insert_cases (versions_eq ▸ hget) with ⟨-, rfl⟩ | hget
    · exact absurd rfl htype
    · exact hget

lemma collect {safePointTs : Ts} (h : v.Current lock) (hstep : CollectStep safePointTs v v') :
    v'.Current lock :=
  h.mono (UInt64.le_refl _) fun _ _ hget _ => (hstep.of_get hget).1

end KeyView.Current

/-- Every pessimistic lock of the key has seen its commits. -/
def KeyView.PessimisticCurrent (v : KeyView) : Prop :=
  ∀ lock, v.lock = some lock → lock.isPessimistic = true → v.Current lock

lemma KeyView.PessimisticCurrent.step {v v' : KeyView} {c : KeyCommand}
    (h : v.PessimisticCurrent) (hstep : KeyStep c v v') : v'.PessimisticCurrent := by
  intro lock' hlock' hpess
  cases hold : v.lock with
  | none =>
    -- only a fresh pessimistic lock appears on a free key
    cases hstep with
    | prewrite _ _ _ _ _ _ _ isPessimistic_eq =>
      cases hlock'
      simp [isPessimistic_eq] at hpess
    | pessimisticLock _ _ fresh _ current =>
      cases hlock'
      intro c w hget htype
      rw [(fresh hold).2.2.1]
      exact current hold c w hget htype
    | prewriteLock _ _ lock_eq => simp [hold] at lock_eq
    | commit => cases hlock'
    | rollback => simp [hold] at hlock'
  | some lock =>
    by_cases hstart : lock'.startTs = lock.startTs
    · have hheld := hstep.held hold hlock' hstart
      have hpess' : lock.isPessimistic = true := by
        cases hheld with
        | own _ isPessimistic => exact isPessimistic
        | mark => exact hpess
      exact (h lock hold hpess').held hheld
    · -- no command replaces the lock of another transaction
      cases hstep with
      | prewrite _ old _ _ startTs_eq | pessimisticLock _ old _ _ _ startTs_eq =>
        cases hlock'
        exact absurd (startTs_eq.trans (old lock hold).1.symm) hstart
      | prewriteLock old _ lock_eq =>
        cases hlock'
        cases hold.symm.trans lock_eq
        exact absurd rfl hstart
      | commit => cases hlock'
      | rollback =>
        obtain ⟨hlock', -⟩ := Option.filter_eq_some_iff.1 hlock'
        cases hold.symm.trans hlock'
        exact absurd rfl hstart

lemma pessimisticCurrent_of_reachable {G : MvccStorage → Step → Prop} {σ : MvccStorage}
    (h : storageSystem.Reachable G σ) (key : Bytes) : (σ.view key).PessimisticCurrent := by
  refine view_of_reachable ?_ PessimisticCurrent.step ?_ h key
  · intro key lock hlock
    simp at hlock
  · intro safePointTs v v' hv hcollect lock hlock hpess
    exact (hv lock (hcollect.lock_eq ▸ hlock) hpess).collect hcollect

/-! ## What a lock request reads -/

/-- The read result that a prepared lock carries. -/
def PreparedMvccWrite.Reads (prepared : PreparedMvccWrite) (read : TxnStatus × Option Bytes × Ts) :
    Prop :=
  prepared.readStatus = read.1 ∧ prepared.readValue = read.2.1.getD [] ∧
    prepared.readCommitTs = read.2.2

namespace LockRequest

variable {request : LockRequest} {σ : MvccStorage} {lock : MvccLock}

/-- A request of the holder reads the newest value again. -/
lemma prepared_renew (hlock : σ.locks[request.key]? = some lock)
    (hstart : lock.startTs = request.startTs) (hprimary : lock.primaryKey = request.primaryKey.1)
    (hpess : lock.isPessimistic = true) (hcurrent : (σ.view request.key).Current lock) :
    (request.prepared σ).Reads (σ.view request.key).readNewest ∧
      ((request.prepared σ).status = .ok ↔ (σ.view request.key).readNewest.1 ≠ .storageError) := by
  have hread : σ.readCommitted request.key
      (max lock.forUpdateTs (requestedTs request.startTs request.forUpdateTs)) =
        (σ.view request.key).readNewest :=
    readCommitted_eq_readNewest fun c w hget htype =>
      UInt64.le_trans (hcurrent c w hget htype) (le_max_left_ts _ _)
  unfold prepared preparePessimisticLock
  simp only [hlock, hstart, hprimary, hpess, hread, ne_eq, not_true_eq_false, if_false,
    Bool.not_true, Bool.false_eq_true, or_self]
  split_ifs with herror
  · exact ⟨⟨rfl, rfl, rfl⟩, by simp [herror]⟩
  · exact ⟨⟨rfl, rfl, rfl⟩, by simp [herror]⟩
  · exact ⟨⟨rfl, rfl, rfl⟩, by simp [herror]⟩

/-- So does the first request. -/
lemma prepared_fresh (hlock : σ.locks[request.key]? = none)
    (hcurrent : ∀ (c : Ts) (w : MvccWrite), (σ.versionsOf request.key)[c]? = some w →
      w.type ≠ .rollback → c ≤ requestedTs request.startTs request.forUpdateTs)
    (hok : (request.prepared σ).status = .ok) :
    (request.prepared σ).Reads (σ.view request.key).readNewest ∧
      (σ.view request.key).readNewest.1 ≠ .storageError := by
  have hread := readCommitted_eq_readNewest hcurrent
  unfold prepared preparePessimisticLock at hok ⊢
  simp only [hlock, hread] at hok ⊢
  split_ifs at hok ⊢ with _ _ herror
  exact ⟨⟨rfl, rfl, rfl⟩, herror⟩

/-- A request that is answered with `ok` returns the newest committed value. -/
lemma prepared_reads (hcurrent : (σ.view request.key).PessimisticCurrent)
    (hok : (request.prepared σ).status = .ok) :
    (request.prepared σ).Reads (σ.view request.key).readNewest ∧
      (σ.view request.key).readNewest.1 ≠ .storageError := by
  have hrenew {lock : MvccLock} (hlock : σ.locks[request.key]? = some lock)
      (hstart : lock.startTs = request.startTs) (hprimary : lock.primaryKey = request.primaryKey.1)
      (hpess : lock.isPessimistic = true) := by
    have := prepared_renew hlock hstart hprimary hpess (hcurrent lock hlock hpess)
    exact And.intro this.1 (this.2.1 hok)
  have hprepares := σ.preparePessimisticLock_prepares request.key request.primaryKey
    request.startTs request.forUpdateTs request.ttlMs request.expireAtPhysicalMs request.nowMs
    request.primaryKey.2
  cases hprepares with
  | refused _ hstatus => exact absurd hok hstatus
  | done _ _ hdone =>
    cases hdone with
    | pessimisticLock lock lock_eq startTs_eq primaryKey_eq isPessimistic_eq =>
      exact hrenew lock_eq startTs_eq primaryKey_eq isPessimistic_eq
  | changes _ mods _ _ hstep =>
    generalize List.foldl _ _ mods = v at hstep
    cases hstep with
    | pessimisticLock _ old _ _ current =>
      cases hlock : σ.locks[request.key]? with
      | none => exact prepared_fresh hlock (current hlock) hok
      | some lock =>
        obtain ⟨hstart, hprimary, hpess, -⟩ := old lock hlock
        exact hrenew hlock hstart hprimary hpess

end LockRequest

/-! ## The read stays stable -/

/-- The step leaves the key locked by the transaction and its newest value where it is: no rollback
of the step lands on a commit record, and a collection removes no Put that shares its data with the
newest one. -/
structure KeepsRead (key : Bytes) (startTs : Ts) (σ : MvccStorage) (step : Step) : Prop where
  locked : KeepsLock key startTs σ step
  unmarked : ∀ ts, .rollback key ts ∈ step.command.parts →
    ∀ w, (σ.versionsOf key)[ts]? = some w → w.type = .rollback
  data : ∀ safePointTs, step.command = .garbageCollect safePointTs →
    ∀ (c : Ts) (w : MvccWrite), (σ.view key).newest = some (c, w) → w.type = .put →
      ∀ (c' : Ts) (w' : MvccWrite), (σ.view key).Collected safePointTs c' w' → w'.type = .put →
        w'.startTs ≠ w.startTs

namespace KeyView

variable {v v' : KeyView} {lock lock' : MvccLock}

/-- The newest value stays while the lock is held. -/
lemma readNewest_held {marks : Ts → Prop} (hstep : HeldStep marks lock v v' lock')
    (hordered : v.Ordered)
    (hunmarked : ∀ ts, marks ts → ∀ w, v.versions[ts]? = some w → w.type = .rollback) :
    v'.readNewest = v.readNewest := by
  cases hstep with
  | own _ _ _ _ _ versions_eq data_eq =>
    refine readNewest_congr (by rw [newest, newest, versions_eq]) fun c w hnewest _ => ?_
    -- a record of the transaction itself would be above its start
    refine (data_eq w.startTs).resolve_right fun ⟨_, hbelow⟩ => ?_
    obtain ⟨hget, -⟩ := newest_eq_some.1 hnewest
    exact UInt64.not_le.2 (hbelow c w hget) (hordered c w hget)
  | mark startTs marked unrecorded versions_eq data_eq =>
    refine readNewest_congr (newest_eq_of_kept ?_ ?_) fun c w hnewest _ => ?_
    · intro c w hnewest
      obtain ⟨hget, hvalue, -⟩ := newest_eq_some.1 hnewest
      have hne : startTs ≠ c := by
        rintro rfl
        exact hvalue.type_ne (hunmarked startTs marked w hget)
      rw [versions_eq, getElem?_insert, if_neg hne]
      exact hget
    · intro c w hget hvalue
      rcases insert_cases (versions_eq ▸ hget) with ⟨-, rfl⟩ | hget
      · exact absurd rfl hvalue.type_ne
      · exact hget
    · exact data_eq w.startTs (unrecorded c w (newest_eq_some.1 hnewest).1)

/-- A collection does not take the newest value or its data. -/
lemma readNewest_collect {safePointTs : Ts} (hstep : CollectStep safePointTs v v')
    (hdata : ∀ (c : Ts) (w : MvccWrite), v.newest = some (c, w) → w.type = .put →
      ∀ (c' : Ts) (w' : MvccWrite), v.Collected safePointTs c' w' → w'.type = .put →
        w'.startTs ≠ w.startTs) : v'.readNewest = v.readNewest := by
  refine readNewest_congr (newest_eq_of_kept ?_ fun c w hget _ => (hstep.of_get hget).1) ?_
  · intro c w hnewest
    obtain ⟨hget, hvalue, hmax⟩ := newest_eq_some.1 hnewest
    -- the newest value of all is the newest one below the safe point, if it is below
    refine (hstep.kept c fun w' hcollected => hcollected.2.2 ?_).trans hget
    exact ⟨w, hget, hvalue, fun c' w' hget' hvalue' _ => hmax c' w' hget' hvalue'⟩
  · exact fun c w hnewest hput => hstep.data_kept w.startTs fun c' w' => hdata c w hnewest hput c' w'

end KeyView

/-! ## One oracle and one commit timestamp -/

/-- The timestamps of a part as the oracle and the coordinator give them: no start timestamp is a
commit timestamp, and a transaction has one commit timestamp. -/
def KeyCommand.Timed (isStart : Ts → Prop) (commitOf : Ts → Ts) (c : KeyCommand) : Prop :=
  c.TimestampsApart isStart ∧ match c with
    | .commit _ startTs commitTs => commitTs = commitOf startTs
    | _ => True

instance (isStart : Ts → Prop) [DecidablePred isStart] (commitOf : Ts → Ts) :
    DecidablePred (KeyCommand.Timed isStart commitOf) := fun c => by
  induction c using KeyCommand.casesOn <;> dsimp only [KeyCommand.Timed] <;> infer_instance

/-- The runs whose timestamps one oracle gives out. -/
def TimedSteps (isStart : Ts → Prop) (commitOf : Ts → Ts) (_ : MvccStorage) (step : Step) : Prop :=
  ∀ c ∈ step.command.parts, c.Timed isStart commitOf

instance (isStart : Ts → Prop) [DecidablePred isStart] (commitOf : Ts → Ts) (σ : MvccStorage)
    (step : Step) : Decidable (TimedSteps isStart commitOf σ step) :=
  inferInstanceAs (Decidable (∀ c ∈ step.command.parts, _))

/-- Every commit record of the key is at the commit timestamp of its transaction, which no other
transaction starts at. -/
def KeyView.Dated (isStart : Ts → Prop) (commitOf : Ts → Ts) (v : KeyView) : Prop :=
  ∀ (c : Ts) (w : MvccWrite), v.versions[c]? = some w → w.type ≠ .rollback →
    ¬isStart c ∧ c = commitOf w.startTs

section

variable {isStart : Ts → Prop} {commitOf : Ts → Ts} {v v' : KeyView} {σ : MvccStorage} {step : Step}
  {key : Bytes} {startTs : Ts}

lemma KeyView.Dated.keyStep {c : KeyCommand} (h : v.Dated isStart commitOf)
    (htimed : c.Timed isStart commitOf) (hstep : KeyStep c v v') : v'.Dated isStart commitOf := by
  intro ts w hget htype
  cases hstep with
  | commit =>
    rcases insert_cases hget with ⟨rfl, rfl⟩ | hget
    · exact ⟨htimed.1.2, htimed.2⟩
    · exact h ts w hget htype
  | rollback =>
    rcases insert_cases hget with ⟨-, rfl⟩ | hget
    · exact absurd rfl htype
    · exact h ts w hget htype
  | _ => exact h ts w hget htype

lemma KeyView.Dated.exec (h : (σ.view key).Dated isStart commitOf)
    (hstep : TimedSteps isStart commitOf σ step) :
    ((σ.exec step).2.view key).Dated isStart commitOf := by
  rcases σ.exec_view step key with hid | ⟨c, hc, -, hkey⟩ | ⟨safePointTs, -, hcollect⟩
  · exact hid ▸ h
  · exact h.keyStep (hstep c hc) hkey
  · exact fun ts w hget => h ts w (hcollect.of_get hget).1

lemma dated_of_reachable (h : storageSystem.Reachable (TimedSteps isStart commitOf) σ)
    (key : Bytes) : (σ.view key).Dated isStart commitOf := by
  refine h.invariant (I := fun σ => (σ.view key).Dated isStart commitOf) ?_ ?_
  · rintro _ rfl c w hget
    simp at hget
  · rintro σ step _ hσ hstep rfl
    exact hσ.exec hstep

/-- Under one oracle a step that leaves the key locked leaves the value that was read too. -/
lemma KeyView.Dated.keepsRead (h : (σ.view key).Dated isStart commitOf)
    (hstep : TimedSteps isStart commitOf σ step) (hlock : KeepsLock key startTs σ step) :
    KeepsRead key startTs σ step := by
  refine ⟨hlock, fun ts hts w hget => ?_, fun safePointTs _ c w hnewest hput c' w' hcollected hput'
    hsame => ?_⟩
  · -- the rolled back transaction started at `ts`, so no commit record is there
    by_contra htype
    exact (h ts w hget htype).1 (hstep _ hts).1.1
  · -- two Puts of one transaction are one record, and the newest is not collected
    obtain ⟨hget, hvalue, hmax⟩ := newest_eq_some.1 hnewest
    have hc := (h c w hget (by simp [hput])).2
    have hc' := (h c' w' hcollected.1 (by simp [hput'])).2
    obtain rfl : c' = c := by rw [hc, hc', hsame]
    exact hcollected.2.2 ⟨w, hget, hvalue, fun c' w' hget' hvalue' _ => hmax c' w' hget' hvalue'⟩

end

/-- What a run keeps from the grant on: the lock with its bounds, and the value that was read. -/
structure HeldRead (request : LockRequest) (taken : MvccLock) (read : TxnStatus × Option Bytes × Ts)
    (ρ : MvccStorage) (held : MvccLock) : Prop where
  reachable : storageSystem.Reachable TransitionSystem.anyStep ρ
  locked : ρ.locks[request.key]? = some held
  startTs_eq : held.startTs = request.startTs
  primaryKey_eq : held.primaryKey = request.primaryKey.1
  current : (ρ.view request.key).Current held
  forUpdateTs_le : taken.forUpdateTs ≤ held.forUpdateTs
  expireAt_le : taken.expireAtPhysicalMs ≤ held.expireAtPhysicalMs
  read_eq : (ρ.view request.key).readNewest = read

namespace HeldRead

variable {request : LockRequest} {taken held : MvccLock} {read : TxnStatus × Option Bytes × Ts}
  {σ τ ρ : MvccStorage}

lemma of_granted (hσ : storageSystem.Reachable anyStep σ) (hgrant : request.Granted σ τ) :
    ∃ taken, taken.isPessimistic = true ∧
      HeldRead request taken (σ.view request.key).readNewest τ taken := by
  obtain ⟨taken, htaken, hstart, hprimary, hpess, hversions, hdata⟩ := hgrant.lock
  have hτ := hgrant.reachable hσ
  refine ⟨taken, hpess, hτ, htaken, hstart, hprimary, ?_, UInt64.le_refl _, UInt64.le_refl _, ?_⟩
  · exact pessimisticCurrent_of_reachable hτ request.key taken htaken hpess
  · refine readNewest_congr ?_ fun _ _ _ _ => by rw [hdata]
    rw [newest, newest, hversions]

/-- One step under the lock. -/
lemma step {step : Step} (h : HeldRead request taken read ρ held)
    (hstep : KeepsRead request.key request.startTs ρ step) :
    ∃ held', HeldRead request taken read (ρ.exec step).2 held' := by
  obtain ⟨held', hheld', hstart'⟩ := hstep.locked
  have hreach : storageSystem.Reachable anyStep (ρ.exec step).2 := h.reachable.tail trivial rfl
  refine ⟨held', ?_⟩
  rcases exec_held h.locked hheld' (hstart'.trans h.startTs_eq.symm) with
    ⟨rfl, hid⟩ | hkey | ⟨rfl, safePointTs, hcommand, hcollect⟩
  · exact { h with
      reachable := hreach
      locked := hheld'
      current := hid ▸ h.current
      read_eq := hid ▸ h.read_eq }
  · have hordered := ordered_of_reachable h.reachable request.key
    have hcurrent := h.current.held hkey
    have hread := (readNewest_held hkey hordered hstep.unmarked).trans h.read_eq
    cases hkey with
    | own _ _ primaryKey_eq forUpdateTs_le expireAt_le =>
      exact ⟨hreach, hheld', hstart', primaryKey_eq.trans h.primaryKey_eq, hcurrent,
        UInt64.le_trans h.forUpdateTs_le forUpdateTs_le, UInt64.le_trans h.expireAt_le expireAt_le,
        hread⟩
    | mark =>
      exact { h with reachable := hreach, locked := hheld', current := hcurrent, read_eq := hread }
  · exact { h with
      reachable := hreach
      locked := hheld'
      current := h.current.collect hcollect
      read_eq := (readNewest_collect hcollect (hstep.data safePointTs hcommand)).trans h.read_eq }

/-- A run under the lock. -/
lemma run {isStart : Ts → Prop} {commitOf : Ts → Ts} (h : HeldRead request taken read τ held)
    (hdated : (τ.view request.key).Dated isStart commitOf)
    (hrun : storageSystem.Reaches (fun ρ step => TimedSteps isStart commitOf ρ step ∧
      KeepsLock request.key request.startTs ρ step) τ ρ) :
    ∃ held', HeldRead request taken read ρ held' := by
  refine (hrun.stable (I := fun ρ => (ρ.view request.key).Dated isStart commitOf ∧
    ∃ held', HeldRead request taken read ρ held') ?_ ⟨hdated, held, h⟩).2
  rintro ρ step _ ⟨hdated, held, h⟩ ⟨htimed, hlock⟩ rfl
  exact ⟨hdated.exec htimed, h.step (hdated.keepsRead htimed hlock)⟩

/-- A retry of the holder is answered as before. -/
lemma retry (h : HeldRead request taken read ρ held) (hread : read.1 ≠ .storageError)
    (hpess : held.isPessimistic = true) {retry : LockRequest} (hkey : retry.key = request.key)
    (hprimary : retry.primaryKey = request.primaryKey) (hstart : retry.startTs = request.startTs) :
    (retry.prepared ρ).status = .ok ∧ (retry.prepared ρ).Reads read := by
  have hretry : (retry.prepared ρ).Reads (ρ.view retry.key).readNewest ∧
      ((retry.prepared ρ).status = .ok ↔ (ρ.view retry.key).readNewest.1 ≠ .storageError) :=
    LockRequest.prepared_renew (hkey ▸ h.locked) (h.startTs_eq.trans hstart.symm)
      (by rw [h.primaryKey_eq, hprimary]) hpess (hkey ▸ h.current)
  rw [hkey, h.read_eq] at hretry
  exact ⟨hretry.2.2 hread, hretry.1⟩

end HeldRead

/-- In every run whose timestamps one oracle gives out, a granted lock request returns the newest
committed value. While the lock is held, no commit is newer than the lock, its bounds never
decrease, and every retry of the transaction before its own prewrite returns the same value and
commit timestamp. -/
theorem locking_read_stable {isStart : Ts → Prop} {commitOf : Ts → Ts} {σ τ ρ : MvccStorage}
    {request : LockRequest} (hσ : storageSystem.Reachable (TimedSteps isStart commitOf) σ)
    (hgrant : request.Granted σ τ)
    (hrun : storageSystem.Reaches (fun ρ step => TimedSteps isStart commitOf ρ step ∧
      KeepsLock request.key request.startTs ρ step) τ ρ) :
    (request.prepared σ).Reads (σ.view request.key).readNewest ∧
    ∃ taken held, τ.locks[request.key]? = some taken ∧ ρ.locks[request.key]? = some held ∧
      held.startTs = request.startTs ∧ (ρ.view request.key).Current held ∧
      taken.forUpdateTs ≤ held.forUpdateTs ∧ taken.expireAtPhysicalMs ≤ held.expireAtPhysicalMs ∧
      (held.isPessimistic = true → ∀ retry : LockRequest, retry.key = request.key →
        retry.primaryKey = request.primaryKey → retry.startTs = request.startTs →
        (retry.prepared ρ).status = .ok ∧
          (retry.prepared ρ).Reads (σ.view request.key).readNewest) := by
  have hany : storageSystem.Reachable anyStep σ := by
    obtain ⟨s₀, h₀, hrun⟩ := hσ
    exact ⟨s₀, h₀, hrun.mono fun _ _ _ => trivial⟩
  obtain ⟨hreads, hread⟩ := LockRequest.prepared_reads
    (pessimisticCurrent_of_reachable hany request.key) hgrant.status
  obtain ⟨taken, -, htaken⟩ := HeldRead.of_granted hany hgrant
  obtain ⟨-, -, -, -, -, hversions, -⟩ := hgrant.lock
  have hdated : (τ.view request.key).Dated isStart commitOf := by
    intro c w hget
    exact dated_of_reachable hσ request.key c w (hversions ▸ hget)
  obtain ⟨held, hheld⟩ := htaken.run hdated hrun
  exact ⟨hreads, taken, held, htaken.locked, hheld.locked, hheld.startTs_eq, hheld.current,
    hheld.forUpdateTs_le, hheld.expireAt_le, fun hpess retry hkey hprimary hstart =>
      hheld.retry hread hpess hkey hprimary hstart⟩

section

open LockRequest (lockAt10 committedBefore)

/-- The storage on which the lock is granted, and the storage afterwards. -/
def beforeLock : MvccStorage := MvccStorage.empty.run committedBefore

def afterLock : MvccStorage := lockAt10.granted beforeLock

lemma beforeLock_reachable : storageSystem.Reachable anyStep beforeLock :=
  Guarded.reachable (by decide)

lemma afterLock_granted : lockAt10.Granted beforeLock afterLock :=
  ⟨0, ⟨0, true⟩, by decide, by decide, rfl⟩

/-- A transaction that started at `ts` is rolled back on the key. -/
def rollbackAt (ts : Ts) : Step := { command := .rollback [1] ts }

/-- The steps under the lock: another transaction is rolled back, the lock is renewed with smaller
bounds, and the key is collected. -/
def underLock : List Step :=
  [rollbackAt 9, { command := .pessimisticLock [1] ⟨[1], one_lt_maxSize⟩ 5 50 7 0 0 },
    { command := .garbageCollect 4 }]

theorem locking_read_underLock :
    (lockAt10.prepared beforeLock).Reads (.ok, some [7], 3) ∧
      (lockAt10.prepared (afterLock.run underLock)).Reads (.ok, some [7], 3) := by
  have hσ : storageSystem.Reachable (TimedSteps (· ∈ [2, 5, 9]) (· + 1)) beforeLock :=
    Guarded.reachable (by decide)
  have hrun : storageSystem.Reaches (fun ρ step => TimedSteps (· ∈ [2, 5, 9]) (· + 1) ρ step ∧
      KeepsLock [1] 5 ρ step) afterLock (afterLock.run underLock) := Guarded.reaches (by decide)
  obtain ⟨hreads, taken, held, -, hheld, -, -, -, -, hretry⟩ :=
    locking_read_stable hσ afterLock_granted hrun
  have hpess : ∀ lock ∈ (afterLock.run underLock).locks[([1] : Bytes)]?,
      lock.isPessimistic = true := by decide
  have hnewest : (beforeLock.view [1]).readNewest = (.ok, some [7], 3) := by decide
  exact ⟨hnewest ▸ hreads, hnewest ▸ (hretry (hpess held hheld) lockAt10 rfl rfl rfl).2⟩

/-- The rollback of a transaction that started at the commit timestamp of the value. -/
theorem locking_read_lost_rollbackAt : ¬∀ (σ τ ρ : MvccStorage) (request : LockRequest),
      storageSystem.Reachable TransitionSystem.anyStep σ → request.Granted σ τ →
      storageSystem.Reaches (KeepsLock request.key request.startTs) τ ρ →
      (request.prepared σ).Reads (σ.view request.key).readNewest ∧
      ∃ taken held, τ.locks[request.key]? = some taken ∧ ρ.locks[request.key]? = some held ∧
        held.startTs = request.startTs ∧ (ρ.view request.key).Current held ∧
        taken.forUpdateTs ≤ held.forUpdateTs ∧ taken.expireAtPhysicalMs ≤ held.expireAtPhysicalMs ∧
        (held.isPessimistic = true → ∀ retry : LockRequest, retry.key = request.key →
          retry.primaryKey = request.primaryKey → retry.startTs = request.startTs →
          (retry.prepared ρ).status = .ok ∧
            (retry.prepared ρ).Reads (σ.view request.key).readNewest) := by
  intro h
  have hrun : storageSystem.Reaches (KeepsLock [1] 5) afterLock (afterLock.exec (rollbackAt 3)).2 :=
    .single (by decide) rfl
  obtain ⟨-, -, held, -, hheld, -, -, -, -, hretry⟩ :=
    h _ _ _ lockAt10 beforeLock_reachable afterLock_granted hrun
  have hpess : ∀ lock ∈ (afterLock.exec (rollbackAt 3)).2.locks[([1] : Bytes)]?,
      lock.isPessimistic = true := by decide
  have hstatus := (hretry (hpess held hheld) lockAt10 rfl rfl rfl).2.1
  exact absurd hstatus (by decide)

end

end StrataKV.Mvcc
