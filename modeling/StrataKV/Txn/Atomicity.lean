import StrataKV.Txn.Run

/-!
# Atomicity of a transaction

A key that is mutated by the transaction is committed only after the primary (`Inv.primary`). A
secondary that gets a rollback marker while the primary may still be committed breaks atomicity. The
cleanups of the coordinator wait until the primary is decided; a resolution does not: it rolls back a
secondary also when the primary has no record at all, and leaves nothing on the primary that would
keep a late prewrite and commit from succeeding. Nor does a call that is left by an exception: the
handle may stay active with a commit of the primary under way, and `Rollback` cleans up.

`ResolvesDecided` says that neither happens, and `not_wrote_and_rolledBack` that it is enough.
-/

namespace StrataKV.Txn

open Mvcc TransitionSystem List MvccStorage

/-- The command resolves a key other than the primary to a rollback. -/
def rollsBackSecondary (primaryKey : Bytes) : Command → Bool
  | .resolveLock key _ decision _ => key ≠ primaryKey ∧ decision = .rolledBack
  | _ => false

/-- A secondary is resolved to a rollback only when the primary cannot be committed any more, and no
exception leaves the transaction active. -/
def ResolvesDecided (cfg : Config) (txn : Transaction) (w : World) : CallEvent → Prop
  | .step (.deliver number ..) => ∀ message ∈ w.sent[number]?,
    rollsBackSecondary txn.primaryKey message.command = true → w.Decided cfg txn
  | .step _ => True
  | .leave outcomes aborting => (w.leave outcomes aborting).txn.state ≠ .active

section

variable {cfg : Config} {isStart : Ts → Prop} {txn : Transaction} {w w' : World}

/-- A message that can roll back a mutated key. -/
lemma MessageOk.decided_of_rollback {message : Message} (h : MessageOk cfg isStart txn w message)
    {key : Bytes} {startTs : Ts} (hpart : KeyCommand.rollback key startTs ∈ message.command.parts)
    (hmutated : txn.hasMutation key = true) (hkey : key ≠ txn.primaryKey.1)
    (hresolve : rollsBackSecondary txn.primaryKey message.command = true → w.Decided cfg txn) :
    w.Decided cfg txn := by
  obtain ⟨sender, region, command⟩ := message
  cases command with
  | rollback key' startTs' =>
    cases mem_singleton.1 hpart
    exact h.cleanup key rfl hmutated
  | batchRollback keys startTs' =>
    obtain ⟨key', hmem, heq⟩ := mem_map.1 hpart
    cases heq
    exact h.cleanup key hmem hmutated
  | checkTxnStatus key' startTs' nowMs rollbackIfExpired =>
    -- only the primary is checked
    have hmem := key_mem_keysOf hpart
    cases mem_singleton.1 hmem
    exact absurd (h.check _ _ _ _ rfl).1 hkey
  | resolveLock key' startTs' decision commitTs =>
    refine hresolve ?_
    cases mem_singleton.1 (key_mem_keysOf hpart)
    simp only [Command.parts] at hpart
    split_ifs at hpart with hcommitted hrolledBack
    · cases mem_singleton.1 hpart
    · exact decide_eq_true ⟨hkey, hrolledBack⟩
    · cases hpart
  | batchPrewrite mutations =>
    obtain ⟨mutation, -, heq⟩ := mem_map.1 hpart
    split_ifs at heq
  | batchCommit keys =>
    obtain ⟨key', -, heq⟩ := mem_map.1 hpart
    cases heq
  | garbageCollect => cases hpart
  | _ => cases mem_singleton.1 hpart

/-- A mutated key other than the primary is rolled back only when the primary is decided. -/
def SecondariesDecided (cfg : Config) (txn : Transaction) (w : World) : Prop :=
  ∀ key, txn.hasMutation key = true → key ≠ txn.primaryKey.1 → w.RolledBack cfg txn key →
    w.Decided cfg txn

lemma SecondariesDecided.advance {event : Event} (h : SecondariesDecided cfg txn w)
    (hinv : Inv cfg isStart txn w) (hguard : ResolvesDecided cfg txn w (.step event))
    (hadvance : Advance cfg isStart txn w event w') : SecondariesDecided cfg txn w' := by
  intro key hmutated hkey hr
  apply hadvance.grows.decided
  rcases hadvance.view key with hid | ⟨c, rfl, hpart, hstep⟩
  · exact h key hmutated hkey (by simpa only [World.RolledBack, hid] using hr)
  · rcases hstep.rolledBack_of hr with hold | ⟨⟨key', rfl⟩, -⟩
    · exact h _ hmutated hkey hold
    · -- the marker is written by a message of the transaction
      obtain ⟨message, hdelivered, hmem⟩ := hpart.origin.resolve_left (not_not.2 rfl)
      cases event with
      | deliver number =>
        have hok := hinv.message message (mem_of_getElem? hdelivered)
        exact hok.decided_of_rollback hmem hmutated hkey (hguard message hdelivered)
      | _ => cases hdelivered

/-- Once the primary is committed it cannot be decided otherwise. -/
lemma Inv.not_decided (hinv : Inv cfg isStart txn w) (hc : w.Committed cfg txn txn.primaryKey) :
    ¬w.Decided cfg txn := by
  rintro (hr | ⟨hsent, -⟩)
  · exact (hinv.key _ _).exclusive _ hc hr
  · exact absurd (hinv.primary_sent hc) (by simp [hsent])

/-- In every run a key is committed only after the primary, which is then not rolled back. -/
theorem primary_decides (hstart : isStart txn.startTs) (hfresh : txn.Fresh)
    (h : (txnSystem cfg isStart txn).Reachable anyStep w) {key : Bytes}
    (hc : w.Committed cfg txn key) :
    w.Committed cfg txn txn.primaryKey ∧ ¬w.Decided cfg txn := by
  obtain ⟨hinv, -⟩ := txnSystem_invariant (I := fun _ => True) hstart hfresh trivial
    (fun _ _ _ _ _ _ _ => trivial) h
  have hprimary := hinv.primary key hc
  exact ⟨hprimary, hinv.not_decided hprimary⟩

end

/-- In every run in which a secondary is resolved to a rollback only after the primary is decided, and
no exception leaves the transaction active, no mutated key is written while another one is rolled
back. -/
theorem not_wrote_and_rolledBack (cfg : Config) (isStart : Ts → Prop) (txn : Transaction)
    (hstart : isStart txn.startTs) (hfresh : txn.Fresh) (w : World)
    (h : (callSystem cfg isStart txn).Reachable (ResolvesDecided cfg txn) w) (key key' : Bytes)
    (hkey' : txn.hasMutation key' = true) :
    ¬((w.view cfg key).Wrote txn.startTs ∧ (w.view cfg key').RolledBack txn.startTs) := by
  rintro ⟨hwrote, hr⟩
  have hempty (k : Bytes) : ¬(World.initial txn).RolledBack cfg txn k := by
    simp [World.RolledBack, World.view, World.initial, KeyView.RolledBack, view, versionsOf, empty]
  obtain ⟨hinv, hdecided⟩ := callSystem_invariant (I := SecondariesDecided cfg txn) hstart hfresh
    (fun k _ _ hr => absurd hr (hempty k)) (fun _ _ _ hG => hG) (fun _ => trivial)
    (fun _ _ _ hinv hI hG ha => hI.advance hinv hG ha) h
  have hprimary := hinv.primary key hwrote.committed
  by_cases heq : key' = txn.primaryKey.1
  · subst heq
    exact (hinv.key _ _).exclusive _ hprimary hr
  · exact hinv.not_decided hprimary (hdecided key' hkey' heq hr)

/-! ## Runs of two keys in two regions -/

def twoRegions : Config where
  route := fun key => if key = [1] then 0 else 1
  batchEnabled := true
  lockTtlMs := 10

def twoKeys : Transaction where
  startTs := 5
  mutations := Std.ExtTreeMap.empty.insert [1] ⟨[7], false⟩ |>.insert [2] ⟨[8], false⟩
  primaryKey := ⟨[1], one_lt_maxSize⟩

/-- The message is served at the Raft index, with all clocks at 1. -/
def deliverAt (number : ℕ) (raftIndex : UInt64) : Event :=
  .deliver number (fun _ => 1) (fun _ => 1) raftIndex ⟨0, true⟩

instance (cfg : Config) (txn : Transaction) (w : World) : Decidable (w.Decided cfg txn) :=
  inferInstanceAs (Decidable ((w.view cfg txn.primaryKey).RolledBack txn.startTs ∨
    (w.commitSent txn = false ∧ w.canCommit = false)))

instance (cfg : Config) (txn : Transaction) (w : World) :
    DecidablePred (ResolvesDecided cfg txn w)
  | .step event => by
    induction event using Event.casesOn <;> dsimp only [ResolvesDecided] <;> infer_instance
  | .leave .. => inferInstanceAs (Decidable (_ ≠ _))

/-- Both keys are prewritten; a resolver finds the locks expired and rolls back the primary, then the
secondary. `Commit` takes one prewrite for failed and is left by an exception in its cleanup. -/
def expiredRun : List CallEvent :=
  [.commit .ok, deliverAt 0 1, deliverAt 1 1, .observe [2] 1000 false, deliverAt 2 2,
    .resolveTask 0 ⟨.ok, { state := .rolledBack }⟩, deliverAt 3 2].map .step ++
    [.leave [{ status := .ok }, { status := .timeout }] true]

theorem not_wrote_and_rolledBack_expiredRun :
    (twoKeys.hasMutation [2] = true ∧
      ((expiredRun.foldl (World.nextCall twoRegions) (World.initial twoKeys)).view twoRegions
        [2]).RolledBack 5) ∧
    ¬(((expiredRun.foldl (World.nextCall twoRegions) (World.initial twoKeys)).view twoRegions
        [1]).Wrote 5 ∧
      ((expiredRun.foldl (World.nextCall twoRegions) (World.initial twoKeys)).view twoRegions
        [2]).RolledBack 5) := by
  refine ⟨by decide, not_wrote_and_rolledBack twoRegions (· = 5) twoKeys rfl (by decide) _ ?_ [1] [2]
    (by decide)⟩
  exact Guarded.reachable_enabled (by decide)

/-- The prewrite of the primary is late: a resolver that finds no record of it rolls back the
secondary, and the primary is prewritten and committed after that. -/
def latePrimaryRun : List Event :=
  [.commit .ok, deliverAt 1 1, .observe [2] 1000 false, deliverAt 2 1,
    .resolveTask 0 ⟨.ok, { state := .notFound }⟩, deliverAt 3 2, deliverAt 0 2,
    .proceed [{ status := .ok }, { status := .ok }] false 0, .allocated (some 10), deliverAt 4 3]

theorem wrote_and_rolledBack_latePrimaryRun :
    ¬∀ (cfg : Config) (isStart : Ts → Prop) (txn : Transaction), isStart txn.startTs → txn.Fresh →
      ∀ w, (callSystem cfg isStart txn).Reachable TransitionSystem.anyStep w → ∀ key key',
        txn.hasMutation key = true → txn.hasMutation key' = true →
        ¬((w.view cfg key).Wrote txn.startTs ∧ (w.view cfg key').RolledBack txn.startTs) := by
  intro h
  have hrun : (callSystem twoRegions (· = 5) twoKeys).Reachable anyStep
      ((latePrimaryRun.map .step).foldl (World.nextCall twoRegions) (World.initial twoKeys)) :=
    Guarded.reachable_enabled (by decide)
  exact h twoRegions (· = 5) twoKeys rfl (by decide) _ hrun [1] [2] (by decide) (by decide) (by decide)

theorem primary_decides_latePrimaryRun :
    ¬(latePrimaryRun.foldl (World.next twoRegions) (World.initial twoKeys)).Decided twoRegions twoKeys :=
  (@primary_decides twoRegions (· = 5) twoKeys _ rfl (by decide)
    (Guarded.reachable_enabled (by decide)) [1] (KeyView.Wrote.committed _ (by decide))).2

end StrataKV.Txn
