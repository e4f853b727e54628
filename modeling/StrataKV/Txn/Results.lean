import StrataKV.Txn.Run

/-!
# What the results of `Commit` and `Rollback` mean

`Truthful` says what a caller may conclude from a result, in every state after it was returned. Three
things stand against it. `Rollback` in an unknown result resolves a key that is not decided to a
rollback, and the storage answers `Ok` also when the key has been committed in the meantime. And
`Rollback` of a finished transaction returns `Ok`, also when it was finished by finding it committed.
And a call that is left by an exception may leave the transaction active, with a commit of the
primary under way. `TruthfulSteps` excludes the three, and `truthful_of_truthfulSteps` says that
nothing else stands against it.
-/

namespace StrataKV.Txn

open Mvcc

/-- What the results that were returned say about the records, now and later. -/
structure Truthful (cfg : Config) (txn : Transaction) (w : World) : Prop where
  committed : ∀ r ∈ w.returned, r.call = .commit → r.status = .ok →
    txn.mutations.isEmpty = false → w.Committed cfg txn txn.primaryKey
  aborted : ∀ r ∈ w.returned, r.call = .commit → r.status ∈ failures → r.sentPrewrite = true →
    ∀ key, txn.hasMutation key = true → ¬w.Committed cfg txn key
  rolledBack : ∀ before r after, w.returned = before ++ r :: after → r.call = .rollback →
    r.status = .ok → (∀ r' ∈ before, ¬(r'.call = .commit ∧ r'.status = .ok)) →
    ∀ key, txn.hasMutation key = true → ¬w.Committed cfg txn key
  already : ∀ r ∈ w.returned, r.call = .rollback → r.status = .alreadyCommitted →
    w.Committed cfg txn txn.primaryKey

/-- The coordinator resolves the key to a rollback. -/
def Message.rollsBack (message : Message) (key : Bytes) : Prop :=
  message.sender = .coordinator ∧
    match message.command with
    | .resolveLock key' _ decision _ => key' = key ∧ decision = .rolledBack
    | _ => False

/-- `Rollback` resolves no key to a rollback that is committed by then, and is not called again once
it has returned `AlreadyCommitted`; and no exception leaves the transaction active. -/
def TruthfulSteps (cfg : Config) (txn : Transaction) (w : World) : CallEvent → Prop
  | .step (.deliver number ..) => ∀ message ∈ w.sent[number]?, ∀ key ∈ keysOf message.command,
    message.rollsBack key → ¬w.Committed cfg txn key
  | .step (.rollback _) => ¬w.Returned .rollback .alreadyCommitted
  | .step _ => True
  | .leave outcomes aborting => (w.leave outcomes aborting).txn.state ≠ .active

/-- Evidence is right, and a rollback that returned `Ok` came after a commit that did or has
evidence for every key. -/
structure ResultsInv (cfg : Config) (txn : Transaction) (w : World) : Prop where
  evidence : ∀ key, w.Evidence key → w.RolledBack cfg txn key
  rolledBack : ∀ before r after, w.returned = before ++ r :: after → r.call = .rollback →
    r.status = .ok → (∃ r' ∈ before, r'.call = .commit ∧ r'.status = .ok) ∨ w.Erased txn

section

variable {cfg : Config} {isStart : Ts → Prop} {txn : Transaction} {w w' : World} {event : Event}

/-- A commit record appears only by a commit. -/
lemma Advance.committed_of (h : Advance cfg isStart txn w event w') {key : Bytes}
    (hc : w'.Committed cfg txn key) :
    w.Committed cfg txn key ∨ ∃ message ∈ w.delivered event, ∃ commitTs,
      KeyCommand.commit key txn.startTs commitTs ∈ message.command.parts := by
  rcases h.view key with hid | ⟨c, rfl, hpart, hstep⟩
  · left
    simpa only [World.Committed, hid] using hc
  · rcases hstep.committed_of hc with hold | ⟨key, commitTs, rfl, -⟩
    · exact .inl hold
    · obtain ⟨message, hdelivered, hmem⟩ := hpart.origin.resolve_left (not_not.2 rfl)
      exact .inr ⟨message, hdelivered, commitTs, hmem⟩

/-- A request that is answered with `Ok` now has rolled back its keys. -/
lemma Advance.rolledBack_of_reply (h : Advance cfg isStart txn w event w')
    (hguard : TruthfulSteps cfg txn w (.step event)) {message : Message} {reply : Reply} {key : Bytes}
    (hdelivered : w.delivered event = some message) (hown : MessageOk cfg isStart txn w' message)
    (hsender : message.sender = .coordinator) (hstatus : reply.status = .ok)
    (herases : Erases message.command key)
    (htells : reply.Tells isStart (w'.view cfg) message.command) : w'.RolledBack cfg txn key := by
  obtain ⟨sender, region, command⟩ := message
  cases command with
  | rollback key' startTs =>
    obtain rfl : key' = key := herases
    rw [World.RolledBack, ← (hown.part _ (List.mem_singleton_self _)).own]
    exact htells.1 hstatus
  | batchRollback keys startTs =>
    have hpart := hown.part (.rollback key startTs) (List.mem_map.2 ⟨key, herases, rfl⟩)
    rw [World.RolledBack, ← hpart.own]
    exact htells.1 hstatus key herases
  | resolveLock key' startTs decision commitTs =>
    obtain ⟨rfl, rfl⟩ : key' = key ∧ decision = .rolledBack := herases
    have hparts : (Command.resolveLock key' startTs .rolledBack commitTs).parts =
        [.rollback key' startTs] := by simp [Command.parts]
    have hpart := hown.part (.rollback key' startTs) (by rw [hparts]; exact List.mem_singleton_self _)
    rcases htells rfl hstatus with hr | hc
    · rw [World.RolledBack, ← hpart.own]
      exact hr
    · -- the key was not committed before, and a resolution to a rollback does not commit it
      exfalso
      have hc' : w'.Committed cfg txn key' := by
        rw [World.Committed, ← hpart.own]
        exact hc
      rcases h.committed_of hc' with hold | ⟨message, hmessage, ts, hmem⟩
      · cases event with
        | deliver number =>
          exact hguard _ hdelivered key' (List.mem_singleton_self _) ⟨hsender, rfl, rfl⟩ hold
        | _ => cases hdelivered
      · rw [hdelivered] at hmessage
        cases hmessage
        rw [hparts] at hmem
        cases List.mem_singleton.1 hmem
  | _ => exact herases.elim

lemma ResultsInv.advance (h : ResultsInv cfg txn w) (hinv : Inv cfg isStart txn w)
    (hguard : TruthfulSteps cfg txn w (.step event)) (hadvance : Advance cfg isStart txn w event w') :
    ResultsInv cfg txn w' := by
  have hgrows := hadvance.grows
  refine ⟨fun key hev => ?_, fun before r after heq hcall hstatus => ?_⟩
  · obtain ⟨number, reply, message, hreply, hget, hsender, hs, herases⟩ := hev
    rcases hadvance.replies _ hreply with hold | ⟨message', hget', hdelivered⟩
    · obtain ⟨message', hget', -⟩ := hinv.reply _ hold
      have hsame : message' = message := Option.some.inj ((hgrows.get hget').symm.trans hget)
      exact hgrows.rolledBack key
        (h.evidence key ⟨number, reply, message, hold, hsame ▸ hget', hsender, hs, herases⟩)
    · have hsame : message' = message := Option.some.inj ((hgrows.get hget').symm.trans hget)
      exact hadvance.rolledBack_of_reply hguard (hsame ▸ hdelivered)
        (hadvance.inv.message message (List.mem_of_getElem? hget)) hsender hs herases
        (hadvance.inv.tells hreply hget)
  · obtain ⟨new, hreturned, hnew⟩ := hadvance.returned
    rw [hreturned] at heq
    have hfirst (hr : r ∈ new) (hbefore : w.returned ⊆ before) :
        (∃ r' ∈ before, r'.call = .commit ∧ r'.status = .ok) ∨ w'.Erased txn := by
      rcases hnew r hr hcall hstatus with herased | ⟨⟨nowMs, rfl⟩, hsettled⟩
      · exact .inr herased
      · rcases hsettled with ⟨r', hr', hcommit⟩ | halready | herased
        · exact .inl ⟨r', hbefore hr', hcommit⟩
        · exact absurd halready hguard
        · exact .inr (hgrows.erased herased)
    rcases List.append_eq_append_iff.1 heq with ⟨middle, rfl, rfl⟩ | ⟨middle, hold, hmiddle⟩
    · exact hfirst (List.mem_append_right _ List.mem_cons_self) (List.subset_append_left _ _)
    · cases middle with
      | nil =>
        rw [List.append_nil] at hold
        rw [List.nil_append] at hmiddle
        exact hfirst (hmiddle ▸ List.mem_cons_self) (hold ▸ List.Subset.refl _)
      | cons first middle =>
        obtain ⟨rfl, -⟩ := List.cons.inj hmiddle
        exact (h.rolledBack before r middle hold hcall hstatus).imp_right hgrows.erased

lemma resultsInv_initial : ResultsInv cfg txn (World.initial txn) := by
  refine ⟨fun key hev => ?_, fun before r after heq => ?_⟩
  · obtain ⟨number, reply, message, hreply, -⟩ := hev
    cases hreply
  · simp [World.initial] at heq

end

/-- In every run of `TruthfulSteps` the results of `Commit` and `Rollback` are true, in the state in
which they are returned and in every later one. -/
theorem truthful_of_truthfulSteps (cfg : Config) (isStart : Ts → Prop) (txn : Transaction)
    (hstart : isStart txn.startTs) (hfresh : txn.Fresh) (w : World)
    (h : (callSystem cfg isStart txn).Reachable (TruthfulSteps cfg txn) w) : Truthful cfg txn w := by
  obtain ⟨hinv, hresults⟩ := callSystem_invariant (I := ResultsInv cfg txn) hstart hfresh
    resultsInv_initial (fun _ _ _ hG => hG) (fun _ => trivial)
    (fun _ _ _ hinv hI hG ha => hI.advance hinv hG ha) h
  have hnever (herased : w.Erased txn) (key : Bytes) (hkey : txn.hasMutation key = true) :
      ¬w.Committed cfg txn key := fun hc =>
    (hinv.key _ key).exclusive _ hc (hresults.evidence key (herased key hkey))
  refine ⟨fun r hr hcall hstatus hmutations => ?_, fun r hr hcall hstatus hprewrite => ?_,
    fun before r after heq hcall hstatus hunfinished => ?_, fun r hr => (hinv.returned r hr).already⟩
  · exact ((hinv.returned r hr).committed hcall hstatus).resolve_left (by simp [hmutations])
  · exact hnever ((hinv.returned r hr).aborted hcall hstatus hprewrite)
  · rcases hresults.rolledBack before r after heq hcall hstatus with ⟨r', hr', hcommit⟩ | herased
    · exact absurd hcommit (hunfinished r' hr')
    · exact hnever herased

/-! ## Runs of one key -/

def oneRegion : Config where
  route := fun _ => 0
  batchEnabled := false
  lockTtlMs := 10

def oneKey : Transaction where
  startTs := 5
  mutations := Std.ExtTreeMap.empty.insert [1] ⟨[7], false⟩
  primaryKey := ⟨[1], one_lt_maxSize⟩

/-- The message is served at the Raft index, with all clocks at 1. -/
def serveAt (number : ℕ) (raftIndex : UInt64) : Event :=
  .deliver number (fun _ => 1) (fun _ => 1) raftIndex ⟨0, true⟩

instance (w : World) (call : ApiCall) (status : TxnStatus) : Decidable (w.Returned call status) :=
  inferInstanceAs (Decidable (∃ r ∈ w.returned, r.call = call ∧ r.status = status))

instance (message : Message) (key : Bytes) : Decidable (message.rollsBack key) := by
  unfold Message.rollsBack
  cases message.command <;> dsimp only <;> infer_instance

instance (cfg : Config) (txn : Transaction) (w : World) :
    DecidablePred (TruthfulSteps cfg txn w)
  | .step event => by
    induction event using Event.casesOn <;> dsimp only [TruthfulSteps, World.Committed] <;>
      infer_instance
  | .leave .. => inferInstanceAs (Decidable (_ ≠ _))

/-- The answer to a query while the primary is locked. -/
def lockedOutcome : Outcome where
  status := .ok
  record :=
    { state := .locked
      lock := some
        { primaryKey := [1], startTs := 5, ttlMs := 10, createTimeMs := 1, forUpdateTs := 5
          expireAtPhysicalMs := 11, legacyExpiry := false } }

/-- The commit of the primary is lost; `Rollback` is left by an exception once, and then finds the
lock and resolves it. -/
def unknownRun : List CallEvent :=
  [.commit .ok, serveAt 0 1, .proceed [{ status := .ok }] false 0, .allocated (some 10),
    .proceed [{ status := .resultUnknown }] true 0, .rollback (some 1)].map .step ++
  .leave [] false ::
  [.rollback (some 1), serveAt 3 2, .proceed [lockedOutcome] false 0, serveAt 4 3,
    .proceed [{ status := .ok }] false 0].map .step

theorem truthful_unknownRun :
    Truthful oneRegion oneKey
      (unknownRun.foldl (World.nextCall oneRegion) (World.initial oneKey)) :=
  truthful_of_truthfulSteps oneRegion (· = 5) oneKey rfl (by decide) _
    (TransitionSystem.Guarded.reachable_enabled (by decide))

/-- As `unknownRun` without the exception, but the commit of the primary arrives after the query. -/
def lateCommitRun : List CallEvent :=
  [.commit .ok, serveAt 0 1, .proceed [{ status := .ok }] false 0, .allocated (some 10),
    .proceed [{ status := .resultUnknown }] true 0, .rollback (some 1), serveAt 2 2,
    .proceed [lockedOutcome] false 0, serveAt 1 3, serveAt 3 4,
    .proceed [{ status := .ok }] false 0].map .step

theorem untruthful_lateCommitRun :
    ¬∀ (cfg : Config) (isStart : Ts → Prop) (txn : Transaction), isStart txn.startTs → txn.Fresh →
      ∀ w, (callSystem cfg isStart txn).Reachable TransitionSystem.anyStep w →
        Truthful cfg txn w := by
  intro h
  have hrun : (callSystem oneRegion (· = 5) oneKey).Reachable TransitionSystem.anyStep
      (lateCommitRun.foldl (World.nextCall oneRegion) (World.initial oneKey)) :=
    TransitionSystem.Guarded.reachable_enabled (by decide)
  have htruthful := h oneRegion (· = 5) oneKey rfl (by decide) _ hrun
  refine htruthful.rolledBack [⟨.commit, .resultUnknown, true⟩] ⟨.rollback, .ok, true⟩ [] ?_ rfl rfl
    (by decide) [1] (by decide) ?_
  · decide
  · show ((lateCommitRun.foldl (World.nextCall oneRegion) (World.initial oneKey)).view oneRegion
      [1]).Committed 5
    decide

end StrataKV.Txn
