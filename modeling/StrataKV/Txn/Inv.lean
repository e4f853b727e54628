import StrataKV.Txn.Dispatch

/-!
# What is known in every state of a run

The invariant `Inv` ties together the records in the regions, the messages that were sent, the
replies to them and the phase of the coordinator. Its core is that the primary decides: no key is
committed before the primary, and the coordinator rolls back the keys it has mutated only when the
primary can no longer be committed (`Decided`).

The steps of the coordinator change nothing in the regions. What they may send and how they may go on
is said once, by `Coordinates`.
-/

namespace StrataKV.Txn

open Mvcc

/-! ## Fates and decisions -/

def isPrimaryCommit (primaryKey : Bytes) : Command → Bool
  | .commit key _ _ => key = primaryKey
  | _ => false

/-- The command asks for a rollback of the key, other than by a status check. -/
def Erases (command : Command) (key : Bytes) : Prop :=
  match command with
  | .rollback key' _ => key' = key
  | .batchRollback keys _ => key ∈ keys
  | .resolveLock key' _ decision _ => key' = key ∧ decision = .rolledBack
  | _ => False

/-- As `Erases`, for the requests of a cleanup. -/
def Cleans (command : Command) (key : Bytes) : Prop :=
  match command with
  | .rollback key' _ => key' = key
  | .batchRollback keys _ => key ∈ keys
  | _ => False

namespace World

def view (cfg : Config) (w : World) (key : Bytes) : KeyView := (w.regions (cfg.route key)).view key

/-- The coordinator has sent a commit of the primary. -/
def commitSent (txn : Transaction) (w : World) : Bool :=
  w.sent.any fun message => isPrimaryCommit txn.primaryKey message.command

/-- The coordinator may still send a commit of the primary. -/
def canCommit (w : World) : Bool :=
  match w.phase with
  | .idle => w.txn.state = .active
  | .prewrite .. => true
  | .allocateCommitTs _ => true
  | .commitPrimary .. => true
  | .queryPrimary .. => true
  | _ => false

section

variable (cfg : Config) (txn : Transaction) (w : World)

def Committed (key : Bytes) : Prop := (w.view cfg key).Committed txn.startTs

def RolledBack (key : Bytes) : Prop := (w.view cfg key).RolledBack txn.startTs

/-- No commit of the primary was sent and none will be. -/
def Aborted : Prop := w.commitSent txn = false ∧ w.canCommit = false

/-- The primary cannot be committed any more. -/
def Decided : Prop := w.RolledBack cfg txn txn.primaryKey ∨ w.Aborted txn

end

/-- The coordinator asked for a rollback of the key and was answered with `Ok`. -/
def Evidence (w : World) (key : Bytes) : Prop :=
  ∃ number reply message, (number, reply) ∈ w.replies ∧ w.sent[number]? = some message ∧
    message.sender = .coordinator ∧ reply.status = .ok ∧ Erases message.command key

/-- The call has returned with the status. -/
def Returned (w : World) (call : ApiCall) (status : TxnStatus) : Prop :=
  ∃ r ∈ w.returned, r.call = call ∧ r.status = status

/-- There is evidence for each mutated key. -/
def Erased (txn : Transaction) (w : World) : Prop :=
  ∀ key, txn.hasMutation key = true → w.Evidence key

/-- Why the transaction is finished: it was found committed, or each of its keys is rolled back. -/
def Settled (txn : Transaction) (w : World) : Prop :=
  w.Returned .commit .ok ∨ w.Returned .rollback .alreadyCommitted ∨ w.Erased txn

end World

/-! ## The parts of the invariant -/

section

variable (cfg : Config) (isStart : Ts → Prop) (txn : Transaction) (w : World)

/-- A part of the transaction, with its timestamps and its primary key. -/
structure PartOf (c : KeyCommand) : Prop where
  own : c.startTs = txn.startTs
  apart : c.TimestampsApart isStart
  primary : ∀ primaryKey ∈ c.primaryKey?, primaryKey = txn.primaryKey.1

structure MessageOk (message : Message) : Prop where
  routed : ∀ key ∈ keysOf message.command, cfg.route key = message.region
  collects : message.command.safePoint? = none
  part : ∀ c ∈ message.command.parts, PartOf isStart txn c
  /-- The primary is committed first. -/
  commit : ∀ key startTs commitTs, KeyCommand.commit key startTs commitTs ∈ message.command.parts →
    isPrimaryCommit txn.primaryKey message.command = true ∨ w.Committed cfg txn txn.primaryKey
  check : ∀ key startTs nowMs rollbackIfExpired,
    message.command = .checkTxnStatus key startTs nowMs rollbackIfExpired →
    key = txn.primaryKey.1 ∧ startTs = txn.startTs
  /-- A mutated key is rolled back only when the primary cannot be committed any more. -/
  cleanup : ∀ key, Cleans message.command key → txn.hasMutation key = true → w.Decided cfg txn

/-- The request under the number asks for the status of the primary. -/
def QueryCall (number : ℕ) (rollbackIfExpired : Bool) : Prop :=
  ∃ message nowMs, w.sent[number]? = some message ∧
    message.command = .checkTxnStatus txn.primaryKey txn.startTs nowMs rollbackIfExpired

def AfterOk (state : TransactionState) : AfterCleanup → Prop
  | .emptyCommit => txn.mutations.isEmpty = true ∧ state = .active
  | .abort status => status ≠ .ok ∧ state = .abortOnly
  | .rollback => state = .active ∨ state = .abortOnly ∨ state = .cleanupPending

/-- The coordinator cleans up: each mutated key is rolled back, or a request for it is under way, or
it is left to do; unless a request has failed. -/
structure CleanupOk (calls : List (ℕ × List Bytes)) (rest : List Bytes) (aggregate : TxnStatus)
    (after : AfterCleanup) : Prop where
  call : ∀ call ∈ calls, ∃ region, w.sent[call.1]? =
      some ⟨.coordinator, region, cfg.rollbackCommand txn.startTs call.2⟩ ∧
    (cfg.batchEnabled = true ∨ ∃ key, call.2 = [key])
  covers : aggregate = .ok → ∀ key, txn.hasMutation key = true →
    w.Evidence key ∨ key ∈ rest ∨ ∃ call ∈ calls, key ∈ call.2
  already : aggregate = .alreadyCommitted → w.Committed cfg txn txn.primaryKey
  decided : w.commitSent txn = false ∨ w.RolledBack cfg txn txn.primaryKey
  after : AfterOk txn w.txn.state after

structure ResolveOk (number : ℕ) (key : Bytes) (rest : List Bytes) (record : TxnRecordStatus)
    (resolved : TxnStatus) : Prop where
  state : w.txn.state = .resultUnknown
  call : ∃ region, w.sent[number]? = some ⟨.coordinator, region,
    .resolveLock key txn.startTs (World.resolutionState record.state) record.commitTs⟩
  committed : record.state = .committed →
    w.Committed cfg txn txn.primaryKey ∧ ¬isStart record.commitTs
  covers : record.state ≠ .committed → resolved = .ok → ∀ k, txn.hasMutation k = true →
    w.Evidence k ∨ k = key ∨ k ∈ rest
  resolved : resolved = .ok ∨ resolved = .cleanupPending

def PhaseOk : Prop :=
  match w.phase with
  | .idle =>
    (w.txn.state = .active → w.commitSent txn = false ∧ w.prewriteSent = false) ∧
      (w.txn.state = .abortOnly ∨ w.txn.state = .cleanupPending →
        w.commitSent txn = false ∨ w.RolledBack cfg txn txn.primaryKey)
  | .prewrite .. =>
    w.txn.state = .active ∧ w.commitSent txn = false ∧ txn.mutations.isEmpty = false
  | .allocateCommitTs _ =>
    w.txn.state = .active ∧ w.commitSent txn = false ∧ txn.mutations.isEmpty = false
  | .commitPrimary number commitTs _ =>
    w.txn.state = .active ∧ ¬isStart commitTs ∧ ∃ region, w.sent[number]? =
        some ⟨.coordinator, region, .commit txn.primaryKey txn.startTs commitTs⟩
  | .queryPrimary number commitTs _ =>
    w.txn.state = .active ∧ ¬isStart commitTs ∧ QueryCall txn w number false
  | .commitSecondaries _ _ commitTs =>
    w.txn.state = .active ∧ w.Committed cfg txn txn.primaryKey ∧ ¬isStart commitTs
  | .releaseLocks _ rest =>
    w.txn.state = .active ∧ w.Committed cfg txn txn.primaryKey ∧
      ∀ key ∈ rest, txn.hasMutation key = false
  | .cleanup calls rest aggregate after => CleanupOk cfg txn w calls rest aggregate after
  | .queryRollback number => w.txn.state = .resultUnknown ∧ QueryCall txn w number false
  | .resolve number key rest record resolved =>
    ResolveOk cfg isStart txn w number key rest record resolved
  | .crashed => True

/-- The statuses with which `Commit` reports that nothing was committed. -/
def failures : List TxnStatus := [.writeConflict, .lockConflict, .timeout, .storageError]

structure ReturnOk (r : CallReturn) : Prop where
  committed : r.call = .commit → r.status = .ok →
    txn.mutations.isEmpty = true ∨ w.Committed cfg txn txn.primaryKey
  aborted : r.call = .commit → r.status ∈ failures → r.sentPrewrite = true → w.Erased txn
  already : r.call = .rollback → r.status = .alreadyCommitted → w.Committed cfg txn txn.primaryKey

/-- The invariant of a run for the transaction `txn`. -/
structure Inv : Prop where
  same : txn.Same w.txn
  key : ∀ region key, TxnInv isStart ((w.regions region).view key)
  lock : ∀ key lock, (w.view cfg key).lock = some lock → lock.startTs = txn.startTs →
    lock.primaryKey = txn.primaryKey.1
  primary : ∀ key, w.Committed cfg txn key → w.Committed cfg txn txn.primaryKey
  primary_sent : w.Committed cfg txn txn.primaryKey → w.commitSent txn = true
  message : ∀ message ∈ w.sent, MessageOk cfg isStart txn w message
  reply : ∀ item ∈ w.replies, ∃ message, w.sent[item.1]? = some message ∧
    item.2.Tells isStart (w.view cfg) message.command
  task : ∀ task ∈ w.tasks, QueryCall txn w task.call true
  phase : PhaseOk cfg isStart txn w
  returned : ∀ r ∈ w.returned, ReturnOk cfg txn w r
  rolledBack : w.Returned .rollback .ok → w.Settled txn
  finished : w.txn.state = .finished → w.Settled txn

end

/-! ## Facts that stay true -/

/-- From `w` to `w'` fates stay decided, and messages and replies are only added. -/
structure Grows (cfg : Config) (txn : Transaction) (w w' : World) : Prop where
  committed : ∀ key, w.Committed cfg txn key → w'.Committed cfg txn key
  rolledBack : ∀ key, w.RolledBack cfg txn key → w'.RolledBack cfg txn key
  sent : ∃ new, w'.sent = w.sent ++ new
  replies : ∀ item ∈ w.replies, item ∈ w'.replies
  calls : ∀ r ∈ w.returned, r ∈ w'.returned
  aborted : w.Aborted txn → w'.Aborted txn

namespace Grows

variable {cfg : Config} {isStart : Ts → Prop} {txn : Transaction} {w w' : World}

lemma refl : Grows cfg txn w w :=
  ⟨fun _ h => h, fun _ h => h, ⟨[], (List.append_nil _).symm⟩, fun _ h => h, fun _ h => h, fun h => h⟩

section

variable (h : Grows cfg txn w w')

include h

lemma decided (hd : w.Decided cfg txn) : w'.Decided cfg txn := hd.imp (h.rolledBack _) h.aborted

lemma get {number : ℕ} {message : Message}
    (hget : w.sent[number]? = some message) : w'.sent[number]? = some message := by
  obtain ⟨new, hnew⟩ := h.sent
  have hlt := (List.getElem?_eq_some_iff.1 hget).1
  rw [hnew, List.getElem?_append_left hlt, hget]

/-- Evidence stays. -/
lemma evidence {key : Bytes} (he : w.Evidence key) : w'.Evidence key := by
  obtain ⟨number, reply, message, hmem, hget, hrest⟩ := he
  exact ⟨number, reply, message, h.replies _ hmem, h.get hget, hrest⟩

lemma erased (he : w.Erased txn) : w'.Erased txn := fun key hkey => h.evidence (he key hkey)

lemma has_returned {call : ApiCall} {status : TxnStatus}
    (hr : w.Returned call status) : w'.Returned call status := by
  obtain ⟨r, hmem, hcall⟩ := hr
  exact ⟨r, h.calls r hmem, hcall⟩

lemma settled (hs : w.Settled txn) : w'.Settled txn :=
  hs.imp h.has_returned (Or.imp h.has_returned h.erased)

lemma query {number : ℕ} {rollbackIfExpired : Bool}
    (hq : QueryCall txn w number rollbackIfExpired) :
    QueryCall txn w' number rollbackIfExpired := by
  obtain ⟨message, nowMs, hget, hcommand⟩ := hq
  exact ⟨message, nowMs, h.get hget, hcommand⟩

/-- A message that was justified stays so. -/
lemma message {message : Message}
    (hm : MessageOk cfg isStart txn w message) : MessageOk cfg isStart txn w' message :=
  { hm with
    commit := fun key startTs commitTs hpart =>
      (hm.commit key startTs commitTs hpart).imp_right (h.committed _)
    cleanup := fun key hkey hmut => h.decided (hm.cleanup key hkey hmut) }

/-- A return that was justified stays so. -/
lemma returned {r : CallReturn} (hr : ReturnOk cfg txn w r) : ReturnOk cfg txn w' r :=
  ⟨fun hc hs => (hr.committed hc hs).imp_right (h.committed _),
    fun hc hs hp => h.erased (hr.aborted hc hs hp), fun hc hs => h.committed _ (hr.already hc hs)⟩

/-- A phase that goes on is as before. -/
lemma phase (hp : PhaseOk cfg isStart txn w) (hphase : w'.phase = w.phase)
    (htxn : w'.txn = w.txn) (hcommit : w'.commitSent txn = w.commitSent txn)
    (hprewrite : w'.prewriteSent = w.prewriteSent) : PhaseOk cfg isStart txn w' := by
  unfold PhaseOk at hp ⊢
  rw [hphase]
  cases hw : w.phase with
  | idle =>
    simp only [hw, htxn, hcommit, hprewrite] at hp ⊢
    exact ⟨hp.1, fun hs => (hp.2 hs).imp_right (h.rolledBack _)⟩
  | prewrite | allocateCommitTs => simpa only [hw, htxn, hcommit] using hp
  | commitPrimary =>
    simp only [hw, htxn] at hp ⊢
    obtain ⟨hstate, hts, region, hget⟩ := hp
    exact ⟨hstate, hts, region, h.get hget⟩
  | queryPrimary =>
    simp only [hw, htxn] at hp ⊢
    exact ⟨hp.1, hp.2.1, h.query hp.2.2⟩
  | commitSecondaries | releaseLocks =>
    simp only [hw, htxn] at hp ⊢
    exact ⟨hp.1, h.committed _ hp.2.1, hp.2.2⟩
  | cleanup calls rest aggregate after =>
    simp only [hw] at hp ⊢
    refine ⟨fun call hcall => ?_, fun hok key hkey => ?_, fun ha => h.committed _ (hp.already ha), ?_,
      htxn ▸ hp.after⟩
    · obtain ⟨region, hget, hshape⟩ := hp.call call hcall
      exact ⟨region, h.get hget, hshape⟩
    · exact (hp.covers hok key hkey).imp_left h.evidence
    · rw [hcommit]
      exact hp.decided.imp_right (h.rolledBack _)
  | queryRollback =>
    simp only [hw, htxn] at hp ⊢
    exact ⟨hp.1, h.query hp.2⟩
  | resolve =>
    simp only [hw] at hp ⊢
    obtain ⟨region, hget⟩ := hp.call
    refine ⟨htxn ▸ hp.state, ⟨region, h.get hget⟩, fun hc => ?_, fun hne hok k hk => ?_,
      hp.resolved⟩
    · exact ⟨h.committed _ (hp.committed hc).1, (hp.committed hc).2⟩
    · exact (hp.covers hne hok k hk).imp_left h.evidence
  | crashed => trivial

end

end Grows

/-! ## Steps of the regions -/

/-- A part that may be applied: of another transaction, or of the delivered message. -/
structure PartOk (isStart : Ts → Prop) (txn : Transaction) (delivered : Option Message)
    (c : KeyCommand) : Prop where
  apart : c.TimestampsApart isStart
  origin : c.startTs ≠ txn.startTs ∨ ∃ message ∈ delivered, c ∈ message.command.parts

/-- From `w` to `w'` the records of a key have changed by a part that may be applied. -/
def ViewStep (isStart : Ts → Prop) (txn : Transaction) (delivered : Option Message) (key : Bytes)
    (v v' : KeyView) : Prop :=
  v' = v ∨ ∃ c, c.key = key ∧ PartOk isStart txn delivered c ∧ KeyStep c v v'

/-- From `w` to `w'` regions have changed records by parts that may be applied. -/
structure Regional (isStart : Ts → Prop) (txn : Transaction) (delivered : Option Message)
    (w w' : World) : Prop where
  mem : ∀ message ∈ delivered, message ∈ w.sent
  sent : w'.sent = w.sent
  tasks : w'.tasks = w.tasks
  txn_eq : w'.txn = w.txn
  phase : w'.phase = w.phase
  returned : w'.returned = w.returned
  replies : ∀ item ∈ w.replies, item ∈ w'.replies
  view : ∀ region key, ViewStep isStart txn delivered key ((w.regions region).view key)
    ((w'.regions region).view key)

namespace Regional

variable {cfg : Config} {isStart : Ts → Prop} {txn : Transaction} {delivered : Option Message}
  {w w' : World}

/-- The Regions send no commit. -/
lemma commitSent_eq (h : Regional isStart txn delivered w w') : w'.commitSent txn = w.commitSent txn := by
  rw [World.commitSent, h.sent]
  rfl

section

variable (h : Regional isStart txn delivered w w') (hinv : Inv cfg isStart txn w)

include h hinv

lemma grows : Grows cfg txn w w' := by
  refine ⟨fun key hc => ?_, fun key hr => ?_, ⟨[], by simp [h.sent]⟩, h.replies,
    h.returned ▸ fun _ hr => hr, fun ha => ?_⟩
  · have hkey := hinv.key (cfg.route key) key
    rcases h.view (cfg.route key) key with hid | ⟨c, -, hpart, hstep⟩
    · simpa only [World.Committed, World.view, hid] using hc
    · exact hkey.committed_step hstep hpart.apart hc
  · have hkey := hinv.key (cfg.route key) key
    rcases h.view (cfg.route key) key with hid | ⟨c, -, hpart, hstep⟩
    · simpa only [World.RolledBack, World.view, hid] using hr
    · exact hkey.rolledBack_step hstep hr
  · exact ⟨h.commitSent_eq.trans ha.1, by simpa only [World.canCommit, h.phase, h.txn_eq] using ha.2⟩

/-- A key that becomes committed is the primary, or the primary is committed. -/
lemma committed_of {key : Bytes} (hc : w'.Committed cfg txn key) :
    w.Committed cfg txn key ∨ w.Committed cfg txn txn.primaryKey ∨
      key = txn.primaryKey.1 ∧ w.commitSent txn = true := by
  rcases h.view (cfg.route key) key with hid | ⟨c, hkey, hpart, hstep⟩
  · left
    simpa only [World.Committed, World.view, hid] using hc
  · rcases hstep.committed_of hc with hc | ⟨key', commitTs, rfl, -⟩
    · exact .inl hc
    · obtain ⟨message, hdelivered, hmem'⟩ := hpart.origin.resolve_left (not_not.2 rfl)
      have hmem := h.mem message hdelivered
      rcases (hinv.message message hmem).commit _ _ _ hmem' with hprimary | hcommitted
      · right; right
        refine ⟨?_, List.any_eq_true.2 ⟨message, hmem, hprimary⟩⟩
        -- the command is a commit of the primary and has this key only
        obtain ⟨sender, region, command⟩ := message
        have hk := key_mem_keysOf hmem'
        cases command with
        | commit k =>
          have hk : key' = k := List.mem_singleton.1 hk
          have hp : k = txn.primaryKey.1 := by simpa [isPrimaryCommit] using hprimary
          exact hkey.symm.trans (hk.trans hp)
        | _ => simp [isPrimaryCommit] at hprimary
      · exact .inr (.inl hcommitted)

/-- A step of a Region keeps the invariant. -/
theorem inv
    (hreply : ∀ item ∈ w'.replies, item ∈ w.replies ∨ ∃ message, w.sent[item.1]? = some message ∧
      item.2.Tells isStart (w'.view cfg) message.command) : Inv cfg isStart txn w' := by
  have hgrows := h.grows hinv
  have hcommit := h.commitSent_eq
  have hprewrite : w'.prewriteSent = w.prewriteSent := by
    rw [World.prewriteSent, h.sent]
    rfl
  refine ⟨h.txn_eq ▸ hinv.same, fun region key => ?_, fun key lock hlock hstart => ?_, fun key hc => ?_,
    fun hc => ?_, fun message hmem => ?_, fun item hitem => ?_, fun task htask => ?_,
    hgrows.phase hinv.phase h.phase h.txn_eq hcommit hprewrite, fun r hr => ?_,
    fun hr => hgrows.settled (hinv.rolledBack ?_),
    fun hs => hgrows.settled (hinv.finished (h.txn_eq ▸ hs))⟩
  · rcases h.view region key with hid | ⟨c, -, hpart, hstep⟩
    · exact hid ▸ hinv.key region key
    · exact (hinv.key region key).step hstep hpart.apart
  · rcases h.view (cfg.route key) key with hid | ⟨c, -, hpart, hstep⟩
    · simp only [World.view, hid] at hlock
      exact hinv.lock key lock hlock hstart
    · rcases hstep.lock_of hlock with hlock | ⟨hs, hp⟩
      · exact hinv.lock key lock hlock hstart
      -- a new lock of the transaction comes from one of its own messages
      · obtain ⟨message, hdelivered, hpart⟩ :=
          hpart.origin.resolve_left (not_not.2 (hs.symm.trans hstart))
        exact ((hinv.message message (h.mem message hdelivered)).part c hpart).primary _ hp
  · rcases h.committed_of hinv hc with hc | hc | ⟨rfl, -⟩
    · exact hgrows.committed _ (hinv.primary key hc)
    · exact hgrows.committed _ hc
    · exact hc
  · rw [hcommit]
    rcases h.committed_of hinv hc with hc | hc | ⟨-, hsent⟩
    · exact hinv.primary_sent hc
    · exact hinv.primary_sent hc
    · exact hsent
  · rw [h.sent] at hmem
    exact hgrows.message (hinv.message message hmem)
  · rw [h.sent]
    rcases hreply item hitem with hitem | hnew
    · obtain ⟨message, hget, htells⟩ := hinv.reply item hitem
      refine ⟨message, hget, htells.mono ?_ ?_⟩
      · intro key startTs hc
        rcases h.view (cfg.route key) key with hid | ⟨c, -, hpart, hstep⟩
        · simpa only [World.view, hid] using hc
        · exact (hinv.key _ key).committed_step hstep hpart.apart hc
      · intro key startTs hr
        rcases h.view (cfg.route key) key with hid | ⟨c, -, -, hstep⟩
        · simpa only [World.view, hid] using hr
        · exact (hinv.key _ key).rolledBack_step hstep hr
    · exact hnew
  · rw [h.tasks] at htask
    exact hgrows.query (hinv.task task htask)
  · rw [h.returned] at hr
    exact hgrows.returned (hinv.returned r hr)
  · simpa only [World.Returned, h.returned] using hr

end

end Regional

end StrataKV.Txn
