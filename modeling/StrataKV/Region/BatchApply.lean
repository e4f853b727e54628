import StrataKV.Mvcc.Batching
import StrataKV.Mvcc.Proposal
import StrataKV.Region.Descriptor

/-!
# The apply loop with and without batches

`ReadRaftApplyCommandLoop` takes the messages that have come in, tries to apply them as one batch of
prepared commands, and goes through them one by one if it can not. A batch that is applied has the
effect of the loop on its messages, with the same replies to whoever waits for them, and a batch that
is refused leaves no trace. So the loop can not tell if a batch was tried.
-/

namespace StrataKV.Region

open Mvcc MvccStorage RegionPeer List Option UInt64 Prod
open Std (ExtTreeMap)

/-! ## The prepared commands of messages -/

variable {index : ℕ}

lemma toNat_ofNat_index (h : index < 2 ^ 64) : (ofNat index).toNat = index := by
  rw [toNat_ofNat']
  exact Nat.mod_eq_of_lt h

variable {command : PreparedApplyCommand}

lemma raftIndex_of_preparedCommand {op : Op}
    (h : preparedCommand index op = some command) : command.raftIndex = ofNat index := by
  unfold preparedCommand at h
  split at h
  · obtain ⟨prepared, -, rfl⟩ := map_eq_some_iff.1 h
    rfl
  · obtain ⟨prepared, -, rfl⟩ := map_eq_some_iff.1 h
    rfl
  · cases h

/-- What is prepared in the entry was built by a prepare function on some storage. -/
def Op.Proposed (op : Op) : Prop :=
  match op.operation with
  | .txnPrepared (some prepared) =>
    ∃ (σ : MvccStorage) (command : Command), σ.prepare command = some (.single op.key prepared)
  | .txnPreparedBatch (some prepared) =>
    ∃ (σ : MvccStorage) (command : Command), σ.prepare command = some (.batch prepared)
  | _ => True

/-- An entry that was proposed carries modifications of its keys. -/
lemma carries_of_preparedCommand {op : Op}
    (hproposed : op.Proposed) (h : preparedCommand index op = some command) : command.Carries := by
  obtain ⟨operation, key, clientId, requestId⟩ := op
  unfold preparedCommand at h
  cases operation with
  | txnPrepared prepared =>
    obtain ⟨write, rfl, rfl⟩ := map_eq_some_iff.1 h
    obtain ⟨σ, proposed, hprepare⟩ := hproposed
    exact prepare_carries hprepare
  | txnPreparedBatch prepared =>
    obtain ⟨batch, rfl, rfl⟩ := map_eq_some_iff.1 h
    obtain ⟨σ, proposed, hprepare⟩ := hproposed
    exact prepare_carries hprepare
  | _ => cases h

variable {messages : List (ℕ × Op)}

lemma carries_of_mapM {commands : List PreparedApplyCommand}
    (hproposed : ∀ m ∈ messages, m.2.Proposed)
    (h : (messages.mapM fun m => preparedCommand m.1 m.2) = some commands) :
    ∀ command ∈ commands, command.Carries := by
  intro command hcommand
  obtain ⟨m, hm, hprepared⟩ := exists_of_forall₂ (forall₂_of_mapM h) hcommand
  exact carries_of_preparedCommand (hproposed m hm) hprepared

/-- A refused batch leaves the storage as it was. -/
lemma tryBatchApplyFromRaft_storage_of_refused {peer peer' : RegionPeer} {env : PeerEnv} (hproposed : ∀ m ∈ messages, m.2.Proposed)
    (h : peer.tryBatchApplyFromRaft messages env = (false, peer')) :
    peer'.storage = peer.storage := by
  rcases tryBatchApplyFromRaft_refused h with rfl | ⟨commands, hcommands, hrefused, rfl⟩
  · rfl
  · exact applyPreparedCommandsAtomically_refused
      (carries_of_mapM hproposed hcommands) (Prod.ext hrefused rfl)

/-! ## The messages and the loop -/

/-- A message of the apply channel. A command that does not parse is `none`; its index is an
`int`. -/
inductive ApplyMsg
  | command (index : Fin (2 ^ 31)) (op : Option Op)
  | proposalRejected (op : Option Op)
  | snapshot (index : ℕ) (payload : SnapshotPayload)

/-- `IsNodeScheduledTxn`. -/
def Operation.isNodeScheduledTxn : Operation → Bool
  | .txnPrepared _ | .txnPreparedBatch _ | .txnGarbageCollect _ => true
  | _ => false

/-- What the loop tells the scheduler or the wait channel of a request. -/
inductive ApplyReply
  | applied (index : ℕ) (op : Op) (status : OpStatus)
  | rejected (op : Op)

/-- Where the loop has come to: the peer, the replies it has sent, and if it still runs. -/
structure LoopState where
  peer : RegionPeer
  replies : List ApplyReply := []
  running : Bool := true

def LoopState.withReply (replies : List ApplyReply) (state : LoopState) : LoopState :=
  { state with replies := replies ++ state.replies }

namespace RegionPeer

/-- The messages one by one; `none` is a call that throws. The loop ends at a command that fails. -/
def applyOneByOne : RegionPeer → List (ApplyMsg × PeerEnv) → Option LoopState
  | peer, [] => some { peer := peer }
  | peer, (.command index op, env) :: rest =>
    match op with
    | none => some { peer := peer.markStateMachineUnhealthy, running := false }
    | some op =>
      match peer.applyCommand index op env with
      | none => none
      | some (false, _, peer) => some { peer := peer, running := false }
      | some (true, status, peer') =>
        -- an entry that the last snapshot has is passed over without a reply
        let reply := if index ≤ peer.lastSnapShotRaftLogIndex then []
          else [.applied index op status]
        (applyOneByOne peer' rest).map (LoopState.withReply reply)
  | peer, (.proposalRejected op, _) :: rest =>
    let reply := (op.filter fun op => op.operation.isNodeScheduledTxn).map ApplyReply.rejected
    (applyOneByOne peer rest).map (LoopState.withReply reply.toList)
  | peer, (.snapshot index payload, env) :: rest =>
    applyOneByOne (peer.getSnapShotFromRaft index payload env) rest

end RegionPeer

/-- The index and the entry of a message that can be part of a batch. -/
def ApplyMsg.asCommand : ApplyMsg → Option (ℕ × Op)
  | .command index (some op) => some (index, op)
  | _ => none

namespace RegionPeer

/-- One round of `ReadRaftApplyCommandLoop`: the batch first, then the messages one by one. -/
def applyMessages (peer : RegionPeer) (messages : List (ApplyMsg × PeerEnv)) (env : PeerEnv) :
    Option LoopState :=
  match messages.mapM fun message => message.1.asCommand with
  | none => peer.applyOneByOne messages
  | some entries =>
    match peer.tryBatchApplyFromRaft entries env with
    | (true, peer) => some
        { peer := peer, replies := entries.map fun entry => .applied entry.1 entry.2 (.txn .ok) }
    | (false, peer) => peer.applyOneByOne messages

/-! ## One message -/

/-- Only commands are batched. -/
lemma asCommand_eq_some {message : ApplyMsg} {entry : ℕ × Op} (h : message.asCommand = some entry) :
    ∃ place : Fin (2 ^ 31), message = .command place (some entry.2) ∧ entry.1 = place := by
  cases message with
  | command place op =>
    cases op with
    | none => cases h
    | some op =>
      cases h
      exact ⟨place, rfl, rfl⟩
  | proposalRejected op | snapshot index payload => cases h

section

variable {peer : RegionPeer} {index : ℕ} {op : Op} {env : PeerEnv} {σ : MvccStorage}

/-- A prepared command that passes, as one message of the loop. -/
lemma applyCommand_of_prepared (hcommand : preparedCommand index op = some command)
    (happly : command.apply peer.storage env.toApplyEnv = (.ok, σ))
    (hsnapshot : peer.lastSnapShotRaftLogIndex < index)
    (hfresh : (peer.lastRequestId[op.clientId]?.any fun last => op.requestId ≤ last) = false) :
    peer.applyCommand index op env = some (true, .txn .ok,
      ((peer.withStorage σ).markRequest op).advanceStateMachineApplied index) := by
  have hexecute : peer.getCommandFromRaft index op env = peer.execute index op env := by
    rw [getCommandFromRaft, if_neg (by omega), ifRequestDuplicate, hfresh, if_neg (by simp)]
  rw [applyCommand, hexecute]
  obtain ⟨operation, key, clientId, requestId⟩ := op
  cases operation with
  | txnPrepared prepared =>
    obtain ⟨write, rfl, rfl⟩ := map_eq_some_iff.1 hcommand
    have hparsed : applyParsed peer.storage key (some write) index env = (.ok, σ) := happly
    simp [execute, hparsed]
  | txnPreparedBatch prepared =>
    obtain ⟨batch, rfl, rfl⟩ := map_eq_some_iff.1 hcommand
    have hparsed : applyParsedBatch peer.storage (some batch) index env = (.ok, σ) := happly
    simp [execute, hparsed]
  | _ => cases hcommand

end

/-! ## A run of messages -/

section

variable {messages : List (ApplyMsg × PeerEnv)} {entries : List (ℕ × Op)}
  {commands : List PreparedApplyCommand} {env : ApplyEnv} {τ : MvccStorage}

/-- The commands of a batch, one by one. The request table of the peer is `staged` over `last`. -/
lemma applyOneByOne_of_applyEach {last staged : ExtTreeMap Bytes Int32 compare} {peer : RegionPeer}
    (hentries : (messages.mapM fun message => message.1.asCommand) = some entries)
    (hcommands : (entries.mapM fun m => preparedCommand m.1 m.2) = some commands)
    (hcarry : ∀ command ∈ commands, command.Carries)
    (hengine : ∀ message ∈ messages, message.2.engineOk = env.engineOk)
    (hsnapshot : ∀ m ∈ entries, peer.lastSnapShotRaftLogIndex < m.1)
    (hstage : stageRequests last staged (entries.map snd) = true)
    (htable : ∀ client : Bytes, peer.lastRequestId[client]? = staged[client]?.or last[client]?)
    (heach : applyEach env peer.storage commands = some τ) :
    peer.applyOneByOne messages = some
      { peer := { peer with
          storage := τ
          lastRequestId := (entries.map snd).foldl
            (fun table op => table.insert op.clientId op.requestId) peer.lastRequestId
          stateMachineAppliedIndex := (entries.map fst).foldl max peer.stateMachineAppliedIndex }
        replies := entries.map fun entry => .applied entry.1 entry.2 (.txn .ok) } := by
  induction messages generalizing peer staged entries commands with
  | nil =>
    cases hentries
    cases hcommands
    cases heach
    rfl
  | cons message rest ih =>
    rw [mapM_cons] at hentries
    obtain ⟨⟨index, op⟩, hentry, hentries⟩ := bind_eq_some_iff.1 hentries
    obtain ⟨entries', hrest, hentries⟩ := bind_eq_some_iff.1 hentries
    cases hentries
    rw [mapM_cons] at hcommands
    obtain ⟨command, hcommand, hcommands⟩ := bind_eq_some_iff.1 hcommands
    obtain ⟨commands', hcommands', hcommands⟩ := bind_eq_some_iff.1 hcommands
    cases hcommands
    obtain ⟨msg, own⟩ := message
    obtain ⟨place, rfl, rfl⟩ := asCommand_eq_some hentry
    obtain ⟨hown, hcarry'⟩ := forall_mem_cons.1 hcarry
    obtain ⟨hok, hengine'⟩ := forall_mem_cons.1 hengine
    obtain ⟨hindex, hsnapshot'⟩ := forall_mem_cons.1 hsnapshot
    obtain ⟨hfresh, hstage', htable'⟩ := stageRequests_cons htable hstage
    -- the command alone, at the time of its message
    rw [applyEach] at heach
    split at heach
    · rename_i σ' happly
      rw [← @MvccStorage.apply_clock _ hown peer.storage own.toApplyEnv env hok] at happly
      have hstep := applyCommand_of_prepared hcommand happly hindex hfresh
      rw [applyOneByOne, hstep]
      dsimp only
      rw [if_neg (Nat.not_le.2 hindex), @ih _ _ _
        (((peer.withStorage σ').markRequest op).advanceStateMachineApplied place) hrest hcommands'
        hcarry' hengine' hsnapshot' hstage' htable' heach]
      rfl
    · cases heach

lemma foldl_max_of_isChain {indexes : List ℕ} (h : indexes.IsChain (· < ·)) (first : ℕ) :
    indexes.foldl max first = max first (indexes.getLast?.getD 0) := by
  induction indexes using reverseRecOn with
  | nil => simp
  | append_singleton rest index ih =>
    obtain ⟨hrest, -, hlast⟩ := isChain_append.1 h
    have hbelow : rest.getLast?.getD 0 ≤ index := by
      cases hget : rest.getLast? with
      | none => exact Nat.zero_le _
      | some value => exact (hlast value hget index rfl).le
    rw [foldl_append, ih hrest, getLast?_concat]
    simp only [foldl_cons, foldl_nil, getD_some]
    omega

lemma raftIndex_of_mapM (h : (entries.mapM fun m => preparedCommand m.1 m.2) = some commands) :
    commands.map PreparedApplyCommand.raftIndex = entries.map fun entry => ofNat entry.1 := by
  induction entries generalizing commands with
  | nil =>
    cases h
    rfl
  | cons entry rest ih =>
    rw [mapM_cons] at h
    obtain ⟨command, hcommand, h⟩ := bind_eq_some_iff.1 h
    obtain ⟨commands', hrest, h⟩ := bind_eq_some_iff.1 h
    cases h
    rw [map_cons, map_cons, raftIndex_of_preparedCommand hcommand, ih hrest]

/-- The indexes of a batch ascend. -/
lemma isChain_of_commands (hentries : (messages.mapM fun message => message.1.asCommand) = some entries)
    (hcommands : (entries.mapM fun m => preparedCommand m.1 m.2) = some commands)
    (h : (commands.map PreparedApplyCommand.raftIndex).IsChain (· < ·)) :
    (entries.map fst).IsChain (· < ·) := by
  have hsmall : ∀ entry ∈ entries, entry.1 < 2 ^ 64 := by
    intro entry hentry
    obtain ⟨message, -, heq⟩ := exists_of_forall₂ (forall₂_of_mapM hentries) hentry
    obtain ⟨place, -, hplace⟩ := asCommand_eq_some heq
    have := place.isLt
    omega
  rw [raftIndex_of_mapM hcommands, isChain_map] at h
  rw [isChain_map]
  refine h.imp_of_mem_imp ?_
  intro a b ha hb hlt
  rw [lt_iff_toNat_lt, toNat_ofNat_index (hsmall a ha), toNat_ofNat_index (hsmall b hb)] at hlt
  exact hlt

/-- A round of the loop has the effect of its messages one by one. -/
lemma applyMessages_eq {peer : RegionPeer} {env : PeerEnv}
    (hproposed : ∀ message ∈ messages, ∀ entry ∈ message.1.asCommand, entry.2.Proposed)
    (hok : env.engineOk = true) (hengine : ∀ message ∈ messages, message.2.engineOk = true) :
    peer.applyMessages messages env = peer.applyOneByOne messages := by
  unfold applyMessages
  split
  · rfl
  rename_i entries hentries
  have hproposed' : ∀ m ∈ entries, m.2.Proposed := by
    intro entry hentry
    obtain ⟨message, hmessage, heq⟩ := exists_of_forall₂ (forall₂_of_mapM hentries) hentry
    exact hproposed message hmessage entry heq
  split
  · rename_i peer' hbatch
    obtain ⟨-, commands, hcommands, hstage, happlied, rfl⟩ := tryBatchApplyFromRaft_applied hbatch
    have hcarry := carries_of_mapM hproposed' hcommands
    have heach := (applyEach_of_applyPreparedCommandsAtomically hcarry (Prod.ext happlied rfl)).1
    rw [applyOneByOne_of_applyEach hentries hcommands hcarry (by simpa [hok] using hengine)
      (tryBatchApplyFromRaft_above hbatch) hstage (by simp) heach, foldl_max_of_isChain
        (isChain_of_commands hentries hcommands (raftIndex_isChain_of_applied happlied)),
      getLast?_map]
  · rename_i peer' hbatch
    have hstorage := tryBatchApplyFromRaft_storage_of_refused hproposed' hbatch
    rcases tryBatchApplyFromRaft_refused hbatch with rfl | ⟨commands, -, -, rfl⟩
    · rfl
    · exact congrArg (applyOneByOne · messages) (congrArg peer.withStorage hstorage)

end

end RegionPeer

/-- A prepare function has built the command, on any storage. -/
def Produced : PreparedApplyCommand → Prop
  | .single _ key prepared =>
    ∃ (σ : MvccStorage) (command : Command), σ.prepare command = some (.single key prepared)
  | .batch _ prepared =>
    ∃ (σ : MvccStorage) (command : Command), σ.prepare command = some (.batch prepared)

lemma Produced.carries (h : Produced command) : command.Carries := by
  cases command with
  | single raftIndex key prepared | batch raftIndex prepared =>
    obtain ⟨σ, proposed, hprepare⟩ := h
    exact prepare_carries hprepare

/-- Prepared commands are applied as one batch with the effect of applying them one by one, whatever
the clock says meanwhile, or not at all; so a round of the loop has the effect of its messages one by
one. -/
theorem applyPreparedCommandsAtomically_sequential (σ : MvccStorage)
    (steps : List (PreparedApplyCommand × ApplyEnv)) (env : ApplyEnv)
    (hproduced : ∀ step ∈ steps, Produced step.1) (hok : env.engineOk = true)
    (hsteps : ∀ step ∈ steps, step.2.engineOk = true) (peer : RegionPeer)
    (messages : List (ApplyMsg × PeerEnv)) (env' : PeerEnv)
    (hproposed : ∀ message ∈ messages, ∀ entry ∈ message.1.asCommand, entry.2.Proposed)
    (hok' : env'.engineOk = true) (hmessages : ∀ message ∈ messages, message.2.engineOk = true) :
    (∀ τ, σ.applyPreparedCommandsAtomically (steps.map Prod.fst) env = (true, τ) →
      MvccStorage.applySequence σ steps = some τ) ∧
    (∀ τ, σ.applyPreparedCommandsAtomically (steps.map Prod.fst) env = (false, τ) → τ = σ) ∧
    peer.applyMessages messages env' = peer.applyOneByOne messages := by
  have hcarry : ∀ step ∈ steps, step.1.Carries := fun step hstep => (hproduced step hstep).carries
  have hcommands : ∀ command ∈ steps.map fst, command.Carries := by
    intro command hcommand
    obtain ⟨step, hstep, rfl⟩ := mem_map.1 hcommand
    exact hcarry step hstep
  refine ⟨?_, ?_, applyMessages_eq hproposed hok' hmessages⟩
  · intro τ h
    rw [@MvccStorage.applySequence_eq env steps hcarry (by simpa [hok] using hsteps) σ]
    exact (applyEach_of_applyPreparedCommandsAtomically hcommands h).1
  · intro τ h
    exact applyPreparedCommandsAtomically_refused hcommands h

/-! ## Two prewrites in one batch -/

/-- A lock of a key of one byte, prepared on the empty storage. -/
def lockPrepared (byte : UInt8) : PreparedMvccWrite :=
  MvccStorage.empty.preparePessimisticLock [byte] [byte] 10 100 10 0 0

lemma prepare_lockPrepared (byte : UInt8) :
    empty.prepare (.pessimisticLock [byte] ⟨[byte], one_lt_maxSize⟩ 10 100 10 0 0) =
      some (.single [byte] (lockPrepared byte)) := rfl

def lockSteps : List (PreparedApplyCommand × ApplyEnv) :=
  [(.single 1 [1] (lockPrepared 1), ⟨0, true⟩), (.single 2 [2] (lockPrepared 2), ⟨7, true⟩)]

def lockOp (byte : UInt8) (requestId : Int32) : Op where
  operation := .txnPrepared (some (lockPrepared byte))
  key := [byte]
  clientId := [9]
  requestId := requestId

def lockMessages : List (ApplyMsg × PeerEnv) :=
  [(.command 1 (some (lockOp 1 1)), { nowMs := 0, engineOk := true }),
    (.command 2 (some (lockOp 2 2)), { nowMs := 7, engineOk := true })]

theorem applyPreparedCommandsAtomically_sequential_locks :
    (MvccStorage.empty.applyPreparedCommandsAtomically (lockSteps.map Prod.fst) ⟨3, true⟩).1 =
        true ∧ MvccStorage.applySequence .empty lockSteps = some
        (MvccStorage.empty.applyPreparedCommandsAtomically (lockSteps.map Prod.fst)
          ⟨3, true⟩).2 ∧
      (RegionPeer.create 0 {}).applyMessages lockMessages { nowMs := 3, engineOk := true } =
        (create 0 {}).applyOneByOne lockMessages := by
  have hproduced : ∀ step ∈ lockSteps, Produced step.1 :=
    forall_mem_cons.2 ⟨⟨_, _, prepare_lockPrepared 1⟩,
      forall_mem_singleton.2 ⟨_, _, prepare_lockPrepared 2⟩⟩
  have hproposed : ∀ message ∈ lockMessages, ∀ entry ∈ message.1.asCommand, entry.2.Proposed := by
    refine forall_mem_cons.2 ⟨?_, forall_mem_singleton.2 ?_⟩
    · rintro entry ⟨⟩
      exact ⟨_, _, prepare_lockPrepared 1⟩
    · rintro entry ⟨⟩
      exact ⟨_, _, prepare_lockPrepared 2⟩
  have happlied : (empty.applyPreparedCommandsAtomically (lockSteps.map fst)
      ⟨3, true⟩).1 = true := by decide
  obtain ⟨hbatch, -, hloop⟩ := applyPreparedCommandsAtomically_sequential .empty lockSteps
    ⟨3, true⟩ hproduced rfl (by decide) (create 0 {}) lockMessages
    { nowMs := 3, engineOk := true } hproposed rfl
    (forall_mem_cons.2 ⟨rfl, forall_mem_singleton.2 rfl⟩)
  exact ⟨happlied, hbatch _ (Prod.ext happlied rfl), hloop⟩

end StrataKV.Region
