import StrataKV.Region.Peer

/-!
# Raw requests

`PutAppend` is the raw interface of a Region: a client names an operation, a key and a value. The
operation is a string of the request. It is copied into the log entry as it is, and the apply
dispatcher compares it with the names of all commands, those of transactions, splits, membership
changes and collections included.

The module follows a request through the dispatcher. A request does a raw write and nothing else
exactly for the four names of raw operations, and for `Put` and `Append` only outside the key space
that the storage keeps its own records in.
-/

namespace StrataKV.Region

open Metadata Mvcc RegionPeer Option
open Std (ExtTreeMap)

/-! ## Payloads -/

def littleEndian : Bytes → ℕ
  | [] => 0
  | byte :: rest => byte.toNat + 256 * littleEndian rest

/-- A field behind its length of four bytes, and what follows it. -/
def takeField (input : Bytes) : Option (Bytes × Bytes) :=
  let len := littleEndian (input.take 4)
  if input.length < 4 ∨ input.length < 4 + len then none
  else some ((input.drop 4).take len, (input.drop 4).drop len)

/-- A `uint64_t` and what follows it. -/
def takeWord (input : Bytes) : Option (UInt64 × Bytes) :=
  if input.length < 8 then none
  else some (UInt64.ofNat (littleEndian (input.take 8)), input.drop 8)

/-- `TxnOpPayload::parseFromString`. A failed parse keeps the fields that it has read. -/
def TxnOpPayload.parseFromString (input : Bytes) : TxnOpPayload :=
  let payload : TxnOpPayload := { parsed := false }
  match takeField input with
  | none => payload
  | some (value, rest) =>
    let payload := { payload with value := value }
    match takeField rest with
    | none => payload
    | some (primaryKey, rest) =>
      let payload := { payload with primaryKey := primaryKey }
      match takeWord rest with
      | none => payload
      | some (startTs, rest) =>
        let payload := { payload with startTs := startTs }
        match takeWord rest with
        | none => payload
        | some (commitTs, rest) =>
          let payload := { payload with commitTs := commitTs }
          match takeWord rest with
          | none => payload
          | some (ttlMs, rest) =>
            let payload := { payload with ttlMs := ttlMs }
            match rest with
            | [] => payload
            | isDelete :: _ => { payload with isDelete := isDelete ≠ 0, parsed := true }

/-- The parsers of the values that are protocol buffer messages. -/
structure CommandCodec where
  preparedWrite : Bytes → Option PreparedMvccWrite
  preparedBatch : Bytes → Option PreparedMvccBatch
  adminSplit : Bytes → Option AdminSplitCommand
  confChange : Bytes → Option ConfChangeCommand

/-- The command that `GetCommandFromRaft` takes an entry for, by the name in `Operation`. -/
def operationOf (codec : CommandCodec) (operation value : Bytes) : Operation :=
  if operation = ascii "Put" then .put value
  else if operation = ascii "Append" then .append value
  else if operation = ascii "TxnGet" then .txnGet (TxnOpPayload.parseFromString value)
  else if (ascii "TxnPreparedBatch").isPrefixOf operation then
    .txnPreparedBatch (codec.preparedBatch value)
  else if (ascii "TxnPrepared").isPrefixOf operation then .txnPrepared (codec.preparedWrite value)
  else if operation = ascii "TxnPrewrite" then .txnPrewrite (TxnOpPayload.parseFromString value)
  else if operation = ascii "TxnCommit" then .txnCommit (TxnOpPayload.parseFromString value)
  else if operation = ascii "TxnRollback" then .txnRollback (TxnOpPayload.parseFromString value)
  else if operation = ascii "TxnAcquirePessimisticLock" then
    .txnAcquirePessimisticLock (TxnOpPayload.parseFromString value)
  else if operation = ascii "TxnGarbageCollect" then
    .txnGarbageCollect (TxnOpPayload.parseFromString value)
  else if operation = ascii "AdminSplit" then .adminSplit (codec.adminSplit value)
  else if operation = ascii "ConfChange" then .confChange (codec.confChange value)
  else if operation = ascii "Get" then .get
  else if operation = ascii "RaftNoop" then .raftNoop
  else .unknown

/-! ## `PutAppend` -/

structure PutAppendArgs where
  op : Bytes
  key : Bytes
  value : Bytes
  clientId : Bytes
  requestId : Int32

/-- `PutAppend` behind the registry, which finds serving peers only: the entry handed to Raft, as
the replicas parse it. -/
def RegionPeer.putAppend (codec : CommandCodec) (peer : RegionPeer) (isLeader : Bool)
    (args : PutAppendArgs) : Option Op :=
  if peer.lifecycle ≠ .serving then none
  else if !peer.ownsKey args.key then none
  else if !isLeader then none
  else some
    { operation := operationOf codec args.op args.value
      key := args.key
      clientId := args.clientId
      requestId := args.requestId }

/-! ## What a raw request may do -/

/-- Not a command of transactions, splits, membership changes or collections. -/
def Operation.isRaw : Operation → Bool
  | .get | .put _ | .append _ | .raftNoop | .unknown => true
  | _ => false

/-- The command that an entry makes a replica execute. A duplicate is skipped, except that commits,
rollbacks and collections run again. -/
def RegionPeer.executed (peer : RegionPeer) (index : ℕ) (op : Op) : Option Operation :=
  if index ≤ peer.lastSnapShotRaftLogIndex then none
  else if peer.ifRequestDuplicate op.clientId op.requestId then
    match op.operation with
    | .txnCommit _ | .txnRollback _ | .txnGarbageCollect _ => some op.operation
    | _ => none
  else some op.operation

/-- All that changes is the raw value of the entry's key, the de-duplication entry of its client and
the applied index. The records of the storage are no raw values. -/
structure RawEffect (peer : RegionPeer) (index : ℕ) (op : Op) (peer' : RegionPeer) : Prop where
  rest : peer' =
    { peer with
      storage := { peer.storage with engine := peer'.storage.engine }
      lastRequestId := peer'.lastRequestId
      stateMachineAppliedIndex := max peer.stateMachineAppliedIndex index }
  engine : ∀ key, key ≠ op.key ∨ CleanupOp.isSystemKey key = true →
    peer'.storage.engine[key]? = peer.storage.engine[key]?
  lastRequestId : ∀ clientId, clientId ≠ op.clientId →
    peer'.lastRequestId[clientId]? = peer.lastRequestId[clientId]?

/-- The replica executes no other command, goes on and has changed as a raw request may. -/
def RegionPeer.AppliesRaw (peer : RegionPeer) (index : ℕ) (op : Op) (env : PeerEnv) : Prop :=
  (∀ operation ∈ peer.executed index op, operation.isRaw) ∧
    ∃ status peer', peer.applyCommand index op env = some (true, status, peer') ∧
      RawEffect peer index op peer'

/-- The request names a raw operation, and one that writes does so outside the storage's own keys
and into an engine that takes the write. -/
def PutAppendArgs.NamesRaw (args : PutAppendArgs) (env : PeerEnv) : Prop :=
  (args.op = ascii "Put" ∨ args.op = ascii "Append") ∧
      CleanupOp.isSystemKey args.key = false ∧ env.engineOk = true ∨
    args.op = ascii "Get" ∨ args.op = ascii "RaftNoop"

section

variable {peer : RegionPeer} {index : ℕ} {op : Op} {env : PeerEnv} {value : Bytes}

/-- An entry that is skipped or only read changes no more than the applied index. -/
lemma RawEffect.advance : RawEffect peer index op (peer.advanceStateMachineApplied index) where
  rest := rfl
  engine _ _ := rfl
  lastRequestId _ _ := rfl

lemma RawEffect.insert (hkey : CleanupOp.isSystemKey op.key = false) : RawEffect peer index op
      (((peer.withStorage { peer.storage with
        engine := peer.storage.engine.insert op.key value }).markRequest
          op).advanceStateMachineApplied index) where
  rest := rfl
  engine key h := by
    have hne : op.key ≠ key := by
      rintro rfl
      rcases h with h | h
      · exact h rfl
      · rw [hkey] at h
        cases h
    exact (OrdMap.getElem?_insert _ op.key key value).trans (if_neg hne)
  lastRequestId clientId h :=
    (OrdMap.getElem?_insert _ op.clientId clientId op.requestId).trans (if_neg (Ne.symm h))

/-- A raw operation whose effect, if it is executed, is a raw one is raw on every replica. -/
lemma RegionPeer.AppliesRaw.of_execute (hraw : op.operation.isRaw = true)
    (h : ∃ status peer', peer.execute index op env = some (true, status, peer') ∧
      RawEffect peer index op (peer'.advanceStateMachineApplied index)) :
    peer.AppliesRaw index op env := by
  have hduplicate : peer.executeDuplicate op env = (.unset, peer) := by
    unfold executeDuplicate
    cases hop : op.operation <;> simp_all [Operation.isRaw]
  refine ⟨fun operation hexec => ?_, ?_⟩
  · -- whatever is executed is the entry's own operation
    have : operation = op.operation := by
      unfold executed at hexec
      split_ifs at hexec
      · cases hexec
      · split at hexec
        all_goals first
          | exact (some.inj hexec).symm
          | cases hexec
      · exact (some.inj hexec).symm
    rw [this]
    exact hraw
  · unfold applyCommand getCommandFromRaft
    split_ifs
    · exact ⟨_, _, rfl, RawEffect.advance⟩
    · rw [hduplicate]
      exact ⟨_, _, rfl, RawEffect.advance⟩
    · obtain ⟨status, peer', hexecute, heffect⟩ := h
      rw [hexecute]
      exact ⟨_, _, rfl, heffect⟩

lemma operationOf_isRaw {codec : CommandCodec} {operation value : Bytes}
    (h : (operationOf codec operation value).isRaw = true) :
    operation = ascii "Put" ∨ operation = ascii "Append" ∨ operation = ascii "Get" ∨
      operation = ascii "RaftNoop" ∨ operationOf codec operation value = .unknown := by
  revert h
  fun_cases operationOf codec operation value
  case case1 hname => exact fun _ => .inl hname
  case case2 hname => exact fun _ => .inr (.inl hname)
  case case13 hname => exact fun _ => .inr (.inr (.inl hname))
  case case14 hname => exact fun _ => .inr (.inr (.inr (.inl hname)))
  case case15 => exact fun _ => .inr (.inr (.inr (.inr rfl)))
  -- the names of the other commands
  all_goals exact fun h => absurd h Bool.false_ne_true

end

section

variable {descriptor : RegionMetadata} {op : Op} {env : PeerEnv}

/-- A replica that has applied nothing yet executes its first entry. -/
lemma executed_create : (create 0 descriptor).executed 1 op = some op.operation := by
  simp [executed, create, ifRequestDuplicate]

lemma applyCommand_create : (create 0 descriptor).applyCommand 1 op env =
      ((create 0 descriptor).execute 1 op env).map fun (succeeded, status, peer) =>
        if succeeded then (true, status, peer.advanceStateMachineApplied 1)
        else (false, status, peer.markStateMachineUnhealthy) := by
  simp [applyCommand, getCommandFromRaft, create, ifRequestDuplicate]

/-- A write that a fresh replica applies as a raw one goes to a raw key. -/
lemma writes_raw_key {v : Bytes} (hexecute : (create 0 descriptor).execute 1 op env =
      if env.engineOk then
        some (true, .unset, (((create 0 descriptor).withStorage
          { (create 0 descriptor).storage with
            engine := (create 0 descriptor).storage.engine.insert op.key v }).markRequest op))
      else some (false, .unset, create 0 descriptor))
    (h : (create 0 descriptor).AppliesRaw 1 op env) :
    CleanupOp.isSystemKey op.key = false ∧ env.engineOk = true := by
  obtain ⟨-, status, peer', happly, heffect⟩ := h
  rw [applyCommand_create, hexecute] at happly
  cases hengine : env.engineOk with
  | false => simp [hengine] at happly
  | true =>
    refine ⟨?_, rfl⟩
    by_contra hsystem
    simp only [hengine, if_true, map_some, some.injEq, Prod.mk.injEq, true_and] at happly
    -- the record was not there before
    have hsame := heffect.engine op.key (.inr (by simpa using hsystem))
    rw [← happly.2] at hsame
    simp [advanceStateMachineApplied, markRequest, withStorage, create] at hsame

end

/-! ## The result -/

/-- An entry that a serving leader makes of a raw request is applied as a raw write on every healthy
replica exactly if the request names a raw operation on a raw key. -/
theorem putAppend_raw_iff {codec : CommandCodec} {leader : RegionPeer} {args : PutAppendArgs}
    {op : Op} (env : PeerEnv) (hop : leader.putAppend codec true args = some op) :
    (∀ (peer : RegionPeer) index, peer.stateMachineHealthy = true → peer.AppliesRaw index op env) ↔
      args.NamesRaw env := by
  have hop : op =
      { operation := operationOf codec args.op args.value
        key := args.key
        clientId := args.clientId
        requestId := args.requestId } := by
    unfold putAppend at hop
    split_ifs at hop
    exact (some.inj hop).symm
  constructor
  · intro h
    have hfresh := h (create 0 leader.descriptor) 1 rfl
    have hraw : (operationOf codec args.op args.value).isRaw = true := by
      have := hfresh.1 op.operation (by rw [executed_create]; exact rfl)
      rwa [hop] at this
    rcases operationOf_isRaw hraw with hname | hname | hname | hname | hunknown
    · have := writes_raw_key (v := args.value) (by rw [hop, hname]; rfl) hfresh
      rw [hop] at this
      exact .inl ⟨.inl hname, this⟩
    · have := writes_raw_key (v := [] ++ args.value) (by rw [hop, hname]; rfl) hfresh
      rw [hop] at this
      exact .inl ⟨.inr hname, this⟩
    · exact .inr (.inl hname)
    · exact .inr (.inr hname)
    · -- an unknown name fails the apply
      obtain ⟨-, status, peer', happly, -⟩ := hfresh
      rw [applyCommand_create, hop] at happly
      unfold execute at happly
      rw [hunknown] at happly
      simp at happly
  · rintro (⟨hname | hname, hkey, hengine⟩ | hname | hname) peer index -
    · subst hop
      rw [hname]
      exact .of_execute rfl ⟨.unset, _, if_pos hengine, RawEffect.insert hkey⟩
    · subst hop
      rw [hname]
      exact .of_execute rfl ⟨.unset, _, if_pos hengine, RawEffect.insert hkey⟩
    · subst hop
      rw [hname]
      exact .of_execute rfl ⟨.unset, peer, rfl, RawEffect.advance⟩
    · subst hop
      rw [hname]
      exact .of_execute rfl ⟨.unset, peer, rfl, RawEffect.advance⟩

/-- A collection with the largest safe point, named in a raw request. -/
def collectRequest : PutAppendArgs where
  op := ascii "TxnGarbageCollect"
  key := [1]
  value := List.replicate 8 0 ++ List.replicate 8 255 ++ List.replicate 17 0
  clientId := [7]
  requestId := 1

/-- The same bytes as a value to store. -/
def storeRequest : PutAppendArgs := { collectRequest with op := ascii "Put" }

/-- The entry of a request with these names and this key. -/
def requestEntry (operation : Operation) : Op where
  operation := operation
  key := [1]
  clientId := [7]
  requestId := 1

def writableEnv : PeerEnv where
  nowMs := 0
  engineOk := true

/-- A codec that no message parses with. -/
def refusingCodec : CommandCodec := ⟨fun _ => none, fun _ => none, fun _ => none, fun _ => none⟩

theorem putAppend_raw_storeRequest : storeRequest.NamesRaw writableEnv ∧
      ∀ (peer : RegionPeer) index, peer.stateMachineHealthy = true →
        peer.AppliesRaw index (requestEntry (.put storeRequest.value)) writableEnv := by
  have hraw : storeRequest.NamesRaw writableEnv := .inl ⟨.inl rfl, by decide, rfl⟩
  have hop : (create 0 { regionId := 1 }).putAppend refusingCodec true storeRequest =
      some (requestEntry (.put storeRequest.value)) := rfl
  exact ⟨hraw, (putAppend_raw_iff writableEnv hop).2 hraw⟩

/-- A raw request can make every replica collect. -/
theorem putAppend_not_raw_collectRequest :
    ¬ ∀ (codec : CommandCodec) (leader : RegionPeer) (args : PutAppendArgs) (op : Op)
      (env : PeerEnv), env.engineOk = true → leader.putAppend codec true args = some op →
        ∀ (peer : RegionPeer) index, peer.stateMachineHealthy = true →
          peer.AppliesRaw index op env := by
  intro h
  have hcollects := (h refusingCodec (.create 0 { regionId := 1 }) collectRequest
    (requestEntry (.txnGarbageCollect { startTs := 18446744073709551615 })) writableEnv rfl rfl
    (.create 0 { regionId := 1 }) 1 rfl).1
  have hraw := hcollects _ executed_create
  cases hraw

end StrataKV.Region
