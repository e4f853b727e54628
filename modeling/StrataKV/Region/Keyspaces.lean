import StrataKV.Mvcc.Restart
import StrataKV.Mvcc.Scan
import StrataKV.Region.BatchApply
import StrataKV.Region.RawRequest

/-!
# Raw keys and the records of transactions

Raw Puts and Appends and the records of transactions share one flat engine, and a raw key is stored as
it is. A raw key that is none of the storage's own records, and that the recovery does not take for
one, is `Outside`: writing it changes nothing that a transaction can observe, before or after the
indexes are rebuilt, and no transactional command changes its value. Any other key interferes.
-/

namespace StrataKV.Region

open Mvcc Decimal RegionPeer Option MvccStorage List Versions
open Std (ExtTreeMap)

/-! ## Observations -/

/-- The two storages give the same answers to the calls of transactions. -/
structure SameObservations (σ τ : MvccStorage) : Prop where
  get : ∀ key readTs, σ.get key readTs = τ.get key readTs
  scan : ∀ startKey endKey readTs limit entries,
    σ.scan startKey endKey readTs limit entries = τ.scan startKey endKey readTs limit entries
  getLock : ∀ key, σ.getLock key = τ.getLock key
  checkTxnStatus : ∀ primaryKey startTs currentPhysicalMs rollbackIfExpired env,
    (σ.checkTxnStatus primaryKey startTs currentPhysicalMs rollbackIfExpired env).1 =
      (τ.checkTxnStatus primaryKey startTs currentPhysicalMs rollbackIfExpired env).1
  prepare : ∀ command, σ.prepare command = τ.prepare command

/-- What the observations are made of: the indexes and the data records. -/
structure SameRecords (σ τ : MvccStorage) : Prop where
  locks : σ.locks = τ.locks
  writes : σ.writes = τ.writes
  revisions : σ.revisions = τ.revisions
  data : ∀ key ts, σ.engine[dataKey key ts]? = τ.engine[dataKey key ts]?

namespace SameRecords

variable {σ τ : MvccStorage}

lemma refl (σ : MvccStorage) : SameRecords σ σ := ⟨rfl, rfl, rfl, fun _ _ => rfl⟩

section

variable (h : SameRecords σ τ)

include h

lemma versionsOf (key : Bytes) : σ.versionsOf key = τ.versionsOf key := by
  rw [MvccStorage.versionsOf, MvccStorage.versionsOf, h.writes]

lemma currentRevision (key : Bytes) : σ.currentRevision key = τ.currentRevision key := by
  rw [MvccStorage.currentRevision, MvccStorage.currentRevision, h.revisions]

lemma readCommitted (key : Bytes) (readTs : Ts) :
    σ.readCommitted key readTs = τ.readCommitted key readTs := by
  unfold MvccStorage.readCommitted
  simp only [h.versionsOf, h.data]

lemma scanKeys (readTs : Ts) (limit : ℕ) (entries : List (Bytes × Bytes)) (keys : List Bytes) :
    σ.scanKeys readTs limit entries keys = τ.scanKeys readTs limit entries keys := by
  induction keys generalizing entries with
  | nil => rfl
  | cons key rest ih =>
    have hblocked : σ.scanBlocked key readTs = τ.scanBlocked key readTs := by
      simp only [scanBlocked, h.locks, h.versionsOf]
    unfold MvccStorage.scanKeys
    rw [hblocked, h.readCommitted]
    split_ifs
    · rfl
    · rfl
    · split
      · exact ih _
      · exact ih _

/-- Only the lock of a pessimistic transaction is prepared with a read. -/
lemma prepare (command : Command) : σ.prepare command = τ.prepare command := by
  obtain ⟨engine, locks, writes, revisions, applied⟩ := σ
  obtain ⟨engine', locks', writes', revisions', applied'⟩ := τ
  obtain ⟨rfl, rfl, rfl, -⟩ := id h
  cases command with
  | pessimisticLock key primaryKey startTs ttlMs forUpdateTs expireAt nowMs =>
    simp only [prepare, preparePessimisticLock, h.readCommitted]
    rfl
  | _ => rfl

lemma checkTxnStatus (primaryKey : Bytes) (startTs : Ts)
    (currentPhysicalMs : UInt64) (rollbackIfExpired : Bool) (env : ApplyEnv) :
    (σ.checkTxnStatus primaryKey startTs currentPhysicalMs rollbackIfExpired env).1 =
      (τ.checkTxnStatus primaryKey startTs currentPhysicalMs rollbackIfExpired env).1 := by
  have hprepared : σ.prepareCheckTxnStatus primaryKey startTs currentPhysicalMs rollbackIfExpired =
      τ.prepareCheckTxnStatus primaryKey startTs currentPhysicalMs rollbackIfExpired := by
    have hcommand := h.prepare (.checkTxnStatus primaryKey startTs currentPhysicalMs
      rollbackIfExpired)
    simp only [MvccStorage.prepare, some.injEq, Proposal.single.injEq, true_and] at hcommand
    exact hcommand
  obtain ⟨mods, hcarries⟩ : ∃ mods, (τ.prepareCheckTxnStatus primaryKey startTs currentPhysicalMs
      rollbackIfExpired).Carries primaryKey mods :=
    @MvccStorage.prepare_carries τ _ (.checkTxnStatus primaryKey startTs currentPhysicalMs
      rollbackIfExpired) rfl
  -- whether the write is applied depends on the revision only
  have hstatus (prepared : PreparedMvccWrite) (hown : prepared.Carries primaryKey mods) :
      (σ.applyPrepared primaryKey prepared 0 env).1 =
        (τ.applyPrepared primaryKey prepared 0 env).1 := by
    have hfresh (ρ : MvccStorage) : ¬ρ.Stale 0 := fun hstale => hstale.1 rfl
    rw [applyPrepared_eq hown, applyPrepared_eq hown, if_neg (hfresh σ),
      if_neg (hfresh τ), h.currentRevision]
    split_ifs <;> rfl
  unfold MvccStorage.checkTxnStatus
  rw [hprepared]
  simp only [hstatus _ hcarries]
  split_ifs <;> rfl

theorem observations : SameObservations σ τ where
  get key readTs := by
    unfold MvccStorage.get
    simp only [h.versionsOf, h.locks, h.data]
  scan startKey endKey readTs limit entries := by
    unfold scan scanNames
    simp only [h.scanKeys, h.writes, h.locks]
  getLock key := by rw [getLock, getLock, h.locks]
  checkTxnStatus := h.checkTxnStatus
  prepare := h.prepare

end

end SameRecords

open MvccStorage

/-! ## Keys outside the records -/

/-- The key is no record of the storage, and the recovery does not take it for one. -/
structure Outside (key : Bytes) : Prop where
  data : ∀ k ts, key ≠ dataKey k ts
  lock : ∀ k, key ≠ lockKey k
  write : (ascii "write/").isPrefixOf key = true →
    splitKeyTs (stripPrefix key (ascii "write/")) = none
  revision : ∀ k, key ≠ revisionKey k
  applied : key ≠ appliedRaftIndexKey

section

variable {key value : Bytes} {engine : Engine}

lemma Outside.writeKey (h : Outside key) (k : Bytes) (ts : Ts) : key ≠ writeKey k ts := by
  rintro rfl
  have hsplit := h.write (isPrefixOf_writeKey k ts)
  rw [stripPrefix_writeKey, splitKeyTs_append] at hsplit
  cases hsplit

lemma getElem?_insert_of_ne {x : Bytes} (h : key ≠ x) :
    (engine.insert key value)[x]? = engine[x]? := by
  rw [OrdMap.getElem?_insert, if_neg h]

/-- The records of another table are scanned as before. -/
lemma scanPrefix_insert {start : Bytes} (h : start.isPrefixOf key = false) :
    scanPrefix (engine.insert key value) start = scanPrefix engine start := by
  refine OrdMap.filter_toList_congr fun k v hk => ?_
  have hne : key ≠ k := by
    rintro rfl
    simp [h] at hk
  rw [getElem?_insert_of_ne hne]

lemma isPrefixOf_eq_false {start : Bytes} (h : ∀ rest, key ≠ start ++ rest) :
    start.isPrefixOf key = false := by
  rw [← Bool.not_eq_true, isPrefixOf_iff_prefix]
  rintro ⟨rest, hrest⟩
  exact h rest hrest.symm

/-- The chains are those of the records with a timestamp. -/
lemma foldl_recoverWrite_eq (items : List (Bytes × Bytes))
    (writes : ExtTreeMap Bytes Versions compare) :
    items.foldl recoverWrite writes =
      (items.filter fun item => (splitKeyTs (stripPrefix item.1 (ascii "write/"))).isSome).foldl
        recoverWrite writes := by
  induction items generalizing writes with
  | nil => rfl
  | cons item rest ih =>
    cases hsplit : splitKeyTs (stripPrefix item.1 (ascii "write/")) with
    | none =>
      have hskip : recoverWrite writes item = writes := by simp only [recoverWrite, hsplit]
      simp only [foldl_cons, hskip, filter_cons, hsplit, isSome_none,
        Bool.false_eq_true, if_false, ih]
    | some place =>
      simp only [foldl_cons, filter_cons, hsplit, isSome_some, if_true, ih]

namespace Outside

/-- The indexes that are read before the locks do not see the key. -/
lemma opened_insert (h : Outside key) :
    (opened (engine.insert key value)).writes = (opened engine).writes ∧
      (opened (engine.insert key value)).revisions = (opened engine).revisions := by
  constructor
  · simp only [opened]
    rw [foldl_recoverWrite_eq, foldl_recoverWrite_eq (scanPrefix engine _)]
    simp only [scanPrefix, List.filter_filter]
    refine congrArg (List.foldl recoverWrite ∅) (OrdMap.filter_toList_congr ?_)
    intro k v hk
    have hne : key ≠ k := by
      rintro rfl
      simp only [Bool.and_eq_true] at hk
      rw [h.write hk.2] at hk
      exact absurd hk.1 (by simp)
    rw [getElem?_insert_of_ne hne]
  · simp only [opened]
    rw [scanPrefix_insert (isPrefixOf_eq_false h.revision)]

/-- Rebuilding the indexes does not see the key. -/
lemma sameRecords_recover (h : Outside key) (nowMs : UInt64) :
    SameRecords (recoverMetadataFromEngine nowMs engine)
      (recoverMetadataFromEngine nowMs (engine.insert key value)) := by
  have hbefore : Recovered engine _ := recovered nowMs
  have hafter : Recovered (engine.insert key value) _ := recovered nowMs
  obtain ⟨hwrites, hrevisions⟩ := @opened_insert key value engine h
  have hfinished (k : Bytes) : finished (engine.insert key value) k = finished engine k := by
    funext lock
    rw [finished, finished, versionsOf, hwrites]
    rfl
  have hvalue (k : Bytes) : withValue (engine.insert key value) k = withValue engine k := by
    funext lock
    rw [withValue, getElem?_insert_of_ne (h.data k lock.startTs)]
    rfl
  refine ⟨?_, ?_, ?_, fun k ts => ?_⟩
  · refine ExtTreeMap.ext_getElem? fun k => ?_
    rw [locks_recover, locks_recover, hfinished, hvalue, getElem?_insert_of_ne (h.lock k)]
  · rw [hbefore.writes, hafter.writes, hwrites]
  · rw [hbefore.revisions, hafter.revisions, hrevisions]
  · rw [hbefore.others _ fun k' => dataKey_ne_lockKey k k' ts,
      hafter.others _ fun k' => dataKey_ne_lockKey k k' ts, getElem?_insert_of_ne (h.data k ts)]

end Outside

end

/-! ## Raw writes and transactional commands -/

/-- A raw Put or Append. -/
def Operation.writesRaw : Operation → Bool
  | .put _ | .append _ => true
  | _ => false

/-- A command of transactions. -/
def Operation.isTxn : Operation → Bool
  | .txnGet _ | .txnPrepared _ | .txnPreparedBatch _ | .txnPrewrite _ | .txnCommit _
  | .txnRollback _ | .txnAcquirePessimisticLock _ | .txnGarbageCollect _ => true
  | _ => false

/-- The value that a raw Get of the key returns. -/
def RegionPeer.rawGet (peer : RegionPeer) (key : Bytes) : Option Bytes := peer.storage.engine[key]?

section

variable {peer peer' : RegionPeer} {index : ℕ} {op : Op} {env : PeerEnv} {status : OpStatus}
  {succeeded : Bool} {key : Bytes} {σ τ : MvccStorage}

/-- What an applied entry leaves of the storage is what its execution leaves. -/
lemma applyCommand_storage (h : peer.applyCommand index op env = some (succeeded, status, peer')) :
    peer'.storage = peer.storage ∨ peer'.storage = (peer.executeDuplicate op env).2.storage ∨
      ∃ executed, peer.execute index op env = some (succeeded, status, executed) ∧
        peer'.storage = executed.storage := by
  obtain ⟨executed, hget, heq⟩ := applyCommand_eq h
  have hstorage : peer'.storage = executed.storage := by
    rw [heq]
    split <;> rfl
  unfold getCommandFromRaft at hget
  split at hget
  · cases hget
    exact .inl hstorage
  · split at hget
    · simp only [some.injEq, Prod.mk.injEq] at hget
      obtain ⟨-, -, rfl⟩ := hget
      exact .inr (.inl hstorage)
    · exact .inr (.inr ⟨executed, hget, hstorage⟩)

/-- A raw write puts a value under its key, or nothing. -/
lemma applyCommand_writesRaw (hraw : op.operation.writesRaw = true)
    (h : peer.applyCommand index op env = some (succeeded, status, peer')) :
    peer'.storage = peer.storage ∨ ∃ value, peer'.storage =
      { peer.storage with engine := peer.storage.engine.insert op.key value } := by
  obtain ⟨operation, key, clientId, requestId⟩ := op
  rcases applyCommand_storage h with heq | heq | ⟨executed, hexecute, heq⟩
  · exact .inl heq
  · refine .inl (heq.trans ?_)
    cases operation with
    | put value | append value => rfl
    | _ => cases hraw
  · cases operation with
    | put value | append value =>
      simp only [execute] at hexecute
      split at hexecute
      · simp only [some.injEq, Prod.mk.injEq] at hexecute
        obtain ⟨-, -, rfl⟩ := hexecute
        exact .inr ⟨_, heq⟩
      · simp only [some.injEq, Prod.mk.injEq] at hexecute
        obtain ⟨-, -, rfl⟩ := hexecute
        exact .inl heq
    | _ => cases hraw

namespace Outside

section

variable (h : Outside key)

include h

lemma ne_recordKey {x : Bytes} (hx : RecordKey x) : x ≠ key := by
  rcases hx with ⟨k, ts, rfl⟩ | ⟨k, rfl⟩ | ⟨k, ts, rfl⟩ | ⟨k, rfl⟩
  · exact (h.data k ts).symm
  · exact (h.lock k).symm
  · exact (h.writeKey k ts).symm
  · exact (h.revision k).symm

lemma of_writesRecords (hwrites : σ.WritesRecords τ) : τ.engine[key]? = σ.engine[key]? := by
  obtain ⟨ops, hengine, hops⟩ := hwrites.engine
  rw [hengine, getElem?_writeBatch_of_forall_ne _ fun op hop =>
    h.ne_recordKey (hops op hop)]

/-- The replay of a prepared command writes records and the applied index. -/
lemma of_writes {raftIndex nowMs : UInt64}
    (hwrites : σ.Writes τ raftIndex nowMs) : τ.engine[key]? = σ.engine[key]? := by
  obtain ⟨ops, hops, rfl⟩ := hwrites
  have hbatch : (σ.afterWrites nowMs ops).engine[key]? = σ.engine[key]? := by
    refine getElem?_writeBatch_of_forall_ne _ fun op hop => ?_
    obtain ⟨k, m, -, rfl⟩ := hops op hop
    refine h.ne_recordKey ?_
    cases m with
    | putData ts value | delData ts => exact .data k ts
    | putLock lock | delLock => exact .lock k
    | putWrite ts write => exact .write k ts
    | putRevision revision => exact .revision k
  by_cases hindex : raftIndex = 0
  · rw [recordIndex, if_pos hindex]
    exact hbatch
  · rw [recordIndex, if_neg hindex]
    exact (getElem?_insert_of_ne h.applied.symm).trans hbatch

lemma apply {proposal : Proposal} (hcarries : proposal.Carries)
    (raftIndex : UInt64) (env : ApplyEnv) :
    (proposal.apply σ raftIndex env).2.engine[key]? = σ.engine[key]? := by
  rcases proposal.apply_cases hcarries σ raftIndex env with heq | hwrites
  · rw [heq]
  · exact h.of_writes hwrites

lemma applyCommand (htxn : op.operation.isTxn = true) (hproposed : op.Proposed)
    (happly : peer.applyCommand index op env = some (succeeded, status, peer')) :
    peer'.rawGet key = peer.rawGet key := by
  obtain ⟨operation, k, clientId, requestId⟩ := op
  unfold rawGet
  rcases applyCommand_storage happly with heq | heq | ⟨executed, hexecute, heq⟩
  · rw [heq]
  · rw [heq]
    exact h.of_writesRecords executeDuplicate_writesRecords
  · rw [heq]
    cases operation with
    | txnPrepared prepared =>
      simp only [execute, some.injEq, Prod.mk.injEq] at hexecute
      obtain ⟨-, -, rfl⟩ := hexecute
      cases prepared with
      | none => rfl
      | some write =>
        obtain ⟨leader, command, hprepare⟩ := hproposed
        exact h.apply (prepare_carries hprepare) _ _
    | txnPreparedBatch prepared =>
      have hstorage : executed.storage = (applyParsedBatch peer.storage prepared index env).2 := by
        simp only [execute] at hexecute
        split at hexecute
        all_goals
          simp only [some.injEq, Prod.mk.injEq] at hexecute
          obtain ⟨-, -, rfl⟩ := hexecute
          rfl
      rw [hstorage]
      cases prepared with
      | none => rfl
      | some batch =>
        obtain ⟨leader, command, hprepare⟩ := hproposed
        exact h.apply (prepare_carries hprepare) _ _
    | txnGet | txnPrewrite | txnCommit | txnRollback | txnAcquirePessimisticLock
    | txnGarbageCollect =>
      obtain ⟨_, _, _, _, _, _, _, _, rfl, hwrites⟩ := execute_eq hexecute
      exact h.of_writesRecords (hwrites (by simp) (by simp) (by simp) (by simp))
    | _ => cases htxn

lemma tryBatchApplyFromRaft {messages : List (ℕ × Op)}
    (hproposed : ∀ m ∈ messages, m.2.Proposed) (peer : RegionPeer) (env : PeerEnv) :
    (peer.tryBatchApplyFromRaft messages env).2.rawGet key = peer.rawGet key := by
  cases happlied : peer.tryBatchApplyFromRaft messages env with
  | mk ok peer' =>
    cases ok with
    | false =>
      exact congrArg (fun σ : MvccStorage => σ.engine[key]?)
        (tryBatchApplyFromRaft_storage_of_refused hproposed happlied)
    | true =>
      obtain ⟨-, commands, hcommands, -, hok, rfl⟩ := tryBatchApplyFromRaft_applied happlied
      have hcarries := carries_of_mapM hproposed hcommands
      exact applyEach_induction (P := fun σ => σ.engine[key]? = peer.rawGet key)
        (fun _ _ hown raftIndex heq => (h.apply hown raftIndex _).trans heq) hcarries rfl
        (applyEach_of_applyPreparedCommandsAtomically hcarries (Prod.ext hok rfl)).1

end

end Outside

end

/-! ## Keys that are kept apart -/

/-- The transactions see the same on both peers, now, after a restart, and after a snapshot is
restored by the peer itself or by another replica. -/
structure Unobserved (peer peer' : RegionPeer) : Prop where
  now : SameObservations peer.storage peer'.storage
  restart : ∀ descriptor env, SameObservations (peer.restart descriptor none env).storage
    (peer'.restart descriptor none env).storage
  restartFromSnapshot : ∀ descriptor index env,
    SameObservations (peer.restart descriptor (some (index, peer.makeSnapShot)) env).storage
      (peer'.restart descriptor (some (index, peer'.makeSnapShot)) env).storage
  snapshot : ∀ (replica : RegionPeer) index env,
    SameObservations (replica.getSnapShotFromRaft index peer.makeSnapShot env).storage
      (replica.getSnapShotFromRaft index peer'.makeSnapShot env).storage

/-- Transactional entries, one after another or in batches. -/
inductive TxnRun (peer : RegionPeer) : RegionPeer → Prop
  | refl : TxnRun peer peer
  | entry {current next : RegionPeer} {index : ℕ} {op : Op} {env : PeerEnv} {succeeded : Bool}
      {status : OpStatus} : TxnRun peer current → op.operation.isTxn = true → op.Proposed →
      current.applyCommand index op env = some (succeeded, status, next) → TxnRun peer next
  | batch {current : RegionPeer} {messages : List (ℕ × Op)} {env : PeerEnv} :
      TxnRun peer current → (∀ m ∈ messages, m.2.Proposed) →
      TxnRun peer (current.tryBatchApplyFromRaft messages env).2

/-- On every peer a raw write to the key is not observed by transactions, and transactional commands
do not change what it has written. -/
structure KeptApart (key : Bytes) : Prop where
  unobserved : ∀ (peer peer' : RegionPeer) index op env succeeded status,
    op.operation.writesRaw = true → op.key = key →
    peer.applyCommand index op env = some (succeeded, status, peer') → Unobserved peer peer'
  untouched : ∀ (peer peer' later : RegionPeer) index op env succeeded status,
    op.operation.writesRaw = true → op.key = key →
    peer.applyCommand index op env = some (succeeded, status, peer') → TxnRun peer' later →
    later.rawGet key = peer'.rawGet key

section

variable {key : Bytes}

lemma Outside.txnRun (h : Outside key) {peer later : RegionPeer} (hrun : TxnRun peer later) :
    later.rawGet key = peer.rawGet key := by
  induction hrun with
  | refl => rfl
  | entry _ htxn hproposed happly ih => exact (h.applyCommand htxn hproposed happly).trans ih
  | batch _ hproposed ih => exact (h.tryBatchApplyFromRaft hproposed _ _).trans ih

/-- Peers with the same records, also after a recovery, are told apart by nothing. -/
lemma Unobserved.of_sameRecords {peer peer' : RegionPeer}
    (hnow : SameRecords peer.storage peer'.storage)
    (hrecover : ∀ nowMs, SameRecords (recoverMetadataFromEngine nowMs peer.storage.engine)
        (recoverMetadataFromEngine nowMs peer'.storage.engine)) : Unobserved peer peer' where
  now := hnow.observations
  restart _ env := (hrecover env.nowMs).observations
  restartFromSnapshot _ _ env := (hrecover env.nowMs).observations
  snapshot replica index env := by
    cases hok : env.engineOk with
    | true =>
      simp only [getSnapShotFromRaft, hok, Bool.not_true, Bool.false_eq_true, if_false]
      exact (hrecover env.nowMs).observations
    | false =>
      simp only [getSnapShotFromRaft, hok, Bool.not_false, if_true]
      exact (SameRecords.refl replica.storage).observations

theorem Outside.keptApart (h : Outside key) : KeptApart key where
  unobserved peer peer' index op env succeeded status hraw hkey happly := by
    rcases applyCommand_writesRaw hraw happly with heq | ⟨value, heq⟩
    · refine .of_sameRecords ?_ fun nowMs => ?_
      · rw [heq]
        exact .refl _
      · rw [heq]
        exact .refl _
    · rw [hkey] at heq
      refine .of_sameRecords ?_ fun nowMs => ?_
      · rw [heq]
        exact ⟨rfl, rfl, rfl, fun k ts => (getElem?_insert_of_ne (h.data k ts)).symm⟩
      · rw [heq]
        exact h.sameRecords_recover nowMs
  untouched peer peer' later index op env succeeded status _ _ _ hrun := h.txnRun hrun

/-! ## Keys that interfere -/

/-- The raw Put of the key, on a new replica. -/
def rawPut (key value : Bytes) : Op where
  operation := .put value
  key := key
  clientId := [1]
  requestId := 1

/-- A new replica that has applied the Put. -/
def putPeer (key value : Bytes) : RegionPeer :=
  { RegionPeer.create 0 {} with
    storage := { engine := (∅ : Engine).insert key value }
    lastRequestId := (∅ : ExtTreeMap Bytes Int32 compare).insert [1] 1
    stateMachineAppliedIndex := 1 }

lemma applyCommand_rawPut (value : Bytes) :
    (create 0 {}).applyCommand 1 (rawPut key value) writableEnv =
      some (true, .unset, putPeer key value) := by
  rw [applyCommand_create]
  rfl

/-- The prewrite of another client, prepared on the empty storage. -/
def prewriteEntry (k : Bytes) (ts : Ts) : Op where
  operation := .txnPrepared (some (({} : MvccStorage).preparePrewrite k [1] [] ts 0 false 0 0 0))
  key := k
  clientId := [2]
  requestId := 1

lemma proposed_prewriteEntry (k : Bytes) (ts : Ts) : (prewriteEntry k ts).Proposed :=
  ⟨{}, .prewrite k [1] ⟨[], by decide⟩ ts 0 false 0 0 0, rfl⟩

lemma preparePrewrite_empty (k : Bytes) (ts : Ts) : ∃ lock : MvccLock, lock.primaryKey = [] ∧
      ({} : MvccStorage).preparePrewrite k [1] [] ts 0 false 0 0 0 =
        { status := .ok
          newRevision := 1
          modifications := [⟨.put, dataKey k ts, [1]⟩, ⟨.put, lockKey k, encodeLockValue lock⟩,
            ⟨.put, revisionKey k, toDecimal 1⟩] } := by
  refine ⟨prewriteLockRecord none [1] [] ts 0 false 0 0 0, rfl, ?_⟩
  simp [preparePrewrite, prewriteLockCheck, versionsOf,
    currentRevision, hasRollback, reaches, revisionMutation]

lemma exists_prewritten (key k : Bytes) (ts : Ts) :
    ∃ (later : RegionPeer) (lock : MvccLock), TxnRun (putPeer key []) later ∧
      lock.primaryKey = [] ∧ later.storage.engine = (((((∅ : Engine).insert key []).insert
        (dataKey k ts) [1]).insert (lockKey k) (encodeLockValue lock)).insert (revisionKey k)
          (toDecimal 1)).insert appliedRaftIndexKey (toDecimal 2) := by
  obtain ⟨lock, hprimary, hprepared⟩ := preparePrewrite_empty k ts
  obtain ⟨mods, hcarries⟩ : ∃ mods, (({} : MvccStorage).preparePrewrite k [1] [] ts 0 false 0 0
      0).Carries k mods := by
    obtain ⟨leader, command, hprepare⟩ := proposed_prewriteEntry k ts
    exact prepare_carries hprepare
  have happlied : (putPeer key []).storage.applyPrepared k
      (({} : MvccStorage).preparePrewrite k [1] [] ts 0 false 0 0 0) 2 writableEnv.toApplyEnv =
      (.ok, (putPeer key []).storage.afterOps 0
        (({} : MvccStorage).preparePrewrite k [1] [] ts 0 false 0 0 0).modifications 2) := by
    have hfresh : (putPeer key []).storage.appliedRaftIndex < 2 := show (0 : UInt64) < 2 by decide
    refine applyPrepared_passed hcarries (by decide) hfresh ?_ ?_ rfl
    · rw [hprepared]
      simp [PreparedMvccWrite.kLegacyCommandVersion]
    · rw [hprepared]
      simp [putPeer, currentRevision]
  have hexecute : (putPeer key []).applyCommand 2 (prewriteEntry k ts) writableEnv =
      some (true, .txn .ok, (((putPeer key []).withStorage ((putPeer key []).storage.afterOps 0
        (({} : MvccStorage).preparePrewrite k [1] [] ts 0 false 0 0 0).modifications
          2)).markRequest (prewriteEntry k ts)).advanceStateMachineApplied 2) := by
    have hduplicate : (putPeer key []).ifRequestDuplicate [2] 1 = false := by
      simp [putPeer, ifRequestDuplicate]
    have hparsed : applyParsed (putPeer key []).storage k
        (some (({} : MvccStorage).preparePrewrite k [1] [] ts 0 false 0 0 0)) 2 writableEnv = _ :=
      happlied
    simp only [applyCommand, getCommandFromRaft, execute, prewriteEntry, hduplicate, hparsed]
    rfl
  refine ⟨_, lock, TxnRun.refl.entry rfl (proposed_prewriteEntry k ts) hexecute, hprimary, ?_⟩
  simp only [advanceStateMachineApplied, markRequest, withStorage, afterOps, hprepared]
  rfl

lemma encodeLockValue_ne_nil {lock : MvccLock} (h : lock.primaryKey = []) :
    encodeLockValue lock ≠ [] := by
  intro hnil
  have hdecode := decodeLockValue_encodeLockValue 0 lock (by rw [h]; decide)
  rw [hnil] at hdecode
  exact absurd hdecode (by rw [show decodeLockValue 0 [] = none from rfl]; simp)

/-- A key that a prewrite can write does not keep its raw value. -/
lemma KeptApart.ne_of_prewritten (h : KeptApart key) (k : Bytes) (ts : Ts) :
    key ≠ dataKey k ts ∧ key ≠ lockKey k ∧ key ≠ revisionKey k ∧ key ≠ appliedRaftIndexKey := by
  obtain ⟨later, lock, hrun, hprimary, hengine⟩ := exists_prewritten key k ts
  have hkept := h.untouched _ _ later 1 (rawPut key []) writableEnv true .unset rfl rfl
    (applyCommand_rawPut []) hrun
  have hwritten : (putPeer key []).rawGet key = some [] := by simp [putPeer, rawGet]
  rw [hwritten, rawGet, hengine] at hkept
  simp only [OrdMap.getElem?_insert] at hkept
  have hdecimal (n : ℕ) (hn : n = 1 ∨ n = 2) : toDecimal n ≠ [] := by
    rcases hn with rfl | rfl <;> decide
  refine ⟨?_, ?_, ?_, ?_⟩
  · rintro rfl
    simp at hkept
  · rintro rfl
    simp [encodeLockValue_ne_nil hprimary, (lockKey_ne_appliedRaftIndexKey k).symm] at hkept
  · rintro rfl
    simp [hdecimal, (revisionKey_ne_appliedRaftIndexKey k).symm] at hkept
  · rintro rfl
    simp [hdecimal] at hkept

lemma scanPrefix_singleton {start value : Bytes} (h : start.isPrefixOf key = true) :
    scanPrefix ((∅ : Engine).insert key value) start = [(key, value)] := by
  have hmem (item : Bytes × Bytes) :
      item ∈ scanPrefix ((∅ : Engine).insert key value) start ↔ item ∈ [(key, value)] := by
    obtain ⟨k, v⟩ := item
    rw [mem_scanPrefix, OrdMap.getElem?_insert, mem_singleton, Prod.mk.injEq]
    constructor
    · rintro ⟨hget, -⟩
      split_ifs at hget with hk
      · exact ⟨hk.symm, (some.inj hget).symm⟩
      · simp at hget
    · rintro ⟨rfl, rfl⟩
      exact ⟨if_pos rfl, h⟩
  have hnodup : (scanPrefix ((∅ : Engine).insert key value) start).Nodup := by
    refine Nodup.filter _ (ExtTreeMap.ordered_keys_toList.imp ?_)
    rintro a b hlt rfl
    rw [Std.compare_self] at hlt
    cases hlt
  exact perm_singleton.1 ((perm_ext_iff_of_nodup hnodup (nodup_singleton _)).2 hmem)

/-- The record that a recovery makes of a raw value: a commit of the transaction that starts at 5. -/
def forgedWrite : MvccWrite where
  startTs := 5
  commitTs := 0
  type := .put

lemma prepareRollback_status_of_none {σ : MvccStorage} {k : Bytes} {startTs : Ts}
    (h : (σ.versionsOf k).recordOf startTs = none) : (σ.prepareRollback k startTs).status = .ok := by
  unfold prepareRollback
  rw [h]

lemma prepareRollback_status_of_record {σ : MvccStorage} {k : Bytes} {startTs c : Ts}
    {w : MvccWrite} (hget : (σ.versionsOf k)[c]? = some w) (hstart : w.startTs = startTs)
    (hall : ∀ (c : Ts) (w : MvccWrite), (σ.versionsOf k)[c]? = some w → w.type ≠ .rollback) :
    (σ.prepareRollback k startTs).status = .alreadyCommitted := by
  unfold prepareRollback
  cases hrecord : (σ.versionsOf k).recordOf startTs with
  | none => exact absurd hstart (recordOf_eq_none.1 hrecord c w hget)
  | some item =>
    obtain ⟨c', w'⟩ := item
    exact if_neg (hall c' w' (recordOf_eq_some hrecord).1)

/-- A key that the recovery takes for a write record is observed by a rollback after a restart. -/
lemma KeptApart.splitKeyTs_eq_none (h : KeptApart key)
    (hstart : (ascii "write/").isPrefixOf key = true) :
    splitKeyTs (stripPrefix key (ascii "write/")) = none := by
  by_contra hsome
  obtain ⟨⟨k, ts⟩, hsplit⟩ := ne_none_iff_exists'.1 hsome
  have hsame := ((h.unobserved _ _ 1 (rawPut key (encodeWriteValue forgedWrite)) writableEnv true
    .unset rfl rfl (applyCommand_rawPut _)).restart {} writableEnv).prepare (.rollback k 5)
  change some (Proposal.single k ((recoverMetadataFromEngine 0 ∅).prepareRollback k 5)) =
    some (Proposal.single k ((recoverMetadataFromEngine 0
      ((∅ : Engine).insert key (encodeWriteValue forgedWrite))).prepareRollback k 5)) at hsame
  have hversions : (recoverMetadataFromEngine 0
      ((∅ : Engine).insert key (encodeWriteValue forgedWrite))).versionsOf k =
      (∅ : Versions).insert ts { forgedWrite with commitTs := ts } := by
    rw [versionsOf, (recovered 0).writes, opened, scanPrefix_singleton hstart]
    simp [recoverWrite, hsplit, decodeWriteValue_encodeWriteValue, forgedWrite]
  have hfree : ((recoverMetadataFromEngine 0 ∅).prepareRollback k 5).status = .ok := by
    refine prepareRollback_status_of_none (recordOf_eq_none.2 fun c w hget => ?_)
    rw [versionsOf_recover durable_empty.canonical] at hget
    simp at hget
  have hcommitted : ((recoverMetadataFromEngine 0
      ((∅ : Engine).insert key (encodeWriteValue forgedWrite))).prepareRollback k 5).status =
      .alreadyCommitted := by
    have hget (c : Ts) : ((recoverMetadataFromEngine 0 ((∅ : Engine).insert key
        (encodeWriteValue forgedWrite))).versionsOf k)[c]? =
        if ts = c then some { forgedWrite with commitTs := ts } else none := by
      rw [hversions, OrdMap.getElem?_insert]
      simp
    refine prepareRollback_status_of_record ((hget ts).trans (if_pos rfl)) rfl fun c w hw => ?_
    rw [hget] at hw
    split at hw
    · cases hw
      exact MvccWriteType.noConfusion
    · cases hw
  simp only [some.injEq, Proposal.single.injEq, true_and] at hsame
  rw [hsame, hcommitted] at hfree
  cases hfree

/-- A raw key is kept apart from the transactions if and only if it is outside their records. -/
theorem keptApart_iff_outside (key : Bytes) : KeptApart key ↔ Outside key := by
  constructor
  · intro h
    exact
      { data := fun k ts => (h.ne_of_prewritten k ts).1
        lock := fun k => (h.ne_of_prewritten k 0).2.1
        write := h.splitKeyTs_eq_none
        revision := fun k => (h.ne_of_prewritten k 0).2.2.1
        applied := (h.ne_of_prewritten [] 0).2.2.2 }
  · exact Outside.keptApart

end

/-- A transaction commits the value 7. -/
def committedSteps : List Step :=
  [{ command := .prewrite [1] [7] ⟨[1], one_lt_maxSize⟩ 10 100 false 0 0 0 },
    { command := .commit [1] 10 20 }]

/-- A raw Put under the key of the data record changes the value that every later transaction
reads. -/
theorem not_keptApart_dataKey : ¬∀ key, KeptApart key := by
  intro h
  let peer : RegionPeer :=
    { create 0 {} with storage := empty.run committedSteps }
  let peer' : RegionPeer :=
    ((peer.withStorage { peer.storage with
      engine := peer.storage.engine.insert (dataKey [1] 10) [9] }).markRequest
        (rawPut (dataKey [1] 10) [9])).advanceStateMachineApplied 3
  have happly : peer.applyCommand 3 (rawPut (dataKey [1] 10) [9]) writableEnv =
      some (true, .unset, peer') := by
    have hduplicate : peer.ifRequestDuplicate [1] 1 = false := by
      simp [peer, create, ifRequestDuplicate]
    simp only [applyCommand, getCommandFromRaft, execute, rawPut, hduplicate]
    rfl
  have hsame := ((h (dataKey [1] 10)).unobserved peer peer' 3 _ writableEnv true .unset rfl rfl
    happly).now.get [1] 30
  have hbefore : peer.storage.get [1] 30 = (.ok, some [7]) := by decide
  have hafter : peer'.storage.get [1] 30 = (.ok, some [9]) := by decide
  rw [hbefore, hafter] at hsame
  cases hsame

end StrataKV.Region
