import StrataKV.Txn.Inv

/-!
# Steps of the coordinator

A step of the coordinator changes nothing in the regions. What it may send and how it may go on is
said once, by `Coordinates`, and shown for each function of the coordinator; that such a step keeps
the invariant follows from it (`Coordinates.inv`).
-/

namespace StrataKV.Txn

open Mvcc World Transaction List KeyCommand

section

variable {cfg : Config} {isStart : Ts → Prop} {txn : Transaction} {w w' : World}

/-! ## Messages -/

/-- A rollback is part of the transaction. -/
lemma partOf_rollback (hstart : isStart txn.startTs) (key : Bytes) :
    PartOf isStart txn (.rollback key txn.startTs) :=
  ⟨rfl, ⟨hstart, trivial⟩, by simp [primaryKey?]⟩

variable {commitTs : Ts}

/-- So is a commit at a commit timestamp. -/
lemma partOf_commit (hstart : isStart txn.startTs) (hts : ¬isStart commitTs) (key : Bytes) :
    PartOf isStart txn (.commit key txn.startTs commitTs) :=
  ⟨rfl, ⟨hstart, hts⟩, by simp [primaryKey?]⟩

variable {region : ℕ} {keys : List Bytes} {mutations : List MvccMutation}

section

variable (hstart : isStart txn.startTs)

include hstart

/-- A key with a mutation may be rolled back once the outcome is decided. -/
lemma messageOk_rollback (hroute : ∀ key ∈ keys, cfg.route key = region)
    (hshape : cfg.batchEnabled = true ∨ ∃ key, keys = [key])
    (hdecided : ∀ key ∈ keys, txn.hasMutation key = true → w.Decided cfg txn) :
    MessageOk cfg isStart txn w ⟨.coordinator, region, cfg.rollbackCommand txn.startTs keys⟩ := by
  unfold Config.rollbackCommand
  split_ifs with henabled
  · refine ⟨hroute, rfl, fun c hc => ?_, fun key s ts hc => ?_, by simp, hdecided⟩
    · obtain ⟨key, -, rfl⟩ := mem_map.1 hc
      exact partOf_rollback hstart key
    · obtain ⟨key, -, heq⟩ := mem_map.1 hc
      cases heq
  · obtain ⟨key, rfl⟩ := hshape.resolve_left henabled
    refine ⟨hroute, rfl, fun c hc => ?_, by simp [Command.parts], by simp, fun key' hkey => ?_⟩
    · rw [mem_singleton.1 hc]
      exact partOf_rollback hstart key
    · exact hdecided key' (mem_singleton.2 hkey.symm)

/-- Commits of the other keys may be sent once the primary is committed. -/
lemma messageOk_commit (hts : ¬isStart commitTs) (hroute : ∀ key ∈ keys, cfg.route key = region)
    (hshape : cfg.batchEnabled = true ∨ ∃ key, keys = [key])
    (hprimary : w.Committed cfg txn txn.primaryKey) :
    MessageOk cfg isStart txn w
      ⟨.coordinator, region, cfg.commitCommand txn.startTs commitTs keys⟩ := by
  unfold Config.commitCommand
  split_ifs with henabled
  · refine ⟨hroute, rfl, fun c hc => ?_, fun _ _ _ _ => .inr hprimary, by simp,
      fun key hkey => hkey.elim⟩
    obtain ⟨key, -, rfl⟩ := mem_map.1 hc
    exact partOf_commit hstart hts key
  · obtain ⟨key, rfl⟩ := hshape.resolve_left henabled
    refine ⟨hroute, rfl, fun c hc => ?_, fun _ _ _ _ => .inr hprimary, by simp,
      fun key' hkey => hkey.elim⟩
    rw [mem_singleton.1 hc]
    exact partOf_commit hstart hts key

/-- The commit of the primary may be sent: it decides. -/
lemma messageOk_commitPrimary (hts : ¬isStart commitTs) : MessageOk cfg isStart txn w
      ⟨.coordinator, cfg.route txn.primaryKey, .commit txn.primaryKey txn.startTs commitTs⟩ := by
  refine ⟨by simp [keysOf], rfl, fun c hc => ?_, fun _ _ _ _ => .inl (by simp [isPrimaryCommit]),
    by simp, fun key hkey => hkey.elim⟩
  rw [mem_singleton.1 hc]
  exact partOf_commit hstart hts txn.primaryKey

/-- The primary may be asked for its status. -/
lemma messageOk_check (sender : Sender) (nowMs : UInt64) (rollbackIfExpired : Bool) :
    MessageOk cfg isStart txn w ⟨sender, cfg.route txn.primaryKey,
      .checkTxnStatus txn.primaryKey txn.startTs nowMs rollbackIfExpired⟩ := by
  have hpart : ∀ c ∈ (Command.checkTxnStatus txn.primaryKey txn.startTs nowMs
      rollbackIfExpired).parts, c = .rollback txn.primaryKey txn.startTs := by
    intro c hc
    cases rollbackIfExpired with
    | true => exact mem_singleton.1 hc
    | false => exact absurd hc not_mem_nil
  refine ⟨by simp [keysOf], rfl, fun c hc => ?_, fun k s ts hc => ?_, fun key s now rollback heq => ?_,
    fun key hkey => hkey.elim⟩
  · rw [hpart c hc]
    exact partOf_rollback hstart txn.primaryKey
  · cases hpart _ hc
  · cases heq
    exact ⟨rfl, rfl⟩

/-- A resolution commits only when the primary is committed. -/
lemma messageOk_resolve (sender : Sender) (key : Bytes) {decision : TxnRecordState}
    (hcommitted : decision = .committed → w.Committed cfg txn txn.primaryKey ∧ ¬isStart commitTs) :
    MessageOk cfg isStart txn w
      ⟨sender, cfg.route key, .resolveLock key txn.startTs decision commitTs⟩ := by
  have hpart : ∀ c ∈ (Command.resolveLock key txn.startTs decision commitTs).parts,
      c = .commit key txn.startTs commitTs ∧ decision = .committed ∨
        c = .rollback key txn.startTs := by
    intro c hc
    simp only [Command.parts] at hc
    split at hc
    · rename_i hd
      exact .inl ⟨mem_singleton.1 hc, hd.1⟩
    split at hc
    · exact .inr (mem_singleton.1 hc)
    · exact absurd hc not_mem_nil
  refine ⟨by simp [keysOf], rfl, fun c hc => ?_, fun k s ts hc => ?_, by simp,
    fun key hkey => hkey.elim⟩
  · rcases hpart c hc with ⟨rfl, hd⟩ | rfl
    · exact partOf_commit hstart (hcommitted hd).2 key
    · exact partOf_rollback hstart key
  · rcases hpart _ hc with ⟨-, hd⟩ | heq
    · exact .inr (hcommitted hd).1
    · cases heq

/-- The mutations of the transaction may be prewritten. -/
lemma messageOk_prewrite (hsame : txn.Same w.txn)
    (hroute : ∀ mutation ∈ mutations, cfg.route mutation.key = region)
    (hshape : cfg.batchEnabled = true ∨ ∃ mutation, mutations = [mutation]) :
    MessageOk cfg isStart txn w' ⟨.coordinator, region, cfg.prewriteCommand w.txn mutations⟩ := by
  have hlock (key : Bytes) : PartOf isStart txn
      (.prewriteLock key w.txn.primaryKey w.txn.startTs w.txn.maxForUpdateTs) := by
    rw [hsame.startTs, hsame.primaryKey]
    exact ⟨rfl, ⟨hstart, trivial⟩, by simp [primaryKey?]⟩
  have hwrite (key value : Bytes) (isDelete : Bool) : PartOf isStart txn
      (.prewrite key value w.txn.primaryKey w.txn.startTs isDelete w.txn.maxForUpdateTs) := by
    rw [hsame.startTs, hsame.primaryKey]
    exact ⟨rfl, ⟨hstart, trivial⟩, by simp [primaryKey?]⟩
  unfold Config.prewriteCommand
  split_ifs with henabled
  · refine ⟨fun key hkey => ?_, rfl, fun c hc => ?_, fun k s ts hc => ?_, by simp,
      fun key hkey => hkey.elim⟩
    · obtain ⟨mutation, hmem, rfl⟩ := mem_map.1 hkey
      exact hroute mutation hmem
    · obtain ⟨mutation, -, rfl⟩ := mem_map.1 hc
      split
      · exact hlock _
      · exact hwrite _ _ _
    · obtain ⟨mutation, -, heq⟩ := mem_map.1 hc
      split at heq <;> cases heq
  · obtain ⟨mutation, rfl⟩ := hshape.resolve_left henabled
    have hregion := hroute mutation (mem_singleton_self _)
    dsimp only [headD_cons]
    split
    · refine ⟨by simpa [keysOf] using hregion, rfl, fun c hc => ?_, by simp [Command.parts], by simp,
        fun key hkey => hkey.elim⟩
      rw [mem_singleton.1 hc]
      exact hlock _
    · refine ⟨by simpa [keysOf] using hregion, rfl, fun c hc => ?_, by simp [Command.parts], by simp,
        fun key hkey => hkey.elim⟩
      rw [mem_singleton.1 hc]
      exact hwrite _ _ _

end

/-! ## What a step of the coordinator may do -/

/-- `mayCommit` says whether a commit of the primary could be sent before the step. -/
structure Coordinates (cfg : Config) (isStart : Ts → Prop) (txn : Transaction) (mayCommit : Bool)
    (w w' : World) : Prop where
  regions : w'.regions = w.regions
  replies : w'.replies = w.replies
  tasks : w'.tasks = w.tasks
  same : txn.Same w'.txn
  sent : ∃ new, w'.sent = w.sent ++ new ∧ ∀ message ∈ new, MessageOk cfg isStart txn w' message
  returned : ∃ new, w'.returned = w.returned ++ new ∧ ∀ r ∈ new, ReturnOk cfg txn w' r ∧
    (r.call = .rollback → r.status = .ok → w'.Erased txn)
  aborted : mayCommit = false → w.commitSent txn = false → w'.Aborted txn
  phase : PhaseOk cfg isStart txn w'
  finished : w'.txn.state = .finished → w'.Settled txn

variable {call : ApiCall}

namespace Coordinates

variable {mayCommit : Bool}

lemma of_txn {t : Transaction} (h : Coordinates cfg isStart txn mayCommit { w with txn := t } w') :
    Coordinates cfg isStart txn mayCommit w w' :=
  ⟨h.regions, h.replies, h.tasks, h.same, h.sent, h.returned, h.aborted, h.phase, h.finished⟩

/-- A step that gives up committing is one from any state. -/
lemma weaken (h : Coordinates cfg isStart txn false w w') :
    Coordinates cfg isStart txn mayCommit w w' :=
  { h with aborted := fun _ => h.aborted rfl }

/-- The coordinator does not write to the Regions. -/
lemma view_eq (h : Coordinates cfg isStart txn mayCommit w w') : w'.view cfg = w.view cfg := by
  funext key
  rw [view, h.regions]
  rfl

/-- Nothing that was known is lost. -/
lemma grows (h : Coordinates cfg isStart txn w.canCommit w w') : Grows cfg txn w w' := by
  obtain ⟨sent, hsent, -⟩ := h.sent
  obtain ⟨returned, hreturned, -⟩ := h.returned
  refine ⟨fun key hc => ?_, fun key hr => ?_, ⟨sent, hsent⟩, h.replies ▸ fun _ hm => hm,
    fun r hr => ?_, fun ha => h.aborted ha.2 ha.1⟩
  · rwa [World.Committed, h.view_eq]
  · rwa [World.RolledBack, h.view_eq]
  · rw [hreturned]
    exact mem_append_left _ hr

/-- A step of the coordinator keeps the invariant. -/
theorem inv (h : Coordinates cfg isStart txn w.canCommit w w') (hinv : Inv cfg isStart txn w) :
    Inv cfg isStart txn w' := by
  have hgrows := h.grows
  obtain ⟨sent, hsent, hmessage⟩ := h.sent
  obtain ⟨returned, hreturned, hreturn⟩ := h.returned
  refine ⟨h.same, h.regions ▸ hinv.key, ?_, fun key hc => ?_, fun hc => ?_, fun message hmem => ?_,
    fun item hitem => ?_, fun task htask => ?_, h.phase, fun r hr => ?_, fun hr => ?_, h.finished⟩
  · rw [h.view_eq]
    exact hinv.lock
  · rw [World.Committed, h.view_eq] at hc ⊢
    exact hinv.primary key hc
  · rw [World.Committed, h.view_eq] at hc
    have hold := hinv.primary_sent hc
    rw [commitSent, hsent, any_append, Bool.or_eq_true]
    exact .inl hold
  · rw [hsent] at hmem
    rcases mem_append.1 hmem with hold | hnew
    · exact hgrows.message (hinv.message message hold)
    · exact hmessage message hnew
  · rw [h.replies] at hitem
    obtain ⟨message, hget, htells⟩ := hinv.reply item hitem
    rw [h.view_eq]
    exact ⟨message, hgrows.get hget, htells⟩
  · rw [h.tasks] at htask
    exact hgrows.query (hinv.task task htask)
  · rw [hreturned] at hr
    rcases mem_append.1 hr with hold | hnew
    · exact hgrows.returned (hinv.returned r hold)
    · exact (hreturn r hnew).1
  · obtain ⟨r, hmem, hcall, hstatus⟩ := hr
    rw [hreturned] at hmem
    rcases mem_append.1 hmem with hold | hnew
    · exact hgrows.settled (hinv.rolledBack ⟨r, hold, hcall, hstatus⟩)
    · exact .inr (.inr ((hreturn r hnew).2 hcall hstatus))

/-- A call may return what `ReturnOk` allows. -/
lemma ret {t : Transaction} {status : TxnStatus} (hsame : txn.Same t)
    (hreturn : ReturnOk cfg txn ({ w with txn := t }.ret call status)
      ⟨call, status, w.prewriteSent⟩)
    (hrolledBack : call = .rollback → status = .ok → w.Erased txn)
    (hactive : t.state = .active → w.commitSent txn = false ∧ w.prewriteSent = false)
    (hcannot : mayCommit = false → w.commitSent txn = false → t.state ≠ .active)
    (hdecided : t.state = .abortOnly ∨ t.state = .cleanupPending →
      w.commitSent txn = false ∨ w.RolledBack cfg txn txn.primaryKey)
    (hfinished : t.state = .finished → ({ w with txn := t }.ret call status).Settled txn) :
    Coordinates cfg isStart txn mayCommit w ({ w with txn := t }.ret call status) := by
  refine ⟨rfl, rfl, rfl, hsame, ⟨[], (append_nil _).symm, by simp⟩, ⟨_, rfl, ?_⟩,
    fun hmay hsent => ⟨hsent, ?_⟩, ⟨hactive, hdecided⟩, hfinished⟩
  · intro r hr
    rw [mem_singleton.1 hr]
    exact ⟨hreturn, hrolledBack⟩
  · exact decide_eq_false (hcannot hmay hsent)

/-- Requests are sent and the coordinator waits for them. -/
lemma send {new : List Message} {phase : Phase} (hsame : txn.Same w.txn)
    (hstate : w.txn.state ≠ .finished) (hmessage : ∀ message ∈ new,
      MessageOk cfg isStart txn { w with sent := w.sent ++ new, phase := phase } message)
    (hphase : PhaseOk cfg isStart txn { w with sent := w.sent ++ new, phase := phase })
    (haborted : mayCommit = false → w.commitSent txn = false →
      { w with sent := w.sent ++ new, phase := phase }.Aborted txn) :
    Coordinates cfg isStart txn mayCommit w
      { w with sent := w.sent ++ new, phase := phase } :=
  ⟨rfl, rfl, rfl, hsame, ⟨new, rfl, hmessage⟩, ⟨[], (append_nil _).symm, by simp⟩,
    haborted, hphase, fun hs => absurd hs hstate⟩

end Coordinates

/-- Messages other than the commit of the primary leave `commitSent` as it is. -/
lemma commitSent_append {new : List Message} {phase : Phase}
    (hnew : ∀ message ∈ new, isPrimaryCommit txn.primaryKey message.command = false) :
    commitSent txn { w with sent := w.sent ++ new, phase := phase } = w.commitSent txn := by
  have hnone : (new.any fun message => isPrimaryCommit txn.primaryKey message.command) = false := by
    simpa using hnew
  simp only [commitSent, any_append, hnone, Bool.or_false]

/-! ## Cleanup -/

namespace World

lemma ret_returned (w : World) (call : ApiCall) (status : TxnStatus) :
    (w.ret call status).Returned call status :=
  ⟨_, mem_append_right _ (mem_singleton_self _), rfl, rfl⟩

lemma settled_ret (h : w.Settled txn) (call : ApiCall) (status : TxnStatus) :
    (w.ret call status).Settled txn := by
  rcases h with ⟨r, hr, hcall⟩ | ⟨r, hr, hcall⟩ | hev
  · exact .inl ⟨r, mem_append_left _ hr, hcall⟩
  · exact .inr (.inl ⟨r, mem_append_left _ hr, hcall⟩)
  · exact .inr (.inr hev)

lemma evidence_append {key : Bytes} (h : w.Evidence key) (new : List Message) (phase : Phase) :
    { w with sent := w.sent ++ new, phase := phase }.Evidence key := by
  obtain ⟨number, reply, message, hreply, hget, hmore⟩ := h
  refine ⟨number, reply, message, hreply, ?_, hmore⟩
  rw [List.getElem?_append_left (List.getElem?_eq_some_iff.1 hget).1, hget]

end World

variable {t : Transaction}

lemma markCleanupPending_state
    (h : t.state = .active ∨ t.state = .abortOnly ∨ t.state = .cleanupPending) :
    t.markCleanupPending.state = .cleanupPending := by
  unfold markCleanupPending
  split
  · rfl
  · grind

/-- A transaction that was not committed may be left for a later cleanup. -/
lemma coordinates_cleanupPending (hsame : txn.Same t)
    (hdecided : w.commitSent txn = false ∨ w.RolledBack cfg txn txn.primaryKey)
    (hstate : t.state = .active ∨ t.state = .abortOnly ∨ t.state = .cleanupPending) :
    Coordinates cfg isStart txn false w
      ({ w with txn := t.markCleanupPending }.ret call .cleanupPending) := by
  have hpending := markCleanupPending_state hstate
  apply Coordinates.ret hsame.markCleanupPending
  · constructor <;> simp [failures]
  · simp
  · simp [hpending]
  · simp [hpending]
  · exact fun _ => hdecided
  · simp [hpending]

variable {mayCommit : Bool} {status : TxnStatus}

lemma coordinates_finished (hsame : txn.Same t)
    (hreturn : ReturnOk cfg txn ({ w with txn := t.markFinished }.ret call status)
      ⟨call, status, w.prewriteSent⟩)
    (hrolledBack : call = .rollback → status = .ok → w.Erased txn)
    (hsettled : ({ w with txn := t.markFinished }.ret call status).Settled txn) :
    Coordinates cfg isStart txn mayCommit w ({ w with txn := t.markFinished }.ret call status) := by
  apply Coordinates.ret hsame.markFinished hreturn hrolledBack
  · simp [markFinished]
  · simp [markFinished]
  · simp [markFinished]
  · exact fun _ => hsettled

lemma isPrimaryCommit_rollbackCommand (cfg : Config) (primaryKey : Bytes) (startTs : Ts)
    (keys : List Bytes) : isPrimaryCommit primaryKey (cfg.rollbackCommand startTs keys) = false := by
  unfold Config.rollbackCommand
  split <;> rfl

variable {aggregate : TxnStatus} {after : AfterCleanup}

section

variable (hstart : isStart txn.startTs) (hsame : txn.Same w.txn)
  (hdecided : w.commitSent txn = false ∨ w.RolledBack cfg txn txn.primaryKey)
  (hafter : AfterOk txn w.txn.state after)

include hstart hsame hdecided hafter

omit hstart in
/-- The cleanup may end when every key is settled. -/
lemma coordinates_finishCleanup
    (hcovers : aggregate = .ok → ∀ key, txn.hasMutation key = true → w.Evidence key)
    (halready : aggregate = .alreadyCommitted → w.Committed cfg txn txn.primaryKey) :
    Coordinates cfg isStart txn false w (w.finishCleanup aggregate after) := by
  unfold finishCleanup
  cases after with
  | emptyCommit =>
    obtain ⟨hempty, hactive⟩ := hafter
    split
    · exact coordinates_finished hsame.clearPessimisticLocks
        ⟨fun _ _ => .inl hempty, by simp [failures], by simp⟩ (by simp)
        (.inl (ret_returned _ _ _))
    · exact coordinates_cleanupPending hsame hdecided (.inl hactive)
  | abort status =>
    obtain ⟨hne, habort⟩ := hafter
    split
    · rename_i hok
      apply Coordinates.ret hsame.clearPessimisticLocks
      · refine ⟨fun _ hs => absurd hs ?_, fun _ _ _ => hcovers hok, by simp⟩
        split
        · simp
        · exact hne
      · simp
      · simp [clearPessimisticLocks, habort]
      · simp [clearPessimisticLocks, habort]
      · exact fun _ => hdecided
      · simp [clearPessimisticLocks, habort]
    · exact coordinates_cleanupPending hsame hdecided (.inr (.inl habort))
  | rollback =>
    dsimp only
    split
    · rename_i hok
      exact coordinates_finished hsame.clearPessimisticLocks ⟨by simp, by simp, by simp⟩
        (fun _ _ => hcovers hok) (.inr (.inr (hcovers hok)))
    · split
      · rename_i halready'
        exact coordinates_finished hsame ⟨by simp, by simp, fun _ _ => halready halready'⟩ (by simp)
          (.inr (.inl (ret_returned _ _ _)))
      · exact coordinates_cleanupPending hsame hdecided hafter

/-- The cleanup sends its next batches, or ends. -/
lemma coordinates_cleanupNext
    (hcovers : aggregate = .ok → ∀ key, txn.hasMutation key = true → w.Evidence key ∨ key ∈ keys)
    (halready : aggregate = .alreadyCommitted → w.Committed cfg txn txn.primaryKey) :
    Coordinates cfg isStart txn false w (w.cleanupNext cfg keys aggregate after) := by
  unfold cleanupNext
  rw [hsame.startTs]
  split
  rename_i batches rest hdispatch
  have hbatches : (cfg.dispatch id keys).1 = batches := by rw [hdispatch]
  have hrest : (cfg.dispatch id keys).2 = rest := by rw [hdispatch]
  split_ifs with hnil
  · rw [hnil] at hbatches
    have hkeys := cfg.eq_nil_of_dispatch id keys hbatches
    refine coordinates_finishCleanup hsame hdecided hafter (fun hok key hkey => ?_) halready
    exact (hcovers hok key hkey).resolve_right (by simp [hkeys])
  · have hcommit := @commitSent_append txn w
      (batches.map fun batch => ⟨.coordinator, batch.1, cfg.rollbackCommand txn.startTs batch.2⟩)
      (.cleanup (w.numbered batches) rest aggregate after) (by
        intro message hmem
        obtain ⟨batch, -, rfl⟩ := mem_map.1 hmem
        exact isPrimaryCommit_rollbackCommand _ _ _ _)
    refine Coordinates.send hsame ?_ ?_ ?_ fun _ hsent => ⟨hcommit.trans hsent, rfl⟩
    · cases after with
      | emptyCommit | abort => simp [hafter.2]
      | rollback => rcases hafter with h | h | h <;> simp [h]
    · intro message hmem
      obtain ⟨batch, hbatch, rfl⟩ := mem_map.1 hmem
      obtain ⟨hroute, hshape⟩ := cfg.mem_dispatch id keys (hbatches ▸ hbatch)
      refine messageOk_rollback hstart (fun key hkey => (hroute key hkey).2) hshape fun _ _ _ => ?_
      rcases hdecided with hsent | hr
      · exact .inr ⟨hcommit.trans hsent, rfl⟩
      · exact .inl hr
    · refine ⟨fun call hcall => ?_, fun hok key hkey => ?_, halready, ?_, hafter⟩
      · obtain ⟨batch, hbatch, heq, hget⟩ :=
          @World.sent_of_mem_numbered _ w batches (cfg.rollbackCommand txn.startTs) call hcall
        refine ⟨batch.1, ?_, heq ▸ (cfg.mem_dispatch id keys (hbatches ▸ hbatch)).2⟩
        rw [← heq]
        exact hget
      · rcases hcovers hok key hkey with hev | hmem
        · exact .inl (evidence_append hev _ _)
        · right
          rcases cfg.mem_dispatch_or id keys hmem with hleft | ⟨batch, hbatch, hin⟩
          · exact .inl (hrest ▸ hleft)
          · obtain ⟨call, hcall, heq⟩ := @World.exists_numbered _ w _ _ (hbatches ▸ hbatch)
            exact .inr ⟨call, hcall, heq ▸ hin⟩
      · rw [hcommit]
        exact hdecided

lemma coordinates_startCleanup :
    Coordinates cfg isStart txn false w (w.startCleanup cfg after) := by
  refine coordinates_cleanupNext hstart hsame hdecided hafter (fun _ key hkey => .inr ?_) (by simp)
  exact mem_cleanupKeys ((hsame.hasMutation key).trans hkey)

omit hafter in
/-- A failed commit starts the cleanup. -/
lemma coordinates_abort (hactive : w.txn.state = .active) (hne : status ≠ .ok) :
    Coordinates cfg isStart txn false w
      ({ w with txn := w.txn.markAbortOnly }.startCleanup cfg (.abort status)) := by
  apply Coordinates.of_txn
  refine coordinates_startCleanup hstart hsame.markAbortOnly hdecided ⟨hne, ?_⟩
  simp [markAbortOnly, hactive]

end

/-! ### Replies to the requests of a cleanup -/

/-- The replies forget locks only; they are `Ok` together if each of them is. -/
lemma cleanupReplies_spec (items : List ((ℕ × List Bytes) × Outcome)) (hsame : txn.Same t)
    (aggregate : TxnStatus) :
    let result := cleanupReplies (t, aggregate) items
    txn.Same result.1 ∧ result.1.state = t.state ∧
      (result.2 = .ok → aggregate = .ok ∧ ∀ item ∈ items, item.2.status = .ok) ∧
      (result.2 = .alreadyCommitted →
        aggregate = .alreadyCommitted ∨ ∃ item ∈ items, item.2.status = .alreadyCommitted) := by
  induction items generalizing t aggregate with
  | nil => exact ⟨hsame, rfl, by simp [cleanupReplies], by simp [cleanupReplies]⟩
  | cons item items ih =>
    obtain ⟨call, outcome⟩ := item
    unfold cleanupReplies cleanupReply
    split
    · rename_i hok
      obtain ⟨h1, h2, h3, h4⟩ := ih (hsame.forgetPessimisticLocks call.2) aggregate
      refine ⟨h1, h2, fun h => ⟨(h3 h).1, forall_mem_cons.2 ⟨hok, (h3 h).2⟩⟩, fun h => ?_⟩
      exact (h4 h).imp_right fun ⟨item, hmem, hs⟩ => ⟨item, mem_cons_of_mem _ hmem, hs⟩
    · split_ifs with halready
      · obtain ⟨h1, h2, h3, -⟩ := ih hsame .alreadyCommitted
        exact ⟨h1, h2, fun h => absurd (h3 h).1 (by simp),
          fun _ => .inr ⟨_, mem_cons_self, halready⟩⟩
      · obtain ⟨h1, h2, h3, h4⟩ := ih hsame .cleanupPending
        refine ⟨h1, h2, fun h => absurd (h3 h).1 (by simp), fun h => ?_⟩
        obtain ⟨item, hmem, hs⟩ := (h4 h).resolve_left (by simp)
        exact .inr ⟨item, mem_cons_of_mem _ hmem, hs⟩

lemma exists_mem_zip {α β : Type} {R : ℕ → β → Prop} {calls : List (ℕ × α)} {outcomes : List β}
    (h : List.Forall₂ R (calls.map Prod.fst) outcomes) {call : ℕ × α} (hcall : call ∈ calls) :
    ∃ outcome, (call, outcome) ∈ calls.zip outcomes := by
  have hlength : calls.length ≤ outcomes.length := by simpa using h.length_eq.le
  rw [← map_fst_zip hlength] at hcall
  obtain ⟨⟨_, outcome⟩, hmem, rfl⟩ := mem_map.1 hcall
  exact ⟨outcome, hmem⟩

variable {number : ℕ} {outcome : Outcome}

/-- A status that the transport does not make up is that of a reply. -/
lemma World.Possible.reply (h : w.Possible number outcome)
    (hstatus : outcome.status = .ok ∨ outcome.status = .alreadyCommitted) :
    (number, ⟨outcome.status, outcome.record⟩) ∈ w.replies := by
  rcases h with h | h
  · exact h.1
  · rcases hstatus with hs | hs <;> simp [hs] at h

/-- A reply tells the truth about the Regions. -/
lemma Inv.tells (hinv : Inv cfg isStart txn w) {reply : Reply} {message : Message}
    (hreply : (number, reply) ∈ w.replies) (hget : w.sent[number]? = some message) :
    reply.Tells isStart (w.view cfg) message.command := by
  obtain ⟨message', hget', htells⟩ := hinv.reply _ hreply
  have heq : message' = message := Option.some.inj (hget'.symm.trans hget)
  exact heq ▸ htells

/-- A status that is found by a query of the primary. -/
lemma Inv.query (hinv : Inv cfg isStart txn w) {rollbackIfExpired : Bool}
    (hquery : QueryCall txn w number rollbackIfExpired)
    (hpossible : w.Possible number outcome) (hok : outcome.status = .ok) :
    (outcome.record.state = .committed →
      w.Committed cfg txn txn.primaryKey ∧ ¬isStart outcome.record.commitTs) ∧
      (outcome.record.state = .rolledBack → w.RolledBack cfg txn txn.primaryKey) := by
  obtain ⟨message, nowMs, hget, hcommand⟩ := hquery
  have htells := hinv.tells (hpossible.reply (.inl hok)) hget
  rw [hcommand] at htells
  exact htells hok

variable {outcomes : List Outcome}

section

variable (hstart : isStart txn.startTs)

include hstart

/-- The replies to a batch of rollbacks move the cleanup on. -/
lemma coordinates_proceedCleanup (hinv : Inv cfg isStart txn w)
    {calls : List (ℕ × List Bytes)} {rest : List Bytes}
    (hphase : CleanupOk cfg txn w calls rest aggregate after)
    (houtcomes : List.Forall₂ w.Possible (calls.map Prod.fst) outcomes) :
    let result := cleanupReplies (w.txn, aggregate) (calls.zip outcomes)
    Coordinates cfg isStart txn false w
      ({ w with txn := result.1 }.cleanupNext cfg rest result.2 after) := by
  obtain ⟨hsame, hstate, hok, halready⟩ :=
    cleanupReplies_spec (calls.zip outcomes) hinv.same aggregate
  intro result
  apply Coordinates.of_txn
  refine coordinates_cleanupNext hstart hsame hphase.decided (hstate.symm ▸ hphase.after)
    (fun hr key hkey => ?_) fun hr => ?_
  · obtain ⟨haggregate, hall⟩ := hok hr
    rcases hphase.covers haggregate key hkey with hev | hrest | ⟨call, hcall, hin⟩
    · exact .inl hev
    · exact .inr hrest
    · -- the request for the key is answered with `Ok`
      obtain ⟨outcome, hmem⟩ := exists_mem_zip houtcomes hcall
      obtain ⟨region, hget, hshape⟩ := hphase.call call hcall
      have hs := hall _ hmem
      have hpossible := forall₂_zip (forall₂_map_left_iff.1 houtcomes) hmem
      refine .inl ⟨call.1, _, _, hpossible.reply (.inl hs), hget, rfl, hs, ?_⟩
      unfold Config.rollbackCommand
      split_ifs with henabled
      · exact hin
      · obtain ⟨key', heq⟩ := hshape.resolve_left henabled
        rw [heq] at hin ⊢
        exact (mem_singleton.1 hin).symm
  · rcases halready hr with ha | ⟨item, hmem, hs⟩
    · exact hphase.already ha
    · -- a key is committed, and so the primary is
      obtain ⟨region, hget, -⟩ := hphase.call item.1 (of_mem_zip hmem).1
      have hpossible := forall₂_zip (forall₂_map_left_iff.1 houtcomes) hmem
      have htells := hinv.tells (hpossible.reply (.inr hs)) hget
      unfold Config.rollbackCommand at htells
      split at htells
      · obtain ⟨key, -, hc⟩ := htells.2 hs
        exact hinv.primary key hc
      · exact hinv.primary _ (htells.2 hs)

/-! ## Commit -/

variable {prewritten : List Bytes}

section

variable (hsame : txn.Same w.txn) (hactive : w.txn.state = .active)

include hsame hactive

/-- After the last prewrite the commit asks for a timestamp, or aborts. -/
lemma coordinates_prewriteDone (hsent : w.commitSent txn = false)
    (hmutations : txn.mutations.isEmpty = false) :
    Coordinates cfg isStart txn true w (w.prewriteDone cfg status prewritten) := by
  unfold prewriteDone
  split_ifs with hne
  · exact (coordinates_abort hstart hsame (.inl hsent) hactive hne).weaken
  · exact ⟨rfl, rfl, rfl, hsame, ⟨[], (append_nil _).symm, by simp⟩,
      ⟨[], (append_nil _).symm, by simp⟩, by simp, ⟨hactive, hsent, hmutations⟩,
      fun hs => by simp [hactive] at hs⟩

omit hstart hsame hactive in
lemma isPrimaryCommit_prewriteCommand (cfg : Config) (primaryKey : Bytes) (t : Transaction)
    (mutations : List MvccMutation) :
    isPrimaryCommit primaryKey (cfg.prewriteCommand t mutations) = false := by
  unfold Config.prewriteCommand
  split
  · rfl
  · dsimp only
    split <;> rfl

/-- The prewrites go on with the next batches. -/
lemma coordinates_prewriteNext {mayRegroup : Bool} (hsent : w.commitSent txn = false)
    (hmutations : txn.mutations.isEmpty = false) :
    Coordinates cfg isStart txn true w
      (w.prewriteNext cfg mutations mayRegroup status prewritten) := by
  unfold prewriteNext
  split
  rename_i batches rest hdispatch
  split
  · exact coordinates_prewriteDone hstart hsame hactive hsent hmutations
  · refine Coordinates.send hsame (by simp [hactive]) ?_ ?_ (by simp)
    · intro message hmem
      obtain ⟨batch, hbatch, rfl⟩ := mem_map.1 hmem
      obtain ⟨hroute, hshape⟩ := cfg.mem_dispatch _ _ (by rw [hdispatch]; exact hbatch)
      exact messageOk_prewrite hstart hsame (fun mutation hm => (hroute mutation hm).2) hshape
    · refine ⟨hactive, (commitSent_append ?_).trans hsent, hmutations⟩
      intro message hmem
      obtain ⟨batch, -, rfl⟩ := mem_map.1 hmem
      exact isPrimaryCommit_prewriteCommand _ _ _ _

lemma coordinates_sendCommitPrimary (hts : ¬isStart commitTs) :
    Coordinates cfg isStart txn true w (w.sendCommitPrimary cfg commitTs prewritten) := by
  unfold sendCommitPrimary
  rw [hsame.primaryKey, hsame.startTs]
  refine Coordinates.send hsame (by simp [hactive]) ?_ ⟨hactive, hts, cfg.route txn.primaryKey, ?_⟩
    (by simp)
  · intro message hmem
    rw [mem_singleton.1 hmem]
    exact messageOk_commitPrimary hstart hts
  · simp

omit hactive in
/-- A status query; `phase` is where its reply is waited for. -/
lemma coordinates_sendQuery {nowMs : UInt64} {phase : ℕ → Phase} (hstate : w.txn.state ≠ .finished)
    (hphase : ∀ w' : World, w'.txn = w.txn → w'.phase = phase w.sent.length →
      QueryCall txn w' w.sent.length false → PhaseOk cfg isStart txn w')
    (hcannot : mayCommit = false → ∀ w' : World, w'.phase = phase w.sent.length →
      w'.canCommit = false) :
    Coordinates cfg isStart txn mayCommit w (w.sendQuery cfg nowMs phase) := by
  unfold sendQuery
  rw [hsame.primaryKey, hsame.startTs]
  refine Coordinates.send hsame hstate ?_ ?_ fun hmay hsent => ⟨?_, hcannot hmay _ rfl⟩
  · intro message hmem
    rw [mem_singleton.1 hmem]
    exact messageOk_check hstart _ _ _
  · exact hphase _ rfl rfl ⟨_, nowMs, getElem?_concat_length, rfl⟩
  · refine (commitSent_append ?_).trans hsent
    intro message hmem
    rw [mem_singleton.1 hmem]
    rfl

omit hstart in
lemma coordinates_resultUnknown : Coordinates cfg isStart txn mayCommit w w.resultUnknown := by
  have hstate : w.txn.markResultUnknown.state = .resultUnknown := by
    simp [markResultUnknown, hactive]
  apply Coordinates.ret hsame.markResultUnknown
  · constructor <;> simp [failures]
  all_goals simp [hstate]

/-- Locks of keys without a mutation are released after the commit. -/
lemma coordinates_releaseNext (hprimary : w.Committed cfg txn txn.primaryKey)
    (hsent : w.commitSent txn = true) (hkeys : ∀ key ∈ keys, txn.hasMutation key = false) :
    Coordinates cfg isStart txn false w (w.releaseNext cfg keys) := by
  unfold releaseNext
  rw [hsame.startTs]
  split
  rename_i batches rest hdispatch
  split
  · exact coordinates_finished hsame.clearPessimisticLocks
      ⟨fun _ _ => .inr hprimary, by simp [failures], by simp⟩ (by simp)
      (.inl (ret_returned _ _ _))
  · refine Coordinates.send hsame (by simp [hactive]) ?_ ⟨hactive, hprimary, fun key hkey => ?_⟩
      (by simp [hsent])
    · intro message hmem
      obtain ⟨batch, hbatch, rfl⟩ := mem_map.1 hmem
      obtain ⟨hroute, hshape⟩ := cfg.mem_dispatch id keys (by rw [hdispatch]; exact hbatch)
      refine messageOk_rollback hstart (fun key hkey => (hroute key hkey).2) hshape ?_
      intro key hkey hmutated
      rw [hkeys key (hroute key hkey).1] at hmutated
      cases hmutated
    · refine hkeys key (cfg.mem_of_mem_dispatch_rest id keys ?_)
      rw [hdispatch]
      exact hkey

/-- The other keys are committed once the primary is. -/
lemma coordinates_commitNext (hts : ¬isStart commitTs)
    (hprimary : w.Committed cfg txn txn.primaryKey) (hsent : w.commitSent txn = true) :
    Coordinates cfg isStart txn false w (w.commitNext cfg keys commitTs) := by
  unfold commitNext
  rw [hsame.startTs]
  split
  rename_i batches rest hdispatch
  split
  · refine coordinates_releaseNext hstart hsame hactive hprimary hsent fun key hkey => ?_
    have hpure := (mem_filter.1 (cfg.mem_batchOrder.1 hkey)).2
    simp only [decide_eq_true_eq] at hpure
    rw [← hsame.hasMutation key]
    exact eq_false_of_ne_true hpure.2
  · refine Coordinates.send hsame (by simp [hactive]) ?_ ⟨hactive, hprimary, hts⟩ (by simp [hsent])
    intro message hmem
    obtain ⟨batch, hbatch, rfl⟩ := mem_map.1 hmem
    obtain ⟨hroute, hshape⟩ := cfg.mem_dispatch id keys (by rw [hdispatch]; exact hbatch)
    exact messageOk_commit hstart hts (fun key hkey => (hroute key hkey).2) hshape hprimary

end

variable (hinv : Inv cfg isStart txn w)

include hinv

lemma coordinates_startCommit (hidle : w.phase = .idle) (active : TxnStatus) :
    Coordinates cfg isStart txn w.canCommit w (w.startCommit cfg active) := by
  have hphase := hinv.phase
  simp only [PhaseOk, hidle] at hphase
  obtain ⟨hactive, hdecided⟩ := hphase
  -- the transaction goes on as it is
  have hret (status : TxnStatus) (hs : w.txn.state = .active ∨ status ∉ failures)
      (hne : status ≠ .ok) : Coordinates cfg isStart txn w.canCommit w (w.ret .commit status) := by
    apply Coordinates.ret hinv.same _ (by simp) hactive _ hdecided
    · exact fun hf => settled_ret (hinv.finished hf) _ _
    · refine ⟨fun _ h => absurd h hne, fun _ hmem hprewrite => ?_, by simp⟩
      have hnone := (hactive (hs.resolve_right fun h => h hmem)).2
      exact absurd (hnone.symm.trans hprewrite) (by simp)
    · intro hcannot _ hstate
      simp [canCommit, hidle, hstate] at hcannot
  unfold startCommit
  split
  · exact hret _ (.inr (by decide)) (by simp)
  · exact hret _ (.inr (by decide)) (by simp)
  · exact hret _ (.inr (by decide)) (by simp)
  · exact hret _ (.inr (by decide)) (by simp)
  · rename_i hstate
    obtain ⟨hsent, hprewrite⟩ := hactive hstate
    have hcan : w.canCommit = true := by simp [canCommit, hidle, hstate]
    split
    · have habort : w.txn.markAbortOnly.state = .abortOnly := by simp [markAbortOnly, hstate]
      apply Coordinates.ret hinv.same.markAbortOnly
      · exact ⟨by simp, by simp [hprewrite], by simp⟩
      · simp
      · simp [habort]
      · simp [habort]
      · exact fun _ => .inl hsent
      · simp [habort]
    split
    · exact hret _ (.inl hstate) (by simp)
    split
    · rename_i hempty
      have hafter : AfterOk txn w.txn.state .emptyCommit := ⟨hinv.same.mutations ▸ hempty, hstate⟩
      exact (coordinates_startCleanup hstart hinv.same (.inl hsent) hafter).weaken
    · rename_i hempty
      split
      · exact hret _ (.inl hstate) (by simp)
      · rw [hcan]
        refine coordinates_prewriteNext hstart hinv.same hstate hsent ?_
        rw [← hinv.same.mutations]
        exact eq_false_of_ne_true hempty

/-! ## Rollback -/

variable {state : TxnRecordState}

omit hstart hinv in
lemma resolutionState_eq_committed : resolutionState state = .committed ↔ state = .committed := by
  cases state <;> simp [resolutionState]

omit hstart hinv in
lemma resolutionState_eq_rolledBack (h : state ≠ .committed) :
    resolutionState state = .rolledBack := by
  cases state <;> simp_all [resolutionState]

omit hinv in
/-- The locks are resolved as the record of the primary says. -/
lemma coordinates_resolveNext {record : TxnRecordStatus}
    {resolved : TxnStatus} (hsame : txn.Same w.txn) (hstate : w.txn.state = .resultUnknown)
    (hcommitted : record.state = .committed →
      w.Committed cfg txn txn.primaryKey ∧ ¬isStart record.commitTs)
    (hcovers : record.state ≠ .committed → resolved = .ok →
      ∀ k, txn.hasMutation k = true → w.Evidence k ∨ k ∈ keys)
    (hresolved : resolved = .ok ∨ resolved = .cleanupPending) :
    Coordinates cfg isStart txn false w (w.resolveNext cfg keys record resolved) := by
  unfold resolveNext
  cases keys with
  | cons key rest =>
    rw [hsame.startTs]
    refine Coordinates.send hsame (by simp [hstate]) ?_ ?_ fun _ hsent => ⟨?_, rfl⟩
    · intro message hmem
      rw [mem_singleton.1 hmem]
      exact messageOk_resolve hstart _ key fun hd => hcommitted (resolutionState_eq_committed.1 hd)
    · refine ⟨hstate, ⟨cfg.route key, getElem?_concat_length⟩, hcommitted, ?_, hresolved⟩
      intro hne hok k hk
      exact (hcovers hne hok k hk).imp (evidence_append · _ _) mem_cons.1
    · refine (commitSent_append ?_).trans hsent
      intro message hmem
      rw [mem_singleton.1 hmem]
      rfl
  | nil =>
    dsimp only
    split
    · rename_i hne
      have hpending := hresolved.resolve_left hne
      have hkeep : w.txn.markCleanupPending = w.txn := by simp [markCleanupPending, hstate]
      rw [hkeep, hpending]
      apply Coordinates.ret hsame
      · constructor <;> simp
      all_goals simp [hstate]
    · rename_i hok
      split_ifs with hc
      · exact coordinates_finished hsame.clearPessimisticLocks
          ⟨by simp, by simp, fun _ _ => (hcommitted hc).1⟩ (by simp)
          (.inr (.inl (ret_returned _ _ _)))
      · have herased : w.Erased txn := fun k hk =>
          (hcovers hc (not_not.1 hok) k hk).resolve_right not_mem_nil
        exact coordinates_finished hsame.clearPessimisticLocks ⟨by simp, by simp, by simp⟩
          (fun _ _ => herased) (.inr (.inr herased))

lemma coordinates_startRollback
    (hidle : w.phase = .idle) (hunfinished : w.txn.state ≠ .finished) (nowMs : Option UInt64) :
    Coordinates cfg isStart txn w.canCommit w (w.startRollback cfg nowMs) := by
  have hphase := hinv.phase
  simp only [PhaseOk, hidle] at hphase
  obtain ⟨hactive, hdecided⟩ := hphase
  have hunknown (hstate : w.txn.state = .resultUnknown) :
      Coordinates cfg isStart txn w.canCommit w (w.ret .rollback .resultUnknown) := by
    apply Coordinates.ret hinv.same
    · constructor <;> simp
    all_goals simp [hstate]
  have hcleanup (hstate : w.txn.state = .active ∨ w.txn.state = .abortOnly ∨
      w.txn.state = .cleanupPending) :
      Coordinates cfg isStart txn w.canCommit w (w.startCleanup cfg .rollback) := by
    have hdecided : w.commitSent txn = false ∨ w.RolledBack cfg txn txn.primaryKey := by
      rcases hstate with hs | hs
      · exact .inl (hactive hs).1
      · exact hdecided hs
    have hafter : AfterOk txn w.txn.state .rollback := hstate
    exact (coordinates_startCleanup hstart hinv.same hdecided hafter).weaken
  unfold startRollback
  cases hstate : w.txn.state with
  | finished => exact absurd hstate hunfinished
  | resultUnknown =>
    cases nowMs with
    | none => exact hunknown hstate
    | some nowMs =>
      dsimp only
      split
      · exact hunknown hstate
      · refine coordinates_sendQuery hstart hinv.same (by simp [hstate]) ?_ ?_
        · intro w' htxn hphase hquery
          simp only [PhaseOk, hphase]
          exact ⟨htxn ▸ hstate, hquery⟩
        · intro _ w' hphase
          simp [canCommit, hphase]
  | active => exact hcleanup (.inl hstate)
  | abortOnly => exact hcleanup (.inr (.inl hstate))
  | cleanupPending => exact hcleanup (.inr (.inr hstate))

/-! ## Going on -/

/-- The primary is found committed: its secondaries follow. -/
lemma coordinates_commitSecondaries (hactive : w.txn.state = .active)
    (hprimary : w.Committed cfg txn txn.primaryKey) (hts : ¬isStart commitTs) (keys : List Bytes) :
    Coordinates cfg isStart txn false w (w.commitNext cfg keys commitTs) :=
  coordinates_commitNext hstart hinv.same hactive hts hprimary (hinv.primary_sent hprimary)

lemma coordinates_queryPrimary
    (hactive : w.txn.state = .active) (hts : ¬isStart commitTs) (prewritten : List Bytes)
    (nowMs : UInt64) :
    Coordinates cfg isStart txn true w
      (w.sendQuery cfg nowMs (.queryPrimary · commitTs prewritten)) := by
  refine coordinates_sendQuery hstart hinv.same (by simp [hactive]) ?_ (by simp)
  intro w' htxn hphase hquery
  simp only [PhaseOk, hphase]
  exact ⟨htxn ▸ hactive, hts, hquery⟩

omit hstart hinv in
/-- A caller that waits for one request goes on with one outcome. -/
lemma exists_outcome {R : ℕ → Outcome → Prop} (h : List.Forall₂ R [number] outcomes) :
    ∃ outcome, R number outcome ∧ outcomes = [outcome] := by
  obtain ⟨outcome, _, hR, hnil, rfl⟩ := forall₂_cons_left_iff.1 h
  obtain rfl := forall₂_nil_left_iff.1 hnil
  exact ⟨outcome, hR, rfl⟩

section

variable {expired : Bool} {nowMs : UInt64}
  (houtcomes : List.Forall₂ w.Possible w.phase.calls outcomes)

include houtcomes

lemma coordinates_proceed_commitPrimary (hw : w.phase = .commitPrimary number commitTs prewritten) :
    Coordinates cfg isStart txn w.canCommit w (w.proceed cfg outcomes expired nowMs) := by
  have hphase := hinv.phase
  simp only [PhaseOk, hw] at hphase
  obtain ⟨hactive, hts, region, hget⟩ := hphase
  rw [hw] at houtcomes
  obtain ⟨outcome, hpossible, rfl⟩ := exists_outcome houtcomes
  simp only [canCommit, proceed, hw]
  split_ifs with hsuccess hexpired
  · have hstatus : outcome.status = .ok ∨ outcome.status = .alreadyCommitted := by
      simpa [isCommitSuccess] using hsuccess
    have htells := hinv.tells (hpossible.reply hstatus) hget
    exact (coordinates_commitSecondaries hstart hinv hactive (htells hstatus) hts _).weaken
  · exact coordinates_resultUnknown hinv.same hactive
  · exact coordinates_queryPrimary hstart hinv hactive hts _ _

lemma coordinates_proceed_queryPrimary (hw : w.phase = .queryPrimary number commitTs prewritten) :
    Coordinates cfg isStart txn w.canCommit w (w.proceed cfg outcomes expired nowMs) := by
  have hphase := hinv.phase
  simp only [PhaseOk, hw] at hphase
  obtain ⟨hactive, hts, hquery⟩ := hphase
  rw [hw] at houtcomes
  obtain ⟨outcome, hpossible, rfl⟩ := exists_outcome houtcomes
  simp only [canCommit, proceed, hw]
  split_ifs with hcommitted hrolledBack hexpired hok
  · obtain ⟨hprimary, hts'⟩ := (hinv.query hquery hpossible hcommitted.1).1 hcommitted.2
    exact (coordinates_commitSecondaries hstart hinv hactive hprimary hts' _).weaken
  · have hr := (hinv.query hquery hpossible hrolledBack.1).2 hrolledBack.2
    exact (coordinates_abort hstart hinv.same (.inr hr) hactive (by simp)).weaken
  · exact coordinates_resultUnknown hinv.same hactive
  · exact coordinates_sendCommitPrimary hstart hinv.same hactive hts
  · exact coordinates_queryPrimary hstart hinv hactive hts _ _

lemma coordinates_proceed_queryRollback (hw : w.phase = .queryRollback number) :
    Coordinates cfg isStart txn w.canCommit w (w.proceed cfg outcomes expired nowMs) := by
  have hphase := hinv.phase
  simp only [PhaseOk, hw] at hphase
  obtain ⟨hstate, hquery⟩ := hphase
  rw [hw] at houtcomes
  obtain ⟨outcome, hpossible, rfl⟩ := exists_outcome houtcomes
  simp only [canCommit, proceed, hw]
  split_ifs with hne
  · apply Coordinates.ret hinv.same
    · constructor <;> simp
    all_goals simp [hstate]
  · refine coordinates_resolveNext hstart hinv.same hstate
      (hinv.query hquery hpossible (not_not.1 hne)).1 (fun _ _ k hk => .inr ?_) (.inl rfl)
    exact mem_cleanupKeys ((hinv.same.hasMutation k).trans hk)

lemma coordinates_proceed_resolve {key : Bytes} {record : TxnRecordStatus} {resolved : TxnStatus}
    (hw : w.phase = .resolve number key keys record resolved) :
    Coordinates cfg isStart txn w.canCommit w (w.proceed cfg outcomes expired nowMs) := by
  have hphase := hinv.phase
  simp only [PhaseOk, hw] at hphase
  rw [hw] at houtcomes
  obtain ⟨outcome, hpossible, rfl⟩ := exists_outcome houtcomes
  simp only [canCommit, proceed, hw]
  refine coordinates_resolveNext hstart hinv.same hphase.state hphase.committed ?_ ?_
  · intro hne hresolved k hk
    split_ifs at hresolved with hok
    rcases hphase.covers hne hresolved k hk with hev | rfl | hrest
    · exact .inl hev
    · obtain ⟨region, hget⟩ := hphase.call
      exact .inl ⟨number, _, _, hpossible.reply (.inl hok), hget, rfl, hok, rfl,
        resolutionState_eq_rolledBack hne⟩
    · exact .inr hrest
  · split_ifs
    · exact hphase.resolved
    · exact .inr rfl

/-- The coordinator goes on with outcomes of the requests it waits for. -/
lemma coordinates_proceed (expired : Bool) (nowMs : UInt64) :
    Coordinates cfg isStart txn w.canCommit w (w.proceed cfg outcomes expired nowMs) ∨
      w.proceed cfg outcomes expired nowMs = w := by
  have hphase := hinv.phase
  cases hw : w.phase with
  | commitPrimary => exact .inl (coordinates_proceed_commitPrimary hstart hinv houtcomes hw)
  | queryPrimary => exact .inl (coordinates_proceed_queryPrimary hstart hinv houtcomes hw)
  | queryRollback => exact .inl (coordinates_proceed_queryRollback hstart hinv houtcomes hw)
  | resolve => exact .inl (coordinates_proceed_resolve hstart hinv houtcomes hw)
  | prewrite calls rest mayRegroup status prewritten =>
    simp only [PhaseOk, hw] at hphase
    obtain ⟨hactive, hsent, hmutations⟩ := hphase
    simp only [canCommit, proceed, hw]
    split_ifs
    · exact .inl (coordinates_prewriteNext hstart hinv.same hactive hsent hmutations)
    · exact .inl (coordinates_prewriteNext hstart hinv.same hactive hsent hmutations)
    · exact .inl (coordinates_prewriteDone hstart hinv.same hactive hsent hmutations)
  | commitSecondaries calls rest commitTs =>
    simp only [PhaseOk, hw] at hphase
    simp only [canCommit, proceed, hw]
    exact .inl (coordinates_commitSecondaries hstart hinv hphase.1 hphase.2.1 hphase.2.2 _)
  | releaseLocks calls rest =>
    simp only [PhaseOk, hw] at hphase
    simp only [canCommit, proceed, hw]
    exact .inl (coordinates_releaseNext hstart hinv.same hphase.1 hphase.2.1
      (hinv.primary_sent hphase.2.1) hphase.2.2)
  | cleanup calls rest aggregate after =>
    simp only [PhaseOk, hw] at hphase
    rw [hw] at houtcomes
    simp only [canCommit, proceed, hw]
    exact .inl (coordinates_proceedCleanup hstart hinv hphase houtcomes)
  | _ =>
    right
    simp only [proceed, hw]

end

lemma coordinates_allocated {commitTs : Option Ts} (hts : ∀ ts ∈ commitTs, ¬isStart ts) :
    Coordinates cfg isStart txn w.canCommit w (w.allocated cfg commitTs) ∨
      w.allocated cfg commitTs = w := by
  have hphase := hinv.phase
  unfold PhaseOk at hphase
  unfold allocated
  cases hw : w.phase with
  | allocateCommitTs prewritten =>
    have hcan : w.canCommit = true := by rw [canCommit, hw]
    simp only [hw] at hphase
    rw [hcan]
    left
    cases commitTs with
    | none =>
      exact (coordinates_abort hstart hinv.same (.inl hphase.2.1) hphase.1 (by simp)).weaken
    | some commitTs =>
      exact coordinates_sendCommitPrimary hstart hinv.same hphase.1 (hts commitTs rfl)
  | _ => exact .inr rfl

end

end

end StrataKV.Txn
