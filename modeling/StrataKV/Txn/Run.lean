import StrataKV.Lib.Lists
import StrataKV.Txn.CoordinatorSteps

/-!
# Runs of a transaction

Every event keeps the invariant: a region that applies a part, a resolver or the transaction itself
that sends one more request, and a step of the coordinator.
-/

namespace StrataKV.Txn

open Mvcc World Function

/-- The runs of the transaction among others, with resolvers and crashes. -/
def txnSystem (cfg : Config) (isStart : Ts → Prop) (txn : Transaction) :
    TransitionSystem World Event :=
  .ofEnabled (World.initial txn) (World.Enabled cfg isStart) (World.next cfg)

/-- The runs in which calls may also end by an exception. -/
def callSystem (cfg : Config) (isStart : Ts → Prop) (txn : Transaction) :
    TransitionSystem World CallEvent :=
  .ofEnabled (World.initial txn) (World.EnabledCall cfg isStart) (World.nextCall cfg)

instance (cfg : Config) (isStart : Ts → Prop) [DecidablePred isStart] (w : World) (event : Event) :
    Decidable (w.Enabled cfg isStart event) := by
  induction event using Event.casesOn with
  | allocated commitTs => exact Option.decidableForallMem commitTs
  | resolveTask => exact inferInstanceAs (Decidable (_ ∧ _ ∧ ∀ _ ∈ _, _))
  | _ =>
    dsimp only [World.Enabled]
    infer_instance

instance (w : World) (outcomes : List Outcome) : Decidable (w.MayAbort outcomes) := by
  unfold World.MayAbort
  cases w.phase <;> infer_instance

instance (cfg : Config) (isStart : Ts → Prop) [DecidablePred isStart] (w : World)
    (event : CallEvent) : Decidable (w.EnabledCall cfg isStart event) := by
  cases event <;> dsimp only [World.EnabledCall] <;> infer_instance

/-- The message that the event delivers. -/
def World.delivered (w : World) : Event → Option Message
  | .deliver number .. => w.sent[number]?
  | _ => none

/-- What an event does, as far as properties of runs depend on it. -/
structure Advance (cfg : Config) (isStart : Ts → Prop) (txn : Transaction) (w : World)
    (event : Event) (w' : World) : Prop where
  inv : Inv cfg isStart txn w'
  grows : Grows cfg txn w w'
  view : ∀ key, ViewStep isStart txn (w.delivered event) key (w.view cfg key) (w'.view cfg key)
  replies : ∀ item ∈ w'.replies, item ∈ w.replies ∨
    ∃ message, w.sent[item.1]? = some message ∧ w.delivered event = some message
  returned : ∃ new, w'.returned = w.returned ++ new ∧ ∀ r ∈ new, r.call = .rollback →
    r.status = .ok → w'.Erased txn ∨ (∃ nowMs, event = .rollback nowMs) ∧ w.Settled txn

section

variable {cfg : Config} {isStart : Ts → Prop} {txn : Transaction} {w w' : World} {event : Event}

namespace Advance

lemma refl (hinv : Inv cfg isStart txn w) : Advance cfg isStart txn w event w :=
  ⟨hinv, .refl, fun _ => .inl rfl, fun _ h => .inl h, ⟨[], (List.append_nil _).symm, by simp⟩⟩

lemma of_regional (h : Regional isStart txn (w.delivered event) w w') (hinv : Inv cfg isStart txn w)
    (hreply : ∀ item ∈ w'.replies, item ∈ w.replies ∨
      ∃ message, w.sent[item.1]? = some message ∧ w.delivered event = some message ∧
        item.2.Tells isStart (w'.view cfg) message.command) :
    Advance cfg isStart txn w event w' := by
  refine ⟨h.inv hinv fun item hitem => ?_, h.grows hinv, fun key => h.view _ key,
    fun item hitem => ?_, [], by rw [h.returned, List.append_nil], by simp⟩
  · exact (hreply item hitem).imp_right fun ⟨message, hget, _, htells⟩ => ⟨message, hget, htells⟩
  · exact (hreply item hitem).imp_right fun ⟨message, hget, hd, _⟩ => ⟨message, hget, hd⟩

lemma of_coordinates (h : Coordinates cfg isStart txn w.canCommit w w')
    (hinv : Inv cfg isStart txn w) : Advance cfg isStart txn w event w' := by
  obtain ⟨new, hreturned, hnew⟩ := h.returned
  exact ⟨h.inv hinv, h.grows, fun key => .inl (congrFun h.view_eq key),
    fun _ hitem => .inl (h.replies ▸ hitem),
    ⟨new, hreturned, fun r hr hcall hstatus => .inl ((hnew r hr).2 hcall hstatus)⟩⟩

end Advance

/-! ## Regions -/

/-- A region applies a step made of parts that may be applied. -/
lemma regional_update {delivered : Option Message} (hmem : ∀ message ∈ delivered, message ∈ w.sent)
    (region : ℕ) (σ : MvccStorage) (replies : List (ℕ × Reply))
    (hview : ∀ key, ViewStep isStart txn delivered key ((w.regions region).view key) (σ.view key)) :
    Regional isStart txn delivered w
      { w with regions := update w.regions region σ, replies := w.replies ++ replies } := by
  refine ⟨hmem, rfl, rfl, rfl, rfl, rfl, fun item hitem => List.mem_append_left _ hitem,
    fun r key => ?_⟩
  by_cases hr : r = region
  · subst hr
    simpa only [update_self] using hview key
  · left
    simp only [update_of_ne hr]

section

variable (hinv : Inv cfg isStart txn w)

include hinv

lemma advance_other {region : ℕ} {step : Step} (hcollect : step.command.safePoint? = none)
    (hparts : ∀ c ∈ step.command.parts, c.startTs ≠ txn.startTs ∧ c.TimestampsApart isStart) :
    Advance cfg isStart txn w (.other region step) (w.next cfg (.other region step)) := by
  have hregional := @regional_update isStart txn w none (by simp) region
    ((w.regions region).exec step).2 [] (by
      intro key
      rcases (w.regions region).exec_view step key with hid | ⟨c, hc, hkey, hstep⟩ |
        ⟨safePointTs, hcommand, -⟩
      · exact .inl hid
      · exact .inr ⟨c, hkey, ⟨(hparts c hc).2, .inl (hparts c hc).1⟩, hstep⟩
      · simp [hcommand, Command.safePoint?] at hcollect)
  rw [List.append_nil] at hregional
  exact .of_regional hregional hinv fun item hitem => .inl hitem

/-- The reply to a delivered message tells what the region has found or done. -/
lemma advance_deliver {number : ℕ} {nowMs nowMs' : Bytes → UInt64}
    {raftIndex : UInt64} {env : ApplyEnv}
    (hstale : ∀ message ∈ w.sent[number]?, ¬(w.regions message.region).Stale raftIndex) :
    Advance cfg isStart txn w (.deliver number nowMs nowMs' raftIndex env)
      (w.deliver number nowMs nowMs' raftIndex env) := by
  unfold deliver
  split
  · exact .refl hinv
  · rename_i message hget
    have hmem : message ∈ w.sent := List.mem_of_getElem? hget
    have hok := hinv.message message hmem
    set step : Step := ⟨atClock nowMs nowMs' message.command, raftIndex, env⟩ with hstep
    have hcollect : ∀ safePointTs, step.command ≠ .garbageCollect safePointTs := by
      intro safePointTs heq
      have hnone := hok.collects
      rw [← safePoint?_atClock nowMs nowMs', show atClock nowMs nowMs' message.command = _ from heq]
        at hnone
      cases hnone
    have hregional := @regional_update isStart txn w w.sent[number]?
      (fun m hm => List.mem_of_getElem? hm) message.region
      ((w.regions message.region).serve step).2
      [(number, ((w.regions message.region).serve step).1)] (by
        intro key
        rcases (w.regions message.region).serve_view step hcollect key with hid | ⟨c, hc, hkey, hstep'⟩
        · exact .inl hid
        · rw [hstep, parts_atClock] at hc
          exact .inr ⟨c, hkey, ⟨(hok.part c hc).apart, .inr ⟨message, hget, hc⟩⟩, hstep'⟩)
    refine .of_regional hregional hinv fun item hitem => ?_
    rcases List.mem_append.1 hitem with hold | hnew
    · exact .inl hold
    · right
      rw [List.mem_singleton.1 hnew]
      refine ⟨message, hget, hget, tells_congr (tells_atClock
        (MvccStorage.serve_tells (hinv.key message.region) step (hstale message hget)))
        fun key hkey => ?_⟩
      -- the keys of the message are in its region
      rw [view, hok.routed key hkey]
      simp only [update_self]

/-! ## Requests of others -/

/-- One more message, which is neither a commit of the primary nor a prewrite. -/
lemma advance_send {message : Message} {tasks : List ResolverTask}
    (hok : MessageOk cfg isStart txn w message)
    (hcommit : isPrimaryCommit txn.primaryKey message.command = false)
    (hprewrite : isPrewrite message.command = false) (htask : ∀ task ∈ tasks, task ∈ w.tasks ∨
      QueryCall txn { w with sent := w.sent ++ [message], tasks := tasks } task.call true) :
    Advance cfg isStart txn w event { w with sent := w.sent ++ [message], tasks := tasks } := by
  have hcommit' : commitSent txn { w with sent := w.sent ++ [message], tasks := tasks } =
      w.commitSent txn := by
    simp [commitSent, hcommit]
  have hprewrite' : prewriteSent { w with sent := w.sent ++ [message], tasks := tasks } =
      w.prewriteSent := by
    simp [prewriteSent, hprewrite]
  have hgrows : Grows cfg txn w { w with sent := w.sent ++ [message], tasks := tasks } :=
    ⟨fun _ h => h, fun _ h => h, ⟨[message], rfl⟩, fun _ h => h, fun _ h => h,
      fun ha => ⟨hcommit'.trans ha.1, ha.2⟩⟩
  refine ⟨⟨hinv.same, hinv.key, hinv.lock, hinv.primary, fun hc => ?_, fun m hm => ?_,
    fun item hitem => ?_, fun task htask' => ?_, hgrows.phase hinv.phase rfl rfl hcommit' hprewrite',
    fun r hr => hgrows.returned (hinv.returned r hr), fun hr => hgrows.settled (hinv.rolledBack hr),
    fun hs => hgrows.settled (hinv.finished hs)⟩, hgrows, fun _ => .inl rfl, fun _ h => .inl h,
    ⟨[], (List.append_nil _).symm, by simp⟩⟩
  · rw [hcommit']
    exact hinv.primary_sent hc
  · rcases List.mem_append.1 hm with hold | hnew
    · exact hgrows.message (hinv.message m hold)
    · rw [List.mem_singleton.1 hnew]
      exact hgrows.message hok
  · obtain ⟨m, hget, htells⟩ := hinv.reply item hitem
    exact ⟨m, hgrows.get hget, htells⟩
  · rcases htask task htask' with hold | hnew
    · exact hgrows.query (hinv.task task hold)
    · exact hnew

section

variable (hstart : isStart txn.startTs)

include hstart

lemma advance_acquire (key : Bytes) (forUpdateTs : Ts) (expireAt : UInt64) :
    Advance cfg isStart txn w event (w.next cfg (.acquire key forUpdateTs expireAt)) := by
  unfold next
  rw [hinv.same.primaryKey, hinv.same.startTs]
  refine advance_send hinv ⟨by simp [keysOf], rfl, fun c hc => ?_, by simp [Command.parts], by simp,
    fun k hk => hk.elim⟩ rfl rfl fun task htask => .inl htask
  rw [List.mem_singleton.1 hc]
  exact ⟨rfl, ⟨hstart, trivial⟩, by simp [KeyCommand.primaryKey?]⟩

lemma advance_observe {key : Bytes}
    (hlock : ∃ lock ∈ (w.regions (cfg.route key)).locks[key]?, lock.startTs = txn.startTs)
    (nowMs : UInt64) (scan : Bool) :
    Advance cfg isStart txn w event (w.observe cfg key nowMs scan) := by
  obtain ⟨lock, hget, hown⟩ := hlock
  have hprimary := hinv.lock key lock hget hown
  unfold observe
  rw [show (w.regions (cfg.route key)).locks[key]? = some lock from hget, hinv.same.startTs]
  dsimp only
  split
  · exact advance_send hinv (messageOk_resolve hstart _ key (by simp)) rfl rfl
      fun task htask => .inl htask
  · rw [hprimary]
    refine advance_send hinv (messageOk_check hstart _ _ _) rfl rfl fun task htask => ?_
    rcases List.mem_append.1 htask with hold | hnew
    · exact .inl hold
    · right
      rw [List.mem_singleton.1 hnew]
      exact ⟨_, nowMs, List.getElem?_concat_length, rfl⟩

/-- The status of the primary is acted on. -/
lemma advance_resolveTask {task : ℕ} {reply : Reply} (hok : reply.status = .ok)
    (hreply : ∀ t ∈ w.tasks[task]?, (ResolverTask.call t, reply) ∈ w.replies) :
    Advance cfg isStart txn w event (w.resolveTask cfg task reply.record) := by
  unfold resolveTask
  split
  · exact .refl hinv
  · rename_i t hget
    rw [hinv.same.startTs]
    obtain ⟨message, nowMs, hsent, hcommand⟩ := hinv.task t (List.mem_of_getElem? hget)
    have htells := hinv.tells (hreply t hget) hsent
    rw [hcommand] at htells
    split_ifs with hcommitted
    · exact advance_send hinv (messageOk_resolve hstart _ _ fun _ => (htells hok).1 hcommitted) rfl rfl
        fun task htask => .inl htask
    · exact advance_send hinv (messageOk_resolve hstart _ _ (by simp)) rfl rfl
        fun task htask => .inl htask

end

/-! ## All events -/

lemma advance_crash : Advance cfg isStart txn w event { w with phase := .crashed } := by
  have h : Coordinates cfg isStart txn w.canCommit w { w with phase := .crashed } :=
    ⟨rfl, rfl, rfl, hinv.same, ⟨[], (List.append_nil _).symm, by simp⟩,
      ⟨[], (List.append_nil _).symm, by simp⟩, fun _ hsent => ⟨hsent, rfl⟩, trivial, hinv.finished⟩
  exact .of_coordinates h hinv

/-- `Rollback` of a finished transaction returns `Ok`, whatever has finished it. -/
lemma advance_rollback_finished (hstate : w.txn.state = .finished) (nowMs : Option UInt64) :
    Advance cfg isStart txn w (.rollback nowMs) (w.startRollback cfg nowMs) := by
  have hsettled := settled_ret (hinv.finished hstate) .rollback .ok
  have hgrows : Grows cfg txn w (w.ret .rollback .ok) :=
    ⟨fun _ h => h, fun _ h => h, ⟨[], (List.append_nil _).symm⟩, fun _ h => h,
      fun _ h => List.mem_append_left _ h, fun ha => ⟨ha.1, by simp [canCommit, ret, hstate]⟩⟩
  have hphase : PhaseOk cfg isStart txn (w.ret .rollback .ok) := by simp [PhaseOk, ret, hstate]
  unfold startRollback
  rw [hstate]
  refine ⟨⟨hinv.same, hinv.key, hinv.lock, hinv.primary, hinv.primary_sent,
    fun m hm => hgrows.message (hinv.message m hm), hinv.reply, hinv.task, hphase, fun r hr => ?_,
    fun _ => hsettled, fun _ => hsettled⟩, hgrows, fun _ => .inl rfl, fun _ h => .inl h,
    ⟨_, rfl, fun _ _ _ _ => .inr ⟨⟨nowMs, rfl⟩, hinv.finished hstate⟩⟩⟩
  rcases List.mem_append.1 hr with hold | hnew
  · exact hgrows.returned (hinv.returned r hold)
  · rw [List.mem_singleton.1 hnew]
    constructor <;> simp

end

/-- A transaction that neither `Commit` nor `Rollback` was called for. -/
def Transaction.Fresh (txn : Transaction) : Prop :=
  txn.state = .active ∨ txn.state = .abortOnly ∨ txn.state = .cleanupPending

instance (txn : Transaction) : Decidable txn.Fresh := inferInstanceAs (Decidable (_ ∨ _))

lemma inv_initial (hfresh : txn.Fresh) : Inv cfg isStart txn (initial txn) := by
  have hcommitted (key : Bytes) : ¬(initial txn).Committed cfg txn key := by
    simp [World.Committed, view, initial, KeyView.Committed, MvccStorage.view,
      MvccStorage.versionsOf, MvccStorage.empty]
  refine ⟨.refl txn, fun _ key => TxnInv.of_empty key, fun key lock hlock => ?_,
    fun key hc => absurd hc (hcommitted key), fun hc => absurd hc (hcommitted _), ?_, ?_, ?_,
    ⟨fun _ => ⟨rfl, rfl⟩, fun _ => .inl rfl⟩, ?_, ?_, fun hs => ?_⟩
  · simp [view, initial] at hlock
  · simp [initial]
  · simp [initial]
  · simp [initial]
  · simp [initial]
  · simp [initial, World.Returned]
  · rcases hfresh with h | h | h <;> simp [initial, h] at hs

lemma Phase.eq_idle {phase : Phase} (h : phase.isIdle = true) : phase = .idle := by
  cases phase <;> first | rfl | cases h

theorem Inv.advance (hstart : isStart txn.startTs) (hinv : Inv cfg isStart txn w)
    (henabled : w.Enabled cfg isStart event) :
    Advance cfg isStart txn w event (w.next cfg event) := by
  cases event with
  | other region step =>
    refine advance_other hinv henabled.1 fun c hc => ?_
    rw [← hinv.same.startTs]
    exact henabled.2 c hc
  | acquire key forUpdateTs expireAt => exact advance_acquire hinv hstart key forUpdateTs expireAt
  | deliver => exact advance_deliver hinv henabled
  | observe key nowMs scan =>
    obtain ⟨lock, hget, hown, -⟩ := henabled
    exact advance_observe hinv hstart ⟨lock, hget, hown.trans hinv.same.startTs⟩ nowMs scan
  | resolveTask => exact advance_resolveTask hinv hstart henabled.1 henabled.2.2
  | commit active =>
    exact .of_coordinates (coordinates_startCommit hstart hinv (Phase.eq_idle henabled) active) hinv
  | allocated commitTs =>
    rcases coordinates_allocated hstart hinv (fun ts hts => (henabled ts hts).2) with h | h
    · exact .of_coordinates h hinv
    · rw [show w.next cfg (.allocated commitTs) = w from h]
      exact .refl hinv
  | proceed outcomes expired nowMs =>
    rcases coordinates_proceed hstart hinv henabled expired nowMs with h | h
    · exact .of_coordinates h hinv
    · rw [show w.next cfg (.proceed outcomes expired nowMs) = w from h]
      exact .refl hinv
  | rollback nowMs =>
    by_cases hstate : w.txn.state = .finished
    · exact advance_rollback_finished hinv hstate nowMs
    · exact .of_coordinates
        (coordinates_startRollback hstart hinv (Phase.eq_idle henabled) hstate nowMs) hinv
  | crash => exact advance_crash hinv

/-! ## Exceptions -/

/-- The handle `t` that an exception leaves is still the transaction's, and what it says is true. -/
structure LeftOk (cfg : Config) (txn : Transaction) (w : World) (t : Transaction) : Prop where
  same : txn.Same t
  decided : t.state = .abortOnly ∨ t.state = .cleanupPending →
    w.commitSent txn = false ∨ w.RolledBack cfg txn txn.primaryKey
  finished : t.state = .finished → w.Settled txn

section

variable (hinv : Inv cfg isStart txn w)

include hinv

/-- A handle that is active is left marked, and only where the primary is decided. -/
lemma leftOk_of_active {aborting : Bool} (hactive : w.txn.state = .active)
    (hstate : (if aborting then w.txn.markAbortOnly else w.txn).state ≠ .active)
    (hdecided : aborting = true → w.commitSent txn = false ∨ w.RolledBack cfg txn txn.primaryKey) :
    LeftOk cfg txn w (if aborting then w.txn.markAbortOnly else w.txn) := by
  split_ifs at hstate ⊢ with haborting
  · refine ⟨hinv.same.markAbortOnly, fun _ => hdecided haborting, ?_⟩
    simp [Transaction.markAbortOnly, hactive]
  · exact absurd hactive hstate

variable {outcomes : List Outcome} {aborting : Bool}
  (henabled : w.EnabledCall cfg isStart (.leave outcomes aborting))
  (hstate : (w.leave outcomes aborting).txn.state ≠ .active)

include henabled hstate

lemma leftOk_leave : LeftOk cfg txn w (w.leave outcomes aborting).txn := by
  obtain ⟨hrunning, houtcomes, habort⟩ := henabled
  have hphase := hinv.phase
  unfold PhaseOk at hphase
  unfold MayAbort at habort
  unfold leave at hstate ⊢
  cases hw : w.phase with
  | idle | crashed => simp [hw] at hrunning
  | prewrite | allocateCommitTs =>
    simp only [hw] at hphase hstate
    exact leftOk_of_active hinv hphase.1 hstate fun _ => .inl hphase.2.1
  | commitPrimary | commitSecondaries | releaseLocks =>
    simp only [hw] at hphase hstate habort
    exact leftOk_of_active hinv hphase.1 hstate fun haborting => (habort haborting).elim
  | queryPrimary call commitTs prewritten =>
    simp only [hw, Phase.calls] at hphase hstate habort houtcomes
    refine leftOk_of_active hinv hphase.1 hstate fun haborting => .inr ?_
    -- the status query has found the primary rolled back
    obtain ⟨outcome, hmem, hfound⟩ := List.any_eq_true.1 (habort haborting)
    simp only [Bool.and_eq_true, decide_eq_true_eq] at hfound
    obtain ⟨number, hnumber, hpossible⟩ := exists_of_forall₂ houtcomes hmem
    obtain rfl := List.mem_singleton.1 (List.mem_of_mem_take hnumber)
    exact (hinv.query hphase.2.2 hpossible hfound.1).2 hfound.2
  | cleanup calls rest aggregate after =>
    simp only [hw] at hphase
    obtain ⟨hsame, hkept, -⟩ := cleanupReplies_spec (calls.zip outcomes) hinv.same aggregate
    exact ⟨hsame, fun _ => hphase.decided, fun hs => hinv.finished (hkept.symm.trans hs)⟩
  | queryRollback | resolve =>
    simp only [hw] at hphase habort
    have hunknown : w.txn.state = .resultUnknown := hphase.1
    have hmark : ¬aborting = true := fun haborting => habort haborting
    simp only [if_neg hmark]
    exact ⟨hinv.same, by simp [hunknown], by simp [hunknown]⟩

/-- A call that is left with a handle that is not active any more changes no more than a crash. -/
lemma Inv.advance_leave : Advance cfg isStart txn w .crash (w.leave outcomes aborting) := by
  have hleft := leftOk_leave hinv henabled hstate
  refine .of_coordinates ⟨rfl, rfl, rfl, hleft.same, ⟨[], (List.append_nil _).symm, by simp⟩,
    ⟨[], (List.append_nil _).symm, by simp⟩, fun _ hsent => ⟨hsent, decide_eq_false hstate⟩,
    ⟨fun hactive => absurd hactive hstate, hleft.decided⟩, hleft.finished⟩ hinv

end

end

/-! ## Runs -/

/-- A property of states that every guarded event keeps holds in every state of a guarded run. -/
theorem txnSystem_invariant {cfg : Config} {isStart : Ts → Prop} {txn : Transaction}
    {G : World → Event → Prop} {w : World} (hstart : isStart txn.startTs) (hfresh : txn.Fresh)
    {I : World → Prop} (hinit : I (initial txn))
    (hstep : ∀ w event w', Inv cfg isStart txn w → I w → G w event →
      Advance cfg isStart txn w event w' → I w')
    (h : (txnSystem cfg isStart txn).Reachable G w) : Inv cfg isStart txn w ∧ I w := by
  refine h.invariant (I := fun w => Inv cfg isStart txn w ∧ I w) ?_ ?_
  · rintro _ rfl
    exact ⟨inv_initial hfresh, hinit⟩
  · rintro w event _ ⟨hinv, hI⟩ hG ⟨henabled, rfl⟩
    have hadvance := hinv.advance hstart henabled
    exact ⟨hadvance.inv, hstep w event _ hinv hI hG hadvance⟩

/-- The same for the runs in which calls may end by an exception, as long as none leaves the handle
active; the exception then keeps what a crash keeps. -/
theorem callSystem_invariant {cfg : Config} {isStart : Ts → Prop} {txn : Transaction}
    {G : World → CallEvent → Prop} {w : World} (hstart : isStart txn.startTs) (hfresh : txn.Fresh)
    {I : World → Prop} (hinit : I (initial txn))
    (hleave : ∀ w outcomes aborting, G w (.leave outcomes aborting) →
      (w.leave outcomes aborting).txn.state ≠ .active)
    (hcrash : ∀ w, G w (.step .crash))
    (hstep : ∀ w event w', Inv cfg isStart txn w → I w → G w (.step event) →
      Advance cfg isStart txn w event w' → I w')
    (h : (callSystem cfg isStart txn).Reachable G w) : Inv cfg isStart txn w ∧ I w := by
  refine h.invariant (I := fun w => Inv cfg isStart txn w ∧ I w) ?_ ?_
  · rintro _ rfl
    exact ⟨inv_initial hfresh, hinit⟩
  · rintro w event _ ⟨hinv, hI⟩ hG ⟨henabled, rfl⟩
    cases event with
    | step event =>
      have hadvance := hinv.advance hstart henabled
      exact ⟨hadvance.inv, hstep w event _ hinv hI hG hadvance⟩
    | leave outcomes aborting =>
      have hadvance := hinv.advance_leave henabled (hleave w outcomes aborting hG)
      exact ⟨hadvance.inv, hstep w .crash _ hinv hI (hcrash w) hadvance⟩

end StrataKV.Txn
