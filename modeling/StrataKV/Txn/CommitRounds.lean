import StrataKV.Txn.Run

/-!
# The rounds of a commit

`Commit` prewrites in rounds. A round groups the mutations by the Regions of the moment and sends a
request for each; the mutations of a request that was refused because the boundaries had moved are
grouped again in a second round. The routing table may be another one in every step of a run here,
and nothing is assumed of the answers.

The requests of a round, what is left to send and what was acknowledged make up the keys to prewrite
at all times (`Tracks`), so that a commit of the primary finds each of them acknowledged once.
-/

namespace StrataKV.Txn

open Mvcc World MvccMutation List Config TransitionSystem
open Std (ExtTreeMap)

/-! ## Grouping loses nothing -/

variable {α : Type}

/-- The fibres of a function over the values it takes, one after another. -/
lemma flatMap_filter_perm {β : Type} [DecidableEq β] (f : α → β) (values : List β)
    (items : List α) (hnodup : values.Nodup) (hcover : ∀ item ∈ items, f item ∈ values) :
    (values.flatMap fun value => items.filter fun item => f item = value).Perm items := by
  induction values generalizing items with
  | nil =>
    have : items = [] := eq_nil_iff_forall_not_mem.2 fun item hitem =>
      not_mem_nil (hcover item hitem)
    rw [this]
    rfl
  | cons value values ih =>
    obtain ⟨hvalue, hnodup⟩ := nodup_cons.1 hnodup
    -- the other fibres are those of the items outside the first
    have hfibres : (values.flatMap fun v => items.filter fun item => f item = v) =
        values.flatMap fun v =>
          (items.filter fun item => !decide (f item = value)).filter fun item => f item = v := by
      refine flatMap_congr fun v hv => ?_
      rw [filter_filter]
      refine filter_congr fun item _ => ?_
      have hne : v ≠ value := fun h => hvalue (h ▸ hv)
      by_cases hitem : f item = v <;> simp [hitem, hne]
    have hrest := ih (items.filter fun item => !decide (f item = value)) hnodup fun item hitem => by
      obtain ⟨hmem, hne⟩ := mem_filter.1 hitem
      rcases mem_cons.1 (hcover item hmem) with h | h
      · simp [h] at hne
      · exact h
    rw [flatMap_cons, hfibres]
    exact (hrest.append_left _).trans (filter_append_perm _ items)

/-- What is sent now and what is left are the items. -/
lemma Config.dispatch_perm (cfg : Config) (keyOf : α → Bytes) (items : List α) :
    ((cfg.dispatch keyOf items).1.flatMap Prod.snd ++ (cfg.dispatch keyOf items).2).Perm items := by
  unfold dispatch
  split
  · rw [append_nil, groupByRegion, flatMap_map]
    refine flatMap_filter_perm _ _ items (nodup_dedup _) fun item hitem => ?_
    rw [mem_dedup, mem_insertionSort]
    exact mem_map.2 ⟨item, hitem, rfl⟩
  · cases items with
    | nil => rfl
    | cons item rest => exact List.Perm.refl _

lemma World.flatMap_numbered (w : World) (batches : List (ℕ × List α)) :
    (w.numbered batches).flatMap Prod.snd = batches.flatMap Prod.snd := by
  have : (w.numbered batches).map Prod.snd = batches.map Prod.snd := by
    rw [numbered, map_map]
    calc batches.zipIdx.map (Prod.snd ∘ fun item => (w.sent.length + item.2, item.1.2))
        = (batches.zipIdx.map Prod.fst).map Prod.snd := by rw [map_map]; rfl
      _ = batches.map Prod.snd := by rw [zipIdx_map_fst]
  rw [flatMap_def, this, ← flatMap_def]

/-! ## The keys of a call -/

/-- The keys that `Commit` prewrites: the mutated ones and the primary. -/
def Transaction.prewriteKeys (txn : Transaction) : List Bytes := txn.pending.map MvccMutation.key

lemma Transaction.prewriteKeys_eq (txn : Transaction) : txn.prewriteKeys =
      (if txn.hasMutation txn.primaryKey then [] else [txn.primaryKey.1]) ++ txn.mutationKeys := by
  rw [prewriteKeys, pending, map_append, mutationKeys, map_map]
  congr 1
  split <;> rfl

lemma Transaction.nodup_prewriteKeys (txn : Transaction) : txn.prewriteKeys.Nodup := by
  have hmutations : txn.mutationKeys.Nodup := by
    rw [mutationKeys, ExtTreeMap.map_fst_toList_eq_keys]
    exact ExtTreeMap.nodup_keys
  rw [prewriteKeys_eq]
  split_ifs with hprimary
  · exact hmutations
  · refine nodup_cons.2 ⟨fun h => hprimary (mem_mutationKeys.1 h), hmutations⟩

lemma Transaction.Same.pending {txn txn' : Transaction} (h : txn.Same txn') :
    txn'.pending = txn.pending := by
  unfold Transaction.pending
  rw [h.hasMutation, h.primaryKey, h.mutations]

/-- The keys to prewrite: those of the mutations, and the primary. -/
lemma Transaction.mem_prewriteKeys {txn : Transaction} {key : Bytes} :
    key ∈ txn.prewriteKeys ↔ txn.hasMutation key = true ∨ key = txn.primaryKey.1 := by
  rw [prewriteKeys_eq, mem_append, mem_mutationKeys]
  split_ifs with hprimary
  · simp only [not_mem_nil, false_or]
    exact ⟨.inl, fun h => h.elim id fun h => h ▸ hprimary⟩
  · rw [mem_singleton]
    exact or_comm

/-- The keys that a request commits. -/
def commitKeys : Command → List Bytes
  | .commit key _ _ => [key]
  | .batchCommit keys _ _ => keys
  | _ => []

/-- The keys of the commit requests from the given number on. -/
def committed (first : ℕ) (sent : List Message) : List Bytes :=
  (sent.drop first).flatMap fun message => commitKeys message.command

lemma committed_append {first : ℕ} {sent new : List Message} (h : first ≤ sent.length) :
    committed first (sent ++ new) =
      committed first sent ++ new.flatMap fun message => commitKeys message.command := by
  rw [committed, drop_append_of_le_length h, flatMap_append]
  rfl

lemma committed_length (sent : List Message) : committed sent.length sent = [] := by
  rw [committed, drop_length]
  rfl

/-- The mutations whose prewrites an event acknowledges. -/
def acknowledgedBy (w : World) : Event → List MvccMutation
  | .proceed outcomes _ _ =>
    match w.phase with
    | .prewrite calls _ _ _ _ =>
      ((calls.zip outcomes).filter fun item => item.2.status = .ok).flatMap fun item => item.1.2
    | _ => []
  | _ => []

/-- A run of the coordinator with what its last call of `Commit` has done: the number of the first
request of the call and the mutations acknowledged in each step since. -/
structure CommitCall where
  world : World
  first : ℕ := 0
  acknowledged : List (List MvccMutation) := []

namespace CommitCall

/-- An event, with the routing table of its time. -/
def next (cfg : Config) (c : CommitCall) (step : (Bytes → ℕ) × Event) : CommitCall :=
  let world := c.world.next { cfg with route := step.1 } step.2
  match step.2 with
  | .commit _ => ⟨world, c.world.sent.length, []⟩
  | _ => ⟨world, c.first, c.acknowledged ++ [acknowledgedBy c.world step.2]⟩

/-- A call is made when none is running, and every request that is waited for has an outcome. -/
def Enabled (c : CommitCall) (step : (Bytes → ℕ) × Event) : Prop :=
  match step.2 with
  | .commit _ => c.world.phase.isIdle
  | .rollback _ => c.world.phase.isIdle
  | .proceed outcomes _ _ => outcomes.length = c.world.phase.calls.length
  | _ => True

/-- The keys in the commit requests of the call. -/
def committedKeys (c : CommitCall) : List Bytes := committed c.first c.world.sent

/-- The keys of the acknowledged prewrites of the call, by step. -/
def acknowledgedKeys (c : CommitCall) : List (List Bytes) :=
  c.acknowledged.map (List.map MvccMutation.key)

/-- All secondary commits are sent: the call has gone on to release locks, has nothing left to send,
or has returned. -/
def SecondariesSent (c : CommitCall) : Prop :=
  match c.world.phase with
  | .commitSecondaries _ rest _ => rest = []
  | .releaseLocks _ _ => True
  | .idle => ∃ r, c.world.returned.getLast? = some r ∧ r.call = .commit ∧ r.status = .ok
  | _ => False

end CommitCall

/-- The runs of one transaction's coordinator under changing routes. -/
def commitSystem (cfg : Config) (txn : Transaction) :
    TransitionSystem CommitCall ((Bytes → ℕ) × Event) :=
  .ofEnabled ⟨World.initial txn, 0, []⟩ CommitCall.Enabled (CommitCall.next cfg)

/-! ## What is tracked -/

section

variable (txn : Transaction) (first : ℕ) (acked : List MvccMutation) (w : World)

/-- What holds whatever the coordinator does next. -/
structure Core : Prop where
  same : txn.Same w.txn
  first_le : first ≤ w.sent.length
  complete : txn.primaryKey.1 ∈ committed first w.sent → acked.Perm txn.pending
  secondaries : ∀ key ∈ committed first w.sent, key ≠ txn.primaryKey.1 →
    key ∈ acked.map MvccMutation.key

/-- Every acknowledged secondary is in a commit request. -/
def AllSent : Prop :=
  ∀ key ∈ acked.map MvccMutation.key, key ≠ txn.primaryKey.1 → key ∈ committed first w.sent

/-- A cleanup after which `Commit` returns `Ok` follows no commit request. -/
def CleanupTracks : AfterCleanup → Prop
  | .emptyCommit => committed first w.sent = []
  | .abort status => status ≠ .ok
  | .rollback => True

/-- What holds while the coordinator waits. -/
def PhaseTracks : Prop :=
  match w.phase with
  | .prewrite calls rest mayRegroup status prewritten =>
    committed first w.sent = [] ∧ prewritten = acked.map MvccMutation.key ∧
      (mayRegroup = true → rest = []) ∧
      (status = .ok → (acked ++ (calls.flatMap Prod.snd ++ rest)).Perm txn.pending)
  | .allocateCommitTs prewritten =>
    prewritten = acked.map MvccMutation.key ∧ acked.Perm txn.pending
  | .commitPrimary _ _ prewritten => prewritten = acked.map MvccMutation.key ∧ acked.Perm txn.pending
  | .queryPrimary _ _ prewritten => prewritten = acked.map MvccMutation.key ∧ acked.Perm txn.pending
  | .commitSecondaries _ rest _ =>
    acked.Perm txn.pending ∧ (∀ key ∈ rest, key ∈ acked.map MvccMutation.key) ∧
      ∀ key ∈ acked.map MvccMutation.key, key ≠ txn.primaryKey.1 →
        key ∈ committed first w.sent ∨ key ∈ rest
  | .releaseLocks _ _ => AllSent txn first acked w
  | .cleanup _ _ _ after => CleanupTracks first w after
  | .idle => ∀ r, w.returned.getLast? = some r → r.call = .commit → r.status = .ok →
    txn.primaryKey.1 ∈ committed first w.sent → AllSent txn first acked w
  | _ => True

structure Tracks : Prop extends Core txn first acked w where
  phase : PhaseTracks txn first acked w

end

section

variable {cfg : Config} {txn : Transaction} {first : ℕ} {acked : List MvccMutation} {w w' : World}

namespace Core

/-- Messages that commit nothing leave the committed keys as they are. -/
lemma quiet (h : Core txn first acked w) {new : List Message} (hsame : txn.Same w'.txn)
    (hsent : w'.sent = w.sent ++ new) (hnew : ∀ message ∈ new, commitKeys message.command = []) :
    Core txn first acked w' ∧ committed first w'.sent = committed first w.sent := by
  have heq : committed first w'.sent = committed first w.sent := by
    rw [hsent, committed_append h.first_le, flatMap_eq_nil_iff.2 hnew, append_nil]
  refine ⟨⟨hsame, ?_, ?_, ?_⟩, heq⟩
  · rw [hsent, length_append]
    exact h.first_le.trans (Nat.le_add_right _ _)
  · rw [heq]
    exact h.complete
  · rw [heq]
    exact h.secondaries

variable {t : Transaction} {status : TxnStatus}

section

variable (h : Core txn first acked w)

include h

/-- `Commit` may return ok once every commit is sent, if that of the primary is. -/
lemma ret (hsame : txn.Same t) {call : ApiCall}
    (hok : call = .commit → status = .ok → txn.primaryKey.1 ∈ committed first w.sent →
      AllSent txn first acked w) :
    Tracks txn first acked ({ w with txn := t }.ret call status) where
  same := hsame
  first_le := h.first_le
  complete := h.complete
  secondaries := h.secondaries
  phase := by
    intro r hr hcall hstatus
    have : r = ⟨call, status, w.prewriteSent⟩ := by
      simpa [World.ret, World.prewriteSent] using hr.symm
    subst this
    exact hok hcall hstatus

/-- `Rollback` returns, or `Commit` with a failure. -/
lemma ret_other (hsame : txn.Same t) {call : ApiCall} (hother : call = .rollback ∨ status ≠ .ok) :
    Tracks txn first acked ({ w with txn := t }.ret call status) := by
  refine h.ret hsame fun hcall hstatus => ?_
  rcases hother with hother | hother
  · rw [hcall] at hother
    cases hother
  · exact absurd hstatus hother

/-- Requests for batches that commit nothing, and the phase that waits for them. -/
lemma sendAll {α : Type} {batches : List (ℕ × List α)}
    {command : List α → Command} {phase : Phase} (hquiet : ∀ batch, commitKeys (command batch) = [])
    (hphase : committed first (w.sendAll batches command).sent = committed first w.sent →
      PhaseTracks txn first acked { w.sendAll batches command with phase := phase }) :
    Tracks txn first acked { w.sendAll batches command with phase := phase } := by
  have hnew : ∀ message ∈ batches.map fun batch =>
      (⟨.coordinator, batch.1, command batch.2⟩ : Message), commitKeys message.command = [] := by
    intro message hmessage
    obtain ⟨batch, -, rfl⟩ := mem_map.1 hmessage
    exact hquiet batch.2
  have hquiet : Core txn first acked { w.sendAll batches command with phase := phase } ∧ _ :=
    h.quiet h.same rfl hnew
  exact { hquiet.1 with phase := hphase hquiet.2 }

/-- A message that commits nothing may be sent. -/
lemma send {sender : Sender} {region : ℕ} {command : Command}
    {phase : Phase} (hquiet : commitKeys command = [])
    (hphase : committed first (w.send sender region command).sent = committed first w.sent →
      PhaseTracks txn first acked { w.send sender region command with phase := phase }) :
    Tracks txn first acked { w.send sender region command with phase := phase } := by
  have hquiet : Core txn first acked { w.send sender region command with phase := phase } ∧ _ :=
    h.quiet h.same rfl fun message hmessage => by
      rw [mem_singleton.1 hmessage]
      exact hquiet
  exact { hquiet.1 with phase := hphase hquiet.2 }

end

/-! ### Cleanup -/

variable {aggregate : TxnStatus} {after : AfterCleanup} (h : Core txn first acked w)

include h

lemma finishCleanup (hafter : CleanupTracks first w after) :
    Tracks txn first acked (w.finishCleanup aggregate after) := by
  have hclear := h.same.clearPessimisticLocks
  unfold World.finishCleanup
  cases after with
  | emptyCommit =>
    by_cases hok : aggregate = .ok
    · simp only [hok, if_true]
      refine h.ret hclear.markFinished fun _ _ hmem => ?_
      rw [show committed first w.sent = [] from hafter] at hmem
      exact absurd hmem not_mem_nil
    · simp only [hok, if_false]
      exact h.ret_other h.same.markCleanupPending (.inr (by decide))
  | abort status =>
    by_cases hok : aggregate = .ok
    · simp only [hok, if_true]
      refine h.ret_other hclear (.inr ?_)
      split
      · decide
      · exact hafter
    · simp only [hok, if_false]
      exact h.ret_other h.same.markCleanupPending (.inr (by decide))
  | rollback =>
    by_cases hok : aggregate = .ok
    · simp only [hok, if_true]
      exact h.ret_other hclear.markFinished (.inl rfl)
    · simp only [hok, if_false]
      split
      · exact h.ret_other h.same.markFinished (.inl rfl)
      · exact h.ret_other h.same.markCleanupPending (.inl rfl)

omit h in
lemma commitKeys_rollbackCommand (startTs : Ts) (keys : List Bytes) :
    commitKeys (cfg.rollbackCommand startTs keys) = [] := by
  unfold rollbackCommand
  split <;> rfl

variable {keys : List Bytes}

lemma cleanupNext (hafter : CleanupTracks first w after) :
    Tracks txn first acked (w.cleanupNext cfg keys aggregate after) := by
  unfold World.cleanupNext
  dsimp only
  split
  · exact h.finishCleanup hafter
  · refine h.sendAll (commitKeys_rollbackCommand _) fun heq => ?_
    cases after with
    | emptyCommit => exact heq.trans hafter
    | abort status => exact hafter
    | rollback => exact trivial

lemma withTxn (hsame : txn.Same t) :
    Core txn first acked { w with txn := t } := { h with same := hsame }

lemma abort (hstatus : status ≠ .ok) : Tracks txn first acked
      ({ w with txn := w.txn.markAbortOnly }.startCleanup cfg (.abort status)) :=
  (h.withTxn h.same.markAbortOnly).cleanupNext hstatus

/-! ### Prewrites -/

omit h in
lemma commitKeys_prewriteCommand (t : Transaction) (mutations : List MvccMutation) :
    commitKeys (cfg.prewriteCommand t mutations) = [] := by
  unfold prewriteCommand
  split
  · rfl
  · dsimp only
    split <;> rfl

lemma prewriteDone (hall : status = .ok → acked.Perm txn.pending) :
    Tracks txn first acked (w.prewriteDone cfg status (acked.map key)) := by
  unfold World.prewriteDone
  split_ifs with hstatus
  · exact h.abort hstatus
  · exact { h with phase := ⟨rfl, hall (not_not.1 hstatus)⟩ }

/-- The next prewrites, which together with the acknowledged ones are all the mutations. -/
lemma prewriteNext {mutations : List MvccMutation}
    {mayRegroup : Bool} (hnone : committed first w.sent = [])
    (hregroup : mayRegroup = true → mutations ≠ [] → cfg.batchEnabled = true)
    (hall : status = .ok → (acked ++ mutations).Perm txn.pending) :
    Tracks txn first acked (w.prewriteNext cfg mutations mayRegroup status (acked.map key)) := by
  set sorted := if cfg.batchEnabled then mutations.insertionSort fun a b => a.key ≤ b.key
    else mutations with hsorted
  have hperm : sorted.Perm mutations := by
    rw [hsorted]
    split
    · exact perm_insertionSort _ _
    · rfl
  unfold World.prewriteNext
  rw [← hsorted]
  dsimp only
  split_ifs with hbatches
  · have : mutations = [] := by
      rw [eq_nil_of_dispatch cfg _ _ hbatches] at hperm
      exact hperm.nil_eq.symm
    refine h.prewriteDone fun hstatus => ?_
    simpa [this] using hall hstatus
  · refine h.sendAll (commitKeys_prewriteCommand _) fun heq => ⟨heq.trans hnone, rfl, ?_, ?_⟩
    · intro hmay
      have hmutations : mutations ≠ [] := by
        rintro rfl
        rw [hperm.eq_nil] at hbatches
        unfold dispatch at hbatches
        split at hbatches <;> exact hbatches rfl
      unfold dispatch
      rw [if_pos (hregroup hmay hmutations)]
    · intro hstatus
      refine List.Perm.trans (List.Perm.append_left _ ?_) (hall hstatus)
      rw [flatMap_numbered]
      exact (dispatch_perm cfg key sorted).trans hperm

/-! ### Commits -/

lemma releaseNext (hsent : AllSent txn first acked w) :
    Tracks txn first acked (w.releaseNext cfg keys) := by
  unfold World.releaseNext
  dsimp only
  split
  · exact h.ret h.same.clearPessimisticLocks.markFinished fun _ _ _ => hsent
  · refine h.sendAll (commitKeys_rollbackCommand _) fun heq key hkey hne => ?_
    exact heq ▸ hsent key hkey hne

variable {commitTs : Ts}

omit h in
lemma commitKeys_commitCommand {startTs : Ts} {batch : ℕ × List Bytes}
    (h : batch ∈ (cfg.dispatch id keys).1) :
    commitKeys (cfg.commitCommand startTs commitTs batch.2) = batch.2 := by
  unfold commitCommand
  rcases (mem_dispatch cfg id keys h).2 with henabled | ⟨key, hkey⟩
  · rw [if_pos henabled]
    rfl
  · rw [hkey]
    split <;> rfl

section

variable (hall : acked.Perm txn.pending)

include hall

/-- Only acknowledged keys are committed. -/
lemma commitNext (hkeys : ∀ key ∈ keys, key ∈ acked.map MvccMutation.key)
    (hsecondary : ∀ key ∈ acked.map MvccMutation.key, key ≠ txn.primaryKey.1 →
      key ∈ committed first w.sent ∨ key ∈ keys) :
    Tracks txn first acked (w.commitNext cfg keys commitTs) := by
  unfold World.commitNext
  dsimp only
  split_ifs with hbatches
  · refine h.releaseNext fun key hkey hne => (hsecondary key hkey hne).resolve_right ?_
    rw [eq_nil_of_dispatch cfg _ _ hbatches]
    exact not_mem_nil
  · set batches := (cfg.dispatch id keys).1 with hbatches
    have hperm := dispatch_perm cfg id keys
    rw [← hbatches] at hperm
    have hsent : committed first
        (w.sendAll batches (cfg.commitCommand w.txn.startTs commitTs)).sent =
          committed first w.sent ++ batches.flatMap Prod.snd := by
      rw [World.sendAll, committed_append h.first_le, flatMap_map]
      congr 1
      exact flatMap_congr fun batch hbatch => commitKeys_commitCommand hbatch
    have hbatch : ∀ key ∈ batches.flatMap Prod.snd, key ∈ keys := fun key hkey =>
      hperm.mem_iff.1 (mem_append_left _ hkey)
    refine ⟨⟨h.same, ?_, fun _ => hall, fun key hkey hne => ?_⟩, hall, fun key hkey => ?_,
      fun key hkey hne => ?_⟩
    · change first ≤ (w.sent ++ _).length
      rw [length_append]
      exact h.first_le.trans (Nat.le_add_right _ _)
    · rcases mem_append.1 (hsent ▸ hkey) with hkey | hkey
      · exact h.secondaries key hkey hne
      · exact hkeys key (hbatch key hkey)
    · exact hkeys key (hperm.mem_iff.1 (mem_append_right _ hkey))
    · rcases hsecondary key hkey hne with hsent' | hkey'
      · exact .inl (hsent ▸ mem_append_left _ hsent')
      · rcases mem_append.1 (hperm.mem_iff.2 hkey') with hkey' | hkey'
        · exact .inl (hsent ▸ mem_append_right _ hkey')
        · exact .inr hkey'

lemma commitSecondaries : Tracks txn first acked
      (w.commitNext cfg (w.secondaryKeys cfg (acked.map key)) commitTs) := by
  have hmem (key : Bytes) : key ∈ w.secondaryKeys cfg (acked.map MvccMutation.key) ↔
      key ∈ acked.map MvccMutation.key ∧ key ≠ txn.primaryKey.1 := by
    rw [secondaryKeys, mem_batchOrder, h.same.primaryKey, mem_filter]
    exact and_congr_right fun _ => decide_eq_true_iff
  exact h.commitNext hall (fun key hkey => ((hmem key).1 hkey).1)
    fun key hkey hne => .inr ((hmem key).2 ⟨hkey, hne⟩)

/-- The primary is committed first. -/
lemma sendCommitPrimary : Tracks txn first acked
      (w.sendCommitPrimary cfg commitTs (acked.map key)) := by
  have hsent : committed first
      (w.sendCommitPrimary cfg commitTs (acked.map key)).sent =
      committed first w.sent ++ [w.txn.primaryKey.1] := committed_append h.first_le
  refine ⟨⟨h.same, ?_, fun _ => hall, fun key hkey hne => ?_⟩, rfl, hall⟩
  · change first ≤ (w.sent ++ _).length
    rw [length_append]
    exact h.first_le.trans (Nat.le_add_right _ _)
  · rcases mem_append.1 (hsent ▸ hkey) with hkey | hkey
    · exact h.secondaries key hkey hne
    · rw [mem_singleton.1 hkey, h.same.primaryKey] at hne
      exact absurd rfl hne

end

lemma resultUnknown : Tracks txn first acked w.resultUnknown :=
  h.ret_other h.same.markResultUnknown (.inr (by decide))

/-! ### Rollback -/

lemma resolveNext {record : TxnRecordStatus} {resolved : TxnStatus} :
    Tracks txn first acked (w.resolveNext cfg keys record resolved) := by
  cases keys with
  | cons key rest => exact h.send rfl fun _ => trivial
  | nil =>
    unfold resolveNext
    dsimp only
    split
    · exact h.ret_other h.same.markCleanupPending (.inl rfl)
    · exact h.ret_other h.same.clearPessimisticLocks.markFinished (.inl rfl)

lemma startRollback (nowMs : Option UInt64) :
    Tracks txn first acked (w.startRollback cfg nowMs) := by
  have hret (status : TxnStatus) : Tracks txn first acked (w.ret .rollback status) :=
    h.ret_other h.same (.inl rfl)
  unfold World.startRollback
  split
  · exact hret _
  · split
    · split
      · exact hret _
      · exact h.send rfl fun _ => trivial
    · exact hret _
  · exact h.cleanupNext trivial

end Core

/-! ### `Commit` -/

/-- A call to `Commit` starts with nothing acknowledged. -/
lemma Core.startCommit (h : Core txn first acked w) (active : TxnStatus) :
    Tracks txn w.sent.length [] (w.startCommit cfg active) := by
  have hnone : committed w.sent.length w.sent = [] := committed_length _
  have hcore : Core txn w.sent.length [] w := by
    refine ⟨h.same, le_rfl, ?_, ?_⟩
    · rw [hnone]
      exact fun hmem => absurd hmem not_mem_nil
    · rw [hnone]
      exact fun key hmem => absurd hmem not_mem_nil
  have hret {t : Transaction} (hsame : txn.Same t) (status : TxnStatus) :
      Tracks txn w.sent.length [] ({ w with txn := t }.ret .commit status) :=
    hcore.ret hsame fun _ _ hmem => by
      rw [hnone] at hmem
      exact absurd hmem not_mem_nil
  unfold World.startCommit
  split
  · exact hret h.same _
  · exact hret h.same _
  · exact hret h.same _
  · exact hret h.same _
  · split_ifs
    · exact hret h.same.markAbortOnly _
    · exact hret h.same _
    · exact hcore.cleanupNext hnone
    · exact hret h.same _
    · refine hcore.prewriteNext hnone (fun henabled _ => henabled) fun _ => ?_
      rw [h.same.pending]
      rfl

/-- The mutations of the acknowledged requests among the answered ones. -/
def okMutations (items : List ((ℕ × List MvccMutation) × Outcome)) : List MvccMutation :=
  (items.filter fun item => item.2.status = .ok).flatMap fun item => item.1.2

/-- The answers of a round: what was acknowledged is added, and the rest is to be grouped again if
nothing has failed. -/
lemma prewriteReplies_spec (mayRegroup : Bool) (items : List ((ℕ × List MvccMutation) × Outcome))
    (status : TxnStatus) (prewritten : List Bytes) (regroup : List MvccMutation) :
    let result := prewriteReplies mayRegroup (status, prewritten, regroup) items
    result.2.1 = prewritten ++ (okMutations items).map key ∧
      (mayRegroup = false → result.2.2 = regroup) ∧ (result.1 = .ok → status = .ok ∧
        (okMutations items ++ result.2.2).Perm (regroup ++ items.flatMap fun item => item.1.2)) := by
  induction items generalizing status prewritten regroup with
  | nil => simp [prewriteReplies, okMutations]
  | cons item items ih =>
    obtain ⟨call, outcome⟩ := item
    simp only [prewriteReplies, flatMap_cons]
    by_cases hok : outcome.status = .ok
    · have hmutations : okMutations ((call, outcome) :: items) = call.2 ++ okMutations items := by
        simp [okMutations, hok]
      rw [hmutations]
      simp only [hok, if_true]
      obtain ⟨hacked, hregroup, hall⟩ := ih status (prewritten ++ call.2.map key) regroup
      refine ⟨?_, hregroup, fun h => ?_⟩
      · rw [hacked, append_assoc, map_append]
      · obtain ⟨hstatus, hperm⟩ := hall h
        refine ⟨hstatus, ?_⟩
        rw [append_assoc]
        exact (hperm.append_left _).trans (by
          rw [← append_assoc, ← append_assoc]
          exact perm_append_comm.append_right _)
    · have hmutations : okMutations ((call, outcome) :: items) = okMutations items := by
        simp [okMutations, hok]
      rw [hmutations]
      simp only [if_neg hok]
      by_cases hmay : (outcome.regroupRequired && mayRegroup) = true
      · simp only [if_pos hmay]
        obtain ⟨hacked, -, hall⟩ := ih status prewritten (regroup ++ call.2)
        refine ⟨hacked, fun h => ?_, fun h => ?_⟩
        · rw [h, Bool.and_false] at hmay
          cases hmay
        · rw [← append_assoc]
          exact hall h
      · simp only [if_neg hmay]
        obtain ⟨hacked, hregroup, hall⟩ := ih (if status = .ok then outcome.status else status)
          prewritten regroup
        refine ⟨hacked, hregroup, fun h => ?_⟩
        have := (hall h).1
        split_ifs at this with hne
        · exact absurd this hok
        · exact absurd this hne

variable {outcomes : List Outcome}

/-- The replies to prewrites, with what they acknowledge. -/
lemma Tracks.prewrite (h : Tracks txn first acked w) {calls : List (ℕ × List MvccMutation)}
    {rest : List MvccMutation} {mayRegroup : Bool} {status : TxnStatus} {prewritten : List Bytes}
    (hphase : w.phase = .prewrite calls rest mayRegroup status prewritten)
    (hlength : outcomes.length = w.phase.calls.length) {expired : Bool} {nowMs : UInt64} :
    Tracks txn first (acked ++ acknowledgedBy w (.proceed outcomes expired nowMs))
      (w.proceed cfg outcomes expired nowMs) := by
  have htracks := h.phase
  rw [PhaseTracks, hphase] at htracks
  obtain ⟨hnone, rfl, hrest, hall⟩ := htracks
  rw [hphase, Phase.calls, length_map] at hlength
  have hacked : acknowledgedBy w (.proceed outcomes expired nowMs) =
      okMutations (calls.zip outcomes) := by
    rw [acknowledgedBy, hphase]
    rfl
  have hcalls : ((calls.zip outcomes).flatMap fun item => item.1.2) = calls.flatMap Prod.snd := by
    have hfst : (calls.zip outcomes).map Prod.fst = calls := map_fst_zip hlength.ge
    calc ((calls.zip outcomes).flatMap fun item => item.1.2)
        = ((calls.zip outcomes).map Prod.fst).flatMap Prod.snd := by rw [flatMap_map]
      _ = calls.flatMap Prod.snd := by rw [hfst]
  obtain ⟨hreplies, hsame, hok⟩ := prewriteReplies_spec mayRegroup (calls.zip outcomes) status
    (acked.map key) []
  rw [nil_append, hcalls] at hok
  rw [← map_append, ← hacked] at hreplies
  have hcore : Core txn first (acked ++ acknowledgedBy w (.proceed outcomes expired nowMs)) w := by
    refine ⟨h.same, h.first_le, ?_, ?_⟩
    · rw [hnone]
      exact fun hmem => absurd hmem not_mem_nil
    · rw [hnone]
      exact fun key hmem => absurd hmem not_mem_nil
  unfold proceed
  rw [hphase]
  dsimp only
  rw [hreplies]
  split
  · rename_i hregroup
    -- only a round that may regroup leaves something, and then nothing else is left to send
    have hmay : mayRegroup = true := by
      cases hmay : mayRegroup with
      | true => rfl
      | false => exact absurd (hsame hmay) hregroup
    refine hcore.prewriteNext hnone (fun hfalse => by cases hfalse) fun hstatus => ?_
    obtain ⟨hstatus, hperm⟩ := hok hstatus
    have := hall hstatus
    rw [hrest hmay, append_nil] at this
    rw [hacked, append_assoc]
    exact (hperm.append_left _).trans this
  · rename_i hregroup
    have hregroup := not_not.1 hregroup
    split_ifs with hstatus
    · refine hcore.prewriteNext hnone (fun hmay hne => absurd (hrest hmay) hne) fun hstatus => ?_
      obtain ⟨hstatus, hperm⟩ := hok hstatus
      rw [hregroup, append_nil] at hperm
      rw [hacked, append_assoc]
      exact ((hperm.append_right _).append_left _).trans (hall hstatus)
    · exact hcore.prewriteDone fun h => absurd h hstatus

lemma cleanupReplies_same {items : List ((ℕ × List Bytes) × Outcome)}
    {acc : Transaction × TxnStatus} (h : txn.Same acc.1) :
    txn.Same (cleanupReplies acc items).1 := by
  induction items generalizing acc with
  | nil => exact h
  | cons item items ih =>
    refine ih ?_
    unfold cleanupReply
    split_ifs
    · exact h.forgetPessimisticLocks _
    · exact h
    · exact h

section

variable (h : Tracks txn first acked w)

include h

/-- The coordinator goes on from a phase that acknowledges nothing. -/
lemma Tracks.proceed_other (hother : ∀ calls rest mayRegroup status prewritten,
      w.phase ≠ .prewrite calls rest mayRegroup status prewritten)
    (expired : Bool) (nowMs : UInt64) :
    Tracks txn first acked (w.proceed cfg outcomes expired nowMs) := by
  have hcore := h.toCore
  have htracks := h.phase
  unfold PhaseTracks at htracks
  unfold proceed
  cases hphase : w.phase with
  | prewrite calls rest mayRegroup status prewritten => exact absurd hphase (hother _ _ _ _ _)
  | commitPrimary call commitTs prewritten =>
    rw [hphase] at htracks
    obtain ⟨rfl, hall⟩ := htracks
    dsimp only
    split
    · split_ifs
      · exact hcore.commitSecondaries hall
      · exact hcore.resultUnknown
      · exact hcore.send rfl fun _ => ⟨rfl, hall⟩
    · exact h
  | queryPrimary call commitTs prewritten =>
    rw [hphase] at htracks
    obtain ⟨rfl, hall⟩ := htracks
    dsimp only
    split
    · split_ifs
      · exact hcore.commitSecondaries hall
      · exact hcore.abort (by decide)
      · exact hcore.resultUnknown
      · exact hcore.sendCommitPrimary hall
      · exact hcore.send rfl fun _ => ⟨rfl, hall⟩
    · exact h
  -- the keys that are left were acknowledged
  | commitSecondaries calls rest commitTs =>
    rw [hphase] at htracks
    exact hcore.commitNext htracks.1 htracks.2.1 htracks.2.2
  | releaseLocks calls rest =>
    rw [hphase] at htracks
    exact hcore.releaseNext htracks
  | cleanup calls rest aggregate after =>
    rw [hphase] at htracks
    refine (hcore.withTxn (cleanupReplies_same h.same)).cleanupNext ?_
    cases after with
    | emptyCommit | abort status => exact htracks
    | rollback => exact trivial
  | queryRollback call =>
    dsimp only
    split
    · split
      · exact hcore.ret_other h.same (.inl rfl)
      · exact hcore.resolveNext
    · exact h
  | resolve call key rest record resolved =>
    dsimp only
    split
    · exact hcore.resolveNext
    · exact h
  | _ => exact h

/-- The replies of every phase. -/
lemma Tracks.proceed
    (hlength : outcomes.length = w.phase.calls.length) (expired : Bool) (nowMs : UInt64) :
    Tracks txn first (acked ++ acknowledgedBy w (.proceed outcomes expired nowMs))
      (w.proceed cfg outcomes expired nowMs) := by
  by_cases hprewrite : ∃ calls rest mayRegroup status prewritten,
      w.phase = .prewrite calls rest mayRegroup status prewritten
  · obtain ⟨calls, rest, mayRegroup, status, prewritten, hphase⟩ := hprewrite
    exact h.prewrite hphase hlength
  · have hother : ∀ calls rest mayRegroup status prewritten,
        w.phase ≠ .prewrite calls rest mayRegroup status prewritten := fun calls rest may status pre
      hphase => hprewrite ⟨calls, rest, may, status, pre, hphase⟩
    have hacked : acknowledgedBy w (.proceed outcomes expired nowMs) = [] := by
      unfold acknowledgedBy
      dsimp only
      split
      · rename_i hphase
        exact absurd hphase (hother _ _ _ _ _)
      · rfl
    rw [hacked, append_nil]
    exact h.proceed_other hother expired nowMs

/-- A step that leaves the coordinator where it is and commits nothing. -/
lemma Tracks.quiet {new : List Message} (htxn : w'.txn = w.txn)
    (hphase : w'.phase = w.phase) (hreturned : w'.returned = w.returned)
    (hsent : w'.sent = w.sent ++ new) (hnew : ∀ message ∈ new, commitKeys message.command = []) :
    Tracks txn first acked w' := by
  obtain ⟨hcore, heq⟩ := h.toCore.quiet (htxn ▸ h.same) hsent hnew
  refine { hcore with phase := ?_ }
  have htracks := h.phase
  unfold PhaseTracks AllSent CleanupTracks at htracks ⊢
  rw [hphase, heq, hreturned]
  exact htracks

lemma Tracks.send {sender : Sender} {region : ℕ} {command : Command}
    {tasks : List ResolverTask} (hquiet : commitKeys command = []) :
    Tracks txn first acked { w.send sender region command with tasks := tasks } :=
  h.quiet rfl rfl rfl rfl fun message hmessage => by
    rw [mem_singleton.1 hmessage]
    exact hquiet

/-- The other events acknowledge nothing and make no call of `Commit`. -/
lemma Tracks.next {event : Event} (hcommit : ∀ active, event ≠ .commit active)
    (hproceed : ∀ outcomes expired nowMs, event ≠ .proceed outcomes expired nowMs) :
    Tracks txn first acked (w.next cfg event) := by
  have hcore := h.toCore
  cases event with
  | other region step =>
    exact h.quiet rfl rfl rfl (append_nil _).symm fun _ hnew => absurd hnew not_mem_nil
  | acquire key forUpdateTs expireAt => exact h.send rfl
  | deliver number nowMs nowMs' raftIndex env =>
    simp only [World.next, World.deliver]
    split
    · exact h
    · exact h.quiet rfl rfl rfl (append_nil _).symm fun _ hnew =>
        absurd hnew not_mem_nil
  | observe key nowMs scan =>
    simp only [World.next, World.observe]
    split
    · exact h
    · split
      · exact h.send rfl
      · exact h.send rfl
  | resolveTask task reply =>
    simp only [World.next, World.resolveTask]
    split
    · exact h
    · refine h.send ?_
      split <;> rfl
  | commit active => exact absurd rfl (hcommit active)
  | allocated commitTs =>
    have htracks := h.phase
    unfold PhaseTracks at htracks
    simp only [World.next, World.allocated]
    split
    · rename_i prewritten hphase
      rw [hphase] at htracks
      obtain ⟨rfl, hall⟩ := htracks
      split
      · exact hcore.sendCommitPrimary hall
      · exact hcore.abort (by decide)
    · exact h
  | proceed outcomes expired nowMs => exact absurd rfl (hproceed outcomes expired nowMs)
  | rollback nowMs => exact hcore.startRollback nowMs
  | crash => exact { hcore with phase := trivial }

end

end

/-! ## The result -/

section

variable {cfg : Config} {txn : Transaction} {c : CommitCall}

/-- Every event keeps the invariant. -/
lemma Tracks.step (h : Tracks txn c.first c.acknowledged.flatten c.world)
    {step : (Bytes → ℕ) × Event} (henabled : c.Enabled step) :
    Tracks txn (c.next cfg step).first (c.next cfg step).acknowledged.flatten
      (c.next cfg step).world := by
  obtain ⟨route, event⟩ := step
  unfold CommitCall.Enabled at henabled
  cases event with
  | commit active => exact h.toCore.startCommit active
  | proceed outcomes expired nowMs =>
    simp only [CommitCall.next, flatten_append, flatten_singleton]
    exact h.proceed henabled expired nowMs
  | _ =>
    simp only [CommitCall.next, acknowledgedBy, flatten_append, flatten_singleton, append_nil]
    exact h.next (fun _ => Event.noConfusion) (fun _ _ _ => Event.noConfusion)

/-- So it holds in every run. -/
lemma commitSystem_tracks (h : (commitSystem cfg txn).Reachable anyStep c) :
    Tracks txn c.first c.acknowledged.flatten c.world := by
  refine h.invariant (I := fun c => Tracks txn c.first c.acknowledged.flatten c.world) ?_ ?_
  · rintro c rfl
    refine ⟨⟨.refl _, Nat.zero_le _, ?_, ?_⟩, ?_⟩
    · exact fun hmem => absurd hmem not_mem_nil
    · exact fun key hmem => absurd hmem not_mem_nil
    · intro r hr
      cases hr
  · rintro c step c' hc - ⟨henabled, rfl⟩
    exact hc.step henabled

/-- When `Commit` has sent the commit of the primary, each of its mutations, with the lock-only one
of a primary that is not mutated, has had one prewrite acknowledged, in one of the rounds. The keys
of its other commit requests are acknowledged keys, and all of them once the secondaries are sent. -/
theorem commit_after_prewrites (h : (commitSystem cfg txn).Reachable TransitionSystem.anyStep c) :
    (txn.primaryKey.1 ∈ c.committedKeys → (∀ key, c.acknowledgedKeys.flatten.count key =
        if txn.hasMutation key = true ∨ key = txn.primaryKey.1 then 1 else 0) ∧
      (∀ mutation ∈ c.acknowledged.flatten, mutation ∈ txn.pending) ∧
      c.acknowledgedKeys.Pairwise List.Disjoint) ∧
    (∀ key ∈ c.committedKeys, key ≠ txn.primaryKey.1 → key ∈ c.acknowledgedKeys.flatten) ∧
    (c.SecondariesSent → txn.primaryKey.1 ∈ c.committedKeys → ∀ key, key ≠ txn.primaryKey.1 →
        (key ∈ c.committedKeys ↔ key ∈ c.acknowledgedKeys.flatten)) := by
  have htracks := commitSystem_tracks h
  have hflatten : c.acknowledgedKeys.flatten = c.acknowledged.flatten.map key :=
    map_flatten.symm
  rw [hflatten]
  refine ⟨fun hprimary => ?_, htracks.secondaries, fun hsent hprimary key hne => ?_⟩
  · have hperm := htracks.complete hprimary
    have hkeys : (c.acknowledged.flatten.map key).Perm txn.prewriteKeys := hperm.map _
    have hnodup := hkeys.nodup_iff.2 txn.nodup_prewriteKeys
    refine ⟨fun key => ?_, fun mutation => hperm.mem_iff.1, ?_⟩
    · rw [hnodup.count]
      exact if_congr (hkeys.mem_iff.trans Transaction.mem_prewriteKeys) rfl rfl
    · rw [← hflatten] at hnodup
      exact (nodup_flatten.1 hnodup).2
  · refine ⟨fun hkey => htracks.secondaries key hkey hne, fun hkey => ?_⟩
    have hphase := htracks.phase
    unfold PhaseTracks at hphase
    unfold CommitCall.SecondariesSent at hsent
    split at hsent
    · rename_i hcommit
      rw [hcommit] at hphase
      refine (hphase.2.2 key hkey hne).resolve_right ?_
      rw [hsent]
      exact not_mem_nil
    · rename_i hrelease
      rw [hrelease] at hphase
      exact hphase key hkey hne
    · rename_i hidle
      rw [hidle] at hphase
      obtain ⟨r, hr, hcall, hstatus⟩ := hsent
      exact hphase r hr hcall hstatus hprimary key hkey hne
    · cases hsent

end

instance (c : CommitCall) (step : (Bytes → ℕ) × Event) : Decidable (c.Enabled step) := by
  obtain ⟨_, event⟩ := step
  cases event <;> dsimp only [CommitCall.Enabled] <;> infer_instance

/-- Two mutations under a primary that only holds a lock. -/
def lockedPrimary : Transaction where
  startTs := 5
  mutations := .ofList [([2], { value := [20] }), ([3], { value := [30] })] compare
  pessimisticLocks := [[1]]
  primaryKey := ⟨[1], one_lt_maxSize⟩
  maxForUpdateTs := 6

/-- The Region splits after the first round was grouped, and both halves take the second one. -/
def splitRun : List ((Bytes → ℕ) × Event) :=
  let before : Bytes → ℕ := fun _ => 0
  let after : Bytes → ℕ := fun key => if key = [3] then 1 else 0
  [(before, .commit .ok),
    (after, .proceed [{ status := .resultUnknown, regroupRequired := true }] false 0),
    (after, .proceed [{ status := .ok }, { status := .ok }] false 0),
    (after, .allocated (some 20)), (after, .proceed [{ status := .ok }] false 0)]

theorem commit_after_prewrites_splitRun :
    let c := splitRun.foldl (CommitCall.next ⟨fun _ => 0, true, 1000⟩)
      ⟨initial lockedPrimary, 0, []⟩
    [1] ∈ c.committedKeys ∧ c.acknowledgedKeys.flatten.count [1] = 1 ∧ c.SecondariesSent ∧
      ([3] ∈ c.committedKeys ↔ [3] ∈ c.acknowledgedKeys.flatten) := by
  intro c
  have h : (commitSystem ⟨fun _ => 0, true, 1000⟩ lockedPrimary).Reachable anyStep c :=
    Guarded.reachable_enabled (by decide)
  have hprimary : [1] ∈ c.committedKeys := by decide
  have hsent : c.SecondariesSent := rfl
  obtain ⟨hprewritten, -, hsecondaries⟩ := commit_after_prewrites h
  exact ⟨hprimary, ((hprewritten hprimary).1 [1]).trans (by decide), hsent,
    hsecondaries hsent hprimary [3] (by decide)⟩

end StrataKV.Txn
