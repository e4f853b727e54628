import StrataKV.Mvcc.Proposal

/-!
# Steps of a run, key by key

`CollectStep` describes a collection on one key, and `exec_view` puts the pieces together: a step
leaves a key's view alone, changes it by a `KeyStep` of one of the command's parts, or collects it.
-/

namespace StrataKV.Mvcc

open List Prod OrdMap
open Std (ExtTreeMap)

/-- A Put or a Delete: a record that decides what readers see. -/
def MvccWrite.IsValue (write : MvccWrite) : Prop := write.type = .put ∨ write.type = .delete

instance (write : MvccWrite) : Decidable write.IsValue := inferInstanceAs (Decidable (_ ∨ _))

lemma MvccWrite.isValue_iff {write : MvccWrite} :
    write.IsValue ↔ (write.type != .rollback && write.type != .lock) = true := by
  cases h : write.type <;> simp [IsValue, h]

namespace KeyView

/-- The newest Put or Delete below the safe point. -/
def Kept (v : KeyView) (safePointTs c : Ts) : Prop :=
  ∃ w : MvccWrite, v.versions[c]? = some w ∧ w.IsValue ∧
    ∀ (c' : Ts) (w' : MvccWrite), v.versions[c']? = some w' → w'.IsValue → c' < safePointTs → c' ≤ c

/-- A record that a collection at the safe point removes. -/
def Collected (v : KeyView) (safePointTs c : Ts) (w : MvccWrite) : Prop :=
  v.versions[c]? = some w ∧ c < safePointTs ∧ ¬v.Kept safePointTs c

/-- A record that a collection removes; it leaves a chain of one record alone. -/
def Removed (v : KeyView) (S c : Ts) (w : MvccWrite) : Prop :=
  1 < v.versions.size ∧ v.Collected S c w

end KeyView

/-- A collection of one key: the records below the safe point go, the newest value excepted, and
with each Put its data record. -/
structure CollectStep (safePointTs : Ts) (v v' : KeyView) : Prop where
  lock_eq : v'.lock = v.lock
  removed : ∀ c w, v.Collected safePointTs c w → v'.versions[c]? = none
  kept : ∀ c, (∀ w, ¬v.Collected safePointTs c w) → v'.versions[c]? = v.versions[c]?
  data_removed : ∀ c w, v.Collected safePointTs c w → w.type = .put → v'.data w.startTs = none
  data_kept : ∀ s, (∀ c w, v.Collected safePointTs c w → w.type = .put → w.startTs ≠ s) →
    v'.data s = v.data s

variable {safePointTs c : Ts} {v : KeyView} {w : MvccWrite}

/-- A record that is there after a collection was there before and is not a collected one. -/
lemma CollectStep.of_get {v' : KeyView} (h : CollectStep safePointTs v v')
    (hw : v'.versions[c]? = some w) :
    v.versions[c]? = some w ∧ ∀ w, ¬v.Collected safePointTs c w := by
  have hkept : ∀ w, ¬v.Collected safePointTs c w := by
    intro w' hc
    simp [h.removed c w' hc] at hw
  exact ⟨(h.kept c hkept).symm.trans hw, hkept⟩

/-! ## The walk that chooses the version to keep -/

variable {β : Type}

/-- A fold that remembers the last element with a property is a search from the end. -/
lemma foldl_last {α : Type} (p : α → Prop) [DecidablePred p] (f : α → β) (l : List α)
    (init : Option β) :
    l.foldl (fun acc a => if p a then some (f a) else acc) init =
      ((l.reverse.find? fun a => p a).map f).or init := by
  induction l generalizing init with
  | nil => simp
  | cons a l ih =>
    simp only [foldl_cons, ih, reverse_cons, find?_append]
    cases h : l.reverse.find? fun a => p a with
    | some b => simp
    | none => by_cases hp : p a <;> simp [hp]

/-- On an ascending list, the elements before the first one at or above a bound are the elements
below it. -/
lemma takeWhile_lt_eq_filter (l : List (Ts × β)) (bound : Ts)
    (h : l.Pairwise fun a b => a.1 < b.1) :
    (l.takeWhile fun item => item.1 < bound) = l.filter fun item => item.1 < bound := by
  induction l with
  | nil => rfl
  | cons a l ih =>
    obtain ⟨hhead, htail⟩ := pairwise_cons.1 h
    by_cases ha : a.1 < bound
    · simp [ha, ih htail]
    · have hnone : l.filter (fun item => item.1 < bound) = [] := by
        refine filter_eq_nil_iff.2 fun b hb => ?_
        have := hhead b hb
        simp only [decide_eq_true_eq]
        exact fun hlt => ha (UInt64.lt_trans this hlt)
      simp [ha, hnone]

/-- Below the safe point a collection keeps a value if there is one, and it is the newest. -/
lemma KeyView.exists_kept (hget : v.versions[c]? = some w) (hvalue : w.IsValue)
    (hc : c < safePointTs) : ∃ c', v.Kept safePointTs c' ∧ c ≤ c' ∧ c' < safePointTs := by
  cases hfind : v.versions.toList.reverse.find? fun item =>
      item.1 < safePointTs && (item.2.IsValue : Bool) with
  | none =>
    have := (find?_reverse_toList_eq_none _).1 hfind c w hget
    simp [hc, hvalue] at this
  | some item =>
    obtain ⟨c', w'⟩ := item
    obtain ⟨hget', hp, hmax⟩ := (find?_reverse_toList_eq_some _).1 hfind
    simp only [Bool.and_eq_true, decide_eq_true_eq] at hp hmax
    exact ⟨c', ⟨w', hget', hp.2, fun c w hg hv hlt => hmax c w hg ⟨hlt, hv⟩⟩,
      hmax c w hget ⟨hc, hvalue⟩, hp.1⟩

open MvccStorage in
lemma keepCommitTs_eq (versions : Versions) (safePointTs : Ts) : keepCommitTs versions safePointTs =
      (versions.toList.reverse.find? fun item =>
        item.1 < safePointTs && (item.2.IsValue : Bool)).map fst := by
  rw [keepCommitTs, takeWhile_lt_eq_filter _ _ (pairwise_toList versions),
    foldl_last (fun item : Ts × MvccWrite => item.2.type = .put ∨ item.2.type = .delete) fst,
    ← filter_reverse, find?_filter, Option.or_none]
  congr! 3 with item
  rw [Bool.eq_iff_iff]
  simp only [Bool.and_eq_true, decide_eq_true_eq]
  exact Iff.rfl

open MvccStorage in
lemma keepCommitTs_eq_some (hc : c < safePointTs) :
    keepCommitTs v.versions safePointTs = some c ↔ v.Kept safePointTs c := by
  rw [keepCommitTs_eq, Option.map_eq_some_iff]
  constructor
  · rintro ⟨⟨c', w⟩, hfind, rfl⟩
    obtain ⟨hget, hp, hmax⟩ := (find?_reverse_toList_eq_some _).1 hfind
    simp only [Bool.and_eq_true, decide_eq_true_eq] at hp hmax
    exact ⟨w, hget, hp.2, fun c w hg hv hlt => hmax c w hg ⟨hlt, hv⟩⟩
  · rintro ⟨w, hget, hvalue, hmax⟩
    refine ⟨(c, w), (find?_reverse_toList_eq_some _).2 ⟨hget, by simp [hc, hvalue], ?_⟩, rfl⟩
    intro c' w' hget' hp
    simp only [Bool.and_eq_true, decide_eq_true_eq] at hp
    exact hmax c' w' hget' hp.2 hp.1

open MvccStorage in
lemma mem_collected : (c, w) ∈ collected v.versions safePointTs ↔
      ¬v.versions.size ≤ 1 ∧ v.Collected safePointTs c w := by
  unfold collected
  split_ifs with hsize
  · simp [*]
  · rw [mem_filter, ExtTreeMap.mem_toList_iff_getElem?_eq_some]
    simp only [hsize, not_false_eq_true, true_and, KeyView.Collected, Bool.not_eq_true',
      Bool.or_eq_false_iff, decide_eq_false_iff_not, UInt64.not_le, beq_eq_false_iff_ne, ne_eq]
    exact and_congr_right fun _ => and_congr_right fun hc => not_congr (keepCommitTs_eq_some hc)

/-! ## The collected state -/

/-- A batch that only deletes at `x` leaves nothing there, or what was there. -/
lemma getElem?_writeBatch_of_deletes (ops : List KVBatchOp) (x : Bytes)
    (engine : ExtTreeMap Bytes Bytes compare) (h : ∀ op ∈ ops, op.key = x → op.type = .delete) :
    (writeBatch engine ops)[x]? = if ∃ op ∈ ops, op.key = x then none else engine[x]? := by
  induction ops generalizing engine with
  | nil => simp [writeBatch]
  | cons op ops ih =>
    have := ih (applyOp engine op) fun o ho => h o (mem_cons_of_mem _ ho)
    simp only [writeBatch, foldl_cons] at this ⊢
    rw [this, getElem?_applyOp]
    by_cases hop : op.key = x
    · have htype := h op mem_cons_self hop
      simp [hop, htype]
    · simp [hop]

/-- Inserting, for every key of a list, a value that the key determines. -/
lemma getElem?_foldl_insert {α : Type} (l : List (Bytes × α)) (f : Bytes × α → β) (g : Bytes → β)
    (hf : ∀ item ∈ l, f item = g item.1) (m : ExtTreeMap Bytes β compare) (k : Bytes) :
    (l.foldl (fun m item => m.insert item.1 (f item)) m)[k]? =
      if k ∈ l.map fst then some (g k) else m[k]? := by
  induction l generalizing m with
  | nil => simp
  | cons item l ih =>
    rw [foldl_cons, ih fun i hi => hf i (mem_cons_of_mem _ hi)]
    by_cases hk : k = item.1
    · subst hk
      simp [hf item mem_cons_self]
    · simp only [map_cons, mem_cons, hk, false_or, ExtTreeMap.getElem?_insert]
      simp [Ne.symm hk]

lemma getElem?_foldl_erase (l : List (Ts × MvccWrite)) (versions : Versions) (c : Ts) :
    (l.foldl (fun versions version => versions.erase version.1) versions)[c]? =
      if c ∈ l.map fst then none else versions[c]? := by
  induction l generalizing versions with
  | nil => simp
  | cons item l ih =>
    rw [foldl_cons, ih]
    by_cases hc : c = item.1
    · simp [hc]
    · simp only [map_cons, mem_cons, hc, false_or, ExtTreeMap.getElem?_erase]
      simp [Ne.symm hc]

namespace MvccStorage

variable (σ : MvccStorage)

section

variable (safePointTs)

/-- The keys a collection touches, with the versions it removes. -/
def touched : List (Bytes × List (Ts × MvccWrite)) :=
  (σ.writes.toList.map fun item => (item.1, collected item.2 safePointTs)).filter
    fun item => item.2 ≠ []

lemma mem_touched {σ : MvccStorage} {safePointTs : Ts} {key : Bytes}
    {removed : List (Ts × MvccWrite)} :
    (key, removed) ∈ σ.touched safePointTs ↔
      removed = collected (σ.versionsOf key) safePointTs ∧ removed ≠ [] := by
  have hempty : collected (∅ : Versions) safePointTs = [] := by simp [collected]
  simp only [touched, mem_filter, mem_map, Prod.mk.injEq, decide_eq_true_eq]
  constructor
  · rintro ⟨⟨⟨k, versions⟩, hmem, rfl, rfl⟩, hne⟩
    have hget := ExtTreeMap.mem_toList_iff_getElem?_eq_some.1 hmem
    have : σ.versionsOf k = versions := by simp [versionsOf, ExtTreeMap.getD_eq_getD_getElem?, hget]
    exact ⟨by rw [this], hne⟩
  · rintro ⟨rfl, hne⟩
    refine ⟨⟨(key, σ.versionsOf key), ?_, rfl, rfl⟩, hne⟩
    rw [ExtTreeMap.mem_toList_iff_getElem?_eq_some]
    cases hget : σ.writes[key]? with
    | none =>
      have : σ.versionsOf key = ∅ := by simp [versionsOf, ExtTreeMap.getD_eq_getD_getElem?, hget]
      rw [this] at hne
      exact absurd hempty hne
    | some versions => simp [versionsOf, ExtTreeMap.getD_eq_getD_getElem?, hget]

lemma versionsOf_garbageCollect (k : Bytes) :
    ((σ.touched safePointTs).foldl (fun writes item => writes.insert item.1
        (item.2.foldl (fun versions version => versions.erase version.1)
          (σ.versionsOf item.1))) σ.writes).getD k ∅ =
      (collected (σ.versionsOf k) safePointTs).foldl
        (fun versions version => versions.erase version.1) (σ.versionsOf k) := by
  rw [ExtTreeMap.getD_eq_getD_getElem?, getElem?_foldl_insert _ _ fun key =>
    (collected (σ.versionsOf key) safePointTs).foldl
      (fun versions version => versions.erase version.1) (σ.versionsOf key)]
  · split_ifs with hk
    · rfl
    · -- an untouched key has nothing to collect
      have hnil : collected (σ.versionsOf k) safePointTs = [] := by
        by_contra hne
        exact hk (mem_map.2 ⟨(k, _), mem_touched.2 ⟨rfl, hne⟩, rfl⟩)
      rw [hnil, foldl_nil]
      exact σ.getElem?_writes_getD k
  · rintro ⟨key, removed⟩ hmem
    rw [(mem_touched.1 hmem).1]

/-- The data records a collection deletes are those of the Puts it removes. -/
lemma dataOf_garbageCollect (k : Bytes) (s : Ts) : dataOf (writeBatch σ.engine
        (((σ.touched safePointTs).flatMap fun item => collectOps item.1 item.2) ++
          (σ.touched safePointTs).map fun item => σ.revisionMutation item.1)) k s =
      if ∃ item ∈ collected (σ.versionsOf k) safePointTs,
          item.2.type = .put ∧ item.2.startTs = s then none
      else dataOf σ.engine k s := by
  have hops : ∀ op, op ∈ (((σ.touched safePointTs).flatMap fun item => collectOps item.1 item.2) ++
      (σ.touched safePointTs).map fun item => σ.revisionMutation item.1) → op.key = dataKey k s →
      op.type = .delete ∧ ∃ item ∈ collected (σ.versionsOf k) safePointTs,
        item.2.type = .put ∧ item.2.startTs = s := by
    intro op hop hkey
    rcases mem_append.1 hop with hop | hop
    · obtain ⟨⟨key, removed⟩, htouched, hop⟩ := mem_flatMap.1 hop
      obtain ⟨rfl, -⟩ := mem_touched.1 htouched
      obtain ⟨⟨c, w⟩, hmem, hop⟩ := mem_flatMap.1 hop
      rcases mem_append.1 hop with hop | hop
      · split_ifs at hop with hput
        · rw [mem_singleton] at hop
          subst hop
          obtain ⟨rfl, rfl⟩ := dataKey_inj.1 hkey
          exact ⟨rfl, (c, w), hmem, hput, rfl⟩
        · simp at hop
      · rw [mem_singleton] at hop
        subst hop
        exact absurd hkey (by simp)
    · obtain ⟨item, -, rfl⟩ := mem_map.1 hop
      exact absurd hkey (by simp [revisionMutation])
  rw [dataOf, getElem?_writeBatch_of_deletes _ _ _ fun op hop hkey => (hops op hop hkey).1]
  refine if_congr ⟨?_, ?_⟩ rfl rfl
  · rintro ⟨op, hop, hkey⟩
    exact (hops op hop hkey).2
  · rintro ⟨⟨c, w⟩, hmem, hput, rfl⟩
    refine ⟨⟨.delete, dataKey k w.startTs, []⟩, mem_append_left _ (mem_flatMap.2
      ⟨(k, collected (σ.versionsOf k) safePointTs), mem_touched.2 ⟨rfl, ne_nil_of_mem hmem⟩,
        mem_flatMap.2 ⟨(c, w), hmem, mem_append_left _ ?_⟩⟩), rfl⟩
    rw [if_pos hput, mem_singleton]

lemma garbageCollect_of_not_engineOk : (σ.garbageCollect safePointTs false).2 = σ := by
  simp [garbageCollect]

lemma garbageCollect_view_of_size_le (engineOk : Bool)
    {k : Bytes} (hsize : (σ.view k).versions.size ≤ 1) :
    (σ.garbageCollect safePointTs engineOk).2.view k = σ.view k := by
  unfold garbageCollect
  rw [← touched]
  dsimp only
  split
  · rfl
  have hversions := σ.versionsOf_garbageCollect safePointTs k
  have hdata := σ.dataOf_garbageCollect safePointTs k
  simp only [dataOf] at hdata
  have hnil : collected (σ.versionsOf k) safePointTs = [] := if_pos hsize
  have hk : k ∉ (σ.touched safePointTs).map fst := by
    intro hk
    obtain ⟨⟨key, removed⟩, hmem, rfl⟩ := mem_map.1 hk
    obtain ⟨rfl, hne⟩ := mem_touched.1 hmem
    exact hne hnil
  have hrevision := getElem?_foldl_insert (σ.touched safePointTs)
    (fun item => σ.currentRevision item.1 + 1) (fun key => σ.currentRevision key + 1)
    (fun _ _ => rfl) σ.revisions k
  simp only [hnil, foldl_nil, not_mem_nil, false_and, exists_false, if_false] at hversions hdata
  ext1
  · rfl
  · exact hversions
  · exact funext hdata
  · simp only [view, currentRevision, ExtTreeMap.getD_eq_getD_getElem?] at hrevision ⊢
    rw [hrevision, if_neg hk]

/-- A collection leaves a key alone or collects it. -/
theorem garbageCollect_view (engineOk : Bool) (k : Bytes) :
    (σ.garbageCollect safePointTs engineOk).2.view k = σ.view k ∨
      CollectStep safePointTs (σ.view k) ((σ.garbageCollect safePointTs engineOk).2.view k) := by
  by_cases hsize : (σ.view k).versions.size ≤ 1
  · exact .inl (σ.garbageCollect_view_of_size_le safePointTs engineOk hsize)
  unfold garbageCollect
  rw [← touched]
  dsimp only
  split
  · exact .inl rfl
  right
  have hversions := σ.versionsOf_garbageCollect safePointTs k
  have hdata := σ.dataOf_garbageCollect safePointTs k
  simp only [dataOf] at hdata
  have hmem (c : Ts) (w : MvccWrite) : (c, w) ∈ collected (σ.versionsOf k) safePointTs ↔
      (σ.view k).Collected safePointTs c w :=
    mem_collected.trans (and_iff_right hsize)
  have hget (c : Ts) := getElem?_foldl_erase (collected (σ.versionsOf k) safePointTs)
    (σ.versionsOf k) c
  have hkeys (c : Ts) : c ∈ (collected (σ.versionsOf k) safePointTs).map fst ↔
      ∃ w, (σ.view k).Collected safePointTs c w := by
    simp [← hmem]
  simp only [← hversions] at hget
  refine ⟨rfl, fun c w hc => ?_, fun c hc => ?_, fun c w hc hput => ?_, fun s hs => ?_⟩
  · exact (hget c).trans (if_pos ((hkeys c).2 ⟨w, hc⟩))
  · exact (hget c).trans (if_neg fun hw => Exists.elim ((hkeys c).1 hw) hc)
  · exact (hdata w.startTs).trans (if_pos ⟨(c, w), (hmem c w).2 hc, hput, rfl⟩)
  · refine (hdata s).trans (if_neg ?_)
    rintro ⟨⟨c, w⟩, hc, hput, heq⟩
    exact hs c w ((hmem c w).1 hc) hput heq

end

/-! ## Steps -/

/-- What an applied command did to key `k`: nothing if it has no part for `k`, and otherwise a step
of its only part for `k`, or nothing because that part was done already. -/
def KeyOutcome (parts : List KeyCommand) (k : Bytes) (v v' : KeyView) : Prop :=
  ((∀ c ∈ parts, c.key ≠ k) ∧ v' = v) ∨
    ∃ c ∈ parts, c.key = k ∧ (∀ c' ∈ parts, c'.key = k → c' = c) ∧
      (KeyStep c v v' ∨ KeyDone c v ∧ v' = v)

/-- A step did nothing, with status `ok` at a stale index only, or it did all of its command. -/
def Outcome (raftIndex : UInt64) (parts : List KeyCommand)
    (result : TxnStatus × MvccStorage) : Prop :=
  (result.2 = σ ∧ (result.1 = .ok → σ.Stale raftIndex)) ∨
    (result.1 = .ok ∧ ¬σ.Stale raftIndex ∧ ∀ k, KeyOutcome parts k (σ.view k) (result.2.view k))

section

variable {σ} {raftIndex : UInt64} {env : ApplyEnv} {prepared : PreparedMvccWrite}

lemma applyPrepared_outcome {c : KeyCommand} (h : prepared.Prepares σ c) :
    σ.Outcome raftIndex [c] (σ.applyPrepared c.key prepared raftIndex env) := by
  obtain ⟨mods, hc⟩ := h.exists_carries
  rcases applyPrepared_cases hc with hid | ⟨hstale, hne, happly⟩
  · exact .inl hid
  cases h with
  | refused ops | done ops => exact absurd ops hne
  | changes _ mods carries _ step =>
    rw [happly]
    refine .inr ⟨rfl, hstale, fun k => ?_⟩
    have hview := @view_afterApply σ _ _ _ raftIndex env carries k
    by_cases hk : c.key = k
    · subst hk
      rw [if_pos rfl] at hview
      refine .inr ⟨c, mem_singleton_self c, rfl, by simp, .inl ?_⟩
      simpa only [hview] using step
    · rw [if_neg hk] at hview
      exact .inl ⟨by simpa using hk, hview⟩

variable {parts : List KeyCommand}

lemma applyPrepared_outcome_nil {key : Bytes} (h : prepared.modifications = []) :
    σ.Outcome raftIndex parts (σ.applyPrepared key prepared raftIndex env) := by
  rcases applyPrepared_cases (.nil h) with hid | ⟨-, hne, -⟩
  · exact .inl hid
  · exact absurd h hne

lemma applyPreparedBatch_outcome {batch : PreparedMvccBatch} (h : σ.BatchPrepares batch parts) :
    σ.Outcome raftIndex parts (σ.applyPreparedBatch batch raftIndex env) := by
  have hcarry := h.itemsCarry
  rcases applyPreparedBatch_cases hcarry with hid | ⟨hstale, hok, hkeys, happly⟩
  · exact .inl hid
  rw [happly]
  refine .inr ⟨rfl, hstale, fun k => ?_⟩
  have hnodup : (batch.items.map PreparedMvccBatchItem.key).Nodup := by
    refine pairwise_map.2 (hkeys.imp fun {a b} hlt heq => ?_)
    exact List.lt_irrefl _ (heq ▸ hlt)
  rcases view_afterBatch hcarry hkeys k with ⟨hnone, hid⟩ | ⟨item, hitem, rfl, hmods⟩
  · refine .inl ⟨fun c hc hk => ?_, hid⟩
    obtain ⟨item, hitem, hkey⟩ := h.item hok c hc
    exact hnone item hitem (hkey.trans hk)
  · obtain ⟨hstatus, c, hc, hkey, hprep⟩ := h.part item hitem
    refine .inr ⟨c, hc, hkey, fun c' hc' hk => h.unique hok hnodup c' hc' c hc (hk.trans hkey.symm),
      ?_⟩
    cases hprep with
    | refused _ status => exact absurd hstatus status
    | done ops _ done => exact .inr ⟨hkey ▸ done, hmods [] (.nil ops)⟩
    | changes _ mods carries _ step =>
      rw [hkey] at carries step
      exact .inl ((hmods mods carries).symm ▸ step)

/-- What a prepared command does: nothing, or all of its parts. -/
theorem exec_outcome (step : Step)
    (hcollect : ∀ safePointTs, step.command ≠ .garbageCollect safePointTs) :
    σ.Outcome step.raftIndex step.command.parts (σ.exec step) := by
  cases hprepare : σ.prepare step.command with
  | none =>
    cases hcommand : step.command with
    | garbageCollect safePointTs => exact absurd hcommand (hcollect safePointTs)
    | _ =>
      rw [hcommand] at hprepare
      cases hprepare
  | some proposal =>
    rw [exec_eq_apply hprepare]
    have hprepares := prepare_prepares hprepare
    cases proposal with
    | single key prepared =>
      rcases hprepares with hnil | ⟨c, hparts, rfl, hprep⟩
      · exact applyPrepared_outcome_nil hnil
      · rw [hparts]
        exact applyPrepared_outcome hprep
    | batch prepared => exact applyPreparedBatch_outcome hprepares

/-- What a step does to a key: nothing, a step of one of the command's parts, or a collection. -/
theorem exec_view (step : Step) (k : Bytes) : (σ.exec step).2.view k = σ.view k ∨
      (∃ c ∈ step.command.parts, c.key = k ∧ KeyStep c (σ.view k) ((σ.exec step).2.view k)) ∨
      ∃ safePointTs, step.command = .garbageCollect safePointTs ∧
        CollectStep safePointTs (σ.view k) ((σ.exec step).2.view k) := by
  by_cases hcollect : ∃ safePointTs, step.command = .garbageCollect safePointTs
  · obtain ⟨safePointTs, hcommand⟩ := hcollect
    have hexec : (σ.exec step).2 = (σ.garbageCollect safePointTs step.env.engineOk).2 := by
      simp only [exec, hcommand]
    rw [hexec]
    exact (σ.garbageCollect_view safePointTs step.env.engineOk k).imp_right
      fun h => .inr ⟨safePointTs, hcommand, h⟩
  · rcases σ.exec_outcome step fun sp h => hcollect ⟨sp, h⟩ with ⟨hid, -⟩ | ⟨-, -, hout⟩
    · exact .inl (by rw [hid])
    · rcases hout k with ⟨-, hid⟩ | ⟨c, hc, hk, -, hstep | ⟨-, hid⟩⟩
      · exact .inl hid
      · exact .inr (.inl ⟨c, hc, hk, hstep⟩)
      · exact .inl hid

end

end MvccStorage

/-! ## The order of a key's records -/

namespace KeyView

variable {v v' : KeyView}

/-- No record is older than its transaction. -/
def Ordered (v : KeyView) : Prop :=
  ∀ (c : Ts) (w : MvccWrite), v.versions[c]? = some w → w.startTs ≤ c

lemma Ordered.keyStep {command : KeyCommand} (h : v.Ordered) (hstep : KeyStep command v v') :
    v'.Ordered := by
  have hinsert {ts : Ts} {u : MvccWrite} (hu : u.startTs ≤ ts) (c : Ts) (w : MvccWrite)
      (hget : (v.versions.insert ts u)[c]? = some w) : w.startTs ≤ c := by
    rcases insert_cases hget with ⟨heq, rfl⟩ | hget
    · exact heq ▸ hu
    · exact h c w hget
  cases hstep with
  | prewrite | pessimisticLock | prewriteLock => exact h
  | commit lock _ _ hlt => exact hinsert (UInt64.le_of_lt hlt)
  | rollback => exact hinsert (UInt64.le_refl _)

end KeyView

namespace MvccStorage

@[simp]
lemma versions_view_empty (key : Bytes) (c : Ts) : (empty.view key).versions[c]? = none := by
  simp [view, versionsOf, empty]

@[simp]
lemma lock_view_empty (key : Bytes) : (empty.view key).lock = none := by simp [view, empty]

variable {G : MvccStorage → Step → Prop}

/-- What a key without records and locks has, and every step on the key keeps, each key has in every
run. -/
lemma view_of_reachable {P : KeyView → Prop} (hempty : ∀ key, P (empty.view key))
    (hstep : ∀ {command : KeyCommand} {v v' : KeyView}, P v → KeyStep command v v' → P v')
    (hcollect : ∀ {safePointTs : Ts} {v v' : KeyView}, P v → CollectStep safePointTs v v' → P v')
    {σ : MvccStorage} (h : storageSystem.Reachable G σ) (key : Bytes) : P (σ.view key) := by
  refine h.invariant (I := fun σ => ∀ key, P (σ.view key)) ?_ ?_ key
  · rintro _ rfl
    exact hempty
  · rintro σ step _ hσ - rfl key
    rcases σ.exec_view step key with hid | ⟨c, -, -, hkey⟩ | ⟨safePointTs, -, hgc⟩
    · exact hid ▸ hσ key
    · exact hstep (hσ key) hkey
    · exact hcollect (hσ key) hgc

lemma ordered_of_reachable {σ : MvccStorage}
    (h : storageSystem.Reachable G σ) (key : Bytes) : (σ.view key).Ordered := by
  refine view_of_reachable ?_ KeyView.Ordered.keyStep ?_ h key
  · intro key c w hget
    simp at hget
  · intro safePointTs v v' hv hcollect c w hget
    exact hv c w (hcollect.of_get hget).1

end MvccStorage

end StrataKV.Mvcc
