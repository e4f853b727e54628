import StrataKV.Mvcc.Direct
import StrataKV.Mvcc.Read

/-!
# What a scan of one storage returns

A scan that is not cut short by its limit fails on a lock of the range, as `Get` does on the locked
key, or returns the keys of the range that `Get` reads, once each and in order (`scan_reads`). Where
`Get` reports that the data of a committed Put is missing, the scan leaves the key out and reports
nothing.
-/

namespace StrataKV.Mvcc

open List

open Std (ExtTreeMap)

namespace MvccStorage

/-! ## Reads -/

variable (σ : MvccStorage)

def getLock (key : Bytes) : Option MvccLock := σ.locks[key]?

/-- The lock check of `Scan`: a lock that is not newer than the read and whose transaction has no
record on the key. -/
def scanBlocked (key : Bytes) (readTs : Ts) : Bool :=
  match σ.locks[key]? with
  | none => false
  | some lock => lock.startTs ≤ readTs && ((σ.versionsOf key).recordOf lock.startTs).isNone

/-- The candidates of a scan: the keys with a chain and the locked keys. -/
def scanNames (startKey endKey : Bytes) : List Bytes :=
  orderedKeys ((σ.writes.keys ++ σ.locks.keys).filter (inRange startKey endKey))

def scanKeys (σ : MvccStorage) (readTs : Ts) (limit : ℕ) :
    List (Bytes × Bytes) → List Bytes → TxnStatus × List (Bytes × Bytes)
  | entries, [] => (.ok, entries)
  | entries, key :: rest =>
    if limit ≠ 0 ∧ limit ≤ entries.length then (.ok, entries)
    -- a lock fails the whole scan, without a partial result
    else if σ.scanBlocked key readTs then (.lockConflict, [])
    else match σ.readCommitted key readTs with
      | (.ok, value, _) => scanKeys σ readTs limit (entries ++ [(key, value.getD [])]) rest
      | _ => scanKeys σ readTs limit entries rest

/-- `Scan`, which appends to the entries of its caller. -/
def scan (startKey endKey : Bytes) (readTs : Ts) (limit : ℕ)
    (entries : List (Bytes × Bytes)) : TxnStatus × List (Bytes × Bytes) :=
  if endKey ≠ [] ∧ endKey ≤ startKey then (.storageError, entries)
  else σ.scanKeys readTs limit entries (σ.scanNames startKey endKey)

/-- `CheckTxnStatus`: the status, the record it fills in and the next state. -/
def checkTxnStatus (primaryKey : Bytes) (startTs : Ts)
    (currentPhysicalMs : UInt64) (rollbackIfExpired : Bool) (env : ApplyEnv) :
    (TxnStatus × Option TxnRecordStatus) × MvccStorage :=
  let prepared := σ.prepareCheckTxnStatus primaryKey startTs currentPhysicalMs rollbackIfExpired
  if prepared.status ≠ .ok then ((prepared.status, none), σ)
  else if prepared.hasChanges then
    let applied := σ.applyPrepared primaryKey prepared 0 env
    if applied.1 ≠ .ok then ((applied.1, none), applied.2)
    else ((.ok, some prepared.txnRecordStatus), applied.2)
  else ((.ok, some prepared.txnRecordStatus), σ)

/-! ## The entries of a scan -/

variable {σ} {readTs : Ts} {limit : ℕ}

/-- The entry of a candidate, if it is read. -/
def scanEntry (σ : MvccStorage) (readTs : Ts) (key : Bytes) : Option (Bytes × Bytes) :=
  match σ.readCommitted key readTs with
  | (.ok, value, _) => some (key, value.getD [])
  | _ => none

variable {key : Bytes}

lemma scanEntry_eq_none (h : ∀ (value : Option Bytes) (commitTs : Ts),
      σ.readCommitted key readTs = (.ok, value, commitTs) → False) :
    σ.scanEntry readTs key = none := by
  unfold scanEntry
  split
  · rename_i value commitTs hok
    exact absurd hok (h value commitTs)
  · rfl

variable {keys : List Bytes}

/-- A scan that is not cut short has met no lock and has read all candidates. -/
lemma scanKeys_eq {entries result : List (Bytes × Bytes)}
    (h : σ.scanKeys readTs limit entries keys = (.ok, result))
    (hfew : limit = 0 ∨ result.length < limit) :
    (∀ key ∈ keys, σ.scanBlocked key readTs = false) ∧
      result = entries ++ keys.filterMap (σ.scanEntry readTs) := by
  induction keys generalizing entries with
  | nil =>
    cases h
    exact ⟨by simp, by simp⟩
  | cons key rest ih =>
    rw [scanKeys] at h
    split_ifs at h with hfull hblocked
    · cases h
      omega
    · simp at h
    · have hfree : σ.scanBlocked key readTs = false := by simpa using hblocked
      split at h
      · rename_i value commitTs hread
        obtain ⟨hrest, hresult⟩ := ih h
        refine ⟨forall_mem_cons.2 ⟨hfree, hrest⟩, ?_⟩
        rw [hresult, filterMap_cons, scanEntry, hread]
        simp
      · rename_i hread
        obtain ⟨hrest, hresult⟩ := ih h
        refine ⟨forall_mem_cons.2 ⟨hfree, hrest⟩, ?_⟩
        rw [hresult, filterMap_cons_none (scanEntry_eq_none hread)]

lemma get_eq_of_free (hfree : σ.scanBlocked key readTs = false) :
    σ.get key readTs = ((σ.readCommitted key readTs).1, (σ.readCommitted key readTs).2.1) := by
  change (if σ.scanBlocked key readTs = true then _ else _) = _
  rw [hfree, if_neg (by simp), readCommitted]
  split
  · rfl
  · split
    · rfl
    · split <;> rfl

/-- `Get` reads what the scan of an unlocked key enters. -/
lemma get_eq_ok_iff {value : Bytes} (hfree : σ.scanBlocked key readTs = false) :
    σ.get key readTs = (.ok, some value) ↔ σ.scanEntry readTs key = some (key, value) := by
  rw [get_eq_of_free hfree, scanEntry, readCommitted]
  split
  · simp
  · split
    · simp
    · split <;> simp

lemma get_fst_ok_iff :
    (σ.get key readTs).1 = .ok ↔ ∃ value, σ.get key readTs = (.ok, some value) := by
  constructor
  · intro h
    unfold get at h ⊢
    dsimp only at h ⊢
    split_ifs at h ⊢
    split at h
    · cases h
    · split_ifs at h ⊢
      split at h
      · exact ⟨_, rfl⟩
      · cases h
  · rintro ⟨value, h⟩
    rw [h]

lemma mem_of_get_ok {value : Bytes} (h : σ.get key readTs = (.ok, some value)) :
    key ∈ σ.writes := by
  by_contra hout
  have hnone : (σ.versionsOf key).visible readTs = none := by
    rw [versionsOf, ExtTreeMap.getD_eq_fallback hout]
    rfl
  unfold get at h
  dsimp only at h
  rw [hnone] at h
  split_ifs at h <;> cases h

/-- The keys of the range that `Get` reads, with their values, in order. -/
structure Reads (σ : MvccStorage) (startKey endKey : Bytes) (readTs : Ts)
    (entries : List (Bytes × Bytes)) : Prop where
  ascending : (entries.map Prod.fst).Pairwise (· < ·)
  mem_iff : ∀ key value, (key, value) ∈ entries ↔
    inRange startKey endKey key = true ∧ σ.get key readTs = (.ok, some value)

lemma fst_of_scanEntry {entry : Bytes × Bytes} (h : σ.scanEntry readTs key = some entry) :
    entry.1 = key := by
  unfold scanEntry at h
  split at h
  · cases h
    rfl
  · cases h

/-- The candidates of a scan that meets no lock are read as `Get` reads them. -/
lemma reads_scanNames
    (hfree : ∀ key ∈ σ.scanNames startKey endKey, σ.scanBlocked key readTs = false) :
    σ.Reads startKey endKey readTs
      ((σ.scanNames startKey endKey).filterMap (σ.scanEntry readTs)) := by
  constructor
  · rw [pairwise_map, pairwise_filterMap]
    refine (orderedKeys_pairwise _).imp ?_
    intro a b hab entry hentry entry' hentry'
    rwa [fst_of_scanEntry hentry, fst_of_scanEntry hentry']
  · intro key value
    rw [mem_filterMap]
    constructor
    · rintro ⟨name, hname, hentry⟩
      obtain rfl : key = name := fst_of_scanEntry hentry
      refine ⟨?_, (get_eq_ok_iff (hfree key hname)).2 hentry⟩
      exact (mem_filter.1 (mem_orderedKeys.1 hname)).2
    · rintro ⟨hrange, hget⟩
      have hname : key ∈ σ.scanNames startKey endKey := by
        refine mem_orderedKeys.2 (mem_filter.2 ⟨?_, hrange⟩)
        exact mem_append_left _ (ExtTreeMap.mem_keys.2 (mem_of_get_ok hget))
      exact ⟨key, hname, (get_eq_ok_iff (hfree key hname)).1 hget⟩

lemma scan_reads {entries : List (Bytes × Bytes)}
    (h : σ.scan startKey endKey readTs limit [] = (.ok, entries))
    (hfew : limit = 0 ∨ entries.length < limit) : σ.Reads startKey endKey readTs entries := by
  unfold scan at h
  split_ifs at h with hempty
  · cases h
  obtain ⟨hfree, rfl⟩ := scanKeys_eq h hfew
  exact reads_scanNames hfree

/-- A scan with a limit that meets no lock appends the first entries, up to the limit for the whole
list. -/
lemma scanKeys_limited (entries : List (Bytes × Bytes)) (hlimit : limit ≠ 0)
    (hfree : ∀ key ∈ keys, σ.scanBlocked key readTs = false) :
    σ.scanKeys readTs limit entries keys =
      (.ok, entries ++ (keys.filterMap (σ.scanEntry readTs)).take (limit - entries.length)) := by
  induction keys generalizing entries with
  | nil => simp [scanKeys]
  | cons key rest ih =>
    obtain ⟨hkey, hrest⟩ := forall_mem_cons.1 hfree
    rw [scanKeys]
    by_cases hfull : limit ≤ entries.length
    · rw [if_pos ⟨hlimit, hfull⟩, Nat.sub_eq_zero_of_le hfull]
      simp
    rw [if_neg (fun h => hfull h.2), hkey, if_neg (by simp)]
    split
    · rename_i value commitTs hread
      have hentry : σ.scanEntry readTs key = some (key, value.getD []) := by rw [scanEntry, hread]
      have hroom : limit - entries.length = limit - (entries.length + 1) + 1 := by omega
      rw [ih _ hrest, filterMap_cons_some hentry, length_append, hroom]
      simp
    · rename_i hread
      rw [ih _ hrest, filterMap_cons_none (scanEntry_eq_none hread)]

/-! ## Scans and single reads -/

variable {startKey endKey : Bytes}

/-- A scan without a limit fails on the first lock, and on nothing else. -/
lemma scanKeys_status (entries : List (Bytes × Bytes)) (keys : List Bytes) :
    (σ.scanKeys readTs 0 entries keys).1 =
      if ∃ key ∈ keys, σ.scanBlocked key readTs = true then .lockConflict else .ok := by
  induction keys generalizing entries with
  | nil => simp [scanKeys]
  | cons key rest ih =>
    rw [scanKeys, if_neg (by simp)]
    by_cases hblocked : σ.scanBlocked key readTs = true
    · simp [hblocked]
    · rw [if_neg hblocked]
      split <;> simp [ih, hblocked]

lemma get_eq_of_blocked (hblocked : σ.scanBlocked key readTs = true) :
    σ.get key readTs = (.lockConflict, none) :=
  if_pos hblocked

/-- Some key of the range has a lock that the read conflicts with. -/
def Conflicting (σ : MvccStorage) (startKey endKey : Bytes) (readTs : Ts) : Prop :=
  ∃ key, inRange startKey endKey key = true ∧ σ.scanBlocked key readTs = true

/-- Every Put that is visible in the range has its data record. -/
def DataPresent (σ : MvccStorage) (startKey endKey : Bytes) (readTs : Ts) : Prop :=
  ∀ key commitTs write, inRange startKey endKey key = true →
    (σ.versionsOf key).visible readTs = some (commitTs, write) → write.type = .put →
      σ.engine[dataKey key write.startTs]? ≠ none

/-- The scan of the range answers as `Get` does for each of its keys. -/
structure ScanAgrees (σ : MvccStorage) (startKey endKey : Bytes) (readTs : Ts) : Prop where
  conflict : (σ.scan startKey endKey readTs 0 []).1 = .lockConflict ↔
    ∃ key, inRange startKey endKey key = true ∧ (σ.get key readTs).1 = .lockConflict
  error : (σ.scan startKey endKey readTs 0 []).1 ≠ .lockConflict →
    (σ.scan startKey endKey readTs 0 []).1 = .ok →
      ∀ key, inRange startKey endKey key = true → (σ.get key readTs).1 ≠ .storageError
  entries : (σ.scan startKey endKey readTs 0 []).1 ≠ .lockConflict →
    σ.Reads startKey endKey readTs (σ.scan startKey endKey readTs 0 []).2

lemma get_lockConflict_iff :
    (σ.get key readTs).1 = .lockConflict ↔ σ.scanBlocked key readTs = true := by
  cases hblocked : σ.scanBlocked key readTs with
  | true => simp [get_eq_of_blocked hblocked]
  | false =>
    rw [get_eq_of_free hblocked, readCommitted]
    split
    · simp
    · split
      · simp
      · split <;> simp

lemma get_storageError_iff (hfree : σ.scanBlocked key readTs = false) :
    (σ.get key readTs).1 = .storageError ↔
      ∃ commitTs write, (σ.versionsOf key).visible readTs = some (commitTs, write) ∧
        write.type = .put ∧ σ.engine[dataKey key write.startTs]? = none := by
  rw [get_eq_of_free hfree, readCommitted]
  cases hvisible : (σ.versionsOf key).visible readTs with
  | none => simp
  | some version =>
    obtain ⟨commitTs, write⟩ := version
    have hvalue : write.IsValue := (Versions.visible_eq_some.1 hvisible).2.2.1
    rcases hvalue with hput | hdelete
    · cases hdata : σ.engine[dataKey key write.startTs]? with
      | none => exact ⟨fun _ => ⟨commitTs, write, rfl, hput, hdata⟩, fun _ => by simp [hput, hdata]⟩
      | some value =>
        have hmem : dataKey key write.startTs ∈ σ.engine := by
          simp [ExtTreeMap.mem_iff_isSome_getElem?, hdata]
        simp [hput, hmem]
    · simp [hdelete]

/-- A blocked key is locked, so the scan of a range that has it visits it. -/
lemma mem_scanNames_of_blocked (hrange : inRange startKey endKey key = true)
    (hblocked : σ.scanBlocked key readTs = true) : key ∈ σ.scanNames startKey endKey := by
  refine mem_orderedKeys.2 (mem_filter.2 ⟨mem_append_right _ ?_, hrange⟩)
  rw [ExtTreeMap.mem_keys, ExtTreeMap.mem_iff_isSome_getElem?]
  cases hlock : σ.locks[key]? with
  | none => simp [scanBlocked, hlock] at hblocked
  | some lock => rfl

/-- Outside a scan that is refused for its bounds, the status says if a lock is in the way. -/
lemma scan_status (hbounds : ¬(endKey ≠ [] ∧ endKey ≤ startKey)) :
    (σ.scan startKey endKey readTs 0 []).1 =
      if ∃ key ∈ σ.scanNames startKey endKey, σ.scanBlocked key readTs = true then .lockConflict
      else .ok := by
  rw [scan, if_neg hbounds, scanKeys_status]

lemma inRange_of_bounds (hbounds : endKey ≠ [] ∧ endKey ≤ startKey) (key : Bytes) :
    inRange startKey endKey key = false := by
  obtain ⟨hend, hle⟩ := hbounds
  simp only [inRange, hend, decide_false, Bool.false_or, Bool.and_eq_false_imp,
    Bool.not_eq_true', decide_eq_false_iff_not]
  intro hstart
  grind

/-- The scan reports a conflict for the ranges with a conflicting lock. -/
lemma scan_lockConflict_iff : (σ.scan startKey endKey readTs 0 []).1 = .lockConflict ↔
      σ.Conflicting startKey endKey readTs := by
  by_cases hbounds : endKey ≠ [] ∧ endKey ≤ startKey
  · rw [scan, if_pos hbounds]
    simp [Conflicting, inRange_of_bounds hbounds]
  rw [scan_status hbounds]
  constructor
  · intro h
    split_ifs at h with hblocked
    obtain ⟨key, hname, hkey⟩ := hblocked
    exact ⟨key, (mem_filter.1 (mem_orderedKeys.1 hname)).2, hkey⟩
  · rintro ⟨key, hrange, hkey⟩
    exact if_pos ⟨key, mem_scanNames_of_blocked hrange hkey, hkey⟩

/-- A scan without a conflict enters what `Get` reads, also if it is refused for its bounds. -/
lemma reads_of_free (hfree : ¬σ.Conflicting startKey endKey readTs) :
    σ.Reads startKey endKey readTs (σ.scan startKey endKey readTs 0 []).2 := by
  by_cases hbounds : endKey ≠ [] ∧ endKey ≤ startKey
  · rw [scan, if_pos hbounds]
    exact ⟨by simp, by simp [inRange_of_bounds hbounds]⟩
  have hok : (σ.scan startKey endKey readTs 0 []).1 = .ok := by
    have hstatus := @scan_status σ readTs startKey endKey hbounds
    split_ifs at hstatus
    · exact absurd (scan_lockConflict_iff.1 hstatus) hfree
    · exact hstatus
  exact scan_reads (Prod.ext hok rfl) (.inl rfl)

/-- `Get` meets no missing data in the range if and only if all visible Puts have theirs. -/
lemma dataPresent_iff (hfree : ¬σ.Conflicting startKey endKey readTs) :
    σ.DataPresent startKey endKey readTs ↔
      ∀ key, inRange startKey endKey key = true → (σ.get key readTs).1 ≠ .storageError := by
  constructor
  · intro hdata key hrange herror
    have hkey : σ.scanBlocked key readTs = false := by
      by_contra hblocked
      exact hfree ⟨key, hrange, by simpa using hblocked⟩
    obtain ⟨commitTs, write, hvisible, hput, hnone⟩ := (get_storageError_iff hkey).1 herror
    exact hdata key commitTs write hrange hvisible hput hnone
  · intro hget key commitTs write hrange hvisible hput hnone
    have hkey : σ.scanBlocked key readTs = false := by
      by_contra hblocked
      exact hfree ⟨key, hrange, by simpa using hblocked⟩
    exact hget key hrange ((get_storageError_iff hkey).2 ⟨commitTs, write, hvisible, hput, hnone⟩)

/-- The scan answers as `Get` does, but for the data it does not find: a conflict hides it, and
without one every visible Put of the range needs its data record. -/
theorem scanAgrees_iff (σ : MvccStorage) (startKey endKey : Bytes) (readTs : Ts) :
    σ.ScanAgrees startKey endKey readTs ↔
      σ.Conflicting startKey endKey readTs ∨ σ.DataPresent startKey endKey readTs := by
  constructor
  · intro h
    by_cases hfree : σ.Conflicting startKey endKey readTs
    · exact .inl hfree
    refine .inr ?_
    by_cases hbounds : endKey ≠ [] ∧ endKey ≤ startKey
    · intro key commitTs write hrange
      rw [inRange_of_bounds hbounds] at hrange
      cases hrange
    have hstatus := @scan_status σ readTs startKey endKey hbounds
    split_ifs at hstatus
    · exact absurd (scan_lockConflict_iff.1 hstatus) hfree
    · exact (dataPresent_iff hfree).2 (h.error (by simp [hstatus]) hstatus)
  · intro h
    refine ⟨scan_lockConflict_iff.trans ?_, ?_, ?_⟩
    · simp only [Conflicting, get_lockConflict_iff]
    · intro hstatus _
      have hfree : ¬σ.Conflicting startKey endKey readTs := mt scan_lockConflict_iff.2 hstatus
      exact (dataPresent_iff hfree).1 (h.resolve_left hfree)
    · exact fun hstatus => reads_of_free (mt scan_lockConflict_iff.2 hstatus)

/-- A transaction locks a key and commits it without a prewrite. -/
def unwrittenRun : List Step :=
  [{ command := .pessimisticLock [1] ⟨[1], one_lt_maxSize⟩ 10 100 10 0 0 },
    { command := .commit [1] 10 20 }]

/-- `Get` reports the Put without data, the scan returns no entry and `Ok`. -/
theorem scanAgrees_fails_unwrittenRun :
    ¬∀ σ : MvccStorage, storageSystem.Reachable TransitionSystem.anyStep σ →
      ∀ (startKey endKey : Bytes) (readTs : Ts), σ.ScanAgrees startKey endKey readTs := by
  intro h
  have hreach : storageSystem.Reachable TransitionSystem.anyStep (empty.run unwrittenRun) :=
    TransitionSystem.Guarded.reachable (by decide)
  have hagrees := h _ hreach [] [] 30
  exact hagrees.error (by decide) (by decide) [1] (by decide) (by decide)

end MvccStorage

end StrataKV.Mvcc
