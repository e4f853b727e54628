import StrataKV.Region.Records

/-!
# What a range deletion deletes

`DeleteKeysInRange` deletes a range of user keys from an engine: a range of engine keys in each table
of the storage, and the raw keys that a scan finds. `DropKeysInRange` drops the same range from the
indexes in memory, by user key.

The two agree on locks and revisions. A data or write record goes on behind its user key, with a slash
and a timestamp, and a bound of the range may fall in between: then the record is on the other side
of the bound than its user key. A raw key that starts like a table is taken for a record of it.
-/

namespace StrataKV.Region

open Mvcc MvccStorage CleanupOp List Option
open Std (ExtTreeMap)

/-! ## Records -/

/-- A record of the storage or a raw key. -/
inductive Record
  | data (key : Bytes) (startTs : Ts)
  | lock (key : Bytes)
  | write (key : Bytes) (commitTs : Ts)
  | revision (key : Bytes)
  | raw (key : Bytes)
  deriving DecidableEq

namespace Record

def engineKey : Record → Bytes
  | data key startTs => dataKey key startTs
  | lock key => lockKey key
  | write key commitTs => writeKey key commitTs
  | revision key => revisionKey key
  | raw key => key

def userKey : Record → Bytes
  | data key _ | lock key | write key _ | revision key | raw key => key

/-- A record that the indexes in memory follow. -/
def isStored : Record → Bool
  | raw _ => false
  | _ => true

end Record

/-- The engine has these records and no other ones. -/
structure BuiltFrom (engine : Engine) (records : List Record) : Prop where
  present : ∀ record ∈ records, engine[record.engineKey]? ≠ none
  all : ∀ x, engine[x]? ≠ none → ∃ record ∈ records, record.engineKey = x

/-! ## The deletion -/

/-- The operations one after another, each with the deletions of what its scan finds. -/
def runCleanup (engine : Engine) : List CleanupOp → Engine
  | [] => engine
  | op :: rest =>
    let (engine, found) := op.run engine
    runCleanup (found.foldl (fun engine op => (op.run engine).1) engine) rest

/-- The engine after `DeleteKeysInRange`. -/
def afterDelete (engine : Engine) (rangeBegin rangeEnd : Bytes) : Engine :=
  runCleanup engine (deleteKeysInRange rangeBegin rangeEnd)

/-- The indexes know the key. -/
def Knows (σ : MvccStorage) (key : Bytes) : Prop :=
  key ∈ σ.locks ∨ key ∈ σ.writes ∨ key ∈ σ.revisions

/-- The deletion deletes the records of the user keys of the range, keeps all others, and deletes the
records of exactly those keys that are dropped from memory. -/
structure DeletesExactly (content : Engine) (records : List Record) (rangeBegin rangeEnd : Bytes) :
    Prop where
  engine : ∀ record ∈ records, (afterDelete content rangeBegin rangeEnd)[record.engineKey]? =
    if MvccStorage.inRange rangeBegin rangeEnd record.userKey = true then none
    else content[record.engineKey]?
  memory : ∀ record ∈ records, record.isStored = true → ∀ σ : MvccStorage, Knows σ record.userKey →
    ((afterDelete content rangeBegin rangeEnd)[record.engineKey]? = none ↔
      ¬Knows (σ.dropKeysInRange rangeBegin rangeEnd) record.userKey)

/-- The bound is the user key with more bytes, which sort no later than what follows the user key in
the record. -/
def Cuts (bound key suffix : Bytes) : Prop :=
  key <+: bound ∧ key ≠ bound ∧ ¬suffix < bound.drop key.length

instance decidableCuts (bound key suffix : Bytes) : Decidable (Cuts bound key suffix) :=
  inferInstanceAs (Decidable (_ ∧ _ ∧ _))

/-- Neither bound separates a record from its user key, or both do so in the same place; and a raw key
that starts like a table has the rest of a record in the range if and only if it is there itself. -/
def Record.Agrees (rangeBegin rangeEnd : Bytes) : Record → Prop
  | data key ts | write key ts =>
    rangeEnd ≠ [] ∧ ¬rangeBegin < rangeEnd ∨
      (Cuts rangeBegin key (slash :: encodeTs ts) ↔ Cuts rangeEnd key (slash :: encodeTs ts))
  | lock _ | revision _ => True
  | raw key => CleanupOp.isSystemKey key = true →
    ((∃ (table : Table) (rest : Bytes), key = table.start ++ rest ∧
        MvccStorage.inRange rangeBegin rangeEnd rest = true) ↔
      MvccStorage.inRange rangeBegin rangeEnd key = true)

section

variable {low high key suffix : Bytes}

/-- A bound cuts a record if it lies between the user key and the record. -/
lemma cuts_iff : Cuts low key suffix ↔ key < low ∧ ¬key ++ suffix < low := by
  constructor
  · rintro ⟨⟨rest, rfl⟩, hne, hle⟩
    have hrest : rest ≠ [] := by
      rintro rfl
      simp at hne
    rw [drop_left] at hle
    rw [append_lt_append_iff]
    exact ⟨lt_append hrest, hle⟩
  · rintro ⟨hlt, hnot⟩
    rw [append_lt_iff hlt, not_or, not_not] at hnot
    refine ⟨hnot.1, ?_, hnot.2⟩
    rintro rfl
    exact List.lt_irrefl key hlt

/-- A record is in the range with its user key unless one bound cuts it. -/
lemma inRange_append_iff : (inRange low high (key ++ suffix) = inRange low high key) ↔
      high ≠ [] ∧ ¬low < high ∨ (Cuts low key suffix ↔ Cuts high key suffix) := by
  have hafter : ¬key ++ suffix < key := not_append_lt_self key suffix
  have hnil (x : Bytes) : ¬x < [] := not_lt_nil x
  rw [Bool.eq_iff_iff, mem_inRange, mem_inRange, cuts_iff, cuts_iff]
  grind

end

/-! ## What is deleted -/

section

variable {engine : Engine} {x : Bytes}

lemma getElem?_foldl_run {found : List CleanupOp} :
    (found.foldl (fun engine op => (op.run engine).1) engine)[x]? =
      if ∃ op ∈ found, op.removes x then none else engine[x]? := by
  induction found generalizing engine with
  | nil => simp
  | cons op rest ih =>
    rw [foldl_cons, ih, getElem?_run]
    by_cases hop : op.removes x <;> simp [hop]

lemma getElem?_run_found_eq_some {op : CleanupOp} {value : Bytes} :
    ((op.run engine).2.foldl (fun engine op => (op.run engine).1) (op.run engine).1)[x]? =
        some value ↔ engine[x]? = some value ∧ ¬op.clears x := by
  rw [getElem?_foldl_run, getElem?_run, ite_none_left_eq_some, ite_none_left_eq_some]
  constructor
  · rintro ⟨hfound, hremoves, hget⟩
    refine ⟨hget, fun hclears => ?_⟩
    rcases removes_or_found hclears (hget ▸ some_ne_none value) with h | h
    · exact hremoves h
    · exact hfound ⟨_, h, rfl⟩
  · rintro ⟨hget, hclears⟩
    refine ⟨?_, fun h => hclears (clears_of_removes h), hget⟩
    rintro ⟨found, hfound, hremoves⟩
    exact hclears (clears_of_found hfound (clears_of_removes hremoves))

/-- A value is left if it was there and no operation clears it. -/
lemma getElem?_runCleanup_eq_some {ops : List CleanupOp} {value : Bytes} :
    (runCleanup engine ops)[x]? = some value ↔
      engine[x]? = some value ∧ ¬∃ op ∈ ops, op.clears x := by
  induction ops generalizing engine with
  | nil => simp [runCleanup]
  | cons op rest ih =>
    rw [runCleanup, ih, getElem?_run_found_eq_some]
    simp [and_assoc]

/-- The engine key is one that the cleanup of the range clears. -/
def Cleared (rangeBegin rangeEnd x : Bytes) : Prop :=
  ∃ op ∈ deleteKeysInRange rangeBegin rangeEnd, op.clears x

variable {rangeBegin rangeEnd : Bytes}

/-- A key that is there is deleted exactly as it should be if it is cleared exactly when it should. -/
lemma afterDelete_eq_ite_iff {p : Prop} [Decidable p] (hthere : engine[x]? ≠ none) :
    ((afterDelete engine rangeBegin rangeEnd)[x]? = if p then none else engine[x]?) ↔
      (Cleared rangeBegin rangeEnd x ↔ p) := by
  obtain ⟨value, hvalue⟩ := ne_none_iff_exists'.1 hthere
  have hleft : (afterDelete engine rangeBegin rangeEnd)[x]? = some value ↔
      ¬Cleared rangeBegin rangeEnd x := by
    rw [afterDelete, getElem?_runCleanup_eq_some]
    exact and_iff_right hvalue
  have hgone : (afterDelete engine rangeBegin rangeEnd)[x]? = none ↔
      Cleared rangeBegin rangeEnd x := by
    rw [← not_iff_not, ← hleft]
    constructor
    · intro hne
      obtain ⟨other, hother⟩ := ne_none_iff_exists'.1 hne
      have := (getElem?_runCleanup_eq_some.1 hother).1
      rw [hother, ← this, hvalue]
    · intro hsome hnone
      rw [hsome] at hnone
      cases hnone
  by_cases hp : p
  · simp [hp, hgone]
  · simp [hp, hvalue, hleft]

end

section

variable {rangeBegin rangeEnd : Bytes}

/-- A raw key is cleared by the scan, or as a record of the table it starts like. -/
lemma cleared_raw_iff (key : Bytes) : Cleared rangeBegin rangeEnd key ↔
    isSystemKey key = false ∧ inRange rangeBegin rangeEnd key = true ∨
      ∃ (table : Table) (rest : Bytes), key = table.start ++ rest ∧
        inRange rangeBegin rangeEnd rest = true := by
  unfold Cleared
  constructor
  · rintro ⟨op, hop, hclears⟩
    rcases mem_deleteKeysInRange.1 hop with ⟨table, rfl⟩ | rfl
    · exact .inr ⟨table, (removes_table_iff table rangeBegin rangeEnd key).1 hclears⟩
    · exact .inl hclears
  · rintro (hraw | ⟨table, rest, rfl, hrange⟩)
    · exact ⟨_, mem_deleteKeysInRange.2 (.inr rfl), hraw⟩
    · exact clears_table_iff.2 hrange

/-- A record is cleared exactly with its user key if the bounds agree on it. -/
lemma Record.cleared_iff_agrees (record : Record) : (Cleared rangeBegin rangeEnd record.engineKey ↔
        inRange rangeBegin rangeEnd record.userKey = true) ↔ record.Agrees rangeBegin rangeEnd := by
  have htable (table : Table) (rest : Bytes) : Cleared rangeBegin rangeEnd (table.start ++ rest) ↔
      inRange rangeBegin rangeEnd rest = true := clears_table_iff
  cases record with
  | data key ts =>
    have hkey : dataKey key ts = Table.data.start ++ (key ++ slash :: encodeTs ts) := by
      simp [dataKey, Table.start]
    rw [Record.engineKey, hkey, htable, ← Bool.eq_iff_iff]
    exact inRange_append_iff
  | write key ts =>
    have hkey : writeKey key ts = Table.write.start ++ (key ++ slash :: encodeTs ts) := by
      simp [writeKey, Table.start]
    rw [Record.engineKey, hkey, htable, ← Bool.eq_iff_iff]
    exact inRange_append_iff
  | lock key => exact iff_of_true (htable .lock key) trivial
  | revision key => exact iff_of_true (htable .revision key) trivial
  | raw key =>
    rw [Record.engineKey, cleared_raw_iff, Record.Agrees, Record.userKey]
    cases hsystem : isSystemKey key with
    | true => simp
    | false =>
      simp only [true_and, Bool.false_eq_true, false_implies, iff_true, or_iff_left_iff_imp]
      rintro ⟨table, rest, rfl, -⟩
      rw [Table.isSystemKey_start_append] at hsystem
      cases hsystem

/-- The indexes drop a key that they know exactly if it is in the range. -/
lemma knows_dropKeysInRange_iff {σ : MvccStorage} {key : Bytes} (hknows : Knows σ key) :
    ¬Knows (σ.dropKeysInRange rangeBegin rangeEnd) key ↔
      inRange rangeBegin rangeEnd key = true := by
  simp only [Knows, dropKeysInRange, ExtTreeMap.mem_iff_isSome_getElem?,
    OrdMap.getElem?_eraseWhere] at hknows ⊢
  cases hrange : inRange rangeBegin rangeEnd key with
  | true => simp
  | false =>
    simp only [Bool.false_eq_true, if_false, iff_false, not_not]
    exact hknows

end

/-- A range deletion is exact if and only if the bounds agree on every record of the engine. -/
theorem deletesExactly_iff {engine : Engine} {records : List Record}
    (hbuilt : BuiltFrom engine records) (rangeBegin rangeEnd : Bytes) :
    DeletesExactly engine records rangeBegin rangeEnd ↔
      ∀ record ∈ records, record.Agrees rangeBegin rangeEnd := by
  have hcleared (record : Record) (hrecord : record ∈ records) :=
    (@afterDelete_eq_ite_iff engine record.engineKey rangeBegin rangeEnd
      (inRange rangeBegin rangeEnd record.userKey = true) _
      (hbuilt.present record hrecord)).trans record.cleared_iff_agrees
  constructor
  · intro hexact record hrecord
    exact (hcleared record hrecord).1 (hexact.engine record hrecord)
  · intro hagrees
    refine ⟨fun record hrecord => (hcleared record hrecord).2 (hagrees record hrecord), ?_⟩
    intro record hrecord _ σ hknows
    rw [(hcleared record hrecord).2 (hagrees record hrecord), knows_dropKeysInRange_iff hknows]
    simp [hbuilt.present record hrecord]

/-- A key with all its records, and a raw key. -/
def sampleRecords : List Record :=
  [.data (ascii "a") 5, .lock (ascii "a"), .write (ascii "a") 7, .revision (ascii "a"),
    .raw (ascii "k")]

/-- An engine with these records. -/
def contentOf (records : List Record) : Engine :=
  records.foldl (fun engine record => engine.insert record.engineKey [1]) ∅

lemma builtFrom_contentOf (records : List Record) : BuiltFrom (contentOf records) records := by
  have hfold (engine : Engine) (x : Bytes) :
      (records.foldl (fun engine record => engine.insert record.engineKey [1]) engine)[x]? ≠ none ↔
        engine[x]? ≠ none ∨ ∃ record ∈ records, record.engineKey = x := by
    induction records generalizing engine with
    | nil => simp
    | cons record rest ih =>
      rw [foldl_cons, ih, OrdMap.getElem?_insert]
      by_cases hx : record.engineKey = x <;> simp [hx]
  refine ⟨fun record hrecord => ?_, fun x hx => ?_⟩
  · exact (hfold ∅ record.engineKey).2 (.inr ⟨record, hrecord, rfl⟩)
  · exact ((hfold ∅ x).1 hx).resolve_left (by simp)

theorem deletesExactly_sample : BuiltFrom (contentOf sampleRecords) sampleRecords ∧
      DeletesExactly (contentOf sampleRecords) sampleRecords (ascii "b") [] := by
  have hagrees : ∀ record ∈ sampleRecords, record.Agrees (ascii "b") [] := by
    intro record hrecord
    simp only [sampleRecords, mem_cons, not_mem_nil, or_false] at hrecord
    rcases hrecord with rfl | rfl | rfl | rfl | rfl
    · exact .inr (by decide)
    · trivial
    · exact .inr (by decide)
    · trivial
    · exact fun hsystem => absurd hsystem (by decide)
  have hbuilt := builtFrom_contentOf sampleRecords
  exact ⟨hbuilt, (deletesExactly_iff hbuilt _ _).2 hagrees⟩

/-- The bound `a!` is above the user key `a` and below its data record. -/
theorem deletesExactly_fails :
    ¬∀ (engine : Engine) (records : List Record), BuiltFrom engine records →
      ∀ rangeBegin rangeEnd, DeletesExactly engine records rangeBegin rangeEnd := by
  intro h
  have hexact := h _ sampleRecords (builtFrom_contentOf sampleRecords) (ascii "a!") []
  have hdata := hexact.engine (.data (ascii "a") 5) (by decide)
  exact absurd hdata (by decide)

end StrataKV.Region
