import StrataKV.Mvcc.KeyView
import StrataKV.Region.Peer

/-!
# Records by user key

A split moves the records of the user keys of a range from one engine to another. The engine orders
its own keys, which are `<table>/<user key>` and, for the tables with a timestamp,
`<table>/<user key>/<timestamp>`; a range of user keys is deleted as a range of engine keys of each
table. A record of a key at or above the lower end of a range is at or above the lower end in its
table. At the upper end this fails: the timestamp behind the slash takes part in the comparison.
-/

namespace StrataKV.Region

open Mvcc MvccStorage CleanupOp List
open Std (ExtTreeMap)

/-! ## Ranges of byte strings with a common start -/

section

variable {a b s : Bytes}

lemma append_lt_append_iff (start a b : Bytes) : start ++ a < start ++ b ↔ a < b := by
  induction start with
  | nil => rfl
  | cons byte rest ih =>
    rw [cons_append, cons_append, cons_lt_cons_iff]
    simp [ih]

/-- What is between two strings with a common start has that start. -/
lemma exists_eq_append {start low high x : Bytes} (hlow : ¬x < start ++ low)
    (hhigh : x < start ++ high) : ∃ y, x = start ++ y := by
  induction start generalizing x with
  | nil => exact ⟨x, rfl⟩
  | cons byte rest ih =>
    cases x with
    | nil => exact absurd (nil_lt_cons _ _) hlow
    | cons first x =>
      rw [cons_append, cons_lt_cons_iff] at hlow hhigh
      have hfirst : first = byte := by
        rcases hhigh with h | h
        · exact absurd (.inl h) hlow
        · exact h.1
      subst hfirst
      obtain ⟨y, rfl⟩ := ih (fun h => hlow (.inr ⟨rfl, h⟩)) (hhigh.resolve_left (by simp)).2
      exact ⟨y, rfl⟩

lemma not_append_lt_self (a b : Bytes) : ¬a ++ b < a := by
  intro h
  have := (append_lt_append_iff a b []).1 (by simpa using h)
  simp at this

/-- What decides the order of `a` and `b` is inside `a`, unless `b` starts with `a`. -/
lemma append_lt_of_lt (hlt : a < b) (hstart : ¬a <+: b) : a ++ s < b := by
  induction a generalizing b with
  | nil => exact absurd nil_prefix hstart
  | cons x a ih =>
    cases b with
    | nil => exact absurd hlt (not_lt_nil _)
    | cons y b =>
      rw [cons_append, cons_lt_cons_iff]
      rcases cons_lt_cons_iff.1 hlt with hxy | ⟨rfl, hab⟩
      · exact .inl hxy
      · refine .inr ⟨rfl, ih hab fun hpre => hstart ?_⟩
        exact cons_prefix_cons.2 ⟨rfl, hpre⟩

/-- An extension of the lower bound is below the upper one if this does not start with the lower
bound, or goes on with more than the extension. -/
lemma append_lt_iff (hlt : a < b) : a ++ s < b ↔ ¬a <+: b ∨ s < b.drop a.length := by
  by_cases hstart : a <+: b
  · obtain ⟨r, rfl⟩ := hstart
    rw [append_lt_append_iff, drop_left]
    simp
  · simp only [hstart, not_false_eq_true, true_or, iff_true]
    exact append_lt_of_lt hlt hstart

lemma lt_append (hne : s ≠ []) : a < a ++ s := by
  obtain ⟨x, rest, rfl⟩ := exists_cons_of_ne_nil hne
  have := (append_lt_append_iff a [] (x :: rest)).2 (nil_lt_cons x rest)
  rwa [append_nil] at this

lemma mem_inRange {low high key : Bytes} :
    inRange low high key = true ↔ ¬key < low ∧ (high = [] ∨ key < high) := by
  simp [inRange]

end

/-! ## Tables -/

/-- The families of records that the storage keeps for a user key. -/
inductive Table
  | data
  | lock
  | write
  | revision
  deriving DecidableEq

namespace Table

def start : Table → Bytes
  | data => ascii "data/"
  | lock => ascii "lock/"
  | write => ascii "write/"
  | revision => ascii "meta/revision/"

/-- The first engine key behind the table. -/
def stop : Table → Bytes
  | data => ascii "data0"
  | lock => ascii "lock0"
  | write => ascii "write0"
  | revision => ascii "meta/revision0"

/-- The end of a range of user keys, in the table. -/
def bound (table : Table) (rangeEnd : Bytes) : Bytes :=
  if rangeEnd = [] then table.stop else table.start ++ rangeEnd

lemma start_eq_stop (table : Table) :
    ∃ name, table.start = name ++ [slash] ∧ table.stop = name ++ [slash + 1] := by
  cases table
  · exact ⟨ascii "data", by decide⟩
  · exact ⟨ascii "lock", by decide⟩
  · exact ⟨ascii "write", by decide⟩
  · exact ⟨ascii "meta/revision", by decide⟩

/-- The engine keys of a range are those of the table with a rest in the range of user keys. -/
lemma mem_bound_iff (table : Table) (rangeBegin rangeEnd x : Bytes) :
    (¬x < table.start ++ rangeBegin ∧ x < table.bound rangeEnd) ↔
      ∃ y, x = table.start ++ y ∧ inRange rangeBegin rangeEnd y = true := by
  obtain ⟨name, hstart, hstop⟩ := table.start_eq_stop
  -- below the end, in the table
  have hbound (y : Bytes) : table.start ++ y < table.bound rangeEnd ↔
      rangeEnd = [] ∨ y < rangeEnd := by
    unfold bound
    split_ifs with hnil
    · rw [hstart, hstop, append_assoc, append_lt_append_iff, singleton_append, cons_lt_cons_iff]
      simp only [hnil, true_or, iff_true]
      exact .inl (by decide)
    · rw [append_lt_append_iff]
      simp [hnil]
  constructor
  · rintro ⟨hlow, hhigh⟩
    obtain ⟨y, rfl⟩ : ∃ y, x = table.start ++ y := by
      by_cases hnil : rangeEnd = []
      · -- the end of the table is its name with the byte after the slash
        rw [bound, if_pos hnil, hstop] at hhigh
        rw [hstart, append_assoc] at hlow
        obtain ⟨z, rfl⟩ := exists_eq_append hlow hhigh
        rw [append_lt_append_iff] at hlow hhigh
        cases z with
        | nil => exact absurd (nil_lt_cons _ _) hlow
        | cons first z =>
          rw [singleton_append, cons_lt_cons_iff] at hlow
          rw [cons_lt_cons_iff] at hhigh
          have hfirst : first = slash := by
            have hlt : first < slash + 1 := hhigh.resolve_right (by simp)
            have hge : ¬first < slash := fun h => hlow (.inl h)
            simp only [slash, UInt8.lt_iff_toNat_lt, ← UInt8.toNat_inj] at hlt hge ⊢
            simp at hlt hge ⊢
            omega
          exact ⟨z, by rw [hfirst, hstart]; simp⟩
      · rw [bound, if_neg hnil] at hhigh
        exact exists_eq_append hlow hhigh
    refine ⟨y, rfl, ?_⟩
    rw [append_lt_append_iff] at hlow
    rw [hbound] at hhigh
    simpa [inRange, hlow] using hhigh
  · rintro ⟨y, rfl, hrange⟩
    simp only [inRange, Bool.and_eq_true, Bool.not_eq_true', decide_eq_false_iff_not,
      Bool.or_eq_true, decide_eq_true_eq] at hrange
    rw [append_lt_append_iff, hbound]
    exact hrange

/-- The tables are told apart by their first byte. -/
lemma start_append_inj {t t' : Table} {y y' : Bytes} (h : t.start ++ y = t'.start ++ y') :
    t = t' ∧ y = y' := by
  have ht : t = t' := by
    cases t <;> cases t' <;>
      first | rfl | simp [start, ascii_data, ascii_lock, ascii_write, ascii_revision] at h
  subst ht
  exact ⟨rfl, append_cancel_left h⟩

lemma isSystemKey_start_append (table : Table) (y : Bytes) :
    isSystemKey (table.start ++ y) = true := by
  cases table
  · simp [isSystemKey, start, isPrefixOf_iff_prefix]
  · simp [isSystemKey, start, isPrefixOf_iff_prefix]
  · simp [isSystemKey, start, isPrefixOf_iff_prefix]
  · have : ascii "meta/revision/" = ascii "meta/" ++ ascii "revision/" := by decide
    simp [isSystemKey, start, isPrefixOf_iff_prefix, this]

end Table

/-! ## Cleanup -/

variable {op : CleanupOp}

namespace CleanupOp

/-- The operation deletes the engine key. -/
def removes : CleanupOp → Bytes → Prop
  | deleteRange rangeBegin rangeEnd, x => ¬x < rangeBegin ∧ x < rangeEnd
  | scanRaw _ _, _ => False
  | delete key, x => key = x

instance (op : CleanupOp) (x : Bytes) : Decidable (op.removes x) := by
  cases op <;> unfold removes <;> infer_instance

lemma getElem?_run (op : CleanupOp) (engine : Engine) (x : Bytes) :
    (op.run engine).1[x]? = if op.removes x then none else engine[x]? := by
  cases op with
  | deleteRange rangeBegin rangeEnd =>
    simp only [run, removes, OrdMap.getElem?_eraseWhere]
    by_cases hlow : x < rangeBegin <;> by_cases hhigh : x < rangeEnd <;> simp [hlow, hhigh]
  | scanRaw rangeBegin rangeEnd => simp [run, removes]
  | delete key =>
    simp only [run, removes, ExtTreeMap.getElem?_erase]
    by_cases h : key = x <;> simp [h]

variable {engine : Engine}

lemma mem_run_snd {op op' : CleanupOp} (h : op' ∈ (op.run engine).2) :
    ∃ rangeBegin rangeEnd key, op = scanRaw rangeBegin rangeEnd ∧ op' = delete key ∧
      isSystemKey key = false ∧ inRange rangeBegin rangeEnd key = true := by
  cases op with
  | deleteRange rangeBegin rangeEnd | delete key => simp [run] at h
  | scanRaw rangeBegin rangeEnd =>
    obtain ⟨item, hitem, rfl⟩ := mem_map.1 h
    have hfound := (mem_filter.1 hitem).2
    simp only [Bool.and_eq_true, Bool.not_eq_true'] at hfound
    exact ⟨_, _, _, rfl, rfl, hfound.1, hfound.2⟩

/-- The operation deletes the engine key if it is there, by itself or with what a scan finds. -/
def clears : CleanupOp → Bytes → Prop
  | deleteRange rangeBegin rangeEnd, x => ¬x < rangeBegin ∧ x < rangeEnd
  | scanRaw rangeBegin rangeEnd, x =>
    isSystemKey x = false ∧ MvccStorage.inRange rangeBegin rangeEnd x = true
  | delete key, x => key = x

lemma clears_of_removes {x : Bytes} (h : op.removes x) : op.clears x := by
  cases op with
  | deleteRange rangeBegin rangeEnd | delete key => exact h
  | scanRaw rangeBegin rangeEnd => exact absurd h id

lemma clears_of_found {op found : CleanupOp} {x : Bytes}
    (hfound : found ∈ (op.run engine).2) (h : found.clears x) : op.clears x := by
  obtain ⟨rangeBegin, rangeEnd, key, rfl, rfl, hraw, hrange⟩ := mem_run_snd hfound
  have hkey : key = x := h
  exact hkey ▸ ⟨hraw, hrange⟩

/-- What is to be cleared is gone after the operation, or among what the scan has found. -/
lemma removes_or_found {x : Bytes} (h : op.clears x)
    (hthere : engine[x]? ≠ none) : op.removes x ∨ delete x ∈ (op.run engine).2 := by
  cases op with
  | deleteRange rangeBegin rangeEnd | delete key => exact .inl h
  | scanRaw rangeBegin rangeEnd =>
    obtain ⟨value, hvalue⟩ := Option.ne_none_iff_exists'.1 hthere
    refine .inr (mem_map.2 ⟨(x, value), mem_filter.2 ⟨?_, ?_⟩, rfl⟩)
    · exact ExtTreeMap.mem_toList_iff_getElem?_eq_some.2 hvalue
    · simp only [h.1, h.2, Bool.not_false, Bool.and_self]

end CleanupOp

lemma mem_deleteKeysInRange {rangeBegin rangeEnd : Bytes} :
    op ∈ deleteKeysInRange rangeBegin rangeEnd ↔
      (∃ table : Table, op = .deleteRange (table.start ++ rangeBegin) (table.bound rangeEnd)) ∨
        op = .scanRaw rangeBegin rangeEnd := by
  have hbegin (key : String) : (if rangeBegin = [] then ascii key else ascii key ++ rangeBegin) =
      ascii key ++ rangeBegin := by
    split_ifs with h
    · simp [h]
    · rfl
  simp only [deleteKeysInRange, hbegin, mem_cons, not_mem_nil, or_false]
  constructor
  · rintro (h | h | h | h | h)
    · exact .inl ⟨.data, h⟩
    · exact .inl ⟨.lock, h⟩
    · exact .inl ⟨.write, h⟩
    · exact .inl ⟨.revision, h⟩
    · exact .inr h
  · rintro (⟨table, h⟩ | h)
    · cases table
      · exact .inl h
      · exact .inr (.inl h)
      · exact .inr (.inr (.inl h))
      · exact .inr (.inr (.inr (.inl h)))
    · exact .inr (.inr (.inr (.inr h)))

/-- The cleanup of a range of a table deletes a record if its rest is in the range. -/
lemma removes_table_iff (table : Table) (rangeBegin rangeEnd x : Bytes) :
    (deleteRange (table.start ++ rangeBegin) (table.bound rangeEnd)).removes x ↔
      ∃ y, x = table.start ++ y ∧ inRange rangeBegin rangeEnd y = true :=
  table.mem_bound_iff rangeBegin rangeEnd x

/-- In a table it clears what follows the name of the table within the range. -/
lemma clears_table_iff {rangeBegin rangeEnd y : Bytes} {table : Table} :
    (∃ op ∈ deleteKeysInRange rangeBegin rangeEnd, op.clears (table.start ++ y)) ↔
      inRange rangeBegin rangeEnd y = true := by
  constructor
  · rintro ⟨op, hop, hclears⟩
    rcases mem_deleteKeysInRange.1 hop with ⟨table', rfl⟩ | rfl
    · obtain ⟨y', heq, hrange⟩ := (removes_table_iff table' rangeBegin rangeEnd _).1 hclears
      obtain ⟨-, rfl⟩ := Table.start_append_inj heq
      exact hrange
    · exact absurd hclears.1 (by simp [Table.isSystemKey_start_append])
  · intro hrange
    refine ⟨_, mem_deleteKeysInRange.2 (.inl ⟨table, rfl⟩), ?_⟩
    exact (removes_table_iff table rangeBegin rangeEnd _).2 ⟨y, rfl, hrange⟩

end StrataKV.Region
