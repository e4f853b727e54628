import Mathlib.Tactic
import StrataKV.Lib.Decimal

/-!
# MVCC records and their encodings

The record types of `mvcc_storage.h` and the string encodings of `mvcc_storage.cpp`:

- values are sequences of fields, each written as `length:bytes`;
- engine keys are `data/<key>/<startTs>`, `lock/<key>`, `write/<key>/<commitTs>` and
  `meta/revision/<key>`, with timestamps filled to twenty digits.

The second half shows that decoding an encoded record gives it back and that the four
families of engine keys never collide.
-/

namespace StrataKV

open List Nat

/-- The bytes of an ASCII string literal. -/
def ascii (s : String) : Bytes := s.toList.map fun c => UInt8.ofNat c.toNat

namespace Mvcc

open Decimal

/-- A `uint64_t` timestamp. -/
abbrev Ts := UInt64

inductive TxnStatus
  | ok
  | notFound
  | lockConflict
  | writeConflict
  | alreadyCommitted
  | timeout
  | abortOnly
  | cleanupPending
  | resultUnknown
  | storageError
  deriving DecidableEq, Repr

structure MvccLock where
  primaryKey : Bytes := []
  value : Bytes := []
  startTs : Ts := 0
  ttlMs : UInt64 := 0
  createTimeMs : UInt64 := 0
  isDelete : Bool := false
  isPessimistic : Bool := false
  isLockOnly : Bool := false
  forUpdateTs : Ts := 0
  expireAtPhysicalMs : UInt64 := 0
  legacyExpiry : Bool := true
  deriving DecidableEq, Repr

inductive TxnRecordState
  | locked
  | committed
  | rolledBack
  | notFound
  deriving DecidableEq, Repr

structure TxnRecordStatus where
  state : TxnRecordState := .notFound
  commitTs : Ts := 0
  lock : Option MvccLock := none
  deriving DecidableEq, Repr

inductive MvccWriteType
  | put
  | delete
  | rollback
  | lock
  deriving DecidableEq, Repr

structure MvccWrite where
  startTs : Ts := 0
  commitTs : Ts := 0
  type : MvccWriteType := .put
  deriving DecidableEq, Repr

inductive KVBatchOpType
  | put
  | delete
  deriving DecidableEq, Repr

/-- One engine mutation of a write batch. -/
structure KVBatchOp where
  type : KVBatchOpType
  key : Bytes
  value : Bytes
  deriving DecidableEq, Repr

/-! ## Values -/

def encodeTs (ts : Ts) : Bytes := padDecimal 20 ts.toNat

def decodeTs (encoded : Bytes) : Ts := strtoull encoded

/-- The byte `:` that ends a field's length. -/
def colon : UInt8 := 58

/-- The byte `/` that ends a key's path component. -/
def slash : UInt8 := 47

def appendField (output value : Bytes) : Bytes :=
  output ++ toDecimal value.length ++ [colon] ++ value

variable (fields : List Bytes)

def encodeFields : Bytes := fields.foldl appendField []

/-- One round of the loop of `DecodeFields` from `pos`: the field read and the next position.
Sizes are 64-bit, so `begin + length` wraps around. -/
def decodeFieldsStep (input : Bytes) (pos : ℕ) : Option (Bytes × ℕ) :=
  match (input.drop pos).findIdx? (· == colon) with
  | none => none
  | some i =>
    let length := (decodeTs ((input.drop pos).take i)).toNat
    let start := pos + i + 1
    let stop := (start + length) % 2 ^ 64
    if input.length < stop then none else some ((input.drop start).take length, stop)

/-- The loop of `DecodeFields`, for at most `fuel` rounds. -/
def decodeFieldsLoop : ℕ → Bytes → ℕ → Option (List Bytes)
  | 0, _, _ => none
  | fuel + 1, input, pos =>
    if pos < input.length then
      match decodeFieldsStep input pos with
      | none => none
      | some (field, next) => (decodeFieldsLoop fuel input next).map (field :: ·)
    else some []

/-- A loop that advances needs at most one round a byte. -/
def decodeFields (input : Bytes) : Option (List Bytes) :=
  decodeFieldsLoop (input.length + 1) input 0

def writeTypeName : MvccWriteType → Bytes
  | .put => ascii "put"
  | .delete => ascii "delete"
  | .rollback => ascii "rollback"
  | .lock => ascii "lock"

def parseWriteType (type : Bytes) : MvccWriteType :=
  if type = ascii "delete" then .delete
  else if type = ascii "rollback" then .rollback
  else if type = ascii "lock" then .lock
  else .put

def flag (b : Bool) : Bytes := if b then ascii "1" else ascii "0"

def encodeLockValue (lock : MvccLock) : Bytes :=
  encodeFields [lock.primaryKey, toDecimal lock.startTs.toNat, toDecimal lock.ttlMs.toNat,
    toDecimal lock.createTimeMs.toNat, flag lock.isDelete, flag lock.isPessimistic,
    toDecimal (if lock.forUpdateTs = 0 then lock.startTs else lock.forUpdateTs).toNat,
    toDecimal lock.expireAtPhysicalMs.toNat, flag lock.isLockOnly]

/-- The text before the last byte `sep`, and the text after it. -/
def splitLast (sep : UInt8) (s : Bytes) : Option (Bytes × Bytes) :=
  let tail := (s.reverse.takeWhile (· != sep)).reverse
  if tail.length = s.length then none
  else some (s.take (s.length - tail.length - 1), tail)

/-- `nowMs` is what `NowMs()` returns for a lock of the old format. -/
def decodeLockValue (nowMs : UInt64) (encoded : Bytes) : Option MvccLock :=
  let legacy := (splitLast 35 encoded).map fun (primaryKey, ts) =>
    { primaryKey := primaryKey, startTs := decodeTs ts, createTimeMs := nowMs,
      forUpdateTs := decodeTs ts : MvccLock }
  match decodeFields encoded with
  | some fields =>
    if 5 ≤ fields.length then
      let startTs := decodeTs (fields.getD 1 [])
      let forUpdateTs := if 7 ≤ fields.length then decodeTs (fields.getD 6 []) else startTs
      let expireAt := if 8 ≤ fields.length then decodeTs (fields.getD 7 []) else 0
      some
        { primaryKey := fields.getD 0 []
          startTs := startTs
          ttlMs := decodeTs (fields.getD 2 [])
          createTimeMs := decodeTs (fields.getD 3 [])
          isDelete := fields.getD 4 [] = ascii "1"
          isPessimistic := 6 ≤ fields.length && fields.getD 5 [] = ascii "1"
          forUpdateTs := if forUpdateTs = 0 then startTs else forUpdateTs
          expireAtPhysicalMs := expireAt
          legacyExpiry := fields.length < 8 || expireAt = 0
          isLockOnly := 9 ≤ fields.length && fields.getD 8 [] = ascii "1" }
    else legacy
  | none => legacy

def encodeWriteValue (write : MvccWrite) : Bytes :=
  encodeFields [toDecimal write.startTs.toNat, writeTypeName write.type]

/-- The decoded record; `commitTs` is not part of the value and is set by the caller. -/
def decodeWriteValue (encoded : Bytes) : Option MvccWrite :=
  let legacy :=
    if 0 < decodeTs encoded then some { startTs := decodeTs encoded : MvccWrite } else none
  match decodeFields encoded with
  | some fields =>
    if 2 ≤ fields.length then
      some { startTs := decodeTs (fields.getD 0 []), type := parseWriteType (fields.getD 1 []) }
    else legacy
  | none => legacy

/-! ## Engine keys -/

variable (key : Bytes)

def dataKey (startTs : Ts) : Bytes := ascii "data/" ++ key ++ [slash] ++ encodeTs startTs

def lockKey : Bytes := ascii "lock/" ++ key

def writeKey (commitTs : Ts) : Bytes := ascii "write/" ++ key ++ [slash] ++ encodeTs commitTs

def revisionKey : Bytes := ascii "meta/revision/" ++ key

def appliedRaftIndexKey : Bytes := ascii "meta/mvcc_applied_raft_index"

def splitKeyTs (suffix : Bytes) : Option (Bytes × Ts) :=
  (splitLast slash suffix).map fun (key, ts) => (key, decodeTs ts)

def stripPrefix (value pre : Bytes) : Bytes := value.drop pre.length

/-! ## Decoding an encoded value -/

/-- What `appendField` adds for one field. -/
def encodeField (value : Bytes) : Bytes := toDecimal value.length ++ colon :: value

lemma foldl_appendField (output : Bytes) :
    fields.foldl appendField output = output ++ fields.flatMap encodeField := by
  induction fields generalizing output with
  | nil => simp
  | cons field fields ih => simp [ih, appendField, encodeField]

lemma encodeFields_eq_flatMap : encodeFields fields = fields.flatMap encodeField := by
  simp [encodeFields, foldl_appendField]

lemma digit_ne_colon {b : UInt8} (h : isDigit b = true) : (b == colon) = false := by
  simp only [isDigit, UInt8.le_iff_toNat_le, Bool.and_eq_true, decide_eq_true_eq] at h
  simp only [beq_eq_false_iff_ne, ne_eq, ← UInt8.toNat_inj, colon]
  have : (57 : UInt8).toNat = 57 := rfl
  have : (58 : UInt8).toNat = 58 := rfl
  omega

lemma digit_ne_slash {b : UInt8} (h : isDigit b = true) : (b != slash) = true := by
  simp only [isDigit, UInt8.le_iff_toNat_le, Bool.and_eq_true, decide_eq_true_eq] at h
  simp only [bne_iff_ne, ne_eq, ← UInt8.toNat_inj, slash]
  have : (48 : UInt8).toNat = 48 := rfl
  have : (47 : UInt8).toNat = 47 := rfl
  omega

/-- The first `:` is the one behind the length. -/
lemma findIdx?_colon (n : ℕ) (rest : Bytes) :
    (toDecimal n ++ colon :: rest).findIdx? (· == colon) = some (toDecimal n).length := by
  have hnone : (toDecimal n).findIdx? (· == colon) = none :=
    findIdx?_eq_none_iff.2 fun b hb => digit_ne_colon (mem_toDecimal hb)
  simp [findIdx?_append, hnone, findIdx?_cons]

/-- One round reads the field that starts at `pos` and stops right after it. -/
lemma decodeFieldsStep_encodeField (pre value rest : Bytes)
    (hlen : (pre ++ encodeField value ++ rest).length < 2 ^ 64) :
    decodeFieldsStep (pre ++ encodeField value ++ rest) pre.length =
      some (value, (pre ++ encodeField value).length) := by
  have hdrop : (pre ++ encodeField value ++ rest).drop pre.length =
      toDecimal value.length ++ colon :: (value ++ rest) := by
    simp [encodeField]
  simp only [length_append, encodeField, length_cons] at hlen
  have hts : (decodeTs (toDecimal value.length)).toNat = value.length := by
    have := strtoull_toDecimal_append [] (show value.length < 2 ^ 64 by omega) (by simp)
    rw [append_nil] at this
    rw [decodeTs, this, UInt64.toNat_ofNat']
    exact mod_eq_of_lt (by omega)
  have hfield : ((pre ++ encodeField value ++ rest).drop
      (pre.length + (toDecimal value.length).length + 1)).take value.length = value := by
    have hsplit : pre ++ encodeField value ++ rest =
        (pre ++ toDecimal value.length ++ [colon]) ++ (value ++ rest) := by
      simp [encodeField]
    rw [hsplit, drop_left' (by simp; omega), take_left]
  simp only [decodeFieldsStep, hdrop, findIdx?_colon, take_left, hts, hfield]
  rw [mod_eq_of_lt (by omega), if_neg (by simp [encodeField]; omega)]
  simp only [encodeField, length_append, length_cons]
  congr 2
  omega

/-- The loop reads back the fields behind its position. -/
lemma decodeFieldsLoop_encodeFields (pre : Bytes) (fuel : ℕ)
    (hlen : (pre ++ fields.flatMap encodeField).length < 2 ^ 64) (hfuel : fields.length < fuel) :
    decodeFieldsLoop fuel (pre ++ fields.flatMap encodeField) pre.length = some fields := by
  induction fields generalizing pre fuel with
  | nil =>
    obtain ⟨fuel, rfl⟩ := exists_eq_succ_of_ne_zero (ne_of_gt hfuel)
    simp [decodeFieldsLoop]
  | cons field fields ih =>
    obtain ⟨fuel, rfl⟩ := exists_eq_succ_of_ne_zero (ne_of_gt (zero_lt_of_lt hfuel))
    have hassoc : pre ++ (field :: fields).flatMap encodeField =
        (pre ++ encodeField field) ++ fields.flatMap encodeField := by simp
    rw [hassoc] at hlen ⊢
    have hpos : pre.length < (pre ++ encodeField field ++ fields.flatMap encodeField).length := by
      simp [encodeField]
    rw [decodeFieldsLoop, if_pos hpos, decodeFieldsStep_encodeField pre field _ hlen]
    simp only
    rw [ih (pre ++ encodeField field) fuel hlen (by simpa using hfuel)]
    simp

/-- Every field has a byte, so the length of the input is fuel enough. -/
lemma length_le_length_flatMap_encodeField :
    fields.length ≤ (fields.flatMap encodeField).length := by
  induction fields with
  | nil => simp
  | cons field fields ih =>
    have hpos : 0 < (encodeField field).length := by simp [encodeField]
    simp only [length_cons, flatMap_cons, length_append]
    omega

/-- Encoded fields are read back. -/
theorem decodeFields_encodeFields (hlen : (encodeFields fields).length < 2 ^ 64) :
    decodeFields (encodeFields fields) = some fields := by
  rw [encodeFields_eq_flatMap] at hlen ⊢
  have hfuel := length_le_length_flatMap_encodeField fields
  exact decodeFieldsLoop_encodeFields fields [] _ hlen (lt_succ_of_le hfuel)

lemma parseWriteType_writeTypeName (type : MvccWriteType) :
    parseWriteType (writeTypeName type) = type := by
  cases type <;> decide

lemma length_toDecimal_uint64 (n : UInt64) : (toDecimal n.toNat).length ≤ 20 :=
  length_toDecimal_le (by decide) (n.toNat_lt.trans (by norm_num))

lemma flag_eq_one (b : Bool) : decide (flag b = ascii "1") = b := by
  cases b <;> decide

lemma length_flag (b : Bool) : (flag b).length = 1 := by
  cases b <;> decide

@[simp] lemma decodeTs_toDecimal (ts : Ts) : decodeTs (toDecimal ts.toNat) = ts :=
  strtoull_toDecimal ts

@[simp] lemma decodeTs_encodeTs (ts : Ts) : decodeTs (encodeTs ts) = ts := strtoull_padDecimal 20 ts

/-- The length of a field and the `:` take up to 21 bytes. -/
lemma length_encodeField_le {value : Bytes} {k : ℕ} (hk : value.length ≤ k) (hlt : k < 2 ^ 64) :
    (encodeField value).length ≤ k + 21 := by
  have := length_toDecimal_le (by decide) (show value.length < 10 ^ 20 by omega)
  simp only [encodeField, length_append, length_cons]
  omega

/-- A write record is read back; its commit timestamp stands in the key. -/
theorem decodeWriteValue_encodeWriteValue (write : MvccWrite) :
    decodeWriteValue (encodeWriteValue write) =
      some { startTs := write.startTs, type := write.type } := by
  have hlen : (encodeWriteValue write).length < 2 ^ 64 := by
    have h₁ := length_encodeField_le (length_toDecimal_uint64 write.startTs) (by norm_num)
    have h₂ : (encodeField (writeTypeName write.type)).length ≤ 8 + 21 :=
      length_encodeField_le (by cases write.type <;> decide) (by norm_num)
    simp only [encodeWriteValue, encodeFields_eq_flatMap, flatMap_cons, flatMap_nil,
      length_append, length_nil]
    omega
  rw [decodeWriteValue, encodeWriteValue, decodeFields_encodeFields _ hlen]
  simp [parseWriteType_writeTypeName]

/-- What a lock becomes when it is written and read back: the buffered value is dropped, a
missing `forUpdateTs` is `startTs`, and only an expiry of zero is a legacy one. -/
def MvccLock.normalize (lock : MvccLock) : MvccLock :=
  { lock with
    value := []
    forUpdateTs := if lock.forUpdateTs = 0 then lock.startTs else lock.forUpdateTs
    legacyExpiry := lock.expireAtPhysicalMs = 0 }

/-- The largest `std::string` has fewer than `2 ^ 63` bytes. -/
def maxSize : ℕ := 2 ^ 63

lemma one_lt_maxSize : 1 < maxSize := by decide

/-- A lock record is read back as the normalized lock. -/
theorem decodeLockValue_encodeLockValue (nowMs : UInt64) (lock : MvccLock)
    (hsize : lock.primaryKey.length < maxSize) :
    decodeLockValue nowMs (encodeLockValue lock) = some lock.normalize := by
  have hlen : (encodeLockValue lock).length < 2 ^ 64 := by
    unfold maxSize at hsize
    have h₀ := length_encodeField_le (le_refl lock.primaryKey.length) (by omega)
    have hts (n : UInt64) := length_encodeField_le (length_toDecimal_uint64 n) (by norm_num)
    have hflag (b : Bool) := length_encodeField_le (length_flag b).le (by norm_num)
    have h₁ := hts lock.startTs
    have h₂ := hts lock.ttlMs
    have h₃ := hts lock.createTimeMs
    have h₄ := hflag lock.isDelete
    have h₅ := hflag lock.isPessimistic
    have h₆ := hts (if lock.forUpdateTs = 0 then lock.startTs else lock.forUpdateTs)
    have h₇ := hts lock.expireAtPhysicalMs
    have h₈ := hflag lock.isLockOnly
    simp only [encodeLockValue, encodeFields_eq_flatMap, flatMap_cons, flatMap_nil,
      length_append, length_nil]
    omega
  -- all nine fields are there, so that no default of an older format is taken
  rw [decodeLockValue, encodeLockValue, decodeFields_encodeFields _ hlen]
  have hforUpdate (a b : Ts) : (if (if a = 0 then b else a) = 0 then b else if a = 0 then b else a) =
      if a = 0 then b else a := by
    split_ifs <;> simp_all
  simp [MvccLock.normalize, flag_eq_one, hforUpdate]

/-! ## Engine keys are recovered and never collide -/

/-- The last separator is the one before a tail that has none. -/
lemma splitLast_append {sep : UInt8} {pre tail : Bytes} (htail : ∀ b ∈ tail, (b != sep) = true) :
    splitLast sep (pre ++ [sep] ++ tail) = some (pre, tail) := by
  have htake : (pre ++ [sep] ++ tail).reverse.takeWhile (· != sep) = tail.reverse := by
    rw [reverse_append, takeWhile_append_of_pos (by simpa using htail)]
    simp
  have hlen : (pre ++ [sep] ++ tail).length = pre.length + 1 + tail.length := by
    simp
    omega
  have hstop : pre.length + 1 + tail.length - tail.length - 1 = pre.length := by omega
  simp only [splitLast, htake, reverse_reverse, hlen, hstop]
  rw [if_neg (by omega)]
  simp

/-- A key and its timestamp are read back, also if the key has slashes. -/
@[simp] lemma splitKeyTs_append (ts : Ts) :
    splitKeyTs (key ++ [slash] ++ encodeTs ts) = some (key, ts) := by
  have hdigits : ∀ b ∈ encodeTs ts, (b != slash) = true :=
    fun b hb => digit_ne_slash (mem_padDecimal hb)
  rw [splitKeyTs, splitLast_append hdigits]
  simp

variable {key} {key' : Bytes}

lemma keyTs_inj {ts ts' : Ts}
    (h : key ++ [slash] ++ encodeTs ts = key' ++ [slash] ++ encodeTs ts') :
    key = key' ∧ ts = ts' := by
  have := congrArg splitKeyTs h
  simpa only [splitKeyTs_append, Option.some.injEq, Prod.mk.injEq] using this

/-- Different keys or timestamps have different data records. -/
lemma dataKey_inj {ts ts' : Ts} : dataKey key ts = dataKey key' ts' ↔ key = key' ∧ ts = ts' := by
  constructor
  · intro h
    simp only [dataKey, append_assoc] at h
    exact keyTs_inj (by simpa using h)
  · rintro ⟨rfl, rfl⟩
    rfl

lemma ascii_data : ascii "data/" = [100, 97, 116, 97, 47] := by decide

lemma ascii_lock : ascii "lock/" = [108, 111, 99, 107, 47] := by decide

lemma ascii_write : ascii "write/" = [119, 114, 105, 116, 101, 47] := by decide

lemma ascii_revision :
    ascii "meta/revision/" = [109, 101, 116, 97, 47, 114, 101, 118, 105, 115, 105, 111, 110, 47] := by
  decide

lemma appliedRaftIndexKey_eq : appliedRaftIndexKey =
    109 :: 101 :: 116 :: 97 :: 47 :: 109 :: appliedRaftIndexKey.drop 6 := by decide

@[simp] lemma lockKey_inj {key key' : Bytes} : lockKey key = lockKey key' ↔ key = key' := by
  simp [lockKey]

@[simp] lemma revisionKey_inj {key key' : Bytes} :
    revisionKey key = revisionKey key' ↔ key = key' := by
  simp [revisionKey]

section

variable (key key' : Bytes) (ts : Ts)

/-- The tables do not overlap. -/
@[simp] lemma lockKey_ne_dataKey : lockKey key ≠ dataKey key' ts := by
  simp [lockKey, dataKey, ascii_data, ascii_lock]

@[simp] lemma writeKey_ne_dataKey (ts' : Ts) : writeKey key ts ≠ dataKey key' ts' := by
  simp [writeKey, dataKey, ascii_data, ascii_write]

@[simp] lemma revisionKey_ne_dataKey : revisionKey key ≠ dataKey key' ts := by
  simp [revisionKey, dataKey, ascii_data, ascii_revision]

@[simp] lemma lockKey_ne_writeKey : lockKey key ≠ writeKey key' ts := by
  simp [lockKey, writeKey, ascii_lock, ascii_write]

@[simp] lemma revisionKey_ne_lockKey : revisionKey key ≠ lockKey key' := by
  simp [lockKey, revisionKey, ascii_lock, ascii_revision]

@[simp] lemma revisionKey_ne_writeKey : revisionKey key ≠ writeKey key' ts := by
  simp [revisionKey, writeKey, ascii_revision, ascii_write]

@[simp] lemma dataKey_ne_lockKey : dataKey key ts ≠ lockKey key' :=
  (lockKey_ne_dataKey key' key ts).symm

@[simp] lemma dataKey_ne_writeKey (ts' : Ts) : dataKey key ts ≠ writeKey key' ts' :=
  (writeKey_ne_dataKey key' key ts' ts).symm

@[simp] lemma dataKey_ne_revisionKey : dataKey key ts ≠ revisionKey key' :=
  (revisionKey_ne_dataKey key' key ts).symm

@[simp] lemma writeKey_ne_lockKey : writeKey key ts ≠ lockKey key' :=
  (lockKey_ne_writeKey key' key ts).symm

@[simp] lemma lockKey_ne_revisionKey : lockKey key ≠ revisionKey key' :=
  (revisionKey_ne_lockKey key' key).symm

@[simp] lemma writeKey_ne_revisionKey : writeKey key ts ≠ revisionKey key' :=
  (revisionKey_ne_writeKey key' key ts).symm

@[simp] lemma appliedRaftIndexKey_ne_dataKey : appliedRaftIndexKey ≠ dataKey key ts := by
  rw [appliedRaftIndexKey_eq]
  simp [dataKey, ascii_data]

@[simp] lemma lockKey_ne_appliedRaftIndexKey : lockKey key ≠ appliedRaftIndexKey := by
  rw [appliedRaftIndexKey_eq]
  simp [lockKey, ascii_lock]

@[simp] lemma writeKey_ne_appliedRaftIndexKey : writeKey key ts ≠ appliedRaftIndexKey := by
  rw [appliedRaftIndexKey_eq]
  simp [writeKey, ascii_write]

@[simp] lemma revisionKey_ne_appliedRaftIndexKey : revisionKey key ≠ appliedRaftIndexKey := by
  rw [appliedRaftIndexKey_eq]
  simp [revisionKey, ascii_revision]

end

end Mvcc

end StrataKV
