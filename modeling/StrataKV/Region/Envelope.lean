import StrataKV.Raft.StoredState
import StrataKV.Region.RawRequest

/-!
# The command envelope

`Op` and `TxnOpPayload` as `common/include/util.h` encodes them for the Raft log. The sum of an
offset and a length does not wrap around: a `std::string` has less than `2 ^ 63` bytes.
-/

namespace StrataKV.Region

open LittleEndian List Raft

/-- `Op`, before its operation and its value are looked at. -/
structure OpEnvelope where
  operation : Bytes
  key : Bytes
  value : Bytes
  clientId : Bytes
  requestId : Int32
  status : Bytes

/-- A string behind its length, which is a `uint32_t`. -/
def appendField (out value : Bytes) : Bytes := out ++ toBytes 4 value.length ++ value

namespace OpEnvelope

def asString (x : OpEnvelope) : Bytes :=
  let out := appendField [] x.operation
  let out := appendField out x.key
  let out := appendField out x.value
  let out := appendField out x.clientId
  let out := appendInt32 out x.requestId
  appendField out x.status

/-- The members as they are left, and what is returned. -/
def parseFromString (x : OpEnvelope) (str : Bytes) : OpEnvelope × Bool := Id.run do
  let some (operation, rest) := takeField str | (x, false)
  let x := { x with operation := operation }
  let some (key, rest) := takeField rest | (x, false)
  let x := { x with key := key }
  let some (value, rest) := takeField rest | (x, false)
  let x := { x with value := value }
  let some (clientId, rest) := takeField rest | (x, false)
  let x := { x with clientId := clientId }
  let some (requestId, rest) := readInt32 rest | (x, false)
  let x := { x with requestId := requestId }
  let some (status, _) := takeField rest | (x, false)
  ({ x with status := status }, true)

/-- The strings are shorter than `2 ^ 32` bytes. -/
def Short (x : OpEnvelope) : Prop :=
  ∀ s ∈ [x.operation, x.key, x.value, x.clientId, x.status], s.length < 2 ^ 32

end OpEnvelope

namespace TxnOpPayload

def asString (x : TxnOpPayload) : Bytes :=
  let out := appendField [] x.value
  let out := appendField out x.primaryKey
  let out := appendUint64 out x.startTs
  let out := appendUint64 out x.commitTs
  let out := appendUint64 out x.ttlMs
  out ++ [if x.isDelete then 1 else 0]

/-- The same; `parsed` is no member. -/
def Short (x : TxnOpPayload) : Prop :=
  x.parsed = true ∧ ∀ s ∈ [x.value, x.primaryKey], s.length < 2 ^ 32

end TxnOpPayload

/-! ## Where fields stand -/

lemma littleEndian_eq (bs : Bytes) : littleEndian bs = ofBytes bs := by
  induction bs with
  | nil => rfl
  | cons b bs ih => rw [littleEndian, ofBytes_cons, ih]

lemma takeWord_eq : takeWord = readUint64 := by
  ext1 data
  rw [takeWord, readUint64, readUint, littleEndian_eq]
  split_ifs <;> rfl

lemma takeField_eq_some {data s rest : Bytes} : takeField data = some (s, rest) ↔
    s.length < 2 ^ 32 ∧ data = toBytes 4 s.length ++ (s ++ rest) := by
  unfold takeField
  rw [littleEndian_eq]
  constructor
  · intro h
    dsimp only at h
    split_ifs at h with hshort
    rw [not_or, not_lt] at hshort
    cases h
    have hread := readUint_eq_some.1 (show readUint 4 data = _ from if_neg (not_lt.2 hshort.1))
    have hlength : ((data.drop 4).take (ofBytes (data.take 4))).length = ofBytes (data.take 4) := by
      rw [length_take_of_le]
      rw [length_drop]
      omega
    rw [hlength, take_append_drop]
    exact hread
  · rintro ⟨hs, rfl⟩
    have hlength := length_toBytes 4 s.length
    rw [take_left' hlength, drop_left' hlength, ofBytes_toBytes hs]
    simp

/-- What is asked of an encoding and its parser, for the values that are `ok`. Different values have
different encodings, none of which is a part of the other. -/
structure Faithful {α : Type} (ok : α → Prop) (asString : α → Bytes) (parse : Bytes → α × Bool) :
    Prop where
  parse_asString : ∀ x, ok x → parse (asString x) = (x, true)
  prefix_free : ∀ x y, ok x → ok y → asString x <+: asString y → x = y
  truncated : ∀ x data, ok x → data <+: asString x → data ≠ asString x → (parse data).2 = false

/-- It is enough that the parser does not look behind a value, and has seen all of it. -/
lemma Faithful.of_append {α : Type} {ok : α → Prop} {asString : α → Bytes}
    {parse : Bytes → α × Bool} (hread : ∀ x rest, ok x → parse (asString x ++ rest) = (x, true))
    (htaken : ∀ data more y, parse data = (y, true) →
      parse (data ++ more) = (y, true) ∧ (asString y).length ≤ data.length) :
    Faithful ok asString parse := by
  have hall (x : α) (hx : ok x) : parse (asString x) = (x, true) := by simpa using hread x [] hx
  refine ⟨hall, ?_, ?_⟩
  · rintro x y hx hy ⟨more, hmore⟩
    have hboth := hread x more hx
    rw [hmore, hall y hy] at hboth
    exact (Prod.mk.inj hboth).1.symm
  · rintro x data hx ⟨more, hmore⟩ hne
    rcases hdata : parse data with ⟨y, _ | _⟩
    · rfl
    · obtain ⟨hboth, hlength⟩ := htaken data more y hdata
      rw [hmore, hall x hx] at hboth
      rw [← (Prod.mk.inj hboth).1, ← hmore, length_append] at hlength
      have hnil : more = [] := length_eq_zero_iff.1 (by omega)
      rw [hnil, append_nil] at hmore
      exact absurd hmore hne

lemma takeField_append {s : Bytes} (hs : s.length < 2 ^ 32) (rest : Bytes) :
    takeField (toBytes 4 s.length ++ (s ++ rest)) = some (s, rest) := takeField_eq_some.2 ⟨hs, rfl⟩

lemma OpEnvelope.faithful (prev : OpEnvelope) : Faithful Short asString (parseFromString prev) := by
  have hread (x : OpEnvelope) (rest : Bytes) (hx : x.Short) :
      parseFromString prev (x.asString ++ rest) = (x, true) := by
    have hfield (s : Bytes) (hs : s ∈ [x.operation, x.key, x.value, x.clientId, x.status]) :=
      takeField_append (hx s hs)
    simp [asString, appendField, appendInt32, parseFromString, Id.run, hfield]
  refine .of_append hread fun data more y h => ?_
  -- each field that was read stands where it was read
  have hdata : y.Short ∧ ∃ rest, data = y.asString ++ rest := by
    unfold parseFromString at h
    iterate 6
      split at h
      swap
      · cases h
    rename_i hoperation _ _ _ hkey _ _ _ hvalue _ _ _ hclient _ _ _ hrequest _ _ rest hstatus
    cases h
    obtain ⟨hoperation, rfl⟩ := takeField_eq_some.1 hoperation
    obtain ⟨hkey, rfl⟩ := takeField_eq_some.1 hkey
    obtain ⟨hvalue, rfl⟩ := takeField_eq_some.1 hvalue
    obtain ⟨hclient, rfl⟩ := takeField_eq_some.1 hclient
    obtain rfl := readInt32_eq_some.1 hrequest
    obtain ⟨hstatus, rfl⟩ := takeField_eq_some.1 hstatus
    refine ⟨by simp_all [Short], rest, ?_⟩
    simp only [asString, appendField, appendInt32, nil_append, append_assoc]
  obtain ⟨hshort, rest, rfl⟩ := hdata
  rw [append_assoc, hread y _ hshort, length_append]
  exact ⟨rfl, Nat.le_add_right _ _⟩

/-- The encodings of both records are read back and prefix-free, and none parses after a cut. -/
theorem envelope_faithful :
    (∀ prev, Faithful OpEnvelope.Short OpEnvelope.asString (OpEnvelope.parseFromString prev)) ∧
      Faithful TxnOpPayload.Short TxnOpPayload.asString fun input =>
        (TxnOpPayload.parseFromString input, (TxnOpPayload.parseFromString input).parsed) := by
  refine ⟨OpEnvelope.faithful, .of_append ?_ ?_⟩
  · rintro ⟨value, primaryKey, startTs, commitTs, ttlMs, isDelete, _⟩ rest ⟨rfl, hx⟩
    have hfield (s : Bytes) (hs : s ∈ [value, primaryKey]) := takeField_append (hx s hs)
    simp [TxnOpPayload.asString, appendField, appendUint64, TxnOpPayload.parseFromString, hfield,
      takeWord_eq]
  · -- any byte is read as a flag, so `data` itself need not be an encoding
    intro data more y h
    obtain ⟨rfl, hparsed⟩ := Prod.mk.inj h
    unfold TxnOpPayload.parseFromString at hparsed
    iterate 6
      split at hparsed
      · cases hparsed
    rename_i hvalue _ _ _ hkey _ _ _ hstart _ _ _ hcommit _ _ _ _ _ httl
    rw [takeWord_eq] at hstart hcommit httl
    obtain ⟨hshort, rfl⟩ := takeField_eq_some.1 hvalue
    obtain ⟨hshort', rfl⟩ := takeField_eq_some.1 hkey
    obtain rfl := readUint64_eq_some.1 hstart
    obtain rfl := readUint64_eq_some.1 hcommit
    obtain rfl := readUint64_eq_some.1 httl
    simp [TxnOpPayload.asString, appendField, appendUint64, TxnOpPayload.parseFromString,
      takeField_append hshort, takeField_append hshort', takeWord_eq]
    omega

end StrataKV.Region
