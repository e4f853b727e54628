import StrataKV.Mvcc.Durable

/-!
# The encodings of records

A record that is written is read back, and an engine key says which record it belongs to
(`encodings_faithful`).

`DecodeFields` is also run on bytes that no encoder wrote. It adds a length that it has read to a
position, and sizes have 64 bits: where the sum wraps around, the loop passes its check, returns a
field that is shorter than declared and goes on from an earlier position, possibly for ever.
`LaidOut` says how the bytes are put together that it has passed, and `decodes_iff_wrapsHarmlessly`
for which bytes it ends, moves forward and is exact.
-/

namespace StrataKV.Mvcc

open Option List

/-! ## What is written is read back -/

/-- The records that a storage keeps in its engine. -/
inductive RecordId
  | data (key : Bytes) (startTs : Ts)
  | lock (key : Bytes)
  | write (key : Bytes) (commitTs : Ts)
  | revision (key : Bytes)
deriving DecidableEq, Repr

def RecordId.engineKey : RecordId → Bytes
  | data key startTs => dataKey key startTs
  | lock key => lockKey key
  | write key commitTs => writeKey key commitTs
  | revision key => revisionKey key

lemma RecordId.engineKey_injective : Function.Injective engineKey := by
  intro a b h
  cases a <;> cases b <;> simp_all [engineKey, dataKey_inj, writeKey_inj]

lemma RecordId.engineKey_ne_appliedRaftIndexKey (id : RecordId) :
    id.engineKey ≠ appliedRaftIndexKey := by
  cases id with
  | data key startTs => exact (appliedRaftIndexKey_ne_dataKey key startTs).symm
  | lock key => exact lockKey_ne_appliedRaftIndexKey key
  | write key commitTs => exact writeKey_ne_appliedRaftIndexKey key commitTs
  | revision key => exact revisionKey_ne_appliedRaftIndexKey key

/-- Locks, write records and timestamped keys are read back, and no two records share an engine
key. -/
theorem encodings_faithful (lock : MvccLock) (write : MvccWrite) (key : Bytes) (ts : Ts)
    (nowMs : UInt64) (hsize : lock.primaryKey.length < maxSize) :
    decodeLockValue nowMs (encodeLockValue lock) = some lock.normalize ∧
      decodeWriteValue (encodeWriteValue write) =
        some { startTs := write.startTs, type := write.type } ∧
      splitKeyTs (stripPrefix (writeKey key ts) (ascii "write/")) = some (key, ts) ∧
      splitKeyTs (stripPrefix (dataKey key ts) (ascii "data/")) = some (key, ts) ∧
      Function.Injective RecordId.engineKey ∧
      ∀ id : RecordId, id.engineKey ≠ appliedRaftIndexKey := by
  refine ⟨decodeLockValue_encodeLockValue nowMs lock hsize, decodeWriteValue_encodeWriteValue write,
    ?_, ?_, RecordId.engineKey_injective, RecordId.engineKey_ne_appliedRaftIndexKey⟩
  · rw [MvccStorage.stripPrefix_writeKey, splitKeyTs_append]
  · have hstrip : stripPrefix (dataKey key ts) (ascii "data/") = key ++ [slash] ++ encodeTs ts := by
      simp [stripPrefix, dataKey]
    rw [hstrip, splitKeyTs_append]

/-- A primary key with the bytes that separate fields and keys. -/
theorem encodings_faithful_separators :
    decodeLockValue 0 (encodeLockValue { primaryKey := [colon, slash, 35], startTs := 7 }) =
      some { primaryKey := [colon, slash, 35], startTs := 7, forUpdateTs := 7 } :=
  (encodings_faithful { primaryKey := [colon, slash, 35], startTs := 7 } {} [] 0 0 (by decide)).1

/-! ## Fields that nobody encoded -/

variable (input : Bytes)

/-- Where the field at a position begins, and its declared length. -/
def declared (pos : ℕ) : Option (ℕ × ℕ) :=
  ((input.drop pos).findIdx? (· == colon)).map fun i =>
    (pos + i + 1, (decodeTs ((input.drop pos).take i)).toNat)

/-- The position after the round at `pos`, if there is one. -/
def nextPos (pos : ℕ) : Option ℕ :=
  if pos < input.length then (decodeFieldsStep input pos).map Prod.snd else none

/-- The position that the loop has reached from `pos` after some rounds, if it has not ended. -/
def posFrom (input : Bytes) : ℕ → ℕ → Option ℕ
  | pos, 0 => some pos
  | pos, rounds + 1 => (nextPos input pos).bind (posFrom input · rounds)

/-- The loop ends, moves forward, and returns fields of the declared lengths. -/
structure Decodes (input : Bytes) : Prop where
  terminates : ∃ rounds, posFrom input 0 rounds = none
  advances : ∀ rounds pos next, posFrom input 0 rounds = some pos →
    nextPos input pos = some next → pos < next
  exact : ∀ fuel fields, decodeFieldsLoop fuel input 0 = some fields →
    ∀ (i : ℕ) (field : Bytes), fields[i]? = some field → ∃ pos start length,
      posFrom input 0 i = some pos ∧ declared input pos = some (start, length) ∧
      field = (input.drop start).take length ∧ field.length = length

/-- The end of the field at a position is not a 64-bit number. -/
def wraps (pos : ℕ) : Bool :=
  (declared input pos).any fun (start, length) => decide (2 ^ 64 ≤ start + length)

/-- The bytes before the position are laid out as fields: a length in text, a colon and as many
bytes as the text says. A text may also say so much that only a part of itself is passed over, up to
where its end wraps around to; the flag tells whether there is such a text. -/
inductive LaidOut (input : Bytes) : ℕ → Bool → Prop
  | start : LaidOut input 0 false
  | field {pos : ℕ} {wrapped : Bool} {text value rest : Bytes} (before : LaidOut input pos wrapped)
      (bytes : input.drop pos = text ++ colon :: (value ++ rest)) (plain : colon ∉ text)
      (size : (decodeTs text).toNat = value.length) :
      LaidOut input (pos + text.length + 1 + value.length) wrapped
  | wraps {pos : ℕ} {wrapped : Bool} {head tail rest : Bytes} (before : LaidOut input pos wrapped)
      (bytes : input.drop pos = head ++ tail ++ colon :: rest) (plain : colon ∉ head ++ tail)
      (part : head ≠ []) (size : (decodeTs (head ++ tail)).toNat + tail.length + 1 = 2 ^ 64) :
      LaidOut input (pos + head.length) true

/-- Behind bytes that are laid out as fields no length leads back, and where a length wraps around
the input does not end with a field. -/
structure WrapsHarmlessly : Prop where
  forward : ∀ (pos : ℕ) (wrapped : Bool) (text rest : Bytes), LaidOut input pos wrapped →
    input.drop pos = text ++ colon :: rest → colon ∉ text →
      2 ^ 64 ≤ pos + text.length + 1 + (decodeTs text).toNat →
        2 ^ 64 ≤ text.length + (decodeTs text).toNat
  refused : ¬LaidOut input input.length true

section

variable {input} {field : Bytes} {pos start length next : ℕ}

lemma declared_bounds (h : declared input pos = some (start, length)) :
    pos < start ∧ start ≤ input.length ∧ length < 2 ^ 64 := by
  obtain ⟨i, hi, heq⟩ := map_eq_some_iff.1 h
  obtain ⟨rfl, rfl⟩ := Prod.mk.inj heq
  have hlt := (findIdx?_eq_some_iff_getElem.1 hi).1
  rw [length_drop] at hlt
  exact ⟨by omega, by omega, UInt64.toNat_lt _⟩

/-- What is declared at a position, by the bytes that stand there. -/
lemma declared_eq_some : declared input pos = some (start, length) ↔
    ∃ text rest, input.drop pos = text ++ colon :: rest ∧ colon ∉ text ∧
      start = pos + text.length + 1 ∧ length = (decodeTs text).toNat := by
  constructor
  · intro h
    obtain ⟨i, hi, heq⟩ := map_eq_some_iff.1 h
    obtain ⟨rfl, rfl⟩ := Prod.mk.inj heq
    obtain ⟨hlt, hcolon, hbefore⟩ := findIdx?_eq_some_iff_getElem.1 hi
    have hlength : ((input.drop pos).take i).length = i := length_take_of_le hlt.le
    refine ⟨(input.drop pos).take i, (input.drop pos).drop (i + 1), ?_, ?_, by rw [hlength], rfl⟩
    · rw [← beq_iff_eq.1 hcolon, ← drop_eq_getElem_cons hlt, take_append_drop]
    · intro hmem
      obtain ⟨k, hk, hget⟩ := getElem_of_mem hmem
      rw [getElem_take] at hget
      rw [hlength] at hk
      exact hbefore k hk (beq_iff_eq.2 hget)
  · rintro ⟨text, rest, hdata, hplain, rfl, rfl⟩
    have hindex : (text ++ colon :: rest).findIdx? (· == colon) = some text.length := by
      have hnone : text.findIdx? (· == colon) = none := by
        rw [findIdx?_eq_none_iff]
        intro byte hmem
        exact beq_eq_false_iff_ne.2 fun heq => hplain (heq ▸ hmem)
      simp [findIdx?_append, hnone, findIdx?_cons]
    rw [declared, hdata, hindex]
    simp

lemma decodeFieldsStep_eq_some : decodeFieldsStep input pos = some (field, next) ↔
    ∃ start length, declared input pos = some (start, length) ∧
      field = (input.drop start).take length ∧ next = (start + length) % 2 ^ 64 ∧
      next ≤ input.length := by
  unfold decodeFieldsStep declared
  cases (input.drop pos).findIdx? (· == colon) with
  | none => simp
  | some i =>
    simp only [map_some, some.injEq, Prod.mk.injEq]
    constructor
    · intro h
      split_ifs at h with hstop
      obtain ⟨rfl, rfl⟩ := Prod.mk.inj (some.inj h)
      exact ⟨_, _, ⟨rfl, rfl⟩, rfl, rfl, Nat.not_lt.1 hstop⟩
    · rintro ⟨_, _, ⟨rfl, rfl⟩, rfl, rfl, hstop⟩
      rw [if_neg (Nat.not_lt.2 hstop)]

lemma nextPos_eq_some : nextPos input pos = some next ↔
    ∃ start length, declared input pos = some (start, length) ∧
      next = (start + length) % 2 ^ 64 ∧ next ≤ input.length := by
  constructor
  · intro h
    unfold nextPos at h
    split_ifs at h
    obtain ⟨⟨field, _⟩, hstep, rfl⟩ := map_eq_some_iff.1 h
    obtain ⟨start, length, hdeclared, -, hnext⟩ := decodeFieldsStep_eq_some.1 hstep
    exact ⟨start, length, hdeclared, hnext⟩
  · rintro ⟨start, length, hdeclared, hnext⟩
    obtain ⟨hpos, hstart, -⟩ := declared_bounds hdeclared
    rw [nextPos, if_pos (by omega),
      decodeFieldsStep_eq_some.2 ⟨start, length, hdeclared, rfl, hnext⟩]
    rfl

/-- The fields that the loop returns are those of its rounds. -/
lemma getElem?_decodeFieldsLoop {fuel : ℕ} {fields : List Bytes}
    (h : decodeFieldsLoop fuel input pos = some fields) (i : ℕ) :
    fields[i]? = (posFrom input pos i).bind fun p =>
      if p < input.length then (decodeFieldsStep input p).map Prod.fst else none := by
  induction fuel generalizing pos fields i with
  | zero => cases h
  | succ fuel ih =>
    rw [decodeFieldsLoop] at h
    split_ifs at h with hpos
    · split at h
      · cases h
      · rename_i field next hstep
        obtain ⟨rest, hrest, rfl⟩ := map_eq_some_iff.1 h
        cases i with
        | zero => simp [posFrom, hpos, hstep]
        | succ i => simp [posFrom, nextPos, hpos, hstep, ih hrest]
    · cases h
      cases i <;> simp [posFrom, nextPos, hpos]

/-- A loop that always moves forward ends. -/
lemma exists_posFrom_eq_none (h : ∀ rounds p q, posFrom input pos rounds = some p →
    nextPos input p = some q → p < q) : ∃ rounds, posFrom input pos rounds = none := by
  induction hleft : input.length + 1 - pos using Nat.strong_induction_on generalizing pos with
  | _ left ih =>
    cases hnext : nextPos input pos with
    | none => exact ⟨1, by simp [posFrom, hnext]⟩
    | some next =>
      have hlt := h 0 pos next rfl hnext
      obtain ⟨_, _, -, -, hle⟩ := nextPos_eq_some.1 hnext
      have hshift (rounds : ℕ) : posFrom input pos (rounds + 1) = posFrom input next rounds := by
        simp [posFrom, hnext]
      obtain ⟨rounds, hend⟩ := ih (input.length + 1 - next) (by omega)
        (fun rounds p q hp => h (rounds + 1) p q ((hshift rounds).trans hp)) rfl
      exact ⟨rounds + 1, (hshift rounds).trans hend⟩

/-- A loop that returns has come to the end of the input. -/
lemma posFrom_of_decodeFieldsLoop {fuel : ℕ} {fields : List Bytes}
    (h : decodeFieldsLoop fuel input pos = some fields) :
    ∃ last, posFrom input pos fields.length = some last ∧ input.length ≤ last := by
  induction fuel generalizing pos fields with
  | zero => cases h
  | succ fuel ih =>
    rw [decodeFieldsLoop] at h
    split_ifs at h with hpos
    · split at h
      · cases h
      · rename_i field next hstep
        obtain ⟨rest, hrest, rfl⟩ := map_eq_some_iff.1 h
        simpa [posFrom, nextPos, hpos, hstep] using ih hrest
    · cases h
      exact ⟨pos, rfl, Nat.not_lt.1 hpos⟩

lemma decodeFieldsLoop_of_posFrom {rounds last : ℕ} (h : posFrom input pos rounds = some last)
    (hend : input.length ≤ last) :
    ∃ fields, decodeFieldsLoop (rounds + 1) input pos = some fields := by
  induction rounds generalizing pos with
  | zero =>
    cases h
    exact ⟨[], by rw [decodeFieldsLoop, if_neg (Nat.not_lt.2 hend)]⟩
  | succ rounds ih =>
    obtain ⟨next, hnext, hlast⟩ := bind_eq_some_iff.1 h
    unfold nextPos at hnext
    split_ifs at hnext with hpos
    obtain ⟨⟨field, _⟩, hstep, rfl⟩ := map_eq_some_iff.1 hnext
    obtain ⟨fields, hfields⟩ := ih hlast
    exact ⟨field :: fields, by rw [decodeFieldsLoop, if_pos hpos, hstep]; simp [hfields]⟩

lemma posFrom_succ (rounds : ℕ) : posFrom input pos (rounds + 1) =
    (posFrom input pos rounds).bind (nextPos input) := by
  induction rounds generalizing pos with
  | zero => simp [posFrom]
  | succ rounds ih =>
    rw [posFrom, posFrom]
    cases nextPos input pos with
    | none => rfl
    | some next => exact ih

/-- The round that a length ends which wraps around. -/
def WrapsBefore (input : Bytes) (rounds : ℕ) : Prop :=
  ∃ earlier < rounds, ∃ pos, posFrom input 0 earlier = some pos ∧ wraps input pos = true

lemma LaidOut.le_length {wrapped : Bool} (h : LaidOut input pos wrapped) : pos ≤ input.length := by
  cases h with
  | start => exact Nat.zero_le _
  | field _ bytes | wraps _ bytes =>
    have hlength := congrArg List.length bytes
    simp only [length_drop, length_append, length_cons] at hlength
    omega

/-- What is laid out as fields is what the loop passes. -/
lemma LaidOut.posFrom {wrapped : Bool} (h : LaidOut input pos wrapped)
    (hsize : input.length < 2 ^ 63) : ∃ rounds, posFrom input 0 rounds = some pos ∧
      (wrapped = true → WrapsBefore input rounds) := by
  induction h with
  | start => exact ⟨0, rfl, by simp⟩
  | @field pos wrapped text value rest _ bytes plain size ih =>
    obtain ⟨rounds, hpos, hwraps⟩ := ih
    have hlength := congrArg List.length bytes
    simp only [length_drop, length_append, length_cons] at hlength
    refine ⟨rounds + 1, ?_, fun hwrapped => ?_⟩
    · rw [posFrom_succ, hpos]
      refine nextPos_eq_some.2 ⟨_, _, declared_eq_some.2 ⟨text, _, bytes, plain, rfl, rfl⟩, ?_, ?_⟩
      · rw [size, Nat.mod_eq_of_lt (by omega)]
      · omega
    · obtain ⟨earlier, hlt, hearlier⟩ := hwraps hwrapped
      exact ⟨earlier, by omega, hearlier⟩
  | @wraps pos wrapped head tail rest _ bytes plain part size ih =>
    obtain ⟨rounds, hpos, -⟩ := ih
    have hlength := congrArg List.length bytes
    simp only [length_drop, length_append, length_cons] at hlength
    have hdeclared := declared_eq_some.2 ⟨head ++ tail, rest, bytes, plain, rfl, rfl⟩
    refine ⟨rounds + 1, ?_, fun _ => ⟨rounds, by omega, pos, hpos, ?_⟩⟩
    · rw [posFrom_succ, hpos]
      refine nextPos_eq_some.2 ⟨_, _, hdeclared, ?_, by omega⟩
      rw [length_append]
      omega
    · rw [StrataKV.Mvcc.wraps, hdeclared]
      simp only [any_some, decide_eq_true_eq, length_append]
      omega

/-- One round from a position before which the bytes are laid out. -/
lemma WrapsHarmlessly.round (h : WrapsHarmlessly input) (hsize : input.length < 2 ^ 63)
    {wrapped : Bool} (hlaid : LaidOut input pos wrapped) (hnext : nextPos input pos = some next) :
    pos < next ∧ ∃ wrapped', LaidOut input next wrapped' ∧
      (wrapped = true ∨ wraps input pos = true → wrapped' = true) := by
  obtain ⟨start, length, hdeclared, rfl, hle⟩ := nextPos_eq_some.1 hnext
  obtain ⟨text, rest, hdata, hplain, rfl, rfl⟩ := declared_eq_some.1 hdeclared
  have hlength := congrArg List.length hdata
  simp only [length_drop, length_append, length_cons] at hlength
  have hvalue := (decodeTs text).toNat_lt
  by_cases hover : 2 ^ 64 ≤ pos + text.length + 1 + (decodeTs text).toNat
  · -- the text is passed over up to the byte where its end wraps around to
    have hforward := h.forward pos wrapped text rest hlaid hdata hplain hover
    obtain ⟨passed, hpassed⟩ := Nat.exists_eq_add_of_le hforward
    have hstop : (pos + text.length + 1 + (decodeTs text).toNat) % 2 ^ 64 = pos + (passed + 1) := by
      omega
    have hhead : (text.take (passed + 1)).length = passed + 1 := length_take_of_le (by omega)
    have hbytes : input.drop pos =
        text.take (passed + 1) ++ text.drop (passed + 1) ++ colon :: rest := by
      rw [take_append_drop, hdata]
    rw [hstop]
    refine ⟨by omega, true, ?_, fun _ => rfl⟩
    rw [← hhead]
    refine .wraps hlaid hbytes ?_ ?_ ?_
    · rwa [take_append_drop]
    · exact ne_nil_of_length_pos (by omega)
    · rw [take_append_drop, length_drop]
      omega
  · rw [Nat.mod_eq_of_lt (by omega)] at hle ⊢
    have hfield : (rest.take (decodeTs text).toNat).length = (decodeTs text).toNat :=
      length_take_of_le (by omega)
    have hbytes : input.drop pos = text ++ colon ::
        (rest.take (decodeTs text).toNat ++ rest.drop (decodeTs text).toNat) := by
      rw [take_append_drop, hdata]
    refine ⟨by omega, wrapped, ?_, fun hwraps => ?_⟩
    · rw [← hfield]
      exact .field hlaid hbytes hplain hfield.symm
    · rcases hwraps with hwrapped | hwraps
      · exact hwrapped
      · simp only [wraps, hdeclared, any_some, decide_eq_true_eq] at hwraps
        exact absurd hwraps hover

/-- What the loop passes is laid out as fields. -/
lemma WrapsHarmlessly.laidOut (h : WrapsHarmlessly input) (hsize : input.length < 2 ^ 63)
    {rounds : ℕ} (hpos : posFrom input 0 rounds = some pos) :
    ∃ wrapped, LaidOut input pos wrapped ∧ (WrapsBefore input rounds → wrapped = true) := by
  induction rounds generalizing pos with
  | zero =>
    cases hpos
    exact ⟨false, .start, by rintro ⟨_, hlt, -⟩; omega⟩
  | succ rounds ih =>
    rw [posFrom_succ] at hpos
    obtain ⟨last, hlast, hnext⟩ := bind_eq_some_iff.1 hpos
    obtain ⟨wrapped, hlaid, hbefore⟩ := ih hlast
    obtain ⟨-, wrapped', hlaid', hwraps⟩ := h.round hsize hlaid hnext
    refine ⟨wrapped', hlaid', ?_⟩
    rintro ⟨earlier, hlt, p, hp, hwrap⟩
    rcases Nat.lt_succ_iff_lt_or_eq.1 hlt with hearlier | rfl
    · exact hwraps (.inl (hbefore ⟨earlier, hearlier, p, hp, hwrap⟩))
    · rw [hlast] at hp
      cases hp
      exact hwraps (.inr hwrap)

/-- The field of a round that wraps around is shorter than declared. -/
lemma Decodes.not_wrapsBefore (h : Decodes input) (hsize : input.length < 2 ^ 63) {rounds : ℕ}
    (hend : posFrom input 0 rounds = some input.length) : ¬WrapsBefore input rounds := by
  rintro ⟨earlier, -, pos, hpos, hwraps⟩
  obtain ⟨fields, hloop⟩ := decodeFieldsLoop_of_posFrom hend le_rfl
  obtain ⟨⟨start, length⟩, hdeclared, hover⟩ := (any_eq_true _ _).1 hwraps
  have hover : 2 ^ 64 ≤ start + length := by simpa using hover
  obtain ⟨hlt, hstart, hlength⟩ := declared_bounds hdeclared
  have hfield : fields[earlier]? = some ((input.drop start).take length) := by
    rw [getElem?_decodeFieldsLoop hloop, hpos, bind_some, if_pos (by omega),
      decodeFieldsStep_eq_some.2 ⟨start, length, hdeclared, rfl, rfl, by omega⟩]
    rfl
  obtain ⟨_, _, _, hpos', hdeclared', -, hexact⟩ := h.exact _ fields hloop _ _ hfield
  rw [hpos] at hpos'
  cases hpos'
  rw [hdeclared] at hdeclared'
  cases hdeclared'
  rw [length_take, length_drop] at hexact
  omega

/-- `DecodeFields` ends, moves forward and is exact if and only if behind fields of their declared
lengths no length leads back, and an input in which a length wraps around does not end with a
field. -/
theorem decodes_iff_wrapsHarmlessly (input : Bytes) (hsize : input.length < maxSize) :
    Decodes input ↔ WrapsHarmlessly input := by
  have hsmall : input.length < 2 ^ 63 := hsize
  constructor
  · intro h
    refine ⟨fun pos wrapped text rest hlaid hdata hplain hover => ?_, fun hlaid => ?_⟩
    · obtain ⟨rounds, hpos, -⟩ := hlaid.posFrom hsmall
      have hdeclared := declared_eq_some.2 ⟨text, rest, hdata, hplain, rfl, rfl⟩
      obtain ⟨-, hstart, hlength⟩ := declared_bounds hdeclared
      have hnext := nextPos_eq_some.2 ⟨_, _, hdeclared, rfl, by omega⟩
      have hlt := h.advances rounds pos _ hpos hnext
      omega
    · obtain ⟨rounds, hpos, hwraps⟩ := hlaid.posFrom hsmall
      exact h.not_wrapsBefore hsmall hpos (hwraps rfl)
  · intro h
    have hadvances (rounds pos next : ℕ) (hpos : posFrom input 0 rounds = some pos)
        (hnext : nextPos input pos = some next) : pos < next := by
      obtain ⟨wrapped, hlaid, -⟩ := h.laidOut hsmall hpos
      exact (h.round hsmall hlaid hnext).1
    refine ⟨exists_posFrom_eq_none hadvances, hadvances, fun fuel fields hloop i field hfield => ?_⟩
    obtain ⟨hindex, -⟩ := List.getElem?_eq_some_iff.1 hfield
    rw [getElem?_decodeFieldsLoop hloop] at hfield
    obtain ⟨pos, hpos, hfield⟩ := bind_eq_some_iff.1 hfield
    split_ifs at hfield
    obtain ⟨⟨_, next⟩, hstep, rfl⟩ := map_eq_some_iff.1 hfield
    obtain ⟨start, length, hdeclared, rfl, hnext, hle⟩ := decodeFieldsStep_eq_some.1 hstep
    refine ⟨pos, start, length, hpos, hdeclared, rfl, ?_⟩
    have hfits : ¬2 ^ 64 ≤ start + length := by
      intro hover
      obtain ⟨last, hlast, hend⟩ := posFrom_of_decodeFieldsLoop hloop
      obtain ⟨wrapped, hlaid, hwraps⟩ := h.laidOut hsmall hlast
      have hwrapped := hwraps ⟨i, hindex, pos, hpos, by simpa [wraps, hdeclared] using hover⟩
      rw [hwrapped, Nat.le_antisymm hlaid.le_length hend] at hlaid
      exact h.refused hlaid
    rw [length_take, length_drop]
    omega

end

/-- The length wraps around to its own colon, which is taken for an empty field, and the last byte
is no field. -/
def wrappingField : Bytes := ascii "18446744073709551615:x"

theorem decodes_wrappingField : Decodes wrappingField := by
  have hend : wrappingField.length = 22 := by decide
  -- what is declared at each position, whether the loop comes there or not
  have hdeclared : ∀ pos < 22, ∀ field ∈ declared wrappingField pos, field.1 + field.2 ≠ 22 ∧
      (2 ^ 64 ≤ field.1 + field.2 → 2 ^ 64 ≤ field.1 - pos - 1 + field.2) := by decide +kernel
  refine (decodes_iff_wrapsHarmlessly _ (by decide)).2 ⟨?_, fun hlaid => ?_⟩
  · intro pos wrapped text rest hlaid hdata hplain hover
    have hlength := congrArg List.length hdata
    simp only [length_drop, length_append, length_cons, hend] at hlength
    have hfield := (hdeclared pos (by omega) _
      (declared_eq_some.2 ⟨text, rest, hdata, hplain, rfl, rfl⟩)).2 hover
    dsimp only at hfield
    omega
  · rw [hend] at hlaid
    generalize hlast : 22 = last at hlaid
    cases hlaid with
    | @field pos _ text value rest _ bytes plain size =>
      have hlength := congrArg List.length bytes
      simp only [length_drop, length_append, length_cons, hend] at hlength
      refine (hdeclared pos (by omega) _
        (declared_eq_some.2 ⟨text, _, bytes, plain, rfl, rfl⟩)).1 ?_
      rw [size, ← hlast]
    | wraps _ bytes =>
      have hlength := congrArg List.length bytes
      simp only [length_drop, length_append, length_cons, hend] at hlength
      omega

/-- The length leads from the byte after the colon back to the first byte. -/
theorem decodeFields_loops : ¬∀ input : Bytes, Decodes input := by
  intro h
  have hback : nextPos (ascii "18446744073709551595:") 0 = some 0 := by decide +kernel
  exact absurd ((h _).advances 0 0 0 rfl hback) (by decide)

end StrataKV.Mvcc
