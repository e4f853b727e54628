import StrataKV.Lib.LittleEndian

/-!
# The Raft state on disk

The binary format of `raft/raft.cpp`: `EncodePersistData` with the two parts of an incremental
append, and the branch of `readPersist` for strings that begin with the magic.

- `readPersist_encodePersistData` — what is encoded is read back, and a header and a tail behind an
  older encoding make the full one;
- `readPersist_whole_iff` — when a string is taken as a whole or not at all. `readPersist` assigns
  the members of the header before it looks at the log. The check of a command's size wraps around,
  but a size that gets past it is above that of the longest string, and `set_command` throws.
-/

namespace StrataKV.Raft

open LittleEndian List UInt64

/-- A `LogEntry` with the widths it has on disk. -/
structure StoredEntry where
  logTerm : Int32
  logIndex : Int32
  command : Bytes
deriving DecidableEq, Repr

/-- The members that `readPersist` restores. -/
structure StoredState where
  currentTerm : Int32
  votedFor : Int32
  lastSnapshotIncludeIndex : Int32
  lastSnapshotIncludeTerm : Int32
  logs : List StoredEntry
deriving DecidableEq, Repr

/-- `TTRF2` -/
def raftPersistMagic : Bytes := [84, 84, 82, 70, 50]

def appendInt32 (out : Bytes) (value : Int32) : Bytes := out ++ toBytes 4 value.toUInt32.toNat

def appendUint64 (out : Bytes) (value : UInt64) : Bytes := out ++ toBytes 8 value.toNat

/-- The body of the loops over the entries. -/
def appendItem (out : Bytes) (item : StoredEntry) : Bytes :=
  let out := appendInt32 out item.logTerm
  let out := appendInt32 out item.logIndex
  appendUint64 out (UInt64.ofNat item.command.length) ++ item.command

variable (s : StoredState)

def encodePersistData : Bytes :=
  let data := appendInt32 raftPersistMagic s.currentTerm
  let data := appendInt32 data s.votedFor
  let data := appendInt32 data s.lastSnapshotIncludeIndex
  let data := appendInt32 data s.lastSnapshotIncludeTerm
  s.logs.foldl appendItem (appendUint64 data (UInt64.ofNat s.logs.length))

def encodePersistHeader (logCount : UInt64) : Bytes :=
  let header := appendInt32 raftPersistMagic s.currentTerm
  let header := appendInt32 header s.votedFor
  let header := appendInt32 header s.lastSnapshotIncludeIndex
  let header := appendInt32 header s.lastSnapshotIncludeTerm
  appendUint64 header logCount

def encodePersistTail (logs : List StoredEntry) (startOffset : ℕ) : Bytes :=
  (logs.drop startOffset).foldl appendItem []

def raftPersistHeaderSize : ℕ := 29

def readInt32 (data : Bytes) : Option (Int32 × Bytes) :=
  (readUint 4 data).map fun (n, data) => ((UInt32.ofNat n).toInt32, data)

def readUint64 (data : Bytes) : Option (UInt64 × Bytes) :=
  (readUint 8 data).map fun (n, data) => (UInt64.ofNat n, data)

/-- Each member is assigned as soon as it is read; `data` is what follows the offset. -/
def readHeader (data : Bytes) : StoredState × Option (UInt64 × Bytes) :=
  match readInt32 data with
  | none => (s, none)
  | some (currentTerm, data) =>
    let s := { s with currentTerm := currentTerm }
    match readInt32 data with
    | none => (s, none)
    | some (votedFor, data) =>
      let s := { s with votedFor := votedFor }
      match readInt32 data with
      | none => (s, none)
      | some (snapshotIndex, data) =>
        let s := { s with lastSnapshotIncludeIndex := snapshotIndex }
        match readInt32 data with
        | none => (s, none)
        | some (snapshotTerm, data) =>
          ({ s with lastSnapshotIncludeTerm := snapshotTerm }, readUint64 data)

inductive ReadError
  | invalid
  /-- `set_command` throws `length_error`. -/
  | tooLong
deriving DecidableEq, Repr

/-- The loop over the entries of a string of the given size. The end of a command is computed with
64 bits; where that wraps around, the size is one that no string has. -/
def readEntries (size : ℕ) : ℕ → Bytes → Except ReadError (List StoredEntry)
  | 0, _ => .ok []
  | count + 1, data => do
    let some (logTerm, data) := readInt32 data | .error .invalid
    let some (logIndex, data) := readInt32 data | .error .invalid
    let some (commandSize, data) := readUint64 data | .error .invalid
    let offset := size - data.length
    if size < (offset + commandSize.toNat) % 2 ^ 64 then .error .invalid
    else if size < offset + commandSize.toNat then .error .tooLong
    else
      let logs ← readEntries size count (data.drop commandSize.toNat)
      .ok (⟨logTerm, logIndex, data.take commandSize.toNat⟩ :: logs)

/-- How `readPersist` ends, with the members as it leaves them. -/
inductive ReadResult
  | returned (s : StoredState)
  /-- `logs.reserve` or `set_command` has thrown. -/
  | thrown (s : StoredState)
deriving DecidableEq, Repr

/-- `readPersist` for a string with the magic; `reserve` says for which numbers of entries there is
memory. -/
def readPersist (reserve : UInt64 → Bool) (s : StoredState) (data : Bytes) : ReadResult :=
  match readHeader s (data.drop raftPersistMagic.length) with
  | (s, none) => .returned s
  | (s, some (logCount, rest)) =>
    if reserve logCount = false then .thrown s
    else
      match readEntries data.length logCount.toNat rest with
      | .ok logs => .returned { s with logs := logs }
      | .error .invalid => .returned s
      | .error .tooLong => .thrown s

/-! ## Where numbers and entries stand -/

variable {data rest : Bytes}

lemma readInt32_eq_some {v : Int32} :
    readInt32 data = some (v, rest) ↔ data = toBytes 4 v.toUInt32.toNat ++ rest := by
  constructor
  · intro h
    obtain ⟨⟨n, _⟩, hread, heq⟩ := Option.map_eq_some_iff.1 h
    obtain ⟨rfl, rfl⟩ := Prod.mk.inj heq
    obtain ⟨hn, hdata⟩ := readUint_eq_some.1 hread
    have hvalue : (UInt32.ofNat n).toInt32.toUInt32.toNat = n := by
      change (UInt32.ofNat n).toNat = n
      rw [UInt32.toNat_ofNat']
      exact Nat.mod_eq_of_lt hn
    rw [hvalue]
    exact hdata
  · rintro rfl
    rw [readInt32, readUint_eq_some.2 ⟨v.toUInt32.toNat_lt, rfl⟩]
    simp only [Option.map_some, UInt32.ofNat_toNat]
    rfl

lemma readUint64_eq_some {v : UInt64} :
    readUint64 data = some (v, rest) ↔ data = toBytes 8 v.toNat ++ rest := by
  constructor
  · intro h
    obtain ⟨⟨n, _⟩, hread, heq⟩ := Option.map_eq_some_iff.1 h
    obtain ⟨rfl, rfl⟩ := Prod.mk.inj heq
    obtain ⟨hn, hdata⟩ := readUint_eq_some.1 hread
    rw [toNat_ofNat', Nat.mod_eq_of_lt (by simpa using hn)]
    exact hdata
  · rintro rfl
    rw [readUint64, readUint_eq_some.2 ⟨v.toNat_lt, rfl⟩]
    simp only [Option.map_some, UInt64.ofNat_toNat]

@[simp] lemma readInt32_append (v : Int32) (rest : Bytes) :
    readInt32 (toBytes 4 v.toUInt32.toNat ++ rest) = some (v, rest) := readInt32_eq_some.2 rfl

@[simp] lemma readUint64_append (v : UInt64) (rest : Bytes) :
    readUint64 (toBytes 8 v.toNat ++ rest) = some (v, rest) := readUint64_eq_some.2 rfl

/-- What `appendItem` adds. -/
def itemBytes (item : StoredEntry) : Bytes :=
  toBytes 4 item.logTerm.toUInt32.toNat ++ (toBytes 4 item.logIndex.toUInt32.toNat ++
    (toBytes 8 (UInt64.ofNat item.command.length).toNat ++ item.command))

/-- What stands between the magic and the entries. -/
def headerBytes (logCount : UInt64) : Bytes :=
  toBytes 4 s.currentTerm.toUInt32.toNat ++ (toBytes 4 s.votedFor.toUInt32.toNat ++
    (toBytes 4 s.lastSnapshotIncludeIndex.toUInt32.toNat ++
      (toBytes 4 s.lastSnapshotIncludeTerm.toUInt32.toNat ++ toBytes 8 logCount.toNat)))

lemma foldl_appendItem (logs : List StoredEntry) (out : Bytes) :
    logs.foldl appendItem out = out ++ logs.flatMap itemBytes := by
  induction logs generalizing out with
  | nil => simp
  | cons item logs ih => simp [ih, appendItem, appendInt32, appendUint64, itemBytes]

lemma encodePersistHeader_eq (logCount : UInt64) :
    encodePersistHeader s logCount = raftPersistMagic ++ headerBytes s logCount := by
  simp [encodePersistHeader, appendInt32, appendUint64, headerBytes]

lemma encodePersistData_eq : encodePersistData s =
    raftPersistMagic ++ headerBytes s (ofNat s.logs.length) ++ s.logs.flatMap itemBytes := by
  rw [← encodePersistHeader_eq]
  exact foldl_appendItem s.logs _

lemma length_headerBytes (logCount : UInt64) : (headerBytes s logCount).length = 24 := by
  simp [headerBytes]

/-- A complete header is read exactly where its bytes stand. -/
lemma readHeader_eq_some {s s' : StoredState} {logCount : UInt64} :
    readHeader s data = (s', some (logCount, rest)) ↔
      s'.logs = s.logs ∧ data = headerBytes s' logCount ++ rest := by
  constructor
  · intro h
    unfold readHeader at h
    split at h
    · cases h
    rename_i hterm
    split at h
    · cases h
    rename_i hvote
    split at h
    · cases h
    rename_i hindex
    split at h
    · cases h
    rename_i hsnapshot
    obtain ⟨rfl, hcount⟩ := Prod.mk.inj h
    refine ⟨rfl, ?_⟩
    rw [readInt32_eq_some.1 hterm, readInt32_eq_some.1 hvote, readInt32_eq_some.1 hindex,
      readInt32_eq_some.1 hsnapshot, readUint64_eq_some.1 hcount]
    simp [headerBytes]
  · rintro ⟨hlogs, rfl⟩
    simp [readHeader, headerBytes, ← hlogs]

/-- One round of the loop takes the bytes of an entry. -/
lemma readEntries_succ_eq_ok {size count : ℕ} {data : Bytes} {logs : List StoredEntry}
    (hdata : data.length ≤ size) (hsize : size < 2 ^ 64) :
    readEntries size (count + 1) data = .ok logs ↔ ∃ item items rest, logs = item :: items ∧
      data = itemBytes item ++ rest ∧ readEntries size count rest = .ok items := by
  constructor
  · intro h
    rw [readEntries] at h
    split at h
    swap
    · cases h
    rename_i logTerm data₁ hterm
    split at h
    swap
    · cases h
    rename_i logIndex data₂ hindex
    split at h
    swap
    · cases h
    rename_i commandSize data₃ hcommand
    dsimp only at h
    split_ifs at h with hinvalid houtside
    have hbytes : data = toBytes 4 logTerm.toUInt32.toNat ++ (toBytes 4 logIndex.toUInt32.toNat ++
        (toBytes 8 commandSize.toNat ++ data₃)) := by
      rw [← readUint64_eq_some.1 hcommand, ← readInt32_eq_some.1 hindex,
        ← readInt32_eq_some.1 hterm]
    rw [hbytes] at hdata
    simp only [length_append, length_toBytes] at hdata
    -- the size passed the checks, so the command is as long as it says
    have hlength : (data₃.take commandSize.toNat).length = commandSize.toNat :=
      length_take_of_le (by omega)
    cases hrest : readEntries size count (data₃.drop commandSize.toNat) with
    | error e =>
      rw [hrest] at h
      cases h
    | ok items =>
      rw [hrest] at h
      cases h
      refine ⟨_, items, _, rfl, ?_, hrest⟩
      rw [hbytes, itemBytes, hlength, UInt64.ofNat_toNat]
      simp only [append_assoc, take_append_drop]
  · rintro ⟨item, items, rest, rfl, rfl, hitems⟩
    simp only [itemBytes, append_assoc, length_append, length_toBytes] at hdata
    have hlength : (ofNat item.command.length).toNat = item.command.length := by
      rw [toNat_ofNat', Nat.mod_eq_of_lt (by omega)]
    rw [readEntries]
    simp only [itemBytes, append_assoc, readInt32_append, readUint64_append]
    rw [hlength, drop_left, take_left, hitems, length_append, if_neg (by omega), if_neg (by omega)]
    rfl

/-- Entries are read exactly where their bytes stand. -/
lemma readEntries_eq_ok {size count : ℕ} {data : Bytes} {logs : List StoredEntry}
    (hdata : data.length ≤ size) (hsize : size < 2 ^ 64) : readEntries size count data = .ok logs ↔
      logs.length = count ∧ ∃ rest, data = logs.flatMap itemBytes ++ rest := by
  induction count generalizing data logs with
  | zero =>
    constructor
    · intro h
      cases h
      exact ⟨rfl, _, rfl⟩
    · rintro ⟨hlogs, -⟩
      rw [length_eq_zero_iff.1 hlogs]
      rfl
  | succ count ih =>
    rw [readEntries_succ_eq_ok hdata hsize]
    constructor
    · rintro ⟨item, items, rest, rfl, rfl, hitems⟩
      rw [length_append] at hdata
      obtain ⟨hcount, tail, rfl⟩ := (ih (by omega)).1 hitems
      exact ⟨by rw [length_cons, hcount], tail, by rw [flatMap_cons, append_assoc]⟩
    · rintro ⟨hcount, rest, rfl⟩
      obtain ⟨item, items, rfl⟩ := exists_cons_of_length_eq_add_one hcount
      rw [flatMap_cons, append_assoc, length_append] at hdata
      exact ⟨item, items, _, rfl, by rw [flatMap_cons, append_assoc],
        (ih (by omega)).2 ⟨Nat.succ.inj hcount, rest, rfl⟩⟩

/-! ## Whole states -/

variable {reserve : UInt64 → Bool} {s} {prev : StoredState} {data rest : Bytes}

/-- A string that holds a state is read as that state. -/
lemma readPersist_of_eq_append (hdata : data = encodePersistData s ++ rest)
    (hlength : data.length < 2 ^ 64) : readPersist reserve prev data =
      if reserve (ofNat s.logs.length) = false then .thrown { s with logs := prev.logs }
      else .returned s := by
  rw [encodePersistData_eq, append_assoc, append_assoc] at hdata
  have hsize := congrArg length hdata
  simp only [length_append] at hsize
  have hitems : s.logs.length ≤ (s.logs.flatMap itemBytes).length := by
    rw [length_flatMap, ← length_map (f := fun item => (itemBytes item).length)]
    refine length_le_sum_of_one_le _ fun size hsize => ?_
    obtain ⟨item, -, rfl⟩ := mem_map.1 hsize
    simp only [itemBytes, length_append, length_toBytes]
    omega
  have hcount : (ofNat s.logs.length).toNat = s.logs.length := by
    rw [toNat_ofNat', Nat.mod_eq_of_lt (by omega)]
  have hheader : readHeader prev (data.drop raftPersistMagic.length) =
      ({ s with logs := prev.logs },
        some (ofNat s.logs.length, s.logs.flatMap itemBytes ++ rest)) :=
    readHeader_eq_some.2 ⟨rfl, by rw [hdata, drop_left]; rfl⟩
  rw [readPersist, hheader]
  dsimp only
  rw [hcount, (readEntries_eq_ok (by rw [length_append]; omega) hlength).2 ⟨rfl, rest, rfl⟩]

/-- A string that is read to its end holds the state. -/
lemma readPersist_cases (hmagic : data.take raftPersistMagic.length = raftPersistMagic)
    (hlength : data.length < 2 ^ 64) :
    let header := (readHeader prev (data.drop raftPersistMagic.length)).1
    readPersist reserve prev data = .returned header ∨
      readPersist reserve prev data = .thrown header ∨
      ∃ s rest, readPersist reserve prev data = .returned s ∧ data = encodePersistData s ++ rest ∧
        reserve (ofNat s.logs.length) = true := by
  unfold readPersist
  rcases hheader : readHeader prev (data.drop raftPersistMagic.length) with
    ⟨s, _ | ⟨logCount, rest⟩⟩
  · exact .inl rfl
  dsimp only
  by_cases hreserve : reserve logCount = false
  · exact .inr (.inl (if_pos hreserve))
  rw [if_neg hreserve]
  obtain ⟨-, hdata⟩ := readHeader_eq_some.1 hheader
  have hrest := congrArg length hdata
  rw [length_drop, length_append] at hrest
  rcases hentries : readEntries data.length logCount.toNat rest with (_ | _) | logs
  · exact .inl rfl
  · exact .inr (.inl rfl)
  · obtain ⟨hcount, rest', rfl⟩ := (readEntries_eq_ok (by omega) hlength).1 hentries
    refine .inr (.inr ⟨_, rest', rfl, ?_, ?_⟩)
    · rw [encodePersistData_eq, hcount, UInt64.ofNat_toNat, append_assoc, append_assoc,
        ← take_append_drop raftPersistMagic.length data, hmagic, hdata]
      rfl
    · rw [hcount, UInt64.ofNat_toNat]
      simpa using hreserve

/-- What is encoded is read back, and the encoding of the first entries becomes the full one with a
new header and the encoding of the other entries. -/
theorem readPersist_encodePersistData (reserve : UInt64 → Bool) (prev s : StoredState) (n : ℕ)
    (hlength : (encodePersistData s).length < 2 ^ 64)
    (hreserve : reserve (UInt64.ofNat s.logs.length) = true) :
    readPersist reserve prev (encodePersistData s) = .returned s ∧
      encodePersistHeader s (UInt64.ofNat s.logs.length) ++
        (encodePersistData { s with logs := s.logs.take n }).drop raftPersistHeaderSize ++
        encodePersistTail s.logs n = encodePersistData s := by
  constructor
  · rw [readPersist_of_eq_append (append_nil _).symm hlength, hreserve]
    rfl
  · have hsize (s : StoredState) (logCount : UInt64) :
        (raftPersistMagic ++ headerBytes s logCount).length = raftPersistHeaderSize := by
      rw [length_append, length_headerBytes]
      rfl
    rw [encodePersistData_eq, encodePersistData_eq, drop_left' (hsize _ _),
      encodePersistHeader_eq, encodePersistTail, foldl_appendItem, nil_append,
      append_assoc, ← flatMap_append, take_append_drop]

def oneEntry : StoredState := ⟨3, 1, 0, 0, [⟨3, 1, [7, 8]⟩]⟩

def noEntry : StoredState := ⟨0, -1, 0, 0, []⟩

theorem readPersist_oneEntry :
    readPersist (fun _ => true) noEntry (encodePersistData oneEntry) = .returned oneEntry :=
  (readPersist_encodePersistData (fun _ => true) noEntry oneEntry 0 (by decide) rfl).1

/-- The string is taken as a whole, from its own bytes, or not at all. -/
def Whole (prev : StoredState) (data : Bytes) : ReadResult → Prop
  | .returned s => s = prev ∨ ∃ rest, data = encodePersistData s ++ rest
  | .thrown s => s = prev

/-- The bytes hold the numbers, as far as they go; a number that is cut off at the end counts for
nothing. -/
def HoldsNumbers : List Int32 → Bytes → Prop
  | [], _ => True
  | value :: values, data => data.length < 4 ∨
    data.take 4 = toBytes 4 value.toUInt32.toNat ∧ HoldsNumbers values (data.drop 4)

lemma holdsNumbers_cons {value : Int32} {values : List Int32} :
    HoldsNumbers (value :: values) data ↔
      ∀ read ∈ readInt32 data, read.1 = value ∧ HoldsNumbers values read.2 := by
  cases hread : readInt32 data with
  | none =>
    have hshort : data.length < 4 := by
      simpa [readInt32, readUint] using hread
    simp [HoldsNumbers, hshort]
  | some read =>
    obtain ⟨number, rest⟩ := read
    obtain rfl := readInt32_eq_some.1 hread
    have hnumber : toBytes 4 number.toUInt32.toNat = toBytes 4 value.toUInt32.toNat ↔
        number = value := by
      refine ⟨fun heq => ?_, fun heq => by rw [heq]⟩
      have hvalue := readInt32_append value rest
      rw [← heq, readInt32_append] at hvalue
      exact congrArg Prod.fst (Option.some.inj hvalue)
    simp [HoldsNumbers, hnumber]

/-- The members that are assigned keep their values exactly if the bytes hold them. -/
lemma readHeader_eq_self_iff : (readHeader prev data).1 = prev ↔
    HoldsNumbers [prev.currentTerm, prev.votedFor, prev.lastSnapshotIncludeIndex,
      prev.lastSnapshotIncludeTerm] data := by
  obtain ⟨term, vote, index, snapshotTerm, logs⟩ := prev
  simp only [holdsNumbers_cons]
  unfold readHeader
  -- one number more in each step, until one is cut off
  rcases readInt32 data with _ | ⟨term', data⟩
  · simp
  rcases hvote : readInt32 data with _ | ⟨vote', data⟩
  · simp [hvote]
  rcases hindex : readInt32 data with _ | ⟨index', data⟩
  · simp [hvote, hindex]
  rcases hsnapshot : readInt32 data with _ | ⟨snapshotTerm', data⟩
  · simp [hvote, hindex, hsnapshot]
  · simp [hvote, hindex, hsnapshot, HoldsNumbers]

/-- A string with the magic is taken as a whole or not at all if and only if it holds a state with
all its entries, for which there is memory, or the numbers of the header that it holds are those
that the members have already. -/
theorem readPersist_whole_iff (reserve : UInt64 → Bool) (prev : StoredState) (data : Bytes)
    (hmagic : data.take raftPersistMagic.length = raftPersistMagic)
    (hlength : data.length < 2 ^ 63) :
    Whole prev data (readPersist reserve prev data) ↔
      (∃ s rest, data = encodePersistData s ++ rest ∧ reserve (UInt64.ofNat s.logs.length) = true) ∨
      HoldsNumbers [prev.currentTerm, prev.votedFor, prev.lastSnapshotIncludeIndex,
        prev.lastSnapshotIncludeTerm] (data.drop raftPersistMagic.length) := by
  have hsize : data.length < 2 ^ 64 := hlength.trans (by norm_num)
  rw [← readHeader_eq_self_iff]
  constructor
  · intro h
    rcases readPersist_cases hmagic hsize with heq | heq | ⟨s, rest, -, hdata⟩
    · rw [heq] at h
      rcases h with hprev | ⟨rest, hdata⟩
      · exact .inr hprev
      · rw [readPersist_of_eq_append hdata hsize] at heq
        split_ifs at heq with hreserve
        exact .inl ⟨_, rest, hdata, by simpa using hreserve⟩
    · rw [heq] at h
      exact .inr h
    · exact .inl ⟨s, rest, hdata⟩
  · rintro (⟨s, rest, hdata, hreserve⟩ | hheader)
    · rw [readPersist_of_eq_append hdata hsize, hreserve]
      exact .inr ⟨rest, hdata⟩
    · rcases readPersist_cases hmagic hsize with heq | heq | ⟨s, rest, heq, hdata, -⟩
      · rw [heq]
        exact .inl hheader
      · rw [heq]
        exact hheader
      · rw [heq]
        exact .inr ⟨rest, hdata⟩

theorem whole_oneEntry : Whole noEntry (encodePersistData oneEntry)
    (readPersist (fun _ => true) noEntry (encodePersistData oneEntry)) :=
  (readPersist_whole_iff (fun _ => true) noEntry (encodePersistData oneEntry) (by decide)
    (by decide)).2 (.inl ⟨oneEntry, [], (append_nil _).symm, rfl⟩)

/-- The last byte of the log is missing: the term and the vote are taken, the log is not. -/
theorem not_whole_oneEntry_dropLast : ¬∀ (prev : StoredState) (data : Bytes),
    data.take raftPersistMagic.length = raftPersistMagic →
      Whole prev data (readPersist (fun _ => true) prev data) := by
  intro h
  have hread : readPersist (fun _ => true) noEntry (encodePersistData oneEntry).dropLast =
      .returned ⟨3, 1, 0, 0, []⟩ := by decide
  have hwhole := h noEntry (encodePersistData oneEntry).dropLast (by decide)
  rw [hread] at hwhole
  rcases hwhole with heq | ⟨rest, hdata⟩
  · exact absurd heq (by decide)
  · -- the string declares an entry, the state has none
    have hprefix : encodePersistData ⟨3, 1, 0, 0, []⟩ <+: (encodePersistData oneEntry).dropLast :=
      ⟨rest, hdata.symm⟩
    exact absurd hprefix (by decide)

end StrataKV.Raft
