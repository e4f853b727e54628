import StrataKV.Region.Records

/-!
# Split keys

A split goes through a key that the Region proposes itself (`ResolveSplitCandidate`), that travels in
an `AdminSplit` command beside a parent and a child descriptor (`ProposeAdminSplit`) and that every
replica cuts its range at (`ApplyAdminSplit`). None of the three looks whether the key lies inside
the range, and the last one does not look at the range of the child either.

For each of the two functions that compute something the module says for which inputs the cut is one:
two ranges that are not empty and that together are the old range.
-/

namespace StrataKV.Region

open Decimal Metadata Mvcc RegionPeer MvccStorage AdminSplitCommand

/-! ## Candidates -/

/-- `ResolveSplitCandidate`; the resolver is the one that may have been set. -/
def RegionPeer.resolveSplitCandidate (peer : RegionPeer)
    (splitCandidateResolver : Option (UInt64 → Bytes)) (generation : UInt64) : Bytes :=
  if generation = 0 then []
  else
    match splitCandidateResolver with
    | some resolver => resolver generation
    | none =>
      if peer.descriptor.startKey ≠ [] ∧ peer.descriptor.endKey ≠ [] then
        peer.descriptor.startKey ++ ascii "_split_" ++ toDecimal generation.toNat
      else if peer.descriptor.endKey ≠ [] then peer.descriptor.endKey.take 1
      else ascii "m"

variable (region : RegionMetadata)

/-- The key is strictly between the bounds of the Region. -/
def Inside (key : Bytes) : Prop :=
  region.startKey < key ∧ (region.endKey = [] ∨ key < region.endKey)

instance decidableInside (key : Bytes) : Decidable (Inside region key) :=
  inferInstanceAs (Decidable (_ ∧ (_ ∨ _)))

/-- What the fixed candidates need of the bounds. Without an upper bound the Region has to start
before `m`; without a lower bound the upper one needs a second byte; and an upper bound that starts
with the lower one has to go on behind `_split_<generation>`. -/
def CandidateFits (generation : UInt64) : Prop :=
  if region.endKey = [] then region.startKey < ascii "m"
  else if region.startKey = [] then 1 < region.endKey.length
  else ¬region.startKey <+: region.endKey ∨
    ascii "_split_" ++ toDecimal generation.toNat < region.endKey.drop region.startKey.length

instance decidableCandidateFits (generation : UInt64) :
    Decidable (CandidateFits region generation) := by
  unfold CandidateFits
  infer_instance

section

variable {b : Bytes}

/-- The first byte of a key is below the key if it is not all of it. -/
lemma take_one_lt_iff (hne : b ≠ []) : b.take 1 < b ↔ 1 < b.length := by
  obtain ⟨x, rest, rfl⟩ := List.exists_cons_of_ne_nil hne
  cases rest with
  | nil | cons y rest => simp

end

/-- A default candidate is a key inside the Region exactly if the bounds fit it. -/
theorem resolveSplitCandidate_usable_iff (peer : RegionPeer) {generation : UInt64}
    (hgeneration : 0 < generation) (hinside : ∃ key, Inside peer.descriptor key) :
    (peer.resolveSplitCandidate none generation = [] ∨
        Inside peer.descriptor (peer.resolveSplitCandidate none generation)) ↔
      CandidateFits peer.descriptor generation := by
  have hne : generation ≠ 0 := by
    rintro rfl
    exact absurd hgeneration (by decide)
  obtain ⟨key, hlow, hhigh⟩ := hinside
  unfold resolveSplitCandidate CandidateFits
  rw [if_neg hne]
  by_cases hend : peer.descriptor.endKey = []
  · rw [if_neg fun h => h.2 hend, if_neg fun h => h hend, if_pos hend]
    have hm : ascii "m" ≠ [] := by decide
    simp [Inside, hend, hm]
  · have hbounds : peer.descriptor.startKey < peer.descriptor.endKey :=
      List.lt_trans hlow (hhigh.resolve_left hend)
    by_cases hstart : peer.descriptor.startKey = []
    · rw [if_neg fun h => h.1 hstart, if_pos hend, if_neg hend, if_pos hstart]
      -- one byte of a key is a key
      have htake : peer.descriptor.endKey.take 1 ≠ [] := by simp [hend]
      have hpos : peer.descriptor.startKey < peer.descriptor.endKey.take 1 := by
        rw [hstart]
        exact @lt_append [] _ htake
      simp only [htake, Inside, hpos, hend, false_or, true_and]
      exact take_one_lt_iff hend
    · rw [if_pos ⟨hstart, hend⟩, if_neg hend, if_neg hstart, List.append_assoc]
      have hsplit : ascii "_split_" ++ toDecimal generation.toNat ≠ [] := by
        have : ascii "_split_" ≠ [] := by decide
        simp [this]
      have hpos : peer.descriptor.startKey < peer.descriptor.startKey ++
          (ascii "_split_" ++ toDecimal generation.toNat) := lt_append hsplit
      have hcandidate : peer.descriptor.startKey ++
          (ascii "_split_" ++ toDecimal generation.toNat) ≠ [] := by
        simp [hstart]
      simp only [hcandidate, Inside, hpos, hend, false_or, true_and]
      exact append_lt_iff hbounds

/-- The Region from `a` to `z`. -/
def letters : RegionPeer := .create 0 { regionId := 1, startKey := ascii "a", endKey := ascii "z" }

theorem resolveSplitCandidate_usable_letters :
    letters.resolveSplitCandidate none 7 = ascii "a_split_7" ∧
      Inside letters.descriptor (letters.resolveSplitCandidate none 7) := by
  have hinside : ∃ key, Inside letters.descriptor key := ⟨ascii "b", by decide⟩
  have hfits : CandidateFits letters.descriptor 7 := by decide
  have husable := (resolveSplitCandidate_usable_iff letters (by decide) hinside).2 hfits
  exact ⟨by decide, husable.resolve_left (by decide)⟩

/-- The Region from `n` on is proposed to be split before its first key. -/
theorem resolveSplitCandidate_outside :
    ¬∀ (peer : RegionPeer) (generation : UInt64), 0 < generation →
      (∃ key, Inside peer.descriptor key) → peer.resolveSplitCandidate none generation = [] ∨
          Inside peer.descriptor (peer.resolveSplitCandidate none generation) := by
  intro h
  have hinside : ∃ key, Inside { regionId := 1, startKey := ascii "n" } key := ⟨ascii "o", by decide⟩
  have husable := h (.create 0 { regionId := 1, startKey := ascii "n" }) 1 (by decide) hinside
  exact absurd husable (by decide)

/-- Nor does a bound of one byte fit, or one that goes on with a byte before the underscore. -/
example : ¬CandidateFits { endKey := ascii "m" } 1 ∧
    ¬CandidateFits { startKey := ascii "user", endKey := ascii "user/9" } 1 := by
  decide

/-! ## Commands -/

/-- `ProposeAdminSplit`: the entry handed to Raft. -/
def RegionPeer.proposeAdminSplit (isLeader : Bool) (split : AdminSplitCommand) (requestId : Int32) :
    Option Op :=
  if split.splitKey = [] then none
  else if !isLeader then none
  else some
    { operation := .adminSplit (some split)
      clientId := ascii "admin-split"
      requestId := requestId }

/-- The ranges of the parent after the split and of the child: they are not empty, meet at the split
key and are together the range of the parent before, whose version is advanced by one. -/
structure Divides (before after : RegionMetadata) (splitKey : Bytes) (child : RegionDescriptor) :
    Prop where
  parent_nonempty : ∃ key, MvccStorage.inRange after.startKey after.endKey key = true
  child_nonempty : ∃ key, MvccStorage.inRange child.startKey child.endKey key = true
  parent_end : after.endKey = splitKey
  child_start : child.startKey = splitKey
  covers : ∀ key, MvccStorage.inRange before.startKey before.endKey key = true ↔
    MvccStorage.inRange after.startKey after.endKey key = true ∨
      MvccStorage.inRange child.startKey child.endKey key = true
  version : after.epoch.version.toNat = before.epoch.version.toNat + 1

/-- Applying the command leaves the descriptor or divides its range. -/
def RegionPeer.SplitsCleanly (peer : RegionPeer) (command : AdminSplitCommand) : Prop :=
  ∀ status peer', peer.applyAdminSplit command = some (status, peer') →
    peer'.descriptor = peer.descriptor ∨
      Divides peer.descriptor peer'.descriptor command.splitKey command.child

/-- The split key is strictly inside the Region, and the child is the part from there on. -/
structure AdminSplitCommand.Consistent (command : AdminSplitCommand) (region : RegionMetadata) :
    Prop where
  inside : Inside region command.splitKey
  child_start : command.child.startKey = command.splitKey
  child_end : command.child.endKey = region.endKey

section

variable {peer : RegionPeer} {command : AdminSplitCommand}

lemma exists_inRange {low high : Bytes} :
    (∃ key, inRange low high key = true) ↔ high = [] ∨ low < high := by
  simp only [mem_inRange]
  constructor
  · rintro ⟨key, hlow, hhigh⟩
    refine hhigh.imp_right fun hlt => ?_
    exact Std.lt_of_le_of_lt (List.not_lt.1 hlow) hlt
  · intro h
    exact ⟨low, List.lt_irrefl low, h⟩

lemma startMaterializing_descriptor (peer : RegionPeer) (command : AdminSplitCommand) (phase : ℕ) :
    (peer.startMaterializing command phase).descriptor = peer.descriptor := by
  unfold startMaterializing
  split <;> rfl

lemma applyAdminSplit_descriptor_of_not_exactMatch {status : TxnStatus} {peer' : RegionPeer}
    (hmatch : command.exactMatch peer.descriptor = false)
    (h : peer.applyAdminSplit command = some (status, peer')) :
    peer'.descriptor = peer.descriptor := by
  unfold applyAdminSplit at h
  rw [hmatch] at h
  dsimp only at h
  split_ifs at h with hreject hcomplete hshrunk
  · cases h
    rfl
  · cases h
    rfl
  · cases h
    exact startMaterializing_descriptor _ _ _
  · simp [hshrunk] at hreject

/-- A version that cannot be advanced is the last one. -/
lemma add_one_le_iff (version : UInt64) : version + 1 ≤ version ↔ version.toNat + 1 = 2 ^ 64 := by
  have hlt := version.toNat_lt
  have hadd : (version + 1).toNat = (version.toNat + 1) % 2 ^ 64 := UInt64.toNat_add version 1
  rw [UInt64.le_iff_toNat_le, hadd]
  constructor
  · intro hle
    by_contra hne
    rw [Nat.mod_eq_of_lt (by omega)] at hle
    omega
  · intro heq
    simp [heq]

/-- A command for this very descriptor shrinks it, or ends the process at the last version. -/
lemma applyAdminSplit_of_exactMatch (hmatch : command.exactMatch peer.descriptor = true) :
    peer.descriptor.epoch.version.toNat + 1 = 2 ^ 64 ∧ peer.applyAdminSplit command = none ∨
      peer.descriptor.epoch.version.toNat + 1 ≠ 2 ^ 64 ∧ ∃ peer',
        peer.applyAdminSplit command = some (.ok, peer') ∧
        peer'.descriptor = command.shrunken peer.descriptor := by
  have hparent : peer.descriptor.regionId = command.parentRegion.regionId ∧
      peer.descriptor.epoch = command.parentRegion.epoch := by
    simp only [exactMatch, Bool.and_eq_true, decide_eq_true_eq] at hmatch
    exact ⟨hmatch.1.1.1, hmatch.1.1.2⟩
  have hfresh : command.alreadyShrunk peer.descriptor = false := by simp [alreadyShrunk, hparent.2]
  have hversion : (command.shrunken peer.descriptor).epoch.version ≤ peer.descriptor.epoch.version ↔
      peer.descriptor.epoch.version.toNat + 1 = 2 ^ 64 := by
    rw [← add_one_le_iff, hparent.2]
    rfl
  unfold applyAdminSplit
  simp only [hmatch, hfresh, Bool.not_true, Bool.false_and, Bool.false_eq_true, if_false]
  unfold updateDescriptorShrunk
  by_cases hlast : peer.descriptor.epoch.version.toNat + 1 = 2 ^ 64
  · rw [if_pos (.inr (hversion.2 hlast))]
    exact .inl ⟨hlast, rfl⟩
  · have hid : (command.shrunken peer.descriptor).regionId = peer.descriptor.regionId :=
      hparent.1.symm
    rw [if_neg]
    swap
    · rintro (hne | hle)
      · exact hne hid
      · exact hlast (hversion.1 hle)
    exact .inr ⟨hlast, _, rfl, startMaterializing_descriptor _ _ _⟩

/-- Two ranges that meet at a key end where the range ends that they cover. -/
lemma end_eq_of_covers {low mid high high' : Bytes} (hlow : low < mid)
    (hhigh : high' = [] ∨ mid < high') (hcovers : ∀ key, inRange low high key = true ↔
      inRange low mid key = true ∨ inRange mid high' key = true) : high' = high := by
  simp only [mem_inRange] at hcovers
  by_contra hne
  have hnil (key : Bytes) : ¬key < [] := List.not_lt_nil key
  have hmidne : mid ≠ [] := fun h => hnil low (h ▸ hlow)
  -- the ends differ at one of them, or at the place where the ranges meet
  have hmid := hcovers mid
  have hend := hcovers high
  have hend' := hcovers high'
  grind

/-- The shrunken parent and the child divide the range of the parent exactly if the command is
consistent with it. -/
lemma divides_shrunken_iff (hsplit : command.splitKey ≠ [])
    (hmatch : command.exactMatch peer.descriptor = true)
    (hversion : peer.descriptor.epoch.version.toNat + 1 ≠ 2 ^ 64) :
    Divides peer.descriptor (command.shrunken peer.descriptor) command.splitKey command.child ↔
      command.Consistent peer.descriptor := by
  simp only [exactMatch, Bool.and_eq_true, decide_eq_true_eq] at hmatch
  obtain ⟨⟨⟨-, hepoch⟩, hstart⟩, -⟩ := hmatch
  have hrange : (command.shrunken peer.descriptor).startKey = peer.descriptor.startKey ∧
      (command.shrunken peer.descriptor).endKey = command.splitKey := ⟨hstart.symm, rfl⟩
  constructor
  · rintro ⟨hparent, hchild, -, hmeet, hcovers, -⟩
    rw [hrange.1, hrange.2, exists_inRange] at hparent
    rw [hmeet, exists_inRange] at hchild
    rw [hrange.1, hrange.2, hmeet] at hcovers
    have hlow := hparent.resolve_left hsplit
    have hend := end_eq_of_covers hlow hchild hcovers
    exact ⟨⟨hlow, hend ▸ hchild⟩, hmeet, hend⟩
  · rintro ⟨⟨hlow, hhigh⟩, hmeet, hend⟩
    refine ⟨?_, ?_, rfl, hmeet, fun key => ?_, ?_⟩
    · rw [hrange.1, hrange.2, exists_inRange]
      exact .inr hlow
    · rw [hmeet, hend, exists_inRange]
      exact hhigh
    · rw [hrange.1, hrange.2, hmeet, hend]
      simp only [mem_inRange]
      grind
    · change (command.parentRegion.epoch.version + 1).toNat = _
      have hlt := peer.descriptor.epoch.version.toNat_lt
      rw [← hepoch, UInt64.toNat_add]
      exact Nat.mod_eq_of_lt (by simp only [UInt64.reduceToNat]; omega)

/-- An accepted split command is applied as a clean cut exactly if it was made for another
descriptor, the version of this one is the last, or the command is consistent with it. -/
theorem splitsCleanly_iff {isLeader : Bool} {requestId : Int32} {op : Op}
    (hproposed : RegionPeer.proposeAdminSplit isLeader command requestId = some op)
    (peer : RegionPeer) :
    peer.SplitsCleanly command ↔ command.exactMatch peer.descriptor = false ∨
      peer.descriptor.epoch.version.toNat + 1 = 2 ^ 64 ∨ command.Consistent peer.descriptor := by
  have hsplit : command.splitKey ≠ [] := by
    unfold proposeAdminSplit at hproposed
    split_ifs at hproposed with hempty
    exact hempty
  cases hmatch : command.exactMatch peer.descriptor with
  | false =>
    simp only [true_or, iff_true]
    intro status peer' happly
    exact .inl (applyAdminSplit_descriptor_of_not_exactMatch hmatch happly)
  | true =>
    simp only [Bool.true_eq_false, false_or]
    rcases applyAdminSplit_of_exactMatch hmatch with ⟨hlast, hnone⟩ | ⟨hlast, peer', happly, hshrunk⟩
    · simp only [hlast, true_or, iff_true]
      intro status peer' happly
      rw [hnone] at happly
      cases happly
    · rw [← divides_shrunken_iff hsplit hmatch hlast, ← hshrunk]
      simp only [hlast, false_or]
      constructor
      · intro h
        refine (h _ peer' happly).resolve_left fun hsame => ?_
        -- the descriptor has another version now
        have hepoch : peer.descriptor.epoch = command.parentRegion.epoch := by
          simp only [exactMatch, Bool.and_eq_true, decide_eq_true_eq] at hmatch
          exact hmatch.1.1.2
        have hversion := congrArg (fun region => region.epoch.version) (hshrunk.symm.trans hsame)
        change command.parentRegion.epoch.version + 1 = peer.descriptor.epoch.version at hversion
        rw [hepoch] at hversion
        simp at hversion
      · intro h status peer'' happly'
        rw [happly] at happly'
        cases happly'
        exact .inr h

end

/-- A split of the Region from `a` to `z`, with the child from the split key to `z`. -/
def splitLetters (splitKey : String) : AdminSplitCommand where
  splitKey := ascii splitKey
  metadataRevision := 2
  parent := { regionId := 1, startKey := ascii "a", endKey := ascii "z", epoch := ⟨1, 1⟩ }
  child := { regionId := 2, startKey := ascii splitKey, endKey := ascii "z", epoch := ⟨1, 1⟩ }

theorem splitsCleanly_letters : (splitLetters "m").exactMatch letters.descriptor = true ∧
      letters.SplitsCleanly (splitLetters "m") := by
  have hproposed : ∃ op, proposeAdminSplit true (splitLetters "m") 1 = some op := ⟨_, rfl⟩
  obtain ⟨op, hop⟩ := hproposed
  refine ⟨by decide, (splitsCleanly_iff hop letters).2 (.inr (.inr ⟨by decide, rfl, rfl⟩))⟩

/-- A split key behind the end of the Region gives its parent keys of other Regions. -/
theorem splitsCleanly_fails_outside :
    ¬∀ (isLeader : Bool) (command : AdminSplitCommand) (requestId : Int32) (op : Op),
      RegionPeer.proposeAdminSplit isLeader command requestId = some op →
        ∀ peer : RegionPeer, peer.SplitsCleanly command := by
  intro h
  have hclean := h true (splitLetters "zz") 1 _ rfl letters
  have happly : ∃ peer', letters.applyAdminSplit (splitLetters "zz") = some (.ok, peer') ∧
      peer'.descriptor = (splitLetters "zz").shrunken letters.descriptor := ⟨_, rfl, rfl⟩
  obtain ⟨peer', happly, hshrunk⟩ := happly
  rcases hclean _ peer' happly with hsame | hdivides
  · have := congrArg RegionMetadata.endKey (hshrunk.symm.trans hsame)
    exact absurd this (by decide)
  · rw [hshrunk] at hdivides
    have hcovers := (hdivides.covers (ascii "zy")).2 (.inl (by decide))
    exact absurd hcovers (by decide)

end StrataKV.Region
