import StrataKV.Metadata.Catalog
import StrataKV.Mvcc.Scan
import StrataKV.Region.Descriptor

/-!
# Range scans while Regions split

The coordinator asks its routing table once for the Regions of a range, clips the range to each of
them and scans one after another. A Region clips what it is asked for to the range it owns when the
request arrives, and answers `Ok` with less than it was asked for if it has shrunk. Nobody asks the
child of the split for the rest.

A scan is complete while no split falls inside a clip that is still to be answered.
-/

namespace StrataKV.Txn

open Metadata Mvcc Region
open MvccStorage (inRange)

/-! ## Routing and clipping -/

/-- The arguments of `Scan`. -/
structure ScanArgs where
  startKey : Bytes
  endKey : Bytes
  readTs : Ts
  limit : ℕ

/-- `RegionsInRange`: from the Region of the start key on, up to the end key. -/
def regionsInRange (table : List RegionMetadata) (startKey endKey : Bytes) : List RegionMetadata :=
  let first := if startKey = [] then table
    else table.dropWhile fun region => !region.contains startKey
  first.takeWhile fun region => endKey = [] || region.startKey < endKey

/-- The part of a range that one Region is asked for. -/
structure Clip where
  startKey : Bytes
  endKey : Bytes
  deriving DecidableEq

def Clip.contains (clip : Clip) (key : Bytes) : Bool := inRange clip.startKey clip.endKey key

/-- The end of a range that is cut at another end; an empty end is no end. -/
def cutEnd (endKey bound : Bytes) : Bytes :=
  if bound ≠ [] ∧ (endKey = [] ∨ bound < endKey) then bound else endKey

/-- The clip of a route, or `none` if it is empty. -/
def ScanArgs.clip (args : ScanArgs) (route : RegionMetadata) : Option Clip :=
  let clipStart := if args.startKey = [] ∨ args.startKey < route.startKey then route.startKey
    else args.startKey
  let clipEnd := cutEnd args.endKey route.endKey
  if clipEnd ≠ [] ∧ clipEnd ≤ clipStart then none else some ⟨clipStart, clipEnd⟩

def ScanArgs.clips (args : ScanArgs) (table : List RegionMetadata) : List Clip :=
  (regionsInRange table args.startKey args.endKey).filterMap args.clip

end Txn

namespace Region.RegionPeer

open Txn Mvcc

/-- The first half of `TxnScan`: the end of the range after the Region has clipped it, or `none` if
the start is not in the Region. -/
def clipScan (peer : RegionPeer) (startKey endKey : Bytes) : Option Bytes :=
  let startInside := if startKey = [] then decide (peer.regionStartKey = [])
    else peer.ownsKey startKey
  if startInside then some (cutEnd endKey peer.regionEndKey) else none

/-- The second half of `TxnScan`, after the read barrier. -/
def readScan (peer : RegionPeer) (startKey endKey : Bytes) (readTs : Ts) (limit : ℕ) :
    TxnStatus × List (Bytes × Bytes) :=
  if endKey ≠ [] ∧ endKey ≤ startKey then (.ok, [])
  else peer.storage.scan startKey endKey readTs limit []

end Region.RegionPeer

namespace Txn

open Region Metadata Mvcc
open MvccStorage (inRange)

/-! ## A scan and the Regions under it -/

/-- The serving peers and the coordinator: the clips it has not got an answer for, the entries so
far, the peer that works on the first clip with the end it has clipped to, and what `Scan`
returned. -/
structure RangeScan where
  peers : List RegionPeer
  todo : List Clip
  entries : List (Bytes × Bytes) := []
  call : Option (ℕ × Bytes) := none
  status : Option TxnStatus := none

inductive ScanEvent
  /-- a peer applies an `AdminSplit`, and the child serves from then on -/
  | split (place : ℕ) (command : AdminSplitCommand) (child : RegionPeer)
  /-- the background thread of a split deletes what the peer does not own any more -/
  | cleanup (place : ℕ) (storage : MvccStorage)
  /-- a request for the next clip arrives -/
  | arrive (place : ℕ)
  /-- the peer reads its storage and the answer reaches the coordinator -/
  | answer
  /-- the request or its answer is lost, and the sender tries again -/
  | retry
  /-- the sender gives up -/
  | fail (status : TxnStatus)
  /-- the loop of the coordinator ends -/
  | finish

/-- A storage reads a key as another one does. -/
def SameRead (key : Bytes) (σ τ : MvccStorage) : Prop :=
  ∀ readTs, τ.get key readTs = σ.get key readTs

/-- A peer accepts a split at a key inside its range, and the child has the upper part of its range
and its data. -/
structure Handover (peer : RegionPeer) (command : AdminSplitCommand) (child : RegionPeer) : Prop
    where
  accepted : ∃ shrunk, peer.applyAdminSplit command = some (.ok, shrunk)
  made : command.exactMatch peer.descriptor = true
  above : peer.regionStartKey < command.splitKey
  below : peer.regionEndKey = [] ∨ command.splitKey < peer.regionEndKey
  childStart : child.regionStartKey = command.splitKey
  childEnd : child.regionEndKey = peer.regionEndKey
  data : ∀ key, child.ownsKey key = true → SameRead key peer.storage child.storage

namespace RangeScan

/-- The state after the routing step. -/
def start (peers : List RegionPeer) (args : ScanArgs) : RangeScan where
  peers := peers
  todo := args.clips (peers.map RegionPeer.descriptor)
  status := if args.endKey ≠ [] ∧ args.endKey ≤ args.startKey then some .storageError else none

/-- The loop has not got its limit yet. -/
def Wants (s : RangeScan) (args : ScanArgs) : Prop := args.limit = 0 ∨ s.entries.length < args.limit

instance decidableWants (s : RangeScan) (args : ScanArgs) : Decidable (s.Wants args) :=
  inferInstanceAs (Decidable (_ ∨ _))

/-- The limit of the next request, a `uint32`. -/
def remaining (s : RangeScan) (args : ScanArgs) : ℕ :=
  (if args.limit = 0 then 0 else args.limit - s.entries.length) % 2 ^ 32

def Enabled (args : ScanArgs) (s : RangeScan) : ScanEvent → Prop
  | .split place command child => ∃ peer, s.peers[place]? = some peer ∧ Handover peer command child
  | .cleanup place storage => ∃ peer, s.peers[place]? = some peer ∧
      ∀ key, peer.ownsKey key = true → SameRead key peer.storage storage
  | .arrive place => s.status = none ∧ s.call = none ∧ s.Wants args ∧
      ∃ clip rest peer endKey, s.todo = clip :: rest ∧ s.peers[place]? = some peer ∧
        peer.clipScan clip.startKey clip.endKey = some endKey
  | .answer => s.status = none ∧ s.call.isSome
  | .retry => s.status = none ∧ s.call.isSome
  | .fail status => s.status = none ∧ status ≠ .ok
  | .finish => s.status = none ∧ s.call = none ∧ (s.todo = [] ∨ ¬s.Wants args)

/-- What the coordinator does with the answer to its first clip. -/
def take (s : RangeScan) (rest : List Clip) (answer : TxnStatus × List (Bytes × Bytes)) :
    RangeScan :=
  if answer.1 = .ok then { s with entries := s.entries ++ answer.2, todo := rest, call := none }
  else { s with status := some answer.1, call := none }

def next (args : ScanArgs) (s : RangeScan) : ScanEvent → RangeScan
  | .split place command child =>
    match s.peers[place]?.bind fun peer => peer.applyAdminSplit command with
    | some (_, shrunk) => { s with peers := s.peers.set place shrunk ++ [child] }
    | none => s
  | .cleanup place storage =>
    match s.peers[place]? with
    | some peer => { s with peers := s.peers.set place (peer.withStorage storage) }
    | none => s
  | .arrive place =>
    match s.todo, s.peers[place]? with
    | clip :: _, some peer =>
      { s with call := (peer.clipScan clip.startKey clip.endKey).map fun endKey => (place, endKey) }
    | _, _ => s
  | .answer =>
    match s.call, s.todo with
    | some (place, endKey), clip :: rest =>
      match s.peers[place]? with
      | some peer => s.take rest (peer.readScan clip.startKey endKey args.readTs (s.remaining args))
      | none => s
    | _, _ => s
  | .retry => { s with call := none }
  | .fail status => { s with status := some status, call := none }
  | .finish => { s with status := some .ok }

end RangeScan

/-- The runs of one scan, from its routing step on. -/
def scanSystem (peers : List RegionPeer) (args : ScanArgs) : TransitionSystem RangeScan ScanEvent :=
  .ofEnabled (RangeScan.start peers args) (RangeScan.Enabled args) (RangeScan.next args)

/-! ## Completeness -/

/-- Peers whose ranges tile the key space, in the order of the routing table. -/
structure Serving where
  peers : List RegionPeer
  tiles : Range.Tiles RegionMetadata.range [] none (peers.map RegionPeer.descriptor)
  owned : ∀ peer ∈ peers, peer.regionStartKey = peer.descriptor.startKey ∧
    peer.regionEndKey = peer.descriptor.endKey

/-- The storage that a key is in. -/
def Serving.storageOf (serving : Serving) (key : Bytes) : MvccStorage :=
  ((serving.peers.find? fun peer => peer.ownsKey key).map RegionPeer.storage).getD {}

/-- All keys of the range that are read at the snapshot, once each and in order. -/
structure Complete (serving : Serving) (args : ScanArgs) (entries : List (Bytes × Bytes)) : Prop
    where
  ascending : (entries.map Prod.fst).Pairwise (· < ·)
  mem_iff : ∀ key value, (key, value) ∈ entries ↔ inRange args.startKey args.endKey key = true ∧
      (serving.storageOf key).get key args.readTs = (.ok, some value)

/-- The key falls inside the clip. -/
def Clip.CutBy (clip : Clip) (key : Bytes) : Prop :=
  clip.startKey < key ∧ (clip.endKey = [] ∨ key < clip.endKey)

instance Clip.decidableCutBy (clip : Clip) (key : Bytes) : Decidable (clip.CutBy key) :=
  inferInstanceAs (Decidable (_ ∧ _))

/-- No split falls inside a clip that is still to be answered, or below the range that its peer is
working on. -/
def SplitsAside (s : RangeScan) : ScanEvent → Prop
  | .split place command _ => (∀ clip ∈ s.todo, ¬clip.CutBy command.splitKey) ∧
      ∀ endKey, s.call = some (place, endKey) → endKey ≠ [] ∧ endKey ≤ command.splitKey
  | _ => True

/-! ## Ranges and their ends -/

variable {endKey key : Bytes}

lemma inRange_iff {startKey : Bytes} :
    inRange startKey endKey key = true ↔ startKey ≤ key ∧ (endKey = [] ∨ key < endKey) := by
  simp [MvccStorage.inRange]

lemma ownsKey_iff {peer : RegionPeer} : peer.ownsKey key = true ↔
      peer.regionStartKey ≤ key ∧ (peer.regionEndKey = [] ∨ key < peer.regionEndKey) := by
  simp [RegionPeer.ownsKey]

/-- The first end is not above the second one. -/
def EndLe (endKey bound : Bytes) : Prop := bound = [] ∨ endKey ≠ [] ∧ endKey ≤ bound

lemma cutEnd_of_endLe {bound : Bytes} (h : EndLe endKey bound) : cutEnd endKey bound = endKey := by
  unfold cutEnd
  rw [if_neg]
  rintro ⟨hbound, hend⟩
  rcases h with h | ⟨hne, hle⟩
  · exact hbound h
  · rcases hend with hend | hend
    · exact hne hend
    · grind

/-- A key is below a cut end if it is below both ends. -/
lemma below_cutEnd {bound : Bytes} : (cutEnd endKey bound = [] ∨ key < cutEnd endKey bound) ↔
      (endKey = [] ∨ key < endKey) ∧ (bound = [] ∨ key < bound) := by
  unfold cutEnd
  split_ifs with h
  · grind
  · grind

/-! ## The clips of a scan -/

variable {region : RegionMetadata}

lemma region_contains_iff : region.contains key = true ↔
      region.startKey ≤ key ∧ (region.endKey = [] ∨ key < region.endKey) := by
  simp [RegionMetadata.contains]

section

variable {args : ScanArgs} {table : List RegionMetadata}

/-- What a clip has: the keys of the range that are in the Region, its own start among them. -/
structure ClipOf (args : ScanArgs) (route : RegionMetadata) (clip : Clip) : Prop where
  contains_iff : ∀ key, clip.contains key = true ↔
    inRange args.startKey args.endKey key = true ∧ route.contains key = true
  nonempty : clip.contains clip.startKey = true
  endLe : EndLe clip.endKey route.endKey

variable {route : RegionMetadata} {key : Bytes}

/-- The start of a clip is the later one of the two starts. -/
lemma clipStart_le_iff : (if args.startKey = [] ∨ args.startKey < route.startKey then route.startKey
      else args.startKey) ≤ key ↔ args.startKey ≤ key ∧ route.startKey ≤ key := by
  have hnil : [] ≤ key := by simp
  split_ifs with h
  · grind
  · grind

/-- A clip has the keys of the range that are in the Region. -/
lemma inRange_clip_iff :
    inRange (if args.startKey = [] ∨ args.startKey < route.startKey then route.startKey
        else args.startKey) (cutEnd args.endKey route.endKey) key = true ↔
      inRange args.startKey args.endKey key = true ∧ route.contains key = true := by
  rw [inRange_iff, inRange_iff, clipStart_le_iff, below_cutEnd, region_contains_iff]
  tauto

lemma clipOf_of_clip {clip : Clip} (h : args.clip route = some clip) : ClipOf args route clip := by
  unfold ScanArgs.clip at h
  rw [Option.ite_none_left_eq_some] at h
  obtain ⟨hne, hclip⟩ := h
  cases hclip
  refine ⟨fun key => inRange_clip_iff, ?_, ?_⟩
  · refine inRange_iff.2 ⟨Std.le_refl _, ?_⟩
    grind
  · unfold EndLe cutEnd
    split_ifs <;> grind

/-- A key of the range in a Region is in the clip of the Region. -/
lemma exists_clip_of_contains (hrange : inRange args.startKey args.endKey key = true)
    (hroute : route.contains key = true) :
    ∃ clip, args.clip route = some clip ∧ clip.contains key = true := by
  have hkey := inRange_clip_iff.2 ⟨hrange, hroute⟩
  refine ⟨_, if_neg ?_, hkey⟩
  rintro ⟨hne, hle⟩
  have hbetween := inRange_iff.1 hkey
  grind

section

variable (htiles : Range.Tiles RegionMetadata.range [] none table)

include htiles

lemma table_pairwise : table.Pairwise fun a b => a.endKey ≠ [] ∧ a.endKey ≤ b.startKey := by
  refine htiles.pairwise_hi.imp ?_
  rintro a b ⟨mid, hmid, hle⟩
  have hend : a.endKey ≠ [] := by
    intro hnil
    simp [RegionMetadata.range, hnil] at hmid
  rw [RegionMetadata.range, if_neg hend] at hmid
  cases hmid
  exact ⟨hend, hle⟩

omit htiles in
lemma first_sublist (startKey : Bytes) : (if startKey = [] then table
      else table.dropWhile fun region => !region.contains startKey).Sublist table := by
  split_ifs
  · exact List.Sublist.refl _
  · exact List.dropWhile_sublist _

omit htiles in
lemma regionsInRange_sublist (startKey endKey : Bytes) :
    (regionsInRange table startKey endKey).Sublist table :=
  (List.takeWhile_sublist _).trans (first_sublist startKey)

lemma mem_regionsInRange (hregion : region ∈ table) {startKey endKey : Bytes}
    (hrange : inRange startKey endKey key = true) (hcontains : region.contains key = true) :
    region ∈ regionsInRange table startKey endKey := by
  obtain ⟨hstart, hend⟩ := inRange_iff.1 hrange
  obtain ⟨hlow, hhigh⟩ := region_contains_iff.1 hcontains
  have hsorted : table.Pairwise fun a b => a.startKey < b.startKey := htiles.pairwise_lo
  unfold regionsInRange
  refine mem_takeWhile_of_pairwise (hsorted.sublist (first_sublist startKey)) ?_ ?_ ?_
  · -- the Region does not come before the one of the start key
    split_ifs with hnil
    · exact hregion
    · obtain ⟨owner, ⟨howner, hownerRange⟩, -⟩ :=
        htiles.existsUnique (k := startKey) (by simp) (by simp)
      have hownerKey := RegionMetadata.contains_iff.2 hownerRange
      refine mem_dropWhile_of_pairwise (table_pairwise htiles) hregion howner
        (by simp [hownerKey]) ?_
      rintro ⟨hne, hle⟩
      have hownerStart := (region_contains_iff.1 hownerKey).1
      grind
  · simp only [Bool.or_eq_true, decide_eq_true_eq]
    grind
  · intro other hother
    simp only [Bool.or_eq_true, decide_eq_true_eq]
    grind

lemma exists_clip (hrange : inRange args.startKey args.endKey key = true) :
    ∃ clip ∈ args.clips table, clip.contains key = true := by
  obtain ⟨region, ⟨hregion, hcontains⟩, -⟩ := htiles.existsUnique (k := key) (by simp) (by simp)
  have hcontains := RegionMetadata.contains_iff.2 hcontains
  obtain ⟨clip, hclip, hkey⟩ := exists_clip_of_contains hrange hcontains
  exact ⟨clip, List.mem_filterMap.2
    ⟨region, mem_regionsInRange htiles hregion hrange hcontains, hclip⟩, hkey⟩

omit htiles in
lemma clipOf_of_mem {clip : Clip} (h : clip ∈ args.clips table) :
    ∃ route ∈ table, ClipOf args route clip := by
  obtain ⟨route, hroute, hclip⟩ := List.mem_filterMap.1 h
  exact ⟨route, (regionsInRange_sublist _ _).subset hroute, clipOf_of_clip hclip⟩

lemma clips_pairwise :
    (args.clips table).Pairwise fun a b => a.endKey ≠ [] ∧ a.endKey ≤ b.startKey := by
  rw [ScanArgs.clips, List.pairwise_filterMap]
  refine ((table_pairwise htiles).sublist (regionsInRange_sublist _ _)).imp ?_
  rintro a b ⟨hne, hle⟩ clip hclip clip' hclip'
  have hfirst := (clipOf_of_clip hclip).endLe
  have hsecond := clipOf_of_clip hclip'
  have hstart := (region_contains_iff.1 ((hsecond.contains_iff _).1 hsecond.nonempty).2).1
  unfold EndLe at hfirst
  grind

end

end

/-! ## The invariant -/

section

variable {serving : Serving} {peer : RegionPeer} {key : Bytes}

section

variable (hpeer : peer ∈ serving.peers)

include hpeer

lemma Serving.contains_iff : peer.ownsKey key = true ↔ peer.descriptor.contains key = true := by
  obtain ⟨hstart, hend⟩ := serving.owned peer hpeer
  rw [ownsKey_iff, region_contains_iff, hstart, hend]

lemma Serving.owner_unique (hkey : peer.ownsKey key = true)
    {other : RegionPeer} (hother : other ∈ serving.peers) (hkey' : other.ownsKey key = true) :
    other = peer := by
  by_contra hne
  have hdisjoint := List.pairwise_map.1 serving.tiles.pairwise
  have hsymm : Std.Symm fun a b : RegionPeer =>
      ∀ k, ¬(a.descriptor.range.Contains k ∧ b.descriptor.range.Contains k) :=
    ⟨fun _ _ h k hk => h k hk.symm⟩
  refine hdisjoint.forall hother hpeer hne key ⟨?_, ?_⟩
  · exact RegionMetadata.contains_iff.1 ((Serving.contains_iff hother).1 hkey')
  · exact RegionMetadata.contains_iff.1 ((Serving.contains_iff hpeer).1 hkey)

lemma Serving.storageOf_eq (hkey : peer.ownsKey key = true) :
    serving.storageOf key = peer.storage := by
  unfold Serving.storageOf
  cases hfind : serving.peers.find? fun peer => peer.ownsKey key with
  | none => exact absurd hkey (List.find?_eq_none.1 hfind peer hpeer)
  | some other =>
    have hmem := List.mem_of_find?_eq_some hfind
    rw [Serving.owner_unique hpeer hkey hmem (by simpa using List.find?_some hfind)]
    rfl

end

end

/-- The entries so far are those of the range outside the clips that are left. -/
structure Collected (serving : Serving) (args : ScanArgs) (todo : List Clip)
    (entries : List (Bytes × Bytes)) : Prop where
  ascending : (entries.map Prod.fst).Pairwise (· < ·)
  mem_iff : ∀ key value, (key, value) ∈ entries ↔ (inRange args.startKey args.endKey key = true ∧
      (serving.storageOf key).get key args.readTs = (.ok, some value)) ∧
      ∀ clip ∈ todo, clip.contains key = false
  before : ∀ key ∈ entries.map Prod.fst, ∀ clip ∈ todo, key < clip.startKey

structure ScanInv (serving : Serving) (args : ScanArgs) (s : RangeScan) : Prop where
  /-- every peer has the data of its range -/
  data : ∀ peer ∈ s.peers, ∀ key, peer.ownsKey key = true →
    SameRead key (serving.storageOf key) peer.storage
  /-- a peer that owns the start of a clip owns all of it -/
  covers : ∀ clip ∈ s.todo, ∀ peer ∈ s.peers, peer.ownsKey clip.startKey = true →
    EndLe clip.endKey peer.regionEndKey
  /-- the peer that works on a clip owns it -/
  call : ∀ place endKey, s.call = some (place, endKey) → ∃ clip rest peer, s.todo = clip :: rest ∧
    s.peers[place]? = some peer ∧ peer.ownsKey clip.startKey = true ∧ endKey = clip.endKey
  ordered : s.todo.Pairwise fun a b => a.endKey ≠ [] ∧ a.endKey ≤ b.startKey
  clips : ∀ clip ∈ s.todo, clip.contains clip.startKey = true ∧
    ∀ key, clip.contains key = true → inRange args.startKey args.endKey key = true
  collected : s.Wants args → Collected serving args s.todo s.entries
  finished : s.status = some .ok → s.todo = [] ∨ ¬s.Wants args

variable {command : AdminSplitCommand} {result : TxnStatus}

/-- What an accepted split leaves of the parent. -/
lemma Handover.shrunk {peer child shrunk : RegionPeer} (h : Handover peer command child)
    (happly : peer.applyAdminSplit command = some (result, shrunk)) :
    shrunk.regionStartKey = peer.regionStartKey ∧ shrunk.regionEndKey = command.splitKey ∧
      shrunk.storage = peer.storage := by
  have hview : shrunk.view = peer.view.splitBy command :=
    congrArg RegionState.view (applyAdminSplit_region happly)
  have hmade := h.made
  simp only [AdminSplitCommand.exactMatch, Bool.and_eq_true, decide_eq_true_eq] at hmade
  rw [RegionView.splitBy, if_pos ⟨hmade.1.1.1, hmade.1.1.2, hmade.1.2, hmade.2⟩] at hview
  obtain ⟨_, _, _, _, heq⟩ := RegionPeer.applyAdminSplit_eq happly
  refine ⟨congrArg RegionView.ownedStart hview, congrArg RegionView.ownedEnd hview, ?_⟩
  rw [heq]

namespace ScanInv

variable {serving : Serving} {args : ScanArgs} {s : RangeScan}

lemma start : ScanInv serving args (RangeScan.start serving.peers args) where
  data := by
    intro peer hpeer key hkey readTs
    rw [Serving.storageOf_eq hpeer hkey]
  covers := by
    intro clip hclip peer hpeer hkey
    obtain ⟨route, hroute, hof⟩ := clipOf_of_mem hclip
    obtain ⟨owner, howner, rfl⟩ := List.mem_map.1 hroute
    have hcontains := ((hof.contains_iff _).1 hof.nonempty).2
    have hsame := Serving.owner_unique howner ((Serving.contains_iff howner).2 hcontains) hpeer hkey
    rw [hsame, (serving.owned owner howner).2]
    exact hof.endLe
  call := by
    intro place endKey hcall
    cases hcall
  ordered := clips_pairwise serving.tiles
  clips := by
    intro clip hclip
    obtain ⟨route, -, hof⟩ := clipOf_of_mem hclip
    exact ⟨hof.nonempty, fun key hkey => ((hof.contains_iff key).1 hkey).1⟩
  collected := by
    intro _
    refine ⟨List.Pairwise.nil, ?_, by simp [RangeScan.start]⟩
    intro key value
    constructor
    · intro hmem
      cases hmem
    · rintro ⟨⟨hrange, -⟩, hout⟩
      obtain ⟨clip, hclip, hkey⟩ := exists_clip serving.tiles hrange
      rw [hout clip hclip] at hkey
      cases hkey
  finished := by
    intro hstatus
    unfold RangeScan.start at hstatus
    split_ifs at hstatus
    cases hstatus

variable {place : ℕ} {peer : RegionPeer}

section

variable (h : ScanInv serving args s)

include h

section

variable (hpeer : s.peers[place]? = some peer)

include hpeer

/-- A peer gives way to others that own parts of its range with its data. -/
lemma replaced {kept : RegionPeer} {added : List RegionPeer}
    (hdata : ∀ q ∈ kept :: added, ∀ key, q.ownsKey key = true →
      peer.ownsKey key = true ∧ SameRead key peer.storage q.storage)
    (hcovers : ∀ clip ∈ s.todo, ∀ q ∈ kept :: added, q.ownsKey clip.startKey = true →
      EndLe clip.endKey q.regionEndKey)
    (hcall : ∀ clip ∈ s.todo, s.call = some (place, clip.endKey) →
      peer.ownsKey clip.startKey = true → kept.ownsKey clip.startKey = true) :
    ScanInv serving args { s with peers := s.peers.set place kept ++ added } := by
  have hcases {q : RegionPeer} (hq : q ∈ s.peers.set place kept ++ added) :
      q ∈ s.peers ∨ q ∈ kept :: added := by
    rcases List.mem_append.1 hq with hq | hq
    · exact (List.mem_or_eq_of_mem_set hq).imp_right fun heq => List.mem_cons.2 (.inl heq)
    · exact .inr (List.mem_cons_of_mem _ hq)
  refine { h with data := ?_, covers := ?_, call := ?_ }
  · intro q hq key hkey readTs
    rcases hcases hq with hq | hq
    · exact h.data q hq key hkey readTs
    · obtain ⟨hown, hsame⟩ := hdata q hq key hkey
      rw [hsame readTs, h.data peer (List.mem_of_getElem? hpeer) key hown readTs]
  · intro clip hclip q hq hkey
    rcases hcases hq with hq | hq
    · exact h.covers clip hclip q hq hkey
    · exact hcovers clip hclip q hq hkey
  · intro place' endKey hworking
    obtain ⟨clip, rest, old, htodo, hold, holdKey, rfl⟩ := h.call place' endKey hworking
    have hlt : place' < s.peers.length := (List.getElem?_eq_some_iff.1 hold).1
    rw [List.getElem?_append_left (by simpa using hlt)]
    by_cases hplace : place = place'
    · subst hplace
      rw [hpeer] at hold
      cases hold
      have hkept := hcall clip (by simp [htodo]) hworking holdKey
      exact ⟨clip, rest, kept, htodo, by simp [hlt], hkept, rfl⟩
    · exact ⟨clip, rest, old, htodo, by rw [List.getElem?_set_ne hplace, hold], holdKey, rfl⟩

lemma split {child shrunk : RegionPeer} (hhandover : Handover peer command child)
    (happly : peer.applyAdminSplit command = some (result, shrunk))
    (haside : SplitsAside s (.split place command child)) :
    ScanInv serving args { s with peers := s.peers.set place shrunk ++ [child] } := by
  obtain ⟨huncut, hworking⟩ := haside
  obtain ⟨hstart, hend, hstorage⟩ := hhandover.shrunk happly
  have habove := hhandover.above
  have hchildStart := hhandover.childStart
  have hchildEnd := hhandover.childEnd
  have hsplit : command.splitKey ≠ [] := by
    intro hnil
    simp [hnil] at habove
  have hshrunkOwns {key : Bytes} (hkey : shrunk.ownsKey key = true) :
      key < command.splitKey ∧ peer.ownsKey key = true := by
    rw [ownsKey_iff, hstart, hend] at hkey
    have hbelow := hhandover.below
    rw [ownsKey_iff]
    grind
  have hchildOwns {key : Bytes} (hkey : child.ownsKey key = true) : peer.ownsKey key = true := by
    rw [ownsKey_iff, hchildStart, hchildEnd] at hkey
    rw [ownsKey_iff]
    grind
  refine h.replaced hpeer ?_ ?_ ?_
  · simp only [List.mem_cons, List.not_mem_nil, or_false]
    rintro q (rfl | rfl) key hkey
    · exact ⟨(hshrunkOwns hkey).2, fun readTs => by rw [hstorage]⟩
    · exact ⟨hchildOwns hkey, hhandover.data key hkey⟩
  · simp only [List.mem_cons, List.not_mem_nil, or_false]
    rintro clip hclip q (rfl | rfl) hkey
    · have hcut := huncut clip hclip
      have hbefore := (hshrunkOwns hkey).1
      rw [hend]
      unfold Clip.CutBy at hcut
      unfold EndLe
      grind
    · rw [hchildEnd]
      exact h.covers clip hclip peer (List.mem_of_getElem? hpeer) (hchildOwns hkey)
  · intro clip hclip hcall hkey
    obtain ⟨hne, hle⟩ := hworking clip.endKey hcall
    have hnonempty := inRange_iff.1 (h.clips clip hclip).1
    have hlow := (ownsKey_iff.1 hkey).1
    rw [ownsKey_iff, hstart, hend]
    grind

lemma cleanup {storage : MvccStorage}
    (hsame : ∀ key, peer.ownsKey key = true → SameRead key peer.storage storage) :
    ScanInv serving args { s with peers := s.peers.set place (peer.withStorage storage) } := by
  rw [← List.append_nil (s.peers.set place _)]
  refine h.replaced hpeer ?_ ?_ fun _ _ _ hkey => hkey
  · simp only [List.mem_singleton]
    rintro q rfl key hkey
    exact ⟨hkey, hsame key hkey⟩
  · simp only [List.mem_singleton]
    rintro clip hclip q rfl hkey
    exact h.covers clip hclip peer (List.mem_of_getElem? hpeer) hkey

end

variable {clip : Clip} {rest : List Clip}

/-- A peer that takes a request owns its start and clips nothing off. -/
lemma arrive {endKey : Bytes} (htodo : s.todo = clip :: rest) (hpeer : s.peers[place]? = some peer)
    (hclip : peer.clipScan clip.startKey clip.endKey = some endKey) :
    ScanInv serving args { s with call := some (place, endKey) } := by
  unfold RegionPeer.clipScan at hclip
  rw [Option.ite_none_right_eq_some] at hclip
  obtain ⟨hinside, hcut⟩ := hclip
  cases hcut
  have howns : peer.ownsKey clip.startKey = true := by
    split_ifs at hinside with hnil
    · rw [decide_eq_true_eq] at hinside
      rw [ownsKey_iff, hnil, hinside]
      exact ⟨Std.le_refl _, by cases peer.regionEndKey <;> simp⟩
    · exact hinside
  have hcovers := h.covers clip (by simp [htodo]) peer (List.mem_of_getElem? hpeer) howns
  rw [cutEnd_of_endLe hcovers]
  refine { h with call := ?_ }
  intro place' endKey' hcall
  cases hcall
  exact ⟨clip, rest, peer, htodo, hpeer, howns, rfl⟩

/-- The peer that works on a clip owns all its keys. -/
lemma owns_of_contains (hclip : clip ∈ s.todo)
    (hpeer : peer ∈ s.peers) (howns : peer.ownsKey clip.startKey = true) {key : Bytes}
    (hkey : clip.contains key = true) : peer.ownsKey key = true := by
  have hcovers := h.covers clip hclip peer hpeer howns
  have hbetween := inRange_iff.1 hkey
  have hlow := (ownsKey_iff.1 howns).1
  rw [ownsKey_iff]
  unfold EndLe at hcovers
  grind

omit h in
/-- The entries of one clip follow those that were collected before. -/
lemma collected_append {entries more : List (Bytes × Bytes)}
    (hcollected : Collected serving args (clip :: rest) entries)
    (hordered : (clip :: rest).Pairwise fun a b => a.endKey ≠ [] ∧ a.endKey ≤ b.startKey)
    (hrange : ∀ key, clip.contains key = true → inRange args.startKey args.endKey key = true)
    (hascending : (more.map Prod.fst).Pairwise (· < ·))
    (hmore : ∀ key value, (key, value) ∈ more ↔ clip.contains key = true ∧
      (serving.storageOf key).get key args.readTs = (.ok, some value)) :
    Collected serving args rest (entries ++ more) := by
  have hafter := (List.pairwise_cons.1 hordered).1
  have hinside {key : Bytes} (hkey : key ∈ more.map Prod.fst) : clip.contains key = true := by
    obtain ⟨⟨_, value⟩, hmem, rfl⟩ := List.mem_map.1 hkey
    exact ((hmore _ value).1 hmem).1
  -- a key of this clip is before the clips that are left
  have hbefore {key : Bytes} (hkey : clip.contains key = true) {later : Clip}
      (hlater : later ∈ rest) : key < later.startKey := by
    obtain ⟨hne, hle⟩ := hafter later hlater
    have hbetween := inRange_iff.1 hkey
    grind
  refine ⟨?_, ?_, ?_⟩
  · rw [List.map_append, List.pairwise_append]
    refine ⟨hcollected.ascending, hascending, ?_⟩
    intro key hkey key' hkey'
    have hfirst := hcollected.before key hkey clip List.mem_cons_self
    have hsecond := (inRange_iff.1 (hinside hkey')).1
    grind
  · intro key value
    rw [List.mem_append, hcollected.mem_iff, hmore]
    constructor
    · rintro (⟨hread, hout⟩ | ⟨hkey, hget⟩)
      · exact ⟨hread, fun later hlater => hout later (List.mem_cons_of_mem _ hlater)⟩
      · refine ⟨⟨hrange key hkey, hget⟩, fun later hlater => ?_⟩
        have hlt := hbefore hkey hlater
        simp [Clip.contains, MvccStorage.inRange, hlt]
    · rintro ⟨hread, hout⟩
      by_cases hkey : clip.contains key = true
      · exact .inr ⟨hkey, hread.2⟩
      · exact .inl ⟨hread, List.forall_mem_cons.2 ⟨by simpa using hkey, hout⟩⟩
  · intro key hkey later hlater
    rw [List.map_append] at hkey
    rcases List.mem_append.1 hkey with hkey | hkey
    · exact hcollected.before key hkey later (List.mem_cons_of_mem _ hlater)
    · exact hbefore (hinside hkey) hlater

lemma answer (hlimit : args.limit < 2 ^ 32)
    (hstatus : s.status = none) (htodo : s.todo = clip :: rest) (hpeer : peer ∈ s.peers)
    (howns : peer.ownsKey clip.startKey = true) :
    ScanInv serving args
      (s.take rest (peer.readScan clip.startKey clip.endKey args.readTs (s.remaining args))) := by
  have hmem : clip ∈ s.todo := by simp [htodo]
  have hsub : rest.Sublist s.todo := by simp [htodo]
  unfold RangeScan.take
  split_ifs with hok
  · generalize hanswer : peer.readScan clip.startKey clip.endKey args.readTs (s.remaining args) =
      answer at hok ⊢
    obtain ⟨status, more⟩ := answer
    obtain rfl : status = .ok := hok
    have hscan : peer.storage.scan clip.startKey clip.endKey args.readTs (s.remaining args) [] =
        (.ok, more) := by
      rw [← hanswer, RegionPeer.readScan, if_neg]
      have hnonempty := inRange_iff.1 (h.clips clip hmem).1
      grind
    refine
      { data := h.data
        covers := fun clip hclip => h.covers clip (hsub.subset hclip)
        call := fun _ _ hcall => nomatch hcall
        ordered := h.ordered.sublist hsub
        clips := fun clip hclip => h.clips clip (hsub.subset hclip)
        collected := ?_
        finished := fun hfinished => absurd (hstatus.symm.trans hfinished) (by simp) }
    intro hwants
    have hwants : args.limit = 0 ∨ s.entries.length + more.length < args.limit := by
      simpa [RangeScan.Wants] using hwants
    have hfew : s.remaining args = 0 ∨ more.length < s.remaining args := by
      unfold RangeScan.remaining
      split_ifs with hzero
      · exact .inl rfl
      · right
        rw [Nat.mod_eq_of_lt (by omega)]
        omega
    have hreads := MvccStorage.scan_reads hscan hfew
    have hcollected := h.collected (by unfold RangeScan.Wants; omega)
    rw [htodo] at hcollected
    refine collected_append hcollected (htodo ▸ h.ordered) (h.clips clip hmem).2 hreads.ascending ?_
    intro key value
    rw [hreads.mem_iff]
    refine and_congr_right fun hkey => ?_
    rw [h.data peer hpeer key (h.owns_of_contains hmem hpeer howns hkey)]
  · exact { h with
      call := fun _ _ hcall => nomatch hcall
      finished := fun hfinished => absurd (Option.some.inj hfinished) hok }

lemma step (hlimit : args.limit < 2 ^ 32) {event : ScanEvent}
    (henabled : s.Enabled args event) (haside : SplitsAside s event) :
    ScanInv serving args (s.next args event) := by
  cases event with
  | split place command child =>
    obtain ⟨peer, hpeer, hhandover⟩ := henabled
    obtain ⟨shrunk, happly⟩ := hhandover.accepted
    have hnext : s.next args (.split place command child) =
        { s with peers := s.peers.set place shrunk ++ [child] } := by
      simp [RangeScan.next, hpeer, happly]
    rw [hnext]
    exact h.split hpeer hhandover happly haside
  | cleanup place storage =>
    obtain ⟨peer, hpeer, hsame⟩ := henabled
    simp only [RangeScan.next, hpeer]
    exact h.cleanup hpeer hsame
  | arrive place =>
    obtain ⟨-, -, -, clip, rest, peer, endKey, htodo, hpeer, hclip⟩ := henabled
    simp only [RangeScan.next, htodo, hpeer, hclip, Option.map_some]
    rw [← htodo]
    exact h.arrive htodo hpeer hclip
  | answer =>
    obtain ⟨hstatus, hcall⟩ := henabled
    obtain ⟨⟨place, endKey⟩, hcall⟩ := Option.isSome_iff_exists.1 hcall
    obtain ⟨clip, rest, peer, htodo, hpeer, howns, rfl⟩ := h.call place endKey hcall
    simp only [RangeScan.next, hcall, htodo, hpeer]
    exact h.answer hlimit hstatus htodo (List.mem_of_getElem? hpeer) howns
  | retry => exact { h with call := fun _ _ hcall => nomatch hcall }
  | fail status =>
    exact { h with
      call := fun _ _ hcall => nomatch hcall
      finished := fun hfinished => absurd (Option.some.inj hfinished) henabled.2 }
  | finish => exact { h with finished := fun _ => henabled.2.2 }

end

end ScanInv

/-! ## Runs -/

/-- A transaction writes a key and commits. -/
def withCommitted (σ : MvccStorage) (key : Bytes) : MvccStorage :=
  ((σ.prewriteLocked key key key 1 100 false 0 0 0 true).2.commit key 1 2 true).2

/-- One Region with the keys `5` and `9`. -/
def samplePeer : RegionPeer :=
  { RegionPeer.create 0 { regionId := 1 } with storage := withCommitted (withCommitted {} [5]) [9] }

def sampleServing : Serving where
  peers := [samplePeer]
  tiles := ⟨rfl, rfl, nofun⟩
  owned := fun _ hpeer => List.mem_singleton.1 hpeer ▸ ⟨rfl, rfl⟩

def sampleArgs (endKey : Bytes) : ScanArgs := ⟨[], endKey, 10, 0⟩

def cutCommand (splitKey : Bytes) : AdminSplitCommand where
  splitKey := splitKey
  metadataRevision := 2
  parent := { regionId := 1, epoch := ⟨1, 1⟩ }
  child := { regionId := 2, startKey := splitKey, epoch := ⟨1, 1⟩ }

def sampleChild (splitKey : Bytes) : RegionPeer :=
  { RegionPeer.create 0 (cutCommand splitKey).stampedChild with storage := samplePeer.storage }

/-- The Region is split between the routing step and the call. -/
def splitEvents (splitKey : Bytes) : List ScanEvent :=
  [.split 0 (cutCommand splitKey) (sampleChild splitKey), .arrive 0, .answer, .finish]

def afterSplit (endKey splitKey : Bytes) : RangeScan :=
  (splitEvents splitKey).foldl (RangeScan.next (sampleArgs endKey))
    (RangeScan.start [samplePeer] (sampleArgs endKey))

lemma sample_handover (key : UInt8) : Handover samplePeer (cutCommand [key]) (sampleChild [key])
    where
  accepted := ⟨_, rfl⟩
  made := rfl
  above := by
    change [] < [key]
    simp
  below := .inl rfl
  childStart := rfl
  childEnd := rfl
  data := fun _ _ _ => rfl

end StrataKV.Txn
