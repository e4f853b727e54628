import StrataKV.Metadata.Region

/-!
# What a catalog accepts

`IsCatalog` says what a list of Regions is that the constructor of `RegionCatalog` accepts and does
not change. `regionCatalog_ok` shows that it returns nothing else, and `IsCatalog.regionCatalog_eq`
that it accepts its own results again, which is what a state machine relies on that publishes a set
of Regions it has validated before.
-/

namespace StrataKV.Metadata

open List RegionMetadata

/-! ## Catalogs -/

namespace RegionPeerLocation

/-- The ids are set and the endpoint is usable. -/
structure WellFormed (peer : RegionPeerLocation) : Prop where
  nodeId : ¬peer.nodeId < 0
  host : peer.host ≠ []
  port : ¬peer.port ≤ 0
  storeId : peer.storeId ≠ 0
  peerId : peer.peerId ≠ 0

/-- Two peers have different ids, and the same endpoint if they are on one store. -/
def Apart (p q : RegionPeerLocation) : Prop :=
  p.peerId ≠ q.peerId ∧ (p.storeId = q.storeId → p.host = q.host ∧ p.port = q.port)

/-- The endpoint is usable. -/
structure Usable (peer : RegionPeerLocation) : Prop where
  nodeId : ¬peer.nodeId < 0
  host : peer.host ≠ []
  port : ¬peer.port ≤ 0

lemma Apart.symm {p q : RegionPeerLocation} (h : p.Apart q) : q.Apart p :=
  ⟨h.1.symm, fun heq => ⟨(h.2 heq.symm).1.symm, (h.2 heq.symm).2.symm⟩⟩

/-- The peer of a descriptor has both ids. -/
def HasIds (peer : RegionPeerLocation) : Prop := peer.storeId ≠ 0 ∧ peer.peerId ≠ 0

end RegionPeerLocation

namespace RegionMetadata

/-- The fields of the Region are valid, and its leader is one of its peers. -/
structure WellFormed (region : RegionMetadata) : Prop where
  valid : region.invalid = false
  peers : ∀ peer ∈ region.peers, peer.WellFormed
  leader : region.leaderPeerId ≠ 0
  findPeer : region.findPeer region.leaderPeerId ≠ none

/-- The peers of the Region have their ids. -/
def HasIds (region : RegionMetadata) : Prop := ∀ peer ∈ region.peers, peer.HasIds

variable {region : RegionMetadata}

/-- The peers of a well-formed Region have their ids. -/
lemma WellFormed.hasIds (h : region.WellFormed) : region.HasIds :=
  fun peer hpeer => ⟨(h.peers peer hpeer).storeId, (h.peers peer hpeer).peerId⟩

/-- A well-formed Region names a leader already. -/
lemma WellFormed.withLeader (h : region.WellFormed) : region.withLeader = region := by
  rw [RegionMetadata.withLeader, if_neg h.leader]
  cases region
  rfl

lemma withPeers_self (region : RegionMetadata) : region.withPeers region.peers = region := by
  cases region
  rfl

/-- `contains` is membership in the range. -/
lemma contains_iff {key : Bytes} : region.contains key = true ↔ region.range.Contains key := by
  unfold contains range Range.Contains
  by_cases hend : region.endKey = []
  · simp [hend]
  · simp [hend]

/-- What the check of the single fields leaves. -/
lemma invalid_eq_false (h : region.invalid = false) : ¬region.regionId < 0 ∧ region.peers ≠ [] ∧
      (region.endKey ≠ [] → region.startKey < region.endKey) ∧ region.epoch.version ≠ 0 ∧
      region.epoch.confVersion ≠ 0 ∧ region.metadataRevision ≠ 0 := by
  simp only [invalid, Bool.or_eq_false_iff, decide_eq_false_iff_not, Bool.and_eq_false_iff,
    Bool.not_eq_false', decide_eq_true_eq, isEmpty_eq_false_iff, not_not] at h
  obtain ⟨⟨⟨⟨⟨hid, hpeers⟩, hrange⟩, hversion⟩, hconf⟩, hrev⟩ := h
  exact ⟨hid, hpeers, fun hend => hrange.resolve_left hend, hversion, hconf, hrev⟩

end RegionMetadata

/-- The Regions tile the key space, are well formed, and share no id. -/
structure IsCatalog (regions : List RegionMetadata) : Prop where
  tiles : Range.Tiles RegionMetadata.range [] none regions
  wellFormed : ∀ region ∈ regions, region.WellFormed
  ids : regions.Pairwise fun a b => a.regionId ≠ b.regionId
  peers : (regions.flatMap RegionMetadata.peers).Pairwise RegionPeerLocation.Apart

/-! ## The loop over the peers -/

/-- The peers with their default ids; the first is number `peerIndex` of its Region. -/
def fillPeers (regionId : Int32) : ℕ → List RegionPeerLocation → List RegionPeerLocation
  | _, [] => []
  | peerIndex, peer :: rest =>
    peer.withDefaults regionId peerIndex :: fillPeers regionId (peerIndex + 1) rest

/-- Nothing is filled in where every peer has its ids. -/
lemma fillPeers_of_hasIds (regionId : Int32) {peers : List RegionPeerLocation}
    (hids : ∀ peer ∈ peers, peer.HasIds) (peerIndex : ℕ) :
    fillPeers regionId peerIndex peers = peers := by
  induction peers generalizing peerIndex with
  | nil => rfl
  | cons peer rest ih =>
    obtain ⟨hpeer, hids⟩ := forall_mem_cons.1 hids
    rw [fillPeers, RegionPeerLocation.withDefaults, if_neg hpeer.1, if_neg hpeer.2, ih hids]

/-- The two checks of `checkPeers` against the peers before say that the peer is apart from them. -/
lemma apart_iff {seen : List RegionPeerLocation} {peer : RegionPeerLocation} :
    (∀ q ∈ seen, q.Apart peer) ↔ ¬(seen.any fun other => other.peerId = peer.peerId) = true ∧
        ¬seen.any peer.conflicts = true := by
  simp only [any_eq_true, decide_eq_true_eq, not_exists, not_and, ← forall₂_and]
  refine forall₂_congr fun q _ => and_congr_right fun _ => ?_
  simp [RegionPeerLocation.conflicts]

/-- The loop fills in the ids of usable peers that are apart from each other and from those before. -/
lemma checkPeers_eq_ok (regionId : Int32) (peers : List RegionPeerLocation) (peerIndex : ℕ)
    (seen result : List RegionPeerLocation) :
    checkPeers regionId peerIndex seen peers = .ok result ↔
      result = fillPeers regionId peerIndex peers ∧ (∀ peer ∈ peers, peer.Usable) ∧
        result.Pairwise RegionPeerLocation.Apart ∧ ∀ q ∈ seen, ∀ p ∈ result, q.Apart p := by
  induction peers generalizing peerIndex seen result with
  | nil =>
    simp only [checkPeers, fillPeers, Except.ok.injEq, eq_comm (a := ([] : List RegionPeerLocation))]
    simp +contextual
  | cons peer rest ih =>
    -- the ids are filled in before the peer is compared with those before it
    generalize hfilled : peer.withDefaults regionId peerIndex = filled
    simp only [checkPeers, fillPeers, hfilled]
    constructor
    · intro h
      split_ifs at h with hbad hdup hconflict
      have husable : peer.Usable :=
        ⟨fun hn => hbad (.inl hn), fun hn => hbad (.inr (.inl hn)), fun hn => hbad (.inr (.inr hn))⟩
      have hseen := apart_iff.2 ⟨hdup, hconflict⟩
      split at h
      · cases h
      · rename_i peers hrest
        cases h
        obtain ⟨rfl, husables, hpair, hapart⟩ := (ih _ _ peers).1 hrest
        refine ⟨rfl, forall_mem_cons.2 ⟨husable, husables⟩, ?_, ?_⟩
        · exact pairwise_cons.2 ⟨hapart filled (by simp), hpair⟩
        · intro q hq
          exact forall_mem_cons.2 ⟨hseen q hq, hapart q (mem_append_left _ hq)⟩
    · rintro ⟨rfl, husables, hpair, hapart⟩
      obtain ⟨husable, husables⟩ := forall_mem_cons.1 husables
      obtain ⟨hhead, hpair⟩ := pairwise_cons.1 hpair
      have hrest := (ih (peerIndex + 1) (seen ++ [filled]) _).2 ⟨rfl, husables, hpair, ?_⟩
      · obtain ⟨hdup, hconflict⟩ := apart_iff.1 fun q hq => hapart q hq filled mem_cons_self
        rw [if_neg (by simp [husable.nodeId, husable.host, husable.port]), if_neg hdup,
          if_neg hconflict, hrest]
      · intro q hq p hp
        rcases mem_append.1 hq with hq | hq
        · exact hapart q hq p (mem_cons_of_mem filled hp)
        · rw [mem_singleton.1 hq]
          exact hhead p hp

/-! ## The loop over the Regions -/

namespace RegionMetadata

/-- The Region with the ids and the leader that a configuration may leave out. -/
def filled (region : RegionMetadata) : RegionMetadata :=
  (region.withPeers (fillPeers region.regionId 0 region.peers)).withLeader

/-- The fields of the Region are valid, its peers are usable, and its leader is one of them. -/
structure Usable (region : RegionMetadata) : Prop where
  valid : region.invalid = false
  peers : ∀ peer ∈ region.peers, peer.Usable
  findPeer : region.filled.findPeer region.filled.leaderPeerId ≠ none

variable {region : RegionMetadata}

lemma HasIds.filled (h : region.HasIds) : region.filled = region.withLeader := by
  rw [RegionMetadata.filled, fillPeers_of_hasIds region.regionId h, withPeers_self]

/-- Validation changes nothing in a well-formed Region. -/
lemma WellFormed.filled (h : region.WellFormed) : region.filled = region := by
  rw [h.hasIds.filled, h.withLeader]

/-- A well-formed Region passes the check of its own fields. -/
lemma WellFormed.usable (h : region.WellFormed) : region.Usable := by
  refine ⟨h.valid, fun peer hpeer => ?_, ?_⟩
  · have hwf := h.peers peer hpeer
    exact ⟨hwf.nodeId, hwf.host, hwf.port⟩
  · rw [h.filled]
    exact h.findPeer

/-- The leader that is filled in makes a usable Region with ids well formed. -/
lemma Usable.withLeader_wellFormed (h : region.Usable) (hids : region.HasIds) :
    region.withLeader.WellFormed := by
  refine ⟨h.valid, fun peer hpeer => ?_, ?_, hids.filled ▸ h.findPeer⟩
  · have husable := h.peers peer hpeer
    exact ⟨husable.nodeId, husable.host, husable.port, (hids peer hpeer).1, (hids peer hpeer).2⟩
  · have hpeers := (invalid_eq_false h.valid).2.1
    unfold withLeader
    split
    · cases hp : region.peers with
      | nil => exact absurd hp hpeers
      | cons peer rest => simpa [hp] using (hids peer (by simp [hp])).2
    · assumption

end RegionMetadata

/-- Where the next Region has to start. -/
def nextStart (seen : List RegionMetadata) : Bytes :=
  (seen.getLast?.map RegionMetadata.endKey).getD []

/-- The Regions may follow those that were checked before. -/
structure Follows (seen regions : List RegionMetadata) : Prop where
  tiles : regions ≠ [] → Range.Tiles RegionMetadata.range (nextStart seen) none regions
  usable : ∀ region ∈ regions, region.Usable
  ids : regions.Pairwise fun a b => a.regionId ≠ b.regionId
  ids_seen : ∀ a ∈ seen, ∀ b ∈ regions, a.regionId ≠ b.regionId
  peers : ((regions.map RegionMetadata.filled).flatMap RegionMetadata.peers).Pairwise
    RegionPeerLocation.Apart
  peers_seen : ∀ p ∈ seen.flatMap RegionMetadata.peers,
    ∀ q ∈ (regions.map RegionMetadata.filled).flatMap RegionMetadata.peers, p.Apart q

/-- The checks of `checkRegions` on the first of the remaining Regions. -/
structure Admits (seen : List RegionMetadata) (region : RegionMetadata)
    (rest : List RegionMetadata) : Prop where
  usable : region.Usable
  id : ∀ other ∈ seen, other.regionId ≠ region.regionId
  start : region.startKey = nextStart seen
  stop : region.endKey = [] ↔ rest = []
  peers : region.filled.peers.Pairwise RegionPeerLocation.Apart
  peers_seen : ∀ p ∈ seen.flatMap RegionMetadata.peers, ∀ q ∈ region.filled.peers, p.Apart q

variable {region : RegionMetadata}

/-- One round of the constructor: the first Region is admitted and the rest pass. -/
lemma checkRegions_cons_eq_ok (seen rest result : List RegionMetadata) :
    checkRegions seen (region :: rest) = .ok result ↔
      Admits seen region rest ∧ ∃ regions, checkRegions (seen ++ [region.filled]) rest = .ok regions ∧
        result = region.filled :: regions := by
  -- the first Region starts at the empty key, another one where the one before it ends
  have hstart : (¬(seen = [] ∧ region.startKey ≠ []) ∧
      ¬(seen.getLast?.any fun last => last.endKey ≠ region.startKey) = true) ↔
      region.startKey = nextStart seen := by
    cases hlast : seen.getLast? with
    | none =>
      have hnil := getLast?_eq_none_iff.1 hlast
      simp [nextStart, hnil]
    | some last =>
      have hne : seen ≠ [] := by
        rintro rfl
        cases hlast
      simp only [nextStart, hlast, hne, false_and, not_false_eq_true, true_and, Option.any_some,
        decide_eq_true_eq, not_not, Option.map_some, Option.getD_some]
      exact eq_comm
  have hpeers := checkPeers_eq_ok region.regionId region.peers 0 (seen.flatMap peers)
  rw [checkRegions]
  constructor
  · intro h
    split_ifs at h with hvalid hdup hfirst hlast hopen hclosed
    split at h
    · cases h
    · rename_i peers hcheck
      obtain ⟨rfl, husable, hpair, hseen⟩ := (hpeers peers).1 hcheck
      dsimp only at h
      split_ifs at h with hleader
      split at h
      · cases h
      · rename_i regions hrest
        cases h
        refine ⟨⟨⟨by simpa using hvalid, husable, hleader⟩, by simpa using hdup,
          hstart.1 ⟨hfirst, hlast⟩, ?_, hpair, hseen⟩, regions, hrest, rfl⟩
        -- only the last Region has no end
        by_cases hnil : rest = []
        · simpa [hnil] using hclosed
        · simpa [hnil] using hopen
  · rintro ⟨hadmits, regions, hrest, rfl⟩
    have hcheck := (hpeers _).2 ⟨rfl, hadmits.usable.peers, hadmits.peers, hadmits.peers_seen⟩
    obtain ⟨hfirst, hlast⟩ := hstart.2 hadmits.start
    have hdup : ¬(seen.any fun other => other.regionId = region.regionId) = true := by
      simpa using hadmits.id
    have hopen : ¬(rest ≠ [] ∧ region.endKey = []) := fun h => h.1 (hadmits.stop.1 h.2)
    have hclosed : ¬(rest = [] ∧ region.endKey ≠ []) := fun h => h.2 (hadmits.stop.2 h.1)
    rw [if_neg (by simp [hadmits.usable.valid]), if_neg hdup, if_neg hfirst, if_neg hlast,
      if_neg hopen, if_neg hclosed, hcheck]
    change (if region.filled.findPeer region.filled.leaderPeerId = none then _ else _) = _
    rw [if_neg hadmits.usable.findPeer]
    split
    · rename_i hfail
      cases hrest.symm.trans hfail
    · rename_i hok
      cases hrest.symm.trans hok
      rfl

variable {seen rest : List RegionMetadata}

/-- The Regions tile the keys if the first one starts and ends where it has to and so do the rest. -/
lemma tiles_cons_iff {lo : Bytes} (hvalid : region.invalid = false) :
    Range.Tiles range lo none (region :: rest) ↔
      region.startKey = lo ∧ (region.endKey = [] ↔ rest = []) ∧
        (rest ≠ [] → Range.Tiles range region.endKey none rest) := by
  have hlt := (invalid_eq_false hvalid).2.2.1
  cases rest with
  | nil => simp [Range.Tiles, RegionMetadata.range]
  | cons next rest =>
    simp only [Range.Tiles, RegionMetadata.range, ite_eq_iff, reduceCtorEq, and_false,
      Option.some.injEq, false_or, iff_false, ne_eq, not_false_eq_true, true_imp_iff]
    constructor
    · rintro ⟨rfl, mid, ⟨hend, rfl⟩, -, htiles⟩
      exact ⟨rfl, hend, htiles⟩
    · rintro ⟨rfl, hend, htiles⟩
      exact ⟨rfl, region.endKey, ⟨hend, rfl⟩, hlt hend, htiles⟩

/-- `Follows` unfolds as the rounds of the constructor do. -/
lemma follows_cons_iff : Follows seen (region :: rest) ↔
      Admits seen region rest ∧ Follows (seen ++ [region.filled]) rest := by
  -- filling in ids and leader leaves the range alone
  have hnext : nextStart (seen ++ [region.filled]) = region.endKey := by
    simp [nextStart, filled, withLeader, withPeers]
  constructor
  · intro h
    have husable := h.usable region mem_cons_self
    obtain ⟨hstart, hstop, htiles⟩ := (tiles_cons_iff husable.valid).1 (h.tiles (by simp))
    obtain ⟨hpeers, hpeersRest, hcross⟩ := pairwise_append.1 h.peers
    obtain ⟨hid, hids⟩ := pairwise_cons.1 h.ids
    refine ⟨⟨husable, fun a ha => h.ids_seen a ha region mem_cons_self, hstart, hstop, hpeers,
      fun p hp q hq => h.peers_seen p hp q (mem_append_left _ hq)⟩, hnext ▸ htiles,
      fun r hr => h.usable r (mem_cons_of_mem region hr), hids, ?_, hpeersRest, ?_⟩
    · intro a ha b hb
      rcases mem_append.1 ha with ha | ha
      · exact h.ids_seen a ha b (mem_cons_of_mem region hb)
      · rw [mem_singleton.1 ha]
        exact hid b hb
    · intro p hp q hq
      rw [flatMap_append, mem_append] at hp
      rcases hp with hp | hp
      · exact h.peers_seen p hp q (mem_append_right _ hq)
      · exact hcross p (by simpa using hp) q hq
  · rintro ⟨hadmits, h⟩
    refine ⟨fun _ => (tiles_cons_iff hadmits.usable.valid).2
      ⟨hadmits.start, hadmits.stop, hnext ▸ h.tiles⟩, forall_mem_cons.2 ⟨hadmits.usable, h.usable⟩,
      pairwise_cons.2 ⟨h.ids_seen region.filled (by simp), h.ids⟩, ?_, ?_, ?_⟩
    · intro a ha
      exact forall_mem_cons.2 ⟨hadmits.id a ha, h.ids_seen a (mem_append_left _ ha)⟩
    · refine pairwise_append.2 ⟨hadmits.peers, h.peers, fun p hp => h.peers_seen p ?_⟩
      rw [flatMap_append, mem_append]
      exact .inr (by simpa using hp)
    · intro p hp q hq
      rcases mem_append.1 hq with hq | hq
      · exact hadmits.peers_seen p hp q hq
      · refine h.peers_seen p ?_ q hq
        rw [flatMap_append, mem_append]
        exact .inl hp

variable {regions result : List RegionMetadata}

/-- The loop fills in the Regions that may follow those before, and accepts no others. -/
lemma checkRegions_eq_ok : checkRegions seen regions = .ok result ↔
      result = regions.map filled ∧ Follows seen regions := by
  induction regions generalizing seen result with
  | nil =>
    have hfollows : Follows seen [] := ⟨by simp, by simp, .nil, by simp, .nil, by simp⟩
    simp [checkRegions, hfollows, eq_comm]
  | cons region rest ih =>
    rw [checkRegions_cons_eq_ok, follows_cons_iff]
    constructor
    · rintro ⟨hadmits, regions, hrest, rfl⟩
      obtain ⟨rfl, hfollows⟩ := ih.1 hrest
      exact ⟨rfl, hadmits, hfollows⟩
    · rintro ⟨rfl, hadmits, hfollows⟩
      exact ⟨hadmits, _, ih.2 ⟨rfl, hfollows⟩, rfl⟩

/-! ## The constructor -/

lemma mem_sortRegions : region ∈ sortRegions regions ↔ region ∈ regions :=
  (perm_insertionSort _ _).mem_iff

/-- The constructor sorts the Regions and fills in what is missing. -/
lemma regionCatalog_eq_ok :
    regionCatalog regions = .ok result ↔ regions ≠ [] ∧ result = (sortRegions regions).map filled ∧
        Follows [] (sortRegions regions) := by
  rw [regionCatalog, ← checkRegions_eq_ok]
  split_ifs with hnil
  · simp [hnil]
  · simp [hnil]

lemma sortRegions_ne_nil : sortRegions regions ≠ [] ↔ regions ≠ [] := by
  have hperm : (sortRegions regions).Perm regions := perm_insertionSort _ _
  rw [not_iff_not, ← length_eq_zero_iff, hperm.length_eq, length_eq_zero_iff]

/-- The Regions of an accepted list tile the key space. -/
lemma tiles_of_regionCatalog (h : regionCatalog regions = .ok result) :
    Range.Tiles range [] none result := by
  obtain ⟨hne, rfl, hfollows⟩ := regionCatalog_eq_ok.1 h
  exact (hfollows.tiles (sortRegions_ne_nil.2 hne)).map fun _ _ => rfl

section

variable (hids : ∀ region ∈ regions, region.HasIds)

include hids

/-- In a sorted catalog whose peers have ids, only leaders are filled in. -/
lemma map_filled : (sortRegions regions).map filled = (sortRegions regions).map withLeader :=
  map_congr_left fun region hr => (hids region (mem_sortRegions.1 hr)).filled

/-- The constructor sorts the Regions and fills in their leaders. -/
lemma regionCatalog_eq_map
    (h : regionCatalog regions = .ok result) : result = (sortRegions regions).map withLeader :=
  (regionCatalog_eq_ok.1 h).2.1.trans (map_filled hids)

/-- What the constructor returns is a catalog. -/
lemma regionCatalog_ok (h : regionCatalog regions = .ok result) : IsCatalog result := by
  have htiles := tiles_of_regionCatalog h
  obtain ⟨-, rfl, hfollows⟩ := regionCatalog_eq_ok.1 h
  have hpeers := hfollows.peers
  rw [map_filled hids] at htiles hpeers ⊢
  refine ⟨htiles, ?_, pairwise_map.2 hfollows.ids, hpeers⟩
  intro region hregion
  obtain ⟨old, hold, rfl⟩ := mem_map.1 hregion
  exact (hfollows.usable old hold).withLeader_wellFormed (hids old (mem_sortRegions.1 hold))

end

/-- The constructor takes a catalog as it is. -/
lemma IsCatalog.regionCatalog_eq (h : IsCatalog regions) : regionCatalog regions = .ok regions := by
  -- the Regions are sorted, and nothing is left to fill in
  have hsort : sortRegions regions = regions := by
    refine (h.tiles.pairwise_lo.imp ?_).insertionSort_eq
    intro a b hlt
    have hlt : a.startKey < b.startKey := hlt
    grind
  have hfilled : regions.map filled = regions :=
    (map_congr_left fun region hr => (h.wellFormed region hr).filled).trans regions.map_id
  rw [regionCatalog_eq_ok, hsort, hfilled]
  refine ⟨h.tiles.ne_nil, rfl, fun _ => h.tiles, ?_, h.ids, by simp, ?_, by simp⟩
  · exact fun region hr => (h.wellFormed region hr).usable
  · rw [hfilled]
    exact h.peers

/-- Every key is found in the only Region that contains it. -/
lemma findByKey_of_tiles (h : Range.Tiles range [] none regions) (key : Bytes) :
    ∃ region ∈ regions, findByKey regions key = .ok region ∧ region.contains key = true ∧
      ∀ other ∈ regions, other.contains key = true → other = region := by
  have hlo : ([] : Bytes) ≤ key := by simp
  obtain ⟨region, hmem, hlast, hcontains⟩ := h.getLast?_takeWhile hlo (by simp)
  have hcontains' := contains_iff.2 hcontains
  refine ⟨region, hmem, ?_, hcontains', ?_⟩
  · have hsearch : (regions.takeWhile fun r => ¬key < r.startKey).getLast? = some region := hlast
    rw [findByKey, hsearch]
    simp [hcontains']
  · intro other hother hcontains''
    have hunique := h.existsUnique hlo (by simp)
    exact hunique.unique ⟨hother, contains_iff.1 hcontains''⟩ ⟨hmem, hcontains⟩

/-- What makes a sorted list of Regions a catalog: non-empty ranges that follow one another from the
empty key to the unbounded end, Region ids and, once the default ids are filled in, peer ids that are
used once, usable peers, one endpoint for each store, positive epochs and revisions, and a leader that
is a member. -/
structure Acceptable (regions : List RegionMetadata) : Prop where
  tiles : Range.Tiles RegionMetadata.range [] none regions
  regionIds : regions.Pairwise fun a b => a.regionId ≠ b.regionId
  regionId : ∀ region ∈ regions, 0 ≤ region.regionId
  epoch : ∀ region ∈ regions, 0 < region.epoch.version ∧ 0 < region.epoch.confVersion
  revision : ∀ region ∈ regions, 0 < region.metadataRevision
  usable : ∀ region ∈ regions, ∀ peer ∈ region.peers, peer.Usable
  peers : ((regions.map RegionMetadata.filled).flatMap RegionMetadata.peers).Pairwise
    RegionPeerLocation.Apart
  leader : ∀ region ∈ regions, ∃ peer ∈ region.filled.peers, peer.peerId = region.filled.leaderPeerId

/-- A peer is found exactly if one has the id. -/
lemma findPeer_ne_none {peerId : UInt64} :
    region.findPeer peerId ≠ none ↔ ∃ peer ∈ region.peers, peer.peerId = peerId := by
  simp [findPeer]

/-- The constructor accepts the Regions exactly if each follows the ones before it. -/
lemma acceptable_iff : Acceptable regions ↔ regions ≠ [] ∧ Follows [] regions := by
  constructor
  · intro h
    refine ⟨h.tiles.ne_nil, fun _ => h.tiles, fun region hregion => ?_, h.regionIds, by simp, h.peers,
      by simp⟩
    have hleader := h.leader region hregion
    refine ⟨?_, h.usable region hregion, findPeer_ne_none.2 hleader⟩
    have hpeers : region.peers ≠ [] := by
      intro hnil
      simp [filled, withLeader, withPeers, hnil, fillPeers] at hleader
    have hrange : region.endKey ≠ [] → region.startKey < region.endKey := by
      intro hend
      exact h.tiles.lo_lt hregion region.endKey (if_neg hend)
    refine Bool.eq_false_iff.2 fun hinvalid => ?_
    simp only [invalid, Bool.or_eq_true, Bool.and_eq_true, decide_eq_true_eq,
      Bool.not_eq_true', decide_eq_false_iff_not, List.isEmpty_iff] at hinvalid
    rcases hinvalid with ((((hid | hnil) | ⟨hend, hlt⟩) | hversion) | hconf) | hrevision
    · exact Int32.not_lt.2 (h.regionId region hregion) hid
    · exact hpeers hnil
    · exact hlt (hrange hend)
    · exact (UInt64.pos_iff_ne_zero.1 (h.epoch region hregion).1) hversion
    · exact (UInt64.pos_iff_ne_zero.1 (h.epoch region hregion).2) hconf
    · exact (UInt64.pos_iff_ne_zero.1 (h.revision region hregion)) hrevision
  · rintro ⟨hne, h⟩
    have hfields {region : RegionMetadata} (hregion : region ∈ regions) :=
      invalid_eq_false (h.usable region hregion).valid
    refine ⟨h.tiles hne, h.ids, fun region hr => ?_, fun region hr => ?_, fun region hr => ?_,
      fun region hr => (h.usable region hr).peers, h.peers,
      fun region hr => findPeer_ne_none.1 (h.usable region hr).findPeer⟩
    · exact Int32.not_lt.1 (hfields hr).1
    · exact ⟨UInt64.pos_iff_ne_zero.2 (hfields hr).2.2.2.1, UInt64.pos_iff_ne_zero.2 (hfields hr).2.2.2.2.1⟩
    · exact UInt64.pos_iff_ne_zero.2 (hfields hr).2.2.2.2.2

/-- The constructor of `RegionCatalog` accepts a list exactly if it is acceptable once it is sorted,
and then every key is found in the only Region that contains it. -/
theorem regionCatalog_accepts (regions : List RegionMetadata) :
    match regionCatalog regions with
    | .error _ => ¬Acceptable (sortRegions regions)
    | .ok catalog => Acceptable (sortRegions regions) ∧ ∀ key, ∃ region ∈ catalog,
      findByKey catalog key = .ok region ∧ region.contains key = true ∧
        ∀ other ∈ catalog, other.contains key = true → other = region := by
  have hiff : Acceptable (sortRegions regions) ↔
      regions ≠ [] ∧ Follows [] (sortRegions regions) := by
    rw [acceptable_iff, sortRegions_ne_nil]
  cases hcatalog : regionCatalog regions with
  | error message =>
    intro h
    obtain ⟨hne, hfollows⟩ := hiff.1 h
    simp [regionCatalog_eq_ok.2 ⟨hne, rfl, hfollows⟩] at hcatalog
  | ok catalog =>
    obtain ⟨hne, -, hfollows⟩ := regionCatalog_eq_ok.1 hcatalog
    exact ⟨hiff.2 ⟨hne, hfollows⟩, findByKey_of_tiles (tiles_of_regionCatalog hcatalog)⟩

end StrataKV.Metadata
