import StrataKV.Txn.RangeScan

/-!
# Scans with a limit

`Scan` of the coordinator has one list of entries, which the storages of the Regions append to. It
asks each of them for the number of entries that are still missing, and the storage compares this
number with the length of the whole list. The entries of the Regions before count twice that way: a
scan over several Regions stops early unless all that a Region has fits into half of what is left.
-/

namespace StrataKV.Txn

open Metadata Mvcc MvccStorage List RegionMetadata
open MvccStorage (inRange)
open Std (ExtTreeMap)

/-! ## A list that is filled from blocks -/

section

variable {α : Type}

/-- The list of entries over the Regions of a scan with limit `n`. -/
def fill (n : ℕ) : List α → List (List α) → List α
  | entries, [] => entries
  | entries, block :: rest =>
    if n ≤ entries.length then entries
    else fill n (entries ++ block.take (n - entries.length - entries.length)) rest

/-- Each block finds an empty list or a full one, is empty, or fits into what the entries before
leave of the limit when they are counted twice. -/
def Fits (n : ℕ) : ℕ → List ℕ → Prop
  | _, [] => True
  | before, count :: rest =>
    (before = 0 ∨ n ≤ before ∨ count = 0 ∨ before + before + count ≤ n) ∧
      Fits n (before + count) rest

instance decidableFits (n : ℕ) : (before : ℕ) → (counts : List ℕ) → Decidable (Fits n before counts)
  | _, [] => isTrue trivial
  | before, count :: rest =>
    have := decidableFits n (before + count) rest
    inferInstanceAs (Decidable (_ ∧ _))

variable {n : ℕ}

lemma fits_of_le {before : ℕ} {counts : List ℕ} (h : n ≤ before) : Fits n before counts := by
  induction counts generalizing before with
  | nil => trivial
  | cons count rest ih => exact ⟨.inr (.inl h), ih (by omega)⟩

variable {entries : List α} {blocks : List (List α)}

lemma fill_of_le (h : n ≤ entries.length) : fill n entries blocks = entries := by
  cases blocks with
  | nil => rfl
  | cons block rest => rw [fill, if_pos h]

lemma exists_fill_eq (entries : List α) (blocks : List (List α)) :
    ∃ later, fill n entries blocks = entries ++ later ∧ later ⊆ blocks.flatten := by
  induction blocks generalizing entries with
  | nil => exact ⟨[], by simp [fill], by simp⟩
  | cons block rest ih =>
    rw [fill]
    split_ifs
    · exact ⟨[], by simp, by simp⟩
    · obtain ⟨later, heq, hsub⟩ := ih (entries ++ block.take (n - entries.length - entries.length))
      refine ⟨block.take (n - entries.length - entries.length) ++ later, by simp [heq], ?_⟩
      rw [flatten_cons, append_subset]
      exact ⟨fun x hx => mem_append_left _ (mem_of_mem_take hx),
        fun x hx => mem_append_right _ (hsub hx)⟩

/-- A block that is cut too early leaves a gap that nothing later can fill. -/
lemma fill_ne_of_cut {entries block : List α} {rest : List (List α)} {k : ℕ}
    (hnodup : (entries ++ (block ++ rest.flatten)).Nodup) (hcut : k < block.length)
    (hroom : entries.length + k < n) :
    fill n (entries ++ block.take k) rest ≠ (entries ++ (block ++ rest.flatten)).take n := by
  intro heq
  obtain ⟨later, hlater, hsub⟩ := exists_fill_eq (entries ++ block.take k) rest (n := n)
  have hblock : block = block.take k ++ block[k] :: block.drop (k + 1) := by simp
  obtain ⟨room, hn⟩ : ∃ room, n = (entries ++ block.take k).length + (room + 1) :=
    ⟨n - entries.length - k - 1, by simp; omega⟩
  have htake : (entries ++ (block ++ rest.flatten)).take n = (entries ++ block.take k) ++
        block[k] :: (block.drop (k + 1) ++ rest.flatten).take room := by
    conv_lhs => rw [hblock]
    rw [append_assoc, ← append_assoc entries, hn, take_length_add_append]
    rfl
  rw [hlater, htake, append_cancel_left_eq] at heq
  have hmem : block[k] ∈ rest.flatten := hsub (heq ▸ mem_cons_self)
  have hdisjoint := disjoint_of_nodup_append (nodup_append.1 hnodup).2.1
  exact hdisjoint (getElem_mem hcut) hmem

/-- The list has the first `n` entries if and only if the blocks fit. -/
lemma fill_eq_take_iff (hnodup : (entries ++ blocks.flatten).Nodup) (hle : entries.length ≤ n) :
    fill n entries blocks = (entries ++ blocks.flatten).take n ↔
      Fits n entries.length (blocks.map length) := by
  induction blocks generalizing entries with
  | nil => simp [fill, Fits, take_of_length_le hle]
  | cons block rest ih =>
    rw [flatten_cons] at hnodup ⊢
    by_cases hfull : n ≤ entries.length
    · refine iff_of_true ?_ (fits_of_le hfull)
      rw [fill_of_le hfull, take_left' (by omega)]
    rw [fill, if_neg hfull, map_cons, Fits]
    by_cases hwhole : block.length ≤ n - entries.length - entries.length ∨ block.length = 0
    · -- the block is appended as a whole
      have htake : block.take (n - entries.length - entries.length) = block := by
        rw [take_eq_self_iff]
        omega
      have hih := @ih (entries ++ block) (by simpa using hnodup) (by simp; omega)
      rw [htake, ← append_assoc, hih, length_append]
      constructor
      · intro h
        exact ⟨by omega, h⟩
      · exact fun h => h.2
    by_cases hempty : entries.length = 0
    · -- the first entries come from one block
      obtain rfl := length_eq_zero_iff.1 hempty
      have hlong : n ≤ block.length := by simp at hwhole; omega
      simp [fill_of_le, hlong, fits_of_le hlong, take_append_of_le_length hlong]
    · refine iff_of_false (fill_ne_of_cut hnodup (by omega) (by omega)) ?_
      rintro ⟨h, -⟩
      omega

end

/-! ## The loop over the Regions -/

/-- A Region and the storage that serves it. -/
structure RegionRoute where
  metadata : RegionMetadata
  storage : MvccStorage

/-- The routes that a `ShardRouter` knows, from its Region cache or from its own table. -/
structure ShardRouter where
  cached : Bool
  routes : List RegionRoute
  tiles : Range.Tiles RegionMetadata.range [] none (routes.map RegionRoute.metadata)

namespace ShardRouter

variable {router : ShardRouter} {args : ScanArgs}

/-- The Region overlaps the range. -/
def overlaps (startKey endKey : Bytes) (region : RegionMetadata) : Bool :=
  !(endKey ≠ [] && endKey ≤ region.startKey) &&
    !(region.endKey ≠ [] && startKey ≠ [] && region.endKey ≤ startKey)

variable (routes : List RegionRoute)

/-- `RegionsInRange` with a cache, which it walks from the Region of the start key on. -/
def cachedInRange (startKey endKey : Bytes) : List RegionRoute :=
  let first := if startKey = [] then routes
    else routes.dropWhile fun route => !route.metadata.contains startKey
  first.takeWhile fun route => endKey = [] || route.metadata.startKey < endKey

section

variable (router)

def regionsInRange (startKey endKey : Bytes) : List RegionRoute :=
  if router.cached then cachedInRange router.routes startKey endKey
  else
    (router.routes.filter fun route => overlaps startKey endKey route.metadata).insertionSort
      fun a b => a.metadata.startKey ≤ b.metadata.startKey

/-- The loop of `Scan`. A storage appends to the entries of the Regions before. -/
def scanRegions (args : ScanArgs) :
    List (Bytes × Bytes) → List RegionRoute → TxnStatus × List (Bytes × Bytes)
  | entries, [] => (.ok, entries)
  | entries, route :: rest =>
    if args.limit ≠ 0 ∧ args.limit ≤ entries.length then (.ok, entries)
    else match args.clip route.metadata with
      | none => scanRegions args entries rest
      | some clip =>
        let remaining := if args.limit = 0 then 0 else args.limit - entries.length
        match route.storage.scan clip.startKey clip.endKey args.readTs remaining entries with
        | (.ok, entries) => scanRegions args entries rest
        | (status, entries) => (status, entries)

/-- `Scan` of a transaction that `CheckActiveAndDeadline` finds in the status `active`. -/
def scan (active : TxnStatus) (args : ScanArgs) : TxnStatus × List (Bytes × Bytes) :=
  if args.endKey ≠ [] ∧ args.endKey ≤ args.startKey then (.storageError, [])
  else if active ≠ .ok then (active, [])
  else scanRegions args [] (router.regionsInRange args.startKey args.endKey)

/-! ## What a scan should return -/

/-- The storage that a key is in. -/
def storageOf (key : Bytes) : MvccStorage :=
  ((router.routes.find? fun route => route.metadata.contains key).map RegionRoute.storage).getD {}

/-- The visible pairs of the range, in order. -/
structure Visible (router : ShardRouter) (args : ScanArgs) (pairs : List (Bytes × Bytes)) : Prop
    where
  ascending : (pairs.map Prod.fst).Pairwise (· < ·)
  mem_iff : ∀ key value, (key, value) ∈ pairs ↔ inRange args.startKey args.endKey key = true ∧
      (router.storageOf key).get key args.readTs = (.ok, some value)

section

variable (args)

/-- The snapshot has no conflicting lock in the range. -/
def Unlocked : Prop :=
  ∀ key, inRange args.startKey args.endKey key = true →
    ((router.storageOf key).get key args.readTs).1 ≠ .lockConflict

/-- The result has the first visible pairs of the range, up to the limit; a range with an end that
is not above its start is refused, with no pair. -/
def ReturnsFirst (result : TxnStatus × List (Bytes × Bytes)) : Prop :=
  ∃ pairs, router.Visible args pairs ∧ result.2 = pairs.take args.limit ∧
    (args.endKey = [] ∨ args.startKey < args.endKey → result.1 = .ok)

/-- How many keys of the range `Get` reads in the Region. -/
def visibleCount (route : RegionRoute) : ℕ :=
  (route.storage.writes.keys.filter fun key =>
    inRange args.startKey args.endKey key && route.metadata.contains key &&
      ((route.storage.get key args.readTs).1 = .ok)).length

/-! ## One Region -/

/-- The pairs that the scan of a Region finds. -/
def visibleIn (route : RegionRoute) : List (Bytes × Bytes) :=
  match args.clip route.metadata with
  | none => []
  | some clip => (route.storage.scanNames clip.startKey clip.endKey).filterMap
      (route.storage.scanEntry args.readTs)

/-- No key of the range is blocked in the Region. -/
def Free (route : RegionRoute) : Prop :=
  ∀ key, inRange args.startKey args.endKey key = true → route.metadata.contains key = true →
    route.storage.scanBlocked key args.readTs = false

end

section

variable {route : RegionRoute}

/-- The scan of the clip meets no lock. -/
lemma Free.scanNames (hfree : Free args route) {clip : Clip}
    (hclip : args.clip route.metadata = some clip) :
    ∀ key ∈ route.storage.scanNames clip.startKey clip.endKey,
      route.storage.scanBlocked key args.readTs = false := by
  intro key hname
  have hkey : clip.contains key = true := (mem_filter.1 (mem_orderedKeys.1 hname)).2
  obtain ⟨hrange, hroute⟩ := ((clipOf_of_clip hclip).contains_iff key).1 hkey
  exact hfree key hrange hroute

lemma visibleIn_ascending (hfree : Free args route) :
    ((visibleIn args route).map Prod.fst).Pairwise (· < ·) := by
  unfold visibleIn
  cases hclip : args.clip route.metadata with
  | none => exact List.Pairwise.nil
  | some clip => exact (reads_scanNames (hfree.scanNames hclip)).ascending

lemma mem_visibleIn (hfree : Free args route) {key value : Bytes} :
    (key, value) ∈ visibleIn args route ↔
      (inRange args.startKey args.endKey key = true ∧ route.metadata.contains key = true) ∧
        route.storage.get key args.readTs = (.ok, some value) := by
  unfold visibleIn
  cases hclip : args.clip route.metadata with
  | none =>
    refine iff_of_false not_mem_nil ?_
    rintro ⟨⟨hrange, hroute⟩, -⟩
    obtain ⟨clip, hsome, -⟩ := exists_clip_of_contains hrange hroute
    rw [hclip] at hsome
    cases hsome
  | some clip =>
    have hreads := reads_scanNames (hfree.scanNames hclip)
    exact (hreads.mem_iff key value).trans
      (and_congr_left' ((clipOf_of_clip hclip).contains_iff key))

lemma keys_nodup {pairs : List (Bytes × Bytes)} (h : (pairs.map Prod.fst).Pairwise (· < ·)) :
    (pairs.map Prod.fst).Nodup := by
  refine h.imp ?_
  rintro a b hab rfl
  exact Std.lt_irrefl hab

lemma length_visibleIn (hfree : Free args route) :
    (visibleIn args route).length = visibleCount args route := by
  have hperm : ((visibleIn args route).map Prod.fst).Perm
      (route.storage.writes.keys.filter fun key =>
        inRange args.startKey args.endKey key && route.metadata.contains key &&
          ((route.storage.get key args.readTs).1 = .ok)) := by
    refine (perm_ext_iff_of_nodup (keys_nodup (visibleIn_ascending hfree)) ?_).2 ?_
    · exact ExtTreeMap.nodup_keys.filter _
    intro key
    simp only [mem_map, Prod.exists, exists_and_right, exists_eq_right, mem_visibleIn hfree,
      mem_filter, Bool.and_eq_true, decide_eq_true_eq, get_fst_ok_iff, ExtTreeMap.mem_keys]
    constructor
    · rintro ⟨value, hin, hget⟩
      exact ⟨mem_of_get_ok hget, hin, value, hget⟩
    · rintro ⟨-, hin, value, hget⟩
      exact ⟨value, hin, hget⟩
  rw [visibleCount, ← hperm.length_eq, length_map]

end

lemma scanRegions_eq {routes : List RegionRoute} (hlimit : args.limit ≠ 0)
    (hfree : ∀ route ∈ routes, Free args route) (entries : List (Bytes × Bytes)) :
    scanRegions args entries routes =
      (.ok, fill args.limit entries (routes.map (visibleIn args))) := by
  induction routes generalizing entries with
  | nil => rfl
  | cons route rest ih =>
    obtain ⟨hroute, hrest⟩ := forall_mem_cons.1 hfree
    rw [scanRegions, map_cons, fill]
    by_cases hfull : args.limit ≤ entries.length
    · rw [if_pos ⟨hlimit, hfull⟩, if_pos hfull]
    rw [if_neg (fun h => hfull h.2), if_neg hfull]
    cases hclip : args.clip route.metadata with
    | none => simp [visibleIn, hclip, ih hrest]
    | some clip =>
      have hbounds : ¬(clip.endKey ≠ [] ∧ clip.endKey ≤ clip.startKey) := by
        have hstart := (inRange_iff.1 (clipOf_of_clip hclip).nonempty).2
        grind
      have hremaining : args.limit - entries.length ≠ 0 := by omega
      dsimp only
      rw [if_neg hlimit, MvccStorage.scan, if_neg hbounds,
        scanKeys_limited entries hremaining (hroute.scanNames hclip)]
      dsimp only
      rw [ih hrest, visibleIn, hclip]

/-! ## The Regions of the range -/

end

lemma owner_unique {route other : RegionRoute} (hroute : route ∈ router.routes)
    (hother : other ∈ router.routes) {key : Bytes} (hkey : route.metadata.contains key = true)
    (hkey' : other.metadata.contains key = true) : other = route := by
  by_contra hne
  have hdisjoint := pairwise_map.1 router.tiles.pairwise
  have hsymm : Std.Symm fun a b : RegionRoute =>
      ∀ k, ¬(a.metadata.range.Contains k ∧ b.metadata.range.Contains k) :=
    ⟨fun _ _ h k hk => h k hk.symm⟩
  exact hdisjoint.forall hother hroute hne key ⟨contains_iff.1 hkey', contains_iff.1 hkey⟩

variable {route : RegionRoute}

lemma storageOf_eq (hroute : route ∈ router.routes) {key : Bytes}
    (hkey : route.metadata.contains key = true) : router.storageOf key = route.storage := by
  unfold storageOf
  cases hfind : router.routes.find? fun route => route.metadata.contains key with
  | none => exact absurd hkey (find?_eq_none.1 hfind route hroute)
  | some other =>
    have hmem := mem_of_find?_eq_some hfind
    rw [owner_unique hroute hmem hkey (by simpa using find?_some hfind)]
    rfl

lemma map_cachedInRange (startKey endKey : Bytes) :
    (cachedInRange routes startKey endKey).map RegionRoute.metadata =
      Txn.regionsInRange (routes.map RegionRoute.metadata) startKey endKey := by
  unfold cachedInRange Txn.regionsInRange
  split_ifs
  · rw [takeWhile_map]
    rfl
  · rw [dropWhile_map, takeWhile_map]
    rfl

lemma cachedInRange_sublist (startKey endKey : Bytes) :
    (cachedInRange routes startKey endKey).Sublist routes := by
  refine (takeWhile_sublist _).trans ?_
  split_ifs
  · exact List.Sublist.refl _
  · exact dropWhile_sublist _

/-- The table is sorted as it is. -/
lemma regionsInRange_table (h : router.cached = false) (startKey endKey : Bytes) :
    router.regionsInRange startKey endKey =
      router.routes.filter fun route => overlaps startKey endKey route.metadata := by
  have hsorted : router.routes.Pairwise fun a b => a.metadata.startKey ≤ b.metadata.startKey :=
    (pairwise_map.1 router.tiles.pairwise_lo).imp Std.le_of_lt
  rw [regionsInRange, h, if_neg (by simp)]
  exact (hsorted.filter _).insertionSort_eq

lemma regionsInRange_sublist (startKey endKey : Bytes) :
    (router.regionsInRange startKey endKey).Sublist router.routes := by
  cases hcached : router.cached with
  | true =>
    rw [regionsInRange, if_pos hcached]
    exact cachedInRange_sublist _ _ _
  | false =>
    rw [regionsInRange_table hcached]
    exact filter_sublist

lemma mem_regionsInRange (hroute : route ∈ router.routes)
    {startKey endKey key : Bytes} (hrange : inRange startKey endKey key = true)
    (hkey : route.metadata.contains key = true) :
    route ∈ router.regionsInRange startKey endKey := by
  cases hcached : router.cached with
  | true =>
    rw [regionsInRange, if_pos hcached]
    have hmem := Txn.mem_regionsInRange router.tiles (mem_map_of_mem hroute) hrange hkey
    rw [← map_cachedInRange] at hmem
    obtain ⟨other, hother, heq⟩ := mem_map.1 hmem
    have hsame := owner_unique hroute ((cachedInRange_sublist _ _ _).subset hother) hkey
      (by rw [heq]; exact hkey)
    rwa [hsame] at hother
  | false =>
    rw [regionsInRange_table hcached]
    refine mem_filter.2 ⟨hroute, ?_⟩
    have hbetween := inRange_iff.1 hrange
    have hregion := region_contains_iff.1 hkey
    simp only [overlaps, Bool.and_eq_true, Bool.not_eq_true', Bool.and_eq_false_imp,
      decide_eq_true_eq, decide_eq_false_iff_not]
    grind

/-! ## The whole scan -/

/-- The pairs of the Regions, one Region after another, are the visible pairs. -/
lemma visible_flatten
    (hfree : ∀ route ∈ router.regionsInRange args.startKey args.endKey, Free args route) :
    router.Visible args
      ((router.regionsInRange args.startKey args.endKey).map (visibleIn args)).flatten := by
  have hordered := (pairwise_map.1 (table_pairwise router.tiles)).sublist
    (regionsInRange_sublist args.startKey args.endKey)
  constructor
  · rw [pairwise_map, pairwise_flatten]
    constructor
    · intro pairs hpairs
      obtain ⟨route, hroute, rfl⟩ := mem_map.1 hpairs
      exact pairwise_map.1 (visibleIn_ascending (hfree route hroute))
    · rw [pairwise_map]
      refine hordered.imp_of_mem ?_
      rintro a b ha hb ⟨hne, hle⟩ ⟨key, value⟩ hkey ⟨key', value'⟩ hkey'
      have hlow := region_contains_iff.1 ((mem_visibleIn (hfree a ha)).1 hkey).1.2
      have hhigh := region_contains_iff.1 ((mem_visibleIn (hfree b hb)).1 hkey').1.2
      grind
  · intro key value
    rw [mem_flatten]
    constructor
    · rintro ⟨pairs, hpairs, hmem⟩
      obtain ⟨route, hroute, rfl⟩ := mem_map.1 hpairs
      obtain ⟨⟨hrange, hkey⟩, hget⟩ := (mem_visibleIn (hfree route hroute)).1 hmem
      rw [storageOf_eq ((regionsInRange_sublist _ _).subset hroute) hkey]
      exact ⟨hrange, hget⟩
    · rintro ⟨hrange, hget⟩
      obtain ⟨region, ⟨hregion, hcontains⟩, -⟩ :=
        router.tiles.existsUnique (k := key) (by simp) (by simp)
      obtain ⟨route, hroute, rfl⟩ := mem_map.1 hregion
      have hkey := contains_iff.2 hcontains
      have hmem := mem_regionsInRange hroute hrange hkey
      rw [storageOf_eq hroute hkey] at hget
      exact ⟨_, mem_map_of_mem hmem, (mem_visibleIn (hfree route hmem)).2 ⟨⟨hrange, hkey⟩, hget⟩⟩

lemma Visible.unique {pairs pairs' : List (Bytes × Bytes)} (h : router.Visible args pairs)
    (h' : router.Visible args pairs') : pairs = pairs' := by
  have hperm : pairs.Perm pairs' := by
    refine (perm_ext_iff_of_nodup (keys_nodup h.ascending).of_map
      (keys_nodup h'.ascending).of_map).2 ?_
    rintro ⟨key, value⟩
    rw [h.mem_iff, h'.mem_iff]
  refine hperm.eq_of_pairwise ?_ (pairwise_map.1 h.ascending) (pairwise_map.1 h'.ascending)
  intro a b _ _ hab hba
  grind

/-- A snapshot without conflicting locks blocks no key of the range. -/
lemma Unlocked.free (h : router.Unlocked args)
    (hroute : route ∈ router.routes) : Free args route := by
  intro key hrange hkey
  have hget := h key hrange
  rw [storageOf_eq hroute hkey, Ne, get_lockConflict_iff] at hget
  simpa using hget

/-- A scan with a limit returns the first visible pairs if and only if what the Regions have fits. -/
theorem scan_returnsFirst_iff (router : ShardRouter) (args : ScanArgs) (hlimit : 0 < args.limit)
    (hunlocked : router.Unlocked args) :
    router.ReturnsFirst args (router.scan .ok args) ↔ Fits args.limit 0
        ((router.regionsInRange args.startKey args.endKey).map (visibleCount args)) := by
  have hfree : ∀ route ∈ router.regionsInRange args.startKey args.endKey, Free args route :=
    fun route hroute => hunlocked.free ((regionsInRange_sublist _ _).subset hroute)
  have hvisible := visible_flatten hfree
  have hcounts : ((router.regionsInRange args.startKey args.endKey).map (visibleIn args)).map
        length = (router.regionsInRange args.startKey args.endKey).map (visibleCount args) := by
    rw [map_map]
    exact map_congr_left fun route hroute => length_visibleIn (hfree route hroute)
  have hfill : fill args.limit []
        ((router.regionsInRange args.startKey args.endKey).map (visibleIn args)) =
      (((router.regionsInRange args.startKey args.endKey).map (visibleIn args)).flatten).take
        args.limit ↔ _ :=
    @fill_eq_take_iff _ args.limit [] _ (keys_nodup hvisible.ascending).of_map (Nat.zero_le _)
  rw [hcounts] at hfill
  by_cases hbounds : args.endKey ≠ [] ∧ args.endKey ≤ args.startKey
  · -- a refused range has no visible pair
    have hnone : router.Visible args [] := ⟨List.Pairwise.nil, by simp [inRange_of_bounds hbounds]⟩
    rw [hvisible.unique hnone, take_nil] at hfill
    refine iff_of_true ⟨[], hnone, by simp [scan, hbounds], ?_⟩ (hfill.1 ?_)
    · grind
    · obtain ⟨later, hlater, hsub⟩ := exists_fill_eq (n := args.limit) []
        ((router.regionsInRange args.startKey args.endKey).map (visibleIn args))
      rw [hvisible.unique hnone] at hsub
      rw [hlater, subset_nil.1 hsub]
      rfl
  have hscan : router.scan .ok args = (.ok, fill args.limit []
      ((router.regionsInRange args.startKey args.endKey).map (visibleIn args))) := by
    rw [scan, if_neg hbounds, if_neg (by simp), scanRegions_eq hlimit.ne' hfree]
  refine Iff.trans ?_ hfill
  rw [hscan]
  constructor
  · rintro ⟨pairs, hpairs, heq, -⟩
    rwa [hpairs.unique hvisible] at heq
  · intro heq
    exact ⟨_, hvisible, heq, fun _ => rfl⟩

/-! ## Two Regions with one key each -/

/-- A transaction writes one key. -/
def writtenStorage (key : Bytes) : MvccStorage :=
  MvccStorage.empty.run [{ command := .prewrite key [7] ⟨[1], one_lt_maxSize⟩ 10 100 false 0 0 0 },
      { command := .commit key 10 20 }]

lemma three_above : ([] : Bytes) < [3] := by decide

def twoRegions : ShardRouter where
  cached := false
  routes :=
    [⟨{ regionId := 1, endKey := [3] }, writtenStorage [1]⟩,
      ⟨{ regionId := 2, startKey := [3] }, writtenStorage [5]⟩]
  tiles := ⟨rfl, [3], rfl, three_above, rfl, rfl, nofun⟩

def twoRegionsArgs (limit : ℕ) : ScanArgs := ⟨[], [], 30, limit⟩

lemma twoRegions_locks : ∀ route ∈ twoRegions.routes, route.storage.locks.isEmpty = true := by
  decide

/-- The transactions have finished. -/
lemma twoRegions_unlocked (args : ScanArgs) : twoRegions.Unlocked args := by
  intro key _
  obtain ⟨region, ⟨hregion, hcontains⟩, -⟩ :=
    twoRegions.tiles.existsUnique (k := key) (by simp) (by simp)
  obtain ⟨route, hroute, rfl⟩ := mem_map.1 hregion
  rw [storageOf_eq hroute (contains_iff.2 hcontains), Ne, get_lockConflict_iff]
  have hempty := ExtTreeMap.isEmpty_iff.1 (twoRegions_locks route hroute)
  simp [scanBlocked, hempty]

theorem scan_returnsFirst_twoRegions :
    twoRegions.ReturnsFirst (twoRegionsArgs 3) (twoRegions.scan .ok (twoRegionsArgs 3)) ∧
      (twoRegions.scan .ok (twoRegionsArgs 3)).2 = [([1], [7]), ([5], [7])] :=
  ⟨(scan_returnsFirst_iff twoRegions (twoRegionsArgs 3) (by decide)
    (twoRegions_unlocked _)).2 (by decide), by decide⟩

/-- Two pairs are visible and two are asked for, but the second Region adds none: the entry of the
first Region fills what the second one is asked for. -/
theorem scan_stops_twoRegions :
    ¬∀ (router : ShardRouter) (args : ScanArgs), 0 < args.limit → router.Unlocked args →
      router.ReturnsFirst args (router.scan .ok args) := by
  intro h
  obtain ⟨pairs, hpairs, hfirst, -⟩ :=
    h twoRegions (twoRegionsArgs 2) (by decide) (twoRegions_unlocked _)
  have hone : ([1], [7]) ∈ pairs := (hpairs.mem_iff _ _).2 (by decide)
  have hfive : ([5], [7]) ∈ pairs := (hpairs.mem_iff _ _).2 (by decide)
  have hscan : (twoRegions.scan .ok (twoRegionsArgs 2)).2 = [([1], [7])] := by decide
  rw [hscan] at hfirst
  have hlength : (pairs.take 2).length = 1 := congrArg length hfirst.symm
  obtain ⟨pair, rfl⟩ : ∃ pair, pairs = [pair] := by
    rw [length_take] at hlength
    exact length_eq_one_iff.1 (by omega)
  rw [← mem_singleton.1 hone] at hfive
  exact absurd hfive (by decide)

end ShardRouter

end StrataKV.Txn
