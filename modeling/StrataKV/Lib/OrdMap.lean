import Mathlib.Data.List.Basic
import Mathlib.Order.Basic
import Std.Data.ExtTreeMap

/-!
# Searching an ordered map

`std::map` is walked in the order of its keys. On the model side such a walk is a search in
`toList`; the lemmas here turn it into a statement about lookups, so that no proof about a walk
has to speak about lists.
-/

namespace StrataKV.OrdMap

open List

open Std (ExtTreeMap TransOrd LawfulEqOrd LawfulOrderOrd LawfulOrderLT compare_eq_lt)
open Std.ExtTreeMap (mem_toList_iff_getElem?_eq_some)

variable {κ β : Type} [Ord κ] [TransOrd κ] [LawfulEqOrd κ] (m : ExtTreeMap κ β compare)

lemma getElem?_insert [DecidableEq κ] (k k' : κ) (v : β) :
    (m.insert k v)[k']? = if k = k' then some v else m[k']? := by
  simp [ExtTreeMap.getElem?_insert]

/-- An entry after an insertion is the inserted one or was there before. -/
lemma insert_cases {m : ExtTreeMap κ β compare} {k k' : κ} {v w : β}
    (h : (m.insert k v)[k']? = some w) : k = k' ∧ v = w ∨ m[k']? = some w := by
  rw [ExtTreeMap.getElem?_insert] at h
  split_ifs at h with heq
  · exact .inl ⟨Std.LawfulEqCmp.eq_of_compare heq, Option.some.inj h⟩
  · exact .inr h

lemma of_getElem?_erase {m : ExtTreeMap κ β compare} {k k' : κ} {v : β}
    (h : (m.erase k)[k']? = some v) : k ≠ k' ∧ m[k']? = some v := by
  rw [ExtTreeMap.getElem?_erase] at h
  split_ifs at h with hne
  exact ⟨by simpa using hne, h⟩

omit [LawfulEqOrd κ] in
lemma contains_eq_false_iff (k : κ) : m.contains k = false ↔ m[k]? = none := by
  rw [ExtTreeMap.contains_eq_isSome_getElem?, Option.isSome_eq_false_iff, Option.isNone_iff_eq_none]

lemma any_toList (p : κ × β → Bool) :
    m.toList.any p = true ↔ ∃ k v, m[k]? = some v ∧ p (k, v) = true := by
  rw [any_eq_true]
  constructor
  · rintro ⟨⟨k, v⟩, hmem, hp⟩
    exact ⟨k, v, mem_toList_iff_getElem?_eq_some.1 hmem, hp⟩
  · rintro ⟨k, v, hget, hp⟩
    exact ⟨(k, v), mem_toList_iff_getElem?_eq_some.2 hget, hp⟩

lemma any_toList_eq_false (p : κ × β → Bool) :
    m.toList.any p = false ↔ ∀ k v, m[k]? = some v → p (k, v) = false := by
  rw [← Bool.not_eq_true, any_toList]
  grind

lemma find?_toList_eq_none (p : κ × β → Bool) :
    m.toList.find? p = none ↔ ∀ k v, m[k]? = some v → p (k, v) = false := by
  rw [find?_eq_none]
  constructor
  · intro h k v hget
    simpa using h (k, v) (mem_toList_iff_getElem?_eq_some.2 hget)
  · rintro h ⟨k, v⟩ hmem
    simpa using h k v (mem_toList_iff_getElem?_eq_some.1 hmem)

variable {p : κ × β → Bool} {k : κ} {v : β}

lemma find?_toList_eq_some
    (h : m.toList.find? p = some (k, v)) : m[k]? = some v ∧ p (k, v) = true :=
  ⟨mem_toList_iff_getElem?_eq_some.1 (mem_of_find?_eq_some h), find?_some h⟩

lemma find?_reverse_toList_eq_none :
    m.toList.reverse.find? p = none ↔ ∀ k v, m[k]? = some v → p (k, v) = false := by
  simp only [← find?_toList_eq_none, find?_eq_none, mem_reverse]

/-- A walk that passes over the entries without the property sees the same in two maps that have the
same entries with it. -/
lemma filter_toList_congr {m m' : ExtTreeMap κ β compare}
    (h : ∀ k v, p (k, v) = true → (m[k]? = some v ↔ m'[k]? = some v)) :
    m.toList.filter p = m'.toList.filter p := by
  have hsorted (m : ExtTreeMap κ β compare) :
      (m.toList.filter p).Pairwise fun a b => compare a.1 b.1 = .lt :=
    ExtTreeMap.ordered_keys_toList.filter p
  have hnodup (m : ExtTreeMap κ β compare) : (m.toList.filter p).Nodup := by
    refine (hsorted m).imp ?_
    rintro a b hlt rfl
    rw [Std.compare_self] at hlt
    cases hlt
  have hperm : (m.toList.filter p).Perm (m'.toList.filter p) := by
    refine (perm_ext_iff_of_nodup (hnodup m) (hnodup m')).2 ?_
    rintro ⟨k, v⟩
    simp only [mem_filter, mem_toList_iff_getElem?_eq_some]
    exact and_congr_left (h k v)
  refine hperm.eq_of_pairwise (fun a b _ _ hab hba => ?_) (hsorted m) (hsorted m')
  rw [Std.OrientedCmp.gt_iff_lt.2 hab] at hba
  cases hba

section

variable [LE κ] [LT κ] [LawfulOrderLT κ] [LawfulOrderOrd κ]

omit [LawfulEqOrd κ] in
lemma pairwise_toList : m.toList.Pairwise fun a b => a.1 < b.1 :=
  ExtTreeMap.ordered_keys_toList.imp fun h => compare_eq_lt.1 h

/-- A search from the end finds the greatest key with the property. -/
lemma find?_reverse_toList_eq_some :
    m.toList.reverse.find? p = some (k, v) ↔ m[k]? = some v ∧ p (k, v) = true ∧
        ∀ k' v', m[k']? = some v' → p (k', v') = true → k' ≤ k := by
  have hpair := pairwise_toList m
  constructor
  · intro h
    obtain ⟨hp, as, bs, hlist, hnone⟩ := find?_eq_some_iff_append.1 h
    have hl : m.toList = bs.reverse ++ (k, v) :: as.reverse := by
      have := congrArg reverse hlist
      simpa using this
    rw [hl] at hpair
    obtain ⟨-, hk, hbs⟩ := pairwise_append.1 hpair
    refine ⟨mem_toList_iff_getElem?_eq_some.1 (by simp [hl]), hp, ?_⟩
    intro k' v' hget hp'
    have hmem : (k', v') ∈ m.toList := mem_toList_iff_getElem?_eq_some.2 hget
    rw [hl] at hmem
    rcases mem_append.1 hmem with hmem | hmem
    · exact Std.le_of_lt (hbs _ hmem (k, v) mem_cons_self)
    · rcases mem_cons.1 hmem with heq | hmem
      · rw [(Prod.mk.inj heq).1]
        exact Std.le_refl k
      · have := hnone (k', v') (mem_reverse.1 hmem)
        simp [hp'] at this
  · rintro ⟨hget, hp, hmax⟩
    have hmem : (k, v) ∈ m.toList := mem_toList_iff_getElem?_eq_some.2 hget
    obtain ⟨pre, post, hl⟩ := append_of_mem hmem
    rw [hl] at hpair ⊢
    have hpost := (pairwise_cons.1 (pairwise_append.1 hpair).2.1).1
    refine find?_eq_some_iff_append.2 ⟨hp, post.reverse, pre.reverse, by simp, ?_⟩
    rintro ⟨k', v'⟩ hmem'
    have hmem' := mem_reverse.1 hmem'
    have hlt : k < k' := hpost _ hmem'
    have hget' : m[k']? = some v' := mem_toList_iff_getElem?_eq_some.1 (by simp [hl, hmem'])
    by_contra hp'
    exact absurd (hmax k' v' hget' (by simpa using hp')) (Std.not_le.2 hlt)

/-- A search from the front finds the least key with the property. -/
lemma le_of_find?_toList
    (h : m.toList.find? p = some (k, v)) {k' : κ} {v' : β} (hget : m[k']? = some v')
    (hp : p (k', v') = true) : k ≤ k' := by
  obtain ⟨-, as, bs, hlist, hnone⟩ := find?_eq_some_iff_append.1 h
  have hpair := pairwise_toList m
  have hmem : (k', v') ∈ m.toList := mem_toList_iff_getElem?_eq_some.2 hget
  rw [hlist] at hpair hmem
  have hafter := (pairwise_cons.1 (pairwise_append.1 hpair).2.1).1
  rcases mem_append.1 hmem with hbefore | hmem
  · have hfails := hnone (k', v') hbefore
    simp [hp] at hfails
  · rcases mem_cons.1 hmem with heq | hmem
    · rw [(Prod.mk.inj heq).1]
      exact Std.le_refl k
    · exact Std.le_of_lt (hafter _ hmem)

/-- A search finds the same in a map that has lost other entries only. -/
lemma find?_toList_of_subset {m m' : ExtTreeMap κ β compare}
    (hsub : ∀ (k : κ) (v : β), m'[k]? = some v → m[k]? = some v) (h : m.toList.find? p = some (k, v))
    (hget : m'[k]? = some v) : m'.toList.find? p = some (k, v) := by
  have hp := (find?_toList_eq_some m h).2
  cases hfind : m'.toList.find? p with
  | none =>
    have hfails := (find?_toList_eq_none m' p).1 hfind k v hget
    rw [hp] at hfails
    cases hfails
  | some found =>
    obtain ⟨k', v'⟩ := found
    obtain ⟨hget', hp'⟩ := find?_toList_eq_some m' hfind
    have hle := le_of_find?_toList m' hfind hget hp
    have hge := le_of_find?_toList m h (hsub k' v' hget') hp'
    obtain rfl : k' = k := Std.le_antisymm hle hge
    rw [Option.some.inj (hget.symm.trans hget')]

end

/-! ## Walks -/

section

variable {S γ : Type} {step : S → γ → S} (P : S → Prop) (view : S → Option β) (sets : γ → Option β)
  {items : List γ}

section

variable (hstep : ∀ s, P s → ∀ x ∈ items, P (step s x) ∧ view (step s x) = (sets x).or (view s))

include hstep

/-- A walk whose steps set a value, always the same one, or leave it. `P` is what every step keeps. -/
lemma view_foldl_of_mem {x : γ} (hx : x ∈ items) {b : β} (hb : sets x = some b)
    (huniq : ∀ y ∈ items, ∀ b', sets y = some b' → b' = b) {s : S} (hs : P s) :
    view (items.foldl step s) = some b := by
  -- once the value is set, it stays
  have hkept (rest : List γ) (hsub : ∀ y ∈ rest, y ∈ items) (s : S) (hs : P s)
      (hset : view s = some b) : view (rest.foldl step s) = some b := by
    induction rest generalizing s with
    | nil => exact hset
    | cons y rest ih =>
      have hy := hsub y mem_cons_self
      obtain ⟨hnext, hview⟩ := hstep s hs y hy
      refine ih (fun z hz => hsub z (mem_cons_of_mem _ hz)) _ hnext ?_
      rw [hview, hset]
      cases hsets : sets y with
      | none => rfl
      | some b' => rw [huniq y hy b' hsets, Option.some_or]
  have hwalk (rest : List γ) (hsub : ∀ y ∈ rest, y ∈ items) (hx : x ∈ rest) (s : S) (hs : P s) :
      view (rest.foldl step s) = some b := by
    induction rest generalizing s with
    | nil => simp at hx
    | cons y rest ih =>
      have hy := hsub y mem_cons_self
      have hsub' : ∀ z ∈ rest, z ∈ items := fun z hz => hsub z (mem_cons_of_mem _ hz)
      obtain ⟨hnext, hview⟩ := hstep s hs y hy
      rcases mem_cons.1 hx with rfl | hx
      · refine hkept rest hsub' _ hnext ?_
        rw [hview, hb, Option.some_or]
      · exact ih hsub' hx _ hnext
  exact hwalk items (fun _ hy => hy) hx s hs

lemma view_foldl_of_none (hnone : ∀ y ∈ items, sets y = none) {s : S} (hs : P s) :
    view (items.foldl step s) = view s := by
  induction items generalizing s with
  | nil => rfl
  | cons y rest ih =>
    obtain ⟨hnext, hview⟩ := hstep s hs y mem_cons_self
    have hrest := ih (fun s hs x hx => hstep s hs x (mem_cons_of_mem _ hx))
      (fun z hz => hnone z (mem_cons_of_mem _ hz)) hnext
    rw [foldl_cons, hrest, hview, hnone y mem_cons_self, Option.none_or]

/-- A walk from nothing ends with what its items say. -/
lemma view_foldl_eq
    {target : Option β} (hsets : ∀ x ∈ items, ∀ b, sets x = some b → target = some b)
    (htarget : ∀ b, target = some b → ∃ x ∈ items, sets x = some b) {s : S} (hs : P s)
    (hview : view s = none) : view (items.foldl step s) = target := by
  cases htargets : target with
  | none =>
    rw [view_foldl_of_none P view sets hstep _ hs, hview]
    intro y hy
    cases hb : sets y with
    | none => rfl
    | some b =>
      rw [hsets y hy b hb] at htargets
      cases htargets
  | some b =>
    obtain ⟨x, hx, hb⟩ := htarget b htargets
    refine view_foldl_of_mem P view sets hstep hx hb ?_ hs
    intro y hy b' hb'
    have := hsets y hy b' hb'
    rw [htargets] at this
    exact (Option.some.inj this).symm

end

lemma foldl_keeps (hstep : ∀ s, P s → ∀ x ∈ items, P (step s x)) {s : S} (hs : P s) :
    P (items.foldl step s) := by
  induction items generalizing s with
  | nil => exact hs
  | cons y rest ih =>
    exact ih (fun s hs x hx => hstep s hs x (mem_cons_of_mem _ hx)) (hstep s hs y mem_cons_self)

end

/-! ## Removing entries -/

/-- The map without the keys that satisfy `p`, erased one after another. -/
def eraseWhere (p : κ → Bool) : ExtTreeMap κ β compare :=
  m.toList.foldl (fun m item => if p item.1 then m.erase item.1 else m) m

lemma getElem?_eraseWhere (p : κ → Bool) (k : κ) :
    (eraseWhere m p)[k]? = if p k then none else m[k]? := by
  classical
  -- what a walk over some entries leaves of a key
  have hwalk (items : List (κ × β)) (m : ExtTreeMap κ β compare) :
      (items.foldl (fun m item => if p item.1 then m.erase item.1 else m) m)[k]? =
        if p k ∧ ∃ item ∈ items, item.1 = k then none else m[k]? := by
    induction items generalizing m with
    | nil => simp
    | cons item rest ih =>
      rw [foldl_cons, ih]
      by_cases hk : item.1 = k
      · subst hk
        by_cases hp : p item.1 = true <;> simp [hp]
      · by_cases hp : p item.1 = true <;> simp [hp, hk, ExtTreeMap.getElem?_erase]
  unfold eraseWhere
  rw [hwalk]
  by_cases hp : p k = true
  · cases hget : m[k]? with
    | none => simp [hp]
    | some v =>
      have hmem := mem_toList_iff_getElem?_eq_some.2 hget
      rw [if_pos ⟨hp, (k, v), hmem, rfl⟩, if_pos hp]
  · simp [hp]

lemma getElem?_foldl_erase [DecidableEq κ] (keys : List κ) (k : κ) :
    (keys.foldl (fun m key => m.erase key) m)[k]? = if k ∈ keys then none else m[k]? := by
  induction keys generalizing m with
  | nil => simp
  | cons key keys ih =>
    rw [foldl_cons, ih, ExtTreeMap.getElem?_erase]
    by_cases hkey : key = k
    · simp [hkey]
    · simp [hkey, Ne.symm hkey]

/-! ## Collecting entries -/

/-- The loop that puts entries under their keys; `none` if one is not valid or its key is taken. -/
def emplaceAll (key : β → κ) (valid : β → Bool) :
    ExtTreeMap κ β compare → List β → Option (ExtTreeMap κ β compare)
  | m, [] => some m
  | m, b :: rest =>
    if valid b && !m.contains (key b) then emplaceAll key valid (m.insert (key b) b) rest else none

variable {m} {key : β → κ} {valid : β → Bool} {entries : List β}

/-- The map has the entries it had and those that were put in. -/
lemma getElem?_emplaceAll {m' : ExtTreeMap κ β compare}
    (h : emplaceAll key valid m entries = some m') (k : κ) (b : β) :
    m'[k]? = some b ↔ m[k]? = some b ∨ b ∈ entries ∧ key b = k := by
  classical
  induction entries generalizing m with
  | nil =>
    cases h
    simp
  | cons first rest ih =>
    rw [emplaceAll] at h
    split at h
    · rename_i hfirst
      have hfree : m[key first]? = none :=
        (contains_eq_false_iff m _).1 (Bool.not_eq_true' _ ▸ (Bool.and_eq_true_iff.1 hfirst).2)
      rw [ih h, getElem?_insert, mem_cons]
      by_cases hk : key first = k
      · subst hk
        grind
      · grind
    · cases h

/-- Valid entries with different keys, none of which is taken, can be put in. -/
lemma emplaceAll_isSome (hvalid : ∀ b ∈ entries, valid b = true)
    (hkeys : (entries.map key).Nodup) (hfree : ∀ b ∈ entries, m[key b]? = none) :
    ∃ m', emplaceAll key valid m entries = some m' := by
  classical
  induction entries generalizing m with
  | nil => exact ⟨m, rfl⟩
  | cons first rest ih =>
    obtain ⟨hfirst, hrest⟩ := forall_mem_cons.1 hvalid
    obtain ⟨hfreeFirst, hfreeRest⟩ := forall_mem_cons.1 hfree
    rw [map_cons, nodup_cons] at hkeys
    rw [emplaceAll, hfirst, (contains_eq_false_iff m _).2 hfreeFirst]
    refine ih hrest hkeys.2 ?_
    intro b hb
    rw [getElem?_insert, if_neg, hfreeRest b hb]
    intro heq
    exact hkeys.1 (heq ▸ mem_map_of_mem hb)

/-- The entries of a map, put in one after another, give the map back. -/
lemma emplaceAll_toList (h : ∀ (k : κ) (b : β), m[k]? = some b → key b = k ∧ valid b = true) :
    emplaceAll key valid ∅ (m.toList.map Prod.snd) = some m := by
  have hmem {b : β} : b ∈ m.toList.map Prod.snd ↔ ∃ k : κ, m[k]? = some b := by
    rw [mem_map]
    constructor
    · rintro ⟨⟨k, _⟩, hitem, rfl⟩
      exact ⟨k, mem_toList_iff_getElem?_eq_some.1 hitem⟩
    · rintro ⟨k, hget⟩
      exact ⟨(k, b), mem_toList_iff_getElem?_eq_some.2 hget, rfl⟩
  have hkeys : (m.toList.map Prod.snd).map key = m.toList.map Prod.fst := by
    rw [map_map]
    refine map_congr_left ?_
    rintro ⟨k, b⟩ hitem
    exact (h k b (mem_toList_iff_getElem?_eq_some.1 hitem)).1
  have hnodup : (m.toList.map Prod.fst).Nodup := by
    rw [ExtTreeMap.map_fst_toList_eq_keys]
    exact ExtTreeMap.nodup_keys
  obtain ⟨m', hm'⟩ : ∃ m', emplaceAll key valid ∅ (m.toList.map Prod.snd) = some m' := by
    refine emplaceAll_isSome ?_ (hkeys ▸ hnodup) (by simp)
    intro b hb
    obtain ⟨k, hget⟩ := hmem.1 hb
    exact (h k b hget).2
  rw [hm']
  refine congrArg some (ExtTreeMap.ext_getElem? fun k => Option.ext fun b => ?_)
  rw [getElem?_emplaceAll hm', hmem]
  constructor
  · rintro (hempty | ⟨⟨k', hget⟩, hk⟩)
    · simp at hempty
    · rw [← hk, (h k' b hget).1, hget]
  · intro hget
    exact Or.inr ⟨⟨k, hget⟩, (h k b hget).1⟩

end StrataKV.OrdMap
