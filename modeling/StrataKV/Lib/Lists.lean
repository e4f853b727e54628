import Mathlib.Data.List.Forall2

/-!
# Lists

Parts of an ordered list, and lists whose elements belong together one by one.
-/

namespace StrataKV

open List

/-! ## Parts of an ordered list -/

section

variable {α : Type} {R : α → α → Prop} {p : α → Bool} {l : List α} {x y : α}

/-- What does not come before an element that fails the test is not dropped. -/
lemma mem_dropWhile_of_pairwise (h : l.Pairwise R) (hx : x ∈ l) (hy : y ∈ l) (hpy : p y = false)
    (hxy : ¬R x y) : x ∈ l.dropWhile p := by
  induction l with
  | nil => cases hx
  | cons a l ih =>
    obtain ⟨ha, hl⟩ := pairwise_cons.1 h
    by_cases hpa : p a = true
    · have hyl : y ∈ l := by
        refine (mem_cons.1 hy).resolve_left ?_
        rintro rfl
        simp [hpy] at hpa
      have hxl : x ∈ l := by
        refine (mem_cons.1 hx).resolve_left ?_
        rintro rfl
        exact hxy (ha y hyl)
      rw [dropWhile_cons_of_pos hpa]
      exact ih hl hxl hyl
    · rw [dropWhile_cons_of_neg hpa]
      exact hx

/-- An element is taken if it passes the test and so does what comes before it. -/
lemma mem_takeWhile_of_pairwise (h : l.Pairwise R) (hx : x ∈ l) (hpx : p x = true)
    (hbefore : ∀ y, R y x → p y = true) : x ∈ l.takeWhile p := by
  induction l with
  | nil => cases hx
  | cons a l ih =>
    obtain ⟨ha, hl⟩ := pairwise_cons.1 h
    rcases mem_cons.1 hx with rfl | hxl
    · rw [takeWhile_cons_of_pos hpx]
      exact mem_cons_self
    · rw [takeWhile_cons_of_pos (hbefore a (ha x hxl))]
      exact mem_cons_of_mem a (ih hl hxl)

end

/-! ## Element by element -/

lemma exists_of_forall₂ {α β : Type} {R : α → β → Prop} {l : List α} {results : List β}
    (h : List.Forall₂ R l results) {b : β} (hb : b ∈ results) : ∃ a ∈ l, R a b := by
  rw [← map_snd_zip (Nat.le_of_eq h.length_eq.symm)] at hb
  obtain ⟨⟨a, b⟩, hmem, rfl⟩ := mem_map.1 hb
  exact ⟨a, (of_mem_zip hmem).1, forall₂_zip h hmem⟩

lemma forall₂_of_mapM {α β : Type} {f : α → Option β} {l : List α} {results : List β}
    (h : l.mapM f = some results) : List.Forall₂ (fun a b => f a = some b) l results := by
  induction l generalizing results with
  | nil =>
    cases h
    exact .nil
  | cons a rest ih =>
    rw [mapM_cons] at h
    obtain ⟨first, hfirst, h⟩ := Option.bind_eq_some_iff.1 h
    obtain ⟨more, hrest, h⟩ := Option.bind_eq_some_iff.1 h
    cases h
    exact .cons hfirst (ih hrest)

end StrataKV
