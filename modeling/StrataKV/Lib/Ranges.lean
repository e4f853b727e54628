import Mathlib.Data.List.Pairwise
import Mathlib.Order.Basic

/-!
# Ranges of keys that tile an interval

A half-open range `[lo, hi)` of an ordered key type, unbounded above where `hi` is `none`. A list of
elements with ranges *tiles* an interval if the ranges follow one another without gap or overlap
from one end to the other. Every key of the interval then lies in exactly one of them, and a search
for the last range that starts at or before the key finds it.
-/

namespace StrataKV

open List

/-! ## Ranges -/

/-- The half-open range from `lo` to `hi`; without `hi` it has no upper end. -/
structure Range (κ : Type) where
  lo : κ
  hi : Option κ

namespace Range

variable {κ α : Type} [LE κ] [LT κ]

/-- The key lies in the range. -/
def Contains (r : Range κ) (k : κ) : Prop := r.lo ≤ k ∧ ∀ h ∈ r.hi, k < h

/-- The ranges of the elements follow one another from `lo` to `hi`, and none is empty. -/
def Tiles (range : α → Range κ) : κ → Option κ → List α → Prop
  | _, _, [] => False
  | lo, hi, [a] => (range a).lo = lo ∧ (range a).hi = hi ∧ ∀ h ∈ hi, lo < h
  | lo, hi, a :: b :: rest =>
    (range a).lo = lo ∧ ∃ mid, (range a).hi = some mid ∧ lo < mid ∧ Tiles range mid hi (b :: rest)

namespace Tiles

variable {range : α → Range κ} {lo k : κ} {hi : Option κ} {l : List α}

omit [LE κ] in
lemma ne_nil (h : Tiles range lo hi l) : l ≠ [] := by
  rintro rfl
  exact h

omit [LE κ] in
lemma map {β : Type} {range' : β → Range κ} {f : α → β} (hf : ∀ a ∈ l, range' (f a) = range a)
    (h : Tiles range lo hi l) : Tiles range' lo hi (l.map f) := by
  induction l generalizing lo with
  | nil => exact h
  | cons a l ih =>
    have ha := hf a mem_cons_self
    cases l with
    | nil =>
      obtain ⟨hlo, hhi, hne⟩ := h
      exact ⟨ha ▸ hlo, ha ▸ hhi, hne⟩
    | cons b rest =>
      obtain ⟨hlo, mid, hhi, hlt, hrest⟩ := h
      have hrest := ih (fun c hc => hf c (mem_cons_of_mem a hc)) hrest
      exact ⟨ha ▸ hlo, mid, ha ▸ hhi, hlt, hrest⟩

omit [LE κ] in
lemma lo_lt (h : Tiles range lo hi l) {a : α} (ha : a ∈ l) : ∀ k ∈ (range a).hi, (range a).lo < k := by
  induction l generalizing lo with
  | nil => cases ha
  | cons b l ih =>
    cases l with
    | nil =>
      obtain ⟨hlo, hhi, hne⟩ := h
      rw [mem_singleton.1 ha, hlo, hhi]
      exact hne
    | cons c rest =>
      obtain ⟨hlo, mid, hhi, hlt, hrest⟩ := h
      rcases mem_cons.1 ha with rfl | ha
      · rw [hlo, hhi]
        rintro k ⟨⟩
        exact hlt
      · exact ih hrest ha

variable [Std.IsLinearOrder κ] [Std.LawfulOrderLT κ]

section

variable (h : Tiles range lo hi l)

include h

/-- No range starts before the interval does. -/
lemma lo_le {a : α} (ha : a ∈ l) : lo ≤ (range a).lo := by
  induction l generalizing lo with
  | nil => cases ha
  | cons b l ih =>
    cases l with
    | nil =>
      obtain ⟨hlo, -⟩ := h
      rw [mem_singleton.1 ha, hlo]
      exact Std.le_refl lo
    | cons c rest =>
      obtain ⟨hlo, mid, -, hlt, hrest⟩ := h
      rcases mem_cons.1 ha with rfl | ha
      · rw [hlo]
        exact Std.le_refl lo
      · have := ih hrest ha
        grind

/-- A range ends before a later one starts. -/
lemma pairwise_hi : l.Pairwise fun a b => ∃ mid, (range a).hi = some mid ∧ mid ≤ (range b).lo := by
  induction l generalizing lo with
  | nil => exact Pairwise.nil
  | cons a l ih =>
    cases l with
    | nil => exact pairwise_singleton _ _
    | cons b rest =>
      obtain ⟨-, mid, hhi, -, hrest⟩ := h
      refine pairwise_cons.2 ⟨?_, ih hrest⟩
      intro c hc
      exact ⟨mid, hhi, lo_le hrest hc⟩

/-- No key lies in two of the ranges. -/
lemma pairwise : l.Pairwise fun a b => ∀ k, ¬((range a).Contains k ∧ (range b).Contains k) := by
  refine h.pairwise_hi.imp ?_
  rintro a b ⟨mid, hhi, hmid⟩ k ⟨⟨-, hka⟩, ⟨hkb, -⟩⟩
  have hlt := hka mid hhi
  grind

lemma pairwise_lo : l.Pairwise fun a b => (range a).lo < (range b).lo := by
  refine h.pairwise_hi.imp_of_mem ?_
  rintro a b ha - ⟨mid, hhi, hmid⟩
  have hlt := h.lo_lt ha mid hhi
  grind

/-- The last range that starts at or before a key of the interval contains the key. -/
lemma getLast?_takeWhile [DecidableLT κ] (hlo : lo ≤ k) (hhi : ∀ h ∈ hi, k < h) :
    ∃ a ∈ l, (l.takeWhile fun a => ¬k < (range a).lo).getLast? = some a ∧ (range a).Contains k := by
  induction l generalizing lo with
  | nil => exact absurd h id
  | cons a l ih =>
    cases l with
    | nil =>
      obtain ⟨ha, hb, -⟩ := h
      have hk : ¬k < (range a).lo := by grind
      refine ⟨a, mem_cons_self, by simp [hk], ?_, ?_⟩
      · rw [ha]
        exact hlo
      · rw [hb]
        exact hhi
    | cons b rest =>
      obtain ⟨ha, mid, hb, -, hrest⟩ := h
      have hk : ¬k < (range a).lo := by grind
      by_cases hmid : k < mid
      · -- the search stops at the second range
        have hstart : (range b).lo = mid := by
          cases rest with
          | nil | cons c rest => exact hrest.1
        refine ⟨a, mem_cons_self, by simp [hk, hstart, hmid], ?_, ?_⟩
        · rw [ha]
          exact hlo
        · intro h hh
          rw [hb, Option.mem_some_iff] at hh
          exact hh ▸ hmid
      · obtain ⟨c, hc, hlast, hcontains⟩ := ih hrest (by grind)
        refine ⟨c, mem_cons_of_mem a hc, ?_, hcontains⟩
        rw [takeWhile_cons_of_pos (by simpa using hk), getLast?_cons, hlast]
        rfl

/-- Every key of the interval lies in exactly one of the ranges. -/
lemma existsUnique [DecidableLT κ] (hlo : lo ≤ k)
    (hhi : ∀ h ∈ hi, k < h) : ∃! a, a ∈ l ∧ (range a).Contains k := by
  obtain ⟨a, ha, -, hcontains⟩ := h.getLast?_takeWhile hlo hhi
  refine ⟨a, ⟨ha, hcontains⟩, ?_⟩
  rintro b ⟨hb, hcontains'⟩
  by_contra hne
  have hsymm : Std.Symm fun a b : α => ∀ k, ¬((range a).Contains k ∧ (range b).Contains k) :=
    ⟨fun _ _ h k hk => h k hk.symm⟩
  exact h.pairwise.forall hb ha hne k ⟨hcontains', hcontains⟩

end

end Tiles

end Range

end StrataKV
