import Mathlib.Logic.Relation

/-!
# Transition systems and their invariants

A transition system has initial states and labelled steps. Every safety result of the
development is an induction over its runs, which is packaged here once:

- `Reaches G s t` — a run from `s` to `t` all of whose steps meet the guard `G`;
- `Reachable G s` — such a run from an initial state;
- `Reachable.invariant` — what holds initially and is kept by every guarded step
  holds in every reachable state;
- `Reaches.stable` — what is kept by every guarded step from a state stays true along a run.
-/

namespace StrataKV

/-- A labelled transition system over states `σ` with step labels `α`. -/
structure TransitionSystem (σ α : Type*) where
  init : σ → Prop
  step : σ → α → σ → Prop

namespace TransitionSystem

variable {σ α : Type*} (S : TransitionSystem σ α)

/-- The system whose steps are the graph of a total step function. -/
def ofFun (init : σ) (next : σ → α → σ) : TransitionSystem σ α where
  init := fun s => s = init
  step := fun s a t => t = next s a

/-- The system whose steps are those of a step function that are enabled. -/
def ofEnabled (init : σ) (enabled : σ → α → Prop) (next : σ → α → σ) : TransitionSystem σ α where
  init := fun s => s = init
  step := fun s a t => enabled s a ∧ t = next s a

/-- The system whose steps are those on which a partial step function is defined. -/
def ofPartial (init : σ) (next : σ → α → Option σ) : TransitionSystem σ α where
  init := fun s => s = init
  step := fun s a t => next s a = some t

/-- `S.Reaches G s t`: some run leads from `s` to `t`, each of its steps meeting `G`. -/
inductive Reaches (G : σ → α → Prop) (s : σ) : σ → Prop
  | refl : Reaches G s s
  | tail {t u : σ} {a : α} : Reaches G s t → G t a → S.step t a u → Reaches G s u

/-- `S.Reachable G s`: a guarded run leads from an initial state to `s`. -/
def Reachable (G : σ → α → Prop) (s : σ) : Prop := ∃ s₀, S.init s₀ ∧ S.Reaches G s₀ s

/-- No guard: every step of the system may be taken. -/
def anyStep : σ → α → Prop := fun _ _ => True

instance (s : σ) (a : α) : Decidable (anyStep s a) := isTrue trivial

variable {S}

namespace Reaches

variable {G H : σ → α → Prop} {s t u : σ} {I : σ → Prop}

lemma trans (h₁ : S.Reaches G s t) (h₂ : S.Reaches G t u) : S.Reaches G s u := by
  induction h₂ with
  | refl => exact h₁
  | tail _ hG hstep ih => exact .tail ih hG hstep

lemma single {a : α} (hG : G s a) (hstep : S.step s a t) : S.Reaches G s t := .tail .refl hG hstep

/-- A weaker guard allows more. -/
lemma mono (hGH : ∀ s a, G s a → H s a) (h : S.Reaches G s t) : S.Reaches H s t := by
  induction h with
  | refl => exact .refl
  | tail _ hG hstep ih => exact .tail ih (hGH _ _ hG) hstep

/-- A predicate kept by every guarded step stays true along a run. -/
theorem stable (h : S.Reaches G s t)
    (hstep : ∀ s a t, I s → G s a → S.step s a t → I t) (hs : I s) : I t := by
  induction h with
  | refl => exact hs
  | tail _ hG hst ih => exact hstep _ _ _ ih hG hst

end Reaches

namespace Reachable

variable {G : σ → α → Prop} {s t : σ} {I : σ → Prop}

lemma initial (h : S.init s) : S.Reachable G s := ⟨s, h, .refl⟩

lemma reaches (h : S.Reachable G s) (hst : S.Reaches G s t) : S.Reachable G t := by
  obtain ⟨s₀, h₀, hrun⟩ := h
  exact ⟨s₀, h₀, hrun.trans hst⟩

lemma tail {a : α} (h : S.Reachable G s) (hG : G s a) (hstep : S.step s a t) : S.Reachable G t :=
  h.reaches (.single hG hstep)

/-- What holds initially and is kept by every guarded step holds in every reachable state. -/
theorem invariant (h : S.Reachable G s) (hinit : ∀ s, S.init s → I s)
    (hstep : ∀ s a t, I s → G s a → S.step s a t → I t) : I s := by
  obtain ⟨s₀, h₀, hrun⟩ := h
  exact hrun.stable hstep (hinit s₀ h₀)

end Reachable

/-! ## Runs of a step function -/

section

variable {next : σ → α → σ} {G : σ → α → Prop} {s init : σ}

/-- Every step of the list meets `G` in the state it is taken in. -/
def Guarded (next : σ → α → σ) (G : σ → α → Prop) : σ → List α → Prop
  | _, [] => True
  | s, a :: steps => G s a ∧ Guarded next G (next s a) steps

instance decidableGuarded (next : σ → α → σ) (G : σ → α → Prop) [∀ s a, Decidable (G s a)] :
    ∀ s steps, Decidable (Guarded next G s steps)
  | _, [] => isTrue trivial
  | s, a :: steps =>
    have := decidableGuarded next G (next s a) steps
    inferInstanceAs (Decidable (_ ∧ _))

variable {steps : List α}

lemma Guarded.of_forall (h : ∀ s, ∀ a ∈ steps, G s a) : Guarded next G s steps := by
  induction steps generalizing s with
  | nil => trivial
  | cons a steps ih =>
    refine ⟨h s a List.mem_cons_self, ih ?_⟩
    intro s b hb
    exact h s b (List.mem_cons_of_mem a hb)

/-- A list of steps that meet the guard is a run. -/
lemma Guarded.reaches (h : Guarded next G s steps) :
    (ofFun init next).Reaches G s (steps.foldl next s) := by
  induction steps generalizing s with
  | nil => exact .refl
  | cons a steps ih => exact (Reaches.single h.1 rfl).trans (ih h.2)

lemma Guarded.reachable_enabled {enabled : σ → α → Prop}
    (h : Guarded next (fun s a => enabled s a ∧ G s a) init steps) :
    (ofEnabled init enabled next).Reachable G (steps.foldl next init) := by
  have hrun (steps : List α) (s : σ) (h : Guarded next (fun s a => enabled s a ∧ G s a) s steps) :
      (ofEnabled init enabled next).Reaches G s (steps.foldl next s) := by
    induction steps generalizing s with
    | nil => exact .refl
    | cons a steps ih =>
      have hfirst : (ofEnabled init enabled next).Reaches G s (next s a) :=
        .single h.1.2 ⟨h.1.1, rfl⟩
      exact hfirst.trans (ih _ h.2)
  exact (Reachable.initial rfl).reaches (hrun steps init h)

/-- A list of steps from the start leads to a reachable state. -/
lemma Guarded.reachable (h : Guarded next G init steps) :
    (ofFun init next).Reachable G (steps.foldl next init) :=
  (Reachable.initial rfl).reaches h.reaches

end

/-! ## Runs of a partial step function -/

section

variable {next : σ → α → Option σ} {G : σ → α → Prop} {s t init : σ}

/-- Every step of the list is defined and meets `G` in the state it is taken in, and the run
ends in a state with `P`. -/
def Ends (next : σ → α → Option σ) (G : σ → α → Prop) (P : σ → Prop) : σ → List α → Prop
  | s, [] => P s
  | s, a :: steps =>
    G s a ∧ match next s a with
      | none => False
      | some t => Ends next G P t steps

instance decidableEnds (next : σ → α → Option σ) (G : σ → α → Prop) (P : σ → Prop)
    [∀ s a, Decidable (G s a)] [∀ s, Decidable (P s)] :
    ∀ s steps, Decidable (Ends next G P s steps)
  | s, [] => inferInstanceAs (Decidable (P s))
  | s, a :: steps =>
    match h : next s a with
    | none => isFalse (by simp [Ends, h])
    | some t =>
      have := decidableEnds next G P t steps
      decidable_of_iff (G s a ∧ Ends next G P t steps) (by simp [Ends, h])

lemma Ends.exists_reaches {P : σ → Prop} {steps : List α} (h : Ends next G P s steps) :
    ∃ t, (ofPartial init next).Reaches G s t ∧ P t := by
  induction steps generalizing s with
  | nil => exact ⟨s, .refl, h⟩
  | cons a steps ih =>
    obtain ⟨hG, hrest⟩ := h
    cases hnext : next s a with
    | none => simp [hnext] at hrest
    | some u =>
      simp only [hnext] at hrest
      obtain ⟨t, hrun, ht⟩ := ih hrest
      have hfirst : (ofPartial init next).Reaches G s u := .single hG hnext
      exact ⟨t, hfirst.trans hrun, ht⟩

lemma Ends.exists_reachable {P : σ → Prop} {steps : List α} (h : Ends next G P init steps) :
    ∃ t, (ofPartial init next).Reachable G t ∧ P t := by
  obtain ⟨t, hrun, ht⟩ : ∃ t, (ofPartial init next).Reaches G init t ∧ P t := h.exists_reaches
  exact ⟨t, (Reachable.initial rfl).reaches hrun, ht⟩

end

end TransitionSystem

end StrataKV
