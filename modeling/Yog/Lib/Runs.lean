import Mathlib.Data.List.Infix

/-!
# Runs of a labelled transition system

A run goes from a state to another by steps, and has the list of their labels. What every step
keeps, every run keeps (`Run.invariant`); a run whose steps are all of one kind is a run of the
smaller system (`Run.mono`).

Where the labels are operations of a program that goes on or fails, a property holds at every point
of a run exactly as long as no operation is met that breaks it (`prefixes_iff`).

An observer has a state of its own, which it updates at every step from what it sees
(`Observed`). It stops no run (`Run.observe`).
-/

namespace Yog

/-- A run, with the labels of its steps in order. -/
inductive Run {σ ε : Type*} (step : σ → ε → σ → Prop) : σ → List ε → σ → Prop where
  | nil (s : σ) : Run step s [] s
  | cons {s t u : σ} {e : ε} {es : List ε} :
    step s e t → Run step t es u → Run step s (e :: es) u

/-- The steps of a system that meet a condition. -/
def Only {σ ε : Type*} (ok : σ → ε → Prop) (step : σ → ε → σ → Prop) (s : σ) (e : ε) (s' : σ) :
    Prop :=
  ok s e ∧ step s e s'

/-- The steps of a system beside an observer, who takes notes of each. -/
def Observed {σ ε γ : Type*} (note : σ → ε → σ → γ → γ) (step : σ → ε → σ → Prop) (s : σ × γ) (e : ε)
    (s' : σ × γ) : Prop :=
  step s.1 e s'.1 ∧ s'.2 = note s.1 e s'.1 s.2

namespace Run

variable {σ ε : Type*} {step step' : σ → ε → σ → Prop} {s s' s'' : σ} {es es' : List ε} {e : ε}

theorem single (h : step s e s') : Run step s [e] s' := .cons h (.nil s')

theorem append (h₁ : Run step s es s') (h₂ : Run step s' es' s'') :
    Run step s (es ++ es') s'' := by
  induction h₁ with
  | nil s => exact h₂
  | cons h _ ih => exact .cons h (ih h₂)

theorem snoc (h₁ : Run step s es s') (h₂ : step s' e s'') : Run step s (es ++ [e]) s'' :=
  h₁.append (single h₂)

theorem mono (hm : ∀ s e s', step s e s' → step' s e s') (h : Run step s es s') :
    Run step' s es s' := by
  induction h with
  | nil s => exact .nil s
  | cons h _ ih => exact .cons (hm _ _ _ h) ih

/-- What every step keeps, every run keeps. -/
theorem invariant {I : σ → Prop} (hI : ∀ s e s', I s → step s e s' → I s')
    (h : Run step s es s') (hs : I s) : I s' := by
  induction h with
  | nil s => exact hs
  | cons h _ ih => exact ih (hI _ _ _ hs h)

/-- A run of a system in which a state has no step ends there if it starts there. -/
theorem eq_of_stuck (hs : ∀ e s', ¬step s e s') (h : Run step s es s') : es = [] ∧ s' = s := by
  cases h with
  | nil => exact ⟨rfl, rfl⟩
  | cons h _ => exact absurd h (hs _ _)

theorem observe {γ : Type*} (note : σ → ε → σ → γ → γ) (h : Run step s es s') (g : γ) :
    ∃ g', Run (Observed note step) (s, g) es (s', g') := by
  induction h generalizing g with
  | nil s => exact ⟨g, .nil _⟩
  | cons h _ ih =>
    obtain ⟨g', hr⟩ := ih (note _ _ _ g)
    exact ⟨g', .cons ⟨h, rfl⟩ hr⟩

theorem only (h : Run (Only ok step) s es s') : Run step s es s' := h.mono fun _ _ _ h => h.2

end Run

section Prefixes

variable {ε : Type*} {proper ok : List ε → ε → Prop} {I P : List ε → Prop}

/-- What operations that are in order keep holds after a list of them. -/
theorem prefix_invariant (hnil : I [])
    (hstep : ∀ pre e, proper pre e → ok pre e → I pre → I (pre ++ [e])) (es : List ε)
    (hp : ∀ pre e, pre ++ [e] <+: es → proper pre e)
    (hok : ∀ pre e, pre ++ [e] <+: es → ok pre e) : I es := by
  induction es using List.reverseRecOn with
  | nil => exact hnil
  | append_singleton es e ih =>
    have hpre : ∀ {pre : List ε}, pre <+: es → pre <+: es ++ [e] := fun h =>
      h.trans (List.prefix_append _ _)
    exact hstep _ _ (hp _ _ (List.prefix_refl _)) (hok _ _ (List.prefix_refl _))
      (ih (fun _ _ h => hp _ _ (hpre h)) fun _ _ h => hok _ _ (hpre h))

/-- Every prefix has the property exactly if no operation in it is out of order. -/
theorem prefixes_iff (hnil : I [])
    (hstep : ∀ pre e, proper pre e → ok pre e → I pre → I (pre ++ [e]))
    (hP : ∀ pre, I pre → P pre)
    (hbad : ∀ pre e, proper pre e → ¬ok pre e → I pre → ¬P (pre ++ [e])) (es : List ε)
    (hp : ∀ pre e, pre ++ [e] <+: es → proper pre e) :
    (∀ pre, pre <+: es → P pre) ↔ ∀ pre e, pre ++ [e] <+: es → ok pre e := by
  constructor
  · induction es using List.reverseRecOn with
    | nil =>
      intro _ pre e h
      simpa using h.length_le
    | append_singleton es e' ih =>
      have hpre : ∀ {pre : List ε}, pre <+: es → pre <+: es ++ [e'] := fun h =>
        h.trans (List.prefix_append _ _)
      intro hall
      have hok := ih (fun _ _ h => hp _ _ (hpre h)) fun _ h => hall _ (hpre h)
      have hI := prefix_invariant hnil hstep es (fun _ _ h => hp _ _ (hpre h)) hok
      intro pre e h
      rcases List.prefix_concat_iff.1 h with h' | h'
      · obtain ⟨rfl, he⟩ := List.append_inj' h' rfl
        obtain rfl := List.singleton_inj.1 he
        by_contra hn
        exact hbad _ _ (hp _ _ h) hn hI (hall _ (List.prefix_refl _))
      · exact hok pre e h'
  · intro hok pre h
    exact hP pre (prefix_invariant hnil hstep pre (fun _ _ h' => hp _ _ (h'.trans h))
      fun _ _ h' => hok _ _ (h'.trans h))

/-- What holds at every point of a list holds at every place of it. -/
theorem forall_prefix_iff {p : List ε → ε → Prop} {es : List ε} :
    (∀ pre e, pre ++ [e] <+: es → p pre e)
      ↔ ∀ (i : Nat) (h : i < es.length), p (es.take i) es[i] := by
  constructor
  · intro hall i h
    refine hall _ _ ?_
    rw [List.take_append_getElem h]
    exact List.take_prefix _ _
  · rintro hall pre e ⟨rest, rfl⟩
    simpa using hall pre.length (by simp)

end Prefixes

end Yog
