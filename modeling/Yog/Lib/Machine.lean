import Mathlib.Data.Fintype.Card
import Mathlib.Logic.Relation

/-!
# Machines

A machine goes from a state to the next one until there is none. It ends where a measure of its
states goes down (`exists_final`), at one state only (`Comes.final_unique`).

What its steps keep while they are in order, and lose for good at the first one that is not, is
decided by whether one is met (`kept_or_lost`).
-/

namespace Yog

variable {σ : Type*} {step : σ → Option σ} {s s' t : σ}

/-- The machine comes from a state to another. -/
def Comes (step : σ → Option σ) : σ → σ → Prop :=
  Relation.ReflTransGen fun s s' => step s = some s'

namespace Comes

theorem refl (s : σ) : Comes step s s := Relation.ReflTransGen.refl

theorem head (h : step s = some s') (h' : Comes step s' t) : Comes step s t :=
  Relation.ReflTransGen.head h h'

theorem tail (h : Comes step s s') (h' : step s' = some t) : Comes step s t :=
  Relation.ReflTransGen.tail h h'

/-- What every step keeps, every run keeps. -/
theorem invariant {I : σ → Prop} (hI : ∀ s s', I s → step s = some s' → I s')
    (h : Comes step s s') (hs : I s) : I s' := by
  induction h with
  | refl => exact hs
  | tail _ h ih => exact hI _ _ ih h

/-- A machine that can go on to a state where it ends has no other such state. -/
theorem final_unique (h : Comes step s s') (ht : Comes step s t) (hs' : step s' = none)
    (he : step t = none) : s' = t := by
  induction h using Relation.ReflTransGen.head_induction_on with
  | refl =>
    rcases ht.cases_head with rfl | ⟨u, hu, -⟩
    · rfl
    · rw [hs'] at hu
      cases hu
  | head hstep _ ih =>
    rcases ht.cases_head with rfl | ⟨u, hu, hut⟩
    · rw [he] at hstep
      cases hstep
    · rw [hstep] at hu
      obtain rfl := Option.some.inj hu
      exact ih hut

end Comes

/-- A machine ends where its steps make a measure smaller and keep what that takes. -/
theorem exists_final_of {α : Type*} {r : α → α → Prop} (hr : WellFounded r) (m : σ → α) {I : σ → Prop}
    (hI : ∀ s s', I s → step s = some s' → I s')
    (hm : ∀ s s', I s → step s = some s' → r (m s') (m s)) (s : σ) (hs : I s) :
    ∃ s', Comes step s s' ∧ step s' = none := by
  induction hx : m s using hr.induction generalizing s with
  | h x ih =>
    rcases h : step s with _ | t
    · exact ⟨s, .refl s, h⟩
    · obtain ⟨s', hcomes, hend⟩ := ih (m t) (hx ▸ hm s t hs h) t (hI s t hs h) rfl
      exact ⟨s', .head h hcomes, hend⟩

/-- A machine whose steps make a measure smaller ends. -/
theorem exists_final {α : Type*} {r : α → α → Prop} (hr : WellFounded r) (m : σ → α)
    (hm : ∀ s s', step s = some s' → r (m s') (m s)) (s : σ) :
    ∃ s', Comes step s s' ∧ step s' = none :=
  have hI : ∀ s s', True → step s = some s' → True := fun _ _ h _ => h
  exists_final_of hr m hI (fun s s' _ => hm s s') s trivial

/-- A measure of a machine: how many of finitely many things have not been dealt with. -/
theorem card_filter_lt {α : Type*} {l : Finset α} {p q : α → Prop} [DecidablePred p] [DecidablePred q]
    {x : α} (hx : x ∈ l) (h : ∀ y ∈ l, q y → p y) (hp : p x) (hq : ¬q x) :
    (l.filter q).card < (l.filter p).card := by
  refine Finset.card_lt_card ⟨Finset.monotone_filter_right _ h, fun hsub => ?_⟩
  have := hsub (Finset.mem_filter.2 ⟨hx, hp⟩)
  exact hq (Finset.mem_filter.1 this).2

/-- What is kept by the steps in order, and lost for good by one that is not. -/
theorem kept_or_lost {ok kept lost : σ → Prop}
    (hend : ∀ s, kept s → step s = none → ok s)
    (hkept : ∀ s s', kept s → ok s → step s = some s' → kept s')
    (hbreak : ∀ s s', kept s → ¬ok s → step s = some s' → lost s')
    (hlost : ∀ s s', lost s → step s = some s' → lost s') (h : Comes step s t)
    (hs : kept s) (ht : step t = none) :
    (∀ u, Comes step s u → ok u) ∧ kept t ∨ (∃ u, Comes step s u ∧ ¬ok u) ∧ lost t := by
  induction h using Relation.ReflTransGen.head_induction_on with
  | refl =>
    refine .inl ⟨fun u hu => ?_, hs⟩
    rcases hu.cases_head with rfl | ⟨v, hv, -⟩
    · exact hend _ hs ht
    · rw [ht] at hv
      cases hv
  | head hstep hrest ih =>
    rename_i a b
    by_cases hok : ok a
    · rcases ih (hkept a b hs hok hstep) with ⟨hall, hk⟩ | ⟨⟨u, hu, hn⟩, hl⟩
      · refine .inl ⟨fun u hu => ?_, hk⟩
        rcases hu.cases_head with rfl | ⟨v, hv, hvu⟩
        · exact hok
        · rw [hstep] at hv
          obtain rfl := Option.some.inj hv
          exact hall u hvu
      · exact .inr ⟨⟨u, .head hstep hu, hn⟩, hl⟩
    · exact .inr ⟨⟨a, .refl a, hok⟩,
        Comes.invariant hlost hrest (hbreak a b hs hok hstep)⟩

end Yog
