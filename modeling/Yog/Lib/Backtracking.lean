import Mathlib.Data.Nat.Notation
import Mathlib.Logic.Relation

/-!
# Backtracking searches

A search accepts, fails, goes on elsewhere, or tries one thing and, if that fails, another. `Search`
is what a search comes to, and `Tries` what is searched on the way. A search ends just if what it
tries cannot go on for ever (`ends_iff`), and searches that agree on what one of them goes through
come to the same (`search_congr`).
-/

namespace Backtracking

/-- What is to be done next. -/
inductive Choice (X A : Type*)
  | accept (a : A)
  | fail
  | goto (x : X)
  | orElse (x y : X)

variable {X A : Type*}

variable (step : X → Choice X A)

/-- `x` comes to `r`: what is accepted, or nothing. -/
inductive Search : X → Option A → Prop
  | accept {x a} : step x = .accept a → Search x (some a)
  | fail {x} : step x = .fail → Search x none
  | goto {x y r} : step x = .goto y → Search y r → Search x r
  | left {x y z a} : step x = .orElse y z → Search y (some a) → Search x (some a)
  | right {x y z r} : step x = .orElse y z → Search y none → Search z r → Search x r

/-- `y` is searched next for `x`. -/
inductive Tries : X → X → Prop
  | goto {x y} : step x = .goto y → Tries x y
  | left {x y z} : step x = .orElse y z → Tries x y
  | right {x y z} : step x = .orElse y z → Search step y none → Tries x z

/-- `y` may be searched next. -/
def Choice.Leads : Choice X A → X → Prop
  | .accept _, _ | .fail, _ => False
  | .goto x, y => y = x
  | .orElse x z, y => y = x ∨ y = z

def Ends (x : X) : Prop := ∃ r, Search step x r

variable {step} {x y z : X} {r r' : Option A}

theorem search_accept {a : A} (hs : step x = .accept a) : Search step x r ↔ r = some a := by
  constructor
  · intro h
    cases h <;> simp_all
  · rintro rfl
    exact .accept hs

theorem search_fail (hs : step x = .fail) : Search step x r ↔ r = none := by
  constructor
  · intro h
    cases h <;> simp_all
  · rintro rfl
    exact .fail hs

theorem search_goto (hs : step x = .goto y) : Search step x r ↔ Search step y r := by
  constructor
  · rintro (h | h | ⟨h, hy⟩ | h | h) <;> rw [hs] at h <;> cases h
    exact hy
  · exact .goto hs

theorem search_orElse (hs : step x = .orElse y z) :
    Search step x r ↔ (Search step y r ∧ r ≠ none) ∨ (Search step y none ∧ Search step z r) := by
  constructor
  · rintro (h | h | h | ⟨h, hy⟩ | ⟨h, hy, hz⟩) <;> rw [hs] at h <;> cases h
    · exact .inl ⟨hy, by simp⟩
    · exact .inr ⟨hy, hz⟩
  · rintro (⟨hy, hr⟩ | ⟨hy, hz⟩)
    · obtain ⟨a, rfl⟩ := Option.ne_none_iff_exists'.1 hr
      exact .left hs hy
    · exact .right hs hy hz

/-- A search comes to one thing only. -/
theorem Search.unique (h : Search step x r) (h' : Search step x r') : r = r' := by
  induction h generalizing r' with
  | accept hs => exact ((search_accept hs).1 h').symm
  | fail hs => exact ((search_fail hs).1 h').symm
  | goto hs _ ih => exact ih ((search_goto hs).1 h')
  | left hs _ ih =>
    rcases (search_orElse hs).1 h' with ⟨h', -⟩ | ⟨h', -⟩
    · exact ih h'
    · cases ih h'
  | right hs _ _ ihy ihz =>
    rcases (search_orElse hs).1 h' with ⟨h', hne⟩ | ⟨-, h'⟩
    · exact absurd (ihy h').symm hne
    · exact ihz h'

theorem Tries.leads (h : Tries step x y) : (step x).Leads y := by
  cases h with
  | goto hs => rw [hs]; exact rfl
  | left hs => rw [hs]; exact .inl rfl
  | right hs _ => rw [hs]; exact .inr rfl

/-- What each step keeps holds of all that is searched. -/
theorem Visits.invariant {P : X → Prop} (hP : ∀ x y, P x → (step x).Leads y → P y)
    (h : Relation.ReflTransGen (Tries step) x y) (hx : P x) : P y := by
  induction h with
  | refl => exact hx
  | tail _ ht ih => exact hP _ _ ih ht.leads

theorem Ends.tries (h : Ends step x) (ht : Tries step x y) : Ends step y := by
  obtain ⟨r, h⟩ := h
  cases ht with
  | goto hs => exact ⟨r, (search_goto hs).1 h⟩
  | left hs =>
    rcases (search_orElse hs).1 h with ⟨h, -⟩ | ⟨h, -⟩
    · exact ⟨_, h⟩
    · exact ⟨_, h⟩
  | right hs hy =>
    rcases (search_orElse hs).1 h with ⟨h, hne⟩ | ⟨-, h⟩
    · exact absurd (h.unique hy) hne
    · exact ⟨r, h⟩

/-- A search ends if all that it tries does. -/
theorem Ends.of_tries (h : ∀ y, Tries step x y → Ends step y) : Ends step x := by
  rcases hs : step x with a | - | y | ⟨y, z⟩
  · exact ⟨_, .accept hs⟩
  · exact ⟨_, .fail hs⟩
  · obtain ⟨r, hy⟩ := h y (.goto hs)
    exact ⟨r, .goto hs hy⟩
  · obtain ⟨r, hy⟩ := h y (.left hs)
    rcases r with _ | a
    · obtain ⟨r, hz⟩ := h z (.right hs hy)
      exact ⟨r, .right hs hy hz⟩
    · exact ⟨_, .left hs hy⟩

theorem acc_of_search (h : Search step x r) : Acc (fun y x => Tries step x y) x := by
  induction h with
  | accept hs => exact ⟨_, fun y ht => by cases ht <;> simp_all⟩
  | fail hs => exact ⟨_, fun y ht => by cases ht <;> simp_all⟩
  | goto hs _ ih => exact ⟨_, fun y ht => by cases ht <;> simp_all⟩
  | left hs hy ih =>
    refine ⟨_, fun y ht => ?_⟩
    cases ht with
    | goto hs' => rw [hs] at hs'; cases hs'
    | left hs' => rw [hs] at hs'; cases hs'; exact ih
    | right hs' hn => rw [hs] at hs'; cases hs'; cases hy.unique hn
  | right hs _ _ ihy ihz =>
    refine ⟨_, fun y ht => ?_⟩
    cases ht with
    | goto hs' => rw [hs] at hs'; cases hs'
    | left hs' => rw [hs] at hs'; cases hs'; exact ihy
    | right hs' _ => rw [hs] at hs'; cases hs'; exact ihz

/-- A search ends just if no chain of what it tries goes on for ever. -/
theorem ends_iff : Ends step x ↔ Acc (fun y x => Tries step x y) x := by
  constructor
  · rintro ⟨r, h⟩
    exact acc_of_search h
  · intro h
    induction h with
    | intro x _ ih => exact .of_tries ih

/-- `y` is searched at some time for `x`. -/
def Visits (step : X → Choice X A) : X → X → Prop := Relation.ReflTransGen (Tries step)

variable {step' : X → Choice X A}

/-- Two searches come to the same if they agree on what one of them goes through. -/
theorem search_congr (heq : ∀ y, Visits step x y → step' y = step y) :
    Search step' x r ↔ Search step x r := by
  constructor
  · intro h
    induction h with
    | accept hs => exact .accept ((heq _ .refl).symm.trans hs)
    | fail hs => exact .fail ((heq _ .refl).symm.trans hs)
    | goto hs _ ih =>
      have hs := (heq _ .refl).symm.trans hs
      exact .goto hs (ih fun y hy => heq y (.head (.goto hs) hy))
    | left hs _ ih =>
      have hs := (heq _ .refl).symm.trans hs
      exact .left hs (ih fun y hy => heq y (.head (.left hs) hy))
    | right hs _ _ ihy ihz =>
      have hs := (heq _ .refl).symm.trans hs
      have hy := ihy fun y hy => heq y (.head (.left hs) hy)
      exact .right hs hy (ihz fun z hz => heq z (.head (.right hs hy) hz))
  · intro h
    induction h with
    | accept hs => exact .accept ((heq _ .refl).trans hs)
    | fail hs => exact .fail ((heq _ .refl).trans hs)
    | goto hs _ ih =>
      exact .goto ((heq _ .refl).trans hs) (ih fun y hy => heq y (.head (.goto hs) hy))
    | left hs _ ih =>
      exact .left ((heq _ .refl).trans hs) (ih fun y hy => heq y (.head (.left hs) hy))
    | right hs hy _ ihy ihz =>
      exact .right ((heq _ .refl).trans hs) (ihy fun y hy => heq y (.head (.left hs) hy))
        (ihz fun z hz => heq z (.head (.right hs hy) hz))

end Backtracking
