import Mathlib.Algebra.BigOperators.Group.List.Basic
import Mathlib.Tactic.Ring

/-!
# Layouts

Things that lie one after another, each of them at the end of those before it (`LiesAt`). None
goes beyond the end of the last one, and no two of them overlap.
-/

namespace Yog

variable {α : Type*} {size : α → ℕ} {l l' : List α} {x y : α} {a b : ℕ}

/-- Where the next thing will lie. -/
def extent (size : α → ℕ) (l : List α) : ℕ := (l.map size).sum

@[simp] theorem extent_nil : extent size [] = 0 := rfl

@[simp] theorem extent_cons : extent size (x :: l) = size x + extent size l := by
  simp [extent]

@[simp] theorem extent_append : extent size (l ++ l') = extent size l + extent size l' := by
  simp [extent]

/-- A thing of the list lies at a place. -/
def LiesAt (size : α → ℕ) (l : List α) (x : α) (a : ℕ) : Prop :=
  ∃ l₁ l₂, l = l₁ ++ x :: l₂ ∧ a = extent size l₁

namespace LiesAt

theorem last (size : α → ℕ) (l : List α) (x : α) : LiesAt size (l ++ [x]) x (extent size l) :=
  ⟨l, [], rfl, rfl⟩

theorem append (h : LiesAt size l x a) (l' : List α) : LiesAt size (l ++ l') x a := by
  obtain ⟨l₁, l₂, rfl, rfl⟩ := h
  exact ⟨l₁, l₂ ++ l', by simp, rfl⟩

theorem mem (h : LiesAt size l x a) : x ∈ l := by
  obtain ⟨l₁, l₂, rfl, -⟩ := h
  simp

theorem inside (h : LiesAt size l x a) : a + size x ≤ extent size l := by
  obtain ⟨l₁, l₂, rfl, rfl⟩ := h
  simp only [extent_append, extent_cons]
  omega

theorem apart (hx : LiesAt size l x a) (hy : LiesAt size l y b) (hne : x ≠ y) :
    a + size x ≤ b ∨ b + size y ≤ a := by
  obtain ⟨l₁, l₂, rfl, rfl⟩ := hx
  obtain ⟨m₁, m₂, hm, rfl⟩ := hy
  rcases List.append_eq_append_iff.1 hm with ⟨k, rfl, hk⟩ | ⟨k, rfl, hk⟩
  · rcases k with _ | ⟨z, k⟩
    · simp [hne] at hk
    · obtain ⟨rfl, -⟩ := List.cons.inj hk
      simp only [extent_append, extent_cons]
      omega
  · rcases k with _ | ⟨z, k⟩
    · simp [hne.symm] at hk
    · obtain ⟨rfl, -⟩ := List.cons.inj hk
      simp only [extent_append, extent_cons]
      omega

end LiesAt

end Yog
