import Mathlib.Data.List.Basic

/-!
# Loops that can fail

A loop over an index is a fold of its body over a range. If what holds before the first step and is
carried by each lets no step fail, it holds behind the last (`ok`).
-/

namespace Loop

variable {σ ε : Type*} {f : σ → Nat → Except ε σ} {s : σ}

theorem ok {n : Nat} {I : Nat → σ → Prop} (h : I 0 s)
    (hstep : ∀ i s, i < n → I i s → ∃ s', f s i = .ok s' ∧ I (i + 1) s') :
    ∃ s', (List.range n).foldlM f s = .ok s' ∧ I n s' := by
  induction n with
  | zero => exact ⟨s, rfl, h⟩
  | succ n ih =>
    obtain ⟨s₁, h₁, hi₁⟩ := ih fun i s hi => hstep i s (by omega)
    obtain ⟨s₂, h₂, hi₂⟩ := hstep n s₁ (by omega) hi₁
    refine ⟨s₂, ?_, hi₂⟩
    rw [List.range_succ, List.foldlM_append, h₁]
    exact (bind_pure (f s₁ n)).trans h₂

end Loop
