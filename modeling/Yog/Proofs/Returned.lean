import Yog.Eval
import Mathlib.Tactic

/-!
# Three ways to return

The paths differ in one place. A single value (of a native function) and no value (of a script
function) go through `pushReturnedValue`, which wants no target beside a middle one, while the
other paths ask for as many values as there are left and right targets. With a middle target and
exactly one other the first raises and the second delivers, and nowhere else do they part
(`pushReturnedValue_eq`).
-/

namespace Yog

section Returned

variable {V : Type} (array : List V → V) (nil : V) (lhs : LhsComposition)

/-- The shapes and numbers of values the paths treat differently. -/
def Parts (n : Nat) : Prop := n ≤ 1 ∧ lhs.middle = 1 ∧ lhs.left + lhs.right = 1

/-- Popping the values off the callee's stack and reading them from an array give the same pushes. -/
theorem moveReturnedValue_eq {vals : List V} (hv : vals ≠ []) :
    moveReturnedValue array nil lhs vals = pushReturnedMultiValue array lhs vals := by
  have hn : vals.length ≠ 0 := fun h => hv (List.length_eq_zero_iff.1 h)
  unfold moveReturnedValue pushReturnedMultiValue
  simp only [hn, if_false]
  split_ifs with h₀ h₁ h₂ h₃
  · rfl
  · rfl
  · rfl
  · have hlr : lhs.left + lhs.right ≤ vals.length := by
      by_contra hlt
      exact h₁ ⟨h₃, by omega⟩
    have hmid : (vals.drop lhs.left).take (vals.length - lhs.left - lhs.right)
        = pushFromArray vals lhs.left (vals.length - lhs.right) := by
      rw [pushFromArray, List.drop_take]
      congr 1
      omega
    have hright : ((vals.drop lhs.left).drop (vals.length - lhs.left - lhs.right)).take lhs.right
        = pushFromArray vals (vals.length - lhs.right) vals.length := by
      rw [pushFromArray, List.take_length, List.drop_drop,
        show lhs.left + (vals.length - lhs.left - lhs.right) = vals.length - lhs.right by omega]
      refine List.take_of_length_le ?_
      rw [List.length_drop]
      omega
    rw [hmid, hright]
    simp [pushFromArray]
  · have hm : lhs.middle = 0 := by omega
    have hr := lhs.right_eq hm
    simp [hr, pushFromArray]

/-- One value through `pushReturnedValue` and through the array, away from the shape they part
at. -/
theorem pushReturnedValue_eq (h : ¬ (lhs.middle = 1 ∧ lhs.left + lhs.right = 1)) (val : V) :
    pushReturnedValue array lhs val = pushReturnedMultiValue array lhs [val] := by
  unfold pushReturnedValue pushReturnedMultiValue
  have hm := lhs.middle_le
  have hr := lhs.right_eq
  by_cases h₀ : lhs.left + lhs.middle + lhs.right = 0
  · simp [h₀]
  rcases Nat.eq_zero_or_pos lhs.middle with h₁ | h₁
  · have hr := hr h₁
    by_cases h₂ : lhs.left = 1
    · simp [h₁, h₂, hr, pushFromArray]
    · have h₃ : lhs.left ≠ 0 := by omega
      simp [h₁, h₂, h₃, hr]
  · by_cases h₂ : lhs.left + lhs.right = 0
    · have hl : lhs.left = 0 := by omega
      have hr : lhs.right = 0 := by omega
      have h₃ : lhs.middle ≠ 0 := by omega
      simp [h₃, hl, hr, h₁, pushFromArray]
    · have h₃ : 1 < lhs.left + lhs.right := by omega
      simp [h₁, h₃, Nat.pos_of_ne_zero h₂]

/-- At that shape one path raises and the other one delivers. -/
theorem pushReturnedValue_ne (hm : lhs.middle = 1) (hlr : lhs.left + lhs.right = 1) (val : V) :
    pushReturnedValue array lhs val ≠ pushReturnedMultiValue array lhs [val] := by
  unfold pushReturnedValue pushReturnedMultiValue
  simp [hm, hlr]

/-- The three paths agree exactly where the shapes do not part. -/
theorem returns_agree_iff (vals : List V) :
    (scriptReturn array nil lhs vals = nativeReturn array nil lhs vals
        ∧ scriptReturn array nil lhs vals = longJumpReturn array nil lhs vals)
      ↔ ¬ Parts lhs vals.length := by
  rcases vals with _ | ⟨v, _ | ⟨w, vals⟩⟩
  · have hs : scriptReturn array nil lhs [] = pushReturnedValue array lhs nil := by
      simp [scriptReturn, moveReturnedValue]
    have hj : longJumpReturn array nil lhs [] = pushReturnedMultiValue array lhs [nil] := by
      simp [longJumpReturn, makeJmpVal]
    have hn : nativeReturn array nil lhs [] = pushReturnedMultiValue array lhs [nil] := by
      simp [nativeReturn, makeJmpVal]
    rw [hs, hj, hn, and_self]
    constructor
    · rintro h ⟨-, hm, hlr⟩
      exact pushReturnedValue_ne array lhs hm hlr nil h
    · intro h
      exact pushReturnedValue_eq array lhs (fun hp => h ⟨Nat.zero_le _, hp⟩) nil
  · have hs : scriptReturn array nil lhs [v] = pushReturnedMultiValue array lhs [v] :=
      moveReturnedValue_eq array nil lhs (List.cons_ne_nil _ _)
    have hj : longJumpReturn array nil lhs [v] = pushReturnedMultiValue array lhs [v] := by
      simp [longJumpReturn, makeJmpVal]
    rw [hs, hj, nativeReturn]
    constructor
    · rintro ⟨h, -⟩ ⟨-, hm, hlr⟩
      exact pushReturnedValue_ne array lhs hm hlr v h.symm
    · intro h
      exact ⟨(pushReturnedValue_eq array lhs (fun hp => h ⟨le_rfl, hp⟩) v).symm, rfl⟩
  · have hs : scriptReturn array nil lhs (v :: w :: vals)
        = pushReturnedMultiValue array lhs (v :: w :: vals) :=
      moveReturnedValue_eq array nil lhs (List.cons_ne_nil _ _)
    have hp : ¬ Parts lhs (v :: w :: vals).length := by
      rintro ⟨h, -⟩
      simp at h
    refine ⟨fun _ => hp, fun _ => ?_⟩
    simp [hs, nativeReturn, longJumpReturn, makeJmpVal]

/-- One value for `a, *b`: the native path raises, the others assign `a`. -/
theorem returns_disagree :
    ¬ ∀ (V : Type) (array : List V → V) (nil : V) (lhs : LhsComposition) (vals : List V),
      scriptReturn array nil lhs vals = nativeReturn array nil lhs vals
        ∧ scriptReturn array nil lhs vals = longJumpReturn array nil lhs vals := by
  intro h
  have h := (h Nat List.length 0 ⟨1, 1, 0, le_rfl, by decide⟩ [7]).1
  simp [scriptReturn, moveReturnedValue, nativeReturn, pushReturnedValue] at h

end Returned

end Yog
