import Yog.Lexer

/-!
# Runs of the lexer

With more fuel the lexer answers what it has answered, if it has (`steady_nextToken`). So the tokens
of a text are one list (`Lexes.unique`).
-/

namespace Yog

open Partial

namespace Cursor

theorem steady_stringLoop (line : List YogChar) (cursor : Cursor) (buffer : List YogChar) :
    Steady fun fuel => stringLoop line fuel cursor buffer := by
  intro n m r hnm h
  induction n generalizing m cursor buffer with
  | zero => cases h
  | succ n ih =>
    rcases m with _ | m
    · omega
    · have hle := Nat.le_of_succ_le_succ hnm
      simp only [stringLoop] at h ⊢
      split_ifs at h ⊢
      · exact h
      · exact h
      · exact ih _ _ hle h
      · exact ih _ _ hle h

theorem steady_regexpLoop (line : List YogChar) (cursor : Cursor) (buffer : List YogChar) :
    Steady fun fuel => regexpLoop line fuel cursor buffer := by
  intro n m r hnm h
  induction n generalizing m cursor buffer with
  | zero => cases h
  | succ n ih =>
    rcases m with _ | m
    · omega
    · have hle := Nat.le_of_succ_le_succ hnm
      simp only [regexpLoop] at h ⊢
      split_ifs at h ⊢
      · exact h
      · exact h
      · exact ih _ _ hle h
      · exact ih _ _ hle h
      · exact ih _ _ hle h
      · exact ih _ _ hle h

theorem steady_charToken (line : List YogChar) (cursor : Cursor) (c : YogChar) :
    Steady fun fuel => charToken line fuel cursor c := by
  have hstring : Steady fun fuel => stringToken line fuel cursor :=
    (steady_stringLoop line cursor []).bind fun _ => steady_done _
  have hregexp : Steady fun fuel => regexpToken line fuel cursor :=
    (steady_regexpLoop line cursor []).bind fun _ => steady_done _
  unfold charToken
  repeat' refine Steady.ite ?_ ?_
  all_goals first
    | exact steady_done _
    | exact hstring
    | exact hregexp

end Cursor

namespace Lexer

theorem steady_skipComment (depth : Nat) (l : Lexer) :
    Steady fun fuel => skipComment fuel depth l := by
  intro n m r hnm h
  induction n generalizing m depth l with
  | zero => cases h
  | succ n ih =>
    rcases m with _ | m
    · omega
    · have hle := Nat.le_of_succ_le_succ hnm
      simp only [skipComment] at h ⊢
      split_ifs at h ⊢
      · exact h
      · exact ih _ _ hle h
      · exact ih _ _ hle h
      · exact ih _ _ hle h
      · exact ih _ _ hle h
      · split at h
        · exact h
        · exact ih _ _ hle h
      · exact ih _ _ hle h

section Again

variable {again : Nat → Lexer → Partial LexError (Token × Lexer)}
  (hagain : ∀ l, Steady fun fuel => again fuel l)

include hagain

theorem steady_newlineToken (l : Lexer) (c : YogChar) :
    Steady fun fuel => newlineToken (again fuel) l c :=
  (hagain _).ite (steady_done _)

theorem steady_parToken (l : Lexer) : Steady fun fuel => parToken (again fuel) fuel l :=
  ((steady_skipComment 1 _).bind hagain).ite (steady_done _)

theorem steady_tokenAt (l : Lexer) (c : YogChar) :
    Steady fun fuel => tokenAt (again fuel) fuel l c :=
  (steady_newlineToken hagain l c).ite <| (steady_parToken hagain l).ite <|
    (steady_done _).ite <| (Cursor.steady_charToken _ _ c).bind fun _ => steady_done _

end Again

/-- What calls itself with less fuel is steady up to `n` where it is so below. -/
theorem steady_nextToken_min (memory : Memory) : ∀ (n : Nat) (l : Lexer),
    Steady fun fuel => nextToken memory (min fuel n) l
  | 0, l => fun _ _ _ _ h => by simp [nextToken] at h
  | n + 1, l => by
    intro k m r hkm h
    rcases k with _ | k
    · simp [nextToken] at h
    rcases m with _ | m
    · omega
    have hle : min k n ≤ min m n := by omega
    have ih := steady_nextToken_min memory n
    have htoken := fun (l : Lexer) (c : YogChar) => steady_tokenAt ih l c hle (r := r)
    simp only [Nat.min_assoc, Nat.min_self] at htoken
    simp only [Nat.add_min_add_right, nextToken] at h ⊢
    split_ifs at h ⊢
    · exact ih _ (Nat.le_of_succ_le_succ hkm) h
    · exact htoken _ _ h
    · exact htoken _ _ h
    · split at h
      · exact h
      · split at h
        · exact h
        · exact ih _ (Nat.le_of_succ_le_succ hkm) h

theorem steady_nextToken (memory : Memory) (l : Lexer) :
    Steady fun fuel => nextToken memory fuel l := by
  intro k m r hkm h
  have hmin := steady_nextToken_min memory m l hkm (r := r)
  simp only [Nat.min_eq_left hkm, Nat.min_self] at hmin
  exact hmin h

/-- The tokens of a text are determined by their number. -/
theorem Lexes.unique {memory : Memory} {l l₁ l₂ : Lexer} {ts₁ ts₂ : List Token}
    (h₁ : Lexes memory l ts₁ l₁) (h₂ : Lexes memory l ts₂ l₂) (hlen : ts₁.length = ts₂.length) :
    ts₁ = ts₂ ∧ l₁ = l₂ := by
  induction h₁ generalizing ts₂ with
  | nil l =>
    cases h₂ with
    | nil => exact ⟨rfl, rfl⟩
    | cons => cases hlen
  | cons hnext h₁ ih =>
    cases h₂ with
    | nil => cases hlen
    | cons hnext' h₂ =>
      have heq := (steady_nextToken memory _).ends_unique ⟨_, hnext⟩ ⟨_, hnext'⟩
      obtain ⟨rfl, rfl⟩ := Prod.mk.inj (Except.ok.inj heq)
      obtain ⟨rfl, rfl⟩ := ih h₂ (Nat.succ.inj hlen)
      exact ⟨rfl, rfl⟩

end Lexer

end Yog
