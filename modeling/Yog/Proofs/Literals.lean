import Yog.Proofs.Lexing

/-!
# The loop over a string literal

The loop over a string takes a character of the line at each turn, or two where the first one is a
backslash, up to the closing quote. It does not look for the end of the line but behind a backslash.
-/

namespace Yog.Cursor

open Partial
open Lexer hiding nextc

section Turns

variable {line tail : List YogChar} {self : Cursor} {c : YogChar}

/-- Behind a backslash there is a character. -/
theorem escape_of_drop (h : line.drop self.nextIndex = backslash :: c :: tail) :
    ¬ (getRestSize line { self with nextIndex := self.nextIndex + 1 }) < 1 ∧
      nextc line { self with nextIndex := self.nextIndex + 1 } =
        (c, { self with nextIndex := self.nextIndex + 2 }) := by
  have hdrop : line.drop (self.nextIndex + 1) = c :: tail := @drop_of_append _ _ [backslash] _ h
  refine ⟨?_, nextc_of_drop hdrop⟩
  have hlen := congrArg List.length hdrop
  simp only [List.length_drop, List.length_cons] at hlen
  simp only [getRestSize]
  omega

theorem stringLoop_quotation (h : line.drop self.nextIndex = quotation :: tail) (fuel : Nat)
    (buffer : List YogChar) : stringLoop line (fuel + 1) self buffer =
      done (.ok (buffer, { self with nextIndex := self.nextIndex + 1 })) := by
  simp [stringLoop, nextc_of_drop h]

theorem stringLoop_char (h : line.drop self.nextIndex = c :: tail) (hquote : c ≠ quotation)
    (hback : c ≠ backslash) (fuel : Nat) (buffer : List YogChar) :
    stringLoop line (fuel + 1) self buffer =
      stringLoop line fuel { self with nextIndex := self.nextIndex + 1 } (buffer ++ [c]) := by
  simp [stringLoop, nextc_of_drop h, hquote, hback]

theorem stringLoop_escape (h : line.drop self.nextIndex = backslash :: c :: tail) (fuel : Nat)
    (buffer : List YogChar) : stringLoop line (fuel + 1) self buffer =
      stringLoop line fuel { self with nextIndex := self.nextIndex + 2 }
        (buffer ++ [unescape c]) := by
  have hback : (backslash : YogChar) ≠ quotation := by decide
  obtain ⟨hrest, hnext⟩ := escape_of_drop h
  simp only [stringLoop, nextc_of_drop h, if_neg hback, if_neg hrest, hnext, if_true]

/-- Nothing is read any more behind the end of the line. -/
theorem stringLoop_end (h : line.drop self.nextIndex = []) (fuel : Nat) (buffer : List YogChar) :
    stringLoop line (fuel + 1) self buffer = stringLoop line fuel self (buffer ++ [nul]) := by
  have hquote : nul ≠ quotation := by decide
  have hback : nul ≠ backslash := by decide
  simp [stringLoop, nextc_of_end h, hquote, hback]

end Turns

end Yog.Cursor
