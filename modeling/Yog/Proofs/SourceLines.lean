import Mathlib.Data.List.Basic
import Yog.Lexer

/-!
# The lines of a file

A file is lines, of which only the last can be without a newline. `readline` gets one after the
other, and of a `"\r\n"` it keeps the `'\r'` only (`readline_spells`).
-/

namespace Yog.Lexer

inductive Newline where
  | none
  | lf
  | cr
  | crlf
  deriving DecidableEq

def Newline.bytes : Newline → List Byte
  | .none => []
  | .lf => [0x0a]
  | .cr => [0x0d]
  | .crlf => [0x0d, 0x0a]

def Newline.chars : Newline → List YogChar
  | .none => []
  | .lf => [Lexer.lf]
  | .cr => [Lexer.cr]
  | .crlf => [Lexer.cr, Lexer.lf]

structure Line where
  chars : List YogChar
  newline : Newline

/-- What is written in the file. -/
def Line.text (self : Line) : List YogChar := self.chars ++ self.newline.chars

/-- What `readline` gets of it. -/
def Line.kept (self : Line) : List YogChar := self.chars ++ self.newline.chars.take 1

/-- The bytes `content` and the newline are the line. -/
structure Line.Written (enc : Encoding) (line : Line) (content : List Byte) : Prop where
  bytes : ∀ b ∈ content, b ≠ 0x0a ∧ b ≠ 0x0d
  chars : ∀ c ∈ line.chars, c ≠ lf ∧ c ≠ cr
  read : enc.convToYog (content ++ line.newline.bytes.take 1) = line.kept
  ne_nil : line.newline = .none → content ≠ []

/-- The bytes are the lines, with `rest` behind them. -/
inductive Spells (enc : Encoding) (rest : List Byte) : List Line → List Byte → Prop where
  | nil : Spells enc rest [] rest
  | cons {line : Line} {lines : List Line} {content bytes : List Byte} :
    line.Written enc content → (line.newline = .cr → bytes.head? ≠ some 0x0a) →
    (line.newline = .none → bytes = []) → Spells enc rest lines bytes →
    Spells enc rest (line :: lines) (content ++ line.newline.bytes ++ bytes)

variable {enc : Encoding} {rest : List Byte}

theorem Line.Written.ne_nil_bytes {line : Line} {content : List Byte}
    (h : line.Written enc content) : content ++ line.newline.bytes ≠ [] := by
  intro hnil
  obtain ⟨hcontent, hnewline⟩ := List.append_eq_nil_iff.1 hnil
  refine h.ne_nil ?_ hcontent
  cases hn : line.newline <;> rw [hn] at hnewline <;> simp [Newline.bytes] at hnewline

/-- Behind a line without a newline there is nothing. -/
theorem Spells.nil_of_bytes {lines : List Line} (h : Spells enc rest lines []) :
    lines = [] ∧ rest = [] := by
  generalize hbytes : ([] : List Byte) = bytes at h
  cases h with
  | nil => exact ⟨rfl, rfl⟩
  | cons hline _ _ _ =>
    exact absurd (List.append_eq_nil_iff.1 hbytes.symm).1 hline.ne_nil_bytes

theorem spells_line {chars : List YogChar} {content : List Byte}
    (h : Line.Written enc ⟨chars, .none⟩ content) : Spells enc [] [⟨chars, .none⟩] content := by
  simpa [Newline.bytes] using Spells.cons h (by simp) (fun _ => rfl) (@Spells.nil enc [])

theorem splitLine_append {content : List Byte} (hcontent : ∀ b ∈ content, b ≠ 0x0a ∧ b ≠ 0x0d)
    (bytes : List Byte) : splitLine (content ++ bytes) =
      (content ++ (splitLine bytes).1, (splitLine bytes).2) := by
  induction content with
  | nil => rfl
  | cons b content ih =>
    obtain ⟨hlf, hcr⟩ := hcontent b List.mem_cons_self
    rw [List.cons_append, splitLine, if_neg hlf, if_neg hcr,
      ih fun c hc => hcontent c (List.mem_cons_of_mem _ hc)]
    rfl

theorem splitLine_written {line : Line} {content bytes : List Byte}
    (hline : line.Written enc content) (hcr : line.newline = .cr → bytes.head? ≠ some 0x0a)
    (hnone : line.newline = .none → bytes = []) :
    splitLine (content ++ line.newline.bytes ++ bytes) =
      (content ++ line.newline.bytes.take 1, bytes) := by
  rw [List.append_assoc, splitLine_append hline.bytes]
  cases hn : line.newline with
  | none => simp [hnone hn, Newline.bytes, splitLine]
  | lf => simp [Newline.bytes, splitLine]
  | cr => simp [Newline.bytes, splitLine, hcr hn]
  | crlf => simp [Newline.bytes, splitLine]

theorem readline_spells {l : Lexer} {line : Line} {lines : List Line} {fp : List Byte}
    (hfp : l.fp = some fp) (h : Spells l.encoding rest (line :: lines) fp) :
    ∃ bytes, Spells l.encoding rest lines bytes ∧ (line.newline = .none → bytes = []) ∧
      l.readline = some { l with
        fp := some bytes, line := some line.kept, lineno := l.lineno + 1 } := by
  cases h with
  | @cons _ _ content bytes hline hcr hnone hlines =>
    refine ⟨bytes, hlines, hnone, ?_⟩
    obtain ⟨c, fp, hc⟩ := List.exists_cons_of_ne_nil
      (List.append_ne_nil_of_left_ne_nil hline.ne_nil_bytes bytes)
    rw [readline, hfp, hc]
    simp only
    rw [← hc, splitLine_written hline hcr hnone, hline.read]

end Yog.Lexer
