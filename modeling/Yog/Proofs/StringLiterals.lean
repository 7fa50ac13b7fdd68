import Yog.Proofs.LexerRuns
import Yog.Proofs.Literals
import Yog.Proofs.SourceLines
import Yog.Proofs.StringOrder
import Yog.StringScript

/-!
# String literals

What `inspect` makes of a string is read back by the loop over a string literal, a character of the
string at each turn (`stringLoop_inspect`). So a text in memory is the one token. A file is read by
lines, and a `'\r'` of the string, which `inspect` leaves as it is, ends the line. The loop does not
look for the end of the line, and goes on with `'\0'` for ever.
-/

namespace Yog

open Partial
open StringScript (inspect inspectChar)

namespace Cursor

open Lexer hiding nextc

section Chars

variable {line tail : List YogChar} {self : Cursor} {c : YogChar}

theorem stringLoop_inspectChar (h : line.drop self.nextIndex = inspectChar c ++ tail) (fuel : Nat)
    (buffer : List YogChar) : stringLoop line (fuel + 1) self buffer =
      stringLoop line fuel { self with nextIndex := self.nextIndex + (inspectChar c).length }
        (buffer ++ [c]) := by
  unfold inspectChar at h ⊢
  simp only [YogString.equal_iff, List.cons.injEq, and_true] at h ⊢
  split_ifs at h ⊢ with hback htab hlf hquote
  · subst hback
    exact stringLoop_escape h fuel buffer
  · subst htab
    exact stringLoop_escape h fuel buffer
  · subst hlf
    exact stringLoop_escape h fuel buffer
  · subst hquote
    exact stringLoop_escape h fuel buffer
  · exact stringLoop_char h hquote hback fuel buffer

end Chars

theorem stringLoop_inspect {line tail : List YogChar} (fuel : Nat) : ∀ {s : List YogChar}
    {self : Cursor} {buffer : List YogChar},
    line.drop self.nextIndex = s.flatMap inspectChar ++ tail →
      stringLoop line (fuel + s.length) self buffer =
        stringLoop line fuel
          { self with nextIndex := self.nextIndex + (s.flatMap inspectChar).length } (buffer ++ s)
  | [], self, buffer, _ => by simp
  | c :: s, self, buffer, h => by
    rw [List.flatMap_cons, List.append_assoc] at h
    rw [List.length_cons, ← Nat.add_assoc, stringLoop_inspectChar h,
      @stringLoop_inspect _ tail fuel s _ _ (drop_of_append h)]
    simp [Nat.add_assoc]

/-- Without its closing quote a string is never read to its end. -/
theorem stringLoop_inspect_running {line : List YogChar} : ∀ (fuel : Nat) {s : List YogChar}
    {self : Cursor} {buffer : List YogChar},
    line.drop self.nextIndex = s.flatMap inspectChar →
      stringLoop line fuel self buffer = Partial.running
  | 0, _, _, _, _ => rfl
  | fuel + 1, [], self, buffer, h => by
    rw [stringLoop_end h]
    exact @stringLoop_inspect_running _ fuel [] _ _ h
  | fuel + 1, c :: s, self, buffer, h => by
    rw [List.flatMap_cons] at h
    rw [stringLoop_inspectChar h]
    exact @stringLoop_inspect_running _ fuel s _ _ (by rw [drop_of_append h])

end Cursor

namespace Lexer

variable {enc : Encoding} {memory : Memory} {s : List YogChar} {l : Lexer}

theorem lf_notMem_inspect (s : List YogChar) : lf ∉ inspect s := by
  have hchar : ∀ c, lf ∉ inspectChar c := by
    intro c
    unfold inspectChar
    simp only [YogString.equal_iff, List.cons.injEq, and_true]
    split_ifs with hback htab hlf
    · decide
    · decide
    · decide
    · decide
    · simpa [StringScript.newline, lf, eq_comm] using hlf
  have hquote : lf ≠ StringScript.quote := by decide
  simp [inspect, hquote, hchar]

theorem inspectChar_cr : inspectChar cr = [cr] := by decide

theorem cr_mem_inspect : cr ∈ inspect s ↔ cr ∈ s := by
  have hchar : ∀ c, cr ∈ inspectChar c ↔ cr = c := by
    intro c
    unfold inspectChar
    simp only [YogString.equal_iff, List.cons.injEq, and_true]
    split_ifs with hback htab hlf hquote
    · subst hback; decide
    · subst htab; decide
    · subst hlf; decide
    · subst hquote; decide
    · exact List.mem_singleton
  have hquote : cr ≠ StringScript.quote := by decide
  simp [inspect, hquote, hchar]

/-- A lexer of a program: of a text in memory, or of a file. -/
inductive Given (enc : Encoding) (text : List YogChar) : Lexer → Prop where
  | memory : Given enc text (ofText enc text)
  | file {lines : List Line} {fp : List Byte} : Spells enc [] lines fp →
    lines.flatMap Line.text = text → Given enc text (ofFile enc fp)

/-- The program is a string literal of `s`, and no other tokens can be got of it. -/
def IsLiteral (memory : Memory) (l : Lexer) (s : List YogChar) : Prop :=
  ∃ t e l', Lexes memory l [t, e] l' ∧ (t.type = .string ∧ t.val = .string s ∧ e.type = .eof) ∧
    ∀ ts l'', Lexes memory l ts l'' → ts.length = 2 → ts = [t, e]

theorem isLiteral_of_lexes {t e : Token} {l' : Lexer} (h : Lexes memory l [t, e] l')
    (ht : t.type = .string ∧ t.val = .string s ∧ e.type = .eof) : IsLiteral memory l s :=
  ⟨t, e, l', h, ht, fun _ _ h' hlen => (h'.unique h hlen).1⟩

theorem nextToken_quotation {tail : List YogChar}
    (h : l.chars.drop l.cursor.nextIndex = quotation :: tail) (fuel : Nat) :
    nextToken memory (fuel + 1) l = (do
      let r ← Cursor.stringToken l.chars fuel
        { l.cursor with nextIndex := l.cursor.nextIndex + 1 }
      done (.ok (l.scanned r))) := by
  rw [nextToken_of_drop h (by decide) (by decide), tokenAt_char (by decide) (by decide) (by decide),
    Cursor.charToken, if_neg (by decide), if_pos rfl]
  rfl

theorem nextToken_inspect (h : l.chars = inspect s) (hstart : l.cursor.nextIndex = 0) :
    ∃ cursor : Cursor, l.chars.length ≤ cursor.nextIndex ∧ ∀ fuel,
      nextToken memory (fuel + s.length + 2) l =
        done (.ok (⟨.string, .string s, l.lineno⟩, { l with cursor })) := by
  have hdrop : l.chars.drop 0 = quotation :: (s.flatMap inspectChar ++ [quotation]) := h
  have hrest : l.chars.drop 1 = s.flatMap inspectChar ++ [quotation] :=
    @Cursor.drop_of_append _ _ [quotation] 0 hdrop
  have hlast := Cursor.drop_of_append hrest
  refine ⟨{ l.cursor with state := .op, nextIndex := 1 + (s.flatMap inspectChar).length + 1 }, ?_,
    fun fuel => ?_⟩
  · rw [h]
    simp only [inspect, List.cons_append, List.length_cons, List.length_append, List.length_nil]
    omega
  · rw [nextToken_quotation (hstart ▸ hdrop), Cursor.stringToken,
      show fuel + s.length + 1 = fuel + 1 + s.length by omega, hstart,
      @Cursor.stringLoop_inspect _ [quotation] (fuel + 1) s _ _ hrest,
      Cursor.stringLoop_quotation hlast]
    rfl

theorem nextToken_running
    (h : l.chars.drop l.cursor.nextIndex = quotation :: s.flatMap inspectChar) (fuel : Nat) :
    nextToken memory fuel l = Partial.running := by
  rcases fuel with _ | fuel
  · rfl
  · have hrest := @Cursor.drop_of_append _ _ [quotation] _ h
    rw [nextToken_quotation h, Cursor.stringToken,
      @Cursor.stringLoop_inspect_running _ fuel s _ _ hrest]
    rfl

/-- Where nothing is behind the line, the literal is all. -/
theorem isLiteral_of_line (hchars : l.chars = inspect s) (hstart : l.cursor.nextIndex = 0)
    (hqueue : l.heredocQueue = []) (hfp : l.fp.getD [] = []) : IsLiteral memory l s := by
  obtain ⟨cursor, hend, htoken⟩ := @nextToken_inspect memory _ _ hchars hstart
  have hread : readline { l with cursor } = none := readline_eq_none hfp
  have heof : nextToken memory 1 { l with cursor } =
      done (.ok (valToken { l with cursor } .eof .undef)) := by
    rw [@nextToken_end_of_empty memory { l with cursor } hend hqueue, lineToken, hread]
  exact isLiteral_of_lexes (.cons (htoken 0) (.cons heof (.nil _))) ⟨rfl, rfl, rfl⟩

/-- A text without newlines is one line. -/
theorem Spells.line_of_notMem {lines : List Line} {fp : List Byte} (h : Spells enc [] lines fp)
    (hlf : lf ∉ lines.flatMap Line.text) (hcr : cr ∉ lines.flatMap Line.text)
    (hne : lines ≠ []) : ∃ chars, lines = [⟨chars, .none⟩] := by
  cases h with
  | nil => exact absurd rfl hne
  | @cons line lines content bytes hline hcrlf hnone hlines =>
    have hnewline : line.newline = .none := by
      cases hn : line.newline with
      | none => rfl
      | lf => simp [Line.text, hn, Newline.chars] at hlf
      | cr => simp [Line.text, hn, Newline.chars] at hcr
      | crlf => simp [Line.text, hn, Newline.chars] at hcr
    rw [hnone hnewline] at hlines
    obtain ⟨rfl, -⟩ := hlines.nil_of_bytes
    exact ⟨line.chars, by rw [← hnewline]⟩

theorem takeWhile_ne {c : YogChar} {before after : List YogChar} (h : c ∉ before) :
    (before ++ c :: after).takeWhile (· ≠ c) = before := by
  rw [List.takeWhile_append_of_pos fun d hd => by simpa using ne_of_mem_of_not_mem hd h]
  simp

/-- The first line of a text with a carriage return ends there. -/
theorem Spells.line_of_cr {lines : List Line} {fp : List Byte} {before after : List YogChar}
    (h : Spells enc [] lines fp) (hlf : lf ∉ lines.flatMap Line.text) (hbefore : cr ∉ before)
    (htext : lines.flatMap Line.text = before ++ cr :: after) :
    ∃ lines', lines = ⟨before, .cr⟩ :: lines' := by
  cases h with
  | nil => simp at htext
  | @cons line lines content bytes hline hcrlf hnone hlines =>
    have hchars : cr ∉ line.chars := fun hmem => (hline.chars _ hmem).2 rfl
    rw [List.flatMap_cons, Line.text] at htext hlf
    cases hn : line.newline with
    | none =>
      rw [hnone hn] at hlines
      obtain ⟨rfl, -⟩ := hlines.nil_of_bytes
      simp only [hn, Newline.chars, List.append_nil, List.flatMap_nil] at htext
      simp [htext] at hchars
    | lf => simp [hn, Newline.chars] at hlf
    | cr =>
      simp only [hn, Newline.chars, List.append_assoc, List.cons_append, List.nil_append] at htext
      have heq := congrArg (List.takeWhile (· ≠ cr)) htext
      rw [takeWhile_ne hchars, takeWhile_ne hbefore] at heq
      exact ⟨lines, by rw [← heq, ← hn]⟩
    | crlf => simp [hn, Newline.chars] at hlf

section File

variable {fp : List Byte}

theorem nextToken_ofFile {l₁ : Lexer} (hread : (ofFile enc fp).readline = some l₁) (fuel : Nat) :
    nextToken memory (fuel + 1) (ofFile enc fp) = nextToken memory fuel l₁.start := by
  rw [@nextToken_end_of_empty memory (ofFile enc fp) le_rfl rfl, lineToken, hread]

variable {lines : List Line}

/-- The loop over the literal never leaves the line that the carriage return ends. -/
theorem not_isLiteral_of_cr (hspells : Spells enc [] lines fp)
    (htext : lines.flatMap Line.text = inspect s) (hs : cr ∈ s) :
    ¬ IsLiteral memory (ofFile enc fp) s := by
  rintro ⟨t, e, l', hlexes, -⟩
  obtain ⟨s₁, s₂, rfl, hs₁⟩ := List.eq_append_cons_of_mem hs
  have hbefore : cr ∉ quotation :: s₁.flatMap inspectChar := fun hmem =>
    hs₁ (cr_mem_inspect.1 (List.mem_append_left [quotation] hmem))
  have hsplit : inspect (s₁ ++ cr :: s₂) = (quotation :: s₁.flatMap inspectChar) ++ cr ::
      (s₂.flatMap inspectChar ++ [quotation]) := by
    simp [inspect, inspectChar_cr]
    rfl
  obtain ⟨lines, rfl⟩ := hspells.line_of_cr (htext ▸ lf_notMem_inspect _) hbefore
    (htext.trans hsplit)
  obtain ⟨bytes, -, -, hread⟩ := @readline_spells [] (ofFile enc fp) _ _ _ rfl hspells
  cases hlexes with
  | @cons _ _ _ _ _ fuel hnext _ =>
    rcases fuel with _ | fuel
    · cases hnext
    · rw [nextToken_ofFile hread, @nextToken_running _ (s₁ ++ [cr])] at hnext
      · cases hnext
      · simp [start, chars, Line.kept, Newline.chars, inspectChar_cr]

theorem isLiteral_of_notMem (hspells : Spells enc [] lines fp)
    (htext : lines.flatMap Line.text = inspect s) (hs : cr ∉ s) :
    IsLiteral memory (ofFile enc fp) s := by
  have hne : lines ≠ [] := by
    rintro rfl
    simp [inspect] at htext
  obtain ⟨chars, rfl⟩ := hspells.line_of_notMem (htext ▸ lf_notMem_inspect s)
    (htext ▸ cr_mem_inspect.not.2 hs) hne
  obtain ⟨bytes, -, hbytes, hread⟩ := @readline_spells [] (ofFile enc fp) _ _ _ rfl hspells
  have hkept : Line.kept ⟨chars, .none⟩ = inspect s := by
    simpa [Line.text, Line.kept, Newline.chars] using htext
  have hlit : IsLiteral memory (start { ofFile enc fp with
      fp := some bytes, line := some (Line.kept ⟨chars, .none⟩)
      lineno := (ofFile enc fp).lineno + 1 }) s :=
    isLiteral_of_line hkept rfl rfl (hbytes rfl)
  obtain ⟨t, e, l', hlexes, ht, -⟩ := hlit
  cases hlexes with
  | cons hnext hlexes =>
    exact isLiteral_of_lexes (.cons ((nextToken_ofFile hread _).trans hnext) hlexes) ht

end File

/-- In memory every string is read back, and of a file those without a carriage return are. -/
theorem inspect_isLiteral_iff (h : Given enc (inspect s) l) :
    IsLiteral memory l s ↔ l.fp = none ∨ cr ∉ s := by
  cases h with
  | memory => exact iff_of_true (isLiteral_of_line rfl rfl rfl rfl) (.inl rfl)
  | @file lines fp hspells htext =>
    have hfp : (ofFile enc fp).fp ≠ none := Option.some_ne_none fp
    rw [or_iff_right hfp]
    exact ⟨fun hlit hs => not_isLiteral_of_cr hspells htext hs hlit,
      isLiteral_of_notMem hspells htext⟩

section Sample

def quotationAndBackslash : List YogChar := [quotation, backslash]

theorem given_sample : Given utf8 (inspect quotationAndBackslash)
    (ofFile utf8 [0x22, 0x5c, 0x22, 0x5c, 0x5c, 0x22]) :=
  .file (@spells_line _ [quotation, backslash, quotation, backslash, backslash, quotation] _
    ⟨by simp, by simp; decide, by decide, by decide⟩) (by decide)

theorem inspect_isLiteral_sample :
    IsLiteral (fun _ _ => nul) (ofFile utf8 [0x22, 0x5c, 0x22, 0x5c, 0x5c, 0x22])
      quotationAndBackslash :=
  (inspect_isLiteral_iff given_sample).2 (.inr (by decide))

/-- A carriage return in a file. -/
theorem not_inspect_isLiteral : Given utf8 (inspect [cr]) (ofFile utf8 [0x22, 0x0d, 0x22]) ∧
    ¬ IsLiteral (fun _ _ => nul) (ofFile utf8 [0x22, 0x0d, 0x22]) [cr] := by
  have hspells : Spells utf8 [] [⟨[quotation], .cr⟩, ⟨[quotation], .none⟩] [0x22, 0x0d, 0x22] :=
    @Spells.cons utf8 [] ⟨[quotation], .cr⟩ _ [0x22] [0x22]
      ⟨by simp, by simp; decide, by decide, by decide⟩ (by decide) (by decide)
      (spells_line ⟨by simp, by simp; decide, by decide, by decide⟩)
  exact ⟨.file hspells (by decide), not_isLiteral_of_cr hspells (by decide) (by simp)⟩

end Sample

end Lexer

end Yog
