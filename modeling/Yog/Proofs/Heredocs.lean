import Yog.Proofs.Lexing
import Yog.Proofs.SourceLines

/-!
# Heredocs

The heredocs of a line are read when it has ended, in the order of their tokens, each up to the line
that is its end mark (`readHeredocs_blocks`). A line with a newline is the end mark exactly when its
characters are. Where the last end mark is the end of the file, what is compared is behind the
characters of the line, and of a newline of two characters one is kept.
-/

namespace Yog.Lexer

/-- The lines of a heredoc. -/
structure Block where
  mark : List YogChar
  body : List Line
  /-- The newline behind the end mark. -/
  newline : Newline

namespace Block

def lines (self : Block) : List Line := self.body ++ [⟨self.mark, self.newline⟩]

/-- What is written in the body. -/
def text (self : Block) : List YogChar := self.body.flatMap Line.text

/-- What is got of the body. -/
def kept (self : Block) : List YogChar := self.body.flatMap Line.kept

end Block

section EndMarks

variable {memory : Memory} {l : Lexer} {mark : List YogChar}

def IsNewline (c : YogChar) : Prop := c = cr ∨ c = lf

instance (c : YogChar) : Decidable (IsNewline c) := inferInstanceAs (Decidable (_ ∨ _))

theorem strncmp_eq_zero_iff {s : Nat → YogChar} {cs : List YogChar} {i : Nat} :
    strncmp s cs i = 0 ↔ ∀ j (hj : j < cs.length), cs[j] = s (i + j) := by
  induction cs generalizing i with
  | nil => simp [strncmp]
  | cons c cs ih =>
    rw [strncmp]
    split_ifs with hc
    · refine iff_of_false (fun hval => hc ?_) fun hall => hc (hall 0 (Nat.succ_pos _))
      have hzero : (2 ^ 32 - (s i).val + c.val) % 2 ^ 32 = 0 := Int.ofNat_eq_zero.1 hval
      have hlt := c.isLt
      have hlt' := (s i).isLt
      exact Fin.ext (by omega)
    · rw [not_not] at hc
      rw [ih]
      refine ⟨fun hall j hj => ?_, fun hall j hj => ?_⟩
      · rcases j with _ | j
        · exact hc
        · rw [List.getElem_cons_succ, hall j (Nat.lt_of_succ_lt_succ hj)]
          congr 1
          omega
      · have := hall (j + 1) (Nat.succ_lt_succ hj)
        rw [List.getElem_cons_succ] at this
        rw [this]
        congr 1
        omega

theorem isEnd_eq_true_iff : l.isEnd memory mark = true ↔
    (∀ j (hj : j < mark.length), mark[j] = l.charAt memory j) ∧
      IsNewline (l.charAt memory mark.length) := by
  simp [isEnd, strncmp_eq_zero_iff, IsNewline]

theorem charAt_of_lt {i : Nat} (h : i < l.chars.length) : l.charAt memory i = l.chars[i] := by
  simp [charAt, h]

/-- The newline of a line is where the line is as long as the mark, and nowhere else. -/
theorem isEnd_iff {cs : List YogChar} {newline : YogChar} (hchars : l.chars = cs ++ [newline])
    (hnewline : IsNewline newline) (hcs : ∀ c ∈ cs, ¬ IsNewline c)
    (hmark : ∀ c ∈ mark, ¬ IsNewline c) : l.isEnd memory mark = true ↔ cs = mark := by
  have hlen : l.chars.length = cs.length + 1 := by simp [hchars]
  have hlast : l.charAt memory cs.length = newline := by
    rw [charAt_of_lt (by omega)]
    simp [hchars]
  have hbefore (j : Nat) (hj : j < cs.length) : l.charAt memory j = cs[j] := by
    rw [charAt_of_lt (by omega)]
    simp [hchars, hj]
  rw [isEnd_eq_true_iff]
  constructor
  · rintro ⟨hall, hend⟩
    rcases lt_trichotomy cs.length mark.length with hlt | heq | hgt
    · have hc := hall cs.length hlt
      rw [hlast] at hc
      exact absurd (hc ▸ hnewline) (hmark _ (List.getElem_mem hlt))
    · refine List.ext_getElem heq fun j hj hj' => ?_
      rw [hall j hj', hbefore j hj]
    · rw [hbefore _ hgt] at hend
      exact absurd hend (hcs _ (List.getElem_mem hgt))
  · rintro rfl
    exact ⟨fun j hj => (hbefore j hj).symm, hlast ▸ hnewline⟩

/-- Without a newline the end mark is found where there happens to be one in memory. -/
theorem isEnd_iff_of_chars (hchars : l.chars = mark) :
    l.isEnd memory mark = true ↔ IsNewline (memory l.lineno 0) := by
  subst hchars
  rw [isEnd_eq_true_iff]
  have hend : l.charAt memory l.chars.length = memory l.lineno 0 := by simp [charAt]
  rw [hend]
  exact and_iff_right fun j hj => (charAt_of_lt hj).symm

theorem IsMark.not_isNewline (h : IsMark mark) : ∀ c ∈ mark, ¬ IsNewline c := by
  rintro c hc (rfl | rfl)
  · exact absurd (h.all _ hc) (by decide)
  · exact absurd (h.all _ hc) (by decide)

end EndMarks

section Heredoc

variable (memory : Memory) {heredoc : HereDoc} {rest : List Byte}

/-- A line with a newline behind which another one can be. -/
theorem Spells.newline_ne_none {enc : Encoding} {line line' : Line} {lines : List Line}
    {fp : List Byte} (h : Spells enc rest (line :: line' :: lines) fp) : line.newline ≠ .none := by
  intro hn
  cases h with
  | cons hline _ hnone hlines =>
    rw [hnone hn] at hlines
    exact absurd hlines.nil_of_bytes.1 (List.cons_ne_nil _ _)

theorem Spells.chars_not_isNewline {enc : Encoding} {line : Line} {lines : List Line}
    {fp : List Byte} (h : Spells enc rest (line :: lines) fp) :
    ∀ c ∈ line.chars, ¬ IsNewline c := by
  cases h with
  | cons hline _ _ _ => exact fun c hc hnl => hnl.elim (hline.chars c hc).2 (hline.chars c hc).1

theorem Line.kept_eq {line : Line} (h : line.newline ≠ .none) :
    ∃ newline, IsNewline newline ∧ line.kept = line.chars ++ [newline] := by
  unfold Line.kept
  cases hn : line.newline with
  | none => exact absurd hn h
  | lf => exact ⟨lf, .inr rfl, rfl⟩
  | cr => exact ⟨cr, .inl rfl, rfl⟩
  | crlf => exact ⟨cr, .inl rfl, rfl⟩

theorem readHeredoc_error {memory : Memory} {steps : Nat} {l : Lexer} (hfp : l.fp = some []) :
    readHeredoc memory heredoc steps l = .error (.eofInHeredoc heredoc.lineno) := by
  rcases steps with _ | steps
  · rfl
  · rw [readHeredoc, readline_eq_none (by rw [hfp]; rfl)]

theorem isEnd_mark {memory : Memory} {l : Lexer} {mark : List YogChar} {newline : Newline}
    (hchars : l.chars = Line.kept ⟨mark, newline⟩) (hmark : ∀ c ∈ mark, ¬ IsNewline c) :
    l.isEnd memory mark = true ↔ (newline = .none → IsNewline (memory l.lineno 0)) := by
  by_cases hn : newline = .none
  · subst hn
    rw [isEnd_iff_of_chars (hchars.trans (List.append_nil _))]
    simp
  · obtain ⟨c, hc, hkept⟩ := @Line.kept_eq ⟨mark, newline⟩ hn
    rw [isEnd_iff (hchars.trans hkept) hc hmark hmark]
    simp [hn]

theorem modify_append_nil (strs : List (List YogChar)) (i : Nat) :
    strs.modify i (· ++ []) = strs := by
  simp only [List.append_nil]
  exact List.modify_id _ _

theorem modify_append_append (strs : List (List YogChar)) (i : Nat) (s s' : List YogChar) :
    (strs.modify i (· ++ s)).modify i (· ++ s') = strs.modify i (· ++ (s ++ s')) := by
  rw [List.modify_modify_eq]
  simp only [Function.comp_def, List.append_assoc]

/-- When `n` lines have been read, `line` last, and `s` added to the string. -/
def got (l : Lexer) (fp : List Byte) (line : Option (List YogChar)) (n str : Nat)
    (s : List YogChar) : Lexer :=
  { l with fp := some fp, line, lineno := l.lineno + n, strs := l.strs.modify str (· ++ s) }

@[simp] theorem got_got (l : Lexer) (fp fp' : List Byte) (line line' : Option (List YogChar))
    (n n' str : Nat) (s s' : List YogChar) :
    (l.got fp line n str s).got fp' line' n' str s' = l.got fp' line' (n + n') str (s ++ s') := by
  simp only [got, modify_append_append, Nat.add_assoc]

/-- A line of the body is added to the string. -/
theorem readHeredoc_line {l : Lexer} {line line' : Line} {lines : List Line} {fp : List Byte}
    (hfp : l.fp = some fp) (h : Spells l.encoding rest (line :: line' :: lines) fp)
    (hmark : ∀ c ∈ heredoc.end_, ¬ IsNewline c) (hne : line.chars ≠ heredoc.end_) (steps : Nat) :
    ∃ bytes, Spells l.encoding rest (line' :: lines) bytes ∧
      readHeredoc memory heredoc (steps + 1) l = readHeredoc memory heredoc steps
        (l.got bytes (some line.kept) 1 heredoc.str line.kept) := by
  obtain ⟨bytes, hbytes, -, hread⟩ := readline_spells hfp h
  obtain ⟨c, hc, hkept⟩ := Line.kept_eq h.newline_ne_none
  refine ⟨bytes, hbytes, ?_⟩
  rw [readHeredoc, hread]
  simp only
  rw [if_neg]
  · rfl
  · refine (not_congr (isEnd_iff ?_ hc h.chars_not_isNewline hmark)).2 hne
    exact hkept

theorem readHeredoc_body {line : Line} {lines : List Line} {body : List Line} {l : Lexer}
    {fp : List Byte} (hfp : l.fp = some fp)
    (h : Spells l.encoding rest (body ++ line :: lines) fp)
    (hmark : ∀ c ∈ heredoc.end_, ¬ IsNewline c)
    (hbody : ∀ line ∈ body, line.chars ≠ heredoc.end_) (steps : Nat) :
    ∃ bytes line', Spells l.encoding rest (line :: lines) bytes ∧
      readHeredoc memory heredoc (steps + body.length) l = readHeredoc memory heredoc steps
        (l.got bytes line' body.length heredoc.str (body.flatMap Line.kept)) := by
  induction body generalizing l fp with
  | nil =>
    refine ⟨fp, l.line, h, ?_⟩
    rw [List.flatMap_nil, got, modify_append_nil, ← hfp]
    rfl
  | cons line' body ih =>
    have hne := hbody line' List.mem_cons_self
    obtain ⟨next, lines', hnext⟩ : ∃ next lines', body ++ line :: lines = next :: lines' :=
      List.exists_cons_of_ne_nil (by simp)
    rw [List.cons_append, hnext] at h
    obtain ⟨bytes, hbytes, hread⟩ := readHeredoc_line memory hfp h hmark hne (steps + body.length)
    rw [← hnext] at hbytes
    obtain ⟨bytes', line'', hbytes', hread'⟩ :=
      ih (l := l.got bytes (some line'.kept) 1 heredoc.str line'.kept) rfl hbytes
        fun d hd => hbody d (List.mem_cons_of_mem _ hd)
    refine ⟨bytes', line'', hbytes', ?_⟩
    rw [List.length_cons, ← Nat.add_assoc, hread, hread', got_got, List.flatMap_cons,
      Nat.add_comm 1]

/-- The line of the end mark is the last one that is read, where it is taken for it. -/
theorem readHeredoc_mark {l : Lexer} {newline : Newline} {lines : List Line} {fp : List Byte}
    (hfp : l.fp = some fp) (h : Spells l.encoding rest (⟨heredoc.end_, newline⟩ :: lines) fp)
    (hmark : ∀ c ∈ heredoc.end_, ¬ IsNewline c) (steps : Nat) :
    ((newline = .none → IsNewline (memory (l.lineno + 1) 0)) →
      ∃ bytes line, Spells l.encoding rest lines bytes ∧
        readHeredoc memory heredoc (steps + 1) l = .ok (l.got bytes line 1 heredoc.str [])) ∧
    (¬ (newline = .none → IsNewline (memory (l.lineno + 1) 0)) →
      readHeredoc memory heredoc (steps + 1) l = .error (.eofInHeredoc heredoc.lineno)) := by
  obtain ⟨bytes, hbytes, hnone, hread⟩ := readline_spells hfp h
  rw [readHeredoc, hread]
  simp only
  constructor
  · intro hfound
    refine ⟨bytes, some (Line.kept ⟨heredoc.end_, newline⟩), hbytes, ?_⟩
    rw [if_pos ((isEnd_mark rfl hmark).2 hfound), got, modify_append_nil]
  · intro hfound
    rw [if_neg fun hend => hfound ((isEnd_mark rfl hmark).1 hend)]
    obtain ⟨hn, -⟩ := Classical.not_imp.1 hfound
    rw [hnone hn]
    exact readHeredoc_error rfl

/-- The end mark of the block is taken for it. -/
def Block.Found (memory : Memory) (lineno : Nat) (b : Block) : Prop :=
  b.newline = .none → IsNewline (memory (lineno + b.lines.length) 0)

theorem readHeredoc_block {b : Block} {lines : List Line} {l : Lexer} {fp : List Byte}
    {steps : Nat} (hfp : l.fp = some fp) (h : Spells l.encoding rest (b.lines ++ lines) fp)
    (hend : heredoc.end_ = b.mark) (hmark : ∀ c ∈ b.mark, ¬ IsNewline c)
    (hbody : ∀ line ∈ b.body, line.chars ≠ b.mark) (hsteps : b.lines.length ≤ steps) :
    (b.Found memory l.lineno → ∃ bytes line, Spells l.encoding rest lines bytes ∧
      readHeredoc memory heredoc steps l =
        .ok (l.got bytes line b.lines.length heredoc.str b.kept)) ∧
    (¬ b.Found memory l.lineno →
      readHeredoc memory heredoc steps l = .error (.eofInHeredoc heredoc.lineno)) := by
  rw [Block.lines, List.append_assoc, List.singleton_append, ← hend] at h
  rw [← hend] at hmark hbody
  have hlen : b.lines.length = b.body.length + 1 := by simp [Block.lines]
  obtain ⟨n, rfl⟩ : ∃ n, steps = n + 1 + b.body.length := ⟨steps - b.lines.length, by omega⟩
  obtain ⟨bytes, line, hbytes, hread⟩ := readHeredoc_body memory hfp h hmark hbody (n + 1)
  obtain ⟨hok, herror⟩ := readHeredoc_mark memory
    (l := l.got bytes line b.body.length heredoc.str b.kept) rfl hbytes hmark n
  have hfound : b.Found memory l.lineno ↔
      (b.newline = .none → IsNewline (memory (l.lineno + b.body.length + 1) 0)) := by
    rw [Block.Found, hlen, Nat.add_assoc]
  rw [hfound, hread, hlen]
  refine ⟨fun hf => ?_, herror⟩
  obtain ⟨bytes', line', hbytes', hread'⟩ := hok hf
  refine ⟨bytes', line', hbytes', hread'.trans ?_⟩
  rw [got_got, List.append_nil]

end Heredoc

theorem Spells.length_le {enc : Encoding} {rest : List Byte} {lines : List Line} {fp : List Byte}
    (h : Spells enc rest lines fp) : lines.length ≤ fp.length := by
  induction h with
  | nil => exact Nat.zero_le _
  | cons hline _ _ _ ih =>
    have hpos := List.length_pos_iff.2 hline.ne_nil_bytes
    rw [List.length_append, List.length_cons]
    omega

/-- The end marks of the blocks are taken for them. -/
def AllFound (memory : Memory) : Nat → List Block → Prop
  | _, [] => True
  | lineno, b :: blocks => b.Found memory lineno ∧ AllFound memory (lineno + b.lines.length) blocks

/-- What the heredocs of the queue are when the blocks have been read. -/
structure Filled (l : Lexer) (queue : List HereDoc) (blocks : List Block) (rest : List Byte)
    (l₁ : Lexer) : Prop where
  fp : l₁.fp = some rest
  cursor : l₁.cursor = l.cursor
  encoding : l₁.encoding = l.encoding
  lineno : l₁.lineno = l.lineno + (blocks.flatMap Block.lines).length
  strs : (queue.map fun h => l₁.strs[h.str]?) = blocks.map fun b => some b.kept

theorem readHeredocs_blocks (memory : Memory) {rest : List Byte} {queue : List HereDoc}
    {blocks : List Block} {l : Lexer} {fp : List Byte} (hfp : l.fp = some fp)
    (hend : queue.map HereDoc.end_ = blocks.map Block.mark)
    (hnodup : (queue.map HereDoc.str).Nodup) (hempty : ∀ h ∈ queue, l.strs[h.str]? = some [])
    (hspells : Spells l.encoding rest (blocks.flatMap Block.lines) fp)
    (hmark : ∀ b ∈ blocks, ∀ c ∈ b.mark, ¬ IsNewline c)
    (hbody : ∀ b ∈ blocks, ∀ line ∈ b.body, line.chars ≠ b.mark) :
    (AllFound memory l.lineno blocks →
      ∃ l₁, readHeredocs memory queue l = .ok l₁ ∧ Filled l queue blocks rest l₁) ∧
    (¬ AllFound memory l.lineno blocks → ∃ e, readHeredocs memory queue l = .error e) := by
  induction blocks generalizing queue l fp with
  | nil =>
    obtain rfl := List.map_eq_nil_iff.1 hend
    refine ⟨fun _ => ⟨_, rfl, ?_, rfl, rfl, rfl, rfl⟩, fun hf => absurd trivial hf⟩
    cases hspells
    exact hfp
  | cons b blocks ih =>
    obtain ⟨heredoc, queue, rfl, hb, hend⟩ := List.map_eq_cons_iff.1 hend
    rw [List.flatMap_cons] at hspells
    rw [List.map_cons, List.nodup_cons] at hnodup
    have hsteps : b.lines.length ≤ fp.length + 1 := by
      have hle := hspells.length_le
      rw [List.length_append] at hle
      omega
    obtain ⟨hok, herror⟩ := readHeredoc_block memory (l := { l with heredocQueue := queue }) hfp
      hspells hb (hmark b List.mem_cons_self) (hbody b List.mem_cons_self) hsteps
    have hstep : readHeredocs memory (heredoc :: queue) l =
        readHeredoc memory heredoc (fp.length + 1) { l with heredocQueue := queue } >>=
          readHeredocs memory queue := by
      rw [readHeredocs, hfp]
      rfl
    have hne : ∀ h ∈ queue, h.str ≠ heredoc.str := fun h hh heq =>
      hnodup.1 (heq ▸ List.mem_map_of_mem hh)
    rw [AllFound, hstep]
    by_cases hf : b.Found memory l.lineno
    · obtain ⟨bytes, line, hbytes, hread⟩ := hok hf
      set l' := got { l with heredocQueue := queue } bytes line b.lines.length heredoc.str b.kept
        with hl'
      have hempty' : ∀ h ∈ queue, l'.strs[h.str]? = some [] := by
        intro h hh
        rw [hl', got, List.getElem?_modify_ne _ _ (hne h hh).symm]
        exact hempty h (List.mem_cons_of_mem _ hh)
      have hhead : l'.strs[heredoc.str]? = some b.kept := by
        rw [hl', got, List.getElem?_modify_eq, hempty heredoc List.mem_cons_self]
        rfl
      obtain ⟨hok', herror'⟩ := ih (l := l') rfl hend hnodup.2 hempty' hbytes
        (fun d hd => hmark d (List.mem_cons_of_mem _ hd))
        fun d hd => hbody d (List.mem_cons_of_mem _ hd)
      rw [hread]
      refine ⟨fun hall => ?_, fun hall => herror' fun hall' => hall ⟨hf, hall'⟩⟩
      obtain ⟨l₁, hl₁, hfilled⟩ := hok' hall.2
      obtain ⟨-, -, -, -, hstrs⟩ := readHeredocs_kept hl₁
      refine ⟨l₁, hl₁, hfilled.fp, hfilled.cursor, hfilled.encoding, ?_, ?_⟩
      · rw [hfilled.lineno, List.flatMap_cons, List.length_append, ← Nat.add_assoc]
        rfl
      · rw [List.map_cons, List.map_cons, hfilled.strs, hstrs _ hne, hhead]
    · rw [herror hf]
      exact ⟨fun hall => absurd hall.1 hf, fun _ => ⟨_, rfl⟩⟩

theorem length_kept_le (body : List Line) :
    (body.flatMap Line.kept).length ≤ (body.flatMap Line.text).length := by
  induction body with
  | nil => exact le_rfl
  | cons line body ih =>
    simp only [List.flatMap_cons, List.length_append, Line.kept, Line.text, List.length_take]
    omega

/-- What is got is what is written but for the second character of a newline. -/
theorem kept_eq_text_iff {body : List Line} :
    body.flatMap Line.kept = body.flatMap Line.text ↔ ∀ line ∈ body, line.newline ≠ .crlf := by
  induction body with
  | nil => simp
  | cons line body ih =>
    have hle := length_kept_le body
    simp only [List.flatMap_cons, List.forall_mem_cons, ← ih]
    by_cases hn : line.newline = .crlf
    · refine iff_of_false (fun heq => ?_) fun h => h.1 hn
      have hlen := congrArg List.length heq
      simp only [List.length_append, Line.kept, Line.text, hn, Newline.chars, List.length_take,
        List.length_cons, List.length_nil] at hlen
      omega
    · have hsame : line.kept = line.text := by
        unfold Line.kept Line.text
        cases hn' : line.newline with
        | crlf => exact absurd hn' hn
        | none => rfl
        | lf => rfl
        | cr => rfl
      rw [hsame, List.append_cancel_left_eq]
      exact (and_iff_right hn).symm

section Newlines

variable {enc : Encoding} {rest : List Byte}

theorem Spells.drop {lines lines' : List Line} {fp : List Byte}
    (h : Spells enc rest (lines ++ lines') fp) : ∃ bytes, Spells enc rest lines' bytes := by
  induction lines generalizing fp with
  | nil => exact ⟨fp, h⟩
  | cons line lines ih =>
    cases h with
    | cons _ _ _ h => exact ih h

/-- Only the last line can be without a newline. -/
theorem allFound_iff {memory : Memory} {lineno : Nat} {blocks : List Block} {fp : List Byte}
    (h : Spells enc rest (blocks.flatMap Block.lines) fp) :
    AllFound memory lineno blocks ↔ ∀ b ∈ blocks, b.newline = .none →
      IsNewline (memory (lineno + (blocks.flatMap Block.lines).length) 0) := by
  induction blocks generalizing lineno fp with
  | nil => simp [AllFound]
  | cons b blocks ih =>
    rw [List.flatMap_cons] at h
    obtain ⟨bytes, htail⟩ := h.drop
    have hlast : b.newline = .none → blocks.flatMap Block.lines = [] := by
      intro hn
      rw [Block.lines, List.append_assoc, List.singleton_append] at h
      obtain ⟨bytes', hmark⟩ := h.drop
      rcases hlines : blocks.flatMap Block.lines with _ | ⟨line, lines⟩
      · rfl
      · rw [hlines] at hmark
        exact absurd hn hmark.newline_ne_none
    rw [AllFound, ih htail, List.forall_mem_cons, List.flatMap_cons, List.length_append,
      ← Nat.add_assoc]
    refine and_congr_left' ?_
    rw [Block.Found]
    refine forall_congr' fun hn => ?_
    rw [hlast hn, List.length_nil, Nat.add_zero]

end Newlines

/-- At the end of the line, which is `l₀`, the heredocs with these strings are read as the blocks,
and the lexer goes on at `rest`. -/
structure ReadAs (memory : Memory) (line : List YogChar) (l₀ : Lexer) (strs : List Nat)
    (blocks : List Block) (rest : List Byte) (l₁ : Lexer) : Prop where
  marks : ∀ b ∈ blocks, IsMark b.mark ∧ Stands line b.mark
  read : readHeredocs memory l₀.heredocQueue l₀ = .ok l₁
  fp : l₁.fp = some rest
  cursor : l₁.cursor = l₀.cursor
  encoding : l₁.encoding = l₀.encoding
  lineno : l₁.lineno = l₀.lineno + (blocks.flatMap Block.lines).length
  queue : l₁.heredocQueue = []
  goesOn : ∀ fuel, nextToken memory (fuel + 1) l₀ = lineToken memory fuel l₁
  values : (strs.map fun i => l₁.strs[i]?) = blocks.map fun b => some b.text
  stay : ∀ ts l₂, ts ≠ [] → Lexes memory l₀ ts l₂ →
    (strs.map fun i => l₂.strs[i]?) = blocks.map fun b => some b.text

theorem moves_lineToken {memory : Memory} {fuel : Nat} {l l' : Lexer} {t : Token}
    (h : lineToken memory fuel l = .done (.ok (t, l'))) : Moves l l' (refs t.val) := by
  unfold lineToken at h
  split at h
  · cases h
    exact Moves.refl l
  · rename_i l₁ hread
    exact ((moves_readline hread).trans (moves_cursor _ _)).trans (moves_nextToken h)

/-- Behind the heredocs no string of theirs is written to any more. -/
theorem kept_of_goesOn {memory : Memory} {l₀ l₁ l₂ : Lexer} {ts : List Token}
    (hgo : ∀ fuel, nextToken memory (fuel + 1) l₀ = lineToken memory fuel l₁)
    (hts : ts ≠ []) (h : Lexes memory l₀ ts l₂) : Kept l₁ l₂ := by
  cases h with
  | nil => exact absurd rfl hts
  | @cons _ _ _ t _ fuel hnext hrest =>
    rcases fuel with _ | fuel
    · cases hnext
    · rw [hgo] at hnext
      exact (moves_lineToken hnext).kept.trans (moves_lexes hrest).kept

section Line

variable {memory : Memory} {l l' : Lexer} {ts : List Token} {cursor : Cursor}
  {blocks : List Block} {fp rest : List Byte}

/-- The blocks are what is got of them, where no newline is of two characters. -/
theorem readAs_of_filled {l₁ : Lexer} (hwithin : Within l l' l'.heredocQueue)
    (hend : l'.chars.length ≤ cursor.nextIndex)
    (hmarks : ∀ b ∈ blocks, IsMark b.mark ∧ Stands l.chars b.mark)
    (hl₁ : readHeredocs memory l'.heredocQueue { l' with cursor } = .ok l₁)
    (hfilled : Filled { l' with cursor } l'.heredocQueue blocks rest l₁)
    (hcrlf : ∀ b ∈ blocks, ∀ line ∈ b.body, line.newline ≠ .crlf) :
    ReadAs memory l.chars { l' with cursor } (l'.heredocQueue.map HereDoc.str) blocks rest l₁ := by
  obtain ⟨-, -, hempty, hlen, -⟩ := readHeredocs_kept hl₁
  have hgo (fuel : Nat) : nextToken memory (fuel + 1) { l' with cursor } =
      lineToken memory fuel l₁ := by
    rw [@nextToken_end memory { l' with cursor } hend, hl₁]
  have hvalues : ((l'.heredocQueue.map HereDoc.str).map fun i => l₁.strs[i]?) =
      blocks.map fun b => some b.text := by
    rw [List.map_map]
    refine hfilled.strs.trans (List.map_congr_left fun b hb => ?_)
    rw [Block.kept, kept_eq_text_iff.2 (hcrlf b hb), Block.text]
  refine ⟨hmarks, hl₁, hfilled.fp, hfilled.cursor, hfilled.encoding, hfilled.lineno, hempty, hgo,
    hvalues, fun ts l₂ hts hlexes => ?_⟩
  rw [← hvalues]
  refine List.map_congr_left fun i hi => ?_
  obtain ⟨h, hh, rfl⟩ := List.mem_map.1 hi
  refine (kept_of_goesOn hgo hts hlexes).strs _ ?_ fun h' hh' => ?_
  · rw [hlen]
    exact (hwithin.str_bounds h hh).2
  · rw [hempty] at hh'
    cases hh'

theorem heredocs_iff (hrun : Lexes memory l ts l') (hqueue : l.heredocQueue = [])
    (hline : l'.fp = l.fp) (hend : l'.chars.length ≤ cursor.nextIndex)
    (hblocks : l'.heredocQueue.map HereDoc.end_ = blocks.map Block.mark) (hfp : l.fp = some fp)
    (hspells : Spells l.encoding rest (blocks.flatMap Block.lines) fp)
    (hbody : ∀ b ∈ blocks, ∀ line ∈ b.body, line.chars ≠ b.mark) :
    (∃ l₁, ReadAs memory l.chars { l' with cursor } (ts.flatMap fun t => refs t.val) blocks rest
        l₁) ↔
      (∀ b ∈ blocks, ∀ line ∈ b.body, line.newline ≠ .crlf) ∧
        ∀ b ∈ blocks, b.newline = .none →
          IsNewline (memory (l.lineno + (blocks.flatMap Block.lines).length) 0) := by
  obtain ⟨new, hwithin, hrefs⟩ := (moves_lexes hrun).within (by rw [size, size, hline])
  have hnew : l'.heredocQueue = new := by rw [hwithin.queue, hqueue, List.nil_append]
  subst hnew
  have hmarks : ∀ b ∈ blocks, IsMark b.mark ∧ Stands l.chars b.mark := by
    intro b hb
    obtain ⟨h, hh, heq⟩ := List.mem_map.1 (hblocks ▸ List.mem_map_of_mem (f := Block.mark) hb)
    rw [← heq]
    exact hwithin.marks h hh
  obtain ⟨hok, herror⟩ := readHeredocs_blocks memory (l := { l' with cursor }) (hline.trans hfp)
    hblocks hwithin.nodup hwithin.getElem?_str (hwithin.encoding ▸ hspells)
    (fun b hb => (hmarks b hb).1.not_isNewline) hbody
  rw [← hwithin.lineno, ← allFound_iff hspells, ← hrefs]
  constructor
  · rintro ⟨l₁, hread⟩
    by_cases hall : AllFound memory l'.lineno blocks
    · obtain ⟨l₂, hl₂, hfilled⟩ := hok hall
      obtain rfl := Except.ok.inj (hread.read.symm.trans hl₂)
      have hvalues := hread.values
      rw [List.map_map] at hvalues
      have hsame := List.map_inj_left.1 (hfilled.strs.symm.trans hvalues)
      exact ⟨fun b hb => kept_eq_text_iff.1 (Option.some.inj (hsame b hb)), hall⟩
    · obtain ⟨e, he⟩ := herror hall
      cases hread.read.symm.trans he
  · rintro ⟨hcrlf, hall⟩
    obtain ⟨l₁, hl₁, hfilled⟩ := hok hall
    exact ⟨l₁, readAs_of_filled hwithin hend hmarks hl₁ hfilled hcrlf⟩

section Sample

/-- The line `"<<E\n"`. -/
def heredocLine (fp : List Byte) : Lexer :=
  { ofFile utf8 fp with line := some [ch '<', ch '<', ch 'E', lf], lineno := 1 }

def heredocLineEnd (fp : List Byte) : Lexer :=
  { heredocLine fp with
    cursor := ⟨.expr, 4, 0, [], []⟩, heredocQueue := [⟨0, [ch 'E'], 1⟩], strs := [[]] }

theorem lexes_heredocLine (memory : Memory) (fp : List Byte) : Lexes memory (heredocLine fp)
    [⟨.string, .heredoc 0, 1⟩, ⟨.newline, .undef, 1⟩] (heredocLineEnd fp) :=
  @Lexes.cons _ _ _ _ _ _ 1 rfl (@Lexes.cons _ _ _ _ _ _ 1 rfl (.nil _))

/-- An empty line and one that begins with the end mark. -/
def sampleBlock : Block := ⟨[ch 'E'], [⟨[], .lf⟩, ⟨[ch 'E', ch 'x'], .lf⟩], .lf⟩

theorem spells_sampleBlock : Spells utf8 [] ([sampleBlock].flatMap Block.lines)
    [0x0a, 0x45, 0x78, 0x0a, 0x45, 0x0a] :=
  @Spells.cons utf8 [] ⟨[], .lf⟩ _ [] _ ⟨by simp, by simp, by decide, by decide⟩ (by decide)
    (by decide) <|
  @Spells.cons utf8 [] ⟨[ch 'E', ch 'x'], .lf⟩ _ [0x45, 0x78] _
    ⟨by simp, by simp; decide, by decide, by decide⟩ (by decide) (by decide) <|
  @Spells.cons utf8 [] ⟨[ch 'E'], .lf⟩ _ [0x45] _ ⟨by simp, by simp; decide, by decide, by decide⟩
    (by decide) (by decide) .nil

theorem heredocs_sample : ∃ l₁, ReadAs (fun _ _ => nul)
    (heredocLine [0x0a, 0x45, 0x78, 0x0a, 0x45, 0x0a]).chars
    (heredocLineEnd [0x0a, 0x45, 0x78, 0x0a, 0x45, 0x0a]) [0] [sampleBlock] [] l₁ :=
  (@heredocs_iff _ _ _ _ ⟨.expr, 4, 0, [], []⟩ [sampleBlock] _ _ (lexes_heredocLine _ _) rfl rfl
    (by decide) rfl rfl spells_sampleBlock (by simp [sampleBlock])).2
    ⟨by simp [sampleBlock], by simp [sampleBlock]⟩

/-- A block that ends with the file. -/
def lastBlock : Block := ⟨[ch 'E'], [⟨[ch 'a'], .lf⟩], .none⟩

theorem spells_lastBlock : Spells utf8 [] lastBlock.lines [0x61, 0x0a, 0x45] :=
  @Spells.cons utf8 [] ⟨[ch 'a'], .lf⟩ _ [0x61] _
    ⟨by simp, by simp; decide, by decide, by decide⟩ (by decide) (by decide) <|
  @spells_line utf8 [ch 'E'] [0x45] ⟨by simp, by simp; decide, by decide, by decide⟩

theorem not_readAs_lastBlock : Lexes (fun _ _ => nul) (heredocLine [0x61, 0x0a, 0x45])
      [⟨.string, .heredoc 0, 1⟩, ⟨.newline, .undef, 1⟩] (heredocLineEnd [0x61, 0x0a, 0x45]) ∧
    Spells utf8 [] lastBlock.lines [0x61, 0x0a, 0x45] ∧
    (∀ line ∈ lastBlock.body, line.chars ≠ lastBlock.mark) ∧
    ¬ ∃ l₁, ReadAs (fun _ _ => nul) (heredocLine [0x61, 0x0a, 0x45]).chars
      (heredocLineEnd [0x61, 0x0a, 0x45]) [0] [lastBlock] [] l₁ := by
  refine ⟨lexes_heredocLine _ _, spells_lastBlock, by simp [lastBlock]; decide, ?_⟩
  rintro ⟨l₁, hread⟩
  have herror : readHeredocs (fun _ _ => nul) (heredocLineEnd [0x61, 0x0a, 0x45]).heredocQueue
      (heredocLineEnd [0x61, 0x0a, 0x45]) = .error (.eofInHeredoc 1) := rfl
  cases hread.read.symm.trans herror

end Sample

end Line

end Yog.Lexer
