import Mathlib.Data.List.Basic
import Mathlib.Data.List.TakeWhile
import Yog.Lexer
import Yog.Lib.Emission

/-!
# What a token changes

On a line a token moves the cursor and can begin a heredoc, which is put behind the others in the
queue with an empty string (`Within`). Only the strings of the queue are written to, when the line
has ended (`Kept`). Every token of every lexer does so (`moves_nextToken`).
-/

namespace Yog

namespace Cursor

open Lexer (nul)

section Drop

variable {line tail : List YogChar} {self : Cursor} {c : YogChar}

theorem nextc_of_drop (h : line.drop self.nextIndex = c :: tail) :
    self.nextc line = (c, { self with nextIndex := self.nextIndex + 1 }) := by
  have hc : (line)[self.nextIndex]? = some c := by rw [← List.head?_drop, h, List.head?_cons]
  rw [nextc, hc]

theorem nextc_of_end (h : line.drop self.nextIndex = []) : self.nextc line = (nul, self) := by
  have hc : (line)[self.nextIndex]? = none := by rw [← List.head?_drop, h, List.head?_nil]
  rw [nextc, hc]

theorem drop_of_append {cs : List YogChar} {i : Nat} (h : line.drop i = cs ++ tail) :
    line.drop (i + cs.length) = tail := by
  rw [← List.drop_drop, h, List.drop_left]

theorem drop_of_nextc (h : (self.nextc line).1 ≠ nul) :
    ∃ tail, line.drop self.nextIndex = (self.nextc line).1 :: tail ∧
      (self.nextc line).2 = { self with nextIndex := self.nextIndex + 1 } := by
  rcases hdrop : line.drop self.nextIndex with _ | ⟨c, tail⟩
  · rw [nextc_of_end hdrop] at h
    exact absurd rfl h
  · rw [nextc_of_drop hdrop]
    exact ⟨tail, rfl, rfl⟩

end Drop

theorem readWhile_eq_false {line : List YogChar} {p : YogChar → Bool} (hnul : p Lexer.nul = false)
    (self : Cursor) : p (self.readWhile line p).2.1 = false := by
  have hdrop := drop_of_append
    (@List.takeWhile_append_dropWhile _ p (line.drop self.nextIndex)).symm
  have hhead := List.head?_dropWhile_not p (line.drop self.nextIndex)
  simp only [readWhile]
  rcases hrest : (line.drop self.nextIndex).dropWhile p with _ | ⟨c, tail⟩
  · rwa [nextc_of_end (hdrop.trans hrest)]
  · rw [hrest] at hhead
    rwa [nextc_of_drop (hdrop.trans hrest)]

theorem skipLineComment_ne {line : List YogChar} {self : Cursor} {c : YogChar}
    (hcr : c ≠ Lexer.cr) (hlf : c ≠ Lexer.lf) (hnul : c ≠ Lexer.nul) :
    (self.skipLineComment line).1 ≠ c := by
  intro hc
  have hfalse := @readWhile_eq_false line
    (fun c => c ≠ Lexer.cr && c ≠ Lexer.lf && c ≠ Lexer.nul) (by decide) self
  rw [skipLineComment] at hc
  rw [hc] at hfalse
  simp [hcr, hlf, hnul] at hfalse

end Cursor

namespace Lexer

/-- How much of the file is left. -/
def size (self : Lexer) : Nat := (self.fp.getD []).length

theorem length_splitLine (fp : List Byte) :
    (splitLine fp).1.length + (splitLine fp).2.length ≤ fp.length := by
  induction fp with
  | nil => rfl
  | cons c fp ih =>
    unfold splitLine
    split_ifs
    · simp [Nat.add_comm]
    · simp only [List.length_cons, List.length_nil, List.length_tail]
      omega
    · simp [Nat.add_comm]
    · simp only [List.length_cons]
      omega

theorem splitLine_ne_nil (c : Byte) (fp : List Byte) : (splitLine (c :: fp)).1 ≠ [] := by
  unfold splitLine
  split_ifs <;> simp

theorem readline_eq_some {l l' : Lexer} (h : l.readline = some l') :
    ∃ c fp, l.fp = some (c :: fp) ∧ l' = { l with
      fp := some (splitLine (c :: fp)).2
      line := some (l.encoding.convToYog (splitLine (c :: fp)).1)
      lineno := l.lineno + 1 } := by
  unfold readline at h
  split at h
  · cases h
  · cases h
  · rename_i c fp hfp
    exact ⟨c, fp, hfp, (Option.some.inj h).symm⟩

theorem readline_eq_none {l : Lexer} (h : l.fp.getD [] = []) : l.readline = none := by
  unfold readline
  rcases hfp : l.fp with _ | _ | ⟨c, fp⟩
  · rfl
  · rfl
  · rw [hfp] at h
    cases h

theorem size_readline {l l' : Lexer} (h : l.readline = some l') : l'.size < l.size := by
  obtain ⟨c, fp, hfp, rfl⟩ := readline_eq_some h
  have hle := length_splitLine (c :: fp)
  have hpos := List.length_pos_iff.2 (splitLine_ne_nil c fp)
  simp only [size, hfp, Option.getD_some]
  omega

/-- An end mark: a letter or `'_'` and what can follow it. -/
structure IsMark (mark : List YogChar) : Prop where
  head : ∃ c cs, mark = c :: cs ∧ (isalpha c || c = ch '_') = true
  all : ∀ c ∈ mark, isMarkChar c = true

/-- The mark is behind a `"<<"` of the line, the whole of it. -/
def Stands (line mark : List YogChar) : Prop :=
  ∃ before after, line = before ++ ch '<' :: ch '<' :: mark ++ after ∧
    ∀ c ∈ after.head?, isMarkChar c = false

/-- No line is read, and the heredocs `new` are begun. -/
structure Within (l l' : Lexer) (new : List HereDoc) : Prop where
  fp : l'.fp = l.fp
  line : l'.line = l.line
  encoding : l'.encoding = l.encoding
  lineno : l'.lineno = l.lineno
  queue : l'.heredocQueue = l.heredocQueue ++ new
  strs : l'.strs = l.strs ++ new.map fun _ => []
  refs : new.map HereDoc.str = List.range' l.strs.length new.length
  marks : ∀ h ∈ new, IsMark h.end_ ∧ Stands l.chars h.end_

/-- The strings that are no longer to be read stay as they are. -/
structure Kept (l l' : Lexer) : Prop where
  length : l.strs.length ≤ l'.strs.length
  strs : ∀ i < l.strs.length, (∀ h ∈ l.heredocQueue, h.str ≠ i) → l'.strs[i]? = l.strs[i]?
  queue : ∀ h ∈ l'.heredocQueue, h ∈ l.heredocQueue ∨ l.strs.length ≤ h.str

/-- What is read on a line begins heredocs with these strings. -/
structure Moves (l l' : Lexer) (refs : List Nat) : Prop where
  kept : Kept l l'
  size : l'.size ≤ l.size
  within : l'.size = l.size → ∃ new, Within l l' new ∧ new.map HereDoc.str = refs

theorem Within.refl (l : Lexer) : Within l l [] :=
  ⟨rfl, rfl, rfl, rfl, by simp, by simp, rfl, by simp⟩

theorem Within.trans {l l₁ l₂ : Lexer} {new new' : List HereDoc} (h : Within l l₁ new)
    (h' : Within l₁ l₂ new') : Within l l₂ (new ++ new') where
  fp := h'.fp.trans h.fp
  line := h'.line.trans h.line
  encoding := h'.encoding.trans h.encoding
  lineno := h'.lineno.trans h.lineno
  queue := by rw [h'.queue, h.queue, List.append_assoc]
  strs := by rw [h'.strs, h.strs, List.map_append, List.append_assoc]
  refs := by
    have hlen : l₁.strs.length = l.strs.length + new.length := by simp [h.strs]
    rw [List.map_append, h.refs, h'.refs, hlen, List.length_append, ← List.range'_append_1]
  marks d hd := by
    rcases List.mem_append.1 hd with hd | hd
    · exact h.marks d hd
    · have hm := h'.marks d hd
      rwa [chars, h.line, ← chars] at hm

theorem Kept.trans {l l₁ l₂ : Lexer} (h : Kept l l₁) (h' : Kept l₁ l₂) : Kept l l₂ where
  length := h.length.trans h'.length
  strs i hi hqueue := by
    rw [h'.strs i (hi.trans_le h.length) fun d hd => ?_, h.strs i hi hqueue]
    rcases h.queue d hd with hd | hd
    · exact hqueue d hd
    · omega
  queue d hd := by
    rcases h'.queue d hd with hd | hd
    · exact h.queue d hd
    · exact .inr (h.length.trans hd)

theorem Within.str_bounds {l l' : Lexer} {new : List HereDoc} (h : Within l l' new) :
    ∀ d ∈ new, l.strs.length ≤ d.str ∧ d.str < l'.strs.length := by
  intro d hd
  have hmem : d.str ∈ new.map HereDoc.str := List.mem_map_of_mem hd
  rw [h.refs, List.mem_range'_1] at hmem
  rwa [h.strs, List.length_append, List.length_map]

theorem Within.nodup {l l' : Lexer} {new : List HereDoc} (h : Within l l' new) :
    (new.map HereDoc.str).Nodup := h.refs ▸ List.nodup_range'

/-- The strings are empty before the line has ended. -/
theorem Within.getElem?_str {l l' : Lexer} {new : List HereDoc} (h : Within l l' new) :
    ∀ d ∈ new, l'.strs[d.str]? = some [] := by
  intro d hd
  obtain ⟨hle, hlt⟩ := h.str_bounds d hd
  rw [h.strs, List.length_append, List.length_map] at hlt
  rw [h.strs, List.getElem?_append_right hle, List.map_const', List.getElem?_replicate,
    if_pos (by omega)]

theorem Within.kept {l l' : Lexer} {new : List HereDoc} (h : Within l l' new) : Kept l l' where
  length := by simp [h.strs]
  strs i hi _ := by rw [h.strs, List.getElem?_append_left hi]
  queue d hd := by
    rw [h.queue] at hd
    exact (List.mem_append.1 hd).imp_right fun hd => (h.str_bounds d hd).1

theorem Within.moves {l l' : Lexer} {new : List HereDoc} {refs : List Nat} (h : Within l l' new)
    (hrefs : new.map HereDoc.str = refs) : Moves l l' refs :=
  ⟨h.kept, by rw [size, size, h.fp], fun _ => ⟨new, h, hrefs⟩⟩

theorem Moves.refl (l : Lexer) : Moves l l [] := (Within.refl l).moves rfl

theorem Moves.trans {l l₁ l₂ : Lexer} {refs refs' : List Nat} (h : Moves l l₁ refs)
    (h' : Moves l₁ l₂ refs') : Moves l l₂ (refs ++ refs') where
  kept := h.kept.trans h'.kept
  size := h'.size.trans h.size
  within heq := by
    have hle := h.size
    have hle' := h'.size
    obtain ⟨new, hnew, hrefs⟩ := h.within (by omega)
    obtain ⟨new', hnew', hrefs'⟩ := h'.within (by omega)
    exact ⟨new ++ new', hnew.trans hnew', by rw [List.map_append, hrefs, hrefs']⟩

theorem Moves.of_refs {l l' : Lexer} {refs refs' : List Nat} (h : Moves l l' refs)
    (hrefs : refs' = refs) : Moves l l' refs' := hrefs ▸ h

theorem moves_cursor (l : Lexer) (cursor : Cursor) : Moves l { l with cursor } [] :=
  @Within.moves _ _ [] _ ⟨rfl, rfl, rfl, rfl, by simp, by simp, rfl, by simp⟩ rfl

theorem moves_readline {l l' : Lexer} (h : l.readline = some l') : Moves l l' [] := by
  have hlt := size_readline h
  refine ⟨?_, hlt.le, fun heq => absurd heq hlt.ne⟩
  obtain ⟨c, fp, -, rfl⟩ := readline_eq_some h
  exact ⟨le_rfl, fun _ _ _ => rfl, fun _ hd => .inl hd⟩

theorem moves_nextc (l : Lexer) : Moves l l.nextc.2 [] := moves_cursor l _

theorem moves_pushback (l : Lexer) (c : YogChar) : Moves l (l.pushback c) [] := moves_cursor l _

theorem moves_skipComment : ∀ {fuel depth : Nat} {l l' : Lexer},
    skipComment fuel depth l = .done (.ok l') → Moves l l' []
  | 0, _, _, _, h => by cases h
  | fuel + 1, depth, l, l', h => by
    have hc := moves_nextc l
    have hc₂ := hc.trans (moves_nextc l.nextc.2)
    simp only [skipComment] at h
    split_ifs at h
    · cases h
      exact hc₂
    · exact hc₂.trans (moves_skipComment h)
    · exact (hc₂.trans (moves_pushback _ _)).trans (moves_skipComment h)
    · exact hc₂.trans (moves_skipComment h)
    · exact (hc₂.trans (moves_pushback _ _)).trans (moves_skipComment h)
    · split at h
      · cases h
      · rename_i l₁ hread
        exact ((hc.trans (moves_readline hread)).trans (moves_cursor _ _)).trans
          (moves_skipComment h)
    · exact hc.trans (moves_skipComment h)

/-- A heredoc reads at least a line, and writes to its own string only. -/
theorem readHeredoc_kept {memory : Memory} {heredoc : HereDoc} : ∀ {steps : Nat} {l l' : Lexer},
    readHeredoc memory heredoc steps l = .ok l' →
      l'.size < l.size ∧ l'.heredocQueue = l.heredocQueue ∧ l'.strs.length = l.strs.length ∧
        ∀ i ≠ heredoc.str, l'.strs[i]? = l.strs[i]?
  | 0, _, _, h => by cases h
  | steps + 1, l, l', h => by
    rw [readHeredoc] at h
    split at h
    · cases h
    · rename_i l₁ hread
      have hlt := size_readline hread
      obtain ⟨c, fp, -, rfl⟩ := readline_eq_some hread
      split_ifs at h
      · cases h
        exact ⟨hlt, rfl, rfl, fun _ _ => rfl⟩
      · obtain ⟨hsize, hqueue, hlen, hstrs⟩ := readHeredoc_kept h
        refine ⟨hsize.trans hlt, hqueue, hlen.trans (List.length_modify ..), fun i hi => ?_⟩
        rw [hstrs i hi, append, List.getElem?_modify_ne _ _ hi.symm]

theorem readHeredocs_kept {memory : Memory} : ∀ {queue : List HereDoc} {l l' : Lexer},
    readHeredocs memory queue l = .ok l' →
      l'.size ≤ l.size ∧ (l'.size = l.size → queue = []) ∧ l'.heredocQueue = [] ∧
        l'.strs.length = l.strs.length ∧
        ∀ i, (∀ h ∈ queue, h.str ≠ i) → l'.strs[i]? = l.strs[i]?
  | [], l, l', h => by
    cases h
    exact ⟨le_rfl, fun _ => rfl, rfl, rfl, fun _ _ => rfl⟩
  | heredoc :: queue, l, l', h => by
    obtain ⟨l₁, h₁, h₂⟩ := Except.bind_eq_ok_iff.1 h
    obtain ⟨hlt, -, hlen, hstrs⟩ := readHeredoc_kept h₁
    obtain ⟨hle, -, hqueue, hlen', hstrs'⟩ := readHeredocs_kept h₂
    have hsize : l'.size < l.size := hle.trans_lt hlt
    refine ⟨hsize.le, fun heq => absurd heq hsize.ne, hqueue, hlen'.trans hlen, fun i hi => ?_⟩
    rw [hstrs' i fun d hd => hi d (List.mem_cons_of_mem _ hd),
      hstrs i (hi heredoc List.mem_cons_self).symm]

theorem moves_readHeredocs {memory : Memory} {l l' : Lexer}
    (h : readHeredocs memory l.heredocQueue l = .ok l') : Moves l l' [] := by
  obtain ⟨hle, hempty, hqueue, hlen, hstrs⟩ := readHeredocs_kept h
  refine ⟨⟨hlen.ge, fun i _ hi => hstrs i hi, fun d hd => ?_⟩, hle, fun heq => ?_⟩
  · rw [hqueue] at hd
    cases hd
  · have hnil := hempty heq
    rw [hnil] at h
    cases h
    refine ⟨[], ⟨rfl, rfl, rfl, rfl, ?_, ?_, rfl, by simp⟩, rfl⟩
    · simp [hnil]
    · simp

/-- The heredoc that the value is of. -/
def refs : TokenVal → List Nat
  | .heredoc str => [str]
  | _ => []

/-- Whatever token is got is no heredoc. -/
def Plain (r : Partial LexError (TokenType × TokenVal × Cursor)) : Prop :=
  ∀ x, r = .done (.ok x) → refs x.2.1 = []

theorem plain_ok (type : TokenType) (val : TokenVal) (cursor : Cursor) (hval : refs val = []) :
    Plain (.done (.ok (type, val, cursor))) := by
  rintro x hx
  cases hx
  exact hval

@[simp] theorem plain_token (cursor : Cursor) (type : TokenType) :
    Plain (.done (cursor.token type)) := plain_ok _ _ _ rfl

@[simp] theorem plain_idToken (cursor : Cursor) (type : TokenType) (name : String) :
    Plain (.done (cursor.idToken type name)) := plain_ok _ _ _ rfl

@[simp] theorem plain_intToken (cursor : Cursor) (digits : List YogChar) :
    Plain (.done (cursor.intToken digits)) := plain_ok _ _ _ rfl

theorem plain_bind {α : Type} {r : Except LexError α} {k : α → Cursor.Scanned}
    (hk : ∀ a, Plain (.done (k a))) : Plain (.done (r >>= k)) := by
  rintro x hx
  obtain ⟨a, -, ha⟩ := Except.bind_eq_ok_iff.1 (Partial.done_inj.1 hx)
  exact hk a x (Partial.done_inj.2 ha)

section Plain

variable (line : List YogChar) (cursor : Cursor) (c : YogChar)

@[simp] theorem plain_baseToken (isValidChar : YogChar → Bool) (c c₂ : YogChar) :
    Plain (.done (cursor.baseToken line isValidChar c c₂)) :=
  plain_bind fun _ => plain_intToken _ _

@[simp] theorem plain_decimalToken : Plain (.done (cursor.decimalToken line c)) := by
  simp only [Cursor.decimalToken]
  split_ifs
  · exact plain_ok _ _ _ rfl
  · exact plain_intToken _ _
  · exact plain_intToken _ _

@[simp] theorem plain_numberToken : Plain (.done (cursor.numberToken line c)) := by
  simp only [Cursor.numberToken]
  split_ifs <;> simp

@[simp] theorem plain_signToken (type equalType : TokenType) (name selfName : String) :
    Plain (.done (cursor.signToken line type equalType name selfName)) := by
  simp only [Cursor.signToken]
  split_ifs <;> simp

@[simp] theorem plain_doubledToken (op : Cursor.Doubled) :
    Plain (.done (cursor.doubledToken line op)) := by
  simp only [Cursor.doubledToken]
  split_ifs
  · exact plain_token _ _
  · exact plain_token _ _
  · split
    · exact plain_idToken _ _ _
    · exact plain_token _ _
  · exact plain_idToken _ _ _

@[simp] theorem plain_equalToken (type equalType : TokenType) (name : String) :
    Plain (.done (cursor.equalToken line type equalType name)) := by
  simp only [Cursor.equalToken]
  split_ifs <;> simp

@[simp] theorem plain_notToken : Plain (.done (cursor.notToken line)) := by
  simp only [Cursor.notToken]
  split_ifs <;> simp

@[simp] theorem plain_assignToken : Plain (.done (cursor.assignToken line)) := by
  simp only [Cursor.assignToken]
  split_ifs <;> simp

@[simp] theorem plain_greaterToken : Plain (.done (cursor.greaterToken line)) := by
  simp only [Cursor.greaterToken]
  split_ifs <;> simp

@[simp] theorem plain_tildaToken : Plain (.done (cursor.tildaToken line)) := by
  simp only [Cursor.tildaToken]
  split_ifs <;> simp

@[simp] theorem plain_bracketToken : Plain (.done (cursor.bracketToken line)) := by
  simp only [Cursor.bracketToken, Cursor.lbracketToken]
  split_ifs <;> simp

@[simp] theorem plain_nameToken : Plain (.done (cursor.nameToken line c)) := by
  simp only [Cursor.nameToken]
  split_ifs
  · exact plain_ok _ _ _ rfl
  · split
    · exact plain_bind fun _ => plain_token _ _
    · exact plain_ok _ _ _ rfl

@[simp] theorem plain_symbolToken : Plain (.done (cursor.symbolToken line)) := plain_ok _ _ _ rfl

@[simp] theorem plain_stringToken (fuel : Nat) : Plain (cursor.stringToken line fuel) := by
  intro x hx
  rcases Partial.bind_eq_done.1 hx with ⟨a, -, ha⟩ | ⟨e, -, he⟩
  · exact plain_ok _ _ _ rfl x ha
  · cases he

@[simp] theorem plain_regexpToken (fuel : Nat) : Plain (cursor.regexpToken line fuel) := by
  intro x hx
  rcases Partial.bind_eq_done.1 hx with ⟨a, -, ha⟩ | ⟨e, -, he⟩
  · exact plain_ok _ _ _ rfl x ha
  · cases he

theorem plain_charToken (fuel : Nat) : Plain (cursor.charToken line fuel c) := by
  unfold Cursor.charToken
  repeat' refine iteInduction (fun _ => ?_) fun _ => ?_
  all_goals simp

end Plain

@[simp] theorem chars_cursor (l : Lexer) (cursor : Cursor) :
    chars { l with cursor } = l.chars := rfl

theorem moves_enqueueHeredoc (l : Lexer) (cursor : Cursor) {mark : List YogChar}
    (hmark : IsMark mark) (hstands : Stands l.chars mark) :
    Moves l (enqueueHeredoc { l with cursor } mark) [l.strs.length] := by
  refine @Within.moves _ _ [⟨l.strs.length, mark, l.lineno⟩] _
    ⟨rfl, rfl, rfl, rfl, rfl, rfl, rfl, fun d hd => ?_⟩ rfl
  obtain rfl := List.mem_singleton.1 hd
  exact ⟨hmark, hstands⟩

/-- The mark is all that can be of one behind the `"<<"`. -/
theorem moves_heredocToken {l : Lexer} {before tail : List YogChar}
    (hchars : l.chars = before ++ ch '<' :: ch '<' :: tail)
    (hdrop : l.chars.drop l.cursor.nextIndex = tail) :
    Moves l l.heredocToken.2 (refs l.heredocToken.1.val) := by
  unfold heredocToken
  simp only
  split_ifs with halpha
  · exact (moves_nextc l).trans (moves_pushback _ _)
  · rcases tail with _ | ⟨c, tail⟩
    · simp only [nextc, Cursor.nextc_of_end hdrop] at halpha
      exact absurd halpha (by decide)
    · have hrest : l.chars.drop (l.cursor.nextIndex + 1) = tail :=
        @Cursor.drop_of_append _ _ [c] _ hdrop
      have hmark : IsMark (c :: tail.takeWhile isMarkChar) := by
        have hc : (isalpha c || c = ch '_') = true := by
          simp only [nextc, Cursor.nextc_of_drop hdrop] at halpha
          by_contra hc
          simp_all
        refine ⟨⟨c, _, rfl, hc⟩, fun d hd => ?_⟩
        rcases List.mem_cons.1 hd with rfl | hd
        · rw [isMarkChar, isalnum, Bool.or_right_comm, hc, Bool.true_or]
        · exact List.mem_takeWhile_imp hd
      have hstands : Stands l.chars (c :: tail.takeWhile isMarkChar) := by
        refine ⟨before, tail.dropWhile isMarkChar, ?_, ?_⟩
        · simp [hchars]
        · intro d hd
          have hhead := List.head?_dropWhile_not isMarkChar tail
          rw [hd] at hhead
          exact hhead
      simp only [nextc, chars_cursor, Cursor.nextc_of_drop hdrop, Cursor.readWhile, hrest]
      exact moves_enqueueHeredoc l _ hmark hstands

theorem moves_lessToken {l : Lexer} {before tail : List YogChar}
    (hchars : l.chars = before ++ ch '<' :: tail)
    (hdrop : l.chars.drop l.cursor.nextIndex = tail) :
    Moves l l.lessToken.2 (refs l.lessToken.1.val) := by
  have h₂ := moves_nextc l
  unfold lessToken
  simp only
  split_ifs with hc hstate h₃ h₃ h₄
  · rcases tail with _ | ⟨c, tail⟩
    · simp only [nextc, Cursor.nextc_of_end hdrop] at hc
      exact absurd hc (by decide)
    · simp only [nextc, Cursor.nextc_of_drop hdrop] at hc ⊢
      subst hc
      exact (moves_cursor l _).trans
        (@moves_heredocToken _ before tail hchars (@Cursor.drop_of_append _ _ [ch '<'] _ hdrop))
  · exact h₂.trans (moves_cursor _ _)
  · exact h₂.trans (moves_cursor _ _)
  · exact h₂.trans (moves_cursor _ _)
  · exact h₂.trans (moves_cursor _ _)
  · exact h₂.trans (moves_cursor _ _)

section Again

variable {again : Lexer → Partial LexError (Token × Lexer)}
  (hagain : ∀ {l l' : Lexer} {t : Token}, again l = .done (.ok (t, l')) → Moves l l' (refs t.val))

include hagain

theorem moves_newlineToken {l l' : Lexer} {c : YogChar} {t : Token}
    (h : l.newlineToken again c = .done (.ok (t, l'))) : Moves l l' (refs t.val) := by
  simp only [newlineToken] at h
  split_ifs at h
  · exact ((moves_nextc l).trans (moves_pushback _ _)).trans (hagain h)
  · cases h
    exact moves_cursor l _
  · exact (moves_nextc l).trans (hagain h)
  · cases h
    exact moves_cursor l _
  · exact hagain h
  · cases h
    exact moves_cursor l _

theorem moves_parToken {fuel : Nat} {l l' : Lexer} {t : Token}
    (h : l.parToken again fuel = .done (.ok (t, l'))) : Moves l l' (refs t.val) := by
  simp only [parToken] at h
  split_ifs at h
  · rcases Partial.bind_eq_done.1 h with ⟨l₁, hskip, hl₁⟩ | ⟨e, -, he⟩
    · exact ((moves_nextc l).trans (moves_skipComment hskip)).trans (hagain hl₁)
    · cases he
  · cases h
    exact moves_cursor l _

theorem moves_tokenAt {fuel : Nat} {l l' : Lexer} {c : YogChar} {t : Token}
    (hless : c = ch '<' → ∃ before tail, l.chars = before ++ ch '<' :: tail ∧
      l.chars.drop l.cursor.nextIndex = tail)
    (h : l.tokenAt again fuel c = .done (.ok (t, l'))) : Moves l l' (refs t.val) := by
  simp only [tokenAt] at h
  split_ifs at h with hnewline hpar hc
  · exact moves_newlineToken hagain h
  · exact moves_parToken hagain h
  · obtain ⟨before, tail, hchars, hdrop⟩ := hless hc
    have hless := moves_lessToken hchars hdrop
    rwa [Except.ok.inj (Partial.done_inj.1 h)] at hless
  · rcases Partial.bind_eq_done.1 h with ⟨r, hr, hscanned⟩ | ⟨e, -, he⟩
    · cases hscanned
      have hrefs := plain_charToken l.chars l.cursor c fuel r hr
      exact (moves_cursor l _).of_refs hrefs
    · cases he

end Again

theorem moves_nextToken {memory : Memory} : ∀ {fuel : Nat} {l l' : Lexer} {t : Token},
    nextToken memory fuel l = .done (.ok (t, l')) → Moves l l' (refs t.val)
  | 0, _, _, _, h => by cases h
  | fuel + 1, l, l', t, h => by
    simp only [nextToken] at h
    split_ifs at h with hindex hblank hcomment
    · exact ((moves_nextc l).trans (moves_cursor _ _)).trans (moves_nextToken h)
    · refine ((moves_nextc l).trans (moves_cursor _ _)).trans
        (moves_tokenAt moves_nextToken (fun hc => ?_) h)
      exact absurd hc (Cursor.skipLineComment_ne (by decide) (by decide) (by decide))
    · refine (moves_nextc l).trans (moves_tokenAt moves_nextToken (fun hc => ?_) h)
      have hne : (l.cursor.nextc l.chars).1 ≠ nul := by
        rw [show (l.cursor.nextc l.chars).1 = ch '<' from hc]
        decide
      obtain ⟨tail, hdrop, hnext⟩ := Cursor.drop_of_nextc hne
      rw [show (l.cursor.nextc l.chars).1 = ch '<' from hc] at hdrop
      refine ⟨l.chars.take l.cursor.nextIndex, tail, ?_, ?_⟩
      · simp only [nextc, chars_cursor]
        rw [← hdrop, List.take_append_drop]
      · simp only [nextc, chars_cursor, hnext]
        exact @Cursor.drop_of_append _ _ [ch '<'] _ hdrop
    · split at h
      · cases h
      · rename_i l₁ hread
        have h₁ := moves_readHeredocs hread
        split at h
        · cases h
          exact h₁
        · rename_i l₂ hline
          exact ((h₁.trans (moves_readline hline)).trans (moves_cursor _ _)).trans
            (moves_nextToken h)

/-- What the tokens of a run begin is what they refer to. -/
theorem moves_lexes {memory : Memory} {l l' : Lexer} {ts : List Token} (h : Lexes memory l ts l') :
    Moves l l' (ts.flatMap fun t => refs t.val) := by
  induction h with
  | nil l => exact Moves.refl l
  | cons h _ ih => exact (moves_nextToken h).trans ih

section First

variable {memory : Memory} {l : Lexer} {c : YogChar} {tail : List YogChar}

theorem nextToken_of_drop (h : l.chars.drop l.cursor.nextIndex = c :: tail)
    (hblank : isblank c = false) (hcomment : c ≠ ch '#') (fuel : Nat) :
    nextToken memory (fuel + 1) l = tokenAt (nextToken memory fuel) fuel
      { l with cursor := { l.cursor with nextIndex := l.cursor.nextIndex + 1 } } c := by
  have hlt : l.cursor.nextIndex < l.chars.length := by
    by_contra hge
    rw [List.drop_eq_nil_of_le (not_lt.1 hge)] at h
    cases h
  rw [nextToken, if_pos hlt]
  simp only [nextc, Cursor.nextc_of_drop h]
  rw [if_neg (by simp [hblank]), if_neg hcomment]

theorem tokenAt_char {again : Lexer → Partial LexError (Token × Lexer)}
    (hnewline : ¬ (c = cr ∨ c = lf)) (hpar : c ≠ ch '(') (hless : c ≠ ch '<') (fuel : Nat) :
    tokenAt again fuel l c = (do
      let r ← l.cursor.charToken l.chars fuel c
      .done (.ok (l.scanned r))) := by
  rw [tokenAt, if_neg hnewline, if_neg hpar, if_neg hless]

end First

/-- What is done when the heredocs of a line have been read. -/
def lineToken (memory : Memory) (fuel : Nat) (l : Lexer) : Partial LexError (Token × Lexer) :=
  match l.readline with
  | none => .done (.ok (l.valToken .eof .undef))
  | some l => nextToken memory fuel l.start

theorem nextToken_end {memory : Memory} {l : Lexer}
    (hend : l.chars.length ≤ l.cursor.nextIndex) (fuel : Nat) :
    nextToken memory (fuel + 1) l =
      match readHeredocs memory l.heredocQueue l with
      | .error e => .done (.error e)
      | .ok l => lineToken memory fuel l := by
  rw [nextToken, if_neg hend.not_gt]
  rfl

theorem nextToken_end_of_empty {memory : Memory} {l : Lexer}
    (hend : l.chars.length ≤ l.cursor.nextIndex) (hqueue : l.heredocQueue = []) (fuel : Nat) :
    nextToken memory (fuel + 1) l = lineToken memory fuel l := by
  rw [nextToken_end hend, hqueue, readHeredocs, ← hqueue]

end Lexer

end Yog
