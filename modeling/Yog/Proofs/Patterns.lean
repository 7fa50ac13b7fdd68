import Yog.Proofs.PatternSyntax
import Yog.Lib.Emission

/-!
# Parsing regular expressions

What `parse_branch` makes of a pattern. It reads a pattern of the documented syntax as documented,
if the pattern has none of the constructs that `Reads False` leaves out (`meets_of_plain`), and ends
on every pattern (`parse_ne_running`).
-/

namespace Yog

namespace Corgi

theorem escapeOf_eq {c : CorgiChar} (h : c ≠ 'Z'.toNat) : escapeOf c = documentedEscape c := by
  unfold documentedEscape
  rcases hl : escapes.lookup c with _ | e
  · have hne : ∀ p ∈ escapes, c ≠ p.1 := by simpa using List.lookup_eq_none_iff.1 hl
    simp only [escapes, List.forall_mem_cons] at hne
    obtain ⟨h₁, h₂, h₃, h₄, h₅, h₆, h₇, h₈, h₉, h₁₀, h₁₁, h₁₂, h₁₃, -⟩ := hne
    unfold escapeOf
    rw [if_neg h₉, if_neg h₈, if_neg h₆, if_neg h₄, if_neg h₂, if_neg h₁₀, if_neg h₇, if_neg h₅,
      if_neg h₁₁, if_neg h₁₂, if_neg h₃, if_neg h₁₃, if_neg h₁]
    rfl
  · have htable : ∀ p ∈ escapes, p.1 ≠ 'Z'.toNat → escapeOf p.1 = p.2 := by
      simp [escapes, escapeOf]
    exact htable (c, e) (List.mem_of_lookup hl) h

theorem parseEscape_cons {c : CorgiChar} (h : c ≠ 'Z'.toNat) (r : List CorgiChar) :
    parseEscape (c :: r) = .ok (documentedEscape c, r) := by
  rw [← escapeOf_eq h]
  rfl

/-- A character of a class is an escape or stands for itself. -/
theorem classChar_cases {first : Bool} {s r : List CorgiChar} {c : CorgiChar}
    (h : classChar first s = some (c, r)) :
    (∃ d, s = '\\'.toNat :: d :: r ∧ documentedEscape d = .literal c) ∨
      (s = c :: r ∧ c ≠ '\\'.toNat ∧ c ≠ '['.toNat ∧ (c = ']'.toNat → first = true)) := by
  rcases s with _ | ⟨d, s⟩
  · simp [classChar] at h
  · unfold classChar at h
    simp only [] at h
    split_ifs at h with h₁ h₂
    · rcases s with _ | ⟨e, s⟩
      · simp at h
      · simp only [] at h
        split at h
        · rename_i he
          cases h
          exact .inl ⟨e, by rw [h₁], he⟩
        · cases h
    · cases h
      refine .inr ⟨rfl, h₁, fun hd => h₂ (.inl hd), fun hd => ?_⟩
      rcases first
      · exact absurd (.inr ⟨hd, rfl⟩) h₂
      · rfl

variable {a : Prop}

/-- A minus at the end of a class is a character. -/
theorem Members.minus {s r : List CorgiChar} {ms : List SetNode}
    (h : Members a false ('-'.toNat :: ']'.toNat :: s) ms r) :
    ms = [.literal '-'.toNat] ∧ r = s := by
  have hs : ¬ StartsRange (']'.toNat :: s) := by
    rintro ⟨d, rest, hs, hd⟩
    cases hs
  have hall : Members True false ('-'.toNat :: ']'.toNat :: s) [.literal '-'.toNat] s :=
    .more (.literal rfl hs (.inl trivial)) .close
  exact h.unique hall

theorem Members.ne_nil {r : List CorgiChar} {ms : List SetNode} : ¬ Members a false [] ms r := by
  intro h
  cases h with
  | more he =>
    cases he with
    | literal hc => simp [classChar] at hc
    | range hc => simp [classChar] at hc

theorem Members.not_minus {r : List CorgiChar} {ms : List SetNode} :
    ¬ Members a false ['-'.toNat] ms r := by
  intro h
  cases h with
  | more he hms =>
    cases he with
    | literal hc =>
      cases hc
      exact hms.ne_nil
    | range hc => cases hc

theorem escape_not_end {d c : CorgiChar} (h : documentedEscape d = .literal c) : d ≠ 'Z'.toNat := by
  rintro rfl
  cases h

/-- A range of two plain characters is read if its bounds are in order. -/
theorem parseInInternal_range {s s' r : List CorgiChar} {lo hi : CorgiChar}
    (hc : classChar false s = some (lo, '-'.toNat :: s')) (hd : s'.head? ≠ some ']'.toNat)
    (hhi : classChar false s' = some (hi, r)) (ha : PlainRange false s s') :
    ∃ rest, s = lo :: rest ∧ lo ≠ ']'.toNat ∧ r.length ≤ rest.length ∧ parseInInternal lo rest =
      if hi < lo then .error (.error .badRange) else .ok ([.range lo hi], r) := by
  obtain ⟨p₁, p₂, -, p₄⟩ := ha
  rcases classChar_cases hc with ⟨d, rfl, -⟩ | ⟨rfl, h₁, -, h₃⟩
  · exact absurd rfl p₁
  · rcases classChar_cases hhi with ⟨d, rfl, -⟩ | ⟨rfl, -, -, -⟩
    · exact absurd rfl p₄
    · have hcaret : ¬ lo = '^'.toNat := by
        rintro rfl
        exact p₂ rfl
      have hclose : ¬ hi = ']'.toNat := by
        rintro rfl
        exact hd rfl
      refine ⟨_, rfl, fun he => by simpa using h₃ he, by simp; omega, ?_⟩
      unfold parseInInternal
      rw [if_neg hcaret, if_neg h₁]
      simp only [ne_eq, not_true_eq_false, if_false]
      rw [if_neg hclose]
      rfl

/-- `parse_in_internal` reads a member, and the minus behind it if that is the last. -/
theorem parseInInternal_element {s r : List CorgiChar} {m : SetNode}
    (h : Element False false s m r) :
    ∃ c rest, s = c :: rest ∧ c ≠ ']'.toNat ∧ r.length ≤ rest.length ∧
      (parseInInternal c rest = .ok ([m], r) ∨
        parseInInternal c rest = .ok ([m, .literal '-'.toNat], r.tail) ∧
          r.head? = some '-'.toNat ∧ (r.tail.head? = none ∨ r.tail.head? = some ']'.toNat)) := by
  cases h with
  | @category c k r hk =>
    have hz : c ≠ 'Z'.toNat := by
      rintro rfl
      cases hk
    refine ⟨_, _, rfl, by decide, by simp, .inl ?_⟩
    unfold parseInInternal
    rw [if_neg (by decide), if_pos rfl, parseEscape_cons hz, hk]
    rfl
  | @literal s c r hc hs ha =>
    rcases classChar_cases hc with ⟨d, rfl, hd⟩ | ⟨rfl, h₁, h₂, h₃⟩
    · refine ⟨_, _, rfl, by decide, by simp, .inl ?_⟩
      unfold parseInInternal
      rw [if_neg (by decide), if_pos rfl, parseEscape_cons (escape_not_end hd), hd]
      rfl
    · have hcaret : ¬ c = '^'.toNat := by
        rintro rfl
        exact ha.elim id fun ha => ha rfl
      refine ⟨_, _, rfl, fun he => by simpa using h₃ he, le_rfl, ?_⟩
      unfold parseInInternal
      rw [if_neg hcaret, if_neg h₁]
      rcases r with _ | ⟨d, r⟩
      · exact .inl rfl
      · simp only []
        by_cases hd : d = '-'.toNat
        · subst hd
          rw [if_neg (not_not.2 rfl)]
          rcases r with _ | ⟨e, r⟩
          · exact .inr ⟨rfl, rfl, .inl rfl⟩
          · have he : e = ']'.toNat := by
              by_contra he
              exact hs ⟨e, r, rfl, he⟩
            subst he
            exact .inr ⟨rfl, rfl, .inr rfl⟩
        · exact .inl (if_pos hd)
  | @range s lo s' hi r hc hd hhi hle ha =>
    obtain ⟨rest, rfl, hclose, hlen, hp⟩ :=
      parseInInternal_range hc hd hhi (ha.elim False.elim id)
    exact ⟨_, _, rfl, hclose, hlen, .inl (hp.trans (if_neg (Nat.not_lt.2 hle)))⟩

theorem parseInLoop_members {first : Bool} {s r : List CorgiChar} {ms : List SetNode}
    (h : Members False first s ms r) (hf : first = false) {fuel : ℕ} (hn : s.length ≤ fuel) :
    parseInLoop fuel s = .ok (ms, r) := by
  induction h generalizing fuel with
  | close =>
    rcases fuel with _ | fuel
    · simp at hn
    · rfl
  | @more _ _ m s ms r he hms ih =>
    subst hf
    obtain ⟨c, rest, rfl, hc, hle, hp⟩ := parseInInternal_element he
    rcases fuel with _ | fuel
    · simp at hn
    · simp only [List.length_cons, Nat.add_le_add_iff_right] at hn
      simp only [parseInLoop, if_neg hc]
      rcases hp with hp | ⟨hp, hm, hb⟩
      · rw [hp]
        simp [bind, Except.bind, ih rfl (hle.trans hn), pure, Except.pure]
      · rw [hp]
        rcases s with _ | ⟨d, s⟩
        · cases hm
        · cases hm
          rcases s with _ | ⟨e, s⟩
          · exact absurd hms Members.not_minus
          · obtain rfl : e = ']'.toNat := by simpa using hb
            obtain ⟨rfl, rfl⟩ := hms.minus
            rcases fuel with _ | fuel
            · exact absurd (hle.trans hn) (by simp)
            · rfl

/-- The parser returns an error. -/
def Refused {α : Type} (r : Except Stop α) : Prop := ∃ e, r = .error (.error e)

theorem refused_error {α : Type} (e : CorgiError) :
    Refused (.error (.error e) : Except Stop α) := ⟨e, rfl⟩

theorem Refused.bind {α β : Type} {r : Except Stop α} (h : Refused r) (f : α → Except Stop β) :
    Refused (r >>= f) := by
  obtain ⟨e, rfl⟩ := h
  exact refused_error e

theorem parseInInternal_break {s : List CorgiChar} (h : ElementBreak false s) :
    ∃ c rest, s = c :: rest ∧ c ≠ ']'.toNat ∧ Refused (parseInInternal c rest) := by
  cases h with
  | @range s lo s' hi r hc hd hhi hlt ha =>
    obtain ⟨rest, rfl, hclose, -, hp⟩ := parseInInternal_range hc hd hhi ha
    exact ⟨_, _, rfl, hclose, by rw [hp, if_pos hlt]; exact refused_error _⟩
  | escape => exact ⟨_, _, rfl, by decide, refused_error _⟩

/-- Where a class ends, nothing breaks off. -/
theorem not_break_of_close {s : List CorgiChar} (hs : s.head? = none ∨ s.head? = some ']'.toNat) :
    ¬ MembersBreak false s := by
  have hchar : classChar false s = none := by
    rcases s with _ | ⟨c, s⟩
    · rfl
    · obtain rfl : c = ']'.toNat := by simpa using hs
      rfl
  intro h
  cases h with
  | here hb =>
    cases hb with
    | range hc => rw [hchar] at hc; cases hc
    | escape => simp at hs
  | later he =>
    cases he with
    | category => simp at hs
    | literal hc => rw [hchar] at hc; cases hc
    | range hc => rw [hchar] at hc; cases hc

theorem not_break_of_minus {s : List CorgiChar} (hm : s.head? = some '-'.toNat)
    (hs : s.tail.head? = none ∨ s.tail.head? = some ']'.toNat) : ¬ MembersBreak false s := by
  rcases s with _ | ⟨c, s⟩
  · cases hm
  · cases hm
    intro h
    cases h with
    | here hb =>
      cases hb with
      | range hc =>
        cases hc
        simp at hs
    | later he hb =>
      cases he with
      | literal hc =>
        cases hc
        exact not_break_of_close hs hb
      | range hc =>
        cases hc
        simp at hs

theorem parseInLoop_break {first : Bool} {s : List CorgiChar} (h : MembersBreak first s)
    (hf : first = false) {fuel : ℕ} (hn : s.length ≤ fuel) : Refused (parseInLoop fuel s) := by
  induction h generalizing fuel with
  | here hb =>
    subst hf
    obtain ⟨c, rest, rfl, hc, hr⟩ := parseInInternal_break hb
    rcases fuel with _ | fuel
    · simp at hn
    · simp only [parseInLoop, if_neg hc]
      exact hr.bind _
  | @later _ s m r he hb ih =>
    subst hf
    obtain ⟨c, rest, rfl, hc, hle, hp⟩ := parseInInternal_element he
    rcases fuel with _ | fuel
    · simp at hn
    · simp only [List.length_cons, Nat.add_le_add_iff_right] at hn
      simp only [parseInLoop, if_neg hc]
      rcases hp with hp | ⟨hp, hm, hb'⟩
      · rw [hp]
        exact (ih rfl (hle.trans hn)).bind _
      · -- behind the last minus the class ends, and nothing breaks off
        exact absurd hb (not_break_of_minus hm hb')

theorem classChar_first {first : Bool} {s : List CorgiChar} (h : s.head? ≠ some ']'.toNat) :
    classChar first s = classChar false s := by
  rcases s with _ | ⟨c, s⟩
  · rfl
  · have hc : c ≠ ']'.toNat := fun hc => h (by rw [hc]; rfl)
    simp only [classChar, hc, false_and]

/-- The first bracket is a character, other members are read as anywhere. -/
theorem Element.first_cases {s r : List CorgiChar} {m : SetNode} (h : Element False true s m r) :
    (s = ']'.toNat :: r ∧ m = .literal ']'.toNat) ∨
      (s.head? ≠ some ']'.toNat ∧ Element False false s m r) := by
  by_cases hs : s.head? = some ']'.toNat
  · rcases s with _ | ⟨c, s⟩
    · cases hs
    · cases hs
      cases h with
      | literal hc =>
        cases hc
        exact .inl ⟨rfl, rfl⟩
      | range hc _ _ _ ha => exact absurd rfl ((ha.elim False.elim id).low_ne_bracket rfl)
  · refine .inr ⟨hs, ?_⟩
    cases h with
    | category hk => exact .category hk
    | literal hc hr ha => exact .literal (classChar_first hs ▸ hc) hr ha
    | range hc hd hhi hle ha =>
      refine .range (classChar_first hs ▸ hc) hd hhi hle (.inr ?_)
      obtain ⟨p₁, p₂, -, p₄⟩ := ha.elim False.elim id
      exact ⟨p₁, p₂, nofun, p₄⟩

theorem ElementBreak.of_first {s : List CorgiChar} (h : ElementBreak true s) :
    s.head? ≠ some ']'.toNat ∧ ElementBreak false s := by
  cases h with
  | range hc hd hhi hlt ha =>
    have hs := ha.low_ne_bracket rfl
    exact ⟨hs, .range (classChar_first hs ▸ hc) hd hhi hlt
      ⟨ha.low_ne_escape, ha.low_ne_caret, nofun, ha.high_ne_escape⟩⟩
  | escape => exact ⟨by decide, .escape⟩

theorem parseIn_of_head {s : List CorgiChar} (h : s.head? ≠ some ']'.toNat) :
    parseIn s = parseInLoop s.length s := by
  rcases s with _ | ⟨c, s⟩
  · rfl
  · exact if_neg fun hc => h (by rw [hc]; rfl)

theorem parseInLoop_caret {s : List CorgiChar} (fuel : ℕ) :
    parseInLoop (fuel + 1) ('^'.toNat :: s) =
      (parseInLoop fuel s).map fun p => (.negate :: p.1, p.2) := by
  have hloop : parseInLoop (fuel + 1) ('^'.toNat :: s) =
      parseInLoop fuel s >>= fun p => .ok ([.negate] ++ p.1, p.2) := by
    simp only [parseInLoop, parseInInternal]
    rw [if_neg (by decide), if_pos trivial]
    rfl
  rw [hloop]
  rcases parseInLoop fuel s with e | p <;> rfl

theorem parseIn_class {s r : List CorgiChar} {ms : List SetNode} (h : Class False s ms r) :
    parseIn s = .ok (ms, r) := by
  cases h with
  | negative hms =>
    rw [parseIn_of_head (by simp), List.length_cons, parseInLoop_caret,
      parseInLoop_members hms rfl le_rfl]
    rfl
  | positive _ hms =>
    cases hms with
    | more he hms =>
      rcases he.first_cases with ⟨rfl, rfl⟩ | ⟨hs, he⟩
      · simp only [parseIn, if_pos, parseInLoop_members hms rfl le_rfl]
        rfl
      · rw [parseIn_of_head hs]
        exact parseInLoop_members (.more he hms) rfl le_rfl

theorem parseIn_break {s : List CorgiChar} (h : ClassBreak s) : Refused (parseIn s) := by
  cases h with
  | negative hb =>
    rw [parseIn_of_head (by simp), List.length_cons, parseInLoop_caret]
    obtain ⟨e, he⟩ := parseInLoop_break hb rfl le_rfl
    rw [he]
    exact refused_error e
  | positive _ hb =>
    cases hb with
    | here hb =>
      obtain ⟨hs, hb⟩ := hb.of_first
      rw [parseIn_of_head hs]
      exact parseInLoop_break (.here hb) rfl le_rfl
    | later he hb =>
      rcases he.first_cases with ⟨rfl, rfl⟩ | ⟨hs, he⟩
      · simp only [parseIn, if_pos]
        exact (parseInLoop_break hb rfl le_rfl).bind _
      · rw [parseIn_of_head hs]
        exact parseInLoop_break (.later he hb) rfl le_rfl

theorem createRepeatNode_eq (s : List CorgiChar) (min : ℕ) (max : Option ℕ) (body : Node) :
    createRepeatNode s min (max.getD 65535) body = repetition min max body s := by
  unfold createRepeatNode repetition
  rcases s with _ | ⟨c, s⟩
  · rfl
  · simp

/-- `parse_number` reads digits modulo the size of a `CorgiUInt`. -/
theorem parseNumberLoop_eq (n : ℕ) (s : List CorgiChar) :
    parseNumberLoop (n % 2 ^ 64) s =
      (((s.takeWhile (isDigit ·)).map (· - '0'.toNat)).foldl (fun v d => v * 10 + d) n % 2 ^ 64,
        s.dropWhile (isDigit ·)) := by
  induction s generalizing n with
  | nil => rfl
  | cons c s ih =>
    by_cases hc : isDigit c
    · have hmod : (10 * (n % 2 ^ 64) + (c - '0'.toNat)) % 2 ^ 64 =
          (n * 10 + (c - '0'.toNat)) % 2 ^ 64 := by omega
      rw [parseNumberLoop, if_pos hc, hmod, ih, List.takeWhile_cons_of_pos (by simpa using hc),
        List.dropWhile_cons_of_pos (by simpa using hc)]
      rfl
    · rw [parseNumberLoop, if_neg hc, List.takeWhile_cons_of_neg (by simpa using hc),
        List.dropWhile_cons_of_neg (by simpa using hc)]
      rfl

theorem parseNumber_eq (s : List CorgiChar) (default : ℕ) :
    parseNumber s default = (if s.takeWhile (isDigit ·) = [] then default
      else decimal (s.takeWhile (isDigit ·)) % 2 ^ 64, s.dropWhile (isDigit ·)) := by
  unfold parseNumber
  rcases s with _ | ⟨c, s⟩
  · rfl
  · by_cases hc : isDigit c
    · have hl := parseNumberLoop_eq 0 (c :: s)
      rw [if_pos (by simpa using hc), ← Nat.zero_mod (2 ^ 64), hl]
      rw [if_neg (by rw [List.takeWhile_cons_of_pos (by simpa using hc)]; simp)]
      rfl
    · rw [if_neg (by simpa using hc), List.takeWhile_cons_of_neg (by simpa using hc),
        List.dropWhile_cons_of_neg (by simpa using hc)]
      rfl

theorem parseNumber_of_lt {s : List CorgiChar} (h : decimal (s.takeWhile (isDigit ·)) < 2 ^ 64) :
    parseNumber s 0 = (decimal (s.takeWhile (isDigit ·)), s.dropWhile (isDigit ·)) := by
  rw [parseNumber_eq, Nat.mod_eq_of_lt h]
  split_ifs with hd
  · rw [hd]
    rfl
  · rfl

theorem parseNumber_max {s : List CorgiChar}
    (h : s.takeWhile (isDigit ·) ≠ [] → decimal (s.takeWhile (isDigit ·)) < 2 ^ 64) :
    parseNumber s 65535 = ((if s.takeWhile (isDigit ·) = [] then none
      else some (decimal (s.takeWhile (isDigit ·)))).getD 65535, s.dropWhile (isDigit ·)) := by
  rw [parseNumber_eq]
  split_ifs with hd
  · rfl
  · rw [Nat.mod_eq_of_lt (h hd)]
    rfl

theorem parseMinMaxRepeat_bounds {s r : List CorgiChar} {min : ℕ} {max : Option ℕ}
    (h : bounds s = some (min, max, r)) (hb : Holds min max) (body : Node) :
    parseMinMaxRepeat s body = repetition min max body r := by
  unfold bounds at h
  unfold parseMinMaxRepeat
  rcases ht : s.dropWhile (isDigit ·) with _ | ⟨c, t⟩
  · simp [ht] at h
  · simp only [ht] at h
    by_cases h₁ : c = '}'.toNat
    · subst h₁
      rw [if_pos rfl] at h
      split_ifs at h
      cases h
      rw [parseNumber_of_lt hb.1, ht]
      exact createRepeatNode_eq _ _ (some _) body
    · rw [if_neg h₁] at h
      by_cases h₂ : c = ','.toNat
      · subst h₂
        rw [if_pos rfl] at h
        rcases hu : t.dropWhile (isDigit ·) with _ | ⟨d, u⟩
        · simp [hu] at h
        · simp only [hu] at h
          split at h
          · cases h
          · rename_i h₃
            obtain rfl : d = '}'.toNat := by
              by_contra hd
              exact h₃ (.inl hd)
            cases h
            rw [parseNumber_of_lt hb.1, ht]
            simp only [List.head?_cons, if_pos, List.tail_cons]
            rw [parseNumber_max fun he => (hb.2 _ (if_neg he)).1, hu]
            exact createRepeatNode_eq _ _ _ body
      · rw [if_neg h₂] at h
        cases h

section Repeat

variable {branch : Parser (List Node)} {c c' : Compiler} {s r : List CorgiChar} {n : Node}

theorem parseRepeat_once (h : parseSinglePattern branch c s = .ok (n, c', r))
    (hq : quantifier r = none) (hr : r.head? ≠ some '{'.toNat) :
    parseRepeat branch c s = .ok (n, c', r) := by
  simp only [parseRepeat, h]
  rcases r with _ | ⟨d, r⟩
  · rfl
  · have hd : d ≠ '{'.toNat := fun hd => hr (by rw [hd]; rfl)
    simp only [quantifier] at hq
    split_ifs at hq with h₁ h₂ h₃
    simp only [bind, Except.bind, if_neg h₁, if_neg h₂, if_neg h₃, if_neg hd]
    rfl

theorem parseRepeat_repeated (h : parseSinglePattern branch c s = .ok (n, c', r)) {min : ℕ}
    {max : Option ℕ} {r' : List CorgiChar} (hq : quantifier r = some (min, max, r'))
    (hb : Holds min max) :
    parseRepeat branch c s =
      .ok ((repetition min max n r').1, c', (repetition min max n r').2) := by
  simp only [parseRepeat, h]
  rcases r with _ | ⟨d, r⟩
  · cases hq
  · simp only [quantifier] at hq
    simp only [bind, Except.bind]
    split_ifs at hq with h₁ h₂ h₃ h₄
    · cases hq
      rw [if_pos h₁, ← createRepeatNode_eq]
      rfl
    · cases hq
      rw [if_neg h₁, if_pos h₂, ← createRepeatNode_eq]
      rfl
    · cases hq
      rw [if_neg h₁, if_neg h₂, if_pos h₃, ← createRepeatNode_eq]
      rfl
    · rw [if_neg h₁, if_neg h₂, if_neg h₃, if_pos h₄, parseMinMaxRepeat_bounds hq hb]
      rfl

end Repeat

theorem getGroupName_eq {s : List CorgiChar}
    (h : s.take 3 ≠ ['?'.toNat, '<'.toNat, '>'.toNat]) : getGroupName s = groupName s := by
  unfold getGroupName groupName
  rcases s with _ | ⟨c, _ | ⟨d, _ | ⟨e, s⟩⟩⟩
  · rfl
  · rfl
  · rfl
  · simp only [List.take_succ_cons, List.take_zero, List.drop_succ_cons, List.drop_zero]
    by_cases hcd : [c, d] = ['?'.toNat, '<'.toNat]
    · have he : e ≠ '>'.toNat := by
        rintro rfl
        cases hcd
        exact h rfl
      have hne : (e :: s).takeWhile (· ≠ '>'.toNat) ≠ [] := by
        rw [List.takeWhile_cons_of_pos (by simpa using he)]
        simp
      have hname : ¬ ((c :: d :: e :: s).length ≤ 2 ∨ [c, d] ≠ ['?'.toNat, '<'.toNat]) := by
        rintro (hl | hn)
        · simp at hl
        · exact hn hcd
      rw [if_neg hname]
      rcases (e :: s).dropWhile (· ≠ '>'.toNat) with _ | ⟨f, t⟩
      · exact if_neg hne
      · exact (if_neg hne).trans (if_pos ⟨hcd, hne⟩).symm
    · rw [if_pos (.inr hcd)]
      rcases (e :: s).dropWhile (· ≠ '>'.toNat) with _ | ⟨f, t⟩
      · rfl
      · exact (if_neg fun h => hcd h.1).symm

theorem groupName_length (s : List CorgiChar) : (groupName s).2.length ≤ s.length := by
  unfold groupName
  have hd := (List.dropWhile_suffix (p := fun x => decide (x ≠ '>'.toNat))
    (l := s.drop 2)).length_le
  rcases ht : (s.drop 2).dropWhile (· ≠ '>'.toNat) with _ | ⟨c, t⟩
  · exact le_rfl
  · simp only []
    rw [ht] at hd
    split_ifs
    · simp at hd ⊢
      omega
    · exact le_rfl

section Single

variable (branch : Parser (List Node)) (c : Compiler) (s : List CorgiChar)

theorem parseSinglePattern_class :
    parseSinglePattern branch c ('['.toNat :: s) =
      parseIn s >>= fun p => .ok (.in p.1, c, p.2) := rfl

theorem parseSinglePattern_escape :
    parseSinglePattern branch c ('\\'.toNat :: s) =
      parseEscape s >>= fun p => .ok (p.1.node, c, p.2) := rfl

theorem parseSinglePattern_group :
    parseSinglePattern branch c ('('.toNat :: s) = parseGroup branch c s := rfl

theorem parseSinglePattern_ordinary {ch : CorgiChar} {n : Node} (h : ordinaryNode ch = some n) :
    parseSinglePattern branch c (ch :: s) = .ok (n, c, s) := by
  have hch := ordinaryNode_special h
  simp only [List.mem_cons, List.not_mem_nil, or_false, not_or] at hch
  obtain ⟨h₁, h₂, h₃, -, -⟩ := hch
  unfold ordinaryNode at h
  simp only [parseSinglePattern, if_neg h₁, if_neg h₂, if_neg h₃]
  split_ifs at h ⊢ <;> (cases h; rfl)

end Single

/-- How much a production reads at least. -/
def Production.least : Production → ℕ
  | .single | .item => 1
  | .sequence | .alternatives => 0

theorem classChar_length {first : Bool} {s r : List CorgiChar} {c : CorgiChar}
    (h : classChar first s = some (c, r)) : r.length < s.length := by
  rcases classChar_cases h with ⟨d, rfl, -⟩ | ⟨rfl, -⟩ <;> simp

theorem Members.length_le {a : Prop} {first : Bool} {s r : List CorgiChar} {ms : List SetNode}
    (h : Members a first s ms r) : r.length ≤ s.length := by
  induction h with
  | close => simp
  | more he _ ih =>
    cases he with
    | category => simp; omega
    | literal hc => exact ih.trans (classChar_length hc).le
    | range hc _ hhi =>
      have h₁ := classChar_length hc
      have h₂ := classChar_length hhi
      simp at h₁
      omega

theorem bounds_length {s r : List CorgiChar} {min : ℕ} {max : Option ℕ}
    (h : bounds s = some (min, max, r)) : r.length ≤ s.length := by
  unfold bounds at h
  rcases ht : s.dropWhile (isDigit ·) with _ | ⟨c, t⟩
  · simp [ht] at h
  · have hs : (c :: t).length ≤ s.length := ht ▸ (List.dropWhile_suffix _).length_le
    simp only [ht, List.length_cons] at h hs
    by_cases h₁ : c = '}'.toNat
    · rw [if_pos h₁] at h
      split_ifs at h
      cases h
      omega
    · rw [if_neg h₁] at h
      split at h
      · rcases hu : t.dropWhile (isDigit ·) with _ | ⟨d, u⟩
        · simp [hu] at h
        · have ht : (d :: u).length ≤ t.length := hu ▸ (List.dropWhile_suffix _).length_le
          simp only [hu, List.length_cons] at h ht
          split at h
          · cases h
          · cases h
            omega
      · cases h

theorem quantifier_length {s r : List CorgiChar} {min : ℕ} {max : Option ℕ}
    (h : quantifier s = some (min, max, r)) : r.length ≤ s.length := by
  rcases s with _ | ⟨c, s⟩
  · cases h
  · simp only [quantifier] at h
    split_ifs at h
    · cases h
      simp
    · cases h
      simp
    · cases h
      simp
    · exact (bounds_length h).trans (by simp)

theorem repetition_length (min : ℕ) (max : Option ℕ) (body : Node) (s : List CorgiChar) :
    (repetition min max body s).2.length ≤ s.length := by
  unfold repetition
  split_ifs
  · simp
  · exact le_rfl

theorem Reads.length_le {a : Prop} {p : Production} {k : ℕ} {s : List CorgiChar} {ns : List Node}
    {k' : ℕ} {r : List CorgiChar} (h : Reads a p k s ns k' r) :
    r.length + p.least ≤ s.length := by
  induction h with
  | ordinary => simp [Production.least]
  | escape => simp [Production.least]
  | «class» hc =>
    cases hc with
    | negative hms =>
      have := hms.length_le
      simp [Production.least]
      omega
    | positive _ hms => simpa [Production.least] using hms.length_le
  | @group _ s _ _ _ _ _ _ ih =>
    have := groupName_length s
    simp only [Production.least, List.length_cons] at *
    omega
  | once _ _ _ ih => exact ih
  | @repeated _ _ n _ _ min max r' _ hq _ ih =>
    have h₁ := quantifier_length hq
    have h₂ := repetition_length min max n r'
    simp only [Production.least] at *
    omega
  | nil => simp [Production.least]
  | cons _ _ ihi ihs =>
    simp only [Production.least] at *
    omega
  | one _ _ ih => exact ih
  | more _ _ _ ihl ihr =>
    simp only [Production.least, List.length_cons] at *
    omega

theorem parseSubpatternLoop_mono {branch : Parser (List Node)} {n m : ℕ} (h : n ≤ m)
    {c : Compiler} {s : List CorgiChar} {r : Except Stop (List Node × Compiler × List CorgiChar)}
    (hr : parseSubpatternLoop branch n c s = r) (hne : r ≠ .error .running) :
    parseSubpatternLoop branch m c s = r := by
  induction n generalizing m c s r with
  | zero => exact absurd hr.symm hne
  | succ n ih =>
    obtain ⟨m, rfl⟩ : ∃ m', m = m' + 1 := ⟨m - 1, by omega⟩
    rcases s with _ | ⟨ch, s⟩
    · exact hr
    · simp only [parseSubpatternLoop] at hr ⊢
      split_ifs at hr ⊢
      · exact hr
      · rcases hp : parseRepeat branch c (ch :: s) with e | ⟨node, c', s'⟩
        · rw [hp] at hr
          exact hr
        · rw [hp] at hr
          rcases hl : parseSubpatternLoop branch n c' s' with e | p
          · have he : r = .error e := by
              rw [← hr]
              simp only [bind, Except.bind, hl]
            subst he
            simp only [bind, Except.bind, ih (m := m) (by omega) hl hne]
          · rw [← hr]
            simp only [bind, Except.bind, hl, ih (m := m) (by omega) hl (by simp)]

/-- The parser of a sequence is a turn of its loop, where there is an item. -/
theorem parseSubpattern_eq {branch : Parser (List Node)} {c : Compiler} {s : List CorgiChar}
    (h : ¬ Stops s) :
    parseSubpattern branch c s = parseSubpatternLoop branch (s.length + 1) c s := by
  rcases s with _ | ⟨ch, s⟩
  · exact absurd (.inl rfl) h
  · have hch : ¬ (ch = '|'.toNat ∨ ch = ')'.toNat) := by
      rintro (rfl | rfl)
      · exact h (.inr (.inl rfl))
      · exact h (.inr (.inr rfl))
    simp only [parseSubpatternLoop, if_neg hch]
    rfl

/-- What is not two alternatives is what `parse_subpattern` read. -/
theorem parseSubpattern_of_parseBranch {depth : ℕ} {c c' : Compiler} {s r : List CorgiChar}
    {ns : List Node} (h : parseBranch (depth + 1) c s = .ok (ns, c', r)) (hne : ns ≠ [])
    (hb : ∀ l r, ns ≠ [.branch l r]) :
    parseSubpattern (parseBranch depth) c s = .ok (ns, c', r) := by
  rcases s with _ | ⟨ch, s⟩
  · cases h
    exact absurd rfl hne
  · simp only [parseBranch] at h
    obtain ⟨⟨left, c₁, r₁⟩, hl, h⟩ := Except.bind_eq_ok_iff.1 h
    rcases r₁ with _ | ⟨d, r₁⟩
    · cases h
      exact hl
    · simp only [] at h
      split_ifs at h
      · cases h
        exact hl
      · obtain ⟨⟨right, c₂, r₂⟩, -, h⟩ := Except.bind_eq_ok_iff.1 h
        cases h
        exact absurd rfl (hb _ _)

/-- What the parser makes of a production. -/
def parseAs (depth : ℕ) : Production → Parser (List Node)
  | .single, c, s =>
    (parseSinglePattern (parseBranch depth) c s).map fun (n, c, r) => ([n], c, r)
  | .item, c, s => (parseRepeat (parseBranch depth) c s).map fun (n, c, r) => ([n], c, r)
  | .sequence, c, s => parseSubpatternLoop (parseBranch depth) (s.length + 1) c s
  | .alternatives, c, s => parseBranch (depth + 1) c s

theorem parseAs_single {depth : ℕ} {c c' : Compiler} {s r : List CorgiChar} {n : Node} :
    parseAs depth .single c s = .ok ([n], c', r) ↔
      parseSinglePattern (parseBranch depth) c s = .ok (n, c', r) := by
  simp only [parseAs]
  rcases parseSinglePattern (parseBranch depth) c s with e | ⟨n', c₁, r₁⟩ <;> simp [Except.map]

theorem parseAs_item {depth : ℕ} {c c' : Compiler} {s r : List CorgiChar} {n : Node} :
    parseAs depth .item c s = .ok ([n], c', r) ↔
      parseRepeat (parseBranch depth) c s = .ok (n, c', r) := by
  simp only [parseAs]
  rcases parseRepeat (parseBranch depth) c s with e | ⟨n', c₁, r₁⟩ <;> simp [Except.map]

theorem parseAs_nil {depth : ℕ} {c : Compiler} {s : List CorgiChar} (h : Stops s) :
    parseAs depth .sequence c s = .ok ([], c, s) := by
  rcases s with _ | ⟨ch, s⟩
  · rfl
  · have hch : ch = '|'.toNat ∨ ch = ')'.toNat := by simpa [Stops] using h
    exact if_pos hch

/-- A sequence that starts with an item. -/
theorem parseAs_cons {depth : ℕ} {c : Compiler} {s : List CorgiChar} (h : ¬ Stops s) :
    parseAs depth .sequence c s =
      parseRepeat (parseBranch depth) c s >>= fun p =>
        parseSubpatternLoop (parseBranch depth) s.length p.2.1 p.2.2 >>= fun q =>
          .ok (p.1 :: q.1, q.2) := by
  simp only [parseAs, ← parseSubpattern_eq h]
  rfl

theorem parseBranch_cons {depth : ℕ} {c : Compiler} {s : List CorgiChar} (h : s ≠ []) :
    parseBranch (depth + 1) c s =
      parseSubpattern (parseBranch depth) c s >>= fun p =>
        if p.2.2.head? = some '|'.toNat then
          parseSubpattern (parseBranch depth) p.2.1 p.2.2.tail >>= fun q =>
            .ok ([.branch p.1 q.1], q.2)
        else .ok p := by
  rcases s with _ | ⟨ch, s⟩
  · exact absurd rfl h
  · simp only [parseBranch]
    refine congrArg _ (funext fun p => ?_)
    obtain ⟨left, c', _ | ⟨d, r⟩⟩ := p
    · rfl
    · by_cases hd : d = '|'.toNat <;> simp [hd] <;> rfl

/-- Without the constructs the parser reads what the syntax reads. -/
theorem parseAs_reads {p : Production} {k : ℕ} {s : List CorgiChar} {ns : List Node} {k' : ℕ}
    {r : List CorgiChar} (h : Reads False p k s ns k' r) {depth : ℕ} (hd : s.length ≤ depth)
    (hne : p = .alternatives → ns = [] → s = []) (gs : List (Option (List CorgiChar))) :
    ∃ gs', parseAs depth p ⟨k, gs⟩ s = .ok (ns, ⟨k', gs'⟩, r) := by
  induction h generalizing depth gs with
  | ordinary hc => exact ⟨gs, parseAs_single.2 (parseSinglePattern_ordinary _ _ _ hc)⟩
  | escape ha =>
    refine ⟨gs, parseAs_single.2 ?_⟩
    rw [parseSinglePattern_escape, parseEscape_cons (ha.elim False.elim id)]
    rfl
  | «class» hc =>
    refine ⟨gs, parseAs_single.2 ?_⟩
    rw [parseSinglePattern_class, parseIn_class hc]
    rfl
  | @group k s ns k' r h ha hn ih =>
    obtain ⟨depth, rfl⟩ : ∃ d, depth = d + 1 := ⟨depth - 1, by simp at hd; omega⟩
    obtain ⟨gs', hgs⟩ := @ih depth ((groupName_length s).trans (by simpa using hd))
      (fun _ hns => absurd hns (hn.elim False.elim id)) gs
    refine ⟨(groupName s).1 :: gs', parseAs_single.2 ?_⟩
    simp only [parseAs] at hgs
    rw [parseSinglePattern_group]
    simp only [parseGroup, getGroupName_eq (ha.elim False.elim id)]
    rw [hgs]
    rfl
  | once _ hq ha ih =>
    obtain ⟨gs', hgs⟩ := ih hd nofun gs
    exact ⟨gs', parseAs_item.2 (parseRepeat_once (parseAs_single.1 hgs) hq (ha.elim False.elim id))⟩
  | repeated _ hq hb ih =>
    obtain ⟨gs', hgs⟩ := ih hd nofun gs
    exact ⟨gs', parseAs_item.2 (parseRepeat_repeated (parseAs_single.1 hgs) hq hb)⟩
  | nil hs => exact ⟨gs, parseAs_nil hs⟩
  | cons hi hs ihi ihs =>
    have hle := hi.length_le
    simp only [Production.least] at hle
    obtain ⟨gs₁, hi'⟩ := ihi hd nofun gs
    obtain ⟨gs₂, hs'⟩ := @ihs depth (by omega) nofun gs₁
    refine ⟨gs₂, ?_⟩
    rw [parseAs_cons (not_stops_of_reads hi (.inr rfl)), parseAs_item.1 hi']
    simp only [bind, Except.bind]
    rw [parseSubpatternLoop_mono (by omega) hs' (by simp)]
  | one hs hr ih =>
    obtain ⟨gs', hgs⟩ := ih hd nofun gs
    refine ⟨gs', ?_⟩
    cases hs with
    | nil =>
      obtain rfl := hne rfl rfl
      cases hgs
      rfl
    | cons hi =>
      have hstop := not_stops_of_reads hi (.inr rfl)
      simp only [parseAs] at hgs ⊢
      rw [parseBranch_cons fun hs => hstop (.inl hs), parseSubpattern_eq hstop, hgs]
      exact if_neg hr
  | more hl hr ha ihl ihr =>
    obtain ⟨hls, hrs, hb⟩ := ha.elim False.elim id
    have hle := hl.length_le
    simp only [Production.least, List.length_cons] at hle
    obtain ⟨gs₁, hl'⟩ := ihl hd nofun gs
    obtain ⟨gs₂, hr'⟩ := @ihr depth (by omega) (fun _ hns => absurd hns hrs) gs₁
    refine ⟨gs₂, ?_⟩
    cases hl with
    | nil => exact absurd rfl hls
    | cons hi =>
      have hstop := not_stops_of_reads hi (.inr rfl)
      simp only [parseAs] at hl' ⊢
      rw [parseBranch_cons fun hs => hstop (.inl hs), parseSubpattern_eq hstop, hl']
      simp only [bind, Except.bind, List.head?_cons, if_pos, List.tail_cons]
      rw [parseSubpattern_of_parseBranch hr' hrs hb]

theorem Breaks.sequence_not_stops {k : ℕ} {s : List CorgiChar} (h : Breaks .sequence k s) :
    ¬ Stops s := by
  cases h with
  | here h => exact h.not_stops (.inr rfl)
  | later hi => exact not_stops_of_reads hi (.inr rfl)

/-- Where a pattern without the constructs breaks off, the parser returns an error. -/
theorem parseAs_breaks {p : Production} {k : ℕ} {s : List CorgiChar} (h : Breaks p k s)
    {depth : ℕ} (hd : s.length ≤ depth) (gs : List (Option (List CorgiChar))) :
    Refused (parseAs depth p ⟨k, gs⟩ s) := by
  induction h generalizing depth gs with
  | escape => exact refused_error _
  | «class» hb =>
    obtain ⟨e, he⟩ := parseIn_break hb
    refine ⟨e, ?_⟩
    simp only [parseAs, parseSinglePattern_class, he]
    rfl
  | @group k s _ ha ih =>
    obtain ⟨depth, rfl⟩ : ∃ d, depth = d + 1 := ⟨depth - 1, by simp at hd; omega⟩
    obtain ⟨e, he⟩ := @ih depth ((groupName_length s).trans (by simpa using hd)) gs
    refine ⟨e, ?_⟩
    simp only [parseAs] at he
    simp only [parseAs, parseSinglePattern_group, parseGroup, getGroupName_eq ha, he]
    rfl
  | item _ ih =>
    obtain ⟨e, he⟩ := ih hd gs
    refine ⟨e, ?_⟩
    simp only [parseAs, parseRepeat] at he ⊢
    rcases hp : parseSinglePattern (parseBranch depth) _ _ with e' | p <;> rw [hp] at he
    · cases he
      rfl
    · cases he
  | here hb ih =>
    obtain ⟨e, he⟩ := ih hd gs
    refine ⟨e, ?_⟩
    rw [parseAs_cons (hb.not_stops (.inr rfl))]
    simp only [parseAs] at he
    rcases hp : parseRepeat (parseBranch depth) _ _ with e' | p <;> rw [hp] at he
    · cases he
      rfl
    · cases he
  | later hi _ ih =>
    have hle := hi.length_le
    simp only [Production.least] at hle
    obtain ⟨gs₁, hi'⟩ := parseAs_reads hi hd nofun gs
    obtain ⟨e, he⟩ := @ih depth (by omega) gs₁
    refine ⟨e, ?_⟩
    rw [parseAs_cons (not_stops_of_reads hi (.inr rfl)), parseAs_item.1 hi']
    simp only [bind, Except.bind]
    rw [parseSubpatternLoop_mono (by omega) he (by simp)]
  | left hb ih =>
    have hstop := hb.sequence_not_stops
    simp only [parseAs] at ih ⊢
    rw [parseBranch_cons fun hs => hstop (.inl hs), parseSubpattern_eq hstop]
    exact (ih hd gs).bind _
  | right hl hls hb ih =>
    have hle := hl.length_le
    simp only [Production.least, List.length_cons] at hle
    obtain ⟨gs₁, hl'⟩ := parseAs_reads hl hd nofun gs
    cases hl with
    | nil => exact absurd rfl hls
    | cons hi =>
      have hstop := not_stops_of_reads hi (.inr rfl)
      simp only [parseAs] at hl' ih ⊢
      rw [parseBranch_cons fun hs => hstop (.inl hs), parseSubpattern_eq hstop, hl']
      simp only [bind, Except.bind, List.head?_cons, if_pos, List.tail_cons]
      rw [parseSubpattern_eq hb.sequence_not_stops]
      exact (@ih depth (by omega) gs₁).bind _

/-- The fuel was enough, and what is returned satisfies `P`. -/
def Ends {α : Type} (P : α → Prop) : Except Stop α → Prop
  | .ok a => P a
  | .error e => e ≠ .running

theorem Ends.bind {α β : Type} {P : α → Prop} {Q : β → Prop} {r : Except Stop α}
    {f : α → Except Stop β} (h : Ends P r) (hf : ∀ a, P a → Ends Q (f a)) : Ends Q (r >>= f) := by
  rcases r with e | a
  · exact h
  · exact hf a h

theorem parseEscape_ends (s : List CorgiChar) :
    Ends (fun p => p.2.length ≤ s.length) (parseEscape s) := by
  rcases s with _ | ⟨c, s⟩
  · exact nofun
  · exact Nat.le_succ _

theorem parseInInternal_ends (c : CorgiChar) (rest : List CorgiChar) :
    Ends (fun p => p.2.length ≤ rest.length) (parseInInternal c rest) := by
  unfold parseInInternal
  split_ifs with h₁ h₂
  · exact le_rfl
  · exact (parseEscape_ends rest).bind fun p hp => hp
  · rcases rest with _ | ⟨d, _ | ⟨e, rest⟩⟩
    · exact le_rfl
    · simp only []
      split_ifs
      · exact le_rfl
      · exact Nat.le_succ _
    · simp only []
      split_ifs
      · exact le_rfl
      · exact Nat.le_succ _
      · exact nofun
      · exact (Nat.le_succ _).trans (Nat.le_succ _)

theorem parseInLoop_ends {fuel : ℕ} {s : List CorgiChar} (h : s.length ≤ fuel) :
    Ends (fun p => p.2.length ≤ s.length) (parseInLoop fuel s) := by
  induction fuel generalizing s with
  | zero =>
    obtain rfl := List.length_eq_zero_iff.1 (Nat.le_zero.1 h)
    exact le_rfl
  | succ fuel ih =>
    rcases s with _ | ⟨c, s⟩
    · exact le_rfl
    · simp only [parseInLoop]
      split_ifs
      · exact Nat.le_succ _
      · refine (parseInInternal_ends c s).bind fun p hp => ?_
        simp only [List.length_cons, Nat.add_le_add_iff_right] at h
        refine (ih (hp.trans h)).bind fun q hq => ?_
        exact (hq.trans hp).trans (Nat.le_succ _)

theorem parseIn_ends (s : List CorgiChar) : Ends (fun p => p.2.length ≤ s.length) (parseIn s) := by
  rcases s with _ | ⟨c, s⟩
  · exact le_rfl
  · simp only [parseIn]
    split_ifs
    · exact (parseInLoop_ends le_rfl).bind fun p hp => hp.trans (Nat.le_succ _)
    · exact parseInLoop_ends le_rfl

theorem getGroupName_length (s : List CorgiChar) : (getGroupName s).2.length ≤ s.length := by
  unfold getGroupName
  have hdrop : ((s.drop 2).dropWhile (· ≠ '>'.toNat)).length ≤ s.length :=
    (List.dropWhile_suffix _).length_le.trans (by simp)
  split_ifs
  · exact le_rfl
  · rcases ht : (s.drop 2).dropWhile (· ≠ '>'.toNat) with _ | ⟨c, t⟩
    · simp only [ht]
      split_ifs
      · exact (List.drop_suffix 2 s).length_le
      · exact le_rfl
    · simp only [ht, List.length_cons] at hdrop ⊢
      split_ifs
      · exact hdrop
      · exact (Nat.le_succ _).trans hdrop

theorem parseNumberLoop_length (n : ℕ) (s : List CorgiChar) :
    (parseNumberLoop n s).2.length ≤ s.length := by
  induction s generalizing n with
  | nil => exact le_rfl
  | cons c s ih =>
    simp only [parseNumberLoop]
    split_ifs
    · exact (ih _).trans (Nat.le_succ _)
    · exact le_rfl

theorem parseNumber_length (s : List CorgiChar) (n : ℕ) :
    (parseNumber s n).2.length ≤ s.length := by
  unfold parseNumber
  split_ifs
  · exact parseNumberLoop_length _ _
  · exact le_rfl

theorem createRepeatNode_length (s : List CorgiChar) (min max : ℕ) (body : Node) :
    (createRepeatNode s min max body).2.length ≤ s.length := by
  unfold createRepeatNode
  rcases s with _ | ⟨c, s⟩
  · exact le_rfl
  · simp only []
    split_ifs
    · exact Nat.le_succ _
    · exact le_rfl

theorem parseMinMaxRepeat_length (s : List CorgiChar) (body : Node) :
    (parseMinMaxRepeat s body).2.length ≤ s.length := by
  have h₁ := parseNumber_length s 0
  unfold parseMinMaxRepeat
  obtain ⟨max, pc, hp, hle⟩ : ∃ max pc,
      (if (parseNumber s 0).2.head? = some ','.toNat then parseNumber (parseNumber s 0).2.tail 65535
        else ((parseNumber s 0).1, (parseNumber s 0).2)) = (max, pc) ∧ pc.length ≤ s.length := by
    by_cases hc : (parseNumber s 0).2.head? = some ','.toNat
    · rw [if_pos hc]
      exact ⟨_, _, rfl, (parseNumber_length _ _).trans ((List.tail_suffix _).length_le.trans h₁)⟩
    · rw [if_neg hc]
      exact ⟨_, _, rfl, h₁⟩
  simp only [hp]
  rcases pc with _ | ⟨c, pc⟩
  · exact le_rfl
  · simp only []
    split_ifs
    · exact le_rfl
    · exact (createRepeatNode_length _ _ _ _).trans ((Nat.le_succ _).trans hle)

section Ends

variable {branch : Parser (List Node)} {c : Compiler} {s : List CorgiChar}

theorem parseSinglePattern_ends
    (hb : ∀ c' t, t.length < s.length → Ends (fun p => p.2.2.length ≤ t.length) (branch c' t)) :
    Ends (fun p => p.2.2.length < s.length) (parseSinglePattern branch c s) := by
  rcases s with _ | ⟨ch, s⟩
  · exact nofun
  · simp only [parseSinglePattern]
    split_ifs
    · exact (parseIn_ends s).bind fun p hp => Nat.lt_succ_of_le hp
    · exact (parseEscape_ends s).bind fun p hp => Nat.lt_succ_of_le hp
    · exact Nat.lt_succ_self _
    · exact Nat.lt_succ_self _
    · simp only [parseGroup]
      refine (hb _ _ (Nat.lt_succ_of_le (getGroupName_length s))).bind fun p hp => ?_
      obtain ⟨ns, c', _ | ⟨d, r⟩⟩ := p
      · exact nofun
      · simp only []
        split_ifs
        · exact nofun
        · exact (Nat.lt_of_succ_le hp).trans (Nat.lt_succ_of_le (getGroupName_length s))
    · exact Nat.lt_succ_self _
    · exact Nat.lt_succ_self _

theorem parseRepeat_ends
    (hb : ∀ c' t, t.length < s.length → Ends (fun p => p.2.2.length ≤ t.length) (branch c' t)) :
    Ends (fun p => p.2.2.length < s.length) (parseRepeat branch c s) := by
  refine (parseSinglePattern_ends hb).bind fun p hp => ?_
  obtain ⟨n, c', _ | ⟨d, r⟩⟩ := p
  · exact hp
  · have hr : r.length < s.length := (Nat.lt_succ_self _).trans hp
    simp only []
    split_ifs
    · exact (createRepeatNode_length _ _ _ _).trans_lt hr
    · exact (createRepeatNode_length _ _ _ _).trans_lt hr
    · exact (createRepeatNode_length _ _ _ _).trans_lt hr
    · exact (parseMinMaxRepeat_length _ _).trans_lt hr
    · exact hp

theorem parseSubpatternLoop_ends {fuel : ℕ} (hf : s.length < fuel)
    (hb : ∀ c' t, t.length < s.length → Ends (fun p => p.2.2.length ≤ t.length) (branch c' t)) :
    Ends (fun p => p.2.2.length ≤ s.length) (parseSubpatternLoop branch fuel c s) := by
  induction fuel generalizing c s with
  | zero => exact absurd hf (Nat.not_lt_zero _)
  | succ fuel ih =>
    rcases s with _ | ⟨ch, s⟩
    · exact le_rfl
    · simp only [parseSubpatternLoop]
      split_ifs
      · exact le_rfl
      · refine (parseRepeat_ends hb).bind fun p hp => ?_
        have hrest := ih (c := p.2.1) (by omega) fun c' t ht => hb c' t (ht.trans hp)
        exact hrest.bind fun q hq => hq.trans hp.le

theorem parseSubpattern_ends
    (hb : ∀ c' t, t.length < s.length → Ends (fun p => p.2.2.length ≤ t.length) (branch c' t)) :
    Ends (fun p => p.2.2.length ≤ s.length) (parseSubpattern branch c s) := by
  refine (parseRepeat_ends hb).bind fun p hp => ?_
  have hrest := parseSubpatternLoop_ends (c := p.2.1) hp fun c' t ht => hb c' t (ht.trans hp)
  exact hrest.bind fun q hq => hq.trans hp.le

end Ends

theorem parseBranch_ends {depth : ℕ} {s : List CorgiChar} (h : s.length < depth) (c : Compiler) :
    Ends (fun p => p.2.2.length ≤ s.length) (parseBranch depth c s) := by
  induction depth generalizing c s with
  | zero => exact absurd h (Nat.not_lt_zero _)
  | succ depth ih =>
    have hb : ∀ c' (t : List CorgiChar), t.length < s.length →
        Ends (fun p => p.2.2.length ≤ t.length) (parseBranch depth c' t) :=
      fun c' t ht => ih (ht.trans_le (Nat.le_of_lt_succ h)) c'
    by_cases hs : s = []
    · subst hs
      exact le_rfl
    · rw [parseBranch_cons hs]
      refine (parseSubpattern_ends hb).bind fun p hp => ?_
      split_ifs
      · have hr : p.2.2.tail.length ≤ s.length := (List.tail_suffix _).length_le.trans hp
        have hright := parseSubpattern_ends (c := p.2.1) fun c' t ht => hb c' t (ht.trans_le hr)
        exact hright.bind fun q hq => hq.trans hr
      · exact hp

theorem parse_ne_running (pattern : List CorgiChar) : parse pattern ≠ .error .running := by
  intro h
  have := parseBranch_ends (Nat.lt_succ_self pattern.length) initCompiler
  rw [show parseBranch _ _ _ = _ from h] at this
  exact this rfl

/-- The parser returns what the syntax gives for the pattern, or an error where it gives nothing,
and does not read behind the pattern. -/
def Meets (pattern : List CorgiChar) : Prop :=
  match parse pattern with
  | .ok (ns, _, _) => Documented pattern ns
  | .error (.error _) => ∀ ns, ¬ Documented pattern ns
  | .error .outOfBounds | .error .running => False

/-- The pattern, or what comes before it breaks off, has none of the constructs: no third or empty
alternative, no empty group and no `?<>` in one, no brace behind an item that is no quantifier, no
`\\Z`, no `^` in a class but the leading one, no escape or first bracket in a range. -/
inductive Plain (pattern : List CorgiChar) : Prop
  | reads {ns k} (h : Reads False .alternatives 0 pattern ns k [])
  | breaks (h : Breaks .alternatives 0 pattern)

theorem Element.imp {a a' : Prop} (ha : a → a') {first : Bool} {s r : List CorgiChar} {m : SetNode}
    (h : Element a first s m r) : Element a' first s m r := by
  cases h with
  | category hk => exact .category hk
  | literal hc hs h => exact .literal hc hs (h.imp_left ha)
  | range hc hd hhi hle h => exact .range hc hd hhi hle (h.imp_left ha)

theorem Members.imp {a a' : Prop} (ha : a → a') {first : Bool} {s r : List CorgiChar}
    {ms : List SetNode} (h : Members a first s ms r) : Members a' first s ms r := by
  induction h with
  | close => exact .close
  | more he _ ih => exact .more (he.imp ha) ih

theorem Class.imp {a a' : Prop} (ha : a → a') {s r : List CorgiChar} {ms : List SetNode}
    (h : Class a s ms r) : Class a' s ms r := by
  cases h with
  | negative hms => exact .negative (hms.imp ha)
  | positive hs hms => exact .positive hs (hms.imp ha)

theorem Reads.imp {a a' : Prop} (ha : a → a') {p : Production} {k : ℕ} {s : List CorgiChar}
    {ns : List Node} {k' : ℕ} {r : List CorgiChar} (h : Reads a p k s ns k' r) :
    Reads a' p k s ns k' r := by
  induction h with
  | ordinary hc => exact .ordinary hc
  | escape h => exact .escape (h.imp_left ha)
  | «class» hc => exact .class (hc.imp ha)
  | group _ h₁ h₂ ih => exact .group ih (h₁.imp_left ha) (h₂.imp_left ha)
  | once _ hq h ih => exact .once ih hq (h.imp_left ha)
  | repeated _ hq hb ih => exact .repeated ih hq hb
  | nil hs => exact .nil hs
  | cons _ _ ihi ihs => exact .cons ihi ihs
  | one _ hr ih => exact .one ih hr
  | more _ _ h ihl ihr => exact .more ihl ihr (h.imp_left ha)

theorem nil_of_reads_nil {a : Prop} {k k' : ℕ} {s : List CorgiChar}
    (h : Reads a .alternatives k s [] k' []) : s = [] := by
  cases h with
  | one h =>
    cases h with
    | nil => rfl

theorem meets_reads {pattern : List CorgiChar} {ns : List Node} {k : ℕ}
    (h : Reads False .alternatives 0 pattern ns k []) : Meets pattern := by
  have hne : Production.alternatives = .alternatives → ns = [] → pattern = [] := by
    rintro - rfl
    exact nil_of_reads_nil h
  obtain ⟨gs, hgs⟩ := parseAs_reads h le_rfl hne []
  unfold Meets
  rw [show parse pattern = _ from hgs]
  exact ⟨k, h.imp False.elim⟩

theorem meets_breaks {pattern : List CorgiChar} (h : Breaks .alternatives 0 pattern) :
    Meets pattern := by
  obtain ⟨e, he⟩ := parseAs_breaks h le_rfl []
  unfold Meets
  rw [show parse pattern = _ from he]
  exact fun ns ⟨k, hr⟩ => h.not_reads hr

/-- The parser ends on every pattern, and treats one without the constructs as documented. -/
theorem meets_of_plain (pattern : List CorgiChar) :
    parse pattern ≠ .error .running ∧ (Plain pattern → Meets pattern) := by
  refine ⟨parse_ne_running pattern, fun h => ?_⟩
  cases h with
  | reads h => exact meets_reads h
  | breaks h => exact meets_breaks h

/-- A letter and what the sequence has behind it. -/
theorem reads_letter {a : Prop} {k : ℕ} {c : CorgiChar} {n : Node} {r : List CorgiChar}
    {ns : List Node} {k' : ℕ} {r' : List CorgiChar} (hc : ordinaryNode c = some n)
    (hq : quantifier r = none) (hr : r.head? ≠ some '{'.toNat)
    (h : Reads a .sequence k r ns k' r') :
    Reads a .sequence k (c :: r) (n :: ns) k' r' :=
  .cons (.once (.ordinary hc) hq (.inr hr)) h

theorem meets_two_branches : Meets ['a'.toNat, '|'.toNat, 'b'.toNat] := by
  have ha : Reads False .sequence 0 ['a'.toNat, '|'.toNat, 'b'.toNat] [.literal 97] 0
      ['|'.toNat, 'b'.toNat] :=
    reads_letter rfl rfl (by simp) (.nil (.inr (.inl rfl)))
  have hb : Reads False .sequence 0 ['b'.toNat] [.literal 98] 0 [] :=
    reads_letter rfl rfl (by simp) (.nil (.inl rfl))
  have hreads : Reads False .alternatives 0 ['a'.toNat, '|'.toNat, 'b'.toNat]
      [.branch [.literal 97] [.literal 98]] 0 [] :=
    .more ha (.one hb (by simp)) (.inr ⟨by simp, by simp, by simp⟩)
  exact (meets_of_plain _).2 (.reads hreads)

/-- The third alternative is dropped. -/
theorem not_meets_three_branches :
    ¬ Meets ['a'.toNat, '|'.toNat, 'b'.toNat, '|'.toNat, 'c'.toNat] := by
  have ha : Reads True .sequence 0 ['a'.toNat, '|'.toNat, 'b'.toNat, '|'.toNat, 'c'.toNat]
      [.literal 97] 0 ['|'.toNat, 'b'.toNat, '|'.toNat, 'c'.toNat] :=
    reads_letter rfl rfl (by simp) (.nil (.inr (.inl rfl)))
  have hb : Reads True .sequence 0 ['b'.toNat, '|'.toNat, 'c'.toNat] [.literal 98] 0
      ['|'.toNat, 'c'.toNat] :=
    reads_letter rfl rfl (by simp) (.nil (.inr (.inl rfl)))
  have hc : Reads True .sequence 0 ['c'.toNat] [.literal 99] 0 [] :=
    reads_letter rfl rfl (by simp) (.nil (.inl rfl))
  have hdoc : Documented ['a'.toNat, '|'.toNat, 'b'.toNat, '|'.toNat, 'c'.toNat]
      [.branch [.literal 97] [.branch [.literal 98] [.literal 99]]] :=
    ⟨0, .more ha (.more hb (.one hc (by simp)) (.inl trivial)) (.inl trivial)⟩
  intro h
  have hparse : Documented ['a'.toNat, '|'.toNat, 'b'.toNat, '|'.toNat, 'c'.toNat]
      [.branch [.literal 97] [.literal 98]] := h
  cases hdoc.unique hparse

example : parse ['('.toNat, 'a'.toNat] = .error .outOfBounds := rfl

example : (parse ['['.toNat, 'a'.toNat]).map (·.1) = .ok [.in [.literal 97]] := rfl

example : (parse ['a'.toNat, ')'.toNat]).map (·.1) = .ok [.literal 97] := rfl

example : (parse ['a'.toNat, '{'.toNat]).map (·.1) = .ok [.literal '{'.toNat] := rfl

end Corgi

end Yog
