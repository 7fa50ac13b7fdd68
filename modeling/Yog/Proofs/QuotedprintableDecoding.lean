import Yog.Quotedprintable
import Yog.Proofs.Matching
import Yog.Proofs.Base64Decoding
import Yog.Proofs.TextRoundTrip

/-!
# Decoding quoted-printable

An escape is found by a regular expression and read by `to_i`, which takes a zero in front for the
base ten and a `B` or a `D` behind it for a prefix.
-/

namespace Yog

namespace Quotedprintable

open Corgi YogString

def escapeNodes : List Corgi.Node :=
  [.literal 61, .subpattern 0 (some [104, 101, 120]) [.maxRepeat 2 2 (.in [.range 48 57,
    .range 65 70])]]

def escapeCode : List CorgiCode :=
  [19, 61, 21, 0, 28, 12, 2, 2, 15, 8, 27, 48, 57, 27, 65, 70, 0, 22, 21, 1, 1]

def escapeRegexp : CorgiRegexp := ⟨escapeCode, [some [104, 101, 120]]⟩

def softNodes : List Corgi.Node :=
  [.literal 61, .maxRepeat 0 65535 (.in [.literal 9, .literal 32]), .literal 13, .literal 10]

def softCode : List CorgiCode :=
  [19, 61, 28, 10, 0, 65535, 15, 6, 19, 9, 19, 32, 0, 22, 19, 13, 19, 10, 1]

def softRegexp : CorgiRegexp := ⟨softCode, []⟩

theorem compiled_escape : compiled escapePattern = Partial.done (.ok escapeRegexp) := rfl

theorem compiled_soft : compiled softPattern = Partial.done (.ok softRegexp) := rfl

theorem escapeCode_eq : chainCode false escapeNodes ++ [Opcode.success.code] = escapeCode := rfl

theorem softCode_eq : chainCode false softNodes ++ [Opcode.success.code] = softCode := rfl

def IsHex (c : CorgiChar) : Prop := (48 ≤ c ∧ c ≤ 57) ∨ (65 ≤ c ∧ c ≤ 70)

instance (c : CorgiChar) : Decidable (IsHex c) := inferInstanceAs (Decidable (_ ∨ _))

theorem charsetAt_hex (unicode : Unicode) (c : CorgiChar) :
    charsetAt unicode escapeCode 10 c = some (decide (IsHex c)) := by
  have hc : CodeAt escapeCode 10 (setCode false [.range 48 57, .range 65 70] ++
      [Opcode.failure.code]) := ⟨rfl, rfl, rfl, rfl, rfl, rfl, rfl, trivial⟩
  rw [charsetAt_eq hc]
  simp only [charsetMatches, IsHex]
  by_cases h₁ : 48 ≤ c ∧ c ≤ 57
  · simp [h₁]
  · by_cases h₂ : 65 ≤ c ∧ c ≤ 70
    · simp [h₁, h₂]
    · simp [h₁, h₂]

section Engine

variable (unicode : Unicode) {subject : List CorgiChar} {p : ℕ} (jump : Jump) (st : Corgi.State)

theorem matchTurn_equals (h : subject[p]? = some 61) :
    matchTurn unicode escapeCode subject jump 0 p st = jump 2 (p + 1) st := by
  have hop : escapeCode[0]?.bind Opcode.ofCode = some .literal := rfl
  have hc : escapeCode[0 + 1]? = some 61 := rfl
  simp only [matchTurn, hop, h, hc]
  rfl

theorem matchTurn_not_equals (h : subject[p]? ≠ some 61) :
    matchTurn unicode escapeCode subject jump 0 p st = some (.failure, st) := by
  have hop : escapeCode[0]?.bind Opcode.ofCode = some .literal := rfl
  have hc : escapeCode[0 + 1]? = some 61 := rfl
  rcases hs : subject[p]? with _ | c
  · simp only [matchTurn, hop, hs]
  · rw [hs] at h
    simp only [matchTurn, hop, hs, hc]
    rw [if_pos h]

theorem matchTurn_begin : matchTurn unicode escapeCode subject jump 2 p st =
    match st.setMark 0 p with
    | some state => jump 4 p state
    | none => some (.fault, st) := rfl

theorem matchTurn_repeat : matchTurn unicode escapeCode subject jump 4 p st =
    matchRepeat escapeCode jump 5 p st := rfl

theorem matchTurn_until : matchTurn unicode escapeCode subject jump 17 p st =
    matchMaxUntil escapeCode jump 18 p st := rfl

/-- After two digits there is no third one. -/
theorem matchMaxUntil_twice (i : ℕ) (prev : Option ℕ) (hrep : st.repeat = some i)
    (hcontext : st.contexts i = ⟨1, 5, none, prev⟩) :
    matchMaxUntil escapeCode jump 18 p st =
      onFailure (jump 18 p { st with «repeat» := prev, ptr := p }) fun after =>
        some (.failure, { after with «repeat» := some i, ptr := p }) := by
  have hmin : escapeCode[5 + 1]? = some 2 := rfl
  have hmax : escapeCode[5 + 2]? = some 2 := rfl
  simp [matchMaxUntil, matchTail, hrep, hcontext, hmin, hmax]

theorem matchTurn_hex {c : CorgiChar} (h : subject[p]? = some c) (hc : IsHex c) :
    matchTurn unicode escapeCode subject jump 8 p st = jump 17 (p + 1) st := by
  have hop : escapeCode[8]?.bind Opcode.ofCode = some .in := rfl
  have hskip : escapeCode[8 + 1]? = some 8 := rfl
  have hset : charsetAt unicode escapeCode (8 + 2) c = some true := by simp [charsetAt_hex, hc]
  simp only [matchTurn, hop, h, hskip, hset]

theorem matchTurn_not_hex {c : CorgiChar} (h : subject[p]? = some c) (hc : ¬ IsHex c) :
    matchTurn unicode escapeCode subject jump 8 p st = some (.failure, st) := by
  have hop : escapeCode[8]?.bind Opcode.ofCode = some .in := rfl
  have hset : charsetAt unicode escapeCode (8 + 2) c = some false := by simp [charsetAt_hex, hc]
  simp only [matchTurn, hop, h, hset]

theorem matchTurn_end : matchTurn unicode escapeCode subject jump 18 p st =
    match st.setMark 1 p with
    | some state => jump 20 p state
    | none => some (.fault, st) := rfl

/-- The engine at an escape. -/
theorem sreMatch_escape {c₁ c₂ : CorgiChar} (h₀ : subject[p]? = some 61)
    (h₁ : subject[p + 1]? = some c₁) (h₂ : subject[p + 2]? = some c₂) (hc₁ : IsHex c₁)
    (hc₂ : IsHex c₂) : ∃ st, sreMatch unicode escapeCode subject 10 0 p (initState p) =
      some (.success, st) ∧ st.ptr = p + 3 ∧ st.lastindex = 1 ∧ st.mark 0 = some (p + 1) ∧
        st.mark 1 = some (p + 3) := by
  refine ⟨?st, ?run, ?ptr, ?lastindex, ?begin, ?finish⟩
  case run =>
    rw [sreMatch, matchTurn_equals _ _ _ h₀, sreMatch, matchTurn_begin]
    change sreMatch unicode escapeCode subject 8 4 (p + 1) _ = _
    rw [sreMatch, matchTurn_repeat]
    change (sreMatch unicode escapeCode subject 7 17 (p + 1) _).map _ = _
    rw [sreMatch, matchTurn_until]
    change (onFailure (sreMatch unicode escapeCode subject 6 8 (p + 1) _) _).map _ = _
    rw [sreMatch, matchTurn_hex _ _ _ h₁ hc₁, sreMatch, matchTurn_until]
    change (onFailure (onFailure (sreMatch unicode escapeCode subject 4 8 (p + 2) _) _) _).map _ = _
    rw [sreMatch, matchTurn_hex _ _ _ h₂ hc₂, sreMatch, matchTurn_until,
      matchMaxUntil_twice _ _ 0 none rfl rfl]
    change (onFailure (onFailure (onFailure
      (sreMatch unicode escapeCode subject 2 18 (p + 3) _) _) _) _).map _ = _
    rw [sreMatch, matchTurn_end]
    rfl
  all_goals rfl

/-- The engine at another character than `=`. -/
theorem sreMatch_not_equals (h : subject[p]? ≠ some 61) :
    sreMatch unicode escapeCode subject 1 0 p st = some (.failure, st) := by
  rw [sreMatch, matchTurn_not_equals _ _ _ h]

/-- The engine behind a `=` that begins no escape. -/
theorem sreMatch_not_hex {c₁ : CorgiChar} (h₀ : subject[p]? = some 61)
    (h₁ : subject[p + 1]? = some c₁) (hc₁ : ¬ IsHex c₁) : ∃ st,
      sreMatch unicode escapeCode subject 5 0 p (initState p) = some (.failure, st) := by
  refine ⟨?st, ?run⟩
  case run =>
    rw [sreMatch, matchTurn_equals _ _ _ h₀, sreMatch, matchTurn_begin]
    change sreMatch unicode escapeCode subject 3 4 (p + 1) _ = _
    rw [sreMatch, matchTurn_repeat]
    change (sreMatch unicode escapeCode subject 2 17 (p + 1) _).map _ = _
    rw [sreMatch, matchTurn_until]
    change (onFailure (sreMatch unicode escapeCode subject 1 8 (p + 1) _) _).map _ = _
    rw [sreMatch, matchTurn_not_hex _ _ _ h₁ hc₁]
    rfl

end Engine

section Soft

variable (unicode : Unicode) {subject : List CorgiChar}

theorem getElem?_of_drop {α : Type} {l t : List α} {p : ℕ} (h : l.drop p = t) (i : ℕ) :
    l[p + i]? = t[i]? := by
  rw [← h, List.getElem?_drop]

theorem drop_succ_of_drop {α : Type} {l t : List α} {a : α} {p : ℕ} (h : l.drop p = a :: t) :
    l.drop (p + 1) = t := by
  rw [← List.tail_drop, h, List.tail_cons]

/-- The set of what may stand between the `=` and the line break. -/
def padding : List SetNode := [.literal 9, .literal 32]

theorem next_literal (c : CorgiChar) (ts : List Corgi.Task) {p : ℕ} (h : subject[p]? = some c) :
    next (engineMeaning unicode false) subject (.node (.literal c) :: ts, p) =
      .goto (ts, p + 1) := by
  simp [next, charStep, h, engineMeaning, literalMatches]

theorem next_padding {c : CorgiChar} (ts : List Corgi.Task) {p : ℕ} (h : subject[p]? = some c) :
    next (engineMeaning unicode false) subject (.node (.in padding) :: ts, p) =
      if c = 9 ∨ c = 32 then .goto (ts, p + 1) else .fail := by
  simp only [next, charStep, h, engineMeaning, padding, charsetMatches]
  by_cases h₁ : c = 9
  · simp [h₁]
  · by_cases h₂ : c = 32
    · simp [h₂]
    · simp [h₁, h₂]

theorem next_loop (ts : List Corgi.Task) {p : ℕ} (count : ℕ) {last : Option ℕ} (h : last ≠ some p) :
    next (engineMeaning unicode false) subject
        (.loop true 0 65535 (.in padding) count last :: ts, p) =
      .orElse (.node (.in padding) ::
        .loop true 0 65535 (.in padding) (count + 1) (some p) :: ts, p) (ts, p) := by
  simp [next, MayRepeat, h]

/-- The loop takes the white space in front of the line break, and the rest the line break. -/
theorem search_padding {pad rest : List CorgiChar} (hpad : ∀ c ∈ pad, c = 9 ∨ c = 32) {p : ℕ}
    (hsubject : subject.drop p = pad ++ 13 :: 10 :: rest) (count : ℕ) (last : Option ℕ)
    (hlast : last ≠ some p) : Backtracking.Search (next (engineMeaning unicode false) subject)
      ([.loop true 0 65535 (.in padding) count last, .node (.literal 13), .node (.literal 10)], p)
      (some (.found (p + pad.length + 2))) := by
  induction pad generalizing p count last with
  | nil =>
    have h₁ : subject[p]? = some 13 := getElem?_of_drop hsubject 0
    have h₂ : subject[p + 1]? = some 10 := getElem?_of_drop hsubject 1
    refine .right (next_loop unicode _ count hlast) (.fail ?_) ?_
    · rw [next_padding unicode _ h₁]
      rfl
    · exact .goto (next_literal unicode 13 _ h₁)
        (.goto (next_literal unicode 10 _ h₂) (.accept rfl))
  | cons c pad ih =>
    rw [List.forall_mem_cons] at hpad
    have h₁ : subject[p]? = some c := getElem?_of_drop hsubject 0
    have hrest : subject.drop (p + 1) = pad ++ 13 :: 10 :: rest := drop_succ_of_drop hsubject
    have hnext := next_padding unicode
      [.loop true 0 65535 (.in padding) (count + 1) (some p), .node (.literal 13),
        .node (.literal 10)] h₁
    rw [if_pos hpad.1] at hnext
    have hfound := ih hpad.2 hrest (count + 1) (some p) (by simp)
    rw [show p + (c :: pad).length + 2 = p + 1 + pad.length + 2 by rw [List.length_cons]; omega]
    exact .left (next_loop unicode _ count hlast) (.goto hnext hfound)

/-- The engine at a soft line break. -/
theorem sreMatch_soft {pad rest : List CorgiChar} (hpad : ∀ c ∈ pad, c = 9 ∨ c = 32) {p : ℕ}
    (hsubject : subject.drop p = 61 :: (pad ++ 13 :: 10 :: rest)) : ∃ n st,
      sreMatch unicode softCode subject n 0 p (initState p) = some (.success, st) ∧
        st.ptr = p + pad.length + 3 := by
  have h₀ : subject[p]? = some 61 := getElem?_of_drop hsubject 0
  have hrest : subject.drop (p + 1) = pad ++ 13 :: 10 :: rest := drop_succ_of_drop hsubject
  have hsearch : Backtracking.Search (next (engineMeaning unicode false) subject)
      (softNodes.map .node, p) (some (.found (p + 1 + pad.length + 2))) :=
    .goto (next_literal unicode 61 _ h₀)
      (.goto rfl (search_padding unicode hpad hrest 0 none nofun))
  have hfits := fits_start false softNodes p
  rw [softCode_eq] at hfits
  obtain ⟨n, ret, st, hrun, rfl, hptr⟩ := (sreMatch_iff (by decide) hfits).1 hsearch
  exact ⟨n, st, hrun, by omega⟩

/-- The engine for soft line breaks at another character than `=`. -/
theorem sreMatch_soft_none {p : ℕ} (h : subject[p]? ≠ some 61) (st : Corgi.State) :
    sreMatch unicode softCode subject 1 0 p st = some (.failure, st) := by
  have hop : softCode[0]?.bind Opcode.ofCode = some .literal := rfl
  have hc : softCode[0 + 1]? = some 61 := rfl
  rcases hs : subject[p]? with _ | c
  · simp only [sreMatch, matchTurn, hop, hs]
  · rw [hs] at h
    simp only [sreMatch, matchTurn, hop, hs, hc]
    rw [if_pos h]

end Soft

section Match

variable (unicode : Unicode) {s : List YogChar} {pos : ℕ}

theorem match_eq (fuel : ℕ) (regexp : CorgiRegexp) (h : pos < s.length) :
    YogRegexp.match unicode fuel regexp s pos =
      YogRegexp.corgiMatch unicode fuel regexp (s.map Fin.val) pos := by
  have hn : normalizeIndex s pos = pos := by simp [normalizeIndex]
  have hoffset : index2offset s pos = some pos := by
    rw [index2offset, if_neg (by omega), if_pos (by omega), Int.toNat_natCast]
  unfold YogRegexp.match
  simp [hn, hoffset]

/-- More fuel changes no match. -/
theorem corgiMatch_steady (regexp : CorgiRegexp) (ns : List Corgi.Node)
    (hcode : chainCode false ns ++ [Opcode.success.code] = regexp.code)
    (hlen : regexp.code.length < 2 ^ 32) (subject : List CorgiChar) (pos : ℕ) :
    Partial.Steady fun n => YogRegexp.corgiMatch unicode n regexp subject pos := by
  intro n m r hnm h
  simp only [YogRegexp.corgiMatch] at h ⊢
  rcases hv : sreMatch unicode regexp.code subject n 0 pos (initState pos) with _ | v
  · rw [hv] at h
    cases h
  · have hfits := fits_start false ns pos
    rw [hcode] at hfits
    rw [hv] at h
    rw [sreMatch_mono hlen hnm hfits hv]
    exact h

theorem match_settles {regexp : CorgiRegexp} (ns : List Corgi.Node)
    (hcode : chainCode false ns ++ [Opcode.success.code] = regexp.code)
    (hlen : regexp.code.length < 2 ^ 32) (h : pos < s.length) {n : ℕ} {m : Option CorgiMatch}
    (hm : YogRegexp.corgiMatch unicode n regexp (s.map Fin.val) pos = Partial.done (.ok m)) :
    Partial.Settles (fun n => ofRegexp (YogRegexp.match unicode n regexp s pos)) (.ok m) := by
  have hsettles := (corgiMatch_steady unicode regexp ns hcode hlen (s.map Fin.val) pos).settles
    ⟨n, hm⟩
  simp only [match_eq unicode _ regexp h]
  obtain ⟨⟨N, hN⟩, hall⟩ := hsettles
  refine ⟨⟨N, fun n hn => congrArg ofRegexp (hN n hn)⟩, fun n => ?_⟩
  rcases hall n with h | h
  · exact .inl (congrArg ofRegexp h)
  · exact .inr (congrArg ofRegexp h)

theorem getElem?_map_val {c : YogChar} (h : s[pos]? = some c) :
    (s.map Fin.val)[pos]? = some c.val := by
  rw [List.getElem?_map, h]
  rfl

/-- An escape is found with its digits as the group. -/
theorem match_escape {c₁ c₂ : YogChar} (h₀ : s[pos]? = some 61) (h₁ : s[pos + 1]? = some c₁)
    (h₂ : s[pos + 2]? = some c₂) (hc₁ : IsHex c₁) (hc₂ : IsHex c₂) :
    Partial.Settles (fun n => ofRegexp (YogRegexp.match unicode n escapeRegexp s pos))
      (.ok (some ⟨pos, pos + 3, [some (pos + 1, pos + 3)]⟩)) := by
  obtain ⟨st, hrun, hptr, hlast, hbegin, hend⟩ := sreMatch_escape unicode (getElem?_map_val h₀)
    (getElem?_map_val h₁) (getElem?_map_val h₂) hc₁ hc₂
  refine match_settles unicode escapeNodes escapeCode_eq (by decide)
    (List.getElem?_eq_some_iff.1 h₀).1 (n := 10) ?_
  have hgroup : setGroupRange st 0 = some (pos + 1, pos + 3) := by
    simp [setGroupRange, hlast, hbegin, hend]
  have hcode : escapeRegexp.code = escapeCode := rfl
  have hrange : List.range escapeRegexp.groups.length = [0] := rfl
  simp only [YogRegexp.corgiMatch, hcode, hrun, hptr, hrange, List.map_cons, hgroup, List.map_nil]

/-- There is no escape at another character, or in front of what is no digit. -/
theorem match_escape_none {c : YogChar} (h₀ : s[pos]? = some c) (h : c ≠ 61 ∨
    ∃ c₁ : YogChar, s[pos + 1]? = some c₁ ∧ ¬ IsHex c₁) :
    Partial.Settles (fun n => ofRegexp (YogRegexp.match unicode n escapeRegexp s pos))
      (.ok none) := by
  have hpos := (List.getElem?_eq_some_iff.1 h₀).1
  have hcode : escapeRegexp.code = escapeCode := rfl
  by_cases hc : c = 61
  · obtain ⟨c₁, h₁, hc₁⟩ := h.resolve_left (absurd hc)
    subst hc
    obtain ⟨st, hrun⟩ := sreMatch_not_hex unicode (getElem?_map_val h₀) (getElem?_map_val h₁) hc₁
    refine match_settles unicode escapeNodes escapeCode_eq (by decide) hpos (n := 5) ?_
    simp only [YogRegexp.corgiMatch, hcode, hrun]
  · have hne : (s.map Fin.val)[pos]? ≠ some 61 := by
      rw [getElem?_map_val h₀]
      intro heq
      exact hc (Fin.ext (Option.some.inj heq))
    refine match_settles unicode escapeNodes escapeCode_eq (by decide) hpos (n := 1) ?_
    simp only [YogRegexp.corgiMatch, hcode, sreMatch_not_equals unicode _ hne]

/-- A soft line break is found. -/
theorem match_soft {pad rest : List YogChar} (hpad : ∀ c ∈ pad, c = 9 ∨ c = 32)
    (hs : s.drop pos = 61 :: (pad ++ 13 :: 10 :: rest)) :
    Partial.Settles (fun n => ofRegexp (YogRegexp.match unicode n softRegexp s pos))
      (.ok (some ⟨pos, pos + pad.length + 3, []⟩)) := by
  have hpos : pos < s.length := by
    have hlen := congrArg List.length hs
    simp at hlen
    omega
  have hpad' : ∀ c ∈ pad.map Fin.val, c = 9 ∨ c = 32 := by
    rw [List.forall_mem_map]
    intro c hc
    rcases hpad c hc with rfl | rfl
    · exact .inl rfl
    · exact .inr rfl
  have hs' : (s.map Fin.val).drop pos =
      61 :: (pad.map Fin.val ++ 13 :: 10 :: rest.map Fin.val) := by
    rw [← List.map_drop, hs]
    simp
  obtain ⟨n, st, hrun, hptr⟩ := sreMatch_soft unicode hpad' hs'
  refine match_settles unicode softNodes softCode_eq (by decide) hpos (n := n) ?_
  have hcode : softRegexp.code = softCode := rfl
  have hrange : List.range softRegexp.groups.length = [] := rfl
  simp only [YogRegexp.corgiMatch, hcode, hrun, hptr, hrange, List.map_nil, List.length_map]

theorem match_soft_none {c : YogChar} (h₀ : s[pos]? = some c) (h : c ≠ 61) :
    Partial.Settles (fun n => ofRegexp (YogRegexp.match unicode n softRegexp s pos))
      (.ok none) := by
  have hne : (s.map Fin.val)[pos]? ≠ some 61 := by
    rw [getElem?_map_val h₀]
    intro heq
    exact h (Fin.ext (Option.some.inj heq))
  refine match_settles unicode softNodes softCode_eq (by decide)
    (List.getElem?_eq_some_iff.1 h₀).1 (n := 1) ?_
  have hcode : softRegexp.code = softCode := rfl
  simp only [YogRegexp.corgiMatch, hcode, sreMatch_soft_none unicode hne]

end Match

/-- The upper-case digit of four bits. -/
def hexChar (n : ℕ) : YogChar := toYogChar (if n < 10 then 48 + n else 55 + n)

/-- What an encoding is made of: bytes as two digits or as they are, and soft line breaks. -/
inductive Piece
  | escaped (b : Byte)
  | literal (b : Byte) (h : b.val < 0x80 ∧ b.val ≠ 61)
  | soft (pad : List YogChar) (h : ∀ c ∈ pad, c = 9 ∨ c = 32)

namespace Piece

def text : Piece → List YogChar
  | escaped b => [61, hexChar (b.val / 16), hexChar (b.val % 16)]
  | literal b _ => [toYogChar b.val]
  | soft pad _ => 61 :: (pad ++ [13, 10])

def bytes : Piece → List Byte
  | escaped b => [b]
  | literal b _ => [b]
  | soft _ _ => []

/-- A byte is escaped by a zero and a letter. -/
def ZeroLetter : Piece → Prop
  | escaped b => 10 ≤ b.val ∧ b.val ≤ 15
  | _ => False

end Piece

theorem isHex_hexChar {n : ℕ} (h : n < 16) : IsHex (hexChar n) := by
  unfold hexChar IsHex
  interval_cases n <;> decide

/-- The digits of a byte, as `to_i` reads them. -/
def readHex (b : Byte) : Except TextError Integer :=
  toI [hexChar (b.val / 16), hexChar (b.val % 16)] (some 16)

theorem readHex_error : ∀ b : Byte, 10 ≤ b.val ∧ b.val ≤ 15 → (readHex b).toOption = none := by
  decide +kernel

theorem readHex_ok : ∀ b : Byte, ¬ (10 ≤ b.val ∧ b.val ≤ 15) →
    (readHex b).toOption = some (.fixnum (int2val b.val)) := by
  decide +kernel

theorem readHex_eq (b : Byte) :
    ¬ (10 ≤ b.val ∧ b.val ≤ 15) ∧ readHex b = .ok (.fixnum (int2val b.val)) ∨
      (10 ≤ b.val ∧ b.val ≤ 15) ∧ ∃ e, readHex b = .error e := by
  by_cases hb : 10 ≤ b.val ∧ b.val ≤ 15
  · rcases h : readHex b with e | n
    · exact .inr ⟨hb, e, rfl⟩
    · have hnone := readHex_error b hb
      rw [h] at hnone
      cases hnone
  · have hsome := readHex_ok b hb
    rcases h : readHex b with e | n
    · rw [h] at hsome
      cases hsome
    · rw [h] at hsome
      exact .inl ⟨hb, congrArg Except.ok (Option.some.inj hsome)⟩

theorem lshift_byte (bin : List Byte) (b : Byte) :
    lshift bin (.fixnum (int2val b.val)) = .ok (bin ++ [b]) := by
  have hb := b.isLt
  have hfixable : Fixable b.val := by
    unfold Fixable yintMin yintMax
    omega
  have hint : (int2val b.val).toInt = b.val := by rw [int2val_of_fixable hfixable]
  rw [lshift, Base64.lshiftInt_ofNat bin hint]

section Turn

@[simp] theorem ofRegexp_ok {α : Type} (a : α) :
    ofRegexp (Partial.done (.ok a)) = Partial.done (.ok a) := rfl

@[simp] theorem given_some {α : Type} (a : α) : given (some a) = Partial.done (.ok a) := rfl

@[simp] theorem ofText_ok {α : Type} (a : α) : ofText (.ok a) = Partial.done (.ok a) := rfl

@[simp] theorem ofString_ok {α : Type} (a : α) : ofString (.ok a) = Partial.done (.ok a) := rfl

variable (unicode : Unicode) {s rest : List YogChar} (bin : List Byte) {pos : ℕ}

theorem decodeAt_literal {b : Byte} (hb : b.val < 0x80 ∧ b.val ≠ 61)
    (hs : s.drop pos = toYogChar b.val :: rest) :
    Partial.Settles (fun n => decodeAt unicode n escapeRegexp softRegexp s bin pos)
      (.ok (bin ++ [b], pos + 1)) := by
  have h₀ : s[pos]? = some (toYogChar b.val) := getElem?_of_drop hs 0
  have hne : toYogChar b.val ≠ 61 := by
    intro h
    have hval := congrArg Fin.val h
    have hmod : (toYogChar b.val).val = b.val :=
      Nat.mod_eq_of_lt (lt_of_lt_of_le hb.1 (by decide))
    rw [hmod] at hval
    exact hb.2 hval
  have hchar : subscript s (.fixnum pos) = .ok [toYogChar b.val] := by
    obtain ⟨hpos, hget⟩ := List.getElem?_eq_some_iff.1 h₀
    rw [subscript_ofNat hpos, hget]
  have hascii : ascii.convFromYog [toYogChar b.val] = [b] := by
    have hmod : (toYogChar b.val).val = b.val :=
      Nat.mod_eq_of_lt (lt_of_lt_of_le hb.1 (by decide))
    rw [convFromYog_ascii (fun _ hc => if_pos hc) (by simpa [hmod] using hb.1)]
    simp [asciiBytes, hmod, toByte]
  have htake : takeChar s bin pos = Partial.done (.ok (bin ++ [b], pos + 1)) := by
    rw [takeChar, hchar, ofString_ok, Partial.done_ok_bind, hascii]
    rfl
  refine (match_escape_none unicode h₀ (.inl hne)).bind
    ((match_soft_none unicode h₀ hne).bind ?_)
  simp only [htake]
  exact Partial.settles_done _

theorem decodeAt_soft {pad : List YogChar} (hpad : ∀ c ∈ pad, c = 9 ∨ c = 32)
    (hs : s.drop pos = 61 :: (pad ++ [13, 10]) ++ rest) :
    Partial.Settles (fun n => decodeAt unicode n escapeRegexp softRegexp s bin pos)
      (.ok (bin, pos + (pad.length + 3))) := by
  have hs' : s.drop pos = 61 :: (pad ++ 13 :: 10 :: rest) := by
    rw [hs]
    simp
  have h₀ : s[pos]? = some 61 := getElem?_of_drop hs' 0
  obtain ⟨c₁, h₁, hc₁⟩ : ∃ c₁ : YogChar, s[pos + 1]? = some c₁ ∧ ¬ IsHex c₁ := by
    rw [getElem?_of_drop hs' 1]
    rcases pad with _ | ⟨c, pad⟩
    · exact ⟨13, rfl, by decide⟩
    · refine ⟨c, rfl, ?_⟩
      rcases hpad c List.mem_cons_self with rfl | rfl
      · decide
      · decide
  have hgroup : ((s.drop pos).take (pos + pad.length + 3 - pos)).length = pad.length + 3 := by
    rw [hs, List.length_take]
    simp
    omega
  have htake : takeSoft s bin pos ⟨pos, pos + pad.length + 3, []⟩ =
      Partial.done (.ok (bin, pos + (pad.length + 3))) := by
    rw [takeSoft, YogRegexp.groupNum, ofRegexp_ok, Partial.done_ok_bind, given_some,
      Partial.done_ok_bind, hgroup]
    rfl
  refine (match_escape_none unicode h₀ (.inr ⟨c₁, h₁, hc₁⟩)).bind
    ((match_soft unicode hpad hs').bind ?_)
  simp only [htake]
  exact Partial.settles_done _

theorem decodeAt_escaped (b : Byte)
    (hs : s.drop pos = [61, hexChar (b.val / 16), hexChar (b.val % 16)] ++ rest) :
    ¬ (10 ≤ b.val ∧ b.val ≤ 15) ∧
      Partial.Settles (fun n => decodeAt unicode n escapeRegexp softRegexp s bin pos)
        (.ok (bin ++ [b], pos + 3)) ∨
    (10 ≤ b.val ∧ b.val ≤ 15) ∧ ∃ e,
      Partial.Settles (fun n => decodeAt unicode n escapeRegexp softRegexp s bin pos)
        (.error e) := by
  have hb := b.isLt
  have h₀ : s[pos]? = some 61 := getElem?_of_drop hs 0
  have hmatch := match_escape unicode h₀ (getElem?_of_drop hs 1) (getElem?_of_drop hs 2)
    (isHex_hexChar (by omega : b.val / 16 < 16)) (isHex_hexChar (by omega : b.val % 16 < 16))
  have hdigits : (s.drop (pos + 1)).take 2 = [hexChar (b.val / 16), hexChar (b.val % 16)] := by
    rw [drop_succ_of_drop hs]
    rfl
  have hhex : YogRegexp.groupStr escapeRegexp s ⟨pos, pos + 3, [some (pos + 1, pos + 3)]⟩
      (fromString "hex") = .ok (some [hexChar (b.val / 16), hexChar (b.val % 16)]) := by
    have hname : escapeRegexp.groups.findIdx? (· = some ((fromString "hex").map Fin.val)) =
        some 0 := by decide
    have hlen : pos + 3 - (pos + 1) = 2 := by omega
    simp only [YogRegexp.groupStr, hname, YogRegexp.groupNum, List.getElem?_cons_zero, hlen,
      hdigits]
  have hgroup : ((s.drop pos).take (pos + 3 - pos)).length = 3 := by
    rw [hs, List.length_take]
    simp
  have htake : takeEscape escapeRegexp s bin pos ⟨pos, pos + 3, [some (pos + 1, pos + 3)]⟩ =
      ofText (readHex b) >>= fun n => ofString (lshift bin n) >>= fun bin =>
        Partial.done (.ok (bin, pos + 3)) := by
    have hread : toI [hexChar (b.val / 16), hexChar (b.val % 16)] (some 16) = readHex b := rfl
    rw [takeEscape, hhex, ofRegexp_ok, Partial.done_ok_bind, given_some, Partial.done_ok_bind,
      hread, YogRegexp.groupNum, ofRegexp_ok]
    simp only [Partial.done_ok_bind, given_some, hgroup, Partial.pure_eq]
  rcases readHex_eq b with ⟨hb, hread⟩ | ⟨hb, e, hread⟩
  · refine .inl ⟨hb, ?_⟩
    rw [hread, ofText_ok, Partial.done_ok_bind, lshift_byte, ofString_ok, Partial.done_ok_bind]
      at htake
    refine hmatch.bind ?_
    simp only [htake]
    exact Partial.settles_done _
  · rw [hread] at htake
    refine .inr ⟨hb, .text e, hmatch.bind ?_⟩
    simp only [htake]
    exact Partial.settles_done _

end Turn

section Decode

variable (unicode : Unicode)

/-- The pieces' texts, one after the other. -/
def text (ps : List Piece) : List YogChar := ps.flatMap Piece.text

def bytes (ps : List Piece) : List Byte := ps.flatMap Piece.bytes

/-- A turn that leaves something to be done. -/
theorem decodeLoop_turn {s : List YogChar} {bin : List Byte} {pos : ℕ} (hpos : pos < s.length)
    (k : ℕ) {r : Except DecodeError (List Byte)}
    (h : Partial.Settles (fun n => decodeAt unicode n escapeRegexp softRegexp s bin pos >>=
      fun x => decodeLoop unicode n escapeRegexp softRegexp s (n - (k + 1)) x.1 x.2) r) :
    Partial.Settles
      (fun n => decodeLoop unicode n escapeRegexp softRegexp s (n - k) bin pos) r := by
  refine h.delay (k + 1) (fun n hn => ?_) fun n hn => ?_
  · show decodeLoop unicode n escapeRegexp softRegexp s (n - k) bin pos = Partial.running
    rw [show n - k = 0 by omega]
    rfl
  · show decodeLoop unicode n escapeRegexp softRegexp s (n - k) bin pos = _
    rw [show n - k = n - (k + 1) + 1 by omega, decodeLoop, if_pos hpos]

/-- The loop goes through the pieces, up to the first one with a zero and a letter. -/
theorem decodeLoop_settles {s : List YogChar} {ps : List Piece} {pos : ℕ}
    (hs : s.drop pos = text ps) (bin : List Byte) (k : ℕ) :
    ∃ r, Partial.Settles
      (fun n => decodeLoop unicode n escapeRegexp softRegexp s (n - k) bin pos) r ∧
      (r = .ok (bin ++ bytes ps) ↔ ∀ p ∈ ps, ¬ p.ZeroLetter) := by
  induction ps generalizing pos bin k with
  | nil =>
    have hpos : ¬ pos < s.length := by
      have hlen := congrArg List.length hs
      simp [text] at hlen
      omega
    refine ⟨.ok bin, (Partial.settles_done _).delay (k + 1) (fun n hn => ?_) fun n hn => ?_, ?_⟩
    · show decodeLoop unicode n escapeRegexp softRegexp s (n - k) bin pos = Partial.running
      rw [show n - k = 0 by omega]
      rfl
    · show decodeLoop unicode n escapeRegexp softRegexp s (n - k) bin pos = _
      rw [show n - k = n - (k + 1) + 1 by omega, decodeLoop, if_neg hpos]
      rfl
    · simp [bytes]
  | cons p ps ih =>
    have hp : s.drop pos = p.text ++ text ps := hs
    have hne : p.text ≠ [] := by cases p <;> simp [Piece.text]
    have hpos : pos < s.length := by
      have hlen := congrArg List.length hp
      have htext := List.length_pos_iff.2 hne
      simp at hlen
      omega
    have hrest : s.drop (pos + p.text.length) = text ps := by
      rw [← List.drop_drop, hp, List.drop_left]
    have hgood : ¬ p.ZeroLetter →
        Partial.Settles (fun n => decodeAt unicode n escapeRegexp softRegexp s bin pos)
          (.ok (bin ++ p.bytes, pos + p.text.length)) →
        ∃ r, Partial.Settles
          (fun n => decodeLoop unicode n escapeRegexp softRegexp s (n - k) bin pos) r ∧
          (r = .ok (bin ++ bytes (p :: ps)) ↔ ∀ q ∈ p :: ps, ¬ q.ZeroLetter) := by
      intro hzero hturn
      obtain ⟨r, hr, hiff⟩ := ih hrest (bin ++ p.bytes) (k + 1)
      refine ⟨r, decodeLoop_turn unicode hpos k (hturn.bind hr), ?_⟩
      rw [List.append_assoc] at hiff
      rw [List.forall_mem_cons, and_iff_right hzero]
      exact hiff
    rcases p with b | ⟨b, hb⟩ | ⟨pad, hpad⟩
    · rcases decodeAt_escaped unicode bin b hp with ⟨hzero, hturn⟩ | ⟨hzero, e, hturn⟩
      · exact hgood hzero hturn
      · refine ⟨.error e, decodeLoop_turn unicode hpos k hturn.bind_error, ?_⟩
        exact iff_of_false nofun fun h => h _ List.mem_cons_self hzero
    · exact hgood not_false (decodeAt_literal unicode bin hb hp)
    · have hturn := decodeAt_soft unicode bin hpad hp
      refine hgood not_false ?_
      have hlen : (Piece.soft pad hpad).text.length = pad.length + 3 := by simp [Piece.text]
      rw [hlen]
      simpa [Piece.bytes] using hturn

/-- What the function comes to. -/
theorem quotedprintableToBin_settles (ps : List Piece) : ∃ r,
    Partial.Settles (quotedprintableToBin unicode (text ps)) r ∧
      (r = .ok (bytes ps) ↔ ∀ p ∈ ps, ¬ p.ZeroLetter) := by
  have hs : (text ps).drop 0 = text ps := rfl
  obtain ⟨r, hr, hiff⟩ := decodeLoop_settles unicode hs [] 0
  have hloop : quotedprintableToBin unicode (text ps) =
      fun n => decodeLoop unicode n escapeRegexp softRegexp (text ps) (n - 0) [] 0 := by
    funext n
    rw [quotedprintableToBin, compiled_escape, compiled_soft, Partial.done_ok_bind,
      Partial.done_ok_bind, Nat.sub_zero]
  rw [hloop]
  exact ⟨r, hr, hiff⟩

/-- The bytes come back from each of their encodings that escapes none by a zero and a letter, and
from no other one. -/
theorem quotedprintableToBin_iff (ps : List Piece) :
    Partial.Ends (quotedprintableToBin unicode (text ps)) (.ok (bytes ps)) ↔
      ∀ p ∈ ps, ¬ p.ZeroLetter := by
  obtain ⟨r, hr, hiff⟩ := quotedprintableToBin_settles unicode ps
  rw [hr.ends_iff, ← hiff]
  exact eq_comm

end Decode

/-- `"=0A"`, a line feed. -/
theorem not_quotedprintableToBin_lineFeed :
    ¬ Partial.Ends (quotedprintableToBin asciiUnicode (text [.escaped 10])) (.ok [10]) := by
  obtain ⟨r, hr, hiff⟩ := quotedprintableToBin_settles asciiUnicode [.escaped 10]
  intro h
  rw [hr.ends_iff] at h
  exact hiff.1 h.symm (.escaped 10) List.mem_cons_self ⟨by decide, by decide⟩

end Quotedprintable

end Yog
