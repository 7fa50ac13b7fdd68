import Yog.Proofs.Arithmetic
import Yog.Proofs.Arrays
import Yog.Proofs.Comparison
import Yog.Proofs.IntegerReading
import Yog.Proofs.Substrings
import Yog.StringFormat

/-!
# What `format` makes of a string

The code cuts a string into characters and fields at the braces, and raises if it cannot. What it
then makes of a field is left to `to_i` and to the index of an array, which take more than decimal
numbers: signs, white space, prefixes, and an index that counts from the end.
-/

namespace Yog.StringFormat

open YogString Partial

/-- Decimal digits and their number. -/
def Digits (s : List YogChar) (n : ℕ) : Prop :=
  s ≠ [] ∧ ∃ ds, Spelled 10 s ds ∧ n = Lib.read 10 ds

def leftBraceChar : YogChar := yogChar '{'

def rightBraceChar : YogChar := yogChar '}'

def colonChar : YogChar := yogChar ':'

def zeroChar : YogChar := yogChar '0'

def spaceChar : YogChar := yogChar ' '

/-- What a text is padded with. -/
def padding (spec : List YogChar) : YogChar :=
  if spec.head? = some zeroChar then zeroChar else spaceChar

def padLeft (c : YogChar) (width : ℕ) (text : List YogChar) : List YogChar :=
  List.replicate (width - text.length) c ++ text

theorem length_padLeft (c : YogChar) (width : ℕ) (text : List YogChar) :
    (padLeft c width text).length = max width text.length := by
  rw [padLeft, List.length_append, List.length_replicate]
  omega

/-- A field of the grammar, the text of the argument it shows, and what it stands for. -/
inductive FieldText (texts : List (List YogChar)) :
    List YogChar → List YogChar → List YogChar → Prop
  | plain {i x : List YogChar} {n : ℕ} (hi : Digits i n) (hx : texts[n]? = some x) :
    FieldText texts i x x
  | padded {i spec x : List YogChar} {n w : ℕ} (hi : Digits i n) (hw : Digits spec w)
    (hx : texts[n]? = some x) :
    FieldText texts (i ++ colonChar :: spec) x (padLeft (padding spec) w x)

/-- The format strings there should be, and what they stand for. -/
inductive Denotes (texts : List (List YogChar)) : List YogChar → List YogChar → Prop
  | nil : Denotes texts [] []
  | char {c : YogChar} {f out : List YogChar} (hl : c ≠ leftBraceChar) (hr : c ≠ rightBraceChar)
    (h : Denotes texts f out) : Denotes texts (c :: f) (c :: out)
  | left {f out : List YogChar} (h : Denotes texts f out) :
    Denotes texts (leftBraceChar :: leftBraceChar :: f) (leftBraceChar :: out)
  | right {f out : List YogChar} (h : Denotes texts f out) :
    Denotes texts (rightBraceChar :: rightBraceChar :: f) (rightBraceChar :: out)
  | field {t x v f out : List YogChar} (ht : FieldText texts t x v) (h : Denotes texts f out) :
    Denotes texts (leftBraceChar :: (t ++ rightBraceChar :: f)) (v ++ out)

inductive Piece
  | char (c : YogChar)
  | field (t : List YogChar)

/-- The pieces of a string. A field has a character, which is no left brace, and goes on up to the
next right brace. -/
inductive Cut : List YogChar → List Piece → Prop
  | nil : Cut [] []
  | char {c : YogChar} {f : List YogChar} {ps : List Piece} (hl : c ≠ leftBraceChar)
    (hr : c ≠ rightBraceChar) (h : Cut f ps) : Cut (c :: f) (.char c :: ps)
  | left {f : List YogChar} {ps : List Piece} (h : Cut f ps) :
    Cut (leftBraceChar :: leftBraceChar :: f) (.char leftBraceChar :: ps)
  | right {f : List YogChar} {ps : List Piece} (h : Cut f ps) :
    Cut (rightBraceChar :: rightBraceChar :: f) (.char rightBraceChar :: ps)
  | field {c : YogChar} {u f : List YogChar} {ps : List Piece} (hc : c ≠ leftBraceChar)
    (hu : rightBraceChar ∉ u) (h : Cut f ps) :
    Cut (leftBraceChar :: c :: (u ++ rightBraceChar :: f)) (.field (c :: u) :: ps)

/-- Where a list is cut at the first of an element. -/
theorem append_cons_inj_left {α : Type} {a : α} {s t s' t' : List α} (hs : a ∉ s) (hs' : a ∉ s')
    (h : s ++ a :: t = s' ++ a :: t') : s = s' ∧ t = t' := by
  induction s generalizing s' with
  | nil =>
    rcases s' with _ | ⟨b, s'⟩
    · exact ⟨rfl, (List.cons.inj h).2⟩
    · exact absurd ((List.cons.inj h).1 ▸ List.mem_cons_self) hs'
  | cons b s ih =>
    rcases s' with _ | ⟨b', s'⟩
    · exact absurd ((List.cons.inj h).1 ▸ List.mem_cons_self) hs
    · obtain ⟨rfl, htail⟩ := List.cons.inj h
      obtain ⟨rfl, rfl⟩ := ih (fun h => hs (.tail b h)) (fun h => hs' (.tail b h)) htail
      exact ⟨rfl, rfl⟩

theorem left_ne_right : leftBraceChar ≠ rightBraceChar := by decide

section Cuts

variable {c : YogChar} {f rest u : List YogChar} {ps : List Piece}

theorem cut_char (hl : c ≠ leftBraceChar) (hr : c ≠ rightBraceChar) (h : Cut (c :: f) ps) :
    ∃ qs, ps = .char c :: qs ∧ Cut f qs := by
  generalize hs : c :: f = s at h
  rcases h with _ | ⟨-, -, h⟩ | h | h | ⟨-, -, h⟩
  · cases hs
  · obtain ⟨rfl, rfl⟩ := List.cons.inj hs
    exact ⟨_, rfl, h⟩
  · exact absurd (List.cons.inj hs).1 hl
  · exact absurd (List.cons.inj hs).1 hr
  · exact absurd (List.cons.inj hs).1 hl

theorem cut_right (h : Cut (rightBraceChar :: rest) ps) :
    ∃ f qs, rest = rightBraceChar :: f ∧ ps = .char rightBraceChar :: qs ∧ Cut f qs := by
  generalize hs : rightBraceChar :: rest = s at h
  rcases h with _ | ⟨hl, hr, h⟩ | h | h | ⟨-, -, h⟩
  · cases hs
  · exact absurd (List.cons.inj hs).1.symm hr
  · exact absurd (List.cons.inj hs).1.symm left_ne_right
  · exact ⟨_, _, (List.cons.inj hs).2, rfl, h⟩
  · exact absurd (List.cons.inj hs).1.symm left_ne_right

theorem cut_left (h : Cut (leftBraceChar :: rest) ps) :
    (∃ f qs, rest = leftBraceChar :: f ∧ ps = .char leftBraceChar :: qs ∧ Cut f qs) ∨
      ∃ c u f qs, c ≠ leftBraceChar ∧ rightBraceChar ∉ u ∧
        rest = c :: (u ++ rightBraceChar :: f) ∧ ps = .field (c :: u) :: qs ∧ Cut f qs := by
  generalize hs : leftBraceChar :: rest = s at h
  rcases h with _ | ⟨hl, hr, h⟩ | h | h | ⟨hc, hu, h⟩
  · cases hs
  · exact absurd (List.cons.inj hs).1.symm hl
  · exact .inl ⟨_, _, (List.cons.inj hs).2, rfl, h⟩
  · exact absurd (List.cons.inj hs).1 left_ne_right
  · exact .inr ⟨_, _, _, _, hc, hu, (List.cons.inj hs).2, rfl, h⟩

theorem cut_field (hc : c ≠ leftBraceChar) (hu : rightBraceChar ∉ u)
    (h : Cut (leftBraceChar :: c :: (u ++ rightBraceChar :: f)) ps) :
    ∃ qs, ps = .field (c :: u) :: qs ∧ Cut f qs := by
  rcases cut_left h with ⟨f', qs, hrest, -⟩ | ⟨c', u', f', qs, -, hu', hrest, rfl, h⟩
  · exact absurd (List.cons.inj hrest).1 hc
  · obtain ⟨rfl, htail⟩ := List.cons.inj hrest
    obtain ⟨rfl, rfl⟩ := append_cons_inj_left hu hu' htail
    exact ⟨qs, rfl, h⟩

end Cuts

/-- A string is cut in one way at most. -/
theorem Cut.unique {f : List YogChar} {ps qs : List Piece} (hp : Cut f ps) (hq : Cut f qs) :
    ps = qs := by
  induction hp generalizing qs with
  | nil =>
    generalize hs : ([] : List YogChar) = s at hq
    rcases hq with _ | ⟨-, -, -⟩ | - | - | ⟨-, -, -⟩ <;> first | rfl | cases hs
  | char hl hr _ ih =>
    obtain ⟨qs, rfl, hq'⟩ := cut_char hl hr hq
    rw [ih hq']
  | left _ ih =>
    rcases cut_left hq with ⟨f, qs, hrest, rfl, hq⟩ | ⟨c, u, f, qs, hc, -, hrest, -⟩
    · obtain ⟨-, rfl⟩ := List.cons.inj hrest
      rw [ih hq]
    · exact absurd (List.cons.inj hrest).1.symm hc
  | right _ ih =>
    obtain ⟨f, qs, hrest, rfl, hq⟩ := cut_right hq
    obtain ⟨-, rfl⟩ := List.cons.inj hrest
    rw [ih hq]
  | field hc hu _ ih =>
    obtain ⟨qs, rfl, hq'⟩ := cut_field hc hu hq
    rw [ih hq']

theorem charDigit_ten {c : YogChar} {d : ℕ} (h : charDigit 10 c = some d) : isDigit c.val := by
  obtain ⟨h, hlt⟩ := Option.filter_eq_some_iff.1 h
  have hlt := of_decide_eq_true hlt
  unfold digitValue at h
  split_ifs at h with h₁ h₂ h₃
  · exact h₁
  · have hd := Option.some.inj h
    omega
  · have hd := Option.some.inj h
    omega

theorem Digits.isDigit {s : List YogChar} {n : ℕ} (h : Digits s n) : ∀ c ∈ s, isDigit c.val := by
  obtain ⟨-, ds, hds, -⟩ := h
  intro c hc
  have hmem : charDigit 10 c ∈ ds.map some := by
    rw [← hds]
    exact List.mem_map_of_mem hc
  obtain ⟨d, -, hd⟩ := List.mem_map.1 hmem
  exact charDigit_ten hd.symm

theorem Digits.notMem {s : List YogChar} {n : ℕ} (h : Digits s n) {c : YogChar}
    (hc : ¬ Yog.isDigit c.val) : c ∉ s :=
  fun hmem => hc (h.isDigit c hmem)

theorem Digits.unique {s : List YogChar} {m n : ℕ} (hm : Digits s m) (hn : Digits s n) : m = n := by
  obtain ⟨-, ds, hds, rfl⟩ := hm
  obtain ⟨-, ds', hds', rfl⟩ := hn
  rw [hds.same hds']

theorem unscored_digits {s : List YogChar} (h : ∀ c ∈ s, isDigit c.val) : unscored s = some s := by
  induction s with
  | nil => rfl
  | cons c s ih =>
    rw [List.forall_mem_cons] at h
    obtain ⟨hc, hs⟩ := h
    unfold isDigit at hc
    have halpha : ¬ isAlpha c.val := by
      unfold isAlpha
      omega
    have hscore : c ≠ yogChar '_' := by
      rintro rfl
      exact absurd hc (by decide)
    rw [unscored, if_neg halpha, if_neg hscore, ih hs]
    rfl

/-- A number that is not too long is read as it is, and of a longer one something may be lost. -/
theorem Digits.toI {s : List YogChar} {n : ℕ} (h : Digits s n) : ∃ v, Yog.toI s none = .ok v ∧
    0 ≤ v.toInt ∧ v.toInt ≤ n ∧ ((n : Int) ≤ longMax → v = .ofInt n) := by
  have hdigit := h.isDigit
  obtain ⟨hne, ds, hds, rfl⟩ := h
  obtain ⟨c, rest, rfl⟩ := List.exists_cons_of_ne_nil hne
  have hc := hdigit c List.mem_cons_self
  have hplus : c ≠ yogChar '+' := by
    rintro rfl
    exact absurd hc (by decide)
  have hminus : c ≠ yogChar '-' := by
    rintro rfl
    exact absurd hc (by decide)
  have hm : magnitude (c :: rest) = c :: rest := by simp [magnitude, hplus, hminus]
  have hn : isNegative (c :: rest) = false := by simp [isNegative, hminus]
  have hsign : keptSign (c :: rest) = [] := by rw [keptSign, hn]; rfl
  have hpre : prefixOf (c :: rest) = none := by
    rcases hp : prefixOf (c :: rest) with _ | ⟨b, body⟩
    · rfl
    · obtain ⟨p, hs, hp⟩ := prefixOf_eq_some_iff.1 hp
      have hpd := hdigit p (by rw [hs]; simp)
      have hpa := (prefixBase_digit hp).1
      unfold Yog.isDigit at hpd
      unfold isAlpha at hpa
      omega
  have hbare : bare (magnitude (c :: rest)) = some (c :: rest) := by
    have hrest := unscored_digits fun d hd => hdigit d (.tail c hd)
    simp [hm, bare, hpre, hrest]
  have htaken : (taken 10 (magnitude (c :: rest))).1 = 10 := by
    rw [hm, taken, hpre, Option.getD_none]
    split_ifs <;> rfl
  have hto : Yog.toI (c :: rest) none = convert (c :: rest) (c :: rest) 10 := by
    have := toIOfRadix_some hbare 10
    rw [hsign, List.nil_append, htaken] at this
    exact this
  have hwhole := hds.whole hne (c :: rest)
  rw [hsign, List.nil_append, hn] at hwhole
  rw [hto]
  by_cases hin : InLong (Lib.read 10 ds : ℕ)
  · refine ⟨_, convert_inLong (c :: rest) hwhole hin, ?_, ?_, fun _ => rfl⟩
    · rw [Integer.toInt_ofInt]
      exact Int.natCast_nonneg _
    · rw [Integer.toInt_ofInt]
      exact le_rfl
  rcases convert_whole (c :: rest) hwhole with ⟨hin', -⟩ | ⟨-, hfrom⟩
  · exact absurd hin' hin
  · refine ⟨_, hfrom.trans (fromStr_ten _), ?_, ?_, ?_⟩
    · rw [Integer.toInt, Bignum.toInt_pos]
      omega
    · rw [Integer.toInt, Bignum.toInt_pos, bdConvFromDecimal_spelled hds]
      exact_mod_cast Nat.mod_le _ _
    · intro hle
      exact absurd ⟨le_trans (by decide) (Int.natCast_nonneg _), hle⟩ hin

theorem toI_form {s : List YogChar} {v : Integer} (h : Yog.toI s none = .ok v) :
    v = .ofInt v.toInt ∨ ∃ m, v = .bignum ⟨m, .pos⟩ := by
  have h' : toIOfRadix s (10 : ℕ) = .ok v := h
  rcases hbare : bare (magnitude s) with _ | t
  · obtain ⟨fmt, arg, herr⟩ := toIOfRadix_none hbare 10
    rw [herr] at h'
    cases h'
  · rw [toIOfRadix_some hbare] at h'
    exact convert_form h'

/-- The text of the argument that a name stands for. -/
def IndexOf (texts : List (List YogChar)) (name x : List YogChar) : Prop :=
  ∃ (k : Fixnum) (n : ℕ), Yog.toI name none = .ok (.fixnum k) ∧
    YogArray.place texts.length k.toInt = some n ∧ texts[n]? = some x

/-- A field that is taken, and what is put in its place. -/
inductive Taken (texts : List (List YogChar)) : List YogChar → List YogChar → Prop
  | plain {t x : List YogChar} (ht : colonChar ∉ t) (hx : IndexOf texts t x) : Taken texts t x
  | padded {name spec x : List YogChar} {w : Integer} (hname : colonChar ∉ name)
    (hx : IndexOf texts name x) (hspec : spec ≠ []) (hw : Yog.toI spec none = .ok w)
    (hroom : w.toInt ≤ x.length + yintMax) :
    Taken texts (name ++ colonChar :: spec) (padLeft (padding spec) w.toInt.toNat x)

theorem IndexOf.unique {texts : List (List YogChar)} {name x y : List YogChar}
    (hx : IndexOf texts name x) (hy : IndexOf texts name y) : x = y := by
  obtain ⟨k, n, hk, hn, hx⟩ := hx
  obtain ⟨k', n', hk', hn', hy⟩ := hy
  obtain rfl := Integer.fixnum.inj (Except.ok.inj (hk.symm.trans hk'))
  obtain rfl := Option.some.inj (hn.symm.trans hn')
  exact Option.some.inj (hx.symm.trans hy)

theorem IndexOf.of_digits {texts : List (List YogChar)} {name x : List YogChar} {n : ℕ}
    (hlen : (texts.length : Int) ≤ yintMax) (h : Digits name n) (hx : texts[n]? = some x) :
    IndexOf texts name x := by
  obtain ⟨v, hv, -, -, hint⟩ := h.toI
  obtain ⟨hlt, -⟩ := List.getElem?_eq_some_iff.1 hx
  have hfix : Fixable n := by
    unfold Fixable yintMin
    omega
  have hlong : (n : Int) ≤ longMax := le_trans hfix.2 (by decide)
  refine ⟨int2val n, n, ?_, ?_, hx⟩
  · rw [hv, hint hlong, Integer.ofInt_of_fixable hfix]
  · have hval : (int2val n).toInt = n := by
      rw [int2val_of_fixable hfix]
    rw [hval, YogArray.place]
    simp [hlt]

section Fields

variable {texts : List (List YogChar)}

theorem Taken.plain_inv {t v : List YogChar} (ht : colonChar ∉ t) (h : Taken texts t v) :
    IndexOf texts t v := by
  rcases h with ⟨-, hx⟩ | ⟨-, -, -, -, -⟩
  · exact hx
  · exact absurd (by simp) ht

theorem Taken.padded_inv {name spec v : List YogChar} (hname : colonChar ∉ name)
    (h : Taken texts (name ++ colonChar :: spec) v) : ∃ x w, IndexOf texts name x ∧ spec ≠ [] ∧
      Yog.toI spec none = .ok w ∧ w.toInt ≤ x.length + yintMax ∧
      v = padLeft (padding spec) w.toInt.toNat x := by
  generalize ht : name ++ colonChar :: spec = t at h
  rcases h with ⟨hcolon, -⟩ | ⟨hname', hx, hspec, hw, hroom⟩
  · exact absurd (by rw [← ht]; simp) hcolon
  · obtain ⟨rfl, rfl⟩ := append_cons_inj_left hname hname' ht
    exact ⟨_, _, hx, hspec, hw, hroom, rfl⟩

theorem Taken.unique {t v v' : List YogChar} (h : Taken texts t v) (h' : Taken texts t v') :
    v = v' := by
  rcases h with ⟨ht, hx⟩ | ⟨hname, hx, -, hw, -⟩
  · exact hx.unique (h'.plain_inv ht)
  · obtain ⟨x', w', hx', -, hw', -, rfl⟩ := h'.padded_inv hname
    obtain rfl := hx.unique hx'
    obtain rfl := Except.ok.inj (hw.symm.trans hw')
    rfl

/-- A field of the grammar whose padding fits is taken for what it is. -/
theorem FieldText.taken (hlen : (texts.length : Int) ≤ yintMax)
    (hsize : ∀ x ∈ texts, (x.length : Int) ≤ yintMax) {t x v : List YogChar}
    (h : FieldText texts t x v) (hfit : (v.length : Int) ≤ x.length + yintMax) :
    Taken texts t v := by
  rcases h with ⟨hi, hx⟩ | ⟨hi, hw, hx⟩
  · exact .plain (hi.notMem (by decide)) (.of_digits hlen hi hx)
  · rename_i i spec n w
    rw [length_padLeft] at hfit
    have hxlen := hsize x (List.mem_of_getElem? hx)
    obtain ⟨v, hv, -, -, hint⟩ := hw.toI
    have hlong : (w : Int) ≤ longMax := by
      have hle : (w : Int) ≤ x.length + yintMax := le_trans (by simp) hfit
      unfold longMax
      unfold yintMax at hle hxlen
      omega
    obtain rfl := hint hlong
    have hval : (Integer.ofInt w).toInt = w := Integer.toInt_ofInt _
    have htaken : Taken texts (i ++ colonChar :: spec)
        (padLeft (padding spec) (Integer.ofInt w).toInt.toNat x) :=
      .padded (hi.notMem (by decide)) (.of_digits hlen hi hx) hw.1 hv
        (by rw [hval]; exact le_trans (by simp) hfit)
    rwa [hval, Int.toNat_natCast] at htaken

theorem FieldText.unique {t x x' v v' : List YogChar} (h : FieldText texts t x v)
    (h' : FieldText texts t x' v') : x = x' ∧ v = v' := by
  generalize ht : t = t' at h'
  rcases h with ⟨hi, hx⟩ | ⟨hi, hw, hx⟩
  · rcases h' with ⟨hi', hx'⟩ | ⟨-, -, -⟩
    · subst ht
      rw [hi.unique hi', hx'] at hx
      exact ⟨(Option.some.inj hx).symm, (Option.some.inj hx).symm⟩
    · exact absurd (by rw [ht]; simp) (hi.notMem (c := colonChar) (by decide))
  · rcases h' with ⟨hi', -⟩ | ⟨hi', hw', hx'⟩
    · exact absurd (by rw [← ht]; simp) (hi'.notMem (c := colonChar) (by decide))
    · obtain ⟨rfl, rfl⟩ := append_cons_inj_left (hi.notMem (by decide)) (hi'.notMem (by decide)) ht
      rw [hi.unique hi', hx'] at hx
      obtain rfl := Option.some.inj hx
      rw [hw.unique hw']
      exact ⟨rfl, rfl⟩

/-- What a field of the grammar is taken for is never longer, and it is shorter if the padding does
not fit. -/
theorem FieldText.length_le (hlen : (texts.length : Int) ≤ yintMax) {t x v v' : List YogChar}
    (h : FieldText texts t x v) (h' : Taken texts t v') :
    v'.length ≤ v.length ∧ ((x.length : Int) + yintMax < v.length → v'.length < v.length) := by
  rcases h with ⟨hi, hx⟩ | ⟨hi, hw, hx⟩
  · obtain rfl := (IndexOf.of_digits hlen hi hx).unique (h'.plain_inv (hi.notMem (by decide)))
    refine ⟨le_rfl, fun hlt => ?_⟩
    unfold yintMax at hlt
    omega
  · obtain ⟨x', w', hx', -, hw', hroom, rfl⟩ := h'.padded_inv (hi.notMem (by decide))
    obtain rfl := (IndexOf.of_digits hlen hi hx).unique hx'
    obtain ⟨v, hv, hpos, hle, -⟩ := hw.toI
    obtain rfl := Except.ok.inj (hv.symm.trans hw')
    rw [length_padLeft, length_padLeft]
    constructor
    · omega
    · intro hlt
      unfold yintMax at hroom hlt
      omega

end Fields

/-- What an argument is as a text. -/
def Arg.text (base : Texts) : Arg → List YogChar
  | .string r => base.getD r []
  | .other text => text

def texts (base : Texts) (args : List Arg) : List (List YogChar) := args.map (Arg.text base)

def Raises {α : Type} (f : Script α) (st : Texts) : Prop := ∃ e, f st = done (.error e)

section Methods

variable {α β : Type} {st st' : Texts}

theorem bind_eq {f : Script α} {a : α} (h : f st = done (.ok (a, st'))) (k : α → Script β) :
    (f >>= k) st = k a st' := by
  change (f st >>= fun p => k p.1 p.2) = _
  rw [h]
  rfl

theorem bind_raises {f : Script α} (h : Raises f st) (k : α → Script β) :
    Raises (f >>= k) st := by
  obtain ⟨e, he⟩ := h
  refine ⟨e, ?_⟩
  change (f st >>= fun p => k p.1 p.2) = _
  rw [he]
  rfl

theorem bind_raises_of {f : Script α} {a : α} (h : f st = done (.ok (a, st')))
    {k : α → Script β} (hk : Raises (k a) st') : Raises (f >>= k) st := by
  unfold Raises
  rw [bind_eq h]
  exact hk

theorem raise_raises (e : FormatError) (st : Texts) : Raises (raise (α := α) e) st := ⟨e, rfl⟩

theorem lift_ok {ε : Type} (wrap : ε → FormatError) {r : Except ε α} {a : α} (h : r = .ok a)
    (st : Texts) : lift wrap r st = done (.ok (a, st)) := by
  rw [h]
  rfl

theorem lift_raises {ε : Type} (wrap : ε → FormatError) {r : Except ε α} {e : ε}
    (h : r = .error e) (st : Texts) : Raises (lift wrap r) st := by
  rw [h]
  exact ⟨wrap e, rfl⟩

theorem chars_eq {self : ℕ} {f : List YogChar} (h : st[self]? = some f) :
    chars self st = done (.ok (f, st)) := by
  rw [chars, List.getD_eq_getElem?_getD, h]
  rfl

theorem equal_eq {self : ℕ} {f : List YogChar} (h : st[self]? = some f) (s : List YogChar) :
    equal self s st = done (.ok (decide (f = s), st)) := by
  rw [equal, bind_eq (chars_eq h)]
  have heq : YogString.equal f s = decide (f = s) := by
    rw [Bool.eq_iff_iff, equal_iff, decide_eq_true_iff]
  rw [← heq]
  rfl

theorem lshift_eq {self s : ℕ} {x y : List YogChar} (hx : st[self]? = some x)
    (hy : st[s]? = some y) : lshift self s st = done (.ok ((), st.set self (x ++ y))) := by
  rw [lshift, List.getD_eq_getElem?_getD, List.getD_eq_getElem?_getD, hx, hy]
  rfl

theorem subscript_eq {self i : ℕ} {f : List YogChar} (h : st[self]? = some f)
    (hi : i < f.length) :
    subscript self i st = done (.ok (st.length, st ++ [[f[i]]])) := by
  rw [subscript, bind_eq (chars_eq h), bind_eq (lift_ok _ (subscript_ofNat hi) st)]
  rfl

theorem subscript_raises {self i : ℕ} {f : List YogChar} (h : st[self]? = some f)
    (hi : f.length ≤ i) : Raises (subscript self i) st := by
  have herr : ∃ e, YogString.subscript f (.fixnum i) = .error e := by
    refine ⟨.indexError "String index out of range" [], ?_⟩
    have hnone : index2offset f i = none := by
      rw [index2offset, if_neg (by omega), if_neg (by omega)]
    have hn : normalizeIndex f i = i := if_pos (by omega)
    simp only [YogString.subscript, unnormalizedIndex2offset, hn, hnone]
    rfl
  obtain ⟨e, he⟩ := herr
  exact bind_raises_of (chars_eq h) (bind_raises (lift_raises _ he st) _)

theorem slice_eq {self : ℕ} {pos : Int} {len : Option Int} {f g : List YogChar}
    (h : st[self]? = some f) (hg : YogString.slice f (.fixnum pos) len = .ok g) :
    slice self pos len st = done (.ok (st.length, st ++ [g])) := by
  rw [slice, bind_eq (chars_eq h), bind_eq (lift_ok _ hg st)]
  rfl

theorem toI_eq {self : ℕ} {f : List YogChar} {v : Integer} (h : st[self]? = some f)
    (hv : Yog.toI f none = .ok v) : toI self st = done (.ok (v, st)) := by
  rw [toI, bind_eq (chars_eq h), lift_ok _ hv]

theorem toI_raises {self : ℕ} {f : List YogChar} {e : TextError} (h : st[self]? = some f)
    (he : Yog.toI f none = .error e) : Raises (toI self) st :=
  bind_raises_of (chars_eq h) (lift_raises _ he st)

/-- A width that is no less than a size gives as many characters as it is more, if they fit. -/
theorem multiply_eq {self : ℕ} {c : YogChar} {w : Integer} {n : ℕ} (h : st[self]? = some [c])
    (hn : (n : Int) ≤ yintMax) (hw : w = .ofInt n) :
    multiply self w st = done (.ok (st.length, st ++ [List.replicate n c])) := by
  have hfix : Fixable n := by
    unfold Fixable yintMin
    omega
  have hval : (int2val n).toInt = n := by rw [int2val_of_fixable hfix]
  unfold yintMax at hn
  have hmod : (n : Int) % 2 ^ 64 = n := by omega
  rw [hw, Integer.ofInt_of_fixable hfix, multiply, bind_eq (chars_eq h)]
  simp only [hval, List.length_cons, List.length_nil, Nat.zero_add, Nat.cast_one, one_mul, hmod]
  rw [if_neg (by omega), if_neg]
  · simp [create]
  · rintro ⟨h₁, h₂⟩
    exact h₂ (Int.ediv_self h₁)

theorem multiply_raises (self : ℕ) {w : Integer} (hw : ¬ w.IsFixnum) :
    Raises (multiply self w) st := by
  rcases w with k | b
  · exact absurd trivial hw
  · exact raise_raises _ st

end Methods

section Field

variable {base st : Texts} {args : List Arg} {t : ℕ} {text : List YogChar}

theorem getElem?_of_isPrefix {α : Type} {s s' : List α} (h : s <+: s') {n : ℕ} {a : α}
    (hn : s[n]? = some a) : s'[n]? = some a := by
  obtain ⟨u, rfl⟩ := h
  obtain ⟨hlt, -⟩ := List.getElem?_eq_some_iff.1 hn
  rwa [List.getElem?_append_left hlt]

theorem argText_ok (hbase : base <+: st) (hargs : ∀ r, Arg.string r ∈ args → r < base.length)
    (ht : st[t]? = some text) {x : List YogChar} (h : IndexOf (texts base args) text x) :
    ∃ r st', argText args t st = done (.ok (r, st')) ∧ st <+: st' ∧ st'[r]? = some x := by
  obtain ⟨k, n, hk, hn, hx⟩ := h
  rw [texts, List.getElem?_map] at hx
  obtain ⟨a, ha, rfl⟩ := Option.map_eq_some_iff.1 hx
  rw [texts, List.length_map] at hn
  have hfits : YogArray.Fits ⟨args.length, args⟩ := le_rfl
  have hcontents : YogArray.contents ⟨args.length, args⟩ = args := List.take_length
  obtain ⟨a', ha', hget⟩ := YogArray.subscript_ok hfits (by rw [hcontents]; exact hn)
  rw [hcontents, ha] at hget
  obtain rfl := Option.some.inj hget
  have harg : argAt args (.fixnum k) st = done (.ok (a, st)) := lift_ok _ ha' st
  rw [argText, bind_eq (toI_eq ht hk), bind_eq harg]
  rcases a with r | s
  · refine ⟨r, st, rfl, List.prefix_rfl, ?_⟩
    have hr := hargs r (List.mem_of_getElem? ha)
    refine getElem?_of_isPrefix hbase ?_
    rw [Arg.text, List.getD_eq_getElem?_getD, List.getElem?_eq_getElem hr]
    rfl
  · exact ⟨st.length, st ++ [s], rfl, List.prefix_append st [s], by simp [Arg.text]⟩

theorem argText_raises (ht : st[t]? = some text)
    (h : ∀ x, ¬ IndexOf (texts base args) text x) : Raises (argText args t) st := by
  rcases hv : Yog.toI text none with e | v
  · exact bind_raises (toI_raises ht hv) _
  refine bind_raises_of (toI_eq ht hv) (bind_raises ?_ _)
  rcases v with k | b
  · rcases hn : YogArray.place args.length k.toInt with _ | n
    · have hfits : YogArray.Fits ⟨args.length, args⟩ := le_rfl
      have hcontents : YogArray.contents ⟨args.length, args⟩ = args := List.take_length
      have hin := YogArray.place_none hfits (by rw [hcontents]; exact hn)
      have herr : YogArray.subscript ⟨args.length, args⟩ (some k.toInt) =
          .error (.indexError "Array index out of range" []) := if_pos hin
      exact lift_raises _ herr st
    · have hlt : n < args.length := by
        unfold YogArray.place at hn
        dsimp only at hn
        split_ifs at hn <;> cases hn <;> omega
      refine absurd ⟨k, n, hv, ?_, ?_⟩ (h (args[n].text base))
      · rw [texts, List.length_map]
        exact hn
      · rw [texts, List.getElem?_map, List.getElem?_eq_getElem hlt]
        rfl
  · exact lift_raises _ rfl st

theorem find_colon (text : List YogChar) :
    (colonChar ∉ text ∧ StringScript.find text colon 0 = .ok (-1)) ∨
      ∃ name spec, text = name ++ colonChar :: spec ∧ colonChar ∉ name ∧
        StringScript.find text colon 0 = .ok (name.length : Int) := by
  have hcolon : colon = [colonChar] := rfl
  have hocc : ∀ i, Occurrence.OccursAt [colonChar] text i ↔ text[i]? = some colonChar := by
    intro i
    rw [Occurrence.OccursAt, ← List.head?_drop]
    rcases text.drop i with _ | ⟨c, rest⟩
    · simp
    · simp [eq_comm]
  rw [hcolon]
  have hne : [colonChar] ≠ [] := List.cons_ne_nil _ _
  rcases StringScript.find_spec hne text 0 with
    ⟨i, hi, -, hat, hleast⟩ | ⟨hi, hnone⟩
  · right
    rw [hocc] at hat
    obtain ⟨hlt, hget⟩ := List.getElem?_eq_some_iff.1 hat
    refine ⟨text.take i, text.drop (i + 1), ?_, ?_, ?_⟩
    · rw [← hget, ← List.drop_eq_getElem_cons hlt, List.take_append_drop]
    · intro hmem
      obtain ⟨j, hj, hget⟩ := List.getElem_of_mem hmem
      rw [List.length_take] at hj
      rw [List.getElem_take] at hget
      refine hleast j (Nat.zero_le j) (by omega) ((hocc j).2 ?_)
      rw [List.getElem?_eq_getElem (by omega), hget]
    · rw [hi, List.length_take, Nat.min_eq_left hlt.le]
  · refine .inl ⟨fun hmem => ?_, hi⟩
    obtain ⟨j, hj, hget⟩ := List.getElem_of_mem hmem
    exact hnone j (Nat.zero_le j) ((hocc j).2 (by rw [List.getElem?_eq_getElem hj, hget]))

theorem sign_of_toI {spec : List YogChar} {w : Integer} (hw : Yog.toI spec none = .ok w)
    (hpos : 0 ≤ w.toInt) : w.sign = .pos := by
  rcases toI_form hw with hform | ⟨m, rfl⟩
  · rw [hform]
    by_cases hfix : Fixable w.toInt
    · rw [Integer.ofInt_of_fixable hfix, Integer.sign_fixnum, int2val_of_fixable hfix,
        if_neg (not_lt.2 hpos)]
    · rw [Integer.ofInt_of_not_fixable hfix, if_neg (not_lt.2 hpos)]
      rfl
  · rfl

/-- A width and the size of a text, as the code compares and subtracts them. -/
theorem width_spec {spec : List YogChar} {w : Integer} (hw : Yog.toI spec none = .ok w) {n : ℕ}
    (hn : (n : Int) ≤ yintMax) :
    w.less (.fixnum (int2val n)) = .ok (decide (w.toInt < n)) ∧
      ((n : Int) ≤ w.toInt → w.subtract (.fixnum (int2val n)) = .ofInt (w.toInt - n)) := by
  have hfix : Fixable n := by
    unfold Fixable yintMin
    omega
  obtain ⟨size, hsize⟩ : ∃ k : Fixnum, k = int2val n := ⟨_, rfl⟩
  have hval : size.toInt = n := by rw [hsize, int2val_of_fixable hfix]
  have hsign : (Integer.fixnum size).sign = .pos := by
    rw [Integer.sign_fixnum, hval, if_neg (by omega)]
  rw [← hsize, ← hval]
  constructor
  · refine (Integer.instructions_of_ufo ((Integer.ufo_eq_iff _ _).2 ⟨?_, ?_⟩)).1
    · exact fun h => h.2 trivial
    · rintro ⟨h₁, -, h₃⟩
      rw [hsign] at h₃
      exact h₃ (sign_of_toI hw h₁.ge)
  · intro hle
    rw [← Integer.represents_iff]
    refine (Integer.subtract_represents_iff _ _).2 (.inr (.inl ?_))
    rw [hsign]
    exact sign_of_toI hw (by omega)

/-- The first half of `pad`. -/
theorem pad_eq {val spec : ℕ} {x s : List YogChar} (hval : st[val]? = some x)
    (hspec : st[spec]? = some s) (hs : s ≠ []) {w : Integer} (hw : Yog.toI s none = .ok w)
    (hx : (x.length : Int) ≤ yintMax) : ∃ c st', st <+: st' ∧ st'[c]? = some [padding s] ∧
      pad val spec st = (if w.toInt < x.length then pure val else do
        add (← multiply c (w.subtract (.fixnum (int2val x.length)))) val) st' := by
  obtain ⟨d, rest, rfl⟩ := List.exists_cons_of_ne_nil hs
  have hchar : (if ([d] : List YogChar) = zero then zero else space) = [padding (d :: rest)] := by
    have hzero : zero = [zeroChar] := rfl
    rw [padding, hzero]
    by_cases hd : d = zeroChar
    · rw [hd]
      rfl
    · rw [if_neg (by simpa using hd), if_neg (by simpa using hd)]
      rfl
  have hpre₁ : st <+: st ++ [[d]] := List.prefix_append _ _
  have hpre₂ : st <+: st ++ [[d]] ++ [[padding (d :: rest)]] := by
    rw [List.append_assoc]
    exact List.prefix_append _ _
  refine ⟨(st ++ [[d]]).length, st ++ [[d]] ++ [[padding (d :: rest)]], hpre₂, by simp, ?_⟩
  have hfirst : subscript spec 0 st = done (.ok (st.length, st ++ [[d]])) :=
    subscript_eq hspec (Nat.succ_pos _)
  have hcreate : create (if ([d] : List YogChar) = zero then zero else space) (st ++ [[d]]) =
      done (.ok ((st ++ [[d]]).length, st ++ [[d]] ++ [[padding (d :: rest)]])) := by
    rw [hchar]
    rfl
  rw [pad, bind_eq hfirst, bind_eq (equal_eq List.getElem?_concat_length zero)]
  simp only [decide_eq_true_eq]
  rw [bind_eq hcreate, bind_eq (toI_eq (getElem?_of_isPrefix hpre₂ hspec) hw),
    bind_eq (chars_eq (getElem?_of_isPrefix hpre₂ hval)),
    bind_eq (lift_ok _ (width_spec hw hx).1 _)]
  simp only [decide_eq_true_eq]

theorem pad_ok {val spec : ℕ} {x s : List YogChar} (hval : st[val]? = some x)
    (hspec : st[spec]? = some s) (hs : s ≠ []) {w : Integer} (hw : Yog.toI s none = .ok w)
    (hx : (x.length : Int) ≤ yintMax) (hroom : w.toInt ≤ x.length + yintMax) :
    ∃ r st', pad val spec st = done (.ok (r, st')) ∧ st <+: st' ∧
      st'[r]? = some (padLeft (padding s) w.toInt.toNat x) := by
  obtain ⟨c, st', hpre, hc, heq⟩ := pad_eq hval hspec hs hw hx
  rw [heq]
  split_ifs with hlt
  · refine ⟨val, st', rfl, hpre, ?_⟩
    have hnone : w.toInt.toNat - x.length = 0 := by omega
    rw [padLeft, hnone]
    exact getElem?_of_isPrefix hpre hval
  · have hsub := (width_spec hw hx).2 (not_lt.1 hlt)
    have hcast : w.toInt - x.length = (w.toInt.toNat - x.length : ℕ) := by omega
    rw [hcast] at hsub
    have hle : ((w.toInt.toNat - x.length : ℕ) : Int) ≤ yintMax := by omega
    have hval' := getElem?_of_isPrefix (hpre.trans (List.prefix_append st'
      [List.replicate (w.toInt.toNat - x.length) (padding s)])) hval
    rw [bind_eq (multiply_eq hc hle hsub), add, bind_eq (chars_eq List.getElem?_concat_length),
      bind_eq (chars_eq hval')]
    refine ⟨_, _, rfl, ?_, ?_⟩
    · exact hpre.trans ((List.prefix_append _ _).trans (List.prefix_append _ _))
    · exact List.getElem?_concat_length

theorem pad_raises {val spec : ℕ} {x s : List YogChar} (hval : st[val]? = some x)
    (hspec : st[spec]? = some s) (hx : (x.length : Int) ≤ yintMax)
    (h : ∀ w, s ≠ [] → Yog.toI s none = .ok w → (x.length : Int) + yintMax < w.toInt) :
    Raises (pad val spec) st := by
  by_cases hs : s = []
  · subst hs
    exact bind_raises (subscript_raises hspec le_rfl) _
  rcases hw : Yog.toI s none with e | w
  · obtain ⟨d, rest, rfl⟩ := List.exists_cons_of_ne_nil hs
    refine bind_raises_of (subscript_eq hspec (Nat.succ_pos _))
      (bind_raises_of (equal_eq List.getElem?_concat_length zero)
        (bind_raises_of rfl (bind_raises ?_ _)))
    refine toI_raises (getElem?_of_isPrefix ?_ hspec) hw
    exact (List.prefix_append _ _).trans (List.prefix_append _ _)
  · have hlong := h w hs hw
    obtain ⟨c, st', -, -, heq⟩ := pad_eq hval hspec hs hw hx
    have hge : (x.length : Int) ≤ w.toInt := by
      unfold yintMax at hlong
      omega
    unfold Raises
    rw [heq, if_neg (not_lt.2 hge), (width_spec hw hx).2 hge]
    refine bind_raises (multiply_raises c ?_) _
    rw [Integer.ofInt_of_not_fixable]
    · exact id
    · intro hfix
      have hle := hfix.2
      omega

section Parts

variable {name spec : List YogChar}

theorem slice_name (name spec : List YogChar) :
    YogString.slice (name ++ colonChar :: spec) (.fixnum 0) (some name.length) = .ok name := by
  rw [← Nat.cast_zero, slice_ofNat, List.drop_zero, List.take_left]

theorem slice_spec (name spec : List YogChar) :
    YogString.slice (name ++ colonChar :: spec) (.fixnum (name.length + 1)) none = .ok spec := by
  rw [← Nat.cast_succ, slice_none_ofNat, Nat.succ_eq_add_one, ← List.drop_drop, List.drop_left]
  rfl

/-- The first half of a field with a specification. -/
theorem field_eq (hname : colonChar ∉ name) (ht : st[t]? = some (name ++ colonChar :: spec)) :
    field args t st = (do
      let val ← argText args st.length
      let formatSpec ← slice t (name.length + 1) none
      pad val formatSpec) (st ++ [name]) := by
  have hfind : StringScript.find (name ++ colonChar :: spec) colon 0 = .ok (name.length : Int) := by
    rcases find_colon (name ++ colonChar :: spec) with ⟨hno, -⟩ | ⟨name', spec', heq, hname', hfind⟩
    · exact absurd (by simp) hno
    · obtain ⟨rfl, -⟩ := append_cons_inj_left hname hname' heq
      exact hfind
  rw [field, bind_eq (chars_eq ht), bind_eq (lift_ok _ hfind st), if_neg (by omega),
    bind_eq (slice_eq ht (slice_name name spec))]

theorem field_pad (hbase : base <+: st) (hargs : ∀ r, Arg.string r ∈ args → r < base.length)
    (hname : colonChar ∉ name) (ht : st[t]? = some (name ++ colonChar :: spec))
    {x : List YogChar} (hx : IndexOf (texts base args) name x) :
    ∃ val formatSpec st', field args t st = pad val formatSpec st' ∧ st <+: st' ∧
      st'[val]? = some x ∧ st'[formatSpec]? = some spec := by
  have hpre₁ : st <+: st ++ [name] := List.prefix_append _ _
  obtain ⟨val, st₂, hval, hpre₂, hget⟩ :=
    argText_ok (hbase.trans hpre₁) hargs List.getElem?_concat_length hx
  have ht₂ := getElem?_of_isPrefix (hpre₁.trans hpre₂) ht
  have hpre₃ : st₂ <+: st₂ ++ [spec] := List.prefix_append _ _
  refine ⟨val, st₂.length, st₂ ++ [spec], ?_, hpre₁.trans (hpre₂.trans hpre₃),
    getElem?_of_isPrefix hpre₃ hget, List.getElem?_concat_length⟩
  rw [field_eq hname ht, bind_eq hval, bind_eq (slice_eq ht₂ (slice_spec name spec))]

end Parts

theorem IndexOf.mem {texts : List (List YogChar)} {name x : List YogChar}
    (h : IndexOf texts name x) : x ∈ texts := by
  obtain ⟨k, n, -, -, hget⟩ := h
  exact List.mem_of_getElem? hget

/-- A field that is taken is put into new strings. -/
theorem field_ok (hbase : base <+: st) (hargs : ∀ r, Arg.string r ∈ args → r < base.length)
    (hsize : ∀ x ∈ texts base args, (x.length : Int) ≤ yintMax) (ht : st[t]? = some text)
    {v : List YogChar} (h : Taken (texts base args) text v) :
    ∃ r st', field args t st = done (.ok (r, st')) ∧ st <+: st' ∧ st'[r]? = some v := by
  rcases find_colon text with ⟨hno, hfind⟩ | ⟨name, spec, rfl, hname, -⟩
  · rw [field, bind_eq (chars_eq ht), bind_eq (lift_ok _ hfind st), if_pos (by decide)]
    exact argText_ok hbase hargs ht (h.plain_inv hno)
  · obtain ⟨x, w, hx, hspec, hw, hroom, rfl⟩ := h.padded_inv hname
    obtain ⟨val, formatSpec, st', heq, hpre, hval, hfs⟩ := field_pad hbase hargs hname ht hx
    obtain ⟨r, st₂, hpad, hpre₂, hr⟩ := pad_ok hval hfs hspec hw (hsize x hx.mem) hroom
    exact ⟨r, st₂, heq.trans hpad, hpre.trans hpre₂, hr⟩

theorem field_raises (hbase : base <+: st)
    (hargs : ∀ r, Arg.string r ∈ args → r < base.length)
    (hsize : ∀ x ∈ texts base args, (x.length : Int) ≤ yintMax) (ht : st[t]? = some text)
    (h : ∀ v, ¬ Taken (texts base args) text v) : Raises (field args t) st := by
  rcases find_colon text with ⟨hno, hfind⟩ | ⟨name, spec, rfl, hname, -⟩
  · refine bind_raises_of (chars_eq ht) (bind_raises_of (lift_ok _ hfind st) ?_)
    rw [if_pos (by decide)]
    exact argText_raises ht fun x hx => h x (.plain hno hx)
  · unfold Raises
    by_cases hx : ∃ x, IndexOf (texts base args) name x
    · obtain ⟨x, hx⟩ := hx
      obtain ⟨val, formatSpec, st', heq, -, hval, hfs⟩ := field_pad hbase hargs hname ht hx
      rw [heq]
      refine pad_raises hval hfs (hsize x hx.mem) fun w hs hw => ?_
      by_contra hroom
      exact h _ (.padded hname hx hs hw (not_lt.1 hroom))
    · rw [field_eq hname ht]
      exact bind_raises (argText_raises List.getElem?_concat_length fun x hx' => hx ⟨x, hx'⟩) _

end Field

/-- The strings of the caller are as they were, and the result so far is at `s`. -/
structure Holds (base : Texts) (s : ℕ) (acc : List YogChar) (st : Texts) : Prop where
  pre : base <+: st
  fresh : base.length ≤ s
  current : st[s]? = some acc

section Holding

variable {base st st' : Texts} {s : ℕ} {acc : List YogChar}

theorem Holds.of_isPrefix (h : Holds base s acc st) (hpre : st <+: st') : Holds base s acc st' :=
  ⟨h.pre.trans hpre, h.fresh, getElem?_of_isPrefix hpre h.current⟩

theorem Holds.append (h : Holds base s acc st) (x : List YogChar) :
    Holds base s acc (st ++ [x]) :=
  h.of_isPrefix (List.prefix_append _ _)

theorem Holds.lt (h : Holds base s acc st) : s < st.length :=
  (List.getElem?_eq_some_iff.1 h.current).1

theorem isPrefix_set {t : ℕ} (hpre : base <+: st) (ht : base.length ≤ t) (x : List YogChar) :
    base <+: st.set t x := by
  obtain ⟨u, rfl⟩ := hpre
  rw [List.set_append_right t x ht]
  exact List.prefix_append _ _

theorem Holds.set (h : Holds base s acc st) (x : List YogChar) : Holds base s x (st.set s x) :=
  ⟨isPrefix_set h.pre h.fresh x, h.fresh, List.getElem?_set_self h.lt⟩

/-- Another string that is new may change. -/
theorem Holds.set_of_ne (h : Holds base s acc st) {t : ℕ} (ht : base.length ≤ t) (hne : t ≠ s)
    (x : List YogChar) : Holds base s acc (st.set t x) :=
  ⟨isPrefix_set h.pre ht x, h.fresh, by rw [List.getElem?_set_ne hne]; exact h.current⟩

end Holding

section Loops

variable {base st : Texts} {self s t i : ℕ} {f acc : List YogChar}

theorem subscript_of_drop (hself : st[self]? = some f) {c : YogChar} {rest : List YogChar}
    (hi : f.drop i = c :: rest) : subscript self i st = done (.ok (st.length, st ++ [[c]])) := by
  have hlt : i < f.length := by
    by_contra hle
    rw [List.drop_eq_nil_of_le (not_lt.1 hle)] at hi
    cases hi
  rw [List.drop_eq_getElem_cons hlt] at hi
  rw [subscript_eq hself hlt, (List.cons.inj hi).1]

theorem drop_succ_of_cons {α : Type} {l : List α} {a : α} {rest : List α} {n : ℕ}
    (h : l.drop n = a :: rest) : l.drop (n + 1) = rest := by
  rw [← List.drop_drop, h]
  rfl

theorem equal_right {r : ℕ} {c : YogChar} (h : st[r]? = some [c]) :
    equal r rightBrace st = done (.ok (decide (c = rightBraceChar), st)) := by
  have hbrace : rightBrace = [rightBraceChar] := rfl
  rw [equal_eq h, hbrace]
  simp

theorem equal_left {r : ℕ} {c : YogChar} (h : st[r]? = some [c]) :
    equal r leftBrace st = done (.ok (decide (c = leftBraceChar), st)) := by
  have hbrace : leftBrace = [leftBraceChar] := rfl
  rw [equal_eq h, hbrace]
  simp

section FieldLoop

variable {turns : ℕ} {text u : List YogChar}

/-- A turn takes a character that is no brace. -/
theorem fieldLoop_step (turns : ℕ) (hself : base[self]? = some f) (ht : base.length ≤ t)
    (hts : t ≠ s) (hst : Holds base s acc st) (htext : st[t]? = some text) {c : YogChar}
    {rest : List YogChar} (hi : f.drop i = c :: rest) (hc : c ≠ rightBraceChar) :
    ∃ st', fieldLoop self t (turns + 1) i st = fieldLoop self t turns (i + 1) st' ∧
      Holds base s acc st' ∧ st'[t]? = some (text ++ [c]) := by
  have hself' := getElem?_of_isPrefix hst.pre hself
  have htext' : (st ++ [[c]] ++ [[c]])[t]? = some text :=
    getElem?_of_isPrefix (List.prefix_append _ _)
      (getElem?_of_isPrefix (List.prefix_append _ _) htext)
  refine ⟨(st ++ [[c]] ++ [[c]]).set t (text ++ [c]), ?_,
    ((hst.append [c]).append [c]).set_of_ne ht hts _,
    List.getElem?_set_self (List.getElem?_eq_some_iff.1 htext').1⟩
  rw [fieldLoop, bind_eq (subscript_of_drop hself' hi),
    bind_eq (equal_right List.getElem?_concat_length), if_neg (by simpa using hc),
    bind_eq (subscript_of_drop (getElem?_of_isPrefix (List.prefix_append _ _) hself') hi),
    bind_eq (lshift_eq htext' List.getElem?_concat_length)]

/-- The text of a field goes into `t`, up to the brace. -/
theorem fieldLoop_ok (hself : base[self]? = some f) (ht : base.length ≤ t) (hts : t ≠ s)
    (hu : rightBraceChar ∉ u) {rest : List YogChar} (hst : Holds base s acc st)
    (htext : st[t]? = some text) (hi : f.drop i = u ++ rightBraceChar :: rest)
    (hturns : u.length < turns) :
    ∃ st', fieldLoop self t turns i st = done (.ok (i + u.length, st')) ∧ Holds base s acc st' ∧
      st'[t]? = some (text ++ u) := by
  induction u generalizing turns i st text with
  | nil =>
    obtain ⟨turns, rfl⟩ := Nat.exists_eq_succ_of_ne_zero hturns.ne'
    have hself' := getElem?_of_isPrefix hst.pre hself
    rw [fieldLoop, bind_eq (subscript_of_drop hself' hi),
      bind_eq (equal_right List.getElem?_concat_length)]
    refine ⟨_, rfl, hst.append _, ?_⟩
    rw [List.append_nil]
    exact getElem?_of_isPrefix (List.prefix_append _ _) htext
  | cons c u ih =>
    obtain ⟨turns, rfl⟩ := Nat.exists_eq_succ_of_ne_zero (Nat.ne_zero_of_lt hturns)
    have hc : c ≠ rightBraceChar := fun h => hu (h ▸ List.mem_cons_self)
    obtain ⟨st₁, hstep, hst₁, htext₁⟩ :=
      fieldLoop_step turns hself ht hts hst htext hi hc
    obtain ⟨st₂, heq, hst₂, htext₂⟩ := ih (fun h => hu (.tail c h)) hst₁ htext₁
      (drop_succ_of_cons hi) (by simpa using hturns)
    refine ⟨st₂, ?_, hst₂, by simpa using htext₂⟩
    rw [hstep, heq, List.length_cons]
    congr 3
    omega

/-- Without a brace the loop comes to the end of the string. -/
theorem fieldLoop_raises (hself : base[self]? = some f) (ht : base.length ≤ t) (hts : t ≠ s)
    (hu : rightBraceChar ∉ u) (hst : Holds base s acc st) (htext : st[t]? = some text)
    (hi : f.drop i = u) (hturns : u.length < turns) : Raises (fieldLoop self t turns i) st := by
  induction u generalizing turns i st text with
  | nil =>
    obtain ⟨turns, rfl⟩ := Nat.exists_eq_succ_of_ne_zero hturns.ne'
    have hself' := getElem?_of_isPrefix hst.pre hself
    exact bind_raises (subscript_raises hself' (List.drop_eq_nil_iff.1 hi)) _
  | cons c u ih =>
    obtain ⟨turns, rfl⟩ := Nat.exists_eq_succ_of_ne_zero (Nat.ne_zero_of_lt hturns)
    have hc : c ≠ rightBraceChar := fun h => hu (h ▸ List.mem_cons_self)
    obtain ⟨st₁, hstep, hst₁, htext₁⟩ :=
      fieldLoop_step turns hself ht hts hst htext hi hc
    unfold Raises
    rw [hstep]
    exact ih (fun h => hu (.tail c h)) hst₁ htext₁ (drop_succ_of_cons hi) (by simpa using hturns)

end FieldLoop

/-- What is made of the pieces, for what is made of a field. -/
inductive Filled (R : List YogChar → List YogChar → Prop) : List Piece → List YogChar → Prop
  | nil : Filled R [] []
  | char {c : YogChar} {ps : List Piece} {out : List YogChar} (h : Filled R ps out) :
    Filled R (.char c :: ps) (c :: out)
  | field {t v : List YogChar} {ps : List Piece} {out : List YogChar} (ht : R t v)
    (h : Filled R ps out) : Filled R (.field t :: ps) (v ++ out)

/-- What the loop comes to with `rest` before it: the pieces are put behind what there was, or it
raises. -/
def Outcome (base : Texts) (args : List Arg) (s : ℕ) (acc rest : List YogChar)
    (p : Partial FormatError (ℕ × Texts)) : Prop :=
  (∃ ps out st, Cut rest ps ∧ Filled (Taken (texts base args)) ps out ∧ p = done (.ok (s, st)) ∧
      Holds base s (acc ++ out) st) ∨
    (∀ ps out, Cut rest ps → ¬ Filled (Taken (texts base args)) ps out) ∧ ∃ e, p = done (.error e)

section Outcomes

variable {args : List Arg} {rest rest' : List YogChar} {p : Partial FormatError (ℕ × Texts)}

theorem Outcome.char {c : YogChar} (h : Outcome base args s (acc ++ [c]) rest' p)
    (hcut : ∀ ps, Cut rest' ps → Cut rest (.char c :: ps))
    (hinv : ∀ ps, Cut rest ps → ∃ qs, ps = .char c :: qs ∧ Cut rest' qs) :
    Outcome base args s acc rest p := by
  rcases h with ⟨ps, out, st, hps, hfill, heq, hst⟩ | ⟨hno, herr⟩
  · exact .inl ⟨_, c :: out, st, hcut ps hps, .char hfill, heq, by simpa using hst⟩
  · refine .inr ⟨fun ps out hps hfill => ?_, herr⟩
    obtain ⟨qs, rfl, hqs⟩ := hinv ps hps
    rcases hfill with _ | hfill | _
    exact hno qs _ hqs hfill

theorem Outcome.field {c : YogChar} {u v : List YogChar} (hc : c ≠ leftBraceChar)
    (hu : rightBraceChar ∉ u) (hv : Taken (texts base args) (c :: u) v)
    (h : Outcome base args s (acc ++ v) rest p) :
    Outcome base args s acc (leftBraceChar :: c :: (u ++ rightBraceChar :: rest)) p := by
  rcases h with ⟨ps, out, st, hps, hfill, heq, hst⟩ | ⟨hno, herr⟩
  · exact .inl ⟨_, v ++ out, st, .field hc hu hps, .field hv hfill, heq, by simpa using hst⟩
  · refine .inr ⟨fun ps out hps hfill => ?_, herr⟩
    obtain ⟨qs, rfl, hqs⟩ := cut_field hc hu hps
    rcases hfill with _ | _ | ⟨-, hfill⟩
    exact hno qs _ hqs hfill

theorem Outcome.of_raises {g : Script ℕ} (h : Raises g st)
    (hno : ∀ ps out, Cut rest ps → ¬ Filled (Taken (texts base args)) ps out) :
    Outcome base args s acc rest (g st) :=
  .inr ⟨hno, h⟩

end Outcomes

/-- A turn at a field: its text is put into the character that was taken from the string. -/
theorem field_turn {args : List Arg} {fuel turns : ℕ} (hself : base[self]? = some f)
    (hargs : ∀ r, Arg.string r ∈ args → r < base.length)
    (hsize : ∀ x ∈ texts base args, (x.length : Int) ≤ yintMax) (hfuel : f.length < fuel)
    (hst : Holds base s acc st) {c : YogChar} {rest : List YogChar} (hi : f.drop i = rest)
    (hc : c ≠ leftBraceChar)
    (next : ∀ {acc : List YogChar} {st : Texts} {i : ℕ} {g : List YogChar},
      Holds base s acc st → f.drop i = g → g.length < rest.length →
        Outcome base args s acc g (formatLoop args self s fuel turns i st)) :
    Outcome base args s acc (leftBraceChar :: c :: rest) ((do
      let i ← fieldLoop self st.length fuel i
      lshift s (← field args st.length)
      formatLoop args self s fuel turns (i + 1)) (st ++ [[c]])) := by
  have hst₁ := hst.append [c]
  have hnew : base.length ≤ st.length := le_trans hst.fresh hst.lt.le
  have hrestlen : rest.length ≤ f.length := by
    rw [← hi, List.length_drop]
    omega
  by_cases hbrace : rightBraceChar ∈ rest
  · obtain ⟨u, g, rfl, hu⟩ := List.eq_append_cons_of_mem hbrace
    have hulen : u.length < fuel := by
      simp at hrestlen
      omega
    obtain ⟨st₂, hloop, hst₂, htext⟩ := fieldLoop_ok hself hnew hst.lt.ne' hu hst₁
      List.getElem?_concat_length hi hulen
    rw [bind_eq hloop]
    have hg : f.drop (i + u.length + 1) = g := by
      rw [Nat.add_assoc, ← List.drop_drop, hi, ← List.drop_drop, List.drop_left]
      rfl
    by_cases htaken : ∃ v, Taken (texts base args) (c :: u) v
    · obtain ⟨v, hv⟩ := htaken
      obtain ⟨r, st₃, hfield, hpre, hr⟩ := field_ok hst₂.pre hargs hsize htext hv
      have hst₃ := hst₂.of_isPrefix hpre
      rw [bind_eq hfield, bind_eq (lshift_eq hst₃.current hr)]
      refine .field hc hu hv (next (hst₃.set _) hg ?_)
      simp
      omega
    · refine .of_raises (bind_raises (field_raises hst₂.pre hargs hsize htext
        fun v hv => htaken ⟨v, hv⟩) _) fun ps out hps hfill => ?_
      obtain ⟨qs, rfl, -⟩ := cut_field hc hu hps
      rcases hfill with _ | _ | ⟨hv, -⟩
      exact htaken ⟨_, hv⟩
  · refine .of_raises (bind_raises (fieldLoop_raises hself hnew hst.lt.ne' hbrace hst₁
      List.getElem?_concat_length hi (lt_of_le_of_lt hrestlen hfuel)) _) fun ps out hps => ?_
    rcases cut_left hps with ⟨g, qs, hrest, -⟩ | ⟨c', u, g, qs, -, -, hrest, -⟩
    · exact absurd (List.cons.inj hrest).1 hc
    · rw [(List.cons.inj hrest).2] at hbrace
      simp at hbrace

/-- The loop of `format` fills in the pieces of what is left of the string. -/
theorem formatLoop_spec {args : List Arg} {fuel : ℕ} (hself : base[self]? = some f)
    (hargs : ∀ r, Arg.string r ∈ args → r < base.length)
    (hsize : ∀ x ∈ texts base args, (x.length : Int) ≤ yintMax) (hfuel : f.length < fuel)
    {rest : List YogChar} (hst : Holds base s acc st) (hi : f.drop i = rest) {turns : ℕ}
    (hturns : rest.length < turns) :
    Outcome base args s acc rest (formatLoop args self s fuel turns i st) := by
  induction hn : rest.length using Nat.strong_induction_on generalizing rest i st acc turns with
  | _ n ih =>
  subst hn
  obtain ⟨turns, rfl⟩ := Nat.exists_eq_succ_of_ne_zero (Nat.ne_zero_of_lt hturns)
  have hself' := getElem?_of_isPrefix hst.pre hself
  rw [formatLoop, bind_eq (chars_eq hself')]
  rcases rest with _ | ⟨c₁, rest⟩
  · rw [if_pos (List.drop_eq_nil_iff.1 hi)]
    exact .inl ⟨[], [], st, .nil, .nil, rfl, by simpa using hst⟩
  have hlt : ¬ f.length ≤ i := by
    intro hle
    rw [List.drop_eq_nil_of_le hle] at hi
    cases hi
  have hi₁ := drop_succ_of_cons hi
  have hst₁ := hst.append [c₁]
  have hself₁ := getElem?_of_isPrefix hst₁.pre hself
  rw [if_neg hlt, bind_eq (subscript_of_drop hself' hi),
    bind_eq (equal_right List.getElem?_concat_length)]
  simp only [decide_eq_true_eq]
  split_ifs with hright
  · subst hright
    rcases rest with _ | ⟨c₂, rest⟩
    · refine .of_raises (bind_raises (subscript_raises hself₁ (List.drop_eq_nil_iff.1 hi₁)) _) ?_
      intro ps out hps
      obtain ⟨g, qs, hrest, -⟩ := cut_right hps
      cases hrest
    rw [bind_eq (subscript_of_drop hself₁ hi₁), bind_eq (equal_right List.getElem?_concat_length)]
    simp only [decide_eq_true_eq]
    split_ifs with hright₂
    · subst hright₂
      rw [bind_eq (lshift_eq (hst₁.append _).current List.getElem?_concat_length)]
      refine Outcome.char (ih rest.length (by simp) ((hst₁.append _).set _)
        (drop_succ_of_cons hi₁) ?_ rfl) (fun ps => .right) ?_
      · simp at hturns
        omega
      · intro ps hps
        obtain ⟨g, qs, hrest, rfl, hqs⟩ := cut_right hps
        obtain ⟨-, rfl⟩ := List.cons.inj hrest
        exact ⟨qs, rfl, hqs⟩
    · refine .of_raises (raise_raises _ _) fun ps out hps => ?_
      obtain ⟨g, qs, hrest, -⟩ := cut_right hps
      exact absurd (List.cons.inj hrest).1 hright₂
  rw [bind_eq (equal_left List.getElem?_concat_length)]
  simp only [Bool.not_eq_true', decide_eq_false_iff_not, ite_not]
  split_ifs with hleft
  swap
  · rw [bind_eq (lshift_eq hst₁.current List.getElem?_concat_length)]
    refine Outcome.char (ih rest.length (by simp) (hst₁.set _) hi₁ ?_ rfl)
      (fun ps => .char hleft hright) (fun ps hps => cut_char hleft hright hps)
    simp at hturns
    omega
  subst hleft
  rcases rest with _ | ⟨c₂, rest⟩
  · refine .of_raises (bind_raises (subscript_raises hself₁ (List.drop_eq_nil_iff.1 hi₁)) _) ?_
    intro ps out hps
    rcases cut_left hps with ⟨g, qs, hrest, -⟩ | ⟨c, u, g, qs, -, -, hrest, -⟩
    · cases hrest
    · cases hrest
  have hi₂ := drop_succ_of_cons hi₁
  have hst₂ := hst₁.append [c₂]
  rw [bind_eq (subscript_of_drop hself₁ hi₁), bind_eq (equal_left List.getElem?_concat_length)]
  simp only [decide_eq_true_eq]
  split_ifs with hleft₂
  · subst hleft₂
    rw [bind_eq (lshift_eq hst₂.current List.getElem?_concat_length)]
    refine Outcome.char (ih rest.length (by simp) (hst₂.set _) hi₂ ?_ rfl) (fun ps => .left) ?_
    · simp at hturns
      omega
    · intro ps hps
      rcases cut_left hps with ⟨g, qs, hrest, rfl, hqs⟩ | ⟨c, u, g, qs, hc, -, hrest, -⟩
      · obtain ⟨-, rfl⟩ := List.cons.inj hrest
        exact ⟨qs, rfl, hqs⟩
      · exact absurd (List.cons.inj hrest).1.symm hc
  refine field_turn hself hargs hsize hfuel hst₁ hi₂ hleft₂ (fun hst hg hlt => ?_)
  refine ih _ ?_ hst hg ?_ rfl
  · simp
    omega
  · simp at hturns
    omega

end Loops

/-- The caller's strings are in the store, and all of it fits in memory. -/
structure InMemory (base : Texts) (f : ℕ) (args : List Arg) : Prop where
  format_lt : f < base.length
  args_lt : ∀ r, Arg.string r ∈ args → r < base.length
  count_le : (args.length : Int) ≤ yintMax
  size_le : ∀ x ∈ texts base args, (x.length : Int) ≤ yintMax

/-- `format` ends; it makes of a string of the grammar what it stands for, and raises for every
other one. The strings there were are left as they were. -/
def Formats (base : Texts) (self : ℕ) (args : List Arg) : Prop :=
  ∃ N, ∀ fuel, N ≤ fuel → ∃ o, format fuel self args base = done o ∧
    (∀ out, Denotes (texts base args) (base.getD self []) out →
      ∃ r st, o = .ok (r, st) ∧ base <+: st ∧ st[r]? = some out) ∧
    ((∀ out, ¬ Denotes (texts base args) (base.getD self []) out) → ∃ e, o = .error e)

/-- What the field stands for, whatever argument it shows. -/
def Stands (texts : List (List YogChar)) (t v : List YogChar) : Prop := ∃ x, FieldText texts t x v

/-- As the code cuts the string: where all of the fields are of the grammar no padding is too long
for a Fixnum, and else there is a field that is not taken. -/
def Clear (texts : List (List YogChar)) (f : List YogChar) : Prop :=
  ∀ ps, Cut f ps →
    ((∀ t, .field t ∈ ps → ∃ v, Stands texts t v) →
      ∀ t x v, .field t ∈ ps → FieldText texts t x v → (v.length : Int) ≤ x.length + yintMax) ∧
    ∀ t, .field t ∈ ps → (∀ v, ¬ Stands texts t v) →
      ∃ t', .field t' ∈ ps ∧ ∀ v, ¬ Taken texts t' v

section Filling

variable {R S : List YogChar → List YogChar → Prop} {ps : List Piece} {out out' : List YogChar}

theorem Filled.exists_of_mem (h : Filled R ps out) {t : List YogChar} (ht : .field t ∈ ps) :
    ∃ v, R t v := by
  induction h with
  | nil => cases ht
  | char _ ih => exact ih (by simpa using ht)
  | field hv _ ih =>
    rcases List.mem_cons.1 ht with heq | ht
    · obtain rfl := Piece.field.inj heq
      exact ⟨_, hv⟩
    · exact ih ht

theorem filled_of_forall (h : ∀ t, .field t ∈ ps → ∃ v, R t v) : ∃ out, Filled R ps out := by
  induction ps with
  | nil => exact ⟨[], .nil⟩
  | cons p ps ih =>
    obtain ⟨out, hout⟩ := ih fun t ht => h t (.tail p ht)
    rcases p with c | t
    · exact ⟨_, .char hout⟩
    · obtain ⟨v, hv⟩ := h t List.mem_cons_self
      exact ⟨_, .field hv hout⟩

theorem Filled.mono (h : Filled R ps out) (hRS : ∀ t v, .field t ∈ ps → R t v → S t v) :
    Filled S ps out := by
  induction h with
  | nil => exact .nil
  | char _ ih => exact .char (ih fun t v ht => hRS t v (.tail _ ht))
  | field hv _ ih =>
    exact .field (hRS _ _ List.mem_cons_self hv) (ih fun t v ht => hRS t v (.tail _ ht))

theorem Filled.unique (hR : ∀ t v v', R t v → R t v' → v = v') (h : Filled R ps out)
    (h' : Filled R ps out') : out = out' := by
  induction h generalizing out' with
  | nil =>
    rcases h' with _ | _ | _
    rfl
  | char _ ih =>
    rcases h' with _ | h' | _
    rw [ih h']
  | field hv _ ih =>
    rcases h' with _ | _ | ⟨hv', h'⟩
    rw [ih h', hR _ _ _ hv hv']

end Filling

section Grammar

variable {texts : List (List YogChar)} {f out : List YogChar}

/-- A field of the grammar has no brace. -/
theorem FieldText.notMem {t x v : List YogChar} (h : FieldText texts t x v) :
    t ≠ [] ∧ leftBraceChar ∉ t ∧ rightBraceChar ∉ t := by
  rcases h with ⟨hi, -⟩ | ⟨hi, hw, -⟩
  · exact ⟨hi.1, hi.notMem (by decide), hi.notMem (by decide)⟩
  · refine ⟨by simp, ?_, ?_⟩
    · rw [List.mem_append, List.mem_cons, not_or, not_or]
      exact ⟨hi.notMem (by decide), by decide, hw.notMem (by decide)⟩
    · rw [List.mem_append, List.mem_cons, not_or, not_or]
      exact ⟨hi.notMem (by decide), by decide, hw.notMem (by decide)⟩

/-- A field of the grammar begins with a digit. -/
theorem FieldText.head {t x v : List YogChar} (h : FieldText texts t x v) :
    ∀ c ∈ t.head?, isDigit c.val := by
  rcases h with ⟨hi, -⟩ | ⟨hi, -, -⟩
  · exact fun c hc => hi.isDigit c (List.mem_of_mem_head? hc)
  · rename_i i spec n w
    intro c hc
    rw [List.head?_append_of_ne_nil i hi.1] at hc
    exact hi.isDigit c (List.mem_of_mem_head? hc)

/-- The strings of the grammar are those whose fields are of it, however the code cuts them. -/
theorem denotes_iff_cut : Denotes texts f out ↔ ∃ ps, Cut f ps ∧ Filled (Stands texts) ps out := by
  constructor
  · intro h
    induction h with
    | nil => exact ⟨[], .nil, .nil⟩
    | char hl hr _ ih =>
      obtain ⟨ps, hps, hfill⟩ := ih
      exact ⟨_, .char hl hr hps, .char hfill⟩
    | left _ ih =>
      obtain ⟨ps, hps, hfill⟩ := ih
      exact ⟨_, .left hps, .char hfill⟩
    | right _ ih =>
      obtain ⟨ps, hps, hfill⟩ := ih
      exact ⟨_, .right hps, .char hfill⟩
    | @field t x v f out ht _ ih =>
      obtain ⟨ps, hps, hfill⟩ := ih
      obtain ⟨hne, hl, hr⟩ := ht.notMem
      obtain ⟨c, u, rfl⟩ := List.exists_cons_of_ne_nil hne
      rw [List.mem_cons, not_or] at hl hr
      exact ⟨_, .field (Ne.symm hl.1) hr.2 hps, .field ⟨x, ht⟩ hfill⟩
  · rintro ⟨ps, hps, hfill⟩
    induction hps generalizing out with
    | nil =>
      rcases hfill with _ | _ | _
      exact .nil
    | char hl hr _ ih =>
      rcases hfill with _ | hfill | _
      exact .char hl hr (ih hfill)
    | left _ ih =>
      rcases hfill with _ | hfill | _
      exact .left (ih hfill)
    | right _ ih =>
      rcases hfill with _ | hfill | _
      exact .right (ih hfill)
    | field _ _ _ ih =>
      rcases hfill with _ | _ | ⟨⟨x, ht⟩, hfill⟩
      exact .field ht (ih hfill)

/-- What the fields of the grammar are taken for is not longer, and it is shorter if some padding
is too long. -/
theorem filled_length (hlen : (texts.length : Int) ≤ yintMax) {ps : List Piece}
    {out' : List YogChar} (h : Filled (Stands texts) ps out)
    (h' : Filled (Taken texts) ps out') : out'.length ≤ out.length ∧
      ∀ t x v, .field t ∈ ps → FieldText texts t x v → (x.length : Int) + yintMax < v.length →
        out'.length < out.length := by
  induction h generalizing out' with
  | nil =>
    rcases h' with _ | _ | _
    exact ⟨le_rfl, fun _ _ _ ht => by cases ht⟩
  | char _ ih =>
    rcases h' with _ | h' | _
    obtain ⟨hle, hlt⟩ := ih h'
    refine ⟨Nat.succ_le_succ hle, fun t x v ht hx hv => Nat.succ_lt_succ ?_⟩
    exact hlt t x v (by simpa using ht) hx hv
  | @field t v ps out hv _ ih =>
    rcases h' with _ | _ | ⟨hv', h'⟩
    obtain ⟨hle, hlt⟩ := ih h'
    obtain ⟨x, hx⟩ := hv
    obtain ⟨hle', hlt'⟩ := hx.length_le hlen hv'
    rw [List.length_append, List.length_append]
    refine ⟨Nat.add_le_add hle' hle, fun t₂ x₂ v₂ ht hx₂ hv₂ => ?_⟩
    rcases List.mem_cons.1 ht with heq | ht
    · obtain rfl := Piece.field.inj heq
      obtain ⟨rfl, rfl⟩ := hx.unique hx₂
      have hshort := hlt' hv₂
      omega
    · have hrest := hlt t₂ x₂ v₂ ht hx₂ hv₂
      omega

end Grammar

section Result

variable {base : Texts} {self : ℕ} {args : List Arg}

theorem InMemory.getElem? (h : InMemory base self args) :
    base[self]? = some (base.getD self []) := by
  rw [List.getD_eq_getElem?_getD, List.getElem?_eq_getElem h.format_lt]
  rfl

theorem InMemory.length_texts (h : InMemory base self args) :
    ((texts base args).length : Int) ≤ yintMax := by
  rw [texts, List.length_map]
  exact h.count_le

/-- What `format` comes to with enough fuel. -/
theorem format_spec (h : InMemory base self args) {fuel : ℕ}
    (hfuel : (base.getD self []).length < fuel) :
    Outcome base args base.length [] (base.getD self []) (format fuel self args base) := by
  have hcreate : create [] base = done (.ok (base.length, base ++ [[]])) := rfl
  rw [format, bind_eq hcreate]
  have hst : Holds base base.length [] (base ++ [[]]) :=
    ⟨List.prefix_append _ _, le_rfl, List.getElem?_concat_length⟩
  exact formatLoop_spec h.getElem? h.args_lt h.size_le hfuel hst List.drop_zero hfuel

theorem Formats.clear (h : InMemory base self args) (hf : Formats base self args) :
    Clear (texts base args) (base.getD self []) := by
  obtain ⟨N, hN⟩ := hf
  obtain ⟨o, ho, hgood, hbad⟩ := hN _ (le_max_left N ((base.getD self []).length + 1))
  have hspec := format_spec h (lt_of_lt_of_le (Nat.lt_succ_self _)
    (le_max_right N ((base.getD self []).length + 1)))
  rw [ho] at hspec
  intro ps hps
  constructor
  · intro hall t x v ht hx
    by_contra hlong
    obtain ⟨out, hout⟩ := filled_of_forall hall
    obtain ⟨r, st, rfl, -, hr⟩ := hgood out (denotes_iff_cut.2 ⟨ps, hps, hout⟩)
    rcases hspec with ⟨ps', out', st', hps', hfill, heq, hst⟩ | ⟨-, e, heq⟩
    · obtain ⟨rfl, rfl⟩ := Prod.mk.inj (Except.ok.inj (done_inj.1 heq))
      rw [← hps.unique hps'] at hfill
      have hsame : out = out' := Option.some.inj (hr.symm.trans hst.current)
      have hlt := (filled_length h.length_texts hout hfill).2 t x v ht hx (not_le.1 hlong)
      rw [hsame] at hlt
      exact lt_irrefl _ hlt
    · cases done_inj.1 heq
  · intro t ht hno
    by_contra hall
    push Not at hall
    obtain ⟨out, hout⟩ := filled_of_forall hall
    have hnone : ∀ out, ¬ Denotes (texts base args) (base.getD self []) out := by
      intro out hd
      obtain ⟨ps', hps', hfill⟩ := denotes_iff_cut.1 hd
      rw [← hps.unique hps'] at hfill
      obtain ⟨v, hv⟩ := hfill.exists_of_mem ht
      exact hno v hv
    obtain ⟨e, rfl⟩ := hbad hnone
    rcases hspec with ⟨-, -, st', -, -, heq, -⟩ | ⟨hno', -⟩
    · cases done_inj.1 heq
    · exact hno' ps out hps hout

theorem Clear.formats (h : InMemory base self args)
    (hclear : Clear (texts base args) (base.getD self [])) : Formats base self args := by
  refine ⟨(base.getD self []).length + 1, fun fuel hfuel => ?_⟩
  rcases format_spec h hfuel with ⟨ps, out, st, hps, hfill, heq, hst⟩ | ⟨hno, e, heq⟩
  · refine ⟨_, heq, fun out' hd => ?_, fun hnone => ?_⟩
    · obtain ⟨ps', hps', hstands⟩ := denotes_iff_cut.1 hd
      obtain rfl := hps.unique hps'
      have htaken := hstands.mono fun t v ht hv => by
        obtain ⟨x, hx⟩ := hv
        exact hx.taken h.length_texts h.size_le
          ((hclear ps hps).1 (fun t ht => hstands.exists_of_mem ht) t x v ht hx)
      obtain rfl := hfill.unique (fun _ _ _ h h' => h.unique h') htaken
      exact ⟨base.length, st, rfl, hst.pre, hst.current⟩
    · exfalso
      by_cases hall : ∀ t, .field t ∈ ps → ∃ v, Stands (texts base args) t v
      · obtain ⟨out', hstands⟩ := filled_of_forall hall
        exact hnone out' (denotes_iff_cut.2 ⟨ps, hps, hstands⟩)
      · push Not at hall
        obtain ⟨t, ht, hno⟩ := hall
        obtain ⟨t', ht', hno'⟩ := (hclear ps hps).2 t ht hno
        obtain ⟨v, hv⟩ := hfill.exists_of_mem ht'
        exact hno' v hv
  · refine ⟨_, heq, fun out' hd => ?_, fun _ => ⟨e, rfl⟩⟩
    obtain ⟨ps, hps, hstands⟩ := denotes_iff_cut.1 hd
    have htaken := hstands.mono fun t v ht hv => by
      obtain ⟨x, hx⟩ := hv
      exact hx.taken h.length_texts h.size_le
        ((hclear ps hps).1 (fun t ht => hstands.exists_of_mem ht) t x v ht hx)
    exact absurd htaken (hno ps out' hps)

/-- `format` fills in the arguments for the strings that are clear, and only for them. -/
theorem formats_iff (h : InMemory base self args) :
    Formats base self args ↔ Clear (texts base args) (base.getD self []) :=
  ⟨Formats.clear h, Clear.formats h⟩

end Result

/-- `"a{0:05}".format(12)` -/
theorem formats_iff_padded :
    InMemory [fromString "a{0:05}"] 0 [.other (fromString "12")] ∧
      (Formats [fromString "a{0:05}"] 0 [.other (fromString "12")] ↔
        Clear (texts [fromString "a{0:05}"] [.other (fromString "12")])
          (fromString "a{0:05}")) := by
  have h : InMemory [fromString "a{0:05}"] 0 [.other (fromString "12")] :=
    ⟨by decide, by simp, by decide, by simp [texts, Arg.text]; decide⟩
  exact ⟨h, formats_iff h⟩

/-- `"{-1}".format("a", "b")` is `"b"`, though a sign makes no index. -/
theorem not_formats_negative :
    ¬ Formats [fromString "{-1}"] 0 [.other (fromString "a"), .other (fromString "b")] := by
  intro hf
  have h : InMemory [fromString "{-1}"] 0 [.other (fromString "a"), .other (fromString "b")] :=
    ⟨by decide, by simp, by decide, by simp [texts, Arg.text]; decide⟩
  have hcut : Cut (fromString "{-1}") [.field (fromString "-1")] :=
    .field (u := [yogChar '1']) (by decide) (by decide) .nil
  obtain ⟨-, hno⟩ := hf.clear h _ hcut
  have hstands : ∀ v, ¬ Stands (texts [fromString "{-1}"]
      [.other (fromString "a"), .other (fromString "b")]) (fromString "-1") v := by
    rintro v ⟨x, hx⟩
    exact absurd (hx.head (yogChar '-') rfl) (by decide)
  obtain ⟨t, ht, hnone⟩ := hno _ List.mem_cons_self hstands
  obtain rfl := Piece.field.inj (List.mem_singleton.1 ht)
  exact hnone (fromString "b") (.plain (by decide) ⟨int2val (-1), 1, by rfl, by decide, rfl⟩)

end Yog.StringFormat
