import Yog.IntegerText
import Yog.Proofs.Representation
import Yog.Proofs.Utf8
import Mathlib.Data.List.TakeWhile

/-!
# Integers to text and back

`to_s` writes the canonical digits as long as they fit into its buffer. `to_i` reads canonical
digits by `strtol`, and by `YogBignum_from_str` where they leave the word; that knows the base 10
only, no sign, and takes bytes by an approximation of the logarithm.
-/

namespace Yog

def digitChar (d : Nat) : YogChar := toYogChar (digitCode d)

/-- The canonical text of an integer. -/
def canonicalText (r : Nat) (x : Int) : List YogChar :=
  (if x < 0 then [yogChar '-'] else []) ++ (Lib.written r x.natAbs).map digitChar

section Digits

variable {d : Nat} (hd : d < 36)

include hd

theorem digitCode_cases : (48 ≤ digitCode d ∧ digitCode d ≤ 57 ∧ d < 10 ∧ digitCode d = 48 + d) ∨
    (97 ≤ digitCode d ∧ digitCode d ≤ 122 ∧ 10 ≤ d ∧ digitCode d = 87 + d) := by
  unfold digitCode
  split_ifs <;> omega

theorem digitCode_lt : digitCode d < 0x80 := by
  rcases digitCode_cases hd with h | h <;> omega

theorem digitChar_val : (digitChar d).val = digitCode d :=
  Nat.mod_eq_of_lt (lt_trans (digitCode_lt hd) (by decide))

theorem digitByte_val : (toByte (digitCode d)).val = digitCode d :=
  Nat.mod_eq_of_lt (lt_trans (digitCode_lt hd) (by decide))

theorem digitValue_digitCode : digitValue (digitCode d) = some d := by
  unfold digitValue
  rcases digitCode_cases hd with ⟨h₁, h₂, -, he⟩ | ⟨h₁, h₂, -, he⟩
  · rw [if_pos (show isDigit (digitCode d) from ⟨h₁, h₂⟩), he, Nat.add_sub_cancel_left]
  · have hn : ¬ isDigit (digitCode d) := by
      rintro ⟨-, h⟩
      omega
    rw [if_neg hn, if_neg (by omega), if_pos ⟨h₁, h₂⟩, he, Nat.add_sub_cancel_left]

theorem digitOf_digitCode {r : Nat} (hr : d < r) :
    digitOf r (toByte (digitCode d)) = some d := by
  unfold digitOf
  rw [digitByte_val hd, digitValue_digitCode hd, Option.filter_some_pos]
  exact decide_eq_true hr

theorem digitChar_ne {c : Char} (h : c.toNat < 0x80) (hc : digitCode d ≠ c.toNat) :
    digitChar d ≠ yogChar c := by
  intro he
  apply hc
  have hv := congrArg Fin.val he
  rw [digitChar_val hd] at hv
  rw [hv]
  exact Nat.mod_eq_of_lt (lt_trans h (by decide))

theorem toLower_digitChar : toLower (digitChar d) = digitChar d := by
  unfold toLower
  rw [digitChar_val hd]
  rcases digitCode_cases hd with h | h <;> rw [if_neg (by omega)]

end Digits

/-- The bytes of digits. -/
def digitBytes (ds : List Nat) : List Byte := ds.map fun d => toByte (digitCode d)

/-- One byte for each character. -/
def asciiBytes (cs : List YogChar) : List Byte := cs.map fun c => toByte c.val

theorem convFromYog_ascii {enc : Encoding}
    (h : ∀ c : YogChar, c.val < 0x80 → enc.convCharFromYog c = [toByte c.val]) :
    ∀ {cs : List YogChar}, (∀ c ∈ cs, c.val < 0x80) → enc.convFromYog cs = asciiBytes cs
  | [], _ => rfl
  | c :: cs, hcs => by
    rw [List.forall_mem_cons] at hcs
    rw [Encoding.convFromYog_cons, h c hcs.1, convFromYog_ascii h hcs.2]
    rfl

theorem utf8_convToYog_asciiBytes {cs : List YogChar} (h : ∀ c ∈ cs, c.val < 0x80) :
    utf8.convToYog (asciiBytes cs) = cs := by
  have hone : ∀ c : YogChar, c.val < 0x80 → utf8.convCharFromYog c = [toByte c.val] :=
    fun c hc => if_pos hc
  rw [← convFromYog_ascii hone h, convToYog_convFromYog_iff]
  exact fun c hc => .inl (lt_trans (h c hc) (by decide))

theorem ascii_convFromYog {cs : List YogChar} (h : ∀ c ∈ cs, c.val < 0x80) :
    ascii.convFromYog cs = asciiBytes cs :=
  convFromYog_ascii (fun _ hc => if_pos hc) h

section Radix

variable {r : Nat} (hr : 2 ≤ r) (hr' : r ≤ 36)

include hr hr'

theorem lt_of_mem_written {n d : Nat} (hd : d ∈ Lib.written r n) : d < 36 :=
  lt_of_lt_of_le (Lib.lt_of_mem_written hr hd) hr'

theorem canonicalText_ascii (x : Int) : ∀ c ∈ canonicalText r x, c.val < 0x80 := by
  unfold canonicalText
  rw [List.forall_mem_append]
  constructor
  · split_ifs
    · rw [List.forall_mem_singleton]
      decide
    · exact nofun
  · rw [List.forall_mem_map]
    intro d hd
    have h := lt_of_mem_written hr hr' hd
    rw [digitChar_val h]
    exact digitCode_lt h

theorem asciiBytes_digits (n : Nat) : asciiBytes ((Lib.written r n).map digitChar) =
    (Lib.written r n).map fun d => toByte (digitCode d) := by
  unfold asciiBytes
  rw [List.map_map]
  apply List.map_congr_left
  intro d hd
  show toByte (digitChar d).val = _
  rw [digitChar_val (lt_of_mem_written hr hr' hd)]

/-- The bytes of the canonical text. -/
theorem asciiBytes_canonicalText (x : Int) : asciiBytes (canonicalText r x) =
    (if x < 0 then [toByte '-'.toNat] else []) ++
      (Lib.written r x.natAbs).map fun d => toByte (digitCode d) := by
  rw [← asciiBytes_digits hr hr']
  unfold canonicalText asciiBytes
  rw [List.map_append]
  split_ifs <;> rfl

omit hr' in
/-- The loop leaves the digits in the buffer if there is room for them. -/
theorem toSLoop_eq : ∀ (room num : Nat) (buffer : List Byte), toSLoop r room num buffer =
    if (Lib.written r num).length ≤ room then
      .ok (room - (Lib.written r num).length,
        (Lib.written r num).map (fun d => toByte (digitCode d)) ++ buffer)
    else .error .overrun
  | 0, num, buffer => by
    have h := List.length_pos_iff.2 (Lib.written_ne_nil hr num)
    rw [if_neg (by omega)]
    rfl
  | room + 1, num, buffer => by
    unfold toSLoop
    rcases Nat.lt_or_ge num r with h | h
    · rw [if_pos (Nat.div_eq_of_lt h), Lib.written_of_lt h, Nat.mod_eq_of_lt h,
        if_pos (show [num].length ≤ room + 1 from Nat.le_add_left 1 room)]
      rfl
    · have hq : num / r ≠ 0 := (Nat.div_pos h (by omega)).ne'
      simp only [if_neg hq]
      rw [toSLoop_eq room, Lib.written_of_le hr h, List.length_append, List.map_append,
        List.length_singleton]
      by_cases hl : (Lib.written r (num / r)).length ≤ room
      · rw [if_pos hl, if_pos (by omega), Nat.add_sub_add_right, List.append_assoc]
        rfl
      · rw [if_neg hl, if_neg (by omega)]

/-- `to_s_internal` gives the canonical text, or runs over its buffer. -/
theorem toSInternal_eq (x : Int) : toSInternal x r =
    if (Lib.written r x.natAbs).length ≤ (if x < 0 then 29 else 30) then
      .ok (canonicalText r x)
    else .error .overrun := by
  have hu := utf8_convToYog_asciiBytes (canonicalText_ascii hr hr' x)
  rw [asciiBytes_canonicalText hr hr'] at hu
  unfold toSInternal
  rw [toSLoop_eq hr, List.append_nil]
  by_cases hx : x < 0
  · rw [if_pos hx] at hu
    simp only [hx, if_true]
    by_cases hl : (Lib.written r x.natAbs).length ≤ 30
    · rw [if_pos hl]
      show (if 30 - (Lib.written r x.natAbs).length = 0 then Except.error TextError.overrun
        else Except.ok (utf8.convToYog (toByte '-'.toNat :: _))) = _
      by_cases hf : (Lib.written r x.natAbs).length ≤ 29
      · rw [if_neg (by omega), if_pos hf, ← hu]
        rfl
      · rw [if_pos (by omega), if_neg hf]
    · rw [if_neg hl, if_neg (by omega)]
      rfl
  · rw [if_neg hx] at hu
    simp only [hx, if_false]
    by_cases hl : (Lib.written r x.natAbs).length ≤ 30
    · rw [if_pos hl, if_pos hl, ← hu]
      rfl
    · rw [if_neg hl, if_neg hl]
      rfl

omit hr hr' in
/-- Digits of `to_s` are in their normal form. -/
theorem normalizeLoop_digits (self : List YogChar) : ∀ {ds : List Nat}, (∀ d ∈ ds, d < 36) →
    ∀ normalized, normalizeLoop self (ds.map digitChar) normalized =
      .ok (normalized ++ ds.map digitChar)
  | [], _, normalized => by
    rw [List.map_nil, List.append_nil]
    rfl
  | d :: ds, hds, normalized => by
    rw [List.forall_mem_cons] at hds
    have hu : digitChar d ≠ yogChar '_' := by
      refine digitChar_ne hds.1 (by decide) ?_
      show digitCode d ≠ 95
      rcases digitCode_cases hds.1 with h | h <;> omega
    rw [List.map_cons]
    unfold normalizeLoop
    rw [toLower_digitChar hds.1, if_neg hu, ite_self, normalizeLoop_digits self hds.2,
      List.append_assoc]
    rfl

theorem normalizeDigits_written (self normalized : List YogChar) (base : Int) (n : Nat) :
    ∃ c cs, (Lib.written r n).map digitChar = c :: cs ∧ c ≠ yogChar '+' ∧ c ≠ yogChar '-' ∧
      normalizeDigits self normalized base c cs =
        .ok (normalized ++ (Lib.written r n).map digitChar, base) := by
  have hlt : ∀ d ∈ Lib.written r n, d < 36 := fun d hd => lt_of_mem_written hr hr' hd
  rcases hw : Lib.written r n with _ | ⟨d, ds⟩
  · exact absurd hw (Lib.written_ne_nil hr n)
  rw [hw, List.forall_mem_cons] at hlt
  have hsign : ∀ c : Char, c.toNat < 48 → digitChar d ≠ yogChar c := by
    intro c hc
    refine digitChar_ne hlt.1 (lt_trans hc (by decide)) ?_
    rcases digitCode_cases hlt.1 with h | h <;> omega
  refine ⟨digitChar d, ds.map digitChar, rfl, hsign '+' (by decide), hsign '-' (by decide), ?_⟩
  have hloop := normalizeLoop_digits self hlt.2 (normalized ++ [digitChar d])
  rw [List.append_assoc] at hloop
  rcases ds with _ | ⟨d', ds⟩
  · unfold normalizeDigits
    rw [List.map_nil] at hloop ⊢
    rw [hloop]
    rfl
  · -- A number with two digits has no zero in front.
    have h₀ : digitChar d ≠ yogChar '0' := by
      refine digitChar_ne hlt.1 (by decide) ?_
      have hn : n ≠ 0 := by
        rintro rfl
        rw [Lib.written_of_lt (by omega)] at hw
        exact absurd hw (by simp)
      obtain ⟨e, es, he, hne⟩ := Lib.head_written r hn
      rw [hw] at he
      obtain rfl : d = e := (List.cons.inj he).1
      show digitCode d ≠ 48
      rcases digitCode_cases hlt.1 with h | h <;> omega
    unfold normalizeDigits
    simp only [List.map_cons, if_neg h₀] at hloop ⊢
    rw [hloop]
    rfl

theorem normalizeAsNumber_canonicalText (x base : Int) :
    normalizeAsNumber (canonicalText r x) base = .ok (canonicalText r x, base) := by
  have hm : yogChar '-' ≠ yogChar '+' := by decide
  by_cases hx : x < 0
  · have ht : canonicalText r x = yogChar '-' :: (Lib.written r x.natAbs).map digitChar := by
      unfold canonicalText
      rw [if_pos hx]
      rfl
    obtain ⟨c, cs, hc, -, -, hn⟩ := normalizeDigits_written hr hr' (canonicalText r x)
      [yogChar '-'] base x.natAbs
    unfold normalizeAsNumber
    rw [ht] at hn ⊢
    rw [hc] at hn ⊢
    simpa [hm] using hn
  · have ht : canonicalText r x = (Lib.written r x.natAbs).map digitChar := by
      unfold canonicalText
      rw [if_neg hx]
      rfl
    obtain ⟨c, cs, hc, h₁, h₂, hn⟩ := normalizeDigits_written hr hr' (canonicalText r x)
      [] base x.natAbs
    unfold normalizeAsNumber
    rw [ht] at hn ⊢
    rw [hc] at hn ⊢
    simpa [h₁, h₂] using hn

omit hr in
theorem takeDigits_digitBytes : ∀ {ds : List Nat}, (∀ d ∈ ds, d < r) → ∀ v,
    takeDigits r v (digitBytes ds) = (ds.foldl (fun v d => v * r + d) v, [])
  | [], _, _ => rfl
  | d :: ds, hds, v => by
    rw [List.forall_mem_cons] at hds
    show takeDigits r v (toByte (digitCode d) :: digitBytes ds) = _
    unfold takeDigits
    rw [digitOf_digitCode (lt_of_lt_of_le hds.1 hr') hds.1]
    exact takeDigits_digitBytes hds.2 _

/-- Where `strtol` meets the digits of a number, behind the sign if there is one. -/
theorem digitBytes_written (n : Nat) : ∃ b bs, digitBytes (Lib.written r n) = b :: bs ∧
    ¬ isSpace b.val ∧ b.val ≠ '-'.toNat ∧ b.val ≠ '+'.toNat ∧ (digitOf r b).isSome ∧
    ¬ (b.val = '0'.toNat ∧ (byteAt bs 0 = 'x'.toNat ∨ byteAt bs 0 = 'X'.toNat)) := by
  have hlt : ∀ d ∈ Lib.written r n, d < r := fun d hd => Lib.lt_of_mem_written hr hd
  rcases hw : Lib.written r n with _ | ⟨d, ds⟩
  · exact absurd hw (Lib.written_ne_nil hr n)
  rw [hw, List.forall_mem_cons] at hlt
  have hd : d < 36 := lt_of_lt_of_le hlt.1 hr'
  refine ⟨toByte (digitCode d), digitBytes ds, rfl, ?_, ?_, ?_, ?_, ?_⟩
  · rw [digitByte_val hd]
    unfold isSpace
    rcases digitCode_cases hd with h | h <;> omega
  · rw [digitByte_val hd]
    show digitCode d ≠ 45
    rcases digitCode_cases hd with h | h <;> omega
  · rw [digitByte_val hd]
    show digitCode d ≠ 43
    rcases digitCode_cases hd with h | h <;> omega
  · rw [digitOf_digitCode hd hlt.1]
    rfl
  · rintro ⟨h₀, hx⟩
    rw [digitByte_val hd] at h₀
    have hd₀ : d = 0 := by
      have h₀' : digitCode d = 48 := h₀
      rcases digitCode_cases hd with h | h <;> omega
    have hn : n = 0 := by
      by_contra hn
      obtain ⟨e, es, he, hne⟩ := Lib.head_written r hn
      rw [hw] at he
      exact hne ((List.cons.inj he).1 ▸ hd₀)
    rw [hn, Lib.written_of_lt (by omega)] at hw
    obtain rfl : ds = [] := (List.cons.inj hw).2.symm
    revert hx
    decide

theorem strtol_canonicalText (x : Int) : strtol (asciiBytes (canonicalText r x)) r =
    ⟨strtolOf x, [], decide (x < longMin ∨ longMax < x)⟩ := by
  have hlt : ∀ d ∈ Lib.written r x.natAbs, d < r := fun d hd => Lib.lt_of_mem_written hr hd
  have htake := takeDigits_digitBytes hr' hlt 0
  rw [show List.foldl (fun v d => v * r + d) 0 (Lib.written r x.natAbs) = x.natAbs from
    Lib.read_written hr x.natAbs] at htake
  obtain ⟨b, bs, hb, hspace, hminus, hplus, hdigit, hhex⟩ := digitBytes_written hr hr' x.natAbs
  have hhex' : ∀ p q : Prop, ¬ (p ∧ byteAt (b :: bs) 0 = '0'.toNat ∧
      (byteAt (b :: bs) 1 = 'x'.toNat ∨ byteAt (b :: bs) 1 = 'X'.toNat) ∧ q) :=
    fun _ _ h => hhex ⟨h.2.1, h.2.2.1⟩
  rw [hb] at htake
  rw [asciiBytes_canonicalText hr hr', show (List.map _ (Lib.written r x.natAbs)) = b :: bs from hb]
  have hm : (toByte '-'.toNat).val = '-'.toNat := rfl
  have hms : ¬ isSpace (toByte '-'.toNat).val := by decide
  have hnone : ((b :: bs).head?.bind (digitOf r)).isNone = false := by
    show (digitOf r b).isNone = false
    rwa [Option.isNone_eq_false_iff]
  unfold strtol
  by_cases hx : x < 0
  · have hz : -(x.natAbs : Int) = x := by omega
    rw [if_pos hx, List.singleton_append, List.dropWhile_cons_of_neg (by simpa using hms)]
    simp only [List.head?_cons, Option.any_some, hm, decide_true, true_or, if_true, List.tail_cons,
      hhex', if_false, htake, hz]
    rw [if_neg (by rw [← List.head?_cons, hnone]; exact Bool.false_ne_true)]
  · have hz : (x.natAbs : Int) = x := by omega
    rw [if_neg hx, List.nil_append, List.dropWhile_cons_of_neg (by simpa using hspace)]
    simp only [List.head?_cons, Option.any_some, hminus, hplus, or_self, decide_false,
      Bool.false_eq_true, if_false, hhex', htake, hz]
    rw [if_neg (by rw [← List.head?_cons, hnone]; exact Bool.false_ne_true)]

/-- A literal in range is read as it is, any other by `YogBignum_from_str`. -/
theorem toI_canonicalText (x : Int) : toI (canonicalText r x) (some r) =
    if x < longMin ∨ longMax < x then Bignum.fromStr (canonicalText r x) r
    else .ok (Integer.fromInt x) := by
  have hrange : ¬ ((r : Int) < 2 ∨ 36 < (r : Int)) := by omega
  show (if (r : Int) < 2 ∨ 36 < (r : Int) then _ else toIOfRadix (canonicalText r x) r) = _
  rw [if_neg hrange]
  unfold toIOfRadix
  rw [normalizeAsNumber_canonicalText hr hr']
  show (do
    let l := strtol (ascii.convFromYog (canonicalText r x)) (r : Int).toNat
    if byteAt l.rest 0 ≠ 0 then
      throw (TextError.valueError "Invalid literal: %S" (.string (canonicalText r x)))
    if l.erange then Bignum.fromStr (canonicalText r x) r
    else return Integer.fromInt l.value) = _
  rw [ascii_convFromYog (canonicalText_ascii hr hr' x), Int.toNat_natCast,
    strtol_canonicalText hr hr']
  by_cases h : x < longMin ∨ longMax < x
  · simp only [h, decide_true, if_true]
    rfl
  · simp only [h, decide_false, if_false]
    unfold strtolOf
    rw [if_neg (fun h' => h (.inl h')), if_neg (fun h' => h (.inr h'))]
    rfl

end Radix

theorem read_mod (m r : Nat) : ∀ (ds : List Nat) (v : Nat),
    ds.foldl (fun v d => (v * r + d) % m) (v % m) = ds.foldl (fun v d => v * r + d) v % m
  | [], _ => rfl
  | d :: ds, v => by
    rw [List.foldl_cons, List.foldl_cons, Nat.add_mod (v % m * r), Nat.mul_mod, Nat.mod_mod,
      ← Nat.mul_mod, ← Nat.add_mod]
    exact read_mod m r ds _

/-- The loop over the digits, whatever there are bytes for. -/
theorem foldl_digitBytes {ds : List Nat} (hds : ∀ d ∈ ds, d < 10) (m : Nat) :
    (digitBytes ds).foldl (fun v b =>
      if isDigit b.val then (v * 10 + (b.val - 48)) % m else v) 0 = Lib.read 10 ds % m := by
  have h36 : ∀ d ∈ ds, d < 36 := fun d hd => lt_trans (hds d hd) (by decide)
  unfold Lib.read
  rw [← read_mod, Nat.zero_mod]
  unfold digitBytes
  rw [List.foldl_map]
  apply List.foldl_ext
  intro v d hd
  have hb := digitByte_val (h36 d hd)
  rcases digitCode_cases (h36 d hd) with ⟨h₁, h₂, -, he⟩ | ⟨-, -, h, -⟩
  · have hdig : isDigit (toByte (digitCode d)).val := by
      rw [hb]
      exact ⟨h₁, h₂⟩
    rw [if_pos hdig, hb, he, Nat.add_sub_cancel_left]
  · exact absurd (hds d hd) (by omega)

/-- No digit is the end of the text. -/
theorem takeWhile_digitBytes {ds : List Nat} (hds : ∀ d ∈ ds, d < 36) :
    (digitBytes ds).takeWhile (fun b => b.val ≠ 0) = digitBytes ds := by
  rw [List.takeWhile_eq_self_iff]
  unfold digitBytes
  rw [List.forall_mem_map]
  intro d hd
  rw [decide_eq_true_eq]
  intro h
  rw [digitByte_val (hds d hd)] at h
  rcases digitCode_cases (hds d hd) with h' | h' <;> omega

/-- Digits are read modulo what there are bytes for. -/
theorem bdConvFromDecimal_digitBytes {ds : List Nat} (hds : ∀ d ∈ ds, d < 10) :
    bdConvFromDecimal (digitBytes ds) = Lib.read 10 ds % 256 ^ decimalBytes ds.length := by
  unfold bdConvFromDecimal
  simp only [takeWhile_digitBytes fun d hd => lt_trans (hds d hd) (by decide)]
  rw [show (digitBytes ds).length = ds.length from List.length_map _]
  exact foldl_digitBytes hds _

/-- The text is the canonical one of `x`, and `to_i` makes `x` of it. -/
def TextRoundTrip (text : Except TextError (List YogChar)) (x : Int) (radix : Nat) : Prop :=
  text = .ok (canonicalText radix x) ∧
    ∃ v, toI (canonicalText radix x) (some radix) = .ok v ∧ v.Represents x

/-- In the range of a word what is left is that the text is canonical. -/
theorem textRoundTrip_in_word {text : Except TextError (List YogChar)} {x : Int} {radix : Nat}
    (hr : 2 ≤ radix) (hr' : radix ≤ 36) (h₁ : longMin ≤ x) (h₂ : x ≤ longMax) :
    TextRoundTrip text x radix ↔ text = .ok (canonicalText radix x) := by
  apply and_iff_left
  rw [toI_canonicalText hr hr', if_neg (by omega)]
  refine ⟨_, rfl, ?_⟩
  rw [Integer.represents_iff]
  exact Integer.fromInt_eq_ofInt h₁ h₂

theorem Fixnum.textRoundTrip_internal (n : Fixnum) {radix : Nat} (hr : 2 ≤ radix)
    (hr' : radix ≤ 36) : TextRoundTrip (toSInternal n.toInt radix) n.toInt radix ↔
      n.toInt.natAbs < radix ^ (if n.toInt < 0 then 29 else 30) := by
  have hpos : 1 ≤ (if n.toInt < 0 then 29 else 30) := by split_ifs <;> decide
  rw [textRoundTrip_in_word hr hr' n.in_word.1 n.in_word.2, toSInternal_eq hr hr',
    ← Lib.length_written_le_iff hr hpos]
  constructor
  · intro h
    by_contra hn
    rw [if_neg hn] at h
    cases h
  · exact fun h => if_pos h

theorem Fixnum.textRoundTrip_iff (n : Fixnum) {radix : Nat} (hr : 2 ≤ radix) (hr' : radix ≤ 36) :
    TextRoundTrip (n.toS (some radix)) n.toInt radix ↔
      n.toInt.natAbs < radix ^ (if n.toInt < 0 then 29 else 30) := by
  have hs : n.toS (some radix) = toSInternal n.toInt radix := by
    show (if (radix : Int) < 2 ∨ 36 < (radix : Int) then _ else
      toSInternal n.toInt (radix : Int).toNat) = _
    rw [if_neg (by omega), Int.toNat_natCast]
  rw [hs, Fixnum.textRoundTrip_internal n hr hr']

theorem Fixnum.textRoundTrip_ten (n : Fixnum) : TextRoundTrip (n.toS none) n.toInt 10 := by
  have h₁ := n.le_toInt
  have h₂ := n.toInt_le
  refine (n.textRoundTrip_internal (by decide) (by decide)).2 ?_
  split_ifs <;> omega

theorem Bignum.utf8_convToDecimal (b : Bignum) : b.toS =
    (if b.sign = .neg then [yogChar '-'] else []) ++ (Lib.written 10 b.num).map digitChar := by
  have hten : ∀ d ∈ Lib.written 10 b.num, (digitChar d).val < 0x80 := by
    intro d hd
    have h := lt_of_mem_written (by decide) (by decide) hd
    rw [digitChar_val h]
    exact digitCode_lt h
  have hall : ∀ c ∈ (if b.sign = .neg then [yogChar '-'] else []) ++
      (Lib.written 10 b.num).map digitChar, c.val < 0x80 := by
    rw [List.forall_mem_append, List.forall_mem_map]
    refine ⟨?_, hten⟩
    split_ifs
    · rw [List.forall_mem_singleton]
      decide
    · exact nofun
  rw [← utf8_convToYog_asciiBytes hall]
  unfold Bignum.toS Bignum.convToDecimal bdConvToDecimal
  rw [← asciiBytes_digits (by decide) (by decide)]
  congr 1
  split_ifs <;> rfl

/-- Only a zero with a sign is not written as its value is. -/
theorem Bignum.toS_eq_iff (b : Bignum) :
    b.toS = canonicalText 10 b.toInt ↔ (b.num = 0 → b.sign = .pos) := by
  rw [Bignum.utf8_convToDecimal]
  unfold canonicalText
  rw [Bignum.natAbs_toInt, List.append_left_inj]
  obtain ⟨m, _ | _⟩ := b
  · rw [Bignum.toInt_pos, if_neg (show ¬ Sign.pos = Sign.neg from nofun), if_neg (by omega)]
    exact iff_of_true rfl fun _ => rfl
  · rw [Bignum.toInt_neg, if_pos rfl]
    rcases Nat.eq_zero_or_pos m with rfl | hm
    · rw [if_neg (by decide)]
      exact iff_of_false (List.cons_ne_nil _ _) fun h => Sign.noConfusion (h rfl)
    · rw [if_pos (by omega)]
      exact iff_of_true rfl fun h => absurd h hm.ne'

/-- Above a word `to_i` knows the base 10 only, and there as many bytes as it counts on. -/
theorem toI_ten_above {x : Int} (h : longMax < x) : toI (canonicalText 10 x) (some 10) =
    .ok (.bignum ⟨x.natAbs % 256 ^ decimalBytes (Lib.written 10 x.natAbs).length, .pos⟩) := by
  have hx : ¬ x < 0 := by
    unfold longMax at h
    omega
  have hlt : ∀ d ∈ Lib.written 10 x.natAbs, d < 10 := fun d hd =>
    Lib.lt_of_mem_written (by decide) hd
  have ht := toI_canonicalText (r := 10) (by decide) (by decide) x
  rw [if_pos (.inr h)] at ht
  refine ht.trans ?_
  unfold Bignum.fromStr
  rw [if_neg (by decide), ascii_convFromYog (canonicalText_ascii (by decide) (by decide) x),
    asciiBytes_canonicalText (by decide) (by decide), if_neg hx, List.nil_append]
  rw [show List.map _ (Lib.written 10 x.natAbs) = digitBytes (Lib.written 10 x.natAbs) from rfl,
    bdConvFromDecimal_digitBytes hlt, Lib.read_written (by decide)]
  rfl

/-- Below a word the sign is lost. -/
theorem not_toI_ten_below {x : Int} (h : x < longMin) :
    ¬ ∃ v, toI (canonicalText 10 x) (some 10) = .ok v ∧ v.Represents x := by
  have ht := toI_canonicalText (r := 10) (by decide) (by decide) x
  rw [if_pos (.inl h)] at ht
  rintro ⟨v, hv, hx, -⟩
  have hf : Bignum.fromStr (canonicalText 10 x) (10 : Nat) = .ok v := ht.symm.trans hv
  unfold Bignum.fromStr at hf
  rw [if_neg (by decide)] at hf
  rw [← Except.ok.inj hf] at hx
  have hpos := Bignum.toInt_pos (bdConvFromDecimal (ascii.convFromYog (canonicalText 10 x)))
  unfold longMin at h
  rw [show Integer.toInt (.bignum _) = Bignum.toInt _ from rfl, hpos] at hx
  omega

theorem Bignum.exists_toI_iff {b : Bignum} (h : longMax < b.toInt) :
    (∃ v, toI (canonicalText 10 b.toInt) (some 10) = .ok v ∧ v.Represents b.toInt) ↔
      b.num < 256 ^ decimalBytes (Lib.written 10 b.num).length := by
  have hread := toI_ten_above h
  rw [Bignum.natAbs_toInt] at hread
  have hb : b.toInt = b.num := by
    have habs := Bignum.natAbs_toInt b
    unfold longMax at h
    omega
  have hfix : ¬ Fixable b.toInt := by
    unfold Fixable yintMax
    unfold longMax at h
    omega
  constructor
  · rintro ⟨v, hv, hval, -⟩
    rw [← Except.ok.inj (hread.symm.trans hv), hb] at hval
    rw [show Integer.toInt (.bignum _) = Bignum.toInt _ from rfl, Bignum.toInt_pos] at hval
    have hpos : 0 < 256 ^ decimalBytes (Lib.written 10 b.num).length := Nat.pow_pos (by decide)
    exact (Int.ofNat.inj hval).symm.trans_lt (Nat.mod_lt _ hpos)
  · intro hlt
    rw [Nat.mod_eq_of_lt hlt] at hread
    refine ⟨_, hread, ?_, ?_⟩
    · exact (Bignum.toInt_pos _).trans hb.symm
    · show ¬ Fixable (Bignum.toInt _)
      rwa [Bignum.toInt_pos, ← hb]

theorem Bignum.textRoundTrip_iff (b : Bignum) : TextRoundTrip (.ok b.toS) b.toInt 10 ↔
    (b.num = 0 → b.sign = .pos) ∧ longMin ≤ b.toInt ∧
      (longMax < b.toInt → b.num < 256 ^ decimalBytes (Lib.written 10 b.num).length) := by
  have hs : (Except.ok b.toS : Except TextError _) = .ok (canonicalText 10 b.toInt) ↔
      (b.num = 0 → b.sign = .pos) := by
    rw [Except.ok.injEq, Bignum.toS_eq_iff]
  rcases lt_or_ge b.toInt longMin with hlow | hlow
  · exact iff_of_false (fun h => not_toI_ten_below hlow h.2) fun h => absurd h.2.1 (by omega)
  rcases lt_or_ge longMax b.toInt with hhigh | hhigh
  · refine and_congr hs ((Bignum.exists_toI_iff hhigh).trans ?_)
    exact ⟨fun h => ⟨hlow, fun _ => h⟩, fun h => h.2 hhigh⟩
  · rw [textRoundTrip_in_word (by decide) (by decide) hlow hhigh, hs]
    exact ⟨fun h => ⟨h, hlow, fun h' => absurd h' (by omega)⟩, fun h => h.1⟩

/-- Which integers come back from their text. -/
theorem textRoundTrip_iff_each (n : Fixnum) (radix : Nat) (b : Bignum) :
    TextRoundTrip (n.toS none) n.toInt 10 ∧
    (2 ≤ radix → radix ≤ 36 →
      (TextRoundTrip (n.toS (some radix)) n.toInt radix ↔
        n.toInt.natAbs < radix ^ (if n.toInt < 0 then 29 else 30))) ∧
    (TextRoundTrip (.ok b.toS) b.toInt 10 ↔
      (b.num = 0 → b.sign = .pos) ∧ longMin ≤ b.toInt ∧
        (longMax < b.toInt → b.num < 256 ^ decimalBytes (Lib.written 10 b.num).length)) :=
  ⟨n.textRoundTrip_ten, n.textRoundTrip_iff, b.textRoundTrip_iff⟩

/-- 255 is written `ff` to the base 16. -/
theorem textRoundTrip_ff : TextRoundTrip (Fixnum.toS ⟨255, by decide⟩ (some 16)) 255 16 :=
  ((textRoundTrip_iff_each ⟨255, by decide⟩ 16 ⟨0, .pos⟩).2.1 (by decide) (by decide)).2 (by decide)

/-- The binary digits of the least integer that does not fit run over the buffer. -/
theorem not_textRoundTrip_binary :
    ¬ ∀ (n : Fixnum) (radix : Nat), 2 ≤ radix → radix ≤ 36 →
      TextRoundTrip (n.toS (some radix)) n.toInt radix := by
  intro h
  have ht := (h ⟨2 ^ 30, by decide⟩ 2 (by decide) (by decide)).1
  have hs : Fixnum.toS ⟨2 ^ 30, by decide⟩ (some 2) = .error .overrun := by
    show toSInternal (2 ^ 30) 2 = _
    rw [toSInternal_eq (by decide) (by decide), if_neg]
    rw [Lib.length_written_le_iff (by decide) (by decide)]
    decide
  have hne := hs.symm.trans ht
  cases hne

end Yog
