import Yog.Proofs.IntegerGrammar

/-!
# What `to_i` takes for an integer

A literal is read to the base of its prefix, and to the base ten behind a zero, whatever the radix
is. What `strtol` takes beyond the literals is an integer too.
-/

namespace Yog

def InLong (z : Int) : Prop := longMin ≤ z ∧ z ≤ longMax

/-- The integer of a sign and a number. -/
def signedInt (negative : Bool) (n : ℕ) : Int := if negative then -n else n

theorem signedInt_inj {negative : Bool} {m n : ℕ} :
    signedInt negative m = signedInt negative n ↔ m = n := by
  unfold signedInt
  split_ifs <;> omega

theorem convert_inLong (s : List YogChar) {t : List YogChar} {base : ℕ} {z : Int}
    (h : Whole base (ascii.convFromYog t) z) (hz : InLong z) :
    convert s t base = .ok (.ofInt z) := by
  obtain ⟨rest, hrest, hs⟩ := strtol_whole h
  obtain ⟨h₁, h₂⟩ := hz
  unfold convert
  simp only [hs, hrest]
  simp [strtolOf, not_lt.2 h₁, not_lt.2 h₂, Integer.fromInt_eq_ofInt h₁ h₂]

theorem convert_whole (s : List YogChar) {t : List YogChar} {base : ℕ} {z : Int}
    (h : Whole base (ascii.convFromYog t) z) :
    (InLong z ∧ ∃ v, convert s t base = .ok v ∧ v.toInt = z) ∨
      ¬ InLong z ∧ convert s t base = Bignum.fromStr t base := by
  by_cases hz : InLong z
  · exact .inl ⟨hz, _, convert_inLong s h hz, Integer.toInt_ofInt z⟩
  · obtain ⟨rest, hrest, hs⟩ := strtol_whole h
    have hrange : z < longMin ∨ longMax < z := by
      by_contra hn
      rw [not_or, not_lt, not_lt] at hn
      exact hz hn
    refine .inr ⟨hz, ?_⟩
    unfold convert
    simp only [hs, hrest]
    simp [hrange]

theorem convert_not_whole (s : List YogChar) {t : List YogChar} {base : ℕ}
    (h : ∀ z, ¬ Whole base (ascii.convFromYog t) z) :
    ∃ fmt arg, convert s t base = .error (.valueError fmt arg) := by
  have hrest : byteAt (strtol (ascii.convFromYog t) base).rest 0 ≠ 0 := by
    intro hrest
    obtain ⟨z, hz⟩ := whole_of_strtol hrest
    exact h z hz
  exact ⟨_, _, if_pos hrest⟩

/-- What a text is converted to is in the one form of its number, or a Bignum without a sign. -/
theorem convert_form {s t : List YogChar} {base : ℕ} {v : Integer} (h : convert s t base = .ok v) :
    v = .ofInt v.toInt ∨ ∃ m, v = .bignum ⟨m, .pos⟩ := by
  by_cases hw : ∃ z, Whole base (ascii.convFromYog t) z
  · obtain ⟨z, hz⟩ := hw
    by_cases hin : InLong z
    · obtain rfl := Except.ok.inj ((convert_inLong s hz hin).symm.trans h)
      exact .inl (by rw [Integer.toInt_ofInt])
    · rcases convert_whole s hz with ⟨hin', -⟩ | ⟨-, hfrom⟩
      · exact absurd hin' hin
      · rw [h, Bignum.fromStr] at hfrom
        split_ifs at hfrom
        exact .inr ⟨_, Except.ok.inj hfrom⟩
  · obtain ⟨fmt, arg, herr⟩ := convert_not_whole s fun z hz => hw ⟨z, hz⟩
    rw [h] at herr
    cases herr

/-- The byte of a character. -/
def asciiByte (c : YogChar) : Byte :=
  if isascii c.val then toByte c.val else toByte '?'.toNat

theorem convFromYog_eq_map (t : List YogChar) : ascii.convFromYog t = t.map asciiByte := by
  rw [Encoding.convFromYog, List.map_eq_flatMap]
  congr 1
  funext c
  show (if isascii c.val then [toByte c.val] else [toByte '?'.toNat]) = [asciiByte c]
  rw [asciiByte]
  split_ifs <;> rfl

theorem digitOf_asciiByte (base : ℕ) (c : YogChar) :
    digitOf base (asciiByte c) = charDigit base c := by
  unfold digitOf charDigit asciiByte
  congr 1
  by_cases hc : isascii c.val
  · have hval : (toByte c.val).val = c.val := Nat.mod_eq_of_lt (lt_trans hc (by decide))
    rw [if_pos hc, hval]
  · rw [if_neg hc]
    unfold isascii at hc
    have hdigit : ¬ isDigit c.val := by
      unfold isDigit
      omega
    have hnone : digitValue c.val = none := by
      rw [digitValue, if_neg hdigit, if_neg (by omega), if_neg (by omega)]
    rw [hnone]
    rfl

theorem Spelled.bytes {base : ℕ} {t : List YogChar} {ds : List ℕ} (h : Spelled base t ds) :
    (ascii.convFromYog t).map (digitOf base) = ds.map some := by
  rw [convFromYog_eq_map, List.map_map, ← h]
  exact List.map_congr_left fun c _ => digitOf_asciiByte base c

theorem spelled_of_bytes {base : ℕ} {t : List YogChar} {ds : List ℕ}
    (h : (ascii.convFromYog t).map (digitOf base) = ds.map some) : Spelled base t ds := by
  rw [Spelled, ← h, convFromYog_eq_map, List.map_map]
  exact List.map_congr_left fun c _ => (digitOf_asciiByte base c).symm

theorem Spelled.length {base : ℕ} {t : List YogChar} {ds : List ℕ} (h : Spelled base t ds) :
    t.length = ds.length := by
  simpa using congrArg List.length h

theorem convFromYog_keptSign (s : List YogChar) :
    Signed (ascii.convFromYog (keptSign s)) (isNegative s) := by
  unfold keptSign
  cases isNegative s
  · exact .none
  · exact .minus

/-- Digits behind a sign are taken whole. -/
theorem Spelled.whole {base : ℕ} {t : List YogChar} {ds : List ℕ} (h : Spelled base t ds)
    (ht : t ≠ []) (s : List YogChar) : Whole base (ascii.convFromYog (keptSign s ++ t))
      (signedInt (isNegative s) (Lib.read base ds)) := by
  have hne : ascii.convFromYog t ≠ [] := by
    rw [convFromYog_eq_map]
    simpa using ht
  have hwhole : Whole base ([] ++ ascii.convFromYog (keptSign s) ++ [] ++ ascii.convFromYog t ++ [])
      (signedInt (isNegative s) (Lib.read base ds)) :=
    .digits nofun (convFromYog_keptSign s) .none h.bytes hne rfl
  rw [List.nil_append, List.append_nil, List.append_nil] at hwhole
  rw [convFromYog_eq_map, List.map_append, ← convFromYog_eq_map, ← convFromYog_eq_map]
  exact hwhole

theorem read_bounds {base : ℕ} {ds : List ℕ} (h : ∀ d ∈ ds, d < base) (v : ℕ) :
    v * base ^ ds.length ≤ ds.foldl (fun v d => v * base + d) v ∧
      ds.foldl (fun v d => v * base + d) v < (v + 1) * base ^ ds.length := by
  induction ds generalizing v with
  | nil => simp
  | cons d ds ih =>
    rw [List.forall_mem_cons] at h
    obtain ⟨h₁, h₂⟩ := ih h.2 (v * base + d)
    rw [List.foldl_cons, List.length_cons, pow_succ']
    have hd := h.1
    constructor
    · calc v * (base * base ^ ds.length) = (v * base) * base ^ ds.length := by ring
        _ ≤ (v * base + d) * base ^ ds.length := Nat.mul_le_mul_right _ (Nat.le_add_right _ _)
        _ ≤ _ := h₁
    · calc _ < (v * base + d + 1) * base ^ ds.length := h₂
        _ ≤ ((v + 1) * base) * base ^ ds.length :=
          Nat.mul_le_mul_right _ (by rw [Nat.succ_mul]; omega)
        _ = (v + 1) * (base * base ^ ds.length) := by ring

theorem lt_of_digits {base : ℕ} {bs : List Byte} {ds : List ℕ}
    (h : bs.map (digitOf base) = ds.map some) : ∀ d ∈ ds, d < base := by
  intro d hd
  have hmem : some d ∈ bs.map (digitOf base) := by
    rw [h]
    exact List.mem_map_of_mem hd
  obtain ⟨b, -, hb⟩ := List.mem_map.1 hmem
  simpa using (Option.filter_eq_some_iff.1 hb).2

theorem Spelled.lt {base : ℕ} {t : List YogChar} {ds : List ℕ} (h : Spelled base t ds) :
    ∀ d ∈ ds, d < base :=
  lt_of_digits h.bytes

theorem unscored_length {s t : List YogChar} (h : unscored s = some t) :
    t.length = s.countP (· ≠ yogChar '_') := by
  induction s generalizing t with
  | nil =>
    obtain rfl := Option.some.inj h
    rfl
  | cons c s ih =>
    rw [unscored] at h
    split_ifs at h with halpha hscore hnext
    · obtain ⟨t', ht, rfl⟩ := Option.map_eq_some_iff.1 h
      have hc : c ≠ yogChar '_' := by
        rintro rfl
        exact absurd halpha (by decide)
      rw [List.countP_cons_of_pos (by simpa using hc), List.length_cons, ih ht]
    · rw [List.countP_cons_of_neg (by simpa using hscore), ih h]
    · obtain ⟨t', ht, rfl⟩ := Option.map_eq_some_iff.1 h
      rw [List.countP_cons_of_pos (by simpa using hscore), List.length_cons, ih ht]

/-- What `to_i` makes of a numeral to the base it takes. -/
theorem Numeral.bare {radix m : ℕ} {s : List YogChar}
    (h : Numeral (taken radix s).1 0 (taken radix s).2 m) : ∃ t ds, bare s = some t ∧
      Spelled (taken radix s).1 t ds ∧ t ≠ [] ∧ m = Lib.read (taken radix s).1 ds ∧
      t.length = (taken radix s).2.countP (· ≠ yogChar '_') := by
  rcases hp : prefixOf s with _ | ⟨b, body⟩
  · have hs : (taken radix s).2 = s := by rw [taken, hp]; rfl
    rw [hs] at h ⊢
    rcases s with _ | ⟨c, rest⟩
    · cases h
    obtain ⟨d, t, ds, hc, ht, hds, rfl⟩ := numeral_cons_iff.1 h
    refine ⟨c :: t, d :: ds, ?_, ?_, List.cons_ne_nil c t, rfl, ?_⟩
    · simp [Yog.bare, hp, ht]
    · simpa [Spelled, hc] using hds
    · rw [List.countP_cons_of_pos (by simpa using ne_underscore hc), List.length_cons,
        unscored_length ht]
  · have htaken : taken radix s = (b, body) := by rw [taken, hp]; rfl
    simp only [htaken] at h ⊢
    rcases body with _ | ⟨c, rest⟩
    · cases h
    obtain ⟨d, t, ds, hc, ht, hds, rfl⟩ := numeral_cons_iff.1 h
    have hbody : unscored (c :: rest) = some (toLower c :: t) := by
      rw [unscored_cons hc, ht]
      rfl
    refine ⟨toLower c :: t, d :: ds, ?_, ?_, List.cons_ne_nil _ t, rfl, unscored_length hbody⟩
    · simp [Yog.bare, hp, hbody]
    · simpa [Spelled, charDigit_toLower, hc] using hds

/-- A text is one numeral at most. -/
theorem Numeral.unique {base v m n : ℕ} {s : List YogChar} (hm : Numeral base v s m)
    (hn : Numeral base v s n) : m = n := by
  rcases s with _ | ⟨c, s⟩
  · cases hm
  obtain ⟨d, t, ds, hc, ht, hds, rfl⟩ := numeral_cons_iff.1 hm
  obtain ⟨d', t', ds', hc', ht', hds', rfl⟩ := numeral_cons_iff.1 hn
  obtain rfl := Option.some.inj (hc.symm.trans hc')
  obtain rfl := Option.some.inj (ht.symm.trans ht')
  obtain rfl : ds = ds' := List.map_injective_iff.2 (Option.some_injective ℕ) (hds.symm.trans hds')
  rfl

theorem asciiByte_ten {c : YogChar} {d : ℕ} (h : charDigit 10 c = some d) :
    asciiByte c = toByte (digitCode d) := by
  obtain ⟨h, hlt⟩ := Option.filter_eq_some_iff.1 h
  have hlt := of_decide_eq_true hlt
  unfold digitValue at h
  split_ifs at h with h₁ h₂ h₃
  · have hd := Option.some.inj h
    unfold isDigit at h₁
    have hcode : digitCode d = c.val := by
      rw [digitCode, if_pos hlt]
      omega
    have hascii : isascii c.val := lt_of_le_of_lt h₁.2 (by decide)
    rw [asciiByte, if_pos hascii, hcode]
  · have hd := Option.some.inj h
    omega
  · have hd := Option.some.inj h
    omega

/-- The number of decimal digits is kept modulo the bytes taken for them. -/
theorem bdConvFromDecimal_spelled {t : List YogChar} {ds : List ℕ} (h : Spelled 10 t ds) :
    bdConvFromDecimal (ascii.convFromYog t) = Lib.read 10 ds % 256 ^ decimalBytes t.length := by
  have hbytes : ascii.convFromYog t = digitBytes ds := by
    rw [convFromYog_eq_map]
    induction t generalizing ds with
    | nil =>
      obtain rfl : ds = [] := by simpa [Spelled] using h
      rfl
    | cons c t ih =>
      obtain ⟨d, ds, rfl, hc, hds⟩ := spelled_cons h
      rw [List.map_cons, ih hds]
      exact congrArg (· :: digitBytes ds) (asciiByte_ten hc)
  rw [hbytes, bdConvFromDecimal_digitBytes h.lt, h.length]

theorem Spelled.nonzero {base : ℕ} {t : List YogChar} {ds : List ℕ} (h : Spelled base t ds) :
    ∀ b ∈ ascii.convFromYog t, ∃ d, digitOf base b = some d := by
  intro b hb
  have hmem : digitOf base b ∈ ds.map some := by
    rw [← h.bytes]
    exact List.mem_map_of_mem hb
  obtain ⟨d, -, hd⟩ := List.mem_map.1 hmem
  exact ⟨d, hd.symm⟩

/-- Where digits to some base are taken whole to another one, they are its digits, perhaps behind
one more prefix. -/
theorem digits_of_whole {radix base : ℕ} {sign s : List Byte} {negative : Bool} {z : Int}
    (hsign : Signed sign negative) (hs : ∀ b ∈ s, ∃ d, digitOf radix b = some d) (hne : s ≠ [])
    (h : Whole base (sign ++ s) z) : ∃ hex bs ds, s = hex ++ bs ∧ Hex base hex ∧
      bs.map (digitOf base) = ds.map some ∧ z = signedInt negative (Lib.read base ds) := by
  have hplain : ∀ b ∈ sign ++ s, ¬ isSpace b.val ∧ b.val ≠ 0 := by
    intro b hb
    rcases List.mem_append.1 hb with hb | hb
    · rcases hsign with _ | _ | _
      · cases hb
      · rw [List.mem_singleton.1 hb]
        decide
      · rw [List.mem_singleton.1 hb]
        decide
    · obtain ⟨d, hd⟩ := hs b hb
      exact ⟨(digitOf_byte hd).1, (digitOf_byte hd).2.1⟩
  generalize htext : sign ++ s = text at h hplain
  rcases h with h | @⟨spaces, sign', hex, bs, tail, negative', ds, hspaces, hsign', hhex, hbs, hbs',
    htail⟩
  · obtain ⟨b, t, rfl⟩ := List.exists_cons_of_ne_nil
      (l := text) (by rw [← htext]; exact List.append_ne_nil_of_right_ne_nil sign hne)
    exact absurd h (hplain b List.mem_cons_self).2
  have hspaces' : spaces = [] := by
    rw [List.eq_nil_iff_forall_not_mem]
    intro b hb
    exact (hplain b (by simp [hb])).1 (hspaces b hb)
  have htail' : tail = [] := by
    rcases tail with _ | ⟨b, tail⟩
    · rfl
    · exact absurd htail (hplain b (by simp)).2
  subst hspaces' htail'
  rw [List.nil_append, List.append_nil, List.append_assoc] at htext
  obtain ⟨b, t, ht, -, hminus, hplus⟩ := head_digits [] hhex hbs hbs'
  rw [List.append_nil] at ht
  have hnosign : ∀ b ∈ s, b.val ≠ '-'.toNat ∧ b.val ≠ '+'.toNat := by
    intro b hb
    obtain ⟨d, hd⟩ := hs b hb
    exact ⟨(digitOf_byte hd).2.2.1, (digitOf_byte hd).2.2.2.1⟩
  have hsame : s = hex ++ bs ∧ negative = negative' := by
    rcases hsign with _ | _ | _
    · rcases hsign' with _ | _ | _
      · exact ⟨htext, rfl⟩
      · exact absurd rfl (hnosign (toByte '+'.toNat) (by rw [← List.nil_append s, htext]; simp)).2
      · exact absurd rfl (hnosign (toByte '-'.toNat) (by rw [← List.nil_append s, htext]; simp)).1
    · rcases hsign' with _ | _ | _
      · rw [List.nil_append, ht] at htext
        exact absurd (congrArg Fin.val (List.cons.inj htext).1).symm hplus
      · exact ⟨(List.cons.inj htext).2, rfl⟩
      · exact absurd (List.cons.inj htext).1 (by decide)
    · rcases hsign' with _ | _ | _
      · rw [List.nil_append, ht] at htext
        exact absurd (congrArg Fin.val (List.cons.inj htext).1).symm hminus
      · exact absurd (List.cons.inj htext).1 (by decide)
      · exact ⟨(List.cons.inj htext).2, rfl⟩
  obtain ⟨rfl, rfl⟩ := hsame
  exact ⟨hex, bs, ds, rfl, hhex, hbs, rfl⟩

theorem prefixOf_eq_some_iff {s body : List YogChar} {b : ℕ} : prefixOf s = some (b, body) ↔
    ∃ p, s = yogChar '0' :: p :: body ∧ prefixBase p = some b := by
  constructor
  · intro h
    rcases s with _ | ⟨c, _ | ⟨p, s⟩⟩
    · cases h
    · cases h
    · rw [prefixOf] at h
      split_ifs at h with hc
      obtain ⟨b', hp, hb⟩ := Option.map_eq_some_iff.1 h
      obtain ⟨rfl, rfl⟩ := Prod.mk.inj hb
      exact ⟨p, by rw [hc], hp⟩
  · rintro ⟨p, rfl, hp⟩
    simp [prefixOf, hp]

theorem prefixed_iff {s : List YogChar} {n : ℕ} :
    Prefixed s n ↔ ∃ b body, prefixOf s = some (b, body) ∧ Numeral b 0 body n := by
  constructor
  · rintro ⟨p, b, body, hs, hp, hbody⟩
    exact ⟨b, body, prefixOf_eq_some_iff.2 ⟨p, hs, hp⟩, hbody⟩
  · rintro ⟨b, body, hpre, hbody⟩
    obtain ⟨p, hs, hp⟩ := prefixOf_eq_some_iff.1 hpre
    exact ⟨p, b, body, hs, hp, hbody⟩

theorem Unsigned.head {radix n : ℕ} {s : List YogChar} (h : Unsigned radix s n) :
    ∃ c rest, s = c :: rest ∧ c ≠ yogChar '+' ∧ c ≠ yogChar '-' := by
  rcases h with ⟨p, b, body, rfl, -, -⟩ | ⟨h, -⟩
  · exact ⟨_, _, rfl, by decide, by decide⟩
  · rcases s with _ | ⟨c, rest⟩
    · cases h
    obtain ⟨d, t, ds, hc, -⟩ := numeral_cons_iff.1 h
    refine ⟨c, rest, rfl, ?_, ?_⟩
    · rintro rfl
      exact absurd (isDigit_or_isAlpha hc) (by decide)
    · rintro rfl
      exact absurd (isDigit_or_isAlpha hc) (by decide)

theorem denotes_iff {radix : ℕ} {s : List YogChar} {v : Int} : Denotes radix s v ↔
    ∃ n, Unsigned radix (magnitude s) n ∧ v = signedInt (isNegative s) n := by
  constructor
  · rintro (h | h | h)
    · rename_i n
      obtain ⟨c, rest, rfl, hplus, hminus⟩ := h.head
      have hm : magnitude (c :: rest) = c :: rest := by simp [magnitude, hplus, hminus]
      have hn : isNegative (c :: rest) = false := by simp [isNegative, hminus]
      exact ⟨n, by rw [hm]; exact h, by rw [hn]; rfl⟩
    · exact ⟨_, h, rfl⟩
    · exact ⟨_, h, rfl⟩
  · rintro ⟨n, h, rfl⟩
    rcases s with _ | ⟨c, rest⟩
    · obtain ⟨c, rest, hs, -⟩ := h.head
      cases hs
    by_cases hplus : c = yogChar '+'
    · subst hplus
      exact .plus h
    by_cases hminus : c = yogChar '-'
    · subst hminus
      exact .minus h
    · have hm : magnitude (c :: rest) = c :: rest := by simp [magnitude, hplus, hminus]
      have hn : isNegative (c :: rest) = false := by simp [isNegative, hminus]
      rw [hm] at h
      rw [hn]
      exact .unsigned h

/-- A text is one number at most. -/
theorem Unsigned.unique {radix m n : ℕ} {s : List YogChar} (hm : Unsigned radix s m)
    (hn : Unsigned radix s n) : m = n := by
  rcases hm with hm | ⟨hm, hm'⟩
  · rcases hn with hn | ⟨-, hn'⟩
    · obtain ⟨b, body, hp, hm⟩ := prefixed_iff.1 hm
      obtain ⟨b', body', hp', hn⟩ := prefixed_iff.1 hn
      obtain ⟨rfl, rfl⟩ := Prod.mk.inj (Option.some.inj (hp.symm.trans hp'))
      exact hm.unique hn
    · exact absurd hm (hn' m)
  · rcases hn with hn | ⟨hn, -⟩
    · exact absurd hn (hm' n)
    · exact hm.unique hn

/-- The number `n` comes of the digits of `m`: what leaves the range of `long` is known to the base
ten only, without a sign, and as far as the bytes go that are taken for the digits. -/
def Retained (base digits : ℕ) (negative : Bool) (m n : ℕ) : Prop :=
  m = n ∧ InLong (signedInt negative n) ∨
    base = 10 ∧ negative = false ∧ longMax < m ∧ m % 256 ^ decimalBytes digits = n

/-- `to_i` gives the integer of that number. -/
def ReadsAs (radix : ℕ) (s : List YogChar) (n : ℕ) : Prop :=
  ∃ v, toIOfRadix s radix = .ok v ∧ v.toInt = signedInt (isNegative s) n

theorem fromStr_ten (t : List YogChar) :
    Bignum.fromStr t (10 : ℕ) = .ok (.bignum ⟨bdConvFromDecimal (ascii.convFromYog t), .pos⟩) := rfl

theorem fromStr_ne {base : ℕ} (h : base ≠ 10) (t : List YogChar) :
    ∃ fmt arg, Bignum.fromStr t base = .error (.valueError fmt arg) := by
  have hbase : (base : Int) ≠ 10 := by exact_mod_cast h
  exact ⟨_, _, if_pos hbase⟩

/-- Digits to the base that `to_i` takes. -/
theorem readsAs_of_numeral {radix m n : ℕ} {s : List YogChar}
    (hm : Numeral (taken radix (magnitude s)).1 0 (taken radix (magnitude s)).2 m)
    (hzero : n = 0 → m = 0) : ReadsAs radix s n ↔ Retained (taken radix (magnitude s)).1
      ((taken radix (magnitude s)).2.countP (· ≠ yogChar '_')) (isNegative s) m n := by
  obtain ⟨t, ds, ht, hds, hne, rfl, hlen⟩ := hm.bare
  set base := (taken radix (magnitude s)).1 with hbase
  rw [← hlen]
  unfold ReadsAs Retained
  rw [toIOfRadix_some ht, ← hbase]
  rcases convert_whole s (hds.whole hne s) with ⟨hin, v, hv, hz⟩ | ⟨hout, hfrom⟩
  · rw [hv]
    constructor
    · rintro ⟨_, ⟨⟩, h⟩
      obtain rfl := signedInt_inj.1 (hz.symm.trans h)
      exact .inl ⟨rfl, hin⟩
    · rintro (⟨rfl, -⟩ | ⟨-, hneg, hmax, -⟩)
      · exact ⟨v, rfl, hz⟩
      · rw [hneg] at hin
        exact absurd hmax (not_lt.2 hin.2)
  · rw [hfrom]
    have hnot : ¬ (Lib.read base ds = n ∧ InLong (signedInt (isNegative s) n)) := by
      rintro ⟨rfl, h⟩
      exact hout h
    rw [or_iff_right hnot]
    by_cases h10 : base = 10
    · have hpos : ∀ k : ℕ, Integer.toInt (.bignum ⟨k, .pos⟩) = k := Bignum.toInt_pos
      rw [h10] at hout hds hzero ⊢
      rw [fromStr_ten]
      rcases hneg : isNegative s with _ | _
      · have hsign : keptSign s = [] := by rw [keptSign, hneg]; rfl
        rw [hneg] at hout
        have hmax : longMax < (Lib.read 10 ds : ℕ) := by
          by_contra hle
          exact hout ⟨le_trans (by decide) (Int.natCast_nonneg _), not_lt.1 hle⟩
        rw [hsign, List.nil_append, bdConvFromDecimal_spelled hds]
        constructor
        · rintro ⟨_, ⟨⟩, h⟩
          exact ⟨rfl, rfl, hmax, Int.ofNat_inj.1 ((hpos _).symm.trans h)⟩
        · rintro ⟨-, -, -, h⟩
          exact ⟨_, rfl, (hpos _).trans (congrArg Nat.cast h)⟩
      · constructor
        · rintro ⟨_, ⟨⟩, h⟩
          have hn : (bdConvFromDecimal (ascii.convFromYog (keptSign s ++ t)) : Int) = -n :=
            (hpos _).symm.trans h
          rw [hneg, hzero (by omega)] at hout
          exact absurd ⟨by decide, by decide⟩ hout
        · rintro ⟨-, h, -⟩
          cases h
    · obtain ⟨fmt, arg, herr⟩ := fromStr_ne h10 (keptSign s ++ t)
      rw [herr]
      constructor
      · rintro ⟨_, ⟨⟩, -⟩
      · rintro ⟨h, -⟩
        exact absurd h h10

theorem prefixBase_digit {p : YogChar} {b : ℕ} (h : prefixBase p = some b) :
    isAlpha p.val ∧ ∃ e, digitValue p.val = some e ∧ b < e := by
  unfold prefixBase at h
  split_ifs at h with h₁ h₂ h₃ h₄
  · obtain rfl := Option.some.inj h
    rcases h₁ with rfl | rfl
    · exact ⟨by decide, 11, by decide, by decide⟩
    · exact ⟨by decide, 11, by decide, by decide⟩
  · obtain rfl := Option.some.inj h
    rcases h₂ with rfl | rfl
    · exact ⟨by decide, 24, by decide, by decide⟩
    · exact ⟨by decide, 24, by decide, by decide⟩
  · obtain rfl := Option.some.inj h
    rcases h₃ with rfl | rfl
    · exact ⟨by decide, 13, by decide, by decide⟩
    · exact ⟨by decide, 13, by decide, by decide⟩
  · obtain rfl := Option.some.inj h
    rcases h₄ with rfl | rfl
    · exact ⟨by decide, 33, by decide, by decide⟩
    · exact ⟨by decide, 33, by decide, by decide⟩

theorem ne_nil_of_unscored {s t : List YogChar} (hs : s ≠ []) (h : unscored s = some t) :
    t ≠ [] := by
  obtain ⟨c, s, rfl⟩ := List.exists_cons_of_ne_nil hs
  rcases unscored_cases h with ⟨c', t', rfl, -⟩ | ⟨-, h, d, s, rfl, hd⟩
  · exact List.cons_ne_nil c' t'
  · rcases unscored_cases h with ⟨c', t', rfl, -⟩ | ⟨rfl, -⟩
    · exact List.cons_ne_nil c' t'
    · exact absurd hd (by decide)

/-- Where digits to some base make an integer, it is at most what they are to the base `to_i`
takes, a prefix apart. -/
theorem Spelled.of_convert {radix base : ℕ} {s t : List YogChar} {ds : List ℕ} {v : Integer}
    (h : Spelled radix t ds) (ht : t ≠ []) (hv : convert s (keptSign s ++ t) base = .ok v) :
    ∃ (hex bs : List Byte) (ds' : List ℕ), ascii.convFromYog t = hex ++ bs ∧ Hex base hex ∧
      bs.map (digitOf base) = ds'.map some ∧ ∀ n, v.toInt = signedInt (isNegative s) n →
        n ≤ Lib.read base ds' := by
  have hbytes : ascii.convFromYog (keptSign s ++ t) =
      ascii.convFromYog (keptSign s) ++ ascii.convFromYog t := by
    simp [convFromYog_eq_map]
  have hne : ascii.convFromYog t ≠ [] := by
    rw [convFromYog_eq_map]
    simpa using ht
  by_cases hwhole : ∃ z, Whole base (ascii.convFromYog (keptSign s ++ t)) z
  · obtain ⟨z, hz⟩ := hwhole
    have hz' := hz
    rw [hbytes] at hz'
    obtain ⟨hex, bs, ds', htext, hhex, hbs, rfl⟩ :=
      digits_of_whole (convFromYog_keptSign s) h.nonzero hne hz'
    refine ⟨hex, bs, ds', htext, hhex, hbs, fun n hn => ?_⟩
    rcases convert_whole s hz with ⟨-, v', hv', hint⟩ | ⟨hout, hfrom⟩
    · obtain rfl := Except.ok.inj (hv.symm.trans hv')
      exact (signedInt_inj.1 (hint.symm.trans hn)).ge
    · by_cases h10 : base = 10
      · subst h10
        obtain rfl : hex = [] := by
          rcases hhex with _ | ⟨x, hx, -⟩
          · rfl
          · cases hx
        have hten : Spelled 10 t ds' := spelled_of_bytes (by rw [htext]; exact hbs)
        rw [hfrom, fromStr_ten] at hv
        obtain rfl := Except.ok.inj hv
        have hint : (bdConvFromDecimal (ascii.convFromYog (keptSign s ++ t)) : Int) =
            signedInt (isNegative s) n := (Bignum.toInt_pos _).symm.trans hn
        rcases hneg : isNegative s with _ | _
        · have hsign : keptSign s = [] := by rw [keptSign, hneg]; rfl
          rw [hsign, List.nil_append, bdConvFromDecimal_spelled hten, hneg] at hint
          exact (Int.ofNat_inj.1 hint).ge.trans (Nat.mod_le _ _)
        · rw [hneg] at hint
          have hn : (bdConvFromDecimal (ascii.convFromYog (keptSign s ++ t)) : Int) = -n := hint
          omega
      · obtain ⟨fmt, arg, herr⟩ := fromStr_ne h10 (keptSign s ++ t)
        rw [hfrom, herr] at hv
        cases hv
  · obtain ⟨fmt, arg, herr⟩ := convert_not_whole s fun z hz => hwhole ⟨z, hz⟩
    rw [hv] at herr
    cases herr

/-- Digits that seem to have a prefix stand for more than what `to_i` reads behind it. -/
theorem not_readsAs_shadowed {radix n b : ℕ} {s body : List YogChar}
    (hpre : prefixOf (magnitude s) = some (b, body))
    (hn : Numeral radix 0 (magnitude s) n) : ¬ ReadsAs radix s n := by
  rintro ⟨v, hv, hz⟩
  have htaken : taken radix (magnitude s) = (b, body) := by rw [taken, hpre]; rfl
  obtain ⟨p, hm, hp⟩ := prefixOf_eq_some_iff.1 hpre
  rw [hm] at hn
  obtain ⟨d, t₁, ds₁, hd, ht₁, hds₁, rfl⟩ := numeral_cons_iff.1 hn
  obtain ⟨halpha, e, he, hbe⟩ := prefixBase_digit hp
  rw [unscored, if_pos halpha] at ht₁
  obtain ⟨t, ht, rfl⟩ := Option.map_eq_some_iff.1 ht₁
  obtain ⟨e', ds, rfl, he', hds⟩ := spelled_cons hds₁
  rw [charDigit_toLower] at he'
  obtain ⟨he', hlt⟩ := Option.filter_eq_some_iff.1 he'
  obtain rfl := Option.some.inj (he.symm.trans he')
  have hlt := of_decide_eq_true hlt
  by_cases hbody : body = []
  · have hbare : bare (magnitude s) = none := by simp [bare, hpre, hbody]
    obtain ⟨fmt, arg, herr⟩ := toIOfRadix_none hbare radix
    rw [hv] at herr
    cases herr
  have hbare : bare (magnitude s) = some t := by simp [bare, hpre, hbody, ht]
  rw [toIOfRadix_some hbare, htaken] at hv
  obtain ⟨hex, bs, ds', htext, -, hbs, hle⟩ :=
    hds.of_convert (ne_nil_of_unscored hbody ht) hv
  have hshort : ds'.length ≤ ds.length := by
    have h₁ : bs.length = ds'.length := by simpa using congrArg List.length hbs
    have h₂ : t.length = hex.length + bs.length := by
      simpa [convFromYog_eq_map] using congrArg List.length htext
    have h₃ := hds.length
    omega
  have hlow := (read_bounds hds.lt ((0 * radix + d) * radix + e)).1
  have hhigh := (read_bounds (lt_of_digits hbs) 0).2
  have hcontra := calc
    radix ^ ds.length ≤ ((0 * radix + d) * radix + e) * radix ^ ds.length :=
      Nat.le_mul_of_pos_left _ (by omega)
    _ ≤ _ := hlow
    _ ≤ Lib.read b ds' := hle _ hz
    _ < (0 + 1) * b ^ ds'.length := hhigh
    _ = b ^ ds'.length := by rw [Nat.zero_add, Nat.one_mul]
    _ ≤ radix ^ ds'.length := Nat.pow_le_pow_left (by omega) _
    _ ≤ radix ^ ds.length := Nat.pow_le_pow_right (by omega) hshort
  exact lt_irrefl _ hcontra

/-- Digits behind a zero that are not all decimal. -/
theorem not_readsAs_zero {radix n : ℕ} {s : List YogChar} (hpre : prefixOf (magnitude s) = none)
    (htaken : (taken radix (magnitude s)).1 = 10) (hn : Numeral radix 0 (magnitude s) n)
    (hten : ∀ m, ¬ Numeral 10 0 (magnitude s) m) : ¬ ReadsAs radix s n := by
  rintro ⟨v, hv, hz⟩
  rcases hm : magnitude s with _ | ⟨c, rest⟩
  · rw [hm] at hn
    cases hn
  rw [hm] at hn hten hpre
  obtain ⟨d, t, ds, hd, ht, hds, -⟩ := numeral_cons_iff.1 hn
  have hbare : bare (magnitude s) = some (c :: t) := by simp [hm, bare, hpre, ht]
  have hspelled : Spelled radix (c :: t) (d :: ds) := by simpa [Spelled, hd] using hds
  rw [toIOfRadix_some hbare, htaken] at hv
  obtain ⟨hex, bs, ds', htext, hhex, hbs, -⟩ := hspelled.of_convert (List.cons_ne_nil c t) hv
  obtain rfl : hex = [] := by
    rcases hhex with _ | ⟨x, hx, -⟩
    · rfl
    · cases hx
  have hspelled' : Spelled 10 (c :: t) ds' := spelled_of_bytes (by rw [htext]; exact hbs)
  obtain ⟨d', ds', rfl, hd', hds'⟩ := spelled_cons hspelled'
  exact hten _ (numeral_cons_iff.2 ⟨d', t, ds', hd', ht, hds', rfl⟩)

theorem eq_zero_of_read {base : ℕ} (hbase : 0 < base) {ds : List ℕ} {v : ℕ}
    (h : ds.foldl (fun v d => v * base + d) v = 0) : v = 0 ∧ ∀ d ∈ ds, d = 0 := by
  induction ds generalizing v with
  | nil => exact ⟨h, nofun⟩
  | cons d ds ih =>
    obtain ⟨h₁, h₂⟩ := ih h
    have hsum : v * base + d = 0 := h₁
    have hv : v * base = 0 := by omega
    refine ⟨(Nat.mul_eq_zero.1 hv).resolve_right hbase.ne', ?_⟩
    rw [List.forall_mem_cons]
    exact ⟨by omega, h₂⟩

theorem read_zeros (base : ℕ) {ds : List ℕ} (h : ∀ d ∈ ds, d = 0) :
    ds.foldl (fun v d => v * base + d) 0 = 0 := by
  induction ds with
  | nil => rfl
  | cons d ds ih =>
    rw [List.forall_mem_cons] at h
    rw [List.foldl_cons, h.1, Nat.zero_mul]
    exact ih h.2

/-- The value of a digit does not depend on the base. -/
theorem charDigit_same {radix base d d' : ℕ} {c : YogChar} (h : charDigit radix c = some d)
    (h' : charDigit base c = some d') : d = d' := by
  obtain ⟨h, -⟩ := Option.filter_eq_some_iff.1 h
  obtain ⟨h', -⟩ := Option.filter_eq_some_iff.1 h'
  exact Option.some.inj (h.symm.trans h')

theorem Spelled.same {radix base : ℕ} {t : List YogChar} {ds ds' : List ℕ}
    (h : Spelled radix t ds) (h' : Spelled base t ds') : ds = ds' := by
  induction t generalizing ds ds' with
  | nil =>
    obtain rfl : ds = [] := by simpa [Spelled] using h
    obtain rfl : ds' = [] := by simpa [Spelled] using h'
    rfl
  | cons c t ih =>
    obtain ⟨d, ds, rfl, hc, hds⟩ := spelled_cons h
    obtain ⟨d', ds', rfl, hc', hds'⟩ := spelled_cons h'
    rw [charDigit_same hc hc', ih hds hds']

/-- Zero is zero to every base. -/
theorem Numeral.zero {radix base m : ℕ} (hradix : 0 < radix) {s : List YogChar}
    (hn : Numeral radix 0 s 0) (hm : Numeral base 0 s m) : m = 0 := by
  rcases s with _ | ⟨c, s⟩
  · cases hn
  obtain ⟨d, t, ds, hc, ht, hds, hzero⟩ := numeral_cons_iff.1 hn
  obtain ⟨d', t', ds', hc', ht', hds', rfl⟩ := numeral_cons_iff.1 hm
  obtain rfl := Option.some.inj (ht.symm.trans ht')
  obtain rfl := charDigit_same hc hc'
  obtain rfl := hds.same hds'
  obtain ⟨hd, hall⟩ := eq_zero_of_read hradix hzero.symm
  obtain rfl : d = 0 := by omega
  rw [Nat.zero_mul]
  exact read_zeros base hall

/-- A literal is read if the digits are digits to the base taken, and nothing of them is lost. -/
theorem readsAs_iff {radix n : ℕ} (hradix : 0 < radix) {s : List YogChar}
    (hn : Unsigned radix (magnitude s) n) : ReadsAs radix s n ↔
      ∃ m, Numeral (taken radix (magnitude s)).1 0 (taken radix (magnitude s)).2 m ∧
        Retained (taken radix (magnitude s)).1
          ((taken radix (magnitude s)).2.countP (· ≠ yogChar '_')) (isNegative s) m n := by
  by_cases hm : ∃ m, Numeral (taken radix (magnitude s)).1 0 (taken radix (magnitude s)).2 m
  · obtain ⟨m, hm⟩ := hm
    have hzero : n = 0 → m = 0 := by
      rintro rfl
      rcases hp : prefixOf (magnitude s) with _ | ⟨b, body⟩
      · have hs : (taken radix (magnitude s)).2 = magnitude s := by rw [taken, hp]; rfl
        rw [hs] at hm
        rcases hn with hn | ⟨hn, -⟩
        · obtain ⟨b, body, hp', -⟩ := prefixed_iff.1 hn
          rw [hp] at hp'
          cases hp'
        · exact hn.zero hradix hm
      · have htaken : taken radix (magnitude s) = (b, body) := by rw [taken, hp]; rfl
        rw [htaken] at hm
        have hpreed : Unsigned radix (magnitude s) m := .inl (prefixed_iff.2 ⟨b, body, hp, hm⟩)
        exact hpreed.unique hn
    rw [readsAs_of_numeral hm hzero]
    constructor
    · exact fun h => ⟨m, hm, h⟩
    · rintro ⟨m', hm', h⟩
      exact hm.unique hm' ▸ h
  · refine iff_of_false ?_ fun h => hm (h.imp fun _ h => h.1)
    rcases hp : prefixOf (magnitude s) with _ | ⟨b, body⟩
    · have hs : (taken radix (magnitude s)).2 = magnitude s := by rw [taken, hp]; rfl
      rcases hn with hn | ⟨hn, -⟩
      · obtain ⟨b, body, hp', -⟩ := prefixed_iff.1 hn
        rw [hp] at hp'
        cases hp'
      rw [hs] at hm
      have hbase : (taken radix (magnitude s)).1 = 10 ∨ (taken radix (magnitude s)).1 = radix := by
        rw [taken, hp, Option.getD_none]
        split_ifs
        · exact .inl rfl
        · exact .inr rfl
      rcases hbase with hbase | hbase
      · rw [hbase] at hm
        exact not_readsAs_zero hp hbase hn fun m h => hm ⟨m, h⟩
      · rw [hbase] at hm
        exact absurd ⟨n, hn⟩ hm
    · have htaken : taken radix (magnitude s) = (b, body) := by rw [taken, hp]; rfl
      rw [htaken] at hm
      rcases hn with hn | ⟨hn, -⟩
      · obtain ⟨b', body', hp', hbody⟩ := prefixed_iff.1 hn
        obtain ⟨rfl, rfl⟩ := Prod.mk.inj (Option.some.inj (hp.symm.trans hp'))
        exact absurd ⟨n, hbody⟩ hm
      · exact not_readsAs_shadowed hp hn

/-- A literal has its digits to the base that `to_i` takes, none of which is lost, and no other
text is one `strtol` takes whole and that does not leave the range of `long` or has the base ten. -/
structure Legible (radix : ℕ) (s : List YogChar) : Prop where
  literal : ∀ n, Unsigned radix (magnitude s) n →
    ∃ m, Numeral (taken radix (magnitude s)).1 0 (taken radix (magnitude s)).2 m ∧
      Retained (taken radix (magnitude s)).1
        ((taken radix (magnitude s)).2.countP (· ≠ yogChar '_')) (isNegative s) m n
  other : (∀ n, ¬ Unsigned radix (magnitude s) n) → ∀ t z, bare (magnitude s) = some t →
    Whole (taken radix (magnitude s)).1 (ascii.convFromYog (keptSign s ++ t)) z →
      (taken radix (magnitude s)).1 ≠ 10 ∧ ¬ InLong z

/-- `to_i` gives the integers of the literals, and raises `ValueError` for every other text. -/
def FollowsGrammar (radix : ℕ) (s : List YogChar) : Prop :=
  (∀ v, Denotes radix s v → ∃ i, toI s (some radix) = .ok i ∧ i.toInt = v) ∧
    ((∀ v, ¬ Denotes radix s v) → ∃ fmt arg, toI s (some radix) = .error (.valueError fmt arg))

/-- A text that is no literal raises an exception if nothing of it is taken. -/
theorem raises_iff (radix : ℕ) (s : List YogChar) :
    (∃ fmt arg, toIOfRadix s radix = .error (.valueError fmt arg)) ↔
      ∀ t z, bare (magnitude s) = some t →
        Whole (taken radix (magnitude s)).1 (ascii.convFromYog (keptSign s ++ t)) z →
          (taken radix (magnitude s)).1 ≠ 10 ∧ ¬ InLong z := by
  rcases hbare : bare (magnitude s) with _ | t
  · exact iff_of_true (toIOfRadix_none hbare radix) nofun
  rw [toIOfRadix_some hbare]
  constructor
  · rintro ⟨fmt, arg, herr⟩ _ z ⟨⟩ hz
    rcases convert_whole s hz with ⟨-, v, hv, -⟩ | ⟨hout, hfrom⟩
    · rw [hv] at herr
      cases herr
    · refine ⟨fun h10 => ?_, hout⟩
      rw [hfrom, h10] at herr
      cases herr
  · intro h
    by_cases hwhole : ∃ z, Whole (taken radix (magnitude s)).1
        (ascii.convFromYog (keptSign s ++ t)) z
    · obtain ⟨z, hz⟩ := hwhole
      obtain ⟨h10, hout⟩ := h t z rfl hz
      rcases convert_whole s hz with ⟨hin, -⟩ | ⟨-, hfrom⟩
      · exact absurd hin hout
      · rw [hfrom]
        exact fromStr_ne h10 _
    · exact convert_not_whole s fun z hz => hwhole ⟨z, hz⟩

/-- `to_i` follows the grammar for the legible texts, and only for them. -/
theorem followsGrammar_iff {radix : ℕ} (hr : 2 ≤ radix) (hr' : radix ≤ 36) (s : List YogChar) :
    FollowsGrammar radix s ↔ Legible radix s := by
  have hto : toI s (some radix) = toIOfRadix s radix := by
    rw [toI, if_neg (by omega)]
  have hnone : (∀ v, ¬ Denotes radix s v) ↔ ∀ n, ¬ Unsigned radix (magnitude s) n := by
    simp only [denotes_iff, not_exists, not_and]
    constructor
    · exact fun h n hn => h _ n hn rfl
    · exact fun h v n hn _ => h n hn
  unfold FollowsGrammar
  rw [hto, hnone, raises_iff]
  constructor
  · rintro ⟨h₁, h₂⟩
    refine ⟨fun n hn => ?_, h₂⟩
    rw [← readsAs_iff (by omega) hn]
    exact h₁ _ (denotes_iff.2 ⟨n, hn, rfl⟩)
  · rintro ⟨h₁, h₂⟩
    refine ⟨?_, h₂⟩
    intro v hv
    obtain ⟨n, hn, rfl⟩ := denotes_iff.1 hv
    exact (readsAs_iff (by omega) hn).2 (h₁ n hn)

/-- `"0x1_F".to_i(10)` -/
theorem followsGrammar_iff_hexadecimal :
    FollowsGrammar 10 ("0x1_F".toList.map yogChar) ↔ Legible 10 ("0x1_F".toList.map yogChar) :=
  followsGrammar_iff (by decide) (by decide) _

/-- `"010".to_i(16)` is ten. -/
theorem not_followsGrammar_leadingZero :
    ¬ FollowsGrammar 16 [yogChar '0', yogChar '1', yogChar '0'] := by
  rintro ⟨h, -⟩
  have hn : Unsigned 16 [yogChar '0', yogChar '1', yogChar '0'] 16 := by
    refine .inr ⟨.cons (d := 0) (by decide) (.cons (d := 1) (by decide)
      (.digit (d := 0) (by decide))), ?_⟩
    intro m hm
    obtain ⟨b, body, hp, -⟩ := prefixed_iff.1 hm
    cases hp
  obtain ⟨i, hi, hint⟩ := h 16 (.unsigned hn)
  have hten : toI [yogChar '0', yogChar '1', yogChar '0'] (some 16) = .ok (Integer.fromInt 10) :=
    rfl
  obtain rfl := Except.ok.inj (hten.symm.trans hi)
  exact absurd hint (by decide)

end Yog
