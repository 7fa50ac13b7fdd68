import Yog.TextEncoding

/-!
# UTF-8 round trips

Every character is encoded as the table of UTF-8 has it, and the first byte tells the decoder the
right length. The decoder puts the third byte of a four-byte form where the second one goes and
takes two bits of the second byte of a six-byte form; `ReadsBack` is what that leaves alone.
-/

namespace Yog

namespace Encoding

/-- Each character, written in front of any bytes, is read back as `f` of it with its own length. -/
structure Reads (enc : Encoding) (f : YogChar → YogChar) : Prop where
  nonempty : ∀ c, enc.convCharFromYog c ≠ []
  bytes : ∀ c r, enc.getCharBytes (enc.convCharFromYog c ++ r) = (enc.convCharFromYog c).length
  char : ∀ c r, enc.convCharToYog (enc.convCharFromYog c ++ r) = f c

variable {enc : Encoding} {f : YogChar → YogChar}

theorem convFromYog_cons (c : YogChar) (cs : List YogChar) :
    enc.convFromYog (c :: cs) = enc.convCharFromYog c ++ enc.convFromYog cs := by
  unfold convFromYog
  rw [List.flatMap_cons]

theorem Reads.drop (h : Reads enc f) (c : YogChar) (r : List Byte) :
    (enc.convCharFromYog c ++ r).drop (enc.getCharBytes (enc.convCharFromYog c ++ r)) = r := by
  rw [h.bytes, List.drop_left]

theorem Reads.countChars_eq (h : Reads enc f) : ∀ (cs : List YogChar) (fuel : Nat),
    (enc.convFromYog cs).length ≤ fuel → enc.countChars fuel (enc.convFromYog cs) = cs.length
  | [], fuel, _ => by
    unfold convFromYog countChars
    rcases fuel with _ | fuel <;> rfl
  | c :: cs, fuel, hfuel => by
    have hpos : 0 < (enc.convCharFromYog c).length := List.length_pos_iff.2 (h.nonempty c)
    rw [convFromYog_cons] at hfuel ⊢
    rw [List.length_append] at hfuel
    rcases fuel with _ | fuel
    · omega
    · obtain ⟨b, bs, hb⟩ := List.exists_cons_of_ne_nil (h.nonempty c)
      have hstep : enc.countChars (fuel + 1) (enc.convCharFromYog c ++ enc.convFromYog cs) =
          enc.countChars fuel ((enc.convCharFromYog c ++ enc.convFromYog cs).drop
            (enc.getCharBytes (enc.convCharFromYog c ++ enc.convFromYog cs))) + 1 := by
        rw [hb]
        rfl
      rw [hstep, h.drop, h.countChars_eq cs fuel (by omega)]
      rfl

theorem Reads.convToYogLoop_eq (h : Reads enc f) : ∀ cs : List YogChar,
    enc.convToYogLoop cs.length (enc.convFromYog cs) = cs.map f
  | [] => rfl
  | c :: cs => by
    rw [convFromYog_cons]
    show enc.convCharToYog _ :: enc.convToYogLoop cs.length (List.drop _ _) = _
    rw [h.char, h.drop, h.convToYogLoop_eq cs]
    rfl

/-- Decoding what was encoded reads every character back. -/
theorem Reads.convToYog_convFromYog (h : Reads enc f) (cs : List YogChar) :
    enc.convToYog (enc.convFromYog cs) = cs.map f := by
  unfold convToYog
  rw [h.countChars_eq cs _ le_rfl, h.convToYogLoop_eq cs]

end Encoding

theorem toByte_val (n : Nat) : (toByte n).val = n % 256 := rfl

theorem byteAt_zero (b : Byte) (s : List Byte) : byteAt (b :: s) 0 = b.val := rfl

theorem byteAt_succ (b : Byte) (s : List Byte) (i : Nat) : byteAt (b :: s) (i + 1) = byteAt s i :=
  rfl

theorem and_0x01 (n : Nat) : n &&& 0x01 = n % 2 := Nat.and_two_pow_sub_one_eq_mod n 1

theorem and_0x03 (n : Nat) : n &&& 0x03 = n % 4 := Nat.and_two_pow_sub_one_eq_mod n 2

theorem and_0x07 (n : Nat) : n &&& 0x07 = n % 8 := Nat.and_two_pow_sub_one_eq_mod n 3

theorem and_0x0f (n : Nat) : n &&& 0x0f = n % 16 := Nat.and_two_pow_sub_one_eq_mod n 4

theorem and_0x1f (n : Nat) : n &&& 0x1f = n % 32 := Nat.and_two_pow_sub_one_eq_mod n 5

theorem and_0x3f (n : Nat) : n &&& 0x3f = n % 64 := Nat.and_two_pow_sub_one_eq_mod n 6

theorem utf8Tail_val (c k : Nat) : (utf8Tail c k).val = 0x80 + c / 2 ^ k % 64 := by
  unfold utf8Tail
  rw [toByte_val, and_0x3f, Nat.shiftRight_eq_div_pow]
  have hlt : c / 2 ^ k % 64 < 64 := Nat.mod_lt _ (by decide)
  have hor : 0x80 ||| c / 2 ^ k % 64 = 0x80 + c / 2 ^ k % 64 :=
    (Nat.two_pow_add_eq_or_of_lt (i := 7) (by omega) 1).symm
  rw [hor]
  omega

/-- The six bits the decoder takes of it again. -/
theorem utf8Tail_payload (c k : Nat) : (utf8Tail c k).val % 64 = c / 2 ^ k % 64 := by
  rw [utf8Tail_val]
  omega

/-- The six bits from the `k`th on, put back under those above. -/
theorem six_bits (c k : Nat) :
    c / 2 ^ (k + 6) * 2 ^ (k + 6) + c / 2 ^ k % 64 * 2 ^ k = c / 2 ^ k * 2 ^ k := by
  rw [Nat.pow_add, ← Nat.div_div_eq_div_mul, Nat.mul_comm (2 ^ k), ← Nat.mul_assoc, ← Nat.add_mul,
    Nat.mul_comm _ (2 ^ 6), Nat.div_add_mod]

/-- The low 26 bits as a six-byte form carries them, two of them in its second byte. -/
theorem low_bits (c : Nat) (h : Nat) :
    h + c / 2 ^ 24 % 4 * 2 ^ 24 + c / 2 ^ 18 % 64 * 2 ^ 18 + c / 2 ^ 12 % 64 * 2 ^ 12 +
      c / 2 ^ 6 % 64 * 2 ^ 6 + c / 2 ^ 0 % 64 = h + c % 2 ^ 26 := by
  have h₂₆ : c % 2 ^ 26 = c % 2 ^ 24 + 2 ^ 24 * (c / 2 ^ 24 % 4) :=
    Nat.mod_mul (a := 2 ^ 24) (b := 4)
  have h₂₄ : c % 2 ^ 24 = c % 2 ^ 18 + 2 ^ 18 * (c / 2 ^ 18 % 64) :=
    Nat.mod_mul (a := 2 ^ 18) (b := 64)
  have h₁₈ : c % 2 ^ 18 = c % 2 ^ 12 + 2 ^ 12 * (c / 2 ^ 12 % 64) :=
    Nat.mod_mul (a := 2 ^ 12) (b := 64)
  have h₁₂ : c % 2 ^ 12 = c % 2 ^ 6 + 2 ^ 6 * (c / 2 ^ 6 % 64) :=
    Nat.mod_mul (a := 2 ^ 6) (b := 64)
  rw [h₂₆, h₂₄, h₁₈, h₁₂, Nat.pow_zero, Nat.div_one]
  ac_rfl

/-- The first byte of a form: `k` bits under a mark of ones. -/
theorem lead_val {m k x : Nat} (hx : x < 2 ^ k) (hm : m * 2 ^ k + x < 256) :
    (toByte (m * 2 ^ k ||| x)).val = m * 2 ^ k + x := by
  rw [toByte_val, Nat.mul_comm, ← Nat.two_pow_add_eq_or_of_lt hx, Nat.mul_comm]
  exact Nat.mod_eq_of_lt hm

/-- The length by the first byte. -/
theorem utf8GetCharBytes_eq (s : List Byte) : utf8GetCharBytes s =
    if byteAt s 0 < 0xc0 then 1 else if byteAt s 0 < 0xe0 then 2 else if byteAt s 0 < 0xf0 then 3
    else if byteAt s 0 < 0xf8 then 4 else if byteAt s 0 < 0xfc then 5 else 6 := by
  have h : ∀ b : Fin 256, (if b.val &&& 0xfc = 0xfc then 6 else if b.val &&& 0xf8 = 0xf8 then 5
      else if b.val &&& 0xf0 = 0xf0 then 4 else if b.val &&& 0xe0 = 0xe0 then 3
      else if b.val &&& 0xc0 = 0xc0 then 2 else 1) =
      if b.val < 0xc0 then 1 else if b.val < 0xe0 then 2 else if b.val < 0xf0 then 3
      else if b.val < 0xf8 then 4 else if b.val < 0xfc then 5 else 6 := by decide +kernel
  exact h (s.getD 0 0)

theorem utf8_one {c : YogChar} (h : c.val < 0x80) :
    ∃ b, utf8ConvCharFromYog c = [b] ∧ b.val = c.val := by
  unfold utf8ConvCharFromYog
  rw [if_pos (show isascii c.val from h)]
  exact ⟨_, rfl, Nat.mod_eq_of_lt (by omega)⟩

theorem utf8_two {c : YogChar} (h : 0x80 ≤ c.val) (h' : c.val < 0x800) :
    ∃ b, utf8ConvCharFromYog c = [b, utf8Tail c.val 0] ∧ b.val = 0xc0 + c.val / 2 ^ 6 := by
  unfold utf8ConvCharFromYog
  rw [if_neg (show ¬ isascii c.val from Nat.not_lt.2 h), if_pos h', Nat.shiftRight_eq_div_pow]
  exact ⟨_, rfl, lead_val (m := 6) (k := 5) (by omega) (by omega)⟩

theorem utf8_three {c : YogChar} (h : 0x800 ≤ c.val) (h' : c.val < 0x10000) :
    ∃ b, utf8ConvCharFromYog c = [b, utf8Tail c.val 6, utf8Tail c.val 0] ∧
      b.val = 0xe0 + c.val / 2 ^ 12 := by
  have h₁ : 0x80 ≤ c.val := by omega
  unfold utf8ConvCharFromYog
  rw [if_neg (show ¬ isascii c.val from Nat.not_lt.2 h₁), if_neg (by omega), if_pos h',
    Nat.shiftRight_eq_div_pow]
  exact ⟨_, rfl, lead_val (m := 14) (k := 4) (by omega) (by omega)⟩

theorem utf8_four {c : YogChar} (h : 0x10000 ≤ c.val) (h' : c.val < 0x200000) :
    ∃ b, utf8ConvCharFromYog c =
        [b, utf8Tail c.val 12, utf8Tail c.val 6, utf8Tail c.val 0] ∧
      b.val = 0xf0 + c.val / 2 ^ 18 := by
  have h₁ : 0x80 ≤ c.val := by omega
  unfold utf8ConvCharFromYog
  rw [if_neg (show ¬ isascii c.val from Nat.not_lt.2 h₁), if_neg (by omega), if_neg (by omega),
    if_pos h', Nat.shiftRight_eq_div_pow]
  exact ⟨_, rfl, lead_val (m := 30) (k := 3) (by omega) (by omega)⟩

theorem utf8_five {c : YogChar} (h : 0x200000 ≤ c.val) (h' : c.val < 0x4000000) :
    ∃ b, utf8ConvCharFromYog c =
        [b, utf8Tail c.val 18, utf8Tail c.val 12, utf8Tail c.val 6, utf8Tail c.val 0] ∧
      b.val = 0xf8 + c.val / 2 ^ 24 := by
  have h₁ : 0x80 ≤ c.val := by omega
  unfold utf8ConvCharFromYog
  rw [if_neg (show ¬ isascii c.val from Nat.not_lt.2 h₁), if_neg (by omega), if_neg (by omega),
    if_neg (by omega), if_pos h', Nat.shiftRight_eq_div_pow]
  exact ⟨_, rfl, lead_val (m := 62) (k := 2) (by omega) (by omega)⟩

theorem utf8_six {c : YogChar} (h : 0x4000000 ≤ c.val) :
    ∃ b, utf8ConvCharFromYog c = [b, utf8Tail c.val 24, utf8Tail c.val 18, utf8Tail c.val 12,
        utf8Tail c.val 6, utf8Tail c.val 0] ∧
      b.val = 0xfc + c.val / 2 ^ 30 := by
  have hc := c.isLt
  have h₁ : 0x80 ≤ c.val := by omega
  unfold utf8ConvCharFromYog
  rw [if_neg (show ¬ isascii c.val from Nat.not_lt.2 h₁), if_neg (by omega), if_neg (by omega),
    if_neg (by omega), if_neg (by omega), Nat.shiftRight_eq_div_pow]
  exact ⟨_, rfl, lead_val (m := 63) (k := 2) (by omega) (by omega)⟩

/-- The six forms, by the size of the character. -/
theorem utf8ConvCharFromYog_cases (c : YogChar) :
    (c.val < 0x80 ∧ ∃ b, utf8ConvCharFromYog c = [b] ∧ b.val = c.val) ∨
    ((0x80 ≤ c.val ∧ c.val < 0x800) ∧
      ∃ b, utf8ConvCharFromYog c = [b, utf8Tail c.val 0] ∧ b.val = 0xc0 + c.val / 2 ^ 6) ∨
    ((0x800 ≤ c.val ∧ c.val < 0x10000) ∧
      ∃ b, utf8ConvCharFromYog c = [b, utf8Tail c.val 6, utf8Tail c.val 0] ∧
        b.val = 0xe0 + c.val / 2 ^ 12) ∨
    ((0x10000 ≤ c.val ∧ c.val < 0x200000) ∧
      ∃ b, utf8ConvCharFromYog c =
          [b, utf8Tail c.val 12, utf8Tail c.val 6, utf8Tail c.val 0] ∧
        b.val = 0xf0 + c.val / 2 ^ 18) ∨
    ((0x200000 ≤ c.val ∧ c.val < 0x4000000) ∧
      ∃ b, utf8ConvCharFromYog c =
          [b, utf8Tail c.val 18, utf8Tail c.val 12, utf8Tail c.val 6, utf8Tail c.val 0] ∧
        b.val = 0xf8 + c.val / 2 ^ 24) ∨
    (0x4000000 ≤ c.val ∧
      ∃ b, utf8ConvCharFromYog c = [b, utf8Tail c.val 24, utf8Tail c.val 18, utf8Tail c.val 12,
          utf8Tail c.val 6, utf8Tail c.val 0] ∧
        b.val = 0xfc + c.val / 2 ^ 30) := by
  by_cases h₁ : c.val < 0x80
  · exact .inl ⟨h₁, utf8_one h₁⟩
  rw [Nat.not_lt] at h₁
  by_cases h₂ : c.val < 0x800
  · exact .inr (.inl ⟨⟨h₁, h₂⟩, utf8_two h₁ h₂⟩)
  rw [Nat.not_lt] at h₂
  by_cases h₃ : c.val < 0x10000
  · exact .inr (.inr (.inl ⟨⟨h₂, h₃⟩, utf8_three h₂ h₃⟩))
  rw [Nat.not_lt] at h₃
  by_cases h₄ : c.val < 0x200000
  · exact .inr (.inr (.inr (.inl ⟨⟨h₃, h₄⟩, utf8_four h₃ h₄⟩)))
  rw [Nat.not_lt] at h₄
  by_cases h₅ : c.val < 0x4000000
  · exact .inr (.inr (.inr (.inr (.inl ⟨⟨h₄, h₅⟩, utf8_five h₄ h₅⟩))))
  · exact .inr (.inr (.inr (.inr (.inr ⟨Nat.not_lt.1 h₅, utf8_six (Nat.not_lt.1 h₅)⟩))))

/-- What the decoder makes of an encoded character. -/
def utf8Read (c : YogChar) : YogChar :=
  if c.val < 0x10000 then c
  else if c.val < 0x200000 then
    toYogChar (c.val / 2 ^ 12 * 2 ^ 12 + c.val / 2 ^ 6 % 64 * 2 ^ 12 + c.val % 64)
  else if c.val < 0x4000000 then c
  else toYogChar (c.val / 2 ^ 30 % 2 * 2 ^ 30 + c.val % 2 ^ 26)

theorem toYogChar_val (c : YogChar) {n : Nat} (h : n = c.val) : toYogChar n = c := by
  subst h
  exact Fin.ext (Nat.mod_eq_of_lt c.isLt)

theorem utf8Read_char (c : YogChar) (r : List Byte) :
    utf8ConvCharToYog (utf8ConvCharFromYog c ++ r) = utf8Read c := by
  have hlt := c.isLt
  have h₀ : c.val / 2 ^ 6 * 2 ^ 6 + c.val / 2 ^ 0 % 64 = c.val := by
    rw [Nat.pow_zero, Nat.div_one]
    exact Nat.div_add_mod' c.val 64
  have h₆ : c.val / 2 ^ 12 * 2 ^ 12 + c.val / 2 ^ 6 % 64 * 2 ^ 6 = c.val / 2 ^ 6 * 2 ^ 6 :=
    six_bits c.val 6
  have h₁₂ : c.val / 2 ^ 18 * 2 ^ 18 + c.val / 2 ^ 12 % 64 * 2 ^ 12 = c.val / 2 ^ 12 * 2 ^ 12 :=
    six_bits c.val 12
  have h₁₈ : c.val / 2 ^ 24 * 2 ^ 24 + c.val / 2 ^ 18 % 64 * 2 ^ 18 = c.val / 2 ^ 18 * 2 ^ 18 :=
    six_bits c.val 18
  unfold utf8ConvCharToYog utf8Read
  rw [utf8GetCharBytes_eq]
  rcases utf8ConvCharFromYog_cases c with ⟨hc, b, he, hb⟩ | ⟨hc, b, he, hb⟩ | ⟨hc, b, he, hb⟩ |
    ⟨hc, b, he, hb⟩ | ⟨hc, b, he, hb⟩ | ⟨hc, b, he, hb⟩
  · rw [he, if_pos (show c.val < 0x10000 by omega)]
    simp only [List.cons_append, byteAt_zero, hb]
    rw [if_pos (by omega)]
    exact toYogChar_val c (if_pos hc)
  · rw [he, if_pos (show c.val < 0x10000 by omega)]
    simp only [List.cons_append, byteAt_zero, byteAt_succ, hb]
    rw [if_neg (by omega), if_pos (by omega)]
    apply toYogChar_val
    simp only [and_0x1f, and_0x3f, Nat.shiftLeft_eq, utf8Tail_payload]
    have hlead : (0xc0 + c.val / 2 ^ 6) % 32 = c.val / 2 ^ 6 := by omega
    rw [hlead, h₀]
  · rw [he, if_pos (show c.val < 0x10000 by omega)]
    simp only [List.cons_append, byteAt_zero, byteAt_succ, hb]
    rw [if_neg (by omega), if_neg (by omega), if_pos (by omega)]
    apply toYogChar_val
    simp only [and_0x0f, and_0x3f, Nat.shiftLeft_eq, utf8Tail_payload]
    have hlead : (0xe0 + c.val / 2 ^ 12) % 16 = c.val / 2 ^ 12 := by omega
    rw [hlead, h₆, h₀]
  · rw [he, if_neg (show ¬ c.val < 0x10000 by omega), if_pos hc.2]
    simp only [List.cons_append, byteAt_zero, byteAt_succ, hb]
    rw [if_neg (by omega), if_neg (by omega), if_neg (by omega), if_pos (by omega)]
    simp only [and_0x07, and_0x3f, Nat.shiftLeft_eq, utf8Tail_payload]
    have hlead : (0xf0 + c.val / 2 ^ 18) % 8 = c.val / 2 ^ 18 := by omega
    rw [hlead, h₁₂, Nat.pow_zero, Nat.div_one]
  · rw [he, if_neg (show ¬ c.val < 0x10000 by omega), if_neg (show ¬ c.val < 0x200000 by omega),
      if_pos hc.2]
    simp only [List.cons_append, byteAt_zero, byteAt_succ, hb]
    rw [if_neg (by omega), if_neg (by omega), if_neg (by omega), if_neg (by omega),
      if_pos (by omega)]
    apply toYogChar_val
    simp only [and_0x03, and_0x3f, Nat.shiftLeft_eq, utf8Tail_payload]
    have hlead : (0xf8 + c.val / 2 ^ 24) % 4 = c.val / 2 ^ 24 := by omega
    rw [hlead, h₁₈, h₁₂, h₆, h₀]
  · rw [he, if_neg (show ¬ c.val < 0x10000 by omega), if_neg (show ¬ c.val < 0x200000 by omega),
      if_neg (show ¬ c.val < 0x4000000 by omega)]
    simp only [List.cons_append, byteAt_zero, byteAt_succ, hb]
    rw [if_neg (by omega), if_neg (by omega), if_neg (by omega), if_neg (by omega),
      if_neg (by omega)]
    simp only [and_0x01, and_0x03, and_0x3f, Nat.shiftLeft_eq, utf8Tail_payload]
    have hlead : (0xfc + c.val / 2 ^ 30) % 2 = c.val / 2 ^ 30 % 2 := by omega
    have htwo : (utf8Tail c.val 24).val % 4 = c.val / 2 ^ 24 % 4 := by
      rw [utf8Tail_val]
      omega
    rw [hlead, htwo, low_bits]

theorem utf8_bytes (c : YogChar) (r : List Byte) :
    utf8GetCharBytes (utf8ConvCharFromYog c ++ r) = (utf8ConvCharFromYog c).length := by
  have hlt := c.isLt
  rw [utf8GetCharBytes_eq]
  rcases utf8ConvCharFromYog_cases c with ⟨hc, b, he, hb⟩ | ⟨hc, b, he, hb⟩ | ⟨hc, b, he, hb⟩ |
    ⟨hc, b, he, hb⟩ | ⟨hc, b, he, hb⟩ | ⟨hc, b, he, hb⟩
  · rw [he, List.cons_append, byteAt_zero, hb, if_pos (by omega)]
    rfl
  · rw [he, List.cons_append, byteAt_zero, hb, if_neg (by omega), if_pos (by omega)]
    rfl
  · rw [he, List.cons_append, byteAt_zero, hb, if_neg (by omega), if_neg (by omega),
      if_pos (by omega)]
    rfl
  · rw [he, List.cons_append, byteAt_zero, hb, if_neg (by omega), if_neg (by omega),
      if_neg (by omega), if_pos (by omega)]
    rfl
  · rw [he, List.cons_append, byteAt_zero, hb, if_neg (by omega), if_neg (by omega),
      if_neg (by omega), if_neg (by omega), if_pos (by omega)]
    rfl
  · rw [he, List.cons_append, byteAt_zero, hb, if_neg (by omega), if_neg (by omega),
      if_neg (by omega), if_neg (by omega), if_neg (by omega)]
    rfl

theorem utf8_reads : utf8.Reads utf8Read where
  nonempty c := by
    show utf8ConvCharFromYog c ≠ []
    rcases utf8ConvCharFromYog_cases c with ⟨-, b, he, -⟩ | ⟨-, b, he, -⟩ | ⟨-, b, he, -⟩ |
      ⟨-, b, he, -⟩ | ⟨-, b, he, -⟩ | ⟨-, b, he, -⟩ <;> rw [he] <;> exact List.cons_ne_nil _ _
  bytes := utf8_bytes
  char := utf8Read_char

/-- The decoder is right about `c`: no fourth and no sixth byte is needed, or the bits it
misplaces are zero. -/
def ReadsBack (c : YogChar) : Prop :=
  c.val < 0x10000 ∨ (c.val < 0x200000 ∧ c.val / 2 ^ 6 % 64 = 0) ∨
    (0x200000 ≤ c.val ∧ c.val < 0x4000000) ∨ (2 ^ 30 ≤ c.val ∧ c.val < 2 ^ 30 + 2 ^ 26)

theorem toYogChar_eq_iff {c : YogChar} {n : Nat} (hn : n < 2 ^ 32) :
    toYogChar n = c ↔ n = c.val := by
  constructor
  · rintro rfl
    exact (Nat.mod_eq_of_lt hn).symm
  · exact toYogChar_val c

theorem utf8Read_eq_iff (c : YogChar) : utf8Read c = c ↔ ReadsBack c := by
  have hlt := c.isLt
  unfold utf8Read ReadsBack
  split_ifs with h₁ h₂ h₃
  · exact iff_of_true rfl (.inl h₁)
  · have h₆ : c.val / 2 ^ 12 * 2 ^ 12 + c.val / 2 ^ 6 % 64 * 2 ^ 6 = c.val / 2 ^ 6 * 2 ^ 6 :=
      six_bits c.val 6
    rw [toYogChar_eq_iff (by omega)]
    omega
  · exact iff_of_true rfl (.inr (.inr (.inl (by omega))))
  · rw [toYogChar_eq_iff (by omega)]
    omega

theorem utf8Read_lt {c : YogChar} (h : c.val < 2 ^ 31) : (utf8Read c).val < 2 ^ 31 := by
  unfold utf8Read
  split_ifs with h₁ h₂ h₃
  · exact h
  · exact Nat.lt_of_le_of_lt (Nat.mod_le _ _) (by omega)
  · exact h
  · exact Nat.lt_of_le_of_lt (Nat.mod_le _ _) (by omega)

theorem map_utf8Read_eq_iff (cs : List YogChar) :
    cs.map utf8Read = cs ↔ ∀ c ∈ cs, ReadsBack c := by
  have h := List.map_inj_left (l := cs) (f := utf8Read) (g := id)
  rw [List.map_id] at h
  rw [h]
  exact forall₂_congr fun c _ => utf8Read_eq_iff c

/-- Six bits behind the mark of a further byte. -/
def IsTail (b : Byte) : Prop := 0x80 ≤ b.val ∧ b.val < 0xc0

/-- The bits that the bytes of a form carry. -/
def utf8Value : List Byte → Nat
  | [b₀] => b₀.val
  | [b₀, b₁] => (b₀.val - 0xc0) * 64 + (b₁.val - 0x80)
  | [b₀, b₁, b₂] => ((b₀.val - 0xe0) * 64 + (b₁.val - 0x80)) * 64 + (b₂.val - 0x80)
  | [b₀, b₁, b₂, b₃] =>
    (((b₀.val - 0xf0) * 64 + (b₁.val - 0x80)) * 64 + (b₂.val - 0x80)) * 64 + (b₃.val - 0x80)
  | [b₀, b₁, b₂, b₃, b₄] =>
    ((((b₀.val - 0xf8) * 64 + (b₁.val - 0x80)) * 64 + (b₂.val - 0x80)) * 64 + (b₃.val - 0x80)) *
      64 + (b₄.val - 0x80)
  | [b₀, b₁, b₂, b₃, b₄, b₅] =>
    (((((b₀.val - 0xfc) * 64 + (b₁.val - 0x80)) * 64 + (b₂.val - 0x80)) * 64 + (b₃.val - 0x80)) *
      64 + (b₄.val - 0x80)) * 64 + (b₅.val - 0x80)
  | _ => 0

section Values

variable (b₀ b₁ b₂ b₃ b₄ b₅ : Byte)

theorem utf8Value_two : utf8Value [b₀, b₁] = (b₀.val - 0xc0) * 64 + (b₁.val - 0x80) := rfl

theorem utf8Value_three : utf8Value [b₀, b₁, b₂] =
    ((b₀.val - 0xe0) * 64 + (b₁.val - 0x80)) * 64 + (b₂.val - 0x80) := rfl

theorem utf8Value_four : utf8Value [b₀, b₁, b₂, b₃] =
    (((b₀.val - 0xf0) * 64 + (b₁.val - 0x80)) * 64 + (b₂.val - 0x80)) * 64 + (b₃.val - 0x80) := rfl

theorem utf8Value_five : utf8Value [b₀, b₁, b₂, b₃, b₄] =
    ((((b₀.val - 0xf8) * 64 + (b₁.val - 0x80)) * 64 + (b₂.val - 0x80)) * 64 + (b₃.val - 0x80)) *
      64 + (b₄.val - 0x80) := rfl

theorem utf8Value_six : utf8Value [b₀, b₁, b₂, b₃, b₄, b₅] =
    (((((b₀.val - 0xfc) * 64 + (b₁.val - 0x80)) * 64 + (b₂.val - 0x80)) * 64 + (b₃.val - 0x80)) *
      64 + (b₄.val - 0x80)) * 64 + (b₅.val - 0x80) := rfl

end Values

/-- The first byte announces the others. -/
def Utf8Shape : List Byte → Prop
  | [b₀] => b₀.val < 0x80
  | [b₀, b₁] => (0xc0 ≤ b₀.val ∧ b₀.val < 0xe0) ∧ IsTail b₁
  | [b₀, b₁, b₂] => (0xe0 ≤ b₀.val ∧ b₀.val < 0xf0) ∧ IsTail b₁ ∧ IsTail b₂
  | [b₀, b₁, b₂, b₃] => (0xf0 ≤ b₀.val ∧ b₀.val < 0xf8) ∧ IsTail b₁ ∧ IsTail b₂ ∧ IsTail b₃
  | [b₀, b₁, b₂, b₃, b₄] =>
    (0xf8 ≤ b₀.val ∧ b₀.val < 0xfc) ∧ IsTail b₁ ∧ IsTail b₂ ∧ IsTail b₃ ∧ IsTail b₄
  | [b₀, b₁, b₂, b₃, b₄, b₅] =>
    (0xfc ≤ b₀.val ∧ b₀.val < 0xfe) ∧ IsTail b₁ ∧ IsTail b₂ ∧ IsTail b₃ ∧ IsTail b₄ ∧ IsTail b₅
  | _ => False

/-- The least character that needs so many bytes. -/
def utf8Least : Nat → Nat
  | 2 => 0x80
  | 3 => 0x800
  | 4 => 0x10000
  | 5 => 0x200000
  | 6 => 0x4000000
  | _ => 0

/-- The bytes are the form of the character in the table of UTF-8, one to six bytes long and no
longer than it has to be. -/
structure Utf8Form (bs : List Byte) (c : YogChar) : Prop where
  shape : Utf8Shape bs
  value : c.val = utf8Value bs
  shortest : utf8Least bs.length ≤ c.val

/-- A well-formed sequence of bytes, with the characters it spells. -/
inductive Spells : List Byte → List YogChar → Prop
  | nil : Spells [] []
  | cons {b c bs cs} : Utf8Form b c → Spells bs cs → Spells (b ++ bs) (c :: cs)

theorem Utf8Form.unique {bs : List Byte} {c d : YogChar} (h : Utf8Form bs c) (h' : Utf8Form bs d) :
    c = d := Fin.ext (h.value.trans h'.value.symm)

theorem isTail_utf8Tail (c k : Nat) : IsTail (utf8Tail c k) := by
  unfold IsTail
  rw [utf8Tail_val]
  omega

/-- The bits down to the `k`th are those down to six further up and six more. -/
theorem horner (c k : Nat) : c / 2 ^ (k + 6) * 64 + ((utf8Tail c k).val - 0x80) = c / 2 ^ k := by
  rw [utf8Tail_val, Nat.add_sub_cancel_left, Nat.pow_add, ← Nat.div_div_eq_div_mul]
  exact Nat.div_add_mod' _ 64

/-- Every character below `2 ^ 31` is encoded in its form. -/
theorem utf8Form_convCharFromYog {c : YogChar} (hc : c.val < 2 ^ 31) :
    Utf8Form (utf8ConvCharFromYog c) c := by
  have h₀ : c.val / 2 ^ 6 * 64 + ((utf8Tail c.val 0).val - 0x80) = c.val := by
    have h := horner c.val 0
    rwa [Nat.pow_zero, Nat.div_one] at h
  have h₆ : c.val / 2 ^ 12 * 64 + ((utf8Tail c.val 6).val - 0x80) = c.val / 2 ^ 6 := horner c.val 6
  have h₁₂ : c.val / 2 ^ 18 * 64 + ((utf8Tail c.val 12).val - 0x80) = c.val / 2 ^ 12 :=
    horner c.val 12
  have h₁₈ : c.val / 2 ^ 24 * 64 + ((utf8Tail c.val 18).val - 0x80) = c.val / 2 ^ 18 :=
    horner c.val 18
  have h₂₄ : c.val / 2 ^ 30 * 64 + ((utf8Tail c.val 24).val - 0x80) = c.val / 2 ^ 24 :=
    horner c.val 24
  have ht := isTail_utf8Tail c.val
  rcases utf8ConvCharFromYog_cases c with ⟨hr, b, he, hb⟩ | ⟨hr, b, he, hb⟩ | ⟨hr, b, he, hb⟩ |
    ⟨hr, b, he, hb⟩ | ⟨hr, b, he, hb⟩ | ⟨hr, b, he, hb⟩ <;> rw [he]
  · exact ⟨show b.val < 0x80 by omega, hb.symm, Nat.zero_le _⟩
  · refine ⟨⟨by omega, ht 0⟩, ?_, hr.1⟩
    rw [utf8Value_two, hb, Nat.add_sub_cancel_left, h₀]
  · refine ⟨⟨by omega, ht 6, ht 0⟩, ?_, hr.1⟩
    rw [utf8Value_three, hb, Nat.add_sub_cancel_left, h₆, h₀]
  · refine ⟨⟨by omega, ht 12, ht 6, ht 0⟩, ?_, hr.1⟩
    rw [utf8Value_four, hb, Nat.add_sub_cancel_left, h₁₂, h₆, h₀]
  · refine ⟨⟨by omega, ht 18, ht 12, ht 6, ht 0⟩, ?_, hr.1⟩
    rw [utf8Value_five, hb, Nat.add_sub_cancel_left, h₁₈, h₁₂, h₆, h₀]
  · refine ⟨⟨by omega, ht 24, ht 18, ht 12, ht 6, ht 0⟩, ?_, hr⟩
    rw [utf8Value_six, hb, Nat.add_sub_cancel_left, h₂₄, h₁₈, h₁₂, h₆, h₀]

/-- Where six bits are split off at the end, they are those of the encoder's byte. -/
theorem split_tail {c k l v : Nat} {b : Byte} (hl : k + 6 = l) (ht : IsTail b)
    (h : c / 2 ^ k = v * 64 + (b.val - 0x80)) : c / 2 ^ l = v ∧ b = utf8Tail c k := by
  obtain ⟨h₁, h₂⟩ := ht
  subst hl
  constructor
  · rw [Nat.pow_add, ← Nat.div_div_eq_div_mul, h]
    omega
  · apply Fin.ext
    rw [utf8Tail_val, h]
    omega

theorem split_last {c v : Nat} {b : Byte} (ht : IsTail b) (h : c = v * 64 + (b.val - 0x80)) :
    c / 2 ^ 6 = v ∧ b = utf8Tail c 0 := by
  refine split_tail (k := 0) rfl ht ?_
  rw [Nat.pow_zero, Nat.div_one, ← h]

/-- A form is what the encoder writes for its character. -/
theorem Utf8Form.eq_encoded : ∀ {bs : List Byte} {c : YogChar}, Utf8Form bs c →
    bs = utf8ConvCharFromYog c ∧ c.val < 2 ^ 31
  | [], _, h => h.shape.elim
  | [b₀], c, h => by
    have hs : b₀.val < 0x80 := h.shape
    have hv : c.val = b₀.val := h.value
    obtain ⟨b, he, hb⟩ := utf8_one (show c.val < 0x80 by omega)
    rw [he, show b = b₀ from Fin.ext (by omega)]
    exact ⟨rfl, by omega⟩
  | [b₀, b₁], c, h => by
    obtain ⟨hs, t₁⟩ := h.shape
    have hv := h.value
    rw [utf8Value_two] at hv
    have hl : 0x80 ≤ c.val := h.shortest
    obtain ⟨v₁, e₁⟩ := split_last t₁ hv
    obtain ⟨b, he, hb⟩ := utf8_two hl (by omega)
    rw [he, ← e₁, show b = b₀ from Fin.ext (by omega)]
    exact ⟨rfl, by omega⟩
  | [b₀, b₁, b₂], c, h => by
    obtain ⟨hs, t₁, t₂⟩ := h.shape
    have hv := h.value
    rw [utf8Value_three] at hv
    have hl : 0x800 ≤ c.val := h.shortest
    obtain ⟨v₂, e₂⟩ := split_last t₂ hv
    obtain ⟨v₁, e₁⟩ := split_tail (l := 12) rfl t₁ v₂
    obtain ⟨b, he, hb⟩ := utf8_three hl (by omega)
    rw [he, ← e₁, ← e₂, show b = b₀ from Fin.ext (by omega)]
    exact ⟨rfl, by omega⟩
  | [b₀, b₁, b₂, b₃], c, h => by
    obtain ⟨hs, t₁, t₂, t₃⟩ := h.shape
    have hv := h.value
    rw [utf8Value_four] at hv
    have hl : 0x10000 ≤ c.val := h.shortest
    obtain ⟨v₃, e₃⟩ := split_last t₃ hv
    obtain ⟨v₂, e₂⟩ := split_tail (l := 12) rfl t₂ v₃
    obtain ⟨v₁, e₁⟩ := split_tail (l := 18) rfl t₁ v₂
    clear hv v₃ v₂
    obtain ⟨b, he, hb⟩ := utf8_four hl (by omega)
    rw [he, ← e₁, ← e₂, ← e₃, show b = b₀ from Fin.ext (by omega)]
    exact ⟨rfl, by omega⟩
  | [b₀, b₁, b₂, b₃, b₄], c, h => by
    obtain ⟨hs, t₁, t₂, t₃, t₄⟩ := h.shape
    have hv := h.value
    rw [utf8Value_five] at hv
    have hl : 0x200000 ≤ c.val := h.shortest
    obtain ⟨v₄, e₄⟩ := split_last t₄ hv
    obtain ⟨v₃, e₃⟩ := split_tail (l := 12) rfl t₃ v₄
    obtain ⟨v₂, e₂⟩ := split_tail (l := 18) rfl t₂ v₃
    obtain ⟨v₁, e₁⟩ := split_tail (l := 24) rfl t₁ v₂
    clear hv v₄ v₃ v₂
    obtain ⟨b, he, hb⟩ := utf8_five hl (by omega)
    rw [he, ← e₁, ← e₂, ← e₃, ← e₄, show b = b₀ from Fin.ext (by omega)]
    exact ⟨rfl, by omega⟩
  | [b₀, b₁, b₂, b₃, b₄, b₅], c, h => by
    obtain ⟨hs, t₁, t₂, t₃, t₄, t₅⟩ := h.shape
    have hv := h.value
    rw [utf8Value_six] at hv
    have hl : 0x4000000 ≤ c.val := h.shortest
    obtain ⟨v₅, e₅⟩ := split_last t₅ hv
    obtain ⟨v₄, e₄⟩ := split_tail (l := 12) rfl t₄ v₅
    obtain ⟨v₃, e₃⟩ := split_tail (l := 18) rfl t₃ v₄
    obtain ⟨v₂, e₂⟩ := split_tail (l := 24) rfl t₂ v₃
    obtain ⟨v₁, e₁⟩ := split_tail (l := 30) rfl t₁ v₂
    clear hv v₅ v₄ v₃ v₂
    obtain ⟨b, he, hb⟩ := utf8_six hl
    rw [he, ← e₁, ← e₂, ← e₃, ← e₄, ← e₅, show b = b₀ from Fin.ext (by omega)]
    exact ⟨rfl, by omega⟩
  | _ :: _ :: _ :: _ :: _ :: _ :: _ :: _, _, h => h.shape.elim

theorem Spells.eq_encoded {bs : List Byte} {cs : List YogChar} (h : Spells bs cs) :
    bs = utf8.convFromYog cs ∧ ∀ c ∈ cs, c.val < 2 ^ 31 := by
  induction h with
  | nil => exact ⟨rfl, nofun⟩
  | @cons b c bs cs hf _ ih =>
    obtain ⟨hb, hc⟩ := hf.eq_encoded
    rw [Encoding.convFromYog_cons, List.forall_mem_cons]
    exact ⟨hb ▸ ih.1 ▸ rfl, hc, ih.2⟩

/-- Strings of characters below `2 ^ 31` are told apart by their bytes. -/
theorem convFromYog_inj : ∀ {cs ds : List YogChar}, (∀ c ∈ cs, c.val < 2 ^ 31) →
    (∀ d ∈ ds, d.val < 2 ^ 31) → utf8.convFromYog cs = utf8.convFromYog ds → cs = ds
  | [], [], _, _, _ => rfl
  | [], d :: ds, _, _, h => by
    rw [Encoding.convFromYog_cons] at h
    exact absurd (List.append_eq_nil_iff.1 h.symm).1 (utf8_reads.nonempty d)
  | c :: cs, [], _, _, h => by
    rw [Encoding.convFromYog_cons] at h
    exact absurd (List.append_eq_nil_iff.1 h).1 (utf8_reads.nonempty c)
  | c :: cs, d :: ds, hc, hd, h => by
    rw [List.forall_mem_cons] at hc hd
    rw [Encoding.convFromYog_cons, Encoding.convFromYog_cons] at h
    have hlen : (utf8.convCharFromYog c).length = (utf8.convCharFromYog d).length := by
      rw [← utf8_reads.bytes c (utf8.convFromYog cs), h, utf8_reads.bytes]
    obtain ⟨hchar, hrest⟩ := List.append_inj h hlen
    have hd' := utf8Form_convCharFromYog hd.1
    rw [← show utf8ConvCharFromYog c = utf8ConvCharFromYog d from hchar] at hd'
    rw [(utf8Form_convCharFromYog hc.1).unique hd', convFromYog_inj hc.2 hd.2 hrest]

theorem convToYog_convFromYog_iff (cs : List YogChar) :
    utf8.convToYog (utf8.convFromYog cs) = cs ↔ ∀ c ∈ cs, ReadsBack c := by
  rw [utf8_reads.convToYog_convFromYog, map_utf8Read_eq_iff]

theorem convFromYog_convToYog_iff {bs : List Byte} {cs : List YogChar} (h : Spells bs cs) :
    utf8.convFromYog (utf8.convToYog bs) = bs ↔ ∀ c ∈ cs, ReadsBack c := by
  obtain ⟨rfl, hlt⟩ := h.eq_encoded
  rw [utf8_reads.convToYog_convFromYog, ← map_utf8Read_eq_iff]
  constructor
  · refine convFromYog_inj ?_ hlt
    rw [List.forall_mem_map]
    exact fun c hc => utf8Read_lt (hlt c hc)
  · intro heq
    rw [heq]

/-- Characters come back from their bytes, and well-formed bytes from their characters, when the
decoder is right about each of the characters. -/
theorem utf8_roundTrip_iff (cs : List YogChar) (bs : List Byte) :
    (utf8.convToYog (utf8.convFromYog cs) = cs ↔ ∀ c ∈ cs, ReadsBack c) ∧
      (Spells bs cs → (utf8.convFromYog (utf8.convToYog bs) = bs ↔ ∀ c ∈ cs, ReadsBack c)) :=
  ⟨convToYog_convFromYog_iff cs, convFromYog_convToYog_iff⟩

/-- The bytes of `aé` are well-formed and come back. -/
theorem utf8_roundTrip_latin :
    Spells [toByte 0x61, toByte 0xc3, toByte 0xa9] [toYogChar 0x61, toYogChar 0xe9] ∧
      utf8.convFromYog (utf8.convToYog [toByte 0x61, toByte 0xc3, toByte 0xa9]) =
        [toByte 0x61, toByte 0xc3, toByte 0xa9] := by
  have hs : Spells [toByte 0x61, toByte 0xc3, toByte 0xa9] [toYogChar 0x61, toYogChar 0xe9] :=
    .cons (b := [toByte 0x61]) ⟨show 0x61 < 0x80 by decide, rfl, by decide⟩
      (.cons (b := [toByte 0xc3, toByte 0xa9])
        ⟨⟨by decide, show 0x80 ≤ 0xa9 ∧ 0xa9 < 0xc0 by decide⟩, rfl, by decide⟩ .nil)
  refine ⟨hs, ((utf8_roundTrip_iff _ _).2 hs).2 ?_⟩
  rw [List.forall_mem_cons, List.forall_mem_singleton]
  exact ⟨.inl (by decide), .inl (by decide)⟩

/-- `U+1F600`, a character of four bytes, is decoded as another one. -/
theorem not_utf8_roundTrip :
    ¬ ((∀ cs, utf8.convToYog (utf8.convFromYog cs) = cs) ∧
      ∀ bs cs, Spells bs cs → utf8.convFromYog (utf8.convToYog bs) = bs) := by
  rintro ⟨h, -⟩
  have h₁ := congrArg (List.map Fin.val) (h [toYogChar 0x1f600])
  revert h₁
  decide +kernel

end Yog
