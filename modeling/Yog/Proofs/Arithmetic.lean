import Yog.Proofs.Representation

/-!
# Addition, subtraction, multiplication, negation

Two values are added as Bignums unless both are Fixnums, and only a sum of different signs is
normalized. A product of Bignums keeps no sign and is not normalized, and a negation is never
normalized. `Integer.exact_iff` says what is left right.
-/

namespace Yog

namespace Bignum

/-- A sum of one sign is left as it is; any other is normalized. -/
theorem addTwoBignum_eq (x y : Bignum) :
    x.addTwoBignum y =
      if x.sign = y.sign then .bignum ⟨x.num + y.num, x.sign⟩ else .ofInt (x.toInt + y.toInt) := by
  obtain ⟨m, s⟩ := x
  obtain ⟨n, t⟩ := y
  unfold addTwoBignum
  rcases s with _ | _ <;> rcases t with _ | _
  · rfl
  · rw [toInt_pos, toInt_neg]
    simp only [reduceCtorEq, and_false, ↓reduceIte, normalize_eq, toInt_neg, toInt_pos]
    split_ifs <;> congr 1 <;> omega
  · rw [toInt_pos, toInt_neg]
    simp only [reduceCtorEq, and_self, ↓reduceIte, normalize_eq, toInt_neg, toInt_pos]
    split_ifs <;> congr 1 <;> omega
  · rfl

theorem addTwoBignum_comm (x y : Bignum) : x.addTwoBignum y = y.addTwoBignum x := by
  rw [addTwoBignum_eq, addTwoBignum_eq, Int.add_comm]
  by_cases h : x.sign = y.sign
  · rw [if_pos h, if_pos h.symm, h, Nat.add_comm]
  · rw [if_neg h, if_neg (Ne.symm h)]

/-- The sum of two magnitudes of one sign has the value it should have. -/
theorem toInt_add_of_sign_eq {x y : Bignum} (h : x.sign = y.sign) :
    Bignum.toInt ⟨x.num + y.num, x.sign⟩ = x.toInt + y.toInt := by
  rcases hx : x.sign with _ | _
  · rw [toInt_pos, toInt_of_pos hx, toInt_of_pos (h ▸ hx)]
    omega
  · rw [toInt_neg, toInt_of_neg hx, toInt_of_neg (h ▸ hx)]
    omega

theorem addTwoBignum_represents_iff (x y : Bignum) :
    (x.addTwoBignum y).Represents (x.toInt + y.toInt) ↔
      x.sign ≠ y.sign ∨ ¬ Fixable (x.toInt + y.toInt) := by
  rw [addTwoBignum_eq]
  by_cases h : x.sign = y.sign
  · rw [if_pos h, Integer.represents_bignum, toInt_add_of_sign_eq h]
    exact ⟨fun hr => .inr hr.2, fun hr => ⟨rfl, hr.resolve_left (not_not_intro h)⟩⟩
  · rw [if_neg h, Integer.represents_ofInt]
    exact iff_of_true rfl (.inl h)

end Bignum

namespace Integer

variable (a b : Integer)

theorem add_eq (h : ¬ (a.IsFixnum ∧ b.IsFixnum)) :
    a.add b = a.denormalizeToBignum.addTwoBignum b.denormalizeToBignum := by
  refine eq_on_bignums add _ ?_ (fun n y => Bignum.addTwoBignum_comm _ _) h
  rintro x (n | y) <;> rfl

theorem subtract_eq (h : ¬ (a.IsFixnum ∧ b.IsFixnum)) :
    a.subtract b = a.denormalizeToBignum.addTwoBignum
      ⟨b.denormalizeToBignum.num, b.denormalizeToBignum.sign.negate⟩ := by
  refine eq_on_bignums subtract (fun x y => x.addTwoBignum ⟨y.num, y.sign.negate⟩) ?_
    (fun n y => rfl) h
  rintro x (n | y) <;> rfl

theorem multiply_eq (h : ¬ (a.IsFixnum ∧ b.IsFixnum)) :
    a.multiply b = .bignum ⟨a.toInt.natAbs * b.toInt.natAbs, .pos⟩ := by
  rw [← num_denormalizeToBignum, ← num_denormalizeToBignum]
  refine eq_on_bignums multiply (fun x y => Integer.bignum (x.multiplyBignum y)) ?_
    (fun n y => rfl) h
  rintro x (n | y)
  · show Integer.bignum ⟨_ * _, _⟩ = .bignum ⟨_ * _, _⟩
    rw [Nat.mul_comm]
    rfl
  · rfl

/-- No sum or difference of two Fixnums leaves the word. -/
theorem add_fixnum (n m : Fixnum) :
    (Integer.fixnum n).add (.fixnum m) = ofInt (n.toInt + m.toInt) := by
  have hn := n.fixable
  have hm := m.fixable
  unfold Fixable yintMin yintMax at hn hm
  have h₁ : longMin ≤ n.toInt + m.toInt := by unfold longMin; omega
  have h₂ : n.toInt + m.toInt ≤ longMax := by unfold longMax; omega
  show Integer.fromInt (wrap _) = _
  rw [wrap_of_le h₁ h₂, fromInt_eq_ofInt h₁ h₂]

theorem subtract_fixnum (n m : Fixnum) :
    (Integer.fixnum n).subtract (.fixnum m) = ofInt (n.toInt - m.toInt) := by
  have hn := n.fixable
  have hm := m.fixable
  unfold Fixable yintMin yintMax at hn hm
  have h₁ : longMin ≤ n.toInt - m.toInt := by unfold longMin; omega
  have h₂ : n.toInt - m.toInt ≤ longMax := by unfold longMax; omega
  show Integer.fromInt (wrap _) = _
  rw [wrap_of_le h₁ h₂, fromInt_eq_ofInt h₁ h₂]

/-- The test after the native product lets no wrapped one through: a wrapped product is further off
than any remainder by `n`. -/
theorem multiplyInt_guard {n m : Int} (hn : Fixable n) (h₀ : n ≠ 0) :
    ((wrap (n * m)).tdiv n = m ∧ Fixable (wrap (n * m))) ↔ Fixable (n * m) := by
  constructor
  · rintro ⟨hq, hf⟩
    have hdvd : (2 ^ 64 : Int) ∣ wrap (n * m) - n * m := Int.dvd_bmod_sub_self
    have hrem := Int.tmod_add_mul_tdiv (wrap (n * m)) n
    rw [hq] at hrem
    have hlt : ((wrap (n * m)).tmod n).natAbs < n.natAbs := by
      rw [Int.natAbs_tmod]
      exact Nat.mod_lt _ (by omega)
    unfold Fixable yintMin yintMax at hn
    have heq : wrap (n * m) = n * m := by omega
    rwa [heq] at hf
  · intro hf
    have hf' := hf
    unfold Fixable yintMin yintMax at hf'
    rw [wrap_of_le (by unfold longMin; omega) (by unfold longMax; omega)]
    exact ⟨Int.mul_tdiv_cancel_left m h₀, hf⟩

theorem multiply_fixnum (n m : Fixnum) :
    (Integer.fixnum n).multiply (.fixnum m) =
      if Fixable (n.toInt * m.toInt) then ofInt (n.toInt * m.toInt)
      else .bignum ⟨n.toInt.natAbs * m.toInt.natAbs, .pos⟩ := by
  show n.multiplyInt m = _
  unfold Fixnum.multiplyInt
  by_cases h₀ : n.toInt = 0
  · rw [if_pos h₀, h₀, Int.zero_mul, if_pos (by decide), ofInt_of_fixable (by decide)]
  · simp only [if_neg h₀, multiplyInt_guard n.fixable h₀]
    by_cases hf : Fixable (n.toInt * m.toInt)
    · have hl := hf
      unfold Fixable yintMin yintMax at hl
      rw [if_pos hf, if_pos hf, ofInt_of_fixable hf,
        wrap_of_le (by unfold longMin; omega) (by unfold longMax; omega)]
    · rw [if_neg hf, if_neg hf]
      show Integer.bignum ⟨_ * _, _⟩ = _
      rw [Bignum.fromInt_eq n.in_word.1 n.in_word.2, Bignum.fromInt_eq m.in_word.1 m.in_word.2,
        Nat.mul_comm]

/-- A product of magnitudes is the product when that is past the Fixnums on the positive side. -/
theorem represents_multiplied (x y : Int) :
    (bignum ⟨x.natAbs * y.natAbs, .pos⟩).Represents (x * y) ↔ yintMax < x * y := by
  rw [represents_bignum, Bignum.toInt_pos, ← Int.natAbs_mul]
  unfold Fixable yintMin yintMax
  omega

theorem add_represents_iff : (a.add b).Represents (a.toInt + b.toInt) ↔
    (a.IsFixnum ∧ b.IsFixnum) ∨ a.sign ≠ b.sign ∨ ¬ Fixable (a.toInt + b.toInt) := by
  by_cases h : a.IsFixnum ∧ b.IsFixnum
  · obtain ⟨n, rfl⟩ := exists_fixnum h.1
    obtain ⟨m, rfl⟩ := exists_fixnum h.2
    rw [add_fixnum, represents_ofInt]
    exact iff_of_true rfl (.inl h)
  · rw [add_eq a b h, or_iff_right h, ← toInt_denormalizeToBignum a, ← toInt_denormalizeToBignum b]
    exact Bignum.addTwoBignum_represents_iff _ _

theorem negate_ne_iff (s t : Sign) : s ≠ t.negate ↔ s = t := by
  rcases s with _ | _ <;> rcases t with _ | _ <;> decide

theorem subtract_represents_iff : (a.subtract b).Represents (a.toInt - b.toInt) ↔
    (a.IsFixnum ∧ b.IsFixnum) ∨ a.sign = b.sign ∨ ¬ Fixable (a.toInt - b.toInt) := by
  by_cases h : a.IsFixnum ∧ b.IsFixnum
  · obtain ⟨n, rfl⟩ := exists_fixnum h.1
    obtain ⟨m, rfl⟩ := exists_fixnum h.2
    rw [subtract_fixnum, represents_ofInt]
    exact iff_of_true rfl (.inl h)
  · have hr := Bignum.addTwoBignum_represents_iff a.denormalizeToBignum
      ⟨b.denormalizeToBignum.num, b.denormalizeToBignum.sign.negate⟩
    rw [Bignum.toInt_negate, toInt_denormalizeToBignum, toInt_denormalizeToBignum, negate_ne_iff,
      ← Int.sub_eq_add_neg] at hr
    rw [subtract_eq a b h, or_iff_right h]
    exact hr

theorem multiply_represents_iff : (a.multiply b).Represents (a.toInt * b.toInt) ↔
    (a.IsFixnum ∧ b.IsFixnum ∧ Fixable (a.toInt * b.toInt)) ∨ yintMax < a.toInt * b.toInt := by
  by_cases h : a.IsFixnum ∧ b.IsFixnum
  · obtain ⟨n, rfl⟩ := exists_fixnum h.1
    obtain ⟨m, rfl⟩ := exists_fixnum h.2
    rw [multiply_fixnum, toInt_fixnum, toInt_fixnum]
    by_cases hf : Fixable (n.toInt * m.toInt)
    · rw [if_pos hf, represents_ofInt]
      exact iff_of_true rfl (.inl ⟨h.1, h.2, hf⟩)
    · rw [if_neg hf, or_iff_right (fun hc => hf hc.2.2)]
      exact represents_multiplied n.toInt m.toInt
  · rw [multiply_eq a b h, or_iff_right (fun hc => h ⟨hc.1, hc.2.1⟩)]
    exact represents_multiplied a.toInt b.toInt

theorem negative_represents_iff :
    a.negative.Represents (-a.toInt) ↔ (a.IsFixnum ↔ Fixable (-a.toInt)) := by
  rcases a with n | x
  · show (fixnum (int2val (wrap (-n.toInt)))).Represents (-n.toInt) ↔ (True ↔ Fixable (-n.toInt))
    have hn := n.fixable
    unfold Fixable yintMin yintMax at hn
    rw [wrap_of_le (by unfold longMin; omega) (by unfold longMax; omega), true_iff]
    constructor
    · intro hr
      rw [← show (int2val (-n.toInt)).toInt = -n.toInt from hr.1]
      exact (int2val (-n.toInt)).fixable
    · intro hf
      exact (represents_fixnum hf).2 rfl
  · show (bignum _).Represents (-x.toInt) ↔ (False ↔ Fixable (-x.toInt))
    rw [represents_bignum, Bignum.toInt_negate, false_iff]
    exact and_iff_right rfl

/-- The four operators and the sign give the exact result in its canonical representation. -/
def Exact : Prop :=
  (a.add b).Represents (a.toInt + b.toInt) ∧ (a.subtract b).Represents (a.toInt - b.toInt) ∧
    (a.multiply b).Represents (a.toInt * b.toInt) ∧ a.negative.Represents (-a.toInt) ∧
    a.positive.Represents a.toInt

theorem represents_iff_each :
    ((a.add b).Represents (a.toInt + b.toInt) ↔
      (a.IsFixnum ∧ b.IsFixnum) ∨ a.sign ≠ b.sign ∨ ¬ Fixable (a.toInt + b.toInt)) ∧
    ((a.subtract b).Represents (a.toInt - b.toInt) ↔
      (a.IsFixnum ∧ b.IsFixnum) ∨ a.sign = b.sign ∨ ¬ Fixable (a.toInt - b.toInt)) ∧
    ((a.multiply b).Represents (a.toInt * b.toInt) ↔
      (a.IsFixnum ∧ b.IsFixnum ∧ Fixable (a.toInt * b.toInt)) ∨ yintMax < a.toInt * b.toInt) ∧
    (a.negative.Represents (-a.toInt) ↔ (a.IsFixnum ↔ Fixable (-a.toInt))) ∧
    (a.positive.Represents a.toInt ↔ a.Canonical) :=
  ⟨add_represents_iff a b, subtract_represents_iff a b, multiply_represents_iff a b,
    negative_represents_iff a, and_iff_right rfl⟩

/-- The sign of a negative Bignum is lost in a product. -/
theorem not_exact_multiply :
    ¬ Exact (.fixnum (int2val 2)) (.bignum ⟨2 ^ 62 + 1, .neg⟩) := by
  rintro ⟨-, -, h, -, -⟩
  rw [represents_iff] at h
  revert h
  decide +kernel

end Integer

end Yog
