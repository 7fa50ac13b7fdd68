import Yog.Proofs.Representation

/-!
# Comparison

`<=>` of a Bignum takes any integer on its right, `<=>` of a Fixnum no Bignum. The instructions ask
`<=>` and nothing else, so they are right where it is.
-/

namespace Yog

theorem sign_sub_of_lt {x y : Int} (h : x < y) : (x - y).sign = -1 :=
  Int.sign_eq_neg_one_of_neg (by omega)

theorem sign_sub_of_gt {x y : Int} (h : y < x) : (x - y).sign = 1 :=
  Int.sign_eq_one_of_pos (by omega)

theorem sign_sub_self (x : Int) : (x - x).sign = 0 := by
  rw [Int.sub_self]
  rfl

namespace Bignum

variable (x y : Bignum)

/-- Magnitudes of one sign are compared the right way around. -/
theorem ufoBignum_of_sign_eq (h : x.sign = y.sign) : x.ufoBignum y = (x.toInt - y.toInt).sign := by
  obtain ⟨m, s⟩ := x
  obtain ⟨n, t⟩ := y
  obtain rfl : s = t := h
  unfold ufoBignum
  rw [if_neg (Int.lt_irrefl _), if_neg (Int.lt_irrefl _)]
  rcases Nat.lt_trichotomy m n with hlt | rfl | hgt
  · rw [if_pos hlt]
    rcases s with _ | _
    · rw [toInt_pos, toInt_pos, sign_sub_of_lt (by omega)]
      rfl
    · rw [toInt_neg, toInt_neg, sign_sub_of_gt (by omega)]
      rfl
  · rw [if_neg (Nat.lt_irrefl _), if_pos rfl, sign_sub_self]
  · rw [if_neg (Nat.lt_asymm hgt), if_neg (Nat.ne_of_gt hgt)]
    rcases s with _ | _
    · rw [toInt_pos, toInt_pos, sign_sub_of_gt (by omega)]
      rfl
    · rw [toInt_neg, toInt_neg, sign_sub_of_lt (by omega)]
      rfl

/-- A difference of signs decides, also where both are zero. -/
theorem ufoBignum_of_sign_ne (h : x.sign ≠ y.sign) :
    x.ufoBignum y = (x.toInt - y.toInt).sign ↔ ¬ (x.toInt = 0 ∧ y.toInt = 0) := by
  obtain ⟨m, s⟩ := x
  obtain ⟨n, t⟩ := y
  unfold ufoBignum
  rcases s with _ | _ <;> rcases t with _ | _
  · exact absurd rfl h
  · show (1 : Int) = _ ↔ _
    rw [toInt_pos, toInt_neg, eq_comm, Int.sign_eq_one_iff_pos]
    omega
  · show (-1 : Int) = _ ↔ _
    rw [toInt_pos, toInt_neg, eq_comm, Int.sign_eq_neg_one_iff_neg]
    omega
  · exact absurd rfl h

theorem ufoBignum_eq_iff : x.ufoBignum y = (x.toInt - y.toInt).sign ↔
    ¬ (x.toInt = 0 ∧ y.toInt = 0 ∧ x.sign ≠ y.sign) := by
  by_cases h : x.sign = y.sign
  · exact iff_of_true (ufoBignum_of_sign_eq x y h) (fun h' => h'.2.2 h)
  · rw [ufoBignum_of_sign_ne x y h, not_iff_not]
    exact ⟨fun h' => ⟨h'.1, h'.2, h⟩, fun h' => ⟨h'.1, h'.2.1⟩⟩

end Bignum

theorem Fixnum.ufo_eq (n m : Fixnum) :
    n.binopUfo (.fixnum m) = some (n.toInt - m.toInt).sign := by
  have hn := n.fixable
  have hm := m.fixable
  unfold Fixable yintMin yintMax at hn hm
  show (if wrap (n.toInt - m.toInt) < 0 then some (-1) else if wrap (n.toInt - m.toInt) = 0
    then some 0 else some 1) = some _
  rw [wrap_of_le (by unfold longMin; omega) (by unfold longMax; omega)]
  split_ifs with h₁ h₂
  · rw [sign_sub_of_lt (by omega)]
  · rw [h₂]
    rfl
  · rw [sign_sub_of_gt (by omega)]

namespace Integer

variable (a b : Integer)

theorem sign_fixnum_of_zero {n : Fixnum} (h : n.toInt = 0) : sign (.fixnum n) = .pos := by
  rw [sign_fixnum, h]
  rfl

/-- `<=>` is right unless a Fixnum is asked about a Bignum, or it is misled by two zeros. -/
theorem ufo_eq_iff : a.ufo b = some (a.toInt - b.toInt).sign ↔
    ¬ (a.IsFixnum ∧ ¬ b.IsFixnum) ∧ ¬ (a.toInt = 0 ∧ b.toInt = 0 ∧ a.sign ≠ b.sign) := by
  rcases a with n | x
  · rcases b with m | y
    · refine iff_of_true (n.ufo_eq m) ⟨fun h => h.2 trivial, ?_⟩
      rintro ⟨hn, hm, hs⟩
      rw [sign_fixnum_of_zero hn, sign_fixnum_of_zero hm] at hs
      exact hs rfl
    · exact iff_of_false nofun (fun h => h.1 ⟨trivial, id⟩)
  · have hb := Bignum.ufoBignum_eq_iff x b.denormalizeToBignum
    rw [toInt_denormalizeToBignum] at hb
    have hu : (Integer.bignum x).ufo b = some (x.ufoBignum b.denormalizeToBignum) := by
      rcases b with m | y <;> rfl
    rw [hu, Option.some_inj, and_iff_right (fun h => h.1.elim)]
    exact hb

variable {a b} in
/-- Where `<=>` is right each instruction answers by the order. -/
theorem instructions_of_ufo (h : a.ufo b = some (a.toInt - b.toInt).sign) :
    a.less b = .ok (decide (a.toInt < b.toInt)) ∧
      a.lessEqual b = .ok (decide (a.toInt ≤ b.toInt)) ∧
      a.greater b = .ok (decide (b.toInt < a.toInt)) ∧
      a.greaterEqual b = .ok (decide (b.toInt ≤ a.toInt)) ∧
      a.equal b = decide (a.toInt = b.toInt) ∧ a.notEqual b = decide (a.toInt ≠ b.toInt) := by
  unfold less lessEqual greater greaterEqual equal notEqual
  rw [h]
  refine ⟨congrArg Except.ok ?_, congrArg Except.ok ?_, congrArg Except.ok ?_,
    congrArg Except.ok ?_, ?_, ?_⟩ <;> rw [decide_eq_decide]
  · rw [Int.sign_neg_iff]
    omega
  · rw [Int.sign_nonpos_iff]
    omega
  · rw [Int.sign_pos_iff]
    omega
  · rw [Int.sign_nonneg_iff]
    omega
  · rw [Int.sign_eq_zero_iff_zero]
    omega
  · rw [ne_eq, Int.sign_eq_zero_iff_zero]
    omega

/-- The pair is ordered by its values, both ways around and by every instruction. -/
def OneOrder : Prop :=
  a.ufo b = some (a.toInt - b.toInt).sign ∧ b.ufo a = some (-(a.toInt - b.toInt).sign) ∧
    a.less b = .ok (decide (a.toInt < b.toInt)) ∧
    a.lessEqual b = .ok (decide (a.toInt ≤ b.toInt)) ∧
    a.greater b = .ok (decide (b.toInt < a.toInt)) ∧
    a.greaterEqual b = .ok (decide (b.toInt ≤ a.toInt)) ∧
    a.equal b = decide (a.toInt = b.toInt) ∧ a.notEqual b = decide (a.toInt ≠ b.toInt)

/-- A pair is ordered by its values when both are of one representation and not two zeros of
different signs. -/
theorem oneOrder_iff : a.OneOrder b ↔
    (a.IsFixnum ↔ b.IsFixnum) ∧ ¬ (a.toInt = 0 ∧ b.toInt = 0 ∧ a.sign ≠ b.sign) := by
  have hab := ufo_eq_iff a b
  have hba := ufo_eq_iff b a
  rw [← Int.neg_sub, Int.sign_neg] at hba
  constructor
  · rintro ⟨h₁, h₂, -⟩
    rw [hab] at h₁
    rw [hba] at h₂
    exact ⟨⟨fun h => not_not.1 fun h' => h₁.1 ⟨h, h'⟩, fun h => not_not.1 fun h' => h₂.1 ⟨h, h'⟩⟩,
      h₁.2⟩
  · rintro ⟨hf, hz⟩
    have h₁ := hab.2 ⟨fun h => h.2 (hf.1 h.1), hz⟩
    have h₂ := hba.2 ⟨fun h => h.2 (hf.2 h.1), fun h => hz ⟨h.2.1, h.1, h.2.2.symm⟩⟩
    exact ⟨h₁, h₂, instructions_of_ufo h₁⟩

/-- A Fixnum is not comparable with a Bignum. -/
theorem not_oneOrder_mixed : ¬ OneOrder (.fixnum (int2val 1)) (.bignum ⟨2 ^ 62, .pos⟩) := by
  rintro ⟨h, -⟩
  cases h

end Integer

end Yog
