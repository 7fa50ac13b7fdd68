import Yog.Proofs.Arithmetic
import Mathlib.Algebra.Order.Ring.Int

/-!
# The division law

Two Fixnums are divided by the `div` of the C library, which takes `int`s, and their remainder is
the one of C, with the sign of the dividend. Any other pair is divided by magnitudes; the quotient
of two signs is always one further down, and the remainder is `a - |q| * |b|` whatever the signs.
-/

namespace Yog

/-- A floor remainder has the sign of the divisor and is smaller. -/
theorem fmod_spec (a : Int) {b : Int} (hb : b ≠ 0) :
    a.fmod b = 0 ∨ ((a.fmod b).sign = b.sign ∧ (a.fmod b).natAbs < b.natAbs) := by
  by_cases h₀ : a.fmod b = 0
  · exact .inl h₀
  · right
    rcases Int.lt_or_gt_of_ne hb with hneg | hpos
    · have hflip : a.fmod b = -(-a).fmod (-b) := by rw [Int.neg_fmod_neg, Int.neg_neg]
      have h₁ := Int.fmod_nonneg_of_pos (-a) (b := -b) (by omega)
      have h₂ := Int.fmod_lt_of_pos (-a) (b := -b) (by omega)
      rw [Int.sign_eq_neg_one_of_neg hneg, Int.sign_eq_neg_one_of_neg (by omega)]
      omega
    · have h₁ := Int.fmod_nonneg_of_pos a hpos
      have h₂ := Int.fmod_lt_of_pos a hpos
      rw [Int.sign_eq_one_of_pos hpos, Int.sign_eq_one_of_pos (by omega)]
      omega

namespace Integer

/-- Division by zero is refused; otherwise the quotient is the floor, the remainder completes it,
has the sign of the divisor, and both are canonical. -/
def DivisionLaw (a b : Integer) : Prop :=
  if b.toInt = 0 then
    (∃ m, a.floorDivide b = .error (.zeroDivisionError m)) ∧
      ∃ m, a.modulo b = .error (.zeroDivisionError m)
  else
    ∃ q r, a.floorDivide b = .ok q ∧ a.modulo b = .ok r ∧
      a.toInt = q.toInt * b.toInt + r.toInt ∧ q.toInt = a.toInt.fdiv b.toInt ∧
      (r.toInt = 0 ∨ (r.toInt.sign = b.toInt.sign ∧ r.toInt.natAbs < b.toInt.natAbs)) ∧
      q.Canonical ∧ r.Canonical

theorem divisionLaw_iff_represents {a b : Integer} (hb : b.toInt ≠ 0) :
    a.DivisionLaw b ↔ ∃ q r, a.floorDivide b = .ok q ∧ a.modulo b = .ok r ∧
      q.Represents (a.toInt.fdiv b.toInt) ∧ r.Represents (a.toInt.fmod b.toInt) := by
  unfold DivisionLaw
  rw [if_neg hb]
  have hlaw := Int.fdiv_mul_add_fmod a.toInt b.toInt
  constructor
  · rintro ⟨q, r, hq, hr, heq, hfl, -, hcq, hcr⟩
    refine ⟨q, r, hq, hr, ⟨hfl, hcq⟩, ?_, hcr⟩
    rw [hfl] at heq
    omega
  · rintro ⟨q, r, hq, hr, ⟨hfl, hcq⟩, hrem, hcr⟩
    refine ⟨q, r, hq, hr, ?_, hfl, ?_, hcq, hcr⟩
    · rw [hfl, hrem, hlaw]
    · rw [hrem]
      exact fmod_spec a.toInt hb

theorem divisionLaw_of_ok {a b q r : Integer} (hb : b.toInt ≠ 0) (hq : a.floorDivide b = .ok q)
    (hr : a.modulo b = .ok r) : a.DivisionLaw b ↔
      q.Represents (a.toInt.fdiv b.toInt) ∧ r.Represents (a.toInt.fmod b.toInt) := by
  rw [divisionLaw_iff_represents hb]
  constructor
  · rintro ⟨q', r', hq', hr', hl⟩
    rw [hq] at hq'
    rw [hr] at hr'
    obtain rfl := Except.ok.inj hq'
    obtain rfl := Except.ok.inj hr'
    exact hl
  · intro hl
    exact ⟨q, r, hq, hr, hl⟩

end Integer

namespace Bignum

/-- The quotient before it is normalized. -/
def divided (x y : Bignum) : Bignum :=
  if x.sign = y.sign then ⟨x.num / y.num, .pos⟩ else ⟨x.num / y.num + 1, .neg⟩

theorem floorDivideWithoutNormalizing_eq (x : Bignum) {y : Bignum} (hy : y.num ≠ 0) :
    x.floorDivideWithoutNormalizing y = .ok (x.divided y) := by
  unfold floorDivideWithoutNormalizing divided
  rw [if_neg hy]
  split_ifs <;> rfl

theorem dvd_toInt_iff (x y : Bignum) : y.toInt ∣ x.toInt ↔ y.num ∣ x.num := by
  rw [← Int.natAbs_dvd_natAbs, natAbs_toInt, natAbs_toInt]

/-- The quotient of one sign is the floor. -/
theorem toInt_divided_of_eq {x y : Bignum} (h : x.sign = y.sign) :
    (x.divided y).toInt = x.toInt.fdiv y.toInt := by
  unfold divided
  rw [if_pos h, toInt_pos, Int.ofNat_fdiv]
  rcases hx : x.sign with _ | _
  · rw [toInt_of_pos hx, toInt_of_pos (h ▸ hx)]
  · rw [toInt_of_neg hx, toInt_of_neg (h ▸ hx), Int.neg_fdiv_neg]

/-- The quotient of two signs is one under the floor where the division is exact. -/
theorem toInt_divided_of_ne {x y : Bignum} (h : x.sign ≠ y.sign) (hy : y.num ≠ 0) :
    (x.divided y).toInt = x.toInt.fdiv y.toInt - if y.num ∣ x.num then 1 else 0 := by
  have hy' : (y.num : Int) ≠ 0 := by omega
  unfold divided
  rw [if_neg h, toInt_neg]
  rcases hx : x.sign with _ | _ <;> rcases hs : y.sign with _ | _
  · exact absurd (hx.trans hs.symm) h
  · rw [toInt_of_pos hx, toInt_of_neg hs, Int.fdiv_neg hy', ← Int.ofNat_fdiv]
    simp only [Int.natCast_dvd_natCast]
    split_ifs <;> omega
  · rw [toInt_of_neg hx, toInt_of_pos hs, Int.neg_fdiv, ← Int.ofNat_fdiv]
    simp only [Int.natCast_dvd_natCast, or_iff_right hy']
    split_ifs <;> omega
  · exact absurd (hx.trans hs.symm) h

theorem divided_represents_iff (x : Bignum) {y : Bignum} (hy : y.num ≠ 0) :
    (x.divided y).normalize.Represents (x.toInt.fdiv y.toInt) ↔
      x.sign = y.sign ∨ ¬ y.num ∣ x.num := by
  rw [normalize_eq, Integer.represents_ofInt]
  by_cases h : x.sign = y.sign
  · exact iff_of_true (toInt_divided_of_eq h) (.inl h)
  · rw [toInt_divided_of_ne h hy, or_iff_right h]
    split_ifs with hd
    · exact iff_of_false (by omega) (not_not_intro hd)
    · exact iff_of_true (by omega) hd

/-- The remainder as `YogBignum_modulo` makes it: the product it takes off has no sign. -/
def remainder (x y : Bignum) : Integer := x.addTwoBignum ⟨(x.divided y).num * y.num, .neg⟩

/-- Of a nonnegative dividend the remainder is right with the quotient. -/
theorem remainder_represents_of_pos {x y : Bignum} (hx : x.sign = .pos) (hy : y.num ≠ 0) :
    (x.remainder y).Represents (x.toInt.fmod y.toInt) ↔ y.sign = .pos ∨ ¬ y.num ∣ x.num := by
  have hprod : (((x.divided y).num * y.num : Nat) : Int) = (x.divided y).toInt * y.toInt := by
    unfold divided
    rw [hx]
    rcases hs : y.sign with _ | _
    · rw [if_pos rfl, toInt_pos, toInt_of_pos hs, Int.natCast_mul]
    · rw [if_neg (by decide), toInt_neg, toInt_of_neg hs, Int.neg_mul_neg, Int.natCast_mul]
  unfold remainder
  rw [addTwoBignum_eq, if_neg (by rw [hx]; exact Sign.noConfusion), Integer.represents_ofInt,
    toInt_neg, hprod, Int.fmod_def, Int.mul_comm y.toInt]
  have hyi : y.toInt ≠ 0 := by
    intro h₀
    have := natAbs_toInt y
    omega
  have hq : x.toInt + -((x.divided y).toInt * y.toInt) = x.toInt - x.toInt.fdiv y.toInt * y.toInt ↔
      (x.divided y).toInt = x.toInt.fdiv y.toInt := by
    rw [← Int.sub_eq_add_neg, Int.sub_right_inj, Int.mul_eq_mul_right_iff hyi]
  rw [hq]
  have hd := divided_represents_iff x hy
  rw [normalize_eq, Integer.represents_ofInt, hx] at hd
  rw [hd, eq_comm]

/-- Of a negative dividend the product is added, so it has to be zero. -/
theorem remainder_represents_of_neg {x y : Bignum} (hx : x.sign = .neg) (hy : y.num ≠ 0) :
    (x.remainder y).Represents (x.toInt.fmod y.toInt) ↔
      y.sign = .neg ∧ x.num < y.num ∧ ¬ Fixable x.toInt := by
  unfold remainder
  rw [addTwoBignum_eq, if_pos hx, Integer.represents_bignum, hx, toInt_neg]
  dsimp only
  rcases hs : y.sign with _ | _
  · -- A positive divisor: the quotient is at least one, the result negative.
    have hq : x.divided y = ⟨x.num / y.num + 1, .neg⟩ := by
      unfold divided
      rw [if_neg (by rw [hx, hs]; decide)]
    have hypos : 0 < y.num := Nat.pos_of_ne_zero hy
    rw [hq, toInt_of_pos hs]
    dsimp only
    have hfm := Int.fmod_nonneg_of_pos x.toInt (b := (y.num : Int)) (by exact_mod_cast hypos)
    have hmul : 0 < (x.num / y.num + 1) * y.num := Nat.mul_pos (Nat.succ_pos _) hypos
    refine iff_of_false ?_ (by rintro ⟨h, -⟩; cases h)
    rintro ⟨heq, -⟩
    omega
  · have hq : x.divided y = ⟨x.num / y.num, .pos⟩ := by
      unfold divided
      rw [if_pos (hx.trans hs.symm)]
    have hfm := Int.fmod_def x.toInt y.toInt
    rw [← toInt_divided_of_eq (hx.trans hs.symm), hq, toInt_pos, toInt_of_neg hs, toInt_of_neg hx,
      Int.neg_mul, ← Int.natCast_mul, Nat.mul_comm y.num] at hfm
    rw [hq, toInt_of_neg hx, toInt_of_neg hs, hfm]
    dsimp only
    have hzero : x.num / y.num * y.num = 0 ↔ x.num < y.num := by
      rw [Nat.mul_eq_zero, or_iff_left hy, Nat.div_eq_zero_iff, or_iff_right hy]
    rw [← hzero]
    generalize x.num / y.num * y.num = p
    constructor
    · rintro ⟨heq, hf⟩
      obtain rfl : p = 0 := by omega
      rw [Int.natCast_zero, Int.neg_zero, Int.sub_zero] at hf
      exact ⟨rfl, rfl, hf⟩
    · rintro ⟨-, rfl, hf⟩
      rw [Int.natCast_zero, Int.neg_zero, Int.sub_zero, Nat.add_zero]
      exact ⟨rfl, hf⟩

end Bignum

namespace Integer

variable (a b : Integer)

theorem denormalized_ne_zero {b : Integer} (hb : b.toInt ≠ 0) : b.denormalizeToBignum.num ≠ 0 := by
  rw [num_denormalizeToBignum]
  omega

theorem floorDivide_eq (h : ¬ (a.IsFixnum ∧ b.IsFixnum)) :
    a.floorDivide b = a.denormalizeToBignum.floorDivideBignum b.denormalizeToBignum := by
  refine eq_on_bignums _ _ ?_ (fun n y => rfl) h
  rintro x (n | y) <;> rfl

theorem modulo_eq (h : ¬ (a.IsFixnum ∧ b.IsFixnum)) :
    a.modulo b = a.denormalizeToBignum.modulo b := by
  rcases a with n | x <;> rcases b with m | y
  · exact absurd ⟨trivial, trivial⟩ h
  · rfl
  · rfl
  · rfl

/-- Whichever operand is on the left of the product, it is the product of the magnitudes. -/
theorem binopMultiply_eq (x : Bignum) :
    x.binopMultiply b = .bignum ⟨x.num * b.denormalizeToBignum.num, .pos⟩ := by
  rcases b with m | y
  · show Integer.bignum ⟨_ * _, _⟩ = _
    rw [Nat.mul_comm]
    rfl
  · rfl

theorem bignum_modulo_eq (x : Bignum) {b : Integer} (hb : b.toInt ≠ 0) :
    x.modulo b = .ok (x.remainder b.denormalizeToBignum) := by
  unfold Bignum.modulo
  rw [Bignum.floorDivideWithoutNormalizing_eq x (denormalized_ne_zero hb)]
  show Except.ok (x.binopSubtract ((x.divided _).binopMultiply b)) = _
  rw [binopMultiply_eq]
  rfl

/-- By magnitudes a zero divisor is always refused. -/
theorem divisionLaw_of_zero (h : ¬ (a.IsFixnum ∧ b.IsFixnum)) (hb : b.toInt = 0) :
    a.DivisionLaw b := by
  have hnum : b.denormalizeToBignum.num = 0 := by
    rw [num_denormalizeToBignum, hb]
    rfl
  have hw : ∀ x : Bignum, x.floorDivideWithoutNormalizing b.denormalizeToBignum =
      .error (.zeroDivisionError "Bignum division by zero") := by
    intro x
    unfold Bignum.floorDivideWithoutNormalizing
    rw [if_pos hnum]
    rfl
  unfold DivisionLaw
  rw [if_pos hb, floorDivide_eq a b h, modulo_eq a b h]
  constructor
  · refine ⟨"Bignum division by zero", ?_⟩
    unfold Bignum.floorDivideBignum
    rw [hw]
    rfl
  · refine ⟨"Bignum division by zero", ?_⟩
    unfold Bignum.modulo
    rw [hw]
    rfl

theorem divisionLaw_bignum_iff (h : ¬ (a.IsFixnum ∧ b.IsFixnum)) (hb : b.toInt ≠ 0) :
    a.DivisionLaw b ↔ (a.sign = .pos ∧ (b.sign = .pos ∨ ¬ b.toInt ∣ a.toInt)) ∨
      (a.sign = .neg ∧ b.sign = .neg ∧ a.toInt.natAbs < b.toInt.natAbs ∧ ¬ Fixable a.toInt) := by
  have hy := denormalized_ne_zero hb
  have hq : a.floorDivide b =
      .ok (a.denormalizeToBignum.divided b.denormalizeToBignum).normalize := by
    rw [floorDivide_eq a b h]
    unfold Bignum.floorDivideBignum
    rw [Bignum.floorDivideWithoutNormalizing_eq _ hy]
    rfl
  have hr := bignum_modulo_eq a.denormalizeToBignum hb
  rw [← modulo_eq a b h] at hr
  rw [divisionLaw_of_ok hb hq hr, ← toInt_denormalizeToBignum a, ← toInt_denormalizeToBignum b,
    Bignum.divided_represents_iff _ hy, Bignum.dvd_toInt_iff, Bignum.natAbs_toInt,
    Bignum.natAbs_toInt]
  unfold sign
  rcases hs : a.denormalizeToBignum.sign with _ | _
  · rw [Bignum.remainder_represents_of_pos hs hy]
    simp [eq_comm]
  · rw [Bignum.remainder_represents_of_neg hs hy]
    simp +contextual [eq_comm]

end Integer

/-- The word is an `int`. -/
def IsCInt (n : Int) : Prop := -2 ^ 31 ≤ n ∧ n ≤ 2 ^ 31 - 1

instance (n : Int) : Decidable (IsCInt n) := inferInstanceAs (Decidable (_ ∧ _))

/-- C's remainder is the floor remainder of an exact division and of operands of one sign. -/
theorem tmod_eq_fmod_iff {n m : Int} (hm : m ≠ 0) :
    n.tmod m = n.fmod m ↔ m ∣ n ∨ (n < 0 ↔ m < 0) := by
  rw [Int.fmod_eq_tmod]
  by_cases hd : m ∣ n
  · rw [if_pos hd]
    exact iff_of_true (Int.add_zero _).symm (.inl hd)
  · rw [if_neg hd, or_iff_right hd]
    split_ifs <;> omega

theorem toCInt_bounds (n : Int) : -2 ^ 31 ≤ toCInt n ∧ toCInt n ≤ 2 ^ 31 - 1 := by
  have h₁ := Int.le_bmod (x := n) (m := 2 ^ 32) (by decide)
  have h₂ := Int.bmod_lt (x := n) (m := 2 ^ 32) (by decide)
  unfold toCInt
  omega

theorem toCInt_of_isCInt {n : Int} (h : IsCInt n) : toCInt n = n := by
  unfold IsCInt at h
  exact Int.bmod_eq_of_le (by omega) (by omega)

/-- C's quotient, lowered where the remainder and the divisor differ in sign, is the floor. -/
theorem tdiv_sub_eq_fdiv (n : Int) {m : Int} (hm : m ≠ 0) :
    n.tdiv m - (if n.tmod m * m < 0 then 1 else 0) = n.fdiv m := by
  rw [Int.tdiv_eq_fdiv]
  by_cases hd : m ∣ n
  · rw [Int.tmod_eq_zero_of_dvd hd, Int.zero_mul, if_neg (Int.lt_irrefl 0), if_pos hd]
    omega
  · have hr : n.tmod m ≠ 0 := fun h => hd (Int.dvd_of_tmod_eq_zero h)
    have hneg := mul_neg_iff (a := n.tmod m) (b := m)
    rw [if_neg hd]
    rcases lt_or_ge n 0 with hn | hn
    · have hle : n.tmod m ≤ 0 := by
        rw [← Int.neg_nonneg, ← Int.neg_tmod]
        exact Int.tmod_nonneg m (by omega)
      rcases Int.lt_or_gt_of_ne hm with hneg | hpos
      · rw [Int.sign_eq_neg_one_of_neg hneg]
        split_ifs <;> omega
      · rw [Int.sign_eq_one_of_pos hpos]
        split_ifs <;> omega
    · have hle := Int.tmod_nonneg m hn
      split_ifs <;> omega

/-- The quotient of the low half is that of the word only if the word is an `int`: two words with
one low half are further apart than a divisor that is an `int` can hide. -/
theorem toCInt_fdiv_eq_iff {n m : Int} (hm : m ≠ 0) (h : IsCInt m) :
    (toCInt n).fdiv m = n.fdiv m ↔ IsCInt n := by
  refine ⟨fun hq => ?_, fun hn => by rw [toCInt_of_isCInt hn]⟩
  have hb := toCInt_bounds n
  have h₁ := Int.fdiv_mul_add_fmod (toCInt n) m
  have h₂ := Int.fdiv_mul_add_fmod n m
  have hs := fmod_spec n hm
  have hs' := fmod_spec (toCInt n) hm
  rw [hq] at h₁
  obtain ⟨k, hk⟩ : (2 ^ 32 : Int) ∣ toCInt n - n := Int.dvd_bmod_sub_self
  unfold IsCInt at h ⊢
  generalize n.fdiv m * m = p at h₁ h₂
  omega

/-- The test that lowers the quotient asks for a remainder and a divisor of two signs. -/
theorem lowers_iff (rem m : Int) :
    ((rem < 0 ∧ 0 < m) ∨ (0 < rem ∧ m < 0)) ↔ rem * m < 0 := by
  rw [mul_neg_iff]
  exact or_comm

theorem floorDivideInt_eq {n m : Int} (hm : m ≠ 0) (h : IsCInt m) : floorDivideInt n m =
    if toCInt n = -2 ^ 31 ∧ m = -1 then .error .sigfpe else .ok ((toCInt n).fdiv m) := by
  unfold floorDivideInt cDiv
  rw [if_neg hm, toCInt_of_isCInt h]
  by_cases ht : toCInt n = -2 ^ 31 ∧ m = -1
  · rw [if_pos ht, if_pos (Or.inr ht)]
    rfl
  · rw [if_neg ht, if_neg (not_or.2 ⟨hm, ht⟩), ← tdiv_sub_eq_fdiv _ hm]
    show (if _ then Except.ok _ else Except.ok _) = _
    simp only [lowers_iff]
    split_ifs
    · rfl
    · rw [Int.sub_zero]

theorem fixable_fdiv {n : Int} (hn : IsCInt n) {m : Int} (hm : m ≠ 0) : Fixable (n.fdiv m) := by
  have h := Int.natAbs_tdiv_le_natAbs n m
  rw [← tdiv_sub_eq_fdiv n hm]
  unfold IsCInt at hn
  unfold Fixable yintMin yintMax
  split_ifs <;> omega

theorem fixable_tmod (n : Fixnum) (m : Int) : Fixable (n.toInt.tmod m) := by
  have h : (n.toInt.tmod m).natAbs ≤ n.toInt.natAbs := by
    rw [Int.natAbs_tmod]
    exact Nat.mod_le _ _
  have hs := Int.sign_tmod n.toInt m
  have hn := n.fixable
  unfold Fixable yintMin yintMax at *
  rcases Int.lt_trichotomy n.toInt 0 with hneg | hz | hpos
  · have : n.toInt.tmod m ≤ 0 := by
      rw [← Int.neg_nonneg, ← Int.neg_tmod]
      exact Int.tmod_nonneg _ (by omega)
    omega
  · omega
  · have := Int.tmod_nonneg m (Int.le_of_lt hpos)
    omega

namespace Integer

/-- Of two Fixnums of which the divisor is an `int`. -/
theorem divisionLaw_fixnum_iff (n m : Fixnum) (h : IsCInt m.toInt) :
    (fixnum n).DivisionLaw (fixnum m) ↔ IsCInt n.toInt ∧ m.toInt ≠ 0 ∧
      ¬(n.toInt = -2 ^ 31 ∧ m.toInt = -1) ∧
      (m.toInt ∣ n.toInt ∨ (n.toInt < 0 ↔ m.toInt < 0)) := by
  by_cases hm : m.toInt = 0
  · refine iff_of_false ?_ (fun h => h.2.1 hm)
    unfold DivisionLaw
    rw [if_pos (show (fixnum m).toInt = 0 from hm)]
    rintro ⟨-, msg, hr⟩
    have hmod : (fixnum n).modulo (fixnum m) = .error .sigfpe := if_pos hm
    rw [hmod] at hr
    cases hr
  · have hr : (fixnum n).modulo (fixnum m) = .ok (fixnum (int2val (n.toInt.tmod m.toInt))) :=
      if_neg hm
    have hq : (fixnum n).floorDivide (fixnum m) =
        (floorDivideInt n.toInt m.toInt).map (fun z => fixnum (int2val z)) := rfl
    rw [floorDivideInt_eq hm h] at hq
    by_cases ht : toCInt n.toInt = -2 ^ 31 ∧ m.toInt = -1
    · rw [if_pos ht] at hq
      refine iff_of_false ?_ (fun hc => hc.2.2.1 ⟨toCInt_of_isCInt hc.1 ▸ ht.1, ht.2⟩)
      rw [divisionLaw_iff_represents (show (fixnum m).toInt ≠ 0 from hm)]
      rintro ⟨q, -, hok, -⟩
      rw [hq] at hok
      cases hok
    · rw [if_neg ht] at hq
      have hlow := toCInt_bounds n.toInt
      rw [divisionLaw_of_ok (show (fixnum m).toInt ≠ 0 from hm) hq hr,
        represents_fixnum (fixable_tmod n _), represents_fixnum (fixable_fdiv hlow hm),
        toInt_fixnum, toInt_fixnum, tmod_eq_fmod_iff hm, toCInt_fdiv_eq_iff hm h,
        and_iff_right hm]
      refine and_congr_right fun hn => (and_iff_right fun hc => ht ?_).symm
      rwa [toCInt_of_isCInt hn]

/-- Two Fixnums are `int`s, their quotient is one, and division is exact or of one sign; other
operands have no sign, or are divided without a product to take off. -/
def DividesWell (a b : Integer) : Prop :=
  if a.IsFixnum ∧ b.IsFixnum then
    IsCInt b.toInt ∧ IsCInt a.toInt ∧ b.toInt ≠ 0 ∧ ¬(a.toInt = -2 ^ 31 ∧ b.toInt = -1) ∧
      (b.toInt ∣ a.toInt ∨ (a.toInt < 0 ↔ b.toInt < 0))
  else
    b.toInt = 0 ∨ (a.sign = .pos ∧ (b.sign = .pos ∨ ¬ b.toInt ∣ a.toInt)) ∨
      (a.sign = .neg ∧ b.sign = .neg ∧ a.toInt.natAbs < b.toInt.natAbs ∧ ¬ Fixable a.toInt)

instance (a b : Integer) : Decidable (a.DividesWell b) := inferInstanceAs (Decidable (ite ..))

/-- When quotient and remainder are as the division law has them. Of a Fixnum divided by one that is
no `int` the low halves may have the quotient of the words. -/
theorem divisionLaw_of_dividesWell (a b : Integer) :
    (a.DividesWell b → a.DivisionLaw b) ∧
      (a.DivisionLaw b → a.DividesWell b ∨ (a.IsFixnum ∧ b.IsFixnum ∧ ¬IsCInt b.toInt)) := by
  unfold DividesWell
  by_cases h : a.IsFixnum ∧ b.IsFixnum
  · rw [if_pos h]
    obtain ⟨n, rfl⟩ := exists_fixnum h.1
    obtain ⟨m, rfl⟩ := exists_fixnum h.2
    refine ⟨fun hw => (divisionLaw_fixnum_iff n m hw.1).2 hw.2, fun hl => ?_⟩
    by_cases hm : IsCInt m.toInt
    · exact .inl ⟨hm, (divisionLaw_fixnum_iff n m hm).1 hl⟩
    · exact .inr ⟨trivial, trivial, hm⟩
  · rw [if_neg h]
    suffices a.DivisionLaw b ↔ _ from ⟨this.2, fun hl => .inl (this.1 hl)⟩
    by_cases hb : b.toInt = 0
    · exact iff_of_true (divisionLaw_of_zero a b h hb) (.inl hb)
    · rw [or_iff_right hb]
      exact divisionLaw_bignum_iff a b h hb

/-- `2 ^ 32` is zero as an `int`, so its quotient by one is zero. -/
theorem not_divisionLaw_word :
    ¬ DivisionLaw (.fixnum (int2val (2 ^ 32))) (.fixnum (int2val 1)) := fun h =>
  absurd ((divisionLaw_fixnum_iff _ _ (by decide +kernel)).1 h).1 (by decide +kernel)

end Integer

end Yog
