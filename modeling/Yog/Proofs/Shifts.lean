import Yog.Proofs.Representation
import Mathlib.Algebra.Order.Ring.Int
import Mathlib.Tactic.Positivity

/-!
# Shifts

A Bignum that is shifted left keeps its representation, one that is shifted right is not normalized,
and a negative one is always brought one further down. A Fixnum leaves its word only by way of a
Bignum.
-/

namespace Yog

theorem one_le_two_pow (w : Nat) : (1 : Int) ≤ 2 ^ w := by
  have : (0 : Int) < 2 ^ w := by positivity
  omega

theorem two_pow_split {w : Nat} (h : w ≤ 64) : (2 ^ 64 : Int) = 2 ^ (64 - w) * 2 ^ w := by
  rw [← pow_add, Nat.sub_add_cancel h]

theorem shiftRight_eq_fdiv (x : Int) (w : Nat) : x >>> w = x.fdiv (2 ^ w) := by
  rw [Int.shiftRight_eq_div_pow, Int.fdiv_eq_ediv_of_nonneg x (by positivity), Int.natCast_pow]
  rfl

namespace Bignum

theorem toInt_shiftLeft (b : Bignum) (w : Nat) :
    Bignum.toInt ⟨b.num <<< w, b.sign⟩ = b.toInt * 2 ^ w := by
  unfold toInt
  rw [Nat.shiftLeft_eq, Int.natCast_mul, Int.natCast_pow, Int.mul_assoc]
  rfl

theorem lshift_represents_iff (b : Bignum) (w : Nat) :
    (b.lshift w).Represents (b.toInt * 2 ^ w) ↔ ¬ Fixable (b.toInt * 2 ^ w) := by
  unfold lshift
  rw [Integer.represents_bignum, toInt_shiftLeft]
  exact and_iff_right rfl

/-- The magnitude of a negative one is cut and then raised, so an exact shift is one too low. -/
theorem rshift_represents_iff (b : Bignum) (w : Nat) :
    (b.rshift w).Represents (b.toInt.fdiv (2 ^ w)) ↔
      (b.sign = .neg → ¬ (2 ^ w : Int) ∣ b.toInt) ∧ ¬ Fixable (b.toInt.fdiv (2 ^ w)) := by
  have hpow : (2 ^ w : Int) = ((2 ^ w : Nat) : Int) := (Int.natCast_pow 2 w).symm
  have hne : ((2 ^ w : Nat) : Int) ≠ 0 := by
    have := one_le_two_pow w
    omega
  unfold rshift
  rcases hs : b.sign with _ | _
  · rw [if_neg Sign.noConfusion, Integer.represents_bignum, toInt_pos, toInt_of_pos hs,
      Nat.shiftRight_eq_div_pow, hpow, ← Int.ofNat_fdiv]
    exact and_congr_left fun _ => iff_of_true rfl (fun h => absurd h Sign.noConfusion)
  · rw [if_pos rfl, Integer.represents_bignum, toInt_neg, toInt_of_neg hs,
      Nat.shiftRight_eq_div_pow, hpow, Int.neg_fdiv, ← Int.ofNat_fdiv]
    refine and_congr_left fun _ => ?_
    rw [Int.dvd_neg, imp_iff_right rfl]
    simp only [or_iff_right hne]
    split_ifs with hd
    · exact iff_of_false (by omega) (not_not_intro hd)
    · exact iff_of_true (by omega) hd

end Bignum

/-- The test after the native shift lets no bits be lost. -/
theorem doLshift_guard {val : Int} {w : Nat} (hw : w < 64) :
    (wrap (val * 2 ^ w) >>> w = val ∧ Fixable (wrap (val * 2 ^ w))) ↔ Fixable (val * 2 ^ w) := by
  have hpos : (0 : Int) < 2 ^ w := by positivity
  constructor
  · rintro ⟨hback, hf⟩
    obtain ⟨k, hk⟩ : (2 ^ 64 : Int) ∣ wrap (val * 2 ^ w) - val * 2 ^ w := Int.dvd_bmod_sub_self
    have heq : wrap (val * 2 ^ w) = (val + 2 ^ (64 - w) * k) * 2 ^ w := by
      rw [Int.add_mul, Int.mul_right_comm, ← two_pow_split (by omega)]
      omega
    rw [shiftRight_eq_fdiv, heq, Int.mul_fdiv_cancel _ (by omega)] at hback
    rw [heq, hback] at hf
    exact hf
  · intro hf
    have hf' := hf
    unfold Fixable yintMin yintMax at hf'
    rw [wrap_of_le (by unfold longMin; omega) (by unfold longMax; omega), shiftRight_eq_fdiv,
      Int.mul_fdiv_cancel _ (by omega)]
    exact ⟨rfl, hf⟩

/-- A word other than zero leaves the range when it is shifted by its width. -/
theorem fixable_shifted_out {val : Int} {w : Nat} (hw : 64 ≤ w) :
    Fixable (val * 2 ^ w) ↔ val = 0 := by
  constructor
  · intro hf
    have hge : (2 ^ 64 : Int) ≤ 2 ^ w := pow_le_pow_right₀ (by decide) hw
    by_contra hne
    unfold Fixable yintMin yintMax at hf
    rcases Int.lt_or_gt_of_ne hne with hneg | hpos
    · have : val * 2 ^ w ≤ -1 * 2 ^ w := Int.mul_le_mul_of_nonneg_right (by omega) (by omega)
      omega
    · have : 1 * 2 ^ w ≤ val * 2 ^ w := Int.mul_le_mul_of_nonneg_right (by omega) (by omega)
      omega
  · rintro rfl
    rw [Int.zero_mul]
    decide

/-- `do_lshift` is right except that a zero shifted past the word becomes a Bignum. -/
theorem doLshift_represents_iff (n : Fixnum) (w : Nat) :
    (doLshift n.toInt w).Represents (n.toInt * 2 ^ w) ↔ ¬ (n.toInt = 0 ∧ 64 ≤ w) := by
  have hbig : ((Bignum.fromInt n.toInt).lshift w).Represents (n.toInt * 2 ^ w) ↔
      ¬ Fixable (n.toInt * 2 ^ w) := by
    have h := Bignum.lshift_represents_iff (Bignum.fromInt n.toInt) w
    rwa [Bignum.toInt_fromInt n.in_word.1 n.in_word.2] at h
  unfold doLshift
  by_cases hw : w < 64
  · simp only [hw, true_and, doLshift_guard hw]
    refine (iff_true_right (fun h => absurd h.2 (by omega))).2 ?_
    by_cases hf : Fixable (n.toInt * 2 ^ w)
    · have hf' := hf
      unfold Fixable yintMin yintMax at hf'
      rw [if_pos hf, wrap_of_le (by unfold longMin; omega) (by unfold longMax; omega),
        Integer.represents_fixnum hf]
    · rw [if_neg hf]
      exact hbig.2 hf
  · simp only [hw, false_and, if_false]
    rw [hbig, fixable_shifted_out (by omega), and_iff_left (by omega)]

/-- `do_rshift` is right except that a negative number shifted past the word becomes zero. -/
theorem doRshift_represents_iff (n : Fixnum) (w : Nat) :
    (doRshift n.toInt w).Represents (n.toInt.fdiv (2 ^ w)) ↔ 0 ≤ n.toInt ∨ w < 64 := by
  have hone := one_le_two_pow w
  have hn := n.fixable
  have hq := Int.fdiv_mul_add_fmod n.toInt (2 ^ w)
  have hr₁ := Int.fmod_nonneg_of_pos n.toInt (b := 2 ^ w) (by omega)
  have hr₂ := Int.fmod_lt_of_pos n.toInt (b := 2 ^ w) (by omega)
  unfold Fixable yintMin yintMax at hn
  unfold doRshift
  by_cases hw : w < 64
  · have hf : Fixable (n.toInt.fdiv (2 ^ w)) := by
      unfold Fixable yintMin yintMax
      have h := Int.natAbs_fdiv_le_natAbs n.toInt (2 ^ w)
      rcases lt_or_ge n.toInt 0 with hneg | hpos
      · have := Int.fdiv_neg_of_neg_of_pos hneg (b := 2 ^ w) (by omega)
        omega
      · omega
    rw [if_pos hw, shiftRight_eq_fdiv, Integer.represents_fixnum hf]
    exact iff_of_true rfl (.inr hw)
  · rw [if_neg hw, Integer.represents_fixnum (by decide), or_iff_left hw]
    have hge : (2 ^ 64 : Int) ≤ 2 ^ w := pow_le_pow_right₀ (by decide) (by omega)
    constructor
    · intro hz
      rw [← hz, Int.zero_mul] at hq
      omega
    · intro hpos
      exact (Int.fdiv_eq_zero_of_lt hpos (by omega)).symm

/-- What `x << n` stands for. -/
def shifted (x n : Int) : Int := if 0 ≤ n then x * 2 ^ n.toNat else x.fdiv (2 ^ (-n).toNat)

/-- `x` may be shifted left by `w`. -/
def Integer.LeftHolds (x : Integer) (w : Nat) : Prop :=
  if x.IsFixnum then ¬ (x.toInt = 0 ∧ 64 ≤ w) else ¬ Fixable (x.toInt * 2 ^ w)

/-- `x` may be shifted right by `w`. -/
def Integer.RightHolds (x : Integer) (w : Nat) : Prop :=
  if x.IsFixnum then 0 ≤ x.toInt ∨ w < 64
  else (x.sign = .neg → ¬ (2 ^ w : Int) ∣ x.toInt) ∧ ¬ Fixable (x.toInt.fdiv (2 ^ w))

namespace Integer

variable (x : Integer) (n : Fixnum)

/-- `shifted` by the count that the left branch takes. -/
theorem shifted_toNat {x n : Int} (h : 0 ≤ n) : shifted x n = x * 2 ^ n.toNat := if_pos h

/-- `shifted` by the count that the right branch takes; a count of zero belongs to both. -/
theorem shifted_neg_toNat {x n : Int} (h : n ≤ 0) : shifted x n = x.fdiv (2 ^ (-n).toNat) := by
  unfold shifted
  split_ifs with hn
  · obtain rfl : n = 0 := by omega
    show x * 2 ^ 0 = x.fdiv (2 ^ 0)
    rw [pow_zero, Int.fdiv_one, Int.mul_one]
  · rfl

theorem lshift_represents_iff : (x.lshift n).Represents (shifted x.toInt n.toInt) ↔
    if 0 < n.toInt then x.LeftHolds n.toInt.toNat else x.RightHolds (-n.toInt).toNat := by
  unfold LeftHolds RightHolds
  by_cases hn : 0 < n.toInt
  · rw [if_pos hn, shifted_toNat (by omega)]
    rcases x with m | b
    · show (if _ then _ else _ : Integer).Represents _ ↔ _
      rw [if_pos hn]
      exact doLshift_represents_iff m _
    · show (if _ then _ else _ : Integer).Represents _ ↔ _
      rw [if_pos hn]
      exact b.lshift_represents_iff _
  · rw [if_neg hn, shifted_neg_toNat (by omega)]
    rcases x with m | b
    · show (if _ then _ else _ : Integer).Represents _ ↔ _
      rw [if_neg hn]
      exact doRshift_represents_iff m _
    · show (if _ then _ else _ : Integer).Represents _ ↔ _
      rw [if_neg hn]
      exact b.rshift_represents_iff _

theorem rshift_represents_iff : (x.rshift n).Represents (shifted x.toInt (-n.toInt)) ↔
    if 0 < n.toInt then x.RightHolds n.toInt.toNat else x.LeftHolds (-n.toInt).toNat := by
  unfold LeftHolds RightHolds
  by_cases hn : 0 < n.toInt
  · rw [if_pos hn, shifted_neg_toNat (by omega), Int.neg_neg]
    rcases x with m | b
    · show (if _ then _ else _ : Integer).Represents _ ↔ _
      rw [if_pos hn]
      exact doRshift_represents_iff m _
    · show (if _ then _ else _ : Integer).Represents _ ↔ _
      rw [if_pos hn]
      exact b.rshift_represents_iff _
  · rw [if_neg hn, shifted_toNat (by omega)]
    rcases x with m | b
    · show (if _ then _ else _ : Integer).Represents _ ↔ _
      rw [if_neg hn]
      exact doLshift_represents_iff m _
    · show (if _ then _ else _ : Integer).Represents _ ↔ _
      rw [if_neg hn]
      exact b.lshift_represents_iff _

/-- Both shifts give the exact result in its canonical representation. -/
def ShiftsExact : Prop :=
  (x.lshift n).Represents (shifted x.toInt n.toInt) ∧
    (x.rshift n).Represents (shifted x.toInt (-n.toInt))

/-- When each shift is right. -/
theorem shifts_represents_iff_each :
    ((x.lshift n).Represents (shifted x.toInt n.toInt) ↔
      if 0 < n.toInt then x.LeftHolds n.toInt.toNat else x.RightHolds (-n.toInt).toNat) ∧
    ((x.rshift n).Represents (shifted x.toInt (-n.toInt)) ↔
      if 0 < n.toInt then x.RightHolds n.toInt.toNat else x.LeftHolds (-n.toInt).toNat) :=
  ⟨lshift_represents_iff x n, rshift_represents_iff x n⟩

/-- `-1 >> 64` is zero. -/
theorem not_shiftsExact_word : ¬ ShiftsExact (.fixnum (int2val (-1))) (int2val 64) := by
  rintro ⟨-, h⟩
  rw [represents_iff] at h
  revert h
  decide +kernel

end Integer

end Yog
