import Yog.Proofs.Arithmetic
import Mathlib.Algebra.Order.Ring.Basic
import Mathlib.Algebra.Order.Ring.Int

/-!
# Powers

The loop of `power_int` leaves the Fixnums exactly when the power is none, since a power that is
out of the range once stays out of it (`not_fixable_pow`). From there on, and for every Bignum, the
magnitude is raised and the sign is the one of a new Bignum.
-/

namespace Yog

theorem powerNum_eq (m num i : Nat) : powerNum m num i = num * m ^ i := by
  induction i generalizing num with
  | zero => simp [powerNum]
  | succ i ih =>
    rw [powerNum, ih, Nat.pow_succ]
    ring

theorem powerLoop_step {x : Int} (hx : Fixable x) (b : Int) :
    (¬ Fixable (wrap (x * b)) ∨ (x ≠ 0 ∧ (wrap (x * b)).tdiv x ≠ b)) ↔ ¬ Fixable (x * b) := by
  by_cases h₀ : x = 0
  · simp [h₀, wrap, Fixable, yintMin, yintMax]
  · rw [← Integer.multiplyInt_guard hx h₀]
    tauto

theorem wrap_of_fixable {n : Int} (h : Fixable n) : wrap n = n := by
  unfold Fixable yintMin yintMax at h
  exact wrap_of_le (by unfold longMin; omega) (by unfold longMax; omega)

/-- Once a power is out of the range every later one is. -/
theorem not_fixable_pow {b : Int} {k m : Nat} (h : ¬ Fixable (b ^ k)) (hm : k ≤ m) :
    ¬ Fixable (b ^ m) := by
  obtain ⟨d, rfl⟩ := Nat.exists_eq_add_of_le hm
  have hk : 2 ^ 62 ≤ b.natAbs ^ k := by
    rw [← Int.natAbs_pow]
    unfold Fixable yintMin yintMax at h
    omega
  have hb : 2 ≤ b.natAbs := by
    by_contra hlt
    have hone : b.natAbs ^ k ≤ 1 := pow_le_one₀ (Nat.zero_le _) (by omega)
    omega
  rcases d with _ | d
  · exact h
  · have hd : 2 ^ 62 * 2 ≤ (b ^ (k + (d + 1))).natAbs := by
      rw [Int.natAbs_pow, Nat.pow_add]
      exact Nat.mul_le_mul hk (hb.trans (Nat.le_self_pow (by omega) _))
    unfold Fixable yintMin yintMax
    omega

theorem powerLoop_eq (b : Int) (i k : Nat) (hk : Fixable (b ^ k)) :
    powerLoop b (b ^ k) i = if Fixable (b ^ (k + i)) then some (b ^ (k + i)) else none := by
  induction i generalizing k with
  | zero => simp [powerLoop, hk]
  | succ i ih =>
    have hstep := powerLoop_step hk b
    rw [← pow_succ] at hstep
    rw [powerLoop, ← pow_succ]
    simp only [hstep]
    by_cases h : Fixable (b ^ (k + 1))
    · rw [if_neg (not_not_intro h), wrap_of_fixable h, ih (k + 1) h, Nat.add_assoc, Nat.add_comm 1]
    · rw [if_pos h, if_neg (not_fixable_pow h (by omega))]

namespace Integer

/-- The power and the canonical representation of it. -/
def PowerExact (a : Integer) (n : Fixnum) : Prop :=
  ∃ r, a.power n = .ok (some r) ∧ r.Represents (a.toInt ^ n.toInt.toNat)

variable (n : Fixnum)

theorem power_zero (a : Integer) (hn : n.toInt = 0) :
    a.power n = .ok (some (.fixnum (int2val 1))) := by
  rcases a with x | x
  · simp only [power, powerInt, hn]
    rfl
  · simp only [power, Bignum.power, hn]
    rfl

theorem power_bignum (b : Bignum) (hn : 0 < n.toInt) :
    power (.bignum b) n = .ok (some (.bignum ⟨b.toInt.natAbs ^ n.toInt.toNat, .pos⟩)) := by
  have hk : n.toInt.toNat = n.toInt.toNat - 1 + 1 := by omega
  simp only [power, Bignum.power, if_neg (show ¬ n.toInt < 0 by omega),
    if_neg (show n.toInt ≠ 0 by omega), powerNum_eq, Bignum.clone, Bignum.natAbs_toInt]
  rw [hk, Nat.pow_succ, Nat.mul_comm, ← hk]
  rfl

theorem power_fixnum (x : Fixnum) (hn : 0 < n.toInt) :
    power (.fixnum x) n = .ok (some (if Fixable (x.toInt ^ n.toInt.toNat) then
      ofInt (x.toInt ^ n.toInt.toNat) else .bignum ⟨x.toInt.natAbs ^ n.toInt.toNat, .pos⟩)) := by
  have hloop := powerLoop_eq x.toInt (n.toInt.toNat - 1) 1 (by simpa using x.fixable)
  rw [pow_one, show 1 + (n.toInt.toNat - 1) = n.toInt.toNat by omega] at hloop
  have hbig := power_bignum n (.fromInt x.toInt) hn
  rw [Bignum.toInt_fromInt x.in_word.1 x.in_word.2] at hbig
  simp only [power, powerInt, if_neg (show ¬ n.toInt < 0 by omega),
    if_neg (show n.toInt ≠ 0 by omega), hloop]
  by_cases h : Fixable (x.toInt ^ n.toInt.toNat)
  · rw [if_pos h, if_pos h, ofInt_of_fixable h]
    rfl
  · rw [if_neg h, if_neg h]
    exact hbig

theorem pow_nonneg_or_even (x : Int) (k : Nat) : 0 ≤ x ^ k ↔ 0 ≤ x ∨ Even k := by
  rcases Nat.even_or_odd k with h | h
  · exact iff_of_true (h.pow_nonneg x) (.inr h)
  · rw [← not_lt, h.pow_neg_iff, not_lt, or_iff_left (Nat.not_even_iff_odd.2 h)]

/-- The power of the magnitude is the power when that is not negative and past the Fixnums. -/
theorem represents_powered (x : Int) (k : Nat) :
    (bignum ⟨x.natAbs ^ k, .pos⟩).Represents (x ^ k) ↔ (0 ≤ x ∨ Even k) ∧ ¬ Fixable (x ^ k) := by
  rw [represents_bignum, Bignum.toInt_pos, ← Int.natAbs_pow, ← pow_nonneg_or_even]
  refine and_congr_left' ?_
  omega

/-- Where a power comes out right: an exponent of zero, a Fixnum whose power is not a negative one
past the Fixnums, or a Bignum whose power is past them on the positive side. -/
def PowerHolds (a : Integer) (k : Nat) : Prop :=
  k = 0 ∨ (a.IsFixnum ∧ Fixable (a.toInt ^ k)) ∨ ((0 ≤ a.toInt ∨ Even k) ∧ ¬ Fixable (a.toInt ^ k))

theorem powerExact_iff (a : Integer) (hn : 0 ≤ n.toInt) :
    a.PowerExact n ↔ a.PowerHolds n.toInt.toNat := by
  unfold PowerExact PowerHolds
  rcases hn.eq_or_lt with h₀ | hpos
  · rw [power_zero n a h₀.symm, ← h₀]
    refine iff_of_true ⟨_, rfl, ?_⟩ (.inl rfl)
    rw [represents_fixnum (by decide), Int.toNat_zero, pow_zero]
  have hk : n.toInt.toNat ≠ 0 := by omega
  rw [or_iff_right hk]
  rcases a with x | b
  · simp only [power_fixnum n x hpos, Except.ok.injEq, Option.some.injEq, exists_eq_left',
      toInt_fixnum]
    by_cases h : Fixable (x.toInt ^ n.toInt.toNat)
    · rw [if_pos h, represents_ofInt]
      exact iff_of_true rfl (.inl ⟨trivial, h⟩)
    · rw [if_neg h, represents_powered]
      exact (or_iff_right fun hc => h hc.2).symm
  · simp only [power_bignum n b hpos, Except.ok.injEq, Option.some.injEq, exists_eq_left']
    exact (represents_powered b.toInt n.toInt.toNat).trans (or_iff_right fun hc => hc.1).symm

theorem powerExact_cube : PowerExact (.fixnum (int2val (-3))) (int2val 3) :=
  (powerExact_iff (int2val 3) (.fixnum (int2val (-3))) (by decide)).2
    (.inr (.inl ⟨trivial, by decide⟩))

/-- `(-2) ** 63` is positive. -/
theorem not_powerExact_odd : ¬ PowerExact (.fixnum (int2val (-2))) (int2val 63) := by
  rintro ⟨r, hr, h⟩
  rw [represents_iff] at h
  subst h
  revert hr
  decide +kernel

end Integer

end Yog
