import Mathlib.Data.Int.Bitwise
import Mathlib.Data.Nat.Bitwise

/-!
# Two's complement and magnitudes

The bits of a word are the bits of the integer it holds, so an operator on words is the operator on
the expansions. A magnitude has other bits than its negation: adding one flips the bits under and at
the lowest clear one (`testBit_add_one`).
-/

namespace Yog

namespace Lib

theorem getLsbD_ofInt (w : ℕ) (z : ℤ) (i : ℕ) :
    (BitVec.ofInt w z).getLsbD i = (decide (i < w) && z.testBit i) := by
  rcases z with m | m
  · show (BitVec.ofInt w m).getLsbD i = (_ && m.testBit i)
    rw [BitVec.ofInt_natCast, BitVec.getLsbD_ofNat]
  · show _ = (_ && !m.testBit i)
    rw [BitVec.ofInt_negSucc_eq_not_ofNat, BitVec.getLsbD_not, BitVec.getLsbD_ofNat]
    by_cases h : i < w
    · rw [decide_eq_true h, Bool.true_and, Bool.true_and, Bool.true_and]
    · rw [decide_eq_false h, Bool.false_and, Bool.false_and]

theorem ofInt_and (w : ℕ) (x y : ℤ) :
    BitVec.ofInt w x &&& BitVec.ofInt w y = BitVec.ofInt w (x.land y) := by
  apply BitVec.eq_of_getLsbD_eq
  intro i hi
  rw [BitVec.getLsbD_and]
  simp only [getLsbD_ofInt, Int.testBit_land, decide_eq_true hi, Bool.true_and]

theorem ofInt_or (w : ℕ) (x y : ℤ) :
    BitVec.ofInt w x ||| BitVec.ofInt w y = BitVec.ofInt w (x.lor y) := by
  apply BitVec.eq_of_getLsbD_eq
  intro i hi
  rw [BitVec.getLsbD_or]
  simp only [getLsbD_ofInt, Int.testBit_lor, decide_eq_true hi, Bool.true_and]

theorem ofInt_xor (w : ℕ) (x y : ℤ) :
    BitVec.ofInt w x ^^^ BitVec.ofInt w y = BitVec.ofInt w (x.xor y) := by
  apply BitVec.eq_of_getLsbD_eq
  intro i hi
  rw [BitVec.getLsbD_xor]
  simp only [getLsbD_ofInt, Int.testBit_lxor, decide_eq_true hi, Bool.true_and]

theorem lnot_eq (z : ℤ) : z.lnot = -z - 1 := by
  rcases z with m | m
  · show Int.negSucc m = -(m : ℤ) - 1
    omega
  · show (m : ℤ) = -Int.negSucc m - 1
    omega

theorem ofInt_not (w : ℕ) (z : ℤ) : ~~~BitVec.ofInt w z = BitVec.ofInt w (-z - 1) := by
  rw [← lnot_eq]
  apply BitVec.eq_of_getLsbD_eq
  intro i hi
  rw [BitVec.getLsbD_not]
  simp only [getLsbD_ofInt, Int.testBit_lnot, decide_eq_true hi, Bool.true_and]

/-- `z` fits into `w` bits and a sign. -/
def InWidth (w : ℕ) : ℤ → Prop
  | .ofNat m => m < 2 ^ w
  | .negSucc m => m < 2 ^ w

theorem inWidth_iff (w : ℕ) (z : ℤ) : InWidth w z ↔ -2 ^ w ≤ z ∧ z < 2 ^ w := by
  have hw : ((2 ^ w : ℕ) : ℤ) = 2 ^ w := Int.natCast_pow 2 w
  rcases z with m | m
  · show m < 2 ^ w ↔ -2 ^ w ≤ (m : ℤ) ∧ (m : ℤ) < 2 ^ w
    omega
  · show m < 2 ^ w ↔ -2 ^ w ≤ Int.negSucc m ∧ Int.negSucc m < 2 ^ w
    omega

theorem InWidth.mono {v w : ℕ} {z : ℤ} (h : InWidth v z) (hvw : v ≤ w) : InWidth w z := by
  have hpow : 2 ^ v ≤ 2 ^ w := Nat.pow_le_pow_right (by decide) hvw
  rcases z with m | m <;> exact lt_of_lt_of_le h hpow

/-- From the width on, every bit is that of the sign. -/
theorem InWidth.testBit {w : ℕ} {z : ℤ} (h : InWidth w z) {i : ℕ} (hi : w ≤ i) :
    z.testBit i = decide (z < 0) := by
  have hpow : 2 ^ w ≤ 2 ^ i := Nat.pow_le_pow_right (by decide) hi
  rcases z with m | m
  · rw [decide_eq_false (by simp)]
    exact Nat.testBit_lt_two_pow (lt_of_lt_of_le h hpow)
  · rw [decide_eq_true (Int.negSucc_lt_zero m)]
    show (!m.testBit i) = true
    rw [Nat.testBit_lt_two_pow (lt_of_lt_of_le h hpow)]
    rfl

variable {w : ℕ} {x y : ℤ}

theorem InWidth.land (hx : InWidth w x) (hy : InWidth w y) : InWidth w (x.land y) := by
  rcases x with m | m <;> rcases y with n | n
  · exact Nat.bitwise_lt_two_pow hx hy
  · exact Nat.bitwise_lt_two_pow hx hy
  · exact Nat.bitwise_lt_two_pow hy hx
  · exact Nat.bitwise_lt_two_pow hx hy

theorem InWidth.lor (hx : InWidth w x) (hy : InWidth w y) : InWidth w (x.lor y) := by
  rcases x with m | m <;> rcases y with n | n
  · exact Nat.bitwise_lt_two_pow hx hy
  · exact Nat.bitwise_lt_two_pow hy hx
  · exact Nat.bitwise_lt_two_pow hx hy
  · exact Nat.bitwise_lt_two_pow hx hy

theorem InWidth.xor (hx : InWidth w x) (hy : InWidth w y) : InWidth w (x.xor y) := by
  rcases x with m | m <;> rcases y with n | n <;> exact Nat.bitwise_lt_two_pow hx hy

/-- The successor differs at the bits whose power divides it. -/
theorem testBit_add_one (n i : ℕ) :
    (n + 1).testBit i = (n.testBit i ^^ decide (2 ^ i ∣ n + 1)) := by
  rw [Nat.testBit_eq_decide_div_mod_eq, Nat.testBit_eq_decide_div_mod_eq, Nat.succ_div]
  by_cases hd : 2 ^ i ∣ n + 1
  · rw [if_pos hd, decide_eq_true hd, Bool.xor_true, ← decide_not, decide_eq_decide]
    omega
  · rw [if_neg hd, decide_eq_false hd, Bool.xor_false, Nat.add_zero]

/-- A natural number has the same bits in common with a magnitude as with its negation when each of
its bits is of a power that divides the magnitude. -/
theorem and_eq_ldiff_iff (m n : ℕ) :
    m &&& (n + 1) = Nat.ldiff m n ↔ ∀ i, m.testBit i = true → 2 ^ i ∣ n + 1 := by
  have hbit : ∀ i, (m &&& (n + 1)).testBit i = (Nat.ldiff m n).testBit i ↔
      (m.testBit i = true → 2 ^ i ∣ n + 1) := by
    intro i
    rw [Nat.testBit_and, testBit_add_one, Nat.testBit_ldiff]
    by_cases hd : 2 ^ i ∣ n + 1
    · simp [hd]
    · cases m.testBit i <;> simp [hd]
  constructor
  · intro h i
    rw [← hbit, h]
  · intro h
    apply Nat.eq_of_testBit_eq
    intro i
    exact (hbit i).2 (h i)

/-- Two magnitudes differ where their negations do when they have the same powers of two. -/
theorem xor_add_one_iff (m n : ℕ) :
    (m + 1) ^^^ (n + 1) = m ^^^ n ↔ ∀ i, 2 ^ i ∣ m + 1 ↔ 2 ^ i ∣ n + 1 := by
  have hbit : ∀ i, ((m + 1) ^^^ (n + 1)).testBit i = (m ^^^ n).testBit i ↔
      (2 ^ i ∣ m + 1 ↔ 2 ^ i ∣ n + 1) := by
    intro i
    rw [Nat.testBit_xor, Nat.testBit_xor, testBit_add_one, testBit_add_one]
    by_cases hm : 2 ^ i ∣ m + 1 <;> by_cases hn : 2 ^ i ∣ n + 1 <;>
      cases m.testBit i <;> cases n.testBit i <;> simp [hm, hn]
  constructor
  · intro h i
    rw [← hbit, h]
  · intro h
    apply Nat.eq_of_testBit_eq
    intro i
    exact (hbit i).2 (h i)

end Lib

end Yog
