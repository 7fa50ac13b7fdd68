import Yog.Lib.TwosComplement
import Yog.Proofs.Representation

/-!
# Bitwise operators

Two Fixnums are combined as the words they are. With a Bignum the magnitudes are combined and the
result has no sign, so a negative operand is read as its magnitude.
-/

namespace Yog

open Lib (InWidth)

theorem inWidth_iff_fixable (z : Int) : InWidth 62 z ↔ Fixable z := by
  rw [Lib.inWidth_iff]
  unfold Fixable yintMin yintMax
  omega

theorem toInt_ofInt_of_fixable {z : Int} (h : Fixable z) : (BitVec.ofInt 64 z).toInt = z := by
  rw [BitVec.toInt_ofInt]
  unfold Fixable yintMin yintMax at h
  exact Int.bmod_eq_of_le (by omega) (by omega)

namespace Fixnum

variable (n m : Fixnum)

theorem fixable_land : Fixable (n.toInt.land m.toInt) :=
  (inWidth_iff_fixable _).1
    (.land ((inWidth_iff_fixable _).2 n.fixable) ((inWidth_iff_fixable _).2 m.fixable))

theorem fixable_lor : Fixable (n.toInt.lor m.toInt) :=
  (inWidth_iff_fixable _).1
    (.lor ((inWidth_iff_fixable _).2 n.fixable) ((inWidth_iff_fixable _).2 m.fixable))

theorem fixable_xor : Fixable (n.toInt.xor m.toInt) :=
  (inWidth_iff_fixable _).1
    (.xor ((inWidth_iff_fixable _).2 n.fixable) ((inWidth_iff_fixable _).2 m.fixable))

theorem onWords_and : onWords (· &&& ·) n.toInt m.toInt = n.toInt.land m.toInt := by
  show (_ &&& _ : BitVec 64).toInt = _
  rw [Lib.ofInt_and]
  exact toInt_ofInt_of_fixable (n.fixable_land m)

theorem onWords_or : onWords (· ||| ·) n.toInt m.toInt = n.toInt.lor m.toInt := by
  show (_ ||| _ : BitVec 64).toInt = _
  rw [Lib.ofInt_or]
  exact toInt_ofInt_of_fixable (n.fixable_lor m)

theorem onWords_xor : onWords (· ^^^ ·) n.toInt m.toInt = n.toInt.xor m.toInt := by
  show (_ ^^^ _ : BitVec 64).toInt = _
  rw [Lib.ofInt_xor]
  exact toInt_ofInt_of_fixable (n.fixable_xor m)

end Fixnum

namespace Integer

variable (a b : Integer)

theorem and_eq (h : ¬ (a.IsFixnum ∧ b.IsFixnum)) :
    a.and b = ofInt (a.toInt.natAbs &&& b.toInt.natAbs : Nat) := by
  have hn := eq_on_bignums and Bignum.andBignum (by rintro x (n | y) <;> rfl)
    (fun n y => congrArg (fun m => Bignum.normalize ⟨m, .pos⟩) (Nat.and_comm _ _)) h
  rw [hn, ← num_denormalizeToBignum, ← num_denormalizeToBignum]
  unfold Bignum.andBignum
  rw [Bignum.normalize_eq, Bignum.toInt_pos]

theorem xor_eq (h : ¬ (a.IsFixnum ∧ b.IsFixnum)) :
    a.xor b = ofInt (a.toInt.natAbs ^^^ b.toInt.natAbs : Nat) := by
  have hn := eq_on_bignums xor Bignum.xorBignum (by rintro x (n | y) <;> rfl)
    (fun n y => congrArg (fun m => Bignum.normalize ⟨m, .pos⟩) (Nat.xor_comm _ _)) h
  rw [hn, ← num_denormalizeToBignum, ← num_denormalizeToBignum]
  unfold Bignum.xorBignum
  rw [Bignum.normalize_eq, Bignum.toInt_pos]

theorem or_eq (h : ¬ (a.IsFixnum ∧ b.IsFixnum)) :
    a.or b = .bignum ⟨a.toInt.natAbs ||| b.toInt.natAbs, .pos⟩ := by
  have hn := eq_on_bignums or Bignum.orBignum (by rintro x (n | y) <;> rfl)
    (fun n y => congrArg (fun m => Integer.bignum ⟨m, .pos⟩) (Nat.or_comm _ _)) h
  rw [hn, ← num_denormalizeToBignum, ← num_denormalizeToBignum]
  rfl

/-- Every bit of the nonnegative `x` is of a power of two that divides `y`. -/
def BitsDivide (x y : Int) : Prop := ∀ i, x.testBit i = true → 2 ^ i ∣ y

theorem two_pow_dvd_natCast (i n : Nat) : (2 ^ i : Int) ∣ (n : Int) ↔ 2 ^ i ∣ n := by
  rw [← Int.natCast_dvd_natCast, Int.natCast_pow]
  rfl

theorem two_pow_dvd_negSucc (i n : Nat) : (2 ^ i : Int) ∣ Int.negSucc n ↔ 2 ^ i ∣ n + 1 := by
  rw [← two_pow_dvd_natCast, Int.negSucc_eq, Int.dvd_neg]
  rfl

/-- The magnitudes have the conjunction of the two integers. -/
theorem natAbs_and_iff (x y : Int) : ((x.natAbs &&& y.natAbs : Nat) : Int) = x.land y ↔
    (0 ≤ x ∧ 0 ≤ y) ∨ (0 ≤ x ∧ y < 0 ∧ BitsDivide x y) ∨ (x < 0 ∧ 0 ≤ y ∧ BitsDivide y x) := by
  have hmixed : ∀ m n : Nat, m &&& (n + 1) = Nat.ldiff m n ↔ BitsDivide m (Int.negSucc n) := by
    intro m n
    rw [Lib.and_eq_ldiff_iff]
    exact forall_congr' fun i => imp_congr_right fun _ => (two_pow_dvd_negSucc i n).symm
  rcases x with m | m <;> rcases y with n | n
  · exact iff_of_true rfl (.inl ⟨Int.natCast_nonneg m, Int.natCast_nonneg n⟩)
  · have hx : ¬ Int.ofNat m < 0 := Int.not_lt.2 (Int.natCast_nonneg m)
    have hy : ¬ 0 ≤ Int.negSucc n := Int.not_le.2 (Int.negSucc_lt_zero n)
    show ((m &&& (n + 1) : Nat) : Int) = (Nat.ldiff m n : Nat) ↔ _
    rw [Int.natCast_inj, hmixed]
    simp only [hx, hy, and_false, false_and, false_or, or_false, Int.negSucc_lt_zero, true_and]
    exact (and_iff_right (Int.natCast_nonneg m)).symm
  · have hx : ¬ 0 ≤ Int.negSucc m := Int.not_le.2 (Int.negSucc_lt_zero m)
    show (((m + 1) &&& n : Nat) : Int) = (Nat.ldiff n m : Nat) ↔ _
    rw [Int.natCast_inj, Nat.and_comm, hmixed]
    simp only [hx, false_and, false_or, Int.negSucc_lt_zero, true_and]
    exact (and_iff_right (Int.natCast_nonneg n)).symm
  · have hx : ¬ 0 ≤ Int.negSucc m := Int.not_le.2 (Int.negSucc_lt_zero m)
    have hy : ¬ 0 ≤ Int.negSucc n := Int.not_le.2 (Int.negSucc_lt_zero n)
    show (((m + 1) &&& (n + 1) : Nat) : Int) = Int.negSucc (m ||| n) ↔ _
    simp only [hx, hy, false_and, and_false, or_false, iff_false]
    exact Int.noConfusion

/-- The magnitudes have the exclusive or of the two integers. -/
theorem natAbs_xor_iff (x y : Int) : ((x.natAbs ^^^ y.natAbs : Nat) : Int) = x.xor y ↔
    (0 ≤ x ∧ 0 ≤ y) ∨ (x < 0 ∧ y < 0 ∧ ∀ i : Nat, (2 ^ i : Int) ∣ x ↔ (2 ^ i : Int) ∣ y) := by
  rcases x with m | m <;> rcases y with n | n
  · exact iff_of_true rfl (.inl ⟨Int.natCast_nonneg m, Int.natCast_nonneg n⟩)
  · have hx : ¬ Int.ofNat m < 0 := Int.not_lt.2 (Int.natCast_nonneg m)
    have hy : ¬ 0 ≤ Int.negSucc n := Int.not_le.2 (Int.negSucc_lt_zero n)
    show ((m ^^^ (n + 1) : Nat) : Int) = Int.negSucc (m ^^^ n) ↔ _
    simp only [hx, hy, and_false, false_and, or_false, iff_false]
    exact Int.noConfusion
  · have hx : ¬ 0 ≤ Int.negSucc m := Int.not_le.2 (Int.negSucc_lt_zero m)
    have hy : ¬ Int.ofNat n < 0 := Int.not_lt.2 (Int.natCast_nonneg n)
    show (((m + 1) ^^^ n : Nat) : Int) = Int.negSucc (m ^^^ n) ↔ _
    simp only [hx, hy, and_false, false_and, or_false, iff_false]
    exact Int.noConfusion
  · have hx : ¬ 0 ≤ Int.negSucc m := Int.not_le.2 (Int.negSucc_lt_zero m)
    show (((m + 1) ^^^ (n + 1) : Nat) : Int) = (m ^^^ n : Nat) ↔ _
    rw [Int.natCast_inj, Lib.xor_add_one_iff]
    simp only [hx, false_and, false_or, Int.negSucc_lt_zero, true_and, two_pow_dvd_negSucc]

/-- Only two nonnegative integers have a nonnegative disjunction. -/
theorem natAbs_or_iff (x y : Int) :
    ((x.natAbs ||| y.natAbs : Nat) : Int) = x.lor y ↔ 0 ≤ x ∧ 0 ≤ y := by
  rcases x with m | m <;> rcases y with n | n
  · exact iff_of_true rfl ⟨Int.natCast_nonneg m, Int.natCast_nonneg n⟩
  · exact iff_of_false Int.noConfusion (fun h => Int.not_le.2 (Int.negSucc_lt_zero n) h.2)
  · exact iff_of_false Int.noConfusion (fun h => Int.not_le.2 (Int.negSucc_lt_zero m) h.1)
  · exact iff_of_false Int.noConfusion (fun h => Int.not_le.2 (Int.negSucc_lt_zero m) h.1)

theorem and_represents_iff : (a.and b).Represents (a.toInt.land b.toInt) ↔
    (a.IsFixnum ∧ b.IsFixnum) ∨ (0 ≤ a.toInt ∧ 0 ≤ b.toInt) ∨
      (0 ≤ a.toInt ∧ b.toInt < 0 ∧ BitsDivide a.toInt b.toInt) ∨
      (a.toInt < 0 ∧ 0 ≤ b.toInt ∧ BitsDivide b.toInt a.toInt) := by
  by_cases h : a.IsFixnum ∧ b.IsFixnum
  · obtain ⟨n, rfl⟩ := exists_fixnum h.1
    obtain ⟨m, rfl⟩ := exists_fixnum h.2
    show (fixnum (int2val (onWords (· &&& ·) n.toInt m.toInt))).Represents _ ↔ _
    rw [represents_fixnum (n.onWords_and m ▸ n.fixable_land m), n.onWords_and]
    exact iff_of_true rfl (.inl h)
  · rw [and_eq a b h, or_iff_right h, represents_ofInt]
    exact natAbs_and_iff a.toInt b.toInt

theorem xor_represents_iff : (a.xor b).Represents (a.toInt.xor b.toInt) ↔
    (a.IsFixnum ∧ b.IsFixnum) ∨ (0 ≤ a.toInt ∧ 0 ≤ b.toInt) ∨
      (a.toInt < 0 ∧ b.toInt < 0 ∧ ∀ i : Nat, (2 ^ i : Int) ∣ a.toInt ↔ (2 ^ i : Int) ∣ b.toInt) := by
  by_cases h : a.IsFixnum ∧ b.IsFixnum
  · obtain ⟨n, rfl⟩ := exists_fixnum h.1
    obtain ⟨m, rfl⟩ := exists_fixnum h.2
    show (fixnum (int2val (onWords (· ^^^ ·) n.toInt m.toInt))).Represents _ ↔ _
    rw [represents_fixnum (n.onWords_xor m ▸ n.fixable_xor m), n.onWords_xor]
    exact iff_of_true rfl (.inl h)
  · rw [xor_eq a b h, or_iff_right h, represents_ofInt]
    exact natAbs_xor_iff a.toInt b.toInt

theorem or_represents_iff : (a.or b).Represents (a.toInt.lor b.toInt) ↔
    (a.IsFixnum ∧ b.IsFixnum) ∨
      (0 ≤ a.toInt ∧ 0 ≤ b.toInt ∧ ¬ Fixable (a.toInt.lor b.toInt)) := by
  by_cases h : a.IsFixnum ∧ b.IsFixnum
  · obtain ⟨n, rfl⟩ := exists_fixnum h.1
    obtain ⟨m, rfl⟩ := exists_fixnum h.2
    show (fixnum (int2val (onWords (· ||| ·) n.toInt m.toInt))).Represents _ ↔ _
    rw [represents_fixnum (n.onWords_or m ▸ n.fixable_lor m), n.onWords_or]
    exact iff_of_true rfl (.inl h)
  · rw [or_eq a b h, or_iff_right h, represents_bignum, Bignum.toInt_pos, natAbs_or_iff, and_assoc]

theorem not_represents_iff : a.not.Represents (-a.toInt - 1) ↔
    a.IsFixnum ∨ (a.sign = .pos ∧ ¬ Fixable (-a.toInt - 1)) := by
  rcases a with n | x
  · show (fixnum (int2val (~~~BitVec.ofInt 64 n.toInt).toInt)).Represents (-n.toInt - 1) ↔ _
    have hf : Fixable (-n.toInt - 1) := by
      have hn := n.fixable
      unfold Fixable yintMin yintMax at *
      omega
    rw [Lib.ofInt_not, toInt_ofInt_of_fixable hf, represents_fixnum hf]
    exact iff_of_true rfl (.inl trivial)
  · show (bignum ⟨x.num + 1, x.sign.negate⟩).Represents (-x.toInt - 1) ↔
      False ∨ (x.sign = .pos ∧ ¬ Fixable (-x.toInt - 1))
    rw [represents_bignum, false_or]
    refine and_congr_left fun _ => ?_
    rcases hs : x.sign with _ | _
    · rw [Bignum.toInt_of_pos hs]
      show Bignum.toInt ⟨_, .neg⟩ = _ ↔ _
      rw [Bignum.toInt_neg]
      exact iff_of_true (by omega) rfl
    · rw [Bignum.toInt_of_neg hs]
      show Bignum.toInt ⟨_, .pos⟩ = _ ↔ _
      rw [Bignum.toInt_pos]
      exact iff_of_false (by omega) Sign.noConfusion

/-- `&`, `^` and `|` have the bits they should have and `~` is one less than the negation, each in
the canonical representation. -/
def BitwiseExact : Prop :=
  (a.and b).Represents (a.toInt.land b.toInt) ∧ (a.xor b).Represents (a.toInt.xor b.toInt) ∧
    (a.or b).Represents (a.toInt.lor b.toInt) ∧ a.not.Represents (-a.toInt - 1)

/-- When each bitwise operator is right. -/
theorem bitwise_represents_iff_each :
    ((a.and b).Represents (a.toInt.land b.toInt) ↔
      (a.IsFixnum ∧ b.IsFixnum) ∨ (0 ≤ a.toInt ∧ 0 ≤ b.toInt) ∨
        (0 ≤ a.toInt ∧ b.toInt < 0 ∧ BitsDivide a.toInt b.toInt) ∨
        (a.toInt < 0 ∧ 0 ≤ b.toInt ∧ BitsDivide b.toInt a.toInt)) ∧
    ((a.xor b).Represents (a.toInt.xor b.toInt) ↔
      (a.IsFixnum ∧ b.IsFixnum) ∨ (0 ≤ a.toInt ∧ 0 ≤ b.toInt) ∨
        (a.toInt < 0 ∧ b.toInt < 0 ∧
          ∀ i : Nat, (2 ^ i : Int) ∣ a.toInt ↔ (2 ^ i : Int) ∣ b.toInt)) ∧
    ((a.or b).Represents (a.toInt.lor b.toInt) ↔
      (a.IsFixnum ∧ b.IsFixnum) ∨
        (0 ≤ a.toInt ∧ 0 ≤ b.toInt ∧ ¬ Fixable (a.toInt.lor b.toInt))) ∧
    (a.not.Represents (-a.toInt - 1) ↔
      a.IsFixnum ∨ (a.sign = .pos ∧ ¬ Fixable (-a.toInt - 1))) :=
  ⟨and_represents_iff a b, xor_represents_iff a b, or_represents_iff a b, not_represents_iff a⟩

/-- `-1 & (2 ^ 62 + 1)` is computed from the magnitude of `-1`. -/
theorem not_bitwiseExact_negative :
    ¬ BitwiseExact (.fixnum (int2val (-1))) (.bignum ⟨2 ^ 62 + 1, .pos⟩) := by
  rintro ⟨h, -⟩
  rw [represents_iff] at h
  revert h
  decide +kernel

end Integer

end Yog
