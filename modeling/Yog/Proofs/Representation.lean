import Yog.Integer
import Mathlib.Tactic.SplitIfs

/-!
# What a value stands for

`Integer.ofInt` is the one canonical value of an integer (`represents_iff`), and `normalize` always
gives it. A mixed pair is brought to two Bignums by `denormalizeToBignum`, which loses nothing.
-/

namespace Yog

theorem wrap_of_le {n : Int} (h₁ : longMin ≤ n) (h₂ : n ≤ longMax) : wrap n = n := by
  unfold longMin at h₁
  unfold longMax at h₂
  exact Int.bmod_eq_of_le (by omega) (by omega)

theorem int2val_of_fixable {n : Int} (h : Fixable n) : int2val n = ⟨n, h⟩ := by
  have h' := h
  unfold Fixable yintMin yintMax at h'
  ext
  exact Int.bmod_eq_of_le (by omega) (by omega)

theorem Fixnum.le_toInt (n : Fixnum) : -2 ^ 62 ≤ n.toInt := n.fixable.1

theorem Fixnum.toInt_le (n : Fixnum) : n.toInt ≤ 2 ^ 62 - 1 := n.fixable.2

/-- A Fixnum is well inside the range of a word. -/
theorem Fixnum.in_word (n : Fixnum) : longMin ≤ n.toInt ∧ n.toInt ≤ longMax := by
  have h₁ := n.le_toInt
  have h₂ := n.toInt_le
  unfold longMin longMax
  omega

namespace Bignum

theorem toInt_pos (m : Nat) : Bignum.toInt ⟨m, .pos⟩ = m := Int.one_mul _

theorem toInt_neg (m : Nat) : Bignum.toInt ⟨m, .neg⟩ = -m := Int.neg_one_mul _

theorem toInt_of_pos {b : Bignum} (h : b.sign = .pos) : b.toInt = b.num := by
  obtain ⟨m, s⟩ := b
  obtain rfl : s = .pos := h
  exact toInt_pos m

theorem toInt_of_neg {b : Bignum} (h : b.sign = .neg) : b.toInt = -b.num := by
  obtain ⟨m, s⟩ := b
  obtain rfl : s = .neg := h
  exact toInt_neg m

theorem natAbs_toInt (b : Bignum) : b.toInt.natAbs = b.num := by
  obtain ⟨m, _ | _⟩ := b
  · rw [toInt_pos, Int.natAbs_natCast]
  · rw [toInt_neg, Int.natAbs_neg, Int.natAbs_natCast]

theorem toInt_negate (b : Bignum) : Bignum.toInt ⟨b.num, b.sign.negate⟩ = -b.toInt := by
  obtain ⟨m, _ | _⟩ := b
  · rw [toInt_pos]; exact toInt_neg m
  · rw [toInt_neg, Int.neg_neg]; exact toInt_pos m

theorem fromInt_eq {n : Int} (h₁ : longMin ≤ n) (h₂ : n ≤ longMax) :
    fromInt n = ⟨n.natAbs, if n < 0 then .neg else .pos⟩ := by
  unfold fromInt bdSetShort
  unfold longMin at h₁
  unfold longMax at h₂
  split_ifs with hn
  · -- The least word is its own negation, and as a digit that is its magnitude.
    unfold wrap
    rcases Int.lt_or_eq_of_le h₁ with hlt | rfl
    · rw [Int.bmod_eq_of_le (by omega) (by omega)]
      congr 1
      omega
    · rfl
  · congr 1
    omega

theorem toInt_fromInt {n : Int} (h₁ : longMin ≤ n) (h₂ : n ≤ longMax) : (fromInt n).toInt = n := by
  rw [fromInt_eq h₁ h₂]
  split_ifs with hn
  · rw [toInt_neg]; omega
  · rw [toInt_pos]; omega

end Bignum

namespace Integer

/-- The value is the integer `z` and in the representation `z` should have. -/
def Represents (r : Integer) (z : Int) : Prop := r.toInt = z ∧ r.Canonical

theorem ofInt_of_fixable {z : Int} (h : Fixable z) : ofInt z = .fixnum (int2val z) := by
  unfold ofInt
  rw [dif_pos h, int2val_of_fixable h]

theorem ofInt_of_not_fixable {z : Int} (h : ¬ Fixable z) :
    ofInt z = .bignum ⟨z.natAbs, if z < 0 then .neg else .pos⟩ := by
  unfold ofInt
  rw [dif_neg h]

theorem toInt_ofInt (z : Int) : (ofInt z).toInt = z := by
  by_cases h : Fixable z
  · rw [ofInt_of_fixable h, int2val_of_fixable h]
    rfl
  · rw [ofInt_of_not_fixable h]
    show Bignum.toInt _ = z
    split_ifs with hz
    · rw [Bignum.toInt_neg]; omega
    · rw [Bignum.toInt_pos]; omega

theorem canonical_ofInt (z : Int) : (ofInt z).Canonical := by
  by_cases h : Fixable z
  · rw [ofInt_of_fixable h]
    trivial
  · have hz := toInt_ofInt z
    rw [ofInt_of_not_fixable h] at hz ⊢
    show ¬ Fixable (Bignum.toInt _)
    rwa [show Bignum.toInt _ = z from hz]

/-- A Bignum out of the range of a Fixnum is not zero, so its sign is the one of its value. -/
theorem bignum_eq_ofInt (b : Bignum) (h : ¬ Fixable b.toInt) : .bignum b = ofInt b.toInt := by
  rw [ofInt_of_not_fixable h, Bignum.natAbs_toInt]
  obtain ⟨m, _ | _⟩ := b
  · rw [Bignum.toInt_pos, if_neg (by omega)]
  · rw [Bignum.toInt_neg] at h ⊢
    have hm : m ≠ 0 := by
      rintro rfl
      exact h (by decide)
    rw [if_pos (by omega)]

theorem represents_iff {r : Integer} {z : Int} : r.Represents z ↔ r = ofInt z := by
  constructor
  · rintro ⟨rfl, hc⟩
    rcases r with n | b
    · have hn : Fixable (toInt (.fixnum n)) := n.fixable
      rw [ofInt_of_fixable hn, int2val_of_fixable hn]
      rfl
    · exact bignum_eq_ofInt b hc
  · rintro rfl
    exact ⟨toInt_ofInt z, canonical_ofInt z⟩

theorem represents_fixnum {n z : Int} (hz : Fixable z) :
    (fixnum (int2val z)).Represents n ↔ z = n := by
  rw [int2val_of_fixable hz]
  exact and_iff_left trivial

theorem represents_bignum {b : Bignum} {z : Int} :
    (bignum b).Represents z ↔ b.toInt = z ∧ ¬ Fixable z := by
  constructor
  · rintro ⟨rfl, hc⟩
    exact ⟨rfl, hc⟩
  · rintro ⟨rfl, hc⟩
    exact ⟨rfl, hc⟩

theorem represents_ofInt {n z : Int} : (ofInt z).Represents n ↔ z = n := by
  constructor
  · rintro ⟨hz, -⟩
    rw [← hz, toInt_ofInt]
  · rintro rfl
    exact ⟨toInt_ofInt z, canonical_ofInt z⟩

theorem fromInt_eq_ofInt {n : Int} (h₁ : longMin ≤ n) (h₂ : n ≤ longMax) : fromInt n = ofInt n := by
  unfold fromInt
  split_ifs with h
  · rw [ofInt_of_fixable h]
  · rw [ofInt_of_not_fixable h, Bignum.fromInt_eq h₁ h₂]

def IsFixnum : Integer → Prop
  | .fixnum _ => True
  | .bignum _ => False

instance : DecidablePred IsFixnum
  | .fixnum _ => .isTrue trivial
  | .bignum _ => .isFalse id

theorem exists_fixnum {a : Integer} (h : a.IsFixnum) : ∃ n, a = .fixnum n := by
  rcases a with n | b
  · exact ⟨n, rfl⟩
  · exact h.elim

theorem toInt_fixnum (n : Fixnum) : toInt (.fixnum n) = n.toInt := rfl

/-- The sign a value carries; a zero may carry either. -/
def sign (a : Integer) : Sign := a.denormalizeToBignum.sign

theorem toInt_denormalizeToBignum (a : Integer) : a.denormalizeToBignum.toInt = a.toInt := by
  rcases a with n | b
  · exact Bignum.toInt_fromInt n.in_word.1 n.in_word.2
  · rfl

theorem sign_fixnum (n : Fixnum) : sign (.fixnum n) = if n.toInt < 0 then .neg else .pos := by
  show (Bignum.fromInt n.toInt).sign = _
  rw [Bignum.fromInt_eq n.in_word.1 n.in_word.2]

theorem num_denormalizeToBignum (a : Integer) : a.denormalizeToBignum.num = a.toInt.natAbs := by
  rw [← toInt_denormalizeToBignum, Bignum.natAbs_toInt]

/-- An operator that makes Bignums of a mixed pair, whichever side the Bignum is on. -/
theorem eq_on_bignums {β : Type} (op : Integer → Integer → β) (f : Bignum → Bignum → β)
    (hl : ∀ x b, op (.bignum x) b = f x b.denormalizeToBignum)
    (hr : ∀ n y, op (.fixnum n) (.bignum y) = f (.fromInt n.toInt) y) {a b : Integer}
    (h : ¬ (a.IsFixnum ∧ b.IsFixnum)) :
    op a b = f a.denormalizeToBignum b.denormalizeToBignum := by
  rcases a with n | x
  · rcases b with m | y
    · exact absurd ⟨trivial, trivial⟩ h
    · exact hr n y
  · exact hl x b

end Integer

theorem strtolOf_of_fixable {z : Int} (h : Fixable z) : strtolOf z = z := by
  unfold Fixable yintMin yintMax at h
  unfold strtolOf longMin longMax
  rw [if_neg (by omega), if_neg (by omega)]

/-- The two ends that `strtol` stops at are out of the range of a Fixnum. -/
theorem fixable_of_strtolOf {z : Int} (h : Fixable (strtolOf z)) : Fixable z := by
  unfold strtolOf at h
  split_ifs at h with h₁ h₂
  · exact absurd h (by decide)
  · exact absurd h (by decide)
  · exact h

theorem Bignum.normalize_eq (b : Bignum) : b.normalize = .ofInt b.toInt := by
  unfold normalize
  by_cases h : Fixable b.toInt
  · rw [strtolOf_of_fixable h, if_pos h, Integer.ofInt_of_fixable h]
  · rw [if_neg (mt fixable_of_strtolOf h), Integer.bignum_eq_ofInt b h]

end Yog
