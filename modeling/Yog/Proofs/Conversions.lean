import Yog.Convert
import Yog.Proofs.TextRoundTrip
import Yog.Proofs.Comparison

/-!
# Conversions from and to C

The text a C integer is compared by is read back as its magnitude, so a helper is right but on the
zero whose sign speaks for it. The conversions to C rest on the helpers, and those from C go wrong
on the greatest Fixnum only.
-/

namespace Yog

theorem ten_pow_le {k : Nat} (hk : k ≤ 20) : 10 ^ k ≤ 256 ^ decimalBytes k := by
  revert k
  decide

/-- A character in front that is no digit only adds to what there is room for. -/
theorem bdConvFromDecimal_minus {ds : List Nat} (hds : ∀ d ∈ ds, d < 10) :
    bdConvFromDecimal (toByte '-'.toNat :: digitBytes ds) =
      Lib.read 10 ds % 256 ^ decimalBytes (ds.length + 1) := by
  have hm : ¬ isDigit (toByte '-'.toNat).val := by decide
  unfold bdConvFromDecimal
  simp only [List.takeWhile_cons_of_pos (p := fun b : Byte => decide (b.val ≠ 0))
      (a := toByte '-'.toNat) (by decide),
    takeWhile_digitBytes fun d hd => lt_trans (hds d hd) (by decide)]
  rw [List.foldl_cons, if_neg hm, List.length_cons,
    show (digitBytes ds).length = ds.length from List.length_map _]
  exact foldl_digitBytes hds _

theorem length_written_natAbs {m k : Nat} (hk : 1 ≤ k) (h : m < 10 ^ k) :
    (Lib.written 10 m).length ≤ k :=
  (Lib.length_written_le_iff (by decide) hk m).2 h

theorem lt_ten_pow_written (m : Nat) : m < 10 ^ (Lib.written 10 m).length :=
  (Lib.length_written_le_iff (by decide)
    (List.length_pos_iff.2 (Lib.written_ne_nil (by decide) m)) m).1 le_rfl

theorem written_lt_ten (m : Nat) : ∀ d ∈ Lib.written 10 m, d < 10 :=
  fun _ hd => Lib.lt_of_mem_written (by decide) hd

/-- Up to twenty digits are read as they were written. -/
theorem bdConvFromDecimal_written {m : Nat} (h : m < 10 ^ 20) :
    bdConvFromDecimal (digitBytes (Lib.written 10 m)) = m := by
  rw [bdConvFromDecimal_digitBytes (written_lt_ten m), Lib.read_written (by decide)]
  exact Nat.mod_eq_of_lt ((lt_ten_pow_written m).trans_le
    (ten_pow_le (length_written_natAbs (by decide) h)))

section SixtyFourBits

variable {n : Int} (h₁ : longMin ≤ n) (h₂ : n ≤ CType.ulong.max)

include h₁ h₂

/-- An integer of 64 bits fits into the buffer. -/
theorem snprintfBuf_eq : snprintfBuf n =
    (if n < 0 then [toByte '-'.toNat] else []) ++ digitBytes (Lib.written 10 n.natAbs) := by
  unfold longMin at h₁
  change n ≤ 2 ^ 64 - 1 at h₂
  have hlen : (digitBytes (Lib.written 10 n.natAbs)).length = (Lib.written 10 n.natAbs).length :=
    List.length_map _
  unfold snprintfBuf
  refine List.take_of_length_le ?_
  rw [show bdConvToDecimal n.natAbs = digitBytes (Lib.written 10 n.natAbs) from rfl,
    List.length_append, hlen]
  split_ifs with hn
  · have h := length_written_natAbs (m := n.natAbs) (k := 19) (by decide) (by omega)
    rw [List.length_singleton]
    omega
  · have h := length_written_natAbs (m := n.natAbs) (k := 20) (by decide) (by omega)
    rw [List.length_nil]
    omega

/-- Its text is read as its magnitude, with a sign in front or without. -/
theorem bdConvFromDecimal_snprintfBuf : bdConvFromDecimal (snprintfBuf n) = n.natAbs := by
  rw [snprintfBuf_eq h₁ h₂]
  unfold longMin at h₁
  change n ≤ 2 ^ 64 - 1 at h₂
  split_ifs with hn
  · have hlen := length_written_natAbs (m := n.natAbs) (k := 19) (by decide) (by omega)
    rw [List.singleton_append, bdConvFromDecimal_minus (written_lt_ten _),
      Lib.read_written (by decide)]
    refine Nat.mod_eq_of_lt (lt_of_lt_of_le ?_ (ten_pow_le (by omega)))
    exact (lt_ten_pow_written _).trans (Nat.pow_lt_pow_right (by decide) (by omega))
  · rw [List.nil_append, bdConvFromDecimal_written (by omega)]

end SixtyFourBits

namespace Bignum

theorem num_fromUnsignedLongLong {n : Int} (h₁ : 0 ≤ n) (h₂ : n ≤ CType.ulong.max) :
    (fromUnsignedLongLong n).num = n.natAbs :=
  bdConvFromDecimal_snprintfBuf (by unfold longMin; omega) h₂

theorem fromLongLong_eq {n : Int} (h₁ : longMin ≤ n) (h₂ : n ≤ longMax) :
    fromLongLong n = ⟨n.natAbs, if n < 0 then .neg else .pos⟩ := by
  have hbuf := snprintfBuf_eq h₁ (h₂.trans (by decide))
  unfold longMin at h₁
  unfold longMax at h₂
  have hread := bdConvFromDecimal_written (m := n.natAbs) (by omega)
  unfold fromLongLong
  rw [hbuf]
  split_ifs with hn
  · rw [List.singleton_append]
    simp only [hread]
    exact if_pos rfl
  · rcases hw : Lib.written 10 n.natAbs with _ | ⟨d, ds⟩
    · exact absurd hw (Lib.written_ne_nil (by decide) _)
    rw [hw] at hread
    have hd : d < 10 := written_lt_ten n.natAbs d (hw ▸ List.mem_cons_self)
    have hne : (toByte (digitCode d)).val ≠ '-'.toNat := by
      rw [digitByte_val (by omega)]
      show digitCode d ≠ 45
      rcases digitCode_cases (d := d) (by omega) with h | h <;> omega
    show (if (toByte (digitCode d)).val = '-'.toNat then _ else _ : Bignum) = _
    rw [if_neg hne]
    exact congrArg (Bignum.mk · .pos) hread

theorem bdCompare_eq (a b : Nat) : bdCompare a b = ((a : Int) - b).sign := by
  unfold bdCompare
  rcases Nat.lt_trichotomy a b with h | rfl | h
  · rw [if_pos h, sign_sub_of_lt (by omega)]
  · rw [if_neg (Nat.lt_irrefl _), if_pos rfl, sign_sub_self]
  · rw [if_neg (Nat.lt_asymm h), if_neg (Nat.ne_of_gt h), sign_sub_of_gt (by omega)]

theorem compareSigned_pos (m : Nat) (n : Int) (n2 : Nat) :
    compareSigned ⟨m, .pos⟩ n n2 = if 0 < n then bdCompare m n2 else 1 := by
  unfold compareSigned signOf
  split_ifs <;> simp_all [Sign.toInt]

theorem compareSigned_neg (m : Nat) (n : Int) (n2 : Nat) :
    compareSigned ⟨m, .neg⟩ n n2 = if 0 < n then -1 else -bdCompare m n2 := by
  unfold compareSigned signOf
  split_ifs <;> simp_all [Sign.toInt]

variable (b : Bignum) {n : Int}

/-- A helper for an unsigned type is right but on a zero that carries the sign -. -/
theorem compareUnsigned_iff (hn : 0 ≤ n) :
    b.compareUnsigned n.natAbs = (b.toInt - n).sign ↔ ¬ (b = ⟨0, .neg⟩ ∧ n = 0) := by
  obtain ⟨m, _ | _⟩ := b
  · rw [toInt_pos]
    refine iff_of_true ?_ (by simp)
    show bdCompare m n.natAbs = _
    rw [bdCompare_eq, Int.natAbs_of_nonneg hn]
  · rw [toInt_neg]
    show (-1 : Int) = _ ↔ _
    rw [eq_comm, Int.sign_eq_neg_one_iff_neg, Bignum.mk.injEq, and_iff_left rfl]
    omega

/-- One for a signed type is right but on a zero that carries the sign +. -/
theorem compareSigned_iff (n : Int) :
    b.compareSigned n n.natAbs = (b.toInt - n).sign ↔ ¬ (b = ⟨0, .pos⟩ ∧ n = 0) := by
  obtain ⟨m, _ | _⟩ := b
  · rw [compareSigned_pos, toInt_pos, Bignum.mk.injEq, and_iff_left rfl]
    by_cases hn : 0 < n
    · rw [if_pos hn, bdCompare_eq, Int.natAbs_of_nonneg hn.le]
      exact iff_of_true rfl (by omega)
    · rw [if_neg hn, eq_comm, Int.sign_eq_one_iff_pos]
      omega
  · rw [compareSigned_neg, toInt_neg]
    refine iff_of_true ?_ (by simp)
    by_cases hn : 0 < n
    · rw [if_pos hn, sign_sub_of_lt (by omega)]
    · rw [if_neg hn, bdCompare_eq, ← Int.sign_neg]
      congr 1
      omega

theorem compareUnsigned_le_zero (hn : 0 ≤ n) : b.compareUnsigned n.natAbs ≤ 0 ↔ b.toInt ≤ n := by
  by_cases h : b = ⟨0, .neg⟩ ∧ n = 0
  · obtain ⟨rfl, rfl⟩ := h
    exact iff_of_true (by decide) (by decide)
  · rw [(b.compareUnsigned_iff hn).2 h, Int.sign_nonpos_iff]
    omega

theorem compareUnsigned_zero : b.compareUnsigned 0 < 0 ↔ b.sign = .neg := by
  obtain ⟨m, _ | _⟩ := b
  · refine iff_of_false ?_ nofun
    show ¬ bdCompare m 0 < 0
    rw [bdCompare_eq, Int.sign_neg_iff]
    omega
  · refine iff_of_true ?_ rfl
    show (-1 : Int) < 0
    decide

theorem compareSigned_nonneg : 0 ≤ b.compareSigned n n.natAbs ↔ n ≤ b.toInt := by
  by_cases h : b = ⟨0, .pos⟩ ∧ n = 0
  · obtain ⟨rfl, rfl⟩ := h
    exact iff_of_true (by decide) (by decide)
  · rw [(b.compareSigned_iff n).2 h, Int.sign_nonneg_iff]
    omega

theorem compareSigned_le_zero (hn : n ≠ 0) : b.compareSigned n n.natAbs ≤ 0 ↔ b.toInt ≤ n := by
  rw [(b.compareSigned_iff n).2 fun h => hn h.2, Int.sign_nonpos_iff]
  omega

section Unsigned

variable {b} (h₀ : 0 ≤ n) (h : n ≤ CType.ulong.max)

include h₀ h

theorem compareWithUnsignedLong_eq : b.compareWithUnsignedLong n = b.compareUnsigned n.natAbs :=
  congrArg b.compareUnsigned (bdConvFromDecimal_snprintfBuf (by unfold longMin; omega) h)

theorem compareWithUnsignedInt_eq : b.compareWithUnsignedInt n = b.compareUnsigned n.natAbs :=
  congrArg b.compareUnsigned (bdConvFromDecimal_snprintfBuf (by unfold longMin; omega) h)

theorem compareWithUnsignedLongLong_eq :
    b.compareWithUnsignedLongLong n = b.compareUnsigned n.natAbs :=
  congrArg b.compareUnsigned (num_fromUnsignedLongLong h₀ h)

end Unsigned

section Signed

variable {b} (h₁ : longMin ≤ n) (h₂ : n ≤ longMax)

include h₁ h₂

/-- The magnitude of the least word is not one. -/
theorem natAbs_wrap_signOf : (wrap (signOf n * n)).natAbs = n.natAbs ∧
    (wrap (signOf n * n) % 2 ^ 64).natAbs = n.natAbs := by
  unfold longMin at h₁
  unfold longMax at h₂
  have hs : signOf n * n = n.natAbs := by
    unfold signOf
    split_ifs <;> omega
  rw [hs]
  unfold wrap
  rcases h₁.eq_or_lt with rfl | hlt
  · decide
  · rw [Int.bmod_eq_of_le (by omega) (by omega)]
    omega

theorem compareWithLong_eq : b.compareWithLong n = b.compareSigned n n.natAbs := by
  have hw := (natAbs_wrap_signOf h₁ h₂).2
  have h₀ := Int.emod_nonneg (wrap (signOf n * n)) (b := 2 ^ 64) (by decide)
  have hlt := Int.emod_lt_of_pos (wrap (signOf n * n)) (b := 2 ^ 64) (by decide)
  unfold compareWithLong
  rw [bdConvFromDecimal_snprintfBuf (by unfold longMin; omega) (Int.le_sub_one_of_lt hlt), hw]

theorem compareWithInt_eq : b.compareWithInt n = b.compareSigned n n.natAbs := by
  have hw := (natAbs_wrap_signOf h₁ h₂).1
  unfold compareWithInt
  unfold longMin at h₁
  unfold longMax at h₂
  have hle : (wrap (signOf n * n)) ≤ CType.ulong.max := by
    change _ ≤ (2 ^ 64 - 1 : Int)
    omega
  rw [bdConvFromDecimal_snprintfBuf (by unfold longMin; omega) hle, hw]

theorem compareWithLongLong_eq : b.compareWithLongLong n = b.compareSigned n n.natAbs := by
  unfold compareWithLongLong
  rw [fromLongLong_eq h₁ h₂]

end Signed

end Bignum

/-- The conversion to `t` gives the integer when that is in the range of `t`, and raises otherwise.
-/
def Gives (t : CType) (z : Int) (r : Except ConvError Int) : Prop :=
  if t.InRange z then r = .ok z else ∃ e, r = .error e

theorem gives_iff (t : CType) (z : Int) (r : Except ConvError Int) :
    Gives t z r ↔ ∀ v, r = .ok v ↔ t.InRange z ∧ v = z := by
  unfold Gives
  by_cases h : t.InRange z
  · simp only [h, if_true, true_and]
    constructor
    · rintro rfl v
      rw [Except.ok.injEq, eq_comm]
    · exact fun hv => (hv z).2 rfl
  · simp only [h, if_false, false_and, iff_false]
    rcases r with e | v
    · exact iff_of_true ⟨e, rfl⟩ nofun
    · exact iff_of_false nofun fun hv => hv v rfl

/-- A conversion that gives the integer where `P` holds and nothing otherwise. -/
theorem gives_iff_of_ok {t : CType} {z : Int} {r : Except ConvError Int} {P : Prop}
    (h : ∀ v, r = .ok v ↔ P ∧ v = z) : Gives t z r ↔ (P ↔ t.InRange z) := by
  rw [gives_iff]
  simp only [h]
  constructor
  · intro hv
    simpa using hv z
  · exact fun hp v => and_congr_left' hp

/-- Two checks in a row, each of which raises where its condition holds. -/
theorem two_checks {p q : Prop} [Decidable p] [Decidable q] {e e' : ConvError} :
    (do
      if p then
        throw e
      if q then
        throw e' : Except ConvError Unit) = .ok () ↔ ¬ p ∧ ¬ q := by
  by_cases hp : p
  · simp [hp, throw, throwThe, MonadExceptOf.throw, bind, Except.bind]
  · by_cases hq : q <;>
      simp [hp, hq, throw, throwThe, MonadExceptOf.throw, pure, Except.pure]

theorem one_check {p : Prop} [Decidable p] {e : ConvError} {x v : Int} :
    (do
      if p then
        throw e
      return x : Except ConvError Int) = .ok v ↔ ¬ p ∧ v = x := by
  by_cases hp : p
  · simp [hp, throw, throwThe, MonadExceptOf.throw, bind, Except.bind]
  · simp [hp, pure, Except.pure, eq_comm]

theorem bind_pure_eq_ok {c : Except ConvError Unit} {x v : Int} :
    (do c; return x : Except ConvError Int) = .ok v ↔ c = .ok () ∧ v = x := by
  rcases c with e | u
  · simp [bind, Except.bind]
  · simp [bind, Except.bind, pure, Except.pure, eq_comm]

namespace Bignum

variable (b : Bignum) (name : String)

theorem checkRangeUnsigned_eq_ok {max : Int} (h₀ : 0 ≤ max) (h : max ≤ CType.ulong.max) :
    b.checkRangeUnsigned name max = .ok () ↔ b.sign ≠ .neg ∧ b.toInt ≤ max := by
  unfold checkRangeUnsigned
  rw [two_checks, compareWithUnsignedLong_eq le_rfl (by decide), compareWithUnsignedLong_eq h₀ h,
    show (0 : Int).natAbs = 0 from rfl, compareUnsigned_zero, not_lt, compareUnsigned_le_zero b h₀]

theorem checkRange_eq_ok {min max : Int} (h₁ : longMin ≤ min) (h₁' : min ≤ longMax)
    (h₂ : longMin ≤ max) (h₂' : max ≤ longMax) (h₀ : max ≠ 0) :
    b.checkRange name min max = .ok () ↔ min ≤ b.toInt ∧ b.toInt ≤ max := by
  unfold checkRange
  rw [two_checks, compareWithInt_eq h₁ h₁', compareWithInt_eq h₂ h₂', not_lt, not_lt,
    compareSigned_nonneg, compareSigned_le_zero b h₀]

theorem strtoulOf_eq {z : Int} (h₀ : 0 ≤ z) (h : z ≤ CType.ulong.max) : strtoulOf z = z := by
  unfold strtoulOf
  rw [if_neg (by omega)]
  change z ≤ 2 ^ 64 - 1 at h
  exact Int.emod_eq_of_lt h₀ (by omega)

theorem strtolOf_eq {z : Int} (h₁ : longMin ≤ z) (h₂ : z ≤ longMax) : strtolOf z = z := by
  unfold strtolOf
  rw [if_neg (by omega), if_neg (by omega)]

theorem toInt_nonneg_of_sign {b : Bignum} (h : b.sign ≠ .neg) : 0 ≤ b.toInt := by
  obtain ⟨m, _ | _⟩ := b
  · rw [toInt_pos]
    omega
  · exact absurd rfl h

/-- Where the sign stands for the bound below, only a zero that carries one is amiss. -/
theorem sign_ne_iff {max : Int} (h : 0 ≤ max) :
    ((b.sign ≠ .neg ∧ b.toInt ≤ max) ↔ (0 ≤ b.toInt ∧ b.toInt ≤ max)) ↔ b ≠ ⟨0, .neg⟩ := by
  obtain ⟨m, _ | _⟩ := b
  · rw [toInt_pos]
    exact iff_of_true (by simp) (by simp)
  · rw [toInt_neg]
    simp only [ne_eq, not_true_eq_false, false_and, false_iff, Bignum.mk.injEq, and_true]
    omega

variable {v : Int}

theorem toUnsignedLong_eq_ok : b.toUnsignedLong name = .ok v ↔
    (b.sign ≠ .neg ∧ b.toInt ≤ CType.ulong.max) ∧ v = b.toInt := by
  unfold toUnsignedLong
  rw [bind_pure_eq_ok, checkRangeUnsigned_eq_ok b name (by decide) le_rfl]
  refine and_congr_right fun h => ?_
  rw [strtoulOf_eq (toInt_nonneg_of_sign h.1) h.2]

theorem toUnsignedType_eq_ok : b.toUnsignedType name = .ok v ↔
    (b.sign ≠ .neg ∧ b.toInt ≤ CType.ulong.max) ∧ v = b.toInt :=
  toUnsignedLong_eq_ok b name

theorem toUnsignedLongLong_eq_ok : b.toUnsignedLongLong name = .ok v ↔
    (b.sign ≠ .neg ∧ b.toInt ≤ CType.ulong.max) ∧ v = b.toInt := by
  unfold toUnsignedLongLong
  rw [one_check, compareWithUnsignedInt_eq le_rfl (by decide),
    compareWithUnsignedLongLong_eq (by decide) (by decide), show (0 : Int).natAbs = 0 from rfl,
    compareUnsigned_zero, ← not_le (b := (0 : Int)), compareUnsigned_le_zero b (by decide), not_or,
    not_not]
  refine and_congr_right fun h => ?_
  rw [strtoulOf_eq (toInt_nonneg_of_sign h.1) h.2]

theorem toLong_eq_ok : b.toLong name = .ok v ↔
    (longMin ≤ b.toInt ∧ b.toInt ≤ longMax) ∧ v = b.toInt := by
  unfold toLong
  rw [bind_pure_eq_ok, checkRange_eq_ok b name le_rfl (by decide) (by decide) le_rfl (by decide)]
  refine and_congr_right fun h => ?_
  rw [strtolOf_eq h.1 h.2]

theorem toSignedType_eq_ok : b.toSignedType name = .ok v ↔
    (longMin ≤ b.toInt ∧ b.toInt ≤ longMax) ∧ v = b.toInt :=
  toLong_eq_ok b name

theorem toLongLong_eq_ok : b.toLongLong name = .ok v ↔
    (longMin ≤ b.toInt ∧ b.toInt ≤ longMax) ∧ v = b.toInt := by
  unfold toLongLong
  rw [one_check, compareWithLongLong_eq le_rfl (by decide),
    compareWithLongLong_eq (by decide) le_rfl, ← not_le, ← not_le (b := (0 : Int)),
    compareSigned_nonneg, compareSigned_le_zero b (by decide), not_or, not_not, not_not]
  refine and_congr_right fun h => ?_
  rw [strtolOf_eq h.1 h.2]

/-- The conversions to an unsigned type of 64 bits. -/
theorem gives_unsigned {t : CType} {r : Except ConvError Int} (hmin : t.min = 0)
    (hmax : t.max = CType.ulong.max)
    (h : ∀ v, r = .ok v ↔ (b.sign ≠ .neg ∧ b.toInt ≤ CType.ulong.max) ∧ v = b.toInt) :
    Gives t b.toInt r ↔ b ≠ ⟨0, .neg⟩ := by
  rw [gives_iff_of_ok h, CType.InRange, hmin, hmax]
  exact b.sign_ne_iff (by decide)

/-- The conversions to a signed one. -/
theorem gives_signed {t : CType} {r : Except ConvError Int} (hmin : t.min = longMin)
    (hmax : t.max = longMax)
    (h : ∀ v, r = .ok v ↔ (longMin ≤ b.toInt ∧ b.toInt ≤ longMax) ∧ v = b.toInt) :
    Gives t b.toInt r := by
  rw [gives_iff_of_ok h, CType.InRange, hmin, hmax]

end Bignum

namespace CType

theorem bits_pos (t : CType) : 0 < t.bits := by
  cases t <;> decide

theorem max_nonneg (t : CType) : 0 ≤ t.max := by
  cases t <;> decide

theorem assign_of_inRange {t : CType} {n : Int} (h : t.InRange n) : t.assign n = n := by
  have hpow : (2 : Int) ^ t.bits = 2 * 2 ^ (t.bits - 1) := by
    rw [← pow_succ', Nat.sub_add_cancel t.bits_pos]
  unfold InRange min max at h
  unfold assign
  split_ifs at h ⊢
  · refine Int.bmod_eq_of_le ?_ ?_ <;> push_cast <;> omega
  · exact Int.emod_eq_of_lt h.1 (by omega)

end CType

theorem checkFixnum_eq_ok {min max : Int} {n : Fixnum} :
    checkFixnum min max (.fixnum n) = .ok () ↔ min ≤ n.toInt ∧ n.toInt ≤ max :=
  two_checks.trans (and_congr not_lt not_lt)

theorem writeFixnum_eq_ok (t : CType) (a : Integer) {v : Int} :
    writeFixnum t a = .ok v ↔ (a.IsFixnum ∧ t.InRange a.toInt) ∧ v = a.toInt := by
  unfold writeFixnum
  rw [bind_pure_eq_ok]
  rcases a with n | b
  · rw [checkFixnum_eq_ok]
    refine Iff.trans (and_congr_right fun h => ?_) (and_congr_left' (and_iff_right trivial).symm)
    rw [Integer.toInt_fixnum, CType.assign_of_inRange h]
  · exact iff_of_false nofun fun h => h.1.1

theorem Fixnum.checkPositive_eq_ok (n : Fixnum) : n.checkPositive = .ok () ↔ 0 ≤ n.toInt := by
  unfold checkPositive
  split_ifs with h
  · exact iff_of_true rfl h
  · exact iff_of_false nofun h

theorem Fixnum.checkInt32_eq_ok (n : Fixnum) :
    n.checkInt32 = .ok () ↔ CType.int32.InRange n.toInt :=
  two_checks.trans (and_congr not_lt not_lt)

theorem Fixnum.checkUint32_eq_ok (n : Fixnum) :
    n.checkUint32 = .ok () ↔ CType.uint32.InRange n.toInt :=
  two_checks.trans (and_congr not_lt not_lt)

namespace Bignum

variable (b : Bignum)

/-- The two checks that bound a Bignum, whatever helpers they use. -/
theorem bounds_eq_ok {x y min max : Int} {s t : String} (hx : 0 ≤ x ↔ min ≤ b.toInt)
    (hy : y ≤ 0 ↔ b.toInt ≤ max) : (do
      b.checkGreaterOrEqual x s
      b.checkLessOrEqual y t : Except ConvError Unit) = .ok () ↔
        min ≤ b.toInt ∧ b.toInt ≤ max := by
  rw [← hx, ← hy]
  unfold checkGreaterOrEqual checkLessOrEqual
  by_cases h : 0 ≤ x
  · by_cases h' : y ≤ 0 <;> simp [h, h', pure, Except.pure, throw, throwThe, MonadExceptOf.throw,
      bind, Except.bind]
  · simp [h, throw, throwThe, MonadExceptOf.throw, bind, Except.bind]

theorem compareWithInt_nonneg {n : Int} (h₁ : longMin ≤ n) (h₂ : n ≤ longMax) :
    0 ≤ b.compareWithInt n ↔ n ≤ b.toInt := by
  rw [compareWithInt_eq h₁ h₂, compareSigned_nonneg]

theorem compareWithInt_le_zero {n : Int} (h₁ : longMin ≤ n) (h₂ : n ≤ longMax) (h₀ : n ≠ 0) :
    b.compareWithInt n ≤ 0 ↔ b.toInt ≤ n := by
  rw [compareWithInt_eq h₁ h₂, compareSigned_le_zero b h₀]

theorem compareWithLongLong_nonneg {n : Int} (h₁ : longMin ≤ n) (h₂ : n ≤ longMax) :
    0 ≤ b.compareWithLongLong n ↔ n ≤ b.toInt := by
  rw [compareWithLongLong_eq h₁ h₂, compareSigned_nonneg]

theorem compareWithUnsignedInt_le_zero {n : Int} (h₀ : 0 ≤ n) (h : n ≤ CType.ulong.max) :
    b.compareWithUnsignedInt n ≤ 0 ↔ b.toInt ≤ n := by
  rw [compareWithUnsignedInt_eq h₀ h, compareUnsigned_le_zero b h₀]

theorem compareWithUnsignedLongLong_le_zero {n : Int} (h₀ : 0 ≤ n) (h : n ≤ CType.ulong.max) :
    b.compareWithUnsignedLongLong n ≤ 0 ↔ b.toInt ≤ n := by
  rw [compareWithUnsignedLongLong_eq h₀ h, compareUnsigned_le_zero b h₀]

theorem checkUint_eq_ok : b.checkUint = .ok () ↔ CType.pointer.InRange b.toInt :=
  b.bounds_eq_ok (b.compareWithInt_nonneg (by decide) (by decide))
    (b.compareWithUnsignedInt_le_zero (by decide) le_rfl)

theorem checkUint32_eq_ok : b.checkUint32 = .ok () ↔ CType.uint32.InRange b.toInt :=
  b.bounds_eq_ok (b.compareWithInt_nonneg (by decide) (by decide))
    (b.compareWithUnsignedInt_le_zero (by decide) (by decide))

theorem checkInt32_eq_ok : b.checkInt32 = .ok () ↔ CType.int32.InRange b.toInt :=
  b.bounds_eq_ok (b.compareWithInt_nonneg (by decide) (by decide))
    (b.compareWithInt_le_zero (by decide) (by decide) (by decide))

theorem checkUint64_eq_ok : b.checkUint64 = .ok () ↔ CType.uint64.InRange b.toInt :=
  b.bounds_eq_ok (b.compareWithInt_nonneg (by decide) (by decide))
    (b.compareWithUnsignedLongLong_le_zero (by decide) le_rfl)

theorem checkInt64_eq_ok : b.checkInt64 = .ok () ↔ CType.int64.InRange b.toInt := by
  refine b.bounds_eq_ok (b.compareWithLongLong_nonneg (by decide) (by decide)) ?_
  rw [compareWithLongLong_eq (by decide) le_rfl]
  exact b.compareSigned_le_zero (by decide)

theorem checkUnsignedLong_eq_ok : b.checkUnsignedLong = .ok () ↔ CType.ulong.InRange b.toInt := by
  refine b.bounds_eq_ok (b.compareWithInt_nonneg (by decide) (by decide)) ?_
  rw [compareWithUnsignedLong_eq (by decide) le_rfl]
  exact b.compareUnsigned_le_zero (by decide)

theorem checkLong_eq_ok : b.checkLong = .ok () ↔ CType.long.InRange b.toInt := by
  refine b.bounds_eq_ok ?_ ?_
  · rw [compareWithLong_eq (by decide) (by decide), compareSigned_nonneg]
  · rw [compareWithLong_eq (by decide) (by decide)]
    exact b.compareSigned_le_zero (by decide)

end Bignum

section WriteInteger

variable {t : CType} {checkFix : Fixnum → Except ConvError Unit}
  {checkBig : Bignum → Except ConvError Unit} {convert : Bignum → String → Except ConvError Int}

theorem writeInteger_fixnum_eq_ok {n : Fixnum} {v : Int} :
    writeInteger t checkFix checkBig convert (.fixnum n) = .ok v ↔
      checkFix n = .ok () ∧ v = t.assign n.toInt :=
  bind_pure_eq_ok

theorem writeInteger_bignum_eq_ok {b : Bignum} {v : Int} {P : Prop}
    (hc : checkBig b = .ok () ↔ t.InRange b.toInt)
    (hv : ∀ v, convert b "Value" = .ok v ↔ P ∧ v = b.toInt) :
    writeInteger t checkFix checkBig convert (.bignum b) = .ok v ↔
      (t.InRange b.toInt ∧ P) ∧ v = b.toInt := by
  show (do
    checkBig b
    let n ← convert b "Value"
    return t.assign n : Except ConvError Int) = .ok v ↔ _
  rcases hb : checkBig b with e | u
  · rw [hb] at hc
    exact iff_of_false nofun fun h => nomatch hc.2 h.1.1
  · have hin := hc.1 hb
    rcases hx : convert b "Value" with e | m
    · refine iff_of_false nofun fun h => ?_
      have h' := (hv b.toInt).2 ⟨h.1.2, rfl⟩
      rw [hx] at h'
      cases h'
    · obtain ⟨hp, rfl⟩ := (hv m).1 hx
      refine Iff.trans ?_ (and_iff_right ⟨hin, hp⟩).symm
      show Except.ok (t.assign b.toInt) = .ok v ↔ _
      rw [CType.assign_of_inRange hin, Except.ok.injEq, eq_comm]

/-- A Fixnum is written as it should be where the check is the range of the type. -/
theorem gives_writeInteger_fixnum {n : Fixnum} (h : checkFix n = .ok () ↔ t.InRange n.toInt) :
    Gives t n.toInt (writeInteger t checkFix checkBig convert (.fixnum n)) := by
  rw [gives_iff]
  intro v
  rw [writeInteger_fixnum_eq_ok, h]
  exact and_congr_right fun hin => by rw [CType.assign_of_inRange hin]

/-- Where it lets through what the type does not hold, it is cut. -/
theorem not_gives_writeInteger_fixnum {n : Fixnum} (hn : ¬ t.InRange n.toInt)
    (h : checkFix n = .ok ()) :
    ¬ Gives t n.toInt (writeInteger t checkFix checkBig convert (.fixnum n)) := by
  rw [gives_iff]
  intro hv
  exact hn ((hv (t.assign n.toInt)).1 (writeInteger_fixnum_eq_ok.2 ⟨h, rfl⟩)).1

variable {b : Bignum}

theorem gives_writeInteger_unsigned (hmin : t.min = 0) (hmax : t.max ≤ CType.ulong.max)
    (hc : checkBig b = .ok () ↔ t.InRange b.toInt)
    (hv : ∀ v, convert b "Value" = .ok v ↔
      (b.sign ≠ .neg ∧ b.toInt ≤ CType.ulong.max) ∧ v = b.toInt) :
    Gives t b.toInt (writeInteger t checkFix checkBig convert (.bignum b)) ↔ b ≠ ⟨0, .neg⟩ := by
  rw [gives_iff_of_ok fun v => writeInteger_bignum_eq_ok hc hv, ← b.sign_ne_iff t.max_nonneg,
    CType.InRange, hmin]
  constructor
  · intro h
    exact ⟨fun hs => ⟨Bignum.toInt_nonneg_of_sign hs.1, hs.2⟩, fun hs => ⟨(h.2 hs).2.1, hs.2⟩⟩
  · intro h
    exact ⟨fun hs => hs.1, fun hs => ⟨hs, (h.2 hs).1, hs.2.trans hmax⟩⟩

theorem gives_writeInteger_signed (hmin : longMin ≤ t.min) (hmax : t.max ≤ longMax)
    (hc : checkBig b = .ok () ↔ t.InRange b.toInt)
    (hv : ∀ v, convert b "Value" = .ok v ↔
      (longMin ≤ b.toInt ∧ b.toInt ≤ longMax) ∧ v = b.toInt) :
    Gives t b.toInt (writeInteger t checkFix checkBig convert (.bignum b)) := by
  rw [gives_iff_of_ok fun v => writeInteger_bignum_eq_ok hc hv]
  exact and_iff_left_of_imp fun h => ⟨hmin.trans h.1, h.2.trans hmax⟩

end WriteInteger

/-- Where `write_data` is right: the types narrower than an `int` take no Bignum, an `int` and an
`unsigned int` take Fixnums that they cannot hold, and an unsigned type no zero that carries the
sign -. -/
def CType.WriteHolds (t : CType) (a : Integer) : Prop :=
  match t with
  | .uint8 | .int8 | .uint16 | .int16 | .uchar | .char | .ushort | .short =>
    a.IsFixnum ∨ ¬ t.InRange a.toInt
  | .int => a.IsFixnum → t.InRange a.toInt
  | .uint => (a.IsFixnum → a.toInt ≤ t.max) ∧ a ≠ .bignum ⟨0, .neg⟩
  | .uint32 | .uint64 | .ulong | .ulonglong | .pointer => a ≠ .bignum ⟨0, .neg⟩
  | .int32 | .int64 | .long | .longlong => True

theorem gives_writeFixnum (t : CType) (a : Integer) :
    Gives t a.toInt (writeFixnum t a) ↔ a.IsFixnum ∨ ¬ t.InRange a.toInt := by
  rw [gives_iff_of_ok fun v => writeFixnum_eq_ok t a]
  tauto

theorem Fixnum.inRange_unsigned (n : Fixnum) {t : CType} (hmin : t.min = 0)
    (hmax : t.max = CType.ulong.max) : n.checkPositive = .ok () ↔ t.InRange n.toInt := by
  have h := n.toInt_le
  rw [checkPositive_eq_ok, CType.InRange, hmin, hmax]
  change _ ↔ 0 ≤ n.toInt ∧ n.toInt ≤ 2 ^ 64 - 1
  omega

theorem Fixnum.inRange_signed (n : Fixnum) {t : CType} (hmin : t.min = longMin)
    (hmax : t.max = longMax) : (pure () : Except ConvError Unit) = .ok () ↔ t.InRange n.toInt := by
  rw [CType.InRange, hmin, hmax]
  exact iff_of_true rfl n.in_word

theorem ne_bignum_iff {b c : Bignum} : Integer.bignum b ≠ .bignum c ↔ b ≠ c := by
  rw [Ne, Ne, Integer.bignum.injEq]

theorem gives_writeUint (a : Integer) :
    Gives .uint a.toInt (writeUint a) ↔ CType.WriteHolds .uint a := by
  rcases a with n | b
  · refine Iff.trans ?_ ((and_iff_left nofun).trans (imp_iff_right trivial)).symm
    by_cases hn : CType.uint.InRange n.toInt
    · refine iff_of_true (gives_writeInteger_fixnum ?_) hn.2
      exact iff_of_true ((n.checkPositive_eq_ok).2 hn.1) hn
    by_cases h₀ : 0 ≤ n.toInt
    · exact iff_of_false (not_gives_writeInteger_fixnum hn ((n.checkPositive_eq_ok).2 h₀))
        fun h => hn ⟨h₀, h⟩
    · refine iff_of_true (gives_writeInteger_fixnum ?_) ((not_le.1 h₀).le.trans (by decide))
      exact iff_of_false (mt (n.checkPositive_eq_ok).1 h₀) hn
  · refine Iff.trans ?_ ((and_iff_right nofun).trans ne_bignum_iff).symm
    exact gives_writeInteger_unsigned rfl (by decide) b.checkUint32_eq_ok
      fun v => b.toUnsignedType_eq_ok _

theorem gives_writeInt (a : Integer) :
    Gives .int a.toInt (writeInt a) ↔ CType.WriteHolds .int a := by
  rcases a with n | b
  · refine Iff.trans ?_ (imp_iff_right trivial).symm
    by_cases hn : CType.int.InRange n.toInt
    · exact iff_of_true (gives_writeInteger_fixnum (iff_of_true rfl hn)) hn
    · exact iff_of_false (not_gives_writeInteger_fixnum hn rfl) hn
  · refine iff_of_true ?_ nofun
    exact gives_writeInteger_signed (by decide) (by decide) b.checkInt32_eq_ok
      fun v => b.toSignedType_eq_ok _

section Wide

variable {t : CType} {checkFix : Fixnum → Except ConvError Unit}
  {checkBig : Bignum → Except ConvError Unit} {convert : Bignum → String → Except ConvError Int}

theorem gives_unsigned_writer (a : Integer) (hmin : t.min = 0) (hmax : t.max ≤ CType.ulong.max)
    (hf : ∀ n, checkFix n = .ok () ↔ t.InRange n.toInt)
    (hc : ∀ b, checkBig b = .ok () ↔ t.InRange b.toInt)
    (hv : ∀ b v, convert b "Value" = .ok v ↔
      (b.sign ≠ .neg ∧ b.toInt ≤ CType.ulong.max) ∧ v = b.toInt) :
    Gives t a.toInt (writeInteger t checkFix checkBig convert a) ↔ a ≠ .bignum ⟨0, .neg⟩ := by
  rcases a with n | b
  · exact iff_of_true (gives_writeInteger_fixnum (hf n)) nofun
  · rw [ne_bignum_iff]
    exact gives_writeInteger_unsigned hmin hmax (hc b) (hv b)

theorem gives_signed_writer (a : Integer) (hmin : longMin ≤ t.min) (hmax : t.max ≤ longMax)
    (hf : ∀ n, checkFix n = .ok () ↔ t.InRange n.toInt)
    (hc : ∀ b, checkBig b = .ok () ↔ t.InRange b.toInt)
    (hv : ∀ b v, convert b "Value" = .ok v ↔
      (longMin ≤ b.toInt ∧ b.toInt ≤ longMax) ∧ v = b.toInt) :
    Gives t a.toInt (writeInteger t checkFix checkBig convert a) := by
  rcases a with n | b
  · exact gives_writeInteger_fixnum (hf n)
  · exact gives_writeInteger_signed hmin hmax (hc b) (hv b)

end Wide

theorem gives_writeData (t : CType) (a : Integer) :
    Gives t a.toInt (writeData t a) ↔ t.WriteHolds a := by
  cases t with
  | uint8 => exact gives_writeFixnum .uint8 a
  | int8 => exact gives_writeFixnum .int8 a
  | uint16 => exact gives_writeFixnum .uint16 a
  | int16 => exact gives_writeFixnum .int16 a
  | uchar => exact gives_writeFixnum .uchar a
  | char => exact gives_writeFixnum .char a
  | ushort => exact gives_writeFixnum .ushort a
  | short => exact gives_writeFixnum .short a
  | uint => exact gives_writeUint a
  | int => exact gives_writeInt a
  | uint32 =>
    exact gives_unsigned_writer a rfl (by decide) Fixnum.checkUint32_eq_ok
      Bignum.checkUint32_eq_ok fun b v => b.toUnsignedType_eq_ok _
  | int32 =>
    refine iff_of_true ?_ trivial
    exact gives_signed_writer a (by decide) (by decide) Fixnum.checkInt32_eq_ok
      Bignum.checkInt32_eq_ok fun b v => b.toSignedType_eq_ok _
  | uint64 =>
    exact gives_unsigned_writer a rfl (by decide) (fun n => n.inRange_unsigned rfl rfl)
      Bignum.checkUint64_eq_ok fun b v => b.toUnsignedLongLong_eq_ok _
  | int64 =>
    refine iff_of_true ?_ trivial
    exact gives_signed_writer a (by decide) (by decide) (fun n => n.inRange_signed rfl rfl)
      Bignum.checkInt64_eq_ok fun b v => b.toLongLong_eq_ok _
  | ulong =>
    exact gives_unsigned_writer a rfl (by decide) (fun n => n.inRange_unsigned rfl rfl)
      Bignum.checkUnsignedLong_eq_ok fun b v => b.toUnsignedLong_eq_ok _
  | long =>
    refine iff_of_true ?_ trivial
    exact gives_signed_writer a (by decide) (by decide) (fun n => n.inRange_signed rfl rfl)
      Bignum.checkLong_eq_ok fun b v => b.toLong_eq_ok _
  | ulonglong =>
    exact gives_unsigned_writer a rfl (by decide) (fun n => n.inRange_unsigned rfl rfl)
      Bignum.checkUint64_eq_ok fun b v => b.toUnsignedLongLong_eq_ok _
  | longlong =>
    refine iff_of_true ?_ trivial
    exact gives_signed_writer a (by decide) (by decide) (fun n => n.inRange_signed rfl rfl)
      Bignum.checkInt64_eq_ok fun b v => b.toLongLong_eq_ok _
  | pointer =>
    exact gives_unsigned_writer a rfl (by decide) (fun n => n.inRange_unsigned rfl rfl)
      Bignum.checkUint_eq_ok fun b v => b.toUnsignedType_eq_ok _

namespace Integer

variable {n : Int}

theorem fromLongLong_eq_ofInt (h₁ : longMin ≤ n) (h₂ : n ≤ longMax) :
    fromLongLong n = ofInt n := by
  unfold fromLongLong
  split_ifs with h
  · rw [ofInt_of_fixable h]
  · rw [ofInt_of_not_fixable h, Bignum.fromLongLong_eq h₁ h₂]

/-- The greatest Fixnum is made a Bignum. -/
theorem unsigned_represents_iff (h₀ : 0 ≤ n) {b : Bignum} (hb : b.toInt = n) :
    (if n < yintMax then .fixnum (int2val n) else .bignum b : Integer).Represents n ↔
      n ≠ yintMax := by
  split_ifs with h
  · have hf : Fixable n := by
      unfold Fixable yintMin
      omega
    rw [represents_fixnum hf]
    exact iff_of_true rfl h.ne
  · rw [represents_bignum]
    unfold Fixable yintMin
    omega

theorem toInt_fromUnsignedInt (h : CType.ulong.InRange n) : (fromUnsignedInt n).toInt = n := by
  obtain ⟨h₀, h⟩ := h
  change 0 ≤ n at h₀
  change n ≤ 2 ^ 64 - 1 at h
  unfold fromUnsignedInt
  split_ifs with hlt
  · have hf : Fixable n := by
      unfold Fixable yintMin
      omega
    rw [int2val_of_fixable hf]
    rfl
  · show Bignum.toInt ⟨bdSetShort n, .pos⟩ = n
    rw [Bignum.toInt_pos]
    unfold bdSetShort
    omega

theorem fromUnsignedInt_represents_iff (h : CType.ulong.InRange n) :
    (fromUnsignedInt n).Represents n ↔ n ≠ yintMax := by
  obtain ⟨h₀, h⟩ := h
  change 0 ≤ n at h₀
  change n ≤ 2 ^ 64 - 1 at h
  refine unsigned_represents_iff h₀ ?_
  show Bignum.toInt ⟨bdSetShort n, .pos⟩ = n
  rw [Bignum.toInt_pos]
  unfold bdSetShort
  omega

theorem fromUnsignedLongLong_represents_iff (h : CType.ulong.InRange n) :
    (fromUnsignedLongLong n).Represents n ↔ n ≠ yintMax := by
  refine unsigned_represents_iff h.1 ?_
  have hnum := Bignum.num_fromUnsignedLongLong h.1 h.2
  rw [Bignum.toInt_of_pos rfl, hnum]
  exact Int.natAbs_of_nonneg h.1

theorem fixnum_represents {t : CType} (h : t.InRange n) (hmin : yintMin ≤ t.min)
    (hmax : t.max ≤ yintMax) : (fixnum (int2val n)).Represents n :=
  (represents_fixnum ⟨hmin.trans h.1, h.2.trans hmax⟩).2 rfl

theorem ne_yintMax {t : CType} (h : t.InRange n) (hmax : t.max < yintMax) : n ≠ yintMax :=
  (h.2.trans_lt hmax).ne

theorem structRead_represents_iff {t : CType} (h : t.InRange n) :
    (structRead n t).Represents n ↔ (t.signed = false → n ≠ yintMax) := by
  cases t with
  | uint8 | uint16 | uchar | ushort =>
    exact iff_of_true (fixnum_represents h (by decide) (by decide))
      fun _ => ne_yintMax h (by decide)
  | int8 | int16 | char | short =>
    exact iff_of_true (fixnum_represents h (by decide) (by decide)) nofun
  | uint32 | uint =>
    exact (fromUnsignedInt_represents_iff ⟨h.1, h.2.trans (by decide)⟩).trans
      (imp_iff_right rfl).symm
  | ulong | pointer =>
    exact (fromUnsignedInt_represents_iff h).trans (imp_iff_right rfl).symm
  | uint64 | ulonglong =>
    exact (fromUnsignedLongLong_represents_iff h).trans (imp_iff_right rfl).symm
  | int32 | int =>
    refine iff_of_true ?_ nofun
    exact represents_iff.2 (fromInt_eq_ofInt (h.1.trans' (by decide)) (h.2.trans (by decide)))
  | long =>
    exact iff_of_true (represents_iff.2 (fromInt_eq_ofInt h.1 h.2)) nofun
  | int64 | longlong =>
    exact iff_of_true (represents_iff.2 (fromLongLong_eq_ofInt h.1 h.2)) nofun

end Integer

namespace Bignum

variable (b : Bignum)

/-- Every helper that compares with an unsigned integer. -/
theorem unsigned_helpers : ∀ compare ∈ [b.compareWithUnsignedLong, b.compareWithUnsignedInt,
    b.compareWithUnsignedLongLong], ∀ n, CType.ulong.InRange n →
      (compare n = (b.toInt - n).sign ↔ ¬ (b = ⟨0, .neg⟩ ∧ n = 0)) := by
  rw [List.forall_mem_cons, List.forall_mem_cons, List.forall_mem_singleton]
  refine ⟨fun n h => ?_, fun n h => ?_, fun n h => ?_⟩
  · rw [compareWithUnsignedLong_eq h.1 h.2]
    exact b.compareUnsigned_iff h.1
  · rw [compareWithUnsignedInt_eq h.1 h.2]
    exact b.compareUnsigned_iff h.1
  · rw [compareWithUnsignedLongLong_eq h.1 h.2]
    exact b.compareUnsigned_iff h.1

/-- Every helper that compares with a signed one. -/
theorem signed_helpers : ∀ compare ∈ [b.compareWithLong, b.compareWithInt, b.compareWithLongLong],
    ∀ n, CType.long.InRange n →
      (compare n = (b.toInt - n).sign ↔ ¬ (b = ⟨0, .pos⟩ ∧ n = 0)) := by
  rw [List.forall_mem_cons, List.forall_mem_cons, List.forall_mem_singleton]
  refine ⟨fun n h => ?_, fun n h => ?_, fun n h => ?_⟩
  · rw [compareWithLong_eq h.1 h.2]
    exact b.compareSigned_iff n
  · rw [compareWithInt_eq h.1 h.2]
    exact b.compareSigned_iff n
  · rw [compareWithLongLong_eq h.1 h.2]
    exact b.compareSigned_iff n

end Bignum

theorem Fixnum.toUint_eq_ok (n : Fixnum) (name : String) {v : Int} :
    n.toUint name = .ok v ↔ CType.ulong.InRange n.toInt ∧ v = n.toInt := by
  rw [← n.inRange_unsigned rfl rfl, n.checkPositive_eq_ok]
  refine one_check.trans (Iff.trans (and_congr_left' not_lt) (and_congr_right fun h => ?_))
  have hin := (n.inRange_unsigned (t := .ulong) rfl rfl).1 ((n.checkPositive_eq_ok).2 h)
  rw [CType.assign_of_inRange hin]

theorem gives_toUint (a : Integer) (name : String) :
    Gives .ulong a.toInt (a.toUint name) ↔ a ≠ .bignum ⟨0, .neg⟩ := by
  rcases a with n | b
  · exact iff_of_true ((gives_iff _ _ _).2 fun v => n.toUint_eq_ok name) nofun
  · rw [ne_bignum_iff]
    exact b.gives_unsigned rfl rfl fun v => b.toUnsignedType_eq_ok name

theorem gives_toSignedType (a : Integer) (name : String) :
    Gives .long a.toInt (a.toSignedType name) := by
  rcases a with n | b
  · have hin : CType.long.InRange n.toInt := n.in_word
    exact (if_pos hin).mpr rfl
  · exact b.gives_signed rfl rfl fun v => b.toSignedType_eq_ok name

/-- When each conversion to C, each from C and each comparison with a C integer is right. -/
theorem conversions_iff_each (a : Integer) (b : Bignum) (name : String) :
    ((∀ t, Gives t a.toInt (writeData t a) ↔ t.WriteHolds a) ∧
      (Gives .ulong a.toInt (a.toUint name) ↔ a ≠ .bignum ⟨0, .neg⟩) ∧
      Gives .long a.toInt (a.toSignedType name) ∧
      (∀ r ∈ [b.toUnsignedLong name, b.toUnsignedType name, b.toUnsignedLongLong name],
        Gives .ulong b.toInt r ↔ b ≠ ⟨0, .neg⟩) ∧
      ∀ r ∈ [b.toLong name, b.toSignedType name, b.toLongLong name], Gives .long b.toInt r) ∧
    ((∀ t n, t.InRange n → ((structRead n t).Represents n ↔ (t.signed = false → n ≠ yintMax))) ∧
      (∀ conv ∈ [Integer.fromUnsignedInt, Integer.fromUnsignedLongLong], ∀ n,
        CType.ulong.InRange n → ((conv n).Represents n ↔ n ≠ yintMax)) ∧
      ∀ conv ∈ [Integer.fromInt, Integer.fromLongLong], ∀ n,
        CType.long.InRange n → (conv n).Represents n) ∧
    (∀ compare ∈ [b.compareWithUnsignedLong, b.compareWithUnsignedInt,
      b.compareWithUnsignedLongLong], ∀ n, CType.ulong.InRange n →
        (compare n = (b.toInt - n).sign ↔ ¬ (b = ⟨0, .neg⟩ ∧ n = 0))) ∧
    ∀ compare ∈ [b.compareWithLong, b.compareWithInt, b.compareWithLongLong], ∀ n,
      CType.long.InRange n → (compare n = (b.toInt - n).sign ↔ ¬ (b = ⟨0, .pos⟩ ∧ n = 0)) := by
  refine ⟨⟨fun t => gives_writeData t a, gives_toUint a name, gives_toSignedType a name, ?_, ?_⟩,
    ⟨fun t n => Integer.structRead_represents_iff, ?_, ?_⟩, b.unsigned_helpers, b.signed_helpers⟩
  · rw [List.forall_mem_cons, List.forall_mem_cons, List.forall_mem_singleton]
    exact ⟨b.gives_unsigned rfl rfl fun v => b.toUnsignedLong_eq_ok name,
      b.gives_unsigned rfl rfl fun v => b.toUnsignedType_eq_ok name,
      b.gives_unsigned rfl rfl fun v => b.toUnsignedLongLong_eq_ok name⟩
  · rw [List.forall_mem_cons, List.forall_mem_cons, List.forall_mem_singleton]
    exact ⟨b.gives_signed rfl rfl fun v => b.toLong_eq_ok name,
      b.gives_signed rfl rfl fun v => b.toSignedType_eq_ok name,
      b.gives_signed rfl rfl fun v => b.toLongLong_eq_ok name⟩
  · rw [List.forall_mem_cons, List.forall_mem_singleton]
    exact ⟨fun n => Integer.fromUnsignedInt_represents_iff,
      fun n => Integer.fromUnsignedLongLong_represents_iff⟩
  · rw [List.forall_mem_cons, List.forall_mem_singleton]
    exact ⟨fun n h => Integer.represents_iff.2 (Integer.fromInt_eq_ofInt h.1 h.2),
      fun n h => Integer.represents_iff.2 (Integer.fromLongLong_eq_ofInt h.1 h.2)⟩

/-- The greatest Fixnum comes back from C as a Bignum. -/
theorem not_fromUnsignedInt_represents :
    CType.ulong.InRange yintMax ∧ ¬ (Integer.fromUnsignedInt yintMax).Represents yintMax := by
  rw [Integer.represents_iff]
  decide +kernel

end Yog
