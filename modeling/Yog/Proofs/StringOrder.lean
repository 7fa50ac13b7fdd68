import Mathlib.Data.List.Lex
import Mathlib.Order.Fin.Basic
import Yog.YogString

/-!
# The order of strings

`<=>` compares the bytes of two strings, and the lowest byte of a character comes first. So it is
the lexicographic order of the characters' bytes (`ufo_cons`), which is an order, and is that of the
characters where the first two that differ are ordered by their bytes as they are themselves.
-/

namespace Yog.YogString

/-- The bytes of a character, as numbers. -/
def charBytes (c : YogChar) : List ℕ := (Bytes.littleEndian 4 c.val).map UInt8.toNat

theorem littleEndian_inj {x y : YogChar} :
    Bytes.littleEndian 4 x.val = Bytes.littleEndian 4 y.val ↔ x = y := by
  refine ⟨fun h => ?_, fun h => by rw [h]⟩
  have hv := congrArg Bytes.value h
  rw [Bytes.value_littleEndian, Bytes.value_littleEndian] at hv
  have hx := x.isLt
  have hy := y.isLt
  exact Fin.ext (by omega)

@[simp]
theorem charBytes_inj {x y : YogChar} : charBytes x = charBytes y ↔ x = y :=
  (List.map_injective_iff.2 fun _ _ => UInt8.toNat_inj.1).eq_iff.trans littleEndian_inj

/-- Two pieces of one length decide, or leave it to what follows. -/
theorem memcmp_append (n : Nat) (xs ys : List UInt8) : ∀ {k l : List UInt8}, k.length = l.length →
    memcmp (k.length + n) (k ++ xs) (l ++ ys) =
      if k = l then memcmp n xs ys
      else if k.map UInt8.toNat < l.map UInt8.toNat then -1 else 1
  | [], [], _ => by simp
  | x :: k, y :: l, h => by
    have ih := memcmp_append n xs ys (show k.length = l.length by simpa using h)
    rw [List.length_cons, Nat.add_right_comm, List.cons_append, List.cons_append, memcmp, ih]
    simp only [UInt8.lt_iff_toNat_lt, List.cons.injEq, ← UInt8.toNat_inj, List.map_cons,
      List.cons_lt_cons_iff]
    rcases lt_trichotomy x.toNat y.toNat with hlt | heq | hgt
    · simp [hlt, hlt.ne]
    · simp [heq]
    · simp [hgt, hgt.ne', hgt.not_gt]

theorem memcmp_chars_cons (n : Nat) (x y : YogChar) (self s : List YogChar) :
    memcmp (4 * (n + 1)) (chars (x :: self)) (chars (y :: s)) =
      if x = y then memcmp (4 * n) (chars self) (chars s)
      else if charBytes x < charBytes y then -1 else 1 := by
  have h := memcmp_append (4 * n) (chars self) (chars s)
    (show (Bytes.littleEndian 4 x.val).length = (Bytes.littleEndian 4 y.val).length by simp)
  rw [Bytes.length_littleEndian, Nat.add_comm] at h
  simp only [littleEndian_inj] at h
  exact h

theorem getSmallerSize_cons (x y : YogChar) (self s : List YogChar) :
    getSmallerSize (x :: self) (y :: s) = getSmallerSize self s + 1 := by
  unfold getSmallerSize
  split_ifs <;> simp_all

@[simp]
theorem ufo_nil : ufo [] [] = 0 := rfl

@[simp]
theorem ufo_nil_cons (y : YogChar) (s : List YogChar) : ufo [] (y :: s) = -1 := by
  simp [ufo, getSmallerSize, memcmp]

@[simp]
theorem ufo_cons_nil (x : YogChar) (self : List YogChar) : ufo (x :: self) [] = 1 := by
  simp [ufo, getSmallerSize, memcmp]

/-- The first characters decide by their bytes, if they differ. -/
theorem ufo_cons (x y : YogChar) (self s : List YogChar) : ufo (x :: self) (y :: s) =
    if x = y then ufo self s else if charBytes x < charBytes y then -1 else 1 := by
  unfold ufo
  simp only [getSmallerSize_cons, memcmp_chars_cons, List.length_cons, Nat.add_lt_add_iff_right]
  split_ifs <;> simp_all

/-- What `<=>` answers is where the characters' bytes are in the lexicographic order. -/
theorem ufo_cases (self s : List YogChar) :
    (ufo self s = -1 ∧ self.map charBytes < s.map charBytes) ∨
    (ufo self s = 0 ∧ self = s) ∨
    (ufo self s = 1 ∧ s.map charBytes < self.map charBytes) := by
  induction self generalizing s with
  | nil =>
    rcases s with _ | ⟨y, s⟩
    · simp
    · simp
  | cons x self ih =>
    rcases s with _ | ⟨y, s⟩
    · simp
    · rw [ufo_cons]
      by_cases hxy : x = y
      · subst hxy
        simpa using ih s
      · rcases lt_trichotomy (charBytes x) (charBytes y) with hlt | heq | hgt
        · rw [if_neg hxy, if_pos hlt]
          exact .inl ⟨rfl, .rel hlt⟩
        · exact absurd (charBytes_inj.1 heq) hxy
        · rw [if_neg hxy, if_neg hgt.not_gt]
          exact .inr (.inr ⟨rfl, .rel hgt⟩)

theorem ufo_eq_zero_iff {self s : List YogChar} : ufo self s = 0 ↔ self = s := by
  constructor
  · intro h
    rcases ufo_cases self s with ⟨h', -⟩ | ⟨-, h'⟩ | ⟨h', -⟩
    · omega
    · exact h'
    · omega
  · rintro rfl
    rcases ufo_cases self self with ⟨-, h⟩ | ⟨h, -⟩ | ⟨-, h⟩
    · exact absurd h (lt_irrefl _)
    · exact h
    · exact absurd h (lt_irrefl _)

@[simp]
theorem equal_iff {self s : List YogChar} : equal self s = true ↔ self = s := by
  simp [equal, ufo_eq_zero_iff]

theorem ufo_nonpos_iff {self s : List YogChar} :
    ufo self s ≤ 0 ↔ self.map charBytes ≤ s.map charBytes := by
  rcases ufo_cases self s with ⟨h, hlt⟩ | ⟨h, rfl⟩ | ⟨h, hgt⟩
  · simp [h, hlt.le]
  · simp [h]
  · simp [h, hgt]

/-- The other way around the answer is the opposite one. -/
theorem ufo_swap (self s : List YogChar) : ufo s self = - ufo self s := by
  rcases ufo_cases self s with ⟨h, hlt⟩ | ⟨-, rfl⟩ | ⟨h, hgt⟩
  · rcases ufo_cases s self with ⟨-, hlt'⟩ | ⟨-, rfl⟩ | ⟨h', -⟩
    · exact absurd hlt (lt_asymm hlt')
    · exact absurd hlt (lt_irrefl _)
    · rw [h, h']
      rfl
  · rw [ufo_eq_zero_iff.2 rfl]
    rfl
  · rcases ufo_cases s self with ⟨h', -⟩ | ⟨-, rfl⟩ | ⟨-, hgt'⟩
    · rw [h, h']
    · exact absurd hgt (lt_irrefl _)
    · exact absurd hgt (lt_asymm hgt')

/-- `<=>` answers after the lexicographic order of the code points. -/
structure Ordered (self s : List YogChar) : Prop where
  neg : ufo self s < 0 ↔ self < s
  zero : ufo self s = 0 ↔ self = s
  pos : 0 < ufo self s ↔ s < self

/-- The first two characters that differ are ordered by their bytes as they are themselves. -/
def BytesAgree (self s : List YogChar) : Prop :=
  ∀ before x y after after', self = before ++ x :: after → s = before ++ y :: after' → x ≠ y →
    (charBytes x < charBytes y ↔ x < y)

theorem bytesAgree_cons {x : YogChar} {self s : List YogChar} :
    BytesAgree (x :: self) (x :: s) ↔ BytesAgree self s := by
  constructor
  · intro h before y z after after' hself hs
    exact h (x :: before) y z after after' (by rw [hself]; rfl) (by rw [hs]; rfl)
  · intro h before y z after after' hself hs hne
    rcases before with _ | ⟨w, before⟩
    · simp only [List.nil_append, List.cons.injEq] at hself hs
      exact absurd (hself.1.symm.trans hs.1) hne
    · simp only [List.cons_append, List.cons.injEq] at hself hs
      exact h before y z after after' hself.2 hs.2 hne

theorem bytesAgree_cons_of_ne {x y : YogChar} {self s : List YogChar} (hxy : x ≠ y) :
    BytesAgree (x :: self) (y :: s) ↔ (charBytes x < charBytes y ↔ x < y) := by
  constructor
  · intro h
    exact h [] x y self s rfl rfl hxy
  · intro h before z w after after' hself hs hne
    rcases before with _ | ⟨v, before⟩
    · simp only [List.nil_append, List.cons.injEq] at hself hs
      rwa [← hself.1, ← hs.1]
    · simp only [List.cons_append, List.cons.injEq] at hself hs
      exact absurd (hself.1.trans hs.1.symm) hxy

theorem ordered_cons {x : YogChar} {self s : List YogChar} :
    Ordered (x :: self) (x :: s) ↔ Ordered self s := by
  have hlt (a b : List YogChar) : x :: a < x :: b ↔ a < b := by simp
  constructor
  · rintro ⟨hneg, hzero, hpos⟩
    rw [ufo_cons, if_pos rfl] at hneg hzero hpos
    exact ⟨hneg.trans (hlt _ _), hzero.trans (by simp), hpos.trans (hlt _ _)⟩
  · rintro ⟨hneg, hzero, hpos⟩
    refine ⟨?_, ?_, ?_⟩ <;> rw [ufo_cons, if_pos rfl]
    · exact hneg.trans (hlt _ _).symm
    · exact hzero.trans (by simp)
    · exact hpos.trans (hlt _ _).symm

theorem ordered_cons_of_ne {x y : YogChar} {self s : List YogChar} (hxy : x ≠ y) :
    Ordered (x :: self) (y :: s) ↔ (charBytes x < charBytes y ↔ x < y) := by
  have hlt (a b : YogChar) (u v : List YogChar) (h : a ≠ b) : a :: u < b :: v ↔ a < b := by
    simp [List.cons_lt_cons_iff, h]
  have hufo := ufo_cons x y self s
  rw [if_neg hxy] at hufo
  constructor
  · rintro ⟨hneg, -, -⟩
    rw [← hlt x y self s hxy, ← hneg, hufo]
    split_ifs with h <;> simp [h]
  · intro h
    refine ⟨?_, ?_, ?_⟩ <;> rw [hufo]
    · rw [hlt x y self s hxy, ← h]
      split_ifs with h' <;> simp [h']
    · split_ifs <;> simp [hxy]
    · rw [hlt y x s self hxy.symm]
      split_ifs with h'
      · simp [(h.1 h').not_gt]
      · have hyx : y < x := lt_of_le_of_ne (not_lt.1 fun hx => h' (h.2 hx)) hxy.symm
        simp [hyx]

theorem ordered_iff (self s : List YogChar) : Ordered self s ↔ BytesAgree self s := by
  induction self generalizing s with
  | nil =>
    refine iff_of_true ?_ fun before x y after after' hself => by simp at hself
    rcases s with _ | ⟨y, s⟩ <;> constructor <;> simp
  | cons x self ih =>
    rcases s with _ | ⟨y, s⟩
    · refine iff_of_true ?_ fun before x y after after' _ hs => by simp at hs
      constructor <;> simp
    · by_cases hxy : x = y
      · rw [← hxy, ordered_cons, bytesAgree_cons, ih]
      · rw [ordered_cons_of_ne hxy, bytesAgree_cons_of_ne hxy]

/-- `<=>` is an order of strings, and of their code points where the bytes agree with them. -/
theorem ufo_order (self s t : List YogChar) :
    (Ordered self s ↔ BytesAgree self s) ∧
      ((ufo self s = 0 ↔ self = s) ∧ ufo s self = - ufo self s) ∧
      (ufo self s ≤ 0 → ufo s t ≤ 0 → ufo self t ≤ 0) := by
  refine ⟨ordered_iff self s, ⟨ufo_eq_zero_iff, ufo_swap self s⟩, fun hs ht => ?_⟩
  rw [ufo_nonpos_iff] at hs ht ⊢
  exact hs.trans ht

/-- The lowest byte of `U+0100` is below that of `U+00FF`. -/
theorem not_ordered : ¬ Ordered [toYogChar 0x100] [toYogChar 0xff] := by
  rintro ⟨hneg, -, -⟩
  exact absurd (hneg.1 (by decide)) (by decide)

end Yog.YogString
