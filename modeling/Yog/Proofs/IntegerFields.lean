import Yog.FieldMemory
import Yog.Proofs.Conversions

/-!
# Integer fields

A word that is stored is loaded again, whatever its width, and the memory outside of it stays
(`Memory.load_store`, `Memory.store_frame`). So a write to a field is right where the conversion to
its type is, and what is read back is canonical but for the greatest Fixnum in an unsigned field.
-/

namespace Yog

namespace Ffi

namespace Memory

variable (mem : Memory)

theorem getLsbD_load (size ptr i : ℕ) :
    (mem.load size ptr).getLsbD i = (decide (i < 8 * size) && mem.bit (8 * ptr + i)) := by
  induction size generalizing ptr i with
  | zero => simp [load]
  | succ size ih =>
    show (mem.load size (ptr + 1) ++ mem ptr).getLsbD i = _
    rw [BitVec.getLsbD_append]
    by_cases hi : i < 8
    · have hdiv : (8 * ptr + i) / 8 = ptr := by omega
      have hmod : (8 * ptr + i) % 8 = i := by omega
      have hlt : i < 8 * (size + 1) := by omega
      simp [hi, hlt, bit, hdiv, hmod]
    · have hpos : 8 * (ptr + 1) + (i - 8) = 8 * ptr + i := by omega
      rw [if_neg hi, ih, hpos]
      congr 1
      apply decide_eq_decide.2
      omega

variable {size : ℕ} (ptr : ℕ) (word : BitVec (8 * size))

theorem bit_store (j : ℕ) : (mem.store ptr word).bit j =
    if 8 * ptr ≤ j ∧ j < 8 * (ptr + size) then word.getLsbD (j - 8 * ptr) else mem.bit j := by
  unfold bit store
  by_cases h : 8 * ptr ≤ j ∧ j < 8 * (ptr + size)
  · have hbyte : ptr ≤ j / 8 ∧ j / 8 < ptr + size := by omega
    have hpos : 8 * (j / 8 - ptr) + j % 8 = j - 8 * ptr := by omega
    have hmod : j % 8 < 8 := by omega
    rw [if_pos h, if_pos hbyte, BitVec.getLsbD_extractLsb', hpos]
    simp [hmod]
  · have hbyte : ¬ (ptr ≤ j / 8 ∧ j / 8 < ptr + size) := by omega
    rw [if_neg h, if_neg hbyte]

theorem load_store : (mem.store ptr word).load size ptr = word := by
  apply BitVec.eq_of_getLsbD_eq
  intro i hi
  have hin : 8 * ptr ≤ 8 * ptr + i ∧ 8 * ptr + i < 8 * (ptr + size) := by omega
  rw [getLsbD_load, bit_store, if_pos hin, Nat.add_sub_cancel_left]
  simp [hi]

theorem store_frame {k : ℕ} (hk : ¬ (ptr ≤ k ∧ k < ptr + size)) : mem.store ptr word k = mem k :=
  if_neg hk

end Memory

theorem bits_eq (t : CType) : 2 ^ (8 * sizeOf t) = 2 ^ t.bits := by cases t <;> rfl

theorem loadInteger_storeInteger (mem : Memory) (ptr : ℕ) (t : CType) (n : Int) :
    loadInteger (storeInteger mem ptr t n) ptr t = t.assign n := by
  unfold loadInteger storeInteger CType.assign
  rw [Memory.load_store, BitVec.toInt_ofInt, bits_eq]
  split_ifs
  · rfl
  · rw [BitVec.toNat_ofInt, Int.toNat_of_nonneg (Int.emod_nonneg _ (by positivity))]
    push_cast [bits_eq]
    norm_cast

/-- Where a conversion in the range of its type is not right, it raises. -/
theorem writeData_raises {t : CType} {a : Integer} (h : t.InRange a.toInt)
    (hold : ¬ t.WriteHolds a) : ∃ e, Yog.writeData t a = .error e := by
  cases t with
  | uint8 | int8 | uint16 | int16 | uchar | char | ushort | short =>
    rcases a with n | b
    · exact absurd (.inl trivial) hold
    · exact ⟨_, rfl⟩
  | int => exact absurd (fun _ => h) hold
  | uint =>
    obtain rfl : a = .bignum ⟨0, .neg⟩ := by
      by_contra hne
      exact hold ⟨fun _ => h.2, hne⟩
    exact ⟨_, rfl⟩
  | uint32 | uint64 | ulong | ulonglong | pointer =>
    obtain rfl : a = .bignum ⟨0, .neg⟩ := not_not.1 hold
    exact ⟨_, rfl⟩
  | int32 | int64 | long | longlong => exact absurd trivial hold

/-- What the write of `a` to the field at `offset` should come to: it raises and changes nothing, or
`a` is read back and nothing outside of the field has changed. -/
def Exact (mem : Memory) (data offset : ℕ) (t : CType) (a : Integer) (w : Written) : Prop :=
  if t.InRange a.toInt then
    w.1 = .ok () ∧ (structRead w.2 data offset t).Represents a.toInt ∧
      ∀ k, ¬ (data + offset ≤ k ∧ k < data + offset + sizeOf t) → w.2 k = mem k
  else (∃ e, w.1 = .error e) ∧ w.2 = mem

/-- Where it does: as in `CType.WriteHolds`, and the greatest Fixnum is read from an unsigned field
as a Bignum. -/
def FieldHolds (t : CType) (a : Integer) : Prop :=
  t.WriteHolds a ∧ (t.signed = false → t.InRange a.toInt → a.toInt ≠ yintMax)

theorem exact_iff (mem : Memory) (data offset : ℕ) (t : CType) (a : Integer) :
    Exact mem data offset t a (writeData mem (data + offset) t a) ↔ FieldHolds t a := by
  have hgives := gives_writeData t a
  unfold Gives at hgives
  unfold Exact FieldHolds structRead
  rw [← hgives]
  by_cases hin : t.InRange a.toInt
  · simp only [hin, if_true, true_imp_iff] at hgives ⊢
    by_cases hok : Yog.writeData t a = .ok a.toInt
    · have hw : writeData mem (data + offset) t a =
          (.ok (), storeInteger mem (data + offset) t a.toInt) := by simp [writeData, hok]
      rw [hw, loadInteger_storeInteger, CType.assign_of_inRange hin,
        Integer.structRead_represents_iff hin]
      simp only [hok, true_and]
      exact and_iff_left fun k hk => Memory.store_frame _ _ _ hk
    · obtain ⟨e, he⟩ := writeData_raises hin (mt hgives.2 hok)
      refine iff_of_false ?_ fun h => hok h.1
      simp [writeData, he]
  · simp only [hin, if_false, false_imp_iff, imp_true_iff, and_true]
    unfold writeData
    rcases Yog.writeData t a with e | n <;> simp

/-- When a field of a struct and an argument of a call are written as they should be. -/
theorem integerFields_iff (mem : Memory) (data offset pvalue : ℕ) (t : CType) (a : Integer) :
    (Exact mem data offset t a (structWrite mem data offset t a) ↔ FieldHolds t a) ∧
      (Exact mem pvalue 0 t a (writeArgument mem pvalue t a) ↔ FieldHolds t a) :=
  ⟨exact_iff mem data offset t a, exact_iff mem pvalue 0 t a⟩

/-- An `int` takes a Fixnum that it cannot hold. -/
theorem not_exact_int : ¬ Exact (fun _ => 0) 8 4 .int (.fixnum (int2val (2 ^ 31)))
    (structWrite (fun _ => 0) 8 4 .int (.fixnum (int2val (2 ^ 31)))) := by
  have hin : ¬ CType.int.InRange (Integer.fixnum (int2val (2 ^ 31))).toInt := by decide
  unfold Exact
  rw [if_neg hin]
  rintro ⟨⟨e, he⟩, -⟩
  cases he

end Ffi

end Yog
