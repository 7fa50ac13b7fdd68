import Yog.Lib.TwosComplement
import Yog.Proofs.IntegerFields
import Yog.Proofs.StructLayout

/-!
# Bit fields

The getters of `ffi.c` read the bits of a field wherever the layout puts it, as long as the mask is
defined (`bitFieldGet_eq`, `unsignedBitFieldGet_eq`). The setters write them at the right place only
when the field lies in one byte or begins with one, and the bits of a negative value run on to the
end of the last byte (`bit_writeBitField`).
-/

namespace Yog

namespace Ffi

open Lib

/-- The widths for which `make_mask` is defined. -/
def Maskable (width : ℕ) : Prop := width < 32 ∨ width = 64

theorem makeMask_eq {width : ℕ} (h : Maskable width) :
    makeMask width = some (BitVec.ofNat 64 (2 ^ width - 1)) := by
  rcases h with h | rfl
  · revert width
    decide
  · rfl

theorem makeMask_none {width : ℕ} (h : ¬ Maskable width) (hle : width ≤ 64) :
    makeMask width = none := by
  unfold Maskable at h
  unfold makeMask
  rw [if_pos (by omega), if_neg (by omega)]

theorem getLsbD_mask (width i : ℕ) :
    (BitVec.ofNat 64 (2 ^ width - 1)).getLsbD i = (decide (i < 64) && decide (i < width)) := by
  rw [BitVec.getLsbD_ofNat, Nat.testBit_two_pow_sub_one]

theorem writeByte_eq (c : BitVec 8) (n : BitVec 64) (width : ℕ) {pos : ℕ} (hpos : pos < 8) :
    ∃ c', writeByte c n pos width = some c' ∧ ∀ i < 8, c'.getLsbD i =
      if i < pos then c.getLsbD i
      else if i < pos + width then n.getLsbD (i - pos)
      else c.getLsbD i || n.getLsbD (i - pos) := by
  have hupper : Maskable (min width (8 - pos)) := by
    left
    omega
  have hlower : Maskable pos := by
    left
    omega
  unfold writeByte
  rw [makeMask_eq hupper, makeMask_eq hlower]
  refine ⟨_, rfl, fun i hi => ?_⟩
  have hff : ∀ k < 8, (0xff &&& n).getLsbD k = n.getLsbD k := by
    intro k hk
    rw [BitVec.getLsbD_and, show (0xff : BitVec 64) = BitVec.ofNat 64 (2 ^ 8 - 1) from rfl,
      getLsbD_mask]
    simp [hk, show k < 64 by omega]
  have hlow : i < 64 := by omega
  rw [BitVec.getLsbD_setWidth, BitVec.getLsbD_or, BitVec.getLsbD_and, BitVec.getLsbD_or,
    BitVec.getLsbD_shiftLeft, BitVec.getLsbD_shiftLeft, BitVec.getLsbD_not, getLsbD_mask,
    getLsbD_mask, BitVec.getLsbD_signExtend, hff (i - pos) (by omega)]
  by_cases h₁ : i < pos
  · simp [h₁, hi, hlow]
  · by_cases h₂ : i < pos + width
    · have hmin : i - pos < min width (8 - pos) := by omega
      simp [h₁, h₂, hi, hlow, hmin]
    · have hmin : ¬ i - pos < min width (8 - pos) := by omega
      have hlt : i - pos < 64 := by omega
      simp [h₁, h₂, hi, hlow, hmin, hlt]

theorem bit_setByte (mem : Memory) (ptr : ℕ) (c : BitVec 8) (j : ℕ) :
    (mem.setByte ptr c).bit j = if j / 8 = ptr then c.getLsbD (j % 8) else mem.bit j := by
  unfold Memory.bit Memory.setByte
  split_ifs <;> rfl

/-- What `write_bit_field` makes of the bits behind the byte `base`. Where the last byte is only
partly in the field, the bits above it get those of `n` added; where the first one is, they go on
at the next byte as if it were not. -/
def writtenBit (mem : Memory) (n : BitVec 64) (base pos width j : ℕ) : Bool :=
  if j < base + pos then mem.bit j
  else if j < base + 8 then
    if j < base + pos + width then n.getLsbD (j - base - pos)
    else mem.bit j || n.getLsbD (j - base - pos)
  else if j < base + width then n.getLsbD (j - base)
  else if j < base + 8 * ((width + 7) / 8) then mem.bit j || n.getLsbD (j - base)
  else mem.bit j

/-- The byte that `write_bit_field` stores first. -/
theorem bit_firstByte {mem : Memory} {ptr : ℕ} {n : BitVec 64} {pos width : ℕ} {c : BitVec 8}
    (hc : ∀ i < 8, c.getLsbD i =
      if i < pos then (mem ptr).getLsbD i
      else if i < pos + width then n.getLsbD (i - pos)
      else (mem ptr).getLsbD i || n.getLsbD (i - pos)) (j : ℕ) :
    (mem.setByte ptr c).bit j =
      if j < 8 * ptr + 8 then writtenBit mem n (8 * ptr) pos width j else mem.bit j := by
  rw [bit_setByte]
  unfold writtenBit
  by_cases hj : j / 8 = ptr
  · have hbit : mem.bit j = (mem ptr).getLsbD (j % 8) := by rw [Memory.bit, hj]
    have hlt : j < 8 * ptr + 8 := by omega
    have h₁ : j % 8 < pos ↔ j < 8 * ptr + pos := by omega
    have h₂ : j % 8 < pos + width ↔ j < 8 * ptr + pos + width := by omega
    rw [if_pos hj, hc (j % 8) (by omega), if_pos hlt, if_pos hlt, hbit,
      show j - 8 * ptr - pos = j % 8 - pos by omega]
    simp only [h₁, h₂]
  · rw [if_neg hj]
    by_cases hlt : j < 8 * ptr + 8
    · rw [if_pos hlt, if_pos (by omega)]
    · rw [if_neg hlt]

theorem bit_writeBitField (mem : Memory) (ptr : ℕ) (n : BitVec 64) (pos width : ℕ)
    (hwidth : 0 < width) : ∃ mem', writeBitField mem ptr n pos width = some mem' ∧
      ∀ j, mem'.bit j = writtenBit mem n (8 * (ptr + pos / 8)) (pos % 8) width j := by
  induction mem, ptr, n, pos, width using writeBitField.induct with
  | case1 mem ptr n pos width hpos ih =>
    obtain ⟨mem', hmem', hbit⟩ := ih hwidth
    rw [writeBitField, if_pos hpos]
    refine ⟨mem', hmem', fun j => ?_⟩
    rw [hbit, show ptr + 1 + (pos - 8) / 8 = ptr + pos / 8 by omega,
      show (pos - 8) % 8 = pos % 8 by omega]
  | case2 mem ptr n pos width hpos ih =>
    obtain ⟨c, hc, hbits⟩ := writeByte_eq (mem ptr) n width (by omega : pos < 8)
    have hfirst := bit_firstByte hbits
    rw [writeBitField, if_neg hpos, hc, show ptr + pos / 8 = ptr by omega,
      show pos % 8 = pos by omega]
    by_cases hshort : width ≤ 8
    · refine ⟨mem.setByte ptr c, by simp [hshort], fun j => ?_⟩
      rw [hfirst]
      by_cases hlt : j < 8 * ptr + 8
      · rw [if_pos hlt]
      · unfold writtenBit
        rw [if_neg hlt, if_neg (by omega), if_neg hlt, if_neg (by omega), if_neg (by omega)]
    · obtain ⟨mem', hmem', hbit⟩ := ih c hshort (by omega)
      refine ⟨mem', by simp [hshort, hmem'], fun j => ?_⟩
      rw [hbit]
      by_cases hlt : j < 8 * ptr + 8
      · rw [writtenBit, if_pos (by omega), hfirst, if_pos hlt]
      · have hold : (mem.setByte ptr c).bit j = mem.bit j := by rw [hfirst, if_neg hlt]
        have hn : (n >>> 8).getLsbD (j - 8 * (ptr + 1)) = n.getLsbD (j - 8 * ptr) := by
          rw [BitVec.getLsbD_ushiftRight, show 8 + (j - 8 * (ptr + 1)) = j - 8 * ptr by omega]
        unfold writtenBit
        simp only [Nat.zero_div, Nat.zero_mod, Nat.add_zero, Nat.sub_zero, hold, hn]
        split_ifs <;> first | rfl | omega

/-- What lies in a field are the low bits of `z`. -/
def Carries (mem : Memory) (start width : ℕ) (z : Int) : Prop :=
  ∀ i < width, mem.bit (start + i) = z.testBit i

theorem eq_ofInt_iff (x : BitVec 64) (z : Int) :
    x = BitVec.ofInt 64 z ↔ ∀ i < 64, x.getLsbD i = z.testBit i := by
  constructor
  · rintro rfl i hi
    rw [getLsbD_ofInt, decide_eq_true hi, Bool.true_and]
  · intro h
    apply BitVec.eq_of_getLsbD_eq
    intro i hi
    rw [h i hi, getLsbD_ofInt, decide_eq_true hi, Bool.true_and]

theorem toInt_eq_iff {x : BitVec 64} {z : Int} (hz : InWidth 63 z) :
    x.toInt = z ↔ x = BitVec.ofInt 64 z := by
  obtain ⟨h₁, h₂⟩ := (inWidth_iff 63 z).1 hz
  constructor
  · rintro rfl
    exact BitVec.ofInt_toInt.symm
  · rintro rfl
    rw [BitVec.toInt_ofInt]
    exact Int.bmod_eq_of_le (by omega) (by omega)

theorem toNat_eq_iff {x : BitVec 64} {z : Int} (h₀ : 0 ≤ z) (hz : z < 2 ^ 64) :
    (x.toNat : Int) = z ↔ x = BitVec.ofInt 64 z := by
  constructor
  · rintro rfl
    rw [BitVec.ofInt_natCast, BitVec.ofNat_toNat, BitVec.setWidth_eq]
  · rintro rfl
    rw [BitVec.toNat_ofInt, Int.emod_eq_of_lt h₀ (by exact_mod_cast hz), Int.toNat_of_nonneg h₀]

theorem extendSign_eq {x : BitVec 64} {width : ℕ} (hwidth : width < 32)
    (hx : ∀ i, width ≤ i → x.getLsbD i = false) :
    ∃ y, extendSign x width = some y ∧
      ∀ i < 64, y.getLsbD i = if i < width then x.getLsbD i else x.getLsbD (width - 1) := by
  unfold extendSign
  rcases hsign : x.getLsbD (width - 1) with _ | _
  · refine ⟨x, by simp, fun i hi => ?_⟩
    split_ifs with hin
    · rfl
    · exact hx i (by omega)
  · refine ⟨x ||| ~~~BitVec.ofNat 64 (2 ^ width - 1), by simp [makeMask_eq (.inl hwidth)],
      fun i hi => ?_⟩
    rw [BitVec.getLsbD_or, BitVec.getLsbD_not, getLsbD_mask]
    by_cases hin : i < width <;> simp [hin, hi]

section Reading

variable (mem : Memory) (data : ℕ) {pos width : ℕ}

theorem bitFieldGet_eq (hpos : 0 < width) (hwidth : width < 32) (hword : pos + width ≤ 64) :
    ∃ v, bitFieldGet mem data pos width = some v ∧ ∀ z, InWidth (width - 1) z →
      (v.toInt = z ↔ Carries mem (8 * data + pos) width z) := by
  set x := (mem.load 8 data).sshiftRight pos &&& BitVec.ofNat 64 (2 ^ width - 1) with hx
  have hbits : ∀ i < width, x.getLsbD i = mem.bit (8 * data + pos + i) := by
    intro i hi
    rw [hx, BitVec.getLsbD_and, BitVec.getLsbD_sshiftRight, Memory.getLsbD_load, getLsbD_mask]
    simp [hi, show i < 64 by omega, show pos + i < 64 by omega, Nat.add_assoc]
  have hhigh : ∀ i, width ≤ i → x.getLsbD i = false := by
    intro i hi
    rw [hx, BitVec.getLsbD_and, getLsbD_mask]
    simp [show ¬ i < width by omega]
  obtain ⟨y, hy, hext⟩ := extendSign_eq hwidth hhigh
  refine ⟨.fromInt y.toInt, ?_, fun z hz => ?_⟩
  · simp only [bitFieldGet, makeMask_eq (.inl hwidth), Option.bind_eq_bind, Option.bind_some]
    rw [← hx, hy]
    rfl
  · have hval : (Integer.fromInt y.toInt).toInt = y.toInt := by
      have h₁ := BitVec.le_toInt y
      have h₂ := BitVec.toInt_lt (x := y)
      rw [Integer.fromInt_eq_ofInt (by unfold longMin; omega) (by unfold longMax; omega),
        Integer.toInt_ofInt]
    rw [hval, toInt_eq_iff (hz.mono (by omega)), eq_ofInt_iff]
    constructor
    · intro h i hi
      rw [← hbits i hi, ← h i (by omega), hext i (by omega), if_pos hi]
    · intro h i hi
      rw [hext i hi]
      split_ifs with hin
      · rw [hbits i hin, h i hin]
      · rw [hbits _ (by omega), h _ (by omega), hz.testBit le_rfl, hz.testBit (by omega)]

theorem unsignedBitFieldGet_eq (hmask : Maskable width) (hword : pos + width ≤ 64) :
    ∃ v, unsignedBitFieldGet mem data pos width = some v ∧ ∀ z, 0 ≤ z → z < 2 ^ width →
      (v.toInt = z ↔ Carries mem (8 * data + pos) width z) := by
  set x := (mem.load 8 data >>> pos) &&& BitVec.ofNat 64 (2 ^ width - 1) with hx
  have hbits : ∀ i < width, x.getLsbD i = mem.bit (8 * data + pos + i) := by
    intro i hi
    rw [hx, BitVec.getLsbD_and, BitVec.getLsbD_ushiftRight, Memory.getLsbD_load, getLsbD_mask]
    simp [hi, show i < 64 by omega, show pos + i < 64 by omega, Nat.add_assoc]
  have hhigh : ∀ i, width ≤ i → x.getLsbD i = false := by
    intro i hi
    rw [hx, BitVec.getLsbD_and, getLsbD_mask]
    simp [show ¬ i < width by omega]
  refine ⟨.fromUnsignedInt x.toNat, ?_, fun z hz₀ hz => ?_⟩
  · simp only [unsignedBitFieldGet, makeMask_eq hmask, Option.bind_eq_bind, Option.bind_some]
    rw [← hx]
    rfl
  · have hone : (0 : Int) ≤ 2 ^ width := by positivity
    have hfits : InWidth width z := (inWidth_iff _ _).2 ⟨by omega, hz⟩
    have hle : (2 : Int) ^ width ≤ 2 ^ 64 := pow_le_pow_right₀ (by decide) (by omega)
    have hlt := x.isLt
    have hrange : CType.ulong.InRange x.toNat := by
      show (0 : Int) ≤ x.toNat ∧ (x.toNat : Int) ≤ 2 ^ 64 - 1
      omega
    rw [Integer.toInt_fromUnsignedInt hrange, toNat_eq_iff hz₀ (by omega), eq_ofInt_iff]
    constructor
    · intro h i hi
      rw [← hbits i hi, h i (by omega)]
    · intro h i hi
      by_cases hin : i < width
      · rw [hbits i hin, h i hin]
      · rw [hhigh i (by omega), hfits.testBit (by omega)]
        simp [hz₀]

end Reading

/-- Nothing but the field has changed. -/
def Untouched (mem mem' : Memory) (start width : ℕ) : Prop :=
  ∀ j, ¬ (start ≤ j ∧ j < start + width) → mem'.bit j = mem.bit j

/-- The field lies in one byte or starts with one, and a negative value ends with one. A field of
more than a byte may also lie across when the value only has ones where it is torn apart. -/
def InPlace (pos width : ℕ) (z : Int) : Prop :=
  (pos % 8 = 0 ∨ pos % 8 + width ≤ 8 ∨ 8 < width ∧ -2 ^ (8 - pos % 8) ≤ z ∧ z < 0) ∧
    (z < 0 → (pos + width) % 8 = 0)

section Writing

variable {mem mem' : Memory} {data pos width : ℕ} {z : Int}

/-- `write_bit_field` at the memory `mem` does what it should. -/
def Stores (mem : Memory) (data pos width : ℕ) (z : Int) : Prop :=
  ∀ mem', writeBitField mem data (BitVec.ofInt 64 z) pos width = some mem' →
    Carries mem' (8 * data + pos) width z ∧ Untouched mem mem' (8 * data + pos) width

theorem stores_iff (hwidth : 0 < width) : Stores mem data pos width z ↔
    (∀ i < width, writtenBit mem (BitVec.ofInt 64 z) (8 * (data + pos / 8)) (pos % 8) width
      (8 * (data + pos / 8) + pos % 8 + i) = z.testBit i) ∧
    ∀ j, ¬ (8 * (data + pos / 8) + pos % 8 ≤ j ∧ j < 8 * (data + pos / 8) + pos % 8 + width) →
      writtenBit mem (BitVec.ofInt 64 z) (8 * (data + pos / 8)) (pos % 8) width j = mem.bit j := by
  obtain ⟨mem', hmem', hbit⟩ := bit_writeBitField mem data (BitVec.ofInt 64 z) pos width hwidth
  have hstart : 8 * data + pos = 8 * (data + pos / 8) + pos % 8 := by omega
  unfold Stores Carries Untouched
  simp only [hmem', Option.some.injEq, forall_eq', hbit, hstart]

theorem neg_pow_le_of_testBit {k : ℕ} (hneg : z < 0) (h : ∀ i, k ≤ i → z.testBit i = true) :
    -2 ^ k ≤ z := by
  rcases z with m | m
  · exact absurd hneg (by simp)
  · have hm : m < 2 ^ k := by
      apply Nat.lt_pow_two_of_testBit
      intro i hi
      have hbit := h i hi
      change (!m.testBit i) = true at hbit
      simpa using hbit
    exact ((inWidth_iff k (Int.negSucc m)).1 hm).1

theorem stores_of_inPlace (hwidth : 0 < width) (hword : pos + width ≤ 64) (hz : InWidth width z)
    (h : InPlace pos width z) : Stores mem data pos width z := by
  rw [stores_iff hwidth]
  have hn : ∀ k < 64, (BitVec.ofInt 64 z).getLsbD k = z.testBit k := by
    intro k hk
    rw [getLsbD_ofInt, decide_eq_true hk, Bool.true_and]
  have hzero : 0 ≤ z → ∀ k, width ≤ k → (BitVec.ofInt 64 z).getLsbD k = false := by
    intro h₀ k hk
    rw [getLsbD_ofInt, hz.testBit hk, decide_eq_false (not_lt.2 h₀), Bool.and_false]
  generalize 8 * (data + pos / 8) = base
  obtain ⟨hplace, hends⟩ := h
  have hlt : pos % 8 < 8 := by omega
  have hends' : z < 0 → (pos % 8 + width) % 8 = 0 := by omega
  have hword' : pos % 8 + width ≤ 64 := by omega
  generalize pos % 8 = p at hplace hends' hlt hword'
  have hones : 8 < width ∧ -2 ^ (8 - p) ≤ z ∧ z < 0 → ∀ k, 8 - p ≤ k → z.testBit k = true := by
    rintro ⟨-, h₁, h₂⟩ k hk
    have hin : InWidth (8 - p) z := (inWidth_iff _ _).2 ⟨h₁, h₂.trans (by positivity)⟩
    rw [hin.testBit hk, decide_eq_true h₂]
  unfold writtenBit
  refine ⟨fun i hi => ?_, fun j hj => ?_⟩
  · rw [if_neg (by omega)]
    by_cases hfirst : p + i < 8
    · rw [if_pos (by omega), if_pos (by omega), show base + p + i - base - p = i by omega,
        hn i (by omega)]
    · rw [if_neg (by omega), show base + p + i - base = p + i by omega]
      rcases hplace with rfl | hplace | hplace
      · rw [if_pos (by omega), Nat.zero_add, hn i (by omega)]
      · omega
      · have h₁ := hones hplace (p + i) (by omega)
        have h₂ := hones hplace i (by omega)
        have h₃ := hends' hplace.2.2
        split_ifs
        · rw [hn _ (by omega), h₁, h₂]
        · rw [hn _ (by omega), h₁, h₂, Bool.or_true]
        · omega
  · split_ifs with h₁ h₂ h₃ h₄ h₅
    · rfl
    · omega
    · rw [hzero (by omega) _ (by omega), Bool.or_false]
    · omega
    · rw [hzero (by omega) _ (by omega), Bool.or_false]
    · rfl

theorem bit_zeros (j : ℕ) : Memory.bit (fun _ => 0#8) j = false := BitVec.getLsbD_zero

theorem bit_ones (j : ℕ) : Memory.bit (fun _ => BitVec.allOnes 8) j = true := by
  unfold Memory.bit
  rw [BitVec.getLsbD_allOnes, decide_eq_true (Nat.mod_lt _ (by decide))]

/-- Over clear and over set memory, a field that is not whole is not both times right. -/
theorem inPlace_of_stores (hwidth : 0 < width) (hword : pos + width ≤ 64) (hz : InWidth width z)
    (h₀ : Stores (fun _ => 0#8) data pos width z)
    (h₁ : Stores (fun _ => BitVec.allOnes 8) data pos width z) : InPlace pos width z := by
  rw [stores_iff hwidth] at h₀ h₁
  have hn : ∀ k < 64, (BitVec.ofInt 64 z).getLsbD k = z.testBit k := by
    intro k hk
    rw [getLsbD_ofInt, decide_eq_true hk, Bool.true_and]
  have hhigh : ∀ k < 64, width ≤ k → (BitVec.ofInt 64 z).getLsbD k = decide (z < 0) := by
    intro k hlt hk
    rw [hn k hlt, hz.testBit hk]
  generalize 8 * (data + pos / 8) = base at h₀ h₁
  have hlt : pos % 8 < 8 := by omega
  have hword' : pos % 8 + width ≤ 64 := by omega
  have hmod : (pos + width) % 8 = (pos % 8 + width) % 8 := by omega
  unfold InPlace
  rw [hmod]
  generalize pos % 8 = p at h₀ h₁ hlt hword'
  obtain ⟨hbits₀, hframe₀⟩ := h₀
  obtain ⟨hbits₁, -⟩ := h₁
  simp only [writtenBit, bit_zeros, bit_ones, Bool.false_or, Bool.true_or] at hbits₀ hframe₀ hbits₁
  have hlast₀ := hbits₀ (width - 1) (by omega)
  have hlast₁ := hbits₁ (width - 1) (by omega)
  have hends : z < 0 → (p + width) % 8 = 0 := by
    intro hneg
    by_contra hne
    have hnext := hframe₀ (base + p + width) (by omega)
    have hsign := decide_eq_true hneg
    rw [if_neg (by omega)] at hnext
    by_cases hbyte : p + width < 8
    · rw [if_pos (by omega), if_neg (by omega), show base + p + width - base - p = width by omega,
        hhigh width (by omega) le_rfl, hsign] at hnext
      cases hnext
    · rw [if_neg (by omega), if_neg (by omega),
        show base + p + width - base = p + width by omega] at hnext
      by_cases hspill : p + width < 8 * ((width + 7) / 8)
      · rw [if_pos (by omega), hhigh (p + width) (by omega) (by omega), hsign] at hnext
        cases hnext
      · rw [if_neg (by omega), if_neg (by omega), if_neg (by omega), if_neg (by omega)]
          at hlast₀ hlast₁
        rw [← hlast₀] at hlast₁
        cases hlast₁
  refine ⟨?_, hends⟩
  by_contra hplace
  rw [not_or, not_or] at hplace
  obtain ⟨hp, hover, hones⟩ := hplace
  have hneg : z < 0 := by
    by_contra h₀
    have hsign := decide_eq_false h₀
    rw [if_neg (by omega), if_neg (by omega), if_neg (by omega)] at hlast₀ hlast₁
    rw [show base + p + (width - 1) - base = p + (width - 1) by omega,
      hhigh (p + (width - 1)) (by omega) (by omega), hsign, ite_self] at hlast₀
    rw [ite_self, ← hlast₀] at hlast₁
    cases hlast₁
  have hends' := hends hneg
  refine hones ⟨by omega, neg_pow_le_of_testBit hneg fun k hk => ?_, hneg⟩
  have hstep : ∀ i < width, 8 - p ≤ i → z.testBit i = z.testBit (p + i) := by
    intro i hi hi'
    have hbit := hbits₀ i hi
    rw [if_neg (by omega), if_neg (by omega), show base + p + i - base = p + i by omega,
      hn (p + i) (by omega)] at hbit
    rw [← hbit]
    split_ifs
    · rfl
    · rfl
    · omega
  induction hm : width - k using Nat.strong_induction_on generalizing k with
  | _ m ih =>
    by_cases hlt : k < width
    · rw [hstep k hlt hk]
      exact ih (width - (p + k)) (by omega) (p + k) (by omega) rfl
    · rw [hz.testBit (not_lt.1 hlt), decide_eq_true hneg]

end Writing

/-- What a bit field of `width` bits can hold. -/
def Representable (signed : Bool) (width : ℕ) (z : Int) : Prop :=
  if signed then -2 ^ (width - 1) ≤ z ∧ z < 2 ^ (width - 1) else 0 ≤ z ∧ z < 2 ^ width

instance (signed : Bool) (width : ℕ) (z : Int) : Decidable (Representable signed width z) :=
  inferInstanceAs (Decidable (if signed then _ ∧ _ else _ ∧ _))

/-- The getter of a bit field. -/
def bitGet (signed : Bool) : Memory → ℕ → ℕ → ℕ → Option Integer :=
  if signed then bitFieldGet else unsignedBitFieldGet

/-- The setter of a bit field. -/
def bitSet (signed : Bool) : Memory → ℕ → ℕ → ℕ → Integer → Option Written :=
  if signed then bitFieldSet else unsignedBitFieldSet

/-- What setting a bit field to `a` should come to, whatever the memory: `a` is read back and no
other bit has changed, or it raises and changes nothing. -/
def BitFieldExact (signed : Bool) (data pos width : ℕ) (a : Integer) : Prop :=
  ∀ mem, if Representable signed width a.toInt then
    ∃ mem', bitSet signed mem data pos width a = some (.ok (), mem') ∧
      (∃ v, bitGet signed mem' data pos width = some v ∧ v.toInt = a.toInt) ∧
        Untouched mem mem' (8 * data + pos) width
  else ∃ e, bitSet signed mem data pos width a = some (.error e, mem)

/-- Where it does. The width of a mask is less than that of an `int`, or that of a word; an integer
that is no word is refused before there is one. -/
def BitFieldHolds (signed : Bool) (pos width : ℕ) (a : Integer) : Prop :=
  if signed then
    CType.long.InRange a.toInt → width ≤ 32 ∧
      (Representable signed width a.toInt → width < 32 ∧ InPlace pos width a.toInt)
  else
    CType.ulong.InRange a.toInt → Maskable width ∧
      (Representable signed width a.toInt → a ≠ .bignum ⟨0, .neg⟩ ∧ InPlace pos width a.toInt)

section Fields

variable {data pos width : ℕ} {a : Integer}

theorem maskInts {width : ℕ} (h : width < 32) :
    (BitVec.ofNat 64 (2 ^ width - 1)).toInt = 2 ^ width - 1 ∧
      (~~~BitVec.ofNat 64 (2 ^ width - 1)).toInt = -2 ^ width := by
  revert width
  decide

theorem maskNat {width : ℕ} (h : width ≤ 64) :
    ((BitVec.ofNat 64 (2 ^ width - 1)).toNat : Int) = 2 ^ width - 1 := by
  have hle : 2 ^ width ≤ 2 ^ 64 := Nat.pow_le_pow_right (by decide) h
  have hpos : 0 < 2 ^ width := by positivity
  rw [BitVec.toNat_ofNat, Nat.mod_eq_of_lt (by omega)]
  push_cast [hpos]
  rfl

theorem inWidth_of_representable {signed : Bool} {z : Int} (h : Representable signed width z) :
    InWidth width z := by
  unfold Representable at h
  split_ifs at h
  · exact ((inWidth_iff _ _).2 h).mono (by omega)
  · have hpow : (0 : Int) ≤ 2 ^ width := by positivity
    exact (inWidth_iff _ _).2 ⟨by omega, h.2⟩

/-- With a setter that writes and a getter that reads the field, all depends on the bits. -/
theorem forall_exact_iff {z : Int} {set : Memory → Option Written} {get : Memory → Option Integer}
    (hwidth : 0 < width) (hword : pos + width ≤ 64) (hz : InWidth width z)
    (hset : ∀ mem, set mem = (writeBitField mem data (BitVec.ofInt 64 z) pos width).map
      fun mem' => (.ok (), mem'))
    (hget : ∀ mem, ∃ v, get mem = some v ∧ (v.toInt = z ↔ Carries mem (8 * data + pos) width z)) :
    (∀ mem, ∃ mem', set mem = some (.ok (), mem') ∧ (∃ v, get mem' = some v ∧ v.toInt = z) ∧
      Untouched mem mem' (8 * data + pos) width) ↔ InPlace pos width z := by
  have hstores : ∀ mem, (∃ mem', set mem = some (.ok (), mem') ∧
      (∃ v, get mem' = some v ∧ v.toInt = z) ∧ Untouched mem mem' (8 * data + pos) width) ↔
        Stores mem data pos width z := by
    intro mem
    obtain ⟨mem', hmem', -⟩ := bit_writeBitField mem data (BitVec.ofInt 64 z) pos width hwidth
    obtain ⟨v, hv, hread⟩ := hget mem'
    unfold Stores
    simp [hset, hmem', hv, hread]
  simp only [hstores]
  constructor
  · exact fun h => inPlace_of_stores hwidth hword hz (h _) (h _)
  · exact fun h mem => stores_of_inPlace hwidth hword hz h

theorem long_of_representable {z : Int} (h : Representable true width z) (hword : width ≤ 64) :
    CType.long.InRange z := by
  obtain ⟨h₁, h₂⟩ := (inWidth_iff 63 z).1 (((inWidth_iff _ _).2 h).mono (by omega))
  exact ⟨h₁, Int.le_sub_one_of_lt h₂⟩

theorem ulong_of_representable {z : Int} (h : Representable false width z) (hword : width ≤ 64) :
    CType.ulong.InRange z := by
  obtain ⟨h₁, h₂⟩ := h
  have hle : (2 : Int) ^ width ≤ 2 ^ 64 := pow_le_pow_right₀ (by decide) hword
  exact ⟨h₁, Int.le_sub_one_of_lt (h₂.trans_le hle)⟩

theorem bitFieldSet_eq (mem : Memory) (data pos width : ℕ)
    (h : a.toSignedType "Value" = .ok a.toInt) (hmask : width - 1 < 32) :
    if Representable true width a.toInt then
      bitFieldSet mem data pos width a =
        (writeBitField mem data (BitVec.ofInt 64 a.toInt) pos width).map fun mem' => (.ok (), mem')
    else ∃ e, bitFieldSet mem data pos width a = some (.error e, mem) := by
  obtain ⟨hmax, hmin⟩ := maskInts hmask
  unfold bitFieldSet
  simp only [h, makeMask_eq (.inl hmask), Option.bind_eq_bind, Option.bind_some, hmax, hmin]
  by_cases hfits : Representable true width a.toInt
  · have h₁ : ¬ 2 ^ (width - 1) - 1 < a.toInt := by have := hfits.2; omega
    have h₂ : ¬ a.toInt < -2 ^ (width - 1) := not_lt.2 hfits.1
    rw [if_pos hfits, if_neg h₁, if_neg h₂]
    rcases writeBitField mem data (BitVec.ofInt 64 a.toInt) pos width <;> rfl
  · rw [if_neg hfits]
    split_ifs with h₁ h₂
    · exact ⟨_, rfl⟩
    · exact ⟨_, rfl⟩
    · exact absurd ⟨not_lt.1 h₂, by omega⟩ hfits

theorem unsignedBitFieldSet_eq (mem : Memory) (data pos : ℕ) (h : a.toUint "Value" = .ok a.toInt)
    (hmask : Maskable width) (h₀ : 0 ≤ a.toInt) :
    if Representable false width a.toInt then
      unsignedBitFieldSet mem data pos width a =
        (writeBitField mem data (BitVec.ofInt 64 a.toInt) pos width).map fun mem' => (.ok (), mem')
    else ∃ e, unsignedBitFieldSet mem data pos width a = some (.error e, mem) := by
  have hword : width ≤ 64 := by
    unfold Maskable at hmask
    omega
  have hmax := maskNat hword
  unfold unsignedBitFieldSet
  simp only [h, makeMask_eq hmask, Option.bind_eq_bind, Option.bind_some, hmax]
  by_cases hfits : Representable false width a.toInt
  · have h₁ : ¬ 2 ^ width - 1 < a.toInt := by have := hfits.2; omega
    rw [if_pos hfits, if_neg h₁]
    rcases writeBitField mem data (BitVec.ofInt 64 a.toInt) pos width <;> rfl
  · rw [if_neg hfits]
    split_ifs with h₁
    · exact ⟨_, rfl⟩
    · exact absurd ⟨h₀, by omega⟩ hfits

theorem exact_signed (hwidth : 0 < width) (hword : pos + width ≤ 64) :
    BitFieldExact true data pos width a ↔ BitFieldHolds true pos width a := by
  have hgives := gives_toSignedType a "Value"
  unfold Gives at hgives
  unfold BitFieldExact BitFieldHolds
  simp only [if_true, bitSet, bitGet]
  by_cases hin : CType.long.InRange a.toInt
  · rw [if_pos hin] at hgives
    simp only [hin, true_imp_iff]
    by_cases hmask : width ≤ 32
    · have hset := fun mem =>
        bitFieldSet_eq mem data pos width hgives (by omega)
      simp only [hmask, true_and]
      by_cases hfits : Representable true width a.toInt
      · simp only [hfits, if_true, true_imp_iff] at hset ⊢
        by_cases hnarrow : width < 32
        · rw [and_iff_right hnarrow]
          refine forall_exact_iff hwidth hword (inWidth_of_representable hfits) hset fun mem => ?_
          obtain ⟨v, hv, hread⟩ := bitFieldGet_eq mem data hwidth hnarrow hword
          exact ⟨v, hv, hread _ ((inWidth_iff _ _).2 hfits)⟩
        · refine iff_of_false (fun h => ?_) fun h => hnarrow h.1
          obtain ⟨mem', -, ⟨v, hv, -⟩, -⟩ := h fun _ => 0
          have hm : makeMask width = none := makeMask_none (by unfold Maskable; omega) (by omega)
          simp [bitFieldGet, hm] at hv
      · simpa [hfits] using hset
    · have hnone : ∀ mem, bitFieldSet mem data pos width a = none := by
        intro mem
        have hm : makeMask (width - 1) = none :=
          makeMask_none (by unfold Maskable; omega) (by omega)
        simp [bitFieldSet, hgives, hm]
      simp [hnone, hmask]
  · rw [if_neg hin] at hgives
    obtain ⟨e, he⟩ := hgives
    have hfits : ¬ Representable true width a.toInt :=
      fun h => hin (long_of_representable h (by omega))
    simp [hin, hfits, bitFieldSet, he]

theorem exact_unsigned (hwidth : 0 < width) (hword : pos + width ≤ 64) :
    BitFieldExact false data pos width a ↔ BitFieldHolds false pos width a := by
  have hgives := gives_toUint a "Value"
  unfold Gives at hgives
  unfold BitFieldExact BitFieldHolds
  simp only [Bool.false_eq_true, if_false, bitSet, bitGet]
  by_cases hin : CType.ulong.InRange a.toInt
  · rw [if_pos hin] at hgives
    simp only [hin, true_imp_iff]
    by_cases hzero : a = .bignum ⟨0, .neg⟩
    · subst hzero
      have hfits : Representable false width (Integer.bignum ⟨0, .neg⟩).toInt :=
        ⟨le_rfl, show (0 : Int) < 2 ^ width by positivity⟩
      refine iff_of_false (fun h => ?_) fun h => (h.2 hfits).1 rfl
      have hset := h fun _ => 0
      rw [if_pos hfits] at hset
      obtain ⟨mem', hmem', -⟩ := hset
      cases hmem'
    have hok := hgives.2 hzero
    by_cases hmask : Maskable width
    · have hset := fun mem =>
        unsignedBitFieldSet_eq mem data pos hok hmask hin.1
      simp only [hmask, true_and, ne_eq, hzero, not_false_eq_true]
      by_cases hfits : Representable false width a.toInt
      · simp only [hfits, if_true, true_imp_iff] at hset ⊢
        refine forall_exact_iff hwidth hword (inWidth_of_representable hfits) hset fun mem => ?_
        obtain ⟨v, hv, hread⟩ := unsignedBitFieldGet_eq mem data hmask hword
        exact ⟨v, hv, hread _ hfits.1 hfits.2⟩
      · simpa [hfits] using hset
    · have hnone : ∀ mem, unsignedBitFieldSet mem data pos width a = none := by
        intro mem
        simp [unsignedBitFieldSet, hok, makeMask_none hmask (by omega)]
      simp [hnone, hmask]
  · rw [if_neg hin] at hgives
    have hfits : ¬ Representable false width a.toInt :=
      fun h => hin (ulong_of_representable h (by omega))
    have hzero : a ≠ .bignum ⟨0, .neg⟩ := by
      rintro rfl
      exact hin (by decide)
    obtain ⟨e, he⟩ := hgives.2 hzero
    simp [hin, hfits, unsignedBitFieldSet, he]

end Fields

/-- Where the layout puts a bit field. -/
def InWord (f : Field Node) : Prop :=
  ∀ {signed width}, f.node = .bit signed width → 0 < width ∧ f.pos + width ≤ 64

theorem alignOffset_inWord {node : Node} {offset pos offset' pos' : ℕ} (hpos : pos ≤ 64)
    (halign : alignOffset node offset pos = .ok (offset', pos'))
    (hcreate : createField node = .ok ()) :
    pos' + bitWidth node ≤ 64 ∧ InWord ⟨node, offset', pos'⟩ := by
  by_cases hbit : node.isBit
  · rcases node with _ | _ | ⟨signed, width⟩
    case bit =>
      simp only [createField] at hcreate
      split_ifs at hcreate with hzero hwide
      have hin : pos' + width ≤ 64 := by
        rw [alignOffset] at halign
        unfold wrap at halign
        split_ifs at halign with hover
        · obtain ⟨-, rfl⟩ := Prod.mk.inj (Except.ok.inj halign)
          omega
        · obtain ⟨-, rfl⟩ := Prod.mk.inj (Except.ok.inj halign)
          omega
      refine ⟨hin, fun hnode => ?_⟩
      cases hnode
      exact ⟨by omega, hin⟩
    all_goals cases hbit
  · rw [Bool.not_eq_true] at hbit
    rw [alignOffset_other hbit] at halign
    rcases hunit : getAlignmentUnit node with e | unit
    · rw [hunit] at halign
      cases halign
    rw [hunit] at halign
    obtain ⟨-, rfl⟩ := Prod.mk.inj (Except.ok.inj halign)
    rcases node with _ | _ | _
    case bit => cases hbit
    all_goals
      refine ⟨Nat.zero_le _, fun hnode => ?_⟩
      cases hnode

theorem layOut_inWord {nodes : List Node} : ∀ {offset pos : ℕ} {fields : List (Field Node)}
    {last : ℕ × ℕ}, pos ≤ 64 → layOut nodes offset pos = .ok (fields, last) →
      ∀ f ∈ fields, InWord f := by
  induction nodes with
  | nil =>
    intro offset pos fields last hpos h f hf
    obtain rfl : fields = [] := by
      rw [layOut] at h
      exact (congrArg Prod.fst (Except.ok.inj h)).symm
    cases hf
  | cons node nodes ih =>
    intro offset pos fields last hpos h
    simp only [layOut, bind, Except.bind] at h
    rcases halign : alignOffset node offset pos with e | ⟨offset', pos'⟩
    · simp [halign] at h
    rcases hcreate : createField node with e | _
    · simp [halign, hcreate] at h
    rcases hsize : getTotalFieldSize node with e | size
    · simp [halign, hcreate, hsize] at h
    rcases hmap : mapTypeOfFields node with e | _
    · simp [halign, hcreate, hsize, hmap] at h
    rcases hrest : layOut nodes (wrap (offset' + size)) (pos' + bitWidth node) with
      e | ⟨rest, last'⟩
    · simp [halign, hcreate, hsize, hmap, hrest] at h
    have hplace := alignOffset_inWord hpos halign hcreate
    simp only [halign, hcreate, hsize, hmap, hrest, Except.ok.injEq, Prod.mk.injEq] at h
    obtain ⟨rfl, rfl⟩ := h
    rintro f (_ | ⟨_, hf⟩)
    · exact hplace.2
    · exact ih hplace.1 hrest f hf
/-- When a bit field of a struct is set as it should be. -/
theorem bitFields_iff {nodes : List Node} {fields : List (Field Node)} {last : ℕ × ℕ}
    (h : layOut nodes 0 0 = .ok (fields, last)) {signed : Bool} {width offset pos : ℕ}
    (hf : ⟨.bit signed width, offset, pos⟩ ∈ fields) (data : ℕ) (a : Integer) :
    BitFieldExact signed (data + offset) pos width a ↔ BitFieldHolds signed pos width a := by
  obtain ⟨hwidth, hword⟩ := layOut_inWord (by decide) h _ hf rfl
  rcases signed with _ | _
  · exact exact_unsigned hwidth hword
  · exact exact_signed hwidth hword

theorem bitFields_iff_byte : BitFieldExact true (16 + 0) 8 8 (.fixnum (int2val (-3))) := by
  have h : layOut [.bit false 8, .bit true 8] 0 0 =
      .ok ([⟨.bit false 8, 0, 0⟩, ⟨.bit true 8, 0, 8⟩], 0, 16) := rfl
  refine (bitFields_iff h (List.mem_cons_of_mem _ List.mem_cons_self) 16 _).2 ?_
  exact fun _ => ⟨by decide, fun _ => ⟨by decide, .inl rfl, fun _ => rfl⟩⟩

/-- A negative value goes on behind a field of three bits. -/
theorem not_bitFieldExact_negative :
    ¬ BitFieldExact true 16 0 3 (.fixnum (int2val (-1))) := by
  rw [exact_signed (by decide) (by decide)]
  intro h
  obtain ⟨-, hends⟩ := ((h (by decide)).2 (by decide)).2
  exact absurd (hends (by decide)) (by decide)

end Ffi

end Yog
