import Yog.Base64
import Yog.Proofs.Substrings
import Mathlib.Data.List.Nodup

/-!
# Decoding Base64

The characters outside the alphabet are dropped and the rest is taken in groups of four, each of
which gives back its one to three bytes. `divide` makes one group of nothing, so the encoding of no
byte is a group without characters, whose first one there is not.
-/

namespace Yog

namespace Enumerable

variable {α : Type}

theorem select_eq (self : List α) (block : α → Bool) : select self block = self.filter block := by
  have hloop : ∀ a, self.foldl (fun a elem => if block elem then a ++ [elem] else a) a =
      a ++ self.filter block := by
    induction self with
    | nil => simp
    | cons x self ih =>
      intro a
      rw [List.foldl_cons, ih, List.filter_cons]
      split_ifs <;> simp
  exact hloop []

theorem divideLoop_append (size : ℕ) (s : List α) (a : List (List α)) (last : List α) (i : ℕ) :
    divideLoop size s a last i = a ++ divideLoop size s [] last i := by
  induction s generalizing a last i with
  | nil => rfl
  | cons x s ih =>
    rw [divideLoop, divideLoop]
    split_ifs
    · exact ih a _ _
    · rw [ih, ih ([] ++ [last]), List.nil_append, List.append_assoc]

/-- A group that is full is the first one. -/
theorem divideLoop_full {size : ℕ} (hsize : 0 < size) {s : List α} (hs : s ≠ []) (last : List α) :
    divideLoop size s [] last size = last :: divide s size := by
  obtain ⟨x, s, rfl⟩ := List.exists_cons_of_ne_nil hs
  rw [divideLoop, if_neg (lt_irrefl size), divide, divideLoop, if_pos hsize, divideLoop_append]
  rfl

theorem divide_one {s : List α} (hs : s ≠ []) : divide s 1 = s.map fun x => [x] := by
  obtain ⟨x, s, rfl⟩ := List.exists_cons_of_ne_nil hs
  clear hs
  have hloop : ∀ x, divideLoop 1 s [] [x] 1 = (x :: s).map fun x => [x] := by
    induction s with
    | nil => simp [divideLoop]
    | cons y s ih =>
      intro x
      rw [divideLoop, if_neg (lt_irrefl 1), divideLoop_append, ih]
      rfl
  rw [divide, divideLoop, if_pos Nat.one_pos]
  exact hloop x

end Enumerable

namespace Base64

open YogString (subscript equal equal_iff subscript_ofNat fromString)
open StringScript (find find_spec)
open Enumerable Occurrence

/-- The character for six bits; the one behind them all is the padding. -/
def digit (n : ℕ) : YogChar := alpha.getD n 0

def pad : YogChar := digit 64

theorem length_alpha : alpha.length = 65 := rfl

theorem nodup_alpha : alpha.Nodup := by decide +kernel

theorem digit_inj {n m : ℕ} (hn : n ≤ 64) (hm : m ≤ 64) (h : digit n = digit m) : n = m := by
  have hn' : n < alpha.length := by rw [length_alpha]; omega
  have hm' : m < alpha.length := by rw [length_alpha]; omega
  rw [digit, digit, List.getD_eq_getElem _ _ hn', List.getD_eq_getElem _ _ hm'] at h
  exact (nodup_alpha.getElem_inj_iff).1 h

theorem occursAt_singleton {c : YogChar} {s : List YogChar} {i : ℕ} :
    OccursAt [c] s i ↔ s[i]? = some c := by
  rw [OccursAt, List.cons_prefix_iff]
  constructor
  · rintro ⟨t, ht, -⟩
    have := congrArg (·[0]?) ht
    simpa using this
  · intro h
    have hlt := (List.getElem?_eq_some_iff.1 h).1
    exact ⟨_, by rw [List.drop_eq_getElem_cons hlt, (List.getElem?_eq_some_iff.1 h).2], by simp⟩

/-- `find` gives back the number a character stands for. -/
theorem find_digit {n : ℕ} (h : n ≤ 64) : find alpha [digit n] 0 = .ok n := by
  have hlt : n < alpha.length := by rw [length_alpha]; omega
  have hn : alpha[n]? = some (digit n) := by
    rw [digit, List.getD_eq_getElem _ _ hlt, List.getElem?_eq_getElem]
  rcases find_spec (List.cons_ne_nil (digit n) []) alpha 0 with ⟨i, hi, hfirst⟩ | ⟨-, hnone⟩
  · have hocc := occursAt_singleton.1 hfirst.occurs
    have : i = n := by
      have hlt' := (List.getElem?_eq_some_iff.1 hocc).1
      exact (List.getElem?_inj hlt' nodup_alpha).1 (hocc.trans hn.symm)
    rw [hi, this]
  · exact absurd (occursAt_singleton.2 hn) (hnone n (Nat.zero_le n))

theorem included_eq (c : YogChar) : included c = decide (c ∈ alpha) := by
  have hdivide : divide alpha 1 = alpha.map fun c => [c] := divide_one (by simp [alpha, fromString])
  rw [included, hdivide, List.any_map, Bool.eq_iff_iff]
  simp [List.any_eq_true, equal_iff]

/-- The standard encoding: six bits a character, padded to groups of four. -/
def encode : List Byte → List YogChar
  | [] => []
  | [a] => [digit (a / 4), digit (a % 4 * 16), pad, pad]
  | [a, b] => [digit (a / 4), digit (a % 4 * 16 + b / 16), digit (b % 16 * 4), pad]
  | a :: b :: c :: rest =>
    digit (a / 4) :: digit (a % 4 * 16 + b / 16) :: digit (b % 16 * 4 + c / 64) ::
      digit (c % 64) :: encode rest

theorem lshiftInt_ofNat (bin : List Byte) {n : Int} {a : Byte} (h : n = a.val) :
    lshiftInt bin n = .ok (bin ++ [a]) := by
  subst h
  have ha := a.isLt
  rw [lshiftInt, if_neg (by omega), Int.toNat_natCast, toByte, Fin.ofNat_eq_cast,
    Fin.cast_val_eq_self]

theorem equal_pad {n : ℕ} (h : n < 64) : equal [digit n] (fromString "=") = false := by
  have hpad : fromString "=" = [pad] := rfl
  rw [hpad, ← Bool.not_eq_true, equal_iff, List.cons.injEq, and_iff_left rfl]
  intro heq
  have := digit_inj h.le le_rfl heq
  omega

section Group

variable (bin : List Byte) {n₀ n₁ n₂ n₃ : ℕ} {x y z : Byte}

/-- Bits put above others and bits pushed out below, as numbers. -/
theorem shift_add (n m k l : ℕ) :
    ((n : Int) <<< (k : Int)) + ((m : Int) >>> (l : Int)) =
      ((n * 2 ^ k + m / 2 ^ l : ℕ) : Int) := by
  rw [Int.shiftLeft_natCast, Int.shiftRight_natCast, Nat.shiftLeft_eq, Nat.shiftRight_eq_div_pow,
    Nat.cast_add]

theorem land_ofNat (n k : ℕ) : Int.land n ((2 ^ k - 1 : ℕ) : Int) = ((n % 2 ^ k : ℕ) : Int) :=
  congrArg Int.ofNat (Nat.and_two_pow_sub_one_eq_mod n k)

theorem first_bits (hx : n₀ * 4 + n₁ / 16 = x.val) :
    ((n₀ : Int) <<< 2) + ((n₁ : Int) >>> 4) = x.val := by
  rw [← hx]
  exact shift_add n₀ n₁ 2 4

theorem second_bits (hy : n₁ % 16 * 16 + n₂ / 4 = y.val) :
    ((Int.land n₁ 0x0f) <<< 4) + ((n₂ : Int) >>> 2) = y.val := by
  have hland : Int.land n₁ 0x0f = ((n₁ % 16 : ℕ) : Int) := land_ofNat n₁ 4
  rw [hland, ← hy]
  exact shift_add (n₁ % 16) n₂ 4 2

theorem third_bits (hz : n₂ % 4 * 64 + n₃ = z.val) :
    ((Int.land n₂ 0x03) <<< 6) + (n₃ : Int) = z.val := by
  have hland : Int.land n₂ 0x03 = ((n₂ % 4 : ℕ) : Int) := land_ofNat n₂ 2
  have hshift : ((n₂ % 4 : ℕ) : Int) <<< 6 = ((n₂ % 4 * 64 : ℕ) : Int) :=
    (Int.shiftLeft_natCast (n₂ % 4) 6).trans (congrArg Nat.cast (Nat.shiftLeft_eq _ 6))
  rw [hland, hshift, ← hz, Nat.cast_add]

theorem equal_pad_pad : equal [pad] (fromString "=") = true := rfl

theorem base64Group_one (h₀ : n₀ < 64) (h₁ : n₁ < 64) (hx : n₀ * 4 + n₁ / 16 = x.val) :
    base64Group bin [digit n₀, digit n₁, pad, pad] = .ok (bin ++ [x]) := by
  have hs₀ : subscript [digit n₀, digit n₁, pad, pad] (.fixnum 0) = .ok [digit n₀] := rfl
  have hs₁ : subscript [digit n₀, digit n₁, pad, pad] (.fixnum 1) = .ok [digit n₁] := rfl
  have hs₂ : subscript [digit n₀, digit n₁, pad, pad] (.fixnum 2) = .ok [pad] := rfl
  simp only [base64Group, hs₀, hs₁, hs₂, find_digit h₀.le, find_digit h₁.le,
    lshiftInt_ofNat bin (first_bits hx), equal_pad_pad, bind, Except.bind, if_true]
  rfl

theorem base64Group_two (h₀ : n₀ < 64) (h₁ : n₁ < 64) (h₂ : n₂ < 64)
    (hx : n₀ * 4 + n₁ / 16 = x.val) (hy : n₁ % 16 * 16 + n₂ / 4 = y.val) :
    base64Group bin [digit n₀, digit n₁, digit n₂, pad] = .ok (bin ++ [x, y]) := by
  have hs₀ : subscript [digit n₀, digit n₁, digit n₂, pad] (.fixnum 0) = .ok [digit n₀] := rfl
  have hs₁ : subscript [digit n₀, digit n₁, digit n₂, pad] (.fixnum 1) = .ok [digit n₁] := rfl
  have hs₂ : subscript [digit n₀, digit n₁, digit n₂, pad] (.fixnum 2) = .ok [digit n₂] := rfl
  have hs₃ : subscript [digit n₀, digit n₁, digit n₂, pad] (.fixnum 3) = .ok [pad] := rfl
  simp only [base64Group, hs₀, hs₁, hs₂, hs₃, find_digit h₀.le, find_digit h₁.le, find_digit h₂.le,
    lshiftInt_ofNat bin (first_bits hx), lshiftInt_ofNat _ (second_bits hy), equal_pad h₂,
    equal_pad_pad, bind, Except.bind, if_true]
  simp [pure, Except.pure]

theorem base64Group_three (h₀ : n₀ < 64) (h₁ : n₁ < 64) (h₂ : n₂ < 64) (h₃ : n₃ < 64)
    (hx : n₀ * 4 + n₁ / 16 = x.val) (hy : n₁ % 16 * 16 + n₂ / 4 = y.val)
    (hz : n₂ % 4 * 64 + n₃ = z.val) :
    base64Group bin [digit n₀, digit n₁, digit n₂, digit n₃] = .ok (bin ++ [x, y, z]) := by
  have hs₀ : subscript [digit n₀, digit n₁, digit n₂, digit n₃] (.fixnum 0) = .ok [digit n₀] := rfl
  have hs₁ : subscript [digit n₀, digit n₁, digit n₂, digit n₃] (.fixnum 1) = .ok [digit n₁] := rfl
  have hs₂ : subscript [digit n₀, digit n₁, digit n₂, digit n₃] (.fixnum 2) = .ok [digit n₂] := rfl
  have hs₃ : subscript [digit n₀, digit n₁, digit n₂, digit n₃] (.fixnum 3) = .ok [digit n₃] := rfl
  simp only [base64Group, hs₀, hs₁, hs₂, hs₃, find_digit h₀.le, find_digit h₁.le, find_digit h₂.le,
    find_digit h₃.le, lshiftInt_ofNat bin (first_bits hx), lshiftInt_ofNat _ (second_bits hy),
    lshiftInt_ofNat _ (third_bits hz), equal_pad h₂, equal_pad h₃, bind, Except.bind]
  simp

end Group

/-- A full group in front of others is the first one of the groups. -/
theorem divide_group (c₀ c₁ c₂ c₃ : YogChar) {s : List YogChar} (hs : s ≠ []) :
    divide (c₀ :: c₁ :: c₂ :: c₃ :: s) 4 = [c₀, c₁, c₂, c₃] :: divide s 4 := by
  rw [← divideLoop_full (by decide : 0 < 4) hs]
  rfl

theorem encode_ne_nil {b : List Byte} (hb : b ≠ []) : encode b ≠ [] := by
  match b, hb with
  | [a], _ => simp [encode]
  | [a, b], _ => simp [encode]
  | a :: b :: c :: rest, _ => simp [encode]

/-- The groups of an encoding, one after the other, give back the bytes. -/
theorem foldlM_encode {b : List Byte} (hb : b ≠ []) (bin : List Byte) :
    (divide (encode b) 4).foldlM base64Group bin = .ok (bin ++ b) := by
  induction b using encode.induct generalizing bin with
  | case1 => exact absurd rfl hb
  | case2 a =>
    have ha := a.isLt
    have hgroup : base64Group bin (encode [a]) = .ok (bin ++ [a]) :=
      base64Group_one bin (by omega) (by omega) (by omega)
    have hdivide : divide (encode [a]) 4 = [encode [a]] := rfl
    rw [hdivide, List.foldlM_cons, hgroup]
    rfl
  | case3 a b =>
    have ha := a.isLt
    have hb := b.isLt
    have hgroup : base64Group bin (encode [a, b]) = .ok (bin ++ [a, b]) :=
      base64Group_two bin (by omega) (by omega) (by omega) (by omega) (by omega)
    have hdivide : divide (encode [a, b]) 4 = [encode [a, b]] := rfl
    rw [hdivide, List.foldlM_cons, hgroup]
    rfl
  | case4 a b c rest ih =>
    have ha := a.isLt
    have hb := b.isLt
    have hc := c.isLt
    have hgroup : base64Group bin [digit (a / 4), digit (a % 4 * 16 + b / 16),
        digit (b % 16 * 4 + c / 64), digit (c % 64)] = .ok (bin ++ [a, b, c]) :=
      base64Group_three bin (by omega) (by omega) (by omega) (by omega) (by omega) (by omega)
        (by omega)
    rcases eq_or_ne rest [] with rfl | hrest
    · have hdivide : divide (encode [a, b, c]) 4 = [[digit (a / 4), digit (a % 4 * 16 + b / 16),
          digit (b % 16 * 4 + c / 64), digit (c % 64)]] := rfl
      rw [hdivide, List.foldlM_cons, hgroup]
      rfl
    · rw [encode, divide_group _ _ _ _ (encode_ne_nil hrest), List.foldlM_cons, hgroup]
      exact (ih hrest (bin ++ [a, b, c])).trans (by simp)

/-- The bytes come back from their encoding, whatever else stands between its characters, unless
there is none. -/
theorem base64ToBin_iff (b : List Byte) (s : List YogChar)
    (hs : s.filter (· ∈ alpha) = encode b) : base64ToBin s = .ok b ↔ b ≠ [] := by
  have hselect : select s included = encode b := by
    rw [select_eq, ← hs]
    exact List.filter_congr fun c _ => included_eq c
  rw [base64ToBin, hselect]
  constructor
  · rintro h rfl
    cases h
  · intro hb
    simpa using foldlM_encode hb []

theorem base64ToBin_iff_line : base64ToBin (fromString "Q\nUI =\r\n") = .ok [65, 66] ↔
    ([65, 66] : List Byte) ≠ [] :=
  base64ToBin_iff [65, 66] (fromString "Q\nUI =\r\n") (by decide +kernel)

/-- Of the empty string, the encoding of no byte, `divide` makes a group of no character, and
there is no first one to decode. -/
theorem base64ToBin_empty : encode [] = [] ∧ base64ToBin [] ≠ .ok [] := by
  refine ⟨rfl, ?_⟩
  intro h
  cases h

end Base64

end Yog
