import Mathlib.Data.Nat.Digits.Lemmas

/-!
# Positional notation

`written` is how a number is written down, the first digit first and never a zero in front; `read`
takes the digits one by one.
-/

namespace Yog

namespace Lib

/-- The digits of `n` to the base `r`, the highest first. -/
def written (r n : ℕ) : List ℕ := if n = 0 then [0] else (Nat.digits r n).reverse

/-- The number that digits stand for. -/
def read (r : ℕ) (ds : List ℕ) : ℕ := ds.foldl (fun v d => v * r + d) 0

theorem written_of_lt {r n : ℕ} (h : n < r) : written r n = [n] := by
  unfold written
  split_ifs with h₀
  · rw [h₀]
  · rw [Nat.digits_of_lt r n h₀ h]
    rfl

/-- Only zero is written with a zero in front. -/
theorem head_written (r : ℕ) {n : ℕ} (h : n ≠ 0) : ∃ d ds, written r n = d :: ds ∧ d ≠ 0 := by
  have hne : Nat.digits r n ≠ [] := Nat.digits_ne_nil_iff_ne_zero.2 h
  have hlast := Nat.getLast_digit_ne_zero r h
  have hw : written r n = (Nat.digits r n).reverse := by
    unfold written
    rw [if_neg h]
  refine ⟨(Nat.digits r n).getLast hne, ((Nat.digits r n).dropLast).reverse, ?_, hlast⟩
  have hsplit := congrArg List.reverse (List.dropLast_append_getLast hne)
  rw [hw, ← hsplit, List.reverse_append]
  rfl

variable {r : ℕ} (hr : 2 ≤ r)

include hr

theorem written_of_le {n : ℕ} (h : r ≤ n) : written r n = written r (n / r) ++ [n % r] := by
  have hn : n ≠ 0 := by omega
  have hq : n / r ≠ 0 := (Nat.div_pos h (by omega)).ne'
  unfold written
  rw [if_neg hn, if_neg hq, Nat.digits_def' (by omega) (by omega), List.reverse_cons]

/-- A number is written with the digit its remainder gives and the digits of its quotient. -/
theorem written_induction {motive : ℕ → Prop} (hlt : ∀ n < r, motive n)
    (hle : ∀ n, r ≤ n → motive (n / r) → motive n) (n : ℕ) : motive n := by
  induction n using Nat.strong_induction_on with
  | _ n ih =>
    rcases Nat.lt_or_ge n r with h | h
    · exact hlt n h
    · exact hle n h (ih _ (Nat.div_lt_self (by omega) (by omega)))

theorem written_ne_nil (n : ℕ) : written r n ≠ [] := by
  rcases Nat.lt_or_ge n r with h | h
  · rw [written_of_lt h]
    exact List.cons_ne_nil _ _
  · rw [written_of_le hr h]
    exact List.append_ne_nil_of_right_ne_nil _ (List.cons_ne_nil _ _)

theorem lt_of_mem_written {n d : ℕ} (hd : d ∈ written r n) : d < r := by
  unfold written at hd
  split_ifs at hd with h₀
  · rw [List.mem_singleton] at hd
    omega
  · rw [List.mem_reverse] at hd
    exact Nat.digits_lt_base (by omega) hd

theorem length_written_le_iff {k : ℕ} (hk : 1 ≤ k) (n : ℕ) :
    (written r n).length ≤ k ↔ n < r ^ k := by
  unfold written
  split_ifs with h₀
  · rw [h₀]
    exact iff_of_true hk (Nat.pow_pos (by omega))
  · rw [List.length_reverse, Nat.digits_length_le_iff (by omega)]

theorem read_written (n : ℕ) : read r (written r n) = n := by
  induction n using written_induction hr with
  | hlt n h =>
    rw [written_of_lt h]
    exact (congrArg (· + n) (Nat.zero_mul r)).trans (Nat.zero_add n)
  | hle n h ih =>
    rw [written_of_le hr h]
    unfold read at ih ⊢
    rw [List.foldl_append, ih]
    exact Nat.div_add_mod' n r

end Lib

end Yog
