import Mathlib.Data.Int.Notation
import Mathlib.Data.List.Basic
import Mathlib.Data.Nat.Notation

/-!
# Slices

A slice of a list is asked for by a start, which may lie before the first element, and a length. Its
elements are those with an index in both ranges, that of the slice and that of the list; they are
what is taken and dropped of it (`cut_eq`).
-/

namespace Slice

variable {α : Type*}

/-- Where a position lies; a negative one is counted from the end. -/
def start (size : ℕ) (pos : ℤ) : ℤ := if pos < 0 then size + pos else pos

/-- Where a position lies in the list, if it does. -/
def index (size : ℕ) (pos : ℤ) : Option ℕ :=
  if 0 ≤ start size pos ∧ start size pos < size then some (start size pos).toNat else none

/-- The elements in the range of `len` indices from `start` on, or of all from there on. -/
def cut (l : List α) (start : ℤ) (len : Option ℤ) : List α :=
  (l.zipIdx.filter fun p =>
    decide (start ≤ p.2) && decide ((p.2 : ℤ) < start + len.getD (l.length - start))).map Prod.fst

theorem index_eq_some {size : ℕ} {pos : ℤ} {n : ℕ} :
    index size pos = some n ↔ start size pos = n ∧ n < size := by
  unfold index
  split_ifs with h
  · rw [Option.some_inj]
    omega
  · simp
    omega

theorem index_eq_none {size : ℕ} {pos : ℤ} :
    index size pos = none ↔ start size pos < 0 ∨ size ≤ start size pos := by
  unfold index
  split_ifs with h
  · simp
    omega
  · simp
    omega

theorem window_eq (l : List α) (k : ℕ) (lo hi : ℤ) :
    ((l.zipIdx k).filter fun p => decide (lo ≤ p.2) && decide ((p.2 : ℤ) < hi)).map Prod.fst =
      (l.take (hi - k).toNat).drop (lo - k).toNat := by
  induction l generalizing k with
  | nil => simp
  | cons a l ih =>
    have htail := ih (k + 1)
    rw [List.zipIdx_cons, List.filter_cons]
    by_cases hhi : (k : ℤ) < hi
    · obtain ⟨n, hn⟩ : ∃ n : ℕ, (hi - k).toNat = n + 1 := ⟨(hi - k - 1).toNat, by omega⟩
      have hn' : (hi - (k + 1 : ℕ)).toNat = n := by omega
      rw [hn] at *
      by_cases hlo : lo ≤ k
      · have h₀ : (lo - k).toNat = 0 := by omega
        have h₁ : (lo - (k + 1 : ℕ)).toNat = 0 := by omega
        rw [hn', h₁] at htail
        simp [hlo, hhi, h₀, htail]
      · obtain ⟨m, hm⟩ : ∃ m : ℕ, (lo - k).toNat = m + 1 := ⟨(lo - k - 1).toNat, by omega⟩
        have hm' : (lo - (k + 1 : ℕ)).toNat = m := by omega
        rw [hn', hm'] at htail
        simp [hlo, hm, htail]
    · have hn : (hi - k).toNat = 0 := by omega
      have hn' : (hi - (k + 1 : ℕ)).toNat = 0 := by omega
      rw [hn', List.take_zero, List.drop_nil] at htail
      simp [hhi, hn, htail]

theorem cut_eq (l : List α) (start : ℤ) (len : Option ℤ) :
    cut l start len = (l.take (start + len.getD (l.length - start)).toNat).drop start.toNat := by
  have h := window_eq l 0 start (start + len.getD (l.length - start))
  simpa [cut] using h

theorem cut_none (l : List α) (start : ℤ) : cut l start none = l.drop start.toNat := by
  rw [cut_eq, Option.getD_none, List.take_of_length_le (by omega)]

theorem cut_some (l : List α) {start len : ℤ} (hstart : 0 ≤ start) (hlen : 0 ≤ len) :
    cut l start (some len) = (l.drop start.toNat).take len.toNat := by
  rw [cut_eq, Option.getD_some, List.drop_take]
  congr 1
  omega

theorem cut_of_nonpos (l : List α) (start : ℤ) {len : ℤ} (hlen : len ≤ 0) :
    cut l start (some len) = [] := by
  rw [cut_eq, Option.getD_some, List.drop_take, List.take_eq_nil_iff]
  left
  omega

theorem cut_of_length_le (l : List α) {start : ℤ} (h : (l.length : ℤ) ≤ start) (len : Option ℤ) :
    cut l start len = [] := by
  rw [cut_eq, List.drop_eq_nil_iff, List.length_take]
  omega

end Slice
