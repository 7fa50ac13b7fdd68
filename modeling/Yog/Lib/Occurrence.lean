import Mathlib.Data.List.Infix
import Mathlib.Data.Nat.Find

/-!
# Occurrences of one list in another

Where a list occurs in another, and the pieces that are left when the leftmost occurrences that do
not overlap are taken out. The pieces are determined (`Pieces.unique`), the list does not occur in
any of them (`Pieces.not_infix`), and with the list between them they are the whole again
(`Pieces.intercalate_eq`).
-/

namespace Occurrence

variable {α : Type*} {s t : List α} {i n : ℕ} {ps : List (List α)}

/-- `t` occurs in `s` at the index `i`. -/
def OccursAt (t s : List α) (i : ℕ) : Prop := t <+: s.drop i

instance [DecidableEq α] : Decidable (OccursAt t s i) := inferInstanceAs (Decidable (_ <+: _))

@[simp]
theorem occursAt_drop : OccursAt t (s.drop n) i ↔ OccursAt t s (n + i) := by
  simp [OccursAt]

theorem OccursAt.le (ht : t ≠ []) (h : OccursAt t s i) : i + t.length ≤ s.length := by
  have hle := h.length_le
  have hpos := List.length_pos_iff.2 ht
  rw [List.length_drop] at hle
  omega

theorem OccursAt.eq_append (h : OccursAt t s i) :
    s = s.take i ++ (t ++ s.drop (i + t.length)) := by
  obtain ⟨v, hv⟩ := h
  rw [← List.drop_drop, ← hv, List.drop_left, hv, List.take_append_drop]

/-- What occurs in the beginning of a list occurs in the list. -/
theorem OccursAt.of_take (h : OccursAt t (s.take n) i) : OccursAt t s i :=
  h.trans (by simpa [List.drop_take] using List.take_prefix _ _)

theorem isInfix_iff : t <:+: s ↔ ∃ i, OccursAt t s i := by
  constructor
  · rintro ⟨u, v, rfl⟩
    exact ⟨u.length, v, by simp⟩
  · rintro ⟨i, h⟩
    exact h.isInfix.trans (List.drop_suffix i s).isInfix

/-- `i` is the first index from `n` on at which `t` occurs in `s`. -/
structure IsFirst (t s : List α) (n i : ℕ) : Prop where
  ge : n ≤ i
  occurs : OccursAt t s i
  least : ∀ j, n ≤ j → j < i → ¬ OccursAt t s j

theorem isFirst_drop : IsFirst t (s.drop n) 0 i ↔ IsFirst t s n (n + i) := by
  constructor
  · intro h
    refine ⟨by omega, occursAt_drop.1 h.occurs, fun j hj hji hocc => ?_⟩
    obtain ⟨k, rfl⟩ := Nat.exists_eq_add_of_le hj
    exact h.least k (by omega) (by omega) (occursAt_drop.2 hocc)
  · intro h
    exact ⟨by omega, occursAt_drop.2 h.occurs,
      fun j _ hj hocc => h.least (n + j) (by omega) (by omega) (occursAt_drop.1 hocc)⟩

theorem IsFirst.unique {j : ℕ} (h : IsFirst t s n i) (h' : IsFirst t s n j) : i = j := by
  rcases Nat.lt_trichotomy i j with hlt | heq | hgt
  · exact absurd h.occurs (h'.least i h.ge hlt)
  · exact heq
  · exact absurd h'.occurs (h.least j h'.ge hgt)

/-- The pieces of a list between the leftmost occurrences of `t` that do not overlap. -/
inductive Pieces (t : List α) : List α → List (List α) → Prop
  | last {s : List α} (h : ∀ i, ¬ OccursAt t s i) : Pieces t s [s]
  | cut {s : List α} {i : ℕ} {ps : List (List α)} (h : IsFirst t s 0 i)
      (rest : Pieces t (s.drop (i + t.length)) ps) : Pieces t s (s.take i :: ps)

theorem Pieces.ne_nil (h : Pieces t s ps) : ps ≠ [] := by
  cases h <;> simp

theorem Pieces.intercalate_eq (h : Pieces t s ps) : t.intercalate ps = s := by
  induction h with
  | last h => simp
  | @cut s i ps h rest ih =>
    rw [List.intercalate_cons_of_ne_nil rest.ne_nil, ih, List.append_assoc, ← h.occurs.eq_append]

theorem Pieces.not_infix (ht : t ≠ []) (h : Pieces t s ps) : ∀ p ∈ ps, ¬ t <:+: p := by
  induction h with
  | @last s h =>
    intro p hp hocc
    rw [List.mem_singleton.1 hp, isInfix_iff] at hocc
    exact hocc.elim h
  | @cut s i ps h rest ih =>
    intro p hp hocc
    rcases List.mem_cons.1 hp with rfl | hp
    · obtain ⟨j, hj⟩ := isInfix_iff.1 hocc
      have hle := hj.le ht
      have hpos := List.length_pos_iff.2 ht
      rw [List.length_take] at hle
      exact h.least j (by omega) (by omega) hj.of_take
    · exact ih p hp hocc

theorem Pieces.unique {qs : List (List α)} (h : Pieces t s ps) (h' : Pieces t s qs) : ps = qs := by
  induction h generalizing qs with
  | last h =>
    cases h' with
    | last => rfl
    | cut h' => exact absurd h'.occurs (h _)
  | cut h rest ih =>
    cases h' with
    | last h' => exact absurd h.occurs (h' _)
    | cut h' rest' =>
      obtain rfl := h.unique h'
      rw [ih rest']

/-- A search that has come to `n` leaves these pieces of what follows. -/
theorem Pieces.cut_drop (h : IsFirst t s n i) (rest : Pieces t (s.drop (i + t.length)) ps) :
    Pieces t (s.drop n) ((s.drop n).take (i - n) :: ps) := by
  obtain ⟨k, rfl⟩ := Nat.exists_eq_add_of_le h.ge
  rw [Nat.add_sub_cancel_left]
  refine .cut (isFirst_drop.2 h) ?_
  rwa [List.drop_drop, ← Nat.add_assoc]

theorem Pieces.last_drop (h : ∀ i, n ≤ i → ¬ OccursAt t s i) : Pieces t (s.drop n) [s.drop n] :=
  .last fun i hi => h (n + i) (by omega) (occursAt_drop.1 hi)

theorem IsFirst.exists_of_occursAt (h : OccursAt t s i) : ∃ j, IsFirst t s 0 j := by
  classical
  have hex : ∃ i, OccursAt t s i := ⟨i, h⟩
  exact ⟨Nat.find hex, Nat.zero_le _, Nat.find_spec hex, fun j _ hj => Nat.find_min hex hj⟩

theorem Pieces.exists (ht : t ≠ []) (s : List α) : ∃ ps, Pieces t s ps := by
  by_cases h : ∃ i, OccursAt t s i
  · obtain ⟨j, hj⟩ := IsFirst.exists_of_occursAt h.choose_spec
    have hle := hj.occurs.le ht
    have hpos := List.length_pos_iff.2 ht
    obtain ⟨ps, hps⟩ := Pieces.exists ht (s.drop (j + t.length))
    exact ⟨_, .cut hj hps⟩
  · exact ⟨_, .last (not_exists.1 h)⟩
termination_by s.length
decreasing_by
  rw [List.length_drop]
  omega

/-- No more than `n` pieces, and the rest as it was. -/
def firstPieces (t : List α) (n : ℕ) (ps : List (List α)) : List (List α) :=
  ps.take (min n (ps.length - 1)) ++ [t.intercalate (ps.drop (min n (ps.length - 1)))]

@[simp]
theorem firstPieces_zero : firstPieces t 0 ps = [t.intercalate ps] := by
  simp [firstPieces]

@[simp]
theorem firstPieces_singleton (p : List α) : firstPieces t n [p] = [p] := by
  simp [firstPieces]

theorem firstPieces_cons (p : List α) (h : ps ≠ []) :
    firstPieces t (n + 1) (p :: ps) = p :: firstPieces t n ps := by
  obtain ⟨m, hm⟩ := Nat.exists_eq_add_of_lt (List.length_pos_iff.2 h)
  simp [firstPieces, hm, Nat.add_min_add_right]

theorem firstPieces_length (h : ps ≠ []) : firstPieces t ps.length ps = ps := by
  induction ps with
  | nil => exact absurd rfl h
  | cons p ps ih =>
    rcases ps with _ | ⟨q, ps⟩
    · simp
    · rw [List.length_cons, firstPieces_cons _ (List.cons_ne_nil _ _), ih (List.cons_ne_nil _ _)]

end Occurrence
