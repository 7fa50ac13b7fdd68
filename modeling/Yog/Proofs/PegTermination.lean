import Yog.Proofs.PegRuns

/-!
# Termination of `match`

A pattern that does not accept an empty array takes something from the input with each match (a
`RegexpPattern` says so of itself, and never matches). So the loop of an at-least pattern ends.
-/

namespace Yog

namespace Peg

open Partial (done)

variable {O X : Type} {ne : Value O → Value O → Bool}

/-- A match that takes nothing is only made by a pattern that says it may be. -/
def Honest (ne : Value O → Value O → Bool) (p : Pattern O X) : Prop :=
  ∀ {x m}, Ends ne p x (.ok (some m)) → m.rest.size = x.size → p.canAcceptEmptyArray = true

section Progress

variable {e1 e2 pat : Pattern O X}

theorem honest_serial (h1 : Honest ne e1) (h2 : Honest ne e2) : Honest ne (.serial e1 e2) := by
  intro x m h hsize
  rcases ends_serial_parts.1 h with ⟨-, hr⟩ | ⟨m1, hm1, ⟨-, hr⟩ | ⟨m2, hm2, hr⟩⟩
  · exact absurd hr (not_stops_some m)
  · exact absurd hr (not_stops_some m)
  · rw [Except.ok.injEq, Option.some.injEq] at hr
    subst hr
    have hle1 := hm1.tail.size_le
    have hle2 := hm2.tail.size_le
    simp only at hsize
    simp [Pattern.canAcceptEmptyArray, h1 hm1 (by omega), h2 hm2 (by omega)]

theorem honest_choice (h1 : Honest ne e1) (h2 : Honest ne e2) : Honest ne (.choice e1 e2) := by
  intro x m h hsize
  rcases ends_choice.1 h with ⟨hm, -⟩ | ⟨-, hm⟩
  · simp [Pattern.canAcceptEmptyArray, h1 hm hsize]
  · simp [Pattern.canAcceptEmptyArray, h2 hm hsize]

theorem honest_action {block : List (Value O) → Except (Raised X) (Value O)}
    (h : Honest ne pat) : Honest ne (.action pat block) := by
  intro x m hm hsize
  rcases ends_action.1 hm with ⟨-, hr⟩ | ⟨m1, hm1, hr⟩
  · exact absurd hr (not_stops_some m)
  · rcases hv : arguments pat m1.matched >>= block with c | v
    · simp [hv, Except.map] at hr
    · simp only [hv, Except.map, Except.ok.injEq, Option.some.injEq] at hr
      subst hr
      exact h hm1 hsize

/-- A repetition that asks for a match and takes nothing has a body that took nothing. -/
theorem honest_atLeast {n : ℕ} (h : Honest ne pat) : Honest ne (.atLeast pat n) := by
  intro x m hm hsize
  rcases n with _ | n
  · simp [Pattern.canAcceptEmptyArray]
  · obtain ⟨fuel, hm⟩ := hm
    simp only [matchPat, Nat.add_one_ne_zero, false_and, if_false] at hm
    rw [atLeastLoop_succ, Partial.bind_eq_done] at hm
    rcases hm with ⟨_ | m1, hm1, hm⟩ | ⟨e, -, hm⟩
    · simp [branch] at hm
    · have hbody : Ends ne pat x (.ok (some m1)) := ⟨fuel, hm1⟩
      have hle := hbody.tail.size_le
      have htail : m1.rest.Tail m.rest :=
        atLeastLoop_tail (fun hm => Ends.tail ⟨fuel, hm⟩) n hm
      have hle' := htail.size_le
      simp [Pattern.canAcceptEmptyArray, h hbody (by omega)]
    · simp at hm

end Progress

theorem honest (p : Pattern O X) : Honest ne p := by
  induction p with
  | string e =>
    intro x m hm hsize
    obtain ⟨s, rfl, rfl⟩ := matchString_some (ends_string.1 hm)
    simpa [Input.size, Pattern.canAcceptEmptyArray] using hsize
  | regexp e =>
    intro x m hm
    cases ends_regexp.1 hm
  | scalar e =>
    intro x m hm hsize
    obtain ⟨v, hx⟩ := matchScalar_some (ends_scalar.1 hm)
    exact absurd hsize (Input.tail_next hx).2.ne
  | custom e block =>
    intro x m hm hsize
    obtain ⟨v, hx⟩ := matchCustom_some (ends_custom.1 hm)
    exact absurd hsize (Input.tail_next hx).2.ne
  | serial e1 e2 ih1 ih2 => exact honest_serial ih1 ih2
  | choice e1 e2 ih1 ih2 => exact honest_choice ih1 ih2
  | atMost pat n ih => exact fun _ _ => rfl
  | atLeast pat n ih => exact honest_atLeast ih
  | action pat block ih => exact honest_action ih

/-- `match` returns or raises on every input. -/
def Halts (ne : Value O → Value O → Bool) (p : Pattern O X) : Prop := ∀ x, ∃ r, Ends ne p x r

section Halting

variable {e1 e2 pat : Pattern O X}

theorem halts_serial (h1 : Halts ne e1) (h2 : Halts ne e2) : Halts ne (.serial e1 e2) := by
  intro x
  obtain ⟨r1, hr1⟩ := h1 x
  rcases r1 with e | _ | m1
  · exact ⟨_, ends_serial.2 (.inl ⟨hr1, stops_error e⟩)⟩
  · exact ⟨_, ends_serial.2 (.inl ⟨hr1, stops_nil⟩)⟩
  · obtain ⟨r2, hr2⟩ := h2 m1.rest
    rcases r2 with e | _ | m2
    · exact ⟨_, ends_serial.2 (.inr ⟨m1, hr1, .inl ⟨hr2, stops_error e⟩⟩)⟩
    · exact ⟨_, ends_serial.2 (.inr ⟨m1, hr1, .inl ⟨hr2, stops_nil⟩⟩)⟩
    · exact ⟨_, ends_serial.2 (.inr ⟨m1, hr1, .inr ⟨m2, hr2, rfl⟩⟩)⟩

theorem halts_choice (h1 : Halts ne e1) (h2 : Halts ne e2) : Halts ne (.choice e1 e2) := by
  intro x
  obtain ⟨r1, hr1⟩ := h1 x
  by_cases hnil : r1 = .ok none
  · subst hnil
    obtain ⟨r2, hr2⟩ := h2 x
    exact ⟨r2, ends_choice.2 (.inr ⟨hr1, hr2⟩)⟩
  · exact ⟨r1, ends_choice.2 (.inl ⟨hr1, hnil⟩)⟩

theorem halts_action {block : List (Value O) → Except (Raised X) (Value O)} (h : Halts ne pat) :
    Halts ne (.action pat block) := by
  intro x
  obtain ⟨r, hr⟩ := h x
  rcases r with e | _ | m
  · exact ⟨_, ends_action.2 (.inl ⟨hr, stops_error e⟩)⟩
  · exact ⟨_, ends_action.2 (.inl ⟨hr, stops_nil⟩)⟩
  · exact ⟨_, ends_action.2 (.inr ⟨m, hr, rfl⟩)⟩

/-- A loop whose rounds end goes on, with what it has matched, where a round ends with a match. -/
theorem ends_of_rounds {g : ℕ → Partial (Raised X) (Option (Match O))}
    {k : ℕ → Match O → Partial (Raised X) (Option (Match O))} (h : Halts ne pat) (x : Input O)
    (hg : Partial.Steady g) (hk : ∀ m, Partial.Steady fun n => k n m)
    (hnil : ∃ r, Partial.Ends g r)
    (hmore : ∀ m, Ends ne pat x (.ok (some m)) → ∃ r, Partial.Ends (fun n => k n m) r) :
    ∃ r, Partial.Ends (fun n => matchPat ne n pat x >>= branch (g n) (k n)) r := by
  obtain ⟨r, hr⟩ := h x
  rcases r with e | _ | m
  · exact ⟨_, (ends_branch (steady_matchPat pat x) hg hk).2 (.inl ⟨e, hr, rfl⟩)⟩
  · obtain ⟨r', hr'⟩ := hnil
    exact ⟨r', (ends_branch (steady_matchPat pat x) hg hk).2 (.inr (.inl ⟨hr, hr'⟩))⟩
  · obtain ⟨r', hr'⟩ := hmore m hr
    exact ⟨r', (ends_branch (steady_matchPat pat x) hg hk).2 (.inr (.inr ⟨m, hr, hr'⟩))⟩

theorem atMostLoop_halts (h : Halts ne pat) (n : ℕ) : ∀ (acc : List (Value O)) (x : Input O),
    ∃ r, Partial.Ends (fun fuel => atMostLoop (matchPat ne fuel pat) n acc x) r := by
  induction n with
  | zero => exact fun acc x => ⟨_, 0, rfl⟩
  | succ n ih =>
    intro acc x
    simp only [atMostLoop_succ]
    exact ends_of_rounds h x (Partial.steady_done _)
      (fun m => steady_atMostLoop (steady_matchPat pat) n _ _) ⟨_, 0, rfl⟩ fun m _ => ih _ _

/-- Each round takes something, so there are no more of them than the input has elements. -/
theorem loop_halts (h : Halts ne pat) (hpat : Honest ne pat)
    (hempty : pat.canAcceptEmptyArray = false) : ∀ (k : ℕ) (acc : List (Value O)) (x : Input O),
      x.size < k → ∃ r, Partial.Ends (fun fuel => loop (matchPat ne fuel pat) fuel acc x) r := by
  intro k
  induction k with
  | zero => exact fun _ _ hk => absurd hk (Nat.not_lt_zero _)
  | succ k ih =>
    intro acc x hk
    obtain ⟨r, hr⟩ := h x
    rcases r with e | _ | m
    · exact ⟨_, (ends_loop (steady_matchPat pat)).2 (.inl ⟨e, hr, rfl⟩)⟩
    · exact ⟨_, (ends_loop (steady_matchPat pat)).2 (.inr (.inl ⟨hr, rfl⟩))⟩
    · have hle := hr.tail.size_le
      have hne : m.rest.size ≠ x.size := by
        intro heq
        rw [hpat hr heq] at hempty
        exact absurd hempty (by simp)
      obtain ⟨r', hr'⟩ := ih (acc ++ [m.matched]) m.rest (by omega)
      exact ⟨r', (ends_loop (steady_matchPat pat)).2 (.inr (.inr ⟨m, hr, hr'⟩))⟩

theorem atLeastLoop_halts (h : Halts ne pat) (hpat : Honest ne pat)
    (hempty : pat.canAcceptEmptyArray = false) (n : ℕ) : ∀ (acc : List (Value O)) (x : Input O),
      ∃ r, Partial.Ends (fun fuel => atLeastLoop (matchPat ne fuel pat) fuel n acc x) r := by
  induction n with
  | zero => exact fun acc x => loop_halts h hpat hempty (x.size + 1) acc x (Nat.lt_succ_self _)
  | succ n ih =>
    intro acc x
    simp only [atLeastLoop_succ]
    exact ends_of_rounds h x (Partial.steady_done _)
      (fun m => steady_atLeastLoop (steady_matchPat pat) n _ _) ⟨_, 0, rfl⟩ fun m _ => ih _ _

theorem halts_atMost (h : Halts ne pat) (n : ℕ) : Halts ne (.atMost pat n) := by
  intro x
  by_cases hx : x.size = 0
  · exact ⟨.ok (some ⟨.array [], x⟩), 0, by simp [matchPat, hx]⟩
  · obtain ⟨r, fuel, hr⟩ := atMostLoop_halts h n [] x
    exact ⟨r, fuel, by simpa [matchPat, hx] using hr⟩

theorem halts_atLeast (h : Halts ne pat) (hpat : Honest ne pat)
    (hempty : pat.canAcceptEmptyArray = false) (n : ℕ) : Halts ne (.atLeast pat n) := by
  intro x
  by_cases hx : n = 0 ∧ x.size = 0
  · exact ⟨.ok (some ⟨.array [], x⟩), 0, by simp [matchPat, hx.1, hx.2]⟩
  · obtain ⟨r, fuel, hr⟩ := atLeastLoop_halts h hpat hempty n [] x
    exact ⟨r, fuel, by simp only [matchPat, if_neg hx]; exact hr⟩

end Halting

/-- What `^` makes of a pattern: a bounded repetition, or one of a body that says it takes
something. -/
theorem hat_eq_ok {pat p : Pattern O X} {n : ℤ} (h : pat.hat n = .ok p) :
    (∃ k, p = .atMost pat k) ∨ ∃ k, p = .atLeast pat k ∧ pat.canAcceptEmptyArray = false := by
  unfold Pattern.hat at h
  split_ifs at h with hn hempty
  · exact .inl ⟨_, (Except.ok.inj h).symm⟩
  · exact .inr ⟨_, (Except.ok.inj h).symm, by simpa using hempty⟩

theorem Pattern.Built.halts {p : Pattern O X} (hp : p.Built) : Halts ne p := by
  induction hp with
  | string | regexp | scalar | custom => exact fun x => ⟨_, 0, rfl⟩
  | serial _ _ ih1 ih2 => exact halts_serial ih1 ih2
  | choice _ _ ih1 ih2 => exact halts_choice ih1 ih2
  | @hat pat _ n _ hn ih =>
    rcases hat_eq_ok hn with ⟨k, rfl⟩ | ⟨k, rfl, hempty⟩
    · exact halts_atMost ih k
    · exact halts_atLeast ih (honest pat) hempty k
  | action _ _ ih => exact halts_action ih

/-- `p` can match without taking anything from the input. -/
def MatchesNothing (ne : Value O → Value O → Bool) (p : Pattern O X) : Prop :=
  ∃ x v, Ends ne p x (.ok (some ⟨v, x⟩))

/-- Every match with a pattern that can be constructed ends; and one that can match nothing says so,
so that no unbounded repetition of it is constructed. -/
theorem match_terminates (ne : Value O → Value O → Bool) (p : {p : Pattern O X // p.Built}) :
    (∀ x, ∃ r, Ends ne p.1 x r) ∧ (MatchesNothing ne p.1 → p.1.canAcceptEmptyArray = true) ∧
      ∀ n : ℤ, 0 ≤ n → MatchesNothing ne p.1 → p.1.hat n = .error .syntaxError := by
  have hempty : MatchesNothing ne p.1 → p.1.canAcceptEmptyArray = true := fun ⟨_, _, hm⟩ =>
    honest p.1 hm rfl
  refine ⟨p.2.halts, hempty, fun n hn hm => ?_⟩
  rw [Pattern.hat, if_neg (by omega), if_pos (hempty hm)]

/-- `(pattern("a") / pattern("b") ^ (-1)) ^ 2` -/
example : ((Pattern.string [toYogChar 0x61]).choice (.atMost (.string [toYogChar 0x62]) 1) :
    Pattern Empty Empty).hat 2 = .error .syntaxError := rfl

end Peg

end Yog
