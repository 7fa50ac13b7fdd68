import Yog.Peg

/-!
# Runs of `match`

What `match` comes to, pattern by pattern (`ends_serial` to `ends_action`): an equation in the
results of the operands, with the fuel gone. The two laws of the operators are read off these.
-/

namespace Yog

namespace Peg

open Partial (Steady done)

variable {O X : Type}

/-- The result of a `match`. -/
abbrev Result (O X : Type) := Except (Raised X) (Option (Match O))

/-- `nil`, or an exception. -/
def Stops (r : Result O X) : Prop := ∀ m, r ≠ .ok (some m)

@[simp] theorem stops_nil : Stops (.ok none : Result O X) := nofun

@[simp] theorem stops_error (e : Raised X) : Stops (.error e : Result O X) := nofun

@[simp] theorem not_stops_some (m : Match O) : ¬ Stops (.ok (some m) : Result O X) :=
  fun h => h m rfl

theorem Stops.cases {r : Result O X} (h : Stops r) : r = .ok none ∨ ∃ e, r = .error e := by
  rcases r with e | _ | m
  · exact .inr ⟨e, rfl⟩
  · exact .inl rfl
  · exact absurd h (not_stops_some m)

section Sequencing

variable {f : ℕ → Partial (Raised X) (Option (Match O))}
  {g : ℕ → Partial (Raised X) (Option (Match O))}
  {k : ℕ → Match O → Partial (Raised X) (Option (Match O))} {r : Result O X}

/-- A run that goes on with `g` after `nil`, and with `k` after a match. -/
def branch (g : Partial (Raised X) (Option (Match O)))
    (k : Match O → Partial (Raised X) (Option (Match O))) :
    Option (Match O) → Partial (Raised X) (Option (Match O))
  | none => g
  | some m => k m

theorem steady_branch (hf : Steady f) (hg : Steady g) (hk : ∀ m, Steady fun n => k n m) :
    Steady fun n => f n >>= branch (g n) (k n) :=
  hf.bind fun o => by rcases o with _ | m <;> simp [branch, hg, hk]

theorem ends_branch (hf : Steady f) (hg : Steady g) (hk : ∀ m, Steady fun n => k n m) :
    Partial.Ends (fun n => f n >>= branch (g n) (k n)) r ↔
      (∃ e, Partial.Ends f (.error e) ∧ r = .error e) ∨
        (Partial.Ends f (.ok none) ∧ Partial.Ends g r) ∨
          ∃ m, Partial.Ends f (.ok (some m)) ∧ Partial.Ends (fun n => k n m) r := by
  rw [Partial.ends_bind hf fun o => by rcases o with _ | m <;> simp [branch, hg, hk]]
  rw [or_comm, Option.exists]
  rfl

/-- A run that is over unless there is a match. -/
theorem ends_andThen (hf : Steady f) (hk : ∀ m, Steady fun n => k n m) :
    Partial.Ends (fun n => f n >>= branch (done (.ok none)) (k n)) r ↔
      (Partial.Ends f r ∧ Stops r) ∨
        ∃ m, Partial.Ends f (.ok (some m)) ∧ Partial.Ends (fun n => k n m) r := by
  rw [ends_branch hf (Partial.steady_done _) hk, ← or_assoc, Partial.ends_done]
  refine or_congr_left ?_
  constructor
  · rintro (⟨e, he, rfl⟩ | ⟨h, rfl⟩)
    · exact ⟨he, stops_error e⟩
    · exact ⟨h, stops_nil⟩
  · rintro ⟨h, hr⟩
    rcases hr.cases with rfl | ⟨e, rfl⟩
    · exact .inr ⟨h, rfl⟩
    · exact .inl ⟨e, h, rfl⟩

end Sequencing

section Loops

variable {body : ℕ → Input O → Partial (Raised X) (Option (Match O))}

theorem atMostLoop_succ (b : Input O → Partial (Raised X) (Option (Match O))) (n : ℕ)
    (acc : List (Value O)) (x : Input O) : atMostLoop b (n + 1) acc x =
      b x >>= branch (done (.ok (some ⟨.array acc, x⟩)))
        fun m => atMostLoop b n (acc ++ [m.matched]) m.rest := by
  rw [atMostLoop]
  congr 1

theorem loop_succ (b : Input O → Partial (Raised X) (Option (Match O))) (fuel : ℕ)
    (acc : List (Value O)) (x : Input O) : loop b (fuel + 1) acc x =
      b x >>= branch (done (.ok (some ⟨.array acc, x⟩)))
        fun m => loop b fuel (acc ++ [m.matched]) m.rest := by
  rw [loop]
  congr 1

theorem atLeastLoop_succ (b : Input O → Partial (Raised X) (Option (Match O))) (fuel n : ℕ)
    (acc : List (Value O)) (x : Input O) : atLeastLoop b fuel (n + 1) acc x =
      b x >>= branch (done (.ok none))
        fun m => atLeastLoop b fuel n (acc ++ [m.matched]) m.rest := by
  rw [atLeastLoop]
  congr 1

theorem steady_atMostLoop (hb : ∀ x, Steady fun n => body n x) (n : ℕ) :
    ∀ (acc : List (Value O)) (x : Input O), Steady fun fuel => atMostLoop (body fuel) n acc x := by
  induction n with
  | zero => exact fun acc x => Partial.steady_done _
  | succ n ih =>
    intro acc x
    simp only [atMostLoop_succ]
    exact steady_branch (hb x) (Partial.steady_done _) fun m => ih _ _

/-- More rounds and more fuel for the body. -/
theorem loop_mono (hb : ∀ x, Steady fun n => body n x) {n m : ℕ} (hnm : n ≤ m) {r : Result O X} :
    ∀ {c d : ℕ} {acc : List (Value O)} {x : Input O}, c ≤ d →
      loop (body n) c acc x = done r → loop (body m) d acc x = done r
  | 0, _, _, _, _, h => by simp [loop] at h
  | c + 1, 0, _, _, hcd, _ => by omega
  | c + 1, d + 1, acc, x, hcd, h => by
    rw [loop_succ, Partial.bind_eq_done] at h ⊢
    rcases h with ⟨o, ho, hr⟩ | ⟨e, he, hr⟩
    · refine .inl ⟨o, hb x hnm ho, ?_⟩
      rcases o with _ | m'
      · exact hr
      · exact loop_mono hb hnm (Nat.le_of_succ_le_succ hcd) hr
    · exact .inr ⟨e, hb x hnm he, hr⟩

theorem steady_loop (hb : ∀ x, Steady fun n => body n x) (acc : List (Value O)) (x : Input O) :
    Steady fun fuel => loop (body fuel) fuel acc x :=
  fun _ _ _ hnm h => loop_mono hb hnm hnm h

theorem steady_atLeastLoop (hb : ∀ x, Steady fun n => body n x) (n : ℕ) :
    ∀ (acc : List (Value O)) (x : Input O),
      Steady fun fuel => atLeastLoop (body fuel) fuel n acc x := by
  induction n with
  | zero => exact steady_loop hb
  | succ n ih =>
    intro acc x
    simp only [atLeastLoop_succ]
    exact steady_branch (hb x) (Partial.steady_done _) fun m => ih _ _

/-- One round of the loop without a bound. -/
theorem ends_loop (hb : ∀ x, Steady fun n => body n x) {acc : List (Value O)} {x : Input O}
    {r : Result O X} : Partial.Ends (fun fuel => loop (body fuel) fuel acc x) r ↔
      (∃ e, Partial.Ends (fun n => body n x) (.error e) ∧ r = .error e) ∨
        (Partial.Ends (fun n => body n x) (.ok none) ∧ r = .ok (some ⟨.array acc, x⟩)) ∨
          ∃ m, Partial.Ends (fun n => body n x) (.ok (some m)) ∧
            Partial.Ends (fun fuel => loop (body fuel) fuel (acc ++ [m.matched]) m.rest) r := by
  have hround := ends_branch (r := r) (hb x) (Partial.steady_done (.ok (some ⟨.array acc, x⟩)))
    fun m => steady_loop hb (acc ++ [m.matched]) m.rest
  rw [Partial.ends_done] at hround
  rw [← hround]
  constructor
  · rintro ⟨_ | n, h⟩
    · simp [loop] at h
    · simp only [loop_succ] at h
      refine ⟨n + 1, ?_⟩
      rw [Partial.bind_eq_done] at h ⊢
      refine h.imp_left ?_
      rintro ⟨_ | m, ho, hr⟩
      · exact ⟨none, ho, hr⟩
      · exact ⟨some m, ho, loop_mono hb le_rfl (Nat.le_succ n) hr⟩
  · rintro ⟨n, h⟩
    refine ⟨n + 1, ?_⟩
    simp only [loop_succ]
    rw [Partial.bind_eq_done] at h ⊢
    rcases h with ⟨_ | m, ho, hr⟩ | ⟨e, he, hr⟩
    · exact .inl ⟨none, hb x (Nat.le_succ n) ho, hr⟩
    · exact .inl ⟨some m, hb x (Nat.le_succ n) ho, loop_mono hb (Nat.le_succ n) le_rfl hr⟩
    · exact .inr ⟨e, hb x (Nat.le_succ n) he, hr⟩

end Loops

variable {ne : Value O → Value O → Bool}

theorem matchPat_serial (fuel : ℕ) (e1 e2 : Pattern O X) (x : Input O) :
    matchPat ne fuel (.serial e1 e2) x =
      matchPat ne fuel e1 x >>= branch (done (.ok none)) fun m1 =>
        matchPat ne fuel e2 m1.rest >>= branch (done (.ok none)) fun m2 =>
          done ((join e1 e2 m1.matched m2.matched).map fun v => some ⟨v, m2.rest⟩) := by
  rw [matchPat]
  congr 1
  funext o
  rcases o with _ | m1
  · rfl
  · show matchPat ne fuel e2 m1.rest >>= _ = matchPat ne fuel e2 m1.rest >>= _
    congr 1
    funext o
    rcases o with _ | m2
    · rfl
    · exact Partial.done_bind_map (join e1 e2 m1.matched m2.matched) _

theorem matchPat_choice (fuel : ℕ) (e1 e2 : Pattern O X) (x : Input O) :
    matchPat ne fuel (.choice e1 e2) x =
      matchPat ne fuel e1 x >>= branch (matchPat ne fuel e2 x) fun m => done (.ok (some m)) := by
  rw [matchPat]
  congr 1
  funext o
  rcases o with _ | m <;> rfl

theorem matchPat_action (fuel : ℕ) (pat : Pattern O X)
    (block : List (Value O) → Except (Raised X) (Value O)) (x : Input O) :
    matchPat ne fuel (.action pat block) x =
      matchPat ne fuel pat x >>= branch (done (.ok none)) fun m =>
        done ((arguments pat m.matched >>= block).map fun v => some ⟨v, m.rest⟩) := by
  rw [matchPat]
  congr 1
  funext o
  rcases o with _ | m
  · rfl
  · rcases hargs : arguments pat m.matched with e | args
    · simp only [branch, hargs]
      rfl
    · simp only [branch, hargs, Partial.done_ok_bind]
      exact Partial.done_bind_map (block args) _

theorem steady_matchPat (p : Pattern O X) (x : Input O) :
    Steady fun fuel => matchPat ne fuel p x := by
  induction p generalizing x with
  | string e => exact Partial.steady_done _
  | regexp e => exact Partial.steady_done _
  | scalar e => exact Partial.steady_done _
  | custom e block => exact Partial.steady_done _
  | serial e1 e2 ih1 ih2 =>
    simp only [matchPat_serial]
    exact steady_branch (ih1 x) (Partial.steady_done _) fun m1 =>
      steady_branch (ih2 m1.rest) (Partial.steady_done _) fun m2 => Partial.steady_done _
  | choice e1 e2 ih1 ih2 =>
    simp only [matchPat_choice]
    exact steady_branch (ih1 x) (ih2 x) fun m => Partial.steady_done _
  | atMost pat n ih =>
    simp only [matchPat]
    split_ifs
    · exact Partial.steady_done _
    · exact steady_atMostLoop ih n [] x
  | atLeast pat n ih =>
    simp only [matchPat]
    split_ifs
    · exact Partial.steady_done _
    · exact steady_atLeastLoop ih n [] x
  | action pat block ih =>
    simp only [matchPat_action]
    exact steady_branch (ih x) (Partial.steady_done _) fun m => Partial.steady_done _

theorem Ends.unique {p : Pattern O X} {x : Input O} {r r' : Result O X} (h : Ends ne p x r)
    (h' : Ends ne p x r') : r = r' :=
  (steady_matchPat p x).ends_unique h h'

section Equations

variable {x : Input O} {r : Result O X}

theorem ends_string {e : List YogChar} : Ends ne (.string e) x r ↔ r = matchString e x :=
  Partial.ends_done

theorem ends_regexp {e : Regexp} : Ends ne (.regexp e) x r ↔ r = matchRegexp e x :=
  Partial.ends_done

theorem ends_scalar {e : Value O} : Ends ne (.scalar e) x r ↔ r = matchScalar ne e x :=
  Partial.ends_done

theorem ends_custom {e : Value O} {block : Value O → Value O → Except (Raised X) Bool} :
    Ends ne (.custom e block) x r ↔ r = matchCustom block e x :=
  Partial.ends_done

theorem ends_serial {e1 e2 : Pattern O X} : Ends ne (.serial e1 e2) x r ↔
    (Ends ne e1 x r ∧ Stops r) ∨ ∃ m1, Ends ne e1 x (.ok (some m1)) ∧
      ((Ends ne e2 m1.rest r ∧ Stops r) ∨ ∃ m2, Ends ne e2 m1.rest (.ok (some m2)) ∧
        r = (join e1 e2 m1.matched m2.matched).map fun v => some ⟨v, m2.rest⟩) := by
  unfold Ends
  simp only [matchPat_serial]
  rw [ends_andThen (steady_matchPat e1 x) fun m1 =>
    steady_branch (steady_matchPat e2 m1.rest) (Partial.steady_done _)
      fun m2 => Partial.steady_done _]
  refine or_congr_right (exists_congr fun m1 => and_congr_right fun _ => ?_)
  rw [ends_andThen (steady_matchPat e2 m1.rest) fun m2 => Partial.steady_done _]
  simp only [Partial.ends_done]

theorem ends_choice {e1 e2 : Pattern O X} : Ends ne (.choice e1 e2) x r ↔
    (Ends ne e1 x r ∧ r ≠ .ok none) ∨ (Ends ne e1 x (.ok none) ∧ Ends ne e2 x r) := by
  unfold Ends
  simp only [matchPat_choice]
  rw [ends_branch (steady_matchPat e1 x) (steady_matchPat e2 x) fun m => Partial.steady_done _]
  simp only [Partial.ends_done]
  constructor
  · rintro (⟨e, he, rfl⟩ | h | ⟨m, hm, rfl⟩)
    · exact .inl ⟨he, by simp⟩
    · exact .inr h
    · exact .inl ⟨hm, by simp⟩
  · rintro (⟨h, hr⟩ | h)
    · rcases r with e | _ | m
      · exact .inl ⟨e, h, rfl⟩
      · exact absurd rfl hr
      · exact .inr (.inr ⟨m, h, rfl⟩)
    · exact .inr (.inl h)

theorem ends_action {pat : Pattern O X} {block : List (Value O) → Except (Raised X) (Value O)} :
    Ends ne (.action pat block) x r ↔
      (Ends ne pat x r ∧ Stops r) ∨ ∃ m, Ends ne pat x (.ok (some m)) ∧
        r = (arguments pat m.matched >>= block).map fun v => some ⟨v, m.rest⟩ := by
  unfold Ends
  simp only [matchPat_action]
  rw [ends_andThen (steady_matchPat pat x) fun m => Partial.steady_done _]
  simp only [Partial.ends_done]

end Equations

/-- The values a pattern adds to a sequence it stands in. -/
def parts : Pattern O X → Value O → List (Value O)
  | .serial _ _, .array a => a
  | _, v => [v]

/-- A value that a sequence can have matched, if `p` is one. -/
def Fits (p : Pattern O X) (v : Value O) : Prop := p.isSerial = true → ∃ a, v = .array a

theorem parts_array {p : Pattern O X} (hp : p.isSerial = true) (a : List (Value O)) :
    parts p (.array a) = a := by
  cases p <;> simp [Pattern.isSerial, parts] at hp ⊢

theorem parts_single {p : Pattern O X} (hp : ¬ p.isSerial = true) (v : Value O) :
    parts p v = [v] := by
  cases p <;> simp [Pattern.isSerial, parts] at hp ⊢

theorem join_eq {e1 e2 : Pattern O X} {v1 v2 : Value O} (h1 : Fits e1 v1) (h2 : Fits e2 v2) :
    (join e1 e2 v1 v2 : Except (Raised X) (Value O)) =
      .ok (.array (parts e1 v1 ++ parts e2 v2)) := by
  unfold join
  by_cases hs1 : e1.isSerial = true
  · obtain ⟨a, rfl⟩ := h1 hs1
    rw [if_pos hs1, parts_array hs1]
    by_cases hs2 : e2.isSerial = true
    · obtain ⟨b, rfl⟩ := h2 hs2
      rw [if_pos hs2, parts_array hs2]
      rfl
    · rw [if_neg hs2, parts_single hs2]
      rfl
  · rw [if_neg hs1, parts_single hs1]
    by_cases hs2 : e2.isSerial = true
    · obtain ⟨b, rfl⟩ := h2 hs2
      rw [if_pos hs2, parts_array hs2]
      rfl
    · rw [if_neg hs2, parts_single hs2]
      rfl

theorem arguments_eq {p : Pattern O X} {v : Value O} (h : Fits p v) :
    (arguments p v : Except (Raised X) (List (Value O))) = .ok (parts p v) := by
  unfold arguments
  by_cases hp : p.isSerial = true
  · obtain ⟨a, rfl⟩ := h hp
    rw [if_pos hp, parts_array hp]
    rfl
  · rw [if_neg hp, parts_single hp]

theorem Ends.fits {p : Pattern O X} {x : Input O} {m : Match O}
    (h : Ends ne p x (.ok (some m))) : Fits p m.matched := by
  induction p generalizing x m with
  | serial e1 e2 ih1 ih2 =>
    intro _
    obtain ⟨-, hr⟩ | ⟨m1, hm1, ⟨-, hr⟩ | ⟨m2, hm2, hr⟩⟩ := ends_serial.1 h
    · exact absurd hr (not_stops_some m)
    · exact absurd hr (not_stops_some m)
    · rw [join_eq (ih1 hm1) (ih2 hm2)] at hr
      simp only [Except.map, Except.ok.injEq, Option.some.injEq] at hr
      exact ⟨_, congrArg Match.matched hr⟩
  | _ => nofun

theorem ends_serial_parts {e1 e2 : Pattern O X} {x : Input O} {r : Result O X} :
    Ends ne (.serial e1 e2) x r ↔
      (Ends ne e1 x r ∧ Stops r) ∨ ∃ m1, Ends ne e1 x (.ok (some m1)) ∧
        ((Ends ne e2 m1.rest r ∧ Stops r) ∨ ∃ m2, Ends ne e2 m1.rest (.ok (some m2)) ∧
          r = .ok (some ⟨.array (parts e1 m1.matched ++ parts e2 m2.matched), m2.rest⟩)) := by
  rw [ends_serial]
  refine or_congr_right (exists_congr fun m1 => and_congr_right fun h1 => or_congr_right ?_)
  refine exists_congr fun m2 => and_congr_right fun h2 => ?_
  rw [join_eq h1.fits h2.fits]
  rfl

theorem choice_assoc (a b c : Pattern O X) (x : Input O) (r : Result O X) :
    Ends ne (.choice (.choice a b) c) x r ↔ Ends ne (.choice a (.choice b c)) x r := by
  simp only [ends_choice, ne_eq, not_true_eq_false, and_false, false_or]
  tauto

/-- Both groupings stop where the first of the three stops, and have its values in one list. -/
theorem serial_assoc (a b c : Pattern O X) (x : Input O) (r : Result O X) :
    Ends ne (.serial (.serial a b) c) x r ↔ Ends ne (.serial a (.serial b c)) x r := by
  constructor
  · intro h
    rcases ends_serial_parts.1 h with ⟨h, hr⟩ | ⟨m, hm, h⟩
    · rcases ends_serial_parts.1 h with h | ⟨ma, ha, h⟩
      · exact ends_serial_parts.2 (.inl h)
      · refine ends_serial_parts.2 (.inr ⟨ma, ha, .inl ⟨?_, hr⟩⟩)
        rcases h with h | ⟨mb, -, rfl⟩
        · exact ends_serial_parts.2 (.inl h)
        · exact absurd hr (not_stops_some _)
    · rcases ends_serial_parts.1 hm with ⟨-, hr⟩ | ⟨ma, ha, ⟨-, hr⟩ | ⟨mb, hb, hr⟩⟩
      · exact absurd hr (not_stops_some _)
      · exact absurd hr (not_stops_some _)
      · rw [Except.ok.injEq, Option.some.injEq] at hr
        subst hr
        refine ends_serial_parts.2 (.inr ⟨ma, ha, ?_⟩)
        rcases h with h | ⟨mc, hc, rfl⟩
        · exact .inl ⟨ends_serial_parts.2 (.inr ⟨mb, hb, .inl h⟩), h.2⟩
        · refine .inr ⟨_, ends_serial_parts.2 (.inr ⟨mb, hb, .inr ⟨mc, hc, rfl⟩⟩), ?_⟩
          simp [parts]
  · intro h
    rcases ends_serial_parts.1 h with ⟨h, hr⟩ | ⟨ma, ha, h⟩
    · exact ends_serial_parts.2 (.inl ⟨ends_serial_parts.2 (.inl ⟨h, hr⟩), hr⟩)
    · rcases h with ⟨h, hr⟩ | ⟨m, hm, rfl⟩
      · rcases ends_serial_parts.1 h with h | ⟨mb, hb, h⟩
        · exact ends_serial_parts.2 (.inl ⟨ends_serial_parts.2 (.inr ⟨ma, ha, .inl h⟩), hr⟩)
        · refine ends_serial_parts.2
            (.inr ⟨_, ends_serial_parts.2 (.inr ⟨ma, ha, .inr ⟨mb, hb, rfl⟩⟩), ?_⟩)
          rcases h with h | ⟨mc, -, rfl⟩
          · exact .inl h
          · exact absurd hr (not_stops_some _)
      · rcases ends_serial_parts.1 hm with ⟨-, hr⟩ | ⟨mb, hb, ⟨-, hr⟩ | ⟨mc, hc, hr⟩⟩
        · exact absurd hr (not_stops_some _)
        · exact absurd hr (not_stops_some _)
        · rw [Except.ok.injEq, Option.some.injEq] at hr
          subst hr
          refine ends_serial_parts.2
            (.inr ⟨_, ends_serial_parts.2 (.inr ⟨ma, ha, .inr ⟨mb, hb, rfl⟩⟩), .inr ⟨mc, hc, ?_⟩⟩)
          simp [parts]

/-- `y` is `x` without the elements in front. -/
def Input.Tail : Input O → Input O → Prop
  | .string s, .string t => t <:+ s
  | .array a, .array b => b <:+ a
  | _, _ => False

namespace Input

theorem Tail.refl (x : Input O) : Tail x x := by
  rcases x with s | a
  · exact List.suffix_refl s
  · exact List.suffix_refl a

theorem Tail.trans {x y z : Input O} (h : Tail x y) (h' : Tail y z) : Tail x z := by
  rcases x with s | a <;> rcases y with t | b <;> rcases z with u | c <;>
    simp only [Tail] at h h' ⊢
  · exact h'.trans h
  · exact h'.trans h

theorem Tail.size_le {x y : Input O} (h : Tail x y) : y.size ≤ x.size := by
  rcases x with s | a <;> rcases y with t | b <;> simp only [Tail] at h
  · exact h.length_le
  · exact h.length_le

theorem tail_next {x y : Input O} {v : Value O} (h : x.next = some (v, y)) :
    Tail x y ∧ y.size < x.size := by
  rcases x with (_ | ⟨c, s⟩) | (_ | ⟨w, a⟩) <;> simp [next] at h
  · rw [← h.2]
    exact ⟨List.suffix_cons c s, by simp [size]⟩
  · rw [← h.2]
    exact ⟨List.suffix_cons w a, by simp [size]⟩

end Input

section Tails

variable {b : Input O → Partial (Raised X) (Option (Match O))}

theorem atMostLoop_tail (hb : ∀ {x m}, b x = done (.ok (some m)) → x.Tail m.rest) (n : ℕ) :
    ∀ {acc : List (Value O)} {x : Input O} {m : Match O},
      atMostLoop b n acc x = done (.ok (some m)) → x.Tail m.rest := by
  induction n with
  | zero =>
    intro acc x m h
    simp only [atMostLoop, Partial.done_inj, Except.ok.injEq, Option.some.injEq] at h
    rw [← h]
    exact .refl x
  | succ n ih =>
    intro acc x m h
    rw [atMostLoop_succ, Partial.bind_eq_done] at h
    rcases h with ⟨_ | m1, ho, h⟩ | ⟨e, -, h⟩
    · simp only [branch, Partial.done_inj, Except.ok.injEq, Option.some.injEq] at h
      rw [← h]
      exact .refl x
    · exact (hb ho).trans (ih h)
    · simp at h

theorem loop_tail (hb : ∀ {x m}, b x = done (.ok (some m)) → x.Tail m.rest) :
    ∀ {c : ℕ} {acc : List (Value O)} {x : Input O} {m : Match O},
      loop b c acc x = done (.ok (some m)) → x.Tail m.rest
  | 0, _, _, _, h => by simp [loop] at h
  | c + 1, acc, x, m, h => by
    rw [loop_succ, Partial.bind_eq_done] at h
    rcases h with ⟨_ | m1, ho, h⟩ | ⟨e, -, h⟩
    · simp only [branch, Partial.done_inj, Except.ok.injEq, Option.some.injEq] at h
      rw [← h]
      exact .refl x
    · exact (hb ho).trans (loop_tail hb h)
    · simp at h

theorem atLeastLoop_tail (hb : ∀ {x m}, b x = done (.ok (some m)) → x.Tail m.rest) {fuel : ℕ}
    (n : ℕ) : ∀ {acc : List (Value O)} {x : Input O} {m : Match O},
      atLeastLoop b fuel n acc x = done (.ok (some m)) → x.Tail m.rest := by
  induction n with
  | zero => exact loop_tail hb
  | succ n ih =>
    intro acc x m h
    rw [atLeastLoop_succ, Partial.bind_eq_done] at h
    rcases h with ⟨_ | m1, ho, h⟩ | ⟨e, -, h⟩
    · simp [branch] at h
    · exact (hb ho).trans (ih h)
    · simp at h

end Tails

theorem matchString_some {e : List YogChar} {x : Input O} {m : Match O}
    (h : (.ok (some m) : Result O X) = matchString e x) :
    ∃ s, x = .string (e ++ s) ∧ m = ⟨.string e, .string s⟩ := by
  rcases x with s | a
  · by_cases he : s.take e.length = e
    · simp only [matchString, he, if_true, Except.ok.injEq, Option.some.injEq] at h
      refine ⟨s.drop e.length, ?_, h⟩
      conv_lhs => rw [← List.take_append_drop e.length s, he]
    · simp [matchString, he] at h
  · simp [matchString] at h

theorem matchScalar_some {e : Value O} {x : Input O} {m : Match O}
    (h : (.ok (some m) : Result O X) = matchScalar ne e x) : ∃ v, x.next = some (v, m.rest) := by
  unfold matchScalar at h
  rcases hx : x.next with _ | ⟨v, y⟩
  · simp [hx] at h
  · by_cases hne : ne v e = true
    · simp [hx, hne] at h
    · simp only [hx, hne, Bool.false_eq_true, if_false, Except.ok.injEq, Option.some.injEq] at h
      exact ⟨v, by rw [h]⟩

theorem matchCustom_some {e : Value O} {block : Value O → Value O → Except (Raised X) Bool}
    {x : Input O} {m : Match O} (h : (.ok (some m) : Result O X) = matchCustom block e x) :
    ∃ v, x.next = some (v, m.rest) := by
  unfold matchCustom at h
  rcases hx : x.next with _ | ⟨v, y⟩
  · simp [hx] at h
  · rcases hb : block e v with c | _ | _
    · simp [hx, hb, bind, Except.bind] at h
    · simp [hx, hb, bind, Except.bind] at h
    · simp only [hx, hb, bind, Except.bind, if_true, Except.ok.injEq, Option.some.injEq] at h
      exact ⟨v, by rw [h]⟩

/-- A match takes elements from the front and leaves the others. -/
theorem Ends.tail {p : Pattern O X} {x : Input O} {m : Match O}
    (h : Ends ne p x (.ok (some m))) : x.Tail m.rest := by
  induction p generalizing x m with
  | string e =>
    obtain ⟨s, rfl, rfl⟩ := matchString_some (ends_string.1 h)
    exact List.suffix_append e s
  | regexp e => cases ends_regexp.1 h
  | scalar e =>
    obtain ⟨v, hx⟩ := matchScalar_some (ends_scalar.1 h)
    exact (Input.tail_next hx).1
  | custom e block =>
    obtain ⟨v, hx⟩ := matchCustom_some (ends_custom.1 h)
    exact (Input.tail_next hx).1
  | serial e1 e2 ih1 ih2 =>
    rcases ends_serial_parts.1 h with ⟨-, hr⟩ | ⟨m1, h1, ⟨-, hr⟩ | ⟨m2, h2, hr⟩⟩
    · exact absurd hr (not_stops_some m)
    · exact absurd hr (not_stops_some m)
    · rw [Except.ok.injEq, Option.some.injEq] at hr
      subst hr
      have hrest : x.Tail m1.rest := ih1 h1
      have hrest2 : m1.rest.Tail m2.rest := ih2 h2
      exact hrest.trans hrest2
  | choice e1 e2 ih1 ih2 =>
    rcases ends_choice.1 h with ⟨h, -⟩ | ⟨-, h⟩
    · exact ih1 h
    · exact ih2 h
  | atMost pat n ih =>
    obtain ⟨fuel, h⟩ := h
    simp only [matchPat] at h
    split_ifs at h
    · simp only [Partial.done_inj, Except.ok.injEq, Option.some.injEq] at h
      rw [← h]
      exact .refl x
    · exact atMostLoop_tail (fun hm => ih ⟨fuel, hm⟩) n h
  | atLeast pat n ih =>
    obtain ⟨fuel, h⟩ := h
    simp only [matchPat] at h
    split_ifs at h
    · simp only [Partial.done_inj, Except.ok.injEq, Option.some.injEq] at h
      rw [← h]
      exact .refl x
    · exact atLeastLoop_tail (fun hm => ih ⟨fuel, hm⟩) n h
  | action pat block ih =>
    rcases ends_action.1 h with ⟨-, hr⟩ | ⟨m1, h1, hr⟩
    · exact absurd hr (not_stops_some m)
    · rcases hv : arguments pat m1.matched >>= block with c | v
      · simp [hv, Except.map] at hr
      · simp only [hv, Except.map, Except.ok.injEq, Option.some.injEq] at hr
        subst hr
        have hrest : x.Tail m1.rest := ih h1
        exact hrest

/-- The patterns a pattern is built from, with itself. -/
def Pattern.subpatterns : Pattern O X → List (Pattern O X)
  | .serial e1 e2 => .serial e1 e2 :: (e1.subpatterns ++ e2.subpatterns)
  | .choice e1 e2 => .choice e1 e2 :: (e1.subpatterns ++ e2.subpatterns)
  | .atMost pat n => .atMost pat n :: pat.subpatterns
  | .atLeast pat n => .atLeast pat n :: pat.subpatterns
  | .action pat block => .action pat block :: pat.subpatterns
  | p => [p]

theorem mem_subpatterns (p : Pattern O X) : p ∈ p.subpatterns := by
  cases p <;> simp [Pattern.subpatterns]

theorem subpatterns_trans {p q : Pattern O X} (h : q ∈ p.subpatterns) :
    q.subpatterns ⊆ p.subpatterns := by
  induction p with
  | string | regexp | scalar | custom =>
    obtain rfl := List.mem_singleton.1 h
    exact List.Subset.refl _
  | serial e1 e2 ih1 ih2 | choice e1 e2 ih1 ih2 =>
    simp only [Pattern.subpatterns, List.mem_cons, List.mem_append] at h
    rcases h with rfl | h | h
    · exact List.Subset.refl _
    · exact fun _ hq => List.mem_cons_of_mem _ (List.mem_append_left _ (ih1 h hq))
    · exact fun _ hq => List.mem_cons_of_mem _ (List.mem_append_right _ (ih2 h hq))
  | atMost pat n ih | atLeast pat n ih | action pat n ih =>
    simp only [Pattern.subpatterns, List.mem_cons] at h
    rcases h with rfl | h
    · exact List.Subset.refl _
    · exact fun _ hq => List.mem_cons_of_mem _ (ih h hq)

end Peg

end Yog
