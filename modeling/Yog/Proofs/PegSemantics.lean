import Yog.Proofs.PegRuns

/-!
# The semantics of parsing expressions

`Parses` is what a pattern means, rule by rule: a sequence goes on where its first part stopped, a
choice tries its second pattern when the first fails, and a repetition takes as many matches of its
body as it can get. `match` agrees with it but for the repetitions that return at once on an empty
input (`agrees_iff`): these do not try a body that can match there.
-/

namespace Yog

namespace Peg

open Partial (Steady done)

variable {O X : Type}

/-- What follows in a repetition, with the values matched before. -/
def prepend (vs : List (Value O)) : Result O X → Result O X
  | .ok (some ⟨.array ws, rest⟩) => .ok (some ⟨.array (vs ++ ws), rest⟩)
  | r => r

/-- What the pattern `p` comes to at the start of `x`: it fails (`.ok none`), matches, or raises what
a block or a pattern for strings raises. -/
inductive Parses (ne : Value O → Value O → Bool) : Pattern O X → Input O → Result O X → Prop
  | string_here {e s} :
    Parses ne (.string e) (.string (e ++ s)) (.ok (some ⟨.string e, .string s⟩))
  | string_other {e s} : ¬ e <+: s → Parses ne (.string e) (.string s) (.ok none)
  | string_array {e a} : Parses ne (.string e) (.array a) (.error .attributeError)
  | regexp_here {e s t} : e.matchAt (s ++ t) 0 = some s.length →
    Parses ne (.regexp e) (.string (s ++ t)) (.ok (some ⟨.string s, .string t⟩))
  | regexp_other {e s} : e.matchAt s 0 = none → Parses ne (.regexp e) (.string s) (.ok none)
  | regexp_array {e a} : Parses ne (.regexp e) (.array a) (.error .attributeError)
  | scalar_here {e x v y} : x.next = some (v, y) → ne v e = false →
    Parses ne (.scalar e) x (.ok (some ⟨v, y⟩))
  | scalar_other {e x} : (∀ v y, x.next = some (v, y) → ne v e = true) →
    Parses ne (.scalar e) x (.ok none)
  | custom_here {e block x v y} : x.next = some (v, y) → block e v = .ok true →
    Parses ne (.custom e block) x (.ok (some ⟨v, y⟩))
  | custom_other {e block x} : (∀ v y, x.next = some (v, y) → block e v = .ok false) →
    Parses ne (.custom e block) x (.ok none)
  | custom_raises {e block x v y c} : x.next = some (v, y) → block e v = .error c →
    Parses ne (.custom e block) x (.error c)
  | serial_stops {e1 e2 x r} : Parses ne e1 x r → Stops r → Parses ne (.serial e1 e2) x r
  | serial_stops_later {e1 e2 x m r} : Parses ne e1 x (.ok (some m)) → Parses ne e2 m.rest r →
    Stops r → Parses ne (.serial e1 e2) x r
  | serial {e1 e2 x m1 m2} : Parses ne e1 x (.ok (some m1)) →
    Parses ne e2 m1.rest (.ok (some m2)) → Parses ne (.serial e1 e2) x
      (.ok (some ⟨.array (parts e1 m1.matched ++ parts e2 m2.matched), m2.rest⟩))
  | choice_first {e1 e2 x r} : Parses ne e1 x r → r ≠ .ok none → Parses ne (.choice e1 e2) x r
  | choice_second {e1 e2 x r} : Parses ne e1 x (.ok none) → Parses ne e2 x r →
    Parses ne (.choice e1 e2) x r
  | atMost_zero {pat x} : Parses ne (.atMost pat 0) x (.ok (some ⟨.array [], x⟩))
  | atMost_end {pat n x} : Parses ne pat x (.ok none) →
    Parses ne (.atMost pat (n + 1)) x (.ok (some ⟨.array [], x⟩))
  | atMost_raises {pat n x c} : Parses ne pat x (.error c) →
    Parses ne (.atMost pat (n + 1)) x (.error c)
  | atMost_more {pat n x m r} : Parses ne pat x (.ok (some m)) →
    Parses ne (.atMost pat n) m.rest r →
      Parses ne (.atMost pat (n + 1)) x (prepend [m.matched] r)
  | atLeast_end {pat x} : Parses ne pat x (.ok none) →
    Parses ne (.atLeast pat 0) x (.ok (some ⟨.array [], x⟩))
  | atLeast_fails {pat n x} : Parses ne pat x (.ok none) →
    Parses ne (.atLeast pat (n + 1)) x (.ok none)
  | atLeast_raises {pat n x c} : Parses ne pat x (.error c) →
    Parses ne (.atLeast pat n) x (.error c)
  | atLeast_more {pat n x m r} : Parses ne pat x (.ok (some m)) →
    Parses ne (.atLeast pat (n - 1)) m.rest r →
      Parses ne (.atLeast pat n) x (prepend [m.matched] r)
  | action_stops {pat block x r} : Parses ne pat x r → Stops r → Parses ne (.action pat block) x r
  | action {pat block x m} : Parses ne pat x (.ok (some m)) →
    Parses ne (.action pat block) x
      ((block (parts pat m.matched)).map fun v => some ⟨v, m.rest⟩)

/-- `match` comes to what the pattern means, and to nothing else. -/
def Agrees (ne : Value O → Value O → Bool) (p : Pattern O X) (x : Input O) : Prop :=
  ∀ r, Ends ne p x r ↔ Parses ne p x r

inductive Kind
  | string
  | array

namespace Input

def kind : Input O → Kind
  | .string _ => .string
  | .array _ => .array

/-- The empty input of a kind. -/
def empty : Kind → Input O
  | .string => .string []
  | .array => .array []

theorem size_eq_zero {x : Input O} : x.size = 0 ↔ x = empty x.kind := by
  rcases x with s | a
  · simp [size, empty, kind]
  · simp [size, empty, kind]

theorem next_kind {x y : Input O} {v : Value O} (h : x.next = some (v, y)) : y.kind = x.kind := by
  rcases x with (_ | ⟨c, s⟩) | (_ | ⟨w, a⟩) <;> simp [next] at h
  · rw [← h.2]
    rfl
  · rw [← h.2]
    rfl

end Input

/-- The body of a repetition that returns at once on an empty input. -/
def Pattern.hurried : Pattern O X → Option (Pattern O X)
  | .atMost pat (_ + 1) => some pat
  | .atLeast pat 0 => some pat
  | _ => none

variable {ne : Value O → Value O → Bool}

theorem prepend_nil (r : Result O X) : prepend [] r = r := by
  rcases r with e | _ | ⟨_ | _ | _, _⟩ <;> rfl

theorem prepend_append (vs ws : List (Value O)) (r : Result O X) :
    prepend (vs ++ ws) r = prepend vs (prepend ws r) := by
  rcases r with e | _ | ⟨_ | _ | _, _⟩ <;> simp [prepend]

theorem matchString_here (e s : List YogChar) :
    (matchString e (.string (e ++ s)) : Result O X) =
      .ok (some ⟨.string e, .string s⟩) := by
  simp [matchString]

theorem matchString_other {e s : List YogChar} (h : ¬ e <+: s) :
    (matchString e (.string s) : Result O X) = .ok none := by
  rw [List.prefix_iff_eq_take, eq_comm] at h
  simp [matchString, h]

theorem agrees_string (e : List YogChar) (x : Input O) : Agrees (X := X) ne (.string e) x := by
  intro r
  rw [ends_string]
  constructor
  · rintro rfl
    rcases x with s | a
    · by_cases h : e <+: s
      · obtain ⟨t, rfl⟩ := h
        rw [matchString_here]
        exact .string_here
      · rw [matchString_other h]
        exact .string_other h
    · exact .string_array
  · intro h
    rcases h with ⟨⟩ | ⟨h⟩
    · exact (matchString_here e _).symm
    · exact (matchString_other h).symm
    · rfl

theorem agrees_regexp (e : Regexp) (a : List (Value O)) :
    Agrees (X := X) ne (.regexp e) (.array a) := by
  intro r
  rw [ends_regexp]
  constructor
  · rintro rfl
    exact .regexp_array
  · intro h
    cases h
    rfl

/-- A regular expression means nothing that raises where it is matched with a string. -/
theorem not_agrees_regexp (e : Regexp) (s : List YogChar) :
    ¬ Agrees (X := X) (O := O) ne (.regexp e) (.string s) := by
  intro h
  cases (h (.error .attributeError)).1 (ends_regexp.2 rfl)

theorem agrees_scalar (e : Value O) (x : Input O) : Agrees (X := X) ne (.scalar e) x := by
  intro r
  rw [ends_scalar]
  unfold matchScalar
  constructor
  · rintro rfl
    rcases hx : x.next with _ | ⟨v, y⟩
    · exact .scalar_other (by simp [hx])
    · rcases hne : ne v e
      · simpa [hne] using Parses.scalar_here hx hne
      · simpa [hne] using Parses.scalar_other (by simp [hx, hne])
  · intro h
    rcases h with _ | _ | _ | _ | _ | _ | ⟨hx, hne⟩ | h
    · simp [hx, hne]
    · rcases hx : x.next with _ | ⟨v, y⟩
      · rfl
      · simp [h v y hx]

theorem agrees_custom (e : Value O) (block : Value O → Value O → Except (Raised X) Bool)
    (x : Input O) : Agrees ne (.custom e block) x := by
  intro r
  rw [ends_custom]
  unfold matchCustom
  constructor
  · rintro rfl
    rcases hx : x.next with _ | ⟨v, y⟩
    · exact .custom_other (by simp [hx])
    · rcases hb : block e v with c | _ | _
      · simpa [hb, bind, Except.bind] using Parses.custom_raises hx hb
      · simpa [hb, bind, Except.bind] using Parses.custom_other (by simp [hx, hb])
      · simpa [hb, bind, Except.bind] using Parses.custom_here hx hb
  · intro h
    cases h with
    | custom_here hx hb => simp [hx, hb, bind, Except.bind]
    | custom_other h =>
      rcases hx : x.next with _ | ⟨v, y⟩
      · rfl
      · simp [h v y hx, bind, Except.bind]
    | custom_raises hx hb => simp [hx, hb, bind, Except.bind]

section Inversion

variable {x : Input O} {r : Result O X}

theorem parses_serial {e1 e2 : Pattern O X} : Parses ne (.serial e1 e2) x r ↔
    (Parses ne e1 x r ∧ Stops r) ∨ ∃ m1, Parses ne e1 x (.ok (some m1)) ∧
      ((Parses ne e2 m1.rest r ∧ Stops r) ∨ ∃ m2, Parses ne e2 m1.rest (.ok (some m2)) ∧
        r = .ok (some ⟨.array (parts e1 m1.matched ++ parts e2 m2.matched), m2.rest⟩)) := by
  constructor
  · intro h
    cases h with
    | serial_stops h hr => exact .inl ⟨h, hr⟩
    | serial_stops_later h1 h2 hr => exact .inr ⟨_, h1, .inl ⟨h2, hr⟩⟩
    | serial h1 h2 => exact .inr ⟨_, h1, .inr ⟨_, h2, rfl⟩⟩
  · rintro (⟨h, hr⟩ | ⟨m1, h1, ⟨h2, hr⟩ | ⟨m2, h2, rfl⟩⟩)
    · exact .serial_stops h hr
    · exact .serial_stops_later h1 h2 hr
    · exact .serial h1 h2

theorem parses_choice {e1 e2 : Pattern O X} : Parses ne (.choice e1 e2) x r ↔
    (Parses ne e1 x r ∧ r ≠ .ok none) ∨ (Parses ne e1 x (.ok none) ∧ Parses ne e2 x r) := by
  constructor
  · intro h
    cases h with
    | choice_first h hr => exact .inl ⟨h, hr⟩
    | choice_second h1 h2 => exact .inr ⟨h1, h2⟩
  · rintro (⟨h, hr⟩ | ⟨h1, h2⟩)
    · exact .choice_first h hr
    · exact .choice_second h1 h2

theorem parses_action {pat : Pattern O X} {block : List (Value O) → Except (Raised X) (Value O)} :
    Parses ne (.action pat block) x r ↔ (Parses ne pat x r ∧ Stops r) ∨
      ∃ m, Parses ne pat x (.ok (some m)) ∧
        r = (block (parts pat m.matched)).map fun v => some ⟨v, m.rest⟩ := by
  constructor
  · intro h
    cases h with
    | action_stops h hr => exact .inl ⟨h, hr⟩
    | action h => exact .inr ⟨_, h, rfl⟩
  · rintro (⟨h, hr⟩ | ⟨m, h, rfl⟩)
    · exact .action_stops h hr
    · exact .action h

theorem parses_atMost_zero {pat : Pattern O X} :
    Parses ne (.atMost pat 0) x r ↔ r = .ok (some ⟨.array [], x⟩) := by
  constructor
  · intro h
    cases h
    rfl
  · rintro rfl
    exact .atMost_zero

theorem parses_atMost_succ {pat : Pattern O X} {n : ℕ} : Parses ne (.atMost pat (n + 1)) x r ↔
    (∃ c, Parses ne pat x (.error c) ∧ r = .error c) ∨
      (Parses ne pat x (.ok none) ∧ r = .ok (some ⟨.array [], x⟩)) ∨
        ∃ m, Parses ne pat x (.ok (some m)) ∧
          ∃ r', Parses ne (.atMost pat n) m.rest r' ∧ r = prepend [m.matched] r' := by
  constructor
  · intro h
    cases h with
    | atMost_end h => exact .inr (.inl ⟨h, rfl⟩)
    | atMost_raises h => exact .inl ⟨_, h, rfl⟩
    | atMost_more h h' => exact .inr (.inr ⟨_, h, _, h', rfl⟩)
  · rintro (⟨c, h, rfl⟩ | ⟨h, rfl⟩ | ⟨m, h, r', h', rfl⟩)
    · exact .atMost_raises h
    · exact .atMost_end h
    · exact .atMost_more h h'

theorem parses_atLeast {pat : Pattern O X} {n : ℕ} : Parses ne (.atLeast pat n) x r ↔
    (∃ c, Parses ne pat x (.error c) ∧ r = .error c) ∨
      (Parses ne pat x (.ok none) ∧
        r = if n = 0 then .ok (some ⟨.array [], x⟩) else .ok none) ∨
        ∃ m, Parses ne pat x (.ok (some m)) ∧
          ∃ r', Parses ne (.atLeast pat (n - 1)) m.rest r' ∧ r = prepend [m.matched] r' := by
  constructor
  · intro h
    cases h with
    | atLeast_end h => exact .inr (.inl ⟨h, rfl⟩)
    | atLeast_fails h => exact .inr (.inl ⟨h, rfl⟩)
    | atLeast_raises h => exact .inl ⟨_, h, rfl⟩
    | atLeast_more h h' => exact .inr (.inr ⟨_, h, _, h', rfl⟩)
  · rintro (⟨c, h, rfl⟩ | ⟨h, rfl⟩ | ⟨m, h, r', h', rfl⟩)
    · exact .atLeast_raises h
    · rcases n with _ | n
      · exact .atLeast_end h
      · exact .atLeast_fails h
    · exact .atLeast_more h h'

end Inversion

theorem prepend_eq_some {vs : List (Value O)} {r : Result O X} {m : Match O}
    (h : prepend vs r = .ok (some m)) : ∃ m', r = .ok (some m') ∧ m'.rest = m.rest := by
  rcases r with e | _ | ⟨v, y⟩
  · simp [prepend] at h
  · simp [prepend] at h
  · refine ⟨_, rfl, ?_⟩
    rcases v with _ | _ | _ <;>
      simp only [prepend, Except.ok.injEq, Option.some.injEq] at h <;> rw [← h]

/-- What is left of a string is a string, and of an array an array. -/
theorem Parses.kind_eq {p : Pattern O X} {x : Input O} {r : Result O X} (h : Parses ne p x r) :
    ∀ {m}, r = .ok (some m) → m.rest.kind = x.kind := by
  induction h with
  | string_here | regexp_here | atMost_zero | atMost_end | atLeast_end =>
    rintro m ⟨⟩
    rfl
  | scalar_here hx | custom_here hx =>
    rintro m ⟨⟩
    exact Input.next_kind hx
  | string_other | string_array | regexp_other | regexp_array | scalar_other | custom_other
  | custom_raises | atMost_raises | atLeast_fails | atLeast_raises => nofun
  | serial_stops _ hr | serial_stops_later _ _ hr | action_stops _ hr =>
    rintro m rfl
    exact absurd hr (not_stops_some m)
  | serial _ _ ih1 ih2 =>
    rintro m ⟨⟩
    exact (ih2 rfl).trans (ih1 rfl)
  | choice_first _ _ ih => exact ih
  | choice_second _ _ _ ih => exact ih
  | atMost_more _ _ ih ih' | atLeast_more _ _ ih ih' =>
    intro m hm
    obtain ⟨m', rfl, hrest⟩ := prepend_eq_some hm
    rw [← hrest, ih' rfl, ih rfl]
  | @action pat block x m _ ih =>
    intro m' hm
    rcases hv : block (parts pat m.matched) with c | v
    · simp [hv, Except.map] at hm
    · simp only [hv, Except.map, Except.ok.injEq, Option.some.injEq] at hm
      rw [← hm]
      show m.rest.kind = x.kind
      exact ih rfl

section Compound

variable {k : Kind} {e1 e2 pat : Pattern O X}

theorem agrees_serial (h1 : ∀ x : Input O, x.kind = k → Agrees ne e1 x)
    (h2 : ∀ x : Input O, x.kind = k → Agrees ne e2 x) (x : Input O) (hx : x.kind = k) :
    Agrees ne (.serial e1 e2) x := by
  intro r
  rw [ends_serial_parts, parses_serial, h1 x hx]
  refine or_congr_right (exists_congr fun m1 => ?_)
  rw [h1 x hx]
  refine and_congr_right fun hm1 => ?_
  have hrest : m1.rest.kind = k := (hm1.kind_eq rfl).trans hx
  rw [h2 m1.rest hrest]
  refine or_congr_right (exists_congr fun m2 => ?_)
  rw [h2 m1.rest hrest]

theorem agrees_choice (h1 : ∀ x : Input O, x.kind = k → Agrees ne e1 x)
    (h2 : ∀ x : Input O, x.kind = k → Agrees ne e2 x) (x : Input O) (hx : x.kind = k) :
    Agrees ne (.choice e1 e2) x := by
  intro r
  rw [ends_choice, parses_choice, h1 x hx, h1 x hx, h2 x hx]

theorem agrees_action {block : List (Value O) → Except (Raised X) (Value O)}
    (h : ∀ x : Input O, x.kind = k → Agrees ne pat x) (x : Input O) (hx : x.kind = k) :
    Agrees ne (.action pat block) x := by
  intro r
  rw [ends_action, parses_action, h x hx]
  refine or_congr_right (exists_congr fun m => ?_)
  rw [← h x hx]
  refine and_congr_right fun hm => ?_
  rw [arguments_eq hm.fits]
  rfl

/-- A round of the bounded loop is a rule of the repetition, the values matched so far in front. -/
theorem ends_atMostLoop (h : ∀ x : Input O, x.kind = k → Agrees ne pat x) (n : ℕ) :
    ∀ {acc : List (Value O)} {x : Input O} {r : Result O X}, x.kind = k →
      (Partial.Ends (fun fuel => atMostLoop (matchPat ne fuel pat) n acc x) r ↔
        ∃ r', Parses ne (.atMost pat n) x r' ∧ r = prepend acc r') := by
  induction n with
  | zero =>
    intro acc x r _
    simp only [atMostLoop, Partial.ends_done, parses_atMost_zero, exists_eq_left]
    simp [prepend]
  | succ n ih =>
    intro acc x r hx
    simp only [atMostLoop_succ]
    rw [ends_branch (steady_matchPat pat x) (Partial.steady_done _) fun m =>
      steady_atMostLoop (fun x => steady_matchPat pat x) n _ _, Partial.ends_done]
    have hbody : ∀ r, Partial.Ends (fun fuel => matchPat ne fuel pat x) r ↔ Parses ne pat x r :=
      h x hx
    simp only [hbody, parses_atMost_succ]
    constructor
    · rintro (⟨c, hc, rfl⟩ | ⟨hnil, rfl⟩ | ⟨m, hm, hr⟩)
      · exact ⟨_, .inl ⟨c, hc, rfl⟩, rfl⟩
      · exact ⟨_, .inr (.inl ⟨hnil, rfl⟩), by simp [prepend]⟩
      · obtain ⟨r', hr', rfl⟩ := (ih ((hm.kind_eq rfl).trans hx)).1 hr
        exact ⟨_, .inr (.inr ⟨m, hm, r', hr', rfl⟩), prepend_append _ _ _⟩
    · rintro ⟨_, ⟨c, hc, rfl⟩ | ⟨hnil, rfl⟩ | ⟨m, hm, r', hr', rfl⟩, rfl⟩
      · exact .inl ⟨c, hc, rfl⟩
      · exact .inr (.inl ⟨hnil, by simp [prepend]⟩)
      · refine .inr (.inr ⟨m, hm, (ih ((hm.kind_eq rfl).trans hx)).2 ⟨r', hr', ?_⟩⟩)
        exact (prepend_append _ _ _).symm

/-- The loop without a bound, from what it comes to: by induction on its rounds. -/
theorem parses_of_loop (h : ∀ x : Input O, x.kind = k → Agrees ne pat x) (fuel : ℕ) :
    ∀ {c : ℕ} {acc : List (Value O)} {x : Input O} {r : Result O X}, x.kind = k →
      loop (matchPat ne fuel pat) c acc x = done r →
        ∃ r', Parses ne (.atLeast pat 0) x r' ∧ r = prepend acc r'
  | 0, _, _, _, _, hr => by simp [loop] at hr
  | c + 1, acc, x, r, hx, hr => by
    rw [loop_succ, Partial.bind_eq_done] at hr
    rcases hr with ⟨_ | m, ho, hr⟩ | ⟨e, he, rfl⟩
    · have hnil : Parses ne pat x (.ok none) := (h x hx _).1 ⟨fuel, ho⟩
      refine ⟨_, .atLeast_end hnil, ?_⟩
      simpa [branch, prepend, eq_comm] using hr
    · have hm : Parses ne pat x (.ok (some m)) := (h x hx _).1 ⟨fuel, ho⟩
      obtain ⟨r', hr', rfl⟩ := parses_of_loop h fuel ((hm.kind_eq rfl).trans hx) hr
      exact ⟨_, .atLeast_more hm hr', prepend_append _ _ _⟩
    · exact ⟨_, .atLeast_raises ((h x hx _).1 ⟨fuel, he⟩), rfl⟩

/-- And from what the repetition means: by induction on the rules used. -/
theorem loop_of_parses (h : ∀ x : Input O, x.kind = k → Agrees ne pat x) {p : Pattern O X}
    {x : Input O} {r : Result O X} (hp : Parses ne p x r) :
    p = .atLeast pat 0 → x.kind = k → ∀ acc,
      Partial.Ends (fun fuel => loop (matchPat ne fuel pat) fuel acc x) (prepend acc r) := by
  have hbody : ∀ x, Steady fun fuel => matchPat ne fuel pat x := steady_matchPat pat
  induction hp with
  | atLeast_end hnil =>
    rintro ⟨⟩ hx acc
    exact (ends_loop hbody).2 (.inr (.inl ⟨(h _ hx _).2 hnil, by simp [prepend]⟩))
  | atLeast_raises he =>
    rintro ⟨⟩ hx acc
    exact (ends_loop hbody).2 (.inl ⟨_, (h _ hx _).2 he, rfl⟩)
  | atLeast_more hm hr _ ih =>
    rintro ⟨⟩ hx acc
    refine (ends_loop hbody).2 (.inr (.inr ⟨_, (h _ hx _).2 hm, ?_⟩))
    rw [← prepend_append]
    exact ih rfl ((hm.kind_eq rfl).trans hx) _
  | _ => nofun

theorem ends_atLeastLoop (h : ∀ x : Input O, x.kind = k → Agrees ne pat x) (n : ℕ) :
    ∀ {acc : List (Value O)} {x : Input O} {r : Result O X}, x.kind = k →
      (Partial.Ends (fun fuel => atLeastLoop (matchPat ne fuel pat) fuel n acc x) r ↔
        ∃ r', Parses ne (.atLeast pat n) x r' ∧ r = prepend acc r') := by
  induction n with
  | zero =>
    intro acc x r hx
    constructor
    · rintro ⟨fuel, hr⟩
      exact parses_of_loop h fuel hx hr
    · rintro ⟨r', hr', rfl⟩
      exact loop_of_parses h hr' rfl hx acc
  | succ n ih =>
    intro acc x r hx
    simp only [atLeastLoop_succ]
    rw [ends_branch (steady_matchPat pat x) (Partial.steady_done _) fun m =>
      steady_atLeastLoop (fun x => steady_matchPat pat x) n _ _, Partial.ends_done]
    have hbody : ∀ r, Partial.Ends (fun fuel => matchPat ne fuel pat x) r ↔ Parses ne pat x r :=
      h x hx
    simp only [hbody, parses_atLeast (n := n + 1), Nat.add_one_ne_zero, if_false]
    constructor
    · rintro (⟨c, hc, rfl⟩ | ⟨hnil, rfl⟩ | ⟨m, hm, hr⟩)
      · exact ⟨_, .inl ⟨c, hc, rfl⟩, rfl⟩
      · exact ⟨_, .inr (.inl ⟨hnil, rfl⟩), rfl⟩
      · obtain ⟨r', hr', rfl⟩ := (ih ((hm.kind_eq rfl).trans hx)).1 hr
        exact ⟨_, .inr (.inr ⟨m, hm, r', hr', rfl⟩), prepend_append _ _ _⟩
    · rintro ⟨_, ⟨c, hc, rfl⟩ | ⟨hnil, rfl⟩ | ⟨m, hm, r', hr', rfl⟩, rfl⟩
      · exact .inl ⟨c, hc, rfl⟩
      · exact .inr (.inl ⟨hnil, rfl⟩)
      · refine .inr (.inr ⟨m, hm, (ih ((hm.kind_eq rfl).trans hx)).2 ⟨r', hr', ?_⟩⟩)
        exact (prepend_append _ _ _).symm

theorem ends_atMost_of_ne {n : ℕ} {x : Input O} {r : Result O X} (hx : x.size ≠ 0) :
    Ends ne (.atMost pat n) x r ↔
      Partial.Ends (fun fuel => atMostLoop (matchPat ne fuel pat) n [] x) r := by
  unfold Ends
  simp only [matchPat, if_neg hx]

theorem ends_atMost_empty {n : ℕ} {r : Result O X} :
    Ends ne (.atMost pat n) (Input.empty k) r ↔
      r = .ok (some ⟨.array [], Input.empty k⟩) := by
  have hsize : (Input.empty k : Input O).size = 0 := by rcases k <;> rfl
  unfold Ends
  simp only [matchPat, if_pos hsize, Partial.ends_done]

theorem ends_atLeast_of_ne {n : ℕ} {x : Input O} {r : Result O X} (hx : ¬ (n = 0 ∧ x.size = 0)) :
    Ends ne (.atLeast pat n) x r ↔
      Partial.Ends (fun fuel => atLeastLoop (matchPat ne fuel pat) fuel n [] x) r := by
  unfold Ends
  simp only [matchPat, if_neg hx]

theorem ends_atLeast_empty {r : Result O X} :
    Ends ne (.atLeast pat 0) (Input.empty k) r ↔
      r = .ok (some ⟨.array [], Input.empty k⟩) := by
  have hsize : (Input.empty k : Input O).size = 0 := by rcases k <;> rfl
  unfold Ends
  simp only [matchPat, hsize, and_self, if_true, Partial.ends_done]

theorem kind_empty : (Input.empty k : Input O).kind = k := by rcases k <;> rfl

/-- A repetition whose body fails on an empty input means what it returns there at once. -/
theorem agrees_atMost {n : ℕ} (h : ∀ x : Input O, x.kind = k → Agrees ne pat x)
    (hempty : n ≠ 0 → Parses ne pat (Input.empty k) (.ok none)) (x : Input O) (hx : x.kind = k) :
    Agrees ne (.atMost pat n) x := by
  intro r
  by_cases hsize : x.size = 0
  · rw [Input.size_eq_zero, hx] at hsize
    subst hsize
    rw [ends_atMost_empty]
    rcases n with _ | n
    · exact parses_atMost_zero.symm
    · have hnil := hempty (Nat.succ_ne_zero n)
      constructor
      · rintro rfl
        exact .atMost_end hnil
      · intro hr
        rcases parses_atMost_succ.1 hr with ⟨c, hc, -⟩ | ⟨-, hr⟩ | ⟨m, hm, -⟩
        · exact absurd (((h _ hx _).2 hc).unique ((h _ hx _).2 hnil)) (by simp)
        · exact hr
        · exact absurd (((h _ hx _).2 hm).unique ((h _ hx _).2 hnil)) (by simp)
  · rw [ends_atMost_of_ne hsize, ends_atMostLoop h n hx]
    simp [prepend_nil]

theorem agrees_atLeast {n : ℕ} (h : ∀ x : Input O, x.kind = k → Agrees ne pat x)
    (hempty : n = 0 → Parses ne pat (Input.empty k) (.ok none)) (x : Input O) (hx : x.kind = k) :
    Agrees ne (.atLeast pat n) x := by
  intro r
  by_cases hsize : n = 0 ∧ x.size = 0
  · obtain ⟨rfl, hsize⟩ := hsize
    rw [Input.size_eq_zero, hx] at hsize
    subst hsize
    rw [ends_atLeast_empty]
    have hnil := hempty rfl
    constructor
    · rintro rfl
      exact .atLeast_end hnil
    · intro hr
      rcases parses_atLeast.1 hr with ⟨c, hc, -⟩ | ⟨-, hr⟩ | ⟨m, hm, -⟩
      · exact absurd (((h _ hx _).2 hc).unique ((h _ hx _).2 hnil)) (by simp)
      · exact hr
      · exact absurd (((h _ hx _).2 hm).unique ((h _ hx _).2 hnil)) (by simp)
  · rw [ends_atLeast_of_ne hsize, ends_atLeastLoop h n hx]
    simp [prepend_nil]

end Compound

theorem prepend_single_ne {v : Value O} {r : Result O X} {y : Input O} :
    prepend [v] r ≠ .ok (some ⟨.array [], y⟩) := by
  rcases r with e | _ | ⟨_ | _ | _, _⟩ <;> simp [prepend]

/-- What a repetition that returns at once needs of its body. -/
theorem body_fails {k : Kind} {p body : Pattern O X} (hp : p.hurried = some body)
    (h : Agrees ne p (Input.empty k)) : Parses ne body (Input.empty k) (.ok none) := by
  cases p with
  | atMost pat n =>
    rcases n with _ | n
    · simp [Pattern.hurried] at hp
    · obtain rfl : pat = body := by simpa [Pattern.hurried] using hp
      rcases parses_atMost_succ.1 ((h _).1 (ends_atMost_empty.2 rfl)) with
        ⟨c, -, hr⟩ | ⟨hnil, -⟩ | ⟨m, -, r', -, hr⟩
      · simp at hr
      · exact hnil
      · exact absurd hr.symm prepend_single_ne
  | atLeast pat n =>
    rcases n with _ | n
    · obtain rfl : pat = body := by simpa [Pattern.hurried] using hp
      rcases parses_atLeast.1 ((h _).1 (ends_atLeast_empty.2 rfl)) with
        ⟨c, -, hr⟩ | ⟨hnil, -⟩ | ⟨m, -, r', -, hr⟩
      · simp at hr
      · exact hnil
      · exact absurd hr.symm prepend_single_ne
    · simp [Pattern.hurried] at hp
  | _ => simp [Pattern.hurried] at hp

/-- The bodies of the repetitions in `p` that return at once on an empty input fail there. -/
def Patient (ne : Value O → Value O → Bool) (k : Kind) (p : Pattern O X) : Prop :=
  ∀ q ∈ p.subpatterns, ∀ body, q.hurried = some body → Parses ne body (Input.empty k) (.ok none)

theorem Patient.mono {k : Kind} {p p' : Pattern O X} (h : Patient ne k p)
    (hsub : p'.subpatterns ⊆ p.subpatterns) : Patient ne k p' :=
  fun q hq => h q (hsub hq)

/-- A pattern for strings has no regular expression in it. -/
def Kind.Regular (k : Kind) (p : Pattern O X) : Prop :=
  k = .string → ∀ e, .regexp e ∉ p.subpatterns

theorem Kind.Regular.mono {k : Kind} {p p' : Pattern O X} (h : k.Regular p)
    (hsub : p'.subpatterns ⊆ p.subpatterns) : k.Regular p' :=
  fun hk e he => h hk e (hsub he)

theorem Patient.agrees {k : Kind} {p : Pattern O X} (h : Patient ne k p) (hr : k.Regular p) :
    ∀ x : Input O, x.kind = k → Agrees ne p x := by
  induction p with
  | string e => exact fun x _ => agrees_string e x
  | regexp e =>
    rintro (s | a) hx
    · exact absurd (mem_subpatterns _) (hr hx.symm e)
    · exact agrees_regexp e a
  | scalar e => exact fun x _ => agrees_scalar e x
  | custom e block => exact fun x _ => agrees_custom e block x
  | serial e1 e2 ih1 ih2 =>
    have hsub1 : e1.subpatterns ⊆ (Pattern.serial e1 e2).subpatterns := by
      simp [Pattern.subpatterns]
    have hsub2 : e2.subpatterns ⊆ (Pattern.serial e1 e2).subpatterns := by
      simp [Pattern.subpatterns]
    exact agrees_serial (ih1 (h.mono hsub1) (hr.mono hsub1)) (ih2 (h.mono hsub2) (hr.mono hsub2))
  | choice e1 e2 ih1 ih2 =>
    have hsub1 : e1.subpatterns ⊆ (Pattern.choice e1 e2).subpatterns := by
      simp [Pattern.subpatterns]
    have hsub2 : e2.subpatterns ⊆ (Pattern.choice e1 e2).subpatterns := by
      simp [Pattern.subpatterns]
    exact agrees_choice (ih1 (h.mono hsub1) (hr.mono hsub1)) (ih2 (h.mono hsub2) (hr.mono hsub2))
  | atMost pat n ih =>
    have hsub : pat.subpatterns ⊆ (Pattern.atMost pat n).subpatterns := by
      simp [Pattern.subpatterns]
    refine agrees_atMost (ih (h.mono hsub) (hr.mono hsub)) fun hn => ?_
    obtain ⟨n, rfl⟩ := Nat.exists_eq_succ_of_ne_zero hn
    exact h _ (mem_subpatterns _) pat rfl
  | atLeast pat n ih =>
    have hsub : pat.subpatterns ⊆ (Pattern.atLeast pat n).subpatterns := by
      simp [Pattern.subpatterns]
    refine agrees_atLeast (ih (h.mono hsub) (hr.mono hsub)) ?_
    rintro rfl
    exact h _ (mem_subpatterns _) pat rfl
  | action pat block ih =>
    have hsub : pat.subpatterns ⊆ (Pattern.action pat block).subpatterns := by
      simp [Pattern.subpatterns]
    exact agrees_action (ih (h.mono hsub) (hr.mono hsub))

/-- The regular expression `/a/`. -/
def letterA : Regexp where
  matchAt s i := if s[i]? = some (toYogChar 0x61) then some (i + 1) else none
  bounds {s i j} h := by
    split_ifs at h with hi
    rw [Option.some.injEq] at h
    have hlt := (List.getElem?_eq_some_iff.1 hi).1
    omega

end Peg

end Yog
