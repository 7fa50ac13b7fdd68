import Mathlib.Data.Set.Card
import Yog.Inspect

/-!
# Containers print what is in them

What a container prints is said by `Shows`: the containers that are being printed further out are
the record, and only an occurrence of one of them is a placeholder. Objects of other classes are
come to in an order (`Comes`), and the first that raises ends the print.

A jump out of an `inspect` is not seen by the `finally` of `__recurse__`. The container then stays
in the record, and is a placeholder wherever it is printed after that. So a print leaves the record
as it was if and only if each `inspect` it comes to returns or raises and does so itself
(`printed_iff`).
-/

namespace Yog.Inspect

open YogString (fromString)

variable {A O E : Type}

/-- The values in a container, as they are printed. -/
def Body.values : Body A O → List (Value A O)
  | .array elems | .set elems => elems
  | .dict pairs => pairs.flatMap fun p => [p.1, p.2]

/-- The entries of a dict, of the texts of its keys and values. -/
def entries : List (List YogChar) → List (List YogChar)
  | k :: v :: texts => (k ++ fromString ": " ++ v) :: entries texts
  | _ => []

/-- The text of a container, of those of its values. -/
def Body.text (texts : List (List YogChar)) : Body A O → List YogChar
  | .array _ => fromString "[" ++ (fromString ", ").intercalate texts ++ fromString "]"
  | .dict _ =>
    fromString "\x7b " ++ (fromString ", ").intercalate (entries texts) ++ fromString " \x7d"
  | .set _ => fromString "\x7b " ++ (fromString ", ").intercalate texts ++ fromString " \x7d"

/-- An `inspect` that returns or raises, and leaves the record as it was. -/
def World.Clean (w : World A O E) (o : O) (record : List A) : Prop :=
  w.inspect o record ≠ .error .jumped ∧ w.leaves o record = []

/-- Values are shown by these texts, while the containers of the record are being printed. -/
inductive Shows (w : World A O E) : List A → List (Value A O) → List (List YogChar) → Prop
  | nil {record : List A} : Shows w record [] []
  | other {record : List A} {o : O} {s : List YogChar} {vs : List (Value A O)}
      {ts : List (List YogChar)} (h : w.inspect o record = .ok s) (hclean : w.leaves o record = [])
      (hrest : Shows w record vs ts) : Shows w record (.other o :: vs) (s :: ts)
  | again {record : List A} {a : A} {vs : List (Value A O)} {ts : List (List YogChar)}
      (h : a ∈ record) (hrest : Shows w record vs ts) :
      Shows w record (.container a :: vs) (f (w.body a) :: ts)
  | container {record : List A} {a : A} {us : List (List YogChar)} {vs : List (Value A O)}
      {ts : List (List YogChar)} (h : a ∉ record)
      (hbody : Shows w (record ++ [a]) (w.body a).values us) (hrest : Shows w record vs ts) :
      Shows w record (.container a :: vs) ((w.body a).text us :: ts)

/-- The print of values comes to an object, with the record that its `inspect` finds. -/
inductive Comes (w : World A O E) : List A → List (Value A O) → O → List A → Prop
  | here {record : List A} {o : O} {vs : List (Value A O)} :
      Comes w record (.other o :: vs) o record
  | within {record record' : List A} {a : A} {o : O} {vs : List (Value A O)} (h : a ∉ record)
      (hbody : Comes w (record ++ [a]) (w.body a).values o record') :
      Comes w record (.container a :: vs) o record'
  | behind {record record' : List A} {v : Value A O} {s : List YogChar} {o : O}
      {vs : List (Value A O)} (h : Shows w record [v] [s]) (hrest : Comes w record vs o record') :
      Comes w record (v :: vs) o record'

section Total

variable {w : World A O E} {record : List A} {a : A}

theorem Shows.cons {v : Value A O} {s : List YogChar} {vs : List (Value A O)}
    {ts : List (List YogChar)} (h : Shows w record [v] [s]) (hrest : Shows w record vs ts) :
    Shows w record (v :: vs) (s :: ts) := by
  rcases h with _ | ⟨h, hclean, -⟩ | ⟨h, -⟩ | ⟨h, hbody, -⟩
  · exact .other h hclean hrest
  · exact .again h hrest
  · exact .container h hbody hrest

/-- The record may only grow by as many containers as there are. -/
theorem ncard_lt [Finite A] (h : a ∉ record) :
    {x | x ∉ record ++ [a]}.ncard < {x | x ∉ record}.ncard := by
  refine Set.ncard_lt_ncard ⟨fun x hx => ?_, fun hsub => ?_⟩
  · simp at hx
    exact hx.1
  · have hin := hsub h
    simp at hin

/-- Either everything is shown, or an object is come to that does not return. -/
theorem shows_or_comes [Finite A] (w : World A O E) (record : List A) (vs : List (Value A O)) :
    (∃ ts, Shows w record vs ts) ∨ ∃ o record', Comes w record vs o record' ∧
      (w.Clean o record' → ∃ e, w.inspect o record' = .error (.raised e)) := by
  induction hk : {x | x ∉ record}.ncard using Nat.strong_induction_on generalizing record vs with
  | _ k ihk =>
    induction vs with
    | nil => exact .inl ⟨[], .nil⟩
    | cons v vs ih =>
      have hfirst : (∃ s, Shows w record [v] [s]) ∨ ∃ o record',
          Comes w record (v :: vs) o record' ∧
            (w.Clean o record' → ∃ e, w.inspect o record' = .error (.raised e)) := by
        rcases v with a | o
        · by_cases ha : a ∈ record
          · exact .inl ⟨_, .again ha .nil⟩
          · rcases ihk _ (hk ▸ ncard_lt ha) (record ++ [a]) (w.body a).values rfl with
              ⟨us, hus⟩ | ⟨o, record', hcomes, hend⟩
            · exact .inl ⟨_, .container ha hus .nil⟩
            · exact .inr ⟨o, record', .within ha hcomes, hend⟩
        · by_cases hclean : w.Clean o record
          · rcases hs : w.inspect o record with (e | _) | s
            · exact .inr ⟨o, record, .here, fun _ => ⟨e, hs⟩⟩
            · exact absurd hs hclean.1
            · exact .inl ⟨s, .other hs hclean.2 .nil⟩
          · exact .inr ⟨o, record, .here, fun h => absurd h hclean⟩
      rcases hfirst with ⟨s, hs⟩ | hcomes
      · rcases ih with ⟨ts, hts⟩ | ⟨o, record', hcomes, hend⟩
        · exact .inl ⟨s :: ts, hs.cons hts⟩
        · exact .inr ⟨o, record', .behind hs hcomes, hend⟩
      · exact .inr hcomes

end Total

theorem joinLoop_eq (sep s : List YogChar) (i : ℕ) {texts : List (List YogChar)}
    (h : texts ≠ []) : joinLoop sep (i + 1) s texts = s ++ sep ++ sep.intercalate texts := by
  induction texts generalizing s i with
  | nil => exact absurd rfl h
  | cons t texts ih =>
    rw [joinLoop, if_pos (Nat.succ_pos i)]
    by_cases hnil : texts = []
    · rw [hnil, List.intercalate_singleton]
      rfl
    · rw [ih _ _ hnil, List.intercalate_cons_of_ne_nil hnil]
      simp

theorem join_eq (sep : List YogChar) (texts : List (List YogChar)) :
    join sep texts = sep.intercalate texts := by
  rcases texts with _ | ⟨t, texts⟩
  · rfl
  · rw [join, joinLoop, if_neg (Nat.lt_irrefl 0)]
    by_cases hnil : texts = []
    · rw [hnil, List.intercalate_singleton]
      rfl
    · rw [joinLoop_eq _ _ _ hnil, List.intercalate_cons_of_ne_nil hnil]
      simp

namespace Run

variable {α β : Type} {f : Run A E α} {k : α → Run A E β} {r r' : List A}

theorem bind_ok {a : α} (h : f r = some (.ok a, r')) : (f >>= k) r = k a r' := by
  change andThen f k r = _
  unfold andThen
  rw [h]

theorem bind_error {e : Exit E} (h : f r = some (.error e, r')) :
    (f >>= k) r = some (.error e, r') := by
  change andThen f k r = _
  unfold andThen
  rw [h]

theorem bind_eq_some {x : Except (Exit E) β × List A} (h : (f >>= k) r = some x) :
    (∃ a r', f r = some (.ok a, r') ∧ k a r' = some x) ∨
      ∃ e r', f r = some (.error e, r') ∧ x = (.error e, r') := by
  change andThen f k r = _ at h
  unfold andThen at h
  rcases hf : f r with _ | ⟨e | a, r'⟩
  · simp [hf] at h
  · exact .inr ⟨e, r', rfl, by simpa [hf, eq_comm] using h⟩
  · exact .inl ⟨a, r', rfl, by simpa [hf] using h⟩

instance : LawfulMonad (Run A E) := by
  refine LawfulMonad.mk' _ (fun f => ?_) (fun _ _ => rfl) (fun f k l => ?_)
  · funext r
    change andThen f _ r = f r
    unfold andThen
    rcases f r with _ | ⟨e | a, r'⟩ <;> rfl
  · funext r
    change andThen (andThen f k) l r = andThen f (fun a => andThen (k a) l) r
    unfold andThen
    rcases f r with _ | ⟨e | a, r'⟩ <;> rfl

end Run

section Loops

variable (inspect : Value A O → Run A E (List YogChar))

theorem inspectPairs_eq (pairs : List (Value A O × Value A O)) :
    inspectPairs inspect pairs =
      entries <$> inspectAll inspect (pairs.flatMap fun p => [p.1, p.2]) := by
  induction pairs with
  | nil => rfl
  | cons p pairs ih =>
    rw [inspectPairs, ih]
    simp [inspectAll, entries]

/-- The values of a container are printed in their order, and the text is made of theirs. -/
theorem g_eq (b : Body A O) : g inspect b = b.text <$> inspectAll inspect b.values := by
  rcases b with elems | pairs | elems
  · simp [g, Body.text, Body.values, join_eq]
  · simp [g, Body.text, Body.values, join_eq, inspectPairs_eq]
  · simp [g, Body.text, Body.values, join_eq]

end Loops

section Cons

variable {F : Value A O → Run A E (List YogChar)} {v : Value A O} {vs : List (Value A O)}
  {s : List YogChar} {r r₁ r₂ : List A}

theorem inspectAll_ok {ts : List (List YogChar)} (h : F v r = some (.ok s, r₁))
    (hrest : inspectAll F vs r₁ = some (.ok ts, r₂)) :
    inspectAll F (v :: vs) r = some (.ok (s :: ts), r₂) := by
  unfold inspectAll
  rw [Run.bind_ok h, Run.bind_ok hrest]
  rfl

theorem inspectAll_rest {e : Exit E} (h : F v r = some (.ok s, r₁))
    (hrest : inspectAll F vs r₁ = some (.error e, r₂)) :
    inspectAll F (v :: vs) r = some (.error e, r₂) := by
  unfold inspectAll
  rw [Run.bind_ok h, Run.bind_error hrest]

theorem inspectAll_error {e : Exit E} (h : F v r = some (.error e, r₁)) :
    inspectAll F (v :: vs) r = some (.error e, r₁) := by
  unfold inspectAll
  exact Run.bind_error h

/-- A row of values is printed from the first one on. -/
theorem inspectAll_cons {x : Except (Exit E) (List (List YogChar)) × List A}
    (h : inspectAll F (v :: vs) r = some x) :
    (∃ s r₁ y, F v r = some (.ok s, r₁) ∧ inspectAll F vs r₁ = some y ∧
        x = (y.1.map (s :: ·), y.2)) ∨
      ∃ e r₁, F v r = some (.error e, r₁) ∧ x = (.error e, r₁) := by
  unfold inspectAll at h
  rcases Run.bind_eq_some h with ⟨s, r₁, hs, hrest⟩ | herror
  · refine .inl ⟨s, r₁, ?_⟩
    rcases Run.bind_eq_some hrest with ⟨ts, r₂, hts, hpure⟩ | ⟨e, r₂, he, rfl⟩
    · exact ⟨_, hs, hts, (Option.some.inj hpure).symm⟩
    · exact ⟨_, hs, he, rfl⟩
  · exact .inr herror

end Cons

/-- What is printed with some fuel is printed with more. -/
theorem inspectAll_mono {F G : Value A O → Run A E (List YogChar)}
    (h : ∀ v r x, F v r = some x → G v r = some x) {vs : List (Value A O)} {record : List A}
    {x : Except (Exit E) (List (List YogChar)) × List A} :
    inspectAll F vs record = some x → inspectAll G vs record = some x := by
  induction vs generalizing record x with
  | nil => exact id
  | cons v vs ih =>
    intro hx
    rcases inspectAll_cons hx with ⟨s, r₁, ⟨e | ts, r₂⟩, hs, hrest, rfl⟩ | ⟨e, r₁, he, rfl⟩
    · exact inspectAll_rest (h _ _ _ hs) (ih hrest)
    · exact inspectAll_ok (h _ _ _ hs) (ih hrest)
    · exact inspectAll_error (h _ _ _ he)

/-- What each value leaves on top of the record is left there by all of them. -/
theorem inspectAll_length {F : Value A O → Run A E (List YogChar)}
    (h : ∀ v r x, F v r = some x → r.length ≤ x.2.length) {vs : List (Value A O)} {record : List A}
    {x : Except (Exit E) (List (List YogChar)) × List A} (hx : inspectAll F vs record = some x) :
    record.length ≤ x.2.length := by
  induction vs generalizing record x with
  | nil =>
    obtain rfl := Option.some.inj hx
    exact le_rfl
  | cons v vs ih =>
    rcases inspectAll_cons hx with ⟨s, r₁, y, hs, hrest, rfl⟩ | ⟨e, r₁, he, rfl⟩
    · have hfirst := h _ _ _ hs
      have hafter := ih hrest
      exact hfirst.trans hafter
    · exact h _ _ _ he

variable [DecidableEq A] {w : World A O E} {record record' : List A} {a : A} {o : O} {n m : ℕ}

theorem includes_iff : w.includes record a ↔ a ∈ record := by
  unfold World.includes
  rw [List.any_eq_true]
  constructor
  · intro h
    obtain ⟨elem, hmem, heq⟩ := h
    simp at heq
    exact heq.2 ▸ hmem
  · intro h
    exact ⟨a, h, by simp⟩

theorem inspect_again (h : a ∈ record) :
    w.inspectValue (n + 1) (.container a) record = some (.ok (f (w.body a)), record) :=
  if_pos (includes_iff.2 h)

theorem inspect_within (h : a ∉ record) : w.inspectValue (n + 1) (.container a) record =
    match inspectAll (w.inspectValue n) (w.body a).values (record ++ [a]) with
    | none => none
    | some (.error .jumped, stack) => some (.error .jumped, stack)
    | some (.error (.raised e), stack) => some (.error (.raised e), stack.dropLast)
    | some (.ok us, stack) => some (.ok ((w.body a).text us), stack.dropLast) := by
  have hnot : ¬ w.includes record a := fun hin => h (includes_iff.1 hin)
  refine (if_neg hnot).trans ?_
  have hg : g (w.inspectValue n) (w.body a) (record ++ [a]) =
      Run.andThen (inspectAll (w.inspectValue n) (w.body a).values)
        (fun us => pure ((w.body a).text us)) (record ++ [a]) := by
    rw [g_eq]
    rfl
  rw [hg]
  unfold Run.andThen
  rcases inspectAll (w.inspectValue n) (w.body a).values (record ++ [a]) with _ | ⟨(e | _) | us, r⟩
  · rfl
  · rfl
  · rfl
  · rfl

theorem inspectValue_mono (hnm : n ≤ m) (v : Value A O) (r : List A)
    (x : Except (Exit E) (List YogChar) × List A) (h : w.inspectValue n v r = some x) :
    w.inspectValue m v r = some x := by
  induction n generalizing m v r x with
  | zero =>
    rcases v with a | o
    · simp [World.inspectValue] at h
    · simpa [World.inspectValue] using h
  | succ n ih =>
    obtain ⟨m, rfl⟩ : ∃ m', m = m' + 1 := ⟨m - 1, by omega⟩
    rcases v with a | o
    · by_cases ha : a ∈ r
      · rw [inspect_again ha] at h ⊢
        exact h
      · rw [inspect_within ha] at h ⊢
        rcases hb : inspectAll (w.inspectValue n) (w.body a).values (r ++ [a]) with _ | y
        · rw [hb] at h
          simp at h
        · rw [hb] at h
          rw [inspectAll_mono (ih (by omega)) hb]
          exact h
    · simpa [World.inspectValue] using h

/-- The record only grows, whatever an `inspect` leaves in it. -/
theorem inspectValue_length (v : Value A O) (r : List A)
    (x : Except (Exit E) (List YogChar) × List A) (h : w.inspectValue n v r = some x) :
    r.length ≤ x.2.length := by
  induction n generalizing v r x with
  | zero =>
    rcases v with a | o
    · simp [World.inspectValue] at h
    · obtain rfl := Option.some.inj h
      simp
  | succ n ih =>
    rcases v with a | o
    · by_cases ha : a ∈ r
      · rw [inspect_again ha] at h
        obtain rfl := Option.some.inj h
        exact le_rfl
      · rw [inspect_within ha] at h
        rcases hb : inspectAll (w.inspectValue n) (w.body a).values (r ++ [a])
          with _ | ⟨(e | _) | us, r'⟩
        · simp [hb] at h
        all_goals
          have hlen := inspectAll_length ih hb
          simp [hb] at h hlen
          subst h
          simp
          omega
    · obtain rfl := Option.some.inj h
      simp

/-- After a jump the container is still in the record. -/
theorem jumped_length {r : List A}
    (h : w.inspectValue n (.container a) record = some (.error .jumped, r)) :
    record.length < r.length := by
  rcases n with _ | n
  · simp [World.inspectValue] at h
  · by_cases ha : a ∈ record
    · rw [inspect_again ha] at h
      simp at h
    · rw [inspect_within ha] at h
      rcases hb : inspectAll (w.inspectValue n) (w.body a).values (record ++ [a])
        with _ | ⟨(e | _) | us, r'⟩
      · simp [hb] at h
      · simp [hb] at h
      · have hlen := inspectAll_length inspectValue_length hb
        simp [hb] at h hlen
        subst h
        omega
      · simp [hb] at h

/-- What is shown is printed, with enough fuel. -/
theorem shows_runs {vs : List (Value A O)} {ts : List (List YogChar)} (h : Shows w record vs ts) :
    ∃ n, inspectAll (w.inspectValue n) vs record = some (.ok ts, record) := by
  induction h with
  | nil => exact ⟨0, rfl⟩
  | @other record o s vs ts h hclean hrest ih =>
    obtain ⟨n, hn⟩ := ih
    have hfirst : w.inspectValue n (.other o) record = some (.ok s, record) := by
      simp [World.inspectValue, h, hclean]
    exact ⟨n, inspectAll_ok hfirst hn⟩
  | again h hrest ih =>
    obtain ⟨n, hn⟩ := ih
    exact ⟨n + 1, inspectAll_ok (inspect_again h)
      (inspectAll_mono (inspectValue_mono (Nat.le_succ n)) hn)⟩
  | @container record a us vs ts h hbody hrest ihbody ih =>
    obtain ⟨m, hm⟩ := ihbody
    obtain ⟨n, hn⟩ := ih
    have hbody := inspectAll_mono (inspectValue_mono (le_max_left m n)) hm
    have hfirst : w.inspectValue (max m n + 1) (.container a) record =
        some (.ok ((w.body a).text us), record) := by
      rw [inspect_within h, hbody]
      simp
    exact ⟨max m n + 1, inspectAll_ok hfirst
      (inspectAll_mono (inspectValue_mono (by omega)) hn)⟩

/-- A value in front of others, alone. -/
theorem Shows.runs {v : Value A O} {s : List YogChar} (h : Shows w record [v] [s]) :
    ∃ n, w.inspectValue n v record = some (.ok s, record) := by
  obtain ⟨n, hn⟩ := shows_runs h
  refine ⟨n, ?_⟩
  rcases inspectAll_cons hn with ⟨s', r₁, y, hs, hrest, heq⟩ | ⟨e, r₁, -, heq⟩
  · obtain rfl := Option.some.inj hrest
    simp [Except.map] at heq
    rw [hs, heq.1, heq.2]
  · simp at heq

/-- The first exception is what comes out, and the record is as it was. -/
theorem comes_raises {vs : List (Value A O)} {e : E} (h : Comes w record vs o record')
    (he : w.inspect o record' = .error (.raised e)) (hclean : w.leaves o record' = []) :
    ∃ n, inspectAll (w.inspectValue n) vs record = some (.error (.raised e), record) := by
  induction h with
  | here =>
    refine ⟨0, inspectAll_error ?_⟩
    simp [World.inspectValue, he, hclean]
  | @within record record' a o vs h hbody ih =>
    obtain ⟨n, hn⟩ := ih he hclean
    refine ⟨n + 1, inspectAll_error ?_⟩
    rw [inspect_within h, hn]
    simp
  | behind h hrest ih =>
    obtain ⟨m, hm⟩ := h.runs
    obtain ⟨n, hn⟩ := ih he hclean
    exact ⟨max m n, inspectAll_rest (inspectValue_mono (le_max_left m n) _ _ _ hm)
      (inspectAll_mono (inspectValue_mono (le_max_right m n)) hn)⟩

theorem inspectValue_unique {v : Value A O} {r : List A}
    {x y : Except (Exit E) (List YogChar) × List A} (hx : w.inspectValue n v r = some x)
    (hy : w.inspectValue m v r = some y) : x = y := by
  have hx' := inspectValue_mono (le_max_left n m) v r x hx
  rw [inspectValue_mono (le_max_right n m) v r y hy] at hx'
  exact (Option.some.inj hx').symm

/-- What is left in the record by the first of a row stays there. -/
theorem unclean_first {v : Value A O} {vs : List (Value A O)}
    (hfirst : ∀ y, w.inspectValue n v record = some y →
      record.length < y.2.length ∨ y.1 = .error .jumped)
    {x : Except (Exit E) (List (List YogChar)) × List A}
    (hx : inspectAll (w.inspectValue n) (v :: vs) record = some x) :
    record.length < x.2.length ∨ x.1 = .error .jumped := by
  rcases inspectAll_cons hx with ⟨s, r₁, y, hs, hrest, rfl⟩ | ⟨e, r₁, he, rfl⟩
  · rcases hfirst _ hs with hlt | hjump
    · have hafter := inspectAll_length inspectValue_length hrest
      exact .inl (lt_of_lt_of_le hlt hafter)
    · simp at hjump
  · rcases hfirst _ he with hlt | hjump
    · exact .inl hlt
    · exact .inr (by simpa using hjump)

/-- Where an `inspect` jumps, or leaves something in the record, it is not the same after it. -/
theorem comes_unclean {vs : List (Value A O)} (h : Comes w record vs o record')
    (hunclean : ¬ w.Clean o record') {x : Except (Exit E) (List (List YogChar)) × List A}
    (hx : inspectAll (w.inspectValue n) vs record = some x) :
    record.length < x.2.length ∨ x.1 = .error .jumped := by
  induction h generalizing n x with
  | @here record o vs =>
    refine unclean_first (fun y hy => ?_) hx
    obtain rfl : (w.inspect o record, record ++ w.leaves o record) = y := by
      simpa [World.inspectValue] using hy
    by_cases hleaves : w.leaves o record = []
    · right
      by_contra hjump
      exact hunclean ⟨hjump, hleaves⟩
    · left
      have hpos := List.length_pos_of_ne_nil hleaves
      simp
      omega
  | @within record record' a o vs h hbody ih =>
    refine unclean_first (fun y hy => ?_) hx
    rcases n with _ | n
    · simp [World.inspectValue] at hy
    · rw [inspect_within h] at hy
      rcases hb : inspectAll (w.inspectValue n) (w.body a).values (record ++ [a])
        with _ | ⟨(e | _) | us, r'⟩
      · simp [hb] at hy
      · have hlen := ih hunclean hb
        simp [hb] at hy hlen
        left
        subst hy
        simp
        omega
      · right
        simp [hb] at hy
        rw [← hy]
      · have hlen := ih hunclean hb
        simp [hb] at hy hlen
        left
        subst hy
        simp
        omega
  | behind h hrest ih =>
    obtain ⟨m, hm⟩ := h.runs
    rcases inspectAll_cons hx with ⟨s, r₁, y, hs, hafter, rfl⟩ | ⟨e, r₁, he, rfl⟩
    · obtain ⟨-, rfl⟩ := Prod.mk.inj (inspectValue_unique hs hm)
      rcases ih hunclean hafter with hlt | hjump
      · exact .inl hlt
      · right
        rw [hjump]
        rfl
    · simpa using inspectValue_unique he hm

/-- `to_s` of a container ends with the record as it was: with the text of the container, or with
the first exception there is. -/
def Printed (w : World A O E) (record : List A) (a : A) : Prop :=
  ∃ out, (∃ N, ∀ n, N ≤ n → w.inspectValue n (.container a) record = some (out, record)) ∧
    match out with
    | .ok s => Shows w record [.container a] [s]
    | .error (.raised e) => ∃ o record', Comes w record [.container a] o record' ∧
        w.inspect o record' = .error (.raised e)
    | .error .jumped => True

/-- A container is printed as it should be, and the record left as it was, if and only if that
is so of each `inspect` the print comes to. -/
theorem printed_iff [Finite A] (w : World A O E) (record : List A) (a : A) :
    Printed w record a ↔
      ∀ o record', Comes w record [.container a] o record' → w.Clean o record' := by
  constructor
  · intro h o record' hcomes
    obtain ⟨out, ⟨N, hN⟩, -⟩ := h
    by_contra hunclean
    have hrun := hN N le_rfl
    rcases out with e | s
    · rcases comes_unclean hcomes hunclean (inspectAll_error hrun) with hlt | hjump
      · exact absurd hlt (lt_irrefl _)
      · obtain rfl : e = .jumped := by simpa using hjump
        exact absurd (jumped_length hrun) (lt_irrefl _)
    · rcases comes_unclean hcomes hunclean (inspectAll_ok hrun rfl) with hlt | hjump
      · exact absurd hlt (lt_irrefl _)
      · simp at hjump
  · intro h
    rcases shows_or_comes w record [.container a] with ⟨ts, hts⟩ | ⟨o, record', hcomes, hend⟩
    · obtain ⟨s, rfl⟩ : ∃ s, ts = [s] := by
        rcases hts with _ | _ | ⟨_, ⟨⟩⟩ | ⟨_, _, ⟨⟩⟩
        · exact ⟨_, rfl⟩
        · exact ⟨_, rfl⟩
      obtain ⟨n, hn⟩ := hts.runs
      exact ⟨.ok s, ⟨n, fun m hm => inspectValue_mono hm _ _ _ hn⟩, hts⟩
    · obtain ⟨e, he⟩ := hend (h o record' hcomes)
      obtain ⟨n, hn⟩ := comes_raises hcomes he (h o record' hcomes).2
      have hrun : w.inspectValue n (.container a) record = some (.error (.raised e), record) := by
        rcases inspectAll_cons hn with ⟨s, r₁, y, hs, hrest, heq⟩ | ⟨e', r₁, he', heq⟩
        · obtain rfl := Option.some.inj hrest
          simp [Except.map] at heq
        · simp at heq
          rw [he', heq.1, heq.2]
      exact ⟨.error (.raised e), ⟨n, fun m hm => inspectValue_mono hm _ _ _ hrun⟩, o, record',
        hcomes, he⟩

/-- An array with an array twice in it, and itself. -/
def sharing : World Bool Empty Empty where
  body b := .array (if b then [.container false, .container false, .container true] else [])
  inspect := Empty.elim
  leaves := Empty.elim

theorem printed_iff_sharing : Printed sharing [] true :=
  (printed_iff sharing [] true).2 fun o => o.elim

example : (sharing.inspectValue 2 (.container true) []).map Prod.fst =
    some (.ok (fromString "[[], [], [...]]")) := by decide

/-- An array of an object whose `inspect` runs a block that returns from a function further out. -/
def jumping : World Unit Unit Empty where
  body _ := .array [.other ()]
  inspect _ _ := .error .jumped
  leaves _ _ := []

/-- The array stays in the record, and is a placeholder when it is printed again. -/
theorem not_printed_jumping : ¬ Printed jumping [] () ∧
    jumping.inspectValue 1 (.container ()) [] = some (.error .jumped, [()]) ∧
    jumping.inspectValue 1 (.container ()) [()] = some (.ok (fromString "[...]"), [()]) := by
  refine ⟨?_, rfl, rfl⟩
  intro h
  obtain ⟨out, ⟨N, hN⟩, -⟩ := h
  have hrun := hN (N + 1) (Nat.le_succ N)
  have hleft : jumping.inspectValue (N + 1) (.container ()) [] = some (.error .jumped, [()]) := by
    rcases N with _ | N
    · rfl
    · rfl
  rw [hleft] at hrun
  simp at hrun

end Yog.Inspect
