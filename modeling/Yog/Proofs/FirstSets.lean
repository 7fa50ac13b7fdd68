import Mathlib.Data.Finset.Prod
import Yog.Lalr

/-!
# Nullable nonterminals and first sets

`compute_nullable` and `compute_first_of_nonterminals` end, with the nonterminals that derive the
empty string and with the terminals that begin a string a nonterminal derives. That the attributes
say no more than the derivations do is kept by every step (`Sound`); that they say no less is read
off the last round, in which no rule had anything to add, by induction on the derivations.
-/

namespace Yog.Lalr

open Derivation Saturation Partial

variable {T N : Type} {rules : List (Rule T N)}

/-- The rules as those of a context-free grammar. -/
def productions (rules : List (Rule T N)) : List (ContextFreeRule T N) := rules.map Rule.production

theorem production_mem {rule : Rule T N} (h : rule ∈ rules) :
    rule.production ∈ productions rules :=
  List.mem_map_of_mem h

theorem exists_of_mem_productions {r : ContextFreeRule T N} (h : r ∈ productions rules) :
    ∃ rule ∈ rules, rule.production = r :=
  List.mem_map.1 h

section Nullable

variable (rules) in
def NullableSound (attrs : Attrs T N) : Prop :=
  ∀ A, attrs.nullable A = true → Vanishes (productions rules) [.nonterminal A]

variable (rules) in
/-- The marked nonterminals are those that vanish. -/
def NullableExact (attrs : Attrs T N) : Prop :=
  ∀ u : List (Symbol T N), u.all attrs.symNullable = true ↔ Vanishes (productions rules) u

theorem NullableSound.vanishes {attrs : Attrs T N} (h : NullableSound rules attrs)
    {u : List (Symbol T N)} (hu : u.all attrs.symNullable = true) :
    Vanishes (productions rules) u := by
  rw [vanishes_iff_forall]
  rw [List.all_eq_true] at hu
  intro s hs
  have := hu s hs
  rcases s with t | A
  · simp [Attrs.symNullable] at this
  · exact h A this

variable [DecidableEq N]

theorem updateNullable_sound {rule : Rule T N} (hr : rule ∈ rules) {attrs : Attrs T N}
    (h : NullableSound rules attrs) : NullableSound rules (attrs.updateNullable rule).1 := by
  unfold Attrs.updateNullable
  split_ifs with hcond
  · exact h
  · intro A hA
    simp only [Bool.or_eq_true, Bool.not_eq_true', not_or, Bool.not_eq_false] at hcond
    by_cases hlhs : A = rule.lhs
    · subst hlhs
      exact vanishes_singleton.2 ⟨_, production_mem hr, rfl, h.vanishes hcond.1⟩
    · exact h A (by simpa [Function.update_of_ne hlhs] using hA)

theorem updateNullable_quiet :
    Quiet fun (rule : Rule T N) (attrs : Attrs T N) => attrs.updateNullable rule := by
  intro rule attrs h
  simp only [Attrs.updateNullable] at h ⊢
  split_ifs at h ⊢
  rfl

theorem nullable_of_quiet {rule : Rule T N} {attrs : Attrs T N}
    (h : (attrs.updateNullable rule).2 = false) (hrhs : rule.rhs.all attrs.symNullable = true) :
    attrs.nullable rule.lhs = true := by
  unfold Attrs.updateNullable at h
  split_ifs at h with hcond
  simpa [hrhs] using hcond

/-- The left-hand sides that are not nullable yet. -/
def notNullable (rules : List (Rule T N)) (attrs : Attrs T N) : Finset N :=
  {A ∈ (rules.map Rule.lhs).toFinset | attrs.nullable A = false}

theorem updateNullable_measure {rule : Rule T N} (hr : rule ∈ rules) {attrs : Attrs T N}
    (h : (attrs.updateNullable rule).2 = true) :
    (notNullable rules (attrs.updateNullable rule).1).card < (notNullable rules attrs).card := by
  unfold Attrs.updateNullable at h ⊢
  split_ifs at h ⊢ with hcond
  simp only [Bool.or_eq_true, Bool.not_eq_true', not_or, Bool.not_eq_true, Bool.not_eq_false]
    at hcond
  refine Finset.card_lt_card (Finset.ssubset_iff_subset_ne.2 ⟨?_, ?_⟩)
  · intro A hA
    simp only [notNullable, Finset.mem_filter] at hA ⊢
    refine ⟨hA.1, ?_⟩
    by_cases hlhs : A = rule.lhs
    · exact hlhs ▸ hcond.2
    · simpa [Function.update_of_ne hlhs] using hA.2
  · have hmem : rule.lhs ∈ notNullable rules attrs := by
      simp only [notNullable, Finset.mem_filter, List.mem_toFinset]
      exact ⟨List.mem_map_of_mem hr, hcond.2⟩
    intro heq
    rw [← heq] at hmem
    simp [notNullable] at hmem

/-- No more than what vanishes is marked, and a vanishing string by induction on its derivation. -/
theorem nullableExact_of_quiet {attrs : Attrs T N} (hsound : NullableSound rules attrs)
    (hquiet : ∀ rule ∈ rules, (attrs.updateNullable rule).2 = false) :
    NullableExact rules attrs := by
  intro u
  refine ⟨hsound.vanishes, fun h => ?_⟩
  induction h with
  | nil => rfl
  | @cons r v hr _ _ ihout ihv =>
    obtain ⟨rule, hrule, rfl⟩ := exists_of_mem_productions hr
    rw [List.all_cons, ihv, Bool.and_true]
    exact nullable_of_quiet (hquiet rule hrule) ihout

theorem steady_computeNullable {ε : Type*} (attrs : Attrs T N) :
    Steady (computeNullable (ε := ε) rules · attrs) :=
  steady_settle (fun _ => steady_done _) attrs

theorem computeNullable_ends {ε : Type*} :
    ∃ attrs : Attrs T N, Ends (computeNullable (ε := ε) rules · .new) (.ok attrs) ∧
      NullableExact rules attrs ∧ attrs.first = fun _ => ∅ := by
  obtain ⟨attrs, hends, ⟨hsound, hfirst⟩, hquiet⟩ := ends_settle_pass (ε := ε)
    (updateNullable_quiet (T := T) (N := N)) (l := rules)
    (I := fun attrs => NullableSound rules attrs ∧ attrs.first = fun _ => ∅)
    (m := fun attrs => (notNullable rules attrs).card)
    (fun rule hr s hs => ⟨updateNullable_sound hr hs.1, by
      unfold Attrs.updateNullable; split_ifs <;> exact hs.2⟩)
    (fun rule hr s _ h => updateNullable_measure hr h)
    (s := .new) ⟨fun A hA => by simp [Attrs.new] at hA, rfl⟩
  exact ⟨attrs, hends, nullableExact_of_quiet hsound hquiet, hfirst⟩

end Nullable

section First

variable (rules) in
/-- The vanishing nonterminals are marked, and the terminals of a set begin what the nonterminal
derives. -/
structure Sound (attrs : Attrs T N) : Prop where
  nullable : NullableExact rules attrs
  first : ∀ A, ∀ t ∈ attrs.first A, Begins (productions rules) t [.nonterminal A]

theorem Sound.nullable_iff {attrs : Attrs T N} (h : Sound rules attrs) {A : N} :
    attrs.nullable A = true ↔ Vanishes (productions rules) [.nonterminal A] := by
  simpa [Attrs.symNullable] using h.nullable [.nonterminal A]

variable [DecidableEq T]

theorem Sound.begins {attrs : Attrs T N} (h : Sound rules attrs) {u : List (Symbol T N)} {t : T}
    (ht : t ∈ attrs.firstOf u) : Begins (productions rules) t u := by
  induction u with
  | nil => simp [Attrs.firstOf] at ht
  | cons s u ih =>
    rcases s with t' | A
    · rw [Attrs.firstOf, Finset.mem_singleton] at ht
      exact ht ▸ .terminal
    · rw [Attrs.firstOf] at ht
      split_ifs at ht with hA
      · rcases Finset.mem_union.1 ht with ht | ht
        · exact (h.first A t ht).append_right u
        · exact .skip (h.nullable_iff.1 hA) (ih ht)
      · exact (h.first A t ht).append_right u

variable (rules) in
/-- The terminals of the right-hand sides. -/
def terminals : Finset T :=
  (rules.flatMap fun rule => rule.rhs.filterMap fun
    | .terminal t => some t
    | .nonterminal _ => none).toFinset

variable [DecidableEq N]

theorem addFirst_nullable (attrs : Attrs T N) (lhs : N) (terms : Finset T) :
    (attrs.addFirst lhs terms).1.nullable = attrs.nullable := by
  unfold Attrs.addFirst
  split_ifs <;> rfl

theorem addFirst_sound {attrs : Attrs T N} (h : Sound rules attrs) {lhs : N} {terms : Finset T}
    (hterms : ∀ t ∈ terms, Begins (productions rules) t [.nonterminal lhs]) :
    Sound rules (attrs.addFirst lhs terms).1 := by
  unfold Attrs.addFirst
  split_ifs
  · exact h
  · refine ⟨h.nullable, fun A t ht => ?_⟩
    by_cases hA : A = lhs
    · subst hA
      simp only [Function.update_self, Finset.mem_union] at ht
      exact ht.elim (h.first A t) (hterms t)
    · exact h.first A t (by simpa [Function.update_of_ne hA] using ht)

theorem addFirst_quiet {attrs : Attrs T N} {lhs : N} {terms : Finset T}
    (h : (attrs.addFirst lhs terms).2 = false) :
    (attrs.addFirst lhs terms).1 = attrs ∧ terms ⊆ attrs.first lhs := by
  unfold Attrs.addFirst at h ⊢
  split_ifs at h ⊢ with hsub
  exact ⟨rfl, hsub⟩

omit [DecidableEq N] in
theorem mem_terminals {t : T} : t ∈ terminals rules ↔ ∃ rule ∈ rules, .terminal t ∈ rule.rhs := by
  simp only [terminals, List.mem_toFinset, List.mem_flatMap, List.mem_filterMap]
  refine exists_congr fun rule => and_congr_right fun _ => ⟨?_, fun h => ⟨_, h, rfl⟩⟩
  rintro ⟨_ | _, hs, heq⟩
  · cases heq
    exact hs
  · cases heq

theorem addFirst_grows (attrs : Attrs T N) (lhs : N) (terms : Finset T) :
    (∀ A, attrs.first A ⊆ (attrs.addFirst lhs terms).1.first A) ∧
      ((attrs.addFirst lhs terms).2 = true →
        ∃ t ∈ (attrs.addFirst lhs terms).1.first lhs, t ∉ attrs.first lhs) := by
  unfold Attrs.addFirst
  split_ifs with hsub
  · simp
  · refine ⟨fun A => ?_, fun _ => ?_⟩
    · by_cases hA : A = lhs
      · subst hA
        simp [Finset.subset_union_left]
      · simp [Function.update_of_ne hA]
    · obtain ⟨t, ht, hnew⟩ := Finset.not_subset.1 hsub
      exact ⟨t, by simp [ht], hnew⟩

theorem updateFirst_nonterminal (attrs : Attrs T N) (lhs A : N) (u : List (Symbol T N)) :
    attrs.updateFirst lhs (.nonterminal A :: u) =
      if attrs.nullable A = true then
        (((attrs.addFirst lhs (attrs.first A)).1.updateFirst lhs u).1,
          (attrs.addFirst lhs (attrs.first A)).2 ||
            ((attrs.addFirst lhs (attrs.first A)).1.updateFirst lhs u).2)
      else attrs.addFirst lhs (attrs.first A) := by
  rw [Attrs.updateFirst]
  simp only [addFirst_nullable]

/-- What is gathered from a part of a right-hand side is kept sound. -/
theorem updateFirst_sound {lhs : N} {u : List (Symbol T N)}
    (hu : ∀ t, Begins (productions rules) t u → Begins (productions rules) t [.nonterminal lhs])
    {attrs : Attrs T N} (h : Sound rules attrs) :
    Sound rules (attrs.updateFirst lhs u).1 := by
  induction u generalizing attrs with
  | nil => exact h
  | cons s u ih =>
    rcases s with t | A
    · exact addFirst_sound h fun t' ht' => hu t' (Finset.mem_singleton.1 ht' ▸ .terminal)
    · have hadd := addFirst_sound h fun t ht => hu t ((h.first A t ht).append_right u)
      rw [updateFirst_nonterminal]
      split_ifs with hA
      · exact ih (fun t ht => hu t (.skip (h.nullable_iff.1 hA) ht)) hadd
      · exact hadd

theorem updateFirst_quiet {lhs : N} {u : List (Symbol T N)} {attrs : Attrs T N}
    (h : (attrs.updateFirst lhs u).2 = false) :
    (attrs.updateFirst lhs u).1 = attrs ∧ attrs.firstOf u ⊆ attrs.first lhs := by
  induction u with
  | nil => exact ⟨rfl, Finset.empty_subset _⟩
  | cons s u ih =>
    rcases s with t | A
    · exact addFirst_quiet h
    · rw [updateFirst_nonterminal] at h ⊢
      rw [Attrs.firstOf]
      split_ifs at h ⊢ with hA
      · rw [Bool.or_eq_false_iff] at h
        obtain ⟨hadd, hsub⟩ := addFirst_quiet h.1
        rw [hadd] at h ⊢
        obtain ⟨hrest, hsub'⟩ := ih h.2
        exact ⟨hrest, Finset.union_subset hsub hsub'⟩
      · exact addFirst_quiet h

theorem updateFirst_grows (attrs : Attrs T N) (lhs : N) (u : List (Symbol T N)) :
    (∀ A, attrs.first A ⊆ (attrs.updateFirst lhs u).1.first A) ∧
      ((attrs.updateFirst lhs u).2 = true →
        ∃ t ∈ (attrs.updateFirst lhs u).1.first lhs, t ∉ attrs.first lhs) := by
  induction u generalizing attrs with
  | nil => simp [Attrs.updateFirst]
  | cons s u ih =>
    rcases s with t | A
    · exact addFirst_grows attrs lhs {t}
    · rw [updateFirst_nonterminal]
      obtain ⟨hsub, hnew⟩ := addFirst_grows attrs lhs (attrs.first A)
      split_ifs
      · obtain ⟨hsub', hnew'⟩ := ih (attrs.addFirst lhs (attrs.first A)).1
        refine ⟨fun A => (hsub A).trans (hsub' A), fun h => ?_⟩
        rcases Bool.or_eq_true_iff.1 h with h | h
        · obtain ⟨t, ht, htn⟩ := hnew h
          exact ⟨t, hsub' lhs ht, htn⟩
        · obtain ⟨t, ht, htn⟩ := hnew' h
          exact ⟨t, ht, fun hold => htn (hsub lhs hold)⟩
      · exact ⟨hsub, hnew⟩

/-- The terminals of the rules that are not in the set of a left-hand side yet. -/
def notFirst (rules : List (Rule T N)) (attrs : Attrs T N) : Finset (N × T) :=
  {p ∈ (rules.map Rule.lhs).toFinset ×ˢ terminals rules | p.2 ∉ attrs.first p.1}

theorem updateFirst_measure {rule : Rule T N} (hr : rule ∈ rules) {attrs : Attrs T N}
    (hsound : Sound rules (attrs.updateFirst rule.lhs rule.rhs).1)
    (h : (attrs.updateFirst rule.lhs rule.rhs).2 = true) :
    (notFirst rules (attrs.updateFirst rule.lhs rule.rhs).1).card < (notFirst rules attrs).card := by
  obtain ⟨hsub, hnew⟩ := updateFirst_grows attrs rule.lhs rule.rhs
  obtain ⟨t, ht, htn⟩ := hnew h
  have hterm : t ∈ terminals rules := by
    obtain ⟨r, hr, hmem⟩ := (hsound.first _ t ht).mem.resolve_left (by simp)
    obtain ⟨rule, hrule, rfl⟩ := exists_of_mem_productions hr
    exact mem_terminals.2 ⟨rule, hrule, hmem⟩
  have hlhs : rule.lhs ∈ (rules.map Rule.lhs).toFinset :=
    List.mem_toFinset.2 (List.mem_map_of_mem hr)
  refine Finset.card_lt_card (Finset.ssubset_iff_of_subset ?_ |>.2 ⟨(rule.lhs, t), ?_, ?_⟩)
  · exact Finset.monotone_filter_right _ fun p _ hp hold => hp (hsub p.1 hold)
  · simp only [notFirst, Finset.mem_filter, Finset.mem_product]
    exact ⟨⟨hlhs, hterm⟩, htn⟩
  · simp [notFirst, ht]

/-- The sets hold all terminals that begin a derived string, once no rule has one to add. -/
theorem mem_firstOf_iff {attrs : Attrs T N} (hsound : Sound rules attrs)
    (hquiet : ∀ rule ∈ rules, (attrs.updateFirst rule.lhs rule.rhs).2 = false)
    {u : List (Symbol T N)} {t : T} :
    t ∈ attrs.firstOf u ↔ Begins (productions rules) t u := by
  refine ⟨hsound.begins, fun h => ?_⟩
  induction h with
  | terminal => exact Finset.mem_singleton_self t
  | @skip A v hA _ ih =>
    rw [Attrs.firstOf, if_pos (hsound.nullable_iff.2 hA)]
    exact Finset.mem_union_right _ ih
  | @enter r v hr _ ih =>
    obtain ⟨rule, hrule, rfl⟩ := exists_of_mem_productions hr
    have hmem := (updateFirst_quiet (hquiet rule hrule)).2 ih
    rw [Attrs.firstOf]
    split_ifs
    · exact Finset.mem_union_left _ hmem
    · exact hmem

variable (rules) in
/-- The attributes are those of the derivations. -/
structure Exact (attrs : Attrs T N) : Prop where
  nullable : NullableExact rules attrs
  firstOf : ∀ (u : List (Symbol T N)) (t : T),
    t ∈ attrs.firstOf u ↔ Begins (productions rules) t u

omit [DecidableEq N] in
theorem Exact.first {attrs : Attrs T N} (h : Exact rules attrs) {A : N} {t : T} :
    t ∈ attrs.first A ↔ Begins (productions rules) t [.nonterminal A] := by
  rw [← h.firstOf, Attrs.firstOf, Attrs.firstOf, Finset.union_empty, ite_self]

theorem computeFirstOfNonterminals_ends {ε : Type*} {attrs : Attrs T N}
    (hnull : NullableExact rules attrs) (hfirst : attrs.first = fun _ => ∅) :
    ∃ attrs', Ends (computeFirstOfNonterminals (ε := ε) rules · attrs) (.ok attrs') ∧
      Exact rules attrs' := by
  have hstep : ∀ rule ∈ rules, ∀ attrs, Sound rules attrs →
      Sound rules (attrs.updateFirst rule.lhs rule.rhs).1 := fun rule hr attrs h =>
    updateFirst_sound (fun t ht => begins_nonterminal.2 ⟨_, production_mem hr, rfl, ht⟩) h
  obtain ⟨attrs', hends, hsound, hquiet⟩ := ends_settle_pass (ε := ε)
    (f := fun (rule : Rule T N) (attrs : Attrs T N) => attrs.updateFirst rule.lhs rule.rhs)
    (fun rule attrs h => (updateFirst_quiet h).1) (l := rules) (I := Sound rules)
    (m := fun attrs => (notFirst rules attrs).card) hstep
    (fun rule hr attrs hs h => updateFirst_measure hr (hstep rule hr attrs hs) h)
    (s := attrs) ⟨hnull, fun A t ht => by simp [hfirst] at ht⟩
  exact ⟨attrs', hends, hsound.nullable, fun u t => mem_firstOf_iff hsound hquiet⟩

theorem steady_computeFirstOfNonterminals {ε : Type*} (attrs : Attrs T N) :
    Steady (computeFirstOfNonterminals (ε := ε) rules · attrs) :=
  steady_settle (fun _ => steady_done _) attrs

theorem analyse_ends {ε : Type*} :
    ∃ attrs : Attrs T N, Ends (analyse (ε := ε) rules) (.ok attrs) ∧ Exact rules attrs := by
  obtain ⟨attrs, hnull, hexact, hfirst⟩ : ∃ attrs : Attrs T N,
    Ends (computeNullable (ε := ε) rules · .new) (.ok attrs) ∧ NullableExact rules attrs ∧
      attrs.first = fun _ => ∅ := computeNullable_ends
  obtain ⟨attrs', hends, hexact'⟩ := computeFirstOfNonterminals_ends hexact hfirst
  exact ⟨attrs', (ends_bind (steady_computeNullable _) steady_computeFirstOfNonterminals).2
    (.inl ⟨attrs, hnull, hends⟩), hexact'⟩

/-- The analyses end, in the nonterminals that derive the empty string and the terminals that begin
a string derived from a nonterminal; and from every position of a right-hand side on they tell
whether the rest of it derives the empty string, and what begins the strings it derives. -/
theorem analyse_exact (rules : List (Rule T N)) :
    ∃ attrs : Attrs T N, Ends (analyse (ε := Empty) rules) (.ok attrs) ∧
      (∀ A, attrs.nullable A = true ↔ Derives (productions rules) [.nonterminal A] []) ∧
      (∀ A t, t ∈ attrs.first A ↔
        ∃ w, Derives (productions rules) [.nonterminal A] (.terminal t :: w)) ∧
      ∀ rule ∈ rules, ∀ pos ≤ rule.rhs.length,
        (attrs.nullableFrom rule pos = true ↔
          Derives (productions rules) (rule.rhs.drop pos) []) ∧
        ∀ t, t ∈ attrs.computeFirstOfRule rule pos ↔
          ∃ w, Derives (productions rules) (rule.rhs.drop pos) (.terminal t :: w) := by
  obtain ⟨attrs, hends, hexact⟩ : ∃ attrs : Attrs T N,
    Ends (analyse (ε := Empty) rules) (.ok attrs) ∧ Exact rules attrs := analyse_ends
  refine ⟨attrs, hends, fun A => ?_, fun A t => ?_, fun rule _ pos _ => ⟨?_, fun t => ?_⟩⟩
  · rw [← vanishes_iff, ← hexact.nullable]
    simp [Attrs.symNullable]
  · rw [← begins_iff, hexact.first]
  · rw [← vanishes_iff]
    exact hexact.nullable _
  · rw [← begins_iff]
    exact hexact.firstOf _ t

end First

end Yog.Lalr
