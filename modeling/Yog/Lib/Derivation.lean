import Mathlib.Computability.ContextFreeGrammar

/-!
# Strings that derive the empty one and terminals that begin derived strings

Derivations with a list of context-free rules, and the two notions of a grammar tool that are least
fixed points of its rules: the strings that derive the empty string (`Vanishes`), and the terminals
that begin a string a string derives (`Begins`). A derived string is one of terminals and
nonterminals.
-/

open Relation

namespace Derivation

variable {T N : Type*} {rules : List (ContextFreeRule T N)} {u v : List (Symbol T N)}

variable (rules) in
/-- Rewrite one nonterminal. -/
def Produces (u v : List (Symbol T N)) : Prop := ∃ r ∈ rules, r.Rewrites u v

variable (rules) in
abbrev Derives (u v : List (Symbol T N)) : Prop := ReflTransGen (Produces rules) u v

theorem Derives.append_right (h : Derives rules u v) (q : List (Symbol T N)) :
    Derives rules (u ++ q) (v ++ q) :=
  h.lift (· ++ q) fun _ _ ⟨r, hr, hrw⟩ => ⟨r, hr, hrw.append_right q⟩

theorem Derives.of_rule {r : ContextFreeRule T N} (hr : r ∈ rules) (h : Derives rules r.output v) :
    Derives rules [.nonterminal r.input] v :=
  .head ⟨r, hr, .input_output⟩ h

variable (rules) in
/-- Every symbol is a nonterminal with a right-hand side that vanishes. -/
inductive Vanishes : List (Symbol T N) → Prop
  | nil : Vanishes []
  | cons {r : ContextFreeRule T N} {v : List (Symbol T N)} :
      r ∈ rules → Vanishes r.output → Vanishes v → Vanishes (.nonterminal r.input :: v)

variable (rules) in
/-- The terminal stands first, behind nonterminals that vanish, in the string or in a right-hand side
of its first nonterminal that stays. -/
inductive Begins (t : T) : List (Symbol T N) → Prop
  | terminal {v : List (Symbol T N)} : Begins t (.terminal t :: v)
  | skip {A : N} {v : List (Symbol T N)} :
      Vanishes rules [.nonterminal A] → Begins t v → Begins t (.nonterminal A :: v)
  | enter {r : ContextFreeRule T N} {v : List (Symbol T N)} :
      r ∈ rules → Begins t r.output → Begins t (.nonterminal r.input :: v)

theorem Vanishes.append (hu : Vanishes rules u) (hv : Vanishes rules v) :
    Vanishes rules (u ++ v) := by
  induction hu with
  | nil => exact hv
  | cons hr hout _ _ ih => exact .cons hr hout ih

theorem Vanishes.of_append (h : Vanishes rules (u ++ v)) : Vanishes rules u ∧ Vanishes rules v := by
  induction u with
  | nil => exact ⟨.nil, h⟩
  | cons s u ih =>
    cases h with
    | cons hr hout hrest =>
      obtain ⟨hu, hv⟩ := ih hrest
      exact ⟨.cons hr hout hu, hv⟩

theorem vanishes_append : Vanishes rules (u ++ v) ↔ Vanishes rules u ∧ Vanishes rules v :=
  ⟨Vanishes.of_append, fun h => h.1.append h.2⟩

theorem vanishes_cons {s : Symbol T N} :
    Vanishes rules (s :: v) ↔ Vanishes rules [s] ∧ Vanishes rules v :=
  vanishes_append (u := [s])

theorem vanishes_singleton {A : N} :
    Vanishes rules [.nonterminal A] ↔ ∃ r ∈ rules, r.input = A ∧ Vanishes rules r.output := by
  constructor
  · intro h
    cases h with
    | cons hr hout _ => exact ⟨_, hr, rfl, hout⟩
  · rintro ⟨r, hr, rfl, hout⟩
    exact .cons hr hout .nil

theorem vanishes_iff_forall : Vanishes rules u ↔ ∀ s ∈ u, Vanishes rules [s] := by
  induction u with
  | nil => simp [Vanishes.nil]
  | cons s u ih => rw [vanishes_cons, ih, List.forall_mem_cons]

theorem Vanishes.derives (h : Vanishes rules u) : Derives rules u [] := by
  induction h with
  | nil => rfl
  | @cons r v hr hout hv ihout ihv =>
    have hfirst : Derives rules ([.nonterminal r.input] ++ v) ([] ++ v) :=
      (Derives.of_rule hr ihout).append_right v
    exact hfirst.trans ihv

/-- A step backwards keeps a string vanishing. -/
theorem Vanishes.of_produces (hp : Produces rules u v) (h : Vanishes rules v) :
    Vanishes rules u := by
  obtain ⟨r, hr, hrw⟩ := hp
  obtain ⟨p, q, rfl, rfl⟩ := hrw.exists_parts
  simp only [vanishes_append] at h ⊢
  exact ⟨⟨h.1.1, .cons hr h.1.2 .nil⟩, h.2⟩

theorem vanishes_iff : Vanishes rules u ↔ Derives rules u [] := by
  refine ⟨Vanishes.derives, fun h => ?_⟩
  induction h using ReflTransGen.head_induction_on with
  | refl => exact .nil
  | head hp _ ih => exact ih.of_produces hp

theorem Begins.append_right {t : T} (h : Begins rules t u) (v : List (Symbol T N)) :
    Begins rules t (u ++ v) := by
  induction h with
  | terminal => exact .terminal
  | skip hA _ ih => exact .skip hA ih
  | enter hr hout _ => exact .enter hr hout

theorem Begins.append_left {t : T} (hu : Vanishes rules u) (h : Begins rules t v) :
    Begins rules t (u ++ v) := by
  induction hu with
  | nil => exact h
  | cons hr hout _ _ ih => exact .skip (.cons hr hout .nil) ih

theorem begins_append {t : T} :
    Begins rules t (u ++ v) ↔ Begins rules t u ∨ (Vanishes rules u ∧ Begins rules t v) := by
  constructor
  · intro h
    induction u with
    | nil => exact .inr ⟨.nil, h⟩
    | cons s u ih =>
      cases h with
      | terminal => exact .inl .terminal
      | enter hr hout => exact .inl (.enter hr hout)
      | skip hA hrest =>
        rcases ih hrest with hu | ⟨hu, hv⟩
        · exact .inl (.skip hA hu)
        · exact .inr ⟨vanishes_cons.2 ⟨hA, hu⟩, hv⟩
  · rintro (h | ⟨hu, hv⟩)
    · exact h.append_right v
    · exact hv.append_left hu

theorem begins_nonterminal {t : T} {A : N} :
    Begins rules t [.nonterminal A] ↔ ∃ r ∈ rules, r.input = A ∧ Begins rules t r.output := by
  constructor
  · intro h
    cases h with
    | skip _ h => cases h
    | enter hr hout => exact ⟨_, hr, rfl, hout⟩
  · rintro ⟨r, hr, rfl, hout⟩
    exact .enter hr hout

/-- A terminal that begins a derived string stands in the string or in a right-hand side. -/
theorem Begins.mem {t : T} (h : Begins rules t u) :
    .terminal t ∈ u ∨ ∃ r ∈ rules, .terminal t ∈ r.output := by
  induction h with
  | terminal => exact .inl List.mem_cons_self
  | skip _ _ ih => exact ih.imp_left (List.mem_cons_of_mem _)
  | enter hr _ ih => exact .inr (ih.elim (fun h => ⟨_, hr, h⟩) id)

theorem Begins.derives {t : T} (h : Begins rules t u) :
    ∃ w, Derives rules u (.terminal t :: w) := by
  induction h with
  | @terminal v => exact ⟨v, .refl⟩
  | @skip A v hA _ ih =>
    obtain ⟨w, hw⟩ := ih
    have hfirst : Derives rules ([.nonterminal A] ++ v) ([] ++ v) := hA.derives.append_right v
    exact ⟨w, hfirst.trans hw⟩
  | @enter r v hr _ ih =>
    obtain ⟨w, hw⟩ := ih
    exact ⟨w ++ v, (Derives.of_rule hr hw).append_right v⟩

/-- A step backwards keeps what begins a string. -/
theorem Begins.of_produces {t : T} (hp : Produces rules u v) (h : Begins rules t v) :
    Begins rules t u := by
  obtain ⟨r, hr, hrw⟩ := hp
  obtain ⟨p, q, rfl, rfl⟩ := hrw.exists_parts
  simp only [begins_append, vanishes_append] at h ⊢
  rcases h with (h | ⟨hp, h⟩) | ⟨⟨hp, hout⟩, h⟩
  · exact .inl (.inl h)
  · exact .inl (.inr ⟨hp, .enter hr h⟩)
  · exact .inr ⟨⟨hp, .cons hr hout .nil⟩, h⟩

theorem begins_iff {t : T} : Begins rules t u ↔ ∃ w, Derives rules u (.terminal t :: w) := by
  refine ⟨Begins.derives, ?_⟩
  rintro ⟨w, h⟩
  induction h using ReflTransGen.head_induction_on with
  | refl => exact .terminal
  | head hp _ ih => exact ih.of_produces hp

end Derivation
