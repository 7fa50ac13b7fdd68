import Yog.Lib.Passes
import Yog.Proofs.Flow

/-!
# The evaluation of expressions

What is emitted for an expression jumps only inside itself and leaves one value, so control goes
through the code of an expression that is made of others as it goes through theirs, one after
another (`Evaluates`). Nothing is said of what the instructions do with their operands but how many
they leave.
-/

namespace Yog

open Emission (each)
open StackCode

theorem typesNode_visitor (env : YogEnv) : ∀ fuel, TypesNode (visitor env fuel)
  | 0 => ⟨fun _ _ _ => .fail⟩
  | fuel + 1 => ⟨fun ctx e hk => (typesNode_visitor env fuel).compileVisitExpr ctx e hk⟩

section Visited

variable {v : Visitor} {ctx : Ctx} {e : Expr} {l : List Inst} {d d' : Nat}

/-- What a computation emits takes the stack from one depth to another and does not jump out. -/
theorem Types.closed {α : Type} {x : Compile α} (hx : Types True True False [] [] d d' x)
    {s s' : CompileData} {a : α} (h : x s = .ok (a, l, s')) : instCode.Closed l := by
  intro L hL
  exact ((hx s a l s' h).dests L hL).resolve_right (by simp)

theorem Types.typed {α : Type} {x : Compile α} (hx : Types True True False [] [] d d' x)
    {s s' : CompileData} {a : α} (h : x s = .ok (a, l, s')) :
    ∃ env : Label → Nat, instCode.Typed env l d d' := by
  obtain ⟨f, hf⟩ := (hx s a l s' h).typed trivial
  exact ⟨f, (hf f (fun _ _ _ => rfl) (by simp)).1⟩

/-- The list is what a visit of the expression emits. -/
def Visited (v : Visitor) (ctx : Ctx) (e : Expr) (l : List Inst) : Prop :=
  ∃ s s', v.node ctx e s = .ok ((), l, s')

theorem Visited.closed (hv : TypesNode v) (h : Visited v ctx e l) : instCode.Closed l := by
  obtain ⟨s, s', h⟩ := h
  exact (hv.node (d := 0) ctx e nofun).closed h

theorem Visited.typed (hv : TypesNode v) (h : Visited v ctx e l) :
    ∃ env : Label → Nat, instCode.Typed env l 0 1 := by
  obtain ⟨s, s', h⟩ := h
  exact (hv.node (d := 0) ctx e nofun).typed h

end Visited

section Evaluates

variable {V : Type} (leaves : Inst → List V → List V → Prop) (list : List Inst) (v : Visitor)
  (ctx : Ctx)

/-- Control goes through the codes of the expressions one after another, and each of them leaves its
value. -/
inductive Evaluates : List Inst → List Expr → List V → List V → List Nat → List Inst → Prop where
  | nil {before stack} : Evaluates before [] stack [] [] []
  | cons {before e es stack value values qs rs code codes} : Visited v ctx e code →
      Pass instCode leaves list before code stack qs (value :: stack) →
      Evaluates (before ++ code) es (value :: stack) values rs codes →
      Evaluates before (e :: es) stack (value :: values) (qs ++ rs) (code ++ codes)

variable {leaves list v ctx} {before l : List Inst} {stack stack' : List V} {ps : List Nat}

/-- The values are as many as the expressions. -/
theorem Evaluates.length {es : List Expr} {values : List V} {codes : List Inst}
    (h : Evaluates leaves list v ctx before es stack values ps codes) :
    values.length = es.length := by
  induction h with
  | nil => rfl
  | cons _ _ _ ih => simp [ih]

theorem closed_each (hv : TypesNode v) : ∀ {es : List Expr} {s s' : CompileData} {l : List Inst},
    each (v.node ctx) es s = .ok ((), l, s') → instCode.Closed l := by
  intro es s s' l h
  exact (hv.eachNode (d := 0) ctx es nofun).closed h

/-- A pass through the code of one expression. -/
theorem Visited.pass (hv : TypesNode v) {e : Expr}
    (hleaves : ∀ i popped pushed, leaves i popped pushed → pushed.length = instCode.pushes i)
    (h : Visited v ctx e l) (hn : (instCode.labels list).Nodup)
    (hp : Pass instCode leaves list before l stack ps stack') :
    ∃ value, stack' = value :: stack := by
  obtain ⟨env, ht⟩ := h.typed hv
  obtain ⟨own, rfl, hlen⟩ := hp.own hn (h.closed hv) hleaves ht
  obtain ⟨value, rfl⟩ := List.length_eq_one_iff.1 hlen
  exact ⟨value, rfl⟩

theorem Evaluates.one {e : Expr} {value : V} (h : Visited v ctx e l)
    (hp : Pass instCode leaves list before l stack ps (value :: stack)) :
    Evaluates leaves list v ctx before [e] stack [value] ps l := by
  simpa using Evaluates.cons h hp .nil

theorem Evaluates.two {e e' : Expr} {l' : List Inst} {ps' : List Nat} {value value' : V}
    (h : Visited v ctx e l) (hp : Pass instCode leaves list before l stack ps (value :: stack))
    (h' : Visited v ctx e' l')
    (hp' : Pass instCode leaves list (before ++ l) l' (value :: stack) ps'
      (value' :: value :: stack)) :
    Evaluates leaves list v ctx before [e, e'] stack [value, value'] (ps ++ ps') (l ++ l') :=
  .cons h hp (.one h' hp')

/-- A pass through the codes of expressions evaluates them in order. -/
theorem evaluates_of_pass (hv : TypesNode v)
    (hleaves : ∀ i popped pushed, leaves i popped pushed → pushed.length = instCode.pushes i) :
    ∀ {es : List Expr} {s s' : CompileData} {before l : List Inst} {stack stack' : List V}
      {ps : List Nat}, each (v.node ctx) es s = .ok ((), l, s') →
      (instCode.labels list).Nodup →
      Pass instCode leaves list before l stack ps stack' →
      ∃ values, Evaluates leaves list v ctx before es stack values ps l ∧
        stack' = values.reverse ++ stack
  | [], s, s', before, l, stack, stack', ps, h, hn, hp => by
    obtain ⟨-, rfl, rfl⟩ := Emission.pure_eq_ok.1 h
    obtain ⟨rfl, rfl⟩ := hp.nil
    exact ⟨[], .nil, rfl⟩
  | e :: es, s, s', before, l, stack, stack', ps, h, hn, hp => by
    obtain ⟨u, l₁, s₁, l₂, h₁, h₂, rfl⟩ := Emission.bind_eq_ok.1 h
    have hvis : Visited v ctx e l₁ := ⟨s, s₁, h₁⟩
    obtain ⟨qs, rs, mid, rfl, hp₁, hp₂⟩ := hp.split hn (hvis.closed hv) (closed_each hv h₂)
    obtain ⟨value, rfl⟩ := hvis.pass hv hleaves hn hp₁
    obtain ⟨values, heval, rfl⟩ := evaluates_of_pass hv hleaves h₂ hn hp₂
    exact ⟨value :: values, .cons hvis hp₁ heval, by simp⟩

end Evaluates

end Yog
