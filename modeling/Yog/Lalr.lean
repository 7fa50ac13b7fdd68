import Mathlib.Data.Finset.Basic
import Yog.Lib.Derivation
import Yog.Lib.Saturation

/-!
# The grammar analyses of the parser generator

`bin/lalr1gram.yog`: which nonterminals are nullable and which terminals begin what they derive. A
rule, an object that is compared by identity, is known by its number. The attributes the tool keeps
in the nonterminals are functions of these.
-/

namespace Yog.Lalr

open Saturation

variable {T N : Type} [DecidableEq T] [DecidableEq N]

/-- `Rule`, as far as the analyses read it. -/
structure Rule (T N : Type) where
  id : ℕ
  lhs : N
  rhs : List (Symbol T N)
  deriving DecidableEq

omit [DecidableEq T] [DecidableEq N] in
/-- The rule as one of a context-free grammar. -/
def Rule.production (rule : Rule T N) : ContextFreeRule T N := ⟨rule.lhs, rule.rhs⟩

/-- `nullable?` and `first` of the nonterminals. -/
@[ext]
structure Attrs (T N : Type) where
  nullable : N → Bool
  first : N → Finset T

/-- `NonTerminal#init`. -/
def Attrs.new : Attrs T N := ⟨fun _ => false, fun _ => ∅⟩

namespace Attrs

variable (attrs : Attrs T N)

/-- `sym.kind_of?(NonTerminal) && sym.nullable?` -/
def symNullable : Symbol T N → Bool
  | .terminal _ => false
  | .nonterminal A => attrs.nullable A

/-- Add terminals to the set of a nonterminal, and whether one of them is new. -/
def addFirst (lhs : N) (terms : Finset T) : Attrs T N × Bool :=
  if terms ⊆ attrs.first lhs then (attrs, false)
  else ({ attrs with first := Function.update attrs.first lhs (attrs.first lhs ∪ terms) }, true)

/-- The rules of one round of `compute_nullable`. -/
def updateNullable (rule : Rule T N) : Attrs T N × Bool :=
  if !rule.rhs.all attrs.symNullable || attrs.nullable rule.lhs then (attrs, false)
  else ({ attrs with nullable := Function.update attrs.nullable rule.lhs true }, true)

/-- The loop of `compute_first_of_nonterminals` over a right-hand side. -/
def updateFirst (lhs : N) : List (Symbol T N) → Attrs T N → Attrs T N × Bool
  | [], attrs => (attrs, false)
  | .terminal term :: _, attrs => attrs.addFirst lhs {term}
  | .nonterminal sym :: rest, attrs =>
    let (attrs, updated) := attrs.addFirst lhs (attrs.first sym)
    if attrs.nullable sym then
      let (attrs, updated') := updateFirst lhs rest attrs
      (attrs, updated || updated')
    else (attrs, updated)

/-- What `compute_first_of_rule` gathers from the rest of a right-hand side. -/
def firstOf : List (Symbol T N) → Finset T
  | [] => ∅
  | .terminal term :: _ => {term}
  | .nonterminal sym :: rest =>
    if attrs.nullable sym then attrs.first sym ∪ firstOf rest else attrs.first sym

/-- `compute_first_of_rule` -/
def computeFirstOfRule (rule : Rule T N) (pos : ℕ) : Finset T := attrs.firstOf (rule.rhs.drop pos)

/-- `nullable?` of a rule from a position on. -/
def nullableFrom (rule : Rule T N) (pos : ℕ) : Bool := (rule.rhs.drop pos).all attrs.symNullable

end Attrs

variable {ε : Type*} (rules : List (Rule T N))

/-- `compute_nullable` -/
def computeNullable : ℕ → Attrs T N → Partial ε (Attrs T N) :=
  settle fun _ attrs => pure (pass (fun rule attrs => attrs.updateNullable rule) rules attrs)

/-- `compute_first_of_nonterminals` -/
def computeFirstOfNonterminals : ℕ → Attrs T N → Partial ε (Attrs T N) :=
  settle fun _ attrs => pure (pass (fun rule => Attrs.updateFirst rule.lhs rule.rhs) rules attrs)

/-- The analyses, as `main` makes them for the symbols the parser has created. -/
def analyse (fuel : ℕ) : Partial ε (Attrs T N) := do
  let attrs ← computeNullable rules fuel .new
  computeFirstOfNonterminals rules fuel attrs

end Yog.Lalr
