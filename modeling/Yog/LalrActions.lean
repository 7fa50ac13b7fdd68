import Mathlib.Computability.ContextFreeGrammar
import Mathlib.Data.List.Range

/-!
# The actions the parser generator generates

`decide_arg_pos` and `decide_arg_names` of `bin/lalr1gram.yog`, and the generated `invoke`, which
calls the function of a rule with the values of its right-hand side. A symbol of the grammar is one
object for each of its names, so that two are the same object where kind and name agree.
-/

namespace Yog.Lalr

/-- `Rule`, as far as the call of its action goes. -/
structure ActionRule where
  rhs : List (Symbol String String)
  /-- The names that `name@symbol` gives, one entry for each symbol. -/
  «alias» : List (Option String)
  length_alias : «alias».length = rhs.length

/-- What `decide_arg_pos` keeps in its set: an alias is a symbol of the language, a grammar symbol
an object. -/
inductive ArgKey where
  | «alias» (name : String)
  | symbol (sym : Symbol String String)
  deriving DecidableEq

/-- `sym` of a grammar symbol. -/
def symName : Symbol String String → String
  | .terminal name => name
  | .nonterminal name => name

namespace ActionRule

variable (rule : ActionRule)

/-- The positions of the right-hand side. -/
def positions : List (Symbol String String × Option String) := rule.rhs.zip rule.«alias»

/-- `rule.alias[i] != nil ? rule.alias[i] : rule.rhs[i]` -/
def argKey : Symbol String String × Option String → ArgKey
  | (_, some name) => .«alias» name
  | (sym, none) => .symbol sym

/-- `rule.alias[i] != nil ? rule.alias[i] : rule.rhs[i].sym` -/
def argName : Symbol String String × Option String → String
  | (_, some name) => name
  | (sym, none) => symName sym

/-- The loop of `decide_arg_pos`. -/
def decideArgPosLoop : List (Symbol String String × Option String) → List ArgKey → List (Option ℕ)
  | [], _ => []
  | p :: rest, names =>
    if argKey p ∈ names then none :: decideArgPosLoop rest names
    else some names.length :: decideArgPosLoop rest (names ++ [argKey p])

/-- `decide_arg_pos` -/
def decideArgPos : List (Option ℕ) := decideArgPosLoop rule.positions []

/-- The loop of `decide_arg_names`. -/
def decideArgNamesLoop : List (Symbol String String × Option String) → List String → List String
  | [], _ => []
  | p :: rest, names =>
    if argName p ∈ names then decideArgNamesLoop rest names
    else argName p :: decideArgNamesLoop rest (names ++ [argName p])

/-- The parameter that is no position of the rule. -/
def dataName : String := "__data__"

/-- `decide_arg_names`: the parameters of the generated function. -/
def decideArgNames : List String := dataName :: decideArgNamesLoop rule.positions []

end ActionRule

/-- `pos[rule][index]` has no element. -/
inductive InvokeError where
  | indexError
  deriving DecidableEq

/-- The loop of the generated `invoke` over the values of a right-hand side. -/
def invokeLoop {V : Type} (pos : List (Option ℕ)) :
    List V → ℕ → List V → Except InvokeError (List V)
  | [], _, params => .ok params
  | arg :: args, index, params =>
    match pos[index]? with
    | none => .error .indexError
    | some none => invokeLoop pos args (index + 1) params
    | some (some _) => invokeLoop pos args (index + 1) (params ++ [arg])

/-- The arguments that the generated `invoke` passes to the function of a rule. -/
def invoke {V : Type} (rule : ActionRule) (args : List V) (data : V) :
    Except InvokeError (List V) := do
  let params ← invokeLoop rule.decideArgPos args 0 []
  return data :: params

end Yog.Lalr
