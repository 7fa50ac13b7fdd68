import Yog.Lib.Partial
import Yog.TextEncoding

/-!
# The `peg` package

Patterns of `lib/peg.yog` over strings and arrays. A regular expression is known by where its matches
end; `match` asks it for its method `=~`, which only a string has. The blocks of custom patterns and
actions are called with values and may raise. The loop of an at-least pattern has no bound, so that
`match` is given fuel.
-/

namespace Yog

namespace Peg

/-- The values of inputs and matches; `O` are the objects that are neither strings nor arrays. -/
inductive Value (O : Type)
  | string (s : List YogChar)
  | array (a : List (Value O))
  | object (o : O)

inductive Input (O : Type)
  | string (s : List YogChar)
  | array (a : List (Value O))

/-- `X` are the exceptions of the blocks. -/
inductive Raised (X : Type)
  | attributeError
  | typeError
  | syntaxError
  | block (x : X)

/-- `matchAt s i` is where the match that starts at `i` ends. -/
structure Regexp where
  matchAt : List YogChar → ℕ → Option ℕ
  bounds : ∀ {s i j}, matchAt s i = some j → i ≤ j ∧ j ≤ s.length

variable {O X : Type}

namespace Input

def size : Input O → ℕ
  | .string s => s.length
  | .array a => a.length

/-- `a[0]` and `a.slice(1)`, if the size is not 0. -/
def next : Input O → Option (Value O × Input O)
  | .string [] => none
  | .string (c :: s) => some (.string [c], .string s)
  | .array [] => none
  | .array (v :: a) => some (v, .array a)

end Input

/-- `Array#+` and `String#+` -/
def Value.add : Value O → Value O → Except (Raised X) (Value O)
  | .array a, .array b => .ok (.array (a ++ b))
  | .string s, .string t => .ok (.string (s ++ t))
  | .object _, _ => .error .attributeError
  | _, _ => .error .typeError

/-- The arguments of a call with `*v`. -/
def Value.splat : Value O → Except (Raised X) (List (Value O))
  | .array a => .ok a
  | _ => .error .typeError

inductive Pattern (O X : Type)
  | string (e : List YogChar)
  | regexp (e : Regexp)
  | scalar (e : Value O)
  | custom (e : Value O) (block : Value O → Value O → Except (Raised X) Bool)
  | serial (e1 e2 : Pattern O X)
  | choice (e1 e2 : Pattern O X)
  | atMost (pat : Pattern O X) (n : ℕ)
  | atLeast (pat : Pattern O X) (n : ℕ)
  | action (pat : Pattern O X) (block : List (Value O) → Except (Raised X) (Value O))

structure Match (O : Type) where
  matched : Value O
  rest : Input O

namespace Pattern

/-- `kind_of?(SerialPattern)` -/
def isSerial : Pattern O X → Bool
  | .serial _ _ => true
  | _ => false

/-- `can_accept_empty_array?` -/
def canAcceptEmptyArray : Pattern O X → Bool
  | .string e => e.length = 0
  | .regexp _ => false
  | .scalar _ => false
  | .custom _ _ => false
  | .serial e1 e2 => e1.canAcceptEmptyArray && e2.canAcceptEmptyArray
  | .choice e1 e2 => e1.canAcceptEmptyArray || e2.canAcceptEmptyArray
  | .atMost _ _ => true
  | .atLeast pat n => pat.canAcceptEmptyArray || n = 0
  | .action pat _ => pat.canAcceptEmptyArray

/-- `pat ^ n`, and `AtLeastPattern.init` -/
def hat (pat : Pattern O X) (n : ℤ) : Except (Raised X) (Pattern O X) :=
  if n < 0 then .ok (.atMost pat (-n).toNat)
  else if pat.canAcceptEmptyArray then .error .syntaxError
  else .ok (.atLeast pat n.toNat)

/-- The patterns a program can construct. -/
inductive Built : Pattern O X → Prop
  | string (e) : Built (.string e)
  | regexp (e) : Built (.regexp e)
  | scalar (e) : Built (.scalar e)
  | custom (e block) : Built (.custom e block)
  | serial {e1 e2} : Built e1 → Built e2 → Built (.serial e1 e2)
  | choice {e1 e2} : Built e1 → Built e2 → Built (.choice e1 e2)
  | hat {pat p} (n : ℤ) : Built pat → pat.hat n = .ok p → Built p
  | action {pat} (block) : Built pat → Built (.action pat block)

end Pattern

/-- `StringPattern.match` -/
def matchString (e : List YogChar) : Input O → Except (Raised X) (Option (Match O))
  | .string s =>
    if s.take e.length = e then .ok (some ⟨.string (s.take e.length), .string (s.drop e.length)⟩)
    else .ok none
  | .array _ => .error .attributeError

/-- `RegexpPattern.match`. The left side of `self.e =~ s` has to have the method, and no `Regexp`
has. -/
def matchRegexp (_ : Regexp) (_ : Input O) : Except (Raised X) (Option (Match O)) :=
  .error .attributeError

/-- `ScalarPattern.match`; `ne` is `!=`. -/
def matchScalar (ne : Value O → Value O → Bool) (e : Value O) (a : Input O) :
    Except (Raised X) (Option (Match O)) :=
  match a.next with
  | none => .ok none
  | some (v, rest) => if ne v e then .ok none else .ok (some ⟨v, rest⟩)

/-- `CustomPattern.match` -/
def matchCustom (block : Value O → Value O → Except (Raised X) Bool) (e : Value O) (a : Input O) :
    Except (Raised X) (Option (Match O)) :=
  match a.next with
  | none => .ok none
  | some (v, rest) => do
    let accepted ← block e v
    if accepted then .ok (some ⟨v, rest⟩) else .ok none

/-- What `SerialPattern.match` makes of the two matched values. -/
def join (e1 e2 : Pattern O X) (matched1 matched2 : Value O) : Except (Raised X) (Value O) :=
  if e1.isSerial then
    if e2.isSerial then matched1.add matched2 else matched1.add (.array [matched2])
  else if e2.isSerial then Value.add (.array [matched1]) matched2
  else .ok (.array [matched1, matched2])

/-- What `Action.match` calls the block with. -/
def arguments (pat : Pattern O X) (matched : Value O) : Except (Raised X) (List (Value O)) :=
  if pat.isSerial then matched.splat else .ok [matched]

section Loops

variable (body : Input O → Partial (Raised X) (Option (Match O)))

/-- The loop of `AtMostPattern.match` -/
def atMostLoop : ℕ → List (Value O) → Input O → Partial (Raised X) (Option (Match O))
  | 0, matched, rest => .done (.ok (some ⟨.array matched, rest⟩))
  | n + 1, matched, rest => do
    match ← body rest with
    | none => .done (.ok (some ⟨.array matched, rest⟩))
    | some m => atMostLoop n (matched ++ [m.matched]) m.rest

/-- The second loop of `AtLeastPattern.match`, for as many rounds as there is fuel. -/
def loop : ℕ → List (Value O) → Input O → Partial (Raised X) (Option (Match O))
  | 0, _, _ => .running
  | fuel + 1, matched, rest => do
    match ← body rest with
    | none => .done (.ok (some ⟨.array matched, rest⟩))
    | some m => loop fuel (matched ++ [m.matched]) m.rest

/-- The two loops of `AtLeastPattern.match` -/
def atLeastLoop (fuel : ℕ) :
    ℕ → List (Value O) → Input O → Partial (Raised X) (Option (Match O))
  | 0, matched, rest => loop body fuel matched rest
  | n + 1, matched, rest => do
    match ← body rest with
    | none => .done (.ok none)
    | some m => atLeastLoop fuel n (matched ++ [m.matched]) m.rest

end Loops

variable (ne : Value O → Value O → Bool)

/-- `match` -/
def matchPat (fuel : ℕ) : Pattern O X → Input O → Partial (Raised X) (Option (Match O))
  | .string e, x => .done (matchString e x)
  | .regexp e, x => .done (matchRegexp e x)
  | .scalar e, x => .done (matchScalar ne e x)
  | .custom e block, x => .done (matchCustom block e x)
  | .serial e1 e2, x => do
    match ← matchPat fuel e1 x with
    | none => .done (.ok none)
    | some m1 =>
      match ← matchPat fuel e2 m1.rest with
      | none => .done (.ok none)
      | some m2 =>
        let matched ← Partial.done (join e1 e2 m1.matched m2.matched)
        .done (.ok (some ⟨matched, m2.rest⟩))
  | .choice e1 e2, x => do
    match ← matchPat fuel e1 x with
    | some m => .done (.ok (some m))
    | none => matchPat fuel e2 x
  | .atMost pat n, x =>
    if x.size = 0 then .done (.ok (some ⟨.array [], x⟩))
    else atMostLoop (matchPat fuel pat) n [] x
  | .atLeast pat n, x =>
    if n = 0 ∧ x.size = 0 then .done (.ok (some ⟨.array [], x⟩))
    else atLeastLoop (matchPat fuel pat) fuel n [] x
  | .action pat block, x => do
    match ← matchPat fuel pat x with
    | none => .done (.ok none)
    | some m =>
      let args ← Partial.done (arguments pat m.matched)
      let value ← Partial.done (block args)
      .done (.ok (some ⟨value, m.rest⟩))

/-- What `match` comes to, whether it returns or raises. -/
def Ends (p : Pattern O X) (x : Input O) (r : Except (Raised X) (Option (Match O))) : Prop :=
  Partial.Ends (fun fuel => matchPat ne fuel p x) r

end Peg

end Yog
