import Yog.YogString

/-!
# Printing

`to_s` of the arrays, dicts and sets, and `__recurse__` of `builtins.yog` under it. A thread keeps
a record of the containers that it is printing. What the elements print is a parameter: an
`inspect` may raise, may end in a jump to an outer function, for which no `finally` is run, and may
leave something behind in the record. The containers themselves stay as they are meanwhile.
-/

namespace Yog.Inspect

/-- What ends a call that does not return. -/
inductive Exit (E : Type) where
  | raised (e : E)
  /-- A break or a return of a block whose function is further out. -/
  | jumped
  deriving DecidableEq

inductive Kind where
  | array
  | dict
  | set
  deriving DecidableEq

/-- A container of those there are, or an object of another class. -/
inductive Value (A O : Type) where
  | container (a : A)
  | other (o : O)

inductive Body (A O : Type) where
  | array (elems : List (Value A O))
  | dict (pairs : List (Value A O × Value A O))
  | set (elems : List (Value A O))

structure World (A O E : Type) where
  body : A → Body A O
  /-- `inspect`, which may look at the record. -/
  inspect : O → List A → Except (Exit E) (List YogChar)
  /-- What `inspect` leaves on top of the record. -/
  leaves : O → List A → List A

/-- A computation over the record, if its fuel was enough. -/
def Run (A E α : Type) : Type := List A → Option (Except (Exit E) α × List A)

namespace Run

variable {A E α β : Type}

def andThen (f : Run A E α) (k : α → Run A E β) : Run A E β := fun r =>
  match f r with
  | none => none
  | some (.error e, r) => some (.error e, r)
  | some (.ok a, r) => k a r

instance : Monad (Run A E) where
  pure a := fun r => some (.ok a, r)
  bind := andThen

end Run

variable {A O E : Type}

def Body.kind : Body A O → Kind
  | .array _ => .array
  | .dict _ => .dict
  | .set _ => .set

open YogString (fromString)

/-- The loop of `join`. -/
def joinLoop (sep : List YogChar) : ℕ → List YogChar → List (List YogChar) → List YogChar
  | _, s, [] => s
  | i, s, elem :: elems => joinLoop sep (i + 1) ((if 0 < i then s ++ sep else s) ++ elem) elems

/-- `join` of strings. -/
def join (sep : List YogChar) (a : List (List YogChar)) : List YogChar := joinLoop sep 0 [] a

/-- The loop of `g` for an array and a set. -/
def inspectAll (inspect : Value A O → Run A E (List YogChar)) :
    List (Value A O) → Run A E (List (List YogChar))
  | [] => pure []
  | elem :: elems => do
    let s ← inspect elem
    let a ← inspectAll inspect elems
    return s :: a

/-- The loop of `g` for a dict. -/
def inspectPairs (inspect : Value A O → Run A E (List YogChar)) :
    List (Value A O × Value A O) → Run A E (List (List YogChar))
  | [] => pure []
  | (key, value) :: pairs => do
    let k ← inspect key
    let v ← inspect value
    let a ← inspectPairs inspect pairs
    return (k ++ fromString ": " ++ v) :: a

/-- `g` -/
def g (inspect : Value A O → Run A E (List YogChar)) : Body A O → Run A E (List YogChar)
  | .array elems => do
    let a ← inspectAll inspect elems
    return fromString "[" ++ join (fromString ", ") a ++ fromString "]"
  | .dict pairs => do
    let a ← inspectPairs inspect pairs
    return fromString "\x7b " ++ join (fromString ", ") a ++ fromString " \x7d"
  | .set elems => do
    let a ← inspectAll inspect elems
    return fromString "\x7b " ++ join (fromString ", ") a ++ fromString " \x7d"

/-- `f` -/
def f : Body A O → List YogChar
  | .array _ => fromString "[...]"
  | .dict _ | .set _ => fromString "\x7b...\x7d"

namespace World

variable [DecidableEq A] (w : World A O E)

/-- `include?`; two containers are equal if they are the same. -/
def includes (stack : List A) (obj : A) : Bool :=
  stack.any fun elem => (w.body elem).kind = (w.body obj).kind ∧ elem = obj

/-- `__recurse__`, whose `finally` is run after a return and after an exception. -/
def recurse (obj : A) (f : List YogChar) (g : Run A E (List YogChar)) : Run A E (List YogChar) :=
  fun stack =>
    if w.includes stack obj then some (.ok f, stack)
    else match g (stack ++ [obj]) with
      | none => none
      | some (.error .jumped, stack) => some (.error .jumped, stack)
      | some (.error (.raised e), stack) => some (.error (.raised e), stack.dropLast)
      | some (.ok retval, stack) => some (.ok retval, stack.dropLast)

/-- `inspect`, which is `to_s` of a container. -/
def inspectValue : ℕ → Value A O → Run A E (List YogChar)
  | _, .other o => fun stack => some (w.inspect o stack, stack ++ w.leaves o stack)
  | 0, .container _ => fun _ => none
  | fuel + 1, .container a =>
    w.recurse a (f (w.body a)) (g (inspectValue fuel) (w.body a))

end World

end Yog.Inspect
