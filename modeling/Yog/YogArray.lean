import Mathlib.Data.List.Basic

/-!
# Arrays

The arrays of `array.c`. A body has as many items as were allocated and is not shared, so it is part
of its array; arrays themselves are objects, and are named by their places in a store. What is not
an item of a body is out of bounds: a write there is an error of its own, which the code does not
raise.

An exception leaves the array as it is where it is raised.
-/

namespace Yog

inductive ArrayError where
  | indexError (fmt : String) (args : List Int)
  | typeError (msg : String)
  /-- `YOG_ASSERT` fails. -/
  | assertion
  /-- An item outside a body is read or written without a check. -/
  | outside
  deriving DecidableEq

/-- The exceptions a script can catch. -/
def ArrayError.Raised : ArrayError → Prop
  | .indexError _ _ | .typeError _ => True
  | .assertion | .outside => False

structure YogArray (V : Type) where
  size : Nat
  body : List V

namespace YogArray

variable {V : Type}

/-- `items[i]` of a body. -/
def item (body : List V) (i : Nat) : Except ArrayError V :=
  match body[i]? with
  | some v => .ok v
  | none => .error .outside

/-- `items[i] = v` -/
def setItem (body : List V) (i : Nat) (v : V) : Except ArrayError (List V) :=
  if i < body.length then .ok (body.set i v) else .error .outside

/-- `YogValArray_at` -/
def valArrayAt (body : List V) (n : Nat) : Except ArrayError V :=
  match body[n]? with
  | some v => .ok v
  | none => .error .assertion

/-- `YogValArray_new` -/
def valArrayNew (nil : V) (size : Nat) : List V := List.replicate size nil

/-- `multiple_size`. A ratio above one reaches the size in no more steps than it is. -/
def multipleSize (minSize ratio : Nat) : Nat → Nat → Nat
  | 0, curSize => curSize
  | fuel + 1, curSize =>
    if curSize < minSize then multipleSize minSize ratio fuel (curSize * ratio) else curSize

/-- `get_next_size` -/
def getNextSize (minSize curSize ratio : Nat) : Nat :=
  if curSize = 0 then 1 else multipleSize minSize ratio minSize curSize

/-- `copy_body` between two bodies. -/
def copyBody (new old : List V) (size offset : Nat) : Except ArrayError (List V) :=
  (List.range size).foldlM (fun new i => do setItem new (offset + i) (← item old i)) new

variable (nil undef : V)

def increaseRatio : Nat := 2

/-- `ensure_body_size` -/
def ensureBodySize (a : YogArray V) (size : Nat) : Except ArrayError (YogArray V) :=
  if a.body.length < size then do
    let newSize := getNextSize size a.body.length increaseRatio
    let body ← copyBody (valArrayNew nil newSize) a.body a.size 0
    return { a with body }
  else return a

/-- `YogArray_push` -/
def push (a : YogArray V) (val : V) : Except ArrayError (YogArray V) := do
  let a ← ensureBodySize nil a (a.size + 1)
  let body ← setItem a.body a.size val
  return { size := a.size + 1, body }

/-- `YogArray_of_size` -/
def ofSize (size : Nat) : YogArray V := { size := 0, body := valArrayNew nil size }

/-- `YogArray_new` -/
def new : YogArray V := ofSize nil 1

/-- `YogArray_add` to an array that is not the other. -/
def add (self array : YogArray V) : Except ArrayError (YogArray V) :=
  (List.range array.size).foldlM (fun self i => do push nil self (← valArrayAt array.body i)) self

/-- The loop of `make_array`, over what is popped: the last item is popped first. -/
def makeArrayLoop (body : List V) : List V → Except ArrayError (List V)
  | [] => .ok body
  | v :: vs => do makeArrayLoop (← setItem body vs.length v) vs

/-- The instruction `make_array`, of the operands from the bottom. -/
def makeArray (vals : List V) : Except ArrayError (YogArray V) := do
  let array := ofSize nil vals.length
  let body ← makeArrayLoop array.body vals.reverse
  return { size := vals.length, body }

/-- What a method returns or raises, and the array it leaves. -/
abbrev Outcome (V α : Type) := Except ArrayError α × YogArray V

/-- An array that a function changes and returns nothing of. -/
def updated (a : YogArray V) : Except ArrayError (YogArray V) → Outcome V Unit
  | .ok a' => (.ok (), a')
  | .error e => (.error e, a)

/-- `YogArray_pop` -/
def pop (a : YogArray V) : Outcome V V :=
  if a.size < 1 then (.error (.indexError "pop from empty list" []), a)
  else match valArrayAt a.body (a.size - 1) with
    | .ok v => (.ok v, { a with size := a.size - 1 })
    | .error e => (.error e, a)

/-- The loop of `YogArray_shift`. -/
def shiftLoop (body : List V) (n : Nat) : Except ArrayError (List V) :=
  (List.range n).foldlM (fun body i => do setItem body i (← valArrayAt body (i + 1))) body

/-- `YogArray_shift`, of an array that is not empty. -/
def shiftItems (a : YogArray V) : Except ArrayError (V × YogArray V) := do
  let v ← valArrayAt a.body 0
  let body ← shiftLoop a.body (a.size - 1)
  let body ← setItem body (a.size - 1) undef
  return (v, { size := a.size - 1, body })

/-- The method `shift`. -/
def shift (a : YogArray V) : Outcome V V :=
  if a.size < 1 then (.error (.indexError "shift from empty array" []), a)
  else match shiftItems undef a with
    | .ok (v, a') => (.ok v, a')
    | .error e => (.error e, a)

/-- The loop of `unshift`, from the top. -/
def unshiftLoop (body : List V) : Nat → Except ArrayError (List V)
  | 0 => .ok body
  | i + 1 => do unshiftLoop (← setItem body (i + 1) (← valArrayAt body i)) i

/-- The method `unshift`. -/
def unshift (a : YogArray V) (obj : V) : Except ArrayError (YogArray V) := do
  let a ← ensureBodySize nil a (a.size + 1)
  let body ← unshiftLoop a.body a.size
  let body ← setItem body 0 obj
  return { size := a.size + 1, body }

/-- `normalize_index`, which both subscripts compute. -/
def normalizeIndex (a : YogArray V) (index : Int) : Int :=
  if 0 ≤ index then index else a.size + index

/-- `YogArray_subscript`; an index that is not a fixnum is `none`. -/
def subscript (a : YogArray V) : Option Int → Except ArrayError V
  | none => .error (.typeError "Index must be Fixnum")
  | some index =>
    let n := a.normalizeIndex index
    if n < 0 ∨ a.size ≤ n then .error (.indexError "Array index out of range" [])
    else valArrayAt a.body n.toNat

/-- `assign_subscript` -/
def assign (a : YogArray V) (index : Option Int) (val : V) : Outcome V Unit :=
  match index with
  | none => (.error (.typeError "index must be Fixnum"), a)
  | some index =>
    let n := a.normalizeIndex index
    if n < 0 ∨ a.size ≤ n then
      (.error (.indexError "Array assignment index (%d) out of range (%u)" [index, a.size]), a)
    else updated a (do return { a with body := ← setItem a.body n.toNat val })

/-- An array is named by its place. -/
abbrev Store (V : Type) := List (YogArray V)

inductive Op (V : Type) where
  | literal (vals : List V)
  | push (r : Nat) (val : V)
  | pop (r : Nat)
  | shift (r : Nat)
  | unshift (r : Nat) (obj : V)
  | subscript (r : Nat) (index : Option Int)
  | assign (r : Nat) (index : Option Int) (val : V)
  /-- `+`; an operand that is not an array is `none`. -/
  | add (r : Nat) (r' : Option Nat)

/-- What an operation returns. -/
inductive Result (V : Type) where
  | val (v : V)
  | array (r : Nat)
  deriving DecidableEq

def get (s : Store V) (r : Nat) : YogArray V := s.getD r (ofSize nil 0)

/-- The outcome of an operation on one array. -/
def onArray {α : Type} (s : Store V) (r : Nat) (result : α → Result V) (o : Outcome V α) :
    Except ArrayError (Result V) × Store V :=
  (result <$> o.1, s.set r o.2)

/-- A new array, if there is one. -/
def created (s : Store V) : Except ArrayError (YogArray V) →
    Except ArrayError (Result V) × Store V
  | .ok a => (.ok (.array s.length), s ++ [a])
  | .error e => (.error e, s)

def exec (s : Store V) : Op V → Except ArrayError (Result V) × Store V
  | .literal vals => created s (makeArray nil vals)
  | .push r val =>
    onArray s r (fun _ => .array r) (updated (get nil s r) (push nil (get nil s r) val))
  | .pop r => onArray s r .val (get nil s r).pop
  | .shift r => onArray s r .val (shift undef (get nil s r))
  | .unshift r obj =>
    onArray s r (fun _ => .array r) (updated (get nil s r) (unshift nil (get nil s r) obj))
  | .subscript r index => (.val <$> (get nil s r).subscript index, s)
  | .assign r index val => onArray s r (fun _ => .array r) ((get nil s r).assign index val)
  | .add _ none => (.error (.typeError "operand must be Array"), s)
  | .add r (some r') => created s (do add nil (← add nil (new nil) (get nil s r)) (get nil s r'))

/-- The store after operations on an empty one. -/
def run (ops : List (Op V)) : Store V := ops.foldl (fun s op => (exec nil undef s op).2) []

end YogArray

end Yog
