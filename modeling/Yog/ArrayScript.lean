import Yog.Integer
import Yog.Lib.Partial
import Yog.YogArray

/-!
# Arrays in the language

The part of `Array` that is written in the language itself: `slice`, `reduce` and `sort` of
`array.yog`, and `select` of `enumerable.yog`. An array is named by its place in the store, so that
what is done to it is seen by all who have it. A comparison is a function of two elements that
returns a number, or raises.
-/

namespace Yog.ArrayScript

open YogArray

variable {ε V : Type}

/-- What ends a method. -/
inductive ScriptError (ε : Type) where
  | array (e : ArrayError)
  /-- What a comparison raises. -/
  | raised (e : ε)
  /-- What an operator of numbers raises. -/
  | operator (e : IntError)

/-- A computation over the arrays there are. -/
abbrev Script (ε V α : Type) := StateT (Store V) (Partial (ScriptError ε)) α

section Primitives

variable (nil : V)

/-- A new array, behind those there are. -/
def create (array : Store V → Except ArrayError (YogArray V)) : Script ε V ℕ := fun s =>
  match array s with
  | .ok a => .done (.ok (s.length, s ++ [a]))
  | .error e => .done (.error (.array e))

/-- `[...]` -/
def literal (vals : List V) : Script ε V ℕ := create fun _ => makeArray nil vals

/-- `Array.new()` -/
def newArray : Script ε V ℕ := create fun _ => .ok (ofSize nil 0)

/-- `+` -/
def plus (self a : ℕ) : Script ε V ℕ :=
  create fun s => do add nil (← add nil (new nil) (get nil s self)) (get nil s a)

/-- `size` -/
def size (self : ℕ) : Script ε V ℕ := fun s => .done (.ok ((get nil s self).size, s))

/-- `self << elem` -/
def push (self : ℕ) (elem : V) : Script ε V Unit := fun s =>
  match YogArray.push nil (get nil s self) elem with
  | .ok a => .done (.ok ((), s.set self a))
  | .error e => .done (.error (.array e))

/-- `self[index]` -/
def subscript (self : ℕ) (index : Int) : Script ε V V := fun s =>
  match (get nil s self).subscript (some index) with
  | .ok v => .done (.ok (v, s))
  | .error e => .done (.error (.array e))

/-- What `each` hands to its block. -/
def item (self i : ℕ) : Script ε V V := fun s =>
  match valArrayAt (get nil s self).body i with
  | .ok v => .done (.ok (v, s))
  | .error e => .done (.error (.array e))

/-- A call of a function that touches no array. -/
def call {α : Type} (r : Except (ScriptError ε) α) : Script ε V α := fun s =>
  .done (r.map fun a => (a, s))

end Primitives

/-- A number that a comparison returns; of a Float only its side of zero. -/
inductive Number where
  | integer (n : Integer)
  | float (side : Ordering)

namespace Number

/-- The side of zero the number is on. -/
def side : Number → Ordering
  | integer n => compare n.toInt 0
  | float side => side

/-- `n <= 0` -/
def atMostZero : Number → Except IntError Bool
  | integer n => n.lessEqual (.fixnum (int2val 0))
  | float _ => throw (.typeError "Comparison of Float with Fixnum failed")

/-- `0 < n` -/
def aboveZero : Number → Except IntError Bool
  | integer n => Integer.less (.fixnum (int2val 0)) n
  | float _ => throw (.typeError "Comparison of Fixnum with Float failed")

end Number

/-- What a block of `sort` returns: the answer of an operator about what a comparison returned. -/
def ask (answer : Number → Except IntError Bool) (r : Except ε Number) :
    Except (ScriptError ε) Bool :=
  match r with
  | .ok n => (answer n).mapError .operator
  | .error e => .error (.raised e)

section Methods

variable (nil : V)

/-- The loop of `slice`, with the turns left. -/
def sliceLoop (self a : ℕ) (pos : Int) : ℕ → ℕ → Script ε V Unit
  | 0, _ => pure ()
  | n + 1, i => do
    push nil a (← subscript nil self (pos + i))
    sliceLoop self a pos n (i + 1)

/-- How many elements `slice` takes; without one it returns at once. -/
def sliceLength (len : Option Int) (maxLen : Int) : Option Int :=
  match len with
  | none => some maxLen
  | some len => if maxLen < len then some maxLen else if len < 0 then none else some len

/-- `slice` -/
def slice (self : ℕ) (pos : Int) (len : Option Int) : Script ε V ℕ := do
  let size ← size nil self
  if (size : Int) ≤ pos then literal nil []
  else
    let pos := if pos < 0 then size + pos else pos
    match sliceLength len (size - pos) with
    | none => literal nil []
    | some len => do
      let a ← literal nil []
      sliceLoop nil self a pos len.toNat 0
      return a

/-- `reduce` -/
def reduce {α : Type} (block : α → V → Script ε V α) : ℕ → α → ℕ → Script ε V α
  | 0, _, _ => fun _ => .running
  | fuel + 1, init, self => do
    if (← size nil self) = 0 then return init
    else
      let rest ← slice nil self 1 none
      let elem ← subscript nil self 0
      reduce block fuel (← block init elem) rest

/-- The loop of `select`, with the turns left. -/
def selectLoop (self a : ℕ) (block : V → Except (ScriptError ε) Bool) : ℕ → ℕ → Script ε V Unit
  | 0, _ => pure ()
  | n + 1, i => do
    let elem ← item nil self i
    if ← call (block elem) then push nil a elem
    selectLoop self a block n (i + 1)

/-- `select` -/
def select (self : ℕ) (block : V → Except (ScriptError ε) Bool) : Script ε V ℕ := do
  let a ← newArray nil
  selectLoop nil self a block (← size nil self) 0
  return a

/-- `sort`; without a block it calls itself with one that compares by `<=>`. -/
def sort (ufo : V → V → Except ε Number) :
    Option (V → V → Except ε Number) → ℕ → ℕ → Script ε V ℕ
  | _, 0, _ => fun _ => .running
  | none, fuel + 1, self => sort ufo (some ufo) fuel self
  | some block, fuel + 1, self => do
    if (← size nil self) < 1 then literal nil []
    else
      let pibot ← subscript nil self 0
      let rest ← slice nil self 1 none
      let a ← select nil rest fun elem => ask Number.atMostZero (block elem pibot)
      let b ← select nil rest fun elem => ask Number.aboveZero (block elem pibot)
      let sorted ← sort ufo (some block) fuel a
      let head ← plus nil sorted (← literal nil [pibot])
      plus nil head (← sort ufo (some block) fuel b)

end Methods

end Yog.ArrayScript
