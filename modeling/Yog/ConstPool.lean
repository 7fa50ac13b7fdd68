import Yog.IntegerText
import Yog.Table
import Yog.YogString

/-!
# The constants of a body

The table of `register_const` and the array `table2array` makes of it. The table compares its keys
by their method `==` and hashes them by their method `hash`, so both are given here for what a
program text can hold: a number is written without a sign, and a regular expression or a compiled
body is an object of its own.
-/

namespace Yog

namespace Double

def isNaN (f : UInt64) : Prop := 2047 * 2 ^ 52 < f.toNat % 2 ^ 63

instance (f : UInt64) : Decidable (isNaN f) := inferInstanceAs (Decidable (_ < _))

/-- What orders the doubles: the bits but the sign, and the sign of them. -/
def rank (f : UInt64) : Int :=
  if f.toNat < 2 ^ 63 then (f.toNat : Int) else - (f.toNat % 2 ^ 63 : Nat)

/-- `YogFloat_binop_ufo` of two doubles: nothing is less than or equal to what is no number. -/
def ufo (f g : UInt64) : Int :=
  if ¬ isNaN f ∧ ¬ isNaN g ∧ rank f < rank g then -1
  else if ¬ isNaN f ∧ ¬ isNaN g ∧ rank f = rank g then 0
  else 1

/-- The doubles that digits spell. -/
def Spelt (f : UInt64) : Prop := f.toNat < 2 ^ 63 ∧ ¬ isNaN f

instance (f : UInt64) : Decidable (Spelt f) := inferInstanceAs (Decidable (_ ∧ _))

end Double

/-- A value that is registered as a constant. -/
inductive Literal where
  /-- In the representation an integer is read in. -/
  | integer (n : Integer) (normal : n = .ofInt n.toInt)
  | float (f : UInt64) (spelt : Double.Spelt f)
  | string (s : List YogChar)
  | symbol (id : UInt64)
  | nil
  | bool (b : Bool)
  /-- A `Regexp`, a body or a class, which one it is. -/
  | object (id : Nat)
  deriving DecidableEq

namespace Literal

/-- `<=>`, of the classes that have it. -/
def ufo : Literal → Literal → Option Int
  | .integer n _, .integer m _ => n.ufo m
  | .float f _, .float g _ => some (Double.ufo f g)
  | .string s, .string t => some (YogString.ufo s t)
  | _, _ => none

/-- `==`: that of `Comparable` asks `<=>`, that of `Symbol` and of `Object` compares words. -/
def equal : Literal → Literal → Bool
  | .nil, .nil => true
  | .symbol a, .symbol b => a = b
  | .bool a, .bool b => a = b
  | .object a, .object b => a = b
  | self, obj => self.ufo obj = some 0

/-- `YogString_hash` -/
def stringHash (s : List YogChar) : Int :=
  let val := s.foldl (fun val c => wrap (wrap (val * 997) + c.val)) 0
  wrap (val + val >>> 5)

variable (floatHash : UInt64 → Int) (objectHash : Nat → Int)

/-- `hash`. That of a `Float` is a product of doubles brought into an `int_t`, which C leaves open
for the large ones; that of an object is made of the number it was given. -/
def hash : Literal → Int
  | .integer (.fixnum n) _ => n.toInt
  | .integer (.bignum n) _ => (int2val (stringHash n.toS)).toInt
  | .float f _ => floatHash f
  | .string s => (int2val (stringHash s)).toInt
  | .symbol id => (int2val id.toNat).toInt
  | .nil => 2
  | .bool b => if b then 1 else 0
  | .object id => objectHash id

/-- `type_val` -/
def typeVal : HashType Literal where
  compare := equal
  hash l := (l.hash floatHash objectHash % 2 ^ 64).toNat

end Literal

namespace ConstPool

variable {K : Type} (type : HashType K)

/-- `const2index`, which is made for the first constant. -/
def const2indexOf : Option (Table K Nat) → Except TableError (Table K Nat)
  | none => Table.stInitTable type
  | some t => .ok t

/-- `register_const`, with the table that is left. -/
def registerConst (const2index : Option (Table K Nat)) (const : K) :
    Except TableError (Table K Nat × Nat) := do
  let t ← const2indexOf type const2index
  match t.lookup const with
  | none =>
    let size := t.numEntries
    return (← t.addDirect const size, size)
  | some index => return (t, index)

/-- The literals of a body, one after the other, with the indices they are given. -/
def registerAll (const2index : Option (Table K Nat)) :
    List K → Except TableError (Option (Table K Nat) × List Nat)
  | [] => .ok (const2index, [])
  | const :: consts => do
    let (t, index) ← registerConst type const2index const
    let (const2index, indices) ← registerAll (some t) consts
    return (const2index, index :: indices)

/-- `YogTable_foreach` of a callback that always goes on. -/
def foreach {σ : Type} (f : σ → K → Nat → σ) (t : Table K Nat) (arg : σ) : σ :=
  t.bins.foldl (fun arg chain => chain.foldl (fun arg e => f arg e.key e.record) arg) arg

/-- `table2array_count_index` -/
def countIndex (arg : Int) (_ : K) (value : Nat) : Int := if arg < value then value else arg

/-- `table2array_fill_array` -/
def fillArray (arg : List (Option K)) (key : K) (value : Nat) : List (Option K) :=
  arg.set value (some key)

/-- `table2array`; an item that is not filled is `none`, and so is the array where it is nil. -/
def table2array : Option (Table K Nat) → Option (List (Option K))
  | none => none
  | some t =>
    let index := foreach countIndex t (- 2 ^ 31)
    if 0 ≤ index then some (foreach fillArray t (List.replicate (index + 1).toNat none))
    else none

/-- What `PUSH_CONST` of an index pushes. -/
def constAt (consts : Option (List (Option K))) (index : Nat) : Option K :=
  consts.bind fun items => items[index]?.join

end ConstPool

end Yog
