import Mathlib.Data.Int.Bitwise
import Mathlib.Tactic.Ring

/-!
# Integers: `Fixnum` and `Bignum`

An `int_t` is the integer it holds; an operation on words is the operation on integers brought back
into 64 bits by `wrap`. A magnitude (`BIGD`) is a natural number and its routines are exact on it.
Of the types a right operand may have the integers are modelled here, so an operator of
`fixnum.c` and of `bignum.c` branches on the representation of that operand only.
-/

namespace Yog

/-- The `int_t` that an operation with the exact result `n` leaves. -/
def wrap (n : Int) : Int := n.bmod (2 ^ 64)

/-- The C `int` that an `int_t` is cut to where one is passed. -/
def toCInt (n : Int) : Int := n.bmod (2 ^ 32)

def longMin : Int := -2 ^ 63

def longMax : Int := 2 ^ 63 - 1

def yintMin : Int := -2 ^ 62

def yintMax : Int := 2 ^ 62 - 1

/-- `FIXABLE` -/
def Fixable (n : Int) : Prop := yintMin ≤ n ∧ n ≤ yintMax

instance (n : Int) : Decidable (Fixable n) := inferInstanceAs (Decidable (_ ∧ _))

/-- A `YogVal` with the tag of a Fixnum; the field is its `VAL2INT`. -/
@[ext]
structure Fixnum where
  toInt : Int
  fixable : Fixable toInt
deriving DecidableEq

theorem fixable_bmod (n : Int) : Fixable (n.bmod (2 ^ 63)) := by
  have h₁ := Int.le_bmod (x := n) (m := 2 ^ 63) (by decide)
  have h₂ := Int.bmod_lt (x := n) (m := 2 ^ 63) (by decide)
  unfold Fixable yintMin yintMax
  omega

/-- `INT2VAL` drops the top bit of the word. -/
def int2val (n : Int) : Fixnum := ⟨n.bmod (2 ^ 63), fixable_bmod n⟩

inductive Sign
  | pos
  | neg
deriving DecidableEq, Repr

def Sign.negate : Sign → Sign
  | .pos => .neg
  | .neg => .pos

def Sign.toInt : Sign → Int
  | .pos => 1
  | .neg => -1

/-- `YogBignum`: the magnitude and the sign. Nothing keeps a zero or a small one out. -/
@[ext]
structure Bignum where
  num : Nat
  sign : Sign
deriving DecidableEq, Repr

def Bignum.toInt (b : Bignum) : Int := b.sign.toInt * b.num

/-- An integer of the language, in either representation. -/
inductive Integer
  | fixnum (n : Fixnum)
  | bignum (b : Bignum)
deriving DecidableEq

def Integer.toInt : Integer → Int
  | .fixnum n => n.toInt
  | .bignum b => b.toInt

/-- The representation an integer should have: a Fixnum when it is in the range of one. -/
def Integer.ofInt (z : Int) : Integer :=
  if h : Fixable z then .fixnum ⟨z, h⟩
  else .bignum ⟨z.natAbs, if z < 0 then .neg else .pos⟩

/-- No Bignum stands for an integer in the range of a Fixnum. -/
def Integer.Canonical : Integer → Prop
  | .fixnum _ => True
  | .bignum b => ¬ Fixable b.toInt

inductive IntError
  | zeroDivisionError (message : String)
  | typeError (message : String)
  /-- The division of two words that the machine refuses. -/
  | sigfpe
deriving DecidableEq, Repr

/-- `bdSetShort`: the word is read as an unsigned digit. -/
def bdSetShort (n : Int) : Nat := (n % 2 ^ 64).toNat

/-- `YogBignum_from_int` -/
def Bignum.fromInt (n : Int) : Bignum :=
  if n < 0 then ⟨bdSetShort (wrap (-n)), .neg⟩ else ⟨bdSetShort n, .pos⟩

/-- `YogVal_from_int` -/
def Integer.fromInt (n : Int) : Integer :=
  if Fixable n then .fixnum (int2val n) else .bignum (.fromInt n)

/-- What `strtol` makes of the decimal text of `z`. -/
def strtolOf (z : Int) : Int := if z < longMin then longMin else if longMax < z then longMax else z

/-- `normalize` -/
def Bignum.normalize (self : Bignum) : Integer :=
  if Fixable (strtolOf self.toInt) then .fixnum (int2val (strtolOf self.toInt)) else .bignum self

/-- `add_two_bignum`; where the left one alone is negative the call is made again the other way
around. -/
def Bignum.addTwoBignum (self n : Bignum) : Integer :=
  let (left, right) := if self.sign = .neg ∧ n.sign = .pos then (n, self) else (self, n)
  if left.sign = right.sign then .bignum ⟨left.num + right.num, left.sign⟩
  else if left.num < right.num then Bignum.normalize ⟨right.num - left.num, .neg⟩
  else Bignum.normalize ⟨left.num - right.num, .pos⟩

/-- `YogBignum_binop_add` -/
def Bignum.binopAdd (self : Bignum) : Integer → Integer
  | .fixnum n => self.addTwoBignum (.fromInt n.toInt)
  | .bignum n => self.addTwoBignum n

/-- `YogBignum_binop_subtract` -/
def Bignum.binopSubtract (self : Bignum) : Integer → Integer
  | .fixnum n => self.addTwoBignum ⟨(fromInt n.toInt).num, (fromInt n.toInt).sign.negate⟩
  | .bignum n => self.addTwoBignum ⟨n.num, n.sign.negate⟩

/-- The Bignum branch of `YogBignum_binop_multiply`; the sign is the one of a new Bignum. -/
def Bignum.multiplyBignum (self n : Bignum) : Bignum := ⟨self.num * n.num, .pos⟩

/-- `YogBignum_binop_multiply`; a Fixnum on the right is handed to `YogFixnum_binop_multiply`, which
makes it a Bignum on the left. -/
def Bignum.binopMultiply (self : Bignum) : Integer → Integer
  | .fixnum n => .bignum ((fromInt n.toInt).multiplyBignum self)
  | .bignum n => .bignum (self.multiplyBignum n)

/-- `negative` of `bignum.c` -/
def Bignum.negative (self : Bignum) : Integer := .bignum ⟨self.num, self.sign.negate⟩

/-- `YogFixnum_binop_add` -/
def Fixnum.binopAdd (self : Fixnum) : Integer → Integer
  | .fixnum n => .fromInt (wrap (self.toInt + n.toInt))
  | .bignum n => n.binopAdd (.fixnum self)

/-- `YogFixnum_binop_subtract` -/
def Fixnum.binopSubtract (self : Fixnum) : Integer → Integer
  | .fixnum n => .fromInt (wrap (self.toInt - n.toInt))
  | .bignum n => (Bignum.fromInt self.toInt).binopSubtract (.bignum n)

/-- `multiply_int` -/
def Fixnum.multiplyInt (self right : Fixnum) : Integer :=
  let n := self.toInt
  if n = 0 then .fixnum (int2val 0)
  else
    let m := right.toInt
    let l := wrap (n * m)
    if l.tdiv n = m ∧ Fixable l then .fixnum (int2val l)
    else (Bignum.fromInt n).binopMultiply (.fixnum right)

/-- `YogFixnum_binop_multiply` -/
def Fixnum.binopMultiply (self : Fixnum) : Integer → Integer
  | .fixnum n => self.multiplyInt n
  | .bignum n => (Bignum.fromInt self.toInt).binopMultiply (.bignum n)

/-- `negative` of `fixnum.c` -/
def Fixnum.negative (self : Fixnum) : Integer := .fixnum (int2val (wrap (-self.toInt)))

/-- `div` of the C library, on `int`s. -/
def cDiv (n m : Int) : Except IntError (Int × Int) :=
  if m = 0 ∨ (n = -2 ^ 31 ∧ m = -1) then throw .sigfpe else pure (n.tdiv m, n.tmod m)

/-- `floor_divide_int` -/
def floorDivideInt (n m : Int) : Except IntError Int := do
  if m = 0 then throw (.zeroDivisionError "Fixnum division by zero")
  let (quot, rem) ← cDiv (toCInt n) (toCInt m)
  if (rem < 0 ∧ 0 < m) ∨ (0 < rem ∧ m < 0) then return quot - 1
  return quot

/-- `floor_divide_bignum_without_normailzing` -/
def Bignum.floorDivideWithoutNormalizing (self right : Bignum) : Except IntError Bignum :=
  if right.num = 0 then throw (.zeroDivisionError "Bignum division by zero")
  else if self.sign = right.sign then pure ⟨self.num / right.num, .pos⟩
  else pure ⟨self.num / right.num + 1, .neg⟩

/-- `floor_divide_bignum` -/
def Bignum.floorDivideBignum (self right : Bignum) : Except IntError Integer := do
  let val ← self.floorDivideWithoutNormalizing right
  return val.normalize

/-- `YogBignum_binop_floor_divide` -/
def Bignum.binopFloorDivide (self : Bignum) : Integer → Except IntError Integer
  | .fixnum n => self.floorDivideBignum (.fromInt n.toInt)
  | .bignum n => self.floorDivideBignum n

/-- `denormalize_to_bignum` -/
def Integer.denormalizeToBignum : Integer → Bignum
  | .fixnum n => .fromInt n.toInt
  | .bignum b => b

/-- `YogBignum_modulo` -/
def Bignum.modulo (self : Bignum) (n : Integer) : Except IntError Integer := do
  let div ← self.floorDivideWithoutNormalizing n.denormalizeToBignum
  return self.binopSubtract (div.binopMultiply n)

/-- `YogFixnum_binop_floor_divide` -/
def Fixnum.binopFloorDivide (self : Fixnum) : Integer → Except IntError Integer
  | .fixnum n => do return .fixnum (int2val (← floorDivideInt self.toInt n.toInt))
  | .bignum n => (Bignum.fromInt self.toInt).binopFloorDivide (.bignum n)

/-- `YogFixnum_binop_modulo` -/
def Fixnum.binopModulo (self : Fixnum) : Integer → Except IntError Integer
  | .fixnum n =>
    if n.toInt = 0 then throw .sigfpe else pure (.fixnum (int2val (self.toInt.tmod n.toInt)))
  | .bignum n => (Bignum.fromInt self.toInt).modulo (.bignum n)

/-- A bitwise operator of C on two words. -/
def onWords (f : BitVec 64 → BitVec 64 → BitVec 64) (n m : Int) : Int :=
  (f (BitVec.ofInt 64 n) (BitVec.ofInt 64 m)).toInt

/-- `or_bignum` -/
def Bignum.orBignum (self n : Bignum) : Integer := .bignum ⟨self.num ||| n.num, .pos⟩

/-- `xor_bignum` -/
def Bignum.xorBignum (self n : Bignum) : Integer := Bignum.normalize ⟨self.num ^^^ n.num, .pos⟩

/-- `and_bignum` -/
def Bignum.andBignum (self n : Bignum) : Integer := Bignum.normalize ⟨self.num &&& n.num, .pos⟩

/-- `YogBignum_binop_or` -/
def Bignum.binopOr (self : Bignum) : Integer → Integer
  | .fixnum n => self.orBignum (.fromInt n.toInt)
  | .bignum n => self.orBignum n

/-- `YogBignum_binop_xor` -/
def Bignum.binopXor (self : Bignum) : Integer → Integer
  | .fixnum n => self.xorBignum (.fromInt n.toInt)
  | .bignum n => self.xorBignum n

/-- `YogBignum_binop_and` -/
def Bignum.binopAnd (self : Bignum) : Integer → Integer
  | .fixnum n => self.andBignum (.fromInt n.toInt)
  | .bignum n => self.andBignum n

/-- `not` of `bignum.c` -/
def Bignum.not (self : Bignum) : Integer := .bignum ⟨self.num + 1, self.sign.negate⟩

/-- `YogFixnum_binop_or` -/
def Fixnum.binopOr (self : Fixnum) : Integer → Integer
  | .fixnum n => .fixnum (int2val (onWords (· ||| ·) self.toInt n.toInt))
  | .bignum n => n.binopOr (.fixnum self)

/-- `YogFixnum_binop_xor` -/
def Fixnum.binopXor (self : Fixnum) : Integer → Integer
  | .fixnum n => .fixnum (int2val (onWords (· ^^^ ·) self.toInt n.toInt))
  | .bignum n => n.binopXor (.fixnum self)

/-- `YogFixnum_binop_and` -/
def Fixnum.binopAnd (self : Fixnum) : Integer → Integer
  | .fixnum n => .fixnum (int2val (onWords (· &&& ·) self.toInt n.toInt))
  | .bignum n => n.binopAnd (.fixnum self)

/-- `not` of `fixnum.c` -/
def Fixnum.not (self : Fixnum) : Integer := .fixnum (int2val (~~~ (BitVec.ofInt 64 self.toInt)).toInt)

/-- `YogBignum_lshift` -/
def Bignum.lshift (self : Bignum) (width : Nat) : Integer := .bignum ⟨self.num <<< width, self.sign⟩

/-- `YogBignum_rshift` -/
def Bignum.rshift (self : Bignum) (width : Nat) : Integer :=
  if self.sign = .neg then .bignum ⟨(self.num >>> width) + 1, self.sign⟩
  else .bignum ⟨self.num >>> width, self.sign⟩

/-- `YogBignum_binop_rshift` -/
def Bignum.binopRshift (self : Bignum) (n : Fixnum) : Integer :=
  if 0 < n.toInt then self.rshift n.toInt.toNat else self.lshift (-n.toInt).toNat

/-- `YogBignum_binop_lshift` -/
def Bignum.binopLshift (self : Bignum) (n : Fixnum) : Integer :=
  if 0 < n.toInt then self.lshift n.toInt.toNat else self.rshift (-n.toInt).toNat

/-- `do_rshift` -/
def doRshift (val : Int) (width : Nat) : Integer :=
  if width < 64 then .fixnum (int2val (val >>> width)) else .fixnum (int2val 0)

/-- `do_lshift` -/
def doLshift (val : Int) (width : Nat) : Integer :=
  let result := wrap (val * 2 ^ width)
  if width < 64 ∧ result >>> width = val ∧ Fixable result then .fixnum (int2val result)
  else (Bignum.fromInt val).lshift width

/-- `YogFixnum_binop_rshift` -/
def Fixnum.binopRshift (self n : Fixnum) : Integer :=
  if 0 < n.toInt then doRshift self.toInt n.toInt.toNat else doLshift self.toInt (-n.toInt).toNat

/-- `YogFixnum_binop_lshift` -/
def Fixnum.binopLshift (self n : Fixnum) : Integer :=
  if 0 < n.toInt then doLshift self.toInt n.toInt.toNat else doRshift self.toInt (-n.toInt).toNat

/-- The products of `YogBignum_power`, as many as the last argument says. -/
def powerNum (m num : Nat) : Nat → Nat
  | 0 => num
  | i + 1 => powerNum m (num * m) i

/-- `YogBignum_clone`; the sign is the one of a new Bignum. -/
def Bignum.clone (self : Bignum) : Bignum := ⟨self.num, .pos⟩

/-- `YogBignum_power`; `none` is a Float. -/
def Bignum.power (self : Bignum) (exp : Int) : Option Integer :=
  if exp < 0 then none
  else if exp = 0 then some (.fixnum (int2val 1))
  else some (.bignum ⟨powerNum self.num self.clone.num (exp.toNat - 1), self.clone.sign⟩)

/-- The loop of `power_int`, as many rounds as the last argument says; `none` where the product
does not fit and the power is computed over again on Bignums. -/
def powerLoop (base x : Int) : Nat → Option Int
  | 0 => some x
  | y + 1 =>
    let x2 := wrap (x * base)
    if ¬ Fixable x2 ∨ (x ≠ 0 ∧ x2.tdiv x ≠ base) then none else powerLoop base x2 y

/-- `power_int`; `none` is a Float. -/
def powerInt (base exp : Int) : Except IntError (Option Integer) :=
  if exp < 0 then
    if base = 0 then throw (.zeroDivisionError "0.0 cannot be raised to a negative power")
    else pure none
  else if exp = 0 then pure (some (.fixnum (int2val 1)))
  else
    match powerLoop base base (exp.toNat - 1) with
    | some x => pure (some (.fixnum (int2val x)))
    | none => pure ((Bignum.fromInt base).power exp)

/-- `YogFixnum_binop_ufo`; `none` is nil. -/
def Fixnum.binopUfo (self : Fixnum) : Integer → Option Int
  | .fixnum n =>
    let m := wrap (self.toInt - n.toInt)
    if m < 0 then some (-1) else if m = 0 then some 0 else some 1
  | .bignum _ => none

/-- `YogBignum_binop_ufo` on two Bignums. -/
def Bignum.ufoBignum (self n : Bignum) : Int :=
  if self.sign.toInt < n.sign.toInt then -1
  else if n.sign.toInt < self.sign.toInt then 1
  else if self.num < n.num then -self.sign.toInt
  else if self.num = n.num then 0
  else self.sign.toInt

/-- `YogBignum_binop_ufo` -/
def Bignum.binopUfo (self : Bignum) : Integer → Option Int
  | .fixnum n => some (self.ufoBignum (.fromInt n.toInt))
  | .bignum n => some (self.ufoBignum n)

namespace Integer

def add : Integer → Integer → Integer
  | .fixnum self => self.binopAdd
  | .bignum self => self.binopAdd

def subtract : Integer → Integer → Integer
  | .fixnum self => self.binopSubtract
  | .bignum self => self.binopSubtract

def multiply : Integer → Integer → Integer
  | .fixnum self => self.binopMultiply
  | .bignum self => self.binopMultiply

def negative : Integer → Integer
  | .fixnum self => self.negative
  | .bignum self => self.negative

/-- `positive` -/
def positive (self : Integer) : Integer := self

def floorDivide : Integer → Integer → Except IntError Integer
  | .fixnum self => self.binopFloorDivide
  | .bignum self => self.binopFloorDivide

def modulo : Integer → Integer → Except IntError Integer
  | .fixnum self => self.binopModulo
  | .bignum self => self.modulo

def or : Integer → Integer → Integer
  | .fixnum self => self.binopOr
  | .bignum self => self.binopOr

def xor : Integer → Integer → Integer
  | .fixnum self => self.binopXor
  | .bignum self => self.binopXor

def and : Integer → Integer → Integer
  | .fixnum self => self.binopAnd
  | .bignum self => self.binopAnd

def not : Integer → Integer
  | .fixnum self => self.not
  | .bignum self => self.not

def lshift : Integer → Fixnum → Integer
  | .fixnum self => self.binopLshift
  | .bignum self => self.binopLshift

def rshift : Integer → Fixnum → Integer
  | .fixnum self => self.binopRshift
  | .bignum self => self.binopRshift

/-- `**` with a Fixnum on the right. -/
def power : Integer → Fixnum → Except IntError (Option Integer)
  | .fixnum self, n => powerInt self.toInt n.toInt
  | .bignum self, n => pure (self.power n.toInt)

/-- `<=>` -/
def ufo : Integer → Integer → Option Int
  | .fixnum self => self.binopUfo
  | .bignum self => self.binopUfo

def className : Integer → String
  | .fixnum _ => "Fixnum"
  | .bignum _ => "Bignum"

/-- `check_comparison_result` -/
def checkComparisonResult (left right : Integer) : Option Int → Except IntError Int
  | some n => pure n
  | none => throw (.typeError
    ("Comparison of " ++ left.className ++ " with " ++ right.className ++ " failed"))

/-- `do_less` on what `<=>` gave. -/
def less (left right : Integer) : Except IntError Bool := do
  let n ← checkComparisonResult left right (left.ufo right)
  return n < 0

/-- `do_greater` -/
def greater (left right : Integer) : Except IntError Bool := do
  let n ← checkComparisonResult left right (left.ufo right)
  return 0 < n

/-- `do_less_equal` -/
def lessEqual (left right : Integer) : Except IntError Bool := do
  let n ← checkComparisonResult left right (left.ufo right)
  return n ≤ 0

/-- `do_greater_equal` -/
def greaterEqual (left right : Integer) : Except IntError Bool := do
  let n ← checkComparisonResult left right (left.ufo right)
  return 0 ≤ n

/-- `do_equal` -/
def equal (left right : Integer) : Bool :=
  match left.ufo right with
  | none => false
  | some n => n = 0

/-- `do_not_equal` -/
def notEqual (left right : Integer) : Bool :=
  match left.ufo right with
  | none => true
  | some n => n ≠ 0

end Integer

end Yog
