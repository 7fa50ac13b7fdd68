import Yog.Integer
import Yog.Lib.Radix
import Yog.TextEncoding

/-!
# Integers as text

`to_s` of both classes of integers and `to_i` of a string. A buffer is modelled by the room that is
left in front of what was written; a write without room is an `overrun`.
-/

namespace Yog

/-- What stands for the conversion in the format of a message. -/
inductive FormatArg
  | none
  | string (s : List YogChar)
  | int (n : Int)
deriving DecidableEq

inductive TextError
  | valueError (fmt : String) (arg : FormatArg)
  /-- A write outside of the buffer. -/
  | overrun
deriving DecidableEq

def yogChar (c : Char) : YogChar := toYogChar c.toNat

/-- The digit of a remainder, from `0` to `9` and from `a` on. -/
def digitCode (mod : Nat) : Nat := if mod < 10 then 48 + mod else 97 + mod - 10

/-- The `do` loop of `to_s_internal`: it writes from the end of the buffer on. -/
def toSLoop (radix : Nat) : Nat → Nat → List Byte → Except TextError (Nat × List Byte)
  | 0, _, _ => throw .overrun
  | room + 1, num, buffer =>
    let buffer := toByte (digitCode (num % radix)) :: buffer
    if num / radix = 0 then pure (room, buffer) else toSLoop radix room (num / radix) buffer

/-- `to_s_internal`; the last of the 31 bytes is the terminator. -/
def toSInternal (self : Int) (radix : Nat) : Except TextError (List YogChar) := do
  let (room, buffer) ← toSLoop radix 30 self.natAbs []
  if self < 0 then
    if room = 0 then throw .overrun
    return utf8.convToYog (toByte '-'.toNat :: buffer)
  return utf8.convToYog buffer

/-- `to_s` of `fixnum.c`, the radix left out or given. -/
def Fixnum.toS (self : Fixnum) : Option Int → Except TextError (List YogChar)
  | none => toSInternal self.toInt 10
  | some radix =>
    if radix < 2 ∨ 36 < radix then
      throw (.valueError "radix must be in range from 2 to 36, not %d" (.int radix))
    else toSInternal self.toInt radix.toNat

/-- `bdConvToDecimal` -/
def bdConvToDecimal (n : Nat) : List Byte := (Lib.written 10 n).map fun d => toByte (digitCode d)

/-- `conv_to_decimal`, into a buffer of the size `compute_needed_size` counts. -/
def Bignum.convToDecimal (n : Bignum) : List Byte :=
  if n.sign = .neg then toByte '-'.toNat :: bdConvToDecimal n.num else bdConvToDecimal n.num

/-- `YogBignum_to_s`; `to_s` of `bignum.c` takes no radix. -/
def Bignum.toS (self : Bignum) : List YogChar := utf8.convToYog self.convToDecimal

def isAlpha (c : Nat) : Prop := (65 ≤ c ∧ c ≤ 90) ∨ (97 ≤ c ∧ c ≤ 122)

instance (c : Nat) : Decidable (isAlpha c) := inferInstanceAs (Decidable (_ ∨ _))

def isDigit (c : Nat) : Prop := 48 ≤ c ∧ c ≤ 57

instance (c : Nat) : Decidable (isDigit c) := inferInstanceAs (Decidable (_ ∧ _))

def toLower (c : YogChar) : YogChar :=
  if 65 ≤ c.val ∧ c.val ≤ 90 then toYogChar (c.val + 32) else c

def isSpace (c : Nat) : Prop := c = 32 ∨ (9 ≤ c ∧ c ≤ 13)

instance (c : Nat) : Decidable (isSpace c) := inferInstanceAs (Decidable (_ ∨ _))

/-- The value of a digit or letter. -/
def digitValue (b : Nat) : Option Nat :=
  if isDigit b then some (b - 48)
  else if 65 ≤ b ∧ b ≤ 90 then some (b - 55)
  else if 97 ≤ b ∧ b ≤ 122 then some (b - 87)
  else none

/-- A digit to the base. -/
def digitOf (base : Nat) (b : Byte) : Option Nat := (digitValue b.val).filter (· < base)

/-- The value of the digits at the head, on top of `v`, and what follows them. -/
def takeDigits (base : Nat) : Nat → List Byte → Nat × List Byte
  | v, [] => (v, [])
  | v, b :: rest =>
    match digitOf base b with
    | some d => takeDigits base (v * base + d) rest
    | none => (v, b :: rest)

structure Strtol where
  value : Int
  /-- Where `endptr` points. -/
  rest : List Byte
  erange : Bool

/-- `strtol` with a base from 2 to 36. -/
def strtol (s : List Byte) (base : Nat) : Strtol :=
  let t := s.dropWhile fun b => isSpace b.val
  let negative := t.head?.any fun b => b.val = '-'.toNat
  let signed := t.head?.any fun b => b.val = '-'.toNat ∨ b.val = '+'.toNat
  let t := if signed then t.tail else t
  let hex := base = 16 ∧ byteAt t 0 = '0'.toNat ∧ (byteAt t 1 = 'x'.toNat ∨ byteAt t 1 = 'X'.toNat) ∧
    ((t.drop 2).head?.bind (digitOf 16)).isSome
  let t := if hex then t.drop 2 else t
  if (t.head?.bind (digitOf base)).isNone then ⟨0, s, false⟩
  else
    let (v, rest) := takeDigits base 0 t
    let z : Int := if negative then -v else v
    ⟨strtolOf z, rest, decide (z < longMin ∨ longMax < z)⟩

/-- `YogEncoding_create_ascii`; the decoder sees one byte as one character. -/
def ascii : Encoding where
  getCharBytes _ := 1
  convCharToYog s := toYogChar (signExtend (byteAt s 0))
  getYogCharBytes _ := 1
  convCharFromYog c := if isascii c.val then [toByte c.val] else [toByte '?'.toNat]

/-- The `while` loop of `normalize_as_number`. -/
def normalizeLoop (self : List YogChar) :
    List YogChar → List YogChar → Except TextError (List YogChar)
  | [], normalized => pure normalized
  | c :: rest, normalized =>
    if isAlpha c.val then normalizeLoop self rest (normalized ++ [toLower c])
    else if c = yogChar '_' then
      match rest with
      | [] => throw (.valueError "String ends with \"_\": %S" (.string self))
      | c :: _ =>
        if ¬ isAlpha c.val ∧ ¬ isDigit c.val then
          throw (.valueError "No alphabet or digit follows \"_\": %S" (.string self))
        else normalizeLoop self rest normalized
    else normalizeLoop self rest (normalized ++ [c])

/-- `normalize_as_number` from the first character behind the sign on: the prefix of a radix. -/
def normalizeDigits (self normalized : List YogChar) (base : Int) (c1 : YogChar) :
    List YogChar → Except TextError (List YogChar × Int)
  | [] => do return (← normalizeLoop self [] (normalized ++ [c1]), base)
  | c2 :: rest =>
    if c1 = yogChar '0' then do
      let (normalized, base, next) :=
        if c2 = yogChar 'b' ∨ c2 = yogChar 'B' then (normalized, 2, rest)
        else if c2 = yogChar 'o' ∨ c2 = yogChar 'O' then (normalized, 8, rest)
        else if c2 = yogChar 'd' ∨ c2 = yogChar 'D' then (normalized, 10, rest)
        else if c2 = yogChar 'x' ∨ c2 = yogChar 'X' then (normalized, 16, rest)
        else (normalized ++ [c1], 10, c2 :: rest)
      if next = [] then throw (.valueError "String ends with radix: %S" (.string self))
      return (← normalizeLoop self next normalized, base)
    else do return (← normalizeLoop self (c2 :: rest) (normalized ++ [c1]), base)

/-- `normalize_as_number` -/
def normalizeAsNumber (self : List YogChar) (base : Int) :
    Except TextError (List YogChar × Int) := do
  if self = [] then throw (.valueError "Empty string to convert into integer" .none)
  let (normalized, rest) :=
    if self.head? = some (yogChar '+') then ([], self.tail)
    else if self.head? = some (yogChar '-') then ([yogChar '-'], self.tail)
    else ([], self)
  match rest with
  | [] => throw (.valueError "String contains only sign: %S" (.string self))
  | c1 :: rest => normalizeDigits self normalized base c1 rest

/-- `uiceil(n * 0.41524)`: the bytes taken for `n` characters. The product of `double`s is nearer to
the exact one than that can be to an integer. -/
def decimalBytes (n : Nat) : Nat := (10381 * n + 24999) / 25000

/-- `bdConvFromDecimal`: what is no digit is passed over, and a carry out of the bytes is lost. -/
def bdConvFromDecimal (s : List Byte) : Nat :=
  let s := s.takeWhile fun b => b.val ≠ 0
  s.foldl (fun v b => if isDigit b.val then (v * 10 + (b.val - 48)) % 256 ^ decimalBytes s.length
    else v) 0

/-- `YogBignum_from_str` -/
def Bignum.fromStr (s : List YogChar) (base : Int) : Except TextError Integer :=
  if base ≠ 10 then throw (.valueError "Cannot accept any base but 10" .none)
  else pure (.bignum ⟨bdConvFromDecimal (ascii.convFromYog s), .pos⟩)

/-- `to_i_of_radix` -/
def toIOfRadix (self : List YogChar) (radix : Int) : Except TextError Integer := do
  let (normalized, radix) ← normalizeAsNumber self radix
  let r := strtol (ascii.convFromYog normalized) radix.toNat
  if byteAt r.rest 0 ≠ 0 then throw (.valueError "Invalid literal: %S" (.string self))
  if r.erange then Bignum.fromStr normalized radix
  else return Integer.fromInt r.value

/-- `to_i` of `string.c`, the radix left out or given. -/
def toI (self : List YogChar) : Option Int → Except TextError Integer
  | none => toIOfRadix self 10
  | some radix =>
    if radix < 2 ∨ 36 < radix then
      throw (.valueError "radix must be in range from 2 to 36, not %d" (.int radix))
    else toIOfRadix self radix

end Yog
