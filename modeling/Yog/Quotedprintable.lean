import Yog.Base64
import Yog.IntegerText
import Yog.RegexpObject

/-!
# Quoted-printable

`lib/quotedprintable.yog`.
-/

namespace Yog

namespace Quotedprintable

open Corgi YogString

inductive DecodeError
  | regexp (e : RegexpError)
  | text (e : TextError)
  | string (e : StringError)
  /-- There is no such method. -/
  | attributeError
  deriving DecidableEq

def ofRegexp {α : Type} (p : Partial RegexpError α) : Partial DecodeError α :=
  match p with
  | none => Partial.running
  | some (.error e) => Partial.done (.error (.regexp e))
  | some (.ok a) => Partial.done (.ok a)

def ofText {α : Type} (r : Except TextError α) : Partial DecodeError α :=
  Partial.done (r.mapError .text)

def ofString {α : Type} (r : Except StringError α) : Partial DecodeError α :=
  Partial.done (r.mapError .string)

def pattern (s : String) : List CorgiChar := s.toList.map Char.toNat

/-- The pattern of an escape. -/
def escapePattern : List CorgiChar := pattern "=(?<hex>[0-9A-F]{2})"

/-- The pattern of a soft line break. -/
def softPattern : List CorgiChar := pattern "=[\\t ]*\\r\\n"

/-- The regular expression of a literal. -/
def compiled (pattern : List CorgiChar) : Partial DecodeError CorgiRegexp :=
  match corgiCompile pattern false with
  | none => Partial.done (.error (.regexp (.valueError "corgi error: %s")))
  | some regexp => Partial.done (.ok regexp)

/-- What is not `nil` to a call. -/
def given {α : Type} : Option α → Partial DecodeError α
  | none => Partial.done (.error .attributeError)
  | some a => Partial.done (.ok a)

/-- `<<` of a binary and an integer. -/
def lshift (bin : List Byte) : Integer → Except StringError (List Byte)
  | .fixnum n => lshiftInt bin n.toInt
  | .bignum _ => .error (.typeError "%s must be Binary, not %C" ["Bignum"])

section Decode

variable (unicode : Unicode) (fuel : Nat) (escape soft : CorgiRegexp) (s : List YogChar)

/-- What `quotedprintable_to_bin` does with an escape: the binary and the position after it. -/
def takeEscape (bin : List Byte) (pos : Nat) (m : CorgiMatch) :
    Partial DecodeError (List Byte × Nat) := do
  let hex ← given (← ofRegexp (Partial.done (YogRegexp.groupStr escape s m (fromString "hex"))))
  let bin ← ofString (lshift bin (← ofText (toI hex (some 16))))
  let group ← given (← ofRegexp (Partial.done (YogRegexp.groupNum s m 0)))
  return (bin, pos + group.length)

/-- What it does with a soft line break. -/
def takeSoft (bin : List Byte) (pos : Nat) (m : CorgiMatch) :
    Partial DecodeError (List Byte × Nat) := do
  let group ← given (← ofRegexp (Partial.done (YogRegexp.groupNum s m 0)))
  return (bin, pos + group.length)

/-- What it does with any other character. -/
def takeChar (bin : List Byte) (pos : Nat) : Partial DecodeError (List Byte × Nat) := do
  let c ← ofString (subscript s (.fixnum pos))
  return (bin ++ ascii.convFromYog c, pos + 1)

/-- One turn of the loop. -/
def decodeAt (bin : List Byte) (pos : Nat) : Partial DecodeError (List Byte × Nat) := do
  match ← ofRegexp (YogRegexp.match unicode fuel escape s pos) with
  | some m => takeEscape escape s bin pos m
  | none =>
    match ← ofRegexp (YogRegexp.match unicode fuel soft s pos) with
    | some m => takeSoft s bin pos m
    | none => takeChar s bin pos

/-- The loop itself, as far as it may turn. -/
def decodeLoop : Nat → List Byte → Nat → Partial DecodeError (List Byte)
  | 0, _, _ => Partial.running
  | turns + 1, bin, pos =>
    if pos < s.length then do
      let (bin, pos) ← decodeAt unicode fuel escape soft s bin pos
      decodeLoop turns bin pos
    else return bin

end Decode

/-- `quotedprintable_to_bin` -/
def quotedprintableToBin (unicode : Unicode) (s : List YogChar) (fuel : Nat) :
    Partial DecodeError (List Byte) := do
  let escape ← compiled escapePattern
  let soft ← compiled softPattern
  decodeLoop unicode fuel escape soft s fuel [] 0

end Quotedprintable

end Yog
