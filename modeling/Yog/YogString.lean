import Yog.Lib.Bytes
import Yog.TextEncoding

/-!
# Strings

The strings of `string.c`: characters of 32 bits, held in the order of the machine, which is a
little-endian one. A string is no longer than memory, so a size never wraps; a difference of sizes
does, and is noted where the code relies on it.
-/

namespace Yog

inductive StringError where
  | typeError (fmt : String) (classes : List String)
  | indexError (fmt : String) (args : List Int)
  | valueError (fmt : String) (args : List Int)
  deriving DecidableEq

namespace YogString

/-- An argument, as far as its type is asked for. -/
inductive Arg where
  | string (s : List YogChar)
  | fixnum (n : Int)
  /-- A value of another class. -/
  | other (klass : String)

/-- What `%C` shows of an argument. -/
def Arg.klass : Arg → String
  | .string _ => "String"
  | .fixnum _ => "Fixnum"
  | .other klass => klass

/-- `YogString_from_string` of a text of code points. -/
def fromString (s : String) : List YogChar := s.toList.map fun c => toYogChar c.toNat

/-- `STRING_CHARS` as bytes. -/
def chars (self : List YogChar) : List UInt8 := self.flatMap fun c => Bytes.littleEndian 4 c.val

/-- The sign of `memcmp`. -/
def memcmp : Nat → List UInt8 → List UInt8 → Int
  | n + 1, x :: xs, y :: ys => if x < y then -1 else if y < x then 1 else memcmp n xs ys
  | _, _, _ => 0

/-- `get_smaller_size` -/
def getSmallerSize (s t : List YogChar) : Nat := if s.length < t.length then s.length else t.length

/-- `YogString_binop_ufo` of two strings. -/
def ufo (self s : List YogChar) : Int :=
  let n := 4 * getSmallerSize self s
  let result := memcmp n (chars self) (chars s)
  if result < 0 then -1
  else if 0 < result then 1
  else if self.length < s.length then -1
  else if s.length < self.length then 1
  else 0

/-- `YogString_binop_ufo`, which is `YNIL` of what is not a string. -/
def binopUfo (self : List YogChar) : Arg → Option Int
  | .string s => some (ufo self s)
  | _ => none

/-- `==` of two strings, which asks `<=>`. -/
def equal (self s : List YogChar) : Bool := ufo self s = 0

/-- `index2offset` -/
def index2offset (self : List YogChar) (index : Int) : Option Nat :=
  if index < 0 then none
  else if index < self.length then some index.toNat
  else none

/-- `normalize_index` -/
def normalizeIndex (self : List YogChar) (index : Int) : Int :=
  if 0 ≤ index then index else self.length + index

/-- `unnormalized_index2offset` -/
def unnormalizedIndex2offset (self : List YogChar) (index : Int) : Except StringError Nat :=
  match index2offset self (normalizeIndex self index) with
  | some offset => .ok offset
  | none => .error (.indexError "String index out of range" [])

/-- `get_at` -/
def getAt (self : List YogChar) (offset : Nat) : List YogChar := (self.drop offset).take 1

/-- `YogString_subscript` -/
def subscript (self : List YogChar) : Arg → Except StringError (List YogChar)
  | .fixnum index => do
    let offset ← unnormalizedIndex2offset self index
    return getAt self offset
  | _ => .error (.typeError "String index must be Fixnum" [])

/-- `normalize_position` -/
def normalizePosition (pos maxIndex : Int) : Int := if pos < 0 then pos + maxIndex + 1 else pos

/-- `normalize_length` -/
def normalizeLength (len : Option Int) (maxIndex pos : Int) : Int :=
  match len with
  | some len => if maxIndex < pos + len then maxIndex - pos + 1 else len
  | none => maxIndex - pos + 1

/-- `slice`; the length is taken to be a `Fixnum`, which is not looked at. -/
def slice (self : List YogChar) (pos : Arg) (len : Option Int) :
    Except StringError (List YogChar) :=
  let maxIndex : Int := self.length - 1
  match pos with
  | .fixnum pos =>
    let n := normalizePosition pos maxIndex
    if n < 0 ∨ maxIndex < n then .ok []
    else match index2offset self n with
      | none =>
        .error (.indexError "Position %d out of range [-%u, %u]"
          [pos, self.length, self.length - 1])
      | some start =>
        if len.any (· ≤ 0) then .ok []
        else
          let l := normalizeLength len maxIndex n
          match index2offset self (n + l - 1) with
          | none =>
            .error (.valueError "Length %d out of range [0, %d]" [len.getD 0, self.length - n])
          | some stop => .ok ((self.drop start).take (stop - start + 1))
  | pos => .error (.typeError "pos must be Fixnum, not %C" [pos.klass])

/-- The loop of `find` over a substring: where `j` stops. -/
def findSubstr : List YogChar → List YogChar → Nat
  | c :: self, d :: substr => if c ≠ d then 0 else findSubstr self substr + 1
  | _, _ => 0

/-- The loop of `find` over a string, with the indices left to try. -/
def findLoop (self substr : List YogChar) : Nat → Nat → Option Nat
  | 0, _ => none
  | n + 1, i =>
    if findSubstr (self.drop i) substr = substr.length then some i
    else findLoop self substr n (i + 1)

/-- `find`; `none` is `UNSIGNED_MAX`. The last index wraps where the substring is the longer. -/
def find (self substr : List YogChar) (from_ : Nat) : Option Nat :=
  if self.length < substr.length then none
  else findLoop self substr (self.length - substr.length + 1 - from_) from_

/-- `ADD_STR` -/
def addStr (self s : List YogChar) (from_ to_ : Nat) : List YogChar :=
  s ++ (self.drop from_).take (to_ - from_)

/-- The loop of `gsub` and what is added behind it. -/
def gsubLoop (self substr to_ : List YogChar) :
    Nat → Nat → List YogChar → Option (List YogChar)
  | 0, _, _ => none
  | fuel + 1, from_, s =>
    match find self substr from_ with
    | some index =>
      gsubLoop self substr to_ fuel (index + substr.length) (addStr self s from_ index ++ to_)
    | none => some (addStr self s from_ self.length)

/-- `gsub`; it has not returned where it is `none`. -/
def gsub (self : List YogChar) (substr to_ : Arg) (fuel : Nat) :
    Option (Except StringError (List YogChar)) :=
  match substr with
  | .string substr =>
    match to_ with
    | .string to_ => (gsubLoop self substr to_ fuel 0 []).map .ok
    | _ => some (.error (.typeError "replacing string must be String" []))
  | _ => some (.error (.typeError "substring must be String" []))

end YogString

end Yog
