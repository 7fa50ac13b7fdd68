import Yog.YogString

/-!
# Strings in the language

The part of `String` that is written in the language itself, `string.yog`. Its numbers are integers
of the language, its indexing and slicing are those of `string.c`, and two strings are compared by
`==` and `!=`.
-/

namespace Yog.StringScript

open YogString

def notFound : Int := -1

/-- The loop of `rfind`. -/
def rfindLoop (self substr : List YogChar) : Nat → Except StringError Int
  | 0 => .ok notFound
  | i + 1 => do
    let piece ← slice self (.fixnum (i + 1 : Nat)) (some substr.length)
    if equal piece substr then return (i + 1 : Nat)
    rfindLoop self substr i

/-- `rfind` of a start that is not negative. -/
def rfindFrom (self substr : List YogChar) (startPos : Nat) : Except StringError Int :=
  if startPos < substr.length then .ok notFound
  else rfindLoop self substr (startPos - substr.length + 1)

/-- `rfind` of a start that is given. -/
def rfindAt (self substr : List YogChar) (startPos : Int) : Except StringError Int :=
  if startPos < - self.length then .ok notFound
  else if startPos < 0 then rfindFrom self substr (self.length + startPos).toNat
  else rfindFrom self substr startPos.toNat

/-- `rfind` -/
def rfind (self substr : List YogChar) : Option Int → Except StringError Int
  | none => rfindAt self substr (self.length - 1)
  | some startPos => rfindAt self substr startPos

/-- The inner loop of `find`, with the indices left: where `j` stops. -/
def matchLoop (self substr : List YogChar) (i : Nat) : Nat → Nat → Except StringError Nat
  | 0, j => .ok j
  | n + 1, j => do
    let c ← subscript self (.fixnum (i + j : Nat))
    let d ← subscript substr (.fixnum j)
    if ¬ equal c d then return j
    matchLoop self substr i n (j + 1)

/-- The loop of `find`, with the indices left. -/
def findLoop (self substr : List YogChar) : Nat → Nat → Except StringError Int
  | 0, _ => .ok notFound
  | n + 1, i => do
    let j ← matchLoop self substr i substr.length 0
    if j = substr.length then return i
    findLoop self substr n (i + 1)

/-- Where `find` starts. -/
def findStart (self : List YogChar) (startPos : Int) : Nat :=
  if startPos < 0 then (self.length + startPos).toNat else startPos.toNat

/-- `find` -/
def find (self substr : List YogChar) (startPos : Int) : Except StringError Int :=
  if self.length < substr.length then .ok notFound
  else
    let i := findStart self startPos
    findLoop self substr (self.length - substr.length + 1 - i) i

inductive Splitter where
  /-- A pattern, as what `search` finds from a position: where the match starts and ends. -/
  | regexp (search : Nat → Option (Nat × Nat))
  | string (s : List YogChar)
  | other

/-- `split_char` -/
def splitChar (s : List YogChar) : List (List YogChar) := s.map fun c => [c]

/-- `(max == nil) || (count < max)` -/
def below (max : Option Int) (count : Nat) : Prop := max.all ((count : Int) < ·)

instance (max : Option Int) (count : Nat) : Decidable (below max count) :=
  inferInstanceAs (Decidable (_ = true))

/-- The loop of `split` at a pattern and what follows it; it has not ended where it is `none`. -/
def splitRegexp (self : List YogChar) (search : Nat → Option (Nat × Nat)) (max : Option Int) :
    Nat → Nat → Nat → List (List YogChar) → Option (Except StringError (List (List YogChar)))
  | 0, _, _, _ => none
  | fuel + 1, from_, count, a =>
    match search from_ with
    | some (start, stop) =>
      if below max count then
        if start = stop then some (.ok (splitChar self))
        else match slice self (.fixnum from_) (some (start - from_)) with
          | .error e => some (.error e)
          | .ok piece => splitRegexp self search max fuel stop (count + 1) (a ++ [piece])
      else some ((slice self (.fixnum from_) none).map fun piece => a ++ [piece])
    | none => some ((slice self (.fixnum from_) none).map fun piece => a ++ [piece])

/-- The loop of `split` at a string and what follows it; it has not ended where it is `none`. -/
def splitString (self splitter : List YogChar) (max : Option Int) :
    Nat → Nat → Nat → List (List YogChar) → Option (Except StringError (List (List YogChar)))
  | 0, _, _, _ => none
  | fuel + 1, from_, count, a =>
    if (from_ : Int) ≤ self.length - splitter.length ∧ below max count then
      match find self splitter from_ with
      | .error e => some (.error e)
      | .ok to_ =>
        if to_ < 0 then some ((slice self (.fixnum from_) none).map fun piece => a ++ [piece])
        else match slice self (.fixnum from_) (some (to_ - from_)) with
          | .error e => some (.error e)
          | .ok piece =>
            splitString self splitter max fuel (to_.toNat + splitter.length) (count + 1)
              (a ++ [piece])
    else some ((slice self (.fixnum from_) none).map fun piece => a ++ [piece])

/-- `split` -/
def split (self : List YogChar) (splitter : Splitter) (max : Option Int) (fuel : Nat) :
    Option (Except StringError (List (List YogChar))) :=
  match splitter with
  | .regexp search => splitRegexp self search max fuel 0 0 []
  | .string splitter =>
    if splitter.length = 0 then some (.ok (splitChar self))
    else splitString self splitter max fuel 0 0 []
  | .other => some (.error (.typeError "splitter must be String" []))

def backslash : YogChar := toYogChar 0x5c

def quote : YogChar := toYogChar 0x22

def tab : YogChar := toYogChar 0x09

def newline : YogChar := toYogChar 0x0a

/-- What `inspect` adds for one character. -/
def inspectChar (c : YogChar) : List YogChar :=
  if equal [c] [backslash] then [backslash, backslash]
  else if equal [c] [tab] then [backslash, toYogChar 't'.toNat]
  else if equal [c] [newline] then [backslash, toYogChar 'n'.toNat]
  else if equal [c] [quote] then [backslash, quote]
  else [c]

/-- `inspect` -/
def inspect (self : List YogChar) : List YogChar := quote :: self.flatMap inspectChar ++ [quote]

end Yog.StringScript
