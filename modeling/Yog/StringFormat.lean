import Yog.IntegerText
import Yog.Lib.Partial
import Yog.StringScript
import Yog.YogArray

/-!
# Formatting strings

`format` of `string.yog`. A string is named by its place in a store, as `<<` changes it for all who
have it. A text and a size are shorter than memory; what `*` makes is not asked for its size
again.
-/

namespace Yog

inductive FormatError
  | string (e : StringError)
  | text (e : TextError)
  | array (e : ArrayError)
  | integer (e : IntError)
  | valueError (msg : String)
  | argumentError (msg : String)
  | overflowError (msg : String)

namespace StringFormat

open YogString

/-- The strings there are. -/
abbrev Texts := List (List YogChar)

abbrev Script (α : Type) := StateT Texts (Partial FormatError) α

def raise {α : Type} (e : FormatError) : Script α := fun _ => Partial.done (.error e)

def lift {ε α : Type} (wrap : ε → FormatError) : Except ε α → Script α
  | .ok a => pure a
  | .error e => raise (wrap e)

/-- A new string. -/
def create (chars : List YogChar) : Script ℕ := fun st =>
  Partial.done (.ok (st.length, st ++ [chars]))

def chars (self : ℕ) : Script (List YogChar) := fun st => Partial.done (.ok (st.getD self [], st))

/-- `self << s` -/
def lshift (self s : ℕ) : Script Unit := fun st =>
  Partial.done (.ok ((), st.set self (st.getD self [] ++ st.getD s [])))

/-- `self + s` -/
def add (self s : ℕ) : Script ℕ := do create ((← chars self) ++ (← chars s))

/-- `self[index]` -/
def subscript (self index : ℕ) : Script ℕ := do
  create (← lift .string (YogString.subscript (← chars self) (.fixnum index)))

/-- `slice` -/
def slice (self : ℕ) (pos : Int) (len : Option Int) : Script ℕ := do
  create (← lift .string (YogString.slice (← chars self) (.fixnum pos) len))

/-- `self == s`, of a literal. -/
def equal (self : ℕ) (s : List YogChar) : Script Bool := do
  return YogString.equal (← chars self) s

/-- `YogString_binop_multiply` -/
def multiply (self : ℕ) : Integer → Script ℕ
  | .bignum _ =>
    raise (.string (.typeError "Can't multiply string by non-Fixnum of type %C" ["Bignum"]))
  | .fixnum n => do
    let s ← chars self
    let num := n.toInt
    if num < 0 then raise (.argumentError "Negative argument")
    else
      let neededSize := (s.length * num) % 2 ^ 64
      if num ≠ 0 ∧ neededSize / num ≠ s.length then
        raise (.overflowError "Repeated string is too long")
      else create (List.replicate num.toNat s).flatten

/-- `to_i` -/
def toI (self : ℕ) : Script Integer := do lift .text (Yog.toI (← chars self) none)

/-- An argument: a string, or what another object gives for its `to_s`. -/
inductive Arg
  | string (r : ℕ)
  | other (text : List YogChar)

/-- `to_s` -/
def Arg.toS : Arg → Script ℕ
  | .string r => pure r
  | .other text => create text

/-- `args[index]` -/
def argAt (args : List Arg) : Integer → Script Arg
  | .bignum _ => lift .array (YogArray.subscript ⟨args.length, args⟩ none)
  | .fixnum n => lift .array (YogArray.subscript ⟨args.length, args⟩ (some n.toInt))

/-- `args[name.to_i()].to_s()` -/
def argText (args : List Arg) (name : ℕ) : Script ℕ := do (← argAt args (← toI name)).toS

def leftBrace : List YogChar := fromString "\x7b"

def rightBrace : List YogChar := fromString "\x7d"

def colon : List YogChar := fromString ":"

def zero : List YogChar := fromString "0"

def space : List YogChar := fromString " "

/-- What `format` does with a value and the specification of its field. -/
def pad (val formatSpec : ℕ) : Script ℕ := do
  let paddingChar ← create (if ← equal (← subscript formatSpec 0) zero then zero else space)
  let width ← toI formatSpec
  let size := Integer.fixnum (int2val (← chars val).length)
  if ← lift .integer (width.less size) then return val
  else add (← multiply paddingChar (width.subtract size)) val

/-- What `format` makes of the text `t` of a field. -/
def field (args : List Arg) (t : ℕ) : Script ℕ := do
  let colonPos ← lift .string (StringScript.find (← chars t) colon 0)
  if colonPos < 0 then argText args t
  else
    let fieldName ← slice t 0 (some colonPos)
    let val ← argText args fieldName
    let formatSpec ← slice t (colonPos + 1) none
    pad val formatSpec

/-- The inner loop: the text of a field is put into `t`, up to the brace at the index it gives. -/
def fieldLoop (self t : ℕ) : ℕ → ℕ → Script ℕ
  | 0, _ => fun _ => Partial.running
  | turns + 1, i => do
    if ← equal (← subscript self i) rightBrace then return i
    else
      lshift t (← subscript self i)
      fieldLoop self t turns (i + 1)

/-- The loop of `format`. -/
def formatLoop (args : List Arg) (self s fuel : ℕ) : ℕ → ℕ → Script ℕ
  | 0, _ => fun _ => Partial.running
  | turns + 1, i => do
    if (← chars self).length ≤ i then return s
    else
      let c1 ← subscript self i
      if ← equal c1 rightBrace then
        let c2 ← subscript self (i + 1)
        if ← equal c2 rightBrace then
          lshift s c2
          formatLoop args self s fuel turns (i + 2)
        else raise (.valueError "Single \"\x7d\" encountered in format string")
      else if !(← equal c1 leftBrace) then
        lshift s c1
        formatLoop args self s fuel turns (i + 1)
      else
        let c2 ← subscript self (i + 1)
        if ← equal c2 leftBrace then
          lshift s c2
          formatLoop args self s fuel turns (i + 2)
        else
          let i ← fieldLoop self c2 fuel (i + 2)
          lshift s (← field args c2)
          formatLoop args self s fuel turns (i + 1)

/-- `format` -/
def format (fuel : ℕ) (self : ℕ) (args : List Arg) : Script ℕ := do
  let s ← create []
  formatLoop args self s fuel fuel 0

end StringFormat

end Yog
