import Yog.ArrayScript
import Yog.RegexpObject
import Yog.StringScript

/-!
# Paths

`normalize` and `abs` of `path.yog`, with `split` and `/` of `string.yog`. A path is a string of a
class of its own; only that class has these methods.
-/

namespace Yog

inductive PathError
  | regexp (e : RegexpError)
  | string (e : StringError)
  /-- There is no such method. -/
  | attributeError
  deriving DecidableEq

namespace Path

open Corgi YogString ArrayScript

/-- The class of a string. -/
inductive Klass
  | string
  | path
  deriving DecidableEq

structure Text where
  klass : Klass
  chars : List YogChar
  deriving DecidableEq

def separator : List YogChar := fromString "/"

def current : List YogChar := fromString "."

def parent : List YogChar := fromString ".."

section Strings

def ofRegexp {α : Type} (p : Partial RegexpError α) : Partial PathError α :=
  match p with
  | none => Partial.running
  | some (.error e) => Partial.done (.error (.regexp e))
  | some (.ok a) => Partial.done (.ok a)

def ofString {α : Type} (r : Except StringError α) : Partial PathError α :=
  Partial.done (r.mapError .string)

/-- The regular expression of a literal; the lexer takes off the backslash of a `\/`. -/
def compiled (pattern : String) : Partial PathError CorgiRegexp :=
  match corgiCompile (pattern.toList.map Char.toNat) false with
  | none => Partial.done (.error (.regexp (.valueError "corgi error: %s")))
  | some regexp => Partial.done (.ok regexp)

/-- `starts_with?` -/
def startsWith (self s : List YogChar) : Except StringError Bool := do
  return equal (← slice self (.fixnum 0) (some s.length)) s

variable (unicode : Unicode)

/-- The loop of `/`, which calls itself where separators are at the end. -/
def joinTo (fuel : ℕ) (trailing : CorgiRegexp) :
    ℕ → List YogChar → List YogChar → Partial PathError Text
  | 0, _, _ => Partial.running
  | turns + 1, self, s => do
    match ← ofRegexp (YogRegexp.search unicode fuel trailing self 0) with
    | some m => joinTo fuel trailing turns (← ofString (slice self (.fixnum 0) (some m.begin))) s
    | none => return ⟨.path, self ++ separator ++ s⟩

/-- `/` -/
def div (fuel : ℕ) (self s : List YogChar) : Partial PathError Text := do
  joinTo unicode fuel (← compiled "/+\\Z") fuel self s

end Strings

section Normalize

/-- What is done to the arrays of strings. -/
abbrev Names (α : Type) := ArrayScript.Script PathError (List YogChar) α

/-- What a computation that touches no array raises is what ends the method. -/
def raised {α : Type} (p : Partial PathError α) : Partial (ScriptError PathError) α :=
  match p with
  | none => Partial.running
  | some r => Partial.done (r.mapError .raised)

/-- A computation that touches no array. -/
def outside {α : Type} (p : Partial PathError α) : Names α := fun s => do return (← raised p, s)

/-- A call of a method of strings. -/
def string {α : Type} (r : Except StringError α) : Names α :=
  call (r.mapError fun e => .raised (.string e))

variable (unicode : Unicode)

/-- `split_char` -/
def splitChar (s : List YogChar) : Names ℕ := do
  let a ← literal [] []
  (StringScript.splitChar s).forM (push [] a)
  return a

/-- The loop of `split` at a pattern, as far as it may turn, and what follows it. -/
def splitLoop (fuel : ℕ) (splitter : CorgiRegexp) (self : List YogChar) (a : ℕ) :
    ℕ → ℕ → Names ℕ
  | 0, _ => outside Partial.running
  | turns + 1, from_ => do
    match ← outside (ofRegexp (YogRegexp.search unicode fuel splitter self from_)) with
    | some m =>
      if m.begin = m.end then splitChar self
      else
        push [] a (← string (slice self (.fixnum from_) (some (m.begin - from_))))
        splitLoop fuel splitter self a turns m.end
    | none =>
      push [] a (← string (slice self (.fixnum from_) none))
      return a

/-- `split` at a pattern, without a limit. -/
def split (fuel : ℕ) (splitter : CorgiRegexp) (self : List YogChar) : Names ℕ := do
  let a ← literal [] []
  splitLoop unicode fuel splitter self a fuel 0

/-- The loop of `join`, with the turns left. -/
def joinLoop (self : ℕ) (sep : List YogChar) : ℕ → ℕ → List YogChar → Names (List YogChar)
  | 0, _, s => return s
  | n + 1, i, s => do
    let elem ← item [] self i
    joinLoop self sep n (i + 1) ((if 0 < i then s ++ sep else s) ++ elem)

/-- `join` of strings. -/
def join (self : ℕ) (sep : List YogChar) : Names (List YogChar) := do
  joinLoop self sep (← size [] self) 0 []

/-- The block of `normalize`. -/
def addEntry (names : ℕ) (entry : List YogChar) : Names ℕ := do
  if equal entry [] then
    if (← size [] names) = 0 then literal [] [entry] else return names
  else if equal entry current then return names
  else if equal entry parent then
    ArrayScript.slice [] names 0 (some ((← size [] names) - 1))
  else plus [] names (← literal [] [entry])

/-- `(names.size == 1) && (names[0] == "")` -/
def isRoot (names : ℕ) : Names Bool := do
  if (← size [] names) = 1 then return equal (← subscript [] names 0) [] else return false

/-- `normalize` of a `Path`. -/
def normalize (fuel : ℕ) (self : List YogChar) : Names Text := do
  let entries ← split unicode fuel (← outside (compiled "/+")) self
  let names ← reduce [] addEntry fuel (← literal [] []) entries
  if ← isRoot names then return ⟨.string, separator⟩
  else return ⟨.path, ← join names separator⟩

/-- The method `normalize` of a string. -/
def callNormalize (fuel : ℕ) (self : Text) : Partial (ScriptError PathError) Text :=
  match self.klass with
  | .string => raised (Partial.done (.error .attributeError))
  | .path => do return (← normalize unicode fuel self.chars []).1

/-- `abs` of a `Path`; `cwd` is what `getcwd` gives. -/
def abs (fuel : ℕ) (cwd self : List YogChar) : Partial (ScriptError PathError) Text := do
  if ← raised (ofString (startsWith self separator)) then callNormalize unicode fuel ⟨.path, self⟩
  else callNormalize unicode fuel (← raised (div unicode fuel cwd self))

end Normalize

end Path

end Yog
