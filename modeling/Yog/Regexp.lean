import Yog.IntegerText

/-!
# The parser of regular expressions

`parse_branch` of `corgi.c` and what it calls. The characters from `pc` to `end` are a list, so that
a read at `end` is a fault, and a chain of nodes is a list. `parseBranch` is given how deep groups
may nest, and a loop how often it may turn.
-/

namespace Yog

namespace Corgi

/-- A character of UTF-32 by its code. -/
abbrev CorgiChar := Nat

inductive AtCode
  | beginning | beginningLine | beginningString | boundary | nonBoundary
  | atEnd | endLine | endString
  deriving DecidableEq

inductive CategoryCode
  | uniDigit | uniNotDigit | uniSpace | uniNotSpace | uniWord | uniNotWord
  deriving DecidableEq

/-- The nodes of a set. -/
inductive SetNode
  | at (type : AtCode)
  | category (type : CategoryCode)
  | literal (c : CorgiChar)
  | negate
  | range (low high : CorgiChar)
  deriving DecidableEq

inductive Node
  | any
  | at (type : AtCode)
  | branch (left right : List Node)
  | in (set : List SetNode)
  | literal (c : CorgiChar)
  | maxRepeat (min max : Nat) (body : Node)
  | minRepeat (min max : Nat) (body : Node)
  | subpattern (groupId : Nat) (name : Option (List CorgiChar)) (node : List Node)

/-- What `corgi_compile` returns of a pattern. -/
inductive CorgiError
  | badRange | bogusEscape | parenthesisNotClosed
  deriving DecidableEq

inductive Stop
  | error (e : CorgiError)
  /-- A read at `end`. -/
  | outOfBounds
  /-- The fuel was not enough. -/
  | running
  deriving DecidableEq

structure Compiler where
  groupId : Nat
  /-- The names of the groups, the one closed last first. -/
  groups : List (Option (List CorgiChar))

def initCompiler : Compiler := ⟨0, []⟩

/-- What `parse_escape` makes. -/
inductive Escape
  | at (type : AtCode)
  | category (type : CategoryCode)
  | literal (c : CorgiChar)

def Escape.node : Escape → Node
  | .at type => .at type
  | .category type => .in [.category type]
  | .literal c => .literal c

/-- `parse_escape_in_charset` -/
def Escape.setNode : Escape → SetNode
  | .at type => .at type
  | .category type => .category type
  | .literal c => .literal c

def escapeOf (c : CorgiChar) : Escape :=
  if c = 'A'.toNat then .at .beginningString
  else if c = 'B'.toNat then .at .nonBoundary
  else if c = 'D'.toNat then .category .uniNotDigit
  else if c = 'S'.toNat then .category .uniNotSpace
  else if c = 'W'.toNat then .category .uniNotWord
  else if c = 'Z'.toNat then .at .endString
  else if c = 'b'.toNat then .at .boundary
  else if c = 'd'.toNat then .category .uniDigit
  else if c = 'n'.toNat then .literal '\n'.toNat
  else if c = 'r'.toNat then .literal '\r'.toNat
  else if c = 's'.toNat then .category .uniSpace
  else if c = 't'.toNat then .literal '\t'.toNat
  else if c = 'w'.toNat then .category .uniWord
  else .literal c

def parseEscape : List CorgiChar → Except Stop (Escape × List CorgiChar)
  | [] => throw (.error .bogusEscape)
  | c :: rest => return (escapeOf c, rest)

/-- `parse_in_internal`; `c` is the character at `pc`. -/
def parseInInternal (c : CorgiChar) (rest : List CorgiChar) :
    Except Stop (List SetNode × List CorgiChar) :=
  if c = '^'.toNat then return ([.negate], rest)
  else if c = '\\'.toNat then do
    let (e, rest) ← parseEscape rest
    return ([e.setNode], rest)
  else
    match rest with
    | [] => return ([.literal c], rest)
    | d :: rest' =>
      if d ≠ '-'.toNat then return ([.literal c], rest)
      else
        match rest' with
        | [] => return ([.literal c, .literal '-'.toNat], rest')
        | high :: rest'' =>
          if high = ']'.toNat then return ([.literal c, .literal '-'.toNat], rest')
          else if high < c then throw (.error .badRange)
          else return ([.range c high], rest'')

/-- The `while` loop of `parse_in`, and the bracket behind it. -/
def parseInLoop : Nat → List CorgiChar → Except Stop (List SetNode × List CorgiChar)
  | _, [] => return ([], [])
  | 0, _ :: _ => throw .running
  | fuel + 1, c :: rest =>
    if c = ']'.toNat then return ([], rest)
    else do
      let (nodes, rest) ← parseInInternal c rest
      let (set, rest) ← parseInLoop fuel rest
      return (nodes ++ set, rest)

/-- `parse_in` -/
def parseIn (pc : List CorgiChar) : Except Stop (List SetNode × List CorgiChar) :=
  match pc with
  | [] => parseInLoop 0 []
  | c :: rest =>
    -- `read_first_bracket_in_charset`
    if c = ']'.toNat then do
      let (set, rest) ← parseInLoop rest.length rest
      return (.literal c :: set, rest)
    else parseInLoop pc.length pc

/-- `get_group_name` -/
def getGroupName (pc : List CorgiChar) : Option (List CorgiChar) × List CorgiChar :=
  if pc.length ≤ 2 ∨ pc.take 2 ≠ ['?'.toNat, '<'.toNat] then (none, pc)
  else
    let begin := pc.drop 2
    let name := begin.takeWhile (· ≠ '>'.toNat)
    match begin.dropWhile (· ≠ '>'.toNat) with
    | [] => if name = [] then (none, begin) else (none, pc)
    | close :: rest => if name = [] then (none, close :: rest) else (some name, rest)

/-- A function that parses for the compiler. -/
abbrev Parser (α : Type) := Compiler → List CorgiChar → Except Stop (α × Compiler × List CorgiChar)

section Parser

variable (branch : Parser (List Node))

/-- `parse_group`; `branch` is `parse_branch`. -/
def parseGroup : Parser Node := fun compiler pc => do
  let (name, pc) := getGroupName pc
  let groupId := compiler.groupId
  let (n, compiler, pc) ← branch { compiler with groupId := groupId + 1 } pc
  match pc with
  | [] => throw .outOfBounds
  | c :: rest =>
    if c ≠ ')'.toNat then throw (.error .parenthesisNotClosed)
    else
      return (.subpattern groupId name n, { compiler with groups := name :: compiler.groups }, rest)

def parseSinglePattern : Parser Node := fun compiler pc =>
  match pc with
  | [] => throw .outOfBounds
  | c :: rest =>
    if c = '['.toNat then do
      let (set, rest) ← parseIn rest
      return (.in set, compiler, rest)
    else if c = '\\'.toNat then do
      let (e, rest) ← parseEscape rest
      return (e.node, compiler, rest)
    else if c = '^'.toNat then return (.at .beginningLine, compiler, rest)
    else if c = '$'.toNat then return (.at .endLine, compiler, rest)
    else if c = '('.toNat then parseGroup branch compiler rest
    else if c = '.'.toNat then return (.any, compiler, rest)
    else return (.literal c, compiler, rest)

/-- `create_repeat_node` -/
def createRepeatNode (pc : List CorgiChar) (min max : Nat) (body : Node) : Node × List CorgiChar :=
  match pc with
  | c :: rest =>
    if c = '?'.toNat then (.minRepeat min max body, rest) else (.maxRepeat min max body, pc)
  | [] => (.maxRepeat min max body, pc)

/-- The loop of `parse_number`, in a `CorgiUInt`. -/
def parseNumberLoop : Nat → List CorgiChar → Nat × List CorgiChar
  | n, [] => (n, [])
  | n, c :: rest =>
    if isDigit c then parseNumberLoop ((10 * n + (c - '0'.toNat)) % 2 ^ 64) rest else (n, c :: rest)

def parseNumber (pc : List CorgiChar) (default : Nat) : Nat × List CorgiChar :=
  if pc.head?.any (isDigit ·) then parseNumberLoop 0 pc else (default, pc)

/-- `parse_min_max_repeat`; `rollback` is what follows the brace. -/
def parseMinMaxRepeat (rollback : List CorgiChar) (body : Node) : Node × List CorgiChar :=
  let (min, pc) := parseNumber rollback 0
  let (max, pc) := if pc.head? = some ','.toNat then parseNumber pc.tail 65535 else (min, pc)
  match pc with
  | [] => (.literal '{'.toNat, rollback)
  | c :: rest =>
    if c ≠ '}'.toNat then (.literal '{'.toNat, rollback) else createRepeatNode rest min max body

def parseRepeat : Parser Node := fun compiler pc => do
  let (n, compiler, pc) ← parseSinglePattern branch compiler pc
  match pc with
  | [] => return (n, compiler, pc)
  | c :: rest =>
    let (node, pc) :=
      if c = '?'.toNat then createRepeatNode rest 0 1 n
      else if c = '*'.toNat then createRepeatNode rest 0 65535 n
      else if c = '+'.toNat then createRepeatNode rest 1 65535 n
      else if c = '{'.toNat then parseMinMaxRepeat rest n
      else (n, pc)
    return (node, compiler, pc)

/-- The `while` loop of `parse_subpattern`. -/
def parseSubpatternLoop : Nat → Parser (List Node)
  | 0, _, _ => throw .running
  | fuel + 1, compiler, pc =>
    match pc with
    | [] => return ([], compiler, pc)
    | c :: _ =>
      if c = '|'.toNat ∨ c = ')'.toNat then return ([], compiler, pc)
      else do
        let (node, compiler, pc) ← parseRepeat branch compiler pc
        let (nodes, compiler, pc) ← parseSubpatternLoop fuel compiler pc
        return (node :: nodes, compiler, pc)

def parseSubpattern : Parser (List Node) := fun compiler pc => do
  let (node, compiler, rest) ← parseRepeat branch compiler pc
  let (nodes, compiler, rest) ← parseSubpatternLoop branch pc.length compiler rest
  return (node :: nodes, compiler, rest)

end Parser

def parseBranch : Nat → Parser (List Node)
  | 0, _, _ => throw .running
  | _ + 1, compiler, [] => return ([], compiler, [])
  | depth + 1, compiler, c :: pc => do
    let (left, compiler, pc) ← parseSubpattern (parseBranch depth) compiler (c :: pc)
    match pc with
    | [] => return (left, compiler, pc)
    | c :: rest =>
      if c ≠ '|'.toNat then return (left, compiler, pc)
      else do
        let (right, compiler, pc) ← parseSubpattern (parseBranch depth) compiler rest
        return ([.branch left right], compiler, pc)

/-- What `parse_to_instruction` parses. -/
def parse (pattern : List CorgiChar) : Except Stop (List Node × Compiler × List CorgiChar) :=
  parseBranch (pattern.length + 1) initCompiler pattern

end Corgi

end Yog
