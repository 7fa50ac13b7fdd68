import Yog.RegexpMatch
import Yog.Lib.Backtracking

/-!
# Matching a tree by backtracking

What a tree matches, as a search for a way through its nodes: alternatives are tried from left to
right, and of the numbers of iterations a greedy repetition tries the largest first and a reluctant
one the smallest. An iteration a greedy repetition could do without is not started where the last
such one was.
-/

namespace Yog

namespace Corgi

open Backtracking (Choice)

/-- What the leaves of a tree mean. -/
structure Meaning where
  /-- Whether a character matches a literal. -/
  literal : CorgiChar → CorgiChar → Bool
  /-- Whether a character is in a set, if that can be told. -/
  set : List SetNode → CorgiChar → Option Bool
  bound : ℕ → ℕ
  /-- Whether a group can be entered. -/
  group : ℕ → Bool

section Members

variable (unicode : Unicode) (ignoreCase : Bool)

/-- Whether a character matches a literal. -/
def literalMatches (c ch : CorgiChar) : Bool :=
  if ignoreCase then unicode.tolower ch = unicode.tolower c else ch = c

/-- Whether a character is in a range, whatever its case if that is to be ignored. -/
def rangeMatches (low high ch : CorgiChar) : Bool :=
  if ignoreCase then
    (List.range' low (high + 1 - low)).any fun d => unicode.tolower d = unicode.tolower ch
  else low ≤ ch && ch ≤ high

/-- Whether a character is in a set; `ok` is the result of a member that matches. -/
def setMatches : List SetNode → CorgiChar → Bool → Bool
  | [], _, ok => !ok
  | .literal c :: set, ch, ok =>
    if literalMatches unicode ignoreCase c ch then ok else setMatches set ch ok
  | .category type :: set, ch, ok =>
    if unicode.sreCategory type ch then ok else setMatches set ch ok
  | .range low high :: set, ch, ok =>
    if rangeMatches unicode ignoreCase low high ch then ok else setMatches set ch ok
  | .negate :: set, ch, ok => setMatches set ch !ok
  | .at _ :: set, ch, ok => setMatches set ch ok

/-- What the syntax means. -/
def meaning : Meaning where
  literal := literalMatches unicode ignoreCase
  set set ch := some (setMatches unicode ignoreCase set ch true)
  bound n := n
  group _ := true

end Members

/-- What is still to be matched: a node, or further iterations of a repetition, `count` of which are
done. An iteration that could have been done without was last started at `last`. -/
inductive Task
  | node (n : Node)
  | loop (greedy : Bool) (min max : ℕ) (body : Node) (count : ℕ) (last : Option ℕ)

inductive Answer
  | found (ptr : ℕ)
  /-- It cannot be told. -/
  | fault
  deriving DecidableEq

/-- The tasks that remain, and the position in the subject. -/
abbrev Config := List Task × ℕ

section Next

variable (m : Meaning) (subject : List CorgiChar)

/-- A single character, if it passes the test. -/
def charStep (test : CorgiChar → Option Bool) (ts : List Task) (p : ℕ) : Choice Config Answer :=
  match subject[p]? with
  | none => .fail
  | some ch =>
    match test ch with
    | none => .accept .fault
    | some true => .goto (ts, p + 1)
    | some false => .fail

/-- Whether a repetition may go on. -/
def MayRepeat (max count : ℕ) : Prop := count < max ∨ max = 65535

instance (max count : ℕ) : Decidable (MayRepeat max count) := inferInstanceAs (Decidable (_ ∨ _))

def next : Config → Choice Config Answer
  | ([], p) => .accept (.found p)
  | (.node n :: ts, p) =>
    match n with
    | .any => charStep subject (fun ch => some !isLinebreak ch) ts p
    | .at type => if sreAt subject p type then .goto (ts, p) else .fail
    | .branch left right => .orElse (left.map .node ++ ts, p) (right.map .node ++ ts, p)
    | .in set => charStep subject (m.set set) ts p
    | .literal c => charStep subject (fun ch => some (m.literal c ch)) ts p
    | .maxRepeat min max body => .goto (.loop true (m.bound min) (m.bound max) body 0 none :: ts, p)
    | .minRepeat min max body =>
      .goto (.loop false (m.bound min) (m.bound max) body 0 none :: ts, p)
    | .subpattern groupId _ node =>
      if m.group groupId then .goto (node.map .node ++ ts, p) else .accept .fault
  | (.loop greedy min max body count last :: ts, p) =>
    if count < min then .goto (.node body :: .loop greedy min max body (count + 1) last :: ts, p)
    else
      let again := (.node body :: .loop greedy min max body (count + 1) (some p) :: ts, p)
      if greedy then
        if MayRepeat max count ∧ last ≠ some p then .orElse again (ts, p) else .goto (ts, p)
      else if MayRepeat max count then .orElse (ts, p) again
      else .goto (ts, p)

/-- What a tree comes to at a position. -/
abbrev Matches (ns : List Node) (p : ℕ) (r : Option Answer) : Prop :=
  Backtracking.Search (next m subject) (ns.map .node, p) r

end Next

end Corgi

end Yog
