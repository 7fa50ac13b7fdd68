import Yog.RegexpMatch
import Yog.YogString
import Yog.Lib.Partial

/-!
# Regular expressions as objects

`Regexp` and `Match`: `corgi_compile` of a pattern, `corgi_match` of a string from a position on,
and the groups of what was found.
-/

namespace Yog

namespace Corgi

structure CorgiRegexp where
  code : List CorgiCode
  /-- The names of the groups. -/
  groups : List (Option (List CorgiChar))

/-- `corgi_compile`; `alloc_groups` numbers the groups in the order they were closed. -/
def corgiCompile (pattern : List CorgiChar) (ignoreCase : Bool) : Option CorgiRegexp :=
  match parse pattern with
  | .error _ => none
  | .ok (node, compiler, _) =>
    (compile ignoreCase node).map fun code => ⟨code, compiler.groups.reverse⟩

structure CorgiMatch where
  begin : Nat
  «end» : Nat
  /-- Where the groups are, if they are anywhere. -/
  groups : List (Option (Nat × Nat))

/-- `set_group_range`, for a group whose marks are both set or neither. -/
def setGroupRange (state : State) (i : Nat) : Option (Nat × Nat) :=
  if (i : Int) < state.lastindex then
    match state.mark (2 * i), state.mark (2 * i + 1) with
    | some begin, some «end» => some (begin, «end»)
    | _, _ => none
  else none

end Corgi

inductive RegexpError
  | valueError (fmt : String)
  | indexError (fmt : String)
  /-- The engine reads or writes what is not there. -/
  | fault
  deriving DecidableEq

namespace YogRegexp

open Corgi YogString

/-- `corgi_match` -/
def corgiMatch (unicode : Unicode) (fuel : Nat) (regexp : CorgiRegexp) (subject : List CorgiChar)
    (start : Nat) : Partial RegexpError (Option CorgiMatch) :=
  match sreMatch unicode regexp.code subject fuel 0 start (initState start) with
  | none => Partial.running
  | some (.failure, _) => Partial.done (.ok none)
  | some (.fault, _) => Partial.done (.error .fault)
  | some (_, state) =>
    Partial.done (.ok (some
      ⟨start, state.ptr, (List.range regexp.groups.length).map (setGroupRange state)⟩))

/-- `match` of `regexp.c`, of a position that is not negative. -/
def «match» (unicode : Unicode) (fuel : Nat) (regexp : CorgiRegexp) (s : List YogChar)
    (pos : Nat) : Partial RegexpError (Option CorgiMatch) :=
  let n := normalizeIndex s pos
  if 0 < s.length ∧ index2offset s n = none then Partial.done (.ok none)
  else corgiMatch unicode fuel regexp (s.map Fin.val) pos

/-- The loop of `sre_search` for a program that begins with the literal `chr`, with the starts
left: the result of `sre_match` and where the match starts. -/
def searchLiteral (unicode : Unicode) (code : List CorgiCode) (subject : List CorgiChar)
    (fuel : Nat) (chr : CorgiCode) : Nat → Nat → State → Option (Ret × Nat × State)
  | 0, ptr, state => some (.failure, ptr, state)
  | turns + 1, ptr, state =>
    if subject[ptr]? ≠ some chr then
      searchLiteral unicode code subject fuel chr turns (ptr + 1) state
    else match sreMatch unicode code subject fuel 2 (ptr + 1) { state with ptr := ptr + 1 } with
      | none => none
      | some (.failure, after) =>
        searchLiteral unicode code subject fuel chr turns (ptr + 1) after
      | some (ret, after) => some (ret, ptr, after)

/-- The loop of `sre_search` for any other program. -/
def searchGeneral (unicode : Unicode) (code : List CorgiCode) (subject : List CorgiChar)
    (fuel : Nat) : Nat → Nat → State → Option (Ret × Nat × State)
  | 0, ptr, state => some (.failure, ptr, state)
  | turns + 1, ptr, state =>
    match sreMatch unicode code subject fuel 0 ptr { state with ptr } with
    | none => none
    | some (.failure, after) => searchGeneral unicode code subject fuel turns (ptr + 1) after
    | some (ret, after) => some (ret, ptr, after)

/-- `sre_search`; the compiler writes no information block. -/
def sreSearch (unicode : Unicode) (code : List CorgiCode) (subject : List CorgiChar)
    (fuel start : Nat) (state : State) : Option (Ret × Nat × State) :=
  match code[0]?.bind Opcode.ofCode, code[1]? with
  | some .literal, some chr =>
    searchLiteral unicode code subject fuel chr (subject.length - start) start state
  | _, _ => searchGeneral unicode code subject fuel (subject.length + 1 - start) start state

/-- `corgi_search` -/
def corgiSearch (unicode : Unicode) (fuel : Nat) (regexp : CorgiRegexp) (subject : List CorgiChar)
    (start : Nat) : Partial RegexpError (Option CorgiMatch) :=
  match sreSearch unicode regexp.code subject fuel start (initState start) with
  | none => Partial.running
  | some (.failure, _) => Partial.done (.ok none)
  | some (.fault, _) => Partial.done (.error .fault)
  | some (_, begin, state) =>
    Partial.done (.ok (some
      ⟨begin, state.ptr, (List.range regexp.groups.length).map (setGroupRange state)⟩))

/-- `search` of `regexp.c`, of a position that is not negative. -/
def search (unicode : Unicode) (fuel : Nat) (regexp : CorgiRegexp) (s : List YogChar)
    (pos : Nat) : Partial RegexpError (Option CorgiMatch) :=
  let n := normalizeIndex s pos
  if 0 < s.length ∧ index2offset s n = none then Partial.done (.ok none)
  else corgiSearch unicode fuel regexp (s.map Fin.val) pos

/-- `group_num` of a match in a string. -/
def groupNum (s : List YogChar) (m : CorgiMatch) : Nat → Except RegexpError (Option (List YogChar))
  | 0 => .ok (some ((s.drop m.begin).take (m.end - m.begin)))
  | id + 1 =>
    match m.groups[id]? with
    | none => .error (.indexError "No such group: %d")
    | some none => .ok none
    | some (some (begin, «end»)) => .ok (some ((s.drop begin).take («end» - begin)))

/-- `group_str` -/
def groupStr (regexp : CorgiRegexp) (s : List YogChar) (m : CorgiMatch) (group : List YogChar) :
    Except RegexpError (Option (List YogChar)) :=
  match regexp.groups.findIdx? (· = some (group.map Fin.val)) with
  | none => .error (.indexError "No such group: %S")
  | some id => groupNum s m (id + 1)

end YogRegexp

end Yog
