import Yog.RegexpCode

/-!
# The engine of regular expressions

`sre_match` of `corgi.c`, for the operations the compiler writes. A position in the subject is
counted from its beginning, one in the code from its first word. A jump that comes back is a call
`jump` of the function, which has fuel, as a run may not end. Repeat contexts are numbered in the
order they are allocated, and freed in the reverse order.
-/

namespace Yog

namespace Corgi

/-- The functions of `unicode.c`, which reads them from the Unicode database. -/
structure Unicode where
  isSpace : CorgiChar → Bool
  isDecimal : CorgiChar → Bool
  isDigit : CorgiChar → Bool
  isNumeric : CorgiChar → Bool
  isAlpha : CorgiChar → Bool
  tolower : CorgiChar → CorgiChar

/-- `SRE_IS_LINEBREAK` -/
def isLinebreak (c : CorgiChar) : Bool := c = 10

/-- `SRE_IS_WORD` -/
def isWord (c : CorgiChar) : Bool := isAlpha c ∨ Yog.isDigit c ∨ c = '_'.toNat

namespace Unicode

variable (unicode : Unicode)

def isAlnum (c : CorgiChar) : Bool :=
  unicode.isAlpha c || unicode.isDecimal c || unicode.isDigit c || unicode.isNumeric c

def isWord (c : CorgiChar) : Bool := unicode.isAlnum c || c = '_'.toNat

/-- `sre_category` -/
def sreCategory : CategoryCode → CorgiChar → Bool
  | .uniDigit, c => unicode.isDigit c
  | .uniNotDigit, c => !unicode.isDigit c
  | .uniSpace, c => unicode.isSpace c
  | .uniNotSpace, c => !unicode.isSpace c
  | .uniWord, c => unicode.isWord c
  | .uniNotWord, c => !unicode.isWord c

end Unicode

/-- `sre_at` -/
def sreAt (subject : List CorgiChar) (ptr : Nat) : AtCode → Bool
  | .beginning | .beginningString => ptr = 0
  | .beginningLine => ptr = 0 ∨ subject[ptr - 1]?.any isLinebreak
  | .atEnd => (ptr + 1 = subject.length ∧ subject[ptr]?.any isLinebreak) ∨ ptr = subject.length
  | .endLine => ptr = subject.length ∨ subject[ptr]?.any isLinebreak
  | .endString => ptr = subject.length
  | .boundary =>
    if subject.length = 0 then false
    else (if 0 < ptr then subject[ptr - 1]?.any isWord else false) != subject[ptr]?.any isWord
  | .nonBoundary =>
    if subject.length = 0 then false
    else (if 0 < ptr then subject[ptr - 1]?.any isWord else false) == subject[ptr]?.any isWord

/-- The loop of `sre_charset`, or nothing if it aborts. -/
def sreCharset (unicode : Unicode) (code : List CorgiCode) (ch : CorgiChar) :
    Nat → Nat → Bool → Option Bool
  | 0, _, _ => none
  | fuel + 1, set, ok =>
    match code[set]?.bind Opcode.ofCode with
    | some .failure => some !ok
    | some .literal =>
      match code[set + 1]? with
      | some c => if ch = c then some ok else sreCharset unicode code ch fuel (set + 2) ok
      | none => none
    | some .category =>
      match code[set + 1]?.bind CategoryCode.ofCode with
      | some category =>
        if unicode.sreCategory category ch then some ok
        else sreCharset unicode code ch fuel (set + 2) ok
      | none => none
    | some .range =>
      match code[set + 1]?, code[set + 2]? with
      | some low, some high =>
        if low ≤ ch ∧ ch ≤ high then some ok
        else sreCharset unicode code ch fuel (set + 3) ok
      | _, _ => none
    | some .negate => sreCharset unicode code ch fuel (set + 1) !ok
    | _ => none

structure Repeat where
  count : Int
  /-- Where the operands of `REPEAT` are. -/
  pattern : Nat
  lastPtr : Option Nat
  prev : Option Nat
  deriving DecidableEq

structure State where
  ptr : Nat
  lastindex : Int
  lastmark : Int
  mark : Nat → Option Nat
  «repeat» : Option Nat
  /-- The repeat contexts. -/
  contexts : Nat → Repeat
  /-- How many are allocated. -/
  allocated : Nat

/-- `SRE_MARK_SIZE` -/
def markSize : Nat := 200

namespace State

/-- `MARK`, unless it writes behind the array. -/
def setMark (state : State) (i ptr : Nat) : Option State :=
  if markSize ≤ i then none
  else
    let lastindex : Int := if i % 2 = 1 then i / 2 + 1 else state.lastindex
    if state.lastmark < i then
      some { state with
        lastindex, lastmark := i
        mark := fun j => if j = i then some ptr
          else if state.lastmark < j ∧ j < i then none else state.mark j }
    else some { state with lastindex, mark := fun j => if j = i then some ptr else state.mark j }

/-- `LASTMARK_RESTORE` -/
def restoreLastmark (state saved : State) : State :=
  { state with lastmark := saved.lastmark, lastindex := saved.lastindex }

/-- `MARK_POP` of what `MARK_PUSH` has saved. -/
def popMarks (state saved : State) : State :=
  { state with
    mark := fun j => if 0 < saved.lastmark ∧ j ≤ saved.lastmark then saved.mark j
      else state.mark j }

def setContext (state : State) (i : Nat) (rep : Repeat) : State :=
  { state with contexts := fun j => if j = i then rep else state.contexts j }

end State

/-- What `sre_match` returns: `error` is a negative number. -/
inductive Ret
  | success | failure | error
  /-- The program reads or writes what is not there, or aborts. -/
  | fault
  deriving DecidableEq

/-- What is done if a jump returns a failure; another result is returned at once. -/
def onFailure (r : Option (Ret × State)) (f : State → Option (Ret × State)) :
    Option (Ret × State) :=
  match r with
  | some (.failure, after) => f after
  | r => r

section Match

variable (unicode : Unicode) (code : List CorgiCode) (subject : List CorgiChar)

/-- `sre_charset` of the set at a place in the code. -/
def charsetAt (set : Nat) (ch : CorgiChar) : Option Bool :=
  sreCharset unicode code ch code.length set true

/-- The test `BRANCH` makes before it tries an alternative: whether to pass over it. -/
def passesOver (pattern ptr : Nat) : Option Bool :=
  match code[pattern + 1]?.bind Opcode.ofCode with
  | some .literal => some (subject[ptr]? ≠ code[pattern + 2]?)
  | some .in =>
    match subject[ptr]? with
    | none => some true
    | some ch => (charsetAt unicode code (pattern + 3) ch).map (!·)
  | _ => some false

variable (jump : Nat → Nat → State → Option (Ret × State))

/-- The loop of `BRANCH`; `saved` is the state the operation was met in. -/
def matchBranches : Nat → Nat → Nat → State → State → Option (Ret × State)
  | 0, _, _, _, _ => none
  | turns + 1, pattern, ptr, state, saved =>
    match code[pattern]? with
    | none => some (.fault, state)
    | some skip =>
      if skip = 0 then some (.failure, state)
      else
        match passesOver unicode code subject pattern ptr with
        | none => some (.fault, state)
        | some true => matchBranches turns (pattern + skip) ptr state saved
        | some false =>
          onFailure (jump (pattern + 1) ptr { state with ptr }) fun after =>
            let after := if saved.repeat.isSome then after.popMarks saved else after
            matchBranches turns (pattern + skip) ptr (after.restoreLastmark saved) saved

/-- `REPEAT` -/
def matchRepeat (pattern ptr : Nat) (state : State) : Option (Ret × State) :=
  match code[pattern]? with
  | none => some (.fault, state)
  | some skip =>
    let rep : Repeat := { count := -1, pattern, lastPtr := none, prev := state.repeat }
    let inner := state.setContext state.allocated rep
    (jump (pattern + skip) ptr { inner with
      ptr, «repeat» := some state.allocated, allocated := state.allocated + 1 }).map
        fun (ret, after) =>
          (ret, { after with «repeat» := rep.prev, allocated := state.allocated })

/-- What `MAX_UNTIL` and `MIN_UNTIL` do to match the body of the context `i` once more, if there
have been `count` matches. -/
def matchBody (i : Nat) (count : Int) (ptr : Nat) (state : State) : Option (Ret × State) :=
  let rep := state.contexts i
  onFailure (jump (rep.pattern + 3) ptr { state.setContext i { rep with count } with ptr })
    fun after =>
      some (.failure, { after.setContext i { after.contexts i with count := count - 1 } with ptr })

/-- What `MAX_UNTIL` does if it can match no more of the context `i`. -/
def matchTail (i pattern ptr : Nat) (state : State) : Option (Ret × State) :=
  let rep := state.contexts i
  onFailure (jump pattern ptr { state with «repeat» := rep.prev, ptr }) fun after =>
    some (.failure, { after with «repeat» := some i, ptr })

/-- `MAX_UNTIL` -/
def matchMaxUntil (pattern ptr : Nat) (state : State) : Option (Ret × State) :=
  match state.repeat with
  | none => some (.error, state)
  | some i =>
    let rep := state.contexts i
    let count := rep.count + 1
    match code[rep.pattern + 1]?, code[rep.pattern + 2]? with
    | some min, some max =>
      if count < min then
        -- not enough matches
        matchBody jump i count ptr state
      else if (count < max ∨ max = 65535) ∧ rep.lastPtr ≠ some ptr then
        -- zero-width match protection
        let body := (matchBody jump i count ptr
          (state.setContext i { rep with lastPtr := some ptr })).map fun (ret, after) =>
            (ret, after.setContext i { after.contexts i with lastPtr := rep.lastPtr })
        onFailure body fun after =>
          matchTail jump i pattern ptr ((after.popMarks state).restoreLastmark state)
      else matchTail jump i pattern ptr state
    | _, _ => some (.fault, state)

/-- `MIN_UNTIL` -/
def matchMinUntil (pattern ptr : Nat) (state : State) : Option (Ret × State) :=
  match state.repeat with
  | none => some (.error, state)
  | some i =>
    let rep := state.contexts i
    let count := rep.count + 1
    match code[rep.pattern + 1]?, code[rep.pattern + 2]? with
    | some min, some max =>
      if count < min then
        -- not enough matches
        matchBody jump i count ptr state
      else
        -- see if the tail matches
        onFailure (matchTail jump i pattern ptr state) fun after =>
          let after := after.restoreLastmark state
          if max ≤ count ∧ max ≠ 65535 then some (.failure, after)
          else matchBody jump i count ptr after
    | _, _ => some (.fault, state)

/-- One turn of the loop of `sre_match`. -/
def matchTurn (pattern ptr : Nat) (state : State) : Option (Ret × State) :=
  match code[pattern]?.bind Opcode.ofCode with
  | some .mark =>
    match code[pattern + 1]?.bind (state.setMark · ptr) with
    | some state => jump (pattern + 2) ptr state
    | none => some (.fault, state)
  | some .literal =>
    match subject[ptr]? with
    | none => some (.failure, state)
    | some ch =>
      if some ch ≠ code[pattern + 1]? then some (.failure, state)
      else jump (pattern + 2) (ptr + 1) state
  | some .literalIgnore =>
    match subject[ptr]? with
    | none => some (.failure, state)
    | some ch =>
      if some (unicode.tolower ch) ≠ code[pattern + 1]?.map unicode.tolower then
        some (.failure, state)
      else jump (pattern + 2) (ptr + 1) state
  | some .success => some (.success, { state with ptr })
  | some .at =>
    match code[pattern + 1]?.bind AtCode.ofCode with
    | none => some (.fault, state)
    | some type =>
      if sreAt subject ptr type then jump (pattern + 2) ptr state else some (.failure, state)
  | some .any =>
    match subject[ptr]? with
    | none => some (.failure, state)
    | some ch =>
      if isLinebreak ch then some (.failure, state) else jump (pattern + 1) (ptr + 1) state
  | some .in =>
    match subject[ptr]? with
    | none => some (.failure, state)
    | some ch =>
      match charsetAt unicode code (pattern + 2) ch, code[pattern + 1]? with
      | some true, some skip => jump (pattern + 1 + skip) (ptr + 1) state
      | some false, _ => some (.failure, state)
      | _, _ => some (.fault, state)
  | some .jump =>
    match code[pattern + 1]? with
    | some skip => jump (pattern + 1 + skip) ptr state
    | none => some (.fault, state)
  | some .branch =>
    matchBranches unicode code subject jump (code.length + 1) (pattern + 1) ptr state state
  | some .repeat => matchRepeat code jump (pattern + 1) ptr state
  | some .maxUntil => matchMaxUntil code jump (pattern + 1) ptr state
  | some .minUntil => matchMinUntil code jump (pattern + 1) ptr state
  | some .failure => some (.failure, state)
  | _ => some (.error, state)

/-- `sre_match`, with fuel for its turns and the jumps that come back. -/
def sreMatch : Nat → Nat → Nat → State → Option (Ret × State)
  | 0, _, _, _ => none
  | fuel + 1, pattern, ptr, state =>
    matchTurn unicode code subject (sreMatch fuel) pattern ptr state

end Match

/-- `state_init` -/
def initState (start : Nat) : State where
  ptr := start
  lastindex := -1
  lastmark := -1
  mark _ := none
  «repeat» := none
  contexts _ := { count := 0, pattern := 0, lastPtr := none, prev := none }
  allocated := 0

end Corgi

end Yog
