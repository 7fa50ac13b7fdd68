import Yog.Regexp

/-!
# The code of a regular expression

`node2instruction` and `instruction2code` of `corgi.c`. An instruction that is a label is known by
the number of labels created before it, and the result of a function is nothing where the source
follows `NULL`: a chain without instructions has no last one.
-/

namespace Yog

namespace Corgi

abbrev CorgiCode := Nat

/-- What is kept of a number that is assigned to a `CorgiCode`. -/
def toCode (n : Nat) : CorgiCode := n % 2 ^ 32

/-- The operations the compiler writes. -/
inductive Opcode
  | failure | success | any | at | branch | category | in | jump | literal | literalIgnore | mark
  | maxUntil | minUntil | negate | range | repeat
  deriving DecidableEq

namespace Opcode

/-- `OPCODES` of `constants.py` -/
def code : Opcode → CorgiCode
  | failure => 0
  | success => 1
  | any => 2
  | .at => 6
  | branch => 7
  | category => 9
  | .in => 15
  | jump => 18
  | literal => 19
  | literalIgnore => 20
  | mark => 21
  | maxUntil => 22
  | minUntil => 23
  | negate => 26
  | range => 27
  | .repeat => 28

def all : List Opcode :=
  [failure, success, any, .at, branch, category, .in, jump, literal, literalIgnore, mark, maxUntil,
    minUntil, negate, range, .repeat]

def ofCode (n : CorgiCode) : Option Opcode := all.find? (·.code = n)

end Opcode

namespace AtCode

/-- `ATCODES` -/
def code : AtCode → CorgiCode
  | beginning => 0
  | beginningLine => 1
  | beginningString => 2
  | boundary => 3
  | nonBoundary => 4
  | atEnd => 5
  | endLine => 6
  | endString => 7

def ofCode (n : CorgiCode) : Option AtCode :=
  [beginning, beginningLine, beginningString, boundary, nonBoundary, atEnd, endLine,
    endString].find? (·.code = n)

end AtCode

namespace CategoryCode

/-- `CHCODES` -/
def code : CategoryCode → CorgiCode
  | uniDigit => 10
  | uniNotDigit => 11
  | uniSpace => 12
  | uniNotSpace => 13
  | uniWord => 14
  | uniNotWord => 15

def ofCode (n : CorgiCode) : Option CategoryCode :=
  [uniDigit, uniNotDigit, uniSpace, uniNotSpace, uniWord, uniNotWord].find? (·.code = n)

end CategoryCode

abbrev Label := Nat

inductive Instruction
  | any
  | at (type : AtCode)
  | branch
  | category (type : CategoryCode)
  | failure
  | in (dest : Label)
  | jump (dest : Label)
  | label (label : Label)
  | literal (c : CorgiChar)
  | mark (id : Nat)
  | maxUntil
  | minUntil
  | negate
  | offset (dest : Label)
  | range (low high : CorgiChar)
  | repeat (dest : Label) (min max : Nat)
  | success
  deriving DecidableEq

def SetNode.instruction : SetNode → Instruction
  | .at type => .at type
  | .category type => .category type
  | .literal c => .literal c
  | .negate => .negate
  | .range low high => .range low high

/-- What a function emits, given the labels there are, and the labels there are then. -/
abbrev Emits := Label → Option (List Instruction × Label)

/-- One after the other. -/
def Emits.append (e e' : Emits) : Emits := fun labels => do
  let (i, labels) ← e labels
  let (i', labels) ← e' labels
  return (i ++ i', labels)

def in2instruction (set : List SetNode) : Emits := fun dest =>
  some (.in dest :: set.map SetNode.instruction ++ [.failure, .label dest], dest + 1)

/-- `branch_child2instruction`; `body` is what `node2instruction` makes of the child. -/
def branchChild2instruction (body : Emits) (branchLast : Label) : Emits := fun last => do
  let (i, labels) ← body (last + 1)
  if i = [] then none
  else return (.offset last :: i ++ [.jump branchLast, .label last], labels)

/-- `branch2instruction`; `children` is `branch_children2instruction`. -/
def branch2instruction (children : Label → Emits) : Emits := fun label => do
  let (internal, labels) ← children label (label + 1)
  return (.branch :: internal ++ [.failure, .label label], labels)

/-- `repeat2instruction`; `body` is what `single_node2instruction` makes of the body. -/
def repeat2instruction (min max : Nat) (body : Emits) (untilType : Instruction) : Emits :=
  fun dest => do
    let (i, labels) ← body (dest + 1)
    return (.repeat dest min max :: i ++ [.label dest, untilType], labels)

/-- `subpattern2instruction` -/
def subpattern2instruction (groupId : Nat) (body : Emits) : Emits := fun labels => do
  let (i, labels) ← body labels
  if i = [] then none else return (.mark (2 * groupId) :: i ++ [.mark (2 * groupId + 1)], labels)

mutual

def singleNode2instruction : Node → Emits
  | .any => fun labels => some ([.any], labels)
  | .at type => fun labels => some ([.at type], labels)
  | .branch left right =>
    branch2instruction fun branchLast =>
      (branchChild2instruction (node2instruction left) branchLast).append
        (branchRight2instruction right branchLast)
  | .in set => in2instruction set
  | .literal c => fun labels => some ([.literal c], labels)
  | .maxRepeat min max body => repeat2instruction min max (singleNode2instruction body) .maxUntil
  | .minRepeat min max body => repeat2instruction min max (singleNode2instruction body) .minUntil
  | .subpattern groupId _ node => subpattern2instruction groupId (node2instruction node)

def node2instruction : List Node → Emits
  | [] => fun labels => some ([], labels)
  | n :: next => (singleNode2instruction n).append (node2instruction next)

/-- What `branch_children2instruction` makes of the right child. -/
def branchRight2instruction : List Node → Label → Emits
  | [], _ => fun _ => none
  | .branch left right :: _, branchLast =>
    (branchChild2instruction (node2instruction left) branchLast).append
      (branchRight2instruction right branchLast)
  | n :: next, branchLast =>
    branchChild2instruction ((singleNode2instruction n).append (node2instruction next)) branchLast

end

/-- `get_instruction_size` -/
def Instruction.size : Instruction → Nat
  | .any | .branch | .failure | .maxUntil | .minUntil | .negate | .offset _ | .success => 1
  | .at _ | .category _ | .in _ | .jump _ | .literal _ | .mark _ => 2
  | .range _ _ => 3
  | .repeat _ _ _ => 4
  | .label _ => 0

/-- What `compute_instruction_position` sets the position of a label to. -/
def labelPosition (label : Label) : List Instruction → Nat
  | [] => 0
  | i :: rest => if i = .label label then 0 else i.size + labelPosition label rest

section Write

variable (ignoreCase : Bool) (position : Label → Nat)

def writeCode (pos : Nat) : Instruction → List CorgiCode
  | .any => [Opcode.any.code]
  | .at type => [Opcode.at.code, type.code]
  | .branch => [Opcode.branch.code]
  | .category type => [Opcode.category.code, type.code]
  | .failure => [Opcode.failure.code]
  | .in dest => [Opcode.in.code, toCode (position dest - pos - 1)]
  | .jump dest => [Opcode.jump.code, toCode (position dest - pos - 1)]
  | .label _ => []
  | .literal c => [(if ignoreCase then Opcode.literalIgnore else Opcode.literal).code, c]
  | .mark id => [Opcode.mark.code, toCode id]
  | .maxUntil => [Opcode.maxUntil.code]
  | .minUntil => [Opcode.minUntil.code]
  | .negate => [Opcode.negate.code]
  | .offset dest => [toCode (position dest - pos)]
  | .range low high => [Opcode.range.code, low, high]
  | .repeat dest min max =>
    [Opcode.repeat.code, toCode (position dest - pos - 1), toCode min, toCode max]
  | .success => [Opcode.success.code]

def instruction2binary : Nat → List Instruction → List CorgiCode
  | _, [] => []
  | pos, i :: rest =>
    writeCode ignoreCase position pos i ++ instruction2binary (pos + i.size) rest

end Write

def instruction2code (ignoreCase : Bool) (inst : List Instruction) : List CorgiCode :=
  instruction2binary ignoreCase (labelPosition · inst) 0 inst

/-- The code `corgi_compile` makes of what it has parsed. -/
def compile (ignoreCase : Bool) (node : List Node) : Option (List CorgiCode) := do
  let (inst, _) ← node2instruction node 0
  return instruction2code ignoreCase (inst ++ [.success])

end Corgi

end Yog
