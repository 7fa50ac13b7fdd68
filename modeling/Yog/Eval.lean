import Yog.CompileData

/-!
# The machine

The parts of `eval.c` that read a body and its tables: the fetch of an instruction with the operand
readers `inst.py` generates, the search of the exception table, and the three ways by which the
values a callee returns come to the operand stack of its caller.
-/

namespace Yog

/-- The operand of a type that a number read at its width is. -/
def OperandType.operand (n : Nat) : OperandType → Operand Nat
  | .uint8 => .uint8 n
  | .uint => .uint n
  | .id => .id (.ofNat n)
  | .pc => .pc n

/-- Read an operand: the program counter must be in the code, and is advanced by the operand's size.
A read across the end of the code has no defined value. -/
def readOperand (bytes : List UInt8) (pc : Nat) (type : OperandType) : Option (Operand Nat × Nat) :=
  if pc < bytes.length then
    (Bytes.slice bytes pc type.size).map fun bs => (type.operand (Bytes.value bs), pc + type.size)
  else none

def readOperands (bytes : List UInt8) (pc : Nat) :
    List OperandType → Option (List (Operand Nat) × Nat)
  | [] => some ([], pc)
  | type :: types => do
    let (operand, pc) ← readOperand bytes pc type
    let (operands, pc) ← readOperands bytes pc types
    return (operand :: operands, pc)

/-- One round of the main loop up to the body of the instruction: the instruction at `pc` and the
program counter the frame then has. -/
def fetch (bytes : List UInt8) (pc : Nat) : Option (Op Nat × Nat) := do
  let byte ← bytes[pc]?
  let opcode ← Opcode.ofNat? byte.toNat
  let (operands, next) ← readOperands bytes (pc + 1) opcode.operandTypes
  let op ← Op.ofOperands opcode operands
  return (op, next)

/-- The instructions from `pc` to the end, advancing by `Yog_get_inst_size` as `code.c` does when it
dumps a body. -/
def decodeFrom (bytes : List UInt8) : Nat → Nat → Option (List (Op Nat))
  | 0, pc => if pc = bytes.length then some [] else none
  | fuel + 1, pc =>
    if pc = bytes.length then some []
    else do
      let (op, _) ← fetch bytes pc
      let ops ← decodeFrom bytes fuel (pc + op.opcode.instSize)
      return op :: ops

/-- Every instruction has a byte, so the length bounds the number of steps. -/
def decode (bytes : List UInt8) : Option (List (Op Nat)) := decodeFrom bytes bytes.length 0

/-- `find_exception_table_entry`. The program counter of the frame is the one after the instruction
that raised. -/
def findExceptionTableEntry (excTbl : List (ExceptionTableEntry Nat)) (pc : Nat) : Option Nat :=
  (excTbl.find? fun e => e.from_ < pc ∧ pc ≤ e.to_).map ExceptionTableEntry.target

/-- `YogCode_get_lineno`. -/
def getLineno (linenoTbl : List LinenoTableEntry) (pc : Nat) : Option Nat :=
  (linenoTbl.find? fun e => e.pcFrom ≤ pc ∧ pc ≤ e.pcTo).map LinenoTableEntry.lineno

/-- The line of a script frame in a stack trace: that of the byte before the program counter, which
is unsigned. -/
def traceLineno (linenoTbl : List LinenoTableEntry) (pc : Nat) : Nat :=
  let pc := (pc + (2 ^ 64 - 1)) % 2 ^ 64
  ((linenoTbl.find? fun e => e.pcFrom ≤ pc ∧ pc < e.pcTo).map LinenoTableEntry.lineno).getD 0

/-- `lhs_left_num`, `lhs_middle_num` and `lhs_right_num` of a frame waiting for a call. Targets to
the right only follow a middle one, of which there is at most one. -/
structure LhsComposition where
  left : Nat
  middle : Nat
  right : Nat
  middle_le : middle ≤ 1
  right_eq : middle = 0 → right = 0

inductive ValueError where
  | tooFew
  | unmatched
  deriving DecidableEq, Repr

section Returned

variable {V : Type} (array : List V → V) (nil : V) (lhs : LhsComposition)

/-- `YogEval_push_returned_value`: what is pushed for one value, in the order of the pushes. -/
def pushReturnedValue (val : V) : Except ValueError (List V) :=
  if lhs.left + lhs.middle + lhs.right = 0 then .ok []
  else if 0 < lhs.middle then
    if 0 < lhs.left + lhs.right then .error .tooFew else .ok [array [val]]
  else if lhs.left ≠ 1 then .error .unmatched
  else .ok [val]

/-- `move_returned_value`: the values are popped from the callee's frame, the first one first. -/
def moveReturnedValue (vals : List V) : Except ValueError (List V) :=
  let n := vals.length
  if n = 0 then pushReturnedValue array lhs nil
  else if lhs.left + lhs.middle + lhs.right = 0 then .ok []
  else if 0 < lhs.middle ∧ n < lhs.left + lhs.right then .error .tooFew
  else if lhs.middle = 0 ∧ lhs.left ≠ n then .error .unmatched
  else
    let rest := vals.drop lhs.left
    let middleNum := n - lhs.left - lhs.right
    .ok (vals.take lhs.left
      ++ (if 0 < lhs.middle then
            array (rest.take middleNum) :: (rest.drop middleNum).take lhs.right
          else rest.take lhs.right))

/-- `push_from_array`. -/
def pushFromArray (vals : List V) (from_ to_ : Nat) : List V := (vals.take to_).drop from_

/-- `YogEval_push_returned_multi_value` of an array with elements. -/
def pushReturnedMultiValue (vals : List V) : Except ValueError (List V) :=
  let n := vals.length
  if lhs.left + lhs.middle + lhs.right = 0 then .ok []
  else if 0 < lhs.middle ∧ n < lhs.left + lhs.right then .error .tooFew
  else if lhs.middle = 0 ∧ lhs.left ≠ n then .error .unmatched
  else
    .ok (pushFromArray vals 0 lhs.left
      ++ (if 0 < lhs.middle then [array (pushFromArray vals lhs.left (n - lhs.right))] else [])
      ++ pushFromArray vals (n - lhs.right) n)

/-- `make_jmp_val`, and `return_args` of a coroutine: no values become a nil. -/
def makeJmpVal (vals : List V) : List V := if vals.length = 0 then [nil] else vals

/-- The `ret` instruction. -/
def scriptReturn (vals : List V) : Except ValueError (List V) := moveReturnedValue array nil lhs vals

/-- The return of a native function: a single value is the function's result, and other numbers of
values are an array in the frame. -/
def nativeReturn : List V → Except ValueError (List V)
  | [val] => pushReturnedValue array lhs val
  | vals => pushReturnedMultiValue array lhs (makeJmpVal nil vals)

/-- The arrival of a long return or a long break (`push_jmp_val`). -/
def longJumpReturn (vals : List V) : Except ValueError (List V) :=
  pushReturnedMultiValue array lhs (makeJmpVal nil vals)

end Returned

end Yog
