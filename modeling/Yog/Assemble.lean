import Yog.Lib.Bytes
import Yog.VarTable

/-!
# The assembler

What `compile_stmts` does with a finished instruction list: program counters (`calc_pc`), the bytes
(`insts2bin`), the stack size (`count_stack_size`), the exception table and the line table. These
read the instructions as the list stores them, so the list is narrowed first.

The list of the model also holds notes. They are marks for proofs about the list, of no size and
no effect: where a statement starts and ends, where the protected part of a `try` starts and ends,
and where the copy of a `finally` body that a jump runs starts and ends. The assembler passes over
them as it passes over the anchor.
-/

namespace Yog

/-- A mark in the instruction list. A `try` is named by the label its head starts at. -/
inductive Note where
  | stmtStart
  | stmtEnd
  | headStart (node handler : Label)
  | headEnd (node : Label)
  | copyStart (node : Label)
  | copyEnd (node : Label)
  deriving DecidableEq, Repr

/-- An element of the instruction list (`YogInst`). -/
inductive Inst where
  | op (lineno : Lineno) (op : Op Label)
  | label (l : Label)
  | note (n : Note)
  deriving DecidableEq, Repr

namespace Inst

/-- The element as it is stored. -/
def narrow : Inst → Inst
  | .op lineno o => .op lineno o.narrow
  | inst => inst

/-- The size `calc_pc` counts. -/
def size : Inst → Nat
  | .op _ o => o.opcode.instSize
  | _ => 0

/-- The opcode of an operation; labels and notes have none. -/
def op? : Inst → Option (Op Label)
  | .op _ o => some o
  | _ => none

def isNote : Inst → Bool
  | .note _ => true
  | _ => false

end Inst

/-- The byte size of a list. -/
def codeSize (insts : List Inst) : Nat := (insts.map Inst.size).sum

/-- `calc_pc`, from a program counter on: the `pc` of each element. -/
def calcPc : List Inst → Nat → List Nat
  | [], _ => []
  | inst :: insts, pc => pc :: calcPc insts (pc + inst.size)

/-- The `pc` that `calc_pc` leaves in the node of a label. The node of a label that is in no list
keeps the zero it was created with. -/
def labelPc (l : Label) (insts : List Inst) : Nat :=
  (((insts.zip (calcPc insts 0)).find? (·.1 = .label l)).map Prod.snd).getD 0

/-- `YogBinary_push_*` of an operand. -/
def Operand.bytes : Operand Nat → List UInt8
  | .uint8 n => Bytes.littleEndian 1 n
  | .uint n => Bytes.littleEndian 8 n
  | .id i => Bytes.littleEndian 8 i.toNat
  | .pc dest => Bytes.littleEndian 8 dest

/-- The bytes of one instruction. -/
def Op.bytes (op : Op Nat) : List UInt8 :=
  Bytes.littleEndian 1 op.opcode.toNat ++ op.operands.flatMap Operand.bytes

/-- The operations of the list, with the program counters of their destinations. -/
def resolve (insts : List Inst) : List (Op Nat) :=
  (insts.filterMap Inst.op?).map (Op.mapDest (labelPc · insts))

/-- `insts2bin`. The buffer grows as it is written, and a buffer that does not fit the address space
is not allocated. -/
def insts2bin (insts : List Inst) : Except CompileError (List UInt8) :=
  if codeSize insts < 2 ^ 64 then return (resolve insts).flatMap Op.bytes
  else throw .outOfMemory

/-- `count_stack_size`, from a size and a maximum. -/
def countStackSizeFrom : List Inst → Nat → Nat → Except CompileError Nat
  | [], _, max => return max
  | .op _ op :: insts, size, max =>
    if size + op.pushSize < op.popSize then throw (.bug "Too many pops")
    else
      let size := size + op.pushSize - op.popSize
      countStackSizeFrom insts size (if max < size then size else max)
  | _ :: insts, size, max => countStackSizeFrom insts size max

def countStackSize (insts : List Inst) : Except CompileError Nat := countStackSizeFrom insts 0 0

/-- A row of an exception table: of the compiler over labels, of the code over program counters. -/
structure ExceptionTableEntry (δ : Type) where
  from_ : δ
  to_ : δ
  target : δ
  deriving DecidableEq, Repr

def ExceptionTableEntry.map {δ ε : Type} (f : δ → ε) (e : ExceptionTableEntry δ) :
    ExceptionTableEntry ε :=
  ⟨f e.from_, f e.to_, f e.target⟩

/-- `make_exception_table`: the rows that are not empty, in the order of the list. -/
def makeExceptionTable (insts : List Inst) (excTbl : List (ExceptionTableEntry Label)) :
    List (ExceptionTableEntry Nat) :=
  (excTbl.map (·.map (labelPc · insts))).filter fun e => e.from_ ≠ e.to_

structure LinenoTableEntry where
  pcFrom : Nat
  pcTo : Nat
  lineno : Nat
  deriving DecidableEq, Repr

/-- The rows the first loop of `make_lineno_table` counts, behind an instruction of this line. -/
def countLinenoRows : List Inst → Nat → Nat
  | [], _ => 0
  | .op lineno _ :: insts, last =>
    if lineno.number ≠ last then countLinenoRows insts lineno.number + 1
    else countLinenoRows insts last
  | _ :: insts, last => countLinenoRows insts last

/-- The second loop of `make_lineno_table`, from a program counter and the row being filled (line 0
before the first one). -/
def makeLinenoTableFrom :
    List Inst → Nat → Option LinenoTableEntry → Except CompileError (List LinenoTableEntry)
  | [], _, row => return row.toList
  | .op lineno op :: insts, pc, row => do
    let next := pc + op.opcode.instSize
    if lineno.number ≠ (row.map (·.lineno)).getD 0 then
      return row.toList ++ (← makeLinenoTableFrom insts next (some ⟨pc, next, lineno.number⟩))
    else
      match row with
      | some row => makeLinenoTableFrom insts next (some { row with pcTo := next })
      | none => throw (.bug "invalid line number")
  | _ :: insts, pc, row => makeLinenoTableFrom insts pc row

/-- `make_lineno_table`. A body without statements has a `RET` of line 0, and no table. -/
def makeLinenoTable (insts : List Inst) : Except CompileError (List LinenoTableEntry) :=
  if 0 < countLinenoRows insts 0 then makeLinenoTableFrom insts 0 none else return []

end Yog
