import Mathlib.Tactic.Ring

/-!
# Instructions

The instructions of `insts.def`. An instruction is an opcode, numbered by its place in the file,
and operands of four types; the compiler's form of it names jump destinations by labels and the
machine's form by program counters, so `Op` is over the type of destinations.

The operands hold what the compiler passes to `CompileData_add_*`. The union an instruction is
stored in has narrower members: `Op.narrow` is the conversion the call makes.

`popSize` and `pushSize` are what the third and fourth lines of an entry declare and
`count_stack_size` counts. `pops` and `pushes` are what executing the instruction takes from and
leaves on the operand stack of its frame: `call_function` also pops the callee.
-/

namespace Yog

/-- An interned name (`ID`), eight bytes. -/
abbrev ID := UInt64

/-- A label of the instruction list (`INST_LABEL`), named by the order of its creation. -/
structure Label where
  id : Nat
  deriving DecidableEq, Repr

/-- The binary operators, in the order of `YogBinop`. -/
inductive Binop where
  | add | subtract | multiply | divide | floorDivide | search | lshift | rshift | modulo | power
  | and | or | xor | less | greater | lessEqual | greaterEqual | equal | notEqual | ufo
  deriving DecidableEq, Repr

/-- The opcodes, in the order of `insts.def`. -/
inductive Opcode where
  | pop | pushConst | makeString | storeLocalName | storeLocalIndex | makeBlock | makeFunction
  | callFunction | loadGlobal | loadLocalName | loadLocalIndex | loadSuper | jump | jumpIfTrue
  | jumpIfFalse | jumpIfDefined | dup | makeModule | makeClass | ret | storeNonlocalIndex
  | loadNonlocalIndex | storeNonlocalName | loadNonlocalName | storeGlobal | loadAttr | makeArray
  | makeDict | makeSet | finish | printTop | printTopMultiValue | storeAttr | not | longReturn
  | longBreak | loadException | matchException | add | subtract | multiply | divide | floorDivide
  | modulo | power | lshift | rshift | and | or | xor | search | less | greater | lessEqual
  | greaterEqual | equal | notEqual | ufo | subscript
  deriving DecidableEq, Repr

/-- An instruction, with jump destinations of type `δ`. -/
inductive Op (δ : Type) where
  | pop
  | pushConst (index : Nat)
  | makeString (index : Nat)
  | storeLocalName (id : ID)
  | storeLocalIndex (index : Nat)
  | makeBlock
  | makeFunction (name : ID)
  | callFunction (argc kwargc varargc varkwargc blockargc left middle right : Nat)
  | loadGlobal (id : ID)
  | loadLocalName (id : ID)
  | loadLocalIndex (index : Nat)
  | loadSuper
  | jump (dest : δ)
  | jumpIfTrue (dest : δ)
  | jumpIfFalse (dest : δ)
  | jumpIfDefined (index : Nat) (dest : δ)
  | dup
  | makeModule (name : ID)
  | makeClass
  | ret (n : Nat)
  | storeNonlocalIndex (level index : Nat)
  | loadNonlocalIndex (level index : Nat)
  | storeNonlocalName (level : Nat) (name : ID)
  | loadNonlocalName (level : Nat) (name : ID)
  | storeGlobal (name : ID)
  | loadAttr (name : ID)
  | makeArray (size : Nat)
  | makeDict (size : Nat)
  | makeSet (size : Nat)
  | finish
  | printTop
  | printTopMultiValue
  | storeAttr (name : ID)
  | not
  | longReturn (n : Nat)
  | longBreak (n : Nat)
  | loadException
  | matchException
  | binop (op : Binop)
  | subscript
  deriving DecidableEq, Repr

/-- The level of an access to a variable of a body around. -/
def Op.level? {δ : Type} : Op δ → Option Nat
  | .storeNonlocalIndex level _ | .loadNonlocalIndex level _ | .storeNonlocalName level _
  | .loadNonlocalName level _ => some level
  | _ => none

/-- The types of operands `insts.def` uses. -/
inductive OperandType where
  | uint8
  | uint
  | id
  | pc
  deriving DecidableEq, Repr

/-- `sizeof` of an operand type, on a machine with eight-byte words. -/
def OperandType.size : OperandType → Nat
  | .uint8 => 1
  | .uint | .id | .pc => 8

inductive Operand (δ : Type) where
  | uint8 (n : Nat)
  | uint (n : Nat)
  | id (id : ID)
  | pc (dest : δ)
  deriving DecidableEq, Repr

def Operand.type {δ : Type} : Operand δ → OperandType
  | .uint8 _ => .uint8
  | .uint _ => .uint
  | .id _ => .id
  | .pc _ => .pc

namespace Binop

/-- The instruction `compile_visit_binop` picks for an operator. -/
def opcode : Binop → Opcode
  | .add => .add
  | .subtract => .subtract
  | .multiply => .multiply
  | .divide => .divide
  | .floorDivide => .floorDivide
  | .search => .search
  | .lshift => .lshift
  | .rshift => .rshift
  | .modulo => .modulo
  | .power => .power
  | .and => .and
  | .or => .or
  | .xor => .xor
  | .less => .less
  | .greater => .greater
  | .lessEqual => .lessEqual
  | .greaterEqual => .greaterEqual
  | .equal => .equal
  | .notEqual => .notEqual
  | .ufo => .ufo

end Binop

namespace Opcode

/-- The opcodes in the order `gen_opcodes_h` numbers them. -/
def all : List Opcode :=
  [.pop, .pushConst, .makeString, .storeLocalName, .storeLocalIndex, .makeBlock, .makeFunction,
    .callFunction, .loadGlobal, .loadLocalName, .loadLocalIndex, .loadSuper, .jump, .jumpIfTrue,
    .jumpIfFalse, .jumpIfDefined, .dup, .makeModule, .makeClass, .ret, .storeNonlocalIndex,
    .loadNonlocalIndex, .storeNonlocalName, .loadNonlocalName, .storeGlobal, .loadAttr, .makeArray,
    .makeDict, .makeSet, .finish, .printTop, .printTopMultiValue, .storeAttr, .not, .longReturn,
    .longBreak, .loadException, .matchException, .add, .subtract, .multiply, .divide, .floorDivide,
    .modulo, .power, .lshift, .rshift, .and, .or, .xor, .search, .less, .greater, .lessEqual,
    .greaterEqual, .equal, .notEqual, .ufo, .subscript]

/-- The number of an opcode: its place in `insts.def`. -/
def toNat (c : Opcode) : Nat := all.idxOf c

/-- The opcode of a number, `none` for the default branch of the main loop. -/
def ofNat? (n : Nat) : Option Opcode := all[n]?

/-- The operand types of an instruction, the second line of its entry. -/
def operandTypes : Opcode → List OperandType
  | .pushConst | .makeString | .makeArray => [.uint]
  | .storeLocalName | .makeFunction | .loadGlobal | .loadLocalName | .makeModule | .storeGlobal
  | .loadAttr | .storeAttr => [.id]
  | .storeLocalIndex | .loadLocalIndex | .ret | .makeDict | .makeSet | .longReturn | .longBreak =>
    [.uint8]
  | .callFunction => [.uint8, .uint8, .uint8, .uint8, .uint8, .uint8, .uint8, .uint8]
  | .jump | .jumpIfTrue | .jumpIfFalse => [.pc]
  | .jumpIfDefined => [.uint8, .pc]
  | .storeNonlocalIndex | .loadNonlocalIndex => [.uint8, .uint8]
  | .storeNonlocalName | .loadNonlocalName => [.uint8, .id]
  | _ => []

/-- The instruction's entry in `inst2size` (`Yog_get_inst_size`). -/
def instSize (c : Opcode) : Nat := 1 + (c.operandTypes.map OperandType.size).sum

end Opcode

namespace Op

variable {δ ε : Type}

def opcode : Op δ → Opcode
  | .pop => .pop
  | .pushConst _ => .pushConst
  | .makeString _ => .makeString
  | .storeLocalName _ => .storeLocalName
  | .storeLocalIndex _ => .storeLocalIndex
  | .makeBlock => .makeBlock
  | .makeFunction _ => .makeFunction
  | .callFunction .. => .callFunction
  | .loadGlobal _ => .loadGlobal
  | .loadLocalName _ => .loadLocalName
  | .loadLocalIndex _ => .loadLocalIndex
  | .loadSuper => .loadSuper
  | .jump _ => .jump
  | .jumpIfTrue _ => .jumpIfTrue
  | .jumpIfFalse _ => .jumpIfFalse
  | .jumpIfDefined .. => .jumpIfDefined
  | .dup => .dup
  | .makeModule _ => .makeModule
  | .makeClass => .makeClass
  | .ret _ => .ret
  | .storeNonlocalIndex .. => .storeNonlocalIndex
  | .loadNonlocalIndex .. => .loadNonlocalIndex
  | .storeNonlocalName .. => .storeNonlocalName
  | .loadNonlocalName .. => .loadNonlocalName
  | .storeGlobal _ => .storeGlobal
  | .loadAttr _ => .loadAttr
  | .makeArray _ => .makeArray
  | .makeDict _ => .makeDict
  | .makeSet _ => .makeSet
  | .finish => .finish
  | .printTop => .printTop
  | .printTopMultiValue => .printTopMultiValue
  | .storeAttr _ => .storeAttr
  | .not => .not
  | .longReturn _ => .longReturn
  | .longBreak _ => .longBreak
  | .loadException => .loadException
  | .matchException => .matchException
  | .binop op => op.opcode
  | .subscript => .subscript

/-- The operands in the order they are written and read. -/
def operands : Op δ → List (Operand δ)
  | .pushConst i | .makeString i | .makeArray i => [.uint i]
  | .storeLocalName i | .makeFunction i | .loadGlobal i | .loadLocalName i | .makeModule i
  | .storeGlobal i | .loadAttr i | .storeAttr i => [.id i]
  | .storeLocalIndex n | .loadLocalIndex n | .ret n | .makeDict n | .makeSet n | .longReturn n
  | .longBreak n => [.uint8 n]
  | .callFunction argc kwargc varargc varkwargc blockargc left middle right =>
    [.uint8 argc, .uint8 kwargc, .uint8 varargc, .uint8 varkwargc, .uint8 blockargc, .uint8 left,
      .uint8 middle, .uint8 right]
  | .jump dest | .jumpIfTrue dest | .jumpIfFalse dest => [.pc dest]
  | .jumpIfDefined index dest => [.uint8 index, .pc dest]
  | .storeNonlocalIndex level index | .loadNonlocalIndex level index => [.uint8 level, .uint8 index]
  | .storeNonlocalName level name | .loadNonlocalName level name => [.uint8 level, .id name]
  | _ => []

/-- The instruction with an opcode and operands, if the operands are of its types. -/
def ofOperands : Opcode → List (Operand δ) → Option (Op δ)
  | .pop, [] => some .pop
  | .pushConst, [.uint i] => some (.pushConst i)
  | .makeString, [.uint i] => some (.makeString i)
  | .storeLocalName, [.id i] => some (.storeLocalName i)
  | .storeLocalIndex, [.uint8 n] => some (.storeLocalIndex n)
  | .makeBlock, [] => some .makeBlock
  | .makeFunction, [.id i] => some (.makeFunction i)
  | .callFunction, [.uint8 argc, .uint8 kwargc, .uint8 varargc, .uint8 varkwargc, .uint8 blockargc,
      .uint8 left, .uint8 middle, .uint8 right] =>
    some (.callFunction argc kwargc varargc varkwargc blockargc left middle right)
  | .loadGlobal, [.id i] => some (.loadGlobal i)
  | .loadLocalName, [.id i] => some (.loadLocalName i)
  | .loadLocalIndex, [.uint8 n] => some (.loadLocalIndex n)
  | .loadSuper, [] => some .loadSuper
  | .jump, [.pc d] => some (.jump d)
  | .jumpIfTrue, [.pc d] => some (.jumpIfTrue d)
  | .jumpIfFalse, [.pc d] => some (.jumpIfFalse d)
  | .jumpIfDefined, [.uint8 n, .pc d] => some (.jumpIfDefined n d)
  | .dup, [] => some .dup
  | .makeModule, [.id i] => some (.makeModule i)
  | .makeClass, [] => some .makeClass
  | .ret, [.uint8 n] => some (.ret n)
  | .storeNonlocalIndex, [.uint8 l, .uint8 n] => some (.storeNonlocalIndex l n)
  | .loadNonlocalIndex, [.uint8 l, .uint8 n] => some (.loadNonlocalIndex l n)
  | .storeNonlocalName, [.uint8 l, .id i] => some (.storeNonlocalName l i)
  | .loadNonlocalName, [.uint8 l, .id i] => some (.loadNonlocalName l i)
  | .storeGlobal, [.id i] => some (.storeGlobal i)
  | .loadAttr, [.id i] => some (.loadAttr i)
  | .makeArray, [.uint n] => some (.makeArray n)
  | .makeDict, [.uint8 n] => some (.makeDict n)
  | .makeSet, [.uint8 n] => some (.makeSet n)
  | .finish, [] => some .finish
  | .printTop, [] => some .printTop
  | .printTopMultiValue, [] => some .printTopMultiValue
  | .storeAttr, [.id i] => some (.storeAttr i)
  | .not, [] => some .not
  | .longReturn, [.uint8 n] => some (.longReturn n)
  | .longBreak, [.uint8 n] => some (.longBreak n)
  | .loadException, [] => some .loadException
  | .matchException, [] => some .matchException
  | .add, [] => some (.binop .add)
  | .subtract, [] => some (.binop .subtract)
  | .multiply, [] => some (.binop .multiply)
  | .divide, [] => some (.binop .divide)
  | .floorDivide, [] => some (.binop .floorDivide)
  | .modulo, [] => some (.binop .modulo)
  | .power, [] => some (.binop .power)
  | .lshift, [] => some (.binop .lshift)
  | .rshift, [] => some (.binop .rshift)
  | .and, [] => some (.binop .and)
  | .or, [] => some (.binop .or)
  | .xor, [] => some (.binop .xor)
  | .search, [] => some (.binop .search)
  | .less, [] => some (.binop .less)
  | .greater, [] => some (.binop .greater)
  | .lessEqual, [] => some (.binop .lessEqual)
  | .greaterEqual, [] => some (.binop .greaterEqual)
  | .equal, [] => some (.binop .equal)
  | .notEqual, [] => some (.binop .notEqual)
  | .ufo, [] => some (.binop .ufo)
  | .subscript, [] => some .subscript
  | _, _ => none

/-- The instruction with its destinations replaced. -/
def mapDest (f : δ → ε) : Op δ → Op ε
  | .pop => .pop
  | .pushConst i => .pushConst i
  | .makeString i => .makeString i
  | .storeLocalName i => .storeLocalName i
  | .storeLocalIndex n => .storeLocalIndex n
  | .makeBlock => .makeBlock
  | .makeFunction i => .makeFunction i
  | .callFunction a b c d e l m r => .callFunction a b c d e l m r
  | .loadGlobal i => .loadGlobal i
  | .loadLocalName i => .loadLocalName i
  | .loadLocalIndex n => .loadLocalIndex n
  | .loadSuper => .loadSuper
  | .jump d => .jump (f d)
  | .jumpIfTrue d => .jumpIfTrue (f d)
  | .jumpIfFalse d => .jumpIfFalse (f d)
  | .jumpIfDefined n d => .jumpIfDefined n (f d)
  | .dup => .dup
  | .makeModule i => .makeModule i
  | .makeClass => .makeClass
  | .ret n => .ret n
  | .storeNonlocalIndex l n => .storeNonlocalIndex l n
  | .loadNonlocalIndex l n => .loadNonlocalIndex l n
  | .storeNonlocalName l i => .storeNonlocalName l i
  | .loadNonlocalName l i => .loadNonlocalName l i
  | .storeGlobal i => .storeGlobal i
  | .loadAttr i => .loadAttr i
  | .makeArray n => .makeArray n
  | .makeDict n => .makeDict n
  | .makeSet n => .makeSet n
  | .finish => .finish
  | .printTop => .printTop
  | .printTopMultiValue => .printTopMultiValue
  | .storeAttr i => .storeAttr i
  | .not => .not
  | .longReturn n => .longReturn n
  | .longBreak n => .longBreak n
  | .loadException => .loadException
  | .matchException => .matchException
  | .binop op => .binop op
  | .subscript => .subscript

/-- The instruction as the union members hold it: `uint8_t` and `uint_t` arguments are reduced to
their width. -/
def narrow : Op δ → Op δ
  | .pushConst i => .pushConst (i % 2 ^ 64)
  | .makeString i => .makeString (i % 2 ^ 64)
  | .makeArray i => .makeArray (i % 2 ^ 64)
  | .storeLocalIndex n => .storeLocalIndex (n % 2 ^ 8)
  | .loadLocalIndex n => .loadLocalIndex (n % 2 ^ 8)
  | .callFunction a b c d e l m r =>
    .callFunction (a % 2 ^ 8) (b % 2 ^ 8) (c % 2 ^ 8) (d % 2 ^ 8) (e % 2 ^ 8) (l % 2 ^ 8)
      (m % 2 ^ 8) (r % 2 ^ 8)
  | .jumpIfDefined n d => .jumpIfDefined (n % 2 ^ 8) d
  | .ret n => .ret (n % 2 ^ 8)
  | .storeNonlocalIndex l n => .storeNonlocalIndex (l % 2 ^ 8) (n % 2 ^ 8)
  | .loadNonlocalIndex l n => .loadNonlocalIndex (l % 2 ^ 8) (n % 2 ^ 8)
  | .storeNonlocalName l i => .storeNonlocalName (l % 2 ^ 8) i
  | .loadNonlocalName l i => .loadNonlocalName (l % 2 ^ 8) i
  | .makeDict n => .makeDict (n % 2 ^ 8)
  | .makeSet n => .makeSet (n % 2 ^ 8)
  | .longReturn n => .longReturn (n % 2 ^ 8)
  | .longBreak n => .longBreak (n % 2 ^ 8)
  | op => op

/-- The pop size `insts.def` declares. -/
def popSize : Op δ → Nat
  | .pop | .storeLocalName _ | .storeLocalIndex _ | .makeBlock | .makeFunction _ | .jumpIfTrue _
  | .jumpIfFalse _ | .dup | .makeModule _ | .storeNonlocalIndex .. | .storeNonlocalName ..
  | .storeGlobal _ | .loadAttr _ | .finish | .printTop | .printTopMultiValue | .not => 1
  | .callFunction argc kwargc varargc varkwargc blockargc _ _ _ =>
    argc + 2 * kwargc + varargc + varkwargc + blockargc
  | .makeClass => 3
  | .ret n | .longReturn n | .longBreak n | .makeArray n | .makeSet n => n
  | .makeDict n => 2 * n
  | .storeAttr _ | .matchException | .binop _ | .subscript => 2
  | _ => 0

/-- The push size `insts.def` declares. -/
def pushSize : Op δ → Nat
  | .pushConst _ | .makeString _ | .makeBlock | .makeFunction _ | .loadGlobal _ | .loadLocalName _
  | .loadLocalIndex _ | .loadSuper | .loadNonlocalIndex .. | .loadNonlocalName .. | .loadAttr _
  | .makeArray _ | .makeDict _ | .makeSet _ | .not | .loadException | .matchException | .binop _
  | .subscript => 1
  | .dup | .makeModule _ | .makeClass => 2
  | .callFunction _ _ _ _ _ left middle right => left + middle + right
  | _ => 0

/-- What executing the instruction pops from its frame: `call_function` pops the callee and the
arguments its flags announce, every other instruction what it declares. -/
def pops : Op δ → Nat
  | .callFunction argc kwargc varargc varkwargc blockargc _ _ _ =>
    1 + argc + 2 * kwargc + (if varargc = 1 then 1 else 0) + (if varkwargc = 1 then 1 else 0)
      + (if blockargc = 1 then 1 else 0)
  | op => op.popSize

/-- What executing the instruction has pushed to its frame when the next one starts, the returned
values of a call included. -/
def pushes (op : Op δ) : Nat := op.pushSize

/-- Where the instruction may jump. -/
def dest? : Op δ → Option δ
  | .jump d | .jumpIfTrue d | .jumpIfFalse d | .jumpIfDefined _ d => some d
  | _ => none

/-- Control may pass to the following instruction. -/
def fallsThrough : Op δ → Bool
  | .jump _ | .ret _ | .longReturn _ | .longBreak _ | .finish => false
  | _ => true

end Op

end Yog
