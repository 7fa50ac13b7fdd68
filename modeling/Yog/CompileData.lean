import Yog.Lib.Emission
import Yog.Assemble

/-!
# The state of the compiler

`CompileData` of one body, split by how the visitor uses it. What the visitor changes and leaves
changed is the state of an emission (`CompileData`); what it sets for a part of the tree and puts
back afterwards (the labels of the loop, the list of `finally` bodies) or never changes is handed
down (`Ctx`).

`exc_tbl_last` points to the row `PUSH_EXCEPTION_TABLE_ENTRY` appends after. The rows up to it are
`excTbl` and the rows that follow it in the linked list are `excTail`: pushing a row drops them.
-/

namespace Yog

structure ArgInfo where
  argc : Nat
  argnames : List ID
  varargc : Nat
  kwargc : Nat
  blockargc : Nat
  requiredArgc : Nat
  deriving DecidableEq, Repr

/-- An entry of `consts`; a compiled body in it is its own identity. -/
inductive ConstOf (κ : Type) where
  | val (v : Val)
  | code (c : κ)

/-- `YogCode`, and the instruction list it was assembled from, which is garbage afterwards. -/
structure CodeOf (κ : Type) where
  argInfo : Option ArgInfo
  stackSize : Nat
  localVarsCount : Nat
  localVarsNames : List (Option ID)
  consts : List (ConstOf κ)
  insts : List UInt8
  outerSize : Int
  excTbl : List (ExceptionTableEntry Nat)
  linenoTbl : List LinenoTableEntry
  filename : String
  className : ID
  funcName : ID
  list : List Inst

inductive Code where
  | mk (code : CodeOf Code)

abbrev Const := ConstOf Code

def Code.fields : Code → CodeOf Code
  | .mk code => code

/-- A body and all bodies in its constants, at any depth, satisfy `P`. -/
inductive Code.All (P : CodeOf Code → Prop) : Code → Prop where
  | mk {code : CodeOf Code} : P code → (∀ c, .code c ∈ code.consts → All P c) → All P (.mk code)

/-- A `finally` the code is under; `node` is the label its head starts at. -/
structure FinallyListEntry where
  node : Label
  body : List Stmt

/-- A `try` being compiled, with its rows so far. -/
structure TryListEntry where
  node : Label
  excTbl : List (ExceptionTableEntry Label)
  deriving DecidableEq, Repr

structure CompileData where
  nextLabel : Nat
  consts : List Const
  excTbl : List (ExceptionTableEntry Label)
  excTail : List (ExceptionTableEntry Label)
  tryList : List TryListEntry
  /-- `outer_depth` of the body and of the bodies around it. -/
  outerDepths : List Int

/-- What the visitor hands down: the tables of the body and of those around it, the labels of the
loop and the `finally` bodies, innermost first. -/
structure Ctx where
  vars : Scope
  outer : List Scope
  filename : String
  className : ID
  interactive : Bool
  labelWhile : Option (Label × Label)
  finallyList : List FinallyListEntry

/-- The body of a package without names. -/
def emptyPackage : Ctx where
  vars := ⟨.pkg, []⟩
  outer := []
  filename := "a.yog"
  className := invalidId
  interactive := false
  labelWhile := none
  finallyList := []

abbrev Compile := Emission CompileError Inst CompileData

/-- The data of a new body in the bodies with these outer depths. -/
def CompileData.new (outerDepths : List Int) : CompileData where
  nextLabel := 0
  consts := []
  excTbl := []
  excTail := []
  tryList := []
  outerDepths := 0 :: outerDepths

/-- `Label_new`. -/
def newLabel : Compile Label := fun s =>
  .ok (⟨s.nextLabel⟩, [], { s with nextLabel := s.nextLabel + 1 })

def addOp (lineno : Lineno) (op : Op Label) : Compile Unit := Emission.emit (.op lineno op)

def addLabel (l : Label) : Compile Unit := Emission.emit (.label l)

def addNote (n : Note) : Compile Unit := Emission.emit (.note n)

/-- The comparison of the value table: a body equals no other constant. -/
def Const.equals (env : YogEnv) : Const → Const → Bool
  | .val v, .val w => env.valEquals v w
  | _, _ => false

/-- `register_const`: the index of the constant, entered if the table has none equal to it. A table
that does not fit the address space is not allocated. -/
def registerConst (env : YogEnv) (const : Const) : Compile Nat := fun s =>
  match s.consts.findIdx? (Const.equals env const) with
  | some index => .ok (index, [], s)
  | none =>
    if s.consts.length < 2 ^ 62 then
      .ok (s.consts.length, [], { s with consts := s.consts ++ [const] })
    else .error .outOfMemory

/-- `add_push_const`. -/
def addPushConst (env : YogEnv) (const : Const) (lineno : Lineno) : Compile Unit := do
  let index ← registerConst env const
  addOp lineno (.pushConst index)

/-- `CompileData_push_try` with the first row of the `try`. -/
def pushTry (node : Label) (entry : ExceptionTableEntry Label) : Compile Unit :=
  Emission.modify fun s => { s with tryList := ⟨node, [entry]⟩ :: s.tryList }

/-- `PUSH_EXCEPTION_TABLE_ENTRY` of the rows of the innermost `try`, and `CompileData_pop_try`. The
macro makes the first of the rows the last one of the table. -/
def popTry : Compile Unit :=
  Emission.modify fun s =>
    match s.tryList with
    | [] => s
    | ⟨_, []⟩ :: rest => { s with tryList := rest }
    | ⟨_, entry :: tail⟩ :: rest =>
      { s with excTbl := s.excTbl ++ [entry], excTail := tail, tryList := rest }

/-- `split_exception_table`: the last row ends where the copy starts, and a new row goes on after
the copy. -/
def splitExceptionTable (labelFrom labelTo : Label) :
    List (ExceptionTableEntry Label) → List (ExceptionTableEntry Label)
  | [] => []
  | [e] => [{ e with to_ := labelFrom }, ⟨labelTo, e.to_, e.target⟩]
  | e :: e' :: es => e :: splitExceptionTable labelFrom labelTo (e' :: es)

/-- The inner loop of `compile_while_jump`: every `try` from the innermost one to `node`. -/
def splitTryList (node labelFrom labelTo : Label) : List TryListEntry → Option (List TryListEntry)
  | [] => none
  | t :: ts =>
    let t' := { t with excTbl := splitExceptionTable labelFrom labelTo t.excTbl }
    if t.node = node then some (t' :: ts) else (splitTryList node labelFrom labelTo ts).map (t' :: ·)

def splitTries (node labelFrom labelTo : Label) : Compile Unit := fun s =>
  match splitTryList node labelFrom labelTo s.tryList with
  | some tryList => .ok ((), [], { s with tryList })
  | none => .error (.bug "try_list_entry is not a pointer")

/-- `update_outer_depth`. -/
def updateOuterDepth : List Int → Int → List Int
  | [], _ => []
  | d :: ds, depth => if d < depth then depth :: updateOuterDepth ds (depth - 1) else d :: ds

/-- The element `last_inst` points to is a `RET`. -/
def lastIsRet (insts : List Inst) : Bool :=
  match (insts.filter (!·.isNote)).getLast? with
  | some (.op _ (.ret _)) => true
  | _ => false

/-- The line of the element `last_inst` points to; labels and the anchor have line 0. -/
def lastInstLineno (insts : List Inst) : Lineno :=
  match (insts.filter (!·.isNote)).getLast? with
  | some (.op lineno _) => lineno
  | _ => 0

/-- The list with the `RET` that `compile_stmts` adds when the last instruction is none. -/
def withRet (insts : List Inst) : List Inst :=
  if lastIsRet insts then insts else insts ++ [.op (lastInstLineno insts) (.ret 0)]

/-- The part of `compile_stmts` after the visit of the body: the code of a finished list, and the
outer depths of the bodies around it. -/
def makeCode (ctx : Ctx) (funcName : ID) (insts : List Inst) (s : CompileData) :
    Except CompileError (Code × List Int) := do
  let list := withRet insts
  let stored := list.map Inst.narrow
  let bin ← insts2bin stored
  let localVarsCount := ctx.vars.countLocals
  let localVarsNames ← ctx.vars.allocLocalVarsTable localVarsCount
  let stackSize ← countStackSize stored
  let outerDepth : Int := ctx.vars.maxOuterLevel
  let linenoTbl ← makeLinenoTable stored
  let code : CodeOf Code :=
    { argInfo := none
      stackSize
      localVarsCount
      localVarsNames
      consts := s.consts
      insts := bin
      outerSize := max outerDepth (s.outerDepths.headD 0)
      excTbl := makeExceptionTable stored (s.excTbl ++ s.excTail)
      linenoTbl
      filename := ctx.filename
      className := ctx.className
      funcName
      list }
  return (.mk code, updateOuterDepth (s.outerDepths.drop 1) (outerDepth - 1))

/-- `count_required_argc`. -/
def countRequiredArgc : List Param → Nat
  | [] => 0
  | .mk type _ _ default_ :: ps =>
    if type = .param ∧ default_.isNone then countRequiredArgc ps + 1 else 0

/-- `setup_params` of a parameter array. -/
def setupParams (params : List Param) : Except CompileError ArgInfo := do
  let posargs := params.takeWhile (·.type = .param)
  let argc := posargs.length
  let info : ArgInfo :=
    { argc
      argnames := posargs.map Param.name
      varargc := 0
      kwargc := 0
      blockargc := 0
      requiredArgc := countRequiredArgc params }
  match (params.drop argc).map Param.type with
  | [] => return info
  | [.varParam] => return { info with varargc := 1 }
  | [.kwParam] => return { info with kwargc := 1 }
  | [.blockParam] => return { info with blockargc := 1 }
  | [.varParam, .kwParam] => return { info with varargc := 1, kwargc := 1 }
  | [.varParam, .blockParam] => return { info with varargc := 1, blockargc := 1 }
  | [.kwParam, .blockParam] => return { info with kwargc := 1, blockargc := 1 }
  | [.varParam, .kwParam, .blockParam] =>
    return { info with varargc := 1, kwargc := 1, blockargc := 1 }
  | _ => throw (.bug "Parameters count is unmatched.")

def Code.withArgInfo (info : ArgInfo) : Code → Code
  | .mk code => .mk { code with argInfo := some info }

end Yog
