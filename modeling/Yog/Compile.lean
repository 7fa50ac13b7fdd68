import Yog.CompileData

/-!
# The compiling visitor

One definition for each `compile_*` function. `compile_visit_*` call back into the visitor, so they
take the `Visitor` they are to call; `visitor fuel` ties the knot `fuel` calls deep. A visitor with
no fuel left fails with `outOfFuel`, which the C code does not: where it fails so for every fuel,
the C recursion does not end.

`cur_stmt == node` holds exactly where a call is itself the statement being visited, so the target
of such a call is chosen in `compileVisitStmt`.
-/

namespace Yog

open Emission (each)

/-- `visit_node` on expressions and `visit_stmts`. -/
structure Visitor where
  node : Ctx → Expr → Compile Unit
  stmts : Ctx → List Stmt → Compile Unit

variable (env : YogEnv) (v : Visitor)

/-- The store of a variable whose type is decided; a nonlocal is stored by the kind of the context
its level leads to. -/
def storeOp (ctx : Ctx) (name : ID) : VarType → Except CompileError (Op Label)
  | .global => return .storeGlobal name
  | .local_ index => return .storeLocalIndex index
  | .nonlocal level word =>
    match (ctx.vars :: ctx.outer)[level]? with
    | some scope =>
      return if scope.ctx.indexed then .storeNonlocalIndex level word.toNat
        else .storeNonlocalName level word
    | none => throw (.bug "outer_tbl is nil")

def loadOp (ctx : Ctx) (name : ID) : VarType → Except CompileError (Op Label)
  | .global => return .loadGlobal name
  | .local_ index => return .loadLocalIndex index
  | .nonlocal level word =>
    match (ctx.vars :: ctx.outer)[level]? with
    | some scope =>
      return if scope.ctx.indexed then .loadNonlocalIndex level word.toNat
        else .loadNonlocalName level word
    | none => throw (.bug "outer_tbl is nil")

def addOpOf (lineno : Lineno) : Except CompileError (Op Label) → Compile Unit
  | .ok op => addOp lineno op
  | .error e => Emission.fail e

/-- `append_store`. -/
def appendStore (ctx : Ctx) (lineno : Lineno) (name : ID) : Compile Unit :=
  if ctx.vars.ctx.indexed then
    match ctx.vars.vars.lookup name with
    | some type => addOpOf lineno (storeOp ctx name type)
    | none => Emission.fail (.bug s!"variable not found ({env.id2name name})")
  else addOp lineno (.storeLocalName name)

/-- `compile_visit_variable`. -/
def compileVisitVariable (ctx : Ctx) (lineno : Lineno) (id : ID) : Compile Unit :=
  if ctx.vars.ctx.indexed then
    match ctx.vars.vars.lookup id with
    | some type => addOpOf lineno (loadOp ctx id type)
    | none => Emission.fail (.bug "can't find variable")
  else addOp lineno (.loadLocalName id)

/-- The name `compile_assign` has for a node nothing can be assigned to. -/
def assignErrorName : Expr → Option String
  | .array .. => some "array"
  | .dict .. => some "dictionary"
  | .funcCall .. => some "function call"
  | .literal .. => some "literal"
  | .set .. => some "set"
  | .super .. => some "super"
  | _ => none

/-- `compile_assign`: store the top of the stack in a target. -/
def compileAssign (ctx : Ctx) : Expr → Compile Unit
  | .variable lineno name => appendStore env ctx lineno name
  | .subscript lineno prefix_ index => do
    v.node ctx index
    v.node ctx prefix_
    addOp lineno (.loadAttr (env.intern "[]="))
    addOp lineno (.callFunction 2 0 0 0 0 1 0 0)
  | .attr lineno obj name => do
    v.node ctx obj
    addOp lineno (.storeAttr name)
  | e =>
    match assignErrorName e with
    | some name => Emission.fail (.syntaxError s!"line {e.lineno.number}: Cannot assign to {name}")
    | none => Emission.fail (.bug "Invalid node type")

/-- The value is duplicated where the store does not leave one. -/
def addDupFor (lineno : Lineno) : Expr → Compile Unit
  | .attr .. | .variable .. => addOp lineno .dup
  | _ => pure ()

/-- `compile_visit_assign`. -/
def compileVisitAssign (ctx : Ctx) (lineno : Lineno) (left right : Expr) : Compile Unit := do
  v.node ctx right
  addDupFor lineno left
  compileAssign env v ctx left

/-- `compile_multi_assign`: the targets from the last to the first. -/
def compileMultiAssign (ctx : Ctx) (left : List Expr) (middle : Option Expr) (right : List Expr) :
    Compile Unit := do
  each (compileAssign env v ctx) right.reverse
  each (compileAssign env v ctx) middle.toList
  each (compileAssign env v ctx) left.reverse

/-- A keyword argument of a call: its value, then its name. -/
def compileKwArg (ctx : Ctx) (arg : KwArg) : Compile Unit := do
  v.node ctx arg.value
  addPushConst env (.val (.symbol arg.name)) arg.lineno

/-- `compile_default`. -/
def compileDefault (ctx : Ctx) : Param → Compile Unit
  | .mk _ _ _ none => pure ()
  | .mk _ lineno name (some expr) =>
    match ctx.vars.vars.lookup name with
    | some (.local_ index) => do
      let label ← newLabel
      addOp lineno (.jumpIfDefined index label)
      v.node ctx expr
      appendStore env ctx lineno name
      addLabel label
    | _ => Emission.fail (.bug "invalid variable type")

/-- The visit of a body in `compile_stmts`. -/
def compileBody (ctx : Ctx) (params : List Param) (stmts : List Stmt) : Compile Unit := do
  let labelReturnStart ← newLabel
  addLabel labelReturnStart
  each (compileDefault env v ctx) params
  v.stmts ctx stmts

/-- `compile_stmts`, in bodies of the given outer depths. -/
def compileStmts (ctx : Ctx) (funcName : ID) (params : List Param) (stmts : List Stmt)
    (outerDepths : List Int) : Except CompileError (Code × List Int) := do
  let ((), insts, data) ← compileBody env v ctx params stmts (.new outerDepths)
  makeCode ctx funcName insts data

/-- The context of a body of its own in the current one. -/
def Ctx.inner (ctx : Ctx) (vars : Scope) (className : ID) : Ctx where
  vars
  outer := ctx.vars :: ctx.outer
  filename := ctx.filename
  className
  interactive := false
  labelWhile := none
  finallyList := []

/-- A nested body: nothing is emitted here, and outer depths of this body and those around it may
grow. -/
def compileInner (vars : Except CompileError Scope) (ctx : Ctx) (className funcName : ID)
    (params : List Param) (stmts : List Stmt) (info : Except CompileError (Option ArgInfo)) :
    Compile Code := fun s => do
  let vars ← vars
  let (code, outerDepths) ←
    compileStmts env v (ctx.inner vars className) funcName params stmts s.outerDepths
  let code := match ← info with
    | some info => code.withArgInfo info
    | none => code
  return (code, [], { s with outerDepths })

/-- The decided table of a function, class or module in the current body. -/
def scopeOfFunc (ctx : Ctx) (context : Context) (params : List Param) (stmts : List Stmt) :
    Except CompileError Scope := do
  let tbl ← makeVarTableOfFunc env (some ctx.filename) context params stmts
  return decideVarType env tbl (ctx.vars :: ctx.outer)

/-- The decided table of a block: the one the scan of the body around it left in the node. -/
def scopeOfBlock (ctx : Ctx) (params : List Param) (stmts : List Stmt) :
    Except CompileError Scope := do
  let tbl ← makeVarTable env none .block params stmts
  return decideVarType env tbl (ctx.vars :: ctx.outer)

/-- `compile_func`. -/
def compileFunc (ctx : Ctx) (className name : ID) (params : List Param) (stmts : List Stmt) :
    Compile Code :=
  compileInner env v (scopeOfFunc env ctx .func params stmts) ctx className name params stmts
    ((setupParams params).map some)

/-- `compile_block`. A block without parameters has no parameter array. -/
def compileBlock (ctx : Ctx) (params : List Param) (stmts : List Stmt) : Compile Code :=
  compileInner env v (scopeOfBlock env ctx params stmts) ctx invalidId (env.intern "<block>") params
    stmts (if params.isEmpty then .ok none else (setupParams params).map some)

/-- `compile_class`. -/
def compileClass (ctx : Ctx) (className : ID) (stmts : List Stmt) : Compile Code :=
  compileInner env v (scopeOfFunc env ctx .klass [] stmts) ctx className invalidId [] stmts
    (.ok none)

/-- `compile_module`. -/
def compileModule (ctx : Ctx) (name : ID) (stmts : List Stmt) : Compile Code :=
  compileInner env v (scopeOfFunc env ctx .klass [] stmts) ctx name (env.intern "<module>") [] stmts
    (.ok none)

/-- `compile_visit_block`. -/
def compileVisitBlock (ctx : Ctx) : BlockArg → Compile Unit
  | .mk lineno params stmts => do
    let code ← compileBlock env v ctx params stmts
    addPushConst env (.code code) lineno
    addOp lineno .makeBlock

/-- `compile_call_func`, with the numbers of targets its values go to. -/
def compileCallFunc (ctx : Ctx) (lineno : Lineno) (callee : Expr) (args : Args)
    (blockarg : Option BlockArg) (lhsLeftNum lhsMiddleNum lhsRightNum : Nat) : Compile Unit :=
  match args with
  | .mk posargs kwargs vararg varkwarg andBlock => do
    each (compileVisitBlock env v ctx) blockarg.toList
    if blockarg.isSome && andBlock.isSome then
      Emission.fail (.syntaxError "block argument repeated")
    else
      each (v.node ctx) andBlock.toList
      each (v.node ctx) varkwarg.toList
      each (v.node ctx) vararg.toList
      each (compileKwArg env v ctx) kwargs.reverse
      each (v.node ctx) posargs.reverse
      v.node ctx callee
      let labelBreakStart ← newLabel
      let labelBreakEnd ← newLabel
      addLabel labelBreakStart
      addOp lineno (.callFunction posargs.length kwargs.length vararg.toList.length
        varkwarg.toList.length (if blockarg.isSome || andBlock.isSome then 1 else 0)
        lhsLeftNum lhsMiddleNum lhsRightNum)
      addLabel labelBreakEnd

/-- `compile_decorators_call`. -/
def compileDecoratorsCall (ctx : Ctx) (decorators : List Expr) : Compile Unit :=
  each (fun decorator => do
    v.node ctx decorator
    addOp decorator.lineno (.callFunction 1 0 0 0 0 1 0 0)) decorators

/-- `compile_visit_logical_or`. -/
def compileVisitLogicalOr (ctx : Ctx) (lineno : Lineno) (left right : Expr) : Compile Unit := do
  v.node ctx left
  let label ← newLabel
  addOp lineno .dup
  addOp lineno (.jumpIfTrue label)
  addOp lineno .pop
  v.node ctx right
  addLabel label

/-- `compile_visit_logical_and`. -/
def compileVisitLogicalAnd (ctx : Ctx) (lineno : Lineno) (left right : Expr) : Compile Unit := do
  v.node ctx left
  let label ← newLabel
  addOp lineno .dup
  addOp lineno (.jumpIfFalse label)
  addOp lineno .pop
  v.node ctx right
  addLabel label

/-- `compile_visit_literal`. -/
def compileVisitLiteral (lineno : Lineno) : Val → Compile Unit
  | .string s => do
    let index ← registerConst env (.val (.string s))
    addOp lineno (.makeString index)
  | val => addPushConst env (.val val) lineno

/-- `compile_visit_conditional`. -/
def compileVisitConditional (ctx : Ctx) (lineno : Lineno) (test trueExpr falseExpr : Expr) :
    Compile Unit := do
  let labelFalse ← newLabel
  let labelEnd ← newLabel
  v.node ctx test
  addOp lineno (.jumpIfFalse labelFalse)
  v.node ctx trueExpr
  addOp lineno (.jump labelEnd)
  addLabel labelFalse
  v.node ctx falseExpr
  addLabel labelEnd

/-- `compile_visit_binop`. -/
def compileVisitBinop (ctx : Ctx) (lineno : Lineno) (op : Binop) (left right : Expr) :
    Compile Unit := do
  v.node ctx left
  v.node ctx right
  addOp lineno (.binop op)

/-- `compile_visit_dict`. -/
def compileVisitDict (ctx : Ctx) (lineno : Lineno) (elems : List DictElem) : Compile Unit := do
  each (fun elem => do
    v.node ctx elem.key
    v.node ctx elem.value) elems
  addOp lineno (.makeDict elems.length)

/-- `compile_visit_set`. -/
def compileVisitSet (ctx : Ctx) (lineno : Lineno) (elems : List Expr) : Compile Unit := do
  each (v.node ctx) elems
  addOp lineno (.makeSet elems.length)

/-- `compile_visit_array`. -/
def compileVisitArray (ctx : Ctx) (lineno : Lineno) (elems : List Expr) : Compile Unit := do
  each (v.node ctx) elems
  addOp lineno (.makeArray elems.length)

/-- `compile_visit_attr`. -/
def compileVisitAttr (ctx : Ctx) (lineno : Lineno) (obj : Expr) (name : ID) : Compile Unit := do
  v.node ctx obj
  addOp lineno (.loadAttr name)

/-- `compile_visit_subscript`. -/
def compileVisitSubscript (ctx : Ctx) (lineno : Lineno) (prefix_ index : Expr) : Compile Unit := do
  v.node ctx prefix_
  v.node ctx index
  addOp lineno .subscript

/-- `compile_visit_not`. -/
def compileVisitNot (ctx : Ctx) (lineno : Lineno) (expr : Expr) : Compile Unit := do
  v.node ctx expr
  addOp lineno .not

/-- `visit_node` on an expression. A call here is not the statement being visited. -/
def compileVisitExpr (ctx : Ctx) : Expr → Compile Unit
  | .array lineno elems => compileVisitArray v ctx lineno elems
  | .assign lineno left right => compileVisitAssign env v ctx lineno left right
  | .attr lineno obj name => compileVisitAttr v ctx lineno obj name
  | .binop lineno op left right => compileVisitBinop v ctx lineno op left right
  | .conditional lineno test trueExpr falseExpr =>
    compileVisitConditional v ctx lineno test trueExpr falseExpr
  | .dict lineno elems => compileVisitDict v ctx lineno elems
  | .funcCall lineno callee args blockarg =>
    compileCallFunc env v ctx lineno callee args blockarg 1 0 0
  | .literal lineno val => compileVisitLiteral env lineno val
  | .logicalAnd lineno left right => compileVisitLogicalAnd v ctx lineno left right
  | .logicalOr lineno left right => compileVisitLogicalOr v ctx lineno left right
  | .not lineno expr => compileVisitNot v ctx lineno expr
  | .set lineno elems => compileVisitSet v ctx lineno elems
  | .subscript lineno prefix_ index => compileVisitSubscript v ctx lineno prefix_ index
  | .super lineno => addOp lineno .loadSuper
  | .variable lineno id => compileVisitVariable ctx lineno id

/-- The right side of a multiple assignment that is not a single call: its values, those for the
middle target gathered in an array. -/
def compileMultiAssignExprs (ctx : Ctx) (leftNum : Nat) (middle : Option Expr) (rightNum : Nat)
    (exprs : List Expr) : Compile Unit :=
  if exprs.length < leftNum + rightNum then
    Emission.fail (.syntaxError "too many values to assign")
  else do
    let n := exprs.length - rightNum
    each (v.node ctx) (exprs.take n)
    each (fun middle => addOp middle.lineno (.makeArray (n - leftNum))) middle.toList
    each (v.node ctx) (exprs.drop n)

/-- The right side of a multiple assignment. -/
def compileMultiAssignRhs (ctx : Ctx) (left : List Expr) (middle : Option Expr)
    (right : List Expr) : Expr → List Expr → Compile Unit
  | .funcCall lineno callee args blockarg, [] =>
    compileCallFunc env v ctx lineno callee args blockarg left.length middle.toList.length
      right.length
  | rhs, rhsRest => compileMultiAssignExprs v ctx left.length middle right.length (rhs :: rhsRest)

/-- `compile_visit_multi_assign`. -/
def compileVisitMultiAssign (ctx : Ctx) (left : List Expr) (middle : Option Expr)
    (right : List Expr) (rhs : Expr) (rhsRest : List Expr) : Compile Unit := do
  compileMultiAssignRhs env v ctx left middle right rhs rhsRest
  compileMultiAssign env v ctx left middle right

/-- `add_raise_last_exception`. -/
def addRaiseLastException (lineno : Lineno) : Compile Unit := do
  addOp lineno .loadException
  addOp lineno (.loadGlobal (env.intern "raise_exception"))
  addOp lineno (.callFunction 1 0 0 0 0 0 0 0)

/-- `compile_visit_finally`. The normal copy of the body and the one run after an exception are
visited with the `finally` still in the list. -/
def compileVisitFinally (ctx : Ctx) (lineno : Lineno) (head body : List Stmt) : Compile Unit := do
  let labelHeadStart ← newLabel
  let labelHeadEnd ← newLabel
  let labelFinallyErrorStart ← newLabel
  let labelFinallyEnd ← newLabel
  let ctx := { ctx with finallyList := ⟨labelHeadStart, body⟩ :: ctx.finallyList }
  pushTry labelHeadStart ⟨labelHeadStart, labelHeadEnd, labelFinallyErrorStart⟩
  addLabel labelHeadStart
  addNote (.headStart labelHeadStart labelFinallyErrorStart)
  v.stmts ctx head
  addNote (.headEnd labelHeadStart)
  addLabel labelHeadEnd
  v.stmts ctx body
  addOp (lastLineno body lineno) (.jump labelFinallyEnd)
  addLabel labelFinallyErrorStart
  v.stmts ctx body
  addRaiseLastException env lineno
  addLabel labelFinallyEnd
  popTry

/-- One condition of an `except` clause. -/
def compileExceptType (ctx : Ctx) (labelBodyBegin : Label) (type : Expr) : Compile Unit := do
  addOp type.lineno .loadException
  v.node ctx type
  addOp type.lineno .matchException
  addOp type.lineno (.jumpIfTrue labelBodyBegin)

/-- `compile_except`. -/
def compileExcept (ctx : Ctx) (labelElseEnd : Label) : ExceptBody → Compile Unit
  | .mk lineno types var stmts => do
    let labelBodyBegin ← newLabel
    let labelBodyEnd ← newLabel
    each (compileExceptType v ctx labelBodyBegin) types
    each (fun last : Expr => addOp last.lineno (.jump labelBodyEnd)) types.getLast?.toList
    addLabel labelBodyBegin
    each (fun id => do
      addOp lineno .loadException
      appendStore env ctx lineno id) var.toList
    v.stmts ctx stmts
    addOp (lastLineno stmts lineno) (.jump labelElseEnd)
    addLabel labelBodyEnd

/-- `compile_visit_except`. -/
def compileVisitExcept (ctx : Ctx) (lineno : Lineno) (head : List Stmt) (excepts : List ExceptBody)
    (else_ : List Stmt) : Compile Unit := do
  let labelHeadStart ← newLabel
  let labelHeadEnd ← newLabel
  let labelExceptsStart ← newLabel
  let labelElseStart ← newLabel
  let labelElseEnd ← newLabel
  pushTry labelHeadStart ⟨labelHeadStart, labelHeadEnd, labelExceptsStart⟩
  addLabel labelHeadStart
  addNote (.headStart labelHeadStart labelExceptsStart)
  v.stmts ctx head
  addNote (.headEnd labelHeadStart)
  addLabel labelHeadEnd
  addOp (lastLineno head lineno) (.jump labelElseStart)
  addLabel labelExceptsStart
  each (compileExcept env v ctx labelElseEnd) excepts
  addRaiseLastException env lineno
  addLabel labelElseStart
  v.stmts ctx else_
  addLabel labelElseEnd
  popTry

/-- `compile_visit_while`. -/
def compileVisitWhile (ctx : Ctx) (lineno : Lineno) (test : Expr) (stmts : List Stmt) :
    Compile Unit := do
  let whileStart ← newLabel
  let whileEnd ← newLabel
  let ctx := { ctx with labelWhile := some (whileStart, whileEnd) }
  addLabel whileStart
  v.node ctx test
  addOp test.lineno (.jumpIfFalse whileEnd)
  v.stmts ctx stmts
  addOp (lastLineno stmts lineno) (.jump whileStart)
  addLabel whileEnd

/-- `compile_visit_if`. -/
def compileVisitIf (ctx : Ctx) (test : Expr) (stmts tail : List Stmt) : Compile Unit := do
  let labelTailStart ← newLabel
  let labelStmtEnd ← newLabel
  v.node ctx test
  addOp test.lineno (.jumpIfFalse labelTailStart)
  v.stmts ctx stmts
  addOp (lastLineno stmts test.lineno) (.jump labelStmtEnd)
  addLabel labelTailStart
  v.stmts ctx tail
  addLabel labelStmtEnd

/-- One round of the outer loop of `compile_while_jump`: the body of a `finally`, cut out of the
rows of the `try` statements from the innermost one to its own. -/
def compileFinallyCopy (ctx : Ctx) (entry : FinallyListEntry) : Compile Unit := do
  let labelStart ← newLabel
  let labelEnd ← newLabel
  addLabel labelStart
  addNote (.copyStart entry.node)
  v.stmts ctx entry.body
  addNote (.copyEnd entry.node)
  addLabel labelEnd
  splitTries entry.node labelStart labelEnd

/-- `compile_while_jump`. -/
def compileWhileJump (ctx : Ctx) (lineno : Lineno) (jumpTo : Label) : Compile Unit := do
  each (compileFinallyCopy v ctx) ctx.finallyList
  addOp lineno (.jump jumpTo)

/-- `visit_array_elements_opposite_order`. -/
def visitArrayElementsOppositeOrder (ctx : Ctx) (elems : List Expr) : Compile Unit :=
  if elems.length < 256 then each (v.node ctx) elems.reverse
  else Emission.fail (.bug "max array size is 255")

/-- `compile_visit_break`. -/
def compileVisitBreak (ctx : Ctx) (lineno : Lineno) (exprs : List Expr) : Compile Unit :=
  match ctx.labelWhile with
  | some (_, labelWhileEnd) => compileWhileJump v ctx lineno labelWhileEnd
  | none => do
    visitArrayElementsOppositeOrder v ctx exprs
    addOp lineno (.longBreak exprs.length)

/-- `compile_visit_next`. Without expressions a nil is returned. -/
def compileVisitNext (ctx : Ctx) (lineno : Lineno) (exprs : List Expr) : Compile Unit :=
  match ctx.labelWhile with
  | some (labelWhileStart, _) => compileWhileJump v ctx lineno labelWhileStart
  | none =>
    match exprs with
    | [] => do
      addPushConst env (.val .nil) lineno
      addOp lineno (.ret 1)
    | _ => do
      visitArrayElementsOppositeOrder v ctx exprs
      addOp lineno (.ret exprs.length)

/-- `compile_visit_return`. -/
def compileVisitReturn (ctx : Ctx) (lineno : Lineno) (exprs : List Expr) : Compile Unit := do
  visitArrayElementsOppositeOrder v ctx exprs
  addOp lineno (if ctx.vars.ctx = .block then .longReturn exprs.length else .ret exprs.length)

/-- `compile_visit_func_def`. -/
def compileVisitFuncDef (ctx : Ctx) (lineno : Lineno) (decorators : List Expr) (name : ID)
    (params : List Param) (stmts : List Stmt) : Compile Unit := do
  let className := if ctx.vars.ctx = .klass then ctx.className else invalidId
  let code ← compileFunc env v ctx className name params stmts
  addPushConst env (.code code) lineno
  addOp lineno (.makeFunction name)
  compileDecoratorsCall v ctx decorators
  appendStore env ctx lineno name

/-- The super class of a class, `Object` unless it names one. -/
def compileSuper (ctx : Ctx) (lineno : Lineno) : Option Expr → Compile Unit
  | some super => v.node ctx super
  | none => addPushConst env (.val .objectClass) lineno

/-- `compile_visit_class`. -/
def compileVisitClass (ctx : Ctx) (lineno : Lineno) (decorators : List Expr) (name : ID)
    (super : Option Expr) (stmts : List Stmt) : Compile Unit := do
  addPushConst env (.val (.symbol name)) lineno
  compileSuper env v ctx lineno super
  let code ← compileClass env v ctx name stmts
  addPushConst env (.code code) lineno
  addOp lineno .makeClass
  addOp lineno .pop
  compileDecoratorsCall v ctx decorators
  appendStore env ctx lineno name

/-- `compile_visit_module`. -/
def compileVisitModule (ctx : Ctx) (lineno : Lineno) (name : ID) (stmts : List Stmt) :
    Compile Unit := do
  let code ← compileModule env v ctx name stmts
  addPushConst env (.code code) lineno
  addOp lineno (.makeModule name)
  addOp lineno .pop
  appendStore env ctx lineno name

/-- `join_package_names`. -/
def joinPackageNames (name : ID) (rest : List ID) : String :=
  rest.foldl (fun s id => s ++ "." ++ env.id2name id) (env.id2name name)

/-- `compile_import`. -/
def compileImport (lineno : Lineno) (name : ID) (rest : List ID) : Compile Unit := do
  addPushConst env (.val (.string (joinPackageNames env name rest))) lineno
  addOp lineno (.loadGlobal (env.intern "import_package"))
  addOp lineno (.callFunction 1 0 0 0 0 1 0 0)

/-- `compile_load_pkg_attr`. -/
def compileLoadPkgAttr (lineno : Lineno) (rest : List ID) : Compile Unit :=
  each (fun attr => addOp lineno (.loadAttr attr)) rest

/-- `compile_store_pkg_attr`. -/
def compileStorePkgAttr (ctx : Ctx) (lineno : Lineno) (attr : ImportedAttr) : Compile Unit := do
  addOp lineno (.loadAttr attr.name)
  appendStore env ctx lineno (attr.as.getD attr.name)

/-- `compile_visit_from`: every attribute but the last one is taken from a copy of the package. -/
def compileVisitFrom (ctx : Ctx) (lineno : Lineno) (pkg : ID) (pkgRest : List ID)
    (attr : ImportedAttr) (attrs : List ImportedAttr) : Compile Unit := do
  compileImport env lineno pkg pkgRest
  compileLoadPkgAttr lineno pkgRest
  each (fun attr => do
    addOp lineno .dup
    compileStorePkgAttr env ctx lineno attr) (attr :: attrs).dropLast
  compileStorePkgAttr env ctx lineno ((attr :: attrs).getLast (List.cons_ne_nil _ _))

/-- `compile_visit_import`. -/
def compileVisitImport (ctx : Ctx) (lineno : Lineno) (name : ID) (nameRest : List ID)
    (as : Option ID) : Compile Unit := do
  compileImport env lineno name nameRest
  match as with
  | none => appendStore env ctx lineno name
  | some as => do
    compileLoadPkgAttr lineno nameRest
    appendStore env ctx lineno as

/-- `compile_visit_raise`. -/
def compileVisitRaise (ctx : Ctx) (lineno : Lineno) : Option Expr → Compile Unit
  | none => addRaiseLastException env lineno
  | some expr => do
    v.node ctx expr
    addOp lineno (.loadGlobal (env.intern "raise_exception"))
    addOp lineno (.callFunction 1 0 0 0 0 0 0 0)

/-- `compile_visit_stmt`. A call that is the statement gives its values to no target, or to an array
that is printed. -/
def compileVisitStmt (ctx : Ctx) : Stmt → Compile Unit
  | .expr (.funcCall lineno callee args blockarg) =>
    compileCallFunc env v ctx lineno callee args blockarg 0 (if ctx.interactive then 1 else 0) 0
  | .expr e => v.node ctx e
  | .break_ lineno exprs => compileVisitBreak v ctx lineno exprs
  | .klass lineno decorators name super stmts =>
    compileVisitClass env v ctx lineno decorators name super stmts
  | .except lineno head excepts else_ => compileVisitExcept env v ctx lineno head excepts else_
  | .finally_ lineno head body => compileVisitFinally env v ctx lineno head body
  | .from_ lineno pkg pkgRest attr attrs => compileVisitFrom env ctx lineno pkg pkgRest attr attrs
  | .funcDef lineno decorators name params stmts =>
    compileVisitFuncDef env v ctx lineno decorators name params stmts
  | .if_ _ test stmts tail => compileVisitIf v ctx test stmts tail
  | .import_ lineno name nameRest as => compileVisitImport env ctx lineno name nameRest as
  | .module_ lineno name stmts => compileVisitModule env v ctx lineno name stmts
  | .multiAssign _ left middle right rhs rhsRest =>
    compileVisitMultiAssign env v ctx left middle right rhs rhsRest
  | .next lineno exprs => compileVisitNext env v ctx lineno exprs
  | .nonlocal _ _ => pure ()
  | .raise lineno expr => compileVisitRaise env v ctx lineno expr
  | .return_ lineno exprs => compileVisitReturn v ctx lineno exprs
  | .while_ lineno test stmts => compileVisitWhile v ctx lineno test stmts

/-- The node types `process_stack_top_uninteractive` pops and `process_stack_top_interactive`
prints. -/
def leavesValue : Stmt → Bool
  | .expr (.assign ..) | .expr (.attr ..) | .expr (.binop ..) | .expr (.conditional ..)
  | .expr (.literal ..) | .expr (.subscript ..) | .expr (.variable ..) => true
  | _ => false

/-- `process_stack_top`. -/
def processStackTop (ctx : Ctx) (stmt : Stmt) : Compile Unit :=
  if leavesValue stmt then
    addOp stmt.lineno (if ctx.interactive then .printTop else .pop)
  else
    match stmt with
    | .expr (.funcCall lineno _ _ _) =>
      if ctx.interactive then addOp lineno .printTopMultiValue else pure ()
    | _ => pure ()

/-- One round of `compile_visit_stmts`. -/
def compileVisitStmtsElem (ctx : Ctx) (stmt : Stmt) : Compile Unit := do
  addNote .stmtStart
  compileVisitStmt env v ctx stmt
  processStackTop ctx stmt
  addNote .stmtEnd

/-- `compile_visit_stmts`. -/
def compileVisitStmts (ctx : Ctx) (stmts : List Stmt) : Compile Unit :=
  each (compileVisitStmtsElem env v ctx) stmts

/-- The visitor that may call itself `fuel` deep. -/
def visitor : Nat → Visitor
  | 0 => ⟨fun _ _ => Emission.fail .outOfFuel, fun _ _ => Emission.fail .outOfFuel⟩
  | fuel + 1 => ⟨compileVisitExpr env (visitor fuel), compileVisitStmts env (visitor fuel)⟩

/-- `compile_package`. -/
def compilePackage (fuel : Nat) (filename : String) (stmts : List Stmt) (interactive : Bool) :
    Except CompileError Code := do
  let tbl ← makeVarTableOfFunc env (some filename) .pkg [] stmts
  let ctx : Ctx :=
    { vars := decideVarType env tbl []
      outer := []
      filename
      className := invalidId
      interactive
      labelWhile := none
      finallyList := [] }
  let (code, _) ← compileStmts env (visitor env fuel) ctx (env.intern "<package>") [] stmts []
  return code

end Yog
