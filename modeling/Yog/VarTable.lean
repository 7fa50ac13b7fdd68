import Yog.Ast
import Mathlib.Data.List.Perm.Basic

/-!
# Variable tables

The scan pass registers the names a body mentions, and `decide_var_type` decides for each whether
it is global, a local with an index, or a variable some levels out. A function, class, module or
package also gets the names its blocks assign; blocks see the table around them.

A table keeps its entries in the order of registration, and `YogEnv.iterKeys` stands for the order
the hash table's iterator visits them in.
-/

namespace Yog

/-- How a compilation fails. `bug` is `YOG_BUG` or a failed `YOG_ASSERT`, which abort the process;
`outOfFuel` is not a failure of the code but of the bound the model's visitor is given. -/
inductive CompileError where
  | outOfFuel
  | syntaxError (msg : String)
  | bug (msg : String)
  | outOfMemory
  deriving DecidableEq, Repr

/-- What the compiler uses of the interpreter: interned names, equality of constants and the order
of the hash table's iterator. -/
structure YogEnv where
  intern : String → ID
  id2name : ID → String
  valEquals : Val → Val → Bool
  iterKeys : List ID → List ID
  iterKeys_perm : ∀ l, (iterKeys l).Perm l

/-- An interpreter for examples: a name is interned as its length, constants are equal when they are
the same, and tables keep their order. -/
def YogEnv.sample : YogEnv where
  intern s := .ofNat s.length
  id2name _ := "name"
  valEquals v w := v = w
  iterKeys l := l
  iterKeys_perm _ := .refl _

/-- `INVALID_ID`. -/
def invalidId : ID := ((0 : UInt64) - 2) >>> 4

/-- `ID2VAL`, the symbol's value as a word. -/
def id2val (id : ID) : UInt64 := (id <<< 4) ||| 0x0e

inductive Context where
  | block
  | klass
  | func
  | pkg
  deriving DecidableEq, Repr

/-- An entry of a table: its index of registration and its flags. -/
structure Var where
  index : Nat
  assigned : Bool
  param : Bool
  nonlocal : Bool
  deriving DecidableEq, Repr

/-- A table of the scan pass with the tables of the blocks in it. -/
inductive VarTable where
  | mk (ctx : Context) (vars : List (ID × Var)) (inner : List VarTable)

namespace VarTable

def ctx : VarTable → Context
  | .mk ctx _ _ => ctx

def vars : VarTable → List (ID × Var)
  | .mk _ vars _ => vars

def inner : VarTable → List VarTable
  | .mk _ _ inner => inner

/-- `register_var`: a known name gets the flags too, a new one the next index. -/
def registerVar (name : ID) (assigned param nonlocal : Bool) : VarTable → VarTable
  | .mk ctx vars inner =>
    if vars.any (·.1 = name) then
      .mk ctx (vars.map fun (key, var) =>
        if key = name then
          (key, { var with
            assigned := var.assigned || assigned
            param := var.param || param
            nonlocal := var.nonlocal || nonlocal })
        else (key, var)) inner
    else .mk ctx (vars ++ [(name, ⟨vars.length, assigned, param, nonlocal⟩)]) inner

def addChild (child : VarTable) : VarTable → VarTable
  | .mk ctx vars inner => .mk ctx vars (inner ++ [child])

end VarTable

/-- The scan pass changes a table and may raise. -/
abbrev Scan := StateT VarTable (Except CompileError)

def registerVar (name : ID) : Scan Unit := modify (·.registerVar name false false false)

def registerVarAsAssigned (name : ID) : Scan Unit := modify (·.registerVar name true false false)

def registerVarAsParam (name : ID) : Scan Unit := modify (·.registerVar name false true false)

def registerVarAsNonlocal (name : ID) : Scan Unit := modify (·.registerVar name false false true)

/-- `raise_error`. The scan of a block passes nil for the file name, which `raise_error` reads as a
string. -/
def raiseError (filename : Option String) (lineno : Nat) (msg : String) : CompileError :=
  match filename with
  | some filename => .syntaxError s!"File \"{filename}\", line {lineno}: {msg}"
  | none => .bug "raise_error: filename is nil"

/-- `register_params` with `check_duplicate_argument`. -/
def registerParams (filename : Option String) : List Param → Scan Unit
  | [] => pure ()
  | p :: ps => do
    let tbl ← get
    if tbl.vars.any (·.1 = p.name) then
      throw (raiseError filename p.lineno.number "Duplicated argument name in function definition")
    registerVarAsParam p.name
    registerParams filename ps

def Expr.variable? : Expr → Option ID
  | .variable _ id => some id
  | _ => none

mutual

def scanExpr : Expr → Scan Unit
  | .array _ elems | .set _ elems => scanExprs elems
  | .assign _ left right => do
    match left.variable? with
    | some id => registerVarAsAssigned id
    | none => scanExpr left
    scanExpr right
  | .attr _ obj _ => scanExpr obj
  | .binop _ _ left right | .logicalAnd _ left right | .logicalOr _ left right => do
    scanExpr left
    scanExpr right
  | .conditional _ test trueExpr falseExpr => do
    scanExpr test
    scanExpr trueExpr
    scanExpr falseExpr
  | .dict _ elems => scanDictElems elems
  | .funcCall _ callee args blockarg => do
    scanExpr callee
    scanArgs args
    scanBlockArg? blockarg
  | .literal _ _ | .super _ => pure ()
  | .not _ expr => scanExpr expr
  | .subscript _ prefix_ index => do
    scanExpr prefix_
    scanExpr index
  | .variable _ id => registerVar id

def scanExprs : List Expr → Scan Unit
  | [] => pure ()
  | e :: es => do
    scanExpr e
    scanExprs es

def scanExpr? : Option Expr → Scan Unit
  | none => pure ()
  | some e => scanExpr e

def scanDictElems : List DictElem → Scan Unit
  | [] => pure ()
  | .mk key value :: es => do
    scanExpr key
    scanExpr value
    scanDictElems es

def scanKwArgs : List KwArg → Scan Unit
  | [] => pure ()
  | .mk _ _ value :: as => do
    scanExpr value
    scanKwArgs as

def scanArgs : Args → Scan Unit
  | .mk posargs kwargs vararg varkwarg andBlock => do
    scanExprs posargs
    scanKwArgs kwargs
    scanExpr? vararg
    scanExpr? varkwarg
    scanExpr? andBlock

/-- `scan_var_visit_block`: the block gets a table of its own, a child of the current one. -/
def scanBlockArg? : Option BlockArg → Scan Unit
  | none => pure ()
  | some (.mk _ params stmts) => do
    let ((), tbl) ← (do
      registerParams none params
      scanDefaults params
      scanStmts stmts : Scan Unit).run (.mk .block [] [])
    modify (VarTable.addChild tbl)

def scanDefaults : List Param → Scan Unit
  | [] => pure ()
  | .mk _ _ _ default_ :: ps => do
    scanExpr? default_
    scanDefaults ps

/-- `scan_var_visit_lhs`, on each element. -/
def scanLhs : List Expr → Scan Unit
  | [] => pure ()
  | e :: es => do
    match e.variable? with
    | some id => registerVarAsAssigned id
    | none => scanExpr e
    scanLhs es

def scanLhs? : Option Expr → Scan Unit
  | none => pure ()
  | some e =>
    match e.variable? with
    | some id => registerVarAsAssigned id
    | none => scanExpr e

def scanExcepts : List ExceptBody → Scan Unit
  | [] => pure ()
  | .mk _ types var stmts :: es => do
    scanExprs types
    match var with
    | some id => registerVarAsAssigned id
    | none => pure ()
    scanStmts stmts
    scanExcepts es

def scanStmt : Stmt → Scan Unit
  | .expr e => scanExpr e
  | .break_ _ exprs | .next _ exprs | .return_ _ exprs => scanExprs exprs
  | .klass _ decorators name super _ => do
    scanExprs decorators
    registerVarAsAssigned name
    scanExpr? super
  | .except _ head excepts else_ => do
    scanStmts head
    scanExcepts excepts
    scanStmts else_
  | .finally_ _ head body => do
    scanStmts head
    scanStmts body
  | .from_ _ _ _ attr attrs =>
    (attr :: attrs).forM fun attr => registerVarAsAssigned (attr.as.getD attr.name)
  | .funcDef _ decorators name _ _ => do
    scanExprs decorators
    registerVarAsAssigned name
  | .if_ _ test stmts tail => do
    scanExpr test
    scanStmts stmts
    scanStmts tail
  -- The symbol's value is registered where its ID is meant.
  | .import_ _ name _ as => registerVarAsAssigned (id2val (as.getD name))
  | .module_ _ name _ => registerVarAsAssigned name
  | .multiAssign _ left middle right rhs rhsRest => do
    scanLhs left
    scanLhs? middle
    scanLhs right
    scanExpr rhs
    scanExprs rhsRest
  | .nonlocal _ names => names.forM registerVarAsNonlocal
  | .raise _ expr => scanExpr? expr
  | .while_ _ test stmts => do
    scanExpr test
    scanStmts stmts

def scanStmts : List Stmt → Scan Unit
  | [] => pure ()
  | s :: ss => do
    scanStmt s
    scanStmts ss

end

/-- `make_var_table`. -/
def makeVarTable (env : YogEnv) (filename : Option String) (ctx : Context) (params : List Param)
    (stmts : List Stmt) : Except CompileError VarTable := do
  let ((), tbl) ← (do
    if ctx = .func then
      registerVarAsParam (env.intern "self")
    registerParams filename params
    scanDefaults params
    scanStmts stmts : Scan Unit).run (.mk ctx [] [])
  return tbl

mutual

/-- `put_vars_assigned_in_block`: the names a block assigns, and those the blocks in it assign. -/
def putVarsAssignedInBlock (env : YogEnv) : VarTable → VarTable → VarTable
  | .mk _ vars inner, tbl =>
    let keys := env.iterKeys (vars.map Prod.fst)
    let tbl := keys.foldl (fun tbl key =>
      match vars.lookup key with
      | some var => if !var.param && var.assigned then tbl.registerVar key true false false else tbl
      | none => tbl) tbl
    putVarsAssignedInInnerScope env inner tbl

def putVarsAssignedInInnerScope (env : YogEnv) : List VarTable → VarTable → VarTable
  | [], tbl => tbl
  | t :: ts, tbl => putVarsAssignedInInnerScope env ts (putVarsAssignedInBlock env t tbl)

end

/-- `make_var_table_of_func`. -/
def makeVarTableOfFunc (env : YogEnv) (filename : Option String) (ctx : Context)
    (params : List Param) (stmts : List Stmt) : Except CompileError VarTable := do
  let tbl ← makeVarTable env filename ctx params stmts
  return putVarsAssignedInInnerScope env tbl.inner tbl

/-- The type of a variable. The word of a nonlocal is the union of an index and a name. -/
inductive VarType where
  | global
  | local_ (index : Nat)
  | nonlocal (level : Nat) (word : UInt64)
  deriving DecidableEq, Repr

/-- A table whose types are decided. -/
structure Scope where
  ctx : Context
  vars : List (ID × VarType)
  deriving Repr

/-- The variables of a context are found by index in its frames. -/
def Context.indexed : Context → Bool
  | .func | .block => true
  | .klass | .pkg => false

def isVisible (ctx outerCtx : Context) : Bool := !(ctx.indexed && outerCtx = .klass)

/-- `search_block_var_local_scope`, from a level on: the level, the index (or name word) and the
context of the variable. -/
def searchBlockVarLocalScope (name : ID) : Nat → List Scope → Option (Nat × UInt64 × Context)
  | _, [] => none
  | level, tbl :: outer =>
    if tbl.ctx.indexed then
      match tbl.vars.lookup name with
      | none => searchBlockVarLocalScope name (level + 1) outer
      | some .global => none
      | some (.local_ index) => some (level, .ofNat index, tbl.ctx)
      | some (.nonlocal l word) => some (level + l, word, tbl.ctx)
    else
      match tbl.vars.lookup name with
      | some (.local_ _) => some (level, 0, tbl.ctx)
      | _ => none

/-- `find_outer_var`, from a level on. -/
def findOuterVar (name : ID) (ctx : Context) : Nat → List Scope → Option (Nat × UInt64 × Context)
  | _, [] => none
  | level, tbl :: outer =>
    if tbl.ctx = .pkg then none
    else if isVisible ctx tbl.ctx then
      match tbl.vars.lookup name with
      | none => findOuterVar name ctx (level + 1) outer
      | some .global => none
      | some (.local_ index) => some (level + 1, .ofNat index, tbl.ctx)
      | some (.nonlocal l word) => some (level + l + 1, word, tbl.ctx)
    else findOuterVar name ctx (level + 1) outer

/-- `Var_set_nonlocal`, or `Var_set_global` when nothing was found. -/
def setNonlocal (name : ID) : Option (Nat × UInt64 × Context) → VarType
  | none => .global
  | some (level, index, ctx) => .nonlocal level (if ctx.indexed then index else name)

/-- `decide_auto_var_type`: the type of a variable that is no parameter, and the next index. -/
def decideAutoVarType (name : ID) (var : Var) (ctx : Context) (outer : List Scope) (index : Nat) :
    VarType × Nat :=
  if var.nonlocal then (setNonlocal name (findOuterVar name ctx 0 outer), index)
  else if ctx = .block then (setNonlocal name (searchBlockVarLocalScope name 1 outer), index)
  else if !var.assigned then (setNonlocal name (findOuterVar name ctx 0 outer), index)
  else (.local_ index, index + 1)

/-- The second loop of `decide_var_type`, over the names in the iterator's order. -/
def decideVars (vars : List (ID × Var)) (ctx : Context) (outer : List Scope) :
    List ID → Nat → List (ID × VarType)
  | [], _ => []
  | name :: names, index =>
    match vars.lookup name with
    | none => decideVars vars ctx outer names index
    | some var =>
      if var.param then
        (name, .local_ var.index) :: decideVars vars ctx outer names index
      else
        let (type, index) := decideAutoVarType name var ctx outer index
        (name, type) :: decideVars vars ctx outer names index

/-- `decide_var_type` of one table, the tables around it being decided. The indices of the locals
start after the parameters. -/
def decideVarType (env : YogEnv) (tbl : VarTable) (outer : List Scope) : Scope where
  ctx := tbl.ctx
  vars := decideVars tbl.vars tbl.ctx outer (env.iterKeys (tbl.vars.map Prod.fst))
    (tbl.vars.countP (·.2.param))

/-- `count_locals`. -/
def Scope.countLocals (scope : Scope) : Nat :=
  scope.vars.countP fun (_, type) => match type with
    | .local_ _ => true
    | _ => false

/-- `get_max_outer_level`. -/
def Scope.maxOuterLevel (scope : Scope) : Nat :=
  scope.vars.foldl (fun level (_, type) => match type with
    | .nonlocal l _ => max level l
    | _ => level) 0

/-- `alloc_local_vars_table`: the names by index, unless one is over the count. -/
def Scope.allocLocalVarsTable (scope : Scope) (count : Nat) :
    Except CompileError (List (Option ID)) :=
  if scope.vars.any fun (_, type) => match type with
    | .local_ index => count ≤ index
    | _ => false
  then throw (.bug "local var index over count")
  else
    return (List.range count).map fun i =>
      (scope.vars.find? fun (_, type) => type = .local_ i).map Prod.fst

end Yog
