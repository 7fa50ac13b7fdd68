import Yog.Lib.Binding
import Yog.CompileData

/-!
# Binding the arguments of a call

`callable.c`: `fill_args` binds the arguments of a call to the locals of a script function, and
`YogNativeFunction2_call_for_instance` to the arguments of a C function. A parameter list in the
order of the grammar is either the `ArgInfo` of compiled code or the formals of a native function.

Both binders write to places: the locals of the frame from `args_offset` on, or the array of the
arguments. A place holds nothing (`YUNDEF`, `NULL`), an argument, the array of a `*` parameter or
the dictionary of a `**` parameter.
-/

namespace Yog

/-- What `params` of the grammar derives, with the names as `check_duplicate_argument` leaves
them. -/
structure ParamList where
  required : List ID
  optional : List (ID × Expr)
  var : Option ID
  kw : Option ID
  block : Option (ID × Option Expr)
  nodup : (required ++ optional.map Prod.fst).Nodup

namespace ParamList

variable (l : ParamList)

def names : List ID := l.required ++ l.optional.map Prod.fst

def posParams (lineno : Lineno) : List Param :=
  l.required.map (.mk .param lineno · none)
    ++ l.optional.map fun p => .mk .param lineno p.1 (some p.2)

def tailParams (lineno : Lineno) : List Param :=
  (l.var.map (.mk .varParam lineno · none)).toList
    ++ (l.kw.map (.mk .kwParam lineno · none)).toList
    ++ (l.block.map fun b => Param.mk .blockParam lineno b.1 b.2).toList

/-- `Params_new` -/
def params (lineno : Lineno) : List Param := l.posParams lineno ++ l.tailParams lineno

def info : ArgInfo where
  argc := l.names.length
  argnames := l.names
  varargc := if l.var.isSome then 1 else 0
  kwargc := if l.kw.isSome then 1 else 0
  blockargc := if l.block.isSome then 1 else 0
  requiredArgc := l.required.length

end ParamList

/-- A key of a dictionary: a symbol, or another value and what `VAL2ID` makes of its bits. -/
inductive Key where
  | symbol (id : ID)
  | other (bits : ID)
  deriving DecidableEq

def Key.symbol? : Key → Option ID
  | symbol id => some id
  | other _ => none

/-- `VAL2ID` -/
def Key.val2id : Key → ID
  | symbol id => id
  | other bits => bits

/-- The value after `*`. -/
inductive Vararg (V : Type) where
  | array (elems : List V)
  | other

/-- The value after `**`. -/
inductive Varkwarg (V : Type) where
  | dict (entries : List (Key × V))
  | other

def Vararg.elems {V : Type} : Vararg V → List V
  | array elems => elems
  | other => []

def Varkwarg.entries {V : Type} : Varkwarg V → List (Key × V)
  | dict entries => entries
  | other => []

def Vararg.size {V : Type} (v : Vararg V) : Nat := v.elems.length

/-- The arguments of a call, as `call_function` hands them on: the counts of what is written in the
call are of the type `uint8_t`. No array is larger than the memory. -/
structure Call (V : Type) where
  posargs : List V
  kwargs : List (ID × V)
  vararg : Option (Vararg V)
  varkwarg : Option (Varkwarg V)
  blockarg : Option V
  posargc_lt : posargs.length < 2 ^ 8
  kwargc_lt : kwargs.length < 2 ^ 8
  size_lt : posargs.length + (vararg.map Vararg.size).getD 0 < 2 ^ 64

variable {V : Type}

inductive Slot (V : Type) where
  | undef
  | val (v : V)
  | array (elems : List V)
  | dict (d : Binding.Dict ID V)

abbrev Locals (V : Type) := Nat → Slot V

/-- `STORE_LOCAL` -/
def Locals.store (locals : Locals V) (index : Nat) (s : Slot V) : Locals V :=
  Function.update locals index s

def Locals.storeFrom (locals : Locals V) (index : Nat) : List V → Locals V
  | [] => locals
  | v :: vs => (locals.store index (.val v)).storeFrom (index + 1) vs

inductive ArgError where
  | wrongNumArgs (argsNum posargc : Nat)
  | takesExactly (argsNum given : Nat)
  | multipleValues (name : ID)
  | unexpectedKeyword (name : ID)
  | keywordNotSymbol
  | vararg
  | varkwarg
  | blockarg
  | tooManyFormals
  deriving DecidableEq

/-- The difference of two counters of the type `uint_t`. -/
def uintSub (a b : Nat) : Nat := if b ≤ a then a - b else 2 ^ 64 - (b - a)

def Slot.isUndef : Slot V → Bool
  | undef => true
  | _ => false

/-- `YogDict_set` of the dictionary at an index. -/
def Locals.setDict (locals : Locals V) (index : Nat) (name : ID) (v : V) : Locals V :=
  match locals index with
  | .dict d => locals.store index (.dict (d.insert name v))
  | _ => locals

section Script

variable (info : ArgInfo) (argsOffset : Nat)

def kwIndex : Nat := argsOffset + (info.argc + if 0 < info.varargc then 1 else 0)

def blockIndex : Nat := kwIndex info argsOffset + if 0 < info.kwargc then 1 else 0

/-- `assign_keyword_arg` -/
def assignKeywordArg (locals : Locals V) (name : ID) (v : V) : Except ArgError (Locals V) :=
  match info.argnames.idxOf? name with
  | some i =>
    if (locals (argsOffset + i)).isUndef then .ok (locals.store (argsOffset + i) (.val v))
    else .error (.multipleValues name)
  | none =>
    if 0 < info.kwargc then .ok (locals.setDict (kwIndex info argsOffset) name v)
    else .error (.unexpectedKeyword name)

/-- The branch of `fill_args` for more positional arguments than parameters. -/
def fillMore (call : Call V) (locals : Locals V) : Except ArgError (Locals V) :=
  let posargc := call.posargs.length
  let locals := locals.storeFrom argsOffset (call.posargs.take info.argc)
  if info.varargc ≠ 1 then .error (.wrongNumArgs info.argc posargc)
  else
    let array := call.posargs.drop info.argc
    match call.vararg with
    | none => .ok (locals.store (argsOffset + info.argc) (.array array))
    | some .other => .error .vararg
    | some (.array elems) => .ok (locals.store (argsOffset + info.argc) (.array (array ++ elems)))

/-- The elements of the `*` array that go to parameters: up to the last required one only. -/
def fillRequired (call : Call V) (locals : Locals V) : Except ArgError (Locals V) :=
  let posargc := call.posargs.length
  match call.vararg with
  | none => .ok locals
  | some .other => .error .vararg
  | some (.array elems) =>
    if elems.length < uintSub info.requiredArgc posargc then
      .error (.wrongNumArgs info.argc posargc)
    else .ok (locals.storeFrom (argsOffset + posargc) (elems.take (info.requiredArgc - posargc)))

/-- The `*` parameter gets the elements from the one on that would follow the last parameter. -/
def fillVar (call : Call V) (locals : Locals V) : Except ArgError (Locals V) :=
  if 0 < info.varargc then
    let pos := argsOffset + info.argc
    match call.vararg with
    | none => .ok (locals.store pos (.array []))
    | some .other => .error .vararg
    | some (.array elems) =>
      .ok (locals.store pos (.array (elems.drop (info.argc - call.posargs.length))))
  else .ok locals

/-- The other branch of `fill_args`. -/
def fillFewer (call : Call V) (locals : Locals V) : Except ArgError (Locals V) := do
  let locals := locals.storeFrom argsOffset call.posargs
  let locals ← fillRequired info argsOffset call locals
  fillVar info argsOffset call locals

def assignKwargs : Locals V → List (ID × V) → Except ArgError (Locals V)
  | locals, [] => .ok locals
  | locals, p :: ps => do
    let locals ← assignKeywordArg info argsOffset locals p.1 p.2
    assignKwargs locals ps

/-- The loop over the `**` argument. -/
def assignVarkwarg : Locals V → List (Key × V) → Except ArgError (Locals V)
  | locals, [] => .ok locals
  | locals, (key, v) :: entries =>
    match key.symbol? with
    | none => .error .keywordNotSymbol
    | some name => do
      let locals ← assignKeywordArg info argsOffset locals name v
      assignVarkwarg locals entries

def fillVarkwarg (call : Call V) (locals : Locals V) : Except ArgError (Locals V) :=
  match call.varkwarg with
  | none => .ok locals
  | some .other => .error .varkwarg
  | some (.dict entries) => assignVarkwarg info argsOffset locals entries

def fillBlock (call : Call V) (locals : Locals V) : Except ArgError (Locals V) :=
  match call.blockarg with
  | none => .ok locals
  | some b =>
    if info.blockargc ≠ 1 then .error .blockarg
    else .ok (locals.store (blockIndex info argsOffset) (.val b))

/-- `check_arg_assigned` of every required parameter. -/
def checkArgsAssigned (call : Call V) (locals : Locals V) : Except ArgError (Locals V) :=
  if (List.range info.requiredArgc).any fun i => (locals (argsOffset + i)).isUndef then
    .error (.wrongNumArgs info.argc call.posargs.length)
  else .ok locals

/-- `fill_args` where the code has an `ArgInfo`. -/
def fillArgsOf (call : Call V) (locals : Locals V) : Except ArgError (Locals V) := do
  let locals := if 0 < info.kwargc then locals.store (kwIndex info argsOffset) (.dict ∅) else locals
  let locals ←
    if info.argc < call.posargs.length then fillMore info argsOffset call locals
    else fillFewer info argsOffset call locals
  let locals ← assignKwargs info argsOffset locals call.kwargs
  let locals ← fillVarkwarg info argsOffset call locals
  let locals ← fillBlock info argsOffset call locals
  checkArgsAssigned info argsOffset call locals

end Script

/-- `fill_args`. The code of a block without parameters has no `ArgInfo`: nothing is bound. -/
def fillArgs (argInfo : Option ArgInfo) (argsOffset : Nat) (call : Call V) (locals : Locals V) :
    Except ArgError (Locals V) :=
  match argInfo with
  | none => .ok locals
  | some info => fillArgsOf info argsOffset call locals

/-- The offset and the locals `YogFunction_exec_for_instance` hands to `fill_args`: those of a new
frame, with the receiver where the function needs one. -/
def newLocals (self : Option V) : Nat × Locals V :=
  match self with
  | none => (0, fun _ => .undef)
  | some self => (1, Locals.store (fun _ => .undef) 0 (.val self))

def execFunction (argInfo : Option ArgInfo) (self : Option V) (call : Call V) :
    Except ArgError (Locals V) :=
  fillArgs argInfo (newLocals self).1 call (newLocals self).2

/-- A string of the variable arguments of `YogNativeFunction2_new`. -/
inductive Formal where
  | name (id : ID)
  | bar
  | star
  | star2
  | amp
  deriving DecidableEq

structure NativeArg where
  name : Formal
  optional : Bool
  deriving DecidableEq

structure NativeFunction2 where
  args : List NativeArg
  posargsNum : Nat
  varargPos : Option Nat
  varkwargPos : Option Nat

/-- `init_arg` of the formals in turn: a `|` makes those that follow it optional. -/
def initArgs : Bool → List Formal → List NativeArg
  | _, [] => []
  | _, .bar :: formals => initArgs true formals
  | optional, f :: formals => ⟨f, optional⟩ :: initArgs optional formals

/-- `find_special_arg` -/
def findSpecialArg (args : List NativeArg) (name : Formal) : Option Nat :=
  args.findIdx? (·.name = name)

/-- `YogNativeFunction2_new` -/
def nativeFunction2New (formals : List Formal) : NativeFunction2 where
  args := initArgs false formals
  posargsNum := formals.countP fun f => f ≠ .bar && f ≠ .star && f ≠ .star2 && f ≠ .amp
  varargPos := findSpecialArg (initArgs false formals) .star
  varkwargPos := findSpecialArg (initArgs false formals) .star2

section Native

variable (f : NativeFunction2)

/-- `YogArray_push` of the array at an index. -/
def Locals.pushArray (locals : Locals V) (index : Nat) (v : V) : Locals V :=
  match locals index with
  | .array elems => locals.store index (.array (elems ++ [v]))
  | _ => locals

/-- `set_posarg` and `set_vararg_each`, which differ in the error. -/
def setPosarg (error : ArgError) (locals : Locals V) (index : Nat) (v : V) :
    Except ArgError (Locals V) :=
  if index < f.posargsNum then .ok (locals.store index (.val v))
  else
    match f.varargPos with
    | some pos => .ok (locals.pushArray pos v)
    | none => .error error

def setPosargs (error : ArgError) : Locals V → Nat → List V → Except ArgError (Locals V)
  | locals, _, [] => .ok locals
  | locals, index, v :: vs => do
    let locals ← setPosarg f error locals index v
    setPosargs error locals (index + 1) vs

/-- `set_vararg` -/
def setVararg (call : Call V) (locals : Locals V) : Except ArgError (Locals V) :=
  let posargc := call.posargs.length
  match call.vararg with
  | none => .ok locals
  | some .other => .error .vararg
  | some (.array elems) =>
    setPosargs f (.takesExactly f.posargsNum (elems.length + posargc)) locals posargc elems

/-- `find_keyword` -/
def findKeyword (name : ID) : Option Nat :=
  (f.args.take f.posargsNum).findIdx? (·.name = .name name)

/-- `set_keyword_arg` -/
def setKeywordArg (locals : Locals V) (name : ID) (v : V) : Except ArgError (Locals V) :=
  match findKeyword f name with
  | some i =>
    if (locals i).isUndef then .ok (locals.store i (.val v)) else .error (.multipleValues name)
  | none =>
    match f.varkwargPos with
    | some pos => .ok (locals.setDict pos name v)
    | none => .error (.unexpectedKeyword name)

def setKeywordArgs : Locals V → List (ID × V) → Except ArgError (Locals V)
  | locals, [] => .ok locals
  | locals, p :: ps => do
    let locals ← setKeywordArg f locals p.1 p.2
    setKeywordArgs locals ps

/-- The keyword arguments the loop reads: it counts pairs up to `kwargc` in steps of two. -/
def readKwargs (kwargs : List (ID × V)) : List (ID × V) := kwargs.take ((kwargs.length + 1) / 2)

/-- `set_varkwarg` does not ask whether a key is a symbol. -/
def setVarkwarg (call : Call V) (locals : Locals V) : Except ArgError (Locals V) :=
  match call.varkwarg with
  | none => .ok locals
  | some .other => .error .varkwarg
  | some (.dict entries) => setKeywordArgs f locals (entries.map fun e => (e.1.val2id, e.2))

/-- `set_blockarg` -/
def setBlockarg (call : Call V) (locals : Locals V) : Except ArgError (Locals V) :=
  match call.blockarg with
  | none => .ok locals
  | some b =>
    if (f.args.getLast?.map NativeArg.name) ≠ some .amp then .error .blockarg
    else .ok (locals.store (f.args.length - 1) (.val b))

/-- `raise_ArgumentError_if_not_given` of every positional formal. -/
def checkGiven (call : Call V) (locals : Locals V) : Except ArgError (Locals V) :=
  if (f.args.take f.posargsNum).zipIdx.any fun (arg, i) => !arg.optional && (locals i).isUndef then
    .error (.wrongNumArgs f.args.length call.posargs.length)
  else .ok locals

def newArgs : Locals V :=
  let locals : Locals V := fun _ => .undef
  match f.varargPos with
  | some pos => locals.store pos (.array [])
  | none => locals

def newVarkwarg (locals : Locals V) : Locals V :=
  match f.varkwargPos with
  | some pos => locals.store pos (.dict ∅)
  | none => locals

/-- `YogNativeFunction2_call_for_instance` up to the call of the C function. -/
def callNative (call : Call V) : Except ArgError (Locals V) := do
  let locals ← setPosargs f (.wrongNumArgs f.posargsNum call.posargs.length) (newArgs f) 0
    call.posargs
  let locals ← setVararg f call locals
  let locals ← setKeywordArgs f (newVarkwarg f locals) (readKwargs call.kwargs)
  let locals ← setVarkwarg f call locals
  let locals ← setBlockarg f call locals
  let locals ← checkGiven f call locals
  if 8 < f.args.length then .error .tooManyFormals else .ok locals

end Native

/-- What the C function of a `NativeFunction`, which has no formals, is called with. -/
structure NativeCall (V : Type) where
  args : List V
  kw : Option (Binding.Dict Key V)
  block : Option V

/-- `create_positional_argument` -/
def createPositionalArgument (call : Call V) : Except ArgError (List V) :=
  match call.vararg with
  | none => .ok call.posargs
  | some .other => .error .vararg
  | some (.array elems) => .ok (call.posargs ++ elems)

/-- `create_keyword_argument`. It goes through the keyword arguments in the same steps of two. -/
def createKeywordArgument (call : Call V) : Except ArgError (Option (Binding.Dict Key V)) :=
  if call.kwargs.length = 0 ∧ call.varkwarg.isNone then .ok none
  else
    let kw := Binding.insertAll ∅ ((readKwargs call.kwargs).map fun p => (.symbol p.1, p.2))
    match call.varkwarg with
    | none => .ok (some kw)
    | some .other => .error .varkwarg
    | some (.dict entries) => .ok (some (Binding.insertAll kw entries))

/-- `YogNativeFunction_call_for_instance` up to the call of the C function. -/
def callNativeFunction (call : Call V) : Except ArgError (NativeCall V) := do
  let args ← createPositionalArgument call
  let kw ← createKeywordArgument call
  pure ⟨args, kw, call.blockarg⟩

/-- The formals of a native function with the parameters of a list. -/
def ParamList.formals (l : ParamList) : List Formal :=
  l.required.map .name ++ .bar :: l.optional.map (fun p => .name p.1)
    ++ (l.var.map fun _ => Formal.star).toList ++ (l.kw.map fun _ => Formal.star2).toList
    ++ (l.block.map fun _ => Formal.amp).toList

end Yog
