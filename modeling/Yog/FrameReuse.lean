import Yog.Eval
import Yog.Lib.Runs
import Mathlib.Logic.Function.Basic

/-!
# The fields of a script frame that is used again

`frame.c` with what calls it: a frame is taken from those that the thread keeps or is allocated, is
filled in by `YogFunction_exec_for_instance` or `create_frame_for_names`, and `ret` cleans it and
has the thread keep it. The cells of a frame are one array, which is divided anew when the frame is
taken.

`Vm` has the frames as objects that functions and blocks remember; here they have all their fields.
Values are not looked into. The number of the activation that a frame is in, and those in which its
`lhs_*_num` and its `name` were written, are not in the program.
-/

namespace Yog

namespace FrameReuse

abbrev Address := ℕ

/-- A frame in a chain. A native function that an instruction executes returns to the frame below;
one that C calls returns to C. -/
inductive FrameRef
  | c (exec : Bool)
  | finish (address : Address)
  | script (address : Address)
  deriving DecidableEq

/-- A cell of `locals_etc`. -/
inductive Cell (V : Type)
  | undef
  | val (v : V)
  /-- An outer frame. -/
  | frame (address : Address)

/-- `lhs_*_num` without a target. -/
def noTarget : LhsComposition := ⟨0, 0, 0, by simp, by simp⟩

/-- `lhs_*_num` for one value. -/
def oneTarget : LhsComposition := ⟨1, 0, 0, by simp, by simp⟩

structure ScriptFrame (V : Type) where
  stackCapacity : ℕ
  localsNum : ℕ
  outerFramesNum : ℕ
  pc : ℕ
  stackSize : ℕ
  code : Option Code
  globals : Option V
  /-- With the activation of the frame it goes to. -/
  frameToLongReturn : Option (FrameRef × ℕ)
  frameToLongBreak : Option Address
  lhs : LhsComposition
  usedByFunc : Bool
  klass : Option V
  name : ID
  localsEtc : List (Cell V)
  act : ℕ
  lhsBy : ℕ
  nameBy : ℕ

/-- `YogFunction`, of a function or a block. A block is an argument of a call, and is known to
nobody before. -/
structure Function (V : Type) where
  code : Code
  isBlock : Bool
  passed : Bool
  name : ID
  globals : Option V
  outerFrame : Address
  frameToLongReturn : Option (FrameRef × ℕ)
  frameToLongBreak : Option Address

structure Thread where
  frames : List FrameRef
  finishFrames : List Address
  scriptFrames : List Address

abbrev Heap (V : Type) := Address → Option (ScriptFrame V)

structure State (V : Type) where
  heap : Heap V
  /-- No object has this address or one above. -/
  next : Address
  functions : List (Function V)
  current : Thread
  others : List Thread
  /-- The chains of coroutines. -/
  suspended : List (List FrameRef)
  activations : ℕ

/-- `FINISH_FRAMES_MAX` -/
def finishFramesMax : ℕ := 8

/-- `SCRIPT_FRAMES_MAX` -/
def scriptFramesMax : ℕ := 32

/-- `YogThread_put_finish_frame` and `YogThread_put_script_frame`. -/
def put (max a : ℕ) (kept : List ℕ) : List ℕ := if max ≤ kept.length then kept else a :: kept

/-- The outer frames that a body asks for. -/
def outerSize (code : Code) : ℕ := code.fields.outerSize.toNat

namespace ScriptFrame

variable {V : Type}

/-- `YogScriptFrame_init` -/
def init (code : Code) (localsNum act : ℕ) : ScriptFrame V where
  stackCapacity := code.fields.stackSize
  localsNum := localsNum
  outerFramesNum := outerSize code
  pc := 0
  stackSize := 0
  code := some code
  globals := none
  frameToLongReturn := none
  frameToLongBreak := none
  lhs := noTarget
  usedByFunc := false
  klass := none
  name := invalidId
  localsEtc := List.replicate (code.fields.stackSize + localsNum + outerSize code) .undef
  act := act
  lhsBy := act
  nameBy := act

variable (f : ScriptFrame V)

/-- The cells that the frame thinks it has. -/
def total : ℕ := f.stackCapacity + f.localsNum + f.outerFramesNum

/-- `YogScriptFrame_cleanup` -/
def cleanup : ScriptFrame V :=
  { f with
    pc := 0
    code := none
    stackSize := 0
    globals := none
    frameToLongReturn := none
    frameToLongBreak := none
    klass := none
    localsEtc := List.replicate f.total .undef ++ f.localsEtc.drop f.total }

/-- The kept frame that `YogFrame_get_script_frame` returns. -/
def reuse (code : Code) (localsNum act : ℕ) : ScriptFrame V :=
  { f with
    stackCapacity := code.fields.stackSize
    localsNum := localsNum
    outerFramesNum := f.total - code.fields.stackSize - localsNum
    code := some code
    act := act }

/-- `YogScriptFrame_push_stack` -/
def pushStack (v : V) : ScriptFrame V :=
  { f with localsEtc := f.localsEtc.set f.stackSize (.val v), stackSize := f.stackSize + 1 }

/-- `set_lhs_composition` -/
def setLhs (shape : LhsComposition) : ScriptFrame V := { f with lhs := shape, lhsBy := f.act }

/-- Values are stored, from this cell on. -/
def storeFrom (offset : ℕ) (stores : List (ℕ × V)) : ScriptFrame V :=
  { f with localsEtc := stores.foldl (fun l p => l.set (offset + p.1) (.val p.2)) f.localsEtc }

/-- An outer frame of the frame. -/
def outer (i : ℕ) : Cell V :=
  (f.localsEtc[f.stackCapacity + f.localsNum + i]?).getD (.undef)

/-- `fill_outer_frames` -/
def fillOuterFrames (outerFrame : Address) (g : ScriptFrame V) (depth : ℕ) : ScriptFrame V :=
  if depth = 0 then f
  else
    let offset := f.stackCapacity + f.localsNum
    let first := f.localsEtc.set offset (.frame outerFrame)
    { f with
      localsEtc :=
        (List.range (depth - 1)).foldl (fun l i => l.set (offset + 1 + i) (g.outer i)) first }

end ScriptFrame

/-- What `YogFunction_exec_for_instance` writes into the frame of a call from `caller`; `self` is
among the arguments. -/
def Function.fill {V : Type} (fn : Function V) (args : List (ℕ × V)) (definingClass : Option V)
    (g : ScriptFrame V) (caller : FrameRef × ℕ) (f : ScriptFrame V) : ScriptFrame V :=
  let f' := (f.storeFrom f.stackCapacity args).fillOuterFrames fn.outerFrame g (outerSize fn.code)
  { f' with
    globals := fn.globals
    frameToLongReturn := some (fn.frameToLongReturn.getD caller)
    frameToLongBreak := fn.frameToLongBreak
    klass := definingClass.or f.klass
    name := fn.name
    nameBy := f.act }

/-- What `create_frame_for_names` and its callers write. -/
def fillNames {V : Type} (vars : V) (globals : Option V) (f : ScriptFrame V) : ScriptFrame V :=
  { f.storeFrom f.stackCapacity [(0, vars)] with globals }

namespace State

variable {V : Type} (s : State V)

def modify (a : Address) (g : ScriptFrame V → ScriptFrame V) : State V :=
  { s with heap := Function.update s.heap a ((s.heap a).map g) }

/-- The chain is another one. -/
def cut (frames : List FrameRef) : State V := { s with current.frames := frames }

/-- `YogEval_push_frame` -/
def push (r : FrameRef) : State V := s.cut (r :: s.current.frames)

/-- `YogScriptFrame_new` -/
def newScriptFrame (code : Code) (localsNum : ℕ) : Address × State V :=
  (s.next, { s with
    heap := Function.update s.heap s.next (some (.init code localsNum s.activations))
    next := s.next + 1
    activations := s.activations + 1 })

/-- `YogFrame_get_script_frame`. A kept frame that is too small is dropped. -/
def getScriptFrame (code : Code) (localsNum : ℕ) : Address × State V :=
  match s.current.scriptFrames with
  | [] => s.newScriptFrame code localsNum
  | a :: kept =>
    let s := { s with current.scriptFrames := kept }
    match s.heap a with
    | none => s.newScriptFrame code localsNum
    | some f =>
      if code.fields.stackSize + localsNum + outerSize code ≤ f.total then
        (a, { s with
          heap := Function.update s.heap a (some (f.reuse code localsNum s.activations))
          activations := s.activations + 1 })
      else s.newScriptFrame code localsNum

/-- A block that the frame has made is passed to the call it is about to make. -/
def pass (a : Address) (block : Option ℕ) : State V :=
  match block with
  | none => s
  | some i =>
    match s.functions[i]? with
    | none => s
    | some fn =>
      if fn.isBlock ∧ fn.outerFrame = a then
        { s with functions := s.functions.set i { fn with passed := true } }
      else s

/-- An instruction calls, or C does from a finish frame. -/
def called (shape : LhsComposition) (block : Option ℕ) : Option (State V) :=
  match s.current.frames with
  | .script a :: _ => some ((s.modify a (·.setLhs shape)).pass a block)
  | .finish _ :: _ => some s
  | _ => none

/-- The activation of the frame on top. -/
def caller : FrameRef × ℕ :=
  match s.current.frames with
  | .script a :: _ => (.script a, ((s.heap a).map ScriptFrame.act).getD 0)
  | r :: _ => (r, 0)
  | [] => (.c false, 0)

/-- `lhs_*_num` of the frame, which a finish frame never changes. -/
def lhsOf : FrameRef → Option LhsComposition
  | .script a => (s.heap a).map ScriptFrame.lhs
  | .finish _ => some oneTarget
  | .c _ => none

/-- Values are pushed to a frame. The stack of a finish frame is not told. -/
def pushTo (r : FrameRef) (vals : List V) : State V :=
  match r with
  | .script a => s.modify a fun f => vals.foldl ScriptFrame.pushStack f
  | _ => s

/-- `setup_script_function`: the frame on top is remembered. -/
def setupScriptFunction (a : Address) (fn : Function V) : State V :=
  { s.modify a ({ · with usedByFunc := true }) with functions := s.functions ++ [fn] }

/-- The end of `ret`. -/
def leave (a : Address) (f : ScriptFrame V) (frames : List FrameRef) : State V :=
  if f.usedByFunc then s.cut frames
  else
    { s.modify a ScriptFrame.cleanup with
      current.frames := frames
      current.scriptFrames := put scriptFramesMax a s.current.scriptFrames }

/-- `YogEval_push_finish_frame` with `get_finish_frame`. -/
def pushFinishFrame : State V :=
  match s.current.finishFrames with
  | a :: kept => { s with current.finishFrames := kept }.push (.finish a)
  | [] => { s with next := s.next + 1 }.push (.finish s.next)

/-- The chain from the frame that a long jump goes to on, if that is below. -/
def landing (target : FrameRef) : List FrameRef := s.current.frames.tail.dropWhile (· ≠ target)

end State

inductive Action (V : Type)
  | switch (i : ℕ)
  | newThread
  /-- An instruction that stays in the frame, with what it leaves in the cells. -/
  | work (pc stackSize : ℕ) (stores : List (ℕ × V))
  | storeNonlocal (level index : ℕ) (val : V)
  | loadSuper
  | makeFunction (code : Code) (name : ID)
  | makeBlock (code : Code)
  /-- A script function is called, by an instruction or from C over a finish frame. -/
  | exec (shape : LhsComposition) (fn : ℕ) (block : Option ℕ) (args : List (ℕ × V))
    (definingClass : Option V)
  /-- The same, where the arguments raise an exception. -/
  | execRaises (shape : LhsComposition) (fn : ℕ) (block : Option ℕ)
  /-- An instruction calls a native function. -/
  | execNative (shape : LhsComposition) (block : Option ℕ)
  /-- C calls a native function. -/
  | callNative
  /-- `make_class` and `make_module` -/
  | makeClass (code : Code) (vars : V)
  | evalPackage (code : Code) (vars : V)
  | pushFinish
  | nativeReturn (vals : List V)
  | ret (vals : List V)
  | finish
  /-- An exception is caught, or ends the thread. -/
  | unwind (n : ℕ)
  | longReturn (vals : List V)
  | longBreak (vals : List V)
  /-- A coroutine goes on, on the frame of the native function that resumes it. -/
  | resume (i : ℕ)
  /-- A coroutine is suspended, down to the frame it was called or resumed on. -/
  | yield (n : ℕ)

namespace State

variable {V : Type} (array : List V → V) (nil : V) (s : State V)

/-- The call of `YogFrame_get_script_frame` that an action makes. -/
def takes : Action V → Option (State V × Code × ℕ)
  | .exec shape fn block _ _ | .execRaises shape fn block =>
    match s.called shape block with
    | none => none
    | some s =>
      match s.functions[fn]? with
      | none => none
      | some f => if f.passed then some (s, f.code, f.code.fields.localVarsCount) else none
  | .makeClass code _ =>
    match s.current.frames with
    | .script a :: _ => some (s.modify a (·.setLhs oneTarget), code, 1)
    | _ => none
  | .evalPackage code _ =>
    match s.current.frames with
    | .finish _ :: _ => some (s, code, 1)
    | _ => none
  | _ => none

/-- A long jump with these values. -/
def longJump (target : FrameRef) (vals : List V) : State V :=
  match s.landing target with
  -- `LocalJumpError`
  | [] => s
  | frames =>
    match s.lhsOf target with
    | none => s
    | some lhs =>
      match longJumpReturn array nil lhs vals with
      | .error _ => s.cut frames
      | .ok vals => (s.pushTo target vals).cut frames

/-- A step of a process; `none` where it cannot be done. -/
def exec : Action V → Option (State V)
  | .switch i =>
    match s.others[i]? with
    | some t => some { s with current := t, others := s.current :: s.others.eraseIdx i }
    | none => none
  | .newThread => some { s with others := ⟨[], [], []⟩ :: s.others }
  | .work pc stackSize stores =>
    match s.current.frames with
    | .script a :: _ => some (s.modify a fun f => { f.storeFrom 0 stores with pc, stackSize })
    | _ => none
  | .storeNonlocal level index val =>
    match s.current.frames with
    | .script a :: _ =>
      match (s.heap a).map fun f => f.outer (level - 1) with
      | some (Cell.frame b) => some (s.modify b fun g => g.storeFrom g.stackCapacity [(index, val)])
      | _ => none
    | _ => none
  | .loadSuper =>
    match s.current.frames with
    | .script a :: _ => if ((s.heap a).bind ScriptFrame.klass).isSome then some s else none
    | _ => none
  | .makeFunction code name =>
    match s.current.frames with
    | .script a :: _ =>
      match s.heap a with
      | none => none
      | some f => some (s.setupScriptFunction a
          { code
            isBlock := false
            passed := true
            name
            globals := f.globals
            outerFrame := a
            frameToLongReturn := none
            frameToLongBreak := none })
    | _ => none
  | .makeBlock code =>
    match s.current.frames with
    | .script a :: _ =>
      match s.heap a with
      | none => none
      | some f => some (s.setupScriptFunction a
          { code
            isBlock := true
            passed := false
            name := invalidId
            globals := f.globals
            outerFrame := a
            frameToLongReturn := f.frameToLongReturn
            frameToLongBreak := some a })
    | _ => none
  | .exec shape fn block args definingClass =>
    match s.takes (.exec shape fn block args definingClass) with
    | none => none
    | some (s, code, localsNum) =>
      match s.functions[fn]? with
      | none => none
      | some f =>
        match s.heap f.outerFrame with
        | none => none
        | some g =>
          let (a, s') := s.getScriptFrame code localsNum
          some ((s'.modify a (f.fill args definingClass g s.caller)).push (.script a))
  | .execRaises shape fn block =>
    (s.takes (.execRaises shape fn block)).map fun (s, code, localsNum) =>
      (s.getScriptFrame code localsNum).2
  | .execNative shape block =>
    match s.current.frames with
    | .script a :: _ => some (((s.modify a (·.setLhs shape)).pass a block).push (.c true))
    | _ => none
  | .callNative => some (s.push (.c false))
  | .makeClass code vars =>
    (s.takes (.makeClass code vars)).map fun (s, code, localsNum) =>
      let (a, s') := s.getScriptFrame code localsNum
      let globals := match s.current.frames with
        | .script b :: _ => (s.heap b).bind ScriptFrame.globals
        | _ => none
      (s'.modify a (fillNames vars globals)).push (.script a)
  | .evalPackage code vars =>
    (s.takes (.evalPackage code vars)).map fun (s, code, localsNum) =>
      let (a, s') := s.getScriptFrame code localsNum
      (s'.modify a (fillNames vars (some vars))).push (.script a)
  | .pushFinish => some s.pushFinishFrame
  | .nativeReturn vals =>
    match s.current.frames with
    | .c false :: rest => some (s.cut rest)
    | .c true :: r :: rest =>
      match s.lhsOf r with
      | none => none
      | some lhs =>
        match nativeReturn array nil lhs vals with
        | .error _ => some (s.cut (r :: rest))
        | .ok vals => some ((s.pushTo r vals).cut (r :: rest))
    | _ => none
  | .ret vals =>
    match s.current.frames with
    | .script a :: r :: rest =>
      match s.heap a, s.lhsOf r with
      | some f, some lhs =>
        match scriptReturn array nil lhs vals with
        | .error _ => some s
        | .ok vals => some ((s.pushTo r vals).leave a f (r :: rest))
      | _, _ => none
    | _ => none
  | .finish =>
    match s.current.frames with
    | .finish a :: rest => some { s with
        current.frames := rest
        current.finishFrames := put finishFramesMax a s.current.finishFrames }
    | _ => none
  | .unwind n => some (s.cut (s.current.frames.drop n))
  | .longReturn vals =>
    match s.current.frames with
    | .script a :: _ =>
      match (s.heap a).bind ScriptFrame.frameToLongReturn with
      | some (target, _) => some (s.longJump array nil target vals)
      | none => none
    | _ => none
  | .longBreak vals =>
    match s.current.frames with
    | .script a :: _ =>
      match (s.heap a).bind ScriptFrame.frameToLongBreak with
      | some b => some (s.longJump array nil (.script b) vals)
      | none => none
    | _ => none
  | .resume i =>
    match s.current.frames, s.suspended[i]? with
    | .c b :: rest, some frames => some { s with
        current.frames := frames ++ .c b :: rest
        suspended := s.suspended.eraseIdx i }
    | _, _ => none
  | .yield n =>
    match s.current.frames.drop n with
    | .c b :: rest => some { s with
        current.frames := .c b :: rest
        suspended := s.current.frames.take n :: s.suspended }
    | _ => none

/-- A field that is not reset when a frame is taken again. -/
inductive Read
  | lhs (a : Address)
  | name (a : Address)

/-- `lhs_*_num` of the frame is read. -/
def readsLhs : List FrameRef → List Read
  | .script b :: _ => [.lhs b]
  | _ => []

/-- What an action reads of these fields. -/
def reads : Action V → List Read
  | .nativeReturn _ =>
    match s.current.frames with
    | .c true :: rest => readsLhs rest
    | _ => []
  | .ret _ =>
    match s.current.frames with
    | .script _ :: rest => readsLhs rest
    | _ => []
  | .longReturn _ =>
    match s.current.frames with
    | .script a :: _ =>
      match (s.heap a).bind ScriptFrame.frameToLongReturn with
      | some (target, _) => readsLhs (s.landing target)
      | none => []
    | _ => []
  | .longBreak _ =>
    match s.current.frames with
    | .script a :: _ =>
      match (s.heap a).bind ScriptFrame.frameToLongBreak with
      | some b => readsLhs (s.landing (.script b))
      | none => []
    | _ => []
  | .loadSuper =>
    match s.current.frames with
    | .script a :: _ => [.name a]
    | _ => []
  | _ => []

/-- A process at its start: the chain of the main thread is empty. -/
def start : State V where
  heap _ := none
  next := 0
  functions := []
  current := ⟨[], [], []⟩
  others := []
  suspended := []
  activations := 0

end State

def Step {V : Type} (array : List V → V) (nil : V) (s : State V) (a : Action V) (s' : State V) :
    Prop :=
  s.exec array nil a = some s'

end FrameReuse

end Yog
