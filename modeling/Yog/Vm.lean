import Yog.Eval
import Mathlib.Logic.Function.Basic
import Mathlib.Logic.Relation

/-!
# Frame objects

What a process has of frames as objects: the chains of its threads and of the coroutines that are
suspended, the frames a thread keeps to use again, and the functions and blocks, which remember
frames. A script frame has cells for the frames of the bodies around its own (`outer_frames`), and
the frames a `return` and a `break` in a block go to.

One thread is current. Operands are left out: what is called and what is passed to it is open, and so
is what an exception leaves of the chain.

An activation is known to the program by its frame object, which may be that of another one later.
Here it has a number too, and the frame it was pushed on; and a block has the call it was passed to,
by the number of calls the frame that made it had then made.
-/

namespace Yog.Vm

/-- A frame in a chain. Native frames are not told apart. -/
inductive FrameRef where
  | c
  | finish (address : Nat)
  | script (address : Nat)
  deriving DecidableEq, Repr

def FrameRef.address? : FrameRef → Option Nat
  | .c => none
  | .finish a | .script a => some a

/-- The bodies: of a function, of a block, and of a class, a module or a package, whose variables are
kept by name. -/
inductive ScopeKind where
  | function
  | block
  | names
  deriving DecidableEq, Repr

structure Activation where
  id : Nat
  frame : Nat
  caller : FrameRef
  kind : ScopeKind
  deriving DecidableEq, Repr

/-- The activation of the function a body is in, by the activations of the body and those around
it. -/
def home : List Activation → Option Activation
  | [] => none
  | a :: as =>
    match a.kind with
    | .function => some a
    | .block => home as
    | .names => none

/-- `YogScriptFrame`: `outerFrames` are its `outer_frames_num` cells. What follows `usedByFunc` is
not in the program. -/
structure FrameObj where
  code : Code
  stackCapacity : Nat
  localsNum : Nat
  outerFrames : List (Option FrameRef)
  frameToLongReturn : Option FrameRef
  frameToLongBreak : Option FrameRef
  usedByFunc : Bool
  act : Activation
  enclosing : List Activation
  passedTo : Option Nat
  calls : Nat

/-- `YogFunction`, of a function or a block. The activations are those of the body that made it and
the bodies around that; they and `passedTo` are not in the program. -/
structure Function where
  code : Code
  isBlock : Bool
  outerFrame : FrameRef
  frameToLongReturn : Option FrameRef
  frameToLongBreak : Option FrameRef
  scopes : List Activation
  passedTo : Option Nat

/-- A thread or what is left of it: its chain and the frames it keeps. -/
structure Thread where
  frames : List FrameRef
  finishFrames : List Nat
  scriptFrames : List Nat

abbrev Heap := Nat → Option FrameObj

structure State where
  heap : Heap
  /-- No object has this address or one above. -/
  next : Nat
  functions : List Function
  current : Thread
  others : List Thread
  /-- The chains of coroutines. -/
  suspended : List (List FrameRef)
  activations : Nat

/-- `FINISH_FRAMES_MAX`. -/
def finishFramesMax : Nat := 8

/-- `SCRIPT_FRAMES_MAX`. -/
def scriptFramesMax : Nat := 32

/-- `YogThread_put_finish_frame` and `YogThread_put_script_frame`. -/
def put (max a : Nat) (kept : List Nat) : List Nat := if max ≤ kept.length then kept else a :: kept

/-- The cells a body asks for. -/
def depth (code : Code) : Nat := code.fields.outerSize.toNat

/-- `YogScriptFrame_new`: the address and the number of cells. -/
def newScriptFrame (code : Code) (s : State) : Nat × Nat × State :=
  (s.next, depth code, { s with next := s.next + 1 })

/-- `YogFrame_get_script_frame`. A kept frame that is too small is dropped. -/
def getScriptFrame (code : Code) (localsNum : Nat) (s : State) : Nat × Nat × State :=
  match s.current.scriptFrames with
  | [] => newScriptFrame code s
  | a :: kept =>
    let s := { s with current.scriptFrames := kept }
    match s.heap a with
    | none => newScriptFrame code s
    | some f =>
      let actual := f.stackCapacity + f.localsNum + f.outerFrames.length
      let stackSize := code.fields.stackSize
      if stackSize + localsNum + depth code ≤ actual then (a, actual - stackSize - localsNum, s)
      else newScriptFrame code s

/-- The cell of a frame. -/
def Heap.cell (heap : Heap) (frame : FrameRef) (i : Nat) : Option FrameRef :=
  match frame with
  | .script a => (heap a).bind fun f => (f.outerFrames[i]?).join
  | _ => none

/-- `fill_outer_frames`. -/
def fillOuterFrames (heap : Heap) (cells : List (Option FrameRef)) (outerFrame : FrameRef)
    (depth : Nat) : List (Option FrameRef) :=
  if depth = 0 then cells
  else some outerFrame :: (List.range (depth - 1)).map (heap.cell outerFrame) ++ cells.drop depth

/-- The frame below gets its values from what is pushed: one more call. -/
def countCall : List FrameRef → Heap → Heap
  | .script a :: _, heap =>
    Function.update heap a ((heap a).map fun f => { f with calls := f.calls + 1 })
  | _, heap => heap

namespace State

/-- `YogEval_push_frame`. -/
def push (r : FrameRef) (s : State) : State :=
  { s with heap := countCall s.current.frames s.heap, current.frames := r :: s.current.frames }

def setFrame (a : Nat) (f : FrameObj) (s : State) : State :=
  { s with heap := Function.update s.heap a (some f) }

theorem setFrame_self (a : Nat) (f : FrameObj) (s : State) : (s.setFrame a f).heap a = some f :=
  Function.update_self ..

theorem setFrame_of_ne {a b : Nat} (f : FrameObj) (s : State) (h : b ≠ a) :
    (s.setFrame a f).heap b = s.heap b :=
  Function.update_of_ne h ..

/-- Get a frame, fill it in and push it. -/
def enter (code : Code) (localsNum : Nat) (frame : Nat → Nat → FrameObj) (s : State) : State :=
  let (a, cells, s) := getScriptFrame code localsNum s
  let s := (s.setFrame a (frame a cells)).push (.script a)
  { s with activations := s.activations + 1 }

end State

/-- The frame `YogFunction_exec_for_instance` makes for a call from `caller`. -/
def Function.frame (f : Function) (heap : Heap) (id : Nat) (caller : FrameRef) (a cells : Nat) :
    FrameObj where
  code := f.code
  stackCapacity := f.code.fields.stackSize
  localsNum := f.code.fields.localVarsCount
  outerFrames := fillOuterFrames heap (List.replicate cells none) f.outerFrame (depth f.code)
  frameToLongReturn := some (f.frameToLongReturn.getD caller)
  frameToLongBreak := f.frameToLongBreak
  usedByFunc := false
  act := ⟨id, a, caller, if f.isBlock then .block else .function⟩
  enclosing := f.scopes
  passedTo := f.passedTo
  calls := 0

/-- The frame of `create_frame_for_names`. -/
def namesFrame (code : Code) (enclosing : List Activation) (id : Nat) (caller : FrameRef)
    (a cells : Nat) : FrameObj where
  code := code
  stackCapacity := code.fields.stackSize
  localsNum := 1
  outerFrames := List.replicate cells none
  frameToLongReturn := none
  frameToLongBreak := none
  usedByFunc := false
  act := ⟨id, a, caller, .names⟩
  enclosing := enclosing
  passedTo := none
  calls := 0

/-- `YogScriptFrame_cleanup`, of what is kept here. -/
def FrameObj.cleanup (f : FrameObj) : FrameObj :=
  { f with
    outerFrames := List.replicate f.outerFrames.length none
    frameToLongReturn := none
    frameToLongBreak := none }

namespace State

/-- The frame below is that on top, of which there is one. -/
def caller (s : State) : FrameRef := s.current.frames.headD .c

/-- `YogFunction_exec_for_instance`. -/
def exec (f : Function) (s : State) : State :=
  s.enter f.code f.code.fields.localVarsCount (f.frame s.heap s.activations s.caller)

/-- `make_class`, `make_module` and `YogEval_eval_package`, in a body and those around it. -/
def execNames (code : Code) (enclosing : List Activation) (s : State) : State :=
  s.enter code 1 (namesFrame code enclosing s.activations s.caller)

/-- `setup_script_function`: the frame on top is remembered. -/
def setupScriptFunction (a : Nat) (f : FrameObj) (fn : Function) (s : State) : State :=
  { s.setFrame a { f with usedByFunc := true } with functions := s.functions ++ [fn] }

/-- `make_function`, in the frame `f` at `a`. -/
def makeFunction (a : Nat) (f : FrameObj) (code : Code) (s : State) : State :=
  s.setupScriptFunction a f
    { code
      isBlock := false
      outerFrame := .script a
      frameToLongReturn := none
      frameToLongBreak := none
      scopes := f.act :: f.enclosing
      passedTo := none }

/-- `make_block`. -/
def makeBlock (a : Nat) (f : FrameObj) (code : Code) (s : State) : State :=
  s.setupScriptFunction a f
    { code
      isBlock := true
      outerFrame := .script a
      frameToLongReturn := f.frameToLongReturn
      frameToLongBreak := some (.script a)
      scopes := f.act :: f.enclosing
      passedTo := none }

/-- A block that was just made is passed to the call the frame on top is about to make. -/
def pass (block : Option Nat) (s : State) : State :=
  match block, s.current.frames with
  | some i, .script a :: _ =>
    match s.functions[i]?, s.heap a with
    | some fn, some f =>
      if fn.isBlock ∧ fn.passedTo = none ∧ fn.scopes.head? = some f.act then
        { s with functions := s.functions.set i { fn with passedTo := some (f.calls + 1) } }
      else s
    | _, _ => s
  | _, _ => s

/-- The chain is cut. -/
def cut (frames : List FrameRef) (s : State) : State := { s with current.frames := frames }

/-- `ret` of the frame `f` at `a`, over these frames. -/
def ret (a : Nat) (f : FrameObj) (frames : List FrameRef) (s : State) : State :=
  if f.usedByFunc then s.cut frames
  else
    { s.setFrame a f.cleanup with
      current.frames := frames
      current.scriptFrames := put scriptFramesMax a s.current.scriptFrames }

/-- `finish` of the frame at `a`. -/
def finish (a : Nat) (frames : List FrameRef) (s : State) : State :=
  { s with
    current.frames := frames
    current.finishFrames := put finishFramesMax a s.current.finishFrames }

/-- `YogEval_push_finish_frame` with `get_finish_frame`. -/
def pushFinishFrame (s : State) : State :=
  match s.current.finishFrames with
  | a :: kept => { s with current.finishFrames := kept }.push (.finish a)
  | [] => { s with next := s.next + 1 }.push (.finish s.next)

end State

/-- The frame is the one a long jump goes to. -/
def FrameRef.isTarget (target : Option FrameRef) (r : FrameRef) : Bool :=
  r ≠ .c ∧ some r = target

/-- `detect_orphan`. -/
def detectOrphan (target : Option FrameRef) (frames : List FrameRef) : Bool :=
  !frames.tail.any (FrameRef.isTarget target)

/-- The chain from the frame a long jump goes to on. -/
def landing (target : Option FrameRef) (frames : List FrameRef) : List FrameRef :=
  frames.dropWhile fun r => !r.isTarget target

/-- One step of the process; packages are evaluated from these codes. -/
inductive Step (packages : Code → Prop) : State → State → Prop where
  | switch {s : State} {t : Thread} {before after : List Thread} :
    s.others = before ++ t :: after →
    Step packages s { s with current := t, others := before ++ s.current :: after }
  /-- `Thread#run`. -/
  | newThread {s : State} : Step packages s { s with others := s.others ++ [⟨[], [], []⟩] }
  | makeFunction {s : State} {a : Nat} {f : FrameObj} {rest : List FrameRef} {code : Code} :
    s.current.frames = .script a :: rest → s.heap a = some f →
    .code code ∈ f.code.fields.consts → Step packages s (s.makeFunction a f code)
  | makeBlock {s : State} {a : Nat} {f : FrameObj} {rest : List FrameRef} {code : Code} :
    s.current.frames = .script a :: rest → s.heap a = some f →
    .code code ∈ f.code.fields.consts → Step packages s (s.makeBlock a f code)
  /-- A script function is called, by an instruction or from C over a finish frame. -/
  | exec {s : State} {r : FrameRef} {rest : List FrameRef} {f : Function} (block : Option Nat) :
    s.current.frames = r :: rest → r ≠ .c → f ∈ (s.pass block).functions →
    Step packages s ((s.pass block).exec f)
  /-- A native function is called, by an instruction or from C. -/
  | execNative {s : State} (block : Option Nat) : Step packages s ((s.pass block).push .c)
  | makeClass {s : State} {a : Nat} {f : FrameObj} {rest : List FrameRef} {code : Code} :
    s.current.frames = .script a :: rest → s.heap a = some f →
    .code code ∈ f.code.fields.consts →
    Step packages s (s.execNames code (f.act :: f.enclosing))
  | evalPackage {s : State} {a : Nat} {rest : List FrameRef} {code : Code} :
    s.current.frames = .finish a :: rest → packages code → Step packages s (s.execNames code [])
  | pushFinish {s : State} : Step packages s s.pushFinishFrame
  | nativeReturn {s : State} {rest : List FrameRef} :
    s.current.frames = .c :: rest → Step packages s (s.cut rest)
  | ret {s : State} {a : Nat} {f : FrameObj} {rest : List FrameRef} :
    s.current.frames = .script a :: rest → s.heap a = some f → Step packages s (s.ret a f rest)
  | finish {s : State} {a : Nat} {rest : List FrameRef} :
    s.current.frames = .finish a :: rest → Step packages s (s.finish a rest)
  /-- An exception is caught, or ends the thread. -/
  | unwind {s : State} {frames : List FrameRef} :
    frames <:+ s.current.frames → Step packages s (s.cut frames)
  | longReturn {s : State} {a : Nat} {f : FrameObj} {rest : List FrameRef} :
    s.current.frames = .script a :: rest → s.heap a = some f →
    detectOrphan f.frameToLongReturn s.current.frames = false →
    Step packages s (s.cut (landing f.frameToLongReturn s.current.frames))
  | longBreak {s : State} {a : Nat} {f : FrameObj} {rest : List FrameRef} :
    s.current.frames = .script a :: rest → s.heap a = some f →
    detectOrphan f.frameToLongBreak s.current.frames = false →
    Step packages s (s.cut (landing f.frameToLongBreak s.current.frames))
  /-- A coroutine goes on, on the frame of the native function that resumes it. -/
  | resume {s : State} {rest frames : List FrameRef} {before after : List (List FrameRef)} :
    s.current.frames = .c :: rest → s.suspended = before ++ frames :: after →
    Step packages s
      { s with current.frames := frames ++ .c :: rest, suspended := before ++ after }
  /-- A coroutine is suspended, down to the frame it was called or resumed on. The lowest of its
  frames is a finish frame, or that of a native function. -/
  | yield {s : State} {rest frames : List FrameRef} :
    s.current.frames = frames ++ .c :: rest → (∀ r ∈ frames.getLast?, ∀ a, r ≠ .script a) →
    Step packages s
      { s with current.frames := .c :: rest, suspended := s.suspended ++ [frames] }

/-- A process at its start: the chain of the main thread is empty. -/
def State.start : State where
  heap := fun _ => none
  next := 0
  functions := []
  current := ⟨[], [], []⟩
  others := []
  suspended := []
  activations := 0

end Yog.Vm
