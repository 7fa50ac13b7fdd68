import Yog.Handle
import Yog.Lib.Linked
import Yog.Lib.Runs

/-!
# Coroutines

`coroutine.c`: `resume` and `yield` switch between the machine stack of a coroutine and that of
whoever resumed it. Every coroutine has an environment of its own, with its frame, its handle scopes
and itself as the current coroutine. The frames and the jump buffers of a thread are one list each,
so `yield` cuts off those of the coroutine, and they are hung on again after the next switch.

What the sides do between two switches is any sequence of calls, returns and exceptions. The second
part says what coroutines are for: every side has a stack of its own, the sides that wait are a
stack, and a switch pushes a side or pops it.
-/

namespace Yog

namespace Coroutines

open Handle (Address JmpBuf)

/-- The address of a `YogFrame`. -/
abbrev Frame := ℕ

/-- The address of a `YogJmpBuf`. -/
abbrev Buf := ℕ

inductive Status
  | suspended
  | running
  | dead
  deriving DecidableEq

/-- `SwitchContext`: where a switch goes on, with the variables of C that are used there. -/
inductive Context (C : Type)
  /-- The beginning of `coroutine_main` -/
  | coroutineMain
  /-- After `yield_coroutine` in `yield` -/
  | yield (frame : Frame) (topJmpBuf : Option Buf) (bottomJmpBuf : Buf)
  /-- After `switch_context` in `resume`, in this environment -/
  | resume (env : Option C) (prevJmpBuf : Option Buf)
  /-- After `yield_coroutine` in `coroutine_main` -/
  | coroutineEnd

/-- `Coroutine`. There are no arguments before the first `resume`. -/
structure Coroutine (C V : Type) where
  ctxToResume : Option (Context C)
  ctxToYield : Option (Context C)
  boundaryFrame : Option Frame
  status : Status
  args : List V
  prevJmpBuf : Option Buf

/-- What `YogEnv` has of a side: `scopes` are those of its handles. -/
structure Env (C : Type) where
  frame : Option Frame
  coroutine : Option C
  scopes : List Address

/-- A thread. A side is a coroutine, or what the thread runs besides. -/
structure State (C V : Type) where
  /-- The side whose machine stack is in use. -/
  current : Option C
  env : Option C → Env C
  coroutine : C → Coroutine C V
  /-- The frames there are. -/
  frames : List Frame
  framePrev : Frame → Option Frame
  /-- The jump buffers there are. -/
  bufs : List Buf
  bufPrev : Buf → Option Buf
  /-- The side that has set the buffer. -/
  bufEnv : Buf → Option C
  bufScope : Buf → Option Address
  jmpBufList : Option Buf

inductive Fault
  /-- A null pointer is read. -/
  | null
  /-- An undefined value is taken for a coroutine. -/
  | undefined
  /-- `YOG_ASSERT`: boundary frame not found -/
  | noBoundary
  /-- A switch to where nothing goes on. -/
  | noContext

inductive Action (C V : Type)
  | pushFrame (frame : Frame)
  | popFrame
  | setjmp (buf : Buf)
  | popJmpBuf
  | openScope (scope : Address)
  | closeScope
  /-- `YogEval_longjmp` -/
  | raise
  | resume (self : C) (args : List V)
  | yield (args : List V)
  /-- The body of the coroutine returns. -/
  | finish (retval : V)

/-- What an action is to the side that is running after it. -/
inductive Event (V : Type)
  | none
  /-- The body is called with these arguments. -/
  | started (args : List V)
  /-- `resume` or `yield` returns these values. -/
  | returned (vals : List V)
  /-- An exception is raised by `resume`. -/
  | raised

variable {C V : Type} [DecidableEq C]

/-- `return_args` -/
def returnArgs (nil : V) : List V → List V
  | [] => [nil]
  | args => args

/-- The loop of `YogEval_longjmp`. -/
def closeUntil (target : Option Address) : List Address → Except Fault (List Address)
  | [] => if target = none then .ok [] else .error .null
  | scope :: rest => if target = some scope then .ok (scope :: rest) else closeUntil target rest

namespace State

variable (nil : V) (s : State C V)

def setEnv (e : Option C) (env : Env C) : State C V := { s with env := Function.update s.env e env }

def setCoroutine (self : C) (co : Coroutine C V) : State C V :=
  { s with coroutine := Function.update s.coroutine self co }

/-- `switch_context`, and what is done there at once. -/
def switchContext (self : C) : Option (Context C) → Except Fault (State C V × Event V)
  | some .coroutineMain => .ok ({ s.setEnv (some self)
      ⟨(s.coroutine self).boundaryFrame, some self, []⟩ with
      current := some self }, .started (s.coroutine self).args)
  | some (.yield frame topJmpBuf bottomJmpBuf) => .ok ({ s with
      current := some self
      bufPrev := Function.update s.bufPrev bottomJmpBuf s.jmpBufList
      jmpBufList := topJmpBuf
      framePrev := Function.update s.framePrev frame (s.coroutine self).boundaryFrame },
      .returned (returnArgs nil (s.coroutine self).args))
  | some (.resume env prevJmpBuf) => .ok ({ s with current := env, jmpBufList := prevJmpBuf },
      .returned (returnArgs nil (s.coroutine self).args))
  | some .coroutineEnd => .error .noContext
  | none => .error .noContext

/-- `resume` -/
def resume (self : C) (args : List V) : Except Fault (State C V × Event V) :=
  let co := s.coroutine self
  if co.status = .dead then .ok (s, .raised)
  else
    let ctx := co.ctxToResume.getD .coroutineMain
    (s.setCoroutine self { co with
      boundaryFrame := (s.env s.current).frame
      status := .running
      args
      ctxToResume := some ctx
      ctxToYield := some (.resume s.current s.jmpBufList)
      prevJmpBuf := s.jmpBufList }).switchContext nil self (some ctx)

/-- `yield`. The loops are over frames and over buffers, as many as there are. -/
def yield (args : List V) : Except Fault (State C V × Event V) :=
  match (s.env s.current).coroutine with
  | none => .error .undefined
  | some self =>
    let co := s.coroutine self
    match Linked.walk s.framePrev co.boundaryFrame s.frames.length (s.env s.current).frame with
    | none => .error .noBoundary
    | some frame =>
      -- `find_bottom_jmp_buf`
      match Linked.walk s.bufPrev co.prevJmpBuf s.bufs.length s.jmpBufList with
      | none => .error .null
      | some bottomJmpBuf =>
        ({ s with framePrev := Function.update s.framePrev frame none }.setCoroutine self { co with
          args
          status := .suspended
          ctxToResume := some (.yield frame s.jmpBufList bottomJmpBuf) }).switchContext nil self
            co.ctxToYield

/-- The end of `coroutine_main`. -/
def finish (retval : V) : Except Fault (State C V × Event V) :=
  match s.current with
  | none => .error .undefined
  | some self =>
    let co := s.coroutine self
    (s.setCoroutine self { co with
      args := [retval]
      status := .dead
      ctxToResume := some .coroutineEnd }).switchContext nil self co.ctxToYield

/-- `YogEval_longjmp`: what follows is in the environment of the buffer. -/
def raise : Except Fault (State C V × Event V) :=
  match s.jmpBufList with
  | none => .error .null
  | some buf => do
    let scopes ← closeUntil (s.bufScope buf) (s.env s.current).scopes
    return ({ s.setEnv s.current { s.env s.current with scopes } with current := s.bufEnv buf },
      .none)

/-- The frame that the running side was called from. -/
def bottomFrame (e : Option C) : Option Frame := e.bind fun self => (s.coroutine self).boundaryFrame

/-- The buffer below those of the side. -/
def bottomBuf (e : Option C) : Option Buf := e.bind fun self => (s.coroutine self).prevJmpBuf

/-- When a side can do this. It takes away what is its own only, and returns when that is all gone.
`resume` and `yield` have frames. -/
def Enabled : Action C V → Prop
  | .pushFrame frame => frame ∉ s.frames
  | .popFrame => (s.env s.current).frame ≠ s.bottomFrame s.current
  | .setjmp buf => buf ∉ s.bufs
  | .popJmpBuf => s.jmpBufList ≠ s.bottomBuf s.current
  | .openScope scope => scope ∉ (s.env s.current).scopes
  | .closeScope => ∃ scope rest, (s.env s.current).scopes = scope :: rest
    ∧ ∀ buf ∈ s.bufs, s.bufEnv buf = s.current → s.bufScope buf ≠ some scope
  | .raise => s.jmpBufList ≠ none
  | .resume _ _ => (s.env s.current).frame ≠ s.bottomFrame s.current
  | .yield _ => (s.env s.current).frame ≠ s.bottomFrame s.current
  | .finish _ => s.current ≠ none ∧ (s.env s.current).frame = s.bottomFrame s.current
    ∧ s.jmpBufList = s.bottomBuf s.current ∧ (s.env s.current).scopes = []

def exec : Action C V → Except Fault (State C V × Event V)
  | .pushFrame frame => .ok ({ s.setEnv s.current { s.env s.current with frame := some frame } with
      frames := frame :: s.frames
      framePrev := Function.update s.framePrev frame (s.env s.current).frame }, .none)
  | .popFrame =>
    match (s.env s.current).frame with
    | none => .error .null
    | some frame => .ok ({ s.setEnv s.current
        { s.env s.current with frame := s.framePrev frame } with
        frames := s.frames.erase frame }, .none)
  | .setjmp buf => .ok ({ s with
      bufs := buf :: s.bufs
      bufPrev := Function.update s.bufPrev buf s.jmpBufList
      bufEnv := Function.update s.bufEnv buf s.current
      bufScope := Function.update s.bufScope buf (s.env s.current).scopes.head?
      jmpBufList := some buf }, .none)
  | .popJmpBuf =>
    match s.jmpBufList with
    | none => .error .null
    | some buf => .ok ({ s with
        bufs := s.bufs.erase buf
        jmpBufList := s.bufPrev buf }, .none)
  | .openScope scope => .ok (s.setEnv s.current
      { s.env s.current with scopes := scope :: (s.env s.current).scopes }, .none)
  | .closeScope => .ok (s.setEnv s.current
      { s.env s.current with scopes := (s.env s.current).scopes.tail }, .none)
  | .raise => s.raise
  | .resume self args => s.resume nil self args
  | .yield args => s.yield nil args
  | .finish retval => s.finish nil retval

end State

def Step (nil : V) (s : State C V) (l : Action C V × Event V) (s' : State C V) : Prop :=
  s.Enabled l.1 ∧ s.exec nil l.1 = .ok (s', l.2)

/-- A thread before its first call. -/
def start : State C V where
  current := none
  env _ := ⟨none, none, []⟩
  coroutine _ := ⟨none, none, none, .suspended, [], none⟩
  frames := []
  framePrev _ := none
  bufs := []
  bufPrev _ := none
  bufEnv _ := none
  bufScope _ := none
  jmpBufList := none

/-- What a side has of its own: its frames, its jump buffers and its open scopes, the innermost
first. -/
structure Own where
  frames : List Frame
  bufs : List JmpBuf
  scopes : List Address

inductive Life
  | fresh
  | running
  | suspended
  | dead

namespace Spec

/-- A side that is running or waits for one that it resumed is on the stack, the running one
first. -/
structure State (C : Type) where
  own : Option C → Own
  stack : List (Option C)
  life : C → Life

namespace State

variable (nil : V) (s : State C)

def setOwn (e : Option C) (own : Own) : State C := { s with own := Function.update s.own e own }

def setLife (self : C) (life : Life) : State C :=
  { s with life := Function.update s.life self life }

/-- The running side goes on in the coroutine. -/
def resume (self : C) (args : List V) : State C × Event V :=
  match s.life self with
  | .fresh => ({ s.setLife self .running with stack := some self :: s.stack }, .started args)
  | .suspended => ({ s.setLife self .running with stack := some self :: s.stack },
      .returned (returnArgs nil args))
  | .running => (s, .raised)
  | .dead => (s, .raised)

/-- What the running side does. -/
def exec : Action C V → Option (State C × Event V)
  | .pushFrame frame => s.stack.head?.map fun e =>
    (s.setOwn e { s.own e with frames := frame :: (s.own e).frames }, .none)
  | .popFrame => s.stack.head?.map fun e =>
    (s.setOwn e { s.own e with frames := (s.own e).frames.tail }, .none)
  | .setjmp buf => s.stack.head?.map fun e =>
    (s.setOwn e { s.own e with
      bufs := ⟨buf, (s.own e).scopes.head?, (s.own e).scopes⟩ :: (s.own e).bufs }, .none)
  | .popJmpBuf => s.stack.head?.map fun e =>
    (s.setOwn e { s.own e with bufs := (s.own e).bufs.tail }, .none)
  | .openScope scope => s.stack.head?.map fun e =>
    (s.setOwn e { s.own e with scopes := scope :: (s.own e).scopes }, .none)
  | .closeScope => s.stack.head?.map fun e =>
    (s.setOwn e { s.own e with scopes := (s.own e).scopes.tail }, .none)
  | .raise =>
    match s.stack with
    | [] => none
    | e :: rest =>
      match (s.own e).bufs, e with
      | buf :: _, e => some (s.setOwn e { s.own e with scopes := buf.chain }, .none)
      -- the exception leaves the body, and `resume` raises it
      | [], some self => some ({ (s.setOwn e ⟨[], [], []⟩).setLife self .dead with stack := rest },
          .raised)
      | [], none => none
  | .resume self args => if s.stack = [] then none else some (s.resume nil self args)
  | .yield args =>
    match s.stack with
    | some self :: rest => some ({ s.setLife self .suspended with stack := rest },
        .returned (returnArgs nil args))
    | _ => none
  | .finish retval =>
    match s.stack with
    | some self :: rest => some ({ s.setLife self .dead with stack := rest }, .returned [retval])
    | _ => none

end State

def Step (nil : V) (s : State C) (l : Action C V × Event V) (s' : State C) : Prop :=
  s.exec nil l.1 = some (s', l.2)

def start : State C where
  own _ := ⟨[], [], []⟩
  stack := [none]
  life _ := .fresh

end Spec

end Coroutines

end Yog
