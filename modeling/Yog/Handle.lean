import Yog.Lib.Runs
import Mathlib.Logic.Function.Basic

/-!
# Handles

`handle.h` and `handle.c`: the handles of an environment are in blocks, a scope has blocks of its
own, and where the next handle goes is in the environment for the innermost scope and in the scope
itself for the others. `keep_handles` of `vm.c` goes through the blocks, `YogEval_longjmp` of
`eval.c` closes scopes until it meets the one of the jump buffer.

A thread has an environment, and so does each of its coroutines; the list of jump buffers is one for
the thread. `resume` and `yield` take the buffers of the coroutine onto the list and off it. A block
or a scope that cannot be allocated is left out.
-/

namespace Yog

namespace Handle

/-- `HANDLES_SIZE` -/
def handlesSize : ℕ := 1024

/-- The address of a scope. -/
abbrev Address := ℕ

/-- A handle, by its block and its place in the block. -/
structure Ptr where
  block : ℕ
  off : ℕ
  deriving DecidableEq

/-- `YogHandleScope`; `next` is what follows it in a list of them. -/
structure Scope where
  address : Address
  usedNum : ℕ
  pos : Option Ptr
  last : Option Ptr

/-- `YogHandles` -/
structure Handles (V : Type) where
  ptr : List (List (Option V))
  num : ℕ
  usedNum : ℕ
  allocNum : ℕ
  scope : List Scope

/-- What `YogEnv` has of the handles. -/
structure Env (V : Type) where
  handles : Handles V
  pos : Option Ptr
  last : Option Ptr

inductive Fault
  /-- A null pointer is read. -/
  | null
  /-- `YOG_ASSERT`: no scopes -/
  | noScopes
  /-- A place is read that is in no block in use. -/
  | outOfRange
  /-- The frame of a jump buffer has returned. -/
  | deadFrame

variable {V : Type}

namespace Handles

/-- `YogHandles_init` -/
def init : Handles V := ⟨[], 0, 0, 0, []⟩

variable (h : Handles V)

def read (p : Ptr) : Option V := (h.ptr[p.block]?).bind fun block => (block[p.off]?).join

def write (p : Ptr) (val : V) : Handles V :=
  { h with ptr := h.ptr.modify p.block fun block => block.set p.off (some val) }

/-- `YogHandles_alloc_handles` -/
def allocHandles : Handles V :=
  { h with
    ptr := h.ptr ++ [List.replicate handlesSize none]
    num := if h.num ≤ h.allocNum then h.num + 1024 else h.num
    allocNum := h.allocNum + 1 }

/-- `YogHandles_get_handles` -/
def getHandles : Except Fault (Handles V) :=
  let h := if h.allocNum ≤ h.usedNum then h.allocHandles else h
  match h.scope with
  | [] => .error .noScopes
  | s :: rest => .ok { h with
      usedNum := h.usedNum + 1
      scope := { s with usedNum := s.usedNum + 1 } :: rest }

end Handles

namespace Env

/-- An environment that has no handles yet. -/
def init : Env V := ⟨.init, none, none⟩

variable (env : Env V)

/-- `YogHandle_sync_scope_with_env` -/
def syncScope : Env V :=
  match env.handles.scope with
  | [] => env
  | s :: rest => { env with
      handles := { env.handles with scope := { s with pos := env.pos, last := env.last } :: rest } }

/-- `YogHandles_set_pos` -/
def setPos : Env V :=
  { env with
    pos := some ⟨env.handles.usedNum - 1, 0⟩
    last := some ⟨env.handles.usedNum - 1, handlesSize⟩ }

/-- A block is taken when the one in use is full, or there is none. -/
def room : Except Fault (Env V) :=
  if env.last = env.pos then do
    let handles ← env.handles.getHandles
    return setPos { env with handles }
  else .ok env

/-- `YogHandle_register` of a value that is not undefined. -/
def register (val : V) : Except Fault (Env V × Ptr) := do
  let env ← env.room
  match env.pos with
  | none => .error .null
  | some pos => return ({ env with
      handles := env.handles.write pos val
      pos := some ⟨pos.block, pos.off + 1⟩ }, pos)

/-- `YogHandleScope_open`; a scope may hold anything before. -/
def openScope (self : Scope) : Env V :=
  let env := env.syncScope
  { env with
    handles := { env.handles with scope := { self with usedNum := 0 } :: env.handles.scope }
    pos := none
    last := none }

/-- `YogHandleScope_close` -/
def closeScope : Except Fault (Env V) :=
  match env.handles.scope with
  | [] => .error .null
  | s :: rest => .ok { env with
      handles := { env.handles with scope := rest, usedNum := env.handles.usedNum - s.usedNum }
      pos := rest.head?.bind (·.pos)
      last := rest.head?.bind (·.last) }

/-- The loop of `YogEval_longjmp`. -/
def closeUntil (target : Option Address) : List Scope → Env V → Except Fault (Env V)
  | [], env => if target = none then .ok env else .error .null
  | s :: rest, env =>
    if target = some s.address then .ok env else do closeUntil target rest (← env.closeScope)

end Env

/-- The handles of a full block. -/
def block (i : ℕ) : List Ptr := (List.range handlesSize).map fun off => ⟨i, off⟩

/-- `keep_scope1`: what it visits. -/
def keepScope1 (pos : Option Ptr) (last : ℕ) : Except Fault (List Ptr) :=
  match pos with
  | none => .ok []
  | some pos =>
    if pos.block + 1 = last then .ok ((List.range pos.off).map fun off => ⟨pos.block, off⟩)
    else .error .outOfRange

/-- `keep_scope2` -/
def keepScope2 (first last : ℕ) : List Ptr :=
  (List.range' first (last - 1 - first)).reverse.flatMap block

/-- The loop of `keep_handles`. -/
def keepScopes : List Scope → ℕ → Except Fault (List Ptr)
  | [], _ => .ok []
  | s :: rest, last => do
    let visits ← keepScope1 s.pos last
    let first := last - s.usedNum
    let others ← keepScopes rest first
    return visits ++ keepScope2 first last ++ others

namespace Handles

variable (h : Handles V)

/-- The handles that `keep_handles` visits. -/
def visits : Except Fault (List Ptr) :=
  if h.usedNum = 0 then .ok [] else keepScopes h.scope h.usedNum

/-- A visit: `p->val = YogGC_keep(env, p->val, keeper, heap)`. -/
def keepHandle (keeper : V → V) (h : Handles V) (p : Ptr) : Except Fault (Handles V) :=
  match h.read p with
  | none => .error .outOfRange
  | some val => .ok (h.write p (keeper val))

/-- `keep_handles` -/
def keepHandles (keeper : V → V) : Except Fault (Handles V) := do
  (← h.visits).foldlM (keepHandle keeper) h

end Handles

/-- A jump buffer: the innermost scope when it was set, and all that were open. -/
structure JmpBuf where
  id : ℕ
  scope : Option Address
  chain : List Address
  deriving DecidableEq

/-- An environment in use: its part of the list of buffers, and the frames of C that have one, the
innermost first. -/
structure Active (C : Type) where
  env : C
  jmpBufList : List JmpBuf
  frames : List JmpBuf

structure State (T C V : Type) where
  env : C → Env V
  /-- `vm->handles` -/
  handles : List C
  /-- The environments of the threads, the running one first. -/
  threads : T → List (Active C)
  /-- The buffers and frames of a coroutine that has yielded. -/
  suspended : C → Option (Active C)
  nextBuf : ℕ
  /-- The handles that were registered, by their scopes, with what they are. -/
  registered : C → List (List (Ptr × V))

inductive Action (T C V : Type)
  | enter (thread : T) (env : C)
  | leave (thread : T)
  | openScope (thread : T) (self : Scope)
  | closeScope (thread : T)
  | register (thread : T) (val : V)
  /-- The program changes what a handle is. -/
  | assign (env : C) (p : Ptr) (val : V)
  /-- `setjmp`, `INIT_JMPBUF` and `PUSH_JMPBUF` -/
  | setjmp (thread : T)
  /-- `POP_JMPBUF`, by the innermost frame that has a buffer. -/
  | popJmpBuf (thread : T)
  /-- This frame returns without. -/
  | abandon (thread : T)
  | longjmp (thread : T)
  /-- The first `resume` of a coroutine -/
  | start (thread : T) (env : C)
  | resume (thread : T) (env : C)
  | yield (thread : T)
  /-- The end of a coroutine -/
  | finish (thread : T)
  /-- `finalize` of a coroutine -/
  | finalize (env : C)
  /-- A thread stops for a collection in an allocation, or leaves the collector alone. -/
  | sync (thread : T)
  /-- All threads have stopped; one that has in `gc` of `vm.c` need not be in step. -/
  | collect (keeper : V → V)

variable {T C : Type} [DecidableEq T] [DecidableEq C]

/-- The addresses of the open scopes. -/
def Env.chain (env : Env V) : List Address := env.handles.scope.map (·.address)

/-- What a handle is becomes another value. -/
def setValue (p : Ptr) (val : V) (r : Ptr × V) : Ptr × V := if r.1 = p then (p, val) else r

namespace State

variable (s : State T C V)

/-- The environment becomes another. -/
def setEnv (c : C) (env : Env V) : State T C V := { s with env := Function.update s.env c env }

def setThread (t : T) (actives : List (Active C)) : State T C V :=
  { s with threads := Function.update s.threads t actives }

def setRegistered (c : C) (regs : List (List (Ptr × V))) : State T C V :=
  { s with registered := Function.update s.registered c regs }

/-- An environment is made, and its handles are added to the list. -/
def addHandles (c : C) : State T C V :=
  { (s.setEnv c .init).setRegistered c [] with handles := c :: s.handles }

/-- The environment was never used, or is no longer. -/
def Fresh (c : C) : Prop :=
  c ∉ s.handles ∧ s.suspended c = none ∧ ∀ t, ∀ a ∈ s.threads t, a.env ≠ c

/-- The scope of the environment that is running is what its environment says. -/
def Synced (c : C) : Prop := (s.env c).syncScope = s.env c

/-- Every thread is in step with its innermost scope. -/
def InStep : Prop := ∀ t, ∀ a ∈ (s.threads t).head?, s.Synced a.env

/-- When a program can do this. A scope is closed after those that were opened in it, and no frame
outlives a scope that was open before it. -/
def Enabled : Action T C V → Prop
  | .enter t c => s.threads t = [] ∧ s.Fresh c
  | .leave t => ∃ a, s.threads t = [a] ∧ (s.env a.env).chain = [] ∧ a.frames = []
  | .openScope t self => ∃ a rest, s.threads t = a :: rest ∧
    self.address ∉ (s.env a.env).chain
  | .closeScope t => ∃ a rest address chain, s.threads t = a :: rest ∧
    (s.env a.env).chain = address :: chain ∧ ∀ f ∈ a.frames, f.scope ≠ some address
  | .register t _ => ∃ a rest, s.threads t = a :: rest ∧ (s.env a.env).chain ≠ []
  | .assign c p _ => ∃ r ∈ (s.registered c).flatten, r.1 = p
  | .setjmp t => s.threads t ≠ []
  | .popJmpBuf t => ∃ a rest, s.threads t = a :: rest ∧ a.jmpBufList ≠ [] ∧ a.frames ≠ []
  | .abandon t => ∃ a rest, s.threads t = a :: rest ∧ a.frames ≠ []
  | .longjmp t => s.threads t ≠ []
  | .start t c => s.threads t ≠ [] ∧ s.Fresh c
  | .resume t c => s.threads t ≠ [] ∧ s.suspended c ≠ none
  | .yield t => ∃ a b rest, s.threads t = a :: b :: rest
  | .finish t => ∃ a b rest, s.threads t = a :: b :: rest ∧ (s.env a.env).chain = [] ∧
    a.frames = []
  | .finalize c => ∀ t, ∀ a ∈ s.threads t, a.env ≠ c
  | .sync t => s.threads t ≠ []
  | .collect _ => True

/-- The jump buffers of a thread, in the order of its list. -/
def jmpBufList (t : T) : List JmpBuf := (s.threads t).flatMap (·.jmpBufList)

/-- `YogEval_longjmp`. Control goes to the frame of the buffer, in whatever environment it is. -/
def longjmp (t : T) (a : Active C) : Except Fault (State T C V) :=
  match s.jmpBufList t with
  | [] => .error .null
  | buf :: _ => do
    let env := s.env a.env
    let env ← env.closeUntil buf.scope env.handles.scope
    let s := (s.setEnv a.env env).setRegistered a.env
      ((s.registered a.env).drop ((s.registered a.env).length - env.handles.scope.length))
    match (s.threads t).dropWhile fun a => buf ∉ a.frames with
    | [] => .error .deadFrame
    | b :: rest =>
      .ok (s.setThread t ({ b with frames := b.frames.dropWhile fun f => f ≠ buf } :: rest))

/-- `keep_handles` for one of the environments. -/
def keepEnv (keeper : V → V) (s : State T C V) (c : C) : Except Fault (State T C V) := do
  let handles ← (s.env c).handles.keepHandles keeper
  return (s.setEnv c { s.env c with handles }).setRegistered c
    ((s.registered c).map fun regs => regs.map fun r => (r.1, keeper r.2))

def exec : Action T C V → Except Fault (State T C V)
  | .enter t c => .ok ((s.addHandles c).setThread t [⟨c, [], []⟩])
  | .leave t =>
    match s.threads t with
    | [] => .ok s
    | a :: rest => .ok { s.setThread t rest with handles := s.handles.erase a.env }
  | .openScope t self =>
    match s.threads t with
    | [] => .ok s
    | a :: _ => .ok ((s.setEnv a.env ((s.env a.env).openScope self)).setRegistered a.env
        ([] :: s.registered a.env))
  | .closeScope t =>
    match s.threads t with
    | [] => .ok s
    | a :: _ => do
      let env ← (s.env a.env).closeScope
      return (s.setEnv a.env env).setRegistered a.env (s.registered a.env).tail
  | .register t val =>
    match s.threads t with
    | [] => .ok s
    | a :: _ => do
      let (env, p) ← (s.env a.env).register val
      return (s.setEnv a.env env).setRegistered a.env
        ((s.registered a.env).modify 0 fun regs => regs ++ [(p, val)])
  | .assign c p val =>
    .ok ((s.setEnv c { s.env c with handles := (s.env c).handles.write p val }).setRegistered c
      ((s.registered c).map fun regs => regs.map (setValue p val)))
  | .setjmp t =>
    match s.threads t with
    | [] => .ok s
    | a :: rest =>
      let chain := (s.env a.env).chain
      let buf : JmpBuf := ⟨s.nextBuf, chain.head?, chain⟩
      .ok { s.setThread t ({ a with
          jmpBufList := buf :: a.jmpBufList
          frames := buf :: a.frames } :: rest) with nextBuf := s.nextBuf + 1 }
  | .popJmpBuf t =>
    match s.threads t with
    | [] => .ok s
    | a :: rest => .ok (s.setThread t ({ a with
        jmpBufList := a.jmpBufList.tail
        frames := a.frames.tail } :: rest))
  | .abandon t =>
    match s.threads t with
    | [] => .ok s
    | a :: rest => .ok (s.setThread t ({ a with frames := a.frames.tail } :: rest))
  | .longjmp t =>
    match s.threads t with
    | [] => .ok s
    | a :: _ => s.longjmp t a
  | .start t c =>
    match s.threads t with
    | [] => .ok s
    | a :: rest =>
      let s := s.setEnv a.env (s.env a.env).syncScope
      .ok ((s.addHandles c).setThread t (⟨c, [], []⟩ :: a :: rest))
  | .resume t c =>
    match s.threads t, s.suspended c with
    | a :: rest, some b =>
      let s := s.setEnv a.env (s.env a.env).syncScope
      .ok { s.setThread t (b :: a :: rest) with
        suspended := Function.update s.suspended c none }
    | _, _ => .ok s
  | .yield t =>
    match s.threads t with
    | [] => .ok s
    | a :: rest =>
      let s := s.setEnv a.env (s.env a.env).syncScope
      .ok { s.setThread t rest with suspended := Function.update s.suspended a.env (some a) }
  | .finish t =>
    match s.threads t with
    | [] => .ok s
    | _ :: rest => .ok (s.setThread t rest)
  | .finalize c => .ok { s with
      handles := s.handles.erase c
      suspended := Function.update s.suspended c none }
  | .sync t =>
    match s.threads t with
    | [] => .ok s
    | a :: _ => .ok (s.setEnv a.env (s.env a.env).syncScope)
  | .collect keeper => s.handles.foldlM (keepEnv keeper) s

end State

def Step (s : State T C V) (a : Action T C V) (s' : State T C V) : Prop :=
  s.Enabled a ∧ s.exec a = .ok s'

/-- No thread has entered. -/
def start : State T C V where
  env _ := .init
  handles := []
  threads _ := []
  suspended _ := none
  nextBuf := 0
  registered _ := []

end Handle

end Yog
