import Yog.Control

/-!
# Files and locks held for a block

`open_`, `do_lock` and what they call for a block, of `file.c`. `longjmp` goes to the buffer on top
of the list of the thread and leaves the list as it is: the function that set the buffer takes it
off. A buffer is named by a number. What the block does is a tree, with the answers of the system to
the calls that are made on the way; the buffer that a comparison of keys leaves on the list is not
in it.
-/

namespace Yog.ScopedFile

variable {V : Type}

/-- What is acquired, and each attempt to release it, by the number of the buffer. -/
inductive Event
  | acquire (id : ℕ)
  | release (id : ℕ)
deriving DecidableEq

/-- The part of `YogEnv` and `YogThread` that is looked at. -/
structure Env (V : Type) where
  jmpBufList : List ℕ
  jmpVal : V
  frameToLongJump : Option ℕ
  /-- The number of the next buffer. -/
  fresh : ℕ
  log : List Event

/-- What a function comes to: it returns, or jumps to the buffer on top. It is still running where
it is `none`. -/
abbrev Run (V : Type) := Option (Except JmpStatus V × Env V)

def Run.andThen (r : Run V) (k : V → Env V → Run V) : Run V :=
  match r with
  | some (.ok v, env) => k v env
  | r => r

namespace Env

def pushJmpbuf (env : Env V) : Env V :=
  { env with jmpBufList := env.fresh :: env.jmpBufList, fresh := env.fresh + 1 }

def popJmpbuf (env : Env V) : Env V := { env with jmpBufList := env.jmpBufList.tail }

def write (e : Event) (env : Env V) : Env V := { env with log := env.log ++ [e] }

end Env

/-- `YogError_raise` -/
def raise (exc : V) (env : Env V) : Run V := some (.error .raise, { env with jmpVal := exc })

/-- `long_jump`, to a frame that is on the chain. -/
def longJump (status : JmpStatus) (vals : V) (target : Option ℕ) (env : Env V) : Run V :=
  some (.error status, { env with jmpVal := vals, frameToLongJump := target })

/-- What returns from `setjmp` of the buffer `b`: a jump, if the buffer is on top. -/
def setjmp (b : ℕ) (r : Run V) (landed : JmpStatus → Env V → Run V) : Run V :=
  match r with
  | some (.error status, env) =>
    if env.jmpBufList.head? = some b then landed status env else some (.error status, env)
  | r => r

/-- `YogEval_mainloop`: what it cannot follow it passes on. -/
def mainloop (exec : ℕ → Env V → Run V) (env : Env V) : Run V :=
  setjmp env.fresh
    ((exec env.fresh env.pushJmpbuf).andThen fun v env => some (.ok v, env.popJmpbuf))
    fun status env => some (.error status, env.popJmpbuf)

/-- A handler in a frame of the loop. -/
def handle (b : ℕ) (r : Run V) (handler : V → Env V → Run V) : Run V :=
  setjmp b r fun status env =>
    if status = .raise then handler env.jmpVal env else some (.error status, env)

/-- A frame of the loop that jumps out of a block may go to. -/
def arrive (b frame : ℕ) (r : Run V) : Run V :=
  setjmp b r fun status env =>
    if status ≠ .raise ∧ env.frameToLongJump = some frame then some (.ok env.jmpVal, env)
    else some (.error status, env)

section Files

variable (sysErr : ℤ → Option V → V)

/-- `do_unlock` and `do_close`, of what was acquired with the number `b`. The system call fails with
an error or it does not. -/
def doUnlock (b : ℕ) (err : Option ℤ) (env : Env V) : Option JmpStatus × Env V :=
  match err with
  | none => (none, env.write (.release b))
  | some errno => (some .raise, { env.write (.release b) with jmpVal := sysErr errno none })

/-- Where `setjmp` returns with a status. The `k`-th attempt to release is next. -/
def landed (released : ℕ → Option ℤ) (b : ℕ) : ℕ → ℕ → JmpStatus → Env V → Run V
  | 0, _, _, _ => none
  | fuel + 1, k, status, env =>
    match doUnlock sysErr b (released k) env with
    | (none, env) => some (.error status, env.popJmpbuf)
    | (some status, env) =>
      if env.jmpBufList.head? = some b then landed released b fuel (k + 1) status env
      else some (.error status, env)

/-- What `do_lock` and `open_` do with a block. `acquired` is the error of the first system call,
and `path` what it is reported with. -/
def guarded (fuel : ℕ) (path : Option V) (acquired : Option ℤ) (released : ℕ → Option ℤ)
    (block : Env V → Run V) (env : Env V) : Run V :=
  match acquired with
  | some errno => raise (sysErr errno path) env
  | none =>
    let b := env.fresh
    match block (env.write (.acquire b)).pushJmpbuf with
    | none => none
    | some (.error status, env) =>
      if env.jmpBufList.head? = some b then landed sysErr released b fuel 0 status env
      else some (.error status, env)
    | some (.ok retval, env) =>
      match doUnlock sysErr b (released 0) env with
      | (none, env) => some (.ok retval, env.popJmpbuf)
      | (some status, env) =>
        if env.jmpBufList.head? = some b then landed sysErr released b fuel 1 status env
        else some (.error status, env)

/-- `do_lock` -/
def doLock (fuel : ℕ) (acquired : Option ℤ) (released : ℕ → Option ℤ) (block : Env V → Run V)
    (env : Env V) : Run V :=
  guarded sysErr fuel none acquired released block env

/-- `open_` with a block. -/
def open_ (fuel : ℕ) (path : V) (acquired : Option ℤ) (released : ℕ → Option ℤ)
    (block : Env V → Run V) (env : Env V) : Run V :=
  guarded sysErr fuel (some path) acquired released block env

end Files

/-- What the code of a block does. `next` is what follows a value, so that a block that ends with
`next` or at its end comes to a `value`. -/
inductive Block (V : Type)
  | value (v : V)
  | raise (exc : V)
  | longReturn (vals : V) (target : Option ℕ)
  | longBreak (vals : V) (target : Option ℕ)
  /-- An exception is handled in the same loop. -/
  | rescue (body : Block V) (handler next : V → Block V)
  /-- A function is called, whose frame jumps may go to. -/
  | call (frame : ℕ) (body : Block V) (next : V → Block V)
  /-- `File.open`, or a lock method if there is no path, with a block. -/
  | guarded (path : Option V) (acquired : Option ℤ) (released : ℕ → Option ℤ) (body : Block V)
    (next : V → Block V)

/-- The code of a block in the loop of the buffer `b`. -/
def exec (sysErr : ℤ → Option V → V) (fuel : ℕ) : Block V → ℕ → Env V → Run V
  | .value v, _, env => some (.ok v, env)
  | .raise exc, _, env => raise exc env
  | .longReturn vals target, _, env => longJump .return_ vals target env
  | .longBreak vals target, _, env => longJump .break_ vals target env
  | .rescue body handler next, b, env =>
    (handle b (exec sysErr fuel body b env) fun exc env =>
      exec sysErr fuel (handler exc) b env).andThen fun v env => exec sysErr fuel (next v) b env
  | .call frame body next, b, env =>
    (arrive b frame (exec sysErr fuel body b env)).andThen fun v env =>
      exec sysErr fuel (next v) b env
  | .guarded path acquired released body next, b, env =>
    let block := mainloop fun b env => exec sysErr fuel body b env
    let r := match path with
      | none => doLock sysErr fuel acquired released block env
      | some path => open_ sysErr fuel path acquired released block env
    r.andThen fun v env => exec sysErr fuel (next v) b env

end Yog.ScopedFile
