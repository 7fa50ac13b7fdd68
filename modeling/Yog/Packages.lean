import Yog.Lib.Runs
import Mathlib.Logic.Function.Basic

/-!
# Importing packages

`import_package` of `vm.c` by any number of threads. What is done under `pkgs_lock` is one step, and
so is what is done between two calls that may block. An import that finds no entry registers a
placeholder, `ImportingPackage`, and loads the package. A script has its own package registered
(`eval_stmts`) before its body runs, in the place of the placeholder and without the lock; a C
library has not. An exception that leaves the load is a long jump over `import_package`.

A thread has a call of `import_package` for each package that it is importing, as the body of one
may import another. It waits on the condition of a placeholder until it is signalled, or until it
wakes up for no reason, and then has to take the lock of the placeholder again.
-/

namespace Yog

namespace Packages

/-- An object of `YogPackage`. -/
abbrev Pkg := ℕ

/-- An object of `ImportingPackage`. -/
abbrev Tmp := ℕ

/-- What the table of packages has for a name. -/
inductive Entry
  | importing (tmp : Tmp)
  | package (pkg : Pkg)
  deriving DecidableEq

/-- Where a call of `import_package` is. -/
inductive Phase
  /-- About to search the table under the read lock. -/
  | entered
  /-- The read lock was released. -/
  | missed
  /-- In `import`, with the placeholder registered. -/
  | importing (tmp : Tmp)
  /-- In the body of the script. -/
  | running (tmp : Tmp) (pkg : Pkg)
  /-- In the initialiser of the library. -/
  | initializing (tmp : Tmp)
  /-- The package was put into the placeholder. -/
  | stored (tmp : Tmp)
  /-- At the head of the loop of `wait_package`, with the lock of the placeholder. -/
  | testing (tmp : Tmp)
  /-- In the loop, about to wait. -/
  | pausing (tmp : Tmp)
  /-- On the condition of the placeholder. -/
  | waiting (tmp : Tmp) (asleep : Bool)
  deriving DecidableEq

namespace Phase

/-- The placeholder of the package that is being loaded. -/
def loads : Phase → Option Tmp
  | importing tmp => some tmp
  | running tmp _ => some tmp
  | initializing tmp => some tmp
  | stored tmp => some tmp
  | _ => none

/-- The placeholder that is waited for. -/
def waitsFor : Phase → Option Tmp
  | testing tmp => some tmp
  | pausing tmp => some tmp
  | waiting tmp _ => some tmp
  | _ => none

/-- The code of the package is running, which may do anything. -/
def runsCode : Phase → Bool
  | running _ _ => true
  | initializing _ => true
  | _ => false

/-- In the load, before its end. -/
def fails : Phase → Bool
  | importing _ => true
  | running _ _ => true
  | initializing _ => true
  | _ => false

/-- `pthread_cond_broadcast` -/
def wake (tmp : Tmp) : Phase → Phase
  | waiting tmp' asleep => waiting tmp' (asleep && tmp' != tmp)
  | p => p

end Phase

structure Call (N : Type) where
  name : N
  phase : Phase

/-- How far the load of a package is. -/
inductive Load (T : Type)
  | absent
  | loading (thread : T) (tmp : Tmp)
  /-- The body has completed, but the others were not told. -/
  | loaded (thread : T) (tmp : Tmp)
  | ended
  | failed
  deriving DecidableEq

/-- What a call of `import_package` ended with; without a package, it was an exception. -/
structure Result (T N : Type) where
  thread : T
  name : N
  pkg : Option Pkg
  /-- How far the load was. -/
  load : Load T

structure State (T N : Type) where
  /-- `vm->pkgs` -/
  pkgs : N → Option Entry
  /-- The package in a placeholder. -/
  pkg : Tmp → Option Pkg
  /-- Who has the lock of a placeholder. -/
  lock : Tmp → Option T
  /-- The calls that a thread is in, the innermost first. -/
  calls : T → List (Call N)
  nextTmp : Tmp
  nextPkg : Pkg
  load : N → Load T
  /-- The packages whose code was started. -/
  bodies : List N
  results : List (Result T N)

inductive Action (T N : Type)
  | call (thread : T) (name : N)
  /-- `FIND_PKG` under the read lock -/
  | findRead (thread : T)
  /-- `FIND_PKG` under the write lock, and the placeholder -/
  | findWrite (thread : T)
  /-- The script is there and compiles. -/
  | evalStmts (thread : T)
  /-- The library is there and has an initialiser. -/
  | callInitializer (thread : T)
  /-- The body of the script completes. -/
  | evaluated (thread : T)
  /-- The initialiser returns a package. -/
  | initialized (thread : T) (pkg : Pkg)
  /-- The last section under the write lock -/
  | finish (thread : T)
  | test (thread : T)
  | wait (thread : T)
  /-- `pthread_cond_wait` may return without a signal. -/
  | wakeUp (thread : T)
  | relock (thread : T)
  /-- An exception leaves the load: no file, an error of syntax, or from the code of the package. -/
  | raise (thread : T)

variable {T N : Type} [DecidableEq T] [DecidableEq N]

namespace State

variable (s : State T N)

/-- The thread gets other calls. -/
def goTo (t : T) (calls : List (Call N)) : State T N :=
  { s with calls := Function.update s.calls t calls }

/-- The innermost call ends. -/
def leave (t : T) (name : N) (rest : List (Call N)) (pkg : Option Pkg) : State T N :=
  { s.goTo t rest with results := ⟨t, name, pkg, s.load name⟩ :: s.results }

/-- `get_package`, until the packages lock is released. -/
def getPackage (t : T) (name : N) (rest : List (Call N)) : Entry → Option (State T N)
  | .importing tmp =>
    if s.lock tmp = none then
      some { s.goTo t (⟨name, .testing tmp⟩ :: rest) with
        lock := Function.update s.lock tmp (some t) }
    else none
  | .package pkg => some (s.leave t name rest (some pkg))

/-- The placeholder is registered. -/
def register (t : T) (name : N) (rest : List (Call N)) : State T N :=
  { s.goTo t (⟨name, .importing s.nextTmp⟩ :: rest) with
    pkgs := Function.update s.pkgs name (some (.importing s.nextTmp))
    pkg := Function.update s.pkg s.nextTmp none
    lock := Function.update s.lock s.nextTmp none
    nextTmp := s.nextTmp + 1
    load := Function.update s.load name (.loading t s.nextTmp) }

/-- The loaded package is put into the placeholder. -/
def store (t : T) (name : N) (tmp : Tmp) (rest : List (Call N)) (pkg : Pkg) : State T N :=
  { s.goTo t (⟨name, .stored tmp⟩ :: rest) with
    pkg := Function.update s.pkg tmp (some pkg)
    load := Function.update s.load name (.loaded t tmp) }

/-- The package is registered, and those who wait for it are told. -/
def complete (t : T) (name : N) (tmp : Tmp) (rest : List (Call N)) (pkg : Pkg) : State T N :=
  let s := s.leave t name rest (some pkg)
  { s with
    pkgs := Function.update s.pkgs name (some (.package pkg))
    calls := fun u => (s.calls u).map fun c => { c with phase := c.phase.wake tmp }
    load := Function.update s.load name .ended }

/-- A step of a thread; `none` where the thread cannot do it. -/
def exec : Action T N → Option (State T N)
  | .call t name =>
    match s.calls t with
    | [] => some (s.goTo t [⟨name, .entered⟩])
    | c :: rest =>
      if c.phase.runsCode then some (s.goTo t (⟨name, .entered⟩ :: c :: rest)) else none
  | .findRead t =>
    match s.calls t with
    | ⟨name, .entered⟩ :: rest =>
      match s.pkgs name with
      | some e => s.getPackage t name rest e
      | none => some (s.goTo t (⟨name, .missed⟩ :: rest))
    | _ => none
  | .findWrite t =>
    match s.calls t with
    | ⟨name, .missed⟩ :: rest =>
      match s.pkgs name with
      | some e => s.getPackage t name rest e
      | none => some (s.register t name rest)
    | _ => none
  | .evalStmts t =>
    match s.calls t with
    | ⟨name, .importing tmp⟩ :: rest =>
      some { s.goTo t (⟨name, .running tmp s.nextPkg⟩ :: rest) with
        pkgs := Function.update s.pkgs name (some (.package s.nextPkg))
        nextPkg := s.nextPkg + 1
        bodies := name :: s.bodies }
    | _ => none
  | .callInitializer t =>
    match s.calls t with
    | ⟨name, .importing tmp⟩ :: rest =>
      some { s.goTo t (⟨name, .initializing tmp⟩ :: rest) with bodies := name :: s.bodies }
    | _ => none
  | .evaluated t =>
    match s.calls t with
    | ⟨name, .running tmp pkg⟩ :: rest => some (s.store t name tmp rest pkg)
    | _ => none
  | .initialized t pkg =>
    match s.calls t with
    | ⟨name, .initializing tmp⟩ :: rest => some (s.store t name tmp rest pkg)
    | _ => none
  | .finish t =>
    match s.calls t with
    | ⟨name, .stored tmp⟩ :: rest =>
      -- Without an entry to delete, it is a bug.
      match s.pkgs name, s.pkg tmp with
      | some _, some pkg => some (s.complete t name tmp rest pkg)
      | _, _ => none
    | _ => none
  | .test t =>
    match s.calls t with
    | ⟨name, .testing tmp⟩ :: rest =>
      match s.pkg tmp with
      | some pkg => some { s.leave t name rest (some pkg) with
          lock := Function.update s.lock tmp none }
      | none => some (s.goTo t (⟨name, .pausing tmp⟩ :: rest))
    | _ => none
  | .wait t =>
    match s.calls t with
    | ⟨name, .pausing tmp⟩ :: rest =>
      some { s.goTo t (⟨name, .waiting tmp true⟩ :: rest) with
        lock := Function.update s.lock tmp none }
    | _ => none
  | .wakeUp t =>
    match s.calls t with
    | ⟨name, .waiting tmp _⟩ :: rest => some (s.goTo t (⟨name, .waiting tmp false⟩ :: rest))
    | _ => none
  | .relock t =>
    match s.calls t with
    | ⟨name, .waiting tmp false⟩ :: rest =>
      if s.lock tmp = none then
        some { s.goTo t (⟨name, .testing tmp⟩ :: rest) with
          lock := Function.update s.lock tmp (some t) }
      else none
    | _ => none
  | .raise t =>
    match s.calls t with
    | [] => none
    | c :: rest =>
      if c.phase.fails then
        some { s.leave t c.name rest none with load := Function.update s.load c.name .failed }
      else none

end State

def Step (s : State T N) (a : Action T N) (s' : State T N) : Prop := s.exec a = some s'

/-- Before the first import, with the packages that the VM has made itself. -/
def start (pkgs : N → Option Pkg) : State T N where
  pkgs name := (pkgs name).map .package
  pkg _ := none
  lock _ := none
  calls _ := []
  nextTmp := 0
  nextPkg := 0
  load name := if (pkgs name).isSome then .ended else .absent
  bodies := []
  results := []

end Packages

end Yog
