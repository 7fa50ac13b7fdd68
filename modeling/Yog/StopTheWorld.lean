import Yog.Lib.Runs
import Mathlib.Logic.Function.Basic

/-!
# Stopping the world

What threads do under the global lock (`gc.c`, `vm.c`): one asks for a collection and waits until
the others have stopped, they wait until it is over, threads enter and leave blocking regions,
start and finish.

A step is what a thread does from the moment it takes the lock until it waits on a condition or
releases the lock. It keeps the lock where a step says so: in the collector itself, and on the way
back to the head of a loop. Waiting on a condition is a place of its own, in which a thread is
asleep until it is signalled, or until it wakes up for no reason; awake, it still has to take the
lock, and then tests what it waited for again.
-/

namespace Yog

namespace StopTheWorld

/-- The functions in which a thread may have to wait for a collection. -/
inductive Section (T : Type)
  | alloc
  | perform
  | freeFromGc
  | bindToGc
  | addThread (thread : T)
  | removeThread
  | waitFinish

/-- Where a thread is. -/
inductive Place (T : Type)
  /-- Nothing has called its `run`. -/
  | unborn
  /-- Its `run` was called, by a thread that has not added it yet. -/
  | starting (creator : T)
  /-- In mutator code. -/
  | running
  /-- About to take the lock, or back at the head of the loop of the section. -/
  | entering (sec : Section T)
  /-- On `gc_finish_cond`, in `wait_gc_finish`, with the number of the collection it waits for. -/
  | stopped (sec : Section T) (id : UInt64) (asleep : Bool)
  /-- On `threads_suspend_cond`, in `wait_suspend`. -/
  | collecting (asleep : Bool)
  /-- In the collector. -/
  | gc
  /-- In a blocking region. -/
  | freed
  /-- No running thread any more. -/
  | removed
  /-- On `vm_finish_cond`, in `YogVM_wait_finish`. -/
  | finishing (asleep : Bool)
  | finished

variable {T : Type}

/-- `pthread_cond_broadcast` of `gc_finish_cond`. -/
def Place.wakeStopped : Place T → Place T
  | stopped sec id _ => stopped sec id false
  | p => p

/-- `pthread_cond_signal` of `threads_suspend_cond`: one thread at most is there. -/
def Place.wakeCollecting : Place T → Place T
  | collecting _ => collecting false
  | p => p

/-- `pthread_cond_signal` of `vm_finish_cond`, where only the main thread waits. -/
def Place.wakeFinishing : Place T → Place T
  | finishing _ => finishing false
  | p => p

/-- What the threads share. -/
structure State (T : Type) where
  runningGc : Bool
  waitingSuspend : Bool
  suspendCounter : UInt64
  gcId : UInt64
  runningThreads : List T
  gcBound : T → Bool
  /-- The thread that keeps the lock from one step to the next. -/
  globalInterpLock : Option T
  place : T → Place T

namespace State

variable [DecidableEq T]

/-- The thread goes to a place, and the lock is as given. -/
def put (s : State T) (t : T) (p : Place T) (lock : Option T) : State T :=
  { s with place := Function.update s.place t p, globalInterpLock := lock }

section Put

variable (s : State T) (t : T) (p : Place T) (l : Option T)

@[simp] theorem put_runningGc : (s.put t p l).runningGc = s.runningGc := rfl
@[simp] theorem put_waitingSuspend : (s.put t p l).waitingSuspend = s.waitingSuspend := rfl
@[simp] theorem put_suspendCounter : (s.put t p l).suspendCounter = s.suspendCounter := rfl
@[simp] theorem put_gcId : (s.put t p l).gcId = s.gcId := rfl
@[simp] theorem put_runningThreads : (s.put t p l).runningThreads = s.runningThreads := rfl
@[simp] theorem put_gcBound : (s.put t p l).gcBound = s.gcBound := rfl
@[simp] theorem put_globalInterpLock : (s.put t p l).globalInterpLock = l := rfl
@[simp] theorem put_place : (s.put t p l).place = Function.update s.place t p := rfl

end Put

/-- The thread goes to a place, and the lock is released. -/
def goTo (s : State T) (t : T) (p : Place T) : State T :=
  s.put t p none

/-- The thread goes to a place, and keeps the lock. -/
def keepLock (s : State T) (t : T) (p : Place T) : State T :=
  s.put t p (some t)

/-- The thread goes to a place, without the lock. -/
def move (s : State T) (t : T) (p : Place T) : State T :=
  s.put t p s.globalInterpLock

def wakeupGcThread (s : State T) : State T :=
  { s with place := fun t => (s.place t).wakeCollecting }

def wakeupSuspendThreads (s : State T) : State T :=
  { s with place := fun t => (s.place t).wakeStopped }

/-- After `wait_gc_finish`: `YogGC_alloc` and `perform` are done with it, the others test
`waiting_suspend` again. -/
def leave (s : State T) (t : T) : Section T → State T
  | .alloc => s.goTo t .running
  | .perform => s.goTo t .running
  | sec => s.keepLock t (.entering sec)

/-- The loop of `wait_gc_finish`. -/
def waitGcFinishLoop (s : State T) (t : T) (sec : Section T) (id : UInt64) : State T :=
  if s.runningGc && s.gcId == id then s.goTo t (.stopped sec id true) else s.leave t sec

def waitGcFinish (s : State T) (t : T) (sec : Section T) : State T :=
  s.waitGcFinishLoop t sec s.gcId

def decrementSuspendCounter (s : State T) : State T :=
  let s := { s with suspendCounter := s.suspendCounter - 1 }
  if s.suspendCounter = 0 then s.wakeupGcThread else s

omit [DecidableEq T] in
theorem decrement_eq (s : State T) : s.decrementSuspendCounter =
    { s with
      suspendCounter := s.suspendCounter - 1
      place := fun t =>
        if s.suspendCounter - 1 = 0 then (s.place t).wakeCollecting else s.place t } := by
  unfold decrementSuspendCounter wakeupGcThread
  by_cases h : s.suspendCounter - 1 = 0 <;> simp [h]

/-- `YogGC_suspend` -/
def suspend (s : State T) (t : T) (sec : Section T) : State T :=
  s.decrementSuspendCounter.waitGcFinish t sec

def countRunningThreads (s : State T) : UInt64 :=
  .ofNat (s.runningThreads.countP s.gcBound)

/-- The loop of `wait_suspend`. -/
def waitSuspend (s : State T) (t : T) : State T :=
  if s.suspendCounter ≠ 0 then s.goTo t (.collecting true) else s.keepLock t .gc

/-- The end of `perform`. -/
def endPerform (s : State T) (t : T) : State T :=
  let s := { s with runningGc := false }.wakeupSuspendThreads
  { s with gcId := s.gcId + 1 }.goTo t .running

/-- `perform`, up to the collector -/
def perform (s : State T) (t : T) : State T :=
  if s.waitingSuspend then s.suspend t .perform
  else
    let s := { s with runningGc := true }
    let threadsNum := s.countRunningThreads
    if 0 < threadsNum then
      { s with suspendCounter := threadsNum - 1, waitingSuspend := true }.waitSuspend t
    else s.endPerform t

/-- The rest of `run_gc` and of `perform`, when the collector returns. -/
def endGc (s : State T) (t : T) : State T :=
  { s with waitingSuspend := false }.endPerform t

/-- `gc` of `vm.c`: the section stops for a collection that waits for it, or goes on. -/
def unlessWaiting (s : State T) (t : T) (sec : Section T) (rest : State T → State T) : State T :=
  if s.waitingSuspend then s.suspend t sec else rest s

def freeFromGc (s : State T) (t : T) : State T :=
  s.unlessWaiting t .freeFromGc fun s =>
    { s with gcBound := Function.update s.gcBound t false }.goTo t .freed

/-- The thread is not counted, and does not count down either. -/
def bindToGc (s : State T) (t : T) : State T :=
  if s.waitingSuspend then s.waitGcFinish t .bindToGc
  else { s with gcBound := Function.update s.gcBound t true }.goTo t .running

/-- `YogVM_add_thread`; `pthread_create` follows. -/
def addThread (s : State T) (t thread : T) : State T :=
  s.unlessWaiting t (.addThread thread) fun s =>
    { s with
      runningThreads := thread :: s.runningThreads
      place := Function.update s.place thread .running }.goTo t .running

def removeThread (s : State T) (t : T) : State T :=
  s.unlessWaiting t .removeThread fun s =>
    let s := { s with runningThreads := s.runningThreads.erase t }
    let s := if s.runningThreads.isEmpty then { s with place := fun u => (s.place u).wakeFinishing }
      else s
    s.goTo t .removed

/-- The loop of `YogVM_wait_finish`. -/
def waitThreads (s : State T) (t : T) : State T :=
  if 0 < s.runningThreads.length then s.goTo t (.finishing true) else s.goTo t .finished

def waitFinish (s : State T) (t : T) : State T :=
  s.unlessWaiting t .waitFinish fun s => s.waitThreads t

/-- A section from its beginning, or from the head of its loop, with the lock. -/
def enter (s : State T) (t : T) : Section T → State T
  | .alloc => s.suspend t .alloc
  | .perform => s.perform t
  | .freeFromGc => s.freeFromGc t
  | .bindToGc => s.bindToGc t
  | .addThread thread => s.addThread t thread
  | .removeThread => s.removeThread t
  | .waitFinish => s.waitFinish t

end State

/-- What a thread does. -/
inductive Action (T : Type)
  /-- It gets to a section, without the lock. -/
  | call (sec : Section T)
  /-- It goes into the section. -/
  | enter
  /-- It wakes up although nothing signalled it. -/
  | wake
  /-- Awake, it takes the lock again. -/
  | resume
  /-- The collector returns. -/
  | endGc

abbrev Op (T : Type) := T × Action T

section Steps

variable [DecidableEq T] (main : T)

/-- Where a thread may get to a section. `YogGC_alloc` reads `waiting_suspend` first, without the
lock. A thread is run once, and the main thread is the one that waits for the others. -/
def call (s : State T) (t : T) (sec : Section T) : Option (State T) :=
  match sec, s.place t with
  | .alloc, .running => if s.waitingSuspend then some (s.move t (.entering .alloc)) else none
  | .perform, .running => some (s.move t (.entering .perform))
  | .freeFromGc, .running => some (s.move t (.entering .freeFromGc))
  | .bindToGc, .freed => some (s.move t (.entering .bindToGc))
  | .addThread thread, .running =>
    match s.place thread with
    | .unborn => some ((s.move thread (.starting t)).move t (.entering (.addThread thread)))
    | _ => none
  | .removeThread, .running => some (s.move t (.entering .removeThread))
  | .waitFinish, .removed => if t = main then some (s.move t (.entering .waitFinish)) else none
  | _, _ => none

def resume (s : State T) (t : T) : Option (State T) :=
  match s.place t with
  | .stopped sec id false => some (s.waitGcFinishLoop t sec id)
  | .collecting false => some (s.waitSuspend t)
  | .finishing false => some (s.waitThreads t)
  | _ => none

def wake (s : State T) (t : T) : Option (State T) :=
  match s.place t with
  | .stopped sec id true => some (s.move t (.stopped sec id false))
  | .collecting true => some (s.move t (.collecting false))
  | .finishing true => some (s.move t (.finishing false))
  | _ => none

/-- The lock is free for the thread. -/
def State.Unlocked (s : State T) (t : T) : Prop :=
  s.globalInterpLock = none ∨ s.globalInterpLock = some t

instance (s : State T) (t : T) : Decidable (s.Unlocked t) :=
  inferInstanceAs (Decidable (_ ∨ _))

def enter (s : State T) (t : T) : Option (State T) :=
  match s.place t with
  | .entering sec => if s.Unlocked t then some (s.enter t sec) else none
  | _ => none

def endGc (s : State T) (t : T) : Option (State T) :=
  match s.place t with
  | .gc => some (s.endGc t)
  | _ => none

def step (s : State T) (op : Op T) : Option (State T) :=
  match op.2 with
  | .call sec => call main s op.1 sec
  | .enter => enter s op.1
  | .wake => wake s op.1
  | .resume => if s.globalInterpLock = none then resume s op.1 else none
  | .endGc => endGc s op.1

/-- After `YogVM_set_main_thread`. -/
def start : State T where
  runningGc := false
  waitingSuspend := false
  suspendCounter := 0
  gcId := 0
  runningThreads := [main]
  gcBound _ := true
  globalInterpLock := none
  place := Function.update (fun _ => .unborn) main .running

def run (ops : List (Op T)) : Option (State T) := ops.foldlM (step main) (start main)

end Steps

end StopTheWorld

end Yog
