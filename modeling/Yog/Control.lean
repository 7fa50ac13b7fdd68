import Yog.Eval
import Yog.Lib.Runs

/-!
# The control stack

What a thread has of the calls under way: the chain of frames (`env->frame` and its `prev` links)
and the list of jump buffers. A frame is a native call (`FRAME_C`), a body being executed
(`FRAME_SCRIPT`), or the mark below a main loop entered again from C (`FRAME_FINISH`). Raising an
exception and long jumps go to the buffer on top of the list, and the function that set it decides
how they go on.

A buffer also has its depth, the number of frames below which the function that set it runs; the
program keeps no such number. A buffer is stale when that function has returned.

The steps are of one thread. Values, operands and locals are not part of its state: where an
instruction jumps, whether it calls or raises is left open.
-/

namespace Yog

/-- A script frame: its object, the code and the place in it, and the frames a `return` and a
`break` in it go to. -/
structure ScriptFrame where
  id : Nat
  code : Code
  pc : Nat
  frameToLongReturn : Option Nat
  frameToLongBreak : Option Nat

inductive Frame where
  | c (id : Nat)
  | finish (id : Nat)
  | script (f : ScriptFrame)

namespace Frame

/-- The object. -/
def id : Frame → Nat
  | .c id | .finish id => id
  | .script f => f.id

def isC : Frame → Bool
  | .c _ => true
  | _ => false

def isFinish : Frame → Bool
  | .finish _ => true
  | _ => false

end Frame

/-- `YogJmpStatus`. -/
inductive JmpStatus where
  | raise
  | return_
  | break_
  deriving DecidableEq, Repr

/-- A jump buffer, by the function that set it: `YogEval_mainloop`, a function that holds a file, a
directory or a lock, `compare_val`, or `main`. The interactive loop (`repl.c`) is left out. -/
inductive JmpBuf where
  | mainloop (depth : Nat)
  | guard (depth : Nat)
  | compareVal (depth : Nat)
  | main
  | stale
  deriving DecidableEq, Repr

namespace JmpBuf

def isMainloop : JmpBuf → Bool
  | .mainloop _ => true
  | _ => false

/-- The function that set the buffer is a native one, and has not returned. -/
def isNative : JmpBuf → Bool
  | .guard _ | .compareVal _ => true
  | _ => false

def depth : JmpBuf → Nat
  | .mainloop d | .guard d | .compareVal d => d
  | .main | .stale => 0

end JmpBuf

/-- What the thread is at: executing, about to enter the main loop for the finish frame it has
pushed, about to raise that a frame is lost, on the way to the buffer on top, releasing what a guard
holds, or ended by `main`. -/
inductive Control where
  | running
  | calling
  | orphan (status : JmpStatus)
  | jumping (status : JmpStatus)
  | cleanup (status : JmpStatus)
  | halted
  deriving DecidableEq, Repr

/-- The part of `YogEnv` and `YogThread` that control depends on. -/
structure Thread (V : Type) where
  frames : List Frame
  jmpBufList : List JmpBuf
  jmpVal : V
  frameToLongJump : Option Nat
  control : Control

/-- `skip_c_frame`. -/
def skipCFrame : List Frame → List Frame := List.dropWhile Frame.isC

/-- `rollback_frames`: the frame whose exception table has the place it is at, made to go on at the
handler. -/
def rollbackFrames : List Frame → Option (List Frame)
  | .script f :: fs =>
    match findExceptionTableEntry f.code.fields.excTbl f.pc with
    | some target => some (.script { f with pc := target } :: fs)
    | none => rollbackFrames fs
  | _ => none

/-- The walk of `skip_to_c_frame`. -/
def skipToCFrameFrom : List Frame → Option (List Frame)
  | [] => none
  | .script _ :: fs => skipToCFrameFrom fs
  | .c id :: fs => some (.c id :: fs)
  | .finish _ :: fs => some fs

/-- `skip_to_c_frame`, which starts below the frame on top. At the end of the chain the process is
aborted. -/
def skipToCFrame (frames : List Frame) : Option (List Frame) := skipToCFrameFrom frames.tail

/-- `detect_orphan`: the frame is not on the chain below the frame on top. -/
def detectOrphan (target : Option Nat) (frames : List Frame) : Bool :=
  !frames.tail.any fun f => !f.isC && some f.id = target

/-- What the walk of the main loop for `JMP_RETURN` and `JMP_BREAK` comes to. -/
inductive Search where
  | found (frames : List Frame)
  | cFrame
  | lost

/-- The walk of the main loop for `JMP_RETURN` and `JMP_BREAK`. -/
def searchFrame (target : Option Nat) : List Frame → Search
  | [] => .lost
  | .c _ :: _ => .cFrame
  | f :: fs => if some f.id = target then .found (f :: fs) else searchFrame target fs

section Machine

variable {V : Type} (localJumpError : JmpStatus → V)

namespace Thread

/-- `YogError_raise` up to the long jump. -/
def raise (exc : V) (t : Thread V) : Thread V :=
  { t with jmpVal := exc, control := .jumping .raise }

/-- `skip_to_c_frame` and `YogEval_longjmp_to_prev_buf` of the main loop. -/
def leaveMainloop (frames : List Frame) (t : Thread V) : Option (Thread V) :=
  (skipToCFrame frames).map fun frames => { t with frames, jmpBufList := t.jmpBufList.tail }

/-- The case `JMP_RAISE` of `YogEval_mainloop`. -/
def followRaise (frames : List Frame) (t : Thread V) : Option (Thread V) :=
  match rollbackFrames frames with
  | some frames => some { t with frames, control := .running }
  | none => t.leaveMainloop frames

/-- The cases `JMP_RETURN` and `JMP_BREAK`. -/
def followJump (status : JmpStatus) (frames : List Frame) (t : Thread V) : Option (Thread V) :=
  match searchFrame t.frameToLongJump frames with
  | .found frames => some { t with frames, control := .running }
  | .cFrame => t.leaveMainloop frames
  | .lost => some ({ t with frames }.raise (localJumpError status))

/-- The entry of `YogEval_mainloop` with a status. -/
def enterMainloop (status : JmpStatus) (t : Thread V) : Option (Thread V) :=
  match status with
  | .raise => t.followRaise (skipCFrame t.frames)
  | status => t.followJump localJumpError status (skipCFrame t.frames)

/-- The return of `setjmp` in the function whose buffer is on top. `compare_val` goes on as if the
values were different, and leaves its buffer on the list. -/
def land (status : JmpStatus) (t : Thread V) : Option (Thread V) :=
  match t.jmpBufList with
  | .mainloop _ :: _ => t.enterMainloop localJumpError status
  | .guard _ :: _ => some { t with control := .cleanup status }
  | .compareVal _ :: bufs => some { t with jmpBufList := .stale :: bufs, control := .running }
  | .main :: _ => some { t with control := .halted }
  | .stale :: _ | [] => none

section Land

variable {localJumpError : JmpStatus → V} {status : JmpStatus} {t : Thread V} {d : Nat}
  {bufs : List JmpBuf}

theorem land_nil (h : t.jmpBufList = []) : t.land localJumpError status = none := by
  unfold land
  rw [h]

theorem land_mainloop (h : t.jmpBufList = .mainloop d :: bufs) :
    t.land localJumpError status = t.enterMainloop localJumpError status := by
  unfold land
  rw [h]

theorem enterMainloop_of_ne (h : status ≠ .raise) :
    t.enterMainloop localJumpError status =
      t.followJump localJumpError status (skipCFrame t.frames) := by
  cases status with
  | raise => exact (h rfl).elim
  | return_ => rfl
  | break_ => rfl

theorem land_guard (h : t.jmpBufList = .guard d :: bufs) :
    t.land localJumpError status = some { t with control := .cleanup status } := by
  unfold land
  rw [h]

theorem land_compareVal (h : t.jmpBufList = .compareVal d :: bufs) :
    t.land localJumpError status =
      some { t with jmpBufList := .stale :: bufs, control := .running } := by
  unfold land
  rw [h]

theorem land_main (h : t.jmpBufList = .main :: bufs) :
    t.land localJumpError status = some { t with control := .halted } := by
  unfold land
  rw [h]

theorem land_stale (h : t.jmpBufList = .stale :: bufs) : t.land localJumpError status = none := by
  unfold land
  rw [h]

end Land

/-- The buffer on top belongs to no native function that is still active, so the main loop
executes. -/
def InLoop (t : Thread V) : Prop := ∀ b ∈ t.jmpBufList.head?, b.isNative = false

/-- The main loop is at an instruction of the script frame on top. -/
structure Fetches (t : Thread V) (f : ScriptFrame) (fs : List Frame) (op : Op Nat) (next : Nat) :
    Prop where
  running : t.control = .running
  frames : t.frames = .script f :: fs
  inLoop : t.InLoop
  fetch : fetch f.code.fields.insts f.pc = some (op, next)

end Thread

/-- The instructions that push the frame of a body: calls (also of the methods of operators) and the
statements of classes and modules. -/
def Op.enters : Op Nat → Bool
  | .callFunction .. | .makeModule _ | .makeClass | .binop _ | .subscript | .loadAttr _
  | .storeAttr _ => true
  | _ => false

/-- A jump out of a block, and where from. -/
def Op.longJump? : Op Nat → Option (JmpStatus × Nat)
  | .longReturn n => some (.return_, n)
  | .longBreak n => some (.break_, n)
  | _ => none

/-- The instruction takes no frame from the chain and is no long jump. -/
def Op.stays : Op Nat → Bool
  | .ret _ | .finish | .longReturn _ | .longBreak _ => false
  | _ => true

/-- The frame a jump out of a block goes to. -/
def ScriptFrame.target (f : ScriptFrame) : JmpStatus → Option Nat
  | .return_ => f.frameToLongReturn
  | .break_ => f.frameToLongBreak
  | .raise => none

/-- What a step does that the run is about: an instruction of a script frame executed at a place, a
jump out of a block, an exception raised, or a jump that goes on. -/
inductive Event (V : Type) where
  | exec (id pc : Nat)
  | longJump (id pc : Nat) (status : JmpStatus)
  | raise (exc : V)
  | native
  | land

/-- One step of a thread. -/
inductive Step : Thread V → Event V → Thread V → Prop where
  /-- An instruction that goes on in its frame. -/
  | exec {t f fs op next pc} : t.Fetches f fs op next → op.stays →
    (pc = next ∨ op.dest? = some pc) →
    Step t (.exec f.id f.pc) { t with frames := .script { f with pc } :: fs }
  /-- A body is entered from the main loop. -/
  | call {t f fs op next} (g : ScriptFrame) : t.Fetches f fs op next → op.enters → g.pc = 0 →
    Step t (.exec f.id f.pc) { t with frames := .script g :: .script { f with pc := next } :: fs }
  /-- A native function is called, by an instruction. -/
  | callNative {t f fs op next} (id : Nat) : t.Fetches f fs op next → op.stays →
    Step t (.exec f.id f.pc) { t with frames := .c id :: .script { f with pc := next } :: fs }
  /-- The C code of an instruction calls a script function: `YogEval_push_finish_frame`. -/
  | pushFinish {t f fs op next} (id : Nat) : t.Fetches f fs op next → op.stays →
    Step t (.exec f.id f.pc)
      { t with
        frames := .finish id :: .script { f with pc := next } :: fs
        control := .calling }
  /-- `ret`. -/
  | ret {t f fs next n} : t.Fetches f fs (.ret n) next → fs ≠ [] →
    Step t (.exec f.id f.pc) { t with frames := fs }
  /-- `long_return` and `long_break` to a frame on the chain. -/
  | longJump {t f fs op next status n} (vals : V) : t.Fetches f fs op next →
    op.longJump? = some (status, n) →
    detectOrphan (f.target status) (.script f :: fs) = false →
    Step t (.longJump f.id f.pc status)
      { t with
        frames := .script { f with pc := next } :: fs
        jmpVal := vals
        frameToLongJump := f.target status
        control := .jumping status }
  /-- `long_return` and `long_break` to a frame that is not. -/
  | orphan {t f fs op next status n} : t.Fetches f fs op next →
    op.longJump? = some (status, n) →
    detectOrphan (f.target status) (.script f :: fs) = true →
    Step t (.exec f.id f.pc)
      { t with frames := .script { f with pc := next } :: fs, control := .orphan status }
  | raiseLocalJumpError {t status} : t.control = .orphan status →
    Step t (.raise (localJumpError status)) (t.raise (localJumpError status))
  /-- `finish`: the loop ends and its value is the result of the call from C. -/
  | finish {t id fs} : t.control = .running → t.frames = .finish id :: fs → t.InLoop →
    Step t .native { t with frames := fs, jmpBufList := t.jmpBufList.tail }
  /-- The call from C: the arguments are bound, the frame is pushed and the loop entered. -/
  | mainloop {t id fs} (g : ScriptFrame) : t.control = .calling → t.frames = .finish id :: fs →
    g.pc = 0 →
    Step t .native
      { t with
        frames := .script g :: t.frames
        jmpBufList := .mainloop t.frames.length :: t.jmpBufList
        control := .running }
  /-- A native function, or `main`, calls a native function. -/
  | nativeCallsNative {t} (id : Nat) : t.control = .running → (∀ f ∈ t.frames.head?, f.isC) →
    Step t .native { t with frames := .c id :: t.frames }
  /-- A native function calls a script function, or the body of a package is evaluated. -/
  | nativePushFinish {t} (id : Nat) : t.control = .running → (∀ f ∈ t.frames.head?, f.isC) →
    Step t .native { t with frames := .finish id :: t.frames, control := .calling }
  /-- A native function returns, its buffers popped. -/
  | nativeReturn {t id fs} : t.control = .running → t.frames = .c id :: fs →
    (∀ b ∈ t.jmpBufList.head?, b.isNative → b.depth ≤ fs.length) →
    Step t .native { t with frames := fs }
  /-- A native function sets a buffer. The comparison of keys is also called by the C code of an
  instruction. -/
  | pushGuard {t id fs} : t.control = .running → t.frames = .c id :: fs →
    Step t .native { t with jmpBufList := .guard t.frames.length :: t.jmpBufList }
  | pushCompareVal {t} : t.control = .running → (∀ f ∈ t.frames.head?, f.isFinish = false) →
    Step t .native { t with jmpBufList := .compareVal t.frames.length :: t.jmpBufList }
  | popJmpbuf {t b bufs} : t.control = .running → t.jmpBufList = b :: bufs → b.isNative →
    Step t .native { t with jmpBufList := bufs }
  /-- The C code of a comparison calls `==` where an instruction called it. -/
  | comparePushFinish {t f fs d bufs} (id : Nat) : t.control = .running →
    t.frames = .script f :: fs → t.jmpBufList = .compareVal d :: bufs →
    Step t .native { t with frames := .finish id :: t.frames, control := .calling }
  /-- An exception is raised: by the code of an instruction, by a native function, by the arrival of
  values, or while the arguments of a call from C are bound. -/
  | raise {t} (exc : V) : t.control = .running ∨ t.control = .calling →
    Step t (.raise exc) (t.raise exc)
  /-- The buffer on top takes the jump. -/
  | land {t u status} : t.control = .jumping status → t.land localJumpError status = some u →
    Step t .land u
  /-- A guard has released what it holds, and jumps on. -/
  | released {t d bufs status} : t.control = .cleanup status → t.jmpBufList = .guard d :: bufs →
    Step t .land { t with jmpBufList := bufs, control := .jumping status }
  /-- The release fails. -/
  | releaseFails {t status} (exc : V) : t.control = .cleanup status →
    Step t (.raise exc) (t.raise exc)

variable {localJumpError}

/-- What a step does by what the thread is at. Only a jump goes on where nothing executes. -/
theorem Step.cases_control {t u : Thread V} {e : Event V} (h : Step localJumpError t e u) :
    t.control = .running ∨ t.control = .calling ∨ (∃ status, t.control = .orphan status) ∨
      (∃ status, t.control = .jumping status ∧ e = .land ∧
        t.land localJumpError status = some u) ∨
      ∃ status, t.control = .cleanup status ∧
        ((∃ d bufs, e = .land ∧ t.jmpBufList = .guard d :: bufs ∧
          u = { t with jmpBufList := bufs, control := .jumping status }) ∨
        ∃ exc, e = .raise exc ∧ u = t.raise exc) := by
  cases h with
  | exec h | call _ h | callNative _ h | pushFinish _ h | ret h | longJump _ h | orphan h =>
    exact Or.inl h.running
  | raiseLocalJumpError h => exact Or.inr (Or.inr (Or.inl ⟨_, h⟩))
  | finish h | nativeCallsNative _ h | nativePushFinish _ h | nativeReturn h | pushGuard h
  | pushCompareVal h | popJmpbuf h | comparePushFinish _ h => exact Or.inl h
  | mainloop _ h => exact Or.inr (Or.inl h)
  | raise _ h =>
    rcases h with h | h
    · exact Or.inl h
    · exact Or.inr (Or.inl h)
  | land h hl => exact Or.inr (Or.inr (Or.inr (Or.inl ⟨_, h, rfl, hl⟩)))
  | released h hb => exact Or.inr (Or.inr (Or.inr (Or.inr ⟨_, h, Or.inl ⟨_, _, rfl, hb, rfl⟩⟩)))
  | releaseFails exc h => exact Or.inr (Or.inr (Or.inr (Or.inr ⟨_, h, Or.inr ⟨exc, rfl, rfl⟩⟩)))

theorem Step.of_jumping {t u : Thread V} {e : Event V} {status : JmpStatus}
    (hc : t.control = .jumping status) (h : Step localJumpError t e u) :
    e = .land ∧ t.land localJumpError status = some u := by
  rcases h.cases_control with h | h | ⟨_, h⟩ | ⟨s, h, hl⟩ | ⟨_, h, -⟩ <;>
    rw [hc] at h <;> cases h
  exact hl

theorem Step.of_cleanup {t u : Thread V} {e : Event V} {status : JmpStatus}
    (hc : t.control = .cleanup status) (h : Step localJumpError t e u) :
    (∃ d bufs, e = .land ∧ t.jmpBufList = .guard d :: bufs ∧
      u = { t with jmpBufList := bufs, control := .jumping status }) ∨
    ∃ exc, e = .raise exc ∧ u = t.raise exc := by
  rcases h.cases_control with h | h | ⟨_, h⟩ | ⟨s, h, hl⟩ | ⟨_, h, hl⟩ <;>
    rw [hc] at h <;> cases h
  exact hl

/-- A thread at its start. The main thread has the buffer of `main`, and others have none. -/
def Thread.start (val : V) (isMain : Bool) : Thread V where
  frames := []
  jmpBufList := if isMain then [.main] else []
  jmpVal := val
  frameToLongJump := none
  control := .running

end Machine

end Yog
