import Yog.Lib.StackFlow
import Yog.CompileData

/-!
# The operand stack of a frame

A frame executes the elements of an instruction list one after another; labels and notes do
nothing. An instruction pops its operands from the frame and pushes its results. A call is one
step: when the frame goes on, the values that came back are on its stack.

What the results are is only said where it matters: a `dup` leaves its operand twice and a
`make_array` an array of its operands. Any other instruction leaves as many values as it pushes.
-/

namespace Yog

def Inst.label? : Inst → Option Label
  | .label l => some l
  | _ => none

def Inst.dest? : Inst → Option Label
  | .op _ o => o.dest?
  | _ => none

def Inst.falls : Inst → Bool
  | .op _ o => o.fallsThrough
  | _ => true

def Inst.pops : Inst → Nat
  | .op _ o => o.pops
  | _ => 0

def Inst.pushes : Inst → Nat
  | .op _ o => o.pushes
  | _ => 0

/-- A statement starts and ends without operands. -/
def Inst.depth? : Inst → Option Nat
  | .note .stmtStart | .note .stmtEnd => some 0
  | _ => none

/-- Instruction lists as code of a stack machine. -/
def instCode : StackCode Inst Label where
  label? := Inst.label?
  dest? := Inst.dest?
  falls := Inst.falls
  pops := Inst.pops
  pushes := Inst.pushes
  depth? := Inst.depth?

section Frame

variable {V : Type} (array : List V → V)

/-- What an element may leave in place of what it popped, the topmost operand first. -/
def Inst.Leaves : Inst → List V → List V → Prop
  | .op _ .dup, popped, pushed => ∃ v, popped = [v] ∧ pushed = [v, v]
  | .op _ (.makeArray _), popped, pushed => pushed = [array popped.reverse]
  | .op _ o, _, pushed => pushed.length = o.pushes
  | .label _, _, pushed | .note _, _, pushed => pushed = []

theorem Inst.length_of_leaves {i : Inst} {popped pushed : List V}
    (h : i.Leaves array popped pushed) : pushed.length = instCode.pushes i := by
  cases i with
  | label l => exact congrArg List.length h
  | note n => exact congrArg List.length h
  | op lineno op =>
    cases op with
    | dup =>
      obtain ⟨v, -, rfl⟩ := h
      rfl
    | makeArray n =>
      cases h
      rfl
    | _ => exact h

/-- One step of a frame in which nothing raises. -/
abbrev FrameStep (list : List Inst) : StackCode.Config V → StackCode.Config V → Prop :=
  instCode.Step (Inst.Leaves array) list

/-- A run of a frame in which nothing raises, with the places it executes. -/
abbrev FrameRun (list : List Inst) :
    StackCode.Config V → List Nat → StackCode.Config V → Prop :=
  instCode.Run (Inst.Leaves array) list

end Frame

end Yog
