import Yog.Lib.Machine
import Yog.Lib.Tricolour
import Mathlib.Logic.Function.Basic

/-!
# Marking

A collection of the mark-sweep-compact heaps (`gc.c`, `gc/mark-sweep-compact.c`). The children of
the VM are kept, then every heap has its pass: as long as there are marked objects on its list, they
are taken off and their children are kept. An object is put on the list of the heap that its keeper
was given, and that is the heap whose pass it is, but for what a thread owns: `keep_children` of
`thread.c` gives the heap of the thread.

An object without a children keeper is put on no list; it is marked when what refers to it keeps its
children. Marking returns the pointer it was given, so that no member changes.
-/

namespace Yog

namespace Marking

/-- The objects that have a children keeper, and the heaps in their order. A child is kept for the
heap that the keeper was given, or for one of its own. -/
structure Graph (O H : Type) where
  mainHeap : H
  otherHeaps : List H
  nodup : (mainHeap :: otherHeaps).Nodup
  roots : List (O × H)
  children : O → List (O × Option H)

variable {O H L : Type}

def Graph.heaps (G : Graph O H) : List H := G.mainHeap :: G.otherHeaps

/-- The objects that have none, what refers to them, and the heaps in which all objects are. -/
structure Leaves (O H L : Type) where
  ofRoots : List L
  of : O → List L
  heapOf : O ⊕ L → H

/-- The children of an object. -/
def Graph.succ (G : Graph O H) (o : O) : Set O := {c | c ∈ (G.children o).map Prod.fst}

/-- The objects that the VM refers to. -/
def Graph.rootSet (G : Graph O H) : Set O := {r | r ∈ G.roots.map Prod.fst}

/-- What the roots lead to. -/
def Reaches (G : Graph O H) (V : Leaves O H L) : O ⊕ L → Prop
  | .inl o => Reachable G.succ G.rootSet o
  | .inr l => l ∈ V.ofRoots ∨ ∃ o, Reachable G.succ G.rootSet o ∧ l ∈ V.of o

/-- The state of the collector. `prev` is what the pass still has to go through, `pending` are the
children that are still to be kept, and `passes` are the heaps whose pass is not over. -/
structure State (O H : Type) where
  marked : O → Bool
  traversed : List O
  cur : H → List O
  prev : List O
  pending : List (O × H)
  passes : List H

section Collector

variable [DecidableEq O] [DecidableEq H]

/-- `YogMarkSweepCompact_mark` -/
def mark (s : State O H) (o : O) (h : H) : State O H :=
  if s.marked o then s
  else { s with
    marked := Function.update s.marked o true
    cur := Function.update s.cur h (s.cur h ++ [o]) }

/-- When all of the children of the VM have been kept, `YogMarkSweepCompact_mark_in_breadth_first`
for each heap: the children of the objects on the list, until there is none left on the other one
(`YogHeap_prepare_marking` swaps the two). -/
def step (G : Graph O H) (s : State O H) : Option (State O H) :=
  match s.pending with
  | (o, h) :: rest => some { mark s o h with pending := rest }
  | [] =>
    match s.passes with
    | [] => none
    | h :: hs =>
      match s.prev with
      | o :: os => some { s with
          prev := os
          traversed := o :: s.traversed
          pending := (G.children o).map fun c => (c.1, c.2.getD h) }
      | [] =>
        if (s.cur h).isEmpty then some { s with passes := hs }
        else some { s with prev := s.cur h, cur := Function.update s.cur h [] }

def start (G : Graph O H) : State O H where
  marked _ := false
  traversed := []
  cur _ := []
  prev := []
  pending := G.roots
  passes := G.heaps

end Collector

section Sweep

variable [DecidableEq H] [DecidableEq L] {C : Type}

def isMarked (V : Leaves O H L) (s : State O H) : O ⊕ L → Bool
  | .inl o => s.marked o
  | .inr l => V.ofRoots.contains l || s.traversed.any fun o => (V.of o).contains l

/-- `YogMarkSweepCompact_delete_garbage`: of the objects of the heap, those that are marked are so
no more, and the others are released. -/
def deleteGarbage (V : Leaves O H L) (p : (O ⊕ L → Bool) × (O ⊕ L → Option C)) (h : H) :
    (O ⊕ L → Bool) × (O ⊕ L → Option C) :=
  (fun r => if V.heapOf r = h then false else p.1 r,
    fun r => if V.heapOf r = h ∧ p.1 r = false then none else p.2 r)

/-- The contents of the objects after a collection, none of those that are released. -/
def sweep (G : Graph O H) (V : Leaves O H L) (s : State O H) (memory : O ⊕ L → C) :
    O ⊕ L → Option C :=
  (G.heaps.foldl (deleteGarbage V) (isMarked V s, fun r => some (memory r))).2

end Sweep

end Marking

end Yog
