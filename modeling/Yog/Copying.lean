import Yog.Lib.Layout
import Yog.Lib.Machine
import Yog.Marking
import Mathlib.Algebra.BigOperators.Group.Finset.Defs

/-!
# Copying

A collection of the copying heaps (`gc/copying.c`). Every heap has two spaces of the same size. An
object is copied to the to-space of the heap that its keeper was given, behind what has been copied
there before, and leaves its new address behind in its header. What the VM refers to is copied
first, then every heap is scanned once: the references of each copy are replaced by the addresses
that its keeper returns.

Nobody looks at the end of the to-space. What a copy beyond it would do to the memory is not part of
the model, which goes no further then (`overrun`).
-/

namespace Yog

namespace Copying

/-- `round_size`, where a pointer has eight bytes. -/
def roundSize (size : ℕ) : ℕ := (size + 8 - 1) / 8 * 8

/-- The size of a `Header`: a children keeper, a finalizer, a forwarding address and the size. -/
def sizeofHeader : ℕ := 32

/-- The objects in the from-spaces, with the bytes that were asked for each of them, and the sizes
of the heaps. -/
structure Spaces (O H : Type) [Fintype O] [DecidableEq H] extends Marking.Graph O H where
  heapSize : H → ℕ
  payload : O → ℕ
  heapOf : O → H
  capacity : ∀ h, ∑ o with heapOf o = h, roundSize (payload o + sizeofHeader) ≤ heapSize h / 2

variable {O H : Type} [Fintype O] [DecidableEq O] [DecidableEq H]

namespace Spaces

/-- `header->size` -/
def size (G : Spaces O H) (o : O) : ℕ := roundSize (G.payload o + sizeofHeader)

/-- `copying->space_size` -/
def spaceSize (G : Spaces O H) (h : H) : ℕ := G.heapSize h / 2

/-- The references of the VM, and those of an object. -/
def slots (G : Spaces O H) : Option O → List O
  | none => G.roots.map Prod.fst
  | some o => (G.children o).map Prod.fst

end Spaces

/-- The state of the collector. `toSpace` are the copies in a heap, the first `scanned` of which
have been scanned, `refs` are the new references of the VM or of a copy, `pending` are the ones of
`owner` that are still to be replaced, and `passes` are the heaps that are still to be scanned. -/
structure State (O H : Type) where
  forwardingAddr : O → Option (H × ℕ)
  toSpace : H → List O
  scanned : H → ℕ
  refs : Option O → List (H × ℕ)
  owner : Option O
  pending : List (O × H)
  passes : List H
  overrun : Bool

/-- `copying->unscanned`, from the start of the to-space. -/
def unscanned (G : Spaces O H) (s : State O H) (h : H) : ℕ := extent G.size (s.toSpace h)

/-- What has been returned replaces the next reference. -/
def replace (s : State O H) (addr : H × ℕ) (rest : List (O × H)) : State O H :=
  { s with refs := Function.update s.refs s.owner (s.refs s.owner ++ [addr]), pending := rest }

/-- An object is copied to the end of what has been copied to a heap. -/
def copy (G : Spaces O H) (s : State O H) (o : O) (h : H) : State O H :=
  { s with
    forwardingAddr := Function.update s.forwardingAddr o (some (h, unscanned G s h))
    toSpace := Function.update s.toSpace h (s.toSpace h ++ [o]) }

/-- `YogCopying_copy` for the next reference, and when there is none, `YogCopying_scan` for the next
copy. -/
def step (G : Spaces O H) (s : State O H) : Option (State O H) :=
  if s.overrun then none
  else match s.pending with
  | (o, h) :: rest =>
    match s.forwardingAddr o with
    | some addr => some (replace s addr rest)
    | none =>
      if unscanned G s h + G.size o ≤ G.spaceSize h then
        some (replace (copy G s o h) (h, unscanned G s h) rest)
      else some { s with pending := [], overrun := true }
  | [] =>
    match s.passes with
    | [] => none
    | h :: hs =>
      match (s.toSpace h)[s.scanned h]? with
      | some o => some { s with
          scanned := Function.update s.scanned h (s.scanned h + 1)
          owner := some o
          pending := (G.children o).map fun c => (c.1, c.2.getD h) }
      | none => some { s with passes := hs }

/-- `YogCopying_prepare` for every heap, before the references of the VM are replaced. -/
def start (G : Spaces O H) : State O H where
  forwardingAddr _ := none
  toSpace _ := []
  scanned _ := 0
  refs _ := []
  owner := none
  pending := G.roots
  passes := G.heaps
  overrun := false

end Copying

end Yog
