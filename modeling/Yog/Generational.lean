import Yog.Lib.Machine
import Mathlib.Logic.Function.Basic

/-!
# The generational collector

The heaps of `gc/generational.c`: the young objects of a heap lie in a copying heap, the old ones in
a mark-sweep-compact one. A minor collection copies the young objects that the VM or a remembered
old object leads to, and makes those of age old; a major one marks the old objects too, and releases
what has not been marked. An old object that a young one is assigned to is remembered by the write
barrier (`updatePtr`), which the children keepers go through as well. That of `YogCode` does not for
the names of the local variables, nor does the compiler, so these names are no members here.

A pointer is a number that is given out once, so that a stale one leads nowhere. Where an object of
the young heap lies does not matter here, only whether a copy ends within the to-space. Whether an
old heap has room for one more object is asked (`room`), and so is how often an arena is added.
-/

namespace Yog

namespace Generational

abbrev Ptr := ℕ

/-- `YoungHeader` with the forwarding address of the copying heap, or `OldHeader` with the mark of
the mark-sweep-compact heap. -/
inductive Header where
  | young (age : ℕ) (forwardingAddr : Option Ptr)
  | old (remembered marked : Bool)
  deriving DecidableEq

namespace Header

def setRemembered (b : Bool) : Header → Header
  | .young age forwardingAddr => .young age forwardingAddr
  | .old _ marked => .old b marked

def setMarked (b : Bool) : Header → Header
  | .young age forwardingAddr => .young age forwardingAddr
  | .old remembered _ => .old remembered b

end Header

/-- An object, and what it refers to; a member is kept for a heap of its own, or for the one that
the children keeper is given. An object without members has no children keeper. `name` says which
allocation an object or a copy of it comes from. -/
structure Obj (H : Type) where
  name : ℕ
  size : ℕ
  members : List (Option Ptr × Option H)
  header : Header

/-- What the mutator can see, and the remembered sets. `used` is how much of the from-space of a
heap has been given out. -/
structure Store (H R : Type) where
  mem : Ptr → Option (Obj H)
  next : Ptr
  born : ℕ
  roots : R → Option Ptr
  used : H → ℕ
  rememberedSet : H → List Ptr

/-- The heaps, and what the VM refers to, with the heaps that it is kept for. -/
structure Config (H R : Type) where
  heaps : List H
  nodup : heaps.Nodup
  complete : ∀ h, h ∈ heaps
  vm : List (R × H)
  vmNodup : (vm.map Prod.fst).Nodup
  vmComplete : ∀ r, r ∈ vm.map Prod.fst
  maxAge : H → ℕ
  spaceSize : H → ℕ

variable {H R : Type}

namespace Obj

/-- `(obj)->member = (val)` -/
def setMember (o : Obj H) (i : ℕ) (v : Option Ptr) : Obj H :=
  { o with members := o.members.modify i fun m => (v, m.2) }

/-- `PAYLOAD2OLD_HEADER(ptr)->remembered = …` -/
def setRemembered (o : Obj H) (b : Bool) : Obj H := { o with header := o.header.setRemembered b }

def setMarked (o : Obj H) (b : Bool) : Obj H := { o with header := o.header.setMarked b }

end Obj

section Barrier

variable [DecidableEq H] [DecidableEq R]

namespace Store

def modify (s : Store H R) (p : Ptr) (f : Obj H → Obj H) : Store H R :=
  { s with mem := Function.update s.mem p ((s.mem p).map f) }

def header (s : Store H R) (p : Ptr) : Option Header := (s.mem p).map Obj.header

/-- `YogGC_IS_YOUNG` -/
def isYoung (s : Store H R) (p : Ptr) : Bool :=
  match s.header p with
  | some (.young _ _) => true
  | _ => false

/-- `YogGC_IS_REMEMBERED` -/
def isRemembered (s : Store H R) (p : Ptr) : Bool :=
  match s.header p with
  | some (.old remembered _) => remembered
  | _ => false

/-- `YogGenerational_add_to_remembered_set` -/
def addToRememberedSet (s : Store H R) (h : H) (p : Ptr) : Store H R :=
  { s with rememberedSet := Function.update s.rememberedSet h (s.rememberedSet h ++ [p]) }.modify p
    fun o => o.setRemembered true

/-- `YogGC_UPDATE_PTR`, by a thread with the heap `e`. -/
def updatePtr (s : Store H R) (e : H) (p : Ptr) (i : ℕ) (v : Option Ptr) : Store H R :=
  (if s.isYoung p then s
    else if s.isRemembered p then s
    else if v.all fun q => !s.isYoung q then s
    else s.addToRememberedSet e p).modify p fun o => o.setMember i v

end Store

end Barrier

/-- A reference of the VM, or of an object. -/
inductive Slot (R : Type) where
  | root (r : R)
  | member (p : Ptr) (i : ℕ)
  deriving DecidableEq

/-- The state of the collector. The young objects from `limit` on lie in the to-spaces. `cur` and
`prev` are the lists of marked objects, `passes` are the heaps that `iterate_heaps` has still to
go to, and `scanning` says whether the first of them is being scanned. -/
structure State (H R : Type) extends Store H R where
  limit : Ptr
  toSpace : H → List Ptr
  scanned : H → ℕ
  unscanned : H → ℕ
  cur : H → List Ptr
  prev : List Ptr
  pending : List (Slot R × H)
  passes : List H
  scanning : Bool
  overrun : Bool

variable [DecidableEq H] [DecidableEq R]

def Store.read (s : Store H R) : Slot R → Option Ptr
  | .root r => s.roots r
  | .member p i => (s.mem p).bind fun o => o.members[i]?.bind Prod.fst

/-- What a keeper has returned is assigned, by the barrier if it is a member. -/
def Store.write (s : Store H R) (e : H) (v : Option Ptr) : Slot R → Store H R
  | .root r => { s with roots := Function.update s.roots r v }
  | .member p i => s.updatePtr e p i v

/-- The references of an object that the children keeper goes through. -/
def membersOf (s : Store H R) (h : H) (p : Ptr) : List (Slot R × H) :=
  match s.mem p with
  | none => []
  | some o => o.members.zipIdx.map fun m => (.member p m.2, m.1.2.getD h)

/-- `YogHeap_add_to_marked_objects`, if there is a children keeper. -/
def addToMarkedObjects (s : State H R) (h : H) (p : Ptr) (o : Obj H) : State H R :=
  if o.members.isEmpty then s
  else { s with cur := Function.update s.cur h (s.cur h ++ [p]) }

/-- `YogMarkSweepCompact_mark` -/
def mark (s : State H R) (h : H) (p : Ptr) (o : Obj H) : State H R :=
  match o.header with
  | .old _ false => addToMarkedObjects { s with toStore := s.modify p fun o => o.setMarked true } h p o
  | _ => s

/-- A new object takes the place of one of a from-space, where it leaves its address behind. -/
def moveTo (s : Store H R) (p : Ptr) (o : Obj H) (age : ℕ) (new : Header) : Store H R :=
  { s with
    mem := Function.update
      (Function.update s.mem p (some { o with header := .young age (some s.next) }))
      s.next (some { o with header := new })
    next := s.next + 1 }

/-- `YogCopying_copy` to the to-space of a heap. -/
def copy (s : State H R) (h : H) (p : Ptr) (o : Obj H) (age : ℕ) : State H R :=
  { s with
    toStore := moveTo s.toStore p o age (.young age none)
    toSpace := Function.update s.toSpace h (s.toSpace h ++ [s.next])
    unscanned := Function.update s.unscanned h (s.unscanned h + o.size) }

/-- `tenure`, and `proc_for_tenured_minor` or `proc_for_tenured_major`. -/
def tenure (major : Bool) (s : State H R) (h : H) (p : Ptr) (o : Obj H) (age : ℕ) : State H R :=
  addToMarkedObjects { s with toStore := moveTo s.toStore p o age (.old false major) } h s.next o

/-- `minor_gc_keep_object` and `major_gc_keep_object`, with the pointer that is returned, or `none`
where a copy would go beyond the end of the to-space. -/
def keepObject (cfg : Config H R) (major : Bool) (room : State H R → H → ℕ → Bool) (s : State H R)
    (h : H) (p : Ptr) : Option (State H R × Ptr) :=
  match s.mem p with
  | none => some (s, p)
  | some o =>
    match o.header with
    | .old _ _ => some (if major then mark s h p o else s, p)
    | .young _ (some q) => some (s, q)
    | .young age none =>
      if age + 1 < cfg.maxAge h ∨ room s h o.size = false then
        if s.unscanned h + o.size ≤ cfg.spaceSize h then some (copy s h p o (age + 1), s.next)
        else none
      else some (tenure major s h p o (age + 1), s.next)

/-- `YogGenerational_is_finished` -/
def isFinished (s : State H R) (h : H) : Bool :=
  (s.toSpace h).length ≤ s.scanned h && (s.cur h).isEmpty

/-- The next reference, or else the next object, of `minor_traverse` or `major_traverse` of a
thread with the heap `e`. -/
def step (cfg : Config H R) (major : Bool) (e : H) (room : State H R → H → ℕ → Bool)
    (s : State H R) : Option (State H R) :=
  if s.overrun then none
  else match s.pending with
  | (slot, h) :: rest =>
    match s.read slot with
    | none => some { s with pending := rest }
    | some p =>
      match keepObject cfg major room s h p with
      | some (s', q) => some { s' with toStore := s'.write e (some q) slot, pending := rest }
      | none => some { s with pending := [], overrun := true }
  | [] =>
    match s.passes with
    | [] => if cfg.heaps.all (isFinished s) then none else some { s with passes := cfg.heaps }
    | h :: hs =>
      if s.scanning then
        match (s.toSpace h)[s.scanned h]? with
        | some p => some { s with
            scanned := Function.update s.scanned h (s.scanned h + 1)
            pending := membersOf s.toStore h p }
        | none =>
          if (s.cur h).isEmpty then some { s with passes := hs, scanning := false }
          else some { s with scanning := false }
      else
        match s.prev with
        | p :: ps => some { s with prev := ps, pending := membersOf s.toStore h p }
        | [] =>
          if (s.cur h).isEmpty then some { s with scanning := true }
          else some { s with prev := s.cur h, cur := Function.update s.cur h [] }

/-- The remembered objects are so no more. -/
def forget (s : Store H R) (ps : List Ptr) : Store H R :=
  { ps.foldl (fun s p => s.modify p fun o => o.setRemembered false) s with rememberedSet := fun _ => [] }

/-- The remembered objects that have a children keeper. -/
def remembered (s : Store H R) (h : H) : List Ptr :=
  (s.rememberedSet h).filter fun p => (s.mem p).any fun o => !o.members.isEmpty

/-- The remembered sets are emptied, and in a minor collection traced; then the references of the
VM are kept. -/
def start (cfg : Config H R) (major : Bool) (s : Store H R) : State H R where
  toStore := forget s (cfg.heaps.flatMap s.rememberedSet)
  limit := s.next
  toSpace _ := []
  scanned _ := 0
  unscanned _ := 0
  cur h := if major then [] else remembered s h
  prev := []
  pending := cfg.vm.map fun r => (.root r.1, r.2)
  passes := []
  scanning := false
  overrun := false

/-- `YogCopying_post_gc` and `YogMarkSweepCompact_delete_garbage` -/
def finish (major : Bool) (s : State H R) : Store H R :=
  { s.toStore with
    mem := fun p => (s.mem p).bind fun o =>
      match o.header with
      | .young _ _ => if p < s.limit then none else some o
      | .old _ marked =>
        if major then if marked then some (o.setMarked false) else none
        else some o
    used := s.unscanned }

/-- What the program does to the store: an allocation (`YogGenerational_alloc`, that raises no
error), a member that is read, a member that is written through the barrier, and a reference of the
VM that is overwritten. -/
inductive Mutation (H R : Type) where
  | alloc (r : R) (h : H) (size : ℕ) (kinds : List (Option H))
  | get (r src : R) (i : ℕ)
  | set (e : H) (r : R) (i : ℕ) (val : Option R)
  | assign (r : R) (val : Option R)

inductive Event (H R : Type) where
  | mutate (m : Mutation H R)
  | collect (major : Bool) (e : H) (room : State H R → H → ℕ → Bool)

def Store.empty : Store H R where
  mem _ := none
  next := 0
  born := 0
  roots _ := none
  used _ := 0
  rememberedSet _ := []

def Store.alloc (cfg : Config H R) (s : Store H R) (r : R) (h : H) (size : ℕ)
    (kinds : List (Option H)) : Store H R :=
  let young := s.used h + size ≤ cfg.spaceSize h
  { s with
    mem := Function.update s.mem s.next (some {
      name := s.born
      size := size
      members := kinds.map fun k => (none, k)
      header := if young then .young 0 none else .old false false })
    next := s.next + 1
    born := s.born + 1
    roots := Function.update s.roots r (some s.next)
    used := if young then Function.update s.used h (s.used h + size) else s.used }

def Store.exec (cfg : Config H R) (s : Store H R) : Mutation H R → Store H R
  | .alloc r h size kinds => s.alloc cfg r h size kinds
  | .get r src i =>
    { s with roots := Function.update s.roots r ((s.roots src).bind fun p => s.read (.member p i)) }
  | .set e r i val =>
    match s.roots r with
    | none => s
    | some p =>
      match s.mem p with
      | none => s
      | some o => if i < o.members.length then s.updatePtr e p i (val.bind s.roots) else s
  | .assign r val => { s with roots := Function.update s.roots r (val.bind s.roots) }

/-- A store that is never collected; an object is the number of its allocation. -/
structure Plain (R : Type) where
  born : ℕ
  members : ℕ → List (Option ℕ)
  roots : R → Option ℕ

def Plain.empty : Plain R where
  born := 0
  members _ := []
  roots _ := none

def Plain.exec (a : Plain R) : Mutation H R → Plain R
  | .alloc r _ _ kinds =>
    { born := a.born + 1
      members := Function.update a.members a.born (kinds.map fun _ => none)
      roots := Function.update a.roots r (some a.born) }
  | .get r src i =>
    { a with roots := Function.update a.roots r ((a.roots src).bind fun n => (a.members n)[i]?.join) }
  | .set _ r i val =>
    match a.roots r with
    | none => a
    | some n =>
      let members := (a.members n).modify i fun _ => val.bind a.roots
      { a with members := Function.update a.members n members }
  | .assign r val => { a with roots := Function.update a.roots r (val.bind a.roots) }

/-- What the history does to a store that is never collected. -/
def Plain.run (a : Plain R) : List (Event H R) → Plain R
  | [] => a
  | .mutate m :: es => (a.exec m).run es
  | .collect _ _ _ :: es => a.run es

/-- What the history does to a store, if all of its collections end within the to-spaces. -/
inductive Runs (cfg : Config H R) : Store H R → List (Event H R) → Store H R → Prop
  | nil {s} : Runs cfg s [] s
  | mutate {s m es t} (h : Runs cfg (s.exec cfg m) es t) : Runs cfg s (.mutate m :: es) t
  | collect {s major e room es t u} (hc : Comes (step cfg major e room) (start cfg major s) u)
      (he : step cfg major e room u = none) (ho : u.overrun = false)
      (h : Runs cfg (finish major u) es t) : Runs cfg s (.collect major e room :: es) t

end Generational

end Yog
