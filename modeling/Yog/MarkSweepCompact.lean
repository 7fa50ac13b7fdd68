import Mathlib.Data.List.Range
import Mathlib.Data.Nat.Log
import Mathlib.Logic.Function.Basic
import Yog.Lib.Tiling

/-!
# The heap of the mark-sweep-compact collector

`gc/mark-sweep-compact.c`, where a pointer has eight bytes: arenas that chunks are carved from, the
bins of the free chunks, and the chunks of their own mapping. The headers and footers of the chunks
are tags by address, and a bin is the list of the addresses that its links go through. Sizes are
computed modulo `2 ^ 64`.

Where `mmap` finds room is up to the system: it is asked for an address and answers it if nothing is
mapped there. `munmap` of something that is not a mapping is an error; the address of a chunk in an
arena is not the one of a page.
-/

namespace Yog.MarkSweepCompact

open Tiling

/-- `add_chunk` and `find_list_of_size` name the lists by their arrays. -/
inductive Bin where
  | small (index : ℕ)
  | large (index : ℕ)
  deriving DecidableEq, Repr

/-- A `Header`, by its address. -/
structure Obj where
  header : ℕ
  marked : Bool
  deriving DecidableEq, Repr

/-- What the heap and the system have done for its client: a header it gave out for a request of so
many bytes, one it took back, and an `munmap` that failed. -/
inductive Event where
  | given (header size : ℕ)
  | released (header : ℕ)
  | einval (addr size : ℕ)
  deriving DecidableEq, Repr

/-- `MarkSweepCompact`, with the memory its pointers lead to and the mappings of the process. -/
structure Heap where
  arenas : List ℕ
  arenaSize : ℕ
  bins : Bin → List ℕ
  header : List Obj
  tags : Tags
  maps : List (ℕ × ℕ)
  log : List Event

def sizeofArena : ℕ := 8
def sizeofChunkHeader : ℕ := 24
def sizeofFreeHeader : ℕ := 40
def sizeofFreeFooter : ℕ := 8
def alignment : ℕ := 8
def maxSmallSize : ℕ := 512
def minSmallSize : ℕ := sizeofFreeHeader + sizeofFreeFooter
def largeNum : ℕ := 32
def largeShift : ℕ := 8

/-- `UINT_MAX` of an `unsigned int`; a `uint_t` is longer. -/
def uintMax : ℕ := 2 ^ 32 - 1

def size2index (size : ℕ) : ℕ := if size < minSmallSize then 0 else (size - minSmallSize) / alignment

def smallNum : ℕ := size2index maxSmallSize + 1

/-- `compute_large_index` -/
def computeLargeIndex (size : ℕ) : ℕ :=
  let x := size >>> largeShift
  if x = 0 then 0
  else if 2 ^ (largeNum / 2) ≤ x then largeNum - 1
  else
    let k := Nat.log2 x
    2 * k + (size >>> (k + largeShift - 1)) % 2

/-- `find_list_of_size` -/
def findListOfSize (size : ℕ) : Bin :=
  if maxSmallSize < size then .large (computeLargeIndex size) else .small (size2index size)

/-- A subtraction of words. -/
def wordSub (a b : ℕ) : ℕ := (((a : ℤ) - b) % 2 ^ 64).toNat

/-- `compute_upper_limit_of_arena` -/
def computeUpperLimitOfArena (arenaSize : ℕ) : ℕ :=
  wordSub (wordSub arenaSize sizeofArena) sizeofChunkHeader

/-- `ARENA_CHUNKS` -/
def arenaChunks (arena : ℕ) : ℕ := arena + sizeofArena

namespace Heap

variable (h : Heap)

/-- The loop of `find_large_chunk` over a list: the best chunk so far and its size. -/
def bestChunk (size : ℕ) : List ℕ → Option ℕ → ℕ → Option ℕ
  | [], best, _ => best
  | chunk :: rest, best, bestSize =>
    let chunkSize := h.tags.size chunk
    if size = chunkSize then some chunk
    else if size < chunkSize ∧ chunkSize < bestSize then bestChunk size rest (some chunk) chunkSize
    else bestChunk size rest best bestSize

/-- `find_large_chunk` -/
def findLargeChunk (size : ℕ) : Option (ℕ × Bin) :=
  let index := computeLargeIndex size
  (List.range' index (largeNum - index)).findSome? fun i =>
    (h.bestChunk size (h.bins (.large i)) none uintMax).map (·, .large i)

/-- `find_small_chunk` -/
def findSmallChunk (size : ℕ) : Option (ℕ × Bin) :=
  let index := size2index size
  ((List.range' index (smallNum - index)).findSome? fun i =>
    (h.bins (.small i)).head?.map (·, .small i)).or (h.findLargeChunk size)

/-- `find_best_chunk` -/
def findBestChunk (size : ℕ) : Option (ℕ × Bin) :=
  if maxSmallSize < size then h.findLargeChunk size else h.findSmallChunk size

/-- `ADD_TO_LIST` -/
def addToList (bin : Bin) (chunk : ℕ) : Heap :=
  { h with bins := Function.update h.bins bin (chunk :: h.bins bin) }

/-- `DELETE_FROM_LIST` -/
def deleteFromList (bin : Bin) (chunk : ℕ) : Heap :=
  { h with bins := Function.update h.bins bin ((h.bins bin).erase chunk) }

/-- `ChunkHeader_init` -/
def chunkHeaderInit (chunk size : ℕ) (prevUsed used : Bool) : Heap :=
  { h with tags := { h.tags with
      prevUsed := Function.update h.tags.prevUsed chunk prevUsed
      size := Function.update h.tags.size chunk size
      used := Function.update h.tags.used chunk used } }

/-- `CHUNK_SIZE(chunk) = size` -/
def setSize (chunk size : ℕ) : Heap :=
  { h with tags := { h.tags with size := Function.update h.tags.size chunk size } }

/-- `CHUNK_USED(chunk) = used` -/
def setUsed (chunk : ℕ) (used : Bool) : Heap :=
  { h with tags := { h.tags with used := Function.update h.tags.used chunk used } }

/-- `CHUNK_PREV_USED(chunk) = prevUsed` -/
def setPrevUsed (chunk : ℕ) (prevUsed : Bool) : Heap :=
  { h with tags := { h.tags with prevUsed := Function.update h.tags.prevUsed chunk prevUsed } }

/-- `chunk2footer(chunk)->size = size` -/
def setFooter (chunk size : ℕ) : Heap :=
  { h with tags := { h.tags with
      footer := Function.update h.tags.footer (chunk + h.tags.size chunk) size } }

/-- `init_free_chunk` -/
def initFreeChunk (chunk size : ℕ) : Heap :=
  (h.chunkHeaderInit chunk size true false).setFooter chunk size

/-- `add_chunk` -/
def addChunk (chunk : ℕ) : Heap := h.addToList (findListOfSize (h.tags.size chunk)) chunk

/-- `split_chunk` -/
def splitChunk (chunk size : ℕ) : Heap × Option ℕ :=
  let restSize := wordSub (h.tags.size chunk) size
  if restSize < minSmallSize then (h, none)
  else ((h.setSize chunk size).initFreeChunk (chunk + size) restSize, some (chunk + size))

/-- `handle_free_chunk`. The pointer it returns is the one behind the header of the chunk. -/
def handleFreeChunk (size chunk : ℕ) (bin : Bin) : Heap :=
  match (h.deleteFromList bin chunk).splitChunk chunk size with
  | (h, some rest) => (h.addChunk rest).setUsed chunk true
  | (h, none) => (h.setPrevUsed (chunk + h.tags.size chunk) true).setUsed chunk true

/-- `mmap_anonymous`, asked for an address, that is not null; without one it raises. -/
def mmap (addr : Option ℕ) (size : ℕ) : Option (Heap × ℕ) :=
  addr.bind fun addr =>
    if 0 < addr ∧ 0 < size ∧ ∀ r ∈ h.maps, addr + size ≤ r.1 ∨ r.1 + r.2 ≤ addr then
      some ({ h with maps := (addr, size) :: h.maps }, addr)
    else none

/-- `do_mummap`, and whether it has not raised. -/
def munmap (addr size : ℕ) : Heap × Bool :=
  if (addr, size) ∈ h.maps then ({ h with maps := h.maps.erase (addr, size) }, true)
  else ({ h with log := .einval addr size :: h.log }, false)

/-- What `alloc_arena` writes to its mapping. -/
def initArena (arena : ℕ) : Heap :=
  let chunk := arenaChunks arena
  let usableSize := computeUpperLimitOfArena h.arenaSize
  ((h.chunkHeaderInit chunk usableSize true false).setFooter chunk usableSize).chunkHeaderInit
    (chunk + usableSize) 0 false true

/-- `add_arena`. It raises if there is no mapping to be had. -/
def addArena (addr : Option ℕ) : Heap :=
  match h.mmap addr h.arenaSize with
  | some (h, arena) =>
    { (h.initArena arena).addChunk (arenaChunks arena) with arenas := arena :: h.arenas }
  | none => h

/-- `merge_with_prev_chunk` -/
def mergeWithPrevChunk (chunk : ℕ) : Heap × ℕ :=
  let prevSize := h.tags.footer chunk
  let prevChunk := chunk - prevSize
  let size := prevSize + h.tags.size chunk
  ((((h.deleteFromList (findListOfSize prevSize) prevChunk).setSize prevChunk size).setFooter
    prevChunk size), prevChunk)

/-- `merge_with_next_chunk` -/
def mergeWithNextChunk (chunk : ℕ) : Heap :=
  let nextChunk := chunk + h.tags.size chunk
  let nextSize := h.tags.size nextChunk
  let size := h.tags.size chunk + nextSize
  (((h.deleteFromList (findListOfSize nextSize) nextChunk).setSize chunk size).setFooter chunk size)

/-- The first half of `delete` on a chunk of an arena: the free chunk it has become part of. -/
def freeChunk (chunk : ℕ) : Heap × ℕ :=
  if h.tags.prevUsed chunk then
    ((h.setUsed chunk false).setFooter chunk (h.tags.size chunk), chunk)
  else h.mergeWithPrevChunk chunk

/-- The second half of `delete`. -/
def mergeNext (chunk : ℕ) : Heap :=
  let nextChunk := chunk + h.tags.size chunk
  if h.tags.used nextChunk then h.setPrevUsed nextChunk false else h.mergeWithNextChunk chunk

/-- `delete`, and whether it has not raised. -/
def deleteChunk (chunk : ℕ) : Heap × Bool :=
  if computeUpperLimitOfArena h.arenaSize ≤ h.tags.size chunk then
    h.munmap chunk (h.tags.size chunk)
  else
    let (h, merged) := h.freeChunk chunk
    ((h.mergeNext merged).addChunk merged, true)

/-- The rest of `YogMarkSweepCompact_delete_garbage` over the objects that are still to come, and
whether it has not raised. -/
def sweep : List Obj → Heap → Heap × Bool
  | [], h => (h, true)
  | obj :: objs, h =>
    if obj.marked then
      sweep objs { h with header := h.header.map fun o =>
        if o.header = obj.header then { o with marked := false } else o }
    else
      let h := { h with
        header := h.header.filter (·.header ≠ obj.header)
        log := .released obj.header :: h.log }
      match h.deleteChunk (obj.header - sizeofChunkHeader) with
      | (h, true) => sweep objs h
      | (h, false) => (h, false)

/-- `YogMarkSweepCompact_delete_garbage` -/
def deleteGarbage : Heap × Bool := sweep h.header h

/-- `munmap` of the arenas in `YogMarkSweepCompact_delete`. -/
def deleteArenas : List ℕ → Heap → Heap × Bool
  | [], h => (h, true)
  | arena :: arenas, h =>
    match h.munmap arena h.arenaSize with
    | (h, true) => deleteArenas arenas { h with arenas := arenas }
    | (h, false) => (h, false)

/-- `YogMarkSweepCompact_delete` -/
def delete : Heap × Bool :=
  match h.deleteGarbage with
  | (h, true) => deleteArenas h.arenas h
  | (h, false) => (h, false)

/-- The macros that choose one of the two collectors that use this heap. -/
inductive Build where
  | markSweepCompact
  | generational
  deriving DecidableEq, Repr

/-- The size of a `Header`; a generational one has an `OldHeader` at its end. -/
def Build.sizeofHeader : Build → ℕ
  | .markSweepCompact => 40
  | .generational => 56

/-- What happens around one allocation: where `mmap` finds room, and the objects that a collection
marks, the first one only where `gc_stress` is set. -/
structure World where
  addr : Option ℕ
  stress : Option (ℕ → Bool)
  live : ℕ → Bool

/-- Mark the objects that are live. -/
def mark (live : ℕ → Bool) : Heap :=
  { h with header := h.header.map fun o => { o with marked := o.marked || live o.header } }

/-- `YogGC_perform`, as far as it reaches this heap, and whether it has not raised. -/
def perform (live : ℕ → Bool) : Heap × Bool := (h.mark live).deleteGarbage

/-- `FIND_BEST_CHUNK`s, each of them after some preparation: the pointer behind the header of the
chunk. -/
def tryAfter (size : ℕ) : List (Heap → Heap × Bool) → Heap → Heap × Option ℕ
  | [], h => (h, none)
  | prepare :: rest, h =>
    match prepare h with
    | (h, false) => (h, none)
    | (h, true) =>
      match h.findBestChunk size with
      | some (chunk, bin) => (h.handleFreeChunk size chunk bin, some (chunk + sizeofChunkHeader))
      | none => tryAfter size rest h

/-- What `alloc` does before it looks for a chunk. `YogGC_compact` does nothing. -/
def preparations (w : World) : Build → List (Heap → Heap × Bool)
  | .markSweepCompact =>
    [fun h => (w.stress.map h.perform).getD (h, true), fun h => h.perform w.live, fun h => (h, true),
      fun h => (h.addArena w.addr, true)]
  | .generational => [fun h => (h, true), fun h => (h.addArena w.addr, true)]

/-- `alloc_huge` -/
def allocHuge (w : World) (size : ℕ) : Heap × Option ℕ :=
  match h.mmap w.addr size with
  | some (h, chunk) => (h.chunkHeaderInit chunk size false true, some (chunk + sizeofChunkHeader))
  | none => (h, none)

/-- `size_including_header` of a request for so many bytes. -/
def sizeIncludingHeader (build : Build) (size : ℕ) : ℕ :=
  let roundedSize := (size + alignment - 1) % 2 ^ 64 / alignment * alignment
  ((roundedSize + build.sizeofHeader) % 2 ^ 64 + sizeofChunkHeader) % 2 ^ 64

/-- `alloc` -/
def allocSize (build : Build) (w : World) (size : ℕ) : Heap × Option ℕ :=
  if computeUpperLimitOfArena h.arenaSize ≤ size then h.allocHuge w size
  else tryAfter size (preparations w build) h

/-- `YogMarkSweepCompact_alloc`: the header of the new object. -/
def alloc (build : Build) (w : World) (size : ℕ) : Heap × Option ℕ :=
  match h.allocSize build w (sizeIncludingHeader build size) with
  | (h, some header) =>
    ({ h with header := ⟨header, false⟩ :: h.header, log := .given header size :: h.log },
      some header)
  | (h, none) => (h, none)

/-- The client writes what it likes to the memory of an object, behind the header of its chunk. -/
def write (header : ℕ) (t : Tags) : Heap :=
  let stop := header - sizeofChunkHeader + h.tags.size (header - sizeofChunkHeader)
  if header ∈ h.header.map Obj.header then
    { h with tags :=
      { size := fun a => if header ≤ a ∧ a < stop then t.size a else h.tags.size a
        used := fun a => if header ≤ a ∧ a < stop then t.used a else h.tags.used a
        prevUsed := fun a => if header ≤ a ∧ a < stop then t.prevUsed a else h.tags.prevUsed a
        footer := fun a =>
          if header < a ∧ a ≤ stop then t.footer a else h.tags.footer a } }
  else h

end Heap

/-- `YogMarkSweepCompact_new`; it raises if there is no mapping to be had. -/
def new (size : ℕ) (addr : Option ℕ) : Option Heap :=
  let h : Heap := ⟨[], size, fun _ => [], [], ⟨fun _ => 0, fun _ => false, fun _ => false, fun _ => 0⟩,
    [], []⟩
  (h.mmap addr size).map fun (h, arena) =>
    { (h.initArena arena).addChunk (arenaChunks arena) with arenas := [arena] }

/-- What a client does to its heap, and what `alloc` does in between. -/
inductive Op where
  | alloc (size : ℕ) (w : Heap.World)
  | mark (live : ℕ → Bool)
  | deleteGarbage
  | addArena (addr : Option ℕ)
  | write (header : ℕ) (t : Tags)

def Heap.exec (build : Heap.Build) (h : Heap) : Op → Heap
  | .alloc size w => (h.alloc build w size).1
  | .mark live => h.mark live
  | .deleteGarbage => h.deleteGarbage.1
  | .addArena addr => h.addArena addr
  | .write header t => h.write header t

end Yog.MarkSweepCompact
