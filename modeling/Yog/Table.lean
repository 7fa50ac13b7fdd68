import Yog.Lib.Keyed

/-!
# Hash tables

The tables of `table.c`. A bin is the chain of its entries from the top. The two functions of a
`YogHashType` are run without effects on the table.

The table of primes ends in a zero, and `new_size` takes the zero for a size: the table that has the
largest prime of bins is given no bins at all when it grows, and its first entry is divided by zero.
-/

namespace Yog

structure HashType (K : Type) where
  compare : K → K → Bool
  /-- As the `uint_t` the result is cast to. -/
  hash : K → Nat

structure TableEntry (K V : Type) where
  hash : Nat
  key : K
  record : V

structure Table (K V : Type) where
  type : HashType K
  numBins : Nat
  numEntries : Nat
  bins : List (List (TableEntry K V))

inductive TableError where
  /-- `hash % num_bins` without bins. -/
  | divisionByZero
  /-- `YogGC_check_multiply_overflow` of a negative size. -/
  | multiplyOverflow
  deriving DecidableEq

namespace Table

variable {K V : Type}

def minsize : Nat := 8

/-- Primes past the powers of two, and the zero behind them. -/
def primes : List Nat :=
  [8 + 3, 16 + 3, 32 + 5, 64 + 3, 128 + 3, 256 + 27, 512 + 9, 1024 + 9, 2048 + 5, 4096 + 3,
    8192 + 27, 16384 + 43, 32768 + 3, 65536 + 45, 131072 + 29, 262144 + 3, 524288 + 21,
    1048576 + 7, 2097152 + 17, 4194304 + 15, 8388608 + 9, 16777216 + 43, 33554432 + 35,
    67108864 + 15, 134217728 + 29, 268435456 + 3, 536870912 + 11, 1073741824 + 85, 0]

def newSizeLoop (size : Nat) : Nat → List Nat → Int
  | _, [] => -1
  | newsize, p :: ps => if newsize > size then p else newSizeLoop size (newsize <<< 1) ps

def newSize (size : Nat) : Int := newSizeLoop size minsize primes

def allocBins (size : Int) : Except TableError (List (List (TableEntry K V))) :=
  if size < 0 then .error .multiplyOverflow else .ok (List.replicate size.toNat [])

def stInitTableWithSize (type : HashType K) (size : Nat) : Except TableError (Table K V) := do
  let size := newSize size
  let bins ← allocBins size
  return { type, numBins := size.toNat, numEntries := 0, bins }

def stInitTable (type : HashType K) : Except TableError (Table K V) :=
  stInitTableWithSize type 0

/-- The step of `rehash` for an entry: it becomes the top of its new bin. -/
def rehashEntry (size : Nat) (bins : List (List (TableEntry K V))) (e : TableEntry K V) :
    Except TableError (List (List (TableEntry K V))) :=
  if size = 0 then .error .divisionByZero else .ok (bins.modify (e.hash % size) (e :: ·))

variable (t : Table K V)

def rehash : Except TableError (Table K V) := do
  let size := newSize (t.numBins + 1)
  let newBins ← allocBins size
  let bins ← t.bins.foldlM (fun bins chain => chain.foldlM (rehashEntry size.toNat) bins) newBins
  return { t with numBins := size.toNat, bins }

/-- `do_hash_bin` -/
def doHashBin (key : K) : Nat := t.type.hash key % t.numBins

def bin (pos : Nat) : List (TableEntry K V) := t.bins.getD pos []

/-- `ptr_not_equal` is false of the entry. -/
def ptrEqual (hash : Nat) (key : K) (e : TableEntry K V) : Bool :=
  e.hash = hash && t.type.compare key e.key

def findEntry (hash : Nat) (key : K) : Option (TableEntry K V) :=
  (t.bin (hash % t.numBins)).find? (t.ptrEqual hash key)

def lookup (key : K) : Option V := (t.findEntry (t.type.hash key) key).map (·.record)

def addDirectAt (key : K) (value : V) (hash pos : Nat) : Except TableError (Table K V) := do
  let (t, pos) ← if 5 < t.numEntries / t.numBins then do
      let t ← t.rehash
      pure (t, hash % t.numBins)
    else pure (t, pos)
  return { t with
    bins := t.bins.modify pos ({ hash, key, record := value } :: ·)
    numEntries := t.numEntries + 1 }

/-- The record of the entry `find_entry` finds is set. -/
def setRecord (hash : Nat) (key : K) (value : V) : List (TableEntry K V) → List (TableEntry K V)
  | [] => []
  | e :: es =>
    if t.ptrEqual hash key e then { e with record := value } :: es
    else e :: setRecord hash key value es

/-- `YogTable_insert`, with whether the key was there. -/
def insert (key : K) (value : V) : Except TableError (Table K V × Bool) := do
  let hash := t.type.hash key
  let pos := hash % t.numBins
  match t.findEntry hash key with
  | none => return (← t.addDirectAt key value hash pos, false)
  | some _ => return ({ t with bins := t.bins.modify pos (t.setRecord hash key value) }, true)

def addDirect (key : K) (value : V) : Except TableError (Table K V) :=
  t.addDirectAt key value (t.type.hash key) (t.doHashBin key)

/-- What `YogTable_delete` returns, and what it stores through its pointers: it may leave `*value`
as it was. -/
structure Deleted (K V : Type) where
  found : Bool
  key : K
  value : Option V

/-- The loop of `YogTable_delete` over the entries behind the top. -/
def deleteNext (key : K) : List (TableEntry K V) → Option (TableEntry K V × List (TableEntry K V))
  | [] => none
  | e :: es =>
    if t.type.compare e.key key then some (e, es)
    else (deleteNext key es).map fun (d, es) => (d, e :: es)

def unlink (pos : Nat) (e : TableEntry K V) (chain : List (TableEntry K V)) :
    Table K V × Deleted K V :=
  ({ t with bins := t.bins.modify pos fun _ => chain, numEntries := t.numEntries - 1 },
    { found := true, key := e.key, value := some e.record })

/-- `YogTable_delete`; `nil` is what is stored for a key whose bin is empty. -/
def delete (nil : V) (key : K) : Table K V × Deleted K V :=
  let pos := t.doHashBin key
  match t.bin pos with
  | [] => (t, { found := false, key, value := some nil })
  | e :: es =>
    if t.type.compare key e.key then t.unlink pos e es
    else match t.deleteNext key es with
      | none => (t, { found := false, key, value := none })
      | some (d, es) => t.unlink pos d (e :: es)

/-- The operations on a table. -/
inductive Op (K V : Type) where
  | insert (key : K) (value : V)
  | addDirect (key : K) (value : V)
  | lookup (key : K)
  | delete (key : K)

def exec (nil : V) (t : Table K V) : Op K V → Except TableError (Table K V)
  | .insert key value => (·.1) <$> t.insert key value
  | .addDirect key value => t.addDirect key value
  | .lookup _ => .ok t
  | .delete key => .ok (t.delete nil key).1

/-- A table that was created and went through the operations. -/
def run (nil : V) (type : HashType K) (ops : List (Op K V)) : Except TableError (Table K V) := do
  ops.foldlM (exec nil) (← stInitTable type)

end Table

end Yog
