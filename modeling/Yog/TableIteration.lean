import Yog.Table

/-!
# Going over a table

The two ways of `table.c` over the entries of a table, and what `dict.c` does on the first. An
iterator keeps the entry it is at and the bin to go on in. `YogTable_foreach` asks a callback about
each entry and unlinks those it is to delete; for it the entries are nodes with a link each, since
the one whose link it sets need not be in the bin it is going over.
-/

namespace Yog

structure TableIterator (K V : Type) where
  tbl : Table K V
  binsIndex : Nat
  /-- The entry it is at and those behind it in its bin; none where it is at no entry. -/
  entry : List (TableEntry K V)

namespace TableIterator

variable {K V : Type}

/-- `YogTable_get_iterator` -/
def getIterator (t : Table K V) : TableIterator K V := { tbl := t, binsIndex := 0, entry := [] }

/-- The loop over empty bins, with the bins left. -/
def skipBins (tbl : Table K V) : Nat → Nat → Nat
  | 0, i => i
  | n + 1, i => if tbl.bin i = [] then skipBins tbl n (i + 1) else i

/-- `YogTableIterator_next` -/
def next (self : TableIterator K V) : Bool × TableIterator K V :=
  match self.entry with
  | _ :: e :: es => (true, { self with entry := e :: es })
  | _ =>
    let i := skipBins self.tbl (self.tbl.numBins - self.binsIndex) self.binsIndex
    if i < self.tbl.numBins then
      (true, { self with binsIndex := i + 1, entry := self.tbl.bin i })
    else (false, { self with binsIndex := i })

/-- `YogTableIterator_current_key` -/
def currentKey (self : TableIterator K V) : Option K := self.entry.head?.map (·.key)

/-- `YogTableIterator_current_value` -/
def currentValue (self : TableIterator K V) : Option V := self.entry.head?.map (·.record)

/-- `while (YogDictIterator_next(env, iter))` with what is done with a key and its value; it has not
ended where it is `none`. -/
def whileNext {σ ε : Type} (body : σ → K → V → Except ε σ) :
    Nat → TableIterator K V → σ → Option (Except ε σ)
  | 0, _, _ => none
  | fuel + 1, iter, s =>
    match iter.next with
    | (false, _) => some (.ok s)
    | (true, iter) =>
      match iter.currentKey, iter.currentValue with
      | some key, some value =>
        match body s key value with
        | .ok s => whileNext body fuel iter s
        | .error e => some (.error e)
      | _, _ => none

end TableIterator

namespace Dict

open TableIterator

variable {K V : Type}

/-- `YogDict_set` -/
def set (self : Table K V) (key : K) (value : V) : Except TableError (Table K V) :=
  (·.1) <$> self.insert key value

/-- `YogDict_add` -/
def addAll (fuel : Nat) (self dict : Table K V) : Option (Except TableError (Table K V)) :=
  whileNext set fuel (getIterator dict) self

/-- `each`, with a block that works on a state. -/
def each {σ ε : Type} (fuel : Nat) (self : Table K V) (block : σ → K → V → Except ε σ) (s : σ) :
    Option (Except ε σ) :=
  whileNext block fuel (getIterator self) s

/-- `add` -/
def add (fuel : Nat) (type : HashType K) (self right : Table K V) :
    Option (Except TableError (Table K V)) :=
  match Table.stInitTable type with
  | .error e => some (.error e)
  | .ok dict =>
    match addAll fuel dict self with
    | some (.ok dict) => addAll fuel dict right
    | r => r

/-- The loop of `make_dict`, on a stack with two operands for each pair: the value is above the key,
and the last pair on the top. -/
def makeDictLoop : Nat → Table V V → List V → Except TableError (Table V V × List V)
  | size + 1, dict, value :: key :: stack => do makeDictLoop size (← set dict key value) stack
  | _, dict, stack => .ok (dict, stack)

/-- `make_dict` -/
def makeDict (type : HashType V) (size : Nat) (stack : List V) :
    Except TableError (Table V V × List V) := do
  makeDictLoop size (← Table.stInitTable type) stack

end Dict

/-- `enum st_retval` -/
inductive StRetval where
  | stContinue
  | stStop
  | stDelete
  | stCheck
  deriving DecidableEq

/-- A table whose entries are nodes. -/
structure NodeTable (K V : Type) where
  entry : Nat → TableEntry K V
  next : Nat → Option Nat
  numBins : Nat
  numEntries : Nat
  /-- The tops of the bins. -/
  items : List (Option Nat)

namespace NodeTable

variable {K V σ : Type} (func : σ → K → V → StRetval × σ)

/-- `TABLE_ENTRY_TOP` -/
def entryTop (t : NodeTable K V) (i : Nat) : Option Nat := t.items.getD i none

/-- The loop of `ST_CHECK`: whether an entry is still in the chain. -/
def isIn (t : NodeTable K V) (ptr : Nat) : Nat → Option Nat → Option Bool
  | 0, _ => none
  | _ + 1, none => some false
  | fuel + 1, some tmp => if tmp = ptr then some true else isIn t ptr fuel (t.next tmp)

/-- `ST_DELETE`: the link before the entry is set to the one behind it. -/
def unlinkFrom (t : NodeTable K V) (i : Nat) (last : Option Nat) (ptr : Nat) : NodeTable K V :=
  match last with
  | none => { t with items := t.items.set i (t.next ptr), numEntries := t.numEntries - 1 }
  | some last =>
    { t with next := Function.update t.next last (t.next ptr), numEntries := t.numEntries - 1 }

/-- How the loop over a bin ends. -/
inductive BinEnd (K V σ : Type) where
  /-- The next bin is gone over. -/
  | goesOn (t : NodeTable K V) (last : Option Nat) (arg : σ)
  | returned (r : Bool) (t : NodeTable K V) (arg : σ)

/-- The loop of `YogTable_foreach` over a bin; it has not ended where it is `none`. -/
def foreachBin (i : Nat) :
    Nat → NodeTable K V → Option Nat → Option Nat → σ → Option (BinEnd K V σ)
  | 0, _, _, _, _ => none
  | _ + 1, t, last, none, arg => some (.goesOn t last arg)
  | fuel + 1, t, last, some ptr, arg =>
    match func arg (t.entry ptr).key (t.entry ptr).record with
    | (.stContinue, arg) => foreachBin i fuel t (some ptr) (t.next ptr) arg
    | (.stStop, arg) => some (.returned true t arg)
    | (.stDelete, arg) =>
      let t := t.unlinkFrom i last ptr
      foreachBin i fuel t last (t.next ptr) arg
    | (.stCheck, arg) =>
      match t.isIn ptr fuel (if i < t.numBins then t.entryTop i else none) with
      | none => none
      | some false => some (.returned false t arg)
      | some true => foreachBin i fuel t (some ptr) (t.next ptr) arg

/-- The loop over the bins, with the bins left. -/
def foreachLoop (fuel : Nat) :
    Nat → Nat → NodeTable K V → Option Nat → σ → Option (Bool × NodeTable K V × σ)
  | 0, _, t, _, arg => some (true, t, arg)
  | n + 1, i, t, last, arg =>
    match foreachBin func i fuel t last (t.entryTop i) arg with
    | none => none
    | some (.returned r t arg) => some (r, t, arg)
    | some (.goesOn t last arg) => foreachLoop fuel n (i + 1) t last arg

/-- `YogTable_foreach` -/
def foreach (fuel : Nat) (t : NodeTable K V) (arg : σ) : Option (Bool × NodeTable K V × σ) :=
  foreachLoop func fuel t.numBins 0 t none arg

end NodeTable

end Yog
