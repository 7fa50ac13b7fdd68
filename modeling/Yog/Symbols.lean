import Yog.Lib.Runs
import Yog.Table
import Yog.TextEncoding

/-!
# The symbol table

`YogVM_intern2` and `YogVM_id2name` with the tables in both directions, for any number of threads.
What is done under `sym_lock` is one step: the search under the read lock, and what follows under
the write lock.

A string is an object whose characters can change. The tables have a clone of the string that was
interned; it is this object that `YogVM_id2name` returns, and so `Symbol#to_s`.
-/

namespace Yog

namespace Symbols

abbrev Chars := List YogChar

abbrev Address := ℕ

abbrev ID := ℕ

/-- A string object: where it is, and what it says. -/
structure StringObj where
  address : Address
  chars : Chars

/-- `YogString_hash`, as the `uint_t` it is cast to. -/
def hashChars (chars : Chars) : ℕ :=
  let val := chars.foldl (fun val c => val * 997 + BitVec.ofNat 64 c.val) (0 : BitVec 64)
  (val + val.sshiftRight 5).toNat

/-- `type_string` -/
def typeString : HashType StringObj where
  compare a b := a.chars == b.chars
  hash a := hashChars a.chars

/-- `type_symbol` -/
def typeSymbol : HashType ID where
  compare a b := a == b
  hash a := a

inductive Fault
  | table (e : TableError)
  /-- `YOG_BUG`: can't find symbol -/
  | bug

/-- The VM and its threads. -/
structure State (Thread : Type) where
  /-- The string objects, by their addresses. -/
  strings : List Chars
  name2id : Table StringObj ID
  id2name : Table ID Address
  nextId : ID
  /-- Between the two locks, the string that a thread is interning. -/
  interning : Thread → Option Address
  /-- The requests that were answered: what the string said, and the ID. -/
  answers : List (Chars × ID)
  /-- The strings that the program has. -/
  known : List Address
  /-- Those it got back from symbols. -/
  returned : List Address

inductive Action (Thread : Type)
  /-- A string is made. -/
  | create (chars : Chars)
  /-- A string is changed. -/
  | write (string : Address) (chars : Chars)
  /-- `YogVM_intern2` under the read lock -/
  | find (thread : Thread) (string : Address)
  /-- `YogVM_intern2` under the write lock -/
  | add (thread : Thread)
  /-- `YogVM_id2name` -/
  | toS (id : ID)

variable {Thread : Type} [DecidableEq Thread]

namespace State

variable (s : State Thread)

/-- The object at an address. -/
def object (a : Address) : StringObj := ⟨a, s.strings.getD a []⟩

/-- A key that is changed in a table. -/
def rewrite (string : Address) (chars : Chars) (t : Table StringObj ID) : Table StringObj ID :=
  { t with bins := t.bins.map fun chain => chain.map fun e =>
      if e.key.address = string then { e with key := ⟨string, chars⟩ } else e }

/-- When a program can do this. -/
def Enabled : Action Thread → Prop
  | .create _ => True
  | .write string _ => string ∈ s.known
  | .find thread string => string ∈ s.known ∧ s.interning thread = none
  | .add thread => s.interning thread ≠ none
  | .toS id => ∃ chars, (chars, id) ∈ s.answers

/-- `FIND_SYM` has found the symbol. -/
def answer (thread : Thread) (name : StringObj) (id : ID) : State Thread :=
  { s with
    interning := Function.update s.interning thread none
    answers := (name.chars, id) :: s.answers }

/-- The new symbol, with a clone of the name. -/
def addSymbol (thread : Thread) (name : StringObj) : Except TableError (State Thread) := do
  let clone : StringObj := ⟨s.strings.length, name.chars⟩
  let name2id ← s.name2id.addDirect clone s.nextId
  let id2name ← s.id2name.addDirect s.nextId clone.address
  return { s.answer thread name s.nextId with
    strings := s.strings ++ [name.chars]
    name2id, id2name
    nextId := s.nextId + 1 }

def exec : Action Thread → Except Fault (State Thread)
  | .create chars => .ok { s with
      strings := s.strings ++ [chars]
      known := s.strings.length :: s.known }
  | .write string chars => .ok { s with
      strings := s.strings.set string chars
      name2id := rewrite string chars s.name2id }
  | .find thread string =>
    match s.name2id.lookup (s.object string) with
    | some id => .ok (s.answer thread (s.object string) id)
    | none => .ok { s with interning := Function.update s.interning thread (some string) }
  | .add thread =>
    match s.interning thread with
    | none => .ok s
    | some string =>
      match s.name2id.lookup (s.object string) with
      | some id => .ok (s.answer thread (s.object string) id)
      | none => (s.addSymbol thread (s.object string)).mapError .table
  | .toS id =>
    match s.id2name.lookup id with
    | none => .error .bug
    | some a => .ok { s with known := a :: s.known, returned := a :: s.returned }

end State

/-- A step of the program. -/
def Step (s : State Thread) (a : Action Thread) (s' : State Thread) : Prop :=
  s.Enabled a ∧ s.exec a = .ok s'

/-- The VM before the first request; the program has no strings yet. -/
def start : Except TableError (State Thread) := do
  let name2id ← Table.stInitTable typeString
  let id2name ← Table.stInitTable typeSymbol
  return {
    strings := []
    name2id, id2name
    nextId := 0
    interning := fun _ => none
    answers := []
    known := []
    returned := [] }

end Symbols

end Yog
