import Yog.TextEncoding
import Mathlib.Logic.Function.Basic
import Mathlib.Data.List.Nodup

/-!
# The arguments of C functions

`get_args.c`: a C function lists its parameters in a table and has its arguments put into
variables. A name is the text of a C string, which `strcmp` compares up to its terminator; the
dictionary of the keyword arguments has symbols for keys.
-/

namespace Yog

namespace GetArgs

abbrev Name := List YogChar

abbrev SymbolID := ℕ

/-- The names of the symbols, in the order of the IDs. -/
structure Symbols where
  names : List Name
  nodup : names.Nodup

/-- `ID2VAL`; with 64 bits there are never so many symbols that it overflows. -/
def id2val (id : SymbolID) : ℕ := (id <<< 4) ||| 0x0e

namespace Symbols

/-- `YogVM_id2name`; without the symbol, it is a bug. -/
def id2name (symbols : Symbols) (id : SymbolID) : Option Name := symbols.names[id]?

/-- The table behind `YogVM_intern`. -/
def intern (symbols : Symbols) (name : Name) : Symbols :=
  if h : name ∈ symbols.names then symbols
  else ⟨symbols.names ++ [name], List.nodup_append.2
    ⟨symbols.nodup, List.nodup_singleton name, fun _ ha _ hb heq =>
      h (List.mem_singleton.1 hb ▸ heq ▸ ha)⟩⟩

/-- The ID `YogVM_intern` returns. -/
def idOf (symbols : Symbols) (name : Name) : SymbolID := symbols.names.idxOf name

end Symbols

/-- What a variable holds. -/
inductive Stored (V : Type)
  | value (v : V)
  | array (vs : List V)
  | dict (entries : List (SymbolID × V))

/-- `YogCArg`; the entry whose name is `NULL` is the end of the list. -/
structure CArg (L : Type) where
  name : Name
  dest : Option L

inductive Error
  /-- Argument given by name and position -/
  | givenTwice (name : Name) (pos : ℕ)
  /-- Required argument not found -/
  | notFound (name : Name)
  /-- Takes at most so many arguments -/
  | tooMany (most given : ℕ)
  /-- Invalid keyword argument for this function -/
  | invalidKeyword (key : SymbolID)
  /-- `YOG_BUG` of `YogVM_id2name` -/
  | bug
  /-- A `NULL` pointer is read. -/
  | crash

/-- What `YogError_raise_TypeError` raises. -/
def Error.isTypeError : Error → Prop
  | .bug => False
  | .crash => False
  | _ => True

def bar : Name := [toYogChar 0x7c]

def star : Name := [toYogChar 0x2a]

def star2 : Name := [toYogChar 0x2a, toYogChar 0x2a]

@[simp] theorem bar_ne_star : bar ≠ star := by
  decide

@[simp] theorem bar_ne_star2 : bar ≠ star2 := by
  decide

variable {L V : Type} [DecidableEq L]

/-- `FINISHED` -/
def finished : List (CArg L) → Prop
  | [] => True
  | param :: _ => param.name = star ∨ param.name = star2

instance : (params : List (CArg L)) → Decidable (finished params)
  | [] => inferInstanceAs (Decidable True)
  | _ :: _ => inferInstanceAs (Decidable (_ ∨ _))

structure State (L V : Type) where
  symbols : Symbols
  vars : L → Stored V

section Parsing

-- `YogString_to_bin_in_default_encoding`; which encoding that is depends on `LANG`.
variable (toBin : Name → List Byte)

/-- `strcmp(BINARY_CSTR(bin), name) == 0` -/
def sameName (name param : Name) : Prop :=
  (toBin name).takeWhile (fun b => b.val ≠ 0) = param.map fun c => toByte c.val

instance (name param : Name) : Decidable (sameName toBin name param) :=
  inferInstanceAs (Decidable (_ = _))

/-- `find_param` -/
def findParam (name : Name) : List (CArg L) → Bool
  | [] => false
  | param :: rest =>
    if param.name = star ∨ param.name = star2 then false
    else if param.name = bar then
      match rest with
      | [] => false
      | param :: rest => sameName toBin name param.name || findParam name rest
    else sameName toBin name param.name || findParam name rest

/-- `copy_dict`: what it puts into the dictionary. The key goes to `YogVM_id2name` as it is. -/
def copyDict (symbols : Symbols) (params : List (CArg L)) :
    List (SymbolID × V) → Except Error (List (SymbolID × V))
  | [] => .ok []
  | entry :: src => do
    match symbols.id2name (id2val entry.1) with
    | none => .error .bug
    | some name =>
      let dest ← copyDict symbols params src
      if findParam toBin name params then .ok dest else .ok (entry :: dest)

/-- `find_invalid_keyword` -/
def findInvalidKeyword (symbols : Symbols) (params : List (CArg L)) :
    List (SymbolID × V) → Except Error (Option SymbolID)
  | [] => .ok none
  | entry :: kw =>
    match symbols.id2name entry.1 with
    | none => .error .bug
    | some name =>
      if findParam toBin name params then findInvalidKeyword symbols params kw
      else .ok (some entry.1)

variable (args : List V) (kw : List (SymbolID × V))

/-- `YogDict_get` -/
def dictGet (id : SymbolID) : Option V := (kw.find? fun entry => entry.1 = id).map Prod.snd

/-- `*param->dest = val` -/
def assign (param : CArg L) (val : Stored V) (s : State L V) : Except Error (State L V) :=
  match param.dest with
  | none => .error .crash
  | some dest => .ok { s with vars := Function.update s.vars dest val }

/-- `set_positional_arg` -/
def setPositionalArg (param : CArg L) (pos : ℕ) (s : State L V) : Except Error (State L V) :=
  let symbols := s.symbols.intern param.name
  if (dictGet kw (symbols.idOf param.name)).isSome then .error (.givenTwice param.name (pos + 1))
  else
    match args[pos]? with
    | none => .error .crash
    | some v => assign param (.value v) { s with symbols := symbols }

/-- `set_keyword_arg` -/
def setKeywordArg (param : CArg L) (optional : Bool) (s : State L V) :
    Except Error (State L V) :=
  let symbols := s.symbols.intern param.name
  match dictGet kw (symbols.idOf param.name) with
  | some v => assign param (.value v) { s with symbols := symbols }
  | none =>
    if optional then .ok { s with symbols := symbols } else .error (.notFound param.name)

/-- Where a loop of `YogGetArgs_parse_args` stops. -/
structure Cursor (L V : Type) where
  param : List (CArg L)
  optional : Bool
  /-- `args_index`, then `kw_num` -/
  count : ℕ
  state : State L V

/-- The loop over the positional arguments. -/
def positionalLoop : List (CArg L) → Bool → ℕ → State L V → Except Error (Cursor L V)
  | [], optional, i, s => .ok ⟨[], optional, i, s⟩
  | param :: rest, optional, i, s =>
    if finished (param :: rest) ∨ args.length ≤ i then .ok ⟨param :: rest, optional, i, s⟩
    else if param.name = bar then
      match rest with
      | [] => .error .crash
      | param :: rest => do
        let s ← setPositionalArg args kw param i s
        positionalLoop rest true (i + 1) s
    else do
      let s ← setPositionalArg args kw param i s
      positionalLoop rest optional (i + 1) s

/-- The loop over the parameters that are left. -/
def keywordLoop : List (CArg L) → Bool → ℕ → State L V → Except Error (Cursor L V)
  | [], optional, n, s => .ok ⟨[], optional, n, s⟩
  | param :: rest, optional, n, s =>
    if finished (param :: rest) then .ok ⟨param :: rest, optional, n, s⟩
    else if param.name = bar then
      match rest with
      | [] => .error .crash
      | param :: rest => do
        let s ← setKeywordArg kw param true s
        keywordLoop rest true (n + 1) s
    else do
      let s ← setKeywordArg kw param optional s
      keywordLoop rest optional (n + 1) s

/-- The checks at the end, without a `**`. -/
def checkKeywords (params : List (CArg L)) (most : ℕ) (s : State L V) :
    Except Error (State L V) := do
  if most < args.length + kw.length then .error (.tooMany most (args.length + kw.length))
  else
    match ← findInvalidKeyword toBin s.symbols params kw with
    | some key => .error (.invalidKeyword key)
    | none => .ok s

/-- What follows the `*`. -/
def collectKeywords (params rest : List (CArg L)) (most : ℕ) (s : State L V) :
    Except Error (State L V) :=
  match rest with
  | [] => checkKeywords toBin args kw params most s
  | param :: _ =>
    if param.name = star2 then do
      let dest ← copyDict toBin s.symbols params kw
      assign param (.dict dest) s
    else checkKeywords toBin args kw params most s

/-- What follows the two loops. -/
def collect (params rest : List (CArg L)) (argsIndex kwNum : ℕ) (s : State L V) :
    Except Error (State L V) := do
  match rest with
  | param :: rest' =>
    if param.name = star then
      let s ← assign param (.array (args.drop argsIndex)) s
      if rest'.isEmpty then .ok s
      else collectKeywords toBin args kw params rest' (argsIndex + kwNum) s
    else if argsIndex < args.length then .error (.tooMany argsIndex args.length)
    else collectKeywords toBin args kw params rest (argsIndex + kwNum) s
  | [] =>
    if argsIndex < args.length then .error (.tooMany argsIndex args.length)
    else collectKeywords toBin args kw params [] (argsIndex + kwNum) s

/-- `YogGetArgs_parse_args`; no arguments are an empty array, no keyword arguments an empty
dictionary. -/
def parseArgs (params : List (CArg L)) (s : State L V) : Except Error (State L V) := do
  let c ← positionalLoop args kw params false 0 s
  let c' ← keywordLoop kw c.param c.optional 0 c.state
  collect toBin args kw params c'.param c.count c'.count c'.state

end Parsing

/-- A parameter and its variable. -/
structure Param (L : Type) where
  name : Name
  dest : L

/-- A name that is not a mark, of ASCII without the terminator. -/
def IsName (name : Name) : Prop :=
  name ≠ bar ∧ name ≠ star ∧ name ≠ star2 ∧ ∀ c ∈ name, 0 < c.val ∧ c.val < 0x80

/-- The tables: required parameters, optional ones behind a `|`, then perhaps `*` and `**`. Each
parameter has a variable of its own. `find_param` asserts that a parameter follows the `|`. -/
structure Table (L : Type) where
  required : List (Param L)
  optional : List (Param L)
  star : Option L
  star2 : Option L
  named : ∀ p ∈ required ++ optional, IsName p.name
  nodup : (((required ++ optional).map Param.dest) ++ star.toList ++ star2.toList).Nodup

namespace Table

variable (t : Table L)

def params : List (Param L) := t.required ++ t.optional

/-- The entries of the C array. -/
def cargs : List (CArg L) :=
  t.required.map (fun p => ⟨p.name, some p.dest⟩)
    ++ (if t.optional = [] then []
      else ⟨bar, none⟩ :: t.optional.map fun p => ⟨p.name, some p.dest⟩)
    ++ t.star.toList.map (fun d => ⟨GetArgs.star, some d⟩)
    ++ t.star2.toList.map (fun d => ⟨GetArgs.star2, some d⟩)

end Table

end GetArgs

end Yog
