import Mathlib.Data.List.Basic

/-!
# Pointees of structs of the FFI

A struct of `ffi.c` has memory, and beside it the array `children` of the objects whose addresses
were written to the memory. The memory belongs to the struct that was made with `new` or to another
one: `StructField_call_descr_get` makes a struct over a part of the memory of another struct, and a
pointer that is read from such a struct is made a struct again.

An address names the object that allocated the memory. Of what is in the memory only the addresses
are modelled, each at the offset of its first byte.
-/

namespace Yog

namespace Ffi

namespace Pointee

/-- The class of a field. A struct class is named by a number. -/
inductive FieldClass where
  | field
  | bufferField
  | pointerField (klass : ℕ)
  | structField (klass : ℕ)
  deriving DecidableEq

structure FieldBase where
  type : FieldClass
  offset : ℕ
  deriving DecidableEq

structure StructClass where
  size : ℕ
  fields : List FieldBase

/-- `get_children_num` of a field is one. -/
def FieldClass.hasChild : FieldClass → Bool
  | .bufferField | .pointerField _ => true
  | .field | .structField _ => false

namespace StructClass

variable (k : StructClass)

def childrenNum : ℕ := k.fields.countP (·.type.hasChild)

/-- The `child_index` of a field: `define_fields_to_StructClass` counts the fields before it. -/
def childIndex (i : ℕ) : ℕ := (k.fields.take i).countP (·.type.hasChild)

end StructClass

abbrev ObjId := ℕ

/-- An address in the memory that an object allocated. -/
structure Address where
  owner : ObjId
  offset : ℕ
  deriving DecidableEq

def Address.add (a : Address) (n : ℕ) : Address := { a with offset := a.offset + n }

/-- `struct Struct`. `NULL` is no address. -/
structure Struct where
  klass : ℕ
  data : Option Address
  own : Bool
  top : ObjId
  children : List (Option ObjId)

inductive Obj where
  | buffer
  | struct (st : Struct)

abbrev Memory := ObjId → ℕ → Option Address

/-- Writing a pointer. What it writes over is no address any more. -/
def Memory.write (mem : Memory) (dest : Address) (ptr : Option Address) : Memory := fun owner o =>
  if owner ≠ dest.owner then mem owner o
  else if o = dest.offset then ptr
  else if o < dest.offset + 8 ∧ dest.offset < o + 8 then none
  else mem owner o

/-- `memcpy` -/
def Memory.copy (mem : Memory) (dest src : Address) (size : ℕ) : Memory := fun owner o =>
  if owner ≠ dest.owner then mem owner o
  else if dest.offset ≤ o ∧ o + 8 ≤ dest.offset + size then
    mem src.owner (src.offset + (o - dest.offset))
  else if o < dest.offset + size ∧ dest.offset < o + 8 then none
  else mem owner o

/-- The objects in the order they were allocated, and the memory. -/
structure State where
  objs : List Obj
  mem : Memory

def State.struct? (s : State) (x : ObjId) : Option Struct :=
  match s.objs[x]? with
  | some (.struct st) => some st
  | _ => none

inductive Value where
  | nil
  | obj (id : ObjId)
  deriving DecidableEq

def Value.ofChild : Option ObjId → Value
  | none => .nil
  | some c => .obj c

section Operations

variable (classes : ℕ → StructClass)

/-- `StructBase_alloc` of an object that is going to have the number `x`. -/
def structBaseAlloc (klass : ℕ) (x : ObjId) : Struct where
  klass := klass
  data := none
  own := true
  top := x
  children := List.replicate (classes klass).childrenNum none

def State.push (s : State) (o : Obj) : State := { s with objs := s.objs ++ [o] }

/-- `Buffer.new` -/
def bufferNew (s : State) : Value × State := (.obj s.objs.length, s.push .buffer)

/-- `new` of a struct class without an argument. -/
def structNew (s : State) (klass : ℕ) : Value × State :=
  let x := s.objs.length
  (.obj x, s.push (.struct { structBaseAlloc classes klass x with data := some ⟨x, 0⟩ }))

/-- `create_struct_from_pointer` -/
def createStructFromPointer (s : State) (klass : ℕ) (ptr : Option Address) : Value × State :=
  let x := s.objs.length
  (.obj x, s.push (.struct { structBaseAlloc classes klass x with data := ptr, own := false }))

/-- `StructField_call_descr_get` -/
def structFieldGet (s : State) (st : Struct) (klass offset : ℕ) : Value × State :=
  let x := s.objs.length
  let data := st.data.map (·.add offset)
  (.obj x, s.push
    (.struct { structBaseAlloc classes klass x with data := data, own := false, top := st.top }))

/-- `Struct_get_pointer`. Reading at `NULL` is no step. -/
def structGetPointer (s : State) (st : Struct) (klass offset index : ℕ) :
    Option (Value × State) :=
  if st.own then some (.ofChild (st.children[index]?.join), s)
  else st.data.map fun a =>
    createStructFromPointer classes s klass (s.mem a.owner (a.add offset).offset)

/-- Reading a field, of a buffer (`Struct_get_Buffer`), a pointer or a struct. -/
def descrGet (s : State) (x : ObjId) (i : ℕ) : Option (Value × State) := do
  let st ← s.struct? x
  let field ← (classes st.klass).fields[i]?
  let index := (classes st.klass).childIndex i
  match field.type with
  | .field => none
  | .bufferField => some (.ofChild (st.children[index]?.join), s)
  | .pointerField klass => structGetPointer classes s st klass field.offset index
  | .structField klass => some (structFieldGet classes s st klass field.offset)

/-- The memory of an object. -/
def State.ptr? (s : State) (x : ObjId) : Option Address :=
  match s.objs[x]? with
  | some .buffer => some ⟨x, 0⟩
  | some (.struct st) => st.data
  | none => none

/-- `Struct_write_child` -/
def structWriteChild (s : State) (x : ObjId) (st : Struct) (index : ℕ) (child : ObjId)
    (offset : ℕ) (ptr : Option Address) : Option State :=
  st.data.map fun a =>
    { objs := s.objs.set x (.struct { st with children := st.children.set index (some child) })
      mem := s.mem.write (a.add offset) ptr }

def State.klass? (s : State) (x : ObjId) : Option ℕ := (s.struct? x).map Struct.klass

def State.isBuffer (s : State) (x : ObjId) : Bool :=
  match s.objs[x]? with
  | some .buffer => true
  | _ => false

/-- Assigning to a field (`BufferField_exec_descr_set`, `PointerField_exec_descr_set`,
`StructField_exec_descr_set`). A value of another class raises, which is no step. -/
def descrSet (s : State) (x : ObjId) (i : ℕ) (val : ObjId) : Option State := do
  let st ← s.struct? x
  let field ← (classes st.klass).fields[i]?
  let index := (classes st.klass).childIndex i
  match field.type with
  | .field => none
  | .bufferField =>
    if s.isBuffer val then structWriteChild s x st index val field.offset (s.ptr? val) else none
  | .pointerField klass =>
    if s.klass? val = some klass then
      structWriteChild s x st index val field.offset (s.ptr? val)
    else none
  | .structField klass =>
    if s.klass? val = some klass then do
      let dest ← st.data
      let src ← s.ptr? val
      some { s with mem := s.mem.copy (dest.add field.offset) src (classes klass).size }
    else none

inductive Op where
  | newBuffer
  | newStruct (klass : ℕ)
  | get (x : ObjId) (field : ℕ)
  | set (x : ObjId) (field : ℕ) (val : ObjId)

def exec (s : State) : Op → Option (Value × State)
  | .newBuffer => some (bufferNew s)
  | .newStruct klass => some (structNew classes s klass)
  | .get x i => descrGet classes s x i
  | .set x i val => (descrSet classes s x i val).map (.obj val, ·)

/-- The label of a step is the operation and its value. -/
def Step (s : State) (e : Op × Value) (s' : State) : Prop := exec classes s e.1 = some (e.2, s')

def init : State where
  objs := []
  mem := fun _ _ => none

/-- `Struct_keep_children`: what the collector reaches from an object. -/
def State.succ (s : State) (x : ObjId) : Set ObjId :=
  {c | ∃ st, s.struct? x = some st ∧ (c = st.top ∨ some c ∈ st.children)}

end Operations

end Pointee

end Ffi

end Yog
