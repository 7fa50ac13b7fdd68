import Mathlib.Data.Nat.Bitwise

/-!
# Structs and unions of the FFI

The layout of `ffi.c`, with pointers of eight bytes. A description of the fields is parsed into
nodes, the nodes into a class: `define_fields_to_StructClass` walks over them with an offset in
bytes and a position in bits behind it.
-/

namespace Yog

namespace Ffi

/-- The symbols that name types. -/
inductive TypeName
  | void | uint8 | int8 | uint16 | int16 | uint32 | int32 | uint64 | int64 | float | double
  | uchar | char | ushort | short | uint | int | ulong | long | ulonglong | longlong | longdouble
  | pointer | string | intP | pointerP
  | other (id : ℕ)
  deriving DecidableEq

/-- `id2size`; without one, it raises. -/
def id2size : TypeName → Option ℕ
  | .uint8 | .int8 | .uchar | .char => some 1
  | .uint16 | .int16 | .ushort | .short => some 2
  | .uint32 | .int32 | .uint | .int | .float => some 4
  | .uint64 | .int64 | .ulong | .long | .ulonglong | .longlong | .double => some 8
  | .longdouble => some 16
  | .pointer | .string => some 8
  | .void | .intP | .pointerP | .other _ => none

/-- The names `map_id_type` knows. -/
def mapIdType : TypeName → Bool
  | .ulonglong | .longlong | .string | .other _ => false
  | _ => true

inductive Error
  /-- Unknown type for size -/
  | unknownTypeForSize (type : TypeName)
  /-- Unknown type -/
  | unknownType (type : TypeName)
  /-- Type of array must be atom -/
  | arrayOfNonAtom
  /-- Zero width for bit field -/
  | zeroWidth
  /-- Width of bit field exceeds its type -/
  | wideBitField
  /-- `YOG_BUG`: Invalid Node type -/
  | bug
  deriving DecidableEq

/-- The meta class. -/
inductive Kind
  | structClass
  | unionClass
  deriving DecidableEq

/-- A field object: `FieldBase`, `BitField.pos` and the node it was made from. -/
structure Field (N : Type) where
  node : N
  offset : ℕ
  pos : ℕ

/-- `Node`. A struct node has the class: its size, its alignment unit and its fields. -/
inductive Node
  | array (type : Node) (size : ℕ)
  | atom (type : TypeName)
  | bit (signed : Bool) (width : ℕ)
  | buffer
  | pointer
  | string
  | struct (kind : Kind) (size alignmentUnit : ℕ) (fields : List (Field Node))

/-- The description of a type. A class is described by the fields it was defined with; the width of
a bit field is the number as `uint_t`. -/
inductive FieldType
  | array (type : FieldType) (size : ℕ)
  | atom (type : TypeName)
  | bit (signed : Bool) (width : ℕ)
  | buffer
  | pointer
  | string
  | struct (fields : List FieldType)
  | union (fields : List FieldType)

/-- A number as `uint_t`. -/
def wrap (n : ℕ) : ℕ := n % 2 ^ 64

/-- `get_size` -/
def getSize : Node → Except Error ℕ
  | .atom type =>
    match id2size type with
    | some size => .ok size
    | none => .error (.unknownTypeForSize type)
  | .buffer | .pointer | .string => .ok 8
  | .struct _ size _ _ => .ok size
  | .array _ _ | .bit _ _ => .error .bug

/-- `get_alignment_unit_of_node` -/
def getAlignmentUnitOfNode : Node → Except Error ℕ
  | .struct _ _ alignmentUnit _ => .ok alignmentUnit
  | .bit _ _ => .ok 1
  | .array _ _ => .error .bug
  | node => getSize node

/-- `get_alignment_unit` -/
def getAlignmentUnit : Node → Except Error ℕ
  | .array type _ => getAlignmentUnitOfNode type
  | node => getAlignmentUnitOfNode node

/-- `get_alignment_unit` with a list of nodes: that of the first. -/
def getAlignmentUnitOfFirst : List Node → Except Error ℕ
  | [] => .ok 0
  | node :: _ => getAlignmentUnit node

/-- `get_total_field_size` -/
def getTotalFieldSize : Node → Except Error ℕ
  | .array type size => do
    let unit ← getSize type
    .ok (wrap (unit * size))
  | .bit _ _ => .ok 0
  | node => getSize node

/-- `ALIGN` -/
def align (offset alignment : ℕ) : ℕ :=
  let mask := wrap (alignment + (2 ^ 64 - 1))
  wrap (offset + mask) &&& (2 ^ 64 - (mask + 1))

/-- `compute_bit_field_size` -/
def computeBitFieldSize (pos : ℕ) : ℕ := align pos 8 / 8

/-- `align_offset`, with the offset and the position in bits. -/
def alignOffset (node : Node) (offset pos : ℕ) : Except Error (ℕ × ℕ) :=
  match node with
  | .bit _ width =>
    if 64 ≤ wrap (pos + width + (2 ^ 64 - 1)) then .ok (wrap (offset + 8), 0)
    else .ok (offset, pos)
  | node => do
    let size ← getAlignmentUnit node
    .ok (align (wrap (offset + computeBitFieldSize pos)) (if 8 < size then 8 else size), 0)

/-- What `create_field` checks. -/
def createField : Node → Except Error Unit
  | .array (.atom _) _ => .ok ()
  | .array _ _ => .error .arrayOfNonAtom
  | .bit _ width =>
    if width = 0 then .error .zeroWidth
    else if 64 < width then .error .wideBitField
    else .ok ()
  | _ => .ok ()

/-- What `map_type_of_fields` checks. -/
def mapTypeOfFields : Node → Except Error Unit
  | .atom type => if mapIdType type then .ok () else .error (.unknownType type)
  | _ => .ok ()

/-- By how many bits a field moves `bit_pos`. -/
def bitWidth : Node → ℕ
  | .bit _ width => width
  | _ => 0

/-- The loop of `define_fields_to_StructClass`: the fields, and where it ends. -/
def layOut : List Node → ℕ → ℕ → Except Error (List (Field Node) × ℕ × ℕ)
  | [], offset, pos => .ok ([], offset, pos)
  | node :: nodes, offset, pos => do
    let (offset, pos) ← alignOffset node offset pos
    createField node
    let size ← getTotalFieldSize node
    mapTypeOfFields node
    let (fields, last) ← layOut nodes (wrap (offset + size)) (pos + bitWidth node)
    .ok (⟨node, offset, pos⟩ :: fields, last)

/-- `define_fields_to_StructClass` -/
def defineFieldsToStructClass (nodes : List Node) : Except Error Node := do
  let alignmentUnit ← getAlignmentUnitOfFirst nodes
  let (fields, offset, pos) ← layOut nodes 0 0
  .ok (.struct .structClass (wrap (offset + computeBitFieldSize pos)) alignmentUnit fields)

/-- `get_union_size` and `get_alignment_unit_of_union`: the largest measure of the nodes. -/
def getMax (measure : Node → Except Error ℕ) : List Node → ℕ → Except Error ℕ
  | [], largest => .ok largest
  | node :: nodes, largest => do
    let n ← measure node
    getMax measure nodes (max largest n)

/-- `update_union_elements`: the new `max_size`. -/
def updateUnionElements (node : Node) (maxSize : ℕ) : Except Error ℕ := do
  let fieldSize ← getSize node
  if fieldSize ≤ maxSize then .ok maxSize
  else do
    mapTypeOfFields node
    .ok fieldSize

/-- The loop of `define_fields_to_UnionClass`. -/
def layOver : List Node → ℕ → Except Error (List (Field Node))
  | [], _ => .ok []
  | node :: nodes, maxSize => do
    createField node
    let maxSize ← updateUnionElements node maxSize
    let fields ← layOver nodes maxSize
    .ok (⟨node, 0, 0⟩ :: fields)

/-- `define_fields_to_UnionClass` -/
def defineFieldsToUnionClass (nodes : List Node) : Except Error Node := do
  let alignmentUnit ← getMax getAlignmentUnit nodes 0
  let fields ← layOver nodes 0
  let size ← getMax getTotalFieldSize nodes 0
  .ok (.struct .unionClass size alignmentUnit fields)

mutual

/-- `parse_type` -/
def parseType : FieldType → Except Error Node
  | .array type size => do
    let child ← parseType type
    .ok (.array child size)
  | .atom type => .ok (.atom type)
  | .bit signed width => .ok (.bit signed width)
  | .buffer => .ok .buffer
  | .pointer => .ok .pointer
  | .string => .ok .string
  | .struct fields => do
    let nodes ← parseFields fields
    defineFieldsToStructClass nodes
  | .union fields => do
    let nodes ← parseFields fields
    defineFieldsToUnionClass nodes

/-- `parse_fields` -/
def parseFields : List FieldType → Except Error (List Node)
  | [] => .ok []
  | type :: types => do
    let node ← parseType type
    let nodes ← parseFields types
    .ok (node :: nodes)

end

/-- The bytes that a read or a write of a field at `offset` of the data touches. An array of no
elements is taken for one without an end if `flexible`, and the read of a bit field whose word passes
the end of its struct counts if `words`. -/
inductive Touches (flexible words : Bool) : Node → ℕ → ℕ → ℕ → Prop
  | atom {type size offset pos k} : id2size type = some size → k < size →
    Touches flexible words (.atom type) offset pos (offset + k)
  /-- `FieldArray_subscript`, `FieldArray_subscript_assign` -/
  | element {type unit size offset pos i k} : id2size type = some unit →
    i < size ∨ size = 0 ∧ flexible = true → k < unit →
    Touches flexible words (.array (.atom type) size) offset pos (offset + unit * i + k)
  /-- `write_bit_field` -/
  | writtenBits {signed width offset pos k} : k < (width + 7) / 8 →
    Touches flexible words (.bit signed width) offset pos (offset + pos / 8 + k)
  | buffer {offset pos k} : k < 8 → Touches flexible words .buffer offset pos (offset + k)
  | pointer {offset pos k} : k < 8 → Touches flexible words .pointer offset pos (offset + k)
  | string {offset pos k} : k < 8 → Touches flexible words .string offset pos (offset + k)
  /-- `BitField_call_descr_get`: the whole word is read. -/
  | bits {kind size unit fields field offset pos k} : field ∈ fields →
    (∃ signed width, field.node = .bit signed width) → field.offset + 8 ≤ size ∨ words = true →
    k < 8 → Touches flexible words (.struct kind size unit fields) offset pos
      (offset + field.offset + k)
  /-- `StructField_exec_descr_set` -/
  | copy {kind size unit fields offset pos k} : k < size →
    Touches flexible words (.struct kind size unit fields) offset pos (offset + k)
  /-- Through the view that `StructField_call_descr_get` makes. -/
  | view {kind size unit fields field offset pos k} : field ∈ fields →
    Touches flexible words field.node (offset + field.offset) field.pos k →
    Touches flexible words (.struct kind size unit fields) offset pos k

end Ffi

end Yog
