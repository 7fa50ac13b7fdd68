import Yog.Convert
import Yog.Ffi

/-!
# The memory of fields

What `ffi.c` does with the bytes behind a field: `Struct_read` and `write_data` for the integer
types, and the routines of the bit fields. A word is held with its low byte first. What raises has
the memory as it leaves it in its result.
-/

namespace Yog

namespace Ffi

/-- Every address has a byte, whether or not it belongs to the data of a struct. -/
abbrev Memory := ℕ → BitVec 8

/-- What a write ends with, and the memory it leaves. -/
abbrev Written := Except ConvError Unit × Memory

namespace Memory

variable (mem : Memory)

/-- The word of `size` bytes at `ptr`. -/
def load : (size ptr : ℕ) → BitVec (8 * size)
  | 0, _ => 0#0
  | size + 1, ptr => load size (ptr + 1) ++ mem ptr

def store {size : ℕ} (ptr : ℕ) (word : BitVec (8 * size)) : Memory := fun k =>
  if ptr ≤ k ∧ k < ptr + size then word.extractLsb' (8 * (k - ptr)) 8 else mem k

/-- The bits of the memory, those of a byte from the low one on. -/
def bit (j : ℕ) : Bool := (mem (j / 8)).getLsbD (j % 8)

end Memory

/-- `sizeof` -/
def sizeOf (t : CType) : ℕ := t.bits / 8

section Integers

variable (mem : Memory)

/-- `*((t*)ptr)` -/
def loadInteger (ptr : ℕ) (t : CType) : Int :=
  if t.signed then (mem.load (sizeOf t) ptr).toInt else (mem.load (sizeOf t) ptr).toNat

/-- `*((t*)ptr) = n` -/
def storeInteger (ptr : ℕ) (t : CType) (n : Int) : Memory :=
  mem.store ptr (BitVec.ofInt (8 * sizeOf t) n)

/-- `write_data`: a writer stores what it has checked and converted. -/
def writeData (dest : ℕ) (t : CType) (val : Integer) : Written :=
  match Yog.writeData t val with
  | .ok n => (.ok (), storeInteger mem dest t n)
  | .error e => (.error e, mem)

/-- `Struct_write` -/
def structWrite (data offset : ℕ) (t : CType) (val : Integer) : Written :=
  writeData mem (data + offset) t val

/-- `write_argument` of an integer type. -/
def writeArgument (pvalue : ℕ) (t : CType) (val : Integer) : Written := writeData mem pvalue t val

/-- `Struct_read` -/
def structRead (data offset : ℕ) (t : CType) : Integer :=
  Yog.structRead (loadInteger mem (data + offset) t) t

end Integers

/-! A `uint_t` and an `int_t` are words of 64 bits; `none` is a shift of an `int` by as many bits as it
has or more, which C leaves undefined. -/

/-- `make_mask`, where an `int` is shifted and extended to `uint_t`. -/
def makeMask (width : ℕ) : Option (BitVec 64) :=
  if width < 64 then
    if width < 32 then some (BitVec.ofInt 64 (toCInt (toCInt (2 ^ width) - 1))) else none
  else some (~~~0#64)

/-- `extend_sign` -/
def extendSign (n : BitVec 64) (width : ℕ) : Option (BitVec 64) :=
  if n.getLsbD (width - 1) then (makeMask width).map fun mask => n ||| ~~~mask else some n

/-- `*ptr = c` for a `char`. -/
def Memory.setByte (mem : Memory) (ptr : ℕ) (c : BitVec 8) : Memory :=
  fun k => if k = ptr then c else mem k

/-- What `write_bit_field` makes of a byte, which is a `char` with a sign. -/
def writeByte (c : BitVec 8) (n : BitVec 64) (pos width : ℕ) : Option (BitVec 8) := do
  let upperMask := ~~~(← makeMask (min width (8 - pos))) <<< pos
  let lowerMask ← makeMask pos
  let mask := upperMask ||| lowerMask
  return ((mask &&& c.signExtend 64) ||| ((0xff &&& n) <<< pos)).setWidth 8

/-- `write_bit_field` -/
def writeBitField (mem : Memory) (ptr : ℕ) (n : BitVec 64) (pos width : ℕ) : Option Memory :=
  if 8 ≤ pos then writeBitField mem (ptr + 1) n (pos - 8) width
  else do
    let c ← writeByte (mem ptr) n pos width
    if width ≤ 8 then return mem.setByte ptr c
    else writeBitField (mem.setByte ptr c) (ptr + 1) (n >>> 8) 0 (width - 8)
termination_by pos + width

section BitFields

variable (mem : Memory) (data : ℕ) (pos width : ℕ)

/-- `BitField_call_descr_get` -/
def bitFieldGet : Option Integer := do
  let mask ← makeMask width
  let n := (mem.load 8 data).sshiftRight pos &&& mask
  return .fromInt (← extendSign n width).toInt

/-- `UnsignedBitField_call_descr_get` -/
def unsignedBitFieldGet : Option Integer := do
  let mask ← makeMask width
  return .fromUnsignedInt ((mem.load 8 data >>> pos) &&& mask).toNat

/-- `BitField_exec_descr_set` -/
def bitFieldSet (val : Integer) : Option Written :=
  match val.toSignedType "Value" with
  | .error e => some (.error e, mem)
  | .ok n => do
    let mask ← makeMask (width - 1)
    let max := mask.toInt
    let min := (~~~mask).toInt
    if max < n then
      return (.error (.valueError ("Value must be less or equal " ++ formatD max ++ ", not " ++
        formatD n)), mem)
    else if n < min then
      return (.error (.valueError ("Value must be greater or equal " ++ formatD min ++ ", not " ++
        formatD n)), mem)
    else return (.ok (), ← writeBitField mem data (BitVec.ofInt 64 n) pos width)

/-- `UnsignedBitField_exec_descr_set` -/
def unsignedBitFieldSet (val : Integer) : Option Written :=
  match val.toUint "Value" with
  | .error e => some (.error e, mem)
  | .ok n => do
    let mask ← makeMask width
    let max : Int := mask.toNat
    if max < n then
      return (.error (.valueError ("Value must be less or equal " ++ formatU max ++ ", not " ++
        formatU n)), mem)
    else return (.ok (), ← writeBitField mem data (BitVec.ofInt 64 n) pos width)

end BitFields

end Ffi

end Yog
