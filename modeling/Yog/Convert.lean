import Yog.IntegerText

/-!
# Integers from and to C

The conversions of `bignum.c`, `fixnum.c` and `value.c`, and those of `ffi.c` between an integer and
the memory of a field, with `long`s and pointers of 64 bits. A Bignum is compared with a C integer
by way of the decimal text of the latter.
-/

namespace Yog

/-- The types `write_data` knows of that hold an integer. -/
inductive CType
  | uint8 | int8 | uint16 | int16 | uint32 | int32 | uint64 | int64
  | uchar | char | ushort | short | uint | int | ulong | long | ulonglong | longlong
  | pointer
  deriving DecidableEq

namespace CType

def signed : CType → Bool
  | .int8 | .int16 | .int32 | .int64 | .char | .short | .int | .long | .longlong => true
  | .uint8 | .uint16 | .uint32 | .uint64 | .uchar | .ushort | .uint | .ulong | .ulonglong
  | .pointer => false

def bits : CType → Nat
  | .uint8 | .int8 | .uchar | .char => 8
  | .uint16 | .int16 | .ushort | .short => 16
  | .uint32 | .int32 | .uint | .int => 32
  | .uint64 | .int64 | .ulong | .long | .ulonglong | .longlong | .pointer => 64

def min (t : CType) : Int := if t.signed then -2 ^ (t.bits - 1) else 0

def max (t : CType) : Int := if t.signed then 2 ^ (t.bits - 1) - 1 else 2 ^ t.bits - 1

def InRange (t : CType) (n : Int) : Prop := t.min ≤ n ∧ n ≤ t.max

instance (t : CType) (n : Int) : Decidable (t.InRange n) := inferInstanceAs (Decidable (_ ∧ _))

/-- What is kept of a value that is assigned. -/
def assign (t : CType) (n : Int) : Int :=
  if t.signed then n.bmod (2 ^ t.bits) else n % 2 ^ t.bits

end CType

inductive ConvError
  | valueError (message : String)
  | typeError (message : String)
deriving DecidableEq

/-- `%d`, which takes an `int`. -/
def formatD (n : Int) : String := toString (toCInt n)

/-- `%u` -/
def formatU (n : Int) : String := toString (n % 2 ^ 32)

/-- `%lu` and `%llu` -/
def formatLu (n : Int) : String := toString (n % 2 ^ 64)

/-- `%lld` -/
def formatLld (n : Int) : String := toString (wrap n)

/-- `%S` and `%D` of a Bignum. -/
def Bignum.format (self : Bignum) : String :=
  (if self.sign = .neg then "-" else "") ++ toString self.num

/-- `%D` of a Fixnum. -/
def Fixnum.format (self : Fixnum) : String := toString self.toInt

/-- What `snprintf` leaves of an integer in the 21 bytes of `buf`. -/
def snprintfBuf (n : Int) : List Byte :=
  ((if n < 0 then [toByte '-'.toNat] else []) ++ bdConvToDecimal n.natAbs).take 20

/-- `YogBignum_from_long_long` -/
def Bignum.fromLongLong (n : Int) : Bignum :=
  match snprintfBuf n with
  | [] => ⟨bdConvFromDecimal [], .pos⟩
  | c :: buf =>
    if c.val = '-'.toNat then ⟨bdConvFromDecimal buf, .neg⟩
    else ⟨bdConvFromDecimal (c :: buf), .pos⟩

/-- `YogBignum_from_unsigned_long_long` -/
def Bignum.fromUnsignedLongLong (n : Int) : Bignum := ⟨bdConvFromDecimal (snprintfBuf n), .pos⟩

/-- `YogBignum_from_unsigned_int` -/
def Bignum.fromUnsignedInt (n : Int) : Bignum := ⟨bdSetShort n, .pos⟩

namespace Integer

/-- `YogVal_from_long_long` -/
def fromLongLong (n : Int) : Integer :=
  if Fixable n then .fixnum (int2val n) else .bignum (.fromLongLong n)

/-- `YogVal_from_unsigned_long_long` -/
def fromUnsignedLongLong (n : Int) : Integer :=
  if n < yintMax then .fixnum (int2val n) else .bignum (.fromUnsignedLongLong n)

/-- `YogVal_from_unsigned_int` -/
def fromUnsignedInt (n : Int) : Integer :=
  if n < yintMax then .fixnum (int2val n) else .bignum (.fromUnsignedInt n)

end Integer

/-- `Struct_read`, of a field of an integer type that holds `n`. -/
def structRead (n : Int) : CType → Integer
  | .uint8 | .int8 | .uint16 | .int16 | .uchar | .char | .ushort | .short => .fixnum (int2val n)
  | .uint32 | .uint | .ulong | .pointer => .fromUnsignedInt n
  | .int32 | .int | .long => .fromInt n
  | .uint64 | .ulonglong => .fromUnsignedLongLong n
  | .int64 | .longlong => .fromLongLong n

/-- `bdCompare` -/
def bdCompare (a b : Nat) : Int := if a < b then -1 else if a = b then 0 else 1

namespace Bignum

variable (self : Bignum)

/-- The helpers for the unsigned types; `n2` is what the operand is as a magnitude. -/
def compareUnsigned (n2 : Nat) : Int := if self.sign = .neg then -1 else bdCompare self.num n2

/-- `YogBignum_compare_with_unsigned_long`, with `%lu` -/
def compareWithUnsignedLong (n : Int) : Int :=
  self.compareUnsigned (bdConvFromDecimal (snprintfBuf n))

/-- `YogBignum_compare_with_unsigned_int`, with `%zu` -/
def compareWithUnsignedInt (n : Int) : Int :=
  self.compareUnsigned (bdConvFromDecimal (snprintfBuf n))

/-- `YogBignum_compare_with_unsigned_long_long` -/
def compareWithUnsignedLongLong (n : Int) : Int :=
  self.compareUnsigned (fromUnsignedLongLong n).num

def signOf (n : Int) : Int := if 0 < n then 1 else -1

/-- The helpers for the signed types. -/
def compareSigned (n : Int) (n2 : Nat) : Int :=
  if self.sign.toInt * signOf n < 0 then self.sign.toInt
  else if 0 < self.sign.toInt then bdCompare self.num n2
  else -bdCompare self.num n2

/-- `YogBignum_compare_with_long`, with `%lu`: the least `long` is its own negation and printed as
an unsigned one. -/
def compareWithLong (n : Int) : Int :=
  self.compareSigned n (bdConvFromDecimal (snprintfBuf (wrap (signOf n * n) % 2 ^ 64)))

/-- `YogBignum_compare_with_int`, with `%zd`: the least `int_t` is printed with its sign. -/
def compareWithInt (n : Int) : Int :=
  self.compareSigned n (bdConvFromDecimal (snprintfBuf (wrap (signOf n * n))))

/-- `YogBignum_compare_with_long_long` -/
def compareWithLongLong (n : Int) : Int := self.compareSigned n (fromLongLong n).num

/-- What `strtoul` makes of the decimal text of `z`. -/
def strtoulOf (z : Int) : Int :=
  if CType.ulong.max < z.natAbs then CType.ulong.max else z % 2 ^ 64

/-- `check_range_unsigned` -/
def checkRangeUnsigned (name : String) (max : Int) : Except ConvError Unit := do
  if self.compareWithUnsignedLong 0 < 0 then
    throw (.valueError (name ++ " must be greater or equal than 0, not " ++ self.format))
  if 0 < self.compareWithUnsignedLong max then
    throw (.valueError (name ++ " must be less or equal " ++ formatLu max ++ ", not " ++
      self.format))

/-- `check_range` -/
def checkRange (name : String) (min max : Int) : Except ConvError Unit := do
  if self.compareWithInt min < 0 then
    throw (.valueError (name ++ " must be greater or equal " ++ formatD min ++ ", not " ++
      self.format))
  if 0 < self.compareWithInt max then
    throw (.valueError (name ++ " must be less or equal " ++ formatD max ++ ", not " ++
      self.format))

/-- `YogBignum_to_unsigned_long` -/
def toUnsignedLong (name : String) : Except ConvError Int := do
  self.checkRangeUnsigned name CType.ulong.max
  return strtoulOf self.toInt

/-- `YogBignum_to_unsigned_type` -/
def toUnsignedType (name : String) : Except ConvError Int := do
  self.checkRangeUnsigned name CType.ulong.max
  return strtoulOf self.toInt

/-- `YogBignum_to_long` -/
def toLong (name : String) : Except ConvError Int := do
  self.checkRange name longMin longMax
  return strtolOf self.toInt

/-- `YogBignum_to_signed_type` -/
def toSignedType (name : String) : Except ConvError Int := do
  self.checkRange name longMin longMax
  return strtolOf self.toInt

/-- `YogBignum_to_long_long` -/
def toLongLong (name : String) : Except ConvError Int := do
  if self.compareWithLongLong longMin < 0 ∨ 0 < self.compareWithLongLong longMax then
    throw (.valueError (name ++ " must be between " ++ formatLld longMin ++ " and " ++
      formatLld longMax))
  return strtolOf self.toInt

/-- `YogBignum_to_unsigned_long_long` -/
def toUnsignedLongLong (name : String) : Except ConvError Int := do
  if self.compareWithUnsignedInt 0 < 0 ∨
      0 < self.compareWithUnsignedLongLong CType.ulonglong.max then
    throw (.valueError (name ++ " must be between 0 and " ++ formatLu CType.ulonglong.max))
  return strtoulOf self.toInt

end Bignum

/-- `YogFixnum_to_uint` -/
def Fixnum.toUint (self : Fixnum) (name : String) : Except ConvError Int := do
  if self.toInt < 0 then
    throw (.valueError (name ++ " must be greater or equal 0, not " ++ formatD self.toInt))
  return CType.ulong.assign self.toInt

/-- `YogVal_to_uint` -/
def Integer.toUint (name : String) : Integer → Except ConvError Int
  | .fixnum self => self.toUint name
  | .bignum self => self.toUnsignedType name

/-- `YogVal_to_signed_type` -/
def Integer.toSignedType (name : String) : Integer → Except ConvError Int
  | .fixnum self => pure self.toInt
  | .bignum self => self.toSignedType name

/-- `check_Fixnum` -/
def checkFixnum (min max : Int) : Integer → Except ConvError Unit
  | .bignum _ => throw (.typeError "Value must be Fixnum, not Bignum")
  | .fixnum val => do
    if val.toInt < min then
      throw (.valueError ("Value must be greater or equal " ++ formatD min ++ ", not " ++
        val.format))
    if max < val.toInt then
      throw (.valueError ("Value must be less or equal " ++ formatD max ++ ", not " ++ val.format))

namespace Fixnum

variable (val : Fixnum)

/-- `check_Fixnum_positive` -/
def checkPositive : Except ConvError Unit :=
  if 0 ≤ val.toInt then pure ()
  else throw (.valueError ("Value must be greater or equal 0, not " ++ formatD val.toInt))

/-- `check_Fixnum_int32` -/
def checkInt32 : Except ConvError Unit := do
  if val.toInt < CType.int32.min then
    throw (.valueError ("Value must be greater or equal " ++ formatD CType.int32.min ++ ", not " ++
      val.format))
  if CType.int32.max < val.toInt then
    throw (.valueError ("Value must be less or equal " ++ formatD CType.int32.max ++ ", not " ++
      val.format))

/-- `check_Fixnum_uint32` -/
def checkUint32 : Except ConvError Unit := do
  if val.toInt < 0 then
    throw (.valueError ("Value must be greater or equal 0, not " ++ val.format))
  if CType.uint32.max < val.toInt then
    throw (.valueError ("Value must be less or equal " ++ formatU CType.uint32.max ++ ", not " ++
      val.format))

end Fixnum

namespace Bignum

variable (val : Bignum)

/-- The checks that a Bignum is not below; they differ in the helper and the format. -/
def checkGreaterOrEqual (compared : Int) (n : String) : Except ConvError Unit :=
  if 0 ≤ compared then pure ()
  else throw (.valueError ("Value must be greater or equal " ++ n ++ ", not " ++ val.format))

/-- The checks that a Bignum is not above. -/
def checkLessOrEqual (compared : Int) (n : String) : Except ConvError Unit :=
  if compared ≤ 0 then pure ()
  else throw (.valueError ("Value must be less or equal " ++ n ++ ", not " ++ val.format))

/-- `check_Bignum_is_greater_or_equal_than_int` -/
def checkGreaterOrEqualThanInt (n : Int) : Except ConvError Unit :=
  val.checkGreaterOrEqual (val.compareWithInt n) (formatD n)

/-- `check_Bignum_is_greater_or_equal_than_long` -/
def checkGreaterOrEqualThanLong (n : Int) : Except ConvError Unit :=
  val.checkGreaterOrEqual (val.compareWithLong n) (formatD n)

/-- `check_Bignum_is_greater_or_equal_than_long_long` -/
def checkGreaterOrEqualThanLongLong (n : Int) : Except ConvError Unit :=
  val.checkGreaterOrEqual (val.compareWithLongLong n) (formatLld n)

/-- `check_Bignum_is_less_or_equal_than_unsigned_int` -/
def checkLessOrEqualThanUnsignedInt (n : Int) : Except ConvError Unit :=
  val.checkLessOrEqual (val.compareWithUnsignedInt n) (formatU n)

/-- `check_Bignum_is_less_or_equal_than_unsigned_long` -/
def checkLessOrEqualThanUnsignedLong (n : Int) : Except ConvError Unit :=
  val.checkLessOrEqual (val.compareWithUnsignedLong n) (formatLu n)

/-- `check_Bignum_is_less_or_equal_than_unsigned_long_long` -/
def checkLessOrEqualThanUnsignedLongLong (n : Int) : Except ConvError Unit :=
  val.checkLessOrEqual (val.compareWithUnsignedLongLong n) (formatLu n)

/-- `check_Bignum_is_less_or_equal_than_long` -/
def checkLessOrEqualThanLong (n : Int) : Except ConvError Unit :=
  val.checkLessOrEqual (val.compareWithLong n) (formatD n)

/-- `check_Bignum_is_less_or_equal_than_int` -/
def checkLessOrEqualThanInt (n : Int) : Except ConvError Unit :=
  val.checkLessOrEqual (val.compareWithInt n) (formatD n)

/-- `check_Bignum_is_less_or_equal_than_long_long`, which compares with the greatest one whatever
the bound. -/
def checkLessOrEqualThanLongLong (n : Int) : Except ConvError Unit :=
  val.checkLessOrEqual (val.compareWithLongLong longMax) (formatLu n)

/-- `check_Bignum_uint` -/
def checkUint : Except ConvError Unit := do
  val.checkGreaterOrEqualThanInt 0
  val.checkLessOrEqualThanUnsignedInt CType.ulong.max

/-- `check_Bignum_uint32` -/
def checkUint32 : Except ConvError Unit := do
  val.checkGreaterOrEqualThanInt 0
  val.checkLessOrEqualThanUnsignedInt CType.uint32.max

/-- `check_Bignum_int32` -/
def checkInt32 : Except ConvError Unit := do
  val.checkGreaterOrEqualThanInt CType.int32.min
  val.checkLessOrEqualThanInt CType.int32.max

/-- `check_Bignum_int` -/
def checkInt : Except ConvError Unit := do
  val.checkGreaterOrEqualThanInt CType.int.min
  val.checkLessOrEqualThanInt CType.int.max

/-- `check_Bignum_uint64` -/
def checkUint64 : Except ConvError Unit := do
  val.checkGreaterOrEqualThanInt 0
  val.checkLessOrEqualThanUnsignedLongLong CType.uint64.max

/-- `check_Bignum_int64` -/
def checkInt64 : Except ConvError Unit := do
  val.checkGreaterOrEqualThanLongLong CType.int64.min
  val.checkLessOrEqualThanLongLong CType.int64.max

/-- `check_Bignum_unsigned_long` -/
def checkUnsignedLong : Except ConvError Unit := do
  val.checkGreaterOrEqualThanInt 0
  val.checkLessOrEqualThanUnsignedLong CType.ulong.max

/-- `check_Bignum_unsigned_long_long` -/
def checkUnsignedLongLong : Except ConvError Unit := do
  val.checkGreaterOrEqualThanInt 0
  val.checkLessOrEqualThanUnsignedLongLong CType.ulonglong.max

/-- `check_Bignum_long` -/
def checkLong : Except ConvError Unit := do
  val.checkGreaterOrEqualThanLong CType.long.min
  val.checkLessOrEqualThanLong CType.long.max

/-- `check_Bignum_long_long` -/
def checkLongLong : Except ConvError Unit := do
  val.checkGreaterOrEqualThanLongLong CType.longlong.min
  val.checkLessOrEqualThanLongLong CType.longlong.max

end Bignum

/-- The writers that take a Fixnum only. -/
def writeFixnum (t : CType) (val : Integer) : Except ConvError Int := do
  checkFixnum t.min t.max val
  return t.assign val.toInt

/-- The writers that take a Bignum too, with their two checks and their conversion. -/
def writeInteger (t : CType) (checkFix : Fixnum → Except ConvError Unit)
    (checkBig : Bignum → Except ConvError Unit) (convert : Bignum → String → Except ConvError Int) :
    Integer → Except ConvError Int
  | .fixnum val => do
    checkFix val
    return t.assign val.toInt
  | .bignum val => do
    checkBig val
    let n ← convert val "Value"
    return t.assign n

/-- `write_uint8` -/
def writeUint8 : Integer → Except ConvError Int := writeFixnum .uint8

/-- `write_int8` -/
def writeInt8 : Integer → Except ConvError Int := writeFixnum .int8

/-- `write_uint16` -/
def writeUint16 : Integer → Except ConvError Int := writeFixnum .uint16

/-- `write_int16` -/
def writeInt16 : Integer → Except ConvError Int := writeFixnum .int16

/-- `write_uchar` -/
def writeUchar : Integer → Except ConvError Int := writeFixnum .uchar

/-- `write_char` -/
def writeChar : Integer → Except ConvError Int := writeFixnum .char

/-- `write_ushort` -/
def writeUshort : Integer → Except ConvError Int := writeFixnum .ushort

/-- `write_short` -/
def writeShort : Integer → Except ConvError Int := writeFixnum .short

/-- `write_uint32` -/
def writeUint32 : Integer → Except ConvError Int :=
  writeInteger .uint32 Fixnum.checkUint32 Bignum.checkUint32 Bignum.toUnsignedType

/-- `write_int32` -/
def writeInt32 : Integer → Except ConvError Int :=
  writeInteger .int32 Fixnum.checkInt32 Bignum.checkInt32 Bignum.toSignedType

/-- `write_uint64` -/
def writeUint64 : Integer → Except ConvError Int :=
  writeInteger .uint64 Fixnum.checkPositive Bignum.checkUint64 Bignum.toUnsignedLongLong

/-- `write_int64` -/
def writeInt64 : Integer → Except ConvError Int :=
  writeInteger .int64 (fun _ => pure ()) Bignum.checkInt64 Bignum.toLongLong

/-- `write_uint`, which checks a Fixnum on one side only -/
def writeUint : Integer → Except ConvError Int :=
  writeInteger .uint Fixnum.checkPositive Bignum.checkUint32 Bignum.toUnsignedType

/-- `write_int`, which does not check a Fixnum -/
def writeInt : Integer → Except ConvError Int :=
  writeInteger .int (fun _ => pure ()) Bignum.checkInt Bignum.toSignedType

/-- `write_ulong` -/
def writeUlong : Integer → Except ConvError Int :=
  writeInteger .ulong Fixnum.checkPositive Bignum.checkUnsignedLong Bignum.toUnsignedLong

/-- `write_long` -/
def writeLong : Integer → Except ConvError Int :=
  writeInteger .long (fun _ => pure ()) Bignum.checkLong Bignum.toLong

/-- `write_ulonglong` -/
def writeUlonglong : Integer → Except ConvError Int :=
  writeInteger .ulonglong Fixnum.checkPositive Bignum.checkUnsignedLongLong
    Bignum.toUnsignedLongLong

/-- `write_longlong` -/
def writeLonglong : Integer → Except ConvError Int :=
  writeInteger .longlong (fun _ => pure ()) Bignum.checkLongLong Bignum.toLongLong

/-- `write_pointer` -/
def writePointer : Integer → Except ConvError Int :=
  writeInteger .pointer Fixnum.checkPositive Bignum.checkUint Bignum.toUnsignedType

/-- The branches of `write_data` for the integers. -/
def writeData : CType → Integer → Except ConvError Int
  | .uint8 => writeUint8
  | .int8 => writeInt8
  | .uint16 => writeUint16
  | .int16 => writeInt16
  | .uint32 => writeUint32
  | .int32 => writeInt32
  | .uint64 => writeUint64
  | .int64 => writeInt64
  | .uchar => writeUchar
  | .char => writeChar
  | .ushort => writeUshort
  | .short => writeShort
  | .uint => writeUint
  | .int => writeInt
  | .ulong => writeUlong
  | .long => writeLong
  | .ulonglong => writeUlonglong
  | .longlong => writeLonglong
  | .pointer => writePointer

end Yog
