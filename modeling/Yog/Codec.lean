import Yog.IntegerText
import Yog.TableEncoding

/-!
# Encodings and their buffers

The encodings once more, with what their functions read of the bytes they are given and where they
write. The bytes are those from `pc` on up to `end`; `none` is a read at `end` or behind it. What is
wrong with a table stays in the character that was read for it.
-/

namespace Yog

structure Codec where
  getCharBytes : List Byte → Option Nat
  convCharToYog : List Byte → Option (Except Fault YogChar)
  getYogCharBytes : YogChar → Except Fault Nat
  convCharFromYog : YogChar → Except Fault (List Byte)

namespace Codec

section Passes

variable (self : Codec)

/-- `count_chars`; the steps left are the fuel, and without any it has not ended. -/
def countChars : Nat → List Byte → Option Nat
  | _, [] => some 0
  | 0, _ :: _ => none
  | fuel + 1, b :: s => do
    let bytes ← self.getCharBytes (b :: s)
    let n ← countChars fuel ((b :: s).drop bytes)
    return n + 1

/-- The loop of `YogEncoding_conv_to_yog`: the characters, and what of the buffer is left. -/
def convToYogLoop : Nat → List Byte → Option (List (Except Fault YogChar) × List Byte)
  | 0, s => some ([], s)
  | n + 1, s => do
    let c ← self.convCharToYog s
    let bytes ← self.getCharBytes s
    let (cs, rest) ← convToYogLoop n (s.drop bytes)
    return (c :: cs, rest)

/-- `compute_bytes` -/
def computeBytes : List YogChar → Except Fault Nat
  | [] => pure 0
  | c :: cs => do
    let n ← self.getYogCharBytes c
    let ns ← computeBytes cs
    return n + ns

/-- The loop of `YogEncoding_conv_from_yog` and the terminator behind it, into a buffer of `size`
bytes of which `buf` are written. -/
def convFromYogLoop (size : Nat) : List Byte → List YogChar → Except Fault (List Byte)
  | buf, [] => if buf.length < size then pure (buf ++ [toByte 0]) else throw .outOfRange
  | buf, c :: cs => do
    let bytes ← self.convCharFromYog c
    if buf.length + bytes.length ≤ size then convFromYogLoop size (buf ++ bytes) cs
    else throw .outOfRange

/-- `YogEncoding_conv_from_yog`: the size of the binary that is made, and the bytes in it. -/
def convFromYog (s : List YogChar) : Except Fault (Nat × List Byte) := do
  let bytesNum ← self.computeBytes s
  let bin ← self.convFromYogLoop (bytesNum + 1) [] s
  return (bytesNum + 1, bin)

end Passes

/-- `s[i]` -/
def readByte (s : List Byte) (i : Nat) : Option Nat := s[i]?.map fun b => b.val

/-- `utf8_get_char_bytes` -/
def utf8GetCharBytes (s : List Byte) : Option Nat := do
  let c ← readByte s 0
  if c &&& 0xfc = 0xfc then return 6
  if c &&& 0xf8 = 0xf8 then return 5
  if c &&& 0xf0 = 0xf0 then return 4
  if c &&& 0xe0 = 0xe0 then return 3
  if c &&& 0xc0 = 0xc0 then return 2
  return 1

/-- `utf8_conv_char_to_yog` -/
def utf8ConvCharToYog (s : List Byte) : Option (Except Fault YogChar) := do
  let c0 ← readByte s 0
  match ← utf8GetCharBytes s with
  | 1 => return .ok (toYogChar (signExtend c0))
  | 2 =>
    let c1 ← readByte s 1
    return .ok (toYogChar (((c0 &&& 0x1f) <<< 6) + (c1 &&& 0x3f)))
  | 3 =>
    let c1 ← readByte s 1
    let c2 ← readByte s 2
    return .ok (toYogChar (((c0 &&& 0x0f) <<< 12) + ((c1 &&& 0x3f) <<< 6) + (c2 &&& 0x3f)))
  | 4 =>
    let c1 ← readByte s 1
    let c2 ← readByte s 2
    let c3 ← readByte s 3
    return .ok (toYogChar (((c0 &&& 0x07) <<< 18) + ((c1 &&& 0x3f) <<< 12) +
      ((c2 &&& 0x3f) <<< 12) + (c3 &&& 0x3f)))
  | 5 =>
    let c1 ← readByte s 1
    let c2 ← readByte s 2
    let c3 ← readByte s 3
    let c4 ← readByte s 4
    return .ok (toYogChar (((c0 &&& 0x03) <<< 24) + ((c1 &&& 0x3f) <<< 18) +
      ((c2 &&& 0x3f) <<< 12) + ((c3 &&& 0x3f) <<< 6) + (c4 &&& 0x3f)))
  | 6 =>
    let c1 ← readByte s 1
    let c2 ← readByte s 2
    let c3 ← readByte s 3
    let c4 ← readByte s 4
    let c5 ← readByte s 5
    return .ok (toYogChar (((c0 &&& 0x01) <<< 30) + ((c1 &&& 0x03) <<< 24) +
      ((c2 &&& 0x3f) <<< 18) + ((c3 &&& 0x3f) <<< 12) + ((c4 &&& 0x3f) <<< 6) + (c5 &&& 0x3f)))
  | _ => return .ok (toYogChar '?'.toNat)

/-- `YogEncoding_create_utf8` -/
def utf8 : Codec where
  getCharBytes := utf8GetCharBytes
  convCharToYog := utf8ConvCharToYog
  getYogCharBytes c := .ok (utf8GetYogCharBytes c)
  convCharFromYog c := .ok (utf8ConvCharFromYog c)

/-- `YogEncoding_create_ascii`, whose `ascii_get_char_bytes` reads nothing. -/
def ascii : Codec where
  getCharBytes _ := some 1
  convCharToYog s := do
    let c ← readByte s 0
    return .ok (toYogChar (signExtend c))
  getYogCharBytes c := .ok (Yog.ascii.getYogCharBytes c)
  convCharFromYog c := .ok (Yog.ascii.convCharFromYog c)

open TableEncoding

/-- `shift_jis_get_char_bytes` -/
def shiftJisGetCharBytes (s : List Byte) : Option Nat := do
  let c ← readByte s 0
  if 0x81 ≤ c ∧ c ≤ 0x9f then return 2
  if 0xe0 ≤ c ∧ c ≤ 0xfc then return 2
  return 1

/-- `shift_jis_conv_char_to_yog` -/
def shiftJisConvCharToYog (m : Mapping ShiftJis.Code) (s : List Byte) :
    Option (Except Fault YogChar) := do
  let c1 ← readByte s 0
  if isascii c1 then return .ok (toYogChar c1)
  if 0xa1 ≤ c1 ∧ c1 ≤ 0xdf then return getAt (m.writeTable ShiftJis.iterateHankaku) (c1 - 0xa1)
  match ShiftJis.rowOf c1 with
  | none => return .ok (toYogChar '?'.toNat)
  | some row =>
    let c2 ← readByte s 1
    match ShiftJis.columnOf c2 with
    | none => return .ok (toYogChar '?'.toNat)
    | some column =>
      return getAt (m.writeTable ShiftJis.iterateZenkaku)
        (((0x7e - 0x40 + 1) + (0xfc - 0x80 + 1)) * row + column)

/-- `YogEncoding_create_shift_jis` -/
def shiftJis (m : Mapping ShiftJis.Code) : Codec where
  getCharBytes := shiftJisGetCharBytes
  convCharToYog := shiftJisConvCharToYog m
  getYogCharBytes := tableGetYogCharBytes m
  convCharFromYog := tableConvCharFromYog m

/-- `euc_jp_get_char_bytes` -/
def eucJpGetCharBytes (s : List Byte) : Option Nat := do
  let c ← readByte s 0
  if (0xa1 ≤ c ∧ c ≤ 0xfe) ∨ c = 0x8e then return 2
  if c = 0x8f then return 3
  return 1

/-- `euc_jp_conv_char_to_yog`. A byte that starts no character is taken for the first of two. -/
def eucJpConvCharToYog (m : Mapping EucJp.Code) (s : List Byte) :
    Option (Except Fault YogChar) := do
  let c1 ← readByte s 0
  if isascii c1 then return .ok (toYogChar c1)
  if c1 = 0x8e then
    let c2 ← readByte s 1
    if c2 < 0xa1 then return .error .outOfRange
    return getAt (m.writeTable EucJp.iterateHankaku) (c2 - 0xa1)
  if c1 = 0x8f then
    let c2 ← readByte s 1
    let c3 ← readByte s 2
    return getAt (m.writeTable EucJp.iterate3bytes)
      (EucJp.indexOf (EucJp.fromA1 (EucJp.asChar c2)) (EucJp.fromA1 (EucJp.asChar c3)))
  let c2 ← readByte s 1
  return getAt (m.writeTable EucJp.iterateZenkaku)
    (EucJp.indexOf (EucJp.fromA1 c1) (EucJp.fromA1 c2))

/-- `YogEncoding_create_euc_jp` -/
def eucJp (m : Mapping EucJp.Code) : Codec where
  getCharBytes := eucJpGetCharBytes
  convCharToYog := eucJpConvCharToYog m
  getYogCharBytes := tableGetYogCharBytes m
  convCharFromYog := tableConvCharFromYog m

end Codec

end Yog
