import Mathlib.Data.Nat.Bits
import Mathlib.Data.Fin.Basic
import Mathlib.Tactic.Ring

/-!
# Character encodings

A `YogEncoding` is four functions; strings are converted a character at a time. A `char` is the byte
it is stored in, and what is read behind the last byte of a sequence is the terminator.
-/

namespace Yog

abbrev Byte := Fin 256

/-- The 32 bits of an `unsigned int`. -/
abbrev YogChar := Fin (2 ^ 32)

instance neZero_byte : NeZero 256 := ⟨by decide⟩

instance neZero_yogChar : NeZero (2 ^ 32) := ⟨by decide⟩

/-- What is kept of a value that is stored into a `char`. -/
def toByte (n : Nat) : Byte := Fin.ofNat 256 n

/-- What is kept of a value that is returned as a `YogChar`. -/
def toYogChar (n : Nat) : YogChar := Fin.ofNat (2 ^ 32) n

def byteAt (s : List Byte) (i : Nat) : Nat := (s.getD i 0).val

structure Encoding where
  /-- How many bytes the character at the head takes. -/
  getCharBytes : List Byte → Nat
  convCharToYog : List Byte → YogChar
  getYogCharBytes : YogChar → Nat
  convCharFromYog : YogChar → List Byte

namespace Encoding

variable (self : Encoding)

/-- `count_chars`; the steps left are the fuel. -/
def countChars : Nat → List Byte → Nat
  | _, [] => 0
  | 0, _ => 0
  | fuel + 1, s => countChars fuel (s.drop (self.getCharBytes s)) + 1

/-- The loop of `YogEncoding_conv_to_yog`, over the characters still to convert. -/
def convToYogLoop : Nat → List Byte → List YogChar
  | 0, _ => []
  | n + 1, s => self.convCharToYog s :: convToYogLoop n (s.drop (self.getCharBytes s))

/-- `YogEncoding_conv_to_yog`. No character takes less than a byte, so the length is fuel enough. -/
def convToYog (s : List Byte) : List YogChar := self.convToYogLoop (self.countChars s.length s) s

/-- `compute_bytes` -/
def computeBytes (s : List YogChar) : Nat := (s.map self.getYogCharBytes).sum

/-- The bytes `YogEncoding_conv_from_yog` writes before the terminator. -/
def convFromYog (s : List YogChar) : List Byte := s.flatMap self.convCharFromYog

end Encoding

/-- `isascii` -/
def isascii (c : Nat) : Prop := c < 0x80

instance (c : Nat) : Decidable (isascii c) := inferInstanceAs (Decidable (_ < _))

/-- `utf8_get_char_bytes` -/
def utf8GetCharBytes (s : List Byte) : Nat :=
  if byteAt s 0 &&& 0xfc = 0xfc then 6
  else if byteAt s 0 &&& 0xf8 = 0xf8 then 5
  else if byteAt s 0 &&& 0xf0 = 0xf0 then 4
  else if byteAt s 0 &&& 0xe0 = 0xe0 then 3
  else if byteAt s 0 &&& 0xc0 = 0xc0 then 2
  else 1

/-- A `char` is signed, so a byte from `0x80` on is widened with ones. -/
def signExtend (b : Nat) : Nat := if b < 0x80 then b else b + (2 ^ 32 - 2 ^ 8)

/-- `utf8_conv_char_to_yog` -/
def utf8ConvCharToYog (s : List Byte) : YogChar :=
  match utf8GetCharBytes s with
  | 1 => toYogChar (signExtend (byteAt s 0))
  | 2 => toYogChar (((byteAt s 0 &&& 0x1f) <<< 6) + (byteAt s 1 &&& 0x3f))
  | 3 => toYogChar (((byteAt s 0 &&& 0x0f) <<< 12) + ((byteAt s 1 &&& 0x3f) <<< 6) +
      (byteAt s 2 &&& 0x3f))
  | 4 => toYogChar (((byteAt s 0 &&& 0x07) <<< 18) + ((byteAt s 1 &&& 0x3f) <<< 12) +
      ((byteAt s 2 &&& 0x3f) <<< 12) + (byteAt s 3 &&& 0x3f))
  | 5 => toYogChar (((byteAt s 0 &&& 0x03) <<< 24) + ((byteAt s 1 &&& 0x3f) <<< 18) +
      ((byteAt s 2 &&& 0x3f) <<< 12) + ((byteAt s 3 &&& 0x3f) <<< 6) + (byteAt s 4 &&& 0x3f))
  | 6 => toYogChar (((byteAt s 0 &&& 0x01) <<< 30) + ((byteAt s 1 &&& 0x03) <<< 24) +
      ((byteAt s 2 &&& 0x3f) <<< 18) + ((byteAt s 3 &&& 0x3f) <<< 12) +
      ((byteAt s 4 &&& 0x3f) <<< 6) + (byteAt s 5 &&& 0x3f))
  | _ => toYogChar 63

/-- `utf8_get_yog_char_bytes` -/
def utf8GetYogCharBytes (c : YogChar) : Nat :=
  if isascii c.val then 1
  else if c.val < 0x800 then 2
  else if c.val < 0x10000 then 3
  else if c.val < 0x200000 then 4
  else if c.val < 0x4000000 then 5
  else 6

/-- A byte behind the first one: six bits from the `k`th on. -/
def utf8Tail (c k : Nat) : Byte := toByte (0x80 ||| ((c >>> k) &&& 0x3f))

/-- `utf8_conv_char_from_yog` -/
def utf8ConvCharFromYog (c : YogChar) : List Byte :=
  if isascii c.val then [toByte c.val]
  else if c.val < 0x800 then [toByte (0xc0 ||| (c.val >>> 6)), utf8Tail c.val 0]
  else if c.val < 0x10000 then
    [toByte (0xe0 ||| (c.val >>> 12)), utf8Tail c.val 6, utf8Tail c.val 0]
  else if c.val < 0x200000 then
    [toByte (0xf0 ||| (c.val >>> 18)), utf8Tail c.val 12, utf8Tail c.val 6, utf8Tail c.val 0]
  else if c.val < 0x4000000 then
    [toByte (0xf8 ||| (c.val >>> 24)), utf8Tail c.val 18, utf8Tail c.val 12, utf8Tail c.val 6,
      utf8Tail c.val 0]
  else
    [toByte (0xfc ||| (c.val >>> 30)), utf8Tail c.val 24, utf8Tail c.val 18, utf8Tail c.val 12,
      utf8Tail c.val 6, utf8Tail c.val 0]

/-- `YogEncoding_create_utf8` -/
def utf8 : Encoding where
  getCharBytes := utf8GetCharBytes
  convCharToYog := utf8ConvCharToYog
  getYogCharBytes := utf8GetYogCharBytes
  convCharFromYog := utf8ConvCharFromYog

end Yog
