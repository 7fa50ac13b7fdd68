import Yog.TextEncoding
import Mathlib.Data.List.Range

/-!
# Shift_JIS and EUC-JP

The two encodings are read from tables that a script writes from the rows of a file. A table is a C
array and a row of it may be `NULL`, so reading a character can be a fault; the first one ends the
conversion of the whole string.
-/

namespace Yog

inductive Fault
  | nullPointer
  | outOfRange
  /-- A search that never ends runs out of stack. -/
  | stackOverflow

/-- A `YogEncoding` whose functions read tables. -/
structure TableEncoding where
  getCharBytes : List Byte → Nat
  convCharToYog : List Byte → Except Fault YogChar
  getYogCharBytes : YogChar → Except Fault Nat
  convCharFromYog : YogChar → Except Fault (List Byte)

namespace TableEncoding

section Strings

variable (enc : TableEncoding)

/-- `count_chars`; the steps left are the fuel. -/
def countChars : Nat → List Byte → Nat
  | _, [] => 0
  | 0, _ => 0
  | fuel + 1, s => countChars fuel (s.drop (enc.getCharBytes s)) + 1

/-- The loop of `YogEncoding_conv_to_yog`, over the characters still to convert. -/
def convToYogLoop : Nat → List Byte → Except Fault (List YogChar)
  | 0, _ => .ok []
  | n + 1, s => do
    let c ← enc.convCharToYog s
    let cs ← convToYogLoop n (s.drop (enc.getCharBytes s))
    .ok (c :: cs)

/-- `YogEncoding_conv_to_yog` -/
def convToYog (s : List Byte) : Except Fault (List YogChar) :=
  enc.convToYogLoop (enc.countChars s.length s) s

/-- `compute_bytes` -/
def computeBytes : List YogChar → Except Fault Nat
  | [] => .ok 0
  | c :: cs => do
    let n ← enc.getYogCharBytes c
    let ns ← computeBytes cs
    .ok (n + ns)

/-- The loop of `YogEncoding_conv_from_yog` -/
def convFromYogLoop : List YogChar → Except Fault (List Byte)
  | [] => .ok []
  | c :: cs => do
    let b ← enc.convCharFromYog c
    let bs ← convFromYogLoop cs
    .ok (b ++ bs)

/-- The bytes `YogEncoding_conv_from_yog` writes before the terminator. -/
def convFromYog (s : List YogChar) : Except Fault (List Byte) := do
  let _bytesNum ← enc.computeBytes s
  enc.convFromYogLoop s

end Strings

/-- A row of the file: a code, and the code points it stands for. -/
structure Entry where
  bin : List Byte
  unicode : List Nat

def Entry.first (e : Entry) : Nat := e.unicode.headD 0

/-- What `write_bin2yog_entry` writes for the row, as it is stored. -/
def Entry.value (e : Entry) : YogChar :=
  toYogChar (e.unicode.tail.foldl (fun x y => (x <<< 16) + y) e.first)

/-- The rows `read_entries` keeps of a file. No two have the same code; from the first code point of
the tables on, a code is one of the encoding. -/
structure Mapping (Code : List Byte → Prop) where
  entries : List Entry
  nodup : (entries.map Entry.bin).Nodup
  coded : ∀ e ∈ entries, 0xa0 ≤ e.first → Code e.bin
  few : entries.length ≤ 11549

namespace Mapping

variable {Code : List Byte → Prop} (m : Mapping Code)

/-- `u2entry`; a later row replaces an earlier one. -/
def u2entry (u : Nat) : Option Entry := m.entries.reverse.find? fun e => e.first = u

/-- `bin2entry` -/
def bin2entry (bin : List Byte) : Option Entry := m.entries.reverse.find? fun e => e.bin = bin

/-- `write_table` -/
def writeTable (bins : List (List Byte)) : List YogChar :=
  bins.map fun bin => ((m.bin2entry bin).map Entry.value).getD (toYogChar 0x3f)

/-- `write_yog2bin_table` -/
def writeYog2binTable (us : List Nat) : List (Option (List Byte)) :=
  us.map fun u => (m.u2entry u).map Entry.bin

/-- `write_yog2bin_table2`: the rows, and the number it defines for them. -/
def writeYog2binTable2 (us : List Nat) : List (Nat × List Byte) × Nat :=
  (us.filterMap fun u => (m.u2entry u).map fun e => (u, e.bin), us.length)

end Mapping

def iterateUnicode1 : List Nat := List.range' 0xa0 (0x1ff + 1 - 0xa0)

def iterateUnicode2 : List Nat := List.range' 0x250 (0x451 + 1 - 0x250)

def iterateUnicode3 : List Nat :=
  List.range' 0x1e3e (0x9fa2 + 1 - 0x1e3e) ++ List.range' 0xf91d (0xff9f + 1 - 0xf91d) ++
    List.range' 0x2000b (0x2a6b2 + 1 - 0x2000b)

/-- `table[i]` -/
def getAt {α : Type} (table : List α) (i : Nat) : Except Fault α :=
  match table[i]? with
  | some a => .ok a
  | none => .error .outOfRange

/-- `binary_search`; the calls the stack has room for are the fuel. -/
def binarySearch (table : List (Nat × List Byte)) (c : Nat) :
    Nat → Nat → Nat → Except Fault (Option (List Byte))
  | 0, _, _ => .error .stackOverflow
  | fuel + 1, min, max =>
    if max < min then .ok none
    else do
      let pos := (min + max) % 2 ^ 64 / 2
      let entry ← getAt table pos
      if entry.1 = c then .ok (some entry.2)
      else if entry.1 < c then binarySearch table c fuel ((pos + 1) % 2 ^ 64) max
      else binarySearch table c fuel min ((pos + 2 ^ 64 - 1) % 2 ^ 64)

/-- `yog2shift_jis` and `yog2euc_jp`, with the tables of the one or the other. -/
def yog2bin {Code : List Byte → Prop} (m : Mapping Code) (c : YogChar) :
    Except Fault (Option (List Byte)) :=
  if 0xa0 ≤ c.val ∧ c.val ≤ 0x1ff then getAt (m.writeYog2binTable iterateUnicode1) (c.val - 0xa0)
  else if 0x250 ≤ c.val ∧ c.val ≤ 0x451 then
    getAt (m.writeYog2binTable iterateUnicode2) (c.val - 0x250)
  else if c.val < 0x1e3e ∨ 0x2a6b2 < c.val then .ok (some [toByte 0x3f])
  else
    let table := m.writeYog2binTable2 iterateUnicode3
    binarySearch table.1 c.val (2 ^ 32) 0 (table.2 - 1)

/-- The bytes of a C string up to its terminator. -/
def cString : Option (List Byte) → Except Fault (List Byte)
  | some s => .ok (s.takeWhile fun b => b.val ≠ 0)
  | none => .error .nullPointer

/-- `shift_jis_conv_char_from_yog` and `euc_jp_conv_char_from_yog` -/
def tableConvCharFromYog {Code : List Byte → Prop} (m : Mapping Code) (c : YogChar) :
    Except Fault (List Byte) := do
  let s ← yog2bin m c
  cString s

/-- `shift_jis_get_yog_char_bytes` and `euc_jp_get_yog_char_bytes` -/
def tableGetYogCharBytes {Code : List Byte → Prop} (m : Mapping Code) (c : YogChar) :
    Except Fault Nat := do
  let s ← yog2bin m c
  let bytes ← cString s
  .ok bytes.length

namespace ShiftJis

/-- A byte behind the first one. -/
def Trail (b : Byte) : Prop := 0x40 ≤ b.val ∧ b.val ≤ 0x7e ∨ 0x80 ≤ b.val ∧ b.val ≤ 0xfc

/-- The codes of the file. -/
inductive Code : List Byte → Prop
  | ascii {b : Byte} : 0 < b.val → b.val < 0x80 → Code [b]
  | hankaku {b : Byte} : 0xa1 ≤ b.val → b.val ≤ 0xdf → Code [b]
  | zenkaku {b b' : Byte} : 0x81 ≤ b.val ∧ b.val ≤ 0x9f ∨ 0xe0 ≤ b.val ∧ b.val ≤ 0xfc →
    Trail b' → Code [b, b']

/-- `iterate_higher_byte` -/
def iterateHigherByte : List Nat :=
  List.range' 0x81 (0x9f + 1 - 0x81) ++ List.range' 0xe0 (0xef + 1 - 0xe0)

/-- `iterate_lower_byte` -/
def iterateLowerByte : List Nat :=
  List.range' 0x40 (0x7e + 1 - 0x40) ++ List.range' 0x80 (0xfc + 1 - 0x80)

/-- `iterate_hankaku` -/
def iterateHankaku : List (List Byte) := (List.range' 0xa1 (0xdf + 1 - 0xa1)).map fun c => [toByte c]

/-- `iterate_zenkaku` -/
def iterateZenkaku : List (List Byte) :=
  iterateHigherByte.flatMap fun c1 => iterateLowerByte.map fun c2 => [toByte c1, toByte c2]

/-- `shift_jis_get_char_bytes` -/
def getCharBytes (s : List Byte) : Nat :=
  if 0x81 ≤ byteAt s 0 ∧ byteAt s 0 ≤ 0x9f then 2
  else if 0xe0 ≤ byteAt s 0 ∧ byteAt s 0 ≤ 0xfc then 2
  else 1

/-- The `n` of `shift_jis_conv_char_to_yog`. The lead bytes of the second range are counted from
`0xc0`. -/
def rowOf (c1 : Nat) : Option Nat :=
  if 0x81 ≤ c1 ∧ c1 ≤ 0x9f then some (c1 - 0x81)
  else if 0xe0 ≤ c1 ∧ c1 ≤ 0xfc then some (c1 - 0xc0 + 0x9f - 0x81 + 1)
  else none

/-- The `m` of `shift_jis_conv_char_to_yog`. -/
def columnOf (c2 : Nat) : Option Nat :=
  if 0x40 ≤ c2 ∧ c2 ≤ 0x7e then some (c2 - 0x40)
  else if 0x80 ≤ c2 ∧ c2 ≤ 0xfc then some (c2 - 0x80 + 0x7e - 0x40 + 1)
  else none

/-- `shift_jis_conv_char_to_yog` -/
def convCharToYog (m : Mapping Code) (s : List Byte) : Except Fault YogChar :=
  if isascii (byteAt s 0) then .ok (toYogChar (byteAt s 0))
  else if 0xa1 ≤ byteAt s 0 ∧ byteAt s 0 ≤ 0xdf then
    getAt (m.writeTable iterateHankaku) (byteAt s 0 - 0xa1)
  else
    match rowOf (byteAt s 0), columnOf (byteAt s 1) with
    | some row, some column =>
      getAt (m.writeTable iterateZenkaku)
        (((0x7e - 0x40 + 1) + (0xfc - 0x80 + 1)) * row + column)
    | _, _ => .ok (toYogChar 0x3f)

end ShiftJis

/-- `YogEncoding_create_shift_jis` -/
def shiftJis (m : Mapping ShiftJis.Code) : TableEncoding where
  getCharBytes := ShiftJis.getCharBytes
  convCharToYog := ShiftJis.convCharToYog m
  getYogCharBytes := tableGetYogCharBytes m
  convCharFromYog := tableConvCharFromYog m

namespace EucJp

/-- A byte behind the first one. -/
def Trail (b : Byte) : Prop := 0xa1 ≤ b.val ∧ b.val ≤ 0xfe

/-- The codes of the file. -/
inductive Code : List Byte → Prop
  | ascii {b : Byte} : 0 < b.val → b.val < 0x80 → Code [b]
  | hankaku {b b' : Byte} : b.val = 0x8e → Trail b' → Code [b, b']
  | zenkaku {b b' : Byte} : Trail b → Trail b' → Code [b, b']
  | threeBytes {b b' b'' : Byte} : b.val = 0x8f → Trail b' → Trail b'' → Code [b, b', b'']

/-- `iterate_euc_jp_range` -/
def iterateEucJpRange : List Nat := List.range' 0xa1 (0xfe + 1 - 0xa1)

/-- `iterate_hankaku` -/
def iterateHankaku : List (List Byte) := iterateEucJpRange.map fun b => [toByte 0x8e, toByte b]

/-- `iterate_zenkaku` -/
def iterateZenkaku : List (List Byte) :=
  iterateEucJpRange.flatMap fun b1 => iterateEucJpRange.map fun b2 => [toByte b1, toByte b2]

/-- `iterate_3bytes` -/
def iterate3bytes : List (List Byte) :=
  iterateEucJpRange.flatMap fun b1 =>
    iterateEucJpRange.map fun b2 => [toByte 0x8f, toByte b1, toByte b2]

/-- `euc_jp_get_char_bytes` -/
def getCharBytes (s : List Byte) : Nat :=
  if (0xa1 ≤ byteAt s 0 ∧ byteAt s 0 ≤ 0xfe) ∨ byteAt s 0 = 0x8e then 2
  else if byteAt s 0 = 0x8f then 3
  else 1

/-- A byte as a `char`, which is signed. -/
def asChar (b : Nat) : Int := if b < 0x80 then b else b - 2 ^ 8

/-- `x - 0xa1` as it is stored into a `uint_t`. -/
def fromA1 (x : Int) : Nat := ((x - 0xa1) % 2 ^ 64).toNat

/-- `(0xfe - 0xa1 + 1) * n + m` -/
def indexOf (n m : Nat) : Nat := ((0xfe - 0xa1 + 1) * n + m) % 2 ^ 64

/-- `euc_jp_conv_char_to_yog`. The bytes of a three-byte code are not cast: they are `char`s. -/
def convCharToYog (m : Mapping Code) (s : List Byte) : Except Fault YogChar :=
  if isascii (byteAt s 0) then .ok (toYogChar (byteAt s 0))
  else if byteAt s 0 = 0x8e then
    if byteAt s 1 < 0xa1 then .error .outOfRange
    else getAt (m.writeTable iterateHankaku) (byteAt s 1 - 0xa1)
  else if byteAt s 0 = 0x8f then
    getAt (m.writeTable iterate3bytes)
      (indexOf (fromA1 (asChar (byteAt s 1))) (fromA1 (asChar (byteAt s 2))))
  else
    getAt (m.writeTable iterateZenkaku) (indexOf (fromA1 (byteAt s 0)) (fromA1 (byteAt s 1)))

end EucJp

/-- `YogEncoding_create_euc_jp` -/
def eucJp (m : Mapping EucJp.Code) : TableEncoding where
  getCharBytes := EucJp.getCharBytes
  convCharToYog := EucJp.convCharToYog m
  getYogCharBytes := tableGetYogCharBytes m
  convCharFromYog := tableConvCharFromYog m

end TableEncoding

end Yog
