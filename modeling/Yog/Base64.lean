import Mathlib.Data.Int.Bitwise
import Yog.StringScript

/-!
# Base64

`lib/base64.yog`, and what it uses of `enumerable.yog` and of `binary.c`. The methods of
`enumerable.yog` make a new object of the class of the receiver, which is a string here.
-/

namespace Yog

namespace Enumerable

variable {α : Type}

/-- The loop of `divide`: the groups made, the elements of the last one and their number. -/
def divideLoop (size : ℕ) : List α → List (List α) → List α → ℕ → List (List α)
  | [], a, last, _ => a ++ [last]
  | elem :: rest, a, last, i =>
    if i < size then divideLoop size rest a (last ++ [elem]) (i + 1)
    else divideLoop size rest (a ++ [last]) [elem] 1

/-- `divide` -/
def divide (self : List α) (size : ℕ) : List (List α) := divideLoop size self [] [] 0

/-- `select` -/
def select (self : List α) (block : α → Bool) : List α :=
  self.foldl (fun a elem => if block elem then a ++ [elem] else a) []

end Enumerable

/-- `<<` of a binary and a number. -/
def lshiftInt (bin : List Byte) (n : Int) : Except StringError (List Byte) :=
  if n < 0 ∨ 255 < n then
    .error (.valueError "Value must be between 0 and 255, but %d given" [n])
  else .ok (bin ++ [toByte n.toNat])

namespace Base64

open YogString (subscript equal fromString)
open StringScript (find)
open Enumerable

/-- `ALPHA` -/
def alpha : List YogChar :=
  fromString "ABCDEFGHIJKLMNOPQRSTUVWXYZabcdefghijklmnopqrstuvwxyz0123456789+/="

/-- `ALPHA.divide(1).include?` of a character. -/
def included (c : YogChar) : Bool := (divide alpha 1).any fun elem => equal elem [c]

/-- What `base64_to_bin` does with a group of characters. -/
def base64Group (bin : List Byte) (b64 : List YogChar) : Except StringError (List Byte) := do
  let c0 ← subscript b64 (.fixnum 0)
  let c1 ← subscript b64 (.fixnum 1)
  let bin ← lshiftInt bin (((← find alpha c0 0) <<< 2) + ((← find alpha c1 0) >>> 4))
  let c2 ← subscript b64 (.fixnum 2)
  if equal c2 (fromString "=") then return bin
  let bin ← lshiftInt bin
    (((Int.land (← find alpha c1 0) 0x0f) <<< 4) + ((← find alpha c2 0) >>> 2))
  let c3 ← subscript b64 (.fixnum 3)
  if equal c3 (fromString "=") then return bin
  lshiftInt bin (((Int.land (← find alpha c2 0) 0x03) <<< 6) + (← find alpha c3 0))

/-- `base64_to_bin` -/
def base64ToBin (s : List YogChar) : Except StringError (List Byte) :=
  (divide (select s included) 4).foldlM base64Group []

end Base64

end Yog
