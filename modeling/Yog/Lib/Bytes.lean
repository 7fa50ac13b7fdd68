import Mathlib.Data.List.Basic
import Mathlib.Tactic.Ring

/-!
# Fixed-width numbers in a byte string

A number is written little-endian in a given number of bytes and read back from a position in a
longer string. What is read is the number modulo `256 ^ w` (`value_littleEndian`), and a reader
positioned just before a written piece sees exactly that piece (`slice_append`).
-/

namespace Bytes

/-- The `w` low bytes of `n`, the least significant one first. -/
def littleEndian : Nat → Nat → List UInt8
  | 0, _ => []
  | w + 1, n => UInt8.ofNat n :: littleEndian w (n / 256)

/-- The number a byte string spells, the least significant byte first. -/
def value : List UInt8 → Nat
  | [] => 0
  | b :: bs => b.toNat + 256 * value bs

/-- The `w` bytes at position `pos`, if the string has them all. -/
def slice (bytes : List UInt8) (pos w : Nat) : Option (List UInt8) :=
  if pos + w ≤ bytes.length then some ((bytes.drop pos).take w) else none

@[simp]
theorem length_littleEndian : ∀ w n : Nat, (littleEndian w n).length = w
  | 0, _ => rfl
  | w + 1, n => by simp [littleEndian, length_littleEndian w]

theorem value_littleEndian : ∀ w n : Nat, value (littleEndian w n) = n % 256 ^ w
  | 0, n => by simp [littleEndian, value, Nat.mod_one]
  | w + 1, n => by
    have h : n % 256 ^ (w + 1) = n % 256 + 256 * (n / 256 % 256 ^ w) := by
      rw [show 256 ^ (w + 1) = 256 * 256 ^ w by ring, Nat.mod_mul]
    simp only [littleEndian, value, UInt8.toNat_ofNat', value_littleEndian w, h]

/-- A reader at the end of `before` sees what is written there. -/
theorem slice_append (before piece after : List UInt8) :
    slice (before ++ piece ++ after) before.length piece.length = some piece := by
  simp [slice]

end Bytes
