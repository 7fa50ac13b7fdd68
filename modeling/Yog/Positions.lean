import Yog.RegexpObject
import Yog.YogString

/-!
# Positions

What is read and written at a position that a script hands over: the slices and subscripts of
`binary.c`, the copies and the assignment of `string.c`, and where its `do_match_or_search` has the
engine start. A copy reads only what there is; one that would read past the end has no result here.
-/

namespace Yog

/-- What ends a method that has no result. -/
inductive ReadError (E : Type) where
  | raised (e : E)
  /-- An item outside the sequence is read. -/
  | outside
  deriving DecidableEq

variable {E α : Type}

/-- `memcpy` of `size` items from `pos` on. -/
def copyItems (items : List α) (pos size : Nat) : Except (ReadError E) (List α) :=
  if pos + size ≤ items.length then .ok ((items.drop pos).take size) else .error .outside

namespace Binary

open YogString (Arg)

/-- `YogBinary_slice` -/
def sliceOf (self : List UInt8) (pos len : Int) : Except (ReadError StringError) (List UInt8) :=
  let size := self.length
  let pos := if pos < 0 then pos + size else pos
  if pos < 0 then .error (.raised (.valueError "Binary index out of range" []))
  else if len < 0 then .error (.raised (.valueError "Binary length out of range" []))
  else if size ≤ pos then .ok []
  else copyItems self pos.toNat len.toNat

/-- `slice`; a length that is left out is `none`, as nil is. -/
def slice (self : List UInt8) (pos : Arg) (len : Option Arg) :
    Except (ReadError StringError) (List UInt8) :=
  match pos, len with
  | .fixnum pos, none => sliceOf self pos self.length
  | .fixnum pos, some (.fixnum len) => sliceOf self pos len
  | .fixnum _, some len =>
    .error (.raised (.typeError "len must be Fixnum, not %C" [len.klass]))
  | pos, _ => .error (.raised (.typeError "pos must be Fixnum, not %C" [pos.klass]))

/-- `subscript` -/
def subscript (self : List UInt8) : Arg → Except (ReadError StringError) UInt8
  | .fixnum n =>
    let size := self.length
    let pos := n + if n < 0 then (size : Int) else 0
    if pos < 0 ∨ size ≤ pos then
      .error (.raised (.indexError "Binary index out of range: size is %u, but %d given" [size, n]))
    else match self[pos.toNat]? with
      | some c => .ok c
      | none => .error .outside
  | index => .error (.raised (.typeError "%s must be %s, not %C" ["index", "Fixnum", index.klass]))

end Binary

namespace YogString

/-- `slice`, with what `YogString_slice` reads. -/
def sliceWithin (self : List YogChar) (pos : Arg) (len : Option Int) :
    Except (ReadError StringError) (List YogChar) :=
  let maxIndex : Int := self.length - 1
  match pos with
  | .fixnum pos =>
    let n := normalizePosition pos maxIndex
    if n < 0 ∨ maxIndex < n then .ok []
    else match index2offset self n with
      | none =>
        .error (.raised (.indexError "Position %d out of range [-%u, %u]"
          [pos, self.length, self.length - 1]))
      | some start =>
        if len.any (· ≤ 0) then .ok []
        else
          let l := normalizeLength len maxIndex n
          match index2offset self (n + l - 1) with
          | none =>
            .error (.raised (.valueError "Length %d out of range [0, %d]"
              [len.getD 0, self.length - n]))
          | some stop => copyItems self start (stop - start + 1)
  | pos => .error (.raised (.typeError "pos must be Fixnum, not %C" [pos.klass]))

/-- `assign_subscript`: the string after it. -/
def assignSubscript (self : List YogChar) (index val : Arg) :
    Except (ReadError StringError) (List YogChar) :=
  match index, val with
  | .fixnum index, .string val =>
    match unnormalizedIndex2offset self index, val with
    | .error e, _ => .error (.raised e)
    | .ok offset, c :: _ => .ok (self.set offset c)
    | .ok _, [] => .error .outside
  | .fixnum _, _ => .error (.raised (.typeError "value must be String" []))
  | _, _ => .error (.raised (.typeError "String index must be Fixnum" []))

/-- Where `do_match_or_search` has the engine start, if at all. The position is tested as it is
counted from the start, but the engine starts at the one that was handed over. -/
def engineStart (self : List YogChar) (pos : Int) : Option Int :=
  let n := normalizeIndex self pos
  if 0 < self.length ∧ index2offset self n = none then none else some pos

end YogString

end Yog
