import Yog.Eval
import Mathlib.Tactic

/-!
# Writing and reading an instruction

An instruction is as long in bytes as `instSize` says, and a fetch where it was written reads it
back, provided its operands fit the width they are written at (`fetch_bytes`). Stored instructions
do, destinations apart (`inRange_narrow`).
-/

namespace Yog

namespace Operand

/-- The operand is the number its width holds. -/
def InRange : Operand Nat → Prop
  | .uint8 n => n < 2 ^ 8
  | .uint n => n < 2 ^ 64
  | .id _ => True
  | .pc dest => dest < 2 ^ 64

theorem length_bytes (o : Operand Nat) : o.bytes.length = o.type.size := by
  cases o <;> simp [bytes, type, OperandType.size]

theorem operand_value {o : Operand Nat} (h : o.InRange) :
    o.type.operand (Bytes.value o.bytes) = o := by
  cases o with
  | uint8 n =>
    have hn : n % 256 ^ 1 = n := Nat.mod_eq_of_lt (by simpa [InRange] using h)
    simp only [type, OperandType.operand, bytes, Bytes.value_littleEndian, hn]
  | uint n =>
    have hn : n % 256 ^ 8 = n := Nat.mod_eq_of_lt (by simpa [InRange] using h)
    simp only [type, OperandType.operand, bytes, Bytes.value_littleEndian, hn]
  | id i =>
    have hi : i.toNat % 256 ^ 8 = i.toNat := Nat.mod_eq_of_lt (by simpa using i.toNat_lt)
    simp only [type, OperandType.operand, bytes, Bytes.value_littleEndian, hi, UInt64.ofNat_toNat]
  | pc dest =>
    have hn : dest % 256 ^ 8 = dest := Nat.mod_eq_of_lt (by simpa [InRange] using h)
    simp only [type, OperandType.operand, bytes, Bytes.value_littleEndian, hn]

end Operand

theorem OperandType.size_pos (t : OperandType) : 0 < t.size := by
  cases t <;> decide

theorem readOperand_bytes (before after : List UInt8) {o : Operand Nat} (h : o.InRange) :
    readOperand (before ++ o.bytes ++ after) before.length o.type
      = some (o, before.length + o.type.size) := by
  have hlt : before.length < (before ++ o.bytes ++ after).length := by
    have := o.type.size_pos
    simp only [List.length_append, o.length_bytes]
    omega
  have hs : Bytes.slice (before ++ o.bytes ++ after) before.length o.type.size = some o.bytes := by
    rw [← o.length_bytes]
    exact Bytes.slice_append before o.bytes after
  simp only [readOperand, hlt, if_true, hs, Option.map_some, Operand.operand_value h]

theorem readOperands_bytes (after : List UInt8) :
    ∀ (before : List UInt8) (os : List (Operand Nat)), (∀ o ∈ os, o.InRange) →
      readOperands (before ++ os.flatMap Operand.bytes ++ after) before.length
          (os.map Operand.type)
        = some (os, before.length + ((os.map Operand.type).map OperandType.size).sum)
  | before, [], _ => by simp [readOperands]
  | before, o :: os, h => by
    have ho := readOperand_bytes before (os.flatMap Operand.bytes ++ after)
      (h o List.mem_cons_self)
    have ih := readOperands_bytes after (before ++ o.bytes) os
      fun o' ho' => h o' (List.mem_cons_of_mem _ ho')
    simp only [List.append_assoc, List.length_append, o.length_bytes] at ho ih
    simp only [List.map_cons, List.flatMap_cons, List.append_assoc, readOperands, ho,
      Option.bind_eq_bind, Option.bind_some, ih, List.sum_cons, Option.pure_def, Option.some.injEq,
      Prod.mk.injEq, true_and]
    omega

namespace Opcode

theorem ofNat?_toNat (c : Opcode) : ofNat? (UInt8.ofNat c.toNat).toNat = some c := by
  cases c <;> rfl

end Opcode

namespace Op

variable {δ : Type}

theorem map_type_operands (op : Op δ) : op.operands.map Operand.type = op.opcode.operandTypes := by
  cases op with
  | binop b => cases b <;> rfl
  | _ => rfl

theorem ofOperands_operands (op : Op δ) : ofOperands op.opcode op.operands = some op := by
  cases op with
  | binop b => cases b <;> rfl
  | _ => rfl

@[simp]
theorem opcode_mapDest {ε : Type} (f : δ → ε) (op : Op δ) : (op.mapDest f).opcode = op.opcode := by
  cases op <;> rfl

@[simp]
theorem opcode_narrow (op : Op δ) : op.narrow.opcode = op.opcode := by
  cases op <;> rfl

@[simp]
theorem fallsThrough_mapDest {ε : Type} (f : δ → ε) (op : Op δ) :
    (op.mapDest f).fallsThrough = op.fallsThrough := by
  cases op <;> rfl

theorem dest?_mapDest {ε : Type} (f : δ → ε) (op : Op δ) : (op.mapDest f).dest? = op.dest?.map f := by
  cases op <;> rfl

theorem length_bytes (op : Op Nat) : op.bytes.length = op.opcode.instSize := by
  have h : (op.operands.flatMap Operand.bytes).length
      = (op.opcode.operandTypes.map OperandType.size).sum := by
    rw [← op.map_type_operands, List.length_flatMap, List.map_map]
    congr 1
    exact List.map_congr_left fun o _ => o.length_bytes
  simp [bytes, Opcode.instSize, h]

/-- Narrowing leaves operands their width holds; destinations are up to the assembler. -/
theorem inRange_narrow (op : Op δ) {f : δ → Nat} (hf : ∀ d, f d < 2 ^ 64) :
    ∀ o ∈ (op.narrow.mapDest f).operands, o.InRange := by
  have h₈ : ∀ n : Nat, n % 2 ^ 8 < 2 ^ 8 := fun n => Nat.mod_lt _ (by norm_num)
  have h₆₄ : ∀ n : Nat, n % 2 ^ 64 < 2 ^ 64 := fun n => Nat.mod_lt _ (by norm_num)
  cases op <;>
    simp only [narrow, mapDest, operands, List.mem_cons, List.not_mem_nil, or_false,
      forall_eq_or_imp, forall_eq, IsEmpty.forall_iff, implies_true, Operand.InRange, h₈, h₆₄, hf,
      and_self]

theorem fetch_bytes (before after : List UInt8) {op : Op Nat} (h : ∀ o ∈ op.operands, o.InRange) :
    fetch (before ++ op.bytes ++ after) before.length
      = some (op, before.length + op.opcode.instSize) := by
  have hb : (before ++ op.bytes ++ after)[before.length]? = some (UInt8.ofNat op.opcode.toNat) := by
    simp [bytes, Bytes.littleEndian]
  have ho := readOperands_bytes after (before ++ Bytes.littleEndian 1 op.opcode.toNat) op.operands h
  simp only [List.length_append, Bytes.length_littleEndian, op.map_type_operands] at ho
  have ho' : readOperands (before ++ op.bytes ++ after) (before.length + 1) op.opcode.operandTypes
      = some (op.operands, before.length + op.opcode.instSize) := by
    rw [Opcode.instSize, ← add_assoc]
    simpa [bytes] using ho
  simp only [fetch, hb, Option.bind_eq_bind, Option.bind_some, Opcode.ofNat?_toNat, ho',
    op.ofOperands_operands, Option.pure_def]

end Op

end Yog
