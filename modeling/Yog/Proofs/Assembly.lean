import Yog.Proofs.Encoding

/-!
# The assembler is consistent

`calc_pc` and `insts2bin` both run over the list, one adding sizes and one writing bytes, and an
instruction is as many bytes as its size. So an instruction's program counter is where its bytes
start (`fetch_stored`), and reading from the start gives the list back (`decode_stored`).

A label has the program counter of the next instruction. There is one: `withRet` ends every list
with a `RET` that only notes follow (`withRet_eq`), and control does not pass a `RET`. So every
destination and every program counter of a run is where an instruction starts.
-/

namespace Yog

@[simp]
theorem codeSize_nil : codeSize [] = 0 := rfl

@[simp]
theorem codeSize_cons (i : Inst) (l : List Inst) : codeSize (i :: l) = i.size + codeSize l := by
  simp [codeSize]

@[simp]
theorem codeSize_append (l₁ l₂ : List Inst) :
    codeSize (l₁ ++ l₂) = codeSize l₁ + codeSize l₂ := by
  simp [codeSize]

@[simp]
theorem size_narrow (i : Inst) : i.narrow.size = i.size := by
  cases i <;> simp [Inst.narrow, Inst.size]

@[simp]
theorem codeSize_map_narrow (l : List Inst) : codeSize (l.map Inst.narrow) = codeSize l := by
  simp [codeSize, Function.comp_def]

theorem calcPc_append (l₁ l₂ : List Inst) :
    ∀ pc, calcPc (l₁ ++ l₂) pc = calcPc l₁ pc ++ calcPc l₂ (pc + codeSize l₁) := by
  induction l₁ with
  | nil => intro pc; simp [calcPc]
  | cons i l₁ ih => intro pc; simp [calcPc, ih, Nat.add_assoc]

@[simp]
theorem length_calcPc (l : List Inst) : ∀ pc, (calcPc l pc).length = l.length := by
  induction l with
  | nil => intro pc; rfl
  | cons i l ih => intro pc; simp [calcPc, ih]

/-- `calc_pc` gives an element the size of what stands before it. -/
theorem calcPc_getElem? (before : List Inst) (i : Inst) (after : List Inst) :
    (calcPc (before ++ i :: after) 0)[before.length]? = some (codeSize before) := by
  rw [calcPc_append, List.getElem?_append_right (by simp)]
  simp [calcPc]

/-- The program counter of a label in the list is the size of a part of the list before it. -/
theorem labelPc_eq_of_mem {l : Label} {insts : List Inst} (h : .label l ∈ insts) :
    ∃ before after, insts = before ++ .label l :: after ∧ labelPc l insts = codeSize before := by
  obtain ⟨before, after, rfl, hn⟩ := List.eq_append_cons_of_mem h
  refine ⟨before, after, rfl, ?_⟩
  have hz : (before ++ Inst.label l :: after).zip (calcPc (before ++ .label l :: after) 0)
      = before.zip (calcPc before 0)
        ++ (.label l, codeSize before) :: after.zip (calcPc after (codeSize before)) := by
    rw [calcPc_append, List.zip_append (by simp)]
    simp [calcPc, Inst.size]
  have hb : (before.zip (calcPc before 0)).find? (·.1 = .label l) = none := by
    rw [List.find?_eq_none]
    intro x hx
    have hx := (List.of_mem_zip hx).1
    simp only [decide_eq_true_eq]
    rintro he
    exact hn (he ▸ hx)
  simp [labelPc, hz, hb]

theorem labelPc_eq_zero {l : Label} {insts : List Inst} (h : .label l ∉ insts) :
    labelPc l insts = 0 := by
  have hn : (insts.zip (calcPc insts 0)).find? (·.1 = .label l) = none := by
    rw [List.find?_eq_none]
    intro x hx he
    simp only [decide_eq_true_eq] at he
    exact h (he ▸ (List.of_mem_zip hx).1)
  simp [labelPc, hn]

theorem labelPc_le (l : Label) (insts : List Inst) : labelPc l insts ≤ codeSize insts := by
  by_cases h : .label l ∈ insts
  · obtain ⟨before, after, rfl, hl⟩ := labelPc_eq_of_mem h
    simp [hl]
  · simp [labelPc_eq_zero h]

@[simp]
theorem filterMap_op?_op (lineno : Lineno) (op : Op Label) (l : List Inst) :
    (Inst.op lineno op :: l).filterMap Inst.op? = op :: l.filterMap Inst.op? := rfl

@[simp]
theorem filterMap_op?_label (l : Label) (insts : List Inst) :
    (Inst.label l :: insts).filterMap Inst.op? = insts.filterMap Inst.op? := rfl

@[simp]
theorem filterMap_op?_note (n : Note) (insts : List Inst) :
    (Inst.note n :: insts).filterMap Inst.op? = insts.filterMap Inst.op? := rfl

/-- The bytes of the operations of a part of the list, for program counters `f` of the labels. -/
def emitted (f : Label → Nat) (insts : List Inst) : List UInt8 :=
  ((insts.filterMap Inst.op?).map (Op.mapDest f)).flatMap Op.bytes

section Emitted

variable (f : Label → Nat)

theorem emitted_append (l₁ l₂ : List Inst) : emitted f (l₁ ++ l₂) = emitted f l₁ ++ emitted f l₂ := by
  simp [emitted]

theorem emitted_op (lineno : Lineno) (op : Op Label) (l : List Inst) :
    emitted f (.op lineno op :: l) = (op.mapDest f).bytes ++ emitted f l := by
  simp [emitted]

theorem length_emitted : ∀ l : List Inst, (emitted f l).length = codeSize l
  | [] => rfl
  | .op lineno op :: l => by
    simp [emitted_op, Op.length_bytes, length_emitted l, Inst.size]
  | .label _ :: l => by
    simpa [emitted, Inst.size] using length_emitted l
  | .note _ :: l => by
    simpa [emitted, Inst.size] using length_emitted l

end Emitted

theorem Opcode.instSize_pos (c : Opcode) : 0 < c.instSize := by
  simp [instSize]

section Stored

variable {list : List Inst} {bin : List UInt8}

theorem insts2bin_eq_ok (h : insts2bin list = .ok bin) :
    codeSize list < 2 ^ 64 ∧ bin = emitted (labelPc · list) list := by
  simp only [insts2bin] at h
  split_ifs at h with hs
  · simp only [pure, Except.pure, Except.ok.injEq] at h
    exact ⟨hs, h.symm⟩

/-- The operations of a narrowed list are narrow. -/
theorem exists_narrow {lineno : Lineno} {op : Op Label} (h : .op lineno op ∈ list.map Inst.narrow) :
    ∃ op', op = Op.narrow op' := by
  obtain ⟨i, -, hi⟩ := List.mem_map.1 h
  cases i with
  | op n op' =>
    simp only [Inst.narrow, Inst.op.injEq] at hi
    exact ⟨op', hi.2.symm⟩
  | label l => simp [Inst.narrow] at hi
  | note n => simp [Inst.narrow] at hi

/-- The bytes of an operation start at its program counter and are fetched there. -/
theorem fetch_stored (h : insts2bin (list.map Inst.narrow) = .ok bin) {before after : List Inst}
    {lineno : Lineno} {op : Op Label} (hl : list.map Inst.narrow = before ++ .op lineno op :: after) :
    fetch bin (codeSize before)
      = some (op.mapDest (labelPc · (list.map Inst.narrow)),
          codeSize before + op.opcode.instSize) := by
  obtain ⟨hs, rfl⟩ := insts2bin_eq_ok h
  have hop : .op lineno op ∈ list.map Inst.narrow := by simp [hl]
  obtain ⟨op', rfl⟩ := exists_narrow hop
  have hr := op'.inRange_narrow (f := (labelPc · (list.map Inst.narrow)))
    fun d => (labelPc_le d _).trans_lt hs
  have hf := Op.fetch_bytes (emitted (labelPc · (list.map Inst.narrow)) before)
    (emitted (labelPc · (list.map Inst.narrow)) after) hr
  rw [length_emitted] at hf
  conv_lhs => rw [show emitted (labelPc · (list.map Inst.narrow)) (list.map Inst.narrow)
      = emitted (labelPc · (list.map Inst.narrow)) (before ++ .op lineno op'.narrow :: after) by
    rw [hl]]
  rw [emitted_append, emitted_op, ← List.append_assoc, hf, Op.opcode_mapDest]

theorem decodeFrom_stored (h : insts2bin (list.map Inst.narrow) = .ok bin) :
    ∀ (after before : List Inst) (fuel : Nat), list.map Inst.narrow = before ++ after →
      codeSize after ≤ fuel →
      decodeFrom bin fuel (codeSize before)
        = some ((after.filterMap Inst.op?).map (Op.mapDest (labelPc · (list.map Inst.narrow))))
  | [], before, fuel, hl, _ => by
    obtain ⟨-, rfl⟩ := insts2bin_eq_ok h
    have hlen : codeSize before
        = (emitted (labelPc · (list.map Inst.narrow)) (list.map Inst.narrow)).length := by
      rw [length_emitted, hl, List.append_nil]
    cases fuel <;> simp [decodeFrom, hlen]
  | .op lineno op :: after, before, fuel, hl, hf => by
    have hpos := op.opcode.instSize_pos
    simp only [codeSize_cons, Inst.size] at hf
    obtain ⟨fuel, rfl⟩ : ∃ m, fuel = m + 1 := ⟨fuel - 1, by omega⟩
    have hlen : codeSize before ≠ bin.length := by
      obtain ⟨-, rfl⟩ := insts2bin_eq_ok h
      rw [length_emitted, hl, codeSize_append, codeSize_cons]
      simp only [Inst.size]
      omega
    have hn : codeSize before + op.opcode.instSize = codeSize (before ++ [.op lineno op]) := by
      simp [Inst.size]
    have ih := decodeFrom_stored h after (before ++ [.op lineno op]) fuel (by simp [hl]) (by omega)
    simp only [decodeFrom, hlen, if_false, fetch_stored h hl, Option.bind_eq_bind,
      Option.bind_some, Op.opcode_mapDest, hn, ih, Option.pure_def]
    simp
  | .label l :: after, before, fuel, hl, hf => by
    have ih := decodeFrom_stored h after (before ++ [.label l]) fuel (by simp [hl])
      (by simpa [Inst.size] using hf)
    simpa [Inst.size] using ih
  | .note n :: after, before, fuel, hl, hf => by
    have ih := decodeFrom_stored h after (before ++ [.note n]) fuel (by simp [hl])
      (by simpa [Inst.size] using hf)
    simpa [Inst.size] using ih

/-- Decoding the bytes gives the operations of the list. -/
theorem decode_stored (h : insts2bin (list.map Inst.narrow) = .ok bin) :
    decode bin = some (resolve (list.map Inst.narrow)) := by
  have hlen : codeSize (list.map Inst.narrow) = bin.length := by
    obtain ⟨-, rfl⟩ := insts2bin_eq_ok h
    rw [length_emitted]
  exact decodeFrom_stored h (list.map Inst.narrow) [] bin.length rfl hlen.le

end Stored

/-- An instruction of the list starts at `pc`. -/
def Boundary (list : List Inst) (pc : Nat) : Prop :=
  ∃ before lineno op after, list = before ++ .op lineno op :: after ∧ codeSize before = pc

/-- A position with an operation after it has the program counter of an operation: what lies between
has no size. -/
theorem boundary_of_append (before : List Inst) :
    ∀ (after : List Inst), (∃ lineno op, .op lineno op ∈ after) →
      Boundary (before ++ after) (codeSize before)
  | [], ⟨_, _, h⟩ => by simp at h
  | .op lineno op :: after, _ => ⟨before, lineno, op, after, rfl, rfl⟩
  | .label l :: after, ⟨lineno, op, h⟩ => by
    have ih := boundary_of_append (before ++ [.label l]) after
      ⟨lineno, op, by simpa using h⟩
    simpa [Inst.size] using ih
  | .note n :: after, ⟨lineno, op, h⟩ => by
    have ih := boundary_of_append (before ++ [.note n]) after
      ⟨lineno, op, by simpa using h⟩
    simpa [Inst.size] using ih

/-- A list ends with a `RET` and notes. -/
def EndsWithRet (list : List Inst) : Prop :=
  ∃ body lineno n notes, list = body ++ .op lineno (.ret n) :: notes ∧ ∀ i ∈ notes, i.isNote = true

theorem endsWithRet_of_lastIsRet {list : List Inst} (h : lastIsRet list = true) :
    EndsWithRet list := by
  induction list using List.reverseRecOn with
  | nil => simp [lastIsRet] at h
  | append_singleton body i ih =>
    cases i with
    | note m =>
      have hb : lastIsRet body = true := by
        simpa [lastIsRet, List.filter_append, Inst.isNote] using h
      obtain ⟨body', lineno, n, notes, rfl, hn⟩ := ih hb
      refine ⟨body', lineno, n, notes ++ [.note m], by simp, fun i hi => ?_⟩
      rcases List.mem_append.1 hi with hi | hi
      · exact hn i hi
      · simp only [List.mem_singleton] at hi
        simp [hi, Inst.isNote]
    | label l => simp [lastIsRet, List.filter_append, Inst.isNote] at h
    | op lineno op =>
      cases op with
      | ret n => exact ⟨body, lineno, n, [], by simp, by simp⟩
      | _ => simp [lastIsRet, List.filter_append, Inst.isNote] at h

/-- What `compile_stmts` assembles ends with a `RET`, its own or the added one. -/
theorem withRet_eq (insts : List Inst) : EndsWithRet (withRet insts) := by
  unfold withRet
  split_ifs with h
  · exact endsWithRet_of_lastIsRet h
  · exact ⟨insts, _, 0, [], rfl, by simp⟩

theorem EndsWithRet.narrow {list : List Inst} (h : EndsWithRet list) :
    EndsWithRet (list.map Inst.narrow) := by
  obtain ⟨body, lineno, n, notes, rfl, hn⟩ := h
  refine ⟨body.map Inst.narrow, lineno, n % 2 ^ 8, notes.map Inst.narrow, by simp [Inst.narrow,
    Op.narrow], fun i hi => ?_⟩
  obtain ⟨j, hj, rfl⟩ := List.mem_map.1 hi
  have := hn j hj
  cases j <;> simp_all [Inst.isNote, Inst.narrow]

/-- In such a list an operation stands after every element that is no note, the final `RET` apart. -/
theorem EndsWithRet.exists_op {before after : List Inst} {i : Inst}
    (h : EndsWithRet (before ++ i :: after)) (hi : i.isNote = false)
    (hr : ∀ lineno n, i ≠ .op lineno (.ret n)) : ∃ lineno op, .op lineno op ∈ after := by
  obtain ⟨body, lineno, n, notes, he, hn⟩ := h
  rcases List.append_eq_append_iff.1 he with ⟨as, rfl, ha⟩ | ⟨bs, rfl, hb⟩
  · cases as with
    | nil =>
      simp only [List.nil_append, List.cons.injEq] at ha
      exact absurd ha.1 (hr lineno n)
    | cons a as =>
      simp only [List.cons_append, List.cons.injEq] at ha
      exact ⟨lineno, .ret n, by simp [ha.2]⟩
  · cases bs with
    | nil =>
      simp only [List.nil_append, List.cons.injEq] at hb
      exact absurd hb.1.symm (hr lineno n)
    | cons b bs =>
      simp only [List.cons_append, List.cons.injEq] at hb
      have := hn i (by simp [hb.2])
      simp [hi] at this

/-- Every label has the program counter of an instruction; one that is not in the list has that of
the first. -/
theorem boundary_labelPc {list : List Inst} (h : EndsWithRet list) (l : Label) :
    Boundary list (labelPc l list) := by
  by_cases hl : .label l ∈ list
  · obtain ⟨before, after, rfl, he⟩ := labelPc_eq_of_mem hl
    obtain ⟨lineno, op, ho⟩ := h.exists_op (i := .label l) rfl (by simp)
    rw [he]
    exact boundary_of_append _ _ ⟨lineno, op, List.mem_cons_of_mem _ ho⟩
  · obtain ⟨body, lineno, n, notes, rfl, -⟩ := h
    rw [labelPc_eq_zero hl]
    have hb := boundary_of_append [] (body ++ .op lineno (.ret n) :: notes)
      ⟨lineno, .ret n, by simp⟩
    simpa using hb

/-- The program counters at which a frame of the body can come to execute an instruction: the entry,
the next instruction, a destination, and a handler the exception table has for an instruction that
raises (or waits for a call that does). -/
inductive Reaches {κ : Type} (code : CodeOf κ) : Nat → Prop where
  | entry : Reaches code 0
  | next {pc op n} : Reaches code pc → fetch code.insts pc = some (op, n) → op.fallsThrough = true →
      Reaches code n
  | jump {pc op n d} : Reaches code pc → fetch code.insts pc = some (op, n) → op.dest? = some d →
      Reaches code d
  | raise {pc op n target} : Reaches code pc → fetch code.insts pc = some (op, n) →
      findExceptionTableEntry code.excTbl n = some target → Reaches code target

/-- The assembled body is its instruction list: where `calc_pc` says and `insts2bin` writes agree,
decoding gives the list without labels, destinations and table rows are instructions, and no run
leaves the code. -/
structure CodeOf.Assembled (code : CodeOf Code) : Prop where
  pc : ∀ before lineno op after,
    code.list.map Inst.narrow = before ++ .op lineno op :: after →
      ∃ bytes rest, code.insts
          = bytes ++ (op.mapDest (labelPc · (code.list.map Inst.narrow))).bytes ++ rest
        ∧ (calcPc (code.list.map Inst.narrow) 0)[before.length]? = some bytes.length
  decode : decode code.insts = some (resolve (code.list.map Inst.narrow))
  dest : ∀ op ∈ resolve (code.list.map Inst.narrow), ∀ d, op.dest? = some d →
    Boundary (code.list.map Inst.narrow) d
  excTbl : ∀ e ∈ code.excTbl, Boundary (code.list.map Inst.narrow) e.from_
    ∧ Boundary (code.list.map Inst.narrow) e.to_ ∧ Boundary (code.list.map Inst.narrow) e.target
  run : ∀ pc, Reaches code pc → ∃ op n, fetch code.insts pc = some (op, n) ∧ n ≤ code.insts.length

section Assembled

variable {list : List Inst} {bin : List UInt8}

theorem pc_stored (h : insts2bin (list.map Inst.narrow) = .ok bin) {before after : List Inst}
    {lineno : Lineno} {op : Op Label} (hl : list.map Inst.narrow = before ++ .op lineno op :: after) :
    ∃ bytes rest, bin = bytes ++ (op.mapDest (labelPc · (list.map Inst.narrow))).bytes ++ rest
      ∧ (calcPc (list.map Inst.narrow) 0)[before.length]? = some bytes.length := by
  obtain ⟨-, rfl⟩ := insts2bin_eq_ok h
  refine ⟨emitted (labelPc · (list.map Inst.narrow)) before,
    emitted (labelPc · (list.map Inst.narrow)) after, ?_, ?_⟩
  · rw [List.append_assoc, ← emitted_op _ lineno, ← emitted_append, ← hl]
  · rw [length_emitted]
    conv_lhs => rw [hl]
    exact calcPc_getElem? before _ after

theorem dest_resolve (hr : EndsWithRet list) {op : Op Nat} (ho : op ∈ resolve list) {d : Nat}
    (hd : op.dest? = some d) : Boundary list d := by
  obtain ⟨op', -, rfl⟩ := List.mem_map.1 ho
  rw [Op.dest?_mapDest] at hd
  obtain ⟨l, -, rfl⟩ := Option.map_eq_some_iff.1 hd
  exact boundary_labelPc hr l

theorem boundary_excTbl (hr : EndsWithRet list) {rows : List (ExceptionTableEntry Label)}
    {e : ExceptionTableEntry Nat} (he : e ∈ makeExceptionTable list rows) :
    Boundary list e.from_ ∧ Boundary list e.to_ ∧ Boundary list e.target := by
  obtain ⟨row, -, rfl⟩ := List.mem_map.1 (List.mem_filter.1 he).1
  exact ⟨boundary_labelPc hr _, boundary_labelPc hr _, boundary_labelPc hr _⟩

/-- What one fetch at a boundary yields, and that what follows is a boundary again. -/
theorem fetch_boundary (h : insts2bin (list.map Inst.narrow) = .ok bin)
    (hr : EndsWithRet (list.map Inst.narrow)) {pc : Nat}
    (hb : Boundary (list.map Inst.narrow) pc) :
    ∃ op n, fetch bin pc = some (op, n) ∧ n ≤ bin.length ∧ op ∈ resolve (list.map Inst.narrow)
      ∧ (op.fallsThrough = true → Boundary (list.map Inst.narrow) n) := by
  obtain ⟨before, lineno, op, after, hl, rfl⟩ := hb
  refine ⟨_, _, fetch_stored h hl, ?_, ?_, fun hf => ?_⟩
  · obtain ⟨-, rfl⟩ := insts2bin_eq_ok h
    rw [length_emitted, hl]
    simp [Inst.size]
  · refine List.mem_map_of_mem ?_
    rw [hl]
    simp
  · rw [Op.fallsThrough_mapDest] at hf
    rw [hl] at hr ⊢
    obtain ⟨lineno', op', ho⟩ := hr.exists_op rfl fun m n he => by
      simp only [Inst.op.injEq] at he
      simp [he.2, Op.fallsThrough] at hf
    have hb := boundary_of_append (before ++ [.op lineno op]) _ ⟨lineno', op', ho⟩
    simpa [Inst.size] using hb

/-- Every program counter a run reaches is a boundary. -/
theorem boundary_of_reaches {code : CodeOf Code} {rows : List (ExceptionTableEntry Label)}
    (h : insts2bin (list.map Inst.narrow) = .ok code.insts) (hr : EndsWithRet (list.map Inst.narrow))
    (he : code.excTbl = makeExceptionTable (list.map Inst.narrow) rows) {pc : Nat}
    (hp : Reaches code pc) : Boundary (list.map Inst.narrow) pc := by
  induction hp with
  | entry =>
    obtain ⟨body, lineno, n, notes, hl, -⟩ := hr
    rw [hl]
    simpa using boundary_of_append [] (body ++ .op lineno (.ret n) :: notes)
      ⟨lineno, .ret n, by simp⟩
  | next _ hf hfall ih =>
    obtain ⟨op', n', hf', -, -, hb⟩ := fetch_boundary h hr ih
    rw [hf] at hf'
    simp only [Option.some.injEq, Prod.mk.injEq] at hf'
    obtain ⟨rfl, rfl⟩ := hf'
    exact hb hfall
  | jump _ hf hd ih =>
    obtain ⟨op', n', hf', -, hm, -⟩ := fetch_boundary h hr ih
    rw [hf] at hf'
    simp only [Option.some.injEq, Prod.mk.injEq] at hf'
    obtain ⟨rfl, rfl⟩ := hf'
    exact dest_resolve hr hm hd
  | raise _ _ ht _ =>
    simp only [findExceptionTableEntry, Option.map_eq_some_iff] at ht
    obtain ⟨e, hfe, rfl⟩ := ht
    have hm := List.mem_of_find?_eq_some hfe
    rw [he] at hm
    exact (boundary_excTbl hr hm).2.2

end Assembled

/-- What `makeCode` makes the body of. -/
theorem makeCode_eq_ok {ctx : Ctx} {funcName : ID} {insts : List Inst} {s : CompileData}
    {code : CodeOf Code} {depths : List Int}
    (h : makeCode ctx funcName insts s = .ok (.mk code, depths)) :
    code.list = withRet insts ∧ code.consts = s.consts
      ∧ insts2bin (code.list.map Inst.narrow) = .ok code.insts
      ∧ countStackSize (code.list.map Inst.narrow) = .ok code.stackSize
      ∧ code.excTbl = makeExceptionTable (code.list.map Inst.narrow) (s.excTbl ++ s.excTail)
      ∧ makeLinenoTable (code.list.map Inst.narrow) = .ok code.linenoTbl := by
  unfold makeCode at h
  obtain ⟨bin, hbin, h⟩ := Except.bind_eq_ok_iff.1 h
  obtain ⟨names, -, h⟩ := Except.bind_eq_ok_iff.1 h
  obtain ⟨size, hsize, h⟩ := Except.bind_eq_ok_iff.1 h
  obtain ⟨tbl, htbl, h⟩ := Except.bind_eq_ok_iff.1 h
  simp only [pure, Except.pure, Except.ok.injEq, Prod.mk.injEq, Code.mk.injEq] at h
  obtain ⟨rfl, -⟩ := h
  exact ⟨rfl, rfl, hbin, hsize, rfl, htbl⟩

/-- Whatever list the visitor made, the body `compile_stmts` makes of it is assembled. -/
theorem makeCode_assembled {ctx : Ctx} {funcName : ID} {insts : List Inst} {s : CompileData}
    {code : CodeOf Code} {depths : List Int}
    (h : makeCode ctx funcName insts s = .ok (.mk code, depths)) : code.Assembled := by
  obtain ⟨hlist, -, hbin, -, hexc, -⟩ := makeCode_eq_ok h
  have hr : EndsWithRet (code.list.map Inst.narrow) := hlist ▸ (withRet_eq insts).narrow
  refine ⟨fun before lineno op after hl => pc_stored hbin hl, decode_stored hbin,
    fun op ho d hd => dest_resolve hr ho hd, fun e he => boundary_excTbl hr (hexc ▸ he),
    fun pc hp => ?_⟩
  obtain ⟨op, n, hf, hn, -, -⟩ := fetch_boundary hbin hr (boundary_of_reaches hbin hr hexc hp)
  exact ⟨op, n, hf, hn⟩

end Yog
