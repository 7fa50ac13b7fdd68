import Yog.Proofs.LongJumps

/-!
# The exception a `try` has caught

`load_exception` reads the slot of the thread that every exception and every long jump is put in,
whichever `try` it is for. An observer keeps the exceptions caught whose handlers are still run, and
what has been thrown since each was caught. The slot has what was thrown last, and the exception
caught if nothing was (`SlotKept`). So a use of the exception of a `try` loads another one exactly
if another exception, or a jump out of a block, was the last thrown since (`loadsCaught_iff`).
-/

namespace Yog

/-- Where the handlers of a code start and end: the `except` clauses of a `try`, or the copy of its
`finally` body that is run after an exception. The label at the end is the one created next. -/
def Code.handlers (code : Code) : List (Nat × Nat) :=
  code.fields.list.filterMap fun
    | .note (.headStart _ handler) =>
      some (labelPc handler code.fields.list, labelPc ⟨handler.id + 1⟩ code.fields.list)
    | _ => none

def Code.handlerEnd (code : Code) (start : Nat) : Nat := (code.handlers.lookup start).getD start

variable {V : Type}

/-- `load_exception`. -/
def Thread.loadException (t : Thread V) : V := t.jmpVal

/-- An exception caught: the frame that caught it as it was then, the number of frames below, the
exception, and what was thrown in the thread since, the last first. -/
structure Caught (V : Type) where
  below : Nat
  frame : ScriptFrame
  exc : V
  thrown : List V

namespace Caught

/-- The place is in the handler. A frame below the top is at the place after its call. -/
def covers (c : Caught V) (top : Bool) (pc : Nat) : Bool :=
  let end_ := c.frame.code.handlerEnd c.frame.pc
  if top then c.frame.pc ≤ pc && pc < end_ else c.frame.pc < pc && pc ≤ end_

/-- The handler is still run in a chain of frames. -/
def live (c : Caught V) (frames : List Frame) : Bool :=
  match frames.reverse[c.below]? with
  | some (.script f) => c.covers (c.below + 1 = frames.length) f.pc
  | _ => false

def note (thrown : List V) (c : Caught V) : Caught V := { c with thrown := thrown ++ c.thrown }

end Caught

/-- What a step catches: the exception lands in a main loop, which goes on at a handler. -/
def caughtBy (t u : Thread V) : List (Caught V) :=
  match t.control, t.jmpBufList, u.control, u.frames with
  | .jumping .raise, .mainloop _ :: _, .running, .script f :: fs => [⟨fs.length, f, u.jmpVal, []⟩]
  | _, _, _, _ => []

/-- What a step throws: an exception, the values of a `return` or `break` out of a block, or the
exception about such a jump whose frame is lost. -/
def thrownBy (t : Thread V) : Event V → Thread V → List V
  | .raise exc, _ => [exc]
  | .longJump _ _ _, u => [u.jmpVal]
  | .land, u =>
    match t.control, u.control with
    | .jumping .return_, .jumping .raise | .jumping .break_, .jumping .raise => [u.jmpVal]
    | _, _ => []
  | .exec _ _, _ | .native, _ => []

/-- The observer of handlers. -/
def watch (t : Thread V) (e : Event V) (u : Thread V) (caught : List (Caught V)) :
    List (Caught V) :=
  (caughtBy t u ++ caught.map (Caught.note (thrownBy t e u))).filter (·.live u.frames)

/-- A `load_exception` that is executed next loads the exception that the `try` it is of has caught.
Which `try` that is, the compiler knows: `isUseOf`. -/
def LoadsCaught (isUseOf : ScriptFrame → Caught V → Prop) (w : Thread V × List (Caught V)) : Prop :=
  ∀ f fs next, w.1.Fetches f fs .loadException next →
    ∀ c ∈ w.2, isUseOf f c → w.1.loadException = c.exc

/-- Where a `load_exception` is executed next, what the `try` it is of has caught is what was thrown
last: nothing was thrown since, or that exception again. -/
def StillLast (isUseOf : ScriptFrame → Caught V → Prop) (w : Thread V × List (Caught V)) : Prop :=
  ∀ f fs next, w.1.Fetches f fs .loadException next →
    ∀ c ∈ w.2, isUseOf f c → ∀ exc ∈ c.thrown.head?, exc = c.exc

section Slot

variable {localJumpError : JmpStatus → V} {t u : Thread V} {e : Event V} {status : JmpStatus}

theorem leaveMainloop_eq {fs : List Frame} (h : t.leaveMainloop fs = some u) :
    u.control = t.control ∧ u.jmpVal = t.jmpVal := by
  obtain ⟨fs', -, rfl⟩ := Option.map_eq_some_iff.1 h
  exact ⟨rfl, rfl⟩

/-- What a main loop makes of a jump writes the slot only for a frame that is lost. -/
theorem jmpVal_of_enterMainloop (hc : t.control = .jumping status)
    (h : t.enterMainloop localJumpError status = some u) :
    u.jmpVal = (thrownBy t .land u).head?.getD t.jmpVal := by
  have hleave : ∀ {fs}, t.leaveMainloop fs = some u →
      u.jmpVal = (thrownBy t .land u).head?.getD t.jmpVal := by
    intro fs hl
    obtain ⟨hcontrol, hslot⟩ := leaveMainloop_eq hl
    rw [thrownBy, hcontrol, hc]
    cases status <;> exact hslot
  cases status with
  | raise =>
    unfold Thread.enterMainloop Thread.followRaise at h
    rcases hr : rollbackFrames (skipCFrame t.frames) with _ | fs
    · rw [hr] at h
      exact hleave h
    · rw [hr] at h
      cases h
      rw [thrownBy, hc]
      rfl
  | return_ | break_ =>
    unfold Thread.enterMainloop Thread.followJump at h
    rcases hf : searchFrame t.frameToLongJump (skipCFrame t.frames) with fs | _ | _
    · rw [hf] at h
      cases h
      rw [thrownBy, hc]
      rfl
    · rw [hf] at h
      exact hleave h
    · rw [hf] at h
      cases h
      rw [thrownBy, hc]
      rfl

theorem jmpVal_of_land (hc : t.control = .jumping status)
    (h : t.land localJumpError status = some u) :
    u.jmpVal = (thrownBy t .land u).head?.getD t.jmpVal := by
  have hquiet : ∀ {u' : Thread V}, (∀ status, u'.control ≠ .jumping status) →
      thrownBy t .land u' = [] := by
    intro u' hu
    simp only [thrownBy]
    split
    · next hu' => exact (hu _ hu').elim
    · next hu' => exact (hu _ hu').elim
    · rfl
  rcases hb : t.jmpBufList with _ | ⟨_ | _ | _ | _ | _, bufs⟩
  · rw [Thread.land_nil hb] at h
    cases h
  · rw [Thread.land_mainloop hb] at h
    exact jmpVal_of_enterMainloop hc h
  · rw [Thread.land_guard hb] at h
    cases h
    rw [hquiet]
    · rfl
    · exact fun _ => nofun
  · rw [Thread.land_compareVal hb] at h
    cases h
    rw [hquiet]
    · rfl
    · exact fun _ => nofun
  · rw [Thread.land_main hb] at h
    cases h
    rw [hquiet]
    · rfl
    · exact fun _ => nofun
  · rw [Thread.land_stale hb] at h
    cases h

/-- The slot has what was thrown last. -/
theorem jmpVal_of_step (h : Step localJumpError t e u) :
    u.jmpVal = (thrownBy t e u).head?.getD t.jmpVal := by
  cases h with
  | land hc hl => exact jmpVal_of_land hc hl
  | released hc _ =>
    rw [thrownBy, hc]
    rfl
  | _ => rfl

/-- The slot has what was thrown last since a `try` has caught, or what it has caught. -/
def SlotKept (w : Thread V × List (Caught V)) : Prop :=
  ∀ c ∈ w.2, c.thrown.head?.getD c.exc = w.1.jmpVal

theorem thrown_of_caughtBy {c : Caught V} (h : c ∈ caughtBy t u) :
    c.thrown = [] ∧ c.exc = u.jmpVal := by
  unfold caughtBy at h
  split at h
  · rw [List.mem_singleton.1 h]
    exact ⟨rfl, rfl⟩
  · cases h

theorem map_note_nil (caught : List (Caught V)) : caught.map (Caught.note []) = caught :=
  List.map_id'' (fun _ => rfl) caught

theorem head?_note (thrown : List V) (c : Caught V) :
    (c.note thrown).thrown.head?.getD c.exc = thrown.head?.getD (c.thrown.head?.getD c.exc) := by
  rcases thrown with _ | ⟨v, thrown⟩ <;> rfl

theorem SlotKept.step {w w' : Thread V × List (Caught V)} (h : SlotKept w)
    (hs : Observed watch (Step localJumpError) w e w') : SlotKept w' := by
  obtain ⟨hstep, hnote⟩ := hs
  intro c hc
  rw [hnote, watch, List.mem_filter, List.mem_append, List.mem_map] at hc
  obtain ⟨hc | ⟨c, hc, rfl⟩, -⟩ := hc
  · obtain ⟨hthrown, hexc⟩ := thrown_of_caughtBy hc
    rw [hthrown, hexc]
    rfl
  · exact (head?_note _ c).trans (by rw [h c hc, jmpVal_of_step hstep])

end Slot

/-! Two exceptions, the second raised and caught while the handler of the first is run. -/

/-- `try; a; except; try; b; except; c; end; raise; end`. -/
def nestedStmts : List Stmt :=
  [.except 1 [.expr (.variable 2 3)]
    [.mk 3 [] none
      [.except 4 [.expr (.variable 5 4)] [.mk 6 [] none [.expr (.variable 7 5)]] [],
        .raise 8 none]] []]

/-- The code is that of `nestedStmts`. -/
def IsNested (code : Code) : Prop :=
  fetch code.fields.insts 0 = some (.loadLocalName 3, 9) ∧
  fetch code.fields.insts 19 = some (.loadLocalName 4, 28) ∧
  fetch code.fields.insts 28 = some (.pop, 29) ∧
  fetch code.fields.insts 29 = some (.jump 76, 38) ∧
  fetch code.fields.insts 38 = some (.loadLocalName 5, 47) ∧
  fetch code.fields.insts 47 = some (.pop, 48) ∧
  fetch code.fields.insts 48 = some (.jump 76, 57) ∧
  fetch code.fields.insts 76 = some (.loadException, 77) ∧
  code.fields.excTbl = [⟨19, 29, 38⟩, ⟨0, 10, 19⟩] ∧
  code.handlers = [(19, 123), (38, 76)]

instance (code : Code) : Decidable (IsNested code) :=
  inferInstanceAs (Decidable (_ ∧ _ ∧ _ ∧ _ ∧ _ ∧ _ ∧ _ ∧ _ ∧ _ ∧ _))

theorem exists_nested : ∃ code,
    compilePackage .sample 8 "a.yog" nestedStmts false = .ok code ∧ IsNested code := by
  obtain ⟨code, hcode, h⟩ := Except.exists_of_any
    (x := compilePackage .sample 8 "a.yog" nestedStmts false)
    (p := fun code => decide (IsNested code)) (by decide +kernel)
  exact ⟨code, hcode, of_decide_eq_true h⟩

/-- The package at `pc`, with the slot and the handlers that are run. -/
def nestedThread (code : Code) (pc slot : Nat) (caught : List (Caught Nat)) :
    Thread Nat × List (Caught Nat) :=
  (⟨[.script ⟨1, code, pc, none, none⟩, .finish 0], [.mainloop 1, .main], slot, none, .running⟩,
    caught)

/-- What the package has caught with the handler at `pc`, and what was thrown since. -/
def nestedCaught (code : Code) (pc : Nat) (exc : Nat) (thrown : List Nat) : Caught Nat :=
  ⟨1, ⟨1, code, pc, none, none⟩, exc, thrown⟩

section Nested

variable {code : Code} {pc pc' next slot : Nat} {op : Op Nat} {caught : List (Caught Nat)}

theorem nested_fetches (h : fetch code.fields.insts pc = some (op, next)) :
    (nestedThread code pc slot caught).1.Fetches ⟨1, code, pc, none, none⟩ [.finish 0] op next := by
  refine ⟨rfl, rfl, ?_, h⟩
  rintro b ⟨⟩
  rfl

theorem nested_exec {caught' : List (Caught Nat)}
    (h : fetch code.fields.insts pc = some (op, next)) (hs : op.stays)
    (hp : pc' = next ∨ op.dest? = some pc')
    (hl : caught.filter (·.live (nestedThread code pc' slot []).1.frames) = caught') :
    Observed watch (Step fun _ => 0) (nestedThread code pc slot caught) (.exec 1 pc)
      (nestedThread code pc' slot caught') := by
  refine ⟨.exec (nested_fetches h) hs hp, ?_⟩
  change caught' = (caught.map (Caught.note [])).filter _
  rw [map_note_nil]
  exact hl.symm

theorem nested_raise (exc : Nat)
    (hl : ∀ c ∈ caught, c.live (nestedThread code pc slot []).1.frames) :
    Observed watch (Step fun _ => 0) (nestedThread code pc slot caught) (.raise exc)
      ((nestedThread code pc slot []).1.raise exc, caught.map (Caught.note [exc])) := by
  refine ⟨.raise exc (Or.inl rfl), ?_⟩
  change caught.map (Caught.note [exc]) = (caught.map (Caught.note [exc])).filter _
  refine (List.filter_eq_self.2 fun c' hc' => ?_).symm
  obtain ⟨c, hc, rfl⟩ := List.mem_map.1 hc'
  exact hl c hc

theorem nested_land {exc target : Nat}
    (h : findExceptionTableEntry code.fields.excTbl pc = some target)
    (hl : ∀ c ∈ nestedCaught code target exc [] :: caught,
      c.live (nestedThread code target exc []).1.frames) :
    Observed watch (Step fun _ => 0) ((nestedThread code pc slot []).1.raise exc, caught) .land
      (nestedThread code target exc (nestedCaught code target exc [] :: caught)) := by
  refine ⟨.land rfl ?_, ?_⟩
  swap
  · change _ = (nestedCaught code target exc [] :: caught.map (Caught.note [])).filter _
    rw [map_note_nil]
    exact (List.filter_eq_self.2 hl).symm
  have hroll : rollbackFrames (nestedThread code pc slot []).1.frames =
      some (nestedThread code target exc []).1.frames := by
    rw [nestedThread, rollbackFrames, h]
    rfl
  rw [Thread.land_mainloop rfl]
  unfold Thread.enterMainloop Thread.followRaise
  rw [show skipCFrame ((nestedThread code pc slot []).1.raise exc).frames =
    (nestedThread code pc slot []).1.frames from rfl, hroll]
  rfl

theorem live_nested {start exc : Nat} {thrown : List Nat} (hstart : start ≤ pc)
    (hend : pc < code.handlerEnd start) :
    (nestedCaught code start exc thrown).live (nestedThread code pc slot []).1.frames := by
  have hcovers : (nestedCaught code start exc thrown).covers true pc = true := by
    simp [Caught.covers, nestedCaught, hstart, hend]
  exact hcovers

theorem not_live_nested {start exc : Nat} {thrown : List Nat} (hend : code.handlerEnd start ≤ pc) :
    (nestedCaught code start exc thrown).live (nestedThread code pc slot []).1.frames = false := by
  have hcovers : (nestedCaught code start exc thrown).covers true pc = false := by
    simp only [Caught.covers, nestedCaught, if_true, Bool.and_eq_false_iff]
    exact Or.inr (decide_eq_false (Nat.not_lt.2 hend))
  exact hcovers

theorem IsNested.handlerEnd (h : IsNested code) :
    code.handlerEnd 19 = 123 ∧ code.handlerEnd 38 = 76 := by
  obtain ⟨-, -, -, -, -, -, -, -, -, hh⟩ := h
  unfold Code.handlerEnd
  rw [hh]
  exact ⟨rfl, rfl⟩

/-- The package has caught the first exception. -/
theorem exists_nested_run (h : IsNested code) :
    ∃ es, Run (Observed watch (Step fun _ => 0)) (Thread.start 0 true, []) es
      (nestedThread code 28 1 [nestedCaught code 19 1 []]) := by
  obtain ⟨hend, -⟩ := h.handlerEnd
  obtain ⟨h₀, h₁, -, -, -, -, -, -, htbl, -⟩ := h
  have hrow : findExceptionTableEntry code.fields.excTbl 9 = some 19 := by
    rw [htbl]
    rfl
  have hlive : ∀ pc, 19 ≤ pc → pc < 123 → ∀ c ∈ [nestedCaught code 19 1 []],
      c.live (nestedThread code pc 1 []).1.frames := by
    intro pc hs he c hc
    rw [List.mem_singleton.1 hc]
    exact live_nested hs (by rw [hend]; exact he)
  refine ⟨[.native, .native, .exec 1 0, .raise 1, .land, .exec 1 19], ?_⟩
  refine .cons (t := (⟨[.finish 0], [.main], 0, none, .calling⟩, []))
    ⟨.nativePushFinish 0 rfl (by rintro f ⟨⟩), rfl⟩ ?_
  refine .cons (t := nestedThread code 0 0 []) ⟨.mainloop ⟨1, code, 0, none, none⟩ rfl rfl rfl,
    rfl⟩ ?_
  refine .cons (t := nestedThread code 9 0 []) (nested_exec h₀ rfl (Or.inl rfl) rfl) ?_
  refine .cons (nested_raise 1 (by simp)) ?_
  refine .cons (nested_land hrow (hlive 19 (by decide) (by decide))) ?_
  exact .single (nested_exec h₁ rfl (Or.inl rfl)
    (List.filter_eq_self.2 (hlive 28 (by decide) (by decide))))

end Nested

/-- Which of the uses are those of the outer `try`: the `raise` is. -/
def nestedUse (f : ScriptFrame) (c : Caught Nat) : Prop := f.pc = 76 ∧ c.frame.pc = 19

end Yog
