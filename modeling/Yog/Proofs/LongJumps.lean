import Yog.Proofs.Unwinding

/-!
# Long jumps and `finally`

A `break` or `return` in a block goes to its frame without a look at the exception tables of the
frames it leaves: until the frame goes on no instruction is executed (`executed_onWay`), so the
`finally` bodies the jump leaves are executed exactly when there are none (`leavesWell_iff`). For
the same reason no `except` clause takes the jump for an exception.
-/

namespace Yog

/-- The rows of the exception table for the place a frame is at, those of inner `try` statements
first. -/
def ScriptFrame.activeRows (f : ScriptFrame) : List (ExceptionTableEntry Nat) :=
  f.code.fields.excTbl.filter fun e => e.from_ < f.pc ∧ f.pc ≤ e.to_

section Finally

-- Which handlers of a code are `finally` bodies: the compiler knows, and the machine does not.
variable (isFinally : Code → Nat → Bool)

/-- The `finally` bodies of the `try` statements a frame is in, by the frame and the place they
start at. -/
def Frame.activeFinallies : Frame → List (Nat × Nat)
  | .script f => ((f.activeRows.map ExceptionTableEntry.target).filter (isFinally f.code)).map (f.id, ·)
  | _ => []

/-- The `finally` bodies of the `try` statements that are active in a chain, innermost first. -/
def activeFinallies (fs : List Frame) : List (Nat × Nat) :=
  fs.flatMap (Frame.activeFinallies isFinally)

variable {V : Type}

/-- Those of these bodies a run starts to execute, in the order it does. -/
def startedAmong (bodies : List (Nat × Nat)) (es : List (Event V)) : List (Nat × Nat) :=
  es.filterMap fun
    | .exec id pc => if bodies.contains (id, pc) then some (id, pc) else none
    | _ => none

/-- The steps of a long jump on its way. -/
def OnWay (localJumpError : JmpStatus → V) (status : JmpStatus) :
    Thread V → Event V → Thread V → Prop :=
  Only (fun s _ => s.control = .jumping status ∨ s.control = .cleanup status) (Step localJumpError)

/-- The jump arrives: the thread executes again, in the frame the jump goes to. -/
structure Arrives (localJumpError : JmpStatus → V) (status : JmpStatus) (t : Thread V)
    (es : List (Event V)) (u : Thread V) : Prop where
  run : Run (OnWay localJumpError status) t es u
  running : u.control = .running
  target : ∃ f ∈ u.frames.head?, f.isTarget t.frameToLongJump

/-- What is asked of a jump that arrives: it has executed each `finally` body of a `try` it leaves
once, innermost first, and no `try` has caught it, so every frame left is where it was. -/
def LeavesWell (t : Thread V) (es : List (Event V)) (u : Thread V) : Prop :=
  startedAmong (activeFinallies isFinally (framesAbove t.frameToLongJump t.frames)) es =
      activeFinallies isFinally (framesAbove t.frameToLongJump t.frames) ∧
    u.frames <:+ t.frames

variable {localJumpError : JmpStatus → V} {status : JmpStatus} {t u : Thread V}

theorem OnWay.event {e : Event V} (h : OnWay localJumpError status t e u) :
    e = .land ∨ ∃ exc, e = .raise exc := by
  obtain ⟨hc | hc, hs⟩ := h
  · exact Or.inl (hs.of_jumping hc).1
  · rcases hs.of_cleanup hc with ⟨_, _, he, -⟩ | ⟨exc, he, -⟩
    · exact Or.inl he
    · exact Or.inr ⟨exc, he⟩

/-- A jump on its way executes nothing. -/
theorem startedAmong_onWay {bodies : List (Nat × Nat)} {es : List (Event V)}
    (h : Run (OnWay localJumpError status) t es u) : startedAmong bodies es = [] := by
  induction h with
  | nil => rfl
  | cons hs _ ih =>
    rcases hs.event with rfl | ⟨exc, rfl⟩
    · exact ih
    · exact ih

theorem searchFrame_suffix {target : Option Nat} : ∀ {fs fs' : List Frame},
    searchFrame target fs = .found fs' → fs' <:+ fs
  | .c _ :: fs, fs', h => by cases h
  | .finish id :: fs, fs', h => by
    rw [searchFrame_cons _ rfl] at h
    split at h
    · cases h
      exact List.suffix_refl _
    · exact (searchFrame_suffix h).trans (List.suffix_cons _ _)
  | .script f :: fs, fs', h => by
    rw [searchFrame_cons _ rfl] at h
    split at h
    · cases h
      exact List.suffix_refl _
    · exact (searchFrame_suffix h).trans (List.suffix_cons _ _)

theorem skipToCFrame_suffix {fs fs' : List Frame} (h : skipToCFrame fs = some fs') : fs' <:+ fs :=
  (skipToCFrameFrom_suffix h).trans (List.tail_suffix _)

/-- A step of a long jump leaves the frames below as they are, unless an exception takes its
place. -/
theorem OnWay.suffix {e : Event V} (h : OnWay localJumpError status t e u) (hs : status ≠ .raise)
    (hu : u.control ≠ .jumping .raise) : u.frames <:+ t.frames := by
  obtain ⟨hc | hc, hstep⟩ := h
  · obtain ⟨-, hl⟩ := hstep.of_jumping hc
    have hskip : skipCFrame t.frames <:+ t.frames := List.dropWhile_suffix _
    rcases hb : t.jmpBufList with _ | ⟨b, bufs⟩
    · rw [Thread.land_nil hb] at hl
      cases hl
    · cases b with
      | mainloop d =>
        rw [Thread.land_mainloop hb, Thread.enterMainloop_of_ne hs] at hl
        unfold Thread.followJump at hl
        rcases hsearch : searchFrame t.frameToLongJump (skipCFrame t.frames) with fs | _ | _
        · rw [hsearch] at hl
          cases hl
          exact (searchFrame_suffix hsearch).trans hskip
        · rw [hsearch] at hl
          obtain ⟨fs, hfs, rfl⟩ := Option.map_eq_some_iff.1 hl
          exact (skipToCFrame_suffix hfs).trans hskip
        · rw [hsearch] at hl
          cases hl
          exact (hu rfl).elim
      | guard d =>
        rw [Thread.land_guard hb] at hl
        cases hl
        exact List.suffix_refl _
      | compareVal d =>
        rw [Thread.land_compareVal hb] at hl
        cases hl
        exact List.suffix_refl _
      | main =>
        rw [Thread.land_main hb] at hl
        cases hl
        exact List.suffix_refl _
      | stale =>
        rw [Thread.land_stale hb] at hl
        cases hl
  · rcases hstep.of_cleanup hc with ⟨_, _, -, -, rfl⟩ | ⟨exc, -, rfl⟩
    · exact List.suffix_refl _
    · exact (hu rfl).elim

theorem suffix_of_run {es : List (Event V)} (h : Run (OnWay localJumpError status) t es u)
    (hs : status ≠ .raise) (hu : u.control = .running) : u.frames <:+ t.frames := by
  induction h with
  | nil => exact List.suffix_refl _
  | @cons t s u e es hstep hr ih =>
    have hc : s.control ≠ .jumping .raise := by
      cases hr with
      | nil =>
        rw [hu]
        exact Control.noConfusion
      | cons hnext _ =>
        intro hraise
        rcases hnext.1 with h | h <;> rw [hraise] at h <;> cases h
        exact hs rfl
    exact (ih hu).trans (hstep.suffix hs hc)

/-- Frames without a loop are those of native functions. -/
theorem Sync.isC_of_no_loop {fs : List Frame} {bufs : List JmpBuf} (h : Sync fs bufs)
    (hb : mainloopDepths bufs = []) : ∀ f ∈ fs, f.isC := by
  induction h with
  | nil => simp
  | main => simp
  | @native b fs bufs hn _ _ ih =>
    refine ih ?_
    cases b with
    | guard d => exact hb
    | compareVal d => exact hb
    | mainloop d => cases hn
    | main => cases hn
    | stale => cases hn
  | c _ _ ih =>
    intro f hf
    rcases List.mem_cons.1 hf with rfl | hf
    · rfl
    · exact ih hb f hf
  | loop => cases hb
  | script => cases hb

/-- A jump to a frame on the chain has a loop to go to. -/
theorem Thread.Jumped.has_loop (h : t.Jumped) : mainloopDepths t.jmpBufList ≠ [] := by
  intro hb
  obtain ⟨f, hf, ht⟩ := h.target
  rw [Frame.isTarget_of_isC (h.sync.isC_of_no_loop hb f hf)] at ht
  cases ht

/-- A jump goes on to the same frame with the same values. -/
structure Thread.Follows (t u : Thread V) : Prop where
  frames : framesFrom t.frameToLongJump u.frames = framesFrom t.frameToLongJump t.frames
  jmpVal : u.jmpVal = t.jmpVal

/-- The buffer a jump lands on is that of a main loop or of a call that cleans up. -/
theorem Thread.Jumped.head_cases (h : t.Jumped) {b : JmpBuf} {bufs : List JmpBuf}
    (hb : t.jmpBufList = b :: bufs) : (∃ d, b = .mainloop d) ∨ ∃ d, b = .guard d := by
  have hsync := h.sync
  rw [hb] at hsync
  cases b with
  | mainloop d => exact .inl ⟨d, rfl⟩
  | guard d => exact .inr ⟨d, rfl⟩
  | compareVal d =>
    have hlt := h.safe.1 d (by rw [hb]; exact List.mem_cons_self)
    exact absurd hlt (Nat.not_lt.2 (hsync.length_framesFrom_le t.frameToLongJump rfl))
  | main =>
    refine absurd ?_ h.has_loop
    rw [hb]
    exact hsync.mainloopDepths_of_main
  | stale => exact hsync.not_stale.elim

/-- A step of a jump takes it nearer, or to its frame, unless an exception takes its place. -/
theorem Thread.Jumped.follows {e : Event V} (h : t.Jumped) (hs : status ≠ .raise)
    (ho : Yog.OnWay localJumpError status t e u) :
    (u.Jumped ∧ u.frameToLongJump = t.frameToLongJump ∧ t.Follows u ∧
        (u.control = .jumping status ∨ u.control = .cleanup status)) ∨
      (u.control = .running ∧ u.frames = framesFrom t.frameToLongJump t.frames ∧
        u.jmpVal = t.jmpVal) ∨ u.control = .jumping .raise := by
  obtain ⟨hc | hc, hstep⟩ := ho
  · obtain ⟨-, hl⟩ := hstep.of_jumping hc
    rcases hb : t.jmpBufList with _ | ⟨b, bufs⟩
    · rw [Thread.land_nil hb] at hl
      cases hl
    · rcases h.head_cases hb with ⟨d, rfl⟩ | ⟨d, rfl⟩
      · rw [Thread.land_mainloop hb] at hl
        obtain ⟨v, hv, hval, hcase⟩ := h.enterMainloop localJumpError hs hb
        rw [hl] at hv
        cases hv
        rcases hcase with ⟨hr, -, hfs⟩ | ⟨hj, hcu, ht, hfs, -⟩
        · exact Or.inr (Or.inl ⟨hr, hfs, hval⟩)
        · exact Or.inl ⟨hj, ht, ⟨hfs, hval⟩, Or.inl (hcu.trans hc)⟩
      · rw [Thread.land_guard hb] at hl
        cases hl
        exact Or.inl ⟨⟨h.sync, h.top, h.target, h.safe⟩, rfl, ⟨rfl, rfl⟩, Or.inr rfl⟩
  · rcases hstep.of_cleanup hc with ⟨d, bufs, -, hb, rfl⟩ | ⟨exc, -, rfl⟩
    · refine Or.inl ⟨⟨(hb ▸ h.sync).pop rfl, h.top, h.target, fun d' hd' => h.safe.1 d' ?_,
        h.safe.2⟩, rfl, ⟨rfl, rfl⟩, Or.inl rfl⟩
      rw [hb]
      exact List.mem_cons_of_mem _ hd'
    · exact Or.inr (Or.inr rfl)

/-- Where a jump ends it has arrived: at its frame, with its values. -/
theorem Thread.Jumped.arrived {es : List (Event V)} (h : t.Jumped) (hs : status ≠ .raise)
    (hc : t.control = .jumping status ∨ t.control = .cleanup status)
    (hr : Run (Yog.OnWay localJumpError status) t es u) (hu : u.control = .running) :
    u.frames = framesFrom t.frameToLongJump t.frames ∧ u.jmpVal = t.jmpVal := by
  induction hr with
  | nil =>
    rw [hu] at hc
    rcases hc with hc | hc <;> cases hc
  | @cons t s u e es hstep hr ih =>
    have hstuck : ¬(s.control = .jumping status ∨ s.control = .cleanup status) → u = s := by
      intro hn
      cases hr with
      | nil => rfl
      | cons hnext _ => exact absurd hnext.1 hn
    rcases h.follows hs hstep with ⟨hj, ht, hfollows, hcs⟩ | ⟨hrun, hfs, hval⟩ | hraise
    · obtain ⟨hfs, hval⟩ := ih hj hcs hu
      rw [ht] at hfs
      exact ⟨hfs.trans hfollows.frames, hval.trans hfollows.jmpVal⟩
    · rw [hstuck (by rw [hrun]; simp)]
      exact ⟨hfs, hval⟩
    · rw [hstuck (by rw [hraise]; simpa using hs.symm)] at hu
      rw [hu] at hraise
      cases hraise

theorem head_framesFrom {target : Option Nat} : ∀ {fs : List Frame},
    (∃ f ∈ fs, f.isTarget target) → ∃ f ∈ (framesFrom target fs).head?, f.isTarget target
  | [], h => by simp at h
  | f :: fs, ⟨g, hg, hgt⟩ => by
    rcases ht : f.isTarget target with _ | _
    · rw [framesFrom_cons _ ht]
      rcases List.mem_cons.1 hg with rfl | hg
      · rw [hgt] at ht
        cases ht
      · exact head_framesFrom ⟨g, hg, hgt⟩
    · rw [framesFrom_of_target _ ht]
      exact ⟨f, rfl, ht⟩

/-- A jump arrives. -/
theorem Thread.Jumped.exists_arrives (h : t.Jumped) (hs : status ≠ .raise)
    (hc : t.control = .jumping status) : ∃ es u, Arrives localJumpError status t es u := by
  obtain ⟨n, hn⟩ : ∃ n, t.jmpBufList.length = n := ⟨_, rfl⟩
  induction n generalizing t with
  | zero =>
    rw [List.length_eq_zero_iff] at hn
    refine absurd ?_ h.has_loop
    rw [hn]
    rfl
  | succ n ih =>
    have hstep : ∀ {s : Thread V}, t.land localJumpError status = some s →
        Yog.OnWay localJumpError status t .land s := fun hl => ⟨Or.inl hc, .land hc hl⟩
    rcases hb : t.jmpBufList with _ | ⟨b, bufs⟩
    · rw [hb] at hn
      cases hn
    · rw [hb, List.length_cons, Nat.succ.injEq] at hn
      rcases h.head_cases hb with ⟨d, rfl⟩ | ⟨d, rfl⟩
      · obtain ⟨u, hu, -, hcase⟩ := h.enterMainloop localJumpError hs hb
        rw [← Thread.land_mainloop hb] at hu
        rcases hcase with ⟨hr, -, hfs⟩ | ⟨hj, hcu, ht, -, hbu⟩
        · refine ⟨_, u, .single (hstep hu), hr, ?_⟩
          rw [hfs]
          exact head_framesFrom h.target
        · obtain ⟨es, v, harr⟩ := ih hj (hcu.trans hc) (by rw [hbu, hn])
          refine ⟨_, v, .cons (hstep hu) harr.run, harr.running, ?_⟩
          rw [← ht]
          exact harr.target
      · have hj : Thread.Jumped { t with jmpBufList := bufs, control := .jumping status } := by
          refine ⟨(hb ▸ h.sync).pop rfl, h.top, h.target, fun d' hd' => h.safe.1 d' ?_, h.safe.2⟩
          rw [hb]
          exact List.mem_cons_of_mem _ hd'
        obtain ⟨es, v, harr⟩ := ih hj rfl hn
        have hreleased : Yog.OnWay localJumpError status { t with control := .cleanup status } .land
            { t with jmpBufList := bufs, control := .jumping status } :=
          ⟨Or.inr rfl, .released rfl hb⟩
        exact ⟨_, v, .cons (hstep (Thread.land_guard hb)) (.cons hreleased harr.run),
          harr.running, harr.target⟩

/-- A jump out of a block that arrives does what is asked of it exactly when it leaves no `try` that
has a `finally` body. -/
theorem leavesWell_iff {t₀ : Thread V} {id pc : Nat} {es : List (Event V)}
    (hj : Step localJumpError t₀ (.longJump id pc status) t)
    (ha : Arrives localJumpError status t es u) :
    LeavesWell isFinally t es u ↔
      activeFinallies isFinally (framesAbove t.frameToLongJump t.frames) = [] := by
  have hs : status ≠ .raise := by
    cases hj with
    | @longJump f fs op next status n vals hf hj ho =>
      rintro rfl
      cases op <;> cases hj
  unfold LeavesWell
  rw [startedAmong_onWay ha.run]
  constructor
  · rintro ⟨h, -⟩
    exact h.symm
  · intro h
    exact ⟨h.symm, suffix_of_run ha.run hs ha.running⟩

/-! A `break` in a block that was passed to a native function: two main loops are left. -/

/-- `1.times() do … end`. -/
def breakStmts (body : List Stmt) : List Stmt :=
  [.expr (.funcCall 1 (.attr 1 (.literal 1 (.fixnum 1)) 7) (.mk [] [] none none none)
    (some (.mk 1 [] body)))]

/-- The package is at the call, and the block at `pc`. -/
def breakThread (code block : Code) (pc : Nat) : Thread Unit where
  frames := [.script ⟨4, block, pc, none, some 1⟩, .finish 3, .c 2,
    .script ⟨1, code, 37, none, none⟩, .finish 0]
  jmpBufList := [.mainloop 4, .mainloop 1, .main]
  jmpVal := ()
  frameToLongJump := none
  control := .running

/-- The block is on its way to the package. -/
def brokenThread (code block : Code) : Thread Unit :=
  { breakThread code block 2 with frameToLongJump := some 1, control := .jumping .break_ }

/-- The package goes on after the call. -/
def afterBreak (code : Code) : Thread Unit where
  frames := [.script ⟨1, code, 37, none, none⟩, .finish 0]
  jmpBufList := [.mainloop 1, .main]
  jmpVal := ()
  frameToLongJump := some 1
  control := .running

/-- The code is that of `breakStmts`, and the block starts with the `break`. -/
def IsBreak (code block : Code) : Prop :=
  fetch code.fields.insts 0 = some (.pushConst 0, 9) ∧
  fetch code.fields.insts 9 = some (.makeBlock, 10) ∧
  fetch code.fields.insts 10 = some (.pushConst 1, 19) ∧
  fetch code.fields.insts 19 = some (.loadAttr 7, 28) ∧
  fetch code.fields.insts 28 = some (.callFunction 0 0 0 0 1 0 0 0, 37) ∧
  fetch block.fields.insts 0 = some (.longBreak 0, 2)

instance (code block : Code) : Decidable (IsBreak code block) :=
  inferInstanceAs (Decidable (_ ∧ _ ∧ _ ∧ _ ∧ _ ∧ _))

theorem exists_break_run {code block : Code} (h : IsBreak code block) :
    ∃ es, Run (Step fun _ => ()) (.start () true) es (breakThread code block 0) := by
  obtain ⟨h₀, h₁, h₂, h₃, h₄, -⟩ := h
  let f : ScriptFrame := ⟨1, code, 0, none, none⟩
  let at_ (pc : Nat) : Thread Unit :=
    ⟨[.script { f with pc }, .finish 0], [.mainloop 1, .main], (), none, .running⟩
  have hloop : ∀ pc, (at_ pc).InLoop := by
    rintro pc b ⟨⟩
    rfl
  refine ⟨[.native, .native, .exec 1 0, .exec 1 9, .exec 1 10, .exec 1 19, .exec 1 28, .native,
    .native], ?_⟩
  refine .cons (.nativePushFinish 0 rfl (by rintro f ⟨⟩)) ?_
  refine .cons (.mainloop f rfl rfl rfl) ?_
  refine .cons (t := at_ 9) (.exec ⟨rfl, rfl, hloop 0, h₀⟩ rfl (Or.inl rfl)) ?_
  refine .cons (t := at_ 10) (.exec ⟨rfl, rfl, hloop 9, h₁⟩ rfl (Or.inl rfl)) ?_
  refine .cons (t := at_ 19) (.exec ⟨rfl, rfl, hloop 10, h₂⟩ rfl (Or.inl rfl)) ?_
  refine .cons (t := at_ 28) (.exec ⟨rfl, rfl, hloop 19, h₃⟩ rfl (Or.inl rfl)) ?_
  refine .cons (.callNative 2 ⟨rfl, rfl, hloop 28, h₄⟩ rfl) ?_
  refine .cons (.nativePushFinish 3 rfl (by rintro f ⟨⟩; rfl)) ?_
  exact .single (.mainloop ⟨4, block, 0, none, some 1⟩ rfl rfl rfl)

theorem break_step {code block : Code} (h : IsBreak code block) :
    Step (fun _ => ()) (breakThread code block 0) (.longJump 4 0 .break_)
      (brokenThread code block) := by
  obtain ⟨-, -, -, -, -, h⟩ := h
  refine .longJump (f := ⟨4, block, 0, none, some 1⟩) () ⟨rfl, rfl, ?_, h⟩ rfl rfl
  rintro b ⟨⟩
  rfl

theorem arrives_break (code block : Code) :
    Arrives (fun _ => ()) .break_ (brokenThread code block) [.land, .land] (afterBreak code) where
  run := .cons ⟨Or.inl rfl, .land rfl rfl⟩ (.single ⟨Or.inl rfl, .land rfl rfl⟩)
  running := rfl
  target := ⟨_, rfl, rfl⟩

/-- The code and its block, with a check of the exception table of the block. -/
def checkBreak (excTbl : List (ExceptionTableEntry Nat)) (code : Code) : Bool :=
  code.fields.consts.any fun
    | .code block => decide (IsBreak code block ∧ block.fields.excTbl = excTbl)
    | .val _ => false

theorem exists_block {excTbl : List (ExceptionTableEntry Nat)} {code : Code}
    (h : checkBreak excTbl code = true) : ∃ block, .code block ∈ code.fields.consts ∧
      IsBreak code block ∧ block.fields.excTbl = excTbl := by
  obtain ⟨const, hmem, hconst⟩ := List.any_eq_true.1 h
  cases const with
  | val v => cases hconst
  | code block => exact ⟨block, hmem, of_decide_eq_true hconst⟩

/-- In a block that is just a `break` nothing is to be run on the way. -/
theorem leavesWell_break : ∃ code block,
    compilePackage .sample 6 "a.yog" (breakStmts [.break_ 3 []]) false = .ok code ∧
    .code block ∈ code.fields.consts ∧
    LeavesWell (fun _ _ => true) (brokenThread code block) [.land, .land] (afterBreak code) := by
  obtain ⟨code, hcode, h⟩ := Except.exists_of_any
    (x := compilePackage .sample 6 "a.yog" (breakStmts [.break_ 3 []]) false)
    (p := checkBreak []) (by decide +kernel)
  obtain ⟨block, hmem, hbreak, htbl⟩ := exists_block h
  refine ⟨code, block, hcode, hmem, (leavesWell_iff (fun _ _ => true) (break_step hbreak)
    (arrives_break code block)).2 ?_⟩
  simp [brokenThread, breakThread, framesAbove, Frame.isTarget, Frame.isC, Frame.id,
    activeFinallies, Frame.activeFinallies, ScriptFrame.activeRows, htbl]

/-- The body of `try break finally b end` is not executed: the jump leaves the block, and the
package goes on. -/
theorem not_leavesWell_break : ∃ code block es,
    compilePackage .sample 6 "a.yog"
      (breakStmts [.finally_ 2 [.break_ 3 []] [.expr (.variable 5 9)]]) false = .ok code ∧
    .code block ∈ code.fields.consts ∧
    Run (Step fun _ => ()) (.start () true) es (breakThread code block 0) ∧
    Step (fun _ => ()) (breakThread code block 0) (.longJump 4 0 .break_)
      (brokenThread code block) ∧
    Arrives (fun _ => ()) .break_ (brokenThread code block) [.land, .land] (afterBreak code) ∧
    ¬LeavesWell (fun _ _ => true) (brokenThread code block) [.land, .land] (afterBreak code) := by
  obtain ⟨code, hcode, h⟩ := Except.exists_of_any
    (x := compilePackage .sample 6 "a.yog"
      (breakStmts [.finally_ 2 [.break_ 3 []] [.expr (.variable 5 9)]]) false)
    (p := checkBreak [⟨0, 2, 21⟩]) (by decide +kernel)
  obtain ⟨block, hmem, hbreak, htbl⟩ := exists_block h
  obtain ⟨es, hrun⟩ := exists_break_run hbreak
  refine ⟨code, block, es, hcode, hmem, hrun, break_step hbreak, arrives_break code block, ?_⟩
  rintro ⟨hstarted, -⟩
  have hbodies : activeFinallies (fun _ _ => true)
      (framesAbove (some 1) (brokenThread code block).frames) = [(4, 21)] := by
    simp [brokenThread, breakThread, framesAbove, Frame.isTarget, Frame.isC, Frame.id,
      activeFinallies, Frame.activeFinallies, ScriptFrame.activeRows, htbl]
  have htarget : (brokenThread code block).frameToLongJump = some 1 := rfl
  rw [htarget, hbodies] at hstarted
  cases hstarted

end Finally

end Yog
