import Yog.Proofs.Activations
import Yog.Proofs.Levels

/-!
# Frames of the bodies around

An access to a variable of a body around reads a cell of the frame. The compiler gives a body as many
cells as its accesses reach, and a call fills them from the frame of the body around it; but the frame
of a class, a module or a package is pushed with its cells empty. So an access gets to the activation
it means exactly when its body and the bodies it passes are functions and blocks
(`accessRight_iff`). A level of 256 is stored as none.
-/

namespace Yog

/-- What a body executes is in its list. -/
def CodeOf.Executes (code : CodeOf Code) : Prop :=
  ∀ pc op next, Reaches code pc → fetch code.insts pc = some (op, next) →
    op ∈ resolve (code.list.map Inst.narrow)

theorem executes_ofMakeCode : OfMakeCode CodeOf.Executes where
  make {ctx funcName insts s code depths} h pc op next hp hf := by
    obtain ⟨hlist, -, hbin, -, hexc, -⟩ := makeCode_eq_ok h
    have hr : EndsWithRet (code.list.map Inst.narrow) := hlist ▸ (withRet_eq insts).narrow
    obtain ⟨op', n, hf', -, hmem, -⟩ := fetch_boundary hbin hr (boundary_of_reaches hbin hr hexc hp)
    rw [hf] at hf'
    cases hf'
    exact hmem
  argInfo {code info} h pc op next hp := h pc op next (by
    induction hp with
    | entry => exact .entry
    | next _ hf hn ih => exact .next ih hf hn
    | jump _ hf hd ih => exact .jump ih hf hd
    | raise _ hf ht ih => exact .raise ih hf ht)

theorem Op.level?_mapDest {δ ε : Type} (f : δ → ε) (op : Op δ) : (op.mapDest f).level? = op.level? := by
  cases op <;> rfl

theorem Op.level?_narrow {δ : Type} (op : Op δ) :
    op.narrow.level? = op.level?.map (· % 2 ^ 8) := by
  cases op <;> rfl

/-- The cells of a body reach what it executes. -/
theorem level_le_outerSize {code : CodeOf Code} (hl : code.Leveled) (he : code.Executes) {pc : Nat}
    {op : Op Nat} {next level : Nat} (hp : Reaches code pc)
    (hf : fetch code.insts pc = some (op, next)) (hlevel : op.level? = some level) :
    (level : Int) ≤ code.outerSize := by
  obtain ⟨o, ho, rfl⟩ := List.mem_map.1 (he pc op next hp hf)
  obtain ⟨i, hi, hio⟩ := List.mem_filterMap.1 ho
  obtain ⟨j, hj, rfl⟩ := List.mem_map.1 hi
  cases j with
  | label l => cases hio
  | note n => cases hio
  | op lineno o' =>
    cases hio
    rw [Op.level?_mapDest, Op.level?_narrow] at hlevel
    obtain ⟨l, hl', rfl⟩ := Option.map_eq_some_iff.1 hlevel
    obtain ⟨-, hle⟩ := hl.level _ hj l hl'
    have := Nat.mod_le l (2 ^ 8)
    omega

namespace Vm

/-- The code of a package, compiled anyhow. -/
def Compiled (code : Code) : Prop :=
  ∃ env fuel filename stmts interactive,
    compilePackage env fuel filename stmts interactive = .ok code

/-- What is known of the bodies of compiled packages. -/
def CompiledBody (code : Code) : Prop := code.All CodeOf.Leveled ∧ code.All CodeOf.Executes

theorem Compiled.body {code : Code} (h : Compiled code) : CompiledBody code := by
  obtain ⟨env, fuel, filename, stmts, interactive, h⟩ := h
  exact ⟨package_levels h, package_all executes_ofMakeCode h⟩

theorem nested_compiledBody : Nested CompiledBody where
  const c d hc hd := by
    obtain ⟨⟨-, hl⟩, ⟨-, he⟩⟩ := hc
    exact ⟨hl d hd, he d hd⟩
  depth c d hc hd := by
    obtain ⟨⟨hl, -⟩, -⟩ := hc
    have hle := hl.const d hd
    unfold depth
    rw [Code.fields]
    omega

section Runs

variable {packages : Code → Prop} {s : State}

theorem inv_of_compiled (hp : ∀ code, packages code → Compiled code)
    (h : Relation.ReflTransGen (Step packages) State.start s) : Inv CompiledBody s :=
  inv_of_run nested_compiledBody (fun code hc => (hp code hc).body) h

/-- What is asked of an access of this level: it has a cell, and in that cell is the frame of the
activation of the body so many bodies out that was live when the running body was made. -/
structure AccessRight (s : State) (f : FrameObj) (level : Nat) : Prop where
  pos : 1 ≤ level
  le : level ≤ f.outerFrames.length
  frame : ∃ b g, f.enclosing[level - 1]? = some b ∧
    f.outerFrames[level - 1]? = some (some (.script b.frame)) ∧
    s.heap b.frame = some g ∧ g.act = b

theorem expectedCell_of_mem_names : ∀ {as : List Activation} {j : Nat},
    (∃ a ∈ as.take (j + 1), a.kind = .names) → expectedCell as j = none
  | [], _, _ => rfl
  | a :: as, j, ⟨b, hb, hk⟩ => by
    by_cases ha : a.kind = .names
    · exact expectedCell_of_names ha as j
    · rw [List.take_succ_cons] at hb
      rcases List.mem_cons.1 hb with rfl | hb
      · exact absurd hk ha
      · rcases as with _ | ⟨c, as⟩
        · simp at hb
        · rcases j with _ | j
          · simp at hb
          · rw [expectedCell_succ ha]
            exact expectedCell_of_mem_names ⟨b, hb, hk⟩

/-- Through functions and blocks the cells lead to the activations around. -/
theorem Inv.expectedCell {K : Code → Prop} (h : Inv K s) {j : Nat} {f : FrameObj}
    (hf : f.Right K s.heap) (hk : ∀ a ∈ (f.act :: f.enclosing).take (j + 1), a.kind ≠ .names) :
    ∃ b g, f.enclosing[j]? = some b ∧
      expectedCell (f.act :: f.enclosing) j = some (.script b.frame) ∧
      s.heap b.frame = some g ∧ g.act = b := by
  induction j generalizing f with
  | zero =>
    have hkind : f.act.kind ≠ .names := hk f.act (by simp)
    obtain ⟨b, bs, g, henc, hg, hact, -⟩ := hf.remembered hkind
    rw [henc]
    exact ⟨b, g, rfl, expectedCell_zero hkind, hg, hact⟩
  | succ j ih =>
    have hkind : f.act.kind ≠ .names := hk f.act (by simp)
    obtain ⟨b, bs, g, henc, hg, hact, hbs, hused, -⟩ := hf.remembered hkind
    rw [henc] at hk ⊢
    have hk' : ∀ a ∈ (g.act :: g.enclosing).take (j + 1), a.kind ≠ .names := by
      intro a ha
      refine hk a ?_
      rw [List.take_succ_cons, ← hact, ← hbs]
      exact List.mem_cons_of_mem _ ha
    obtain ⟨c, k, hc, hcell, hheap, hck⟩ := ih (h.used _ g hg hused) hk'
    refine ⟨c, k, ?_, ?_, hheap, hck⟩
    · rw [List.getElem?_cons_succ, ← hbs]
      exact hc
    · rw [expectedCell_succ hkind, ← hact, ← hbs]
      exact hcell

/-- In every run an access gets to the activation it means exactly when its level is not lost, and
neither the running body nor one it passes is a class, a module or a package. -/
theorem accessRight_iff (hp : ∀ code, packages code → Compiled code)
    (h : Relation.ReflTransGen (Step packages) State.start s) {a : Nat} {f : FrameObj}
    {rest : List FrameRef} (hr : s.current.frames = .script a :: rest) (hf : s.heap a = some f)
    {pc next level : Nat} {op : Op Nat} (hpc : Reaches f.code.fields pc)
    (hop : fetch f.code.fields.insts pc = some (op, next)) (hl : op.level? = some level) :
    AccessRight s f level ↔
      level ≠ 0 ∧ ∀ a ∈ (f.act :: f.enclosing).take level, a.kind ≠ .names := by
  have hinv := inv_of_compiled hp h
  obtain ⟨-, hright⟩ := hinv.top hr hf
  have hle : level ≤ depth f.code := by
    obtain ⟨hleveled, hexecutes⟩ := hright.code
    have hbody : ∀ {P : CodeOf Code → Prop} {code : Code}, code.All P → P code.fields := by
      rintro P _ ⟨hp, -⟩
      exact hp
    have := level_le_outerSize (hbody hleveled) (hbody hexecutes) hpc hop hl
    unfold depth
    omega
  rcases level with _ | j
  · constructor
    · intro ha
      exact absurd ha.pos (Nat.not_succ_le_zero 0)
    · rintro ⟨h0, -⟩
      exact absurd rfl h0
  · have hcell := hright.cells j hle
    constructor
    · rintro ⟨-, -, b, g, -, hb, -⟩
      refine ⟨Nat.succ_ne_zero j, fun c hc hk => ?_⟩
      rw [Nat.add_sub_cancel, hcell, expectedCell_of_mem_names ⟨c, hc, hk⟩] at hb
      cases hb
    · rintro ⟨-, hk⟩
      obtain ⟨b, g, hb, he, hg, hgb⟩ := hinv.expectedCell hright hk
      obtain ⟨hlt, -⟩ := List.getElem?_eq_some_iff.1 hcell
      refine ⟨Nat.succ_pos j, hlt, b, g, hb, ?_, hg, hgb⟩
      rw [Nat.add_sub_cancel, hcell, he]

end Runs

/-! A block reads a variable of the package, and a method of a class in a function one of the
function. -/

/-- `a = 1`, `f() do a end`. -/
def blockReadStmts : List Stmt :=
  [.expr (.assign 1 (.variable 1 5) (.literal 1 (.fixnum 1))),
    .expr (.funcCall 2 (.variable 2 6) (.mk [] [] none none none)
      (some (.mk 2 [] [.expr (.variable 3 5)])))]

/-- `def f() a = 1; class C def m() a end end; C().m() end`, `f()`. -/
def methodReadStmts : List Stmt :=
  [.funcDef 1 [] 5 []
      [.expr (.assign 2 (.variable 2 6) (.literal 2 (.fixnum 1))),
        .klass 3 [] 7 none [.funcDef 4 [] 8 [] [.expr (.variable 5 6)]],
        .expr (.funcCall 6
          (.attr 6 (.funcCall 6 (.variable 6 7) (.mk [] [] none none none) none) 8)
          (.mk [] [] none none none) none)],
    .expr (.funcCall 7 (.variable 7 5) (.mk [] [] none none none) none)]

/-- The native function `f` has called the block. -/
theorem accessRight_block : ∃ code s f,
    compilePackage .sample 6 "a.yog" blockReadStmts false = .ok code ∧
    Relation.ReflTransGen (Step (· = code)) State.start s ∧
    s.current.frames.head? = some (.script 3) ∧ s.heap 3 = some f ∧ Reaches f.code.fields 0 ∧
    fetch f.code.fields.insts 0 = some (.loadNonlocalName 1 5, 10) ∧ AccessRight s f 1 := by
  obtain ⟨code, hcode, h⟩ := Except.exists_of_any
    (x := compilePackage .sample 6 "a.yog" blockReadStmts false)
    (p := Code.anyBody fun block =>
      fetch block.fields.insts 0 = some (.loadNonlocalName 1 5, 10)) (by decide +kernel)
  obtain ⟨block, hmem, hfetch⟩ := Code.exists_of_anyBody h
  have hfetch := of_decide_eq_true hfetch
  have hp : ∀ c, c = code → Compiled c := by
    rintro _ rfl
    exact ⟨_, _, _, _, _, hcode⟩
  let s₁ := State.start.pushFinishFrame
  let s₂ := s₁.execNames code []
  let f₁ := namesFrame code [] 0 (.finish 0) 1 (depth code)
  let s₃ := (s₂.makeBlock 1 f₁ block).pass (some 0)
  let s₄ := (s₃.push .c).pushFinishFrame
  have hrun : Relation.ReflTransGen (Step (· = code)) State.start s₄ :=
    ((((Relation.ReflTransGen.refl.tail .pushFinish).tail
      (.evalPackage (s := s₁) rfl rfl)).tail (.makeBlock (s := s₂) (a := 1) rfl rfl hmem)).tail
      (.execNative (some 0))).tail .pushFinish
  let fn : Function :=
    { code := block
      isBlock := true
      outerFrame := .script 1
      frameToLongReturn := none
      frameToLongBreak := some (.script 1)
      scopes := [⟨0, 1, .finish 0, .names⟩]
      passedTo := some 1 }
  have hrun' := hrun.tail (.exec (f := fn) none rfl (by simp) (List.mem_singleton.2 rfl))
  refine ⟨code, _, fn.frame s₄.heap 1 (.finish 2) 3 (depth block), hcode, hrun', rfl, rfl, .entry,
    hfetch, (accessRight_iff hp hrun' rfl rfl .entry hfetch rfl).2 ⟨by decide, ?_⟩⟩
  intro a ha
  rw [List.take_succ_cons, List.take_zero, List.mem_singleton] at ha
  rw [ha]
  exact ScopeKind.noConfusion

/-- The cells of the class were never filled, so the method has none of the function's frame. -/
theorem not_accessRight_method : ∃ code s f,
    compilePackage .sample 6 "a.yog" methodReadStmts false = .ok code ∧
    Relation.ReflTransGen (Step (· = code)) State.start s ∧
    s.current.frames.head? = some (.script 4) ∧ s.heap 4 = some f ∧ Reaches f.code.fields 0 ∧
    fetch f.code.fields.insts 0 = some (.loadNonlocalIndex 2 1, 3) ∧ ¬AccessRight s f 2 := by
  obtain ⟨code, hcode, h⟩ := Except.exists_of_any
    (x := compilePackage .sample 6 "a.yog" methodReadStmts false)
    (p := Code.anyBody <| Code.anyBody <| Code.anyBody fun method =>
      fetch method.fields.insts 0 = some (.loadNonlocalIndex 2 1, 3) ∧ depth method = 2)
    (by decide +kernel)
  obtain ⟨function, hfunction, h⟩ := Code.exists_of_anyBody h
  obtain ⟨klass, hklass, h⟩ := Code.exists_of_anyBody h
  obtain ⟨method, hmethod, h⟩ := Code.exists_of_anyBody h
  obtain ⟨hfetch, hdepth⟩ := of_decide_eq_true h
  let s₁ := State.start.pushFinishFrame
  let s₂ := s₁.execNames code []
  let f₁ := namesFrame code [] 0 (.finish 0) 1 (depth code)
  let s₃ := s₂.makeFunction 1 f₁ function
  let fn₁ : Function := ⟨function, false, .script 1, none, none, [f₁.act], none⟩
  let s₄ := s₃.exec fn₁
  let f₂ : FrameObj :=
    fn₁.frame s₃.heap 1 (.script 1) 2 (depth function)
  let s₅ := s₄.execNames klass (f₂.act :: f₂.enclosing)
  let f₃ := namesFrame klass (f₂.act :: f₂.enclosing) 2 (.script 2) 3 (depth klass)
  let s₆ := s₅.makeFunction 3 f₃ method
  let fn₂ : Function := ⟨method, false, .script 3, none, none, f₃.act :: f₃.enclosing, none⟩
  let s₇ := s₆.ret 3 { f₃ with usedByFunc := true } [.script 2, .script 1, .finish 0]
  have hrun : Relation.ReflTransGen (Step (· = code)) State.start s₆ :=
    (((((Relation.ReflTransGen.refl.tail .pushFinish).tail
      (.evalPackage (s := s₁) rfl rfl)).tail (.makeFunction (s := s₂) (a := 1) rfl rfl hfunction)).tail
      (.exec (s := s₃) (f := fn₁) none rfl (by simp) (List.mem_singleton.2 rfl))).tail
      (.makeClass (s := s₄) (f := f₂) rfl rfl hklass)).tail
      (.makeFunction (s := s₅) (a := 3) rfl rfl hmethod)
  have hrun' := (hrun.tail (.ret (a := 3) rfl rfl)).tail
    (.exec (s := s₇) (f := fn₂) none rfl (by simp) (List.mem_cons_of_mem _ List.mem_cons_self))
  refine ⟨code, _, fn₂.frame s₇.heap 3 (.script 2) 4 (depth method), hcode, hrun', rfl, rfl, .entry,
    hfetch, ?_⟩
  rintro ⟨-, -, b, g, -, hb, -⟩
  have hcell : (fn₂.frame s₇.heap 3 (.script 2) 4 (depth method)).outerFrames[1]? =
      some (((List.replicate (depth klass) none)[0]?).join) := by
    show (fillOuterFrames s₇.heap _ (.script 3) (depth method))[1]? = _
    rw [hdepth]
    rfl
  have hfilled := hcell.symm.trans hb
  rcases hd : depth klass with _ | d
  · rw [hd] at hfilled
    cases hfilled
  · rw [hd] at hfilled
    cases hfilled

end Vm

end Yog
