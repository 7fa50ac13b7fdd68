import Yog.Proofs.Uniform
import Yog.Proofs.Assembly

/-!
# The bodies of a program

The code of a function, block, class or module is a constant of the body around it. What holds of
the code made of any instruction list holds of all bodies of a package (`package_all`).
-/

namespace Yog

open Emission (Emits)

/-- The constants after are constants before, values, and bodies that satisfy `P` throughout. -/
def ConstsAll (P : CodeOf Code → Prop) (s : CompileData) (_ : List Inst) (s' : CompileData) : Prop :=
  ∀ c, .code c ∈ s'.consts → .code c ∈ s.consts ∨ c.All P

/-- One of the bodies in the constants satisfies `p`. -/
def Code.anyBody (p : Code → Bool) (code : Code) : Bool :=
  code.fields.consts.any fun
    | .code c => p c
    | .val _ => false

theorem Code.exists_of_anyBody {p : Code → Bool} {code : Code} (h : code.anyBody p = true) :
    ∃ c, .code c ∈ code.fields.consts ∧ p c = true := by
  obtain ⟨const, hmem, hconst⟩ := List.any_eq_true.1 h
  cases const with
  | val v => cases hconst
  | code c => exact ⟨c, hmem, hconst⟩

section Package

variable {P : CodeOf Code → Prop} {env : YogEnv}

theorem ConstsAll.of_eq {s s' : CompileData} {l : List Inst} (h : s'.consts = s.consts) :
    ConstsAll P s l s' := by
  intro c hc
  exact Or.inl (h ▸ hc)

theorem constsAll_composes : Emission.Composes (ConstsAll P) where
  nil _ _ hc := Or.inl hc
  append h₁ h₂ c hc := by
    rcases h₂ c hc with hc | hc
    · exact h₁ c hc
    · exact Or.inr hc

/-- `P` holds of the code made of any list, whatever its parameters. -/
structure OfMakeCode (P : CodeOf Code → Prop) : Prop where
  make : ∀ {ctx funcName insts s code depths}, makeCode ctx funcName insts s = .ok (.mk code, depths) →
    P code
  argInfo : ∀ {code : CodeOf Code} {info : ArgInfo}, P code → P { code with argInfo := some info }

/-- The code of a body has `P` throughout if the bodies in its constants have. -/
theorem all_of_makeCode (hP : OfMakeCode P) {ctx : Ctx} {funcName : ID} {insts : List Inst}
    {s : CompileData} {outer depths : List Int} {code : Code}
    (hR : ConstsAll P (.new outer) insts s) (h : makeCode ctx funcName insts s = .ok (code, depths)) :
    code.All P := by
  obtain ⟨code⟩ := code
  refine .mk (hP.make h) fun c hc => ?_
  obtain ⟨-, hconsts, -⟩ := makeCode_eq_ok h
  rw [hconsts] at hc
  rcases hR c hc with hc | hc
  · simp [CompileData.new] at hc
  · exact hc

theorem uniform_constsAll (hP : OfMakeCode P) : Uniform env fun _ => ConstsAll P where
  composes _ := constsAll_composes
  emit i _ _ s _ l s' h := by
    obtain ⟨-, rfl⟩ := Emission.emit_eq_ok.1 h
    exact .of_eq rfl
  newLabel s _ l s' h := by
    obtain ⟨-, -, rfl⟩ := newLabel_eq_ok.1 h
    exact .of_eq rfl
  registerVal val s index l s' h := by
    obtain ⟨-, ⟨-, rfl⟩ | ⟨-, -, rfl⟩⟩ := registerConst_eq_ok h
    · exact .of_eq rfl
    · intro code hcode
      rcases List.mem_append.1 hcode with hcode | hcode
      · exact Or.inl hcode
      · cases List.mem_singleton.1 hcode
  pushTry node e s _ l s' h := by
    obtain ⟨-, rfl⟩ := Emission.modify_eq_ok.1 h
    exact .of_eq rfl
  popTry s _ l s' h := by
    obtain ⟨-, rfl⟩ := Emission.modify_eq_ok.1 h
    refine .of_eq ?_
    split <;> rfl
  splitTries node from_ to_ s _ l s' h := by
    obtain ⟨_, -, -, rfl⟩ := splitTries_eq_ok.1 h
    exact .of_eq rfl
  inner ctx funcName insts data code depths scopes s info _ _ hR hm := by
    intro c hc
    rcases List.mem_append.1 hc with hc | hc
    · exact Or.inl hc
    · cases List.mem_singleton.1 hc
      have hall := all_of_makeCode hP hR hm
      cases info with
      | none => exact Or.inr hall
      | some info =>
        obtain ⟨hp, hconsts⟩ := hall
        exact Or.inr (.mk (hP.argInfo hp) hconsts)

/-- What holds of the code made of any list holds of every body of a package. -/
theorem package_all (hP : OfMakeCode P) {fuel : Nat} {filename : String} {stmts : List Stmt}
    {interactive : Bool} {code : Code}
    (h : compilePackage env fuel filename stmts interactive = .ok code) : code.All P := by
  unfold compilePackage at h
  obtain ⟨tbl, -, h⟩ := Except.bind_eq_ok_iff.1 h
  obtain ⟨⟨c, depths⟩, hc, h⟩ := Except.bind_eq_ok_iff.1 h
  simp only [pure, Except.pure, Except.ok.injEq] at h
  subst h
  obtain ⟨insts, s, hb, hm⟩ := compileStmts_eq_ok hc
  have hu : Uniform env fun _ => ConstsAll P := uniform_constsAll hP
  exact all_of_makeCode hP (hu.emits_compileBody (hu.visitor fuel) _ _ _ _ _ _ _ hb) hm

theorem assembled_ofMakeCode : OfMakeCode CodeOf.Assembled where
  make := makeCode_assembled
  argInfo h := ⟨h.pc, h.decode, h.dest, h.excTbl, fun pc hp => h.run pc (by
    induction hp with
    | entry => exact .entry
    | next _ hf hn ih => exact .next ih hf hn
    | jump _ hf hd ih => exact .jump ih hf hd
    | raise _ hf ht ih => exact .raise ih hf ht)⟩

/-- Every body of a compiled package is assembled consistently. -/
theorem package_assembled {fuel : Nat} {filename : String} {stmts : List Stmt} {interactive : Bool}
    {code : Code} (h : compilePackage env fuel filename stmts interactive = .ok code) :
    code.All CodeOf.Assembled :=
  package_all assembled_ofMakeCode h

/-- `while a`, `try`, `break`, `finally`, `b`, `end`, `end`. -/
theorem package_assembled_sample :
    ∃ code, compilePackage .sample 5 "a.yog"
        [.while_ 1 (.variable 1 1) [.finally_ 2 [.break_ 3 []] [.expr (.variable 5 2)]]] false
      = .ok code ∧ code.All CodeOf.Assembled := by
  obtain ⟨code, h⟩ := Except.exists_of_toBool (x := compilePackage .sample 5 "a.yog"
    [.while_ 1 (.variable 1 1) [.finally_ 2 [.break_ 3 []] [.expr (.variable 5 2)]]] false)
    (by decide +kernel)
  exact ⟨code, h, package_assembled h⟩

end Package

end Yog
