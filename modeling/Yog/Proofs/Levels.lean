import Yog.Proofs.Program

/-!
# Levels of nonlocal variables

An access to a variable of a body around has a level of at least one, and the body has cells for so
many frames. A body has at most one cell more than the body around it, so that a frame can fill its
cells from those of the frame of the body around. This holds of all bodies of a package
(`package_levels`).
-/

namespace Yog

open Emission (Emits)

theorem searchBlockVarLocalScope_level {name : ID} : ∀ {level : Nat} {outer : List Scope}
    {r : Nat × UInt64 × Context}, searchBlockVarLocalScope name level outer = some r → level ≤ r.1
  | level, [], r, h => by cases h
  | level, tbl :: outer, r, h => by
    unfold searchBlockVarLocalScope at h
    split at h
    · split at h
      · exact (Nat.le_succ _).trans (searchBlockVarLocalScope_level h)
      · cases h
      · cases h
        exact le_rfl
      · cases h
        exact Nat.le_add_right _ _
    · split at h
      · cases h
        exact le_rfl
      · cases h

theorem findOuterVar_level {name : ID} {ctx : Context} : ∀ {level : Nat} {outer : List Scope}
    {r : Nat × UInt64 × Context}, findOuterVar name ctx level outer = some r → level < r.1
  | level, [], r, h => by cases h
  | level, tbl :: outer, r, h => by
    unfold findOuterVar at h
    split at h
    · cases h
    · split at h
      · split at h
        · exact (Nat.lt_succ_self _).trans (findOuterVar_level h)
        · cases h
        · cases h
          exact Nat.lt_succ_self _
        · cases h
          exact Nat.lt_succ_of_le (Nat.le_add_right _ _)
      · exact (Nat.lt_succ_self _).trans (findOuterVar_level h)

theorem setNonlocal_level {name : ID} {r : Option (Nat × UInt64 × Context)} {level : Nat}
    {word : UInt64} (h : setNonlocal name r = .nonlocal level word) : ∃ x, r = some (level, x) := by
  rcases r with _ | ⟨l, x⟩
  · cases h
  · cases h
    exact ⟨x, rfl⟩

theorem decideAutoVarType_level {name : ID} {var : Var} {ctx : Context} {outer : List Scope}
    {index level : Nat} {word : UInt64}
    (h : (decideAutoVarType name var ctx outer index).1 = .nonlocal level word) : 1 ≤ level := by
  unfold decideAutoVarType at h
  split at h
  · obtain ⟨x, hx⟩ := setNonlocal_level h
    exact findOuterVar_level hx
  · split at h
    · obtain ⟨x, hx⟩ := setNonlocal_level h
      exact searchBlockVarLocalScope_level hx
    · split at h
      · obtain ⟨x, hx⟩ := setNonlocal_level h
        exact findOuterVar_level hx
      · cases h

theorem decideVars_level {vars : List (ID × Var)} {ctx : Context} {outer : List Scope} {name : ID}
    {level : Nat} {word : UInt64} : ∀ {names : List ID} {index : Nat},
    (name, VarType.nonlocal level word) ∈ decideVars vars ctx outer names index → 1 ≤ level
  | [], _, h => by cases h
  | n :: names, index, h => by
    unfold decideVars at h
    split at h
    · exact decideVars_level h
    · split at h
      · rcases List.mem_cons.1 h with h | h
        · cases h
        · exact decideVars_level h
      · rcases List.mem_cons.1 h with h | h
        · simp only [Prod.mk.injEq] at h
          exact decideAutoVarType_level h.2.symm
        · exact decideVars_level h

theorem Decided.one_le {env : YogEnv} {outer : List Scope} {scope : Scope} {name : ID} {level : Nat}
    {word : UInt64} (h : Decided env outer scope)
    (hm : (name, VarType.nonlocal level word) ∈ scope.vars) : 1 ≤ level := by
  obtain ⟨tbl, rfl⟩ := h
  exact decideVars_level hm

theorem foldl_maxOuterLevel (vars : List (ID × VarType)) (m : Nat) :
    m ≤ vars.foldl (fun level (_, type) => match type with
      | .nonlocal l _ => max level l
      | _ => level) m ∧
    ∀ name level word, (name, VarType.nonlocal level word) ∈ vars →
      level ≤ vars.foldl (fun level (_, type) => match type with
        | .nonlocal l _ => max level l
        | _ => level) m := by
  induction vars generalizing m with
  | nil => exact ⟨le_rfl, by simp⟩
  | cons var vars ih =>
    obtain ⟨n, type⟩ := var
    rw [List.foldl_cons]
    obtain ⟨h₁, h₂⟩ := ih (match type with
      | .nonlocal l _ => max m l
      | _ => m)
    constructor
    · refine le_trans ?_ h₁
      cases type with
      | global => exact le_rfl
      | local_ index => exact le_rfl
      | nonlocal l w => exact le_max_left _ _
    · intro name level word hm
      rcases List.mem_cons.1 hm with hm | hm
      · cases hm
        exact (le_max_right _ _).trans h₁
      · exact h₂ name level word hm

theorem le_maxOuterLevel {scope : Scope} {name : ID} {level : Nat} {word : UInt64}
    (h : (name, VarType.nonlocal level word) ∈ scope.vars) : level ≤ scope.maxOuterLevel :=
  (foldl_maxOuterLevel scope.vars 0).2 name level word h

/-- `outer_depth` of a body and of those around it: each body has at most one more than the next. -/
structure Stepped (depths : List Int) : Prop where
  ne_nil : depths ≠ []
  nonneg : ∀ d ∈ depths, 0 ≤ d
  chain : depths.IsChain fun d d' => d - 1 ≤ d'

theorem Stepped.new {depths : List Int} (h : depths = [] ∨ Stepped depths) : Stepped (0 :: depths) := by
  rcases h with rfl | h
  · exact ⟨by simp, by simp, .singleton 0⟩
  · refine ⟨by simp, fun d hd => ?_, ?_⟩
    · rcases List.mem_cons.1 hd with rfl | hd
      · exact le_rfl
      · exact h.nonneg d hd
    · rw [List.isChain_cons]
      refine ⟨fun d hd => ?_, h.chain⟩
      have := h.nonneg d (List.mem_of_mem_head? hd)
      omega

theorem le_updateOuterDepth :
    ∀ (depths : List Int) (depth : Int), List.Forall₂ (· ≤ ·) depths (updateOuterDepth depths depth)
  | [], _ => .nil
  | d :: ds, depth => by
    unfold updateOuterDepth
    split
    · rename_i hlt
      exact .cons hlt.le (le_updateOuterDepth ds _)
    · exact List.forall₂_same.2 fun _ _ => le_rfl

theorem le_head_updateOuterDepth {depths : List Int} {depth : Int} :
    ∀ d ∈ (updateOuterDepth depths depth).head?, depth ≤ d := by
  intro d hd
  rcases depths with _ | ⟨d', ds⟩
  · cases hd
  · unfold updateOuterDepth at hd
    split at hd
    · cases hd
      exact le_rfl
    · rename_i hle
      cases hd
      exact Int.not_lt.1 hle

theorem chain_updateOuterDepth : ∀ {depths : List Int} {depth : Int},
    depths.IsChain (fun d d' => d - 1 ≤ d') →
    (updateOuterDepth depths depth).IsChain fun d d' => d - 1 ≤ d'
  | [], _, h => h
  | d :: ds, depth, h => by
    unfold updateOuterDepth
    split
    · rw [List.isChain_cons]
      exact ⟨fun d' hd' => le_head_updateOuterDepth d' hd',
        chain_updateOuterDepth (List.isChain_cons.1 h).2⟩
    · exact h

theorem nonneg_of_forall₂ {depths depths' : List Int} (h : List.Forall₂ (· ≤ ·) depths depths')
    (hn : ∀ d ∈ depths, 0 ≤ d) : ∀ d ∈ depths', 0 ≤ d := by
  induction h with
  | nil => exact hn
  | cons hle _ ih =>
    intro d hd
    rcases List.mem_cons.1 hd with rfl | hd
    · exact (hn _ List.mem_cons_self).trans hle
    · exact ih (fun d hd => hn d (List.mem_cons_of_mem _ hd)) d hd

theorem Stepped.updateOuterDepth {depths : List Int} (h : Stepped depths) (depth : Int) :
    Stepped (updateOuterDepth depths depth) where
  ne_nil := by
    intro hnil
    have hle := le_updateOuterDepth depths depth
    rw [hnil] at hle
    cases hle
    exact h.ne_nil rfl
  nonneg := nonneg_of_forall₂ (le_updateOuterDepth _ _) h.nonneg
  chain := chain_updateOuterDepth h.chain

theorem headD_le {depths depths' : List Int} (h : List.Forall₂ (· ≤ ·) depths depths') :
    depths.headD 0 ≤ depths'.headD 0 := by
  cases h with
  | nil => exact le_rfl
  | cons h _ => exact h

theorem forall₂_le_trans {depths₁ depths₂ depths₃ : List Int}
    (h : List.Forall₂ (· ≤ ·) depths₁ depths₂) (h' : List.Forall₂ (· ≤ ·) depths₂ depths₃) :
    List.Forall₂ (· ≤ ·) depths₁ depths₃ := by
  induction h generalizing depths₃ with
  | nil => exact h'
  | cons hle _ ih =>
    cases h' with
    | cons hle' h' => exact .cons (hle.trans hle') (ih h')

/-- The cells of a body reach its accesses, and those of a body in it have one frame more at most. -/
structure CodeOf.Leveled (code : CodeOf Code) : Prop where
  level : ∀ i ∈ code.list, ∀ level ∈ i.level?, 1 ≤ level ∧ (level : Int) ≤ code.outerSize
  const : ∀ c, .code c ∈ code.consts → c.fields.outerSize ≤ code.outerSize + 1

/-- What a visit emits is at the levels of the table; the bodies it enters into the constants are
leveled, and have one cell more at most than the body asks for after the visit. -/
structure Levels (scopes : List Scope) (s : CompileData) (l : List Inst) (s' : CompileData) :
    Prop where
  level : ∀ i ∈ l, ∀ level ∈ i.level?, AtLevel scopes level
  depths : Stepped s.outerDepths → Stepped s'.outerDepths
  le : List.Forall₂ (· ≤ ·) s.outerDepths s'.outerDepths
  const : Stepped s.outerDepths → ∀ c, .code c ∈ s'.consts → .code c ∈ s.consts ∨
    c.fields.outerSize - 1 ≤ s'.outerDepths.headD 0 ∧ c.All CodeOf.Leveled

theorem Levels.same {scopes : List Scope} {s s' : CompileData} {l : List Inst}
    (hl : ∀ i ∈ l, ∀ level ∈ i.level?, AtLevel scopes level) (hd : s'.outerDepths = s.outerDepths)
    (hc : ∀ c, .code c ∈ s'.consts → .code c ∈ s.consts) : Levels scopes s l s' where
  level := hl
  depths := by
    rw [hd]
    exact id
  le := by
    rw [hd]
    exact List.forall₂_same.2 fun _ _ => le_rfl
  const := fun _ c h => Or.inl (hc c h)

theorem levels_composes (scopes : List Scope) : Emission.Composes (Levels scopes) where
  nil _ := .same (by simp) rfl fun _ => id
  append h₁ h₂ := by
    refine ⟨fun i hi => ?_, h₂.depths ∘ h₁.depths, ?_, fun hs c hc => ?_⟩
    · rcases List.mem_append.1 hi with hi | hi
      · exact h₁.level i hi
      · exact h₂.level i hi
    · exact forall₂_le_trans h₁.le h₂.le
    · rcases h₂.const (h₁.depths hs) c hc with hc | hc
      · rcases h₁.const hs c hc with hc | ⟨hle, hall⟩
        · exact Or.inl hc
        · exact Or.inr ⟨hle.trans (headD_le h₂.le), hall⟩
      · exact Or.inr hc

section Package

variable {env : YogEnv} {ctx : Ctx} {funcName : ID} {insts : List Inst} {s : CompileData}
  {outer depths : List Int}

theorem makeCode_outerSize {code : Code} (h : makeCode ctx funcName insts s = .ok (code, depths)) :
    code.fields.list = withRet insts ∧ code.fields.consts = s.consts ∧
    code.fields.outerSize = max (ctx.vars.maxOuterLevel : Int) (s.outerDepths.headD 0) ∧
    depths = updateOuterDepth (s.outerDepths.drop 1) (ctx.vars.maxOuterLevel - 1) := by
  unfold makeCode at h
  obtain ⟨bin, -, h⟩ := Except.bind_eq_ok_iff.1 h
  obtain ⟨names, -, h⟩ := Except.bind_eq_ok_iff.1 h
  obtain ⟨size, -, h⟩ := Except.bind_eq_ok_iff.1 h
  obtain ⟨tbl, -, h⟩ := Except.bind_eq_ok_iff.1 h
  simp only [pure, Except.pure, Except.ok.injEq, Prod.mk.injEq] at h
  obtain ⟨rfl, rfl⟩ := h
  exact ⟨rfl, rfl, rfl, rfl⟩

theorem level?_withRet {i : Inst} (hi : i ∈ withRet insts) : i ∈ insts ∨ i.level? = none := by
  unfold withRet at hi
  split at hi
  · exact Or.inl hi
  · rcases List.mem_append.1 hi with hi | hi
    · exact Or.inl hi
    · rw [List.mem_singleton.1 hi]
      exact Or.inr rfl

/-- The code of a body is leveled throughout. -/
theorem leveled_of_makeCode {code : Code} (hd : Decided env ctx.outer ctx.vars)
    (ho : outer = [] ∨ Stepped outer) (hR : Levels ctx.scopes (.new outer) insts s)
    (h : makeCode ctx funcName insts s = .ok (code, depths)) : code.All CodeOf.Leveled := by
  obtain ⟨hlist, hconsts, hsize, -⟩ := makeCode_outerSize h
  have hc := hR.const (.new ho)
  obtain ⟨code⟩ := code
  rw [Code.fields] at hlist hconsts hsize
  refine .mk ⟨fun i hi level hlevel => ?_, fun c hm => ?_⟩ fun c hm => ?_
  · rw [hlist] at hi
    rcases level?_withRet hi with hi | hnone
    · obtain ⟨scope, hscope, name, word, hm⟩ := hR.level i hi level hlevel
      cases hscope
      have hle := le_maxOuterLevel hm
      refine ⟨hd.one_le hm, ?_⟩
      rw [hsize]
      exact le_max_of_le_left (by exact_mod_cast hle)
    · rw [hnone] at hlevel
      cases hlevel
  · rw [hconsts] at hm
    rcases hc c hm with hm | ⟨hle, -⟩
    · cases hm
    · rw [hsize]
      have := le_max_right (ctx.vars.maxOuterLevel : Int) (s.outerDepths.headD 0)
      omega
  · rw [hconsts] at hm
    rcases hc c hm with hm | ⟨-, hall⟩
    · cases hm
    · exact hall

theorem withArgInfo_fields (code : Code) (info : Option ArgInfo) :
    (info.elim code code.withArgInfo).fields.outerSize = code.fields.outerSize := by
  cases info <;> cases code <;> rfl

theorem Code.All.withArgInfo {code : Code} (h : code.All CodeOf.Leveled) (info : Option ArgInfo) :
    (info.elim code code.withArgInfo).All CodeOf.Leveled := by
  cases info with
  | none => exact h
  | some info =>
    obtain ⟨hl, hc⟩ := h
    exact .mk ⟨hl.level, hl.const⟩ hc

/-- A body asks the bodies around it for one frame less each. -/
theorem levels_inner {code : Code} (info : Option ArgInfo) {t : CompileData}
    (hd : Decided env ctx.outer ctx.vars) (hR : Levels ctx.scopes (.new t.outerDepths) insts s)
    (h : makeCode ctx funcName insts s = .ok (code, depths)) :
    Levels ctx.outer t [] { t with
      outerDepths := depths, consts := t.consts ++ [.code (info.elim code code.withArgInfo)] } := by
  obtain ⟨-, -, hsize, hdepths⟩ := makeCode_outerSize h
  obtain ⟨d, ds, hd0, hle, hs⟩ := List.forall₂_cons_left_iff.1 hR.le
  rw [hs] at hdepths hsize
  rw [List.drop_succ_cons, List.drop_zero] at hdepths
  have hstepped : Stepped t.outerDepths → Stepped ds ∧ d - 1 ≤ ds.headD 0 := by
    intro ht
    have hall := hR.depths (.new (.inr ht))
    rw [hs] at hall
    have hne : ds ≠ [] := by
      rintro rfl
      exact ht.ne_nil (List.forall₂_nil_right_iff.1 hle)
    obtain ⟨hhead, hchain⟩ := List.isChain_cons.1 hall.chain
    refine ⟨⟨hne, fun d' hd' => hall.nonneg d' (List.mem_cons_of_mem _ hd'), hchain⟩, ?_⟩
    rcases ds with _ | ⟨d', ds⟩
    · exact absurd rfl hne
    · exact hhead d' rfl
  refine ⟨by simp, fun ht => ?_, ?_, fun ht c hc => ?_⟩
  · rw [hdepths]
    exact (hstepped ht).1.updateOuterDepth _
  · rw [hdepths]
    exact forall₂_le_trans hle (le_updateOuterDepth _ _)
  · rcases List.mem_append.1 hc with hc | hc
    · exact Or.inl hc
    · cases List.mem_singleton.1 hc
      refine Or.inr ⟨?_, (leveled_of_makeCode hd (.inr ht) hR h).withArgInfo info⟩
      obtain ⟨hds, hhead⟩ := hstepped ht
      have hup := hds.updateOuterDepth (ctx.vars.maxOuterLevel - 1)
      have hmono := headD_le (le_updateOuterDepth ds (ctx.vars.maxOuterLevel - 1))
      rw [withArgInfo_fields, hsize]
      show max (ctx.vars.maxOuterLevel : Int) d - 1 ≤ depths.headD 0
      rw [hdepths]
      rcases hlist : updateOuterDepth ds (ctx.vars.maxOuterLevel - 1) with _ | ⟨d', ds'⟩
      · exact absurd hlist hup.ne_nil
      · have hge := le_head_updateOuterDepth d' (by rw [hlist]; rfl)
        rw [hlist] at hmono
        rw [List.headD_cons] at hmono ⊢
        omega

theorem uniform_levels : Uniform env Levels where
  composes := levels_composes
  emit i hi _ s _ l s' h := by
    obtain ⟨rfl, rfl⟩ := Emission.emit_eq_ok.1 h
    refine .same (fun j hj => ?_) rfl fun _ => id
    rw [List.mem_singleton.1 hj]
    exact hi
  newLabel s _ l s' h := by
    obtain ⟨-, rfl, rfl⟩ := newLabel_eq_ok.1 h
    exact .same (by simp) rfl fun _ => id
  registerVal val s index l s' h := by
    obtain ⟨rfl, ⟨-, rfl⟩ | ⟨-, -, rfl⟩⟩ := registerConst_eq_ok h
    · exact .same (by simp) rfl fun _ => id
    · refine .same (by simp) rfl fun c hc => ?_
      rcases List.mem_append.1 hc with hc | hc
      · exact hc
      · cases List.mem_singleton.1 hc
  pushTry node e s _ l s' h := by
    obtain ⟨rfl, rfl⟩ := Emission.modify_eq_ok.1 h
    exact .same (by simp) rfl fun _ => id
  popTry s _ l s' h := by
    obtain ⟨rfl, rfl⟩ := Emission.modify_eq_ok.1 h
    refine .same (by simp) ?_ fun c hc => ?_
    · split <;> rfl
    · split at hc <;> exact hc
  splitTries node from_ to_ s _ l s' h := by
    obtain ⟨_, -, rfl, rfl⟩ := splitTries_eq_ok.1 h
    exact .same (by simp) rfl fun _ => id
  inner ctx funcName insts data code depths scopes s info ho hd hR hm := by
    subst ho
    exact levels_inner info hd hR hm

/-- Every body of a compiled package is leveled. -/
theorem package_levels {fuel : Nat} {filename : String} {stmts : List Stmt} {interactive : Bool}
    {code : Code} (h : compilePackage env fuel filename stmts interactive = .ok code) :
    code.All CodeOf.Leveled := by
  unfold compilePackage at h
  obtain ⟨tbl, -, h⟩ := Except.bind_eq_ok_iff.1 h
  obtain ⟨⟨c, depths⟩, hc, h⟩ := Except.bind_eq_ok_iff.1 h
  simp only [pure, Except.pure, Except.ok.injEq] at h
  subst h
  obtain ⟨insts, s, hb, hm⟩ := compileStmts_eq_ok hc
  have hu : Uniform env Levels := uniform_levels
  exact leveled_of_makeCode ⟨tbl, rfl⟩ (.inl rfl)
    (hu.emits_compileBody (hu.visitor fuel) _ _ _ _ _ _ _ hb) hm

end Package

end Yog
