import Yog.Proofs.Program

/-!
# Which programs keep their operands

`CompileData_add_*` takes `uint8_t` arguments and is handed `unsigned int` counters. `fits…` says of
a tree that every counter handed to it fits: fewer than 256 pairs in a dict, elements in a set,
positional and keyword arguments in a call, targets on one side of a call's values, and local
indices and levels of the variables it names. The expressions of a `break` or `next` in a loop are
not compiled and may be anything.
-/

namespace Yog

open Emission (Emits each)

section Fits

variable (env : YogEnv) (filename : String)

/-- The operands of an access to a variable, in a body whose tables are `scopes`. -/
def fitsVar (scopes : List Scope) (name : ID) : Bool :=
  match scopes with
  | [] => true
  | scope :: _ =>
    if scope.ctx.indexed then
      match scope.vars.lookup name with
      | some (.local_ index) => index < 2 ^ 8
      | some (.nonlocal level word) =>
        level < 2 ^ 8 && match scopes[level]? with
          | some outer => !outer.ctx.indexed || word.toNat < 2 ^ 8
          | none => true
      | _ => true
    else true

/-- The parameter is the target of its default by its index. -/
def fitsParam (scopes : List Scope) (name : ID) : Bool :=
  match scopes with
  | [] => true
  | scope :: _ =>
    match scope.vars.lookup name with
    | some (.local_ index) => index < 2 ^ 8
    | _ => true

/-- The tables in a nested body; without them it is not compiled. -/
def innerScopes (scopes : List Scope) (tbl : Except CompileError VarTable) : List Scope :=
  match tbl with
  | .ok tbl => decideVarType env tbl scopes :: scopes
  | .error _ => scopes

mutual

def fitsExpr (scopes : List Scope) : Expr → Bool
  | .array _ elems => elems.length < 2 ^ 64 && fitsExprs scopes elems
  | .assign _ left right => fitsExpr scopes right && fitsExpr scopes left
  | .attr _ obj _ => fitsExpr scopes obj
  | .binop _ _ left right | .logicalAnd _ left right | .logicalOr _ left right =>
    fitsExpr scopes left && fitsExpr scopes right
  | .conditional _ test trueExpr falseExpr =>
    fitsExpr scopes test && fitsExpr scopes trueExpr && fitsExpr scopes falseExpr
  | .dict _ elems => elems.length < 2 ^ 8 && fitsDictElems scopes elems
  | .funcCall _ callee args blockarg =>
    fitsBlock? scopes blockarg && fitsArgs scopes args && fitsExpr scopes callee
  | .literal _ _ | .super _ => true
  | .not _ expr => fitsExpr scopes expr
  | .set _ elems => elems.length < 2 ^ 8 && fitsExprs scopes elems
  | .subscript _ prefix_ index => fitsExpr scopes prefix_ && fitsExpr scopes index
  | .variable _ id => fitsVar scopes id

def fitsExprs (scopes : List Scope) : List Expr → Bool
  | [] => true
  | e :: es => fitsExpr scopes e && fitsExprs scopes es

def fitsExpr? (scopes : List Scope) : Option Expr → Bool
  | none => true
  | some e => fitsExpr scopes e

def fitsDictElems (scopes : List Scope) : List DictElem → Bool
  | [] => true
  | .mk key value :: es => fitsExpr scopes key && fitsExpr scopes value && fitsDictElems scopes es

def fitsKwArgs (scopes : List Scope) : List KwArg → Bool
  | [] => true
  | .mk _ _ value :: as => fitsExpr scopes value && fitsKwArgs scopes as

def fitsArgs (scopes : List Scope) : Args → Bool
  | .mk posargs kwargs vararg varkwarg andBlock =>
    posargs.length < 2 ^ 8 && kwargs.length < 2 ^ 8 && fitsExpr? scopes andBlock
      && fitsExpr? scopes varkwarg && fitsExpr? scopes vararg && fitsKwArgs scopes kwargs
      && fitsExprs scopes posargs

def fitsBlock? (scopes : List Scope) : Option BlockArg → Bool
  | none => true
  | some (.mk _ params stmts) =>
    let scopes := innerScopes env scopes (makeVarTable env none .block params stmts)
    fitsParams scopes params && fitsStmts scopes false stmts

def fitsParams (scopes : List Scope) : List Param → Bool
  | [] => true
  | .mk _ _ name default_ :: ps =>
    (default_.isNone || fitsParam scopes name && fitsVar scopes name)
      && fitsExpr? scopes default_ && fitsParams scopes ps

def fitsExcepts (scopes : List Scope) (inLoop : Bool) : List ExceptBody → Bool
  | [] => true
  | .mk _ types var stmts :: es =>
    fitsExprs scopes types && (var.toList.all (fitsVar scopes)) && fitsStmts scopes inLoop stmts
      && fitsExcepts scopes inLoop es

def fitsStmt (scopes : List Scope) (inLoop : Bool) : Stmt → Bool
  | .expr e => fitsExpr scopes e
  | .break_ _ exprs | .next _ exprs => inLoop || fitsExprs scopes exprs
  | .klass _ decorators name super stmts =>
    let inner := innerScopes env scopes
      (makeVarTableOfFunc env (some filename) .klass [] stmts)
    fitsExpr? scopes super && fitsStmts inner false stmts && fitsExprs scopes decorators
      && fitsVar scopes name
  | .except _ head excepts else_ =>
    fitsStmts scopes inLoop head && fitsExcepts scopes inLoop excepts
      && fitsStmts scopes inLoop else_
  | .finally_ _ head body => fitsStmts scopes inLoop head && fitsStmts scopes inLoop body
  | .from_ _ _ _ attr attrs =>
    (attr :: attrs).all fun attr => fitsVar scopes (attr.as.getD attr.name)
  | .funcDef _ decorators name params stmts =>
    let inner := innerScopes env scopes (makeVarTableOfFunc env (some filename) .func params stmts)
    fitsParams inner params && fitsStmts inner false stmts && fitsExprs scopes decorators
      && fitsVar scopes name
  | .if_ _ test stmts tail =>
    fitsExpr scopes test && fitsStmts scopes inLoop stmts && fitsStmts scopes inLoop tail
  | .import_ _ name _ as => fitsVar scopes (as.getD name)
  | .module_ _ name stmts =>
    let inner := innerScopes env scopes
      (makeVarTableOfFunc env (some filename) .klass [] stmts)
    fitsStmts inner false stmts && fitsVar scopes name
  | .multiAssign _ left middle right rhs rhsRest =>
    (match rhs, rhsRest with
      | .funcCall .., [] => left.length < 2 ^ 8 && right.length < 2 ^ 8
      | _, _ => middle.isNone || rhsRest.length + 1 - right.length - left.length < 2 ^ 64)
      && fitsExpr scopes rhs && fitsExprs scopes rhsRest && fitsExprs scopes right
      && fitsExpr? scopes middle && fitsExprs scopes left
  | .nonlocal _ _ => true
  | .raise _ expr => fitsExpr? scopes expr
  | .return_ _ exprs => fitsExprs scopes exprs
  | .while_ _ test stmts => fitsExpr scopes test && fitsStmts scopes true stmts

def fitsStmts (scopes : List Scope) (inLoop : Bool) : List Stmt → Bool
  | [] => true
  | s :: ss => fitsStmt scopes inLoop s && fitsStmts scopes inLoop ss

end

end Fits

/-- The decoded operations are those the compiler passed to `CompileData_add_*`. -/
def CodeOf.Faithful (code : CodeOf Code) : Prop := decode code.insts = some (resolve code.list)

theorem narrow_eq_label {i : Inst} {l : Label} : i.narrow = .label l ↔ i = .label l := by
  cases i <;> simp [Inst.narrow]

theorem calcPc_map_narrow : ∀ (insts : List Inst) (pc : Nat),
    calcPc (insts.map Inst.narrow) pc = calcPc insts pc
  | [], _ => rfl
  | i :: insts, pc => by simp [calcPc, calcPc_map_narrow insts]

theorem labelPc_map_narrow (l : Label) (insts : List Inst) :
    labelPc l (insts.map Inst.narrow) = labelPc l insts := by
  unfold labelPc
  rw [calcPc_map_narrow, List.zip_map_left, List.find?_map, Option.map_map]
  congr 2
  simp [narrow_eq_label]

theorem narrow_mapDest {δ ε : Type} (f : δ → ε) (op : Op δ) :
    (op.mapDest f).narrow = op.narrow.mapDest f := by
  cases op <;> rfl

theorem narrow_mapDest_eq_iff {δ ε : Type} (f : δ → ε) (op : Op δ) :
    (op.mapDest f).narrow = op.mapDest f ↔ op.narrow = op := by
  cases op <;> simp [Op.mapDest, Op.narrow]

theorem filterMap_op?_map_narrow : ∀ insts : List Inst,
    (insts.map Inst.narrow).filterMap Inst.op? = (insts.filterMap Inst.op?).map Op.narrow
  | [] => rfl
  | .op _ _ :: insts => by simp [Inst.narrow, filterMap_op?_map_narrow insts]
  | .label _ :: insts => by simp [Inst.narrow, filterMap_op?_map_narrow insts]
  | .note _ :: insts => by simp [Inst.narrow, filterMap_op?_map_narrow insts]

theorem resolve_map_narrow (insts : List Inst) :
    resolve (insts.map Inst.narrow) = (resolve insts).map Op.narrow := by
  simp only [resolve, labelPc_map_narrow, filterMap_op?_map_narrow, List.map_map]
  congr 1
  funext op
  exact (narrow_mapDest _ op).symm

/-- The operations of a list fit their width. -/
def Fit (insts : List Inst) : Prop := ∀ op ∈ insts.filterMap Inst.op?, op.narrow = op

@[simp]
theorem fit_append {l₁ l₂ : List Inst} : Fit (l₁ ++ l₂) ↔ Fit l₁ ∧ Fit l₂ := by
  simp only [Fit, List.filterMap_append, List.mem_append, or_imp, forall_and]

theorem fit_withRet (insts : List Inst) : Fit (withRet insts) ↔ Fit insts := by
  unfold withRet
  split
  · rfl
  · have hr : Fit [.op (lastInstLineno insts) (.ret 0)] := by
      intro op hop
      simp only [filterMap_op?_op, List.filterMap_nil, List.mem_singleton] at hop
      subst hop
      rfl
    simp only [fit_append, hr, and_true]

/-- A body is decoded as meant exactly when its operations fit. -/
theorem faithful_iff_fit {ctx : Ctx} {funcName : ID} {insts : List Inst} {s : CompileData}
    {code : CodeOf Code} {depths : List Int}
    (h : makeCode ctx funcName insts s = .ok (.mk code, depths)) : code.Faithful ↔ Fit insts := by
  obtain ⟨hlist, -⟩ := makeCode_eq_ok h
  have hd := (makeCode_assembled h).decode
  rw [resolve_map_narrow] at hd
  have hmap : (resolve code.list).map Op.narrow = resolve code.list
      ↔ ∀ op ∈ resolve code.list, op.narrow = op := by
    simpa using List.map_inj_left (l := resolve code.list) (f := Op.narrow) (g := id)
  rw [CodeOf.Faithful, hd, Option.some.injEq, hmap, hlist, ← fit_withRet]
  simp only [resolve, List.forall_mem_map, narrow_mapDest_eq_iff, Fit]

/-- The bodies in the constants are decoded as meant. -/
def Kept (s : CompileData) : Prop := ∀ c, .code c ∈ s.consts → c.All CodeOf.Faithful

/-- A visit under an assumption `A` on the `finally` bodies it may copy keeps its operands, and those
of the bodies it enters, exactly when `F`. The assumption is not needed for one direction. -/
def Tracks (A F : Prop) (s : CompileData) (l : List Inst) (s' : CompileData) : Prop :=
  s.consts.length ≤ 2 ^ 62 → s'.consts.length ≤ 2 ^ 62
    ∧ (Kept s' ∧ Fit l → Kept s ∧ F) ∧ (A → Kept s ∧ F → Kept s' ∧ Fit l)

/-- `x` keeps track of `F`. -/
def Keeps {α : Type} (A F : Prop) (x : Compile α) : Prop := Emits (Tracks A F) x

/-- No constant and no operation. -/
theorem Tracks.silent {A : Prop} {s s' : CompileData} {l : List Inst} (hs : s'.consts = s.consts)
    (hl : l.filterMap Inst.op? = []) : Tracks A True s l s' := by
  have hf : Fit l := by
    intro op hop
    simp [hl] at hop
  simp only [Tracks, Kept, hs]
  tauto

namespace Keeps

variable {A F G : Prop} {α β : Type}

theorem congr {x : Compile α} (h : F ↔ G) (hx : Keeps A F x) : Keeps A G x :=
  propext h ▸ hx

theorem bind {x : Compile α} {f : α → Compile β} (hx : Keeps A F x)
    (hf : ∀ a, Keeps A G (f a)) : Keeps A (F ∧ G) (x >>= f) := by
  intro s b l s' h hs
  obtain ⟨a, l₁, s₁, l₂, h₁, h₂, rfl⟩ := Emission.bind_eq_ok.1 h
  obtain ⟨hs₁, hto₁, hof₁⟩ := hx _ _ _ _ h₁ hs
  obtain ⟨hs₂, hto₂, hof₂⟩ := hf a _ _ _ _ h₂ hs₁
  rw [fit_append]
  refine ⟨hs₂, ?_, ?_⟩
  · rintro ⟨hk, hl₁, hl₂⟩
    obtain ⟨hk, hg⟩ := hto₂ ⟨hk, hl₂⟩
    obtain ⟨hk, hf⟩ := hto₁ ⟨hk, hl₁⟩
    exact ⟨hk, hf, hg⟩
  · rintro ha ⟨hk, hf, hg⟩
    obtain ⟨hk, hl₁⟩ := hof₁ ha ⟨hk, hf⟩
    obtain ⟨hk, hl₂⟩ := hof₂ ha ⟨hk, hg⟩
    exact ⟨hk, hl₁, hl₂⟩

theorem fail (e : CompileError) : Keeps A F (Emission.fail e : Compile α) := Emits.fail e

theorem failIf {c : Bool} {e : CompileError} {x : Compile α} (hx : Keeps A F x) :
    Keeps A F (if c then Emission.fail e else x) := by
  split
  · exact fail e
  · exact hx

/-- An assumption the condition implies. -/
theorem discharge {B : Prop} {x : Compile α} (h : F → B) (hx : Keeps (A ∧ B) F x) : Keeps A F x := by
  intro s a l s' hs hlen
  obtain ⟨hlen', hto, hof⟩ := hx s a l s' hs hlen
  exact ⟨hlen', hto, fun ha hf => hof ⟨ha, h hf.2⟩ hf⟩

/-- A condition the assumption implies. -/
theorem implied {x : Compile α} (h : A → F) (hx : Keeps A F x) : Keeps A True x := by
  intro s a l s' hs hlen
  obtain ⟨hlen', hto, hof⟩ := hx s a l s' hs hlen
  exact ⟨hlen', fun hk => ⟨(hto hk).1, trivial⟩, fun ha hk => hof ha ⟨hk.1, h ha⟩⟩

theorem pure (a : α) : Keeps A True (pure a : Compile α) := by
  intro s b l s' h
  obtain ⟨-, rfl, rfl⟩ := Emission.pure_eq_ok.1 h
  exact Tracks.silent rfl rfl

theorem each {F : α → Prop} {f : α → Compile Unit} :
    ∀ as : List α, (∀ a ∈ as, Keeps A (F a) (f a)) →
      Keeps A (∀ a ∈ as, F a) (each f as)
  | [], _ => congr (by simp) (pure ())
  | a :: as, hf =>
    congr (by simp) (bind (hf a List.mem_cons_self) fun _ =>
      each as fun b hb => hf b (List.mem_cons_of_mem _ hb))

theorem newLabel : Keeps A True newLabel := by
  intro s a l s' h
  obtain ⟨-, rfl, rfl⟩ := newLabel_eq_ok.1 h
  exact Tracks.silent rfl rfl

theorem addOp (lineno : Lineno) (op : Op Label) :
    Keeps A (op.narrow = op) (addOp lineno op) := by
  intro s a l s' h
  obtain ⟨rfl, rfl⟩ := Emission.emit_eq_ok.1 h
  simp only [Tracks, Fit, filterMap_op?_op, List.filterMap_nil, List.mem_singleton, forall_eq]
  tauto

/-- An operation without counters. -/
theorem plainOp {lineno : Lineno} {op : Op Label} (h : op.narrow = op) :
    Keeps A True (Yog.addOp lineno op) :=
  .congr (by simp [h]) (.addOp lineno op)

theorem addLabel (l : Label) : Keeps A True (addLabel l) := by
  intro s a l s' h
  obtain ⟨rfl, rfl⟩ := Emission.emit_eq_ok.1 h
  exact Tracks.silent rfl rfl

theorem addNote (n : Note) : Keeps A True (addNote n) := by
  intro s a l s' h
  obtain ⟨rfl, rfl⟩ := Emission.emit_eq_ok.1 h
  exact Tracks.silent rfl rfl

theorem pushTry (node : Label) (e : ExceptionTableEntry Label) :
    Keeps A True (pushTry node e) := by
  intro s a l s' h
  obtain ⟨rfl, rfl⟩ := Emission.modify_eq_ok.1 h
  exact Tracks.silent rfl rfl

theorem popTry : Keeps A True popTry := by
  intro s a l s' h
  obtain ⟨rfl, rfl⟩ := Emission.modify_eq_ok.1 h
  refine Tracks.silent ?_ rfl
  split <;> rfl

theorem splitTries (node from_ to_ : Label) : Keeps A True (splitTries node from_ to_) := by
  intro s a l s' h
  obtain ⟨_, -, rfl, rfl⟩ := splitTries_eq_ok.1 h
  exact Tracks.silent rfl rfl

/-- An index of the table of constants fits. -/
theorem registerVal {env : YogEnv} (val : Val) {f : Nat → Op Label} {lineno : Lineno}
    (hf : ∀ index, index < 2 ^ 64 → (f index).narrow = f index) :
    Keeps A True
      (Yog.registerConst env (.val val) >>= fun index => Yog.addOp lineno (f index)) := by
  intro s a l s' h hs
  obtain ⟨index, l₁, s₁, l₂, h₁, h₂, rfl⟩ := Emission.bind_eq_ok.1 h
  obtain ⟨rfl, rfl⟩ := Emission.emit_eq_ok.1 h₂
  obtain ⟨rfl, hr⟩ := registerConst_eq_ok h₁
  have hi : index < 2 ^ 64 := by omega
  have hk : s'.consts.length ≤ 2 ^ 62 ∧ (Kept s' ↔ Kept s) := by
    rcases hr with ⟨-, rfl⟩ | ⟨rfl, hlt, rfl⟩
    · exact ⟨hs, Iff.rfl⟩
    · refine ⟨by simpa using hlt, ?_⟩
      simp [Kept]
  obtain ⟨hs', hk⟩ := hk
  have hl : Fit ([] ++ [.op lineno (f index)]) := by
    intro op hop
    simp only [List.nil_append, filterMap_op?_op, List.filterMap_nil, List.mem_singleton] at hop
    rw [hop]
    exact hf index hi
  exact ⟨hs', fun h => ⟨hk.1 h.1, trivial⟩, fun _ h => ⟨hk.2 h.1, hl⟩⟩

theorem addPushVal {env : YogEnv} (val : Val) (lineno : Lineno) :
    Keeps A True (addPushConst env (.val val) lineno) :=
  registerVal val fun _ h => by simp only [Op.narrow, Nat.mod_eq_of_lt h]

theorem addPushCode {env : YogEnv} (code : Code) (lineno : Lineno) :
    Keeps A (code.All CodeOf.Faithful) (addPushConst env (.code code) lineno) := by
  intro s a l s' h hs
  obtain ⟨index, l₁, s₁, l₂, h₁, h₂, rfl⟩ := Emission.bind_eq_ok.1 h
  obtain ⟨rfl, rfl⟩ := Emission.emit_eq_ok.1 h₂
  obtain ⟨rfl, rfl, hlt, rfl⟩ := registerCode_eq_ok h₁
  have hl : Fit ([] ++ [.op lineno (.pushConst s.consts.length)]) := by
    intro op hop
    simp only [List.nil_append, filterMap_op?_op, List.filterMap_nil, List.mem_singleton] at hop
    rw [hop]
    simp only [Op.narrow, Nat.mod_eq_of_lt (show s.consts.length < 2 ^ 64 by omega)]
  have hk : Kept { s with consts := s.consts ++ [.code code] }
      ↔ Kept s ∧ code.All CodeOf.Faithful := by
    simp only [Kept, List.mem_append, List.mem_singleton, ConstOf.code.injEq, or_imp, forall_and,
      forall_eq]
  exact ⟨by simpa using hlt, fun h => hk.1 h.1, fun _ h => ⟨hk.2 h, hl⟩⟩

end Keeps

theorem mod_two_pow_8_eq_self_iff {n : Nat} : n % 2 ^ 8 = n ↔ n < 2 ^ 8 :=
  Nat.mod_eq_iff_lt (by norm_num)

theorem mod_two_pow_64_eq_self_iff {n : Nat} : n % 2 ^ 64 = n ↔ n < 2 ^ 64 :=
  Nat.mod_eq_iff_lt (by norm_num)

/-- The `finally` bodies a jump out of a loop may copy fit. -/
def FinallyFits (env : YogEnv) (ctx : Ctx) : Prop :=
  ∀ e ∈ ctx.finallyList, fitsStmts env ctx.filename ctx.scopes true e.body = true

/-- The visits `v` makes keep track of the condition. -/
structure TracksVisits (env : YogEnv) (v : Visitor) : Prop where
  node : ∀ ctx e, Keeps (FinallyFits env ctx) (fitsExpr env ctx.filename ctx.scopes e = true)
    (v.node ctx e)
  stmts : ∀ ctx ss, Keeps (FinallyFits env ctx)
    (fitsStmts env ctx.filename ctx.scopes ctx.labelWhile.isSome ss = true) (v.stmts ctx ss)

section Members

variable (env : YogEnv) (filename : String) (scopes : List Scope)

theorem fitsExprs_iff (es : List Expr) : fitsExprs env filename scopes es = true
    ↔ ∀ e ∈ es, fitsExpr env filename scopes e = true :=
  checks_iff (by simp [fitsExprs]) (by simp [fitsExprs]) es

theorem fitsExpr?_iff (e : Option Expr) : fitsExpr? env filename scopes e = true
    ↔ ∀ e' ∈ e.toList, fitsExpr env filename scopes e' = true := by
  cases e <;> simp [fitsExpr?]

theorem fitsDictElems_iff (es : List DictElem) : fitsDictElems env filename scopes es = true
    ↔ ∀ e ∈ es, fitsExpr env filename scopes e.key = true
      ∧ fitsExpr env filename scopes e.value = true := by
  simpa using checks_iff (p := fun e : DictElem => fitsExpr env filename scopes e.key
      && fitsExpr env filename scopes e.value)
    (by simp [fitsDictElems]) (by rintro ⟨⟩ es; simp [fitsDictElems, DictElem.key, DictElem.value])
    es

theorem fitsKwArgs_iff (as : List KwArg) : fitsKwArgs env filename scopes as = true
    ↔ ∀ a ∈ as, fitsExpr env filename scopes a.value = true :=
  checks_iff (by simp [fitsKwArgs]) (by rintro ⟨⟩ as; simp [fitsKwArgs, KwArg.value]) as

theorem fitsStmts_iff (inLoop : Bool) (ss : List Stmt) :
    fitsStmts env filename scopes inLoop ss = true
      ↔ ∀ s ∈ ss, fitsStmt env filename scopes inLoop s = true :=
  checks_iff (by simp [fitsStmts]) (by simp [fitsStmts]) ss

/-- The condition on one `except` clause. -/
def fitsExcept (inLoop : Bool) : ExceptBody → Bool
  | .mk _ types var stmts =>
    fitsExprs env filename scopes types && var.toList.all (fitsVar scopes)
      && fitsStmts env filename scopes inLoop stmts

theorem fitsExcepts_iff (inLoop : Bool) (es : List ExceptBody) :
    fitsExcepts env filename scopes inLoop es = true
      ↔ ∀ e ∈ es, fitsExcept env filename scopes inLoop e = true :=
  checks_iff (by simp [fitsExcepts]) (by rintro ⟨⟩ es; simp [fitsExcepts, fitsExcept]) es

/-- The condition on one parameter. -/
def fitsDefault : Param → Bool
  | .mk _ _ name default_ =>
    (default_.isNone || fitsParam scopes name && fitsVar scopes name)
      && fitsExpr? env filename scopes default_

theorem fitsParams_iff (ps : List Param) : fitsParams env filename scopes ps = true
    ↔ ∀ p ∈ ps, fitsDefault env filename scopes p = true :=
  checks_iff (by simp [fitsParams]) (by rintro ⟨⟩ ps; simp [fitsParams, fitsDefault]) ps

end Members

/-! A body that fits fits in a loop too, where fewer expressions count. -/

section Mono

variable {env : YogEnv} {filename : String} {scopes : List Scope}

mutual

theorem fitsStmt_inLoop {b : Bool} : ∀ s, fitsStmt env filename scopes b s = true →
    fitsStmt env filename scopes true s = true
  | .break_ _ _, _ | .next _ _, _ => by simp [fitsStmt]
  | .except _ head excepts else_, h => by
    simp only [fitsStmt, Bool.and_eq_true] at h ⊢
    exact ⟨⟨fitsStmts_inLoop head h.1.1, fitsExcepts_inLoop excepts h.1.2⟩,
      fitsStmts_inLoop else_ h.2⟩
  | .finally_ _ head body, h => by
    simp only [fitsStmt, Bool.and_eq_true] at h ⊢
    exact ⟨fitsStmts_inLoop head h.1, fitsStmts_inLoop body h.2⟩
  | .if_ _ _ stmts tail, h => by
    simp only [fitsStmt, Bool.and_eq_true] at h ⊢
    exact ⟨⟨h.1.1, fitsStmts_inLoop stmts h.1.2⟩, fitsStmts_inLoop tail h.2⟩
  | .expr _, h | .klass .., h | .from_ .., h | .funcDef .., h | .import_ .., h | .module_ .., h
  | .multiAssign .., h | .nonlocal .., h | .raise .., h | .return_ .., h | .while_ .., h => h

theorem fitsStmts_inLoop {b : Bool} : ∀ ss, fitsStmts env filename scopes b ss = true →
    fitsStmts env filename scopes true ss = true
  | [], _ => rfl
  | s :: ss, h => by
    simp only [fitsStmts, Bool.and_eq_true] at h ⊢
    exact ⟨fitsStmt_inLoop s h.1, fitsStmts_inLoop ss h.2⟩

theorem fitsExcepts_inLoop {b : Bool} : ∀ es, fitsExcepts env filename scopes b es = true →
    fitsExcepts env filename scopes true es = true
  | [], _ => rfl
  | .mk _ _ _ stmts :: es, h => by
    simp only [fitsExcepts, Bool.and_eq_true] at h ⊢
    exact ⟨⟨h.1.1, fitsStmts_inLoop stmts h.1.2⟩, fitsExcepts_inLoop es h.2⟩

end

end Mono

namespace TracksVisits

variable {env : YogEnv} {v : Visitor} {A : Prop}

theorem addOpOf {F : Prop} {lineno : Lineno} : ∀ {op : Except CompileError (Op Label)},
    (∀ o, op = .ok o → (o.narrow = o ↔ F)) → Keeps A F (addOpOf lineno op)
  | .ok o, h => .congr (h o rfl) (.addOp lineno o)
  | .error e, _ => .fail e

theorem narrow_varOp {ctx : Ctx} {name : ID} {type : VarType} {o : Op Label}
    (hc : ctx.vars.ctx.indexed = true) (ht : ctx.vars.vars.lookup name = some type)
    (ho : storeOp ctx name type = .ok o ∨ loadOp ctx name type = .ok o) :
    o.narrow = o ↔ fitsVar ctx.scopes name = true := by
  cases type with
  | global =>
    simp only [storeOp, loadOp, pure, Except.pure, Except.ok.injEq] at ho
    rcases ho with rfl | rfl <;> simp [fitsVar, Ctx.scopes, hc, ht, Op.narrow]
  | local_ index =>
    simp only [storeOp, loadOp, pure, Except.pure, Except.ok.injEq] at ho
    rcases ho with rfl | rfl <;>
      simp only [fitsVar, Ctx.scopes, hc, ht, Op.narrow, Op.storeLocalIndex.injEq,
        Op.loadLocalIndex.injEq, mod_two_pow_8_eq_self_iff, if_true, decide_eq_true_eq]
  | nonlocal level word =>
    simp only [storeOp, loadOp] at ho
    split at ho
    · rename_i outer hs
      simp only [pure, Except.pure, Except.ok.injEq] at ho
      rcases ho with rfl | rfl <;> split <;> rename_i hi <;>
        simp [fitsVar, Ctx.scopes, hc, ht, hs, hi, Op.narrow]
    · simp [throw, throwThe, MonadExceptOf.throw] at ho

theorem appendStore (ctx : Ctx) (lineno : Lineno) (name : ID) :
    Keeps A (fitsVar ctx.scopes name = true) (appendStore env ctx lineno name) := by
  unfold Yog.appendStore
  split
  · rename_i hc
    split
    · rename_i type ht
      exact addOpOf fun o ho => narrow_varOp hc ht (.inl ho)
    · exact .fail _
  · rename_i hc
    exact .congr (by simp [fitsVar, Ctx.scopes, hc, Op.narrow]) (.addOp _ _)

theorem compileVisitVariable (ctx : Ctx) (lineno : Lineno) (name : ID) :
    Keeps A (fitsVar ctx.scopes name = true) (compileVisitVariable ctx lineno name) := by
  unfold Yog.compileVisitVariable
  split
  · rename_i hc
    split
    · rename_i type ht
      exact addOpOf fun o ho => narrow_varOp hc ht (.inr ho)
    · exact .fail _
  · rename_i hc
    exact .congr (by simp [fitsVar, Ctx.scopes, hc, Op.narrow]) (.addOp _ _)

section Visits

variable (hv : TracksVisits env v) (ctx : Ctx)
include hv

theorem compileDefault : ∀ p, Keeps (FinallyFits env ctx)
    (fitsDefault env ctx.filename ctx.scopes p = true) (compileDefault env v ctx p)
  | .mk _ _ _ none => .congr (by simp [fitsDefault, fitsExpr?]) (.pure ())
  | .mk _ lineno name (some expr) => by
    simp only [Yog.compileDefault]
    split
    · rename_i index hi
      have hop : ∀ label, Keeps (FinallyFits env ctx) (index < 2 ^ 8)
          (addOp lineno (.jumpIfDefined index label)) := fun label =>
        .congr (by simp only [Op.narrow, Op.jumpIfDefined.injEq, mod_two_pow_8_eq_self_iff, and_true])
          (.addOp lineno (.jumpIfDefined index label))
      refine .congr ?_ (.bind .newLabel fun label => .bind (hop label) fun _ =>
        .bind (hv.node ctx expr) fun _ => .bind (appendStore ctx lineno name) fun _ =>
        .addLabel label)
      simp only [fitsDefault, fitsParam, Ctx.scopes, hi, fitsExpr?, Option.isNone_some,
        Bool.false_or, Bool.and_eq_true, decide_eq_true_eq]
      tauto
    · exact .fail _

theorem compileBody (params : List Param) (stmts : List Stmt) :
    Keeps (FinallyFits env ctx) (fitsParams env ctx.filename ctx.scopes params = true
      ∧ fitsStmts env ctx.filename ctx.scopes ctx.labelWhile.isSome stmts = true)
      (compileBody env v ctx params stmts) :=
  .congr (by simp [fitsParams_iff]) (.bind .newLabel fun _ => .bind (.addLabel _) fun _ =>
    .bind (.each params fun p _ => hv.compileDefault ctx p) fun _ => hv.stmts ctx stmts)

/-- A body is decoded as meant, with those in it, exactly when it fits. -/
theorem compileStmts_iff {funcName : ID} {params : List Param} {stmts : List Stmt}
    {depths depths' : List Int} {code : Code} (hf : ctx.finallyList = [])
    (h : compileStmts env v ctx funcName params stmts depths = .ok (code, depths')) :
    code.All CodeOf.Faithful ↔ fitsParams env ctx.filename ctx.scopes params = true
      ∧ fitsStmts env ctx.filename ctx.scopes ctx.labelWhile.isSome stmts = true := by
  obtain ⟨insts, s, hb, hm⟩ := compileStmts_eq_ok h
  obtain ⟨code⟩ := code
  obtain ⟨-, hto, hof⟩ := hv.compileBody ctx params stmts _ _ _ _ hb (by simp [CompileData.new])
  have hnew : Kept (.new depths) := by simp [Kept, CompileData.new]
  have hA : FinallyFits env ctx := by simp [FinallyFits, hf]
  have hall : (Code.mk code).All CodeOf.Faithful ↔ Kept s ∧ Fit insts := by
    obtain ⟨-, hconsts, -⟩ := makeCode_eq_ok hm
    rw [← faithful_iff_fit hm, Kept, ← hconsts]
    constructor
    · rintro ⟨hp, hc⟩
      exact ⟨hc, hp⟩
    · rintro ⟨hc, hp⟩
      exact .mk hp hc
  rw [hall]
  exact ⟨fun h => (hto h).2, fun h => hof hA ⟨hnew, h⟩⟩

omit hv in
theorem all_withArgInfo {code : Code} {info : ArgInfo} :
    (code.withArgInfo info).All CodeOf.Faithful ↔ code.All CodeOf.Faithful := by
  obtain ⟨code⟩ := code
  constructor
  · rintro ⟨hp, hc⟩
    exact .mk hp hc
  · rintro ⟨hp, hc⟩
    exact .mk hp hc

/-- A nested body, entered in the constants. -/
theorem inner_bind {F G : Prop} {vars : Except CompileError Scope} {className funcName : ID}
    {params : List Param} {stmts : List Stmt} {info : Except CompileError (Option ArgInfo)}
    {lineno : Lineno} {f : Unit → Compile Unit}
    (hF : ∀ scope, vars = .ok scope →
      (F ↔ fitsParams env ctx.filename (scope :: ctx.scopes) params = true
        ∧ fitsStmts env ctx.filename (scope :: ctx.scopes) false stmts = true))
    (hf : ∀ u, Keeps A G (f u)) :
    Keeps A (F ∧ G)
      (compileInner env v vars ctx className funcName params stmts info >>= fun code =>
        addPushConst env (.code code) lineno >>= f) := by
  intro s b l s' h hs
  obtain ⟨code, l₁, s₁, l₂, h₁, h₂, rfl⟩ := Emission.bind_eq_ok.1 h
  obtain ⟨scope, body, depths, i, hvars, hb, -, rfl, rfl, rfl⟩ := compileInner_eq_ok h₁
  have hall : (i.elim body body.withArgInfo).All CodeOf.Faithful ↔ F := by
    rw [hF scope hvars]
    have hiff := hv.compileStmts_iff (ctx.inner scope className) rfl hb
    cases i with
    | none => exact hiff
    | some info => exact all_withArgInfo.trans hiff
  have hrest : Keeps A (F ∧ G)
      (addPushConst env (.code (i.elim body body.withArgInfo)) lineno >>= f) :=
    .congr (by rw [hall]) (.bind (.addPushCode _ lineno) hf)
  exact hrest { s with outerDepths := depths } b l₂ s' h₂ hs

theorem compileAssign (e : Expr) : Keeps (FinallyFits env ctx)
    (fitsExpr env ctx.filename ctx.scopes e = true) (compileAssign env v ctx e) := by
  unfold Yog.compileAssign
  split
  · exact .congr (by simp [fitsExpr]) (appendStore ctx _ _)
  · refine .congr ?_ (.bind (hv.node ctx _) fun _ => .bind (hv.node ctx _) fun _ =>
      .bind (.addOp _ _) fun _ => .addOp _ _)
    simp [fitsExpr, Op.narrow, and_comm]
  · exact .congr (by simp [fitsExpr, Op.narrow]) (.bind (hv.node ctx _) fun _ => .addOp _ _)
  · split <;> exact .fail _

theorem compileMultiAssign (left : List Expr) (middle : Option Expr) (right : List Expr) :
    Keeps (FinallyFits env ctx) (fitsExprs env ctx.filename ctx.scopes right = true
      ∧ fitsExpr? env ctx.filename ctx.scopes middle = true
      ∧ fitsExprs env ctx.filename ctx.scopes left = true)
      (compileMultiAssign env v ctx left middle right) :=
  .congr (by simp [fitsExprs_iff, fitsExpr?_iff])
    (.bind (.each right.reverse fun e _ => hv.compileAssign ctx e) fun _ =>
      .bind (.each middle.toList fun e _ => hv.compileAssign ctx e) fun _ =>
      .each left.reverse fun e _ => hv.compileAssign ctx e)

theorem compileVisitBlock : ∀ b, Keeps (FinallyFits env ctx)
    (fitsBlock? env ctx.filename ctx.scopes (some b) = true) (compileVisitBlock env v ctx b)
  | .mk lineno params stmts => by
    refine .congr ?_ (hv.inner_bind ctx
      (F := fitsBlock? env ctx.filename ctx.scopes (some (.mk lineno params stmts)) = true)
      (fun scope hs => ?_) fun _ => .addOp lineno .makeBlock)
    · simp [Op.narrow]
    · obtain ⟨tbl, ht, hs⟩ := Except.bind_eq_ok_iff.1 hs
      simp only [pure, Except.pure, Except.ok.injEq] at hs
      subst hs
      simp [fitsBlock?, ht, innerScopes, Ctx.scopes]

/-- The values of arguments. -/
theorem each_node (es : List Expr) : Keeps (FinallyFits env ctx)
    (fitsExprs env ctx.filename ctx.scopes es = true) (each (v.node ctx) es) :=
  .congr (fitsExprs_iff _ _ _ es).symm (.each es fun e _ => hv.node ctx e)

theorem each_node_reverse (es : List Expr) : Keeps (FinallyFits env ctx)
    (fitsExprs env ctx.filename ctx.scopes es = true) (each (v.node ctx) es.reverse) :=
  .congr (by simp [fitsExprs_iff]) (.each es.reverse fun e _ => hv.node ctx e)

theorem each_node_toList (e : Option Expr) : Keeps (FinallyFits env ctx)
    (fitsExpr? env ctx.filename ctx.scopes e = true) (each (v.node ctx) e.toList) :=
  .congr (fitsExpr?_iff _ _ _ e).symm (.each e.toList fun e _ => hv.node ctx e)

theorem compileKwArg (a : KwArg) : Keeps (FinallyFits env ctx)
    (fitsExpr env ctx.filename ctx.scopes a.value = true) (compileKwArg env v ctx a) :=
  .congr (by simp) (.bind (hv.node ctx a.value) fun _ => .addPushVal _ _)

/-- A call; `l`, `m` and `r` are the numbers of targets of its values. -/
theorem compileCallFunc (lineno : Lineno) (callee : Expr) (args : Args) (blockarg : Option BlockArg)
    (l m r : Nat) (hm : m < 2 ^ 8) :
    Keeps (FinallyFits env ctx)
      (fitsExpr env ctx.filename ctx.scopes (.funcCall lineno callee args blockarg) = true
        ∧ l < 2 ^ 8 ∧ r < 2 ^ 8)
      (compileCallFunc env v ctx lineno callee args blockarg l m r) := by
  obtain ⟨posargs, kwargs, vararg, varkwarg, andBlock⟩ := args
  have hb : Keeps (FinallyFits env ctx) (fitsBlock? env ctx.filename ctx.scopes blockarg = true)
      (each (Yog.compileVisitBlock env v ctx) blockarg.toList) := by
    cases blockarg with
    | none => exact .congr (by simp [fitsBlock?]) (.pure ())
    | some b =>
      exact .congr (by simp) (.each (F := fun b =>
        fitsBlock? env ctx.filename ctx.scopes (some b) = true) [b]
        fun b _ => hv.compileVisitBlock ctx b)
  have hk : Keeps (FinallyFits env ctx) (fitsKwArgs env ctx.filename ctx.scopes kwargs = true)
      (each (Yog.compileKwArg env v ctx) kwargs.reverse) :=
    .congr (by simp [fitsKwArgs_iff]) (.each kwargs.reverse fun a _ => hv.compileKwArg ctx a)
  refine .congr ?_ (.bind hb fun _ => .failIf (.bind (hv.each_node_toList ctx andBlock) fun _ =>
    .bind (hv.each_node_toList ctx varkwarg) fun _ => .bind (hv.each_node_toList ctx vararg) fun _ =>
    .bind hk fun _ => .bind (hv.each_node_reverse ctx posargs) fun _ =>
    .bind (hv.node ctx callee) fun _ => .bind .newLabel fun _ => .bind .newLabel fun _ =>
    .bind (.addLabel _) fun _ => .bind (.addOp _ _) fun _ => .addLabel _))
  have hva : vararg.toList.length < 2 ^ 8 := by cases vararg <;> simp
  have hvk : varkwarg.toList.length < 2 ^ 8 := by cases varkwarg <;> simp
  have hba : (if blockarg.isSome || andBlock.isSome then 1 else 0) < 2 ^ 8 := by split <;> norm_num
  simp only [fitsExpr, fitsArgs, Op.narrow, Op.callFunction.injEq, mod_two_pow_8_eq_self_iff, hva,
    hvk, hba, hm, Bool.and_eq_true, decide_eq_true_eq]
  tauto

theorem compileDecoratorsCall (decorators : List Expr) : Keeps (FinallyFits env ctx)
    (fitsExprs env ctx.filename ctx.scopes decorators = true)
    (compileDecoratorsCall v ctx decorators) :=
  .congr (by simp [fitsExprs_iff, Op.narrow])
    (.each decorators fun e _ => .bind (hv.node ctx e) fun _ => .addOp _ _)

omit hv in
theorem compileVisitLiteral (lineno : Lineno) (val : Val) :
    Keeps A True (compileVisitLiteral env lineno val) := by
  unfold Yog.compileVisitLiteral
  split
  · exact .registerVal _ fun _ h => by simp only [Op.narrow, Nat.mod_eq_of_lt h]
  · exact .addPushVal _ _

omit hv in
theorem addDupFor (lineno : Lineno) (e : Expr) : Keeps A True (addDupFor lineno e) := by
  unfold Yog.addDupFor
  split
  · exact .congr (by simp [Op.narrow]) (.addOp _ _)
  · exact .congr (by simp [Op.narrow]) (.addOp _ _)
  · exact .pure ()

theorem compileVisitExpr : ∀ e, Keeps (FinallyFits env ctx)
    (fitsExpr env ctx.filename ctx.scopes e = true) (compileVisitExpr env v ctx e)
  | .array lineno elems => by
    refine .congr ?_ (.bind (hv.each_node ctx elems) fun _ => .addOp lineno _)
    simp only [fitsExpr, Op.narrow, Op.makeArray.injEq, mod_two_pow_64_eq_self_iff,
      Bool.and_eq_true, decide_eq_true_eq, and_comm]
  | .set lineno elems => by
    refine .congr ?_ (.bind (hv.each_node ctx elems) fun _ => .addOp lineno _)
    simp only [fitsExpr, Op.narrow, Op.makeSet.injEq, mod_two_pow_8_eq_self_iff,
      Bool.and_eq_true, decide_eq_true_eq, and_comm]
  | .dict lineno elems => by
    refine .congr ?_ (.bind (.each elems fun e _ =>
      .bind (hv.node ctx e.key) fun _ => hv.node ctx e.value) fun _ => .addOp lineno _)
    simp only [fitsExpr, fitsDictElems_iff, Op.narrow, Op.makeDict.injEq, mod_two_pow_8_eq_self_iff,
      Bool.and_eq_true, decide_eq_true_eq, and_comm]
  | .assign lineno left right =>
    .congr (by simp [fitsExpr]) (.bind (hv.node ctx right) fun _ => .bind (addDupFor lineno left)
      fun _ => hv.compileAssign ctx left)
  | .attr lineno obj name =>
    .congr (by simp [fitsExpr, Op.narrow]) (.bind (hv.node ctx obj) fun _ => .addOp lineno _)
  | .not lineno expr =>
    .congr (by simp [fitsExpr, Op.narrow]) (.bind (hv.node ctx expr) fun _ => .addOp lineno _)
  | .binop lineno op left right =>
    .congr (by simp [fitsExpr, Op.narrow])
      (.bind (hv.node ctx left) fun _ => .bind (hv.node ctx right) fun _ => .addOp lineno _)
  | .subscript lineno left right =>
    .congr (by simp [fitsExpr, Op.narrow])
      (.bind (hv.node ctx left) fun _ => .bind (hv.node ctx right) fun _ => .addOp lineno _)
  | .conditional lineno test trueExpr falseExpr =>
    .congr (by simp [fitsExpr, and_assoc])
      (.bind .newLabel fun _ => .bind .newLabel fun _ => .bind (hv.node ctx test) fun _ =>
        .bind (.plainOp rfl) fun _ => .bind (hv.node ctx trueExpr) fun _ =>
        .bind (.plainOp rfl) fun _ => .bind (.addLabel _) fun _ =>
        .bind (hv.node ctx falseExpr) fun _ => .addLabel _)
  | .logicalAnd lineno left right =>
    .congr (by simp [fitsExpr])
      (.bind (hv.node ctx left) fun _ => .bind .newLabel fun _ => .bind (.plainOp rfl) fun _ =>
        .bind (.plainOp rfl) fun _ => .bind (.plainOp rfl) fun _ => .bind (hv.node ctx right) fun _ =>
        .addLabel _)
  | .logicalOr lineno left right =>
    .congr (by simp [fitsExpr])
      (.bind (hv.node ctx left) fun _ => .bind .newLabel fun _ => .bind (.plainOp rfl) fun _ =>
        .bind (.plainOp rfl) fun _ => .bind (.plainOp rfl) fun _ => .bind (hv.node ctx right) fun _ =>
        .addLabel _)
  | .funcCall lineno callee args blockarg =>
    .congr (by simp) (hv.compileCallFunc ctx lineno callee args blockarg 1 0 0 (by norm_num))
  | .literal lineno val => .congr (by simp [fitsExpr]) (compileVisitLiteral lineno val)
  | .super lineno => .congr (by simp [fitsExpr]) (.plainOp rfl)
  | .variable lineno id => .congr (by simp [fitsExpr]) (compileVisitVariable ctx lineno id)

/-- The right side of a multiple assignment, not a single call. -/
theorem compileMultiAssignExprs (l : Nat) (middle : Option Expr) (r : Nat) (rhs : Expr)
    (rhsRest : List Expr) :
    Keeps (FinallyFits env ctx)
      ((middle.isNone || rhsRest.length + 1 - r - l < 2 ^ 64 : Bool) = true
        ∧ fitsExpr env ctx.filename ctx.scopes rhs = true
        ∧ fitsExprs env ctx.filename ctx.scopes rhsRest = true)
      (compileMultiAssignExprs v ctx l middle r (rhs :: rhsRest)) := by
  unfold Yog.compileMultiAssignExprs
  split
  · exact .fail _
  · have hmiddle : Keeps (FinallyFits env ctx)
        ((middle.isNone || rhsRest.length + 1 - r - l < 2 ^ 64 : Bool) = true)
        (each (fun middle : Expr => addOp middle.lineno
          (.makeArray ((rhs :: rhsRest).length - r - l))) middle.toList) := by
      cases middle with
      | none => exact .congr (by simp) (.pure ())
      | some m =>
        refine .congr ?_ (.each [m] fun _ _ => .addOp _ _)
        simp only [List.mem_singleton, forall_eq, Op.narrow, Op.makeArray.injEq,
          mod_two_pow_64_eq_self_iff, List.length_cons, Option.isNone_some, Bool.false_or,
          decide_eq_true_eq]
    refine .congr ?_ (.bind (hv.each_node ctx _) fun _ => .bind hmiddle fun _ =>
      hv.each_node ctx _)
    have hsplit : fitsExprs env ctx.filename ctx.scopes (rhs :: rhsRest) = true
        ↔ fitsExprs env ctx.filename ctx.scopes
            ((rhs :: rhsRest).take ((rhs :: rhsRest).length - r)) = true
          ∧ fitsExprs env ctx.filename ctx.scopes
            ((rhs :: rhsRest).drop ((rhs :: rhsRest).length - r)) = true := by
      simp only [fitsExprs_iff, ← List.forall_mem_append, List.take_append_drop]
    simp only [fitsExprs, Bool.and_eq_true] at hsplit
    tauto

/-- The right side of a multiple assignment. -/
theorem compileMultiAssignRhs (left : List Expr) (middle : Option Expr) (right : List Expr)
    (rhs : Expr) (rhsRest : List Expr) :
    Keeps (FinallyFits env ctx)
      ((match rhs, rhsRest with
        | .funcCall .., [] => left.length < 2 ^ 8 && right.length < 2 ^ 8
        | _, _ => middle.isNone || rhsRest.length + 1 - right.length - left.length < 2 ^ 64) = true
        ∧ fitsExpr env ctx.filename ctx.scopes rhs = true
        ∧ fitsExprs env ctx.filename ctx.scopes rhsRest = true)
      (compileMultiAssignRhs env v ctx left middle right rhs rhsRest) := by
  cases rhs
  case funcCall lineno callee args blockarg =>
    cases rhsRest with
    | nil =>
      have hm : middle.toList.length < 2 ^ 8 := by cases middle <;> simp
      refine .congr ?_ (hv.compileCallFunc ctx lineno callee args blockarg _ _ _ hm)
      simp only [fitsExprs, Bool.and_eq_true, decide_eq_true_eq]
      tauto
    | cons _ _ => exact hv.compileMultiAssignExprs ctx left.length middle right.length _ _
  all_goals exact hv.compileMultiAssignExprs ctx left.length middle right.length _ _

theorem compileVisitMultiAssign (left : List Expr) (middle : Option Expr) (right : List Expr)
    (rhs : Expr) (rhsRest : List Expr) :
    Keeps (FinallyFits env ctx) (fitsStmt env ctx.filename ctx.scopes ctx.labelWhile.isSome
      (.multiAssign 0 left middle right rhs rhsRest) = true)
      (compileVisitMultiAssign env v ctx left middle right rhs rhsRest) := by
  refine .congr ?_ (.bind (hv.compileMultiAssignRhs ctx left middle right rhs rhsRest) fun _ =>
    hv.compileMultiAssign ctx left middle right)
  simp only [fitsStmt, Bool.and_eq_true]
  tauto

omit hv in
theorem addRaiseLastException (lineno : Lineno) : Keeps A True (addRaiseLastException env lineno) :=
  .congr (by simp) (.bind (.plainOp rfl) fun _ => .bind (.plainOp rfl) fun _ => .plainOp rfl)

theorem compileVisitFinally (lineno : Lineno) (head body : List Stmt) :
    Keeps (FinallyFits env ctx) (fitsStmt env ctx.filename ctx.scopes ctx.labelWhile.isSome
      (.finally_ lineno head body) = true) (compileVisitFinally env v ctx lineno head body) := by
  have hstmts : ∀ node ss, Keeps (FinallyFits env ctx
        ∧ fitsStmts env ctx.filename ctx.scopes true body = true)
      (fitsStmts env ctx.filename ctx.scopes ctx.labelWhile.isSome ss = true)
      (v.stmts { ctx with finallyList := ⟨node, body⟩ :: ctx.finallyList } ss) := by
    intro node ss
    have h := hv.stmts { ctx with finallyList := ⟨node, body⟩ :: ctx.finallyList } ss
    simpa only [FinallyFits, Ctx.scopes, List.forall_mem_cons, and_comm] using h
  refine .congr ?_ (.bind .newLabel fun node => .bind .newLabel fun _ => .bind .newLabel fun _ =>
    .bind .newLabel fun _ => .discharge ?_ (.bind (.pushTry _ _) fun _ => .bind (.addLabel _) fun _ =>
    .bind (.addNote _) fun _ => .bind (hstmts node head) fun _ => .bind (.addNote _) fun _ =>
    .bind (.addLabel _) fun _ => .bind (hstmts node body) fun _ => .bind (.plainOp rfl) fun _ =>
    .bind (.addLabel _) fun _ => .bind (hstmts node body) fun _ =>
    .bind (addRaiseLastException lineno) fun _ => .bind (.addLabel _) fun _ => .popTry))
  · simp only [fitsStmt, Bool.and_eq_true]
    tauto
  · rintro ⟨-, -, -, -, -, -, hbody, -⟩
    exact fitsStmts_inLoop body hbody

theorem compileExcept (labelElseEnd : Label) : ∀ b, Keeps (FinallyFits env ctx)
    (fitsExcept env ctx.filename ctx.scopes ctx.labelWhile.isSome b = true)
    (compileExcept env v ctx labelElseEnd b)
  | .mk lineno types var stmts => by
    have hvar : Keeps (FinallyFits env ctx) (∀ id ∈ var.toList, fitsVar ctx.scopes id = true)
        (each (fun id => do
          addOp lineno .loadException
          Yog.appendStore env ctx lineno id) var.toList) :=
      .each var.toList fun id _ =>
        .congr (by simp) (.bind (.plainOp rfl) fun _ => appendStore ctx lineno id)
    have htypes : ∀ label, Keeps (FinallyFits env ctx)
        (fitsExprs env ctx.filename ctx.scopes types = true)
        (each (compileExceptType v ctx label) types) := fun label =>
      .congr (by simp [fitsExprs_iff]) (.each types fun type _ =>
        .bind (.plainOp rfl) fun _ => .bind (hv.node ctx type) fun _ =>
        .bind (.plainOp rfl) fun _ => .plainOp rfl)
    exact .congr (by simp [fitsExcept, and_assoc])
      (.bind .newLabel fun _ => .bind .newLabel fun _ => .bind (htypes _) fun _ =>
        .bind (.each types.getLast?.toList fun _ _ => .plainOp rfl) fun _ =>
        .bind (.addLabel _) fun _ => .bind hvar fun _ => .bind (hv.stmts ctx stmts) fun _ =>
        .bind (.plainOp rfl) fun _ => .addLabel _)

theorem compileVisitExcept (lineno : Lineno) (head : List Stmt) (excepts : List ExceptBody)
    (else_ : List Stmt) :
    Keeps (FinallyFits env ctx) (fitsStmt env ctx.filename ctx.scopes ctx.labelWhile.isSome
      (.except lineno head excepts else_) = true)
      (compileVisitExcept env v ctx lineno head excepts else_) :=
  .congr (by simp [fitsStmt, fitsExcepts_iff, and_assoc])
    (.bind .newLabel fun _ => .bind .newLabel fun _ => .bind .newLabel fun _ =>
      .bind .newLabel fun _ => .bind .newLabel fun _ => .bind (.pushTry _ _) fun _ =>
      .bind (.addLabel _) fun _ => .bind (.addNote _) fun _ => .bind (hv.stmts ctx head) fun _ =>
      .bind (.addNote _) fun _ => .bind (.addLabel _) fun _ => .bind (.plainOp rfl) fun _ =>
      .bind (.addLabel _) fun _ => .bind (.each excepts fun b _ => hv.compileExcept ctx _ b) fun _ =>
      .bind (addRaiseLastException lineno) fun _ => .bind (.addLabel _) fun _ =>
      .bind (hv.stmts ctx else_) fun _ => .bind (.addLabel _) fun _ => .popTry)

theorem compileVisitWhile (lineno : Lineno) (test : Expr) (stmts : List Stmt) :
    Keeps (FinallyFits env ctx) (fitsStmt env ctx.filename ctx.scopes ctx.labelWhile.isSome
      (.while_ lineno test stmts) = true) (compileVisitWhile v ctx lineno test stmts) := by
  have htest : ∀ labels, Keeps (FinallyFits env ctx)
      (fitsExpr env ctx.filename ctx.scopes test = true)
      (v.node { ctx with labelWhile := some labels } test) := fun _ => hv.node _ test
  have hstmts : ∀ labels, Keeps (FinallyFits env ctx)
      (fitsStmts env ctx.filename ctx.scopes true stmts = true)
      (v.stmts { ctx with labelWhile := some labels } stmts) := fun _ => hv.stmts _ stmts
  exact .congr (by simp [fitsStmt])
    (.bind .newLabel fun _ => .bind .newLabel fun _ => .bind (.addLabel _) fun _ =>
      .bind (htest _) fun _ => .bind (.plainOp rfl) fun _ => .bind (hstmts _) fun _ =>
      .bind (.plainOp rfl) fun _ => .addLabel _)

theorem compileVisitIf (lineno : Lineno) (test : Expr) (stmts tail : List Stmt) :
    Keeps (FinallyFits env ctx) (fitsStmt env ctx.filename ctx.scopes ctx.labelWhile.isSome
      (.if_ lineno test stmts tail) = true) (compileVisitIf v ctx test stmts tail) :=
  .congr (by simp [fitsStmt, and_assoc])
    (.bind .newLabel fun _ => .bind .newLabel fun _ => .bind (hv.node ctx test) fun _ =>
      .bind (.plainOp rfl) fun _ => .bind (hv.stmts ctx stmts) fun _ => .bind (.plainOp rfl) fun _ =>
      .bind (.addLabel _) fun _ => .bind (hv.stmts ctx tail) fun _ => .addLabel _)

/-- A jump out of a loop only copies what the assumption is about. -/
theorem compileWhileJump (lineno : Lineno) (jumpTo : Label) (hw : ctx.labelWhile.isSome = true) :
    Keeps (FinallyFits env ctx) True (compileWhileJump v ctx lineno jumpTo) := by
  have hcopy : ∀ e ∈ ctx.finallyList,
      Keeps (FinallyFits env ctx) True (compileFinallyCopy v ctx e) := fun e he =>
    .congr (by simp) (.bind .newLabel fun _ => .bind .newLabel fun _ => .bind (.addLabel _) fun _ =>
      .bind (.addNote _) fun _ => .bind (.implied (fun ha => hw ▸ ha e he) (hv.stmts ctx e.body))
      fun _ => .bind (.addNote _) fun _ => .bind (.addLabel _) fun _ => .splitTries _ _ _)
  exact .congr (by simp) (.bind (.each ctx.finallyList hcopy) fun _ => .plainOp rfl)

/-- The expressions are evaluated from the last to the first, and are counted in a byte. -/
theorem exprs_bind (exprs : List Expr) {f : Unit → Compile Unit}
    (hf : ∀ u, exprs.length < 2 ^ 8 → Keeps (FinallyFits env ctx) True (f u)) :
    Keeps (FinallyFits env ctx) (fitsExprs env ctx.filename ctx.scopes exprs = true)
      (visitArrayElementsOppositeOrder v ctx exprs >>= f) := by
  unfold visitArrayElementsOppositeOrder
  split
  · rename_i hlen
    exact .congr (by simp) (.bind (hv.each_node_reverse ctx exprs) fun u => hf u hlen)
  · exact .fail _

theorem compileVisitBreak (lineno : Lineno) (exprs : List Expr) :
    Keeps (FinallyFits env ctx) (fitsStmt env ctx.filename ctx.scopes ctx.labelWhile.isSome
      (.break_ lineno exprs) = true) (compileVisitBreak v ctx lineno exprs) := by
  unfold Yog.compileVisitBreak
  split
  · rename_i hw
    exact .congr (by simp [fitsStmt, hw]) (hv.compileWhileJump ctx lineno _ (by simp [hw]))
  · rename_i hw
    refine .congr (by simp [fitsStmt, hw]) (hv.exprs_bind ctx exprs fun _ hlen => .plainOp ?_)
    simp only [Op.narrow, Nat.mod_eq_of_lt hlen]

theorem compileVisitNext (lineno : Lineno) (exprs : List Expr) :
    Keeps (FinallyFits env ctx) (fitsStmt env ctx.filename ctx.scopes ctx.labelWhile.isSome
      (.next lineno exprs) = true) (compileVisitNext env v ctx lineno exprs) := by
  unfold Yog.compileVisitNext
  split
  · rename_i hw
    exact .congr (by simp [fitsStmt, hw]) (hv.compileWhileJump ctx lineno _ (by simp [hw]))
  · rename_i hw
    split
    · exact .congr (by simp [fitsStmt, hw, fitsExprs])
        (.bind (.addPushVal _ _) fun _ => .plainOp rfl)
    · refine .congr (by simp [fitsStmt, hw]) (hv.exprs_bind ctx exprs fun _ hlen => .plainOp ?_)
      simp only [Op.narrow, Nat.mod_eq_of_lt hlen]

theorem compileVisitReturn (lineno : Lineno) (exprs : List Expr) :
    Keeps (FinallyFits env ctx) (fitsStmt env ctx.filename ctx.scopes ctx.labelWhile.isSome
      (.return_ lineno exprs) = true) (compileVisitReturn v ctx lineno exprs) := by
  refine .congr (by simp [fitsStmt]) (hv.exprs_bind ctx exprs fun _ hlen => .plainOp ?_)
  split <;> simp only [Op.narrow, Nat.mod_eq_of_lt hlen]

omit hv in
/-- The table of a nested function, class or module is the one the condition decides. -/
theorem scopeOfFunc_iff {context : Context} {params : List Param} {stmts : List Stmt}
    {scope : Scope} (hs : scopeOfFunc env ctx context params stmts = .ok scope) :
    innerScopes env ctx.scopes (makeVarTableOfFunc env (some ctx.filename) context params stmts)
      = scope :: ctx.scopes := by
  obtain ⟨tbl, ht, hs⟩ := Except.bind_eq_ok_iff.1 hs
  simp only [pure, Except.pure, Except.ok.injEq] at hs
  subst hs
  simp [innerScopes, ht, Ctx.scopes]

theorem compileVisitFuncDef (lineno : Lineno) (decorators : List Expr) (name : ID)
    (params : List Param) (stmts : List Stmt) :
    Keeps (FinallyFits env ctx) (fitsStmt env ctx.filename ctx.scopes ctx.labelWhile.isSome
      (.funcDef lineno decorators name params stmts) = true)
      (compileVisitFuncDef env v ctx lineno decorators name params stmts) := by
  refine .congr ?_ (hv.inner_bind ctx (F := fitsParams env ctx.filename (innerScopes env ctx.scopes
      (makeVarTableOfFunc env (some ctx.filename) .func params stmts)) params = true
    ∧ fitsStmts env ctx.filename (innerScopes env ctx.scopes
      (makeVarTableOfFunc env (some ctx.filename) .func params stmts)) false stmts = true)
    (fun scope hs => by rw [scopeOfFunc_iff ctx hs]) fun _ => .bind (.plainOp rfl) fun _ =>
      .bind (hv.compileDecoratorsCall ctx decorators) fun _ => appendStore ctx lineno name)
  simp [fitsStmt, and_assoc]

theorem compileVisitClass (lineno : Lineno) (decorators : List Expr) (name : ID)
    (super : Option Expr) (stmts : List Stmt) :
    Keeps (FinallyFits env ctx) (fitsStmt env ctx.filename ctx.scopes ctx.labelWhile.isSome
      (.klass lineno decorators name super stmts) = true)
      (compileVisitClass env v ctx lineno decorators name super stmts) := by
  have hsuper : Keeps (FinallyFits env ctx) (fitsExpr? env ctx.filename ctx.scopes super = true)
      (compileSuper env v ctx lineno super) := by
    cases super with
    | none => exact .congr (by simp [fitsExpr?]) (.addPushVal _ _)
    | some super => exact .congr (by simp [fitsExpr?]) (hv.node ctx super)
  refine .congr ?_ (.bind (.addPushVal _ _) fun _ => .bind hsuper fun _ =>
    hv.inner_bind ctx (F := fitsStmts env ctx.filename (innerScopes env ctx.scopes
      (makeVarTableOfFunc env (some ctx.filename) .klass [] stmts)) false stmts = true)
      (fun scope hs => by rw [scopeOfFunc_iff ctx hs]; simp [fitsParams]) fun _ =>
      .bind (.plainOp rfl) fun _ => .bind (.plainOp rfl) fun _ =>
      .bind (hv.compileDecoratorsCall ctx decorators) fun _ => appendStore ctx lineno name)
  simp [fitsStmt, and_assoc]

theorem compileVisitModule (lineno : Lineno) (name : ID) (stmts : List Stmt) :
    Keeps (FinallyFits env ctx) (fitsStmt env ctx.filename ctx.scopes ctx.labelWhile.isSome
      (.module_ lineno name stmts) = true) (compileVisitModule env v ctx lineno name stmts) := by
  refine .congr ?_ (hv.inner_bind ctx (F := fitsStmts env ctx.filename (innerScopes env ctx.scopes
      (makeVarTableOfFunc env (some ctx.filename) .klass [] stmts)) false stmts = true)
      (fun scope hs => by rw [scopeOfFunc_iff ctx hs]; simp [fitsParams]) fun _ =>
      .bind (.plainOp rfl) fun _ => .bind (.plainOp rfl) fun _ => appendStore ctx lineno name)
  simp [fitsStmt]

omit hv in
theorem compileImport (lineno : Lineno) (name : ID) (rest : List ID) :
    Keeps A True (compileImport env lineno name rest) :=
  .congr (by simp) (.bind (.addPushVal _ _) fun _ => .bind (.plainOp rfl) fun _ => .plainOp rfl)

omit hv in
theorem compileStorePkgAttr (lineno : Lineno) (attr : ImportedAttr) :
    Keeps A (fitsVar ctx.scopes (attr.as.getD attr.name) = true)
      (compileStorePkgAttr env ctx lineno attr) :=
  .congr (by simp) (.bind (.plainOp rfl) fun _ => appendStore ctx lineno _)

omit hv in
theorem compileLoadPkgAttr (lineno : Lineno) (rest : List ID) :
    Keeps A True (compileLoadPkgAttr lineno rest) :=
  .congr (by simp) (.each rest fun _ _ => .plainOp rfl)

omit hv in
theorem compileVisitFrom (lineno : Lineno) (pkg : ID) (pkgRest : List ID) (attr : ImportedAttr)
    (attrs : List ImportedAttr) :
    Keeps A (fitsStmt env ctx.filename ctx.scopes ctx.labelWhile.isSome
      (.from_ lineno pkg pkgRest attr attrs) = true)
      (compileVisitFrom env ctx lineno pkg pkgRest attr attrs) := by
  refine .congr ?_ (.bind (compileImport lineno pkg pkgRest) fun _ =>
    .bind (compileLoadPkgAttr lineno pkgRest) fun _ =>
    .bind (.each (attr :: attrs).dropLast fun attr _ =>
      .bind (.plainOp rfl) fun _ => compileStorePkgAttr ctx lineno attr) fun _ =>
    compileStorePkgAttr ctx lineno ((attr :: attrs).getLast (List.cons_ne_nil _ _)))
  have hlast := List.dropLast_concat_getLast (List.cons_ne_nil attr attrs)
  have hall : (∀ a ∈ attr :: attrs, fitsVar ctx.scopes (a.as.getD a.name) = true)
      ↔ (∀ a ∈ (attr :: attrs).dropLast, fitsVar ctx.scopes (a.as.getD a.name) = true)
        ∧ fitsVar ctx.scopes (((attr :: attrs).getLast (List.cons_ne_nil _ _)).as.getD
          ((attr :: attrs).getLast (List.cons_ne_nil _ _)).name) = true := by
    conv_lhs => rw [← hlast]
    simp only [List.forall_mem_append, List.mem_singleton, forall_eq]
  simp only [fitsStmt, List.all_eq_true, hall, true_and]

omit hv in
theorem compileVisitImport (lineno : Lineno) (name : ID) (nameRest : List ID) :
    ∀ as, Keeps A (fitsStmt env ctx.filename ctx.scopes ctx.labelWhile.isSome
      (.import_ lineno name nameRest as) = true)
      (compileVisitImport env ctx lineno name nameRest as)
  | none =>
    .congr (by simp [fitsStmt])
      (.bind (compileImport lineno name nameRest) fun _ => appendStore ctx lineno name)
  | some as =>
    .congr (by simp [fitsStmt]) (.bind (compileImport lineno name nameRest) fun _ =>
      .bind (compileLoadPkgAttr lineno nameRest) fun _ => appendStore ctx lineno as)

theorem compileVisitRaise (lineno : Lineno) (e : Option Expr) : Keeps (FinallyFits env ctx)
    (fitsExpr? env ctx.filename ctx.scopes e = true) (compileVisitRaise env v ctx lineno e) := by
  cases e with
  | none => exact .congr (by simp [fitsExpr?]) (addRaiseLastException lineno)
  | some e =>
    exact .congr (by simp [fitsExpr?])
      (.bind (hv.node ctx e) fun _ => .bind (.plainOp rfl) fun _ => .plainOp rfl)

theorem compileVisitStmt (stmt : Stmt) : Keeps (FinallyFits env ctx)
    (fitsStmt env ctx.filename ctx.scopes ctx.labelWhile.isSome stmt = true)
    (compileVisitStmt env v ctx stmt) := by
  unfold Yog.compileVisitStmt
  split
  · rename_i lineno callee args blockarg
    have hm : (if ctx.interactive then 1 else 0) < 2 ^ 8 := by split <;> norm_num
    exact .congr (by simp [fitsStmt]) (hv.compileCallFunc ctx lineno callee args blockarg 0 _ 0 hm)
  · exact hv.node ctx _
  · exact hv.compileVisitBreak ctx _ _
  · exact hv.compileVisitClass ctx _ _ _ _ _
  · exact hv.compileVisitExcept ctx _ _ _ _
  · exact hv.compileVisitFinally ctx _ _ _
  · exact compileVisitFrom ctx _ _ _ _ _
  · exact hv.compileVisitFuncDef ctx _ _ _ _ _
  · exact hv.compileVisitIf ctx _ _ _ _
  · exact compileVisitImport ctx _ _ _ _
  · exact hv.compileVisitModule ctx _ _ _
  · exact hv.compileVisitMultiAssign ctx _ _ _ _ _
  · exact hv.compileVisitNext ctx _ _
  · exact .congr (by simp [fitsStmt]) (.pure ())
  · exact hv.compileVisitRaise ctx _ _
  · exact hv.compileVisitReturn ctx _ _
  · exact hv.compileVisitWhile ctx _ _ _

omit hv in
theorem processStackTop (stmt : Stmt) : Keeps A True (processStackTop ctx stmt) := by
  unfold Yog.processStackTop
  split
  · split <;> exact .plainOp rfl
  · split
    · split
      · exact .plainOp rfl
      · exact .pure ()
    · exact .pure ()

theorem compileVisitStmts (stmts : List Stmt) : Keeps (FinallyFits env ctx)
    (fitsStmts env ctx.filename ctx.scopes ctx.labelWhile.isSome stmts = true)
    (compileVisitStmts env v ctx stmts) :=
  .congr (by simp [fitsStmts_iff]) (.each stmts fun stmt _ => .bind (.addNote _) fun _ =>
    .bind (hv.compileVisitStmt ctx stmt) fun _ => .bind (processStackTop ctx stmt) fun _ =>
    .addNote _)

end Visits

end TracksVisits

theorem tracksVisits_visitor (env : YogEnv) : ∀ fuel, TracksVisits env (visitor env fuel)
  | 0 => ⟨fun _ _ => .fail _, fun _ _ => .fail _⟩
  | fuel + 1 =>
    ⟨(tracksVisits_visitor env fuel).compileVisitExpr,
      (tracksVisits_visitor env fuel).compileVisitStmts⟩

/-- The condition on a package. -/
def fitsPackage (env : YogEnv) (filename : String) (stmts : List Stmt) : Bool :=
  fitsStmts env filename
    (innerScopes env [] (makeVarTableOfFunc env (some filename) .pkg [] stmts)) false stmts

/-- All bodies of a compiled package are decoded as meant exactly when the package fits. -/
theorem package_faithful_iff {env : YogEnv} {fuel : Nat} {filename : String} {stmts : List Stmt}
    {interactive : Bool} {code : Code}
    (h : compilePackage env fuel filename stmts interactive = .ok code) :
    code.All CodeOf.Faithful ↔ fitsPackage env filename stmts = true := by
  obtain ⟨tbl, ht, h⟩ := Except.bind_eq_ok_iff.1 h
  obtain ⟨⟨c, depths⟩, hc, h⟩ := Except.bind_eq_ok_iff.1 h
  simp only [pure, Except.pure, Except.ok.injEq] at h
  subst h
  rw [(tracksVisits_visitor env fuel).compileStmts_iff _ rfl hc]
  simp [fitsPackage, ht, innerScopes, Ctx.scopes, fitsParams]

theorem package_faithful_iff_sample :
    ∃ code, compilePackage .sample 5 "a.yog" [.expr (.set 1 [.literal 1 .nil])] false = .ok code
      ∧ (code.All CodeOf.Faithful
        ↔ fitsPackage .sample "a.yog" [.expr (.set 1 [.literal 1 .nil])] = true) := by
  obtain ⟨code, h⟩ := Except.exists_of_toBool
    (x := compilePackage .sample 5 "a.yog" [.expr (.set 1 [.literal 1 .nil])] false)
    (by decide +kernel)
  exact ⟨code, h, package_faithful_iff h⟩

/-- A set of 256 elements is made of none. -/
theorem package_unfaithful :
    ¬ ∀ (env : YogEnv) (fuel : Nat) (filename : String) (stmts : List Stmt) (interactive : Bool)
      (code : Code), compilePackage env fuel filename stmts interactive = .ok code →
        code.All CodeOf.Faithful := by
  intro h
  obtain ⟨⟨code⟩, hc, hne⟩ := Except.exists_of_any
    (x := compilePackage .sample 5 "a.yog"
      [.expr (.set 1 (List.replicate 256 (.literal 1 .nil)))] false)
    (p := fun code => resolve (code.fields.list.map Inst.narrow) ≠ resolve code.fields.list)
    (by decide +kernel)
  obtain ⟨hf, -⟩ := h _ _ _ _ _ _ hc
  obtain ⟨ha, -⟩ := package_all assembled_ofMakeCode hc
  rw [CodeOf.Faithful, ha.decode, Option.some.injEq] at hf
  simp [Code.fields, hf] at hne

end Yog
