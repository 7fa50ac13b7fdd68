import Yog.Compile
import Mathlib.Tactic

/-!
# What every visit does

A relation between the state before a visit, what it emits and the state after that holds of every
single step of the compiler, and of one visit after another, holds of every visit (`Uniform.visitor`).
It may speak of the variable tables of the body and those around it. The steps are emitting, creating
a label, entering a constant and opening, splitting and closing a `try`. A nested body is a visit
from a new state, and the code made of it is entered into the constants.
-/

namespace Yog

open Emission (Emits Composes each)

/-- A check of a list that checks its members. -/
theorem checks_iff {α : Type} {f : List α → Bool} {p : α → Bool} (hnil : f [] = true)
    (hcons : ∀ a as, f (a :: as) = (p a && f as)) (as : List α) :
    f as = true ↔ ∀ a ∈ as, p a = true := by
  induction as with
  | nil => simp [hnil]
  | cons a as ih => simp [hcons, ih]

theorem newLabel_eq_ok {s s' : CompileData} {a : Label} {l : List Inst} :
    newLabel s = .ok (a, l, s') ↔
      a = ⟨s.nextLabel⟩ ∧ l = [] ∧ s' = { s with nextLabel := s.nextLabel + 1 } := by
  simp only [newLabel, Except.ok.injEq, Prod.mk.injEq]
  constructor <;> rintro ⟨rfl, rfl, rfl⟩ <;> exact ⟨rfl, rfl, rfl⟩

/-- A constant is found in the table or entered at its end. -/
theorem registerConst_eq_ok {env : YogEnv} {c : Const} {s s' : CompileData} {index : Nat}
    {l : List Inst} (h : registerConst env c s = .ok (index, l, s')) :
    l = [] ∧ (index < s.consts.length ∧ s' = s
      ∨ index = s.consts.length ∧ index < 2 ^ 62 ∧ s' = { s with consts := s.consts ++ [c] }) := by
  unfold registerConst at h
  split at h
  · rename_i i hi
    simp only [Except.ok.injEq, Prod.mk.injEq] at h
    obtain ⟨rfl, rfl, rfl⟩ := h
    obtain ⟨hlt, -⟩ := List.findIdx?_eq_some_iff_findIdx_eq.1 hi
    exact ⟨rfl, Or.inl ⟨hlt, rfl⟩⟩
  · split at h
    · rename_i hlt
      simp only [Except.ok.injEq, Prod.mk.injEq] at h
      obtain ⟨rfl, rfl, rfl⟩ := h
      exact ⟨rfl, Or.inr ⟨rfl, hlt, rfl⟩⟩
    · simp at h

theorem splitTries_eq_ok {node from_ to_ : Label} {s s' : CompileData} {u : Unit} {l : List Inst} :
    splitTries node from_ to_ s = .ok (u, l, s') ↔
      ∃ tryList, splitTryList node from_ to_ s.tryList = some tryList ∧ l = []
        ∧ s' = { s with tryList } := by
  unfold splitTries
  cases h : splitTryList node from_ to_ s.tryList with
  | none => simp
  | some tryList =>
    simp only [Except.ok.injEq, Prod.mk.injEq, true_and, Option.some.injEq, exists_eq_left']
    constructor <;> rintro ⟨rfl, rfl⟩ <;> exact ⟨rfl, rfl⟩

/-- What a nested body returns and changes. -/
theorem compileInner_eq_ok {env : YogEnv} {v : Visitor} {vars : Except CompileError Scope} {ctx : Ctx}
    {className funcName : ID} {params : List Param} {stmts : List Stmt}
    {info : Except CompileError (Option ArgInfo)} {s s' : CompileData} {code : Code}
    {l : List Inst}
    (h : compileInner env v vars ctx className funcName params stmts info s = .ok (code, l, s')) :
    ∃ scope body depths i, vars = .ok scope
      ∧ compileStmts env v (ctx.inner scope className) funcName params stmts s.outerDepths
        = .ok (body, depths)
      ∧ info = .ok i ∧ code = i.elim body body.withArgInfo ∧ l = []
      ∧ s' = { s with outerDepths := depths } := by
  obtain ⟨scope, hs, h⟩ := Except.bind_eq_ok_iff.1 h
  obtain ⟨⟨body, depths⟩, hb, h⟩ := Except.bind_eq_ok_iff.1 h
  obtain ⟨i, hi, h⟩ := Except.bind_eq_ok_iff.1 h
  simp only [pure, Except.pure, Except.ok.injEq, Prod.mk.injEq] at h
  obtain ⟨rfl, rfl, rfl⟩ := h
  exact ⟨scope, body, depths, i, hs, hb, hi, by cases i <;> rfl, rfl, rfl⟩

/-- What a body is compiled to. -/
theorem compileStmts_eq_ok {env : YogEnv} {v : Visitor} {ctx : Ctx} {funcName : ID}
    {params : List Param} {stmts : List Stmt} {depths depths' : List Int} {code : Code}
    (h : compileStmts env v ctx funcName params stmts depths = .ok (code, depths')) :
    ∃ insts s, compileBody env v ctx params stmts (.new depths) = .ok ((), insts, s)
      ∧ makeCode ctx funcName insts s = .ok (code, depths') := by
  obtain ⟨⟨⟨⟩, insts, s⟩, hb, h⟩ := Except.bind_eq_ok_iff.1 h
  exact ⟨insts, s, hb, h⟩

/-- A body equals no constant of the table, so it is entered. -/
theorem registerCode_eq_ok {env : YogEnv} {code : Code} {s s' : CompileData} {index : Nat}
    {l : List Inst} (h : registerConst env (.code code) s = .ok (index, l, s')) :
    l = [] ∧ index = s.consts.length ∧ index < 2 ^ 62 ∧
      s' = { s with consts := s.consts ++ [.code code] } := by
  have hnone : s.consts.findIdx? (Const.equals env (.code code)) = none := by
    rw [List.findIdx?_eq_none_iff]
    intro c _
    cases c <;> rfl
  unfold registerConst at h
  rw [hnone] at h
  simp only at h
  split at h
  · rename_i hlt
    simp only [Except.ok.injEq, Prod.mk.injEq] at h
    obtain ⟨rfl, rfl, rfl⟩ := h
    exact ⟨rfl, rfl, hlt, rfl⟩
  · cases h

/-- The tables of the body and of those around it. -/
def Ctx.scopes (ctx : Ctx) : List Scope := ctx.vars :: ctx.outer

def Inst.level? : Inst → Option Nat
  | .op _ o => o.level?
  | _ => none

/-- The index of an access to a variable of the body itself. -/
def Op.local? {δ : Type} : Op δ → Option Nat
  | .storeLocalIndex index | .loadLocalIndex index | .jumpIfDefined index _ => some index
  | _ => none

def Inst.local? : Inst → Option Nat
  | .op _ o => o.local?
  | _ => none

/-- A variable of the body is at this level. -/
def AtLevel (scopes : List Scope) (level : Nat) : Prop :=
  ∃ scope ∈ scopes.head?, ∃ name word, (name, VarType.nonlocal level word) ∈ scope.vars

/-- A variable of the body has this index. -/
def AtIndex (scopes : List Scope) (index : Nat) : Prop :=
  ∃ scope ∈ scopes.head?, ∃ name, (name, VarType.local_ index) ∈ scope.vars

/-- The variable that is accessed, if one is, is in the tables. -/
structure Accesses (scopes : List Scope) {δ : Type} (o : Op δ) : Prop where
  level : ∀ level ∈ o.level?, AtLevel scopes level
  index : ∀ index ∈ o.local?, AtIndex scopes index

/-- No variable with a level or an index is accessed. -/
def Inst.isPlain (i : Inst) : Bool := i.level?.isNone && i.local?.isNone

/-- The table is one `decide_var_type` has decided, in these around it. -/
def Decided (env : YogEnv) (outer : List Scope) (scope : Scope) : Prop :=
  ∃ tbl, scope = decideVarType env tbl outer

theorem decided_scopeOfFunc {env : YogEnv} {ctx : Ctx} {context : Context} {params : List Param}
    {stmts : List Stmt} {scope : Scope}
    (h : scopeOfFunc env ctx context params stmts = .ok scope) : Decided env ctx.scopes scope := by
  obtain ⟨tbl, -, h⟩ := Except.bind_eq_ok_iff.1 h
  cases h
  exact ⟨tbl, rfl⟩

theorem decided_scopeOfBlock {env : YogEnv} {ctx : Ctx} {params : List Param} {stmts : List Stmt}
    {scope : Scope} (h : scopeOfBlock env ctx params stmts = .ok scope) :
    Decided env ctx.scopes scope := by
  obtain ⟨tbl, -, h⟩ := Except.bind_eq_ok_iff.1 h
  cases h
  exact ⟨tbl, rfl⟩

/-- `R` holds of the visits `v` makes. -/
structure Visitor.Emits (R : List Scope → CompileData → List Inst → CompileData → Prop)
    (v : Visitor) : Prop where
  node : ∀ ctx e, Emission.Emits (R ctx.scopes) (v.node ctx e)
  stmts : ∀ ctx ss, Emission.Emits (R ctx.scopes) (v.stmts ctx ss)

/-- `R` holds of the steps of the compiler and composes; entering the code made after a visit of which
`R` holds is a step. -/
structure Uniform (env : YogEnv)
    (R : List Scope → CompileData → List Inst → CompileData → Prop) : Prop where
  composes : ∀ scopes, Composes (R scopes)
  emit : ∀ {scopes} i, (∀ level ∈ i.level?, AtLevel scopes level) →
    (∀ index ∈ i.local?, AtIndex scopes index) →
    Emits (R scopes) (Emission.emit i : Compile Unit)
  newLabel : ∀ {scopes}, Emits (R scopes) newLabel
  registerVal : ∀ {scopes} val, Emits (R scopes) (registerConst env (.val val))
  pushTry : ∀ {scopes} node e, Emits (R scopes) (pushTry node e)
  popTry : ∀ {scopes}, Emits (R scopes) popTry
  splitTries : ∀ {scopes} node from_ to_, Emits (R scopes) (splitTries node from_ to_)
  inner : ∀ (ctx : Ctx) funcName insts data code depths scopes (s : CompileData)
    (info : Option ArgInfo), ctx.outer = scopes → Decided env scopes ctx.vars →
    R ctx.scopes (.new s.outerDepths) insts data →
    makeCode ctx funcName insts data = .ok (code, depths) →
    R scopes s [] { s with
      outerDepths := depths, consts := s.consts ++ [.code (info.elim code code.withArgInfo)] }

namespace Uniform

variable {env : YogEnv} {R : List Scope → CompileData → List Inst → CompileData → Prop}
  {scopes : List Scope} {v : Visitor} {α β : Type}

section Steps

variable (h : Uniform env R)
include h

theorem emits_pure (a : α) : Emits (R scopes) (pure a : Compile α) := Emits.pure (h.composes _) a

theorem emits_bind {x : Compile α} {f : α → Compile β} (hx : Emits (R scopes) x)
    (hf : ∀ a, Emits (R scopes) (f a)) : Emits (R scopes) (x >>= f) :=
  Emits.bind (h.composes _) hx hf

theorem emits_each {f : α → Compile Unit} (as : List α) (hf : ∀ a, Emits (R scopes) (f a)) :
    Emits (R scopes) (each f as) :=
  Emits.each (h.composes _) as fun a _ => hf a

theorem plain (i : Inst) (hi : i.isPlain = true) :
    Emits (R scopes) (Emission.emit i : Compile Unit) := by
  rw [Inst.isPlain, Bool.and_eq_true, Option.isNone_iff_eq_none, Option.isNone_iff_eq_none] at hi
  refine h.emit i ?_ ?_
  · rw [hi.1]
    rintro level ⟨⟩
  · rw [hi.2]
    rintro index ⟨⟩

theorem emits_addPushVal (val : Val) (lineno : Lineno) :
    Emits (R scopes) (addPushConst env (.val val) lineno) :=
  h.emits_bind (h.registerVal val) fun _ => h.plain _ (by rfl)

theorem emits_addOpOf (lineno : Lineno) :
    ∀ op, (∀ o, op = .ok o → Accesses scopes o) → Emits (R scopes) (addOpOf lineno op)
  | .ok o, ho => h.emit _ (ho o rfl).level (ho o rfl).index
  | .error _, _ => Emits.fail _

omit h in
/-- The instruction that stores or loads a variable of the table reaches it. -/
theorem accesses_varOp {ctx : Ctx} {name : ID} {type : VarType} {o : Op Label}
    (ht : ctx.vars.vars.lookup name = some type)
    (ho : storeOp ctx name type = .ok o ∨ loadOp ctx name type = .ok o) :
    Accesses ctx.scopes o := by
  rcases ho with ho | ho
  all_goals
    first
      | unfold storeOp at ho
      | unfold loadOp at ho
    split at ho
    · cases ho
      exact ⟨by simp [Op.level?], by simp [Op.local?]⟩
    · cases ho
      refine ⟨by simp [Op.level?], fun index hindex => ?_⟩
      cases hindex
      exact ⟨ctx.vars, rfl, name, List.mem_of_lookup ht⟩
    · split at ho
      · rename_i l word _ scope _
        refine ⟨fun level hlevel => ⟨ctx.vars, rfl, name, word, ?_⟩, fun index hindex => ?_⟩
        · split at ho <;> cases ho <;> cases hlevel <;> exact List.mem_of_lookup ht
        · split at ho <;> cases ho <;> cases hindex
      · cases ho

theorem emits_appendStore (ctx : Ctx) (lineno : Lineno) (name : ID) :
    Emits (R ctx.scopes) (appendStore env ctx lineno name) := by
  unfold appendStore
  split
  · split
    · rename_i ht
      exact h.emits_addOpOf _ _ fun o ho => accesses_varOp ht (.inl ho)
    · exact Emits.fail _
  · exact h.plain _ (by rfl)

theorem emits_compileVisitVariable (ctx : Ctx) (lineno : Lineno) (id : ID) :
    Emits (R ctx.scopes) (compileVisitVariable ctx lineno id) := by
  unfold compileVisitVariable
  split
  · split
    · rename_i ht
      exact h.emits_addOpOf _ _ fun o ho => accesses_varOp ht (.inr ho)
    · exact Emits.fail _
  · exact h.plain _ (by rfl)

end Steps

section Visits

variable (h : Uniform env R) (hv : v.Emits R) (ctx : Ctx)
include h hv

theorem emits_compileDefault : ∀ p, Emits (R ctx.scopes) (compileDefault env v ctx p)
  | .mk _ _ _ none => h.emits_pure _
  | .mk _ lineno name (some expr) => by
    simp only [compileDefault]
    split
    · rename_i index ht
      have hdefined (label : Label) :
          Emits (R ctx.scopes) (addOp lineno (.jumpIfDefined index label)) := by
        refine h.emit _ (by rintro level ⟨⟩) fun index' hindex => ?_
        cases hindex
        exact ⟨ctx.vars, rfl, name, List.mem_of_lookup ht⟩
      exact h.emits_bind h.newLabel fun _ => h.emits_bind (hdefined _) fun _ =>
        h.emits_bind (hv.node _ _) fun _ => h.emits_bind (h.emits_appendStore _ _ _) fun _ =>
          h.plain _ (by rfl)
    · exact Emits.fail _

theorem emits_compileBody (params : List Param) (stmts : List Stmt) :
    Emits (R ctx.scopes) (compileBody env v ctx params stmts) :=
  h.emits_bind h.newLabel fun _ => h.emits_bind (h.plain _ (by rfl)) fun _ =>
    h.emits_bind (h.emits_each _ (h.emits_compileDefault hv ctx)) fun _ => hv.stmts _ _

theorem emits_compileAssign (e : Expr) : Emits (R ctx.scopes) (compileAssign env v ctx e) := by
  unfold compileAssign
  split
  · exact h.emits_appendStore _ _ _
  · exact h.emits_bind (hv.node _ _) fun _ => h.emits_bind (hv.node _ _) fun _ =>
      h.emits_bind (h.plain _ (by rfl)) fun _ => h.plain _ (by rfl)
  · exact h.emits_bind (hv.node _ _) fun _ => h.plain _ (by rfl)
  · split <;> exact Emits.fail _

theorem emits_compileMultiAssign (left : List Expr) (middle : Option Expr) (right : List Expr) :
    Emits (R ctx.scopes) (compileMultiAssign env v ctx left middle right) :=
  h.emits_bind (h.emits_each _ (h.emits_compileAssign hv ctx)) fun _ =>
    h.emits_bind (h.emits_each _ (h.emits_compileAssign hv ctx)) fun _ =>
      h.emits_each _ (h.emits_compileAssign hv ctx)

/-- Compiling a body, entering it and what follows. -/
theorem emits_inner_bind {vars : Except CompileError Scope} {className funcName : ID}
    {params : List Param} {stmts : List Stmt} {info : Except CompileError (Option ArgInfo)}
    {lineno : Lineno} {f : Unit → Compile Unit}
    (hvars : ∀ scope, vars = .ok scope → Decided env ctx.scopes scope)
    (hf : ∀ u, Emits (R ctx.scopes) (f u)) :
    Emits (R ctx.scopes)
      (compileInner env v vars ctx className funcName params stmts info >>= fun code =>
        addPushConst env (.code code) lineno >>= f) := by
  intro s b l s' hs
  obtain ⟨code, l₁, s₁, l₂, h₁, h₂, rfl⟩ := Emission.bind_eq_ok.1 hs
  obtain ⟨scope, body, depths, i, hscope, hb, -, rfl, rfl, rfl⟩ := compileInner_eq_ok h₁
  obtain ⟨insts, data, hb, hm⟩ := compileStmts_eq_ok hb
  have hbody := h.emits_compileBody hv (ctx.inner scope className) params stmts _ _ _ _ hb
  obtain ⟨_, l₃, s₃, l₄, h₃, h₄, rfl⟩ := Emission.bind_eq_ok.1 h₂
  obtain ⟨index, l₅, s₅, l₆, h₅, h₆, rfl⟩ := Emission.bind_eq_ok.1 h₃
  obtain ⟨rfl, -, -, rfl⟩ := registerCode_eq_ok h₅
  have hc := h.composes ctx.scopes
  exact hc.append (h.inner _ _ _ _ _ _ _ s i rfl (hvars _ hscope) hbody hm)
    (hc.append (hc.append (hc.nil _) (h.plain _ (by rfl) _ _ _ _ h₆)) (hf _ _ _ _ _ h₄))

theorem emits_compileVisitBlock : ∀ b, Emits (R ctx.scopes) (compileVisitBlock env v ctx b)
  | .mk _ _ _ => h.emits_inner_bind hv ctx (fun _ => decided_scopeOfBlock) fun _ =>
    h.plain _ (by rfl)

theorem emits_compileCallFunc (lineno : Lineno) (callee : Expr) (args : Args)
    (blockarg : Option BlockArg) (left middle right : Nat) :
    Emits (R ctx.scopes) (compileCallFunc env v ctx lineno callee args blockarg left middle right) := by
  obtain ⟨posargs, kwargs, vararg, varkwarg, andBlock⟩ := args
  refine h.emits_bind (h.emits_each _ (h.emits_compileVisitBlock hv ctx)) fun _ => ?_
  split
  · exact Emits.fail _
  · have hn := hv.node ctx
    exact h.emits_bind (h.emits_each _ hn) fun _ => h.emits_bind (h.emits_each _ hn) fun _ =>
      h.emits_bind (h.emits_each _ hn) fun _ =>
      h.emits_bind (h.emits_each _ fun _ =>
        h.emits_bind (hn _) fun _ => h.emits_addPushVal _ _) fun _ =>
      h.emits_bind (h.emits_each _ hn) fun _ => h.emits_bind (hn _) fun _ =>
      h.emits_bind h.newLabel fun _ => h.emits_bind h.newLabel fun _ =>
      h.emits_bind (h.plain _ (by rfl)) fun _ => h.emits_bind (h.plain _ (by rfl)) fun _ => h.plain _ (by rfl)

theorem emits_compileDecoratorsCall (decorators : List Expr) :
    Emits (R ctx.scopes) (compileDecoratorsCall v ctx decorators) :=
  h.emits_each _ fun _ => h.emits_bind (hv.node _ _) fun _ => h.plain _ (by rfl)

theorem emits_compileVisitAssign (lineno : Lineno) (left right : Expr) :
    Emits (R ctx.scopes) (compileVisitAssign env v ctx lineno left right) := by
  refine h.emits_bind (hv.node _ _) fun _ => h.emits_bind ?_ fun _ => h.emits_compileAssign hv ctx _
  unfold addDupFor
  split
  · exact h.plain _ (by rfl)
  · exact h.plain _ (by rfl)
  · exact h.emits_pure _

omit hv in
theorem emits_compileVisitLiteral (lineno : Lineno) (val : Val) :
    Emits (R scopes) (compileVisitLiteral env lineno val) := by
  unfold compileVisitLiteral
  split
  · exact h.emits_bind (h.registerVal _) fun _ => h.plain _ (by rfl)
  · exact h.emits_addPushVal _ _

theorem emits_compileVisitExpr : ∀ e, Emits (R ctx.scopes) (compileVisitExpr env v ctx e)
  | .funcCall .. => h.emits_compileCallFunc hv ctx _ _ _ _ _ _ _
  | .variable .. => h.emits_compileVisitVariable _ _ _
  | .assign .. => h.emits_compileVisitAssign hv ctx _ _ _
  | .literal .. => h.emits_compileVisitLiteral _ _
  | .super _ => h.plain _ (by rfl)
  | .array .. | .set .. => h.emits_bind (h.emits_each _ (hv.node ctx)) fun _ => h.plain _ (by rfl)
  | .dict .. =>
    h.emits_bind (h.emits_each _ fun _ => h.emits_bind (hv.node ctx _) fun _ => hv.node ctx _)
      fun _ => h.plain _ (by rfl)
  | .attr .. | .not .. => h.emits_bind (hv.node ctx _) fun _ => h.plain _ (by rfl)
  | .binop .. | .subscript .. =>
    h.emits_bind (hv.node ctx _) fun _ => h.emits_bind (hv.node ctx _) fun _ => h.plain _ (by rfl)
  | .conditional .. =>
    h.emits_bind h.newLabel fun _ => h.emits_bind h.newLabel fun _ =>
    h.emits_bind (hv.node ctx _) fun _ => h.emits_bind (h.plain _ (by rfl)) fun _ =>
    h.emits_bind (hv.node ctx _) fun _ => h.emits_bind (h.plain _ (by rfl)) fun _ =>
    h.emits_bind (h.plain _ (by rfl)) fun _ => h.emits_bind (hv.node ctx _) fun _ => h.plain _ (by rfl)
  | .logicalAnd .. | .logicalOr .. =>
    h.emits_bind (hv.node ctx _) fun _ => h.emits_bind h.newLabel fun _ =>
    h.emits_bind (h.plain _ (by rfl)) fun _ => h.emits_bind (h.plain _ (by rfl)) fun _ =>
    h.emits_bind (h.plain _ (by rfl)) fun _ => h.emits_bind (hv.node ctx _) fun _ => h.plain _ (by rfl)

theorem emits_compileVisitMultiAssign (left : List Expr) (middle : Option Expr) (right : List Expr)
    (rhs : Expr) (rhsRest : List Expr) :
    Emits (R ctx.scopes) (compileVisitMultiAssign env v ctx left middle right rhs rhsRest) := by
  refine h.emits_bind ?_ fun _ => h.emits_compileMultiAssign hv ctx left middle right
  unfold compileMultiAssignRhs
  split
  · exact h.emits_compileCallFunc hv ctx _ _ _ _ _ _ _
  · unfold compileMultiAssignExprs
    split
    · exact Emits.fail _
    · exact h.emits_bind (h.emits_each _ (hv.node ctx)) fun _ =>
        h.emits_bind (h.emits_each _ fun _ => h.plain _ (by rfl)) fun _ => h.emits_each _ (hv.node ctx)

omit hv in
theorem emits_addRaiseLastException (lineno : Lineno) : Emits (R scopes) (addRaiseLastException env lineno) :=
  h.emits_bind (h.plain _ (by rfl)) fun _ => h.emits_bind (h.plain _ (by rfl)) fun _ => h.plain _ (by rfl)

theorem emits_compileVisitFinally (lineno : Lineno) (head body : List Stmt) :
    Emits (R ctx.scopes) (compileVisitFinally env v ctx lineno head body) :=
  h.emits_bind h.newLabel fun _ => h.emits_bind h.newLabel fun _ =>
  h.emits_bind h.newLabel fun _ => h.emits_bind h.newLabel fun _ =>
  h.emits_bind (h.pushTry _ _) fun _ => h.emits_bind (h.plain _ (by rfl)) fun _ =>
  h.emits_bind (h.plain _ (by rfl)) fun _ => h.emits_bind (hv.stmts _ _) fun _ =>
  h.emits_bind (h.plain _ (by rfl)) fun _ => h.emits_bind (h.plain _ (by rfl)) fun _ =>
  h.emits_bind (hv.stmts _ _) fun _ => h.emits_bind (h.plain _ (by rfl)) fun _ =>
  h.emits_bind (h.plain _ (by rfl)) fun _ => h.emits_bind (hv.stmts _ _) fun _ =>
  h.emits_bind (h.emits_addRaiseLastException _) fun _ => h.emits_bind (h.plain _ (by rfl)) fun _ => h.popTry

theorem emits_compileExcept (labelElseEnd : Label) :
    ∀ b, Emits (R ctx.scopes) (compileExcept env v ctx labelElseEnd b)
  | .mk _ _ _ _ =>
    h.emits_bind h.newLabel fun _ => h.emits_bind h.newLabel fun _ =>
    h.emits_bind (h.emits_each _ fun _ => h.emits_bind (h.plain _ (by rfl)) fun _ =>
      h.emits_bind (hv.node _ _) fun _ => h.emits_bind (h.plain _ (by rfl)) fun _ => h.plain _ (by rfl)) fun _ =>
    h.emits_bind (h.emits_each _ fun _ => h.plain _ (by rfl)) fun _ => h.emits_bind (h.plain _ (by rfl)) fun _ =>
    h.emits_bind (h.emits_each _ fun _ => h.emits_bind (h.plain _ (by rfl)) fun _ =>
      h.emits_appendStore _ _ _) fun _ =>
    h.emits_bind (hv.stmts _ _) fun _ => h.emits_bind (h.plain _ (by rfl)) fun _ => h.plain _ (by rfl)

theorem emits_compileVisitExcept (lineno : Lineno) (head : List Stmt) (excepts : List ExceptBody)
    (else_ : List Stmt) : Emits (R ctx.scopes) (compileVisitExcept env v ctx lineno head excepts else_) :=
  h.emits_bind h.newLabel fun _ => h.emits_bind h.newLabel fun _ =>
  h.emits_bind h.newLabel fun _ => h.emits_bind h.newLabel fun _ =>
  h.emits_bind h.newLabel fun _ => h.emits_bind (h.pushTry _ _) fun _ =>
  h.emits_bind (h.plain _ (by rfl)) fun _ => h.emits_bind (h.plain _ (by rfl)) fun _ =>
  h.emits_bind (hv.stmts _ _) fun _ => h.emits_bind (h.plain _ (by rfl)) fun _ =>
  h.emits_bind (h.plain _ (by rfl)) fun _ => h.emits_bind (h.plain _ (by rfl)) fun _ =>
  h.emits_bind (h.plain _ (by rfl)) fun _ =>
  h.emits_bind (h.emits_each _ (h.emits_compileExcept hv ctx _)) fun _ =>
  h.emits_bind (h.emits_addRaiseLastException _) fun _ => h.emits_bind (h.plain _ (by rfl)) fun _ =>
  h.emits_bind (hv.stmts _ _) fun _ => h.emits_bind (h.plain _ (by rfl)) fun _ => h.popTry

theorem emits_compileVisitWhile (lineno : Lineno) (test : Expr) (stmts : List Stmt) :
    Emits (R ctx.scopes) (compileVisitWhile v ctx lineno test stmts) :=
  h.emits_bind h.newLabel fun _ => h.emits_bind h.newLabel fun _ =>
  h.emits_bind (h.plain _ (by rfl)) fun _ => h.emits_bind (hv.node _ _) fun _ =>
  h.emits_bind (h.plain _ (by rfl)) fun _ => h.emits_bind (hv.stmts _ _) fun _ =>
  h.emits_bind (h.plain _ (by rfl)) fun _ => h.plain _ (by rfl)

theorem emits_compileVisitIf (test : Expr) (stmts tail : List Stmt) :
    Emits (R ctx.scopes) (compileVisitIf v ctx test stmts tail) :=
  h.emits_bind h.newLabel fun _ => h.emits_bind h.newLabel fun _ =>
  h.emits_bind (hv.node _ _) fun _ => h.emits_bind (h.plain _ (by rfl)) fun _ =>
  h.emits_bind (hv.stmts _ _) fun _ => h.emits_bind (h.plain _ (by rfl)) fun _ =>
  h.emits_bind (h.plain _ (by rfl)) fun _ => h.emits_bind (hv.stmts _ _) fun _ => h.plain _ (by rfl)

theorem emits_compileWhileJump (lineno : Lineno) (jumpTo : Label) :
    Emits (R ctx.scopes) (compileWhileJump v ctx lineno jumpTo) :=
  h.emits_bind (h.emits_each _ fun _ =>
    h.emits_bind h.newLabel fun _ => h.emits_bind h.newLabel fun _ =>
    h.emits_bind (h.plain _ (by rfl)) fun _ => h.emits_bind (h.plain _ (by rfl)) fun _ =>
    h.emits_bind (hv.stmts _ _) fun _ => h.emits_bind (h.plain _ (by rfl)) fun _ =>
    h.emits_bind (h.plain _ (by rfl)) fun _ => h.splitTries _ _ _) fun _ => h.plain _ (by rfl)

theorem emits_visitArrayElementsOppositeOrder (elems : List Expr) :
    Emits (R ctx.scopes) (visitArrayElementsOppositeOrder v ctx elems) := by
  unfold visitArrayElementsOppositeOrder
  split
  · exact h.emits_each _ (hv.node ctx)
  · exact Emits.fail _

theorem emits_compileVisitBreak (lineno : Lineno) (exprs : List Expr) :
    Emits (R ctx.scopes) (compileVisitBreak v ctx lineno exprs) := by
  unfold compileVisitBreak
  split
  · exact h.emits_compileWhileJump hv ctx _ _
  · exact h.emits_bind (h.emits_visitArrayElementsOppositeOrder hv ctx _) fun _ => h.plain _ (by rfl)

theorem emits_compileVisitNext (lineno : Lineno) (exprs : List Expr) :
    Emits (R ctx.scopes) (compileVisitNext env v ctx lineno exprs) := by
  unfold compileVisitNext
  split
  · exact h.emits_compileWhileJump hv ctx _ _
  · split
    · exact h.emits_bind (h.emits_addPushVal _ _) fun _ => h.plain _ (by rfl)
    · exact h.emits_bind (h.emits_visitArrayElementsOppositeOrder hv ctx _) fun _ => h.plain _ (by rfl)

theorem emits_compileVisitClass (lineno : Lineno) (decorators : List Expr) (name : ID)
    (super : Option Expr) (stmts : List Stmt) :
    Emits (R ctx.scopes) (compileVisitClass env v ctx lineno decorators name super stmts) := by
  have hs : Emits (R ctx.scopes) (compileSuper env v ctx lineno super) := by
    cases super with
    | some super => exact hv.node _ _
    | none => exact h.emits_addPushVal _ _
  exact h.emits_bind (h.emits_addPushVal _ _) fun _ => h.emits_bind hs fun _ =>
    h.emits_inner_bind hv ctx (fun _ => decided_scopeOfFunc) fun _ =>
    h.emits_bind (h.plain _ (by rfl)) fun _ => h.emits_bind (h.plain _ (by rfl)) fun _ =>
    h.emits_bind (h.emits_compileDecoratorsCall hv ctx _) fun _ => h.emits_appendStore _ _ _

omit hv in
theorem emits_compileImport (lineno : Lineno) (name : ID) (rest : List ID) :
    Emits (R scopes) (compileImport env lineno name rest) :=
  h.emits_bind (h.emits_addPushVal _ _) fun _ => h.emits_bind (h.plain _ (by rfl)) fun _ => h.plain _ (by rfl)

omit hv in
theorem emits_compileStorePkgAttr (lineno : Lineno) (attr : ImportedAttr) :
    Emits (R ctx.scopes) (compileStorePkgAttr env ctx lineno attr) :=
  h.emits_bind (h.plain _ (by rfl)) fun _ => h.emits_appendStore _ _ _

omit hv in
theorem emits_compileVisitFrom (lineno : Lineno) (pkg : ID) (pkgRest : List ID) (attr : ImportedAttr)
    (attrs : List ImportedAttr) :
    Emits (R ctx.scopes) (compileVisitFrom env ctx lineno pkg pkgRest attr attrs) :=
  h.emits_bind (h.emits_compileImport _ _ _) fun _ =>
  h.emits_bind (h.emits_each _ fun _ => h.plain _ (by rfl)) fun _ =>
  h.emits_bind (h.emits_each _ fun _ => h.emits_bind (h.plain _ (by rfl)) fun _ =>
    h.emits_compileStorePkgAttr _ _ _) fun _ => h.emits_compileStorePkgAttr _ _ _

omit hv in
theorem emits_compileVisitImport (lineno : Lineno) (name : ID) (nameRest : List ID) :
    ∀ as, Emits (R ctx.scopes) (compileVisitImport env ctx lineno name nameRest as)
  | none => h.emits_bind (h.emits_compileImport _ _ _) fun _ => h.emits_appendStore _ _ _
  | some _ => h.emits_bind (h.emits_compileImport _ _ _) fun _ =>
    h.emits_bind (h.emits_each _ fun _ => h.plain _ (by rfl)) fun _ => h.emits_appendStore _ _ _

theorem emits_compileVisitRaise (lineno : Lineno) (e : Option Expr) :
    Emits (R ctx.scopes) (compileVisitRaise env v ctx lineno e) := by
  cases e with
  | none => exact h.emits_addRaiseLastException _
  | some e =>
    exact h.emits_bind (hv.node _ _) fun _ => h.emits_bind (h.plain _ (by rfl)) fun _ =>
      h.plain _ (by rfl)

theorem emits_compileVisitStmt (stmt : Stmt) : Emits (R ctx.scopes) (compileVisitStmt env v ctx stmt) := by
  unfold compileVisitStmt
  split
  · exact h.emits_compileCallFunc hv ctx _ _ _ _ _ _ _
  · exact hv.node _ _
  · exact h.emits_compileVisitBreak hv ctx _ _
  · exact h.emits_compileVisitClass hv ctx _ _ _ _ _
  · exact h.emits_compileVisitExcept hv ctx _ _ _ _
  · exact h.emits_compileVisitFinally hv ctx _ _ _
  · exact h.emits_compileVisitFrom ctx _ _ _ _ _
  · exact h.emits_inner_bind hv ctx (fun _ => decided_scopeOfFunc) fun _ =>
      h.emits_bind (h.plain _ (by rfl)) fun _ =>
      h.emits_bind (h.emits_compileDecoratorsCall hv ctx _) fun _ => h.emits_appendStore _ _ _
  · exact h.emits_compileVisitIf hv ctx _ _ _
  · exact h.emits_compileVisitImport ctx _ _ _ _
  · exact h.emits_inner_bind hv ctx (fun _ => decided_scopeOfFunc) fun _ =>
      h.emits_bind (h.plain _ (by rfl)) fun _ =>
      h.emits_bind (h.plain _ (by rfl)) fun _ => h.emits_appendStore _ _ _
  · exact h.emits_compileVisitMultiAssign hv ctx _ _ _ _ _
  · exact h.emits_compileVisitNext hv ctx _ _
  · exact h.emits_pure _
  · exact h.emits_compileVisitRaise hv ctx _ _
  · exact h.emits_bind (h.emits_visitArrayElementsOppositeOrder hv ctx _) fun _ =>
      h.plain _ (by split <;> rfl)
  · exact h.emits_compileVisitWhile hv ctx _ _ _

omit hv in
theorem emits_processStackTop (stmt : Stmt) : Emits (R ctx.scopes) (processStackTop ctx stmt) := by
  unfold processStackTop
  split
  · exact h.plain _ (by split <;> rfl)
  · split
    · split
      · exact h.plain _ (by rfl)
      · exact h.emits_pure _
    · exact h.emits_pure _

theorem emits_compileVisitStmts (stmts : List Stmt) :
    Emits (R ctx.scopes) (compileVisitStmts env v ctx stmts) :=
  h.emits_each _ fun _ => h.emits_bind (h.plain _ (by rfl)) fun _ =>
    h.emits_bind (h.emits_compileVisitStmt hv ctx _) fun _ =>
    h.emits_bind (h.emits_processStackTop ctx _) fun _ => h.plain _ (by rfl)

end Visits

/-- `R` holds of every visit. -/
theorem visitor (h : Uniform env R) : ∀ fuel, (Yog.visitor env fuel).Emits R
  | 0 => ⟨fun _ _ => Emits.fail _, fun _ _ => Emits.fail _⟩
  | fuel + 1 =>
    ⟨h.emits_compileVisitExpr (h.visitor fuel), h.emits_compileVisitStmts (h.visitor fuel)⟩

end Uniform

end Yog
