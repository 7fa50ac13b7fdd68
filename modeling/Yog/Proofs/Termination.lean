import Yog.Proofs.Scanning
import Yog.Proofs.Uniform

/-!
# Which programs the compiler comes to an end on

A jump out of a loop visits the `finally` bodies of its list, with the list as it is. A body in the
list that jumps out of a loop itself, one of its own or one around it, is visited again from its own
jump, and again from that one. `clear…` says that this does not happen: where a jump can be, every
`finally` body of the list can be visited without one.

The visit of a tree that is clear never runs out of fuel when it has as much as the size of the tree
and of the largest body a jump copies; of a tree that is not clear no amount makes it return
(`package_ends_iff`).
-/

namespace Yog

open Emission (Avoids each)

mutual

def clearExpr : Expr → Bool
  | .array _ elems | .set _ elems => clearExprs elems
  | .assign _ left right => clearExpr right && clearExpr left
  | .attr _ obj _ => clearExpr obj
  | .binop _ _ left right | .logicalAnd _ left right | .logicalOr _ left right =>
    clearExpr left && clearExpr right
  | .conditional _ test trueExpr falseExpr =>
    clearExpr test && clearExpr trueExpr && clearExpr falseExpr
  | .dict _ elems => clearDictElems elems
  | .funcCall _ callee args blockarg =>
    clearBlock? blockarg && clearArgs args && clearExpr callee
  | .literal _ _ | .super _ | .variable _ _ => true
  | .not _ expr => clearExpr expr
  | .subscript _ prefix_ index => clearExpr prefix_ && clearExpr index

def clearExprs : List Expr → Bool
  | [] => true
  | e :: es => clearExpr e && clearExprs es

def clearExpr? : Option Expr → Bool
  | none => true
  | some e => clearExpr e

def clearDictElems : List DictElem → Bool
  | [] => true
  | .mk key value :: es => clearExpr key && clearExpr value && clearDictElems es

def clearKwArgs : List KwArg → Bool
  | [] => true
  | .mk _ _ value :: as => clearExpr value && clearKwArgs as

def clearArgs : Args → Bool
  | .mk posargs kwargs vararg varkwarg andBlock =>
    clearExpr? andBlock && clearExpr? varkwarg && clearExpr? vararg && clearKwArgs kwargs
      && clearExprs posargs

def clearBlock? : Option BlockArg → Bool
  | none => true
  | some (.mk _ params stmts) => clearParams params && clearStmts false true stmts

def clearParams : List Param → Bool
  | [] => true
  | .mk _ _ _ default_ :: ps => clearExpr? default_ && clearParams ps

def clearExcepts (inLoop jumpOk : Bool) : List ExceptBody → Bool
  | [] => true
  | .mk _ types _ stmts :: es =>
    clearExprs types && clearStmts inLoop jumpOk stmts && clearExcepts inLoop jumpOk es

/-- In a loop or not, and where the `finally` bodies around it can be copied to a jump or not. -/
def clearStmt (inLoop jumpOk : Bool) : Stmt → Bool
  | .expr e => clearExpr e
  | .break_ _ exprs | .next _ exprs => if inLoop then jumpOk else clearExprs exprs
  | .klass _ decorators _ super stmts =>
    clearExpr? super && clearStmts false true stmts && clearExprs decorators
  | .except _ head excepts else_ =>
    clearStmts inLoop jumpOk head && clearExcepts inLoop jumpOk excepts
      && clearStmts inLoop jumpOk else_
  | .finally_ _ head body =>
    clearStmts inLoop (jumpOk && clearStmts true false body) head
      && clearStmts inLoop (jumpOk && clearStmts true false body) body
  | .from_ .. | .import_ .. | .nonlocal .. => true
  | .funcDef _ decorators _ params stmts =>
    clearParams params && clearStmts false true stmts && clearExprs decorators
  | .if_ _ test stmts tail =>
    clearExpr test && clearStmts inLoop jumpOk stmts && clearStmts inLoop jumpOk tail
  | .module_ _ _ stmts => clearStmts false true stmts
  | .multiAssign _ left middle right rhs rhsRest =>
    clearExpr rhs && clearExprs rhsRest && clearExprs right && clearExpr? middle && clearExprs left
  | .raise _ expr => clearExpr? expr
  | .return_ _ exprs => clearExprs exprs
  | .while_ _ test stmts => clearExpr test && clearStmts true jumpOk stmts

def clearStmts (inLoop jumpOk : Bool) : List Stmt → Bool
  | [] => true
  | s :: ss => clearStmt inLoop jumpOk s && clearStmts inLoop jumpOk ss

end

theorem clearExprs_iff (es : List Expr) :
    clearExprs es = true ↔ ∀ e ∈ es, clearExpr e = true :=
  checks_iff (by simp [clearExprs]) (by simp [clearExprs]) es

theorem clearExpr?_iff (e : Option Expr) :
    clearExpr? e = true ↔ ∀ e' ∈ e.toList, clearExpr e' = true := by
  cases e <;> simp [clearExpr?]

theorem clearDictElems_iff (es : List DictElem) : clearDictElems es = true
    ↔ ∀ e ∈ es, clearExpr e.key = true ∧ clearExpr e.value = true := by
  simpa using checks_iff (p := fun e : DictElem => clearExpr e.key && clearExpr e.value)
    (by simp [clearDictElems]) (by rintro ⟨⟩ es; simp [clearDictElems, DictElem.key, DictElem.value])
    es

theorem clearKwArgs_iff (as : List KwArg) :
    clearKwArgs as = true ↔ ∀ a ∈ as, clearExpr a.value = true :=
  checks_iff (by simp [clearKwArgs]) (by rintro ⟨⟩ as; simp [clearKwArgs, KwArg.value]) as

theorem clearParams_iff (ps : List Param) :
    clearParams ps = true ↔ ∀ p ∈ ps, clearExpr? p.default_ = true :=
  checks_iff (by simp [clearParams]) (by rintro ⟨⟩ ps; simp [clearParams, Param.default_]) ps

theorem clearStmts_iff (inLoop jumpOk : Bool) (ss : List Stmt) :
    clearStmts inLoop jumpOk ss = true ↔ ∀ s ∈ ss, clearStmt inLoop jumpOk s = true :=
  checks_iff (by simp [clearStmts]) (by simp [clearStmts]) ss

/-- The condition on one `except` clause. -/
def clearExcept (inLoop jumpOk : Bool) : ExceptBody → Bool
  | .mk _ types _ stmts => clearExprs types && clearStmts inLoop jumpOk stmts

theorem clearExcepts_iff (inLoop jumpOk : Bool) (es : List ExceptBody) :
    clearExcepts inLoop jumpOk es = true ↔ ∀ e ∈ es, clearExcept inLoop jumpOk e = true :=
  checks_iff (by simp [clearExcepts]) (by rintro ⟨⟩ es; simp [clearExcepts, clearExcept]) es

/-! What can be visited in a loop without a jump has no jump, and can be visited anywhere. -/

mutual

theorem clearStmt_of_inLoop {b : Bool} : ∀ s, clearStmt true false s = true →
    clearStmt b false s = true
  | .break_ _ _, h | .next _ _, h => by simp [clearStmt] at h
  | .except _ head excepts else_, h => by
    simp only [clearStmt, Bool.and_eq_true] at h ⊢
    exact ⟨⟨clearStmts_of_inLoop head h.1.1, clearExcepts_of_inLoop excepts h.1.2⟩,
      clearStmts_of_inLoop else_ h.2⟩
  | .finally_ _ head body, h => by
    simp only [clearStmt, Bool.false_and, Bool.and_eq_true] at h ⊢
    exact ⟨clearStmts_of_inLoop head h.1, clearStmts_of_inLoop body h.2⟩
  | .if_ _ _ stmts tail, h => by
    simp only [clearStmt, Bool.and_eq_true] at h ⊢
    exact ⟨⟨h.1.1, clearStmts_of_inLoop stmts h.1.2⟩, clearStmts_of_inLoop tail h.2⟩
  | .expr _, h | .klass .., h | .from_ .., h | .funcDef .., h | .import_ .., h | .module_ .., h
  | .multiAssign .., h | .nonlocal .., h | .raise .., h | .return_ .., h | .while_ .., h => h

theorem clearStmts_of_inLoop {b : Bool} : ∀ ss, clearStmts true false ss = true →
    clearStmts b false ss = true
  | [], _ => rfl
  | s :: ss, h => by
    simp only [clearStmts, Bool.and_eq_true] at h ⊢
    exact ⟨clearStmt_of_inLoop s h.1, clearStmts_of_inLoop ss h.2⟩

theorem clearExcepts_of_inLoop {b : Bool} : ∀ es, clearExcepts true false es = true →
    clearExcepts b false es = true
  | [], _ => rfl
  | .mk _ _ _ stmts :: es, h => by
    simp only [clearExcepts, Bool.and_eq_true] at h ⊢
    exact ⟨⟨h.1.1, clearStmts_of_inLoop stmts h.1.2⟩, clearExcepts_of_inLoop es h.2⟩

end

/-- The scan of a tree does not fail for lack of fuel. -/
def Plain {α : Type} (x : Scan α) : Prop := ∀ tbl, x tbl ≠ .error .outOfFuel

namespace Plain

variable {α β : Type}

theorem pure (a : α) : Plain (pure a) := by
  intro tbl h
  cases h

theorem bind {x : Scan α} {f : α → Scan β} (hx : Plain x) (hf : ∀ a, Plain (f a)) :
    Plain (x >>= f) := by
  intro tbl h
  change (x tbl >>= fun p => f p.1 p.2) = _ at h
  rcases hr : x tbl with e | ⟨a, tbl'⟩
  · rw [hr] at h
    simp only [Bind.bind, Except.bind, Except.error.injEq] at h
    exact hx tbl (h ▸ hr)
  · rw [hr] at h
    exact hf a tbl' h

theorem modify (f : VarTable → VarTable) : Plain (modify f) := by
  intro tbl h
  cases h

theorem lift {x : Except CompileError α} (h : x ≠ .error .outOfFuel) :
    Plain (liftM x : Scan α) := by
  intro tbl ht
  change (x >>= fun a => Pure.pure (a, tbl)) = _ at ht
  cases x with
  | error e =>
    simp only [Bind.bind, Except.bind, Except.error.injEq] at ht
    exact h (ht ▸ rfl)
  | ok a => cases ht

theorem registerParams (filename : Option String) : ∀ ps, Plain (registerParams filename ps)
  | [] => pure ()
  | p :: ps => by
    simp only [Yog.registerParams]
    refine bind (fun tbl h => by cases h) fun tbl => ?_
    split
    · refine bind (fun tbl h => ?_) fun _ => bind (modify _) fun _ => registerParams filename ps
      cases filename <;> cases h
    · exact bind (modify _) fun _ => registerParams filename ps

theorem closed : ScanClosed Plain where
  pure := pure
  bind := bind
  register _ _ _ := modify _
  block params _ hx :=
    bind (lift (bind (registerParams none params) (fun _ => hx) _)) fun _ => modify _

end Plain

theorem Except.bind_ne_error {ε α β : Type} {x : Except ε α} {f : α → Except ε β} {e : ε}
    (hx : x ≠ .error e) (hf : ∀ a, x = .ok a → f a ≠ .error e) : (x >>= f) ≠ .error e := by
  cases x with
  | error e' =>
    intro h
    simp only [bind, Except.bind, Except.error.injEq] at h
    exact hx (h ▸ rfl)
  | ok a => exact hf a rfl

section Failures

variable {env : YogEnv}

theorem makeVarTable_ne {filename : Option String} {context : Context} {params : List Param}
    {stmts : List Stmt} : makeVarTable env filename context params stmts ≠ .error .outOfFuel := by
  unfold makeVarTable
  refine Except.bind_ne_error ?_ fun _ _ h => by cases h
  split
  · exact Plain.bind (.modify _) (fun _ => .bind (.registerParams _ _) fun _ =>
      .bind (Plain.closed.scanDefaults _) fun _ => Plain.closed.scanStmts _) _
  · exact Plain.bind (.registerParams _ _) (fun _ => .bind (Plain.closed.scanDefaults _) fun _ =>
      Plain.closed.scanStmts _) _

theorem makeVarTableOfFunc_ne {filename : Option String} {context : Context} {params : List Param}
    {stmts : List Stmt} :
    makeVarTableOfFunc env filename context params stmts ≠ .error .outOfFuel :=
  Except.bind_ne_error makeVarTable_ne fun _ _ h => by cases h

theorem countStackSizeFrom_ne : ∀ (insts : List Inst) (size max : Nat),
    countStackSizeFrom insts size max ≠ .error .outOfFuel
  | [], _, _, h => by cases h
  | .op _ op :: insts, size, max, h => by
    simp only [countStackSizeFrom] at h
    split at h
    · cases h
    · exact countStackSizeFrom_ne insts _ _ h
  | .label _ :: insts, size, max, h | .note _ :: insts, size, max, h =>
    countStackSizeFrom_ne insts size max h

theorem makeLinenoTableFrom_ne : ∀ (insts : List Inst) (pc : Nat) (row : Option LinenoTableEntry),
    makeLinenoTableFrom insts pc row ≠ .error .outOfFuel
  | [], _, _, h => by cases h
  | .op lineno op :: insts, pc, row, h => by
    simp only [makeLinenoTableFrom] at h
    split at h
    · exact Except.bind_ne_error (makeLinenoTableFrom_ne insts _ _) (fun _ _ h => by cases h) h
    · split at h
      · exact makeLinenoTableFrom_ne insts _ _ h
      · cases h
  | .label _ :: insts, pc, row, h | .note _ :: insts, pc, row, h =>
    makeLinenoTableFrom_ne insts pc row h

theorem makeCode_ne {ctx : Ctx} {funcName : ID} {insts : List Inst} {s : CompileData} :
    makeCode ctx funcName insts s ≠ .error .outOfFuel := by
  unfold makeCode
  refine Except.bind_ne_error ?_ fun _ _ => Except.bind_ne_error ?_ fun _ _ =>
    Except.bind_ne_error (countStackSizeFrom_ne _ _ _) fun _ _ =>
    Except.bind_ne_error ?_ fun _ _ h => by cases h
  · unfold insts2bin
    split <;> exact fun h => by cases h
  · unfold Scope.allocLocalVarsTable
    split <;> exact fun h => by cases h
  · unfold makeLinenoTable
    split
    · exact makeLinenoTableFrom_ne _ _ _
    · exact fun h => by cases h

theorem setupParams_ne {params : List Param} : setupParams params ≠ .error .outOfFuel := by
  unfold setupParams
  simp only
  split <;> exact fun h => by cases h

theorem map_setupParams_ne {params : List Param} :
    (setupParams params).map some ≠ .error .outOfFuel := by
  rcases hi : setupParams params with e | info
  · intro h
    simp only [Except.map, Except.error.injEq] at h
    exact setupParams_ne (h ▸ hi)
  · exact fun h => by cases h

end Failures

theorem bind_error {α β : Type} {x : Compile α} {f : α → Compile β} {s s' : CompileData} {a : α}
    {l : List Inst} {e : CompileError} (hx : x s = .ok (a, l, s')) (hf : f a s' = .error e) :
    (x >>= f) s = .error e :=
  Emission.bind_eq_error.2 (.inr ⟨a, l, s', hx, hf⟩)

/-- Under `A` and the condition `F` a computation does not run out of fuel, and under `B` it only
returns if `F`. -/
def Settles {α : Type} (A B F : Prop) (x : Compile α) : Prop :=
  (A → F → Avoids .outOfFuel x) ∧ (B → (∃ s r, x s = .ok r) → F)

namespace Settles

variable {A A' B B' F G : Prop} {α β : Type}

theorem congr {x : Compile α} (h : F ↔ G) (hx : Settles A B F x) : Settles A B G x :=
  propext h ▸ hx

theorem weaken {x : Compile α} (ha : A' → A) (hb : B' → B) (hx : Settles A B F x) :
    Settles A' B' F x :=
  ⟨fun h => hx.1 (ha h), fun h => hx.2 (hb h)⟩

theorem bind {x : Compile α} {f : α → Compile β} (hx : Settles A B F x)
    (hf : ∀ a, Settles A B G (f a)) : Settles A B (F ∧ G) (x >>= f) := by
  refine ⟨fun ha ⟨hf', hg⟩ => Avoids.bind (hx.1 ha hf') fun a => (hf a).1 ha hg, ?_⟩
  rintro hb ⟨s, ⟨b, l, s'⟩, h⟩
  obtain ⟨a, l₁, s₁, l₂, h₁, h₂, -⟩ := Emission.bind_eq_ok.1 h
  exact ⟨hx.2 hb ⟨_, _, h₁⟩, (hf a).2 hb ⟨_, _, h₂⟩⟩

/-- A computation that visits nothing. -/
theorem step {x : Compile α} (h : Avoids .outOfFuel x) : Settles A B True x :=
  ⟨fun _ _ => h, fun _ _ => trivial⟩

theorem pure (a : α) : Settles A B True (pure a : Compile α) := step (Avoids.pure a)

theorem fail {e : CompileError} (h : e ≠ .outOfFuel) :
    Settles A B F (Emission.fail e : Compile α) := by
  refine ⟨fun _ _ s hs => ?_, ?_⟩
  · simp only [Emission.fail, Except.error.injEq] at hs
    exact h hs
  · rintro - ⟨s, r, hs⟩
    cases hs

theorem failIf {c : Bool} {e : CompileError} {x : Compile α} (h : e ≠ .outOfFuel)
    (hx : Settles A B F x) : Settles A B F (if c then Emission.fail e else x) := by
  split
  · exact fail h
  · exact hx

theorem each {F : α → Prop} {f : α → Compile Unit} :
    ∀ as : List α, (∀ a ∈ as, Settles A B (F a) (f a)) →
      Settles A B (∀ a ∈ as, F a) (each f as)
  | [], _ => congr (by simp) (pure ())
  | a :: as, hf =>
    congr (by simp) (bind (hf a List.mem_cons_self) fun _ =>
      each as fun b hb => hf b (List.mem_cons_of_mem _ hb))

theorem modify {f : CompileData → CompileData} : Settles A B True (Emission.modify f) :=
  step fun _ h => by cases h

theorem emit {i : Inst} : Settles A B True (Emission.emit i : Compile Unit) :=
  step fun _ h => by cases h

theorem newLabel : Settles A B True newLabel :=
  step fun _ h => by cases h

theorem registerConst {env : YogEnv} {c : Const} : Settles A B True (registerConst env c) := by
  refine step fun s h => ?_
  unfold Yog.registerConst at h
  split at h
  · cases h
  · split at h <;> cases h

theorem addPushConst {env : YogEnv} {c : Const} {lineno : Lineno} :
    Settles A B True (addPushConst env c lineno) :=
  congr (by simp) (bind registerConst fun _ => emit)

theorem splitTries {node from_ to_ : Label} : Settles A B True (splitTries node from_ to_) := by
  refine step fun s h => ?_
  unfold Yog.splitTries at h
  split at h <;> cases h

theorem addOpOf {lineno : Lineno} {op : Except CompileError (Op Label)}
    (h : op ≠ .error .outOfFuel) : Settles A B True (addOpOf lineno op) := by
  cases op with
  | ok op => exact emit
  | error e => exact fail fun he => h (he ▸ rfl)

theorem appendStore {env : YogEnv} {ctx : Ctx} {lineno : Lineno} {name : ID} :
    Settles A B True (appendStore env ctx lineno name) := by
  unfold Yog.appendStore
  split
  · split
    · refine addOpOf fun h => ?_
      unfold storeOp at h
      split at h
      · cases h
      · cases h
      · split at h <;> cases h
    · exact fail fun h => by cases h
  · exact emit

theorem compileVisitVariable {ctx : Ctx} {lineno : Lineno} {name : ID} :
    Settles A B True (compileVisitVariable ctx lineno name) := by
  unfold Yog.compileVisitVariable
  split
  · split
    · refine addOpOf fun h => ?_
      unfold loadOp at h
      split at h
      · cases h
      · cases h
      · split at h <;> cases h
    · exact fail fun h => by cases h
  · exact emit

end Settles

/-- A jump in this context finds bodies that do without jumps, of no more than this size. -/
def Copies (ctx : Ctx) (j : Bool) (k : Nat) : Prop :=
  j = true →
    ∀ b ∈ ctx.finallyList, clearStmts true false b.body = true ∧ sizeOf b.body ≤ k

theorem copies_false {ctx : Ctx} {k : Nat} : Copies ctx false k := fun h => by cases h

/-- A jump in this context finds a body that does not. -/
def Blocked (ctx : Ctx) (j : Bool) : Prop :=
  j = false → ∃ b ∈ ctx.finallyList, clearStmts true false b.body = false

/-- The visits `v` makes settle, with `n` steps of fuel left. -/
structure SettlesVisits (n : Nat) (v : Visitor) : Prop where
  node : ∀ ctx e, Settles (sizeOf e ≤ n) True (clearExpr e = true) (v.node ctx e)
  stmts : ∀ ctx ss j k, Settles (Copies ctx j k ∧ sizeOf ss + k ≤ n)
    (Blocked ctx j) (clearStmts ctx.labelWhile.isSome j ss = true) (v.stmts ctx ss)

namespace SettlesVisits

variable {env : YogEnv} {v : Visitor} {n : Nat} {A B : Prop}

section Exprs

variable (hv : SettlesVisits n v) (ctx : Ctx)
include hv

theorem nodeOf {e : Expr} (hA : A → sizeOf e ≤ n) :
    Settles A B (clearExpr e = true) (v.node ctx e) :=
  (hv.node ctx e).weaken hA fun _ => trivial

theorem each_node {es : List Expr} (hA : A → sizeOf es ≤ n) :
    Settles A B (clearExprs es = true) (each (v.node ctx) es) :=
  .congr (clearExprs_iff es).symm (.each es fun _ he => hv.nodeOf ctx fun ha =>
    (List.sizeOf_lt_of_mem he).le.trans (hA ha))

theorem each_node_reverse {es : List Expr} (hA : A → sizeOf es ≤ n) :
    Settles A B (clearExprs es = true) (each (v.node ctx) es.reverse) :=
  .congr (by simp [clearExprs_iff]) (.each es.reverse fun e he => hv.nodeOf ctx fun ha =>
    (List.sizeOf_lt_of_mem (List.mem_reverse.1 he)).le.trans (hA ha))

theorem each_node_toList {e : Option Expr} (hA : A → sizeOf e ≤ n) :
    Settles A B (clearExpr? e = true) (each (v.node ctx) e.toList) := by
  cases e with
  | none => exact .congr (by simp [clearExpr?]) (.pure ())
  | some e =>
    refine .congr (by simp [clearExpr?]) (.each [e] fun e' he => hv.nodeOf ctx fun ha => ?_)
    have h := hA ha
    simp only [Option.some.sizeOf_spec, List.mem_singleton] at h he
    subst he
    omega

theorem compileAssign {e : Expr} (hA : A → sizeOf e ≤ n) :
    Settles A B (clearExpr e = true) (compileAssign env v ctx e) := by
  unfold Yog.compileAssign
  split
  · exact .congr (by simp [clearExpr]) .appendStore
  · simp only [Expr.subscript.sizeOf_spec] at hA
    refine .congr ?_ (.bind (hv.nodeOf ctx fun ha => ?_) fun _ =>
      .bind (hv.nodeOf ctx fun ha => ?_) fun _ => .bind .emit fun _ => .emit)
    · simp [clearExpr, and_comm]
    · have := hA ha; omega
    · have := hA ha; omega
  · simp only [Expr.attr.sizeOf_spec] at hA
    refine .congr (by simp [clearExpr]) (.bind (hv.nodeOf ctx fun ha => ?_) fun _ => .emit)
    have := hA ha
    omega
  · split <;> exact .fail fun h => by cases h

theorem compileMultiAssign {left : List Expr} {middle : Option Expr} {right : List Expr}
    (hA : A → sizeOf left + sizeOf middle + sizeOf right ≤ n) :
    Settles A B (clearExprs right = true ∧ clearExpr? middle = true ∧ clearExprs left = true)
      (compileMultiAssign env v ctx left middle right) := by
  refine .congr (by simp [clearExprs_iff, clearExpr?_iff])
    (.bind (.each right.reverse fun _ he => hv.compileAssign ctx fun ha => ?_) fun _ =>
      .bind (.each middle.toList fun _ he => hv.compileAssign ctx fun ha => ?_) fun _ =>
      .each left.reverse fun e he => hv.compileAssign ctx fun ha => ?_)
  · have := hA ha
    have := List.sizeOf_lt_of_mem (List.mem_reverse.1 he)
    omega
  · have := hA ha
    cases middle with
    | none => simp at he
    | some m =>
      simp only [Option.toList_some, List.mem_singleton] at he
      subst he
      simp only [Option.some.sizeOf_spec] at this
      omega
  · have := hA ha
    have := List.sizeOf_lt_of_mem (List.mem_reverse.1 he)
    omega

theorem compileDefault {p : Param} (hA : A → sizeOf p ≤ n) :
    Settles A B (clearExpr? p.default_ = true) (compileDefault env v ctx p) := by
  obtain ⟨type, lineno, name, _ | e⟩ := p
  · exact .congr (by simp [Param.default_, clearExpr?]) (.pure ())
  · simp only [Param.mk.sizeOf_spec, Option.some.sizeOf_spec] at hA
    simp only [Yog.compileDefault]
    split
    · refine .congr (by simp [Param.default_, clearExpr?]) (.bind .newLabel fun _ =>
        .bind .emit fun _ => .bind (hv.nodeOf ctx fun ha => ?_) fun _ =>
        .bind .appendStore fun _ => .emit)
      have := hA ha
      omega
    · exact .fail fun h => by cases h

omit hv in
theorem sizeOf_list_pos {α : Type} [SizeOf α] (l : List α) : 0 < sizeOf l := by
  cases l <;> simp

theorem compileBody {params : List Param} {stmts : List Stmt} {j : Bool} {k : Nat}
    (hB : B → Blocked ctx j)
    (hA : A → Copies ctx j k ∧ sizeOf params + sizeOf stmts + k ≤ n + 1) :
    Settles A B (clearParams params = true
        ∧ clearStmts ctx.labelWhile.isSome j stmts = true)
      (compileBody env v ctx params stmts) := by
  refine .congr (by simp [clearParams_iff]) (.bind .newLabel fun _ => .bind .emit fun _ =>
    .bind (.each params fun p hp => hv.compileDefault ctx fun ha => ?_) fun _ =>
    (hv.stmts ctx stmts j k).weaken (fun ha => ?_) hB)
  · have := (hA ha).2
    have := List.sizeOf_lt_of_mem hp
    have := sizeOf_list_pos stmts
    omega
  · have := (hA ha).2
    have := sizeOf_list_pos params
    exact ⟨(hA ha).1, by omega⟩

theorem compileStmts_settles {funcName : ID} {params : List Param} {stmts : List Stmt}
    {depths : List Int} (hf : ctx.finallyList = []) :
    (sizeOf params + sizeOf stmts ≤ n + 1 →
        clearParams params = true ∧ clearStmts ctx.labelWhile.isSome true stmts = true →
        compileStmts env v ctx funcName params stmts depths ≠ .error .outOfFuel)
      ∧ ((∃ r, compileStmts env v ctx funcName params stmts depths = .ok r) →
        clearParams params = true ∧ clearStmts ctx.labelWhile.isSome true stmts = true) := by
  have hbody : Settles (sizeOf params + sizeOf stmts ≤ n + 1) True
      (clearParams params = true ∧ clearStmts ctx.labelWhile.isSome true stmts = true)
      (Yog.compileBody env v ctx params stmts) :=
    hv.compileBody (k := 0) ctx (fun _ h => by cases h)
      (fun h => ⟨fun _ b hb => by simp [hf] at hb, h⟩)
  constructor
  · intro hn hc
    exact Except.bind_ne_error (hbody.1 hn hc _) fun _ _ => makeCode_ne
  · rintro ⟨⟨code, depths'⟩, h⟩
    obtain ⟨insts, s, hb, -⟩ := compileStmts_eq_ok h
    exact hbody.2 trivial ⟨_, _, hb⟩

theorem compileInner {vars : Except CompileError Scope} {className funcName : ID}
    {params : List Param} {stmts : List Stmt} {info : Except CompileError (Option ArgInfo)}
    (hvars : vars ≠ .error .outOfFuel) (hinfo : info ≠ .error .outOfFuel)
    (hA : A → sizeOf params + sizeOf stmts ≤ n + 1) :
    Settles A B (clearParams params = true ∧ clearStmts false true stmts = true)
      (compileInner env v vars ctx className funcName params stmts info) := by
  constructor
  · intro ha hc s
    refine Except.bind_ne_error hvars fun scope _ => Except.bind_ne_error ?_ fun _ _ =>
      Except.bind_ne_error hinfo fun _ _ h => by cases h
    exact (hv.compileStmts_settles (ctx.inner scope className) rfl).1 (hA ha) hc
  · rintro - ⟨s, ⟨code, l, s'⟩, h⟩
    obtain ⟨scope, body, depths, i, -, hb, -⟩ := compileInner_eq_ok h
    exact (hv.compileStmts_settles (ctx.inner scope className) rfl).2 ⟨_, hb⟩

theorem compileVisitBlock {b : BlockArg} (hA : A → sizeOf b ≤ n) :
    Settles A B (clearBlock? (some b) = true) (compileVisitBlock env v ctx b) := by
  obtain ⟨lineno, params, stmts⟩ := b
  simp only [BlockArg.mk.sizeOf_spec] at hA
  refine .congr (by simp [clearBlock?])
    (.bind (hv.compileInner ctx ?_ ?_ fun ha => ?_) fun _ => .bind .addPushConst fun _ => .emit)
  · exact Except.bind_ne_error makeVarTable_ne fun _ _ h => by cases h
  · split
    · exact fun h => by cases h
    · exact map_setupParams_ne
  · have := hA ha
    omega

theorem compileCallFunc {lineno : Lineno} {callee : Expr} {args : Args} {blockarg : Option BlockArg}
    {l m r : Nat} (hA : A → sizeOf callee + sizeOf args + sizeOf blockarg ≤ n) :
    Settles A B (clearExpr (.funcCall lineno callee args blockarg) = true)
      (compileCallFunc env v ctx lineno callee args blockarg l m r) := by
  obtain ⟨posargs, kwargs, vararg, varkwarg, andBlock⟩ := args
  simp only [Args.mk.sizeOf_spec] at hA
  have hb : Settles A B (clearBlock? blockarg = true)
      (each (Yog.compileVisitBlock env v ctx) blockarg.toList) := by
    cases blockarg with
    | none => exact .congr (by simp [clearBlock?]) (.pure ())
    | some b =>
      refine .congr (by simp) (.each (F := fun b => clearBlock? (some b) = true) [b]
        fun b' hb' => hv.compileVisitBlock ctx fun ha => ?_)
      have := hA ha
      simp only [Option.some.sizeOf_spec, List.mem_singleton] at this hb'
      subst hb'
      omega
  have hk : Settles A B (clearKwArgs kwargs = true)
      (each (compileKwArg env v ctx) kwargs.reverse) := by
    refine .congr (by simp [clearKwArgs_iff]) (.each kwargs.reverse fun a ha =>
      .bind (hv.nodeOf ctx fun h => ?_) fun _ => .addPushConst)
    have := hA h
    have := List.sizeOf_lt_of_mem (List.mem_reverse.1 ha)
    obtain ⟨_, _, value⟩ := a
    simp only [KwArg.mk.sizeOf_spec] at this
    simp only [KwArg.value]
    omega
  refine .congr ?_ (.bind hb fun _ => .failIf (fun h => by cases h)
    (.bind (hv.each_node_toList ctx fun ha => ?_) fun _ =>
    .bind (hv.each_node_toList ctx fun ha => ?_) fun _ =>
    .bind (hv.each_node_toList ctx fun ha => ?_) fun _ => .bind hk fun _ =>
    .bind (hv.each_node_reverse ctx fun ha => ?_) fun _ => .bind (hv.nodeOf ctx fun ha => ?_) fun _ =>
    .bind .newLabel fun _ => .bind .newLabel fun _ => .bind .emit fun _ => .bind .emit fun _ => .emit))
  · simp only [clearExpr, clearArgs, Bool.and_eq_true]
    tauto
  all_goals
    have := hA ha
    omega

omit hv in
theorem addDupFor {lineno : Lineno} {e : Expr} : Settles A B True (addDupFor lineno e) := by
  unfold Yog.addDupFor
  split
  · exact .emit
  · exact .emit
  · exact .pure ()

omit hv in
theorem compileVisitLiteral {lineno : Lineno} {val : Val} :
    Settles A B True (compileVisitLiteral env lineno val) := by
  unfold Yog.compileVisitLiteral
  split
  · exact .congr (by simp) (.bind .registerConst fun _ => .emit)
  · exact .addPushConst

theorem compileVisitExpr (e : Expr) : Settles (sizeOf e ≤ n + 1) B (clearExpr e = true)
    (compileVisitExpr env v ctx e) := by
  cases e with
  | array lineno elems | set lineno elems =>
    refine .congr (by simp [clearExpr]) (.bind (hv.each_node ctx fun ha => ?_) fun _ => .emit)
    simp at ha
    omega
  | assign lineno left right =>
    refine .congr (by simp [clearExpr]) (.bind (hv.nodeOf ctx fun ha => ?_) fun _ =>
      .bind addDupFor fun _ => hv.compileAssign ctx fun ha => ?_)
    all_goals
      simp at ha
      omega
  | attr lineno obj name | not lineno obj =>
    refine .congr (by simp [clearExpr]) (.bind (hv.nodeOf ctx fun ha => ?_) fun _ => .emit)
    simp at ha
    omega
  | binop lineno op left right | subscript lineno left right =>
    refine .congr (by simp [clearExpr]) (.bind (hv.nodeOf ctx fun ha => ?_) fun _ =>
      .bind (hv.nodeOf ctx fun ha => ?_) fun _ => .emit)
    all_goals
      simp at ha
      omega
  | conditional lineno test trueExpr falseExpr =>
    refine .congr (by simp [clearExpr, and_assoc]) (.bind .newLabel fun _ => .bind .newLabel fun _ =>
      .bind (hv.nodeOf ctx fun ha => ?_) fun _ => .bind .emit fun _ =>
      .bind (hv.nodeOf ctx fun ha => ?_) fun _ => .bind .emit fun _ => .bind .emit fun _ =>
      .bind (hv.nodeOf ctx fun ha => ?_) fun _ => .emit)
    all_goals
      simp at ha
      omega
  | logicalAnd lineno left right | logicalOr lineno left right =>
    refine .congr (by simp [clearExpr]) (.bind (hv.nodeOf ctx fun ha => ?_) fun _ =>
      .bind .newLabel fun _ => .bind .emit fun _ => .bind .emit fun _ => .bind .emit fun _ =>
      .bind (hv.nodeOf ctx fun ha => ?_) fun _ => .emit)
    all_goals
      simp at ha
      omega
  | dict lineno elems =>
    have hsize : ∀ e ∈ elems, sizeOf (Expr.dict lineno elems) ≤ n + 1 →
        sizeOf e.key + sizeOf e.value < n := by
      rintro ⟨key, value⟩ he ha
      have := List.sizeOf_lt_of_mem he
      simp at ha this
      simp only [DictElem.key, DictElem.value]
      omega
    refine .congr (by simp [clearExpr, clearDictElems_iff]) (.bind (.each elems fun e he =>
      .bind (hv.nodeOf ctx fun ha => ?_) fun _ => hv.nodeOf ctx fun ha => ?_) fun _ => .emit)
    all_goals
      have := hsize e he ha
      omega
  | funcCall lineno callee args blockarg =>
    refine hv.compileCallFunc ctx fun ha => ?_
    simp at ha
    omega
  | literal lineno val => exact .congr (by simp [clearExpr]) compileVisitLiteral
  | super lineno => exact .congr (by simp [clearExpr]) .emit
  | «variable» lineno id => exact .congr (by simp [clearExpr]) .compileVisitVariable

end Exprs

section Stmts

variable (hv : SettlesVisits n v) (ctx : Ctx) {j : Bool} {k : Nat}

include hv

theorem stmtsOf {ss : List Stmt} (hB : B → Blocked ctx j)
    (hA : A → Copies ctx j k ∧ sizeOf ss + k ≤ n) :
    Settles A B (clearStmts ctx.labelWhile.isSome j ss = true) (v.stmts ctx ss) :=
  (hv.stmts ctx ss j k).weaken hA hB

theorem compileMultiAssignRhs {left : List Expr} {middle : Option Expr} {right : List Expr}
    {rhs : Expr} {rhsRest : List Expr} (hA : A → sizeOf rhs + sizeOf rhsRest ≤ n) :
    Settles A B (clearExpr rhs = true ∧ clearExprs rhsRest = true)
      (compileMultiAssignRhs env v ctx left middle right rhs rhsRest) := by
  unfold Yog.compileMultiAssignRhs
  split
  · simp only [Expr.funcCall.sizeOf_spec] at hA
    refine .congr (by simp [clearExprs]) (hv.compileCallFunc ctx fun ha => ?_)
    have := hA ha
    omega
  · have hmem : ∀ e ∈ rhs :: rhsRest, A → sizeOf e ≤ n := by
      intro e he ha
      have := hA ha
      rcases List.mem_cons.1 he with rfl | he
      · omega
      · have := List.sizeOf_lt_of_mem he
        omega
    unfold Yog.compileMultiAssignExprs
    split
    · exact .fail fun h => by cases h
    · refine .congr ?_ (.bind (.each ((rhs :: rhsRest).take _) fun e he =>
        hv.nodeOf ctx (hmem e (List.mem_of_mem_take he))) fun _ =>
        .bind (.each middle.toList fun _ _ => .emit) fun _ =>
        .each ((rhs :: rhsRest).drop ((rhs :: rhsRest).length - right.length)) fun e he =>
          hv.nodeOf ctx (hmem e (List.mem_of_mem_drop he)))
      have hsplit : clearExprs (rhs :: rhsRest) = true
          ↔ (∀ e ∈ (rhs :: rhsRest).take ((rhs :: rhsRest).length - right.length),
              clearExpr e = true)
            ∧ ∀ e ∈ (rhs :: rhsRest).drop ((rhs :: rhsRest).length - right.length),
              clearExpr e = true := by
        simp only [clearExprs_iff, ← List.forall_mem_append, List.take_append_drop]
      simp only [clearExprs, Bool.and_eq_true] at hsplit
      simp only [implies_true, true_and]
      exact hsplit.symm

theorem compileVisitMultiAssign {left : List Expr} {middle : Option Expr} {right : List Expr}
    {rhs : Expr} {rhsRest : List Expr}
    (hA : A → sizeOf left + sizeOf middle + sizeOf right + sizeOf rhs + sizeOf rhsRest ≤ n) :
    Settles A B (clearStmt ctx.labelWhile.isSome j
        (.multiAssign 0 left middle right rhs rhsRest) = true)
      (compileVisitMultiAssign env v ctx left middle right rhs rhsRest) := by
  refine .congr ?_ (.bind (hv.compileMultiAssignRhs ctx fun ha => ?_) fun _ =>
    hv.compileMultiAssign ctx fun ha => ?_)
  · simp only [clearStmt, Bool.and_eq_true]
    tauto
  all_goals
    have := hA ha
    omega

omit hv in
theorem addRaiseLastException {lineno : Lineno} : Settles A B True (addRaiseLastException env lineno) :=
  .congr (by simp) (.bind .emit fun _ => .bind .emit fun _ => .emit)

theorem compileVisitFinally {lineno : Lineno} {head body : List Stmt} (hB : B → Blocked ctx j)
    (hA : A → Copies ctx j k ∧ sizeOf head + sizeOf body + k ≤ n) :
    Settles A B (clearStmt ctx.labelWhile.isSome j (.finally_ lineno head body) = true)
      (compileVisitFinally env v ctx lineno head body) := by
  have hB' : ∀ node, B → Blocked { ctx with finallyList := ⟨node, body⟩ :: ctx.finallyList }
      (j && clearStmts true false body) := by
    intro node hb hj
    rcases hc : clearStmts true false body with _ | _
    · exact ⟨⟨node, body⟩, List.mem_cons_self, hc⟩
    · obtain ⟨b, hmem, hblocked⟩ := hB hb (by simpa [hc] using hj)
      exact ⟨b, List.mem_cons_of_mem _ hmem, hblocked⟩
  have hhead : ∀ node, Settles A B
      (clearStmts ctx.labelWhile.isSome (j && clearStmts true false body) head = true)
      (v.stmts { ctx with finallyList := ⟨node, body⟩ :: ctx.finallyList } head) := by
    intro node
    refine hv.stmtsOf (k := max k (sizeOf body))
      { ctx with finallyList := ⟨node, body⟩ :: ctx.finallyList } (hB' node) fun ha => ?_
    obtain ⟨hcopies, hn⟩ := hA ha
    refine ⟨fun hj => ?_, by omega⟩
    rw [Bool.and_eq_true] at hj
    refine List.forall_mem_cons.2 ⟨⟨hj.2, le_max_right _ _⟩, fun b hb => ?_⟩
    exact ⟨(hcopies hj.1 b hb).1, (hcopies hj.1 b hb).2.trans (le_max_left _ _)⟩
  have hbody : ∀ node, Settles A B
      (clearStmts ctx.labelWhile.isSome (j && clearStmts true false body) body = true)
      (v.stmts { ctx with finallyList := ⟨node, body⟩ :: ctx.finallyList } body) := by
    intro node
    refine ⟨fun ha hclear => ?_, fun hb hok => ?_⟩
    swap
    · exact (hv.stmts { ctx with finallyList := ⟨node, body⟩ :: ctx.finallyList } body _ 0).2
        (hB' node hb) hok
    have hfree : clearStmts ctx.labelWhile.isSome false body = true := by
      rcases hc : clearStmts true false body with _ | _
      · simpa [hc] using hclear
      · exact clearStmts_of_inLoop body hc
    have hn := (hA ha).2
    exact (hv.stmts { ctx with finallyList := ⟨node, body⟩ :: ctx.finallyList } body false 0).1
      ⟨copies_false, by omega⟩ hfree
  refine .congr ?_ (.bind .newLabel fun node => .bind .newLabel fun _ => .bind .newLabel fun _ =>
    .bind .newLabel fun _ => .bind .modify fun _ => .bind .emit fun _ => .bind .emit fun _ =>
    .bind (hhead node) fun _ => .bind .emit fun _ => .bind .emit fun _ =>
    .bind (hbody node) fun _ => .bind .emit fun _ => .bind .emit fun _ =>
    .bind (hbody node) fun _ => .bind addRaiseLastException fun _ => .bind .emit fun _ => .modify)
  simp only [clearStmt, Bool.and_eq_true]
  tauto

theorem compileExcept {b : ExceptBody} {labelElseEnd : Label} (hB : B → Blocked ctx j)
    (hA : A → Copies ctx j k ∧ sizeOf b + k ≤ n) :
    Settles A B (clearExcept ctx.labelWhile.isSome j b = true)
      (compileExcept env v ctx labelElseEnd b) := by
  obtain ⟨lineno, types, var, stmts⟩ := b
  simp only [ExceptBody.mk.sizeOf_spec] at hA
  have htypes : ∀ label, Settles A B (clearExprs types = true)
      (each (compileExceptType v ctx label) types) := by
    intro label
    refine .congr (by simp [clearExprs_iff]) (.each types fun type ht => .bind .emit fun _ =>
      .bind (hv.nodeOf ctx fun ha => ?_) fun _ => .bind .emit fun _ => .emit)
    have := (hA ha).2
    have := List.sizeOf_lt_of_mem ht
    omega
  refine .congr (by simp [clearExcept]) (.bind .newLabel fun _ => .bind .newLabel fun _ =>
    .bind (htypes _) fun _ => .bind (.each types.getLast?.toList fun _ _ => .emit) fun _ =>
    .bind .emit fun _ =>
    .bind (.each var.toList fun _ _ => .bind .emit fun _ => .appendStore) fun _ =>
    .bind (hv.stmtsOf ctx hB fun ha => ⟨(hA ha).1, ?_⟩) fun _ => .bind .emit fun _ => .emit)
  have := (hA ha).2
  omega

theorem compileVisitExcept {lineno : Lineno} {head : List Stmt} {excepts : List ExceptBody}
    {else_ : List Stmt} (hB : B → Blocked ctx j)
    (hA : A → Copies ctx j k
      ∧ sizeOf head + sizeOf excepts + sizeOf else_ + k ≤ n) :
    Settles A B (clearStmt ctx.labelWhile.isSome j (.except lineno head excepts else_) = true)
      (compileVisitExcept env v ctx lineno head excepts else_) := by
  refine .congr (by simp [clearStmt, clearExcepts_iff, and_assoc]) (.bind .newLabel fun _ =>
    .bind .newLabel fun _ => .bind .newLabel fun _ => .bind .newLabel fun _ =>
    .bind .newLabel fun _ => .bind .modify fun _ => .bind .emit fun _ => .bind .emit fun _ =>
    .bind (hv.stmtsOf ctx hB fun ha => ⟨(hA ha).1, ?_⟩) fun _ => .bind .emit fun _ =>
    .bind .emit fun _ => .bind .emit fun _ => .bind .emit fun _ =>
    .bind (.each excepts fun b hb => hv.compileExcept ctx hB fun ha => ⟨(hA ha).1, ?_⟩) fun _ =>
    .bind addRaiseLastException fun _ => .bind .emit fun _ =>
    .bind (hv.stmtsOf ctx hB fun ha => ⟨(hA ha).1, ?_⟩) fun _ => .bind .emit fun _ => .modify)
  · have := (hA ha).2
    omega
  · have := (hA ha).2
    have := List.sizeOf_lt_of_mem hb
    omega
  · have := (hA ha).2
    omega

theorem compileVisitWhile {lineno : Lineno} {test : Expr} {stmts : List Stmt}
    (hB : B → Blocked ctx j)
    (hA : A → Copies ctx j k ∧ sizeOf test + sizeOf stmts + k ≤ n) :
    Settles A B (clearStmt ctx.labelWhile.isSome j (.while_ lineno test stmts) = true)
      (compileVisitWhile v ctx lineno test stmts) := by
  have hstmts : ∀ labels, Settles A B (clearStmts true j stmts = true)
      (v.stmts { ctx with labelWhile := some labels } stmts) := fun labels =>
    hv.stmtsOf (k := k) { ctx with labelWhile := some labels } hB fun ha =>
      ⟨(hA ha).1, by have := (hA ha).2; omega⟩
  refine .congr (by simp [clearStmt]) (.bind .newLabel fun _ => .bind .newLabel fun _ =>
    .bind .emit fun _ => .bind (hv.nodeOf _ fun ha => ?_) fun _ => .bind .emit fun _ =>
    .bind (hstmts _) fun _ => .bind .emit fun _ => .emit)
  have := (hA ha).2
  omega

theorem compileVisitIf {lineno : Lineno} {test : Expr} {stmts tail : List Stmt}
    (hB : B → Blocked ctx j)
    (hA : A → Copies ctx j k ∧ sizeOf test + sizeOf stmts + sizeOf tail + k ≤ n) :
    Settles A B (clearStmt ctx.labelWhile.isSome j (.if_ lineno test stmts tail) = true)
      (compileVisitIf v ctx test stmts tail) := by
  refine .congr (by simp [clearStmt, and_assoc]) (.bind .newLabel fun _ => .bind .newLabel fun _ =>
    .bind (hv.nodeOf ctx fun ha => ?_) fun _ => .bind .emit fun _ =>
    .bind (hv.stmtsOf ctx hB fun ha => ⟨(hA ha).1, ?_⟩) fun _ => .bind .emit fun _ =>
    .bind .emit fun _ => .bind (hv.stmtsOf ctx hB fun ha => ⟨(hA ha).1, ?_⟩) fun _ => .emit)
  all_goals
    have := (hA ha).2
    omega

theorem compileVisitRaise {lineno : Lineno} {e : Option Expr} (hA : A → sizeOf e ≤ n) :
    Settles A B (clearExpr? e = true) (compileVisitRaise env v ctx lineno e) := by
  cases e with
  | none => exact .congr (by simp [clearExpr?]) addRaiseLastException
  | some e =>
    refine .congr (by simp [clearExpr?])
      (.bind (hv.nodeOf ctx fun ha => ?_) fun _ => .bind .emit fun _ => .emit)
    have := hA ha
    simp only [Option.some.sizeOf_spec] at this
    omega

omit hv in
theorem compileImport {lineno : Lineno} {name : ID} {rest : List ID} :
    Settles A B True (compileImport env lineno name rest) :=
  .congr (by simp) (.bind .addPushConst fun _ => .bind .emit fun _ => .emit)

omit hv in
theorem compileVisitFrom {lineno : Lineno} {pkg : ID} {pkgRest : List ID} {attr : ImportedAttr}
    {attrs : List ImportedAttr} :
    Settles A B True (compileVisitFrom env ctx lineno pkg pkgRest attr attrs) :=
  .congr (by simp) (.bind compileImport fun _ => .bind (.each pkgRest fun _ _ => .emit) fun _ =>
    .bind (.each (attr :: attrs).dropLast fun _ _ => .bind .emit fun _ => .bind .emit fun _ =>
      .appendStore) fun _ => .bind .emit fun _ => .appendStore)

omit hv in
theorem compileVisitImport {lineno : Lineno} {name : ID} {nameRest : List ID} {as : Option ID} :
    Settles A B True (compileVisitImport env ctx lineno name nameRest as) := by
  cases as with
  | none => exact .congr (by simp) (.bind compileImport fun _ => .appendStore)
  | some as =>
    exact .congr (by simp) (.bind compileImport fun _ => .bind (.each nameRest fun _ _ => .emit)
      fun _ => .appendStore)

/-- A jump visits the bodies of the list as they are. -/
theorem compileWhileJump {lineno : Lineno} {jumpTo : Label} (hw : ctx.labelWhile.isSome = true)
    (hB : B → Blocked ctx j) (hA : A → Copies ctx j k ∧ k ≤ n) :
    Settles A B (j = true) (compileWhileJump v ctx lineno jumpTo) := by
  have hcopy : ∀ b ∈ ctx.finallyList, Settles (A ∧ j = true) (B ∧ j = false)
      (clearStmts true false b.body = true) (compileFinallyCopy v ctx b) := by
    intro b hb
    have hstmts : Settles (A ∧ j = true) (B ∧ j = false)
        (clearStmts true false b.body = true) (v.stmts ctx b.body) := by
      refine .congr (by rw [hw]) ((hv.stmts ctx b.body false 0).weaken ?_ ?_)
      · rintro ⟨ha, hj⟩
        obtain ⟨hcopies, hn⟩ := hA ha
        exact ⟨copies_false, (hcopies hj b hb).2.trans hn⟩
      · rintro ⟨hb, rfl⟩
        exact hB hb
    exact .congr (by simp) (.bind .newLabel fun _ => .bind .newLabel fun _ => .bind .emit fun _ =>
      .bind .emit fun _ => .bind hstmts fun _ => .bind .emit fun _ => .bind .emit fun _ =>
      .splitTries)
  have hjump := Settles.bind (.each ctx.finallyList hcopy) fun _ =>
    (Settles.emit : Settles _ _ _ (addOp lineno (.jump jumpTo)))
  refine ⟨fun ha hj => hjump.1 ⟨ha, hj⟩ ⟨fun b hb => ((hA ha).1 hj b hb).1, trivial⟩, ?_⟩
  intro hb hok
  by_contra hj
  rw [Bool.not_eq_true] at hj
  obtain ⟨b, hmem, hblocked⟩ := hB hb hj
  have := (hjump.2 ⟨hb, hj⟩ hok).1 b hmem
  rw [hblocked] at this
  cases this

theorem visitArrayElementsOppositeOrder {exprs : List Expr} (hA : A → sizeOf exprs ≤ n) :
    Settles A B (clearExprs exprs = true) (visitArrayElementsOppositeOrder v ctx exprs) := by
  unfold Yog.visitArrayElementsOppositeOrder
  split
  · exact hv.each_node_reverse ctx hA
  · exact .fail fun h => by cases h

theorem compileVisitBreak {lineno : Lineno} {exprs : List Expr} (hB : B → Blocked ctx j)
    (hA : A → Copies ctx j k ∧ sizeOf exprs + k ≤ n) :
    Settles A B (clearStmt ctx.labelWhile.isSome j (.break_ lineno exprs) = true)
      (compileVisitBreak v ctx lineno exprs) := by
  unfold Yog.compileVisitBreak
  split
  · rename_i hw
    refine .congr (by simp [clearStmt, hw])
      (hv.compileWhileJump (k := k) ctx (by simp [hw]) hB fun ha => ⟨(hA ha).1, ?_⟩)
    have := (hA ha).2
    omega
  · rename_i hw
    refine .congr (by simp [clearStmt, hw])
      (.bind (hv.visitArrayElementsOppositeOrder ctx fun ha => ?_) fun _ => .emit)
    have := (hA ha).2
    omega

theorem compileVisitNext {lineno : Lineno} {exprs : List Expr} (hB : B → Blocked ctx j)
    (hA : A → Copies ctx j k ∧ sizeOf exprs + k ≤ n) :
    Settles A B (clearStmt ctx.labelWhile.isSome j (.next lineno exprs) = true)
      (compileVisitNext env v ctx lineno exprs) := by
  unfold Yog.compileVisitNext
  split
  · rename_i hw
    refine .congr (by simp [clearStmt, hw])
      (hv.compileWhileJump (k := k) ctx (by simp [hw]) hB fun ha => ⟨(hA ha).1, ?_⟩)
    have := (hA ha).2
    omega
  · rename_i hw
    split
    · exact .congr (by simp [clearStmt, hw, clearExprs]) (.bind .addPushConst fun _ => .emit)
    · refine .congr (by simp [clearStmt, hw])
        (.bind (hv.visitArrayElementsOppositeOrder ctx fun ha => ?_) fun _ => .emit)
      have := (hA ha).2
      omega

theorem compileDecoratorsCall {decorators : List Expr} (hA : A → sizeOf decorators ≤ n) :
    Settles A B (clearExprs decorators = true) (compileDecoratorsCall v ctx decorators) := by
  refine .congr (by simp [clearExprs_iff]) (.each decorators fun e he =>
    .bind (hv.nodeOf ctx fun ha => ?_) fun _ => .emit)
  have := hA ha
  have := List.sizeOf_lt_of_mem he
  omega

omit hv in
theorem scopeOfFunc_ne {context : Context} {params : List Param} {stmts : List Stmt} :
    scopeOfFunc env ctx context params stmts ≠ .error .outOfFuel :=
  Except.bind_ne_error makeVarTableOfFunc_ne fun _ _ h => by cases h

theorem compileVisitFuncDef {lineno : Lineno} {decorators : List Expr} {name : ID}
    {params : List Param} {stmts : List Stmt}
    (hA : A → sizeOf decorators + sizeOf params + sizeOf stmts ≤ n) :
    Settles A B (clearStmt ctx.labelWhile.isSome j
        (.funcDef lineno decorators name params stmts) = true)
      (compileVisitFuncDef env v ctx lineno decorators name params stmts) := by
  refine .congr (by simp [clearStmt, and_assoc])
    (.bind (hv.compileInner ctx (scopeOfFunc_ne ctx) map_setupParams_ne fun ha => ?_) fun _ =>
      .bind .addPushConst fun _ => .bind .emit fun _ =>
      .bind (hv.compileDecoratorsCall ctx fun ha => ?_) fun _ => .appendStore)
  all_goals
    have := hA ha
    omega

theorem compileVisitClass {lineno : Lineno} {decorators : List Expr} {name : ID}
    {super : Option Expr} {stmts : List Stmt}
    (hA : A → sizeOf decorators + sizeOf super + sizeOf stmts ≤ n) :
    Settles A B (clearStmt ctx.labelWhile.isSome j
        (.klass lineno decorators name super stmts) = true)
      (compileVisitClass env v ctx lineno decorators name super stmts) := by
  have hsuper : Settles A B (clearExpr? super = true) (compileSuper env v ctx lineno super) := by
    cases super with
    | none => exact .congr (by simp [clearExpr?]) .addPushConst
    | some super =>
      refine .congr (by simp [clearExpr?]) (hv.nodeOf ctx fun ha => ?_)
      have := hA ha
      simp only [Option.some.sizeOf_spec] at this
      omega
  refine .congr (by simp [clearStmt, clearParams, and_assoc])
    (.bind .addPushConst fun _ => .bind hsuper fun _ =>
      .bind (hv.compileInner ctx (scopeOfFunc_ne ctx) (fun h => by cases h) fun ha => ?_) fun _ =>
      .bind .addPushConst fun _ => .bind .emit fun _ => .bind .emit fun _ =>
      .bind (hv.compileDecoratorsCall ctx fun ha => ?_) fun _ => .appendStore)
  · have := hA ha
    simp only [List.nil.sizeOf_spec]
    omega
  · have := hA ha
    omega

theorem compileVisitModule {lineno : Lineno} {name : ID} {stmts : List Stmt}
    (hA : A → sizeOf stmts ≤ n) :
    Settles A B (clearStmt ctx.labelWhile.isSome j (.module_ lineno name stmts) = true)
      (compileVisitModule env v ctx lineno name stmts) := by
  refine .congr (by simp [clearStmt, clearParams])
    (.bind (hv.compileInner ctx (scopeOfFunc_ne ctx) (fun h => by cases h) fun ha => ?_) fun _ =>
      .bind .addPushConst fun _ => .bind .emit fun _ => .bind .emit fun _ => .appendStore)
  have := hA ha
  simp only [List.nil.sizeOf_spec]
  omega

theorem compileVisitStmt {stmt : Stmt} (hB : B → Blocked ctx j)
    (hA : A → Copies ctx j k ∧ sizeOf stmt + k ≤ n + 1) :
    Settles A B (clearStmt ctx.labelWhile.isSome j stmt = true)
      (compileVisitStmt env v ctx stmt) := by
  cases stmt with
  | expr e =>
    simp only [Stmt.expr.sizeOf_spec] at hA
    cases e
    case funcCall lineno callee args blockarg =>
      refine .congr (by simp [clearStmt]) (hv.compileCallFunc ctx fun ha => ?_)
      have := (hA ha).2
      simp only [Expr.funcCall.sizeOf_spec] at this
      omega
    all_goals
      refine .congr (by simp [clearStmt]) (hv.nodeOf ctx fun ha => ?_)
      have := (hA ha).2
      omega
  | break_ lineno exprs =>
    simp only [Stmt.break_.sizeOf_spec] at hA
    exact hv.compileVisitBreak (k := k) ctx hB fun ha =>
      ⟨(hA ha).1, by have := (hA ha).2; omega⟩
  | next lineno exprs =>
    simp only [Stmt.next.sizeOf_spec] at hA
    exact hv.compileVisitNext (k := k) ctx hB fun ha =>
      ⟨(hA ha).1, by have := (hA ha).2; omega⟩
  | klass lineno decorators name super stmts =>
    simp only [Stmt.klass.sizeOf_spec] at hA
    exact hv.compileVisitClass ctx fun ha => by have := (hA ha).2; omega
  | except lineno head excepts else_ =>
    simp only [Stmt.except.sizeOf_spec] at hA
    exact hv.compileVisitExcept (k := k) ctx hB fun ha =>
      ⟨(hA ha).1, by have := (hA ha).2; omega⟩
  | finally_ lineno head body =>
    simp only [Stmt.finally_.sizeOf_spec] at hA
    exact hv.compileVisitFinally (k := k) ctx hB fun ha =>
      ⟨(hA ha).1, by have := (hA ha).2; omega⟩
  | from_ lineno pkg pkgRest attr attrs =>
    exact .congr (by simp [clearStmt]) (compileVisitFrom ctx)
  | funcDef lineno decorators name params stmts =>
    simp only [Stmt.funcDef.sizeOf_spec] at hA
    exact hv.compileVisitFuncDef ctx fun ha => by have := (hA ha).2; omega
  | if_ lineno test stmts tail =>
    simp only [Stmt.if_.sizeOf_spec] at hA
    exact hv.compileVisitIf (k := k) ctx hB fun ha =>
      ⟨(hA ha).1, by have := (hA ha).2; omega⟩
  | import_ lineno name nameRest as =>
    exact .congr (by simp [clearStmt]) (compileVisitImport ctx)
  | module_ lineno name stmts =>
    simp only [Stmt.module_.sizeOf_spec] at hA
    exact hv.compileVisitModule ctx fun ha => by have := (hA ha).2; omega
  | multiAssign lineno left middle right rhs rhsRest =>
    simp only [Stmt.multiAssign.sizeOf_spec] at hA
    exact hv.compileVisitMultiAssign (j := j) ctx fun ha => by have := (hA ha).2; omega
  | nonlocal lineno names => exact .congr (by simp [clearStmt]) (.pure ())
  | raise lineno e =>
    simp only [Stmt.raise.sizeOf_spec] at hA
    exact .congr (by simp [clearStmt]) (hv.compileVisitRaise ctx fun ha => by
      have := (hA ha).2
      omega)
  | return_ lineno exprs =>
    simp only [Stmt.return_.sizeOf_spec] at hA
    exact .congr (by simp [clearStmt]) (.bind (hv.visitArrayElementsOppositeOrder ctx fun ha => by
      have := (hA ha).2
      omega) fun _ => .emit)
  | while_ lineno test stmts =>
    simp only [Stmt.while_.sizeOf_spec] at hA
    exact hv.compileVisitWhile (k := k) ctx hB fun ha =>
      ⟨(hA ha).1, by have := (hA ha).2; omega⟩

omit hv in
theorem processStackTop {stmt : Stmt} : Settles A B True (processStackTop ctx stmt) := by
  unfold Yog.processStackTop
  split
  · exact .emit
  · split
    · split
      · exact .emit
      · exact .pure ()
    · exact .pure ()

theorem compileVisitStmts (ss : List Stmt) (j : Bool) (k : Nat) :
    Settles (Copies ctx j k ∧ sizeOf ss + k ≤ n + 1) (Blocked ctx j)
      (clearStmts ctx.labelWhile.isSome j ss = true) (compileVisitStmts env v ctx ss) := by
  refine .congr (by simp [clearStmts_iff]) (.each ss fun stmt hs => .bind .emit fun _ =>
    .bind (hv.compileVisitStmt (j := j) (k := k) ctx id fun ha =>
      ⟨ha.1, ?_⟩) fun _ => .bind (processStackTop ctx) fun _ => .emit)
  have := ha.2
  have := List.sizeOf_lt_of_mem hs
  omega

end Stmts

end SettlesVisits

theorem settlesVisits_visitor (env : YogEnv) : ∀ fuel, SettlesVisits fuel (visitor env fuel)
  | 0 => by
    refine ⟨fun ctx e => ⟨fun ha => ?_, ?_⟩, fun ctx ss j k => ⟨fun ha => ?_, ?_⟩⟩
    · cases e <;> simp at ha
    · rintro - ⟨s, r, h⟩
      cases h
    · cases ss <;> simp at ha
    · rintro - ⟨s, r, h⟩
      cases h
  | fuel + 1 =>
    ⟨fun ctx e => (settlesVisits_visitor env fuel).compileVisitExpr ctx e,
      fun ctx ss j k =>
        (settlesVisits_visitor env fuel).compileVisitStmts ctx ss j k⟩

/-- The compilation of a package comes to an end, with code or by raising an error. -/
def Ends (env : YogEnv) (filename : String) (stmts : List Stmt) (interactive : Bool) : Prop :=
  ∃ fuel, compilePackage env fuel filename stmts interactive ≠ .error .outOfFuel

/-- It raises an error. -/
def Raises (env : YogEnv) (filename : String) (stmts : List Stmt) (interactive : Bool) : Prop :=
  ∃ fuel e, compilePackage env fuel filename stmts interactive = .error e ∧ e ≠ .outOfFuel

section Package

variable {env : YogEnv} {filename : String} {stmts : List Stmt} {interactive : Bool}

theorem ends_of_clear (h : clearStmts false true stmts = true) :
    Ends env filename stmts interactive := by
  refine ⟨sizeOf stmts, ?_⟩
  refine Except.bind_ne_error makeVarTableOfFunc_ne fun tbl _ =>
    Except.bind_ne_error ?_ fun _ _ h => by cases h
  refine ((settlesVisits_visitor env _).compileStmts_settles _ rfl).1 ?_ ⟨rfl, h⟩
  simp only [List.nil.sizeOf_spec]
  omega

theorem clear_of_ok {fuel : Nat} {code : Code}
    (h : compilePackage env fuel filename stmts interactive = .ok code) :
    clearStmts false true stmts = true := by
  obtain ⟨tbl, -, h⟩ := Except.bind_eq_ok_iff.1 h
  obtain ⟨r, hr, -⟩ := Except.bind_eq_ok_iff.1 h
  exact (((settlesVisits_visitor env fuel).compileStmts_settles _ rfl).2 ⟨r, hr⟩).2

/-- The compiler comes to an end on a clear package, and on no other one that it does not raise an
error for. -/
theorem package_ends_iff :
    (clearStmts false true stmts = true → Ends env filename stmts interactive)
      ∧ (¬ Raises env filename stmts interactive →
        (Ends env filename stmts interactive ↔ clearStmts false true stmts = true)) := by
  refine ⟨ends_of_clear, fun hr => ⟨?_, ends_of_clear⟩⟩
  rintro ⟨fuel, hne⟩
  rcases hc : compilePackage env fuel filename stmts interactive with e | code
  · exact absurd ⟨fuel, e, hc, fun he => hne (he ▸ hc)⟩ hr
  · exact clear_of_ok hc

end Package

/-- A jump under a `finally` whose body is a jump. -/
theorem visit_break_stuck (env : YogEnv) (node : Label) (rest : List FinallyListEntry) :
    ∀ (fuel : Nat) (ctx : Ctx) (lineno : Lineno) (s : CompileData), ctx.labelWhile.isSome = true →
      ctx.finallyList = ⟨node, [.break_ 5 []]⟩ :: rest →
      (visitor env fuel).stmts ctx [.break_ lineno []] s = .error .outOfFuel
  | 0, _, _, _, _, _ => rfl
  | fuel + 1, ctx, lineno, s, hw, hf => by
    obtain ⟨labels, hw'⟩ := Option.isSome_iff_exists.1 hw
    have hstuck := visit_break_stuck env node rest fuel ctx 5
    have hcopy : ∀ s, compileFinallyCopy (visitor env fuel) ctx ⟨node, [.break_ 5 []]⟩ s
        = .error .outOfFuel := by
      intro s
      refine bind_error rfl (bind_error rfl (bind_error rfl (bind_error rfl ?_)))
      exact Emission.bind_eq_error.2 (.inl (hstuck _ hw hf))
    have hjump : ∀ label s, compileWhileJump (visitor env fuel) ctx lineno label s
        = .error .outOfFuel := by
      intro label s
      refine Emission.bind_eq_error.2 (.inl ?_)
      rw [hf]
      exact Emission.bind_eq_error.2 (.inl (hcopy s))
    refine Emission.bind_eq_error.2 (.inl (bind_error rfl (Emission.bind_eq_error.2 (.inl ?_))))
    simp only [compileVisitStmt, compileVisitBreak, hw']
    exact hjump _ _

/-- `while nil`, `try`, `break`, `finally`, `break`, `end`, `end`. -/
def endlessStmt : Stmt :=
  .while_ 1 (.literal 1 .nil) [.finally_ 2 [.break_ 3 []] [.break_ 5 []]]

theorem visit_endless_stuck : ∀ (fuel : Nat) (ctx : Ctx) (s : CompileData), s.consts = [] →
    (visitor .sample fuel).stmts ctx [endlessStmt] s = .error .outOfFuel
  | 0, _, _, _ => rfl
  | 1, _, _, _ => rfl
  | fuel + 2, ctx, s, hs => by
    obtain ⟨next, consts, excTbl, excTail, tryList, outerDepths⟩ := s
    subst hs
    have htry : ∀ s, (visitor .sample (fuel + 1)).stmts
        { ctx with labelWhile := some (⟨next⟩, ⟨next + 1⟩) }
        [.finally_ 2 [.break_ 3 []] [.break_ 5 []]] s = .error .outOfFuel := by
      intro s
      refine Emission.bind_eq_error.2 (.inl (bind_error rfl (Emission.bind_eq_error.2 (.inl ?_))))
      refine bind_error rfl (bind_error rfl (bind_error rfl (bind_error rfl (bind_error rfl
        (bind_error rfl (bind_error rfl (Emission.bind_eq_error.2 (.inl ?_))))))))
      exact visit_break_stuck .sample _ ctx.finallyList fuel _ 3 _ rfl rfl
    refine Emission.bind_eq_error.2 (.inl (bind_error rfl (Emission.bind_eq_error.2 (.inl ?_))))
    refine bind_error rfl (bind_error rfl (bind_error rfl (bind_error rfl (bind_error rfl
      (Emission.bind_eq_error.2 (.inl ?_))))))
    exact htry _

theorem package_endless :
    ¬ ∀ (env : YogEnv) (filename : String) (stmts : List Stmt) (interactive : Bool),
      Ends env filename stmts interactive := by
  intro h
  obtain ⟨fuel, hfuel⟩ := h .sample "a.yog" [endlessStmt] false
  have hbody : ∀ ctx, compileBody .sample (visitor .sample fuel) ctx [] [endlessStmt] (.new [])
      = .error .outOfFuel := fun ctx =>
    bind_error rfl (bind_error rfl (bind_error rfl (visit_endless_stuck fuel ctx _ rfl)))
  obtain ⟨tbl, htbl⟩ := Except.exists_of_toBool
    (x := makeVarTableOfFunc .sample (some "a.yog") .pkg [] [endlessStmt]) (by decide +kernel)
  refine hfuel ?_
  simp [compilePackage, compileStmts, htbl, hbody, bind, Except.bind]

end Yog
