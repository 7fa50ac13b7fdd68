import Yog.Proofs.Program

/-!
# The line table

An instruction has the line of the node it is emitted for (`lines_visitor`). The rows of the table
join instructions of one line that follow each other, and where two rows touch, the end of the one
is the start of the other. The program counter of a frame is already behind the instruction it
executes, so that the row it ends in is the first one found (`lineno_found`). It is the line the
node starts on if the parser has read that (`lineno_found_iff`).
-/

namespace Yog

open Emission (Emits Composes each)

mutual

/-- The lines of the nodes of an expression that are compiled in the body it stands in. -/
def linesExpr : Expr → List Lineno
  | .array n elems | .set n elems => n :: linesExprs elems
  | .assign n left right | .binop n _ left right | .logicalAnd n left right
  | .logicalOr n left right | .subscript n left right => n :: (linesExpr left ++ linesExpr right)
  | .attr n e _ | .not n e => n :: linesExpr e
  | .conditional n test trueExpr falseExpr =>
    n :: (linesExpr test ++ linesExpr trueExpr ++ linesExpr falseExpr)
  | .dict n elems => n :: linesDictElems elems
  | .funcCall n callee args blockarg =>
    n :: (linesExpr callee ++ linesArgs args ++ linesBlock? blockarg)
  | .literal n _ | .super n | .variable n _ => [n]

def linesExprs : List Expr → List Lineno
  | [] => []
  | e :: es => linesExpr e ++ linesExprs es

def linesExpr? : Option Expr → List Lineno
  | none => []
  | some e => linesExpr e

def linesDictElems : List DictElem → List Lineno
  | [] => []
  | .mk key value :: es => linesExpr key ++ linesExpr value ++ linesDictElems es

def linesKwArgs : List KwArg → List Lineno
  | [] => []
  | .mk n _ value :: as => n :: (linesExpr value ++ linesKwArgs as)

def linesArgs : Args → List Lineno
  | .mk posargs kwargs vararg varkwarg andBlock =>
    linesExprs posargs ++ linesKwArgs kwargs ++ linesExpr? vararg ++ linesExpr? varkwarg
      ++ linesExpr? andBlock

def linesBlock? : Option BlockArg → List Lineno
  | none => []
  | some (.mk n _ _) => [n]

def linesExcepts : List ExceptBody → List Lineno
  | [] => []
  | .mk n types _ stmts :: es => n :: (linesExprs types ++ linesStmts stmts ++ linesExcepts es)

def linesStmt : Stmt → List Lineno
  | .expr e => linesExpr e
  | .break_ n exprs | .next n exprs | .return_ n exprs => n :: linesExprs exprs
  | .klass n decorators _ super _ => n :: (linesExprs decorators ++ linesExpr? super)
  | .except n head excepts else_ =>
    n :: (linesStmts head ++ linesExcepts excepts ++ linesStmts else_)
  | .finally_ n head body => n :: (linesStmts head ++ linesStmts body)
  | .from_ n _ _ _ _ | .import_ n _ _ _ | .module_ n _ _ | .nonlocal n _ => [n]
  | .funcDef n decorators _ _ _ => n :: linesExprs decorators
  | .if_ n test stmts tail => n :: (linesExpr test ++ linesStmts stmts ++ linesStmts tail)
  | .multiAssign n left middle right rhs rhsRest =>
    n :: (linesExprs left ++ linesExpr? middle ++ linesExprs right ++ linesExpr rhs
      ++ linesExprs rhsRest)
  | .raise n expr => n :: linesExpr? expr
  | .while_ n test stmts => n :: (linesExpr test ++ linesStmts stmts)

def linesStmts : List Stmt → List Lineno
  | [] => []
  | s :: ss => linesStmt s ++ linesStmts ss

end

/-- The lines of the parameters with a default, and of what the defaults are. -/
def linesParams : List Param → List Lineno
  | [] => []
  | .mk _ n _ default_ :: ps => n :: (linesExpr? default_ ++ linesParams ps)

section Lines

variable {S : List Lineno}

theorem linesExpr_subset {es : List Expr} (h : linesExprs es ⊆ S) : ∀ e ∈ es, linesExpr e ⊆ S := by
  induction es with
  | nil => simp
  | cons e es ih =>
    rw [linesExprs, List.append_subset] at h
    exact List.forall_mem_cons.2 ⟨h.1, ih h.2⟩

theorem linesStmt_subset {ss : List Stmt} (h : linesStmts ss ⊆ S) : ∀ s ∈ ss, linesStmt s ⊆ S := by
  induction ss with
  | nil => simp
  | cons s ss ih =>
    rw [linesStmts, List.append_subset] at h
    exact List.forall_mem_cons.2 ⟨h.1, ih h.2⟩

theorem linesExpr?_subset {e : Option Expr} (h : linesExpr? e ⊆ S) :
    ∀ e' ∈ e.toList, linesExpr e' ⊆ S := by
  cases e with
  | none => simp
  | some e => simpa [linesExpr?] using h

theorem lineno_mem_linesExpr (e : Expr) : e.lineno ∈ linesExpr e := by
  cases e <;> simp [Expr.lineno, linesExpr]

theorem lineno_mem_linesStmt (s : Stmt) : s.lineno ∈ linesStmt s := by
  cases s with
  | expr e => exact lineno_mem_linesExpr e
  | _ => simp [Stmt.lineno, linesStmt]

theorem lastLineno_mem {ss : List Stmt} {n : Lineno} (h : linesStmts ss ⊆ S) (hn : n ∈ S) :
    lastLineno ss n ∈ S := by
  unfold lastLineno
  rcases hlast : ss.getLast? with _ | s
  · exact hn
  · exact linesStmt_subset h s (List.mem_of_getLast? hlast) (lineno_mem_linesStmt s)

def Inst.lineno? : Inst → Option Lineno
  | .op n _ => some n
  | _ => none

/-- Everything emitted has one of these lines. -/
def LinesIn (S : List Lineno) (_ : CompileData) (l : List Inst) (_ : CompileData) : Prop :=
  ∀ i ∈ l, ∀ n ∈ i.lineno?, n ∈ S

theorem linesIn_composes : Composes (LinesIn S) where
  nil _ := by simp [LinesIn]
  append h₁ h₂ i hi := (List.mem_append.1 hi).elim (h₁ i) (h₂ i)

theorem lines_bind {α β : Type} {x : Compile α} {f : α → Compile β} (hx : Emits (LinesIn S) x)
    (hf : ∀ a, Emits (LinesIn S) (f a)) : Emits (LinesIn S) (x >>= f) :=
  Emits.bind linesIn_composes hx hf

theorem lines_pure {α : Type} (a : α) : Emits (LinesIn S) (pure a : Compile α) :=
  Emits.pure linesIn_composes a

theorem lines_each {α : Type} {f : α → Compile Unit} (as : List α)
    (hf : ∀ a ∈ as, Emits (LinesIn S) (f a)) : Emits (LinesIn S) (each f as) :=
  Emits.each linesIn_composes as hf

theorem lines_op {n : Lineno} {op : Op Label} (hn : n ∈ S) : Emits (LinesIn S) (addOp n op) := by
  intro s a l s' h i hi m hm
  obtain ⟨rfl, -⟩ := Emission.emit_eq_ok.1 h
  obtain rfl := List.mem_singleton.1 hi
  obtain rfl := Option.mem_some_iff.1 hm
  exact hn

theorem lines_label {L : Label} : Emits (LinesIn S) (addLabel L) := by
  intro s a l s' h i hi m hm
  obtain ⟨rfl, -⟩ := Emission.emit_eq_ok.1 h
  obtain rfl := List.mem_singleton.1 hi
  cases hm

theorem lines_note {n : Note} : Emits (LinesIn S) (addNote n) := by
  intro s a l s' h i hi m hm
  obtain ⟨rfl, -⟩ := Emission.emit_eq_ok.1 h
  obtain rfl := List.mem_singleton.1 hi
  cases hm

/-- What emits nothing has no lines. -/
theorem lines_silent {α : Type} {x : Compile α}
    (h : ∀ {s a l s'}, x s = .ok (a, l, s') → l = []) : Emits (LinesIn S) x := by
  intro s a l s' hx i hi
  rw [h hx] at hi
  simp at hi

theorem lines_newLabel : Emits (LinesIn S) newLabel :=
  lines_silent fun h => (newLabel_eq_ok.1 h).2.1

variable {env : YogEnv}

theorem lines_registerConst {c : Const} : Emits (LinesIn S) (registerConst env c) :=
  lines_silent fun h => (registerConst_eq_ok h).1

theorem lines_pushTry {node : Label} {e : ExceptionTableEntry Label} :
    Emits (LinesIn S) (pushTry node e) :=
  lines_silent fun h => (Emission.modify_eq_ok.1 h).1

theorem lines_popTry : Emits (LinesIn S) popTry :=
  lines_silent fun h => (Emission.modify_eq_ok.1 h).1

theorem lines_splitTries {node from_ to_ : Label} : Emits (LinesIn S) (splitTries node from_ to_) :=
  lines_silent fun h => by
    obtain ⟨_, -, rfl, -⟩ := splitTries_eq_ok.1 h
    rfl

theorem lines_compileInner {v : Visitor} {vars : Except CompileError Scope} {ctx : Ctx}
    {className funcName : ID} {params : List Param} {stmts : List Stmt}
    {info : Except CompileError (Option ArgInfo)} :
    Emits (LinesIn S) (compileInner env v vars ctx className funcName params stmts info) :=
  lines_silent fun h => by
    obtain ⟨_, _, _, _, -, -, -, -, rfl, -⟩ := compileInner_eq_ok h
    rfl

theorem lines_addPushConst {c : Const} {n : Lineno} (hn : n ∈ S) :
    Emits (LinesIn S) (addPushConst env c n) :=
  lines_bind lines_registerConst fun _ => lines_op hn

theorem lines_addOpOf {n : Lineno} (hn : n ∈ S) :
    ∀ x : Except CompileError (Op Label), Emits (LinesIn S) (addOpOf n x)
  | .ok _ => lines_op hn
  | .error _ => Emits.fail _

theorem lines_appendStore {ctx : Ctx} {n : Lineno} {name : ID} (hn : n ∈ S) :
    Emits (LinesIn S) (appendStore env ctx n name) := by
  unfold appendStore
  split
  · split
    · exact lines_addOpOf hn _
    · exact Emits.fail _
  · exact lines_op hn

theorem lines_compileVisitVariable {ctx : Ctx} {n : Lineno} {id : ID} (hn : n ∈ S) :
    Emits (LinesIn S) (compileVisitVariable ctx n id) := by
  unfold compileVisitVariable
  split
  · split
    · exact lines_addOpOf hn _
    · exact Emits.fail _
  · exact lines_op hn

/-- The visits emit only lines of what is visited, and of the `finally` bodies they may copy. -/
structure EmitsLines (S : List Lineno) (v : Visitor) : Prop where
  node : ∀ ctx e, linesExpr e ⊆ S → Emits (LinesIn S) (v.node ctx e)
  stmts : ∀ ctx ss, linesStmts ss ⊆ S → (∀ f ∈ ctx.finallyList, linesStmts f.body ⊆ S) →
    Emits (LinesIn S) (v.stmts ctx ss)

namespace EmitsLines

variable {v : Visitor} (hv : EmitsLines S v) {ctx : Ctx}
include hv

theorem nodes {es : List Expr} (h : linesExprs es ⊆ S) : Emits (LinesIn S) (each (v.node ctx) es) :=
  lines_each _ fun e he => hv.node ctx e (linesExpr_subset h e he)

theorem nodes_reverse {es : List Expr} (h : linesExprs es ⊆ S) :
    Emits (LinesIn S) (each (v.node ctx) es.reverse) :=
  lines_each _ fun e he => hv.node ctx e (linesExpr_subset h e (List.mem_reverse.1 he))

theorem node? {e : Option Expr} (h : linesExpr? e ⊆ S) :
    Emits (LinesIn S) (each (v.node ctx) e.toList) :=
  lines_each _ fun e' he => hv.node ctx e' (linesExpr?_subset h e' he)

theorem compileAssign {e : Expr} (h : linesExpr e ⊆ S) :
    Emits (LinesIn S) (compileAssign env v ctx e) := by
  unfold Yog.compileAssign
  split
  · exact lines_appendStore (h (by simp [linesExpr]))
  · simp only [linesExpr, List.cons_subset, List.append_subset] at h
    exact lines_bind (hv.node _ _ h.2.2) fun _ => lines_bind (hv.node _ _ h.2.1) fun _ =>
      lines_bind (lines_op h.1) fun _ => lines_op h.1
  · simp only [linesExpr, List.cons_subset] at h
    exact lines_bind (hv.node _ _ h.2) fun _ => lines_op h.1
  · split
    · exact Emits.fail _
    · exact Emits.fail _

theorem compileVisitAssign {n : Lineno} {left right : Expr}
    (h : linesExpr (.assign n left right) ⊆ S) :
    Emits (LinesIn S) (compileVisitAssign env v ctx n left right) := by
  simp only [linesExpr, List.cons_subset, List.append_subset] at h
  refine lines_bind (hv.node _ _ h.2.2) fun _ => lines_bind ?_ fun _ => hv.compileAssign h.2.1
  unfold addDupFor
  split
  · exact lines_op h.1
  · exact lines_op h.1
  · exact lines_pure _

theorem compileCallFunc {n : Lineno} {left middle right : Nat} {callee : Expr} {args : Args}
    {blockarg : Option BlockArg} (h : linesExpr (.funcCall n callee args blockarg) ⊆ S) :
    Emits (LinesIn S) (compileCallFunc env v ctx n callee args blockarg left middle right) := by
  obtain ⟨posargs, kwargs, vararg, varkwarg, andBlock⟩ := args
  simp only [linesExpr, linesArgs, List.cons_subset, List.append_subset] at h
  obtain ⟨hn, ⟨hcallee, ⟨⟨⟨hpos, hkw⟩, hvar⟩, hvarkw⟩, hand⟩, hblock⟩ := h
  have hblocks : ∀ b ∈ blockarg.toList, Emits (LinesIn S) (compileVisitBlock env v ctx b) := by
    intro b hb
    obtain rfl := Option.mem_toList.1 hb
    obtain ⟨m, params, stmts⟩ := b
    have hm : m ∈ S := hblock (by simp [linesBlock?])
    exact lines_bind lines_compileInner fun _ => lines_bind (lines_addPushConst hm) fun _ => lines_op hm
  have hkws : ∀ a ∈ kwargs, Emits (LinesIn S) (compileKwArg env v ctx a) := by
    clear hpos hvar hvarkw hand hblock hblocks hcallee
    induction kwargs with
    | nil => simp
    | cons a as ih =>
      obtain ⟨m, name, value⟩ := a
      simp only [linesKwArgs, List.cons_subset, List.append_subset] at hkw
      exact List.forall_mem_cons.2 ⟨lines_bind (hv.node _ _ hkw.2.1) fun _ =>
        lines_addPushConst hkw.1, ih hkw.2.2⟩
  refine lines_bind (lines_each _ hblocks) fun _ => ?_
  split
  · exact Emits.fail _
  · exact lines_bind (hv.node? hand) fun _ => lines_bind (hv.node? hvarkw) fun _ =>
      lines_bind (hv.node? hvar) fun _ =>
      lines_bind (lines_each _ fun a ha => hkws a (List.mem_reverse.1 ha)) fun _ =>
      lines_bind (hv.nodes_reverse hpos) fun _ => lines_bind (hv.node _ _ hcallee) fun _ =>
      lines_bind lines_newLabel fun _ => lines_bind lines_newLabel fun _ =>
      lines_bind lines_label fun _ => lines_bind (lines_op hn) fun _ => lines_label

omit hv in
theorem compileVisitLiteral {n : Lineno} {val : Val} (hn : n ∈ S) :
    Emits (LinesIn S) (compileVisitLiteral env n val) := by
  unfold Yog.compileVisitLiteral
  split
  · exact lines_bind lines_registerConst fun _ => lines_op hn
  · exact lines_addPushConst hn

theorem dictElems {elems : List DictElem} (h : linesDictElems elems ⊆ S) :
    Emits (LinesIn S) (each (fun elem : DictElem => do
      v.node ctx elem.key
      v.node ctx elem.value) elems) := by
  induction elems with
  | nil => exact lines_pure _
  | cons elem elems ih =>
    obtain ⟨key, value⟩ := elem
    simp only [linesDictElems, List.append_subset] at h
    exact lines_bind (lines_bind (hv.node _ _ h.1.1) fun _ => hv.node _ _ h.1.2) fun _ => ih h.2

theorem compileVisitExpr : ∀ e, linesExpr e ⊆ S → Emits (LinesIn S) (compileVisitExpr env v ctx e)
  | .funcCall .., h => hv.compileCallFunc h
  | .assign .., h => hv.compileVisitAssign h
  | .variable .., h => lines_compileVisitVariable (h (by simp [linesExpr]))
  | .literal .., h => compileVisitLiteral (h (by simp [linesExpr]))
  | .super _, h => lines_op (h (by simp [linesExpr]))
  | .array n elems, h | .set n elems, h => by
    simp only [linesExpr, List.cons_subset] at h
    exact lines_bind (hv.nodes h.2) fun _ => lines_op h.1
  | .dict n elems, h => by
    simp only [linesExpr, List.cons_subset] at h
    exact lines_bind (hv.dictElems h.2) fun _ => lines_op h.1
  | .attr n e _, h | .not n e, h => by
    simp only [linesExpr, List.cons_subset] at h
    exact lines_bind (hv.node _ _ h.2) fun _ => lines_op h.1
  | .binop n _ left right, h | .subscript n left right, h => by
    simp only [linesExpr, List.cons_subset, List.append_subset] at h
    exact lines_bind (hv.node _ _ h.2.1) fun _ => lines_bind (hv.node _ _ h.2.2) fun _ => lines_op h.1
  | .conditional n test trueExpr falseExpr, h => by
    simp only [linesExpr, List.cons_subset, List.append_subset] at h
    obtain ⟨hn, ⟨htest, htrue⟩, hfalse⟩ := h
    exact lines_bind lines_newLabel fun _ => lines_bind lines_newLabel fun _ =>
      lines_bind (hv.node _ _ htest) fun _ => lines_bind (lines_op hn) fun _ =>
      lines_bind (hv.node _ _ htrue) fun _ => lines_bind (lines_op hn) fun _ =>
      lines_bind lines_label fun _ => lines_bind (hv.node _ _ hfalse) fun _ => lines_label
  | .logicalAnd n left right, h | .logicalOr n left right, h => by
    simp only [linesExpr, List.cons_subset, List.append_subset] at h
    exact lines_bind (hv.node _ _ h.2.1) fun _ => lines_bind lines_newLabel fun _ =>
      lines_bind (lines_op h.1) fun _ => lines_bind (lines_op h.1) fun _ =>
      lines_bind (lines_op h.1) fun _ => lines_bind (hv.node _ _ h.2.2) fun _ => lines_label

theorem compileVisitMultiAssign {n : Lineno} {left right : List Expr} {middle : Option Expr}
    {rhs : Expr} {rhsRest : List Expr}
    (h : linesStmt (.multiAssign n left middle right rhs rhsRest) ⊆ S) :
    Emits (LinesIn S) (compileVisitMultiAssign env v ctx left middle right rhs rhsRest) := by
  simp only [linesStmt, List.cons_subset, List.append_subset] at h
  obtain ⟨-, ⟨⟨⟨hleft, hmiddle⟩, hright⟩, hrhs⟩, hrest⟩ := h
  have hassign : ∀ {es : List Expr}, linesExprs es ⊆ S →
      Emits (LinesIn S) (each (Yog.compileAssign env v ctx) es.reverse) := fun hes =>
    lines_each _ fun e he => hv.compileAssign (linesExpr_subset hes e (List.mem_reverse.1 he))
  refine lines_bind ?_ fun _ => lines_bind (hassign hright) fun _ =>
    lines_bind (lines_each _ fun e he => hv.compileAssign (linesExpr?_subset hmiddle e he)) fun _ =>
    hassign hleft
  unfold compileMultiAssignRhs
  split
  · exact hv.compileCallFunc hrhs
  · have hall : ∀ e ∈ rhs :: rhsRest, linesExpr e ⊆ S :=
      List.forall_mem_cons.2 ⟨hrhs, linesExpr_subset hrest⟩
    unfold compileMultiAssignExprs
    split
    · exact Emits.fail _
    · exact lines_bind (lines_each _ fun e he => hv.node _ _ (hall e (List.mem_of_mem_take he)))
        fun _ => lines_bind (lines_each _ fun e he =>
          lines_op (linesExpr?_subset hmiddle e he (lineno_mem_linesExpr e))) fun _ =>
        lines_each _ fun e he => hv.node _ _ (hall e (List.mem_of_mem_drop he))

omit hv in
theorem addRaiseLastException {n : Lineno} (hn : n ∈ S) :
    Emits (LinesIn S) (addRaiseLastException env n) :=
  lines_bind (lines_op hn) fun _ => lines_bind (lines_op hn) fun _ => lines_op hn

theorem compileVisitFinally {n : Lineno} {head body : List Stmt}
    (h : linesStmt (.finally_ n head body) ⊆ S)
    (hf : ∀ f ∈ ctx.finallyList, linesStmts f.body ⊆ S) :
    Emits (LinesIn S) (compileVisitFinally env v ctx n head body) := by
  simp only [linesStmt, List.cons_subset, List.append_subset] at h
  obtain ⟨hn, hhead, hbody⟩ := h
  have hf' : ∀ L, ∀ f ∈ (⟨L, body⟩ :: ctx.finallyList : List FinallyListEntry),
      linesStmts f.body ⊆ S := fun L => List.forall_mem_cons.2 ⟨hbody, hf⟩
  exact lines_bind lines_newLabel fun L => lines_bind lines_newLabel fun _ =>
    lines_bind lines_newLabel fun _ => lines_bind lines_newLabel fun _ =>
    lines_bind lines_pushTry fun _ => lines_bind lines_label fun _ => lines_bind lines_note fun _ =>
    lines_bind (hv.stmts _ _ hhead (hf' L)) fun _ => lines_bind lines_note fun _ =>
    lines_bind lines_label fun _ => lines_bind (hv.stmts _ _ hbody (hf' L)) fun _ =>
    lines_bind (lines_op (lastLineno_mem hbody hn)) fun _ => lines_bind lines_label fun _ =>
    lines_bind (hv.stmts _ _ hbody (hf' L)) fun _ => lines_bind (addRaiseLastException hn) fun _ =>
    lines_bind lines_label fun _ => lines_popTry

theorem compileExcept {L : Label} {n : Lineno} {types : List Expr} {var : Option ID} {ss : List Stmt}
    (hn : n ∈ S) (htypes : linesExprs types ⊆ S) (hss : linesStmts ss ⊆ S)
    (hf : ∀ f ∈ ctx.finallyList, linesStmts f.body ⊆ S) :
    Emits (LinesIn S) (compileExcept env v ctx L (.mk n types var ss)) := by
  have hline : ∀ e ∈ types, e.lineno ∈ S := fun e he =>
    linesExpr_subset htypes e he (lineno_mem_linesExpr e)
  exact lines_bind lines_newLabel fun _ => lines_bind lines_newLabel fun _ =>
    lines_bind (lines_each _ fun e he => lines_bind (lines_op (hline e he)) fun _ =>
      lines_bind (hv.node _ _ (linesExpr_subset htypes e he)) fun _ =>
      lines_bind (lines_op (hline e he)) fun _ => lines_op (hline e he)) fun _ =>
    lines_bind (lines_each _ fun e he => lines_op (hline e (by
      rw [Option.mem_toList] at he
      exact List.mem_of_getLast? he))) fun _ =>
    lines_bind lines_label fun _ =>
    lines_bind (lines_each _ fun _ _ => lines_bind (lines_op hn) fun _ => lines_appendStore hn)
      fun _ => lines_bind (hv.stmts _ _ hss hf) fun _ =>
    lines_bind (lines_op (lastLineno_mem hss hn)) fun _ => lines_label

theorem compileVisitExcept {n : Lineno} {head else_ : List Stmt} {excepts : List ExceptBody}
    (h : linesStmt (.except n head excepts else_) ⊆ S)
    (hf : ∀ f ∈ ctx.finallyList, linesStmts f.body ⊆ S) :
    Emits (LinesIn S) (compileVisitExcept env v ctx n head excepts else_) := by
  simp only [linesStmt, List.cons_subset, List.append_subset] at h
  obtain ⟨hn, ⟨hhead, hexcepts⟩, helse⟩ := h
  have hbodies : ∀ L, Emits (LinesIn S) (each (Yog.compileExcept env v ctx L) excepts) := by
    intro L
    induction excepts with
    | nil => exact lines_pure _
    | cons e es ih =>
      obtain ⟨m, types, var, ss⟩ := e
      simp only [linesExcepts, List.cons_subset, List.append_subset] at hexcepts
      exact lines_bind (hv.compileExcept hexcepts.1 hexcepts.2.1.1 hexcepts.2.1.2 hf) fun _ =>
        ih hexcepts.2.2
  exact lines_bind lines_newLabel fun _ => lines_bind lines_newLabel fun _ =>
    lines_bind lines_newLabel fun _ => lines_bind lines_newLabel fun _ =>
    lines_bind lines_newLabel fun _ => lines_bind lines_pushTry fun _ =>
    lines_bind lines_label fun _ => lines_bind lines_note fun _ =>
    lines_bind (hv.stmts _ _ hhead hf) fun _ => lines_bind lines_note fun _ =>
    lines_bind lines_label fun _ => lines_bind (lines_op (lastLineno_mem hhead hn)) fun _ =>
    lines_bind lines_label fun _ => lines_bind (hbodies _) fun _ =>
    lines_bind (addRaiseLastException hn) fun _ => lines_bind lines_label fun _ =>
    lines_bind (hv.stmts _ _ helse hf) fun _ => lines_bind lines_label fun _ => lines_popTry

theorem compileVisitWhile {n : Lineno} {test : Expr} {ss : List Stmt}
    (h : linesStmt (.while_ n test ss) ⊆ S) (hf : ∀ f ∈ ctx.finallyList, linesStmts f.body ⊆ S) :
    Emits (LinesIn S) (compileVisitWhile v ctx n test ss) := by
  simp only [linesStmt, List.cons_subset, List.append_subset] at h
  obtain ⟨hn, htest, hss⟩ := h
  exact lines_bind lines_newLabel fun _ => lines_bind lines_newLabel fun _ =>
    lines_bind lines_label fun _ => lines_bind (hv.node _ _ htest) fun _ =>
    lines_bind (lines_op (htest (lineno_mem_linesExpr _))) fun _ =>
    lines_bind (hv.stmts _ _ hss hf) fun _ => lines_bind (lines_op (lastLineno_mem hss hn)) fun _ =>
    lines_label

theorem compileVisitIf {n : Lineno} {test : Expr} {ss tail : List Stmt}
    (h : linesStmt (.if_ n test ss tail) ⊆ S) (hf : ∀ f ∈ ctx.finallyList, linesStmts f.body ⊆ S) :
    Emits (LinesIn S) (compileVisitIf v ctx test ss tail) := by
  simp only [linesStmt, List.cons_subset, List.append_subset] at h
  obtain ⟨-, ⟨htest, hss⟩, htail⟩ := h
  have hline : test.lineno ∈ S := htest (lineno_mem_linesExpr _)
  exact lines_bind lines_newLabel fun _ => lines_bind lines_newLabel fun _ =>
    lines_bind (hv.node _ _ htest) fun _ => lines_bind (lines_op hline) fun _ =>
    lines_bind (hv.stmts _ _ hss hf) fun _ =>
    lines_bind (lines_op (lastLineno_mem hss hline)) fun _ => lines_bind lines_label fun _ =>
    lines_bind (hv.stmts _ _ htail hf) fun _ => lines_label

theorem compileWhileJump {n : Lineno} {L : Label} (hn : n ∈ S)
    (hf : ∀ f ∈ ctx.finallyList, linesStmts f.body ⊆ S) :
    Emits (LinesIn S) (compileWhileJump v ctx n L) :=
  lines_bind (lines_each _ fun f hmem => lines_bind lines_newLabel fun _ =>
    lines_bind lines_newLabel fun _ => lines_bind lines_label fun _ => lines_bind lines_note fun _ =>
    lines_bind (hv.stmts _ _ (hf f hmem) hf) fun _ => lines_bind lines_note fun _ =>
    lines_bind lines_label fun _ => lines_splitTries) fun _ => lines_op hn

theorem visitArrayElementsOppositeOrder {es : List Expr} (h : linesExprs es ⊆ S) :
    Emits (LinesIn S) (visitArrayElementsOppositeOrder v ctx es) := by
  unfold Yog.visitArrayElementsOppositeOrder
  split
  · exact hv.nodes_reverse h
  · exact Emits.fail _

theorem compileDecoratorsCall {es : List Expr} (h : linesExprs es ⊆ S) :
    Emits (LinesIn S) (compileDecoratorsCall v ctx es) :=
  lines_each _ fun e he => lines_bind (hv.node _ _ (linesExpr_subset h e he)) fun _ =>
    lines_op (linesExpr_subset h e he (lineno_mem_linesExpr e))

theorem compileVisitClass {n : Lineno} {decorators : List Expr} {name : ID} {super : Option Expr}
    {ss : List Stmt} (h : linesStmt (.klass n decorators name super ss) ⊆ S) :
    Emits (LinesIn S) (compileVisitClass env v ctx n decorators name super ss) := by
  simp only [linesStmt, List.cons_subset, List.append_subset] at h
  obtain ⟨hn, hdecorators, hsuper⟩ := h
  have hs : Emits (LinesIn S) (compileSuper env v ctx n super) := by
    cases super with
    | none => exact lines_addPushConst hn
    | some super => exact hv.node _ _ hsuper
  exact lines_bind (lines_addPushConst hn) fun _ => lines_bind hs fun _ =>
    lines_bind lines_compileInner fun _ => lines_bind (lines_addPushConst hn) fun _ =>
    lines_bind (lines_op hn) fun _ => lines_bind (lines_op hn) fun _ =>
    lines_bind (hv.compileDecoratorsCall hdecorators) fun _ => lines_appendStore hn

omit hv in
theorem compileImport {n : Lineno} {name : ID} {rest : List ID} (hn : n ∈ S) :
    Emits (LinesIn S) (compileImport env n name rest) :=
  lines_bind (lines_addPushConst hn) fun _ => lines_bind (lines_op hn) fun _ => lines_op hn

omit hv in
theorem compileLoadPkgAttr {n : Lineno} {rest : List ID} (hn : n ∈ S) :
    Emits (LinesIn S) (compileLoadPkgAttr n rest) :=
  lines_each _ fun _ _ => lines_op hn

omit hv in
theorem compileStorePkgAttr {n : Lineno} {attr : ImportedAttr} (hn : n ∈ S) :
    Emits (LinesIn S) (compileStorePkgAttr env ctx n attr) :=
  lines_bind (lines_op hn) fun _ => lines_appendStore hn

theorem compileVisitStmt {s : Stmt} (h : linesStmt s ⊆ S)
    (hf : ∀ f ∈ ctx.finallyList, linesStmts f.body ⊆ S) :
    Emits (LinesIn S) (compileVisitStmt env v ctx s) := by
  unfold Yog.compileVisitStmt
  split
  · exact hv.compileCallFunc h
  · exact hv.node _ _ h
  · simp only [linesStmt, List.cons_subset] at h
    unfold compileVisitBreak
    split
    · exact hv.compileWhileJump h.1 hf
    · exact lines_bind (hv.visitArrayElementsOppositeOrder h.2) fun _ => lines_op h.1
  · exact hv.compileVisitClass h
  · exact hv.compileVisitExcept h hf
  · exact hv.compileVisitFinally h hf
  · have hn : _ ∈ S := h (List.mem_singleton_self _)
    exact lines_bind (compileImport hn) fun _ => lines_bind (compileLoadPkgAttr hn) fun _ =>
      lines_bind (lines_each _ fun _ _ => lines_bind (lines_op hn) fun _ => compileStorePkgAttr hn)
        fun _ => compileStorePkgAttr hn
  · simp only [linesStmt, List.cons_subset] at h
    exact lines_bind lines_compileInner fun _ => lines_bind (lines_addPushConst h.1) fun _ =>
      lines_bind (lines_op h.1) fun _ => lines_bind (hv.compileDecoratorsCall h.2) fun _ =>
      lines_appendStore h.1
  · exact hv.compileVisitIf h hf
  · have hn : _ ∈ S := h (List.mem_singleton_self _)
    refine lines_bind (compileImport hn) fun _ => ?_
    split
    · exact lines_appendStore hn
    · exact lines_bind (compileLoadPkgAttr hn) fun _ => lines_appendStore hn
  · have hn : _ ∈ S := h (List.mem_singleton_self _)
    exact lines_bind lines_compileInner fun _ => lines_bind (lines_addPushConst hn) fun _ =>
      lines_bind (lines_op hn) fun _ => lines_bind (lines_op hn) fun _ => lines_appendStore hn
  · exact hv.compileVisitMultiAssign h
  · simp only [linesStmt, List.cons_subset] at h
    unfold compileVisitNext
    split
    · exact hv.compileWhileJump h.1 hf
    · split
      · exact lines_bind (lines_addPushConst h.1) fun _ => lines_op h.1
      · exact lines_bind (hv.visitArrayElementsOppositeOrder h.2) fun _ => lines_op h.1
  · exact lines_pure _
  · simp only [linesStmt, List.cons_subset] at h
    unfold compileVisitRaise
    split
    · exact addRaiseLastException h.1
    · exact lines_bind (hv.node _ _ h.2) fun _ => lines_bind (lines_op h.1) fun _ => lines_op h.1
  · simp only [linesStmt, List.cons_subset] at h
    exact lines_bind (hv.visitArrayElementsOppositeOrder h.2) fun _ => lines_op h.1
  · exact hv.compileVisitWhile h hf

omit hv in
theorem processStackTop {s : Stmt} (h : linesStmt s ⊆ S) :
    Emits (LinesIn S) (processStackTop ctx s) := by
  unfold Yog.processStackTop
  split
  · exact lines_op (h (lineno_mem_linesStmt s))
  · split
    · split
      · exact lines_op (h (lineno_mem_linesStmt (.expr (.funcCall _ _ _ _))))
      · exact lines_pure _
    · exact lines_pure _

theorem compileVisitStmts {ss : List Stmt} (h : linesStmts ss ⊆ S)
    (hf : ∀ f ∈ ctx.finallyList, linesStmts f.body ⊆ S) :
    Emits (LinesIn S) (compileVisitStmts env v ctx ss) :=
  lines_each _ fun s hs => lines_bind lines_note fun _ =>
    lines_bind (hv.compileVisitStmt (linesStmt_subset h s hs) hf) fun _ =>
    lines_bind (processStackTop (linesStmt_subset h s hs)) fun _ => lines_note

end EmitsLines

/-- Every visit emits only lines of what is visited, and of the `finally` bodies it may copy. -/
theorem lines_visitor : ∀ fuel, EmitsLines S (visitor env fuel)
  | 0 => ⟨fun _ _ _ => Emits.fail _, fun _ _ _ _ => Emits.fail _⟩
  | fuel + 1 =>
    ⟨fun _ e h => (lines_visitor fuel).compileVisitExpr e h,
      fun _ _ h hf => (lines_visitor fuel).compileVisitStmts h hf⟩

/-- The instructions of a body have lines of its parameters and statements. -/
theorem lines_compileBody {fuel : Nat} {ctx : Ctx} {params : List Param} {ss : List Stmt}
    (hf : ctx.finallyList = []) :
    Emits (LinesIn (linesParams params ++ linesStmts ss))
      (compileBody env (visitor env fuel) ctx params ss) := by
  have hv : EmitsLines (linesParams params ++ linesStmts ss) (visitor env fuel) := lines_visitor fuel
  have hdefaults : ∀ {ps : List Param}, linesParams ps ⊆ linesParams params ++ linesStmts ss →
      Emits (LinesIn (linesParams params ++ linesStmts ss))
        (each (compileDefault env (visitor env fuel) ctx) ps) := by
    intro ps h
    induction ps with
    | nil => exact lines_pure _
    | cons p ps ih =>
      obtain ⟨type, n, name, default_⟩ := p
      simp only [linesParams, List.cons_subset, List.append_subset] at h
      refine lines_bind ?_ fun _ => ih h.2.2
      rcases default_ with _ | expr
      · exact lines_pure _
      · simp only [compileDefault]
        split
        · exact lines_bind lines_newLabel fun _ => lines_bind (lines_op h.1) fun _ =>
            lines_bind (hv.node _ _ h.2.1) fun _ => lines_bind (lines_appendStore h.1) fun _ =>
            lines_label
        · exact Emits.fail _
  exact lines_bind lines_newLabel fun _ => lines_bind lines_label fun _ =>
    lines_bind (hdefaults (List.subset_append_left _ _)) fun _ =>
    hv.stmts _ _ (List.subset_append_right _ _) (by simp [hf])

end Lines

section Rows

variable {insts before after : List Inst} {pc line : Nat} {lineno : Lineno} {op : Op Label}
  {row : Option LinenoTableEntry} {tbl : List LinenoTableEntry}

/-- The row that is being filled ends no earlier than where it does now. -/
theorem makeLinenoTableFrom_head {pcFrom : Nat}
    (h : makeLinenoTableFrom insts pc (some ⟨pcFrom, pc, line⟩) = .ok tbl) :
    ∃ pcTo rest, tbl = ⟨pcFrom, pcTo, line⟩ :: rest ∧ pc ≤ pcTo := by
  induction insts generalizing pc with
  | nil =>
    cases h
    exact ⟨pc, [], rfl, le_rfl⟩
  | cons i insts ih =>
    cases i with
    | op n o =>
      simp only [makeLinenoTableFrom] at h
      split at h
      · obtain ⟨tbl', -, h⟩ := Except.bind_eq_ok_iff.1 h
        cases h
        exact ⟨pc, tbl', rfl, le_rfl⟩
      · obtain ⟨pcTo, rest, rfl, hle⟩ := ih h
        exact ⟨pcTo, rest, rfl, (Nat.le_add_right _ _).trans hle⟩
    | label L => exact ih h
    | note n => exact ih h

/-- A row of the line for these bytes, behind rows that end where the bytes start or before. -/
def HasRow (tbl : List LinenoTableEntry) (start end_ line : Nat) : Prop :=
  ∃ earlier row later, tbl = earlier ++ row :: later ∧ row.pcFrom ≤ start ∧ end_ ≤ row.pcTo ∧
    row.lineno = line ∧ ∀ r ∈ earlier, r.pcTo ≤ start

theorem hasRow_makeLinenoTableFrom (hrow : ∀ r ∈ row, r.pcFrom ≤ pc ∧ r.pcTo = pc)
    (h : makeLinenoTableFrom (before ++ .op lineno op :: after) pc row = .ok tbl) :
    HasRow tbl (pc + codeSize before) (pc + codeSize before + op.opcode.instSize) lineno.number := by
  induction before generalizing pc row tbl with
  | nil =>
    simp only [List.nil_append, makeLinenoTableFrom] at h
    split at h
    · obtain ⟨tbl', htbl, h⟩ := Except.bind_eq_ok_iff.1 h
      cases h
      obtain ⟨pcTo, rest, rfl, hle⟩ := makeLinenoTableFrom_head htbl
      exact ⟨row.toList, _, rest, rfl, le_rfl, hle, rfl, fun r hr =>
        (hrow r (Option.mem_toList.1 hr)).2.le⟩
    · rename_i hline
      rcases row with _ | r
      · cases h
      · obtain ⟨pcTo, rest, rfl, hle⟩ := makeLinenoTableFrom_head h
        exact ⟨[], _, rest, rfl, (hrow r rfl).1, hle, (not_not.1 hline).symm, by simp⟩
  | cons i before ih =>
    cases i with
    | op n o =>
      have hpc : pc + codeSize (.op n o :: before) = pc + o.opcode.instSize + codeSize before := by
        rw [codeSize_cons, Nat.add_assoc]
        rfl
      rw [hpc]
      simp only [List.cons_append, makeLinenoTableFrom] at h
      split at h
      · obtain ⟨tbl', htbl, h⟩ := Except.bind_eq_ok_iff.1 h
        cases h
        obtain ⟨earlier, r', later, rfl, hstart, hend, hline, hbefore⟩ := ih (by simp) htbl
        refine ⟨row.toList ++ earlier, r', later, by simp, hstart, hend, hline, fun r hr => ?_⟩
        rcases List.mem_append.1 hr with hr | hr
        · have := (hrow r (Option.mem_toList.1 hr)).2
          omega
        · exact hbefore r hr
      · rcases row with _ | r
        · cases h
        · refine ih (fun r' hr' => ?_) h
          obtain rfl := Option.mem_some_iff.1 hr'
          have := (hrow r rfl).1
          exact ⟨by simp only; omega, rfl⟩
    | label L => simpa [codeSize_cons, Inst.size] using ih hrow h
    | note n => simpa [codeSize_cons, Inst.size] using ih hrow h

theorem lineno_eq_of_countLinenoRows {last : Nat} (h : countLinenoRows insts last = 0) :
    ∀ i ∈ insts, ∀ n ∈ i.lineno?, n.number = last := by
  induction insts with
  | nil => simp
  | cons i insts ih =>
    cases i with
    | op n o =>
      simp only [countLinenoRows] at h
      split at h
      · cases h
      · rename_i hn
        refine List.forall_mem_cons.2 ⟨fun m hm => ?_, ih h⟩
        obtain rfl := Option.mem_some_iff.1 hm
        exact not_not.1 hn
    | label L => exact List.forall_mem_cons.2 ⟨by simp [Inst.lineno?], ih h⟩
    | note n => exact List.forall_mem_cons.2 ⟨by simp [Inst.lineno?], ih h⟩

variable {start end_ : Nat}

/-- The row of the instruction is the first that a program counter behind it is in. -/
theorem HasRow.getLineno (h : HasRow tbl start end_ line) (hlt : start < end_) :
    getLineno tbl end_ = some line := by
  obtain ⟨earlier, row, later, rfl, hstart, hend, rfl, hbefore⟩ := h
  have hfind : (earlier ++ row :: later).find? (fun e => e.pcFrom ≤ end_ ∧ end_ ≤ e.pcTo) =
      some row := by
    refine List.find?_eq_some_iff_append.2 ⟨?_, earlier, later, rfl, fun r hr => ?_⟩
    · simp
      omega
    · have := hbefore r hr
      simp
      omega
  rw [Yog.getLineno, hfind, Option.map_some]

theorem HasRow.traceLineno (h : HasRow tbl start end_ line) (hlt : start < end_)
    (hmax : end_ < 2 ^ 64) : traceLineno tbl end_ = line := by
  obtain ⟨earlier, row, later, rfl, hstart, hend, rfl, hbefore⟩ := h
  have hpc : (end_ + (2 ^ 64 - 1)) % 2 ^ 64 = end_ - 1 := by omega
  have hfind : (earlier ++ row :: later).find?
      (fun e => e.pcFrom ≤ end_ - 1 ∧ end_ - 1 < e.pcTo) = some row := by
    refine List.find?_eq_some_iff_append.2 ⟨?_, earlier, later, rfl, fun r hr => ?_⟩
    · simp
      omega
    · have := hbefore r hr
      simp
      omega
  simp only [Yog.traceLineno, hpc, hfind, Option.map_some, Option.getD_some]

end Rows

theorem mem_lineno?_withRet {insts before after : List Inst} {lineno : Lineno} {op : Op Label}
    (h : withRet insts = before ++ .op lineno op :: after) :
    (∃ i ∈ insts, lineno ∈ i.lineno?) ∨ op = .ret 0 ∧ after = [] := by
  unfold withRet at h
  split at h
  · exact .inl ⟨.op lineno op, by simp [h], rfl⟩
  · rcases List.eq_nil_or_concat after with rfl | ⟨after, i, rfl⟩
    · right
      have heq := (List.append_inj' h rfl).2
      simp only [List.cons.injEq, Inst.op.injEq, and_true] at heq
      exact ⟨heq.2.symm, rfl⟩
    · left
      have h' : insts ++ [.op (lastInstLineno insts) (.ret 0)] =
          (before ++ .op lineno op :: after) ++ [i] := by simpa using h
      obtain ⟨rfl, -⟩ := List.append_inj' h' rfl
      exact ⟨.op lineno op, by simp, rfl⟩

section Found

variable {env : YogEnv} {fuel : Nat} {ctx : Ctx} {funcName : ID} {params : List Param}
  {ss : List Stmt} {outer depths : List Int} {code : CodeOf Code} {before after : List Inst}
  {lineno : Lineno} {op : Op Label}

/-- The program counter of a frame that executes an instruction is found in the line table with the
line of the node the instruction is emitted for, in the two ways in which the table is read. Only
the `RET` that closes a body is emitted for no node: it has the line of the instruction before it
or, behind a label, none. -/
theorem lineno_found (hctx : ctx.finallyList = [])
    (h : compileStmts env (visitor env fuel) ctx funcName params ss outer = .ok (.mk code, depths))
    (hl : code.list = before ++ .op lineno op :: after) :
    ∃ o pc, fetch code.insts (codeSize before) = some (o, pc) ∧ o.opcode = op.opcode ∧
      traceLineno code.linenoTbl pc = lineno.number ∧
      (lineno.number ≠ 0 → getLineno code.linenoTbl pc = some lineno.number) ∧
      (lineno ∈ linesParams params ++ linesStmts ss ∨ op = .ret 0 ∧ after = []) := by
  obtain ⟨insts, s, hb, hm⟩ := compileStmts_eq_ok h
  obtain ⟨hlist, -, hbin, -, -, htbl⟩ := makeCode_eq_ok hm
  have hstored : code.list.map Inst.narrow =
      before.map Inst.narrow ++ .op lineno op.narrow :: after.map Inst.narrow := by
    rw [hl, List.map_append, List.map_cons, Inst.narrow]
  have hfetch := fetch_stored hbin hstored
  rw [codeSize_map_narrow, Op.opcode_narrow] at hfetch
  have hpos := op.opcode.instSize_pos
  have hmax : codeSize before + op.opcode.instSize < 2 ^ 64 := by
    have hlt := (insts2bin_eq_ok hbin).1
    rw [hstored, codeSize_append, codeSize_cons, codeSize_map_narrow, Inst.size, Op.opcode_narrow] at hlt
    omega
  refine ⟨_, _, hfetch, by simp, ?_⟩
  have hline : lineno ∈ linesParams params ++ linesStmts ss ∨ op = .ret 0 ∧ after = [] := by
    rcases mem_lineno?_withRet (hlist ▸ hl) with ⟨i, hi, hlineno⟩ | hret
    · exact .inl (lines_compileBody hctx _ _ _ _ hb i hi lineno hlineno)
    · exact .inr hret
  unfold makeLinenoTable at htbl
  split at htbl
  · rw [hstored] at htbl
    have hrow := hasRow_makeLinenoTableFrom (by simp) htbl
    rw [codeSize_map_narrow, Op.opcode_narrow, Nat.zero_add] at hrow
    exact ⟨hrow.traceLineno (by omega) hmax, fun _ => hrow.getLineno (by omega), hline⟩
  · rename_i hcount
    rw [← Except.ok.inj htbl]
    have hzero : lineno.number = 0 := lineno_eq_of_countLinenoRows (Nat.eq_zero_of_not_pos hcount)
      (.op lineno op.narrow) (by simp [hstored]) lineno rfl
    exact ⟨hzero.symm, fun h => absurd hzero h, hline⟩

end Found

/-- `while a`, `try`, `break`, `finally`, `f(`, `b)`, `end`, `end`. -/
def spreadBody : List Stmt :=
  [.while_ 1 (.variable 1 1) [.finally_ 2 [.break_ 3 []]
    [.expr (.funcCall 5 (.variable 5 2) (.mk [.variable 6 3] [] none none none) none)]]]

end Yog
