import Yog.VarTable

/-!
# What every scan does

The scan pass only registers names that are not parameters and puts the tables of blocks under the
table at hand. A property of scans that holds of these two steps, and of one scan after another,
holds of every scan (`ScanClosed.scanStmts`).
-/

namespace Yog

/-- The scan of a block with these parameters, `x` being the scan of its body. -/
def scanBlock (params : List Param) (x : Scan Unit) : Scan Unit := do
  let ((), tbl) ← (do
    registerParams none params
    x : Scan Unit).run (.mk .block [] [])
  modify (VarTable.addChild tbl)

/-- `P` holds of the steps of a scan and of one scan after another. -/
structure ScanClosed (P : {α : Type} → Scan α → Prop) : Prop where
  pure : ∀ {α : Type} (a : α), P (pure a : Scan α)
  bind : ∀ {α β : Type} {x : Scan α} {f : α → Scan β}, P x → (∀ a, P (f a)) → P (x >>= f)
  register : ∀ name assigned nonlocal,
    P (modify (·.registerVar name assigned false nonlocal) : Scan Unit)
  block : ∀ params {x : Scan Unit}, P x → P (scanBlock params x)

namespace ScanClosed

variable {P : {α : Type} → Scan α → Prop} (h : ScanClosed P)

include h

theorem forM {α : Type} {f : α → Scan Unit} (hf : ∀ a, P (f a)) : ∀ as : List α, P (as.forM f)
  | [] => h.pure ()
  | a :: as => h.bind (hf a) fun _ => forM hf as

mutual

theorem scanExpr : ∀ e, P (scanExpr e)
  | .array _ elems | .set _ elems => by
    simp only [Yog.scanExpr]
    exact scanExprs elems
  | .assign _ left right => by
    simp only [Yog.scanExpr]
    split
    · exact h.bind (h.register _ _ _) fun _ => scanExpr right
    · exact h.bind (scanExpr left) fun _ => scanExpr right
  | .attr _ obj _ | .not _ obj => by
    simp only [Yog.scanExpr]
    exact scanExpr obj
  | .binop _ _ left right | .logicalAnd _ left right | .logicalOr _ left right
  | .subscript _ left right => by
    simp only [Yog.scanExpr]
    exact h.bind (scanExpr left) fun _ => scanExpr right
  | .conditional _ test trueExpr falseExpr => by
    simp only [Yog.scanExpr]
    exact h.bind (scanExpr test) fun _ => h.bind (scanExpr trueExpr) fun _ => scanExpr falseExpr
  | .dict _ elems => by
    simp only [Yog.scanExpr]
    exact scanDictElems elems
  | .funcCall _ callee args blockarg => by
    simp only [Yog.scanExpr]
    exact h.bind (scanExpr callee) fun _ => h.bind (scanArgs args) fun _ => scanBlockArg? blockarg
  | .literal _ _ | .super _ => by
    simp only [Yog.scanExpr]
    exact h.pure ()
  | .variable _ id => by
    simp only [Yog.scanExpr]
    exact h.register _ _ _

theorem scanExprs : ∀ es, P (scanExprs es)
  | [] => h.pure ()
  | e :: es => h.bind (scanExpr e) fun _ => scanExprs es

theorem scanExpr? : ∀ e, P (scanExpr? e)
  | none => h.pure ()
  | some e => scanExpr e

theorem scanDictElems : ∀ es, P (scanDictElems es)
  | [] => h.pure ()
  | .mk key value :: es =>
    h.bind (scanExpr key) fun _ => h.bind (scanExpr value) fun _ => scanDictElems es

theorem scanKwArgs : ∀ as, P (scanKwArgs as)
  | [] => h.pure ()
  | .mk _ _ value :: as => h.bind (scanExpr value) fun _ => scanKwArgs as

theorem scanArgs : ∀ as, P (scanArgs as)
  | .mk posargs kwargs vararg varkwarg andBlock =>
    h.bind (scanExprs posargs) fun _ => h.bind (scanKwArgs kwargs) fun _ =>
      h.bind (scanExpr? vararg) fun _ => h.bind (scanExpr? varkwarg) fun _ => scanExpr? andBlock

theorem scanBlockArg? : ∀ b, P (scanBlockArg? b)
  | none => h.pure ()
  | some (.mk _ params stmts) =>
    h.block params (h.bind (scanDefaults params) fun _ => scanStmts stmts)

theorem scanDefaults : ∀ ps, P (scanDefaults ps)
  | [] => h.pure ()
  | .mk _ _ _ default_ :: ps => h.bind (scanExpr? default_) fun _ => scanDefaults ps

theorem scanLhs : ∀ es, P (scanLhs es)
  | [] => h.pure ()
  | e :: es => by
    simp only [Yog.scanLhs]
    split
    · exact h.bind (h.register _ _ _) fun _ => scanLhs es
    · exact h.bind (scanExpr e) fun _ => scanLhs es

theorem scanLhs? : ∀ e, P (scanLhs? e)
  | none => h.pure ()
  | some e => by
    simp only [Yog.scanLhs?]
    split
    · exact h.register _ _ _
    · exact scanExpr e

theorem scanExcepts : ∀ es, P (scanExcepts es)
  | [] => h.pure ()
  | .mk _ types var stmts :: es => by
    simp only [Yog.scanExcepts]
    refine h.bind (scanExprs types) fun _ => ?_
    split
    · exact h.bind (h.register _ _ _) fun _ => h.bind (scanStmts stmts) fun _ => scanExcepts es
    · exact h.bind (scanStmts stmts) fun _ => scanExcepts es

theorem scanStmt : ∀ s, P (scanStmt s)
  | .expr e => by
    simp only [Yog.scanStmt]
    exact scanExpr e
  | .break_ _ exprs | .next _ exprs | .return_ _ exprs => by
    simp only [Yog.scanStmt]
    exact scanExprs exprs
  | .klass _ decorators _ super _ => by
    simp only [Yog.scanStmt]
    exact h.bind (scanExprs decorators) fun _ => h.bind (h.register _ _ _) fun _ => scanExpr? super
  | .except _ head excepts else_ => by
    simp only [Yog.scanStmt]
    exact h.bind (scanStmts head) fun _ => h.bind (scanExcepts excepts) fun _ => scanStmts else_
  | .finally_ _ head body => by
    simp only [Yog.scanStmt]
    exact h.bind (scanStmts head) fun _ => scanStmts body
  | .from_ _ _ _ attr attrs => by
    simp only [Yog.scanStmt]
    exact h.forM (fun _ => h.register _ _ _) (attr :: attrs)
  | .funcDef _ decorators _ _ _ => by
    simp only [Yog.scanStmt]
    exact h.bind (scanExprs decorators) fun _ => h.register _ _ _
  | .if_ _ test stmts tail => by
    simp only [Yog.scanStmt]
    exact h.bind (scanExpr test) fun _ => h.bind (scanStmts stmts) fun _ => scanStmts tail
  | .import_ .. | .module_ .. => by
    simp only [Yog.scanStmt]
    exact h.register _ _ _
  | .multiAssign _ left middle right rhs rhsRest => by
    simp only [Yog.scanStmt]
    exact h.bind (scanLhs left) fun _ => h.bind (scanLhs? middle) fun _ =>
      h.bind (scanLhs right) fun _ => h.bind (scanExpr rhs) fun _ => scanExprs rhsRest
  | .nonlocal _ names => by
    simp only [Yog.scanStmt]
    exact h.forM (fun _ => h.register _ _ _) names
  | .raise _ expr => by
    simp only [Yog.scanStmt]
    exact scanExpr? expr
  | .while_ _ test stmts => by
    simp only [Yog.scanStmt]
    exact h.bind (scanExpr test) fun _ => scanStmts stmts

theorem scanStmts : ∀ ss, P (scanStmts ss)
  | [] => h.pure ()
  | s :: ss => h.bind (scanStmt s) fun _ => scanStmts ss

end

end ScanClosed

end Yog
