import Yog.Frame
import Yog.Proofs.Termination

/-!
# The flow of compiled code

Every visit emits code that jumps only inside itself, with labels of its own: a region, up to jumps
to the labels of the loop around it. An expression leaves one operand. A statement leaves none
where it is neutral (`neutralStmt`): some expression statements keep their value on the stack, as
do a subscript that is assigned to in a multiple assignment and values there are no targets for.
-/

namespace Yog

open Emission (Emits each)
open StackCode

def Expr.isSubscript : Expr → Bool
  | .subscript .. => true
  | _ => false

def Expr.isFuncCall : Expr → Bool
  | .funcCall .. => true
  | _ => false

mutual

/-- What the instructions of an expression count fits their operands. A block is a body of its
own. -/
def countsExpr : Expr → Bool
  | .array _ elems => elems.length < 2 ^ 64 && countsExprs elems
  | .attr _ expr _ | .not _ expr => countsExpr expr
  | .assign _ left right | .binop _ _ left right | .logicalAnd _ left right
  | .logicalOr _ left right | .subscript _ left right => countsExpr left && countsExpr right
  | .conditional _ test trueExpr falseExpr =>
    countsExpr test && countsExpr trueExpr && countsExpr falseExpr
  | .dict _ elems => elems.length < 2 ^ 8 && countsDictElems elems
  | .funcCall _ callee args _ => countsExpr callee && countsArgs args
  | .literal .. | .super _ | .variable .. => true
  | .set _ elems => elems.length < 2 ^ 8 && countsExprs elems

def countsExprs : List Expr → Bool
  | [] => true
  | e :: es => countsExpr e && countsExprs es

def countsExpr? : Option Expr → Bool
  | none => true
  | some e => countsExpr e

def countsDictElems : List DictElem → Bool
  | [] => true
  | .mk key value :: es => countsExpr key && countsExpr value && countsDictElems es

def countsKwArgs : List KwArg → Bool
  | [] => true
  | .mk _ _ value :: as => countsExpr value && countsKwArgs as

def countsArgs : Args → Bool
  | .mk posargs kwargs vararg varkwarg andBlock =>
    posargs.length < 2 ^ 8 && kwargs.length < 2 ^ 8 && countsExprs posargs && countsKwArgs kwargs
      && countsExpr? vararg && countsExpr? varkwarg && countsExpr? andBlock

end

theorem countsExprs_iff (es : List Expr) :
    countsExprs es = true ↔ ∀ e ∈ es, countsExpr e = true :=
  checks_iff (by simp [countsExprs]) (by simp [countsExprs]) es

theorem countsExpr?_iff (e : Option Expr) :
    countsExpr? e = true ↔ ∀ e' ∈ e.toList, countsExpr e' = true := by
  cases e <;> simp [countsExpr?]

theorem countsDictElems_iff (es : List DictElem) : countsDictElems es = true
    ↔ ∀ e ∈ es, countsExpr e.key = true ∧ countsExpr e.value = true := by
  simpa using checks_iff (p := fun e : DictElem => countsExpr e.key && countsExpr e.value)
    (by simp [countsDictElems])
    (by rintro ⟨⟩ es; simp [countsDictElems, DictElem.key, DictElem.value]) es

theorem countsKwArgs_iff (as : List KwArg) :
    countsKwArgs as = true ↔ ∀ a ∈ as, countsExpr a.value = true :=
  checks_iff (by simp [countsKwArgs]) (by rintro ⟨⟩ as; simp [countsKwArgs, KwArg.value]) as

/-- The value of the expression is popped when it is a statement. -/
def neutralExpr (e : Expr) : Bool := leavesValue (.expr e) || e.isFuncCall

/-- A multiple assignment stores every value it pushes. -/
def neutralMultiAssign (left : List Expr) (middle : Option Expr) (right : List Expr) (rhs : Expr)
    (rhsRest : List Expr) : Bool :=
  (left ++ middle.toList ++ right).all (!·.isSubscript)
    && (rhs.isFuncCall && rhsRest.isEmpty || middle.isSome
      || rhsRest.length + 1 ≤ left.length + right.length)

/-- What a multiple assignment counts fits: targets of a call's values, or values of the middle. -/
def countsMultiAssign (left : List Expr) (middle : Option Expr) (right : List Expr) (rhs : Expr)
    (rhsRest : List Expr) : Bool :=
  (match rhs, rhsRest with
    | .funcCall .., [] => left.length < 2 ^ 8 && right.length < 2 ^ 8
    | _, _ => middle.isNone || rhsRest.length + 1 - right.length - left.length < 2 ^ 64)
    && (rhs :: rhsRest).all countsExpr && (left ++ middle.toList ++ right).all countsExpr

mutual

/-- The statement leaves no operand on the stack. The values of a `break` or `next` in a loop are
not compiled. -/
def neutralStmt (inLoop : Bool) : Stmt → Bool
  | .expr e => neutralExpr e && countsExpr e
  | .except _ head excepts else_ =>
    neutralStmts inLoop head && neutralExcepts inLoop excepts && neutralStmts inLoop else_
  | .finally_ _ head body => neutralStmts inLoop head && neutralStmts inLoop body
  | .if_ _ test stmts tail =>
    countsExpr test && neutralStmts inLoop stmts && neutralStmts inLoop tail
  | .multiAssign _ left middle right rhs rhsRest =>
    neutralMultiAssign left middle right rhs rhsRest
      && countsMultiAssign left middle right rhs rhsRest
  | .while_ _ test stmts => countsExpr test && neutralStmts true stmts
  | .break_ _ exprs | .next _ exprs => inLoop || exprs.all countsExpr
  | .return_ _ exprs => exprs.all countsExpr
  | .klass _ decorators _ super _ => decorators.all countsExpr && super.toList.all countsExpr
  | .funcDef _ decorators _ _ _ => decorators.all countsExpr
  | .raise _ expr => expr.toList.all countsExpr
  | .from_ .. | .import_ .. | .module_ .. | .nonlocal .. => true

def neutralExcepts (inLoop : Bool) : List ExceptBody → Bool
  | [] => true
  | .mk _ types _ stmts :: es =>
    types.all countsExpr && neutralStmts inLoop stmts && neutralExcepts inLoop es

def neutralStmts (inLoop : Bool) : List Stmt → Bool
  | [] => true
  | s :: ss => neutralStmt inLoop s && neutralStmts inLoop ss

end

theorem neutralStmts_iff (inLoop : Bool) (ss : List Stmt) :
    neutralStmts inLoop ss = true ↔ ∀ s ∈ ss, neutralStmt inLoop s = true :=
  checks_iff (by simp [neutralStmts]) (by simp [neutralStmts]) ss

theorem neutralExcepts_iff (inLoop : Bool) (es : List ExceptBody) :
    neutralExcepts inLoop es = true ↔ ∀ e ∈ es, neutralExcepts inLoop [e] = true :=
  checks_iff (by simp [neutralExcepts]) (by rintro ⟨⟩ es; simp [neutralExcepts]) es

/-! A body that is neutral is neutral in a loop, where fewer expressions count. -/

mutual

theorem neutralStmt_inLoop {b : Bool} : ∀ s, neutralStmt b s = true → neutralStmt true s = true
  | .break_ _ _, _ | .next _ _, _ => by simp [neutralStmt]
  | .except _ head excepts else_, h => by
    simp only [neutralStmt, Bool.and_eq_true] at h ⊢
    exact ⟨⟨neutralStmts_inLoop head h.1.1, neutralExcepts_inLoop excepts h.1.2⟩,
      neutralStmts_inLoop else_ h.2⟩
  | .finally_ _ head body, h => by
    simp only [neutralStmt, Bool.and_eq_true] at h ⊢
    exact ⟨neutralStmts_inLoop head h.1, neutralStmts_inLoop body h.2⟩
  | .if_ _ _ stmts tail, h => by
    simp only [neutralStmt, Bool.and_eq_true] at h ⊢
    exact ⟨⟨h.1.1, neutralStmts_inLoop stmts h.1.2⟩, neutralStmts_inLoop tail h.2⟩
  | .expr _, h | .klass .., h | .from_ .., h | .funcDef .., h | .import_ .., h | .module_ .., h
  | .multiAssign .., h | .nonlocal .., h | .raise .., h | .return_ .., h | .while_ .., h => h

theorem neutralStmts_inLoop {b : Bool} : ∀ ss, neutralStmts b ss = true →
    neutralStmts true ss = true
  | [], _ => rfl
  | s :: ss, h => by
    simp only [neutralStmts, Bool.and_eq_true] at h ⊢
    exact ⟨neutralStmt_inLoop s h.1, neutralStmts_inLoop ss h.2⟩

theorem neutralExcepts_inLoop {b : Bool} : ∀ es, neutralExcepts b es = true →
    neutralExcepts true es = true
  | [], _ => rfl
  | .mk _ _ _ stmts :: es, h => by
    simp only [neutralExcepts, Bool.and_eq_true] at h ⊢
    exact ⟨⟨h.1.1, neutralStmts_inLoop stmts h.1.2⟩, neutralExcepts_inLoop es h.2⟩

end

/-- An element of the copy of a `finally` body for a jump. -/
def Inst.isCopyNote : Inst → Bool
  | .note (.copyStart _) | .note (.copyEnd _) => true
  | _ => false

/-- What the element pops and leaves as it is stored is what was meant. The callee of a call is not
counted as popped. -/
structure Inst.CountsKept (i : Inst) : Prop where
  pops : i.narrow.pops = i.pops
  pushes : i.narrow.pushes = i.pushes
  counted : ∀ lineno op, i.narrow = .op lineno op → op.popSize ≤ op.pops

theorem Inst.CountsKept.op {lineno : Lineno} {op : Op Label} (hp : op.narrow.pops = op.pops)
    (hq : op.narrow.pushes = op.pushes) (hc : op.narrow.popSize ≤ op.narrow.pops) :
    Inst.CountsKept (.op lineno op) where
  pops := hp
  pushes := hq
  counted _ _ h := by
    cases h
    exact hc

theorem Inst.CountsKept.same {lineno : Lineno} {op : Op Label} (h : op.narrow = op)
    (hc : op.popSize ≤ op.pops) : Inst.CountsKept (.op lineno op) :=
  .op (congrArg Op.pops h) (congrArg Op.pushes h) (by rwa [h])

/-- The rows of the exception table so far, those of the `try`s being compiled included. -/
def CompileData.rows (s : CompileData) : List (ExceptionTableEntry Label) :=
  s.excTbl ++ s.excTail ++ s.tryList.flatMap TryListEntry.excTbl

/-- Every handler starts with an empty stack. -/
def HandlersEmpty (env : Label → Nat) (s : CompileData) : Prop :=
  ∀ row ∈ s.rows, env row.target = 0

/-- What one visit did. `Γ` gives depths to labels in scope, of which the visit is to mark those in
`own`; other labels it marks are new. The output takes the stack from depth `d` to `e` if `S`, and
holds copies of `finally` bodies only if `J`; what it counts fits if `K`. -/
structure Flows (S J K : Prop) (Γ : List (Label × Nat)) (own : List Label) (d e : Nat)
    (s : CompileData) (l : List Inst) (s' : CompileData) : Prop where
  le : s.nextLabel ≤ s'.nextLabel
  fresh : ∀ L ∈ instCode.labels l, L ∈ own ∨ s.nextLabel ≤ L.id ∧ L.id < s'.nextLabel
  owns : ∀ L ∈ own, L ∈ instCode.labels l
  nodup : own.Nodup → (∀ L ∈ own, L.id < s.nextLabel) → (instCode.labels l).Nodup
  dests : ∀ L ∈ instCode.dests l, L ∈ instCode.labels l ∨ L ∈ Γ.map Prod.fst
  copies : (∃ i ∈ l, i.isCopyNote = true) → J
  counts : K → ∀ i ∈ l, i.CountsKept
  typed : S → ∃ f : Label → Nat, ∀ env : Label → Nat,
    (∀ L, s.nextLabel ≤ L.id → L.id < s'.nextLabel → env L = f L) → (∀ p ∈ Γ, env p.1 = p.2) →
    instCode.Typed env l d e ∧ (HandlersEmpty env s → HandlersEmpty env s')

/-- `Flows` holds of every visit `x` makes. -/
def Types {α : Type} (S J K : Prop) (Γ : List (Label × Nat)) (own : List Label) (d e : Nat)
    (x : Compile α) : Prop :=
  Emits (Flows S J K Γ own d e) x

namespace Types

variable {S J K : Prop} {Γ : List (Label × Nat)} {own own₁ own₂ : List Label} {d e d₁ d₂ : Nat}
  {α β : Type}

theorem bind {x : Compile α} {f : α → Compile β} (hx : Types S J K Γ own₁ d d₁ x)
    (hf : ∀ a, Types S J K Γ own₂ d₁ e (f a)) : Types S J K Γ (own₁ ++ own₂) d e (x >>= f) := by
  intro s b l s' h
  obtain ⟨a, l₁, s₁, l₂, h₁, h₂, rfl⟩ := Emission.bind_eq_ok.1 h
  have hx := hx s a l₁ s₁ h₁
  have hf := hf a s₁ b l₂ s' h₂
  have hle₁ := hx.le
  have hle₂ := hf.le
  refine ⟨hle₁.trans hle₂, ?_, ?_, ?_, ?_, ?_, ?_, ?_⟩
  · intro L hL
    rw [labels_append] at hL
    rcases List.mem_append.1 hL with hL | hL
    · rcases hx.fresh L hL with hL | hL
      · exact .inl (List.mem_append_left _ hL)
      · exact .inr ⟨hL.1, by omega⟩
    · rcases hf.fresh L hL with hL | hL
      · exact .inl (List.mem_append_right _ hL)
      · exact .inr ⟨by omega, hL.2⟩
  · intro L hL
    rw [labels_append, List.mem_append]
    rcases List.mem_append.1 hL with hL | hL
    · exact .inl (hx.owns L hL)
    · exact .inr (hf.owns L hL)
  · intro hnd hlt
    rw [labels_append]
    obtain ⟨hnd₁, hnd₂, hdisj⟩ := List.nodup_append'.1 hnd
    have hlt₁ : ∀ L ∈ own₁, L.id < s.nextLabel := fun L hL => hlt L (List.mem_append_left _ hL)
    have hlt₂ : ∀ L ∈ own₂, L.id < s.nextLabel := fun L hL => hlt L (List.mem_append_right _ hL)
    refine List.nodup_append'.2 ⟨hx.nodup hnd₁ hlt₁,
      hf.nodup hnd₂ fun L hL => (hlt₂ L hL).trans_le hle₁, fun L hL₁ hL₂ => ?_⟩
    rcases hx.fresh L hL₁ with h₁ | h₁ <;> rcases hf.fresh L hL₂ with h₂ | h₂
    · exact hdisj h₁ h₂
    · have := hlt₁ L h₁
      omega
    · have := hlt₂ L h₂
      omega
    · omega
  · intro L hL
    rw [dests_append] at hL
    rw [labels_append, List.mem_append]
    rcases List.mem_append.1 hL with hL | hL
    · exact (hx.dests L hL).imp .inl id
    · exact (hf.dests L hL).imp .inr id
  · rintro ⟨i, hi, hc⟩
    rcases List.mem_append.1 hi with hi | hi
    · exact hx.copies ⟨i, hi, hc⟩
    · exact hf.copies ⟨i, hi, hc⟩
  · intro hK i hi
    rcases List.mem_append.1 hi with hi | hi
    · exact hx.counts hK i hi
    · exact hf.counts hK i hi
  · intro hS
    obtain ⟨f₁, hf₁⟩ := hx.typed hS
    obtain ⟨f₂, hf₂⟩ := hf.typed hS
    refine ⟨fun L => if L.id < s₁.nextLabel then f₁ L else f₂ L, fun env henv hΓ => ?_⟩
    obtain ⟨ht₁, hr₁⟩ := hf₁ env
      (fun L hge hlt => (henv L hge (by omega)).trans (if_pos hlt)) hΓ
    obtain ⟨ht₂, hr₂⟩ := hf₂ env
      (fun L hge hlt => (henv L (by omega) hlt).trans (if_neg (by omega))) hΓ
    exact ⟨ht₁.append ht₂, hr₂ ∘ hr₁⟩

/-- Nothing is emitted. -/
theorem of_nil {s s' : CompileData} (h : s.nextLabel = s'.nextLabel)
    (hr : ∀ env : Label → Nat, (∀ p ∈ Γ, env p.1 = p.2) → HandlersEmpty env s →
      HandlersEmpty env s') : Flows S J K Γ [] d d s [] s' :=
  ⟨h.le, nofun, nofun, fun _ _ => .nil, nofun, fun ⟨_, h, _⟩ => absurd h List.not_mem_nil,
    nofun, fun _ => ⟨fun _ => 0, fun env _ hΓ => ⟨rfl, hr env hΓ⟩⟩⟩

/-- The labels to mark, written otherwise. -/
theorem owned {x : Compile α} (hx : Types S J K Γ own₁ d e x) (h : own₁ = own₂) :
    Types S J K Γ own₂ d e x :=
  h ▸ hx

/-- The depths, written otherwise; they say nothing unless `S`. -/
theorem depths {x : Compile α} (hx : Types S J K Γ own d e x) (hd : S → d = d₁) (he : S → e = d₂) :
    Types S J K Γ own d₁ d₂ x := by
  intro s a l s' h
  have hx := hx s a l s' h
  exact ⟨hx.le, hx.fresh, hx.owns, hx.nodup, hx.dests, hx.copies, hx.counts,
    fun hS => hd hS ▸ he hS ▸ hx.typed hS⟩

theorem pure (a : α) : Types S J K Γ [] d d (pure a : Compile α) := by
  intro s b l s' h
  obtain ⟨-, rfl, rfl⟩ := Emission.pure_eq_ok.1 h
  exact of_nil rfl fun _ _ h => h

theorem fail {err : CompileError} : Types S J K Γ own d e (Emission.fail err : Compile α) :=
  Emits.fail err

/-- A new label, which what follows marks. -/
theorem newLabel (n : Nat) {f : Label → Compile α}
    (hf : ∀ a, Types S J K ((a, n) :: Γ) (own ++ [a]) d e (f a)) :
    Types S J K Γ own d e (newLabel >>= f) := by
  intro s b l s' h
  obtain ⟨a, l₁, s₁, l₂, h₁, h₂, rfl⟩ := Emission.bind_eq_ok.1 h
  obtain ⟨rfl, rfl, rfl⟩ := newLabel_eq_ok.1 h₁
  have hf := hf _ _ b l₂ s' h₂
  have hle := hf.le
  simp only at hle
  rw [List.nil_append]
  refine ⟨by omega, ?_, fun L hL => hf.owns L (List.mem_append_left _ hL), ?_, ?_, hf.copies,
    hf.counts, ?_⟩
  · intro L hL
    rcases hf.fresh L hL with hL | ⟨hge, hlt⟩
    · rcases List.mem_append.1 hL with hL | hL
      · exact .inl hL
      · rw [List.mem_singleton.1 hL]
        exact .inr ⟨le_rfl, by simpa using hle⟩
    · simp only at hge
      exact .inr ⟨by omega, hlt⟩
  · intro hnd hlt
    refine hf.nodup (List.nodup_append'.2 ⟨hnd, List.nodup_singleton _, fun L hL hL' => ?_⟩)
      fun L hL => ?_
    · rw [List.mem_singleton.1 hL'] at hL
      exact absurd (hlt _ hL) (by simp)
    · rcases List.mem_append.1 hL with hL | hL
      · exact (hlt L hL).trans (Nat.lt_succ_self _)
      · rw [List.mem_singleton.1 hL]
        exact Nat.lt_succ_self _
  · intro L hL
    rcases hf.dests L hL with hL | hL
    · exact .inl hL
    · rw [List.map_cons, List.mem_cons] at hL
      rcases hL with rfl | hL
      · exact .inl (hf.owns _ (List.mem_append_right _ (List.mem_singleton_self _)))
      · exact .inr hL
  · intro hS
    obtain ⟨f', hf'⟩ := hf.typed hS
    refine ⟨fun L => if L.id = s.nextLabel then n else f' L, fun env henv hΓ => ?_⟩
    refine hf' env (fun L hge hlt => ?_) (List.forall_mem_cons.2 ⟨?_, hΓ⟩)
    · simp only at hge
      exact (henv L (by omega) hlt).trans (if_neg (by omega))
    · exact (henv ⟨s.nextLabel⟩ le_rfl (by simpa using hle)).trans (if_pos rfl)

/-- One element that is emitted. -/
theorem emit {i : Inst} (hl : ∀ L, i.label? = some L → own = [L] ∧ (L, d) ∈ Γ)
    (hn : i.label? = none → own = []) (hd : ∀ L, i.dest? = some L → L ∈ Γ.map Prod.fst)
    (hc : i.isCopyNote = true → J) (hk : K → i.CountsKept)
    (ht : S → ∀ env : Label → Nat, (∀ p ∈ Γ, env p.1 = p.2) → instCode.Local env i d e) :
    Types S J K Γ own d e (Emission.emit i) := by
  intro s u l s' h
  obtain ⟨rfl, rfl⟩ := Emission.emit_eq_ok.1 h
  have hlabels : instCode.labels [i] = own := by
    cases hi : i.label? with
    | none => simp [labels, instCode, hi, hn hi]
    | some L => simp [labels, instCode, hi, (hl L hi).1]
  refine ⟨le_rfl, fun L hL => .inl (hlabels ▸ hL), fun L hL => hlabels ▸ hL,
    fun h _ => hlabels ▸ h, fun L hL => .inr ?_, ?_, fun hK j hj => ?_,
    fun hS => ⟨fun _ => 0, fun env _ hΓ => ?_⟩⟩
  · obtain ⟨j, hj, hL⟩ := List.mem_filterMap.1 hL
    rw [List.mem_singleton.1 hj] at hL
    exact hd L hL
  · rintro ⟨j, hj, hcj⟩
    rw [List.mem_singleton.1 hj] at hcj
    exact hc hcj
  · rw [List.mem_singleton.1 hj]
    exact hk hK
  · exact ⟨⟨e, ht hS env hΓ, rfl⟩, fun h => h⟩

/-- An operation that does not jump; control need not go on behind it. -/
theorem plain {lineno : Lineno} {op : Op Label} (hd : op.dest? = none)
    (hk : K → Inst.CountsKept (.op lineno op)) (h : S → op.pops ≤ d
      ∧ (op.fallsThrough = true → e + op.pops = d + op.pushes) ∧ e + op.pops ≤ d + op.pushes) :
    Types S J K Γ [] d e (addOp lineno op) := by
  have hnone : ∀ L, op.dest? ≠ some L := by
    rw [hd]
    nofun
  refine emit nofun (fun _ => rfl) (fun L h => absurd h (hnone L)) nofun hk fun hS env _ => ?_
  obtain ⟨hp, he, hle⟩ := h hS
  exact ⟨nofun, hp, fun L h => absurd h (hnone L), he, hle, nofun⟩

theorem opOf {lineno : Lineno} {op : Op Label} (hd : op.dest? = none)
    (hk : K → Inst.CountsKept (.op lineno op))
    (h : S → op.pops ≤ d ∧ e + op.pops = d + op.pushes) :
    Types S J K Γ [] d e (addOp lineno op) :=
  plain hd hk fun hS => ⟨(h hS).1, fun _ => (h hS).2, (h hS).2.le⟩

/-- An operation that takes `p` operands and leaves `q`. -/
theorem op (p q : Nat) {lineno : Lineno} {op : Op Label}
    (h : (op.dest?, op.pops, op.pushes, op.narrow.pops, op.narrow.pushes,
      decide (op.narrow.popSize ≤ p)) = (none, p, q, p, q, true)) :
    Types S J K Γ [] (d + p) (d + q) (addOp lineno op) := by
  simp only [Prod.mk.injEq, decide_eq_true_eq] at h
  obtain ⟨hd, hp, hq, hp', hq', hc⟩ := h
  exact opOf hd (fun _ => .op (hp'.trans hp.symm) (hq'.trans hq.symm) (hc.trans hp'.ge))
    fun _ => by omega

/-- An operation that counts the `p` operands it takes. -/
theorem makes (p : Nat) {lineno : Lineno} {op : Op Label}
    (h : (op.dest?, op.pops, op.pushes, op.popSize) = (none, p, 1, p))
    (hk : K → op.narrow = op) : Types S J K Γ [] (d + p) (d + 1) (addOp lineno op) := by
  simp only [Prod.mk.injEq] at h
  obtain ⟨hd, hp, hq, hc⟩ := h
  exact opOf hd (fun hK => .same (hk hK) (by omega)) fun _ => by omega

/-- An operation after which nothing is executed. -/
theorem stop {lineno : Lineno} {op : Op Label} (hd : op.dest? = none) (hf : op.fallsThrough = false)
    (hk : K → Inst.CountsKept (.op lineno op))
    (h : S → op.pops ≤ d ∧ e + op.pops ≤ d + op.pushes) :
    Types S J K Γ [] d e (addOp lineno op) :=
  plain hd hk fun hS => ⟨(h hS).1, fun ht => absurd ht (ne_true_of_eq_false hf), (h hS).2⟩

/-- An operation that may jump to a label in scope and may fall through. -/
theorem branch {lineno : Lineno} {op : Op Label} {L : Label} (hd : op.dest? = some L)
    (hL : (L, e) ∈ Γ) (hk : Inst.CountsKept (.op lineno op))
    (h : op.pops ≤ d ∧ e + op.pops = d + op.pushes) :
    Types S J K Γ [] d e (addOp lineno op) := by
  refine emit nofun (fun _ => rfl) ?_ nofun (fun _ => hk)
    fun _ env hΓ => ⟨nofun, h.1, ?_, fun _ => h.2, h.2.le, nofun⟩
  · intro L' hL'
    rw [Inst.dest?, hd, Option.some.injEq] at hL'
    subst hL'
    exact List.mem_map_of_mem (f := Prod.fst) hL
  · intro L' hL'
    change op.dest? = some L' at hL'
    rw [hd, Option.some.injEq] at hL'
    subst hL'
    rw [hΓ _ hL]
    exact h.2

/-- A jump to a label in scope; what follows starts at a depth that is no larger. -/
theorem jump {lineno : Lineno} {L : Label} (hL : (L, d) ∈ Γ) (he : e ≤ d) :
    Types S J K Γ [] d e (addOp lineno (.jump L)) := by
  refine emit nofun (fun _ => rfl) ?_ nofun (fun _ => .op rfl rfl le_rfl)
    fun _ env hΓ => ⟨nofun, Nat.zero_le _, ?_, nofun, he, nofun⟩
  · rintro L' ⟨⟩
    exact List.mem_map_of_mem (f := Prod.fst) hL
  · rintro L' ⟨⟩
    rw [hΓ _ hL]
    rfl

theorem label {L : Label} (hL : (L, d) ∈ Γ) : Types S J K Γ [L] d d (addLabel L) := by
  refine emit ?_ nofun nofun nofun (fun _ => ⟨rfl, rfl, nofun⟩)
    fun _ env hΓ => ⟨?_, Nat.zero_le _, nofun, fun _ => rfl, le_rfl, nofun⟩
  · rintro L' ⟨⟩
    exact ⟨rfl, hL⟩
  · rintro L' ⟨⟩
    exact hΓ _ hL

theorem note {n : Note} (h : Inst.isCopyNote (.note n) = true → J)
    (hd : ∀ m, Inst.depth? (.note n) = some m → d = m) : Types S J K Γ [] d d (addNote n) :=
  emit nofun (fun _ => rfl) nofun h (fun _ => ⟨rfl, rfl, nofun⟩) fun _ _ _ =>
    ⟨nofun, Nat.zero_le _, nofun, fun _ => rfl, le_rfl, hd⟩

theorem modify {f : CompileData → CompileData} (hf : ∀ s, s.nextLabel = (f s).nextLabel)
    (hr : ∀ s, ∀ row ∈ (f s).rows, row ∈ s.rows ∨ (row.target, 0) ∈ Γ) :
    Types S J K Γ [] d d (Emission.modify f) := by
  intro s u l s' h
  obtain ⟨rfl, rfl⟩ := Emission.modify_eq_ok.1 h
  exact of_nil (hf s) fun env hΓ hs row hrow => (hr s row hrow).elim (hs row) (hΓ _)

theorem pushTry {node : Label} {row : ExceptionTableEntry Label} (hL : (row.target, 0) ∈ Γ) :
    Types S J K Γ [] d d (pushTry node row) := by
  refine modify (fun _ => rfl) fun s row' hrow => ?_
  simp only [CompileData.rows, List.flatMap_cons, List.mem_append, List.mem_singleton] at hrow ⊢
  rcases hrow with hrow | rfl | hrow
  · exact .inl (.inl hrow)
  · exact .inr hL
  · exact .inl (.inr hrow)

theorem popTry : Types S J K Γ [] d d popTry := by
  refine modify (fun s => ?_) fun s row hrow => .inl ?_
  · split <;> rfl
  · split at hrow
    · exact hrow
    · rename_i node rest ht
      simpa [CompileData.rows, ht] using hrow
    · rename_i node entry tail rest ht
      simp only [CompileData.rows, ht, List.flatMap_cons, List.mem_append, List.mem_cons,
        List.not_mem_nil, or_false] at hrow ⊢
      tauto

/-- A new row has the handler of the row it was split from. -/
theorem mem_splitExceptionTable {from_ to_ : Label} :
    ∀ {rows : List (ExceptionTableEntry Label)} {row : ExceptionTableEntry Label},
      row ∈ splitExceptionTable from_ to_ rows → ∃ row' ∈ rows, row'.target = row.target
  | [], _, h => by simp [splitExceptionTable] at h
  | [e], row, h => by
    simp only [splitExceptionTable, List.mem_cons, List.not_mem_nil, or_false] at h
    rcases h with rfl | rfl <;> exact ⟨e, .head _, rfl⟩
  | e :: e' :: es, row, h => by
    rcases List.mem_cons.1 h with rfl | h
    · exact ⟨_, .head _, rfl⟩
    · obtain ⟨row', hrow, ht⟩ := mem_splitExceptionTable h
      exact ⟨row', .tail _ hrow, ht⟩

theorem mem_splitTryList {node from_ to_ : Label} : ∀ {ts ts' : List TryListEntry}
    {row : ExceptionTableEntry Label}, splitTryList node from_ to_ ts = some ts' →
    row ∈ ts'.flatMap TryListEntry.excTbl →
    ∃ row' ∈ ts.flatMap TryListEntry.excTbl, row'.target = row.target
  | [], _, _, h, _ => by simp [splitTryList] at h
  | t :: ts, ts', row, h, hrow => by
    have hsplit : ∀ rest, row ∈ splitExceptionTable from_ to_ t.excTbl ++ rest →
        (∃ row' ∈ (t :: ts).flatMap TryListEntry.excTbl, row'.target = row.target)
          ∨ row ∈ rest := by
      intro rest h
      refine (List.mem_append.1 h).imp_left fun h => ?_
      obtain ⟨row', hrow, ht⟩ := mem_splitExceptionTable h
      exact ⟨row', List.mem_flatMap.2 ⟨t, .head _, hrow⟩, ht⟩
    simp only [splitTryList] at h
    split at h
    · cases h
      rw [List.flatMap_cons] at hrow
      rcases hsplit _ hrow with h | h
      · exact h
      · exact ⟨row, by simp only [List.flatMap_cons, List.mem_append]; exact .inr h, rfl⟩
    · obtain ⟨ts'', hts, rfl⟩ := Option.map_eq_some_iff.1 h
      rw [List.flatMap_cons] at hrow
      rcases hsplit _ hrow with h | h
      · exact h
      · obtain ⟨row', hrow, ht⟩ := mem_splitTryList hts h
        exact ⟨row', by simp only [List.flatMap_cons, List.mem_append]; exact .inr hrow, ht⟩

theorem splitTries {node from_ to_ : Label} : Types S J K Γ [] d d (splitTries node from_ to_) := by
  intro s u l s' h
  obtain ⟨ts, hts, rfl, rfl⟩ := splitTries_eq_ok.1 h
  refine of_nil rfl fun env _ hs row hrow => ?_
  simp only [CompileData.rows, List.mem_append] at hrow
  rcases hrow with hrow | hrow
  · exact hs row (by simp only [CompileData.rows, List.mem_append]; exact .inl hrow)
  · obtain ⟨row', hrow, ht⟩ := mem_splitTryList hts hrow
    rw [← ht]
    exact hs row' (by simp only [CompileData.rows, List.mem_append]; exact .inr hrow)

theorem registerConst {env : YogEnv} {c : Const} :
    Types S J K Γ [] d d (registerConst env c) := by
  intro s u l s' h
  obtain ⟨rfl, ⟨-, rfl⟩ | ⟨-, -, rfl⟩⟩ := registerConst_eq_ok h <;> exact of_nil rfl fun _ _ h => h

theorem addPushConst {env : YogEnv} {c : Const} {lineno : Lineno} :
    Types S J K Γ [] d (d + 1) (addPushConst env c lineno) :=
  bind registerConst fun _ => op 0 1 rfl

theorem compileInner {env : YogEnv} {v : Visitor} {vars : Except CompileError Scope} {ctx : Ctx}
    {className funcName : ID} {params : List Param} {stmts : List Stmt}
    {info : Except CompileError (Option ArgInfo)} :
    Types S J K Γ [] d d (compileInner env v vars ctx className funcName params stmts info) := by
  intro s a l s' h
  obtain ⟨_, _, _, _, -, -, -, -, rfl, rfl⟩ := compileInner_eq_ok h
  exact of_nil rfl fun _ _ h => h

/-- Elements that leave `k` operands each. -/
theorem eachPush (k : Nat) {f : α → Compile Unit} :
    ∀ (as : List α) {d : Nat}, (∀ a ∈ as, ∀ d, Types S J K Γ [] d (d + k) (f a)) →
      Types S J K Γ [] d (d + as.length * k) (each f as)
  | [], d, _ => by
    rw [List.length_nil, Nat.zero_mul]
    exact pure ()
  | a :: as, d, hf => by
    have h := bind (hf a List.mem_cons_self d) fun _ =>
      eachPush k as (d := d + k) fun b hb => hf b (List.mem_cons_of_mem _ hb)
    rw [List.length_cons, show d + (as.length + 1) * k = d + k + as.length * k by ring]
    exact h

/-- Elements that leave the stack as they find it. -/
theorem eachSame {f : α → Compile Unit} :
    ∀ (as : List α), (∀ a ∈ as, Types S J K Γ [] d d (f a)) → Types S J K Γ [] d d (each f as)
  | [], _ => pure ()
  | a :: as, hf =>
    bind (hf a List.mem_cons_self) fun _ =>
      eachSame as fun b hb => hf b (List.mem_cons_of_mem _ hb)

/-- Elements that store one operand each. -/
theorem eachStore {f : α → Compile Unit} :
    ∀ (as : List α) {d : Nat}, (∀ a ∈ as, ∀ d, Types S J K Γ [] (d + 1) d (f a)) →
      Types S J K Γ [] (d + as.length) d (each f as)
  | [], _, _ => pure ()
  | a :: as, d, hf =>
    bind (hf a List.mem_cons_self (d + as.length)) fun _ =>
      eachStore as fun b hb => hf b (List.mem_cons_of_mem _ hb)

theorem addOpOf {lineno : Lineno} {op : Except CompileError (Op Label)}
    (h : ∀ o, op = .ok o → o.dest? = none ∧ (∀ lineno, Inst.CountsKept (.op lineno o))
      ∧ (S → o.pops ≤ d ∧ e + o.pops = d + o.pushes)) :
    Types S J K Γ [] d e (addOpOf lineno op) := by
  cases op with
  | ok o => exact opOf (h o rfl).1 (fun _ => (h o rfl).2.1 _) (h o rfl).2.2
  | error err => exact fail

/-- A store takes its operand, and control goes on behind it. -/
theorem storeOp_eq_ok {ctx : Ctx} {name : ID} {type : VarType} {o : Op Label}
    (h : storeOp ctx name type = .ok o) : o.dest? = none ∧ o.pops = 1 ∧ o.pushes = 0
      ∧ ∀ lineno, Inst.CountsKept (.op lineno o) := by
  unfold storeOp at h
  split at h
  · cases h
    exact ⟨rfl, rfl, rfl, fun _ => .op rfl rfl le_rfl⟩
  · cases h
    exact ⟨rfl, rfl, rfl, fun _ => .op rfl rfl le_rfl⟩
  · split at h
    · cases h
      split <;> exact ⟨rfl, rfl, rfl, fun _ => .op rfl rfl le_rfl⟩
    · cases h

theorem appendStore {env : YogEnv} {ctx : Ctx} {lineno : Lineno} {name : ID} :
    Types S J K Γ [] (d + 1) d (appendStore env ctx lineno name) := by
  unfold Yog.appendStore
  split
  · split
    · refine addOpOf fun o ho => ?_
      obtain ⟨hd, hp, hq, hk⟩ := storeOp_eq_ok ho
      exact ⟨hd, hk, fun _ => by omega⟩
    · exact fail
  · exact op 1 0 rfl

theorem compileVisitVariable {ctx : Ctx} {lineno : Lineno} {name : ID} :
    Types S J K Γ [] d (d + 1) (compileVisitVariable ctx lineno name) := by
  unfold Yog.compileVisitVariable
  split
  · split
    · refine addOpOf fun o ho => ?_
      unfold loadOp at ho
      have hpops : o.dest? = none ∧ o.pops = 0 ∧ o.pushes = 1
          ∧ ∀ lineno, Inst.CountsKept (.op lineno o) := by
        split at ho
        · cases ho
          exact ⟨rfl, rfl, rfl, fun _ => .op rfl rfl le_rfl⟩
        · cases ho
          exact ⟨rfl, rfl, rfl, fun _ => .op rfl rfl le_rfl⟩
        · split at ho
          · cases ho
            split <;> exact ⟨rfl, rfl, rfl, fun _ => .op rfl rfl le_rfl⟩
          · cases ho
      obtain ⟨hd, hp, hq, hk⟩ := hpops
      exact ⟨hd, hk, fun _ => by omega⟩
    · exact fail
  · exact op 0 1 rfl

end Types

/-- The visits `v` makes of expressions emit regions. -/
structure TypesNode (v : Visitor) : Prop where
  node : ∀ {S J K : Prop} {Γ : List (Label × Nat)} {d : Nat} (ctx : Ctx) (e : Expr),
    (K → countsExpr e = true) → Types S J K Γ [] d (d + 1) (v.node ctx e)

namespace TypesNode

variable {env : YogEnv} {v : Visitor} {S J K : Prop} {Γ : List (Label × Nat)} {d : Nat}
  (hv : TypesNode v) (ctx : Ctx)
include hv

theorem eachNode (es : List Expr) (hk : ∀ e ∈ es, K → countsExpr e = true) :
    Types S J K Γ [] d (d + es.length) (each (v.node ctx) es) :=
  Types.depths (Types.eachPush 1 es fun e he _ => hv.node ctx e (hk e he)) (fun _ => rfl)
    fun _ => by omega

theorem compileAssign {e : Expr} (hs : S → e.isSubscript = false)
    (hk : K → countsExpr e = true) :
    Types S J K Γ [] (d + 1) d (compileAssign env v ctx e) := by
  unfold Yog.compileAssign
  split
  · exact .appendStore
  · simp only [countsExpr, Bool.and_eq_true] at hk
    refine .bind (hv.node ctx _ fun h => (hk h).2) fun _ =>
      .bind (hv.node ctx _ fun h => (hk h).1) fun _ =>
      .bind (.op 1 1 rfl) fun _ => .opOf rfl
        (fun _ => .op rfl rfl (by decide)) fun hS => ?_
    cases hs hS
  · simp only [countsExpr] at hk
    exact .bind (hv.node ctx _ hk) fun _ => .op 2 0 rfl
  · split <;> exact .fail

theorem compileMultiAssign {left : List Expr} {middle : Option Expr} {right : List Expr}
    (hs : S → (left ++ middle.toList ++ right).all (!·.isSubscript) = true)
    (hk : K → (left ++ middle.toList ++ right).all countsExpr = true) :
    Types S J K Γ [] (d + (left.length + middle.toList.length + right.length)) d
      (compileMultiAssign env v ctx left middle right) := by
  have hstore : ∀ e ∈ left ++ middle.toList ++ right, ∀ d,
      Types S J K Γ [] (d + 1) d (Yog.compileAssign env v ctx e) := by
    intro e he d
    refine hv.compileAssign ctx (fun hS => ?_) fun hK => List.all_eq_true.1 (hk hK) e he
    simpa using List.all_eq_true.1 (hs hS) e he
  refine .bind (.depths (.eachStore (d := d + left.length + middle.toList.length) right.reverse
    fun e he => hstore e ?_) (fun _ => ?_) fun _ => rfl) fun _ =>
    .bind (.eachStore (d := d + left.length) middle.toList fun e he => hstore e ?_) fun _ =>
    .depths (.eachStore (d := d) left.reverse fun e he => hstore e ?_) (fun _ => ?_) fun _ => rfl
  · simp at he
    simp [he]
  · rw [List.length_reverse]
    omega
  · simp at he
    simp [he]
  · simp at he
    simp [he]
  · rw [List.length_reverse]

theorem compileKwArg (a : KwArg) (hk : K → countsExpr a.value = true) :
    Types S J K Γ [] d (d + 2) (compileKwArg env v ctx a) :=
  .bind (hv.node ctx _ hk) fun _ => .addPushConst

omit hv in
theorem compileVisitBlock : ∀ b, Types S J K Γ [] d (d + 1) (compileVisitBlock env v ctx b)
  | .mk _ _ _ => .bind .compileInner fun _ => .bind .addPushConst fun _ => .op 1 1 rfl

omit hv in
theorem length_toList_eq {α : Type} : ∀ o : Option α,
    (if o.toList.length = 1 then 1 else 0) = o.toList.length
  | none => rfl
  | some _ => rfl

omit hv in
/-- A block is given in one of two ways. -/
theorem block_length {α β : Type} : ∀ {block : Option α} {andBlock : Option β},
    ¬ (block.isSome && andBlock.isSome) = true →
    (if (if block.isSome || andBlock.isSome then 1 else 0) = 1 then 1 else 0)
      = block.toList.length + andBlock.toList.length
  | none, none, _ | some _, none, _ | none, some _, _ => rfl
  | some _, some _, h => absurd rfl h

/-- A call leaves as many values as it has targets. -/
theorem compileCallFunc {lineno : Lineno} {callee : Expr} {args : Args} {blockarg : Option BlockArg}
    {l m r : Nat} (hk : K → (countsExpr callee = true ∧ countsArgs args = true)
      ∧ l < 2 ^ 8 ∧ m < 2 ^ 8 ∧ r < 2 ^ 8) : Types S J K Γ [] d (d + (l + m + r))
      (compileCallFunc env v ctx lineno callee args blockarg l m r) := by
  obtain ⟨posargs, kwargs, vararg, varkwarg, andBlock⟩ := args
  simp only [countsArgs, Bool.and_eq_true, decide_eq_true_eq, countsExprs_iff, countsKwArgs_iff,
    countsExpr?_iff] at hk
  have hnode : ∀ es : List Expr, (K → ∀ e ∈ es, countsExpr e = true) → ∀ d,
      Types S J K Γ [] d (d + es.length) (each (v.node ctx) es) := fun es h _ =>
    hv.eachNode ctx es fun e he hK => h hK e he
  refine .bind (.eachPush 1 blockarg.toList fun b _ _ => compileVisitBlock ctx b) fun _ => ?_
  split
  · exact .fail
  · rename_i hboth
    refine .bind (hnode _ (fun hK => (hk hK).1.2.2) _) fun _ =>
      .bind (hnode _ (fun hK => (hk hK).1.2.1.2) _) fun _ =>
      .bind (hnode _ (fun hK => (hk hK).1.2.1.1.2) _) fun _ =>
      .bind (.eachPush 2 kwargs.reverse fun a ha _ => hv.compileKwArg ctx a fun hK =>
        (hk hK).1.2.1.1.1.2 a (List.mem_reverse.1 ha)) fun _ =>
      .bind (hnode _ (fun hK e he => (hk hK).1.2.1.1.1.1.2 e (List.mem_reverse.1 he)) _) fun _ =>
      .bind (hv.node ctx callee fun hK => (hk hK).1.1) fun _ =>
      .newLabel _ fun _ => .newLabel _ fun _ => .owned
      (.bind (.label (.tail _ (.head _))) fun _ => .bind (.opOf rfl (fun hK => ?_) fun _ => ?_)
        fun _ => .label (.head _)) rfl
    · obtain ⟨⟨-, ⟨⟨⟨⟨⟨hpos, hkw⟩, -⟩, -⟩, -⟩, -⟩, -⟩, hl, hm, hr⟩ := hk hK
      have hmod : ∀ {n : Nat}, n ≤ 1 → n % 2 ^ 8 = n := fun h => Nat.mod_eq_of_lt (by omega)
      have hopt : ∀ {α : Type} (o : Option α), o.toList.length ≤ 1 := by
        intro α o
        cases o <;> simp
      refine .same ?_ ?_
      · simp only [Op.narrow, Nat.mod_eq_of_lt hpos, Nat.mod_eq_of_lt hkw, hmod (hopt vararg),
          hmod (hopt varkwarg), Nat.mod_eq_of_lt hl, Nat.mod_eq_of_lt hm, Nat.mod_eq_of_lt hr,
          hmod (show (if blockarg.isSome || andBlock.isSome then 1 else 0) ≤ 1 by split <;> omega)]
      · simp only [Op.pops, Op.popSize, length_toList_eq, block_length hboth]
        have := hopt vararg
        split <;> omega
    · simp only [Op.pops, length_toList_eq, block_length hboth, List.length_reverse]
      change _ ∧ _ = _ + (l + m + r)
      omega

/-- What is assigned is left on the stack. -/
theorem compileVisitAssign {lineno : Lineno} {left right : Expr}
    (hk : K → countsExpr left = true ∧ countsExpr right = true) :
    Types S J K Γ [] d (d + 1) (compileVisitAssign env v ctx lineno left right) := by
  refine .bind (hv.node ctx right fun h => (hk h).2) fun _ => ?_
  cases left
  case «variable» => exact .bind (.op 1 2 rfl) fun _ => .appendStore
  case attr =>
    simp only [countsExpr] at hk
    exact .bind (.op 1 2 rfl) fun _ => .bind (hv.node ctx _ fun h => (hk h).1) fun _ => .op 2 0 rfl
  case subscript =>
    simp only [countsExpr, Bool.and_eq_true] at hk
    exact .bind (.pure ()) fun _ => .bind (hv.node ctx _ fun h => (hk h).1.2) fun _ =>
      .bind (hv.node ctx _ fun h => (hk h).1.1) fun _ => .bind (.op 1 1 rfl) fun _ => .op 3 1 rfl
  all_goals exact .bind (.pure ()) fun _ => .fail

omit hv in
theorem compileVisitLiteral {lineno : Lineno} {val : Val} :
    Types S J K Γ [] d (d + 1) (compileVisitLiteral env lineno val) := by
  unfold Yog.compileVisitLiteral
  split
  · exact .bind .registerConst fun _ => .op 0 1 rfl
  · exact .addPushConst

theorem compileVisitConditional {lineno : Lineno} {test trueExpr falseExpr : Expr}
    (hk : K → (countsExpr test = true ∧ countsExpr trueExpr = true)
      ∧ countsExpr falseExpr = true) :
    Types S J K Γ [] d (d + 1) (compileVisitConditional v ctx lineno test trueExpr falseExpr) :=
  .newLabel d fun _ => .newLabel (d + 1) fun _ => .owned
    (.bind (hv.node ctx test fun h => (hk h).1.1) fun _ =>
    .bind (.branch rfl (.tail _ (.head _)) (.op rfl rfl le_rfl) ⟨Nat.le_add_left 1 d, rfl⟩) fun _ =>
    .bind (hv.node ctx trueExpr fun h => (hk h).1.2) fun _ =>
    .bind (.jump (.head _) (Nat.le_succ d)) fun _ =>
    .bind (.label (.tail _ (.head _))) fun _ =>
    .bind (hv.node ctx falseExpr fun h => (hk h).2) fun _ => .label (.head _)) rfl

theorem compileVisitLogical {lineno : Lineno} {left right : Expr}
    (hk : K → countsExpr left = true ∧ countsExpr right = true) :
    Types S J K Γ [] d (d + 1) (compileVisitLogicalOr v ctx lineno left right)
      ∧ Types S J K Γ [] d (d + 1) (compileVisitLogicalAnd v ctx lineno left right) := by
  constructor <;>
  exact .bind (hv.node ctx left fun h => (hk h).1) fun _ => .newLabel (d + 1) fun _ => .owned
    (.bind (.op 1 2 rfl) fun _ =>
    .bind (.branch rfl (.head _) (.op rfl rfl le_rfl) ⟨Nat.le_add_left 1 (d + 1), rfl⟩) fun _ =>
    .bind (.op 1 0 rfl) fun _ => .bind (hv.node ctx right fun h => (hk h).2) fun _ =>
    .label (.head _)) rfl

theorem compileVisitExpr (e : Expr) (hk : K → countsExpr e = true) :
    Types S J K Γ [] d (d + 1) (compileVisitExpr env v ctx e) := by
  cases e <;> simp only [countsExpr, Bool.and_eq_true, decide_eq_true_eq, countsExprs_iff,
    countsDictElems_iff] at hk
  case array lineno elems =>
    exact .bind (hv.eachNode ctx elems fun e he hK => (hk hK).2 e he) fun _ =>
      .makes elems.length rfl fun hK => congrArg Op.makeArray (Nat.mod_eq_of_lt (hk hK).1)
  case set lineno elems =>
    exact .bind (hv.eachNode ctx elems fun e he hK => (hk hK).2 e he) fun _ =>
      .makes elems.length rfl fun hK => congrArg Op.makeSet (Nat.mod_eq_of_lt (hk hK).1)
  case dict lineno elems =>
    exact .bind (.depths (.eachPush 2 elems fun e he _ =>
      .bind (hv.node ctx e.key fun hK => ((hk hK).2 e he).1) fun _ =>
      hv.node ctx e.value fun hK => ((hk hK).2 e he).2) (fun _ => rfl) fun _ => by omega) fun _ =>
      .makes (2 * elems.length) rfl fun hK => congrArg Op.makeDict (Nat.mod_eq_of_lt (hk hK).1)
  case assign lineno left right => exact hv.compileVisitAssign ctx hk
  case attr lineno obj name => exact .bind (hv.node ctx obj hk) fun _ => .op 1 1 rfl
  case not lineno expr => exact .bind (hv.node ctx expr hk) fun _ => .op 1 1 rfl
  case binop lineno op left right =>
    exact .bind (hv.node ctx left fun h => (hk h).1) fun _ =>
      .bind (hv.node ctx right fun h => (hk h).2) fun _ => .op 2 1 rfl
  case subscript lineno left right =>
    exact .bind (hv.node ctx left fun h => (hk h).1) fun _ =>
      .bind (hv.node ctx right fun h => (hk h).2) fun _ => .op 2 1 rfl
  case conditional lineno test trueExpr falseExpr => exact hv.compileVisitConditional ctx hk
  case logicalAnd lineno left right => exact (hv.compileVisitLogical ctx hk).2
  case logicalOr lineno left right => exact (hv.compileVisitLogical ctx hk).1
  case funcCall lineno callee args blockarg =>
    exact hv.compileCallFunc ctx fun h => ⟨hk h, by decide⟩
  case literal lineno val => exact compileVisitLiteral
  case super lineno => exact .op 0 1 rfl
  case «variable» lineno id => exact .compileVisitVariable

end TypesNode

/-- The labels of the loop are in scope and jumps to them may be made, or there are none. -/
def Covers (J : Prop) (Γ : List (Label × Nat)) (labelWhile : Option (Label × Label))
    (jumpless : Bool) : Prop :=
  jumpless = true
    ∨ J ∧ ∀ labels, labelWhile = some labels → (labels.1, 0) ∈ Γ ∧ (labels.2, 0) ∈ Γ

theorem Covers.imp {J : Prop} {Γ : List (Label × Nat)} {w : Option (Label × Label)} {b c : Bool}
    (h : Covers J Γ w b) (hi : b = true → c = true) : Covers J Γ w c :=
  h.imp_left hi

theorem Covers.cons {J : Prop} {Γ : List (Label × Nat)} {w : Option (Label × Label)} {c : Bool}
    (h : Covers J Γ w c) (p : Label × Nat) : Covers J (p :: Γ) w c :=
  h.imp_right fun ⟨hJ, hl⟩ => ⟨hJ, fun labels hw =>
    ⟨List.mem_cons_of_mem _ (hl labels hw).1, List.mem_cons_of_mem _ (hl labels hw).2⟩⟩

/-- The `finally` bodies leave no operand on the stack. -/
def FinallyNeutral (ctx : Ctx) : Prop :=
  ∀ b ∈ ctx.finallyList, neutralStmts ctx.labelWhile.isSome b.body = true

/-- Nothing visited in this context leaves an operand on the stack. -/
def NeutralIn (ctx : Ctx) (ss : List Stmt) : Prop :=
  neutralStmts ctx.labelWhile.isSome ss = true ∧ FinallyNeutral ctx

/-- The visits `v` makes emit regions. -/
structure TypesVisits (v : Visitor) : Prop extends TypesNode v where
  stmts : ∀ {S J : Prop} {Γ : List (Label × Nat)} (ctx : Ctx) (ss : List Stmt),
    (S → NeutralIn ctx ss) →
    Covers J Γ ctx.labelWhile (clearStmts ctx.labelWhile.isSome false ss) →
    Types S J S Γ [] 0 0 (v.stmts ctx ss)

namespace TypesVisits

variable {env : YogEnv} {v : Visitor} {S J : Prop} {Γ : List (Label × Nat)} {d : Nat}
  (hv : TypesVisits v) (ctx : Ctx)
include hv

/-- The right side leaves a value for each target, if it is neutral. -/
theorem compileMultiAssignRhs {left : List Expr} {middle : Option Expr} {right : List Expr}
    {rhs : Expr} {rhsRest : List Expr}
    (hs : S → neutralMultiAssign left middle right rhs rhsRest = true)
    (hk : S → countsMultiAssign left middle right rhs rhsRest = true) :
    Types S J S Γ [] d (d + (left.length + middle.toList.length + right.length))
      (compileMultiAssignRhs env v ctx left middle right rhs rhsRest) := by
  simp only [countsMultiAssign, Bool.and_eq_true] at hk
  unfold Yog.compileMultiAssignRhs
  split
  · simp only [List.all_cons, countsExpr, Bool.and_eq_true, decide_eq_true_eq] at hk
    refine hv.compileCallFunc ctx fun hS => ⟨(hk hS).1.2.1, (hk hS).1.1.1, ?_, (hk hS).1.1.2⟩
    cases middle <;> simp
  · rename_i hcall
    have hexprs : ∀ es : List Expr, es ⊆ rhs :: rhsRest → ∀ d,
        Types S J S Γ [] d (d + es.length) (each (v.node ctx) es) := fun es hes _ =>
      hv.eachNode ctx es fun e he hS => List.all_eq_true.1 (hk hS).1.2 e (hes he)
    unfold compileMultiAssignExprs
    split
    · exact .fail
    · rename_i hlen
      rw [List.length_cons] at hlen
      have htake : ∀ k, d + ((rhs :: rhsRest).take ((rhs :: rhsRest).length - right.length)).length
          = k ↔ d + (rhsRest.length + 1 - right.length) = k := by
        intro k
        rw [List.length_take, List.length_cons, Nat.min_eq_left (Nat.sub_le _ _)]
      have hdrop : ((rhs :: rhsRest).drop ((rhs :: rhsRest).length - right.length)).length
          = right.length := by
        rw [List.length_drop, List.length_cons]
        omega
      cases middle with
      | some middle =>
        have hleft : Types S J S Γ []
            d (d + left.length + (rhsRest.length + 1 - right.length - left.length))
            (each (v.node ctx) ((rhs :: rhsRest).take ((rhs :: rhsRest).length - right.length))) :=
          .depths (hexprs _ (List.take_subset _ _) _) (fun _ => rfl) fun _ => (htake _).2 (by omega)
        have hlt : S → (rhs :: rhsRest).length - right.length - left.length < 2 ^ 64 := by
          intro hS
          obtain ⟨⟨h, -⟩, -⟩ := hk hS
          split at h
          · exact absurd rfl (hcall _ _ _ _ rfl)
          · simpa using h
        have hmake : ∀ lineno, Types S J S Γ []
            (d + left.length + (rhsRest.length + 1 - right.length - left.length))
            (d + left.length + 1)
            (addOp lineno (.makeArray ((rhs :: rhsRest).length - right.length - left.length))) :=
          fun _ => .makes _ rfl fun hS => congrArg Op.makeArray (Nat.mod_eq_of_lt (hlt hS))
        refine .bind hleft fun _ => .bind (.bind (hmake _) fun _ => .pure ()) fun _ =>
          .depths (hexprs _ (List.drop_subset _ _) _) (fun _ => rfl) fun _ => ?_
        rw [hdrop, Option.toList_some, List.length_singleton]
        omega
      | none =>
        refine .bind (hexprs _ (List.take_subset _ _) _) fun _ => .bind (.pure ()) fun _ =>
          .depths (hexprs _ (List.drop_subset _ _) _) (fun _ => rfl) fun hS => ?_
        have hn := hs hS
        rw [hdrop, (htake _).2 rfl, Option.toList_none, List.length_nil]
        have hle : rhsRest.length + 1 ≤ left.length + right.length := by
          simp only [neutralMultiAssign, Option.isSome_none, Bool.or_false, Bool.and_eq_true,
            Bool.or_eq_true, decide_eq_true_eq] at hn
          rcases hn.2 with ⟨hf, he⟩ | hn
          · rw [List.isEmpty_iff] at he
            cases rhs <;> simp only [Expr.isFuncCall, Bool.false_eq_true] at hf
            exact absurd he (hcall _ _ _ _ rfl)
          · exact hn
        omega

theorem compileVisitMultiAssign {left : List Expr} {middle : Option Expr} {right : List Expr}
    {rhs : Expr} {rhsRest : List Expr}
    (hs : S → neutralMultiAssign left middle right rhs rhsRest = true
      ∧ countsMultiAssign left middle right rhs rhsRest = true) :
    Types S J S Γ [] d d (compileVisitMultiAssign env v ctx left middle right rhs rhsRest) := by
  refine .bind (hv.compileMultiAssignRhs ctx (fun h => (hs h).1) fun h => (hs h).2) fun _ =>
    hv.compileMultiAssign ctx (fun hS => ?_) fun hS => ?_
  · have hn := (hs hS).1
    simp only [neutralMultiAssign, Bool.and_eq_true] at hn
    exact hn.1
  · have hk := (hs hS).2
    simp only [countsMultiAssign, Bool.and_eq_true] at hk
    exact hk.2

omit hv in
theorem addRaiseLastException {lineno : Lineno} :
    Types S J S Γ [] d d (addRaiseLastException env lineno) :=
  .bind (.op 0 1 rfl) fun _ => .bind (.op 0 1 rfl) fun _ => .op 2 0 rfl

theorem compileVisitFinally {lineno : Lineno} {head body : List Stmt}
    (hs : S → NeutralIn ctx head ∧ NeutralIn ctx body)
    (hc : Covers J Γ ctx.labelWhile (clearStmts ctx.labelWhile.isSome false head
      && clearStmts ctx.labelWhile.isSome false body)) :
    Types S J S Γ [] 0 0 (compileVisitFinally env v ctx lineno head body) := by
  have hstmts : ∀ node ss, (S → NeutralIn ctx ss) → ∀ a b c d,
      Covers J Γ ctx.labelWhile (clearStmts ctx.labelWhile.isSome false ss) →
      Types S J S (a :: b :: c :: d :: Γ) [] 0 0
        (v.stmts { ctx with finallyList := ⟨node, body⟩ :: ctx.finallyList } ss) := by
    intro node ss hn a b c d hc
    refine hv.stmts { ctx with finallyList := ⟨node, body⟩ :: ctx.finallyList } ss
      (fun hS => ⟨(hn hS).1, ?_⟩) ((((hc.cons _).cons _).cons _).cons _)
    exact List.forall_mem_cons.2 (hs hS).2
  have hhead := hc.imp fun h => (Bool.and_eq_true _ _ ▸ h).1
  have hbody := hc.imp fun h => (Bool.and_eq_true _ _ ▸ h).2
  exact .newLabel 0 fun node => .newLabel 0 fun _ => .newLabel 0 fun _ => .newLabel 0 fun _ =>
    .owned (.bind (.pushTry (.tail _ (.head _))) fun _ =>
    .bind (.label (.tail _ (.tail _ (.tail _ (.head _))))) fun _ =>
    .bind (.note nofun nofun) fun _ =>
    .bind (hstmts node head (fun hS => (hs hS).1) _ _ _ _ hhead) fun _ =>
    .bind (.note nofun nofun) fun _ => .bind (.label (.tail _ (.tail _ (.head _)))) fun _ =>
    .bind (hstmts node body (fun hS => (hs hS).2) _ _ _ _ hbody) fun _ =>
    .bind (.jump (.head _) le_rfl) fun _ => .bind (.label (.tail _ (.head _))) fun _ =>
    .bind (hstmts node body (fun hS => (hs hS).2) _ _ _ _ hbody) fun _ =>
    .bind addRaiseLastException fun _ => .bind (.label (.head _)) fun _ => .popTry) rfl

theorem compileExceptType {labelBodyBegin : Label} (hL : (labelBodyBegin, 0) ∈ Γ) {type : Expr}
    (hk : S → countsExpr type = true) :
    Types S J S Γ [] 0 0 (compileExceptType v ctx labelBodyBegin type) :=
  .bind (.op 0 1 rfl) fun _ => .bind (hv.node ctx type hk) fun _ => .bind (.op 2 1 rfl) fun _ =>
    .branch rfl hL (.op rfl rfl le_rfl) ⟨le_rfl, rfl⟩

theorem compileExcept {labelElseEnd : Label} (hL : (labelElseEnd, 0) ∈ Γ) {b : ExceptBody}
    (hs : S → neutralExcepts ctx.labelWhile.isSome [b] = true ∧ FinallyNeutral ctx)
    (hc : Covers J Γ ctx.labelWhile (clearExcept ctx.labelWhile.isSome false b)) :
    Types S J S Γ [] 0 0 (compileExcept env v ctx labelElseEnd b) := by
  obtain ⟨lineno, types, var, stmts⟩ := b
  simp only [neutralExcepts, Bool.and_true, Bool.and_eq_true, List.all_eq_true] at hs
  have hstmts : ∀ a b, Types S J S (a :: b :: Γ) [] 0 0 (v.stmts ctx stmts) := by
    intro a b
    refine hv.stmts ctx stmts (fun hS => ⟨(hs hS).1.2, (hs hS).2⟩)
      (((hc.imp fun h => ?_).cons _).cons _)
    simp only [clearExcept, Bool.and_eq_true] at h
    exact h.2
  exact .newLabel 0 fun _ => .newLabel 0 fun _ => .owned
    (.bind (.eachSame types fun type ht =>
      hv.compileExceptType ctx (.tail _ (.head _)) fun hS => (hs hS).1.1 type ht) fun _ =>
    .bind (.eachSame types.getLast?.toList fun _ _ => .jump (.head _) le_rfl) fun _ =>
    .bind (.label (.tail _ (.head _))) fun _ =>
    .bind (.eachSame var.toList fun _ _ => .bind (.op 0 1 rfl) fun _ => .appendStore) fun _ =>
    .bind (hstmts _ _) fun _ => .bind (.jump (.tail _ (.tail _ hL)) le_rfl) fun _ =>
    .label (.head _)) rfl

theorem compileVisitExcept {lineno : Lineno} {head : List Stmt} {excepts : List ExceptBody}
    {else_ : List Stmt} (hs : S → NeutralIn ctx head
      ∧ neutralExcepts ctx.labelWhile.isSome excepts = true
      ∧ neutralStmts ctx.labelWhile.isSome else_ = true)
    (hc : Covers J Γ ctx.labelWhile (clearStmt ctx.labelWhile.isSome false
      (.except lineno head excepts else_))) :
    Types S J S Γ [] 0 0 (compileVisitExcept env v ctx lineno head excepts else_) := by
  have hstmts : ∀ ss, (S → neutralStmts ctx.labelWhile.isSome ss = true) →
      (clearStmt ctx.labelWhile.isSome false (.except lineno head excepts else_) = true →
        clearStmts ctx.labelWhile.isSome false ss = true) →
      ∀ a b c d e, Types S J S (a :: b :: c :: d :: e :: Γ) [] 0 0 (v.stmts ctx ss) := by
    intro ss hn hi a b c d e
    exact hv.stmts ctx ss (fun hS => ⟨hn hS, (hs hS).1.2⟩)
      (((((hc.imp hi).cons _).cons _).cons _).cons _ |>.cons _)
  have hexcepts : ∀ a b c d e, ∀ x ∈ excepts, Types S J S ((a, 0) :: b :: c :: d :: e :: Γ) [] 0 0
      (Yog.compileExcept env v ctx a x) := by
    intro a b c d e x hx
    refine hv.compileExcept ctx (.head _) (fun hS => ⟨?_, (hs hS).1.2⟩)
      (((((hc.imp fun h => ?_).cons _).cons _).cons _).cons _ |>.cons _)
    · exact (neutralExcepts_iff _ excepts).1 (hs hS).2.1 x hx
    · simp only [clearStmt, Bool.and_eq_true] at h
      exact (clearExcepts_iff _ _ _).1 h.1.2 x hx
  have hhead := hstmts head (fun hS => (hs hS).1.1) fun h => by
    simp only [clearStmt, Bool.and_eq_true] at h
    exact h.1.1
  have helse := hstmts else_ (fun hS => (hs hS).2.2) fun h => by
    simp only [clearStmt, Bool.and_eq_true] at h
    exact h.2
  exact .newLabel 0 fun _ => .newLabel 0 fun _ => .newLabel 0 fun _ => .newLabel 0 fun _ =>
    .newLabel 0 fun _ => .owned (.bind (.pushTry (.tail _ (.tail _ (.head _)))) fun _ =>
    .bind (.label (.tail _ (.tail _ (.tail _ (.tail _ (.head _)))))) fun _ =>
    .bind (.note nofun nofun) fun _ =>
    .bind (hhead _ _ _ _ _) fun _ =>
    .bind (.note nofun nofun) fun _ =>
    .bind (.label (.tail _ (.tail _ (.tail _ (.head _))))) fun _ =>
    .bind (.jump (.tail _ (.head _)) le_rfl) fun _ =>
    .bind (.label (.tail _ (.tail _ (.head _)))) fun _ =>
    .bind (.eachSame excepts fun x hx => hexcepts _ _ _ _ _ x hx) fun _ =>
    .bind addRaiseLastException fun _ => .bind (.label (.tail _ (.head _))) fun _ =>
    .bind (helse _ _ _ _ _) fun _ =>
    .bind (.label (.head _)) fun _ => .popTry) rfl

theorem compileVisitWhile {lineno : Lineno} {test : Expr} {stmts : List Stmt}
    (hs : S → (countsExpr test = true ∧ neutralStmts true stmts = true) ∧ FinallyNeutral ctx)
    (hc : Covers J Γ ctx.labelWhile (clearStmt ctx.labelWhile.isSome false
      (.while_ lineno test stmts))) :
    Types S J S Γ [] 0 0 (compileVisitWhile v ctx lineno test stmts) := by
  have hstmts : ∀ a b, Types S J S ((b, 0) :: (a, 0) :: Γ) [] 0 0
      (v.stmts { ctx with labelWhile := some (a, b) } stmts) := by
    intro a b
    refine hv.stmts { ctx with labelWhile := some (a, b) } stmts (fun hS => ⟨(hs hS).1.2,
      fun b hb => neutralStmts_inLoop b.body ((hs hS).2 b hb)⟩) ?_
    rcases hc with hc | ⟨hJ, -⟩
    · simp only [clearStmt, Bool.and_eq_true] at hc
      exact .inl hc.2
    · refine .inr ⟨hJ, fun labels hw => ?_⟩
      cases hw
      exact ⟨.tail _ (.head _), .head _⟩
  exact .newLabel 0 fun _ => .newLabel 0 fun _ => .owned
    (.bind (.label (.tail _ (.head _))) fun _ =>
    .bind (hv.node _ test fun hS => (hs hS).1.1) fun _ =>
    .bind (.branch rfl (.head _) (.op rfl rfl le_rfl) ⟨le_rfl, rfl⟩) fun _ =>
    .bind (hstmts _ _) fun _ =>
    .bind (.jump (.tail _ (.head _)) le_rfl) fun _ => .label (.head _)) rfl

theorem compileVisitIf {lineno : Lineno} {test : Expr} {stmts tail : List Stmt}
    (hs : S → countsExpr test = true ∧ NeutralIn ctx stmts ∧ NeutralIn ctx tail)
    (hc : Covers J Γ ctx.labelWhile (clearStmt ctx.labelWhile.isSome false
      (.if_ lineno test stmts tail))) :
    Types S J S Γ [] 0 0 (compileVisitIf v ctx test stmts tail) := by
  have hthen : ∀ a b, Types S J S (b :: a :: Γ) [] 0 0 (v.stmts ctx stmts) := fun a b =>
    hv.stmts ctx stmts (fun hS => (hs hS).2.1) (((hc.imp fun h => by
      simp only [clearStmt, Bool.and_eq_true] at h
      exact h.1.2).cons _).cons _)
  have helse : ∀ a b, Types S J S (b :: a :: Γ) [] 0 0 (v.stmts ctx tail) := fun a b =>
    hv.stmts ctx tail (fun hS => (hs hS).2.2) (((hc.imp fun h => by
      simp only [clearStmt, Bool.and_eq_true] at h
      exact h.2).cons _).cons _)
  exact .newLabel 0 fun _ => .newLabel 0 fun _ => .owned
    (.bind (hv.node ctx test fun hS => (hs hS).1) fun _ =>
    .bind (.branch rfl (.tail _ (.head _)) (.op rfl rfl le_rfl) ⟨le_rfl, rfl⟩) fun _ =>
    .bind (hthen _ _) fun _ =>
    .bind (.jump (.head _) le_rfl) fun _ => .bind (.label (.tail _ (.head _))) fun _ =>
    .bind (helse _ _) fun _ => .label (.head _)) rfl

/-- The copies of the `finally` bodies of a jump. -/
theorem compileFinallyCopy {b : FinallyListEntry} (hb : b ∈ ctx.finallyList)
    (hs : S → FinallyNeutral ctx) (hJ : J)
    (hc : Covers J Γ ctx.labelWhile (clearStmts ctx.labelWhile.isSome false b.body)) :
    Types S J S Γ [] 0 0 (compileFinallyCopy v ctx b) :=
  .newLabel 0 fun _ => .newLabel 0 fun _ => .owned (.bind (.label (.tail _ (.head _))) fun _ =>
    .bind (.note (fun _ => hJ) nofun) fun _ =>
    .bind (hv.stmts ctx b.body (fun hS => ⟨hs hS b hb, hs hS⟩) ((hc.cons _).cons _)) fun _ =>
    .bind (.note (fun _ => hJ) nofun) fun _ => .bind (.label (.head _)) fun _ => .splitTries) rfl

theorem compileWhileJump {lineno : Lineno} {labels : Label × Label} {jumpTo : Label}
    (hw : ctx.labelWhile = some labels) (hto : jumpTo = labels.1 ∨ jumpTo = labels.2)
    (hs : S → FinallyNeutral ctx)
    (hc : Covers J Γ ctx.labelWhile false) :
    Types S J S Γ [] 0 0 (compileWhileJump v ctx lineno jumpTo) := by
  have hc' : J ∧ ∀ labels, ctx.labelWhile = some labels → (labels.1, 0) ∈ Γ ∧ (labels.2, 0) ∈ Γ :=
    hc.resolve_left (by simp)
  obtain ⟨h₁, h₂⟩ := hc'.2 labels hw
  refine .bind (.eachSame ctx.finallyList fun b hb =>
    hv.compileFinallyCopy ctx hb hs hc'.1 (.inr hc')) fun _ => .jump ?_ le_rfl
  rcases hto with rfl | rfl
  · exact h₁
  · exact h₂

theorem exprsStop {exprs : List Expr} {lineno : Lineno} {op : Op Label} (hd : op.dest? = none)
    (hf : op.fallsThrough = false) (hp : op.pops = exprs.length)
    (hn : exprs.length < 2 ^ 8 → Inst.CountsKept (.op lineno op))
    (hk : S → exprs.all countsExpr = true) :
    Types S J S Γ [] 0 0
      (visitArrayElementsOppositeOrder v ctx exprs >>= fun _ => addOp lineno op) := by
  unfold visitArrayElementsOppositeOrder
  split
  · rename_i hlt
    refine .bind (.depths (hv.eachNode ctx exprs.reverse fun e he hS =>
      List.all_eq_true.1 (hk hS) e (List.mem_reverse.1 he)) (fun _ => rfl) fun _ => ?_) fun _ =>
      .stop (d := exprs.length) hd hf (fun _ => hn hlt) fun _ => ⟨hp.le, by omega⟩
    simp
  · exact (.fail : Types S J S Γ [] 0 0
      (Emission.fail (.bug "max array size is 255") : Compile Unit))

theorem compileVisitBreak {lineno : Lineno} {exprs : List Expr}
    (hs : S → FinallyNeutral ctx)
    (hk : S → (ctx.labelWhile.isSome || exprs.all countsExpr) = true)
    (hc : Covers J Γ ctx.labelWhile (clearStmt ctx.labelWhile.isSome false
      (.break_ lineno exprs))) :
    Types S J S Γ [] 0 0 (compileVisitBreak v ctx lineno exprs) := by
  unfold Yog.compileVisitBreak
  split
  · rename_i hw
    simp only [clearStmt, hw, Option.isSome_some, if_true] at hc
    exact hv.compileWhileJump ctx hw (.inr rfl) hs (hw ▸ hc)
  · rename_i hw
    exact hv.exprsStop ctx rfl rfl rfl (fun h => .same
      (congrArg Op.longBreak (Nat.mod_eq_of_lt h)) le_rfl)
      (by simpa [hw] using hk)

theorem compileVisitNext {lineno : Lineno} {exprs : List Expr}
    (hs : S → FinallyNeutral ctx)
    (hk : S → (ctx.labelWhile.isSome || exprs.all countsExpr) = true)
    (hc : Covers J Γ ctx.labelWhile (clearStmt ctx.labelWhile.isSome false
      (.next lineno exprs))) :
    Types S J S Γ [] 0 0 (compileVisitNext env v ctx lineno exprs) := by
  unfold Yog.compileVisitNext
  split
  · rename_i hw
    simp only [clearStmt, hw, Option.isSome_some, if_true] at hc
    exact hv.compileWhileJump ctx hw (.inl rfl) hs (hw ▸ hc)
  · rename_i hw
    split
    · exact .bind .addPushConst fun _ =>
        .stop rfl rfl (fun _ => .op rfl rfl le_rfl) fun _ => ⟨le_rfl, by decide⟩
    · exact hv.exprsStop ctx rfl rfl rfl (fun h => .same
        (congrArg Op.ret (Nat.mod_eq_of_lt h)) le_rfl)
        (by simpa [hw] using hk)

theorem compileVisitReturn {lineno : Lineno} {exprs : List Expr}
    (hk : S → exprs.all countsExpr = true) :
    Types S J S Γ [] 0 0 (compileVisitReturn v ctx lineno exprs) := by
  refine hv.exprsStop ctx ?_ ?_ ?_ (fun h => ?_) hk
  all_goals split
  any_goals rfl
  · exact .same (congrArg Op.longReturn (Nat.mod_eq_of_lt h)) le_rfl
  · exact .same (congrArg Op.ret (Nat.mod_eq_of_lt h)) le_rfl

theorem compileDecoratorsCall {decorators : List Expr}
    (hk : S → decorators.all countsExpr = true) :
    Types S J S Γ [] (d + 1) (d + 1) (compileDecoratorsCall v ctx decorators) :=
  .eachSame decorators fun e he =>
    .bind (hv.node ctx e fun hS => List.all_eq_true.1 (hk hS) e he) fun _ => .op (d := d) 2 1 rfl

theorem compileVisitFuncDef {lineno : Lineno} {decorators : List Expr} {name : ID}
    {params : List Param} {stmts : List Stmt} (hk : S → decorators.all countsExpr = true) :
    Types S J S Γ [] d d (compileVisitFuncDef env v ctx lineno decorators name params stmts) :=
  .bind .compileInner fun _ => .bind .addPushConst fun _ => .bind (.op 1 1 rfl) fun _ =>
    .bind (hv.compileDecoratorsCall ctx hk) fun _ => .appendStore

theorem compileVisitClass {lineno : Lineno} {decorators : List Expr} {name : ID}
    {super : Option Expr} {stmts : List Stmt}
    (hk : S → decorators.all countsExpr = true ∧ super.toList.all countsExpr = true) :
    Types S J S Γ [] d d (compileVisitClass env v ctx lineno decorators name super stmts) := by
  have hsuper : ∀ d, Types S J S Γ [] d (d + 1) (compileSuper env v ctx lineno super) := by
    intro d
    cases super with
    | none => exact .addPushConst
    | some super => exact hv.node ctx super fun hS => by simpa using (hk hS).2
  exact .bind .addPushConst fun _ => .bind (hsuper _) fun _ => .bind .compileInner fun _ =>
    .bind .addPushConst fun _ => .bind (.op 3 2 rfl) fun _ => .bind (.op 1 0 rfl) fun _ =>
    .bind (hv.compileDecoratorsCall ctx fun hS => (hk hS).1) fun _ => .appendStore

omit hv in
theorem compileVisitModule {lineno : Lineno} {name : ID} {stmts : List Stmt} :
    Types S J S Γ [] d d (compileVisitModule env v ctx lineno name stmts) :=
  .bind .compileInner fun _ => .bind .addPushConst fun _ => .bind (.op 1 2 rfl) fun _ =>
    .bind (.op 1 0 rfl) fun _ => .appendStore

omit hv in
theorem compileImport {lineno : Lineno} {name : ID} {rest : List ID} :
    Types S J S Γ [] d (d + 1) (compileImport env lineno name rest) :=
  .bind .addPushConst fun _ => .bind (.op 0 1 rfl) fun _ => .op (d := d) 2 1 rfl

omit hv in
theorem compileLoadPkgAttr {lineno : Lineno} {rest : List ID} :
    Types S J S Γ [] (d + 1) (d + 1) (compileLoadPkgAttr lineno rest) :=
  .eachSame rest fun _ _ => .op 1 1 rfl

omit hv in
theorem compileStorePkgAttr {lineno : Lineno} {attr : ImportedAttr} :
    Types S J S Γ [] (d + 1) d (compileStorePkgAttr env ctx lineno attr) :=
  .bind (.op 1 1 rfl) fun _ => .appendStore

omit hv in
theorem compileVisitFrom {lineno : Lineno} {pkg : ID} {pkgRest : List ID} {attr : ImportedAttr}
    {attrs : List ImportedAttr} :
    Types S J S Γ [] d d (compileVisitFrom env ctx lineno pkg pkgRest attr attrs) :=
  .bind compileImport fun _ => .bind compileLoadPkgAttr fun _ =>
    .bind (.eachSame (attr :: attrs).dropLast fun _ _ => .bind (.op 1 2 rfl) fun _ =>
      compileStorePkgAttr ctx) fun _ => compileStorePkgAttr ctx

omit hv in
theorem compileVisitImport {lineno : Lineno} {name : ID} {nameRest : List ID} {as : Option ID} :
    Types S J S Γ [] d d (compileVisitImport env ctx lineno name nameRest as) := by
  cases as with
  | none => exact .bind compileImport fun _ => .appendStore
  | some as => exact .bind compileImport fun _ => .bind compileLoadPkgAttr fun _ => .appendStore

theorem compileVisitRaise {lineno : Lineno} {e : Option Expr}
    (hk : S → e.toList.all countsExpr = true) :
    Types S J S Γ [] d d (compileVisitRaise env v ctx lineno e) := by
  cases e with
  | none => exact addRaiseLastException
  | some e =>
    exact .bind (hv.node ctx e fun hS => by simpa using hk hS) fun _ =>
      .bind (.op 0 1 rfl) fun _ => .op 2 0 rfl

end TypesVisits

end Yog
