import Yog.Proofs.Assembly
import Yog.Proofs.Evaluation

/-!
# The depth of the operand stack

The code of a body whose statements are neutral takes the stack of its frame from empty to empty,
statement by statement, so the depth at every place is a fixed number. As `count_stack_size` adds up
at least what is on the stack, the depth never exceeds the size it counts.
-/

namespace Yog

open StackCode

/-- The values a statement leaves before `process_stack_top`. -/
def Stmt.values (ctx : Ctx) : Stmt → Nat
  | .expr (.funcCall ..) => if ctx.interactive then 1 else 0
  | .expr _ => 1
  | _ => 0

namespace TypesVisits

variable {env : YogEnv} {v : Visitor} {S J : Prop} {Γ : List (Label × Nat)} (hv : TypesVisits v)
  (ctx : Ctx)
include hv

theorem compileVisitStmt {stmt : Stmt}
    (hs : S → neutralStmt ctx.labelWhile.isSome stmt = true ∧ FinallyNeutral ctx)
    (hc : Covers J Γ ctx.labelWhile (clearStmt ctx.labelWhile.isSome false stmt)) :
    Types S J S Γ [] 0 (stmt.values ctx) (compileVisitStmt env v ctx stmt) := by
  cases stmt <;> simp only [neutralStmt, Bool.and_eq_true] at hs
  case expr e =>
    have hk := fun hS => (hs hS).1.2
    cases e
    case funcCall lineno callee args blockarg =>
      simp only [countsExpr, Bool.and_eq_true] at hk
      refine .depths (hv.compileCallFunc ctx fun hS => ⟨hk hS, by decide, ?_, by decide⟩)
        (fun _ => rfl) fun _ => ?_
      · split <;> decide
      · simp [Stmt.values]
    all_goals exact hv.node ctx _ hk
  case break_ lineno exprs =>
    exact hv.compileVisitBreak ctx (fun hS => (hs hS).2) (fun hS => (hs hS).1) hc
  case next lineno exprs =>
    exact hv.compileVisitNext ctx (fun hS => (hs hS).2) (fun hS => (hs hS).1) hc
  case klass lineno decorators name super stmts =>
    exact hv.compileVisitClass ctx fun hS => (hs hS).1
  case except lineno head excepts else_ =>
    exact hv.compileVisitExcept ctx
      (fun hS => ⟨⟨(hs hS).1.1.1, (hs hS).2⟩, (hs hS).1.1.2, (hs hS).1.2⟩) hc
  case finally_ lineno head body =>
    exact hv.compileVisitFinally ctx
      (fun hS => ⟨⟨(hs hS).1.1, (hs hS).2⟩, (hs hS).1.2, (hs hS).2⟩) hc
  case from_ lineno pkg pkgRest attr attrs => exact compileVisitFrom ctx
  case funcDef lineno decorators name params stmts =>
    exact hv.compileVisitFuncDef ctx fun hS => (hs hS).1
  case if_ lineno test stmts tail =>
    exact hv.compileVisitIf ctx
      (fun hS => ⟨(hs hS).1.1.1, ⟨(hs hS).1.1.2, (hs hS).2⟩, (hs hS).1.2, (hs hS).2⟩) hc
  case import_ lineno name nameRest as => exact compileVisitImport ctx
  case module_ lineno name stmts => exact compileVisitModule ctx
  case multiAssign lineno left middle right rhs rhsRest =>
    exact hv.compileVisitMultiAssign ctx fun hS => (hs hS).1
  case «nonlocal» => exact .pure ()
  case raise lineno expr => exact hv.compileVisitRaise ctx fun hS => (hs hS).1
  case return_ lineno exprs => exact hv.compileVisitReturn ctx fun hS => (hs hS).1
  case while_ lineno test stmts => exact hv.compileVisitWhile ctx hs hc

omit hv in
/-- What a neutral statement leaves is popped. -/
theorem processStackTop {stmt : Stmt} {inLoop : Bool}
    (hs : S → neutralStmt inLoop stmt = true) :
    Types S J S Γ [] (stmt.values ctx) 0 (processStackTop ctx stmt) := by
  unfold Yog.processStackTop
  split
  · rename_i hv
    have hvalues : stmt.values ctx = 1 := by
      unfold leavesValue at hv
      split at hv
      any_goals rfl
      cases hv
    rw [hvalues]
    split <;> exact .op 1 0 rfl
  · rename_i hv
    split
    · simp only [Stmt.values]
      split
      · exact .op 1 0 rfl
      · exact .pure ()
    · rename_i hcall
      refine .depths (d := 0) (e := 0) (.pure ()) (fun hS => ?_) fun _ => rfl
      cases stmt with
      | expr e =>
        have hn := hs hS
        simp only [neutralStmt, neutralExpr, Bool.and_eq_true, Bool.or_eq_true] at hn
        rcases hn.1 with hleaves | hfunc
        · exact absurd hleaves hv
        · cases e <;> simp only [Expr.isFuncCall, Bool.false_eq_true] at hfunc
          exact absurd rfl (hcall _ _ _ _)
      | _ => rfl

theorem compileVisitStmts {stmts : List Stmt} (hs : S → NeutralIn ctx stmts)
    (hc : Covers J Γ ctx.labelWhile (clearStmts ctx.labelWhile.isSome false stmts)) :
    Types S J S Γ [] 0 0 (compileVisitStmts env v ctx stmts) := by
  refine .eachSame stmts fun stmt hstmt => ?_
  have hneutral : S → neutralStmt ctx.labelWhile.isSome stmt = true := fun hS =>
    (neutralStmts_iff _ _).1 (hs hS).1 stmt hstmt
  refine .bind (.note nofun fun _ h => by cases h; rfl) fun _ =>
    .bind (hv.compileVisitStmt ctx (fun hS => ⟨hneutral hS, (hs hS).2⟩) (hc.imp fun h => ?_))
      fun _ => .bind (processStackTop ctx hneutral) fun _ => .note nofun fun _ h => by cases h; rfl
  exact (clearStmts_iff _ _ _).1 h stmt hstmt

end TypesVisits

theorem typesVisits_visitor (env : YogEnv) : ∀ fuel, TypesVisits (visitor env fuel)
  | 0 => ⟨typesNode_visitor env 0, fun _ _ _ _ => .fail⟩
  | fuel + 1 => ⟨typesNode_visitor env (fuel + 1),
      fun ctx _ hs hc => (typesVisits_visitor env fuel).compileVisitStmts ctx hs hc⟩

def countsParam : Param → Bool
  | .mk _ _ _ default_ => default_.toList.all countsExpr

/-- The statements of a body leave no operand, nor do the defaults of its parameters. -/
def neutralBody (params : List Param) (stmts : List Stmt) : Bool :=
  params.all countsParam && neutralStmts false stmts

section Body

variable {env : YogEnv} {v : Visitor} {J K : Prop} {Γ : List (Label × Nat)} {ctx : Ctx}
  {params : List Param} {stmts : List Stmt}

theorem Types.compileDefault {S : Prop} (hv : TypesNode v) {param : Param}
    (hk : K → countsParam param = true) :
    Types S J K Γ [] 0 0 (compileDefault env v ctx param) := by
  obtain ⟨type, lineno, name, default_⟩ := param
  cases default_ with
  | none => exact .pure ()
  | some expr =>
    simp only [Yog.compileDefault]
    split
    · exact .newLabel 0 fun _ => .owned
        (.bind (.branch (d := 0) rfl (.head _) (.op rfl rfl le_rfl) ⟨le_rfl, rfl⟩) fun _ =>
        .bind (hv.node ctx expr fun h => by simpa [countsParam] using hk h) fun _ =>
        .bind .appendStore fun _ => .label (.head _)) rfl
    · exact .fail

/-- The code of a neutral body takes the stack from empty to empty. -/
theorem TypesVisits.compileBody {S : Prop} (hv : TypesVisits v) (hw : ctx.labelWhile = none)
    (hf : ctx.finallyList = []) (hs : S → neutralBody params stmts = true) :
    Types S True S [] [] 0 0 (compileBody env v ctx params stmts) := by
  simp only [neutralBody, Bool.and_eq_true, List.all_eq_true] at hs
  refine .newLabel 0 fun label => .owned (.bind (.label (.head _)) fun _ =>
    .bind (.eachSame params fun p hp =>
      Types.compileDefault hv.toTypesNode fun hS => (hs hS).1 p hp) fun _ =>
    hv.stmts ctx stmts (fun hS => ⟨?_, ?_⟩) (.inr ⟨trivial, fun _ h => ?_⟩)) rfl
  · rw [hw]
    exact (hs hS).2
  · rw [FinallyNeutral, hf]
    nofun
  · rw [hw] at h
    cases h

end Body

section Layout

variable {env : Label → Nat} {l : List Inst} {D : Nat → Nat}

theorem labels_narrow (i : Inst) : i.narrow.label? = i.label? ∧ i.narrow.dest? = i.dest?
    ∧ i.narrow.falls = i.falls ∧ i.narrow.depth? = i.depth? := by
  cases i with
  | op lineno op => cases op <;> exact ⟨rfl, rfl, rfl, rfl⟩
  | _ => exact ⟨rfl, rfl, rfl, rfl⟩

/-- An element that is stored as it was meant is typed as it was. -/
theorem local_narrow {i : Inst} {d d' : Nat} (h : instCode.Local env i d d')
    (hk : i.CountsKept) : instCode.Local env i.narrow d d' := by
  obtain ⟨hlabel, hdest, hfalls, hdepth⟩ := labels_narrow i
  have hp : instCode.pops i.narrow = instCode.pops i := hk.pops
  have hq : instCode.pushes i.narrow = instCode.pushes i := hk.pushes
  exact ⟨fun L hL => h.label L (hlabel.symm.trans hL), hp.trans_le h.pops,
    fun L hL => by rw [hp, hq]; exact h.dest L (hdest.symm.trans hL),
    fun hf => by rw [hp, hq]; exact h.falls (hfalls.symm.trans hf), by rw [hp, hq]; exact h.le,
    fun n hn => h.depth n (hdepth.symm.trans hn)⟩

/-- What `count_stack_size` counts is at least the depth at every place. -/
theorem depth_le : ∀ {l : List Inst} {D : Nat → Nat} {size max n : Nat},
    instCode.Depths env l D → (∀ lineno op, .op lineno op ∈ l → op.popSize ≤ op.pops) →
    D 0 ≤ size → size ≤ max → countStackSizeFrom l size max = .ok n →
    max ≤ n ∧ ∀ j ≤ l.length, D j ≤ n
  | [], D, size, max, n, _, _, h₀, hle, h => by
    cases h
    refine ⟨le_rfl, fun j hj => ?_⟩
    rw [Nat.le_zero.1 hj]
    exact h₀.trans hle
  | i :: l, D, size, max, n, hD, hk, h₀, hle, h => by
    have hd := (hD 0 i rfl).le
    have hrest : instCode.Depths env l fun j => D (j + 1) := fun j i' hi => hD (j + 1) i' hi
    obtain ⟨size', max', h₁, hle', hmax, h⟩ : ∃ size' max', D 1 ≤ size' ∧ size' ≤ max' ∧ max ≤ max'
        ∧ countStackSizeFrom l size' max' = .ok n := by
      cases i with
      | label L | note m => exact ⟨size, max, hd.trans h₀, hle, le_rfl, h⟩
      | op lineno op =>
        have hpops := hk lineno op (.head _)
        change D 1 + op.pops ≤ D 0 + op.pushSize at hd
        simp only [countStackSizeFrom] at h
        split at h
        · cases h
        · refine ⟨_, _, ?_, ?_, ?_, h⟩
          · omega
          · split <;> omega
          · split <;> omega
    obtain ⟨hmax', hj⟩ := depth_le hrest (fun _ _ ho => hk _ _ (.tail _ ho)) h₁ hle' h
    refine ⟨hmax.trans hmax', fun j hlt => ?_⟩
    cases j with
    | zero => omega
    | succ j => exact hj j (Nat.le_of_succ_le_succ hlt)

/-- Between places of one program counter the depth does not change. -/
theorem depth_eq_of_codeSize (hD : instCode.Depths env l D) {j : Nat} : ∀ k, j + k ≤ l.length →
      codeSize (l.take (j + k)) = codeSize (l.take j) → D (j + k) = D j
  | 0, _, _ => rfl
  | k + 1, hle, h => by
    have hlt : j + k < l.length := by omega
    have htake : codeSize (l.take (j + k + 1)) = codeSize (l.take (j + k)) + l[j + k].size := by
      rw [List.take_add_one, List.getElem?_eq_getElem hlt, codeSize_append]
      simp
    have hmono : codeSize (l.take j) ≤ codeSize (l.take (j + k)) := by
      rw [List.take_add, codeSize_append]
      exact Nat.le_add_right _ _
    rw [← Nat.add_assoc] at h ⊢
    have hsize : l[j + k].size = 0 := by omega
    have hlocal := hD (j + k) l[j + k] (List.getElem?_eq_getElem hlt)
    have hsame : D (j + k + 1) = D (j + k) := by
      generalize l[j + k] = i at hsize hlocal
      cases i with
      | op lineno op => exact absurd hsize (Nat.ne_of_gt op.opcode.instSize_pos)
      | _ => exact hlocal.falls rfl
    rw [hsame]
    exact depth_eq_of_codeSize hD k (by omega) (by omega)

theorem depth_eq (hD : instCode.Depths env l D) {j k : Nat} (hj : j ≤ l.length) (hk : k ≤ l.length)
    (h : codeSize (l.take j) = codeSize (l.take k)) : D j = D k := by
  rcases Nat.le_total j k with hle | hle
  · obtain ⟨n, rfl⟩ := Nat.exists_eq_add_of_le hle
    exact (depth_eq_of_codeSize hD n hk h.symm).symm
  · obtain ⟨n, rfl⟩ := Nat.exists_eq_add_of_le hle
    exact depth_eq_of_codeSize hD n hj h

/-- The depth at a program counter of a label. The node of a label that is not in the list has that
of the list's start. -/
theorem depth_at_label (hD : instCode.Depths env l D) (h₀ : D 0 = 0) {L : Label} (hL : env L = 0)
    {j : Nat} (hj : j ≤ l.length) (h : codeSize (l.take j) = labelPc L l) : D j = 0 := by
  by_cases hmem : .label L ∈ l
  · obtain ⟨before, after, rfl, hpc⟩ := labelPc_eq_of_mem hmem
    have hlocal := hD before.length (.label L) (by simp)
    rw [depth_eq hD hj (k := before.length) (by simp) (by simpa [hpc] using h),
      ← hlocal.label L rfl, hL]
  · rw [labelPc_eq_zero hmem] at h
    rw [depth_eq hD hj (Nat.zero_le _) (by simpa using h), h₀]

/-- A finished list is typed as the code of its body is, and stored as it was meant. -/
theorem typed_withRet {insts : List Inst} (h : instCode.Typed env insts 0 0)
    (hk : ∀ i ∈ insts, i.CountsKept) (hc : instCode.Closed insts) :
    instCode.Typed env (withRet insts) 0 0 ∧ (∀ i ∈ withRet insts, i.CountsKept)
      ∧ instCode.Closed (withRet insts) := by
  unfold withRet
  split
  · exact ⟨h, hk, hc⟩
  · refine ⟨h.append ⟨0, ⟨nofun, le_rfl, nofun, nofun, le_rfl, nofun⟩, rfl⟩, fun i hi => ?_,
      hc.append (.singleton rfl)⟩
    rcases List.mem_append.1 hi with hi | hi
    · exact hk i hi
    · rw [List.mem_singleton.1 hi]
      exact .op rfl rfl le_rfl

theorem closed_narrow {list : List Inst} (h : instCode.Closed list) :
    instCode.Closed (list.map Inst.narrow) := by
  simpa [Closed, labels, dests, instCode, labels_narrow] using h

/-- The depths of the operand stack in a body: none above its size, no operand where the table leads
to. It only jumps inside itself, and ends with a `RET`. -/
structure CodeOf.HasDepths (code : CodeOf Code) (env : Label → Nat) (D : Nat → Nat) : Prop where
  closed : instCode.Closed (code.list.map Inst.narrow)
  ends : EndsWithRet (code.list.map Inst.narrow)
  depths : instCode.Depths env (code.list.map Inst.narrow) D
  start : D 0 = 0
  le : ∀ j ≤ code.list.length, D j ≤ code.stackSize
  handler : ∀ pc target, findExceptionTableEntry code.excTbl pc = some target →
    ∀ j ≤ code.list.length, codeSize ((code.list.map Inst.narrow).take j) = target → D j = 0

end Layout

section Steps

variable {V : Type} {array : List V → V} {list : List Inst} {c c' : Config V} {ps : List Nat}

/-- No step leads behind the last `RET`, for what stands there has no label. -/
theorem exists_of_run (h : EndsWithRet list) (hr : FrameRun array list ⟨0, []⟩ ps c) :
    ∃ i, list[c.pos]? = some i := by
  obtain ⟨body, lineno, n, notes, rfl, hnotes⟩ := h
  have hret : (body ++ Inst.op lineno (.ret n) :: notes)[body.length]? =
      some (.op lineno (.ret n)) := by simp
  have hlast : ∀ (x : Inst) (j : Nat), body.length < j →
      (body ++ Inst.op lineno (.ret n) :: notes)[j]? = some x → x.label? = none := by
    intro x j hj hx
    rw [List.append_cons, List.getElem?_append_right (by simpa using hj)] at hx
    have hnote := hnotes x (List.mem_of_getElem? hx)
    cases x with
    | note m => rfl
    | _ => cases hnote
  suffices c.pos ≤ body.length from
    ⟨_, List.getElem?_eq_getElem (by simp only [List.length_append, List.length_cons]; omega)⟩
  generalize hc : (⟨0, []⟩ : Config V) = c₀ at hr
  have hle : c₀.pos ≤ body.length := hc ▸ Nat.zero_le _
  clear hc
  induction hr with
  | refl => exact hle
  | step hs _ ih =>
    refine ih ?_
    cases hs with
    | @next pos i _ _ _ hi _ _ hfalls =>
      rcases hle.lt_or_eq with hlt | heq
      · exact hlt
      · rw [show pos = body.length from heq, hret, Option.some.injEq] at hi
        subst hi
        cases hfalls
    | jump _ _ _ _ hto hL =>
      by_contra hlt
      rw [show instCode.label? _ = none from hlast _ _ (not_le.1 hlt) hto] at hL
      cases hL

theorem exists_leaves [Nonempty V] (i : Inst) {popped : List V} (h : popped.length = i.pops) :
    ∃ pushed, i.Leaves array popped pushed := by
  cases i with
  | label l | note n => exact ⟨[], rfl⟩
  | op lineno op =>
    cases op with
    | dup =>
      obtain ⟨v, rfl⟩ := List.length_eq_one_iff.1 h
      exact ⟨_, v, rfl, rfl⟩
    | makeArray n => exact ⟨_, rfl⟩
    | _ => exact ⟨_, List.length_replicate (a := Classical.arbitrary V)⟩

theorem exists_frameStep [Nonempty V] {i : Inst} (hclosed : instCode.Closed list)
    (hi : list[c.pos]? = some i) (hpops : i.pops ≤ c.stack.length)
    (hgoes : ¬ (i.falls = false ∧ i.dest? = none)) : ∃ c', FrameStep array list c c' := by
  obtain ⟨pos, stack⟩ := c
  obtain ⟨popped, rest, rfl, hlen⟩ : ∃ popped rest, stack = popped ++ rest ∧
      popped.length = i.pops :=
    ⟨_, _, (List.take_append_drop i.pops stack).symm, List.length_take_of_le hpops⟩
  obtain ⟨pushed, hpushed⟩ : ∃ pushed, i.Leaves array popped pushed := exists_leaves i hlen
  cases hfalls : i.falls with
  | true => exact ⟨_, .next hi hlen hpushed hfalls⟩
  | false =>
    obtain ⟨L, hL⟩ := Option.ne_none_iff_exists'.1 fun hnone => hgoes ⟨hfalls, hnone⟩
    obtain ⟨x, hx, hxL⟩ := List.mem_filterMap.1
      (hclosed L (List.mem_filterMap.2 ⟨i, List.mem_of_getElem? hi, hL⟩))
    obtain ⟨dest, hdest⟩ := List.mem_iff_getElem?.1 hx
    exact ⟨_, .jump hi hlen hpushed hL hdest hxL⟩

end Steps

/-- The code of a neutral body. A body starts in no loop and in no `finally`. -/
inductive CodeOf.OfNeutral (code : CodeOf Code) : Prop where
  | mk {env fuel ctx funcName params stmts depths depths'} : ctx.labelWhile = none →
      ctx.finallyList = [] → neutralBody params stmts = true →
      compileStmts env (visitor env fuel) ctx funcName params stmts depths
        = .ok (.mk code, depths') → code.OfNeutral

section Runs

variable {V : Type} {code : CodeOf Code}

theorem CodeOf.OfNeutral.exists_depths (h : code.OfNeutral) :
    ∃ (env : Label → Nat) (D : Nat → Nat), code.HasDepths env D := by
  obtain @⟨env, fuel, _, _, _, _, _, _, hw, hf, hn, h⟩ := h
  obtain ⟨insts, s, hb, hm⟩ := compileStmts_eq_ok h
  obtain ⟨hlist, -, -, hsize, hexc, -⟩ := makeCode_eq_ok hm
  have hflows := (typesVisits_visitor env fuel).compileBody (S := True) hw hf (fun _ => hn)
    _ _ _ _ hb
  obtain ⟨f, hf⟩ := hflows.typed trivial
  obtain ⟨ht, hrows⟩ := hf f (fun _ _ _ => rfl) nofun
  obtain ⟨ht, hk, hclosed⟩ := typed_withRet ht (hflows.counts trivial) fun L hL =>
    (hflows.dests L hL).resolve_right nofun
  obtain ⟨D, h₀, -, hD⟩ := ht.exists_depths
  rw [← hlist] at hD hk hclosed
  have hstored : instCode.Depths f (code.list.map Inst.narrow) D := by
    intro j i hi
    rw [List.getElem?_map, Option.map_eq_some_iff] at hi
    obtain ⟨i, hi, rfl⟩ := hi
    exact local_narrow (hD j i hi) (hk i (List.mem_of_getElem? hi))
  have hpops : ∀ lineno op, .op lineno op ∈ code.list.map Inst.narrow → op.popSize ≤ op.pops := by
    intro lineno op ho
    obtain ⟨i, hi, ho⟩ := List.mem_map.1 ho
    exact (hk i hi).counted lineno op ho
  obtain ⟨-, hle⟩ := depth_le hstored hpops h₀.le le_rfl hsize
  refine ⟨f, D, closed_narrow hclosed, hlist ▸ (withRet_eq insts).narrow, hstored, h₀,
    by simpa using hle, fun pc target hfind j hj hpc => ?_⟩
  obtain ⟨e, he, rfl⟩ := Option.map_eq_some_iff.1 hfind
  have he := List.mem_of_find?_eq_some he
  rw [hexc] at he
  obtain ⟨row, hrow, rfl⟩ := List.mem_map.1 (List.mem_filter.1 he).1
  refine depth_at_label hstored h₀ (hrows (by simp [HandlersEmpty, CompileData.rows,
    CompileData.new]) row ?_) (by simpa using hj) hpc
  exact List.mem_append_left _ hrow

/-- A body of one literal in a `try`. -/
def CodeOf.OfTry (code : CodeOf Code) : Prop :=
  ∃ depths, compileStmts .sample (visitor .sample 5) emptyPackage 0 []
    [.except 1 [.expr (.literal 1 .nil)] [] []] [] = .ok (.mk code, depths)

theorem exists_ofTry : ∃ code : CodeOf Code, code.OfTry ∧ code.OfNeutral := by
  obtain ⟨⟨⟨code⟩, depths⟩, h⟩ := Except.exists_of_toBool (x := compileStmts .sample
    (visitor .sample 5) emptyPackage 0 [] [.except 1 [.expr (.literal 1 .nil)] [] []] [])
    (by decide +kernel)
  exact ⟨code, ⟨depths, h⟩, .mk rfl rfl (by decide) h⟩

/-- The depth of the operand stack is a fixed number at every place, whatever way leads there, 0 at
both ends of a statement and never above the size of the stack. -/
def CodeOf.DepthsFixed (code : CodeOf Code) : Prop :=
  ∃ D : Nat → Nat,
    (∀ n : Note, n = .stmtStart ∨ n = .stmtEnd →
      ∀ j : Nat, code.list[j]? = some (.note n) → D j = 0)
      ∧ ∀ (V : Type) (array : List V → V) (c : Config V) (ps : List Nat),
        FrameRun array (code.list.map Inst.narrow) ⟨0, []⟩ ps c →
        c.stack.length = D c.pos ∧ c.stack.length ≤ code.stackSize

/-- A body whose statements are neutral has a fixed depth everywhere. -/
theorem depths_fixed (h : code.OfNeutral) : code.DepthsFixed := by
  obtain ⟨f, D, hD⟩ := h.exists_depths
  refine ⟨D, fun n hn j hj => ?_, fun V array c ps hr => ?_⟩
  · have hlocal := hD.depths j (.note n) (by simp [hj, Inst.narrow])
    rcases hn with rfl | rfl <;> exact hlocal.depth 0 rfl
  · obtain ⟨hpos, hlen⟩ := hD.depths.run (fun _ _ _ => Inst.length_of_leaves array) hr
      (Nat.zero_le _) hD.start.symm
    rw [List.length_map] at hpos
    exact ⟨hlen, hlen.trans_le (hD.le _ hpos)⟩

theorem depths_fixed_try : ∃ code : CodeOf Code, code.OfTry ∧ code.DepthsFixed :=
  exists_ofTry.imp fun _ => And.imp_right depths_fixed

/-- A frame never runs dry: wherever it comes to it finds an element and the operands for it, and
it goes on unless the instruction leaves the frame. -/
def CodeOf.NeverStuck (code : CodeOf Code) : Prop :=
  ∀ (V : Type) [Nonempty V] (array : List V → V) (c : Config V) (ps : List Nat),
    FrameRun array (code.list.map Inst.narrow) ⟨0, []⟩ ps c →
    ∃ i, (code.list.map Inst.narrow)[c.pos]? = some i ∧ i.pops ≤ c.stack.length
      ∧ (i.falls = false ∧ i.dest? = none
        ∨ ∃ c', FrameStep array (code.list.map Inst.narrow) c c')

/-- The frame of a neutral body is never stuck. -/
theorem never_stuck (h : code.OfNeutral) : code.NeverStuck := by
  obtain ⟨f, D, hD⟩ := h.exists_depths
  intro V _ array c ps hr
  obtain ⟨i, hi⟩ := exists_of_run hD.ends hr
  have hlen := (hD.depths.run (fun _ _ _ => Inst.length_of_leaves array) hr (Nat.zero_le _)
    hD.start.symm).2
  have hpops : i.pops ≤ c.stack.length := hlen ▸ (hD.depths _ i hi).pops
  exact ⟨i, hi, hpops, or_iff_not_imp_left.2 (exists_frameStep hD.closed hi hpops)⟩

theorem never_stuck_try : ∃ code : CodeOf Code, code.OfTry ∧ code.NeverStuck :=
  exists_ofTry.imp fun _ => And.imp_right never_stuck

/-- An exception is caught in the frame. The instruction that raised it has taken some of its
operands, or all, `left` stays on the stack and the frame goes on at the handler. -/
inductive CodeOf.Caught (code : CodeOf Code) (left : List V) : Config V → Config V → Prop where
  | mk {pos lineno op taken target dest} :
      (code.list.map Inst.narrow)[pos]? = some (.op lineno op) → taken.length ≤ op.pops →
      findExceptionTableEntry code.excTbl (codeSize ((code.list.map Inst.narrow).take (pos + 1)))
        = some target →
      dest ≤ code.list.length → codeSize ((code.list.map Inst.narrow).take dest) = target →
      code.Caught left ⟨pos, taken ++ left⟩ ⟨dest, left⟩

/-- The runs of a frame that catches exceptions, with how many operands the last one left. -/
inductive CodeOf.Leaks (code : CodeOf Code) (array : List V → V) : Nat → Config V → Prop where
  | start : code.Leaks array 0 ⟨0, []⟩
  | next {n c c'} : code.Leaks array n c → FrameStep array (code.list.map Inst.narrow) c c' →
      code.Leaks array n c'
  | caught {n c c' left} : code.Leaks array n c → code.Caught left c c' →
      code.Leaks array left.length c'

/-- In every run, what a frame has on its stack are the operands that the last exception caught in
it has left, and above them those of its place. No exception takes what an earlier one has left. -/
def CodeOf.Counted (code : CodeOf Code) : Prop :=
  ∃ D : Nat → Nat, ∀ (V : Type) (array : List V → V) (n : Nat) (c : Config V),
    code.Leaks array n c → c.stack.length = D c.pos + n ∧ c.stack.length ≤ code.stackSize + n
      ∧ ∀ c' left, code.Caught left c c' → n ≤ left.length

/-- What every catch leaves in the frame of a neutral body stays there. -/
theorem stack_leaks (h : code.OfNeutral) : code.Counted := by
  obtain ⟨f, D, hD⟩ := h.exists_depths
  refine ⟨D, fun V array n c hr => ?_⟩
  have hinv : c.pos ≤ code.list.length ∧ c.stack.length = D c.pos + n := by
    induction hr with
    | start => exact ⟨Nat.zero_le _, hD.start.symm⟩
    | next _ hs ih =>
      simpa using hD.depths.step (fun _ _ _ => Inst.length_of_leaves array) hs ih.2
    | caught _ hc ih =>
      cases hc with
      | mk _ _ hfind hdest htarget =>
        exact ⟨hdest, by rw [hD.handler _ _ hfind _ hdest htarget, Nat.zero_add]⟩
  have hle := hD.le _ hinv.1
  refine ⟨hinv.2, by omega, fun c' left hc => ?_⟩
  cases hc with
  | @mk pos _ op _ _ _ hi htaken =>
    have hpops : op.pops ≤ D pos := (hD.depths _ _ hi).pops
    have hlen := hinv.2
    simp only [List.length_append] at hlen
    omega

theorem stack_leaks_try : ∃ code : CodeOf Code, code.OfTry ∧ code.Counted :=
  exists_ofTry.imp fun _ => And.imp_right stack_leaks

end Runs

end Yog
