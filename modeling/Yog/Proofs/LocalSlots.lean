import Mathlib.Data.List.Nodup
import Yog.Callable
import Yog.Proofs.Levels
import Yog.Proofs.Scanning

/-!
# The indices of local variables

The parameters of a function or block are registered before anything else, the receiver of a
function before them, and their indices are never changed (`VarTable.Has`). The other locals get the
indices that follow, so the indices of a table are those below the number of its locals, each once
(`VarTable.Has.slots`). The positions `fill_args` stores at are those of the parameters, and what is
emitted accesses a variable of the table.
-/

namespace Yog

open Emission (Emits)

/-- The parameters of a table are these, in this order; no name is in it twice. -/
structure VarTable.Has (params : List ID) (ctx : Context) (tbl : VarTable) : Prop where
  ctx : tbl.ctx = ctx
  nodup : (tbl.vars.map Prod.fst).Nodup
  params : (tbl.vars.filter (·.2.param)).map (fun e => (e.1, e.2.index)) = params.zipIdx

namespace VarTable.Has

variable {params : List ID} {ctx : Context} {tbl : VarTable}

theorem registerVar (h : tbl.Has params ctx) (name : ID) (assigned nonlocal : Bool) :
    (tbl.registerVar name assigned false nonlocal).Has params ctx := by
  obtain ⟨c, vars, inner⟩ := tbl
  obtain ⟨hctx, hnodup, hparams⟩ := h
  simp only [VarTable.registerVar]
  split_ifs with hknown
  · refine ⟨hctx, ?_, ?_⟩
    · simp only [VarTable.vars, List.map_map] at hnodup ⊢
      rwa [List.map_congr_left (g := Prod.fst) fun e _ => by
        simp only [Function.comp_apply]
        split_ifs <;> rfl]
    · simp only [VarTable.vars, List.filter_map, List.map_map] at hparams ⊢
      rw [← hparams, List.filter_congr (q := fun e => e.2.param) fun e _ => by
        simp only [Function.comp_apply]
        split_ifs <;> simp]
      refine List.map_congr_left fun e _ => ?_
      simp only [Function.comp_apply]
      split_ifs <;> rfl
  · refine ⟨hctx, ?_, ?_⟩
    · simp only [VarTable.vars] at hnodup ⊢
      rw [List.map_append, List.nodup_append]
      refine ⟨hnodup, by simp, fun a ha b hb => ?_⟩
      rintro rfl
      obtain ⟨e, he, rfl⟩ := List.mem_map.1 ha
      simp only [List.map_cons, List.map_nil, List.mem_singleton] at hb
      exact hknown (List.any_eq_true.2 ⟨e, he, by simp [hb]⟩)
    · simpa [VarTable.vars] using hparams

theorem addChild (h : tbl.Has params ctx) (child : VarTable) :
    (VarTable.addChild child tbl).Has params ctx := by
  obtain ⟨c, vars, inner⟩ := tbl
  obtain ⟨hctx, hnodup, hparams⟩ := h
  exact ⟨hctx, hnodup, hparams⟩

end VarTable.Has

/-- The parameters are the same after the scan. -/
def KeepsParams {α : Type} (x : Scan α) : Prop :=
  ∀ params ctx tbl a tbl', x tbl = .ok (a, tbl') → tbl.Has params ctx → tbl'.Has params ctx

theorem keepsParams_closed : ScanClosed KeepsParams where
  pure a params ctx tbl b tbl' h hhas := by
    cases h
    exact hhas
  bind {α β x f} hx hf params ctx tbl b tbl' h hhas := by
    obtain ⟨⟨a, tbl₁⟩, h₁, h₂⟩ := Except.bind_eq_ok_iff.1 h
    exact hf a _ _ _ _ _ h₂ (hx _ _ _ _ _ h₁ hhas)
  register name assigned nonlocal params ctx tbl a tbl' h hhas := by
    cases h
    exact hhas.registerVar name assigned nonlocal
  block ps x hx params ctx tbl a tbl' h hhas := by
    obtain ⟨⟨⟨u, child⟩, tbl₁⟩, h₁, h₂⟩ := Except.bind_eq_ok_iff.1 h
    obtain ⟨⟨u', child'⟩, -, h₃⟩ := Except.bind_eq_ok_iff.1 h₁
    cases h₃
    cases h₂
    exact hhas.addChild child

/-- What parameters are registered as. -/
def paramVars (names : List ID) : List (ID × Var) :=
  names.zipIdx.map fun p => (p.1, ⟨p.2, false, true, false⟩)

theorem registerVar_paramVars {names : List ID} {name : ID} {ctx : Context} {inner : List VarTable}
    (h : name ∉ names) :
    (VarTable.mk ctx (paramVars names) inner).registerVar name false true false
      = .mk ctx (paramVars (names ++ [name])) inner := by
  have hnew : ¬ (paramVars names).any (·.1 = name) = true := by
    rw [List.any_eq_true]
    rintro ⟨e, he, hname⟩
    obtain ⟨⟨n, i⟩, hi, rfl⟩ := List.mem_map.1 he
    obtain rfl : n = name := by simpa using hname
    exact h (List.mem_of_getElem? (List.mem_zipIdx_iff_getElem?.1 hi))
  rw [VarTable.registerVar, if_neg hnew]
  simp [paramVars, List.zipIdx_append]

theorem registerParams_cons (filename : Option String) (p : Param) (ps : List Param)
    (tbl : VarTable) :
    registerParams filename (p :: ps) tbl =
      if tbl.vars.any (·.1 = p.name) then
        .error (raiseError filename p.lineno.number "Duplicated argument name in function definition")
      else registerParams filename ps (tbl.registerVar p.name false true false) := by
  change ((if tbl.vars.any (·.1 = p.name) then _ else _ : Scan Unit) tbl) = _
  split_ifs <;> rfl

theorem registerParams_eq {filename : Option String} {ctx : Context} {inner : List VarTable} :
    ∀ {ps : List Param} {names : List ID} {u : Unit} {tbl : VarTable}, names.Nodup →
      registerParams filename ps (.mk ctx (paramVars names) inner) = .ok (u, tbl) →
      (names ++ ps.map Param.name).Nodup ∧
        tbl = .mk ctx (paramVars (names ++ ps.map Param.name)) inner
  | [], names, u, tbl, hnodup, h => by
    cases h
    simpa using hnodup
  | p :: ps, names, u, tbl, hnodup, h => by
    rw [registerParams_cons] at h
    split_ifs at h with hknown
    have hnew : p.name ∉ names := fun hmem => by
      obtain ⟨i, hi⟩ := List.mem_iff_getElem?.1 hmem
      refine hknown (List.any_eq_true.2 ⟨(p.name, ⟨i, false, true, false⟩), ?_, by simp⟩)
      exact List.mem_map.2 ⟨(p.name, i), List.mem_zipIdx_iff_getElem?.2 hi, rfl⟩
    rw [registerVar_paramVars hnew] at h
    have hnodup' : (names ++ [p.name]).Nodup :=
      List.nodup_append.2 ⟨hnodup, by simp, fun a ha b hb => by
        rw [List.mem_singleton.1 hb]
        rintro rfl
        exact hnew ha⟩
    simpa using registerParams_eq hnodup' h

theorem has_paramVars {names : List ID} (ctx : Context) (inner : List VarTable)
    (h : names.Nodup) : (VarTable.mk ctx (paramVars names) inner).Has names ctx where
  ctx := rfl
  nodup := by simpa [VarTable.vars, paramVars, Function.comp_def] using h
  params := by
    have hall : (paramVars names).filter (·.2.param) = paramVars names := by
      refine List.filter_eq_self.2 fun e he => ?_
      obtain ⟨p, -, rfl⟩ := List.mem_map.1 he
      rfl
    simp only [VarTable.vars, hall]
    simp [paramVars, Function.comp_def]

section Table

variable {env : YogEnv} {filename : Option String} {ctx : Context} {params : List Param}
  {stmts : List Stmt} {tbl : VarTable}

/-- What is registered first: the receiver, for a function, and the parameters. -/
def slotNames (env : YogEnv) (ctx : Context) (params : List Param) : List ID :=
  (if ctx = .func then [env.intern "self"] else []) ++ params.map Param.name

theorem has_of_makeVarTable (h : makeVarTable env filename ctx params stmts = .ok tbl) :
    tbl.Has (slotNames env ctx params) ctx := by
  unfold makeVarTable at h
  obtain ⟨⟨u, tbl'⟩, hrun, h⟩ := Except.bind_eq_ok_iff.1 h
  cases h
  have hrest := keepsParams_closed.bind (keepsParams_closed.scanDefaults params) fun _ =>
    keepsParams_closed.scanStmts stmts
  split_ifs at hrun with hfunc
  · obtain ⟨⟨_, tbl₂⟩, h₂, hrun⟩ := Except.bind_eq_ok_iff.1 hrun
    have hself : [env.intern "self"].Nodup := by simp
    obtain ⟨hnodup, rfl⟩ := registerParams_eq hself h₂
    rw [slotNames, if_pos hfunc]
    exact hrest _ _ _ _ _ hrun (has_paramVars _ _ hnodup)
  · obtain ⟨⟨_, tbl₂⟩, h₂, hrun⟩ := Except.bind_eq_ok_iff.1 hrun
    obtain ⟨hnodup, rfl⟩ := registerParams_eq (show ([] : List ID).Nodup from .nil) h₂
    rw [slotNames, if_neg hfunc]
    exact hrest _ _ _ _ _ hrun (has_paramVars _ _ hnodup)

theorem has_foldl {names : List ID} {f : VarTable → ID → VarTable}
    (hf : ∀ tbl name, tbl.Has names ctx → (f tbl name).Has names ctx) :
    ∀ (keys : List ID) {tbl : VarTable}, tbl.Has names ctx → (keys.foldl f tbl).Has names ctx
  | [], _, h => h
  | key :: keys, tbl, h => has_foldl hf keys (hf tbl key h)

mutual

theorem has_putVarsAssignedInBlock {names : List ID} : ∀ (t : VarTable) {tbl : VarTable},
    tbl.Has names ctx → (putVarsAssignedInBlock env t tbl).Has names ctx
  | .mk _ vars inner, tbl, h => by
    rw [putVarsAssignedInBlock]
    refine has_putVarsAssignedInInnerScope inner (has_foldl (fun tbl key h => ?_) _ h)
    split
    · split_ifs
      · exact h.registerVar _ _ _
      · exact h
    · exact h

theorem has_putVarsAssignedInInnerScope {names : List ID} : ∀ (ts : List VarTable) {tbl : VarTable},
    tbl.Has names ctx → (putVarsAssignedInInnerScope env ts tbl).Has names ctx
  | [], _, h => h
  | t :: ts, tbl, h => by
    rw [putVarsAssignedInInnerScope]
    exact has_putVarsAssignedInInnerScope ts (has_putVarsAssignedInBlock t h)

end

theorem has_of_makeVarTableOfFunc (h : makeVarTableOfFunc env filename ctx params stmts = .ok tbl) :
    tbl.Has (slotNames env ctx params) ctx := by
  obtain ⟨tbl', htbl, h⟩ := Except.bind_eq_ok_iff.1 h
  cases h
  exact has_putVarsAssignedInInnerScope _ (has_of_makeVarTable htbl)

end Table

def VarType.local? : VarType → Option Nat
  | .local_ index => some index
  | _ => none

/-- The index of an entry that is a local. -/
def localIndex (e : ID × VarType) : Option Nat := e.2.local?

theorem decideAutoVarType_cases (name : ID) (var : Var) (ctx : Context) (outer : List Scope)
    (index : Nat) :
    decideAutoVarType name var ctx outer index = (.local_ index, index + 1) ∨
      (decideAutoVarType name var ctx outer index).1.local? = none ∧
        (decideAutoVarType name var ctx outer index).2 = index := by
  have hnonlocal (r : Option (Nat × UInt64 × Context)) : (setNonlocal name r).local? = none := by
    rcases r with _ | ⟨level, word, c⟩ <;> rfl
  unfold decideAutoVarType
  split_ifs
  · exact .inr ⟨hnonlocal _, rfl⟩
  · exact .inr ⟨hnonlocal _, rfl⟩
  · exact .inr ⟨hnonlocal _, rfl⟩
  · exact .inl rfl

section Decide

variable {vars : List (ID × Var)} {ctx : Context} {outer : List Scope}

/-- The index of a name that is a parameter. -/
def paramIndex (vars : List (ID × Var)) (name : ID) : Option Nat :=
  (vars.lookup name).bind fun var => if var.param then some var.index else none

/-- Parameters keep their indices, and the other locals get those from `index` on. -/
theorem decideVars_locals (names : List ID) (index : Nat) :
    ∃ m, ((decideVars vars ctx outer names index).filterMap localIndex).Perm
      (names.filterMap (paramIndex vars) ++ List.range' index m) := by
  induction names generalizing index with
  | nil => exact ⟨0, by simp [decideVars]⟩
  | cons name names ih =>
    rw [decideVars]
    rcases hlook : vars.lookup name with _ | var
    · obtain ⟨m, hm⟩ := ih index
      refine ⟨m, ?_⟩
      rwa [List.filterMap_cons_none (by simp [paramIndex, hlook])]
    · by_cases hparam : var.param = true
      · obtain ⟨m, hm⟩ := ih index
        refine ⟨m, ?_⟩
        have hindex : paramIndex vars name = some var.index := by simp [paramIndex, hlook, hparam]
        simp only [hparam, if_true]
        rw [List.filterMap_cons_some (show localIndex (name, .local_ var.index) = _ from rfl),
          List.filterMap_cons_some hindex]
        exact hm.cons _
      · have hindex : paramIndex vars name = none := by simp [paramIndex, hlook, hparam]
        rw [List.filterMap_cons_none hindex]
        simp only [hparam, Bool.false_eq_true, if_false]
        rcases decideAutoVarType_cases name var ctx outer index with heq | ⟨hnone, hsame⟩
        · obtain ⟨m, hm⟩ := ih (index + 1)
          refine ⟨m + 1, ?_⟩
          rw [heq, List.filterMap_cons_some (show localIndex (name, .local_ index) = _ from rfl),
            List.range'_succ]
          exact (hm.cons _).trans List.perm_middle.symm
        · obtain ⟨m, hm⟩ := ih index
          refine ⟨m, ?_⟩
          rwa [List.filterMap_cons_none (show localIndex (name, _) = none from hnone), hsame]

theorem decideVars_names (names : List ID) (index : Nat) :
    ((decideVars vars ctx outer names index).map Prod.fst).Sublist names := by
  induction names generalizing index with
  | nil => exact List.Sublist.slnil
  | cons name names ih =>
    rw [decideVars]
    split
    · exact (ih index).cons _
    · split
      · exact (ih index).cons_cons _
      · exact (ih _).cons_cons _

theorem decideVars_param {name : ID} {var : Var} (hlook : vars.lookup name = some var)
    (hparam : var.param = true) {names : List ID} (hmem : name ∈ names) (index : Nat) :
    (name, VarType.local_ var.index) ∈ decideVars vars ctx outer names index := by
  induction names generalizing index with
  | nil => cases hmem
  | cons n names ih =>
    rw [decideVars]
    rcases List.mem_cons.1 hmem with rfl | hmem
    · simp [hlook, hparam]
    · split
      · exact ih hmem index
      · split
        · exact List.mem_cons_of_mem _ (ih hmem index)
        · exact List.mem_cons_of_mem _ (ih hmem _)

end Decide

theorem lookup_eq_of_mem {vars : List (ID × Var)} (hnodup : (vars.map Prod.fst).Nodup)
    {e : ID × Var} (he : e ∈ vars) : vars.lookup e.1 = some e.2 := by
  obtain ⟨before, after, rfl⟩ := List.append_of_mem he
  refine List.lookup_eq_some_iff.2 ⟨before, after, rfl, fun d hd => ?_⟩
  rw [List.map_append, List.map_cons] at hnodup
  have hne := (List.nodup_append.1 hnodup).2.2 _ (List.mem_map_of_mem hd) _ List.mem_cons_self
  simpa using Ne.symm hne

theorem filterMap_paramIndex {vars : List (ID × Var)} (hnodup : (vars.map Prod.fst).Nodup) :
    (vars.map Prod.fst).filterMap (paramIndex vars)
      = (vars.filter (·.2.param)).map (·.2.index) := by
  rw [List.filterMap_map, ← List.filterMap_eq_map, List.filterMap_filter]
  refine List.filterMap_congr fun e he => ?_
  simp [paramIndex, lookup_eq_of_mem hnodup he]

/-- The indices of the locals are those below their number, and `params` have the first of them. -/
structure Scope.Slots (scope : Scope) (params : List ID) : Prop where
  nodup : (scope.vars.map Prod.fst).Nodup
  locals : (scope.vars.filterMap localIndex).Perm (List.range scope.countLocals)
  params : ∀ i name, params[i]? = some name → (name, .local_ i) ∈ scope.vars

theorem Scope.countLocals_eq (scope : Scope) :
    scope.countLocals = (scope.vars.filterMap localIndex).length := by
  rw [List.length_filterMap_eq_countP, Scope.countLocals]
  refine List.countP_congr fun e _ => ?_
  rcases e with ⟨name, _ | index | ⟨level, word⟩⟩ <;> simp [localIndex, VarType.local?]

theorem VarTable.Has.slots {params : List ID} {ctx : Context} {tbl : VarTable}
    (h : tbl.Has params ctx) (env : YogEnv) (outer : List Scope) :
    (decideVarType env tbl outer).Slots params where
  nodup := by
    refine (decideVars_names _ _).nodup ?_
    exact (env.iterKeys_perm _).nodup_iff.2 h.nodup
  locals := by
    have hfst : (tbl.vars.filter (·.2.param)).map (·.2.index) = List.range params.length := by
      have hsnd := congrArg (List.map Prod.snd) h.params
      simpa [Function.comp_def, List.range_eq_range'] using hsnd
    have hcount : tbl.vars.countP (·.2.param) = params.length := by
      have hlen := congrArg List.length hfst
      simpa [List.countP_eq_length_filter] using hlen
    obtain ⟨m, hm⟩ : ∃ m, ((decideVarType env tbl outer).vars.filterMap localIndex).Perm
        ((env.iterKeys (tbl.vars.map Prod.fst)).filterMap (paramIndex tbl.vars)
          ++ List.range' (tbl.vars.countP (·.2.param)) m) := decideVars_locals _ _
    have hkeys := (env.iterKeys_perm (tbl.vars.map Prod.fst)).filterMap (paramIndex tbl.vars)
    rw [filterMap_paramIndex h.nodup, hfst] at hkeys
    have hall : ((decideVarType env tbl outer).vars.filterMap localIndex).Perm
        (List.range (params.length + m)) := by
      rw [List.range_add]
      refine hm.trans ((hkeys.append_right _).trans ?_)
      rw [hcount, List.range'_eq_map_range]
    rwa [Scope.countLocals_eq, hall.length_eq, List.length_range]
  params i name hi := by
    have hmem : (name, i) ∈ (tbl.vars.filter (·.2.param)).map fun e => (e.1, e.2.index) := by
      rw [h.params]
      exact List.mem_zipIdx_iff_getElem?.2 hi
    obtain ⟨e, he, heq⟩ := List.mem_map.1 hmem
    obtain ⟨rfl, rfl⟩ : e.1 = name ∧ e.2.index = i := by simpa using heq
    obtain ⟨he, hparam⟩ := List.mem_filter.1 he
    exact decideVars_param (lookup_eq_of_mem h.nodup he) hparam
      ((env.iterKeys_perm _).mem_iff.2 (List.mem_map_of_mem he)) _

/-- `alloc_local_vars_table` finds no index over the count, and every index has its name. -/
theorem Scope.Slots.allocLocalVarsTable {scope : Scope} {params : List ID}
    (h : scope.Slots params) : ∃ names, scope.allocLocalVarsTable scope.countLocals = .ok names ∧
      ∀ i < scope.countLocals, ∃ name, names[i]? = some (some name) ∧
        (name, .local_ i) ∈ scope.vars := by
  have hlt {name : ID} {i : Nat} (hmem : (name, VarType.local_ i) ∈ scope.vars) :
      i < scope.countLocals :=
    List.mem_range.1 (h.locals.mem_iff.1 (List.mem_filterMap.2 ⟨_, hmem, rfl⟩))
  rw [Scope.allocLocalVarsTable, if_neg ?_]
  · refine ⟨_, rfl, fun i hi => ?_⟩
    obtain ⟨⟨name, type⟩, hmem, hindex⟩ :=
      List.mem_filterMap.1 (h.locals.mem_iff.2 (List.mem_range.2 hi))
    obtain rfl : type = .local_ i := by
      rcases type with _ | index | _ <;> simp_all [localIndex, VarType.local?]
    rw [List.getElem?_map, List.getElem?_range hi]
    rcases hfind : scope.vars.find? fun e => e.2 = .local_ i with _ | ⟨name', type⟩
    · exact absurd (List.find?_eq_none.1 hfind _ hmem) (by simp)
    · have htype : type = .local_ i := by simpa using List.find?_some hfind
      exact ⟨name', by simp [hfind], htype ▸ List.mem_of_find?_eq_some hfind⟩
  · rw [List.any_eq_true]
    rintro ⟨⟨name, type⟩, hmem, hover⟩
    rcases type with _ | index | _
    · cases hover
    · exact absurd (hlt hmem) (by simpa using hover)
    · cases hover

/-- `fill_args` stores at the indices of the parameters, which are in the order of the list. -/
structure BindsAt (scope : Scope) (offset : Nat) (params : List Param) (info : ArgInfo) : Prop where
  order : ∀ i p, params[i]? = some p → (p.name, .local_ (offset + i)) ∈ scope.vars
  name : ∀ i name, info.argnames[i]? = some name → i < info.argc ∧
    (name, .local_ (offset + i)) ∈ scope.vars
  var : ∀ p ∈ params, p.type = .varParam → info.varargc = 1 ∧
    (p.name, .local_ (offset + info.argc)) ∈ scope.vars
  kw : ∀ p ∈ params, p.type = .kwParam → info.kwargc = 1 ∧
    (p.name, .local_ (kwIndex info offset)) ∈ scope.vars
  block : ∀ p ∈ params, p.type = .blockParam → info.blockargc = 1 ∧
    (p.name, .local_ (blockIndex info offset)) ∈ scope.vars

/-- The types of the parameters behind the positional ones, given how many there are of each. -/
def tailTypes (varargc kwargc blockargc : Nat) : List ParamType :=
  (if 0 < varargc then [.varParam] else []) ++ (if 0 < kwargc then [.kwParam] else []) ++
    if 0 < blockargc then [.blockParam] else []

theorem getElem?_tailTypes {varargc kwargc blockargc j : Nat} {type : ParamType}
    (h : (tailTypes varargc kwargc blockargc)[j]? = some type) :
    (type = .varParam ∧ 0 < varargc ∧ j = 0) ∨
      (type = .kwParam ∧ 0 < kwargc ∧ j = if 0 < varargc then 1 else 0) ∨
      (type = .blockParam ∧ 0 < blockargc ∧
        j = (if 0 < varargc then 1 else 0) + if 0 < kwargc then 1 else 0) := by
  unfold tailTypes at h
  split_ifs at h ⊢ <;> rcases j with _ | _ | _ | j <;> simp_all

/-- What `setup_params` has counted: the positional parameters, and behind them at most one of each
other kind. -/
theorem setupParams_eq_ok {params : List Param} {info : ArgInfo}
    (h : setupParams params = .ok info) : ∃ pos rest, params = pos ++ rest ∧
      (∀ p ∈ pos, p.type = .param) ∧ info.argc = pos.length ∧ info.argnames = pos.map Param.name ∧
      rest.map Param.type = tailTypes info.varargc info.kwargc info.blockargc ∧
      info.varargc ≤ 1 ∧ info.kwargc ≤ 1 ∧ info.blockargc ≤ 1 := by
  have hsplit := List.prefix_iff_eq_append.1 (List.takeWhile_prefix (l := params) (·.type = .param))
  have hpos : ∀ p ∈ params.takeWhile (·.type = .param), p.type = .param := fun p hp => by
    simpa using List.all_eq_true.1 List.all_takeWhile p hp
  refine ⟨_, _, hsplit.symm, hpos, ?_⟩
  unfold setupParams at h
  simp only at h
  split at h
  case h_9 => cases h
  all_goals
    rename_i hrest
    cases h
    simp [hrest, tailTypes]

theorem bindsAt_of_setupParams {scope : Scope} {offset : Nat} {params : List Param} {info : ArgInfo}
    (hinfo : setupParams params = .ok info)
    (horder : ∀ i p, params[i]? = some p → (p.name, .local_ (offset + i)) ∈ scope.vars) :
    BindsAt scope offset params info := by
  obtain ⟨pos, rest, rfl, hpos, hargc, hnames, hrest, hvar, hkw, hblock⟩ := setupParams_eq_ok hinfo
  have htail : ∀ p ∈ pos ++ rest, p.type ≠ .param → ∃ j, (rest.map Param.type)[j]? = some p.type ∧
      (p.name, .local_ (offset + (info.argc + j))) ∈ scope.vars := by
    intro p hp hne
    have hp : p ∈ rest := (List.mem_append.1 hp).resolve_left fun h => hne (hpos p h)
    obtain ⟨j, hj⟩ := List.mem_iff_getElem?.1 hp
    refine ⟨j, by rw [List.getElem?_map, hj]; rfl, horder _ p ?_⟩
    rw [hargc, List.getElem?_append_right (Nat.le_add_right _ _), Nat.add_sub_cancel_left, hj]
  rw [hrest] at htail
  refine ⟨horder, fun i name hi => ?_, fun p hp htype => ?_, fun p hp htype => ?_,
    fun p hp htype => ?_⟩
  · rw [hnames, List.getElem?_map, Option.map_eq_some_iff] at hi
    obtain ⟨p, hp, rfl⟩ := hi
    have hlt := (List.getElem?_eq_some_iff.1 hp).1
    exact ⟨hargc ▸ hlt, horder i p (by rw [List.getElem?_append_left hlt, hp])⟩
  · obtain ⟨j, hj, hmem⟩ := htail p hp (by simp [htype])
    rw [htype] at hj
    rcases getElem?_tailTypes hj with ⟨-, hpos, rfl⟩ | ⟨h, -⟩ | ⟨h, -⟩
    · exact ⟨by omega, hmem⟩
    all_goals cases h
  · obtain ⟨j, hj, hmem⟩ := htail p hp (by simp [htype])
    rw [htype] at hj
    rcases getElem?_tailTypes hj with ⟨h, -⟩ | ⟨-, hpos, rfl⟩ | ⟨h, -⟩
    · cases h
    · exact ⟨by omega, hmem⟩
    · cases h
  · obtain ⟨j, hj, hmem⟩ := htail p hp (by simp [htype])
    rw [htype] at hj
    rcases getElem?_tailTypes hj with ⟨h, -⟩ | ⟨h, -⟩ | ⟨-, hpos, rfl⟩
    · cases h
    · cases h
    · refine ⟨by omega, ?_⟩
      rw [blockIndex, kwIndex]
      simpa only [Nat.add_assoc] using hmem

/-- What is emitted accesses locals of the table. -/
def Indexed (scopes : List Scope) (_ : CompileData) (l : List Inst) (_ : CompileData) : Prop :=
  ∀ i ∈ l, ∀ index ∈ i.local?, AtIndex scopes index

theorem uniform_indexed {env : YogEnv} : Uniform env Indexed where
  composes scopes := {
    nil := fun s i hi => by cases hi
    append := fun h₁ h₂ i hi => (List.mem_append.1 hi).elim (h₁ i) (h₂ i) }
  emit i _ hi s _ l s' h := by
    obtain ⟨rfl, -⟩ := Emission.emit_eq_ok.1 h
    intro j hj
    rw [List.mem_singleton.1 hj]
    exact hi
  newLabel s _ l s' h := by
    obtain ⟨-, rfl, -⟩ := newLabel_eq_ok.1 h
    intro i hi
    cases hi
  registerVal val s index l s' h := by
    obtain ⟨rfl, -⟩ := registerConst_eq_ok h
    intro i hi
    cases hi
  pushTry node e s _ l s' h := by
    obtain ⟨rfl, -⟩ := Emission.modify_eq_ok.1 h
    intro i hi
    cases hi
  popTry s _ l s' h := by
    obtain ⟨rfl, -⟩ := Emission.modify_eq_ok.1 h
    intro i hi
    cases hi
  splitTries node from_ to_ s _ l s' h := by
    obtain ⟨_, -, rfl, -⟩ := splitTries_eq_ok.1 h
    intro i hi
    cases hi
  inner _ _ _ _ _ _ _ _ _ _ _ _ _ i hi := by cases hi

/-- The locals of a body are at the indices below their number, each at one of its own; the
parameters are where `fill_args` stores them, from `offset` on. -/
structure LocalSlots (scope : Scope) (offset : Nat) (params : List Param) (code : CodeOf Code) :
    Prop where
  nodup : (scope.vars.map Prod.fst).Nodup
  locals : (scope.vars.filterMap localIndex).Perm (List.range code.localVarsCount)
  names : ∀ i < code.localVarsCount, ∃ name, code.localVarsNames[i]? = some (some name) ∧
    (name, .local_ i) ∈ scope.vars
  binds : ∀ argInfo, code.argInfo = some argInfo → BindsAt scope offset params argInfo
  bare : code.argInfo = none → params = []
  emitted : ∀ i ∈ code.list, ∀ index ∈ i.local?, index < code.localVarsCount
  stored : ∀ i ∈ code.list.map Inst.narrow, ∀ index ∈ i.local?, index < code.localVarsCount

theorem local?_withRet {insts : List Inst} {i : Inst} (hi : i ∈ withRet insts) :
    i ∈ insts ∨ i.local? = none := by
  unfold withRet at hi
  split at hi
  · exact .inl hi
  · rcases List.mem_append.1 hi with hi | hi
    · exact .inl hi
    · rw [List.mem_singleton.1 hi]
      exact .inr rfl

/-- An index is stored as its lowest byte. -/
theorem local?_narrow (i : Inst) :
    ∀ index ∈ i.narrow.local?, ∃ index' ∈ i.local?, index ≤ index' := by
  intro index hindex
  rcases i with ⟨lineno, op⟩ | l | n
  · rcases op <;> cases hindex
    all_goals exact ⟨_, rfl, Nat.mod_le _ _⟩
  · cases hindex
  · cases hindex

/-- The parameter array that is put into the code is that of the parameters. -/
structure Describes (params : List Param) (argInfo : Option ArgInfo) : Prop where
  some : ∀ info, argInfo = some info → setupParams params = .ok info
  none : argInfo = none → params = []

theorem describes_of_setupParams {params : List Param} {argInfo : Option ArgInfo}
    (h : (setupParams params).map some = .ok argInfo) : Describes params argInfo := by
  rcases hsetup : setupParams params with e | info
  · rw [hsetup] at h
    cases h
  · rw [hsetup] at h
    cases h
    refine ⟨fun info' h => ?_, fun h => (by cases h)⟩
    rw [hsetup, Option.some.inj h]

theorem localSlots_of_makeCode {ctx : Ctx} {funcName : ID} {insts : List Inst} {s t : CompileData}
    {code : Code} {depths : List Int} {names : List ID} {offset : Nat} {params : List Param}
    {argInfo : Option ArgInfo} (hslots : ctx.vars.Slots names)
    (horder : ∀ i p, params[i]? = some p → (p.name, .local_ (offset + i)) ∈ ctx.vars.vars)
    (hinfo : Describes params argInfo) (hR : Indexed ctx.scopes t insts s)
    (h : makeCode ctx funcName insts s = .ok (code, depths)) :
    LocalSlots ctx.vars offset params (argInfo.elim code code.withArgInfo).fields := by
  obtain ⟨varNames, halloc, hvarNames⟩ := hslots.allocLocalVarsTable
  unfold makeCode at h
  obtain ⟨bin, -, h⟩ := Except.bind_eq_ok_iff.1 h
  obtain ⟨_, halloc', h⟩ := Except.bind_eq_ok_iff.1 h
  obtain ⟨size, -, h⟩ := Except.bind_eq_ok_iff.1 h
  obtain ⟨tbl, -, h⟩ := Except.bind_eq_ok_iff.1 h
  rw [halloc] at halloc'
  cases halloc'
  cases h
  have hemitted : ∀ i ∈ withRet insts, ∀ index ∈ i.local?, index < ctx.vars.countLocals := by
    intro i hi index hindex
    rcases local?_withRet hi with hi | hnone
    · obtain ⟨scope, hscope, name, hmem⟩ := hR i hi index hindex
      cases hscope
      exact List.mem_range.1 (hslots.locals.mem_iff.1 (List.mem_filterMap.2 ⟨_, hmem, rfl⟩))
    · rw [hnone] at hindex
      cases hindex
  have hstored : ∀ i ∈ (withRet insts).map Inst.narrow, ∀ index ∈ i.local?,
      index < ctx.vars.countLocals := by
    intro i hi index hindex
    obtain ⟨j, hj, rfl⟩ := List.mem_map.1 hi
    obtain ⟨index', hindex', hle⟩ := local?_narrow j index hindex
    exact hle.trans_lt (hemitted j hj index' hindex')
  rcases argInfo with _ | info
  · exact ⟨hslots.nodup, hslots.locals, hvarNames, fun _ h => (by cases h),
      fun _ => hinfo.none rfl, hemitted, hstored⟩
  · refine ⟨hslots.nodup, hslots.locals, hvarNames, fun info' h => ?_, fun h => (by cases h),
      hemitted, hstored⟩
    obtain rfl : info = info' := Option.some.inj h
    exact bindsAt_of_setupParams (hinfo.some info rfl) horder

section Compile

variable {env : YogEnv} {ctx : Ctx} {className name : ID} {params : List Param} {stmts : List Stmt}
  {fuel : Nat} {s s' : CompileData} {code : Code} {l : List Inst}

theorem getElem?_slotNames {context : Context} {i : Nat} {p : Param} (hi : params[i]? = some p) :
    (slotNames env context params)[(if context = .func then 1 else 0) + i]? = some p.name := by
  unfold slotNames
  split_ifs
  · rw [Nat.add_comm, List.singleton_append, List.getElem?_cons_succ, List.getElem?_map, hi]
    rfl
  · rw [Nat.zero_add, List.nil_append, List.getElem?_map, hi]
    rfl

theorem localSlots_of_compileInner {context : Context} {funcName : ID} {scope : Scope}
    {info : Except CompileError (Option ArgInfo)}
    (hslots : scope.Slots (slotNames env context params))
    (hinfo : ∀ argInfo, info = .ok argInfo → Describes params argInfo)
    (h : compileInner env (visitor env fuel) (.ok scope) ctx className funcName params stmts info s
      = .ok (code, l, s')) :
    LocalSlots scope (if context = .func then 1 else 0) params code.fields := by
  obtain ⟨_, body, depths, i, hscope, hb, hi, rfl, -, -⟩ := compileInner_eq_ok h
  cases hscope
  obtain ⟨insts, data, hbody, hmake⟩ := compileStmts_eq_ok hb
  have hu : Uniform env Indexed := uniform_indexed
  have hR := hu.emits_compileBody (hu.visitor fuel) (ctx.inner scope className) params stmts _ _ _ _
    hbody
  have horder : ∀ i p, params[i]? = some p →
      (p.name, .local_ ((if context = .func then 1 else 0) + i)) ∈ scope.vars :=
    fun i p hp => hslots.params _ _ (getElem?_slotNames hp)
  have hslots' : (ctx.inner scope className).vars.Slots (slotNames env context params) := hslots
  exact localSlots_of_makeCode hslots' horder (hinfo i hi) hR hmake

/-- The indices of every function and of every block, wherever it is compiled. The receiver of a
function is in front of its parameters. -/
theorem local_slots :
    (∀ ctx className name params stmts fuel s code l s',
      compileFunc env (visitor env fuel) ctx className name params stmts s = .ok (code, l, s') →
        ∃ scope, scopeOfFunc env ctx .func params stmts = .ok scope ∧
          (env.intern "self", .local_ 0) ∈ scope.vars ∧ LocalSlots scope 1 params code.fields) ∧
      ∀ ctx params stmts fuel s code l s',
        compileBlock env (visitor env fuel) ctx params stmts s = .ok (code, l, s') →
          ∃ scope, scopeOfBlock env ctx params stmts = .ok scope ∧
            LocalSlots scope 0 params code.fields := by
  constructor
  · intro ctx className name params stmts fuel s code l s' h
    obtain ⟨scope, -, -, -, hscope, -⟩ := compileInner_eq_ok h
    obtain ⟨tbl, htbl, hdecide⟩ := Except.bind_eq_ok_iff.1 hscope
    cases hdecide
    have hslots := (has_of_makeVarTableOfFunc htbl).slots env (ctx.vars :: ctx.outer)
    rw [compileFunc, hscope] at h
    exact ⟨_, hscope, hslots.params 0 _ rfl,
      localSlots_of_compileInner hslots (fun _ => describes_of_setupParams) h⟩
  · intro ctx params stmts fuel s code l s' h
    obtain ⟨scope, -, -, -, hscope, -⟩ := compileInner_eq_ok h
    obtain ⟨tbl, htbl, hdecide⟩ := Except.bind_eq_ok_iff.1 hscope
    cases hdecide
    have hslots := (has_of_makeVarTable htbl).slots env (ctx.vars :: ctx.outer)
    have hinfo : ∀ argInfo,
        (if params.isEmpty then .ok none else (setupParams params).map some) = .ok argInfo →
        Describes params argInfo := by
      intro argInfo hargInfo
      rcases params with _ | ⟨p, params⟩
      · cases hargInfo
        exact ⟨fun _ h => (by cases h), fun _ => rfl⟩
      · exact describes_of_setupParams hargInfo
    rw [compileBlock, hscope] at h
    exact ⟨_, hscope, localSlots_of_compileInner hslots hinfo h⟩

end Compile

/-- `(a, b = nil, *c, &d)` -/
def sampleParams : List Param :=
  [.mk .param 1 1 none, .mk .param 1 2 (some (.literal 1 .nil)), .mk .varParam 1 3 none,
    .mk .blockParam 1 5 none]

/-- `e = a` in a function with these parameters. -/
theorem local_slots_sample : ∃ scope code, (4, .local_ 0) ∈ scope.vars ∧
    LocalSlots scope 1 sampleParams code ∧ code.localVarsCount = 6 := by
  obtain ⟨⟨code, l, s⟩, h, hcount⟩ := Except.exists_of_any
    (x := compileFunc .sample (visitor .sample 5) emptyPackage invalidId 7 sampleParams
      [.expr (.assign 1 (.variable 1 6) (.variable 1 1))] (.new []))
    (p := fun r => r.1.fields.localVarsCount = 6) (by decide)
  obtain ⟨scope, -, hself, hslots⟩ := local_slots.1 _ _ _ _ _ _ _ _ _ _ h
  exact ⟨scope, code.fields, hself, hslots, by simpa using hcount⟩

/-- The order of the parameters with the block in front of `*` and `**`. -/
def ParamList.blockFirst (env : YogEnv) (l : ParamList) : List ID :=
  env.intern "self" :: l.names ++ (l.block.map Prod.fst).toList ++ l.var.toList ++ l.kw.toList

/-- `def f(*a, &b) end`: the block is behind the array. -/
theorem not_blockFirst :
    ¬ ∀ (l : ParamList) (scope : Scope),
      scopeOfFunc .sample emptyPackage .func (l.params 1) [] = .ok scope →
        ∀ i name, (l.blockFirst .sample)[i]? = some name → (name, .local_ i) ∈ scope.vars := by
  intro h
  have hmem := h ⟨[], [], some 1, none, some (2, none), .nil⟩ _ rfl 1 2 rfl
  revert hmem
  decide

end Yog
