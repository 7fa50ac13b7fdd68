import Yog.Proofs.Evaluation

/-!
# Chained assignments

`t₁ = … = tₙ = e`: a variable and an attribute store a copy of the value that the assignment behind
them has left, so the value stays on the stack. A call of `[]=` takes the value itself, and what the
method returns stands for it from there on.
-/

namespace Yog

open Emission (each)
open StackCode

/-- `t₁ = … = tₙ = e`, with the lines of the assignments. -/
def chain (targets : List (Lineno × Expr)) (e : Expr) : Expr :=
  targets.foldr (fun t e => .assign t.1 t.2 e) e

section Stores

variable {V : Type} (array : List V → V) (env : YogEnv) (ctx : Ctx) (list : List Inst)

/-- Control goes through the code that stores a value in a target: the value goes to the instruction
that stores it, or it is the last argument of `[]=`, which returns something. -/
inductive Stores : List Inst → Expr → V → List V → List Nat → List Inst → Option V → Prop where
  | variable {before lineno name op value stack s s'} :
      appendStore env ctx lineno name s = .ok ((), [.op lineno op], s') →
      Inst.Leaves array (.op lineno op) [value] [] →
      Stores before (.variable lineno name) value stack [before.length] [.op lineno op] none
  | attr {before lineno obj name value stack o fuel qs code} :
      Evaluates (Inst.Leaves array) list (visitor env fuel) ctx before [obj] (value :: stack) [o] qs
        code →
      Inst.Leaves array (.op lineno (.storeAttr name)) [o, value] [] →
      Stores before (.attr lineno obj name) value stack (qs ++ [(before ++ code).length])
        (code ++ [.op lineno (.storeAttr name)]) none
  | subscript {before lineno prefix_ index value stack i p method returned fuel qs code} :
      Evaluates (Inst.Leaves array) list (visitor env fuel) ctx before [index, prefix_]
        (value :: stack) [i, p] qs code →
      Inst.Leaves array (.op lineno (.loadAttr (env.intern "[]="))) [p] [method] →
      Inst.Leaves array (.op lineno (.callFunction 2 0 0 0 0 1 0 0)) [method, i, value] [returned] →
      Stores before (.subscript lineno prefix_ index) value stack
        (qs ++ [(before ++ code).length, (before ++ code).length + 1])
        (code ++ [.op lineno (.loadAttr (env.intern "[]=")),
          .op lineno (.callFunction 2 0 0 0 0 1 0 0)]) (some returned)

/-- Control goes through a chain: the expression is evaluated, and from the last target to the first
each gets what the assignment behind it has left. The results are what the targets have got and what
their `[]=` has returned, those of the first target first. -/
inductive Chained : List Inst → List (Lineno × Expr) → Expr → V → List (V × Option V) → V → List V →
    List Nat → List Inst → Prop where
  | expr {before e v stack fuel qs code} :
      Evaluates (Inst.Leaves array) list (visitor env fuel) ctx before [e] stack [v] qs code →
      Chained before [] e v [] v stack qs code
  | copied {before lineno target targets e v results w stack qs code rs store} :
      Chained before targets e v results w stack qs code →
      Stores array env ctx list (before ++ code ++ [.op lineno .dup]) target w (w :: stack) rs store
        none →
      Chained before ((lineno, target) :: targets) e v ((w, none) :: results) w stack
        (qs ++ (before ++ code).length :: rs) (code ++ .op lineno .dup :: store)
  | returned {before lineno target targets e v results w r stack qs code rs store} :
      Chained before targets e v results w stack qs code →
      Stores array env ctx list (before ++ code) target w stack rs store (some r) →
      Chained before ((lineno, target) :: targets) e v ((w, some r) :: results) r stack
        (qs ++ rs) (code ++ store)

variable {array env ctx list} {before l : List Inst} {value : V} {stack stack' : List V}
  {ps : List Nat} {fuel : Nat} {s s' : CompileData}

/-- What `append_store` emits. -/
theorem appendStore_eq_ok {lineno : Lineno} {name : ID} (h : appendStore env ctx lineno name s =
    .ok ((), l, s')) : ∃ op : Op Label, l = [.op lineno op] ∧ op.dest? = none ∧ op.pops = 1 ∧
      op.pushes = 0 := by
  unfold appendStore at h
  by_cases hindexed : ctx.vars.ctx.indexed = true
  · rw [if_pos hindexed] at h
    rcases hlookup : ctx.vars.vars.lookup name with _ | type
    · simp only [hlookup] at h
      exact absurd h Emission.fail_eq_ok
    · simp only [hlookup] at h
      rcases ho : storeOp ctx name type with err | op
      · rw [ho] at h
        exact absurd h (Emission.fail_eq_ok (s := s))
      · rw [ho] at h
        obtain ⟨rfl, -⟩ := Emission.emit_eq_ok.1 h
        obtain ⟨hd, hpops, hpushes, -⟩ := Types.storeOp_eq_ok ho
        exact ⟨op, rfl, hd, hpops, hpushes⟩
  · rw [if_neg hindexed] at h
    obtain ⟨rfl, -⟩ := Emission.emit_eq_ok.1 h
    exact ⟨_, rfl, rfl, rfl, rfl⟩

/-- A pass through the code of a store. -/
theorem stores_of_pass {target : Expr}
    (h : compileAssign env (visitor env fuel) ctx target s = .ok ((), l, s'))
    (hn : (instCode.labels list).Nodup)
    (hp : Pass instCode (Inst.Leaves array) list before l (value :: stack) ps stack') :
    ∃ returned, Stores array env ctx list before target value stack ps l returned ∧
      stack' = returned.toList ++ stack ∧ returned.isSome = target.isSubscript := by
  have hnode := typesNode_visitor env fuel
  have hleaves : ∀ (i : Inst) (popped pushed : List V), i.Leaves array popped pushed →
      pushed.length = instCode.pushes i := fun _ _ _ => Inst.length_of_leaves array
  unfold compileAssign at h
  split at h
  · obtain ⟨op, rfl, hd, hpops, hpushes⟩ := appendStore_eq_ok h
    obtain ⟨rfl, popped, pushed, rest, hstack, hlen, hl, rfl⟩ := hp.single hd
    obtain ⟨w, rfl⟩ := List.length_eq_one_iff.1 (hlen.trans hpops)
    obtain rfl := List.length_eq_zero_iff.1 ((hleaves _ _ _ hl).trans hpushes)
    cases hstack
    exact ⟨none, .variable h hl, rfl, rfl⟩
  · rename_i lineno prefix_ index
    obtain ⟨u, l₁, s₁, l₂, h₁, h₂, rfl⟩ := Emission.bind_eq_ok.1 h
    obtain ⟨u, k₁, r₁, k₂, h₃, h₄, rfl⟩ := Emission.bind_eq_ok.1 h₂
    obtain ⟨u, m₁, t₁, m₂, h₅, h₆, rfl⟩ := Emission.bind_eq_ok.1 h₄
    obtain ⟨rfl, -⟩ := Emission.emit_eq_ok.1 h₅
    obtain ⟨rfl, -⟩ := Emission.emit_eq_ok.1 h₆
    have hindex : Visited (visitor env fuel) ctx index l₁ := ⟨s, s₁, h₁⟩
    have hpre : Visited (visitor env fuel) ctx prefix_ k₁ := ⟨s₁, r₁, h₃⟩
    have hload : instCode.Closed [.op lineno (.loadAttr (env.intern "[]="))] := .singleton rfl
    have hcall : instCode.Closed [.op lineno (.callFunction 2 0 0 0 0 1 0 0)] := .singleton rfl
    obtain ⟨qs, rs, mid, rfl, hp₁, hp⟩ := hp.split hn (hindex.closed hnode)
      ((hpre.closed hnode).append (hload.append hcall))
    obtain ⟨i, rfl⟩ := hindex.pass hnode hleaves hn hp₁
    obtain ⟨qs', rs, mid, rfl, hp₂, hp⟩ := hp.split hn (hpre.closed hnode) (hload.append hcall)
    obtain ⟨p, rfl⟩ := hpre.pass hnode hleaves hn hp₂
    obtain ⟨qs'', rs, mid, rfl, hp₃, hp₄⟩ := hp.split hn hload hcall
    obtain ⟨rfl, popped, pushed, rest, hstack, hlen, hl, rfl⟩ := hp₃.single rfl
    obtain ⟨w, rfl⟩ := List.length_eq_one_iff.1 hlen
    obtain ⟨method, rfl⟩ := List.length_eq_one_iff.1 (hleaves _ _ _ hl)
    cases hstack
    obtain ⟨rfl, popped, pushed, rest, hstack, hlen, hl', rfl⟩ := hp₄.single rfl
    obtain ⟨x, y, z, rfl⟩ := List.length_eq_three.1 hlen
    obtain ⟨returned, rfl⟩ := List.length_eq_one_iff.1 (hleaves _ _ _ hl')
    cases hstack
    refine ⟨some returned, ?_, rfl, rfl⟩
    have heval := Evaluates.two hindex hp₁ hpre hp₂
    simpa [Nat.add_assoc] using Stores.subscript heval hl hl'
  · rename_i lineno obj name
    obtain ⟨u, l₁, s₁, l₂, h₁, h₂, rfl⟩ := Emission.bind_eq_ok.1 h
    obtain ⟨rfl, -⟩ := Emission.emit_eq_ok.1 h₂
    have hobj : Visited (visitor env fuel) ctx obj l₁ := ⟨s, s₁, h₁⟩
    have hstore : instCode.Closed [.op lineno (.storeAttr name)] := .singleton rfl
    obtain ⟨qs, rs, mid, rfl, hp₁, hp₂⟩ := hp.split hn (hobj.closed hnode) hstore
    obtain ⟨o, rfl⟩ := hobj.pass hnode hleaves hn hp₁
    obtain ⟨rfl, popped, pushed, rest, hstack, hlen, hl, rfl⟩ := hp₂.single rfl
    obtain ⟨x, y, rfl⟩ := List.length_eq_two.1 hlen
    obtain rfl := List.length_eq_zero_iff.1 (hleaves _ _ _ hl)
    cases hstack
    exact ⟨none, .attr (.one hobj hp₁) hl, rfl, rfl⟩
  · rcases herror : assignErrorName target with _ | name
    · simp only [herror] at h
      exact absurd h Emission.fail_eq_ok
    · simp only [herror] at h
      exact absurd h Emission.fail_eq_ok

/-- A store jumps only inside itself. -/
theorem closed_compileAssign {target : Expr}
    (h : compileAssign env (visitor env fuel) ctx target s = .ok ((), l, s')) :
    instCode.Closed l := by
  intro L hL
  have hnode := typesNode_visitor env fuel
  have ht : Types False True False [] [] 1 0 (compileAssign env (visitor env fuel) ctx target) :=
    hnode.compileAssign ctx False.elim False.elim
  exact ((ht s () l s' h).dests L hL).resolve_right (by simp)

theorem addDupFor_eq_ok {lineno : Lineno} {target : Expr}
    (h : addDupFor lineno target s = .ok ((), l, s')) :
    (l = [.op lineno .dup] ∧ target.isSubscript = false) ∨
      (l = [] ∧ (∀ n name, target ≠ .variable n name) ∧ ∀ n obj name, target ≠ .attr n obj name) := by
  unfold addDupFor at h
  split at h
  · exact .inl ⟨(Emission.emit_eq_ok.1 h).1, rfl⟩
  · exact .inl ⟨(Emission.emit_eq_ok.1 h).1, rfl⟩
  · rename_i hattr hvar
    exact .inr ⟨(Emission.pure_eq_ok.1 h).2.1, fun n name => hvar n name, fun n o name => hattr n o name⟩

/-- A pass through the code of a chain. -/
theorem chained_of_pass {e : Expr} (hn : (instCode.labels list).Nodup) :
    ∀ {targets : List (Lineno × Expr)} {fuel : Nat} {s s' : CompileData} {l : List Inst}
      {ps : List Nat} {stack' : List V},
      (visitor env fuel).node ctx (chain targets e) s = .ok ((), l, s') →
      Pass instCode (Inst.Leaves array) list before l stack ps stack' →
      ∃ v results w, Chained array env ctx list before targets e v results w stack ps l ∧
        stack' = w :: stack
  | [], fuel, s, s', l, ps, stack', h, hp => by
    have hvis : Visited (visitor env fuel) ctx e l := ⟨s, s', h⟩
    obtain ⟨v, rfl⟩ := hvis.pass (typesNode_visitor env fuel)
      (fun _ _ _ => Inst.length_of_leaves array) hn hp
    exact ⟨v, [], v, .expr (.one hvis hp), rfl⟩
  | (lineno, target) :: targets, 0, s, s', l, ps, stack', h, hp =>
    absurd h (Emission.fail_eq_ok (s := s))
  | (lineno, target) :: targets, fuel + 1, s, s', l, ps, stack', h, hp => by
    obtain ⟨u, l₁, s₁, l₂, h₁, h₂, rfl⟩ := Emission.bind_eq_ok.1 h
    obtain ⟨u, k₁, r₁, k₂, h₃, h₄, rfl⟩ := Emission.bind_eq_ok.1 h₂
    have hvis : Visited (visitor env fuel) ctx (chain targets e) l₁ := ⟨s, s₁, h₁⟩
    have hc₁ := hvis.closed (typesNode_visitor env fuel)
    have hc₃ := closed_compileAssign h₄
    rcases addDupFor_eq_ok h₃ with ⟨rfl, hsub⟩ | ⟨rfl, hno⟩
    · have hdup : instCode.Closed [.op lineno .dup] := .singleton rfl
      obtain ⟨qs, rs, mid, rfl, hp₁, hp⟩ := hp.split hn hc₁ (hdup.append hc₃)
      obtain ⟨v, results, w, hchain, rfl⟩ := chained_of_pass hn h₁ hp₁
      obtain ⟨qs', rs, mid, rfl, hp₂, hp₃⟩ := hp.split hn hdup hc₃
      obtain ⟨rfl, popped, pushed, rest, hstack, hlen, ⟨x, rfl, rfl⟩, rfl⟩ := hp₂.single rfl
      cases hstack
      obtain ⟨returned, hstores, rfl, hret⟩ := stores_of_pass h₄ hn hp₃
      rw [hsub, Option.isSome_eq_false_iff, Option.isNone_iff_eq_none] at hret
      subst hret
      exact ⟨v, _, w, .copied hchain hstores, rfl⟩
    · obtain ⟨qs, rs, mid, rfl, hp₁, hp₂⟩ := hp.split hn hc₁ hc₃
      obtain ⟨v, results, w, hchain, rfl⟩ := chained_of_pass hn h₁ hp₁
      obtain ⟨returned, hstores, rfl, hret⟩ := stores_of_pass h₄ hn hp₂
      rcases returned with _ | r
      · cases hstores with
        | «variable» => exact absurd rfl (hno.1 _ _)
        | attr => exact absurd rfl (hno.2 _ _ _)
      · exact ⟨v, _, r, .returned hchain hstores, rfl⟩

/-- A target has got something, and its `[]=` has returned that. -/
def Faithful (result : V × Option V) : Prop := ∀ r ∈ result.2, r = result.1

/-- The value goes through the chain exactly if each `[]=` returns what it gets. -/
theorem Chained.value_iff {targets : List (Lineno × Expr)} {e : Expr} {v w : V}
    {results : List (V × Option V)} (h : Chained array env ctx list before targets e v results w stack
      ps l) : ((∀ p ∈ results, p.1 = v) ∧ w = v) ↔ ∀ p ∈ results, Faithful p := by
  induction h with
  | expr _ => simp
  | copied _ _ ih =>
    rw [List.forall_mem_cons, List.forall_mem_cons, ← ih]
    simp only [Faithful, Option.not_mem_none, false_implies, implies_true, true_and]
    tauto
  | returned _ _ ih =>
    rw [List.forall_mem_cons, List.forall_mem_cons, ← ih]
    simp only [Faithful, Option.mem_some_iff, forall_eq']
    constructor
    · rintro ⟨⟨rfl, hall⟩, rfl⟩
      exact ⟨rfl, hall, rfl⟩
    · rintro ⟨rfl, hall, rfl⟩
      exact ⟨⟨rfl, hall⟩, rfl⟩

/-- What the first target is given, and what is left of the chain, is of no account to the others. -/
theorem Chained.received_iff {targets : List (Lineno × Expr)} {e : Expr} {v w : V}
    {results : List (V × Option V)} (h : Chained array env ctx list before targets e v results w stack
      ps l) : (∀ p ∈ results, p.1 = v) ↔ ∀ p ∈ results.tail, Faithful p := by
  cases h with
  | expr _ => simp
  | copied hchain _ =>
    rw [List.forall_mem_cons, List.tail_cons, ← hchain.value_iff]
    exact and_comm
  | returned hchain _ =>
    rw [List.forall_mem_cons, List.tail_cons, ← hchain.value_iff]
    exact and_comm

/-- Only a subscript returns something. -/
theorem Chained.subscripts {targets : List (Lineno × Expr)} {e : Expr} {v w : V}
    {results : List (V × Option V)} (h : Chained array env ctx list before targets e v results w stack
      ps l) : results.map (·.2.isSome) = targets.map (·.2.isSubscript) := by
  induction h with
  | expr _ => rfl
  | copied _ hs ih =>
    rw [List.map_cons, List.map_cons, ih]
    cases hs <;> rfl
  | returned _ hs ih =>
    rw [List.map_cons, List.map_cons, ih]
    cases hs
    rfl

/-- A pass through the code of a chain, wherever it stands: the expression is evaluated once, then
the value goes to the targets. As a statement it comes to all of them if each `[]=` but that of the
first target returns what it gets, and it is the value of the chain if that of the first target does
so as well. -/
theorem chain_iff {targets : List (Lineno × Expr)} {e : Expr}
    (h : (visitor env fuel).node ctx (chain targets e) s = .ok ((), l, s'))
    (hn : (instCode.labels list).Nodup)
    (hp : Pass instCode (Inst.Leaves array) list before l stack ps stack') :
    ∃ v results w, Chained array env ctx list before targets e v results w stack ps l ∧
      stack' = w :: stack ∧ results.map (·.2.isSome) = targets.map (·.2.isSubscript) ∧
      ((∀ p ∈ results, p.1 = v) ↔ ∀ p ∈ results.tail, Faithful p) ∧
      (((∀ p ∈ results, p.1 = v) ∧ w = v) ↔ ∀ p ∈ results, Faithful p) := by
  obtain ⟨v, results, w, hchain, hstack⟩ := chained_of_pass hn h hp
  exact ⟨v, results, w, hchain, hstack, hchain.subscripts, hchain.received_iff, hchain.value_iff⟩

end Stores

section Subscript

abbrev leavesNat : Inst → List ℕ → List ℕ → Prop := Inst.Leaves fun _ => 0

/-- `x = y = nil`, as the names are numbered. -/
def plainChain : List (Lineno × Expr) := [(1, .variable 1 5), (1, .variable 1 6)]

def plainCode : List Inst :=
  [.op 1 (.pushConst 0), .op 1 .dup, .op 1 (.storeLocalName 6), .op 1 .dup,
    .op 1 (.storeLocalName 5)]

theorem pass_plain :
    Pass instCode leavesNat plainCode [] plainCode [] [0, 1, 2, 3, 4] [8] := by
  have hpush : instCode.Step leavesNat plainCode ⟨0, [] ++ []⟩ ⟨1, [8] ++ []⟩ :=
    .next rfl rfl rfl rfl
  have hdup : ∀ pc, plainCode[pc]? = some (.op 1 .dup) →
      instCode.Step leavesNat plainCode ⟨pc, [8] ++ []⟩ ⟨pc + 1, [8, 8] ++ []⟩ :=
    fun pc h => .next h rfl ⟨8, rfl, rfl⟩ rfl
  have hstore : ∀ pc id, plainCode[pc]? = some (.op 1 (.storeLocalName id)) →
      instCode.Step leavesNat plainCode ⟨pc, [8] ++ [8]⟩ ⟨pc + 1, [] ++ [8]⟩ :=
    fun pc id h => .next h rfl rfl rfl
  exact ⟨⟨[], rfl⟩, .step hpush (.step (hdup 1 rfl) (.step (hstore 2 6 rfl) (.step (hdup 3 rfl)
    (.step (hstore 4 5 rfl) .refl)))), by simp [Region.Inside, plainCode]⟩

theorem chain_plain : ∃ v results w, Chained (fun _ => 0) .sample emptyPackage plainCode []
    plainChain (.literal 1 .nil) v results w [] [0, 1, 2, 3, 4] plainCode ∧
      [8] = w :: ([] : List ℕ) ∧ results.map (·.2.isSome) = [false, false] ∧
      ((∀ p ∈ results, p.1 = v) ↔ ∀ p ∈ results.tail, Faithful p) ∧
      (((∀ p ∈ results, p.1 = v) ∧ w = v) ↔ ∀ p ∈ results, Faithful p) := by
  obtain ⟨s, hv⟩ : ∃ s, (visitor .sample 3).node emptyPackage (chain plainChain (.literal 1 .nil))
      (.new []) = .ok ((), plainCode, s) := ⟨_, rfl⟩
  exact chain_iff hv (by decide) pass_plain

/-- `x = a[0] = 3`, as the names are numbered. -/
def subscriptChain : List (Lineno × Expr) :=
  [(1, .variable 1 5), (1, .subscript 1 (.variable 1 6) (.literal 1 (.fixnum 0)))]

def subscriptCode : List Inst :=
  [.op 1 (.pushConst 0), .op 1 (.pushConst 1), .op 1 (.loadLocalName 6),
    .op 1 (.loadAttr (YogEnv.sample.intern "[]=")), .op 1 (.callFunction 2 0 0 0 0 1 0 0), .op 1 .dup,
    .op 1 (.storeLocalName 5)]

/-- In `x = a[0] = 3` what `[]=` returns is stored in `x`, and it is the value of the chain. -/
theorem not_chain :
    (∃ s, (visitor .sample 4).node emptyPackage (chain subscriptChain (.literal 1 (.fixnum 3)))
      (.new []) = .ok ((), subscriptCode, s)) ∧
    Pass instCode leavesNat subscriptCode [] subscriptCode [] [0, 1, 2, 3, 4, 5, 6] [7] ∧
    Chained (fun _ => 0) .sample emptyPackage subscriptCode [] subscriptChain
      (.literal 1 (.fixnum 3)) 3 [(7, none), (3, some 7)] 7 [] [0, 1, 2, 3, 4, 5, 6]
      subscriptCode := by
  have hvalue : Pass instCode leavesNat subscriptCode [] [.op 1 (.pushConst 0)] [] [0] [3] :=
    @Pass.of_step _ _ _ _ _ _ 0 _ [] [3] [] rfl rfl rfl rfl
  have hindex : Pass instCode leavesNat subscriptCode [.op 1 (.pushConst 0)]
      [.op 1 (.pushConst 1)] [3] [1] [0, 3] :=
    @Pass.of_step _ _ _ _ _ _ 1 _ [] [0] [3] rfl rfl rfl rfl
  have hload : Pass instCode leavesNat subscriptCode
      ([.op 1 (.pushConst 0)] ++ [.op 1 (.pushConst 1)]) [.op 1 (.loadLocalName 6)] [0, 3] [2]
      [9, 0, 3] :=
    @Pass.of_step _ _ _ _ _ _ 2 _ [] [9] [0, 3] rfl rfl rfl rfl
  have hoperands : Evaluates leavesNat subscriptCode (visitor .sample 1) emptyPackage
      [.op 1 (.pushConst 0)] [.literal 1 (.fixnum 0), .variable 1 6] [3] [0, 9] [1, 2]
      [.op 1 (.pushConst 1), .op 1 (.loadLocalName 6)] :=
    .two ⟨{ CompileData.new [] with consts := [.val .nil] }, _, rfl⟩ hindex
      ⟨{ CompileData.new [] with consts := [.val .nil] }, _, rfl⟩ hload
  have hmethod : leavesNat (.op 1 (.loadAttr (YogEnv.sample.intern "[]="))) [9] [4] := rfl
  have hsubscript : Stores (fun _ => 0) .sample emptyPackage subscriptCode [.op 1 (.pushConst 0)]
      (.subscript 1 (.variable 1 6) (.literal 1 (.fixnum 0))) 3 [] [1, 2, 3, 4]
      ((subscriptCode.drop 1).take 4) (some 7) := .subscript hoperands hmethod rfl
  have hinner : Chained (fun _ => 0) .sample emptyPackage subscriptCode [] subscriptChain.tail
      (.literal 1 (.fixnum 3)) 3 [(3, some 7)] 7 [] [0, 1, 2, 3, 4] (subscriptCode.take 5) :=
    .returned (.expr (.one (v := visitor .sample 1) ⟨.new [], _, rfl⟩ hvalue)) hsubscript
  have hstore : Stores (fun _ => 0) .sample emptyPackage subscriptCode
      (subscriptCode.take 5 ++ [.op 1 .dup]) (.variable 1 5) 7 [7] [6]
      [.op 1 (.storeLocalName 5)] none := .variable (s := .new []) rfl rfl
  refine ⟨⟨_, rfl⟩, ⟨⟨[], rfl⟩, ?_, by simp [Region.Inside, subscriptCode]⟩, .copied hinner hstore⟩
  have hcall : instCode.Step leavesNat subscriptCode ⟨3, [9] ++ [0, 3]⟩ ⟨4, [4] ++ [0, 3]⟩ :=
    .next rfl rfl hmethod rfl
  have hreturn : instCode.Step leavesNat subscriptCode ⟨4, [4, 0, 3] ++ []⟩ ⟨5, [7] ++ []⟩ :=
    .next rfl rfl rfl rfl
  have hdup : instCode.Step leavesNat subscriptCode ⟨5, [7] ++ []⟩ ⟨6, [7, 7] ++ []⟩ :=
    .next rfl rfl ⟨7, rfl, rfl⟩ rfl
  have hleft : instCode.Step leavesNat subscriptCode ⟨6, [7] ++ [7]⟩ ⟨7, [] ++ [7]⟩ :=
    .next rfl rfl rfl rfl
  exact (((((hvalue.run.trans hindex.run).trans hload.run).trans (.step hcall .refl)).trans
    (.step hreturn .refl)).trans (.step hdup .refl)).trans (.step hleft .refl)

end Subscript

end Yog
