import Yog.Proofs.Evaluation
import Yog.Proofs.HashTable
import Yog.TableIteration

/-!
# Dictionary literals

The keys and values of a literal are evaluated in the order of the source. But `make_dict` pops the
pairs and puts the last one into the dictionary first, so that of several pairs with equal keys the
first one is left (`makeDict_eq`), where assignments leave the last one (`assigned_eq`).
-/

namespace Yog

open Emission (each)
open StackCode Keyed Table

variable {V : Type}

/-- The dictionary after the assignments of the pairs. -/
def assigned (type : HashType V) (pairs : List (V × V)) : Except TableError (Table V V) := do
  pairs.foldlM (fun dict pair => Dict.set dict pair.1 pair.2) (← Table.stInitTable type)

/-- The operands of `make_dict`, the topmost first. -/
def operands (pairs : List (V × V)) : List V := (pairs.flatMap fun p => [p.1, p.2]).reverse

section Pairs

variable {type : HashType V} {pairs : List (V × V)}

theorem length_boundKeys_bind (eq : V → V → Bool) (k v : V) (h : List (Change V V)) :
    (boundKeys eq (.bind k v :: h)).length ≤ (boundKeys eq h).length + 1 := by
  rw [boundKeys]
  split_ifs
  · exact Nat.le_succ _
  · exact le_rfl

variable (pairs) in
/-- Pairs that a table has room for go into it. -/
theorem foldlM_set (hT : type.Lawful) {t : Table V V} {h : List (Change V V)} (hi : Inv type t h)
    (hroom : (boundKeys type.compare h).length + pairs.length ≤ 6 * largest) :
    ∃ t', pairs.foldlM (fun dict pair => Dict.set dict pair.1 pair.2) t = .ok t' ∧
      Inv type t' ((pairs.map fun p => Change.bind p.1 p.2).reverse ++ h) := by
  induction pairs generalizing t h with
  | nil => exact ⟨t, rfl, hi⟩
  | cons p pairs ih =>
    rw [List.length_cons] at hroom
    have hfits : (Op.insert p.1 p.2).HasRoom type h := fun _ => by omega
    have hproper : (Op.insert p.1 p.2).Proper type h := trivial
    obtain ⟨t₁, ht₁, hi₁⟩ := exec_ok hT hi hproper hfits p.1
    have hbound : (boundKeys type.compare (.bind p.1 p.2 :: h)).length + pairs.length ≤
        6 * largest := by
      have := length_boundKeys_bind type.compare p.1 p.2 h
      omega
    obtain ⟨t', ht', hi'⟩ := ih hi₁ hbound
    refine ⟨t', ?_, by simpa [Op.change?] using hi'⟩
    have hset : Dict.set t p.1 p.2 = .ok t₁ := ht₁
    rw [List.foldlM_cons, hset]
    exact ht'

theorem makeDictLoop_eq (t : Table V V) (stack : List V) :
    Dict.makeDictLoop pairs.length t (operands pairs ++ stack) =
      (pairs.reverse.foldlM (fun dict pair => Dict.set dict pair.1 pair.2) t).map (·, stack) := by
  induction pairs using List.reverseRecOn generalizing t stack with
  | nil => rfl
  | append_singleton pairs p ih =>
    have hops : operands (pairs ++ [p]) ++ stack = p.2 :: p.1 :: (operands pairs ++ stack) := by
      simp [operands]
    rw [hops, List.length_append, List.length_singleton, Dict.makeDictLoop, List.reverse_append,
      List.reverse_singleton, List.singleton_append, List.foldlM_cons]
    rcases Dict.set t p.1 p.2 with e | t₁
    · rfl
    · exact ih t₁ stack

/-- The dictionary of the literal has the pair that is first among those of its key. -/
theorem makeDict_eq (hT : type.Lawful) (hroom : pairs.length ≤ 6 * largest) :
    ∃ d, Dict.makeDict type pairs.length (operands pairs) = .ok (d, []) ∧
      ∀ key, d.lookup key = (find type.compare Prod.fst key pairs).map Prod.snd := by
  obtain ⟨t, ht, hi⟩ := inv_init (V := V) type
  obtain ⟨d, hd, hi'⟩ := foldlM_set pairs.reverse hT hi (by simpa [boundKeys] using hroom)
  refine ⟨d, ?_, fun key => ?_⟩
  · have hloop : Dict.makeDictLoop pairs.length t (operands pairs ++ []) = _ :=
      makeDictLoop_eq t []
    rw [List.append_nil, hd] at hloop
    rw [Dict.makeDict, ht]
    exact hloop
  · rw [hi'.lookup_eq hT, List.append_nil, List.map_reverse, List.reverse_reverse,
      latest_binds]

/-- The assignments leave the pair that is last among those of its key. -/
theorem assigned_eq (hT : type.Lawful) (hroom : pairs.length ≤ 6 * largest) :
    ∃ d, assigned type pairs = .ok d ∧
      ∀ key, d.lookup key = (find type.compare Prod.fst key pairs.reverse).map Prod.snd := by
  obtain ⟨t, ht, hi⟩ := inv_init (V := V) type
  obtain ⟨d, hd, hi'⟩ := foldlM_set pairs hT hi (by simpa [boundKeys] using hroom)
  refine ⟨d, ?_, fun key => ?_⟩
  · rw [assigned, ht]
    exact hd
  · rw [hi'.lookup_eq hT, List.append_nil, ← List.map_reverse, latest_binds]

end Pairs

section Literal

variable (array : List V → V) (type : HashType V) (dict : Table V V → V)

/-- What an instruction leaves, where `dict` makes a value of a dictionary. -/
def LeavesDict (i : Inst) (popped pushed : List V) : Prop :=
  i.Leaves array popped pushed ∧ ∀ lineno size, i = .op lineno (.makeDict size) →
    ∃ d rest, Dict.makeDict type size popped = .ok (d, rest) ∧ pushed = [dict d]

variable {array type dict} {env : YogEnv} {v : Visitor} {ctx : Ctx} {list before l : List Inst}
  {stack stack' : List V} {ps : List Nat} {lineno : Lineno} {s s' : CompileData}

theorem length_of_leavesDict {i : Inst} {popped pushed : List V}
    (h : LeavesDict array type dict i popped pushed) : pushed.length = instCode.pushes i :=
  Inst.length_of_leaves array h.1

/-- The expressions of a literal, in the order of the source. -/
def dictExprs (elems : List DictElem) : List Expr := elems.flatMap fun e => [e.key, e.value]

theorem each_dictExprs : ∀ {elems : List DictElem} {s s' : CompileData} {l : List Inst},
    each (fun elem : DictElem => do v.node ctx elem.key; v.node ctx elem.value) elems s =
      .ok ((), l, s') → each (v.node ctx) (dictExprs elems) s = .ok ((), l, s')
  | [], _, _, _, h => h
  | e :: elems, s, s', l, h => by
    obtain ⟨u, l₁, s₁, l₂, h₁, h₂, rfl⟩ := Emission.bind_eq_ok.1 h
    obtain ⟨u', k₁, r₁, k₂, hk, hv, rfl⟩ := Emission.bind_eq_ok.1 h₁
    rw [List.append_assoc]
    exact Emission.bind_eq_ok.2 ⟨(), k₁, r₁, _, hk,
      Emission.bind_eq_ok.2 ⟨(), k₂, s₁, l₂, hv, each_dictExprs h₂, rfl⟩, rfl⟩

theorem length_dictExprs (elems : List DictElem) : (dictExprs elems).length = 2 * elems.length := by
  simp [dictExprs, List.length_flatMap, Nat.mul_comm]

/-- Twice as many values are pairs. -/
theorem exists_pairs : ∀ {n : Nat} {values : List V}, values.length = 2 * n →
    ∃ pairs : List (V × V), pairs.length = n ∧ values = pairs.flatMap fun p => [p.1, p.2]
  | 0, [], _ => ⟨[], rfl, rfl⟩
  | n + 1, k :: v :: values, h => by
    have hlen : values.length = 2 * n := by
      simp only [List.length_cons] at h
      omega
    obtain ⟨pairs, hpairs, rfl⟩ := exists_pairs hlen
    exact ⟨(k, v) :: pairs, by simp [hpairs], rfl⟩

/-- For every key, the pair that is first among those with an equal key and the last one have the
same value. -/
def EndsAgree (eq : V → V → Bool) (pairs : List (V × V)) : Prop :=
  ∀ key, (find eq Prod.fst key pairs).map Prod.snd =
    (find eq Prod.fst key pairs.reverse).map Prod.snd

/-- A pass through the code of a literal: the keys and values are evaluated in the order of the
source, each of them once, and the dictionary is that of the assignments if the first and the last
pair of every key agree. -/
theorem dictLiteral_iff (hT : type.Lawful) {fuel : Nat} {elems : List DictElem}
    (hsize : elems.length < 2 ^ 8)
    (hv : (visitor env (fuel + 1)).node ctx (.dict lineno elems) s = .ok ((), l, s'))
    (hn : (instCode.labels list).Nodup)
    (hp : Pass instCode (LeavesDict array type dict) list before l stack ps stack') :
    ∃ pairs qs codes, Evaluates (LeavesDict array type dict) list (visitor env fuel) ctx before
        (dictExprs elems) stack (pairs.flatMap fun p => [p.1, p.2]) qs codes ∧
      pairs.length = elems.length ∧ ps = qs ++ [before.length + codes.length] ∧
      ∃ d d', Dict.makeDict type elems.length (operands pairs) = .ok (d, []) ∧
        stack' = dict d :: stack ∧ assigned type pairs = .ok d' ∧
        ((∀ key, d.lookup key = d'.lookup key) ↔ EndsAgree type.compare pairs) := by
  have hnode := typesNode_visitor env fuel
  obtain ⟨u, codes, s₁, l₂, h₁, h₂, rfl⟩ := Emission.bind_eq_ok.1 hv
  obtain ⟨rfl, -⟩ := Emission.emit_eq_ok.1 h₂
  have heach := each_dictExprs h₁
  have hclosed := closed_each hnode heach
  have hmake : instCode.Closed [.op lineno (.makeDict elems.length)] := .singleton rfl
  obtain ⟨qs, rs, mid, rfl, hp₁, hp₂⟩ := hp.split hn hclosed hmake
  obtain ⟨values, heval, rfl⟩ := evaluates_of_pass hnode (fun _ _ _ => length_of_leavesDict) heach
    hn hp₁
  obtain ⟨pairs, hlen, rfl⟩ := exists_pairs (heval.length.trans (length_dictExprs elems))
  obtain ⟨rfl, popped, pushed, rest, hstack, hpopped, hleaves, rfl⟩ :=
    hp₂.single rfl
  have hpop : popped = operands pairs ∧ rest = stack := by
    have hlen' : popped.length = (operands pairs).length := by
      rw [hpopped]
      change 2 * elems.length = _
      simp [operands, List.length_flatMap, hlen, Nat.mul_comm]
    obtain ⟨h1, h2⟩ := List.append_inj hstack.symm hlen'
    exact ⟨h1, h2⟩
  obtain ⟨rfl, rfl⟩ := hpop
  have hroom : pairs.length ≤ 6 * largest := by
    rw [hlen, largest]
    omega
  obtain ⟨d, hd, hlookup⟩ := makeDict_eq hT hroom
  obtain ⟨d', hd', hlookup'⟩ := assigned_eq hT hroom
  rw [hlen] at hd
  obtain ⟨d₁, rest₁, hd₁, rfl⟩ := hleaves.2 lineno elems.length rfl
  obtain ⟨rfl, rfl⟩ := Prod.mk.inj (Except.ok.inj (hd₁.symm.trans hd))
  refine ⟨pairs, qs, codes, heval, hlen, by simp, d₁, d', hd, rfl, hd', ?_⟩
  exact forall_congr' fun key => by rw [hlookup, hlookup']

end Literal

section OneKey

/-- `{1: value, …}` -/
def oneKey (values : List Int) : List DictElem :=
  values.map fun n => ⟨.literal 1 (.fixnum 1), .literal 1 (.fixnum n)⟩

/-- A value for a dictionary of numbers: what it has for 1. -/
def valueOfOne (d : Table ℕ ℕ) : ℕ := (d.lookup 1).getD 0

abbrev LeavesNat : Inst → List ℕ → List ℕ → Prop := LeavesDict (fun _ => 0) natType valueOfOne

variable {list : List Inst} {stack : List ℕ} {lineno : Lineno} {n : ℕ}

theorem step_push (v : ℕ) {pos : ℕ} (h : list[pos]? = some (.op lineno (.pushConst n))) :
    instCode.Step LeavesNat list ⟨pos, stack⟩ ⟨pos + 1, v :: stack⟩ :=
  @Step.next _ _ instCode _ LeavesNat list pos _ [] [v] stack h rfl ⟨rfl, fun _ _ h => by cases h⟩
    rfl

theorem pass_push (v : ℕ) {i : ℕ} (h : list[i]? = some (.op lineno (.pushConst n))) :
    Pass instCode LeavesNat list (list.take i) [.op lineno (.pushConst n)] stack [i]
      (v :: stack) :=
  have hl : LeavesNat (.op lineno (.pushConst n)) [] [v] := ⟨rfl, fun _ _ h => by cases h⟩
  .of_step h rfl hl rfl

theorem step_make {size : ℕ} {popped : List ℕ} {d : Table ℕ ℕ} {pos : ℕ}
    (h : list[pos]? = some (.op lineno (.makeDict size))) (hlen : popped.length = 2 * size)
    (hd : Dict.makeDict natType size popped = .ok (d, [])) :
    instCode.Step LeavesNat list ⟨pos, popped ++ stack⟩ ⟨pos + 1, valueOfOne d :: stack⟩ := by
  refine @Step.next _ _ instCode _ LeavesNat list pos _ popped [valueOfOne d] stack h hlen
    ⟨rfl, fun lineno' size' heq => ?_⟩ rfl
  cases heq
  exact ⟨d, [], hd, rfl⟩

/-- The code of `{1: 2, 1: 3, 1: 2}`. -/
def agreeingCode : List Inst :=
  [.op 1 (.pushConst 0), .op 1 (.pushConst 1), .op 1 (.pushConst 0), .op 1 (.pushConst 2),
    .op 1 (.pushConst 0), .op 1 (.pushConst 1), .op 1 (.makeDict 3)]

theorem pass_agreeing : Pass instCode LeavesNat agreeingCode [] agreeingCode []
    [0, 1, 2, 3, 4, 5, 6] [2] := by
  obtain ⟨d, hd, hvalue⟩ : ∃ d, Dict.makeDict natType 3 [2, 1, 3, 1, 2, 1] = .ok (d, []) ∧
      valueOfOne d = 2 := ⟨_, rfl, rfl⟩
  have hmake : instCode.Step LeavesNat agreeingCode ⟨6, [2, 1, 3, 1, 2, 1] ++ []⟩
      ⟨7, valueOfOne d :: []⟩ := step_make rfl rfl hd
  rw [hvalue] at hmake
  exact ⟨⟨[], rfl⟩, .step (step_push 1 rfl) (.step (step_push 2 rfl) (.step (step_push 1 rfl)
    (.step (step_push 3 rfl) (.step (step_push 1 rfl) (.step (step_push 2 rfl)
      (.step hmake .refl)))))), by simp [Region.Inside, agreeingCode]⟩

theorem dictLiteral_oneKey : ∃ pairs : List (ℕ × ℕ), pairs.length = 3 ∧ ∃ d d',
    Dict.makeDict natType 3 (operands pairs) = .ok (d, []) ∧ assigned natType pairs = .ok d' ∧
      ((∀ key, d.lookup key = d'.lookup key) ↔ EndsAgree natType.compare pairs) := by
  have hsize : (oneKey [2, 3, 2]).length < 2 ^ 8 := by decide
  obtain ⟨s, hv⟩ : ∃ s, (visitor .sample 2).node emptyPackage (.dict 1 (oneKey [2, 3, 2]))
      (.new []) = .ok ((), agreeingCode, s) := ⟨_, rfl⟩
  obtain ⟨pairs, -, -, -, hlen, -, d, d', hd, -, hd', hiff⟩ :=
    dictLiteral_iff natType_lawful hsize hv (by decide) pass_agreeing
  exact ⟨pairs, hlen, d, d', hd, hd', hiff⟩

/-- The code of `{1: 2, 1: 3}`. -/
def oneKeyCode : List Inst :=
  [.op 1 (.pushConst 0), .op 1 (.pushConst 1), .op 1 (.pushConst 0), .op 1 (.pushConst 2),
    .op 1 (.makeDict 2)]

/-- The value of `{1: 2, 1: 3}` has 2 for 1, and the assignments leave 3. -/
theorem not_dictLiteral :
    (∃ s, (visitor .sample 2).node emptyPackage (.dict 1 (oneKey [2, 3])) (.new []) =
      .ok ((), oneKeyCode, s)) ∧
    Evaluates LeavesNat oneKeyCode (visitor .sample 1) emptyPackage [] (dictExprs (oneKey [2, 3])) []
      [1, 2, 1, 3] [0, 1, 2, 3] (oneKeyCode.take 4) ∧
    Pass instCode LeavesNat oneKeyCode [] oneKeyCode [] [0, 1, 2, 3, 4] [2] ∧
    (assigned natType [(1, 2), (1, 3)]).map valueOfOne = .ok 3 := by
  refine ⟨⟨_, rfl⟩, ?_, ?_, rfl⟩
  · exact .cons ⟨.new [], _, rfl⟩ (pass_push 1 (i := 0) rfl)
      (.cons ⟨{ CompileData.new [] with consts := [.val .nil] }, _, rfl⟩
        (pass_push 2 (i := 1) rfl)
        (.cons ⟨.new [], _, rfl⟩ (pass_push 1 (i := 2) rfl)
          (.cons ⟨{ CompileData.new [] with consts := [.val .nil, .val .nil] }, _, rfl⟩
            (pass_push 3 (i := 3) rfl) .nil)))
  · obtain ⟨d, hd, hvalue⟩ : ∃ d, Dict.makeDict natType 2 [3, 1, 2, 1] = .ok (d, []) ∧
        valueOfOne d = 2 := ⟨_, rfl, rfl⟩
    have hmake : instCode.Step LeavesNat oneKeyCode ⟨4, [3, 1, 2, 1] ++ []⟩
        ⟨5, valueOfOne d :: []⟩ := step_make rfl rfl hd
    rw [hvalue] at hmake
    exact ⟨⟨[], rfl⟩, .step (step_push 1 rfl) (.step (step_push 2 rfl) (.step (step_push 1 rfl)
      (.step (step_push 3 rfl) (.step hmake .refl)))), by simp [Region.Inside, oneKeyCode]⟩

end OneKey

end Yog
