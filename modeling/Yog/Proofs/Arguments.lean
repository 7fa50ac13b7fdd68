import Yog.Callable

/-!
# How a call binds its arguments

Both binders fill parameters by position and then go through the keyword arguments, in the same way
(`keywordStep`). So what they do is said by the number of parameters filled by position, by what is
left for the `*` parameter, and by the keyword arguments that are read (`Fits`, `assignment`).
-/

namespace Yog

open Binding

variable {V : Type}

/-- A place with an argument or without one. -/
def Slot.ofOption : Option V → Slot V
  | none => .undef
  | some v => .val v

@[simp] theorem Slot.isUndef_ofOption (arg : Option V) :
    (Slot.ofOption arg).isUndef = arg.isNone := by
  cases arg <;> rfl

@[simp] theorem Locals.store_self (locals : Locals V) (i : Nat) (s : Slot V) :
    locals.store i s i = s := Function.update_self ..

@[simp] theorem Locals.store_of_ne {locals : Locals V} {i j : Nat} {s : Slot V} (h : j ≠ i) :
    locals.store i s j = locals j := Function.update_of_ne h ..

/-- What `assign_keyword_arg` and `set_keyword_arg` have in common: the parameters from `off` on,
and the place of the dictionary. -/
def keywordStep (names : List ID) (off : Nat) (dictAt : Option Nat) (locals : Locals V) (name : ID)
    (v : V) : Except ArgError (Locals V) :=
  match names.idxOf? name with
  | some i =>
    if (locals (off + i)).isUndef then .ok (locals.store (off + i) (.val v))
    else .error (.multipleValues name)
  | none =>
    match dictAt with
    | some pos => .ok (locals.setDict pos name v)
    | none => .error (.unexpectedKeyword name)

def keywordSteps (names : List ID) (off : Nat) (dictAt : Option Nat) :
    Locals V → List (ID × V) → Except ArgError (Locals V)
  | locals, [] => .ok locals
  | locals, p :: ps => do
    let locals ← keywordStep names off dictAt locals p.1 p.2
    keywordSteps names off dictAt locals ps

/-- The places that hold the state of the pass. -/
structure Represents (off : Nat) (dictAt : Option Nat) (s : Slots ID V) (locals : Locals V) :
    Prop where
  args : ∀ i arg, s.args[i]? = some arg → locals (off + i) = Slot.ofOption arg
  extra : ∀ pos, dictAt = some pos → locals pos = .dict s.extra

/-- The places the pass does not touch. -/
def Untouched (off n : Nat) (dictAt : Option Nat) (locals locals' : Locals V) : Prop :=
  ∀ j, (j < off ∨ off + n ≤ j) → dictAt ≠ some j → locals' j = locals j

/-- The places follow the pass of the library: they fail together, and agree afterwards. -/
def Follows (off n : Nat) (dictAt : Option Nat) (locals : Locals V) :
    Option (Slots ID V) → Except ArgError (Locals V) → Prop
  | none, r => ∃ e, r = .error e
  | some s, r => ∃ locals', r = .ok locals' ∧ Represents off dictAt s locals'
    ∧ Untouched off n dictAt locals locals'

section Pass

variable {names : List ID} {off : Nat} {dictAt : Option Nat}

theorem follows_step {s : Slots ID V} {locals : Locals V} (hr : Represents off dictAt s locals)
    (hl : s.args.length = names.length)
    (hd : ∀ pos, dictAt = some pos → off + names.length ≤ pos) (p : ID × V) :
    Follows off names.length dictAt locals (bindName names dictAt.isSome s p)
      (keywordStep names off dictAt locals p.1 p.2) := by
  unfold keywordStep
  rcases hi : names.idxOf? p.1 with _ | i
  · rw [bindName_other hi]
    rcases dictAt with _ | pos
    · exact ⟨_, rfl⟩
    · have hpos := hr.extra pos rfl
      have hle := hd pos rfl
      refine ⟨locals.setDict pos p.1 p.2, rfl, ⟨fun i arg ha => ?_, fun pos' h => ?_⟩,
        fun j _ hj => ?_⟩
      · have hlt : i < names.length := by
          rw [← hl]
          exact (List.getElem?_eq_some_iff.1 ha).1
        unfold Locals.setDict
        simp only [hpos]
        rw [Locals.store_of_ne (by omega)]
        exact hr.args i arg ha
      · cases h
        unfold Locals.setDict
        simp only [hpos]
        exact Locals.store_self ..
      · unfold Locals.setDict
        simp only [hpos]
        exact Locals.store_of_ne (fun h => hj (by rw [h]))
  · have hlt : i < s.args.length := by
      rw [hl]
      exact (List.getElem?_eq_some_iff.1 (getElem?_of_idxOf? hi)).1
    have hloc := hr.args i _ (List.getElem?_eq_getElem hlt)
    have hfill : filled s.args i = (s.args[i]).isSome := by
      unfold filled
      rw [List.getElem?_eq_getElem hlt]
      rfl
    rcases ha : s.args[i] with _ | v
    · rw [bindName_free hi (by rw [hfill, ha]; rfl)]
      simp only [hloc, ha, Slot.isUndef_ofOption, Option.isNone_none, if_true]
      refine ⟨_, rfl, ⟨fun j arg hj => ?_, fun pos h => ?_⟩, fun j hj _ => ?_⟩
      · rw [List.getElem?_set] at hj
        by_cases hij : i = j
        · subst hij
          rw [if_pos rfl, if_pos hlt] at hj
          cases hj
          exact Locals.store_self ..
        · rw [if_neg hij] at hj
          rw [Locals.store_of_ne (by omega)]
          exact hr.args j arg hj
      · have := hd pos h
        rw [Locals.store_of_ne (by omega)]
        exact hr.extra pos h
      · exact Locals.store_of_ne (by omega)
    · rw [bindName_filled hi (by rw [hfill, ha]; rfl)]
      simp only [hloc, ha, Slot.isUndef_ofOption, Option.isNone_some, Bool.false_eq_true, if_false]
      exact ⟨_, rfl⟩

theorem Untouched.trans {n : Nat} {l₁ l₂ l₃ : Locals V} (h : Untouched off n dictAt l₁ l₂)
    (h' : Untouched off n dictAt l₂ l₃) : Untouched off n dictAt l₁ l₃ :=
  fun j hj hd => (h' j hj hd).trans (h j hj hd)

theorem follows_steps (hd : ∀ pos, dictAt = some pos → off + names.length ≤ pos) :
    ∀ (ps : List (ID × V)) {s : Slots ID V} {locals : Locals V}, Represents off dictAt s locals →
      s.args.length = names.length →
      Follows off names.length dictAt locals (bindNames names dictAt.isSome s ps)
        (keywordSteps names off dictAt locals ps)
  | [], s, locals, hr, _ => ⟨locals, rfl, hr, fun _ _ _ => rfl⟩
  | p :: ps, s, locals, hr, hl => by
    have hstep := follows_step hr hl hd p
    unfold keywordSteps
    rw [bindNames_cons]
    rcases hb : bindName names dictAt.isSome s p with _ | s₁
    · rw [hb] at hstep
      obtain ⟨e, he⟩ := hstep
      rw [he]
      exact ⟨e, rfl⟩
    · rw [hb] at hstep
      obtain ⟨locals₁, he, hr₁, hu₁⟩ := hstep
      have hl₁ : s₁.args.length = names.length := by
        rw [← hl]
        exact length_bindName hb
      have ih := follows_steps hd ps hr₁ hl₁
      rw [he, Option.bind_some]
      rcases hbs : bindNames names dictAt.isSome s₁ ps with _ | s₂
      · rw [hbs] at ih
        obtain ⟨e, he⟩ := ih
        exact ⟨e, he⟩
      · rw [hbs] at ih
        obtain ⟨locals₂, he₂, hr₂, hu₂⟩ := ih
        exact ⟨locals₂, he₂, hr₂, hu₁.trans hu₂⟩

end Pass

namespace Call

variable (call : Call V)

/-- The positional arguments followed by the elements of the `*` array. -/
def combined : List V := call.posargs ++ (call.vararg.map Vararg.elems).getD []

/-- The keyword arguments followed by the entries of the `**` dictionary. -/
def entries : List (Key × V) := (call.varkwarg.map Varkwarg.entries).getD []

def ofEntries (entries : List (Key × V)) : List (ID × V) := entries.map fun e => (e.1.val2id, e.2)

def keyed : List (ID × V) := call.kwargs ++ ofEntries call.entries

/-- The `*` argument is an array and the `**` argument a dictionary with symbols as keys. -/
structure WellTyped : Prop where
  vararg : ∀ v, call.vararg = some v → v = .array v.elems
  varkwarg : ∀ v, call.varkwarg = some v → v = .dict v.entries
  keys : ∀ e ∈ call.entries, e.1.symbol?.isSome = true

end Call

/-- Which argument is in which parameter; `rest` and `extra` are what the `*` and the `**` parameter
get. -/
structure Assignment (V : Type) where
  args : List (Option V)
  rest : List V
  extra : Dict ID V
  block : Option V

section Layout

variable (l : ParamList) (off : Nat)

def varAt : Nat := off + l.names.length

def kwAt : Nat := varAt l off + if l.var.isSome then 1 else 0

def blockAt : Nat := kwAt l off + if l.kw.isSome then 1 else 0

def dictAt : Option Nat := if l.kw.isSome then some (kwAt l off) else none

/-- The places from `off` on hold an assignment. -/
structure Holds (locals : Locals V) (a : Assignment V) : Prop where
  length : a.args.length = l.names.length
  args : ∀ i arg, a.args[i]? = some arg → locals (off + i) = Slot.ofOption arg
  rest : l.var.isSome = true → locals (varAt l off) = .array a.rest
  extra : l.kw.isSome = true → locals (kwAt l off) = .dict a.extra
  block : l.block.isSome = true → locals (blockAt l off) = Slot.ofOption a.block

/-- The first `k` of `vals` in `n` places. -/
def placed (n k : Nat) (vals : List V) : List (Option V) :=
  (List.range n).map fun i => if i < k then vals[i]? else none

/-- What is bound when `k` parameters are filled by position. -/
def assignment (k : Nat) (vals : List V) (keyed : List (ID × V)) (block : Option V) :
    Assignment V where
  args := named l.names (placed l.names.length k vals) keyed
  rest := vals.drop l.names.length
  extra := insertAll ∅ (others l.names keyed)
  block := block

theorem ParamList.nodup_names (l : ParamList) : l.names.Nodup := l.nodup

/-- The keyword arguments can be bound when `k` parameters are filled by position. -/
structure KeywordsFit (keyed : List (ID × V)) (k : Nat) : Prop where
  known : ∀ p ∈ keyed, p.1 ∈ l.names ∨ l.kw.isSome = true
  free : ∀ p ∈ keyed, p.1 ∉ l.names.take k
  once : ((keyed.map Prod.fst).filter (· ∈ l.names)).Nodup

/-- And every required parameter then is bound. -/
structure Fits (keyed : List (ID × V)) (k : Nat) : Prop extends KeywordsFit l keyed k where
  bound : ∀ name ∈ l.required.drop k, name ∈ keyed.map Prod.fst

end Layout

theorem length_placed (n k : Nat) (vals : List V) : (placed n k vals).length = n := by
  simp [placed]

theorem getElem?_placed {n k i : Nat} {vals : List V} (hi : i < n) :
    (placed n k vals)[i]? = some (if i < k then vals[i]? else none) := by
  simp [placed, hi]

theorem filled_placed {n k i : Nat} {vals : List V} (hk : k ≤ vals.length) (hi : i < n) :
    filled (placed n k vals) i = decide (i < k) := by
  unfold filled
  rw [getElem?_placed hi]
  by_cases h : i < k
  · simp [h, List.getElem?_eq_getElem (Nat.lt_of_lt_of_le h hk)]
  · simp [h]

variable {l : ParamList} {off : Nat}

theorem Slot.ofOption_inj {x y : Option V} (h : Slot.ofOption x = Slot.ofOption y) : x = y := by
  cases x <;> cases y <;> cases h <;> rfl

/-- The places determine the parts of the assignment that belong to parameters. -/
theorem Holds.unique {locals : Locals V} {a b : Assignment V} (ha : Holds l off locals a)
    (hb : Holds l off locals b) : a.args = b.args ∧ (l.var.isSome = true → a.rest = b.rest)
      ∧ (l.kw.isSome = true → a.extra = b.extra)
      ∧ (l.block.isSome = true → a.block = b.block) := by
  refine ⟨List.ext_getElem (ha.length.trans hb.length.symm) fun i h₁ h₂ => ?_, fun hv => ?_,
    fun hk => ?_, fun hblk => ?_⟩
  · exact Slot.ofOption_inj ((ha.args i _ (List.getElem?_eq_getElem h₁)).symm.trans
      (hb.args i _ (List.getElem?_eq_getElem h₂)))
  · exact Slot.array.inj ((ha.rest hv).symm.trans (hb.rest hv))
  · exact Slot.dict.inj ((ha.extra hk).symm.trans (hb.extra hk))
  · exact Slot.ofOption_inj ((ha.block hblk).symm.trans (hb.block hblk))

theorem accepts_placed_iff {k : Nat} {vals : List V} (hk : k ≤ vals.length)
    {keyed : List (ID × V)} :
    Accepts l.names l.kw.isSome (placed l.names.length k vals) keyed ↔ KeywordsFit l keyed k := by
  constructor
  · rintro ⟨hkn, hfree, ho⟩
    refine ⟨hkn, fun p hp hm => ?_, ho⟩
    obtain ⟨i, hi⟩ := List.mem_iff_getElem?.1 hm
    rw [List.getElem?_take] at hi
    by_cases hik : i < k
    · rw [if_pos hik] at hi
      have := hfree p hp i hi
      rw [filled_placed hk (List.getElem?_eq_some_iff.1 hi).1] at this
      simp [hik] at this
    · rw [if_neg hik] at hi
      cases hi
  · rintro ⟨hkn, hfree, ho⟩
    refine ⟨hkn, fun p hp i hi => ?_, ho⟩
    rw [filled_placed hk (List.getElem?_eq_some_iff.1 hi).1, decide_eq_false_iff_not]
    intro hik
    refine hfree p hp (List.mem_iff_getElem?.2 ⟨i, ?_⟩)
    rw [List.getElem?_take, if_pos hik, hi]

/-- The places after the parameters are filled by position. -/
structure Placed (l : ParamList) (off k : Nat) (vals : List V) (locals : Locals V) : Prop where
  args : ∀ i < l.names.length,
    locals (off + i) = Slot.ofOption (if i < k then vals[i]? else none)
  rest : l.var.isSome = true → locals (varAt l off) = .array (vals.drop l.names.length)
  extra : l.kw.isSome = true → locals (kwAt l off) = .dict ∅
  block : l.block.isSome = true → locals (blockAt l off) = .undef

theorem le_kwAt : off + l.names.length ≤ kwAt l off := Nat.le_add_right _ _

theorem dictAt_isSome : (dictAt l off).isSome = l.kw.isSome := by
  unfold dictAt
  rcases l.kw with _ | _ <;> rfl

theorem dictAt_eq_some {pos : Nat} (h : dictAt l off = some pos) :
    l.kw.isSome = true ∧ pos = kwAt l off := by
  unfold dictAt at h
  by_cases hk : l.kw.isSome = true
  · rw [if_pos hk] at h
    exact ⟨hk, (Option.some.inj h).symm⟩
  · rw [if_neg hk] at h
    cases h

/-- The pass over the keyword arguments, from the filled parameters on. -/
theorem keywordSteps_placed {k : Nat} {vals : List V} {locals : Locals V}
    (hp : Placed l off k vals locals) (hk : k ≤ vals.length) (keyed : List (ID × V)) :
    (KeywordsFit l keyed k → ∃ locals', keywordSteps l.names off (dictAt l off) locals keyed
        = .ok locals' ∧ Holds l off locals' (assignment l k vals keyed none))
      ∧ (¬ KeywordsFit l keyed k → ∃ e, keywordSteps l.names off (dictAt l off) locals keyed
        = .error e) := by
  let s : Slots ID V := ⟨placed l.names.length k vals, ∅⟩
  have hs : Represents off (dictAt l off) s locals := by
    refine ⟨fun i arg ha => ?_, fun pos h => ?_⟩
    · have hi : i < l.names.length := by
        have := (List.getElem?_eq_some_iff.1 ha).1
        rwa [length_placed] at this
      rw [getElem?_placed hi] at ha
      cases ha
      exact hp.args i hi
    · obtain ⟨hkw, rfl⟩ := dictAt_eq_some h
      exact hp.extra hkw
  have hlen : s.args.length = l.names.length := length_placed ..
  have hd : ∀ pos, dictAt l off = some pos → off + l.names.length ≤ pos := fun pos h => by
    rw [(dictAt_eq_some h).2]
    exact le_kwAt
  have hfollow := follows_steps hd keyed hs hlen
  have hiff : (bindNames l.names l.kw.isSome s keyed).isSome = true ↔
      Accepts l.names l.kw.isSome s.args keyed := bindNames_isSome_iff l.nodup_names hlen
  rw [show s.args = placed l.names.length k vals from rfl, accepts_placed_iff hk] at hiff
  rw [dictAt_isSome] at hfollow
  rcases hb : bindNames l.names l.kw.isSome s keyed with _ | s'
  · rw [hb] at hfollow hiff
    refine ⟨fun hfit => ?_, fun _ => hfollow⟩
    have := hiff.2 hfit
    cases this
  · rw [hb] at hfollow hiff
    obtain ⟨locals', he, hr, hu⟩ := hfollow
    have hargs := bindNames_args l.nodup_names hlen hb
    refine ⟨fun _ => ⟨locals', he, ?_⟩, fun hn => absurd (hiff.1 rfl) hn⟩
    refine ⟨length_named (length_placed ..) _, fun i arg ha => ?_, fun hv => ?_, fun hkw => ?_,
      fun hblk => ?_⟩
    · refine hr.args i arg ?_
      rw [hargs]
      exact ha
    · rw [hu (varAt l off) (.inr (Nat.le_refl _))]
      · exact hp.rest hv
      · intro h
        have := (dictAt_eq_some h).2
        rw [kwAt, if_pos hv] at this
        omega
    · have hd' : dictAt l off = some (kwAt l off) := by rw [dictAt, if_pos hkw]
      rw [hr.extra _ hd', bindNames_extra hb]
      rfl
    · rw [hu (blockAt l off) (.inr (le_kwAt.trans (Nat.le_add_right _ _)))]
      · exact hp.block hblk
      · intro h
        obtain ⟨hkw, h⟩ := dictAt_eq_some h
        rw [blockAt, if_pos hkw] at h
        omega

/-- After the pass a required parameter is unbound exactly when it fits nowhere. -/
theorem unbound_iff {k : Nat} {vals : List V} {keyed : List (ID × V)} {locals : Locals V}
    {block : Option V} (hk : k ≤ vals.length)
    (hh : Holds l off locals (assignment l k vals keyed block)) :
    (∃ i < l.required.length, (locals (off + i)).isUndef = true)
      ↔ ∃ name ∈ l.required.drop k, name ∉ keyed.map Prod.fst := by
  have hreq : ∀ i < l.required.length, ∃ name, l.required[i]? = some name
      ∧ (locals (off + i)).isUndef
        = !(decide (i < k) || decide (name ∈ keyed.map Prod.fst)) := by
    intro i hi
    have hr := List.getElem?_eq_getElem hi
    have hin : i < l.names.length := by
      unfold ParamList.names
      rw [List.length_append]
      omega
    have hn : l.names[i]? = some l.required[i] := by
      unfold ParamList.names
      rw [List.getElem?_append_left hi, hr]
    have hplaced : (placed l.names.length k vals)[i]? = _ := getElem?_placed hin
    have ha : (named l.names (placed l.names.length k vals) keyed)[i]? = _ := getElem?_named hn hplaced
    refine ⟨_, hr, ?_⟩
    rw [hh.args i _ ha, Slot.isUndef_ofOption]
    by_cases hik : i < k
    · simp [hik, List.getElem?_eq_getElem (Nat.lt_of_lt_of_le hik hk)]
    · rw [if_neg hik, Option.none_or]
      simp only [hik, decide_false, Bool.false_or]
      by_cases hm : l.required[i] ∈ keyed.map Prod.fst
      · obtain ⟨q, hq, hqe⟩ := List.mem_map.1 hm
        rcases hlk : keyed.lookup l.required[i] with _ | v
        · have := List.lookup_eq_none_iff.1 hlk q hq
          simp [hqe] at this
        · simp [hm]
      · rcases hlk : keyed.lookup l.required[i] with _ | v
        · simp [hm]
        · obtain ⟨before, after, he, -⟩ := List.lookup_eq_some_iff.1 hlk
          exact absurd (List.mem_map.2 ⟨(l.required[i], v), by rw [he]; simp, rfl⟩) hm
  constructor
  · rintro ⟨i, hi, hu⟩
    obtain ⟨name, hr, he⟩ := hreq i hi
    rw [he] at hu
    simp only [Bool.not_eq_true', Bool.or_eq_false_iff, decide_eq_false_iff_not] at hu
    refine ⟨name, List.mem_iff_getElem?.2 ⟨i - k, ?_⟩, hu.2⟩
    rw [List.getElem?_drop, Nat.add_sub_cancel' (Nat.le_of_not_lt hu.1), hr]
  · rintro ⟨name, hm, hn⟩
    obtain ⟨j, hj⟩ := List.mem_iff_getElem?.1 hm
    rw [List.getElem?_drop] at hj
    have hi := (List.getElem?_eq_some_iff.1 hj).1
    obtain ⟨name', hr, he⟩ := hreq (k + j) hi
    cases Option.some.inj (hr.symm.trans hj)
    refine ⟨k + j, hi, ?_⟩
    rw [he]
    simp [hn]

end Yog
