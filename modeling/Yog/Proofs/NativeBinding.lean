import Yog.Lib.Emission
import Yog.Proofs.NativeArgs

/-!
# Keyword and block arguments of C functions

For a C function with any formals the binder accepts a call exactly when `Accepts` holds, which is
said of the call and the formals only. What is then in the array of the arguments is the invariant
`Received` of the pass over the keyword arguments: where each argument is, and that nothing else is
anywhere. The pass goes in steps of two pairs over a number of pairs, so a keyword argument from the
second half on is nowhere.
-/

namespace Yog

open Binding

variable {V : Type}

/-- The name of a formal that is not `|`. -/
def NativeFunction2.nameAt (f : NativeFunction2) (i : Nat) : Option Formal :=
  f.args[i]?.map NativeArg.name

/-- What `YogNativeFunction2_new` ensures. -/
structure NativeFunction2.Formed (f : NativeFunction2) : Prop where
  posargs_le : f.posargsNum ≤ f.args.length
  posargs_lt : ∀ arg ∈ f.args, arg.name = .amp → f.posargsNum < f.args.length
  vararg : ∀ pos, f.varargPos = some pos → f.nameAt pos = some .star
  varkwarg : ∀ pos, f.varkwargPos = some pos → f.nameAt pos = some .star2

def Formal.isName (f : Formal) : Bool := f ≠ .bar && f ≠ .star && f ≠ .star2 && f ≠ .amp

theorem countP_initArgs : ∀ (formals : List Formal) (optional : Bool),
    (initArgs optional formals).countP (fun arg => arg.name.isName)
      = formals.countP Formal.isName
  | [], _ => rfl
  | f :: formals, optional => by
    have ih := countP_initArgs formals
    cases f with
    | bar => simpa [initArgs, Formal.isName] using ih true
    | _ => simp [initArgs, List.countP_cons, ih]

theorem nameAt_of_findSpecialArg {args : List NativeArg} {name : Formal} {pos : Nat}
    (h : findSpecialArg args name = some pos) : args[pos]?.map NativeArg.name = some name := by
  obtain ⟨hlt, hp, -⟩ := List.findIdx?_eq_some_iff_getElem.1 h
  rw [List.getElem?_eq_getElem hlt]
  simpa using hp

theorem nativeFunction2New_formed (formals : List Formal) :
    (nativeFunction2New formals).Formed := by
  have hcount : (nativeFunction2New formals).posargsNum
      = (initArgs false formals).countP fun arg => arg.name.isName :=
    (countP_initArgs formals false).symm
  refine ⟨?_, ?_, fun pos h => nameAt_of_findSpecialArg h, fun pos h => nameAt_of_findSpecialArg h⟩
  · rw [hcount]
    exact List.countP_le_length
  · intro arg ha hamp
    rw [hcount]
    refine Nat.lt_of_le_of_ne List.countP_le_length fun he => ?_
    have hname := List.countP_eq_length.1 he arg ha
    rw [hamp] at hname
    cases hname

section Formed

variable {f : NativeFunction2}

theorem NativeFunction2.lt_of_nameAt {i : Nat} {name : Formal} (h : f.nameAt i = some name) :
    i < f.args.length := by
  obtain ⟨arg, ha, -⟩ := Option.map_eq_some_iff.1 h
  exact (List.getElem?_eq_some_iff.1 ha).1

theorem findKeyword_eq_some {name : ID} {i : Nat} (h : findKeyword f name = some i) :
    i < f.posargsNum ∧ f.nameAt i = some (.name name) := by
  obtain ⟨hlt, hp, -⟩ := List.findIdx?_eq_some_iff_getElem.1 h
  rw [List.length_take, Nat.lt_min] at hlt
  rw [List.getElem_take] at hp
  refine ⟨hlt.1, ?_⟩
  unfold NativeFunction2.nameAt
  rw [List.getElem?_eq_getElem hlt.2]
  simpa using hp

theorem exists_findKeyword {name : ID} {i : Nat} (hi : i < f.posargsNum)
    (h : f.nameAt i = some (.name name)) : ∃ j ≤ i, findKeyword f name = some j := by
  obtain ⟨arg, ha, hname⟩ := Option.map_eq_some_iff.1 h
  have ht : (f.args.take f.posargsNum)[i]? = some arg := by
    rw [List.getElem?_take, if_pos hi, ha]
  rcases hk : findKeyword f name with _ | j
  · have := List.findIdx?_eq_none_iff.1 hk arg (List.mem_of_getElem? ht)
    simp [hname] at this
  · obtain ⟨hlt, -, hmin⟩ := List.findIdx?_eq_some_iff_getElem.1 hk
    refine ⟨j, ?_, rfl⟩
    by_contra hij
    obtain ⟨hi', he⟩ := List.getElem?_eq_some_iff.1 ht
    refine hmin i (by omega) ?_
    rw [he]
    simpa using hname

theorem varargPos_ne (hf : f.Formed) {name : ID} {i : Nat}
    (h : findKeyword f name = some i) : f.varargPos ≠ some i := by
  intro he
  have := hf.vararg i he
  rw [(findKeyword_eq_some h).2] at this
  cases this

theorem varkwargPos_ne (hf : f.Formed) {name : ID} {i : Nat}
    (h : findKeyword f name = some i) : f.varkwargPos ≠ some i := by
  intro he
  have := hf.varkwarg i he
  rw [(findKeyword_eq_some h).2] at this
  cases this

end Formed

/-- The places after the arguments `vals` are set by position. -/
structure Filled (f : NativeFunction2) (vals : List V) (locals : Locals V) : Prop where
  undef : ∀ i < f.posargsNum,
    (locals i).isUndef = true ↔ vals.length ≤ i ∧ f.varargPos ≠ some i
  origin : ∀ i v, locals i = .val v → v ∈ vals
  outside : ∀ i, f.args.length ≤ i → locals i = .undef

section Positional

variable {f : NativeFunction2}

theorem newArgs_some {pos : Nat} (hv : f.varargPos = some pos) :
    newArgs f = Locals.store (fun _ => .undef : Locals V) pos (.array []) := by
  unfold newArgs
  rw [hv]

theorem newArgs_none (hv : f.varargPos = none) : newArgs f = (fun _ => .undef : Locals V) := by
  unfold newArgs
  rw [hv]

theorem filled_newArgs (hf : f.Formed) : Filled f ([] : List V) (newArgs f) := by
  rcases hv : f.varargPos with _ | pos
  · rw [newArgs_none hv]
    refine ⟨?_, by nofun, fun i _ => rfl⟩
    intro i hi
    simp [Slot.isUndef, hv]
  · rw [newArgs_some hv]
    have hlt := NativeFunction2.lt_of_nameAt (hf.vararg pos hv)
    refine ⟨fun i hi => ?_, fun i v h => ?_, fun i hi => ?_⟩
    · by_cases he : i = pos
      · subst he
        simp [Slot.isUndef, hv]
      · simp [Locals.store_of_ne he, Slot.isUndef, hv, Ne.symm he]
    · by_cases he : i = pos
      · subst he
        simp at h
      · rw [Locals.store_of_ne he] at h
        cases h
    · exact Locals.store_of_ne (by omega)

/-- Pushing to the array of the `*` parameter does not change which places are filled. -/
theorem Locals.pushArray_cases (locals : Locals V) (pos : Nat) (v : V) :
    locals.pushArray pos v = locals
      ∨ ∃ elems elems', locals pos = .array elems
        ∧ locals.pushArray pos v = locals.store pos (.array elems') := by
  unfold Locals.pushArray
  rcases h : locals pos with _ | w | elems | d
  · exact .inl rfl
  · exact .inl rfl
  · exact .inr ⟨elems, elems ++ [v], rfl, rfl⟩
  · exact .inl rfl

theorem setPosarg_filled (hf : f.Formed) {done : List V} {locals locals' : Locals V}
    {error : ArgError} {v : V} (hp : Filled f done locals)
    (h : setPosarg f error locals done.length v = .ok locals') :
    Filled f (done ++ [v]) locals' := by
  have hlen : (done ++ [v]).length = done.length + 1 := by simp
  unfold setPosarg at h
  by_cases hi : done.length < f.posargsNum
  · rw [if_pos hi] at h
    cases h
    refine ⟨fun i hin => ?_, fun i w hw => ?_, fun i hi' => ?_⟩
    · by_cases he : i = done.length
      · subst he
        simp [Slot.isUndef]
      · rw [Locals.store_of_ne he, hp.undef i hin, hlen]
        exact and_congr_left fun _ => by omega
    · by_cases he : i = done.length
      · subst he
        rw [Locals.store_self] at hw
        cases hw
        simp
      · rw [Locals.store_of_ne he] at hw
        exact List.mem_append_left _ (hp.origin i w hw)
    · have := hf.posargs_le
      rw [Locals.store_of_ne (by omega)]
      exact hp.outside i hi'
  · rw [if_neg hi] at h
    rcases hv : f.varargPos with _ | pos
    · rw [hv] at h
      cases h
    · rw [hv] at h
      cases h
      have hfull : ∀ i < f.posargsNum, ((done ++ [v]).length ≤ i ∧ f.varargPos ≠ some i
          ↔ done.length ≤ i ∧ f.varargPos ≠ some i) := fun i hin =>
        and_congr_left fun _ => by omega
      rcases locals.pushArray_cases pos v with he | ⟨elems, elems', ha, he⟩
      · rw [he]
        exact ⟨fun i hin => (hp.undef i hin).trans (hfull i hin).symm,
          fun i w hw => List.mem_append_left _ (hp.origin i w hw), hp.outside⟩
      · rw [he]
        refine ⟨fun i hin => ?_, fun i w hw => ?_, fun i hi' => ?_⟩
        · rw [hfull i hin, ← hp.undef i hin]
          by_cases hip : i = pos
          · subst hip
            simp [Slot.isUndef, ha]
          · rw [Locals.store_of_ne hip]
        · by_cases hip : i = pos
          · subst hip
            rw [Locals.store_self] at hw
            cases hw
          · rw [Locals.store_of_ne hip] at hw
            exact List.mem_append_left _ (hp.origin i w hw)
        · have := NativeFunction2.lt_of_nameAt (hf.vararg pos hv)
          rw [Locals.store_of_ne (by omega)]
          exact hp.outside i hi'

theorem setPosargs_filled (hf : f.Formed) {error : ArgError} : ∀ (vs : List V) {done : List V}
    {locals locals' : Locals V}, Filled f done locals →
    setPosargs f error locals done.length vs = .ok locals' → Filled f (done ++ vs) locals'
  | [], done, locals, locals', hp, h => by
    cases h
    rwa [List.append_nil]
  | v :: vs, done, locals, locals', hp, h => by
    obtain ⟨locals₁, h₁, h₂⟩ := Except.bind_eq_ok_iff.1 h
    rw [show done.length + 1 = (done ++ [v]).length by simp] at h₂
    have := setPosargs_filled hf vs (setPosarg_filled hf hp h₁) h₂
    rwa [List.append_assoc] at this

theorem exists_setPosarg_iff {error : ArgError} {locals : Locals V} {index : Nat} {v : V} :
    (∃ locals', setPosarg f error locals index v = .ok locals')
      ↔ index < f.posargsNum ∨ f.varargPos.isSome = true := by
  unfold setPosarg
  by_cases hi : index < f.posargsNum
  · simp [hi]
  · rcases f.varargPos with _ | pos <;> simp [hi]

theorem exists_setPosargs_iff {error : ArgError} : ∀ (vs : List V) (locals : Locals V)
    (index : Nat), (∃ locals', setPosargs f error locals index vs = .ok locals')
      ↔ vs = [] ∨ index + vs.length ≤ f.posargsNum ∨ f.varargPos.isSome = true
  | [], locals, index => by simp [setPosargs]
  | v :: vs, locals, index => by
    have hstep : (∃ locals', setPosarg f error locals index v = .ok locals')
      ↔ index < f.posargsNum ∨ f.varargPos.isSome = true := exists_setPosarg_iff
    simp only [List.cons_ne_nil, false_or, List.length_cons]
    constructor
    · rintro ⟨locals', h⟩
      obtain ⟨locals₁, h₁, h₂⟩ := Except.bind_eq_ok_iff.1 h
      rcases hstep.1 ⟨_, h₁⟩ with hlt | hv
      · rcases (exists_setPosargs_iff vs locals₁ (index + 1)).1 ⟨_, h₂⟩ with rfl | hle | hv
        · exact .inl hlt
        · exact .inl (by omega)
        · exact .inr hv
      · exact .inr hv
    · intro h
      obtain ⟨locals₁, h₁⟩ := hstep.2 (h.imp (by omega) id)
      obtain ⟨locals', h₂⟩ := (exists_setPosargs_iff vs locals₁ (index + 1)).2
        (.inr (h.imp (by omega) id))
      exact ⟨locals', Except.bind_eq_ok_iff.2 ⟨locals₁, h₁, h₂⟩⟩

/-- The arguments set by position, those of the `*` array included. -/
theorem filled_of_setVararg (hf : f.Formed) {error : ArgError} {call : Call V}
    {locals₁ locals₂ : Locals V}
    (h₁ : setPosargs f error (newArgs f) 0 call.posargs = .ok locals₁)
    (h₂ : setVararg f call locals₁ = .ok locals₂) :
    (∀ v, call.vararg = some v → v = .array v.elems) ∧ Filled f call.combined locals₂ := by
  have hp : Filled f ([] ++ call.posargs) locals₁ := setPosargs_filled hf _ (filled_newArgs hf) h₁
  unfold setVararg at h₂
  unfold Call.combined
  rcases hv : call.vararg with _ | (elems | _)
  · rw [hv] at h₂
    cases h₂
    exact ⟨by nofun, by simpa using hp⟩
  · rw [hv] at h₂
    refine ⟨fun v he => by cases he; rfl, ?_⟩
    exact setPosargs_filled hf elems hp h₂
  · rw [hv] at h₂
    cases h₂

theorem exists_setVararg_iff {error : ArgError} (call : Call V) (locals : Locals V) :
    (∃ locals₁ locals₂, setPosargs f error locals 0 call.posargs = .ok locals₁
        ∧ setVararg f call locals₁ = .ok locals₂)
      ↔ (∀ v, call.vararg = some v → v = .array v.elems)
        ∧ (call.combined.length ≤ f.posargsNum ∨ f.varargPos.isSome = true) := by
  have hpos : (∃ locals₁, setPosargs f error locals 0 call.posargs = .ok locals₁)
      ↔ call.posargs.length ≤ f.posargsNum ∨ f.varargPos.isSome = true := by
    rw [exists_setPosargs_iff, Nat.zero_add, or_iff_right_iff_imp]
    intro he
    exact .inl (by simp [he])
  unfold setVararg Call.combined
  rcases hv : call.vararg with _ | (elems | _)
  · simpa using hpos
  · have hlen : (call.posargs ++ elems).length = call.posargs.length + elems.length :=
      List.length_append
    simp only [Option.map_some, Option.getD_some, Vararg.elems, hlen]
    constructor
    · rintro ⟨locals₁, locals₂, h₁, h₂⟩
      refine ⟨fun v he => by cases he; rfl, ?_⟩
      rcases (exists_setPosargs_iff elems locals₁ _).1 ⟨_, h₂⟩ with rfl | h
      · exact hpos.1 ⟨_, h₁⟩
      · exact h
    · rintro ⟨-, h⟩
      obtain ⟨locals₁, h₁⟩ := hpos.2 (h.imp (by omega) id)
      obtain ⟨locals₂, h₂⟩ := (exists_setPosargs_iff elems locals₁ call.posargs.length).2 (.inr h)
      exact ⟨locals₁, locals₂, h₁, h₂⟩
  · simp

end Positional

/-- The keyword arguments that go to the dictionary of the `**` parameter. -/
def unnamed (f : NativeFunction2) (ps : List (ID × V)) : List (ID × V) :=
  ps.filter fun p => (findKeyword f p.1).isNone

/-- The places after `vals` are set by position and `done` by keyword. -/
structure Received (f : NativeFunction2) (vals : List V) (done : List (ID × V))
    (locals : Locals V) : Prop where
  undef : ∀ i < f.posargsNum, (locals i).isUndef = true
    ↔ (vals.length ≤ i ∧ f.varargPos ≠ some i) ∧ f.varkwargPos ≠ some i
      ∧ ∀ p ∈ done, findKeyword f p.1 ≠ some i
  origin : ∀ i v, locals i = .val v →
    v ∈ vals ∨ ∃ p ∈ done, findKeyword f p.1 = some i ∧ p.2 = v
  outside : ∀ i, f.args.length ≤ i → locals i = .undef
  kept : ∀ p ∈ done, ∀ i, findKeyword f p.1 = some i → locals i = .val p.2
  dict : ∀ pos, f.varkwargPos = some pos → locals pos = .dict (insertAll ∅ (unnamed f done))

section Keywords

variable {f : NativeFunction2} {vals : List V}

theorem newVarkwarg_some {pos : Nat} (hv : f.varkwargPos = some pos) (locals : Locals V) :
    newVarkwarg f locals = locals.store pos (.dict ∅) := by
  unfold newVarkwarg
  rw [hv]

theorem newVarkwarg_none (hv : f.varkwargPos = none) (locals : Locals V) :
    newVarkwarg f locals = locals := by
  unfold newVarkwarg
  rw [hv]

theorem received_newVarkwarg (hf : f.Formed) {locals : Locals V} (hp : Filled f vals locals) :
    Received f vals [] (newVarkwarg f locals) := by
  rcases hv : f.varkwargPos with _ | pos
  · rw [newVarkwarg_none hv]
    refine ⟨fun i hi => ?_, fun i v h => .inl (hp.origin i v h), hp.outside, by nofun, by simp [hv]⟩
    rw [hp.undef i hi]
    simp [hv]
  · rw [newVarkwarg_some hv]
    refine ⟨fun i hi => ?_, fun i v h => ?_, fun i hi => ?_, by nofun, fun pos' h => ?_⟩
    · by_cases he : i = pos
      · subst he
        simp [Slot.isUndef, hv]
      · rw [Locals.store_of_ne he, hp.undef i hi]
        simp [hv, Ne.symm he]
    · by_cases he : i = pos
      · subst he
        rw [Locals.store_self] at h
        cases h
      · rw [Locals.store_of_ne he] at h
        exact .inl (hp.origin i v h)
    · have := NativeFunction2.lt_of_nameAt (hf.varkwarg pos hv)
      rw [Locals.store_of_ne (by omega)]
      exact hp.outside i hi
    · cases hv.symm.trans h
      exact Locals.store_self ..

theorem setKeywordArg_some {locals locals' : Locals V} {name : ID} {v : V} {i : Nat}
    (hk : findKeyword f name = some i) : setKeywordArg f locals name v = .ok locals'
      ↔ (locals i).isUndef = true ∧ locals' = locals.store i (.val v) := by
  unfold setKeywordArg
  rw [hk]
  by_cases h : (locals i).isUndef = true
  · simp [h, eq_comm]
  · simp [h]

theorem setKeywordArg_none {locals locals' : Locals V} {name : ID} {v : V}
    (hk : findKeyword f name = none) : setKeywordArg f locals name v = .ok locals'
      ↔ ∃ pos, f.varkwargPos = some pos ∧ locals' = locals.setDict pos name v := by
  unfold setKeywordArg
  rw [hk]
  rcases f.varkwargPos with _ | pos
  · simp
  · simp [eq_comm]

theorem unnamed_append (ps qs : List (ID × V)) :
    unnamed f (ps ++ qs) = unnamed f ps ++ unnamed f qs := List.filter_append ..

theorem insertAll_append (d : Dict ID V) (ps qs : List (ID × V)) :
    insertAll d (ps ++ qs) = insertAll (insertAll d ps) qs := List.foldl_append ..

theorem forall_append_singleton {done : List (ID × V)} {p : ID × V} {j : Nat} :
    (∀ q ∈ done ++ [p], findKeyword f q.1 ≠ some j)
      ↔ (∀ q ∈ done, findKeyword f q.1 ≠ some j) ∧ findKeyword f p.1 ≠ some j := by
  rw [List.forall_mem_append, List.forall_mem_singleton]

/-- A keyword argument for a parameter. -/
theorem received_store (hf : f.Formed) {done : List (ID × V)} {locals : Locals V} {p : ID × V}
    {i : Nat} (hk : findKeyword f p.1 = some i) (ht : Received f vals done locals)
    (hu : (locals i).isUndef = true) :
    Received f vals (done ++ [p]) (locals.store i (.val p.2)) := by
  have hi := (findKeyword_eq_some hk).1
  obtain ⟨-, -, hfree⟩ := (ht.undef i hi).1 hu
  have hun : unnamed f (done ++ [p]) = unnamed f done := by
    rw [unnamed_append]
    simp [unnamed, hk]
  refine ⟨fun j hj => ?_, fun j v h => ?_, fun j hj => ?_, fun q hq j hqj => ?_,
    fun pos hpos => ?_⟩
  · by_cases he : j = i
    · subst he
      rw [Locals.store_self, forall_append_singleton]
      simp [Slot.isUndef, hk]
    · rw [Locals.store_of_ne he, ht.undef j hj, forall_append_singleton, hk,
        and_iff_left (fun h => he (Option.some.inj h).symm)]
  · by_cases he : j = i
    · subst he
      rw [Locals.store_self] at h
      cases h
      exact .inr ⟨p, by simp, hk, rfl⟩
    · rw [Locals.store_of_ne he] at h
      refine (ht.origin j v h).imp id ?_
      rintro ⟨q, hq, hqj, rfl⟩
      exact ⟨q, List.mem_append_left _ hq, hqj, rfl⟩
  · have := hf.posargs_le
    rw [Locals.store_of_ne (by omega)]
    exact ht.outside j hj
  · rcases List.mem_append.1 hq with hq | hq
    · have hne : j ≠ i := by
        rintro rfl
        exact hfree q hq hqj
      rw [Locals.store_of_ne hne]
      exact ht.kept q hq j hqj
    · obtain rfl := List.mem_singleton.1 hq
      cases hk.symm.trans hqj
      exact Locals.store_self ..
  · have hne : pos ≠ i := by
      rintro rfl
      exact varkwargPos_ne hf hk hpos
    rw [Locals.store_of_ne hne, hun]
    exact ht.dict pos hpos

/-- A keyword argument for the dictionary. -/
theorem received_setDict (hf : f.Formed) {done : List (ID × V)} {locals : Locals V} {p : ID × V}
    {pos : Nat} (hk : findKeyword f p.1 = none) (hpos : f.varkwargPos = some pos)
    (ht : Received f vals done locals) :
    Received f vals (done ++ [p]) (locals.setDict pos p.1 p.2) := by
  have hset : locals.setDict pos p.1 p.2
      = locals.store pos (.dict (insertAll ∅ (unnamed f (done ++ [p])))) := by
    unfold Locals.setDict
    have hun : unnamed f (done ++ [p]) = unnamed f done ++ [p] := by
      rw [unnamed_append]
      simp [unnamed, hk]
    rw [ht.dict pos hpos, hun, insertAll_append]
    rfl
  rw [hset]
  refine ⟨fun j hj => ?_, fun j v h => ?_, fun j hj => ?_, fun q hq j hqj => ?_, fun pos' h => ?_⟩
  · by_cases he : j = pos
    · subst he
      simp [Slot.isUndef, hpos]
    · rw [Locals.store_of_ne he, ht.undef j hj, forall_append_singleton, hk,
        and_iff_left (show (none : Option Nat) ≠ some j by simp)]
  · by_cases he : j = pos
    · subst he
      rw [Locals.store_self] at h
      cases h
    · rw [Locals.store_of_ne he] at h
      refine (ht.origin j v h).imp id ?_
      rintro ⟨q, hq, hqj, rfl⟩
      exact ⟨q, List.mem_append_left _ hq, hqj, rfl⟩
  · have := NativeFunction2.lt_of_nameAt (hf.varkwarg pos hpos)
    rw [Locals.store_of_ne (by omega)]
    exact ht.outside j hj
  · have hne : j ≠ pos := by
      rintro rfl
      exact varkwargPos_ne hf hqj hpos
    rw [Locals.store_of_ne hne]
    rcases List.mem_append.1 hq with hq | hq
    · exact ht.kept q hq j hqj
    · obtain rfl := List.mem_singleton.1 hq
      cases hk.symm.trans hqj
  · cases hpos.symm.trans h
    exact Locals.store_self ..

theorem setKeywordArg_received (hf : f.Formed) {done : List (ID × V)} {locals locals' : Locals V}
    {p : ID × V} (ht : Received f vals done locals)
    (h : setKeywordArg f locals p.1 p.2 = .ok locals') :
    Received f vals (done ++ [p]) locals' := by
  rcases hk : findKeyword f p.1 with _ | i
  · obtain ⟨pos, hpos, rfl⟩ := (setKeywordArg_none hk).1 h
    exact received_setDict hf hk hpos ht
  · obtain ⟨hu, rfl⟩ := (setKeywordArg_some hk).1 h
    exact received_store hf hk ht hu

theorem setKeywordArgs_received (hf : f.Formed) : ∀ (ps : List (ID × V)) {done : List (ID × V)}
    {locals locals' : Locals V}, Received f vals done locals →
    setKeywordArgs f locals ps = .ok locals' → Received f vals (done ++ ps) locals'
  | [], done, locals, locals', ht, h => by
    cases h
    rwa [List.append_nil]
  | p :: ps, done, locals, locals', ht, h => by
    obtain ⟨locals₁, h₁, h₂⟩ := Except.bind_eq_ok_iff.1 h
    have := setKeywordArgs_received hf ps (setKeywordArg_received hf ht h₁) h₂
    rwa [List.append_assoc] at this

/-- Every name is of a parameter or collected, no name is of a parameter set by position, and no
parameter is named twice. -/
structure NamesFit (f : NativeFunction2) (filled : Nat) (ps : List (ID × V)) : Prop where
  known : ∀ p ∈ ps, findKeyword f p.1 = none → f.varkwargPos.isSome = true
  free : ∀ p ∈ ps, ∀ i, findKeyword f p.1 = some i → filled ≤ i
  once : ps.Pairwise fun p q => ∀ i, findKeyword f p.1 = some i → findKeyword f q.1 ≠ some i

theorem namesFit_append_singleton {filled : Nat} {ps : List (ID × V)} {p : ID × V} :
    NamesFit f filled (ps ++ [p]) ↔ NamesFit f filled ps
      ∧ (findKeyword f p.1 = none → f.varkwargPos.isSome = true)
      ∧ ∀ i, findKeyword f p.1 = some i → filled ≤ i ∧ ∀ q ∈ ps, findKeyword f q.1 ≠ some i := by
  constructor
  · rintro ⟨hk, hf, ho⟩
    rw [List.forall_mem_append] at hk hf
    rw [List.pairwise_append] at ho
    refine ⟨⟨hk.1, hf.1, ho.1⟩, hk.2 p (by simp), fun i hi => ⟨hf.2 p (by simp) i hi, ?_⟩⟩
    intro q hq hqi
    exact ho.2.2 q hq p (by simp) i hqi hi
  · rintro ⟨⟨hk, hf, ho⟩, hk', hf'⟩
    refine ⟨List.forall_mem_append.2 ⟨hk, by simpa using hk'⟩,
      List.forall_mem_append.2 ⟨hf, by simpa using fun i hi => (hf' i hi).1⟩,
      List.pairwise_append.2 ⟨ho, List.pairwise_singleton _ _, ?_⟩⟩
    intro q hq p' hp' i hqi hpi
    obtain rfl := List.mem_singleton.1 hp'
    exact (hf' i hpi).2 q hq hqi

theorem exists_setKeywordArg_iff (hf : f.Formed) {done : List (ID × V)} {locals : Locals V}
    (ht : Received f vals done locals) (p : ID × V) :
    (∃ locals', setKeywordArg f locals p.1 p.2 = .ok locals')
      ↔ (findKeyword f p.1 = none → f.varkwargPos.isSome = true)
        ∧ ∀ i, findKeyword f p.1 = some i →
          vals.length ≤ i ∧ ∀ q ∈ done, findKeyword f q.1 ≠ some i := by
  rcases hk : findKeyword f p.1 with _ | i
  · simp only [setKeywordArg_none hk, Option.isSome_iff_exists]
    simp
  · have hu := ht.undef i (findKeyword_eq_some hk).1
    have hva := varargPos_ne hf hk
    have hvk := varkwargPos_ne hf hk
    rw [and_iff_left hva, and_iff_right hvk] at hu
    simp only [setKeywordArg_some hk, exists_and_left, exists_eq, and_true, hu]
    refine ⟨fun h => ⟨by nofun, fun j hj => ?_⟩, fun h => h.2 i rfl⟩
    cases hj
    exact h

theorem exists_setKeywordArgs_iff (hf : f.Formed) : ∀ (ps : List (ID × V)) {done : List (ID × V)}
    {locals : Locals V}, Received f vals done locals → NamesFit f vals.length done →
    ((∃ locals', setKeywordArgs f locals ps = .ok locals')
      ↔ NamesFit f vals.length (done ++ ps))
  | [], done, locals, ht, hn => by simpa [setKeywordArgs] using hn
  | p :: ps, done, locals, ht, hn => by
    have hstep := exists_setKeywordArg_iff hf ht p
    have happ : done ++ p :: ps = (done ++ [p]) ++ ps := by simp
    rw [happ]
    constructor
    · rintro ⟨locals', h⟩
      obtain ⟨locals₁, h₁, h₂⟩ := Except.bind_eq_ok_iff.1 h
      have hn' := namesFit_append_singleton.2 ⟨hn, hstep.1 ⟨_, h₁⟩⟩
      exact (exists_setKeywordArgs_iff hf ps (setKeywordArg_received hf ht h₁) hn').1 ⟨_, h₂⟩
    · intro h
      have hn' : NamesFit f vals.length (done ++ [p]) :=
        ⟨fun q hq => h.known q (List.mem_append_left _ hq),
          fun q hq => h.free q (List.mem_append_left _ hq), (List.pairwise_append.1 h.once).1⟩
      obtain ⟨locals₁, h₁⟩ := hstep.2 (namesFit_append_singleton.1 hn').2
      obtain ⟨locals', h₂⟩ :=
        (exists_setKeywordArgs_iff hf ps (setKeywordArg_received hf ht h₁) hn').2 h
      exact ⟨locals', Except.bind_eq_ok_iff.2 ⟨locals₁, h₁, h₂⟩⟩

theorem setKeywordArgs_append (qs : List (ID × V)) : ∀ (ps : List (ID × V)) (locals : Locals V),
    setKeywordArgs f locals (ps ++ qs)
      = (setKeywordArgs f locals ps).bind fun locals => setKeywordArgs f locals qs
  | [], locals => rfl
  | p :: ps, locals => by
    rw [List.cons_append, setKeywordArgs, setKeywordArgs]
    rcases setKeywordArg f locals p.1 p.2 with e | locals₁
    · rfl
    · exact setKeywordArgs_append qs ps locals₁

theorem setVarkwarg_eq_ok {call : Call V} {locals locals' : Locals V} :
    (setKeywordArgs f locals (readKwargs call.kwargs)).bind (setVarkwarg f call) = .ok locals'
      ↔ (∀ v, call.varkwarg = some v → v = .dict v.entries)
        ∧ setKeywordArgs f locals call.nativeKeyed = .ok locals' := by
  have hsplit : setKeywordArgs f locals call.nativeKeyed
      = (setKeywordArgs f locals (readKwargs call.kwargs)).bind
        fun locals => setKeywordArgs f locals (Call.ofEntries call.entries) :=
    setKeywordArgs_append _ _ _
  rw [hsplit]
  rcases setKeywordArgs f locals (readKwargs call.kwargs) with e | locals₁
  · simp [Except.bind]
  · show setVarkwarg f call locals₁ = _ ↔ _ ∧ setKeywordArgs f locals₁ _ = _
    unfold setVarkwarg Call.entries
    rcases hv : call.varkwarg with _ | (entries | _)
    · simp [Call.ofEntries, setKeywordArgs]
    · simp [Varkwarg.entries, Call.ofEntries]
    · simp

end Keywords

/-- What the binder asks of a call. -/
structure NativeAccepts (f : NativeFunction2) (call : Call V) : Prop where
  vararg : ∀ v, call.vararg = some v → v = .array v.elems
  varkwarg : ∀ v, call.varkwarg = some v → v = .dict v.entries
  place : call.combined.length ≤ f.posargsNum ∨ f.varargPos.isSome = true
  names : NamesFit f call.combined.length call.nativeKeyed
  block : call.blockarg.isSome = true → f.nameAt (f.args.length - 1) = some .amp
  given : ∀ i < f.posargsNum, ∀ arg, f.args[i]? = some arg → arg.optional = false →
    i < call.combined.length ∨ f.varargPos = some i ∨ f.varkwargPos = some i
      ∨ ∃ p ∈ call.nativeKeyed, findKeyword f p.1 = some i
  count : f.args.length ≤ 8

/-- What is in the array of the arguments when the C function is called. -/
structure NativeBound (f : NativeFunction2) (call : Call V) (locals : Locals V) : Prop where
  origin : ∀ i v, locals i = .val v → v ∈ call.combined
    ∨ (∃ p ∈ call.nativeKeyed, findKeyword f p.1 = some i ∧ p.2 = v) ∨ call.blockarg = some v
  outside : ∀ i, f.args.length ≤ i → locals i = .undef
  kept : ∀ p ∈ call.nativeKeyed, ∀ i, findKeyword f p.1 = some i → locals i = .val p.2
  dict : ∀ pos, f.varkwargPos = some pos →
    locals pos = .dict (insertAll ∅ (unnamed f call.nativeKeyed))
  block : ∀ b, call.blockarg = some b → f.nameAt (f.args.length - 1) = some .amp
    ∧ locals (f.args.length - 1) = .val b

section Binder

variable {f : NativeFunction2} {call : Call V}

theorem setBlockarg_eq_ok {locals locals' : Locals V} : setBlockarg f call locals = .ok locals'
    ↔ (call.blockarg = none ∧ locals' = locals)
      ∨ ∃ b, call.blockarg = some b ∧ f.nameAt (f.args.length - 1) = some .amp
        ∧ locals' = locals.store (f.args.length - 1) (.val b) := by
  unfold setBlockarg NativeFunction2.nameAt
  rcases call.blockarg with _ | b
  · simp [eq_comm]
  · rw [List.getLast?_eq_getElem?]
    by_cases h : f.args[f.args.length - 1]?.map NativeArg.name = some .amp
    · simp [h, eq_comm]
    · simp [h]

theorem posargsNum_lt (hf : f.Formed) (h : f.nameAt (f.args.length - 1) = some .amp) :
    f.posargsNum < f.args.length := by
  obtain ⟨arg, ha, hname⟩ := Option.map_eq_some_iff.1 h
  exact hf.posargs_lt arg (List.mem_of_getElem? ha) hname

theorem bound_of_setBlockarg (hf : f.Formed) {locals locals' : Locals V}
    (ht : Received f call.combined call.nativeKeyed locals)
    (h : setBlockarg f call locals = .ok locals') :
    NativeBound f call locals' ∧ ∀ i < f.posargsNum, locals' i = locals i := by
  rcases setBlockarg_eq_ok.1 h with ⟨hb, rfl⟩ | ⟨b, hb, hamp, rfl⟩
  · refine ⟨⟨fun i v hv => ?_, ht.outside, ht.kept, ht.dict, by simp [hb]⟩, fun i _ => rfl⟩
    exact (ht.origin i v hv).imp id .inl
  · have hlt := posargsNum_lt hf hamp
    have hpos : ∀ i < f.posargsNum,
        locals.store (f.args.length - 1) (.val b) i = locals i := fun i hi =>
      Locals.store_of_ne (by omega)
    refine ⟨⟨fun i v hv => ?_, fun i hi => ?_, fun p hp i hk => ?_, fun pos hv => ?_,
      fun b' hb' => ⟨hamp, ?_⟩⟩, hpos⟩
    · by_cases he : i = f.args.length - 1
      · subst he
        rw [Locals.store_self] at hv
        cases hv
        exact .inr (.inr hb)
      · rw [Locals.store_of_ne he] at hv
        exact (ht.origin i v hv).imp id .inl
    · rw [Locals.store_of_ne (by omega)]
      exact ht.outside i hi
    · rw [hpos i (findKeyword_eq_some hk).1]
      exact ht.kept p hp i hk
    · have hne : pos ≠ f.args.length - 1 := by
        rintro rfl
        cases hamp.symm.trans (hf.varkwarg _ hv)
      rw [Locals.store_of_ne hne]
      exact ht.dict pos hv
    · cases hb.symm.trans hb'
      exact Locals.store_self ..

theorem checkGiven_eq_ok {locals locals' : Locals V} : checkGiven f call locals = .ok locals'
    ↔ (∀ i < f.posargsNum, ∀ arg, f.args[i]? = some arg → arg.optional = false →
        ¬ (locals i).isUndef = true) ∧ locals' = locals := by
  have hany : ((f.args.take f.posargsNum).zipIdx.any
        fun p => !p.1.optional && (locals p.2).isUndef) = true
      ↔ ¬ ∀ i < f.posargsNum, ∀ arg, f.args[i]? = some arg → arg.optional = false →
        ¬ (locals i).isUndef = true := by
    rw [List.any_eq_true]
    push Not
    constructor
    · rintro ⟨⟨arg, i⟩, hm, h⟩
      have hi : (f.args.take f.posargsNum)[i]? = some arg := List.mem_zipIdx_iff_getElem?.1 hm
      rw [List.getElem?_take] at hi
      by_cases hlt : i < f.posargsNum
      · rw [if_pos hlt] at hi
        simp only [Bool.and_eq_true, Bool.not_eq_true'] at h
        exact ⟨i, hlt, arg, hi, h.1, h.2⟩
      · rw [if_neg hlt] at hi
        cases hi
    · rintro ⟨i, hi, arg, ha, ho, hu⟩
      refine ⟨(arg, i), List.mem_zipIdx_iff_getElem?.2 ?_, by simp [ho, hu]⟩
      rw [List.getElem?_take, if_pos hi]
      exact ha
  unfold checkGiven
  by_cases h : ∀ i < f.posargsNum, ∀ arg, f.args[i]? = some arg → arg.optional = false →
      ¬ (locals i).isUndef = true
  · rw [if_neg (fun h' => hany.1 h' h), and_iff_right h, Except.ok.injEq, eq_comm]
  · rw [if_pos (hany.2 h)]
    exact iff_of_false (by simp) fun h' => h h'.1

theorem callNative_eq_ok {locals : Locals V} : callNative f call = .ok locals
    ↔ ∃ locals₁ locals₂ locals₃, (setPosargs f (.wrongNumArgs f.posargsNum call.posargs.length)
          (newArgs f) 0 call.posargs = .ok locals₁ ∧ setVararg f call locals₁ = .ok locals₂)
        ∧ ((∀ v, call.varkwarg = some v → v = .dict v.entries)
          ∧ setKeywordArgs f (newVarkwarg f locals₂) call.nativeKeyed = .ok locals₃)
        ∧ setBlockarg f call locals₃ = .ok locals
        ∧ (∀ i < f.posargsNum, ∀ arg, f.args[i]? = some arg → arg.optional = false →
          ¬ (locals i).isUndef = true)
        ∧ f.args.length ≤ 8 := by
  rw [callNative_eq]
  constructor
  · intro h
    obtain ⟨locals₁, h₁, h₁'⟩ := Except.bind_eq_ok_iff.1 h
    obtain ⟨locals₂, h₂, h₂'⟩ := Except.bind_eq_ok_iff.1 h₁'
    obtain ⟨locals₃, h₃, h₃'⟩ := Except.bind_eq_ok_iff.1 h₂'
    obtain ⟨locals₄, h₄, h₄'⟩ := Except.bind_eq_ok_iff.1 h₃'
    obtain ⟨locals₅, h₅, h₅'⟩ := Except.bind_eq_ok_iff.1 h₄'
    obtain ⟨hg, rfl⟩ := checkGiven_eq_ok.1 h₅
    by_cases hc : 8 < f.args.length
    · rw [if_pos hc] at h₅'
      cases h₅'
    · rw [if_neg hc] at h₅'
      cases h₅'
      exact ⟨locals₁, locals₂, locals₃, ⟨h₁, h₂⟩, setVarkwarg_eq_ok.1 h₃, h₄, hg, Nat.not_lt.1 hc⟩
  · rintro ⟨locals₁, locals₂, locals₃, ⟨h₁, h₂⟩, h₃, h₄, hg, hc⟩
    refine Except.bind_eq_ok_iff.2 ⟨locals₁, h₁, Except.bind_eq_ok_iff.2 ⟨locals₂, h₂,
      Except.bind_eq_ok_iff.2 ⟨locals₃, setVarkwarg_eq_ok.2 h₃, Except.bind_eq_ok_iff.2
        ⟨locals, h₄, Except.bind_eq_ok_iff.2 ⟨locals, checkGiven_eq_ok.2 ⟨hg, rfl⟩, ?_⟩⟩⟩⟩⟩
    rw [if_neg (Nat.not_lt.2 hc)]

theorem namesFit_nil {filled : Nat} : NamesFit f filled ([] : List (ID × V)) :=
  ⟨by simp, by simp, .nil⟩

/-- A parameter that must be given has nothing exactly when nothing is for it. -/
theorem given_iff {locals : Locals V} (ht : Received f call.combined call.nativeKeyed locals)
    {i : Nat} (hi : i < f.posargsNum) : ¬ (locals i).isUndef = true
      ↔ i < call.combined.length ∨ f.varargPos = some i ∨ f.varkwargPos = some i
        ∨ ∃ p ∈ call.nativeKeyed, findKeyword f p.1 = some i := by
  rw [ht.undef i hi]
  by_cases h : ∃ p ∈ call.nativeKeyed, findKeyword f p.1 = some i
  · refine iff_of_true (fun hu => ?_) (.inr (.inr (.inr h)))
    obtain ⟨p, hp, hk⟩ := h
    exact hu.2.2 p hp hk
  · have h' : ∀ p ∈ call.nativeKeyed, findKeyword f p.1 ≠ some i := fun p hp hk => h ⟨p, hp, hk⟩
    rw [and_iff_left h', or_iff_left h, ← Nat.not_le]
    tauto

theorem callNative_bound (hf : f.Formed) {locals : Locals V}
    (h : callNative f call = .ok locals) : NativeAccepts f call ∧ NativeBound f call locals := by
  obtain ⟨locals₁, locals₂, locals₃, ⟨h₁, h₂⟩, ⟨hw, h₃⟩, h₄, hg, hc⟩ := callNative_eq_ok.1 h
  obtain ⟨hva, hp⟩ := filled_of_setVararg hf h₁ h₂
  have ht₂ := received_newVarkwarg hf hp
  have ht₃ : Received f call.combined ([] ++ call.nativeKeyed) locals₃ :=
    setKeywordArgs_received hf _ ht₂ h₃
  obtain ⟨hb, hsame⟩ := bound_of_setBlockarg hf ht₃ h₄
  refine ⟨⟨hva, hw, ((exists_setVararg_iff call _).1 ⟨_, _, h₁, h₂⟩).2,
    (exists_setKeywordArgs_iff hf _ ht₂ namesFit_nil).1 ⟨_, h₃⟩, fun hs => ?_,
    fun i hi arg ha ho => ?_, hc⟩, hb⟩
  · obtain ⟨b, hs⟩ := Option.isSome_iff_exists.1 hs
    exact (hb.block b hs).1
  · rw [← given_iff ht₃ hi, ← hsame i hi]
    exact hg i hi arg ha ho

theorem exists_callNative (hf : f.Formed) (h : NativeAccepts f call) :
    ∃ locals, callNative f call = .ok locals := by
  obtain ⟨locals₁, locals₂, h₁, h₂⟩ : ∃ locals₁ locals₂, setPosargs f
        (.wrongNumArgs f.posargsNum call.posargs.length) (newArgs f) 0 call.posargs = .ok locals₁
      ∧ setVararg f call locals₁ = .ok locals₂ :=
    (exists_setVararg_iff call (newArgs f)).2 ⟨h.vararg, h.place⟩
  have ht₂ := received_newVarkwarg hf (filled_of_setVararg hf h₁ h₂).2
  obtain ⟨locals₃, h₃⟩ := (exists_setKeywordArgs_iff hf _ ht₂ namesFit_nil).2 h.names
  have ht₃ : Received f call.combined ([] ++ call.nativeKeyed) locals₃ :=
    setKeywordArgs_received hf _ ht₂ h₃
  obtain ⟨locals, h₄⟩ : ∃ locals, setBlockarg f call locals₃ = .ok locals := by
    rcases hb : call.blockarg with _ | b
    · exact ⟨_, setBlockarg_eq_ok.2 (.inl ⟨hb, rfl⟩)⟩
    · exact ⟨_, setBlockarg_eq_ok.2 (.inr ⟨b, hb, h.block (by simp [hb]), rfl⟩)⟩
  refine ⟨locals, callNative_eq_ok.2 ⟨locals₁, locals₂, locals₃, ⟨h₁, h₂⟩, ⟨h.varkwarg, h₃⟩, h₄,
    fun i hi arg ha ho => ?_, h.count⟩⟩
  rw [(bound_of_setBlockarg hf ht₃ h₄).2 i hi, given_iff ht₃ hi]
  exact h.given i hi arg ha ho

end Binder

/-- The parameter of its name has a keyword argument, or the dictionary has it. -/
def Lands (f : NativeFunction2) (locals : Locals V) (p : ID × V) : Prop :=
  (∃ i, f.nameAt i = some (.name p.1) ∧ locals i = .val p.2)
    ∨ ∃ pos d, f.varkwargPos = some pos ∧ locals pos = .dict d ∧ d.lookup p.1 = some p.2

structure Supplied (f : NativeFunction2) (call : Call V) (locals : Locals V) : Prop where
  keyword : ∀ p ∈ call.kwargs, Lands f locals p
  block : ∀ b, call.blockarg = some b → ∃ i, f.nameAt i = some .amp ∧ locals i = .val b
  outside : ∀ i, f.args.length ≤ i → locals i = .undef
  once : ∀ p ∈ call.keyed, ∀ i < f.posargsNum, f.nameAt i = some (.name p.1) →
    call.combined.length ≤ i

/-- The same of a function without formals. -/
structure NativeCall.Delivered (call : Call V) (c : NativeCall V) : Prop where
  keyword : ∀ p ∈ call.kwargs, ∃ d, c.kw = some d ∧ d.lookup (.symbol p.1) = some p.2
  block : c.block = call.blockarg

/-- A call of a C function raises or gives the function every keyword argument and the block. -/
def BindsNative (formals : List Formal) (call : Call V) : Prop :=
  ∀ locals, callNative (nativeFunction2New formals) call = .ok locals →
    Supplied (nativeFunction2New formals) call locals

/-- The same for a C function without formals. -/
def BindsPlain (call : Call V) : Prop := ∀ c, callNativeFunction call = .ok c → c.Delivered call

/-- There is one keyword argument at most, and none of the dictionary is given again in the `**`
argument. -/
def OneKeyword (f : NativeFunction2) (call : Call V) : Prop :=
  call.kwargs.length ≤ 1 ∧ ∀ p ∈ call.kwargs, findKeyword f p.1 = none →
    p.1 ∉ (Call.ofEntries call.entries).map Prod.fst

/-- What a function without formals asks of a call. -/
def Call.Typed (call : Call V) : Prop :=
  (∀ v, call.vararg = some v → v = .array v.elems)
    ∧ ∀ v, call.varkwarg = some v → v = .dict v.entries

def OneKeywordArgument (call : Call V) : Prop :=
  call.kwargs.length ≤ 1 ∧ ∀ p ∈ call.kwargs, Key.symbol p.1 ∉ call.entries.map Prod.fst

theorem unreadKwargs_eq_nil {kwargs : List (ID × V)} :
    unreadKwargs kwargs = [] ↔ kwargs.length ≤ 1 := by
  unfold unreadKwargs
  rw [List.drop_eq_nil_iff]
  omega

theorem eq_singleton_of_mem {kwargs : List (ID × V)} {p : ID × V} (h : kwargs.length ≤ 1)
    (hp : p ∈ kwargs) : kwargs = [p] := by
  rcases kwargs with _ | ⟨q, _ | ⟨r, kwargs⟩⟩
  · cases hp
  · rw [List.mem_singleton.1 hp]
  · simp at h

theorem readKwargs_of_le {kwargs : List (ID × V)} (h : kwargs.length ≤ 1) :
    readKwargs kwargs = kwargs := List.take_of_length_le (by omega)

theorem nativeKeyed_of_le {call : Call V} (h : call.kwargs.length ≤ 1) :
    call.nativeKeyed = call.keyed := by
  unfold Call.nativeKeyed Call.keyed
  rw [readKwargs_of_le h]

theorem nativeKeyed_of_mem {call : Call V} {p : ID × V} (h : call.kwargs.length ≤ 1)
    (hp : p ∈ call.kwargs) : call.nativeKeyed = p :: Call.ofEntries call.entries := by
  unfold Call.nativeKeyed
  rw [readKwargs_of_le h, eq_singleton_of_mem h hp]
  rfl

section Delivery

variable {f : NativeFunction2} {call : Call V} {locals : Locals V}

/-- The dictionary has a keyword argument that is not a parameter's, when it is the first one and
not given again. -/
theorem reaches_of_one (ha : NativeAccepts f call) (hb : NativeBound f call locals)
    (h : OneKeyword f call) {p : ID × V} (hp : p ∈ call.kwargs) : Lands f locals p := by
  have hkeyed := nativeKeyed_of_mem h.1 hp
  have hmem : p ∈ call.nativeKeyed := by simp [hkeyed]
  rcases hk : findKeyword f p.1 with _ | i
  · obtain ⟨pos, hpos⟩ := Option.isSome_iff_exists.1 (ha.names.known p hmem hk)
    refine .inr ⟨pos, _, hpos, hb.dict pos hpos, ?_⟩
    have hun : unnamed f call.nativeKeyed = p :: unnamed f (Call.ofEntries call.entries) := by
      rw [hkeyed, unnamed, List.filter_cons_of_pos (by simp [hk])]
      rfl
    rw [hun]
    refine lookup_insertAll_cons_of_notMem fun hm => h.2 p hp hk ?_
    obtain ⟨q, hq, he⟩ := List.mem_map.1 hm
    exact List.mem_map.2 ⟨q, List.mem_of_mem_filter hq, he⟩
  · exact .inl ⟨i, (findKeyword_eq_some hk).2, hb.kept p hmem i hk⟩

theorem delivered_of_one (ha : NativeAccepts f call) (hb : NativeBound f call locals)
    (h : OneKeyword f call) : Supplied f call locals := by
  refine ⟨fun p hp => reaches_of_one ha hb h hp, fun b hbl => ⟨_, hb.block b hbl⟩, hb.outside, ?_⟩
  intro p hp i hi hname
  rw [← nativeKeyed_of_le h.1] at hp
  obtain ⟨j, hji, hj⟩ := exists_findKeyword hi hname
  exact (ha.names.free p hp j hj).trans hji

end Delivery

section Places

variable {f : NativeFunction2} {call : Call V} {locals : Locals Place}

theorem exists_kwarg {p : ID × Place} (h : p ∈ call.places.kwargs) : ∃ j, p.2 = .kwarg j := by
  obtain ⟨j, hj⟩ := List.mem_iff_getElem?.1 h
  exact ⟨j, places_kwargs call hj⟩

theorem combined_ne_kwarg {p : ID × Place} (hp : p ∈ call.places.kwargs) :
    p.2 ∉ call.places.combined := fun h =>
  (places_distinct call).combined _ h p (List.mem_append_left _ hp) rfl

theorem entry_ne_kwarg {p q : ID × Place} (hp : p ∈ call.places.kwargs)
    (hq : q ∈ Call.ofEntries call.places.entries) : q.2 ≠ p.2 := by
  obtain ⟨j, hj⟩ := exists_kwarg hp
  obtain ⟨i, hi⟩ := places_entries call q hq
  rw [hi, hj]
  nofun

theorem block_ne_kwarg {p : ID × Place} (hp : p ∈ call.places.kwargs) :
    call.places.blockarg ≠ some p.2 := by
  intro h
  obtain ⟨j, hj⟩ := exists_kwarg hp
  obtain ⟨b, -, hb⟩ := Option.map_eq_some_iff.1 h
  cases hb.trans hj

/-- A keyword argument that is somewhere was read. -/
theorem exists_of_reaches (hb : NativeBound f call.places locals) {p : ID × Place}
    (hp : p ∈ call.places.kwargs) (h : Lands f locals p) :
    ∃ q ∈ call.places.nativeKeyed, q.2 = p.2 ∧ (findKeyword f p.1 = none →
      findKeyword f q.1 ≠ none
        ∨ (insertAll ∅ (unnamed f call.places.nativeKeyed)).lookup p.1 = some p.2) := by
  rcases h with ⟨i, -, hi⟩ | ⟨pos, d, hpos, hd, hl⟩
  · rcases hb.origin i p.2 hi with hc | ⟨q, hq, hqi, he⟩ | hblock
    · exact absurd hc (combined_ne_kwarg hp)
    · exact ⟨q, hq, he, fun _ => .inl (by simp [hqi])⟩
    · exact absurd hblock (block_ne_kwarg hp)
  · cases (hb.dict pos hpos).symm.trans hd
    exact ⟨(p.1, p.2), List.mem_of_mem_filter (mem_of_lookup_insertAll hl), rfl,
      fun _ => .inr hl⟩

theorem one_of_delivered (hb : NativeBound f call.places locals)
    (h : Supplied f call.places locals) : OneKeyword f call.places := by
  have hle : call.places.kwargs.length ≤ 1 := by
    rw [← unreadKwargs_eq_nil, List.eq_nil_iff_forall_not_mem]
    intro p hp
    have hpk : p ∈ call.places.kwargs := List.mem_of_mem_drop hp
    obtain ⟨q, hq, he, -⟩ := exists_of_reaches hb hpk (h.keyword p hpk)
    exact (places_distinct call).unread p hp q hq he
  refine ⟨hle, fun p hp hk hm => ?_⟩
  have hkeyed := nativeKeyed_of_mem hle hp
  obtain ⟨q, hq, he, hdict⟩ := exists_of_reaches hb hp (h.keyword p hp)
  rw [hkeyed] at hq hdict
  rcases List.mem_cons.1 hq with rfl | hq
  · rcases hdict hk with hne | hl
    · exact hne hk
    · rw [unnamed, List.filter_cons_of_pos (by simp [hk])] at hl
      have hm' : q.1 ∈ (unnamed f (Call.ofEntries call.places.entries)).map Prod.fst := by
        obtain ⟨e, he, hek⟩ := List.mem_map.1 hm
        exact List.mem_map.2 ⟨e, List.mem_filter.2 ⟨he, by simp [hek, hk]⟩, hek⟩
      exact entry_ne_kwarg hp (List.mem_of_mem_filter (mem_of_lookup_insertAll_cons hm' hl)) rfl
  · exact entry_ne_kwarg hp hq he

end Places

section NativeFunction

variable {call : Call V}

/-- The entries of the dictionary of the keyword arguments, in the order they are set. -/
def Call.kwEntries (call : Call V) : List (Key × V) :=
  (readKwargs call.kwargs).map (fun p => (.symbol p.1, p.2)) ++ call.entries

theorem createPositionalArgument_eq_ok {args : List V} : createPositionalArgument call = .ok args
    ↔ (∀ v, call.vararg = some v → v = .array v.elems) ∧ args = call.combined := by
  unfold createPositionalArgument Call.combined
  rcases call.vararg with _ | (elems | _)
  · simp [eq_comm]
  · simp [Vararg.elems, eq_comm]
  · simp

theorem createKeywordArgument_eq_ok {kw : Option (Dict Key V)} :
    createKeywordArgument call = .ok kw
      ↔ (∀ v, call.varkwarg = some v → v = .dict v.entries)
        ∧ kw = if call.kwargs.length = 0 ∧ call.varkwarg.isNone then none
          else some (insertAll ∅ call.kwEntries) := by
  have happ : ∀ es : List (Key × V), insertAll (insertAll ∅ ((readKwargs call.kwargs).map
      fun p => (Key.symbol p.1, p.2))) es
      = insertAll ∅ ((readKwargs call.kwargs).map (fun p => (.symbol p.1, p.2)) ++ es) :=
    fun es => List.foldl_append.symm
  unfold createKeywordArgument Call.kwEntries Call.entries
  rcases call.varkwarg with _ | (entries | _)
  · by_cases h : call.kwargs.length = 0
    · simp [h, eq_comm]
    · simp [h, eq_comm]
  · simp [happ, Varkwarg.entries, eq_comm]
  · simp

theorem callNativeFunction_eq_ok {c : NativeCall V} : callNativeFunction call = .ok c
    ↔ call.Typed ∧ c = ⟨call.combined, if call.kwargs.length = 0 ∧ call.varkwarg.isNone then none
        else some (insertAll ∅ call.kwEntries), call.blockarg⟩ := by
  unfold Call.Typed
  constructor
  · intro h
    obtain ⟨args, ha, h₁⟩ := Except.bind_eq_ok_iff.1 h
    obtain ⟨kw, hk, h₂⟩ := Except.bind_eq_ok_iff.1 h₁
    obtain ⟨hva, rfl⟩ := createPositionalArgument_eq_ok.1 ha
    obtain ⟨hvk, rfl⟩ := createKeywordArgument_eq_ok.1 hk
    cases h₂
    exact ⟨⟨hva, hvk⟩, rfl⟩
  · rintro ⟨⟨hva, hvk⟩, rfl⟩
    exact Except.bind_eq_ok_iff.2 ⟨_, createPositionalArgument_eq_ok.2 ⟨hva, rfl⟩,
      Except.bind_eq_ok_iff.2 ⟨_, createKeywordArgument_eq_ok.2 ⟨hvk, rfl⟩, rfl⟩⟩

theorem kwEntries_of_one {p : ID × V} (h : call.kwargs.length ≤ 1) (hp : p ∈ call.kwargs) :
    call.kwEntries = (Key.symbol p.1, p.2) :: call.entries := by
  unfold Call.kwEntries
  rw [readKwargs_of_le h, eq_singleton_of_mem h hp]
  rfl

theorem kw_of_mem {p : ID × V} (hp : p ∈ call.kwargs) :
    (if call.kwargs.length = 0 ∧ call.varkwarg.isNone then none
      else some (insertAll ∅ call.kwEntries)) = some (insertAll ∅ call.kwEntries) := by
  rw [if_neg]
  rintro ⟨h, -⟩
  rw [List.length_eq_zero_iff.1 h] at hp
  cases hp

end NativeFunction

/-- The values the dictionary gets are those of the keyword arguments that are read. -/
theorem one_of_delivered_call {call : Call V} {c : NativeCall Place}
    (hc : callNativeFunction call.places = .ok c) (h : c.Delivered call.places) :
    OneKeywordArgument call.places := by
  obtain ⟨-, rfl⟩ := callNativeFunction_eq_ok.1 hc
  have hlookup : ∀ p ∈ call.places.kwargs,
      (insertAll ∅ call.places.kwEntries).lookup (.symbol p.1) = some p.2 := by
    intro p hp
    obtain ⟨d, hd, hl⟩ := h.keyword p hp
    cases (kw_of_mem hp).symm.trans hd
    exact hl
  have hentry : ∀ p ∈ call.places.kwargs, ∀ key, (key, p.2) ∉ call.places.entries := by
    intro p hp key hm
    exact entry_ne_kwarg hp (List.mem_map_of_mem hm : (key.val2id, p.2) ∈ Call.ofEntries _) rfl
  have hle : call.places.kwargs.length ≤ 1 := by
    rw [← unreadKwargs_eq_nil, List.eq_nil_iff_forall_not_mem]
    intro p hp
    have hpk : p ∈ call.places.kwargs := List.mem_of_mem_drop hp
    rcases List.mem_append.1 (mem_of_lookup_insertAll (hlookup p hpk)) with hm | hm
    · obtain ⟨q, hq, he⟩ := List.mem_map.1 hm
      exact (places_distinct call).unread p hp q (List.mem_append_left _ hq) (Prod.mk.inj he).2
    · exact hentry p hpk _ hm
  refine ⟨hle, fun p hp hm => ?_⟩
  have hl := hlookup p hp
  rw [kwEntries_of_one hle hp] at hl
  exact hentry p hp _ (mem_of_lookup_insertAll_cons (p := (Key.symbol p.1, p.2)) hm hl)

theorem delivered_call_of_one {call : Call V} {c : NativeCall V}
    (hc : callNativeFunction call = .ok c) (h : OneKeywordArgument call) : c.Delivered call := by
  obtain ⟨-, rfl⟩ := callNativeFunction_eq_ok.1 hc
  refine ⟨fun p hp => ⟨_, kw_of_mem hp, ?_⟩, rfl⟩
  rw [kwEntries_of_one h.1 hp]
  exact lookup_insertAll_cons_of_notMem (p := (Key.symbol p.1, p.2)) (h.2 p hp)

/-- A C function of either kind gets what is given by keyword exactly when it is one argument at
most, which the `**` argument does not give again. A call that is rejected is no matter. -/
theorem bindsNative_iff_each (formals : List Formal) (call : Call V) :
    (BindsNative formals call.places ↔
        (NativeAccepts (nativeFunction2New formals) call.places →
          OneKeyword (nativeFunction2New formals) call.places))
      ∧ (BindsPlain call.places ↔ (call.places.Typed → OneKeywordArgument call.places)) := by
  have hf := nativeFunction2New_formed formals
  refine ⟨⟨fun h ha => ?_, fun h locals hok => ?_⟩, ⟨fun h ht => ?_, fun h c hc => ?_⟩⟩
  · obtain ⟨locals, hok⟩ := exists_callNative hf ha
    exact one_of_delivered (callNative_bound hf hok).2 (h locals hok)
  · obtain ⟨ha, hb⟩ := callNative_bound hf hok
    exact delivered_of_one ha hb (h ha)
  · have hc := callNativeFunction_eq_ok.2 ⟨ht, rfl⟩
    exact one_of_delivered_call hc (h _ hc)
  · exact delivered_call_of_one hc (h (callNativeFunction_eq_ok.1 hc).1)

/-- A C function with the optional parameters `a` and `b` is called with both by keyword, and gets
`a` only. -/
theorem not_bindsNative_two_keywords : ¬ ∀ (formals : List Formal) (call : Call Nat),
    BindsNative formals call := by
  intro h
  have hb : callNative (nativeFunction2New [.bar, .name 10, .name 11]) twoKeywords
      = .ok (Locals.store (fun _ => .undef) 0 (.val 1)) := rfl
  rcases (h _ _ _ hb).keyword (11, 2) (by decide) with ⟨i, hi, hv⟩ | ⟨pos, d, hpos, -⟩
  · have hi' : i ≠ 0 := by
      rintro rfl
      cases hi
    rw [Locals.store_of_ne hi'] at hv
    cases hv
  · cases hpos

end Yog
