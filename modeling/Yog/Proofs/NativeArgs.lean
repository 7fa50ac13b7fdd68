import Yog.Proofs.ScriptArgs

/-!
# Arguments of native functions

The native binder fills every positional formal from the `*` array. It goes through the keyword
arguments in steps of two pairs, so it reads the first half of them only, and it does not ask
whether the keys of the `**` dictionary are symbols. The two binders agree when both reject the
call, or when both accept it, the `*` array is aligned, and what is not read is given again in the
`**` dictionary.
-/

namespace Yog

open Binding

variable {V : Type} {l : ParamList}

def tailFormals (l : ParamList) : List Formal :=
  (l.var.map fun _ => Formal.star).toList ++ (l.kw.map fun _ => Formal.star2).toList
    ++ (l.block.map fun _ => Formal.amp).toList

theorem initArgs_append (optional : Bool) (gs : List Formal) : ∀ fs : List Formal,
    (∀ f ∈ fs, f ≠ .bar) →
    initArgs optional (fs ++ gs) = fs.map (⟨·, optional⟩) ++ initArgs optional gs
  | [], _ => rfl
  | f :: fs, h => by
    have ih := initArgs_append optional gs fs fun f hf => h f (List.mem_cons_of_mem _ hf)
    cases f with
    | bar => exact absurd rfl (h .bar List.mem_cons_self)
    | _ => exact congrArg (_ :: ·) ih

theorem ne_bar_of_mem_tailFormals : ∀ f ∈ tailFormals l, f ≠ .bar := by
  unfold tailFormals
  rcases l.var with _ | _ <;> rcases l.kw with _ | _ <;> rcases l.block with _ | _ <;> simp

/-- The arguments for the parameters, then those for `*`, `**` and `&`. -/
theorem initArgs_formals (l : ParamList) : initArgs false l.formals
    = (l.required.map fun name => ⟨.name name, false⟩)
      ++ (l.optional.map fun p => ⟨.name p.1, true⟩)
      ++ (tailFormals l).map (⟨·, true⟩) := by
  have hformals : l.formals
      = l.required.map .name ++ .bar :: (l.optional.map (fun p => .name p.1) ++ tailFormals l) := by
    unfold ParamList.formals tailFormals
    simp only [List.append_assoc, List.cons_append]
  rw [hformals, initArgs_append _ _ _ (by simp)]
  show _ ++ initArgs true _ = _
  have hopt : ∀ f ∈ l.optional.map fun p => Formal.name p.1, f ≠ .bar := by
    intro f hf
    obtain ⟨p, -, rfl⟩ := List.mem_map.1 hf
    nofun
  rw [initArgs_append _ _ _ hopt, List.map_map, List.map_map,
    ← List.append_nil (tailFormals l), initArgs_append _ _ _ ne_bar_of_mem_tailFormals]
  simp only [initArgs, List.append_nil, List.append_assoc]
  rfl

theorem posargsNum_formals (l : ParamList) :
    (nativeFunction2New l.formals).posargsNum = l.names.length := by
  unfold nativeFunction2New ParamList.formals ParamList.names
  simp only [List.countP_append, List.countP_cons, List.countP_map, List.length_append,
    List.length_map]
  rcases l.var with _ | _ <;> rcases l.kw with _ | _ <;> rcases l.block with _ | _ <;>
    simp [Function.comp_def]

/-- The arguments for the parameters. -/
def posFormals (l : ParamList) : List NativeArg :=
  (l.required.map fun name => ⟨.name name, false⟩) ++ l.optional.map fun p => ⟨.name p.1, true⟩

theorem length_posFormals : (posFormals l).length = l.names.length := by
  simp [posFormals, ParamList.names]

theorem args_formals (l : ParamList) : (nativeFunction2New l.formals).args
    = posFormals l ++ (tailFormals l).map (⟨·, true⟩) := initArgs_formals l

theorem take_args : (nativeFunction2New l.formals).args.take
    (nativeFunction2New l.formals).posargsNum = posFormals l := by
  rw [args_formals, posargsNum_formals, ← length_posFormals, List.take_left]

theorem map_name_posFormals : (posFormals l).map NativeArg.name = l.names.map .name := by
  simp [posFormals, ParamList.names, Function.comp_def]

theorem findSpecialArg_eq {name : Formal} (hn : ∀ id, name ≠ .name id) :
    findSpecialArg (initArgs false l.formals) name
      = ((tailFormals l).findIdx? (· = name)).map (· + l.names.length) := by
  have hpos : (posFormals l).findIdx? (fun a => decide (a.name = name)) = none := by
    rw [List.findIdx?_eq_none_iff]
    intro a ha
    have : a.name ∈ l.names.map Formal.name := by
      rw [← map_name_posFormals]
      exact List.mem_map_of_mem ha
    obtain ⟨id, -, he⟩ := List.mem_map.1 this
    rw [← he]
    exact decide_eq_false fun h => hn id h.symm
  unfold findSpecialArg
  rw [initArgs_formals]
  show (posFormals l ++ _).findIdx? _ = _
  rw [List.findIdx?_append, hpos, Option.none_or, List.findIdx?_map, length_posFormals]
  rfl

theorem varargPos_formals (l : ParamList) : (nativeFunction2New l.formals).varargPos
    = if l.var.isSome then some (varAt l 0) else none := by
  show findSpecialArg _ _ = _
  rw [findSpecialArg_eq (by simp)]
  unfold tailFormals varAt
  rcases l.var with _ | _ <;> rcases l.kw with _ | _ <;> rcases l.block with _ | _ <;>
    simp [List.findIdx?_cons]

theorem varkwargPos_formals (l : ParamList) :
    (nativeFunction2New l.formals).varkwargPos = dictAt l 0 := by
  show findSpecialArg _ _ = _
  rw [findSpecialArg_eq (by simp)]
  unfold tailFormals dictAt kwAt varAt
  rcases l.var with _ | _ <;> rcases l.kw with _ | _ <;> rcases l.block with _ | _ <;>
    simp [List.findIdx?_cons, Nat.add_comm]

theorem findKeyword_formals (name : ID) :
    findKeyword (nativeFunction2New l.formals) name = l.names.idxOf? name := by
  unfold findKeyword
  rw [take_args]
  have hcomp : (fun a : NativeArg => decide (a.name = .name name))
      = (fun f : Formal => decide (f = .name name)) ∘ NativeArg.name := rfl
  rw [hcomp, ← List.findIdx?_map, map_name_posFormals, List.findIdx?_map, List.idxOf?]
  congr 1
  funext id
  rw [Bool.eq_iff_iff]
  simp

theorem setKeywordArg_eq (locals : Locals V) (name : ID) (v : V) :
    setKeywordArg (nativeFunction2New l.formals) locals name v
      = keywordStep l.names 0 (dictAt l 0) locals name v := by
  unfold setKeywordArg keywordStep
  rw [findKeyword_formals, varkwargPos_formals]
  rcases l.names.idxOf? name with _ | i
  · rfl
  · simp only [Nat.zero_add]

theorem setKeywordArgs_eq : ∀ (ps : List (ID × V)) (locals : Locals V),
    setKeywordArgs (nativeFunction2New l.formals) locals ps
      = keywordSteps l.names 0 (dictAt l 0) locals ps
  | [], _ => rfl
  | p :: ps, locals => by
    unfold setKeywordArgs keywordSteps
    rw [setKeywordArg_eq]
    rcases keywordStep l.names 0 (dictAt l 0) locals p.1 p.2 with e | locals'
    · rfl
    · exact setKeywordArgs_eq ps locals'

/-- The places after the arguments `vals` are set by position. -/
structure NativePlaced (l : ParamList) (vals : List V) (locals : Locals V) : Prop where
  args : ∀ i < l.names.length, locals i = Slot.ofOption vals[i]?
  rest : l.var.isSome = true → locals (varAt l 0) = .array (vals.drop l.names.length)
  other : ∀ j, l.names.length ≤ j → (l.var.isSome = true → j ≠ varAt l 0) → locals j = .undef

theorem nativePlaced_newArgs :
    NativePlaced l [] (newArgs (nativeFunction2New l.formals) : Locals V) := by
  unfold newArgs
  rw [varargPos_formals]
  by_cases hvar : l.var.isSome = true
  · rw [if_pos hvar]
    refine ⟨fun i hi => ?_, fun _ => ?_, fun j _ hne => ?_⟩
    · exact Locals.store_of_ne (by unfold varAt; omega)
    · rw [List.drop_nil]
      exact Locals.store_self ..
    · exact Locals.store_of_ne (hne hvar)
  · rw [if_neg hvar]
    exact ⟨fun _ _ => rfl, fun h => absurd h hvar, fun _ _ _ => rfl⟩

/-- One more argument. -/
theorem setPosarg_spec {done : List V} {locals : Locals V} (hp : NativePlaced l done locals)
    (error : ArgError) (v : V) :
    (done.length < l.names.length ∨ l.var.isSome = true →
        ∃ locals', setPosarg (nativeFunction2New l.formals) error locals done.length v
          = .ok locals' ∧ NativePlaced l (done ++ [v]) locals')
      ∧ (¬ (done.length < l.names.length ∨ l.var.isSome = true) →
        setPosarg (nativeFunction2New l.formals) error locals done.length v = .error error) := by
  unfold setPosarg
  rw [posargsNum_formals, varargPos_formals]
  by_cases hi : done.length < l.names.length
  · rw [if_pos hi]
    refine ⟨fun _ => ⟨_, rfl, fun i hin => ?_, fun hvar => ?_, fun j hj hne => ?_⟩,
      fun h => absurd (.inl hi) h⟩
    · by_cases he : i = done.length
      · subst he
        rw [Locals.store_self, List.getElem?_append_right (Nat.le_refl _), Nat.sub_self]
        rfl
      · rw [Locals.store_of_ne he, hp.args i hin]
        rcases Nat.lt_or_ge i done.length with hlt | hge
        · rw [List.getElem?_append_left hlt]
        · rw [List.getElem?_eq_none hge, List.getElem?_eq_none (by simp; omega)]
    · rw [Locals.store_of_ne (by unfold varAt; omega), hp.rest hvar,
        List.drop_eq_nil_of_le (Nat.le_of_lt hi), List.drop_eq_nil_of_le (by simp; omega)]
    · rw [Locals.store_of_ne (by omega)]
      exact hp.other j hj hne
  · rw [if_neg hi]
    by_cases hvar : l.var.isSome = true
    · rw [if_pos hvar]
      refine ⟨fun _ => ⟨_, rfl, ?_⟩, fun h => absurd (.inr hvar) h⟩
      have hpush : locals.pushArray (varAt l 0) v
          = locals.store (varAt l 0) (.array (done.drop l.names.length ++ [v])) := by
        unfold Locals.pushArray
        rw [hp.rest hvar]
      rw [hpush]
      refine ⟨fun i hin => ?_, fun _ => ?_, fun j hj hne => ?_⟩
      · rw [Locals.store_of_ne (by unfold varAt; omega), hp.args i hin,
          List.getElem?_append_left (by omega)]
      · rw [Locals.store_self, List.drop_append_of_le_length (by omega)]
      · rw [Locals.store_of_ne (hne hvar)]
        exact hp.other j hj hne
    · rw [if_neg hvar]
      exact ⟨fun h => absurd h (by simp [hi, hvar]), fun _ => rfl⟩

theorem setPosargs_spec (error : ArgError) : ∀ (vs : List V) {done : List V} {locals : Locals V},
    NativePlaced l done locals → (done.length ≤ l.names.length ∨ l.var.isSome = true) →
    ((done ++ vs).length ≤ l.names.length ∨ l.var.isSome = true →
        ∃ locals', setPosargs (nativeFunction2New l.formals) error locals done.length vs
          = .ok locals' ∧ NativePlaced l (done ++ vs) locals')
      ∧ (¬ ((done ++ vs).length ≤ l.names.length ∨ l.var.isSome = true) →
        ∃ e, setPosargs (nativeFunction2New l.formals) error locals done.length vs = .error e)
  | [], done, locals, hp, hd => by
    rw [List.append_nil]
    exact ⟨fun _ => ⟨locals, rfl, hp⟩, fun h => absurd hd h⟩
  | v :: vs, done, locals, hp, hd => by
    have hstep := setPosarg_spec hp error v
    unfold setPosargs
    by_cases hi : done.length < l.names.length ∨ l.var.isSome = true
    · obtain ⟨locals₁, h₁, hp₁⟩ := hstep.1 hi
      have ih := setPosargs_spec error vs hp₁ (by
        rcases hi with hi | hi
        · left
          simp
          omega
        · exact .inr hi)
      rw [show (done ++ [v]).length = done.length + 1 by simp, List.append_assoc] at ih
      rw [h₁]
      exact ih
    · rw [hstep.2 hi]
      refine ⟨fun h => absurd h ?_, fun _ => ⟨error, rfl⟩⟩
      rw [not_or] at hi
      rw [not_or, List.length_append, List.length_cons]
      exact ⟨by omega, hi.2⟩

/-- The keyword arguments that are read. -/
def Call.nativeKeyed (call : Call V) : List (ID × V) :=
  readKwargs call.kwargs ++ Call.ofEntries call.entries

/-- What the native binder asks for, of a call without a block. -/
structure NativeFits (l : ParamList) (call : Call V) : Prop where
  vararg : ∀ v, call.vararg = some v → v = .array v.elems
  varkwarg : ∀ v, call.varkwarg = some v → v = .dict v.entries
  place : call.combined.length ≤ l.names.length ∨ l.var.isSome = true
  fits : Fits l call.nativeKeyed (filledCount l call)

theorem newVarkwarg_eq (locals : Locals V) :
    newVarkwarg (nativeFunction2New l.formals) locals = firstPlaces l 0 locals := by
  unfold newVarkwarg firstPlaces
  rw [varkwargPos_formals, dictAt]
  by_cases hkw : l.kw.isSome = true
  · rw [if_pos hkw, if_pos hkw]
  · rw [if_neg hkw, if_neg hkw]

theorem placed_of_nativePlaced {vals : List V} {locals : Locals V}
    (hp : NativePlaced l vals locals) :
    Placed l 0 (min l.names.length vals.length) vals (firstPlaces l 0 locals) := by
  have hle : 0 + l.names.length ≤ kwAt l 0 := le_kwAt
  refine ⟨fun i hi => ?_, fun hvar => ?_, firstPlaces_kwAt, fun hblk => ?_⟩
  · rw [firstPlaces_of_ne (by omega), Nat.zero_add, hp.args i hi]
    by_cases hv : i < vals.length
    · rw [if_pos (by omega)]
    · rw [if_neg (by omega), List.getElem?_eq_none (by omega)]
  · rw [firstPlaces_of_ne (by rw [kwAt, if_pos hvar]; omega)]
    exact hp.rest hvar
  · by_cases hkw : l.kw.isSome = true
    · rw [firstPlaces_of_ne (by rw [blockAt, if_pos hkw]; omega)]
      refine hp.other _ (by unfold blockAt; omega) fun hvar => ?_
      rw [blockAt, if_pos hkw, kwAt, if_pos hvar]
      omega
    · rw [firstPlaces_no_kw hkw]
      refine hp.other _ (by unfold blockAt; omega) fun hvar => ?_
      rw [blockAt, if_neg hkw, kwAt, if_pos hvar]
      omega

theorem setVararg_spec {call : Call V} {locals : Locals V}
    (hp : NativePlaced l call.posargs locals)
    (hd : call.posargs.length ≤ l.names.length ∨ l.var.isSome = true) :
    ((∀ v, call.vararg = some v → v = .array v.elems)
        ∧ (call.combined.length ≤ l.names.length ∨ l.var.isSome = true) →
        ∃ locals', setVararg (nativeFunction2New l.formals) call locals = .ok locals'
          ∧ NativePlaced l call.combined locals')
      ∧ (¬ ((∀ v, call.vararg = some v → v = .array v.elems)
        ∧ (call.combined.length ≤ l.names.length ∨ l.var.isSome = true)) →
        ∃ e, setVararg (nativeFunction2New l.formals) call locals = .error e) := by
  unfold setVararg Call.combined
  rcases hv : call.vararg with _ | (elems | _)
  · simp only [Option.map_none, Option.getD_none, List.append_nil]
    exact ⟨fun _ => ⟨locals, rfl, hp⟩, fun h => absurd ⟨by simp, hd⟩ h⟩
  · simp only [Option.map_some, Option.getD_some, Vararg.elems]
    have hspec := setPosargs_spec (l := l) (.takesExactly (nativeFunction2New l.formals).posargsNum
      (elems.length + call.posargs.length)) elems hp hd
    refine ⟨fun h => hspec.1 h.2, fun h => hspec.2 fun hlen => h ⟨?_, hlen⟩⟩
    intro v hv'
    cases hv'
    rfl
  · refine ⟨fun h => ?_, fun _ => ⟨_, rfl⟩⟩
    cases h.1 _ rfl

theorem callNative_eq (f : NativeFunction2) (call : Call V) :
    callNative f call
      = (setPosargs f (.wrongNumArgs f.posargsNum call.posargs.length) (newArgs f) 0
          call.posargs).bind fun locals => (setVararg f call locals).bind fun locals =>
        ((setKeywordArgs f (newVarkwarg f locals) (readKwargs call.kwargs)).bind
          (setVarkwarg f call)).bind fun locals => (setBlockarg f call locals).bind fun locals =>
        (checkGiven f call locals).bind fun locals =>
        if 8 < f.args.length then .error .tooManyFormals else .ok locals := by
  unfold callNative
  rcases setPosargs f (.wrongNumArgs f.posargsNum call.posargs.length) (newArgs f) 0
    call.posargs with e | locals
  · rfl
  show (setVararg f call locals).bind _ = (setVararg f call locals).bind _
  rcases setVararg f call locals with e | locals
  · rfl
  show (setKeywordArgs f _ _).bind _ = ((setKeywordArgs f _ _).bind _).bind _
  rcases setKeywordArgs f (newVarkwarg f locals) (readKwargs call.kwargs) with e | locals <;> rfl

theorem setVarkwarg_eq {call : Call V}
    (hw : ∀ v, call.varkwarg = some v → v = .dict v.entries) (locals : Locals V) :
    ((setKeywordArgs (nativeFunction2New l.formals) locals (readKwargs call.kwargs)).bind
        (setVarkwarg (nativeFunction2New l.formals) call))
      = keywordSteps l.names 0 (dictAt l 0) locals call.nativeKeyed := by
  have hentries : ∀ locals', setVarkwarg (nativeFunction2New l.formals) call locals'
      = keywordSteps l.names 0 (dictAt l 0) locals' (Call.ofEntries call.entries) := by
    intro locals'
    unfold setVarkwarg Call.entries
    rcases hv : call.varkwarg with _ | (entries | _)
    · rfl
    · exact setKeywordArgs_eq _ _
    · cases hw _ hv
  unfold Call.nativeKeyed
  rw [keywordSteps_append, setKeywordArgs_eq]
  exact congrArg _ (funext hentries)

theorem checkGiven_spec (call : Call V) (locals : Locals V) :
    ((∃ i < l.required.length, (locals (0 + i)).isUndef = true) →
        ∃ e, checkGiven (nativeFunction2New l.formals) call locals = .error e)
      ∧ ((¬ ∃ i < l.required.length, (locals (0 + i)).isUndef = true) →
        checkGiven (nativeFunction2New l.formals) call locals = .ok locals) := by
  have hany : ((posFormals l).zipIdx.any
      fun p => !p.1.optional && (locals p.2).isUndef) = true
      ↔ ∃ i < l.required.length, (locals (0 + i)).isUndef = true := by
    rw [List.any_eq_true]
    constructor
    · rintro ⟨⟨arg, i⟩, hm, h⟩
      rw [Bool.and_eq_true, Bool.not_eq_true'] at h
      have hi : (posFormals l)[i]? = some arg := List.mem_zipIdx_iff_getElem?.1 hm
      refine ⟨i, ?_, by rw [Nat.zero_add]; exact h.2⟩
      by_contra hlt
      unfold posFormals at hi
      rw [List.getElem?_append_right (by simpa using hlt), List.getElem?_map] at hi
      obtain ⟨p, -, rfl⟩ := Option.map_eq_some_iff.1 hi
      cases h.1
    · rintro ⟨i, hi, h⟩
      refine ⟨(⟨.name l.required[i], false⟩, i), List.mem_zipIdx_iff_getElem?.2 ?_, ?_⟩
      · unfold posFormals
        rw [List.getElem?_append_left (by simpa using hi), List.getElem?_map,
          List.getElem?_eq_getElem hi]
        rfl
      · rw [Nat.zero_add] at h
        simpa using h
  unfold checkGiven
  rw [take_args]
  exact ⟨fun h => ⟨_, if_pos (hany.2 h)⟩, fun h => if_neg fun h' => h (hany.1 h')⟩

/-- The C function is called when the call fits, and gets the arguments so. -/
theorem callNative_ok {call : Call V} (h : NativeFits l call) (hb : call.blockarg = none)
    (hlen : (nativeFunction2New l.formals).args.length ≤ 8) :
    ∃ locals, callNative (nativeFunction2New l.formals) call = .ok locals
      ∧ Holds l 0 locals
        (assignment l (filledCount l call) call.combined call.nativeKeyed none) := by
  have hd : call.posargs.length ≤ l.names.length ∨ l.var.isSome = true := by
    have := length_combined call
    exact h.place.imp (fun h => by omega) id
  have hk : filledCount l call ≤ call.combined.length := Nat.min_le_right _ _
  obtain ⟨locals₁, h₁, hp₁⟩ := (setPosargs_spec (l := l)
    (.wrongNumArgs (nativeFunction2New l.formals).posargsNum call.posargs.length) call.posargs
    nativePlaced_newArgs (.inl (Nat.zero_le _))).1 hd
  obtain ⟨locals₂, h₂, hp₂⟩ := (setVararg_spec hp₁ hd).1 ⟨h.vararg, h.place⟩
  obtain ⟨locals₃, h₃, hh₃⟩ := (keywordSteps_placed (placed_of_nativePlaced hp₂) hk
    call.nativeKeyed).1 h.fits.toKeywordsFit
  have hbound : ¬ ∃ i < l.required.length, (locals₃ (0 + i)).isUndef = true := by
    rw [unbound_iff hk hh₃]
    rintro ⟨name, hm, hn⟩
    exact hn (h.fits.bound name hm)
  have hblock : setBlockarg (nativeFunction2New l.formals) call locals₃ = .ok locals₃ := by
    unfold setBlockarg
    rw [hb]
  refine ⟨locals₃, ?_, hh₃⟩
  rw [show ([] : List V).length = 0 from rfl] at h₁
  rw [callNative_eq, h₁]
  show Except.bind (setVararg ..) _ = _
  rw [h₂]
  show Except.bind (Except.bind (setKeywordArgs ..) _) _ = _
  rw [newVarkwarg_eq, setVarkwarg_eq h.varkwarg, h₃]
  show Except.bind (setBlockarg ..) _ = _
  rw [hblock]
  show Except.bind (checkGiven ..) _ = _
  rw [(checkGiven_spec call locals₃).2 hbound]
  exact if_neg (Nat.not_lt.2 hlen)

theorem callNative_error {call : Call V} (h : ¬ NativeFits l call) (hb : call.blockarg = none) :
    ∃ e, callNative (nativeFunction2New l.formals) call = .error e := by
  have hk : filledCount l call ≤ call.combined.length := Nat.min_le_right _ _
  have hpos := setPosargs_spec (l := l)
    (.wrongNumArgs (nativeFunction2New l.formals).posargsNum call.posargs.length) call.posargs
    nativePlaced_newArgs (.inl (Nat.zero_le _))
  rw [callNative_eq]
  by_cases hd : call.posargs.length ≤ l.names.length ∨ l.var.isSome = true
  swap
  · obtain ⟨e, he⟩ := hpos.2 hd
    rw [show ([] : List V).length = 0 from rfl] at he
    rw [he]
    exact ⟨e, rfl⟩
  obtain ⟨locals₁, h₁, hp₁⟩ := hpos.1 hd
  rw [show ([] : List V).length = 0 from rfl] at h₁
  rw [h₁]
  show ∃ e, Except.bind (setVararg ..) _ = .error e
  by_cases hv : (∀ v, call.vararg = some v → v = .array v.elems)
    ∧ (call.combined.length ≤ l.names.length ∨ l.var.isSome = true)
  swap
  · obtain ⟨e, he⟩ := (setVararg_spec hp₁ hd).2 hv
    rw [he]
    exact ⟨e, rfl⟩
  obtain ⟨locals₂, h₂, hp₂⟩ := (setVararg_spec hp₁ hd).1 hv
  rw [h₂]
  show ∃ e, Except.bind (Except.bind (setKeywordArgs ..) _) _ = .error e
  rw [newVarkwarg_eq]
  by_cases hw : ∀ v, call.varkwarg = some v → v = .dict v.entries
  swap
  · rcases setKeywordArgs (nativeFunction2New l.formals) _ (readKwargs call.kwargs) with e | locals
    · exact ⟨e, rfl⟩
    · refine ⟨.varkwarg, ?_⟩
      have herr : setVarkwarg (nativeFunction2New l.formals) call locals = .error .varkwarg := by
        unfold setVarkwarg
        rcases hvk : call.varkwarg with _ | (entries | _)
        · exact absurd (by simp [hvk]) hw
        · refine absurd (fun v hv' => ?_) hw
          cases hvk.symm.trans hv'
          rfl
        · rfl
      exact congrArg (Except.bind · _) herr
  rw [setVarkwarg_eq hw]
  have hsteps := keywordSteps_placed (placed_of_nativePlaced hp₂) hk call.nativeKeyed
  by_cases hf : KeywordsFit l call.nativeKeyed (filledCount l call)
  swap
  · obtain ⟨e, he⟩ := hsteps.2 hf
    rw [he]
    exact ⟨e, rfl⟩
  obtain ⟨locals₃, h₃, hh₃⟩ := hsteps.1 hf
  rw [h₃]
  have hblock : setBlockarg (nativeFunction2New l.formals) call locals₃ = .ok locals₃ := by
    unfold setBlockarg
    rw [hb]
  show ∃ e, Except.bind (setBlockarg ..) _ = .error e
  rw [hblock]
  show ∃ e, Except.bind (checkGiven ..) _ = .error e
  have hunbound : ∃ i < l.required.length, (locals₃ (0 + i)).isUndef = true := by
    rw [unbound_iff hk hh₃]
    by_contra hn
    refine h ⟨hv.1, hw, hv.2, ⟨hf, fun name hm => ?_⟩⟩
    by_contra hm'
    exact hn ⟨name, hm, hm'⟩
  obtain ⟨e, he⟩ := (checkGiven_spec call locals₃).1 hunbound
  rw [he]
  exact ⟨e, rfl⟩

/-- The place an argument stands at in a call. -/
inductive Place where
  | posarg (i : Nat)
  | star (i : Nat)
  | kwarg (i : Nat)
  | entry (i : Nat)
  | block
  | receiver
  deriving DecidableEq

def Vararg.places : Vararg V → Vararg Place
  | array elems => .array (elems.mapIdx fun i _ => .star i)
  | other => .other

def Varkwarg.places : Varkwarg V → Varkwarg Place
  | dict entries => .dict (entries.mapIdx fun i e => (e.1, .entry i))
  | other => .other

/-- The call with every argument named by its place. -/
def Call.places (call : Call V) : Call Place where
  posargs := call.posargs.mapIdx fun i _ => .posarg i
  kwargs := call.kwargs.mapIdx fun i p => (p.1, .kwarg i)
  vararg := call.vararg.map Vararg.places
  varkwarg := call.varkwarg.map Varkwarg.places
  blockarg := call.blockarg.map fun _ => .block
  posargc_lt := by simpa using call.posargc_lt
  kwargc_lt := by simpa using call.kwargc_lt
  size_lt := by
    have := call.size_lt
    rcases hv : call.vararg with _ | (elems | _) <;> rw [hv] at this <;>
      simpa [Vararg.places, Vararg.size, Vararg.elems] using this

/-- The parameters have the same arguments. Dictionaries are the same when every look-up is. -/
structure SameAssignment (l : ParamList) (a b : Assignment V) : Prop where
  args : a.args = b.args
  rest : l.var.isSome = true → a.rest = b.rest
  extra : l.kw.isSome = true → ∀ key, a.extra.lookup key = b.extra.lookup key

/-- A script function and a native function with the parameters both raise, or give the parameters
the same arguments. -/
def BindAlike (l : ParamList) (self : Option V) (call : Call V) : Prop :=
  (∃ e e', execFunction (some l.info) self call = .error e
      ∧ callNative (nativeFunction2New l.formals) call = .error e')
    ∨ ∃ locals locals' a b, execFunction (some l.info) self call = .ok locals
      ∧ callNative (nativeFunction2New l.formals) call = .ok locals'
      ∧ Holds l (newLocals self).1 locals a ∧ Holds l 0 locals' b ∧ SameAssignment l a b

/-- The keyword arguments the native binder does not read. -/
def unreadKwargs (kwargs : List (ID × V)) : List (ID × V) := kwargs.drop ((kwargs.length + 1) / 2)

/-- Arguments that differ by their places. -/
structure Call.Distinct (call : Call V) : Prop where
  combined : ∀ v ∈ call.combined, ∀ p ∈ call.keyed, p.2 ≠ v
  unread : ∀ p ∈ unreadKwargs call.kwargs, ∀ q ∈ call.nativeKeyed, q.2 ≠ p.2

theorem keyed_eq (call : Call V) : call.keyed = readKwargs call.kwargs
    ++ (unreadKwargs call.kwargs ++ Call.ofEntries call.entries) := by
  unfold Call.keyed readKwargs unreadKwargs
  rw [← List.append_assoc, List.take_append_drop]

theorem mem_mapIdx {α β : Type} {f : Nat → α → β} {xs : List α} {b : β} (h : b ∈ xs.mapIdx f) :
    ∃ i a, xs[i]? = some a ∧ b = f i a := by
  obtain ⟨i, hi⟩ := List.mem_iff_getElem?.1 h
  rw [List.getElem?_mapIdx] at hi
  obtain ⟨a, ha, rfl⟩ := Option.map_eq_some_iff.1 hi
  exact ⟨i, a, ha, rfl⟩

theorem places_combined (call : Call V) : ∀ v ∈ call.places.combined,
    (∃ i, v = .posarg i) ∨ ∃ i, v = .star i := by
  have hc : call.places.combined = (call.posargs.mapIdx fun i _ => .posarg i)
      ++ ((call.vararg.map Vararg.places).map Vararg.elems).getD [] := rfl
  intro v hv
  rw [hc] at hv
  rcases List.mem_append.1 hv with hv | hv
  · obtain ⟨i, -, -, rfl⟩ := mem_mapIdx hv
    exact .inl ⟨i, rfl⟩
  · rcases hva : call.vararg with _ | (elems | _)
    · rw [hva] at hv
      cases hv
    · rw [hva] at hv
      obtain ⟨i, -, -, rfl⟩ := mem_mapIdx hv
      exact .inr ⟨i, rfl⟩
    · rw [hva] at hv
      cases hv

theorem places_entries (call : Call V) :
    ∀ q ∈ Call.ofEntries call.places.entries, ∃ i, q.2 = .entry i := by
  intro q hq
  obtain ⟨e, he, rfl⟩ := List.mem_map.1 hq
  have hc : call.places.entries
      = ((call.varkwarg.map Varkwarg.places).map Varkwarg.entries).getD [] := rfl
  rw [hc] at he
  rcases hvk : call.varkwarg with _ | (entries | _)
  · rw [hvk] at he
    cases he
  · rw [hvk] at he
    obtain ⟨i, -, -, rfl⟩ := mem_mapIdx he
    exact ⟨i, rfl⟩
  · rw [hvk] at he
    cases he

theorem places_kwargs (call : Call V) {j : Nat} {p : ID × Place}
    (h : call.places.kwargs[j]? = some p) : p.2 = .kwarg j := by
  unfold Call.places at h
  rw [List.getElem?_mapIdx] at h
  obtain ⟨q, -, rfl⟩ := Option.map_eq_some_iff.1 h
  rfl

theorem places_distinct (call : Call V) : call.places.Distinct := by
  constructor
  · intro v hv p hp hpv
    have hkw : (∃ j, p.2 = .kwarg j) ∨ ∃ i, p.2 = .entry i := by
      unfold Call.keyed at hp
      rcases List.mem_append.1 hp with hp | hp
      · obtain ⟨j, hj⟩ := List.mem_iff_getElem?.1 hp
        exact .inl ⟨j, places_kwargs call hj⟩
      · exact .inr (places_entries call p hp)
    rcases places_combined call v hv with ⟨i, rfl⟩ | ⟨i, rfl⟩ <;>
      rcases hkw with ⟨j, hj⟩ | ⟨j, hj⟩ <;> rw [hpv] at hj <;> cases hj
  · intro p hp q hq hqp
    obtain ⟨i, hi⟩ := List.mem_iff_getElem?.1 hp
    unfold unreadKwargs at hi
    rw [List.getElem?_drop] at hi
    have hpi := places_kwargs call hi
    unfold Call.nativeKeyed at hq
    rcases List.mem_append.1 hq with hq | hq
    · obtain ⟨j, hj⟩ := List.mem_iff_getElem?.1 hq
      unfold readKwargs at hj
      rw [List.getElem?_take] at hj
      by_cases hlt : j < (call.places.kwargs.length + 1) / 2
      · rw [if_pos hlt] at hj
        have := places_kwargs call hj
        rw [hqp, hpi] at this
        cases this
        omega
      · rw [if_neg hlt] at hj
        cases hj
    · obtain ⟨j, hj⟩ := places_entries call q hq
      rw [hqp, hpi] at hj
      cases hj

/-- What the native binder does not read goes to the `**` parameter and is given again in the `**`
dictionary. -/
def Overridden (l : ParamList) (call : Call V) : Prop :=
  ∀ p ∈ unreadKwargs call.kwargs,
    p.1 ∉ l.names ∧ p.1 ∈ (Call.ofEntries call.entries).map Prod.fst

theorem lookup_of_mem {ps : List (ID × V)} {p : ID × V} (h : p ∈ ps) :
    ∃ v, ps.lookup p.1 = some v := by
  by_contra hn
  have hnone : ps.lookup p.1 = none := by
    by_contra h'
    exact hn (Option.ne_none_iff_exists'.1 h')
  have := List.lookup_eq_none_iff.1 hnone p h
  simp at this

theorem lookup_extra {k : Nat} {vals : List V} {keyed : List (ID × V)} {block : Option V}
    (key : ID) : (assignment l k vals keyed block).extra.lookup key
      = (others l.names keyed).reverse.lookup key := by
  show (insertAll ∅ (others l.names keyed)).lookup key = _
  rw [lookup_insertAll, AList.lookup_empty, Option.or_none]

theorem others_append (names : List ID) (ps qs : List (ID × V)) :
    others names (ps ++ qs) = others names ps ++ others names qs := List.filter_append ..

theorem mem_others {names : List ID} {ps : List (ID × V)} {p : ID × V} :
    p ∈ others names ps ↔ p ∈ ps ∧ p.1 ∉ names := by
  unfold others
  rw [List.mem_filter, decide_eq_true_eq]

theorem sameAssignment_of {call : Call V} {k : Nat} (hs : ScriptFits l call k)
    (hal : Aligned l call) (ho : Overridden l call) {block : Option V} :
    SameAssignment l (assignment l k call.combined call.keyed block)
      (assignment l (filledCount l call) call.combined call.nativeKeyed none) := by
  obtain rfl := filled_of_scriptFits hal hs
  refine ⟨List.ext_getElem? fun i => ?_, fun _ => rfl, fun _ key => ?_⟩
  · rcases hi : l.names[i]? with _ | name
    · have hlen := List.getElem?_eq_none_iff.1 hi
      rw [List.getElem?_eq_none (by rw [assignment, length_named (length_placed ..)]; exact hlen),
        List.getElem?_eq_none (by rw [assignment, length_named (length_placed ..)]; exact hlen)]
    · have hun : (unreadKwargs call.kwargs).lookup name = none := by
        refine lookup_none fun hm => ?_
        obtain ⟨p, hp, rfl⟩ := List.mem_map.1 hm
        exact (ho p hp).1 (List.mem_of_getElem? hi)
      rw [getElem?_assignment hi, getElem?_assignment hi, keyed_eq, Call.nativeKeyed,
        List.lookup_append, List.lookup_append, List.lookup_append, hun, Option.none_or]
  · rw [lookup_extra, lookup_extra, keyed_eq, Call.nativeKeyed]
    simp only [others_append, List.reverse_append, List.lookup_append, Option.or_assoc]
    rcases hd : (others l.names (Call.ofEntries call.entries)).reverse.lookup key with _ | v
    · have hun : (others l.names (unreadKwargs call.kwargs)).reverse.lookup key = none := by
        by_contra hne
        obtain ⟨v, hv⟩ := Option.ne_none_iff_exists'.1 hne
        obtain ⟨hm, hnot⟩ := mem_others.1 (List.mem_reverse.1 (List.mem_of_lookup hv))
        obtain ⟨q, hq, hqk⟩ := List.mem_map.1 (ho _ hm).2
        have hq' : q ∈ (others l.names (Call.ofEntries call.entries)).reverse := by
          rw [List.mem_reverse, mem_others, hqk]
          exact ⟨hq, hnot⟩
        obtain ⟨w, hw⟩ := lookup_of_mem hq'
        rw [hqk, hd] at hw
        cases hw
      rw [hun, Option.none_or]
    · rfl

/-- The converse, for arguments that differ by their places. -/
theorem aligned_of_same {call : Call V} {k : Nat} (hd : call.Distinct) (hs : ScriptFits l call k)
    (hn : NativeFits l call) {block : Option V}
    (h : SameAssignment l (assignment l k call.combined call.keyed block)
      (assignment l (filledCount l call) call.combined call.nativeKeyed none)) :
    Aligned l call := by
  by_contra hal
  have hal' := hal
  unfold Aligned at hal'
  simp only [not_or] at hal'
  obtain ⟨hv, hp, hreq⟩ := hal'
  obtain ⟨v, hv⟩ := Option.ne_none_iff_exists'.1 hv
  have hf := hs.filled
  rw [scriptFilled_some hv (Nat.le_of_not_lt hp)] at hf
  by_cases hcond : call.posargs.length ≤ l.required.length
    ∧ l.required.length ≤ call.combined.length
  swap
  · rw [if_neg hcond] at hf
    cases hf
  rw [if_pos hcond] at hf
  cases hf
  have hreqn : l.required.length ≤ l.names.length := required_le
  have hne : call.combined.length ≠ l.required.length :=
    fun he => hreq ⟨hcond.1, hcond.2, .inl he⟩
  have hopt : l.required.length ≠ l.names.length := by
    intro he
    rcases hn.place with hplace | hvar
    · omega
    · exact hreq ⟨hcond.1, hcond.2, .inr ⟨he, hvar⟩⟩
  have hin : l.required.length < l.names.length := by omega
  have hic : l.required.length < call.combined.length := by omega
  have hname := List.getElem?_eq_getElem hin
  have hargs := congrArg (·[l.required.length]?) h.args
  simp only [getElem?_assignment hname] at hargs
  rw [if_neg (Nat.lt_irrefl _), Option.none_or, if_pos (by unfold filledCount; omega),
    List.getElem?_eq_getElem hic, Option.some_or] at hargs
  have hmem := List.mem_of_lookup (Option.some.inj hargs)
  exact hd.combined _ (List.getElem_mem hic) _ hmem rfl

theorem overridden_of_same {call : Call V} {k : Nat} (hd : call.Distinct)
    (hs : ScriptFits l call k) {block : Option V}
    (h : SameAssignment l (assignment l k call.combined call.keyed block)
      (assignment l (filledCount l call) call.combined call.nativeKeyed none)) :
    Overridden l call := by
  intro p hp
  have hpk : p ∈ call.keyed := by
    rw [keyed_eq]
    exact List.mem_append_right _ (List.mem_append_left _ hp)
  have hnot : p.1 ∉ l.names := by
    intro hm
    obtain ⟨i, hi⟩ := List.mem_iff_getElem?.1 hm
    have hik : ¬ i < k := by
      intro hik
      refine hs.fits.free p hpk (List.mem_iff_getElem?.2 ⟨i, ?_⟩)
      rw [List.getElem?_take, if_pos hik, hi]
    have hargs := congrArg (·[i]?) h.args
    simp only [getElem?_assignment hi] at hargs
    rw [if_neg hik, Option.none_or, lookup_mem hs.fits.once hpk hm, Option.some.injEq] at hargs
    by_cases hif : i < filledCount l call
    · have hic : i < call.combined.length := by
        unfold filledCount at hif
        omega
      rw [if_pos hif, List.getElem?_eq_getElem hic, Option.some_or, Option.some.injEq] at hargs
      exact hd.combined _ (List.getElem_mem hic) p hpk hargs
    · rw [if_neg hif, Option.none_or] at hargs
      exact hd.unread p hp _ (List.mem_of_lookup hargs.symm) rfl
  refine ⟨hnot, ?_⟩
  by_contra hent
  have hkw : l.kw.isSome = true := (hs.fits.known p hpk).resolve_left hnot
  have hextra := h.extra hkw p.1
  rw [lookup_extra, lookup_extra, keyed_eq] at hextra
  simp only [others_append, List.reverse_append, List.lookup_append, Option.or_assoc] at hextra
  have hentries : (others l.names (Call.ofEntries call.entries)).reverse.lookup p.1 = none := by
    refine lookup_none fun hm => ?_
    obtain ⟨q, hq, hqk⟩ := List.mem_map.1 hm
    exact hent (List.mem_map.2 ⟨q, (mem_others.1 (List.mem_reverse.1 hq)).1, hqk⟩)
  have hp' : p ∈ (others l.names (unreadKwargs call.kwargs)).reverse := by
    rw [List.mem_reverse, mem_others]
    exact ⟨hp, hnot⟩
  obtain ⟨v, hv⟩ := lookup_of_mem hp'
  rw [hentries, Option.none_or, hv, Option.some_or, eq_comm] at hextra
  have hread := (mem_others.1 (List.mem_reverse.1 (List.mem_of_lookup hextra))).1
  have hunread := (mem_others.1 (List.mem_reverse.1 (List.mem_of_lookup hv))).1
  exact hd.unread _ hunread _ hread rfl

theorem SameAssignment.of_holds {off off' : Nat} {locals locals' : Locals V}
    {a b a' b' : Assignment V} (h : SameAssignment l a b) (ha : Holds l off locals a)
    (ha' : Holds l off locals a') (hb : Holds l off' locals' b) (hb' : Holds l off' locals' b') :
    SameAssignment l a' b' := by
  obtain ⟨hargs, hrest, hextra, -⟩ := ha.unique ha'
  obtain ⟨hargs', hrest', hextra', -⟩ := hb.unique hb'
  refine ⟨?_, fun hv => ?_, fun hk key => ?_⟩
  · rw [← hargs, ← hargs', h.args]
  · rw [← hrest hv, ← hrest' hv, h.rest hv]
  · rw [← hextra hk, ← hextra' hk, h.extra hk key]

theorem bindAlike_of_distinct {self : Option V} {call : Call V} (hd : call.Distinct)
    (hb : call.blockarg = none) (hlen : (nativeFunction2New l.formals).args.length ≤ 8) :
    BindAlike l self call
      ↔ (¬ (∃ k, ScriptFits l call k) ∧ ¬ NativeFits l call)
        ∨ ((∃ k, ScriptFits l call k) ∧ NativeFits l call ∧ Aligned l call
          ∧ Overridden l call) := by
  unfold BindAlike
  by_cases hs : ∃ k, ScriptFits l call k
  · obtain ⟨k, hk⟩ := hs
    obtain ⟨locals, hok, hh⟩ := execFunction_ok hk self
    by_cases hn : NativeFits l call
    · obtain ⟨locals', hok', hh'⟩ := callNative_ok hn hb hlen
      constructor
      · rintro (⟨e, e', he, -⟩ | ⟨l₁, l₂, a, b, h₁, h₂, ha, hb', hsame⟩)
        · cases hok.symm.trans he
        · cases hok.symm.trans h₁
          cases hok'.symm.trans h₂
          have hsame' := hsame.of_holds ha hh hb' hh'
          exact .inr ⟨⟨k, hk⟩, hn, aligned_of_same hd hk hn hsame', overridden_of_same hd hk hsame'⟩
      · rintro (⟨hno, -⟩ | ⟨-, -, hal, ho⟩)
        · exact absurd ⟨k, hk⟩ hno
        · exact .inr ⟨locals, locals', _, _, hok, hok', hh, hh', sameAssignment_of hk hal ho⟩
    · obtain ⟨e', he'⟩ := callNative_error hn hb
      refine iff_of_false ?_ ?_
      · rintro (⟨e, -, he, -⟩ | ⟨l₁, l₂, a, b, -, h₂, -⟩)
        · cases hok.symm.trans he
        · cases he'.symm.trans h₂
      · rintro (⟨hno, -⟩ | ⟨-, hn', -⟩)
        · exact hno ⟨k, hk⟩
        · exact hn hn'
  · obtain ⟨e, he⟩ := execFunction_error hs self
    by_cases hn : NativeFits l call
    · obtain ⟨locals', hok', -⟩ := callNative_ok hn hb hlen
      refine iff_of_false ?_ ?_
      · rintro (⟨-, e', -, he'⟩ | ⟨l₁, l₂, a, b, h₁, -⟩)
        · cases hok'.symm.trans he'
        · cases he.symm.trans h₁
      · rintro (⟨-, hno⟩ | ⟨hs', -⟩)
        · exact hno hn
        · exact hs hs'
    · obtain ⟨e', he'⟩ := callNative_error hn hb
      exact iff_of_true (.inl ⟨e, e', he, he'⟩) (.inl ⟨hs, hn⟩)

/-- The two binders agree on the calls without a block that both reject, and on those that both
accept, with an aligned `*` array and nothing lost of the keyword arguments. -/
theorem bindAlike_iff (l : ParamList) (self : Option Place) (call : Call V)
    (hb : call.blockarg = none) (hlen : (nativeFunction2New l.formals).args.length ≤ 8) :
    BindAlike l self call.places
      ↔ (¬ (∃ k, ScriptFits l call.places k) ∧ ¬ NativeFits l call.places)
        ∨ ((∃ k, ScriptFits l call.places k) ∧ NativeFits l call.places
          ∧ Aligned l call.places ∧ Overridden l call.places) := by
  refine bindAlike_of_distinct (places_distinct call) ?_ hlen
  show call.blockarg.map _ = none
  rw [hb]
  rfl

/-- The parameters `a` and `b`. -/
def twoParams : ParamList where
  required := [10, 11]
  optional := []
  var := none
  kw := none
  block := none
  nodup := by decide

/-- `foo(a=1, b=2)` -/
def twoKeywords : Call Nat where
  posargs := []
  kwargs := [(10, 1), (11, 2)]
  vararg := none
  varkwarg := none
  blockarg := none
  posargc_lt := starOfTwo.posargc_lt
  kwargc_lt := by decide
  size_lt := by decide

/-- `foo(1, 2)` -/
def twoArguments : Call Nat := { twoKeywords with
  posargs := [1, 2]
  kwargs := []
  posargc_lt := by decide
  kwargc_lt := starOfTwo.kwargc_lt
  size_lt := by decide }

/-- A script function gets both, and a native one raises. -/
theorem not_bindAlike_two_keywords :
    ¬ ∀ (l : ParamList) (self : Option Place) (call : Call Nat), call.blockarg = none →
      (nativeFunction2New l.formals).args.length ≤ 8 → BindAlike l self call.places := by
  intro h
  have hok : (execFunction (some twoParams.info) none twoKeywords.places).isOk = true := rfl
  have herr : callNative (nativeFunction2New twoParams.formals) twoKeywords.places
      = .error (.wrongNumArgs 2 0) := rfl
  rcases h twoParams none twoKeywords rfl (by decide) with
    ⟨e, e', he, -⟩ | ⟨l₁, l₂, a, b, -, h₂, -⟩
  · rw [he] at hok
    cases hok
  · cases herr.symm.trans h₂

theorem bindAlike_two_arguments : BindAlike twoParams none twoArguments.places := by
  refine (bindAlike_iff twoParams none twoArguments rfl (by decide)).2 (.inr ⟨⟨2, ?_⟩, ?_, ?_, ?_⟩)
  · exact ⟨⟨by nofun, by nofun, by nofun⟩, rfl, ⟨⟨by nofun, by nofun, by decide⟩, by nofun⟩, by nofun⟩
  · exact ⟨by nofun, by nofun, .inl (by decide), ⟨⟨by nofun, by nofun, by decide⟩, by nofun⟩⟩
  · exact .inl rfl
  · nofun

end Yog
