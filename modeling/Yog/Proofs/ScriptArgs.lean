import Yog.Proofs.Arguments

/-!
# Arguments of script functions

`fill_args` fills parameters from the `*` array only up to the last required one, and wants the
array to reach it. So it is right when there is no `*` array, when the positional arguments alone
are too many, when the array ends with the required parameters, or when there are no optional ones
and a `*` parameter takes the rest. Otherwise it is right only in raising.
-/

namespace Yog

open Binding

variable {V : Type} {l : ParamList} {off : Nat}

theorem kwIndex_info : kwIndex l.info off = kwAt l off := by
  unfold kwIndex kwAt varAt ParamList.info
  rcases l.var with _ | _ <;> simp [Nat.add_assoc]

theorem blockIndex_info : blockIndex l.info off = blockAt l off := by
  unfold blockIndex blockAt
  rw [kwIndex_info]
  unfold ParamList.info
  rcases l.kw with _ | _ <;> rfl

theorem kwargc_pos : 0 < l.info.kwargc ↔ l.kw.isSome = true := by
  unfold ParamList.info
  rcases l.kw with _ | _ <;> simp

theorem varargc_pos : 0 < l.info.varargc ↔ l.var.isSome = true := by
  unfold ParamList.info
  rcases l.var with _ | _ <;> simp

theorem varargc_ne : l.info.varargc ≠ 1 ↔ l.var.isSome = false := by
  unfold ParamList.info
  rcases l.var with _ | _ <;> simp

theorem blockargc_ne : l.info.blockargc ≠ 1 ↔ l.block.isSome = false := by
  unfold ParamList.info
  rcases l.block with _ | _ <;> simp

theorem assignKeywordArg_eq (locals : Locals V) (name : ID) (v : V) :
    assignKeywordArg l.info off locals name v
      = keywordStep l.names off (dictAt l off) locals name v := by
  unfold assignKeywordArg keywordStep dictAt
  rw [show l.info.argnames = l.names from rfl]
  rcases l.names.idxOf? name with _ | i
  · by_cases hk : l.kw.isSome = true
    · simp only [kwargc_pos, hk, if_true, kwIndex_info]
    · simp only [kwargc_pos, hk, if_false, Bool.false_eq_true]
  · rfl

theorem assignKwargs_eq : ∀ (ps : List (ID × V)) (locals : Locals V),
    assignKwargs l.info off locals ps = keywordSteps l.names off (dictAt l off) locals ps
  | [], _ => rfl
  | p :: ps, locals => by
    unfold assignKwargs keywordSteps
    rw [assignKeywordArg_eq]
    rcases keywordStep l.names off (dictAt l off) locals p.1 p.2 with e | locals'
    · rfl
    · exact assignKwargs_eq ps locals'

theorem assignVarkwarg_eq : ∀ (entries : List (Key × V)) (locals : Locals V),
    (∀ e ∈ entries, e.1.symbol?.isSome = true) →
    assignVarkwarg l.info off locals entries
      = keywordSteps l.names off (dictAt l off) locals (Call.ofEntries entries)
  | [], _, _ => rfl
  | (key, v) :: entries, locals, h => by
    cases key with
    | other bits => cases h _ List.mem_cons_self
    | symbol id =>
      unfold assignVarkwarg Call.ofEntries
      rw [List.map_cons, keywordSteps]
      simp only [Key.symbol?, assignKeywordArg_eq, Key.val2id]
      rcases keywordStep l.names off (dictAt l off) locals id v with e | locals'
      · rfl
      · exact assignVarkwarg_eq entries locals' fun e he => h e (List.mem_cons_of_mem _ he)

theorem assignVarkwarg_error : ∀ (entries : List (Key × V)) (locals : Locals V),
    (¬ ∀ e ∈ entries, e.1.symbol?.isSome = true) →
    ∃ e, assignVarkwarg l.info off locals entries = .error e
  | [], _, h => absurd (by simp) h
  | (key, v) :: entries, locals, h => by
    cases key with
    | other bits => exact ⟨_, rfl⟩
    | symbol id =>
      unfold assignVarkwarg
      simp only [Key.symbol?]
      rcases assignKeywordArg l.info off locals id v with e | locals'
      · exact ⟨e, rfl⟩
      · refine assignVarkwarg_error entries locals' fun h' => h ?_
        intro e he
        rcases List.mem_cons.1 he with rfl | he
        · rfl
        · exact h' e he

theorem keywordSteps_append {names : List ID} {dictAt : Option Nat} {qs : List (ID × V)} :
    ∀ (ps : List (ID × V)) (locals : Locals V),
      keywordSteps names off dictAt locals (ps ++ qs)
        = (keywordSteps names off dictAt locals ps).bind
          (keywordSteps names off dictAt · qs)
  | [], _ => rfl
  | p :: ps, locals => by
    rw [List.cons_append, keywordSteps, keywordSteps]
    rcases keywordStep names off dictAt locals p.1 p.2 with e | locals'
    · rfl
    · exact keywordSteps_append ps locals'

theorem storeFrom_append : ∀ (vs ws : List V) (locals : Locals V) (i : Nat),
    locals.storeFrom i (vs ++ ws) = (locals.storeFrom i vs).storeFrom (i + vs.length) ws
  | [], _, _, _ => rfl
  | v :: vs, ws, locals, i => by
    rw [List.cons_append, Locals.storeFrom, Locals.storeFrom, storeFrom_append, List.length_cons,
      Nat.add_right_comm, Nat.add_assoc]

theorem storeFrom_other : ∀ (vs : List V) (locals : Locals V) {i j : Nat},
    j < i ∨ i + vs.length ≤ j → locals.storeFrom i vs j = locals j
  | [], _, _, _, _ => rfl
  | v :: vs, locals, i, j, h => by
    rw [List.length_cons] at h
    rw [Locals.storeFrom, storeFrom_other vs _ (by omega), Locals.store_of_ne (by omega)]

theorem storeFrom_get : ∀ (vs : List V) (locals : Locals V) {i k : Nat} {v : V},
    vs[k]? = some v → locals.storeFrom i vs (i + k) = .val v
  | v :: vs, locals, i, 0, w, h => by
    cases h
    rw [Locals.storeFrom, storeFrom_other vs _ (by omega), Nat.add_zero, Locals.store_self]
  | v :: vs, locals, i, k + 1, w, h => by
    rw [Locals.storeFrom, show i + (k + 1) = i + 1 + k from by omega]
    exact storeFrom_get vs _ (by simpa using h)

/-- The places with the first `k` of `vals`, and the others in the `*` parameter. -/
def fillPlaces (l : ParamList) (off k : Nat) (vals : List V) (locals : Locals V) : Locals V :=
  let locals := locals.storeFrom off (vals.take k)
  if l.var.isSome then locals.store (varAt l off) (.array (vals.drop l.names.length)) else locals

/-- The places `fill_args` starts from. -/
def firstPlaces (l : ParamList) (off : Nat) (locals : Locals V) : Locals V :=
  if l.kw.isSome then locals.store (kwAt l off) (.dict ∅) else locals

theorem firstPlaces_of_ne {locals : Locals V} {j : Nat} (hj : j ≠ kwAt l off) :
    firstPlaces l off locals j = locals j := by
  unfold firstPlaces
  by_cases hkw : l.kw.isSome = true
  · rw [if_pos hkw, Locals.store_of_ne hj]
  · rw [if_neg hkw]

theorem firstPlaces_kwAt {locals : Locals V} (hkw : l.kw.isSome = true) :
    firstPlaces l off locals (kwAt l off) = .dict ∅ := by
  unfold firstPlaces
  rw [if_pos hkw, Locals.store_self]

theorem firstPlaces_no_kw {locals : Locals V} (hkw : ¬ l.kw.isSome = true) :
    firstPlaces l off locals = locals := if_neg hkw

theorem placed_fillPlaces {k : Nat} {vals : List V} {locals : Locals V} (hk : k ≤ l.names.length)
    (hv : k ≤ vals.length) (hnew : ∀ j, off ≤ j → locals j = .undef) :
    Placed l off k vals (fillPlaces l off k vals (firstPlaces l off locals)) := by
  have hlen : (vals.take k).length = k := by rw [List.length_take, Nat.min_eq_left hv]
  have hplaces : ∀ j, j ≠ varAt l off → fillPlaces l off k vals (firstPlaces l off locals) j
      = (firstPlaces l off locals).storeFrom off (vals.take k) j := by
    intro j hj
    unfold fillPlaces
    by_cases hvar : l.var.isSome = true
    · rw [if_pos hvar, Locals.store_of_ne hj]
    · rw [if_neg hvar]
  refine ⟨fun i hi => ?_, fun hvar => ?_, fun hkw => ?_, fun hblk => ?_⟩
  · rw [hplaces _ (by unfold varAt; omega)]
    by_cases hik : i < k
    · have hget := List.getElem?_eq_getElem (Nat.lt_of_lt_of_le hik hv)
      rw [if_pos hik, hget]
      exact storeFrom_get _ _ (by rw [List.getElem?_take, if_pos hik, hget])
    · rw [if_neg hik, storeFrom_other _ _ (by rw [hlen]; omega)]
      rw [firstPlaces_of_ne (by unfold kwAt varAt; omega), hnew _ (by omega)]
      rfl
  · unfold fillPlaces
    rw [if_pos hvar, Locals.store_self]
  · have hle : off + l.names.length ≤ kwAt l off := le_kwAt
    have hne : kwAt l off ≠ varAt l off ∨ l.var.isSome = false := by
      rcases hvar : l.var.isSome with _ | _
      · exact .inr rfl
      · left
        rw [kwAt, if_pos hvar]
        omega
    have hkwAt : (firstPlaces l off locals).storeFrom off (vals.take k) (kwAt l off)
        = .dict ∅ := by
      rw [storeFrom_other _ _ (by rw [hlen]; omega), firstPlaces_kwAt hkw]
    rcases hne with hne | hvar
    · rw [hplaces _ hne, hkwAt]
    · unfold fillPlaces
      rw [if_neg (by rw [hvar]; exact Bool.false_ne_true), hkwAt]
  · have hle : off + l.names.length ≤ kwAt l off := le_kwAt
    by_cases hb : blockAt l off = varAt l off
    · -- Neither of the two parameters before the block is there.
      have hvar : ¬ l.var.isSome = true := by
        intro h
        rw [blockAt, kwAt, if_pos h] at hb
        omega
      have hkw : ¬ l.kw.isSome = true := by
        intro h
        rw [blockAt, if_pos h, kwAt] at hb
        omega
      unfold fillPlaces
      rw [if_neg hvar, storeFrom_other _ _ (by rw [hlen]; unfold blockAt; omega),
        firstPlaces_no_kw hkw, hnew _ (by unfold blockAt; omega)]
    · rw [hplaces _ hb, storeFrom_other _ _ (by rw [hlen]; unfold blockAt; omega)]
      by_cases hkw : l.kw.isSome = true
      · rw [firstPlaces_of_ne (by rw [blockAt, if_pos hkw]; omega),
          hnew _ (by unfold blockAt; omega)]
      · rw [firstPlaces_no_kw hkw, hnew _ (by unfold blockAt; omega)]

/-- The number of parameters `fill_args` fills by position, when it does not raise there. -/
def scriptFilled (l : ParamList) (call : Call V) : Option Nat :=
  let posargc := call.posargs.length
  if l.names.length < posargc then if l.var.isSome then some l.names.length else none
  else
    match call.vararg with
    | none => some posargc
    | some v =>
      if posargc ≤ l.required.length ∧ l.required.length ≤ posargc + v.size then
        some l.required.length
      else none

theorem scriptFilled_array {call : Call V} {elems : List V}
    (hp : ¬ l.names.length < call.posargs.length) (hv : call.vararg = some (.array elems)) :
    scriptFilled l call = if call.posargs.length ≤ l.required.length
      ∧ l.required.length ≤ call.posargs.length + elems.length then some l.required.length
      else none := by
  unfold scriptFilled
  rw [if_neg hp]
  simp only [hv]
  rfl

def fillPositional (info : ArgInfo) (off : Nat) (call : Call V) (locals : Locals V) :
    Except ArgError (Locals V) :=
  if info.argc < call.posargs.length then fillMore info off call locals
  else fillFewer info off call locals

theorem required_le : l.required.length ≤ l.names.length := by
  unfold ParamList.names
  rw [List.length_append]
  omega

theorem fillMore_eq {call : Call V} {locals : Locals V}
    (hp : l.names.length < call.posargs.length)
    (hw : ∀ v, call.vararg = some v → v = .array v.elems) (hvar : l.var.isSome = true) :
    fillMore l.info off call locals = .ok (fillPlaces l off l.names.length call.combined locals) := by
  unfold fillMore fillPlaces Call.combined
  simp only
  rw [if_neg (by rw [varargc_ne, hvar]; exact Bool.noConfusion), if_pos hvar,
    List.take_append_of_le_length (Nat.le_of_lt hp), List.drop_append_of_le_length (Nat.le_of_lt hp)]
  rcases hv : call.vararg with _ | (elems | _)
  · simp only [Option.map_none, Option.getD_none, List.append_nil]
    rfl
  · rfl
  · cases hw _ hv

theorem fillVar_eq {call : Call V} {locals : Locals V}
    (hp : call.posargs.length ≤ l.names.length)
    (hw : ∀ v, call.vararg = some v → v = .array v.elems) :
    fillVar l.info off call locals = .ok (if l.var.isSome then
      locals.store (varAt l off) (.array (call.combined.drop l.names.length)) else locals) := by
  unfold fillVar Call.combined
  by_cases hvar : l.var.isSome = true
  · rw [if_pos (varargc_pos.2 hvar), if_pos hvar]
    rcases hv : call.vararg with _ | (elems | _)
    · simp only [Option.map_none, Option.getD_none, List.append_nil]
      rw [List.drop_eq_nil_of_le hp]
      rfl
    · simp only [Option.map_some, Option.getD_some]
      rw [List.drop_append, List.drop_eq_nil_of_le hp]
      rfl
    · cases hw _ hv
  · rw [if_neg (fun h => hvar (varargc_pos.1 h)), if_neg hvar]

theorem fillFewer_eq {call : Call V} {locals : Locals V} {k : Nat}
    (hp : call.posargs.length ≤ l.names.length)
    (hw : ∀ v, call.vararg = some v → v = .array v.elems) (hk : scriptFilled l call = some k) :
    fillFewer l.info off call locals = .ok (fillPlaces l off k call.combined locals) := by
  unfold fillFewer fillRequired fillPlaces
  rcases hv : call.vararg with _ | (elems | _)
  · unfold scriptFilled at hk
    rw [if_neg (Nat.not_lt.2 hp), hv] at hk
    cases hk
    have hc : call.combined = call.posargs := by
      unfold Call.combined
      rw [hv]
      exact List.append_nil _
    rw [hc, List.take_length, ← hc]
    exact fillVar_eq hp hw
  · rw [scriptFilled_array (Nat.not_lt.2 hp) hv] at hk
    by_cases hreq : call.posargs.length ≤ l.required.length
      ∧ l.required.length ≤ call.posargs.length + elems.length
    · rw [if_pos hreq] at hk
      cases hk
      have hlt : ¬ elems.length < uintSub l.info.requiredArgc call.posargs.length := by
        unfold uintSub
        rw [show l.info.requiredArgc = l.required.length from rfl, if_pos hreq.1]
        omega
      have hc : call.combined = call.posargs ++ elems := by
        unfold Call.combined
        rw [hv]
        rfl
      have htake : call.combined.take l.required.length
          = call.posargs ++ elems.take (l.required.length - call.posargs.length) := by
        rw [hc, List.take_append, List.take_of_length_le hreq.1]
      rw [htake, storeFrom_append]
      simp only [if_neg hlt]
      exact fillVar_eq hp hw
    · rw [if_neg hreq] at hk
      cases hk
  · cases hw _ hv

/-- Filling by position. -/
theorem fillPositional_ok {call : Call V} {locals : Locals V} {k : Nat}
    (hw : ∀ v, call.vararg = some v → v = .array v.elems) (hk : scriptFilled l call = some k) :
    fillPositional l.info off call locals = .ok (fillPlaces l off k call.combined locals) := by
  unfold fillPositional
  rw [show l.info.argc = l.names.length from rfl]
  by_cases hp : l.names.length < call.posargs.length
  · rw [if_pos hp]
    unfold scriptFilled at hk
    rw [if_pos hp] at hk
    by_cases hvar : l.var.isSome = true
    · rw [if_pos hvar] at hk
      cases hk
      exact fillMore_eq hp hw hvar
    · rw [if_neg hvar] at hk
      cases hk
  · rw [if_neg hp]
    exact fillFewer_eq (Nat.le_of_not_lt hp) hw hk

theorem fillPositional_error {call : Call V} (off : Nat) (locals : Locals V)
    (h : (¬ ∀ v, call.vararg = some v → v = .array v.elems) ∨ scriptFilled l call = none) :
    ∃ e, fillPositional l.info off call locals = .error e := by
  unfold fillPositional
  rw [show l.info.argc = l.names.length from rfl]
  have hother : (¬ ∀ v, call.vararg = some v → v = .array v.elems) →
      call.vararg = some .other := by
    intro h
    rcases hv : call.vararg with _ | (elems | _)
    · exact absurd (by simp [hv]) h
    · refine absurd (fun v hv' => ?_) h
      cases hv.symm.trans hv'
      rfl
    · rfl
  by_cases hp : l.names.length < call.posargs.length
  · rw [if_pos hp]
    unfold fillMore
    by_cases hvar : l.var.isSome = true
    · rcases h with h | h
      · simp only [hother h]
        split <;> exact ⟨_, rfl⟩
      · unfold scriptFilled at h
        rw [if_pos hp, if_pos hvar] at h
        cases h
    · simp only
      rw [if_pos (varargc_ne.2 (by simpa using hvar))]
      exact ⟨_, rfl⟩
  · rw [if_neg hp]
    unfold fillFewer fillRequired
    rcases h with h | h
    · simp only [hother h]
      exact ⟨_, rfl⟩
    · rcases hv : call.vararg with _ | (elems | _)
      · unfold scriptFilled at h
        rw [if_neg hp, hv] at h
        cases h
      · rw [scriptFilled_array hp hv] at h
        have hreq : ¬ (call.posargs.length ≤ l.required.length
            ∧ l.required.length ≤ call.posargs.length + elems.length) := by
          intro hreq
          rw [if_pos hreq] at h
          cases h
        have hlt : elems.length < uintSub l.info.requiredArgc call.posargs.length := by
          have hsize := call.size_lt
          simp only [hv, Option.map_some, Option.getD_some, Vararg.size, Vararg.elems] at hsize
          unfold uintSub
          rw [show l.info.requiredArgc = l.required.length from rfl]
          split <;> omega
        simp only [if_pos hlt]
        exact ⟨_, rfl⟩
      · exact ⟨_, rfl⟩

theorem scriptFilled_le {call : Call V} {k : Nat} (hk : scriptFilled l call = some k) :
    k ≤ l.names.length ∧ k ≤ call.combined.length := by
  unfold scriptFilled at hk
  unfold Call.combined
  rw [List.length_append]
  have hreq : l.required.length ≤ l.names.length := required_le
  by_cases hp : l.names.length < call.posargs.length
  · rw [if_pos hp] at hk
    by_cases hvar : l.var.isSome = true
    · rw [if_pos hvar] at hk
      cases hk
      omega
    · rw [if_neg hvar] at hk
      cases hk
  · rw [if_neg hp] at hk
    rcases hv : call.vararg with _ | v
    · rw [hv] at hk
      cases hk
      omega
    · simp only [hv] at hk
      split at hk
      · cases hk
        simp only [Option.map_some, Option.getD_some]
        unfold Vararg.size at *
        omega
      · cases hk

/-- What `fill_args` asks for. -/
structure ScriptFits (l : ParamList) (call : Call V) (k : Nat) : Prop where
  typed : call.WellTyped
  filled : scriptFilled l call = some k
  fits : Fits l call.keyed k
  block : call.blockarg.isSome = true → l.block.isSome = true

theorem newLocals_undef (self : Option V) :
    ∀ j, (newLocals self).1 ≤ j → (newLocals self).2 j = .undef := by
  intro j hj
  cases self with
  | none => rfl
  | some self =>
    show Locals.store (fun _ => .undef) 0 (.val self) j = .undef
    exact Locals.store_of_ne (Nat.ne_of_gt hj)

/-- The keyword arguments and the `**` argument are one pass. -/
theorem fillVarkwarg_eq {call : Call V} (hw : call.WellTyped) (locals : Locals V) :
    ((assignKwargs l.info off locals call.kwargs).bind (fillVarkwarg l.info off call))
      = keywordSteps l.names off (dictAt l off) locals call.keyed := by
  have hentries : ∀ locals', fillVarkwarg l.info off call locals'
      = keywordSteps l.names off (dictAt l off) locals' (Call.ofEntries call.entries) := by
    intro locals'
    unfold fillVarkwarg
    rcases hv : call.varkwarg with _ | (entries | _)
    · unfold Call.entries
      rw [hv]
      rfl
    · have he : call.entries = entries := by
        unfold Call.entries
        rw [hv]
        rfl
      rw [he]
      exact assignVarkwarg_eq entries locals' (he ▸ hw.keys)
    · cases hw.varkwarg _ hv
  unfold Call.keyed
  rw [keywordSteps_append, assignKwargs_eq]
  exact congrArg _ (funext hentries)

theorem fillBlock_ok {call : Call V} {k : Nat} {vals : List V} {keyed : List (ID × V)}
    {locals : Locals V} (hb : call.blockarg.isSome = true → l.block.isSome = true)
    (hh : Holds l off locals (assignment l k vals keyed none)) :
    ∃ locals', fillBlock l.info off call locals = .ok locals'
      ∧ Holds l off locals' (assignment l k vals keyed call.blockarg) := by
  unfold fillBlock
  rcases hv : call.blockarg with _ | b
  · exact ⟨locals, rfl, hh⟩
  · have hblk := hb (by rw [hv]; rfl)
    have hne : ¬ l.info.blockargc ≠ 1 := by
      rw [blockargc_ne, hblk]
      exact Bool.noConfusion
    have hle : off + l.names.length ≤ kwAt l off := le_kwAt
    simp only [if_neg hne, blockIndex_info]
    refine ⟨_, rfl, hh.length, fun i arg ha => ?_, fun hvar => ?_, fun hkw => ?_, fun _ => ?_⟩
    · have hi : i < l.names.length := by
        rw [← hh.length]
        exact (List.getElem?_eq_some_iff.1 ha).1
      rw [Locals.store_of_ne (by unfold blockAt; omega)]
      exact hh.args i arg ha
    · rw [Locals.store_of_ne (by rw [blockAt, kwAt, if_pos hvar]; omega)]
      exact hh.rest hvar
    · rw [Locals.store_of_ne (by rw [blockAt, if_pos hkw]; omega)]
      exact hh.extra hkw
    · exact Locals.store_self ..

theorem fillArgsOf_eq (call : Call V) (locals : Locals V) :
    fillArgsOf l.info off call locals
      = (fillPositional l.info off call (firstPlaces l off locals)).bind fun locals =>
        ((assignKwargs l.info off locals call.kwargs).bind (fillVarkwarg l.info off call)).bind
          fun locals => (fillBlock l.info off call locals).bind
            (checkArgsAssigned l.info off call) := by
  have hfirst : (if 0 < l.info.kwargc then locals.store (kwIndex l.info off) (.dict ∅) else locals)
      = firstPlaces l off locals := by
    unfold firstPlaces
    rw [kwIndex_info]
    by_cases hk : l.kw.isSome = true
    · rw [if_pos (kwargc_pos.2 hk), if_pos hk]
    · rw [if_neg (fun h => hk (kwargc_pos.1 h)), if_neg hk]
  unfold fillArgsOf fillPositional
  simp only [hfirst]
  have hrest : ∀ locals : Locals V,
      ((assignKwargs l.info off locals call.kwargs).bind fun locals =>
        (fillVarkwarg l.info off call locals).bind fun locals =>
          (fillBlock l.info off call locals).bind (checkArgsAssigned l.info off call))
      = ((assignKwargs l.info off locals call.kwargs).bind (fillVarkwarg l.info off call)).bind
          fun locals => (fillBlock l.info off call locals).bind
            (checkArgsAssigned l.info off call) := by
    intro locals
    rcases assignKwargs l.info off locals call.kwargs with e | locals <;> rfl
  by_cases hp : l.info.argc < call.posargs.length
  · rw [if_pos hp, if_pos hp]
    rcases fillMore l.info off call (firstPlaces l off locals) with e | locals
    · rfl
    · exact hrest locals
  · rw [if_neg hp, if_neg hp]
    rcases fillFewer l.info off call (firstPlaces l off locals) with e | locals
    · rfl
    · exact hrest locals

theorem checkArgsAssigned_eq (call : Call V) (locals : Locals V) :
    ((∃ i < l.required.length, (locals (off + i)).isUndef = true) →
        ∃ e, checkArgsAssigned l.info off call locals = .error e)
      ∧ ((¬ ∃ i < l.required.length, (locals (off + i)).isUndef = true) →
        checkArgsAssigned l.info off call locals = .ok locals) := by
  have hany : ((List.range l.info.requiredArgc).any fun i => (locals (off + i)).isUndef) = true
      ↔ ∃ i < l.required.length, (locals (off + i)).isUndef = true := by
    rw [List.any_eq_true, show l.info.requiredArgc = l.required.length from rfl]
    simp only [List.mem_range]
  unfold checkArgsAssigned
  refine ⟨fun h => ?_, fun h => ?_⟩
  · rw [if_pos (hany.2 h)]
    exact ⟨_, rfl⟩
  · rw [if_neg (fun h' => h (hany.1 h'))]

theorem fillBlock_error {call : Call V} (off : Nat) (locals : Locals V)
    (hb : ¬ (call.blockarg.isSome = true → l.block.isSome = true)) :
    ∃ e, fillBlock l.info off call locals = .error e := by
  unfold fillBlock
  rcases hv : call.blockarg with _ | b
  · exact absurd (by rw [hv]; exact fun h => nomatch h) hb
  · have hblk : l.block.isSome = false := by
      rw [hv] at hb
      simpa using hb
    exact ⟨_, if_pos (blockargc_ne.2 hblk)⟩

theorem execFunction_ok {call : Call V} {k : Nat} (h : ScriptFits l call k) (self : Option V) :
    ∃ locals, execFunction (some l.info) self call = .ok locals
      ∧ Holds l (newLocals self).1 locals
        (assignment l k call.combined call.keyed call.blockarg) := by
  obtain ⟨hk, hv⟩ := scriptFilled_le h.filled
  have hplaced := placed_fillPlaces hk hv (newLocals_undef self)
  obtain ⟨locals₁, h₁, hh₁⟩ :=
    (keywordSteps_placed hplaced hv call.keyed).1 h.fits.toKeywordsFit
  obtain ⟨locals₂, h₂, hh₂⟩ := fillBlock_ok h.block hh₁
  have hbound : ¬ ∃ i < l.required.length,
      (locals₂ ((newLocals self).1 + i)).isUndef = true := by
    rw [unbound_iff hv hh₂]
    rintro ⟨name, hm, hn⟩
    exact hn (h.fits.bound name hm)
  refine ⟨locals₂, ?_, hh₂⟩
  unfold execFunction fillArgs
  simp only
  rw [fillArgsOf_eq, fillPositional_ok h.typed.vararg h.filled]
  show Except.bind (Except.bind (assignKwargs ..) _) _ = _
  rw [fillVarkwarg_eq h.typed, h₁]
  show Except.bind (fillBlock ..) _ = _
  rw [h₂]
  exact (checkArgsAssigned_eq call locals₂).2 hbound

theorem execFunction_error {call : Call V} (h : ¬ ∃ k, ScriptFits l call k) (self : Option V) :
    ∃ e, execFunction (some l.info) self call = .error e := by
  unfold execFunction fillArgs
  simp only
  rw [fillArgsOf_eq]
  by_cases hva : ∀ v, call.vararg = some v → v = .array v.elems
  swap
  · obtain ⟨e, he⟩ := fillPositional_error (l := l) (newLocals self).1
      (firstPlaces l (newLocals self).1 (newLocals self).2) (.inl hva)
    rw [he]
    exact ⟨e, rfl⟩
  rcases hk : scriptFilled l call with _ | k
  · obtain ⟨e, he⟩ := fillPositional_error (newLocals self).1
      (firstPlaces l (newLocals self).1 (newLocals self).2) (.inr hk)
    rw [he]
    exact ⟨e, rfl⟩
  obtain ⟨hkn, hkv⟩ := scriptFilled_le hk
  rw [fillPositional_ok hva hk]
  show ∃ e, Except.bind (Except.bind (assignKwargs ..) _) _ = .error e
  have hplaced := placed_fillPlaces hkn hkv (newLocals_undef self)
  by_cases hw : call.WellTyped
  swap
  · -- The `**` argument is no dictionary, or has a key that is no symbol.
    rcases assignKwargs l.info (newLocals self).1 _ call.kwargs with e | locals
    · exact ⟨e, rfl⟩
    · have herr : ∃ e, fillVarkwarg l.info (newLocals self).1 call locals = .error e := by
        unfold fillVarkwarg
        rcases hv : call.varkwarg with _ | (entries | _)
        · refine absurd ⟨hva, by simp [hv], ?_⟩ hw
          unfold Call.entries
          simp [hv]
        · refine assignVarkwarg_error entries locals fun hs => hw ⟨hva, ?_, ?_⟩
          · intro v hv'
            cases hv.symm.trans hv'
            rfl
          · unfold Call.entries
            rw [hv]
            exact hs
        · exact ⟨_, rfl⟩
      obtain ⟨e, he⟩ := herr
      exact ⟨e, congrArg (Except.bind · _) he⟩
  rw [fillVarkwarg_eq hw]
  by_cases hkf : KeywordsFit l call.keyed k
  swap
  · obtain ⟨e, he⟩ := (keywordSteps_placed hplaced hkv call.keyed).2 hkf
    rw [he]
    exact ⟨e, rfl⟩
  obtain ⟨locals₁, h₁, hh₁⟩ := (keywordSteps_placed hplaced hkv call.keyed).1 hkf
  rw [h₁]
  show ∃ e, Except.bind (fillBlock ..) _ = .error e
  by_cases hb : call.blockarg.isSome = true → l.block.isSome = true
  swap
  · obtain ⟨e, he⟩ := fillBlock_error (newLocals self).1 locals₁ hb
    rw [he]
    exact ⟨e, rfl⟩
  obtain ⟨locals₂, h₂, hh₂⟩ := fillBlock_ok hb hh₁
  rw [h₂]
  refine (checkArgsAssigned_eq call locals₂).1 ?_
  rw [unbound_iff hkv hh₂]
  by_contra hn
  refine h ⟨k, hw, hk, ⟨hkf, fun name hm => ?_⟩, hb⟩
  by_contra hm'
  exact hn ⟨name, hm, hm'⟩

/-- How many parameters the sequence of positional arguments fills. -/
def filledCount (l : ParamList) (call : Call V) : Nat := min l.names.length call.combined.length

/-- The positional arguments fill the parameters from left to right and what remains goes to the
`*` parameter, and every keyword pair goes to its parameter or, once, to the `**` dictionary. -/
structure Binds (l : ParamList) (call : Call V) (a : Assignment V) : Prop where
  placed : ∀ i < filledCount l call, a.args[i]? = some call.combined[i]?
  keyword : ∀ p ∈ call.keyed, ∀ i : Nat, l.names[i]? = some p.1 → a.args[i]? = some (some p.2)
  unbound : ∀ (i : Nat) (name : ID), l.names[i]? = some name → call.combined.length ≤ i →
    name ∉ call.keyed.map Prod.fst → a.args[i]? = some none
  rest : l.var.isSome = true → a.rest = call.combined.drop l.names.length
  extra : l.kw.isSome = true →
    a.extra.entries.Perm ((others l.names call.keyed).map Prod.toSigma)
  block : l.block.isSome = true → a.block = call.blockarg

/-- A required parameter stays unbound, an argument has no place, a keyword names no parameter and
there is no `**` parameter, or a parameter is given twice. What stands after `*` and `**` has to be
an array and a dictionary of keywords. -/
def MustRaise (l : ParamList) (call : Call V) : Prop :=
  ¬ call.WellTyped
    ∨ (∃ name ∈ l.required.drop (filledCount l call), name ∉ call.keyed.map Prod.fst)
    ∨ (l.names.length < call.combined.length ∧ l.var.isSome = false)
    ∨ (call.blockarg.isSome = true ∧ l.block.isSome = false)
    ∨ (∃ p ∈ call.keyed, p.1 ∉ l.names ∧ l.kw.isSome = false)
    ∨ (∃ p ∈ call.keyed, p.1 ∈ l.names.take (filledCount l call))
    ∨ ¬ ((call.keyed.map Prod.fst).filter (· ∈ l.names)).Nodup

/-- The call raises exactly when it must, and otherwise the frame has every argument in its
place. -/
def BindsRight (l : ParamList) (self : Option V) (call : Call V) : Prop :=
  (MustRaise l call ∧ ∃ e, execFunction (some l.info) self call = .error e)
    ∨ (¬ MustRaise l call ∧ ∃ locals, execFunction (some l.info) self call = .ok locals
      ∧ ∃ a, Holds l (newLocals self).1 locals a ∧ Binds l call a)

theorem not_mustRaise_iff {call : Call V} :
    ¬ MustRaise l call ↔ call.WellTyped ∧ Fits l call.keyed (filledCount l call)
      ∧ (call.combined.length ≤ l.names.length ∨ l.var.isSome = true)
      ∧ (call.blockarg.isSome = true → l.block.isSome = true) := by
  unfold MustRaise
  constructor
  · intro h
    simp only [not_or] at h
    obtain ⟨hw, hb, hn, hblk, hk, hf, ho⟩ := h
    refine ⟨not_not.1 hw, ⟨⟨fun p hp => ?_, fun p hp hm => hf ⟨p, hp, hm⟩, not_not.1 ho⟩,
      fun name hm => ?_⟩, ?_, fun h => ?_⟩
    · by_contra h
      rw [not_or] at h
      exact hk ⟨p, hp, h.1, by simpa using h.2⟩
    · by_contra h
      exact hb ⟨name, hm, h⟩
    · by_contra h
      rw [not_or] at h
      exact hn ⟨Nat.lt_of_not_le h.1, by simpa using h.2⟩
    · by_contra h'
      exact hblk ⟨h, by simpa using h'⟩
  · rintro ⟨hw, ⟨⟨hk, hf, ho⟩, hb⟩, hn, hblk⟩
    rintro (h | ⟨name, hm, h⟩ | ⟨h, hv⟩ | ⟨h, hb'⟩ | ⟨p, hp, h, hkw⟩ | ⟨p, hp, h⟩ | h)
    · exact h hw
    · exact h (hb name hm)
    · rcases hn with hn | hn
      · omega
      · rw [hv] at hn
        cases hn
    · rw [hblk h] at hb'
      cases hb'
    · rcases hk p hp with hk | hk
      · exact h hk
      · rw [hkw] at hk
        cases hk
    · exact hf p hp h
    · exact h ho

/-- No `*` array, or more positional arguments than parameters, or an array that reaches the last
required parameter and either ends there or has its rest go to a `*` parameter where there are no
optional ones. -/
def Aligned (l : ParamList) (call : Call V) : Prop :=
  call.vararg = none ∨ l.names.length < call.posargs.length
    ∨ (call.posargs.length ≤ l.required.length ∧ l.required.length ≤ call.combined.length
      ∧ (call.combined.length = l.required.length
        ∨ (l.required.length = l.names.length ∧ l.var.isSome = true)))

theorem length_combined (call : Call V) : call.combined.length
    = call.posargs.length + (call.vararg.map Vararg.size).getD 0 := by
  unfold Call.combined
  rw [List.length_append]
  rcases call.vararg with _ | v <;> rfl

theorem scriptFilled_some {call : Call V} {v : Vararg V} (hv : call.vararg = some v)
    (hp : call.posargs.length ≤ l.names.length) :
    scriptFilled l call = if call.posargs.length ≤ l.required.length
      ∧ l.required.length ≤ call.combined.length then some l.required.length else none := by
  unfold scriptFilled
  rw [if_neg (Nat.not_lt.2 hp), length_combined, hv]
  rfl

theorem scriptFilled_aligned {call : Call V} (h : Aligned l call) :
    scriptFilled l call = if call.combined.length ≤ l.names.length ∨ l.var.isSome = true then
      some (filledCount l call) else none := by
  have hreq : l.required.length ≤ l.names.length := required_le
  have hlen := length_combined call
  unfold filledCount
  by_cases hp : l.names.length < call.posargs.length
  · have hno : ¬ call.combined.length ≤ l.names.length := by omega
    unfold scriptFilled
    rw [if_pos hp, Nat.min_eq_left (by omega)]
    simp only [hno, false_or]
  · rcases hv : call.vararg with _ | v
    · rw [hv, Option.map_none, Option.getD_none] at hlen
      unfold scriptFilled
      rw [if_neg hp, hv, if_pos (.inl (by omega)), Nat.min_eq_right (by omega), hlen]
      rfl
    · rw [scriptFilled_some hv (by omega)]
      rcases h with h | h | ⟨h₁, h₂, h₃⟩
      · rw [hv] at h
        cases h
      · exact absurd h hp
      · rw [if_pos ⟨h₁, h₂⟩]
        rcases h₃ with h₃ | ⟨h₃, hvar⟩
        · rw [if_pos (.inl (by omega)), Nat.min_eq_right (by omega), h₃]
        · rw [if_pos (.inr hvar), Nat.min_eq_left (by omega), h₃]

theorem scriptFits_aligned {call : Call V} (h : Aligned l call) :
    ¬ MustRaise l call ↔ ScriptFits l call (filledCount l call) := by
  rw [not_mustRaise_iff]
  have hs := scriptFilled_aligned h
  constructor
  · rintro ⟨hw, hf, hn, hb⟩
    rw [if_pos hn] at hs
    exact ⟨hw, hs, hf, hb⟩
  · rintro ⟨hw, hs', hf, hb⟩
    refine ⟨hw, hf, ?_, hb⟩
    by_contra hn
    rw [if_neg hn, hs'] at hs
    cases hs

theorem filled_of_scriptFits {call : Call V} {k : Nat} (h : Aligned l call)
    (hs : ScriptFits l call k) : k = filledCount l call := by
  have := scriptFilled_aligned h
  rw [hs.filled] at this
  split at this
  · exact Option.some.inj this
  · cases this

theorem lookup_mem {ps : List (ID × V)} (hn : ((ps.map Prod.fst).filter (· ∈ l.names)).Nodup)
    {p : ID × V} (hp : p ∈ ps) (hm : p.1 ∈ l.names) : ps.lookup p.1 = some p.2 := by
  induction ps with
  | nil => cases hp
  | cons q ps ih =>
    obtain ⟨key, v⟩ := q
    rcases List.mem_cons.1 hp with rfl | hps
    · rw [List.lookup_cons, beq_self_eq_true]
    · by_cases hk : p.1 = key
      · subst hk
        rw [List.map_cons, List.filter_cons_of_pos (by simpa using hm), List.nodup_cons] at hn
        exact (hn.1 (List.mem_filter.2 ⟨List.mem_map.2 ⟨p, hps, rfl⟩, by simpa using hm⟩)).elim
      · rw [List.lookup_cons, beq_false_of_ne hk]
        refine ih ?_ hps
        rw [List.map_cons] at hn
        exact hn.sublist ((List.sublist_cons_self _ _).filter _)

theorem getElem?_assignment {k i : Nat} {vals : List V} {keyed : List (ID × V)}
    {block : Option V} {name : ID} (hi : l.names[i]? = some name) :
    (assignment l k vals keyed block).args[i]?
      = some ((if i < k then vals[i]? else none).or (keyed.lookup name)) :=
  getElem?_named hi (getElem?_placed (List.getElem?_eq_some_iff.1 hi).1)

theorem lookup_none {ps : List (ID × V)} {name : ID} (h : name ∉ ps.map Prod.fst) :
    ps.lookup name = none := by
  rw [List.lookup_eq_none_iff]
  intro p hp
  simp only [bne_iff_ne, ne_eq]
  rintro rfl
  exact h (List.mem_map_of_mem hp)

theorem others_nodup_of_no_kw {keyed : List (ID × V)} {k : Nat} (hf : KeywordsFit l keyed k)
    (hk : ¬ l.kw.isSome = true) : ((others l.names keyed).map Prod.fst).Nodup := by
  have : others l.names keyed = [] := by
    unfold others
    rw [List.filter_eq_nil_iff]
    intro p hp
    simpa using (hf.known p hp).resolve_right hk
  rw [this]
  exact List.nodup_nil

/-- With every parameter filled that should be, only a keyword collected twice is lost. -/
theorem binds_assignment_iff {call : Call V}
    (hf : Fits l call.keyed (filledCount l call)) :
    Binds l call (assignment l (filledCount l call) call.combined call.keyed call.blockarg)
      ↔ ((others l.names call.keyed).map Prod.fst).Nodup := by
  constructor
  · intro h
    by_cases hk : l.kw.isSome = true
    · exact entries_insertAll_perm_iff.1 (h.extra hk)
    · exact others_nodup_of_no_kw hf.toKeywordsFit hk
  · intro h
    refine ⟨fun i hi => ?_, fun p hp i hi => ?_, fun i name hi hlen hm => ?_, fun _ => rfl,
      fun _ => entries_insertAll_perm_iff.2 h, fun _ => rfl⟩
    · have hin : i < l.names.length := by
        unfold filledCount at hi
        omega
      have hic : i < call.combined.length := by
        unfold filledCount at hi
        omega
      rw [getElem?_assignment (List.getElem?_eq_getElem hin), if_pos hi,
        List.getElem?_eq_getElem hic]
      rfl
    · have hik : ¬ i < filledCount l call := by
        intro hik
        refine hf.free p hp (List.mem_iff_getElem?.2 ⟨i, ?_⟩)
        rw [List.getElem?_take, if_pos hik, hi]
      rw [getElem?_assignment hi, if_neg hik, Option.none_or,
        lookup_mem hf.once hp (List.mem_of_getElem? hi)]
    · have hik : ¬ i < filledCount l call := by
        unfold filledCount
        omega
      rw [getElem?_assignment hi, if_neg hik, Option.none_or, lookup_none hm]

theorem Holds.binds {locals : Locals V} {call : Call V} {a b : Assignment V}
    (ha : Holds l off locals a) (hb : Holds l off locals b) (h : Binds l call a) :
    Binds l call b := by
  obtain ⟨hargs, hrest, hextra, hblock⟩ := ha.unique hb
  refine ⟨hargs ▸ h.placed, hargs ▸ h.keyword, hargs ▸ h.unbound, fun hv => ?_, fun hk => ?_,
    fun hblk => ?_⟩
  · rw [← hrest hv, h.rest hv]
  · rw [← hextra hk]
    exact h.extra hk
  · rw [← hblock hblk, h.block hblk]

theorem bindsRight_aligned {call : Call V} (h : Aligned l call) (self : Option V) :
    BindsRight l self call
      ↔ MustRaise l call ∨ ((others l.names call.keyed).map Prod.fst).Nodup := by
  unfold BindsRight
  by_cases hm : MustRaise l call
  · refine iff_of_true (.inl ⟨hm, execFunction_error ?_ self⟩) (.inl hm)
    rintro ⟨k, hk⟩
    obtain rfl := filled_of_scriptFits h hk
    exact (scriptFits_aligned h).2 hk hm
  · have hfits := (scriptFits_aligned h).1 hm
    obtain ⟨locals, hok, hh⟩ := execFunction_ok hfits self
    rw [← binds_assignment_iff hfits.fits]
    constructor
    · rintro (⟨hm', -⟩ | ⟨-, locals', hok', a, ha, hb⟩)
      · exact absurd hm' hm
      · cases hok.symm.trans hok'
        exact .inr (ha.binds hh hb)
    · rintro (hm' | hb)
      · exact absurd hm' hm
      · exact .inr ⟨hm, locals, hok, _, hh, hb⟩

/-- An argument that should fill a parameter, and does not. -/
theorem not_binds_required {call : Call V} {keyed : List (ID × V)} {block : Option V}
    (h₁ : l.required.length < filledCount l call)
    (hfree : ∀ p ∈ keyed, p.1 ∉ l.names.take (filledCount l call)) :
    ¬ Binds l call (assignment l l.required.length call.combined keyed block) := by
  intro hb
  have hin : l.required.length < l.names.length := by
    unfold filledCount at h₁
    omega
  have hic : l.required.length < call.combined.length := by
    unfold filledCount at h₁
    omega
  have hn := List.getElem?_eq_getElem hin
  have := hb.placed _ h₁
  rw [getElem?_assignment hn, if_neg (Nat.lt_irrefl _), Option.none_or, lookup_none,
    List.getElem?_eq_getElem hic] at this
  · cases this
  · intro hm
    obtain ⟨p, hp, hpe⟩ := List.mem_map.1 hm
    refine hfree p hp (List.mem_iff_getElem?.2 ⟨l.required.length, ?_⟩)
    rw [List.getElem?_take, if_pos h₁, hn, hpe]

theorem bindsRight_not_aligned {call : Call V} (h : ¬ Aligned l call) (self : Option V) :
    BindsRight l self call ↔ MustRaise l call ∧ ¬ ScriptFits l call l.required.length := by
  unfold Aligned at h
  simp only [not_or] at h
  obtain ⟨hv, hp, hreq⟩ := h
  obtain ⟨v, hv⟩ := Option.ne_none_iff_exists'.1 hv
  have hs := scriptFilled_some hv (Nat.le_of_not_lt hp)
  have hone : ∀ {k}, ScriptFits l call k → k = l.required.length := by
    intro k hk
    have := hk.filled
    rw [hs] at this
    split at this
    · exact (Option.some.inj this).symm
    · cases this
  unfold BindsRight
  by_cases hfits : ScriptFits l call l.required.length
  · refine iff_of_false ?_ (fun h => h.2 hfits)
    obtain ⟨locals, hok, hh⟩ := execFunction_ok hfits self
    rintro (⟨-, e, he⟩ | ⟨hm, locals', hok', a, ha, hb⟩)
    · cases hok.symm.trans he
    · cases hok.symm.trans hok'
      obtain ⟨-, hf, hplace, -⟩ := not_mustRaise_iff.1 hm
      have hcond : call.posargs.length ≤ l.required.length
          ∧ l.required.length ≤ call.combined.length := by
        have := hfits.filled
        rw [hs] at this
        split at this
        · assumption
        · cases this
      have hreqn : l.required.length ≤ l.names.length := required_le
      refine not_binds_required ?_ hf.free (ha.binds hh hb)
      have hne : call.combined.length ≠ l.required.length :=
        fun he => hreq ⟨hcond.1, hcond.2, .inl he⟩
      have hopt : l.required.length ≠ l.names.length := by
        intro he
        rcases hplace with hplace | hvar
        · omega
        · exact hreq ⟨hcond.1, hcond.2, .inr ⟨he, hvar⟩⟩
      unfold filledCount
      omega
  · obtain ⟨e, he⟩ := execFunction_error (fun ⟨k, hk⟩ => hfits (hone hk ▸ hk)) self
    constructor
    · rintro (⟨hm, -⟩ | ⟨-, locals, hok, -⟩)
      · exact ⟨hm, hfits⟩
      · cases he.symm.trans hok
    · rintro ⟨hm, -⟩
      exact .inl ⟨hm, e, he⟩

theorem scriptFits_not_aligned {call : Call V} (h : ¬ Aligned l call) :
    ScriptFits l call l.required.length ↔ call.WellTyped
      ∧ (call.posargs.length ≤ l.required.length ∧ l.required.length ≤ call.combined.length)
      ∧ Fits l call.keyed l.required.length
      ∧ (call.blockarg.isSome = true → l.block.isSome = true) := by
  unfold Aligned at h
  simp only [not_or] at h
  obtain ⟨v, hv⟩ := Option.ne_none_iff_exists'.1 h.1
  have hs := scriptFilled_some hv (Nat.le_of_not_lt h.2.1)
  constructor
  · rintro ⟨hw, hf, hfit, hb⟩
    refine ⟨hw, ?_, hfit, hb⟩
    by_contra hcond
    rw [hs, if_neg hcond] at hf
    cases hf
  · rintro ⟨hw, hcond, hfit, hb⟩
    exact ⟨hw, by rw [hs, if_pos hcond], hfit, hb⟩

/-- `fill_args` is right when the `*` array is aligned, unless a keyword is collected twice, and
otherwise only in raising: the call must raise, and it does for the length of the array or for what
cannot be bound when only the required parameters are filled. -/
theorem bindsRight_iff (l : ParamList) (self : Option V) (call : Call V) :
    BindsRight l self call
      ↔ (Aligned l call
          ∧ (MustRaise l call ∨ ((others l.names call.keyed).map Prod.fst).Nodup))
        ∨ (¬ Aligned l call ∧ MustRaise l call ∧ ¬ (call.WellTyped
          ∧ (call.posargs.length ≤ l.required.length ∧ l.required.length ≤ call.combined.length)
          ∧ Fits l call.keyed l.required.length
          ∧ (call.blockarg.isSome = true → l.block.isSome = true))) := by
  by_cases h : Aligned l call
  · rw [bindsRight_aligned h]
    exact ⟨fun hr => .inl ⟨h, hr⟩, fun hr => hr.elim And.right fun hr => absurd h hr.1⟩
  · rw [bindsRight_not_aligned h, ← scriptFits_not_aligned h]
    exact ⟨fun hr => .inr ⟨h, hr⟩, fun hr => hr.elim (fun hr => absurd hr.1 h) And.right⟩

/-- `def foo(a, b=nil)` -/
def oneOptional : ParamList where
  required := [10]
  optional := [(11, .literal 1 .nil)]
  var := none
  kw := none
  block := none
  nodup := by decide

/-- `foo(*[1, 2])` -/
def starOfTwo : Call Nat where
  posargs := []
  kwargs := []
  vararg := some (.array [1, 2])
  varkwarg := none
  blockarg := none
  posargc_lt := by decide
  kwargc_lt := by decide
  size_lt := by decide

/-- The second element is dropped. -/
theorem not_bindsRight_star :
    ¬ ∀ (l : ParamList) (self : Option Nat) (call : Call Nat), BindsRight l self call := by
  intro h
  have hok : execFunction (some oneOptional.info) none starOfTwo
      = .ok (Locals.store (fun _ => .undef) 0 (.val 1)) := rfl
  rcases h oneOptional none starOfTwo with ⟨-, e, he⟩ | ⟨-, locals, hok', a, ha, hb⟩
  · cases hok.symm.trans he
  · cases hok.symm.trans hok'
    have hslot := ha.args 1 (some 2) (hb.placed 1 (by decide))
    rw [show (newLocals (none : Option Nat)).1 + 1 = 1 from rfl,
      Locals.store_of_ne (by decide)] at hslot
    cases hslot

end Yog
