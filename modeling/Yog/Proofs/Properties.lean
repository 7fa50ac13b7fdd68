import Yog.AttributeStore
import Yog.Proofs.Lookups
import Mathlib.Tactic

/-!
# Reading and assigning an attribute

A reading searches all classes of the object, an assignment only the first one. So a property is
assigned through its setter exactly if it is found there (`symmetric_iff`): one that is inherited is
hidden by an attribute of the object's own instead.
-/

namespace Yog

variable {O K M F : Type}

def Attribute.isProperty : Attribute O K M F → Bool
  | property _ _ | readOnlyProperty _ => true
  | _ => false

/-- The error is an exception of the script; the others end the VM. -/
def StoreError.isRaised : StoreError O K M → Bool
  | attr (.assertion _) | attr .undefined => false
  | _ => true

theorem lookup_insertAttr (attrs : List (ID × Attribute O K M F)) (name : ID)
    (val : Attribute O K M F) (n : ID) :
    (insertAttr attrs name val).lookup n = if n = name then some val else attrs.lookup n := by
  by_cases hn : n = name
  · simp [insertAttr, hn]
  · have hb : (n == name) = false := by simpa using hn
    rw [insertAttr, List.lookup_cons, hb, if_neg hn]
    induction attrs with
    | nil => rfl
    | cons a attrs ih =>
      obtain ⟨m, v⟩ := a
      by_cases hm : m = name
      · have hnm : (n == m) = false := by simpa [hm] using hn
        simpa [hm, List.lookup_cons, hb] using ih
      · rw [List.filter_cons_of_pos (by simpa using hm), List.lookup_cons, List.lookup_cons]
        rcases hnm : n == m
        · simpa using ih
        · rfl

namespace Objects

section Store

variable [DecidableEq O] [DecidableEq K] [DecidableEq M] (w : Objects O K M F)
  (shares : M → O → Bool) {obj : Value O K M} {name : ID} {val : Attribute O K M F}

@[simp]
theorem getClass_setAttrId (v : Value O K M) :
    (w.setAttrId shares obj name val).getClass v = w.getClass v := by
  cases obj <;> cases v <;> rfl

@[simp]
theorem hook_setAttrId (k : K) : (w.setAttrId shares obj name val).hook k = w.hook k := by
  cases obj <;> rfl

@[simp]
theorem super_setAttrId (n : Node K M) :
    (w.setAttrId shares obj name val).super n = w.super n := by
  cases obj <;> rfl

theorem objGetAttr_setAttrId (h : w.hasAttrsFlag obj = true) :
    (w.setAttrId shares obj name val).objGetAttr obj name = some val := by
  cases obj with
  | obj o => simp [setAttrId, objGetAttr, lookup_insertAttr]
  | node n => simp [setAttrId, objGetAttr, lookup_insertAttr]
  | _ => cases h

theorem ownAttr_setAttrId (h : w.hasAttrsFlag obj = true) :
    (w.setAttrId shares obj name val).ownAttr obj name = some val := by
  have hget : (w.setAttrId shares obj name val).objGetAttr obj name = some val :=
    w.objGetAttr_setAttrId shares h
  cases obj with
  | obj o =>
    have hflag : (w.setAttrId shares (.obj o) name val).hasAttrs o = true := h
    rw [ownAttr, if_pos hflag, hget]
  | node n => exact hget
  | _ => cases h

/-- The table of the class is that of the object. -/
def sharesTable (obj : Value O K M) (n : Node K M) : Bool :=
  match obj, n with
  | .obj o, .moduleClass m => shares m o
  | .node n', n => n' = n
  | _, _ => false

theorem lookup_nodeAttrs_setAttrId (n : Node K M) :
    ((w.setAttrId shares obj name val).nodeAttrs n).lookup name =
      if sharesTable shares obj n then some val else (w.nodeAttrs n).lookup name := by
  cases obj with
  | obj o =>
    cases n with
    | klass k => rfl
    | moduleClass m =>
      by_cases h : shares m o = true
      · simp [setAttrId, sharesTable, h, lookup_insertAttr]
      · simp [setAttrId, sharesTable, h]
  | node n' =>
    by_cases h : n' = n
    · subst h
      simp [setAttrId, sharesTable, lookup_insertAttr]
    · simp [setAttrId, sharesTable, h, Function.update_of_ne (Ne.symm h)]
  | _ => rfl

/-- The search along the classes comes to the table of the object. -/
def meets (obj : Value O K M) (name : ID) (n : Node K M) : Bool :=
  sharesTable shares obj n || (((w.nodeAttrs n).lookup name).isNone &&
    match _h : w.super n with
    | none => false
    | some super => meets obj name super)
termination_by w.height n
decreasing_by exact w.super_height _ _ ‹_›

omit [DecidableEq O] in
theorem meets_eq (n : Node K M) : w.meets shares obj name n =
    (sharesTable shares obj n || (((w.nodeAttrs n).lookup name).isNone &&
      (w.super n).any (w.meets shares obj name))) := by
  rw [meets]
  split <;> simp [*]

omit [DecidableEq O] [DecidableEq K] [DecidableEq M] in
theorem classGetAttr_eq (n : Node K M) (name : ID) : w.classGetAttr n name =
    ((w.nodeAttrs n).lookup name).or ((w.super n).bind (w.classGetAttr · name)) := by
  rw [classGetAttr, getAttrAndDefiningClass, objGetAttr]
  rcases (w.nodeAttrs n).lookup name with _ | a
  · simp only [Option.none_or]
    split <;> simp [*, classGetAttr]
  · rfl

/-- A search along the classes after an assignment. -/
theorem classGetAttr_setAttrId (n : Node K M) :
    (w.setAttrId shares obj name val).classGetAttr n name =
      if w.meets shares obj name n then some val else w.classGetAttr n name := by
  induction hn : w.height n using Nat.strong_induction_on generalizing n with
  | _ h ih =>
    subst hn
    rw [classGetAttr_eq, classGetAttr_eq w, lookup_nodeAttrs_setAttrId, super_setAttrId, meets_eq]
    rcases sharesTable shares obj n
    · rcases (w.nodeAttrs n).lookup name with _ | a
      · rcases hs : w.super n with _ | s
        · simp
        · simpa using ih _ (w.super_height n s hs) s rfl
      · simp
    · simp

end Store

/-- What a descriptor makes is no attribute as it stands in a table. -/
theorem callGetDescr_eq_ok (w : Objects O K M F) {attr : Attribute O K M F} {obj : Value O K M}
    {klass : Option (Node K M)} {access : Access O K M F}
    (h : w.callGetDescr attr obj klass = .ok access) :
    (∃ v, attr = .value v ∧ access = .value v) ∨
      attr.hasGetDescr = true ∧ ∀ val, access ≠ raw val := by
  induction attr generalizing obj klass with
  | value v =>
    rw [callGetDescr] at h
    cases h
    exact .inl ⟨v, rfl, rfl⟩
  | function f | nativeFunction f | field f =>
    rw [callGetDescr] at h
    cases h
    exact .inr ⟨rfl, fun val => by cases val <;> simp [raw]⟩
  | classMethod f ih =>
    rw [callGetDescr.eq_def] at h
    by_cases hf : f.hasGetDescr = true
    · rcases klass with _ | n
      · simp [hf] at h
      · simp only [if_pos hf] at h
        rcases ih h with ⟨v, rfl, -⟩ | ⟨-, hne⟩
        · cases hf
        · exact .inr ⟨rfl, hne⟩
    · simp [hf] at h
  | property getter setter ih | readOnlyProperty getter ih =>
    refine .inr ⟨rfl, fun val heq => ?_⟩
    rw [callGetDescr] at h
    split at h
    · cases h
    · split_ifs at h
      · rcases hr : w.callGetDescr getter obj klass with e | a
        · rw [hr] at h
          cases h
        · rw [hr] at h
          cases h
          cases val <;> cases heq

theorem callGetDescr_eq_raw_iff (w : Objects O K M F) {attr val : Attribute O K M F}
    {obj : Value O K M} {klass : Option (Node K M)} :
    w.callGetDescr attr obj klass = .ok (raw val) ↔ attr = val ∧ val.hasGetDescr = false := by
  constructor
  · intro h
    rcases w.callGetDescr_eq_ok h with ⟨v, rfl, hv⟩ | ⟨-, hne⟩
    · cases val <;> cases hv
      exact ⟨rfl, rfl⟩
    · exact absurd rfl (hne val)
  · rintro ⟨rfl, hval⟩
    obtain ⟨v, rfl⟩ := hasGetDescr_false (Bool.eq_false_iff.1 hval)
    rw [callGetDescr, raw]

section Bound

variable (w : Objects O K M F)

/-- The attribute whose descriptor a reading calls, if it finds one. Those of a package itself are
taken as they are. -/
def boundAttr (obj : Value O K M) (k : K) (name : ID) : Option (Attribute O K M F) :=
  match w.hook k with
  | none => (w.ownAttr obj name).or (w.classGetAttr (.klass k) name)
  | some .klass => (w.classGetAttr (.klass k) name).or (w.objGetAttr obj name)
  | some .package => if (w.objGetAttr obj name).isSome then none else w.classGetAttr (.klass k) name

end Bound

section Symmetry

variable [DecidableEq O] [DecidableEq K] [DecidableEq M] (w : Objects O K M F)
  (shares : M → O → Bool) (obj : Value O K M) (k : K) (name : ID) (val : Attribute O K M F)

omit [DecidableEq O] in
/-- The value would be read back from the table of the object: it is no descriptor, and of a class it
is not hidden by an attribute of the class's own class. A package gives what it has. -/
def ReadsBack : Prop :=
  match w.hook k with
  | none => val.hasGetDescr = false
  | some .klass => val.hasGetDescr = false ∧
      (w.meets shares obj name (.klass k) = true ∨ ∀ a ∈ w.classGetAttr (.klass k) name, a = val)
  | some .package => True

variable {w shares obj k name val} in
theorem loadAttr_setAttrId_iff (hk : w.getClass obj = some k) (hflag : w.hasAttrsFlag obj = true) :
    (w.setAttrId shares obj name val).loadAttr obj name = .ok (raw val) ↔
      w.ReadsBack shares obj k name val := by
  have hget : (w.setAttrId shares obj name val).objGetAttr obj name = some val :=
    w.objGetAttr_setAttrId shares hflag
  have hown : (w.setAttrId shares obj name val).ownAttr obj name = some val :=
    w.ownAttr_setAttrId shares hflag
  unfold loadAttr ReadsBack
  simp only [getClass_setAttrId, hook_setAttrId, hk]
  rcases hh : w.hook k with _ | _ | _
  · simp only [execGetAttr, hown, Option.some_or, execGetDescr_eq, callGetDescr_eq_raw_iff, true_and]
  · simp only [classExecGetAttr, classGetAttr_setAttrId, hget]
    by_cases hm : w.meets shares obj name (.klass k) = true
    · simp [hm, callGetDescr_eq_raw_iff]
    · rcases hc : w.classGetAttr (.klass k) name with _ | a
      · simp [hm, callGetDescr_eq_raw_iff]
      · simp [hm, callGetDescr_eq_raw_iff, and_comm]
  · simp only [packageExecGetAttr, hget]

/-- An assignment goes the way of the reading: to the setter of the property that a reading finds,
which raises if it has none, and else into the table of the object, where it is read back. -/
structure Symmetric : Prop where
  called : ∀ p method, w.boundAttr obj k name = some p → p.isProperty = true →
    w.setterMethod p obj = .ok method →
    w.storeAttr shares obj name val = .ok (.called method val)
  raised : ∀ p e, w.boundAttr obj k name = some p → p.isProperty = true →
    w.setterMethod p obj = .error e →
    ∃ e', w.storeAttr shares obj name val = .error e' ∧ e'.isRaised = true
  entered : (∀ p, w.boundAttr obj k name = some p → p.isProperty = false) →
    ∃ w', w.storeAttr shares obj name val = .ok (.entered w') ∧
      w'.loadAttr obj name = .ok (raw val)

/-- What has to hold before the assignment. -/
structure SymmetricWhen : Prop where
  called : ∀ p method, w.boundAttr obj k name = some p → p.isProperty = true →
    w.setterMethod p obj = .ok method →
    ∃ p', w.storeLookup obj k name = some p' ∧ p'.isProperty = true ∧
      w.setterMethod p' obj = .ok method
  raised : ∀ p e, w.boundAttr obj k name = some p → p.isProperty = true →
    w.setterMethod p obj = .error e →
    (∃ p' e', w.storeLookup obj k name = some p' ∧ p'.isProperty = true ∧
      w.setterMethod p' obj = .error e' ∧ e'.isRaised = true) ∨
    (w.hasAttrsFlag obj = false ∧ ∀ a, w.storeLookup obj k name = some a → a.hasSetDescr = false)
  entered : (∀ p, w.boundAttr obj k name = some p → p.isProperty = false) →
    w.hasAttrsFlag obj = true ∧
    (∀ a, w.storeLookup obj k name = some a → a.hasSetDescr = false) ∧
    w.ReadsBack shares obj k name val

section Store

variable {w shares obj k name val} (hk : w.getClass obj = some k)

variable (w obj k name) in
omit [DecidableEq O] [DecidableEq K] [DecidableEq M] in
theorem storeLookup_cases :
    (∃ p, w.storeLookup obj k name = some p ∧ p.isProperty = true) ∨
      (∃ f, w.storeLookup obj k name = some (.field f)) ∨
      ∀ a, w.storeLookup obj k name = some a → a.hasSetDescr = false := by
  rcases w.storeLookup obj k name with _ | a
  · simp
  · cases a <;> simp [Attribute.isProperty, Attribute.hasSetDescr]

include hk

theorem storeAttr_of_property {p : Attribute O K M F} (h : w.storeLookup obj k name = some p)
    (hp : p.isProperty = true) :
    w.storeAttr shares obj name val = (w.setterMethod p obj).map (.called · val) := by
  simp only [storeAttr, hk, h]
  cases p <;> first | rfl | cases hp

theorem storeAttr_of_field {f : F} (h : w.storeLookup obj k name = some (.field f)) :
    w.storeAttr shares obj name val = .ok (.field obj f val) := by
  simp only [storeAttr, hk, h, Attribute.hasSetDescr, if_true, execSetDescr]

theorem storeAttr_of_plain (h : ∀ a, w.storeLookup obj k name = some a → a.hasSetDescr = false) :
    (w.hasAttrsFlag obj = true ∧
      w.storeAttr shares obj name val = .ok (.entered (w.setAttrId shares obj name val))) ∨
    (w.hasAttrsFlag obj = false ∧
      ∃ e, w.storeAttr shares obj name val = .error e ∧ e.isRaised = true) := by
  simp only [storeAttr, hk]
  rcases ha : w.storeLookup obj k name with _ | a
  · rcases hflag : w.hasAttrsFlag obj
    · exact .inr ⟨rfl, .attr (.noAttribute obj name), rfl, rfl⟩
    · exact .inl ⟨rfl, rfl⟩
  · simp only [h a ha, Bool.false_eq_true, if_false]
    rcases hflag : w.hasAttrsFlag obj
    · exact .inr ⟨rfl, .cantSet obj, rfl, rfl⟩
    · exact .inl ⟨rfl, rfl⟩

theorem storeAttr_eq_called_iff {method : Access O K M F} :
    w.storeAttr shares obj name val = .ok (.called method val) ↔
      ∃ p, w.storeLookup obj k name = some p ∧ p.isProperty = true ∧
        w.setterMethod p obj = .ok method := by
  constructor
  · intro h
    rcases w.storeLookup_cases obj k name with ⟨p, hl, hp⟩ | ⟨f, hl⟩ | hplain
    · rw [storeAttr_of_property hk hl hp] at h
      rcases hm : w.setterMethod p obj with e | m <;> rw [hm] at h <;> cases h
      exact ⟨p, hl, hp, hm⟩
    · cases h.symm.trans (storeAttr_of_field hk hl)
    · rcases storeAttr_of_plain hk hplain with ⟨-, hs⟩ | ⟨-, e, hs, -⟩
      · cases h.symm.trans hs
      · cases h.symm.trans hs
  · rintro ⟨p, hl, hp, hm⟩
    rw [storeAttr_of_property hk hl hp, hm]
    rfl

theorem storeAttr_raises_iff :
    (∃ e, w.storeAttr shares obj name val = .error e ∧ e.isRaised = true) ↔
      (∃ p e, w.storeLookup obj k name = some p ∧ p.isProperty = true ∧
        w.setterMethod p obj = .error e ∧ e.isRaised = true) ∨
      w.hasAttrsFlag obj = false ∧
        ∀ a, w.storeLookup obj k name = some a → a.hasSetDescr = false := by
  constructor
  · rintro ⟨e, h, hraised⟩
    rcases w.storeLookup_cases obj k name with ⟨p, hl, hp⟩ | ⟨f, hl⟩ | hplain
    · rw [storeAttr_of_property hk hl hp] at h
      rcases hm : w.setterMethod p obj with e | m <;> rw [hm] at h <;> cases h
      exact .inl ⟨p, e, hl, hp, hm, hraised⟩
    · cases h.symm.trans (storeAttr_of_field hk hl)
    · rcases storeAttr_of_plain hk hplain with ⟨-, hs⟩ | ⟨hflag, -⟩
      · cases h.symm.trans hs
      · exact .inr ⟨hflag, hplain⟩
  · rintro (⟨p, e, hl, hp, hm, hraised⟩ | ⟨hflag, hplain⟩)
    · exact ⟨e, by rw [storeAttr_of_property hk hl hp, hm]; rfl, hraised⟩
    · rcases storeAttr_of_plain hk hplain with ⟨hflag', -⟩ | ⟨-, h⟩
      · cases hflag.symm.trans hflag'
      · exact h

theorem storeAttr_eq_entered_iff {w' : Objects O K M F} :
    w.storeAttr shares obj name val = .ok (.entered w') ↔
      w.hasAttrsFlag obj = true ∧
        (∀ a, w.storeLookup obj k name = some a → a.hasSetDescr = false) ∧
        w' = w.setAttrId shares obj name val := by
  constructor
  · intro h
    rcases w.storeLookup_cases obj k name with ⟨p, hl, hp⟩ | ⟨f, hl⟩ | hplain
    · rw [storeAttr_of_property hk hl hp] at h
      rcases hm : w.setterMethod p obj with e | m <;> rw [hm] at h <;> cases h
    · cases h.symm.trans (storeAttr_of_field hk hl)
    · rcases storeAttr_of_plain hk hplain with ⟨hflag, hs⟩ | ⟨-, e, hs, -⟩
      · cases h.symm.trans hs
        exact ⟨hflag, hplain, rfl⟩
      · cases h.symm.trans hs
  · rintro ⟨hflag, hplain, rfl⟩
    rcases storeAttr_of_plain hk hplain with ⟨-, h⟩ | ⟨hflag', -⟩
    · exact h
    · cases hflag.symm.trans hflag'

end Store

/-- Reading and assigning go the same way exactly under the condition. -/
theorem symmetric_iff (hk : w.getClass obj = some k) :
    w.Symmetric shares obj k name val ↔ w.SymmetricWhen shares obj k name val := by
  constructor
  · intro h
    refine ⟨fun p m hb hp hm => (storeAttr_eq_called_iff hk).1 (h.called p m hb hp hm),
      fun p e hb hp he => (storeAttr_raises_iff hk).1 (h.raised p e hb hp he), fun hno => ?_⟩
    obtain ⟨w', hw', hread⟩ := h.entered hno
    obtain ⟨hflag, hplain, rfl⟩ := (storeAttr_eq_entered_iff hk).1 hw'
    exact ⟨hflag, hplain, (loadAttr_setAttrId_iff hk hflag).1 hread⟩
  · intro h
    refine ⟨fun p m hb hp hm => (storeAttr_eq_called_iff hk).2 (h.called p m hb hp hm),
      fun p e hb hp he => (storeAttr_raises_iff hk).2 (h.raised p e hb hp he), fun hno => ?_⟩
    obtain ⟨hflag, hplain, hback⟩ := h.entered hno
    exact ⟨_, (storeAttr_eq_entered_iff hk).2 ⟨hflag, hplain, rfl⟩,
      (loadAttr_setAttrId_iff hk hflag).2 hback⟩

end Symmetry

end Objects

section Inherited

def barProperty : Attribute Unit (Fin 3) Empty String :=
  .property (.function "get_bar") (.function "set_bar")

/-- Classes `Class`, `A` with a property, and `B` that inherits it, with an object of `k`. -/
def propertyOfA (k : Fin 3) : Objects Unit (Fin 3) Empty String :=
  { inherited with
    classOf := fun _ => k
    nodeAttrs := fun n => (inherited.nodeAttrs n).map fun a => (a.1, barProperty) }

variable {k : Fin 3}

theorem boundAttr_propertyOfA (hk : k = 1 ∨ k = 2) :
    (propertyOfA k).boundAttr (.obj ()) k 7 = some barProperty := by
  have hA : (propertyOfA k).classGetAttr (.klass 1) 7 = some barProperty := by
    rw [Objects.classGetAttr_eq]
    rfl
  rcases hk with rfl | rfl
  · exact hA
  · have hB : (propertyOfA 2).classGetAttr (.klass 2) 7 = some barProperty := by
      rw [Objects.classGetAttr_eq]
      exact hA
    exact hB

/-- An object of `A` is assigned through the setter. -/
theorem symmetric_propertyOfA : (propertyOfA 1).Symmetric (fun _ _ => false) (.obj ()) 1 7
    (.value (.fixnum 3)) := by
  have hb := boundAttr_propertyOfA (.inl (rfl : (1 : Fin 3) = 1))
  refine (Objects.symmetric_iff _ _ _ _ _ _ rfl).2 ⟨fun p m hp hprop hm => ?_,
    fun p e hp hprop he => ?_, fun hno => ?_⟩
  · obtain rfl := Option.some.inj (hb.symm.trans hp)
    exact ⟨barProperty, rfl, rfl, hm⟩
  · obtain rfl := Option.some.inj (hb.symm.trans hp)
    simp [Objects.setterMethod, barProperty, Attribute.immediate?, Attribute.hasGetDescr,
      Objects.callGetDescr, Except.mapError] at he
  · cases hno _ hb

/-- An object of `B` is not: the value is entered into its own table. -/
theorem not_symmetric_propertyOfA : ¬ (propertyOfA 2).Symmetric (fun _ _ => false) (.obj ()) 2 7
    (.value (.fixnum 3)) := by
  intro h
  have hb := boundAttr_propertyOfA (.inr (rfl : (2 : Fin 3) = 2))
  have hm : (propertyOfA 2).setterMethod barProperty (.obj ()) =
      .ok (.instanceMethod (.obj ()) "set_bar" (some (.klass 2))) := by
    simp [Objects.setterMethod, barProperty, Attribute.immediate?, Attribute.hasGetDescr,
      Objects.callGetDescr, Except.mapError]
    rfl
  cases h.called _ _ hb rfl hm

end Inherited

end Yog
