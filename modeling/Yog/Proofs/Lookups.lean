import Yog.Attribute

/-!
# The two lookups of an attribute side by side

Both copies of a descriptor do the same, and so do both copies of the two hooks. The defaults differ
in one argument: for an attribute found along the chain of classes, `get_attr_default` hands the class
it was found in to the descriptor, and `exec_get_attr` the class of the object. What follows from this
depends on what the descriptor does with its class, which `Attribute.reads` says.
-/

namespace Yog

variable {O K M F : Type}

namespace Objects

variable (w : Objects O K M F)

theorem execGetDescr_eq (attr : Attribute O K M F) (obj : Value O K M)
    (klass : Option (Node K M)) : w.execGetDescr attr obj klass = w.callGetDescr attr obj klass := by
  cases attr with
  | property getter setter | readOnlyProperty getter => rw [execGetDescr, callGetDescr]
  | value v => rw [execGetDescr, callGetDescr]
  | _ => rfl

/-- What the VM makes of the answer of C code, where the lookup that finds nothing is to raise. -/
def raising (obj : Value O K M) (name : ID) :
    Except (AttrError O K M) (Option (Access O K M F)) → Except (AttrError O K M) (Access O K M F)
  | .ok (some access) => .ok access
  | .ok none => .error (.noAttribute obj name)
  | .error e => .error e

@[simp]
theorem raising_map_some (obj : Value O K M) (name : ID)
    (r : Except (AttrError O K M) (Access O K M F)) : raising obj name (r.map some) = r := by
  cases r <;> rfl

theorem classExecGetAttr_eq (obj : Value O K M) (k : K) (name : ID) :
    w.classExecGetAttr obj k name = raising obj name (w.classCallGetAttr obj k name) := by
  unfold classExecGetAttr classCallGetAttr
  rcases w.classGetAttr (.klass k) name with _ | attr
  · rcases w.objGetAttr obj name with _ | attr
    · rfl
    · exact (raising_map_some ..).symm
  · exact (raising_map_some ..).symm

theorem packageExecGetAttr_eq (obj : Value O K M) (k : K) (name : ID) :
    w.packageExecGetAttr obj k name = raising obj name (w.packageCallGetAttr obj k name) := by
  unfold packageExecGetAttr packageCallGetAttr
  rcases w.objGetAttr obj name with _ | attr
  · rcases w.classGetAttr (.klass k) name with _ | attr
    · rfl
    · exact (raising_map_some ..).symm
  · rfl

/-- The classes above a class: the class itself, its class, and so on. -/
def classesOf (klass : Option (Node K M)) : Nat → Option (Node K M)
  | 0 => klass
  | j + 1 => classesOf (klass.bind w.classOfNode) j

/-- What a descriptor can be bound to: the object, then the classes above the class it is given. -/
def place (obj : Value O K M) (klass : Option (Node K M)) : Nat → Option (Value O K M)
  | 0 => some obj
  | j + 1 => (w.classesOf klass j).map .node

end Objects

/-- The places that the method made of the attribute remembers. -/
def Attribute.reads : Attribute O K M F → List Nat
  | value _ => []
  | function _ => [0, 1]
  | nativeFunction _ => [0]
  | field _ => [0]
  | classMethod f => f.reads.map (· + 1)
  | property getter _ | readOnlyProperty getter => getter.reads

/-- How many classes up the method is made. -/
def Attribute.depth : Attribute O K M F → Nat
  | classMethod f => if f.hasGetDescr then f.depth + 1 else 0
  | property getter _ | readOnlyProperty getter => getter.depth
  | _ => 0

namespace Objects

variable (w : Objects O K M F)

/-- The attribute, bound to `obj` and `klass`, is as good as bound to `obj'` and `klass'`. -/
structure Alike (attr : Attribute O K M F) (obj : Value O K M) (klass : Option (Node K M))
    (obj' : Value O K M) (klass' : Option (Node K M)) : Prop where
  defined : (w.place obj' klass' attr.depth).isSome
  same : ∀ j ∈ attr.reads, w.place obj klass j = w.place obj' klass' j

/-- An attribute that only reads the object. -/
theorem alike_self_iff {attr : Attribute O K M F} {obj obj' : Value O K M}
    {klass klass' : Option (Node K M)} (hr : attr.reads = [0]) (hd : attr.depth = 0) :
    w.Alike attr obj klass obj' klass' ↔ obj = obj' := by
  constructor
  · intro h
    have h0 := h.same 0 (by rw [hr]; exact List.mem_singleton.mpr rfl)
    exact Option.some.inj h0
  · intro h
    subst h
    refine ⟨by rw [hd]; rfl, fun j hj => ?_⟩
    rw [hr, List.mem_singleton] at hj
    rw [hj]
    rfl

theorem place_node (obj : Value O K M) (n : Node K M) (j : Nat) :
    w.place (.node n) (w.classOfNode n) j = w.place obj (some n) (j + 1) := by
  cases j with
  | zero => rfl
  | succ j => rfl

theorem classesOf_none (j : Nat) : w.classesOf none j = none := by
  induction j with
  | zero => rfl
  | succ j ih => exact ih

theorem place_none (obj : Value O K M) (j : Nat) : w.place obj none (j + 1) = none := by
  rw [place, classesOf_none, Option.map_none]

/-- A class has a class, so no number of class methods leads to `YUNDEF`. -/
theorem callGetDescr_ne_undefined (attr : Attribute O K M F) (obj : Value O K M) (k : K) :
    w.callGetDescr attr obj (some (.klass k)) ≠ .error .undefined := by
  induction attr generalizing obj k with
  | classMethod f ih =>
    rw [callGetDescr]
    by_cases hf : f.hasGetDescr = true
    · rw [if_pos hf]
      exact ih _ _
    · rw [if_neg hf]
      intro h
      injection h with h
      cases h
  | property getter setter ih | readOnlyProperty getter ih =>
    rw [callGetDescr]
    rcases getter.immediate? with _ | v
    · by_cases hg : getter.hasGetDescr = true
      · simp only [if_pos hg]
        have := ih obj k
        intro h
        rcases hr : w.callGetDescr getter obj (some (.klass k)) with e | a <;> rw [hr] at h this
        · exact this h
        · cases h
      · simp only [if_neg hg]
        intro h
        injection h with h
        cases h
    · intro h
      injection h with h
      cases h
  | _ =>
    rw [callGetDescr]
    exact fun h => nomatch h

theorem map_answer_inj {r r' : Except (AttrError O K M) (Access O K M F)} :
    r.map Access.answer = r'.map Access.answer ↔ r = r' := by
  constructor
  · intro h
    rcases r with e | a <;> rcases r' with e' | a'
    · injection h with h
      rw [h]
    · exact nomatch h
    · exact nomatch h
    · injection h with h
      injection h with h
      rw [h]
  · intro h
    rw [h]

theorem hasGetDescr_false {attr : Attribute O K M F} (h : ¬ attr.hasGetDescr = true) :
    ∃ v, attr = .value v := by
  cases attr with
  | value v => exact ⟨v, rfl⟩
  | _ => exact absurd rfl h

/-- Two bindings of an attribute come out the same when what the attribute reads is the same. The
induction goes through class methods, each of which is bound one class further up. -/
theorem callGetDescr_eq_iff (attr : Attribute O K M F) (obj : Value O K M) (k : K)
    (obj' : Value O K M) (klass' : Option (Node K M)) :
    w.callGetDescr attr obj (some (.klass k)) = w.callGetDescr attr obj' klass' ↔
      w.Alike attr obj (some (.klass k)) obj' klass' := by
  induction attr generalizing obj k obj' klass' with
  | value v => exact iff_of_true rfl ⟨rfl, fun j hj => nomatch hj⟩
  | function f =>
    rw [callGetDescr, callGetDescr]
    constructor
    · intro h
      injection h with h
      injection h with hobj _ hklass
      subst hobj hklass
      exact ⟨rfl, fun j _ => rfl⟩
    · intro h
      have hobj := h.same 0 (by simp [Attribute.reads])
      have hklass := h.same 1 (by simp [Attribute.reads])
      simp only [place, Option.some.injEq] at hobj
      have hklass : some (Node.klass k) = klass' := by
        rcases klass' with _ | n
        · exact nomatch hklass
        · injection hklass with hklass
          injection hklass with hklass
          rw [hklass]
      rw [hobj, hklass]
  | nativeFunction f =>
    rw [callGetDescr, callGetDescr, w.alike_self_iff rfl rfl]
    exact ⟨fun h => by injection h with h; injection h, fun h => by rw [h]⟩
  | field f =>
    rw [callGetDescr, callGetDescr, w.alike_self_iff rfl rfl]
    exact ⟨fun h => by injection h with h; injection h, fun h => by rw [h]⟩
  | classMethod f ih =>
    rw [callGetDescr, callGetDescr.eq_def w (.classMethod f) obj' klass']
    by_cases hf : f.hasGetDescr = true
    · simp only [if_pos hf]
      rcases klass' with _ | n
      · refine iff_of_false (w.callGetDescr_ne_undefined f _ _) fun h => ?_
        have hd := h.defined
        rw [Attribute.depth, if_pos hf, place_none] at hd
        exact nomatch hd
      · refine (ih _ _ _ _).trans ⟨fun h => ⟨?_, ?_⟩, fun h => ⟨?_, ?_⟩⟩
        · rw [Attribute.depth, if_pos hf, ← place_node]
          exact h.defined
        · intro j hj
          obtain ⟨i, hi, rfl⟩ := List.mem_map.mp hj
          rw [← place_node, ← place_node]
          exact h.same i hi
        · have hd := h.defined
          rwa [Attribute.depth, if_pos hf, ← place_node] at hd
        · intro j hj
          have hs := h.same (j + 1) (List.mem_map.mpr ⟨j, hj, rfl⟩)
          rwa [← place_node, ← place_node] at hs
    · simp only [if_neg hf]
      obtain ⟨v, rfl⟩ := hasGetDescr_false hf
      exact iff_of_true trivial ⟨rfl, fun j hj => nomatch hj⟩
  | property getter setter ih | readOnlyProperty getter ih =>
    rw [callGetDescr, callGetDescr]
    by_cases hg : getter.hasGetDescr = true
    · have himm : getter.immediate? = none := by
        cases getter with
        | value v => exact nomatch hg
        | _ => rfl
      rw [himm]
      simp only [if_pos hg]
      rw [map_answer_inj, ih]
      exact ⟨fun h => ⟨h.defined, h.same⟩, fun h => ⟨h.defined, h.same⟩⟩
    · obtain ⟨v, rfl⟩ := hasGetDescr_false hg
      exact iff_of_true rfl ⟨rfl, fun j hj => nomatch hj⟩

/-- The VM finds what C code finds, bound alike, or fails where C code finds nothing. -/
def Agree (obj : Value O K M) (name : ID) : Prop :=
  w.loadAttr obj name = raising obj name (w.valGetAttr obj name)

/-- The lookups that go along the chain of classes, and what they end at: those of an object of a
class without a hook that has no such attribute itself. -/
structure Inherits (obj : Value O K M) (name : ID) (k : K) (attr : Attribute O K M F)
    (definingClass : Node K M) : Prop where
  klass : w.getClass obj = some k
  hook : w.hook k = none
  own : w.ownAttr obj name = none
  found : w.getAttrAndDefiningClass (.klass k) name = some (attr, definingClass)

theorem execGetAttr_own {obj : Value O K M} {k : K} {name : ID} {attr : Attribute O K M F}
    (h : w.ownAttr obj name = some attr) :
    w.execGetAttr obj k name = raising obj name (w.getAttrDefault obj k name) := by
  unfold execGetAttr getAttrDefault
  rw [h, Option.some_or]
  show w.execGetDescr attr obj _ = _
  rw [execGetDescr_eq, raising_map_some]

theorem execGetAttr_missing {obj : Value O K M} {k : K} {name : ID}
    (h : w.ownAttr obj name = none) (hc : w.getAttrAndDefiningClass (.klass k) name = none) :
    w.execGetAttr obj k name = raising obj name (w.getAttrDefault obj k name) := by
  unfold execGetAttr getAttrDefault classGetAttr
  rw [h, hc]
  rfl

theorem execGetAttr_inherited {obj : Value O K M} {k : K} {name : ID} {attr : Attribute O K M F}
    {d : Node K M} (h : w.ownAttr obj name = none)
    (hc : w.getAttrAndDefiningClass (.klass k) name = some (attr, d)) :
    w.execGetAttr obj k name = raising obj name (w.getAttrDefault obj k name) ↔
      w.Alike attr obj (some (.klass k)) obj (some d) := by
  unfold execGetAttr getAttrDefault classGetAttr
  rw [h, hc]
  show w.execGetDescr attr obj _ = raising obj name ((w.callGetDescr attr obj _).map some) ↔ _
  rw [execGetDescr_eq, raising_map_some]
  exact w.callGetDescr_eq_iff attr obj k obj (some d)

/-- The two lookups agree unless the attribute is inherited and its descriptor can tell the class it
was found in from the class of the object. -/
theorem agree_iff (obj : Value O K M) (name : ID) :
    w.Agree obj name ↔ ∀ k attr d, w.Inherits obj name k attr d →
      w.Alike attr obj (some (.klass k)) obj (some d) := by
  unfold Agree loadAttr valGetAttr
  rcases hk : w.getClass obj with _ | k
  · exact iff_of_true rfl fun k attr d h => by rw [h.klass] at hk; cases hk
  dsimp only
  have hclass : ∀ {k' attr d}, w.Inherits obj name k' attr d → k = k' :=
    fun h => Option.some.inj (hk.symm.trans h.klass)
  rcases hh : w.hook k with _ | _ | _
  · show w.execGetAttr obj k name = raising obj name (w.getAttrDefault obj k name) ↔ _
    rcases ho : w.ownAttr obj name with _ | attr
    · rcases hc : w.getAttrAndDefiningClass (.klass k) name with _ | ⟨attr, d⟩
      · refine iff_of_true (w.execGetAttr_missing ho hc) fun k' attr d h => ?_
        rw [hclass h, h.found] at hc
        cases hc
      · rw [w.execGetAttr_inherited ho hc]
        constructor
        · intro h k' attr' d' h'
          obtain rfl := hclass h'
          have he := hc.symm.trans h'.found
          injection he with he
          injection he with ha hd
          subst ha hd
          exact h
        · intro h
          exact h k attr d ⟨hk, hh, ho, hc⟩
    · refine iff_of_true (w.execGetAttr_own ho) fun k' attr' d h => ?_
      rw [h.own] at ho
      cases ho
  · refine iff_of_true (w.classExecGetAttr_eq obj k name) fun k' attr d h => ?_
    rw [hclass h, h.hook] at hh
    cases hh
  · refine iff_of_true (w.packageExecGetAttr_eq obj k name) fun k' attr d h => ?_
    rw [hclass h, h.hook] at hh
    cases hh

/-- A method made of a script function remembers the class: the lookups agree on it in the class that
defines it, and nowhere below. -/
theorem Inherits.agree_function_iff {obj : Value O K M} {name : ID} {k : K} {f : F} {d : Node K M}
    (h : w.Inherits obj name k (.function f) d) : w.Agree obj name ↔ d = .klass k := by
  unfold Agree loadAttr valGetAttr
  simp only [h.klass, h.hook]
  rw [w.execGetAttr_inherited h.own h.found, ← w.callGetDescr_eq_iff, callGetDescr, callGetDescr]
  constructor
  · intro he
    injection he with he
    injection he with _ _ hd
    exact (Option.some.inj hd).symm
  · intro hd
    rw [hd]

end Objects

/-- Classes `Class`, `A` with a method, and `B` that inherits it, with an object of `B`. -/
def inherited : Objects Unit (Fin 3) Empty String where
  cFixnum := 0
  cBool := 0
  cNil := 0
  cSymbol := 0
  classOf _ := 2
  metaclass _ := 0
  hasAttrs _ := true
  attrs _ := []
  nodeAttrs n := if n = .klass 1 then [(7, .function "foo")] else []
  super n := if n = .klass 2 then some (.klass 1) else none
  hook k := if k = 0 then some .klass else none
  height n := if n = .klass 2 then 1 else 0
  super_height := by
    intro n s h
    by_cases hn : n = .klass 2
    · rw [if_pos hn] at h ⊢
      cases h
      decide
    · rw [if_neg hn] at h
      cases h

/-- The method of the VM has `B` for its class, the method of C code has `A`. -/
theorem not_agree_inherited : ¬ inherited.Agree (.obj ()) 7 := by
  have h : inherited.Inherits (.obj ()) 7 2 (.function "foo") (.klass 1) := by
    refine ⟨rfl, rfl, rfl, ?_⟩
    rw [Objects.getAttrAndDefiningClass]
    show inherited.getAttrAndDefiningClass (.klass 1) 7 = _
    rw [Objects.getAttrAndDefiningClass]
    rfl
  rw [h.agree_function_iff]
  decide

end Yog
