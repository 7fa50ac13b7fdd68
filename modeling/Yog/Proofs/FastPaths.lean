import Mathlib.Tactic.ByContra
import Yog.Operator

/-!
# Operators without and with the lookup

An operator instruction that knows the type of its left operand does what the method of the operator
does if the lookup ends at the method of that very type, and a comparison if the lookup ends at
`Comparable` and that of `<=>` at the type. Nothing in the instruction looks at the class, so a class
of its own over a built-in representation makes the difference, and so do the two places where the
method raises another error than the function under it.
-/

namespace Yog

variable {O K M S E : Type}

namespace Objects

variable {F : Type} (w : Objects O K M F)

/-- The methods that an access gives have for their receiver what was accessed, or a class, or nil. -/
def Receives (obj : Value O K M) (access : Access O K M F) : Prop :=
  ∀ self f, access = .nativeInstanceMethod self f → self = obj ∨ self = .nil ∨ ∃ n, self = .node n

theorem callGetDescr_receives {attr : Attribute O K M F} {obj : Value O K M}
    {klass : Option (Node K M)} {access : Access O K M F}
    (h : w.callGetDescr attr obj klass = .ok access) : Receives obj access := by
  induction attr generalizing obj klass access with
  | value v =>
    rw [callGetDescr] at h
    injection h with h
    rintro self f rfl
    cases h
  | function f =>
    rw [callGetDescr] at h
    injection h with h
    rintro self f rfl
    cases h
  | nativeFunction f =>
    rw [callGetDescr] at h
    injection h with h
    rintro self f rfl
    injection h with h
    exact .inl h.symm
  | field f =>
    rw [callGetDescr] at h
    injection h with h
    rintro self f rfl
    cases h
  | classMethod f ih =>
    rw [callGetDescr.eq_def] at h
    by_cases hf : f.hasGetDescr = true
    · rcases klass with _ | n
      · simp only [if_pos hf] at h
        cases h
      · simp only [if_pos hf] at h
        intro self g hg
        rcases ih h self g hg with hn | hn
        · exact .inr (.inr ⟨n, hn⟩)
        · exact .inr hn
    · simp only [if_neg hf] at h
      cases h
  | property getter setter ih | readOnlyProperty getter ih =>
    rw [callGetDescr] at h
    rintro self f rfl
    revert h
    rcases getter.immediate? with _ | v
    · by_cases hg : getter.hasGetDescr = true
      · simp only [if_pos hg]
        rcases w.callGetDescr getter obj klass with e | a
        · exact fun h => nomatch h
        · exact fun h => nomatch h
      · simp only [if_neg hg]
        exact fun h => nomatch h
    · exact fun h => nomatch h

theorem map_some_ok {r : Except (AttrError O K M) (Access O K M F)} {access : Access O K M F}
    (h : r.map some = .ok (some access)) : r = .ok access := by
  rcases r with e | a
  · cases h
  · injection h with h
    injection h with h
    rw [h]

theorem Receives.of_nil {obj : Value O K M} {access : Access O K M F}
    (h : Receives (.nil : Value O K M) access) : Receives obj access := by
  intro self f hf
  rcases h self f hf with h | h
  · exact .inr (.inl h)
  · exact .inr h

theorem valGetAttr_receives {obj : Value O K M} {name : ID} {access : Access O K M F}
    (h : w.valGetAttr obj name = .ok (some access)) : Receives obj access := by
  revert h
  unfold valGetAttr
  rcases w.getClass obj with _ | k
  · exact fun h => nomatch h
  dsimp only
  rcases w.hook k with _ | _ | _ <;> dsimp only
  · unfold getAttrDefault
    rcases w.ownAttr obj name with _ | attr
    · rcases w.getAttrAndDefiningClass (.klass k) name with _ | ⟨attr, d⟩
      · exact fun h => nomatch h
      · exact fun h => w.callGetDescr_receives (map_some_ok h)
    · exact fun h => w.callGetDescr_receives (map_some_ok h)
  · unfold classCallGetAttr
    rcases w.classGetAttr (.klass k) name with _ | attr
    · rcases w.objGetAttr obj name with _ | attr
      · exact fun h => nomatch h
      · exact fun h => (w.callGetDescr_receives (map_some_ok h)).of_nil
    · exact fun h => w.callGetDescr_receives (map_some_ok h)
  · unfold packageCallGetAttr
    rcases w.objGetAttr obj name with _ | attr
    · rcases w.classGetAttr (.klass k) name with _ | attr
      · exact fun h => nomatch h
      · exact fun h => w.callGetDescr_receives (map_some_ok h)
    · rintro h self f rfl
      rcases attr with _ | _ | _ | _ | _ | _ <;> exact nomatch h

end Objects

namespace Operands

variable (w : Operands O K M S) (m : Meaning O K M S E)

theorem valGetAttr_self {obj self : Value O K M} {name : ID} {b : Body S} {t : BasicType}
    (h : w.valGetAttr obj name = .ok (some (.nativeInstanceMethod self b)))
    (ht : w.typeOf self = some t) : self = obj := by
  rcases w.valGetAttr_receives h self b rfl with h | h | ⟨n, h⟩
  · exact h
  · rw [h] at ht
    cases ht
  · rw [h] at ht
    cases ht

/-- The lookup of an operator ends at a native function, as a method of the operand. -/
def Finds (op : Operator) (left : Value O K M) (b : Body S) : Prop :=
  w.valGetAttr left (w.intern op.name) = .ok (some (.nativeInstanceMethod left b))

/-- A comparison is derived from `<=>` by its instruction, or by the function of `Comparable`. -/
def Derives (c : Comparison) (left : Value O K M) : Prop :=
  (w.fastType c.operator left).isSome ∨ w.Finds c.operator left (.comparable c)

/-- The instruction gives what calling the method gives and, if it is a comparison that is derived,
what deriving it from `<=>` gives. -/
structure LikeMethod (op : Operator) (left right : Value O K M) : Prop where
  method : w.inst m op left right = w.execBinop m op left right
  derived : ∀ c, op.comparison? = some c → w.Derives c left →
    w.inst m op left right = w.comparable m c left right

/-- The `<=>` of a type answers the operand. -/
def Answers (t : BasicType) (right : Value O K M) : Prop :=
  ∃ r ∈ t.answers, w.typeOf right = some r

/-- The lookup ends at what the instruction does without it. -/
def FindsOwn (op : Operator) (left right : Value O K M) (t : BasicType) : Prop :=
  match op.comparison? with
  | none =>
    (∃ h, w.Finds op left (.operator t op h)) ∧
      (t = .string → op = .binop .add → w.typeOf right = some .string)
  | some c =>
    w.Finds op left (.comparable c) ∧
      (∃ h, w.Finds (.binop .ufo) left (.operator t (.binop .ufo) h)) ∧
      (c.ofNil? = none → w.Answers t right)

theorem typeOf_of_fastType {op : Operator} {left : Value O K M} {t : BasicType}
    (h : w.fastType op left = some t) : w.typeOf left = some t := by
  unfold fastType at h
  rcases ht : w.typeOf left with _ | t' <;> rw [ht] at h
  · cases h
  · dsimp only at h
    by_cases hm : t' ∈ op.fastTypes
    · rw [if_pos hm] at h
      exact h
    · rw [if_neg hm] at h
      cases h

theorem inst_of_binop {op : Operator} {left : Value O K M} {t : BasicType} (right : Value O K M)
    (ht : w.fastType op left = some t) (hc : op.comparison? = none) :
    w.inst m op left right = w.binop m t op left right := by
  unfold inst
  rw [ht, hc]

theorem inst_of_comparison {op : Operator} {left : Value O K M} {t : BasicType} {c : Comparison}
    (right : Value O K M) (ht : w.fastType op left = some t) (hc : op.comparison? = some c) :
    w.inst m op left right = doComparison c left right (w.ufo m t left right) := by
  unfold inst
  rw [ht, hc]

theorem checkSelfType_of_typeOf {t : BasicType} {self : Value O K M} (op : Operator)
    (h : w.typeOf self = some t) : w.checkSelfType t op self = true := by
  unfold checkSelfType
  split
  · rfl
  · rw [h]
    simp
  · exact decide_eq_true h

theorem callOperator_eq {t : BasicType} {op : Operator} {self right : Value O K M}
    (hself : w.checkSelfType t op self = true)
    (hs : t = .string → op = .binop .add → w.typeOf right = some .string) :
    w.callOperator m t op self right = w.binop m t op self right := by
  unfold callOperator
  rw [if_pos hself, if_neg]
  rintro ⟨ht, hop, hr⟩
  exact hr (hs ht hop)

theorem callOperator_ufo {t : BasicType} {self : Value O K M} (right : Value O K M)
    (hself : w.checkSelfType t (.binop .ufo) self = true) :
    w.callOperator m t (.binop .ufo) self right = .ok (w.ufo m t self right) := by
  rw [w.callOperator_eq m hself fun _ h => nomatch h]
  unfold binop
  rw [if_pos rfl]

theorem execBinop_of_finds {op : Operator} {left : Value O K M} {b : Body S} (right : Value O K M)
    (h : w.Finds op left b) :
    w.execBinop m op left right = w.execCall m (.nativeInstanceMethod left b) right := by
  unfold execBinop
  rw [h]

theorem cmp_of_finds {left : Value O K M} {t : BasicType} {h : .binop .ufo ∈ t.methods}
    (right : Value O K M) (hf : w.Finds (.binop .ufo) left (.operator t (.binop .ufo) h))
    (ht : w.typeOf left = some t) : w.cmp m left right = .ok (w.ufo m t left right) := by
  unfold cmp
  rw [hf]
  exact w.callOperator_ufo m right (w.checkSelfType_of_typeOf _ ht)

/-- What `<=>` of a type answers: a number where it knows the type, and nil elsewhere. -/
theorem ufo_cases (t : BasicType) (left right : Value O K M) :
    (w.Answers t right ∧ w.ufo m t left right = .fixnum (m.order t left right)) ∨
      (¬ w.Answers t right ∧ w.ufo m t left right = .nil) := by
  unfold ufo Answers
  rcases w.typeOf right with _ | r
  · exact .inr ⟨fun ⟨_, _, h⟩ => (nomatch h), rfl⟩
  · by_cases hr : r ∈ t.answers
    · exact .inl ⟨⟨r, hr, rfl⟩, if_pos hr⟩
    · refine .inr ⟨?_, if_neg hr⟩
      rintro ⟨r', hr', h⟩
      rw [Option.some.inj h] at hr
      exact hr hr'

theorem fromCmp_eq_doComparison {t : BasicType} {c : Comparison} {left right : Value O K M}
    (h : c.ofNil? = none → w.Answers t right) :
    (fromCmp c left right (w.ufo m t left right) : Except (Raised O K M E) (Value O K M)) =
      doComparison c left right (w.ufo m t left right) := by
  rcases w.ufo_cases m t left right with ⟨_, hn⟩ | ⟨ha, hn⟩
  · rw [hn]
    cases c <;> rfl
  · rw [hn]
    rcases hc : c.ofNil? with _ | b
    · exact absurd (h hc) ha
    · unfold fromCmp doComparison
      rw [hc]

theorem operator_of_comparison? {op : Operator} {c : Comparison} (h : op.comparison? = some c) :
    op = c.operator := by
  rcases op with op | _
  · cases op <;> cases h <;> rfl
  · cases h

theorem likeMethod_of_findsOwn {op : Operator} {left right : Value O K M} {t : BasicType}
    (ht : w.fastType op left = some t) (h : w.FindsOwn op left right t) :
    w.LikeMethod m op left right := by
  have hleft := w.typeOf_of_fastType ht
  unfold FindsOwn at h
  rcases hc : op.comparison? with _ | c <;> rw [hc] at h
  · obtain ⟨⟨hm, hf⟩, hs⟩ := h
    constructor
    · rw [w.inst_of_binop m right ht hc, w.execBinop_of_finds m right hf]
      exact (w.callOperator_eq m (w.checkSelfType_of_typeOf op hleft) hs).symm
    · intro c h
      rw [hc] at h
      cases h
  · obtain ⟨hf, ⟨hm, hu⟩, ha⟩ := h
    have hd : w.inst m op left right = w.comparable m c left right := by
      unfold comparable
      rw [w.inst_of_comparison m right ht hc, w.cmp_of_finds m right hu hleft]
      exact (w.fromCmp_eq_doComparison m ha).symm
    constructor
    · rw [hd, w.execBinop_of_finds m right hf]
      rfl
    · intro c' h _
      rw [hc] at h
      obtain rfl := Option.some.inj h
      exact hd

theorem likeMethod_of_slow {op : Operator} {left right : Value O K M}
    (ht : w.fastType op left = none) : w.LikeMethod m op left right := by
  have hm : w.inst m op left right = w.execBinop m op left right := by
    unfold inst
    rw [ht]
  refine ⟨hm, fun c hc hd => ?_⟩
  obtain rfl := operator_of_comparison? hc
  rcases hd with hd | hd
  · rw [ht] at hd
    cases hd
  · rw [hm, w.execBinop_of_finds m right hd]
    rfl

open scoped Classical in
/-- A meaning that tells the function of the instruction from every other: what that computes no
other function does, and `<=>` orders any two operands by `n`. -/
noncomputable def probe (t : BasicType) (op : Operator) (left : Value O K M) (n : Int) :
    Meaning O K M S E where
  binop t' op' left' _ :=
    if t' = t ∧ op' = op ∧ left' = left then .ok (.symbol 0) else .ok (.symbol 1)
  order _ _ _ := n
  call _ _ := .ok (.symbol 1)

/-- The format of a `TypeError`. -/
def format? : Raised O K M E → Option String
  | .typeError format _ => some format
  | _ => none

/-- The formats of the errors that only an instruction raises. -/
def fastFormats : List String :=
  ["unsupported operand type(s) for +: %C and %C", "Comparison of %C with %C failed"]

/-- An error that only an instruction raises. -/
def FastError (e : Raised O K M E) : Prop := ∃ format ∈ fastFormats, format? e = some format

theorem not_fastError_of_none {e : Raised O K M E} (h : format? e = none) : ¬ FastError e := by
  rintro ⟨format, _, hf⟩
  rw [h] at hf
  cases hf

theorem not_fastError_typeError {format : String} (h : format ∉ fastFormats)
    (args : List (Value O K M)) : ¬ FastError (.typeError format args : Raised O K M E) := by
  rintro ⟨format', hm, hf⟩
  rw [Option.some.inj hf] at h
  exact h hm

/-- Results that no instruction of a known type has under `probe`. -/
inductive Foreign : Except (Raised O K M E) (Value O K M) → Prop
  | error (e : Raised O K M E) (h : ¬ FastError e) : Foreign (.error e)
  | call : Foreign (.ok (.symbol 1))

variable {t : BasicType} {op : Operator} {left right : Value O K M} {n : Int}

theorem not_fastError_selfType (t : BasicType) :
    ¬ FastError (.typeError ("self must be " ++ t.name) [] : Raised O K M E) := by
  refine not_fastError_typeError ?_ _
  cases t <;> decide

/-- What a method of a built-in class can give: an error of its own, the answer of `<=>` of an operand
of its type, or what the function under it computes. -/
theorem callOperator_cases (t' : BasicType) (op' : Operator) (self right : Value O K M)
    (h : op' ∈ t'.methods) :
    (∃ e, ¬ FastError e ∧ w.callOperator m t' op' self right = .error e) ∨
      (op' = .binop .ufo ∧ w.typeOf self = some t' ∧
        w.callOperator m t' op' self right = .ok (w.ufo m t' self right)) ∨
      (op' ≠ .binop .ufo ∧ w.callOperator m t' op' self right = m.binop t' op' self right) := by
  by_cases hself : w.checkSelfType t' op' self = true
  · by_cases hop : op' = .binop .ufo
    · subst hop
      refine .inr (.inl ⟨rfl, ?_, w.callOperator_ufo m right hself⟩)
      cases t' <;> first | exact absurd h (by decide) | exact of_decide_eq_true hself
    · unfold callOperator
      rw [if_pos hself]
      by_cases hs : t' = .string ∧ op' = .binop .add ∧ w.typeOf right ≠ some .string
      · rw [if_pos hs]
        exact .inl ⟨_, not_fastError_typeError (by decide) _, rfl⟩
      · rw [if_neg hs]
        unfold binop
        rw [if_neg hop, if_neg hs]
        exact .inr (.inr ⟨hop, rfl⟩)
  · unfold callOperator
    rw [if_neg hself]
    exact .inl ⟨_, not_fastError_selfType t', rfl⟩

theorem probe_binop (t : BasicType) (op : Operator) (left : Value O K M) (n : Int) (t' : BasicType)
    (op' : Operator) (self right : Value O K M) :
    (t' = t ∧ op' = op ∧ self = left) ∨
      (probe (S := S) (E := E) t op left n).binop t' op' self right = .ok (.symbol 1) := by
  unfold probe
  by_cases h : t' = t ∧ op' = op ∧ self = left
  · exact .inl h
  · exact .inr (if_neg h)

/-- What `<=>` can be found to give: an error that is not the instruction's, no number, or the answer
of the type of the operand. -/
theorem cmp_cases (m : Meaning O K M S E) (hcall : ∀ a x, m.call a x = .ok (.symbol 1))
    (hbinop : ∀ t op l r, ∃ i, m.binop t op l r = .ok (.symbol i)) (self right : Value O K M) :
    (∃ e, ¬ FastError e ∧ w.cmp m self right = .error e) ∨
      (∃ i, w.cmp m self right = .ok (.symbol i)) ∨
      ∃ t h, w.Finds (.binop .ufo) self (.operator t (.binop .ufo) h) ∧ w.typeOf self = some t := by
  unfold cmp
  rcases hv : w.valGetAttr self (w.intern (Operator.binop .ufo).name) with e | _ | access
  · exact .inl ⟨_, not_fastError_of_none rfl, rfl⟩
  · exact .inl ⟨_, not_fastError_of_none rfl, rfl⟩
  dsimp only
  by_cases hp : access.isPtr = true
  · rw [if_pos hp]
    unfold callUfo
    split
    · next self' t' op' h' =>
      rcases w.callOperator_cases m t' op' self' right h' with
        ⟨e, he, hr⟩ | ⟨hop, ht, hr⟩ | ⟨hop, hr⟩
      · exact .inl ⟨e, he, hr⟩
      · subst hop
        obtain rfl := w.valGetAttr_self hv ht
        exact .inr (.inr ⟨t', h', hv, ht⟩)
      · obtain ⟨i, hi⟩ := hbinop t' op' self' right
        exact .inr (.inl ⟨i, hr.trans hi⟩)
    · exact .inl ⟨_, not_fastError_of_none rfl, rfl⟩
    · exact .inr (.inl ⟨1, hcall _ _⟩)
  · rw [if_neg hp]
    exact .inl ⟨_, not_fastError_of_none rfl, rfl⟩

/-- What a function of `Comparable` can give: a truth value, or an error that is not the
instruction's. -/
theorem comparable_cases (m : Meaning O K M S E) (hcall : ∀ a x, m.call a x = .ok (.symbol 1))
    (hbinop : ∀ t op l r, ∃ i, m.binop t op l r = .ok (.symbol i)) (c : Comparison)
    (self right : Value O K M) :
    (∃ e, ¬ FastError e ∧ w.comparable m c self right = .error e) ∨
      ∃ t h, w.Finds (.binop .ufo) self (.operator t (.binop .ufo) h) ∧ w.typeOf self = some t ∧
        w.comparable m c self right = fromCmp c self right (w.ufo m t self right) := by
  unfold comparable
  rcases w.cmp_cases m hcall hbinop self right with ⟨e, he, hr⟩ | ⟨i, hr⟩ | ⟨t, h, hf, ht⟩
  · rw [hr]
    exact .inl ⟨e, he, rfl⟩
  · rw [hr]
    have he : ¬ FastError (.typeError "comparison of %C with %C failed" [self, right] :
        Raised O K M E) := not_fastError_typeError (by decide) _
    refine .inl ⟨_, he, ?_⟩
    cases c <;> rfl
  · rw [w.cmp_of_finds m right hf ht]
    exact .inr ⟨t, h, hf, ht, rfl⟩

/-- What looking an operator up and calling what was found comes to. -/
theorem execBinop_cases (m : Meaning O K M S E) (hcall : ∀ a x, m.call a x = .ok (.symbol 1))
    (op : Operator) (left right : Value O K M) :
    Foreign (w.execBinop m op left right) ∨
      (∃ self t' op' h', w.valGetAttr left (w.intern op.name) =
          .ok (some (.nativeInstanceMethod self (.operator t' op' h'))) ∧
        w.execBinop m op left right = w.callOperator m t' op' self right) ∨
      ∃ self c, w.valGetAttr left (w.intern op.name) =
          .ok (some (.nativeInstanceMethod self (.comparable c))) ∧
        w.execBinop m op left right = w.comparable m c self right := by
  unfold execBinop
  rcases hv : w.valGetAttr left (w.intern op.name) with e | _ | access
  · exact .inl (.error _ (not_fastError_of_none rfl))
  · exact .inl (.error _ (not_fastError_of_none rfl))
  dsimp only
  unfold execCall
  split
  · next self t' op' h' => exact .inr (.inl ⟨self, t', op', h', rfl, rfl⟩)
  · next self c => exact .inr (.inr ⟨self, c, rfl, rfl⟩)
  · rw [hcall]
    exact .inl .call

theorem probe_call (access : Access O K M (Body S)) (x : Value O K M) :
    (probe t op left n : Meaning O K M S E).call access x = .ok (.symbol 1) := rfl

theorem probe_binop_symbol (t : BasicType) (op : Operator) (left : Value O K M) (n : Int)
    (t' : BasicType) (op' : Operator) (self right : Value O K M) :
    ∃ i, (probe t op left n : Meaning O K M S E).binop t' op' self right = .ok (.symbol i) := by
  unfold probe
  by_cases h : t' = t ∧ op' = op ∧ self = left
  · exact ⟨0, if_pos h⟩
  · exact ⟨1, if_neg h⟩

/-- What the function of an instruction gives under `probe`: the answer of `<=>`, the error of `+`, or
the symbol that tells it from the others. -/
theorem binop_probe_cases (t : BasicType) (op : Operator) (left right : Value O K M) (n : Int) :
    let r := w.binop (probe t op left n : Meaning O K M S E) t op left right
    (op = .binop .ufo ∧ (r = .ok (.fixnum n) ∨ r = .ok .nil)) ∨
      (op ≠ .binop .ufo ∧ (t = .string ∧ op = .binop .add ∧ w.typeOf right ≠ some .string) ∧
        ∃ e, FastError e ∧ r = .error e) ∨
      (op ≠ .binop .ufo ∧ ¬ (t = .string ∧ op = .binop .add ∧ w.typeOf right ≠ some .string) ∧
        r = .ok (.symbol 0)) := by
  intro r
  by_cases hop : op = .binop .ufo
  · refine .inl ⟨hop, ?_⟩
    have hr : r = .ok (w.ufo (probe t op left n : Meaning O K M S E) t left right) := by
      show w.binop _ _ _ _ _ = _
      unfold binop
      rw [if_pos hop]
    rw [hr]
    rcases w.ufo_cases (probe t op left n : Meaning O K M S E) t left right with ⟨_, h⟩ | ⟨_, h⟩
    · rw [h]
      exact .inl rfl
    · rw [h]
      exact .inr rfl
  · by_cases hs : t = .string ∧ op = .binop .add ∧ w.typeOf right ≠ some .string
    · have he : FastError (.typeError "unsupported operand type(s) for +: %C and %C" [left, right] :
          Raised O K M E) := ⟨_, List.mem_cons_self, rfl⟩
      refine .inr (.inl ⟨hop, hs, _, he, ?_⟩)
      show w.binop _ _ _ _ _ = _
      unfold binop
      rw [if_neg hop, if_pos hs]
    · refine .inr (.inr ⟨hop, hs, ?_⟩)
      show w.binop _ _ _ _ _ = _
      unfold binop probe
      rw [if_neg hop, if_neg hs]
      exact if_pos ⟨rfl, rfl, rfl⟩

theorem binop_probe_not_foreign (t : BasicType) (op : Operator) (left right : Value O K M)
    (n : Int) : ¬ Foreign (w.binop (probe t op left n : Meaning O K M S E) t op left right) := by
  rcases w.binop_probe_cases (S := S) (E := E) t op left right n with
    ⟨_, h | h⟩ | ⟨_, _, e, he, h⟩ | ⟨_, _, h⟩ <;> rw [h]
  · rintro ⟨⟩
  · rintro ⟨⟩
  · rintro ⟨⟩
    contradiction
  · generalize hz : (0 : ID) = z
    rintro ⟨⟩
    exact absurd hz (by decide)

theorem fromCmp_cases (c : Comparison) (self x n : Value O K M) :
    (∃ b, (fromCmp c self x n : Except (Raised O K M E) _) = .ok (.bool b)) ∨
      ∃ e, ¬ FastError e ∧ (fromCmp c self x n : Except (Raised O K M E) _) = .error e := by
  have he : ¬ FastError (.typeError "comparison of %C with %C failed" [self, x] :
      Raised O K M E) := not_fastError_typeError (by decide) _
  unfold fromCmp
  split
  · exact .inl ⟨_, rfl⟩
  · exact .inl ⟨_, rfl⟩
  · exact .inr ⟨_, he, rfl⟩

theorem ufo_ne_symbol (t : BasicType) (left right : Value O K M) (i : ID) :
    w.ufo m t left right ≠ .symbol i := by
  rcases w.ufo_cases m t left right with ⟨_, h⟩ | ⟨_, h⟩ <;> rw [h]
  · exact fun h => nomatch h
  · exact fun h => nomatch h

/-- An operator that is no comparison can only be like its method if the method is that of the type:
under `probe` every other gives another result. -/
theorem finds_of_likeMethod (ht : w.fastType op left = some t) (hc : op.comparison? = none)
    (h : w.inst (probe t op left 0 : Meaning O K M S E) op left right =
      w.execBinop (probe t op left 0) op left right) :
    (∃ h, w.Finds op left (.operator t op h)) ∧
      (t = .string → op = .binop .add → w.typeOf right = some .string) := by
  have hleft := w.typeOf_of_fastType ht
  rw [w.inst_of_binop _ right ht hc] at h
  rcases w.execBinop_cases (probe t op left 0 : Meaning O K M S E) probe_call op left right with
    hf | ⟨self, t', op', h', hv, hr⟩ | ⟨self, c, hv, hr⟩
  · rw [← h] at hf
    exact absurd hf (w.binop_probe_not_foreign t op left right 0)
  · rw [hr] at h
    rcases w.callOperator_cases (probe t op left 0 : Meaning O K M S E) t' op' self right h' with
      ⟨e, he, hr⟩ | ⟨hop', hself, hr⟩ | ⟨hop', hr⟩ <;> rw [hr] at h
    · exact absurd (h ▸ Foreign.error e he) (w.binop_probe_not_foreign t op left right 0)
    · obtain rfl := w.valGetAttr_self hv hself
      obtain rfl := Option.some.inj (hself.symm.trans hleft)
      rcases w.binop_probe_cases (S := S) (E := E) t' op self right 0 with
        ⟨hop, _⟩ | ⟨_, _, e, _, hb⟩ | ⟨_, _, hb⟩
      · subst hop hop'
        exact ⟨⟨h', hv⟩, fun _ h => nomatch h⟩
      · rw [hb] at h
        cases h
      · rw [hb] at h
        injection h with h
        exact absurd h.symm (w.ufo_ne_symbol _ _ _ _ _)
    · rcases probe_binop (S := S) (E := E) t op left 0 t' op' self right with ⟨rfl, rfl, rfl⟩ | hs
      · refine ⟨⟨h', hv⟩, fun htype hop => ?_⟩
        by_contra hright
        rcases w.binop_probe_cases (S := S) (E := E) t' op' self right 0 with
          ⟨hop, _⟩ | ⟨_, _, e, _, hb⟩ | ⟨_, hb, _⟩
        · exact hop' hop
        · obtain ⟨i, hi⟩ := probe_binop_symbol (S := S) (E := E) t' op' self 0 t' op' self right
          rw [hb, hi] at h
          cases h
        · exact hb ⟨htype, hop, hright⟩
      · rw [hs] at h
        exact absurd (h ▸ Foreign.call) (w.binop_probe_not_foreign t op left right 0)
  · rw [hr] at h
    have hb : ∀ b, w.binop (probe t op left 0 : Meaning O K M S E) t op left right ≠
        .ok (.bool b) := by
      intro b
      rcases w.binop_probe_cases (S := S) (E := E) t op left right 0 with
        ⟨_, h | h⟩ | ⟨_, _, e, _, h⟩ | ⟨_, _, h⟩ <;> rw [h] <;> exact fun h => nomatch h
    have hn := w.binop_probe_not_foreign (S := S) (E := E) t op left right 0
    rcases w.comparable_cases (probe t op left 0 : Meaning O K M S E) probe_call
      (probe_binop_symbol t op left 0) c self right with ⟨e, he, hr⟩ | ⟨_, _, _, _, hr⟩ <;> rw [hr] at h
    · exact absurd (h ▸ Foreign.error e he) hn
    · rcases fromCmp_cases (E := E) c self right _ with ⟨b, hb'⟩ | ⟨e, he, hb'⟩ <;>
        rw [hb'] at h
      · exact absurd h (hb b)
      · exact absurd (h ▸ Foreign.error e he) hn

theorem doComparison_cases (c : Comparison) (left right n : Value O K M) :
    (∃ b, (doComparison c left right n : Except (Raised O K M E) _) = .ok (.bool b)) ∨
      ∃ e, FastError e ∧ (doComparison c left right n : Except (Raised O K M E) _) = .error e := by
  have he : FastError (.typeError "Comparison of %C with %C failed" [left, right] :
      Raised O K M E) := ⟨_, List.mem_cons_of_mem _ List.mem_cons_self, rfl⟩
  unfold doComparison
  split
  · exact .inl ⟨_, rfl⟩
  · exact .inl ⟨_, rfl⟩
  · exact .inr ⟨_, he, rfl⟩

theorem doComparison_not_foreign (c : Comparison) (left right n : Value O K M) :
    ¬ Foreign (doComparison c left right n : Except (Raised O K M E) _) := by
  rcases doComparison_cases (E := E) c left right n with ⟨b, h⟩ | ⟨e, he, h⟩ <;> rw [h]
  · rintro ⟨⟩
  · rintro ⟨⟩
    contradiction

theorem doComparison_ok {c : Comparison} {left right n v : Value O K M}
    (h : (doComparison c left right n : Except (Raised O K M E) _) = .ok v) : ∃ b, v = .bool b := by
  rcases doComparison_cases (E := E) c left right n with ⟨b, hb⟩ | ⟨e, he, hb⟩ <;> rw [hb] at h
  · injection h with h
    exact ⟨b, h.symm⟩
  · cases h

/-- The three outcomes of `<=>` tell the comparisons apart. -/
theorem holds_inj {c c' : Comparison} (h : ∀ n, c.holds n = c'.holds n) : c = c' := by
  have hless := h (-1)
  have hequal := h 0
  have hgreater := h 1
  cases c <;> cases c' <;>
    first
    | rfl
    | exact absurd hless (by decide)
    | exact absurd hequal (by decide)
    | exact absurd hgreater (by decide)

/-- The instruction and a function of `Comparable` make the same of nil only if they are the same, and
do not raise: their errors are not spelt alike. -/
theorem nil_unique {c c' : Comparison} {left right : Value O K M}
    (h : doComparison c left right .nil =
      (fromCmp c' left right .nil : Except (Raised O K M E) (Value O K M))) :
    c' = c ∧ c.ofNil? ≠ none := by
  unfold doComparison fromCmp at h
  rcases hc : c.ofNil? with _ | b <;> rcases hc' : c'.ofNil? with _ | b' <;> rw [hc, hc'] at h
  · injection h with h
    injection h with h _
    exact absurd h (by decide)
  · exact nomatch h
  · exact nomatch h
  · injection h with h
    injection h with h
    subst h
    refine ⟨?_, fun h => nomatch h⟩
    cases c <;> cases hc <;> cases c' <;> cases hc' <;> rfl

/-- The instruction and a function of `Comparable` make the same of every answer of `<=>` only if they
are the same comparison, and one that nil is an answer to, unless the type has answered. -/
theorem comparison_unique {c c' : Comparison} {t : BasicType} {left right : Value O K M}
    (m : Int → Meaning O K M S E) (hm : ∀ n, (m n).order t left right = n)
    (h : ∀ n, doComparison c left right (w.ufo (m n) t left right) =
      (fromCmp c' left right (w.ufo (m n) t left right) : Except (Raised O K M E) _)) :
    c' = c ∧ (c.ofNil? = none → w.Answers t right) := by
  by_cases ha : w.Answers t right
  · refine ⟨(holds_inj fun n => ?_).symm, fun _ => ha⟩
    rcases w.ufo_cases (m n) t left right with ⟨_, hn⟩ | ⟨hna, _⟩
    · have hb := h n
      rw [hn, hm] at hb
      have hb : (.ok (.bool (c.holds n)) : Except (Raised O K M E) (Value O K M)) =
          .ok (.bool (c'.holds n)) := hb
      injection hb with hb
      injection hb
    · exact absurd ha hna
  · rcases w.ufo_cases (m 0) t left right with ⟨hy, _⟩ | ⟨_, hn⟩
    · exact absurd hy ha
    · have hb := h 0
      rw [hn] at hb
      obtain ⟨hcc, hnil⟩ := nil_unique hb
      exact ⟨hcc, fun hn => absurd hn hnil⟩

theorem findsOwn_of_comparison {c : Comparison} (ht : w.fastType op left = some t)
    (hc : op.comparison? = some c)
    (h : ∀ n, w.inst (probe t op left n : Meaning O K M S E) op left right =
      w.execBinop (probe t op left n) op left right) :
    w.Finds op left (.comparable c) ∧
      (∃ h, w.Finds (.binop .ufo) left (.operator t (.binop .ufo) h)) ∧
      (c.ofNil? = none → w.Answers t right) := by
  have hleft := w.typeOf_of_fastType ht
  have h : ∀ n, doComparison c left right
      (w.ufo (probe t op left n : Meaning O K M S E) t left right) =
        w.execBinop (probe t op left n) op left right := fun n =>
    (w.inst_of_comparison _ right ht hc).symm.trans (h n)
  have h0 := h 0
  have hn := doComparison_not_foreign (E := E) c left right
    (w.ufo (probe t op left 0 : Meaning O K M S E) t left right)
  rcases w.execBinop_cases (probe t op left 0 : Meaning O K M S E) probe_call op left right with
    hf | ⟨self, t', op', h', hv, hr⟩ | ⟨self, c', hv, hr⟩
  · rw [← h0] at hf
    exact absurd hf hn
  · rw [hr] at h0
    rcases w.callOperator_cases (probe t op left 0 : Meaning O K M S E) t' op' self right h' with
      ⟨e, he, hr⟩ | ⟨_, _, hr⟩ | ⟨_, hr⟩ <;> rw [hr] at h0
    · exact absurd (h0 ▸ Foreign.error e he) hn
    · obtain ⟨b, hb⟩ := doComparison_ok h0
      rcases w.ufo_cases (probe t op left 0 : Meaning O K M S E) t' self right with ⟨_, hu⟩ | ⟨_, hu⟩ <;>
        rw [hu] at hb <;> cases hb
    · obtain ⟨i, hi⟩ := probe_binop_symbol (S := S) (E := E) t op left 0 t' op' self right
      rw [hi] at h0
      obtain ⟨b, hb⟩ := doComparison_ok h0
      cases hb
  · rw [hr] at h0
    rcases w.comparable_cases (probe t op left 0 : Meaning O K M S E) probe_call
      (probe_binop_symbol t op left 0) c' self right with ⟨e, he, hr⟩ | ⟨t', h', hu, hself, _⟩
    · rw [hr] at h0
      exact absurd (h0 ▸ Foreign.error e he) hn
    · obtain rfl := w.valGetAttr_self hv hself
      obtain rfl := Option.some.inj (hself.symm.trans hleft)
      have hall : ∀ n, doComparison c self right
          (w.ufo (probe t' op self n : Meaning O K M S E) t' self right) =
            (fromCmp c' self right (w.ufo (probe t' op self n : Meaning O K M S E) t' self right) :
              Except (Raised O K M E) (Value O K M)) := by
        intro n
        rw [h n, w.execBinop_of_finds _ right hv]
        show w.comparable _ c' self right = _
        unfold comparable
        rw [w.cmp_of_finds _ right hu hself]
      obtain ⟨rfl, ha⟩ := w.comparison_unique (probe t' op self) (fun _ => rfl) hall
      exact ⟨hv, ⟨h', hu⟩, ha⟩

/-- For whatever the functions compute, an operator instruction is like its method if and only if it
does not know the type of its left operand, or the lookup ends at what it does without. -/
theorem likeMethod_iff (op : Operator) (left right : Value O K M) :
    (∀ m : Meaning O K M S E, w.LikeMethod m op left right) ↔
      ∀ t, w.fastType op left = some t → w.FindsOwn op left right t := by
  constructor
  · intro h t ht
    unfold FindsOwn
    rcases hc : op.comparison? with _ | c
    · exact w.finds_of_likeMethod ht hc (h (probe t op left 0)).method
    · exact w.findsOwn_of_comparison ht hc fun n => (h (probe t op left n)).method
  · intro h m
    rcases ht : w.fastType op left with _ | t
    · exact w.likeMethod_of_slow m ht
    · exact w.likeMethod_of_findsOwn m ht (h t ht)

end Operands

/-- Class `1` of strings, and class `2` below it that defines `+`. The objects are a string of class `2`
and one of class `1`. -/
def overridden : Operands Bool Nat Empty String where
  cFixnum := 0
  cBool := 0
  cNil := 0
  cSymbol := 0
  classOf o := if o then 1 else 2
  metaclass _ := 0
  hasAttrs _ := false
  attrs _ := []
  nodeAttrs n := if n = .klass 2 then [(7, .function (.other "+"))] else []
  super n := if n = .klass 2 then some (.klass 1) else none
  hook k := if k = 0 then some .klass else none
  height n := if n = .klass 2 then 1 else 0
  super_height := by
    intro n s h
    by_cases hn : n = .klass 2
    · rw [if_pos hn] at h ⊢
      cases h
      decide
    · rw [if_neg hn] at h
      cases h
  tag _ := some .string
  tag_ne_fixnum _ := by decide
  intern name := if name = "+" then 7 else 8

/-- The function for `+` of strings answers its right operand here, and the method nil. -/
def overriding : Meaning Bool Nat Empty String Empty where
  binop _ _ _ right := .ok right
  order _ _ _ := 0
  call _ _ := .ok .nil

/-- The instruction `add` does not get to the method `+` of a class below `String`. -/
theorem not_likeMethod_overridden :
    ¬ overridden.LikeMethod overriding (.binop .add) (.obj false) (.obj true) := by
  rintro ⟨h, _⟩
  have hm : overridden.execBinop overriding (.binop .add) (.obj false) (.obj true) = .ok .nil := by
    unfold Operands.execBinop
    have hv : overridden.valGetAttr (.obj false) (overridden.intern (Operator.binop .add).name) =
        .ok (some (.instanceMethod (.obj false) (.other "+") (some (.klass 2)))) := by
      show overridden.getAttrDefault (.obj false) 2 7 = _
      unfold Objects.getAttrDefault
      rw [Objects.getAttrAndDefiningClass]
      rfl
    rw [hv]
    rfl
  rw [hm] at h
  cases h

end Yog
