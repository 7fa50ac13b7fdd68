import Yog.Pointee
import Yog.Lib.Runs
import Yog.Lib.Tricolour

/-!
# Pointees are kept

What the memory of a struct points to is kept by the array of its children, as long as the memory is
written through the struct that owns it. A struct over a part of that memory has children of its own
(`Faithful` fails for it), and a copy of the memory is not a copy of the children.

An observer notes which field of which owner a struct stands for, however it was reached, and what
was stored there. The invariant `Kept` says that the children of an owner are what was stored in its
fields, that nothing was stored below, and that every address in memory is that of a child.
-/

namespace Yog

namespace Ffi

namespace Pointee

/-- A field or a struct in one, by the fields that lead to it from the struct that owns the
memory. -/
structure Place where
  owner : ObjId
  path : List ℕ
  deriving DecidableEq

def Place.field (p : Place) (i : ℕ) : Place := { p with path := p.path ++ [i] }

/-- What the observer knows: the places of the structs, and the object last stored at a place. -/
structure Notes where
  place : ObjId → Option Place
  stored : Place → Option ObjId

def Notes.init : Notes where
  place := fun _ => none
  stored := fun _ => none

def Notes.fieldOf (g : Notes) (x : ObjId) (i : ℕ) : Option Place := (g.place x).map (·.field i)

/-- What was stored in a field of a struct. -/
def Notes.storedIn (g : Notes) (x : ObjId) (i : ℕ) : Option ObjId := (g.fieldOf x i).bind g.stored

def Notes.setPlace (g : Notes) (x : ObjId) (p : Option Place) : Notes :=
  { g with place := Function.update g.place x p }

/-- A struct and all in it is stored at a place. -/
def Notes.copy (g : Notes) (dest src : Place) : Notes :=
  { g with stored := fun p =>
      if p.owner = dest.owner ∧ dest.path <+: p.path then
        g.stored ⟨src.owner, src.path ++ p.path.drop dest.path.length⟩
      else g.stored p }

section Observer

variable (classes : ℕ → StructClass)

def fieldClass (s : State) (x : ObjId) (i : ℕ) : Option FieldClass :=
  (s.struct? x).bind fun st => ((classes st.klass).fields[i]?).map FieldBase.type

def note (s : State) (e : Op × Value) (_ : State) (g : Notes) : Notes :=
  match e with
  | (.newStruct _, .obj x) => g.setPlace x (some ⟨x, []⟩)
  | (.get x i, .obj v) =>
    match fieldClass classes s x i with
    | some (.structField _) => g.setPlace v (g.fieldOf x i)
    | some (.pointerField _) => g.setPlace v ((g.storedIn x i).bind g.place)
    | _ => g
  | (.set x i val, _) =>
    match fieldClass classes s x i, g.fieldOf x i with
    | some (.structField _), some p =>
      match g.place val with
      | some q => g.copy p q
      | none => g
    | some _, some p => { g with stored := Function.update g.stored p (some val) }
    | _, _ => g
  | _ => g

/-- Every buffer or struct that has its address in the memory of a struct the collector reaches is
reached. -/
def KeepsPointees (s : State) : Prop :=
  ∀ roots x st a o p, Reachable s.succ roots x → s.struct? x = some st → st.data = some a →
    a.offset ≤ o → o < a.offset + (classes st.klass).size → s.mem a.owner o = some p →
    Reachable s.succ roots p.owner

/-- Reading a field gives the object that was stored there, or a struct over its memory. -/
def ReadsRight (s : State) (g : Notes) (x : ObjId) (i : ℕ) : Prop :=
  ∀ v s', descrGet classes s x i = some (v, s') →
    (fieldClass classes s x i = some .bufferField → v = .ofChild (g.storedIn x i))
      ∧ ∀ klass, fieldClass classes s x i = some (.pointerField klass) →
        v = .ofChild (g.storedIn x i) ∨ ∃ c w, g.storedIn x i = some c ∧ v = .obj w
          ∧ s'.ptr? w = s'.ptr? c

/-- No address was written to the memory of a struct, and it has no children. -/
def Blank (s : State) (x : ObjId) : Prop :=
  ∃ st a, s.struct? x = some st ∧ st.data = some a ∧ (∀ c ∈ st.children, c = none)
    ∧ ∀ o, a.offset ≤ o → o < a.offset + (classes st.klass).size → s.mem a.owner o = none

def Owns (s : State) (x : ObjId) : Prop := ∃ st, s.struct? x = some st ∧ st.own = true

/-- Buffers and pointers are assigned, and pointers are read, through the struct that owns the
memory only; what is copied is blank. -/
def Faithful (s : State × Notes) (e : Op × Value) : Prop :=
  match e.1 with
  | .get x i => ∀ klass, fieldClass classes s.1 x i = some (.pointerField klass) → Owns s.1 x
  | .set x i val =>
    match fieldClass classes s.1 x i with
    | some (.structField _) => Blank classes s.1 val
    | _ => Owns s.1 x
  | _ => True

structure Kept (s : State) (g : Notes) : Prop where
  data : ∀ x st, s.struct? x = some st → ∃ a, st.data = some a ∧ a.owner = st.top
  own : ∀ x st, s.struct? x = some st → st.own = true → st.top = x ∧ st.data = some ⟨x, 0⟩
    ∧ st.children.length = (classes st.klass).childrenNum ∧ g.place x = some ⟨x, []⟩
  view : ∀ x st, s.struct? x = some st → st.own = false → (∀ c ∈ st.children, c = none)
    ∧ Owns s st.top ∧ ∃ path i, g.place x = some ⟨st.top, path ++ [i]⟩
      ∧ (path = [] → ∃ k, fieldClass classes s st.top i = some (.structField k))
  children : ∀ x st i fc, s.struct? x = some st → st.own = true →
    fieldClass classes s x i = some fc → fc.hasChild = true →
    st.children[(classes st.klass).childIndex i]?.join = g.stored ⟨x, [i]⟩
  stored : ∀ p, g.stored p ≠ none → ∃ i fc, p.path = [i]
    ∧ fieldClass classes s p.owner i = some fc ∧ fc.hasChild = true
  mem : ∀ b o p, s.mem b o = some p → ∃ st i field c, s.struct? b = some st ∧ st.own = true
    ∧ (classes st.klass).fields[i]? = some field ∧ field.offset = o ∧ field.type.hasChild = true
    ∧ st.children[(classes st.klass).childIndex i]? = some (some c) ∧ s.ptr? c = some p

variable {classes} {s s' : State} {g : Notes}

theorem lt_of_struct? {x : ObjId} {st : Struct} (h : s.struct? x = some st) :
    x < s.objs.length := by
  unfold State.struct? at h
  by_contra hx
  rw [List.getElem?_eq_none (Nat.not_lt.1 hx)] at h
  cases h

theorem ptr?_of_struct? {x : ObjId} {st : Struct} (h : s.struct? x = some st) :
    s.ptr? x = st.data := by
  unfold State.struct? at h
  unfold State.ptr?
  split at h
  · rename_i st' hst
    cases h
    rw [hst]
  · cases h

theorem fieldClass_of_struct? {x : ObjId} {st : Struct} {i : ℕ} (h : s.struct? x = some st) :
    fieldClass classes s x i = ((classes st.klass).fields[i]?).map FieldBase.type := by
  unfold fieldClass
  rw [h]
  rfl

/-- The owner of a pointee's memory is reached from the pointee. -/
theorem reachable_of_ptr? (hk : Kept classes s g) {roots : Set ObjId} {c : ObjId} {p : Address}
    (hp : s.ptr? c = some p) (hr : Reachable s.succ roots c) : Reachable s.succ roots p.owner := by
  unfold State.ptr? at hp
  split at hp
  · cases hp
    exact hr
  · rename_i st hst
    have hs : s.struct? c = some st := by
      unfold State.struct?
      rw [hst]
    obtain ⟨a, ha, ho⟩ := hk.data c st hs
    cases ha.symm.trans hp
    rw [ho]
    exact hr.step ⟨st, hs, .inl rfl⟩
  · cases hp

theorem keepsPointees_of_kept (hk : Kept classes s g) : KeepsPointees classes s := by
  intro roots x st a o p hr hs ha _ _ hm
  obtain ⟨a', ha', ho⟩ := hk.data x st hs
  cases ha'.symm.trans ha
  obtain ⟨st', i, field, c, hs', -, -, -, -, hc, hp⟩ := hk.mem _ _ _ hm
  have htop : Reachable s.succ roots a.owner := by
    rw [ho]
    exact hr.step ⟨st, hs, .inl rfl⟩
  exact reachable_of_ptr? hk hp (htop.step ⟨st', hs', .inr (List.mem_of_getElem? hc)⟩)

theorem storedIn_of_own (hk : Kept classes s g) {x : ObjId} {st : Struct} {i : ℕ}
    (hs : s.struct? x = some st) (ho : st.own = true) : g.storedIn x i = g.stored ⟨x, [i]⟩ := by
  unfold Notes.storedIn Notes.fieldOf
  rw [(hk.own x st hs ho).2.2.2]
  rfl

theorem storedIn_of_view (hk : Kept classes s g) {x : ObjId} {st : Struct} {i : ℕ}
    (hs : s.struct? x = some st) (ho : st.own = false) : g.storedIn x i = none := by
  obtain ⟨-, -, path, j, hp, -⟩ := hk.view x st hs ho
  unfold Notes.storedIn Notes.fieldOf
  rw [hp]
  by_contra hne
  obtain ⟨i', fc, hpath, -⟩ := hk.stored _ hne
  have := congrArg List.length hpath
  simp [Place.field] at this

/-- What reading a field does. -/
theorem descrGet_cases {x : ObjId} {i : ℕ} {v : Value} (h : descrGet classes s x i = some (v, s')) :
    ∃ st field, s.struct? x = some st ∧ (classes st.klass).fields[i]? = some field
      ∧ ((field.type.hasChild = true ∧ (field.type = .bufferField ∨ st.own = true)
          ∧ v = .ofChild (st.children[(classes st.klass).childIndex i]?.join) ∧ s' = s)
        ∨ (∃ klass a, field.type = .pointerField klass ∧ st.own = false ∧ st.data = some a
          ∧ (v, s') = createStructFromPointer classes s klass
            (s.mem a.owner (a.add field.offset).offset))
        ∨ ∃ klass, field.type = .structField klass
          ∧ (v, s') = structFieldGet classes s st klass field.offset) := by
  obtain ⟨st, hs, h₁⟩ := Option.bind_eq_some_iff.1 h
  obtain ⟨field, hf, h₂⟩ := Option.bind_eq_some_iff.1 h₁
  refine ⟨st, field, hs, hf, ?_⟩
  rcases ht : field.type with _ | _ | klass | klass <;> simp only [ht] at h₂
  · cases h₂
  · cases h₂
    exact .inl ⟨rfl, .inl rfl, rfl, rfl⟩
  · unfold structGetPointer at h₂
    by_cases ho : st.own = true
    · rw [if_pos ho] at h₂
      cases h₂
      exact .inl ⟨rfl, .inr ho, rfl, rfl⟩
    · rw [if_neg ho] at h₂
      obtain ⟨a, ha, he⟩ := Option.map_eq_some_iff.1 h₂
      exact .inr (.inl ⟨klass, a, rfl, by simpa using ho, ha, he.symm⟩)
  · cases h₂
    exact .inr (.inr ⟨klass, rfl, rfl⟩)

/-- What assigning to a field does. -/
theorem descrSet_cases {x : ObjId} {i : ℕ} {val : ObjId}
    (h : descrSet classes s x i val = some s') :
    ∃ st field a, s.struct? x = some st ∧ (classes st.klass).fields[i]? = some field
      ∧ st.data = some a
      ∧ ((field.type.hasChild = true
          ∧ structWriteChild s x st ((classes st.klass).childIndex i) val field.offset (s.ptr? val)
            = some s')
        ∨ ∃ klass src, field.type = .structField klass ∧ s.klass? val = some klass
          ∧ s.ptr? val = some src
          ∧ s' = { s with mem := s.mem.copy (a.add field.offset) src (classes klass).size }) := by
  obtain ⟨st, hs, h₁⟩ := Option.bind_eq_some_iff.1 h
  obtain ⟨field, hf, h₂⟩ := Option.bind_eq_some_iff.1 h₁
  have hwrite : ∀ {s'' : State}, structWriteChild s x st ((classes st.klass).childIndex i) val
      field.offset (s.ptr? val) = some s'' → ∃ a, st.data = some a := fun hw => by
    obtain ⟨a, ha, -⟩ := Option.map_eq_some_iff.1 hw
    exact ⟨a, ha⟩
  rcases ht : field.type with _ | _ | klass | klass <;> simp only [ht] at h₂
  · cases h₂
  · by_cases hb : s.isBuffer val = true
    · rw [if_pos hb] at h₂
      obtain ⟨a, ha⟩ := hwrite h₂
      exact ⟨st, field, a, hs, hf, ha, .inl ⟨by rw [ht]; rfl, h₂⟩⟩
    · rw [if_neg hb] at h₂
      cases h₂
  · by_cases hk : s.klass? val = some klass
    · rw [if_pos hk] at h₂
      obtain ⟨a, ha⟩ := hwrite h₂
      exact ⟨st, field, a, hs, hf, ha, .inl ⟨by rw [ht]; rfl, h₂⟩⟩
    · rw [if_neg hk] at h₂
      cases h₂
  · by_cases hk : s.klass? val = some klass
    · rw [if_pos hk] at h₂
      obtain ⟨a, ha, h₃⟩ := Option.bind_eq_some_iff.1 h₂
      obtain ⟨src, hsrc, h₄⟩ := Option.bind_eq_some_iff.1 h₃
      cases h₄
      exact ⟨st, field, a, hs, hf, ha, .inr ⟨klass, src, ht, hk, hsrc, rfl⟩⟩
    · rw [if_neg hk] at h₂
      cases h₂

theorem readsRight_of_kept (hk : Kept classes s g) {x : ObjId} {i : ℕ}
    (hf : ∀ klass, fieldClass classes s x i = some (.pointerField klass) → Owns s x) :
    ReadsRight classes s g x i := by
  intro v s' h
  obtain ⟨st, field, hs, hfield, hcases⟩ := descrGet_cases h
  have hfc : fieldClass classes s x i = some field.type := by
    rw [fieldClass_of_struct? hs, hfield]
    rfl
  have hchild : field.type.hasChild = true →
      v = .ofChild (st.children[(classes st.klass).childIndex i]?.join) →
      v = .ofChild (g.storedIn x i) := by
    intro hc hv
    cases ho : st.own with
    | true => rw [storedIn_of_own hk hs ho, ← hk.children x st i _ hs ho hfc hc, hv]
    | false =>
      rw [storedIn_of_view hk hs ho, hv]
      rcases hi : st.children[(classes st.klass).childIndex i]? with _ | c
      · rfl
      · rw [(hk.view x st hs ho).1 c (List.mem_of_getElem? hi)]
        rfl
  rcases hcases with ⟨hc, -, hv, -⟩ | ⟨klass, a, hp, ho, -⟩ | ⟨klass, hp, -⟩
  · exact ⟨fun _ => hchild hc hv, fun _ _ => .inl (hchild hc hv)⟩
  · obtain ⟨st', hs', ho'⟩ := hf klass (hfc.trans (congrArg some hp))
    cases hs.symm.trans hs'
    rw [ho] at ho'
    cases ho'
  · rw [hfc, hp]
    exact ⟨by nofun, by nofun⟩

theorem struct?_push {o : Obj} {x : ObjId} {st : Struct} :
    (s.push o).struct? x = some st
      ↔ s.struct? x = some st ∨ x = s.objs.length ∧ o = .struct st := by
  unfold State.push State.struct?
  rcases Nat.lt_trichotomy x s.objs.length with hx | rfl | hx
  · rw [List.getElem?_append_left hx]
    simp [Nat.ne_of_lt hx]
  · rw [List.getElem?_append_right (Nat.le_refl _), Nat.sub_self,
      List.getElem?_eq_none (Nat.le_refl _)]
    cases o <;> simp
  · rw [List.getElem?_eq_none (by simpa using Nat.succ_le_of_lt hx),
      List.getElem?_eq_none (Nat.le_of_lt hx)]
    simp [Nat.ne_of_gt hx]

theorem ptr?_push {o : Obj} {c : ObjId} {p : Address} (h : s.ptr? c = some p) :
    (s.push o).ptr? c = some p := by
  have hc : c < s.objs.length := by
    by_contra hc
    unfold State.ptr? at h
    rw [List.getElem?_eq_none (Nat.not_lt.1 hc)] at h
    cases h
  unfold State.push State.ptr?
  rw [List.getElem?_append_left hc]
  exact h

theorem owns_push {o : Obj} {x : ObjId} (h : Owns s x) : Owns (s.push o) x := by
  obtain ⟨st, hs, ho⟩ := h
  exact ⟨st, struct?_push.2 (.inl hs), ho⟩

theorem fieldClass_push {o : Obj} {x : ObjId} {i : ℕ} {fc : FieldClass}
    (h : fieldClass classes s x i = some fc) : fieldClass classes (s.push o) x i = some fc := by
  obtain ⟨st, hs, hf⟩ := Option.bind_eq_some_iff.1 h
  exact Option.bind_eq_some_iff.2 ⟨st, struct?_push.2 (.inl hs), hf⟩

theorem fieldClass_of_push {o : Obj} {x : ObjId} {i : ℕ} {fc : FieldClass} {st : Struct}
    (hs : s.struct? x = some st) (h : fieldClass classes (s.push o) x i = some fc) :
    fieldClass classes s x i = some fc := by
  rw [fieldClass_of_struct? (struct?_push.2 (.inl hs))] at h
  rw [fieldClass_of_struct? hs, h]

/-- A new object. What the observer notes of it is where it is, when it is a struct. -/
theorem Kept.push (hk : Kept classes s g) {o : Obj} {p : Option Place}
    (hnew : ∀ st, o = .struct st → (∃ a, st.data = some a ∧ a.owner = st.top)
      ∧ (∀ c ∈ st.children, c = none)
      ∧ ((st.own = true ∧ st.top = s.objs.length ∧ st.data = some ⟨s.objs.length, 0⟩
          ∧ st.children.length = (classes st.klass).childrenNum ∧ p = some ⟨s.objs.length, []⟩)
        ∨ (st.own = false ∧ Owns s st.top ∧ ∃ path i, p = some ⟨st.top, path ++ [i]⟩
          ∧ (path = [] → ∃ k, fieldClass classes s st.top i = some (.structField k))))) :
    Kept classes (s.push o) (g.setPlace s.objs.length p) := by
  have hplace : ∀ {x st}, s.struct? x = some st →
      (g.setPlace s.objs.length p).place x = g.place x := fun h =>
    Function.update_of_ne (Nat.ne_of_lt (lt_of_struct? h)) ..
  have hself : (g.setPlace s.objs.length p).place s.objs.length = p := Function.update_self ..
  refine ⟨fun x st hs => ?_, fun x st hs ho => ?_, fun x st hs ho => ?_,
    fun x st i fc hs ho hfc hc => ?_, fun q hq => ?_, fun b o' q hm => ?_⟩
  · rcases struct?_push.1 hs with hs | ⟨-, rfl⟩
    · exact hk.data x st hs
    · exact (hnew st rfl).1
  · rcases struct?_push.1 hs with hs | ⟨rfl, rfl⟩
    · rw [hplace hs]
      exact hk.own x st hs ho
    · obtain ⟨-, -, ⟨-, ht, hd, hl, hp⟩ | ⟨ho', -⟩⟩ := hnew st rfl
      · exact ⟨ht, hd, hl, hself.trans hp⟩
      · rw [ho] at ho'
        cases ho'
  · rcases struct?_push.1 hs with hs | ⟨rfl, rfl⟩
    · obtain ⟨hc, ht, path, i, hp, hpath⟩ := hk.view x st hs ho
      refine ⟨hc, owns_push ht, path, i, (hplace hs).trans hp, fun he => ?_⟩
      obtain ⟨k, hfc⟩ := hpath he
      exact ⟨k, fieldClass_push hfc⟩
    · obtain ⟨-, hc, ⟨ho', -⟩ | ⟨-, ht, path, i, hp, hpath⟩⟩ := hnew st rfl
      · rw [ho] at ho'
        cases ho'
      · refine ⟨hc, owns_push ht, path, i, hself.trans hp, fun he => ?_⟩
        obtain ⟨k, hfc⟩ := hpath he
        exact ⟨k, fieldClass_push hfc⟩
  · rcases struct?_push.1 hs with hs | ⟨rfl, rfl⟩
    · exact hk.children x st i fc hs ho (fieldClass_of_push hs hfc) hc
    · -- Nothing is stored in a struct that is new.
      have hnone : g.stored ⟨s.objs.length, [i]⟩ = none := by
        by_contra hne
        obtain ⟨i', fc', -, hfc', -⟩ := hk.stored _ hne
        obtain ⟨st', hs', -⟩ := Option.bind_eq_some_iff.1 hfc'
        exact Nat.lt_irrefl _ (lt_of_struct? hs')
      show _ = g.stored ⟨s.objs.length, [i]⟩
      rw [hnone]
      rcases hi : st.children[(classes st.klass).childIndex i]? with _ | c
      · rfl
      · rw [(hnew st rfl).2.1 c (List.mem_of_getElem? hi)]
        rfl
  · obtain ⟨i, fc, hpath, hfc, hc⟩ := hk.stored q hq
    exact ⟨i, fc, hpath, fieldClass_push hfc, hc⟩
  · obtain ⟨st, i, field, c, hs, ho, hf, hoff, ht, hc, hp⟩ := hk.mem b o' q hm
    exact ⟨st, i, field, c, struct?_push.2 (.inl hs), ho, hf, hoff, ht, hc, ptr?_push hp⟩

theorem StructClass.childIndex_lt {k : StructClass} {i : ℕ} {f : FieldBase}
    (hf : k.fields[i]? = some f) (hc : f.type.hasChild = true) :
    k.childIndex i < k.childrenNum := by
  obtain ⟨hi, he⟩ := List.getElem?_eq_some_iff.1 hf
  have hdrop : 0 < (k.fields.drop i).countP (·.type.hasChild) :=
    List.countP_pos_iff.2 ⟨f, List.mem_iff_getElem?.2 ⟨0, by simpa using hf⟩, hc⟩
  have hsum : (k.fields.take i ++ k.fields.drop i).countP (fun f => f.type.hasChild)
      = _ := List.countP_append
  rw [List.take_append_drop] at hsum
  unfold childIndex childrenNum
  omega

theorem StructClass.childIndex_lt_of_lt {k : StructClass} {i j : ℕ} {f : FieldBase}
    (hf : k.fields[i]? = some f) (hc : f.type.hasChild = true) (hij : i < j) :
    k.childIndex i < k.childIndex j := by
  have htake : (k.fields.take j)[i]? = some f := by
    rw [List.getElem?_take, if_pos hij, hf]
  have := StructClass.childIndex_lt (k := ⟨k.size, k.fields.take j⟩) htake hc
  unfold childIndex childrenNum at this
  rw [List.take_take, Nat.min_eq_left (Nat.le_of_lt hij)] at this
  exact this

/-- The fields with a child have each a child of its own. -/
theorem StructClass.childIndex_inj {k : StructClass} {i j : ℕ} {f f' : FieldBase}
    (hf : k.fields[i]? = some f) (hc : f.type.hasChild = true) (hf' : k.fields[j]? = some f')
    (hc' : f'.type.hasChild = true) (h : k.childIndex i = k.childIndex j) : i = j := by
  rcases Nat.lt_trichotomy i j with hij | hij | hij
  · have := childIndex_lt_of_lt hf hc hij
    omega
  · exact hij
  · have := childIndex_lt_of_lt hf' hc' hij
    omega

/-- A child is written, and its address. -/
def State.writeChild (s : State) (x : ObjId) (st : Struct) (index : ℕ) (val : ObjId)
    (dest : Address) : State where
  objs := s.objs.set x (.struct { st with children := st.children.set index (some val) })
  mem := s.mem.write dest (s.ptr? val)

section WriteChild

variable {x : ObjId} {st : Struct} {index val : ℕ} {dest : Address}

theorem struct?_writeChild (hs : s.struct? x = some st) {y : ObjId} :
    (s.writeChild x st index val dest).struct? y
      = if y = x then some { st with children := st.children.set index (some val) }
        else s.struct? y := by
  have hlt := lt_of_struct? hs
  unfold State.writeChild State.struct?
  by_cases hy : y = x
  · subst hy
    rw [List.getElem?_set_self hlt, if_pos rfl]
  · rw [List.getElem?_set_ne (Ne.symm hy), if_neg hy]

theorem ptr?_writeChild (hs : s.struct? x = some st) {y : ObjId} :
    (s.writeChild x st index val dest).ptr? y = s.ptr? y := by
  by_cases hy : y = x
  · subst hy
    rw [ptr?_of_struct? ((struct?_writeChild hs).trans (if_pos rfl)), ptr?_of_struct? hs]
  · unfold State.writeChild State.ptr?
    rw [List.getElem?_set_ne (Ne.symm hy)]

theorem fieldClass_writeChild (hs : s.struct? x = some st) {y : ObjId} {i : ℕ} :
    fieldClass classes (s.writeChild x st index val dest) y i = fieldClass classes s y i := by
  by_cases hy : y = x
  · subst hy
    rw [fieldClass_of_struct? ((struct?_writeChild hs).trans (if_pos rfl)),
      fieldClass_of_struct? hs]
  · unfold fieldClass
    rw [struct?_writeChild hs, if_neg hy]

theorem owns_writeChild (hs : s.struct? x = some st) {y : ObjId} (h : Owns s y) :
    Owns (s.writeChild x st index val dest) y := by
  obtain ⟨st', hs', ho⟩ := h
  by_cases hy : y = x
  · subst hy
    cases hs.symm.trans hs'
    exact ⟨_, (struct?_writeChild hs).trans (if_pos rfl), ho⟩
  · exact ⟨st', (struct?_writeChild hs).trans ((if_neg hy).trans hs'), ho⟩

end WriteChild

/-- The owner of the memory is assigned a child. -/
theorem Kept.writeChild (hk : Kept classes s g) {x val : ObjId} {st : Struct} {i : ℕ}
    {field : FieldBase} (hs : s.struct? x = some st) (ho : st.own = true)
    (hf : (classes st.klass).fields[i]? = some field) (hc : field.type.hasChild = true) :
    Kept classes (s.writeChild x st ((classes st.klass).childIndex i) val ⟨x, field.offset⟩)
      { g with stored := Function.update g.stored ⟨x, [i]⟩ (some val) } := by
  have hlen := (hk.own x st hs ho).2.2.1
  have hself : ∀ index dest, (s.writeChild x st index val dest).struct? x
      = some { st with children := st.children.set index (some val) } := fun index dest =>
    (struct?_writeChild hs).trans (if_pos rfl)
  have hfc : fieldClass classes s x i = some field.type := by
    rw [fieldClass_of_struct? hs, hf]
    rfl
  refine ⟨fun y st' hs' => ?_, fun y st' hs' ho' => ?_, fun y st' hs' ho' => ?_,
    fun y st' j fc hs' ho' hfc' hc' => ?_, fun q hq => ?_, fun b o q hm => ?_⟩
  · rw [struct?_writeChild hs] at hs'
    by_cases hy : y = x
    · rw [if_pos hy] at hs'
      cases hs'
      exact hk.data x st hs
    · rw [if_neg hy] at hs'
      exact hk.data y st' hs'
  · rw [struct?_writeChild hs] at hs'
    by_cases hy : y = x
    · rw [if_pos hy] at hs'
      cases hs'
      subst hy
      obtain ⟨ht, hd, hl, hp⟩ := hk.own y st hs ho
      exact ⟨ht, hd, by simpa using hl, hp⟩
    · rw [if_neg hy] at hs'
      exact hk.own y st' hs' ho'
  · rw [struct?_writeChild hs] at hs'
    by_cases hy : y = x
    · rw [if_pos hy] at hs'
      cases hs'
      rw [ho] at ho'
      cases ho'
    · rw [if_neg hy] at hs'
      obtain ⟨hch, ht, path, j, hp, hpath⟩ := hk.view y st' hs' ho'
      refine ⟨hch, owns_writeChild hs ht, path, j, hp, fun he => ?_⟩
      rw [fieldClass_writeChild hs]
      exact hpath he
  · rw [fieldClass_writeChild hs] at hfc'
    rw [struct?_writeChild hs] at hs'
    show _ = Function.update g.stored ⟨x, [i]⟩ (some val) ⟨y, [j]⟩
    by_cases hy : y = x
    · rw [if_pos hy] at hs'
      cases hs'
      subst hy
      have hfj : ∃ fj, (classes st.klass).fields[j]? = some fj ∧ fj.type = fc := by
        rw [fieldClass_of_struct? hs] at hfc'
        exact Option.map_eq_some_iff.1 hfc'
      obtain ⟨fj, hfj, rfl⟩ := hfj
      show (st.children.set ((classes st.klass).childIndex i) (some val))[
        (classes st.klass).childIndex j]?.join = _
      by_cases hij : j = i
      · subst hij
        rw [Function.update_self, List.getElem?_set_self
          (hlen.symm ▸ StructClass.childIndex_lt hf hc)]
        rfl
      · rw [Function.update_of_ne (by simpa using hij), List.getElem?_set_ne
          fun he => hij (StructClass.childIndex_inj hfj hc' hf hc he.symm)]
        exact hk.children y st j _ hs ho hfc' hc'
    · rw [if_neg hy] at hs'
      rw [Function.update_of_ne (by simp [hy])]
      exact hk.children y st' j fc hs' ho' hfc' hc'
  · by_cases hqx : q = ⟨x, [i]⟩
    · subst hqx
      exact ⟨i, field.type, rfl, (fieldClass_writeChild hs).trans hfc, hc⟩
    · have hsame : Function.update g.stored ⟨x, [i]⟩ (some val) q = g.stored q :=
        Function.update_of_ne hqx ..
      have hq' : g.stored q ≠ none := fun hn => hq (hsame.trans hn)
      obtain ⟨j, fc, hpath, hfc', hc'⟩ := hk.stored q hq'
      exact ⟨j, fc, hpath, (fieldClass_writeChild hs).trans hfc', hc'⟩
  · have hm' : Memory.write s.mem ⟨x, field.offset⟩ (s.ptr? val) b o = some q := hm
    unfold Memory.write at hm'
    by_cases hbx : b = x
    · subst hbx
      rw [if_neg (not_not.2 rfl)] at hm'
      by_cases hoff : o = field.offset
      · rw [if_pos hoff] at hm'
        refine ⟨_, i, field, val, hself _ _, ho, hf, hoff.symm, hc, ?_, ?_⟩
        · exact List.getElem?_set_self (hlen.symm ▸ StructClass.childIndex_lt hf hc)
        · rw [ptr?_writeChild hs]
          exact hm'
      · rw [if_neg hoff] at hm'
        have hold : s.mem b o = some q := by
          by_contra hne
          split at hm'
          · cases hm'
          · exact hne hm'
        obtain ⟨st', j, fj, c, hs', ho', hfj, hoj, hcj, hch, hp⟩ := hk.mem b o q hold
        cases hs.symm.trans hs'
        have hij : i ≠ j := by
          rintro rfl
          cases hf.symm.trans hfj
          exact hoff hoj.symm
        refine ⟨_, j, fj, c, hself _ _, ho, hfj, hoj, hcj, ?_, (ptr?_writeChild hs).trans hp⟩
        exact (List.getElem?_set_ne
          fun he => hij (StructClass.childIndex_inj hf hc hfj hcj he)).trans hch
    · rw [if_pos hbx] at hm'
      obtain ⟨st', j, fj, c, hs', ho', hfj, hoj, hcj, hch, hp⟩ := hk.mem b o q hm'
      exact ⟨st', j, fj, c, (struct?_writeChild hs).trans ((if_neg hbx).trans hs'), ho', hfj, hoj,
        hcj, hch, (ptr?_writeChild hs).trans hp⟩

theorem own_or_view (hk : Kept classes s g) {x : ObjId} {st : Struct}
    (hs : s.struct? x = some st) : (st.own = true ∧ g.place x = some ⟨x, []⟩)
      ∨ st.own = false ∧ ∃ path i, g.place x = some ⟨st.top, path ++ [i]⟩
        ∧ (path = [] → ∃ k, fieldClass classes s st.top i = some (.structField k)) := by
  cases ho : st.own with
  | true => exact .inl ⟨rfl, (hk.own x st hs ho).2.2.2⟩
  | false => exact .inr ⟨rfl, (hk.view x st hs ho).2.2⟩

/-- Nothing is stored below a field that is a struct. -/
theorem stored_structField (hk : Kept classes s g) {x : ObjId} {i k : ℕ} {p : Place}
    (hfc : fieldClass classes s x i = some (.structField k)) (hp : g.fieldOf x i = some p)
    (suffix : List ℕ) : g.stored ⟨p.owner, p.path ++ suffix⟩ = none := by
  obtain ⟨st, hs, -⟩ := Option.bind_eq_some_iff.1 hfc
  by_contra hne
  obtain ⟨j, fc, hpath, hfc', hc⟩ := hk.stored _ hne
  unfold Notes.fieldOf at hp
  rcases own_or_view hk hs with ⟨-, hx⟩ | ⟨-, path, i', hx, -⟩
  · rw [hx] at hp
    cases hp
    have hij : i = j := by
      have := congrArg List.head? hpath
      simpa [Place.field] using this
    subst hij
    cases hfc.symm.trans hfc'
    cases hc
  · rw [hx] at hp
    cases hp
    have := congrArg List.length hpath
    simp [Place.field] at this
    omega

/-- Nothing is stored in a blank struct. -/
theorem stored_blank (hk : Kept classes s g) {val : ObjId} {q : Place} (hb : Blank classes s val)
    (hq : g.place val = some q) (suffix : List ℕ) :
    g.stored ⟨q.owner, q.path ++ suffix⟩ = none := by
  obtain ⟨st, a, hs, -, hchildren, -⟩ := hb
  by_contra hne
  obtain ⟨j, fc, hpath, hfc, hc⟩ := hk.stored _ hne
  rcases own_or_view hk hs with ⟨ho, hx⟩ | ⟨-, path, i, hx, hpath'⟩
  · cases hx.symm.trans hq
    have hpath : suffix = [j] := hpath
    subst hpath
    refine hne ((hk.children val st j fc hs ho hfc hc).symm.trans ?_)
    rcases hi : st.children[(classes st.klass).childIndex j]? with _ | c
    · rfl
    · rw [hchildren c (List.mem_of_getElem? hi)]
      rfl
  · cases hx.symm.trans hq
    have hpath : path ++ [i] ++ suffix = [j] := hpath
    have hlen := congrArg List.length hpath
    simp only [List.length_append, List.length_singleton] at hlen
    obtain rfl : path = [] := List.length_eq_zero_iff.1 (by omega)
    obtain rfl : suffix = [] := List.length_eq_zero_iff.1 (by omega)
    obtain ⟨k, hk'⟩ := hpath' rfl
    obtain rfl : i = j := by simpa using hpath
    cases hk'.symm.trans hfc
    cases hc

/-- A blank struct is copied. -/
theorem Kept.copy (hk : Kept classes s g) {x val i klass : ℕ} {p q : Place} {dest src : Address}
    (hfc : fieldClass classes s x i = some (.structField klass)) (hp : g.fieldOf x i = some p)
    (hb : Blank classes s val) (hq : g.place val = some q) (hv : s.klass? val = some klass)
    (hsrc : s.ptr? val = some src) :
    Kept classes { s with mem := s.mem.copy dest src (classes klass).size } (g.copy p q) := by
  have hstored : g.copy p q = g := by
    unfold Notes.copy
    congr 1
    funext r
    by_cases hr : r.owner = p.owner ∧ p.path <+: r.path
    · rw [if_pos hr, stored_blank hk hb hq]
      obtain ⟨suffix, hsuffix⟩ := hr.2
      have hnone := stored_structField hk hfc hp suffix
      rw [hsuffix, ← hr.1] at hnone
      exact hnone.symm
    · rw [if_neg hr]
  have hmem : ∀ b o r, s.mem.copy dest src (classes klass).size b o = some r →
      s.mem b o = some r := by
    obtain ⟨st, a, hs, ha, -, hnone⟩ := hb
    obtain ⟨st', hs', rfl⟩ := Option.map_eq_some_iff.1 hv
    cases hs.symm.trans hs'
    cases (hsrc.symm.trans (ptr?_of_struct? hs)).trans ha
    intro b o r hm
    unfold Memory.copy at hm
    split at hm
    · exact hm
    · split at hm
      · rename_i hin
        rw [hnone _ (Nat.le_add_right ..) (by omega)] at hm
        cases hm
      · split at hm
        · cases hm
        · exact hm
  rw [hstored]
  exact { hk with mem := fun b o r hm => hk.mem b o r (hmem b o r hm) }

variable {e : Op × Value}

theorem Notes.setPlace_self (x : ObjId) : g.setPlace x (g.place x) = g := by
  unfold Notes.setPlace
  rw [Function.update_eq_self]

theorem kept_get {x : ObjId} {i : ℕ} {v : Value} (hk : Kept classes s g)
    (hf : Faithful classes (s, g) (.get x i, v)) (h : descrGet classes s x i = some (v, s')) :
    Kept classes s' (note classes s (.get x i, v) s' g) := by
  obtain ⟨st, field, hs, hfield, hcases⟩ := descrGet_cases h
  have hfc : fieldClass classes s x i = some field.type := by
    rw [fieldClass_of_struct? hs, hfield]
    rfl
  rcases hcases with ⟨hc, hown, hv, rfl⟩ | ⟨klass, a, hp, ho, -⟩ | ⟨klass, hp, he⟩
  · -- What is read was there before.
    have hsame : note classes s' (.get x i, v) s' g = g := by
      rcases v with _ | w
      · rfl
      · rcases ht : field.type with _ | _ | k | k <;> rw [ht] at hfc
        · simp [note, hfc]
        · simp [note, hfc]
        · have ho : st.own = true := hown.resolve_left (by simp [ht])
          have hstored := hk.children x st i _ hs ho hfc rfl
          have hst : g.storedIn x i = some w := by
            rw [storedIn_of_own hk hs ho, ← hstored]
            rcases hi : st.children[(classes st.klass).childIndex i]?.join with _ | c
            · rw [hi] at hv
              cases hv
            · rw [hi] at hv
              cases hv
              rfl
          simp [note, hfc, hst, Notes.setPlace_self]
        · rw [ht] at hc
          cases hc
    rw [hsame]
    exact hk
  · obtain ⟨st', hs', ho'⟩ := hf klass (hfc.trans (congrArg some hp))
    cases hs.symm.trans hs'
    rw [ho] at ho'
    cases ho'
  · rw [hp] at hfc
    obtain ⟨a, ha, hao⟩ := hk.data x st hs
    unfold structFieldGet at he
    cases he
    have hnote : ∀ s'', note classes s (.get x i, .obj s.objs.length) s'' g
        = g.setPlace s.objs.length (g.fieldOf x i) := fun _ => by
      simp [note, hfc]
    rw [hnote]
    refine hk.push fun st' hst' => ?_
    cases hst'
    refine ⟨⟨a.add field.offset, by simp [ha], hao⟩, fun c hcm => List.eq_of_mem_replicate hcm,
      .inr ⟨rfl, ?_, ?_⟩⟩
    · cases ho : st.own with
      | true =>
        rw [show _ = x from (hk.own x st hs ho).1]
        exact ⟨st, hs, ho⟩
      | false => exact (hk.view x st hs ho).2.1
    · unfold Notes.fieldOf
      cases ho : st.own with
      | true =>
        obtain ⟨ht, -, -, hx⟩ := hk.own x st hs ho
        refine ⟨[], i, by rw [hx, ht]; rfl, fun _ => ⟨klass, ?_⟩⟩
        rw [ht]
        exact hfc
      | false =>
        obtain ⟨path, j, hx, -⟩ := (hk.view x st hs ho).2.2
        exact ⟨path ++ [j], i, by rw [hx]; rfl, by simp⟩

theorem kept_set {x : ObjId} {i : ℕ} {val : ObjId} {v : Value} (hk : Kept classes s g)
    (hf : Faithful classes (s, g) (.set x i val, v)) (h : descrSet classes s x i val = some s') :
    Kept classes s' (note classes s (.set x i val, v) s' g) := by
  obtain ⟨st, field, a, hs, hfield, ha, hcases⟩ := descrSet_cases h
  have hfc : fieldClass classes s x i = some field.type := by
    rw [fieldClass_of_struct? hs, hfield]
    rfl
  unfold Faithful at hf
  rcases hcases with ⟨hc, hw⟩ | ⟨klass, src, ht, hv, hsrc, rfl⟩
  · have hown : Owns s x := by
      rcases ht : field.type with _ | _ | k | k <;> rw [ht] at hfc
      · simpa [hfc] using hf
      · simpa [hfc] using hf
      · simpa [hfc] using hf
      · rw [ht] at hc
        cases hc
    obtain ⟨st', hs', ho⟩ := hown
    cases hs.symm.trans hs'
    obtain ⟨-, hd, -, hx⟩ := hk.own x st hs ho
    have hs'eq : s'
        = s.writeChild x st ((classes st.klass).childIndex i) val ⟨x, field.offset⟩ := by
      unfold structWriteChild at hw
      rw [hd] at hw
      cases hw
      simp [State.writeChild, Address.add, hd]
    have hnote : note classes s (.set x i val, v) s' g
        = { g with stored := Function.update g.stored ⟨x, [i]⟩ (some val) } := by
      have hp : g.fieldOf x i = some ⟨x, [i]⟩ := by
        unfold Notes.fieldOf
        rw [hx]
        rfl
      rcases ht : field.type with _ | _ | k | k <;> rw [ht] at hfc
      · simp [note, hfc, hp]
      · simp [note, hfc, hp]
      · simp [note, hfc, hp]
      · rw [ht] at hc
        cases hc
    rw [hnote, hs'eq]
    exact hk.writeChild hs ho hfield hc
  · rw [ht] at hfc
    have hb : Blank classes s val := by simpa [hfc] using hf
    obtain ⟨p, hp⟩ : ∃ p, g.fieldOf x i = some p := by
      unfold Notes.fieldOf
      rcases own_or_view hk hs with ⟨-, hx⟩ | ⟨-, path, j, hx, -⟩ <;> simp [hx]
    obtain ⟨stv, -, hsv, -⟩ := id hb
    obtain ⟨q, hq⟩ : ∃ q, g.place val = some q := by
      rcases own_or_view hk hsv with ⟨-, hx⟩ | ⟨-, path, j, hx, -⟩ <;> simp [hx]
    have hnote : note classes s (.set x i val, v)
        { s with mem := s.mem.copy (a.add field.offset) src (classes klass).size } g
        = g.copy p q := by
      simp [note, hfc, hp, hq]
    rw [hnote]
    exact hk.copy hfc hp hb hq hv hsrc

theorem kept_step (hk : Kept classes s g) (hf : Faithful classes (s, g) e)
    (h : Step classes s e s') : Kept classes s' (note classes s e s' g) := by
  obtain ⟨op, v⟩ := e
  cases op with
  | newBuffer =>
    cases h
    show Kept classes (s.push .buffer) g
    rw [← g.setPlace_self s.objs.length]
    exact hk.push (by nofun)
  | newStruct klass =>
    cases h
    refine hk.push fun st hst => ?_
    cases hst
    exact ⟨⟨_, rfl, rfl⟩, fun c hc => List.eq_of_mem_replicate hc,
      .inl ⟨rfl, rfl, rfl, List.length_replicate, rfl⟩⟩
  | get x i => exact kept_get hk hf h
  | set x i val =>
    obtain ⟨s'', hset, he⟩ := Option.map_eq_some_iff.1 h
    cases he
    exact kept_set hk hf hset

theorem kept_init : Kept classes init Notes.init :=
  ⟨by nofun, by nofun, by nofun, by nofun, fun p h => absurd rfl h, by nofun⟩

end Observer

/-- In a run in which pointees are assigned, and pointers read, through the owners of the memory
only, and blank structs copied only, all pointees are kept, and every field reads as it was
stored. -/
theorem pointees_of_run (classes : ℕ → StructClass) {es : List (Op × Value)} {s : State}
    {g : Notes} (h : Run (Only (Faithful classes) (Observed (note classes) (Step classes)))
      (init, Notes.init) es (s, g)) :
    KeepsPointees classes s ∧ ∀ x i, (∀ v, Faithful classes (s, g) (.get x i, v)) →
      ReadsRight classes s g x i := by
  have hk : Kept classes s g :=
    h.invariant (I := fun c => Kept classes c.1 c.2) (fun c e c' hk hstep => by
      obtain ⟨hf, hs, hg⟩ := hstep
      rw [hg]
      exact kept_step hk hf hs) kept_init
  exact ⟨keepsPointees_of_kept hk, fun x i hf => readsRight_of_kept hk (hf .nil)⟩

/-- A struct with a buffer, and a struct with that struct in it. -/
def bufferClasses : ℕ → StructClass
  | 0 => ⟨8, [⟨.bufferField, 0⟩]⟩
  | _ => ⟨8, [⟨.structField 0, 0⟩]⟩

/-- The collector reaches a struct without children from itself only. -/
theorem eq_of_reachable {s : State} {x y : ObjId} {st : Struct} (hs : s.struct? x = some st)
    (ht : st.top = x) (hc : ∀ c ∈ st.children, c = none) (h : Reachable s.succ {x} y) : y = x := by
  obtain ⟨r, rfl, hr⟩ := h
  induction hr with
  | refl => rfl
  | tail _ hstep ih =>
    rw [ih] at hstep
    obtain ⟨st', hs', rfl | hc'⟩ := hstep
    · cases hs.symm.trans hs'
      exact ht
    · cases hs.symm.trans hs'
      cases hc _ hc'

/-- A buffer, a struct with a struct in it, and the struct that was made for the inner one. -/
def nestedState : State where
  objs := [.buffer, .struct ⟨1, some ⟨1, 0⟩, true, 1, []⟩,
    .struct ⟨0, some ⟨1, 0⟩, false, 1, [some 0]⟩]
  mem := Memory.write (fun _ _ => none) ⟨1, 0⟩ (some ⟨0, 0⟩)

/-- `outer.inner.buf = buf` leaves the buffer with the struct that was made for `outer.inner`. -/
theorem not_keepsPointees_nested : ¬ ∀ (classes : ℕ → StructClass) (es : List (Op × Value))
    (s : State) (g : Notes),
      Run (Observed (note classes) (Step classes)) (init, Notes.init) es (s, g) →
      KeepsPointees classes s ∧ ∀ x i, ReadsRight classes s g x i := by
  intro h
  have hrun : Run (Step bufferClasses) init [(.newBuffer, .obj 0), (.newStruct 1, .obj 1),
      (.get 1 0, .obj 2), (.set 2 0 0, .obj 0)] nestedState :=
    .cons rfl (.cons rfl (.cons rfl (.cons rfl (.nil _))))
  obtain ⟨g, hobs⟩ := hrun.observe (note bufferClasses) Notes.init
  have hs : nestedState.struct? 1 = some ⟨1, some ⟨1, 0⟩, true, 1, []⟩ := rfl
  have hr : Reachable nestedState.succ {1} 0 := (h _ _ _ _ hobs).1 {1} 1 _ ⟨1, 0⟩ 0 ⟨0, 0⟩
    ⟨1, rfl, .refl⟩ hs rfl (Nat.le_refl 0) (show 0 < 0 + 8 by omega) rfl
  cases eq_of_reachable hs rfl (by nofun) hr

theorem faithful_cons {classes : ℕ → StructClass} {s s' : State} {g : Notes} {e : Op × Value}
    {es : List (Op × Value)} {c : State × Notes} (hf : Faithful classes (s, g) e)
    (hs : Step classes s e s')
    (h : Run (Only (Faithful classes) (Observed (note classes) (Step classes)))
      (s', note classes s e s' g) es c) :
    Run (Only (Faithful classes) (Observed (note classes) (Step classes))) (s, g) (e :: es) c :=
  .cons ⟨hf, hs, rfl⟩ h

/-- A buffer is assigned to the struct that owns the memory, and both are kept. -/
theorem pointees_of_run_owner : ∃ s g, s.mem 1 0 = some ⟨0, 0⟩ ∧ KeepsPointees bufferClasses s
    ∧ ∀ x i, (∀ v, Faithful bufferClasses (s, g) (.get x i, v)) →
      ReadsRight bufferClasses s g x i :=
  ⟨_, _, rfl, pointees_of_run bufferClasses
    (faithful_cons (e := (.newBuffer, .obj 0)) trivial rfl
      (faithful_cons (e := (.newStruct 0, .obj 1)) trivial rfl
        (faithful_cons (e := (.set 1 0 0, .obj 0)) ⟨_, rfl, rfl⟩ rfl (.nil _))))⟩

end Pointee

end Ffi

end Yog
