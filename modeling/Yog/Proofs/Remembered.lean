import Yog.Generational
import Mathlib.Data.List.Flatten

/-!
# Old objects that refer to young ones

What is to be seen of a store are the headers, names, widths and references of its objects. What a
collection relies on is stated with these (`Shape`): what is kept leads to what is kept, or is still
to be gone through, and an old object that refers to a young one is remembered. The write barrier
keeps it so (`Shape.updatePtr`).
-/

namespace Yog

namespace Generational

variable {H R : Type}

namespace Store

/-- Which allocation the object comes from. -/
def name (s : Store H R) (p : Ptr) : Option ℕ := (s.mem p).map Obj.name

/-- How many members there are. -/
def width (s : Store H R) (p : Ptr) : ℕ := ((s.mem p).map fun o => o.members.length).getD 0

end Store

variable {s s' : Store H R} {p q : Ptr} {e h : H} {i : ℕ} {v : Option Ptr} {slot : Slot R}

theorem isYoung_eq : s.isYoung p = true ↔ ∃ age f, s.header p = some (.young age f) := by
  unfold Store.isYoung
  split
  next age f h => simp [h]
  next h => simpa using fun age f he => h age f he

theorem isRemembered_eq : s.isRemembered p = true ↔ ∃ m, s.header p = some (.old true m) := by
  unfold Store.isRemembered
  split
  next r m h => cases r <;> simp [h]
  next h => simpa using fun m he => h true m he

theorem lt_width {q : Ptr} (hr : s.read (.member p i) = some q) : i < s.width p := by
  unfold Store.read at hr
  unfold Store.width
  rcases hm : s.mem p with _ | o
  · simp [hm] at hr
  · rcases Nat.lt_or_ge i o.members.length with hlt | hge
    · simpa using hlt
    · simp [hm, List.getElem?_eq_none_iff.2 hge] at hr

/-- What a change of one object that is there does. -/
theorem mem_modify (f : Obj H → Obj H) (q : Ptr) :
    (s.modify p f).mem q = if q = p then (s.mem q).map f else s.mem q := by
  unfold Store.modify
  by_cases he : q = p
  · subst he
    simp
  · simp [he]

section SetMember

@[simp] theorem header_setMember :
    (s.modify p fun o => o.setMember i v).header q = s.header q := by
  unfold Store.header
  rw [mem_modify]
  split <;> simp [Obj.setMember, Function.comp_def]

@[simp] theorem name_setMember : (s.modify p fun o => o.setMember i v).name q = s.name q := by
  unfold Store.name
  rw [mem_modify]
  split <;> simp [Obj.setMember, Function.comp_def]

@[simp] theorem width_setMember : (s.modify p fun o => o.setMember i v).width q = s.width q := by
  unfold Store.width
  rw [mem_modify]
  split <;> simp [Obj.setMember, Function.comp_def]

theorem read_setMember [DecidableEq R] (hi : i < s.width p) :
    (s.modify p fun o => o.setMember i v).read slot
      = if slot = .member p i then v else s.read slot := by
  rcases slot with r | ⟨q, j⟩
  · simp [Store.read, Store.modify]
  · unfold Store.read
    simp only [mem_modify]
    by_cases hq : q = p
    · subst hq
      rcases hm : s.mem q with _ | o
      · simp [Store.width, hm] at hi
      · by_cases hj : j = i
        · subst hj
          have hi' : j < o.members.length := by simpa [Store.width, hm] using hi
          simp [Obj.setMember, hi']
        · simp [Obj.setMember, hj, Ne.symm hj]
    · simp [hq]

end SetMember

section SetHeader

variable {f : Header → Header}

theorem header_setHeader : (s.modify p fun o => { o with header := f o.header }).header q
    = if q = p then (s.header q).map f else s.header q := by
  unfold Store.header
  rw [mem_modify]
  split <;> simp [Function.comp_def]

@[simp] theorem name_setHeader :
    (s.modify p fun o => { o with header := f o.header }).name q = s.name q := by
  unfold Store.name
  rw [mem_modify]
  split <;> simp [Function.comp_def]

@[simp] theorem width_setHeader :
    (s.modify p fun o => { o with header := f o.header }).width q = s.width q := by
  unfold Store.width
  rw [mem_modify]
  split <;> simp [Function.comp_def]

@[simp] theorem read_setHeader :
    (s.modify p fun o => { o with header := f o.header }).read slot = s.read slot := by
  rcases slot with r | ⟨q, j⟩
  · rfl
  · unfold Store.read
    simp only [mem_modify]
    split <;> rcases s.mem q with _ | o <;> simp

end SetHeader

section MoveTo

variable {o : Obj H} (age : ℕ) (new : Header)

theorem mem_moveTo (hp : s.mem p = some o) (hlt : p < s.next) (q : Ptr) :
    (moveTo s p o age new).mem q = if q = s.next then some { o with header := new }
      else if q = p then some { o with header := .young age (some s.next) } else s.mem q := by
  unfold moveTo
  by_cases hn : q = s.next
  · subst hn
    simp
  · by_cases hq : q = p
    · subst hq
      simp [hn]
    · simp [hn, hq]

theorem header_moveTo (hp : s.mem p = some o) (hlt : p < s.next) (q : Ptr) :
    (moveTo s p o age new).header q = if q = s.next then some new
      else if q = p then some (.young age (some s.next)) else s.header q := by
  unfold Store.header
  rw [mem_moveTo _ _ hp hlt]
  split
  · rfl
  · split <;> rfl

theorem name_moveTo (hp : s.mem p = some o) (hlt : p < s.next) (q : Ptr) :
    (moveTo s p o age new).name q = if q = s.next then s.name p else s.name q := by
  unfold Store.name
  rw [mem_moveTo _ _ hp hlt]
  split
  · simp [hp]
  · split
    next hq => simp [hq, hp]
    · rfl

theorem width_moveTo (hp : s.mem p = some o) (hlt : p < s.next) (q : Ptr) :
    (moveTo s p o age new).width q = if q = s.next then s.width p else s.width q := by
  unfold Store.width
  rw [mem_moveTo _ _ hp hlt]
  split
  · simp [hp]
  · split
    next hq => simp [hq, hp]
    · rfl

theorem read_moveTo (hp : s.mem p = some o) (hlt : p < s.next) (slot : Slot R) :
    (moveTo s p o age new).read slot = match slot with
      | .root r => s.roots r
      | .member q i => if q = s.next then s.read (.member p i) else s.read (.member q i) := by
  rcases slot with r | ⟨q, i⟩
  · rfl
  · unfold Store.read
    simp only [mem_moveTo _ _ hp hlt]
    split
    · simp [hp]
    · split
      next hq => simp [hq, hp]
      · rfl

end MoveTo

/-- The object has been copied, is old, or in a major collection is old and has been marked. -/
def Kept (major : Bool) (limit : Ptr) (s : Store H R) (p : Ptr) : Prop :=
  match s.header p with
  | none => False
  | some (.young _ _) => limit ≤ p
  | some (.old _ marked) => major = true → marked = true

/-- A reference to a young object that an old one has is remembered. -/
def Barred (s : Store H R) (slot : Slot R) (q : Ptr) : Prop :=
  ∀ p i, slot = .member p i → s.isYoung p = false → s.isYoung q = true → s.isRemembered p = true

/-- The reference belongs to the VM, or to an object that is kept. -/
def Owned (major : Bool) (limit : Ptr) (s : Store H R) : Slot R → Prop
  | .root _ => True
  | .member p _ => Kept major limit s p

/-- What is true of a store in a collection that has still to go through some references, and,
where there are none and nothing is in a from-space, between two collections. -/
structure Shape (heaps : List H) (major : Bool) (limit : Ptr) (s : Store H R)
    (todo : List (Slot R)) : Prop where
  bound : ∀ p hd, s.header p = some hd → p < s.next
  limit_le : limit ≤ s.next
  closed : ∀ slot q, s.read slot = some q → s.header q ≠ none
  forwarded : ∀ p age q, s.header p = some (.young age (some q)) → p < limit ∧ Kept major limit s q
  untouched : ∀ p, ¬Kept major limit s p → ∀ i q, s.read (.member p i) = some q → q < limit
  nodup : todo.Nodup
  before : ∀ slot ∈ todo, ∀ q, s.read slot = some q → q < limit
  owned : ∀ slot ∈ todo, Owned major limit s slot
  settled : ∀ slot, Owned major limit s slot → slot ∈ todo ∨
    ∀ q, s.read slot = some q → Kept major limit s q ∧ Barred s slot q
  remembered : ∀ p, s.isRemembered p = true ↔ p ∈ heaps.flatMap s.rememberedSet
  rememberedKept : ∀ p ∈ heaps.flatMap s.rememberedSet, Kept major limit s p
  rememberedNodup : (heaps.flatMap s.rememberedSet).Nodup
  unmarked : major = false → ∀ p r m, s.header p = some (.old r m) → m = false

/-- Objects are what those of the store that is never collected are, and only a copy and what it is
one of are the same. -/
structure Agrees (s : Store H R) (a : Plain R) : Prop where
  born : s.born = a.born
  fresh : ∀ p n, s.name p = some n → n < a.born
  roots : ∀ r, (s.roots r).map s.name = (a.roots r).map some
  width : ∀ p n, s.name p = some n → (a.members n).length = s.width p
  members : ∀ p n, s.name p = some n → ∀ i,
    (s.read (.member p i)).map s.name = (a.members n)[i]?.join.map some
  same : ∀ p p' n, s.name p = some n → s.name p' = some n →
    p = p' ∨ (∃ age, s.header p = some (.young age (some p'))) ∨
      ∃ age, s.header p' = some (.young age (some p))
  forwarded : ∀ p age q, s.header p = some (.young age (some q)) → s.name q = s.name p

variable {heaps : List H} {major : Bool} {limit : Ptr} {todo todo' : List (Slot R)} {a : Plain R}

section Headers

variable {s s' : Store H R} (hh : s'.header = s.header)

include hh

theorem isYoung_congr : s'.isYoung = s.isYoung := by
  funext p
  unfold Store.isYoung
  rw [hh]

theorem isRemembered_congr : s'.isRemembered = s.isRemembered := by
  funext p
  unfold Store.isRemembered
  rw [hh]

theorem kept_congr : Kept major limit s' = Kept major limit s := by
  funext p
  unfold Kept
  rw [hh]

theorem owned_congr : Owned major limit s' = Owned major limit s := by
  funext slot
  rcases slot with r | ⟨p, i⟩
  · rfl
  · exact congrFun (kept_congr hh) p

theorem barred_congr : Barred s' = Barred s := by
  funext slot q
  unfold Barred
  rw [isYoung_congr hh, isRemembered_congr hh]

end Headers

theorem Shape.perm (h : Shape heaps major limit s todo) (hp : todo.Perm todo') :
    Shape heaps major limit s todo' where
  __ := h
  nodup := hp.nodup_iff.1 h.nodup
  before slot hs := h.before slot (hp.mem_iff.2 hs)
  owned slot hs := h.owned slot (hp.mem_iff.2 hs)
  settled slot hs := (h.settled slot hs).imp_left hp.mem_iff.1

theorem Kept.header_ne (hk : Kept major limit s p) : s.header p ≠ none := by
  intro hn
  unfold Kept at hk
  rw [hn] at hk
  exact hk

/-- A reference to something that is kept takes the place of another one. -/
theorem Shape.assign [DecidableEq R] (h : Shape heaps major limit s todo)
    (hh : s'.header = s.header) (hn : s'.next = s.next) (hset : s'.rememberedSet = s.rememberedSet)
    (hr : ∀ x, s'.read x = if x = slot then v else s.read x) (ho : Owned major limit s slot)
    (hv : ∀ q, v = some q → Kept major limit s q ∧ Barred s slot q) (hsub : todo'.Sublist todo)
    (hmem : ∀ x ∈ todo, x = slot ∨ x ∈ todo') (hslot : slot ∉ todo') :
    Shape heaps major limit s' todo' := by
  have hread : ∀ x ∈ todo', s'.read x = s.read x := by
    intro x hx
    rw [hr, if_neg]
    rintro rfl
    exact hslot hx
  constructor
  · rw [hh, hn]
    exact h.bound
  · rw [hn]
    exact h.limit_le
  · intro x q hx
    rw [hh]
    rw [hr] at hx
    split at hx
    · exact (hv q hx).1.header_ne
    · exact h.closed x q hx
  · rw [hh, kept_congr hh]
    exact h.forwarded
  · rw [kept_congr hh]
    intro p hp i q hx
    rw [hr] at hx
    split at hx
    next he =>
      subst he
      exact absurd ho hp
    · exact h.untouched p hp i q hx
  · exact h.nodup.sublist hsub
  · intro x hx q hq
    rw [hread x hx] at hq
    exact h.before x (hsub.subset hx) q hq
  · rw [owned_congr hh]
    exact fun x hx => h.owned x (hsub.subset hx)
  · rw [owned_congr hh, kept_congr hh, barred_congr hh]
    intro x hx
    by_cases he : x = slot
    · subst he
      refine .inr fun q hq => ?_
      rw [hr, if_pos rfl] at hq
      exact hv q hq
    · rw [hr, if_neg he]
      exact (h.settled x hx).imp_left fun hm => (hmem x hm).resolve_left he
  · rw [isRemembered_congr hh, hset]
    exact h.remembered
  · rw [kept_congr hh, hset]
    exact h.rememberedKept
  · rw [hset]
    exact h.rememberedNodup
  · rw [hh]
    exact h.unmarked

/-- A reference that leads nowhere need not be gone through. -/
theorem Shape.skip (h : Shape heaps major limit s (slot :: todo)) (hr : s.read slot = none) :
    Shape heaps major limit s todo where
  __ := h
  nodup := h.nodup.of_cons
  before x hx := h.before x (.tail _ hx)
  owned x hx := h.owned x (.tail _ hx)
  settled x hx := by
    rcases h.settled x hx with hm | hs
    · rcases List.mem_cons.1 hm with rfl | hm
      · refine .inr fun q hq => ?_
        simp [hr] at hq
      · exact .inl hm
    · exact .inr hs

/-- One more thing in one of the lists. -/
theorem flatMap_perm {α β : Type*} {l : List α} (hl : l.Nodup) {x : α} (hx : x ∈ l) {f g : α → List β}
    {m : List β} (hf : (g x).Perm (f x ++ m)) (hne : ∀ y, y ≠ x → g y = f y) :
    (l.flatMap g).Perm (l.flatMap f ++ m) := by
  induction l with
  | nil => cases hx
  | cons y l ih =>
    obtain ⟨hy, hl⟩ := List.nodup_cons.1 hl
    simp only [List.flatMap_cons]
    by_cases he : y = x
    · subst he
      have hrest : l.flatMap g = l.flatMap f := by
        refine List.flatMap_congr fun z hz => hne z ?_
        rintro rfl
        exact hy hz
      rw [hrest, List.append_assoc]
      refine (hf.append_right _).trans ?_
      rw [List.append_assoc]
      exact List.perm_append_comm.append_left _
    · rw [hne y he, List.append_assoc]
      exact (ih hl ((List.mem_cons.1 hx).resolve_left (Ne.symm he))).append_left _

section Remember

variable [DecidableEq H] {m : Bool}

theorem header_addToRememberedSet (hp : s.header p = some (.old false m)) (q : Ptr) :
    (s.addToRememberedSet e p).header q = if q = p then some (.old true m) else s.header q := by
  unfold Store.addToRememberedSet Obj.setRemembered
  rw [header_setHeader]
  split
  next he =>
    subst he
    change (s.header q).map _ = _
    rw [hp]
    rfl
  · rfl

theorem kept_addToRememberedSet (hp : s.header p = some (.old false m)) :
    Kept major limit (s.addToRememberedSet e p) = Kept major limit s := by
  funext q
  unfold Kept
  rw [header_addToRememberedSet hp]
  by_cases he : q = p
  · rw [if_pos he, he, hp]
  · rw [if_neg he]

theorem isYoung_addToRememberedSet (hp : s.header p = some (.old false m)) :
    (s.addToRememberedSet e p).isYoung = s.isYoung := by
  funext q
  unfold Store.isYoung
  rw [header_addToRememberedSet hp]
  by_cases he : q = p
  · rw [if_pos he, he, hp]
  · rw [if_neg he]

theorem isRemembered_addToRememberedSet (hp : s.header p = some (.old false m)) (q : Ptr) :
    (s.addToRememberedSet e p).isRemembered q = true ↔ q = p ∨ s.isRemembered q = true := by
  simp only [isRemembered_eq, header_addToRememberedSet hp]
  by_cases he : q = p
  · simp [he]
  · simp [he]

theorem Shape.remember (h : Shape heaps major limit s todo) (hheaps : heaps.Nodup) (he : e ∈ heaps)
    (hp : s.header p = some (.old false m)) (hk : Kept major limit s p) :
    Shape heaps major limit (s.addToRememberedSet e p) todo := by
  have hkept : Kept major limit (s.addToRememberedSet e p) = Kept major limit s :=
    kept_addToRememberedSet hp
  have hread : ∀ x, (s.addToRememberedSet e p).read x = s.read x := fun x => read_setHeader
  have howned : Owned major limit (s.addToRememberedSet e p) = Owned major limit s := by
    funext x
    rcases x with r | ⟨q, i⟩
    · rfl
    · exact congrFun hkept q
  have hperm : (heaps.flatMap (s.addToRememberedSet e p).rememberedSet).Perm
      (heaps.flatMap s.rememberedSet ++ [p]) := by
    refine flatMap_perm hheaps he ?_ fun h' hne => ?_
    · simp [Store.addToRememberedSet, Store.modify]
    · simp [Store.addToRememberedSet, Store.modify, hne]
  have hnot : p ∉ heaps.flatMap s.rememberedSet := by
    rw [← h.remembered, isRemembered_eq]
    simp [hp]
  constructor
  · intro q hd hq
    rw [header_addToRememberedSet hp] at hq
    split at hq
    next he =>
      subst he
      exact h.bound q _ hp
    · exact h.bound q hd hq
  · exact h.limit_le
  · intro x q hx
    rw [hread] at hx
    rw [header_addToRememberedSet hp]
    split
    · simp
    · exact h.closed x q hx
  · intro q age q' hq
    rw [hkept]
    rw [header_addToRememberedSet hp] at hq
    split at hq
    · cases hq
    · exact h.forwarded q age q' hq
  · intro q hq i q' hr
    rw [hkept] at hq
    rw [hread] at hr
    exact h.untouched q hq i q' hr
  · exact h.nodup
  · intro x hx q hq
    rw [hread] at hq
    exact h.before x hx q hq
  · rw [howned]
    exact h.owned
  · rw [howned, hkept]
    intro x hx
    refine (h.settled x hx).imp_right fun hs q hq => ?_
    rw [hread] at hq
    obtain ⟨hqk, hb⟩ := hs q hq
    refine ⟨hqk, fun p' i hxp hy hyq => ?_⟩
    rw [isYoung_addToRememberedSet hp] at hy hyq
    exact (isRemembered_addToRememberedSet hp p').2 (.inr (hb p' i hxp hy hyq))
  · intro q
    rw [isRemembered_addToRememberedSet hp, hperm.mem_iff, h.remembered]
    simp [or_comm]
  · intro q hq
    rw [hkept]
    rcases List.mem_append.1 (hperm.mem_iff.1 hq) with hq | hq
    · exact h.rememberedKept q hq
    · obtain rfl := List.mem_singleton.1 hq
      exact hk
  · refine hperm.nodup_iff.2 (List.nodup_append'.2 ⟨h.rememberedNodup, List.nodup_singleton p, ?_⟩)
    exact List.disjoint_singleton.2 hnot
  · intro hm q r m' hq
    rw [header_addToRememberedSet hp] at hq
    split at hq
    next he =>
      cases hq
      exact h.unmarked hm p _ _ hp
    · exact h.unmarked hm q r m' hq

end Remember

section UpdatePtr

variable [DecidableEq H]

/-- The barrier adds an old object to the remembered set, or there is no need to. -/
theorem updatePtr_cases (s : Store H R) (e : H) (p : Ptr) (i : ℕ) (v : Option Ptr) :
    (s.updatePtr e p i v = s.modify p fun o => o.setMember i v) ∧
        (∀ q, v = some q → Barred s (.member p i) q) ∨
      s.isYoung p = false ∧ s.isRemembered p = false ∧
        s.updatePtr e p i v = (s.addToRememberedSet e p).modify p fun o => o.setMember i v := by
  unfold Store.updatePtr
  split
  next hy =>
    refine .inl ⟨rfl, fun q _ p' i' he hy' _ => ?_⟩
    cases he
    simp [hy] at hy'
  next hy =>
    split
    next hr =>
      refine .inl ⟨rfl, fun q _ p' i' he _ _ => ?_⟩
      cases he
      exact hr
    next hr =>
      split
      next hv =>
        refine .inl ⟨rfl, fun q hq p' i' he _ hyq => ?_⟩
        subst hq
        simp [hyq] at hv
      · exact .inr ⟨by simpa using hy, by simpa using hr, rfl⟩

omit [DecidableEq H] in
theorem header_of_old (hk : s.header p ≠ none) (hy : s.isYoung p = false)
    (hr : s.isRemembered p = false) : ∃ m, s.header p = some (.old false m) := by
  rcases hp : s.header p with _ | ⟨age, f⟩ | ⟨r, m⟩
  · exact absurd hp hk
  · rw [isYoung_eq.2 ⟨age, f, hp⟩] at hy
    cases hy
  · cases r with
    | false => exact ⟨m, rfl⟩
    | true =>
      rw [isRemembered_eq.2 ⟨m, hp⟩] at hr
      cases hr

theorem Shape.updatePtr [DecidableEq R] (h : Shape heaps major limit s todo) (hheaps : heaps.Nodup)
    (he : e ∈ heaps) (hi : i < s.width p) (hk : Kept major limit s p)
    (hv : ∀ q, v = some q → Kept major limit s q) (hsub : todo'.Sublist todo)
    (hmem : ∀ x ∈ todo, x = .member p i ∨ x ∈ todo') (hslot : .member p i ∉ todo') :
    Shape heaps major limit (s.updatePtr e p i v) todo' := by
  rcases updatePtr_cases s e p i v with ⟨heq, hb⟩ | ⟨hy, hr, heq⟩
  · rw [heq]
    exact h.assign (funext fun q => header_setMember) rfl rfl (fun x => read_setMember hi) hk
      (fun q hq => ⟨hv q hq, hb q hq⟩) hsub hmem hslot
  · obtain ⟨m, hp⟩ := header_of_old hk.header_ne hy hr
    have h' := h.remember hheaps he hp hk
    rw [heq]
    have hwidth : (s.addToRememberedSet e p).width p = s.width p := width_setHeader
    refine h'.assign (funext fun q => header_setMember) rfl rfl
      (fun x => read_setMember (hwidth ▸ hi)) ?_ (fun q hq => ⟨?_, ?_⟩) hsub hmem hslot
    · change Kept _ _ _ p
      rwa [kept_addToRememberedSet hp]
    · rw [kept_addToRememberedSet hp]
      exact hv q hq
    · intro p' i' hpe _ _
      cases hpe
      exact (isRemembered_addToRememberedSet hp p).2 (.inl rfl)

@[simp] theorem name_updatePtr : (s.updatePtr e p i v).name q = s.name q := by
  rcases updatePtr_cases s e p i v with ⟨heq, -⟩ | ⟨-, -, heq⟩
  · simp [heq]
  · rw [heq, name_setMember]
    exact name_setHeader

@[simp] theorem width_updatePtr : (s.updatePtr e p i v).width q = s.width q := by
  rcases updatePtr_cases s e p i v with ⟨heq, -⟩ | ⟨-, -, heq⟩
  · simp [heq]
  · rw [heq, width_setMember]
    exact width_setHeader

theorem read_updatePtr [DecidableEq R] (hi : i < s.width p) :
    (s.updatePtr e p i v).read slot = if slot = .member p i then v else s.read slot := by
  rcases updatePtr_cases s e p i v with ⟨heq, -⟩ | ⟨-, -, heq⟩
  · rw [heq, read_setMember hi]
  · have hwidth : (s.addToRememberedSet e p).width p = s.width p := width_setHeader
    have hread : (s.addToRememberedSet e p).read slot = s.read slot := read_setHeader
    rw [heq, read_setMember (hwidth ▸ hi), hread]

theorem young_updatePtr (s : Store H R) (e : H) (p : Ptr) (i : ℕ) (v : Option Ptr) (q age f) :
    (s.updatePtr e p i v).header q = some (.young age f) ↔ s.header q = some (.young age f) := by
  rcases updatePtr_cases s e p i v with ⟨heq, -⟩ | ⟨-, -, heq⟩
  · rw [heq, header_setMember]
  · rw [heq, header_setMember]
    unfold Store.addToRememberedSet Obj.setRemembered
    rw [header_setHeader]
    split
    · change (s.header q).map _ = _ ↔ _
      rcases s.header q with _ | ⟨_, _⟩ | ⟨_, _⟩ <;> simp [Header.setRemembered]
    · rfl

end UpdatePtr

end Generational

end Yog
