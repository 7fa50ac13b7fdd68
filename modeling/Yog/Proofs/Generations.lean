import Yog.Lib.Tricolour
import Yog.Proofs.Cycles

/-!
# The generational collector goes unnoticed

A history of allocations, reads, writes through the barrier and collections shows what it would
show if nothing were ever collected, exactly as long as what its collections copy fits into the
to-space of the heap that it is kept for (`intact_iff`). That heap need not be the one in which the
object was allocated.
-/

namespace Yog

namespace Generational

variable {H R : Type}

variable {s s' : Store H R} {p q : Ptr} {e h : H} {i : ℕ} {v : Option Ptr} {slot : Slot R}

variable {heaps : List H} {major : Bool} {limit : Ptr} {todo todo' : List (Slot R)} {a : Plain R}

variable {cfg : Config H R} {c c' : State H R} {o : Obj H}

section Mutations

variable [DecidableEq H] [DecidableEq R] {r : R} {n : Option ℕ}

omit [DecidableEq H] in
theorem Between.setRoot (hb : Between heaps s a) (hv : ∀ q, v = some q → s.header q ≠ none)
    (hn : v.map s.name = n.map some) : Between heaps { s with roots := Function.update s.roots r v }
      { a with roots := Function.update a.roots r n } where
  shape := by
    have hread : ∀ x, ({ s with roots := Function.update s.roots r v } : Store H R).read x
        = if x = .root r then v else s.read x := by
      rintro (r' | ⟨p, i⟩)
      · by_cases he : r' = r
        · simp [Store.read, he]
        · simp [Store.read, he]
      · simp [Store.read]
    refine hb.shape.assign rfl rfl rfl hread trivial
      (fun q hq => ⟨kept_zero.2 (hv q hq), fun p i he => ?_⟩) (.refl _) (by simp) List.not_mem_nil
    cases he
  agrees :=
    { hb.agrees with
      roots := fun r' => by
        change (Function.update s.roots r v r').map s.name = (Function.update a.roots r n r').map some
        by_cases he : r' = r
        · subst he
          simpa using hn
        · simpa [he] using hb.agrees.roots r' }

omit [DecidableEq H] [DecidableEq R] in
theorem Between.roots_some (hb : Between heaps s a) {src : R} (hp : s.roots src = some p) :
    ∃ n, a.roots src = some n ∧ s.name p = some n ∧ s.header p ≠ none := by
  have hr := hb.agrees.roots src
  rw [hp, Option.map_some] at hr
  rcases ha : a.roots src with _ | n
  · simp [ha] at hr
  · refine ⟨n, rfl, by simpa [ha] using hr, hb.shape.closed (.root src) p hp⟩

omit [DecidableEq H] [DecidableEq R] in
theorem Between.roots_none (hb : Between heaps s a) {src : R} (hp : s.roots src = none) :
    a.roots src = none := by
  have hr := hb.agrees.roots src
  rw [hp] at hr
  simpa using hr.symm

omit [DecidableEq H] [DecidableEq R] in
theorem Between.bind_roots (hb : Between heaps s a) (val : Option R) :
    (∀ q, val.bind s.roots = some q → s.header q ≠ none) ∧
      (val.bind s.roots).map s.name = (val.bind a.roots).map some := by
  rcases val with _ | src
  · simp
  · refine ⟨fun q hq => ?_, hb.agrees.roots src⟩
    obtain ⟨n, -, -, hh⟩ := hb.roots_some hq
    exact hh

omit [DecidableEq H] [DecidableEq R] in
/-- Between two collections objects have names of their own. -/
theorem Between.name_inj (hb : Between heaps s a) {m : ℕ} (hp : s.name p = some m)
    (hq : s.name q = some m) : p = q := by
  rcases hb.agrees.same p q m hp hq with he | ⟨age, hf⟩ | ⟨age, hf⟩
  · exact he
  · exact absurd (hb.shape.forwarded _ _ _ hf).1 (Nat.not_lt_zero _)
  · exact absurd (hb.shape.forwarded _ _ _ hf).1 (Nat.not_lt_zero _)

theorem Between.set (hb : Between cfg.heaps s a) {m : ℕ} (hp : s.name p = some m)
    (hi : i < s.width p) (hv : ∀ q, v = some q → s.header q ≠ none)
    (hn : v.map s.name = n.map some) : Between cfg.heaps (s.updatePtr e p i v)
      { a with members := Function.update a.members m ((a.members m).modify i fun _ => n) } := by
  have hhead : s.header p ≠ none := by
    rcases hm : s.mem p with _ | o
    · simp [Store.name, hm] at hp
    · simp [header_of_mem hm]
  refine ⟨hb.shape.updatePtr cfg.nodup (cfg.complete e) hi (kept_zero.2 hhead)
    (fun q hq => kept_zero.2 (hv q hq)) (.refl _) (by simp) List.not_mem_nil, ?_⟩
  have hborn : (s.updatePtr e p i v).born = s.born := by
    rcases updatePtr_cases s e p i v with ⟨heq, -⟩ | ⟨-, -, heq⟩ <;> rw [heq] <;> rfl
  have hname : (s.updatePtr e p i v).name = s.name := funext fun x => name_updatePtr
  have ha := hb.agrees
  constructor
  · exact hborn.trans ha.born
  · rw [hname]
    exact ha.fresh
  · intro r'
    have hroots : (s.updatePtr e p i v).roots r' = s.roots r' := by
      have hr : (s.updatePtr e p i v).read (.root r') = _ := read_updatePtr hi
      simpa [Store.read] using hr
    rw [hname, hroots]
    exact ha.roots r'
  · intro x k hx
    rw [hname] at hx
    rw [width_updatePtr]
    by_cases hk : k = m
    · subst hk
      simpa using ha.width x k hx
    · simpa [hk] using ha.width x k hx
  · intro x k hx j
    rw [hname] at hx ⊢
    rw [read_updatePtr hi]
    by_cases hxp : x = p
    · subst hxp
      obtain rfl := Option.some.inj (hx.symm.trans hp)
      have hlen := ha.width x k hx
      by_cases hj : j = i
      · subst hj
        have hlt : j < (a.members k).length := hlen ▸ hi
        simpa [hlt] using hn
      · simpa [hj, Ne.symm hj] using ha.members x k hx j
    · have hk : k ≠ m := by
        rintro rfl
        exact hxp (hb.name_inj hx hp)
      simpa [hxp, hk] using ha.members x k hx j
  · rw [hname]
    intro x y k hx hy
    exact .inl (hb.name_inj hx hy)
  · intro x age f hx
    have hx' := (young_updatePtr s e p i v x age (some f)).1 hx
    exact absurd (hb.shape.forwarded _ _ _ hx').1 (Nat.not_lt_zero _)

section Alloc

variable {t : Store H R} {size k : ℕ} {kinds : List (Option H)} {hd hd' : Header}

/-- What is read of a store in which an object without references has been allocated for a root. -/
structure Grown (s t : Store H R) (r : R) (k : ℕ) (hd : Header) : Prop where
  fresh : hd = .young 0 none ∨ hd = .old false false
  next : t.next = s.next + 1
  born : t.born = s.born + 1
  rememberedSet : t.rememberedSet = s.rememberedSet
  header : ∀ q, t.header q = if q = s.next then some hd else s.header q
  name : ∀ q, t.name q = if q = s.next then some s.born else s.name q
  width : ∀ q, t.width q = if q = s.next then k else s.width q
  member : ∀ q i, t.read (.member q i) = if q = s.next then none else s.read (.member q i)
  root : ∀ r', t.roots r' = if r' = r then some s.next else s.roots r'

theorem grown_alloc (cfg : Config H R) (s : Store H R) (r : R) (h : H) (size : ℕ)
    (kinds : List (Option H)) : ∃ hd, Grown s (s.alloc cfg r h size kinds) r kinds.length hd := by
  obtain ⟨hd, hfresh, hhd⟩ : ∃ hd : Header, (hd = .young 0 none ∨ hd = .old false false) ∧
      (if s.used h + size ≤ cfg.spaceSize h then Header.young 0 none else .old false false) = hd := by
    split
    · exact ⟨_, .inl rfl, rfl⟩
    · exact ⟨_, .inr rfl, rfl⟩
  have hmem : ∀ q, (s.alloc cfg r h size kinds).mem q = if q = s.next then
      some ⟨s.born, size, kinds.map fun k => (none, k), hd⟩ else s.mem q := by
    intro q
    simp [Store.alloc, hhd, Function.update_apply]
  refine ⟨hd, hfresh, rfl, rfl, rfl, fun q => ?header, fun q => ?name, fun q => ?width,
    fun q i => ?member, fun r' => ?root⟩
  case header =>
    unfold Store.header
    rw [hmem]
    split <;> rfl
  case name =>
    unfold Store.name
    rw [hmem]
    split <;> rfl
  case width =>
    unfold Store.width
    rw [hmem]
    split
    · simp
    · rfl
  case member =>
    unfold Store.read
    simp only [hmem]
    split
    · rcases hk : kinds[i]? with _ | k <;> simp [hk]
    · rfl
  case root =>
    by_cases he : r' = r
    · subst he
      simp [Store.alloc]
    · simp [Store.alloc, he]

omit [DecidableEq H] [DecidableEq R] in
theorem Shape.header_next (hs : Shape heaps false 0 s []) : s.header s.next = none := by
  by_contra hne
  obtain ⟨hd, hhd⟩ := Option.ne_none_iff_exists'.1 hne
  exact absurd (hs.bound _ hd hhd) (lt_irrefl _)

namespace Grown

omit [DecidableEq H]

variable (hg : Grown s t r k hd)
include hg

/-- A header is that of the new object, or an old one. -/
theorem header_eq_some (hq : t.header q = some hd') :
    q = s.next ∧ hd' = hd ∨ q ≠ s.next ∧ s.header q = some hd' := by
  rw [hg.header] at hq
  split at hq
  next he => exact .inl ⟨he, (Option.some.inj hq).symm⟩
  next he => exact .inr ⟨he, hq⟩

theorem header_ne (hq : q ≠ s.next → s.header q ≠ none) : t.header q ≠ none := by
  rw [hg.header]
  split
  · simp
  next he => exact hq he

/-- Nothing is forwarded that has not been so before. -/
theorem header_forwarded {age : ℕ} (hp : t.header p = some (.young age (some q))) :
    s.header p = some (.young age (some q)) := by
  rcases hg.header_eq_some hp with ⟨-, he⟩ | ⟨-, hp⟩
  · rcases hg.fresh with rfl | rfl <;> cases he
  · exact hp

theorem member_eq_some (hr : t.read (.member p i) = some q) :
    p ≠ s.next ∧ s.read (.member p i) = some q := by
  rw [hg.member] at hr
  split at hr
  · cases hr
  next he => exact ⟨he, hr⟩

variable (hs : Shape heaps false 0 s [])
include hs

/-- The root refers to the new object, and nothing else does. -/
theorem read_eq_some (hr : t.read slot = some q) :
    q = s.next ∧ slot = .root r ∨ q ≠ s.next ∧ s.read slot = some q := by
  have hold : ∀ slot, s.read slot = some q → q ≠ s.next ∧ s.read slot = some q :=
    fun slot hr => ⟨fun he => hs.closed slot q hr (he ▸ hs.header_next), hr⟩
  rcases slot with r' | ⟨p, i⟩
  · change t.roots r' = _ at hr
    rw [hg.root] at hr
    split at hr
    next he => exact .inl ⟨(Option.some.inj hr).symm, he ▸ rfl⟩
    · exact .inr (hold (.root r') hr)
  · exact .inr (hold _ (hg.member_eq_some hr).2)

theorem isRemembered_eq (q : Ptr) : t.isRemembered q = s.isRemembered q := by
  unfold Store.isRemembered
  rw [hg.header]
  by_cases hq : q = s.next
  · rw [if_pos hq, hq, hs.header_next]
    rcases hg.fresh with rfl | rfl <;> rfl
  · rw [if_neg hq]

theorem shape : Shape heaps false 0 t [] where
  bound q hd' hq := by
    rw [hg.next]
    rcases hg.header_eq_some hq with ⟨rfl, -⟩ | ⟨-, hq⟩
    · exact Nat.lt_succ_self _
    · exact (hs.bound q hd' hq).trans (Nat.lt_succ_self _)
  limit_le := Nat.zero_le _
  closed slot q hr := by
    refine hg.header_ne fun hne => ?_
    rcases hg.read_eq_some hs hr with ⟨he, -⟩ | ⟨-, hr⟩
    · exact absurd he hne
    · exact hs.closed slot q hr
  forwarded p age q hp :=
    absurd (hs.forwarded p age q (hg.header_forwarded hp)).1 (Nat.not_lt_zero _)
  untouched p hp i q hr := by
    obtain ⟨-, hr⟩ := hg.member_eq_some hr
    refine absurd (kept_zero.2 (hg.header_ne fun _ => ?_)) hp
    rcases hm : s.mem p with _ | o
    · simp [Store.read, hm] at hr
    · simp [header_of_mem hm]
  nodup := List.nodup_nil
  before := by simp
  owned := by simp
  settled slot _ := by
    refine .inr fun q hr => ⟨kept_zero.2 (hg.header_ne fun hne => ?_), fun p i he hy hyq => ?_⟩
    · rcases hg.read_eq_some hs hr with ⟨he, -⟩ | ⟨-, hr⟩
      · exact absurd he hne
      · exact hs.closed slot q hr
    · subst he
      obtain ⟨hp, hr'⟩ := hg.member_eq_some hr
      have hq : q ≠ s.next := fun he => hs.closed _ _ hr' (he ▸ hs.header_next)
      have hyoung : ∀ q, q ≠ s.next → t.isYoung q = s.isYoung q := by
        intro q hq
        unfold Store.isYoung
        rw [hg.header, if_neg hq]
      rw [hyoung p hp] at hy
      rw [hyoung q hq] at hyq
      rw [hg.isRemembered_eq hs]
      exact hs.reads hr' p i rfl hy hyq
  remembered p := by
    rw [hg.isRemembered_eq hs, hg.rememberedSet]
    exact hs.remembered p
  rememberedKept p hp := by
    rw [hg.rememberedSet] at hp
    exact kept_zero.2 (hg.header_ne fun _ => (hs.rememberedKept p hp).header_ne)
  rememberedNodup := by
    rw [hg.rememberedSet]
    exact hs.rememberedNodup
  unmarked _ p r' m hp := by
    rcases hg.header_eq_some hp with ⟨-, he⟩ | ⟨-, hp⟩
    · rcases hg.fresh with rfl | rfl <;> cases he
      rfl
    · exact hs.unmarked rfl p r' m hp

omit hs in
/-- A name is the new one, or an old one. -/
theorem name_eq_some (ha : Agrees s a) {m : ℕ} (hq : t.name q = some m) :
    q = s.next ∧ m = a.born ∨ q ≠ s.next ∧ s.name q = some m ∧ m ≠ a.born := by
  rw [hg.name] at hq
  by_cases he : q = s.next
  · rw [if_pos he] at hq
    exact .inl ⟨he, (Option.some.inj hq).symm.trans ha.born⟩
  · rw [if_neg he] at hq
    exact .inr ⟨he, hq, (ha.fresh q m hq).ne⟩

/-- What has been referred to has the name it had. -/
theorem map_name (slot : Slot R) : (s.read slot).map t.name = (s.read slot).map s.name := by
  rcases hr : s.read slot with _ | q
  · rfl
  · have hq : q ≠ s.next := fun he => hs.closed slot q hr (he ▸ hs.header_next)
    simp [hg.name, hq]

omit hs in
theorem agrees (hb : Between heaps s a) : Agrees t
    { born := a.born + 1
      members := Function.update a.members a.born (List.replicate k none)
      roots := Function.update a.roots r (some a.born) } where
  born := by rw [hg.born, hb.agrees.born]
  fresh q m hq := by
    rcases hg.name_eq_some hb.agrees hq with ⟨-, rfl⟩ | ⟨-, hq, -⟩
    · exact Nat.lt_succ_self _
    · exact (hb.agrees.fresh q m hq).trans (Nat.lt_succ_self _)
  roots r' := by
    rw [hg.root]
    by_cases he : r' = r
    · subst he
      simp [hg.name, hb.agrees.born]
    · rw [if_neg he]
      exact (hg.map_name hb.shape (.root r')).trans (by simpa [Store.read, he] using hb.agrees.roots r')
  width q m hq := by
    rw [hg.width]
    rcases hg.name_eq_some hb.agrees hq with ⟨rfl, rfl⟩ | ⟨hne, hq, hm⟩
    · simp
    · simpa [hne, hm] using hb.agrees.width q m hq
  members q m hq i := by
    rw [hg.member]
    rcases hg.name_eq_some hb.agrees hq with ⟨rfl, rfl⟩ | ⟨hne, hq, hm⟩
    · have hjoin : (List.replicate k (none : Option ℕ))[i]?.join = none := by
        rw [List.getElem?_replicate]
        split <;> rfl
      simp only [if_true, Function.update_self, hjoin, Option.map_none]
    · rw [if_neg hne, hg.map_name hb.shape]
      simpa [hm] using hb.agrees.members q m hq i
  same p q m hp hq := by
    refine .inl ?_
    rcases hg.name_eq_some hb.agrees hp with ⟨rfl, rfl⟩ | ⟨-, hp, hm⟩
    · rcases hg.name_eq_some hb.agrees hq with ⟨rfl, -⟩ | ⟨-, -, hm⟩
      · rfl
      · exact absurd rfl hm
    · rcases hg.name_eq_some hb.agrees hq with ⟨-, he⟩ | ⟨-, hq, -⟩
      · exact absurd he hm
      · exact hb.name_inj hp hq
  forwarded p age q hp :=
    absurd (hb.shape.forwarded p age q (hg.header_forwarded hp)).1 (Nat.not_lt_zero _)

end Grown

theorem Between.alloc (hb : Between cfg.heaps s a) : Between cfg.heaps (s.alloc cfg r h size kinds)
    { born := a.born + 1
      members := Function.update a.members a.born (kinds.map fun _ => none)
      roots := Function.update a.roots r (some a.born) } := by
  obtain ⟨hd, hg⟩ := grown_alloc cfg s r h size kinds
  rw [List.map_const']
  exact ⟨hg.shape hb.shape, hg.agrees hb⟩

end Alloc

theorem Between.exec (hb : Between cfg.heaps s a) (m : Mutation H R) :
    Between cfg.heaps (s.exec cfg m) (a.exec m) := by
  rcases m with ⟨r, h, size, kinds⟩ | ⟨r, src, i⟩ | ⟨e, r, i, val⟩ | ⟨r, val⟩
  · exact hb.alloc
  · refine hb.setRoot (fun q hq => ?_) ?_
    · obtain ⟨p, -, hp⟩ := Option.bind_eq_some_iff.1 hq
      exact hb.shape.closed _ q hp
    · rcases hp : s.roots src with _ | p
      · simp [hb.roots_none hp]
      · obtain ⟨n, hn, hname, -⟩ := hb.roots_some hp
        simpa [hn] using hb.agrees.members p n hname i
  · unfold Store.exec Plain.exec
    rcases hp : s.roots r with _ | p
    · simpa [hp, hb.roots_none hp] using hb
    · obtain ⟨m, hm, hname, hhead⟩ := hb.roots_some hp
      obtain ⟨hv, hn⟩ := hb.bind_roots val
      rcases ho : s.mem p with _ | o
      · simp [Store.header, ho] at hhead
      · have hwidth := width_eq ho
        simp only [hp, hm, ho]
        split
        next hi => exact hb.set hname (hwidth ▸ hi) hv hn
        next hi =>
          have hlen := hb.agrees.width p m hname
          rw [hwidth] at hlen
          rw [List.modify_eq_self (by omega), Function.update_eq_self]
          exact hb
  · obtain ⟨hv, hn⟩ := hb.bind_roots val
    exact hb.setRoot hv hn

end Mutations

section Histories

variable [DecidableEq H] [DecidableEq R] {room : State H R → H → ℕ → Bool}

/-- An object that is copied and not tenured fits into the to-space. -/
def InOrder (cfg : Config H R) (room : State H R → H → ℕ → Bool) (c : State H R) : Prop :=
  ∀ slot h rest p o age, c.pending = (slot, h) :: rest → c.read slot = some p →
    c.mem p = some o → o.header = .young age none →
    age + 1 < cfg.maxAge h ∨ room c h o.size = false →
    c.unscanned h + o.size ≤ cfg.spaceSize h

/-- All states of all collections of the history are in order. -/
def AllInOrder (cfg : Config H R) (s : Store H R) : List (Event H R) → Prop
  | [] => True
  | .mutate m :: es => AllInOrder cfg (s.exec cfg m) es
  | .collect major e room :: es =>
    (∀ c, Comes (step cfg major e room) (start cfg major s) c → InOrder cfg room c) ∧
      ∀ c, Comes (step cfg major e room) (start cfg major s) c → step cfg major e room c = none →
        AllInOrder cfg (finish major c) es

omit [DecidableEq R] in
theorem keepObject_eq_none : keepObject cfg major room c h p = none ↔ ∃ o age, c.mem p = some o ∧
    o.header = .young age none ∧ (age + 1 < cfg.maxAge h ∨ room c h o.size = false) ∧
      ¬c.unscanned h + o.size ≤ cfg.spaceSize h := by
  unfold keepObject
  rcases hm : c.mem p with _ | o
  · simp
  rcases hf : o.header with ⟨age, _ | q'⟩ | ⟨r, m⟩
  · simp only [hf, Option.some.injEq]
    constructor
    · intro hk
      split at hk
      next hage =>
        split at hk
        · cases hk
        next hfit => exact ⟨o, age, rfl, by simp [hf], hage, hfit⟩
      · cases hk
    · rintro ⟨o', age', rfl, hf', hage, hfit⟩
      rw [hf] at hf'
      cases hf'
      rw [if_pos hage, if_neg hfit]
  · simp [hf]
  · simp [hf]

/-- A step goes beyond the end of the to-space if it is not in order, and only then. -/
theorem step_overrun (hs : step cfg major e room c = some c') :
    c'.overrun = false ↔ InOrder cfg room c := by
  unfold step at hs
  split at hs
  · cases hs
  next hover =>
  have hover : c.overrun = false := by simpa using hover
  split at hs
  next slot h rest hp =>
    split at hs
    next hr =>
      cases hs
      refine iff_of_true hover fun slot' h' rest' p o age hp' hr' => ?_
      rw [hp] at hp'
      cases hp'
      simp [hr] at hr'
    next p hr =>
      split at hs
      next c₁ q hk =>
        cases hs
        refine iff_of_true ((keepObject_fields hk).2.2.2.trans hover) ?_
        intro slot' h' rest' p' o age hp' hr' hm hf hage
        rw [hp] at hp'
        cases hp'
        rw [hr] at hr'
        cases hr'
        by_contra hfit
        rw [keepObject_eq_none.2 ⟨o, age, hm, hf, hage, hfit⟩] at hk
        cases hk
      next hk =>
        cases hs
        refine iff_of_false (by simp) fun hin => ?_
        obtain ⟨o, age, hm, hf, hage, hfit⟩ := keepObject_eq_none.1 hk
        exact hfit (hin slot h rest p o age hp hr hm hf hage)
  next hp =>
    have hin : InOrder cfg room c := by
      intro slot h rest p o age hp'
      simp [hp] at hp'
    refine iff_of_true ?_ hin
    split at hs
    · split at hs
      · cases hs
      · cases hs
        exact hover
    · split at hs
      · split at hs
        · cases hs
          exact hover
        · split at hs <;> cases hs <;> exact hover
      · split at hs
        · cases hs
          exact hover
        · split at hs <;> cases hs <;> exact hover

theorem overrun_of_step (hs : step cfg major e room c = some c') : c.overrun = false := by
  unfold step at hs
  split at hs
  · cases hs
  next hover => simpa using hover

theorem step_of_overrun (hover : c.overrun = true) : step cfg major e room c = none := by
  unfold step
  rw [if_pos hover]

/-- What is true of every state of a collection, unless a to-space has been overrun. -/
def Sane (cfg : Config H R) (major : Bool) (a : Plain R) (c : State H R) : Prop :=
  c.overrun = true ∨ Inv cfg major a c ∧ Idle c

omit [DecidableEq H] [DecidableEq R] in
theorem sane_start (hb : Between cfg.heaps s a) : Sane cfg major a (start cfg major s) :=
  .inr ⟨inv_start hb, fun _ => rfl⟩

theorem Sane.step (hi : Sane cfg major a c)
    (hs : Generational.step cfg major e room c = some c') : Sane cfg major a c' := by
  obtain ⟨hi, hidle⟩ := hi.resolve_left (by simp [overrun_of_step hs])
  rcases hover : c'.overrun with _ | _
  · exact .inr ⟨hi.step hs hover, hidle.step hs⟩
  · exact .inl hover

/-- A collection ends, within the to-spaces or not. -/
theorem exists_collected (hb : Between cfg.heaps s a) (major : Bool) (e : H)
    (room : State H R → H → ℕ → Bool) : ∃ c, Comes (step cfg major e room) (start cfg major s) c ∧
      step cfg major e room c = none := by
  have hI : ∀ c c', Sane cfg major a c → step cfg major e room c = some c' →
      Sane cfg major a c' := fun c c' => Sane.step
  refine exists_final_of WellFoundedRelation.wf (measure cfg major) hI (fun c c' hi hs => ?_) _
    (sane_start hb)
  obtain ⟨hi, hidle⟩ := hi.resolve_left (by simp [overrun_of_step hs])
  exact measure_step hi hidle hs

/-- A collection ends within the to-spaces if all of its states are in order, and only then. -/
theorem overrun_iff (hc : Comes (step cfg major e room) (start cfg major s) c)
    (he : step cfg major e room c = none) : c.overrun = false ↔
      ∀ c, Comes (step cfg major e room) (start cfg major s) c → InOrder cfg room c := by
  refine ⟨fun hover c' hc' => ?_, fun hin => ?_⟩
  · have hfinal : ∀ d, Comes (step cfg major e room) (start cfg major s) d → d.overrun ≠ true := by
      intro d hd hov
      obtain rfl := hd.final_unique hc (step_of_overrun hov) he
      simp [hover] at hov
    rcases hs : step cfg major e room c' with _ | d
    · have hov : c'.overrun = false := by simpa using hfinal c' hc'
      intro slot h rest p o age hp
      simp [(ended hs hov).1] at hp
    · exact (step_overrun hs).1 (by simpa using hfinal d (hc'.tail hs))
  · induction hc with
    | refl => rfl
    | tail hc hs _ => exact (step_overrun hs).2 (hin _ hc)

/-- What a collection within the to-spaces leaves behind. -/
theorem between_finish (hb : Between cfg.heaps s a)
    (hc : Comes (step cfg major e room) (start cfg major s) c)
    (he : step cfg major e room c = none) (hover : c.overrun = false) :
    Between cfg.heaps (finish major c) a := by
  have hI : ∀ c c', Sane cfg major a c → step cfg major e room c = some c' →
      Sane cfg major a c' := fun c c' => Sane.step
  obtain ⟨hi, hidle⟩ := (hc.invariant hI (sane_start hb)).resolve_left (by simp [hover])
  exact hi.between hidle he hover

theorem Runs.between {t : Store H R} {es : List (Event H R)} (hr : Runs cfg s es t)
    (hb : Between cfg.heaps s a) : Between cfg.heaps t (a.run es) := by
  induction hr generalizing a with
  | nil => exact hb
  | mutate _ ih => exact ih (hb.exec _)
  | collect hc he ho _ ih => exact ih (between_finish hb hc he ho)

/-- The collections of a history end within the to-spaces if they are in order, and only then. -/
theorem runs_iff (hb : Between cfg.heaps s a) (es : List (Event H R)) :
    (∃ t, Runs cfg s es t) ↔ AllInOrder cfg s es := by
  induction es generalizing s a with
  | nil => exact iff_of_true ⟨s, .nil⟩ trivial
  | cons ev es ih =>
    rcases ev with m | ⟨major, e, room⟩
    · unfold AllInOrder
      rw [← ih (hb.exec m)]
      constructor
      · rintro ⟨t, ht⟩
        cases ht with
        | mutate ht => exact ⟨t, ht⟩
      · rintro ⟨t, ht⟩
        exact ⟨t, .mutate ht⟩
    · unfold AllInOrder
      constructor
      · rintro ⟨t, ht⟩
        cases ht with
        | collect hc he ho ht =>
          refine ⟨(overrun_iff hc he).1 ho, fun c hc' he' => ?_⟩
          obtain rfl := hc'.final_unique hc he' he
          exact (ih (between_finish hb hc he ho)).1 ⟨t, ht⟩
      · rintro ⟨hin, hrest⟩
        obtain ⟨c, hc, he⟩ := exists_collected hb major e room
        have ho := (overrun_iff hc he).2 hin
        obtain ⟨t, ht⟩ := (ih (between_finish hb hc he ho)).2 (hrest c hc he)
        exact ⟨t, .collect hc he ho ht⟩

omit [DecidableEq H] [DecidableEq R] in
theorem between_empty (heaps : List H) : Between heaps Store.empty (Plain.empty : Plain R) := by
  have hread : ∀ (slot : Slot R) q, (Store.empty : Store H R).read slot ≠ some q := by
    rintro (r | ⟨p, i⟩) q hr <;> cases hr
  have hnil : (heaps.flatMap fun _ => ([] : List Ptr)) = [] :=
    List.flatMap_eq_nil_iff.2 fun _ _ => rfl
  refine ⟨?_, ?_⟩
  · constructor
    · exact fun p hd hp => nomatch hp
    · exact le_refl 0
    · exact fun slot q hr => absurd hr (hread slot q)
    · exact fun p age q hp => nomatch hp
    · exact fun p _ i q hr => absurd hr (hread _ q)
    · exact List.nodup_nil
    · exact fun slot hslot => nomatch hslot
    · exact fun slot hslot => nomatch hslot
    · exact fun slot _ => .inr fun q hr => absurd hr (hread slot q)
    · intro p
      change false = true ↔ p ∈ heaps.flatMap fun _ => []
      simp [hnil]
    · intro p hp
      change p ∈ heaps.flatMap fun _ => [] at hp
      simp [hnil] at hp
    · change (heaps.flatMap fun _ => []).Nodup
      rw [hnil]
      exact List.nodup_nil
    · exact fun _ p r m hp => nomatch hp
  · exact ⟨rfl, fun p n hp => (nomatch hp), fun r => rfl, fun p n hp => (nomatch hp),
      fun p n hp => (nomatch hp), fun p q n hp => (nomatch hp), fun p age q hp => (nomatch hp)⟩

/-- The objects that the program can get to. -/
def Plain.Reached (a : Plain R) : ℕ → Prop :=
  Reachable (fun n => {m | some m ∈ a.members n}) {n | ∃ r, a.roots r = some n}

/-- The store shows what the one that is never collected does, everything that can be reached is
there, and what is old and refers to something young is remembered. -/
structure Intact (s : Store H R) (a : Plain R) : Prop where
  roots : ∀ r, (s.roots r).map s.name = (a.roots r).map some
  members : ∀ p n, s.name p = some n → ∀ i,
    (s.read (.member p i)).map s.name = (a.members n)[i]?.join.map some
  distinct : ∀ p q n, s.name p = some n → s.name q = some n → p = q
  reached : ∀ n, a.Reached n → ∃ p, s.name p = some n
  remembered : ∀ p i q, s.isYoung p = false → s.read (.member p i) = some q → s.isYoung q = true →
    s.isRemembered p = true ∧ ∃ h, p ∈ s.rememberedSet h

omit [DecidableEq H] [DecidableEq R] in
theorem Between.intact (hb : Between heaps s a) : Intact s a where
  roots := hb.agrees.roots
  members := hb.agrees.members
  distinct p q n := hb.name_inj
  reached n hn := by
    obtain ⟨m, ⟨r, hr⟩, hmn⟩ := hn
    induction hmn with
    | refl =>
      have hroot := hb.agrees.roots r
      rw [hr, Option.map_some] at hroot
      obtain ⟨p, -, hp⟩ := Option.map_eq_some_iff.1 hroot
      exact ⟨p, hp⟩
    | tail _ hk ih =>
      obtain ⟨p, hp⟩ := ih
      obtain ⟨i, hi, hget⟩ := List.mem_iff_getElem.1 hk
      have hm := hb.agrees.members p _ hp i
      rw [List.getElem?_eq_getElem hi, hget] at hm
      obtain ⟨q, -, hq⟩ := Option.map_eq_some_iff.1 hm
      exact ⟨q, hq⟩
  remembered p i q hy hr hyq := by
    have hrem := hb.shape.reads hr p i rfl hy hyq
    obtain ⟨h, -, hp⟩ := List.mem_flatMap.1 ((hb.shape.remembered p).1 hrem)
    exact ⟨hrem, h, hp⟩

/-- A history with collections shows what the one without them does if and only if whatever its
collections copy fits into the to-space. -/
theorem intact_iff (cfg : Config H R) (es : List (Event H R)) :
    (∃ s, Runs cfg Store.empty es s ∧ Intact s (Plain.empty.run es)) ↔
      AllInOrder cfg Store.empty es := by
  have hb : Between cfg.heaps Store.empty (Plain.empty : Plain R) := between_empty cfg.heaps
  rw [← runs_iff hb]
  constructor
  · rintro ⟨s, hs, -⟩
    exact ⟨s, hs⟩
  · rintro ⟨s, hs⟩
    exact ⟨s, hs, (hs.between hb).intact⟩

end Histories

/-- The heaps of the main thread and of another one, of a megabyte each. Both references of the VM
are locals of the other thread. -/
def shared : Config Bool Bool where
  heaps := [false, true]
  nodup := by decide
  complete := by decide
  vm := [(false, true), (true, true)]
  vmNodup := by decide
  vmComplete := by decide
  maxAge _ := 32
  spaceSize _ := 524288

/-- Each of the threads makes something that takes up more than half of a space. -/
def handedOver : List (Event Bool Bool) :=
  [.mutate (.alloc false false 300000 []), .mutate (.alloc true true 300000 []),
    .collect false true fun _ _ _ => true]

/-- Both are copied to the space of the other thread. -/
theorem not_intact_handedOver : ¬∃ s, Runs shared Store.empty handedOver s ∧
    Intact s (Plain.empty.run handedOver) := by
  rintro ⟨s, hs, -⟩
  have hin := (runs_iff (between_empty shared.heaps) handedOver).1 ⟨s, hs⟩
  have hsecond := hin.1 _ (.head rfl (.refl _)) (.root true) true []
  have hfit := hsecond 1 _ 0 rfl rfl rfl (by decide) (.inl (by decide))
  revert hfit
  decide

end Generational

end Yog
