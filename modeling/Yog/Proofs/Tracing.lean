import Yog.Proofs.Remembered

/-!
# Going through what is kept

Keeping an object adds what it refers to to what is still to be gone through (`Outcome`), and
assigning what is returned takes one reference off. A copy has the name of what it is one of, so
that all objects stay what they are (`Agrees`). Every step of a collection keeps both
(`Inv.step`).
-/

namespace Yog

namespace Generational

variable {H R : Type}

variable {s s' : Store H R} {p q : Ptr} {e h : H} {i : ℕ} {v : Option Ptr} {slot : Slot R}

variable {heaps : List H} {major : Bool} {limit : Ptr} {todo todo' : List (Slot R)} {a : Plain R}

/-- The references of an object. -/
def slotsOf (s : Store H R) (p : Ptr) : List (Slot R) := (List.range (s.width p)).map (.member p)

theorem mem_slotsOf : slot ∈ slotsOf s p ↔ ∃ i < s.width p, slot = .member p i := by
  simp [slotsOf, eq_comm]

theorem nodup_slotsOf (s : Store H R) (p : Ptr) : (slotsOf s p).Nodup :=
  List.nodup_range.map fun i j h => by simpa using h

/-- An object that was not kept is, and its references are still to be gone through. -/
theorem Shape.nodup_append_slotsOf (h : Shape heaps major limit s todo)
    (hp : ¬Kept major limit s p) (s' : Store H R) : (todo ++ slotsOf s' p).Nodup := by
  refine List.nodup_append'.2 ⟨h.nodup, nodup_slotsOf s' p, fun x hx hx' => ?_⟩
  obtain ⟨i, -, rfl⟩ := mem_slotsOf.1 hx'
  exact hp (h.owned _ hx)

section Mark

variable {r : Bool}

theorem header_setMarked (hp : s.header p = some (.old r false)) (q : Ptr) :
    (s.modify p fun o => o.setMarked true).header q
      = if q = p then some (.old r true) else s.header q := by
  unfold Obj.setMarked
  rw [header_setHeader]
  split
  next he =>
    subst he
    rw [hp]
    rfl
  · rfl

theorem kept_setMarked (hp : s.header p = some (.old r false)) :
    Kept true limit (s.modify p fun o => o.setMarked true) q ↔ q = p ∨ Kept true limit s q := by
  unfold Kept
  rw [header_setMarked hp]
  by_cases he : q = p
  · simp [he]
  · simp [he]

theorem isYoung_setMarked (hp : s.header p = some (.old r false)) :
    (s.modify p fun o => o.setMarked true).isYoung = s.isYoung := by
  funext q
  unfold Store.isYoung
  rw [header_setMarked hp]
  by_cases he : q = p
  · rw [if_pos he, he, hp]
  · rw [if_neg he]

theorem isRemembered_setMarked (hp : s.header p = some (.old r false)) :
    (s.modify p fun o => o.setMarked true).isRemembered = s.isRemembered := by
  funext q
  unfold Store.isRemembered
  rw [header_setMarked hp]
  by_cases he : q = p
  · rw [if_pos he, he, hp]
  · rw [if_neg he]

/-- An old object is marked. -/
theorem Shape.mark (h : Shape heaps true limit s todo) (hp : s.header p = some (.old r false)) :
    Shape heaps true limit (s.modify p fun o => o.setMarked true) (todo ++ slotsOf s p) := by
  have hn : ¬Kept true limit s p := by simp [Kept, hp]
  have hread : ∀ x, (s.modify p fun o => o.setMarked true).read x = s.read x :=
    fun x => read_setHeader
  have howned : ∀ x, Owned true limit (s.modify p fun o => o.setMarked true) x →
      Owned true limit s x ∨ ∃ i, x = .member p i := by
    rintro (r' | ⟨q, i⟩) hx
    · exact .inl trivial
    · rcases (kept_setMarked hp).1 hx with rfl | hk
      · exact .inr ⟨i, rfl⟩
      · exact .inl hk
  constructor
  · intro q hd hq
    rw [header_setMarked hp] at hq
    split at hq
    next he =>
      subst he
      exact h.bound q _ hp
    · exact h.bound q hd hq
  · exact h.limit_le
  · intro x q hx
    rw [hread] at hx
    rw [header_setMarked hp]
    split
    · simp
    · exact h.closed x q hx
  · intro q age q' hq
    rw [header_setMarked hp] at hq
    split at hq
    · cases hq
    · obtain ⟨hlt, hk⟩ := h.forwarded q age q' hq
      exact ⟨hlt, (kept_setMarked hp).2 (.inr hk)⟩
  · intro q hq i q' hr
    rw [kept_setMarked hp, not_or] at hq
    rw [hread] at hr
    exact h.untouched q hq.2 i q' hr
  · exact h.nodup_append_slotsOf hn s
  · intro x hx q hq
    rw [hread] at hq
    rcases List.mem_append.1 hx with hx | hx
    · exact h.before x hx q hq
    · obtain ⟨i, -, rfl⟩ := mem_slotsOf.1 hx
      exact h.untouched p hn i q hq
  · intro x hx
    rcases List.mem_append.1 hx with hx | hx
    · have ho := h.owned x hx
      rcases x with r' | ⟨q, i⟩
      · trivial
      · exact (kept_setMarked hp).2 (.inr ho)
    · obtain ⟨i, -, rfl⟩ := mem_slotsOf.1 hx
      exact (kept_setMarked hp).2 (.inl rfl)
  · intro x hx
    rcases howned x hx with ho | ⟨i, rfl⟩
    · rcases h.settled x ho with hm | hs
      · exact .inl (List.mem_append_left _ hm)
      · refine .inr fun q hq => ?_
        rw [hread] at hq
        obtain ⟨hk, hb⟩ := hs q hq
        refine ⟨(kept_setMarked hp).2 (.inr hk), ?_⟩
        unfold Barred
        rw [isYoung_setMarked hp, isRemembered_setMarked hp]
        exact hb
    · by_cases hi : i < s.width p
      · exact .inl (List.mem_append_right _ (mem_slotsOf.2 ⟨i, hi, rfl⟩))
      · refine .inr fun q hq => ?_
        rw [hread] at hq
        exact absurd (lt_width hq) hi
  · rw [isRemembered_setMarked hp]
    exact h.remembered
  · exact fun q hq => (kept_setMarked hp).2 (.inr (h.rememberedKept q hq))
  · exact h.rememberedNodup
  · intro hm
    cases hm

end Mark

section Move

variable {o : Obj H} {age age' : ℕ} {new : Header}

theorem header_of_mem (hp : s.mem p = some o) : s.header p = some o.header := by
  simp [Store.header, hp]

theorem not_kept_of_lt (hp : s.mem p = some o) (hf : o.header = .young age none) (hlt : p < limit) :
    ¬Kept major limit s p := by
  unfold Kept
  rw [header_of_mem hp, hf]
  exact not_le.2 hlt

theorem kept_moveTo (hp : s.mem p = some o) (hf : o.header = .young age none) (hlt : p < s.next)
    (hlimit : limit ≤ s.next) (hnew : new = .young age' none ∨ new = .old false major) :
    Kept major limit (moveTo s p o age' new) q ↔ q = s.next ∨ Kept major limit s q := by
  unfold Kept
  rw [header_moveTo _ _ hp hlt]
  by_cases hq : q = s.next
  · subst hq
    rcases hnew with rfl | rfl <;> simp [hlimit]
  · by_cases hqp : q = p
    · subst hqp
      simp [hq, header_of_mem hp, hf]
    · simp [hq, hqp]

theorem isYoung_moveTo (hp : s.mem p = some o) (hf : o.header = .young age none) (hlt : p < s.next)
    (hq : q ≠ s.next) : (moveTo s p o age' new).isYoung q = s.isYoung q := by
  unfold Store.isYoung
  rw [header_moveTo _ _ hp hlt, if_neg hq]
  by_cases hqp : q = p
  · rw [if_pos hqp, hqp, header_of_mem hp, hf]
  · rw [if_neg hqp]

theorem isRemembered_moveTo (hp : s.mem p = some o) (hf : o.header = .young age none)
    (hlt : p < s.next) (hnew : new = .young age' none ∨ new = .old false major)
    (hn : s.header s.next = none) :
    (moveTo s p o age' new).isRemembered q = s.isRemembered q := by
  unfold Store.isRemembered
  rw [header_moveTo _ _ hp hlt]
  by_cases hq : q = s.next
  · rw [if_pos hq, hq, hn]
    rcases hnew with rfl | rfl <;> rfl
  · rw [if_neg hq]
    by_cases hqp : q = p
    · rw [if_pos hqp, hqp, header_of_mem hp, hf]
    · rw [if_neg hqp]

/-- A young object is copied or tenured. -/
theorem Shape.moveTo (h : Shape heaps major limit s todo) (hp : s.mem p = some o)
    (hf : o.header = .young age none) (hplt : p < limit)
    (hnew : new = .young age' none ∨ new = .old false major) :
    Shape heaps major limit (moveTo s p o age' new)
      (todo ++ slotsOf (moveTo s p o age' new) s.next) := by
  have hlt : p < s.next := hplt.trans_le h.limit_le
  have hn : s.header s.next = none := by
    by_contra hne
    obtain ⟨hd, hhd⟩ := Option.ne_none_iff_exists'.1 hne
    exact absurd (h.bound _ hd hhd) (lt_irrefl _)
  have hkn : ¬Kept major limit s s.next := fun hk => hk.header_ne hn
  have hkp : ¬Kept major limit s p := not_kept_of_lt hp hf hplt
  have hkept : ∀ q, Kept major limit (Generational.moveTo s p o age' new) q
      ↔ q = s.next ∨ Kept major limit s q := fun q => kept_moveTo hp hf hlt h.limit_le hnew
  have hread := read_moveTo age' new hp hlt
  have hnot : ∀ x, Owned major limit s x →
      (Generational.moveTo s p o age' new).read x = s.read x := by
    rintro (r | ⟨q, i⟩) hx
    · rfl
    · rw [hread]
      have hq : q ≠ s.next := fun he => hkn (he ▸ hx)
      simp [hq]
  constructor
  · intro q hd hq
    rw [header_moveTo _ _ hp hlt] at hq
    change q < s.next + 1
    split at hq
    next he => exact he ▸ Nat.lt_succ_self _
    · split at hq
      next he => exact he ▸ hlt.trans (Nat.lt_succ_self _)
      · exact (h.bound q hd hq).trans (Nat.lt_succ_self _)
  · exact h.limit_le.trans (Nat.le_succ _)
  · intro x q hx
    have hq : s.header q ≠ none := by
      rw [hread] at hx
      split at hx
      next r => exact h.closed (.root r) q hx
      next p' i =>
        split at hx
        · exact h.closed _ q hx
        · exact h.closed _ q hx
    rw [header_moveTo _ _ hp hlt]
    split
    · simp
    · split
      · simp
      · exact hq
  · intro q age'' q' hq
    rw [header_moveTo _ _ hp hlt] at hq
    split at hq
    · rcases hnew with rfl | rfl <;> simp at hq
    · split at hq
      next he =>
        simp only [Option.some.injEq, Header.young.injEq] at hq
        exact ⟨he ▸ hplt, (hkept q').2 (.inl hq.2.symm)⟩
      · obtain ⟨hl, hk⟩ := h.forwarded q age'' q' hq
        exact ⟨hl, (hkept q').2 (.inr hk)⟩
  · intro q hq i q' hx
    rw [hkept, not_or] at hq
    rw [hread] at hx
    simp only [hq.1, if_false] at hx
    exact h.untouched q hq.2 i q' hx
  · exact h.nodup_append_slotsOf hkn _
  · intro x hx q hq
    rcases List.mem_append.1 hx with hx | hx
    · rw [hnot x (h.owned x hx)] at hq
      exact h.before x hx q hq
    · obtain ⟨i, -, rfl⟩ := mem_slotsOf.1 hx
      rw [hread] at hq
      simp only [if_true] at hq
      exact h.untouched p hkp i q hq
  · intro x hx
    rcases List.mem_append.1 hx with hx | hx
    · have ho := h.owned x hx
      rcases x with r' | ⟨q, i⟩
      · trivial
      · exact (hkept q).2 (.inr ho)
    · obtain ⟨i, -, rfl⟩ := mem_slotsOf.1 hx
      exact (hkept _).2 (.inl rfl)
  · rintro x hx
    have hold : Owned major limit s x → x ∈ todo ++ slotsOf (Generational.moveTo s p o age' new) s.next ∨
        ∀ q, (Generational.moveTo s p o age' new).read x = some q →
          Kept major limit (Generational.moveTo s p o age' new) q ∧
            Barred (Generational.moveTo s p o age' new) x q := by
      intro ho
      rcases h.settled x ho with hm | hs
      · exact .inl (List.mem_append_left _ hm)
      · refine .inr fun q hq => ?_
        rw [hnot x ho] at hq
        obtain ⟨hk, hb⟩ := hs q hq
        refine ⟨(hkept q).2 (.inr hk), fun p' i he hy hyq => ?_⟩
        subst he
        have hp' : p' ≠ s.next := fun he => hkn (he ▸ ho)
        have hq' : q ≠ s.next := fun he => hkn (he ▸ hk)
        rw [isYoung_moveTo hp hf hlt hp'] at hy
        rw [isYoung_moveTo hp hf hlt hq'] at hyq
        rw [isRemembered_moveTo hp hf hlt hnew hn]
        exact hb p' i rfl hy hyq
    rcases x with r | ⟨q, i⟩
    · exact hold trivial
    · rcases (hkept q).1 hx with rfl | hk
      · by_cases hi : i < (Generational.moveTo s p o age' new).width s.next
        · exact .inl (List.mem_append_right _ (mem_slotsOf.2 ⟨i, hi, rfl⟩))
        · exact .inr fun q hq => absurd (lt_width hq) hi
      · exact hold hk
  · intro q
    rw [isRemembered_moveTo hp hf hlt hnew hn]
    exact h.remembered q
  · exact fun q hq => (hkept q).2 (.inr (h.rememberedKept q hq))
  · exact h.rememberedNodup
  · intro hm q r m hq
    rw [header_moveTo _ _ hp hlt] at hq
    split at hq
    · rcases hnew with rfl | rfl
      · cases hq
      · cases hq
        exact hm
    · split at hq
      · cases hq
      · exact h.unmarked hm q r m hq

end Move

theorem Agrees.congr (h : Agrees s a) (hborn : s'.born = s.born) (hname : s'.name = s.name)
    (hwidth : s'.width = s.width) (hread : ∀ x, (s'.read x).map s.name = (s.read x).map s.name)
    (hyoung : ∀ q age f, s'.header q = some (.young age f) ↔ s.header q = some (.young age f)) :
    Agrees s' a where
  born := hborn.trans h.born
  fresh p n hp := h.fresh p n (hname ▸ hp)
  roots r := by
    have hr := hread (.root r)
    simp only [Store.read] at hr
    rw [hname, hr, h.roots]
  width p n hp := by
    rw [hwidth]
    exact h.width p n (hname ▸ hp)
  members p n hp i := by
    rw [hname, hread]
    exact h.members p n (hname ▸ hp) i
  same p p' n hp hp' := by
    simp only [hyoung]
    exact h.same p p' n (hname ▸ hp) (hname ▸ hp')
  forwarded p age q hp := by
    rw [hname]
    exact h.forwarded p age q ((hyoung p age _).1 hp)

theorem Agrees.moveTo {o : Obj H} {age age' : ℕ} {new : Header} (h : Agrees s a)
    (hs : Shape heaps major limit s todo) (hp : s.mem p = some o) (hf : o.header = .young age none)
    (hplt : p < limit) (hnew : new = .young age' none ∨ new = .old false major) :
    Agrees (moveTo s p o age' new) a := by
  have hlt : p < s.next := hplt.trans_le hs.limit_le
  have hbound : ∀ q n, s.name q = some n → q ≠ s.next := by
    rintro q n hq rfl
    rcases hm : s.mem s.next with _ | o'
    · simp [Store.name, hm] at hq
    · exact absurd (hs.bound _ _ (header_of_mem hm)) (lt_irrefl _)
  have hname := name_moveTo age' new hp hlt
  have hread := read_moveTo age' new hp hlt
  have hnamep : s.name p = some o.name := by simp [Store.name, hp]
  have hfrom : ∀ q n, (Generational.moveTo s p o age' new).name q = some n →
      q = s.next ∧ s.name p = some n ∨ q ≠ s.next ∧ s.name q = some n := by
    intro q n hq
    rw [hname] at hq
    by_cases he : q = s.next
    · exact .inl ⟨he, by simpa [he] using hq⟩
    · exact .inr ⟨he, by simpa [he] using hq⟩
  have hmap : ∀ x, (s.read x).map (Generational.moveTo s p o age' new).name
      = (s.read x).map s.name := by
    intro x
    rcases hx : s.read x with _ | q
    · rfl
    · have hq : q ≠ s.next := by
        rintro rfl
        obtain ⟨hd, hhd⟩ := Option.ne_none_iff_exists'.1 (hs.closed x _ hx)
        exact absurd (hs.bound _ hd hhd) (lt_irrefl _)
      simp [hname, hq]
  have hfwd : ∀ q age'' f, (Generational.moveTo s p o age' new).header q
      = some (.young age'' (some f)) → q = p ∧ f = s.next ∨ q ≠ s.next ∧
        s.header q = some (.young age'' (some f)) := by
    intro q age'' f hq
    rw [header_moveTo _ _ hp hlt] at hq
    by_cases he : q = s.next
    · rcases hnew with rfl | rfl <;> simp [he] at hq
    · by_cases hqp : q = p
      · refine .inl ⟨hqp, ?_⟩
        rw [if_neg he, if_pos hqp] at hq
        cases hq
        rfl
      · exact .inr ⟨he, by simpa [he, hqp] using hq⟩
  have hold : ∀ q age'' f, s.header q = some (.young age'' (some f)) →
      (Generational.moveTo s p o age' new).header q = some (.young age'' (some f)) := by
    intro q age'' f hq
    have he : q ≠ s.next := fun he => absurd (hs.bound _ _ (he ▸ hq)) (lt_irrefl _)
    have hqp : q ≠ p := by
      rintro rfl
      rw [header_of_mem hp, hf] at hq
      simp at hq
    rw [header_moveTo _ _ hp hlt, if_neg he, if_neg hqp, hq]
  have hnext : (Generational.moveTo s p o age' new).header p = some (.young age' (some s.next)) := by
    rw [header_moveTo _ _ hp hlt, if_neg hlt.ne, if_pos rfl]
  have hnever : ∀ q age'', s.header q ≠ some (.young age'' (some p)) := by
    intro q age'' hq
    exact not_kept_of_lt hp hf hplt (hs.forwarded q age'' p hq).2
  constructor
  · exact h.born
  · intro q n hq
    rcases hfrom q n hq with ⟨-, hq⟩ | ⟨-, hq⟩ <;> exact h.fresh _ n hq
  · intro r
    have hr := hmap (.root r)
    simp only [Store.read] at hr
    exact hr.trans (h.roots r)
  · intro q n hq
    rw [width_moveTo _ _ hp hlt]
    rcases hfrom q n hq with ⟨he, hq⟩ | ⟨he, hq⟩
    · rw [if_pos he]
      exact h.width p n hq
    · rw [if_neg he]
      exact h.width q n hq
  · intro q n hq i
    rw [hread]
    rcases hfrom q n hq with ⟨he, hq⟩ | ⟨he, hq⟩
    · simp only [he, if_true]
      rw [hmap]
      exact h.members p n hq i
    · simp only [he, if_false]
      rw [hmap]
      exact h.members q n hq i
  · have hsame : ∀ q n, q ≠ s.next → s.name q = some n → s.name p = some n → q = p := by
      intro q n _ hq hp'
      rcases h.same q p n hq hp' with he | ⟨age'', hf'⟩ | ⟨age'', hf'⟩
      · exact he
      · exact absurd hf' (hnever q age'')
      · rw [header_of_mem hp, hf] at hf'
        simp at hf'
    intro q q' n hq hq'
    rcases hfrom q n hq with ⟨rfl, hpn⟩ | ⟨he, hq⟩
    · rcases hfrom q' n hq' with ⟨rfl, -⟩ | ⟨he', hq'⟩
      · exact .inl rfl
      · obtain rfl := hsame q' n he' hq' hpn
        exact .inr (.inr ⟨age', hnext⟩)
    · rcases hfrom q' n hq' with ⟨rfl, hpn⟩ | ⟨he', hq'⟩
      · obtain rfl := hsame q n he hq hpn
        exact .inr (.inl ⟨age', hnext⟩)
      · rcases h.same q q' n hq hq' with he | ⟨age'', hf'⟩ | ⟨age'', hf'⟩
        · exact .inl he
        · exact .inr (.inl ⟨age'', hold q age'' q' hf'⟩)
        · exact .inr (.inr ⟨age'', hold q' age'' q hf'⟩)
  · intro q age'' f hq
    rw [hname, hname]
    rcases hfwd q age'' f hq with ⟨rfl, rfl⟩ | ⟨he, hq'⟩
    · simp [hlt.ne]
    · have hf' : f ≠ s.next := by
        rintro rfl
        have hk := (hs.forwarded q age'' _ hq').2.header_ne
        obtain ⟨hd, hhd⟩ := Option.ne_none_iff_exists'.1 hk
        exact absurd (hs.bound _ hd hhd) (lt_irrefl _)
      rw [if_neg hf', if_neg he]
      exact h.forwarded q age'' f hq'

/-- What a heap has still to scan, and to go through on its list. -/
def work (s : State H R) (h : H) : List Ptr := s.cur h ++ (s.toSpace h).drop (s.scanned h)

def worklist (cfg : Config H R) (s : State H R) : List Ptr := s.prev ++ cfg.heaps.flatMap (work s)

def remaining (cfg : Config H R) (s : State H R) : List (Slot R) :=
  s.pending.map Prod.fst ++ (worklist cfg s).flatMap (slotsOf s.toStore)

variable {cfg : Config H R} {c c' : State H R} {o : Obj H}

theorem worklist_perm (h : H) {l : List Ptr} (hprev : c'.prev = c.prev)
    (hwork : (work c' h).Perm (work c h ++ l)) (hne : ∀ h', h' ≠ h → work c' h' = work c h') :
    (worklist cfg c').Perm (worklist cfg c ++ l) := by
  unfold worklist
  rw [hprev, List.append_assoc]
  exact (flatMap_perm cfg.nodup (cfg.complete h) hwork hne).append_left _

section Listed

variable [DecidableEq H]

theorem addToMarkedObjects_fields (c : State H R) (h : H) (p : Ptr) (o : Obj H) :
    ∃ cur, addToMarkedObjects c h p o = { c with cur := cur } := by
  unfold addToMarkedObjects
  split
  · exact ⟨c.cur, rfl⟩
  · exact ⟨_, rfl⟩

theorem worklist_addToMarkedObjects (cfg : Config H R) (c : State H R) (h : H) (p : Ptr) (o : Obj H) :
    ∃ l, (worklist cfg (addToMarkedObjects c h p o)).Perm (worklist cfg c ++ l) ∧
      (l = [p] ∨ l = [] ∧ o.members = []) := by
  unfold addToMarkedObjects
  split
  next ho => exact ⟨[], by simp, .inr ⟨rfl, List.isEmpty_iff.1 ho⟩⟩
  · refine ⟨[p], worklist_perm h rfl ?_ fun h' hne => ?_, .inl rfl⟩
    · simp only [work, Function.update_self, List.append_assoc]
      exact List.perm_append_comm.append_left _
    · simp [work, hne]

theorem worklist_copy (hsc : c.scanned h ≤ (c.toSpace h).length) (p : Ptr) (o : Obj H) (age : ℕ) :
    (worklist cfg (copy c h p o age)).Perm (worklist cfg c ++ [c.next]) := by
  refine worklist_perm h rfl ?_ fun h' hne => ?_
  · simp [work, copy, List.drop_append_of_le_length hsc]
  · simp [work, copy, hne]

end Listed

/-- What keeping an object comes to: what is returned is kept and the same, and there may be
more to go through. -/
structure Outcome (cfg : Config H R) (major : Bool) (a : Plain R) (todo : List (Slot R))
    (c c' : State H R) (p q : Ptr) (l : List Ptr) : Prop where
  perm : (worklist cfg c').Perm (worklist cfg c ++ l)
  shape : Shape cfg.heaps major c.limit c'.toStore (todo ++ l.flatMap (slotsOf c'.toStore))
  agrees : Agrees c'.toStore a
  listed : ∀ x ∈ l, c'.header x ≠ none
  kept : Kept major c.limit c'.toStore q
  name : c'.name q = c.name p
  names : ∀ x, c.header x ≠ none → c'.name x = c.name x
  width : ∀ x, c.header x ≠ none → c'.width x = c.width x
  header : ∀ x, c.header x ≠ none → c'.header x ≠ none
  read : ∀ x, Owned major c.limit c.toStore x → c'.read x = c.read x
  pending : c'.pending = c.pending
  limit : c'.limit = c.limit
  scanned : (∀ h, c.scanned h ≤ (c.toSpace h).length) → ∀ h, c'.scanned h ≤ (c'.toSpace h).length

theorem width_eq (hp : s.mem p = some o) : s.width p = o.members.length := by
  simp [Store.width, hp]

theorem slotsOf_nil (hp : s.width p = 0) : slotsOf s p = [] := by
  simp [slotsOf, hp]

/-- Nothing happens to what has been kept before. -/
theorem Outcome.same (hs : Shape cfg.heaps major c.limit c.toStore todo') (ha : Agrees c.toStore a)
    (hk : Kept major c.limit c.toStore q) (hn : c.name q = c.name p) :
    Outcome cfg major a todo' c c p q [] where
  perm := by simp
  shape := by simpa using hs
  agrees := ha
  listed x hx := nomatch hx
  kept := hk
  name := hn
  names _ _ := rfl
  width _ _ := rfl
  header _ hx := hx
  read _ _ := rfl
  pending := rfl
  limit := rfl
  scanned h := h

section Keep

variable [DecidableEq H]

theorem Outcome.mark (hs : Shape cfg.heaps true c.limit c.toStore todo') (ha : Agrees c.toStore a)
    (hm : c.mem p = some o) {r : Bool} (hh : o.header = .old r false) (h : H) :
    ∃ l, Outcome cfg true a todo' c (Generational.mark c h p o) p p l := by
  have hp : c.header p = some (.old r false) := (header_of_mem hm).trans (congrArg some hh)
  unfold Generational.mark
  rw [hh]
  simp only
  obtain ⟨l, hperm, hl⟩ := worklist_addToMarkedObjects cfg
    { c with toStore := c.modify p fun o => o.setMarked true } h p o
  obtain ⟨cur, hcur⟩ := addToMarkedObjects_fields
    { c with toStore := c.modify p fun o => o.setMarked true } h p o
  have hname : ∀ x, (c.modify p fun o => o.setMarked true).name x = c.name x :=
    fun x => name_setHeader
  have hwidth : ∀ x, (c.modify p fun o => o.setMarked true).width x = c.width x :=
    fun x => width_setHeader
  have hread : ∀ x, (c.modify p fun o => o.setMarked true).read x = c.read x :=
    fun x => read_setHeader
  have hheader : ∀ x, c.header x ≠ none →
      (c.modify p fun o => o.setMarked true).header x ≠ none := by
    intro x hx
    rw [header_setMarked hp]
    split
    · simp
    · exact hx
  have hpn : c.header p ≠ none := by simp [hp]
  refine ⟨l, hperm, ?_, ?_, ?_, ?_, ?_, ?_, ?_, ?_, ?_, ?_, ?_, ?_⟩ <;> rw [hcur]
  · have hslots : l.flatMap (slotsOf (c.modify p fun o => o.setMarked true)) = slotsOf c.toStore p := by
      have he : slotsOf (c.modify p fun o => o.setMarked true) p = slotsOf c.toStore p := by
        unfold slotsOf
        rw [hwidth]
      rcases hl with rfl | ⟨rfl, ho⟩
      · simpa using he
      · rw [slotsOf_nil (by rw [width_eq hm, ho]; rfl)]
        rfl
    change Shape _ _ _ _ (todo' ++ l.flatMap (slotsOf (c.modify p fun o => o.setMarked true)))
    rw [hslots]
    exact hs.mark hp
  · refine ha.congr rfl (funext hname) (funext hwidth) (fun x => by rw [hread]) fun q age f => ?_
    rw [header_setMarked hp]
    split
    next he =>
      subst he
      simp [hp]
    · rfl
  · intro x hx
    rcases hl with rfl | ⟨rfl, -⟩
    · obtain rfl := List.mem_singleton.1 hx
      exact hheader x hpn
    · cases hx
  · exact (kept_setMarked hp).2 (.inl rfl)
  · exact hname p
  · exact fun x _ => hname x
  · exact fun x _ => hwidth x
  · exact hheader
  · exact fun x _ => hread x
  · exact id

omit [DecidableEq H] in
theorem Outcome.moveTo {age age' : ℕ} {new : Header} {l : List Ptr}
    (hs : Shape cfg.heaps major c.limit c.toStore todo') (ha : Agrees c.toStore a)
    (hm : c.mem p = some o) (hf : o.header = .young age none) (hplt : p < c.limit)
    (hnew : new = .young age' none ∨ new = .old false major)
    (hstore : c'.toStore = Generational.moveTo c.toStore p o age' new) (hlimit : c'.limit = c.limit)
    (hpending : c'.pending = c.pending)
    (hsc : (∀ h, c.scanned h ≤ (c.toSpace h).length) → ∀ h, c'.scanned h ≤ (c'.toSpace h).length)
    (hperm : (worklist cfg c').Perm (worklist cfg c ++ l))
    (hl : l = [c.next] ∨ l = [] ∧ o.members = []) :
    Outcome cfg major a todo' c c' p c.next l := by
  have hlt : p < c.next := hplt.trans_le hs.limit_le
  have hnext : ∀ x, c.header x ≠ none → x ≠ c.next := by
    rintro x hx rfl
    obtain ⟨hd, hhd⟩ := Option.ne_none_iff_exists'.1 hx
    exact absurd (hs.bound _ hd hhd) (lt_irrefl _)
  have hn : c.header c.next = none := by
    by_contra hne
    exact hnext _ hne rfl
  have hheader : ∀ x, x = c.next ∨ c.header x ≠ none → c'.header x ≠ none := by
    intro x hx
    rw [hstore, header_moveTo _ _ hm hlt]
    split
    · simp
    next he =>
      split
      · simp
      · exact hx.resolve_left he
  have hwidth : c'.width c.next = c.width p := by rw [hstore, width_moveTo _ _ hm hlt, if_pos rfl]
  refine ⟨hperm, ?_, ?_, ?_, ?_, ?_, ?_, ?_, fun x hx => hheader x (.inr hx), ?_, hpending, hlimit, hsc⟩
  · have hslots : l.flatMap (slotsOf c'.toStore) = slotsOf c'.toStore c.next := by
      rcases hl with rfl | ⟨rfl, ho⟩
      · simp
      · rw [slotsOf_nil (by rw [hwidth, width_eq hm, ho]; rfl)]
        rfl
    rw [hslots, hstore]
    exact hs.moveTo hm hf hplt hnew
  · rw [hstore]
    exact ha.moveTo hs hm hf hplt hnew
  · intro x hx
    rcases hl with rfl | ⟨rfl, -⟩
    · exact hheader x (.inl (List.mem_singleton.1 hx))
    · cases hx
  · rw [hstore]
    exact (kept_moveTo hm hf hlt hs.limit_le hnew).2 (.inl rfl)
  · rw [hstore, name_moveTo _ _ hm hlt, if_pos rfl]
  · intro x hx
    rw [hstore, name_moveTo _ _ hm hlt, if_neg (hnext x hx)]
  · intro x hx
    rw [hstore, width_moveTo _ _ hm hlt, if_neg (hnext x hx)]
  · rintro (r | ⟨x, i⟩) hx
    · rw [hstore, read_moveTo _ _ hm hlt]
      rfl
    · have hne : x ≠ c.next := fun he => (he ▸ hx : Kept _ _ _ c.next).header_ne hn
      rw [hstore, read_moveTo _ _ hm hlt]
      simp [hne]

/-- Keeping an object comes to an outcome, unless it would go beyond the end of the to-space. -/
theorem outcome_keepObject {room : State H R → H → ℕ → Bool}
    (hs : Shape cfg.heaps major c.limit c.toStore todo') (ha : Agrees c.toStore a)
    (hsc : ∀ h, c.scanned h ≤ (c.toSpace h).length) (hp : c.header p ≠ none) (hplt : p < c.limit)
    (hk : keepObject cfg major room c h p = some (c', q)) :
    ∃ l, Outcome cfg major a todo' c c' p q l := by
  unfold keepObject at hk
  rcases hm : c.mem p with _ | o
  · simp [Store.header, hm] at hp
  rw [hm] at hk
  simp only at hk
  rcases hf : o.header with ⟨age, _ | q'⟩ | ⟨r, m⟩
  · rw [hf] at hk
    simp only at hk
    split at hk
    · split at hk
      · cases hk
        refine ⟨_, .moveTo hs ha hm hf hplt (.inl rfl) rfl rfl rfl (fun hsc h' => ?_)
          (worklist_copy (hsc h) p o _) (.inl rfl)⟩
        by_cases he : h' = h
        · subst he
          simpa [copy] using (hsc h').trans (Nat.le_succ _)
        · simpa [copy, he] using hsc h'
      · cases hk
    · cases hk
      unfold tenure
      obtain ⟨l, hperm, hl⟩ := worklist_addToMarkedObjects cfg
        { c with toStore := Generational.moveTo c.toStore p o (age + 1) (.old false major) } h c.next o
      obtain ⟨cur, hcur⟩ := addToMarkedObjects_fields
        { c with toStore := Generational.moveTo c.toStore p o (age + 1) (.old false major) } h c.next o
      have hnew : Header.old false major = .young (age + 1) none ∨
          Header.old false major = .old false major := .inr rfl
      refine ⟨l, .moveTo hs ha hm hf hplt hnew ?_ ?_ ?_ ?_ hperm hl⟩ <;> rw [hcur]
      exact id
  · rw [hf] at hk
    cases hk
    have hhead := (header_of_mem hm).trans (congrArg some hf)
    exact ⟨[], .same hs ha (hs.forwarded p age q hhead).2 (ha.forwarded p age q hhead)⟩
  · rw [hf] at hk
    have hhead := (header_of_mem hm).trans (congrArg some hf)
    cases major with
    | false =>
      cases hk
      exact ⟨[], .same hs ha (by simp [Kept, hhead]) rfl⟩
    | true =>
      cases hk
      cases m with
      | false => exact Outcome.mark hs ha hm hf h
      | true =>
        have he : mark c h p o = c := by simp [mark, hf]
        rw [he]
        exact ⟨[], .same hs ha (by simp [Kept, hhead]) rfl⟩

end Keep

/-- What every state of a collection keeps. -/
structure Inv (cfg : Config H R) (major : Bool) (a : Plain R) (c : State H R) : Prop where
  shape : Shape cfg.heaps major c.limit c.toStore (remaining cfg c)
  agrees : Agrees c.toStore a
  listed : ∀ p ∈ worklist cfg c, c.header p ≠ none
  scanned : ∀ h, c.scanned h ≤ (c.toSpace h).length

section Write

variable [DecidableEq H] [DecidableEq R]

omit [DecidableEq H] [DecidableEq R] in
theorem owned_root_or (ho : Owned major limit s slot) (hr : s.read slot = some p) :
    (∃ r, slot = .root r) ∨
      ∃ q i, slot = .member q i ∧ i < s.width q ∧ Kept major limit s q := by
  rcases slot with r | ⟨q, i⟩
  · exact .inl ⟨r, rfl⟩
  · exact .inr ⟨q, i, rfl, lt_width hr, ho⟩

/-- What a keeper has returned takes the place of what it was given. -/
theorem Shape.write (hs : Shape heaps major limit s (slot :: todo)) (hheaps : heaps.Nodup)
    (he : e ∈ heaps) (hr : s.read slot = some p) (hq : Kept major limit s q) :
    Shape heaps major limit (s.write e (some q) slot) todo := by
  obtain ⟨hslot, -⟩ := List.nodup_cons.1 hs.nodup
  have hsub : todo.Sublist (slot :: todo) := List.sublist_cons_self slot todo
  have hmem : ∀ x ∈ slot :: todo, x = slot ∨ x ∈ todo := fun x hx => List.mem_cons.1 hx
  have ho := hs.owned slot List.mem_cons_self
  rcases owned_root_or ho hr with ⟨r, rfl⟩ | ⟨p', i, rfl, hi, hk⟩
  · have hread : ∀ x, (s.write e (some q) (.root r)).read x
        = if x = .root r then some q else s.read x := by
      rintro (r' | ⟨p', i⟩)
      · by_cases hr : r' = r
        · simp [Store.write, Store.read, hr]
        · simp [Store.write, Store.read, hr]
      · simp [Store.write, Store.read]
    refine hs.assign rfl rfl rfl hread ho (fun q' hq' => ?_) hsub hmem hslot
    cases hq'
    refine ⟨hq, fun p' i h => ?_⟩
    cases h
  · refine hs.updatePtr hheaps he hi hk (fun q' hq' => ?_) hsub hmem hslot
    cases hq'
    exact hq

theorem Agrees.write (ha : Agrees s a) (hr : s.read slot = some p) (hq : s.name q = s.name p) :
    Agrees (s.write e (some q) slot) a := by
  rcases slot with r | ⟨p', i⟩
  · refine ha.congr rfl rfl rfl (fun x => ?_) fun _ _ _ => Iff.rfl
    rcases x with r' | ⟨p', i⟩
    · by_cases he : r' = r
      · subst he
        simp [Store.write, Store.read, hq] at hr ⊢
        simp [hr]
      · simp [Store.write, Store.read, he]
    · rfl
  · have hborn : (s.updatePtr e p' i (some q)).born = s.born := by
      rcases updatePtr_cases s e p' i (some q) with ⟨heq, -⟩ | ⟨-, -, heq⟩ <;> rw [heq] <;> rfl
    refine ha.congr hborn (funext fun x => name_updatePtr) (funext fun x => width_updatePtr)
      (fun x => ?_) fun x age f => young_updatePtr s e p' i (some q) x age f
    change Option.map _ ((s.updatePtr e p' i (some q)).read x) = _
    rw [read_updatePtr (lt_width hr)]
    split
    next he => rw [he, hr, Option.map_some, Option.map_some, hq]
    · rfl

theorem width_write : (s.write e v slot).width p = s.width p := by
  rcases slot with r | ⟨p', i⟩
  · rfl
  · exact width_updatePtr

theorem header_write (hp : s.header p ≠ none) : (s.write e v slot).header p ≠ none := by
  rcases slot with r | ⟨p', i⟩
  · exact hp
  · change (s.updatePtr e p' i v).header p ≠ none
    rcases updatePtr_cases s e p' i v with ⟨heq, -⟩ | ⟨-, -, heq⟩
    · rwa [heq, header_setMember]
    · rw [heq, header_setMember]
      unfold Store.addToRememberedSet Obj.setRemembered
      rw [header_setHeader]
      split
      · change (s.header p).map _ ≠ none
        simpa using hp
      · exact hp

end Write

section Step

variable [DecidableEq H] [DecidableEq R] {room : State H R → H → ℕ → Bool}

omit [DecidableEq H] [DecidableEq R] in
theorem map_membersOf (s : Store H R) (h : H) (p : Ptr) :
    (membersOf s h p).map Prod.fst = slotsOf s p := by
  unfold membersOf slotsOf Store.width
  rcases s.mem p with _ | o
  · rfl
  · rw [List.map_map]
    change o.members.zipIdx.map (Slot.member p ∘ Prod.snd) = (List.range o.members.length).map _
    rw [← List.map_map, List.zipIdx_map_snd, List.range_eq_range']

omit [DecidableEq H] [DecidableEq R] in
/-- An object is taken off what is still to be gone through, and its references are pending. -/
theorem Inv.take (hi : Inv cfg major a c) (hp : c.pending = []) (h : H)
    (hstore : c'.toStore = c.toStore) (hlimit : c'.limit = c.limit)
    (hpending : c'.pending = membersOf c.toStore h p)
    (hperm : (worklist cfg c).Perm (p :: worklist cfg c'))
    (hsc : ∀ h, c'.scanned h ≤ (c'.toSpace h).length) : Inv cfg major a c' where
  shape := by
    rw [hstore, hlimit]
    refine hi.shape.perm ?_
    unfold remaining
    rw [hp, hpending, hstore, map_membersOf]
    simpa using hperm.flatMap_right (slotsOf c.toStore)
  agrees := hstore ▸ hi.agrees
  listed x hx := by
    rw [hstore]
    exact hi.listed x (hperm.mem_iff.2 (.tail _ hx))
  scanned := hsc

omit [DecidableEq H] [DecidableEq R] in
/-- What there is to go through is in another list now. -/
theorem Inv.move (hi : Inv cfg major a c) (hstore : c'.toStore = c.toStore)
    (hlimit : c'.limit = c.limit) (hpending : c'.pending = c.pending)
    (hperm : (worklist cfg c).Perm (worklist cfg c'))
    (hsc : ∀ h, c'.scanned h ≤ (c'.toSpace h).length) : Inv cfg major a c' where
  shape := by
    rw [hstore, hlimit]
    refine hi.shape.perm ?_
    unfold remaining
    rw [hpending, hstore]
    exact (hperm.flatMap_right _).append_left _
  agrees := hstore ▸ hi.agrees
  listed x hx := by
    rw [hstore]
    exact hi.listed x (hperm.mem_iff.2 hx)
  scanned := hsc

omit [DecidableEq H] [DecidableEq R] in
theorem slotsOf_congr (hw : s'.width p = s.width p) : slotsOf s' p = slotsOf s p := by
  unfold slotsOf
  rw [hw]

omit [DecidableEq R] in
theorem worklist_scan (hlt : c.scanned h < (c.toSpace h).length) (hscanned :
      c'.scanned = Function.update c.scanned h (c.scanned h + 1)) (hspace : c'.toSpace = c.toSpace)
    (hcur : c'.cur = c.cur) (hprev : c'.prev = c.prev) :
    (worklist cfg c).Perm ((c.toSpace h)[c.scanned h] :: worklist cfg c') := by
  refine List.Perm.trans ?_ (List.perm_append_singleton _ _)
  refine worklist_perm h hprev.symm ?_ fun h' hne => ?_
  · simp only [work, hscanned, hspace, hcur, Function.update_self, List.append_assoc]
    rw [List.drop_eq_getElem_cons hlt]
    exact (List.perm_append_singleton _ _).symm.append_left _
  · simp [work, hscanned, hspace, hcur, hne]

omit [DecidableEq R] in
theorem worklist_round (hp : c.prev = []) (hprev : c'.prev = c.cur h)
    (hcur : c'.cur = Function.update c.cur h []) (hscanned : c'.scanned = c.scanned)
    (hspace : c'.toSpace = c.toSpace) : (worklist cfg c).Perm (worklist cfg c') := by
  unfold worklist
  rw [hp, hprev, List.nil_append]
  refine (flatMap_perm cfg.nodup (cfg.complete h) ?_ fun h' hne => ?_).trans List.perm_append_comm
  · simpa [work, hcur, hscanned, hspace] using List.perm_append_comm
  · simp [work, hcur, hscanned, hspace, hne]

/-- A reference is kept, and what is returned takes its place. -/
theorem Inv.keep (hi : Inv cfg major a c) {rest : List (Slot R × H)}
    (hp : c.pending = (slot, h) :: rest) (hr : c.read slot = some p)
    (hk : keepObject cfg major room c h p = some (c', q)) :
    Inv cfg major a { c' with toStore := c'.write e (some q) slot, pending := rest } := by
  have hs := hi.shape
  have hrem : remaining cfg c = slot :: (rest.map Prod.fst ++ (worklist cfg c).flatMap (slotsOf c.toStore)) := by
    simp [remaining, hp]
  rw [hrem] at hs
  have hhead := hs.closed slot p hr
  obtain ⟨l, ho⟩ := outcome_keepObject hs hi.agrees hi.scanned hhead
    (hs.before slot List.mem_cons_self p hr) hk
  have hslots : ∀ x, slotsOf (c'.write e (some q) slot) x = slotsOf c'.toStore x :=
    fun x => slotsOf_congr width_write
  have hr' : c'.read slot = some p := by
    rw [ho.read slot (hs.owned slot List.mem_cons_self), hr]
  refine ⟨?_, ?_, fun x hx => header_write ?_, ho.scanned hi.scanned⟩
  · have hsh := ho.shape
    rw [List.cons_append, List.append_assoc] at hsh
    refine (ho.limit ▸ hsh.write cfg.nodup (cfg.complete e) hr' ho.kept).perm ?_
    refine List.Perm.append_left _ ?_
    have hw : (worklist cfg c).flatMap (slotsOf c.toStore)
        = (worklist cfg c).flatMap (slotsOf c'.toStore) :=
      List.flatMap_congr fun x hx => (slotsOf_congr (ho.width x (hi.listed x hx))).symm
    rw [hw, ← List.flatMap_append]
    change List.Perm _ ((worklist cfg c').flatMap (slotsOf (c'.write e (some q) slot)))
    rw [funext hslots]
    exact ho.perm.symm.flatMap_right _
  · exact ho.agrees.write hr' (ho.name.trans (ho.names p hhead).symm)
  · rcases List.mem_append.1 (ho.perm.mem_iff.1 hx) with hx | hx
    · exact ho.header x (hi.listed x hx)
    · exact ho.listed x hx

theorem Inv.step (hi : Inv cfg major a c) (hs : step cfg major e room c = some c')
    (hover : c'.overrun = false) : Inv cfg major a c' := by
  unfold Generational.step at hs
  split at hs
  · cases hs
  split at hs
  next slot h rest hp =>
    split at hs
    next hr =>
      cases hs
      have hsh := hi.shape
      have hrem : remaining cfg c
          = slot :: (rest.map Prod.fst ++ (worklist cfg c).flatMap (slotsOf c.toStore)) := by
        simp [remaining, hp]
      rw [hrem] at hsh
      exact ⟨hsh.skip hr, hi.agrees, hi.listed, hi.scanned⟩
    next p hr =>
      split at hs
      next c₁ q hk =>
        cases hs
        exact hi.keep hp hr hk
      · cases hs
        cases hover
  next hp =>
    split at hs
    · split at hs
      · cases hs
      · cases hs
        exact hi.move rfl rfl rfl (.refl _) hi.scanned
    next h hs' hpass =>
      split at hs
      · split at hs
        next p hget =>
          cases hs
          obtain ⟨hlt, rfl⟩ := List.getElem?_eq_some_iff.1 hget
          refine hi.take hp h rfl rfl rfl ?_ fun h' => ?_
          · exact worklist_scan hlt rfl rfl rfl rfl
          · by_cases he : h' = h
            · subst he
              simp only [Function.update_self]
              exact hlt
            · simpa [he] using hi.scanned h'
        next hget =>
          split at hs <;> cases hs <;> exact hi.move rfl rfl rfl (.refl _) hi.scanned
      · split at hs
        next p ps hprev =>
          cases hs
          refine hi.take hp h rfl rfl rfl ?_ hi.scanned
          unfold worklist
          rw [hprev]
          exact .refl _
        next hprev =>
          split at hs
          · cases hs
            exact hi.move rfl rfl rfl (.refl _) hi.scanned
          · cases hs
            exact hi.move rfl rfl rfl (worklist_round hprev rfl rfl rfl rfl) hi.scanned

end Step

end Generational

end Yog
