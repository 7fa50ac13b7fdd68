import Yog.Copying

/-!
# A copying collection moves what is alive

A copying collection stays within the to-spaces, copies what is alive once, and replaces every
reference by the address of the copy, exactly as long as what has not been copied yet fits into the
to-space it is copied to, and the scan of that space is not over unless the object refers to nothing
(`copies_iff`). Neither is certain where heaps refer to each other: an object is not copied to its own
heap.
-/

namespace Yog

namespace Copying

variable {O H : Type} [Fintype O] [DecidableEq O] [DecidableEq H]

/-- There is a way from the VM. -/
def Alive (G : Spaces O H) : O → Prop := Reachable G.succ G.rootSet

/-- All references have been replaced by those to the copies. -/
def Updated (G : Spaces O H) (s : State O H) (x : Option O) : Prop :=
  (s.refs x).map some = (G.slots x).map s.forwardingAddr

/-- The copies lie in the to-spaces, no two of them overlap, what is alive has one, and the
references of the VM and of the copies of what is alive lead to copies. -/
structure Moved (G : Spaces O H) (s : State O H) : Prop where
  placed : ∀ o h a, s.forwardingAddr o = some (h, a) → LiesAt G.size (s.toSpace h) o a
  inside : ∀ o h a, s.forwardingAddr o = some (h, a) → a + G.size o ≤ G.spaceSize h
  apart : ∀ o o' h a a', s.forwardingAddr o = some (h, a) → s.forwardingAddr o' = some (h, a') →
    o ≠ o' → a + G.size o ≤ a' ∨ a' + G.size o' ≤ a
  once : ∀ o, Alive G o → ∃ h, (s.toSpace h).count o = 1 ∧ ∀ h', h' ≠ h → o ∉ s.toSpace h'
  roots : Updated G s none
  copies : ∀ o, Alive G o → Updated G s (some o)

/-- The collection ends, within the to-spaces, and has moved what is alive. -/
def Sound (G : Spaces O H) : Prop :=
  ∃ s, Comes (step G) (start G) s ∧ step G s = none ∧ s.overrun = false ∧ Moved G s

/-- What has not been copied yet fits into the to-space, and if it refers to something, the scan
of that space is not over. -/
def InOrder (G : Spaces O H) (s : State O H) : Prop :=
  ∀ o h rest, s.pending = (o, h) :: rest → s.forwardingAddr o = none →
    unscanned G s h + G.size o ≤ G.spaceSize h ∧ (G.children o = [] ∨ h ∈ s.passes)

variable {G : Spaces O H} {s s' : State O H} {o : O} {h : H}

/-- What a step does. -/
inductive Move (G : Spaces O H) (s : State O H) : State O H → Prop
  | forward {o h rest addr} (hp : s.pending = (o, h) :: rest) (hf : s.forwardingAddr o = some addr) :
      Move G s (replace s addr rest)
  | copy {o h rest} (hp : s.pending = (o, h) :: rest) (hf : s.forwardingAddr o = none)
      (hfit : unscanned G s h + G.size o ≤ G.spaceSize h) :
      Move G s (replace (copy G s o h) (h, unscanned G s h) rest)
  | overrun {o h rest} (hp : s.pending = (o, h) :: rest) (hf : s.forwardingAddr o = none)
      (hfit : ¬unscanned G s h + G.size o ≤ G.spaceSize h) :
      Move G s { s with pending := [], overrun := true }
  | scan {o h hs} (hp : s.pending = []) (hpass : s.passes = h :: hs)
      (ho : (s.toSpace h)[s.scanned h]? = some o) :
      Move G s { s with
        scanned := Function.update s.scanned h (s.scanned h + 1)
        owner := some o
        pending := (G.children o).map fun c => (c.1, c.2.getD h) }
  | passed {h hs} (hp : s.pending = []) (hpass : s.passes = h :: hs)
      (ho : (s.toSpace h)[s.scanned h]? = none) : Move G s { s with passes := hs }

theorem move_of_step (hs : step G s = some s') : s.overrun = false ∧ Move G s s' := by
  unfold step at hs
  split at hs
  · cases hs
  next hover =>
    refine ⟨by simpa using hover, ?_⟩
    split at hs
    next o h rest hp =>
      split at hs
      next addr hf =>
        cases hs
        exact .forward hp hf
      next hf =>
        split at hs
        next hfit =>
          cases hs
          exact .copy hp hf hfit
        next hfit =>
          cases hs
          exact .overrun hp hf hfit
    next hp =>
      split at hs
      · cases hs
      next h hs' hpass =>
        split at hs
        next o ho =>
          cases hs
          exact .scan hp hpass ho
        next ho =>
          cases hs
          exact .passed hp hpass ho

theorem ended (he : step G s = none) (hover : s.overrun = false) :
    s.pending = [] ∧ s.passes = [] := by
  unfold step at he
  rw [hover, if_neg (by simp)] at he
  split at he
  · split at he
    · cases he
    · split at he <;> cases he
  next hp =>
    refine ⟨hp, ?_⟩
    split at he
    · assumption
    · split at he <;> cases he

/-- What gets smaller: whether the end has been overrun, what has not been copied, the spaces to
scan, what is left of the first one, and the pending references. -/
def measure (s : State O H) : ℕ × ℕ × ℕ × ℕ × ℕ :=
  ((!s.overrun).toNat, (Finset.univ.filter fun o => s.forwardingAddr o = none).card,
    s.passes.length, (s.passes.head?.map fun h => (s.toSpace h).length - s.scanned h).getD 0,
    s.pending.length)

theorem measure_step (hs : step G s = some s') :
    WellFoundedRelation.rel (measure s') (measure s) := by
  obtain ⟨hover, hm⟩ := move_of_step hs
  rcases hm with ⟨hp, hf⟩ | ⟨hp, hf, hfit⟩ | ⟨hp, hf, hfit⟩ | ⟨hp, hpass, ho⟩ | ⟨hp, hpass, ho⟩
  · refine Prod.Lex.right _ (Prod.Lex.right _ (Prod.Lex.right _ (Prod.Lex.right _ ?_)))
    rw [hp]
    exact Nat.lt_succ_self _
  · refine Prod.Lex.right _ (Prod.Lex.left _ _ (card_filter_lt (Finset.mem_univ _)
      (fun o' _ ho' => ?_) hf (by simp [replace, copy])))
    by_contra hn
    have hne : o' ≠ _ := fun he => hn (he ▸ hf)
    simp [replace, copy, hne, hn] at ho'
  · refine Prod.Lex.left _ _ ?_
    rw [hover]
    exact Nat.zero_lt_one
  · refine Prod.Lex.right _ (Prod.Lex.right _ (Prod.Lex.right _ (Prod.Lex.left _ _ ?_)))
    obtain ⟨hlt, -⟩ := List.getElem?_eq_some_iff.1 ho
    change (_ : ℕ) < _
    simp [hpass]
    omega
  · refine Prod.Lex.right _ (Prod.Lex.right _ (Prod.Lex.left _ _ ?_))
    rw [hpass]
    exact Nat.lt_succ_self _

theorem exists_collected (G : Spaces O H) :
    ∃ s, Comes (step G) (start G) s ∧ step G s = none :=
  exists_final WellFoundedRelation.wf measure (fun _ _ => measure_step) _

/-- The copies that are still to be scanned. -/
def grey (s : State O H) : Set O := {o | ∃ h ∈ s.passes, o ∈ (s.toSpace h).drop (s.scanned h)}

/-- An object has one copy at most, at its forwarding address; what is pending or has been copied
is alive; and the copies lie in the to-spaces. -/
structure Base (G : Spaces O H) (s : State O H) : Prop where
  placed : ∀ o h a, s.forwardingAddr o = some (h, a) → LiesAt G.size (s.toSpace h) o a
  copied : ∀ h, ∀ o ∈ s.toSpace h, ∃ a, s.forwardingAddr o = some (h, a)
  nodup : ∀ h, (s.toSpace h).Nodup
  bounded : ∀ h, unscanned G s h ≤ G.spaceSize h
  scanned : ∀ h, s.scanned h ≤ (s.toSpace h).length
  alive : ∀ h, ∀ o ∈ s.toSpace h, Alive G o
  pending : ∀ p ∈ s.pending, Alive G p.1

omit [DecidableEq O] in
theorem base_start (G : Spaces O H) : Base G (start G) where
  placed _ _ _ ho := nomatch ho
  copied _ _ ho := nomatch ho
  nodup _ := List.nodup_nil
  bounded _ := Nat.zero_le _
  scanned _ := Nat.zero_le _
  alive _ _ ho := nomatch ho
  pending p hp := .root (List.mem_map.2 ⟨p, hp, rfl⟩)

omit [DecidableEq O] in
theorem Base.notMem (hb : Base G s) (hf : s.forwardingAddr o = none) (h : H) : o ∉ s.toSpace h := by
  intro ho
  obtain ⟨a, ha⟩ := hb.copied h o ho
  rw [hf] at ha
  cases ha

theorem mem_toSpace_copy {h' : H} {o' : O} :
    o' ∈ (copy G s o h).toSpace h' ↔ o' ∈ s.toSpace h' ∨ h' = h ∧ o' = o := by
  by_cases he : h' = h
  · subst he
    simp [copy]
  · simp [copy, he]

/-- One more object has been copied. -/
theorem Base.copy (hb : Base G s) (hf : s.forwardingAddr o = none) (ho : Alive G o)
    (hfit : unscanned G s h + G.size o ≤ G.spaceSize h) : Base G (copy G s o h) where
  placed o' h' a ha := by
    by_cases he : o' = o
    · subst he
      simp only [Copying.copy, Function.update_self, Option.some.injEq, Prod.mk.injEq] at ha ⊢
      obtain ⟨rfl, rfl⟩ := ha
      rw [Function.update_self]
      exact .last _ _ _
    · simp only [Copying.copy, Function.update_of_ne he] at ha ⊢
      by_cases hh : h' = h
      · subst hh
        rw [Function.update_self]
        exact (hb.placed o' h' a ha).append _
      · rw [Function.update_of_ne hh]
        exact hb.placed o' h' a ha
  copied h' o' ho' := by
    by_cases he : o' = o
    · subst he
      obtain ⟨rfl, -⟩ := (mem_toSpace_copy.1 ho').resolve_left (hb.notMem hf h')
      exact ⟨unscanned G s h', by simp [Copying.copy]⟩
    · simpa [Copying.copy, he] using hb.copied h' o' ((mem_toSpace_copy.1 ho').resolve_right
        fun hn => he hn.2)
  nodup h' := by
    by_cases hh : h' = h
    · subst hh
      simp only [Copying.copy, Function.update_self]
      exact List.nodup_append'.2 ⟨hb.nodup h', List.nodup_singleton o,
        List.disjoint_singleton.2 (hb.notMem hf h')⟩
    · simpa [Copying.copy, hh] using hb.nodup h'
  bounded h' := by
    by_cases hh : h' = h
    · subst hh
      simpa [Copying.copy, unscanned] using hfit
    · simpa [Copying.copy, unscanned, hh] using hb.bounded h'
  scanned h' := by
    by_cases hh : h' = h
    · subst hh
      simpa [Copying.copy] using (hb.scanned h').trans (Nat.le_succ _)
    · simpa [Copying.copy, hh] using hb.scanned h'
  alive h' o' ho' := by
    rcases mem_toSpace_copy.1 ho' with hm | ⟨-, rfl⟩
    · exact hb.alive h' o' hm
    · exact ho
  pending := hb.pending

theorem Base.step (hb : Base G s) (hm : Move G s s') : Base G s' := by
  rcases hm with ⟨hp, hf⟩ | ⟨hp, hf, hfit⟩ | ⟨hp, hf, hfit⟩ | ⟨hp, hpass, ho⟩ | ⟨hp, hpass, ho⟩
  · exact { hb with pending := fun p hpr => hb.pending p (hp ▸ List.mem_cons_of_mem _ hpr) }
  · have hb' := hb.copy hf (hb.pending _ (hp ▸ List.mem_cons_self)) hfit
    exact { hb' with pending := fun p hpr => hb.pending p (hp ▸ List.mem_cons_of_mem _ hpr) }
  · exact { hb with pending := fun p hpr => nomatch hpr }
  · rename_i o h hs
    obtain ⟨hlt, rfl⟩ := List.getElem?_eq_some_iff.1 ho
    refine { hb with scanned := fun h' => ?_, pending := fun p hpr => ?_ }
    · by_cases hh : h' = h
      · subst hh
        simp only [Function.update_self]
        exact hlt
      · simpa [hh] using hb.scanned h'
    · obtain ⟨c, hc, rfl⟩ := List.mem_map.1 hpr
      exact (hb.alive h _ (List.getElem_mem hlt)).step (List.mem_map.2 ⟨c, hc, rfl⟩)
  · exact { hb with }

theorem mem_grey_copy (hb : Base G s) {o' : O} :
    o' ∈ grey (copy G s o h) ↔ o' ∈ grey s ∨ h ∈ s.passes ∧ o' = o := by
  have hdrop : ∀ h', o' ∈ ((copy G s o h).toSpace h').drop (s.scanned h')
      ↔ o' ∈ (s.toSpace h').drop (s.scanned h') ∨ h' = h ∧ o' = o := by
    intro h'
    by_cases hh : h' = h
    · subst hh
      simp [copy, List.drop_append_of_le_length (hb.scanned h')]
    · simp [copy, hh]
  constructor
  · rintro ⟨h', hh', ho⟩
    rcases (hdrop h').1 ho with ho | ⟨rfl, he⟩
    · exact .inl ⟨h', hh', ho⟩
    · exact .inr ⟨hh', he⟩
  · rintro (⟨h', hh', ho⟩ | ⟨hh, he⟩)
    · exact ⟨h', hh', (hdrop h').2 (.inl ho)⟩
    · exact ⟨h, hh, (hdrop h).2 (.inr ⟨rfl, he⟩)⟩

omit [DecidableEq O] in
/-- What is scanned next is not to be scanned once more. -/
theorem grey_scan (hb : Base G s) {hs : List H} (hpass : s.passes = h :: hs)
    (ho : (s.toSpace h)[s.scanned h]? = some o) :
    grey s = insert o (grey { s with scanned := Function.update s.scanned h (s.scanned h + 1) })
      ∧ o ∉ grey { s with scanned := Function.update s.scanned h (s.scanned h + 1) } := by
  obtain ⟨hlt, rfl⟩ := List.getElem?_eq_some_iff.1 ho
  have hdrop := List.drop_eq_getElem_cons hlt
  refine ⟨?_, ?_⟩
  · ext o'
    constructor
    · rintro ⟨h', hh', ho'⟩
      by_cases hh : h' = h
      · subst hh
        rw [hdrop] at ho'
        rcases List.mem_cons.1 ho' with he | ho'
        · exact .inl he
        · exact .inr ⟨h', hh', by simpa using ho'⟩
      · exact .inr ⟨h', hh', by simpa [hh] using ho'⟩
    · rintro (he | ⟨h', hh', ho'⟩)
      · exact ⟨h, by simp [hpass], by rw [hdrop, he]; exact List.mem_cons_self⟩
      · by_cases hh : h' = h
        · subst hh
          refine ⟨h', hh', ?_⟩
          rw [hdrop]
          exact List.mem_cons_of_mem _ (by simpa using ho')
        · exact ⟨h', hh', by simpa [hh] using ho'⟩
  · rintro ⟨h', hh', ho'⟩
    by_cases hh : h' = h
    · subst hh
      have hnd := (hb.nodup h').sublist (List.drop_sublist (s.scanned h') _)
      rw [hdrop] at hnd
      exact (List.nodup_cons.1 hnd).1 (by simpa using ho')
    · obtain ⟨a, ha⟩ := hb.copied h _ (List.getElem_mem hlt)
      obtain ⟨b, hb⟩ := hb.copied h' _ (List.mem_of_mem_drop ho')
      rw [ha] at hb
      simp [Ne.symm hh] at hb

omit [Fintype O] [DecidableEq O] [DecidableEq H] in
theorem grey_over {hs : List H} (hpass : s.passes = h :: hs)
    (ho : (s.toSpace h)[s.scanned h]? = none) : grey { s with passes := hs } = grey s := by
  ext o
  simp [grey, hpass, List.drop_eq_nil_of_le (List.getElem?_eq_none_iff.1 ho)]

/-- Nothing has been copied too late: the references of what has been copied, is not to be scanned
and not the owner of the pending ones have been replaced. -/
structure Kept (G : Spaces O H) (s : State O H) : Prop where
  base : Base G s
  overrun : s.overrun = false
  owner : ∀ o, s.owner = some o → s.forwardingAddr o ≠ none ∧ o ∉ grey s
  current : ∃ done, G.slots s.owner = done ++ s.pending.map Prod.fst
    ∧ (s.refs s.owner).map some = done.map s.forwardingAddr
  fresh : ∀ o, s.forwardingAddr o = none ∨ o ∈ grey s → s.refs (some o) = []
  others : ∀ x, x ≠ s.owner → Updated G s x
    ∨ ∃ o, x = some o ∧ (s.forwardingAddr o = none ∨ o ∈ grey s)

/-- The end of a to-space has been overrun, or a copy that refers to something is not scanned. -/
def Lost (G : Spaces O H) (s : State O H) : Prop :=
  s.overrun = true ∨ ∃ o, Alive G o ∧ s.forwardingAddr o ≠ none ∧ o ∉ grey s ∧ s.owner ≠ some o
    ∧ s.refs (some o) = [] ∧ G.children o ≠ []

omit [DecidableEq O] in
theorem kept_start (G : Spaces O H) : Kept G (start G) where
  base := base_start G
  overrun := rfl
  owner _ ho := nomatch ho
  current := ⟨[], rfl, rfl⟩
  fresh _ _ := rfl
  others x hx := by
    obtain ⟨o, rfl⟩ := Option.ne_none_iff_exists'.1 hx
    exact .inr ⟨o, rfl, .inl rfl⟩

/-- References that have been replaced stay so when one more object is copied. -/
theorem map_update {α β : Type*} [DecidableEq α] {f : α → Option β} {x : α} {l : List α} {m : List β}
    (h : m.map some = l.map f) (hx : f x = none) (y : β) :
    m.map some = l.map (Function.update f x (some y)) := by
  rw [h]
  refine List.map_congr_left fun z hz => ?_
  have hne : z ≠ x := by
    rintro rfl
    have := List.mem_map_of_mem (f := f) hz
    rw [← h, hx] at this
    simp at this
  rw [Function.update_of_ne hne]

theorem Kept.forward (hk : Kept G s) {rest : List (O × H)} {addr : H × ℕ}
    (hp : s.pending = (o, h) :: rest) (hf : s.forwardingAddr o = some addr)
    (hb : Base G (replace s addr rest)) : Kept G (replace s addr rest) where
  base := hb
  overrun := hk.overrun
  owner := hk.owner
  current := by
    obtain ⟨done, hslots, hrefs⟩ := hk.current
    refine ⟨done ++ [o], by simp [replace, hslots, hp], ?_⟩
    simp [replace, hrefs, hf]
  fresh o' ho' := by
    have hne : s.owner ≠ some o' := by
      intro he
      obtain ⟨hn, hg⟩ := hk.owner o' he
      exact ho'.elim hn hg
    simpa [replace, hne.symm] using hk.fresh o' ho'
  others x hx := by
    refine (hk.others x hx).imp_left fun hu => ?_
    have hrefs : (replace s addr rest).refs x = s.refs x := Function.update_of_ne hx _ _
    unfold Updated
    rw [hrefs]
    exact hu

theorem Kept.copy (hk : Kept G s) {rest : List (O × H)} (hp : s.pending = (o, h) :: rest)
    (hf : s.forwardingAddr o = none) (hin : G.children o = [] ∨ h ∈ s.passes)
    (hb : Base G (replace (copy G s o h) (h, unscanned G s h) rest)) :
    Kept G (replace (copy G s o h) (h, unscanned G s h) rest) := by
  have hne : s.owner ≠ some o := fun he => (hk.owner o he).1 hf
  have hgrey : ∀ o', o' ∈ grey (replace (Copying.copy G s o h) (h, unscanned G s h) rest)
      ↔ o' ∈ grey s ∨ h ∈ s.passes ∧ o' = o := fun o' => mem_grey_copy hk.base
  refine ⟨hb, hk.overrun, fun o' he => ?_, ?_, fun o' ho' => ?_, fun x hx => ?_⟩
  · have hne' : o' ≠ o := by
      rintro rfl
      exact hne he
    obtain ⟨hn, hg⟩ := hk.owner o' he
    refine ⟨by simpa [replace, Copying.copy, hne'] using hn, fun hg' => ?_⟩
    rcases (hgrey o').1 hg' with hg' | ⟨-, he'⟩
    · exact hg hg'
    · exact hne' he'
  · obtain ⟨done, hslots, hrefs⟩ := hk.current
    refine ⟨done ++ [o], by simp [replace, Copying.copy, hslots, hp], ?_⟩
    simp only [replace, Copying.copy, Function.update_self, List.map_append, List.map_cons,
      List.map_nil]
    rw [← map_update hrefs hf]
  · have hne' : s.owner ≠ some o' := by
      intro he
      obtain ⟨hn, hg⟩ := hk.owner o' he
      rcases ho' with hn' | hg'
      · by_cases he' : o' = o
        · exact hne (he' ▸ he)
        · exact hn (by simpa [replace, Copying.copy, he'] using hn')
      · rcases (hgrey o').1 hg' with hg' | ⟨-, rfl⟩
        · exact hg hg'
        · exact hne he
    have hfresh : s.refs (some o') = [] := by
      rcases ho' with hn' | hg'
      · by_cases he' : o' = o
        · exact hk.fresh o' (.inl (he' ▸ hf))
        · exact hk.fresh o' (.inl (by simpa [replace, Copying.copy, he'] using hn'))
      · rcases (hgrey o').1 hg' with hg' | ⟨-, rfl⟩
        · exact hk.fresh o' (.inr hg')
        · exact hk.fresh o' (.inl hf)
    simpa [replace, Copying.copy, hne'.symm] using hfresh
  · have hrefs : (replace (Copying.copy G s o h) (h, unscanned G s h) rest).refs x = s.refs x :=
      Function.update_of_ne hx _ _
    rcases hk.others x hx with hu | ⟨o', rfl, hn | hg⟩
    · refine .inl ?_
      unfold Updated
      rw [hrefs]
      exact map_update hu hf _
    · by_cases he : o' = o
      · subst he
        rcases hin with hc | hh
        · refine .inl ?_
          simp [Updated, hrefs, hk.fresh o' (.inl hf), Spaces.slots, hc]
        · exact .inr ⟨o', rfl, .inr ((hgrey o').2 (.inr ⟨hh, rfl⟩))⟩
      · exact .inr ⟨o', rfl, .inl (by simpa [replace, Copying.copy, he] using hn)⟩
    · exact .inr ⟨o', rfl, .inr ((hgrey o').2 (.inl hg))⟩

omit [DecidableEq O] in
theorem Kept.updated_owner (hk : Kept G s) (hp : s.pending = []) : Updated G s s.owner := by
  obtain ⟨done, hslots, hrefs⟩ := hk.current
  rw [hp, List.map_nil, List.append_nil] at hslots
  unfold Updated
  rw [hslots, hrefs]

theorem Kept.step (hk : Kept G s) (hin : InOrder G s) (hm : Move G s s') : Kept G s' := by
  have hb := hk.base.step hm
  rcases hm with ⟨hp, hf⟩ | ⟨hp, hf, hfit⟩ | ⟨hp, hf, hfit⟩ | ⟨hp, hpass, ho⟩ | ⟨hp, hpass, ho⟩
  · exact hk.forward hp hf hb
  · exact hk.copy hp hf (hin _ _ _ hp hf).2 hb
  · exact absurd (hin _ _ _ hp hf).1 hfit
  · rename_i o h hs
    obtain ⟨hg, ho'⟩ := grey_scan hk.base hpass ho
    obtain ⟨hlt, hget⟩ := List.getElem?_eq_some_iff.1 ho
    obtain ⟨a, ha⟩ := hk.base.copied h o (hget ▸ List.getElem_mem hlt)
    have hgo : o ∈ grey s := hg ▸ Set.mem_insert _ _
    refine ⟨hb, hk.overrun, ?_, ⟨[], ?_, ?_⟩, fun o' hf => ?_, fun x hx => ?_⟩
    · intro o' he
      obtain rfl := Option.some.inj he
      exact ⟨by simp [ha], ho'⟩
    · simp [Spaces.slots]
    · simp [hk.fresh o (.inr hgo)]
    · refine hk.fresh o' (hf.imp_right fun hg' => ?_)
      rw [hg]
      exact .inr hg'
    · by_cases hxo : x = s.owner
      · exact .inl (hxo ▸ hk.updated_owner hp)
      · refine (hk.others x hxo).imp_right ?_
        rintro ⟨o', rfl, hf⟩
        refine ⟨o', rfl, hf.imp_right fun hg' => ?_⟩
        rw [hg] at hg'
        exact hg'.resolve_left fun he => hx (he ▸ rfl)
  · have hg := grey_over hpass ho
    refine ⟨hb, hk.overrun, ?_, hk.current, ?_, ?_⟩
    · exact fun o' he => ⟨(hk.owner o' he).1, hg ▸ (hk.owner o' he).2⟩
    · rw [hg]
      exact hk.fresh
    · rw [hg]
      exact hk.others

theorem Kept.lost (hk : Kept G s) (hin : ¬InOrder G s) (hm : Move G s s') : Lost G s' := by
  simp only [InOrder, not_forall] at hin
  obtain ⟨o, h, rest, hp, hf, hin⟩ := hin
  rcases hm with ⟨hp', hf'⟩ | ⟨hp', hf', hfit⟩ | ⟨hp', hf', hfit⟩ | ⟨hp', -⟩ | ⟨hp', -⟩
  · rw [hp] at hp'
    cases hp'
    simp [hf] at hf'
  · rw [hp] at hp'
    cases hp'
    rw [not_and_or, not_or] at hin
    obtain ⟨hc, hh⟩ := hin.resolve_left (not_not.2 hfit)
    have hne : s.owner ≠ some o := fun he => (hk.owner o he).1 hf
    refine .inr ⟨o, hk.base.pending _ (hp ▸ List.mem_cons_self), ?_, fun hg => ?_, hne, ?_, hc⟩
    · simp [replace, Copying.copy]
    · rcases (mem_grey_copy hk.base).1 hg with ⟨h', -, ho⟩ | ⟨hh', -⟩
      · exact hk.base.notMem hf h' (List.mem_of_mem_drop ho)
      · exact hh hh'
    · simpa [replace, Copying.copy, hne.symm] using hk.fresh o (.inl hf)
  · exact .inl rfl
  · simp [hp] at hp'
  · simp [hp] at hp'

theorem Lost.step (hb : Base G s) (hl : Lost G s) (hover : s.overrun = false) (hm : Move G s s') :
    Lost G s' := by
  rcases hl with h | ⟨x, hx, hf, hg, hne, hr, hc⟩
  · simp [hover] at h
  · rcases hm with ⟨hp, hf'⟩ | ⟨hp, hf', hfit⟩ | - | ⟨hp, hpass, ho⟩ | ⟨hp, hpass, ho⟩
    · refine .inr ⟨x, hx, hf, hg, hne, ?_, hc⟩
      simpa [replace, hne.symm] using hr
    · have hxo : x ≠ _ := fun he => hf (he ▸ hf')
      refine .inr ⟨x, hx, ?_, fun hg' => ?_, hne, ?_, hc⟩
      · simpa [replace, copy, hxo] using hf
      · rcases (mem_grey_copy hb).1 hg' with hg' | ⟨-, he⟩
        · exact hg hg'
        · exact hxo he
      · simpa [replace, copy, hne.symm] using hr
    · exact .inl rfl
    · have hg' := (grey_scan hb hpass ho).1
      rw [hg', Set.mem_insert_iff, not_or] at hg
      refine .inr ⟨x, hx, hf, hg.2, fun he => hg.1 (Option.some.inj he).symm, hr, hc⟩
    · refine .inr ⟨x, hx, hf, ?_, hne, hr, hc⟩
      rw [grey_over hpass ho]
      exact hg

theorem Kept.moved (hk : Kept G s) (he : Copying.step G s = none) : Moved G s := by
  obtain ⟨hp, hpass⟩ := ended he hk.overrun
  have hg : ∀ o, o ∉ grey s := by
    rintro o ⟨h, hh, -⟩
    simp [hpass] at hh
  have hupdated : ∀ x, (∀ o, x = some o → s.forwardingAddr o ≠ none) → Updated G s x := by
    intro x hx
    by_cases hxo : x = s.owner
    · exact hxo ▸ hk.updated_owner hp
    · refine (hk.others x hxo).resolve_right ?_
      rintro ⟨o, he, hf⟩
      exact hf.elim (hx o he) (hg o)
  have hcopied : ∀ x, Updated G s x → ∀ o ∈ G.slots x, s.forwardingAddr o ≠ none := by
    intro x hx o ho hn
    have hm := List.mem_map_of_mem (f := s.forwardingAddr) ho
    rw [← hx, hn] at hm
    simp at hm
  have hroots : Updated G s none := hupdated none fun o he => nomatch he
  have ht : Tricolour G.succ G.rootSet {o | s.forwardingAddr o ≠ none} ∅ ∅ := by
    refine ⟨fun o ho => .inl (hcopied none hroots o ho), fun o ho => .inr fun o' ho' => .inl ?_⟩
    refine hcopied (some o) (hupdated (some o) fun o'' he'' => ?_) o' ho'
    exact Option.some.inj he'' ▸ ho
  have halive : ∀ o, Alive G o → s.forwardingAddr o ≠ none := fun o => ht.visited_of_reachable
  have hb := hk.base
  constructor
  · exact hb.placed
  · exact fun o h a ha => (hb.placed o h a ha).inside.trans (hb.bounded h)
  · exact fun o o' h a a' ha ha' hne => (hb.placed o h a ha).apart (hb.placed o' h a' ha') hne
  · intro o ho
    obtain ⟨⟨h, a⟩, ha⟩ := Option.ne_none_iff_exists'.1 (halive o ho)
    refine ⟨h, List.count_eq_one_of_mem (hb.nodup h) (hb.placed o h a ha).mem, ?_⟩
    intro h' hh' hmem
    obtain ⟨b, hb'⟩ := hb.copied h' o hmem
    rw [ha] at hb'
    simp [hh'.symm] at hb'
  · exact hroots
  · exact fun o ho => hupdated (some o) fun o' he => Option.some.inj he ▸ halive o ho

theorem Lost.not_moved (hl : Lost G s) (hover : s.overrun = false) : ¬Moved G s := by
  rcases hl with h | ⟨o, ho, -, -, -, hr, hc⟩
  · simp [hover] at h
  · intro hm
    have hu := hm.copies o ho
    simp [Updated, hr, Spaces.slots, hc] at hu

theorem Kept.inOrder (hk : Kept G s) (he : Copying.step G s = none) : InOrder G s := by
  intro o h rest hp _
  simp [(ended he hk.overrun).1] at hp

/-- All steps of a collection are in order and it moves what is alive, or it does neither. -/
theorem moved_or_lost (G : Spaces O H) :
    ∃ t, Comes (step G) (start G) t ∧ step G t = none ∧
      ((∀ u, Comes (step G) (start G) u → InOrder G u) ∧ t.overrun = false ∧ Moved G t ∨
        (∃ u, Comes (step G) (start G) u ∧ ¬InOrder G u) ∧ (t.overrun = false → ¬Moved G t)) := by
  obtain ⟨t, hcomes, he⟩ := exists_collected G
  refine ⟨t, hcomes, he, ?_⟩
  have hlost : ∀ s s', Base G s ∧ Lost G s → Copying.step G s = some s' → Base G s' ∧ Lost G s' := by
    rintro s s' ⟨hb, hl⟩ hs
    obtain ⟨hover, hm⟩ := move_of_step hs
    exact ⟨hb.step hm, hl.step hb hover hm⟩
  have hbreak : ∀ s s', Kept G s → ¬InOrder G s → Copying.step G s = some s' →
      Base G s' ∧ Lost G s' := by
    intro s s' hk hin hs
    have hm := (move_of_step hs).2
    exact ⟨hk.base.step hm, hk.lost hin hm⟩
  rcases kept_or_lost (fun s => Kept.inOrder)
    (fun s s' hk hin hs => hk.step hin (move_of_step hs).2) hbreak hlost hcomes (kept_start G) he
    with ⟨hall, hk⟩ | ⟨hbroken, -, hl⟩
  · exact .inl ⟨hall, hk.overrun, hk.moved he⟩
  · exact .inr ⟨hbroken, hl.not_moved⟩

theorem sound_of_inOrder (hin : ∀ u, Comes (step G) (start G) u → InOrder G u) : Sound G := by
  obtain ⟨t, hcomes, he, ⟨-, hover, hm⟩ | ⟨⟨u, hu, hn⟩, -⟩⟩ := moved_or_lost G
  · exact ⟨t, hcomes, he, hover, hm⟩
  · exact absurd (hin u hu) hn

theorem not_sound_of_not_inOrder (hs : Comes (step G) (start G) s) (hn : ¬InOrder G s) :
    ¬Sound G := by
  obtain ⟨t, hcomes, he, ⟨hall, -⟩ | ⟨-, hl⟩⟩ := moved_or_lost G
  · exact absurd (hall s hs) hn
  · rintro ⟨t', hcomes', he', hover, hm⟩
    obtain rfl := hcomes'.final_unique hcomes he' he
    exact hl hover hm

/-- A collection moves what is alive within the to-spaces if and only if whatever is copied fits
into the to-space it is copied to, and the scan of that space is not over unless it refers to
nothing. -/
theorem copies_iff (G : Spaces O H) : Sound G ↔ ∀ s, Comes (step G) (start G) s → InOrder G s := by
  refine ⟨fun hsound s hs => ?_, sound_of_inOrder⟩
  by_contra hn
  exact not_sound_of_not_inOrder hs hn hsound

/-- The heaps of the main thread and of another one, of a megabyte each. The other thread refers
to what it has made, and to what the main thread has made; each takes up more than half of a
space. -/
def shared : Spaces (Fin 2) (Fin 2) where
  mainHeap := 0
  otherHeaps := [1]
  nodup := by decide
  roots := [(0, 1), (1, 1)]
  children _ := []
  heapSize _ := 1024 * 1024
  payload _ := 300000
  heapOf o := o
  capacity := by decide

/-- Both are copied to the space of the other thread. -/
theorem not_sound_shared : ¬Sound shared := by
  have hfull : ∃ s, Comes (step shared) (start shared) s ∧ ¬InOrder shared s := by
    refine ⟨_, .head rfl (.refl _), fun h => ?_⟩
    have := h 1 1 [] rfl rfl
    revert this
    decide
  obtain ⟨s, hs, hn⟩ := hfull
  exact not_sound_of_not_inOrder hs hn

end Copying

end Yog
