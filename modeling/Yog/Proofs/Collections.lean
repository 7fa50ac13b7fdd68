import Yog.Marking
import Mathlib.Tactic.Ring

/-!
# A collection releases what cannot be reached

A collection of the mark-sweep-compact heaps, of whatever objects without children there may be,
keeps what the roots lead to exactly as long as no object is put on the list of a heap whose pass is
over (`sound_iff`). Such an object is marked, but nothing keeps its children.
-/

namespace Yog

namespace Marking

variable {O H L : Type} [DecidableEq O] [DecidableEq H]

/-- What is reached keeps its contents, and what is released is not reached. -/
structure Keeps (G : Graph O H) [DecidableEq L] (V : Leaves O H L) (s : State O H) : Prop where
  reached : ∀ (C : Type) (memory : O ⊕ L → C) r, Reaches G V r → sweep G V s memory r = some (memory r)
  released : ∀ (C : Type) (memory : O ⊕ L → C) r, sweep G V s memory r = none → ¬Reaches G V r

/-- The collection ends, and keeps what is reached. -/
def Sound (G : Graph O H) [DecidableEq L] (V : Leaves O H L) : Prop :=
  ∃ s, Comes (step G) (start G) s ∧ step G s = none ∧ Keeps G V s

/-- An object that is not marked yet is not kept for a heap whose pass is over. -/
def InTime (s : State O H) : Prop :=
  ∀ o h rest, s.pending = (o, h) :: rest → s.marked o = true ∨ h ∈ s.passes

variable {G : Graph O H} {s s' : State O H} {o : O} {h : H}

section Ends

variable [Fintype O]

/-- What gets smaller: the unmarked objects, the passes, the list of the pass, what it has taken
off, and the pending children. -/
def measure (s : State O H) : ℕ × ℕ × ℕ × ℕ × ℕ :=
  ((Finset.univ.filter fun o => s.marked o = false).card, s.passes.length,
    (s.passes.head?.map fun h => (s.cur h).length).getD 0, s.prev.length, s.pending.length)

theorem card_unmarked_mark (ho : s.marked o = false) :
    (Finset.univ.filter fun o' => (mark s o h).marked o' = false).card
      < (Finset.univ.filter fun o' => s.marked o' = false).card := by
  refine card_filter_lt (Finset.mem_univ o) (fun o' _ ho' => ?_) ho (by simp [mark, ho])
  by_cases he : o' = o
  · rw [he, ho]
  · simpa [mark, ho, he] using ho'

theorem measure_step (hs : step G s = some s') :
    WellFoundedRelation.rel (measure s') (measure s) := by
  unfold step at hs
  split at hs
  next o h rest hp =>
    cases hs
    rcases ho : s.marked o with _ | _
    · exact Prod.Lex.left _ _ (card_unmarked_mark ho)
    · have hm : mark s o h = s := by simp [mark, ho]
      rw [hm]
      refine Prod.Lex.right _ (Prod.Lex.right _ (Prod.Lex.right _ (Prod.Lex.right _ ?_)))
      rw [hp]
      exact Nat.lt_succ_self _
  next hp =>
    split at hs
    · cases hs
    next h hs' hpass =>
      split at hs
      next o os hprev =>
        cases hs
        refine Prod.Lex.right _ (Prod.Lex.right _ (Prod.Lex.right _ (Prod.Lex.left _ _ ?_)))
        rw [hprev]
        exact Nat.lt_succ_self _
      next hprev =>
        split at hs
        · cases hs
          refine Prod.Lex.right _ (Prod.Lex.left _ _ ?_)
          rw [hpass]
          exact Nat.lt_succ_self _
        next hcur =>
          cases hs
          refine Prod.Lex.right _ (Prod.Lex.right _ (Prod.Lex.left _ _ ?_))
          change (_ : ℕ) < _
          rw [hpass]
          simpa [List.length_pos_iff] using hcur

theorem exists_collected (G : Graph O H) :
    ∃ s, Comes (step G) (start G) s ∧ step G s = none :=
  exists_final WellFoundedRelation.wf measure (fun _ _ => measure_step) _

end Ends

/-- The objects on a list whose pass is not over, and those taken off. -/
def grey (s : State O H) : Set O := {o | o ∈ s.prev ∨ ∃ h ∈ s.passes, o ∈ s.cur h}

/-- Lists hold marked objects, and what is pending or marked is reached. -/
structure Base (G : Graph O H) (s : State O H) : Prop where
  prev : ∀ o ∈ s.prev, s.marked o = true
  cur : ∀ h, ∀ o ∈ s.cur h, s.marked o = true
  traversed : ∀ o ∈ s.traversed, s.marked o = true
  pending : ∀ p ∈ s.pending, Reachable G.succ G.rootSet p.1
  marked : ∀ o, s.marked o = true → Reachable G.succ G.rootSet o
  finished : s.passes = [] → s.prev = []

theorem marked_mark (o' : O) : (mark s o h).marked o' = true ↔ s.marked o' = true ∨ o' = o := by
  unfold mark
  split
  next ho => exact ⟨.inl, fun hm => hm.elim id fun he => he ▸ ho⟩
  · by_cases he : o' = o <;> simp [he]

theorem mem_cur_mark {h' : H} {o' : O} :
    o' ∈ (mark s o h).cur h' ↔ o' ∈ s.cur h' ∨ s.marked o = false ∧ h' = h ∧ o' = o := by
  unfold mark
  rcases ho : s.marked o with _ | _
  · by_cases he : h' = h
    · subst he
      simp
    · simp [he]
  · simp

theorem mark_fields : (mark s o h).prev = s.prev ∧ (mark s o h).passes = s.passes
    ∧ (mark s o h).traversed = s.traversed := by
  unfold mark
  split <;> exact ⟨rfl, rfl, rfl⟩

omit [DecidableEq O] [DecidableEq H] in
theorem base_start (G : Graph O H) : Base G (start G) where
  prev _ ho := nomatch ho
  cur _ _ ho := nomatch ho
  traversed _ ho := nomatch ho
  pending p hp := .root (List.mem_map.2 ⟨p, hp, rfl⟩)
  marked _ ho := nomatch ho
  finished _ := rfl

theorem Base.step (hb : Base G s) (hs : step G s = some s') : Base G s' := by
  unfold Marking.step at hs
  split at hs
  next o h rest hp =>
    cases hs
    obtain ⟨hprev, hpasses, htrav⟩ := mark_fields (s := s) (o := o) (h := h)
    constructor
    · rw [hprev]
      exact fun o' ho' => (marked_mark o').2 (.inl (hb.prev o' ho'))
    · intro h' o' ho'
      refine (marked_mark o').2 ((mem_cur_mark.1 ho').imp (hb.cur h' o') fun he => he.2.2)
    · rw [htrav]
      exact fun o' ho' => (marked_mark o').2 (.inl (hb.traversed o' ho'))
    · exact fun p hpr => hb.pending p (hp ▸ List.mem_cons_of_mem _ hpr)
    · intro o' ho'
      rcases (marked_mark o').1 ho' with hm | rfl
      · exact hb.marked o' hm
      · exact hb.pending (o', h) (hp ▸ List.mem_cons_self)
    · rw [hprev, hpasses]
      exact hb.finished
  next hp =>
    split at hs
    · cases hs
    next h hs' hpass =>
      split at hs
      next o os hprev =>
        cases hs
        have ho : s.marked o = true := hb.prev o (hprev ▸ List.mem_cons_self)
        refine ⟨fun o' ho' => hb.prev o' (hprev ▸ List.mem_cons_of_mem _ ho'), hb.cur, ?_, ?_,
          hb.marked, fun he => ?_⟩
        · exact List.forall_mem_cons.2 ⟨ho, hb.traversed⟩
        · rintro p hpr
          obtain ⟨c, hc, rfl⟩ := List.mem_map.1 hpr
          exact (hb.marked o ho).step (List.mem_map.2 ⟨c, hc, rfl⟩)
        · simp [hpass] at he
      next hprev =>
        split at hs
        · cases hs
          exact ⟨hb.prev, hb.cur, hb.traversed, hb.pending, hb.marked, fun _ => hprev⟩
        · cases hs
          refine ⟨hb.cur h, fun h' o' ho' => ?_, hb.traversed, hb.pending, hb.marked, fun he => ?_⟩
          · by_cases he : h' = h
            · subst he
              simp at ho'
            · simp only [Function.update_of_ne he] at ho'
              exact hb.cur h' o' ho'
          · simp [hpass] at he

/-- A step keeps a child, or takes an object off the list, or goes on to another list. -/
theorem step_cases (hs : step G s = some s') :
    (∃ o h rest, s.pending = (o, h) :: rest ∧ s' = { mark s o h with pending := rest }) ∨
    (∃ o, s.pending = [] ∧ o ∈ s.prev ∧ grey s = insert o (grey s') ∧ s'.marked = s.marked
      ∧ s'.traversed = o :: s.traversed ∧ s'.pending.map Prod.fst = (G.children o).map Prod.fst) ∨
    (s.pending = [] ∧ grey s' = grey s ∧ s'.marked = s.marked ∧ s'.traversed = s.traversed
      ∧ s'.pending = []) := by
  unfold step at hs
  split at hs
  next o h rest hp =>
    cases hs
    exact .inl ⟨o, h, rest, hp, rfl⟩
  next hp =>
    split at hs
    · cases hs
    next h hs' hpass =>
      split at hs
      next o os hprev =>
        cases hs
        refine .inr (.inl ⟨o, hp, by simp [hprev], ?_, rfl, rfl, by simp⟩)
        ext o'
        simp [grey, hprev, or_assoc]
      next hprev =>
        split at hs
        next hcur =>
          cases hs
          refine .inr (.inr ⟨hp, ?_, rfl, rfl, hp⟩)
          ext o'
          simp [grey, hpass, List.isEmpty_iff.1 hcur]
        next hcur =>
          cases hs
          refine .inr (.inr ⟨hp, ?_, rfl, rfl, hp⟩)
          ext o'
          constructor
          · rintro (ho | ⟨h', hh', ho⟩)
            · exact .inr ⟨h, by simp [hpass], ho⟩
            · by_cases he : h' = h
              · simp [he] at ho
              · exact .inr ⟨h', hh', by simpa [he] using ho⟩
          · rintro (ho | ⟨h', hh', ho⟩)
            · simp [hprev] at ho
            · by_cases he : h' = h
              · exact .inl (he ▸ ho)
              · exact .inr ⟨h', hh', by simpa [he] using ho⟩

/-- Nothing has been put on a list too late. -/
structure Kept (G : Graph O H) (s : State O H) : Prop where
  base : Base G s
  tricolour : Tricolour G.succ G.rootSet {o | s.marked o = true} (grey s)
    {o | o ∈ s.pending.map Prod.fst}
  traversed : ∀ o, s.marked o = true → o ∈ grey s ∨ o ∈ s.traversed

/-- An object is marked, and on no list that is still to be gone through. -/
structure Lost (G : Graph O H) (s : State O H) : Prop where
  base : Base G s
  lost : ∃ o, s.marked o = true ∧ o ∉ grey s ∧ o ∉ s.traversed

omit [DecidableEq O] [DecidableEq H] in
theorem kept_start (G : Graph O H) : Kept G (start G) where
  base := base_start G
  tricolour := by
    have h := Tricolour.start G.succ G.rootSet
    have hv : {o | (start G).marked o = true} = ∅ := by simp [start]
    rw [hv]
    exact h.mono fun _ hn => absurd hn (Set.notMem_empty _)
  traversed _ ho := nomatch ho

theorem grey_mark (hh : h ∈ s.passes) (ho : s.marked o = false) :
    grey (mark s o h) = insert o (grey s) := by
  obtain ⟨hprev, hpasses, -⟩ := mark_fields (s := s) (o := o) (h := h)
  ext o'
  constructor
  · rintro (hp | ⟨h', hh', hc⟩)
    · exact .inr (.inl (hprev ▸ hp))
    · rcases mem_cur_mark.1 hc with hc | ⟨-, -, rfl⟩
      · exact .inr (.inr ⟨h', hpasses ▸ hh', hc⟩)
      · exact .inl rfl
  · rintro (rfl | hp | ⟨h', hh', hc⟩)
    · exact .inr ⟨h, hpasses ▸ hh, mem_cur_mark.2 (.inr ⟨ho, rfl, rfl⟩)⟩
    · exact .inl (hprev ▸ hp)
    · exact .inr ⟨h', hpasses ▸ hh', mem_cur_mark.2 (.inl hc)⟩

theorem Kept.step (hk : Kept G s) (hin : InTime s) (hs : step G s = some s') : Kept G s' := by
  refine ⟨hk.base.step hs, ?_, ?_⟩
  · have ht := hk.tricolour
    obtain ⟨o, h, rest, hp, rfl⟩ | ⟨o, hp, -, hg, hm, htr, hp'⟩ | ⟨hp, hg, hm, -, hp'⟩ :=
      step_cases hs
    · have hins : {x | x ∈ s.pending.map Prod.fst} = insert o {x | x ∈ rest.map Prod.fst} := by
        ext x
        simp [hp]
      rw [hins] at ht
      rcases ho : s.marked o with _ | _
      · have hh : h ∈ s.passes := (hin o h rest hp).resolve_left (by simp [ho])
        have hv : {x | (mark s o h).marked x = true} = insert o {x | s.marked x = true} := by
          ext x
          simp [marked_mark, or_comm]
        have hv' := ht.visit
        rwa [← hv, ← grey_mark hh ho] at hv'
      · have hm : mark s o h = s := by simp [mark, ho]
        rw [hm]
        exact ht.seen ho
    · rw [hg, hp] at ht
      rw [hm, hp']
      exact Tricolour.trace (by simpa using ht)
    · rwa [hg, hm, hp', ← hp]
  · have htr := hk.traversed
    obtain ⟨o, h, rest, hp, rfl⟩ | ⟨o, hp, -, hg, hm, htr', -⟩ | ⟨hp, hg, hm, htr', hp'⟩ :=
      step_cases hs
    · intro o' ho'
      rcases ho : s.marked o with _ | _
      · have hh : h ∈ s.passes := (hin o h rest hp).resolve_left (by simp [ho])
        change o' ∈ grey (mark s o h) ∨ o' ∈ (mark s o h).traversed
        rw [grey_mark hh ho, mark_fields.2.2]
        rcases (marked_mark o').1 ho' with hm | rfl
        · exact (htr o' hm).imp_left .inr
        · exact .inl (.inl rfl)
      · have hm : mark s o h = s := by simp [mark, ho]
        rw [hm] at ho' ⊢
        exact htr o' ho'
    · intro o' ho'
      rw [htr', List.mem_cons]
      rcases htr o' (hm ▸ ho') with hg' | ht'
      · rw [hg] at hg'
        exact hg'.elim (fun he => .inr (.inl he)) .inl
      · exact .inr (.inr ht')
    · intro o' ho'
      rw [hg, htr']
      exact htr o' (hm ▸ ho')

theorem Lost.step (hl : Lost G s) (hs : step G s = some s') : Lost G s' := by
  obtain ⟨x, hx, hg, ht⟩ := hl.lost
  refine ⟨hl.base.step hs, x, ?_⟩
  obtain ⟨o, h, rest, hp, rfl⟩ | ⟨o, hp, ho, hg', hm, htr, -⟩ | ⟨hp, hg', hm, htr, -⟩ :=
    step_cases hs
  · obtain ⟨hprev, hpasses, htr⟩ := mark_fields (s := s) (o := o) (h := h)
    refine ⟨(marked_mark x).2 (.inl hx), ?_, htr ▸ ht⟩
    rintro (hp' | ⟨h', hh', hc⟩)
    · exact hg (.inl (hprev ▸ hp'))
    · rcases mem_cur_mark.1 hc with hc | ⟨ho, -, rfl⟩
      · exact hg (.inr ⟨h', hpasses ▸ hh', hc⟩)
      · simp [hx] at ho
  · rw [hg', Set.mem_insert_iff, not_or] at hg
    rw [hm, htr, List.mem_cons, not_or]
    exact ⟨hx, hg.2, hg.1, ht⟩
  · rw [hm, hg', htr]
    exact ⟨hx, hg, ht⟩

/-- An object that is kept too late is on no list. -/
theorem Kept.lost (hk : Kept G s) (hin : ¬InTime s) (hs : Marking.step G s = some s') : Lost G s' := by
  refine ⟨hk.base.step hs, ?_⟩
  simp only [InTime, not_forall, not_or] at hin
  obtain ⟨o, h, rest, hp, ho, hh⟩ := hin
  rw [Bool.not_eq_true] at ho
  have hb := hk.base
  have hunmarked : ∀ l : List O, (∀ x ∈ l, s.marked x = true) → o ∉ l := by
    intro l hl hol
    simp [hl o hol] at ho
  obtain rfl : { mark s o h with pending := rest } = s' := by
    simpa [Marking.step, hp] using hs
  obtain ⟨hprev, hpasses, htr⟩ := mark_fields (s := s) (o := o) (h := h)
  refine ⟨o, (marked_mark o).2 (.inr rfl), ?_, htr ▸ hunmarked _ hb.traversed⟩
  rintro (hp' | ⟨h', hh', hc⟩)
  · exact hunmarked _ hb.prev (hprev ▸ hp')
  · rcases mem_cur_mark.1 hc with hc | ⟨-, rfl, -⟩
    · exact hunmarked _ (hb.cur h') hc
    · exact hh (hpasses ▸ hh')

section Sweep

variable {V : Leaves O H L} {C : Type}

omit [DecidableEq O] in
theorem foldl_deleteGarbage (heaps : List H) (hnd : heaps.Nodup)
    (p : (O ⊕ L → Bool) × (O ⊕ L → Option C)) (r : O ⊕ L) :
    (heaps.foldl (deleteGarbage V) p).2 r
      = if V.heapOf r ∈ heaps ∧ p.1 r = false then none else p.2 r := by
  induction heaps generalizing p with
  | nil => simp
  | cons h hs ih =>
    obtain ⟨hh, hnd⟩ := List.nodup_cons.1 hnd
    rw [List.foldl_cons, ih hnd]
    by_cases he : V.heapOf r = h
    · simp [deleteGarbage, he, hh]
    · simp [deleteGarbage, he]

omit [DecidableEq O] in
/-- A collection releases what is not marked. -/
theorem sweep_eq [DecidableEq L] (s : State O H) (memory : O ⊕ L → C) (r : O ⊕ L) :
    sweep G V s memory r
      = if V.heapOf r ∈ G.heaps ∧ isMarked V s r = false then none else some (memory r) :=
  foldl_deleteGarbage G.heaps G.nodup _ r

end Sweep

theorem ended (hb : Base G s) (he : step G s = none) : s.pending = [] ∧ grey s = ∅ := by
  unfold step at he
  split at he
  · cases he
  next hp =>
    refine ⟨hp, ?_⟩
    split at he
    next hpass => simp [grey, hpass, hb.finished hpass]
    · split at he
      · cases he
      · split at he <;> cases he

omit [DecidableEq O] in
theorem keeps_of_isMarked [DecidableEq L] {V : Leaves O H L}
    (hm : ∀ r, isMarked V s r = true ↔ Reaches G V r) : Keeps G V s where
  reached C memory r hr := by
    rw [sweep_eq, if_neg]
    simp [(hm r).2 hr]
  released C memory r hn hr := by
    rw [sweep_eq, if_neg (by simp [(hm r).2 hr])] at hn
    cases hn

theorem Kept.keeps [DecidableEq L] (hk : Kept G s) (he : Marking.step G s = none) (V : Leaves O H L) :
    Keeps G V s := by
  obtain ⟨hp, hg⟩ := ended hk.base he
  have ht := hk.tricolour
  simp only [hg, hp, List.map_nil, List.not_mem_nil, Set.ofPred_false] at ht
  have hmarked : ∀ o, s.marked o = true ↔ Reachable G.succ G.rootSet o :=
    fun o => ⟨hk.base.marked o, ht.visited_of_reachable⟩
  have htraversed : ∀ o, o ∈ s.traversed ↔ Reachable G.succ G.rootSet o := by
    refine fun o => ⟨fun ho => (hmarked o).1 (hk.base.traversed o ho), fun ho => ?_⟩
    refine (hk.traversed o ((hmarked o).2 ho)).resolve_left ?_
    simp [hg]
  refine keeps_of_isMarked fun r => ?_
  rcases r with o | l
  · exact hmarked o
  · simp [isMarked, Reaches, htraversed]

/-- What only an object on no list refers to is released. -/
theorem Lost.not_keeps (hl : Lost G s) :
    ∃ V : Leaves O H O, ¬Keeps G V s := by
  obtain ⟨o, ho, -, ht⟩ := hl.lost
  refine ⟨⟨[], fun o => [o], fun _ => G.mainHeap⟩, fun hk => ?_⟩
  have hr := hk.reached Unit (fun _ => ()) (.inr o) (.inr ⟨o, hl.base.marked o ho, by simp⟩)
  rw [sweep_eq, if_pos] at hr
  · cases hr
  · refine ⟨List.mem_cons_self, ?_⟩
    have hne : ∀ x ∈ s.traversed, o ≠ x := fun x hx he => ht (he ▸ hx)
    simpa [isMarked] using hne

theorem inTime_of_final (he : step G s = none) : InTime s := by
  intro o h rest hp
  simp [step, hp] at he

section Final

variable [Fintype O]

theorem sound_of_inTime (G : Graph O H) (hin : ∀ s, Comes (step G) (start G) s → InTime s)
    [DecidableEq L] (V : Leaves O H L) : Sound G V := by
  obtain ⟨t, hcomes, he⟩ := exists_collected G
  rcases kept_or_lost (fun s _ => inTime_of_final) (fun s s' => Kept.step) (fun s s' => Kept.lost)
    (fun s s' => Lost.step) hcomes (kept_start G) he with ⟨-, hk⟩ | ⟨⟨u, hu, hn⟩, -⟩
  · exact ⟨t, hcomes, he, hk.keeps he V⟩
  · exact absurd (hin u hu) hn

theorem not_sound_of_late (hs : Comes (step G) (start G) s) (hn : ¬InTime s) :
    ∃ V : Leaves O H O, ¬Sound G V := by
  obtain ⟨t, hcomes, he⟩ := exists_collected G
  rcases kept_or_lost (fun s _ => inTime_of_final) (fun s s' => Kept.step) (fun s s' => Kept.lost)
    (fun s s' => Lost.step) hcomes (kept_start G) he with ⟨hall, -⟩ | ⟨-, hl⟩
  · exact absurd (hall s hs) hn
  · obtain ⟨V, hV⟩ := hl.not_keeps
    refine ⟨V, fun ⟨t', hcomes', he', hk⟩ => hV ?_⟩
    rwa [hcomes'.final_unique hcomes he' he] at hk

/-- A collection releases nothing but what cannot be reached if and only if every object that is
not marked yet is kept for a heap whose pass is not over. -/
theorem sound_iff (G : Graph O H) :
    (∀ (L : Type) [DecidableEq L] (V : Leaves O H L), Sound G V)
      ↔ ∀ s, Comes (step G) (start G) s → InTime s := by
  refine ⟨fun hsound s hs => ?_, fun hin L _ V => sound_of_inTime G hin V⟩
  by_contra hn
  obtain ⟨V, hV⟩ := not_sound_of_late hs hn
  exact hV (hsound O V)

end Final

/-- The frame of a running thread, a thread that has not been started yet, and its block. -/
inductive Obj where
  | frame
  | thread
  | block
  deriving DecidableEq

instance : Fintype Obj := ⟨{.frame, .thread, .block}, fun o => by cases o <;> simp⟩

/-- The heaps of the main thread, of the thread that has not been started, and of the running one,
which is the only one that refers to it. -/
def unstarted : Graph Obj ℕ where
  mainHeap := 0
  otherHeaps := [1, 2]
  nodup := by decide
  roots := [(.frame, 2)]
  children
    | .frame => [(.thread, none)]
    | .thread => [(.block, some 1)]
    | .block => []

/-- The block is kept when the pass of its heap is over, and nothing keeps what it refers to. -/
theorem not_sound_unstarted :
    ¬∀ (L : Type) [DecidableEq L] (V : Leaves Obj ℕ L), Sound unstarted V := by
  have hlate : ∃ s, Comes (step unstarted) (start unstarted) s ∧ ¬InTime s := by
    refine ⟨_, .head rfl (.head rfl (.head rfl (.head rfl (.head rfl (.head rfl (.head rfl
      (.head rfl (.refl _)))))))), fun h => ?_⟩
    have := h .block 1 [] rfl
    revert this
    decide
  obtain ⟨s, hs, hn⟩ := hlate
  obtain ⟨V, hV⟩ := not_sound_of_late hs hn
  exact fun h => hV (h Obj V)

end Marking

end Yog
