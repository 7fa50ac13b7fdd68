import Yog.Proofs.Tracing

/-!
# A collection from its start to its end

A collection starts with the references of the VM and of what is remembered to go through, ends
when there are none, and leaves behind a store in order: minor and major ones differ only in what
counts as kept.
-/

namespace Yog

namespace Generational

variable {H R : Type}

variable {s s' : Store H R} {p q : Ptr} {e h : H} {i : ℕ} {v : Option Ptr} {slot : Slot R}

variable {heaps : List H} {major : Bool} {limit : Ptr} {todo todo' : List (Slot R)} {a : Plain R}

variable {cfg : Config H R} {c c' : State H R} {o : Obj H}

/-- What is true between two collections. -/
structure Between (heaps : List H) (s : Store H R) (a : Plain R) : Prop where
  shape : Shape heaps false 0 s []
  agrees : Agrees s a

theorem kept_zero : Kept false 0 s p ↔ s.header p ≠ none := by
  refine ⟨Kept.header_ne, fun hp => ?_⟩
  unfold Kept
  rcases hh : s.header p with _ | ⟨age, f⟩ | ⟨r, m⟩
  · exact hp hh
  · exact Nat.zero_le _
  · simp

theorem Shape.reads (h : Shape heaps false 0 s []) (hr : s.read slot = some q) : Barred s slot q := by
  have ho : Owned false 0 s slot := by
    rcases slot with r | ⟨p, i⟩
    · trivial
    · refine kept_zero.2 fun hn => ?_
      rcases hm : s.mem p with _ | o
      · simp [Store.read, hm] at hr
      · simp [header_of_mem hm] at hn
  rcases h.settled slot ho with hm | hs
  · cases hm
  · exact (hs q hr).2

section Start

theorem header_foldl (ps : List Ptr) (s : Store H R) (q : Ptr) :
    (ps.foldl (fun s p => s.modify p fun o => o.setRemembered false) s).header q
      = if q ∈ ps then (s.header q).map (Header.setRemembered false) else s.header q := by
  induction ps generalizing s with
  | nil => simp
  | cons p ps ih =>
    rw [List.foldl_cons, ih]
    have hmod : (s.modify p fun o => o.setRemembered false).header q
        = if q = p then (s.header q).map (Header.setRemembered false) else s.header q :=
      header_setHeader
    rw [hmod]
    by_cases he : q = p
    · have hidem : ∀ hd : Header, (hd.setRemembered false).setRemembered false
          = hd.setRemembered false := by
        rintro (⟨age, f⟩ | ⟨r, m⟩) <;> rfl
      simp [he, Function.comp_def, hidem]
    · simp [he]

theorem foldl_view {α : Type*} (f : Store H R → α)
    (hf : ∀ s p, f (s.modify p fun o => o.setRemembered false) = f s) (ps : List Ptr)
    (s : Store H R) :
    f (ps.foldl (fun s p => s.modify p fun o => o.setRemembered false) s) = f s := by
  induction ps generalizing s with
  | nil => rfl
  | cons p ps ih => rw [List.foldl_cons, ih, hf]

theorem name_forget (s : Store H R) (ps : List Ptr) : (forget s ps).name = s.name :=
  foldl_view Store.name (fun _ _ => funext fun _ => name_setHeader) ps s

theorem width_forget (s : Store H R) (ps : List Ptr) : (forget s ps).width = s.width :=
  foldl_view Store.width (fun _ _ => funext fun _ => width_setHeader) ps s

theorem read_forget (s : Store H R) (ps : List Ptr) : (forget s ps).read = s.read :=
  foldl_view Store.read (fun _ _ => funext fun _ => read_setHeader) ps s

theorem next_forget (s : Store H R) (ps : List Ptr) : (forget s ps).next = s.next :=
  foldl_view Store.next (fun _ _ => rfl) ps s

theorem born_forget (s : Store H R) (ps : List Ptr) : (forget s ps).born = s.born :=
  foldl_view Store.born (fun _ _ => rfl) ps s

theorem header_forget (hs : Shape heaps false 0 s []) (q : Ptr) :
    (forget s (heaps.flatMap s.rememberedSet)).header q
      = (s.header q).map (Header.setRemembered false) := by
  have hf := header_foldl (heaps.flatMap s.rememberedSet) s q
  change (List.foldl _ s (heaps.flatMap s.rememberedSet)).header q = _
  rw [hf]
  split
  · rfl
  next hq =>
    rw [← hs.remembered, isRemembered_eq] at hq
    rcases hh : s.header q with _ | ⟨age, f⟩ | ⟨r, m⟩
    · rfl
    · rfl
    · cases r with
      | false => rfl
      | true => exact absurd ⟨m, hh⟩ hq

theorem kept_forget (hs : Shape heaps false 0 s []) :
    Kept major s.next (forget s (heaps.flatMap s.rememberedSet)) p
      ↔ major = false ∧ ∃ r m, s.header p = some (.old r m) := by
  unfold Kept
  rw [header_forget hs]
  rcases hh : s.header p with _ | ⟨age, f⟩ | ⟨r, m⟩
  · simp
  · simpa [Header.setRemembered] using hs.bound p _ hh
  · have hm := hs.unmarked rfl p r m hh
    subst hm
    cases major <;> simp [Header.setRemembered]

theorem worklist_start (cfg : Config H R) (major : Bool) (s : Store H R) :
    worklist cfg (start cfg major s) = if major then [] else cfg.heaps.flatMap (remembered s) := by
  have hwork : work (start cfg major s) = fun h => if major then [] else remembered s h := by
    funext h
    simp [work, start]
  unfold worklist
  rw [hwork]
  cases major with
  | true => exact List.flatMap_eq_nil_iff.2 fun _ _ => rfl
  | false => rfl

theorem mem_worklist_start (hp : p ∈ worklist cfg (start cfg major s)) :
    major = false ∧ p ∈ cfg.heaps.flatMap s.rememberedSet := by
  rw [worklist_start] at hp
  cases major with
  | true => cases hp
  | false =>
    obtain ⟨h, hh, hp⟩ := List.mem_flatMap.1 hp
    exact ⟨rfl, List.mem_flatMap.2 ⟨h, hh, List.mem_of_mem_filter hp⟩⟩

theorem nodup_worklist_start (hs : Shape cfg.heaps false 0 s []) :
    (worklist cfg (start cfg major s)).Nodup := by
  rw [worklist_start]
  cases major with
  | true => exact List.nodup_nil
  | false =>
    refine hs.rememberedNodup.sublist (List.Sublist.flatMap_right _ fun h _ => ?_)
    exact List.filter_sublist

/-- A remembered object that refers to something is traced. -/
theorem mem_worklist_of_remembered (hs : Shape cfg.heaps false 0 s [])
    (hp : s.isRemembered p = true) (hr : s.read (.member p i) = some q) :
    p ∈ worklist cfg (start cfg false s) := by
  rw [worklist_start]
  obtain ⟨h, hh, hp⟩ := List.mem_flatMap.1 ((hs.remembered p).1 hp)
  refine List.mem_flatMap.2 ⟨h, hh, List.mem_filter.2 ⟨hp, ?_⟩⟩
  rcases hm : s.mem p with _ | o
  · simp [Store.read, hm] at hr
  · rcases ho : o.members with _ | ⟨x, l⟩
    · simp [Store.read, hm, ho] at hr
    · simp [ho]

theorem remaining_start (cfg : Config H R) (major : Bool) (s : Store H R) :
    remaining cfg (start cfg major s) = cfg.vm.map (fun r => Slot.root r.1) ++
      (worklist cfg (start cfg major s)).flatMap (slotsOf s) := by
  have hslots : slotsOf (start cfg major s).toStore = slotsOf s :=
    funext fun p => slotsOf_congr (congrFun (width_forget s _) p)
  unfold remaining
  rw [hslots]
  simp [start, Function.comp_def]

theorem shape_start (hs : Shape cfg.heaps false 0 s []) :
    Shape cfg.heaps major s.next (start cfg major s).toStore (remaining cfg (start cfg major s)) := by
  have hread := read_forget s (cfg.heaps.flatMap s.rememberedSet)
  have hheader := header_forget hs
  have hlt : ∀ slot q, s.read slot = some q → q < s.next := by
    intro slot q hr
    obtain ⟨hd, hhd⟩ := Option.ne_none_iff_exists'.1 (hs.closed slot q hr)
    exact hs.bound q hd hhd
  have hlisted : ∀ p ∈ worklist cfg (start cfg major s),
      Kept major s.next (forget s (cfg.heaps.flatMap s.rememberedSet)) p := by
    intro p hp
    obtain ⟨hmaj, hp⟩ := mem_worklist_start hp
    obtain ⟨m, hm⟩ := isRemembered_eq.1 ((hs.remembered p).2 hp)
    exact (kept_forget hs).2 ⟨hmaj, true, m, hm⟩
  have hold : ∀ p r m, s.header p = some (.old r m) → s.isYoung p = false := by
    intro p r m hp
    simp [Store.isYoung, hp]
  constructor
  · intro p hd hp
    change (forget s _).header p = _ at hp
    rw [hheader] at hp
    obtain ⟨hd', hp', -⟩ := Option.map_eq_some_iff.1 hp
    change p < (forget s _).next
    rw [next_forget]
    exact hs.bound p hd' hp'
  · change s.next ≤ (forget s _).next
    rw [next_forget]
  · intro slot q hr
    change (forget s _).read slot = _ at hr
    change (forget s _).header q ≠ none
    rw [hread] at hr
    rw [hheader]
    simpa using hs.closed slot q hr
  · intro p age q hp
    change (forget s _).header p = _ at hp
    rw [hheader] at hp
    rcases hh : s.header p with _ | ⟨age', f⟩ | ⟨r, m⟩
    · simp [hh] at hp
    · simp only [hh, Option.map_some, Header.setRemembered, Option.some.injEq,
        Header.young.injEq] at hp
      obtain ⟨rfl, rfl⟩ := hp
      exact absurd (hs.forwarded p age' q hh).1 (Nat.not_lt_zero p)
    · simp [hh, Header.setRemembered] at hp
  · intro p _ i q hr
    change (forget s _).read _ = _ at hr
    rw [hread] at hr
    exact hlt _ q hr
  · rw [remaining_start]
    refine List.nodup_append'.2 ⟨?_, ?_, fun x hx hx' => ?_⟩
    · have := cfg.vmNodup.map (f := Slot.root) fun r r' h => by simpa using h
      simpa [Function.comp_def] using this
    · refine List.nodup_flatMap.2 ⟨fun p _ => nodup_slotsOf s p, ?_⟩
      refine (nodup_worklist_start hs).imp fun hne x hx hx' => ?_
      obtain ⟨i, -, rfl⟩ := mem_slotsOf.1 hx
      obtain ⟨j, -, he⟩ := mem_slotsOf.1 hx'
      cases he
      exact hne rfl
    · obtain ⟨r, -, rfl⟩ := List.mem_map.1 hx
      obtain ⟨p, -, hx'⟩ := List.mem_flatMap.1 hx'
      obtain ⟨i, -, he⟩ := mem_slotsOf.1 hx'
      cases he
  · intro slot _ q hr
    change (forget s _).read _ = _ at hr
    rw [hread] at hr
    exact hlt _ q hr
  · intro slot hslot
    rw [remaining_start] at hslot
    rcases List.mem_append.1 hslot with hx | hx
    · obtain ⟨r, -, rfl⟩ := List.mem_map.1 hx
      trivial
    · obtain ⟨p, hp, hx⟩ := List.mem_flatMap.1 hx
      obtain ⟨i, -, rfl⟩ := mem_slotsOf.1 hx
      exact hlisted p hp
  · rw [remaining_start]
    rintro (r | ⟨p, i⟩) ho
    · refine .inl (List.mem_append_left _ (List.mem_map.2 ?_))
      obtain ⟨rh, hrh, rfl⟩ := List.mem_map.1 (cfg.vmComplete r)
      exact ⟨rh, hrh, rfl⟩
    · obtain ⟨rfl, r, m, hp⟩ := (kept_forget hs).1 ho
      by_cases hex : ∃ q, s.read (.member p i) = some q ∧ s.isYoung q = true
      · obtain ⟨q, hr, hy⟩ := hex
        have hrem := hs.reads hr p i rfl (hold p r m hp) hy
        refine .inl (List.mem_append_right _ (List.mem_flatMap.2 ?_))
        exact ⟨p, mem_worklist_of_remembered hs hrem hr, mem_slotsOf.2 ⟨i, lt_width hr, rfl⟩⟩
      · refine .inr fun q hr => ?_
        change (forget s _).read _ = _ at hr
        rw [hread] at hr
        have hy : s.isYoung q ≠ true := fun hy => hex ⟨q, hr, hy⟩
        rcases hq : s.header q with _ | ⟨age, f⟩ | ⟨r', m'⟩
        · exact absurd hq (hs.closed _ q hr)
        · exact absurd (isYoung_eq.2 ⟨age, f, hq⟩) hy
        · refine ⟨(kept_forget hs).2 ⟨rfl, r', m', hq⟩, fun p' i' _ _ hyq => ?_⟩
          obtain ⟨age, f, hyq⟩ := isYoung_eq.1 hyq
          change (forget s _).header q = _ at hyq
          simp [hheader, hq, Header.setRemembered] at hyq
  · intro p
    refine ⟨fun hp => ?_, fun hp => ?_⟩
    · obtain ⟨m, hp⟩ := isRemembered_eq.1 hp
      change (forget s _).header p = _ at hp
      rw [hheader] at hp
      rcases hh : s.header p with _ | ⟨age, f⟩ | ⟨r, m'⟩ <;> simp [hh, Header.setRemembered] at hp
    · simp [start, forget] at hp
  · intro p hp
    simp [start, forget] at hp
  · have hnil : (cfg.heaps.flatMap fun _ => ([] : List Ptr)) = [] :=
      List.flatMap_eq_nil_iff.2 fun _ _ => rfl
    change (cfg.heaps.flatMap fun _ => []).Nodup
    rw [hnil]
    exact List.nodup_nil
  · intro _ p r m hp
    change (forget s _).header p = _ at hp
    rw [hheader] at hp
    rcases hh : s.header p with _ | ⟨age, f⟩ | ⟨r', m'⟩
    · simp [hh] at hp
    · simp [hh, Header.setRemembered] at hp
    · simp only [hh, Option.map_some, Header.setRemembered, Option.some.injEq,
        Header.old.injEq] at hp
      obtain ⟨-, rfl⟩ := hp
      exact hs.unmarked rfl p r' m' hh

theorem inv_start (hb : Between cfg.heaps s a) : Inv cfg major a (start cfg major s) where
  shape := shape_start hb.shape
  agrees := by
    refine hb.agrees.congr (born_forget s _) (name_forget s _) (width_forget s _) (fun x => ?_) ?_
    · change ((forget s _).read x).map _ = _
      rw [read_forget]
    · intro q age f
      change (forget s _).header q = _ ↔ _
      rw [header_forget hb.shape]
      rcases s.header q with _ | ⟨age', f'⟩ | ⟨r, m⟩ <;> simp [Header.setRemembered]
  listed p hp := by
    obtain ⟨-, hp⟩ := mem_worklist_start hp
    change (forget s _).header p ≠ none
    rw [header_forget hb.shape]
    simpa using (hb.shape.rememberedKept p hp).header_ne
  scanned _ := Nat.zero_le _

end Start

section Finish

theorem mem_finish (hk : Kept major c.limit c.toStore p) :
    (finish major c).mem p
      = (c.mem p).map fun o => if major then o.setMarked false else o := by
  unfold finish
  rcases hm : c.mem p with _ | o
  · simp [hm]
  · unfold Kept at hk
    rw [header_of_mem hm] at hk
    rcases hh : o.header with ⟨age, f⟩ | ⟨r, m⟩
    · rw [hh] at hk
      have he : o.setMarked false = o := by
        unfold Obj.setMarked Header.setMarked
        rw [hh]
        exact congrArg (fun hd => { o with header := hd }) hh.symm
      simp [hm, hh, Nat.not_lt.2 hk, he]
    · rw [hh] at hk
      cases major with
      | false => simp [hm, hh]
      | true => simp [hm, hh, hk rfl]

theorem mem_finish_of_not (hk : ¬Kept major c.limit c.toStore p) : (finish major c).mem p = none := by
  unfold finish
  rcases hm : c.mem p with _ | o
  · simp [hm]
  · unfold Kept at hk
    rw [header_of_mem hm] at hk
    rcases hh : o.header with ⟨age, f⟩ | ⟨r, m⟩
    · rw [hh] at hk
      simp [hm, hh, Nat.lt_of_not_le hk]
    · rw [hh] at hk
      simp only [Classical.not_imp] at hk
      simp [hm, hh, hk.1, hk.2]

theorem header_finish (hk : Kept major c.limit c.toStore p) : (finish major c).header p
    = (c.header p).map fun hd => if major then hd.setMarked false else hd := by
  unfold Store.header
  rw [mem_finish hk]
  cases major <;> simp [Function.comp_def, Obj.setMarked]

theorem header_finish_ne : (finish major c).header p ≠ none ↔ Kept major c.limit c.toStore p := by
  refine ⟨fun hp => ?_, fun hk => ?_⟩
  · by_contra hk
    simp [Store.header, mem_finish_of_not hk] at hp
  · rw [header_finish hk]
    simpa using hk.header_ne

theorem name_finish (hk : Kept major c.limit c.toStore p) : (finish major c).name p = c.name p := by
  unfold Store.name
  rw [mem_finish hk]
  cases major <;> simp [Function.comp_def, Obj.setMarked]

theorem width_finish (hk : Kept major c.limit c.toStore p) : (finish major c).width p = c.width p := by
  unfold Store.width
  rw [mem_finish hk]
  cases major <;> simp [Function.comp_def, Obj.setMarked]

theorem read_finish (ho : Owned major c.limit c.toStore slot) :
    (finish major c).read slot = c.read slot := by
  rcases slot with r | ⟨p, i⟩
  · rfl
  · unfold Store.read
    simp only
    rw [mem_finish ho]
    cases major <;> rcases c.mem p with _ | o <;> simp [Obj.setMarked]

theorem owned_of_read_finish (hr : (finish major c).read slot = some q) :
    Owned major c.limit c.toStore slot := by
  rcases slot with r | ⟨p, i⟩
  · trivial
  · by_contra hk
    simp [Store.read, mem_finish_of_not hk] at hr

theorem isYoung_finish (hk : Kept major c.limit c.toStore p) :
    (finish major c).isYoung p = c.isYoung p := by
  unfold Store.isYoung
  rw [header_finish hk]
  rcases c.header p with _ | ⟨age, f⟩ | ⟨r, m⟩ <;> cases major <;> rfl

theorem isRemembered_finish (hk : Kept major c.limit c.toStore p) :
    (finish major c).isRemembered p = c.isRemembered p := by
  unfold Store.isRemembered
  rw [header_finish hk]
  rcases c.header p with _ | ⟨age, f⟩ | ⟨r, m⟩ <;> cases major <;> rfl

theorem young_finish {age : ℕ} {f : Option Ptr}
    (hp : (finish major c).header p = some (.young age f)) :
    Kept major c.limit c.toStore p ∧ c.header p = some (.young age f) := by
  have hk : Kept major c.limit c.toStore p := header_finish_ne.1 (by simp [hp])
  refine ⟨hk, ?_⟩
  rw [header_finish hk] at hp
  rcases hh : c.header p with _ | ⟨age', f'⟩ | ⟨r, m⟩ <;> cases major <;>
    simp [hh, Header.setMarked] at hp ⊢ <;> exact hp

/-- When there is nothing more to go through, what is kept leads to what is kept. -/
theorem Shape.kept_of_read (h : Shape heaps major c.limit c.toStore [])
    (ho : Owned major c.limit c.toStore slot) (hr : c.read slot = some q) :
    Kept major c.limit c.toStore q ∧ Barred c.toStore slot q :=
  (h.settled slot ho).elim (fun hm => nomatch hm) fun hs => hs q hr

theorem Shape.not_forwarded (h : Shape heaps major c.limit c.toStore []) {age : ℕ}
    (hp : (finish major c).header p = some (.young age (some q))) : False := by
  obtain ⟨hk, hh⟩ := young_finish hp
  have hlt := (h.forwarded p age q hh).1
  unfold Kept at hk
  rw [hh] at hk
  exact absurd hlt (Nat.not_lt.2 hk)

theorem shape_finish (h : Shape heaps major c.limit c.toStore []) :
    Shape heaps false 0 (finish major c) [] := by
  have hkept : ∀ slot q, (finish major c).read slot = some q → Owned major c.limit c.toStore slot ∧
      Kept major c.limit c.toStore q ∧ Barred c.toStore slot q := by
    intro slot q hr
    have ho := owned_of_read_finish hr
    rw [read_finish ho] at hr
    exact ⟨ho, h.kept_of_read ho hr⟩
  have hremembered : ∀ p, (finish major c).isRemembered p = true ↔ c.isRemembered p = true := by
    intro p
    by_cases hk : Kept major c.limit c.toStore p
    · rw [isRemembered_finish hk]
    · refine ⟨fun hp => ?_, fun hp => absurd (h.rememberedKept p ((h.remembered p).1 hp)) hk⟩
      obtain ⟨m, hp⟩ := isRemembered_eq.1 hp
      exact absurd (header_finish_ne.1 (by simp [hp])) hk
  constructor
  · intro p hd hp
    have hk : Kept major c.limit c.toStore p := header_finish_ne.1 (by simp [hp])
    obtain ⟨hd', hhd⟩ := Option.ne_none_iff_exists'.1 hk.header_ne
    exact h.bound p hd' hhd
  · exact Nat.zero_le _
  · exact fun slot q hr => header_finish_ne.2 (hkept slot q hr).2.1
  · exact fun p age q hp => (h.not_forwarded hp).elim
  · intro p hp i q hr
    exact absurd (kept_zero.2 (header_finish_ne.2 (hkept _ q hr).1)) hp
  · exact List.nodup_nil
  · exact fun slot hs => nomatch hs
  · exact fun slot hs => nomatch hs
  · refine fun slot _ => .inr fun q hr => ?_
    obtain ⟨ho, hk, hb⟩ := hkept slot q hr
    refine ⟨kept_zero.2 (header_finish_ne.2 hk), fun p i he hy hyq => ?_⟩
    subst he
    rw [isYoung_finish ho] at hy
    rw [isYoung_finish hk] at hyq
    exact (hremembered p).2 (hb p i rfl hy hyq)
  · exact fun p => (hremembered p).trans (h.remembered p)
  · exact fun p hp => kept_zero.2 (header_finish_ne.2 (h.rememberedKept p hp))
  · exact h.rememberedNodup
  · intro _ p r m hp
    have hk : Kept major c.limit c.toStore p := header_finish_ne.1 (by simp [hp])
    rw [header_finish hk] at hp
    rcases hh : c.header p with _ | ⟨age, f⟩ | ⟨r', m'⟩
    · simp [hh] at hp
    · cases major <;> simp [hh, Header.setMarked] at hp
    · cases major with
      | false =>
        simp only [hh, Option.map_some, Bool.false_eq_true, if_false, Option.some.injEq] at hp
        exact h.unmarked rfl p r m (hh.trans (congrArg some hp))
      | true =>
        simp only [hh, Option.map_some, if_true, Header.setMarked, Option.some.injEq,
          Header.old.injEq] at hp
        exact hp.2.symm

theorem agrees_finish (h : Shape heaps major c.limit c.toStore []) (ha : Agrees c.toStore a) :
    Agrees (finish major c) a := by
  have hname : ∀ p n, (finish major c).name p = some n →
      Kept major c.limit c.toStore p ∧ c.name p = some n := by
    intro p n hp
    by_cases hk : Kept major c.limit c.toStore p
    · exact ⟨hk, name_finish hk ▸ hp⟩
    · simp [Store.name, mem_finish_of_not hk] at hp
  have hmap : ∀ slot, Owned major c.limit c.toStore slot →
      ((finish major c).read slot).map (finish major c).name = (c.read slot).map c.name := by
    intro slot ho
    rw [read_finish ho]
    rcases hr : c.read slot with _ | q
    · rfl
    · simp [name_finish (h.kept_of_read ho hr).1]
  constructor
  · exact ha.born
  · exact fun p n hp => ha.fresh p n (hname p n hp).2
  · exact fun r => (hmap (.root r) trivial).trans (ha.roots r)
  · intro p n hp
    obtain ⟨hk, hp⟩ := hname p n hp
    rw [width_finish hk]
    exact ha.width p n hp
  · intro p n hp i
    obtain ⟨hk, hp⟩ := hname p n hp
    rw [hmap (.member p i) hk]
    exact ha.members p n hp i
  · intro p p' n hp hp'
    obtain ⟨hk, hp⟩ := hname p n hp
    obtain ⟨hk', hp'⟩ := hname p' n hp'
    have hlt : ∀ x y, Kept major c.limit c.toStore x → ∀ age,
        c.header x ≠ some (.young age (some y)) := by
      intro x y hx age hh
      have hl := (h.forwarded x age y hh).1
      unfold Kept at hx
      rw [hh] at hx
      exact absurd hl (Nat.not_lt.2 hx)
    rcases ha.same p p' n hp hp' with he | ⟨age, hf⟩ | ⟨age, hf⟩
    · exact .inl he
    · exact absurd hf (hlt p p' hk age)
    · exact absurd hf (hlt p' p hk' age)
  · exact fun p age q hp => (h.not_forwarded hp).elim

end Finish

section Ends

variable [DecidableEq H] [DecidableEq R] {room : State H R → H → ℕ → Bool}

/-- No list is being gone through unless it is some heap's turn, and it is not scanned. -/
def Idle (c : State H R) : Prop := c.passes = [] ∨ c.scanning = true → c.prev = []

omit [DecidableEq R] in
theorem keepObject_fields (hk : keepObject cfg major room c h p = some (c', q)) :
    c'.prev = c.prev ∧ c'.passes = c.passes ∧ c'.scanning = c.scanning ∧ c'.overrun = c.overrun := by
  have hadd : ∀ (c : State H R) p o, (addToMarkedObjects c h p o).prev = c.prev ∧
      (addToMarkedObjects c h p o).passes = c.passes ∧
      (addToMarkedObjects c h p o).scanning = c.scanning ∧
      (addToMarkedObjects c h p o).overrun = c.overrun := by
    intro c p o
    obtain ⟨cur, hcur⟩ := addToMarkedObjects_fields c h p o
    rw [hcur]
    exact ⟨rfl, rfl, rfl, rfl⟩
  unfold keepObject at hk
  split at hk
  · cases hk
    exact ⟨rfl, rfl, rfl, rfl⟩
  · split at hk
    · cases hk
      split
      · unfold Generational.mark
        split
        · exact hadd _ _ _
        · exact ⟨rfl, rfl, rfl, rfl⟩
      · exact ⟨rfl, rfl, rfl, rfl⟩
    · cases hk
      exact ⟨rfl, rfl, rfl, rfl⟩
    · split at hk
      · split at hk
        · cases hk
          exact ⟨rfl, rfl, rfl, rfl⟩
        · cases hk
      · cases hk
        exact hadd _ _ _

theorem Idle.step (hi : Idle c) (hs : Generational.step cfg major e room c = some c') : Idle c' := by
  unfold Generational.step at hs
  split at hs
  · cases hs
  split at hs
  · split at hs
    · cases hs
      exact hi
    · split at hs
      next hk =>
        cases hs
        obtain ⟨hprev, hpass, hscan, -⟩ := keepObject_fields hk
        unfold Idle at hi ⊢
        rwa [hprev, hpass, hscan]
      · cases hs
        exact hi
  · split at hs
    next hpass =>
      split at hs
      · cases hs
      · cases hs
        exact fun _ => hi (.inl hpass)
    next hpass =>
      split at hs
      next hscan =>
        have hprev := hi (.inr hscan)
        split at hs
        · cases hs
          exact fun _ => hprev
        · split at hs <;> cases hs <;> exact fun _ => hprev
      next hscan =>
        split at hs
        · cases hs
          intro hor
          simp [hpass, hscan] at hor
        next hprev =>
          split at hs
          · cases hs
            exact fun _ => hprev
          · cases hs
            intro hor
            simp [hpass, hscan] at hor

theorem ended (he : Generational.step cfg major e room c = none) (hover : c.overrun = false) :
    c.pending = [] ∧ c.passes = [] ∧ ∀ h, isFinished c h = true := by
  unfold Generational.step at he
  rw [hover, if_neg (by simp)] at he
  split at he
  · split at he
    · cases he
    · split at he <;> cases he
  next hp =>
    split at he
    next hpass =>
      split at he
      next hall => exact ⟨hp, hpass, fun h => List.all_eq_true.1 hall h (cfg.complete h)⟩
      · cases he
    · split at he
      · split at he
        · cases he
        · split at he <;> cases he
      · split at he
        · cases he
        · split at he <;> cases he

/-- There is nothing more to go through. -/
theorem remaining_of_ended (hi : Idle c) (he : Generational.step cfg major e room c = none)
    (hover : c.overrun = false) : remaining cfg c = [] := by
  obtain ⟨hp, hpass, hall⟩ := ended he hover
  have hwork : ∀ h, work c h = [] := by
    intro h
    have hf := hall h
    unfold isFinished at hf
    rw [Bool.and_eq_true] at hf
    unfold work
    rw [List.isEmpty_iff.1 hf.2, List.drop_eq_nil_of_le (of_decide_eq_true hf.1)]
    rfl
  have hlist : worklist cfg c = [] := by
    unfold worklist
    rw [hi (.inl hpass), List.flatMap_eq_nil_iff.2 fun h _ => hwork h]
    rfl
  unfold remaining
  rw [hp, hlist]
  rfl

theorem Inv.between (hi : Inv cfg major a c) (hidle : Idle c)
    (he : Generational.step cfg major e room c = none) (hover : c.overrun = false) :
    Between cfg.heaps (finish major c) a := by
  have hs := hi.shape
  rw [remaining_of_ended hidle he hover] at hs
  exact ⟨shape_finish hs, agrees_finish hs hi.agrees⟩

/-- What a collection has still to do to an object. -/
def Fresh (major : Bool) : Header → Bool
  | .young _ f => f.isNone
  | .old _ m => major && !m

def unmoved (major : Bool) (c : State H R) : ℕ :=
  ((Finset.range c.limit).filter fun p => (c.header p).any (Fresh major) = true).card

/-- Whether the heaps have to be gone through once more. -/
def rounds (cfg : Config H R) (c : State H R) : ℕ :=
  if ∀ h ∈ cfg.heaps, isFinished c h = true ∨ h ∈ c.passes then 0 else 1

/-- How many steps it takes a heap to go on to another object, or to be over. -/
def phase (c : State H R) : ℕ :=
  match c.passes with
  | [] => 0
  | h :: _ =>
    if c.scanning then if (c.cur h).isEmpty then 0 else 3
    else if c.prev.isEmpty ∧ (c.cur h).isEmpty = false then 2 else 1

/-- What gets smaller. -/
def measure (cfg : Config H R) (major : Bool) (c : State H R) : ℕ × ℕ × ℕ × ℕ × ℕ × ℕ × ℕ :=
  ((!c.overrun).toNat, unmoved major c, (worklist cfg c).length, rounds cfg c, c.passes.length,
    phase c, c.pending.length)

theorem fresh_write (s : Store H R) (e : H) (v : Option Ptr) (slot : Slot R) (p : Ptr) :
    ((s.write e v slot).header p).any (Fresh major) = (s.header p).any (Fresh major) := by
  rcases slot with r | ⟨p', i⟩
  · rfl
  · change ((s.updatePtr e p' i v).header p).any _ = _
    rcases updatePtr_cases s e p' i v with ⟨heq, -⟩ | ⟨-, -, heq⟩
    · rw [heq, header_setMember]
    · rw [heq, header_setMember]
      unfold Store.addToRememberedSet Obj.setRemembered
      rw [header_setHeader]
      split
      · change ((s.header p).map _).any _ = _
        rcases s.header p with _ | ⟨_, _⟩ | ⟨_, _⟩ <;> rfl
      · rfl

omit [DecidableEq H] [DecidableEq R] in
theorem unmoved_lt (hlimit : c'.limit = c.limit) (hp : p < c.limit)
    (hne : ∀ x, x < c.limit → x ≠ p → c'.header x = c.header x)
    (hf : (c.header p).any (Fresh major) = true) (hf' : (c'.header p).any (Fresh major) ≠ true) :
    unmoved major c' < unmoved major c := by
  unfold unmoved
  rw [hlimit]
  refine card_filter_lt (Finset.mem_range.2 hp) (fun x hx hfx => ?_) hf hf'
  by_cases he : x = p
  · exact absurd hfx (he ▸ hf')
  · rwa [hne x (Finset.mem_range.1 hx) he] at hfx

omit [DecidableEq R] in
/-- Keeping an object does nothing, or deals with one more object. -/
theorem keepObject_unmoved (hs : Shape cfg.heaps major c.limit c.toStore todo') (hplt : p < c.limit)
    (hk : keepObject cfg major room c h p = some (c', q)) :
    c' = c ∨ unmoved major c' < unmoved major c := by
  have hlt : p < c.next := hplt.trans_le hs.limit_le
  have hadd : ∀ (c : State H R) p o, (addToMarkedObjects c h p o).toStore = c.toStore ∧
      (addToMarkedObjects c h p o).limit = c.limit := by
    intro c p o
    obtain ⟨cur, hcur⟩ := addToMarkedObjects_fields c h p o
    rw [hcur]
    exact ⟨rfl, rfl⟩
  have hmove : ∀ {o : Obj H} {age age' : ℕ} {new : Header} {c' : State H R}, c.mem p = some o →
      o.header = .young age none → c'.toStore = Generational.moveTo c.toStore p o age' new →
      c'.limit = c.limit → unmoved major c' < unmoved major c := by
    intro o age age' new c' hm hf hstore hlimit
    refine unmoved_lt hlimit hplt (fun x hx hne => ?_) ?_ ?_
    · rw [hstore, header_moveTo _ _ hm hlt, if_neg (hx.trans_le hs.limit_le).ne, if_neg hne]
    · rw [header_of_mem hm, hf]
      rfl
    · rw [hstore, header_moveTo _ _ hm hlt, if_neg hlt.ne, if_pos rfl]
      simp [Fresh]
  unfold keepObject at hk
  rcases hm : c.mem p with _ | o
  · rw [hm] at hk
    cases hk
    exact .inl rfl
  rw [hm] at hk
  simp only at hk
  rcases hf : o.header with ⟨age, _ | q'⟩ | ⟨r, m⟩
  · rw [hf] at hk
    simp only at hk
    split at hk
    · split at hk
      · cases hk
        exact .inr (hmove hm hf rfl rfl)
      · cases hk
    · cases hk
      unfold tenure
      exact .inr (hmove hm hf (hadd _ _ _).1 (hadd _ _ _).2)
  · rw [hf] at hk
    cases hk
    exact .inl rfl
  · rw [hf] at hk
    cases major with
    | false =>
      cases hk
      exact .inl rfl
    | true =>
      cases hk
      have hhead := (header_of_mem hm).trans (congrArg some hf)
      cases m with
      | true => exact .inl (by simp [mark, hf])
      | false =>
        have he : mark c h p o
            = addToMarkedObjects { c with toStore := c.modify p fun o => o.setMarked true } h p o := by
          simp [mark, hf]
        simp only [if_true]
        rw [he]
        refine .inr (unmoved_lt (hadd _ _ _).2 hplt (fun x _ hne => ?_) ?_ ?_)
        · rw [(hadd _ _ _).1]
          change (c.modify p fun o => o.setMarked true).header x = _
          rw [header_setMarked hhead, if_neg hne]
        · rw [hhead]
          rfl
        · rw [(hadd _ _ _).1]
          change ((c.modify p fun o => o.setMarked true).header p).any _ ≠ _
          rw [header_setMarked hhead, if_pos rfl]
          simp [Fresh]

omit [DecidableEq R] in
theorem rounds_le (h : ∀ h, isFinished c h = true ∨ h ∈ c.passes →
    isFinished c' h = true ∨ h ∈ c'.passes) : rounds cfg c' ≤ rounds cfg c := by
  unfold rounds
  by_cases hall : ∀ h ∈ cfg.heaps, isFinished c h = true ∨ h ∈ c.passes
  · rw [if_pos fun h' hh' => h h' (hall h' hh')]
    exact Nat.zero_le _
  · rw [if_neg hall]
    split
    · exact Nat.zero_le _
    · exact le_refl _

theorem lex_of_le {β : Type*} {r : β → β → Prop} {x y : ℕ} {z w : β} (hxy : x ≤ y) (hr : r z w) :
    Prod.Lex (· < ·) r (x, z) (y, w) := by
  rcases hxy.lt_or_eq with hlt | rfl
  · exact .left _ _ hlt
  · exact .right _ hr

theorem measure_step (hi : Inv cfg major a c) (hidle : Idle c)
    (hs : Generational.step cfg major e room c = some c') :
    WellFoundedRelation.rel (measure cfg major c') (measure cfg major c) := by
  unfold Generational.step at hs
  split at hs
  · cases hs
  next hover =>
  split at hs
  next slot h rest hp =>
    have hrest : rest.length < c.pending.length := by simp [hp]
    split at hs
    next hr =>
      cases hs
      exact .right _ (.right _ (.right _ (.right _ (.right _ (.right _ hrest)))))
    next p hr =>
      have hhead := hi.shape.before slot (by simp [remaining, hp]) p hr
      split at hs
      next c₁ q hk =>
        cases hs
        obtain ⟨-, -, -, hov⟩ := keepObject_fields hk
        have hun : unmoved major { c₁ with toStore := c₁.write e (some q) slot, pending := rest }
            = unmoved major c₁ := by
          unfold unmoved
          simp only [fresh_write]
        unfold measure
        rw [hun]
        simp only [hov]
        refine .right _ ?_
        rcases keepObject_unmoved hi.shape hhead hk with rfl | hlt
        · exact .right _ (.right _ (.right _ (.right _ (.right _ hrest))))
        · exact .left _ _ hlt
      · cases hs
        refine .left _ _ ?_
        change (_ : ℕ) < _
        simp [hover]
  next hp =>
    split at hs
    next hpass =>
      split at hs
      · cases hs
      next hall =>
        cases hs
        refine .right _ (.right _ (.right _ (.left _ _ ?_)))
        have hc : ¬∀ h ∈ cfg.heaps, isFinished c h = true ∨ h ∈ c.passes := by
          simpa [hpass] using hall
        unfold rounds
        rw [if_neg hc, if_pos fun h _ => .inr (cfg.complete h)]
        exact Nat.zero_lt_one
    next h hs' hpass =>
      split at hs
      next hscan =>
        split at hs
        next p hget =>
          obtain ⟨hlt, rfl⟩ := List.getElem?_eq_some_iff.1 hget
          have hc := Option.some.inj hs
          have hw : (worklist cfg c).Perm ((c.toSpace h)[c.scanned h] :: worklist cfg c') := by
            rw [← hc]
            exact worklist_scan hlt rfl rfl rfl rfl
          have hlen : (worklist cfg c').length < (worklist cfg c).length := by simp [hw.length_eq]
          cases hs
          exact .right _ (.right _ (.left _ _ hlen))
        next hget =>
          split at hs
          next hcur =>
            cases hs
            refine .right _ (.right _ (.right _ (lex_of_le (rounds_le fun h' hor => ?_) (.left _ _ ?_))))
            · rcases hor with hf | hm
              · exact .inl hf
              · rcases List.mem_cons.1 (hpass ▸ hm) with rfl | hm
                · refine .inl ?_
                  simpa [isFinished, hcur] using List.getElem?_eq_none_iff.1 hget
                · exact .inr hm
            · change (_ : ℕ) < _
              simp [hpass]
          next hcur =>
            cases hs
            refine .right _ (.right _ (.right _ (.right _ (.right _ (.left _ _ ?_)))))
            change (_ : ℕ) < _
            simp [phase, hpass, hscan, hcur, hidle (.inr hscan)]
      next hscan =>
        split at hs
        next p ps hprev =>
          cases hs
          refine .right _ (.right _ (.left _ _ ?_))
          change (_ : ℕ) < (worklist cfg c).length
          unfold worklist
          rw [hprev]
          exact Nat.lt_succ_self _
        next hprev =>
          split at hs
          next hcur =>
            cases hs
            refine .right _ (.right _ (.right _ (.right _ (.right _ (.left _ _ ?_)))))
            change (_ : ℕ) < _
            simp [phase, hpass, hscan, hcur, hprev]
          next hcur =>
            have hc := Option.some.inj hs
            have hw : (worklist cfg c).Perm (worklist cfg c') := by
              rw [← hc]
              exact worklist_round hprev rfl rfl rfl rfl
            have hlen : (worklist cfg c').length ≤ (worklist cfg c).length := hw.length_eq.ge
            cases hs
            refine .right _ (.right _ (lex_of_le hlen (lex_of_le (rounds_le fun h' hor => ?_)
              (.right _ (.left _ _ ?_)))))
            · refine hor.imp_left fun hf => ?_
              by_cases he : h' = h
              · subst he
                simp [isFinished] at hf hcur
                exact absurd hf.2 hcur
              · simpa [isFinished, he] using hf
            · change (_ : ℕ) < _
              simp [phase, hpass, hscan, hcur, hprev]

end Ends

end Generational

end Yog
