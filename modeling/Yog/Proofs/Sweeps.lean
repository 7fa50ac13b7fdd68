import Yog.Proofs.Mappings

/-!
# The objects of the heap

Every object has a chunk that is large enough for what was asked for, and it is given out as often as
it is taken back, but for the last time (`Kept`). A collection takes back the objects that are not
marked, whose chunks become free ones or are unmapped (`Swept`).

Where no request is for a little less than an arena, the used chunks are those of the objects, and
`munmap` never fails. A request of that kind gets the chunk of an empty arena as it is, and `delete`
takes that for a mapping.
-/

namespace Yog.MarkSweepCompact

open Tiling

variable {c s p arenaSize : ℕ} {as as' : List Arena} {huges huges' : List (ℕ × ℕ)} {strict : Prop}
  {build : Heap.Build}

/-- The bytes that were asked for when a header was given out last. -/
def requested (log : List Event) (p : ℕ) : Option ℕ :=
  log.findSome? fun
    | .given q size => if q = p then some size else none
    | _ => none

/-- The event gives out the header. -/
def Event.gives (p : ℕ) : Event → Bool
  | .given q _ => q = p
  | _ => false

namespace Heap

variable {h h' : Heap} {o : Obj} {objs : List Obj}

def headers (h : Heap) : List ℕ := h.header.map Obj.header

/-- The chunks, the objects and the log of a heap. With `strict`, no request is for a little less
than an arena. -/
structure Kept (build : Build) (strict : Prop) (arenaSize : ℕ) (h : Heap) (as : List Arena)
    (huges : List (ℕ × ℕ)) : Prop where
  size : h.arenaSize = arenaSize
  laid : h.Laid as huges
  nodup : h.headers.Nodup
  chunk : ∀ p ∈ h.headers, ∃ c s n, p = c + 24 ∧ ChunkOf as huges c s ∧
    requested h.log p = some n ∧ n + build.sizeofHeader + 24 ≤ s
  once : ∀ p, h.log.countP (Event.gives p) =
    h.log.count (.released p) + if p ∈ h.headers then 1 else 0
  aligned : arenaSize % 8 = 0 → ∀ p ∈ chunks as, p.2.size % 8 = 0
  owned : strict → ∀ c s, ChunkOf as huges c s → c + 24 ∈ h.headers
  small : strict → ∀ c s, (c, ⟨s, true⟩) ∈ chunks as → s < h.limit
  sound : strict → ∀ addr size, .einval addr size ∉ h.log

theorem ChunkOf.ne (hl : h.Laid as huges) {s' : ℕ} (hc : ChunkOf as huges c s)
    (hc' : ChunkOf as huges c s') : s = s' :=
  (hl.size_chunkOf hc).symm.trans (hl.size_chunkOf hc')

/-- The object is taken off the list. -/
def forget (h : Heap) (o : Obj) : Heap :=
  { h with header := h.header.filter (·.header ≠ o.header), log := .released o.header :: h.log }

theorem mem_headers_forget : p ∈ (h.forget o).headers ↔ p ∈ h.headers ∧ p ≠ o.header := by
  simp only [headers, forget, List.mem_map, List.mem_filter, decide_eq_true_eq]
  constructor
  · rintro ⟨q, ⟨hq, hne⟩, rfl⟩
    exact ⟨⟨q, hq, rfl⟩, hne⟩
  · rintro ⟨⟨q, hq, rfl⟩, hne⟩
    exact ⟨q, ⟨hq, hne⟩, rfl⟩

/-- What `delete` does with the chunk of an object. -/
structure Freed (h h' : Heap) (as as' : List Arena) (c : ℕ) : Prop where
  arenas : h'.arenas = h.arenas
  maps : ∀ r, r ∈ h'.maps ↔ r ∈ h.maps ∧ r.1 ≠ c
  used : ∀ p : ℕ × Block, p.2.used = true → (p ∈ chunks as' ↔ p ∈ chunks as ∧ p.1 ≠ c)
  free : ∀ s, (c, ⟨s, true⟩) ∈ chunks as →
    ∃ m n, (m, ⟨n, false⟩) ∈ chunks as' ∧ m ≤ c ∧ c + s ≤ m + n
  keep : ∀ d k, (d, ⟨k, false⟩) ∈ chunks as →
    ∃ m n, (m, ⟨n, false⟩) ∈ chunks as' ∧ m ≤ d ∧ d + k ≤ m + n

/-- The address of a chunk of an arena is no mapping. -/
theorem Laid.addr_ne (hl : h.Laid as huges) {b : Block} (hc : (c, b) ∈ chunks as) {r : ℕ × ℕ}
    (hr : r ∈ h.maps) : r.1 ≠ c := by
  rintro rfl
  have hsize := hl.chunk_le hc
  rcases List.mem_append.1 (hl.maps.mem_iff.1 hr) with hr | hr
  · obtain ⟨arena, -, hmap, hle, hge⟩ := hl.chunk_in hc
    have hbase : arenaChunks arena = arena + 8 := rfl
    have hlimit := hl.limit
    obtain ⟨a, -, rfl⟩ := List.mem_map.1 hr
    simp only at hle hge
    have hne : ((a.addr, h.arenaSize) : ℕ × ℕ) ≠ (arena, h.arenaSize) := by
      intro heq
      cases heq
      omega
    rcases (List.pairwise_append.1 hl.distinct).1.forall hr hmap hne with hd | hd <;>
      simp only at hd <;> omega
  · have := hl.apart_huge hc hr
    have := hl.pos (List.mem_append_right _ hr)
    omega

/-- The chunk of an object becomes a free one, or its mapping goes; only a chunk of an arena that is
as large as a mapping stays, and `munmap` fails. -/
theorem Laid.delete (hl : h.Laid as huges) (hc : ChunkOf as huges c s) :
    ((h.deleteChunk c).2 = true ∧ (h.deleteChunk c).1.header = h.header ∧
      (h.deleteChunk c).1.log = h.log ∧ (h.deleteChunk c).1.arenaSize = h.arenaSize ∧
      ∃ as' huges', (h.deleteChunk c).1.Laid as' huges' ∧
        Freed h (h.deleteChunk c).1 as as' c ∧ (∀ r, r ∈ huges' ↔ r ∈ huges ∧ r.1 ≠ c) ∧
        ((∀ p ∈ chunks as, p.2.size % 8 = 0) → ∀ p ∈ chunks as', p.2.size % 8 = 0)) ∨
      ((c, ⟨h.limit, true⟩) ∈ chunks as ∧ h.deleteChunk c =
        ({ h with log := .einval c h.limit :: h.log }, false)) := by
  have hsize := hl.size_chunkOf hc
  rcases hc with hc | hc
  · rcases lt_or_ge s h.limit with hlt | hge
    · obtain ⟨as', hok, hl', hr⟩ := hl.put hc hlt
      refine .inl ⟨hok, hr.same.header, hr.same.log, hr.same.arenaSize, as', huges, hl',
        ⟨hr.same.arenas, fun r => ?_, hr.used, fun s' hs' => ?_, hr.keep⟩, fun r => ?_, hr.aligned⟩
      · rw [hr.same.maps]
        exact ⟨fun hmem => ⟨hmem, hl.addr_ne hc hmem⟩, And.left⟩
      · obtain rfl : s = s' := ChunkOf.ne hl (.inl hc) (.inl hs')
        exact hr.free
      · refine ⟨fun hmem => ⟨hmem, ?_⟩, And.left⟩
        exact hl.addr_ne hc (hl.maps.mem_iff.2 (List.mem_append_right _ hmem))
    · have hle := (hl.chunk_le hc).2
      obtain rfl : s = h.limit := le_antisymm hle hge
      refine .inr ⟨hc, ?_⟩
      have hcond : computeUpperLimitOfArena h.arenaSize ≤ h.tags.size c := hsize.symm.le
      rw [deleteChunk, if_pos hcond, hsize, munmap, if_neg (hl.not_mapped hc)]
  · have hle := (hl.huge _ hc).2
    have hpos := hl.pos (List.mem_append_right _ hc)
    have hmem : (c, s) ∈ h.maps := hl.maps.mem_iff.2 (List.mem_append_right _ hc)
    have hcond : computeUpperLimitOfArena h.arenaSize ≤ h.tags.size c := by
      rw [hsize]
      exact hle
    have hdel : h.deleteChunk c = ({ h with maps := h.maps.erase (c, s) }, true) := by
      rw [deleteChunk, if_pos hcond, hsize, munmap, if_pos hmem]
    have hnodup := hl.maps_nodup
    have hinj : ∀ r ∈ h.arenaMaps as ++ huges, r ≠ (c, s) ↔ r.1 ≠ c := fun r hr =>
      ⟨fun hne heq => hne (hl.addr_inj hr (List.mem_append_right _ hc) heq), by rintro hne rfl; exact hne rfl⟩
    rw [hdel]
    refine .inl ⟨rfl, rfl, rfl, rfl, as, huges.erase (c, s), hl.dropHuge hc,
      ⟨rfl, fun r => ?_, fun p hu => ?_, fun s' hs' => ?_, fun d k hd => ⟨d, k, hd, le_rfl, le_rfl⟩⟩,
      fun r => ?_, id⟩
    · rw [(hl.maps.nodup_iff.2 hnodup).mem_erase_iff, and_comm]
      exact and_congr_right fun hr => hinj r (hl.maps.mem_iff.1 hr)
    · refine ⟨fun hp => ⟨hp, ?_⟩, And.left⟩
      have := hl.apart_huge (c := p.1) (b := p.2) hp hc
      have := (hl.chunk_le (c := p.1) (b := p.2) hp).1
      rintro rfl
      simp only at *
      omega
    · exact absurd (hl.apart_huge hs' hc) (by have := (hl.chunk_le hs').1; simp only at *; omega)
    · rw [(List.nodup_append.1 hnodup).2.1.mem_erase_iff, and_comm]
      exact and_congr_right fun hr => hinj r (List.mem_append_right _ hr)

@[simp] theorem requested_released {log : List Event} {q : ℕ} :
    requested (.released q :: log) p = requested log p := rfl

@[simp] theorem requested_einval {log : List Event} {q size : ℕ} :
    requested (.einval q size :: log) p = requested log p := rfl

@[simp] theorem gives_released {q : ℕ} : Event.gives p (.released q) = false := rfl

@[simp] theorem gives_einval {q size : ℕ} : Event.gives p (.einval q size) = false := rfl

/-- A header that is taken back is out of the balance. -/
theorem once_forget (hn : h.log.countP (Event.gives p) =
    h.log.count (.released p) + if p ∈ h.headers then 1 else 0) (ho : o.header ∈ h.headers) :
    (h.forget o).log.countP (Event.gives p) =
      (h.forget o).log.count (.released p) + if p ∈ (h.forget o).headers then 1 else 0 := by
  simp only [mem_headers_forget]
  by_cases hp : o.header = p
  · subst hp
    simp [forget, hn, ho]
  · simp [forget, hn, hp, Ne.symm hp]

theorem nodup_headers_forget (hn : h.headers.Nodup) : (h.forget o).headers.Nodup :=
  hn.sublist (List.filter_sublist.map Obj.header)

/-- An object is taken back. -/
theorem Kept.release (hk : Kept build strict arenaSize h as huges) (ho : o.header ∈ h.headers)
    {r : Heap × Bool} (hr : (h.forget o).deleteChunk (o.header - sizeofChunkHeader) = r) :
    ∃ as' huges', Kept build strict arenaSize r.1 as' huges' ∧
      r.1.headers = (h.forget o).headers ∧ (strict → r.2 = true) ∧
      (r.2 = true → Freed h r.1 as as' (o.header - 24)) := by
  obtain ⟨c, s, n, hoc, hc, -, -⟩ := hk.chunk o.header ho
  have hsub : o.header - 24 = c := by omega
  rw [sizeofChunkHeader, hsub] at hr
  have hl : (h.forget o).Laid as huges := hk.laid.client _ _
  have hchunk : ∀ q ∈ (h.forget o).headers, ∃ c' s n, q = c' + 24 ∧ c' ≠ c ∧
      ChunkOf as huges c' s ∧ requested h.log q = some n ∧ n + build.sizeofHeader + 24 ≤ s := by
    intro q hq
    obtain ⟨hq, hne⟩ := mem_headers_forget.1 hq
    obtain ⟨c', s', n', rfl, hrest⟩ := hk.chunk q hq
    exact ⟨c', s', n', rfl, by rintro rfl; exact hne hoc.symm, hrest⟩
  rcases hl.delete hc with ⟨hok, hheader, hlog, hsize, as', huges', hl', hf, hhuge, hal⟩ | ⟨hwhole, hd⟩
  · subst hr
    have hheaders : ((h.forget o).deleteChunk c).1.headers = (h.forget o).headers := by
      rw [headers, hheader, headers]
    have hiff : ∀ c' s', ChunkOf as' huges' c' s' ↔ ChunkOf as huges c' s' ∧ c' ≠ c := by
      intro c' s'
      rw [ChunkOf, ChunkOf, hf.used _ rfl, hhuge, or_and_right]
    rw [hsub]
    refine ⟨as', huges', ⟨?_, hl', ?_, ?_, ?_, fun h8 => hal (hk.aligned h8), ?_, ?_, ?_⟩, hheaders,
      fun _ => hok, fun _ => ⟨hf.arenas, hf.maps, hf.used, hf.free, hf.keep⟩⟩
    · exact hsize.trans hk.size
    · rw [hheaders]
      exact nodup_headers_forget hk.nodup
    · rw [hheaders, hlog]
      intro q hq
      obtain ⟨c', s', n', rfl, hne, hc', hreq, hle⟩ := hchunk q hq
      exact ⟨c', s', n', rfl, (hiff c' s').2 ⟨hc', hne⟩, hreq, hle⟩
    · intro q
      rw [hheaders, hlog]
      exact once_forget (hk.once q) ho
    · rw [hheaders]
      intro hstrict c' s' hc'
      obtain ⟨hc', hne⟩ := (hiff c' s').1 hc'
      exact mem_headers_forget.2 ⟨hk.owned hstrict c' s' hc', by omega⟩
    · intro hstrict c' s' hc'
      have hlimit : ((h.forget o).deleteChunk c).1.limit = h.limit := by
        rw [Heap.limit, hsize]
        rfl
      rw [hlimit]
      exact hk.small hstrict c' s' ((hf.used _ rfl).1 hc').1
    · intro hstrict addr size hmem
      rw [hlog] at hmem
      simp only [forget, List.mem_cons, reduceCtorEq, false_or] at hmem
      exact hk.sound hstrict addr size hmem
  · have hnot : ¬ strict := fun hstrict =>
      absurd (hk.small hstrict c _ hwhole) (lt_irrefl h.limit)
    obtain rfl := hr.symm.trans hd
    refine ⟨as, huges, ⟨hk.size, hl.client _ _, nodup_headers_forget hk.nodup, ?_, ?_, hk.aligned,
      fun hs => absurd hs hnot, fun hs => absurd hs hnot, fun hs => absurd hs hnot⟩, rfl,
      fun hs => absurd hs hnot, by simp⟩
    · intro q hq
      obtain ⟨c', s', n', rfl, -, hc', hreq, hle⟩ := hchunk q hq
      exact ⟨c', s', n', rfl, hc', hreq, hle⟩
    · intro q
      rw [List.countP_cons_of_neg (by simp), List.count_cons_of_ne (by simp)]
      exact once_forget (hk.once q) ho

/-- The marks are nothing to the chunks. -/
theorem Kept.remark (hk : Kept build strict arenaSize h as huges) {f : Obj → Obj}
    (hf : ∀ o, (f o).header = o.header) :
    Kept build strict arenaSize { h with header := h.header.map f } as huges ∧
      ({ h with header := h.header.map f } : Heap).headers = h.headers := by
  have hheaders : ({ h with header := h.header.map f } : Heap).headers = h.headers := by
    rw [headers, headers, List.map_map]
    exact List.map_congr_left fun o _ => hf o
  refine ⟨⟨hk.size, hk.laid.client _ _, ?_, ?_, ?_, hk.aligned, ?_, hk.small, hk.sound⟩, hheaders⟩ <;>
    rw [hheaders]
  · exact hk.nodup
  · exact hk.chunk
  · exact hk.once
  · exact hk.owned

/-- What a collection does to the objects that it comes to: those not marked lose their chunks. -/
structure Swept (h h' : Heap) (as as' : List Arena) (objs : List Obj) : Prop where
  arenas : h'.arenas = h.arenas
  maps : ∀ r, r ∈ h'.maps ↔ r ∈ h.maps ∧ ∀ o ∈ objs, o.marked = false → o.header ≠ r.1 + 24
  free : ∀ o ∈ objs, o.marked = false → ∀ c s, o.header = c + 24 → (c, ⟨s, true⟩) ∈ chunks as →
    ∃ m n, (m, ⟨n, false⟩) ∈ chunks as' ∧ m ≤ c ∧ c + s ≤ m + n
  keep : ∀ d k, (d, ⟨k, false⟩) ∈ chunks as →
    ∃ m n, (m, ⟨n, false⟩) ∈ chunks as' ∧ m ≤ d ∧ d + k ≤ m + n

theorem Swept.marked {as₁ : List Arena} (hs : Swept h h' as as₁ objs) (hm : o.marked = true) :
    Swept h h' as as₁ (o :: objs) := by
  refine ⟨hs.arenas, fun r => ?_, ?_, hs.keep⟩
  · rw [hs.maps, List.forall_mem_cons]
    simp [hm]
  · rw [List.forall_mem_cons]
    exact ⟨fun hn => absurd (hn.symm.trans hm) (by simp), hs.free⟩

theorem Swept.unmarked {h₁ : Heap} {as₁ : List Arena} (hf : Freed h h₁ as as₁ (o.header - 24))
    (hpos : 24 ≤ o.header) (hne : ∀ o' ∈ objs, o'.header ≠ o.header)
    (hs : Swept h₁ h' as₁ as' objs) (hm : o.marked = false) : Swept h h' as as' (o :: objs) := by
  refine ⟨hs.arenas.trans hf.arenas, fun r => ?_, ?_, fun d k hd => ?_⟩
  · rw [hs.maps, hf.maps, List.forall_mem_cons, and_assoc]
    simp only [hm, forall_const]
    refine and_congr_right fun _ => and_congr_left fun _ => not_congr ?_
    omega
  · rw [List.forall_mem_cons]
    refine ⟨fun _ c s hc hmem => ?_, fun o' ho' hm' c s hc hmem => ?_⟩
    · obtain rfl : c = o.header - 24 := by omega
      obtain ⟨d, k, hd, hle, hge⟩ := hf.free s hmem
      obtain ⟨m, n, hmn, hle', hge'⟩ := hs.keep d k hd
      exact ⟨m, n, hmn, by omega, by omega⟩
    · have := hne o' ho'
      refine hs.free o' ho' hm' c s hc ((hf.used _ rfl).2 ⟨hmem, ?_⟩)
      simp only
      omega
  · obtain ⟨d', k', hd', hle, hge⟩ := hf.keep d k hd
    obtain ⟨m, n, hmn, hle', hge'⟩ := hs.keep d' k' hd'
    exact ⟨m, n, hmn, by omega, by omega⟩

theorem sweep_unmarked {h₁ : Heap} {ok : Bool} (hm : o.marked = false)
    (hr : (h.forget o).deleteChunk (o.header - sizeofChunkHeader) = (h₁, ok)) :
    Heap.sweep (o :: objs) h = if ok then Heap.sweep objs h₁ else (h₁, false) := by
  rw [forget] at hr
  simp only [Heap.sweep, hm, Bool.false_eq_true, if_false, hr]
  cases ok <;> rfl

theorem Kept.sweep (hk : Kept build strict arenaSize h as huges)
    (hn : (objs.map Obj.header).Nodup) (hobjs : ∀ o ∈ objs, o.header ∈ h.headers) :
    ∃ as' huges', Kept build strict arenaSize (sweep objs h).1 as' huges' ∧
      (strict → (Heap.sweep objs h).2 = true) ∧
      ((Heap.sweep objs h).2 = true → Swept h (Heap.sweep objs h).1 as as' objs) := by
  induction objs generalizing h as huges with
  | nil =>
    exact ⟨as, huges, hk, fun _ => rfl, fun _ => ⟨rfl, by simp [Heap.sweep], by simp,
      fun d k hd => ⟨d, k, hd, le_rfl, le_rfl⟩⟩⟩
  | cons o objs ih =>
    rw [List.map_cons, List.nodup_cons] at hn
    rw [List.forall_mem_cons] at hobjs
    have hne : ∀ o' ∈ objs, o'.header ≠ o.header := fun o' ho' heq =>
      hn.1 (heq ▸ List.mem_map_of_mem ho')
    rcases hm : o.marked with _ | _
    · generalize hr : (h.forget o).deleteChunk (o.header - sizeofChunkHeader) = r
      obtain ⟨as₁, huges₁, hk₁, hheaders, hok, hf⟩ := hk.release hobjs.1 hr
      obtain ⟨h₁, ok⟩ := r
      rcases ok with _ | _
      · rw [sweep_unmarked hm hr]
        exact ⟨as₁, huges₁, hk₁, hok, by simp⟩
      · rw [sweep_unmarked hm hr, if_pos rfl]
        have hobjs' : ∀ o' ∈ objs, o'.header ∈ h₁.headers := by
          intro o' ho'
          rw [hheaders, mem_headers_forget]
          exact ⟨hobjs.2 o' ho', hne o' ho'⟩
        obtain ⟨as', huges', hk', hok', hs⟩ := ih hk₁ hn.2 hobjs'
        obtain ⟨c, s, n, hc, -⟩ := hk.chunk _ hobjs.1
        exact ⟨as', huges', hk', hok', fun h' => .unmarked (hf rfl) (by omega) hne (hs h') hm⟩
    · obtain ⟨hk₁, hheaders⟩ := hk.remark (f := fun q =>
        if q.header = o.header then { q with marked := false } else q) (fun q => by split_ifs <;> rfl)
      obtain ⟨as', huges', hk', hok', hs⟩ := ih hk₁ hn.2 (by rw [hheaders]; exact hobjs.2)
      have hsweep : Heap.sweep (o :: objs) h = Heap.sweep objs { h with header := h.header.map fun q =>
          if q.header = o.header then { q with marked := false } else q } := by
        rw [Heap.sweep, hm, if_pos rfl]
      rw [hsweep]
      exact ⟨as', huges', hk', hok', fun h' => (⟨(hs h').arenas, (hs h').maps, (hs h').free,
        (hs h').keep⟩ : Swept h _ as as' objs).marked hm⟩

/-- A collection. -/
theorem Kept.deleteGarbage (hk : Kept build strict arenaSize h as huges) :
    ∃ as' huges', Kept build strict arenaSize h.deleteGarbage.1 as' huges' ∧
      (strict → h.deleteGarbage.2 = true) ∧
      (h.deleteGarbage.2 = true → Swept h h.deleteGarbage.1 as as' h.header) :=
  hk.sweep hk.nodup fun _ ho => List.mem_map_of_mem ho

theorem Kept.mark (hk : Kept build strict arenaSize h as huges) (live : ℕ → Bool) :
    Kept build strict arenaSize (h.mark live) as huges :=
  (hk.remark (f := fun o => { o with marked := o.marked || live o.header }) fun _ => rfl).1

/-- The chunks of the objects stay what they are. -/
theorem Kept.carry (hk : Kept build strict arenaSize h as huges) (hl' : h'.Laid as' huges')
    (hsize : h'.arenaSize = h.arenaSize) (hheader : h'.header = h.header) (hlog : h'.log = h.log)
    (hused : ∀ c s, (c, ⟨s, true⟩) ∈ chunks as' ↔ (c, ⟨s, true⟩) ∈ chunks as)
    (hhuge : huges' = huges)
    (hal : arenaSize % 8 = 0 → ∀ p ∈ chunks as', p.2.size % 8 = 0) :
    Kept build strict arenaSize h' as' huges' := by
  subst hhuge
  have hheaders : h'.headers = h.headers := by rw [headers, hheader, headers]
  have hiff : ∀ c s, ChunkOf as' huges' c s ↔ ChunkOf as huges' c s := fun c s =>
    or_congr_left (hused c s)
  refine ⟨hsize.trans hk.size, hl', hheaders ▸ hk.nodup, ?_, ?_, hal, ?_, ?_, ?_⟩
  · rw [hheaders, hlog]
    intro q hq
    obtain ⟨c, s, n, hqc, hc, hrest⟩ := hk.chunk q hq
    exact ⟨c, s, n, hqc, (hiff c s).2 hc, hrest⟩
  · rw [hheaders, hlog]
    exact hk.once
  · rw [hheaders]
    exact fun hstrict c s hc => hk.owned hstrict c s ((hiff c s).1 hc)
  · rw [Heap.limit, hsize]
    exact fun hstrict c s hc => hk.small hstrict c s ((hused c s).1 hc)
  · rw [hlog]
    exact hk.sound

/-- An object gets a chunk. -/
theorem Kept.give (hk : Kept build strict arenaSize h as huges) (hl' : h'.Laid as' huges')
    (hsize : h'.arenaSize = h.arenaSize) (hheader : h'.header = h.header) (hlog : h'.log = h.log)
    (hiff : ∀ c' s', ChunkOf as' huges' c' s' ↔ ChunkOf as huges c' s' ∨ (c' = c ∧ s' = s))
    (hnew : ∀ s', ¬ ChunkOf as huges c s') {n : ℕ} (hfit : n + build.sizeofHeader + 24 ≤ s)
    (hal : arenaSize % 8 = 0 → ∀ p ∈ chunks as', p.2.size % 8 = 0)
    (hsmall : strict → ∀ c s, (c, ⟨s, true⟩) ∈ chunks as' → s < h.limit) :
    Kept build strict arenaSize { h' with
      header := ⟨c + 24, false⟩ :: h'.header, log := .given (c + 24) n :: h'.log } as' huges' := by
  have hfresh : c + 24 ∉ h.headers := by
    intro hmem
    obtain ⟨c', s', n', heq, hc', -⟩ := hk.chunk _ hmem
    obtain rfl : c = c' := by omega
    exact hnew s' hc'
  have hheaders : h'.headers = h.headers := by rw [headers, hheader, headers]
  have hcons : ({ h' with
      header := ⟨c + 24, false⟩ :: h'.header
      log := .given (c + 24) n :: h'.log } : Heap).headers = (c + 24) :: h.headers := by
    rw [← hheaders]
    rfl
  refine ⟨hsize.trans hk.size, hl'.client _ _, ?_, ?_, ?_, hal, ?_, ?_, ?_⟩
  · rw [hcons]
    exact List.nodup_cons.2 ⟨hfresh, hk.nodup⟩
  · rw [hcons, List.forall_mem_cons]
    refine ⟨⟨c, s, n, rfl, (hiff c s).2 (.inr ⟨rfl, rfl⟩), by simp [requested], hfit⟩, ?_⟩
    intro q hq
    obtain ⟨c', s', n', rfl, hc', hreq, hle⟩ := hk.chunk q hq
    refine ⟨c', s', n', rfl, (hiff c' s').2 (.inl hc'), ?_, hle⟩
    have hne : c ≠ c' := by
      rintro rfl
      exact hfresh hq
    simpa [requested, hlog, hne] using hreq
  · intro q
    have honce := hk.once q
    rw [hcons]
    by_cases hq : q = c + 24
    · subst hq
      rw [if_neg hfresh] at honce
      simp [hlog, Event.gives, honce]
    · rw [List.countP_cons_of_neg (by simpa [Event.gives] using Ne.symm hq),
        List.count_cons_of_ne (by simp), hlog, honce]
      simp [hq]
  · rw [hcons]
    intro hstrict c' s' hc'
    rcases (hiff c' s').1 hc' with hc' | ⟨rfl, rfl⟩
    · exact List.mem_cons_of_mem _ (hk.owned hstrict c' s' hc')
    · exact List.mem_cons_self
  · intro hstrict
    change ∀ c s, _ → s < h'.limit
    rw [Heap.limit, hsize]
    exact hsmall hstrict
  · intro hstrict addr size hmem
    rw [hlog] at hmem
    exact hk.sound hstrict addr size (by simpa using hmem)

/-- There are chunks and mappings that account for the heap. -/
def Sound (build : Build) (strict : Prop) (arenaSize : ℕ) (h : Heap) : Prop :=
  ∃ as huges, Kept build strict arenaSize h as huges

theorem Sound.addArena (hs : Sound build strict arenaSize h) (addr : Option ℕ) :
    Sound build strict arenaSize (h.addArena addr) := by
  obtain ⟨as, huges, hk⟩ := hs
  rcases hm : h.mmap addr h.arenaSize with _ | ⟨h₁, arena⟩
  · rw [Heap.addArena, hm]
    exact ⟨as, huges, hk⟩
  · have hl := hk.laid.addArena hm
    have hlimit := hk.laid.limit
    have hsize := hk.size
    rw [Heap.addArena, hm]
    obtain ⟨-, -, -, rfl⟩ := mmap_eq_some hm
    refine ⟨_, huges, hk.carry hl rfl rfl rfl (fun c s => ?_) rfl fun h8 => ?_⟩
    · simp [chunks, Arena.chunks]
    · simp only [chunks, List.flatMap_cons, Arena.chunks, placed_cons, placed_nil,
        List.forall_mem_append, List.forall_mem_singleton]
      exact ⟨by omega, hk.aligned h8⟩

theorem Sound.write (hs : Sound build strict arenaSize h) (header : ℕ) (t : Tags) :
    Sound build strict arenaSize (h.write header t) := by
  obtain ⟨as, huges, hk⟩ := hs
  by_cases hmem : header ∈ h.headers
  · obtain ⟨c, s, n, rfl, hc, -⟩ := hk.chunk _ hmem
    have hsame := h.write_same (c + 24) t
    exact ⟨as, huges, hk.carry (hk.laid.write hc t) hsame.arenaSize hsame.header hsame.log
      (fun _ _ => Iff.rfl) rfl hk.aligned⟩
  · have hwrite : h.write header t = h := if_neg hmem
    rw [hwrite]
    exact ⟨as, huges, hk⟩

theorem Sound.deleteGarbage (hs : Sound build strict arenaSize h) :
    Sound build strict arenaSize h.deleteGarbage.1 := by
  obtain ⟨as, huges, hk⟩ := hs
  obtain ⟨as', huges', hk', -⟩ := hk.deleteGarbage
  exact ⟨as', huges', hk'⟩

theorem Sound.mark (hs : Sound build strict arenaSize h) (live : ℕ → Bool) :
    Sound build strict arenaSize (h.mark live) := by
  obtain ⟨as, huges, hk⟩ := hs
  exact ⟨as, huges, hk.mark live⟩

theorem Sound.perform (hs : Sound build strict arenaSize h) (live : ℕ → Bool) :
    Sound build strict arenaSize (h.perform live).1 := (hs.mark live).deleteGarbage

theorem sizeIncludingHeader_mod (build : Build) (size : ℕ) :
    sizeIncludingHeader build size % 8 = 0 := by
  cases build <;> simp only [sizeIncludingHeader, Build.sizeofHeader, alignment, sizeofChunkHeader] <;>
    omega

/-- The request does not wrap around. -/
def Holdable (build : Build) (size : ℕ) : Prop :=
  size + (alignment - 1) + build.sizeofHeader + sizeofChunkHeader < 2 ^ 64

theorem Holdable.le {size : ℕ} (hf : Holdable build size) :
    size + build.sizeofHeader + 24 ≤ sizeIncludingHeader build size ∧
      sizeIncludingHeader build size < 2 ^ 64 := by
  cases build <;>
    simp only [Holdable, sizeIncludingHeader, Build.sizeofHeader, alignment, sizeofChunkHeader]
      at hf ⊢ <;>
    omega

theorem Build.le_sizeofHeader (build : Build) : 40 ≤ build.sizeofHeader := by
  cases build <;> simp [Build.sizeofHeader]

/-- A chunk is found after some preparation, or none is. -/
theorem Sound.tryAfter {size : ℕ} (hsize : size % 8 = 0) {prepare : List (Heap → Heap × Bool)}
    (hp : ∀ f ∈ prepare, ∀ h, Sound build strict arenaSize h → Sound build strict arenaSize (f h).1)
    (hs : Sound build strict arenaSize h) :
    ((tryAfter size prepare h).2 = none ∧ Sound build strict arenaSize (tryAfter size prepare h).1) ∨
      ∃ h₁ c bin, Sound build strict arenaSize h₁ ∧ c ∈ h₁.bins bin ∧ size ≤ h₁.tags.size c ∧
        tryAfter size prepare h =
          (h₁.handleFreeChunk size c bin, some (c + sizeofChunkHeader)) := by
  induction prepare generalizing h with
  | nil => exact .inl ⟨rfl, hs⟩
  | cons f rest ih =>
    rw [List.forall_mem_cons] at hp
    have hs₁ := hp.1 h hs
    rcases hf : f h with ⟨h₁, ok⟩
    rw [hf] at hs₁
    rcases ok with _ | _
    · rw [Heap.tryAfter, hf]
      exact .inl ⟨rfl, hs₁⟩
    · rcases hc : h₁.findBestChunk size with _ | ⟨c, bin⟩
      · have heq : Heap.tryAfter size (f :: rest) h = Heap.tryAfter size rest h₁ := by
          rw [Heap.tryAfter, hf]
          simp only [hc]
        rw [heq]
        exact ih hp.2 hs₁
      · obtain ⟨as, huges, hk⟩ := hs₁
        have hmin : ∀ bin, ∀ c ∈ h₁.bins bin, 48 ≤ h₁.tags.size c := by
          intro bin c hc
          obtain ⟨s, hmem, -⟩ := (hk.laid.bins bin c).1 hc
          rw [(hk.laid.tagged hmem).size]
          exact (hk.laid.chunk_le hmem).1
        obtain ⟨hmem, hle⟩ := findBestChunk_mem hk.laid.binned hsize hmin hc
        refine .inr ⟨h₁, c, bin, ⟨as, huges, hk⟩, hmem, hle, ?_⟩
        rw [Heap.tryAfter, hf]
        simp only [hc]

theorem Sound.preparations (w : World) :
    ∀ f ∈ preparations w build, ∀ h, Sound build strict arenaSize h →
      Sound build strict arenaSize (f h).1 := by
  intro f hf h hs
  rcases build with _ | _ <;>
    simp only [Heap.preparations, List.mem_cons, List.not_mem_nil, or_false] at hf
  · rcases hf with rfl | rfl | rfl | rfl
    · rcases w.stress with _ | live
      · exact hs
      · exact hs.perform live
    · exact hs.perform w.live
    · exact hs
    · exact hs.addArena w.addr
  · rcases hf with rfl | rfl
    · exact hs
    · exact hs.addArena w.addr

/-- A free chunk is given out to a new object. -/
theorem Kept.take {size n : ℕ} {bin : Bin} (hk : Kept build strict arenaSize h as huges)
    (hc : c ∈ h.bins bin) (hle : size ≤ h.tags.size c) (hmod : size % 8 = 0)
    (hfit : n + build.sizeofHeader + 24 ≤ size) (hgap : strict → size + 48 ≤ h.limit)
    (hr : h.handleFreeChunk size c bin = h') :
    Sound build strict arenaSize { h' with
      header := ⟨c + 24, false⟩ :: h'.header, log := .given (c + 24) n :: h'.log } := by
  subst hr
  have h40 := build.le_sizeofHeader
  obtain ⟨s', hfree, -⟩ := (hk.laid.bins bin c).1 hc
  obtain ⟨as', s, hl', ht⟩ := hk.laid.take hc (by omega) hle
  have hused : ∀ c' s', (c', ⟨s', true⟩) ∈ chunks as' ↔
      (c', ⟨s', true⟩) ∈ chunks as ∨ (c' = c ∧ s' = s) := by
    intro c' s'
    rw [ht.used _ rfl]
    simp
  have hfits := ht.le
  refine ⟨as', huges, hk.give hl' ht.same.arenaSize ht.same.header ht.same.log (fun c' s' => ?_)
    (hk.laid.not_chunkOf hfree) (s := s) (by omega) (fun h8 => ht.aligned hmod (hk.aligned h8)) ?_⟩
  · rw [ChunkOf, ChunkOf, hused, or_right_comm]
  · intro hstrict c' s' hc'
    rcases (hused c' s').1 hc' with hc' | ⟨rfl, rfl⟩
    · exact hk.small hstrict c' s' hc'
    · have := ht.lt
      have := hgap hstrict
      omega

/-- A mapping is given out to a new object. -/
theorem Kept.takeHuge {size n : ℕ} {a : Option ℕ} (hk : Kept build strict arenaSize h as huges)
    (hm : h.mmap a size = some (h', c)) (hle : h.limit ≤ size)
    (hfit : n + build.sizeofHeader + 24 ≤ size) :
    Sound build strict arenaSize { h'.chunkHeaderInit c size false true with
      header := ⟨c + 24, false⟩ :: h'.header, log := .given (c + 24) n :: h'.log } := by
  have hl := hk.laid.addHuge hm hle
  obtain ⟨-, -, hd, rfl⟩ := mmap_eq_some hm
  refine ⟨as, (c, size) :: huges, hk.give hl rfl rfl rfl (fun c' s' => ?_) (fun s' hc' => ?_) hfit
    hk.aligned hk.small⟩
  · rw [ChunkOf, ChunkOf, List.mem_cons, Prod.mk.injEq]
    tauto
  · rcases hc' with hc' | hc'
    · obtain ⟨arena, -, hmap, hge, hle'⟩ := hk.laid.chunk_in hc'
      have hbase : arenaChunks arena = arena + 8 := rfl
      have hlimit := hk.laid.limit
      have hmin := (hk.laid.chunk_le hc').1
      rcases hd _ (hk.laid.maps.mem_iff.2 (List.mem_append_left _ hmap)) with hd | hd <;>
        simp only at * <;> omega
    · have hpos := hk.laid.pos (List.mem_append_right _ hc')
      have hlarge := hk.laid.large
      rcases hd _ (hk.laid.maps.mem_iff.2 (List.mem_append_right _ hc')) with hd | hd <;>
        simp only at * <;> omega

theorem alloc_none {w : World} {size : ℕ}
    (hr : h.allocSize build w (sizeIncludingHeader build size) = (h', none)) :
    (h.alloc build w size).1 = h' := by
  rw [Heap.alloc, hr]

theorem alloc_some {w : World} {size : ℕ}
    (hr : h.allocSize build w (sizeIncludingHeader build size) = (h', some p)) :
    (h.alloc build w size).1 =
      { h' with header := ⟨p, false⟩ :: h'.header, log := .given p size :: h'.log } := by
  rw [Heap.alloc, hr]

/-- An allocation. -/
theorem Sound.alloc {size : ℕ} (hs : Sound build strict arenaSize h) (w : World)
    (hf : Holdable build size)
    (hgap : strict → sizeIncludingHeader build size + minSmallSize ≤
      computeUpperLimitOfArena arenaSize ∨
        computeUpperLimitOfArena arenaSize ≤ sizeIncludingHeader build size) :
    Sound build strict arenaSize (h.alloc build w size).1 := by
  have hmod := sizeIncludingHeader_mod build size
  obtain ⟨hfit, -⟩ := hf.le
  have hsize : h.arenaSize = arenaSize := hs.choose_spec.choose_spec.size
  by_cases hle : computeUpperLimitOfArena h.arenaSize ≤ sizeIncludingHeader build size
  · obtain ⟨as, huges, hk⟩ := hs
    have halloc : h.allocSize build w (sizeIncludingHeader build size) =
        h.allocHuge w (sizeIncludingHeader build size) := if_pos hle
    rcases hm : h.mmap w.addr (sizeIncludingHeader build size) with _ | ⟨h₁, c⟩
    · rw [alloc_none (halloc.trans (by rw [allocHuge, hm]))]
      exact ⟨as, huges, hk⟩
    · rw [alloc_some (halloc.trans (by rw [allocHuge, hm]))]
      exact hk.takeHuge hm hle hfit
  · have halloc : h.allocSize build w (sizeIncludingHeader build size) =
        Heap.tryAfter (sizeIncludingHeader build size) (Heap.preparations w build) h := if_neg hle
    rcases hs.tryAfter hmod (Sound.preparations w) with ⟨hnone, hs'⟩ | ⟨h₁, c, bin, hs₁, hc, hle', heq⟩
    · rw [alloc_none (halloc.trans (Prod.ext rfl hnone))]
      exact hs'
    · rw [alloc_some (halloc.trans heq)]
      obtain ⟨as, huges, hk⟩ := hs₁
      refine hk.take hc hle' hmod hfit (fun hstrict => ?_) rfl
      rw [Heap.limit, hk.size]
      rw [hsize] at hle
      exact (hgap hstrict).resolve_right hle

end Heap

open Heap (sizeIncludingHeader)

/-- The heap after a run of its client. -/
def runFrom (build : Heap.Build) (h : Heap) (ops : List Op) : Heap := ops.foldl (Heap.exec build) h

/-- The requests of the client do not wrap around. -/
def Op.Holdable (build : Heap.Build) : Op → Prop
  | .alloc size _ => Heap.Holdable build size
  | _ => True

/-- A request is for less than an arena by more than the smallest chunk, or for as much. -/
def Op.Apt (build : Heap.Build) (arenaSize : ℕ) : Op → Prop
  | .alloc size _ =>
    sizeIncludingHeader build size + minSmallSize ≤ computeUpperLimitOfArena arenaSize ∨
      computeUpperLimitOfArena arenaSize ≤ sizeIncludingHeader build size
  | _ => True

namespace Heap

theorem Sound.exec {op : Op} (hs : Sound build strict arenaSize h) (hf : op.Holdable build)
    (hgap : strict → op.Apt build arenaSize) : Sound build strict arenaSize (h.exec build op) := by
  cases op with
  | alloc size w => exact hs.alloc w hf hgap
  | mark live => exact hs.mark live
  | deleteGarbage => exact hs.deleteGarbage
  | addArena addr => exact hs.addArena addr
  | write header t => exact hs.write header t

theorem Sound.run {ops : List Op} (hs : Sound build strict arenaSize h)
    (hf : ∀ op ∈ ops, op.Holdable build) (hgap : strict → ∀ op ∈ ops, op.Apt build arenaSize) :
    Sound build strict arenaSize (runFrom build h ops) := by
  induction ops generalizing h with
  | nil => exact hs
  | cons op ops ih =>
    rw [List.forall_mem_cons] at hf
    refine ih (hs.exec hf.1 fun hstrict => hgap hstrict op List.mem_cons_self) hf.2 fun hstrict => ?_
    exact fun op' hop' => hgap hstrict op' (List.mem_cons_of_mem _ hop')

/-- A new heap. -/
theorem Sound.new {a : Option ℕ} (hmin : 80 ≤ arenaSize) (hlt : arenaSize < 2 ^ 64)
    (hn : new arenaSize a = some h) : Sound build strict arenaSize h := by
  have hlimit : computeUpperLimitOfArena arenaSize = arenaSize - 32 := by
    rw [computeUpperLimitOfArena, sizeofArena, sizeofChunkHeader, wordSub_eq (by omega) hlt,
      wordSub_eq (by omega) (by omega)]
    omega
  set h₀ : Heap := ⟨[], arenaSize, fun _ => [], [],
    ⟨fun _ => 0, fun _ => false, fun _ => false, fun _ => 0⟩, [], []⟩ with hh₀
  have hlimit' : h₀.limit = arenaSize - 32 := hlimit
  have hs : Sound build strict arenaSize h₀ := by
    refine ⟨[], [], ⟨rfl, ⟨?_, by omega, by omega, rfl, by simp, ?_, ?_, by simp, by simp [hh₀], ?_⟩,
      by simp [hh₀, headers], by simp [hh₀, headers], by simp [hh₀, headers],
      by simp [chunks], by simp [ChunkOf, chunks], by simp [chunks], by simp [hh₀]⟩⟩
    · rw [hlimit']
      simp only [hh₀]
      omega
    · simp [hh₀, arenaMaps]
    · simp [arenaMaps]
    · simp [hh₀, chunks]
  rw [MarkSweepCompact.new, Option.map_eq_some_iff] at hn
  obtain ⟨⟨h₁, arena⟩, hm, rfl⟩ := hn
  have hadd := hs.addArena a
  have hm' : h₀.mmap a h₀.arenaSize = some (h₁, arena) := hm
  rw [Heap.addArena, hm'] at hadd
  obtain ⟨-, -, -, rfl⟩ := mmap_eq_some hm'
  exact hadd

end Heap

end Yog.MarkSweepCompact
