import Yog.Proofs.Chunks

/-!
# The objects and their mappings

Every object has a chunk: a used one of an arena, or one of its own mapping (`Kept`). A chunk of an
arena is split off so that it is smaller than `limit`, and then `delete` puts it back to the bins;
but a request for a little less than that gets the chunk of an empty arena as it is, and `delete`
takes it for a mapping. Where no request is of that kind, the used chunks and the mappings are those
of the objects, and nothing else is ever unmapped (`Kept.owned`, `Kept.sound`).
-/

namespace Yog.MarkSweepCompact

open Tiling

variable {c s x y size addr : ℕ} {t : Tags} {as : List Arena} {huges : List (ℕ × ℕ)}

instance : Std.Symm Distinct := ⟨fun _ _ => Distinct.symm⟩

namespace Heap

variable {h h' : Heap}

/-- The client and its objects are nothing to the chunks. -/
theorem Laid.client (hl : h.Laid as huges) (header : List Obj) (log : List Event) :
    ({ h with header, log } : Heap).Laid as huges :=
  ⟨hl.limit, hl.lt, hl.large, hl.arenas, hl.laid, hl.maps, hl.distinct, hl.huge, hl.nodup, hl.bins⟩

theorem Laid.pos (hl : h.Laid as huges) {r : ℕ × ℕ} (hr : r ∈ h.arenaMaps as ++ huges) :
    0 < r.2 := by
  have hlimit := hl.limit
  rcases List.mem_append.1 hr with hr | hr
  · obtain ⟨a, -, rfl⟩ := List.mem_map.1 hr
    simp only
    omega
  · have := (hl.huge r hr).2
    have := hl.large
    omega

/-- A chunk of an arena lies in the mapping of the arena. -/
theorem Laid.chunk_in (hl : h.Laid as huges) {b : Block} (hc : (c, b) ∈ chunks as) :
    ∃ arena ∈ h.arenas, (arena, h.arenaSize) ∈ h.arenaMaps as ∧ arenaChunks arena ≤ c ∧
      c + b.size ≤ arenaChunks arena + h.limit := by
  obtain ⟨a, ha, hp⟩ := mem_chunks.1 hc
  have hb := bounds_of_mem_placed hp
  rw [(hl.laid a ha).extent] at hb
  exact ⟨a.addr, hl.arenas ▸ List.mem_map.2 ⟨a, ha, rfl⟩, List.mem_map.2 ⟨a, ha, rfl⟩, hb⟩

/-- A chunk of an arena is apart from the other mappings. -/
theorem Laid.apart_huge (hl : h.Laid as huges) {b : Block} (hc : (c, b) ∈ chunks as)
    {r : ℕ × ℕ} (hr : r ∈ huges) : c + b.size ≤ r.1 ∨ r.1 + r.2 ≤ c := by
  obtain ⟨arena, -, hmap, hle, hge⟩ := hl.chunk_in hc
  have hd := (List.pairwise_append.1 hl.distinct).2.2 _ hmap r hr
  have hlimit := hl.limit
  have hbase : arenaChunks arena = arena + 8 := rfl
  rcases hd with hd | hd <;> simp only at hd <;> omega

/-- The address of a chunk of an arena is not that of a mapping. -/
theorem Laid.not_mapped (hl : h.Laid as huges) {b : Block} (hc : (c, b) ∈ chunks as) :
    (c, b.size) ∉ h.maps := by
  intro hmem
  have hsize := hl.chunk_le hc
  have hlimit := hl.limit
  rcases List.mem_append.1 (hl.maps.mem_iff.1 hmem) with hr | hr
  · obtain ⟨a, -, heq⟩ := List.mem_map.1 hr
    have := congrArg Prod.snd heq
    simp only at this
    omega
  · have := hl.apart_huge hc hr
    simp only at this
    omega

/-- The mappings are at different addresses. -/
theorem Laid.maps_nodup (hl : h.Laid as huges) : (h.arenaMaps as ++ huges).Nodup := by
  refine hl.distinct.imp_of_mem fun {r r'} hr _ hd => ?_
  rintro rfl
  have := hl.pos hr
  rcases hd with hd | hd <;> omega

theorem Laid.addr_inj (hl : h.Laid as huges) {r r' : ℕ × ℕ} (hr : r ∈ h.arenaMaps as ++ huges)
    (hr' : r' ∈ h.arenaMaps as ++ huges) (heq : r.1 = r'.1) : r = r' := by
  by_contra hne
  have hd := hl.distinct.forall hr hr' hne
  have := hl.pos hr
  have := hl.pos hr'
  rcases hd with hd | hd <;> omega

/-- What is written elsewhere. -/
theorem Laid.frame_arenas (hl : h.Laid as huges) (ha : Agree h.tags t x y)
    (hd : ∀ r ∈ h.arenaMaps as, y ≤ r.1 ∨ r.1 + r.2 ≤ x + 1) : ∀ a ∈ as, a.Laid t h.limit := by
  intro a hmem
  have hout := hd (a.addr, h.arenaSize) (List.mem_map.2 ⟨a, hmem, rfl⟩)
  have hlimit := hl.limit
  refine (hl.laid a hmem).frame ha ?_
  simp only at hout
  omega

theorem Laid.frame_huge (hl : h.Laid as huges) (ha : Agree h.tags t x y) {r : ℕ × ℕ}
    (hr : r ∈ huges) (hd : y ≤ r.1 ∨ r.1 + r.2 ≤ x + 1) : t.size r.1 = r.2 := by
  obtain ⟨hsize, hle⟩ := hl.huge r hr
  have hlarge := hl.large
  exact (ha.size r.1 (by omega)).trans hsize

/-- Where `mmap` has found room. -/
theorem mmap_eq_some {a : Option ℕ} (hm : h.mmap a size = some (h', addr)) :
    0 < addr ∧ 0 < size ∧ (∀ r ∈ h.maps, Distinct (addr, size) r) ∧
      h' = { h with maps := (addr, size) :: h.maps } := by
  rw [mmap, Option.bind_eq_some_iff] at hm
  obtain ⟨a, -, hm⟩ := hm
  split_ifs at hm with hc
  cases hm
  exact ⟨hc.1, hc.2.1, hc.2.2, rfl⟩

/-- A chunk gets a mapping of its own. -/
theorem Laid.addHuge (hl : h.Laid as huges) {a : Option ℕ}
    (hm : h.mmap a size = some (h', addr)) (hle : h.limit ≤ size) :
    (h'.chunkHeaderInit addr size false true).Laid as ((addr, size) :: huges) := by
  obtain ⟨hpos, -, hd, rfl⟩ := mmap_eq_some hm
  have hlarge := hl.large
  have hd' : ∀ r ∈ h.arenaMaps as ++ huges, Distinct (addr, size) r := fun r hr =>
    hd r (hl.maps.mem_iff.2 hr)
  have hout : ∀ r ∈ h.arenaMaps as ++ huges, addr + 1 ≤ r.1 ∨ r.1 + r.2 ≤ addr - 1 + 1 := by
    intro r hr
    rcases hd' r hr with hd | hd <;> simp only at hd <;> omega
  set h₂ := chunkHeaderInit { h with maps := (addr, size) :: h.maps } addr size false true with hh₂
  have hagree : Agree h.tags h₂.tags (addr - 1) (addr + 1) := by
    constructor <;> intro a ha <;>
      simp only [hh₂, chunkHeaderInit, Function.update_apply] <;> split_ifs <;>
      first | rfl | omega
  refine ⟨hl.limit, hl.lt, hl.large, hl.arenas,
    hl.frame_arenas hagree fun r hr => hout r (List.mem_append_left _ hr), ?_, ?_, ?_, hl.nodup,
    hl.bins⟩
  · exact (hl.maps.cons (addr, size)).trans List.perm_middle.symm
  · exact (List.perm_middle.symm.pairwise_iff Distinct.symm).1 (.cons hd' hl.distinct)
  · rw [List.forall_mem_cons]
    refine ⟨⟨by simp [hh₂, chunkHeaderInit], hle⟩, fun r hr => ?_⟩
    exact ⟨hl.frame_huge hagree hr (hout r (List.mem_append_right _ hr)), (hl.huge r hr).2⟩

/-- A new arena is one free chunk. -/
theorem Laid.addArena (hl : h.Laid as huges) {a : Option ℕ}
    (hm : h.mmap a h.arenaSize = some (h', addr)) :
    ({ (h'.initArena addr).addChunk (arenaChunks addr) with arenas := addr :: h.arenas } : Heap).Laid
      (⟨addr, [⟨h.limit, false⟩]⟩ :: as) huges := by
  obtain ⟨hpos, -, hd, rfl⟩ := mmap_eq_some hm
  have hlarge := hl.large
  have hlimit := hl.limit
  have hbase : arenaChunks addr = addr + 8 := rfl
  have hd' : ∀ r ∈ h.arenaMaps as ++ huges, Distinct (addr, h.arenaSize) r := fun r hr =>
    hd r (hl.maps.mem_iff.2 hr)
  have hout : ∀ r ∈ h.arenaMaps as ++ huges,
      addr + h.arenaSize ≤ r.1 ∨ r.1 + r.2 ≤ addr + 1 := by
    intro r hr
    rcases hd' r hr with hd | hd <;> simp only at hd <;> omega
  set h₁ : Heap := { h with maps := (addr, h.arenaSize) :: h.maps } with hh₁
  have htags : (h₁.initArena addr).tags = { h.tags with
      prevUsed := Function.update (Function.update h.tags.prevUsed (addr + 8) true)
        (addr + 8 + h.limit) false
      size := Function.update (Function.update h.tags.size (addr + 8) h.limit) (addr + 8 + h.limit) 0
      used := Function.update (Function.update h.tags.used (addr + 8) false) (addr + 8 + h.limit) true
      footer := Function.update h.tags.footer (addr + 8 + h.limit) h.limit } := by
    simp [initArena, chunkHeaderInit, setFooter, hbase, hh₁, Heap.limit]
  have hagree : Agree h.tags (h₁.initArena addr).tags addr (addr + h.arenaSize) := by
    rw [htags]
    constructor <;> intro a ha <;> simp only [Function.update_apply] <;> split_ifs <;>
      first | rfl | omega
  have hbins : ((h₁.initArena addr).addChunk (arenaChunks addr)).bins =
      (h.addToList (findListOfSize h.limit) (addr + 8)).bins := by
    have hsize : (h₁.initArena addr).tags.size (arenaChunks addr) = h.limit := by
      rw [htags, hbase]
      simp only [Function.update_apply]
      rw [if_neg (by omega), if_pos trivial]
    rw [addChunk, hsize]
    rfl
  have hnew : ∀ b, (addr + 8, b) ∉ chunks as := by
    intro b hb
    obtain ⟨arena, -, hmap, hle, hge⟩ := hl.chunk_in hb
    have hbase' : arenaChunks arena = arena + 8 := rfl
    have := (hl.chunk_le hb).1
    rcases hd' _ (List.mem_append_left _ hmap) with hd | hd <;> simp only at hd <;> omega
  refine ⟨hl.limit, hl.lt, hl.large, by simp [hl.arenas], ?_, ?_, ?_, ?_, ?_, ?_⟩
  · rw [List.forall_mem_cons]
    refine ⟨?_, hl.frame_arenas hagree fun r hr => hout r (List.mem_append_left _ hr)⟩
    change Arena.Laid (h₁.initArena addr).tags h.limit _
    rw [htags]
    refine ⟨by simp, by simpa using hlarge, ?_, ?_, ?_, ?_⟩
    · rw [tiles_cons]
      refine ⟨⟨?_, ?_, ?_, fun _ => ?_⟩, by simp [Tiles]⟩ <;>
        simp only [hbase, Function.update_apply] <;> split_ifs <;> first | rfl | omega
    · simp only [hbase, Function.update_apply]
      split_ifs <;> first | rfl | omega
    · simp [hbase]
    · simp [Arena.chunks, hbase]
  · exact hl.maps.cons (addr, h.arenaSize)
  · exact .cons hd' hl.distinct
  · exact fun r hr => ⟨hl.frame_huge hagree hr (hout r (List.mem_append_right _ hr)),
      (hl.huge r hr).2⟩
  · intro bin
    change (((h₁.initArena addr).addChunk (arenaChunks addr)).bins bin).Nodup
    rw [hbins]
    refine nodup_addToList hl.nodup (fun hmem => ?_) bin
    obtain ⟨s, hs, -⟩ := (hl.bins _ _).1 hmem
    exact hnew _ hs
  · intro bin d
    change d ∈ ((h₁.initArena addr).addChunk (arenaChunks addr)).bins bin ↔ _
    rw [hbins, mem_addToList, hl.bins]
    simp only [chunks, List.flatMap_cons, Arena.chunks, placed_cons, placed_nil, List.mem_append,
      List.mem_singleton, Prod.mk.injEq, Block.mk.injEq, and_true, hbase]
    constructor
    · rintro (⟨s, hs, rfl⟩ | ⟨rfl, rfl⟩)
      · exact ⟨s, .inr hs, rfl⟩
      · exact ⟨_, .inl ⟨rfl, rfl⟩, rfl⟩
    · rintro ⟨s, ⟨rfl, rfl⟩ | hs, rfl⟩
      · exact .inr ⟨rfl, rfl⟩
      · exact .inl ⟨s, hs, rfl⟩

/-- A mapping of its own is given back. -/
theorem Laid.dropHuge (hl : h.Laid as huges) (hc : (c, s) ∈ huges) :
    ({ h with maps := h.maps.erase (c, s) } : Heap).Laid as (huges.erase (c, s)) := by
  have hnot : (c, s) ∉ h.arenaMaps as := fun hmem =>
    (List.nodup_append.1 hl.maps_nodup).2.2 _ hmem _ hc rfl
  have herase : (h.arenaMaps as ++ huges).erase (c, s) = h.arenaMaps as ++ huges.erase (c, s) :=
    List.erase_append_right _ hnot
  refine ⟨hl.limit, hl.lt, hl.large, hl.arenas, hl.laid, ?_, ?_, ?_, hl.nodup, hl.bins⟩
  · exact herase ▸ hl.maps.erase (c, s)
  · exact herase ▸ hl.distinct.sublist List.erase_sublist
  · exact fun r hr => hl.huge r (List.mem_of_mem_erase hr)

/-- A used chunk of an arena, or one of its own mapping. -/
def ChunkOf (as : List Arena) (huges : List (ℕ × ℕ)) (c s : ℕ) : Prop :=
  (c, ⟨s, true⟩) ∈ chunks as ∨ (c, s) ∈ huges

theorem Laid.size_chunkOf (hl : h.Laid as huges) (hc : ChunkOf as huges c s) :
    h.tags.size c = s := by
  rcases hc with hc | hc
  · exact (hl.tagged hc).size
  · exact (hl.huge _ hc).1

theorem Laid.not_chunkOf (hl : h.Laid as huges) (hc : (c, ⟨s, false⟩) ∈ chunks as) (s' : ℕ) :
    ¬ ChunkOf as huges c s' := by
  rintro (hs' | hs')
  · have := (hl.tagged hs').used.symm.trans (hl.tagged hc).used
    cases this
  · have := hl.apart_huge hc hs'
    have := (hl.chunk_le hc).1
    have := hl.pos (List.mem_append_right _ hs')
    simp only at *
    omega

theorem write_same (h : Heap) (header : ℕ) (t : Tags) : h.Same (h.write header t) := by
  unfold Heap.write
  split_ifs <;> exact ⟨rfl, rfl, rfl, rfl, rfl⟩

/-- What the client writes to an object stays in its chunk. -/
theorem Laid.write (hl : h.Laid as huges) (hc : ChunkOf as huges c s) (t : Tags) :
    (h.write (c + 24) t).Laid as huges := by
  by_cases hmem : c + 24 ∈ h.header.map Obj.header
  swap
  · rwa [Heap.write, if_neg hmem]
  have hstart : c + 24 - sizeofChunkHeader = c := rfl
  have hsame := h.write_same (c + 24) t
  have hbins : (h.write (c + 24) t).bins = h.bins := by
    rw [Heap.write, if_pos hmem]
  have hagree : 24 ≤ h.tags.size c →
      Agree h.tags (h.write (c + 24) t).tags c (c + h.tags.size c) ∧
        (h.write (c + 24) t).tags.size c = h.tags.size c ∧
        (h.write (c + 24) t).tags.used c = h.tags.used c ∧
        (h.write (c + 24) t).tags.prevUsed (c + h.tags.size c) =
          h.tags.prevUsed (c + h.tags.size c) := by
    intro h24
    rw [Heap.write, if_pos hmem]
    simp only [hstart]
    refine ⟨?_, if_neg (by omega), if_neg (by omega), if_neg (by omega)⟩
    constructor <;> intro a ha <;> exact if_neg (by omega)
  rcases hc with hs | hs
  · have htag := hl.tagged hs
    have hsize := hl.chunk_le hs
    simp only at hsize
    obtain ⟨hagree, hkeep, hused, hprev⟩ := hagree (by rw [htag.size]; simp only; omega)
    rw [htag.size] at hagree hkeep hprev
    obtain ⟨as₁, a, pre, post, as₂, rfl, hcdef⟩ := exists_of_mem_chunks hs
    refine hl.replace hsame hcdef (y := c + s) (by simp) (by omega) hagree rfl (by simp; omega) ?_
      ?_ ?_ ?_ ?_
    · rw [tiles_cons]
      exact ⟨⟨hkeep, hused.trans htag.used, hprev.trans htag.prevUsed, by simp⟩, by simp [Tiles]⟩
    · simp
    · exact .inl (hused.trans htag.used)
    · rw [hbins]
      exact hl.nodup
    · simp [hbins]
  · obtain ⟨hsize, hle⟩ := hl.huge _ hs
    have hlarge := hl.large
    simp only at hsize hle
    obtain ⟨hagree, hkeep, -, -⟩ := hagree (by omega)
    rw [hsize] at hagree
    have hlimit : (h.write (c + 24) t).limit = h.limit := by
      rw [Heap.limit, hsame.arenaSize, Heap.limit]
    have hmaps : (h.write (c + 24) t).arenaMaps as = h.arenaMaps as := by
      simp [arenaMaps, hsame.arenaSize]
    refine ⟨by rw [hlimit, hsame.arenaSize]; exact hl.limit, by rw [hlimit]; exact hl.lt,
      by rw [hlimit]; exact hl.large, by rw [hsame.arenas]; exact hl.arenas, ?_,
      by rw [hsame.maps, hmaps]; exact hl.maps, by rw [hmaps]; exact hl.distinct, ?_,
      by rw [hbins]; exact hl.nodup, by rw [hbins]; exact hl.bins⟩
    · rw [hlimit]
      refine hl.frame_arenas hagree fun r hr => ?_
      rcases (List.pairwise_append.1 hl.distinct).2.2 r hr _ hs with hd | hd <;> simp only at hd <;>
        omega
    · intro r hr
      rw [hlimit]
      refine ⟨?_, (hl.huge r hr).2⟩
      by_cases heq : r = (c, s)
      · subst heq
        exact hkeep.trans hsize
      · refine hl.frame_huge hagree hr ?_
        rcases (List.pairwise_append.1 hl.distinct).2.1.forall hr hs heq with hd | hd <;>
          simp only at hd <;> omega

end Heap

end Yog.MarkSweepCompact
