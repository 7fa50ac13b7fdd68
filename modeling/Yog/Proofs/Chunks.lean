import Yog.Proofs.Bins

/-!
# The chunks of the arenas

Every arena is tiled by chunks, each with its header, its footer where it is free, and the flag in
the header behind it; no two free chunks are neighbours, and a free chunk is in the bin of its size
and in no other (`Laid`). A chunk is taken out of a free one and given back by changes of the tags
within one stretch of one arena: `Laid.replace` says what such a change has to leave there, and
everything else is framed.
-/

namespace Yog.MarkSweepCompact

open Tiling

/-- An arena with its chunks. -/
structure Arena where
  addr : ℕ
  blocks : List Block
  deriving DecidableEq

/-- The chunks of an arena with their addresses. -/
def Arena.chunks (a : Arena) : List (ℕ × Block) := placed (arenaChunks a.addr) a.blocks

def chunks (as : List Arena) : List (ℕ × Block) := as.flatMap Arena.chunks

/-- The chunks tile the arena between its head and its sentinel, and free ones are apart. -/
structure Arena.Laid (t : Tags) (limit : ℕ) (a : Arena) : Prop where
  extent : extent Block.size a.blocks = limit
  min : ∀ b ∈ a.blocks, 48 ≤ b.size
  tiles : Tiles t (arenaChunks a.addr) a.blocks
  first : t.prevUsed (arenaChunks a.addr) = true
  last : t.used (arenaChunks a.addr + limit) = true
  coalesced : ∀ p ∈ a.chunks, p.2.used = false → t.used (p.1 + p.2.size) = true

/-- Two mappings have nothing in common. -/
def Distinct (r r' : ℕ × ℕ) : Prop := r.1 + r.2 ≤ r'.1 ∨ r'.1 + r'.2 ≤ r.1

namespace Heap

/-- The largest chunk of an arena. -/
def limit (h : Heap) : ℕ := computeUpperLimitOfArena h.arenaSize

/-- The mappings of the arenas. -/
def arenaMaps (h : Heap) (as : List Arena) : List (ℕ × ℕ) := as.map fun a => (a.addr, h.arenaSize)

/-- The heap has these arenas and these chunks of their own mapping. -/
structure Laid (h : Heap) (as : List Arena) (huges : List (ℕ × ℕ)) : Prop where
  limit : h.limit + 32 = h.arenaSize
  lt : h.limit < 2 ^ 64
  large : 48 ≤ h.limit
  arenas : as.map Arena.addr = h.arenas
  laid : ∀ a ∈ as, a.Laid h.tags h.limit
  maps : h.maps.Perm (h.arenaMaps as ++ huges)
  distinct : (h.arenaMaps as ++ huges).Pairwise Distinct
  huge : ∀ r ∈ huges, h.tags.size r.1 = r.2 ∧ h.limit ≤ r.2
  nodup : ∀ bin, (h.bins bin).Nodup
  bins : ∀ bin c, c ∈ h.bins bin ↔ ∃ s, (c, ⟨s, false⟩) ∈ chunks as ∧ findListOfSize s = bin

end Heap

variable {t t' : Tags} {limit x y c s : ℕ} {a : Arena} {as as₁ as₂ : List Arena}

theorem Arena.Laid.frame (h : a.Laid t limit) (ha : Agree t t' x y)
    (hd : y ≤ a.addr ∨ a.addr + 8 + limit < x) : a.Laid t' limit := by
  have hbase : arenaChunks a.addr = a.addr + 8 := rfl
  have hext := h.extent
  refine ⟨h.extent, h.min, h.tiles.frame (fun b hb => by have := h.min b hb; omega) (by omega) ha,
    (ha.prevUsed _ (by omega)).trans h.first, (ha.used _ (by omega)).trans h.last,
    fun p hp hfree => ?_⟩
  have := bounds_of_mem_placed hp
  exact (ha.used _ (by omega)).trans (h.coalesced p hp hfree)

/-- The chunk in front of a chunk is used, or a free one that the footer leads to. -/
theorem Arena.Laid.prev {pre post : List Block} {addr : ℕ}
    (h : Arena.Laid t limit ⟨addr, pre ++ post⟩) :
    t.prevUsed (arenaChunks addr + Yog.extent Block.size pre) = true ∨
      ∃ pre' p, pre = pre' ++ [⟨p, false⟩] ∧
        t.prevUsed (arenaChunks addr + Yog.extent Block.size pre) = false ∧
        t.footer (arenaChunks addr + Yog.extent Block.size pre) = p := by
  rcases List.eq_nil_or_concat' pre with rfl | ⟨pre', b, rfl⟩
  · exact .inl (by simpa using h.first)
  · have htag := h.tiles (arenaChunks addr + Yog.extent Block.size pre', b) (by simp)
    have haddr : arenaChunks addr + Yog.extent Block.size pre' + b.size =
        arenaChunks addr + Yog.extent Block.size (pre' ++ [b]) := by simp [add_assoc]
    have hprev := htag.prevUsed
    have hfoot := htag.footer
    rw [haddr] at hprev hfoot
    obtain ⟨p, u⟩ := b
    rcases u with _ | _
    · exact .inr ⟨pre', p, by simp, hprev, hfoot rfl⟩
    · exact .inl hprev

/-- The chunk behind a chunk is used, or a free one. -/
theorem Arena.Laid.next {pre post : List Block} {addr : ℕ}
    (h : Arena.Laid t limit ⟨addr, pre ++ post⟩) :
    t.used (arenaChunks addr + Yog.extent Block.size pre) = true ∨
      ∃ n post', post = ⟨n, false⟩ :: post' ∧
        t.used (arenaChunks addr + Yog.extent Block.size pre) = false ∧
        t.size (arenaChunks addr + Yog.extent Block.size pre) = n := by
  rcases post with _ | ⟨⟨n, u⟩, post'⟩
  · have hext := h.extent
    rw [List.append_nil] at hext
    exact .inl (hext ▸ h.last)
  · have htag := h.tiles (arenaChunks addr + Yog.extent Block.size pre, ⟨n, u⟩) (by simp)
    rcases u with _ | _
    · exact .inr ⟨n, post', rfl, htag.used, htag.size⟩
    · exact .inl htag.used

/-- No two neighbours are free. -/
theorem Arena.Laid.prevUsed_of_free (h : a.Laid t limit) (hc : (c, ⟨s, false⟩) ∈ a.chunks) :
    t.prevUsed c = true := by
  obtain ⟨pre, post, hb, rfl⟩ := exists_of_mem_placed hc
  obtain ⟨addr, blocks⟩ := a
  obtain rfl : blocks = pre ++ ⟨s, false⟩ :: post := hb
  rcases h.prev with hp | ⟨pre', p, rfl, -, -⟩
  · exact hp
  · have hused := h.coalesced (arenaChunks addr + Yog.extent Block.size pre', ⟨p, false⟩)
      (by simp [Arena.chunks]) rfl
    have hfree := (h.tiles _ hc).used
    simp only [extent_append, extent_cons, extent_nil] at hused hfree
    rw [show arenaChunks addr + (Yog.extent Block.size pre' + (p + 0)) =
      arenaChunks addr + Yog.extent Block.size pre' + p by omega] at hfree
    rw [hfree] at hused
    cases hused

/-- Replace the chunks of a stretch of an arena. -/
theorem Arena.Laid.replace {addr : ℕ} {pre mid post mid' : List Block}
    (h : Arena.Laid t limit ⟨addr, pre ++ mid ++ post⟩)
    (hx : x = arenaChunks addr + Yog.extent Block.size pre)
    (hy : y = x + Yog.extent Block.size mid) (hlt : x < y) (ha : Agree t t' x y)
    (hext : Yog.extent Block.size mid' = Yog.extent Block.size mid) (hmin : ∀ b ∈ mid', 48 ≤ b.size)
    (htiles : Tiles t' x mid')
    (hcoal : ∀ p ∈ placed x mid', p.2.used = false → t'.used (p.1 + p.2.size) = true)
    (hfirst : t'.used x = true ∨ t.prevUsed x = true) :
    Arena.Laid t' limit ⟨addr, pre ++ mid' ++ post⟩ := by
  subst hy hx
  have hbase : arenaChunks addr = addr + 8 := rfl
  have hlimit := h.extent
  simp only [extent_append] at hlimit
  have hpos : ∀ b ∈ pre ++ mid ++ post, 0 < b.size := fun b hb => by
    have := h.min b hb
    omega
  refine ⟨?_, ?_, h.tiles.replace hpos htiles hext ha, ?_, ?_, ?_⟩
  · simpa [hext, add_assoc] using hlimit
  · intro b hb
    simp only [List.mem_append] at hb
    rcases hb with (hb | hb) | hb
    · exact h.min b (by simp [hb])
    · exact hmin b hb
    · exact h.min b (by simp [hb])
  · exact (ha.prevUsed _ (.inl (Nat.le_add_right _ _))).trans h.first
  · exact (ha.used _ (.inr (by change _ ≤ arenaChunks addr + limit; omega))).trans h.last
  · have hold := h.coalesced
    simp only [Arena.chunks, placed_append, extent_append, hext, List.mem_append] at hold ⊢
    rintro p ((hp | hp) | hp) hfree
    · have hb := bounds_of_mem_placed hp
      rcases hb.2.eq_or_lt with heq | hlt
      · rw [heq]
        refine hfirst.elim id fun hprev => ?_
        have htag := (h.tiles p (by simp [hp])).prevUsed
        rw [heq, hprev, hfree] at htag
        cases htag
      · exact (ha.used _ (.inl hlt)).trans (hold p (.inl (.inl hp)) hfree)
    · exact hcoal p hp hfree
    · have hb := bounds_of_mem_placed hp
      exact (ha.used _ (.inr (by omega))).trans (hold p (.inr hp) hfree)

theorem Distinct.symm {r r' : ℕ × ℕ} (h : Distinct r r') : Distinct r' r := Or.symm h

/-- All that a change of chunks leaves as it is. -/
structure Heap.Same (h h' : Heap) : Prop where
  arenas : h'.arenas = h.arenas
  arenaSize : h'.arenaSize = h.arenaSize
  header : h'.header = h.header
  maps : h'.maps = h.maps
  log : h'.log = h.log

theorem Heap.Same.trans {h h' h'' : Heap} (hs : h.Same h') (hs' : h'.Same h'') : h.Same h'' :=
  ⟨hs'.arenas.trans hs.arenas, hs'.arenaSize.trans hs.arenaSize, hs'.header.trans hs.header,
    hs'.maps.trans hs.maps, hs'.log.trans hs.log⟩

theorem mem_chunks {p : ℕ × Block} : p ∈ chunks as ↔ ∃ a ∈ as, p ∈ a.chunks := List.mem_flatMap

theorem mem_chunks_split {p : ℕ × Block} {addr : ℕ} {pre mid post : List Block}
    (hx : x = arenaChunks addr + extent Block.size pre) (hy : y = x + extent Block.size mid) :
    p ∈ chunks (as₁ ++ ⟨addr, pre ++ mid ++ post⟩ :: as₂) ↔
      (p ∈ chunks (as₁ ++ as₂) ∨ p ∈ placed (arenaChunks addr) pre ∨ p ∈ placed y post) ∨
        p ∈ placed x mid := by
  subst hy hx
  simp only [chunks, Arena.chunks, List.flatMap_append, List.flatMap_cons, placed_append,
    extent_append, List.mem_append, add_assoc]
  tauto

namespace Heap

variable {h h' : Heap} {huges : List (ℕ × ℕ)} {addr : ℕ} {pre mid post mid' : List Block}

theorem Laid.arena (hl : h.Laid (as₁ ++ a :: as₂) huges) : a.Laid h.tags h.limit :=
  hl.laid a (by simp)

/-- An arena is apart from every other mapping. -/
theorem Laid.distinct_arena (hl : h.Laid (as₁ ++ a :: as₂) huges) :
    ∀ r ∈ h.arenaMaps (as₁ ++ as₂) ++ huges, Distinct (a.addr, h.arenaSize) r := by
  have hperm : (h.arenaMaps (as₁ ++ a :: as₂) ++ huges).Perm
      ((a.addr, h.arenaSize) :: (h.arenaMaps (as₁ ++ as₂) ++ huges)) := by
    simp only [arenaMaps, List.map_append, List.map_cons, List.append_assoc, List.cons_append]
    exact List.perm_middle
  have hd := (hperm.pairwise_iff Distinct.symm).1 hl.distinct
  exact (List.pairwise_cons.1 hd).1

theorem Laid.distinct_other (hl : h.Laid (as₁ ++ a :: as₂) huges) {a' : Arena}
    (ha' : a' ∈ as₁ ++ as₂) :
    a.addr + 8 + h.limit < a'.addr ∨ a'.addr + 8 + h.limit < a.addr := by
  have := hl.distinct_arena (a'.addr, h.arenaSize)
    (List.mem_append_left _ (List.mem_map.2 ⟨a', ha', rfl⟩))
  have hlimit := hl.limit
  rcases this with hd | hd <;> simp only at hd <;> omega

/-- A chunk that is not of a stretch starts outside of it. -/
theorem Laid.outside (hl : h.Laid (as₁ ++ ⟨addr, pre ++ mid ++ post⟩ :: as₂) huges)
    (hx : x = arenaChunks addr + extent Block.size pre) (hy : y = x + extent Block.size mid)
    {p : ℕ × Block} (hp : p ∈ chunks (as₁ ++ as₂) ∨ p ∈ placed (arenaChunks addr) pre ∨
      p ∈ placed y post) : p.1 + p.2.size ≤ x ∨ y ≤ p.1 := by
  have hbase : arenaChunks addr = addr + 8 := rfl
  rcases hp with hp | hp | hp
  · obtain ⟨a', ha', hp⟩ := mem_chunks.1 hp
    have hb := bounds_of_mem_placed hp
    have hext := hl.arena.extent
    have hext' := (hl.laid a' (by
      rcases List.mem_append.1 ha' with h | h <;> simp [h])).extent
    have hbase' : arenaChunks a'.addr = a'.addr + 8 := rfl
    simp only [extent_append] at hext
    rcases hl.distinct_other ha' with hd | hd <;> simp only at hd <;> omega
  · have hb := bounds_of_mem_placed hp
    omega
  · exact .inr (bounds_of_mem_placed hp).1

/-- A stretch of an arena gets other chunks. -/
theorem Laid.replace (hl : h.Laid (as₁ ++ ⟨addr, pre ++ mid ++ post⟩ :: as₂) huges)
    (hs : h.Same h') (hx : x = arenaChunks addr + extent Block.size pre)
    (hy : y = x + extent Block.size mid) (hlt : x < y) (ha : Agree h.tags h'.tags x y)
    (hext : extent Block.size mid' = extent Block.size mid) (hmin : ∀ b ∈ mid', 48 ≤ b.size)
    (htiles : Tiles h'.tags x mid')
    (hcoal : ∀ p ∈ placed x mid', p.2.used = false → h'.tags.used (p.1 + p.2.size) = true)
    (hfirst : h'.tags.used x = true ∨ h.tags.prevUsed x = true)
    (hnodup : ∀ bin, (h'.bins bin).Nodup)
    (hbins : ∀ bin c, c ∈ h'.bins bin ↔
      (c ∈ h.bins bin ∧ ∀ s, (c, ⟨s, false⟩) ∉ placed x mid) ∨
        ∃ s, (c, ⟨s, false⟩) ∈ placed x mid' ∧ findListOfSize s = bin) :
    h'.Laid (as₁ ++ ⟨addr, pre ++ mid' ++ post⟩ :: as₂) huges := by
  have hlimit : h'.limit = h.limit := by rw [Heap.limit, hs.arenaSize, Heap.limit]
  have hmaps : h'.arenaMaps (as₁ ++ ⟨addr, pre ++ mid' ++ post⟩ :: as₂) =
      h.arenaMaps (as₁ ++ ⟨addr, pre ++ mid ++ post⟩ :: as₂) := by
    simp [arenaMaps, hs.arenaSize]
  have hbase : arenaChunks addr = addr + 8 := rfl
  have hlen := hl.arena.extent
  simp only [extent_append] at hlen
  have hsize := hl.limit
  refine ⟨by rw [hlimit, hs.arenaSize]; exact hl.limit, by rw [hlimit]; exact hl.lt,
    by rw [hlimit]; exact hl.large, ?_, ?_,
    by rw [hs.maps, hmaps]; exact hl.maps, by rw [hmaps]; exact hl.distinct, ?_, hnodup, ?_⟩
  · rw [hs.arenas, ← hl.arenas]
    simp
  · rw [hlimit]
    intro a' ha'
    by_cases hmem : a' ∈ as₁ ++ as₂
    · refine (hl.laid a' (by
        rcases List.mem_append.1 hmem with h | h <;> simp [h])).frame ha ?_
      rcases hl.distinct_other hmem with hd | hd <;> simp only at hd <;> omega
    · simp only [List.mem_append, List.mem_cons, not_or] at ha' hmem
      obtain rfl := (ha'.resolve_left hmem.1).resolve_right hmem.2
      exact hl.arena.replace hx hy hlt ha hext hmin htiles hcoal hfirst
  · intro r hr
    obtain ⟨hsz, hge⟩ := hl.huge r hr
    rw [hlimit]
    refine ⟨(ha.size r.1 ?_).trans hsz, hge⟩
    have hlarge := hl.large
    have hd := hl.distinct_arena r (List.mem_append_right _ hr)
    rcases hd with hd | hd <;> simp only at hd <;> omega
  · intro bin c
    have hy' : y = x + extent Block.size mid' := by rw [hext, hy]
    rw [hbins, hl.bins]
    simp only [mem_chunks_split hx hy, mem_chunks_split hx hy']
    constructor
    · rintro (⟨⟨s, hmem | hmem, hbin⟩, hnot⟩ | ⟨s, hmem, hbin⟩)
      · exact ⟨s, .inl hmem, hbin⟩
      · exact absurd hmem (hnot s)
      · exact ⟨s, .inr hmem, hbin⟩
    · rintro ⟨s, hmem | hmem, hbin⟩
      · refine .inl ⟨⟨s, .inl hmem, hbin⟩, fun s' hs' => ?_⟩
        have hout := hl.outside hx hy hmem
        have hin := bounds_of_mem_placed hs'
        obtain ⟨pre', post', hmid, -⟩ := exists_of_mem_placed hs'
        have := hl.arena.min ⟨s', false⟩ (by simp [hmid])
        have hs48 : 48 ≤ s := by
          rcases hmem with hmem | hmem | hmem
          · obtain ⟨a', ha', hp⟩ := mem_chunks.1 hmem
            obtain ⟨pre', post', hb, -⟩ := exists_of_mem_placed hp
            exact (hl.laid a' (by
              rcases List.mem_append.1 ha' with h | h <;> simp [h])).min ⟨s, false⟩ (by simp [hb])
          · obtain ⟨pre', post', hb, -⟩ := exists_of_mem_placed hmem
            exact hl.arena.min ⟨s, false⟩ (by simp [hb])
          · obtain ⟨pre', post', hb, -⟩ := exists_of_mem_placed hmem
            exact hl.arena.min ⟨s, false⟩ (by simp [hb])
        simp only at hout hin this
        omega
      · exact .inr ⟨s, hmem, hbin⟩

/-- A chunk is in an arena, between other chunks. -/
theorem exists_of_mem_chunks {b : Block} (hc : (c, b) ∈ chunks as) :
    ∃ as₁ addr pre post as₂, as = as₁ ++ ⟨addr, pre ++ [b] ++ post⟩ :: as₂ ∧
      c = arenaChunks addr + extent Block.size pre := by
  obtain ⟨⟨addr, blocks⟩, ha, hp⟩ := mem_chunks.1 hc
  obtain ⟨as₁, as₂, rfl⟩ := List.append_of_mem ha
  obtain ⟨pre, post, hb, hx⟩ := exists_of_mem_placed hp
  refine ⟨as₁, addr, pre, post, as₂, ?_, hx⟩
  simp only at hb
  simp [hb]

theorem Laid.tagged (hl : h.Laid as huges) {b : Block} (hc : (c, b) ∈ chunks as) :
    Tagged h.tags c b := by
  obtain ⟨a, ha, hp⟩ := mem_chunks.1 hc
  exact (hl.laid a ha).tiles _ hp

theorem Laid.chunk_le (hl : h.Laid as huges) {b : Block} (hc : (c, b) ∈ chunks as) :
    48 ≤ b.size ∧ b.size ≤ h.limit := by
  obtain ⟨a, ha, hp⟩ := mem_chunks.1 hc
  have hb := bounds_of_mem_placed hp
  obtain ⟨pre, post, heq, -⟩ := exists_of_mem_placed hp
  have hext := (hl.laid a ha).extent
  refine ⟨(hl.laid a ha).min b (by simp [heq]), ?_⟩
  rw [heq] at hext
  simp only [extent_append, extent_cons] at hext
  omega

theorem Laid.binned (hl : h.Laid as huges) : Binned h := by
  intro bin c hc
  obtain ⟨s, hmem, hbin⟩ := (hl.bins bin c).1 hc
  rw [(hl.tagged hmem).size]
  exact hbin

/-- The list of a size is the only one with the chunk. -/
theorem Laid.mem_bins_iff (hl : h.Laid as huges) (hc : (c, ⟨s, false⟩) ∈ chunks as) {bin : Bin} :
    c ∈ h.bins bin ↔ findListOfSize s = bin := by
  rw [hl.bins]
  constructor
  · rintro ⟨s', hmem, hbin⟩
    obtain rfl : s' = s := (hl.tagged hmem).size.symm.trans (hl.tagged hc).size
    exact hbin
  · exact fun hbin => ⟨s, hc, hbin⟩

theorem wordSub_eq {a b : ℕ} (hle : b ≤ a) (hlt : a < 2 ^ 64) : wordSub a b = a - b := by
  unfold wordSub
  omega

/-- The tags and the bins of a heap that takes a free chunk as it is. -/
theorem handleFreeChunk_whole {S size : ℕ} {bin : Bin} (hS : h.tags.size c = S) (hle : size ≤ S)
    (hlt : S < 2 ^ 64) (hrest : S - size < 48) : h.handleFreeChunk size c bin =
      ((h.deleteFromList bin c).setPrevUsed (c + S) true).setUsed c true := by
  have hmod : wordSub S size = S - size := wordSub_eq hle hlt
  have hsplit : (h.deleteFromList bin c).splitChunk c size = (h.deleteFromList bin c, none) := by
    rw [splitChunk]
    simp only [deleteFromList, hS, hmod]
    exact if_pos hrest
  rw [handleFreeChunk, hsplit]
  simp only [deleteFromList, hS]

theorem handleFreeChunk_split {S size : ℕ} {bin : Bin} (hS : h.tags.size c = S) (hle : size ≤ S)
    (hlt : S < 2 ^ 64) (hrest : 48 ≤ S - size) : h.handleFreeChunk size c bin =
      ((((h.deleteFromList bin c).setSize c size).initFreeChunk (c + size) (S - size)).addChunk
        (c + size)).setUsed c true := by
  have hmod : wordSub S size = S - size := wordSub_eq hle hlt
  have hsplit : (h.deleteFromList bin c).splitChunk c size =
      (((h.deleteFromList bin c).setSize c size).initFreeChunk (c + size) (S - size),
        some (c + size)) := by
    rw [splitChunk]
    simp only [deleteFromList, hS, hmod]
    exact if_neg (not_lt.2 hrest)
  rw [handleFreeChunk, hsplit]

/-- A chunk is taken from its list. -/
theorem mem_deleteFromList {bin bin' : Bin} (hn : (h.bins bin).Nodup) {d : ℕ} :
    d ∈ (h.deleteFromList bin c).bins bin' ↔ d ∈ h.bins bin' ∧ (bin' = bin → d ≠ c) := by
  by_cases hb : bin' = bin
  · subst hb
    simp [deleteFromList, hn.mem_erase_iff, and_comm]
  · simp [deleteFromList, hb]

theorem nodup_deleteFromList {bin : Bin} (hn : ∀ bin, (h.bins bin).Nodup) (bin' : Bin) :
    ((h.deleteFromList bin c).bins bin').Nodup := by
  by_cases hb : bin' = bin
  · subst hb
    simpa [deleteFromList] using (hn bin').erase c
  · simpa [deleteFromList, Function.update_of_ne hb] using hn bin'

theorem mem_addToList {bin bin' : Bin} {d : ℕ} :
    d ∈ (h.addToList bin c).bins bin' ↔ d ∈ h.bins bin' ∨ (bin' = bin ∧ d = c) := by
  by_cases hb : bin' = bin
  · subst hb
    simp [addToList, or_comm]
  · simp [addToList, hb]

theorem nodup_addToList {bin : Bin} (hn : ∀ bin, (h.bins bin).Nodup) (hc : c ∉ h.bins bin)
    (bin' : Bin) : ((h.addToList bin c).bins bin').Nodup := by
  by_cases hb : bin' = bin
  · subst hb
    simpa [addToList] using ⟨hc, hn bin'⟩
  · simpa [addToList, Function.update_of_ne hb] using hn bin'

/-- What a chunk that is given out leaves: the chunk, used, of the size or a little larger. -/
structure Taken (h h' : Heap) (as as' : List Arena) (c size s : ℕ) : Prop where
  same : h.Same h'
  le : size ≤ s
  lt : s < size + 48
  used : ∀ p : ℕ × Block, p.2.used = true → (p ∈ chunks as' ↔ p ∈ chunks as ∨ p = (c, ⟨s, true⟩))
  aligned : size % 8 = 0 → (∀ p ∈ chunks as, p.2.size % 8 = 0) → ∀ p ∈ chunks as', p.2.size % 8 = 0

theorem Laid.take_whole {S size : ℕ} {bin : Bin} (hl : h.Laid as huges) (hc : c ∈ h.bins bin)
    (hS : h.tags.size c = S) (hle : size ≤ S) (hrest : S - size < 48) :
    ∃ as', (h.handleFreeChunk size c bin).Laid as' huges ∧
      Taken h (h.handleFreeChunk size c bin) as as' c size S := by
  obtain ⟨s, hmem, hbin⟩ := (hl.bins bin c).1 hc
  have htag := hl.tagged hmem
  obtain rfl : s = S := htag.size.symm.trans hS
  have hsize := hl.chunk_le hmem
  simp only at hsize
  obtain ⟨as₁, addr, pre, post, as₂, rfl, rfl⟩ := exists_of_mem_chunks hmem
  have hlt := hl.lt
  rw [handleFreeChunk_whole hS hle (by omega) hrest]
  set c := arenaChunks addr + extent Block.size pre with hcdef
  have hsame : h.Same (((h.deleteFromList bin c).setPrevUsed (c + s) true).setUsed c true) :=
    ⟨rfl, rfl, rfl, rfl, rfl⟩
  refine ⟨as₁ ++ ⟨addr, pre ++ [⟨s, true⟩] ++ post⟩ :: as₂, hl.replace hsame hcdef
    (y := c + s) (by simp) (by omega) ?_ (by simp) (by simpa using hsize.1) ?_ ?_ ?_
    (fun bin' => nodup_deleteFromList hl.nodup bin') ?_, hsame, hle, by omega, ?_, ?_⟩
  · constructor <;> intro a ha <;>
      simp only [setUsed, setPrevUsed, deleteFromList, Function.update_apply] <;>
      split_ifs <;> first | rfl | omega
  · rw [tiles_cons]
    refine ⟨⟨hS, ?_, ?_, by simp⟩, by simp [Tiles]⟩ <;> simp [setUsed, setPrevUsed]
  · simp
  · exact .inl (by simp [setUsed])
  · intro bin' d
    change d ∈ (h.deleteFromList bin c).bins bin' ↔ _
    rw [mem_deleteFromList (hl.nodup bin)]
    simp only [placed_cons, placed_nil, List.mem_singleton, Prod.mk.injEq, Block.mk.injEq,
      Bool.false_eq_true, and_false, false_and, exists_false, or_false, and_true]
    refine and_congr_right fun hd => ⟨?_, ?_⟩
    · rintro hne s' ⟨rfl, -⟩
      exact hne (((hl.mem_bins_iff hmem).1 hd).symm.trans hbin) rfl
    · rintro hne - rfl
      exact hne s ⟨rfl, rfl⟩
  · rintro ⟨d, b⟩ hu
    simp only at hu
    rw [mem_chunks_split hcdef rfl, mem_chunks_split hcdef rfl]
    simp only [placed_cons, placed_nil, List.mem_singleton, Prod.mk.injEq, extent_cons, extent_nil]
    refine ⟨fun hp => hp.imp_left .inl, fun hp => ?_⟩
    rcases hp with (hp | ⟨rfl, rfl⟩) | hp
    · exact .inl hp
    · cases hu
    · exact .inr hp
  · intro hmod hall p hp
    rw [mem_chunks_split hcdef rfl] at hp
    rcases hp with hp | hp
    · exact hall p ((mem_chunks_split hcdef rfl).2 (.inl (by simpa using hp)))
    · simp only [placed_cons, placed_nil, List.mem_singleton] at hp
      subst hp
      exact hall (c, ⟨s, false⟩) hmem

theorem Laid.take_split {S size : ℕ} {bin : Bin} (hl : h.Laid as huges) (hc : c ∈ h.bins bin)
    (hS : h.tags.size c = S) (h48 : 48 ≤ size) (hle : size ≤ S) (hrest : 48 ≤ S - size) :
    ∃ as', (h.handleFreeChunk size c bin).Laid as' huges ∧
      Taken h (h.handleFreeChunk size c bin) as as' c size size := by
  obtain ⟨s, hmem, hbin⟩ := (hl.bins bin c).1 hc
  have htag := hl.tagged hmem
  obtain rfl : s = S := htag.size.symm.trans hS
  have hsize := hl.chunk_le hmem
  have hbehind := (hl.laid _ (mem_chunks.1 hmem).choose_spec.1).coalesced _
    (mem_chunks.1 hmem).choose_spec.2 rfl
  simp only at hsize hbehind
  obtain ⟨as₁, addr, pre, post, as₂, rfl, rfl⟩ := exists_of_mem_chunks hmem
  have hlt := hl.lt
  rw [handleFreeChunk_split hS hle (by omega) hrest]
  set c := arenaChunks addr + extent Block.size pre with hcdef
  set h' := ((((h.deleteFromList bin c).setSize c size).initFreeChunk (c + size) (s - size)).addChunk
    (c + size)).setUsed c true with hh'
  have hbin' : h'.bins = (((h.deleteFromList bin c).addToList (findListOfSize (s - size))
      (c + size)).bins) := by
    simp [hh', setUsed, addChunk, initFreeChunk, setFooter, chunkHeaderInit, setSize, addToList]
  have hsame : h.Same h' := ⟨rfl, rfl, rfl, rfl, rfl⟩
  have hnew : ∀ bin', c + size ∉ h.bins bin' := by
    intro bin' hd
    obtain ⟨s', hmem', -⟩ := (hl.bins bin' _).1 hd
    rcases (mem_chunks_split hcdef rfl).1 hmem' with hout | hmid
    · have := hl.outside hcdef rfl hout
      simp only [extent_cons, extent_nil] at this
      omega
    · simp only [placed_cons, placed_nil, List.mem_singleton, Prod.mk.injEq] at hmid
      omega
  refine ⟨as₁ ++ ⟨addr, pre ++ [⟨size, true⟩, ⟨s - size, false⟩] ++ post⟩ :: as₂,
    hl.replace hsame hcdef (y := c + s) (by simp) (by omega) ?_ (by simp; omega)
      (by simp; omega) ?_ ?_ ?_ ?_ ?_, hsame, le_rfl, by omega, ?_, ?_⟩
  · constructor <;> intro a ha <;>
      simp only [hh', setUsed, addChunk, initFreeChunk, setFooter, chunkHeaderInit, setSize,
        addToList, deleteFromList, Function.update_apply] <;>
      split_ifs <;> first | rfl | omega
  · rw [tiles_cons, tiles_cons]
    refine ⟨⟨?_, ?_, ?_, by simp⟩, ⟨?_, ?_, ?_, fun _ => ?_⟩, by simp [Tiles]⟩ <;>
      simp only [hh', setUsed, addChunk, initFreeChunk, setFooter, chunkHeaderInit, setSize,
        addToList, deleteFromList, Function.update_apply] <;>
      split_ifs <;> first | rfl | omega | skip
    · rw [show c + size + (s - size) = c + s by omega]
      exact htag.prevUsed
  · rintro p hp hfree
    simp only [placed_cons, placed_nil, List.mem_cons, List.not_mem_nil, or_false] at hp
    rcases hp with rfl | rfl
    · cases hfree
    · simp only [hh', setUsed, addChunk, initFreeChunk, setFooter, chunkHeaderInit, setSize,
        addToList, deleteFromList, Function.update_apply]
      rw [if_neg (by omega), if_neg (by omega), show c + size + (s - size) = c + s by omega]
      exact hbehind
  · exact .inl (by simp [hh', setUsed])
  · intro bin'
    rw [hbin']
    refine nodup_addToList (fun bin => nodup_deleteFromList hl.nodup bin) (fun hd => ?_) bin'
    exact hnew _ ((mem_deleteFromList (hl.nodup bin)).1 hd).1
  · intro bin' d
    rw [hbin', mem_addToList, mem_deleteFromList (hl.nodup bin)]
    simp only [placed_cons, placed_nil, List.mem_cons, Prod.mk.injEq, Block.mk.injEq,
      Bool.false_eq_true, and_false, false_or, List.not_mem_nil, or_false, and_true]
    refine or_congr (and_congr_right fun hd => ⟨?_, ?_⟩) ?_
    · rintro hne s' ⟨rfl, -⟩
      exact hne (((hl.mem_bins_iff hmem).1 hd).symm.trans hbin) rfl
    · rintro hne - rfl
      exact hne s ⟨rfl, rfl⟩
    · constructor
      · rintro ⟨rfl, rfl⟩
        exact ⟨_, ⟨rfl, rfl⟩, rfl⟩
      · rintro ⟨s', ⟨rfl, rfl⟩, rfl⟩
        exact ⟨rfl, rfl⟩
  · rintro ⟨d, b⟩ hu
    simp only at hu
    rw [mem_chunks_split hcdef (y := c + s) (by simp; omega), mem_chunks_split hcdef (y := c + s)
      (by simp)]
    simp only [placed_cons, placed_nil, List.mem_cons, List.not_mem_nil, or_false, Prod.mk.injEq]
    refine ⟨fun hp => ?_, fun hp => ?_⟩
    · rcases hp with hp | ⟨rfl, rfl⟩ | ⟨rfl, rfl⟩
      · exact .inl (.inl hp)
      · exact .inr ⟨rfl, rfl⟩
      · cases hu
    · rcases hp with (hp | ⟨rfl, rfl⟩) | hp
      · exact .inl hp
      · cases hu
      · exact .inr (.inl hp)
  · intro hmod hall p hp
    rw [mem_chunks_split hcdef (y := c + s) (by simp; omega)] at hp
    have hs := hall (c, ⟨s, false⟩) hmem
    simp only at hs
    rcases hp with hp | hp
    · exact hall p ((mem_chunks_split hcdef (y := c + s) (by simp)).2 (.inl hp))
    · simp only [placed_cons, placed_nil, List.mem_cons, List.not_mem_nil, or_false] at hp
      rcases hp with rfl | rfl
      · exact hmod
      · simp only
        omega

/-- A free chunk is given out, for a request that it is large enough for. -/
theorem Laid.take {size : ℕ} {bin : Bin} (hl : h.Laid as huges) (hc : c ∈ h.bins bin)
    (h48 : 48 ≤ size) (hle : size ≤ h.tags.size c) :
    ∃ as' s, (h.handleFreeChunk size c bin).Laid as' huges ∧
      Taken h (h.handleFreeChunk size c bin) as as' c size s := by
  rcases lt_or_ge (h.tags.size c - size) 48 with hrest | hrest
  · obtain ⟨as', hl', ht⟩ := hl.take_whole hc rfl hle hrest
    exact ⟨as', _, hl', ht⟩
  · obtain ⟨as', hl', ht⟩ := hl.take_split hc rfl h48 hle hrest
    exact ⟨as', _, hl', ht⟩

/-- The chunks of a stretch have become one free chunk, that is in no list yet. -/
structure Merged (h h' : Heap) (m : ℕ) (mid : List Block) : Prop where
  same : h.Same h'
  agree : Agree h.tags h'.tags m (m + extent Block.size mid)
  size : h'.tags.size m = extent Block.size mid
  used : h'.tags.used m = false
  footer : h'.tags.footer (m + extent Block.size mid) = extent Block.size mid
  nodup : ∀ bin, (h'.bins bin).Nodup
  bins : ∀ bin d, d ∈ h'.bins bin ↔ d ∈ h.bins bin ∧ ∀ s, (d, ⟨s, false⟩) ∉ placed m mid

/-- The chunk is merged with the one in front of it, if that is free. -/
theorem Laid.freeChunk (hl : h.Laid (as₁ ++ ⟨addr, pre ++ [⟨s, true⟩] ++ post⟩ :: as₂) huges)
    (hc : c = arenaChunks addr + extent Block.size pre) :
    ∃ pre' mid, pre ++ [⟨s, true⟩] = pre' ++ mid ∧
      (h.freeChunk c).2 = arenaChunks addr + extent Block.size pre' ∧
      Merged h (h.freeChunk c).1 (h.freeChunk c).2 mid ∧
      h.tags.prevUsed (h.freeChunk c).2 = true ∧
      ∃ front, mid = front ++ [⟨s, true⟩] ∧ ∀ b ∈ front, b.used = false := by
  have hmem : (c, ⟨s, true⟩) ∈ chunks (as₁ ++ ⟨addr, pre ++ [⟨s, true⟩] ++ post⟩ :: as₂) :=
    (mem_chunks_split hc rfl).2 (.inr (by simp))
  have htag := hl.tagged hmem
  have hsize := hl.chunk_le hmem
  simp only at hsize
  have harena := hl.arena
  rw [List.append_assoc] at harena
  rcases harena.prev with hprev | ⟨pre', p, rfl, hprev, hfoot⟩
  · rw [← hc] at hprev
    have hfree : h.freeChunk c = ((h.setUsed c false).setFooter c s, c) := by
      rw [Heap.freeChunk, if_pos hprev, htag.size]
    rw [hfree]
    refine ⟨pre, [⟨s, true⟩], rfl, hc, ⟨⟨rfl, rfl, rfl, rfl, rfl⟩, ?_, ?_, ?_, ?_, hl.nodup, ?_⟩,
      hprev, [], rfl, by simp⟩
    · constructor <;> intro a ha <;>
        simp only [setFooter, setUsed, htag.size, extent_cons, extent_nil, Function.update_apply]
          at ha ⊢ <;> split_ifs <;> first | rfl | omega
    · simpa [setFooter, setUsed] using htag.size
    · simp [setFooter, setUsed]
    · simp [setFooter, setUsed, htag.size]
    · intro bin d
      simp [setFooter, setUsed]
  · rw [← hc] at hprev hfoot
    simp only [extent_append, extent_cons, extent_nil, add_zero] at hc
    set m := arenaChunks addr + extent Block.size pre' with hm
    have hmemp : (m, ⟨p, false⟩) ∈
        chunks (as₁ ++ ⟨addr, pre' ++ [⟨p, false⟩] ++ [⟨s, true⟩] ++ post⟩ :: as₂) :=
      mem_chunks.2 ⟨_, List.mem_append_right _ List.mem_cons_self, by simp [Arena.chunks, hm]⟩
    have htagp := hl.tagged hmemp
    have hsizep := hl.chunk_le hmemp
    simp only at hsizep
    have hprevp := harena.prevUsed_of_free (c := m) (s := p) (by simp [Arena.chunks, hm])
    have hcm : c - p = m := by omega
    have hfree : h.freeChunk c =
        ((((h.deleteFromList (findListOfSize p) m).setSize m (p + s)).setFooter m (p + s)), m) := by
      rw [Heap.freeChunk, hprev, if_neg (by simp), mergeWithPrevChunk, hfoot, hcm, htag.size]
    rw [hfree]
    refine ⟨pre', [⟨p, false⟩, ⟨s, true⟩], by simp, hm,
      ⟨⟨rfl, rfl, rfl, rfl, rfl⟩, ?_, ?_, ?_, ?_, fun bin => nodup_deleteFromList hl.nodup bin, ?_⟩,
      hprevp, [⟨p, false⟩], by simp, by simp⟩
    · constructor <;> intro a ha <;>
        simp only [setFooter, setSize, deleteFromList, extent_cons, extent_nil,
          Function.update_apply] at ha ⊢ <;> split_ifs <;> first | rfl | omega
    · simp [setFooter, setSize]
    · simpa [setFooter, setSize, deleteFromList] using htagp.used
    · simp [setFooter, setSize]
    · intro bin d
      change d ∈ (h.deleteFromList _ _).bins bin ↔ _
      rw [mem_deleteFromList (hl.nodup _)]
      simp only [placed_cons, placed_nil, List.mem_cons, Prod.mk.injEq, Block.mk.injEq,
        Bool.false_eq_true, and_false, List.not_mem_nil, or_false, and_true]
      refine and_congr_right fun hd => ⟨?_, ?_⟩
      · rintro hne s' ⟨rfl, -⟩
        exact hne ((hl.mem_bins_iff hmemp).1 hd).symm rfl
      · rintro hne - rfl
        exact hne p ⟨rfl, rfl⟩

/-- The free chunk is merged with the one behind it, if that is free. -/
theorem Laid.mergeNext {h' : Heap} {m : ℕ}
    (hl : h.Laid (as₁ ++ ⟨addr, pre ++ mid ++ post⟩ :: as₂) huges)
    (hm : m = arenaChunks addr + extent Block.size pre) (hpos : 0 < extent Block.size mid)
    (hg : Merged h h' m mid) :
    ∃ back post', post = back ++ post' ∧ (∀ b ∈ back, b.used = false) ∧
      Merged h (h'.mergeNext m) m (mid ++ back) ∧
      (h'.mergeNext m).tags.prevUsed (m + extent Block.size (mid ++ back)) = false ∧
      (h'.mergeNext m).tags.used (m + extent Block.size (mid ++ back)) = true := by
  set y := m + extent Block.size mid with hy
  have hend : arenaChunks addr + extent Block.size (pre ++ mid) = y := by
    rw [extent_append, hy, hm, add_assoc]
  rcases hl.arena.next with hused | ⟨k, post', rfl, hfree, hsize⟩
  · rw [hend] at hused
    have hused' : h'.tags.used y = true := (hg.agree.used y (.inr le_rfl)).trans hused
    have hnext : h'.mergeNext m = h'.setPrevUsed y false := by
      rw [Heap.mergeNext, hg.size, ← hy, hused', if_pos rfl]
    rw [hnext]
    refine ⟨[], post, rfl, by simp, ?_, by simp [setPrevUsed, hy], by
      rw [List.append_nil, ← hy]; exact hused'⟩
    rw [List.append_nil]
    refine ⟨hg.same.trans ⟨rfl, rfl, rfl, rfl, rfl⟩, hg.agree.trans ?_, hg.size, hg.used, hg.footer,
      hg.nodup, hg.bins⟩
    constructor <;> intro a ha <;> simp only [setPrevUsed, Function.update_apply]
    split_ifs <;> first | rfl | omega
  · rw [hend] at hfree hsize
    have hmemk : (y, ⟨k, false⟩) ∈ chunks (as₁ ++ ⟨addr, pre ++ mid ++ ⟨k, false⟩ :: post'⟩ :: as₂) :=
      mem_chunks.2 ⟨_, List.mem_append_right _ List.mem_cons_self, by
        simp [Arena.chunks, ← hend, add_assoc]⟩
    have htagk := hl.tagged hmemk
    have hsizek := hl.chunk_le hmemk
    have hbehind := hl.arena.coalesced (y, ⟨k, false⟩) (by
      simp [Arena.chunks, ← hend, add_assoc]) rfl
    have hprev := htagk.prevUsed
    simp only at hsizek hbehind hprev
    have hused' : h'.tags.used y = false := (hg.agree.used y (.inr le_rfl)).trans hfree
    have hsize' : h'.tags.size y = k := (hg.agree.size y (.inr le_rfl)).trans hsize
    have hnext : h'.mergeNext m = (((h'.deleteFromList (findListOfSize k) y).setSize m
        (extent Block.size mid + k)).setFooter m (extent Block.size mid + k)) := by
      rw [Heap.mergeNext, hg.size, ← hy, hused', if_neg (by simp), mergeWithNextChunk, hg.size, ← hy,
        hsize']
    have hext : extent Block.size (mid ++ [⟨k, false⟩]) = extent Block.size mid + k := by simp
    have hyk : m + (extent Block.size mid + k) = y + k := by omega
    have hd : h'.tags.prevUsed (y + k) = false :=
      (hg.agree.prevUsed _ (.inr (by omega))).trans hprev
    have hu : h'.tags.used (y + k) = true := (hg.agree.used _ (.inr (by omega))).trans hbehind
    rw [hnext]
    refine ⟨[⟨k, false⟩], post', rfl, by simp, ⟨hg.same.trans ⟨rfl, rfl, rfl, rfl, rfl⟩,
      (hg.agree.mono le_rfl (by simp)).trans ?_, ?_, ?_, ?_,
      fun bin => nodup_deleteFromList hg.nodup bin, ?_⟩, ?_, ?_⟩
    · constructor <;> intro a ha <;>
        simp only [setFooter, setSize, deleteFromList, hext, hyk, Function.update_apply] at ha ⊢ <;>
        split_ifs <;> first | rfl | omega
    · simp [setFooter, setSize]
    · simpa [setFooter, setSize, deleteFromList] using hg.used
    · simp [setFooter, setSize]
    · intro bin d
      change d ∈ (h'.deleteFromList _ _).bins bin ↔ _
      rw [mem_deleteFromList (hg.nodup _), hg.bins]
      simp only [placed_append, List.mem_append, placed_cons, placed_nil, List.mem_singleton,
        Prod.mk.injEq, Block.mk.injEq, and_true, not_or, ← hy]
      constructor
      · rintro ⟨⟨hd, hn⟩, hne⟩
        refine ⟨hd, fun s' => ⟨hn s', ?_⟩⟩
        rintro ⟨rfl, -⟩
        exact hne ((hl.mem_bins_iff hmemk).1 hd).symm rfl
      · rintro ⟨hd, hn⟩
        refine ⟨⟨hd, fun s' => (hn s').1⟩, ?_⟩
        rintro - rfl
        exact (hn k).2 ⟨rfl, rfl⟩
    · rw [hext, hyk]
      simpa [setFooter, setSize, deleteFromList] using hd
    · rw [hext, hyk]
      simpa [setFooter, setSize, deleteFromList] using hu

/-- What a chunk that is given back leaves: a free chunk that it lies in. -/
structure Returned (h h' : Heap) (as as' : List Arena) (c s : ℕ) : Prop where
  same : h.Same h'
  used : ∀ p : ℕ × Block, p.2.used = true → (p ∈ chunks as' ↔ p ∈ chunks as ∧ p.1 ≠ c)
  free : ∃ m n, (m, ⟨n, false⟩) ∈ chunks as' ∧ m ≤ c ∧ c + s ≤ m + n
  keep : ∀ d k, (d, ⟨k, false⟩) ∈ chunks as →
    ∃ m n, (m, ⟨n, false⟩) ∈ chunks as' ∧ m ≤ d ∧ d + k ≤ m + n
  aligned : (∀ p ∈ chunks as, p.2.size % 8 = 0) → ∀ p ∈ chunks as', p.2.size % 8 = 0

theorem extent_mod {l : List Block} (hl : ∀ b ∈ l, b.size % 8 = 0) :
    extent Block.size l % 8 = 0 := by
  induction l with
  | nil => rfl
  | cons b l ih =>
    rw [List.forall_mem_cons] at hl
    have := ih hl.2
    rw [extent_cons]
    omega

/-- A used chunk of an arena is given back. -/
theorem Laid.put (hl : h.Laid as huges) (hc : (c, ⟨s, true⟩) ∈ chunks as) (hs : s < h.limit) :
    ∃ as', (h.deleteChunk c).2 = true ∧ (h.deleteChunk c).1.Laid as' huges ∧
      Returned h (h.deleteChunk c).1 as as' c s := by
  have htag := hl.tagged hc
  have hsz := hl.chunk_le hc
  simp only at hsz
  obtain ⟨as₁, addr, pre, post, as₂, rfl, hcdef⟩ := exists_of_mem_chunks hc
  obtain ⟨pre', mid, hmid, hm, hg, hprev, front, hfront, hfree⟩ := hl.freeChunk hcdef
  generalize hf : h.freeChunk c = r at hm hg hprev
  obtain ⟨h₁, m⟩ := r
  simp only at hm hg hprev
  rw [hmid] at hl
  have hsmid : s ≤ extent Block.size mid := by
    rw [hfront, extent_append]
    simp
  obtain ⟨back, post', rfl, hback, hg', hbehind, hnext⟩ := hl.mergeNext hm (by omega) hg
  set h₂ := h₁.mergeNext m with hh₂
  set n := extent Block.size (mid ++ back) with hn
  have hmn : extent Block.size mid ≤ n := by simp [hn]
  have hdel : h.deleteChunk c = (h₂.addChunk m, true) := by
    rw [Heap.deleteChunk, htag.size, if_neg (by change ¬ h.limit ≤ s; omega), hf]
  have hshape : pre ++ [⟨s, true⟩] ++ (back ++ post') = pre' ++ (mid ++ back) ++ post' := by
    simp [hmid, ← List.append_assoc]
  rw [hshape] at hc ⊢
  have hl' : h.Laid (as₁ ++ ⟨addr, pre' ++ (mid ++ back) ++ post'⟩ :: as₂) huges := by
    simpa using hl
  have hbins : (h₂.addChunk m).bins = (h₂.addToList (findListOfSize n) m).bins := by
    rw [addChunk, hg'.size]
  have hcm : (c, ⟨s, true⟩) ∈ placed m (mid ++ back) := by
    have : c = m + extent Block.size front := by
      have hlen := congrArg (extent Block.size) hmid
      rw [hfront] at hlen
      simp only [extent_append, extent_cons, extent_nil] at hlen
      omega
    simp [hfront, this]
  have hin := bounds_of_mem_placed hcm
  have hused : ∀ p ∈ placed m (mid ++ back), p.2.used = true → p = (c, ⟨s, true⟩) := by
    rintro ⟨x, b⟩ hp hu
    simp only [hfront, placed_append, placed_cons, placed_nil, List.mem_append,
      List.mem_singleton, extent_append, extent_cons, extent_nil] at hp hcm
    rcases hp with (hp | hp) | hp
    · cases hu.symm.trans (hfree b (exists_mem_placed.2 ⟨x, hp⟩))
    · rcases hcm with (hcm | hcm) | hcm
      · cases hfree _ (exists_mem_placed.2 ⟨c, hcm⟩)
      · rw [hp, hcm]
      · cases hback _ (exists_mem_placed.2 ⟨c, hcm⟩)
    · cases hu.symm.trans (hback b (exists_mem_placed.2 ⟨x, hp⟩))
  rw [hdel]
  have hsame : h.Same (h₂.addChunk m) := hg'.same.trans ⟨rfl, rfl, rfl, rfl, rfl⟩
  have hy : m + n = m + extent Block.size (mid ++ back) := rfl
  have hy' : m + n = m + extent Block.size [(⟨n, false⟩ : Block)] := by simp
  refine ⟨as₁ ++ ⟨addr, pre' ++ [⟨n, false⟩] ++ post'⟩ :: as₂, rfl,
    hl'.replace hsame hm hy (by omega) hg'.agree (by simp [hn]) (by simp; omega) ?_ ?_ (.inr hprev)
      ?_ ?_, hsame, ?_, ?_, ?_, ?_⟩
  · rw [tiles_cons]
    exact ⟨⟨hg'.size, hg'.used, hbehind, fun _ => hg'.footer⟩, by simp [Tiles]⟩
  · intro p hp _
    simp only [placed_cons, placed_nil, List.mem_singleton] at hp
    subst hp
    exact hnext
  · intro bin
    rw [hbins]
    refine nodup_addToList hg'.nodup (fun hd => ?_) bin
    obtain ⟨hd, hnot⟩ := (hg'.bins _ _).1 hd
    obtain ⟨s', hmem', -⟩ := (hl'.bins _ _).1 hd
    rcases (mem_chunks_split hm hy).1 hmem' with hout | hmid'
    · have := hl'.outside hm hy hout
      have := (hl'.chunk_le hmem').1
      simp only at *
      omega
    · exact hnot s' hmid'
  · intro bin d
    rw [hbins, mem_addToList, hg'.bins]
    simp only [placed_cons, placed_nil, List.mem_singleton, Prod.mk.injEq, Block.mk.injEq, and_true]
    refine or_congr_right ⟨?_, ?_⟩
    · rintro ⟨rfl, rfl⟩
      exact ⟨_, ⟨rfl, rfl⟩, rfl⟩
    · rintro ⟨s', ⟨rfl, rfl⟩, rfl⟩
      exact ⟨rfl, rfl⟩
  · intro p hu
    rw [mem_chunks_split hm hy', mem_chunks_split hm hy]
    constructor
    · rintro (hp | hp)
      · refine ⟨.inl hp, ?_⟩
        have hout := hl'.outside hm hy hp
        have hmem' : p ∈ chunks (as₁ ++ ⟨addr, pre' ++ (mid ++ back) ++ post'⟩ :: as₂) :=
          (mem_chunks_split hm hy).2 (.inl hp)
        have := (hl'.chunk_le (c := p.1) (b := p.2) hmem').1
        rintro rfl
        simp only at hin
        omega
      · simp only [placed_cons, placed_nil, List.mem_singleton] at hp
        subst hp
        cases hu
    · rintro ⟨hp | hp, hne⟩
      · exact .inl hp
      · exact absurd (congrArg Prod.fst (hused p hp hu)) hne
  · exact ⟨m, n, (mem_chunks_split hm hy').2 (.inr (by simp)), hin.1, by simpa [hn] using hin.2⟩
  · intro d k hd
    rcases (mem_chunks_split hm hy).1 hd with hout | hmid'
    · exact ⟨d, k, (mem_chunks_split hm hy').2 (.inl hout), le_rfl, le_rfl⟩
    · have hb := bounds_of_mem_placed hmid'
      exact ⟨m, n, (mem_chunks_split hm hy').2 (.inr (by simp)), hb.1, by simpa [hn] using hb.2⟩
  · intro hall p hp
    rcases (mem_chunks_split hm hy').1 hp with hp | hp
    · exact hall p ((mem_chunks_split hm hy).2 (.inl hp))
    · simp only [placed_cons, placed_nil, List.mem_singleton] at hp
      subst hp
      refine extent_mod fun b hb => ?_
      obtain ⟨x, hx⟩ := exists_mem_placed.1 hb
      exact hall (x, b) ((mem_chunks_split hm hy).2 (.inr hx))

end Heap

end Yog.MarkSweepCompact
