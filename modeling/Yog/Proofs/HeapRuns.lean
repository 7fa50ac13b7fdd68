import Yog.Proofs.Sweeps

/-!
# The heap in every run

What the invariants of the chunks and of the objects say of a heap that was made and used in any way:
the arenas and the bins, the best chunk for every request, and what becomes of the mappings.
-/

namespace Yog.MarkSweepCompact

open Tiling Heap

variable {c s c' s' arenaSize : ℕ} {as : List Arena} {huges : List (ℕ × ℕ)} {strict : Prop}
  {build : Heap.Build} {h : Heap} {addr : Option ℕ} {ops : List Op}

/-- No room for another arena, and a collection that marks every object. -/
def noRoom : World := ⟨none, none, fun _ => true⟩

theorem exists_new_page : ∃ h, new 4096 (some 4096) = some h := ⟨_, rfl⟩

theorem holdable_hundred : ∀ op ∈ [Op.alloc 100 noRoom, .deleteGarbage],
    op.Holdable .markSweepCompact := by
  simp [Op.Holdable, Heap.Holdable, Build.sizeofHeader, alignment, sizeofChunkHeader]

theorem apart_of_same {a : Arena} (hp : (c, (⟨s, true⟩ : Block)) ∈ a.chunks)
    (hp' : (c', (⟨s', true⟩ : Block)) ∈ a.chunks) (hne : c ≠ c') : c + s ≤ c' ∨ c' + s' ≤ c := by
  have hsymm : Std.Symm Apart := ⟨fun _ _ h => Or.symm h⟩
  exact placed_pairwise.forall hp hp' fun heq => hne (congrArg Prod.fst heq)

/-- The chunks of the objects are apart. -/
theorem Heap.Laid.apart (hl : h.Laid as huges) (hc : ChunkOf as huges c s)
    (hc' : ChunkOf as huges c' s') (hne : c ≠ c') : c + s ≤ c' ∨ c' + s' ≤ c := by
  rcases hc with hc | hc <;> rcases hc' with hc' | hc'
  · obtain ⟨a, ha, hp⟩ := mem_chunks.1 hc
    obtain ⟨a', ha', hp'⟩ := mem_chunks.1 hc'
    by_cases heq : a = a'
    · subst heq
      exact apart_of_same hp hp' hne
    · obtain ⟨as₁, as₂, rfl⟩ := List.append_of_mem ha
      have hmem : a' ∈ as₁ ++ as₂ := by
        simp only [List.mem_append, List.mem_cons] at ha' ⊢
        rcases ha' with h | h | h
        · exact .inl h
        · exact absurd h.symm heq
        · exact .inr h
      have hb := bounds_of_mem_placed hp
      have hb' := bounds_of_mem_placed hp'
      rw [(hl.laid a ha).extent] at hb
      rw [(hl.laid a' ha').extent] at hb'
      have hbase : ∀ addr, arenaChunks addr = addr + 8 := fun _ => rfl
      rw [hbase] at hb hb'
      simp only at hb hb'
      rcases hl.distinct_other hmem with hd | hd <;> omega
  · exact hl.apart_huge hc hc'
  · exact (hl.apart_huge hc' hc).symm
  · exact (List.pairwise_append.1 hl.distinct).2.1.forall hc hc' fun heq => hne (congrArg Prod.fst heq)

/-- What the client may rely on: the arenas are tiled, the bins have the free chunks, and every
object has room for what was asked for, that it shares with no other. -/
structure Tidy (build : Heap.Build) (h : Heap) : Prop where
  laid : ∃ as huges, h.Laid as huges ∧ ∀ p ∈ h.headers, ∃ c s, p = c + 24 ∧ ChunkOf as huges c s
  room : ∀ p ∈ h.headers, ∃ n, requested h.log p = some n ∧
    p + build.sizeofHeader + n ≤ p - 24 + h.tags.size (p - 24)
  apart : ∀ p ∈ h.headers, ∀ q ∈ h.headers, p ≠ q →
    p - 24 + h.tags.size (p - 24) ≤ q - 24 ∨ q - 24 + h.tags.size (q - 24) ≤ p - 24

theorem Heap.Kept.tidy (hk : Kept build strict arenaSize h as huges) : Tidy build h := by
  refine ⟨⟨as, huges, hk.laid, fun p hp => ?_⟩, fun p hp => ?_, fun p hp q hq hne => ?_⟩
  · obtain ⟨c, s, n, hpc, hc, -⟩ := hk.chunk p hp
    exact ⟨c, s, hpc, hc⟩
  · obtain ⟨c, s, n, rfl, hc, hn, hle⟩ := hk.chunk p hp
    refine ⟨n, hn, ?_⟩
    rw [Nat.add_sub_cancel, hk.laid.size_chunkOf hc]
    omega
  · obtain ⟨c, s, n, rfl, hc, -⟩ := hk.chunk p hp
    obtain ⟨c', s', n', rfl, hc', -⟩ := hk.chunk q hq
    rw [Nat.add_sub_cancel, Nat.add_sub_cancel, hk.laid.size_chunkOf hc, hk.laid.size_chunkOf hc']
    exact hk.laid.apart hc hc' (by omega)

/-- The heap is tidy in every run, for requests that do not wrap around. -/
theorem runFrom_tidy (hmin : 80 ≤ arenaSize) (hlt : arenaSize < 2 ^ 64)
    (hnew : new arenaSize addr = some h) (hops : ∀ op ∈ ops, op.Holdable build) :
    Tidy build (runFrom build h ops) := by
  have hsound : Sound build False arenaSize h := .new hmin hlt hnew
  obtain ⟨as, huges, hk⟩ := hsound.run hops False.elim
  exact hk.tidy

theorem runFrom_tidy_page : ∃ h, new 4096 (some 4096) = some h ∧
    Tidy .markSweepCompact (runFrom .markSweepCompact h [.alloc 100 noRoom, .deleteGarbage]) := by
  obtain ⟨h, hnew⟩ := exists_new_page
  exact ⟨h, hnew, runFrom_tidy (by decide) (by decide) hnew holdable_hundred⟩

/-- A request for all of the address space gets the smallest chunk. -/
theorem runFrom_not_tidy : ∃ h, new 4096 (some 4096) = some h ∧
    ¬ Tidy .markSweepCompact (runFrom .markSweepCompact h [.alloc (2 ^ 64 - 1) noRoom]) := by
  refine ⟨_, rfl, fun ht => ?_⟩
  obtain ⟨n, hn, hle⟩ := ht.room 4128 (by decide +kernel)
  have hreq : some (2 ^ 64 - 1) = some n := hn
  cases hreq
  revert hle
  decide +kernel

theorem Heap.Kept.regular (hk : Kept build strict arenaSize h as huges) (h8 : arenaSize % 8 = 0)
    (hmax : h.limit < uintMax) : Regular h := by
  have hfree : ∀ bin, ∀ c ∈ h.bins bin, ∃ s, (c, ⟨s, false⟩) ∈ chunks as ∧ h.tags.size c = s := by
    intro bin c hc
    obtain ⟨s, hmem, -⟩ := (hk.laid.bins bin c).1 hc
    exact ⟨s, hmem, (hk.laid.tagged hmem).size⟩
  refine ⟨hk.laid.binned, fun bin c hc => ?_, fun bin c hc => ?_, fun bin c hc => ?_⟩ <;>
    obtain ⟨s, hmem, hsize⟩ := hfree bin c hc <;> rw [hsize]
  · exact (hk.laid.chunk_le hmem).1
  · exact hk.aligned h8 _ hmem
  · exact (hk.laid.chunk_le hmem).2.trans_lt hmax

/-- In every run, the chunk that is found for a request is the smallest that is large enough. -/
theorem runFrom_bestFit (hmin : 80 ≤ arenaSize) (hlt : arenaSize < 2 ^ 64) (h8 : arenaSize % 8 = 0)
    (hmax : computeUpperLimitOfArena arenaSize < uintMax)
    (hnew : new arenaSize addr = some h) (hops : ∀ op ∈ ops, op.Holdable build) (size : ℕ) :
    BestFit (runFrom build h ops) (sizeIncludingHeader build size) := by
  have hsound : Sound build False arenaSize h := .new hmin hlt hnew
  obtain ⟨as, huges, hk⟩ := hsound.run hops False.elim
  refine (hk.regular h8 ?_).bestFit (sizeIncludingHeader_mod build size)
  rw [Heap.limit, hk.size]
  exact hmax

theorem runFrom_bestFit_page : ∃ h, new 4096 (some 4096) = some h ∧
    BestFit (runFrom .markSweepCompact h [.alloc 100 noRoom, .deleteGarbage])
      (sizeIncludingHeader .markSweepCompact 200) := by
  obtain ⟨h, hnew⟩ := exists_new_page
  exact ⟨h, hnew, runFrom_bestFit (by decide) (by decide) (by decide) (by decide) hnew
    holdable_hundred 200⟩

/-- In a heap of eight gigabytes no chunk is found, for its only one is larger than `UINT_MAX`. -/
theorem runFrom_not_bestFit : ∃ h, new (2 ^ 33) (some 4096) = some h ∧
    ¬ BestFit (runFrom .markSweepCompact h []) (sizeIncludingHeader .markSweepCompact 0) := by
  refine ⟨_, rfl, fun hbest => ?_⟩
  rw [BestFit] at hbest
  change ∀ bin, _ at hbest
  exact absurd (hbest (.large 31) 4104 (by decide)) (by decide)

/-- The chunk of an object lies in an arena. -/
def Carved (h : Heap) (p arena : ℕ) : Prop :=
  arena ∈ h.arenas ∧ arenaChunks arena ≤ p - 24 ∧
    p - 24 + h.tags.size (p - 24) ≤ arenaChunks arena + h.limit

/-- What is mapped are the arenas and the chunks of objects, nothing else was ever to be unmapped,
and no object has been taken back twice. -/
structure Accounted (h : Heap) : Prop where
  arenas : ∀ arena ∈ h.arenas, (arena, h.arenaSize) ∈ h.maps
  own : ∀ p ∈ h.headers, (p - 24, h.tags.size (p - 24)) ∈ h.maps ∨ ∃ arena, Carved h p arena
  maps : ∀ r ∈ h.maps, r.1 ∈ h.arenas ∧ r.2 = h.arenaSize ∨ r.1 + 24 ∈ h.headers
  sound : ∀ addr size, .einval addr size ∉ h.log
  once : ∀ p, h.log.countP (Event.gives p) =
    h.log.count (.released p) + if p ∈ h.headers then 1 else 0

/-- The objects that are not marked are gone: those with a mapping of their own are unmapped, and
the chunk of another is part of a free chunk of its arena, that is in a bin. -/
structure Collected (h h' : Heap) : Prop where
  arenas : h'.arenas = h.arenas
  maps : ∀ r, r ∈ h'.maps ↔ r ∈ h.maps ∧ ∀ o ∈ h.header, o.marked = false → o.header ≠ r.1 + 24
  binned : ∀ o ∈ h.header, o.marked = false → ∀ arena, Carved h o.header arena →
    ∃ bin, ∃ m ∈ h'.bins bin, arenaChunks arena ≤ m ∧ m ≤ o.header - 24 ∧
      o.header - 24 + h.tags.size (o.header - 24) ≤ m + h'.tags.size m ∧
      m + h'.tags.size m ≤ arenaChunks arena + h.limit

/-- An arena is mapped. -/
theorem Heap.Laid.mem_arenas (hl : h.Laid as huges) {arena : ℕ} (ha : arena ∈ h.arenas) :
    (arena, h.arenaSize) ∈ h.arenaMaps as := by
  rw [← hl.arenas, List.mem_map] at ha
  obtain ⟨a, hmem, rfl⟩ := ha
  exact List.mem_map.2 ⟨a, hmem, rfl⟩

theorem Heap.Kept.accounted (hk : Kept build True arenaSize h as huges) : Accounted h := by
  have hl := hk.laid
  refine ⟨fun arena ha => hl.maps.mem_iff.2 (List.mem_append_left _ (hl.mem_arenas ha)),
    fun p hp => ?_, fun r hr => ?_, hk.sound trivial, hk.once⟩
  · obtain ⟨c, s, n, rfl, hc, -⟩ := hk.chunk p hp
    rw [Nat.add_sub_cancel, hl.size_chunkOf hc]
    rcases hc with hc | hc
    · obtain ⟨arena, ha, -, hle, hge⟩ := hl.chunk_in hc
      refine .inr ⟨arena, ha, hle, ?_⟩
      rw [Nat.add_sub_cancel, hl.size_chunkOf (.inl hc)]
      exact hge
    · exact .inl (hl.maps.mem_iff.2 (List.mem_append_right _ hc))
  · rcases List.mem_append.1 (hl.maps.mem_iff.1 hr) with hr | hr
    · obtain ⟨a, ha, rfl⟩ := List.mem_map.1 hr
      have hmem : a.addr ∈ as.map Arena.addr := List.mem_map_of_mem ha
      rw [hl.arenas] at hmem
      exact .inl ⟨hmem, rfl⟩
    · exact .inr (hk.owned trivial r.1 r.2 (.inr hr))

/-- The chunk of an object in an arena is one of its chunks. -/
theorem Heap.Kept.carved (hk : Kept build strict arenaSize h as huges) {p arena : ℕ}
    (hp : p ∈ h.headers) (hcarved : Carved h p arena) :
    ∃ c s, p = c + 24 ∧ (c, ⟨s, true⟩) ∈ chunks as := by
  obtain ⟨c, s, n, rfl, hc, -⟩ := hk.chunk p hp
  refine ⟨c, s, rfl, hc.resolve_right fun hc' => ?_⟩
  obtain ⟨ha, hle, hge⟩ := hcarved
  rw [Nat.add_sub_cancel] at hle hge
  rw [hk.laid.size_chunkOf hc] at hge
  have hpos := hk.laid.pos (List.mem_append_right _ hc')
  have hlimit := hk.laid.limit
  have hbase : arenaChunks arena = arena + 8 := rfl
  rcases (List.pairwise_append.1 hk.laid.distinct).2.2 _ (hk.laid.mem_arenas ha) _ hc' with hd | hd <;>
    simp only at * <;> omega

theorem Heap.Kept.collected (hk : Kept build True arenaSize h as huges) :
    h.deleteGarbage.2 = true ∧ Collected h h.deleteGarbage.1 := by
  obtain ⟨as', huges', hk', hok, hs⟩ := hk.deleteGarbage
  have hs := hs (hok trivial)
  refine ⟨hok trivial, hs.arenas, hs.maps, fun o ho hm arena hcarved => ?_⟩
  obtain ⟨c, s, hoc, hc⟩ := hk.carved (List.mem_map_of_mem ho) hcarved
  obtain ⟨m, n, hmn, hle, hge⟩ := hs.free o ho hm c s hoc hc
  obtain ⟨arena', ha', -, hle', hge'⟩ := hk'.laid.chunk_in hmn
  obtain ⟨ha, hale, hage⟩ := hcarved
  have hsub : o.header - 24 = c := by omega
  rw [hsub, hk.laid.size_chunkOf (.inl hc)] at hage
  rw [hsub] at hale
  have hlimit : h.deleteGarbage.1.limit = h.limit := by
    rw [Heap.limit, hk'.size, Heap.limit, hk.size]
  have hmin := (hk.laid.chunk_le hc).1
  have hsame : arena' = arena := by
    by_contra hne
    rw [hs.arenas] at ha'
    have hroom := hk.laid.limit
    have hbase : arenaChunks arena = arena + 8 := rfl
    have hbase' : arenaChunks arena' = arena' + 8 := rfl
    rcases (List.pairwise_append.1 hk.laid.distinct).1.forall (hk.laid.mem_arenas ha')
      (hk.laid.mem_arenas ha) (by simpa using hne) with hd | hd <;>
      simp only at * <;> omega
  subst hsame
  have hsize := (hk'.laid.tagged hmn).size
  refine ⟨findListOfSize n, m, (hk'.laid.bins _ _).2 ⟨n, hmn, rfl⟩, ?_⟩
  rw [hsub, hk.laid.size_chunkOf (.inl hc), hsize]
  exact ⟨hle', hle, hge, hlimit ▸ hge'⟩

/-- The arenas are unmapped, each of them once. -/
theorem deleteArenas_eq {arenas : List ℕ} (hmem : ∀ arena ∈ arenas, (arena, h.arenaSize) ∈ h.maps)
    (hn : arenas.Nodup) (hn' : h.maps.Nodup) :
    (deleteArenas arenas h).2 = true ∧ ∀ r, r ∈ (deleteArenas arenas h).1.maps ↔
      r ∈ h.maps ∧ ¬ (r.1 ∈ arenas ∧ r.2 = h.arenaSize) := by
  induction arenas generalizing h with
  | nil => simp [deleteArenas]
  | cons arena arenas ih =>
    rw [List.forall_mem_cons] at hmem
    rw [List.nodup_cons] at hn
    have hmunmap : h.munmap arena h.arenaSize =
        ({ h with maps := h.maps.erase (arena, h.arenaSize) }, true) := if_pos hmem.1
    rw [deleteArenas, hmunmap]
    obtain ⟨hok, hmaps⟩ := ih (h := { h with
        maps := h.maps.erase (arena, h.arenaSize), arenas := arenas }) (fun a ha => by
      rw [hn'.mem_erase_iff]
      refine ⟨fun heq => hn.1 ?_, hmem.2 a ha⟩
      cases heq
      exact ha) hn.2 (hn'.erase _)
    refine ⟨hok, fun r => (hmaps r).trans ?_⟩
    rw [hn'.mem_erase_iff, List.mem_cons]
    constructor
    · rintro ⟨⟨hne, hr⟩, hnot⟩
      refine ⟨hr, ?_⟩
      rintro ⟨heq | hmem', hsize⟩
      · exact hne (Prod.ext heq hsize)
      · exact hnot ⟨hmem', hsize⟩
    · rintro ⟨hr, hnot⟩
      refine ⟨⟨?_, hr⟩, fun hmem' => hnot ⟨.inr hmem'.1, hmem'.2⟩⟩
      rintro rfl
      exact hnot ⟨.inl rfl, rfl⟩

theorem Heap.Laid.nodup_arenas (hl : h.Laid as huges) : h.arenas.Nodup := by
  have hn : (h.arenaMaps as).Nodup := (List.nodup_append.1 hl.maps_nodup).1
  have hmap : h.arenaMaps as = h.arenas.map (·, h.arenaSize) := by
    rw [← hl.arenas, List.map_map]
    rfl
  rw [hmap] at hn
  exact hn.of_map _

/-- Nothing is left mapped but the chunks of marked objects. -/
theorem Heap.Kept.deleted (hk : Kept build True arenaSize h as huges) :
    h.delete.2 = true ∧ ∀ r ∈ h.delete.1.maps, ∃ o ∈ h.header, o.marked = true ∧
      o.header = r.1 + 24 := by
  obtain ⟨as', huges', hk', hok, hs⟩ := hk.deleteGarbage
  have hs := hs (hok trivial)
  rcases hd : h.deleteGarbage with ⟨h', ok⟩
  rw [hd] at hk' hok hs
  obtain rfl : ok = true := hok trivial
  obtain ⟨hok', hmaps⟩ := deleteArenas_eq (fun a ha => hk'.accounted.arenas a ha)
    hk'.laid.nodup_arenas (hk'.laid.maps.nodup_iff.2 hk'.laid.maps_nodup)
  rw [Heap.delete, hd]
  refine ⟨hok', fun r hr => ?_⟩
  obtain ⟨hr, hnot⟩ := (hmaps r).1 hr
  obtain ⟨hr', hun⟩ := (hs.maps r).1 hr
  have hmem : r.1 + 24 ∈ h.headers := by
    refine (hk.accounted.maps r hr').resolve_left fun harena => hnot ?_
    refine ⟨?_, harena.2.trans (hk.size.trans hk'.size.symm)⟩
    change r.1 ∈ h'.arenas
    rw [hs.arenas]
    exact harena.1
  obtain ⟨o, ho, hor⟩ := List.mem_map.1 hmem
  refine ⟨o, ho, ?_, hor⟩
  by_contra hm
  exact hun o ho (by simpa using hm) hor

/-- What is mapped is unmapped again, and what is an arena's goes back to its bins. -/
structure Settled (h : Heap) : Prop where
  accounted : Accounted h
  collected : h.deleteGarbage.2 = true ∧ Collected h h.deleteGarbage.1
  deleted : h.delete.2 = true ∧ ∀ r ∈ h.delete.1.maps, ∃ o ∈ h.header, o.marked = true ∧
    o.header = r.1 + 24

/-- Where no request is for a little less than an arena, no mapping is lost and nothing else is
unmapped, in every run, in a collection behind it and when the heap is deleted there. -/
theorem runFrom_settled (hmin : 80 ≤ arenaSize) (hlt : arenaSize < 2 ^ 64)
    (hnew : new arenaSize addr = some h) (hops : ∀ op ∈ ops, op.Holdable build)
    (hgap : ∀ op ∈ ops, op.Apt build arenaSize) : Settled (runFrom build h ops) := by
  have hsound : Sound build True arenaSize h := .new hmin hlt hnew
  obtain ⟨as, huges, hk⟩ := hsound.run hops fun _ => hgap
  exact ⟨hk.accounted, hk.collected, hk.deleted⟩

theorem runFrom_settled_page : ∃ h, new 4096 (some 4096) = some h ∧
    Settled (runFrom .markSweepCompact h [.alloc 100 noRoom, .deleteGarbage]) := by
  obtain ⟨h, hnew⟩ := exists_new_page
  refine ⟨h, hnew, runFrom_settled (by decide) (by decide) hnew holdable_hundred ?_⟩
  simp only [List.forall_mem_cons, List.not_mem_nil]
  exact ⟨.inl (by decide), trivial, by simp⟩

/-- The chunk of an empty arena goes to an object that is a little smaller, and cannot be taken back
from it. -/
theorem runFrom_not_settled : ∃ h, new 4096 (some 4096) = some h ∧
    ¬ Settled (runFrom .markSweepCompact h [.alloc 3960 noRoom]) := by
  refine ⟨_, rfl, fun hs => ?_⟩
  have hok := hs.collected.1
  revert hok
  decide +kernel

/-- Every arena is one free chunk, and nothing else is mapped. -/
def Whole (h : Heap) : Prop := h.Laid (h.arenas.map fun arena => ⟨arena, [⟨h.limit, false⟩]⟩) []

theorem Heap.Kept.whole (hk : Kept build True arenaSize h as huges) (hnil : h.headers = []) :
    Whole h := by
  have hl := hk.laid
  have hnone : ∀ c s, ¬ ChunkOf as huges c s := fun c s hc => by
    simpa [hnil] using hk.owned trivial c s hc
  have hchunk : ∀ a ∈ as, (⟨a.addr, [⟨h.limit, false⟩]⟩ : Arena) = a := by
    rintro ⟨addr, blocks⟩ ha
    obtain ⟨hextent, -, htiles, -, -, hcoalesced⟩ := hl.laid _ ha
    have hlarge := hl.large
    have hfree : ∀ p ∈ Arena.chunks ⟨addr, blocks⟩, p.2.used = false := by
      rintro ⟨c, s, _ | _⟩ hp
      · rfl
      · exact absurd (.inl (mem_chunks.2 ⟨_, ha, hp⟩)) (hnone c s)
    match blocks with
    | [] =>
      have hzero : 0 = h.limit := hextent
      omega
    | [⟨s, u⟩] =>
      obtain rfl : s = h.limit := hextent
      obtain rfl : u = false := hfree _ List.mem_cons_self
      rfl
    | b :: b' :: rest =>
      have hused := hcoalesced _ List.mem_cons_self (hfree _ List.mem_cons_self)
      rw [(tiles_cons.1 (tiles_cons.1 htiles).2).1.used,
        hfree _ (List.mem_cons_of_mem _ List.mem_cons_self)] at hused
      cases hused
  have has : h.arenas.map (fun arena => (⟨arena, [⟨h.limit, false⟩]⟩ : Arena)) = as := by
    rw [← hl.arenas, List.map_map]
    exact (List.map_congr_left hchunk).trans as.map_id
  obtain rfl : huges = [] := List.eq_nil_iff_forall_not_mem.2 fun r hr => hnone _ _ (.inr hr)
  rwa [Whole, has]

/-- In every run, the chunks of a heap that has no objects left are merged again. -/
theorem runFrom_whole (hmin : 80 ≤ arenaSize) (hlt : arenaSize < 2 ^ 64)
    (hnew : new arenaSize addr = some h) (hops : ∀ op ∈ ops, op.Holdable build)
    (hgap : ∀ op ∈ ops, op.Apt build arenaSize) (hnil : (runFrom build h ops).headers = []) :
    Whole (runFrom build h ops) := by
  have hsound : Sound build True arenaSize h := .new hmin hlt hnew
  obtain ⟨as, huges, hk⟩ := hsound.run hops fun _ => hgap
  exact hk.whole hnil

theorem runFrom_whole_page : ∃ h, new 4096 (some 4096) = some h ∧
    Whole (runFrom .markSweepCompact h [.alloc 100 noRoom, .deleteGarbage]) := by
  obtain ⟨h, hnew⟩ := exists_new_page
  refine ⟨h, hnew, runFrom_whole (by decide) (by decide) hnew holdable_hundred ?_ ?_⟩
  · simp only [List.forall_mem_cons, List.not_mem_nil]
    exact ⟨.inl (by decide), trivial, by simp⟩
  · cases hnew
    decide +kernel

end Yog.MarkSweepCompact
