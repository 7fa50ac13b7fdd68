import Mathlib.Tactic.Positivity
import Mathlib.Tactic.Ring
import Yog.MarkSweepCompact

/-!
# The best chunk of the free bins

The bins are in the order of the sizes: a larger size is never in an earlier bin
(`computeLargeIndex_mono`). So the first bin with a chunk that is large enough has the best one, and
in a small bin, whose chunks are of one size, it is the first one. That holds as long as the sizes
are multiples of the alignment and less than `UINT_MAX` (`Binned`).
-/

namespace Yog.MarkSweepCompact

variable {size s : ℕ}

theorem computeLargeIndex_eq (size : ℕ) : computeLargeIndex size =
    if size / 256 = 0 then 0 else if 65536 ≤ size / 256 then 31
    else 2 * Nat.log2 (size / 256) + size / 2 ^ (Nat.log2 (size / 256) + 7) % 2 := by
  simp only [computeLargeIndex, largeShift, largeNum, Nat.shiftRight_eq_div_pow]
  rfl

/-- The last bit of the index is the second one of the size. -/
theorem second_bit {x : ℕ} (hx : size / 256 = x) (hpos : x ≠ 0) :
    2 ≤ size / 2 ^ (Nat.log2 x + 7) ∧ size / 2 ^ (Nat.log2 x + 7) < 4 := by
  have hle : 2 ^ Nat.log2 x ≤ x := Nat.log2_self_le hpos
  have hlt : x < 2 ^ (Nat.log2 x + 1) := Nat.lt_log2_self
  rw [Nat.le_div_iff_mul_le (by positivity), Nat.div_lt_iff_lt_mul (by positivity)]
  constructor
  · calc 2 * 2 ^ (Nat.log2 x + 7) = 2 ^ Nat.log2 x * 256 := by ring
      _ ≤ size := by omega
  · calc size < 2 ^ (Nat.log2 x + 1) * 256 := by omega
      _ = 4 * 2 ^ (Nat.log2 x + 7) := by ring

theorem log2_lt {x : ℕ} (hpos : x ≠ 0) (hx : x < 65536) : Nat.log2 x < 16 :=
  (Nat.log2_lt hpos).2 hx

theorem computeLargeIndex_lt (size : ℕ) : computeLargeIndex size < largeNum := by
  rw [computeLargeIndex_eq, largeNum]
  split_ifs with hpos hlt
  · omega
  · omega
  · have := log2_lt hpos (by omega)
    omega

theorem computeLargeIndex_mono (h : size ≤ s) : computeLargeIndex size ≤ computeLargeIndex s := by
  rw [computeLargeIndex_eq, computeLargeIndex_eq]
  by_cases hpos : size / 256 = 0
  · simp [hpos]
  have hle : size / 256 ≤ s / 256 := Nat.div_le_div_right h
  have hpos' : s / 256 ≠ 0 := by omega
  rw [if_neg hpos, if_neg hpos']
  obtain ⟨h2, h4⟩ := second_bit rfl hpos
  obtain ⟨h2', h4'⟩ := second_bit rfl hpos'
  have hk : Nat.log2 (size / 256) ≤ Nat.log2 (s / 256) := by
    rw [Nat.le_log2 hpos']
    exact (Nat.log2_self_le hpos).trans hle
  split_ifs with hlt hlt'
  · omega
  · omega
  · have := log2_lt hpos (by omega)
    omega
  · rcases hk.eq_or_lt with hk | hk
    · rw [hk] at h2 h4 ⊢
      have := Nat.div_le_div_right (c := 2 ^ (Nat.log2 (s / 256) + 7)) h
      omega
    · omega

theorem size2index_eq (size : ℕ) :
    size2index size = if size < 48 then 0 else (size - 48) / 8 := rfl

theorem size2index_mono (h : size ≤ s) : size2index size ≤ size2index s := by
  rw [size2index_eq, size2index_eq]
  split_ifs <;> omega

namespace Heap

variable {h : Heap}

/-- The best chunk of a list: what was best before, or a chunk of the list. -/
theorem bestChunk_some {l : List ℕ} {best : Option ℕ} {bestSize c : ℕ}
    (hc : h.bestChunk size l best bestSize = some c) :
    (best = some c ∧ (∀ c' ∈ l, size ≤ h.tags.size c' → bestSize ≤ h.tags.size c')) ∨
      (c ∈ l ∧ size ≤ h.tags.size c ∧ (h.tags.size c ≠ size → h.tags.size c < bestSize) ∧
        ∀ c' ∈ l, size ≤ h.tags.size c' → h.tags.size c ≤ h.tags.size c') := by
  induction l generalizing best bestSize with
  | nil => exact .inl ⟨hc, by simp⟩
  | cons d l ih =>
    simp only [bestChunk] at hc
    split_ifs at hc with heq hlt
    · cases hc
      exact .inr ⟨List.mem_cons_self, heq.le, fun hne => absurd heq.symm hne,
        fun c' _ hc' => heq ▸ hc'⟩
    · rcases ih hc with ⟨hb, hrest⟩ | ⟨hmem, hsize, hlt', hrest⟩
      · cases hb
        refine .inr ⟨List.mem_cons_self, hlt.1.le, fun _ => hlt.2, ?_⟩
        rw [List.forall_mem_cons]
        exact ⟨fun _ => le_rfl, hrest⟩
      · refine .inr ⟨List.mem_cons_of_mem _ hmem, hsize, fun hne => (hlt' hne).trans hlt.2, ?_⟩
        rw [List.forall_mem_cons]
        refine ⟨fun _ => ?_, hrest⟩
        by_cases hne : h.tags.size c = size
        · omega
        · exact (hlt' hne).le
    · rcases ih hc with ⟨hb, hrest⟩ | ⟨hmem, hsize, hlt', hrest⟩
      · refine .inl ⟨hb, ?_⟩
        rw [List.forall_mem_cons]
        exact ⟨fun hd => by omega, hrest⟩
      · refine .inr ⟨List.mem_cons_of_mem _ hmem, hsize, hlt', ?_⟩
        rw [List.forall_mem_cons]
        refine ⟨fun hd => ?_, hrest⟩
        by_cases hne : h.tags.size c = size
        · omega
        · have := hlt' hne
          omega

theorem bestChunk_none {l : List ℕ} {best : Option ℕ} {bestSize : ℕ}
    (hn : h.bestChunk size l best bestSize = none) :
    best = none ∧ ∀ c ∈ l, h.tags.size c < size ∨ (size < h.tags.size c ∧ bestSize ≤ h.tags.size c) := by
  induction l generalizing best bestSize with
  | nil => exact ⟨hn, by simp⟩
  | cons d l ih =>
    simp only [bestChunk] at hn
    split_ifs at hn with heq hlt
    · exact absurd (ih hn).1 (by simp)
    · obtain ⟨hb, hrest⟩ := ih hn
      rw [List.forall_mem_cons]
      exact ⟨hb, by omega, hrest⟩

omit size in
theorem findSome?_range' {α : Type*} {f : ℕ → Option α} {i n : ℕ} {b : α}
    (hb : (List.range' i n).findSome? f = some b) :
    ∃ k, i ≤ k ∧ k < i + n ∧ f k = some b ∧ ∀ j, i ≤ j → j < k → f j = none := by
  induction n generalizing i with
  | zero => simp at hb
  | succ n ih =>
    rw [List.range'_succ, List.findSome?_cons] at hb
    rcases hf : f i with _ | a
    · rw [hf] at hb
      obtain ⟨k, hik, hk, hfk, hj⟩ := ih hb
      refine ⟨k, by omega, by omega, hfk, fun j hij hjk => ?_⟩
      rcases hij.eq_or_lt with rfl | hij
      · exact hf
      · exact hj j hij hjk
    · rw [hf] at hb
      exact ⟨i, le_rfl, by omega, hf.trans hb, fun j hij hji => by omega⟩

/-- Every free chunk is in the bin of its size. -/
def Binned (h : Heap) : Prop := ∀ bin, ∀ c ∈ h.bins bin, findListOfSize (h.tags.size c) = bin

theorem Binned.large (hb : Binned h) {i c : ℕ} (hc : c ∈ h.bins (.large i)) :
    computeLargeIndex (h.tags.size c) = i ∧ 512 < h.tags.size c := by
  have := hb _ c hc
  rw [findListOfSize, maxSmallSize] at this
  split_ifs at this with hlt
  exact ⟨Bin.large.inj this, hlt⟩

theorem Binned.small (hb : Binned h) {i c : ℕ} (hc : c ∈ h.bins (.small i)) :
    size2index (h.tags.size c) = i ∧ h.tags.size c ≤ 512 := by
  have := hb _ c hc
  rw [findListOfSize, maxSmallSize] at this
  split_ifs at this with hlt
  exact ⟨Bin.small.inj this, not_lt.1 hlt⟩

/-- The chunk that is found is one of its bin that is large enough. -/
theorem findLargeChunk_some {c : ℕ} {bin : Bin} (hf : h.findLargeChunk size = some (c, bin)) :
    ∃ i, bin = .large i ∧ h.bestChunk size (h.bins (.large i)) none uintMax = some c ∧
      computeLargeIndex size ≤ i ∧ ∀ j, computeLargeIndex size ≤ j → j < i →
        h.bestChunk size (h.bins (.large j)) none uintMax = none := by
  obtain ⟨i, hi, -, hfi, hj⟩ := findSome?_range' hf
  rw [Option.map_eq_some_iff] at hfi
  obtain ⟨c', hc', heq⟩ := hfi
  cases heq
  refine ⟨i, rfl, hc', hi, fun j hij hji => ?_⟩
  simpa using hj j hij hji

theorem findLargeChunk_mem {c : ℕ} {bin : Bin} (hf : h.findLargeChunk size = some (c, bin)) :
    c ∈ h.bins bin ∧ size ≤ h.tags.size c := by
  obtain ⟨i, rfl, hc, -, -⟩ := findLargeChunk_some hf
  obtain ⟨hn, -⟩ | ⟨hmem, hsize, -, -⟩ := bestChunk_some hc
  · cases hn
  · exact ⟨hmem, hsize⟩

theorem findSmallChunk_some {c : ℕ} {bin : Bin} (hf : h.findSmallChunk size = some (c, bin)) :
    (∃ i, bin = .small i ∧ c ∈ h.bins bin ∧ (h.bins bin).head? = some c ∧ size2index size ≤ i ∧
      ∀ j, size2index size ≤ j → j < i → h.bins (.small j) = []) ∨
    ((∀ j, size2index size ≤ j → j < smallNum → h.bins (.small j) = []) ∧
      h.findLargeChunk size = some (c, bin)) := by
  rw [findSmallChunk, Option.or_eq_some_iff] at hf
  rcases hf with hf | ⟨hn, hf⟩
  · obtain ⟨i, hi, -, hfi, hj⟩ := findSome?_range' hf
    rw [Option.map_eq_some_iff] at hfi
    obtain ⟨c', hc', heq⟩ := hfi
    cases heq
    refine .inl ⟨i, rfl, List.mem_of_head? hc', hc', hi, fun j hij hji => ?_⟩
    simpa using hj j hij hji
  · refine .inr ⟨fun j hij hj => ?_, hf⟩
    rw [List.findSome?_eq_none_iff] at hn
    simpa using hn j (List.mem_range'_1.2 ⟨hij, by omega⟩)

/-- The chunk that is found is a free one and large enough, for a size that is aligned. -/
theorem findBestChunk_mem (hb : Binned h) (hsize : size % 8 = 0) (hmin : ∀ bin, ∀ c ∈ h.bins bin,
    48 ≤ h.tags.size c) {c : ℕ} {bin : Bin} (hf : h.findBestChunk size = some (c, bin)) :
    c ∈ h.bins bin ∧ size ≤ h.tags.size c := by
  rw [findBestChunk] at hf
  split_ifs at hf
  · exact findLargeChunk_mem hf
  · obtain ⟨i, rfl, hc, -, hi, -⟩ | ⟨-, hf⟩ := findSmallChunk_some hf
    · obtain ⟨hidx, hle⟩ := hb.small hc
      have := hmin _ c hc
      rw [← hidx, size2index_eq, size2index_eq] at hi
      refine ⟨hc, ?_⟩
      split_ifs at hi <;> omega
    · exact findLargeChunk_mem hf

/-- What `find_best_chunk` is for: a free chunk of the smallest size that is large enough, and none
only if no free chunk is. -/
def BestFit (h : Heap) (size : ℕ) : Prop :=
  match h.findBestChunk size with
  | some (c, bin) => c ∈ h.bins bin ∧ size ≤ h.tags.size c ∧
      ∀ bin', ∀ c' ∈ h.bins bin', size ≤ h.tags.size c' → h.tags.size c ≤ h.tags.size c'
  | none => ∀ bin, ∀ c ∈ h.bins bin, h.tags.size c < size

/-- The sizes of the free chunks are aligned and less than `UINT_MAX`. -/
structure Regular (h : Heap) : Prop where
  binned : Binned h
  min : ∀ bin, ∀ c ∈ h.bins bin, 48 ≤ h.tags.size c
  aligned : ∀ bin, ∀ c ∈ h.bins bin, h.tags.size c % 8 = 0
  lt : ∀ bin, ∀ c ∈ h.bins bin, h.tags.size c < uintMax

theorem Regular.bestChunk_none (hr : Regular h) {bin : Bin}
    (hn : h.bestChunk size (h.bins bin) none uintMax = none) {c : ℕ} (hc : c ∈ h.bins bin) :
    h.tags.size c < size := by
  rcases (Heap.bestChunk_none hn).2 c hc with hlt | ⟨-, hge⟩
  · exact hlt
  · exact absurd hge (not_le.2 (hr.lt _ c hc))

/-- The chunk found is the best of the large ones. -/
theorem Regular.findLargeChunk_least (hr : Regular h) {c : ℕ} {bin : Bin}
    (hf : h.findLargeChunk size = some (c, bin)) {j c' : ℕ} (hc' : c' ∈ h.bins (.large j))
    (hle : size ≤ h.tags.size c') : h.tags.size c ≤ h.tags.size c' := by
  obtain ⟨i, rfl, hc, hi, hbefore⟩ := findLargeChunk_some hf
  obtain ⟨hn, -⟩ | ⟨hmem, hsize, -, hleast⟩ := bestChunk_some hc
  · cases hn
  have hidx := (hr.binned.large hmem).1
  have hidx' := (hr.binned.large hc').1
  have hj := computeLargeIndex_mono hle
  rcases lt_trichotomy j i with hji | rfl | hij
  · exact absurd (hr.bestChunk_none (hbefore j (by omega) hji) hc') (not_lt.2 hle)
  · exact hleast c' hc' hle
  · by_contra hlt
    have := computeLargeIndex_mono (not_le.1 hlt).le
    omega

theorem Regular.findLargeChunk_none (hr : Regular h) (hf : h.findLargeChunk size = none) {j c : ℕ}
    (hc : c ∈ h.bins (.large j)) : h.tags.size c < size := by
  by_contra hle
  have hidx := (hr.binned.large hc).1
  have hj := computeLargeIndex_mono (not_lt.1 hle)
  have hlt := computeLargeIndex_lt (h.tags.size c)
  rw [findLargeChunk, List.findSome?_eq_none_iff] at hf
  have hn := hf j (List.mem_range'_1.2 ⟨by omega, by omega⟩)
  rw [Option.map_eq_none_iff] at hn
  exact hle (hr.bestChunk_none hn hc)

/-- The chunks of a small bin are of one size, and a larger size is in a later bin. -/
theorem Regular.small_le (hr : Regular h) {i j c c' : ℕ} (hc : c ∈ h.bins (.small i))
    (hc' : c' ∈ h.bins (.small j)) (hij : i ≤ j) : h.tags.size c ≤ h.tags.size c' := by
  have hidx := (hr.binned.small hc).1
  have hidx' := (hr.binned.small hc').1
  have ha := hr.aligned _ c hc
  have ha' := hr.aligned _ c' hc'
  have hm := hr.min _ c hc
  have hm' := hr.min _ c' hc'
  rw [size2index_eq, if_neg (by omega)] at hidx hidx'
  omega

theorem Regular.bestFit (hr : Regular h) (hsize : size % 8 = 0) : BestFit h size := by
  unfold BestFit
  rcases hf : h.findBestChunk size with _ | ⟨c, bin⟩
  · intro bin c hc
    rw [findBestChunk] at hf
    split_ifs at hf with hlt
    · rcases bin with i | i
      · have := (hr.binned.small hc).2
        rw [maxSmallSize] at hlt
        omega
      · exact hr.findLargeChunk_none hf hc
    · rw [findSmallChunk, Option.or_eq_none_iff, List.findSome?_eq_none_iff] at hf
      rcases bin with i | i
      · by_contra hle
        have hidx := (hr.binned.small hc).1
        have hi := size2index_mono (not_lt.1 hle)
        have hmax := size2index_mono (hr.binned.small hc).2
        have hn := hf.1 i (List.mem_range'_1.2 ⟨by omega, by
          rw [smallNum, maxSmallSize]; omega⟩)
        rw [Option.map_eq_none_iff, List.head?_eq_none_iff] at hn
        rw [hn] at hc
        cases hc
      · exact hr.findLargeChunk_none hf.2 hc
  · obtain ⟨hmem, hle⟩ := findBestChunk_mem hr.binned hsize hr.min hf
    refine ⟨hmem, hle, fun bin' c' hc' hle' => ?_⟩
    rw [findBestChunk] at hf
    split_ifs at hf with hlt
    · rcases bin' with j | j
      · have := (hr.binned.small hc').2
        rw [maxSmallSize] at hlt
        omega
      · exact hr.findLargeChunk_least hf hc' hle'
    · obtain ⟨i, rfl, -, -, hi, hbefore⟩ | ⟨hbefore, hf⟩ := findSmallChunk_some hf
      · rcases bin' with j | j
        · rcases lt_or_ge j i with hji | hij
          · have hidx' := (hr.binned.small hc').1
            have := size2index_mono hle'
            rw [hbefore j (by omega) hji] at hc'
            cases hc'
          · exact hr.small_le hmem hc' hij
        · have := (hr.binned.small hmem).2
          have := (hr.binned.large hc').2
          omega
      · rcases bin' with j | j
        · have hidx' := (hr.binned.small hc').1
          have := size2index_mono hle'
          have hmax := size2index_mono (hr.binned.small hc').2
          rw [hbefore j (by omega) (by rw [smallNum, maxSmallSize]; omega)] at hc'
          cases hc'
        · exact hr.findLargeChunk_least hf hc' hle'

end Heap

end Yog.MarkSweepCompact
