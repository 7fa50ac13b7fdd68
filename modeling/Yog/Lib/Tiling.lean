import Yog.Lib.Layout

/-!
# Boundary tags

Blocks that tile a stretch of memory one behind another. The size of a block and whether it is used
stand at its start; behind its end stands once more whether it is used, and a free block has its size
in front of its end (`Tagged`). So the neighbours of a block are found from its start and its end.

What is written inside a stretch leaves the blocks outside of it alone (`Tiles.frame`), and blocks
may be replaced by others that tile the same stretch (`Tiles.replace`).
-/

namespace Tiling

open Yog (extent extent_nil extent_cons extent_append)

/-- The tags by their addresses; a footer by the address it stands in front of. -/
structure Tags where
  size : ℕ → ℕ
  used : ℕ → Bool
  prevUsed : ℕ → Bool
  footer : ℕ → ℕ

structure Block where
  size : ℕ
  used : Bool
  deriving DecidableEq, Repr

/-- The tags of a block that starts at an address. -/
structure Tagged (t : Tags) (c : ℕ) (b : Block) : Prop where
  size : t.size c = b.size
  used : t.used c = b.used
  prevUsed : t.prevUsed (c + b.size) = b.used
  footer : b.used = false → t.footer (c + b.size) = b.size

/-- The blocks with their addresses. -/
def placed : ℕ → List Block → List (ℕ × Block)
  | _, [] => []
  | c, b :: bs => (c, b) :: placed (c + b.size) bs

/-- Two tags that differ between two addresses only. -/
structure Agree (t t' : Tags) (x y : ℕ) : Prop where
  size : ∀ a, a < x ∨ y ≤ a → t'.size a = t.size a
  used : ∀ a, a < x ∨ y ≤ a → t'.used a = t.used a
  prevUsed : ∀ a, a ≤ x ∨ y < a → t'.prevUsed a = t.prevUsed a
  footer : ∀ a, a ≤ x ∨ y < a → t'.footer a = t.footer a

variable {t t' t'' : Tags} {c x y : ℕ} {b : Block} {l l' l'' : List Block}

theorem Agree.trans (h : Agree t t' x y) (h' : Agree t' t'' x y) : Agree t t'' x y where
  size a ha := (h'.size a ha).trans (h.size a ha)
  used a ha := (h'.used a ha).trans (h.used a ha)
  prevUsed a ha := (h'.prevUsed a ha).trans (h.prevUsed a ha)
  footer a ha := (h'.footer a ha).trans (h.footer a ha)

theorem Agree.mono {x' y' : ℕ} (h : Agree t t' x y) (hx : x' ≤ x) (hy : y ≤ y') :
    Agree t t' x' y' where
  size a ha := h.size a (by omega)
  used a ha := h.used a (by omega)
  prevUsed a ha := h.prevUsed a (by omega)
  footer a ha := h.footer a (by omega)

theorem Tagged.frame (h : Tagged t c b) (hb : 0 < b.size) (hd : c + b.size ≤ x ∨ y ≤ c)
    (ha : Agree t t' x y) : Tagged t' c b where
  size := (ha.size c (by omega)).trans h.size
  used := (ha.used c (by omega)).trans h.used
  prevUsed := (ha.prevUsed _ (by omega)).trans h.prevUsed
  footer hf := (ha.footer _ (by omega)).trans (h.footer hf)

@[simp] theorem placed_nil : placed c [] = [] := rfl

@[simp] theorem placed_cons : placed c (b :: l) = (c, b) :: placed (c + b.size) l := rfl

@[simp] theorem placed_append :
    placed c (l ++ l') = placed c l ++ placed (c + extent Block.size l) l' := by
  induction l generalizing c with
  | nil => simp
  | cons b l ih => simp [ih, add_assoc]

/-- Every block has a place. -/
theorem exists_mem_placed : b ∈ l ↔ ∃ x, (x, b) ∈ placed c l := by
  induction l generalizing c with
  | nil => simp
  | cons b' l ih => simp [ih (c := c + b'.size), exists_or, eq_comm]

/-- A block that has a place is between others. -/
theorem exists_of_mem_placed (h : (x, b) ∈ placed c l) :
    ∃ pre post, l = pre ++ b :: post ∧ x = c + extent Block.size pre := by
  induction l generalizing c with
  | nil => simp at h
  | cons b' l ih =>
    rcases List.mem_cons.1 h with h | h
    · cases h
      exact ⟨[], l, rfl, by simp⟩
    · obtain ⟨pre, post, rfl, rfl⟩ := ih h
      exact ⟨b' :: pre, post, rfl, by simp [add_assoc]⟩

theorem bounds_of_mem_placed (h : (x, b) ∈ placed c l) :
    c ≤ x ∧ x + b.size ≤ c + extent Block.size l := by
  obtain ⟨pre, post, rfl, rfl⟩ := exists_of_mem_placed h
  simp only [extent_append, extent_cons]
  omega

/-- Two places do not overlap. -/
def Apart (p q : ℕ × Block) : Prop := p.1 + p.2.size ≤ q.1 ∨ q.1 + q.2.size ≤ p.1

theorem placed_pairwise : (placed c l).Pairwise Apart := by
  induction l generalizing c with
  | nil => exact .nil
  | cons b l ih =>
    rw [placed_cons, List.pairwise_cons]
    exact ⟨fun q hq => .inl (bounds_of_mem_placed hq).1, ih⟩

/-- The blocks stand behind one another from an address on. -/
def Tiles (t : Tags) (c : ℕ) (l : List Block) : Prop := ∀ p ∈ placed c l, Tagged t p.1 p.2

theorem tiles_cons : Tiles t c (b :: l) ↔ Tagged t c b ∧ Tiles t (c + b.size) l := by
  simp [Tiles]

theorem tiles_append :
    Tiles t c (l ++ l') ↔ Tiles t c l ∧ Tiles t (c + extent Block.size l) l' := by
  simp only [Tiles, placed_append, List.forall_mem_append]

theorem Tiles.frame (h : Tiles t c l) (hl : ∀ b ∈ l, 0 < b.size)
    (hd : c + extent Block.size l ≤ x ∨ y ≤ c) (ha : Agree t t' x y) : Tiles t' c l := by
  intro p hp
  have hb := bounds_of_mem_placed hp
  obtain ⟨pre, post, rfl, -⟩ := exists_of_mem_placed hp
  exact (h p hp).frame (hl p.2 (by simp)) (by omega) ha

/-- Blocks are replaced by others that tile the same stretch. -/
theorem Tiles.replace (h : Tiles t c (l ++ l' ++ l'')) (hl : ∀ b ∈ l ++ l' ++ l'', 0 < b.size)
    {m : List Block} (hm : Tiles t' (c + extent Block.size l) m)
    (he : extent Block.size m = extent Block.size l')
    (ha : Agree t t' (c + extent Block.size l)
      (c + extent Block.size l + extent Block.size l')) : Tiles t' c (l ++ m ++ l'') := by
  simp only [tiles_append, extent_append, he] at h ⊢
  obtain ⟨⟨h, -⟩, h''⟩ := h
  refine ⟨⟨h.frame (fun b hb => hl b (by simp [hb])) (.inl le_rfl) ha, hm⟩, ?_⟩
  exact h''.frame (fun b hb => hl b (by simp [hb])) (.inr (by omega)) ha

end Tiling
