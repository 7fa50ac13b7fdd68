import Mathlib.Data.List.Nodup
import Mathlib.Logic.Function.Basic

/-!
# Linked segments

Nodes with a link each. A segment goes from a node to another by links and has the list of the nodes
it passes, the one it ends at not among them. A link that is not one of the segment's may change
(`Seg.congr`), and the last link of a segment is where it is cut or hung on somewhere else
(`Seg.relink`). A walk until the link is what it looks for ends at the last node of the segment
(`Seg.walk_eq`).
-/

namespace Linked

variable {N : Type*} {link link' : N → Option N} {a y z : Option N} {n : N} {l l' : List N}

/-- The nodes from `a` to `z`, `z` not among them. -/
inductive Seg (link : N → Option N) : Option N → List N → Option N → Prop
  | nil (z : Option N) : Seg link z [] z
  | cons {n : N} {l : List N} {z : Option N} : Seg link (link n) l z → Seg link (some n) (n :: l) z

/-- The first node from `a` on whose link is `stop`, in so many steps. -/
def walk [DecidableEq N] (link : N → Option N) (stop : Option N) : ℕ → Option N → Option N
  | 0, _ => none
  | _ + 1, none => none
  | fuel + 1, some n => if link n = stop then some n else walk link stop fuel (link n)

namespace Seg

theorem nil_iff : Seg link a [] z ↔ a = z := by
  constructor
  · rintro ⟨⟩
    rfl
  · rintro rfl
    exact .nil _

theorem cons_iff : Seg link a (n :: l) z ↔ a = some n ∧ Seg link (link n) l z := by
  constructor
  · rintro (_ | ⟨h⟩)
    exact ⟨rfl, h⟩
  · rintro ⟨rfl, h⟩
    exact .cons h

theorem append_iff : Seg link a (l ++ l') z ↔ ∃ m, Seg link a l m ∧ Seg link m l' z := by
  induction l generalizing a with
  | nil => simp [nil_iff]
  | cons n l ih => simp [cons_iff, ih, and_assoc]

theorem head?_eq (h : Seg link a l z) (hl : l ≠ []) : l.head? = a := by
  rcases h with _ | ⟨h⟩
  · exact absurd rfl hl
  · rfl

theorem congr (h : Seg link a l z) (hl : ∀ n ∈ l, link' n = link n) : Seg link' a l z := by
  induction h with
  | nil z => exact .nil z
  | @cons n l z _ ih =>
    refine .cons ?_
    rw [hl n (by simp)]
    exact ih fun m hm => hl m (by simp [hm])

/-- The last link of a segment is changed, and the segment goes on there. -/
theorem relink [DecidableEq N] (h : Seg link a (l ++ [n]) z) (hn : n ∉ l) :
    Seg (Function.update link n y) a (l ++ [n]) y := by
  obtain ⟨m, hl, hlast⟩ := append_iff.1 h
  obtain ⟨rfl, -⟩ := cons_iff.1 hlast
  refine append_iff.2 ⟨some n, hl.congr fun x hx => ?_, .cons ?_⟩
  · have hne : x ≠ n := by
      rintro rfl
      exact hn hx
    simp [hne]
  · rw [Function.update_self]
    exact .nil _

/-- The links before the last do not leave the segment. -/
theorem link_mem (h : Seg link a (l ++ [n]) z) {m : N} (hm : m ∈ l) :
    ∃ x ∈ l ++ [n], link m = some x := by
  obtain ⟨l₁, l₂, rfl⟩ := List.append_of_mem hm
  rw [List.append_assoc, List.cons_append] at h
  obtain ⟨b, -, hb⟩ := append_iff.1 h
  have hnext := (cons_iff.1 hb).2
  rcases l₂ with _ | ⟨x, l₂⟩
  · exact ⟨n, by simp, (cons_iff.1 hnext).1⟩
  · exact ⟨x, by simp, (cons_iff.1 hnext).1⟩

/-- A walk to the end of a segment. -/
theorem walk_eq [DecidableEq N] (h : Seg link a (l ++ [n]) z) (hz : ∀ x ∈ l ++ [n], z ≠ some x)
    {fuel : ℕ} (hfuel : l.length < fuel) : walk link z fuel a = some n := by
  induction l generalizing a fuel with
  | nil =>
    obtain ⟨rfl, hlast⟩ := cons_iff.1 h
    obtain ⟨fuel, rfl⟩ := Nat.exists_eq_add_of_lt hfuel
    simp [walk, nil_iff.1 hlast]
  | cons m l ih =>
    obtain ⟨x, hx, hlink⟩ := h.link_mem (m := m) (by simp)
    obtain ⟨rfl, hrest⟩ := cons_iff.1 h
    rcases fuel with _ | fuel
    · simp at hfuel
    have hne : link m ≠ z := by
      rw [hlink]
      exact (hz x hx).symm
    rw [walk, if_neg hne]
    exact ih hrest (fun y hy => hz y (by simp [hy])) (by simpa using hfuel)

end Seg

end Linked
