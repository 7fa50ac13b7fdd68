import Mathlib.Data.Set.Basic
import Mathlib.Logic.Relation

/-!
# Tracing a graph

Nodes are visited from some roots. A node that has been visited is grey until it is traced; when
it is, its successors are pending until each of them has been visited. No other visited node has a
successor that has not been visited (`Tricolour`), whatever the order is in which all this
happens. Once nothing is grey or pending, every node that can be reached has been visited
(`Tricolour.visited_of_reachable`).
-/

namespace Yog

variable {N : Type*} {succ : N → Set N} {roots visited grey pending : Set N} {n m : N}

/-- There is a way from a root. -/
def Reachable (succ : N → Set N) (roots : Set N) (n : N) : Prop :=
  ∃ r ∈ roots, Relation.ReflTransGen (fun a b => b ∈ succ a) r n

theorem Reachable.root (h : n ∈ roots) : Reachable succ roots n := ⟨n, h, .refl⟩

theorem Reachable.step (h : Reachable succ roots n) (hm : m ∈ succ n) : Reachable succ roots m := by
  obtain ⟨r, hr, hrn⟩ := h
  exact ⟨r, hr, hrn.tail hm⟩

/-- What has been visited is grey, or its successors have been visited or are pending; and so
are the roots. -/
structure Tricolour (succ : N → Set N) (roots visited grey pending : Set N) : Prop where
  roots : ∀ r ∈ roots, r ∈ visited ∨ r ∈ pending
  traced : ∀ n ∈ visited, n ∈ grey ∨ ∀ m ∈ succ n, m ∈ visited ∨ m ∈ pending

namespace Tricolour

theorem start (succ : N → Set N) (roots : Set N) : Tricolour succ roots ∅ ∅ roots :=
  ⟨fun _ h => .inr h, fun _ h => absurd h (Set.notMem_empty _)⟩

/-- A pending node has been visited before. -/
theorem seen (h : Tricolour succ roots visited grey (insert n pending)) (hn : n ∈ visited) :
    Tricolour succ roots visited grey pending := by
  have hp : ∀ m, m ∈ visited ∨ m ∈ insert n pending → m ∈ visited ∨ m ∈ pending := by
    rintro m (hm | rfl | hm)
    · exact .inl hm
    · exact .inl hn
    · exact .inr hm
  exact ⟨fun r hr => hp r (h.roots r hr),
    fun m hm => (h.traced m hm).imp_right fun hs k hk => hp k (hs k hk)⟩

/-- A pending node is visited. -/
theorem visit (h : Tricolour succ roots visited grey (insert n pending)) :
    Tricolour succ roots (insert n visited) (insert n grey) pending := by
  have hp : ∀ m, m ∈ visited ∨ m ∈ insert n pending → m ∈ insert n visited ∨ m ∈ pending := by
    rintro m (hm | rfl | hm)
    · exact .inl (.inr hm)
    · exact .inl (.inl rfl)
    · exact .inr hm
  refine ⟨fun r hr => hp r (h.roots r hr), ?_⟩
  rintro m (rfl | hm)
  · exact .inl (.inl rfl)
  · exact (h.traced m hm).imp .inr fun hs k hk => hp k (hs k hk)

/-- A grey node is traced. -/
theorem trace (h : Tricolour succ roots visited (insert n grey) ∅) :
    Tricolour succ roots visited grey (succ n) := by
  refine ⟨fun r hr => (h.roots r hr).imp_right fun he => absurd he (Set.notMem_empty _), ?_⟩
  intro m hm
  rcases h.traced m hm with (rfl | hg) | hs
  · exact .inr fun k hk => .inr hk
  · exact .inl hg
  · exact .inr fun k hk => (hs k hk).imp_right fun he => absurd he (Set.notMem_empty _)

theorem mono {grey' : Set N} (h : Tricolour succ roots visited grey pending)
    (hg : ∀ n ∈ grey, n ∈ grey' ∨ succ n = ∅) : Tricolour succ roots visited grey' pending := by
  refine ⟨h.roots, fun n hn => ?_⟩
  rcases h.traced n hn with hgn | hs
  · refine (hg n hgn).imp_right fun he m hm => ?_
    rw [he] at hm
    exact absurd hm (Set.notMem_empty _)
  · exact .inr hs

theorem visited_of_reachable (h : Tricolour succ roots visited ∅ ∅) (hr : Reachable succ roots n) :
    n ∈ visited := by
  obtain ⟨r, hr, hrn⟩ := hr
  induction hrn with
  | refl => exact (h.roots r hr).resolve_right (Set.notMem_empty _)
  | tail _ hs ih =>
    have := (h.traced _ ih).resolve_left (Set.notMem_empty _)
    exact (this _ hs).resolve_right (Set.notMem_empty _)

end Tricolour

end Yog
