import Mathlib.Data.List.Basic

/-!
# The first match along a chain

A search that walks a chain from one end finds the first element with a property. What a search
from a place inside the chain should find is the first such element strictly after the place.
-/

namespace Chain

variable {α : Type*} (p : α → Bool)

/-- `d` is the first element of `chain` strictly after `k` with the property. -/
def IsFirstAfter (chain : List α) (k d : α) : Prop :=
  ∃ before between after, chain = before ++ k :: (between ++ d :: after)
    ∧ p d = true ∧ ∀ c ∈ between, p c = false

variable {p} {chain before rest : List α} {k d : α}

theorem split_unique : ∀ {before before' rest rest' : List α},
    (before ++ k :: rest).Nodup → before ++ k :: rest = before' ++ k :: rest' → rest = rest'
  | [], [], _, _, _, h => List.tail_eq_of_cons_eq h
  | [], b :: before', rest, rest', hn, h => by
    obtain ⟨rfl, rfl⟩ := List.cons.inj h
    rw [List.nil_append, List.nodup_cons] at hn
    exact absurd (by simp) hn.1
  | b :: before, [], rest, rest', hn, h => by
    obtain ⟨rfl, rfl⟩ := List.cons.inj h
    rw [List.cons_append, List.nodup_cons] at hn
    exact absurd (by simp) hn.1
  | b :: before, b' :: before', rest, rest', hn, h => by
    obtain ⟨rfl, ht⟩ := List.cons.inj h
    rw [List.cons_append, List.nodup_cons] at hn
    exact split_unique hn.2 ht

/-- In a chain without repetitions, the search of what follows the place finds it. -/
theorem isFirstAfter_iff (hn : chain.Nodup) (h : chain = before ++ k :: rest) :
    IsFirstAfter p chain k d ↔ rest.find? p = some d := by
  rw [List.find?_eq_some_iff_append]
  constructor
  · rintro ⟨before', between, after, h', hd, hb⟩
    subst h
    obtain rfl := split_unique hn h'
    exact ⟨hd, between, after, rfl, fun c hc => by rw [hb c hc]; rfl⟩
  · rintro ⟨hd, between, after, rfl, hb⟩
    exact ⟨before, between, after, h, hd, fun c hc => by simpa using hb c hc⟩

/-- A search that starts before the place finds nothing that follows the place, when the place has
the property itself. -/
theorem not_isFirstAfter_of_find (hn : chain.Nodup) (h : chain = before ++ k :: rest)
    (hk : p k = true) {skipped searched : List α} (hs : before = skipped ++ searched)
    (hf : (searched ++ k :: rest).find? p = some d) : ¬ IsFirstAfter p chain k d := by
  intro hd
  have hrest : d ∈ rest := List.mem_of_find?_eq_some ((isFirstAfter_iff hn h).1 hd)
  subst h hs
  rw [List.append_assoc] at hn
  have hn' := (List.nodup_append.1 hn).2.1
  rw [List.find?_append] at hf
  rcases hg : searched.find? p with _ | c
  · rw [hg, Option.none_or, List.find?_cons_of_pos hk] at hf
    cases hf
    exact (List.nodup_cons.1 (List.nodup_append.1 hn').2.1).1 hrest
  · rw [hg, Option.some_or] at hf
    cases hf
    exact (List.nodup_append.1 hn').2.2 d (List.mem_of_find?_eq_some hg) d (by simp [hrest]) rfl

end Chain
