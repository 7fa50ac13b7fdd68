import Mathlib.Data.Finset.Card
import Mathlib.Data.Finset.Image
import Mathlib.Data.List.Basic

/-!
# The first elements of their kind

Of a list, the elements whose key none before them has (`firsts`). Keys that tell the same elements
apart pick the same ones (`firsts_congr`), and there are as many as there are keys.
-/

namespace Firsts

variable {α κ κ' : Type*} [DecidableEq κ] [DecidableEq κ'] {f : α → κ} {g : α → κ'}

variable (f) in
/-- The elements whose key is not among those seen and none before them has. -/
def firsts : List α → List κ → List α
  | [], _ => []
  | a :: l, seen => if f a ∈ seen then firsts l seen else a :: firsts l (seen ++ [f a])

theorem mem_map_firsts {l : List α} {seen : List κ} {k : κ} :
    k ∈ (firsts f l seen).map f ↔ k ∈ l.map f ∧ k ∉ seen := by
  induction l generalizing seen with
  | nil => simp [firsts]
  | cons a l ih =>
    rw [firsts]
    split_ifs with h
    · rw [ih, List.map_cons, List.mem_cons]
      refine and_congr_left fun hk => ⟨.inr, fun h' => h'.resolve_left ?_⟩
      rintro rfl
      exact hk h
    · simp only [List.map_cons, List.mem_cons, ih, List.mem_append, List.not_mem_nil, or_false]
      by_cases hk : k = f a
      · subst hk
        simp [h]
      · simp [hk]

theorem nodup_map_firsts {l : List α} {seen : List κ} : ((firsts f l seen).map f).Nodup := by
  induction l generalizing seen with
  | nil => simp [firsts]
  | cons a l ih =>
    rw [firsts]
    split_ifs with h
    · exact ih
    · rw [List.map_cons, List.nodup_cons, mem_map_firsts]
      exact ⟨by simp, ih⟩

/-- There is one for each key. -/
theorem length_firsts (l : List α) : (firsts f l []).length = (l.map f).toFinset.card := by
  have hset : ((firsts f l []).map f).toFinset = (l.map f).toFinset := by
    ext k
    rw [List.mem_toFinset, mem_map_firsts, List.mem_toFinset]
    simp
  rw [← hset, List.toFinset_card_of_nodup nodup_map_firsts, List.length_map]

/-- One that is picked is the first with its key. -/
theorem find?_of_mem_firsts {l : List α} {seen : List κ} {a : α} (h : a ∈ firsts f l seen) :
    l.find? (fun b => f b = f a) = some a := by
  induction l generalizing seen with
  | nil => simp [firsts] at h
  | cons b l ih =>
    have hkey : f a ∉ seen := (mem_map_firsts.1 (List.mem_map_of_mem h)).2
    rw [firsts] at h
    split_ifs at h with hb
    · have hne : f b ≠ f a := by
        intro heq
        exact hkey (heq ▸ hb)
      rw [List.find?_cons_of_neg (by simpa using hne)]
      exact ih h
    · rcases List.mem_cons.1 h with rfl | h
      · rw [List.find?_cons_of_pos (by simp)]
      · have hne : f b ≠ f a := by
          intro heq
          have := (mem_map_firsts.1 (List.mem_map_of_mem h)).2
          simp [heq] at this
        rw [List.find?_cons_of_neg (by simpa using hne)]
        exact ih h

theorem firsts_congr_seen {l s : List α}
    (h : ∀ a ∈ s ++ l, ∀ b ∈ s ++ l, f a = f b ↔ g a = g b) :
    firsts f l (s.map f) = firsts g l (s.map g) := by
  induction l generalizing s with
  | nil => rfl
  | cons a l ih =>
    have hseen : f a ∈ s.map f ↔ g a ∈ s.map g := by
      simp only [List.mem_map]
      refine exists_congr fun b => and_congr_right fun hb => ?_
      exact h b (by simp [hb]) a (by simp)
    rw [firsts, firsts, ih fun b hb c hc => h b (by grind) c (by grind)]
    simp only [hseen]
    congr 2
    have := ih (s := s ++ [a]) fun b hb c hc => h b (by simpa using hb) c (by simpa using hc)
    simpa using this

theorem firsts_congr {l : List α} (h : ∀ a ∈ l, ∀ b ∈ l, f a = f b ↔ g a = g b) :
    firsts f l [] = firsts g l [] :=
  firsts_congr_seen (s := []) h

/-- A key that can be read off another tells all elements apart that the other does, if as many are
picked by it. -/
theorem inj_of_length_firsts {l : List α} {n : κ → κ'} (hn : ∀ a ∈ l, g a = n (f a))
    (h : (firsts f l []).length = (firsts g l []).length) {a b : α} (ha : a ∈ l) (hb : b ∈ l)
    (hab : g a = g b) : f a = f b := by
  have himage : (l.map g).toFinset = (l.map f).toFinset.image n := by
    ext k
    simp only [List.mem_toFinset, List.mem_map, Finset.mem_image, exists_exists_and_eq_and]
    exact exists_congr fun c => and_congr_right fun hc => by rw [hn c hc]
  rw [length_firsts, length_firsts, himage] at h
  have hinj := Finset.card_image_iff.1 h.symm
  refine hinj ?_ ?_ ?_
  · simpa using ⟨a, ha, rfl⟩
  · simpa using ⟨b, hb, rfl⟩
  · rw [← hn a ha, ← hn b hb, hab]

end Firsts
