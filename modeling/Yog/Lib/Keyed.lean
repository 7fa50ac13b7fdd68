import Mathlib.Data.List.Infix
import Mathlib.Data.List.Perm.Basic

/-!
# Entries with distinct keys

Keys are compared by a function, which is only required to be an equivalence. In a list without two
entries of equal keys, the entry found for a key is the only one (`find_eq_some_iff`), so it does
not depend on the order of the entries (`find_perm`).

`latest` and `boundKeys` say what a finite map is to hold after a history of changes, the latest
first; `Holds` says that a list of entries holds that. A new entry, an entry of another value in the
place of one and the loss of an entry keep it, in whatever order the entries are left.
-/

namespace Keyed

variable {κ ν α : Type*} (eq : κ → κ → Bool)

/-- The comparison is an equivalence. -/
structure IsEquiv : Prop where
  refl : ∀ k, eq k k = true
  symm : ∀ {k l}, eq k l = true → eq l k = true
  trans : ∀ {k l m}, eq k l = true → eq l m = true → eq k m = true

variable (key : α → κ)

/-- No two entries have equal keys. -/
def Distinct (l : List α) : Prop := l.Pairwise fun a b => eq (key a) (key b) = false

def find (k : κ) (l : List α) : Option α := l.find? fun a => eq k (key a)

variable {eq key} {l l' : List α} {a b : α} {k k' : κ}

namespace IsEquiv

theorem comm (he : IsEquiv eq) (k l : κ) : eq k l = eq l k := by
  rw [Bool.eq_iff_iff]
  exact ⟨he.symm, he.symm⟩

/-- Equal keys are told apart from no third key. -/
theorem congr_left (he : IsEquiv eq) (h : eq k k' = true) (m : κ) : eq k m = eq k' m := by
  rw [Bool.eq_iff_iff]
  exact ⟨he.trans (he.symm h), he.trans h⟩

theorem congr_right (he : IsEquiv eq) (h : eq k k' = true) (m : κ) : eq m k = eq m k' := by
  rw [he.comm m k, he.comm m k', he.congr_left h]

end IsEquiv

theorem Distinct.perm (he : IsEquiv eq) (h : Distinct eq key l) (hp : l.Perm l') :
    Distinct eq key l' :=
  hp.pairwise h fun h => by rw [he.comm]; exact h

theorem distinct_cons :
    Distinct eq key (a :: l) ↔ (∀ b ∈ l, eq (key a) (key b) = false) ∧ Distinct eq key l :=
  List.pairwise_cons

theorem find_eq_none_iff : find eq key k l = none ↔ ∀ a ∈ l, eq k (key a) = false := by
  unfold find
  simp

/-- The entry of a key is the only one with an equal key. -/
theorem find_eq_some_iff (he : IsEquiv eq) (h : Distinct eq key l) :
    find eq key k l = some a ↔ a ∈ l ∧ eq k (key a) = true := by
  constructor
  · intro hf
    exact ⟨List.mem_of_find?_eq_some hf, by simpa using List.find?_some hf⟩
  · rintro ⟨ha, hk⟩
    induction l with
    | nil => simp at ha
    | cons b l ih =>
      obtain ⟨hb, hl⟩ := distinct_cons.1 h
      unfold find
      rcases List.mem_cons.1 ha with rfl | ha
      · rw [List.find?_cons_of_pos (by simpa using hk)]
      · have hkb : eq k (key b) = false := by
          rw [he.congr_left hk, he.comm]
          exact hb a ha
        rw [List.find?_cons_of_neg (by simp [hkb])]
        exact ih hl ha

theorem find_perm (he : IsEquiv eq) (h : Distinct eq key l) (hp : l.Perm l') (k : κ) :
    find eq key k l' = find eq key k l := by
  ext a
  rw [find_eq_some_iff he h, find_eq_some_iff he (h.perm he hp), hp.mem_iff]

theorem find_cons_of_eq (h : eq k (key a) = true) : find eq key k (a :: l) = some a :=
  List.find?_cons_of_pos (by simpa using h)

theorem find_cons_of_ne (h : eq k (key a) = false) :
    find eq key k (a :: l) = find eq key k l :=
  List.find?_cons_of_neg (by simp [h])

/-- An entry that replaces one of an equal key is found in its place. -/
theorem find_cons_congr (he : IsEquiv eq) (h : eq (key a) (key b) = true) :
    find eq key k (b :: l) = if eq k (key a) then some b else find eq key k (a :: l) := by
  rcases hk : eq k (key a) with _ | _
  · have hb : eq k (key b) = false := by rw [← he.congr_right h, hk]
    rw [find_cons_of_ne hb, find_cons_of_ne hk]
    rfl
  · rw [find_cons_of_eq (by rw [← he.congr_right h, hk])]
    rfl

theorem Distinct.congr (he : IsEquiv eq) (h : Distinct eq key (a :: l))
    (hk : eq (key a) (key b) = true) : Distinct eq key (b :: l) := by
  obtain ⟨ha, hl⟩ := distinct_cons.1 h
  refine distinct_cons.2 ⟨fun c hc => ?_, hl⟩
  rw [← he.congr_left hk]
  exact ha c hc

/-- A change to a finite map. -/
inductive Change (κ ν : Type*) where
  | bind (k : κ) (v : ν)
  | unbind (k : κ)

variable (eq)

/-- What the latest change of an equal key left it bound to. -/
def latest : List (Change κ ν) → κ → Option ν
  | [], _ => none
  | .bind k' v :: h, k => if eq k k' then some v else latest h k
  | .unbind k' :: h, k => if eq k k' then none else latest h k

/-- The keys that are bound, each as it was first bound since. -/
def boundKeys : List (Change κ ν) → List κ
  | [] => []
  | .bind k _ :: h =>
    if (latest eq h k).isSome then boundKeys h else k :: boundKeys h
  | .unbind k :: h => (boundKeys h).filter fun k' => !eq k k'

variable {eq} {h : List (Change κ ν)}

/-- Equal keys are bound to the same. -/
theorem latest_congr (he : IsEquiv eq) (hk : eq k k' = true) : latest eq h k = latest eq h k' := by
  induction h with
  | nil => rfl
  | cons c h ih => cases c <;> simp only [latest, he.congr_left hk, ih]

theorem latest_isSome_iff (he : IsEquiv eq) :
    (latest eq h k).isSome = true ↔ ∃ k' ∈ boundKeys eq h, eq k k' = true := by
  induction h with
  | nil => simp [latest, boundKeys]
  | cons c h ih =>
    cases c with
    | bind k' _ =>
      simp only [latest, boundKeys]
      rcases hk : eq k k' with _ | _
      · rw [if_neg (by simp), ih]
        split_ifs
        · rfl
        · simp [hk]
      · rw [if_pos rfl]
        split_ifs with hs
        · rw [← latest_congr he hk, ih] at hs
          simpa using hs
        · simp [hk]
    | unbind k' =>
      simp only [latest, boundKeys, List.mem_filter, Bool.not_eq_true']
      rcases hk : eq k k' with _ | _
      · rw [if_neg (by simp), ih]
        constructor
        · rintro ⟨m, hm, hkm⟩
          refine ⟨m, ⟨hm, ?_⟩, hkm⟩
          rw [← he.congr_right hkm, he.comm, hk]
        · rintro ⟨m, ⟨hm, -⟩, hkm⟩
          exact ⟨m, hm, hkm⟩
      · rw [if_pos rfl]
        simp only [Option.isSome_none, Bool.false_eq_true, false_iff, not_exists, not_and]
        rintro m ⟨-, hm⟩
        rw [he.congr_left hk, hm]
        simp

/-- No two of the bound keys are equal. -/
theorem distinct_boundKeys (he : IsEquiv eq) : Distinct eq id (boundKeys eq h) := by
  induction h with
  | nil => exact .nil
  | cons c h ih =>
    cases c with
    | bind k v =>
      simp only [boundKeys]
      split_ifs with hs
      · exact ih
      · refine distinct_cons.2 ⟨fun m hm => ?_, ih⟩
        rw [latest_isSome_iff he] at hs
        exact Bool.eq_false_iff.2 fun hk => hs ⟨m, hm, hk⟩
    | unbind k => exact ih.filter _

/-- The number of bound keys drops by one where a bound key is unbound. -/
theorem length_filter_boundKeys (he : IsEquiv eq) (hs : (latest eq h k).isSome = true) :
    ((boundKeys eq h).filter fun k' => !eq k k').length + 1 = (boundKeys eq h).length := by
  obtain ⟨m, hm, hk⟩ := (latest_isSome_iff he).1 hs
  obtain ⟨l, r, hl⟩ := List.append_of_mem hm
  have hd : Distinct eq id (m :: (l ++ r)) :=
    (distinct_boundKeys he (h := h)).perm he (by rw [hl]; exact List.perm_middle)
  have hall : ∀ x ∈ l ++ r, (!eq k x) = true := fun x hx => by
    have hx := (distinct_cons.1 hd).1 x hx
    rw [he.congr_left hk]
    simpa using hx
  have hf := List.filter_eq_self.2 hall
  have hp : (boundKeys eq h).Perm (m :: (l ++ r)) := by rw [hl]; exact List.perm_middle
  rw [(hp.filter _).length_eq, hp.length_eq, List.filter_cons_of_neg (by simp [hk]), hf]
  rfl

theorem filter_boundKeys_of_none (he : IsEquiv eq) (hs : latest eq h k = none) :
    (boundKeys eq h).filter (fun k' => !eq k k') = boundKeys eq h := by
  refine List.filter_eq_self.2 fun m hm => ?_
  have hn : ¬ (latest eq h k).isSome = true := by rw [hs]; simp
  rw [latest_isSome_iff he] at hn
  rw [Bool.eq_false_iff.2 fun hk => hn ⟨m, hm, hk⟩]
  rfl

/-- Where the changes bind what is listed, the latest is the one that is found. -/
theorem latest_binds (value : α → ν) (k : κ) :
    latest eq (l.map fun a => .bind (key a) (value a)) k = (find eq key k l).map value := by
  induction l with
  | nil => rfl
  | cons a l ih =>
    simp only [List.map_cons, latest, ih]
    rcases hk : eq k (key a) with _ | _
    · rw [find_cons_of_ne hk]
      rfl
    · rw [find_cons_of_eq hk]
      rfl

theorem length_boundKeys_binds (value : α → ν) (hd : Distinct eq key l) :
    (boundKeys eq (l.map fun a => .bind (key a) (value a))).length = l.length := by
  induction l with
  | nil => rfl
  | cons a l ih =>
    obtain ⟨ha, hl⟩ := distinct_cons.1 hd
    simp only [List.map_cons, boundKeys, latest_binds, find_eq_none_iff.2 ha]
    simp [ih hl]

variable (eq key) in
/-- The entries are those of the map after the history. -/
structure Holds (value : α → ν) (l : List α) (h : List (Change κ ν)) : Prop where
  distinct : Distinct eq key l
  find : ∀ k, (find eq key k l).map value = latest eq h k
  length : l.length = (boundKeys eq h).length

namespace Holds

variable {value : α → ν}

theorem nil : Holds eq key value [] [] := ⟨.nil, fun _ => rfl, rfl⟩

theorem perm (he : IsEquiv eq) (hh : Holds eq key value l h) (hp : l.Perm l') :
    Holds eq key value l' h where
  distinct := hh.distinct.perm he hp
  find k := by rw [find_perm he hh.distinct hp, hh.find]
  length := by rw [← hp.length_eq, hh.length]

theorem bind_new (hh : Holds eq key value l h)
    (hn : Keyed.find eq key (key a) l = none) :
    Holds eq key value (a :: l) (.bind (key a) (value a) :: h) where
  distinct := distinct_cons.2 ⟨find_eq_none_iff.1 hn, hh.distinct⟩
  find k := by
    simp only [latest]
    rcases hk : eq k (key a) with _ | _
    · rw [find_cons_of_ne hk, hh.find]
      rfl
    · rw [find_cons_of_eq hk]
      rfl
  length := by
    have hl : latest eq h (key a) = none := by rw [← hh.find, hn]; rfl
    simp [boundKeys, hl, hh.length]

theorem bind_old (he : IsEquiv eq) (hh : Holds eq key value (a :: l) h)
    (hk : eq k (key a) = true) (hb : key b = key a) :
    Holds eq key value (b :: l) (.bind k (value b) :: h) where
  distinct := hh.distinct.congr he (by rw [hb, he.refl])
  find m := by
    simp only [latest]
    rw [find_cons_congr he (by rw [hb, he.refl] : eq (key a) (key b) = true), he.congr_right hk m]
    split_ifs
    · rfl
    · exact hh.find m
  length := by
    have hl : (latest eq h k).isSome = true := by
      rw [← hh.find, find_cons_of_eq hk]
      rfl
    simp only [boundKeys, hl, if_true]
    rw [← hh.length]
    rfl

theorem unbind (he : IsEquiv eq) (hh : Holds eq key value (a :: l) h)
    (hk : eq k (key a) = true) : Holds eq key value l (.unbind k :: h) where
  distinct := (distinct_cons.1 hh.distinct).2
  find m := by
    simp only [latest]
    rw [he.congr_right hk m]
    split_ifs with hm
    · have hn : Keyed.find eq key m l = none := find_eq_none_iff.2 fun b hb => by
        rw [he.congr_left hm]
        exact (distinct_cons.1 hh.distinct).1 b hb
      rw [hn]
      rfl
    · rw [← hh.find, find_cons_of_ne (Bool.eq_false_iff.2 hm)]
  length := by
    have hl : (latest eq h k).isSome = true := by
      rw [← hh.find, find_cons_of_eq hk]
      rfl
    have hlen := hh.length
    rw [← length_filter_boundKeys he hl] at hlen
    simpa [boundKeys] using hlen

theorem unbind_none (he : IsEquiv eq) (hh : Holds eq key value l h)
    (hn : Keyed.find eq key k l = none) : Holds eq key value l (.unbind k :: h) where
  distinct := hh.distinct
  find m := by
    simp only [latest]
    rw [hh.find]
    split_ifs with hm
    · rw [latest_congr he hm, ← hh.find, hn]
      rfl
    · rfl
  length := by
    have hl : latest eq h k = none := by rw [← hh.find, hn]; rfl
    simp only [boundKeys]
    rw [filter_boundKeys_of_none he hl, hh.length]

end Holds

end Keyed
