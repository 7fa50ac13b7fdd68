import Mathlib.Data.List.AList

/-!
# Binding arguments to named slots

A binder first fills slots by position and then goes through named arguments. A name of a slot that
is still free fills it; a name of a filled slot is an error; a name of no slot is collected in a
dictionary, or is an error where nothing collects.

What the pass over the named arguments does is said at once: when it succeeds
(`bindNames_isSome_iff`), and which argument then is in which slot (`bindNames_args`) and in the
dictionary (`bindNames_extra`, `entries_insertAll_perm_iff`).
-/

namespace Binding

variable {κ V : Type*} [DecidableEq κ]

abbrev Dict (κ V : Type*) := AList fun _ : κ => V

/-- The slots filled so far, and what is collected under other names. -/
structure Slots (κ V : Type*) where
  args : List (Option V)
  extra : Dict κ V

def filled (args : List (Option V)) (i : Nat) : Bool := (args[i]?.join).isSome

def bindName (names : List κ) (collects : Bool) (s : Slots κ V) (p : κ × V) :
    Option (Slots κ V) :=
  match names.idxOf? p.1 with
  | some i => if filled s.args i then none else some { s with args := s.args.set i (some p.2) }
  | none => if collects then some { s with extra := s.extra.insert p.1 p.2 } else none

def bindNames (names : List κ) (collects : Bool) : Slots κ V → List (κ × V) → Option (Slots κ V)
  | s, [] => some s
  | s, p :: ps => (bindName names collects s p).bind fun s => bindNames names collects s ps

/-- Every name is of a slot or collected, no name is of a filled slot, and no slot is named twice. -/
structure Accepts (names : List κ) (collects : Bool) (args : List (Option V)) (ps : List (κ × V)) :
    Prop where
  known : ∀ p ∈ ps, p.1 ∈ names ∨ collects = true
  free : ∀ p ∈ ps, ∀ i, names[i]? = some p.1 → filled args i = false
  once : ((ps.map Prod.fst).filter (· ∈ names)).Nodup

theorem filled_set {args : List (Option V)} {i j : Nat} {v : V} (hi : i < args.length) :
    filled (args.set i (some v)) j = (decide (i = j) || filled args j) := by
  unfold filled
  rw [List.getElem?_set]
  by_cases h : i = j
  · subst h
    simp [hi]
  · simp [h]

theorem getElem?_of_idxOf? {names : List κ} {name : κ} {i : Nat}
    (h : names.idxOf? name = some i) : names[i]? = some name := by
  obtain ⟨hi, he, -⟩ := List.idxOf?_eq_some_iff.1 h
  rw [List.getElem?_eq_getElem hi, he]

omit [DecidableEq κ] in
theorem index_unique {names : List κ} (hn : names.Nodup) {name : κ} {i j : Nat}
    (hi : names[i]? = some name) (hj : names[j]? = some name) : i = j :=
  (List.getElem?_inj (List.getElem?_eq_some_iff.1 hi).1 hn).1 (hi.trans hj.symm)

section Pass

variable {names : List κ} {collects : Bool} {args : List (Option V)}

theorem accepts_nil : Accepts names collects args ([] : List (κ × V)) :=
  ⟨by simp, by simp, by simp⟩

/-- A name of a free slot. -/
theorem accepts_cons_slot (hn : names.Nodup) (hl : args.length = names.length) {p : κ × V}
    {ps : List (κ × V)} {i : Nat} (hi : names[i]? = some p.1) (hf : filled args i = false) :
    Accepts names collects args (p :: ps)
      ↔ Accepts names collects (args.set i (some p.2)) ps := by
  have hmem : p.1 ∈ names := List.mem_of_getElem? hi
  have hlt : i < args.length := by
    rw [hl]
    exact (List.getElem?_eq_some_iff.1 hi).1
  constructor
  · rintro ⟨hk, hfree, ho⟩
    rw [List.map_cons, List.filter_cons_of_pos (by simpa using hmem), List.nodup_cons] at ho
    refine ⟨fun q hq => hk q (List.mem_cons_of_mem _ hq), fun q hq j hj => ?_, ho.2⟩
    rw [filled_set hlt, hfree q (List.mem_cons_of_mem _ hq) j hj, Bool.or_false,
      decide_eq_false_iff_not]
    rintro rfl
    have hqp : q.1 = p.1 := Option.some.inj (hj.symm.trans hi)
    refine ho.1 (List.mem_filter.2 ⟨?_, by simpa using hmem⟩)
    rw [← hqp]
    exact List.mem_map_of_mem hq
  · rintro ⟨hk, hfree, ho⟩
    have hfree' : ∀ q ∈ ps, ∀ j, names[j]? = some q.1 → i ≠ j ∧ filled args j = false := by
      intro q hq j hj
      have := hfree q hq j hj
      rw [filled_set hlt, Bool.or_eq_false_iff, decide_eq_false_iff_not] at this
      exact this
    refine ⟨?_, ?_, ?_⟩
    · intro q hq
      rcases List.mem_cons.1 hq with rfl | hq
      · exact .inl hmem
      · exact hk q hq
    · intro q hq j hj
      rcases List.mem_cons.1 hq with rfl | hq
      · rw [index_unique hn hj hi]
        exact hf
      · exact (hfree' q hq j hj).2
    · rw [List.map_cons, List.filter_cons_of_pos (by simpa using hmem), List.nodup_cons]
      refine ⟨fun h => ?_, ho⟩
      obtain ⟨q, hq, hqp⟩ := List.mem_map.1 (List.mem_filter.1 h).1
      exact (hfree' q hq i (by rw [hi, hqp])).1 rfl

/-- A name of no slot. -/
theorem accepts_cons_extra {p : κ × V} {ps : List (κ × V)} (hp : p.1 ∉ names) :
    Accepts names collects args (p :: ps) ↔ collects = true ∧ Accepts names collects args ps := by
  have hfilter : ((p :: ps).map Prod.fst).filter (· ∈ names)
      = (ps.map Prod.fst).filter (· ∈ names) := by
    rw [List.map_cons, List.filter_cons_of_neg (by simpa using hp)]
  constructor
  · rintro ⟨hk, hfree, ho⟩
    rw [hfilter] at ho
    exact ⟨(hk p List.mem_cons_self).resolve_left hp,
      fun q hq => hk q (List.mem_cons_of_mem _ hq),
      fun q hq => hfree q (List.mem_cons_of_mem _ hq), ho⟩
  · rintro ⟨hc, hk, hfree, ho⟩
    refine ⟨?_, ?_, by rwa [hfilter]⟩
    · intro q hq
      exact .inr hc
    · intro q hq j hj
      rcases List.mem_cons.1 hq with rfl | hq
      · exact absurd (List.mem_of_getElem? hj) hp
      · exact hfree q hq j hj

theorem bindName_filled {s : Slots κ V} {p : κ × V} {i : Nat} (hi : names.idxOf? p.1 = some i)
    (hf : filled s.args i = true) : bindName names collects s p = none := by
  unfold bindName
  simp only [hi, hf, if_true]

theorem bindName_free {s : Slots κ V} {p : κ × V} {i : Nat} (hi : names.idxOf? p.1 = some i)
    (hf : filled s.args i = false) :
    bindName names collects s p = some { s with args := s.args.set i (some p.2) } := by
  unfold bindName
  simp only [hi, hf, Bool.false_eq_true, if_false]

theorem bindName_other {s : Slots κ V} {p : κ × V} (hi : names.idxOf? p.1 = none) :
    bindName names collects s p
      = if collects then some { s with extra := s.extra.insert p.1 p.2 } else none := by
  unfold bindName
  simp only [hi]

theorem length_bindName {s s' : Slots κ V} {p : κ × V}
    (h : bindName names collects s p = some s') : s'.args.length = s.args.length := by
  unfold bindName at h
  split at h
  · split at h
    · cases h
    · cases h
      exact List.length_set
  · split at h
    · cases h
      rfl
    · cases h

theorem bindNames_cons {s : Slots κ V} {p : κ × V} {ps : List (κ × V)} :
    bindNames names collects s (p :: ps)
      = (bindName names collects s p).bind fun s => bindNames names collects s ps := rfl

theorem bindNames_isSome_iff (hn : names.Nodup) {ps : List (κ × V)} {s : Slots κ V}
    (hl : s.args.length = names.length) :
    (bindNames names collects s ps).isSome = true ↔ Accepts names collects s.args ps := by
  induction ps generalizing s with
  | nil => simp [bindNames, accepts_nil]
  | cons p ps ih =>
    rw [bindNames_cons]
    rcases hi : names.idxOf? p.1 with _ | i
    · have hp : p.1 ∉ names := by simpa using hi
      rw [accepts_cons_extra hp, bindName_other hi]
      cases collects with
      | false => simp
      | true =>
        rw [if_pos rfl, Option.bind_some, ih (by exact hl)]
        exact ⟨fun h => ⟨rfl, h⟩, And.right⟩
    · have hi' := getElem?_of_idxOf? hi
      cases hf : filled s.args i with
      | true =>
        rw [bindName_filled hi hf]
        refine iff_of_false (by simp) fun h => ?_
        have := h.free p List.mem_cons_self i hi'
        rw [hf] at this
        cases this
      | false =>
        rw [accepts_cons_slot hn hl hi' hf, bindName_free hi hf, Option.bind_some]
        exact ih (by rw [List.length_set, hl])

/-- Each slot afterwards: what it had, else the argument of its name. -/
def named (names : List κ) (args : List (Option V)) (ps : List (κ × V)) : List (Option V) :=
  List.zipWith (fun name arg => arg.or (ps.lookup name)) names args

theorem named_nil : ∀ (names : List κ) (args : List (Option V)), args.length = names.length →
    named names args [] = args
  | [], [], _ => rfl
  | _ :: names, arg :: args, h => by
    have ih := named_nil names args (by simpa using h)
    unfold named at ih ⊢
    rw [List.zipWith_cons_cons, ih]
    simp

theorem length_named (hl : args.length = names.length) (ps : List (κ × V)) :
    (named names args ps).length = names.length := by
  simp [named, hl]

theorem getElem?_named {ps : List (κ × V)} {i : Nat} {name : κ} {arg : Option V}
    (hi : names[i]? = some name) (ha : args[i]? = some arg) :
    (named names args ps)[i]? = some (arg.or (ps.lookup name)) := by
  simp [named, List.getElem?_zipWith, hi, ha]

theorem named_set (hn : names.Nodup) (hl : args.length = names.length) {p : κ × V}
    {ps : List (κ × V)} {i : Nat} (hi : names[i]? = some p.1) (hf : filled args i = false) :
    named names (args.set i (some p.2)) ps = named names args (p :: ps) := by
  refine List.ext_getElem? fun j => ?_
  rcases hj : names[j]? with _ | name
  · have hlen : names.length ≤ j := List.getElem?_eq_none_iff.1 hj
    rw [List.getElem?_eq_none (by rw [length_named (by simp [hl])]; exact hlen),
      List.getElem?_eq_none (by rw [length_named hl]; exact hlen)]
  · have hjlt : j < args.length := by
      rw [hl]
      exact (List.getElem?_eq_some_iff.1 hj).1
    have haj := List.getElem?_eq_getElem hjlt
    by_cases hij : i = j
    · subst hij
      have hp : name = p.1 := Option.some.inj (hj.symm.trans hi)
      have hnone : args[i] = none := by
        unfold filled at hf
        rw [haj] at hf
        simpa using hf
      rw [getElem?_named hj (by rw [List.getElem?_set_self hjlt]), getElem?_named hj haj, hnone, hp,
        List.lookup_cons, beq_self_eq_true]
      rfl
    · have hne : name ≠ p.1 := fun h => hij (index_unique hn hi (h ▸ hj))
      rw [getElem?_named hj (by rw [List.getElem?_set_ne hij, haj]), getElem?_named hj haj,
        List.lookup_cons, beq_false_of_ne hne]

theorem named_cons_other {p : κ × V} {ps : List (κ × V)} (hp : p.1 ∉ names) :
    named names args (p :: ps) = named names args ps := by
  unfold named
  refine List.ext_getElem? fun j => ?_
  rw [List.getElem?_zipWith, List.getElem?_zipWith]
  rcases hj : names[j]? with _ | name
  · rfl
  · have hne : name ≠ p.1 := fun he => hp (he ▸ List.mem_of_getElem? hj)
    rcases args[j]? with _ | arg
    · rfl
    · show some (arg.or (((p.1, p.2) :: ps).lookup name)) = _
      rw [List.lookup_cons, beq_false_of_ne hne]

theorem bindNames_args (hn : names.Nodup) {ps : List (κ × V)} {s s' : Slots κ V}
    (hl : s.args.length = names.length) (h : bindNames names collects s ps = some s') :
    s'.args = named names s.args ps := by
  induction ps generalizing s with
  | nil =>
    cases h
    exact (named_nil _ _ hl).symm
  | cons p ps ih =>
    rw [bindNames_cons] at h
    rcases hi : names.idxOf? p.1 with _ | i
    · have hp : p.1 ∉ names := by simpa using hi
      rw [bindName_other hi] at h
      cases collects with
      | false => cases h
      | true =>
        rw [if_pos rfl, Option.bind_some] at h
        rw [ih (by exact hl) h, named_cons_other hp]
    · cases hf : filled s.args i with
      | true =>
        rw [bindName_filled hi hf] at h
        cases h
      | false =>
        rw [bindName_free hi hf, Option.bind_some] at h
        rw [ih (by simpa using hl) h, named_set hn hl (getElem?_of_idxOf? hi) hf]

/-- All entries inserted, one after the other. -/
def insertAll (d : Dict κ V) (ps : List (κ × V)) : Dict κ V :=
  ps.foldl (fun d p => d.insert p.1 p.2) d

/-- The arguments under names of no slot. -/
def others (names : List κ) (ps : List (κ × V)) : List (κ × V) := ps.filter (·.1 ∉ names)

theorem bindNames_extra {ps : List (κ × V)} {s s' : Slots κ V}
    (h : bindNames names collects s ps = some s') :
    s'.extra = insertAll s.extra (others names ps) := by
  induction ps generalizing s with
  | nil =>
    cases h
    rfl
  | cons p ps ih =>
    rw [bindNames_cons] at h
    unfold others
    rcases hi : names.idxOf? p.1 with _ | i
    · have hp : p.1 ∉ names := by simpa using hi
      rw [bindName_other hi] at h
      cases collects with
      | false => cases h
      | true =>
        rw [if_pos rfl, Option.bind_some] at h
        rw [ih h, others, List.filter_cons_of_pos (by simpa using hp)]
        rfl
    · have hp : p.1 ∈ names := List.mem_of_getElem? (getElem?_of_idxOf? hi)
      rw [List.filter_cons_of_neg (by simpa using hp)]
      cases hf : filled s.args i with
      | true =>
        rw [bindName_filled hi hf] at h
        cases h
      | false =>
        rw [bindName_free hi hf, Option.bind_some] at h
        rw [ih h]
        rfl

end Pass

theorem lookup_insertAll {k : κ} : ∀ (ps : List (κ × V)) (d : Dict κ V),
    (insertAll d ps).lookup k = (ps.reverse.lookup k).or (d.lookup k)
  | [], d => by simp [insertAll]
  | p :: ps, d => by
    unfold insertAll
    rw [List.foldl_cons]
    have ih := lookup_insertAll (k := k) ps (d.insert p.1 p.2)
    unfold insertAll at ih
    rw [ih, List.reverse_cons, List.lookup_append, Option.or_assoc]
    by_cases h : k = p.1
    · subst h
      rw [AList.lookup_insert, List.lookup_cons, beq_self_eq_true]
      rfl
    · rw [AList.lookup_insert_ne h, List.lookup_cons, beq_false_of_ne h]
      simp

/-- What an entry becomes when others are inserted after it: it stays when its key is not among
theirs, and is lost otherwise. -/
theorem lookup_insertAll_cons (p : κ × V) (ps : List (κ × V)) :
    (insertAll ∅ (p :: ps)).lookup p.1 = (ps.reverse.lookup p.1).or (some p.2) := by
  have hp : [p].lookup p.1 = some p.2 := by
    rw [List.lookup_cons, beq_self_eq_true]
  rw [lookup_insertAll, AList.lookup_empty, Option.or_none, List.reverse_cons, List.lookup_append,
    hp]

theorem lookup_insertAll_cons_of_notMem {p : κ × V} {ps : List (κ × V)}
    (h : p.1 ∉ ps.map Prod.fst) : (insertAll ∅ (p :: ps)).lookup p.1 = some p.2 := by
  have hnone : ps.reverse.lookup p.1 = none := by
    rw [List.lookup_eq_none_iff]
    intro q hq
    have : q.1 ∈ ps.map Prod.fst := List.mem_map_of_mem (List.mem_reverse.1 hq)
    simpa using fun he : p.1 = q.1 => h (he ▸ this)
  rw [lookup_insertAll_cons, hnone, Option.none_or]

theorem mem_of_lookup_insertAll {ps : List (κ × V)} {k : κ} {v : V}
    (h : (insertAll ∅ ps).lookup k = some v) : (k, v) ∈ ps := by
  rw [lookup_insertAll, AList.lookup_empty, Option.or_none] at h
  obtain ⟨before, after, he, -⟩ := List.lookup_eq_some_iff.1 h
  rw [← List.mem_reverse, he]
  simp

theorem mem_of_lookup_insertAll_cons {p : κ × V} {ps : List (κ × V)} {v : V}
    (hm : p.1 ∈ ps.map Prod.fst) (h : (insertAll ∅ (p :: ps)).lookup p.1 = some v) :
    (p.1, v) ∈ ps := by
  have hsome : (ps.reverse.lookup p.1).isSome = true := by
    rw [List.lookup_isSome_iff]
    obtain ⟨q, hq, he⟩ := List.mem_map.1 hm
    exact ⟨q, List.mem_reverse.2 hq, by simp [he]⟩
  obtain ⟨w, hw⟩ := Option.isSome_iff_exists.1 hsome
  rw [lookup_insertAll_cons, hw, Option.some_or] at h
  have hw' : (insertAll ∅ ps).lookup p.1 = some w := by
    rw [lookup_insertAll, hw, Option.some_or]
  cases h
  exact mem_of_lookup_insertAll hw'

theorem entries_insertAll_perm : ∀ (ps : List (κ × V)) (d : Dict κ V),
    (ps.map Prod.fst).Nodup → (∀ p ∈ ps, p.1 ∉ d) →
    (insertAll d ps).entries.Perm (ps.map Prod.toSigma ++ d.entries)
  | [], d, _, _ => List.Perm.refl _
  | p :: ps, d, hn, hd => by
    rw [List.map_cons, List.nodup_cons] at hn
    have ih := entries_insertAll_perm ps (d.insert p.1 p.2) hn.2 (by
      intro q hq hmem
      rw [AList.mem_insert] at hmem
      rcases hmem with h | h
      · exact hn.1 (h ▸ List.mem_map_of_mem hq)
      · exact hd q (List.mem_cons_of_mem _ hq) h)
    rw [AList.entries_insert_of_notMem (hd p List.mem_cons_self)] at ih
    exact ih.trans List.perm_middle

/-- The dictionary has exactly the entries inserted when no two of them have one name. -/
theorem entries_insertAll_perm_iff {ps : List (κ × V)} :
    (insertAll ∅ ps).entries.Perm (ps.map Prod.toSigma) ↔ (ps.map Prod.fst).Nodup := by
  constructor
  · intro h
    have hk := (h.map Sigma.fst).nodup_iff.1 (insertAll ∅ ps).nodupKeys
    rw [List.map_map] at hk
    exact hk
  · intro h
    have := entries_insertAll_perm _ (∅ : Dict κ V) h (fun p _ => AList.notMem_empty _)
    rwa [show (∅ : Dict κ V).entries = [] from rfl, List.append_nil] at this

end Binding
