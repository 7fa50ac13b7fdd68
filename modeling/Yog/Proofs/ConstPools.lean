import Mathlib.Data.Finset.Card
import Mathlib.Data.List.Dedup
import Yog.ConstPool
import Yog.Proofs.Comparison
import Yog.Proofs.HashTable
import Yog.Proofs.StringOrder

/-!
# Constants are what was registered

Two literals are equal by the method `==` only if they are one and the same, type and value
(`Literal.equal_iff`): `<=>` is nil between two classes, the zeros and the numbers that are no
number have no digits, and an integer is read in one representation. So the table of
`register_const` numbers the literals in the order of their first occurrences (`Numbers`), and the
array that is made of it has each at its number.
-/

namespace Yog

open Keyed

namespace Double

theorem rank_of_spelt {f : UInt64} (h : Spelt f) : rank f = f.toNat := if_pos h.1

theorem ufo_eq_zero_iff {f g : UInt64} (hf : Spelt f) (hg : Spelt g) : ufo f g = 0 ↔ f = g := by
  unfold ufo
  rw [rank_of_spelt hf, rank_of_spelt hg]
  simp only [hf.2, hg.2, not_false_eq_true, true_and, Int.natCast_inj, UInt64.toNat_inj]
  split_ifs with hlt heq
  · refine iff_of_false (by decide) ?_
    rintro rfl
    exact lt_irrefl _ hlt
  · exact iff_of_true rfl heq
  · exact iff_of_false (by decide) heq

end Double

theorem Integer.ufo_eq_zero_iff {n m : Integer} (hn : n = .ofInt n.toInt)
    (hm : m = .ofInt m.toInt) : n.ufo m = some 0 ↔ n = m := by
  have hiff := Integer.ufo_eq_iff n m
  have hsame (h : n.toInt = m.toInt) : n = m := by rw [hn, hm, h]
  constructor
  · intro h
    have hclass : ¬ (n.IsFixnum ∧ ¬ m.IsFixnum) := by
      rintro ⟨hfix, hbig⟩
      rcases n with n | n
      · rcases m with m | m
        · exact hbig trivial
        · exact absurd h (by simp [Integer.ufo, Fixnum.binopUfo])
      · exact hfix
    have hsign : ¬ (n.toInt = 0 ∧ m.toInt = 0 ∧ n.sign ≠ m.sign) := fun ⟨h₁, h₂, hne⟩ =>
      hne (by rw [hsame (h₁.trans h₂.symm)])
    rw [hiff.2 ⟨hclass, hsign⟩, Option.some.injEq, Int.sign_eq_zero_iff_zero] at h
    exact hsame (by omega)
  · rintro rfl
    rw [hiff.2 ⟨fun h => h.2 h.1, fun h => h.2.2 rfl⟩, Int.sub_self]
    rfl

namespace Literal

/-- What is equal is of one type and value. -/
theorem equal_iff (a b : Literal) : a.equal b = true ↔ a = b := by
  rcases a with ⟨n, hn⟩ | ⟨f, hf⟩ | s | id | _ | c | o
  · rcases b with ⟨m, hm⟩ | _ | _ | _ | _ | _ | _
    · simp [equal, ufo, Integer.ufo_eq_zero_iff hn hm]
    all_goals simp [equal, ufo]
  · rcases b with _ | ⟨g, hg⟩ | _ | _ | _ | _ | _
    · simp [equal, ufo]
    · simp [equal, ufo, Double.ufo_eq_zero_iff hf hg]
    all_goals simp [equal, ufo]
  · rcases b with _ | _ | t | _ | _ | _ | _ <;> simp [equal, ufo, YogString.ufo_eq_zero_iff]
  all_goals rcases b <;> simp [equal, ufo]

theorem typeVal_lawful (floatHash : UInt64 → Int) (objectHash : Nat → Int) :
    (typeVal floatHash objectHash).Lawful where
  equiv := {
    refl := fun k => (equal_iff k k).2 rfl
    symm := fun h => (equal_iff _ _).2 ((equal_iff _ _).1 h).symm
    trans := fun h h' => (equal_iff _ _).2 (((equal_iff _ _).1 h).trans ((equal_iff _ _).1 h')) }
  hash h := by rw [(equal_iff _ _).1 h]

end Literal

namespace ConstPool

variable {K : Type} {T : HashType K} {t : Table K Nat} {consts : List K}

/-- The entry of a constant. -/
def numbered (T : HashType K) (p : K × Nat) : TableEntry K Nat := ⟨T.hash p.1, p.1, p.2⟩

/-- The table numbers the constants in their order. -/
structure Numbers (T : HashType K) (t : Table K Nat) (consts : List K) : Prop where
  inv : ∃ h, Table.Inv T t h
  entries : t.entries.Perm (consts.zipIdx.map (numbered T))
  nodup : consts.Nodup

/-- There may be no table yet. -/
def Holds (T : HashType K) (t : Option (Table K Nat)) (consts : List K) : Prop :=
  match t with
  | none => consts = []
  | some t => Numbers T t consts

theorem Numbers.numEntries (hn : Numbers T t consts) : t.numEntries = consts.length := by
  obtain ⟨h, hi⟩ := hn.inv
  rw [hi.numEntries, hn.entries.length_eq, List.length_map, List.length_zipIdx]

theorem mem_numbered {e : TableEntry K Nat} (hn : Numbers T t consts) :
    e ∈ t.entries ↔ consts[e.record]? = some e.key ∧ e.hash = T.hash e.key := by
  rw [hn.entries.mem_iff, List.mem_map]
  constructor
  · rintro ⟨⟨k, i⟩, hk, rfl⟩
    exact ⟨List.mem_zipIdx_iff_getElem?.1 hk, rfl⟩
  · rintro ⟨hk, hhash⟩
    exact ⟨(e.key, e.record), List.mem_zipIdx_iff_getElem?.2 hk, by rw [numbered, ← hhash]⟩

section Exact

variable (hT : T.Lawful) (hexact : ∀ k l, T.compare k l = true ↔ k = l)

include hT hexact

/-- A constant is found at its number. -/
theorem Numbers.lookup_eq (hn : Numbers T t consts) (k : K) (i : Nat) :
    t.lookup k = some i ↔ consts[i]? = some k := by
  obtain ⟨h, hi⟩ := hn.inv
  have hfind : t.lookup k = (Keyed.find T.compare TableEntry.key k t.entries).map (·.record) := by
    rw [hi.lookup_eq hT, hi.holds.find]
  rw [hfind, Option.map_eq_some_iff]
  constructor
  · rintro ⟨e, he, rfl⟩
    obtain ⟨hmem, heq⟩ := (Keyed.find_eq_some_iff hT.equiv hi.holds.distinct).1 he
    rw [(hexact _ _).1 heq]
    exact ((mem_numbered hn).1 hmem).1
  · intro hk
    refine ⟨⟨T.hash k, k, i⟩, ?_, rfl⟩
    exact (Keyed.find_eq_some_iff hT.equiv hi.holds.distinct).2
      ⟨(mem_numbered hn).2 ⟨hk, rfl⟩, (hexact _ _).2 rfl⟩

/-- A constant that is there has its number; another gets the next, if the table can hold it. -/
theorem registerConst_eq {t : Option (Table K Nat)} (h : Holds T t consts) (const : K) :
    (∃ i t', consts[i]? = some const ∧ registerConst T t const = .ok (t', i) ∧
        Numbers T t' consts) ∨
      (const ∉ consts ∧ consts.length < 6 * Table.largest ∧ ∃ t',
        registerConst T t const = .ok (t', consts.length) ∧ Numbers T t' (consts ++ [const])) ∨
      const ∉ consts ∧ ¬ consts.length < 6 * Table.largest ∧
        registerConst T t const = .error .divisionByZero := by
  obtain ⟨t₀, ht₀, hn⟩ : ∃ t₀, const2indexOf T t = .ok t₀ ∧ Numbers T t₀ consts := by
    rcases t with _ | t
    · obtain ⟨t₀, ht₀, hi⟩ := Table.inv_init (V := Nat) T
      obtain rfl : consts = [] := h
      refine ⟨t₀, ht₀, ⟨[], hi⟩, ?_, .nil⟩
      have hlen : t₀.entries.length = 0 := hi.holds.length
      rw [List.length_eq_zero_iff.1 hlen]
      rfl
    · exact ⟨t, rfl, h⟩
  obtain ⟨h₀, hi⟩ := hn.inv
  rcases hlook : t₀.lookup const with _ | i
  · have hnew : const ∉ consts := fun hmem => by
      obtain ⟨i, hi⟩ := List.mem_iff_getElem?.1 hmem
      rw [(hn.lookup_eq hT hexact const i).2 hi] at hlook
      exact absurd hlook (by simp)
    have hrun : registerConst T t const =
        (t₀.addDirect const consts.length).map fun t' => (t', consts.length) := by
      unfold registerConst
      rw [ht₀]
      simp only [bind, Except.bind, hlook, hn.numEntries]
      rcases t₀.addDirect const consts.length with e | t' <;> rfl
    have hlatest : latest T.compare h₀ const = none := by rw [← hi.lookup_eq hT, hlook]
    by_cases hroom : consts.length < 6 * Table.largest
    · obtain ⟨t', ht', hi', hperm⟩ := hi.addDirect_ok hT consts.length hlatest
        (by rwa [hn.numEntries])
      refine .inr (.inl ⟨hnew, hroom, t', by rw [hrun, ht']; rfl, ⟨_, hi'⟩, ?_, ?_⟩)
      · rw [List.zipIdx_append, List.map_append]
        refine hperm.trans ((hn.entries.cons _).trans ?_)
        simpa [numbered] using (List.perm_append_singleton _ _).symm
      · exact List.nodup_append.2 ⟨hn.nodup, by simp, fun a ha b hb => by
          rw [List.mem_singleton.1 hb]
          rintro rfl
          exact hnew ha⟩
    · refine .inr (.inr ⟨hnew, hroom, ?_⟩)
      rw [hrun, Table.addDirect, hi.addDirectAt_error (by rwa [hn.numEntries])]
      rfl
  · refine .inl ⟨i, t₀, (hn.lookup_eq hT hexact const i).1 hlook, ?_, hn⟩
    unfold registerConst
    rw [ht₀]
    simp only [bind, Except.bind, hlook]
    rfl

end Exact

theorem foreach_eq {σ : Type} (f : σ → K → Nat → σ) (t : Table K Nat) (arg : σ) :
    foreach f t arg = t.entries.foldl (fun arg e => f arg e.key e.record) arg := by
  rw [foreach, Table.entries, List.foldl_flatten]

/-- The greatest of the numbers is found. -/
theorem foldl_countIndex (es : List (TableEntry K Nat)) (arg : Int) :
    (∀ e ∈ es, (e.record : Int) ≤ es.foldl (fun arg e => countIndex arg e.key e.record) arg) ∧
      arg ≤ es.foldl (fun arg e => countIndex arg e.key e.record) arg ∧
      (es.foldl (fun arg e => countIndex arg e.key e.record) arg = arg ∨
        ∃ e ∈ es, es.foldl (fun arg e => countIndex arg e.key e.record) arg = e.record) := by
  induction es generalizing arg with
  | nil => simp
  | cons e es ih =>
    obtain ⟨hall, hge, hsome⟩ := ih (countIndex arg e.key e.record)
    have hstep : arg ≤ countIndex arg e.key e.record ∧
        (e.record : Int) ≤ countIndex arg e.key e.record := by
      unfold countIndex
      split_ifs <;> omega
    rw [List.foldl_cons]
    refine ⟨fun d hd => ?_, hstep.1.trans hge, ?_⟩
    · rcases List.mem_cons.1 hd with rfl | hd
      · exact hstep.2.trans hge
      · exact hall d hd
    · rcases hsome with heq | ⟨d, hd, heq⟩
      · rw [heq]
        unfold countIndex
        split_ifs
        · exact .inr ⟨e, List.mem_cons_self, rfl⟩
        · exact .inl rfl
      · exact .inr ⟨d, List.mem_cons_of_mem _ hd, heq⟩

/-- Each number is filled with its constant. -/
theorem foldl_fillArray {es : List (TableEntry K Nat)}
    (hes : ∀ e ∈ es, consts[e.record]? = some e.key) (arg : List (Option K)) (i : Nat)
    (hi : i < arg.length) :
    (es.foldl (fun arg e => fillArray arg e.key e.record) arg)[i]? =
      if i ∈ es.map (·.record) then some consts[i]? else arg[i]? := by
  induction es generalizing arg with
  | nil => simp
  | cons e es ih =>
    rw [List.foldl_cons, ih (fun d hd => hes d (List.mem_cons_of_mem _ hd)) _
      (by simpa [fillArray])]
    have he := hes e List.mem_cons_self
    by_cases hmem : i ∈ es.map (·.record)
    · rw [if_pos hmem, if_pos (by simp only [List.map_cons, List.mem_cons, hmem, or_true])]
    · rw [if_neg hmem, fillArray]
      by_cases heq : i = e.record
      · subst heq
        rw [if_pos (by simp), List.getElem?_set_self hi, he]
      · rw [if_neg (by simp [heq, hmem]),
          List.getElem?_set_ne (Ne.symm heq)]

theorem length_foldl_fillArray (es : List (TableEntry K Nat)) (arg : List (Option K)) :
    (es.foldl (fun arg e => fillArray arg e.key e.record) arg).length = arg.length := by
  induction es generalizing arg with
  | nil => rfl
  | cons e es ih => rw [List.foldl_cons, ih, fillArray, List.length_set]

theorem mem_records (hn : Numbers T t consts) (i : Nat) :
    i ∈ t.entries.map (·.record) ↔ i < consts.length := by
  rw [List.mem_map]
  constructor
  · rintro ⟨e, he, rfl⟩
    exact (List.getElem?_eq_some_iff.1 ((mem_numbered hn).1 he).1).1
  · intro hi
    exact ⟨numbered T (consts[i], i), (mem_numbered hn).2 ⟨List.getElem?_eq_getElem hi, rfl⟩, rfl⟩

/-- The array has the constants at their numbers. -/
theorem table2array_eq {t : Option (Table K Nat)} (h : Holds T t consts) :
    table2array t = if consts = [] then none else some (consts.map some) := by
  rcases t with _ | t
  · obtain rfl : consts = [] := h
    rfl
  · have hn : Numbers T t consts := h
    obtain ⟨hall, -, hmax⟩ := foldl_countIndex t.entries (- 2 ^ 31)
    rw [table2array, foreach_eq, foreach_eq]
    generalize t.entries.foldl (fun arg e => countIndex arg e.key e.record) (- 2 ^ 31) = m
      at hall hmax ⊢
    by_cases hempty : consts = []
    · have hnone : ∀ e, e ∉ t.entries := fun e he => by
        have hk := ((mem_numbered hn).1 he).1
        rw [hempty] at hk
        exact absurd hk (by simp)
      obtain rfl : m = - 2 ^ 31 := hmax.resolve_right fun ⟨e, he, _⟩ => hnone e he
      rw [if_pos hempty]
      rfl
    · have hpos : 0 < consts.length := List.length_pos_iff.2 hempty
      obtain ⟨e, he, hlast⟩ := List.mem_map.1 ((mem_records hn (consts.length - 1)).2 (by omega))
      have hge := hall e he
      have hle : m < consts.length := by
        rcases hmax with rfl | ⟨d, hd, rfl⟩
        · omega
        · have := (mem_records hn d.record).1 (List.mem_map_of_mem hd)
          omega
      have hsize : (m + 1).toNat = consts.length := by omega
      rw [if_neg hempty]
      simp only [if_pos (show 0 ≤ m by omega), hsize, Option.some.injEq]
      refine List.ext_getElem? fun i => ?_
      by_cases hi : i < consts.length
      · rw [foldl_fillArray (fun d hd => ((mem_numbered hn).1 hd).1) _ _ (by simpa using hi),
          if_pos ((mem_records hn i).2 hi), List.getElem?_map, List.getElem?_eq_getElem hi]
        rfl
      · rw [List.getElem?_eq_none (by rw [length_foldl_fillArray, List.length_replicate]; omega),
          List.getElem?_eq_none (by rw [List.length_map]; omega)]

/-- The constants with those of `ls` that are not among them, in the order they come in. -/
def extend [DecidableEq K] (consts : List K) : List K → List K
  | [] => consts
  | l :: ls => extend (if l ∈ consts then consts else consts ++ [l]) ls

section Extend

variable [DecidableEq K]

theorem extend_eq (consts ls : List K) : ∃ new, extend consts ls = consts ++ new := by
  induction ls generalizing consts with
  | nil => exact ⟨[], (List.append_nil _).symm⟩
  | cons l ls ih =>
    obtain ⟨new, hnew⟩ := ih (if l ∈ consts then consts else consts ++ [l])
    rw [extend, hnew]
    split_ifs
    · exact ⟨new, rfl⟩
    · exact ⟨l :: new, by simp⟩

theorem getElem?_extend {i : Nat} {k : K} (h : consts[i]? = some k) (ls : List K) :
    (extend consts ls)[i]? = some k := by
  obtain ⟨new, hnew⟩ := extend_eq consts ls
  rw [hnew, List.getElem?_append_left (List.getElem?_eq_some_iff.1 h).1, h]

theorem mem_extend (ls : List K) (k : K) : k ∈ extend consts ls ↔ k ∈ consts ∨ k ∈ ls := by
  induction ls generalizing consts with
  | nil => simp [extend]
  | cons l ls ih =>
    rw [extend, ih, List.mem_cons]
    split_ifs with hl
    · exact ⟨fun h => h.imp_right .inr, fun h => h.elim .inl fun h => h.elim
        (fun heq => .inl (heq ▸ hl)) .inr⟩
    · rw [List.mem_append, List.mem_singleton, or_assoc]

theorem nodup_extend (ls : List K) (h : consts.Nodup) : (extend consts ls).Nodup := by
  induction ls generalizing consts with
  | nil => exact h
  | cons l ls ih =>
    rw [extend]
    split_ifs with hl
    · exact ih h
    · refine ih (List.nodup_append.2 ⟨h, by simp, fun a ha b hb => ?_⟩)
      rw [List.mem_singleton.1 hb]
      rintro rfl
      exact hl ha

theorem length_extend (ls : List K) : (extend [] ls).length = ls.dedup.length := by
  refine ((List.perm_ext_iff_of_nodup (nodup_extend ls .nil) (List.nodup_dedup _)).2
    fun k => ?_).length_eq
  rw [mem_extend, List.mem_dedup, or_iff_right (by simp)]

end Extend

section Exact

variable [DecidableEq K] (hT : T.Lawful) (hexact : ∀ k l, T.compare k l = true ↔ k = l)

include hT hexact

/-- The literals are numbered as long as the table can hold them. -/
theorem registerAll_eq (ls : List K) {t : Option (Table K Nat)} (hpool : Holds T t consts)
    (hfit : consts.length ≤ 6 * Table.largest) :
    (∃ t' indices, registerAll T t ls = .ok (t', indices) ∧ Holds T t' (extend consts ls) ∧
        (extend consts ls).length ≤ 6 * Table.largest ∧
        List.Forall₂ (fun l i => (extend consts ls)[i]? = some l) ls indices) ∨
      ¬ (extend consts ls).length ≤ 6 * Table.largest ∧
        registerAll T t ls = .error .divisionByZero := by
  induction ls generalizing consts t with
  | nil => exact .inl ⟨t, [], rfl, hpool, hfit, .nil⟩
  | cons l ls ih =>
    rcases registerConst_eq hT hexact hpool l with
      ⟨i, t', hi, hrun, hn⟩ | ⟨hnew, hroom, t', hrun, hn⟩ | ⟨hnew, hfull, hrun⟩
    · rw [extend, if_pos (List.mem_of_getElem? hi), registerAll, hrun]
      rcases ih (t := some t') hn hfit with
        ⟨t'', indices, hrest, hpool', hle, hall⟩ | ⟨hlong, hrest⟩
      · refine .inl ⟨t'', i :: indices, ?_, hpool', hle, hall.cons (getElem?_extend hi ls)⟩
        simp only [bind, Except.bind, hrest]
        rfl
      · refine .inr ⟨hlong, ?_⟩
        simp only [bind, Except.bind, hrest]
    · rw [extend, if_neg hnew, registerAll, hrun]
      have hi : (consts ++ [l])[consts.length]? = some l := by simp
      have hfit' : (consts ++ [l]).length ≤ 6 * Table.largest := by
        rw [List.length_append, List.length_singleton]
        omega
      rcases ih (t := some t') hn hfit' with
        ⟨t'', indices, hrest, hpool', hle, hall⟩ | ⟨hlong, hrest⟩
      · refine .inl ⟨t'', consts.length :: indices, ?_, hpool', hle,
          hall.cons (getElem?_extend hi ls)⟩
        simp only [bind, Except.bind, hrest]
        rfl
      · refine .inr ⟨hlong, ?_⟩
        simp only [bind, Except.bind, hrest]
    · refine .inr ⟨?_, ?_⟩
      · obtain ⟨new, hnew'⟩ := extend_eq (consts ++ [l]) ls
        rw [extend, if_neg hnew, hnew']
        simp only [List.length_append, List.length_singleton]
        omega
      · rw [registerAll, hrun]
        rfl

end Exact

theorem forall₂_mem_left {α β : Type} {R : α → β → Prop} {as : List α} {bs : List β}
    (h : List.Forall₂ R as bs) {a : α} (ha : a ∈ as) : ∃ b ∈ bs, R a b := by
  induction h with
  | nil => simp at ha
  | @cons x y as bs hr _ ih =>
    rcases List.mem_cons.1 ha with rfl | ha
    · exact ⟨y, List.mem_cons_self, hr⟩
    · obtain ⟨b, hb, hr'⟩ := ih ha
      exact ⟨b, List.mem_cons_of_mem _ hb, hr'⟩

/-- What the indices and the array of a body are to its literals. -/
structure Faithful [DecidableEq K] (ls : List K) (indices : List Nat)
    (consts : Option (List (Option K))) : Prop where
  /-- What is loaded for a literal is the literal. -/
  loaded : List.Forall₂ (fun l i => constAt consts i = some l) ls indices
  /-- The indices are those of the array, each of them. -/
  dense : ∀ i, i ∈ indices ↔ i < (consts.getD []).length
  /-- And it has as many items as there are different literals. -/
  size : (consts.getD []).length = ls.dedup.length

variable (floatHash : UInt64 → Int) (objectHash : Nat → Int)

/-- The literals of a body are all loaded as they are, whatever the table thinks of their hashes,
and what the table can hold is all that stops it. -/
theorem registerAll_faithful (ls : List Literal) :
    (∀ t indices, registerAll (Literal.typeVal floatHash objectHash) none ls = .ok (t, indices) →
        Faithful ls indices (table2array t)) ∧
      ((∃ t indices, registerAll (Literal.typeVal floatHash objectHash) none ls = .ok (t, indices)) ↔
        ls.dedup.length ≤ 6 * Table.largest) := by
  have hrun := registerAll_eq (Literal.typeVal_lawful floatHash objectHash) Literal.equal_iff ls
    (show Holds _ none [] from rfl) (Nat.zero_le _)
  rw [length_extend] at hrun
  rcases hrun with ⟨t, indices, hrun, hpool, hle, hall⟩ | ⟨hlong, hrun⟩
  · refine ⟨?_, iff_of_true ⟨t, indices, hrun⟩ hle⟩
    intro t' indices' hrun'
    obtain ⟨rfl, rfl⟩ : t = t' ∧ indices = indices' := by simpa [hrun] using hrun'
    have harray : (table2array t).getD [] = (extend [] ls).map some := by
      rw [table2array_eq hpool]
      split_ifs with hempty
      · rw [hempty]
        rfl
      · rfl
    have hconst (i : Nat) : constAt (table2array t) i = (extend [] ls)[i]? := by
      rw [constAt, table2array_eq hpool]
      split_ifs with hempty
      · simp [hempty]
      · rcases h : (extend [] ls)[i]? <;> simp [h]
    refine { loaded := ?_, dense := fun i => ?_, size := ?_ }
    · simpa only [hconst] using hall
    · rw [harray, List.length_map]
      constructor
      · intro hi
        obtain ⟨l, -, hl⟩ := forall₂_mem_left hall.flip hi
        exact (List.getElem?_eq_some_iff.1 hl).1
      · intro hi
        have hmem : (extend [] ls)[i] ∈ ls := by
          simpa using (mem_extend ls _).1 (List.getElem_mem hi)
        obtain ⟨j, hj, hl⟩ := forall₂_mem_left hall hmem
        obtain ⟨_, hl⟩ := List.getElem?_eq_some_iff.1 hl
        rwa [← (nodup_extend ls .nil).getElem_inj_iff.1 hl]
    · rw [harray, List.length_map, length_extend]
  · refine ⟨?_, iff_of_false ?_ hlong⟩
    · intro t indices hok
      rw [hrun] at hok
      exact absurd hok (by simp)
    · rintro ⟨t, indices, hok⟩
      rw [hrun] at hok
      exact absurd hok (by simp)

end ConstPool

end Yog
