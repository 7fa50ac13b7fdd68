import Yog.Lib.Runs
import Yog.Table
import Mathlib.Data.List.GetD

/-!
# Hash tables are finite maps

Every operation leaves the entries of a table those of the map after the changes so far
(`Keyed.Holds`), and each entry in the bin of its hash: a rehash only moves entries. A table grows
from each prime of `primes` to the next. From the last it cannot: the run of a table goes on exactly
as long as no key is added beyond six for each bin of the largest number (`table_iff`).
-/

namespace Yog

open Keyed

variable {K V : Type}

/-- Keys compare by an equivalence, and equal keys have one hash. -/
structure HashType.Lawful (type : HashType K) : Prop where
  equiv : IsEquiv type.compare
  hash : ∀ {k k'}, type.compare k k' = true → type.hash k = type.hash k'

namespace Table

def entries (t : Table K V) : List (TableEntry K V) := t.bins.flatten

/-- The change an operation is to make. -/
def Op.change? : Op K V → Option (Change K V)
  | .insert key value | .addDirect key value => some (.bind key value)
  | .lookup _ => none
  | .delete key => some (.unbind key)

/-- The changes of the operations, the latest first. -/
def history (ops : List (Op K V)) : List (Change K V) := (ops.filterMap Op.change?).reverse

/-- Every entry is in the bin of its hash. -/
def Placed (T : HashType K) (t : Table K V) : Prop :=
  t.bins.length = t.numBins
    ∧ ∀ pos, ∀ e ∈ t.bin pos, e.hash = T.hash e.key ∧ T.hash e.key % t.numBins = pos

/-- The table holds the map after the changes. -/
structure Represents (T : HashType K) (h : List (Change K V)) (t : Table K V) : Prop where
  lookup : ∀ key, t.lookup key = latest T.compare h key
  numEntries : t.numEntries = (boundKeys T.compare h).length
  distinct : Distinct T.compare TableEntry.key t.entries
  placed : Placed T t

/-- The numbers of bins a table can have. -/
def sizes : List Nat := primes.dropLast

def largest : Nat := 1073741824 + 85

theorem newSize_of_ne : ∀ {size}, size ∈ sizes → size ≠ largest →
    ∃ size' ∈ sizes, newSize (size + 1) = size' ∧ size < size' := by
  decide

theorem newSize_largest : newSize (largest + 1) = 0 := by decide

theorem size_pos : ∀ {size}, size ∈ sizes → 0 < size := by decide

theorem size_le : ∀ {size}, size ∈ sizes → size ≤ largest := by decide

/-- What every operation keeps. -/
structure Inv (T : HashType K) (t : Table K V) (h : List (Change K V)) : Prop where
  type : t.type = T
  placed : Placed T t
  holds : Holds T.compare TableEntry.key TableEntry.record t.entries h
  numEntries : t.numEntries = t.entries.length
  size : t.numBins ∈ sizes
  dense : t.numEntries ≤ 6 * t.numBins

/-- A bin and the entries of the others. -/
theorem exists_rest {bins : List (List (TableEntry K V))} {pos : Nat} (hp : pos < bins.length) :
    ∃ rest, bins.flatten.Perm (bins.getD pos [] ++ rest)
      ∧ ∀ f, (bins.modify pos f).flatten.Perm (f (bins.getD pos []) ++ rest) := by
  have hsplit : ∀ (l r : List (List (TableEntry K V))) c,
      (l ++ c :: r).flatten.Perm (c ++ (l.flatten ++ r.flatten)) := fun l r c => by
    rw [List.flatten_append, List.flatten_cons, ← List.append_assoc, ← List.append_assoc]
    exact List.perm_append_comm.append_right _
  refine ⟨(bins.take pos).flatten ++ (bins.drop (pos + 1)).flatten, ?_, fun f => ?_⟩
  · conv_lhs => rw [← List.take_append_drop pos bins, List.drop_eq_getElem_cons hp]
    rw [List.getD_eq_getElem _ _ hp]
    exact hsplit _ _ _
  · rw [List.modify_eq_take_cons_drop hp, List.getD_eq_getElem _ _ hp]
    exact hsplit _ _ _

theorem getD_modify (bins : List (List (TableEntry K V))) {pos : Nat} (hp : pos < bins.length)
    (f : List (TableEntry K V) → List (TableEntry K V)) (i : Nat) :
    (bins.modify pos f).getD i [] = if i = pos then f (bins.getD pos []) else bins.getD i [] := by
  split_ifs with hi
  · subst hi
    rw [List.getD_eq_getElem _ _ (by simpa using hp), List.getElem_modify_eq,
      List.getD_eq_getElem _ _ hp]
  · rw [List.getD_eq_getElem?_getD, List.getElem?_modify_ne _ _ (Ne.symm hi),
      ← List.getD_eq_getElem?_getD]

section Chains

variable {t : Table K V} {hash : Nat} {key : K} {value : V} {e : TableEntry K V}

theorem setRecord_perm (value : V) : ∀ {chain : List (TableEntry K V)},
    chain.find? (t.ptrEqual hash key) = some e → ∃ rest, chain.Perm (e :: rest)
      ∧ (t.setRecord hash key value chain).Perm ({ e with record := value } :: rest)
  | [], h => by simp at h
  | d :: chain, h => by
    unfold setRecord
    rcases hd : t.ptrEqual hash key d with _ | _
    · rw [List.find?_cons_of_neg (by simp [hd])] at h
      obtain ⟨rest, h₁, h₂⟩ := setRecord_perm value h
      rw [if_neg (by simp)]
      exact ⟨d :: rest, (h₁.cons d).trans (.swap _ _ _), (h₂.cons d).trans (.swap _ _ _)⟩
    · rw [List.find?_cons_of_pos hd] at h
      obtain rfl := Option.some.inj h
      rw [if_pos rfl]
      exact ⟨chain, .refl _, .refl _⟩

theorem mem_setRecord : ∀ {chain : List (TableEntry K V)},
    e ∈ t.setRecord hash key value chain → ∃ d ∈ chain, d.hash = e.hash ∧ d.key = e.key
  | [], h => by simp [setRecord] at h
  | d :: chain, h => by
    unfold setRecord at h
    split_ifs at h
    · rcases List.mem_cons.1 h with rfl | h
      · exact ⟨d, List.mem_cons_self, rfl, rfl⟩
      · exact ⟨e, List.mem_cons_of_mem _ h, rfl, rfl⟩
    · rcases List.mem_cons.1 h with rfl | h
      · exact ⟨e, List.mem_cons_self, rfl, rfl⟩
      · obtain ⟨d', hd', h'⟩ := mem_setRecord h
        exact ⟨d', List.mem_cons_of_mem _ hd', h'⟩

theorem deleteNext_none : ∀ {chain : List (TableEntry K V)}, t.deleteNext key chain = none →
    ∀ d ∈ chain, t.type.compare d.key key = false
  | [], _ => by simp
  | d :: chain, h => by
    unfold deleteNext at h
    split_ifs at h with hd
    rw [Option.map_eq_none_iff] at h
    intro d' hd'
    rcases List.mem_cons.1 hd' with rfl | hd'
    · exact Bool.eq_false_iff.2 hd
    · exact deleteNext_none h d' hd'

theorem deleteNext_some : ∀ {chain rest : List (TableEntry K V)},
    t.deleteNext key chain = some (e, rest) →
      t.type.compare e.key key = true ∧ chain.Perm (e :: rest)
  | [], _, h => by simp [deleteNext] at h
  | d :: chain, rest, h => by
    unfold deleteNext at h
    split_ifs at h with hd
    · obtain ⟨rfl, rfl⟩ := Prod.mk.inj (Option.some.inj h)
      exact ⟨hd, .refl _⟩
    · obtain ⟨⟨d', rest'⟩, h', he⟩ := Option.map_eq_some_iff.1 h
      obtain ⟨hd', rfl⟩ := Prod.mk.inj he
      rw [hd'] at h'
      obtain ⟨hk, hp⟩ := deleteNext_some h'
      exact ⟨hk, (hp.cons d).trans (.swap _ _ _)⟩

end Chains

namespace Inv

variable {T : HashType K} {t : Table K V} {h : List (Change K V)} {key : K} {value : V}
  {e : TableEntry K V}

theorem pos_lt (hi : Inv T t h) (hash : Nat) : hash % t.numBins < t.bins.length := by
  rw [hi.placed.1]
  exact Nat.mod_lt _ (size_pos hi.size)

theorem mem_entries (hi : Inv T t h) :
    e ∈ t.entries ↔ e ∈ t.bin (T.hash e.key % t.numBins) ∧ e.hash = T.hash e.key := by
  unfold entries
  rw [List.mem_flatten]
  constructor
  · rintro ⟨chain, hc, he⟩
    obtain ⟨pos, hp, rfl⟩ := List.getElem_of_mem hc
    have hb : e ∈ t.bin pos := by
      unfold bin
      rwa [List.getD_eq_getElem _ _ hp]
    obtain ⟨hh, hpos⟩ := hi.placed.2 pos e hb
    rw [hpos]
    exact ⟨hb, hh⟩
  · rintro ⟨he, -⟩
    unfold bin at he
    rw [List.getD_eq_getElem _ _ (hi.pos_lt _)] at he
    exact ⟨_, List.getElem_mem _, he⟩

/-- The entry that is found is the one of the key. -/
theorem findEntry_eq (hT : T.Lawful) (hi : Inv T t h) (key : K) :
    t.findEntry (T.hash key) key = Keyed.find T.compare TableEntry.key key t.entries := by
  have hbin : ∀ d ∈ t.bin (T.hash key % t.numBins), d ∈ t.entries := fun d hd => by
    obtain ⟨hh, hpos⟩ := hi.placed.2 _ d hd
    refine hi.mem_entries.2 ⟨?_, hh⟩
    rwa [hpos]
  have hcmp : ∀ d, t.ptrEqual (T.hash key) key d = true → T.compare key d.key = true :=
    fun d hd => by
      unfold ptrEqual at hd
      rw [Bool.and_eq_true, hi.type] at hd
      exact hd.2
  have hmem : ∀ d, t.findEntry (T.hash key) key = some d →
      d ∈ t.entries ∧ T.compare key d.key = true := fun d hd =>
    ⟨hbin d (List.mem_of_find?_eq_some hd), hcmp d (List.find?_some hd)⟩
  rcases hf : t.findEntry (T.hash key) key with _ | d
  · refine (find_eq_none_iff.2 fun d hd => ?_).symm
    by_contra hk
    rw [Bool.not_eq_false] at hk
    obtain ⟨hd, hh⟩ := hi.mem_entries.1 hd
    rw [← hT.hash hk] at hd hh
    have := List.find?_eq_none.1 hf d hd
    unfold ptrEqual at this
    simp [hh, hi.type, hk] at this
  · exact ((find_eq_some_iff hT.equiv hi.holds.distinct).2 (hmem d hf)).symm

theorem lookup_eq (hT : T.Lawful) (hi : Inv T t h) (key : K) :
    t.lookup key = latest T.compare h key := by
  unfold lookup
  rw [hi.type, hi.findEntry_eq hT, hi.holds.find]

theorem represents (hT : T.Lawful) (hi : Inv T t h) : Represents T h t where
  lookup := hi.lookup_eq hT
  numEntries := by rw [hi.numEntries, hi.holds.length]
  distinct := hi.holds.distinct
  placed := hi.placed

end Inv

theorem foldlM_chains {σ : Type} {f : σ → TableEntry K V → Except TableError σ} :
    ∀ (bins : List (List (TableEntry K V))) (s : σ),
      bins.foldlM (fun s chain => chain.foldlM f s) s = bins.flatten.foldlM f s
  | [], s => rfl
  | chain :: bins, s => by
    rw [List.flatten_cons, List.foldlM_append, List.foldlM_cons]
    congr 1
    funext s
    exact foldlM_chains bins s

theorem allocBins_natCast (size : Nat) :
    allocBins (K := K) (V := V) size = .ok (List.replicate size []) := by
  unfold allocBins
  rw [if_neg (by omega)]
  rfl

/-- `rehash` where the new size is none: the first entry fails. -/
theorem foldlM_rehashEntry_zero {l : List (TableEntry K V)} (hl : l ≠ [])
    (bins : List (List (TableEntry K V))) :
    l.foldlM (rehashEntry 0) bins = .error .divisionByZero := by
  obtain ⟨e, l, rfl⟩ := List.exists_cons_of_ne_nil hl
  rfl

/-- Where every entry of some goes to the top of its bin. -/
def relink (size : Nat) (bins : List (List (TableEntry K V))) (l : List (TableEntry K V)) :
    List (List (TableEntry K V)) :=
  l.foldl (fun bins e => bins.modify (e.hash % size) (e :: ·)) bins

theorem foldlM_rehashEntry {size : Nat} (hs : 0 < size) (l : List (TableEntry K V))
    (bins : List (List (TableEntry K V))) :
    l.foldlM (rehashEntry size) bins = .ok (relink size bins l) := by
  induction l generalizing bins with
  | nil => rfl
  | cons e l ih =>
    rw [List.foldlM_cons]
    unfold rehashEntry
    rw [if_neg (by omega)]
    exact ih _

theorem relink_spec {size : Nat} (hs : 0 < size) : ∀ (l : List (TableEntry K V))
    (bins : List (List (TableEntry K V))), bins.length = size →
      (relink size bins l).length = size
        ∧ (relink size bins l).flatten.Perm (l ++ bins.flatten)
        ∧ ∀ pos, ∀ e ∈ (relink size bins l).getD pos [],
          (e ∈ l ∧ e.hash % size = pos) ∨ e ∈ bins.getD pos []
  | [], bins, h => ⟨h, .refl _, fun _ _ he => .inr he⟩
  | d :: l, bins, h => by
    have hp : d.hash % size < bins.length := by
      rw [h]
      exact Nat.mod_lt _ hs
    obtain ⟨hlen, hperm, hmem⟩ := relink_spec hs l
      (bins.modify (d.hash % size) (d :: ·)) (by rw [List.length_modify, h])
    obtain ⟨rest, h₁, h₂⟩ := exists_rest hp
    refine ⟨hlen, ?_, fun pos e he => ?_⟩
    · refine hperm.trans (((h₂ _).append_left l).trans ?_)
      exact List.perm_middle.trans ((h₁.symm.append_left l).cons d)
    · rcases hmem pos e he with ⟨he, hpos⟩ | he
      · exact .inl ⟨List.mem_cons_of_mem _ he, hpos⟩
      · rw [getD_modify _ hp] at he
        split_ifs at he with hpos
        · rcases List.mem_cons.1 he with rfl | he
          · exact .inl ⟨List.mem_cons_self, hpos.symm⟩
          · rw [hpos]
            exact .inr he
        · exact .inr he

namespace Inv

variable {T : HashType K} {t : Table K V} {h : List (Change K V)} {key : K} {value : V}

theorem rehash_ok (hT : T.Lawful) (hi : Inv T t h) (hn : t.numBins ≠ largest) :
    ∃ t', t.rehash = .ok t' ∧ Inv T t' h ∧ t'.numEntries = t.numEntries
      ∧ t.numBins < t'.numBins ∧ t'.entries.Perm t.entries := by
  obtain ⟨size, hsize, hnew, hlt⟩ := newSize_of_ne hi.size hn
  have hs := size_pos hsize
  obtain ⟨hlen, hperm, hmem⟩ := relink_spec hs t.bins.flatten
    (List.replicate size []) List.length_replicate
  have hnil : (List.replicate size ([] : List (TableEntry K V))).flatten = [] := by simp
  rw [hnil, List.append_nil] at hperm
  refine ⟨{ t with numBins := size, bins := relink size (List.replicate size []) t.bins.flatten },
    ?_, ?_, rfl, hlt, hperm⟩
  · unfold rehash
    rw [hnew]
    simp only [allocBins_natCast, bind, Except.bind, Int.toNat_natCast]
    rw [foldlM_chains, foldlM_rehashEntry hs]
    rfl
  · constructor
    · exact hi.type
    · refine ⟨hlen, fun pos e he => ?_⟩
      rcases hmem pos e he with ⟨he, hpos⟩ | he
      · obtain ⟨-, hh⟩ := hi.mem_entries.1 he
        rw [hh] at hpos
        exact ⟨hh, hpos⟩
      · rw [List.getD_eq_getElem?_getD, List.getElem?_replicate] at he
        split_ifs at he <;> simp at he
    · exact hi.holds.perm hT.equiv hperm.symm
    · exact hi.numEntries.trans hperm.length_eq.symm
    · exact hsize
    · exact hi.dense.trans (by simp only; omega)

theorem rehash_largest (hn : t.numBins = largest) (hl : t.entries ≠ []) :
    t.rehash = .error .divisionByZero := by
  unfold entries at hl
  unfold rehash
  rw [hn, newSize_largest]
  simp only [allocBins, bind, Except.bind, Int.toNat_zero]
  rw [if_neg (by omega)]
  dsimp only
  rw [foldlM_chains, foldlM_rehashEntry_zero hl]

/-- A change of one bin. -/
theorem modify (hT : T.Lawful) (hi : Inv T t h) {pos n : Nat} {h' : List (Change K V)}
    {f : List (TableEntry K V) → List (TableEntry K V)} (hp : pos < t.bins.length)
    (hf : ∀ e ∈ f (t.bin pos), e.hash = T.hash e.key ∧ T.hash e.key % t.numBins = pos)
    (hh : ∀ rest, Holds T.compare TableEntry.key TableEntry.record (t.bin pos ++ rest) h →
      Holds T.compare TableEntry.key TableEntry.record (f (t.bin pos) ++ rest) h')
    (hlen : n + (t.bin pos).length = t.numEntries + (f (t.bin pos)).length)
    (hd : n ≤ 6 * t.numBins) :
    Inv T { t with bins := t.bins.modify pos f, numEntries := n } h' := by
  obtain ⟨rest, h₁, h₂⟩ := exists_rest hp
  constructor
  · exact hi.type
  · refine ⟨(List.length_modify ..).trans hi.placed.1, fun i e he => ?_⟩
    unfold bin at he
    rw [getD_modify _ hp] at he
    split_ifs at he with hpos
    · rw [hpos]
      exact hf e he
    · exact hi.placed.2 i e he
  · exact (hh rest (hi.holds.perm hT.equiv h₁)).perm hT.equiv (h₂ f).symm
  · have hn := hi.numEntries
    unfold entries at hn ⊢
    have h₃ := (h₂ f).length_eq
    rw [h₁.length_eq, List.length_append] at hn
    rw [List.length_append] at h₃
    unfold bin at hlen
    simp only at h₃ ⊢
    omega
  · exact hi.size
  · exact hd

/-- A new entry on top of its bin. -/
theorem add (hT : T.Lawful) (hi : Inv T t h) (hn : latest T.compare h key = none)
    (hd : t.numEntries < 6 * t.numBins) :
    Inv T { t with
      bins := t.bins.modify (T.hash key % t.numBins) (⟨T.hash key, key, value⟩ :: ·)
      numEntries := t.numEntries + 1 } (.bind key value :: h) := by
  refine hi.modify hT (hi.pos_lt _) (fun e he => ?_) (fun rest hr => ?_) ?_ hd
  · rcases List.mem_cons.1 he with rfl | he
    · exact ⟨rfl, rfl⟩
    · exact hi.placed.2 _ _ he
  · rw [← hr.find, Option.map_eq_none_iff] at hn
    exact hr.bind_new (a := ⟨T.hash key, key, value⟩) hn
  · rw [List.length_cons]
    omega

/-- The entry is all that comes to those there are. -/
theorem add_perm (hi : Inv T t h) (e : TableEntry K V) (n : Nat) :
    ({ t with
      bins := t.bins.modify (T.hash key % t.numBins) (e :: ·)
      numEntries := n } : Table K V).entries.Perm (e :: t.entries) := by
  obtain ⟨rest, h₁, h₂⟩ := exists_rest (hi.pos_lt (T.hash key))
  exact (h₂ (e :: ·)).trans (h₁.symm.cons e)

theorem addDirectAt_ok (hT : T.Lawful) (hi : Inv T t h) (value : V)
    (hn : latest T.compare h key = none) (hb : t.numEntries < 6 * largest) :
    ∃ t', t.addDirectAt key value (T.hash key) (T.hash key % t.numBins) = .ok t'
      ∧ Inv T t' (.bind key value :: h)
      ∧ t'.entries.Perm (⟨T.hash key, key, value⟩ :: t.entries) := by
  have hpos := size_pos hi.size
  unfold addDirectAt
  by_cases hd : 5 < t.numEntries / t.numBins
  · rw [if_pos hd]
    have hfull : 6 * t.numBins ≤ t.numEntries := by
      have := (Nat.le_div_iff_mul_le hpos).1 hd
      omega
    obtain ⟨t', ht', hi', he, hlt, hperm⟩ :=
      hi.rehash_ok hT (fun hl => by rw [hl] at hfull; omega)
    rw [ht']
    exact ⟨_, rfl, hi'.add hT hn (by have := hi.dense; omega),
      (hi'.add_perm _ _).trans (hperm.cons _)⟩
  · rw [if_neg hd]
    have hroom : t.numEntries < 6 * t.numBins := by
      rw [Nat.not_lt, ← Nat.lt_add_one_iff, Nat.div_lt_iff_lt_mul hpos] at hd
      omega
    exact ⟨_, rfl, hi.add hT hn hroom, hi.add_perm _ _⟩

theorem addDirect_ok (hT : T.Lawful) (hi : Inv T t h) (value : V)
    (hn : latest T.compare h key = none) (hb : t.numEntries < 6 * largest) :
    ∃ t', t.addDirect key value = .ok t' ∧ Inv T t' (.bind key value :: h)
      ∧ t'.entries.Perm (⟨T.hash key, key, value⟩ :: t.entries) := by
  unfold addDirect doHashBin
  rw [hi.type]
  exact hi.addDirectAt_ok hT value hn hb

theorem addDirectAt_error (hi : Inv T t h) (hb : ¬t.numEntries < 6 * largest) (hash pos : Nat) :
    t.addDirectAt key value hash pos = .error .divisionByZero := by
  have hle := size_le hi.size
  have hd := hi.dense
  have hn : t.numBins = largest := by omega
  have hl : t.entries ≠ [] := fun hl => by
    have := hi.numEntries
    rw [hl, List.length_nil] at this
    unfold largest at hb
    omega
  unfold addDirectAt
  rw [if_pos, rehash_largest hn hl]
  · rfl
  · rw [← Nat.succ_le_iff, Nat.le_div_iff_mul_le (size_pos hi.size)]
    omega

/-- The record of the entry found is set. -/
theorem set (hT : T.Lawful) (hi : Inv T t h) {e : TableEntry K V}
    (hf : t.findEntry (T.hash key) key = some e) :
    Inv T { t with
      bins := t.bins.modify (T.hash key % t.numBins) (t.setRecord (T.hash key) key value) }
      (.bind key value :: h) := by
  obtain ⟨rest, h₁, h₂⟩ := setRecord_perm value hf
  have hk : T.compare key e.key = true := by
    have := List.find?_some hf
    unfold ptrEqual at this
    rw [Bool.and_eq_true, hi.type] at this
    exact this.2
  refine hi.modify hT (hi.pos_lt _) (fun e he => ?_) (fun r hr => ?_) ?_ hi.dense
  · obtain ⟨d, hd, hh, hk⟩ := mem_setRecord he
    rw [← hh, ← hk]
    exact hi.placed.2 _ _ hd
  · have hr := hr.perm hT.equiv (h₁.append_right r)
    exact (hr.bind_old hT.equiv (b := { e with record := value }) hk rfl).perm hT.equiv
      (h₂.append_right r).symm
  · have := h₁.length_eq
    have := h₂.length_eq
    rw [List.length_cons] at *
    omega

/-- An entry leaves its bin. -/
theorem unlink (hT : T.Lawful) (hi : Inv T t h) {e : TableEntry K V}
    {chain : List (TableEntry K V)} (hk : T.compare key e.key = true)
    (hp : (t.bin (T.hash key % t.numBins)).Perm (e :: chain)) :
    Inv T (t.unlink (T.hash key % t.numBins) e chain).1 (.unbind key :: h) := by
  have hlen := hp.length_eq
  rw [List.length_cons] at hlen
  refine hi.modify hT (hi.pos_lt _) (fun e he => ?_) (fun r hr => ?_) ?_ ?_
  · exact hi.placed.2 _ _ (hp.mem_iff.2 (List.mem_cons_of_mem _ he))
  · exact (hr.perm hT.equiv (hp.append_right r)).unbind hT.equiv hk
  · have hle : (t.bin (T.hash key % t.numBins)).length ≤ t.numEntries := by
      obtain ⟨rest, h₁, -⟩ := exists_rest (hi.pos_lt (T.hash key))
      rw [hi.numEntries]
      unfold entries bin
      rw [h₁.length_eq, List.length_append]
      omega
    omega
  · have := hi.dense
    omega

theorem delete (hT : T.Lawful) (hi : Inv T t h) (nil : V) (key : K) :
    Inv T (t.delete nil key).1 (.unbind key :: h) := by
  have hnone : (∀ e ∈ t.bin (T.hash key % t.numBins), T.compare key e.key = false) →
      Inv T t (.unbind key :: h) := fun hall => by
    have hf : Keyed.find T.compare TableEntry.key key t.entries = none := by
      rw [← hi.findEntry_eq hT]
      refine List.find?_eq_none.2 fun e he => ?_
      unfold ptrEqual
      simp [hi.type, hall e he]
    exact ⟨hi.type, hi.placed, hi.holds.unbind_none hT.equiv hf, hi.numEntries, hi.size, hi.dense⟩
  unfold Table.delete doHashBin
  rw [hi.type]
  dsimp only
  rcases hb : t.bin (T.hash key % t.numBins) with _ | ⟨e, es⟩
  · exact hnone fun e he => by simp [hb] at he
  · dsimp only
    split_ifs with hk
    · exact hi.unlink hT hk (by rw [hb])
    · rcases hd : t.deleteNext key es with _ | ⟨d, rest⟩
      · refine hnone fun e' he' => ?_
        rw [hb] at he'
        rcases List.mem_cons.1 he' with rfl | he'
        · exact Bool.eq_false_iff.2 hk
        · rw [hT.equiv.comm, ← hi.type]
          exact deleteNext_none hd e' he'
      · obtain ⟨hkd, hp⟩ := deleteNext_some hd
        rw [hi.type] at hkd
        refine hi.unlink hT (hT.equiv.symm hkd) ?_
        rw [hb]
        exact (hp.cons e).trans (.swap _ _ _)

end Inv

/-- The operation adds a key to a table that holds the map after the changes. -/
def Op.Adds (T : HashType K) (h : List (Change K V)) : Op K V → Prop
  | .insert key _ => latest T.compare h key = none
  | .addDirect _ _ => True
  | .lookup _ | .delete _ => False

/-- A direct addition is of a key that is not bound. -/
def Op.Proper (T : HashType K) (h : List (Change K V)) : Op K V → Prop
  | .addDirect key _ => latest T.compare h key = none
  | .insert _ _ | .lookup _ | .delete _ => True

/-- No key is added to six for each bin a table can have. -/
def Op.HasRoom (T : HashType K) (h : List (Change K V)) (op : Op K V) : Prop :=
  op.Adds T h → (boundKeys T.compare h).length < 6 * largest

/-- The operations leave a table that holds the map after them, also once it is rehashed: only a
table with entries ever is. -/
def Keeps (nil : V) (T : HashType K) (ops : List (Op K V)) : Prop :=
  ∃ t, run nil T ops = .ok t ∧ Represents T (history ops) t
    ∧ (0 < t.numEntries → ∀ t', t.rehash = .ok t' → Represents T (history ops) t')

section Runs

variable {T : HashType K} {t : Table K V} {h : List (Change K V)} {op : Op K V}
  {ops : List (Op K V)}

theorem inv_init (T : HashType K) : ∃ t, stInitTable (V := V) T = .ok t ∧ Inv T t [] := by
  refine ⟨⟨T, 11, 0, List.replicate 11 []⟩, rfl, rfl, ⟨rfl, fun pos e he => ?_⟩, .nil, rfl, ?_, ?_⟩
  · unfold bin at he
    rw [List.getD_eq_getElem?_getD, List.getElem?_replicate] at he
    split_ifs at he <;> simp at he
  · exact List.mem_cons_self
  · exact Nat.zero_le _

theorem history_append (ops : List (Op K V)) (op : Op K V) :
    history (ops ++ [op]) = op.change?.toList ++ history ops := by
  unfold history
  rw [List.filterMap_append, List.reverse_append]
  cases op <;> rfl

theorem run_append (nil : V) (T : HashType K) (ops : List (Op K V)) (op : Op K V) :
    run nil T (ops ++ [op]) = run nil T ops >>= fun t => exec nil t op := by
  unfold run
  rcases stInitTable (V := V) T with e | t
  · rfl
  · simp only [bind, Except.bind]
    rw [List.foldlM_append]
    rcases h : ops.foldlM (exec nil) t with e | t'
    · rfl
    · exact bind_pure (exec nil t' op)

theorem Inv.length_boundKeys (hi : Inv T t h) :
    (boundKeys T.compare h).length = t.numEntries := by
  rw [hi.numEntries, hi.holds.length]

theorem exec_ok (hT : T.Lawful) (hi : Inv T t h) (hp : op.Proper T h) (hr : op.HasRoom T h)
    (nil : V) : ∃ t', exec nil t op = .ok t' ∧ Inv T t' (op.change?.toList ++ h) := by
  unfold Op.HasRoom at hr
  rw [hi.length_boundKeys] at hr
  cases op with
  | insert key value =>
    unfold exec Table.insert
    dsimp only
    rw [show t.type.hash key = T.hash key by rw [hi.type]]
    rcases hf : t.findEntry (T.hash key) key with _ | e
    · have hn : latest T.compare h key = none := by
        rw [← hi.holds.find, ← hi.findEntry_eq hT, hf]
        rfl
      obtain ⟨t', ht, hi', -⟩ := hi.addDirectAt_ok hT value hn (hr hn)
      exact ⟨t', by rw [ht]; rfl, hi'⟩
    · exact ⟨_, rfl, hi.set hT hf⟩
  | addDirect key value =>
    obtain ⟨t', ht, hi', -⟩ := hi.addDirect_ok hT value hp (hr trivial)
    exact ⟨t', ht, hi'⟩
  | lookup key => exact ⟨t, rfl, hi⟩
  | delete key => exact ⟨_, rfl, hi.delete hT nil key⟩

theorem exec_error (hT : T.Lawful) (hi : Inv T t h) (hr : ¬op.HasRoom T h) (nil : V) :
    exec nil t op = .error .divisionByZero := by
  unfold Op.HasRoom at hr
  rw [hi.length_boundKeys, Classical.not_imp] at hr
  obtain ⟨ha, hb⟩ := hr
  cases op with
  | insert key value =>
    have hf : t.findEntry (T.hash key) key = none := by
      have ha : latest T.compare h key = none := ha
      rwa [← hi.holds.find, Option.map_eq_none_iff, ← hi.findEntry_eq hT] at ha
    unfold exec Table.insert
    rw [hi.type]
    dsimp only
    rw [hf]
    dsimp only
    rw [hi.addDirectAt_error hb]
    rfl
  | addDirect key value => exact hi.addDirectAt_error hb _ _
  | lookup key => exact ha.elim
  | delete key => exact ha.elim

/-- The run of the operations goes through, and keeps the invariant. -/
def Runs (nil : V) (T : HashType K) (ops : List (Op K V)) : Prop :=
  ∃ t, run nil T ops = .ok t ∧ Inv T t (history ops)

theorem runs_nil (nil : V) (T : HashType K) : Runs nil T [] := by
  obtain ⟨t, ht, hi⟩ := inv_init (V := V) T
  exact ⟨t, by unfold run; rw [ht]; rfl, hi⟩

theorem Runs.append (hT : T.Lawful) {nil : V} (hp : op.Proper T (history ops))
    (hr : op.HasRoom T (history ops)) (h : Runs nil T ops) : Runs nil T (ops ++ [op]) := by
  obtain ⟨t, ht, hi⟩ := h
  obtain ⟨t', ht', hi'⟩ := exec_ok hT hi hp hr nil
  unfold Runs
  rw [run_append, ht, history_append]
  exact ⟨t', ht', hi'⟩

theorem Runs.keeps (hT : T.Lawful) {nil : V} (h : Runs nil T ops) : Keeps nil T ops := by
  obtain ⟨t, ht, hi⟩ := h
  refine ⟨t, ht, hi.represents hT, fun he t' ht' => ?_⟩
  by_cases hn : t.numBins = largest
  · have hl : t.entries ≠ [] := fun hl => by
      rw [hi.numEntries, hl] at he
      exact Nat.lt_irrefl _ he
    rw [Inv.rehash_largest hn hl] at ht'
    cases ht'
  · obtain ⟨t'', h', hi', -⟩ := hi.rehash_ok hT hn
    rw [h'] at ht'
    obtain rfl := Except.ok.inj ht'
    exact hi'.represents hT

theorem Runs.not_keeps (hT : T.Lawful) {nil : V} (hr : ¬op.HasRoom T (history ops))
    (h : Runs nil T ops) : ¬Keeps nil T (ops ++ [op]) := by
  obtain ⟨t, ht, hi⟩ := h
  rintro ⟨t', ht', -⟩
  rw [run_append, ht] at ht'
  simp only [bind, Except.bind] at ht'
  rw [exec_error hT hi hr] at ht'
  cases ht'

/-- **Tables as finite maps.** Every run of operations, direct additions being of absent keys,
leaves at each point a table that holds the map after them, exactly as long as no key is added to
six keys for each bin of the largest number. -/
theorem table_iff (T : HashType K) (hT : T.Lawful) (nil : V) (ops : List (Op K V))
    (hp : ∀ pre op, pre ++ [op] <+: ops → op.Proper T (history pre)) :
    (∀ pre, pre <+: ops → Keeps nil T pre)
      ↔ ∀ pre op, pre ++ [op] <+: ops → op.HasRoom T (history pre) :=
  prefixes_iff (runs_nil nil T) (fun _ _ hp hr h => h.append hT hp hr) (fun _ h => h.keeps hT)
    (fun _ _ _ hr h => h.not_keeps hT hr) ops hp

end Runs

/-- Keys that are numbers, hashed to themselves. -/
def natType : HashType Nat where
  compare k k' := k == k'
  hash := id

theorem natType_lawful : natType.Lawful where
  equiv := {
    refl := fun k => beq_self_eq_true k
    symm := fun h => beq_iff_eq.2 (beq_iff_eq.1 h).symm
    trans := fun h h' => beq_iff_eq.2 ((beq_iff_eq.1 h).trans (beq_iff_eq.1 h')) }
  hash h := beq_iff_eq.1 h

theorem table_iff_one_key :
    (∀ pre, pre <+: [Op.insert 1 10, .delete 1, .addDirect 1 20] → Keeps 0 natType pre)
      ↔ ∀ pre op, pre ++ [op] <+: [Op.insert 1 10, .delete 1, .addDirect 1 20] →
        op.HasRoom natType (history pre) :=
  table_iff natType natType_lawful 0 _ <| forall_prefix_iff.2 fun
    | 0, _ => trivial
    | 1, _ => trivial
    | 2, _ => rfl

/-- The keys below a number, one after the other. -/
def inserts (n : Nat) : List (Op Nat Nat) := (List.range n).map fun k => .insert k k

theorem inserts_succ (n : Nat) : inserts (n + 1) = inserts n ++ [.insert n n] := by
  unfold inserts
  rw [List.range_succ, List.map_append]
  rfl

theorem latest_inserts (n k : Nat) :
    latest natType.compare (history (inserts n)) k = if k < n then some k else none := by
  induction n with
  | zero => rfl
  | succ n ih =>
    rw [inserts_succ, history_append]
    simp only [Op.change?, Option.toList, List.cons_append, List.nil_append, latest, ih]
    by_cases hk : k = n
    · subst hk
      simp [natType]
    · rw [if_neg (by simpa [natType] using hk)]
      exact if_congr (by omega) rfl rfl

theorem length_boundKeys_inserts (n : Nat) :
    (boundKeys natType.compare (history (inserts n))).length = n := by
  induction n with
  | zero => rfl
  | succ n ih =>
    rw [inserts_succ, history_append]
    simp [Op.change?, boundKeys, latest_inserts, ih]

/-- The last insertion divides by zero. -/
theorem not_keeps_inserts : ¬∀ pre, pre <+: inserts (6 * largest + 1) → Keeps 0 natType pre := by
  intro h
  have hruns : ∀ n, n ≤ 6 * largest → Runs 0 natType (inserts n) := fun n => by
    induction n with
    | zero => exact fun _ => runs_nil 0 natType
    | succ n ih =>
      intro hn
      rw [inserts_succ]
      refine (ih (by omega)).append natType_lawful trivial fun _ => ?_
      rw [length_boundKeys_inserts]
      omega
  have hk := h _ (List.prefix_refl _)
  rw [inserts_succ] at hk
  refine (hruns _ le_rfl).not_keeps natType_lawful (fun hr => ?_) hk
  have ha : (Op.insert (6 * largest) (6 * largest)).Adds natType
      (history (inserts (6 * largest))) :=
    (latest_inserts _ _).trans (if_neg (lt_irrefl _))
  have := hr ha
  rw [length_boundKeys_inserts] at this
  exact lt_irrefl _ this

end Table

end Yog
