import Mathlib.Data.List.GetD
import Yog.Proofs.HashTable
import Yog.TableIteration

/-!
# Iterators meet every entry once

What an iterator has still to meet is the rest of the bin it is in and the bins from its index on
(`remaining`). A step takes the first of it or, if nothing is left, reports the end and leaves
nothing (`next_eq`); so a loop over an iterator is a fold over the entries (`whileNext_eq`).
-/

namespace Yog

variable {K V σ ε : Type}

namespace TableIterator

variable {iter : TableIterator K V}

/-- The entries that are still to be met. -/
def remaining (iter : TableIterator K V) : List (TableEntry K V) :=
  iter.entry.tail ++ (iter.tbl.bins.drop iter.binsIndex).flatten

/-- Only empty bins are skipped. -/
theorem skipBins_spec (t : Table K V) (hb : t.bins.length = t.numBins) {n i : Nat}
    (hn : i + n = t.numBins) :
    (skipBins t n i < t.numBins ∧ t.bin (skipBins t n i) ≠ [] ∧ (t.bins.drop i).flatten =
        t.bin (skipBins t n i) ++ (t.bins.drop (skipBins t n i + 1)).flatten) ∨
      skipBins t n i = t.numBins ∧ (t.bins.drop i).flatten = [] := by
  induction n generalizing i with
  | zero => exact .inr ⟨hn, by rw [List.drop_of_length_le (by omega), List.flatten_nil]⟩
  | succ n ih =>
    have hi : i < t.bins.length := by omega
    have hbin : t.bin i = t.bins[i] := List.getD_eq_getElem _ _ hi
    have hdrop : (t.bins.drop i).flatten = t.bin i ++ (t.bins.drop (i + 1)).flatten := by
      rw [List.drop_eq_getElem_cons hi, List.flatten_cons, hbin]
    rw [skipBins]
    split_ifs with hempty
    · rw [hdrop, hempty, List.nil_append]
      exact ih (by omega)
    · exact .inl ⟨by omega, hempty, hdrop⟩

/-- Behind the last entry of a bin, as before the first, the bins decide. -/
theorem next_of_tail_eq_nil (h : iter.entry.tail = []) : iter.next =
    if skipBins iter.tbl (iter.tbl.numBins - iter.binsIndex) iter.binsIndex < iter.tbl.numBins then
      (true, { iter with
        binsIndex := skipBins iter.tbl (iter.tbl.numBins - iter.binsIndex) iter.binsIndex + 1
        entry := iter.tbl.bin
          (skipBins iter.tbl (iter.tbl.numBins - iter.binsIndex) iter.binsIndex) })
    else (false, { iter with
      binsIndex := skipBins iter.tbl (iter.tbl.numBins - iter.binsIndex) iter.binsIndex }) := by
  obtain ⟨t, i, _ | ⟨e, _ | ⟨e', es⟩⟩⟩ := iter
  · rfl
  · rfl
  · exact absurd h (List.cons_ne_nil _ _)

/-- An iterator that is to meet nothing more reports the end; another goes on to the first entry it
is to meet. -/
theorem next_eq (hb : iter.tbl.bins.length = iter.tbl.numBins)
    (hi : iter.binsIndex ≤ iter.tbl.numBins) : ∃ iter', iter'.tbl = iter.tbl ∧
      iter'.binsIndex ≤ iter.tbl.numBins ∧
      ((iter.remaining = [] ∧ iter'.remaining = [] ∧ iter.next = (false, iter')) ∨
        ∃ e, iter.remaining = e :: iter'.remaining ∧ iter'.entry.head? = some e ∧
          iter.next = (true, iter')) := by
  by_cases htail : iter.entry.tail = []
  · rw [next_of_tail_eq_nil htail]
    have hskip := skipBins_spec iter.tbl hb (Nat.add_sub_cancel' hi)
    generalize skipBins iter.tbl (iter.tbl.numBins - iter.binsIndex) iter.binsIndex = k at hskip ⊢
    rcases hskip with ⟨hlt, hne, hdrop⟩ | ⟨hend, hdrop⟩
    · rw [if_pos hlt]
      obtain ⟨e, es, hes⟩ := List.exists_cons_of_ne_nil hne
      refine ⟨⟨iter.tbl, k + 1, iter.tbl.bin k⟩, rfl, hlt, .inr ⟨e, ?_, ?_, rfl⟩⟩
      · simp [remaining, htail, hdrop, hes]
      · simp [hes]
    · rw [if_neg hend.not_lt]
      refine ⟨⟨iter.tbl, k, iter.entry⟩, rfl, hend.le, .inl ⟨?_, ?_, rfl⟩⟩
      · rw [remaining, htail, hdrop, List.append_nil]
      · rw [remaining, htail, List.nil_append, hend, ← hb, List.drop_length, List.flatten_nil]
  · obtain ⟨t, i, _ | ⟨e, _ | ⟨e', es⟩⟩⟩ := iter
    · exact absurd rfl htail
    · exact absurd rfl htail
    · exact ⟨⟨t, i, e' :: es⟩, rfl, hi, .inr ⟨e', rfl, rfl, rfl⟩⟩

/-- A loop over an iterator does its work for each entry that is to be met, in their order, until it
raises. -/
theorem whileNext_eq (body : σ → K → V → Except ε σ)
    (hb : iter.tbl.bins.length = iter.tbl.numBins) (hi : iter.binsIndex ≤ iter.tbl.numBins)
    (s : σ) {fuel : Nat} (hfuel : iter.remaining.length < fuel) :
    whileNext body fuel iter s =
      some (iter.remaining.foldlM (fun s e => body s e.key e.record) s) := by
  induction fuel generalizing iter s with
  | zero => omega
  | succ fuel ih =>
    obtain ⟨iter', htbl, hi', ⟨hrem, -, hnext⟩ | ⟨e, hrem, hentry, hnext⟩⟩ := next_eq hb hi
    · rw [whileNext, hnext, hrem]
      rfl
    · rw [hrem, List.length_cons] at hfuel
      have hkey : iter'.currentKey = some e.key := by simp [currentKey, hentry]
      have hvalue : iter'.currentValue = some e.record := by simp [currentValue, hentry]
      rw [whileNext, hnext, hrem, List.foldlM_cons]
      simp only [hkey, hvalue]
      rcases body s e.key e.record with err | s'
      · rfl
      · exact ih (by rw [htbl, hb]) (by rw [htbl]; exact hi') s' (by omega)

/-- The keys and values a loop over an iterator meets. -/
def collect (fuel : Nat) (iter : TableIterator K V) : Option (Except Empty (List (K × V))) :=
  whileNext (fun l key value => .ok (l ++ [(key, value)])) fuel iter []

theorem foldlM_collect (l : List (TableEntry K V)) (s : List (K × V)) :
    l.foldlM (m := Except Empty) (fun s e => .ok (s ++ [(e.key, e.record)])) s =
      .ok (s ++ l.map fun e => (e.key, e.record)) := by
  induction l generalizing s with
  | nil => rw [List.map_nil, List.append_nil]; rfl
  | cons e l ih =>
    rw [List.foldlM_cons]
    refine (ih (s ++ [(e.key, e.record)])).trans ?_
    rw [List.append_assoc]
    rfl

/-- At the end of a table its iterator has met every entry once; whatever goes over a table by its
iterator does its work once for each entry, and the union of two dictionaries is that of the entries
of the one and then of the other. -/
theorem iterator_spec (t : Table K V) (hb : t.bins.length = t.numBins) {fuel : Nat}
    (hfuel : t.entries.length < fuel) :
    collect fuel (getIterator t) = some (.ok (t.entries.map fun e => (e.key, e.record))) ∧
      (∀ (σ ε : Type) (block : σ → K → V → Except ε σ) s, Dict.each fuel t block s =
        some (t.entries.foldlM (fun s e => block s e.key e.record) s)) ∧
      (∀ d, Dict.addAll fuel d t =
        some (t.entries.foldlM (fun d e => Dict.set d e.key e.record) d)) ∧
      ∀ right : Table K V, right.bins.length = right.numBins → right.entries.length < fuel →
        Dict.add fuel t.type t right = some (Table.stInitTable t.type >>=
          (t.entries ++ right.entries).foldlM fun d e => Dict.set d e.key e.record) := by
  have hloop (σ ε : Type) (body : σ → K → V → Except ε σ) (s : σ) (t : Table K V)
      (hb : t.bins.length = t.numBins) (hfuel : t.entries.length < fuel) :
      whileNext body fuel (getIterator t) s =
        some (t.entries.foldlM (fun s e => body s e.key e.record) s) :=
    whileNext_eq body hb (Nat.zero_le _) s hfuel
  refine ⟨?_, fun σ ε block s => hloop σ ε block s t hb hfuel,
    fun d => hloop _ _ Dict.set d t hb hfuel, fun right hbr hfr => ?_⟩
  · rw [collect, hloop _ _ _ _ t hb hfuel, foldlM_collect, List.nil_append]
  · unfold Dict.add Dict.addAll
    rcases Table.stInitTable t.type with err | d
    · rfl
    · simp only [hloop _ _ Dict.set d t hb hfuel]
      show _ = some (List.foldlM _ d (t.entries ++ right.entries))
      rw [List.foldlM_append]
      generalize t.entries.foldlM (fun d e => Dict.set d e.key e.record) d = r
      rcases r with err | d'
      · rfl
      · exact hloop _ _ Dict.set d' right hbr hfr

/-- A bin of two entries and one of one, with empty ones around. -/
def gapTable : Table Nat Nat where
  type := Table.natType
  numBins := 5
  numEntries := 3
  bins := [[], [{ hash := 6, key := 6, record := 60 }, { hash := 1, key := 1, record := 10 }], [],
    [{ hash := 3, key := 3, record := 30 }], []]

theorem iterator_spec_gap :
    collect 4 (getIterator gapTable) = some (.ok [(6, 60), (1, 10), (3, 30)]) :=
  (iterator_spec gapTable rfl (show 3 < 4 by decide)).1

end TableIterator

end Yog
