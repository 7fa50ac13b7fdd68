import Yog.Path
import Yog.Lib.Routes
import Yog.Proofs.ArraySort
import Yog.Proofs.RegexpSearch
import Yog.Proofs.StringOrder
import Yog.Proofs.Substrings
import Mathlib.Data.List.TakeWhile

/-!
# Normalising paths

A path is split where its separators are, and `normalize` folds the entries into the names that are
left (`result`). The empty entry in front of an absolute path stands for the root, and `..` takes it
off as any other.
-/

namespace Yog

namespace Path

open Corgi YogString ArrayScript

def slashNodes : List Corgi.Node := [.maxRepeat 1 65535 (.literal 47)]

def slashRegexp : CorgiRegexp := ⟨[28, 5, 1, 65535, 19, 47, 22, 1], []⟩

def trailingNodes : List Corgi.Node := [.maxRepeat 1 65535 (.literal 47), .at .endString]

def trailingRegexp : CorgiRegexp := ⟨[28, 5, 1, 65535, 19, 47, 22, 6, 7, 1], []⟩

theorem compiled_slash : compiled "/+" = Partial.done (.ok slashRegexp) := rfl

theorem compiled_trailing : compiled "/+\\Z" = Partial.done (.ok trailingRegexp) := rfl

section Engine

variable (unicode : Unicode) {subject : List CorgiChar} (ts : List Corgi.Task)

theorem next_slash {p : ℕ} (h : subject[p]? = some 47) :
    next (engineMeaning unicode false) subject (.node (.literal 47) :: ts, p) =
      .goto (ts, p + 1) := by
  simp [next, charStep, h, engineMeaning, literalMatches]

theorem next_not_slash {p : ℕ} (h : subject[p]? ≠ some 47) :
    next (engineMeaning unicode false) subject (.node (.literal 47) :: ts, p) = .fail := by
  rcases hc : subject[p]? with _ | c
  · simp [next, charStep, hc]
  · rw [hc, ne_eq, Option.some_inj] at h
    simp [next, charStep, hc, engineMeaning, literalMatches, h]

theorem next_repeat (p : ℕ) :
    next (engineMeaning unicode false) subject (.node (.maxRepeat 1 65535 (.literal 47)) :: ts, p) =
      .goto (.loop true 1 65535 (.literal 47) 0 none :: ts, p) := rfl

theorem next_loop_first (p : ℕ) :
    next (engineMeaning unicode false) subject
        (.loop true 1 65535 (.literal 47) 0 none :: ts, p) =
      .goto (.node (.literal 47) :: .loop true 1 65535 (.literal 47) 1 none :: ts, p) := rfl

theorem next_loop {p : ℕ} {count : ℕ} (hcount : 1 ≤ count) {last : Option ℕ}
    (h : last ≠ some p) :
    next (engineMeaning unicode false) subject
        (.loop true 1 65535 (.literal 47) count last :: ts, p) =
      .orElse (.node (.literal 47) ::
        .loop true 1 65535 (.literal 47) (count + 1) (some p) :: ts, p) (ts, p) := by
  simp [next, MayRepeat, h, Nat.not_lt.2 hcount]

theorem next_endString (subject : List CorgiChar) (p : ℕ) :
    next (engineMeaning unicode false) subject (.node (.at .endString) :: ts, p) =
      if p = subject.length then .goto (ts, p) else .fail := by
  simp [next, sreAt]

variable {ts}

/-- The loop takes all separators if what follows them matches. -/
theorem search_loop {k p e : ℕ} (hslash : ∀ i < k, subject[p + i]? = some 47)
    (hend : subject[p + k]? ≠ some 47)
    (htail : Backtracking.Search (next (engineMeaning unicode false) subject) (ts, p + k)
      (some (.found e))) {count : ℕ} (hcount : 1 ≤ count) {last : Option ℕ}
    (hlast : last ≠ some p) :
    Backtracking.Search (next (engineMeaning unicode false) subject)
      (.loop true 1 65535 (.literal 47) count last :: ts, p) (some (.found e)) := by
  induction k generalizing p count last with
  | zero =>
    exact .right (next_loop unicode ts hcount hlast) (.fail (next_not_slash unicode _ hend)) htail
  | succ k ih =>
    have hnext : p + (k + 1) = p + 1 + k := by omega
    rw [hnext] at hend htail
    refine .left (next_loop unicode ts hcount hlast)
      (.goto (next_slash unicode _ (hslash 0 (by omega))) (ih (fun i hi => ?_) hend htail (by omega)
        (by simp)))
    rw [Nat.add_assoc, Nat.add_comm 1 i]
    exact hslash (i + 1) (by omega)

/-- The loop gives up where what follows matches behind none of the separators. -/
theorem search_loop_none {k p : ℕ} (hslash : ∀ i < k, subject[p + i]? = some 47)
    (hend : subject[p + k]? ≠ some 47)
    (htail : ∀ i ≤ k, Backtracking.Search (next (engineMeaning unicode false) subject) (ts, p + i)
      none) {count : ℕ} (hcount : 1 ≤ count) {last : Option ℕ} (hlast : last ≠ some p) :
    Backtracking.Search (next (engineMeaning unicode false) subject)
      (.loop true 1 65535 (.literal 47) count last :: ts, p) none := by
  induction k generalizing p count last with
  | zero =>
    exact .right (next_loop unicode ts hcount hlast) (.fail (next_not_slash unicode _ hend))
      (htail 0 le_rfl)
  | succ k ih =>
    have hnext : ∀ i, p + (i + 1) = p + 1 + i := fun i => by omega
    rw [hnext] at hend
    refine .right (next_loop unicode ts hcount hlast)
      (.goto (next_slash unicode _ (hslash 0 (by omega)))
        (ih (fun i hi => ?_) hend (fun i hi => ?_) (by omega) (by simp))) (htail 0 (by omega))
    · rw [← hnext]
      exact hslash (i + 1) (by omega)
    · rw [← hnext]
      exact htail (i + 1) (by omega)

theorem matches_slash {k p : ℕ} (hslash : ∀ i ≤ k, subject[p + i]? = some 47)
    (hend : subject[p + (k + 1)]? ≠ some 47) :
    Matches (engineMeaning unicode false) subject slashNodes p (some (.found (p + (k + 1)))) := by
  have hnext : ∀ i, p + (i + 1) = p + 1 + i := fun i => by omega
  rw [hnext] at hend ⊢
  refine .goto (next_repeat unicode [] p) (.goto (next_loop_first unicode [] p)
    (.goto (next_slash unicode _ (hslash 0 (by omega)))
      (search_loop unicode (fun i hi => ?_) hend (.accept rfl) le_rfl nofun)))
  rw [← hnext]
  exact hslash (i + 1) (by omega)

theorem matches_slash_none {p : ℕ} (h : subject[p]? ≠ some 47) :
    Matches (engineMeaning unicode false) subject slashNodes p none :=
  .goto (next_repeat unicode [] p) (.goto (next_loop_first unicode [] p)
    (.fail (next_not_slash unicode _ h)))

theorem matches_trailing {k p : ℕ} (hslash : ∀ i ≤ k, subject[p + i]? = some 47)
    (hend : p + (k + 1) = subject.length) :
    Matches (engineMeaning unicode false) subject trailingNodes p
      (some (.found (p + (k + 1)))) := by
  have hnext : ∀ i, p + (i + 1) = p + 1 + i := fun i => by omega
  rw [hnext] at hend ⊢
  have hdone := next_endString unicode [] subject (p + 1 + k)
  rw [if_pos hend] at hdone
  refine .goto (next_repeat unicode _ p) (.goto (next_loop_first unicode _ p)
    (.goto (next_slash unicode _ (hslash 0 (by omega)))
      (search_loop unicode (fun i hi => ?_) ?_ (.goto hdone (.accept rfl)) le_rfl nofun)))
  · rw [← hnext]
    exact hslash (i + 1) (by omega)
  · rw [List.getElem?_eq_none (by omega)]
    exact nofun

theorem matches_trailing_none {k p : ℕ} (hslash : ∀ i < k, subject[p + i]? = some 47)
    (hend : subject[p + k]? ≠ some 47) (hk : p + k < subject.length ∨ k = 0) :
    Matches (engineMeaning unicode false) subject trailingNodes p none := by
  refine .goto (next_repeat unicode _ p) (.goto (next_loop_first unicode _ p) ?_)
  rcases k with _ | k
  · exact .fail (next_not_slash unicode _ hend)
  · have hnext : ∀ i, p + (i + 1) = p + 1 + i := fun i => by omega
    rw [hnext] at hend hk
    refine .goto (next_slash unicode _ (hslash 0 (by omega)))
      (search_loop_none unicode (fun i hi => ?_) hend (fun i hi => ?_) le_rfl nofun)
    · rw [← hnext]
      exact hslash (i + 1) (by omega)
    · exact .fail ((next_endString unicode [] subject _).trans (if_neg (by omega)))

end Engine

def slash : YogChar := 47

theorem separator_eq : separator = [slash] := rfl

theorem getElem?_val {s : List YogChar} {i : ℕ} :
    (s.map Fin.val)[i]? = some 47 ↔ s[i]? = some slash := by
  rcases h : s[i]? with _ | c
  · simp [h]
  · simp only [List.getElem?_map, h, Option.map_some, Option.some_inj]
    exact ⟨fun hc => Fin.ext hc, fun hc => congrArg Fin.val hc⟩

section Searches

variable (unicode : Unicode) {s : List YogChar} {pos : ℕ}

theorem ofRegexp_reaches {α : Type} {f : ℕ → Partial RegexpError α} {a : α}
    (h : Partial.Reaches f (.ok a)) : Partial.Reaches (fun n => ofRegexp (f n)) (.ok a) := by
  obtain ⟨N, hN⟩ := h
  refine ⟨N, fun n hn => ?_⟩
  simp only [ofRegexp, hN n hn]
  rfl

/-- The first separators behind a position are found. -/
theorem search_slash {w rest : List YogChar} {k : ℕ}
    (hs : s.drop pos = w ++ (List.replicate (k + 1) slash ++ rest)) (hw : slash ∉ w)
    (hrest : rest.head? ≠ some slash) :
    Partial.Reaches (fun n => ofRegexp (YogRegexp.search unicode n slashRegexp s pos))
      (.ok (some ⟨pos + w.length, pos + w.length + (k + 1), []⟩)) := by
  have hget : ∀ i, s[pos + i]? = (w ++ (List.replicate (k + 1) slash ++ rest))[i]? := fun i => by
    rw [← hs, List.getElem?_drop]
  have hlen := congrArg List.length hs
  simp only [List.length_drop, List.length_append, List.length_replicate] at hlen
  refine ofRegexp_reaches (YogRegexp.search_found slashRegexp slashNodes rfl
    (by decide) (by decide) rfl (Nat.le_add_right pos w.length) (by omega)
    (matches_slash unicode (fun i hi => ?_) ?_) fun i hi hlt => matches_slash_none unicode ?_)
  · rw [getElem?_val, Nat.add_assoc, hget, List.getElem?_append_right (by omega),
      List.getElem?_append_left (by simp; omega), List.getElem?_replicate, if_pos (by omega)]
  · rw [ne_eq, getElem?_val, Nat.add_assoc, hget, List.getElem?_append_right (by omega),
      List.getElem?_append_right (by simp)]
    simpa [← List.head?_eq_getElem?] using hrest
  · obtain ⟨j, rfl⟩ := Nat.exists_eq_add_of_le hi
    rw [ne_eq, getElem?_val, hget, List.getElem?_append_left (by omega)]
    exact fun h => hw (List.mem_of_getElem? h)

/-- Without separators nothing is found. -/
theorem search_slash_none (hs : slash ∉ s.drop pos) :
    Partial.Reaches (fun n => ofRegexp (YogRegexp.search unicode n slashRegexp s pos))
      (.ok none) := by
  refine ofRegexp_reaches (YogRegexp.search_none slashRegexp slashNodes rfl
    (by decide) (by decide) fun i hi _ => matches_slash_none unicode ?_)
  obtain ⟨j, rfl⟩ := Nat.exists_eq_add_of_le hi
  rw [ne_eq, getElem?_val, ← List.getElem?_drop]
  exact fun h => hs (List.mem_of_getElem? h)

/-- In front of the separators at the end there is none that is followed by separators only. -/
theorem matches_trailing_front {w : List YogChar} (rest : List YogChar)
    (hw : w.getLast? ≠ some slash) {i : ℕ} (hi : i < w.length) :
    Matches (engineMeaning unicode false) ((w ++ rest).map Fin.val) trailingNodes i none := by
  have hex : ∃ k, w[i + k]? ≠ some slash ∧ i + k < w.length := by
    refine ⟨w.length - 1 - i, ?_, by omega⟩
    rwa [show i + (w.length - 1 - i) = w.length - 1 by omega, ← List.getLast?_eq_getElem?]
  classical
  have hspec := Nat.find_spec hex
  refine matches_trailing_none unicode (k := Nat.find hex) (fun j hj => ?_) ?_ (.inl ?_)
  · rw [getElem?_val, List.getElem?_append_left (by omega)]
    by_contra h
    exact Nat.find_min hex hj ⟨h, by omega⟩
  · rw [ne_eq, getElem?_val, List.getElem?_append_left hspec.2]
    exact hspec.1
  · rw [List.length_map, List.length_append]
    omega

/-- Separators at the end are found. -/
theorem search_trailing {w : List YogChar} (k : ℕ) (hw : w.getLast? ≠ some slash) :
    Partial.Reaches (fun n => ofRegexp (YogRegexp.search unicode n trailingRegexp
      (w ++ List.replicate (k + 1) slash) 0)) (.ok (some ⟨w.length, w.length + (k + 1), []⟩)) := by
  refine ofRegexp_reaches (YogRegexp.search_found trailingRegexp trailingNodes rfl (by decide)
    (by decide) rfl (Nat.zero_le _) (by simp)
    (matches_trailing unicode (fun i hi => ?_) (by simp)) fun i _ hlt =>
      matches_trailing_front unicode _ hw hlt)
  rw [getElem?_val, List.getElem?_append_right (by omega), List.getElem?_replicate,
    if_pos (by omega)]

theorem search_trailing_none (hs : s.getLast? ≠ some slash) :
    Partial.Reaches (fun n => ofRegexp (YogRegexp.search unicode n trailingRegexp s 0))
      (.ok none) := by
  refine ofRegexp_reaches (YogRegexp.search_none trailingRegexp trailingNodes rfl (by decide)
    (by decide) fun i _ hi => ?_)
  rcases hi.eq_or_lt with rfl | hlt
  · refine matches_trailing_none unicode (k := 0) (fun j hj => by omega) ?_ (.inr rfl)
    rw [List.getElem?_eq_none (by simp)]
    exact nofun
  · simpa using matches_trailing_front unicode [] hs hlt

end Searches

/-- What stands in front of the first separator. -/
def first (t : List YogChar) : List YogChar := t.takeWhile (· ≠ slash)

/-- What stands behind the first separators. -/
def later (t : List YogChar) : List YogChar := (t.dropWhile (· ≠ slash)).dropWhile (· = slash)

theorem slash_notMem_first (t : List YogChar) : slash ∉ first t := fun h => by
  simpa using List.mem_takeWhile_imp h

theorem head?_later (t : List YogChar) : (later t).head? ≠ some slash := fun h => by
  have hnot := List.head?_dropWhile_not (· = slash) (t.dropWhile (· ≠ slash))
  rw [← later, h] at hnot
  simp at hnot

theorem takeWhile_slash (t : List YogChar) :
    ∃ k, t = List.replicate k slash ++ t.dropWhile (· = slash) := by
  refine ⟨(t.takeWhile (· = slash)).length, ?_⟩
  have hall : ∀ c ∈ t.takeWhile (· = slash), c = slash := fun c hc => by
    simpa using List.mem_takeWhile_imp hc
  rw [← List.eq_replicate_of_mem hall]
  exact List.takeWhile_append_dropWhile.symm

/-- A string is cut at its first separators. -/
theorem first_append_later {t : List YogChar} (h : slash ∈ t) :
    ∃ k, t = first t ++ (List.replicate (k + 1) slash ++ later t) := by
  induction t with
  | nil => simp at h
  | cons c t ih =>
    by_cases hc : c = slash
    · subst hc
      obtain ⟨k, hk⟩ := takeWhile_slash t
      refine ⟨k, ?_⟩
      simpa [first, later, List.replicate_succ] using hk
    · obtain ⟨k, hk⟩ := ih ((List.mem_cons.1 h).resolve_left (Ne.symm hc))
      refine ⟨k, ?_⟩
      simpa [first, later, hc] using hk

theorem length_later_lt {t : List YogChar} (h : slash ∈ t) : (later t).length < t.length := by
  obtain ⟨k, hk⟩ := first_append_later h
  have hlen := congrArg List.length hk
  simp only [List.length_append, List.length_replicate] at hlen
  omega

/-- The entries of a path. -/
def pieces (t : List YogChar) : List (List YogChar) :=
  if _ : slash ∈ t then first t :: pieces (later t) else [t]
termination_by t.length
decreasing_by exact length_later_lt ‹_›

theorem pieces_of_mem {t : List YogChar} (h : slash ∈ t) :
    pieces t = first t :: pieces (later t) := by
  rw [pieces, dif_pos h]

theorem pieces_of_notMem {t : List YogChar} (h : slash ∉ t) : pieces t = [t] := by
  rw [pieces, dif_neg h]

section Split

variable (unicode : Unicode) {st : YogArray.Store (List YogChar)}

theorem outside_eq {α : Type} {p : Partial PathError α} {a : α} (h : p = Partial.done (.ok a)) :
    outside p st = Partial.done (.ok (a, st)) := by
  rw [h]
  rfl

theorem string_eq {α : Type} {r : Except StringError α} {a : α} (h : r = .ok a) :
    string r st = Partial.done (.ok (a, st)) := by
  rw [h]
  rfl

/-- The loop of `split` puts the entries behind a position into the array. -/
theorem splitLoop_reaches (hst : ∀ a ∈ st, a.Fits) (self t : List YogChar) {from_ : ℕ}
    (ht : self.drop from_ = t) {a : YogArray (List YogChar)} (ha : a.Fits) :
    ∃ a', a'.Fits ∧ a'.contents = a.contents ++ pieces t ∧
      ∃ N, ∀ n, N ≤ n → ∀ turns, t.length < turns →
        splitLoop unicode n slashRegexp self st.length turns from_ (st ++ [a]) =
          Partial.done (.ok (st.length, st ++ [a'])) := by
  by_cases h : slash ∈ t
  · obtain ⟨k, hk⟩ := first_append_later h
    obtain ⟨a₁, hpush, hf₁, hc₁⟩ := push_new (ε := PathError) [] (s := st) ha (first t)
    have hdrop : self.drop (from_ + (first t).length + (k + 1)) = later t := by
      rw [Nat.add_assoc, ← List.drop_drop, ht]
      refine (congrArg (List.drop _) hk).trans ?_
      rw [← List.append_assoc, List.drop_left' (by simp)]
    have hlt := length_later_lt h
    obtain ⟨a', hf', hc', N, hN⟩ := splitLoop_reaches hst self (later t) hdrop hf₁
    obtain ⟨M, hM⟩ := search_slash unicode (ht.trans hk) (slash_notMem_first t) (head?_later t)
    refine ⟨a', hf', ?_, max N M, fun n hn turns hturns => ?_⟩
    · rw [hc', hc₁, List.append_assoc, pieces_of_mem h]
      rfl
    · obtain ⟨turns, rfl⟩ := Nat.exists_eq_add_of_lt hturns
      have hslice : slice self (.fixnum from_)
          (some ((from_ + (first t).length : ℕ) - from_ : Int)) = .ok (first t) := by
        rw [show (((from_ + (first t).length : ℕ) : Int) - from_) = ((first t).length : ℕ) by omega,
          slice_ofNat, ht]
        refine congrArg Except.ok ((congrArg (List.take _) hk).trans ?_)
        rw [List.take_left]
      rw [splitLoop, bind_eq (outside_eq (hM n (le_trans (le_max_right N M) hn)))]
      simp only []
      rw [if_neg (by omega), bind_eq (string_eq hslice), bind_eq hpush]
      exact hN n (le_trans (le_max_left N M) hn) _ (by omega)
  · obtain ⟨a', hpush, hf', hc'⟩ := push_new (ε := PathError) [] (s := st) ha t
    have hnone : slash ∉ self.drop from_ := by rwa [ht]
    obtain ⟨N, hN⟩ := search_slash_none unicode hnone
    refine ⟨a', hf', ?_, N, fun n hn turns hturns => ?_⟩
    · rw [hc', pieces_of_notMem h]
    · obtain ⟨turns, rfl⟩ := Nat.exists_eq_add_of_lt hturns
      rw [splitLoop, bind_eq (outside_eq (hN n hn))]
      simp only []
      rw [bind_eq (string_eq (slice_none_ofNat self from_)), ht, bind_eq hpush]
      rfl
termination_by t.length

theorem split_reaches (hst : ∀ a ∈ st, a.Fits) (self : List YogChar) :
    ∃ N, ∀ n, N ≤ n → Makes [] (split unicode n slashRegexp self) st (pieces self) := by
  obtain ⟨a, ha, hfits, hempty⟩ := YogArray.makeArray_ok ([] : List YogChar) []
  obtain ⟨a', hf', hc', N, hN⟩ := splitLoop_reaches unicode hst self self List.drop_zero hfits
  refine ⟨max N (self.length + 1), fun n hn => ?_⟩
  have hcreate : literal (ε := PathError) ([] : List YogChar) [] st =
      Partial.done (.ok (st.length, st ++ [a])) := by
    simp only [literal, create, ha]
  refine ⟨st.length, st ++ [a'], ?_, ⟨List.prefix_append st [a'], fits_append hst hf'⟩, by simp, ?_⟩
  · rw [split, bind_eq hcreate]
    exact hN n (le_trans (le_max_left _ _) hn) n
      (Nat.lt_of_succ_le (le_trans (le_max_right N (self.length + 1)) hn))
  · rw [get_new, hc', hempty, List.nil_append]

end Split

/-- What the block makes of the names. -/
def keep (names : List (List YogChar)) (entry : List YogChar) : List (List YogChar) :=
  if entry = [] then if names = [] then [entry] else names
  else if entry = current then names
  else if entry = parent then names.dropLast
  else names ++ [entry]

/-- What `normalize` returns. -/
def result (p : List YogChar) : Text :=
  let names := (pieces p).foldl keep []
  if names = [[]] then ⟨.string, separator⟩ else ⟨.path, separator.intercalate names⟩

section Fold

variable {st : YogArray.Store (List YogChar)}

theorem makes_self (hst : ∀ a ∈ st, a.Fits) {r : ℕ} (hr : r < st.length) :
    Makes (ε := PathError) [] (return r) st (YogArray.get [] st r).contents :=
  ⟨r, st, rfl, Later.refl hst, hr, rfl⟩

theorem makes_addEntry (hst : ∀ a ∈ st, a.Fits) {r : ℕ} (hr : r < st.length)
    (entry : List YogChar) :
    Makes [] (addEntry r entry) st (keep (YogArray.get [] st r).contents entry) := by
  have hsize := size_eq (ε := PathError) [] hst r
  unfold addEntry keep
  simp only [YogString.equal_iff]
  split_ifs with h₁ h₂ h₂ h₃
  · unfold Makes
    rw [bind_eq hsize, if_pos (by rw [h₂, List.length_nil])]
    exact makes_literal [] hst [entry]
  · unfold Makes
    rw [bind_eq hsize, if_neg (by simpa using h₂)]
    exact makes_self hst hr
  · exact makes_self hst hr
  · unfold Makes
    rw [bind_eq hsize]
    rcases hl : (YogArray.get [] st r).contents.length with _ | n
    · unfold ArrayScript.slice
      rw [List.eq_nil_of_length_eq_zero hl, bind_eq hsize, if_pos (by omega)]
      exact makes_literal [] hst []
    · have hlen : sliceLength (some (((n + 1 : ℕ) : Int) - 1))
          (((YogArray.get [] st r).contents.length : Int) - (0 : ℕ)) = some (n : Int) := by
        rw [hl, sliceLength]
        rw [if_neg (by omega), if_neg (by omega), Option.some_inj]
        omega
      have hslice := makes_slice_length (ε := PathError) [] hst hr 0 n hlen (by omega)
      rw [List.drop_zero] at hslice
      rw [List.dropLast_eq_take, hl]
      exact hslice
  · refine Makes.bind (makes_literal [] hst [entry]) fun r' st' hlater hr' hentry => ?_
    have hplus := makes_plus (ε := PathError) [] hlater.fits r r'
    rwa [hlater.get hr, hentry] at hplus

/-- The loop of `join` behind the first element. -/
theorem joinLoop_eq (hst : ∀ a ∈ st, a.Fits) (self : ℕ) (sep : List YogChar) (n i : ℕ)
    (s : List YogChar) (hn : i + 1 + n = (YogArray.get [] st self).contents.length) :
    joinLoop self sep n (i + 1) s st = Partial.done (.ok
      (s ++ ((YogArray.get [] st self).contents.drop (i + 1)).flatMap (sep ++ ·), st)) := by
  induction n generalizing i s with
  | zero =>
    rw [List.drop_of_length_le (Nat.le_of_eq hn.symm), List.flatMap_nil, List.append_nil]
    rfl
  | succ n ih =>
    have hlt : i + 1 < (YogArray.get [] st self).contents.length := by omega
    have hitem := item_eq (ε := PathError) [] hst (List.getElem?_eq_getElem hlt)
    rw [joinLoop, bind_eq hitem, if_pos (Nat.succ_pos i), ih (i + 1) _ (by omega),
      List.drop_eq_getElem_cons hlt, List.flatMap_cons]
    simp only [List.append_assoc]

theorem intercalate_cons (sep e : List YogChar) (l : List (List YogChar)) :
    sep.intercalate (e :: l) = e ++ l.flatMap (sep ++ ·) := by
  induction l generalizing e with
  | nil => simp
  | cons e' l ih => rw [List.intercalate_cons_cons, ih, List.flatMap_cons]; simp

theorem join_eq (hst : ∀ a ∈ st, a.Fits) (self : ℕ) (sep : List YogChar) :
    join self sep st =
      Partial.done (.ok (sep.intercalate (YogArray.get [] st self).contents, st)) := by
  have hsize := size_eq (ε := PathError) [] hst self
  rw [join, bind_eq hsize]
  rcases hl : (YogArray.get [] st self).contents with _ | ⟨e, l⟩
  · rfl
  · have hitem : item (ε := PathError) [] self 0 st = Partial.done (.ok (e, st)) :=
      item_eq [] hst (by rw [hl]; rfl)
    rw [List.length_cons, joinLoop, bind_eq hitem, if_neg (Nat.lt_irrefl 0),
      joinLoop_eq hst self sep l.length 0 _ (by rw [hl, List.length_cons]; omega), hl,
      intercalate_cons]
    rfl

theorem isRoot_eq (hst : ∀ a ∈ st, a.Fits) (r : ℕ) :
    isRoot r st = Partial.done (.ok (decide ((YogArray.get [] st r).contents = [[]]), st)) := by
  have hsize := size_eq (ε := PathError) [] hst r
  rw [isRoot, bind_eq hsize]
  split_ifs with h
  · obtain ⟨e, he⟩ := List.length_eq_one_iff.1 h
    have hsub : subscript (ε := PathError) [] r 0 st = Partial.done (.ok (e, st)) :=
      subscript_eq [] (i := 0) hst (by rw [he]; rfl)
    have hdecide : equal e [] = decide ([e] = [[]]) := by
      rw [Bool.eq_iff_iff, YogString.equal_iff]
      simp
    rw [bind_eq hsub, he, hdecide]
    rfl
  · have hne : (YogArray.get [] st r).contents ≠ [[]] := fun h' => h (by rw [h']; rfl)
    rw [decide_eq_false hne]
    rfl

variable (unicode : Unicode)

theorem normalize_reaches (hst : ∀ a ∈ st, a.Fits) (p : List YogChar) :
    ∃ N, ∀ n, N ≤ n → ∃ st', normalize unicode n p st = Partial.done (.ok (result p, st')) := by
  obtain ⟨N, hN⟩ := split_reaches unicode hst p
  refine ⟨max N ((pieces p).length + 1), fun n hn => ?_⟩
  have hfuel : (pieces p).length < n := Nat.lt_of_succ_le (le_trans (le_max_right _ _) hn)
  obtain ⟨entries, st₁, hsplit, hlater₁, hentries, hpieces⟩ :=
    hN n (le_trans (le_max_left _ _) hn)
  obtain ⟨init, st₂, hliteral, hlater₂, hinit, hempty⟩ :=
    makes_literal (ε := PathError) [] hlater₁.fits []
  obtain ⟨names, st₃, hreduce, hlater₃, -, hnames⟩ :=
    makes_reduce (ε := PathError) [] (f := keep) (fun st r v hst hr => makes_addEntry hst hr v)
      hlater₂.fits hinit (hlater₂.lt hentries) (by rw [hlater₂.get hentries, hpieces]) hempty hfuel
  refine ⟨st₃, ?_⟩
  rw [normalize, bind_eq (outside_eq compiled_slash), bind_eq hsplit, bind_eq hliteral,
    bind_eq hreduce, bind_eq (isRoot_eq hlater₃.fits names), hnames, result]
  by_cases h : (pieces p).foldl keep [] = [[]]
  · rw [if_pos (decide_eq_true h), if_pos h]
    rfl
  · rw [if_neg (by simpa using h), if_neg h, bind_eq (join_eq hlater₃.fits names separator), hnames]
    rfl

end Fold

theorem callNormalize_reaches (unicode : Unicode) (p : List YogChar) :
    Partial.Reaches (fun n => callNormalize unicode n ⟨.path, p⟩) (.ok (result p)) := by
  have hempty : ∀ a ∈ ([] : YogArray.Store (List YogChar)), a.Fits := nofun
  obtain ⟨N, hN⟩ := normalize_reaches unicode hempty p
  refine ⟨N, fun n hn => ?_⟩
  obtain ⟨st, h⟩ := hN n hn
  simp only [callNormalize, h, Partial.done_ok_bind]
  rfl

def IsAbsolute (s : List YogChar) : Prop := s.head? = some slash

instance (s : List YogChar) : Decidable (IsAbsolute s) := inferInstanceAs (Decidable (_ = _))

/-- What stands between the separators. -/
def components (s : List YogChar) : List (List YogChar) := (s.splitOn slash).filter (· ≠ [])

def stepOf (c : List YogChar) : Routes.Step (List YogChar) :=
  if c = current then .stay else if c = parent then .up else .down c

def route (s : List YogChar) : List (Routes.Step (List YogChar)) := (components s).map stepOf

/-- The place a path leads to, from the root or from elsewhere. -/
def place (s : List YogChar) : Routes.Place (List YogChar) :=
  Routes.lead (decide (IsAbsolute s)) ⟨0, []⟩ (route s)

theorem components_append (xs t : List YogChar) :
    components (xs ++ slash :: t) = components xs ++ components t := by
  rw [components, List.splitOn_append_cons_self, List.filter_append]
  rfl

theorem components_of_notMem {t : List YogChar} (h : slash ∉ t) (hne : t ≠ []) :
    components t = [t] := by
  rw [components, List.splitOn_eq_singleton h]
  simp [hne]

@[simp] theorem components_nil : components [] = [] := rfl

theorem components_replicate (k : ℕ) (t : List YogChar) :
    components (List.replicate k slash ++ t) = components t := by
  induction k with
  | zero => rfl
  | succ k ih => exact (components_append [] (List.replicate k slash ++ t)).trans ih

theorem components_first (t : List YogChar) (h : slash ∈ t) :
    components t = components (first t) ++ components (later t) := by
  obtain ⟨k, hk⟩ := first_append_later h
  conv_lhs => rw [hk]
  rw [List.replicate_succ, List.cons_append, components_append, components_replicate]

theorem mem_components {s c : List YogChar} (h : c ∈ components s) : c ≠ [] ∧ slash ∉ c := by
  obtain ⟨hmem, hne⟩ := List.mem_filter.1 h
  refine ⟨of_decide_eq_true hne, ?_⟩
  clear h hne
  induction s generalizing c with
  | nil =>
    rw [List.splitOn_nil, List.mem_singleton] at hmem
    simp [hmem]
  | cons x s ih =>
    rw [List.splitOn_cons_eq_if_modifyHead] at hmem
    obtain ⟨d, l, hl⟩ := List.exists_cons_of_ne_nil (List.splitOn_ne_nil slash s)
    split_ifs at hmem with hx
    · rcases List.mem_cons.1 hmem with rfl | hmem
      · exact List.not_mem_nil
      · exact ih hmem
    · rw [hl] at hmem ih
      rcases List.mem_cons.1 hmem with rfl | hmem
      · have hd := ih List.mem_cons_self
        simp only [List.mem_cons, hd, or_false]
        exact fun h => hx (by simp [h])
      · exact ih (List.mem_cons_of_mem d hmem)

/-- Of a relative path the entries are the components and, behind a last separator, an empty one. -/
theorem pieces_relative (t : List YogChar) (hne : t ≠ []) (hrel : ¬ IsAbsolute t) :
    ∃ trail, (trail = [] ∨ trail = [[]]) ∧ pieces t = components t ++ trail := by
  by_cases h : slash ∈ t
  · have hfirst : first t ≠ [] := by
      rcases t with _ | ⟨c, t⟩
      · exact absurd rfl hne
      · have hc : c ≠ slash := fun hc => hrel (congrArg some hc)
        simp [first, hc]
    have hcomponents := components_first t h
    rw [components_of_notMem (slash_notMem_first t) hfirst] at hcomponents
    have hlt := length_later_lt h
    rw [pieces_of_mem h, hcomponents]
    by_cases hlater : later t = []
    · exact ⟨[[]], .inr rfl, by rw [hlater, pieces_of_notMem List.not_mem_nil]; rfl⟩
    · obtain ⟨trail, htrail, heq⟩ := pieces_relative (later t) hlater (head?_later t)
      exact ⟨trail, htrail, by rw [heq]; rfl⟩
  · exact ⟨[], .inl rfl, by rw [pieces_of_notMem h, components_of_notMem h hne, List.append_nil]⟩
termination_by t.length

/-- Of an absolute path there is an empty entry in front of them. -/
theorem pieces_absolute {t : List YogChar} (habs : IsAbsolute t) :
    ∃ trail, (trail = [] ∨ trail = [[]]) ∧ pieces t = [] :: (components t ++ trail) := by
  rcases t with _ | ⟨c, t⟩
  · exact absurd habs nofun
  · obtain rfl : c = slash := Option.some.inj habs
    have hmem : slash ∈ slash :: t := List.mem_cons_self
    have hfirst : first (slash :: t) = [] := by simp [first]
    have hcomponents := components_first _ hmem
    rw [hfirst, components_nil, List.nil_append] at hcomponents
    rw [pieces_of_mem hmem, hfirst, hcomponents]
    by_cases hlater : later (slash :: t) = []
    · exact ⟨[[]], .inr rfl, by rw [hlater, pieces_of_notMem List.not_mem_nil]; rfl⟩
    · obtain ⟨trail, htrail, heq⟩ := pieces_relative _ hlater (head?_later (slash :: t))
      exact ⟨trail, htrail, by rw [heq]⟩

theorem keep_eq {c : List YogChar} (hc : c ≠ []) (names : List (List YogChar)) :
    keep names c = Routes.cancel names (stepOf c) := by
  unfold keep stepOf
  rw [if_neg hc]
  split_ifs <;> rfl

theorem foldl_keep {l : List (List YogChar)} (hl : ∀ c ∈ l, c ≠ []) (names : List (List YogChar)) :
    l.foldl keep names = (l.map stepOf).foldl Routes.cancel names := by
  induction l generalizing names with
  | nil => rfl
  | cons c l ih =>
    rw [List.forall_mem_cons] at hl
    rw [List.foldl_cons, keep_eq hl.1, ih hl.2, List.map_cons, List.foldl_cons]

/-- An empty entry at the end counts where no name is left. -/
theorem foldl_keep_trail {trail : List (List YogChar)} (h : trail = [] ∨ trail = [[]])
    (names : List (List YogChar)) :
    trail.foldl keep names = names ∨ (names = [] ∧ trail.foldl keep names = [[]]) := by
  rcases h with rfl | rfl
  · exact .inl rfl
  · rcases names with _ | ⟨e, l⟩
    · exact .inr ⟨rfl, rfl⟩
    · exact .inl rfl

/-- The names that are left of a path. -/
def kept (p : List YogChar) : List (List YogChar) := (route p).foldl Routes.cancel []

/-- Every `..` has a name in front of it to cancel, and not every name is cancelled. -/
structure Sound (p : List YogChar) : Prop where
  within : Routes.Within 0 (route p)
  left : Routes.ups (route p) < Routes.downs (route p)

theorem downs_place (p : List YogChar) : (place p).downs = kept p := Routes.downs_lead _ _ _

theorem sound_iff_kept (p : List YogChar) : Sound p ↔ Routes.Within 0 (route p) ∧ kept p ≠ [] := by
  have hlength : Routes.Within 0 (route p) →
      (kept p).length + Routes.ups (route p) = Routes.downs (route p) := fun h => by
    have hlen := Routes.length_foldl_cancel (show Routes.Within [].length (route p) from h)
    rwa [List.length_nil, Nat.zero_add] at hlen
  rw [← List.length_pos_iff_ne_nil]
  constructor
  · intro h
    have := hlength h.within
    exact ⟨h.within, by have := h.left; omega⟩
  · rintro ⟨h, hleft⟩
    have := hlength h
    exact ⟨h, by omega⟩

/-- What a name looks like. -/
structure IsName (c : List YogChar) : Prop where
  ne_nil : c ≠ []
  slash : slash ∉ c
  current : c ≠ current
  parent : c ≠ parent

theorem isName_of_mem_kept {p c : List YogChar} (h : c ∈ kept p) : IsName c := by
  rcases Routes.mem_foldl_cancel h with h | h
  · exact absurd h List.not_mem_nil
  · obtain ⟨d, hd, heq⟩ := List.mem_map.1 h
    unfold stepOf at heq
    split_ifs at heq with hcurrent hparent
    cases heq
    exact ⟨(mem_components hd).1, (mem_components hd).2, hcurrent, hparent⟩

/-- The names that are left, with the empty one of the root as long as it is there. -/
def names (p : List YogChar) : List (List YogChar) :=
  if IsAbsolute p ∧ Routes.Within 0 (route p) then [] :: kept p else kept p

/-- The entries fold into the names, but an empty entry at the end counts where there are none. -/
theorem foldl_pieces {p : List YogChar} (hne : p ≠ []) :
    (pieces p).foldl keep [] = names p ∨
      (names p = [] ∧ (pieces p).foldl keep [] = [[]]) := by
  have hcomponents : ∀ c ∈ components p, c ≠ [] := fun c hc => (mem_components hc).1
  by_cases habs : IsAbsolute p
  · obtain ⟨trail, htrail, heq⟩ := pieces_absolute habs
    have hcons := Routes.foldl_cancel_cons ([] : List YogChar) [] (route p)
    have hnames : (route p).foldl Routes.cancel [[]] = names p := by
      unfold names
      split_ifs with h
      · exact hcons.1 h.2
      · exact hcons.2 fun hw => h ⟨habs, hw⟩
    rw [heq, List.foldl_cons, List.foldl_append, foldl_keep hcomponents]
    rw [← hnames]
    exact foldl_keep_trail htrail _
  · obtain ⟨trail, htrail, heq⟩ := pieces_relative p hne habs
    have hnames : names p = kept p := if_neg fun h => habs h.1
    rw [heq, List.foldl_append, foldl_keep hcomponents, hnames]
    exact foldl_keep_trail htrail _

theorem result_nil : result [] = ⟨.string, separator⟩ := by
  rw [result, pieces_of_notMem List.not_mem_nil]
  rfl

/-- The text of names, from the root or from elsewhere. -/
def text (rooted : Bool) (names : List (List YogChar)) : List YogChar :=
  (if rooted then separator else []) ++ separator.intercalate names

/-- A sound path is normalised to its names. -/
theorem result_of_sound {p : List YogChar} (h : Sound p) :
    result p = ⟨.path, text (decide (IsAbsolute p)) (kept p)⟩ := by
  obtain ⟨hwithin, hkept⟩ := (sound_iff_kept p).1 h
  have hne : p ≠ [] := by
    rintro rfl
    exact hkept rfl
  obtain ⟨c, l, hl⟩ := List.exists_cons_of_ne_nil hkept
  have hc : c ≠ [] := (isName_of_mem_kept (p := p) (by rw [hl]; exact List.mem_cons_self)).ne_nil
  have hnames : names p ≠ [] ∧ names p ≠ [[]] ∧
      separator.intercalate (names p) = text (decide (IsAbsolute p)) (kept p) := by
    unfold names text
    by_cases habs : IsAbsolute p
    · rw [if_pos ⟨habs, hwithin⟩, if_pos (decide_eq_true habs), hl]
      exact ⟨nofun, nofun, List.intercalate_cons_cons⟩
    · rw [if_neg fun h => habs h.1, if_neg (by simpa using habs), hl]
      exact ⟨nofun, fun h => hc (List.cons.inj h).1, rfl⟩
  have hfold : (pieces p).foldl keep [] = names p :=
    (foldl_pieces hne).resolve_right fun h => hnames.1 h.1
  rw [result, hfold, if_neg hnames.2.1, hnames.2.2]

/-- Another path is normalised to the string of the root, to an empty path, or to names where it
went above its beginning. -/
theorem result_of_not_sound {p : List YogChar} (h : ¬ Sound p) :
    result p = ⟨.string, separator⟩ ∨ result p = ⟨.path, []⟩ ∨
      (¬ Routes.Within 0 (route p) ∧ kept p ≠ [] ∧ result p = ⟨.path, text false (kept p)⟩) := by
  rcases eq_or_ne p [] with rfl | hne
  · exact .inl result_nil
  · rw [sound_iff_kept, not_and, not_not] at h
    rcases foldl_pieces hne with hfold | ⟨-, hfold⟩
    · rw [result, hfold]
      by_cases hwithin : Routes.Within 0 (route p)
      · by_cases habs : IsAbsolute p
        · have hnames : names p = [[]] := (if_pos ⟨habs, hwithin⟩).trans (by rw [h hwithin])
          rw [hnames]
          exact .inl rfl
        · have hnames : names p = [] := (if_neg fun h => habs h.1).trans (h hwithin)
          rw [hnames]
          exact .inr (.inl rfl)
      · have hnames : names p = kept p := if_neg fun h => hwithin h.2
        rw [hnames]
        rcases hl : kept p with _ | ⟨c, l⟩
        · exact .inr (.inl rfl)
        · have hc : c ≠ [] :=
            (isName_of_mem_kept (p := p) (by rw [hl]; exact List.mem_cons_self)).ne_nil
          have hroot : c :: l ≠ [[]] := fun h => hc (List.cons.inj h).1
          simp only [if_neg hroot]
          exact .inr (.inr ⟨hwithin, nofun, rfl⟩)
    · rw [result, hfold]
      exact .inl rfl

section Text

variable {rooted : Bool} {l : List (List YogChar)} (hl : ∀ c ∈ l, IsName c) (hne : l ≠ [])
include hl hne

theorem splitOn_text :
    (text rooted l).splitOn slash = (if rooted then [[]] else []) ++ l := by
  have hsplit : (separator.intercalate l).splitOn slash = l :=
    List.splitOn_intercalate slash (fun c hc => (hl c hc).slash) hne
  rcases rooted with _ | _
  · exact hsplit
  · exact (List.splitOn_append_cons_self [] _).trans (congrArg _ hsplit)

theorem components_text : components (text rooted l) = l := by
  have hall : l.filter (· ≠ []) = l :=
    List.filter_eq_self.2 fun c hc => decide_eq_true (hl c hc).ne_nil
  rw [components, splitOn_text hl hne, List.filter_append, hall]
  rcases rooted with _ | _ <;> rfl

theorem isAbsolute_text : IsAbsolute (text rooted l) ↔ rooted = true := by
  rcases rooted with _ | _
  · obtain ⟨c, l', rfl⟩ := List.exists_cons_of_ne_nil hne
    have hc := hl c List.mem_cons_self
    obtain ⟨x, c', rfl⟩ := List.exists_cons_of_ne_nil hc.ne_nil
    have hx : x ≠ slash := fun h => hc.slash (by rw [h]; exact List.mem_cons_self)
    simp [text, IsAbsolute, hx]
  · simp [text, IsAbsolute, separator_eq]

theorem route_text : route (text rooted l) = l.map .down := by
  rw [route, components_text hl hne]
  refine List.map_congr_left fun c hc => ?_
  rw [stepOf, if_neg (hl c hc).current, if_neg (hl c hc).parent]

theorem kept_text : kept (text rooted l) = l := by
  rw [kept, route_text hl hne, Routes.foldl_cancel_down, List.nil_append]

theorem sound_text : Sound (text rooted l) := by
  rw [sound_iff_kept, kept_text hl hne, route_text hl hne, ← List.append_nil (l.map Routes.Step.down),
    Routes.within_append (Routes.up_notMem_map l)]
  exact ⟨trivial, hne⟩

/-- Such a text is its own normalisation. -/
theorem result_text : result (text rooted l) = ⟨.path, text rooted l⟩ := by
  rw [result_of_sound (sound_text hl hne), kept_text hl hne]
  simp [isAbsolute_text hl hne]

end Text

/-- The parts of a path, after the separator an absolute one begins with. -/
def parts (r : List YogChar) : List (List YogChar) :=
  if IsAbsolute r then (r.splitOn slash).tail else r.splitOn slash

/-- What a normalised path looks like. -/
structure Normal (r : List YogChar) : Prop where
  single : ¬ [slash, slash] <:+: r
  parts : r = separator ∨ ∀ c ∈ parts r, c ≠ [] ∧ c ≠ current ∧ (IsAbsolute r → c ≠ parent)

/-- `normalize` returns a normalised path to the same place, which is its own normalisation. -/
def Normalizes (unicode : Unicode) (p : List YogChar) : Prop :=
  ∃ r, Partial.Reaches (fun n => callNormalize unicode n ⟨.path, p⟩) (.ok r) ∧
    Partial.Reaches (fun n => callNormalize unicode n r) (.ok r) ∧ Normal r.chars ∧
    (IsAbsolute r.chars ↔ IsAbsolute p) ∧ place r.chars = place p

/-- `abs` returns an absolute path that is its own normalisation. -/
def MakesAbsolute (unicode : Unicode) (cwd p : List YogChar) : Prop :=
  ∃ r, Partial.Reaches (fun n => abs unicode n cwd p) (.ok r) ∧ IsAbsolute r.chars ∧
    Partial.Reaches (fun n => callNormalize unicode n r) (.ok r)

theorem normal_text {rooted : Bool} {l : List (List YogChar)} (hl : ∀ c ∈ l, IsName c)
    (hne : l ≠ []) : Normal (text rooted l) where
  single := by
    rintro ⟨a, b, h⟩
    have hsplit := congrArg (List.splitOn slash) h
    rw [List.append_assoc, List.cons_append, List.cons_append, List.nil_append,
      List.splitOn_append_cons_self, splitOn_text hl hne] at hsplit
    have hempty : [] ∈ l := by
      have hmem : (slash :: b).splitOn slash = [] :: b.splitOn slash :=
        List.splitOn_append_cons_self [] b
      obtain ⟨d, l', hd⟩ := List.exists_cons_of_ne_nil (List.splitOn_ne_nil slash a)
      rw [hmem, hd] at hsplit
      rcases rooted with _ | _
      · rw [← show _ = l from hsplit]
        simp
      · rw [← show _ = l from (List.cons.inj hsplit).2]
        simp
    exact (hl [] hempty).ne_nil rfl
  parts := by
    right
    intro c hc
    have hmem : c ∈ l := by
      unfold parts at hc
      rw [splitOn_text hl hne] at hc
      simp only [isAbsolute_text hl hne] at hc
      rcases rooted with _ | _ <;> exact hc
    exact ⟨(hl c hmem).ne_nil, (hl c hmem).current, fun _ => (hl c hmem).parent⟩

theorem ups_place {p : List YogChar} (h : ¬ IsAbsolute p) :
    (place p).ups = 0 ↔ Routes.Within 0 (route p) := by
  unfold place
  rw [decide_eq_false h]
  exact Routes.ups_lead_eq_iff ⟨0, []⟩ (route p)

theorem ups_place_of_within {p : List YogChar} (h : Routes.Within 0 (route p)) :
    (place p).ups = 0 := by
  by_cases habs : IsAbsolute p
  · unfold place
    rw [decide_eq_true habs, Routes.ups_lead_rooted]
  · exact (ups_place habs).2 h

theorem callNormalize_string (unicode : Unicode) (s : List YogChar) :
    Partial.Reaches (fun n => callNormalize unicode n ⟨.string, s⟩)
      (.error (.raised .attributeError)) := ⟨0, fun _ _ => rfl⟩

theorem normalizes_of_sound (unicode : Unicode) {p : List YogChar} (h : Sound p) :
    Normalizes unicode p := by
  obtain ⟨hwithin, hne⟩ := (sound_iff_kept p).1 h
  have hl : ∀ c ∈ kept p, IsName c := fun c hc => isName_of_mem_kept hc
  have habs : IsAbsolute (text (decide (IsAbsolute p)) (kept p)) ↔ IsAbsolute p := by
    rw [isAbsolute_text hl hne, decide_eq_true_iff]
  have hreaches := callNormalize_reaches unicode p
  rw [result_of_sound h] at hreaches
  have hagain := callNormalize_reaches unicode (text (decide (IsAbsolute p)) (kept p))
  rw [result_text hl hne] at hagain
  refine ⟨_, hreaches, hagain, normal_text hl hne, habs, Routes.Place.ext ?_ ?_⟩
  · rw [ups_place_of_within hwithin, ups_place_of_within (sound_text hl hne).within]
  · rw [downs_place, downs_place, kept_text hl hne]

theorem sound_of_normalizes {unicode : Unicode} {p : List YogChar} (h : Normalizes unicode p) :
    Sound p := by
  obtain ⟨r, hreaches, hagain, -, habs, hplace⟩ := h
  obtain rfl := Except.ok.inj (hreaches.unique (callNormalize_reaches unicode p))
  by_contra hsound
  rcases result_of_not_sound hsound with heq | heq | ⟨hwithin, hne, heq⟩
  · rw [heq] at hagain
    exact absurd (hagain.unique (callNormalize_string unicode separator)) nofun
  · rw [heq] at hagain
    have hroot := hagain.unique (callNormalize_reaches unicode [])
    rw [result_nil] at hroot
    exact absurd hroot nofun
  · have hl : ∀ c ∈ kept p, IsName c := fun c hc => isName_of_mem_kept hc
    rw [heq] at habs hplace
    have hrelative : ¬ IsAbsolute p := by
      rw [← habs, isAbsolute_text hl hne]
      exact nofun
    refine hwithin ((ups_place hrelative).1 ?_)
    rw [← hplace, ups_place_of_within (sound_text hl hne).within]

theorem startsWith_separator (p : List YogChar) :
    startsWith p separator = .ok (decide (IsAbsolute p)) := by
  have hslice : slice p (.fixnum 0) (some separator.length) = .ok ((p.drop 0).take 1) :=
    slice_ofNat p 0 1
  have hequal : equal ((p.drop 0).take 1) separator = decide (IsAbsolute p) := by
    rw [Bool.eq_iff_iff, YogString.equal_iff, decide_eq_true_iff, IsAbsolute, separator_eq]
    rcases p with _ | ⟨c, p⟩ <;> simp
  rw [startsWith, hslice, ← hequal]
  rfl

/-- A path without the separators at its end. -/
theorem exists_trimmed (cwd : List YogChar) :
    ∃ w k, cwd = w ++ List.replicate k slash ∧ w.getLast? ≠ some slash := by
  induction cwd using List.reverseRecOn with
  | nil => exact ⟨[], 0, rfl, nofun⟩
  | append_singleton l c ih =>
    by_cases hc : c = slash
    · obtain ⟨w, k, rfl, hw⟩ := ih
      exact ⟨w, k + 1, by rw [hc, List.replicate_succ', List.append_assoc], hw⟩
    · exact ⟨l ++ [c], 0, by simp, by simpa using hc⟩

/-- `/` puts one separator behind a path without those at its end. -/
theorem div_reaches (unicode : Unicode) {w : List YogChar} (hw : w.getLast? ≠ some slash) (k : ℕ)
    (s : List YogChar) :
    Partial.Reaches (fun n => div unicode n (w ++ List.replicate k slash) s)
      (.ok ⟨.path, w ++ separator ++ s⟩) := by
  obtain ⟨N, hN⟩ := search_trailing_none unicode hw
  have hlast : ∀ n, N ≤ n → ∀ turns, joinTo unicode n trailingRegexp (turns + 1) w s =
      Partial.done (.ok ⟨.path, w ++ separator ++ s⟩) := fun n hn turns => by
    simp only [joinTo, hN n hn, Partial.done_ok_bind]
    rfl
  have hdiv : ∀ n t, div unicode n t s = joinTo unicode n trailingRegexp n t s := fun n t => by
    rw [div, compiled_trailing, Partial.done_ok_bind]
  rcases k with _ | k
  · refine ⟨max N 1, fun n hn => ?_⟩
    obtain ⟨m, rfl⟩ := Nat.exists_eq_add_of_le' (le_trans (le_max_right N 1) hn)
    refine (hdiv _ _).trans ?_
    rw [List.replicate_zero, List.append_nil]
    exact hlast _ (le_trans (le_max_left N 1) hn) m
  · obtain ⟨M, hM⟩ := search_trailing unicode k hw
    refine ⟨max (max N M) 2, fun n hn => ?_⟩
    obtain ⟨m, rfl⟩ := Nat.exists_eq_add_of_le' (le_trans (le_max_right _ 2) hn)
    have hnm := le_trans (le_max_left _ 2) hn
    have hslice : ofString (slice (w ++ List.replicate (k + 1) slash) (.fixnum 0)
        (some (w.length : ℕ))) = Partial.done (.ok w) := by
      rw [show (0 : Int) = ((0 : ℕ) : Int) from rfl, slice_ofNat, List.drop_zero, List.take_left]
      rfl
    refine (hdiv _ _).trans ?_
    rw [joinTo]
    simp only [hM _ (le_trans (le_max_right N M) hnm), Partial.done_ok_bind, hslice]
    exact hlast _ (le_trans (le_max_left N M) hnm) m

/-- A sound relative path is sound behind an absolute one that goes nowhere up. -/
theorem sound_append {cwd p w : List YogChar} {k : ℕ} (hcwd : cwd = w ++ List.replicate k slash)
    (habs : IsAbsolute cwd) (hparent : parent ∉ components cwd) (h : Sound p) :
    IsAbsolute (w ++ separator ++ p) ∧ Sound (w ++ separator ++ p) := by
  have hassoc : w ++ separator ++ p = w ++ slash :: p := by rw [List.append_assoc]; rfl
  have hcomponents : components w = components cwd := by
    rcases k with _ | k
    · rw [hcwd, List.replicate_zero, List.append_nil]
    · have hreplicate := components_replicate k []
      rw [List.append_nil] at hreplicate
      rw [hcwd, List.replicate_succ, components_append, hreplicate, components_nil,
        List.append_nil]
  have hroute : route (w ++ slash :: p) = route cwd ++ route p := by
    rw [route, components_append, hcomponents, List.map_append]
    rfl
  have hups : Routes.Step.up ∉ route cwd := fun hmem => by
    obtain ⟨c, hc, heq⟩ := List.mem_map.1 hmem
    unfold stepOf at heq
    split_ifs at heq with _ hup
    exact hparent (hup ▸ hc)
  rw [hassoc]
  constructor
  · rcases w with _ | ⟨c, w⟩
    · rfl
    · rw [hcwd] at habs
      exact habs
  · constructor
    · rw [hroute, Routes.within_append hups]
      exact h.within.mono (Nat.zero_le _)
    · rw [hroute, Routes.ups_append, Routes.downs_append, Routes.ups_eq_zero hups]
      have := h.left
      omega

/-- A sound absolute path is made absolute by `normalize`. -/
theorem normalizes_absolute (unicode : Unicode) {p : List YogChar} (habs : IsAbsolute p)
    (h : Sound p) : ∃ r, Partial.Reaches (fun n => callNormalize unicode n ⟨.path, p⟩) (.ok r) ∧
      IsAbsolute r.chars ∧ Partial.Reaches (fun n => callNormalize unicode n r) (.ok r) := by
  obtain ⟨r, hreaches, hagain, -, habs', -⟩ := normalizes_of_sound unicode h
  exact ⟨r, hreaches, habs'.2 habs, hagain⟩

theorem makesAbsolute_of_sound (unicode : Unicode) {cwd p : List YogChar}
    (habs : IsAbsolute cwd) (hparent : parent ∉ components cwd) (h : Sound p) :
    MakesAbsolute unicode cwd p := by
  by_cases hp : IsAbsolute p
  · obtain ⟨r, hreaches, hr⟩ := normalizes_absolute unicode hp h
    refine ⟨r, hreaches.of_eq 0 fun n _ => ?_, hr⟩
    rw [abs, startsWith_separator, decide_eq_true hp]
    rfl
  · obtain ⟨w, k, hcwd, hw⟩ := exists_trimmed cwd
    obtain ⟨hp', hsound⟩ := sound_append hcwd habs hparent h
    obtain ⟨r, hreaches, hr⟩ := normalizes_absolute unicode hp' hsound
    obtain ⟨N, hN⟩ := div_reaches unicode hw k p
    refine ⟨r, hreaches.of_eq N fun n hn => ?_, hr⟩
    rw [← hcwd] at hN
    rw [abs, startsWith_separator, decide_eq_false hp]
    simp only [hN n hn]
    rfl

/-- Where `getcwd` gives an absolute path without `..`, a path is normalised and made absolute as it
should just if every `..` in it cancels a name and some name is left. -/
theorem normalizes_iff (unicode : Unicode) (cwd : List YogChar) (habs : IsAbsolute cwd)
    (hparent : parent ∉ components cwd) (p : List YogChar) :
    Normalizes unicode p ∧ MakesAbsolute unicode cwd p ↔
      Routes.Within 0 (route p) ∧ Routes.ups (route p) < Routes.downs (route p) := by
  constructor
  · rintro ⟨h, -⟩
    exact ⟨(sound_of_normalizes h).within, (sound_of_normalizes h).left⟩
  · rintro ⟨hwithin, hleft⟩
    exact ⟨normalizes_of_sound unicode ⟨hwithin, hleft⟩,
      makesAbsolute_of_sound unicode habs hparent ⟨hwithin, hleft⟩⟩

theorem normalizes_iff_name :
    (Normalizes asciiUnicode (fromString "a/../b") ∧
      MakesAbsolute asciiUnicode (fromString "/tmp") (fromString "a/../b")) ↔
      Routes.Within 0 (route (fromString "a/../b")) ∧
        Routes.ups (route (fromString "a/../b")) < Routes.downs (route (fromString "a/../b")) :=
  normalizes_iff asciiUnicode (fromString "/tmp") (by decide) (by decide) _

/-- A path that begins with `..` loses it. -/
theorem not_normalizes_parent : ¬ (Normalizes asciiUnicode (fromString "../a") ∧
    MakesAbsolute asciiUnicode (fromString "/tmp") (fromString "../a")) := fun h =>
  absurd (sound_of_normalizes h.1).within (by decide)

end Path

end Yog
