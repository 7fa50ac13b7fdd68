import Yog.Lib.Occurrence
import Yog.Proofs.StringOrder
import Yog.StringScript

/-!
# Substrings

The searches of `string.c` and of `string.yog` forward find the first occurrence (`find_spec`,
`StringScript.find_eq`). What is built on them, replacing and splitting, works on the pieces between
the occurrences that do not overlap, and ends because an occurrence is not empty; an empty one is
found at one place for ever. The search backward never looks at the index zero, and takes its start
for the last index of an occurrence.
-/

namespace Yog

open Occurrence

namespace YogString

variable {self substr to_ : List YogChar}

theorem findSubstr_eq_iff : findSubstr self substr = substr.length ↔ substr <+: self := by
  fun_induction findSubstr self substr with
  | case1 c self d substr h =>
    simp only [List.length_cons, List.cons_prefix_cons]
    exact iff_of_false (by omega) fun h' => h h'.1.symm
  | case2 c self d substr h ih =>
    rw [not_not] at h
    simp [h, ih]
  | case3 self substr h =>
    rcases substr with _ | ⟨d, substr⟩
    · simp
    · rcases self with _ | ⟨c, self⟩
      · simp
      · exact absurd rfl (h c self d substr rfl)

theorem findLoop_eq_some {n i k : Nat} (h : findLoop self substr n i = some k) :
    IsFirst substr self i k := by
  induction n generalizing i with
  | zero => simp [findLoop] at h
  | succ n ih =>
    simp only [findLoop, findSubstr_eq_iff] at h
    split_ifs at h with hocc
    · obtain rfl := Option.some.inj h
      exact ⟨le_rfl, hocc, fun j hj hji => by omega⟩
    · obtain ⟨hge, hk, hleast⟩ := ih h
      refine ⟨by omega, hk, fun j hj hjk => ?_⟩
      rcases Nat.eq_or_lt_of_le hj with rfl | hj
      · exact hocc
      · exact hleast j hj hjk

theorem findLoop_eq_none {n i : Nat} (h : findLoop self substr n i = none) :
    ∀ k, i ≤ k → k < i + n → ¬ OccursAt substr self k := by
  induction n generalizing i with
  | zero =>
    intro k hk hki
    omega
  | succ n ih =>
    simp only [findLoop, findSubstr_eq_iff] at h
    split_ifs at h with hocc
    intro k hk hki
    rcases Nat.eq_or_lt_of_le hk with rfl | hk
    · exact hocc
    · exact ih h k hk (by omega)

theorem find_eq_some {n k : Nat} (h : find self substr n = some k) : IsFirst substr self n k := by
  unfold find at h
  split_ifs at h
  exact findLoop_eq_some h

/-- What is not found is nowhere from the start on. -/
theorem find_eq_none (hne : substr ≠ []) {n : Nat} (h : find self substr n = none) :
    ∀ k, n ≤ k → ¬ OccursAt substr self k := by
  intro k hk hocc
  have hle := hocc.le hne
  unfold find at h
  split_ifs at h with hlt
  · omega
  · exact findLoop_eq_none h k hk (by omega) hocc

/-- An empty string is found where the search starts. -/
theorem find_nil {n : Nat} (h : n ≤ self.length) : find self [] n = some n := by
  unfold find
  rw [if_neg (by simp), List.length_nil, Nat.sub_zero, Nat.succ_sub h, findLoop,
    if_pos (findSubstr_eq_iff.2 List.nil_prefix)]

/-- What is left of a string is replaced piece by piece. -/
theorem gsubLoop_eq (hne : substr ≠ []) (fuel from_ : Nat) (s : List YogChar)
    (hfuel : self.length - from_ < fuel) :
    ∃ ps, Pieces substr (self.drop from_) ps ∧
      gsubLoop self substr to_ fuel from_ s = some (s ++ to_.intercalate ps) := by
  induction fuel generalizing from_ s with
  | zero => omega
  | succ fuel ih =>
    rw [gsubLoop]
    rcases hfind : find self substr from_ with _ | index
    · refine ⟨_, .last_drop (find_eq_none hne hfind), ?_⟩
      simp [addStr, List.take_of_length_le]
    · have hfirst := find_eq_some hfind
      have hle := hfirst.occurs.le hne
      have hge := hfirst.ge
      have hpos := List.length_pos_iff.2 hne
      obtain ⟨ps, hps, heq⟩ := ih (index + substr.length) (addStr self s from_ index ++ to_)
        (by omega)
      refine ⟨_, .cut_drop hfirst hps, ?_⟩
      rw [List.intercalate_cons_of_ne_nil hps.ne_nil]
      simpa [addStr] using heq

/-- From where nothing is passed over nothing is ever passed. -/
theorem gsubLoop_nil (fuel from_ : Nat) (s : List YogChar) (h : from_ ≤ self.length) :
    gsubLoop self [] to_ fuel from_ s = none := by
  induction fuel generalizing s with
  | zero => rfl
  | succ fuel ih =>
    rw [gsubLoop, find_nil h]
    exact ih _

/-- The leftmost occurrences that do not overlap are replaced, and nothing else. -/
def Replaced (self substr to_ r : List YogChar) : Prop :=
  ∃ ps, Pieces substr self ps ∧ r = to_.intercalate ps

/-- `gsub` returns what it should if what it replaces is not empty, and else never. -/
theorem gsub_returns_iff (self substr to_ : List YogChar) :
    ((∃ r, Replaced self substr to_ r ∧ ∃ fuel₀, ∀ fuel ≥ fuel₀,
        gsub self (.string substr) (.string to_) fuel = some (.ok r)) ↔ substr ≠ []) ∧
      (substr = [] → ∀ fuel, gsub self (.string substr) (.string to_) fuel = none) := by
  have hnil (fuel : Nat) : gsub self (.string []) (.string to_) fuel = none := by
    simp [gsub, gsubLoop_nil fuel 0 [] (Nat.zero_le _)]
  refine ⟨⟨?_, fun hne => ?_⟩, fun h => h ▸ hnil⟩
  · rintro ⟨r, -, fuel₀, h⟩ rfl
    have h₀ := h fuel₀ le_rfl
    rw [hnil] at h₀
    exact absurd h₀ (by simp)
  · have hloop (fuel : Nat) (hfuel : self.length + 1 ≤ fuel) := @gsubLoop_eq self substr to_ hne
      fuel 0 [] (by omega)
    obtain ⟨ps, hps, -⟩ := hloop _ le_rfl
    refine ⟨_, ⟨ps, hps, rfl⟩, self.length + 1, fun fuel hfuel => ?_⟩
    obtain ⟨qs, hqs, heq⟩ := hloop fuel hfuel
    obtain rfl := hps.unique hqs
    simp [gsub, heq]

/-- Nothing is found in a string of one character for ever. -/
theorem gsub_empty_never :
    ¬ ∃ fuel r, gsub (fromString "a") (.string []) (.string (fromString "b")) fuel =
      some r := by
  rintro ⟨fuel, r, h⟩
  simp [gsub, gsubLoop_nil fuel 0 [] (Nat.zero_le _)] at h

theorem index2offset_ofNat {i : Nat} (h : i < self.length) : index2offset self i = some i := by
  unfold index2offset
  rw [if_neg (by omega), if_pos (by omega), Int.toNat_natCast]

theorem subscript_ofNat {i : Nat} (h : i < self.length) :
    subscript self (.fixnum i) = .ok [self[i]] := by
  have hn : normalizeIndex self i = i := if_pos (by omega)
  have hget : getAt self i = [self[i]] := by
    rw [getAt, List.drop_eq_getElem_cons h]
    rfl
  simp only [subscript, unnormalizedIndex2offset, hn, index2offset_ofNat h]
  exact congrArg Except.ok hget

/-- A slice is cut where the string ends. -/
theorem slice_ofNat (self : List YogChar) (i n : Nat) :
    slice self (.fixnum i) (some n) = .ok ((self.drop i).take n) := by
  have hpos : normalizePosition i (self.length - 1) = i := if_neg (by omega)
  simp only [slice, hpos]
  by_cases hi : i < self.length
  · rw [if_neg (by omega)]
    simp only [index2offset_ofNat hi, Option.any_some, decide_eq_true_eq]
    rcases Nat.eq_zero_or_pos n with rfl | hn
    · simp
    · rw [if_neg (by omega)]
      obtain ⟨m, hm, hstop⟩ : ∃ m : Nat, i + m < self.length ∧
          (i : Int) + normalizeLength (some n) (self.length - 1) i - 1 = (i + m : Nat) ∧
            (self.drop i).take (m + 1) = (self.drop i).take n := by
        simp only [normalizeLength]
        split_ifs with hlt
        · refine ⟨self.length - i - 1, by omega, by omega, ?_⟩
          rw [List.take_of_length_le (by simp; omega), List.take_of_length_le (by simp; omega)]
        · exact ⟨n - 1, by omega, by omega, by rw [Nat.sub_add_cancel hn]⟩
      rw [hstop.1, index2offset_ofNat hm]
      simp [hstop.2]
  · rw [if_pos (by omega), List.drop_of_length_le (by omega), List.take_nil]

theorem slice_none_ofNat (self : List YogChar) (i : Nat) :
    slice self (.fixnum i) none = .ok (self.drop i) := by
  have hpos : normalizePosition i (self.length - 1) = i := if_neg (by omega)
  simp only [slice, hpos]
  by_cases hi : i < self.length
  · rw [if_neg (by omega)]
    have hstop : (i : Int) + normalizeLength none (self.length - 1) i - 1 =
        (self.length - 1 : Nat) := by
      simp only [normalizeLength]
      omega
    simp only [index2offset_ofNat hi, Option.any_none, hstop,
      index2offset_ofNat (show self.length - 1 < self.length by omega)]
    rw [List.take_of_length_le (by simp; omega)]
    rfl
  · rw [if_pos (by omega), List.drop_of_length_le (by omega)]

end YogString

namespace StringScript

open YogString

variable {self substr : List YogChar}

/-- Inside a string no index is out of range. -/
theorem matchLoop_eq {i : Nat} (hi : i + substr.length ≤ self.length) (n j : Nat)
    (hn : n + j = substr.length) :
    matchLoop self substr i n j = .ok (j + findSubstr (self.drop (i + j)) (substr.drop j)) := by
  induction n generalizing j with
  | zero =>
    rw [matchLoop, List.drop_of_length_le (l := substr) (by omega)]
    simp [findSubstr]
  | succ n ih =>
    have hself : i + j < self.length := by omega
    have hsubstr : j < substr.length := by omega
    rw [matchLoop, subscript_ofNat hself, subscript_ofNat hsubstr, List.drop_eq_getElem_cons hself,
      List.drop_eq_getElem_cons hsubstr, findSubstr]
    simp only [bind, Except.bind, pure, Except.pure, equal_iff, List.cons.injEq, and_true]
    by_cases heq : self[i + j] = substr[j]
    · rw [if_neg (not_not.2 heq), if_neg (not_not.2 heq), ih (j + 1) (by omega), ← Nat.add_assoc,
        Nat.add_assoc j, Nat.add_comm 1]
    · rw [if_pos heq, if_pos heq, Nat.add_zero]

theorem findLoop_eq {n i : Nat} (h : n = 0 ∨ n + i + substr.length ≤ self.length + 1) :
    findLoop self substr n i =
      .ok ((YogString.findLoop self substr n i).elim notFound fun k => (k : Int)) := by
  induction n generalizing i with
  | zero => rfl
  | succ n ih =>
    rw [findLoop, matchLoop_eq (by omega) _ _ (by omega), YogString.findLoop, Nat.zero_add,
      Nat.add_zero, List.drop_zero]
    simp only [bind, Except.bind, pure, Except.pure]
    split_ifs with hocc
    · rfl
    · exact ih (by omega)

/-- The search of the language is that of `string.c`, and no index of it is out of range. -/
theorem find_eq (self substr : List YogChar) (startPos : Int) : find self substr startPos =
    .ok ((YogString.find self substr (findStart self startPos)).elim notFound
      fun k => (k : Int)) := by
  unfold find YogString.find
  split_ifs with h
  · rfl
  · exact findLoop_eq (by omega)

/-- The search answers the first occurrence from `n` on. -/
def FoundFirst (substr self : List YogChar) (n : Nat) (r : Except StringError Int) : Prop :=
  (∃ i : Nat, r = .ok (i : Int) ∧ IsFirst substr self n i) ∨
    r = .ok notFound ∧ ∀ i, n ≤ i → ¬ OccursAt substr self i

theorem find_spec (hne : substr ≠ []) (self : List YogChar) (startPos : Int) :
    FoundFirst substr self (findStart self startPos) (find self substr startPos) := by
  rw [find_eq]
  rcases hfind : YogString.find self substr (findStart self startPos) with _ | i
  · exact .inr ⟨rfl, find_eq_none hne hfind⟩
  · exact .inl ⟨i, rfl, find_eq_some hfind⟩

/-- The search answers the last occurrence up to `n`. -/
def FoundLast (substr self : List YogChar) (n : Nat) (r : Except StringError Int) : Prop :=
  (∃ i : Nat, r = .ok (i : Int) ∧ i ≤ n ∧ OccursAt substr self i ∧
      ∀ j, i < j → j ≤ n → ¬ OccursAt substr self j) ∨
    r = .ok notFound ∧ ∀ i ≤ n, ¬ OccursAt substr self i

theorem slice_eq_iff (i : Nat) :
    (self.drop i).take substr.length = substr ↔ OccursAt substr self i := by
  rw [OccursAt, List.prefix_iff_eq_take, eq_comm]

/-- The index zero is not looked at. -/
theorem rfindLoop_spec (self substr : List YogChar) (n : Nat) :
    (∃ i : Nat, rfindLoop self substr n = .ok (i : Int) ∧ 0 < i ∧ i ≤ n ∧
        OccursAt substr self i ∧ ∀ j, i < j → j ≤ n → ¬ OccursAt substr self j) ∨
      rfindLoop self substr n = .ok notFound ∧
        ∀ i, 0 < i → i ≤ n → ¬ OccursAt substr self i := by
  induction n with
  | zero => exact .inr ⟨rfl, fun i hi hi' => by omega⟩
  | succ n ih =>
    have hloop : rfindLoop self substr (n + 1) =
        if OccursAt substr self (n + 1) then .ok ((n + 1 : Nat) : Int)
        else rfindLoop self substr n := by
      rw [rfindLoop, slice_ofNat]
      simp only [← slice_eq_iff, ← equal_iff]
      rfl
    rw [hloop]
    split_ifs with hocc
    · exact .inl ⟨n + 1, rfl, Nat.succ_pos n, le_rfl, hocc, fun j hj hj' => by omega⟩
    · rcases ih with ⟨i, hi, hpos, hle, hi', hlast⟩ | ⟨hi, hnone⟩
      · refine .inl ⟨i, hi, hpos, by omega, hi', fun j hj hj' => ?_⟩
        rcases Nat.eq_or_lt_of_le hj' with rfl | hj'
        · exact hocc
        · exact hlast j hj (by omega)
      · refine .inr ⟨hi, fun j hj hj' => ?_⟩
        rcases Nat.eq_or_lt_of_le hj' with rfl | hj'
        · exact hocc
        · exact hnone j hj (by omega)

/-- What a start is taken for: the last index where there is none, from the end where it is
negative. Before the beginning there is nothing to start from. -/
def rfindStart (self : List YogChar) : Option Int → Option Nat
  | none => some (self.length - 1)
  | some startPos =>
    if startPos < - self.length then none
    else if startPos < 0 then some (self.length + startPos).toNat
    else some startPos.toNat

theorem rfindFrom_eq (self substr : List YogChar) (n : Nat) :
    rfindFrom self substr n = rfindLoop self substr (n + 1 - substr.length) := by
  unfold rfindFrom
  split_ifs with h
  · rw [show n + 1 - substr.length = 0 by omega, rfindLoop]
  · rw [Nat.sub_add_comm (by omega)]

theorem rfind_eq (hne : substr ≠ []) {startPos : Option Int} {n : Nat}
    (h : rfindStart self startPos = some n) :
    rfind self substr startPos = rfindLoop self substr (n + 1 - substr.length) := by
  have hpos := List.length_pos_iff.2 hne
  rw [← rfindFrom_eq]
  rcases startPos with _ | startPos
  · obtain rfl := Option.some.inj h
    rw [rfind, rfindAt]
    rcases Nat.eq_zero_or_pos self.length with hzero | hself
    · rw [if_pos (by omega), rfindFrom_eq, show self.length - 1 + 1 - substr.length = 0 by omega]
      rfl
    · rw [if_neg (by omega), if_neg (by omega)]
      congr 1
      omega
  · rw [rfindStart] at h
    rw [rfind, rfindAt]
    split_ifs at h ⊢ <;> obtain rfl := Option.some.inj h <;> rfl

/-- Every occurrence up to `n` ends up to `n`, and one at the beginning is not the only one. -/
structure Sought (substr s : List YogChar) (n : Nat) : Prop where
  ends : ∀ i ≤ n, OccursAt substr s i → i + substr.length ≤ n + 1
  other : OccursAt substr s 0 → ∃ i, 0 < i ∧ i ≤ n ∧ OccursAt substr s i

theorem foundLast_rfindLoop_iff (hne : substr ≠ []) (self : List YogChar) (n : Nat) :
    FoundLast substr self n (rfindLoop self substr (n + 1 - substr.length)) ↔
      Sought substr self n := by
  have hpos := List.length_pos_iff.2 hne
  rcases rfindLoop_spec self substr (n + 1 - substr.length) with
    ⟨i, hi, hi0, hin, hocc, hlast⟩ | ⟨hnone, hall⟩
  · rw [hi]
    constructor
    · rintro (⟨k, hk, hkn, hkocc, hklast⟩ | ⟨hk, -⟩)
      · obtain rfl : i = k := by simpa using hk
        refine ⟨fun j hj hjocc => ?_, fun _ => ⟨i, hi0, hkn, hocc⟩⟩
        by_contra hlt
        exact hklast j (by omega) hj hjocc
      · exact absurd (Except.ok.inj hk) (by unfold notFound; omega)
    · intro hs
      refine .inl ⟨i, rfl, by omega, hocc, fun j hj hjn hjocc => ?_⟩
      have := hs.ends j hjn hjocc
      exact hlast j hj (by omega) hjocc
  · rw [hnone]
    have hfew (i : Nat) (hi : 0 < i) (hend : i + substr.length ≤ n + 1) :
        ¬ OccursAt substr self i := hall i hi (by omega)
    constructor
    · rintro (⟨k, hk, -⟩ | ⟨-, hk⟩)
      · exact absurd (Except.ok.inj hk) (by unfold notFound; omega)
      · exact ⟨fun i hi hocc => absurd hocc (hk i hi),
          fun h0 => absurd h0 (hk 0 (Nat.zero_le n))⟩
    · intro hs
      refine .inr ⟨rfl, fun i hi hocc => ?_⟩
      obtain ⟨k, hk, hkn, hkocc⟩ : ∃ k, 0 < k ∧ k ≤ n ∧ OccursAt substr self k := by
        rcases Nat.eq_zero_or_pos i with rfl | hi0
        · exact hs.other hocc
        · exact ⟨i, hi0, hi, hocc⟩
      exact hfew k hk (hs.ends k hkn hkocc) hkocc

/-- `find` answers the first occurrence from its start on; `rfind` answers the last up to its start
if that ends there and is not the one at the beginning. -/
theorem found_iff (hne : substr ≠ []) (self : List YogChar) :
    (∀ startPos, FoundFirst substr self (findStart self startPos) (find self substr startPos)) ∧
      ∀ startPos n, rfindStart self startPos = some n →
        (FoundLast substr self n (rfind self substr startPos) ↔ Sought substr self n) := by
  refine ⟨find_spec hne self, fun startPos n h => ?_⟩
  rw [rfind_eq hne h]
  exact foundLast_rfindLoop_iff hne self n

theorem found_iff_foo :
    FoundLast (fromString "o") (fromString "foo") 2
      (rfind (fromString "foo") (fromString "o") none) := by
  refine ((found_iff (by decide) _).2 none 2 (by decide)).2 ⟨fun i hi hocc => ?_, fun _ => ?_⟩
  · rw [show (fromString "o").length = 1 from rfl]
    omega
  · exact ⟨1, by decide, by decide, by decide⟩

/-- What occurs at the beginning only is not found backward. -/
theorem not_foundLast :
    ¬ FoundLast (fromString "f") (fromString "foo") 2
      (rfind (fromString "foo") (fromString "f") none) := by
  have hfind : rfind (fromString "foo") (fromString "f") none =
      .ok notFound := by decide
  rw [hfind]
  rintro (⟨i, hi, -⟩ | ⟨-, hall⟩)
  · exact absurd (Except.ok.inj hi) (by unfold notFound; omega)
  · exact hall 0 (Nat.zero_le _) (by decide)

/-- How many more pieces are cut off. -/
def left (max : Option Int) (count : Nat) (ps : List (List YogChar)) : Nat :=
  match max with
  | none => ps.length
  | some max => (max - count).toNat

theorem left_cons {max : Option Int} {count : Nat} (h : below max count) (p : List YogChar)
    (ps : List (List YogChar)) : left max count (p :: ps) = left max (count + 1) ps + 1 := by
  rcases max with _ | max
  · rfl
  · simp only [below, Option.all_some, decide_eq_true_eq] at h
    simp only [left]
    omega

theorem left_eq_zero {max : Option Int} {count : Nat} (h : ¬ below max count)
    (ps : List (List YogChar)) : left max count ps = 0 := by
  rcases max with _ | max
  · exact absurd rfl h
  · simp only [below, Option.all_some, decide_eq_true_eq] at h
    simp only [left]
    omega

/-- What is left of a string is split piece by piece, as far as the limit lets. -/
theorem splitString_eq (hne : substr ≠ []) (max : Option Int) (fuel from_ count : Nat)
    (a : List (List YogChar)) (hfuel : self.length - from_ < fuel) :
    ∃ ps, Pieces substr (self.drop from_) ps ∧ splitString self substr max fuel from_ count a =
      some (.ok (a ++ firstPieces substr (left max count ps) ps)) := by
  induction fuel generalizing from_ count a with
  | zero => omega
  | succ fuel ih =>
    have hlast (h : ∀ i, from_ ≤ i → ¬ OccursAt substr self i) :
        ∃ ps, Pieces substr (self.drop from_) ps ∧
          some ((slice self (.fixnum from_) none).map fun piece => a ++ [piece]) =
            some (.ok (a ++ firstPieces substr (left max count ps) ps)) := by
      refine ⟨_, .last_drop h, ?_⟩
      rw [slice_none_ofNat, firstPieces_singleton]
      rfl
    rw [splitString]
    split_ifs with hcond
    · obtain ⟨hroom, hbelow⟩ := hcond
      have hstart : findStart self from_ = from_ := by
        simp [findStart]
      rw [find_eq, hstart]
      rcases hfind : YogString.find self substr from_ with _ | index
      · exact hlast (find_eq_none hne hfind)
      · have hfirst := find_eq_some hfind
        have hle := hfirst.occurs.le hne
        have hge := hfirst.ge
        have hpos := List.length_pos_iff.2 hne
        obtain ⟨ps, hps, heq⟩ := ih (index + substr.length) (count + 1)
          (a ++ [(self.drop from_).take (index - from_)]) (by omega)
        refine ⟨_, .cut_drop hfirst hps, ?_⟩
        have hlen : ((index : Int) - from_) = (index - from_ : Nat) := by omega
        simp only [Option.elim_some, hlen, slice_ofNat, Int.toNat_natCast]
        rw [if_neg (by omega), heq, left_cons hbelow, firstPieces_cons _ hps.ne_nil]
        simp
    · rcases not_and_or.1 hcond with hroom | hbelow
      · refine hlast fun i hi hocc => ?_
        have hle := hocc.le hne
        omega
      · obtain ⟨ps, hps⟩ := Pieces.exists hne (self.drop from_)
        refine ⟨ps, hps, ?_⟩
        rw [slice_none_ofNat, left_eq_zero hbelow, firstPieces_zero, hps.intercalate_eq]
        rfl

/-- A string is split into pieces that do not contain the splitter and are the string again with it
between them; with a limit the first pieces are the same and the rest is not split. -/
theorem split_spec (hne : substr ≠ []) (self : List YogChar) :
    ∃ ps, (∀ p ∈ ps, ¬ substr <:+: p) ∧ substr.intercalate ps = self ∧
      (∀ fuel, self.length < fuel → split self (.string substr) none fuel = some (.ok ps)) ∧
      ∀ max fuel, self.length < fuel → split self (.string substr) (some max) fuel =
        some (.ok (ps.take (min max.toNat (ps.length - 1)) ++
          [substr.intercalate (ps.drop (min max.toNat (ps.length - 1)))])) := by
  obtain ⟨ps, hps⟩ := Pieces.exists hne self
  have hsplit (max : Option Int) (fuel : Nat) (hfuel : self.length < fuel) :
      split self (.string substr) max fuel =
        some (.ok (firstPieces substr (left max 0 ps) ps)) := by
    obtain ⟨qs, hqs, heq⟩ := splitString_eq hne max fuel 0 0 [] (by omega)
    obtain rfl := hps.unique hqs
    rw [split, if_neg (by simpa using hne), heq]
    rfl
  refine ⟨ps, hps.not_infix hne, hps.intercalate_eq, fun fuel hfuel => ?_, fun max fuel hfuel => ?_⟩
  · rw [hsplit none fuel hfuel, left, firstPieces_length hps.ne_nil]
  · rw [hsplit (some max) fuel hfuel, left, Int.ofNat_zero, Int.sub_zero]
    rfl

theorem split_spec_comma :
    ∃ ps, (∀ p ∈ ps, ¬ fromString "," <:+: p) ∧
      (fromString ",").intercalate ps = fromString "a,,b" ∧
      split (fromString "a,,b") (.string (fromString ",")) none 5 = some (.ok ps) ∧
      split (fromString "a,,b") (.string (fromString ",")) (some 1) 5 =
        some (.ok (ps.take (min 1 (ps.length - 1)) ++
          [(fromString ",").intercalate (ps.drop (min 1 (ps.length - 1)))])) :=
  (split_spec (by decide) _).imp fun _ h =>
    ⟨h.1, h.2.1, h.2.2.1 5 (by decide), h.2.2.2 1 5 (by decide)⟩

/-- To replace is to split and to join the pieces again. -/
theorem gsub_eq_split (hne : substr ≠ []) (self to_ : List YogChar) :
    ∃ ps, ∀ fuel, self.length < fuel → split self (.string substr) none fuel = some (.ok ps) ∧
      gsub self (.string substr) (.string to_) fuel = some (.ok (to_.intercalate ps)) := by
  obtain ⟨ps, hps⟩ := Pieces.exists hne self
  refine ⟨ps, fun fuel hfuel => ?_⟩
  obtain ⟨qs, hqs, hsplit⟩ := splitString_eq hne none fuel 0 0 [] (by omega)
  obtain ⟨rs, hrs, hgsub⟩ := @gsubLoop_eq self substr to_ hne fuel 0 [] (by omega)
  obtain rfl := hps.unique hqs
  obtain rfl := hps.unique hrs
  rw [left, firstPieces_length hps.ne_nil] at hsplit
  simp [split, gsub, hne, hsplit, hgsub]

theorem gsub_eq_split_comma : ∃ ps, split (fromString "a,,b") (.string (fromString ",")) none 5
    = some (.ok ps) ∧ gsub (fromString "a,,b") (.string (fromString ",")) (.string []) 5
    = some (.ok ([].intercalate ps)) :=
  (gsub_eq_split (by decide) _ _).imp fun _ h => h 5 (by decide)

end StringScript

end Yog
