import Yog.Lib.Slice
import Yog.Positions
import Yog.Proofs.ArraySort
import Yog.Proofs.Substrings

/-!
# Positions denote what they say, or are refused

A subscript means one element, counted from the start or from the end, and a slice those of its
elements that there are (`Sliced`). A string takes a start before its first character for one that
nothing follows, and a search from a position that is not there finds nothing; the others raise.

Three methods miss their checks. A binary copies as many bytes as it is asked for, whether they are
there or not (`Binary.Overrun`); an array reads a start before its first element once more from the
end (`ArrayScript.Wraps`); a search tests the position counted from the start, but starts at the
one it was given.
-/

namespace Yog

variable {E α : Type}

/-- The exceptions a script can catch. -/
def ReadError.Raised : ReadError E → Prop
  | .raised _ => True
  | .outside => False

/-- A slice has the elements asked for; it raises only for a start before the first of them or a
negative length. -/
def Sliced (xs : List α) (pos : ℤ) (len : Option ℤ) : Except (ReadError E) (List α) → Prop
  | .ok ys => ys = Slice.cut xs (Slice.start xs.length pos) len
  | .error e => e.Raised ∧ (Slice.start xs.length pos < 0 ∨ ∃ n ∈ len, n < 0)

/-- A start before the first element may also be answered with an empty sequence. -/
def SlicedOrEmpty (xs : List α) (pos : ℤ) (len : Option ℤ)
    (r : Except (ReadError E) (List α)) : Prop :=
  Sliced xs pos len r ∨ Slice.start xs.length pos < 0 ∧ r = .ok []

/-- What is read or made of an element, which has to be there. -/
def Subscripted {β : Type} (raised : E → Prop) (xs : List α) (pos : ℤ) (f : ℕ → α → β)
    (r : Except E β) : Prop :=
  match Slice.index xs.length pos with
  | some n => ∃ a, xs[n]? = some a ∧ r = .ok (f n a)
  | none => ∃ e, raised e ∧ r = .error e

/-- Where a search starts, which finds nothing from a position that is not there. -/
def Started (xs : List α) (pos : ℤ) : Option ℤ → Prop
  | some start => start = Slice.start xs.length pos ∧ 0 ≤ start ∧ start ≤ xs.length
  | none => Slice.index xs.length pos = none

namespace Binary

variable {self : List UInt8} {pos : ℤ} {len : Option ℤ}

/-- The slice begins within the binary and ends behind it. -/
def Overrun (self : List UInt8) (pos : ℤ) (len : Option ℤ) : Prop :=
  0 ≤ Slice.start self.length pos ∧ Slice.start self.length pos < self.length ∧
    0 ≤ len.getD self.length ∧
      self.length < Slice.start self.length pos + len.getD self.length

instance (self : List UInt8) (pos : ℤ) (len : Option ℤ) : Decidable (Overrun self pos len) :=
  inferInstanceAs (Decidable (_ ∧ _))

theorem start_eq (self : List UInt8) (pos : ℤ) :
    (if pos < 0 then pos + self.length else pos) = Slice.start self.length pos := by
  unfold Slice.start
  split_ifs <;> omega

theorem sliceOf_eq (self : List UInt8) (pos len : ℤ) :
    sliceOf self pos len =
      if Slice.start self.length pos < 0 then
        .error (.raised (.valueError "Binary index out of range" []))
      else if len < 0 then .error (.raised (.valueError "Binary length out of range" []))
      else if self.length ≤ Slice.start self.length pos then .ok []
      else copyItems self (Slice.start self.length pos).toNat len.toNat := by
  unfold sliceOf
  simp only [start_eq]

theorem slice_eq (self : List UInt8) (pos : ℤ) (len : Option ℤ) :
    slice self (.fixnum pos) (len.map .fixnum) = sliceOf self pos (len.getD self.length) := by
  cases len <;> rfl

/-- A slice is right unless it runs over the end. -/
theorem slice_sliced (h : ¬ Overrun self pos len) :
    Sliced self pos len (slice self (.fixnum pos) (len.map .fixnum)) := by
  rw [slice_eq, sliceOf_eq]
  split_ifs with hneg hlen hle
  · exact ⟨trivial, .inl hneg⟩
  · refine ⟨trivial, .inr ?_⟩
    rcases len with _ | n
    · simp at hlen
      omega
    · exact ⟨n, rfl, by simpa using hlen⟩
  · exact (Slice.cut_of_length_le self hle len).symm
  · have hfit : Slice.start self.length pos + len.getD self.length ≤ self.length := by
      by_contra hover
      exact h ⟨by omega, by omega, by omega, by omega⟩
    unfold copyItems
    rw [if_pos (by omega)]
    rcases len with _ | n
    · -- A length that is left out is that of the whole binary.
      have hstart : Slice.start self.length pos = 0 := by
        simp at hfit
        omega
      simp [Sliced, hstart, Slice.cut_none]
    · simp only [Option.getD_some] at hlen ⊢
      exact (Slice.cut_some self (by omega) (by omega)).symm

theorem subscript_subscripted (self : List UInt8) (pos : ℤ) :
    Subscripted ReadError.Raised self pos (fun _ c => c) (subscript self (.fixnum pos)) := by
  have hpos : (pos + if pos < 0 then (self.length : ℤ) else 0) = Slice.start self.length pos := by
    unfold Slice.start
    split_ifs <;> omega
  unfold Subscripted
  simp only [subscript, hpos]
  rcases hi : Slice.index self.length pos with _ | n
  · rw [if_pos (Slice.index_eq_none.1 hi)]
    exact ⟨.raised _, trivial, rfl⟩
  · obtain ⟨hn, hlt⟩ := Slice.index_eq_some.1 hi
    rw [if_neg (by omega)]
    refine ⟨self[n], by simp [hlt], ?_⟩
    simp [hn, hlt]

end Binary

namespace YogString

variable {self : List YogChar} {pos : ℤ} {len : Option ℤ}

theorem index2offset_eq (self : List YogChar) (n : ℤ) :
    index2offset self n = if 0 ≤ n ∧ n < self.length then some n.toNat else none := by
  unfold index2offset
  split_ifs <;> first | rfl | omega

theorem normalizePosition_eq (self : List YogChar) (pos : ℤ) :
    normalizePosition pos (self.length - 1) = Slice.start self.length pos := by
  unfold normalizePosition Slice.start
  split_ifs <;> omega

/-- The last character of a slice that begins at `n` and is not empty. -/
theorem slice_stop {n : ℕ} (hn : n < self.length) (hlen : ¬ len.any (· ≤ 0)) : ∃ stop : ℕ,
    index2offset self (n + normalizeLength len (self.length - 1) n - 1) = some stop ∧
      n ≤ stop ∧ stop < self.length ∧
        (self.drop n).take (stop - n + 1) = Slice.cut self n len := by
  rcases len with _ | l
  · refine ⟨self.length - 1, ?_, by omega, by omega, ?_⟩
    · rw [index2offset_eq, normalizeLength, if_pos (by omega)]
      congr
      omega
    · rw [Slice.cut_none, List.take_of_length_le (by simp; omega), Int.toNat_natCast]
  · have hl : 0 < l := by simpa using hlen
    rw [Slice.cut_some self (by omega) (by omega), Int.toNat_natCast]
    unfold normalizeLength
    simp only
    split_ifs with hover
    · refine ⟨self.length - 1, ?_, by omega, by omega, ?_⟩
      · rw [index2offset_eq, if_pos (by omega)]
        congr
        omega
      · rw [List.take_of_length_le (by simp; omega), List.take_of_length_le (by simp; omega)]
    · refine ⟨n + l.toNat - 1, ?_, by omega, by omega, ?_⟩
      · rw [index2offset_eq, if_pos (by omega)]
        congr
        omega
      · congr 1
        omega

/-- A slice reads no character that is not there. -/
theorem sliceWithin_eq (self : List YogChar) (pos : Arg) (len : Option ℤ) :
    sliceWithin self pos len = (slice self pos len).mapError .raised := by
  unfold sliceWithin slice
  rcases pos with s | pos | klass
  · rfl
  · simp only [normalizePosition_eq]
    by_cases hout : Slice.start self.length pos < 0 ∨
        (self.length : ℤ) - 1 < Slice.start self.length pos
    · rw [if_pos hout, if_pos hout]
      rfl
    · obtain ⟨n, hn⟩ := Int.eq_ofNat_of_zero_le (show 0 ≤ Slice.start self.length pos by omega)
      have hlt : n < self.length := by omega
      rw [if_neg hout, if_neg hout, hn, index2offset_ofNat hlt]
      simp only
      by_cases hlen : len.any (· ≤ 0)
      · rw [if_pos hlen, if_pos hlen]
        rfl
      · obtain ⟨stop, hstop, hle, hbound, -⟩ := slice_stop hlt hlen
        rw [if_neg hlen, if_neg hlen, hstop]
        exact if_pos (by omega)
  · rfl

theorem slice_eq_cut (self : List YogChar) (pos : ℤ) (len : Option ℤ) :
    slice self (.fixnum pos) len = .ok (if Slice.start self.length pos < 0 then []
      else Slice.cut self (Slice.start self.length pos) len) := by
  unfold slice
  simp only [normalizePosition_eq]
  by_cases hout : Slice.start self.length pos < 0 ∨
      (self.length : ℤ) - 1 < Slice.start self.length pos
  · rw [if_pos hout]
    split_ifs with hneg
    · rfl
    · rw [Slice.cut_of_length_le self (by omega)]
  · obtain ⟨n, hn⟩ := Int.eq_ofNat_of_zero_le (show 0 ≤ Slice.start self.length pos by omega)
    have hlt : n < self.length := by omega
    rw [if_neg hout, hn, index2offset_ofNat hlt, if_neg (by omega)]
    simp only
    by_cases hlen : len.any (· ≤ 0)
    · rw [if_pos hlen]
      rcases len with _ | l
      · simp at hlen
      · rw [Slice.cut_of_nonpos self n (by simpa using hlen)]
    · obtain ⟨stop, hstop, -, -, hcut⟩ := slice_stop hlt hlen
      rw [if_neg hlen]
      simp only [hstop, hcut]

theorem slice_sliced (self : List YogChar) (pos : ℤ) (len : Option ℤ) :
    SlicedOrEmpty self pos len (sliceWithin self (.fixnum pos) len) := by
  rw [sliceWithin_eq, slice_eq_cut]
  split_ifs with hneg
  · exact .inr ⟨hneg, rfl⟩
  · exact .inl rfl

theorem normalizeIndex_eq (self : List YogChar) (pos : ℤ) :
    normalizeIndex self pos = Slice.start self.length pos := by
  unfold normalizeIndex Slice.start
  split_ifs <;> omega

theorem unnormalized_eq (self : List YogChar) (pos : ℤ) :
    unnormalizedIndex2offset self pos =
      match Slice.index self.length pos with
      | some n => .ok n
      | none => .error (.indexError "String index out of range" []) := by
  unfold unnormalizedIndex2offset
  rw [normalizeIndex_eq, index2offset_eq]
  rfl

theorem subscript_subscripted (self : List YogChar) (pos : ℤ) :
    Subscripted ReadError.Raised self pos (fun _ c => [c])
      ((subscript self (.fixnum pos)).mapError .raised) := by
  unfold Subscripted
  simp only [subscript, unnormalized_eq]
  rcases hi : Slice.index self.length pos with _ | n
  · exact ⟨.raised _, trivial, rfl⟩
  · obtain ⟨-, hlt⟩ := Slice.index_eq_some.1 hi
    have hget : getAt self n = [self[n]] := by
      rw [getAt, List.drop_eq_getElem_cons hlt]
      rfl
    exact ⟨self[n], by simp [hlt], congrArg Except.ok hget⟩

theorem assign_subscripted (self : List YogChar) (pos : ℤ) {val : List YogChar} (h : val ≠ []) :
    Subscripted ReadError.Raised self pos (fun n _ => self.set n (val.head h))
      (assignSubscript self (.fixnum pos) (.string val)) := by
  obtain ⟨c, rest, rfl⟩ := List.exists_cons_of_ne_nil h
  unfold Subscripted
  simp only [assignSubscript, unnormalized_eq]
  rcases hi : Slice.index self.length pos with _ | n
  · exact ⟨.raised _, trivial, rfl⟩
  · obtain ⟨-, hlt⟩ := Slice.index_eq_some.1 hi
    exact ⟨self[n], by simp [hlt], rfl⟩

/-- The position of a search is counted from the end, or the string is empty and it is not its
start. -/
def Strays (self : List YogChar) (pos : ℤ) : Prop :=
  (-(self.length : ℤ) ≤ pos ∧ pos < 0) ∨ (self = [] ∧ pos ≠ 0)

theorem engineStart_started (h : ¬ Strays self pos) : Started self pos (engineStart self pos) := by
  have hindex : index2offset self (normalizeIndex self pos) = Slice.index self.length pos := by
    rw [normalizeIndex_eq, index2offset_eq]
    rfl
  unfold engineStart
  simp only [hindex]
  by_cases hout : 0 < self.length ∧ Slice.index self.length pos = none
  · rw [if_pos hout]
    exact hout.2
  · rw [if_neg hout]
    unfold Strays at h
    have hnot : ¬ (-(self.length : ℤ) ≤ pos ∧ pos < 0) := fun hneg => h (.inl hneg)
    rcases eq_or_ne self [] with rfl | hne
    · have hpos : pos = 0 := by
        by_contra hzero
        exact h (.inr ⟨rfl, hzero⟩)
      simp [Started, hpos, Slice.start]
    · have hpos := List.length_pos_of_ne_nil hne
      have hin : Slice.index self.length pos ≠ none := fun hnone => hout ⟨hpos, hnone⟩
      rw [Ne, Slice.index_eq_none] at hin
      unfold Slice.start at hin
      unfold Started Slice.start
      split_ifs at hin ⊢ <;> omega

end YogString

namespace YogRegexp

open YogString Corgi

theorem match_start (unicode : Unicode) (fuel : ℕ) (regexp : CorgiRegexp) (s : List YogChar)
    (pos : ℕ) : «match» unicode fuel regexp s pos =
      match engineStart s pos with
      | none => .done (.ok none)
      | some start => corgiMatch unicode fuel regexp (s.map Fin.val) start.toNat := by
  unfold «match» engineStart
  simp only
  split_ifs <;> rfl

end YogRegexp

namespace ArrayScript

open YogArray Partial

variable {ε V : Type} (nil : V) {s : Store V} {self : ℕ} {pos : ℤ} {len : Option ℤ}

/-- Elements are asked for from before the first one on, by less than the size. -/
def Wraps (size : ℕ) (pos : ℤ) (len : Option ℤ) : Prop :=
  -2 * (size : ℤ) ≤ pos ∧ pos < -(size : ℤ) ∧ ¬ len.any (· ≤ 0)

instance (size : ℕ) (pos : ℤ) (len : Option ℤ) : Decidable (Wraps size pos len) :=
  inferInstanceAs (Decidable (_ ∧ _))

theorem place_eq_index (size : ℕ) (pos : ℤ) : place size pos = Slice.index size pos := by
  unfold place Slice.index Slice.start
  simp only
  split_ifs <;> first | rfl | omega

/-- The elements from a position on, in a new array. -/
def taken (nil : V) (self : ℕ) (start : ℤ) (n : ℕ) : Script ε V ℕ := do
  let a ← literal nil []
  sliceLoop nil self a start n 0
  return a

theorem slice_eq_taken (hs : ∀ a ∈ s, a.Fits) (self : ℕ) (pos : ℤ) (len : Option ℤ) :
    slice (ε := ε) nil self pos len s =
      if ((YogArray.get nil s self).contents.length : ℤ) ≤ pos then literal nil [] s
      else match sliceLength len ((YogArray.get nil s self).contents.length -
          Slice.start (YogArray.get nil s self).contents.length pos) with
        | none => literal nil [] s
        | some n =>
          taken nil self (Slice.start (YogArray.get nil s self).contents.length pos) n.toNat s := by
  unfold slice Slice.start
  rw [bind_eq (size_eq nil hs self)]
  by_cases hpos : ((YogArray.get nil s self).contents.length : ℤ) ≤ pos
  · rw [if_pos hpos, if_pos hpos]
  · rw [if_neg hpos, if_neg hpos]
    rcases sliceLength len ((YogArray.get nil s self).contents.length -
      if pos < 0 then ((YogArray.get nil s self).contents.length : ℤ) + pos else pos) with _ | n
    · rfl
    · rfl

theorem makes_taken (hs : ∀ a ∈ s, a.Fits) (h : self < s.length) (start : ℤ) (n : ℕ)
    (hn : n = 0 ∨ 0 ≤ start ∧ start + n ≤ (YogArray.get nil s self).contents.length) :
    Makes nil (taken (ε := ε) nil self start n) s
      (((YogArray.get nil s self).contents.drop start.toNat).take n) := by
  refine makes_filled nil hs (makeArray_ok nil []) _ fun a ha => ?_
  rcases hn with rfl | ⟨hstart, hn⟩
  · exact ⟨a, rfl, ha, by simp⟩
  · obtain ⟨k, rfl⟩ := Int.eq_ofNat_of_zero_le hstart
    obtain ⟨a', hloop, hfits, hc⟩ := sliceLoop_eq (ε := ε) nil hs h k n 0 ha (by omega)
    exact ⟨a', hloop, hfits, by rw [hc]; simp⟩

theorem bind_error {β γ : Type} {f : Script ε V β} {e : ScriptError ε}
    (h : f s = done (.error e)) (k : β → Script ε V γ) : (f >>= k) s = done (.error e) := by
  change (f s >>= fun p => k p.1 p.2) = _
  rw [h]
  rfl

/-- Before the first element less one time the size there is nothing to wrap to. -/
theorem taken_raises (hs : ∀ a ∈ s, a.Fits) (h : self < s.length) (start : ℤ)
    (hstart : start < -((YogArray.get nil s self).contents.length : ℤ)) (n : ℕ) :
    ∃ e : ArrayError, e.Raised ∧
      taken (ε := ε) nil self start (n + 1) s = .done (.error (.array e)) := by
  obtain ⟨a, hmake, hfits, -⟩ := makeArray_ok nil []
  have hcreate : literal (ε := ε) nil [] s = done (.ok (s.length, s ++ [a])) := by
    simp only [literal, create, hmake]
  have hplace : place (YogArray.get nil s self).contents.length (start + (0 : ℕ)) = none := by
    rw [place_eq_index, Slice.index_eq_none]
    unfold Slice.start
    split_ifs <;> omega
  have hsub : subscript (ε := ε) nil self (start + (0 : ℕ)) (s ++ [a]) =
      done (.error (.array (.indexError "Array index out of range" []))) := by
    have hout := place_none (fits_get hs nil self) hplace
    simp only [subscript, get_old nil h, YogArray.subscript, if_pos hout]
  refine ⟨.indexError "Array index out of range" [], trivial, ?_⟩
  unfold taken
  rw [bind_eq hcreate, sliceLoop]
  exact bind_error (bind_error hsub _) _

theorem sliceLength_none {maxLen : ℤ} (h : sliceLength len maxLen = none) : ∃ l ∈ len, l < 0 := by
  unfold sliceLength at h
  rcases len with _ | l
  · simp at h
  · simp only at h
    split_ifs at h with hlt hneg
    exact ⟨l, rfl, hneg⟩

/-- The length is cut where the array ends. -/
theorem sliceLength_some (l : List V) {start n : ℤ} (hstart : 0 ≤ start) (hle : start ≤ l.length)
    (h : sliceLength len (l.length - start) = some n) :
    start + n.toNat ≤ l.length ∧ (l.drop start.toNat).take n.toNat = Slice.cut l start len := by
  unfold sliceLength at h
  rcases len with _ | m
  · obtain rfl : (l.length : ℤ) - start = n := by simpa using h
    rw [Slice.cut_none, List.take_of_length_le (by simp; omega)]
    exact ⟨by omega, rfl⟩
  · simp only at h
    split_ifs at h with hlt hneg
    · obtain rfl : (l.length : ℤ) - start = n := by simpa using h
      rw [Slice.cut_some l hstart (by omega), List.take_of_length_le (by simp; omega),
        List.take_of_length_le (by simp; omega)]
      exact ⟨by omega, rfl⟩
    · obtain rfl : m = n := by simpa using h
      rw [Slice.cut_some l hstart (by omega)]
      exact ⟨by omega, rfl⟩

/-- More than nothing is asked for. -/
theorem sliceLength_pos {maxLen n : ℤ} (hmax : 0 < maxLen) (hlen : ¬ len.any (· ≤ 0))
    (h : sliceLength len maxLen = some n) : 0 < n := by
  unfold sliceLength at h
  rcases len with _ | m
  · obtain rfl : maxLen = n := by simpa using h
    exact hmax
  · have hm : 0 < m := by simpa using hlen
    simp only at h
    split_ifs at h with hlt hneg
    · obtain rfl : maxLen = n := by simpa using h
      exact hmax
    · obtain rfl : m = n := by simpa using h
      exact hm

/-- Nothing is asked for. -/
theorem sliceLength_nonpos {maxLen n m : ℤ} (hmax : 0 < maxLen) (hm : m ≤ 0)
    (h : sliceLength (some m) maxLen = some n) : n = 0 := by
  unfold sliceLength at h
  simp only at h
  split_ifs at h with hlt hneg
  · omega
  · obtain rfl : m = n := by simpa using h
    omega

/-- A new array of the elements asked for; only a start before the first of them raises. -/
def SliceMade (nil : V) (s : Store V) (self : ℕ) (pos : ℤ) (len : Option ℤ)
    (f : Script ε V ℕ) : Prop :=
  Makes nil f s (Slice.cut (YogArray.get nil s self).contents
      (Slice.start (YogArray.get nil s self).contents.length pos) len) ∨
    Slice.start (YogArray.get nil s self).contents.length pos < 0 ∧
      ∃ e : ArrayError, e.Raised ∧ f s = .done (.error (.array e))

theorem slice_made (hs : ∀ a ∈ s, a.Fits) (h : self < s.length) (pos : ℤ) (len : Option ℤ)
    (hwrap : ¬ Wraps (YogArray.get nil s self).contents.length pos len) :
    SliceMade nil s self pos len (slice (ε := ε) nil self pos len) := by
  have hempty : Makes nil (literal (ε := ε) nil []) s [] := makes_literal nil hs []
  have htaken := makes_taken (ε := ε) nil hs h
  have hraises := taken_raises (ε := ε) nil hs h
  have heq := slice_eq_taken (ε := ε) nil hs self pos len
  unfold SliceMade
  unfold Makes at hempty htaken ⊢
  rw [heq]
  generalize (YogArray.get nil s self).contents = l at *
  by_cases hpos : (l.length : ℤ) ≤ pos
  · have hstart : Slice.start l.length pos = pos := if_neg (by omega)
    rw [if_pos hpos, hstart, Slice.cut_of_length_le l hpos]
    exact .inl hempty
  rw [if_neg hpos]
  have hlt : Slice.start l.length pos < l.length := by
    unfold Slice.start
    split_ifs <;> omega
  rcases hn : sliceLength len (l.length - Slice.start l.length pos) with _ | n
  · obtain ⟨m, rfl, hm⟩ := sliceLength_none hn
    rw [Slice.cut_of_nonpos l _ (by omega)]
    exact .inl hempty
  rcases le_or_gt 0 (Slice.start l.length pos) with hstart | hstart
  · obtain ⟨hle, hcut⟩ := sliceLength_some l hstart (by omega) hn
    rw [← hcut]
    exact .inl (htaken _ _ (.inr ⟨hstart, hle⟩))
  by_cases hlen : len.any (· ≤ 0)
  · rcases len with _ | m
    · simp at hlen
    · have hm : m ≤ 0 := by simpa using hlen
      obtain rfl := sliceLength_nonpos (by omega) hm hn
      rw [Slice.cut_of_nonpos l _ hm]
      exact .inl (by simpa using htaken (Slice.start l.length pos) 0 (.inl rfl))
  · have hpositive := sliceLength_pos (by omega) hlen hn
    obtain ⟨k, hk⟩ : ∃ k : ℕ, n.toNat = k + 1 := ⟨n.toNat - 1, by omega⟩
    have hbefore : Slice.start l.length pos < -(l.length : ℤ) := by
      unfold Wraps at hwrap
      unfold Slice.start at hstart ⊢
      split_ifs at hstart ⊢ with hneg
      · by_contra hge
        exact hwrap ⟨by omega, by omega, hlen⟩
      · omega
    have hraised := hraises _ hbefore k
    rw [← hk] at hraised
    exact .inr ⟨hstart, hraised⟩

theorem subscript_subscripted {a : YogArray V} (ha : a.Fits) (pos : ℤ) :
    Subscripted ArrayError.Raised a.contents pos (fun _ v => v) (a.subscript (some pos)) := by
  unfold Subscripted
  rcases hi : Slice.index a.contents.length pos with _ | n
  · have hout := place_none ha ((place_eq_index _ _).trans hi)
    exact ⟨.indexError "Array index out of range" [], trivial, if_pos hout⟩
  · obtain ⟨v, hv, hat⟩ := subscript_ok ha ((place_eq_index _ _).trans hi)
    exact ⟨v, hat, hv⟩

/-- The elements after an assignment. -/
def assigned (a : YogArray V) (pos : ℤ) (v : V) : Except ArrayError (List V) :=
  (a.assign (some pos) v).1.map fun _ => (a.assign (some pos) v).2.contents

theorem assigned_subscripted {a : YogArray V} (ha : a.Fits) (pos : ℤ) (v : V) :
    Subscripted ArrayError.Raised a.contents pos (fun n _ => a.contents.set n v)
      (assigned a pos v) := by
  unfold Subscripted assigned
  rcases hi : Slice.index a.contents.length pos with _ | n
  · have hout := place_none ha ((place_eq_index _ _).trans hi)
    simp only [assign, if_pos hout]
    exact ⟨.indexError "Array assignment index (%d) out of range (%u)" [pos, a.size], trivial, rfl⟩
  · obtain ⟨a', h, -, hc⟩ := assign_ok ha v ((place_eq_index _ _).trans hi)
    obtain ⟨-, hlt⟩ := Slice.index_eq_some.1 hi
    rw [h]
    exact ⟨a.contents[n], by simp [hlt], congrArg Except.ok hc⟩

end ArrayScript

open YogString (Strays fromString) in
/-- Whatever the position, the length and the sequence. -/
theorem positions_denote {ε V : Type} (nil : V) {s : YogArray.Store V} (hs : ∀ a ∈ s, a.Fits)
    {self : ℕ} (h : self < s.length) (b : List UInt8) (t : List YogChar) (pos : ℤ)
    (len : Option ℤ) :
    ((¬ Binary.Overrun b pos len →
        Sliced b pos len (Binary.slice b (.fixnum pos) (len.map .fixnum))) ∧
      Subscripted ReadError.Raised b pos (fun _ c => c) (Binary.subscript b (.fixnum pos))) ∧
    (SlicedOrEmpty t pos len (YogString.sliceWithin t (.fixnum pos) len) ∧
      Subscripted ReadError.Raised t pos (fun _ c => [c])
        ((YogString.subscript t (.fixnum pos)).mapError .raised) ∧
      (∀ val : List YogChar, ∀ hne : val ≠ [],
        Subscripted ReadError.Raised t pos (fun n _ => t.set n (val.head hne))
          (YogString.assignSubscript t (.fixnum pos) (.string val))) ∧
      (¬ Strays t pos → Started t pos (YogString.engineStart t pos))) ∧
    (¬ ArrayScript.Wraps (YogArray.get nil s self).contents.length pos len →
        ArrayScript.SliceMade nil s self pos len (ArrayScript.slice (ε := ε) nil self pos len)) ∧
      Subscripted ArrayError.Raised (YogArray.get nil s self).contents pos (fun _ v => v)
        ((YogArray.get nil s self).subscript (some pos)) ∧
      ∀ v : V, Subscripted ArrayError.Raised (YogArray.get nil s self).contents pos
        (fun n _ => (YogArray.get nil s self).contents.set n v)
        (ArrayScript.assigned (YogArray.get nil s self) pos v) := by
  have hfits := YogArray.fits_get hs nil self
  refine ⟨⟨Binary.slice_sliced, Binary.subscript_subscripted b pos⟩,
    ⟨YogString.slice_sliced t pos len, YogString.subscript_subscripted t pos, ?_,
      YogString.engineStart_started⟩,
    ArrayScript.slice_made nil hs h pos len, ArrayScript.subscript_subscripted hfits pos,
    ArrayScript.assigned_subscripted hfits pos⟩
  intro val hne
  exact YogString.assign_subscripted t pos hne

/-- The three elements 1, 2 and 3, and the string `foo`. -/
theorem positions_denote_three :
    Sliced [1, 2, 3] 1 (some 1) (Binary.slice [1, 2, 3] (.fixnum 1) (some (.fixnum 1))) ∧
      Subscripted ReadError.Raised (YogString.fromString "foo") 1
        (fun n _ => (YogString.fromString "foo").set n 7)
        (YogString.assignSubscript (YogString.fromString "foo") (.fixnum 1) (.string [7])) ∧
      Started (YogString.fromString "foo") 1
        (YogString.engineStart (YogString.fromString "foo") 1) ∧
      ArrayScript.SliceMade 0 [⟨3, [1, 2, 3]⟩] 0 1 (some 1)
        (ArrayScript.slice (ε := Empty) 0 0 1 (some 1)) := by
  have hfits : ∀ a ∈ [(⟨3, [1, 2, 3]⟩ : YogArray ℕ)], a.Fits := by simp [YogArray.Fits]
  obtain ⟨⟨hbinary, -⟩, ⟨-, -, hassign, hstart⟩, harray, -⟩ :=
    positions_denote (ε := Empty) 0 hfits Nat.one_pos [1, 2, 3] (YogString.fromString "foo") 1
      (some 1)
  refine ⟨hbinary (by decide), hassign [7] (by simp), hstart ?_, harray (by decide)⟩
  unfold YogString.Strays
  decide

/-- A string has nothing before its first character, and a search from behind its last character
finds nothing; neither raises. -/
theorem not_sliced_foo :
    ¬ (Sliced (YogString.fromString "foo") (-4) none
      (YogString.sliceWithin (YogString.fromString "foo") (.fixnum (-4)) none)) ∧
    YogString.engineStart (YogString.fromString "foo") 4 = none := by
  refine ⟨?_, by decide⟩
  have hslice : YogString.sliceWithin (YogString.fromString "foo") (.fixnum (-4)) none =
      .ok [] := by decide
  rw [hslice]
  change ¬ [] = _
  decide

end Yog
