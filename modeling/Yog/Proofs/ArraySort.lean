import Yog.ArrayScript
import Yog.Proofs.Arrays
import Yog.Proofs.Comparison
import Mathlib.Data.List.Basic

/-!
# Sorting arrays

`slice`, `select` and `reduce` make new arrays and leave those there were (`Makes`). So `sort`,
which calls itself with what is not greater than the first element and with what is, ends with a new
array: the elements in order. It asks whether zero is less than what the comparison returns, which a
Fixnum does not answer about another number, so every pair that is compared has to give a Fixnum
(`sort_sorts_iff`).
-/

namespace Yog.ArrayScript

open YogArray Partial

variable {ε V : Type} (nil : V) {s s' s'' : Store V}

/-- The arrays there were are as they were. -/
structure Later (s s' : Store V) : Prop where
  kept : s <+: s'
  fits : ∀ a ∈ s', a.Fits

theorem Later.refl (h : ∀ a ∈ s, a.Fits) : Later s s := ⟨List.prefix_rfl, h⟩

theorem Later.trans (h : Later s s') (h' : Later s' s'') : Later s s'' :=
  ⟨h.kept.trans h'.kept, h'.fits⟩

variable {nil} in
theorem Later.get (h : Later s s') {r : ℕ} (hr : r < s.length) :
    YogArray.get nil s' r = YogArray.get nil s r := by
  obtain ⟨t, rfl⟩ := h.kept
  simp [YogArray.get, List.getD_eq_getElem?_getD, List.getElem?_append_left hr]

theorem Later.lt (h : Later s s') {r : ℕ} (hr : r < s.length) : r < s'.length :=
  hr.trans_le h.kept.length_le

/-- The computation ends with a new array of these elements. -/
def Makes (f : Script ε V ℕ) (s : Store V) (l : List V) : Prop :=
  ∃ r s', f s = done (.ok (r, s')) ∧ Later s s' ∧ r < s'.length ∧
    (YogArray.get nil s' r).contents = l

theorem bind_eq {α β : Type} {f : Script ε V α} {a : α} (h : f s = done (.ok (a, s')))
    (k : α → Script ε V β) : (f >>= k) s = k a s' := by
  change (f s >>= fun p => k p.1 p.2) = _
  rw [h]
  rfl

theorem exists_of_bind {α β : Type} {f : Script ε V α} {k : α → Script ε V β} {r : β × Store V}
    (h : (f >>= k) s = done (.ok r)) :
    ∃ a s', f s = done (.ok (a, s')) ∧ k a s' = done (.ok r) := by
  obtain ⟨⟨a, s'⟩, hf, hk⟩ | ⟨e, -, he⟩ := bind_eq_done.1 h
  · exact ⟨a, s', hf, hk⟩
  · cases he

variable {nil} in
theorem Makes.bind {f : Script ε V ℕ} {k : ℕ → Script ε V ℕ} {l l' : List V} (h : Makes nil f s l)
    (hk : ∀ r s', Later s s' → r < s'.length → (YogArray.get nil s' r).contents = l →
      Makes nil (k r) s' l') : Makes nil (f >>= k) s l' := by
  obtain ⟨r, s', hf, hlater, hr, hl⟩ := h
  obtain ⟨r', s'', hk, hlater', hr', hl'⟩ := hk r s' hlater hr hl
  exact ⟨r', s'', (bind_eq hf k).trans hk, hlater.trans hlater', hr', hl'⟩

variable {nil} in
theorem Makes.later {f : Script ε V ℕ} {l : List V} {r : ℕ} (h : Makes nil f s l)
    (hf : f s = done (.ok (r, s'))) : Later s s' := by
  obtain ⟨_, _, hdone, hlater, -⟩ := h
  rw [hf, done_inj] at hdone
  obtain ⟨rfl, rfl⟩ := Prod.mk.inj (Except.ok.inj hdone)
  exact hlater

theorem makes_create (hs : ∀ a ∈ s, a.Fits) {array : Store V → Except ArrayError (YogArray V)}
    {l : List V} (h : ∃ a, array s = .ok a ∧ a.Fits ∧ a.contents = l) :
    Makes nil (create (ε := ε) array) s l := by
  obtain ⟨a, ha, hfits, hl⟩ := h
  refine ⟨s.length, s ++ [a], ?_, ⟨List.prefix_append s [a], ?_⟩, by simp, ?_⟩
  · simp only [create, ha]
  · exact List.forall_mem_append.2 ⟨hs, by simpa using hfits⟩
  · simp [YogArray.get, List.getD_eq_getElem?_getD, hl]

theorem makes_literal (hs : ∀ a ∈ s, a.Fits) (vals : List V) :
    Makes nil (literal (ε := ε) nil vals) s vals :=
  makes_create nil hs (makeArray_ok nil vals)

theorem makes_plus (hs : ∀ a ∈ s, a.Fits) (r r' : ℕ) :
    Makes nil (plus (ε := ε) nil r r') s
      ((YogArray.get nil s r).contents ++ (YogArray.get nil s r').contents) := by
  apply makes_create nil hs
  obtain ⟨a, h, hf, hc⟩ := add_ok nil (a := new nil) (Nat.zero_le _) (fits_get hs nil r)
  obtain ⟨b, h', hf', hc'⟩ := add_ok nil hf (fits_get hs nil r')
  refine ⟨b, ?_, hf', ?_⟩
  · rw [h]
    exact h'
  · rw [hc', hc]
    rfl

theorem size_eq (hs : ∀ a ∈ s, a.Fits) (r : ℕ) : size (ε := ε) nil r s =
    done (.ok ((YogArray.get nil s r).contents.length, s)) := by
  rw [length_contents (fits_get hs nil r)]
  rfl

theorem subscript_eq (hs : ∀ a ∈ s, a.Fits) {r i : ℕ} {v : V}
    (h : (YogArray.get nil s r).contents[i]? = some v) :
    subscript (ε := ε) nil r i s = done (.ok (v, s)) := by
  have hlt : i < (YogArray.get nil s r).contents.length := (List.getElem?_eq_some_iff.1 h).1
  have hplace : place (YogArray.get nil s r).contents.length (i : Int) = some i := by
    unfold place
    simp only [Int.natCast_nonneg, if_true]
    rw [if_pos ⟨trivial, by omega⟩, Int.toNat_natCast]
  obtain ⟨v', hv', hc⟩ := subscript_ok (fits_get hs nil r) hplace
  rw [h] at hc
  cases hc
  simp only [subscript, hv']

theorem item_eq (hs : ∀ a ∈ s, a.Fits) {r i : ℕ} {v : V}
    (h : (YogArray.get nil s r).contents[i]? = some v) :
    item (ε := ε) nil r i s = done (.ok (v, s)) := by
  have hlt : i < (YogArray.get nil s r).size := by
    rw [← length_contents (fits_get hs nil r)]
    exact (List.getElem?_eq_some_iff.1 h).1
  have hbody : (YogArray.get nil s r).body[i]? = some v := by
    rw [contents, List.getElem?_take, if_pos hlt] at h
    exact h
  simp only [item, valArrayAt, hbody]

section Fill

variable {a : YogArray V} {self : ℕ}

theorem get_new (s : Store V) (a : YogArray V) : YogArray.get nil (s ++ [a]) s.length = a := by
  simp [YogArray.get, List.getD_eq_getElem?_getD]

theorem get_old (h : self < s.length) (a : YogArray V) :
    YogArray.get nil (s ++ [a]) self = YogArray.get nil s self := by
  simp [YogArray.get, List.getD_eq_getElem?_getD, List.getElem?_append_left h]

theorem push_new (ha : a.Fits) (v : V) :
    ∃ a', push (ε := ε) nil s.length v (s ++ [a]) = done (.ok ((), s ++ [a'])) ∧ a'.Fits ∧
      a'.contents = a.contents ++ [v] := by
  obtain ⟨a', h, hf, hc⟩ := push_ok nil ha v
  refine ⟨a', ?_, hf, hc⟩
  simp only [push, get_new, h]
  simp

theorem fits_append (hs : ∀ a ∈ s, a.Fits) (ha : a.Fits) : ∀ b ∈ s ++ [a], b.Fits :=
  List.forall_mem_append.2 ⟨hs, by simpa using ha⟩

/-- An array that is filled before anything else is done. -/
theorem makes_filled (hs : ∀ a ∈ s, a.Fits) {array : Store V → Except ArrayError (YogArray V)}
    (harray : ∃ a, array s = .ok a ∧ a.Fits ∧ a.contents = []) (loop : ℕ → Script ε V Unit)
    {l : List V} (hloop : ∀ a : YogArray V, a.Fits → ∃ a',
      loop s.length (s ++ [a]) = done (.ok ((), s ++ [a'])) ∧ a'.Fits ∧
        a'.contents = a.contents ++ l) :
    Makes nil (do
      let r ← create array
      loop r
      return r) s l := by
  obtain ⟨a, ha, hfits, hempty⟩ := harray
  obtain ⟨a', hfill, hfits', hl⟩ := hloop a hfits
  have hcreate : create (ε := ε) array s = done (.ok (s.length, s ++ [a])) := by
    simp only [create, ha]
  refine ⟨s.length, s ++ [a'], ?_, ⟨List.prefix_append s [a'], fits_append hs hfits'⟩, by simp, ?_⟩
  · rw [bind_eq hcreate, bind_eq hfill]
    rfl
  · rw [get_new, hl, hempty, List.nil_append]

/-- The loop of `slice` copies the elements from a position on. -/
theorem sliceLoop_eq (hs : ∀ a ∈ s, a.Fits) (h : self < s.length) (pos n i : ℕ) (ha : a.Fits)
    (hn : pos + i + n ≤ (YogArray.get nil s self).contents.length) :
    ∃ a', sliceLoop (ε := ε) nil self s.length pos n i (s ++ [a]) = done (.ok ((), s ++ [a'])) ∧
      a'.Fits ∧
      a'.contents = a.contents ++ ((YogArray.get nil s self).contents.drop (pos + i)).take n := by
  induction n generalizing i a with
  | zero => exact ⟨a, rfl, ha, by simp⟩
  | succ n ih =>
    have hlt : pos + i < (YogArray.get nil s self).contents.length := by omega
    have hv := List.getElem?_eq_getElem hlt
    have hsub := subscript_eq (ε := ε) nil (r := self) (fits_append hs ha)
      (by rwa [get_old nil h])
    obtain ⟨a₁, hpush, hf₁, hc₁⟩ := push_new (ε := ε) nil (s := s) ha
      (YogArray.get nil s self).contents[pos + i]
    obtain ⟨a', hrest, hf', hc'⟩ := ih (i := i + 1) hf₁ (by omega)
    refine ⟨a', ?_, hf', ?_⟩
    · rw [sliceLoop, show ((pos : Int) + (i : ℕ)) = ((pos + i : ℕ) : Int) by push_cast; rfl,
        bind_eq hsub, bind_eq hpush, hrest]
    · rw [hc', hc₁, List.drop_eq_getElem_cons hlt, List.take_succ_cons, List.append_assoc]
      rfl

/-- `slice` of a length that is not too long. -/
theorem makes_slice_length (hs : ∀ a ∈ s, a.Fits) (h : self < s.length) (pos n : ℕ)
    {len : Option Int}
    (hlen : sliceLength len (((YogArray.get nil s self).contents.length : Int) - pos) =
      some (n : Int))
    (hn : n ≤ (YogArray.get nil s self).contents.length - pos) :
    Makes nil (slice (ε := ε) nil self pos len) s
      (((YogArray.get nil s self).contents.drop pos).take n) := by
  have hsize := size_eq (ε := ε) nil hs self
  unfold slice Makes
  rw [bind_eq hsize]
  split_ifs with hpos hneg
  · rw [List.drop_eq_nil_of_le (by omega), List.take_nil]
    exact makes_literal nil hs []
  · omega
  · simp only [hlen]
    refine makes_filled nil hs (makeArray_ok nil []) _ fun a ha => ?_
    obtain ⟨a', hloop, hfits, hc⟩ := sliceLoop_eq (ε := ε) nil hs h pos n 0 ha (by omega)
    refine ⟨a', ?_, hfits, ?_⟩
    · rwa [Int.toNat_natCast]
    · rw [hc, Nat.add_zero]

theorem makes_slice (hs : ∀ a ∈ s, a.Fits) (h : self < s.length) (pos : ℕ) :
    Makes nil (slice (ε := ε) nil self pos none) s
      ((YogArray.get nil s self).contents.drop pos) := by
  rcases Nat.lt_or_ge pos (YogArray.get nil s self).contents.length with hpos | hpos
  · have hlen : sliceLength none (((YogArray.get nil s self).contents.length : Int) - pos) =
        some (((YogArray.get nil s self).contents.length - pos : ℕ) : Int) := by
      rw [sliceLength, Int.ofNat_sub hpos.le]
    have hslice := makes_slice_length (ε := ε) nil hs h pos _ hlen le_rfl
    rwa [List.take_of_length_le (by simp)] at hslice
  · unfold slice Makes
    rw [bind_eq (size_eq (ε := ε) nil hs self), if_pos (by omega), List.drop_eq_nil_of_le hpos]
    exact makes_literal nil hs []

/-- `reduce` folds the elements into an array. -/
theorem makes_reduce {block : ℕ → V → Script ε V ℕ} {f : List V → V → List V}
    (hblock : ∀ s r v, (∀ a ∈ s, a.Fits) → r < s.length →
      Makes nil (block r v) s (f (YogArray.get nil s r).contents v))
    (hs : ∀ a ∈ s, a.Fits) {init self : ℕ} (hinit : init < s.length) (h : self < s.length)
    {l l' : List V} (hl : (YogArray.get nil s self).contents = l)
    (hl' : (YogArray.get nil s init).contents = l') {fuel : ℕ} (hfuel : l.length < fuel) :
    Makes nil (reduce nil block fuel init self) s (l.foldl f l') := by
  induction fuel generalizing s init self l l' with
  | zero => omega
  | succ fuel ih =>
    have hsize := size_eq (ε := ε) nil hs self
    rw [hl] at hsize
    unfold reduce Makes
    rw [bind_eq hsize]
    rcases l with _ | ⟨v, rest⟩
    · exact ⟨init, s, rfl, Later.refl hs, hinit, hl'⟩
    · rw [if_neg (by simp), List.foldl_cons]
      refine Makes.bind (makes_slice nil hs h 1) fun r s₁ hs₁ hr hrest => ?_
      rw [hl, List.drop_one, List.tail_cons] at hrest
      have hhead : subscript (ε := ε) nil self 0 s₁ = done (.ok (v, s₁)) :=
        subscript_eq nil (i := 0) hs₁.fits (by simp [hs₁.get h, hl])
      unfold Makes
      rw [bind_eq hhead]
      refine Makes.bind (hblock s₁ init v hs₁.fits (hs₁.lt hinit)) fun b s₂ hs₂ hb hcb => ?_
      rw [hs₁.get hinit, hl'] at hcb
      exact ih hs₂.fits hb (hs₂.lt hr) (by rw [hs₂.get hr, hrest]) hcb (by simpa using hfuel)

/-- The loop of `select` copies the elements the block takes. -/
theorem selectLoop_eq (hs : ∀ a ∈ s, a.Fits) (h : self < s.length)
    {block : V → Except (ScriptError ε) Bool}
    {p : V → Bool} (hblock : ∀ v ∈ (YogArray.get nil s self).contents, block v = .ok (p v))
    (n i : ℕ) (ha : a.Fits) (hn : i + n = (YogArray.get nil s self).contents.length) :
    ∃ a', selectLoop nil self s.length block n i (s ++ [a]) = done (.ok ((), s ++ [a'])) ∧
      a'.Fits ∧
      a'.contents = a.contents ++ ((YogArray.get nil s self).contents.drop i).filter p := by
  induction n generalizing i a with
  | zero => exact ⟨a, rfl, ha, by rw [List.drop_eq_nil_of_le (by omega)]; simp⟩
  | succ n ih =>
    have hlt : i < (YogArray.get nil s self).contents.length := by omega
    have hv := List.getElem?_eq_getElem hlt
    have hitem := item_eq (ε := ε) nil (r := self) (fits_append hs ha)
      (by rwa [get_old nil h])
    have hcall : call (V := V) (block (YogArray.get nil s self).contents[i]) (s ++ [a]) =
        done (.ok (p (YogArray.get nil s self).contents[i], s ++ [a])) := by
      rw [hblock _ (List.getElem_mem hlt)]
      rfl
    rw [selectLoop, bind_eq hitem, bind_eq hcall, List.drop_eq_getElem_cons hlt, List.filter_cons]
    split_ifs
    · obtain ⟨a₁, hpush, hf₁, hc₁⟩ := push_new (ε := ε) nil (s := s) ha
        (YogArray.get nil s self).contents[i]
      obtain ⟨a', hrest, hf', hc'⟩ := ih (i := i + 1) hf₁ (by omega)
      exact ⟨a', (bind_eq hpush _).trans hrest, hf', by simp [hc', hc₁]⟩
    · exact ih (i := i + 1) ha (by omega)

theorem makes_select (hs : ∀ a ∈ s, a.Fits) (h : self < s.length)
    {block : V → Except (ScriptError ε) Bool}
    {p : V → Bool} (hblock : ∀ v ∈ (YogArray.get nil s self).contents, block v = .ok (p v)) :
    Makes nil (select nil self block) s ((YogArray.get nil s self).contents.filter p) := by
  have hnew : ∃ a, (.ok (ofSize nil 0) : Except ArrayError _) = .ok a ∧ a.Fits ∧ a.contents = [] :=
    ⟨_, rfl, Nat.zero_le _, by simp [contents, ofSize]⟩
  refine makes_filled nil hs hnew
    (fun a => do selectLoop nil self a block (← size nil self) 0) fun a ha => ?_
  obtain ⟨a', hloop, hfits, hc⟩ := selectLoop_eq nil hs h hblock
    (YogArray.get nil s self).contents.length 0 ha (by omega)
  refine ⟨a', ?_, hfits, by simpa using hc⟩
  rw [bind_eq (size_eq nil (fits_append hs ha) self), get_old nil h]
  exact hloop

/-- The loop of `select` goes on only where the block returns. -/
theorem exists_of_selectLoop (hs : ∀ a ∈ s, a.Fits) (h : self < s.length)
    {block : V → Except (ScriptError ε) Bool} (n i : ℕ) (ha : a.Fits)
    (hn : i + n = (YogArray.get nil s self).contents.length) {r : Unit × Store V}
    (hloop : selectLoop nil self s.length block n i (s ++ [a]) = done (.ok r)) :
    ∀ v ∈ (YogArray.get nil s self).contents.drop i, ∃ b, block v = .ok b := by
  induction n generalizing i a with
  | zero =>
    rw [List.drop_eq_nil_of_le (by omega)]
    simp
  | succ n ih =>
    have hlt : i < (YogArray.get nil s self).contents.length := by omega
    have hitem := item_eq (ε := ε) nil (r := self) (fits_append hs ha)
      (by rw [get_old nil h]; exact List.getElem?_eq_getElem hlt)
    rw [selectLoop, bind_eq hitem] at hloop
    rcases hb : block (YogArray.get nil s self).contents[i] with e | b
    · rw [hb] at hloop
      cases hloop
    · rw [hb, bind_eq (show call (V := V) (.ok b) (s ++ [a]) = done (.ok (b, s ++ [a])) from rfl)]
        at hloop
      rw [List.drop_eq_getElem_cons hlt, List.forall_mem_cons]
      refine ⟨⟨b, hb⟩, ?_⟩
      cases b
      · exact ih (i + 1) ha (by omega) hloop
      · obtain ⟨a₁, hpush, hf₁, -⟩ := push_new (ε := ε) nil (s := s) ha
          (YogArray.get nil s self).contents[i]
        rw [if_pos rfl, bind_eq hpush] at hloop
        exact ih (i + 1) hf₁ (by omega) hloop

theorem exists_of_select (hs : ∀ a ∈ s, a.Fits) (h : self < s.length)
    {block : V → Except (ScriptError ε) Bool} {r : ℕ × Store V}
    (hselect : select nil self block s = done (.ok r)) :
    ∀ v ∈ (YogArray.get nil s self).contents, ∃ b, block v = .ok b := by
  have hfits : (ofSize nil 0).Fits := Nat.zero_le _
  have hcreate : newArray (ε := ε) nil s = done (.ok (s.length, s ++ [ofSize nil 0])) := rfl
  unfold select at hselect
  rw [bind_eq hcreate, bind_eq (size_eq nil (fits_append hs hfits) self), get_old nil h] at hselect
  obtain ⟨⟨⟩, s', hloop, -⟩ := exists_of_bind hselect
  exact exists_of_selectLoop nil hs h _ 0 hfits (by omega) hloop

end Fill

def Number.IsFixnum : Number → Prop
  | integer n => n.IsFixnum
  | float _ => False

section Answers

variable {n : Number}

theorem atMostZero_eq (h : n.IsFixnum) : n.atMostZero = .ok (decide (n.side ≠ .gt)) := by
  rcases n with (n | _) | _
  · have hle := (Integer.instructions_of_ufo (a := .fixnum n) (b := .fixnum (int2val 0))
      (n.ufo_eq (int2val 0))).2.1
    refine hle.trans (congrArg Except.ok (decide_eq_decide.2 ?_))
    exact compare_le_iff_le.symm
  · cases h
  · cases h

theorem aboveZero_eq (h : n.IsFixnum) : n.aboveZero = .ok (decide (n.side = .gt)) := by
  rcases n with (n | _) | _
  · have hlt := (Integer.instructions_of_ufo (a := .fixnum (int2val 0)) (b := .fixnum n)
      ((int2val 0).ufo_eq n)).1
    refine hlt.trans (congrArg Except.ok (decide_eq_decide.2 ?_))
    exact compare_gt_iff_gt.symm
  · cases h
  · cases h

/-- Zero is not compared with what is no Fixnum. -/
theorem isFixnum_of_aboveZero {b : Bool} (h : n.aboveZero = .ok b) : n.IsFixnum := by
  rcases n with (_ | x) | side
  · trivial
  · cases h
  · cases h

end Answers

theorem isFixnum_of_ask {r : Except ε Number} {b : Bool} (h : ask Number.aboveZero r = .ok b) :
    ∃ n, r = .ok n ∧ n.IsFixnum := by
  rcases r with e | n
  · cases h
  · refine ⟨n, rfl, ?_⟩
    rcases hn : n.aboveZero with e | b'
    · simp only [ask, hn] at h
      cases h
    · exact isFixnum_of_aboveZero hn

/-- Of these elements, the block orders any two, and the order is a total preorder. -/
structure Orders (block : V → V → Except ε Number) (l : List V) (le : V → V → Prop) : Prop where
  returns : ∀ x ∈ l, ∀ y ∈ l, ∃ n, block x y = .ok n ∧ (n.side ≠ .gt ↔ le x y)
  total : ∀ x ∈ l, ∀ y ∈ l, le x y ∨ le y x
  trans : ∀ x ∈ l, ∀ y ∈ l, ∀ z ∈ l, le x y → le y z → le x z

theorem Orders.mono {block : V → V → Except ε Number} {l l' : List V} {le : V → V → Prop}
    (h : Orders block l le) (hl : ∀ x ∈ l', x ∈ l) : Orders block l' le where
  returns x hx y hy := h.returns x (hl x hx) y (hl y hy)
  total x hx y hy := h.total x (hl x hx) y (hl y hy)
  trans x hx y hy z hz := h.trans x (hl x hx) y (hl y hy) z (hl z hz)

section Quicksort

variable (le : V → V → Prop) [DecidableRel le]

/-- What is not greater than an element. -/
def upTo (v : V) (l : List V) : List V := l.filter fun x => le x v

/-- What is greater than an element. -/
def above (v : V) (l : List V) : List V := l.filter fun x => ¬le x v

theorem length_upTo_le (v : V) (l : List V) : (upTo le v l).length ≤ l.length :=
  l.length_filter_le _

theorem length_above_le (v : V) (l : List V) : (above le v l).length ≤ l.length :=
  l.length_filter_le _

/-- The sorted list: what is not greater than the first element, then it, then what is. -/
def quicksort : List V → List V
  | [] => []
  | v :: rest => quicksort (upTo le v rest) ++ [v] ++ quicksort (above le v rest)
  termination_by l => l.length
  decreasing_by
    · exact Nat.lt_succ_of_le (length_upTo_le le v rest)
    · exact Nat.lt_succ_of_le (length_above_le le v rest)

theorem quicksort_perm (l : List V) : (quicksort le l).Perm l := by
  induction l using quicksort.induct le with
  | case1 => rw [quicksort]
  | case2 v rest ih ih' =>
    rw [quicksort]
    have hparts : (upTo le v rest ++ above le v rest).Perm rest := by
      simpa [upTo, above] using List.filter_append_perm (fun x => le x v) rest
    have hmiddle : (upTo le v rest ++ [v] ++ above le v rest).Perm
        (v :: (upTo le v rest ++ above le v rest)) := by
      rw [List.append_assoc]
      exact List.perm_middle
    exact ((ih.append_right [v]).append ih').trans (hmiddle.trans (hparts.cons v))

variable {le}

theorem quicksort_pairwise {block : V → V → Except ε Number} {l : List V} (h : Orders block l le) :
    (quicksort le l).Pairwise le := by
  induction l using quicksort.induct le with
  | case1 => simp [quicksort]
  | case2 v rest ih ih' =>
    have hleft : ∀ x ∈ quicksort le (upTo le v rest), x ∈ rest ∧ le x v := by
      intro x hx
      simpa [upTo] using (quicksort_perm le _).mem_iff.1 hx
    have hright : ∀ x ∈ quicksort le (above le v rest), x ∈ rest ∧ ¬le x v := by
      intro x hx
      simpa [above] using (quicksort_perm le _).mem_iff.1 hx
    have habove : ∀ x ∈ quicksort le (above le v rest), le v x := fun x hx =>
      (h.total v (by simp) x (by simp [(hright x hx).1])).resolve_right (hright x hx).2
    rw [quicksort, List.pairwise_append, List.pairwise_append]
    refine ⟨⟨ih (h.mono fun x hx => ?_), by simp, fun x hx y hy => ?_⟩,
      ih' (h.mono fun x hx => ?_), fun x hx y hy => ?_⟩
    · simp [(List.mem_filter.1 hx).1]
    · rw [List.mem_singleton.1 hy]
      exact (hleft x hx).2
    · simp [(List.mem_filter.1 hx).1]
    · rcases List.mem_append.1 hx with hx | hx
      · exact h.trans x (by simp [(hleft x hx).1]) v (by simp) y (by simp [(hright y hy).1])
          (hleft x hx).2 (habove y hy)
      · rw [List.mem_singleton.1 hx]
        exact habove y hy

end Quicksort

section Compared

/-- No element before both is between the two. -/
def SameSide (le : V → V → Prop) (before : List V) (x y : V) : Prop := ∀ z ∈ before, le x z ↔ le y z

/-- The block makes a Fixnum of an element and one that stands before it, if no element that stands
before both is between them. -/
def MakesFixnums (block : V → V → Except ε Number) (le : V → V → Prop) : List V → List V → Prop
  | _, [] => True
  | before, y :: l => (∀ x ∈ l, SameSide le before x y → ∃ n, block x y = .ok n ∧ n.IsFixnum) ∧
    MakesFixnums block le (before ++ [y]) l

variable {block : V → V → Except ε Number} {le : V → V → Prop} [DecidableRel le]

section Split

variable {L before l : List V} {v x y : V} (h : Orders block L le) (hv : v ∈ L)
  (hb : ∀ z ∈ before, z ∈ L)

include h hv hb

/-- Nothing above an element comes between two that are not. -/
theorem sameSide_upTo (hx : x ∈ L) (hy : y ∈ L) (hle : le y v) :
    SameSide le (v :: before) x y ↔ le x v ∧ SameSide le (upTo le v before) x y := by
  unfold SameSide upTo
  simp only [List.forall_mem_cons, hle, iff_true, List.mem_filter, decide_eq_true_eq]
  refine and_congr_right fun hxv => ⟨fun hs z hz => hs z hz.1, fun hs z hz => ?_⟩
  by_cases hzv : le z v
  · exact hs z ⟨hz, hzv⟩
  · have hvz := (h.total v hv z (hb z hz)).resolve_right hzv
    exact iff_of_true (h.trans x hx v hv z (hb z hz) hxv hvz)
      (h.trans y hy v hv z (hb z hz) hle hvz)

/-- Nothing up to an element comes between two that are above it. -/
theorem sameSide_above (hx : x ∈ L) (hy : y ∈ L) (hle : ¬le y v) :
    SameSide le (v :: before) x y ↔ ¬le x v ∧ SameSide le (above le v before) x y := by
  unfold SameSide above
  simp only [List.forall_mem_cons, hle, iff_false, List.mem_filter, decide_eq_true_eq]
  refine and_congr_right fun hxv => ⟨fun hs z hz => hs z hz.1, fun hs z hz => ?_⟩
  by_cases hzv : le z v
  · exact iff_of_false (fun hxz => hxv (h.trans x hx z (hb z hz) v hv hxz hzv))
      fun hyz => hle (h.trans y hy z (hb z hz) v hv hyz hzv)
  · exact hs z ⟨hz, hzv⟩

/-- The pairs that are to make Fixnums are those up to an element and those above it. -/
theorem makesFixnums_split (hl : ∀ z ∈ l, z ∈ L) : MakesFixnums block le (v :: before) l ↔
    MakesFixnums block le (upTo le v before) (upTo le v l) ∧
      MakesFixnums block le (above le v before) (above le v l) := by
  induction l generalizing before with
  | nil => exact ⟨fun _ => ⟨trivial, trivial⟩, fun _ => trivial⟩
  | cons y l ih =>
    have hy := hl y List.mem_cons_self
    have hl' : ∀ z ∈ l, z ∈ L := fun z hz => hl z (List.mem_cons_of_mem y hz)
    have hrest := @ih (before ++ [y])
      (List.forall_mem_append.2 ⟨hb, List.forall_mem_singleton.2 hy⟩) hl'
    rw [MakesFixnums, List.cons_append, hrest]
    by_cases hle : le y v
    · have hup : ∀ k, upTo le v (k ++ [y]) = upTo le v k ++ [y] := by simp [upTo, hle]
      have hab : ∀ k, above le v (k ++ [y]) = above le v k := by simp [above, hle]
      have hy' : upTo le v (y :: l) = y :: upTo le v l := by simp [upTo, hle]
      have hy'' : above le v (y :: l) = above le v l := by simp [above, hle]
      rw [hup, hab, hy', hy'', MakesFixnums, ← and_assoc]
      refine and_congr_left' (and_congr_left' (forall_congr' fun x => ?_))
      simp only [upTo, List.mem_filter, decide_eq_true_eq, and_imp]
      refine forall_congr' fun hx => ?_
      rw [sameSide_upTo h hv hb (hl' x hx) hy hle, and_imp]
      rfl
    · have hup : ∀ k, upTo le v (k ++ [y]) = upTo le v k := by simp [upTo, hle]
      have hab : ∀ k, above le v (k ++ [y]) = above le v k ++ [y] := by simp [above, hle]
      have hy' : upTo le v (y :: l) = upTo le v l := by simp [upTo, hle]
      have hy'' : above le v (y :: l) = y :: above le v l := by simp [above, hle]
      rw [hup, hab, hy', hy'', MakesFixnums, and_left_comm]
      refine and_congr_right' (and_congr_left' (forall_congr' fun x => ?_))
      simp only [above, List.mem_filter, decide_eq_true_eq, and_imp]
      refine forall_congr' fun hx => ?_
      rw [sameSide_above h hv hb (hl' x hx) hy hle, and_imp]
      rfl

end Split

theorem makesFixnums_cons {v : V} {rest : List V} (h : Orders block (v :: rest) le) :
    MakesFixnums block le [] (v :: rest) ↔ (∀ x ∈ rest, ∃ n, block x v = .ok n ∧ n.IsFixnum) ∧
      MakesFixnums block le [] (upTo le v rest) ∧ MakesFixnums block le [] (above le v rest) := by
  have hall : ∀ x, SameSide le [] x v := fun x z hz => by cases hz
  rw [MakesFixnums, List.nil_append, makesFixnums_split h List.mem_cons_self (by simp)
    fun z hz => List.mem_cons_of_mem v hz]
  simp only [hall, true_imp_iff]
  rfl

end Compared

/-- What the two blocks of `sort` return of a comparison that returns a Fixnum. -/
theorem ask_of_isFixnum {block : V → V → Except ε Number} {le : V → V → Prop} [DecidableRel le]
    {l : List V} (h : Orders block l le) {x v : V} (hx : x ∈ l) (hv : v ∈ l)
    (hf : ∃ n, block x v = .ok n ∧ n.IsFixnum) :
    ask Number.atMostZero (block x v) = .ok (decide (le x v)) ∧
      ask Number.aboveZero (block x v) = .ok (decide ¬le x v) := by
  obtain ⟨n, hn, hfix⟩ := hf
  obtain ⟨m, hm, hle⟩ := h.returns x hx v hv
  rw [hn] at hm
  obtain rfl := Except.ok.inj hm
  rw [hn]
  constructor
  · refine (congrArg (Except.mapError _) (atMostZero_eq hfix)).trans (congrArg Except.ok ?_)
    exact decide_eq_decide.2 hle
  · refine (congrArg (Except.mapError _) (aboveZero_eq hfix)).trans (congrArg Except.ok ?_)
    exact decide_eq_decide.2 (by rw [← hle, not_not])

section Sorting

variable (ufo : V → V → Except ε Number) {block : V → V → Except ε Number} {le : V → V → Prop}
  [DecidableRel le]

/-- What a level of `sort` does before it calls itself: the two parts of what stands behind the
first element. -/
theorem exists_parts (hs : ∀ a ∈ s, a.Fits) {self : ℕ} (h : self < s.length) {v : V}
    {rest : List V} (hl : (YogArray.get nil s self).contents = v :: rest)
    (hblock : Orders block (v :: rest) le) (fuel : ℕ)
    (hfix : ∀ x ∈ rest, ∃ n, block x v = .ok n ∧ n.IsFixnum) :
    ∃ a b s', Later s s' ∧ a < s'.length ∧ b < s'.length ∧
      (YogArray.get nil s' a).contents = upTo le v rest ∧
      (YogArray.get nil s' b).contents = above le v rest ∧
      sort nil ufo (some block) (fuel + 1) self s = (do
        let sorted ← sort nil ufo (some block) fuel a
        let head ← plus nil sorted (← literal nil [v])
        plus nil head (← sort nil ufo (some block) fuel b)) s' := by
  have hsize := size_eq (ε := ε) nil hs self
  rw [hl] at hsize
  have hpivot : subscript (ε := ε) nil self 0 s = done (.ok (v, s)) :=
    subscript_eq nil (i := 0) hs (by simp [hl])
  have hask : ∀ x ∈ rest, _ := fun x hx =>
    ask_of_isFixnum hblock (List.mem_cons_of_mem v hx) List.mem_cons_self (hfix x hx)
  obtain ⟨r, s₁, hslice, hs₁, hr, hrest⟩ := makes_slice (ε := ε) nil hs h 1
  rw [hl, List.drop_one, List.tail_cons] at hrest
  have hslice' : slice nil self 1 none s = done (.ok (r, s₁)) := hslice
  obtain ⟨a, s₂, hselect, hs₂, ha, hca⟩ := makes_select nil hs₁.fits hr
    fun x hx => (hask x (hrest ▸ hx)).1
  obtain ⟨b, s₃, hselect', hs₃, hb, hcb⟩ := makes_select nil hs₂.fits (hs₂.lt hr)
    fun x hx => (hask x (by rwa [hs₂.get hr, hrest] at hx)).2
  refine ⟨a, b, s₃, (hs₁.trans hs₂).trans hs₃, hs₃.lt ha, hb, ?_, ?_, ?_⟩
  · rw [hs₃.get ha, hca, hrest]
    rfl
  · rw [hcb, hs₂.get hr, hrest]
    rfl
  · rw [sort, bind_eq hsize, if_neg (by simp), bind_eq hpivot, bind_eq hslice', bind_eq hselect,
      bind_eq hselect']

/-- With fuel for every element the array is sorted into a new one. -/
theorem makes_sort (hs : ∀ a ∈ s, a.Fits) {self : ℕ} (h : self < s.length) {l : List V}
    (hl : (YogArray.get nil s self).contents = l) (hblock : Orders block l le)
    (hfix : MakesFixnums block le [] l) {fuel : ℕ} (hfuel : l.length < fuel) :
    Makes nil (sort nil ufo (some block) fuel self) s (quicksort le l) := by
  induction fuel generalizing self s l with
  | zero => omega
  | succ fuel ih =>
    rcases l with _ | ⟨v, rest⟩
    · have hsize := size_eq (ε := ε) nil hs self
      rw [hl] at hsize
      unfold sort Makes
      rw [bind_eq hsize, quicksort]
      exact makes_literal nil hs []
    · rw [makesFixnums_cons hblock] at hfix
      obtain ⟨hpivot, hleft, hright⟩ := hfix
      obtain ⟨a, b, s₃, hs₃, ha, hb, hca, hcb, heq⟩ :=
        exists_parts nil ufo hs h hl hblock fuel hpivot
      have hmono : ∀ p : V → Bool, Orders block (rest.filter p) le := fun p =>
        hblock.mono fun x hx => by simp [(List.mem_filter.1 hx).1]
      have hlen : ∀ p : V → Bool, (rest.filter p).length < fuel := fun p =>
        (rest.length_filter_le p).trans_lt (by simpa using hfuel)
      suffices Makes nil _ s₃ (quicksort le (v :: rest)) by
        obtain ⟨r, s', hrun, hlater, hr⟩ := this
        exact ⟨r, s', heq.trans hrun, hs₃.trans hlater, hr⟩
      rw [quicksort]
      refine Makes.bind (ih hs₃.fits ha hca (hmono _) hleft (hlen _))
        fun sorted s₄ hs₄ hsorted hcsorted => ?_
      refine Makes.bind (makes_literal nil hs₄.fits [v]) fun one s₅ hs₅ hone hcone => ?_
      refine Makes.bind (makes_plus nil hs₅.fits sorted one) fun head s₆ hs₆ hhead hchead => ?_
      rw [hs₅.get hsorted, hcsorted, hcone] at hchead
      have hlater := (hs₄.trans hs₅).trans hs₆
      refine Makes.bind (ih hs₆.fits (hlater.lt hb) (by rw [hlater.get hb]; exact hcb) (hmono _)
        hright (hlen _)) fun sorted' s₇ hs₇ hsorted' hcsorted' => ?_
      have hwhole := makes_plus (ε := ε) nil hs₇.fits head sorted'
      rwa [hs₇.get hhead, hchead, hcsorted'] at hwhole

/-- The second `select` of `sort` returns only if every comparison with the first element gives a
Fixnum. -/
theorem isFixnum_of_sort (hs : ∀ a ∈ s, a.Fits) {self : ℕ} (h : self < s.length) {v : V}
    {rest : List V} (hl : (YogArray.get nil s self).contents = v :: rest) {fuel : ℕ}
    {r : ℕ × Store V} (hrun : sort nil ufo (some block) (fuel + 1) self s = done (.ok r)) :
    ∀ x ∈ rest, ∃ n, block x v = .ok n ∧ n.IsFixnum := by
  classical
  have hsize := size_eq (ε := ε) nil hs self
  rw [hl] at hsize
  have hpivot : subscript (ε := ε) nil self 0 s = done (.ok (v, s)) :=
    subscript_eq nil (i := 0) hs (by simp [hl])
  obtain ⟨k, s₁, hslice, hs₁, hk, hrest⟩ := makes_slice (ε := ε) nil hs h 1
  have hslice' : slice nil self 1 none s = done (.ok (k, s₁)) := hslice
  rw [hl, List.drop_one, List.tail_cons] at hrest
  rw [sort, bind_eq hsize, if_neg (by simp), bind_eq hpivot, bind_eq hslice'] at hrun
  obtain ⟨a, s₂, hselect, hrun⟩ := exists_of_bind hrun
  have hreturns := exists_of_select nil hs₁.fits hk hselect
  have hblock : ∀ x ∈ (YogArray.get nil s₁ k).contents, ask Number.atMostZero (block x v) =
      .ok (decide (ask Number.atMostZero (block x v) = .ok true)) := fun x hx => by
    obtain ⟨_ | _, hb⟩ := hreturns x hx <;> simp [hb]
  have hmakes := makes_select nil hs₁.fits hk hblock
  have hs₂ := hmakes.later hselect
  obtain ⟨b, s₃, hselect', -⟩ := exists_of_bind hrun
  intro x hx
  obtain ⟨c, hc⟩ := exists_of_select nil hs₂.fits (hs₂.lt hk) hselect' x
    (by rwa [hs₂.get hk, hrest])
  exact isFixnum_of_ask hc

/-- `sort` returns only if every pair it compares gives a Fixnum. -/
theorem makesFixnums_of_sort (hs : ∀ a ∈ s, a.Fits) {self : ℕ} (h : self < s.length) {l : List V}
    (hl : (YogArray.get nil s self).contents = l) (hblock : Orders block l le) {fuel r : ℕ}
    (hrun : sort nil ufo (some block) fuel self s = done (.ok (r, s'))) :
    MakesFixnums block le [] l ∧ Later s s' := by
  induction fuel generalizing self s s' l r with
  | zero => cases hrun
  | succ fuel ih =>
    rcases l with _ | ⟨v, rest⟩
    · have hsize := size_eq (ε := ε) nil hs self
      rw [hl] at hsize
      unfold sort at hrun
      rw [bind_eq hsize] at hrun
      exact ⟨trivial, (makes_literal nil hs []).later hrun⟩
    · have hpivot := isFixnum_of_sort nil ufo hs h hl hrun
      obtain ⟨a, b, s₃, hs₃, ha, hb, hca, hcb, heq⟩ :=
        exists_parts nil ufo hs h hl hblock fuel hpivot
      have hmono : ∀ p : V → Bool, Orders block (rest.filter p) le := fun p =>
        hblock.mono fun x hx => by simp [(List.mem_filter.1 hx).1]
      rw [heq] at hrun
      obtain ⟨sorted, s₄, hleft, hrun⟩ := exists_of_bind hrun
      obtain ⟨hfix, hs₄⟩ := ih hs₃.fits ha hca (hmono _) hleft
      obtain ⟨one, s₅, hone, hs₅, -⟩ := makes_literal (ε := ε) nil hs₄.fits [v]
      obtain ⟨head, s₆, hhead, hs₆, -⟩ := makes_plus (ε := ε) nil hs₅.fits sorted one
      have hlater := (hs₄.trans hs₅).trans hs₆
      rw [bind_eq hone, bind_eq hhead] at hrun
      obtain ⟨sorted', s₇, hright, hrun⟩ := exists_of_bind hrun
      obtain ⟨hfix', hs₇⟩ := ih hs₆.fits (hlater.lt hb) (by rw [hlater.get hb]; exact hcb) (hmono _)
        hright
      have hs' := (makes_plus (ε := ε) nil hs₇.fits head sorted').later hrun
      exact ⟨(makesFixnums_cons hblock).2 ⟨hpivot, hfix, hfix'⟩,
        ((hs₃.trans hlater).trans hs₇).trans hs'⟩

end Sorting

/-- Elements in an order of a block, or of `<=>` if there is none, are sorted into a new array, and
all arrays that there are stay as they are, if and only if the pairs that are compared give Fixnums;
and without a block the outcome is the one with `<=>` as the block, whatever that is. -/
theorem sort_sorts_iff (ufo : V → V → Except ε Number) (hs : ∀ a ∈ s, a.Fits) {self : ℕ}
    (h : self < s.length) :
    (∀ (block : Option (V → V → Except ε Number)) (le : V → V → Prop),
      Orders (block.getD ufo) (YogArray.get nil s self).contents le →
        ((∃ r s', Partial.Ends (fun fuel => sort nil ufo block fuel self s) (.ok (r, s')) ∧
            s <+: s' ∧
            (YogArray.get nil s' r).contents.Perm (YogArray.get nil s self).contents ∧
            (YogArray.get nil s' r).contents.Pairwise le) ↔
          MakesFixnums (block.getD ufo) le [] (YogArray.get nil s self).contents)) ∧
    ∀ r, Partial.Ends (fun fuel => sort nil ufo none fuel self s) r ↔
      Partial.Ends (fun fuel => sort nil ufo (some ufo) fuel self s) r := by
  have hnone : ∀ r, Partial.Ends (fun fuel => sort nil ufo none fuel self s) r ↔
      Partial.Ends (fun fuel => sort nil ufo (some ufo) fuel self s) r := by
    intro r
    constructor
    · rintro ⟨_ | fuel, hr⟩
      · cases hr
      · exact ⟨fuel, hr⟩
    · rintro ⟨fuel, hr⟩
      exact ⟨fuel + 1, hr⟩
  refine ⟨fun block le hblock => ?_, hnone⟩
  classical
  have hends : ∀ r, Partial.Ends (fun fuel => sort nil ufo block fuel self s) r ↔
      Partial.Ends (fun fuel => sort nil ufo (some (block.getD ufo)) fuel self s) r := by
    rcases block with _ | block
    · exact hnone
    · exact fun r => Iff.rfl
  simp only [hends]
  constructor
  · rintro ⟨r, s', ⟨fuel, hrun⟩, -⟩
    exact (makesFixnums_of_sort nil ufo hs h rfl hblock hrun).1
  · intro hfix
    obtain ⟨r, s', hsort, hlater, -, hc⟩ :=
      makes_sort nil ufo hs h rfl hblock hfix (Nat.lt_succ_self _)
    refine ⟨r, s', ⟨_, hsort⟩, hlater.kept, ?_, ?_⟩
    · rw [hc]
      exact quicksort_perm le _
    · rw [hc]
      exact quicksort_pairwise hblock

section Difference

/-- `do |x, y| next x - y end` -/
def difference (x y : Integer) : Except Empty Number := .ok (.integer (x.subtract y))

def word (n : Int) : Integer := .ofInt n

/-- `[2, 0, 1].sort() do |x, y| next x - y end` -/
theorem sort_sorts_three : ∃ r s',
    Partial.Ends (fun fuel => sort (word 0) difference (some difference) fuel 0
      [⟨3, [word 2, word 0, word 1]⟩]) (.ok (r, s')) ∧
    [⟨3, [word 2, word 0, word 1]⟩] <+: s' ∧
    (YogArray.get (word 0) s' r).contents.Perm [word 2, word 0, word 1] ∧
    (YogArray.get (word 0) s' r).contents.Pairwise (·.toInt ≤ ·.toInt) := by
  have hfits : ∀ a ∈ [(⟨3, [word 2, word 0, word 1]⟩ : YogArray Integer)], a.Fits := by
    simp [YogArray.Fits]
  have hreturns : ∀ x ∈ [word 2, word 0, word 1], ∀ y ∈ [word 2, word 0, word 1],
      (x.subtract y).IsFixnum ∧ (compare (x.subtract y).toInt 0 ≠ .gt ↔ x.toInt ≤ y.toInt) := by
    decide
  have horders : Orders difference [word 2, word 0, word 1] (·.toInt ≤ ·.toInt) :=
    ⟨fun x hx y hy => ⟨_, rfl, (hreturns x hx y hy).2⟩, fun x _ y _ => le_total x.toInt y.toInt,
      fun x _ y _ z _ => le_trans⟩
  refine ((sort_sorts_iff (word 0) difference hfits Nat.one_pos).1 (some difference) _ horders).2 ?_
  refine ⟨?_, ?_, ?_, trivial⟩
  · intro x hx _
    exact ⟨_, rfl, (hreturns x (.tail _ hx) _ List.mem_cons_self).1⟩
  · intro x hx _
    exact ⟨_, rfl, (hreturns x (.tail _ (.tail _ hx)) (word 0) (by decide)).1⟩
  · intro x hx
    cases hx

/-- `[0, 2 ** 62].sort() do |x, y| next x - y end` asks whether zero is less than a Bignum. -/
theorem not_sort_sorts_difference :
    Orders difference [word 0, word (2 ^ 62)] (·.toInt ≤ ·.toInt) ∧
      ¬∃ r s', Partial.Ends (fun fuel => sort (word 0) difference (some difference) fuel 0
        [⟨2, [word 0, word (2 ^ 62)]⟩]) (.ok (r, s')) := by
  have hreturns : ∀ x ∈ [word 0, word (2 ^ 62)], ∀ y ∈ [word 0, word (2 ^ 62)],
      (compare (x.subtract y).toInt 0 ≠ .gt ↔ x.toInt ≤ y.toInt) := by
    decide
  have horders : Orders difference [word 0, word (2 ^ 62)] (·.toInt ≤ ·.toInt) :=
    ⟨fun x hx y hy => ⟨_, rfl, hreturns x hx y hy⟩, fun x _ y _ => le_total x.toInt y.toInt,
      fun x _ y _ z _ => le_trans⟩
  have hbig : ¬((word (2 ^ 62)).subtract (word 0)).IsFixnum := by decide
  refine ⟨horders, ?_⟩
  classical
  rintro ⟨r, s', fuel, hrun⟩
  have hfits : ∀ a ∈ [(⟨2, [word 0, word (2 ^ 62)]⟩ : YogArray Integer)], a.Fits := by
    simp [YogArray.Fits]
  obtain ⟨hfix, -⟩ :=
    makesFixnums_of_sort (word 0) difference hfits Nat.one_pos rfl horders hrun
  obtain ⟨n, hn, hfixnum⟩ := hfix.1 (word (2 ^ 62)) List.mem_cons_self fun z hz => by cases hz
  obtain rfl := Except.ok.inj hn
  exact hbig hfixnum

end Difference

end Yog.ArrayScript
