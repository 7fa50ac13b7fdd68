import Yog.Lib.Loops
import Yog.Lib.Runs
import Yog.YogArray
import Mathlib.Data.List.GetD
import Mathlib.Tactic.SplitIfs

/-!
# Arrays are lists

The visible items of an array are its list (`contents`), and operations on arrays are those on
lists: the size stays within the body, nothing is written past it, and what raises changes nothing
(`arrays_are_lists`). A body without items grows to one item, whatever is asked for, which is enough
for operations that ask for one item more.
-/

namespace Yog.YogArray

variable {V : Type}

/-- The size is within the body. -/
def Fits (a : YogArray V) : Prop := a.size ≤ a.body.length

def contents (a : YogArray V) : List V := a.body.take a.size

/-- The place an index means in a list, from the end if it is negative. -/
def place (length : Nat) (index : Int) : Option Nat :=
  let n := if 0 ≤ index then index else length + index
  if 0 ≤ n ∧ n < length then some n.toNat else none

/-- An operation on lists; without a result it raises. -/
def listExec (ls : List (List V)) : Op V → Option (Result V) × List (List V)
  | .literal vals => (some (.array ls.length), ls ++ [vals])
  | .push r val => (some (.array r), ls.set r (ls.getD r [] ++ [val]))
  | .pop r =>
    match (ls.getD r []).getLast? with
    | some v => (some (.val v), ls.set r (ls.getD r []).dropLast)
    | none => (none, ls)
  | .shift r =>
    match ls.getD r [] with
    | v :: l => (some (.val v), ls.set r l)
    | [] => (none, ls)
  | .unshift r obj => (some (.array r), ls.set r (obj :: ls.getD r []))
  | .subscript r index =>
    (do return .val (← (ls.getD r [])[← place (ls.getD r []).length (← index)]?), ls)
  | .assign r index val =>
    match index.bind (place (ls.getD r []).length) with
    | some n => (some (.array r), ls.set r ((ls.getD r []).set n val))
    | none => (none, ls)
  | .add _ none => (none, ls)
  | .add r (some r') => (some (.array ls.length), ls ++ [ls.getD r [] ++ ls.getD r' []])

/-- The lists after operations on none. -/
def lists (ops : List (Op V)) : List (List V) := ops.foldl (fun ls op => (listExec ls op).2) []

/-- The arrays an operation names are among the first ones. -/
def Op.Proper (length : Nat) : Op V → Prop
  | .literal _ => True
  | .push r _ | .pop r | .shift r | .unshift r _ | .subscript r _ | .assign r _ _ => r < length
  | .add r r' => r < length ∧ ∀ i ∈ r', i < length

/-- What is returned is what the lists give, and where they give nothing an exception is raised. -/
def Agrees (o : Except ArrayError (Result V)) : Option (Result V) → Prop
  | some x => o = .ok x
  | none => ∃ e, o = .error e ∧ e.Raised

/-- An operation of arrays is that of the lists they stand for. -/
structure Same (nil undef : V) (s : Store V) (ls : List (List V)) (op : Op V) : Prop where
  agrees : Agrees (exec nil undef s op).1 (listExec ls op).1
  fits : ∀ a ∈ (exec nil undef s op).2, a.Fits
  lists : (exec nil undef s op).2.map contents = (listExec ls op).2
  unchanged : ∀ e, (exec nil undef s op).1 = .error e → (exec nil undef s op).2 = s

section Bodies

variable {body new old : List V} {i : Nat} {v : V}

theorem item_ok (h : i < body.length) : item body i = .ok body[i] := by
  unfold item
  rw [List.getElem?_eq_getElem h]

theorem valArrayAt_ok (h : i < body.length) : valArrayAt body i = .ok body[i] := by
  unfold valArrayAt
  rw [List.getElem?_eq_getElem h]

theorem setItem_ok (h : i < body.length) : setItem body i v = .ok (body.set i v) := if_pos h

theorem take_set_succ (h : i < body.length) :
    (body.set i v).take (i + 1) = body.take i ++ [v] := by
  rw [List.take_add_one, List.getElem?_set_self h, List.take_set_of_le (le_refl _)]
  rfl

/-- A copy has the items of the other body from the offset on. -/
def Copied (new old : List V) (offset size : Nat) (b : List V) : Prop :=
  b.length = new.length
    ∧ ∀ j, b[j]? = if offset ≤ j ∧ j < offset + size then old[j - offset]? else new[j]?

theorem Copied.zero (new old : List V) (offset : Nat) : Copied new old offset 0 new :=
  ⟨rfl, fun j => by rw [if_neg (by omega)]⟩

theorem Copied.succ {offset size : Nat} {b : List V} (h : Copied new old offset size b)
    (hs : size < old.length) (hn : offset + size < new.length) :
    Copied new old offset (size + 1) (b.set (offset + size) old[size]) := by
  obtain ⟨hlen, hb⟩ := h
  refine ⟨by rw [List.length_set, hlen], fun j => ?_⟩
  rw [List.getElem?_set, hb, hlen, if_pos hn]
  rcases Nat.lt_trichotomy j (offset + size) with hj | rfl | hj
  · rw [if_neg (by omega)]
    exact if_congr (by omega) rfl rfl
  · rw [if_pos rfl, if_pos (by omega), Nat.add_sub_cancel_left, List.getElem?_eq_getElem hs]
  · rw [if_neg (by omega), if_neg (by omega), if_neg (by omega)]

theorem copyBody_ok (new : List V) (offset : Nat) {size : Nat} (ho : size ≤ old.length)
    (hn : offset + size ≤ new.length) :
    ∃ b, copyBody new old size offset = .ok b ∧ Copied new old offset size b :=
  Loop.ok (Copied.zero new old offset) fun i b hi hb => by
    rw [item_ok (by omega : i < old.length)]
    exact ⟨_, setItem_ok (by have := hb.1; omega), hb.succ (by omega) (by omega)⟩

theorem Copied.append {size offset : Nat} {b : List V} (h : Copied new old offset size b)
    (hn : offset + size ≤ new.length) :
    b.take (offset + size) = new.take offset ++ old.take size := by
  apply List.ext_getElem?
  intro j
  rw [List.getElem?_take, h.2, List.getElem?_append, List.length_take, List.getElem?_take,
    List.getElem?_take, Nat.min_eq_left (by omega)]
  split_ifs <;> first | rfl | omega

theorem multipleSize_spec {minSize : Nat} : ∀ {fuel curSize : Nat}, 0 < curSize →
    minSize ≤ curSize + fuel → minSize ≤ multipleSize minSize 2 fuel curSize
      ∧ curSize ≤ multipleSize minSize 2 fuel curSize
  | 0, curSize, _, h => ⟨by simpa [multipleSize] using h, le_rfl⟩
  | fuel + 1, curSize, hc, h => by
    unfold multipleSize
    split_ifs with hlt
    · have h' := multipleSize_spec (by omega : 0 < curSize * 2)
        (by omega : minSize ≤ curSize * 2 + fuel)
      exact ⟨h'.1, by omega⟩
    · exact ⟨by omega, le_rfl⟩

end Bodies

section One

variable {nil undef : V} {a : YogArray V} {v : V} {i : Nat}

theorem length_contents (h : a.Fits) : a.contents.length = a.size := by
  unfold contents
  rw [List.length_take]
  exact Nat.min_eq_left h

theorem getElem?_contents : a.contents[i]? = if i < a.size then a.body[i]? else none := by
  unfold contents
  rw [List.getElem?_take]

/-- Growth keeps the items, and makes room unless there is none to double. -/
theorem ensureBodySize_ok (nil : V) (h : a.Fits) {size : Nat} (hr : a.body ≠ [] ∨ size ≤ 1) :
    ∃ body, ensureBodySize nil a size = .ok { a with body } ∧ size ≤ body.length
      ∧ a.size ≤ body.length ∧ body.take a.size = a.contents := by
  unfold ensureBodySize
  split_ifs with hlt
  · have hnew : size ≤ getNextSize size a.body.length increaseRatio
        ∧ a.body.length ≤ getNextSize size a.body.length increaseRatio := by
      unfold getNextSize
      split_ifs with hz
      · have := List.eq_nil_of_length_eq_zero hz
        exact ⟨hr.resolve_left (not_not.2 this), by omega⟩
      · exact multipleSize_spec (by omega) (by omega)
    have hlen : (valArrayNew nil (getNextSize size a.body.length increaseRatio)).length
        = getNextSize size a.body.length increaseRatio := List.length_replicate
    have hf : a.size ≤ a.body.length := h
    obtain ⟨b, hb, hc⟩ := copyBody_ok
      (valArrayNew nil (getNextSize size a.body.length increaseRatio)) 0 hf (by omega)
    refine ⟨b, ?_, by rw [hc.1, hlen]; exact hnew.1, by rw [hc.1, hlen]; omega, ?_⟩
    · dsimp only
      rw [hb]
      rfl
    · have := hc.append (by omega)
      rw [Nat.zero_add] at this
      exact this
  · exact ⟨a.body, rfl, by omega, h, rfl⟩

/-- One item more has room. -/
theorem room_for_one (h : a.Fits) : a.body ≠ [] ∨ a.size + 1 ≤ 1 := by
  by_cases hz : a.body = []
  · have : a.size ≤ a.body.length := h
    rw [hz, List.length_nil] at this
    exact .inr (by omega)
  · exact .inl hz

theorem push_ok (nil : V) (h : a.Fits) (v : V) :
    ∃ a', push nil a v = .ok a' ∧ a'.Fits ∧ a'.contents = a.contents ++ [v] := by
  obtain ⟨body, hb, hlen, hsize, hbody⟩ := ensureBodySize_ok nil h (room_for_one h)
  refine ⟨{ size := a.size + 1, body := body.set a.size v }, ?_, ?_, ?_⟩
  · unfold push
    rw [hb]
    simp only [bind, Except.bind]
    rw [setItem_ok (by omega)]
    rfl
  · unfold Fits
    rw [List.length_set]
    exact hlen
  · rw [← hbody]
    exact take_set_succ (by omega)

theorem add_ok (nil : V) {b : YogArray V} (h : a.Fits) (hb : b.Fits) :
    ∃ a', add nil a b = .ok a' ∧ a'.Fits ∧ a'.contents = a.contents ++ b.contents := by
  have hloop := Loop.ok (s := a) (n := b.size)
    (f := fun self i => do push nil self (← valArrayAt b.body i))
    (I := fun i a' => a'.Fits ∧ a'.contents = a.contents ++ b.contents.take i)
    ⟨h, by simp⟩ fun i a' hi ha => by
      have hi' : i < b.body.length := lt_of_lt_of_le hi hb
      obtain ⟨a'', h', hf, hc⟩ := push_ok nil ha.1 b.body[i]
      refine ⟨a'', ?_, hf, ?_⟩
      · rw [valArrayAt_ok hi']
        exact h'
      · rw [hc, ha.2, List.append_assoc, List.take_add_one, getElem?_contents, if_pos hi,
          List.getElem?_eq_getElem hi']
        rfl
  obtain ⟨a', h', hf, hc⟩ := hloop
  refine ⟨a', h', hf, ?_⟩
  rw [hc, ← length_contents hb, List.take_length]

theorem makeArrayLoop_ok : ∀ {vs body : List V}, vs.length ≤ body.length →
    makeArrayLoop body vs = .ok (vs.reverse ++ body.drop vs.length)
  | [], body, _ => rfl
  | v :: vs, body, h => by
    rw [List.length_cons] at h
    unfold makeArrayLoop
    rw [setItem_ok (by omega)]
    simp only [bind, Except.bind]
    rw [makeArrayLoop_ok (by rw [List.length_set]; omega), List.reverse_cons, List.append_assoc,
      List.drop_eq_getElem_cons (by rw [List.length_set]; omega), List.getElem_set_self,
      List.drop_set_of_lt (by omega)]
    rfl

theorem makeArray_ok (nil : V) (vals : List V) :
    ∃ a', makeArray nil vals = .ok a' ∧ a'.Fits ∧ a'.contents = vals := by
  have hlen : (ofSize nil vals.length).body.length = vals.length := List.length_replicate
  refine ⟨⟨vals.length, vals⟩, ?_, le_refl _, List.take_length⟩
  unfold makeArray
  dsimp only
  rw [makeArrayLoop_ok (by rw [List.length_reverse, hlen]), List.reverse_reverse,
    List.length_reverse, List.drop_eq_nil_of_le (le_of_eq hlen), List.append_nil]
  rfl

theorem pop_ok (h : a.Fits) (hv : a.contents.getLast? = some v) :
    pop a = (.ok v, { a with size := a.size - 1 }) := by
  rw [List.getLast?_eq_getElem?, length_contents h, getElem?_contents] at hv
  split_ifs at hv with hlt
  have hlen : a.size - 1 < a.body.length := lt_of_lt_of_le hlt h
  rw [List.getElem?_eq_getElem hlen] at hv
  unfold pop
  rw [if_neg (by omega), valArrayAt_ok hlen, Option.some.inj hv]

theorem pop_error (h : a.Fits) (hv : a.contents.getLast? = none) :
    pop a = (.error (.indexError "pop from empty list" []), a) := by
  rw [List.getLast?_eq_none_iff, ← List.length_eq_zero_iff, length_contents h] at hv
  exact if_pos (by rw [hv]; exact Nat.zero_lt_one)

theorem contents_pop (h : a.Fits) :
    ({ a with size := a.size - 1 } : YogArray V).contents = a.contents.dropLast := by
  rw [List.dropLast_eq_take, length_contents h]
  unfold contents
  rw [List.take_take, Nat.min_eq_left (by omega)]

theorem shiftLoop_ok (body : List V) {n : Nat} (h : n < body.length) :
    ∃ b, shiftLoop body n = .ok b ∧ b.length = body.length
      ∧ ∀ j, b[j]? = if j < n then body[j + 1]? else body[j]? :=
  Loop.ok (I := fun n (b : List V) => b.length = body.length
      ∧ ∀ j, b[j]? = if j < n then body[j + 1]? else body[j]?)
    ⟨rfl, fun j => by rw [if_neg (by omega)]⟩ fun i b hi hb => by
      have hi' : i + 1 < b.length := by rw [hb.1]; omega
      refine ⟨b.set i b[i + 1], ?_, by rw [List.length_set, hb.1], fun j => ?_⟩
      · rw [valArrayAt_ok hi']
        exact setItem_ok (Nat.lt_of_succ_lt hi')
      · rw [List.getElem?_set, if_pos (Nat.lt_of_succ_lt hi'), hb.2 j]
        rcases Nat.lt_trichotomy j i with hj | rfl | hj
        · rw [if_neg (by omega)]
          exact (if_pos hj).trans (if_pos (by omega)).symm
        · rw [if_pos rfl, if_pos (by omega), ← List.getElem?_eq_getElem hi', hb.2,
            if_neg (by omega)]
        · rw [if_neg (by omega), if_neg (by omega), if_neg (by omega)]

theorem shift_ok (undef : V) (h : a.Fits) {l : List V} (hc : a.contents = v :: l) :
    ∃ a', shift undef a = (.ok v, a') ∧ a'.Fits ∧ a'.contents = l := by
  have hs : a.size = l.length + 1 := by rw [← length_contents h, hc, List.length_cons]
  have hf : a.size ≤ a.body.length := h
  obtain ⟨b, hb, hlen, hget⟩ := shiftLoop_ok a.body (n := a.size - 1) (by omega)
  have hlt : 0 < a.body.length := by omega
  have hv : a.body[0] = v := by
    have h₀ := getElem?_contents (a := a) (i := 0)
    rw [hc, if_pos (by omega), List.getElem?_eq_getElem hlt] at h₀
    exact (Option.some.inj h₀).symm
  refine ⟨⟨a.size - 1, b.set (a.size - 1) undef⟩, ?_, ?_, ?_⟩
  · unfold shift shiftItems
    rw [if_neg (by omega), valArrayAt_ok hlt, hv]
    simp only [bind, Except.bind, hb]
    rw [setItem_ok (by omega)]
    rfl
  · unfold Fits
    dsimp only
    rw [List.length_set]
    omega
  · apply List.ext_getElem?
    intro j
    rw [getElem?_contents]
    dsimp only
    have hl : l[j]? = a.contents[j + 1]? := by rw [hc, List.getElem?_cons_succ]
    rw [hl, getElem?_contents]
    split_ifs with h₁ h₂ h₂
    · rw [List.getElem?_set_ne (by omega), hget, if_pos h₁]
    · omega
    · omega
    · rfl

theorem shift_error (hc : a.contents = []) (h : a.Fits) :
    shift undef a = (.error (.indexError "shift from empty array" []), a) := by
  have := length_contents h
  rw [hc] at this
  exact if_pos (by rw [← this]; exact Nat.zero_lt_one)

theorem unshiftLoop_ok : ∀ (n : Nat) (body : List V), n < body.length →
    ∃ b, unshiftLoop body n = .ok b ∧ b.length = body.length
      ∧ ∀ j, b[j]? = if 1 ≤ j ∧ j ≤ n then body[j - 1]? else body[j]?
  | 0, body, _ => ⟨body, rfl, rfl, fun j => by rw [if_neg (by omega)]⟩
  | n + 1, body, h => by
    obtain ⟨b, hb, hlen, hget⟩ := unshiftLoop_ok n (body.set (n + 1) body[n])
      (by rw [List.length_set]; omega)
    refine ⟨b, ?_, by rw [hlen, List.length_set], fun j => ?_⟩
    · unfold unshiftLoop
      rw [valArrayAt_ok (by omega)]
      simp only [bind, Except.bind]
      rw [setItem_ok h]
      exact hb
    · rw [hget]
      rcases Nat.lt_trichotomy j (n + 1) with hj | rfl | hj
      · rw [List.getElem?_set_ne (by omega), List.getElem?_set_ne (by omega)]
        exact if_congr (by omega) rfl rfl
      · rw [if_neg (by omega), if_pos (by omega), List.getElem?_set_self h,
          Nat.add_sub_cancel, List.getElem?_eq_getElem (by omega)]
      · rw [if_neg (by omega), if_neg (by omega), List.getElem?_set_ne (by omega)]

theorem unshift_ok (nil : V) (h : a.Fits) (v : V) :
    ∃ a', unshift nil a v = .ok a' ∧ a'.Fits ∧ a'.contents = v :: a.contents := by
  obtain ⟨body, hb, hlen, hsize, hbody⟩ := ensureBodySize_ok nil h (room_for_one h)
  obtain ⟨b, hloop, hlen', hget⟩ := unshiftLoop_ok a.size body (by omega)
  refine ⟨⟨a.size + 1, b.set 0 v⟩, ?_, ?_, ?_⟩
  · unfold unshift
    rw [hb]
    simp only [bind, Except.bind, hloop]
    rw [setItem_ok (by omega)]
    rfl
  · unfold Fits
    dsimp only
    rw [List.length_set]
    omega
  · apply List.ext_getElem?
    intro j
    rw [getElem?_contents, ← hbody]
    dsimp only
    cases j with
    | zero =>
      rw [if_pos (by omega), List.getElem?_set_self (by omega)]
      rfl
    | succ j =>
      rw [List.getElem?_cons_succ, List.getElem?_take, List.getElem?_set_ne (by omega), hget]
      split_ifs <;> first | rfl | omega

theorem place_some (h : a.Fits) {index : Int} {n : Nat}
    (hp : place a.contents.length index = some n) :
    ¬(a.normalizeIndex index < 0 ∨ a.size ≤ a.normalizeIndex index)
      ∧ (a.normalizeIndex index).toNat = n ∧ n < a.size := by
  rw [length_contents h] at hp
  unfold place at hp
  unfold normalizeIndex
  dsimp only at hp
  split_ifs at hp ⊢ <;> cases hp <;> omega

theorem place_none (h : a.Fits) {index : Int} (hp : place a.contents.length index = none) :
    a.normalizeIndex index < 0 ∨ a.size ≤ a.normalizeIndex index := by
  rw [length_contents h] at hp
  unfold place at hp
  unfold normalizeIndex
  dsimp only at hp
  split_ifs at hp ⊢ <;> omega

theorem subscript_ok (h : a.Fits) {index : Int} {n : Nat}
    (hp : place a.contents.length index = some n) :
    ∃ v, a.subscript (some index) = .ok v ∧ a.contents[n]? = some v := by
  obtain ⟨hin, hn, hlt⟩ := place_some h hp
  have hlen : n < a.body.length := lt_of_lt_of_le hlt h
  refine ⟨a.body[n], ?_, by rw [getElem?_contents, if_pos hlt, List.getElem?_eq_getElem hlen]⟩
  unfold subscript
  dsimp only
  rw [if_neg hin, hn, valArrayAt_ok hlen]

theorem assign_ok (h : a.Fits) {index : Int} {n : Nat} (v : V)
    (hp : place a.contents.length index = some n) :
    ∃ a', a.assign (some index) v = (.ok (), a') ∧ a'.Fits ∧ a'.contents = a.contents.set n v := by
  obtain ⟨hin, hn, hlt⟩ := place_some h hp
  have hlen : n < a.body.length := lt_of_lt_of_le hlt h
  refine ⟨{ a with body := a.body.set n v }, ?_, ?_, ?_⟩
  · unfold assign
    dsimp only
    rw [if_neg hin, hn, setItem_ok hlen]
    rfl
  · unfold Fits
    dsimp only
    rw [List.length_set]
    exact h
  · unfold contents
    exact (List.take_set ..)

end One

section Stores

variable {nil undef : V} {s : Store V} {a : YogArray V} {r r' : Nat} {op : Op V} {v : V}

theorem fits_get (hs : ∀ a ∈ s, a.Fits) (nil : V) (r : Nat) : (get nil s r).Fits := by
  unfold get
  rw [List.getD_eq_getElem?_getD]
  rcases hr : s[r]? with _ | a
  · exact Nat.zero_le _
  · exact hs a (List.mem_of_getElem? hr)

theorem getD_contents (nil : V) (s : Store V) (r : Nat) :
    (s.map contents).getD r [] = (get nil s r).contents := by
  unfold get
  rw [List.getD_eq_getElem?_getD, List.getD_eq_getElem?_getD, List.getElem?_map]
  cases s[r]? <;> rfl

/-- An array that is left as it is. -/
theorem set_get (nil : V) (hr : r < s.length) : s.set r (get nil s r) = s := by
  unfold get
  rw [List.getD_eq_getElem _ _ hr, List.set_getElem_self]

theorem fits_set (hs : ∀ a ∈ s, a.Fits) (ha : a.Fits) : ∀ b ∈ s.set r a, b.Fits := by
  intro b hb
  rcases List.mem_or_eq_of_mem_set hb with hb | rfl
  · exact hs b hb
  · exact ha

theorem Same.of_ok {x : Result V} {t : Store V} (he : exec nil undef s op = (.ok x, t))
    (hl : listExec (s.map contents) op = (some x, t.map contents)) (hf : ∀ a ∈ t, a.Fits) :
    Same nil undef s (s.map contents) op := by
  constructor
  · rw [he, hl]
    rfl
  · rw [he]
    exact hf
  · rw [he, hl]
  · rw [he]
    intro e h
    cases h

theorem Same.of_error {e : ArrayError} (he : exec nil undef s op = (.error e, s)) (hr : e.Raised)
    (hl : listExec (s.map contents) op = (none, s.map contents)) (hf : ∀ a ∈ s, a.Fits) :
    Same nil undef s (s.map contents) op := by
  constructor
  · rw [he, hl]
    exact ⟨e, rfl, hr⟩
  · rw [he]
    exact hf
  · rw [he, hl]
  · rw [he]
    exact fun _ _ => rfl

/-- An operation that leaves an array another one. -/
theorem Same.of_set {x : Result V} (he : exec nil undef s op = (.ok x, s.set r a))
    (hl : listExec (s.map contents) op
      = (some x, (s.map contents).set r a.contents))
    (hs : ∀ a ∈ s, a.Fits) (ha : a.Fits) : Same nil undef s (s.map contents) op :=
  .of_ok he (by rw [hl, List.map_set]) (fits_set hs ha)

/-- An operation that creates an array. -/
theorem Same.of_created {x : Except ArrayError (YogArray V)} (hx : x = .ok a)
    (he : exec nil undef s op = created s x)
    (hl : listExec (s.map contents) op
      = (some (.array s.length), s.map contents ++ [a.contents]))
    (hs : ∀ a ∈ s, a.Fits) (ha : a.Fits) : Same nil undef s (s.map contents) op := by
  refine .of_ok (t := s ++ [a]) (by rw [he, hx]; rfl) (by rw [hl, List.map_append]; rfl) ?_
  intro b hb
  rcases List.mem_append.1 hb with hb | hb
  · exact hs b hb
  · rw [List.mem_singleton.1 hb]
    exact ha

theorem same_pop (hs : ∀ a ∈ s, a.Fits) (hr : r < s.length) :
    Same nil undef s (s.map contents) (.pop r) := by
  have hfit := fits_get hs nil r
  rcases hl : (get nil s r).contents.getLast? with _ | v
  · refine .of_error (e := .indexError "pop from empty list" []) ?_ trivial ?_ hs
    · simp only [exec, onArray, pop_error hfit hl]
      rw [set_get nil hr]
      rfl
    · simp only [listExec, getD_contents nil, hl]
  · refine .of_set (r := r) (x := .val v) (a := { get nil s r with size := (get nil s r).size - 1 })
      ?_ ?_ hs ?_
    · simp only [exec, onArray, pop_ok hfit hl]
      rfl
    · simp only [listExec, getD_contents nil, hl, contents_pop hfit]
    · exact le_trans (Nat.sub_le _ _) hfit

theorem same_shift (hs : ∀ a ∈ s, a.Fits) (hr : r < s.length) :
    Same nil undef s (s.map contents) (.shift r) := by
  have hfit := fits_get hs nil r
  rcases hl : (get nil s r).contents with _ | ⟨v, l⟩
  · refine .of_error (e := .indexError "shift from empty array" []) ?_ trivial ?_ hs
    · simp only [exec, onArray, shift_error hl hfit]
      rw [set_get nil hr]
      rfl
    · simp only [listExec, getD_contents nil, hl]
  · obtain ⟨a, h, hf, hc⟩ := shift_ok undef hfit hl
    refine .of_set (r := r) (x := .val v) (a := a) ?_ ?_ hs hf
    · simp only [exec, onArray, h]
      rfl
    · simp only [listExec, getD_contents nil, hl, hc]

theorem same_subscript (hs : ∀ a ∈ s, a.Fits) (index : Option Int) :
    Same nil undef s (s.map contents) (.subscript r index) := by
  have hfit := fits_get hs nil r
  rcases index with _ | index
  · refine .of_error (e := .typeError "Index must be Fixnum") rfl trivial rfl hs
  · rcases hp : place (get nil s r).contents.length index with _ | n
    · refine .of_error (e := .indexError "Array index out of range" []) ?_ trivial ?_ hs
      · simp only [exec, subscript, if_pos (place_none hfit hp)]
        rfl
      · simp only [listExec, getD_contents nil, Option.bind_eq_bind, Option.bind_some, hp]
        rfl
    · obtain ⟨v, h, hv⟩ := subscript_ok hfit hp
      refine .of_ok (t := s) (x := .val v) ?_ ?_ hs
      · simp only [exec, h]
        rfl
      · simp only [listExec, getD_contents nil, Option.bind_eq_bind, Option.bind_some, hp, hv]
        rfl

theorem same_assign (hs : ∀ a ∈ s, a.Fits) (hr : r < s.length) (index : Option Int) (v : V) :
    Same nil undef s (s.map contents) (.assign r index v) := by
  have hfit := fits_get hs nil r
  rcases index with _ | index
  · refine .of_error (e := .typeError "index must be Fixnum") ?_ trivial rfl hs
    simp only [exec, assign, onArray]
    rw [set_get nil hr]
    rfl
  · rcases hp : place (get nil s r).contents.length index with _ | n
    · refine .of_error (e := .indexError "Array assignment index (%d) out of range (%u)"
        [index, (get nil s r).size]) ?_ trivial ?_ hs
      · simp only [exec, assign, onArray, if_pos (place_none hfit hp)]
        rw [set_get nil hr]
        rfl
      · simp only [listExec, getD_contents nil, Option.bind_some, hp]
    · obtain ⟨a, h, hf, hc⟩ := assign_ok hfit v hp
      refine .of_set (r := r) (x := .array r) (a := a) ?_ ?_ hs hf
      · simp only [exec, onArray, h]
        rfl
      · simp only [listExec, getD_contents nil, Option.bind_some, hp, hc]

/-- Every operation is that of the lists. -/
theorem same (hs : ∀ a ∈ s, a.Fits) (hp : op.Proper s.length) :
    Same nil undef s (s.map contents) op := by
  have hfit := fits_get hs nil
  cases op with
  | literal vals =>
    obtain ⟨a, h, hf, hc⟩ := makeArray_ok nil vals
    exact .of_created h rfl (by simp only [listExec, List.length_map, hc]) hs hf
  | push r val =>
    obtain ⟨a, h, hf, hc⟩ := push_ok nil (hfit r) val
    refine .of_set (r := r) (x := .array r) (a := a) ?_ ?_ hs hf
    · simp only [exec, h]
      rfl
    · simp only [listExec, getD_contents nil, hc]
  | pop r => exact same_pop hs hp
  | shift r => exact same_shift hs hp
  | unshift r obj =>
    obtain ⟨a, h, hf, hc⟩ := unshift_ok nil (hfit r) obj
    refine .of_set (r := r) (x := .array r) (a := a) ?_ ?_ hs hf
    · simp only [exec, h]
      rfl
    · simp only [listExec, getD_contents nil, hc]
  | subscript r index => exact same_subscript hs index
  | assign r index val => exact same_assign hs hp index val
  | add r r' =>
    cases r' with
    | none => exact .of_error (e := .typeError "operand must be Array") rfl trivial rfl hs
    | some r' =>
      obtain ⟨a, h, hf, hc⟩ := add_ok nil (a := new nil) (Nat.zero_le _) (hfit r)
      obtain ⟨b, h', hf', hc'⟩ := add_ok nil hf (hfit r')
      refine .of_created (a := b)
        (x := do add nil (← add nil (new nil) (get nil s r)) (get nil s r')) ?_ rfl ?_ hs hf'
      · rw [h]
        exact h'
      · simp only [listExec, getD_contents nil, List.length_map, hc', hc]
        rfl

end Stores

section Runs

variable {nil undef : V} {ops : List (Op V)} {op : Op V}

theorem run_append (nil undef : V) (ops : List (Op V)) (op : Op V) :
    run nil undef (ops ++ [op]) = (exec nil undef (run nil undef ops) op).2 := by
  unfold run
  rw [List.foldl_append]
  rfl

theorem lists_append (ops : List (Op V)) (op : Op V) :
    lists (ops ++ [op]) = (listExec (lists ops) op).2 := by
  unfold lists
  rw [List.foldl_append]
  rfl

/-- The arrays after the operations are the lists after them. -/
def Stands (nil undef : V) (ops : List (Op V)) : Prop :=
  (∀ a ∈ run nil undef ops, a.Fits) ∧ (run nil undef ops).map contents = lists ops

/-- So is what the last operation did. -/
def Keeps (nil undef : V) (ops : List (Op V)) : Prop :=
  Stands nil undef ops
    ∧ ∀ pre op, pre ++ [op] = ops → Same nil undef (run nil undef pre) (lists pre) op

theorem Keeps.append (h : Keeps nil undef ops) (hp : op.Proper (lists ops).length) :
    Keeps nil undef (ops ++ [op]) := by
  obtain ⟨⟨hf, hl⟩, -⟩ := h
  have hsame : Same nil undef (run nil undef ops) (lists ops) op := by
    rw [← hl] at hp ⊢
    exact same hf (by rwa [List.length_map] at hp)
  refine ⟨⟨?_, ?_⟩, fun pre op' he => ?_⟩
  · rw [run_append]
    exact hsame.fits
  · rw [run_append, lists_append]
    exact hsame.lists
  · obtain ⟨rfl, hop⟩ := List.append_inj' he rfl
    rw [List.singleton_inj.1 hop]
    exact hsame

/-- **Arrays as lists.** At every point of a run of operations the arrays are the lists, and each
operation does what the one on lists does. -/
theorem arrays_are_lists (nil undef : V) (ops : List (Op V))
    (hp : ∀ pre op, pre ++ [op] <+: ops → op.Proper (lists pre).length) :
    ∀ pre, pre <+: ops → Keeps nil undef pre := by
  intro pre hpre
  have hstep : ∀ pre (op : Op V), op.Proper (lists pre).length → True → Keeps nil undef pre →
      Keeps nil undef (pre ++ [op]) := fun _ _ hp _ h => h.append hp
  exact prefix_invariant ⟨⟨by simp [run], rfl⟩, by simp⟩ hstep pre
    (fun _ _ h => hp _ _ (h.trans hpre)) fun _ _ _ => trivial

/-- An empty literal, concatenated with a longer one, and an array that is emptied and grows
again. -/
theorem arrays_are_lists_grown : Keeps 0 0 [Op.literal [], .literal [1, 2], .add 0 (some 1), .pop 2,
    .pop 2, .pop 2, .unshift 2 3, .add 2 none] :=
  have hp := forall_prefix_iff.2 fun
    | 0, _ | 1, _ => trivial
    | 2, _ => ⟨by decide, by rintro i ⟨⟩; decide⟩
    | 3, _ | 4, _ | 5, _ | 6, _ => Nat.lt_succ_self 2
    | 7, _ => ⟨by decide, by rintro i ⟨⟩⟩
  arrays_are_lists 0 0 _ hp _ List.prefix_rfl

end Runs

end Yog.YogArray
