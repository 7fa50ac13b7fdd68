import Yog.Regexp
import Yog.Lib.Radix

/-!
# The syntax of regular expressions

The syntax `README.rst` of `corgi` documents, with nodes for its meaning. A derivation may be kept
off the constructs the parser does not treat as documented: what is read without them is `Reads
False`. What the nodes cannot say has no derivation: a set in a set, and a bound of `65535`, which
stands for no bound. The syntax gives a pattern at most one meaning (`Reads.unique`).
-/

namespace Yog

namespace Corgi

def escapes : List (CorgiChar × Escape) :=
  [('w'.toNat, .category .uniWord), ('W'.toNat, .category .uniNotWord),
   ('s'.toNat, .category .uniSpace), ('S'.toNat, .category .uniNotSpace),
   ('d'.toNat, .category .uniDigit), ('D'.toNat, .category .uniNotDigit),
   ('b'.toNat, .at .boundary), ('B'.toNat, .at .nonBoundary),
   ('A'.toNat, .at .beginningString), ('Z'.toNat, .at .atEnd),
   ('n'.toNat, .literal '\n'.toNat), ('r'.toNat, .literal '\r'.toNat),
   ('t'.toNat, .literal '\t'.toNat)]

/-- What the character behind a backslash stands for. -/
def documentedEscape (c : CorgiChar) : Escape := (escapes.lookup c).getD (.literal c)

/-- The character at the head of a class, if it is one; the first bracket does not close. -/
def classChar (first : Bool) : List CorgiChar → Option (CorgiChar × List CorgiChar)
  | [] => none
  | c :: rest =>
    if c = '\\'.toNat then
      match rest with
      | [] => none
      | d :: rest =>
        match documentedEscape d with
        | .literal e => some (e, rest)
        | _ => none
    else if c = '['.toNat ∨ (c = ']'.toNat ∧ first = false) then none
    else some (c, rest)

/-- What follows a character makes it the lower end of a range. -/
def StartsRange (s : List CorgiChar) : Prop :=
  ∃ d rest, s = '-'.toNat :: d :: rest ∧ d ≠ ']'.toNat

/-- No end of a range is an escape, and its lower end neither a `^` nor the first bracket. -/
structure PlainRange (first : Bool) (s s' : List CorgiChar) : Prop where
  low_ne_escape : s.head? ≠ some '\\'.toNat
  low_ne_caret : s.head? ≠ some '^'.toNat
  low_ne_bracket : first = true → s.head? ≠ some ']'.toNat
  high_ne_escape : s'.head? ≠ some '\\'.toNat

/-- A member of a class. -/
inductive Element (a : Prop) : Bool → List CorgiChar → SetNode → List CorgiChar → Prop
  | category {first c k r} : documentedEscape c = .category k →
      Element a first ('\\'.toNat :: c :: r) (.category k) r
  | literal {first s c r} : classChar first s = some (c, r) → ¬ StartsRange r →
      (a ∨ s.head? ≠ some '^'.toNat) → Element a first s (.literal c) r
  | range {first s lo s' hi r} : classChar first s = some (lo, '-'.toNat :: s') →
      s'.head? ≠ some ']'.toNat → classChar false s' = some (hi, r) → lo ≤ hi →
      (a ∨ PlainRange first s s') → Element a first s (.range lo hi) r

inductive Members (a : Prop) : Bool → List CorgiChar → List SetNode → List CorgiChar → Prop
  | close {r} : Members a false (']'.toNat :: r) [] r
  | more {first s m r ms r'} : Element a first s m r → Members a false r ms r' →
      Members a first s (m :: ms) r'

/-- A class, from behind its bracket on. -/
inductive Class (a : Prop) : List CorgiChar → List SetNode → List CorgiChar → Prop
  | negative {s ms r} : Members a false s ms r → Class a ('^'.toNat :: s) (.negate :: ms) r
  | positive {s ms r} : s.head? ≠ some '^'.toNat → Members a true s ms r → Class a s ms r

def decimal (ds : List CorgiChar) : ℕ := Lib.read 10 (ds.map (· - '0'.toNat))

/-- The bounds behind a brace, and what follows them. -/
def bounds (s : List CorgiChar) : Option (ℕ × Option ℕ × List CorgiChar) :=
  let ds := s.takeWhile (isDigit ·)
  match s.dropWhile (isDigit ·) with
  | [] => none
  | c :: r =>
    if c = '}'.toNat then
      if ds = [] then none else some (decimal ds, some (decimal ds), r)
    else if c = ','.toNat then
      let es := r.takeWhile (isDigit ·)
      match r.dropWhile (isDigit ·) with
      | [] => none
      | c :: r =>
        if c ≠ '}'.toNat ∨ (ds = [] ∧ es = []) then none
        else some (decimal ds, if es = [] then none else some (decimal es), r)
    else none

def quantifier : List CorgiChar → Option (ℕ × Option ℕ × List CorgiChar)
  | [] => none
  | c :: r =>
    if c = '?'.toNat then some (0, some 1, r)
    else if c = '*'.toNat then some (0, none, r)
    else if c = '+'.toNat then some (1, none, r)
    else if c = '{'.toNat then bounds r
    else none

/-- The bounds that a node can hold. -/
def Holds (min : ℕ) (max : Option ℕ) : Prop :=
  min < 2 ^ 64 ∧ ∀ m, max = some m → m < 2 ^ 64 ∧ m ≠ 65535

/-- An item with bounds, reluctant if a question mark follows. -/
def repetition (min : ℕ) (max : Option ℕ) (body : Node) (s : List CorgiChar) :
    Node × List CorgiChar :=
  if s.head? = some '?'.toNat then (.minRepeat min (max.getD 65535) body, s.tail)
  else (.maxRepeat min (max.getD 65535) body, s)

/-- The node of a character that stands for itself or is an anchor or the dot. -/
def ordinaryNode (c : CorgiChar) : Option Node :=
  if c ∈ ['['.toNat, '\\'.toNat, '('.toNat, '|'.toNat, ')'.toNat] then none
  else if c = '^'.toNat then some (.at .beginningLine)
  else if c = '$'.toNat then some (.at .endLine)
  else if c = '.'.toNat then some .any
  else some (.literal c)

/-- The name of a group, and where its pattern starts. -/
def groupName (s : List CorgiChar) : Option (List CorgiChar) × List CorgiChar :=
  let name := (s.drop 2).takeWhile (· ≠ '>'.toNat)
  match (s.drop 2).dropWhile (· ≠ '>'.toNat) with
  | [] => (none, s)
  | _ :: rest =>
    if s.take 2 = ['?'.toNat, '<'.toNat] ∧ name ≠ [] then (some name, rest) else (none, s)

/-- A sequence ends here. -/
def Stops (s : List CorgiChar) : Prop :=
  s = [] ∨ s.head? = some '|'.toNat ∨ s.head? = some ')'.toNat

inductive Production
  | single | item | sequence | alternatives

/-- What the syntax reads from the head of `s`, the first free group id being `k`: the nodes, the
first free id behind them and what is left. -/
inductive Reads (a : Prop) :
    Production → ℕ → List CorgiChar → List Node → ℕ → List CorgiChar → Prop
  | ordinary {k c n r} : ordinaryNode c = some n → Reads a .single k (c :: r) [n] k r
  | escape {k c r} : (a ∨ c ≠ 'Z'.toNat) →
      Reads a .single k ('\\'.toNat :: c :: r) [(documentedEscape c).node] k r
  | class {k s ms r} : Class a s ms r → Reads a .single k ('['.toNat :: s) [.in ms] k r
  | group {k s ns k' r} : Reads a .alternatives (k + 1) (groupName s).2 ns k' (')'.toNat :: r) →
      (a ∨ s.take 3 ≠ ['?'.toNat, '<'.toNat, '>'.toNat]) → (a ∨ ns ≠ []) →
      Reads a .single k ('('.toNat :: s) [.subpattern k (groupName s).1 ns] k' r
  | once {k s n k' r} : Reads a .single k s [n] k' r → quantifier r = none →
      (a ∨ r.head? ≠ some '{'.toNat) → Reads a .item k s [n] k' r
  | repeated {k s n k' r min max r'} : Reads a .single k s [n] k' r →
      quantifier r = some (min, max, r') → Holds min max →
      Reads a .item k s [(repetition min max n r').1] k' (repetition min max n r').2
  | nil {k s} : Stops s → Reads a .sequence k s [] k s
  | cons {k s n k' r ns k'' r'} : Reads a .item k s [n] k' r → Reads a .sequence k' r ns k'' r' →
      Reads a .sequence k s (n :: ns) k'' r'
  | one {k s ns k' r} : Reads a .sequence k s ns k' r → r.head? ≠ some '|'.toNat →
      Reads a .alternatives k s ns k' r
  | more {k s ls k' r rs k'' r'} : Reads a .sequence k s ls k' ('|'.toNat :: r) →
      Reads a .alternatives k' r rs k'' r' →
      (a ∨ (ls ≠ [] ∧ rs ≠ [] ∧ ∀ l r, rs ≠ [.branch l r])) →
      Reads a .alternatives k s [.branch ls rs] k'' r'

/-- `ns` is the meaning of the pattern. -/
def Documented (pattern : List CorgiChar) (ns : List Node) : Prop :=
  ∃ k, Reads True .alternatives 0 pattern ns k []

/-- A range whose ends are the wrong way round, or an escape of nothing. -/
inductive ElementBreak : Bool → List CorgiChar → Prop
  | range {first s lo s' hi r} : classChar first s = some (lo, '-'.toNat :: s') →
      s'.head? ≠ some ']'.toNat → classChar false s' = some (hi, r) → hi < lo →
      PlainRange first s s' → ElementBreak first s
  | escape {first} : ElementBreak first ['\\'.toNat]

inductive MembersBreak : Bool → List CorgiChar → Prop
  | here {first s} : ElementBreak first s → MembersBreak first s
  | later {first s m r} : Element False first s m r → MembersBreak false r → MembersBreak first s

inductive ClassBreak : List CorgiChar → Prop
  | negative {s} : MembersBreak false s → ClassBreak ('^'.toNat :: s)
  | positive {s} : s.head? ≠ some '^'.toNat → MembersBreak true s → ClassBreak s

/-- What is read without the constructs is followed by something the syntax does not have. -/
inductive Breaks : Production → ℕ → List CorgiChar → Prop
  | escape {k} : Breaks .single k ['\\'.toNat]
  | class {k s} : ClassBreak s → Breaks .single k ('['.toNat :: s)
  | group {k s} : Breaks .alternatives (k + 1) (groupName s).2 →
      s.take 3 ≠ ['?'.toNat, '<'.toNat, '>'.toNat] → Breaks .single k ('('.toNat :: s)
  | item {k s} : Breaks .single k s → Breaks .item k s
  | here {k s} : Breaks .item k s → Breaks .sequence k s
  | later {k s n k' r} : Reads False .item k s [n] k' r → Breaks .sequence k' r →
      Breaks .sequence k s
  | left {k s} : Breaks .sequence k s → Breaks .alternatives k s
  | right {k s ls k' r} : Reads False .sequence k s ls k' ('|'.toNat :: r) → ls ≠ [] →
      Breaks .sequence k' r → Breaks .alternatives k s

variable {a a' : Prop}

theorem classChar_category {first : Bool} {c : CorgiChar} {k : CategoryCode} {r : List CorgiChar}
    (h : documentedEscape c = .category k) : classChar first ('\\'.toNat :: c :: r) = none := by
  simp [classChar, h]

theorem startsRange_of_head {s : List CorgiChar} (h : s.head? ≠ some ']'.toNat)
    (hs : s ≠ []) : StartsRange ('-'.toNat :: s) := by
  rcases s with _ | ⟨d, s⟩
  · exact absurd rfl hs
  · exact ⟨d, s, rfl, by simpa using h⟩

theorem classChar_ne_nil {first : Bool} {s : List CorgiChar} {c : CorgiChar} {r : List CorgiChar}
    (h : classChar first s = some (c, r)) : s ≠ [] := by
  rintro rfl
  simp [classChar] at h

theorem Element.unique {first : Bool} {s r r' : List CorgiChar} {m m' : SetNode}
    (h : Element a first s m r) (h' : Element a' first s m' r') : m = m' ∧ r = r' := by
  cases h with
  | category hk =>
    cases h' with
    | category hk' => rw [hk] at hk'; cases hk'; exact ⟨rfl, rfl⟩
    | literal hc => rw [classChar_category hk] at hc; cases hc
    | range hc => rw [classChar_category hk] at hc; cases hc
  | literal hc hs =>
    cases h' with
    | category hk' => rw [classChar_category hk'] at hc; cases hc
    | literal hc' => rw [hc] at hc'; cases hc'; exact ⟨rfl, rfl⟩
    | range hc' hd hhi =>
      rw [hc] at hc'
      cases hc'
      exact absurd (startsRange_of_head hd (classChar_ne_nil hhi)) hs
  | range hc hd hhi hle =>
    cases h' with
    | category hk' => rw [classChar_category hk'] at hc; cases hc
    | literal hc' hs =>
      rw [hc] at hc'
      cases hc'
      exact absurd (startsRange_of_head hd (classChar_ne_nil hhi)) hs
    | range hc' hd' hhi' =>
      rw [hc] at hc'
      cases hc'
      rw [hhi] at hhi'
      cases hhi'
      exact ⟨rfl, rfl⟩

theorem ElementBreak.not_element {first : Bool} {s : List CorgiChar} (hb : ElementBreak first s)
    {m : SetNode} {r : List CorgiChar} : ¬ Element a first s m r := by
  intro h
  cases hb with
  | range hc hd hhi hlt =>
    cases h with
    | category hk' => rw [classChar_category hk'] at hc; cases hc
    | literal hc' hs =>
      rw [hc] at hc'
      cases hc'
      exact hs (startsRange_of_head hd (classChar_ne_nil hhi))
    | range hc' hd' hhi' hle =>
      rw [hc] at hc'
      cases hc'
      rw [hhi] at hhi'
      cases hhi'
      exact Nat.not_le.2 hlt hle
  | escape =>
    cases h with
    | literal hc => simp [classChar] at hc
    | range hc => simp [classChar] at hc

theorem Element.not_close {s r : List CorgiChar} {m : SetNode} :
    ¬ Element a false (']'.toNat :: s) m r := by
  intro h
  generalize hs : (']'.toNat :: s) = t at h
  cases h with
  | category => exact absurd (List.cons.inj hs).1 (by decide)
  | literal hc => rw [← hs] at hc; simp [classChar] at hc
  | range hc => rw [← hs] at hc; simp [classChar] at hc

theorem Members.unique {first : Bool} {s r r' : List CorgiChar} {ms ms' : List SetNode}
    (h : Members a first s ms r) (h' : Members a' first s ms' r') : ms = ms' ∧ r = r' := by
  induction h generalizing ms' r' with
  | close =>
    cases h' with
    | close => exact ⟨rfl, rfl⟩
    | more he => exact absurd he Element.not_close
  | more he hms ih =>
    cases h' with
    | close => exact absurd he Element.not_close
    | more he' hms' =>
      obtain ⟨rfl, rfl⟩ := he.unique he'
      obtain ⟨rfl, rfl⟩ := ih hms'
      exact ⟨rfl, rfl⟩

theorem MembersBreak.not_members {first : Bool} {s : List CorgiChar} (hb : MembersBreak first s)
    {ms : List SetNode} {r : List CorgiChar} : ¬ Members a first s ms r := by
  induction hb generalizing ms r with
  | here hb =>
    intro h
    cases h with
    | close =>
      cases hb with
      | range hc => simp [classChar] at hc
    | more he => exact hb.not_element he
  | later he _ ih =>
    intro h
    cases h with
    | close => exact Element.not_close he
    | more he' hms =>
      obtain ⟨rfl, rfl⟩ := he.unique he'
      exact ih hms

theorem Class.unique {s r r' : List CorgiChar} {ms ms' : List SetNode} (h : Class a s ms r)
    (h' : Class a' s ms' r') : ms = ms' ∧ r = r' := by
  cases h with
  | negative hms =>
    cases h' with
    | negative hms' =>
      obtain ⟨rfl, rfl⟩ := hms.unique hms'
      exact ⟨rfl, rfl⟩
    | positive hne => exact absurd rfl hne
  | positive hne hms =>
    cases h' with
    | negative => exact absurd rfl hne
    | positive _ hms' => exact hms.unique hms'

theorem ClassBreak.not_class {s : List CorgiChar} (hb : ClassBreak s) {ms : List SetNode}
    {r : List CorgiChar} : ¬ Class a s ms r := by
  intro h
  cases hb with
  | negative hb =>
    cases h with
    | negative hms => exact hb.not_members hms
    | positive hne => exact hne rfl
  | positive hne hb =>
    cases h with
    | negative => exact hne rfl
    | positive _ hms => exact hb.not_members hms

/-- An item does not start where a sequence ends. -/
theorem not_stops_of_reads {p : Production} {k : ℕ} {s : List CorgiChar} {ns : List Node} {k' : ℕ}
    {r : List CorgiChar} (h : Reads a p k s ns k' r) (hp : p = .single ∨ p = .item) :
    ¬ Stops s := by
  have hsingle : ∀ {k s ns k' r}, Reads a .single k s ns k' r → ¬ Stops s := by
    intro k s ns k' r h
    cases h with
    | ordinary hc =>
      rintro (hs | hs | hs)
      · cases hs
      · cases hs
        simp [ordinaryNode] at hc
      · cases hs
        simp [ordinaryNode] at hc
    | escape => simp [Stops]
    | «class» => simp [Stops]
    | group => simp [Stops]
  rcases hp with rfl | rfl
  · exact hsingle h
  · cases h with
    | once h => exact hsingle h
    | repeated h => exact hsingle h

theorem Breaks.not_stops {p : Production} {k : ℕ} {s : List CorgiChar} (h : Breaks p k s)
    (hp : p = .single ∨ p = .item) : ¬ Stops s := by
  have hsingle : ∀ {k s}, Breaks .single k s → ¬ Stops s := by
    intro k s h
    cases h <;> simp [Stops]
  rcases hp with rfl | rfl
  · exact hsingle h
  · cases h with
    | item h => exact hsingle h

theorem ordinaryNode_special {c : CorgiChar} {n : Node} (h : ordinaryNode c = some n) :
    c ∉ ['['.toNat, '\\'.toNat, '('.toNat, '|'.toNat, ')'.toNat] := by
  intro hc
  unfold ordinaryNode at h
  rw [if_pos hc] at h
  cases h

theorem Reads.unique {p : Production} {k : ℕ} {s : List CorgiChar} {ns ns' : List Node}
    {k₁ k₂ : ℕ} {r r' : List CorgiChar} (h : Reads a p k s ns k₁ r)
    (h' : Reads a' p k s ns' k₂ r') : ns = ns' ∧ k₁ = k₂ ∧ r = r' := by
  induction h generalizing ns' k₂ r' with
  | ordinary hc =>
    cases h' with
    | ordinary hc' => rw [hc] at hc'; cases hc'; exact ⟨rfl, rfl, rfl⟩
    | escape => exact absurd (by simp) (ordinaryNode_special hc)
    | «class» => exact absurd (by simp) (ordinaryNode_special hc)
    | group => exact absurd (by simp) (ordinaryNode_special hc)
  | escape =>
    cases h' with
    | ordinary hc' => exact absurd (by simp) (ordinaryNode_special hc')
    | escape => exact ⟨rfl, rfl, rfl⟩
  | «class» hc =>
    cases h' with
    | ordinary hc' => exact absurd (by simp) (ordinaryNode_special hc')
    | «class» hc' =>
      obtain ⟨rfl, rfl⟩ := hc.unique hc'
      exact ⟨rfl, rfl, rfl⟩
  | group _ _ _ ih =>
    cases h' with
    | ordinary hc' => exact absurd (by simp) (ordinaryNode_special hc')
    | group h' =>
      obtain ⟨rfl, rfl, hr⟩ := ih h'
      cases hr
      exact ⟨rfl, rfl, rfl⟩
  | once _ hq _ ih =>
    cases h' with
    | once h' =>
      obtain ⟨hn, rfl, rfl⟩ := ih h'
      exact ⟨hn, rfl, rfl⟩
    | repeated h' hq' =>
      obtain ⟨-, -, rfl⟩ := ih h'
      rw [hq] at hq'
      cases hq'
  | repeated _ hq _ ih =>
    cases h' with
    | once h' hq' =>
      obtain ⟨-, -, rfl⟩ := ih h'
      rw [hq] at hq'
      cases hq'
    | repeated h' hq' =>
      obtain ⟨hn, rfl, rfl⟩ := ih h'
      rw [hq] at hq'
      cases hn
      cases hq'
      exact ⟨rfl, rfl, rfl⟩
  | nil hs =>
    cases h' with
    | nil => exact ⟨rfl, rfl, rfl⟩
    | cons hi => exact absurd hs (not_stops_of_reads hi (.inr rfl))
  | cons hi _ ihi ihs =>
    cases h' with
    | nil hs => exact absurd hs (not_stops_of_reads hi (.inr rfl))
    | cons hi' hs' =>
      obtain ⟨hn, rfl, rfl⟩ := ihi hi'
      obtain ⟨rfl, rfl, rfl⟩ := ihs hs'
      cases hn
      exact ⟨rfl, rfl, rfl⟩
  | one _ hr ih =>
    cases h' with
    | one h' => exact ih h'
    | more h' =>
      obtain ⟨-, -, rfl⟩ := ih h'
      exact absurd rfl hr
  | more _ _ _ ihl ihr =>
    cases h' with
    | one h' hr =>
      obtain ⟨-, -, rfl⟩ := ihl h'
      exact absurd rfl hr
    | more hl hr =>
      obtain ⟨rfl, rfl, hs⟩ := ihl hl
      cases hs
      obtain ⟨rfl, rfl, rfl⟩ := ihr hr
      exact ⟨rfl, rfl, rfl⟩

theorem Documented.unique {pattern : List CorgiChar} {ns ns' : List Node}
    (h : Documented pattern ns) (h' : Documented pattern ns') : ns = ns' := by
  obtain ⟨k, h⟩ := h
  obtain ⟨k', h'⟩ := h'
  exact (h.unique h').1

/-- A pattern that breaks off has no meaning. -/
theorem Breaks.not_reads {p : Production} {k : ℕ} {s : List CorgiChar} (hb : Breaks p k s)
    {ns : List Node} {k' : ℕ} {r : List CorgiChar} : ¬ Reads a p k s ns k' r := by
  induction hb generalizing ns k' r with
  | escape =>
    intro h
    cases h with
    | ordinary hc => exact absurd (by simp) (ordinaryNode_special hc)
  | «class» hb =>
    intro h
    cases h with
    | ordinary hc => exact absurd (by simp) (ordinaryNode_special hc)
    | «class» hc => exact hb.not_class hc
  | group _ _ ih =>
    intro h
    cases h with
    | ordinary hc => exact absurd (by simp) (ordinaryNode_special hc)
    | group h => exact ih h
  | item _ ih =>
    intro h
    cases h with
    | once h => exact ih h
    | repeated h => exact ih h
  | here hb ih =>
    intro h
    cases h with
    | nil hs => exact hb.not_stops (.inr rfl) hs
    | cons h => exact ih h
  | later hi _ ih =>
    intro h
    cases h with
    | nil hs => exact not_stops_of_reads hi (.inr rfl) hs
    | cons hi' hs =>
      obtain ⟨-, rfl, rfl⟩ := hi.unique hi'
      exact ih hs
  | left _ ih =>
    intro h
    cases h with
    | one h => exact ih h
    | more h => exact ih h
  | right hl _ _ ih =>
    intro h
    cases h with
    | one h hr =>
      obtain ⟨-, -, rfl⟩ := hl.unique h
      exact hr rfl
    | more hl' hr =>
      obtain ⟨-, rfl, hs⟩ := hl.unique hl'
      cases hs
      cases hr with
      | one h => exact ih h
      | more h => exact ih h

end Corgi

end Yog
