import Yog.Proofs.Engine

/-!
# Compiled regular expressions match what they mean

The engine takes the leaves of a tree for what they are compiled to: in a class a literal has no
form that ignores the case, and a range none that is meant for it. Where a search comes to no class
that this makes different, nor to a number that is cut off or a group whose marks the engine has no
room for, the code matches what the tree does (`preserved_of_sane`).
-/

namespace Yog

namespace Corgi

section Sane

variable (unicode : Unicode) (ic : Bool)

/-- Up to the member it finds a character in, the set has no anchor, and if case is to be ignored
no literal and no range that has the character in another case only. -/
def SetSane : List SetNode → CorgiChar → Prop
  | [], _ => True
  | .at _ :: _, _ => False
  | .category type :: set, ch => unicode.sreCategory type ch = false → SetSane set ch
  | .literal c :: set, ch => ic = false ∧ (ch ≠ c → SetSane set ch)
  | .negate :: set, ch => SetSane set ch
  | .range low high :: set, ch =>
    (rangeMatches unicode ic low high ch = true → low ≤ ch ∧ ch ≤ high) ∧
      (¬ (low ≤ ch ∧ ch ≤ high) → SetSane set ch)

/-- What a search comes to next is compiled to what it means. -/
def Sane (subject : List CorgiChar) : Config → Prop
  | (.node (.in set) :: _, p) => ∀ ch, subject[p]? = some ch → SetSane unicode ic set ch
  | (.node (.maxRepeat min max _) :: _, _) => min < 2 ^ 32 ∧ max < 2 ^ 32
  | (.node (.minRepeat min max _) :: _, _) => min < 2 ^ 32 ∧ max < 2 ^ 32
  | (.node (.subpattern groupId _ _) :: _, _) => groupId < 100
  | _ => True

variable {unicode ic}

theorem rangeMatches_of_mem {low high ch : CorgiChar} (h : low ≤ ch ∧ ch ≤ high) :
    rangeMatches unicode ic low high ch = true := by
  unfold rangeMatches
  split_ifs
  · refine List.any_eq_true.2 ⟨ch, List.mem_range'_1.2 ⟨h.1, ?_⟩, by simp⟩
    have hle : ∀ l c u : ℕ, l ≤ c → c ≤ u → c < l + (u + 1 - l) := by omega
    exact hle low ch high h.1 h.2
  · simpa using h

theorem charsetMatches_eq {set : List SetNode} {ch : CorgiChar} (h : SetSane unicode ic set ch)
    (ok : Bool) :
    charsetMatches unicode ic set ch ok = some (setMatches unicode ic set ch ok) := by
  induction set generalizing ok with
  | nil => rfl
  | cons m set ih =>
    cases m with
    | «at» type => exact h.elim
    | category type =>
      by_cases hm : unicode.sreCategory type ch = true
      · simp [charsetMatches, setMatches, hm]
      · simp [charsetMatches, setMatches, hm, ih (h (by simpa using hm))]
    | literal c =>
      obtain ⟨rfl, h⟩ := h
      by_cases hm : ch = c
      · simp [charsetMatches, setMatches, literalMatches, hm]
      · simp [charsetMatches, setMatches, literalMatches, hm, ih (h hm)]
    | negate => exact ih h _
    | range low high =>
      obtain ⟨hr, h⟩ := h
      by_cases hm : low ≤ ch ∧ ch ≤ high
      · simp only [charsetMatches, setMatches, if_pos hm, rangeMatches_of_mem hm, if_true]
      · have hr : rangeMatches unicode ic low high ch = false := by
          simpa using fun hr' => hm (hr hr')
        simp only [charsetMatches, setMatches, if_neg hm, hr, Bool.false_eq_true, if_false,
          ih (h hm)]

theorem next_eq_of_sane {subject : List CorgiChar} {x : Config}
    (h : Sane unicode ic subject x) :
    next (engineMeaning unicode ic) subject x = next (meaning unicode ic) subject x := by
  obtain ⟨_ | ⟨n | ⟨greedy, min, max, body, count, last⟩, ts⟩, p⟩ := x
  · rfl
  · cases n with
    | any | «at» | branch | literal => rfl
    | «in» set =>
      simp only [next, charStep]
      rcases hch : subject[p]? with _ | ch
      · rfl
      · simp only [engineMeaning, meaning, charsetMatches_eq (h ch hch)]
    | maxRepeat min max body =>
      simp only [next, engineMeaning, meaning, toCode_of_lt h.1, toCode_of_lt h.2]
    | minRepeat min max body =>
      simp only [next, engineMeaning, meaning, toCode_of_lt h.1, toCode_of_lt h.2]
    | subpattern groupId name ns =>
      have hroom : ∀ n : ℕ, n < 100 → 2 * n % 2 ^ 32 < 200 := by omega
      have hg : (engineMeaning unicode ic).group groupId = true := decide_eq_true (hroom groupId h)
      simp only [next, hg, if_true]
      rfl
  · rfl

/-- Of what a tree means it can be told whether it matches. -/
theorem ne_fault {subject : List CorgiChar} {x : Config} {r : Option Answer}
    (h : Backtracking.Search (next (meaning unicode ic) subject) x r) : r ≠ some .fault := by
  induction h with
  | @accept x a hs =>
    rintro ⟨⟩
    obtain ⟨_ | ⟨n | ⟨greedy, min, max, body, count, last⟩, ts⟩, p⟩ := x
    · cases hs
    · have hchar : ∀ test : CorgiChar → Bool,
          charStep subject (fun ch => some (test ch)) ts p ≠ .accept .fault := fun test hc => by
        unfold charStep at hc
        rcases hch : subject[p]? with _ | ch
        · simp [hch] at hc
        · cases htest : test ch <;> simp [hch, htest] at hc
      cases n with
      | any => exact hchar _ hs
      | «in» set => exact hchar _ hs
      | literal c => exact hchar _ hs
      | «at» type =>
        simp only [next] at hs
        split_ifs at hs
      | branch | maxRepeat | minRepeat | subpattern => cases hs
    · simp only [next] at hs
      split_ifs at hs
  | fail => simp
  | goto _ _ ih => exact ih
  | left _ _ ih => exact ih
  | right _ _ _ _ ih => exact ih

end Sane

/-- The code of a tree matches at `start` what the tree does. -/
structure Preserved (unicode : Unicode) (ic : Bool) (ns : List Node) (code : List CorgiCode)
    (subject : List CorgiChar) (start : ℕ) : Prop where
  found : ∀ q, Matches (meaning unicode ic) subject ns start (some (.found q)) ↔
    ∃ n after, sreMatch unicode code subject n 0 start (initState start) = some (.success, after) ∧
      after.ptr = q
  failed : Matches (meaning unicode ic) subject ns start none ↔
    ∃ n after, sreMatch unicode code subject n 0 start (initState start) = some (.failure, after)
  ret : ∀ n ret after, sreMatch unicode code subject n 0 start (initState start) =
    some (ret, after) → ret = .success ∨ ret = .failure

/-- A pattern is compiled, and where its search comes to nothing that is compiled to something else
its code matches what it does. -/
theorem preserved_of_sane (unicode : Unicode) (ic : Bool) {pattern : List CorgiChar}
    {ns : List Node} {c : Compiler} {rest : List CorgiChar} (hp : parse pattern = .ok (ns, c, rest))
    {subject : List CorgiChar} {start : ℕ} :
    ∃ code, compile ic ns = some code ∧ (code.length < 2 ^ 32 →
      (∀ x, Backtracking.Visits (next (meaning unicode ic) subject) (ns.map .node, start) x →
        Sane unicode ic subject x) →
      Preserved unicode ic ns code subject start) := by
  refine ⟨_, compile_built (parse_built hp), fun hlen hsane => ?_⟩
  have hfits := fits_start ic ns start
  have hsame : ∀ r, Backtracking.Search (next (engineMeaning unicode ic) subject)
      (ns.map .node, start) r ↔ Matches (meaning unicode ic) subject ns start r := fun r =>
    Backtracking.search_congr fun y hy => next_eq_of_sane (hsane y hy)
  have hiff := fun r => (hsame r).symm.trans (sreMatch_iff hlen hfits)
  refine ⟨fun q => ?_, ?_, fun n ret after h => ?_⟩
  · rw [hiff]
    constructor
    · rintro ⟨n, ret, after, h, rfl, hq⟩
      exact ⟨n, after, h, hq⟩
    · rintro ⟨n, after, h, hq⟩
      exact ⟨n, _, after, h, rfl, hq⟩
  · rw [hiff]
    constructor
    · rintro ⟨n, ret, after, h, rfl, -⟩
      exact ⟨n, after, h⟩
    · rintro ⟨n, after, h⟩
      obtain ⟨r, hr, hy⟩ := sreMatch_sound hlen n hfits h
      rcases r with _ | a
      · exact ⟨n, _, after, h, hy⟩
      · exact absurd rfl hy.ne_failure
  · obtain ⟨r, hr, hy⟩ := sreMatch_sound hlen n hfits h
    rcases r with _ | q | _
    · exact .inr hy.1
    · exact .inl hy.1
    · exact absurd rfl (ne_fault ((hsame _).1 hr))

section Static

variable {unicode : Unicode} {ic : Bool} {subject : List CorgiChar}

mutual

/-- Whatever a search comes to in the node is compiled to what it means. -/
def Node.Sane (unicode : Unicode) (ic : Bool) : Node → Prop
  | .any | .at _ | .literal _ => True
  | .branch left right => ChainSane unicode ic left ∧ ChainSane unicode ic right
  | .in set => ∀ ch, SetSane unicode ic set ch
  | .maxRepeat min max body | .minRepeat min max body =>
    min < 2 ^ 32 ∧ max < 2 ^ 32 ∧ body.Sane unicode ic
  | .subpattern groupId _ node => groupId < 100 ∧ ChainSane unicode ic node

def ChainSane (unicode : Unicode) (ic : Bool) : List Node → Prop
  | [] => True
  | n :: next => n.Sane unicode ic ∧ ChainSane unicode ic next

end

def Task.Sane (unicode : Unicode) (ic : Bool) : Task → Prop
  | .node n => n.Sane unicode ic
  | .loop _ _ _ body _ _ => body.Sane unicode ic

theorem taskSane_of_chainSane {ns : List Node} (h : ChainSane unicode ic ns) :
    ∀ t ∈ ns.map Task.node, t.Sane unicode ic := by
  induction ns with
  | nil => simp
  | cons n ns ih =>
    intro t ht
    rcases List.mem_cons.1 ht with rfl | ht
    · exact h.1
    · exact ih h.2 t ht

theorem charStep_leads {test : CorgiChar → Option Bool} {ts : List Task} {p : ℕ} {y : Config}
    (h : (charStep subject test ts p).Leads y) : y.1 = ts := by
  unfold charStep at h
  split at h
  · exact h.elim
  · split at h
    · exact h.elim
    · rw [show y = (ts, p + 1) from h]
    · exact h.elim

/-- What may be searched next consists of parts of what is there. -/
theorem leads_sane {m : Meaning} {x y : Config} (hx : ∀ t ∈ x.1, t.Sane unicode ic)
    (h : (next m subject x).Leads y) : ∀ t ∈ y.1, t.Sane unicode ic := by
  obtain ⟨_ | ⟨t, ts⟩, p⟩ := x
  · exact h.elim
  · have ht := hx t (List.mem_cons_self ..)
    have hts : ∀ t ∈ ts, t.Sane unicode ic := fun t h => hx t (List.mem_cons_of_mem _ h)
    have hchain : ∀ ns, ChainSane unicode ic ns →
        ∀ t ∈ ns.map Task.node ++ ts, t.Sane unicode ic := fun ns hns t h =>
      (List.mem_append.1 h).elim (taskSane_of_chainSane hns t) (hts t)
    have hcons : ∀ t : Task, t.Sane unicode ic → ∀ u ∈ t :: ts, u.Sane unicode ic := fun t ht u h =>
      (List.mem_cons.1 h).elim (fun h => h ▸ ht) (hts u)
    cases t with
    | node n =>
      cases n with
      | any | «in» | literal =>
        rw [charStep_leads h]
        exact hts
      | «at» type =>
        simp only [next] at h
        split_ifs at h
        · rw [show y = (ts, p) from h]
          exact hts
        · exact h.elim
      | branch left right =>
        rcases h with rfl | rfl
        · exact hchain left ht.1
        · exact hchain right ht.2
      | maxRepeat min max body =>
        rw [show y = _ from h]
        exact hcons _ ht.2.2
      | minRepeat min max body =>
        rw [show y = _ from h]
        exact hcons _ ht.2.2
      | subpattern groupId name ns =>
        simp only [next] at h
        split_ifs at h
        · rw [show y = (ns.map .node ++ ts, p) from h]
          exact hchain ns ht.2
        · exact h.elim
    | loop greedy min max body count last =>
      have hagain : ∀ last,
          ∀ t ∈ Task.node body :: .loop greedy min max body (count + 1) last :: ts,
            t.Sane unicode ic := fun last t h =>
        (List.mem_cons.1 h).elim (fun h => h ▸ ht)
          (hcons (.loop greedy min max body (count + 1) last) ht t)
      simp only [next] at h
      split_ifs at h
      · rw [show y = _ from h]
        exact hagain last
      · rcases h with rfl | rfl
        · exact hagain (some p)
        · exact hts
      · rw [show y = _ from h]
        exact hts
      · rcases h with rfl | rfl
        · exact hts
        · exact hagain (some p)
      · rw [show y = _ from h]
        exact hts

theorem sane_of_tasks {x : Config} (h : ∀ t ∈ x.1, t.Sane unicode ic) :
    Corgi.Sane unicode ic subject x := by
  obtain ⟨_ | ⟨t, ts⟩, p⟩ := x
  · trivial
  · have ht := h t (List.mem_cons_self ..)
    cases t with
    | node n =>
      cases n with
      | any | «at» | branch | literal => trivial
      | «in» set => exact fun ch _ => ht ch
      | maxRepeat min max body => exact ⟨ht.1, ht.2.1⟩
      | minRepeat min max body => exact ⟨ht.1, ht.2.1⟩
      | subpattern groupId name ns => exact ht.1
    | loop => trivial

/-- A search for such a tree comes to nothing that is compiled to something else. -/
theorem visits_sane {m : Meaning} {ns : List Node} (h : ChainSane unicode ic ns) {start : ℕ}
    {x : Config} (hx : Backtracking.Visits (next m subject) (ns.map .node, start) x) :
    Corgi.Sane unicode ic subject x :=
  sane_of_tasks (Backtracking.Visits.invariant (fun _ _ => leads_sane) hx (taskSane_of_chainSane h))

/-- If case counts, a set without anchors is tested as it is meant. -/
theorem setSane_of_case {set : List SetNode} (h : ∀ type, SetNode.at type ∉ set)
    (ch : CorgiChar) : SetSane unicode false set ch := by
  induction set with
  | nil => trivial
  | cons m set ih =>
    have ih := ih fun type ht => h type (List.mem_cons_of_mem _ ht)
    cases m with
    | «at» type => exact h type (List.mem_cons_self ..)
    | category type => exact fun _ => ih
    | literal c => exact ⟨rfl, fun _ => ih⟩
    | negate => exact ih
    | range low high =>
      refine ⟨fun hr => ?_, fun _ => ih⟩
      simpa [rangeMatches] using hr

end Static

/-- Letters of ASCII, and nothing else. -/
def asciiUnicode : Unicode where
  isSpace c := c = ' '.toNat
  isDecimal c := '0'.toNat ≤ c ∧ c ≤ '9'.toNat
  isDigit c := '0'.toNat ≤ c ∧ c ≤ '9'.toNat
  isNumeric c := '0'.toNat ≤ c ∧ c ≤ '9'.toNat
  isAlpha c := ('a'.toNat ≤ c ∧ c ≤ 'z'.toNat) ∨ ('A'.toNat ≤ c ∧ c ≤ 'Z'.toNat)
  tolower c := if 'A'.toNat ≤ c ∧ c ≤ 'Z'.toNat then c + 32 else c

/-- A class of one range. -/
def rangeClass (low high : Char) : List CorgiChar :=
  ['['.toNat, low.toNat, '-'.toNat, high.toNat, ']'.toNat]

/-- If case counts, a range matches as it is meant. -/
theorem preserved_range : ∃ code, compile false [.in [.range 65 90]] = some code ∧
    Preserved asciiUnicode false [.in [.range 65 90]] code ['a'.toNat] 0 := by
  have hp : parse (rangeClass 'A' 'Z') = .ok ([.in [.range 65 90]], ⟨0, []⟩, []) := rfl
  obtain ⟨code, hcode, h⟩ := preserved_of_sane asciiUnicode false hp
  have hsane : ChainSane asciiUnicode false [.in [.range 65 90]] :=
    ⟨setSane_of_case (by simp), trivial⟩
  cases hcode
  exact ⟨_, rfl, h (by decide) fun x hx => visits_sane hsane hx⟩

/-- A range of upper letters takes no lower one. -/
theorem not_preserved_range : ∃ ns c rest code,
    parse (rangeClass 'A' 'Z') = .ok (ns, c, rest) ∧ compile true ns = some code ∧
      ¬ Preserved asciiUnicode true ns code ['a'.toNat] 0 := by
  refine ⟨[.in [.range 65 90]], _, _, _, rfl, rfl, fun h => ?_⟩
  have hnext : next (meaning asciiUnicode true) ['a'.toNat] ([.node (.in [.range 65 90])], 0) =
      .goto ([], 1) := rfl
  obtain ⟨n, after, hn, -⟩ := (h.found 1).1 (.goto hnext (.accept rfl))
  cases n with
  | zero => cases hn
  | succ n => cases hn

end Corgi

end Yog
