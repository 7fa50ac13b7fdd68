import Yog.Proofs.HashTable
import Yog.Symbols

/-!
# Symbols and strings

As long as nobody changes a string that came back from a symbol, the tables hold the clones of the
strings that were interned, each with an ID of its own (`Inv`), whatever happens to the other
strings and in whatever order the threads come. The string that came back is the clone itself: to
change it changes the name of the symbol.
-/

namespace Yog

namespace Symbols

open Keyed

variable {Thread : Type}

/-- What the symbols are for. -/
structure Faithful (s : State Thread) : Prop where
  same : ∀ {chars chars' id id'}, (chars, id) ∈ s.answers → (chars', id') ∈ s.answers →
    (id = id' ↔ chars = chars')
  back : ∀ {chars id}, (chars, id) ∈ s.answers →
    ∃ a, s.id2name.lookup id = some a ∧ (s.object a).chars = chars
  unused : ∀ {chars id}, (chars, id) ∈ s.answers → id < s.nextId

/-- A string that came back from a symbol is not changed, and there is room for a new symbol. -/
def Proper (s : State Thread) : Action Thread → Prop
  | .write string chars => string ∈ s.returned → chars = (s.object string).chars
  | .add thread => ∀ string, s.interning thread = some string →
    (∃ id, ((s.object string).chars, id) ∈ s.answers) ∨ s.nextId < 6 * Table.largest
  | _ => True

@[simp] theorem typeString_compare {a b : StringObj} :
    typeString.compare a b = true ↔ a.chars = b.chars := by
  simp [typeString]

@[simp] theorem typeSymbol_compare {a b : ID} : typeSymbol.compare a b = true ↔ a = b := by
  simp [typeSymbol]

theorem typeString_lawful : typeString.Lawful where
  equiv := {
    refl := by simp
    symm := by simp +contextual
    trans := by simp +contextual }
  hash h := by
    rw [typeString_compare] at h
    simp [typeString, h]

theorem typeSymbol_lawful : typeSymbol.Lawful where
  equiv := {
    refl := by simp
    symm := by simp +contextual
    trans := by simp +contextual }
  hash h := by
    rw [typeSymbol_compare] at h
    rw [h]

namespace State

variable (s : State Thread)

/-- What was put into the first table for the symbols, the latest first. -/
def nameHistory (symbols : List (Address × ID)) : List (Change StringObj ID) :=
  symbols.map fun p => .bind (s.object p.1) p.2

end State

def idHistory (symbols : List (Address × ID)) : List (Change ID Address) :=
  symbols.map fun p => .bind p.2 p.1

/-- The tables hold the symbols: each is the address of its clone, and its ID. -/
structure Inv (s : State Thread) (symbols : List (Address × ID)) : Prop where
  names : Table.Inv typeString s.name2id (s.nameHistory symbols)
  ids : Table.Inv typeSymbol s.id2name (idHistory symbols)
  distinctNames : Distinct typeString.compare (fun p => s.object p.1) symbols
  distinctIds : Distinct typeSymbol.compare Prod.snd symbols
  fresh : ∀ p ∈ symbols, p.2 < s.nextId
  count : symbols.length = s.nextId
  keys : ∀ e ∈ s.name2id.entries, ∃ p ∈ symbols, e.key = s.object p.1
  answers : ∀ chars id, (chars, id) ∈ s.answers →
    ∃ p ∈ symbols, (s.object p.1).chars = chars ∧ p.2 = id
  hidden : ∀ p ∈ symbols, p.1 ∈ s.known → p.1 ∈ s.returned
  known : ∀ a ∈ s.known, a < s.strings.length
  clones : ∀ p ∈ symbols, p.1 < s.strings.length

variable {s s' : State Thread} {symbols : List (Address × ID)} {a : Action Thread}
  {es : List (Action Thread)} {name : StringObj} {id : ID} {chars : Chars}

namespace Inv

/-- A name is found exactly when there is a symbol of these characters. -/
theorem lookup_name_iff (h : Inv s symbols) :
    s.name2id.lookup name = some id
      ↔ ∃ p ∈ symbols, (s.object p.1).chars = name.chars ∧ p.2 = id := by
  rw [h.names.lookup_eq typeString_lawful, State.nameHistory,
    latest_binds (fun p : Address × ID => p.2), Option.map_eq_some_iff]
  constructor
  · rintro ⟨p, hf, hid⟩
    obtain ⟨hp, hk⟩ := (find_eq_some_iff typeString_lawful.equiv h.distinctNames).1 hf
    exact ⟨p, hp, (typeString_compare.1 hk).symm, hid⟩
  · rintro ⟨p, hp, hk, hid⟩
    refine ⟨p, (find_eq_some_iff typeString_lawful.equiv h.distinctNames).2 ⟨hp, ?_⟩, hid⟩
    exact typeString_compare.2 hk.symm

theorem lookup_id_iff (h : Inv s symbols) {a : Address} :
    s.id2name.lookup id = some a ↔ (a, id) ∈ symbols := by
  rw [h.ids.lookup_eq typeSymbol_lawful, idHistory,
    latest_binds (fun p : Address × ID => p.1), Option.map_eq_some_iff]
  constructor
  · rintro ⟨p, hf, rfl⟩
    obtain ⟨hp, hk⟩ := (find_eq_some_iff typeSymbol_lawful.equiv h.distinctIds).1 hf
    rwa [typeSymbol_compare.1 hk]
  · intro hp
    refine ⟨(a, id), (find_eq_some_iff typeSymbol_lawful.equiv h.distinctIds).2 ⟨hp, ?_⟩, rfl⟩
    exact typeSymbol_compare.2 rfl

/-- Symbols of the same characters, or of the same ID, are the same. -/
theorem same_iff (h : Inv s symbols) {p q : Address × ID} (hp : p ∈ symbols) (hq : q ∈ symbols) :
    p.2 = q.2 ↔ (s.object p.1).chars = (s.object q.1).chars := by
  constructor
  · intro he
    have hp' := h.lookup_id_iff.2 hp
    rw [he, h.lookup_id_iff.2 hq, Option.some.injEq] at hp'
    rw [hp']
  · intro he
    have hp' : s.name2id.lookup (s.object p.1) = some p.2 := h.lookup_name_iff.2 ⟨p, hp, rfl, rfl⟩
    have hq' : s.name2id.lookup (s.object p.1) = some q.2 :=
      h.lookup_name_iff.2 ⟨q, hq, he.symm, rfl⟩
    exact Option.some.inj (hp'.symm.trans hq')

theorem faithful (h : Inv s symbols) : Faithful s where
  same h₁ h₂ := by
    obtain ⟨p, hp, rfl, rfl⟩ := h.answers _ _ h₁
    obtain ⟨q, hq, rfl, rfl⟩ := h.answers _ _ h₂
    exact h.same_iff hp hq
  back h₁ := by
    obtain ⟨p, hp, rfl, rfl⟩ := h.answers _ _ h₁
    exact ⟨p.1, h.lookup_id_iff.2 hp, rfl⟩
  unused h₁ := by
    obtain ⟨p, hp, -, rfl⟩ := h.answers _ _ h₁
    exact h.fresh p hp

end Inv

theorem init_inv (h : start = .ok s) : Inv s [] := by
  obtain ⟨t, ht, hi⟩ := Table.inv_init (V := ID) typeString
  obtain ⟨t', ht', hi'⟩ := Table.inv_init (V := Address) typeSymbol
  unfold start at h
  rw [ht, ht'] at h
  obtain rfl := Except.ok.inj h
  have hnil : t.entries = [] := by
    have := hi.holds.length
    exact List.length_eq_zero_iff.1 this
  exact ⟨hi, hi', .nil, .nil, by simp, rfl, by simp [hnil], by simp, by simp, by simp, by simp⟩

namespace Inv

/-- Strings that are no clones can change, and new ones come; the tables stay. -/
theorem congr (h : Inv s symbols) (hname : s'.name2id = s.name2id) (hid : s'.id2name = s.id2name)
    (hnext : s'.nextId = s.nextId) (hobject : ∀ p ∈ symbols, s'.object p.1 = s.object p.1)
    (hanswers : ∀ chars id, (chars, id) ∈ s'.answers →
      ∃ p ∈ symbols, (s.object p.1).chars = chars ∧ p.2 = id)
    (hhidden : ∀ p ∈ symbols, p.1 ∈ s'.known → p.1 ∈ s'.returned)
    (hknown : ∀ a ∈ s'.known, a < s'.strings.length)
    (hlen : s.strings.length ≤ s'.strings.length) : Inv s' symbols where
  names := by
    have hh : s'.nameHistory symbols = s.nameHistory symbols :=
      List.map_congr_left fun p hp => by rw [hobject p hp]
    rw [hname, hh]
    exact h.names
  ids := by
    rw [hid]
    exact h.ids
  distinctNames := h.distinctNames.imp_of_mem fun {p q} hp hq hpq => by
    dsimp only
    rw [hobject p hp, hobject q hq]
    exact hpq
  distinctIds := h.distinctIds
  fresh p hp := by
    rw [hnext]
    exact h.fresh p hp
  count := h.count.trans hnext.symm
  keys e he := by
    rw [hname] at he
    obtain ⟨p, hp, hk⟩ := h.keys e he
    exact ⟨p, hp, by rw [hobject p hp, hk]⟩
  answers chars id ha := by
    obtain ⟨p, hp, hchars, hid⟩ := hanswers chars id ha
    exact ⟨p, hp, by rw [hobject p hp, hchars], hid⟩
  hidden := hhidden
  known := hknown
  clones p hp := (h.clones p hp).trans_le hlen

theorem create (h : Inv s symbols) (chars : Chars) : Inv { s with
    strings := s.strings ++ [chars]
    known := s.strings.length :: s.known } symbols := by
  have hobject : ∀ p ∈ symbols, (⟨p.1, (s.strings ++ [chars]).getD p.1 []⟩ : StringObj)
      = s.object p.1 := fun p hp => by
    rw [List.getD_append _ _ _ _ (h.clones p hp)]
    rfl
  refine h.congr rfl rfl rfl hobject h.answers (fun p hp hk => ?_) (fun a ha => ?_) (by simp)
  · rcases List.mem_cons.1 hk with he | hk
    · exact absurd (h.clones p hp) (by simp [he])
    · exact h.hidden p hp hk
  · rcases List.mem_cons.1 ha with rfl | ha
    · simp
    · simpa using (h.known a ha).trans (Nat.lt_succ_self _)

/-- No key is touched. -/
theorem rewrite_eq {string : Address} {t : Table StringObj ID}
    (hk : ∀ e ∈ t.entries, e.key.address = string → e.key = ⟨string, chars⟩) :
    State.rewrite string chars t = t := by
  have hchain : ∀ chain ∈ t.bins, (chain.map fun e =>
      if e.key.address = string then { e with key := ⟨string, chars⟩ } else e) = chain := by
    intro chain hchain
    refine (List.map_congr_left fun e he => ?_).trans (List.map_id _)
    have he : e ∈ t.entries := List.mem_flatten.2 ⟨chain, hchain, he⟩
    split_ifs with ha
    · rw [← hk e he ha]
      rfl
    · rfl
  unfold State.rewrite
  rw [(List.map_congr_left hchain).trans (List.map_id _)]

theorem write (h : Inv s symbols) {string : Address} (hk : string ∈ s.known)
    (hp : string ∈ s.returned → chars = (s.object string).chars) : Inv { s with
      strings := s.strings.set string chars
      name2id := State.rewrite string chars s.name2id } symbols := by
  have hclone : ∀ p ∈ symbols, p.1 = string → chars = (s.object p.1).chars := by
    rintro p hp' rfl
    exact hp (h.hidden p hp' hk)
  have hobject : ∀ p ∈ symbols, (⟨p.1, (s.strings.set string chars).getD p.1 []⟩ : StringObj)
      = s.object p.1 := by
    intro p hp'
    have hlt := h.clones p hp'
    unfold State.object
    rw [List.getD_eq_getElem _ _ (by simpa using hlt), List.getElem_set]
    split_ifs with he
    · rw [hclone p hp' he.symm]
      rfl
    · rw [List.getD_eq_getElem _ _ hlt]
  have hrewrite : State.rewrite string chars s.name2id = s.name2id := by
    refine rewrite_eq fun e he ha => ?_
    obtain ⟨p, hp', hkey⟩ := h.keys e he
    rw [hkey] at ha ⊢
    rw [hclone p hp' ha, ← ha]
  exact h.congr hrewrite rfl rfl hobject h.answers h.hidden (fun a ha => by
    simpa using h.known a ha) (by simp)

variable [DecidableEq Thread]

theorem answer (h : Inv s symbols) (thread : Thread) (hl : s.name2id.lookup name = some id) :
    Inv (s.answer thread name id) symbols := by
  refine h.congr rfl rfl rfl (fun _ _ => rfl) (fun chars id' ha => ?_) h.hidden h.known le_rfl
  rcases List.mem_cons.1 ha with he | ha
  · obtain ⟨rfl, rfl⟩ := Prod.mk.inj he
    exact h.lookup_name_iff.1 hl
  · exact h.answers chars id' ha

omit [DecidableEq Thread] in
theorem numEntries_names (h : Inv s symbols) : s.name2id.numEntries = s.nextId := by
  rw [← h.names.length_boundKeys, ← h.count]
  exact length_boundKeys_binds (fun p : Address × ID => p.2) h.distinctNames

omit [DecidableEq Thread] in
theorem numEntries_ids (h : Inv s symbols) : s.id2name.numEntries = s.nextId := by
  rw [← h.ids.length_boundKeys, ← h.count]
  exact length_boundKeys_binds (fun p : Address × ID => p.1) h.distinctIds

/-- A new symbol gets an ID that none has had. -/
theorem addSymbol (h : Inv s symbols) (thread : Thread) (hn : s.name2id.lookup name = none)
    (hroom : s.nextId < 6 * Table.largest) : ∃ s', s.addSymbol thread name = .ok s'
      ∧ Inv s' ((s.strings.length, s.nextId) :: symbols) := by
  have hnew : ∀ p ∈ symbols, ¬(s.object p.1).chars = name.chars := fun p hp he => by
    rw [h.lookup_name_iff.2 ⟨p, hp, he, rfl⟩] at hn
    cases hn
  have hname : latest typeString.compare (s.nameHistory symbols) ⟨s.strings.length, name.chars⟩
      = none := by
    rw [← hn, h.names.lookup_eq typeString_lawful]
    exact latest_congr typeString_lawful.equiv (typeString_compare.2 rfl)
  have hid : latest typeSymbol.compare (idHistory symbols) s.nextId = none := by
    rw [← h.ids.lookup_eq typeSymbol_lawful, Option.eq_none_iff_forall_ne_some]
    intro a ha
    exact lt_irrefl _ (h.fresh _ (h.lookup_id_iff.1 ha))
  obtain ⟨t, ht, hi, hperm⟩ := h.names.addDirect_ok typeString_lawful s.nextId hname
    (by rwa [h.numEntries_names])
  obtain ⟨t', ht', hi', -⟩ := h.ids.addDirect_ok typeSymbol_lawful s.strings.length hid
    (by rwa [h.numEntries_ids])
  obtain ⟨s', hs', hobject, hclone, heq⟩ : ∃ s', s.addSymbol thread name = .ok s' ∧
      (∀ p ∈ symbols, s'.object p.1 = s.object p.1) ∧
      s'.object s.strings.length = ⟨s.strings.length, name.chars⟩ ∧
      s' = { s.answer thread name s.nextId with
        strings := s.strings ++ [name.chars]
        name2id := t
        id2name := t'
        nextId := s.nextId + 1 } := by
    refine ⟨_, ?_, fun p hp => ?_, ?_, rfl⟩
    · unfold State.addSymbol
      simp only [ht, ht', bind, Except.bind]
      rfl
    · simp [State.object, List.getElem?_append_left (h.clones p hp)]
    · simp [State.object]
  have hnext : s'.nextId = s.nextId + 1 := by rw [heq]
  have hstrings : s'.strings.length = s.strings.length + 1 := by simp [heq]
  refine ⟨s', hs', ?_⟩
  constructor
  · have hh : s'.nameHistory symbols = s.nameHistory symbols :=
      List.map_congr_left fun p hp => by rw [hobject p hp]
    rw [State.nameHistory, List.map_cons, hclone, ← State.nameHistory, hh, heq]
    exact hi
  · rw [heq]
    exact hi'
  · refine distinct_cons.2 ⟨fun p hp => ?_, h.distinctNames.imp_of_mem fun {p q} hp hq hpq => ?_⟩
    · rw [hclone, hobject p hp]
      exact Bool.eq_false_iff.2 fun he => hnew p hp (typeString_compare.1 he).symm
    · dsimp only
      rw [hobject p hp, hobject q hq]
      exact hpq
  · refine distinct_cons.2 ⟨fun p hp => Bool.eq_false_iff.2 fun he => ?_, h.distinctIds⟩
    have hlt := h.fresh p hp
    rw [← typeSymbol_compare.1 he] at hlt
    exact lt_irrefl _ hlt
  · intro p hp
    rw [hnext]
    rcases List.mem_cons.1 hp with rfl | hp
    · exact Nat.lt_succ_self _
    · exact (h.fresh p hp).trans (Nat.lt_succ_self _)
  · rw [List.length_cons, h.count, hnext]
  · intro e he
    rw [heq] at he
    rcases List.mem_cons.1 (hperm.mem_iff.1 he) with rfl | he
    · exact ⟨_, List.mem_cons_self, hclone.symm⟩
    · obtain ⟨p, hp, hk⟩ := h.keys e he
      exact ⟨p, List.mem_cons_of_mem _ hp, by rw [hobject p hp, hk]⟩
  · intro chars id ha
    rw [heq] at ha
    rcases List.mem_cons.1 ha with he | ha
    · obtain ⟨rfl, rfl⟩ := Prod.mk.inj he
      exact ⟨_, List.mem_cons_self, by rw [hclone], rfl⟩
    · obtain ⟨p, hp, hchars, hid⟩ := h.answers chars id ha
      exact ⟨p, List.mem_cons_of_mem _ hp, by rw [hobject p hp, hchars], hid⟩
  · intro p hp hk
    rw [heq] at hk ⊢
    rcases List.mem_cons.1 hp with rfl | hp
    · exact absurd (h.known _ hk) (lt_irrefl _)
    · exact h.hidden p hp hk
  · intro a ha
    rw [heq] at ha
    rw [hstrings]
    exact (h.known a ha).trans (Nat.lt_succ_self _)
  · intro p hp
    rw [hstrings]
    rcases List.mem_cons.1 hp with rfl | hp
    · exact Nat.lt_succ_self _
    · exact (h.clones p hp).trans (Nat.lt_succ_self _)

end Inv

/-- What is proper goes through, and keeps the tables. -/
theorem exec_ok [DecidableEq Thread] (h : Inv s symbols) (he : s.Enabled a) (hp : Proper s a) :
    ∃ s', s.exec a = .ok s' ∧ ∃ symbols', Inv s' symbols' := by
  cases a with
  | create chars => exact ⟨_, rfl, symbols, h.create chars⟩
  | write string chars => exact ⟨_, rfl, symbols, h.write he hp⟩
  | find thread string =>
    simp only [State.exec]
    rcases hl : s.name2id.lookup (s.object string) with _ | id
    · exact ⟨_, rfl, symbols,
        h.congr rfl rfl rfl (fun _ _ => rfl) h.answers h.hidden h.known le_rfl⟩
    · exact ⟨_, rfl, symbols, h.answer thread hl⟩
  | add thread =>
    obtain ⟨string, hstring⟩ := Option.ne_none_iff_exists'.1 he
    simp only [State.exec, hstring]
    rcases hl : s.name2id.lookup (s.object string) with _ | id
    · have hroom : s.nextId < 6 * Table.largest := by
        refine (hp string hstring).resolve_left fun ⟨id, ha⟩ => ?_
        rw [h.lookup_name_iff.2 (h.answers _ _ ha)] at hl
        cases hl
      obtain ⟨s', hs', hi⟩ := h.addSymbol thread hl hroom
      exact ⟨s', by rw [hs']; rfl, _, hi⟩
    · exact ⟨_, rfl, symbols, h.answer thread hl⟩
  | toS id =>
    obtain ⟨chars, ha⟩ := he
    obtain ⟨p, hmem, -, rfl⟩ := h.answers _ _ ha
    have hl := h.lookup_id_iff.2 hmem
    simp only [State.exec, hl]
    refine ⟨_, rfl, symbols, h.congr rfl rfl rfl (fun _ _ => rfl) h.answers (fun q hq hk => ?_)
      (fun b hb => ?_) le_rfl⟩
    · rcases List.mem_cons.1 hk with he | hk
      · exact he ▸ List.mem_cons_self
      · exact List.mem_cons_of_mem _ (h.hidden q hq hk)
    · rcases List.mem_cons.1 hb with rfl | hb
      · exact h.clones p hmem
      · exact h.known b hb

section Runs

variable [DecidableEq Thread] {s₀ : State Thread}

theorem run_inv (h : start = .ok s₀) (hr : Run (Only Proper Step) s₀ es s) :
    ∃ symbols, Inv s symbols := by
  refine hr.invariant (I := fun s => ∃ symbols, Inv s symbols) (fun s a s' hi hs => ?_)
    ⟨[], init_inv h⟩
  obtain ⟨symbols, hi⟩ := hi
  obtain ⟨hp, he, hs⟩ := hs
  obtain ⟨s'', hs'', hi'⟩ := exec_ok hi he hp
  rw [hs] at hs''
  obtain rfl := Except.ok.inj hs''
  exact hi'

/-- **Symbols and strings.** As long as no string that came back from a symbol is changed, and there
is room in the tables, symbols and strings correspond one to one, whatever the threads do, and no
request fails. -/
theorem faithful_of_proper (h : start = .ok s₀) (hr : Run (Only Proper Step) s₀ es s) :
    Faithful s ∧ ∀ a, s.Enabled a → Proper s a → ∃ s', s.exec a = .ok s' := by
  obtain ⟨symbols, hi⟩ := run_inv h hr
  refine ⟨hi.faithful, fun a he hp => ?_⟩
  obtain ⟨s', hs', -⟩ := exec_ok hi he hp
  exact ⟨s', hs'⟩

end Runs

def charsA : Chars := [toYogChar 0x61]

def charsB : Chars := [toYogChar 0x62]

/-- The string `a` is interned, and the symbol is made a string. -/
def throughSymbol : List (Action Unit) := [.create charsA, .find () 0, .add (), .toS 0]

theorem run_throughSymbol : ∃ s₀ s : State Unit, start = .ok s₀ ∧
    Run (Only Proper Step) s₀ throughSymbol s ∧ s.answers = [(charsA, 0)] ∧ s.known = [1, 0] ∧
      s.strings = [charsA, charsA] ∧ s.id2name.lookup 0 = some 1 := by
  refine ⟨_, _, rfl, .cons ⟨trivial, trivial, rfl⟩ (.cons ⟨trivial, ⟨by decide, rfl⟩, rfl⟩
    (.cons ⟨fun _ _ => .inr ?_, ?_, rfl⟩ (.cons ⟨trivial, ?_, rfl⟩ (.nil _)))), rfl, rfl, rfl, rfl⟩
  · exact (by decide : 0 < 6 * Table.largest)
  · exact Option.some_ne_none 0
  · exact ⟨charsA, List.mem_cons_self⟩

/-- The string has the same characters after it, and the symbol still is of this string. -/
theorem faithful_throughSymbol : ∃ s₀ s : State Unit, start = .ok s₀ ∧
    Run (Only Proper Step) s₀ throughSymbol s ∧
      Faithful s ∧ ∀ a, s.Enabled a → Proper s a → ∃ s', s.exec a = .ok s' := by
  obtain ⟨s₀, s, h, hr, -⟩ := run_throughSymbol
  exact ⟨s₀, s, h, hr, faithful_of_proper h hr⟩

/-- The string that came back is changed, and the symbol becomes one of another string. -/
theorem not_faithful_written : ¬∀ (s₀ s : State Unit) (es : List (Action Unit)),
    start = .ok s₀ → Run Step s₀ es s → Faithful s := by
  intro hall
  obtain ⟨s₀, s, h, hr, hanswers, hknown, hstrings, hid⟩ := run_throughSymbol
  have hw : Run Step s₀ (throughSymbol ++ [.write 1 charsB]) _ :=
    hr.only.snoc ⟨by simp [State.Enabled, hknown], rfl⟩
  have hf := hall _ _ _ h hw
  have hmem : (charsA, 0) ∈ s.answers := by
    rw [hanswers]
    exact List.mem_cons_self
  obtain ⟨a, ha, hchars⟩ := hf.back hmem
  obtain rfl := Option.some.inj (hid.symm.trans ha)
  rw [State.object, hstrings] at hchars
  have hne : ([charsA, charsA].set 1 charsB).getD 1 [] ≠ charsA := by decide
  exact hne hchars

end Symbols

end Yog
