import Yog.Lib.Chain
import Yog.Class

/-!
# Where `super` goes

The frame of a method carries a class, and `load_super` searches what follows it. The search is
right when that class is the one the running definition was found in. Only the lookup from C hands
on that class; every other way hands on the class of the receiver. So the class is right for the
first call of `super` when the method was looked up from C or the receiver's own class defines it,
and for no later one: the definition found after the receiver's class is then found again and again.
-/

namespace Yog

variable {κ : Type}

namespace YogClass

/-- The receiver's chain of classes and included modules. -/
def chain : YogClass κ → List (YogClass κ)
  | root attrs => [root attrs]
  | sub attrs super => sub attrs super :: super.chain

def Defines (name : ID) (self : YogClass κ) : Bool := (self.attrs.lookup name).isSome

theorem chain_eq (self : YogClass κ) :
    self.chain = self :: (self.super.map chain).getD [] := by
  cases self <;> rfl

/-- The lookup finds the first node of the chain that defines the name. -/
theorem getAttrAndDefiningClass_eq (name : ID) : ∀ self : YogClass κ,
    self.getAttrAndDefiningClass name
      = (self.chain.find? (Defines name)).bind fun c => (c.attrs.lookup name).map (·, c)
  | root attrs => by
    unfold getAttrAndDefiningClass chain
    rcases h : attrs.lookup name with _ | attr
    · rw [List.find?_cons_of_neg (by simp [Defines, YogClass.attrs, h])]
      rfl
    · rw [List.find?_cons_of_pos (by simp [Defines, YogClass.attrs, h])]
      exact (congrArg (Option.map (·, root attrs)) h).symm
  | sub attrs super => by
    unfold getAttrAndDefiningClass chain
    rcases h : attrs.lookup name with _ | attr
    · rw [List.find?_cons_of_neg (by simp [Defines, YogClass.attrs, h])]
      exact getAttrAndDefiningClass_eq name super
    · rw [List.find?_cons_of_pos (by simp [Defines, YogClass.attrs, h])]
      exact (congrArg (Option.map (·, sub attrs super)) h).symm

theorem getAttrAndDefiningClass_some {name : ID} {self d : YogClass κ} {attr : Attr κ} :
    self.getAttrAndDefiningClass name = some (attr, d)
      ↔ self.chain.find? (Defines name) = some d ∧ d.attrs.lookup name = some attr := by
  rw [getAttrAndDefiningClass_eq]
  rcases self.chain.find? (Defines name) with _ | c
  · simp
  · simp only [Option.bind_some, Option.map_eq_some_iff, Prod.mk.injEq, Option.some.injEq]
    constructor
    · rintro ⟨a, h, rfl, rfl⟩
      exact ⟨rfl, h⟩
    · rintro ⟨rfl, h⟩
      exact ⟨attr, h, rfl, rfl⟩

/-- What follows a node of a chain is the chain of its `super`. -/
theorem chain_split {k : YogClass κ} : ∀ {self : YogClass κ}, k ∈ self.chain →
    ∃ before, self.chain = before ++ k :: (k.super.map chain).getD []
  | root attrs, h => by
    rw [chain, List.mem_singleton] at h
    subst h
    exact ⟨[], rfl⟩
  | sub attrs super, h => by
    rw [chain, List.mem_cons] at h
    rcases h with rfl | h
    · exact ⟨[], rfl⟩
    · obtain ⟨before, hb⟩ := chain_split h
      exact ⟨sub attrs super :: before, by rw [chain, hb, List.cons_append]⟩

theorem length_chain_le {k : YogClass κ} : ∀ {self : YogClass κ}, k ∈ self.chain →
    k.chain.length ≤ self.chain.length
  | root attrs, h => by
    rw [chain, List.mem_singleton] at h
    exact Nat.le_of_eq (congrArg (fun c => c.chain.length) h)
  | sub attrs super, h => by
    rw [chain, List.mem_cons] at h
    rcases h with rfl | h
    · exact Nat.le_refl _
    · have := length_chain_le h
      rw [chain, List.length_cons]
      omega

theorem nodup_chain : ∀ self : YogClass κ, self.chain.Nodup
  | root attrs => List.pairwise_singleton _ _
  | sub attrs super => by
    rw [chain, List.nodup_cons]
    refine ⟨fun h => ?_, nodup_chain super⟩
    have := length_chain_le h
    rw [chain, List.length_cons] at this
    omega

end YogClass

open YogClass Chain

theorem Attrs.name_of_lookup {attrs : Attrs κ} {name : ID} {f : YogFunction κ}
    (h : attrs.lookup name = some (.function f)) : f.name = name := by
  obtain ⟨before, after, he, -⟩ := List.lookup_eq_some_iff.1 h
  exact attrs.named name f (by rw [he]; simp)

/-- The definition is a script function, which can call `super`. -/
def Script (name : ID) (k : YogClass κ) : Bool :=
  match k.attrs.lookup name with
  | some (.function _) => true
  | _ => false

theorem script_iff {name : ID} {k : YogClass κ} :
    Script name k = true ↔ ∃ f, k.attrs.lookup name = some (.function f) := by
  unfold Script
  rcases k.attrs.lookup name with _ | (f | v) <;> simp

/-- What a frame in the middle of the calls looks like: the running definition was found in `k`. -/
structure Runs (obj : YogObj κ) (name : ID) (frame : MethodFrame κ) (k : YogClass κ) : Prop where
  self_eq : frame.self = obj
  name_eq : frame.name = name
  mem : k ∈ obj.klass.chain
  defines : k.Defines name = true
  script : Script name k = true

theorem getDescr_method {attr : Attr κ} {obj : YogObj κ} {klass : YogClass κ}
    {m : InstanceMethod κ} (h : (getDescr attr obj klass).method? = some m) :
    ∃ f, attr = .function f ∧ m = ⟨obj, f, klass⟩ := by
  cases attr with
  | value v => cases h
  | function f =>
    cases h
    exact ⟨f, rfl, rfl⟩

/-- The frame of a definition found along the chain of the receiver. -/
theorem runs_of_found {obj : YogObj κ} {name : ID} {start d klass : YogClass κ} {attr : Attr κ}
    {m : InstanceMethod κ} (hs : start ∈ obj.klass.chain)
    (hf : start.getAttrAndDefiningClass name = some (attr, d))
    (hm : (getDescr attr obj klass).method? = some m) :
    Runs obj name m.frame d ∧ m.frame.klass = some klass := by
  obtain ⟨hd, ha⟩ := getAttrAndDefiningClass_some.1 hf
  obtain ⟨f, rfl, rfl⟩ := getDescr_method hm
  obtain ⟨before, hb⟩ := chain_split hs
  refine ⟨⟨rfl, Attrs.name_of_lookup ha, ?_, List.find?_some hd, script_iff.2 ⟨f, ha⟩⟩, rfl⟩
  rw [hb, ← chain_eq]
  exact List.mem_append_right _ (List.mem_of_find?_eq_some hd)

theorem mem_chain_super {k c s : YogClass κ} (hk : k ∈ c.chain) (hs : k.super = some s) :
    s ∈ c.chain := by
  obtain ⟨before, hb⟩ := chain_split hk
  rw [hs, Option.map_some, Option.getD_some, chain_eq s] at hb
  rw [hb]
  simp

theorem mem_chain_self (c : YogClass κ) : c ∈ c.chain := by
  rw [chain_eq]
  exact List.mem_cons_self

/-- The class a lookup that ends at `k` hands on. -/
def Lookup.handedOn (receiver k : YogClass κ) : Lookup → YogClass κ
  | script => receiver
  | c => k

/-- The class in the frame of the definition the call finds itself. -/
theorem running_zero {lookup : Lookup} {obj : YogObj κ} {name : ID} {frame : MethodFrame κ}
    {k : YogClass κ} (h : running lookup obj name 0 = some (frame, k)) :
    Runs obj name frame k
      ∧ obj.klass.chain.find? (Defines name) = some k
      ∧ frame.klass = some (lookup.handedOn obj.klass k) := by
  unfold running at h
  rcases ho : obj.getAttr name with _ | own
  · rcases hf : obj.klass.getAttrAndDefiningClass name with _ | ⟨attr, d⟩
    · rw [ho, hf] at h
      cases h
    · have hself := mem_chain_self obj.klass
      rw [ho, hf] at h
      cases lookup with
      | script =>
        simp only [Lookup.getAttr, execGetAttr, ho, YogClass.getAttr, hf, Option.map_some,
          Option.bind_eq_bind, Option.bind_some, Option.bind_eq_some_iff] at h
        obtain ⟨m, hm, he⟩ := h
        cases he
        obtain ⟨hr, hk⟩ := runs_of_found hself hf hm
        exact ⟨hr, (getAttrAndDefiningClass_some.1 hf).1, hk⟩
      | c =>
        simp only [Lookup.getAttr, getAttrDefault, ho, hf, Option.map_some,
          Option.bind_eq_bind, Option.bind_some, Option.bind_eq_some_iff] at h
        obtain ⟨m, hm, he⟩ := h
        cases he
        obtain ⟨hr, hk⟩ := runs_of_found hself hf hm
        exact ⟨hr, (getAttrAndDefiningClass_some.1 hf).1, hk⟩
  · rw [ho] at h
    cases h

/-- What follows a node in the chain. -/
def rest (c : YogClass κ) : List (YogClass κ) := (c.super.map chain).getD []

theorem superAttr_eq {frame : MethodFrame κ} {c : YogClass κ} (hc : frame.klass = some c) :
    superAttr frame = (c.super.bind (·.getAttrAndDefiningClass frame.name)).elim
      (.error .notFound) .ok := by
  unfold superAttr
  simp only [hc]
  rcases c.super.bind (·.getAttrAndDefiningClass frame.name) with _ | found <;> rfl

theorem bind_super_some {name : ID} {c d : YogClass κ} {attr : Attr κ} :
    c.super.bind (·.getAttrAndDefiningClass name) = some (attr, d)
      ↔ (rest c).find? (Defines name) = some d ∧ d.attrs.lookup name = some attr := by
  unfold rest
  rcases c.super with _ | s
  · simp
  · exact getAttrAndDefiningClass_some

theorem bind_super_none {name : ID} {c : YogClass κ} :
    c.super.bind (·.getAttrAndDefiningClass name) = none
      ↔ (rest c).find? (Defines name) = none := by
  constructor
  · intro h
    by_contra hn
    obtain ⟨d, hd⟩ := Option.ne_none_iff_exists'.1 hn
    obtain ⟨attr, ha⟩ : ∃ attr, d.attrs.lookup name = some attr :=
      Option.isSome_iff_exists.1 (List.find?_some (p := Defines name) hd)
    rw [bind_super_some.2 ⟨hd, ha⟩] at h
    cases h
  · intro h
    rcases hb : c.super.bind (·.getAttrAndDefiningClass name) with _ | ⟨attr, d⟩
    · rfl
    · rw [(bind_super_some.1 hb).1] at h
      cases h

theorem superAttr_ok {obj : YogObj κ} {name : ID} {frame : MethodFrame κ} {k c : YogClass κ}
    (hr : Runs obj name frame k) (hc : frame.klass = some c) {attr : Attr κ} {d : YogClass κ} :
    superAttr frame = .ok (attr, d)
      ↔ (rest c).find? (Defines name) = some d ∧ d.attrs.lookup name = some attr := by
  rw [superAttr_eq hc, hr.name_eq, ← bind_super_some]
  rcases c.super.bind (·.getAttrAndDefiningClass name) with _ | found <;> simp

theorem superAttr_notFound {obj : YogObj κ} {name : ID} {frame : MethodFrame κ}
    {k c : YogClass κ} (hr : Runs obj name frame k) (hc : frame.klass = some c) :
    superAttr frame = .error .notFound ↔ (rest c).find? (Defines name) = none := by
  rw [superAttr_eq hc, hr.name_eq, ← bind_super_none]
  rcases c.super.bind (·.getAttrAndDefiningClass name) with _ | found <;> simp

/-- One call of `super`: the next frame, and the node its definition was found in. -/
theorem running_step {lookup : Lookup} {obj : YogObj κ} {name : ID} {n : Nat}
    {frame frame' : MethodFrame κ} {k k' c : YogClass κ}
    (hn : running lookup obj name n = some (frame, k)) (hr : Runs obj name frame k)
    (hc : frame.klass = some c) (hmem : c ∈ obj.klass.chain)
    (h : running lookup obj name (n + 1) = some (frame', k')) :
    Runs obj name frame' k' ∧ frame'.klass = some obj.klass
      ∧ (rest c).find? (Defines name) = some k' := by
  unfold running at h
  rw [hn] at h
  rcases hs : superAttr frame with e | ⟨attr, d⟩
  · simp [hs, Except.toOption] at h
  · simp only [hs, loadSuper, Option.bind_eq_bind, Option.bind_some, Except.toOption,
      Option.bind_eq_some_iff] at h
    obtain ⟨b, hb, m, hm, he⟩ := h
    cases he
    cases hb
    rw [hr.self_eq] at hm
    obtain ⟨hd, ha⟩ := (superAttr_ok hr hc).1 hs
    obtain ⟨s, hsup, hf⟩ := Option.bind_eq_some_iff.1 (bind_super_some.2 ⟨hd, ha⟩)
    obtain ⟨hr', hk'⟩ := runs_of_found (mem_chain_super hmem hsup) hf hm
    exact ⟨hr', hk', hd⟩

/-- From the first `super` on, the frame carries the class of the receiver. -/
theorem running_runs {lookup : Lookup} {obj : YogObj κ} {name : ID} :
    ∀ {n : Nat} {frame : MethodFrame κ} {k : YogClass κ},
      running lookup obj name n = some (frame, k) →
      Runs obj name frame k ∧ ∃ c ∈ obj.klass.chain, frame.klass = some c
        ∧ (c = k ∨ c = obj.klass)
  | 0, frame, k, h => by
    obtain ⟨hr, hf, hk⟩ := running_zero h
    cases lookup with
    | script => exact ⟨hr, _, mem_chain_self _, hk, .inr rfl⟩
    | c => exact ⟨hr, _, hr.mem, hk, .inl rfl⟩
  | n + 1, frame, k, h => by
    rcases hn : running lookup obj name n with _ | ⟨frame₀, k₀⟩
    · unfold running at h
      rw [hn] at h
      cases h
    · obtain ⟨hr, c, hmem, hc, -⟩ := running_runs hn
      obtain ⟨hr', hk', -⟩ := running_step hn hr hc hmem h
      exact ⟨hr', _, mem_chain_self _, hk', .inr rfl⟩

/-- The call of `super` runs the first definition strictly after `k` in the receiver's chain, and
raises when there is none. -/
def SuperRight (obj : YogObj κ) (name : ID) (frame : MethodFrame κ) (k : YogClass κ) : Prop :=
  (∀ d, IsFirstAfter (Defines name) obj.klass.chain k d → ∃ attr, superAttr frame = .ok (attr, d))
    ∧ ((∀ d, ¬ IsFirstAfter (Defines name) obj.klass.chain k d) →
        superAttr frame = .error .notFound)

theorem chain_eq_rest (c : YogClass κ) : c.chain = c :: rest c := chain_eq c

theorem not_mem_rest (c : YogClass κ) : c ∉ rest c := by
  have h := nodup_chain c
  rw [chain_eq_rest, List.nodup_cons] at h
  exact h.1

theorem mem_rest_of_mem {k c : YogClass κ} (h : k ∈ c.chain) (hne : k ≠ c) : k ∈ rest c := by
  rw [chain_eq_rest, List.mem_cons] at h
  exact h.resolve_left hne

theorem not_superRight_block {obj : YogObj κ} {name : ID} {frame : MethodFrame κ}
    {k : YogClass κ} : ¬ SuperRight obj name frame.block k := by
  rintro ⟨hd, hn⟩
  by_cases h : ∃ d, IsFirstAfter (Defines name) obj.klass.chain k d
  · obtain ⟨d, h⟩ := h
    obtain ⟨attr, ha⟩ := hd d h
    cases ha
  · cases hn (fun d hd => h ⟨d, hd⟩)

/-- The search of `load_super` is right when it starts behind the class of the running definition,
and also only then: started before, it finds that definition or an earlier one. -/
theorem superRight_iff {obj : YogObj κ} {name : ID} {frame : MethodFrame κ} {k c : YogClass κ}
    (hr : Runs obj name frame k) (hc : frame.klass = some c) (hkc : c = k ∨ c = obj.klass) :
    SuperRight obj name frame k ↔ c = k := by
  have hn := nodup_chain obj.klass
  constructor
  · rintro ⟨hd, hno⟩
    by_contra hne
    obtain rfl := hkc.resolve_left hne
    obtain ⟨searched, after, hs⟩ :=
      List.append_of_mem (mem_rest_of_mem hr.mem (fun h => hne h.symm))
    have hsplit : obj.klass.chain = (obj.klass :: searched) ++ k :: after := by
      rw [chain_eq_rest, hs, List.cons_append]
    obtain ⟨d, hf⟩ : ∃ d, (rest obj.klass).find? (Defines name) = some d := by
      rw [← Option.isSome_iff_exists, List.find?_isSome]
      exact ⟨k, by rw [hs]; simp, hr.defines⟩
    have hnot : ¬ IsFirstAfter (Defines name) obj.klass.chain k d :=
      not_isFirstAfter_of_find hn hsplit hr.defines (List.singleton_append ..).symm (by rw [← hs, hf])
    obtain ⟨attr, ha⟩ := Option.isSome_iff_exists.1 (List.find?_some (p := Defines name) hf)
    have hok := (superAttr_ok hr hc).2 ⟨hf, ha⟩
    by_cases h : ∃ d', IsFirstAfter (Defines name) obj.klass.chain k d'
    · obtain ⟨d', h⟩ := h
      obtain ⟨attr', h'⟩ := hd d' h
      rw [hok] at h'
      cases h'
      exact hnot h
    · have := hno (fun d' hd' => h ⟨d', hd'⟩)
      rw [hok] at this
      cases this
  · rintro rfl
    obtain ⟨before, hb⟩ := chain_split hr.mem
    refine ⟨fun d hd => ?_, fun hno => ?_⟩
    · have hf := (isFirstAfter_iff hn hb).1 hd
      obtain ⟨attr, ha⟩ := Option.isSome_iff_exists.1 (List.find?_some (p := Defines name) hf)
      exact ⟨attr, (superAttr_ok hr hc).2 ⟨hf, ha⟩⟩
    · rw [superAttr_notFound hr hc]
      by_contra h
      obtain ⟨d, hd⟩ := Option.ne_none_iff_exists'.1 h
      exact hno d ((isFirstAfter_iff hn hb).2 hd)

/-- The class handed on is the one of the running definition only at the start of the calls. -/
theorem superRight_running_iff {lookup : Lookup} {obj : YogObj κ} {name : ID} {n : Nat}
    {frame : MethodFrame κ} {k : YogClass κ} (h : running lookup obj name n = some (frame, k)) :
    SuperRight obj name frame k ↔ n = 0 ∧ (lookup = .c ∨ obj.klass.Defines name = true) := by
  obtain ⟨hr, c, hmem, hc, hkc⟩ := running_runs h
  rw [superRight_iff hr hc hkc]
  cases n with
  | zero =>
    obtain ⟨-, hf, hk⟩ := running_zero h
    rw [hc] at hk
    cases hk
    cases lookup with
    | c => simp [Lookup.handedOn]
    | script =>
      rw [chain_eq_rest] at hf
      show obj.klass = k ↔ _
      constructor
      · rintro rfl
        exact ⟨rfl, .inr (List.find?_some (p := Defines name) hf)⟩
      · rintro ⟨-, h | h⟩
        · cases h
        · rw [List.find?_cons_of_pos h] at hf
          exact Option.some.inj hf
  | succ n =>
    rcases hn : running lookup obj name n with _ | ⟨frame₀, k₀⟩
    · unfold running at h
      rw [hn] at h
      cases h
    · obtain ⟨hr₀, c₀, hmem₀, hc₀, -⟩ := running_runs hn
      obtain ⟨-, hk, hf⟩ := running_step hn hr₀ hc₀ hmem₀ h
      rw [hc] at hk
      cases hk
      refine ⟨?_, fun h => absurd h.1 (by omega)⟩
      rintro rfl
      obtain ⟨before, hb⟩ := chain_split hmem₀
      have hmem := List.mem_of_find?_eq_some hf
      exfalso
      rcases before with _ | ⟨b, before⟩
      · rw [chain_eq_rest] at hb
        exact not_mem_rest obj.klass ((List.cons.inj hb).2 ▸ hmem)
      · rw [chain_eq_rest] at hb
        exact not_mem_rest obj.klass
          ((List.cons.inj hb).2 ▸ List.mem_append_right _ (List.mem_cons_of_mem _ hmem))

/-- The definitions of the method along the receiver's chain, the most derived one first. -/
def definitions (c : YogClass κ) (name : ID) : List (YogClass κ) := c.chain.filter (Defines name)

theorem running_zero_iff {lookup : Lookup} {obj : YogObj κ} {name : ID} {k : YogClass κ} :
    (∃ frame, running lookup obj name 0 = some (frame, k))
      ↔ obj.getAttr name = none ∧ obj.klass.chain.find? (Defines name) = some k
        ∧ Script name k = true := by
  constructor
  · rintro ⟨frame, h⟩
    obtain ⟨hr, hf, -⟩ := running_zero h
    refine ⟨?_, hf, hr.script⟩
    by_contra ho
    obtain ⟨own, ho⟩ := Option.ne_none_iff_exists'.1 ho
    unfold running at h
    rw [ho] at h
    cases h
  · rintro ⟨ho, hf, hs⟩
    obtain ⟨f, ha⟩ := script_iff.1 hs
    have hg := getAttrAndDefiningClass_some.2 ⟨hf, ha⟩
    refine ⟨InstanceMethod.frame ⟨obj, f, lookup.handedOn obj.klass k⟩, ?_⟩
    unfold running
    cases lookup <;>
      simp [ho, hg, Lookup.getAttr, execGetAttr, getAttrDefault, YogClass.getAttr, getDescr,
        Bound.method?, Lookup.handedOn]

theorem running_succ_iff {lookup : Lookup} {obj : YogObj κ} {name : ID} {n : Nat}
    {frame : MethodFrame κ} {k k' c : YogClass κ}
    (hn : running lookup obj name n = some (frame, k)) (hc : frame.klass = some c) :
    (∃ frame', running lookup obj name (n + 1) = some (frame', k'))
      ↔ (rest c).find? (Defines name) = some k' ∧ Script name k' = true := by
  obtain ⟨hr, c', hmem, hc', -⟩ := running_runs hn
  obtain rfl := Option.some.inj (hc'.symm.trans hc)
  constructor
  · rintro ⟨frame', h⟩
    obtain ⟨hr', -, hf⟩ := running_step hn hr hc hmem h
    exact ⟨hf, hr'.script⟩
  · rintro ⟨hf, hs⟩
    obtain ⟨f, ha⟩ := script_iff.1 hs
    have hok := (superAttr_ok hr hc).2 ⟨hf, ha⟩
    refine ⟨InstanceMethod.frame ⟨obj, f, obj.klass⟩, ?_⟩
    unfold running
    rw [hn]
    simp [hok, loadSuper, getDescr, Bound.method?, Except.toOption, hr.self_eq]

theorem running_none_succ {lookup : Lookup} {obj : YogObj κ} {name : ID} {n : Nat}
    (h : running lookup obj name n = none) : ∀ m, running lookup obj name (n + m) = none
  | 0 => h
  | m + 1 => by
    rw [← Nat.add_assoc]
    unfold running
    rw [running_none_succ h m]
    rfl

/-- The definitions run are those of the chain, each once and in order, and they come to an end,
when every definition calls `super`. -/
def InOrder (lookup : Lookup) (obj : YogObj κ) (name : ID) : Prop :=
  (∀ n frame k, running lookup obj name n = some (frame, k) →
    (definitions obj.klass name)[n]? = some k) ∧ ∃ n, running lookup obj name n = none

/-- The definitions in the chain that are script functions, up to the first one that is not. -/
def scriptDefinitions (c : YogClass κ) (name : ID) : List (YogClass κ) :=
  (definitions c name).takeWhile (Script name)

theorem nodup_definitions (c : YogClass κ) (name : ID) : (definitions c name).Nodup :=
  (nodup_chain c).filter _

theorem definitions_eq {c k : YogClass κ} {name : ID}
    (h : c.chain.find? (Defines name) = some k) :
    definitions c name = k :: (rest k).filter (Defines name) := by
  obtain ⟨hk, before, after, hc, hb⟩ := List.find?_eq_some_iff_append.1 h
  obtain ⟨before', hc'⟩ := chain_split (List.mem_of_find?_eq_some h)
  have hrest : after = rest k := split_unique (hc ▸ nodup_chain c) (hc.symm.trans hc')
  unfold definitions
  rw [hc, List.filter_append, List.filter_eq_nil_iff.2 (fun x hx => by simpa using hb x hx),
    List.nil_append, List.filter_cons_of_pos hk, hrest]

/-- The frame of the definition the call finds itself carries its class, under the condition. -/
theorem klass_zero {lookup : Lookup} {obj : YogObj κ} {name : ID} {frame : MethodFrame κ}
    {k : YogClass κ} (h : running lookup obj name 0 = some (frame, k))
    (hc : lookup = .c ∨ obj.klass.Defines name = true) : frame.klass = some k := by
  obtain ⟨hr, c, -, hk, hkc⟩ := running_runs h
  rw [hk, (superRight_iff hr hk hkc).1 ((superRight_running_iff h).2 ⟨rfl, hc⟩)]

theorem inOrder_of_single {lookup : Lookup} {obj : YogObj κ} {name : ID}
    (h : obj.getAttr name = none → scriptDefinitions obj.klass name = []
      ∨ (scriptDefinitions obj.klass name).length = 1
        ∧ (lookup = .c ∨ obj.klass.Defines name = true)) : InOrder lookup obj name := by
  rcases h0 : running lookup obj name 0 with _ | ⟨frame, k⟩
  · refine ⟨fun n frame k hn => ?_, 0, h0⟩
    rw [← Nat.zero_add n, running_none_succ h0 n] at hn
    cases hn
  · obtain ⟨ho, hf, hs⟩ := running_zero_iff.1 ⟨frame, h0⟩
    have hd := definitions_eq hf
    have hsd : scriptDefinitions obj.klass name
        = k :: ((rest k).filter (Defines name)).takeWhile (Script name) := by
      unfold scriptDefinitions
      rw [hd, List.takeWhile_cons_of_pos hs]
    rw [hsd] at h
    obtain ⟨hlen, hc⟩ := (h ho).resolve_left (List.cons_ne_nil _ _)
    have hk := klass_zero h0 hc
    have h1 : running lookup obj name 1 = none := by
      by_contra hne
      obtain ⟨⟨frame', k'⟩, h1⟩ := Option.ne_none_iff_exists'.1 hne
      obtain ⟨hf', hs'⟩ := (running_succ_iff h0 hk).1 ⟨frame', h1⟩
      rw [← List.head?_filter] at hf'
      obtain ⟨tl, htl⟩ := List.head?_eq_some_iff.1 hf'
      rw [htl, List.takeWhile_cons_of_pos hs'] at hlen
      simp at hlen
    refine ⟨fun n frame' k' hn => ?_, 1, h1⟩
    cases n with
    | zero =>
      rw [h0] at hn
      cases hn
      rw [hd]
      rfl
    | succ n =>
      rw [Nat.add_comm, running_none_succ h1 n] at hn
      cases hn

theorem single_of_inOrder {lookup : Lookup} {obj : YogObj κ} {name : ID}
    (h : InOrder lookup obj name) (ho : obj.getAttr name = none) :
    scriptDefinitions obj.klass name = []
      ∨ (scriptDefinitions obj.klass name).length = 1
        ∧ (lookup = .c ∨ obj.klass.Defines name = true) := by
  have hnd := nodup_definitions obj.klass name
  rcases hd : definitions obj.klass name with _ | ⟨k, tl⟩
  · left
    unfold scriptDefinitions
    rw [hd]
    rfl
  by_cases hs : Script name k = true
  case neg =>
    left
    unfold scriptDefinitions
    rw [hd, List.takeWhile_cons_of_neg hs]
  right
  have hf : obj.klass.chain.find? (Defines name) = some k := by
    rw [← List.head?_filter]
    exact congrArg List.head? hd
  obtain ⟨frame, h0⟩ : ∃ frame, running lookup obj name 0 = some (frame, k) :=
    running_zero_iff.2 ⟨ho, hf, hs⟩
  obtain ⟨hr, c, hmem, hk, hkc⟩ := running_runs h0
  have twice : ∀ {i j : Nat} {d : YogClass κ} {frame' : MethodFrame κ},
      (definitions obj.klass name)[i]? = some d → running lookup obj name j = some (frame', d) →
      i = j := fun hi hj =>
    (List.getElem?_inj (List.getElem?_eq_some_iff.1 hi).1 hnd).1 (hi.trans (h.1 _ _ _ hj).symm)
  have hcond : lookup = .c ∨ obj.klass.Defines name = true := by
    by_contra hcond
    have hne : c ≠ k := fun he =>
      hcond ((superRight_running_iff h0).1 ((superRight_iff hr hk hkc).2 he)).2
    obtain rfl := hkc.resolve_left hne
    rw [chain_eq_rest, List.find?_cons_of_neg (fun hp => hcond (.inr hp))] at hf
    obtain ⟨frame', h1⟩ := (running_succ_iff h0 hk).2 ⟨hf, hs⟩
    have := twice (i := 0) (by rw [hd]; rfl) h1
    omega
  refine ⟨?_, hcond⟩
  unfold scriptDefinitions
  rw [hd, List.takeWhile_cons_of_pos hs, List.length_cons]
  rcases tl with _ | ⟨k₁, tl⟩
  · rfl
  by_cases hs₁ : Script name k₁ = true
  case neg =>
    rw [List.takeWhile_cons_of_neg hs₁]
    rfl
  exfalso
  have hd' := definitions_eq hf
  rw [hd] at hd'
  have hf₁ : (rest k).find? (Defines name) = some k₁ := by
    rw [← List.head?_filter, ← (List.cons.inj hd').2]
    rfl
  obtain ⟨frame₁, h1⟩ := (running_succ_iff h0 (klass_zero h0 hcond)).2 ⟨hf₁, hs₁⟩
  obtain ⟨-, hk₁, -⟩ := running_step h0 hr hk hmem h1
  by_cases hown : obj.klass.Defines name = true
  · rw [chain_eq_rest, List.find?_cons_of_pos hown] at hf
    cases hf
    obtain ⟨frame₂, h2⟩ := (running_succ_iff h1 hk₁).2 ⟨hf₁, hs₁⟩
    have := twice (i := 1) (by rw [hd]; rfl) h2
    omega
  · rw [chain_eq_rest, List.find?_cons_of_neg hown] at hf
    obtain ⟨frame₂, h2⟩ := (running_succ_iff h1 hk₁).2 ⟨hf, hs⟩
    have := twice (i := 0) (by rw [hd]; rfl) h2
    omega

/-- Where `super` is right: called in the body of the definition the call found itself, looked up
from C or defined by the receiver's own class. A chain of definitions that all call `super` runs in
order and ends only when it is of one definition. -/
theorem super_iff (lookup : Lookup) (obj : YogObj κ) (name : ID) :
    (∀ (n : Nat) (frame : MethodFrame κ) (k : YogClass κ) (inBlock : Bool),
      running lookup obj name n = some (frame, k) →
      (SuperRight obj name (if inBlock then frame.block else frame) k
        ↔ inBlock = false ∧ n = 0 ∧ (lookup = .c ∨ obj.klass.Defines name = true)))
    ∧ (InOrder lookup obj name ↔ (obj.getAttr name = none →
        scriptDefinitions obj.klass name = []
          ∨ (scriptDefinitions obj.klass name).length = 1
            ∧ (lookup = .c ∨ obj.klass.Defines name = true))) := by
  refine ⟨fun n frame k inBlock h => ?_, single_of_inOrder, inOrder_of_single⟩
  cases inBlock with
  | true => exact ⟨fun hr => absurd hr not_superRight_block, fun hr => nomatch hr.1⟩
  | false =>
    refine (superRight_running_iff h).trans ⟨fun hr => ⟨rfl, hr⟩, fun hr => hr.2⟩

/-- A class body with one `def`. -/
def oneDef (name : ID) (code : Nat) : Attrs Nat where
  entries := [(name, .function ⟨name, code⟩)]
  named := by
    intro key f h
    cases List.mem_singleton.1 h
    rfl

/-- `class A`, `class B > A` and `class C > B`, each with a `def foo`. -/
def threeClasses (name : ID) : YogClass Nat :=
  .sub (oneDef name 2) (.sub (oneDef name 1) (.root (oneDef name 0)))

/-- The second `super` runs the definition of `B` again, not that of `A`. -/
theorem super_three_classes :
    (running .script ⟨threeClasses 7, []⟩ 7 2).map (fun r => r.1.code) = some 1
      ∧ ¬ ∀ (lookup : Lookup) (obj : YogObj Nat) (name : ID) (n : Nat) (frame : MethodFrame Nat)
        (k : YogClass Nat), running lookup obj name n = some (frame, k) →
          SuperRight obj name frame k := by
  refine ⟨rfl, fun h => ?_⟩
  have h1 : running .script ⟨threeClasses 7, []⟩ 7 1
      = some (⟨⟨threeClasses 7, []⟩, some (threeClasses 7), 7, 1⟩,
        .sub (oneDef 7 1) (.root (oneDef 7 0))) := rfl
  exact absurd ((superRight_running_iff h1).1 (h _ _ _ _ _ _ h1)).1 (by decide)

/-- The first `super` is right. -/
theorem super_iff_three_classes :
    SuperRight ⟨threeClasses 7, []⟩ 7
      ⟨⟨threeClasses 7, []⟩, some (threeClasses 7), 7, 2⟩ (threeClasses 7) :=
  ((super_iff .script ⟨threeClasses 7, []⟩ 7).1 0 _ _ false rfl).2 ⟨rfl, rfl, .inr rfl⟩

end Yog
