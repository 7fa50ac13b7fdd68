import Yog.Lib.Emission
import Yog.RegexpCode

/-!
# The code of a tree

What `node2instruction` and `instruction2code` make of a tree the parser can build. The code of a
node does not depend on where it stands, as its skips are relative to their places
(`compile_built`).
-/

namespace Yog

namespace Corgi

mutual

/-- No chain that must have a node is empty, and no alternation is at the head of a branch. -/
def Node.Built : Node → Prop
  | .any | .at _ | .in _ | .literal _ => True
  | .branch left right =>
    left ≠ [] ∧ right ≠ [] ∧ (∀ l r, right.head? ≠ some (.branch l r)) ∧ ChainBuilt left ∧
      ChainBuilt right
  | .maxRepeat _ _ body | .minRepeat _ _ body => body.Built
  | .subpattern _ _ node => node ≠ [] ∧ ChainBuilt node

def ChainBuilt : List Node → Prop
  | [] => True
  | n :: next => n.Built ∧ ChainBuilt next

end

@[simp] theorem chainBuilt_nil : ChainBuilt [] := trivial

@[simp] theorem chainBuilt_cons {n : Node} {next : List Node} :
    ChainBuilt (n :: next) ↔ n.Built ∧ ChainBuilt next := Iff.rfl

/-- Induction over nodes and their chains. -/
theorem Node.chain_induction {P : Node → Prop} {Q : List Node → Prop} (any : P .any)
    (at_ : ∀ type, P (.at type)) (branch : ∀ left right, Q left → Q right → P (.branch left right))
    (in_ : ∀ set, P (.in set)) (literal : ∀ c, P (.literal c))
    (maxRepeat : ∀ min max body, P body → P (.maxRepeat min max body))
    (minRepeat : ∀ min max body, P body → P (.minRepeat min max body))
    (subpattern : ∀ groupId name node, Q node → P (.subpattern groupId name node)) (nil : Q [])
    (cons : ∀ n next, P n → Q next → Q (n :: next)) : (∀ n, P n) ∧ ∀ ns, Q ns := by
  have hP : ∀ n, P n := fun n =>
    @Node.rec P Q any at_ branch in_ literal maxRepeat minRepeat
      subpattern nil cons n
  refine ⟨hP, fun ns => ?_⟩
  induction ns with
  | nil => exact nil
  | cons n next ih => exact cons n next (hP n) ih

/-- A node that is built and is no alternation. -/
def Node.IsItem (n : Node) : Prop := n.Built ∧ ∀ l r, n ≠ .branch l r

theorem chainBuilt_of_items {ns : List Node} (h : ∀ n ∈ ns, n.IsItem) : ChainBuilt ns := by
  induction ns with
  | nil => trivial
  | cons n ns ih =>
    exact ⟨(h n (List.mem_cons_self ..)).1, ih fun m hm => h m (List.mem_cons_of_mem _ hm)⟩

theorem createRepeatNode_isItem {n : Node} (hn : n.Built) (pc : List CorgiChar) (min max : ℕ) :
    (createRepeatNode pc min max n).1.IsItem := by
  rcases pc with _ | ⟨c, rest⟩
  · exact ⟨hn, nofun⟩
  · simp only [createRepeatNode]
    split_ifs
    · exact ⟨hn, nofun⟩
    · exact ⟨hn, nofun⟩

theorem parseMinMaxRepeat_isItem {n : Node} (hn : n.Built) (pc : List CorgiChar) :
    (parseMinMaxRepeat pc n).1.IsItem := by
  unfold parseMinMaxRepeat
  simp only []
  split
  · exact ⟨trivial, nofun⟩
  · rename_i c rest _
    by_cases hc : c ≠ '}'.toNat
    · rw [if_pos hc]
      exact ⟨trivial, nofun⟩
    · rw [if_neg hc]
      exact createRepeatNode_isItem hn _ _ _

section Layers

variable {branch : Parser (List Node)}
  (hbranch : ∀ c s ns c' r, branch c s = .ok (ns, c', r) → ChainBuilt ns ∧ (r ≠ [] → ns ≠ []))
include hbranch

theorem parseGroup_isItem {c c' : Compiler} {s r : List CorgiChar} {n : Node}
    (h : parseGroup branch c s = .ok (n, c', r)) : n.IsItem := by
  obtain ⟨⟨ns, c₁, r₁⟩, hb, h⟩ := Except.bind_eq_ok_iff.1 h
  obtain ⟨hns, hne⟩ := hbranch _ _ _ _ _ hb
  rcases r₁ with _ | ⟨d, r₁⟩
  · cases h
  · simp only [] at h
    by_cases hd : d ≠ ')'.toNat
    · rw [if_pos hd] at h
      cases h
    · rw [if_neg hd] at h
      cases h
      exact ⟨⟨hne (List.cons_ne_nil _ _), hns⟩, nofun⟩

theorem parseSinglePattern_isItem {c c' : Compiler} {s r : List CorgiChar} {n : Node}
    (h : parseSinglePattern branch c s = .ok (n, c', r)) : n.IsItem := by
  rcases s with _ | ⟨ch, s⟩
  · cases h
  · simp only [parseSinglePattern] at h
    split_ifs at h
    · obtain ⟨p, -, h⟩ := Except.bind_eq_ok_iff.1 h
      cases h
      exact ⟨trivial, nofun⟩
    · obtain ⟨⟨e, r₁⟩, -, h⟩ := Except.bind_eq_ok_iff.1 h
      cases h
      cases e <;> exact ⟨trivial, nofun⟩
    · cases h
      exact ⟨trivial, nofun⟩
    · cases h
      exact ⟨trivial, nofun⟩
    · exact parseGroup_isItem hbranch h
    · cases h
      exact ⟨trivial, nofun⟩
    · cases h
      exact ⟨trivial, nofun⟩

theorem parseRepeat_isItem {c c' : Compiler} {s r : List CorgiChar} {n : Node}
    (h : parseRepeat branch c s = .ok (n, c', r)) : n.IsItem := by
  obtain ⟨⟨m, c₁, r₁⟩, hs, h⟩ := Except.bind_eq_ok_iff.1 h
  have hm := parseSinglePattern_isItem hbranch hs
  rcases r₁ with _ | ⟨d, r₁⟩
  · cases h
    exact hm
  · simp only [pure, Except.pure, Except.ok.injEq, Prod.mk.injEq] at h
    obtain ⟨rfl, -, -⟩ := h
    split_ifs
    · exact createRepeatNode_isItem hm.1 _ _ _
    · exact createRepeatNode_isItem hm.1 _ _ _
    · exact createRepeatNode_isItem hm.1 _ _ _
    · exact parseMinMaxRepeat_isItem hm.1 _
    · exact hm

theorem parseSubpatternLoop_isItem {fuel : ℕ} {c c' : Compiler} {s r : List CorgiChar}
    {ns : List Node} (h : parseSubpatternLoop branch fuel c s = .ok (ns, c', r)) :
    ∀ n ∈ ns, n.IsItem := by
  induction fuel generalizing c s ns with
  | zero => cases h
  | succ fuel ih =>
    rcases s with _ | ⟨ch, s⟩
    · cases h
      exact nofun
    · simp only [parseSubpatternLoop] at h
      split_ifs at h
      · cases h
        exact nofun
      · obtain ⟨⟨m, c₁, r₁⟩, hr, h⟩ := Except.bind_eq_ok_iff.1 h
        obtain ⟨⟨ms, c₂, r₂⟩, hl, h⟩ := Except.bind_eq_ok_iff.1 h
        cases h
        intro n hn
        rcases List.mem_cons.1 hn with rfl | hn
        · exact parseRepeat_isItem hbranch hr
        · exact ih hl n hn

theorem parseSubpattern_isItem {c c' : Compiler} {s r : List CorgiChar} {ns : List Node}
    (h : parseSubpattern branch c s = .ok (ns, c', r)) : ns ≠ [] ∧ ∀ n ∈ ns, n.IsItem := by
  obtain ⟨⟨m, c₁, r₁⟩, hr, h⟩ := Except.bind_eq_ok_iff.1 h
  obtain ⟨⟨ms, c₂, r₂⟩, hl, h⟩ := Except.bind_eq_ok_iff.1 h
  cases h
  refine ⟨List.cons_ne_nil _ _, fun n hn => ?_⟩
  rcases List.mem_cons.1 hn with rfl | hn
  · exact parseRepeat_isItem hbranch hr
  · exact parseSubpatternLoop_isItem hbranch hl n hn

end Layers

theorem parseBranch_built (depth : ℕ) :
    ∀ c s ns c' r, parseBranch depth c s = .ok (ns, c', r) →
      ChainBuilt ns ∧ (r ≠ [] → ns ≠ []) := by
  induction depth with
  | zero => exact fun _ _ _ _ _ h => by cases h
  | succ depth ih =>
    intro c s ns c' r h
    rcases s with _ | ⟨ch, s⟩
    · cases h
      exact ⟨trivial, fun hr => absurd rfl hr⟩
    · simp only [parseBranch] at h
      obtain ⟨⟨left, c₁, r₁⟩, hl, h⟩ := Except.bind_eq_ok_iff.1 h
      obtain ⟨hlne, hleft⟩ := parseSubpattern_isItem ih hl
      rcases r₁ with _ | ⟨d, r₁⟩
      · cases h
        exact ⟨chainBuilt_of_items hleft, fun _ => hlne⟩
      · simp only [] at h
        split_ifs at h
        · cases h
          exact ⟨chainBuilt_of_items hleft, fun _ => hlne⟩
        · obtain ⟨⟨right, c₂, r₂⟩, hr, h⟩ := Except.bind_eq_ok_iff.1 h
          obtain ⟨hrne, hright⟩ := parseSubpattern_isItem ih hr
          cases h
          refine ⟨⟨⟨hlne, hrne, fun l r he => ?_, chainBuilt_of_items hleft,
            chainBuilt_of_items hright⟩, trivial⟩, fun _ => List.cons_ne_nil _ _⟩
          exact (hright _ (List.mem_of_mem_head? he)).2 l r rfl

/-- The parser builds such trees. -/
theorem parse_built {pattern : List CorgiChar} {ns : List Node} {c : Compiler}
    {r : List CorgiChar} (h : parse pattern = .ok (ns, c, r)) : ChainBuilt ns :=
  (parseBranch_built _ _ _ _ _ _ h).1

section Code

variable (ignoreCase : Bool)

def SetNode.code (m : SetNode) : List CorgiCode := writeCode ignoreCase (fun _ => 0) 0 m.instruction

def setCode (set : List SetNode) : List CorgiCode := set.flatMap (SetNode.code ignoreCase)

/-- A child of a branch; `skip` leads from its jump behind the branch. -/
def alternativeCode (body : List CorgiCode) (skip : ℕ) : List CorgiCode :=
  toCode (body.length + 3) :: (body ++ [Opcode.jump.code, toCode skip])

def repeatCode (min max : ℕ) (body : List CorgiCode) (untilType : Opcode) : List CorgiCode :=
  [Opcode.repeat.code, toCode (body.length + 3), toCode min, toCode max] ++ body ++ [untilType.code]

mutual

def Node.code : Node → List CorgiCode
  | .any => [Opcode.any.code]
  | .at type => [Opcode.at.code, type.code]
  | .branch left right =>
    Opcode.branch.code :: (alternativeCode (chainCode left) ((chainCode right).length + 5) ++
      (alternativeCode (chainCode right) 2 ++ [Opcode.failure.code]))
  | .in set =>
    [Opcode.in.code, toCode ((setCode ignoreCase set).length + 2)] ++ setCode ignoreCase set ++
      [Opcode.failure.code]
  | .literal c => [(if ignoreCase then Opcode.literalIgnore else Opcode.literal).code, c]
  | .maxRepeat min max body => repeatCode min max body.code .maxUntil
  | .minRepeat min max body => repeatCode min max body.code .minUntil
  | .subpattern groupId _ node =>
    [Opcode.mark.code, toCode (2 * groupId)] ++ chainCode node ++
      [Opcode.mark.code, toCode (2 * groupId + 1)]

def chainCode : List Node → List CorgiCode
  | [] => []
  | n :: next => n.code ++ chainCode next

end

end Code

def totalSize (is : List Instruction) : ℕ := (is.map Instruction.size).sum

@[simp] theorem totalSize_nil : totalSize [] = 0 := rfl

@[simp] theorem totalSize_cons (i : Instruction) (is : List Instruction) :
    totalSize (i :: is) = i.size + totalSize is := by simp [totalSize]

@[simp] theorem totalSize_append (is is' : List Instruction) :
    totalSize (is ++ is') = totalSize is + totalSize is' := by simp [totalSize]

theorem labelPosition_append_left {l : Label} {is is' : List Instruction}
    (h : Instruction.label l ∈ is) : labelPosition l (is ++ is') = labelPosition l is := by
  induction is with
  | nil => cases h
  | cons i is ih =>
    by_cases hi : i = .label l
    · simp [labelPosition, hi]
    · have hl : Instruction.label l ∈ is := by
        rcases List.mem_cons.1 h with h | h
        · exact absurd h.symm hi
        · exact h
      simp [labelPosition, hi, ih hl]

theorem labelPosition_append_right {l : Label} {is is' : List Instruction}
    (h : Instruction.label l ∉ is) :
    labelPosition l (is ++ is') = totalSize is + labelPosition l is' := by
  induction is with
  | nil => simp
  | cons i is ih =>
    simp only [List.mem_cons, not_or] at h
    simp [labelPosition, Ne.symm h.1, ih h.2, Nat.add_assoc]

/-- The labels of a fragment that stands at `pos` are where `position` says. -/
def Places (position : Label → ℕ) (pos : ℕ) (is : List Instruction) : Prop :=
  ∀ l, Instruction.label l ∈ is → position l = pos + labelPosition l is

section Fragments

variable {ic : Bool} {position : Label → ℕ} {pos : ℕ} {is is' : List Instruction}

theorem Places.left (h : Places position pos (is ++ is')) : Places position pos is := by
  intro l hl
  rw [h l (List.mem_append_left _ hl), labelPosition_append_left hl]

theorem Places.right (h : Places position pos (is ++ is'))
    (hd : ∀ l, Instruction.label l ∈ is' → Instruction.label l ∉ is) :
    Places position (pos + totalSize is) is' := by
  intro l hl
  rw [h l (List.mem_append_right _ hl), labelPosition_append_right (hd l hl), Nat.add_assoc]

theorem instruction2binary_append :
    instruction2binary ic position pos (is ++ is') =
      instruction2binary ic position pos is ++
        instruction2binary ic position (pos + totalSize is) is' := by
  induction is generalizing pos with
  | nil => simp [instruction2binary]
  | cons i is ih => simp [instruction2binary, ih, Nat.add_assoc]

/-- A fragment whose labels are those from `k` up to `k'`, with its code. -/
structure Emitted (ic : Bool) (k : Label) (is : List Instruction) (k' : Label)
    (code : List CorgiCode) : Prop where
  le : k ≤ k'
  labels : ∀ l, Instruction.label l ∈ is → k ≤ l ∧ l < k'
  size : totalSize is = code.length
  binary : ∀ position pos, Places position pos is → instruction2binary ic position pos is = code

theorem Emitted.append {k k₁ k₂ : Label} {c c' : List CorgiCode} (h : Emitted ic k is k₁ c)
    (h' : Emitted ic k₁ is' k₂ c') : Emitted ic k (is ++ is') k₂ (c ++ c') where
  le := h.le.trans h'.le
  labels l hl := by
    rcases List.mem_append.1 hl with hl | hl
    · exact ⟨(h.labels l hl).1, (h.labels l hl).2.trans_le h'.le⟩
    · exact ⟨h.le.trans (h'.labels l hl).1, (h'.labels l hl).2⟩
  size := by rw [totalSize_append, h.size, h'.size, List.length_append]
  binary position pos hp := by
    have hd : ∀ l, Instruction.label l ∈ is' → Instruction.label l ∉ is := fun l hl hl' =>
      absurd (h.labels l hl').2 (Nat.not_lt.2 (h'.labels l hl).1)
    rw [instruction2binary_append, h.binary _ _ hp.left, h'.binary _ _ (hp.right hd)]

/-- An instruction without a label. -/
theorem Emitted.single {i : Instruction} (k : Label) {c : List CorgiCode}
    (hl : ∀ l, i ≠ .label l) (hsize : i.size = c.length)
    (hw : ∀ position pos, writeCode ic position pos i = c) : Emitted ic k [i] k c where
  le := le_rfl
  labels l h := absurd (List.mem_singleton.1 h).symm (hl l)
  size := by simpa using hsize
  binary position pos _ := by simp [instruction2binary, hw]

theorem Emitted.set (k : Label) (set : List SetNode) :
    Emitted ic k (set.map SetNode.instruction) k (setCode ic set) := by
  induction set with
  | nil => exact ⟨le_rfl, by simp, rfl, fun _ _ _ => rfl⟩
  | cons m set ih =>
    have hm : Emitted ic k [m.instruction] k (m.code ic) := by
      cases m <;> exact .single k (by rintro l ⟨⟩) rfl fun _ _ => rfl
    exact hm.append ih

/-- A fragment of a branch, whose code ends `d` words before the label `last` behind it. -/
structure EmittedTo (ic : Bool) (last : Label) (d : ℕ) (k : Label) (is : List Instruction)
    (k' : Label) (code : List CorgiCode) : Prop where
  le : k ≤ k'
  labels : ∀ l, Instruction.label l ∈ is → k ≤ l ∧ l < k'
  size : totalSize is = code.length
  binary : ∀ position pos, Places position pos is → position last = pos + code.length + d →
    instruction2binary ic position pos is = code

theorem EmittedTo.append {last k k₁ k₂ : Label} {d : ℕ} {c c' : List CorgiCode}
    (h : EmittedTo ic last (c'.length + d) k is k₁ c) (h' : EmittedTo ic last d k₁ is' k₂ c') :
    EmittedTo ic last d k (is ++ is') k₂ (c ++ c') where
  le := h.le.trans h'.le
  labels l hl := by
    rcases List.mem_append.1 hl with hl | hl
    · exact ⟨(h.labels l hl).1, (h.labels l hl).2.trans_le h'.le⟩
    · exact ⟨h.le.trans (h'.labels l hl).1, (h'.labels l hl).2⟩
  size := by rw [totalSize_append, h.size, h'.size, List.length_append]
  binary position pos hp hl := by
    have hd : ∀ l, Instruction.label l ∈ is' → Instruction.label l ∉ is := fun l hl hl' =>
      absurd (h.labels l hl').2 (Nat.not_lt.2 (h'.labels l hl).1)
    rw [List.length_append] at hl
    rw [instruction2binary_append, h.binary _ _ hp.left (by omega),
      h'.binary _ _ (hp.right hd) (by rw [h.size]; omega)]

end Fragments

section Compile

variable {ic : Bool}

/-- What is emitted has the code `c`. -/
def Compiles (ic : Bool) (e : Emits) (c : List CorgiCode) : Prop :=
  ∀ k, ∃ is k', e k = some (is, k') ∧ Emitted ic k is k' c

theorem Emitted.ne_nil {k k' : Label} {is : List Instruction} {c : List CorgiCode}
    (h : Emitted ic k is k' c) (hc : c ≠ []) : is ≠ [] := by
  rintro rfl
  exact hc (List.length_eq_zero_iff.1 h.size.symm)

theorem Compiles.append {e e' : Emits} {c c' : List CorgiCode} (h : Compiles ic e c)
    (h' : Compiles ic e' c') : Compiles ic (e.append e') (c ++ c') := by
  intro k
  obtain ⟨is, k₁, he, hi⟩ := h k
  obtain ⟨is', k₂, he', hi'⟩ := h' k₁
  exact ⟨is ++ is', k₂, by simp [Emits.append, he, he'], hi.append hi'⟩

theorem Compiles.single {i : Instruction} {c : List CorgiCode} (hl : ∀ l, i ≠ .label l)
    (hsize : i.size = c.length) (hw : ∀ position pos, writeCode ic position pos i = c) :
    Compiles ic (fun labels => some ([i], labels)) c := fun k =>
  ⟨[i], k, rfl, .single k hl hsize hw⟩

theorem in2instruction_compiles (set : List SetNode) :
    Compiles ic (in2instruction set) ((Node.in set).code ic) := by
  intro k
  have hs : Emitted ic k (set.map SetNode.instruction) k (setCode ic set) := .set k set
  have hk : Instruction.label k ∉ set.map SetNode.instruction := fun h =>
    absurd (hs.labels k h).2 (lt_irrefl k)
  refine ⟨_, _, rfl, Nat.le_succ k, ?_, ?_, ?_⟩
  · intro l hl
    simp at hl
    rcases hl with ⟨m, -, hm⟩ | rfl
    · cases m <;> cases hm
    · exact ⟨le_rfl, Nat.lt_succ_self _⟩
  · simp [hs.size, Node.code, Instruction.size]
    omega
  · intro position pos hp
    have hpos : position k = pos + (2 + ((setCode ic set).length + 1)) := by
      rw [hp k (by simp), List.cons_append]
      simp [labelPosition, labelPosition_append_right hk, hs.size, Instruction.size]
    have hskip : position k - pos - 1 = (setCode ic set).length + 2 := by omega
    have hset : ∀ pos, instruction2binary ic position pos (set.map SetNode.instruction) =
        setCode ic set := fun pos =>
      hs.binary position pos fun l hl =>
        absurd (hs.labels l hl).2 (Nat.not_lt.2 (hs.labels l hl).1)
    simp [instruction2binary_append, instruction2binary, writeCode, hset, hskip, Node.code]

theorem repeat2instruction_compiles {body : Emits} {c : List CorgiCode} (h : Compiles ic body c)
    (min max : ℕ) {untilType : Instruction} {op : Opcode}
    (hu : untilType = .maxUntil ∧ op = .maxUntil ∨ untilType = .minUntil ∧ op = .minUntil) :
    Compiles ic (repeat2instruction min max body untilType) (repeatCode min max c op) := by
  intro k
  obtain ⟨is, k', hb, hi⟩ := h (k + 1)
  have hk : Instruction.label k ∉ is := fun h =>
    absurd (hi.labels k h).1 (Nat.not_le.2 (Nat.lt_succ_self k))
  refine ⟨_, _, by simp only [repeat2instruction, hb]; rfl, (Nat.le_succ k).trans hi.le, ?_, ?_, ?_⟩
  · intro l hl'
    have hl' : Instruction.label l ∈ is ∨ l = k := by
      rcases hu with ⟨rfl, -⟩ | ⟨rfl, -⟩ <;> simpa using hl'
    rcases hl' with hl' | rfl
    · exact ⟨(Nat.le_succ k).trans (hi.labels l hl').1, (hi.labels l hl').2⟩
    · exact ⟨le_rfl, (Nat.lt_succ_self _).trans_le hi.le⟩
  · rcases hu with ⟨rfl, -⟩ | ⟨rfl, -⟩ <;> simp [hi.size, repeatCode, Instruction.size] <;> omega
  · intro position pos hp
    have hpos : position k = pos + (4 + c.length) := by
      rw [hp k (by simp), List.cons_append]
      simp [labelPosition, labelPosition_append_right hk, hi.size, Instruction.size]
    have hskip : position k - pos - 1 = c.length + 3 := by omega
    have hbody : instruction2binary ic position (pos + 4) is = c := by
      refine hi.binary position _ fun l hl' => ?_
      have hne : k ≠ l := fun h => hk (h ▸ hl')
      rw [hp l (by simp [hl']), List.cons_append]
      simp [labelPosition, labelPosition_append_left hl', Instruction.size, Nat.add_assoc]
    rcases hu with ⟨rfl, rfl⟩ | ⟨rfl, rfl⟩ <;>
      simp [instruction2binary_append, instruction2binary, writeCode, hbody, hskip, repeatCode,
        Instruction.size]

theorem subpattern2instruction_compiles {body : Emits} {c : List CorgiCode}
    (h : Compiles ic body c) (hc : c ≠ []) (groupId : ℕ) :
    Compiles ic (subpattern2instruction groupId body)
      ([Opcode.mark.code, toCode (2 * groupId)] ++ c ++
        [Opcode.mark.code, toCode (2 * groupId + 1)]) := by
  intro k
  obtain ⟨is, k', hb, hi⟩ := h k
  have hmark : ∀ id k, Emitted ic k [.mark id] k [Opcode.mark.code, toCode id] := fun id k =>
    .single k nofun rfl fun _ _ => rfl
  refine ⟨_, _, ?_, ((hmark (2 * groupId) k).append hi).append (hmark (2 * groupId + 1) k')⟩
  simp [subpattern2instruction, hb, hi.ne_nil hc]

theorem branchChild2instruction_compiles {body : Emits} {c : List CorgiCode}
    (h : Compiles ic body c) (hc : c ≠ []) (last : Label) (d : ℕ) (k : Label) :
    ∃ is k', branchChild2instruction body last k = some (is, k') ∧
      EmittedTo ic last d k is k' (alternativeCode c (d + 1)) := by
  obtain ⟨is, k', hb, hi⟩ := h (k + 1)
  have hk : Instruction.label k ∉ is := fun h =>
    absurd (hi.labels k h).1 (Nat.not_le.2 (Nat.lt_succ_self k))
  have he : branchChild2instruction body last k =
      some (.offset k :: is ++ [.jump last, .label k], k') := by
    simp [branchChild2instruction, hb, hi.ne_nil hc]
  refine ⟨_, _, he, (Nat.le_succ k).trans hi.le, ?_, ?_, ?_⟩
  · intro l hl'
    simp at hl'
    rcases hl' with hl' | rfl
    · exact ⟨(Nat.le_succ k).trans (hi.labels l hl').1, (hi.labels l hl').2⟩
    · exact ⟨le_rfl, (Nat.lt_succ_self _).trans_le hi.le⟩
  · simp [hi.size, alternativeCode, Instruction.size]
    omega
  · intro position pos hp hl
    have hpos : position k = pos + (1 + (c.length + 2)) := by
      rw [hp k (by simp), List.cons_append]
      simp [labelPosition, labelPosition_append_right hk, hi.size, Instruction.size]
    have hskip : position k - pos = c.length + 3 := by omega
    have hjump : position last - (pos + 1 + c.length) - 1 = d + 1 := by
      simp [alternativeCode] at hl
      omega
    have hbody : instruction2binary ic position (pos + 1) is = c := by
      refine hi.binary position _ fun l hl' => ?_
      rw [hp l (by simp [hl']), List.cons_append]
      simp [labelPosition, labelPosition_append_left hl', Instruction.size, Nat.add_assoc]
    have hsize := hi.size
    simp [instruction2binary_append, instruction2binary, writeCode, hbody, hskip, alternativeCode,
      Instruction.size, hsize, hjump]

theorem branch2instruction_compiles {left right : Emits} {c c' : List CorgiCode}
    (h : Compiles ic left c) (hc : c ≠ []) (h' : Compiles ic right c') (hc' : c' ≠ []) :
    Compiles ic
      (branch2instruction fun last =>
        (branchChild2instruction left last).append (branchChild2instruction right last))
      (Opcode.branch.code :: (alternativeCode c (c'.length + 5) ++
        (alternativeCode c' 2 ++ [Opcode.failure.code]))) := by
  intro k
  obtain ⟨is, k₁, he, hi⟩ := branchChild2instruction_compiles h hc k (c'.length + 4) (k + 1)
  obtain ⟨is', k₂, he', hi'⟩ := branchChild2instruction_compiles h' hc' k 1 k₁
  have hlen : (alternativeCode c' 2).length + 1 = c'.length + 4 := by simp [alternativeCode]
  have hleft : EmittedTo ic k ((alternativeCode c' 2).length + 1) (k + 1) is k₁
      (alternativeCode c (c'.length + 5)) := by
    rw [hlen]
    exact hi
  have hboth := EmittedTo.append hleft hi'
  have hk : Instruction.label k ∉ is ++ is' := fun h =>
    absurd (hboth.labels k h).1 (Nat.not_le.2 (Nat.lt_succ_self k))
  have hbranch : branch2instruction (fun last =>
      (branchChild2instruction left last).append (branchChild2instruction right last)) k =
        some (.branch :: (is ++ is') ++ [.failure, .label k], k₂) := by
    simp [branch2instruction, Emits.append, he, he']
  refine ⟨_, _, hbranch, (Nat.le_succ k).trans hboth.le, ?_, ?_, ?_⟩
  · intro l hl
    have hl : Instruction.label l ∈ is ++ is' ∨ l = k := by simpa [or_assoc] using hl
    rcases hl with hl | rfl
    · exact ⟨(Nat.le_succ k).trans (hboth.labels l hl).1, (hboth.labels l hl).2⟩
    · exact ⟨le_rfl, (Nat.lt_succ_self _).trans_le hboth.le⟩
  · have hsize := hboth.size
    simp only [List.cons_append, totalSize_cons, totalSize_append, totalSize_nil, Instruction.size,
      List.length_cons, List.length_append, List.length_nil] at hsize ⊢
    omega
  · intro position pos hp
    have hpos : position k = pos + (1 + (totalSize (is ++ is') + 1)) := by
      rw [hp k (by simp), List.cons_append]
      simp only [labelPosition, reduceCtorEq, if_false, labelPosition_append_right hk, if_true,
        Instruction.size, Nat.add_zero]
    have hbody : instruction2binary ic position (pos + 1) (is ++ is') =
        alternativeCode c (c'.length + 5) ++ alternativeCode c' 2 := by
      refine hboth.binary position _ (fun l hl => ?_) (by rw [hpos, hboth.size]; omega)
      rw [hp l (List.mem_append_left _ (List.mem_cons_of_mem _ hl)), List.cons_append]
      simp only [labelPosition, reduceCtorEq, if_false, labelPosition_append_left hl,
        Instruction.size, Nat.add_assoc]
    rw [List.cons_append, instruction2binary, instruction2binary_append]
    rw [show pos + Instruction.branch.size = pos + 1 from rfl, hbody]
    simp [instruction2binary, writeCode]

theorem Node.code_ne_nil (n : Node) : n.code ic ≠ [] := by
  cases n <;> simp [Node.code, repeatCode]

theorem chainCode_ne_nil {ns : List Node} (h : ns ≠ []) : chainCode ic ns ≠ [] := by
  rcases ns with _ | ⟨n, next⟩
  · exact absurd rfl h
  · simp [chainCode, Node.code_ne_nil]

/-- The right child of a branch is emitted as the left one, if it is no alternation. -/
theorem branchRight2instruction_eq {right : List Node} (hne : right ≠ [])
    (h : ∀ l r, right.head? ≠ some (.branch l r)) (last : Label) :
    branchRight2instruction right last =
      branchChild2instruction (node2instruction right) last := by
  rcases right with _ | ⟨n, next⟩
  · exact absurd rfl hne
  · cases n <;> first | rfl | exact absurd rfl (h _ _)

theorem compiles_built :
    (∀ n : Node, n.Built → Compiles ic (singleNode2instruction n) (n.code ic)) ∧
      ∀ ns, ChainBuilt ns → Compiles ic (node2instruction ns) (chainCode ic ns) := by
  refine Node.chain_induction ?any ?at_ ?branch ?in_ ?literal ?maxRepeat ?minRepeat ?subpattern
    ?nil ?cons
  case any => exact fun _ => .single nofun rfl fun _ _ => rfl
  case at_ => exact fun type _ => .single nofun rfl fun _ _ => rfl
  case branch =>
    rintro left right ihl ihr ⟨hl, hr, hhead, hleft, hright⟩
    simp only [singleNode2instruction, branchRight2instruction_eq hr hhead]
    exact branch2instruction_compiles (ihl hleft) (chainCode_ne_nil hl) (ihr hright)
      (chainCode_ne_nil hr)
  case in_ => exact fun set _ => in2instruction_compiles set
  case literal => exact fun c _ => .single nofun rfl fun _ _ => rfl
  case maxRepeat =>
    exact fun min max body ih hb => repeat2instruction_compiles (ih hb) min max (.inl ⟨rfl, rfl⟩)
  case minRepeat =>
    exact fun min max body ih hb => repeat2instruction_compiles (ih hb) min max (.inr ⟨rfl, rfl⟩)
  case subpattern =>
    rintro groupId name node ih ⟨hne, hb⟩
    exact subpattern2instruction_compiles (ih hb) (chainCode_ne_nil hne) groupId
  case nil => exact fun _ k => ⟨[], k, rfl, le_rfl, nofun, rfl, fun _ _ _ => rfl⟩
  case cons => exact fun n next ihn ihs ⟨hn, hs⟩ => (ihn hn).append (ihs hs)

/-- The code of a tree the parser can build. -/
theorem compile_built {ns : List Node} (h : ChainBuilt ns) :
    compile ic ns = some (chainCode ic ns ++ [Opcode.success.code]) := by
  have hns : Compiles ic (node2instruction ns) (chainCode ic ns) := compiles_built.2 ns h
  obtain ⟨is, k, he, hi⟩ := hns 0
  have hs : Emitted ic k [.success] k [Opcode.success.code] :=
    .single k nofun rfl fun _ _ => rfl
  have hall := (hi.append hs).binary (labelPosition · (is ++ [.success])) 0 fun l _ => by simp
  simp only [compile, he, instruction2code, bind, Option.bind]
  exact congrArg some hall

end Compile

end Corgi

end Yog
