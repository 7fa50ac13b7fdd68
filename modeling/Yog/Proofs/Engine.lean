import Yog.Proofs.Backtracks
import Yog.Proofs.Emitted

/-!
# The engine follows the tree

What `sre_match` makes of the code of a tree. It stands somewhere in the code, with the contexts of
the repetitions it is in, where a search through the tree stands before its tasks (`Fits`), and
either makes the step of the search by jumps that come back, or jumps on without one (`Turn`). So it
returns just if the search comes to something, and what it returns is that (`sreMatch_iff`).
-/

namespace Yog

namespace Corgi

section Place

variable {code : List CorgiCode}

/-- The words that stand in the code from `pos` on. -/
def CodeAt (code : List CorgiCode) : ℕ → List CorgiCode → Prop
  | _, [] => True
  | pos, w :: c => code[pos]? = some w ∧ CodeAt code (pos + 1) c

@[simp] theorem codeAt_nil {pos : ℕ} : CodeAt code pos [] := trivial

@[simp] theorem codeAt_cons {pos : ℕ} {w : CorgiCode} {c : List CorgiCode} :
    CodeAt code pos (w :: c) ↔ code[pos]? = some w ∧ CodeAt code (pos + 1) c := Iff.rfl

@[simp] theorem codeAt_append {pos : ℕ} {c c' : List CorgiCode} :
    CodeAt code pos (c ++ c') ↔ CodeAt code pos c ∧ CodeAt code (pos + c.length) c' := by
  induction c generalizing pos with
  | nil => simp
  | cons w c ih => simp [ih, and_assoc, Nat.add_assoc, Nat.add_comm 1]

theorem CodeAt.le {pos : ℕ} {c : List CorgiCode} (h : CodeAt code pos c) (hc : c ≠ []) :
    pos + c.length ≤ code.length := by
  induction c generalizing pos with
  | nil => exact absurd rfl hc
  | cons w c ih =>
    obtain ⟨hw, h⟩ := h
    have hpos : pos < code.length := (List.getElem?_eq_some_iff.1 hw).1
    rcases c with _ | ⟨w', c⟩
    · simpa using hpos
    · have := ih h (List.cons_ne_nil _ _)
      simp only [List.length_cons] at this ⊢
      omega

theorem codeAt_self (c c' : List CorgiCode) : CodeAt (c ++ c') c.length c' := by
  induction c' generalizing c with
  | nil => trivial
  | cons w c' ih =>
    refine ⟨by simp, ?_⟩
    simpa using ih (c ++ [w])

@[simp] theorem toCode_of_lt {n : ℕ} (h : n < 2 ^ 32) : toCode n = n := Nat.mod_eq_of_lt h

@[simp] theorem Opcode.ofCode_code (op : Opcode) : ofCode op.code = some op := by
  cases op <;> rfl

@[simp] theorem AtCode.ofCode_code (type : AtCode) : ofCode type.code = some type := by
  cases type <;> rfl

@[simp] theorem CategoryCode.ofCode_code (type : CategoryCode) : ofCode type.code = some type := by
  cases type <;> rfl

end Place

section Sets

variable (unicode : Unicode) (ic : Bool)

/-- Whether a character is in a set, as it is compiled. -/
def charsetMatches : List SetNode → CorgiChar → Bool → Option Bool
  | [], _, ok => some !ok
  | .at _ :: _, _, _ => none
  | .category type :: set, ch, ok =>
    if unicode.sreCategory type ch then some ok else charsetMatches set ch ok
  | .literal c :: set, ch, ok =>
    if ic then none else if ch = c then some ok else charsetMatches set ch ok
  | .negate :: set, ch, ok => charsetMatches set ch !ok
  | .range low high :: set, ch, ok =>
    if low ≤ ch ∧ ch ≤ high then some ok else charsetMatches set ch ok

/-- What the engine takes the leaves of a tree for. -/
def engineMeaning : Meaning where
  literal := literalMatches unicode ic
  set set ch := charsetMatches unicode ic set ch true
  bound := toCode
  group groupId := toCode (2 * groupId) < markSize

end Sets

section Charset

variable {unicode : Unicode} {ic : Bool} {code : List CorgiCode}

theorem sreCharset_eq {set : List SetNode} {fuel pos : ℕ} {ch : CorgiChar} {ok : Bool}
    (h : CodeAt code pos (setCode ic set ++ [Opcode.failure.code])) (hf : set.length < fuel) :
    sreCharset unicode code ch fuel pos ok = charsetMatches unicode ic set ch ok := by
  induction set generalizing fuel pos ok with
  | nil =>
    obtain ⟨fuel, rfl⟩ : ∃ n, fuel = n + 1 := ⟨fuel - 1, by simp at hf; omega⟩
    obtain ⟨hop, -⟩ := h
    simp [sreCharset, hop, charsetMatches]
  | cons m set ih =>
    obtain ⟨fuel, rfl⟩ : ∃ n, fuel = n + 1 := ⟨fuel - 1, by simp at hf; omega⟩
    simp only [List.length_cons, Nat.add_lt_add_iff_right] at hf
    cases m with
    | «at» type =>
      obtain ⟨hop, -⟩ := h
      simp [sreCharset, hop, charsetMatches]
    | category type =>
      obtain ⟨hop, htype, h⟩ := h
      simp only [sreCharset, hop, htype, Option.bind_some, Opcode.ofCode_code,
        CategoryCode.ofCode_code, charsetMatches, ih h hf]
    | literal c =>
      obtain ⟨hop, hc, h⟩ := h
      cases ic
      · simp only [Bool.false_eq_true, if_false] at hop
        simp only [sreCharset, hop, hc, Option.bind_some, Opcode.ofCode_code, charsetMatches,
          ih h hf, Bool.false_eq_true, if_false]
      · simp only [if_true] at hop
        simp [sreCharset, hop, charsetMatches]
    | negate =>
      obtain ⟨hop, h⟩ := h
      simp only [sreCharset, hop, Option.bind_some, Opcode.ofCode_code, charsetMatches, ih h hf]
    | range low high =>
      obtain ⟨hop, hlow, hhigh, h⟩ := h
      simp only [sreCharset, hop, hlow, hhigh, Option.bind_some, Opcode.ofCode_code,
        charsetMatches, ih h hf]

theorem length_le_setCode (ic : Bool) (set : List SetNode) :
    set.length ≤ (setCode ic set).length := by
  induction set with
  | nil => exact le_rfl
  | cons m set ih =>
    have hm : 1 ≤ (m.code ic).length := by cases m <;> simp [SetNode.code, writeCode,
      SetNode.instruction]
    rw [setCode, List.flatMap_cons, List.length_append, ← setCode, List.length_cons]
    omega

theorem charsetAt_eq {set : List SetNode} {pos : ℕ} {ch : CorgiChar}
    (h : CodeAt code pos (setCode ic set ++ [Opcode.failure.code])) :
    charsetAt unicode code pos ch = charsetMatches unicode ic set ch true := by
  refine sreCharset_eq h ?_
  have hle := h.le (by simp)
  have hset := length_le_setCode ic set
  simp only [List.length_append, List.length_singleton] at hle
  omega

end Charset

/-- A state the engine can go on with as with `st`; only marks may differ. -/
structure Restored (st after : State) : Prop where
  «repeat» : after.repeat = st.repeat
  allocated : after.allocated = st.allocated
  contexts : ∀ j < st.allocated, after.contexts j = st.contexts j

section States

variable {st st' st'' : State}

theorem Restored.refl (st : State) : Restored st st := ⟨rfl, rfl, fun _ _ => rfl⟩

theorem Restored.trans (h : Restored st st') (h' : Restored st' st'') : Restored st st'' where
  «repeat» := h'.repeat.trans h.repeat
  allocated := h'.allocated.trans h.allocated
  contexts j hj := (h'.contexts j (h.allocated.symm ▸ hj)).trans (h.contexts j hj)

theorem setMark_restored {i : ℕ} (hi : i < markSize) (st : State) (ptr : ℕ) :
    ∃ st', st.setMark i ptr = some st' ∧ st'.contexts = st.contexts ∧ Restored st st' := by
  unfold State.setMark
  rw [if_neg (Nat.not_le.2 hi)]
  simp only []
  split_ifs <;> exact ⟨_, rfl, rfl, rfl, rfl, fun _ _ => rfl⟩

theorem setMark_none {i : ℕ} (hi : ¬ i < markSize) (st : State) (ptr : ℕ) :
    st.setMark i ptr = none := if_pos (Nat.not_lt.1 hi)

/-- What the engine returns where a search comes to `r`. -/
def Yields (st : State) : Option Answer → Ret → State → Prop
  | none, ret, after => ret = .failure ∧ Restored st after
  | some (.found q), ret, after => ret = .success ∧ after.ptr = q
  | some .fault, ret, _ => ret = .fault

theorem Yields.of_restored {r : Option Answer} {ret : Ret} {after : State}
    (hst : Restored st st') (h : Yields st' r ret after) : Yields st r ret after := by
  rcases r with _ | q | _
  · exact ⟨h.1, hst.trans h.2⟩
  · exact h
  · exact h

/-- What is done with what a jump returns before that is returned. -/
structure Passing (st st' : State) (f : Ret × State → Ret × State) : Prop where
  ret : ∀ x, (f x).1 = x.1
  ptr : ∀ after, (f (.success, after)).2.ptr = after.ptr
  restored : ∀ after, Restored st' after → Restored st (f (.failure, after)).2

theorem Passing.yields {f : Ret × State → Ret × State} (hf : Passing st st' f) {r : Option Answer}
    {ret : Ret} {after : State} (h : Yields st' r ret after) :
    Yields st r (f (ret, after)).1 (f (ret, after)).2 := by
  rcases r with _ | q | _
  · obtain ⟨rfl, h⟩ := h
    exact ⟨hf.ret _, hf.restored _ h⟩
  · obtain ⟨rfl, h⟩ := h
    exact ⟨hf.ret _, (hf.ptr _).trans h⟩
  · exact (hf.ret _).trans h

/-- What changes the state after a failure only. -/
def afterFailure (g : State → State) (x : Ret × State) : Ret × State :=
  if x.1 = .failure then (.failure, g x.2) else x

theorem passing_afterFailure {g : State → State}
    (hg : ∀ after, Restored st' after → Restored st (g after)) :
    Passing st st' (afterFailure g) where
  ret x := by
    unfold afterFailure
    split_ifs with h
    · exact h.symm
    · rfl
  ptr after := rfl
  restored after h := hg after h

theorem Passing.of_restored (h : Restored st st') : Passing st st' id :=
  ⟨fun _ => rfl, fun _ => rfl, fun _ h' => h.trans h'⟩

theorem onFailure_eq_map (r : Option (Ret × State)) (g : State → State) :
    (onFailure r fun after => some (.failure, g after)) = r.map (afterFailure g) := by
  rcases r with _ | ⟨ret, after⟩
  · rfl
  · cases ret <;> rfl

theorem onFailure_map (r : Option (Ret × State)) (g : State → State)
    (G : State → Option (Ret × State)) :
    onFailure (r.map (afterFailure g)) G = onFailure r fun after => G (g after) := by
  rcases r with _ | ⟨ret, after⟩
  · rfl
  · cases ret <;> rfl

end States

/-- `MAX_UNTIL` or `MIN_UNTIL` -/
def untilOp (greedy : Bool) : Opcode := if greedy then .maxUntil else .minUntil

/-- A repetition whose operands are at `pattern` and whose body ends at `pc`. -/
structure LoopAt (code : List CorgiCode) (ic greedy : Bool) (min max : ℕ) (body : Node)
    (pattern pc : ℕ) : Prop where
  op : code[pc]? = some (untilOp greedy).code
  operands : CodeAt code (pattern + 1) (min :: max :: body.code ic)
  ends : pc = pattern + 3 + (body.code ic).length

/-- From `pc` on the code is that of the tasks; `rep` is the context of the repetition that is
innermost. -/
inductive Codes (code : List CorgiCode) (ic : Bool) (contexts : ℕ → Repeat) :
    ℕ → Option ℕ → List Task → Prop
  | done {pc rep} : code[pc]? = some Opcode.success.code → Codes code ic contexts pc rep []
  | node {pc rep n ts} : CodeAt code pc (n.code ic) →
      Codes code ic contexts (pc + (n.code ic).length) rep ts →
      Codes code ic contexts pc rep (.node n :: ts)
  | loop {pc i greedy min max body last ts pattern lastPtr prev} {count : ℕ} :
      LoopAt code ic greedy min max body pattern pc →
      contexts i = ⟨(count : ℤ) - 1, pattern, lastPtr, prev⟩ → (greedy = true → lastPtr = last) →
      (∀ j, prev = some j → j < i) → Codes code ic contexts (pc + 1) prev ts →
      Codes code ic contexts pc (some i) (.loop greedy min max body count last :: ts)
  | jump {pc rep skip ts} : CodeAt code pc [Opcode.jump.code, skip] →
      Codes code ic contexts (pc + 1 + skip) rep ts → Codes code ic contexts pc rep ts
  | mark {pc rep i ts} : CodeAt code pc [Opcode.mark.code, i] → i < markSize →
      Codes code ic contexts (pc + 2) rep ts → Codes code ic contexts pc rep ts

section Codes

variable {code : List CorgiCode} {ic : Bool} {contexts contexts' : ℕ → Repeat} {pc : ℕ}
  {rep : Option ℕ} {ts : List Task}

/-- Only the contexts of the repetitions around count. -/
theorem Codes.frame (h : Codes code ic contexts pc rep ts)
    (hctx : ∀ i j, rep = some i → j ≤ i → contexts' j = contexts j) :
    Codes code ic contexts' pc rep ts := by
  induction h with
  | done hop => exact .done hop
  | node hc _ ih => exact .node hc (ih hctx)
  | @loop _ i _ _ _ _ _ _ _ _ _ _ hl hi hlast hprev _ ih =>
    refine .loop hl ((hctx i i rfl le_rfl).trans hi) hlast hprev (ih fun k j hk hj => ?_)
    exact hctx i j rfl (hj.trans (hprev k hk).le)
  | jump hc _ ih => exact .jump hc (ih hctx)
  | mark hc hi _ ih => exact .mark hc hi (ih hctx)

theorem Codes.chain {ns : List Node} (hc : CodeAt code pc (chainCode ic ns))
    (h : Codes code ic contexts (pc + (chainCode ic ns).length) rep ts) :
    Codes code ic contexts pc rep (ns.map .node ++ ts) := by
  induction ns generalizing pc with
  | nil => exact h
  | cons n ns ih =>
    rw [chainCode, codeAt_append] at hc
    rw [chainCode, List.length_append, ← Nat.add_assoc] at h
    exact .node hc.1 (ih hc.2 h)

end Codes

/-- At `pc` in `st` the engine is where a search is before `x`. -/
structure Fits (code : List CorgiCode) (ic : Bool) (x : Config) (pc : ℕ) (st : State) : Prop where
  codes : Codes code ic st.contexts pc st.repeat x.1
  allocated : ∀ i, st.repeat = some i → i < st.allocated

theorem Fits.restored {code : List CorgiCode} {ic : Bool} {x : Config} {pc : ℕ} {st st' : State}
    (h : Fits code ic x pc st) (hst : Restored st st') : Fits code ic x pc st' where
  codes := by
    rw [hst.repeat]
    exact h.codes.frame fun i j hi hj => hst.contexts j (hj.trans_lt (h.allocated i hi))
  allocated i hi := by
    rw [hst.allocated]
    exact h.allocated i (hst.repeat ▸ hi)

abbrev Jump := ℕ → ℕ → State → Option (Ret × State)

section Turns

variable (m : Meaning) (subject : List CorgiChar) (code : List CorgiCode) (ic : Bool)

/-- The engine knows what `x` comes to, or finds out by a jump. -/
inductive Calls (x : Config) (st : State) : (Jump → Option (Ret × State)) → Prop
  | returns {r ret after F} : Backtracking.Search (next m subject) x r → Yields st r ret after →
      (∀ jump, F jump = some (ret, after)) → Calls x st F
  | enter {pc st' f F} : Fits code ic x pc st' → Passing st st' f →
      (∀ jump : Jump, F jump = (jump pc x.2 st').map f) → Calls x st F

/-- The engine makes a step of the search. -/
inductive Turn (x : Config) (st : State) : (Jump → Option (Ret × State)) → Prop
  | returns {r ret after F} : Backtracking.Search (next m subject) x r → Yields st r ret after →
      (∀ jump, F jump = some (ret, after)) → Turn x st F
  | goto {y F} : next m subject x = .goto y → Calls m subject code ic y st F → Turn x st F
  | orElse {y z F H} {G : Jump → State → Option (Ret × State)} : next m subject x = .orElse y z →
      Calls m subject code ic y st F →
      (∀ after, Restored st after → Calls m subject code ic z after fun jump => G jump after) →
      (∀ jump, H jump = onFailure (F jump) (G jump)) → Turn x st H

end Turns

section Calls

variable {m : Meaning} {subject : List CorgiChar} {code : List CorgiCode} {ic : Bool} {x : Config}
  {st st' : State} {F : Jump → Option (Ret × State)}

theorem Calls.restored (h : Calls m subject code ic x st' F) (hst : Restored st st') :
    Calls m subject code ic x st F := by
  cases h with
  | returns hx hm hF => exact .returns hx (hm.of_restored hst) hF
  | enter hx hp hF =>
    exact .enter hx ⟨hp.ret, hp.ptr, fun after h => hst.trans (hp.restored after h)⟩ hF

theorem Calls.map (h : Calls m subject code ic x st' F) {f : Ret × State → Ret × State}
    (hf : Passing st st' f) : Calls m subject code ic x st fun jump => (F jump).map f := by
  cases h with
  | returns hx hm hF => exact .returns hx (hf.yields hm) fun jump => by rw [hF]; rfl
  | @enter _ _ g _ hx hp hF =>
    refine .enter hx ⟨fun v => (hf.ret _).trans (hp.ret v), fun after => ?_, fun after h => ?_⟩
      fun jump => by rw [hF, Option.map_map]; rfl
    · have hg : g (.success, after) = (.success, (g (.success, after)).2) :=
        Prod.ext (hp.ret _) rfl
      change (f (g (.success, after))).2.ptr = after.ptr
      rw [hg, hf.ptr]
      exact hp.ptr after
    · have hg : g (.failure, after) = (.failure, (g (.failure, after)).2) :=
        Prod.ext (hp.ret _) rfl
      change Restored st (f (g (.failure, after))).2
      rw [hg]
      exact hf.restored _ (hp.restored after h)

end Calls

section Nodes

variable {unicode : Unicode} {subject : List CorgiChar} {code : List CorgiCode} {ic : Bool}
  {pc p : ℕ} {st : State} {ts : List Task}

theorem read_op (op : Opcode) {i : ℕ} (h : code[i]? = some op.code) :
    code[i]?.bind Opcode.ofCode = some op := by simp [h]

/-- A jump to where `x` fits, whose result is returned. -/
theorem calls_of_fits {m : Meaning} {x : Config} {st' : State} (hst : Restored st st')
    (h : Fits code ic x pc st') :
    Calls m subject code ic x st fun jump => jump pc x.2 st' :=
  .enter h (.of_restored hst) fun jump => by rw [Option.map_id, id]

/-- The test of a character. -/
theorem turn_char {m : Meaning} {x : Config} {test : CorgiChar → Option Bool}
    (hnext : next m subject x = charStep subject test ts p) {pc' : ℕ}
    (hfits : Fits code ic (ts, p + 1) pc' st) {F : Jump → Option (Ret × State)}
    (hnone : subject[p]? = none → ∀ jump, F jump = some (.failure, st))
    (hsome : ∀ ch, subject[p]? = some ch → ∀ jump, F jump =
      match test ch with
      | none => some (.fault, st)
      | some true => jump pc' (p + 1) st
      | some false => some (.failure, st)) : Turn m subject code ic x st F := by
  unfold charStep at hnext
  rcases hch : subject[p]? with _ | ch
  · rw [hch] at hnext
    exact .returns (.fail hnext) ⟨rfl, .refl st⟩ (hnone hch)
  · rw [hch] at hnext
    simp only [] at hnext
    rcases htest : test ch with _ | _ | _
    · rw [htest] at hnext
      exact .returns (.accept hnext) rfl fun jump => by rw [hsome ch hch, htest]
    · rw [htest] at hnext
      exact .returns (.fail hnext) ⟨rfl, .refl st⟩ fun jump => by rw [hsome ch hch, htest]
    · rw [htest] at hnext
      have hF : F = fun jump => jump pc' (p + 1) st := funext fun jump => by
        rw [hsome ch hch, htest]
      rw [hF]
      exact .goto hnext (calls_of_fits (.refl st) hfits)

theorem turn_any (hc : CodeAt code pc (Node.any.code ic))
    (hfits : Fits code ic (ts, p + 1) (pc + 1) st) :
    Turn (engineMeaning unicode ic) subject code ic (.node .any :: ts, p) st
      fun jump => matchTurn unicode code subject jump pc p st := by
  obtain ⟨hop, -⟩ := hc
  refine turn_char rfl hfits (fun hch jump => ?_) fun ch hch jump => ?_
  · simp only [matchTurn, read_op .any hop, hch]
  · simp only [matchTurn, read_op .any hop, hch]
    cases isLinebreak ch <;> rfl

theorem turn_literal {c : CorgiChar} (hc : CodeAt code pc ((Node.literal c).code ic))
    (hfits : Fits code ic (ts, p + 1) (pc + 2) st) :
    Turn (engineMeaning unicode ic) subject code ic (.node (.literal c) :: ts, p) st
      fun jump => matchTurn unicode code subject jump pc p st := by
  obtain ⟨hop, hlit, -⟩ := hc
  refine turn_char rfl hfits (fun hch jump => ?_) fun ch hch jump => ?_
  · cases ic
    · simp only [matchTurn, read_op .literal hop, hch]
    · simp only [matchTurn, read_op .literalIgnore hop, hch]
  · cases ic
    · simp only [matchTurn, read_op .literal hop, hch, hlit, engineMeaning, literalMatches]
      by_cases he : ch = c <;> simp [he]
    · simp only [matchTurn, read_op .literalIgnore hop, hch, hlit, engineMeaning,
        literalMatches]
      by_cases he : unicode.tolower ch = unicode.tolower c <;> simp [he]

theorem turn_in {set : List SetNode} (hlen : code.length < 2 ^ 32)
    (hc : CodeAt code pc ((Node.in set).code ic))
    (hfits : Fits code ic (ts, p + 1) (pc + ((Node.in set).code ic).length) st) :
    Turn (engineMeaning unicode ic) subject code ic (.node (.in set) :: ts, p) st
      fun jump => matchTurn unicode code subject jump pc p st := by
  have hle := hc.le (Node.code_ne_nil _)
  obtain ⟨hop, hskip, hset⟩ := hc
  have hset : CodeAt code (pc + 2) (setCode ic set ++ [Opcode.failure.code]) := hset
  simp only [Node.code, List.cons_append, List.nil_append, List.length_cons, List.length_append,
    List.length_nil] at hle hfits
  rw [toCode_of_lt (by omega)] at hskip
  have hpc : pc + ((setCode ic set).length + (0 + 1) + 1 + 1) =
      pc + 1 + ((setCode ic set).length + 2) := by omega
  rw [hpc] at hfits
  refine turn_char rfl hfits (fun hch jump => ?_) fun ch hch jump => ?_
  · simp only [matchTurn, read_op .in hop, hch]
  · simp only [matchTurn, read_op .in hop, hch, charsetAt_eq hset, hskip, engineMeaning]
    rcases charsetMatches unicode ic set ch true with _ | _ | _ <;> rfl

theorem turn_at {type : AtCode} (hc : CodeAt code pc ((Node.at type).code ic))
    (hfits : Fits code ic (ts, p) (pc + 2) st) :
    Turn (engineMeaning unicode ic) subject code ic (.node (.at type) :: ts, p) st
      fun jump => matchTurn unicode code subject jump pc p st := by
  obtain ⟨hop, htype, -⟩ := hc
  by_cases hat : sreAt subject p type = true
  · have hF : (fun jump => matchTurn unicode code subject jump pc p st) =
        fun jump : Jump => jump (pc + 2) p st := funext fun jump => by
      simp [matchTurn, read_op .at hop, htype, hat]
    rw [hF]
    exact .goto (if_pos hat) (calls_of_fits (.refl st) hfits)
  · exact .returns (.fail (if_neg hat)) ⟨rfl, .refl st⟩ fun jump => by
      simp [matchTurn, read_op .at hop, htype, hat]

theorem turn_subpattern {groupId : ℕ} {name : Option (List CorgiChar)} {ns : List Node}
    (hc : CodeAt code pc ((Node.subpattern groupId name ns).code ic))
    (hfits : Fits code ic (ts, p) (pc + ((Node.subpattern groupId name ns).code ic).length) st) :
    Turn (engineMeaning unicode ic) subject code ic (.node (.subpattern groupId name ns) :: ts, p)
      st fun jump => matchTurn unicode code subject jump pc p st := by
  simp only [Node.code, List.cons_append, List.nil_append, List.length_cons, List.length_append,
    List.length_nil, codeAt_cons, codeAt_append] at hc hfits
  obtain ⟨hop, hid, hns, hop', hid', -⟩ := hc
  by_cases hg : toCode (2 * groupId) < markSize
  · obtain ⟨st', hmark, -, hst⟩ := setMark_restored hg st p
    have hg' : toCode (2 * groupId + 1) < markSize := by
      have hnext : ∀ n : ℕ, 2 * n % 2 ^ 32 < 200 → (2 * n + 1) % 2 ^ 32 < 200 := by omega
      exact hnext groupId hg
    have hend : Fits code ic (ts, p) (pc + 1 + 1 + (chainCode ic ns).length + 2) st' := by
      have := hfits.restored hst
      rwa [show pc + ((chainCode ic ns).length + (0 + 1 + 1) + 1 + 1) =
        pc + 1 + 1 + (chainCode ic ns).length + 2 by omega] at this
    have hF : (fun jump => matchTurn unicode code subject jump pc p st) =
        fun jump : Jump => jump (pc + 2) p st' := funext fun jump => by
      simp [matchTurn, read_op .mark hop, hid, hmark]
    rw [hF]
    refine .goto (if_pos (by simpa [engineMeaning] using hg)) (calls_of_fits hst ?_)
    refine ⟨Codes.chain hns (.mark ⟨hop', hid', trivial⟩ hg' hend.codes), hend.allocated⟩
  · have hF : (fun jump => matchTurn unicode code subject jump pc p st) =
        fun _ : Jump => some (.fault, st) := funext fun jump => by
      simp only [matchTurn, read_op .mark hop, hid, Option.bind_some, setMark_none hg]
    rw [hF]
    have hfault : Yields st (some .fault) .fault st := rfl
    exact .returns (.accept (if_neg (by simpa [engineMeaning] using hg))) hfault fun _ => rfl

/-- What is done where an alternative has failed. -/
def nextAlternative (saved after : State) : State :=
  (if saved.repeat.isSome then after.popMarks saved else after).restoreLastmark saved

theorem restored_nextAlternative (saved after : State) :
    Restored after (nextAlternative saved after) := by
  unfold nextAlternative
  split_ifs <;> exact ⟨rfl, rfl, fun _ _ => rfl⟩

/-- An alternative is passed over where it fails, and gives a fault where it does. -/
theorem passesOver_cases (unicode : Unicode) (subject : List CorgiChar) (p : ℕ) {ns : List Node}
    {skip pattern : ℕ} (hc : CodeAt code pattern (alternativeCode (chainCode ic ns) skip))
    (ts : List Task) :
    (passesOver unicode code subject pattern p = none ∧
        Backtracking.Search (next (engineMeaning unicode ic) subject) (ns.map .node ++ ts, p)
          (some .fault)) ∨
      (passesOver unicode code subject pattern p = some true ∧
        Backtracking.Search (next (engineMeaning unicode ic) subject) (ns.map .node ++ ts, p)
          none) ∨
      passesOver unicode code subject pattern p = some false := by
  obtain ⟨-, hc⟩ := hc
  rw [codeAt_append] at hc
  obtain ⟨hns, hop', -⟩ := hc
  unfold passesOver
  rcases ns with _ | ⟨n, ns⟩
  · refine .inr (.inr ?_)
    rw [read_op .jump (i := pattern + 1) hop']
  · rw [chainCode, codeAt_append] at hns
    obtain ⟨hn, -⟩ := hns
    cases n with
    | «in» set =>
      obtain ⟨hop, -, hset⟩ := hn
      have hset : CodeAt code (pattern + 3) (setCode ic set ++ [Opcode.failure.code]) := hset
      rw [read_op .in hop]
      simp only []
      rcases hch : subject[p]? with _ | ch
      · refine .inr (.inl ⟨rfl, .fail ?_⟩)
        simp [next, charStep, hch]
      · simp only [charsetAt_eq hset]
        rcases hm : charsetMatches unicode ic set ch true with _ | _ | _
        · refine .inl ⟨rfl, .accept ?_⟩
          simp [next, charStep, hch, engineMeaning, hm]
        · refine .inr (.inl ⟨rfl, .fail ?_⟩)
          simp [next, charStep, hch, engineMeaning, hm]
        · exact .inr (.inr rfl)
    | literal c =>
      obtain ⟨hop, hlit, -⟩ := hn
      have hlit : code[pattern + 2]? = some c := hlit
      cases ic
      · rw [read_op .literal hop]
        simp only [hlit]
        by_cases hch : subject[p]? = some c
        · exact .inr (.inr (by simp [hch]))
        · refine .inr (.inl ⟨by simp [hch], .fail ?_⟩)
          simp only [next, List.map_cons, List.cons_append, charStep]
          rcases hs : subject[p]? with _ | ch
          · rfl
          · have hne : ch ≠ c := fun he => hch (by rw [hs, he])
            simp [engineMeaning, literalMatches, hne]
      · rw [read_op .literalIgnore hop]
        exact .inr (.inr rfl)
    | any =>
      rw [read_op .any hn.1]
      exact .inr (.inr rfl)
    | «at» type =>
      rw [read_op .at hn.1]
      exact .inr (.inr rfl)
    | branch left right =>
      rw [read_op .branch hn.1]
      exact .inr (.inr rfl)
    | maxRepeat min max body =>
      rw [read_op .repeat hn.1]
      exact .inr (.inr rfl)
    | minRepeat min max body =>
      rw [read_op .repeat hn.1]
      exact .inr (.inr rfl)
    | subpattern groupId name node =>
      rw [read_op .mark hn.1]
      exact .inr (.inr rfl)

/-- `BRANCH` tries an alternative, and goes on behind it if that fails. -/
theorem alternative_calls (unicode : Unicode) (subject : List CorgiChar) {ns : List Node}
    {skip pattern : ℕ} (hlen : code.length < 2 ^ 32)
    (hc : CodeAt code pattern (alternativeCode (chainCode ic ns) skip))
    (hfits : Fits code ic (ts, p) (pattern + (chainCode ic ns).length + 2 + skip) st)
    (hskip : skip < 2 ^ 32) (turns : ℕ) (saved : State) :
    ∃ F, Calls (engineMeaning unicode ic) subject code ic (ns.map .node ++ ts, p) st F ∧
      ∀ jump, matchBranches unicode code subject jump (turns + 1) pattern p st saved =
        onFailure (F jump) fun after => matchBranches unicode code subject jump turns
          (pattern + ((chainCode ic ns).length + 3)) p after saved := by
  have hle := hc.le (by simp [alternativeCode])
  have hpass := passesOver_cases unicode subject p hc ts
  obtain ⟨hoff, hc⟩ := hc
  rw [codeAt_append] at hc
  obtain ⟨hns, hop', hjump, -⟩ := hc
  simp only [alternativeCode, List.length_cons, List.length_append, List.length_nil] at hle
  rw [toCode_of_lt (by omega)] at hoff
  rw [toCode_of_lt hskip] at hjump
  have hturn : ∀ jump, matchBranches unicode code subject jump (turns + 1) pattern p st saved =
      match passesOver unicode code subject pattern p with
      | none => some (.fault, st)
      | some true => matchBranches unicode code subject jump turns
          (pattern + ((chainCode ic ns).length + 3)) p st saved
      | some false =>
        onFailure (jump (pattern + 1) p { st with ptr := p }) fun after =>
          matchBranches unicode code subject jump turns
            (pattern + ((chainCode ic ns).length + 3)) p (nextAlternative saved after) saved :=
    fun jump => by
      rw [matchBranches, hoff]
      exact if_neg (Nat.succ_ne_zero _)
  rcases hpass with ⟨hpass, hx⟩ | ⟨hpass, hx⟩ | hpass
  · have hfault : Yields st (some .fault) .fault st := rfl
    refine ⟨fun _ => some (.fault, st), .returns hx hfault fun _ => rfl, fun jump => ?_⟩
    rw [hturn, hpass]
    rfl
  · refine ⟨fun _ => some (.failure, st), .returns hx ⟨rfl, .refl st⟩ fun _ => rfl, fun jump => ?_⟩
    rw [hturn, hpass]
    rfl
  · have hst : Restored st { st with ptr := p } := ⟨rfl, rfl, fun _ _ => rfl⟩
    have hend : Codes code ic st.contexts (pattern + 1 + (chainCode ic ns).length) st.repeat
        ts := by
      refine .jump ⟨hop', hjump, trivial⟩ ?_
      have := hfits.codes
      rwa [show pattern + (chainCode ic ns).length + 2 + skip =
        pattern + 1 + (chainCode ic ns).length + 1 + skip by omega] at this
    refine ⟨fun jump => (jump (pattern + 1) p { st with ptr := p }).map
      (afterFailure (nextAlternative saved)), ?_, fun jump => ?_⟩
    · have hx : Fits code ic (ns.map .node ++ ts, p) (pattern + 1) { st with ptr := p } :=
        ⟨.chain hns hend, hfits.allocated⟩
      refine .enter hx ?_ fun jump => rfl
      exact passing_afterFailure fun after h =>
        (hst.trans h).trans (restored_nextAlternative saved after)
    · rw [hturn, hpass, onFailure_map]

theorem turn_branch {left right : List Node} (hlen : code.length < 2 ^ 32)
    (hc : CodeAt code pc ((Node.branch left right).code ic))
    (hfits : Fits code ic (ts, p) (pc + ((Node.branch left right).code ic).length) st) :
    Turn (engineMeaning unicode ic) subject code ic (.node (.branch left right) :: ts, p) st
      fun jump => matchTurn unicode code subject jump pc p st := by
  have hle := hc.le (Node.code_ne_nil _)
  have hlengths : ((Node.branch left right).code ic).length =
      (chainCode ic left).length + (chainCode ic right).length + 8 := by
    simp [Node.code, alternativeCode]
    omega
  rw [hlengths] at hle hfits
  obtain ⟨hop, hc⟩ := hc
  simp only [codeAt_append, codeAt_cons, codeAt_nil] at hc
  obtain ⟨hleft, hright, hend, -⟩ := hc
  have hl : (alternativeCode (chainCode ic left) ((chainCode ic right).length + 5)).length =
      (chainCode ic left).length + 3 := by simp [alternativeCode]
  have hr : (alternativeCode (chainCode ic right) 2).length = (chainCode ic right).length + 3 := by
    simp [alternativeCode]
  rw [hl] at hright hend
  rw [hr] at hend
  have hfits₁ : Fits code ic (ts, p)
      (pc + 1 + (chainCode ic left).length + 2 + ((chainCode ic right).length + 5)) st := by
    rwa [show pc + 1 + (chainCode ic left).length + 2 + ((chainCode ic right).length + 5) =
      pc + ((chainCode ic left).length + (chainCode ic right).length + 8) by omega]
  obtain ⟨F, hF, hF'⟩ := alternative_calls unicode subject hlen hleft hfits₁ (by omega)
    code.length st
  obtain ⟨turns, hturns⟩ : ∃ n, code.length = n + 2 := ⟨code.length - 2, by omega⟩
  have hH : ∀ jump, matchTurn unicode code subject jump pc p st =
      onFailure (F jump) fun after => matchBranches unicode code subject jump code.length
        (pc + 1 + ((chainCode ic left).length + 3)) p after st := fun jump => by
    simp only [matchTurn, read_op .branch hop, hF' jump]
  refine .orElse rfl hF (fun after hafter => ?_) hH
  have hfits₂ : Fits code ic (ts, p)
      (pc + 1 + ((chainCode ic left).length + 3) + (chainCode ic right).length + 2 + 2) after := by
    rw [show pc + 1 + ((chainCode ic left).length + 3) + (chainCode ic right).length + 2 + 2 =
      pc + ((chainCode ic left).length + (chainCode ic right).length + 8) by omega]
    exact hfits.restored hafter
  obtain ⟨G, hG, hG'⟩ := alternative_calls unicode subject hlen hright hfits₂ (by omega)
    (turns + 1) st
  have hlast : ∀ jump after, matchBranches unicode code subject jump (turns + 1)
      (pc + 1 + ((chainCode ic left).length + 3) + ((chainCode ic right).length + 3)) p after st =
        some (.failure, after) := fun jump after => by
    rw [matchBranches, hend]
    rfl
  have hback : ∀ r : Option (Ret × State),
      onFailure r (fun after => some (.failure, after)) = r := by
    rintro (_ | ⟨ret, after⟩)
    · rfl
    · cases ret <;> rfl
  have hGeq : (fun jump => matchBranches unicode code subject jump code.length
      (pc + 1 + ((chainCode ic left).length + 3)) p after st) = G := funext fun jump => by
    rw [hturns, hG' jump]
    simp only [hlast, hback]
  rw [hGeq]
  exact hG

theorem turn_repeat {x : Config} (greedy : Bool) {min max : ℕ} {body : Node}
    (hnext : next (engineMeaning unicode ic) subject x =
      .goto (.loop greedy (toCode min) (toCode max) body 0 none :: ts, p))
    (hlen : code.length < 2 ^ 32)
    (hc : CodeAt code pc (repeatCode min max (body.code ic) (untilOp greedy)))
    (hfits : Fits code ic (ts, p)
      (pc + (repeatCode min max (body.code ic) (untilOp greedy)).length) st) :
    Turn (engineMeaning unicode ic) subject code ic x st
      fun jump => matchTurn unicode code subject jump pc p st := by
  have hle := hc.le (by simp [repeatCode])
  simp only [repeatCode, List.cons_append, List.nil_append, List.length_cons, List.length_append,
    List.length_nil, codeAt_cons, codeAt_append] at hc hle hfits
  obtain ⟨hop, hskip, hmin, hmax, hbody, huntil, -⟩ := hc
  rw [toCode_of_lt (by omega)] at hskip
  let rep : Repeat := { count := -1, pattern := pc + 1, lastPtr := none, prev := st.repeat }
  let inner : State := { st.setContext st.allocated rep with
    ptr := p, «repeat» := some st.allocated, allocated := st.allocated + 1 }
  have hpc : pc + 1 + 1 + 1 + 1 + (body.code ic).length = pc + 1 + ((body.code ic).length + 3) := by
    omega
  rw [hpc] at huntil
  have hctx : ∀ j < st.allocated, inner.contexts j = st.contexts j := fun j hj =>
    if_neg (Nat.ne_of_lt hj)
  have hx : Fits code ic (.loop greedy (toCode min) (toCode max) body 0 none :: ts, p)
      (pc + 1 + ((body.code ic).length + 3)) inner := by
    have hloop : LoopAt code ic greedy (toCode min) (toCode max) body (pc + 1)
        (pc + 1 + ((body.code ic).length + 3)) := ⟨huntil, ⟨hmin, hmax, hbody⟩, by omega⟩
    have hrep : inner.contexts st.allocated = rep := if_pos rfl
    refine ⟨.loop hloop hrep (fun _ => rfl) hfits.allocated ?_, ?_⟩
    · have := hfits.codes
      rw [show pc + ((body.code ic).length + (0 + 1) + 1 + 1 + 1 + 1) =
        pc + 1 + ((body.code ic).length + 3) + 1 by omega] at this
      exact this.frame fun i j hi hj => hctx j (hj.trans_lt (hfits.allocated i hi))
    · rintro i hi
      cases hi
      exact Nat.lt_succ_self _
  refine .goto hnext (.enter (f := fun v => (v.1, { v.2 with
    «repeat» := st.repeat, allocated := st.allocated })) hx ?_ fun jump => ?_)
  · refine ⟨fun _ => rfl, fun _ => rfl, fun after h => ⟨rfl, rfl, fun j hj => ?_⟩⟩
    exact (h.contexts j (Nat.lt_succ_of_lt hj)).trans (hctx j hj)
  · simp only [matchTurn, read_op .repeat hop, matchRepeat, hskip]
    rfl

section Until

variable {i pattern count : ℕ} {greedy : Bool} {min max : ℕ} {body : Node} {last lastPtr : Option ℕ}
  {prev : Option ℕ}

/-- The body is matched once more. -/
theorem body_calls (hl : LoopAt code ic greedy min max body pattern pc)
    (hrep : st.repeat = some i) (hi : i < st.allocated)
    (hctx : st.contexts i = ⟨(count : ℤ) - 1, pattern, lastPtr, prev⟩)
    (hlast : greedy = true → lastPtr = last) (hprev : ∀ j, prev = some j → j < i)
    (hts : Codes code ic st.contexts (pc + 1) prev ts) :
    Calls (engineMeaning unicode ic) subject code ic
      (.node body :: .loop greedy min max body (count + 1) last :: ts, p) st
      fun jump => matchBody jump i count p st := by
  let inner : State := { st.setContext i ⟨count, pattern, lastPtr, prev⟩ with ptr := p }
  have hne : ∀ j, j ≠ i → inner.contexts j = st.contexts j := fun j hj => if_neg hj
  obtain ⟨-, -, hbody⟩ := hl.operands
  have hx : Fits code ic (.node body :: .loop greedy min max body (count + 1) last :: ts, p)
      (pattern + 3) inner := by
    refine ⟨.node hbody ?_, fun j hj => ?_⟩
    · have hinner : inner.repeat = some i := hrep
      rw [hinner, ← hl.ends]
      refine .loop hl (if_pos rfl |>.trans ?_) hlast hprev (hts.frame fun k j hk hj => ?_)
      · simp
      · exact hne j (hj.trans_lt (hprev k hk)).ne
    · cases hrep.symm.trans hj
      exact hi
  refine .enter hx (f := afterFailure fun after =>
    { after.setContext i { after.contexts i with count := (count : ℤ) - 1 } with ptr := p }) ?_
    fun jump => ?_
  · refine passing_afterFailure fun after h => ⟨h.repeat, h.allocated, fun j hj => ?_⟩
    by_cases hji : j = i
    · subst hji
      refine (if_pos rfl).trans ?_
      have hinner : inner.contexts j = ⟨count, pattern, lastPtr, prev⟩ := if_pos rfl
      rw [h.contexts j hj, hinner, hctx]
    · exact (if_neg hji).trans ((h.contexts j hj).trans (hne j hji))
  · rw [← onFailure_eq_map]
    simp only [matchBody, hctx]
    rfl

/-- What follows the repetition is matched. -/
theorem tail_calls {m : Meaning} (hrep : st.repeat = some i) (hi : i < st.allocated)
    (hctx : (st.contexts i).prev = prev) (hprev : ∀ j, prev = some j → j < i)
    (hts : Codes code ic st.contexts (pc + 1) prev ts) :
    Calls m subject code ic (ts, p) st fun jump => matchTail jump i (pc + 1) p st := by
  have hx : Fits code ic (ts, p) (pc + 1) { st with «repeat» := prev, ptr := p } :=
    ⟨hts, fun j hj => (hprev j hj).trans hi⟩
  refine .enter hx (f := afterFailure fun after => { after with «repeat» := some i, ptr := p }) ?_
    fun jump => ?_
  · exact passing_afterFailure fun after h => ⟨hrep.symm, h.allocated, h.contexts⟩
  · rw [← onFailure_eq_map]
    simp only [matchTail, hctx]

theorem matchMaxUntil_eq (hl : LoopAt code ic greedy min max body pattern pc)
    (hrep : st.repeat = some i)
    (hctx : st.contexts i = ⟨(count : ℤ) - 1, pattern, lastPtr, prev⟩) (jump : Jump) (q : ℕ) :
    matchMaxUntil code jump q p st =
      if count < min then matchBody jump i count p st
      else if MayRepeat max count ∧ lastPtr ≠ some p then
        onFailure ((matchBody jump i count p
          (st.setContext i ⟨(count : ℤ) - 1, pattern, some p, prev⟩)).map fun v =>
            (v.1, v.2.setContext i { v.2.contexts i with lastPtr })) fun after =>
          matchTail jump i q p ((after.popMarks st).restoreLastmark st)
      else matchTail jump i q p st := by
  obtain ⟨hmin, hmax, -⟩ := hl.operands
  have hmax : code[pattern + 2]? = some max := hmax
  simp only [matchMaxUntil, hrep, hctx, hmin, hmax, sub_add_cancel, Nat.cast_lt]
  rfl

theorem matchMinUntil_eq (hl : LoopAt code ic greedy min max body pattern pc)
    (hrep : st.repeat = some i)
    (hctx : st.contexts i = ⟨(count : ℤ) - 1, pattern, lastPtr, prev⟩) (jump : Jump) (q : ℕ) :
    matchMinUntil code jump q p st =
      if count < min then matchBody jump i count p st
      else onFailure (matchTail jump i q p st) fun after =>
        if MayRepeat max count then matchBody jump i count p (after.restoreLastmark st)
        else some (.failure, after.restoreLastmark st) := by
  obtain ⟨hmin, hmax, -⟩ := hl.operands
  have hmax : code[pattern + 2]? = some max := hmax
  simp only [matchMinUntil, hrep, hctx, hmin, hmax, sub_add_cancel, Nat.cast_lt]
  refine if_congr Iff.rfl rfl (congrArg _ (funext fun after => ?_))
  have hmore : ((max : ℤ) ≤ count ∧ max ≠ 65535) ↔ ¬ MayRepeat max count := by
    simp [MayRepeat]
  by_cases h : MayRepeat max count
  · rw [if_pos h, if_neg fun hn => hmore.1 hn h]
  · rw [if_neg h, if_pos (hmore.2 h)]

theorem turn_maxUntil (hl : LoopAt code ic true min max body pattern pc)
    (hrep : st.repeat = some i) (hi : i < st.allocated)
    (hctx : st.contexts i = ⟨(count : ℤ) - 1, pattern, last, prev⟩)
    (hprev : ∀ j, prev = some j → j < i) (hts : Codes code ic st.contexts (pc + 1) prev ts) :
    Turn (engineMeaning unicode ic) subject code ic (.loop true min max body count last :: ts, p)
      st fun jump => matchTurn unicode code subject jump pc p st := by
  have hF : (fun jump => matchTurn unicode code subject jump pc p st) = fun jump : Jump =>
      if count < min then matchBody jump i count p st
      else if MayRepeat max count ∧ last ≠ some p then
        onFailure ((matchBody jump i count p
          (st.setContext i ⟨(count : ℤ) - 1, pattern, some p, prev⟩)).map fun v =>
            (v.1, v.2.setContext i { v.2.contexts i with lastPtr := last })) fun after =>
          matchTail jump i (pc + 1) p ((after.popMarks st).restoreLastmark st)
      else matchTail jump i (pc + 1) p st := funext fun jump => by
    simp only [matchTurn, read_op .maxUntil hl.op]
    exact matchMaxUntil_eq hl hrep hctx jump (pc + 1)
  have hctx' : (st.contexts i).prev = prev := by rw [hctx]
  rw [hF]
  by_cases hmin : count < min
  · simp only [if_pos hmin]
    exact .goto (if_pos hmin) (body_calls hl hrep hi hctx (fun _ => rfl) hprev hts)
  · simp only [if_neg hmin]
    by_cases hmore : MayRepeat max count ∧ last ≠ some p
    · simp only [if_pos hmore]
      have hnext : next (engineMeaning unicode ic) subject
          (.loop true min max body count last :: ts, p) =
            .orElse (.node body :: .loop true min max body (count + 1) (some p) :: ts, p)
              (ts, p) := by
        simp only [next, if_neg hmin, if_true]
        exact if_pos hmore
      refine .orElse hnext ?_ (fun after hafter => ?_) fun jump => rfl
      · -- the position of the last iteration is set for the body, and set back behind it
        have hbody : Calls (engineMeaning unicode ic) subject code ic
            (.node body :: .loop true min max body (count + 1) (some p) :: ts, p)
            (st.setContext i ⟨(count : ℤ) - 1, pattern, some p, prev⟩) fun jump =>
              matchBody jump i count p
                (st.setContext i ⟨(count : ℤ) - 1, pattern, some p, prev⟩) :=
          body_calls hl hrep hi (if_pos rfl) (fun _ => rfl) hprev
            (hts.frame fun k j hk hj => if_neg (hj.trans_lt (hprev k hk)).ne)
        refine hbody.map
          ⟨fun _ => rfl, fun _ => rfl, fun after h => ⟨h.repeat, h.allocated, fun j hj => ?_⟩⟩
        by_cases hji : j = i
        · subst hji
          refine (if_pos rfl).trans ?_
          rw [h.contexts j hj, hctx]
          exact congrArg (fun rep : Repeat => { rep with lastPtr := last }) (if_pos rfl)
        · exact (if_neg hji).trans ((h.contexts j hj).trans (if_neg hji))
      · have hback : Restored after ((after.popMarks st).restoreLastmark st) :=
          ⟨rfl, rfl, fun _ _ => rfl⟩
        have h := hafter.trans hback
        refine (tail_calls (h.repeat.trans hrep) (h.allocated ▸ hi) ?_ hprev ?_).restored hback
        · rw [h.contexts i hi, hctx]
        · exact hts.frame fun k j hk hj => h.contexts j ((hj.trans_lt (hprev k hk)).trans hi)
    · simp only [if_neg hmore]
      have hnext : next (engineMeaning unicode ic) subject
          (.loop true min max body count last :: ts, p) = .goto (ts, p) := by
        simp only [next, if_neg hmin, if_true]
        exact if_neg hmore
      exact .goto hnext (tail_calls hrep hi hctx' hprev hts)

theorem turn_minUntil (hl : LoopAt code ic false min max body pattern pc)
    (hrep : st.repeat = some i) (hi : i < st.allocated)
    (hctx : st.contexts i = ⟨(count : ℤ) - 1, pattern, lastPtr, prev⟩)
    (hprev : ∀ j, prev = some j → j < i) (hts : Codes code ic st.contexts (pc + 1) prev ts) :
    Turn (engineMeaning unicode ic) subject code ic (.loop false min max body count last :: ts, p)
      st fun jump => matchTurn unicode code subject jump pc p st := by
  have hF : (fun jump => matchTurn unicode code subject jump pc p st) = fun jump : Jump =>
      if count < min then matchBody jump i count p st
      else onFailure (matchTail jump i (pc + 1) p st) fun after =>
        if MayRepeat max count then matchBody jump i count p (after.restoreLastmark st)
        else some (.failure, after.restoreLastmark st) := funext fun jump => by
    simp only [matchTurn, read_op .minUntil hl.op]
    exact matchMinUntil_eq hl hrep hctx jump (pc + 1)
  have hctx' : (st.contexts i).prev = prev := by rw [hctx]
  rw [hF]
  by_cases hmin : count < min
  · simp only [if_pos hmin]
    exact .goto (if_pos hmin) (body_calls hl hrep hi hctx nofun hprev hts)
  · simp only [if_neg hmin]
    have htail : Calls (engineMeaning unicode ic) subject code ic (ts, p) st fun jump =>
        matchTail jump i (pc + 1) p st := tail_calls hrep hi hctx' hprev hts
    by_cases hmore : MayRepeat max count
    · simp only [if_pos hmore]
      have hnext : next (engineMeaning unicode ic) subject
          (.loop false min max body count last :: ts, p) =
            .orElse (ts, p)
              (.node body :: .loop false min max body (count + 1) (some p) :: ts, p) := by
        simp only [next, if_neg hmin, Bool.false_eq_true, if_false]
        exact if_pos hmore
      refine .orElse hnext htail (fun after hafter => ?_) fun jump => rfl
      have hback : Restored after (after.restoreLastmark st) := ⟨rfl, rfl, fun _ _ => rfl⟩
      have h := hafter.trans hback
      refine (body_calls hl (h.repeat.trans hrep) (h.allocated ▸ hi)
        ((h.contexts i hi).trans hctx) nofun hprev ?_).restored hback
      exact hts.frame fun k j hk hj => h.contexts j ((hj.trans_lt (hprev k hk)).trans hi)
    · simp only [if_neg hmore]
      have hnext : next (engineMeaning unicode ic) subject
          (.loop false min max body count last :: ts, p) = .goto (ts, p) := by
        simp only [next, if_neg hmin, Bool.false_eq_true, if_false]
        exact if_neg hmore
      refine .goto hnext ?_
      simp only [onFailure_eq_map]
      exact htail.map (passing_afterFailure fun after h => h.trans ⟨rfl, rfl, fun _ _ => rfl⟩)

end Until

theorem turn_node {n : Node} (hlen : code.length < 2 ^ 32) (hc : CodeAt code pc (n.code ic))
    (hfits : Fits code ic (ts, p) (pc + (n.code ic).length) st) :
    Turn (engineMeaning unicode ic) subject code ic (.node n :: ts, p) st
      fun jump => matchTurn unicode code subject jump pc p st := by
  cases n with
  | any => exact turn_any hc ⟨hfits.codes, hfits.allocated⟩
  | «at» type => exact turn_at hc hfits
  | branch left right => exact turn_branch hlen hc hfits
  | «in» set => exact turn_in hlen hc ⟨hfits.codes, hfits.allocated⟩
  | literal c => exact turn_literal hc ⟨hfits.codes, hfits.allocated⟩
  | maxRepeat min max body => exact turn_repeat true rfl hlen hc hfits
  | minRepeat min max body => exact turn_repeat false rfl hlen hc hfits
  | subpattern groupId name ns => exact turn_subpattern hc hfits

theorem turn_done (h : code[pc]? = some Opcode.success.code) :
    Turn (engineMeaning unicode ic) subject code ic ([], p) st
      fun jump => matchTurn unicode code subject jump pc p st := by
  have hfound : Yields st (some (.found p)) .success { st with ptr := p } := ⟨rfl, rfl⟩
  refine .returns (.accept rfl) hfound fun jump => ?_
  simp only [matchTurn, read_op .success h]

theorem turn_loop {i pattern count : ℕ} {greedy : Bool} {min max : ℕ} {body : Node}
    {last lastPtr prev : Option ℕ} (hl : LoopAt code ic greedy min max body pattern pc)
    (hrep : st.repeat = some i) (hi : i < st.allocated)
    (hctx : st.contexts i = ⟨(count : ℤ) - 1, pattern, lastPtr, prev⟩)
    (hlast : greedy = true → lastPtr = last) (hprev : ∀ j, prev = some j → j < i)
    (hts : Codes code ic st.contexts (pc + 1) prev ts) :
    Turn (engineMeaning unicode ic) subject code ic (.loop greedy min max body count last :: ts, p)
      st fun jump => matchTurn unicode code subject jump pc p st := by
  cases greedy with
  | false => exact turn_minUntil hl hrep hi hctx hprev hts
  | true =>
    rw [hlast rfl] at hctx
    exact turn_maxUntil hl hrep hi hctx hprev hts

theorem matchTurn_jump {skip : ℕ} (hc : CodeAt code pc [Opcode.jump.code, skip]) (jump : Jump) :
    matchTurn unicode code subject jump pc p st = jump (pc + 1 + skip) p st := by
  obtain ⟨hop, hskip, -⟩ := hc
  simp only [matchTurn, read_op .jump hop, hskip]

theorem matchTurn_mark {i : ℕ} (hc : CodeAt code pc [Opcode.mark.code, i]) (hi : i < markSize) :
    ∃ st', st'.contexts = st.contexts ∧ Restored st st' ∧ ∀ jump : Jump,
      matchTurn unicode code subject jump pc p st = jump (pc + 2) p st' := by
  obtain ⟨hop, hid, -⟩ := hc
  obtain ⟨st', hmark, hctx, hst⟩ := setMark_restored hi st p
  refine ⟨st', hctx, hst, fun jump => ?_⟩
  simp only [matchTurn, read_op .mark hop, hid, Option.bind_some, hmark]

/-- Where the engine fits it makes a step, or jumps to where it fits as well. -/
theorem Fits.turn (unicode : Unicode) (subject : List CorgiChar) {x : Config}
    (hlen : code.length < 2 ^ 32) (h : Fits code ic x pc st) :
    Turn (engineMeaning unicode ic) subject code ic x st
        (fun jump => matchTurn unicode code subject jump pc x.2 st) ∨
      ∃ pc' st', Restored st st' ∧ Fits code ic x pc' st' ∧
        ∀ jump, matchTurn unicode code subject jump pc x.2 st = jump pc' x.2 st' := by
  obtain ⟨ts, p⟩ := x
  obtain ⟨hcodes, halloc⟩ := h
  generalize hrep : st.repeat = rep at hcodes
  simp only at hcodes
  cases hcodes with
  | done hop => exact .inl (turn_done hop)
  | node hc hts =>
    subst hrep
    exact .inl (turn_node hlen hc ⟨hts, halloc⟩)
  | loop hl hctx hlast hprev hts =>
    exact .inl (turn_loop hl hrep (halloc _ hrep) hctx hlast hprev hts)
  | jump hc hts =>
    subst hrep
    exact .inr ⟨_, st, .refl st, ⟨hts, halloc⟩, matchTurn_jump hc⟩
  | mark hc hi hts =>
    subst hrep
    obtain ⟨st', -, hst, hjump⟩ := matchTurn_mark hc hi
    have hfits : Fits code ic (ts, p) (pc + 2) st := ⟨hts, halloc⟩
    exact .inr ⟨_, st', hst, hfits.restored hst, hjump⟩

end Nodes

section Sound

variable {m : Meaning} {subject : List CorgiChar} {code : List CorgiCode} {ic : Bool} {x : Config}
  {st : State} {F : Jump → Option (Ret × State)} {jump jump' : Jump} {ret : Ret} {after : State}

/-- What a jump returns is what the search comes to. -/
def Sound (m : Meaning) (subject : List CorgiChar) (code : List CorgiCode) (ic : Bool)
    (jump : Jump) : Prop :=
  ∀ ⦃x pc st ret after⦄, Fits code ic x pc st → jump pc x.2 st = some (ret, after) →
    ∃ r, Backtracking.Search (next m subject) x r ∧ Yields st r ret after

/-- One jump returns what another does. -/
def Extends (code : List CorgiCode) (ic : Bool) (jump jump' : Jump) : Prop :=
  ∀ ⦃x pc st v⦄, Fits code ic x pc st → jump pc x.2 st = some v → jump' pc x.2 st = some v

theorem Yields.ne_failure {a : Answer} (h : Yields st (some a) ret after) : ret ≠ .failure := by
  rcases a with q | _
  · rw [h.1]
    nofun
  · rw [show ret = .fault from h]
    nofun

theorem onFailure_of_ne (h : ret ≠ .failure) (G : State → Option (Ret × State)) :
    onFailure (some (ret, after)) G = some (ret, after) := by
  cases ret <;> first | rfl | exact absurd rfl h

theorem Calls.sound (h : Calls m subject code ic x st F) (hj : Sound m subject code ic jump)
    (hF : F jump = some (ret, after)) :
    ∃ r, Backtracking.Search (next m subject) x r ∧ Yields st r ret after := by
  cases h with
  | returns hx hm hF' =>
    rw [hF'] at hF
    cases hF
    exact ⟨_, hx, hm⟩
  | enter hx hp hF' =>
    rw [hF', Option.map_eq_some_iff] at hF
    obtain ⟨⟨ret', after'⟩, hv, hf⟩ := hF
    obtain ⟨r, hr, hm⟩ := hj hx hv
    have := hp.yields hm
    rw [hf] at this
    exact ⟨r, hr, this⟩

theorem Turn.sound (h : Turn m subject code ic x st F) (hj : Sound m subject code ic jump)
    (hF : F jump = some (ret, after)) :
    ∃ r, Backtracking.Search (next m subject) x r ∧ Yields st r ret after := by
  cases h with
  | returns hx hm hF' =>
    rw [hF'] at hF
    cases hF
    exact ⟨_, hx, hm⟩
  | goto hnext hy =>
    obtain ⟨r, hr, hm⟩ := hy.sound hj hF
    exact ⟨r, .goto hnext hr, hm⟩
  | @orElse y z F H G hnext hy hz hH =>
    rw [hH] at hF
    rcases hv : F jump with _ | ⟨ret₁, after₁⟩
    · rw [hv] at hF
      cases hF
    · rw [hv] at hF
      obtain ⟨r₁, hr₁, hm₁⟩ := hy.sound hj hv
      rcases r₁ with _ | a
      · obtain ⟨rfl, hst⟩ := hm₁
        obtain ⟨r, hr, hm⟩ := (hz after₁ hst).sound hj hF
        exact ⟨r, .right hnext hr₁ hr, hm.of_restored hst⟩
      · rw [onFailure_of_ne hm₁.ne_failure] at hF
        cases hF
        exact ⟨_, .left hnext hr₁, hm₁⟩

theorem Calls.extends (h : Calls m subject code ic x st F) (he : Extends code ic jump jump')
    {v : Ret × State} (hF : F jump = some v) : F jump' = some v := by
  cases h with
  | returns _ _ hF' =>
    rw [hF'] at hF ⊢
    exact hF
  | enter hx _ hF' =>
    rw [hF', Option.map_eq_some_iff] at hF
    obtain ⟨w, hw, hf⟩ := hF
    rw [hF', he hx hw]
    exact congrArg some hf

theorem Turn.extends (h : Turn m subject code ic x st F) (hj : Sound m subject code ic jump)
    (he : Extends code ic jump jump') {v : Ret × State} (hF : F jump = some v) :
    F jump' = some v := by
  cases h with
  | returns _ _ hF' =>
    rw [hF'] at hF ⊢
    exact hF
  | goto _ hy => exact hy.extends he hF
  | @orElse y z F H G _ hy hz hH =>
    rw [hH] at hF ⊢
    rcases hv : F jump with _ | ⟨ret₁, after₁⟩
    · rw [hv] at hF
      cases hF
    · rw [hv] at hF
      rw [hy.extends he hv]
      obtain ⟨r₁, -, hm₁⟩ := hy.sound hj hv
      rcases r₁ with _ | a
      · obtain ⟨rfl, hst⟩ := hm₁
        exact (hz after₁ hst).extends he hF
      · rw [onFailure_of_ne hm₁.ne_failure] at hF ⊢
        exact hF

end Sound

section Run

variable {unicode : Unicode} {subject : List CorgiChar} {code : List CorgiCode} {ic : Bool}
  (hlen : code.length < 2 ^ 32)
include hlen

/-- What the engine returns is what the search comes to. -/
theorem sreMatch_sound (n : ℕ) :
    Sound (engineMeaning unicode ic) subject code ic (sreMatch unicode code subject n) := by
  induction n with
  | zero => exact fun x pc st ret after _ h => by cases h
  | succ n ih =>
    intro x pc st ret after hfits h
    rcases hfits.turn unicode subject hlen with
      hturn | ⟨pc', st', hst, hfits', hjump⟩
    · exact hturn.sound ih h
    · obtain ⟨r, hr, hm⟩ := ih hfits' ((hjump _).symm.trans h)
      exact ⟨r, hr, hm.of_restored hst⟩

theorem sreMatch_succ (n : ℕ) :
    Extends code ic (sreMatch unicode code subject n) (sreMatch unicode code subject (n + 1)) := by
  induction n with
  | zero => exact fun x pc st v _ h => by cases h
  | succ n ih =>
    intro x pc st v hfits h
    rcases hfits.turn unicode subject hlen with
      hturn | ⟨pc', st', hst, hfits', hjump⟩
    · exact hturn.extends (sreMatch_sound hlen n) ih h
    · exact (hjump _).trans (ih hfits' ((hjump _).symm.trans h))

theorem sreMatch_mono {n k : ℕ} (h : n ≤ k) :
    Extends code ic (sreMatch unicode code subject n) (sreMatch unicode code subject k) := by
  induction h with
  | refl => exact fun x pc st v _ hv => hv
  | step _ ih => exact fun x pc st v hx hv => sreMatch_succ hlen _ hx (ih hx hv)

omit hlen in
theorem Calls.complete {x : Config} {st : State} {F : Jump → Option (Ret × State)}
    (h : Calls (engineMeaning unicode ic) subject code ic x st F)
    (hx : ∀ pc st, Fits code ic x pc st →
      ∃ n v, sreMatch unicode code subject n pc x.2 st = some v) :
    ∃ n v, F (sreMatch unicode code subject n) = some v := by
  cases h with
  | returns _ _ hF => exact ⟨0, _, hF _⟩
  | enter hfits _ hF =>
    obtain ⟨n, v, hv⟩ := hx _ _ hfits
    exact ⟨n, _, by rw [hF, hv]; rfl⟩

theorem Turn.complete {x : Config} {st : State} {F : Jump → Option (Ret × State)}
    (h : Turn (engineMeaning unicode ic) subject code ic x st F)
    (hx : ∀ y, Backtracking.Tries (next (engineMeaning unicode ic) subject) x y →
      ∀ pc st, Fits code ic y pc st → ∃ n v, sreMatch unicode code subject n pc y.2 st = some v) :
    ∃ n v, F (sreMatch unicode code subject n) = some v := by
  cases h with
  | returns _ _ hF => exact ⟨0, _, hF _⟩
  | goto hnext hy => exact hy.complete (hx _ (.goto hnext))
  | @orElse y z F H G hnext hy hz hH =>
    obtain ⟨n, ⟨ret, after⟩, hF⟩ := hy.complete (hx _ (.left hnext))
    obtain ⟨r, hr, hm⟩ := hy.sound (sreMatch_sound hlen n) hF
    rcases r with _ | a
    · obtain ⟨rfl, hst⟩ := hm
      obtain ⟨k, v, hG⟩ := (hz after hst).complete (hx _ (.right hnext hr))
      refine ⟨max n k, v, ?_⟩
      rw [hH, hy.extends (sreMatch_mono hlen (le_max_left n k)) hF]
      exact (hz after hst).extends (sreMatch_mono hlen (le_max_right n k)) hG
    · exact ⟨n, _, by rw [hH, hF, onFailure_of_ne hm.ne_failure]⟩

/-- The engine returns where it does for all that is tried next. -/
theorem returns_of_tries {x : Config}
    (h : ∀ y, Backtracking.Tries (next (engineMeaning unicode ic) subject) x y →
      ∀ pc st, Fits code ic y pc st → ∃ n v, sreMatch unicode code subject n pc y.2 st = some v)
    {pc : ℕ} {st : State} (hfits : Fits code ic x pc st) :
    ∃ n v, sreMatch unicode code subject n pc x.2 st = some v := by
  obtain ⟨ts, p⟩ := x
  obtain ⟨hcodes, halloc⟩ := hfits
  generalize hrep : st.repeat = rep at hcodes
  generalize hctxs : st.contexts = contexts at hcodes
  simp only at hcodes
  induction hcodes generalizing st with
  | done hop =>
    obtain ⟨n, v, hv⟩ := (turn_done hop).complete hlen h
    exact ⟨n + 1, v, hv⟩
  | node hc hts =>
    subst hrep hctxs
    obtain ⟨n, v, hv⟩ := (turn_node hlen hc ⟨hts, halloc⟩).complete hlen h
    exact ⟨n + 1, v, hv⟩
  | loop hl hctx hlast hprev hts =>
    subst hctxs
    obtain ⟨n, v, hv⟩ := (turn_loop hl hrep (halloc _ hrep) hctx hlast hprev hts).complete hlen h
    exact ⟨n + 1, v, hv⟩
  | jump hc _ ihc =>
    obtain ⟨n, v, hv⟩ := ihc h halloc hrep hctxs
    exact ⟨n + 1, v, (matchTurn_jump hc _).trans hv⟩
  | mark hc hi _ ihc =>
    obtain ⟨st', hctx, hst, hjump⟩ := matchTurn_mark hc hi
    have halloc' : ∀ i, st'.repeat = some i → i < st'.allocated := fun i hi => by
      rw [hst.allocated]
      exact halloc i (hst.repeat ▸ hi)
    obtain ⟨n, v, hv⟩ := ihc h halloc' (hst.repeat.trans hrep) (hctx.trans hctxs)
    exact ⟨n + 1, v, (hjump _).trans hv⟩

/-- Where the search ends the engine returns. -/
theorem sreMatch_complete {x : Config}
    (h : Backtracking.Ends (next (engineMeaning unicode ic) subject) x) :
    ∀ pc st, Fits code ic x pc st →
      ∃ n v, sreMatch unicode code subject n pc x.2 st = some v := by
  induction Backtracking.ends_iff.1 h with
  | intro x _ ih => exact fun pc st => returns_of_tries hlen fun y ht => ih y ht (h.tries ht)

omit hlen in
theorem Yields.unique {st after : State} {ret : Ret} {r r' : Option Answer}
    (h : Yields st r ret after) (h' : Yields st r' ret after) : r = r' := by
  rcases r with _ | q | _ <;> rcases r' with _ | q' | _
  · rfl
  · exact absurd (h.1.symm.trans h'.1) nofun
  · exact absurd (h.1.symm.trans h') nofun
  · exact absurd (h.1.symm.trans h'.1) nofun
  · rw [← h.2, ← h'.2]
  · exact absurd (h.1.symm.trans h') nofun
  · exact absurd (h'.1.symm.trans h) nofun
  · exact absurd (h'.1.symm.trans h) nofun
  · rfl

theorem sreMatch_iff {x : Config} {pc : ℕ} {st : State} (hfits : Fits code ic x pc st)
    {r : Option Answer} :
    Backtracking.Search (next (engineMeaning unicode ic) subject) x r ↔
      ∃ n ret after, sreMatch unicode code subject n pc x.2 st = some (ret, after) ∧
        Yields st r ret after := by
  constructor
  · intro hr
    obtain ⟨n, ⟨ret, after⟩, hv⟩ := sreMatch_complete hlen ⟨r, hr⟩ pc st hfits
    obtain ⟨r', hr', hm⟩ := sreMatch_sound hlen n hfits hv
    exact ⟨n, ret, after, hv, hr.unique hr' ▸ hm⟩
  · rintro ⟨n, ret, after, hv, hm⟩
    obtain ⟨r', hr', hm'⟩ := sreMatch_sound hlen n hfits hv
    exact hm.unique hm' ▸ hr'

end Run

/-- At the beginning of its code the engine stands before the tree. -/
theorem fits_start (ic : Bool) (ns : List Node) (start : ℕ) :
    Fits (chainCode ic ns ++ [Opcode.success.code]) ic (ns.map .node, start) 0
      (initState start) := by
  have hall := codeAt_self [] (chainCode ic ns ++ [Opcode.success.code])
  rw [List.nil_append, codeAt_append] at hall
  refine ⟨?_, nofun⟩
  have hcodes : Codes (chainCode ic ns ++ [Opcode.success.code]) ic (initState start).contexts 0
      none (ns.map .node ++ []) := .chain hall.1 (.done hall.2.1)
  rwa [List.append_nil] at hcodes

end Corgi

end Yog
