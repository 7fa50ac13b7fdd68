import Yog.GetArgs
import Yog.Proofs.TextRoundTrip

/-!
# What `YogGetArgs_parse_args` binds

The two loops go through the parameters once, one after the other (`go_cons`): a parameter is given
by position as long as there are positional arguments, and by keyword behind them. What is left is
for the collectors. The keywords are then checked by none of them if there is a `*` alone, and
against the wrong names if there is a `**`.
-/

namespace Yog

namespace GetArgs

variable {L V : Type}

namespace Symbols

/-- The table once more names have been interned. -/
def Extends (symbols symbols' : Symbols) : Prop := symbols.names <+: symbols'.names

theorem Extends.refl (symbols : Symbols) : Extends symbols symbols := List.prefix_refl _

theorem Extends.intern {symbols symbols' : Symbols} (h : Extends symbols symbols') (name : Name) :
    Extends symbols (symbols'.intern name) := by
  unfold Symbols.intern
  split_ifs
  · exact h
  · exact h.trans (List.prefix_append _ _)

theorem mem_intern (symbols : Symbols) (name : Name) : name ∈ (symbols.intern name).names := by
  unfold Symbols.intern
  split_ifs with h
  · exact h
  · exact List.mem_append_right _ (List.mem_singleton.2 rfl)

theorem Extends.id2name_eq {symbols symbols' : Symbols} (h : Extends symbols symbols')
    {id : SymbolID} (hid : id < symbols.names.length) :
    symbols'.id2name id = symbols.id2name id := by
  obtain ⟨names, hnames⟩ := h
  unfold id2name
  rw [← hnames, List.getElem?_append_left hid]

/-- A symbol is that of a name exactly when it has it. -/
theorem Extends.idOf_intern_iff {symbols symbols' : Symbols} (h : Extends symbols symbols')
    {id : SymbolID} (hid : id < symbols.names.length) (name : Name) :
    id = (symbols'.intern name).idOf name ↔ symbols.id2name id = some name := by
  have hmem := symbols'.mem_intern name
  have hlt := List.idxOf_lt_length_of_mem hmem
  rw [← (h.intern name).id2name_eq hid]
  unfold idOf id2name
  constructor
  · rintro rfl
    rw [List.getElem?_eq_getElem hlt, List.getElem_idxOf hlt]
  · intro hname
    obtain ⟨hlt', hget⟩ := List.getElem?_eq_some_iff.1 hname
    have hidx := (symbols'.intern name).nodup.idxOf_getElem id hlt'
    rw [hget] at hidx
    exact hidx.symm

/-- The table once all the names have been interned. -/
def internAll (symbols : Symbols) (names : List Name) : Symbols :=
  names.foldl intern symbols

theorem Extends.internAll {symbols : Symbols} : ∀ (names : List Name) {symbols' : Symbols},
    Extends symbols symbols' → Extends symbols (symbols'.internAll names)
  | [], _, h => h
  | name :: names, _, h => internAll names (h.intern name)

end Symbols

/-- The arguments of a call. -/
structure Given (V : Type) (symbols : Symbols) where
  args : List V
  kw : List (SymbolID × V)
  nodup : (kw.map Prod.fst).Nodup
  interned : ∀ e ∈ kw, e.1 < symbols.names.length

namespace Given

variable {symbols : Symbols} (g : Given V symbols)

/-- The argument with a name. -/
def byName (name : Name) : Option V :=
  (g.kw.find? fun e => symbols.id2name e.1 = some name).map Prod.snd

theorem dictGet_eq {symbols' : Symbols} (h : symbols.Extends symbols') (name : Name) :
    dictGet g.kw ((symbols'.intern name).idOf name) = g.byName name := by
  unfold dictGet byName
  congr 1
  have hinterned := g.interned
  generalize g.kw = kw at hinterned ⊢
  induction kw with
  | nil => rfl
  | cons e kw ih =>
    rw [List.forall_mem_cons] at hinterned
    have hiff := h.idOf_intern_iff hinterned.1 name
    by_cases hname : symbols.id2name e.1 = some name
    · rw [List.find?_cons_of_pos (by simpa using hiff.2 hname),
        List.find?_cons_of_pos (by simpa using hname)]
    · rw [List.find?_cons_of_neg (by simpa using fun heq => hname (hiff.1 heq)),
        List.find?_cons_of_neg (by simpa using hname), ih hinterned.2]

end Given

variable {symbols : Symbols} (t : Table L) (g : Given V symbols)

/-- A parameter of the table has the name of the keyword. -/
def Table.Declares (symbols : Symbols) (id : SymbolID) : Prop :=
  ∃ p ∈ t.params, symbols.id2name id = some p.name

instance (id : SymbolID) : Decidable (t.Declares symbols id) :=
  inferInstanceAs (Decidable (∃ p ∈ t.params, _))

/-- When the arguments do not fit the table. -/
inductive Unfit : Prop
  | missing (j : ℕ) (p : Param L) : t.required[j]? = some p → g.args.length ≤ j →
    g.byName p.name = none → Unfit
  | twice (j : ℕ) (p : Param L) : t.params[j]? = some p → j < g.args.length →
    g.byName p.name ≠ none → Unfit
  | surplus : t.star = none → t.params.length < g.args.length → Unfit
  | unknown (e : SymbolID × V) : t.star2 = none → e ∈ g.kw → ¬ t.Declares symbols e.1 → Unfit

/-- The value of the `j`th parameter: the `j`th argument, or that with its name, or what its
variable held before. -/
def denotes (j : ℕ) (p : Param L) (vars : L → Stored V) : Stored V :=
  match g.args[j]? with
  | some v => .value v
  | none =>
    match g.byName p.name with
    | some v => .value v
    | none => vars p.dest

/-- Each variable holds what its parameter denotes, and the collectors the rest. -/
structure Bound (vars vars' : L → Stored V) : Prop where
  param : ∀ j p, t.params[j]? = some p → vars' p.dest = denotes g j p vars
  star : ∀ d, t.star = some d → vars' d = .array (g.args.drop t.params.length)
  star2 : ∀ d, t.star2 = some d →
    vars' d = .dict (g.kw.filter fun e => ¬ t.Declares symbols e.1)
  other : ∀ d, d ∉ t.params.map Param.dest ++ t.star.toList ++ t.star2.toList → vars' d = vars d

/-- It raises where the arguments do not fit, and binds them where they do. -/
def Right (vars : L → Stored V) : Except Error (State L V) → Prop
  | .ok s => ¬ Unfit t g ∧ Bound t g vars s.vars
  | .error e => e.isTypeError ∧ Unfit t g

section Loops

variable [DecidableEq L]

def Param.carg (p : Param L) : CArg L := ⟨p.name, some p.dest⟩

/-- What is done with the `j`th parameter. -/
def bindOne (args : List V) (kw : List (SymbolID × V)) (j : ℕ) (optional : Bool) (p : Param L)
    (s : State L V) : Except Error (State L V) :=
  if j < args.length then setPositionalArg args kw p.carg j s
  else setKeywordArg kw p.carg optional s

/-- What the loops come to: the entries that are left, `args_index`, `kw_num` and the state. -/
structure Reached (L V : Type) where
  rest : List (CArg L)
  argsIndex : ℕ
  kwNum : ℕ
  state : State L V

/-- The loops from the `j`th parameter on. -/
def go (args : List V) (kw : List (SymbolID × V)) (params : List (CArg L)) (optional : Bool)
    (j : ℕ) (s : State L V) : Except Error (Reached L V) :=
  if j ≤ args.length then do
    let c ← positionalLoop args kw params optional j s
    let c' ← keywordLoop kw c.param c.optional 0 c.state
    .ok ⟨c'.param, c.count, c'.count, c'.state⟩
  else do
    let c' ← keywordLoop kw params optional (j - args.length) s
    .ok ⟨c'.param, args.length, c'.count, c'.state⟩

theorem parseArgs_eq (toBin : Name → List Byte) (args : List V) (kw : List (SymbolID × V))
    (params : List (CArg L)) (s : State L V) : parseArgs toBin args kw params s =
      (go args kw params false 0 s).bind fun c =>
        collect toBin args kw params c.rest c.argsIndex c.kwNum c.state := by
  unfold parseArgs go
  rw [if_pos (Nat.zero_le _)]
  rcases positionalLoop args kw params false 0 s with e | c
  · rfl
  · simp only [bind, Except.bind]
    rcases keywordLoop kw c.param c.optional 0 c.state with e | c' <;> rfl

variable {args : List V} {kw : List (SymbolID × V)} {s : State L V} {p : Param L}
  {rest : List (CArg L)} {o : Bool} {j : ℕ}

omit [DecidableEq L] in
theorem not_finished (hp : IsName p.name) : ¬ finished (p.carg :: rest) :=
  fun h => h.elim hp.2.1 hp.2.2.1

theorem keywordLoop_eq (param : CArg L) (n : ℕ) : keywordLoop kw (param :: rest) o n s =
    if finished (param :: rest) then .ok ⟨param :: rest, o, n, s⟩
    else if param.name = bar then
      match rest with
      | [] => .error .crash
      | param :: rest =>
        (setKeywordArg kw param true s).bind fun s => keywordLoop kw rest true (n + 1) s
    else (setKeywordArg kw param o s).bind fun s => keywordLoop kw rest o (n + 1) s := by
  rcases rest with _ | ⟨param', rest⟩ <;> rfl

theorem positionalLoop_eq (param : CArg L) : positionalLoop args kw (param :: rest) o j s =
    if finished (param :: rest) ∨ args.length ≤ j then .ok ⟨param :: rest, o, j, s⟩
    else if param.name = bar then
      match rest with
      | [] => .error .crash
      | param :: rest =>
        (setPositionalArg args kw param j s).bind fun s =>
          positionalLoop args kw rest true (j + 1) s
    else (setPositionalArg args kw param j s).bind fun s =>
      positionalLoop args kw rest o (j + 1) s := by
  rcases rest with _ | ⟨param', rest⟩ <;> rfl

theorem keywordLoop_cons (hp : IsName p.name) (n : ℕ) :
    keywordLoop kw (p.carg :: rest) o n s =
      (setKeywordArg kw p.carg o s).bind fun s => keywordLoop kw rest o (n + 1) s := by
  have hbar : ¬ p.carg.name = bar := hp.1
  rw [keywordLoop_eq, if_neg (not_finished hp), if_neg hbar]

theorem keywordLoop_bar (hp : IsName p.name) (n : ℕ) :
    keywordLoop kw (⟨bar, none⟩ :: p.carg :: rest) o n s =
      keywordLoop kw (p.carg :: rest) true n s := by
  rw [keywordLoop_cons hp, keywordLoop_eq, if_neg (by simp [finished]),
    if_pos rfl]

theorem positionalLoop_end (h : args.length ≤ j) (params : List (CArg L)) :
    positionalLoop args kw params o j s = .ok ⟨params, o, j, s⟩ := by
  rcases params with _ | ⟨param, rest⟩
  · rfl
  · rw [positionalLoop_eq, if_pos (.inr h)]

theorem positionalLoop_cons (hp : IsName p.name) (h : j < args.length) :
    positionalLoop args kw (p.carg :: rest) o j s =
      (setPositionalArg args kw p.carg j s).bind fun s =>
        positionalLoop args kw rest o (j + 1) s := by
  have hgo : ¬ (finished (p.carg :: rest) ∨ args.length ≤ j) := by
    rintro (hf | hj)
    · exact not_finished hp hf
    · omega
  have hbar : ¬ p.carg.name = bar := hp.1
  rw [positionalLoop_eq, if_neg hgo, if_neg hbar]

theorem positionalLoop_bar (hp : IsName p.name) (h : j < args.length) :
    positionalLoop args kw (⟨bar, none⟩ :: p.carg :: rest) o j s =
      positionalLoop args kw (p.carg :: rest) true j s := by
  have hgo : ¬ (finished (⟨bar, none⟩ :: p.carg :: rest) ∨ args.length ≤ j) := by
    rintro (hf | hj)
    · simp [finished] at hf
    · omega
  rw [positionalLoop_cons hp h, positionalLoop_eq, if_neg hgo, if_pos rfl]

/-- One parameter: by position first, then by keyword. -/
theorem go_cons (hp : IsName p.name) : go args kw (p.carg :: rest) o j s =
    (bindOne args kw j o p s).bind fun s => go args kw rest o (j + 1) s := by
  unfold go bindOne
  rcases lt_trichotomy j args.length with h | h | h
  · rw [if_pos h.le, if_pos h, positionalLoop_cons hp h]
    rcases setPositionalArg args kw p.carg j s with e | s'
    · rfl
    · simp only [Except.bind, if_pos (Nat.succ_le_of_lt h)]
  · rw [if_pos h.le, if_neg h.not_lt, positionalLoop_end h.ge]
    show (keywordLoop kw (p.carg :: rest) o 0 s >>= _) = _
    rw [keywordLoop_cons hp]
    rcases setKeywordArg kw p.carg o s with e | s'
    · rfl
    · simp only [Except.bind, if_neg (show ¬ j + 1 ≤ args.length by omega),
        show j + 1 - args.length = 0 + 1 by omega]
      rw [← h]
  · rw [if_neg (by omega), if_neg (by omega), keywordLoop_cons hp]
    rcases setKeywordArg kw p.carg o s with e | s'
    · rfl
    · simp only [Except.bind, if_neg (show ¬ j + 1 ≤ args.length by omega),
        show j + 1 - args.length = j - args.length + 1 by omega]

theorem go_bar (hp : IsName p.name) : go args kw (⟨bar, none⟩ :: p.carg :: rest) o j s =
    go args kw (p.carg :: rest) true j s := by
  unfold go
  rcases lt_trichotomy j args.length with h | h | h
  · rw [if_pos h.le, if_pos h.le, positionalLoop_bar hp h]
  · rw [if_pos h.le, if_pos h.le, positionalLoop_end h.ge, positionalLoop_end h.ge]
    show (keywordLoop kw (⟨bar, none⟩ :: p.carg :: rest) o 0 s >>= _) =
      (keywordLoop kw (p.carg :: rest) true 0 s >>= _)
    rw [keywordLoop_bar hp]
  · rw [if_neg (by omega), if_neg (by omega), keywordLoop_bar hp]

theorem go_finished (h : finished rest) : go args kw rest o j s =
    .ok ⟨rest, min j args.length, j - args.length, s⟩ := by
  have hkeyword : ∀ n, keywordLoop kw rest o n s = .ok ⟨rest, o, n, s⟩ := by
    intro n
    rcases rest with _ | ⟨param, rest⟩
    · rfl
    · rw [keywordLoop_eq, if_pos h]
  have hpositional : positionalLoop args kw rest o j s = .ok ⟨rest, o, j, s⟩ := by
    rcases rest with _ | ⟨param, rest⟩
    · rfl
    · rw [positionalLoop_eq, if_pos (.inl h)]
  unfold go
  split_ifs with hj
  · rw [hpositional]
    show (keywordLoop kw rest o 0 s >>= _) = _
    rw [hkeyword, min_eq_left hj, Nat.sub_eq_zero_of_le hj]
    rfl
  · rw [hkeyword, min_eq_right (by omega)]
    rfl

/-- The parameters from the `j`th one on. -/
def bindAll (args : List V) (kw : List (SymbolID × V)) :
    ℕ → List (Bool × Param L) → State L V → Except Error (State L V)
  | _, [], s => .ok s
  | j, (o, p) :: ps, s => (bindOne args kw j o p s).bind fun s => bindAll args kw (j + 1) ps s

theorem bindAll_append (ps ps' : List (Bool × Param L)) : ∀ (j : ℕ) (s : State L V),
    bindAll args kw j (ps ++ ps') s =
      (bindAll args kw j ps s).bind fun s => bindAll args kw (j + ps.length) ps' s := by
  induction ps with
  | nil => exact fun _ _ => rfl
  | cons p ps ih =>
    intro j s
    simp only [List.cons_append, bindAll, List.length_cons]
    rcases bindOne args kw j p.1 p.2 s with e | s'
    · rfl
    · simp only [Except.bind]
      rw [ih]
      simp only [Except.bind, show j + (ps.length + 1) = j + 1 + ps.length by omega]

theorem go_segment (ps : List (Param L)) (hps : ∀ p ∈ ps, IsName p.name) :
    ∀ (j : ℕ) (s : State L V), go args kw (ps.map Param.carg ++ rest) o j s =
      (bindAll args kw j (ps.map (o, ·)) s).bind fun s => go args kw rest o (j + ps.length) s := by
  induction ps with
  | nil => exact fun _ _ => rfl
  | cons p ps ih =>
    intro j s
    rw [List.forall_mem_cons] at hps
    simp only [List.map_cons, List.cons_append, bindAll, List.length_cons]
    rw [go_cons hps.1]
    rcases bindOne args kw j o p s with e | s'
    · rfl
    · simp only [Except.bind]
      rw [ih hps.2]
      simp only [Except.bind, show j + (ps.length + 1) = j + 1 + ps.length by omega]

end Loops

section Parameters

variable [DecidableEq L] {t} {g}

/-- The collectors of the table. -/
def Table.tail (t : Table L) : List (CArg L) :=
  t.star.toList.map (fun d => ⟨GetArgs.star, some d⟩)
    ++ t.star2.toList.map (fun d => ⟨GetArgs.star2, some d⟩)

/-- The parameters, and whether they are optional. -/
def Table.flagged (t : Table L) : List (Bool × Param L) :=
  t.required.map (false, ·) ++ t.optional.map (true, ·)

omit [DecidableEq L] in
theorem finished_tail (t : Table L) : finished t.tail := by
  unfold Table.tail
  rcases t.star with _ | d
  · rcases t.star2 with _ | d
    · trivial
    · exact .inr rfl
  · exact .inl rfl

theorem go_table (t : Table L) (s : State L V) : go g.args g.kw t.cargs false 0 s =
    (bindAll g.args g.kw 0 t.flagged s).bind fun s =>
      .ok ⟨t.tail, min t.params.length g.args.length, t.params.length - g.args.length, s⟩ := by
  have hrequired : ∀ p ∈ t.required, IsName p.name := fun p hp => t.named p (by simp [hp])
  have hoptional : ∀ p ∈ t.optional, IsName p.name := fun p hp => t.named p (by simp [hp])
  have hcargs : t.cargs = t.required.map Param.carg ++
      ((if t.optional = [] then [] else ⟨bar, none⟩ :: t.optional.map Param.carg) ++ t.tail) := by
    unfold Table.cargs Table.tail Param.carg
    simp only [List.append_assoc]
  rw [hcargs, go_segment _ hrequired, Table.flagged, bindAll_append]
  rcases bindAll g.args g.kw 0 (t.required.map (false, ·)) s with e | s'
  · rfl
  · simp only [Except.bind, List.length_map, zero_add, Table.params, List.length_append]
    rcases hopt : t.optional with _ | ⟨p, ps⟩
    · rw [if_pos rfl, List.nil_append, go_finished (finished_tail t)]
      rfl
    · rw [hopt] at hoptional
      rw [if_neg (List.cons_ne_nil p ps), List.cons_append, List.map_cons, List.cons_append,
        go_bar (hoptional p List.mem_cons_self), ← List.cons_append, ← List.map_cons,
        go_segment _ hoptional]
      rcases bindAll g.args g.kw t.required.length ((p :: ps).map (true, ·)) s' with e | s''
      · rfl
      · exact go_finished (finished_tail t)

/-- The `j`th parameter gets one argument, or none when it is optional. -/
def Fits (g : Given V symbols) (j : ℕ) (optional : Bool) (p : Param L) : Prop :=
  if j < g.args.length then g.byName p.name = none
  else optional = true ∨ g.byName p.name ≠ none

def settle (g : Given V symbols) (j : ℕ) (p : Param L) (s : State L V) : State L V :=
  ⟨s.symbols.intern p.name, Function.update s.vars p.dest (denotes g j p s.vars)⟩

theorem bindOne_fits {s : State L V} (hs : symbols.Extends s.symbols) {j : ℕ} {o : Bool}
    {p : Param L} (h : Fits g j o p) : bindOne g.args g.kw j o p s = .ok (settle g j p s) := by
  unfold Fits at h
  unfold bindOne settle denotes
  by_cases hj : j < g.args.length
  · rw [if_pos hj] at h
    rw [if_pos hj, setPositionalArg, g.dictGet_eq hs, Param.carg, h, List.getElem?_eq_getElem hj]
    rfl
  · rw [if_neg hj] at h
    rw [if_neg hj, setKeywordArg, g.dictGet_eq hs, Param.carg,
      List.getElem?_eq_none (Nat.le_of_not_lt hj)]
    rcases hname : g.byName p.name with _ | v
    · have ho : o = true := h.resolve_right fun hne => hne hname
      simp [ho]
    · rfl

theorem bindOne_unfit {s : State L V} (hs : symbols.Extends s.symbols) {j : ℕ} {o : Bool}
    {p : Param L} (h : ¬ Fits g j o p) :
    ∃ e : Error, bindOne g.args g.kw j o p s = .error e ∧ e.isTypeError := by
  unfold Fits at h
  unfold bindOne
  by_cases hj : j < g.args.length
  · rw [if_pos hj] at h
    obtain ⟨v, hv⟩ := Option.ne_none_iff_exists'.1 h
    rw [if_pos hj, setPositionalArg, g.dictGet_eq hs, Param.carg, hv]
    exact ⟨_, rfl, trivial⟩
  · rw [if_neg hj, not_or, not_not] at h
    rw [if_neg hj, setKeywordArg, g.dictGet_eq hs, Param.carg, h.2]
    exact ⟨.notFound p.name, by simp [h.1], trivial⟩

def settleAll (g : Given V symbols) : ℕ → List (Bool × Param L) → State L V → State L V
  | _, [], s => s
  | j, (_, p) :: ps, s => settleAll g (j + 1) ps (settle g j p s)

theorem bindAll_fits : ∀ {ps : List (Bool × Param L)} {j : ℕ} {s : State L V},
    symbols.Extends s.symbols → (∀ i o p, ps[i]? = some (o, p) → Fits g (j + i) o p) →
      bindAll g.args g.kw j ps s = .ok (settleAll g j ps s)
  | [], _, _, _, _ => rfl
  | (o, p) :: ps, j, s, hs, h => by
    have hfit : Fits g j o p := h 0 o p rfl
    rw [bindAll, bindOne_fits hs hfit]
    refine bindAll_fits (hs.intern p.name) fun i o' p' hi => ?_
    rw [Nat.add_right_comm]
    exact h (i + 1) o' p' hi

theorem bindAll_unfit : ∀ {ps : List (Bool × Param L)} {j : ℕ} {s : State L V},
    symbols.Extends s.symbols → (∃ i o p, ps[i]? = some (o, p) ∧ ¬ Fits g (j + i) o p) →
      ∃ e : Error, bindAll g.args g.kw j ps s = .error e ∧ e.isTypeError
  | [], _, _, _, ⟨i, o, p, hi, _⟩ => by simp at hi
  | (o, p) :: ps, j, s, hs, h => by
    rw [bindAll]
    by_cases hp : Fits g j o p
    · rw [bindOne_fits hs hp]
      refine bindAll_unfit (hs.intern p.name) ?_
      obtain ⟨_ | i, o', p', hi, hfit⟩ := h
      · obtain ⟨rfl, rfl⟩ : o = o' ∧ p = p' := by simpa using hi
        exact absurd hp hfit
      · refine ⟨i, o', p', hi, ?_⟩
        rwa [Nat.add_right_comm]
    · obtain ⟨e, he, htype⟩ := bindOne_unfit hs hp
      exact ⟨e, by rw [he]; rfl, htype⟩

theorem settleAll_symbols : ∀ (ps : List (Bool × Param L)) (j : ℕ) (s : State L V),
    (settleAll g j ps s).symbols = s.symbols.internAll (ps.map fun p => p.2.name)
  | [], _, _ => rfl
  | (_, p) :: ps, j, s => settleAll_symbols ps (j + 1) (settle g j p s)

theorem settleAll_other : ∀ {ps : List (Bool × Param L)} {j : ℕ} {s : State L V} {d : L},
    d ∉ ps.map (fun p => p.2.dest) → (settleAll g j ps s).vars d = s.vars d
  | [], _, _, _, _ => rfl
  | (_, p) :: ps, j, s, d, hd => by
    rw [List.map_cons, List.mem_cons, not_or] at hd
    rw [settleAll, settleAll_other hd.2]
    exact Function.update_of_ne hd.1 _ _

theorem settleAll_param : ∀ {ps : List (Bool × Param L)} {j : ℕ} {s : State L V},
    (ps.map fun p => p.2.dest).Nodup → ∀ {i o p}, ps[i]? = some (o, p) →
      (settleAll g j ps s).vars p.dest = denotes g (j + i) p s.vars
  | (_, q) :: ps, j, s, hnodup, 0, _, _, rfl => by
    rw [List.map_cons, List.nodup_cons] at hnodup
    rw [settleAll, settleAll_other hnodup.1]
    exact Function.update_self _ _ _
  | (_, q) :: ps, j, s, hnodup, i + 1, o, p, hi => by
    rw [List.map_cons, List.nodup_cons] at hnodup
    have hmem : p.dest ∈ ps.map fun p => p.2.dest :=
      List.mem_map.2 ⟨(o, p), List.mem_of_getElem? hi, rfl⟩
    have hne : p.dest ≠ q.dest := fun heq => hnodup.1 (heq ▸ hmem)
    rw [settleAll, settleAll_param hnodup.2 hi, Nat.add_right_comm]
    unfold denotes
    rw [show (settle g j q s).vars p.dest = s.vars p.dest from Function.update_of_ne hne _ _]
    rfl

end Parameters

section Keywords

variable (toBin : Name → List Byte)

/-- `find_param` finds the name of the symbol. -/
def finds (symbols : Symbols) (params : List (CArg L)) (id : SymbolID) : Bool :=
  (symbols.id2name id).any fun name => findParam toBin name params

theorem finds_eq {symbols : Symbols} {id : SymbolID} {name : Name}
    (h : symbols.id2name id = some name) (params : List (CArg L)) :
    finds toBin symbols params id = findParam toBin name params := by
  simp [finds, h]

variable {symbols : Symbols} {params : List (CArg L)}

theorem copyDict_eq : ∀ {kw : List (SymbolID × V)},
    (∀ e ∈ kw, (symbols.id2name (id2val e.1)).isSome) → copyDict toBin symbols params kw =
      .ok (kw.filter fun e => !finds toBin symbols params (id2val e.1))
  | [], _ => rfl
  | e :: kw, h => by
    rw [List.forall_mem_cons] at h
    obtain ⟨name, hname⟩ := Option.isSome_iff_exists.1 h.1
    rw [copyDict, hname]
    simp only [copyDict_eq h.2, List.filter_cons, finds_eq toBin hname]
    rcases findParam toBin name params <;> rfl

theorem copyDict_bug : ∀ {kw : List (SymbolID × V)},
    ¬ (∀ e ∈ kw, (symbols.id2name (id2val e.1)).isSome) →
      copyDict toBin symbols params kw = .error .bug
  | [], h => absurd (fun _ he => nomatch he) h
  | e :: kw, h => by
    rw [copyDict]
    rcases hname : symbols.id2name (id2val e.1) with _ | name
    · rfl
    · have hrest : ¬ ∀ e ∈ kw, (symbols.id2name (id2val e.1)).isSome := fun hall =>
        h (List.forall_mem_cons.2 ⟨by simp [hname], hall⟩)
      simp only [copyDict_bug hrest]
      rfl

theorem findInvalidKeyword_none : ∀ {kw : List (SymbolID × V)},
    (∀ e ∈ kw, finds toBin symbols params e.1 = true) →
      findInvalidKeyword toBin symbols params kw = .ok none
  | [], _ => rfl
  | e :: kw, h => by
    rw [List.forall_mem_cons] at h
    obtain ⟨name, hname, hfound⟩ := (Option.any_eq_true _ _).1 h.1
    rw [findInvalidKeyword, hname]
    simp only [if_pos hfound]
    exact findInvalidKeyword_none h.2

theorem findInvalidKeyword_some : ∀ {kw : List (SymbolID × V)},
    (∀ e ∈ kw, e.1 < symbols.names.length) →
    ¬ (∀ e ∈ kw, finds toBin symbols params e.1 = true) →
      ∃ key, findInvalidKeyword toBin symbols params kw = .ok (some key)
  | [], _, h => absurd (fun _ he => nomatch he) h
  | e :: kw, hinterned, h => by
    rw [List.forall_mem_cons] at hinterned
    obtain ⟨name, hname⟩ : ∃ name, symbols.id2name e.1 = some name :=
      ⟨_, List.getElem?_eq_getElem hinterned.1⟩
    rw [findInvalidKeyword, hname]
    by_cases hfound : findParam toBin name params = true
    · simp only [if_pos hfound]
      refine findInvalidKeyword_some hinterned.2 fun hall => h ?_
      exact List.forall_mem_cons.2 ⟨(finds_eq toBin hname params).trans hfound, hall⟩
    · simp only [if_neg hfound]
      exact ⟨e.1, rfl⟩

variable {args : List V} {kw : List (SymbolID × V)} {s : State L V} {most : ℕ}

/-- The keywords pass the checks. -/
def Passes (symbols : Symbols) (params : List (CArg L)) (args : List V) (kw : List (SymbolID × V))
    (most : ℕ) : Prop :=
  args.length + kw.length ≤ most ∧ ∀ e ∈ kw, finds toBin symbols params e.1 = true

theorem checkKeywords_ok (h : Passes toBin s.symbols params args kw most) :
    checkKeywords toBin args kw params most s = .ok s := by
  rw [checkKeywords, if_neg (Nat.not_lt.2 h.1), findInvalidKeyword_none toBin h.2]
  rfl

theorem checkKeywords_error (hinterned : ∀ e ∈ kw, e.1 < s.symbols.names.length)
    (h : ¬ Passes toBin s.symbols params args kw most) :
    ∃ e : Error, checkKeywords toBin args kw params most s = .error e ∧ e.isTypeError := by
  rw [checkKeywords]
  by_cases hmost : most < args.length + kw.length
  · rw [if_pos hmost]
    exact ⟨_, rfl, trivial⟩
  · have hfound : ¬ ∀ e ∈ kw, finds toBin s.symbols params e.1 = true := fun hall =>
      h ⟨Nat.le_of_not_lt hmost, hall⟩
    obtain ⟨key, hkey⟩ := findInvalidKeyword_some toBin hinterned hfound
    rw [if_neg hmost, hkey]
    exact ⟨.invalidKeyword key, rfl, trivial⟩

end Keywords

section Whole

variable {symbols : Symbols} (t : Table L) (g : Given V symbols)

theorem Table.flagged_map {A : Type} (f : Param L → A) :
    t.flagged.map (fun p => f p.2) = t.params.map f := by
  simp only [Table.flagged, Table.params, List.map_append, List.map_map]
  rfl

theorem Table.exists_flagged {j : ℕ} {p : Param L} (h : t.params[j]? = some p) :
    ∃ o, t.flagged[j]? = some (o, p) := by
  have hmap : (t.flagged.map Prod.snd)[j]? = some p := by
    rw [← h, t.flagged_map fun p => p, List.map_id']
  rw [List.getElem?_map, Option.map_eq_some_iff] at hmap
  obtain ⟨⟨o, q⟩, hq, rfl⟩ := hmap
  exact ⟨o, hq⟩

theorem Table.params_of_flagged {j : ℕ} {o : Bool} {p : Param L}
    (h : t.flagged[j]? = some (o, p)) : t.params[j]? = some p := by
  rw [← List.map_id' t.params, ← t.flagged_map fun p => p, List.getElem?_map, h]
  rfl

theorem Table.flagged_false_iff {j : ℕ} {p : Param L} :
    t.flagged[j]? = some (false, p) ↔ t.required[j]? = some p := by
  unfold Table.flagged
  by_cases hj : j < t.required.length
  · rw [List.getElem?_append_left (by simpa using hj), List.getElem?_map, Option.map_eq_some_iff]
    simp
  · rw [List.getElem?_append_right (by simpa using hj), List.getElem?_map,
      List.getElem?_eq_none (Nat.le_of_not_lt hj)]
    simp

/-- The loops raise, or the check behind them. -/
def Refused : Prop :=
  (∃ j o p, t.flagged[j]? = some (o, p) ∧ ¬ Fits g j o p) ∨
    t.star = none ∧ t.params.length < g.args.length

theorem unfit_iff : Unfit t g ↔
    Refused t g ∨ t.star2 = none ∧ ∃ e ∈ g.kw, ¬ t.Declares symbols e.1 := by
  constructor
  · intro h
    obtain ⟨j, p, hp, hj, hname⟩ | ⟨j, p, hp, hj, hname⟩ | ⟨hstar, hlt⟩ | ⟨e, hstar2, he, hd⟩ := h
    · refine .inl (.inl ⟨j, false, p, t.flagged_false_iff.2 hp, fun hfit => ?_⟩)
      rw [Fits, if_neg (Nat.not_lt.2 hj)] at hfit
      exact hfit.elim (fun h => nomatch h) fun h => h hname
    · obtain ⟨o, ho⟩ := t.exists_flagged hp
      refine .inl (.inl ⟨j, o, p, ho, fun hfit => hname ?_⟩)
      rwa [Fits, if_pos hj] at hfit
    · exact .inl (.inr ⟨hstar, hlt⟩)
    · exact .inr ⟨hstar2, e, he, hd⟩
  · rintro ((⟨j, o, p, hp, hfit⟩ | ⟨hstar, hlt⟩) | ⟨hstar2, e, he, hd⟩)
    · unfold Fits at hfit
      by_cases hj : j < g.args.length
      · rw [if_pos hj] at hfit
        exact .twice j p (t.params_of_flagged hp) hj hfit
      · rw [if_neg hj, not_or, Bool.not_eq_true, not_not] at hfit
        rw [hfit.1] at hp
        exact .missing j p (t.flagged_false_iff.1 hp) (Nat.le_of_not_lt hj) hfit.2
    · exact .surplus hstar hlt
    · exact .unknown e hstar2 he hd

/-- The names of the parameters have been interned. -/
def Table.symbolsAfter (symbols : Symbols) : Symbols :=
  symbols.internAll (t.params.map Param.name)

variable [DecidableEq L]

/-- The state behind the loops. -/
def settled (vars : L → Stored V) : State L V := settleAll g 0 t.flagged ⟨symbols, vars⟩

theorem settled_symbols (vars : L → Stored V) :
    (settled t g vars).symbols = t.symbolsAfter symbols := by
  rw [settled, settleAll_symbols, t.flagged_map Param.name]
  rfl

/-- A collector, if there is one, gets its value. -/
def put (dest : Option L) (val : Stored V) (vars : L → Stored V) : L → Stored V :=
  dest.elim vars fun d => Function.update vars d val

theorem put_self {dest : Option L} {d : L} (h : dest = some d) (val : Stored V)
    (vars : L → Stored V) : put dest val vars d = val := by
  subst h
  exact Function.update_self _ _ _

theorem put_of_ne {dest : Option L} {d : L} (h : dest ≠ some d) (val : Stored V)
    (vars : L → Stored V) : put dest val vars d = vars d := by
  rcases dest with _ | d'
  · rfl
  · exact Function.update_of_ne (fun heq => h (congrArg some heq.symm)) _ _

/-- The collectors get the rest. -/
def Table.gather (dict : List (SymbolID × V)) (vars : L → Stored V) : L → Stored V :=
  put t.star2 (.dict dict) (put t.star (.array (g.args.drop t.params.length)) vars)

variable {t} {g} (toBin : Name → List Byte)

omit [DecidableEq L] in
theorem nodup_dests (t : Table L) : (t.params.map Param.dest).Nodup :=
  (t.nodup.sublist (List.sublist_append_left _ _)).sublist (List.sublist_append_left _ _)

theorem settled_param {vars : L → Stored V} {j : ℕ} {p : Param L} (h : t.params[j]? = some p) :
    (settled t g vars).vars p.dest = denotes g j p vars := by
  obtain ⟨o, ho⟩ := t.exists_flagged h
  have hnodup : (t.flagged.map fun p => p.2.dest).Nodup := by
    rw [t.flagged_map Param.dest]
    exact nodup_dests t
  rw [settled, settleAll_param hnodup ho, zero_add]

theorem settled_other {vars : L → Stored V} {d : L} (h : d ∉ t.params.map Param.dest) :
    (settled t g vars).vars d = vars d := by
  rw [settled, settleAll_other]
  rwa [t.flagged_map Param.dest]

theorem gather_other {dict : List (SymbolID × V)} {vars : L → Stored V} {d : L}
    (hstar : t.star ≠ some d) (hstar2 : t.star2 ≠ some d) : t.gather g dict vars d = vars d := by
  rw [Table.gather, put_of_ne hstar2, put_of_ne hstar]

theorem gather_star2 {dict : List (SymbolID × V)} {vars : L → Stored V} {d : L}
    (h : t.star2 = some d) : t.gather g dict vars d = .dict dict :=
  put_self h _ _

theorem gather_star {dict : List (SymbolID × V)} {vars : L → Stored V} {d : L}
    (h : t.star = some d) : t.gather g dict vars d = .array (g.args.drop t.params.length) := by
  have hne : t.star2 ≠ some d := by
    intro heq
    have hnodup := t.nodup
    simp [h, heq, List.nodup_append] at hnodup
  rw [Table.gather, put_of_ne hne, put_self h]

/-- What the variables hold at the end is right if the dictionary is. -/
theorem bound_iff {dict : List (SymbolID × V)} {vars : L → Stored V} :
    Bound t g vars (t.gather g dict (settled t g vars).vars) ↔
      ∀ d, t.star2 = some d → dict = g.kw.filter fun e => ¬ t.Declares symbols e.1 := by
  constructor
  · intro h d hd
    have hdict := h.star2 d hd
    rw [gather_star2 hd] at hdict
    exact Stored.dict.inj hdict
  · intro h
    refine ⟨fun j p hp => ?_, fun d hd => gather_star hd, fun d hd => ?_, fun d hd => ?_⟩
    · have hmem : p.dest ∈ t.params.map Param.dest := List.mem_map_of_mem (List.mem_of_getElem? hp)
      have hnodup := t.nodup
      rw [List.append_assoc, List.nodup_append] at hnodup
      have hdisjoint := hnodup.2.2 p.dest hmem
      rw [gather_other, settled_param hp]
      · exact fun hstar => hdisjoint p.dest (by simp [hstar]) rfl
      · exact fun hstar2 => hdisjoint p.dest (by simp [hstar2]) rfl
    · rw [gather_star2 hd, h d hd]
    · simp only [List.mem_append, Option.mem_toList, not_or] at hd
      rw [gather_other hd.1.2 hd.2, settled_other hd.1.1]

theorem parseArgs_unfit (vars : L → Stored V)
    (h : ∃ j o p, t.flagged[j]? = some (o, p) ∧ ¬ Fits g j o p) :
    ∃ e : Error, parseArgs toBin g.args g.kw t.cargs ⟨symbols, vars⟩ = .error e ∧
      e.isTypeError := by
  obtain ⟨j, o, p, hp, hfit⟩ := h
  obtain ⟨e, he, htype⟩ := bindAll_unfit (s := (⟨symbols, vars⟩ : State L V)) (.refl symbols)
    ⟨j, o, p, hp, by rwa [zero_add]⟩
  exact ⟨e, by rw [parseArgs_eq, go_table, he]; rfl, htype⟩

theorem parseArgs_fits (vars : L → Stored V)
    (h : ∀ j o p, t.flagged[j]? = some (o, p) → Fits g j o p) :
    parseArgs toBin g.args g.kw t.cargs ⟨symbols, vars⟩ =
      collect toBin g.args g.kw t.cargs t.tail (min t.params.length g.args.length)
        (t.params.length - g.args.length) (settled t g vars) := by
  rw [parseArgs_eq, go_table, bindAll_fits (.refl symbols) fun i o p hi => by
    rw [zero_add]
    exact h i o p hi]
  rfl

theorem parseArgs_refused (vars : L → Stored V) (h : Refused t g) :
    ∃ e : Error, parseArgs toBin g.args g.kw t.cargs ⟨symbols, vars⟩ = .error e ∧
      e.isTypeError := by
  by_cases hfit : ∃ j o p, t.flagged[j]? = some (o, p) ∧ ¬ Fits g j o p
  · exact parseArgs_unfit toBin vars hfit
  · obtain ⟨hstar, hlt⟩ := h.resolve_left hfit
    push Not at hfit
    rw [parseArgs_fits toBin vars hfit, min_eq_left hlt.le, Table.tail, hstar]
    rcases t.star2 with _ | d
    · exact ⟨_, if_pos hlt, trivial⟩
    · exact ⟨_, if_pos hlt, trivial⟩

/-- With a `**`, the keywords are copied. -/
theorem parseArgs_star2 (vars : L → Stored V) (h : ¬ Refused t g) {d : L}
    (hstar2 : t.star2 = some d) : parseArgs toBin g.args g.kw t.cargs ⟨symbols, vars⟩ =
      (copyDict toBin (t.symbolsAfter symbols) t.cargs g.kw).bind fun dict =>
        .ok ⟨t.symbolsAfter symbols, t.gather g dict (settled t g vars).vars⟩ := by
  obtain ⟨hfit, hsurplus⟩ := not_or.1 h
  push Not at hfit
  rw [parseArgs_fits toBin vars hfit, ← settled_symbols t g vars, Table.tail]
  simp only [Table.gather, hstar2]
  rcases hstar : t.star with _ | d'
  · have hle : g.args.length ≤ t.params.length := Nat.le_of_not_lt fun hlt => hsurplus ⟨hstar, hlt⟩
    rw [min_eq_right hle]
    show (if g.args.length < g.args.length then _ else _) = _
    rw [if_neg (Nat.lt_irrefl _)]
    rfl
  · show (copyDict toBin _ t.cargs g.kw).bind _ = _
    rcases copyDict toBin (settled t g vars).symbols t.cargs g.kw with e | dict
    · rfl
    · rw [← List.drop_eq_drop_min]
      rfl

/-- With a `*` alone, nobody looks at the keywords. -/
theorem parseArgs_star (vars : L → Stored V) (h : ¬ Refused t g) {d : L}
    (hstar : t.star = some d) (hstar2 : t.star2 = none) :
    parseArgs toBin g.args g.kw t.cargs ⟨symbols, vars⟩ =
      .ok ⟨t.symbolsAfter symbols, t.gather g [] (settled t g vars).vars⟩ := by
  obtain ⟨hfit, -⟩ := not_or.1 h
  push Not at hfit
  rw [parseArgs_fits toBin vars hfit, ← settled_symbols t g vars, Table.tail, Table.gather, hstar,
    hstar2]
  rw [List.drop_eq_drop_min]
  rfl

/-- Without collectors, they are checked. -/
theorem parseArgs_neither (vars : L → Stored V) (h : ¬ Refused t g) (hstar : t.star = none)
    (hstar2 : t.star2 = none) : parseArgs toBin g.args g.kw t.cargs ⟨symbols, vars⟩ =
      checkKeywords toBin g.args g.kw t.cargs t.params.length (settled t g vars) := by
  obtain ⟨hfit, hsurplus⟩ := not_or.1 h
  push Not at hfit
  have hle : g.args.length ≤ t.params.length := Nat.le_of_not_lt fun hlt => hsurplus ⟨hstar, hlt⟩
  rw [parseArgs_fits toBin vars hfit, min_eq_right hle, Table.tail, hstar, hstar2]
  show (if g.args.length < g.args.length then _ else _) = _
  rw [if_neg (Nat.lt_irrefl _), Nat.add_sub_cancel' hle]
  rfl

/-- What the keywords have to be for the code. With a `**`, `find_param` looks for the name of
the symbol whose ID is the value of the key. With a `*` alone, no keyword may be unknown. Without
either, the count and `find_param` have to tell unknown keywords from the others. -/
def KeywordsRight (t : Table L) (g : Given V symbols) : Prop :=
  match t.star, t.star2 with
  | _, some _ => ∀ e ∈ g.kw, ((t.symbolsAfter symbols).id2name (id2val e.1)).isSome ∧
      (finds toBin (t.symbolsAfter symbols) t.cargs (id2val e.1) = true ↔ t.Declares symbols e.1)
  | some _, none => ∀ e ∈ g.kw, t.Declares symbols e.1
  | none, none => Passes toBin symbols t.cargs g.args g.kw t.params.length ↔
      ∀ e ∈ g.kw, t.Declares symbols e.1

theorem filter_eq_filter_iff {A : Type} {p q : A → Bool} {l : List A} :
    l.filter p = l.filter q ↔ ∀ a ∈ l, p a = q a := by
  refine ⟨fun heq a ha => ?_, List.filter_congr⟩
  have hmem : a ∈ l.filter p ↔ a ∈ l.filter q := by rw [heq]
  rw [List.mem_filter, List.mem_filter, and_iff_right ha, and_iff_right ha] at hmem
  exact Bool.eq_iff_iff.2 hmem

theorem right_star2 (vars : L → Stored V) (h : ¬ Refused t g) {d : L} (hd : t.star2 = some d) :
    Right t g vars (parseArgs toBin g.args g.kw t.cargs ⟨symbols, vars⟩) ↔
      KeywordsRight toBin t g := by
  have hunfit : ¬ Unfit t g := by
    rw [unfit_iff, hd]
    exact fun hu => hu.elim h fun hu => nomatch hu.1
  unfold KeywordsRight
  rw [parseArgs_star2 toBin vars h hd, hd]
  by_cases hnames : ∀ e ∈ g.kw, ((t.symbolsAfter symbols).id2name (id2val e.1)).isSome
  · rw [copyDict_eq toBin hnames]
    show (¬ Unfit t g ∧ Bound t g vars (t.gather g _ (settled t g vars).vars)) ↔ _
    rw [and_iff_right hunfit, bound_iff]
    simp only [hd, Option.some.injEq, forall_eq', filter_eq_filter_iff]
    refine forall₂_congr fun e he => ?_
    rw [and_iff_right (hnames e he), Bool.eq_iff_iff, decide_eq_true_iff, Bool.not_eq_true',
      ← Bool.not_eq_true, not_iff_not]
  · rw [copyDict_bug toBin hnames]
    refine iff_of_false (fun hright => hright.1) fun hall => hnames fun e he => (hall e he).1

theorem right_star (vars : L → Stored V) (h : ¬ Refused t g) {d : L} (hd : t.star = some d)
    (hd2 : t.star2 = none) :
    Right t g vars (parseArgs toBin g.args g.kw t.cargs ⟨symbols, vars⟩) ↔
      KeywordsRight toBin t g := by
  unfold KeywordsRight
  rw [parseArgs_star toBin vars h hd hd2, hd, hd2]
  have hbound : Bound t g vars (t.gather g [] (settled t g vars).vars) :=
    bound_iff.2 fun d' hd' => by simp [hd2] at hd'
  show (¬ Unfit t g ∧ Bound t g vars (t.gather g [] (settled t g vars).vars)) ↔ _
  rw [and_iff_left hbound, unfit_iff, not_or, and_iff_right h]
  simp [hd2]

theorem right_neither (vars : L → Stored V) (h : ¬ Refused t g) (hd : t.star = none)
    (hd2 : t.star2 = none) :
    Right t g vars (parseArgs toBin g.args g.kw t.cargs ⟨symbols, vars⟩) ↔
      KeywordsRight toBin t g := by
  have hextends : symbols.Extends (settled t g vars).symbols := by
    rw [settled_symbols]
    exact (Symbols.Extends.refl symbols).internAll _
  have hpasses : Passes toBin (settled t g vars).symbols t.cargs g.args g.kw t.params.length ↔
      Passes toBin symbols t.cargs g.args g.kw t.params.length := by
    refine and_congr_right fun _ => forall₂_congr fun e he => ?_
    unfold finds
    rw [hextends.id2name_eq (g.interned e he)]
  have hunfit : Unfit t g ↔ ¬ ∀ e ∈ g.kw, t.Declares symbols e.1 := by
    rw [unfit_iff, or_iff_right h, and_iff_right hd2]
    simp
  have hbound : Bound t g vars (settled t g vars).vars := by
    have hgather : Bound t g vars (t.gather g [] (settled t g vars).vars) :=
      bound_iff.2 fun d' hd' => by simp [hd2] at hd'
    simpa [Table.gather, put, hd, hd2] using hgather
  unfold KeywordsRight
  rw [parseArgs_neither toBin vars h hd hd2, hd, hd2]
  simp only
  rw [← hpasses]
  by_cases hpass : Passes toBin (settled t g vars).symbols t.cargs g.args g.kw t.params.length
  · rw [checkKeywords_ok toBin hpass, iff_true_left hpass]
    show (¬ Unfit t g ∧ Bound t g vars (settled t g vars).vars) ↔ _
    rw [and_iff_left hbound, hunfit, not_not]
  · have hinterned : ∀ e ∈ g.kw, e.1 < (settled t g vars).symbols.names.length := fun e he =>
      (g.interned e he).trans_le hextends.length_le
    obtain ⟨e, he, htype⟩ := checkKeywords_error toBin hinterned hpass
    rw [he, iff_false_left hpass, ← hunfit]
    exact and_iff_right htype

/-- It does what it is for exactly when the parameters themselves refuse the arguments, or the
keywords are as its checks take them. -/
theorem parseArgs_iff (t : Table L) (g : Given V symbols) (vars : L → Stored V) :
    Right t g vars (parseArgs toBin g.args g.kw t.cargs ⟨symbols, vars⟩) ↔
      Refused t g ∨ KeywordsRight toBin t g := by
  by_cases h : Refused t g
  · obtain ⟨e, he, htype⟩ := parseArgs_refused toBin vars h
    rw [he]
    exact iff_of_true ⟨htype, (unfit_iff t g).2 (.inl h)⟩ (.inl h)
  · rw [or_iff_right h]
    rcases hd2 : t.star2 with _ | d2
    · rcases hd : t.star with _ | d
      · exact right_neither toBin vars h hd hd2
      · exact right_star toBin vars h hd hd2
    · exact right_star2 toBin vars h hd2

end Whole

/-- `*` alone. -/
def starOnly : Table ℕ := ⟨[], [], some 0, none, by simp, List.nodup_singleton 0⟩

/-- A keyword `a`. -/
def onlyA : Given ℕ ⟨[[toYogChar 0x61]], List.nodup_singleton _⟩ :=
  ⟨[], [(0, 1)], List.nodup_singleton 0, by simp⟩

/-- The keyword is ignored. -/
theorem not_right_starOnly : ¬ Right starOnly onlyA (fun _ => .value 0)
    (parseArgs (fun name => name.map fun c => toByte c.val) onlyA.args onlyA.kw starOnly.cargs
      ⟨⟨[[toYogChar 0x61]], List.nodup_singleton _⟩, fun _ => .value 0⟩) := by
  rintro ⟨hfit, -⟩
  refine hfit (.unknown (0, 1) rfl (List.mem_singleton.2 rfl) ?_)
  simp [Table.Declares, Table.params, starOnly]

end GetArgs

end Yog
