import Yog.LalrActions
import Yog.Lib.Firsts

/-!
# The arguments of semantic actions

`decide_arg_pos` goes by the objects of the right-hand side and `decide_arg_names` by their names.
Both pick the positions with a key that none before them has, so they agree where the two keys tell
the same positions apart.
-/

namespace Yog.Lalr

open Firsts

namespace ActionRule

variable {rule : ActionRule} {V : Type}

/-- The value of the leftmost position with the name; a name without one is that of the data. -/
def valueOf (rule : ActionRule) (args : List V) (data : V) (name : String) : V :=
  (((rule.positions.zip args).find? fun z => argName z.1 = name).map Prod.snd).getD data

/-- Whatever the values of a right-hand side, each parameter gets its value. -/
def Agree (rule : ActionRule) : Prop :=
  ∀ (V : Type) (args : List V) (data : V), args.length = rule.rhs.length →
    invoke rule args data = .ok (rule.decideArgNames.map (rule.valueOf args data))

/-- The name of what `decide_arg_pos` goes by. -/
def keyName : ArgKey → String
  | .«alias» name => name
  | .symbol sym => symName sym

theorem argName_eq (p : Symbol String String × Option String) : argName p = keyName (argKey p) := by
  obtain ⟨sym, _ | name⟩ := p <;> rfl

theorem length_positions (rule : ActionRule) : rule.positions.length = rule.rhs.length := by
  simp [positions, rule.length_alias]

theorem decideArgNamesLoop_eq (ps : List (Symbol String String × Option String))
    (names : List String) : decideArgNamesLoop ps names = (firsts argName ps names).map argName := by
  induction ps generalizing names with
  | nil => rfl
  | cons p ps ih =>
    rw [decideArgNamesLoop, firsts]
    split_ifs
    · exact ih names
    · rw [ih, List.map_cons]

theorem map_fst_firsts {κ : Type} [DecidableEq κ] {f : Symbol String String × Option String → κ}
    {ps : List (Symbol String String × Option String)} {args : List V}
    (h : args.length = ps.length) (seen : List κ) :
    (firsts (f ∘ Prod.fst) (ps.zip args) seen).map Prod.fst = firsts f ps seen := by
  induction ps generalizing args seen with
  | nil => rfl
  | cons p ps ih =>
    obtain ⟨arg, args, rfl⟩ := List.exists_cons_of_length_eq_add_one h
    have hlen : args.length = ps.length := by simpa using h
    rw [List.zip_cons_cons, firsts, firsts]
    simp only [Function.comp_apply]
    split_ifs
    · exact ih hlen _
    · rw [List.map_cons, ih hlen]

/-- `invoke` passes the values of the positions that are new by their objects. -/
theorem invokeLoop_eq {ps : List (Symbol String String × Option String)} {args : List V}
    (h : args.length = ps.length) (pos : List (Option ℕ)) (names : List ArgKey) (params : List V) :
    invokeLoop (pos ++ decideArgPosLoop ps names) args pos.length params =
      .ok (params ++ (firsts (argKey ∘ Prod.fst) (ps.zip args) names).map Prod.snd) := by
  induction ps generalizing args pos names params with
  | nil =>
    obtain rfl := List.length_eq_zero_iff.1 h
    simp [invokeLoop, firsts]
  | cons p ps ih =>
    obtain ⟨arg, args, rfl⟩ := List.exists_cons_of_length_eq_add_one h
    have hlen : args.length = ps.length := by simpa using h
    rw [invokeLoop, List.zip_cons_cons, firsts, decideArgPosLoop]
    simp only [Function.comp_apply]
    split_ifs with hp
    · have := ih hlen (pos ++ [none]) names params
      simpa using this
    · have := ih hlen (pos ++ [some names.length]) (names ++ [argKey p]) (params ++ [arg])
      simpa using this

theorem invoke_eq {args : List V} (h : args.length = rule.rhs.length) (data : V) :
    invoke rule args data =
      .ok (data :: (firsts (argKey ∘ Prod.fst) (rule.positions.zip args) []).map Prod.snd) := by
  have hloop := invokeLoop_eq (h.trans rule.length_positions.symm) [] [] []
  rw [List.nil_append, List.length_nil, List.nil_append] at hloop
  rw [invoke, decideArgPos, hloop]
  rfl

theorem decideArgNames_eq {args : List V} (h : args.length = rule.rhs.length) :
    rule.decideArgNames = dataName ::
      (firsts (argName ∘ Prod.fst) (rule.positions.zip args) []).map (argName ∘ Prod.fst) := by
  rw [decideArgNames, decideArgNamesLoop_eq,
    ← map_fst_firsts (h.trans rule.length_positions.symm), List.map_map]

/-- What two aliases and symbols of one name are to the two functions. -/
structure Clear (rule : ActionRule) : Prop where
  /-- Positions with one name are two aliases, or the same symbol without one. -/
  key : ∀ p ∈ rule.positions, ∀ q ∈ rule.positions, argName p = argName q → argKey p = argKey q
  /-- No position has the name of the first parameter. -/
  data : ∀ p ∈ rule.positions, argName p ≠ dataName

theorem Clear.agree (h : rule.Clear) : rule.Agree := by
  intro V args data hlen
  have hsame : ∀ a ∈ rule.positions.zip args, ∀ b ∈ rule.positions.zip args,
      (argKey ∘ Prod.fst) a = (argKey ∘ Prod.fst) b ↔
        (argName ∘ Prod.fst) a = (argName ∘ Prod.fst) b := by
    intro a ha b hb
    constructor
    · intro heq
      simpa [argName_eq] using congrArg keyName heq
    · exact h.key a.1 (List.of_mem_zip ha).1 b.1 (List.of_mem_zip hb).1
  have hdata : rule.valueOf args data dataName = data := by
    have : (rule.positions.zip args).find? (fun z => argName z.1 = dataName) = none := by
      rw [List.find?_eq_none]
      intro z hz
      simpa using h.data z.1 (List.of_mem_zip hz).1
    rw [valueOf, this]
    rfl
  rw [invoke_eq hlen, decideArgNames_eq hlen, firsts_congr hsame, List.map_cons, hdata,
    List.map_map]
  congr 2
  refine List.map_congr_left fun z hz => ?_
  have hfind := find?_of_mem_firsts hz
  rw [Function.comp_apply, valueOf]
  simp only [Function.comp_apply] at hfind ⊢
  rw [hfind]
  rfl

theorem map_fst_zip_positions {V : Type} {vals : List V} (h : vals.length = rule.rhs.length) :
    (rule.positions.zip vals).map Prod.fst = rule.positions :=
  List.map_fst_zip (by simp [length_positions, h])

theorem Agree.clear (h : rule.Agree) : rule.Clear := by
  constructor
  · -- as many values as parameters, for values that are all alike
    have hlen : (List.replicate rule.rhs.length ()).length = rule.rhs.length := by simp
    have hagree := h Unit (List.replicate rule.rhs.length ()) () hlen
    rw [invoke_eq hlen, decideArgNames_eq hlen] at hagree
    have hcount := congrArg List.length (Except.ok.inj hagree)
    simp only [List.length_cons, List.length_map] at hcount
    intro p hp q hq hpq
    rw [← map_fst_zip_positions hlen] at hp hq
    obtain ⟨a, ha, rfl⟩ := List.mem_map.1 hp
    obtain ⟨b, hb, rfl⟩ := List.mem_map.1 hq
    exact inj_of_length_firsts (fun z _ => argName_eq z.1) (Nat.succ.inj hcount) ha hb hpq
  · -- the data are told from the values of the positions
    intro p hp hname
    have hlen : (List.replicate rule.rhs.length true).length = rule.rhs.length := by simp
    have hagree := h Bool (List.replicate rule.rhs.length true) false hlen
    rw [invoke_eq hlen, decideArgNames] at hagree
    have hhead := congrArg List.head? (Except.ok.inj hagree)
    simp only [List.map_cons, List.head?_cons, Option.some.injEq] at hhead
    rw [← map_fst_zip_positions hlen] at hp
    obtain ⟨a, ha, rfl⟩ := List.mem_map.1 hp
    rcases hfind : (rule.positions.zip (List.replicate rule.rhs.length true)).find?
      (fun z => argName z.1 = dataName) with _ | z
    · exact (List.find?_eq_none.1 hfind a ha) (by simpa using hname)
    · have hz := (List.of_mem_zip (List.mem_of_find?_eq_some hfind)).2
      rw [valueOf, hfind, Option.map_some, Option.getD_some, List.eq_of_mem_replicate hz] at hhead
      simp at hhead

/-- The parameters and the arguments of the action of a rule agree exactly if positions of one name
are one to both functions and none has the name of the data. -/
theorem agree_iff_clear (rule : ActionRule) : rule.Agree ↔ rule.Clear :=
  ⟨Agree.clear, Clear.agree⟩

/-- `a: b@c b`, where an alias has the name of a symbol. -/
def aliasedRule : ActionRule := ⟨[.nonterminal "c", .nonterminal "b"], [some "b", none], rfl⟩

/-- The function has one parameter beside the data, and two values are passed. -/
theorem not_agree_aliasedRule : ¬ ∀ rule : ActionRule, rule.Agree := by
  intro h
  have hkey := (h aliasedRule).clear.key (.nonterminal "c", some "b") (by decide)
    (.nonterminal "b", none) (by decide) rfl
  simp [argKey] at hkey

end ActionRule

end Yog.Lalr
