import Mathlib.Data.List.GetD
import Yog.Lib.Linked
import Yog.TableIteration

/-!
# What a callback deletes

`YogTable_foreach` asks its callback about every entry once, whatever is answered
(`foreachLoop_visits`). It unlinks the right entries as long as the entry it last kept is in the bin
it is going over (`foreachLoop_holds`). The entry is not forgotten between two bins: the top of a
bin that is to be deleted then stays, since it is the link of an entry of an earlier bin that is set
(`foreachLoop_not_holds`).
-/

namespace Yog.NodeTable

open Linked

variable {K V σ : Type}

section Answers

variable (ask : σ → Nat → StRetval × σ)

/-- The entries that are asked about and the answers, up to the first that stops. -/
def answers : σ → List Nat → List (Nat × StRetval)
  | _, [] => []
  | arg, n :: l =>
    (n, (ask arg n).1) :: if (ask arg n).1 = .stStop then [] else answers (ask arg n).2 l

/-- What the callback leaves in its argument. -/
def argAfter : σ → List Nat → σ
  | arg, [] => arg
  | arg, n :: l => if (ask arg n).1 = .stStop then (ask arg n).2 else argAfter (ask arg n).2 l

/-- Some entry is answered by a stop. -/
def Stops : σ → List Nat → Prop
  | _, [] => False
  | arg, n :: l => (ask arg n).1 = .stStop ∨ Stops (ask arg n).2 l

instance decidableStops : ∀ (arg : σ) (l : List Nat), Decidable (Stops ask arg l)
  | _, [] => inferInstanceAs (Decidable False)
  | arg, n :: l =>
    have := decidableStops (ask arg n).2 l
    inferInstanceAs (Decidable (_ ∨ _))

/-- The entries of a bin that are not to be deleted. -/
def kept : σ → List Nat → List Nat
  | _, [] => []
  | arg, n :: l =>
    match (ask arg n).1 with
    | .stStop => n :: l
    | .stDelete => kept (ask arg n).2 l
    | _ => n :: kept (ask arg n).2 l

/-- The bins without what is to be deleted. -/
def keptBins : σ → List (List Nat) → List (List Nat)
  | _, [] => []
  | arg, c :: cs =>
    kept ask arg c :: if Stops ask arg c then cs else keptBins (argAfter ask arg c) cs

/-- Once an entry was kept, no top of a bin is to be deleted. -/
def Proper : σ → Bool → List (List Nat) → Prop
  | _, _, [] => True
  | arg, seen, c :: cs =>
    (seen = true → ∀ n ∈ c.head?, (ask arg n).1 ≠ .stDelete) ∧
      (¬ Stops ask arg c → Proper (argAfter ask arg c) (seen || kept ask arg c ≠ []) cs)

variable {ask}

theorem kept_subset : ∀ {arg : σ} {l : List Nat}, kept ask arg l ⊆ l
  | _, [] => List.Subset.refl _
  | arg, n :: l => by
    have ih := @kept_subset (ask arg n).2 l
    rw [kept]
    split
    · exact List.Subset.refl _
    · exact List.subset_cons_of_subset _ ih
    · exact List.cons_subset_cons _ ih

theorem argAfter_append (arg : σ) (l l' : List Nat) : argAfter ask arg (l ++ l') =
    if Stops ask arg l then argAfter ask arg l else argAfter ask (argAfter ask arg l) l' := by
  induction l generalizing arg with
  | nil => simp [argAfter, Stops]
  | cons n l ih =>
    rw [List.cons_append, argAfter, argAfter, ih]
    by_cases h : (ask arg n).1 = .stStop <;> simp [Stops, h]

theorem answers_append (arg : σ) (l l' : List Nat) : answers ask arg (l ++ l') =
    answers ask arg l ++ if Stops ask arg l then [] else answers ask (argAfter ask arg l) l' := by
  induction l generalizing arg with
  | nil => simp [answers, argAfter, Stops]
  | cons n l ih =>
    rw [List.cons_append, answers, answers, ih]
    by_cases h : (ask arg n).1 = .stStop <;> simp [Stops, argAfter, h]

/-- Only the entries are asked about, and in their order. -/
theorem map_fst_answers (arg : σ) (l : List Nat) : (answers ask arg l).map Prod.fst <+: l := by
  induction l generalizing arg with
  | nil => exact List.prefix_rfl
  | cons n l ih =>
    rw [answers, List.map_cons, List.prefix_cons_inj]
    split_ifs
    · exact List.nil_prefix
    · exact ih _

theorem mem_of_answer {arg : σ} {l : List Nat} {n : Nat} {r : StRetval}
    (h : (n, r) ∈ answers ask arg l) : n ∈ l :=
  (map_fst_answers arg l).subset (List.mem_map_of_mem h)

theorem answers_of_not_stops {arg : σ} {l : List Nat} (h : ¬ Stops ask arg l) :
    (answers ask arg l).map Prod.fst = l := by
  induction l generalizing arg with
  | nil => rfl
  | cons n l ih =>
    rw [Stops, not_or] at h
    rw [answers, if_neg h.1, List.map_cons, ih h.2]

theorem stops_iff {arg : σ} {l : List Nat} :
    Stops ask arg l ↔ ∃ n, (n, .stStop) ∈ answers ask arg l := by
  induction l generalizing arg with
  | nil => simp [Stops, answers]
  | cons n l ih =>
    rw [Stops, answers, ih]
    by_cases h : (ask arg n).1 = .stStop
    · simp [h]
    · simp [h, Ne.symm h]

/-- The answer about the first entry is the only one about it. -/
theorem answer_head {arg : σ} {n : Nat} {l : List Nat} (hn : n ∉ l) {r : StRetval} :
    (n, r) ∈ answers ask arg (n :: l) ↔ (ask arg n).1 = r := by
  rw [answers]
  constructor
  · intro h
    rcases List.mem_cons.1 h with heq | h
    · exact (Prod.ext_iff.1 heq).2.symm
    · split_ifs at h
      · exact absurd h List.not_mem_nil
      · exact absurd (mem_of_answer h) hn
  · rintro rfl
    exact List.mem_cons_self

/-- An entry is kept unless it is answered by a deletion. -/
theorem kept_eq_filter {arg : σ} {l : List Nat} (hnd : l.Nodup) :
    kept ask arg l = l.filter fun n => (n, .stDelete) ∉ answers ask arg l := by
  induction l generalizing arg with
  | nil => rfl
  | cons n l ih =>
    rw [List.nodup_cons] at hnd
    by_cases hstop : (ask arg n).1 = .stStop
    · simp [kept, answers, hstop]
    · have htail : l.filter (fun m => (m, .stDelete) ∉ answers ask arg (n :: l)) =
          kept ask (ask arg n).2 l := by
        rw [ih hnd.2]
        refine List.filter_congr fun m hm => ?_
        have hne : m ≠ n := fun h => hnd.1 (h ▸ hm)
        simp [answers, hstop, hne]
      have hhead := @answer_head σ ask arg n l hnd.1 .stDelete
      rw [List.filter_cons, htail]
      rcases hans : (ask arg n).1 with _ | _ | _ | _
      · simp [kept, hhead, hans]
      · exact absurd hans hstop
      · simp [kept, hhead, hans]
      · simp [kept, hhead, hans]

/-- What is kept is what is answered by going on, where nothing stops. -/
theorem mem_kept_iff (hcheck : ∀ arg n, (ask arg n).1 ≠ .stCheck) {arg : σ} {l : List Nat}
    (h : ¬ Stops ask arg l) (m : Nat) :
    m ∈ kept ask arg l ↔ (m, .stContinue) ∈ answers ask arg l := by
  induction l generalizing arg with
  | nil => simp [kept, answers]
  | cons n l ih =>
    rw [Stops, not_or] at h
    rw [answers, if_neg h.1, List.mem_cons, ← ih h.2]
    rcases hans : (ask arg n).1 with _ | _ | _ | _
    · simp [kept, hans]
    · exact absurd hans h.1
    · simp [kept, hans]
    · exact absurd hans (hcheck arg n)

theorem keptBins_eq_map {arg : σ} {cs : List (List Nat)} (hnd : cs.flatten.Nodup) :
    keptBins ask arg cs =
      cs.map fun c => c.filter fun n => (n, .stDelete) ∉ answers ask arg cs.flatten := by
  induction cs generalizing arg with
  | nil => rfl
  | cons c cs ih =>
    rw [List.flatten_cons, List.nodup_append] at hnd
    have hout (n : Nat) (hn : n ∈ cs.flatten) (r : StRetval) : (n, r) ∉ answers ask arg c :=
      fun h => hnd.2.2 n (mem_of_answer h) n hn rfl
    rw [keptBins, List.map_cons, kept_eq_filter hnd.1, List.flatten_cons, answers_append]
    congr 1
    · refine List.filter_congr fun n hn => ?_
      split_ifs
      · simp
      · have hno : (n, .stDelete) ∉ answers ask (argAfter ask arg c) cs.flatten := fun h =>
          hnd.2.2 n hn n (mem_of_answer h) rfl
        simp [hno]
    · split_ifs
      · refine (List.map_id cs).symm.trans (List.map_congr_left fun d hd => ?_)
        refine (List.filter_eq_self.2 fun n hn => ?_).symm
        simpa using hout n (List.mem_flatten_of_mem hd hn) .stDelete
      · rw [ih hnd.2.1]
        refine List.map_congr_left fun d hd => List.filter_congr fun n hn => ?_
        simp [hout n (List.mem_flatten_of_mem hd hn) .stDelete]

/-- No top of a bin is answered by a deletion once an entry of an earlier bin was answered by going
on. -/
def KeepsTops (cs : List (List Nat)) (as : List (Nat × StRetval)) : Prop :=
  ∀ pre n l post, cs = pre ++ (n :: l) :: post → (n, .stDelete) ∈ as →
    ∀ m ∈ pre.flatten, (m, .stContinue) ∉ as

theorem proper_iff (hcheck : ∀ arg n, (ask arg n).1 ≠ .stCheck) {arg : σ} {seen : Bool}
    {cs : List (List Nat)} (hnd : cs.flatten.Nodup) : Proper ask arg seen cs ↔
      ∀ pre n l post, cs = pre ++ (n :: l) :: post → (n, .stDelete) ∈ answers ask arg cs.flatten →
        seen = false ∧ ∀ m ∈ pre.flatten, (m, .stContinue) ∉ answers ask arg cs.flatten := by
  induction cs generalizing arg seen with
  | nil => simp [Proper]
  | cons c cs ih =>
    rw [List.flatten_cons, List.nodup_append] at hnd
    have hfirst (n : Nat) (hn : n ∈ c) (r : StRetval) :
        (n, r) ∈ answers ask arg (c ++ cs.flatten) ↔ (n, r) ∈ answers ask arg c := by
      rw [answers_append, List.mem_append]
      refine or_iff_left fun h => ?_
      split_ifs at h
      · exact absurd h List.not_mem_nil
      · exact hnd.2.2 n hn n (mem_of_answer h) rfl
    have hlater (n : Nat) (hn : n ∈ cs.flatten) (r : StRetval) :
        (n, r) ∈ answers ask arg (c ++ cs.flatten) ↔
          ¬ Stops ask arg c ∧ (n, r) ∈ answers ask (argAfter ask arg c) cs.flatten := by
      rw [answers_append, List.mem_append]
      refine (or_iff_right fun h => hnd.2.2 n (mem_of_answer h) n hn rfl).trans ?_
      split_ifs with hst <;> simp [hst]
    have htop (n : Nat) (l : List Nat) (hc : c = n :: l) :
        (n, .stDelete) ∈ answers ask arg (c ++ cs.flatten) ↔ (ask arg n).1 = .stDelete := by
      rw [hfirst n (hc ▸ List.mem_cons_self), hc]
      exact answer_head (List.nodup_cons.1 (hc ▸ hnd.1)).1
    rw [List.flatten_cons, Proper]
    constructor
    · rintro ⟨hhead, hrest⟩ pre n l post heq hdel
      rcases pre with _ | ⟨c', pre⟩
      · obtain ⟨rfl, rfl⟩ := List.cons.inj heq
        refine ⟨?_, by simp⟩
        by_contra hseen
        exact hhead (by simpa using hseen) n (by simp) ((htop n l rfl).1 hdel)
      · obtain ⟨rfl, rfl⟩ := List.cons.inj heq
        obtain ⟨hst, hdel'⟩ := (hlater n (by simp) _).1 hdel
        obtain ⟨hseen, hnone⟩ := (ih hnd.2.1).1 (hrest hst) pre n l post rfl hdel'
        rw [Bool.or_eq_false_iff, decide_eq_false_iff_not, not_not] at hseen
        refine ⟨hseen.1, fun m hm hcont => ?_⟩
        rw [List.flatten_cons, List.mem_append] at hm
        rcases hm with hm | hm
        · rw [hfirst m hm, ← mem_kept_iff hcheck hst, hseen.2] at hcont
          exact absurd hcont List.not_mem_nil
        · have hmem : m ∈ (pre ++ (n :: l) :: post).flatten := by
            rw [List.flatten_append]
            exact List.mem_append_left _ hm
          exact hnone m hm ((hlater m hmem _).1 hcont).2
    · intro h
      refine ⟨fun hseen n hn hdel => ?_, fun hst => (ih hnd.2.1).2 ?_⟩
      · obtain ⟨l, rfl⟩ := List.head?_eq_some_iff.1 hn
        have hfalse := (h [] n l cs rfl ((htop n l rfl).2 hdel)).1
        exact absurd hseen (by simp [hfalse])
      · rintro pre n l post rfl hdel
        obtain ⟨hseen, hnone⟩ := h (c :: pre) n l post rfl ((hlater n (by simp) _).2 ⟨hst, hdel⟩)
        refine ⟨?_, fun m hm hcont => ?_⟩
        · rw [hseen, Bool.false_or, decide_eq_false_iff_not, not_not]
          refine List.eq_nil_iff_forall_not_mem.2 fun m hm => ?_
          have hmem : m ∈ c := kept_subset hm
          exact hnone m (by simp [hmem])
            ((hfirst m hmem _).2 ((mem_kept_iff hcheck hst m).1 hm))
        · have hmem : m ∈ (pre ++ (n :: l) :: post).flatten := by
            rw [List.flatten_append]
            exact List.mem_append_left _ hm
          refine hnone m ?_ ((hlater m hmem _).2 ⟨hst, hcont⟩)
          rw [List.flatten_cons]
          exact List.mem_append_right _ hm

end Answers

/-- The chains of a table's bins. -/
structure Holds (t : NodeTable K V) (cs : List (List Nat)) : Prop where
  seg : ∀ i, Seg t.next (t.entryTop i) (cs.getD i []) none
  nodup : cs.flatten.Nodup
  numBins : t.numBins = cs.length
  numEntries : t.numEntries = cs.flatten.length

theorem getD_append_cons (pre post : List (List Nat)) (c : List Nat) (i : Nat) :
    (pre ++ c :: post).getD i [] = if i < pre.length then pre.getD i []
      else if i = pre.length then c else post.getD (i - pre.length - 1) [] := by
  split_ifs with hlt heq
  · rw [List.getD_append _ _ _ _ hlt]
  · rw [List.getD_append_right _ _ _ _ heq.ge, heq, Nat.sub_self, List.getD_cons_zero]
  · obtain ⟨k, hk⟩ := Nat.exists_eq_add_of_lt (show pre.length < i by omega)
    rw [List.getD_append_right _ _ _ _ (by omega),
      show i - pre.length = i - pre.length - 1 + 1 by omega, List.getD_cons_succ,
      Nat.add_sub_cancel]

variable {t : NodeTable K V} {pre post : List (List Nat)} {c c' : List Nat}

/-- A bin is changed and no link of another. -/
theorem Holds.change {t' : NodeTable K V} (h : Holds t (pre ++ c :: post)) (hsub : c'.Sublist c)
    (htop : ∀ i, i ≠ pre.length → t'.entryTop i = t.entryTop i)
    (hnext : ∀ n ∈ (pre ++ post).flatten, t'.next n = t.next n)
    (hseg : Seg t'.next (t'.entryTop pre.length) c' none) (hbins : t'.numBins = t.numBins)
    (hn : t'.numEntries + c.length = t.numEntries + c'.length) : Holds t' (pre ++ c' :: post) where
  seg i := by
    rw [getD_append_cons]
    have hold := h.seg i
    rw [getD_append_cons] at hold
    split_ifs at hold ⊢ with hlt heq
    · rw [htop i (by omega)]
      refine hold.congr fun n hmem => hnext n ?_
      rw [List.getD_eq_getElem _ _ hlt] at hmem
      rw [List.flatten_append]
      exact List.mem_append_left _ (List.mem_flatten_of_mem (List.getElem_mem hlt) hmem)
    · rwa [heq]
    · rw [htop i heq]
      refine hold.congr fun n hmem => hnext n ?_
      rw [List.flatten_append]
      refine List.mem_append_right _ ?_
      by_cases hlen : i - pre.length - 1 < post.length
      · rw [List.getD_eq_getElem _ _ hlen] at hmem
        exact List.mem_flatten_of_mem (List.getElem_mem hlen) hmem
      · rw [List.getD_eq_default _ _ (by omega)] at hmem
        exact absurd hmem List.not_mem_nil
  nodup := by
    refine h.nodup.sublist ?_
    simp only [List.flatten_append, List.flatten_cons]
    exact (List.Sublist.refl _).append (hsub.append (List.Sublist.refl _))
  numBins := by
    rw [hbins, h.numBins]
    simp
  numEntries := by
    have hold := h.numEntries
    simp only [List.flatten_append, List.flatten_cons, List.length_append] at hold ⊢
    omega

theorem Holds.seg_bin (h : Holds t (pre ++ c :: post)) :
    Seg t.next (t.entryTop pre.length) c none := by
  simpa [getD_append_cons] using h.seg pre.length

theorem Holds.lt_items (h : Holds t (pre ++ c :: post)) (hc : c ≠ []) :
    pre.length < t.items.length := by
  by_contra hge
  have hhead := h.seg_bin.head?_eq hc
  rw [entryTop, List.getD_eq_default _ _ (by omega), List.head?_eq_none_iff] at hhead
  exact hc hhead

theorem Holds.nodup_bin (h : Holds t (pre ++ c :: post)) :
    c.Nodup ∧ ∀ n ∈ c, n ∉ (pre ++ post).flatten := by
  have hnd := h.nodup
  simp only [List.flatten_append, List.flatten_cons, List.nodup_append, List.mem_append] at hnd ⊢
  refine ⟨hnd.2.1.1, fun n hn hmem => ?_⟩
  rcases hmem with hpre | hpost
  · exact hnd.2.2 n hpre n (.inl hn) rfl
  · exact hnd.2.1.2.2 n hn n hpost rfl

/-- An entry behind those that were kept is unlinked. -/
theorem Holds.unlinkFrom {ks rest : List Nat} {p : Nat}
    (h : Holds t (pre ++ (ks ++ p :: rest) :: post)) :
    Holds (t.unlinkFrom pre.length ks.getLast? p) (pre ++ (ks ++ rest) :: post) := by
  obtain ⟨hnd, hout⟩ := h.nodup_bin
  obtain ⟨m, hks, hp⟩ := Seg.append_iff.1 h.seg_bin
  obtain ⟨rfl, hrest⟩ := Seg.cons_iff.1 hp
  have hpos : 0 < t.numEntries := by
    rw [h.numEntries]
    exact List.length_pos_of_mem (a := p) (by simp)
  have hsub : (ks ++ rest).Sublist (ks ++ p :: rest) :=
    (List.Sublist.refl _).append (List.sublist_cons_self _ _)
  rcases List.eq_nil_or_concat ks with rfl | ⟨ks, l, rfl⟩
  · have hlt := h.lt_items (by simp)
    refine h.change hsub (fun i hi => ?_) (fun n _ => rfl) ?_ rfl ?_
    · simp [NodeTable.unlinkFrom, entryTop, List.getD_eq_getElem?_getD, List.getElem?_set_ne hi.symm]
    · simpa [NodeTable.unlinkFrom, entryTop, List.getD_eq_getElem?_getD, hlt] using hrest
    · simp [NodeTable.unlinkFrom]
      omega
  · rw [List.concat_eq_append] at *
    rw [List.getLast?_append, List.getLast?_singleton, Option.some_or]
    have hne (n : Nat) (hn : n ≠ l) : (t.unlinkFrom pre.length (some l) p).next n = t.next n :=
      Function.update_of_ne hn _ _
    rw [List.append_assoc, List.nodup_append] at hnd
    refine h.change hsub (fun i _ => rfl) (fun n hn => hne n ?_) ?_ rfl ?_
    · rintro rfl
      exact hout n (by simp) hn
    · refine Seg.append_iff.2 ⟨_, hks.relink fun hmem => ?_, hrest.congr fun n hn => hne n ?_⟩
      · exact hnd.2.2 l hmem l (by simp) rfl
      · rintro rfl
        have := hnd.2.1
        simp [hn] at this
    · simp [NodeTable.unlinkFrom]
      omega

section Bins

variable {func : σ → K → V → StRetval × σ}

/-- The callback, asked about a node. -/
abbrev asked (func : σ → K → V → StRetval × σ) (t : NodeTable K V) (arg : σ) (n : Nat) :
    StRetval × σ :=
  func arg (t.entry n).key (t.entry n).record

/-- What going over a bin may change: its own top, unless an entry was kept before, and the links of
its entries and of the one kept last. -/
structure Changes (i : Nat) (last : Option Nat) (l : List Nat) (t t' : NodeTable K V)
    (last' : Option Nat) : Prop where
  entry : t'.entry = t.entry
  numBins : t'.numBins = t.numBins
  later : ∀ j, i < j → t'.entryTop j = t.entryTop j
  items : last.isSome → t'.items = t.items
  next : ∀ n, n ∉ l → last ≠ some n → t'.next n = t.next n
  last_mem : ∀ n, last' = some n → n ∈ l ∨ last = some n
  last_isSome : last.isSome → last'.isSome

theorem Changes.refl (i : Nat) (last : Option Nat) (l : List Nat) (t : NodeTable K V) :
    Changes i last l t t last :=
  ⟨rfl, rfl, fun _ _ => rfl, fun _ => rfl, fun _ _ _ => rfl, fun _ h => .inr h, id⟩

theorem Changes.cons {i p : Nat} {last last₁ last₂ : Option Nat} {l : List Nat}
    {t t₁ t₂ : NodeTable K V} (h : Changes i last [p] t t₁ last₁) (h' : Changes i last₁ l t₁ t₂ last₂) :
    Changes i last (p :: l) t t₂ last₂ where
  entry := h'.entry.trans h.entry
  numBins := h'.numBins.trans h.numBins
  later j hj := (h'.later j hj).trans (h.later j hj)
  items hl := (h'.items (h.last_isSome hl)).trans (h.items hl)
  next n hn hl := by
    rw [List.mem_cons, not_or] at hn
    refine (h'.next n hn.2 fun hl₁ => ?_).trans (h.next n (by simpa using hn.1) hl)
    rcases h.last_mem n hl₁ with hmem | hl'
    · exact hn.1 (by simpa using hmem)
    · exact hl hl'
  last_mem n hn := by
    rcases h'.last_mem n hn with hmem | hl₁
    · exact .inl (List.mem_cons_of_mem _ hmem)
    · rcases h.last_mem n hl₁ with hmem | hl
      · exact .inl (List.mem_cons.2 (.inl (by simpa using hmem)))
      · exact .inr hl
  last_isSome hl := h'.last_isSome (h.last_isSome hl)

/-- An entry that is kept. -/
theorem changes_continue (i p : Nat) (last : Option Nat) (t : NodeTable K V) :
    Changes i last [p] t t (some p) :=
  ⟨rfl, rfl, fun _ _ => rfl, fun _ => rfl, fun _ _ _ => rfl, fun n h => .inl (by simpa using h.symm),
    fun _ => rfl⟩

/-- An entry that is deleted. -/
theorem changes_unlinkFrom (i p : Nat) (last : Option Nat) (t : NodeTable K V) :
    Changes i last [p] t (t.unlinkFrom i last p) last := by
  rcases last with _ | m
  · refine ⟨rfl, rfl, fun j hj => ?_, fun h => absurd h (by simp), fun _ _ _ => rfl,
      fun _ h => .inr h, id⟩
    simp [unlinkFrom, entryTop, List.getD_eq_getElem?_getD, List.getElem?_set_ne hj.ne]
  · exact ⟨rfl, rfl, fun _ _ => rfl, fun _ => rfl,
      fun n _ hn => Function.update_of_ne (fun h => hn (by rw [h])) _ _, fun _ h => .inr h, id⟩

section Steps

variable {i fuel p : Nat} {t : NodeTable K V} {last : Option Nat} {arg arg' : σ}

theorem foreachBin_continue (h : asked func t arg p = (.stContinue, arg')) :
    foreachBin func i (fuel + 1) t last (some p) arg =
      foreachBin func i fuel t (some p) (t.next p) arg' := by
  rw [foreachBin, show func arg (t.entry p).key (t.entry p).record = _ from h]

theorem foreachBin_stop (h : asked func t arg p = (.stStop, arg')) :
    foreachBin func i (fuel + 1) t last (some p) arg = some (.returned true t arg') := by
  rw [foreachBin, show func arg (t.entry p).key (t.entry p).record = _ from h]

/-- The link of the entry itself is not the one that is set. -/
theorem foreachBin_delete (h : asked func t arg p = (.stDelete, arg')) (hlast : last ≠ some p) :
    foreachBin func i (fuel + 1) t last (some p) arg =
      foreachBin func i fuel (t.unlinkFrom i last p) last (t.next p) arg' := by
  have hnext : (t.unlinkFrom i last p).next p = t.next p := by
    rcases last with _ | m
    · rfl
    · exact Function.update_of_ne (fun h => hlast (by rw [h])) _ _
  rw [foreachBin, show func arg (t.entry p).key (t.entry p).record = _ from h]
  simp only [hnext]

end Steps

@[simp]
theorem asked_unlinkFrom (t : NodeTable K V) (i p : Nat) (last : Option Nat) :
    asked func (t.unlinkFrom i last p) = asked func t := by
  unfold asked
  rw [(changes_unlinkFrom i p last t).entry]

/-- The links of a bin's later entries are not set when an entry is deleted. -/
theorem seg_unlinkFrom {i p : Nat} {last ptr : Option Nat} {t : NodeTable K V} {l : List Nat}
    (h : Seg t.next ptr l none) (hp : p ∉ l) (hlast : ∀ n, last = some n → n ∉ l) :
    Seg (t.unlinkFrom i last p).next ptr l none :=
  h.congr fun n hn => (changes_unlinkFrom i p last t).next n
    (fun hmem => hp ((List.mem_singleton.1 hmem) ▸ hn)) fun hl => hlast n hl hn

/-- How going over a bin is to end. -/
def binEnd (stops : Prop) [Decidable stops] (t : NodeTable K V) (last : Option Nat) (arg : σ) :
    BinEnd K V σ :=
  if stops then .returned true t arg else .goesOn t last arg

/-- The entry that was kept last is in the bin, or the next is kept. -/
def InStep (ask : σ → Nat → StRetval × σ) (arg : σ) (last : Option Nat) (ks l : List Nat) : Prop :=
  last = ks.getLast? ∨ ks = [] ∧ ∀ n ∈ l.head?, (ask arg n).1 ≠ .stDelete

/-- Every entry of a bin is asked about once, until one stops. If it is gone over with the right
entry as the last, the bin is left without what is deleted. -/
theorem foreachBin_spec (hcheck : ∀ arg k v, (func arg k v).1 ≠ .stCheck) (i : Nat) {l : List Nat}
    {fuel : Nat} (hfuel : l.length < fuel) {t : NodeTable K V} {last ptr : Option Nat} {arg : σ}
    (hseg : Seg t.next ptr l none) (hnd : l.Nodup) (hlast : ∀ n, last = some n → n ∉ l) :
    ∃ t' last', Changes i last l t t' last' ∧
      (¬ Stops (asked func t) arg l →
        last'.isSome = (last.isSome || kept (asked func t) arg l ≠ [])) ∧
      (∀ pre post ks, pre.length = i → Holds t (pre ++ (ks ++ l) :: post) →
        InStep (asked func t) arg last ks l →
          Holds t' (pre ++ (ks ++ kept (asked func t) arg l) :: post)) ∧
      foreachBin func i fuel t last ptr arg =
        some (binEnd (Stops (asked func t) arg l) t' last' (argAfter (asked func t) arg l)) := by
  induction fuel generalizing l t last ptr arg with
  | zero => omega
  | succ fuel ih =>
    rcases hseg with _ | @⟨p, l, -, hrest⟩
    · exact ⟨t, last, .refl i last [] t, fun _ => by simp [kept], fun _ _ _ _ h _ => h, rfl⟩
    · rw [List.nodup_cons] at hnd
      simp only [List.length_cons] at hfuel
      have hask : (asked func t arg p).1 ≠ .stCheck := hcheck _ _ _
      rcases hans : asked func t arg p with ⟨r, arg'⟩
      rw [hans] at hask
      rcases r with _ | _ | _ | _
      · obtain ⟨t', last', hch, hsome, hholds, hrun⟩ := @ih l (by omega) t (some p) (t.next p) arg'
          hrest hnd.2 fun n hn => Option.some.inj hn ▸ hnd.1
        refine ⟨t', last', (changes_continue i p last t).cons hch, fun hst => ?_,
          fun pre post ks hpre h _ => ?_, ?_⟩
        · simp only [Stops, hans, reduceCtorEq, false_or] at hst
          simpa [kept, hans] using hsome hst
        · have hkept := hholds pre post (ks ++ [p]) hpre (by simpa using h) (.inl (by simp))
          simpa [kept, hans] using hkept
        · rw [foreachBin_continue hans, hrun]
          simp [binEnd, Stops, argAfter, hans]
      · refine ⟨t, last, .refl i last _ t, fun hst => absurd (.inl (by rw [hans])) hst,
          fun pre post ks _ h _ => by simpa [kept, hans] using h, ?_⟩
        rw [foreachBin_stop hans]
        simp [binEnd, Stops, argAfter, hans]
      · have hlast' (n : Nat) (hn : last = some n) : n ∉ l := fun hmem =>
          hlast n hn (List.mem_cons_of_mem _ hmem)
        obtain ⟨t', last', hch, hsome, hholds, hrun⟩ := @ih l (by omega) (t.unlinkFrom i last p)
          last (t.next p) arg' (seg_unlinkFrom hrest hnd.1 hlast') hnd.2 hlast'
        rw [asked_unlinkFrom] at hsome hholds hrun
        refine ⟨t', last', (changes_unlinkFrom i p last t).cons hch, fun hst => ?_,
          fun pre post ks hpre h hstep => ?_, ?_⟩
        · simp only [Stops, hans, reduceCtorEq, false_or] at hst
          simpa [kept, hans] using hsome hst
        · rcases hstep with rfl | ⟨-, hhead⟩
          · rw [← hpre] at hholds
            simpa [kept, hans] using hholds pre post ks rfl h.unlinkFrom (.inl rfl)
          · exact absurd (by rw [hans]) (hhead p (by simp))
        · rw [foreachBin_delete hans fun h => hlast p h List.mem_cons_self, hrun]
          simp [binEnd, Stops, argAfter, hans]
      · exact absurd rfl hask

end Bins

/-- The bins that are still to be gone over. -/
structure Ahead (t : NodeTable K V) (i : Nat) (last : Option Nat) (cs : List (List Nat)) :
    Prop where
  seg : ∀ j, Seg t.next (t.entryTop (i + j)) (cs.getD j []) none
  nodup : cs.flatten.Nodup
  last : ∀ n, last = some n → n ∉ cs.flatten

theorem Ahead.tail {t t' : NodeTable K V} {i : Nat} {last last' : Option Nat} {c : List Nat}
    {cs : List (List Nat)} (h : Ahead t i last (c :: cs)) (hch : Changes i last c t t' last') :
    Ahead t' (i + 1) last' cs := by
  have hnd := h.nodup
  rw [List.flatten_cons, List.nodup_append] at hnd
  have hout (n : Nat) (hn : n ∈ cs.flatten) : n ∉ c ∧ last ≠ some n :=
    ⟨fun hc => hnd.2.2 n hc n hn rfl, fun hl => h.last n hl (List.mem_append_right _ hn)⟩
  refine ⟨fun j => ?_, hnd.2.1, fun n hn hmem => ?_⟩
  · have hseg := h.seg (j + 1)
    rw [List.getD_cons_succ, show i + (j + 1) = i + 1 + j by omega] at hseg
    rw [hch.later _ (by omega)]
    refine hseg.congr fun n hn => ?_
    have hmem : n ∈ cs.flatten := by
      by_cases hj : j < cs.length
      · rw [List.getD_eq_getElem _ _ hj] at hn
        exact List.mem_flatten_of_mem (List.getElem_mem hj) hn
      · rw [List.getD_eq_default _ _ (by omega)] at hn
        exact absurd hn List.not_mem_nil
    exact hch.next n (hout n hmem).1 (hout n hmem).2
  · rcases hch.last_mem n hn with hc | hl
    · exact (hout n hmem).1 hc
    · exact (hout n hmem).2 hl

/-- The top of a bin that is to be deleted is there when the tops are as they were. -/
theorem not_holds_of_top {ask : σ → Nat → StRetval × σ} {arg : σ} {t' : NodeTable K V} {n : Nat}
    {l : List Nat} {pre post : List (List Nat)} (hn : n ∉ l) (hdel : (ask arg n).1 = .stDelete)
    (htop : t'.entryTop pre.length = some n) :
    ¬ Holds t' (pre ++ kept ask arg (n :: l) :: post) := by
  intro h
  have hseg := h.seg_bin
  rw [htop] at hseg
  have hkept : kept ask arg (n :: l) = kept ask (ask arg n).2 l := by
    rw [kept, hdel]
  rw [hkept] at hseg
  rcases hm : kept ask (ask arg n).2 l with _ | ⟨m, ms⟩
  · rw [hm] at hseg
    exact absurd (Seg.nil_iff.1 hseg) (by simp)
  · rw [hm] at hseg
    obtain rfl := Option.some.inj (Seg.cons_iff.1 hseg).1
    exact hn (kept_subset (hm ▸ List.mem_cons_self))

/-- Every entry is asked about once, until one stops, and the table is left without what is deleted
exactly if no top of a bin is to be deleted once an entry was kept. -/
theorem foreachLoop_spec {func : σ → K → V → StRetval × σ}
    (hcheck : ∀ arg k v, (func arg k v).1 ≠ .stCheck) {fuel : Nat} {cs : List (List Nat)} {i : Nat}
    {t : NodeTable K V} {last : Option Nat} {arg : σ} (h : Ahead t i last cs)
    (hfuel : cs.flatten.length < fuel) :
    ∃ t', t'.entry = t.entry ∧ (last.isSome → t'.items = t.items) ∧
      (∀ pre : List (List Nat), pre.length = i → Proper (asked func t) arg last.isSome cs →
        Holds t (pre ++ cs) → Holds t' (pre ++ keptBins (asked func t) arg cs)) ∧
      (∀ pre : List (List Nat), pre.length = i → ¬ Proper (asked func t) arg last.isSome cs →
        ¬ Holds t' (pre ++ keptBins (asked func t) arg cs)) ∧
      foreachLoop func fuel cs.length i t last arg =
        some (true, t', argAfter (asked func t) arg cs.flatten) := by
  induction cs generalizing i t last arg with
  | nil => exact ⟨t, rfl, fun _ => rfl, fun _ _ _ h => h, fun _ _ hp => absurd trivial hp, rfl⟩
  | cons c cs ih =>
    have hnd := h.nodup
    rw [List.flatten_cons, List.nodup_append] at hnd
    rw [List.flatten_cons, List.length_append] at hfuel
    have hseg : Seg t.next (t.entryTop i) c none := h.seg 0
    have hlt : c.length < fuel := by omega
    obtain ⟨t₁, last₁, hch, hsome, hholds, hrun⟩ := foreachBin_spec hcheck i hlt hseg hnd.1
      fun n hn hmem => h.last n hn (List.mem_append_left _ hmem)
    have hin (hp : Proper (asked func t) arg last.isSome (c :: cs)) :
        InStep (asked func t) arg last [] c := by
      rcases last with _ | n
      · exact .inl rfl
      · exact .inr ⟨rfl, hp.1 rfl⟩
    have hbad (t' : NodeTable K V) (hitems : last.isSome → t'.items = t.items)
        (hp : ¬ (last.isSome = true → ∀ n ∈ c.head?, (asked func t arg n).1 ≠ .stDelete))
        (pre post : List (List Nat)) (hpre : pre.length = i) :
        ¬ Holds t' (pre ++ kept (asked func t) arg c :: post) := by
      push Not at hp
      obtain ⟨hl, n, hn, hdel⟩ := hp
      obtain ⟨l, rfl⟩ := List.head?_eq_some_iff.1 hn
      refine not_holds_of_top (List.nodup_cons.1 hnd.1).1 hdel ?_
      rw [entryTop, hitems hl, hpre]
      exact (Seg.cons_iff.1 hseg).1
    rw [List.length_cons, foreachLoop, hrun, List.flatten_cons, argAfter_append]
    by_cases hst : Stops (asked func t) arg c
    · refine ⟨t₁, hch.entry, hch.items, fun pre hpre hp hold => ?_, fun pre hpre hp => ?_, ?_⟩
      · rw [keptBins, if_pos hst]
        exact hholds pre cs [] hpre hold (hin hp)
      · rw [keptBins, if_pos hst]
        refine hbad t₁ hch.items (fun hp' => hp ⟨hp', fun h => absurd hst h⟩) pre cs hpre
      · simp [binEnd, hst]
    · obtain ⟨t₂, hentry, hitems, hgood, hnot, hrun₂⟩ := @ih (i + 1) t₁ last₁
        (argAfter (asked func t) arg c) (h.tail hch) (by omega)
      have hasked : asked func t₁ = asked func t := by
        unfold asked
        rw [hch.entry]
      rw [hasked, hsome hst] at hgood hnot
      rw [hasked] at hrun₂
      have hitems₂ (hl : last.isSome) : t₂.items = t.items :=
        (hitems (hch.last_isSome hl)).trans (hch.items hl)
      refine ⟨t₂, hentry.trans hch.entry, hitems₂, fun pre hpre hp hold => ?_,
        fun pre hpre hp => ?_, ?_⟩
      · have h₁ := hholds pre cs [] hpre hold (hin hp)
        have h₂ := hgood (pre ++ [kept (asked func t) arg c]) (by simp [hpre]) (hp.2 hst)
          (by simpa using h₁)
        rw [keptBins, if_neg hst]
        simpa using h₂
      · rw [keptBins, if_neg hst]
        by_cases hp₁ : last.isSome = true → ∀ n ∈ c.head?, (asked func t arg n).1 ≠ .stDelete
        · have hrest := hnot (pre ++ [kept (asked func t) arg c]) (by simp [hpre])
            fun hp₂ => hp ⟨hp₁, fun _ => hp₂⟩
          simpa using hrest
        · exact hbad t₂ hitems₂ hp₁ pre _ hpre
      · simp only [binEnd, hst, if_false]
        exact hrun₂

/-- The callback is asked about every entry once, until it answers by a stop; behind that the table
holds what is not answered by a deletion exactly if no top of a bin is answered by one once an entry
of an earlier bin was answered by going on. -/
theorem foreach_iff {func : σ → K → V → StRetval × σ}
    (hcheck : ∀ arg k v, (func arg k v).1 ≠ .stCheck) {t : NodeTable K V} {cs : List (List Nat)}
    (h : Holds t cs) (arg : σ) {fuel : Nat} (hfuel : cs.flatten.length < fuel) :
    (answers (asked func t) arg cs.flatten).map Prod.fst <+: cs.flatten ∧
      ((∀ n, (n, .stStop) ∉ answers (asked func t) arg cs.flatten) →
        (answers (asked func t) arg cs.flatten).map Prod.fst = cs.flatten) ∧
      ∃ t', foreach func fuel t arg = some (true, t', argAfter (asked func t) arg cs.flatten) ∧
        t'.entry = t.entry ∧
        (Holds t' (cs.map fun c => c.filter fun n =>
            (n, .stDelete) ∉ answers (asked func t) arg cs.flatten) ↔
          KeepsTops cs (answers (asked func t) arg cs.flatten)) := by
  refine ⟨map_fst_answers _ _, fun hstop => answers_of_not_stops fun hst => ?_, ?_⟩
  · obtain ⟨n, hn⟩ := stops_iff.1 hst
    exact hstop n hn
  · have hahead : Ahead t 0 none cs := ⟨fun j => by simpa using h.seg j, h.nodup, by simp⟩
    obtain ⟨t', hentry, -, hgood, hnot, hrun⟩ := foreachLoop_spec hcheck hahead hfuel
    refine ⟨t', by rw [foreach, h.numBins, hrun], hentry, ?_⟩
    have hproper := @proper_iff σ (asked func t) (fun arg n => hcheck arg _ _) arg false cs h.nodup
    simp only [true_and] at hproper
    rw [← keptBins_eq_map h.nodup, KeepsTops, ← hproper]
    exact ⟨fun hh => by_contra fun hp => hnot [] rfl hp hh, fun hp => hgood [] rfl hp h⟩

/-- Two bins of one entry each, the keys 0 and 1. -/
def pair : NodeTable Nat Nat where
  entry n := { hash := n, key := n, record := n }
  next _ := none
  numBins := 2
  numEntries := 2
  items := [some 0, some 1]

theorem pair_holds : Holds pair [[0], [1]] where
  seg i := by
    rcases i with _ | _ | i
    · exact .cons (.nil _)
    · exact .cons (.nil _)
    · exact .nil _
  nodup := by decide
  numBins := rfl
  numEntries := rfl

/-- The key 0 is deleted, which is the top of the first bin. -/
theorem foreach_iff_pair :
    ∃ t', foreach (fun (_ : Unit) k _ => (if k = 0 then .stDelete else .stContinue, ())) 3 pair () =
        some (true, t', ()) ∧ Holds t' [[], [1]] := by
  obtain ⟨-, -, t', hrun, -, hiff⟩ := @foreach_iff Nat Nat Unit
    (fun _ k _ => (if k = 0 then .stDelete else .stContinue, ()))
    (by intro arg k v; dsimp only; split_ifs <;> simp) pair [[0], [1]] pair_holds () 3 (by decide)
  refine ⟨t', hrun, hiff.2 ?_⟩
  intro pre n l post heq hdel m hm
  obtain rfl : n = 0 := by simpa [answers, asked, pair] using hdel
  rcases pre with _ | ⟨c, _ | ⟨d, pre⟩⟩
  · simp at hm
  · simp at heq
  · simp at heq

/-- The key 1 is to be deleted once the key 0 was kept, and stays. -/
theorem not_holds_pair :
    ∃ t', foreach (fun (_ : Unit) k _ => (if k = 0 then .stContinue else .stDelete, ())) 3 pair () =
        some (true, t', ()) ∧ ¬ Holds t' [[0], []] := by
  refine ⟨_, rfl, fun h => ?_⟩
  have hseg := h.seg 1
  exact absurd (Seg.nil_iff.1 hseg) (by decide)

end Yog.NodeTable
