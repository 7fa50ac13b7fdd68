import Yog.FrameReuse
import Mathlib.Data.List.TakeWhile
import Mathlib.Tactic

/-!
# A frame that is taken again is as a new one

No script frame is in two places, so what a thread keeps nobody writes to, and a kept frame is as
`YogScriptFrame_cleanup` left it (`Inv.clean`). Of what is not reset, `name` is written before
`klass` is, and `lhs_*_num` before anything is put on the frame that returns to it (`Linked`).

A return in a block reads `lhs_*_num` of the frame that its function was called from. If that frame
has been taken again, it may not have called anything yet.
-/

namespace Yog

namespace FrameReuse

variable {V : Type}

def FrameRef.script? : FrameRef → Option Address
  | .script a => some a
  | _ => none

/-- The script frames of a chain. -/
def scripts (frames : List FrameRef) : Multiset Address := frames.filterMap FrameRef.script?

@[simp]
theorem scripts_nil : scripts [] = 0 := rfl

@[simp]
theorem scripts_script (a : Address) (frames : List FrameRef) :
    scripts (.script a :: frames) = a ::ₘ scripts frames := rfl

@[simp]
theorem scripts_finish (a : Address) (frames : List FrameRef) :
    scripts (.finish a :: frames) = scripts frames := rfl

@[simp]
theorem scripts_c (b : Bool) (frames : List FrameRef) : scripts (.c b :: frames) = scripts frames :=
  rfl

@[simp]
theorem scripts_append (frames frames' : List FrameRef) :
    scripts (frames ++ frames') = scripts frames + scripts frames' := by
  simp [scripts, List.filterMap_append]

theorem mem_scripts {a : Address} {frames : List FrameRef} :
    a ∈ scripts frames ↔ .script a ∈ frames := by
  simp only [scripts, Multiset.mem_coe, List.mem_filterMap]
  constructor
  · rintro ⟨r, hr, ha⟩
    rcases r with _ | _ | b
    · simp [FrameRef.script?] at ha
    · simp [FrameRef.script?] at ha
    · obtain rfl : b = a := by simpa [FrameRef.script?] using ha
      exact hr
  · exact fun h => ⟨_, h, rfl⟩

theorem scripts_le_of_suffix {frames frames' : List FrameRef} (h : frames <:+ frames') :
    scripts frames ≤ scripts frames' :=
  Multiset.coe_le.2 (h.sublist.filterMap _).subperm

namespace State

variable (s : State V)

def chains : List (List FrameRef) :=
  s.current.frames :: (s.others.map Thread.frames ++ s.suspended)

/-- The script frames on a chain. -/
def inUse : Multiset Address :=
  scripts s.current.frames + ((s.others.map fun t => scripts t.frames).sum +
    (s.suspended.map scripts).sum)

/-- The script frames kept. -/
def kept : Multiset Address :=
  s.current.scriptFrames + (s.others.map fun t => (t.scriptFrames : Multiset Address)).sum

end State

/-- A frame after `YogScriptFrame_cleanup`. -/
structure ScriptFrame.Clean (f : ScriptFrame V) : Prop where
  pc : f.pc = 0
  stackSize : f.stackSize = 0
  globals : f.globals = none
  frameToLongReturn : f.frameToLongReturn = none
  frameToLongBreak : f.frameToLongBreak = none
  usedByFunc : f.usedByFunc = false
  klass : f.klass = none
  localsEtc : f.localsEtc = List.replicate f.total (.undef)

/-- A frame as `YogScriptFrame_new` gives it, of the sizes asked for: there may be more cells for
outer frames. -/
structure ScriptFrame.Fresh (code : Code) (localsNum : ℕ) (f : ScriptFrame V) : Prop where
  clean : f.Clean
  code_eq : f.code = some code
  stackCapacity_eq : f.stackCapacity = code.fields.stackSize
  localsNum_eq : f.localsNum = localsNum
  le_outerFramesNum : outerSize code ≤ f.outerFramesNum

/-- A function remembers the frame. -/
def Used (heap : Heap V) (a : Address) : Prop := ∃ f, heap a = some f ∧ f.usedByFunc = true

/-- The frame has set what a return to it reads. -/
def Called (heap : Heap V) : FrameRef → Prop
  | .script a => ∃ f, heap a = some f ∧ f.lhsBy = f.act
  | .finish _ => True
  | .c _ => False

/-- The frame has set it in this activation, if it still is in it. -/
def Meant (heap : Heap V) (n : ℕ) (a : Address) (m : ℕ) : Prop :=
  m < n ∧ ∀ f, heap a = some f → f.act = m → f.lhsBy = f.act

/-- What holds of every frame, `n` activations having been made. -/
structure ScriptFrame.Right (heap : Heap V) (n : ℕ) (f : ScriptFrame V) : Prop where
  act : f.act < n
  total : f.localsEtc.length = f.total
  outer : ∀ a, .frame a ∈ f.localsEtc → Used heap a
  longReturn : ∀ a m, f.frameToLongReturn = some (.script a, m) → Meant heap n a m
  longBreak : ∀ a, f.frameToLongBreak = some a → Used heap a ∧ Called heap (.script a)
  name : f.klass ≠ none → f.nameBy = f.act

structure Function.Right (heap : Heap V) (n : ℕ) (fn : Function V) : Prop where
  outer : Used heap fn.outerFrame
  longReturn : ∀ a m, fn.frameToLongReturn = some (.script a, m) → Meant heap n a m
  longBreak : ∀ a, fn.frameToLongBreak = some a → a = fn.outerFrame
  passed : fn.isBlock = true → fn.passed = true → Called heap (.script fn.outerFrame)
  block : fn.isBlock = false → fn.frameToLongBreak = none

/-- The frame returns to the one below. -/
def FrameRef.Returns : FrameRef → Prop
  | .script _ => True
  | .c exec => exec = true
  | .finish _ => False

/-- A frame that is returned to has set what is read of it. -/
def Linked (heap : Heap V) (frames : List FrameRef) : Prop :=
  frames.IsChain fun upper lower => upper.Returns → Called heap lower

structure Inv (s : State V) : Prop where
  nodup : (s.inUse + s.kept).Nodup
  free : ∀ a, s.next ≤ a → s.heap a = none
  alive : ∀ a ∈ s.inUse + s.kept, ∃ f, s.heap a = some f
  clean : ∀ a ∈ s.kept, ∀ f, s.heap a = some f → f.Clean
  right : ∀ a f, s.heap a = some f → f.Right s.heap s.activations
  functions : ∀ fn ∈ s.functions, fn.Right s.heap s.activations
  linked : ∀ frames ∈ s.chains, Linked s.heap frames
  bottom : ∀ frames ∈ s.suspended, ∀ r ∈ frames.getLast?, ¬r.Returns

/-- The frame stays in its activation. -/
structure ScriptFrame.Stays (f f' : ScriptFrame V) : Prop where
  act : f'.act = f.act
  used : f.usedByFunc = true → f'.usedByFunc = true
  lhs : f.lhsBy = f.act → f'.lhsBy = f'.act

theorem ScriptFrame.Stays.refl (f : ScriptFrame V) : f.Stays f := ⟨rfl, id, id⟩

/-- The frames of `T` are taken for activation `n`; the others stay in theirs. -/
structure Grows (T : Address → Prop) (n : ℕ) (heap heap' : Heap V) : Prop where
  stays : ∀ a, ¬T a → Option.Rel ScriptFrame.Stays (heap a) (heap' a)
  unused : ∀ a, T a → ∀ f, heap a = some f → f.usedByFunc = false
  act : ∀ a, T a → ∀ f, heap' a = some f → f.act = n

section Grows

variable {T : Address → Prop} {n n' : ℕ} {heap heap' : Heap V}

theorem Grows.forward (h : Grows T n heap heap') {a : Address} (ha : ¬T a) {f : ScriptFrame V}
    (hf : heap a = some f) : ∃ f', heap' a = some f' ∧ f.Stays f' := by
  have hrel := h.stays a ha
  rw [hf] at hrel
  rcases hf' : heap' a with _ | f'
  · rw [hf'] at hrel
    cases hrel
  · rw [hf'] at hrel
    cases hrel with
    | some hs => exact ⟨f', rfl, hs⟩

theorem Grows.back (h : Grows T n heap heap') {a : Address} (ha : ¬T a) {f' : ScriptFrame V}
    (hf' : heap' a = some f') : ∃ f, heap a = some f ∧ f.Stays f' := by
  have hrel := h.stays a ha
  rw [hf'] at hrel
  rcases hf : heap a with _ | f
  · rw [hf] at hrel
    cases hrel
  · rw [hf] at hrel
    cases hrel with
    | some hs => exact ⟨f, rfl, hs⟩

theorem Used.grow (h : Grows T n heap heap') {a : Address} (hu : Used heap a) : Used heap' a := by
  obtain ⟨f, hf, hused⟩ := hu
  have ha : ¬T a := by
    intro ha
    simp [h.unused a ha f hf] at hused
  obtain ⟨f', hf', hs⟩ := h.forward ha hf
  exact ⟨f', hf', hs.used hused⟩

theorem Used.not_taken (h : Grows T n heap heap') {a : Address} (hu : Used heap a) : ¬T a := by
  obtain ⟨f, hf, hused⟩ := hu
  intro ha
  simp [h.unused a ha f hf] at hused

theorem Called.grow (h : Grows T n heap heap') {r : FrameRef} (hr : ∀ a, r = .script a → ¬T a)
    (hc : Called heap r) : Called heap' r := by
  rcases r with _ | _ | a
  · exact hc
  · trivial
  · obtain ⟨f, hf, hlhs⟩ := hc
    obtain ⟨f', hf', hs⟩ := h.forward (hr a rfl) hf
    exact ⟨f', hf', hs.lhs hlhs⟩

theorem Meant.grow (h : Grows T n heap heap') (hn : n ≤ n') {a : Address} {m : ℕ}
    (hm : Meant heap n a m) : Meant heap' n' a m := by
  refine ⟨lt_of_lt_of_le hm.1 hn, fun f' hf' hact => ?_⟩
  by_cases ha : T a
  · have := h.act a ha f' hf'
    have := hm.1
    omega
  · obtain ⟨f, hf, hs⟩ := h.back ha hf'
    exact hs.lhs (hm.2 f hf (hs.act ▸ hact))

theorem ScriptFrame.Right.grow (h : Grows T n heap heap') (hn : n ≤ n') {f : ScriptFrame V}
    (hf : f.Right heap n) : f.Right heap' n' where
  act := lt_of_lt_of_le hf.act hn
  total := hf.total
  outer a ha := (hf.outer a ha).grow h
  longReturn a m hm := (hf.longReturn a m hm).grow h hn
  longBreak a ha := by
    obtain ⟨hu, hc⟩ := hf.longBreak a ha
    exact ⟨hu.grow h, hc.grow h (by rintro _ ⟨⟩; exact hu.not_taken h)⟩
  name := hf.name

theorem Function.Right.grow (h : Grows T n heap heap') (hn : n ≤ n') {fn : Function V}
    (hf : fn.Right heap n) : fn.Right heap' n' where
  outer := hf.outer.grow h
  longReturn a m hm := (hf.longReturn a m hm).grow h hn
  longBreak := hf.longBreak
  passed hb hp := (hf.passed hb hp).grow h (by rintro _ ⟨⟩; exact hf.outer.not_taken h)
  block := hf.block

theorem Linked.grow (h : Grows T n heap heap') {frames : List FrameRef}
    (hT : ∀ a ∈ scripts frames, ¬T a) (hl : Linked heap frames) : Linked heap' frames := by
  refine List.IsChain.imp_of_mem_imp ?_ hl
  intro upper lower _ hlower hc hret
  refine (hc hret).grow h ?_
  rintro a rfl
  exact hT a (mem_scripts.2 hlower)

end Grows

variable {s s' : State V}

theorem Inv.mem_chains_current (s : State V) : s.current.frames ∈ s.chains := List.mem_cons_self

theorem scripts_le_inUse {frames : List FrameRef} (h : frames ∈ s.chains) :
    scripts frames ≤ s.inUse := by
  unfold State.inUse
  rw [State.chains, List.mem_cons, List.mem_append, List.mem_map] at h
  rcases h with rfl | ⟨t, ht, rfl⟩ | h
  · exact Multiset.le_add_right _ _
  · refine le_trans ?_ (Multiset.le_add_left _ _)
    refine le_trans ?_ (Multiset.le_add_right _ _)
    exact List.single_le_sum (by simp) _ (List.mem_map.2 ⟨t, ht, rfl⟩)
  · refine le_trans ?_ (Multiset.le_add_left _ _)
    refine le_trans ?_ (Multiset.le_add_left _ _)
    exact List.single_le_sum (by simp) _ (List.mem_map.2 ⟨_, h, rfl⟩)

theorem Inv.not_kept (h : Inv s) {frames : List FrameRef} (hf : frames ∈ s.chains) {a : Address}
    (ha : .script a ∈ frames) : a ∉ s.kept := by
  have hin := Multiset.mem_of_le (scripts_le_inUse hf) (mem_scripts.2 ha)
  exact fun hk => Multiset.disjoint_left.1 (Multiset.nodup_add.1 h.nodup).2.2 hin hk

/-- The heap changes, and no frame is taken. -/
theorem Inv.withHeap (h : Inv s) {heap : Heap V}
    (hg : Grows (fun _ => False) s.activations s.heap heap)
    (hfree : ∀ a, s.next ≤ a → heap a = none)
    (hclean : ∀ a ∈ s.kept, heap a = s.heap a)
    (hright : ∀ a f, heap a = some f → f.Right heap s.activations) :
    Inv { s with heap } where
  nodup := h.nodup
  free := hfree
  alive a ha := by
    obtain ⟨f, hf⟩ := h.alive a ha
    obtain ⟨f', hf', -⟩ := hg.forward id hf
    exact ⟨f', hf'⟩
  clean a ha f hf := h.clean a ha f (hclean a ha ▸ hf)
  right := hright
  functions fn hfn := (h.functions fn hfn).grow hg le_rfl
  linked frames hf := (h.linked frames hf).grow hg (by simp)
  bottom := h.bottom

/-- A frame that is not kept changes and stays in its activation. -/
theorem Inv.modify (h : Inv s) {a : Address} {g : ScriptFrame V → ScriptFrame V} (ha : a ∉ s.kept)
    (hstays : ∀ f : ScriptFrame V, f.Stays (g f))
    (hright : ∀ f, s.heap a = some f → f.Right s.heap s.activations →
      (g f).Right s.heap s.activations) : Inv (s.modify a g) := by
  have hg : Grows (fun _ => False) s.activations s.heap
      (Function.update s.heap a ((s.heap a).map g)) := by
    refine ⟨fun b _ => ?_, by simp, by simp⟩
    by_cases hb : b = a
    · subst hb
      rw [Function.update_self]
      rcases s.heap b with _ | f
      · exact .none
      · exact .some (hstays f)
    · rw [Function.update_of_ne hb]
      rcases s.heap b with _ | f
      · exact .none
      · exact .some (.refl f)
  refine h.withHeap hg (fun b hb => ?_) (fun b hb => ?_) (fun b f hf => ?_)
  · by_cases hba : b = a
    · subst hba
      simp [h.free b hb]
    · rw [Function.update_of_ne hba, h.free b hb]
  · rw [Function.update_of_ne]
    rintro rfl
    exact ha hb
  · by_cases hba : b = a
    · subst hba
      rw [Function.update_self, Option.map_eq_some_iff] at hf
      obtain ⟨f₀, hf₀, rfl⟩ := hf
      exact (hright f₀ hf₀ (h.right b f₀ hf₀)).grow hg le_rfl
    · rw [Function.update_of_ne hba] at hf
      exact (h.right b f hf).grow hg le_rfl

/-- The chains and the frames kept are others, of the same frames. -/
theorem Inv.rearrange (h : Inv s) (hheap : s'.heap = s.heap) (hnext : s.next ≤ s'.next)
    (hfunctions : s'.functions = s.functions) (hact : s'.activations = s.activations)
    (hplaces : s'.inUse + s'.kept ≤ s.inUse + s.kept) (hkept : s'.kept ≤ s.kept)
    (hlinked : ∀ frames ∈ s'.chains, Linked s.heap frames)
    (hbottom : ∀ frames ∈ s'.suspended, ∀ r ∈ frames.getLast?, ¬r.Returns) : Inv s' where
  nodup := Multiset.nodup_of_le hplaces h.nodup
  free a ha := by rw [hheap, h.free a (hnext.trans ha)]
  alive a ha := by rw [hheap]; exact h.alive a (Multiset.mem_of_le hplaces ha)
  clean a ha := by rw [hheap]; exact h.clean a (Multiset.mem_of_le hkept ha)
  right := by rw [hheap, hact]; exact h.right
  functions := by rw [hheap, hact, hfunctions]; exact h.functions
  linked := by rw [hheap]; exact hlinked
  bottom := hbottom

theorem Inv.cut (h : Inv s) {frames : List FrameRef} (hs : frames <:+ s.current.frames) :
    Inv (s.cut frames) := by
  refine h.rearrange rfl le_rfl rfl rfl ?_ le_rfl ?_ h.bottom
  · have := scripts_le_of_suffix hs
    simp only [State.inUse, State.kept, State.cut]
    gcongr
  · intro frames' hf
    rw [State.chains, List.mem_cons] at hf
    rcases hf with rfl | hf
    · exact (h.linked _ (Inv.mem_chains_current s)).suffix hs
    · exact h.linked _ (List.mem_cons_of_mem _ hf)

/-- A frame is pushed that is nowhere. -/
theorem Inv.push (h : Inv s) {r : FrameRef} (hr : ∀ a, r = .script a →
      a ∉ s.inUse + s.kept ∧ ∃ f, s.heap a = some f)
    (hbelow : r.Returns → ∀ r' ∈ s.current.frames.head?, Called s.heap r') : Inv (s.push r) where
  nodup := by
    have hn := h.nodup
    rcases r with _ | _ | a
    · simpa [State.push, State.cut, State.inUse, State.kept] using hn
    · simpa [State.push, State.cut, State.inUse, State.kept] using hn
    · have hnew := (hr a rfl).1
      have hcons : (s.push (.script a)).inUse + (s.push (.script a)).kept =
          a ::ₘ (s.inUse + s.kept) := by
        simp [State.push, State.cut, State.inUse, State.kept]
      rw [hcons, Multiset.nodup_cons]
      exact ⟨hnew, hn⟩
  free := h.free
  alive b hb := by
    rcases r with _ | _ | a
    · exact h.alive b (by simpa [State.push, State.cut, State.inUse, State.kept] using hb)
    · exact h.alive b (by simpa [State.push, State.cut, State.inUse, State.kept] using hb)
    · by_cases hba : b = a
      · subst hba
        exact (hr b rfl).2
      · exact h.alive b (by simpa [State.push, State.cut, State.inUse, State.kept, hba] using hb)
  clean := h.clean
  right := h.right
  functions := h.functions
  linked frames hf := by
    rw [State.chains, List.mem_cons] at hf
    rcases hf with rfl | hf
    · have htop := h.linked _ (Inv.mem_chains_current s)
      rcases hcur : s.current.frames with _ | ⟨r', rest⟩
      · simp [State.push, State.cut, hcur, Linked]
      · rw [hcur] at htop hbelow
        simp only [State.push, State.cut, hcur, Linked, List.isChain_cons_cons]
        exact ⟨fun hret => hbelow hret r' rfl, htop⟩
    · exact h.linked _ (List.mem_cons_of_mem _ hf)
  bottom := h.bottom

theorem Inv.pushFinishFrame (h : Inv s) : Inv s.pushFinishFrame := by
  unfold State.pushFinishFrame
  split
  · refine Inv.push ?_ (by simp) (by simp [FrameRef.Returns])
    exact h.rearrange rfl le_rfl rfl rfl le_rfl le_rfl h.linked h.bottom
  · refine Inv.push ?_ (by simp) (by simp [FrameRef.Returns])
    exact h.rearrange rfl (Nat.le_succ _) rfl rfl le_rfl le_rfl h.linked h.bottom

/-- A clean frame that is nowhere is kept. -/
theorem Inv.keep (h : Inv s) {a : Address} (ha : a ∉ s.inUse + s.kept) {f : ScriptFrame V}
    (hf : s.heap a = some f) (hc : f.Clean) :
    Inv { s with current.scriptFrames := put scriptFramesMax a s.current.scriptFrames } := by
  unfold put
  split
  · exact h
  · have hplaces : ∀ x : Multiset Address, ((a :: s.current.scriptFrames : List Address) :
        Multiset Address) + x = a ::ₘ (s.current.scriptFrames + x) := by
      intro x
      rw [← Multiset.cons_coe, Multiset.cons_add]
    refine ⟨?_, h.free, fun b hb => ?_, fun b hb g hg => ?_, h.right, h.functions, h.linked,
      h.bottom⟩
    · have hn := Multiset.nodup_cons.2 ⟨ha, h.nodup⟩
      simp only [State.inUse, State.kept] at hn ⊢
      rwa [hplaces, Multiset.add_cons]
    · simp only [State.inUse, State.kept] at hb
      rw [hplaces, Multiset.add_cons, Multiset.mem_cons] at hb
      rcases hb with rfl | hb
      · exact ⟨f, hf⟩
      · exact h.alive b hb
    · simp only [State.kept] at hb
      rw [hplaces, Multiset.mem_cons] at hb
      rcases hb with rfl | hb
      · rw [hf] at hg
        cases hg
        exact hc
      · exact h.clean b hb g hg

theorem fresh_init (code : Code) (localsNum act : ℕ) :
    (ScriptFrame.init (V := V) code localsNum act).Fresh code localsNum :=
  ⟨⟨rfl, rfl, rfl, rfl, rfl, rfl, rfl, rfl⟩, rfl, rfl, rfl, le_rfl⟩

/-- The cells of a clean frame, divided anew. -/
theorem ScriptFrame.Clean.reuse {f : ScriptFrame V} (h : f.Clean) {code : Code} {localsNum : ℕ}
    (hle : code.fields.stackSize + localsNum + outerSize code ≤ f.total) (act : ℕ) :
    (f.reuse code localsNum act).Fresh code localsNum := by
  have htotal : (f.reuse code localsNum act).total = f.total := by
    simp only [ScriptFrame.reuse, ScriptFrame.total] at hle ⊢
    omega
  refine ⟨⟨h.pc, h.stackSize, h.globals, h.frameToLongReturn, h.frameToLongBreak, h.usedByFunc,
    h.klass, ?_⟩, rfl, rfl, rfl, ?_⟩
  · rw [htotal]
    exact h.localsEtc
  · simp only [ScriptFrame.reuse]
    omega

theorem ScriptFrame.Fresh.right {code : Code} {localsNum n : ℕ} {f : ScriptFrame V}
    (h : f.Fresh code localsNum) (heap : Heap V) (hact : f.act < n) : f.Right heap n where
  act := hact
  total := by rw [h.clean.localsEtc, List.length_replicate]
  outer a ha := by simp [h.clean.localsEtc] at ha
  longReturn := by simp [h.clean.frameToLongReturn]
  longBreak := by simp [h.clean.frameToLongBreak]
  name hk := absurd h.clean.klass hk

/-- A frame was taken: it is nowhere, and the frames that are somewhere stay. -/
structure Taken (s : State V) (code : Code) (localsNum : ℕ) (a : Address) (s' : State V) : Prop where
  inv : Inv s'
  not_mem : a ∉ s'.inUse + s'.kept
  frame : ∃ f, s'.heap a = some f ∧ f.Fresh code localsNum ∧ f.act = s.activations
  grows : Grows (· = a) s.activations s.heap s'.heap
  frames : s'.current.frames = s.current.frames
  functions : s'.functions = s.functions
  activations : s'.activations = s.activations + 1

/-- An object that is nowhere becomes the frame of the next activation. -/
theorem Inv.taken (h : Inv s) {a next : Address} {code : Code} {localsNum : ℕ} {f : ScriptFrame V}
    (ha : a ∉ s.inUse + s.kept) (hunused : ∀ g, s.heap a = some g → g.usedByFunc = false)
    (hf : f.Fresh code localsNum) (hact : f.act = s.activations) (hnext : s.next ≤ next)
    (hlt : a < next) :
    Taken s code localsNum a { s with
      heap := Function.update s.heap a (some f), next, activations := s.activations + 1 } := by
  have hg : Grows (· = a) s.activations s.heap (Function.update s.heap a (some f)) := by
    refine ⟨fun b hb => ?_, ?_, ?_⟩
    · rw [Function.update_of_ne hb]
      rcases s.heap b with _ | g
      · exact .none
      · exact .some (.refl g)
    · rintro b rfl
      exact hunused
    · rintro b rfl g hg
      rw [Function.update_self, Option.some.injEq] at hg
      exact hg ▸ hact
  have hother : ∀ b ∈ s.inUse + s.kept, b ≠ a := by
    rintro b hb rfl
    exact ha hb
  refine ⟨⟨h.nodup, fun b hb => ?_, fun b hb => ?_, fun b hb g hg' => ?_, fun b g hb => ?_,
    fun fn hfn => (h.functions fn hfn).grow hg (Nat.le_succ _), fun frames hfr => ?_, h.bottom⟩,
    ha, ⟨f, Function.update_self .., hf, hact⟩, hg, rfl, rfl, rfl⟩
  · have hb' : next ≤ b := hb
    simp only
    rw [Function.update_of_ne (lt_of_lt_of_le hlt hb').ne', h.free b (hnext.trans hb')]
  · simp only
    rw [Function.update_of_ne (hother b hb)]
    exact h.alive b hb
  · simp only at hg'
    rw [Function.update_of_ne (hother b (Multiset.mem_add.2 (.inr hb)))] at hg'
    exact h.clean b hb g hg'
  · simp only at hb
    by_cases hba : b = a
    · subst hba
      rw [Function.update_self, Option.some.injEq] at hb
      exact hb ▸ hf.right _ (by rw [hact]; exact Nat.lt_succ_self _)
    · rw [Function.update_of_ne hba] at hb
      exact (h.right b g hb).grow hg (Nat.le_succ _)
  · refine (h.linked frames hfr).grow hg ?_
    rintro b hb rfl
    exact ha (Multiset.mem_add.2 (.inl (Multiset.mem_of_le (scripts_le_inUse hfr) hb)))

theorem Inv.newScriptFrame (h : Inv s) (code : Code) (localsNum : ℕ) :
    Taken s code localsNum (s.newScriptFrame code localsNum).1
      (s.newScriptFrame code localsNum).2 := by
  have hnone := h.free s.next le_rfl
  have hnot : s.next ∉ s.inUse + s.kept := by
    intro ha
    obtain ⟨f, hf⟩ := h.alive _ ha
    rw [hnone] at hf
    cases hf
  have hunused : ∀ g, s.heap s.next = some g → g.usedByFunc = false := by
    intro g hg
    rw [hnone] at hg
    cases hg
  exact h.taken hnot hunused (fresh_init code localsNum s.activations) rfl (Nat.le_succ _)
    (Nat.lt_succ_self _)

/-- A kept frame is taken off the list. -/
theorem Inv.pop (h : Inv s) {a : Address} {kept : List Address}
    (ha : s.current.scriptFrames = a :: kept) :
    Inv { s with current.scriptFrames := kept } ∧
      a ∉ ({ s with current.scriptFrames := kept } : State V).inUse +
        ({ s with current.scriptFrames := kept } : State V).kept := by
  have hcons : s.inUse + s.kept = a ::ₘ (({ s with current.scriptFrames := kept } : State V).inUse +
      ({ s with current.scriptFrames := kept } : State V).kept) := by
    simp only [State.inUse, State.kept, ha]
    rw [← Multiset.cons_coe, Multiset.cons_add, Multiset.add_cons]
  have hn := h.nodup
  rw [hcons, Multiset.nodup_cons] at hn
  refine ⟨h.rearrange rfl le_rfl rfl rfl ?_ ?_ h.linked h.bottom, hn.1⟩
  · rw [hcons]
    exact Multiset.le_cons_self _ _
  · simp only [State.kept, ha]
    rw [← Multiset.cons_coe, Multiset.cons_add]
    exact Multiset.le_cons_self _ _

theorem Taken.of_pop {b : Address} {kept : List Address} {code : Code} {localsNum : ℕ}
    (h : Taken { s with current.scriptFrames := kept } code localsNum b s') :
    Taken s code localsNum b s' :=
  ⟨h.inv, h.not_mem, h.frame, h.grows, h.frames, h.functions, h.activations⟩

/-- A frame that is taken is as a new one, whether it is one or not. -/
theorem Inv.getScriptFrame (h : Inv s) (code : Code) (localsNum : ℕ) :
    Taken s code localsNum (s.getScriptFrame code localsNum).1
      (s.getScriptFrame code localsNum).2 := by
  unfold State.getScriptFrame
  rcases hkept : s.current.scriptFrames with _ | ⟨a, kept⟩
  · exact h.newScriptFrame code localsNum
  · obtain ⟨hpop, hnot⟩ := h.pop hkept
    have hmem : a ∈ s.kept := by simp [State.kept, hkept]
    obtain ⟨f, hf⟩ := h.alive a (Multiset.mem_add.2 (.inr hmem))
    have hclean := h.clean a hmem f hf
    simp only [hf]
    split_ifs with hle
    · have hlt : a < s.next := by
        by_contra hge
        simp [h.free a (Nat.le_of_not_lt hge)] at hf
      refine (hpop.taken hnot ?_ (hclean.reuse hle s.activations) rfl le_rfl hlt).of_pop
      intro g hg
      obtain rfl : f = g := Option.some.inj (hf.symm.trans hg)
      exact hclean.usedByFunc
    · exact (hpop.newScriptFrame code localsNum).of_pop

theorem length_foldl_set {α β : Type} (i : β → ℕ) (c : β → α) (stores : List β) (l : List α) :
    (stores.foldl (fun l p => l.set (i p) (c p)) l).length = l.length := by
  induction stores generalizing l with
  | nil => rfl
  | cons p stores ih => rw [List.foldl_cons, ih, List.length_set]

theorem mem_foldl_set {α β : Type} {i : β → ℕ} {c : β → α} {stores : List β} {l : List α} {x : α}
    (h : x ∈ stores.foldl (fun l p => l.set (i p) (c p)) l) : x ∈ l ∨ ∃ p ∈ stores, x = c p := by
  induction stores generalizing l with
  | nil => exact .inl h
  | cons p stores ih =>
    rcases ih h with hx | ⟨q, hq, rfl⟩
    · rcases List.mem_or_eq_of_mem_set hx with hx | rfl
      · exact .inl hx
      · exact .inr ⟨p, by simp, rfl⟩
    · exact .inr ⟨q, by simp [hq], rfl⟩

section Fill

variable {heap : Heap V} {n : ℕ} {f g : ScriptFrame V}

theorem frame_mem_storeFrom {offset : ℕ} {stores : List (ℕ × V)} {a : Address}
    (h : .frame a ∈ (f.storeFrom offset stores).localsEtc) : .frame a ∈ f.localsEtc := by
  rcases mem_foldl_set h with h | ⟨p, -, h⟩
  · exact h
  · cases h

theorem ScriptFrame.Right.storeFrom (hf : f.Right heap n) (offset : ℕ) (stores : List (ℕ × V)) :
    (f.storeFrom offset stores).Right heap n where
  act := hf.act
  total := (length_foldl_set ..).trans hf.total
  outer a ha := hf.outer a (frame_mem_storeFrom ha)
  longReturn := hf.longReturn
  longBreak := hf.longBreak
  name := hf.name

theorem ScriptFrame.Right.setLhs (hf : f.Right heap n) (shape : LhsComposition) :
    (f.setLhs shape).Right heap n :=
  ⟨hf.act, hf.total, hf.outer, hf.longReturn, hf.longBreak, hf.name⟩

theorem ScriptFrame.Right.pushStack (hf : f.Right heap n) (v : V) :
    (f.pushStack v).Right heap n where
  act := hf.act
  total := (List.length_set ..).trans hf.total
  outer a ha := by
    rcases List.mem_or_eq_of_mem_set ha with ha | ha
    · exact hf.outer a ha
    · cases ha
  longReturn := hf.longReturn
  longBreak := hf.longBreak
  name := hf.name

theorem ScriptFrame.Right.cleanup (hf : f.Right heap n) : f.cleanup.Right heap n where
  act := hf.act
  total := by
    have := hf.total
    simp only [ScriptFrame.cleanup, List.length_append, List.length_replicate, List.length_drop,
      ScriptFrame.total] at this ⊢
    omega
  outer a ha := by
    rcases List.mem_append.1 ha with ha | ha
    · simp at ha
    · exact hf.outer a (List.mem_of_mem_drop ha)
  longReturn := by simp [ScriptFrame.cleanup]
  longBreak := by simp [ScriptFrame.cleanup]
  name hk := absurd rfl hk

/-- What is not remembered is clean after `YogScriptFrame_cleanup`. -/
theorem ScriptFrame.Right.clean (hf : f.Right heap n) (hused : f.usedByFunc = false) :
    f.cleanup.Clean where
  pc := rfl
  stackSize := rfl
  globals := rfl
  frameToLongReturn := rfl
  frameToLongBreak := rfl
  usedByFunc := hused
  klass := rfl
  localsEtc := by
    have hdrop : f.localsEtc.drop f.total = [] := List.drop_eq_nil_of_le hf.total.le
    rw [ScriptFrame.cleanup, hdrop, List.append_nil]
    rfl

theorem outer_mem {a : Address} {i : ℕ} (h : g.outer i = .frame a) : .frame a ∈ g.localsEtc := by
  unfold ScriptFrame.outer at h
  rcases hcell : g.localsEtc[g.stackCapacity + g.localsNum + i]? with _ | c
  · rw [hcell] at h
    cases h
  · rw [hcell] at h
    exact h ▸ List.mem_of_getElem? hcell

theorem frame_mem_fillOuterFrames {outerFrame a : Address} {depth : ℕ}
    (h : .frame a ∈ (f.fillOuterFrames outerFrame g depth).localsEtc) :
    .frame a ∈ f.localsEtc ∨ a = outerFrame ∨ .frame a ∈ g.localsEtc := by
  unfold ScriptFrame.fillOuterFrames at h
  split_ifs at h
  · exact .inl h
  · rcases mem_foldl_set h with h | ⟨i, -, h⟩
    · rcases List.mem_or_eq_of_mem_set h with h | h
      · exact .inl h
      · cases h
        exact .inr (.inl rfl)
    · exact .inr (.inr (outer_mem h.symm))

theorem length_fillOuterFrames (outerFrame : Address) (depth : ℕ) :
    (f.fillOuterFrames outerFrame g depth).localsEtc.length = f.localsEtc.length := by
  unfold ScriptFrame.fillOuterFrames
  split_ifs
  · rfl
  · exact (length_foldl_set ..).trans (List.length_set ..)

/-- The frame of a call, by what the function and its caller have. -/
theorem Function.Right.fill {fn : Function V} (hfn : fn.Right heap n) (hpassed : fn.passed = true)
    (hf : f.Right heap n) (hg : g.Right heap n) {caller : FrameRef × ℕ}
    (hcaller : ∀ a m, caller = (.script a, m) → Meant heap n a m) (args : List (ℕ × V))
    (definingClass : Option V) : (fn.fill args definingClass g caller f).Right heap n where
  act := by
    unfold Function.fill ScriptFrame.fillOuterFrames
    split_ifs <;> exact hf.act
  total := by
    have hlen := length_fillOuterFrames (f := f.storeFrom f.stackCapacity args) (g := g)
      fn.outerFrame (outerSize fn.code)
    refine hlen.trans ((length_foldl_set ..).trans (hf.total.trans ?_))
    unfold Function.fill ScriptFrame.fillOuterFrames
    split_ifs <;> rfl
  outer a ha := by
    rcases frame_mem_fillOuterFrames ha with ha | rfl | ha
    · exact hf.outer a (frame_mem_storeFrom ha)
    · exact hfn.outer
    · exact hg.outer a ha
  longReturn a m ham := by
    have hsome := Option.some.inj ham
    rcases hret : fn.frameToLongReturn with _ | p
    · rw [hret] at hsome
      exact hcaller a m hsome
    · rw [hret] at hsome
      exact hfn.longReturn a m (hret.trans (congrArg some hsome))
  longBreak a ha := by
    have hbreak : fn.frameToLongBreak = some a := ha
    have hb : fn.isBlock = true := by
      by_contra hb
      rw [hfn.block (by simpa using hb)] at hbreak
      cases hbreak
    obtain rfl := hfn.longBreak a hbreak
    exact ⟨hfn.outer, hfn.passed hb hpassed⟩
  name _ := by
    unfold Function.fill ScriptFrame.fillOuterFrames
    split_ifs <;> rfl

theorem stays_fill (fn : Function V) (args : List (ℕ × V)) (definingClass : Option V)
    (g : ScriptFrame V) (caller : FrameRef × ℕ) (f : ScriptFrame V) :
    f.Stays (fn.fill args definingClass g caller f) := by
  unfold Function.fill ScriptFrame.fillOuterFrames
  split_ifs <;> exact ⟨rfl, id, id⟩

theorem ScriptFrame.Right.fillNames (hf : f.Right heap n) (vars : V) (globals : Option V) :
    (fillNames vars globals f).Right heap n := by
  have hs := hf.storeFrom f.stackCapacity [(0, vars)]
  exact ⟨hs.act, hs.total, hs.outer, hs.longReturn, hs.longBreak, hs.name⟩

end Fill

/-- A frame that was taken is filled in and pushed. -/
theorem Taken.enter {code : Code} {localsNum : ℕ} {a : Address}
    (h : Taken s code localsNum a s') {g : ScriptFrame V → ScriptFrame V}
    (hstays : ∀ f : ScriptFrame V, f.Stays (g f))
    (hright : ∀ f, f.Right s'.heap s'.activations → (g f).Right s'.heap s'.activations)
    (htop : ∀ r ∈ s.current.frames.head?, Called s.heap r) :
    Inv ((s'.modify a g).push (.script a)) := by
  obtain ⟨hin, hk⟩ : a ∉ s'.inUse ∧ a ∉ s'.kept := by
    simpa [Multiset.mem_add] using h.not_mem
  obtain ⟨f, hf, -⟩ := h.frame
  refine (h.inv.modify hk hstays fun f _ => hright f).push ?_ ?_
  · rintro _ ⟨⟩
    exact ⟨h.not_mem, g f, by simp [State.modify, hf]⟩
  · intro _ r hr
    have hr' : r ∈ s'.current.frames.head? := hr
    have hne : ∀ b, r = .script b → b ≠ a := by
      rintro b rfl rfl
      exact hin (Multiset.mem_of_le (scripts_le_inUse (Inv.mem_chains_current s'))
        (mem_scripts.2 (List.mem_of_mem_head? hr')))
    have hcalled := (htop r (h.frames ▸ hr')).grow h.grows hne
    rcases r with _ | _ | b
    · exact hcalled
    · trivial
    · simpa [Called, State.modify, Function.update_of_ne (hne b rfl)] using hcalled

/-- The frame on top is not kept. -/
theorem Inv.top_not_kept (h : Inv s) {a : Address} {rest : List FrameRef}
    (hc : s.current.frames = .script a :: rest) : a ∉ s.kept :=
  h.not_kept (Inv.mem_chains_current s) (by simp [hc])

theorem Inv.setLhs (h : Inv s) {a : Address} (ha : a ∉ s.kept) (shape : LhsComposition) :
    Inv (s.modify a (·.setLhs shape)) :=
  h.modify ha (fun _ => ⟨rfl, id, fun _ => rfl⟩) fun _ _ hf => hf.setLhs shape

theorem Inv.top_alive (h : Inv s) {a : Address} {rest : List FrameRef}
    (hc : s.current.frames = .script a :: rest) : ∃ f, s.heap a = some f :=
  h.alive a (Multiset.mem_add.2 (.inl (Multiset.mem_of_le
    (scripts_le_inUse (Inv.mem_chains_current s)) (mem_scripts.2 (by simp [hc])))))

theorem called_setLhs (h : Inv s) {a : Address} {rest : List FrameRef}
    (hc : s.current.frames = .script a :: rest) (shape : LhsComposition) :
    Called (s.modify a (·.setLhs shape)).heap (.script a) := by
  obtain ⟨f, hf⟩ := h.top_alive hc
  exact ⟨f.setLhs shape, by simp [State.modify, hf], rfl⟩

theorem Inv.withFunctions (h : Inv s) {functions : List (Function V)}
    (hf : ∀ fn ∈ functions, fn.Right s.heap s.activations) : Inv { s with functions } :=
  ⟨h.nodup, h.free, h.alive, h.clean, h.right, hf, h.linked, h.bottom⟩

/-- A block is passed once its frame has set what the call returns to. -/
theorem Inv.pass (h : Inv s) {a : Address} (hc : Called s.heap (.script a)) (block : Option ℕ) :
    Inv (s.pass a block) := by
  unfold State.pass
  split
  · exact h
  · split
    · exact h
    · rename_i i fn hfn
      split_ifs with hblock
      · refine h.withFunctions fun fn' hfn' => ?_
        rcases List.mem_or_eq_of_mem_set hfn' with hfn' | rfl
        · exact h.functions fn' hfn'
        · have hright := h.functions fn (List.mem_of_getElem? hfn)
          exact ⟨hright.outer, hright.longReturn, hright.longBreak,
            fun _ _ => hblock.2 ▸ hc, hright.block⟩
      · exact h

@[simp]
theorem current_pass (a : Address) (block : Option ℕ) : (s.pass a block).current = s.current := by
  unfold State.pass
  split
  · rfl
  · split
    · rfl
    · split_ifs <;> rfl

@[simp]
theorem heap_pass (a : Address) (block : Option ℕ) : (s.pass a block).heap = s.heap := by
  unfold State.pass
  split
  · rfl
  · split
    · rfl
    · split_ifs <;> rfl

/-- A call is about to be made: what is on top can be returned to. -/
structure Calling (s : State V) : Prop where
  inv : Inv s
  top : ∀ r ∈ s.current.frames.head?, Called s.heap r

theorem Inv.called (h : Inv s) {shape : LhsComposition} {block : Option ℕ}
    (hs : s.called shape block = some s') : Calling s' := by
  unfold State.called at hs
  split at hs
  · rename_i a rest hc
    cases hs
    have hcalled := called_setLhs h hc shape
    refine ⟨(h.setLhs (h.top_not_kept hc) shape).pass hcalled block, ?_⟩
    intro r hr
    rw [current_pass] at hr
    have hr' : r ∈ s.current.frames.head? := hr
    obtain rfl : FrameRef.script a = r := by simpa [hc] using hr'
    rwa [heap_pass]
  · rename_i a rest hc
    cases hs
    refine ⟨h, fun r hr => ?_⟩
    obtain rfl : FrameRef.finish a = r := by simpa [hc] using hr
    trivial
  · cases hs

/-- A frame is only taken for a call. -/
theorem Inv.takes (h : Inv s) {a : Action V} {code : Code} {n : ℕ}
    (hs : s.takes a = some (s', code, n)) : Calling s' := by
  cases a with
  | exec shape fn block args klass =>
    simp only [State.takes] at hs
    split at hs
    · cases hs
    · rename_i s₁ hs₁
      split at hs
      · cases hs
      · split_ifs at hs
        cases hs
        exact h.called hs₁
  | execRaises shape fn block =>
    simp only [State.takes] at hs
    split at hs
    · cases hs
    · rename_i s₁ hs₁
      split at hs
      · cases hs
      · split_ifs at hs
        cases hs
        exact h.called hs₁
  | makeClass code vars =>
    simp only [State.takes] at hs
    split at hs
    · rename_i b rest hc
      cases hs
      refine ⟨h.setLhs (h.top_not_kept hc) oneTarget, fun r hr => ?_⟩
      have hr' : r ∈ s.current.frames.head? := hr
      obtain rfl : FrameRef.script b = r := by simpa [hc] using hr'
      exact called_setLhs h hc oneTarget
    · cases hs
  | evalPackage code vars =>
    simp only [State.takes] at hs
    split at hs
    · rename_i b rest hc
      cases hs
      refine ⟨h, fun r hr => ?_⟩
      obtain rfl : FrameRef.finish b = r := by simpa [hc] using hr
      trivial
    · cases hs
  | _ => cases hs

/-- The activation of the frame on top has set what is returned to. -/
theorem Calling.caller (h : Calling s) {a : Address} {m : ℕ} (hc : s.caller = (.script a, m)) :
    Meant s.heap s.activations a m := by
  unfold State.caller at hc
  split at hc
  · rename_i b rest hframes
    cases hc
    obtain ⟨f, hf, hlhs⟩ := h.top (.script a) (by simp [hframes])
    rw [hf]
    refine ⟨(h.inv.right a f hf).act, fun g hg _ => ?_⟩
    cases hf.symm.trans hg
    exact hlhs
  · rename_i r rest hne hframes
    simp only [Prod.mk.injEq] at hc
    obtain ⟨rfl, -⟩ := hc
    exact (hne a rfl).elim
  · cases hc

theorem stays_foldl_pushStack (vals : List V) (f : ScriptFrame V) :
    f.Stays (vals.foldl ScriptFrame.pushStack f) := by
  induction vals generalizing f with
  | nil => exact .refl f
  | cons v vals ih =>
    have h := ih (f.pushStack v)
    exact ⟨h.act, h.used, h.lhs⟩

theorem ScriptFrame.Right.foldl_pushStack {heap : Heap V} {n : ℕ} (vals : List V)
    {f : ScriptFrame V} (hf : f.Right heap n) : (vals.foldl ScriptFrame.pushStack f).Right heap n := by
  induction vals generalizing f with
  | nil => exact hf
  | cons v vals ih => exact ih (hf.pushStack v)

theorem Inv.pushTo (h : Inv s) {r : FrameRef} (hr : r ∈ s.current.frames) (vals : List V) :
    Inv (s.pushTo r vals) := by
  rcases r with _ | _ | b
  · exact h
  · exact h
  · exact h.modify (h.not_kept (Inv.mem_chains_current s) hr) (stays_foldl_pushStack vals)
      fun f _ hf => hf.foldl_pushStack vals

@[simp]
theorem current_pushTo (r : FrameRef) (vals : List V) : (s.pushTo r vals).current = s.current := by
  rcases r with _ | _ | b <;> rfl

theorem heap_pushTo {r : FrameRef} {a : Address} (ha : r ≠ .script a) (vals : List V) :
    (s.pushTo r vals).heap a = s.heap a := by
  rcases r with _ | _ | b
  · rfl
  · rfl
  · have hne : a ≠ b := by
      rintro rfl
      exact ha rfl
    simp [State.pushTo, State.modify, Function.update_of_ne hne]

/-- The frame on top returns. -/
theorem Inv.leave (h : Inv s) {a : Address} {f : ScriptFrame V} {rest : List FrameRef}
    (hc : s.current.frames = .script a :: rest) (hf : s.heap a = some f) :
    Inv (s.leave a f rest) := by
  have hcut := h.cut (show rest <:+ s.current.frames by rw [hc]; exact List.suffix_cons _ _)
  unfold State.leave
  split_ifs with hused
  · exact hcut
  · have hcons : s.inUse + s.kept = a ::ₘ ((s.cut rest).inUse + (s.cut rest).kept) := by
      simp [State.inUse, State.kept, State.cut, hc]
    have hn := h.nodup
    rw [hcons, Multiset.nodup_cons] at hn
    have hnot : a ∉ (s.cut rest).kept := fun ha => hn.1 (Multiset.mem_add.2 (.inr ha))
    have hmod := hcut.modify (g := ScriptFrame.cleanup) hnot (fun _ => ⟨rfl, id, id⟩)
      fun _ _ hright => hright.cleanup
    exact hmod.keep hn.1 (by simp [State.modify, State.cut, hf])
      ((h.right a f hf).clean (by simpa using hused))

/-- What is on the chain from the target of a long jump on. -/
theorem landing_suffix (s : State V) (target : FrameRef) :
    s.landing target <:+ s.current.frames :=
  (List.dropWhile_suffix _).trans (List.tail_suffix _)

theorem head_landing {target r : FrameRef} {rest : List FrameRef}
    (h : s.landing target = r :: rest) : r = target := by
  have hhead := List.head?_dropWhile_not (· ≠ target) s.current.frames.tail
  unfold State.landing at h
  rw [h] at hhead
  simpa using hhead

theorem Inv.longJump (array : List V → V) (nil : V) (h : Inv s) (target : FrameRef)
    (vals : List V) : Inv (s.longJump array nil target vals) := by
  have hsuffix := landing_suffix s target
  unfold State.longJump
  split
  · exact h
  · rename_i frames hne
    split
    · exact h
    · split
      · exact h.cut hsuffix
      · rcases hl : s.landing target with _ | ⟨r, rest⟩
        · exact absurd hl hne
        · have hmem : target ∈ s.current.frames := by
            obtain rfl := head_landing hl
            exact hsuffix.subset (by simp [hl])
          exact (h.pushTo hmem _).cut (by rw [current_pushTo, ← hl]; exact hsuffix)

theorem Inv.switch (h : Inv s) {i : ℕ} {t : Thread} (ht : s.others[i]? = some t) :
    Inv { s with current := t, others := s.current :: s.others.eraseIdx i } := by
  have hperm : s.others.Perm (t :: s.others.eraseIdx i) := by
    obtain ⟨hi, rfl⟩ := List.getElem?_eq_some_iff.1 ht
    exact (List.getElem_cons_eraseIdx_perm hi).symm
  have hframes := (hperm.map fun t => scripts t.frames).sum_eq
  have hkept := (hperm.map fun t => (t.scriptFrames : Multiset Address)).sum_eq
  simp only [List.map_cons, List.sum_cons] at hframes hkept
  refine h.rearrange rfl le_rfl rfl rfl (le_of_eq ?_) (le_of_eq ?_) ?_ h.bottom
  · simp only [State.inUse, State.kept, List.map_cons, List.sum_cons, hframes, hkept]
    abel
  · simp only [State.kept, List.map_cons, List.sum_cons, hkept]
    abel
  · intro frames hf
    refine h.linked frames ?_
    have hmem : ∀ u, u ∈ s.others ↔ u = t ∨ u ∈ s.others.eraseIdx i := by
      intro u
      rw [hperm.mem_iff, List.mem_cons]
    simp only [State.chains, List.mem_cons, List.mem_append, List.mem_map, hmem] at hf ⊢
    grind

theorem Inv.newThread (h : Inv s) :
    Inv { s with others := ⟨[], [], []⟩ :: s.others } := by
  refine h.rearrange rfl le_rfl rfl rfl (le_of_eq ?_) (le_of_eq ?_) ?_ h.bottom
  · simp [State.inUse, State.kept]
  · simp [State.kept]
  · intro frames hf
    simp only [State.chains, List.map_cons, List.mem_cons, List.cons_append] at hf
    rcases hf with rfl | rfl | hf
    · exact h.linked _ (Inv.mem_chains_current s)
    · exact .nil
    · exact h.linked _ (List.mem_cons_of_mem _ hf)

theorem Inv.resume (h : Inv s) {i : ℕ} {b : Bool} {rest frames : List FrameRef}
    (hc : s.current.frames = .c b :: rest) (hf : s.suspended[i]? = some frames) :
    Inv { s with current.frames := frames ++ .c b :: rest, suspended := s.suspended.eraseIdx i } := by
  have hperm : s.suspended.Perm (frames :: s.suspended.eraseIdx i) := by
    obtain ⟨hi, rfl⟩ := List.getElem?_eq_some_iff.1 hf
    exact (List.getElem_cons_eraseIdx_perm hi).symm
  have hsum := (hperm.map scripts).sum_eq
  simp only [List.map_cons, List.sum_cons] at hsum
  have hmem : frames ∈ s.suspended := List.mem_of_getElem? hf
  refine h.rearrange rfl le_rfl rfl rfl (le_of_eq ?_) le_rfl ?_ fun frames' hf' =>
    h.bottom frames' (List.mem_of_mem_eraseIdx hf')
  · simp only [State.inUse, State.kept, hsum, hc, scripts_append, scripts_c]
    abel
  · intro frames' hf'
    simp only [State.chains, List.mem_cons, List.mem_append] at hf'
    rcases hf' with rfl | hf' | hf'
    · refine List.isChain_append.2 ⟨h.linked _ ?_, ?_, fun x hx _ _ hret => ?_⟩
      · simp [State.chains, hmem]
      · exact hc ▸ h.linked _ (Inv.mem_chains_current s)
      · exact absurd hret (h.bottom frames hmem x hx)
    · exact h.linked _ (by simp only [State.chains, List.mem_cons, List.mem_append, hf', true_or, or_true])
    · exact h.linked _ (by simp [State.chains, List.mem_of_mem_eraseIdx hf'])

theorem Inv.yield (h : Inv s) {n : ℕ} {b : Bool} {rest : List FrameRef}
    (hc : s.current.frames.drop n = .c b :: rest) :
    Inv { s with
      current.frames := .c b :: rest, suspended := s.current.frames.take n :: s.suspended } := by
  have hsplit : s.current.frames = s.current.frames.take n ++ .c b :: rest := by
    rw [← hc, List.take_append_drop]
  have hchain := h.linked _ (Inv.mem_chains_current s)
  rw [hsplit, Linked, List.isChain_append] at hchain
  obtain ⟨htake, hdrop, hjoin⟩ := hchain
  refine h.rearrange rfl le_rfl rfl rfl (le_of_eq ?_) le_rfl ?_ ?_
  · have hscripts := congrArg scripts hsplit
    rw [scripts_append, scripts_c] at hscripts
    simp only [State.inUse, State.kept, scripts_c, List.map_cons, List.sum_cons, hscripts]
    abel
  · intro frames hf
    simp only [State.chains, List.mem_cons, List.mem_append] at hf
    rcases hf with rfl | hf | rfl | hf
    · exact hdrop
    · exact h.linked _ (by simp only [State.chains, List.mem_cons, List.mem_append, hf, true_or, or_true])
    · exact htake
    · exact h.linked _ (by simp [State.chains, hf])
  · intro frames hf
    simp only [List.mem_cons] at hf
    rcases hf with rfl | hf
    · exact fun r hr hret => hjoin r hr (.c b) rfl hret
    · exact h.bottom frames hf

/-- The frame on top is remembered by a function that is made in it. -/
theorem Inv.setupScriptFunction (h : Inv s) {a : Address} {rest : List FrameRef}
    (hc : s.current.frames = .script a :: rest) {fn : Function V}
    (hfn : ∀ heap n, Used heap a → Grows (fun _ => False) n s.heap heap → n = s.activations →
      fn.Right heap n) : Inv (s.setupScriptFunction a fn) := by
  obtain ⟨f, hf⟩ := h.top_alive hc
  have hmod : Inv (s.modify a ({ · with usedByFunc := true })) :=
    h.modify (h.top_not_kept hc) (fun _ => ⟨rfl, fun _ => rfl, id⟩) fun _ _ hr =>
      ⟨hr.act, hr.total, hr.outer, hr.longReturn, hr.longBreak, hr.name⟩
  refine hmod.withFunctions fun fn' hfn' => ?_
  rcases List.mem_append.1 hfn' with hfn' | hfn'
  · exact hmod.functions fn' hfn'
  · obtain rfl : fn' = fn := by simpa using hfn'
    refine hfn _ _ ⟨{ f with usedByFunc := true }, by simp [State.modify, hf], rfl⟩ ?_ rfl
    refine ⟨fun b _ => ?_, by simp, by simp⟩
    by_cases hb : b = a
    · subst hb
      simp only [State.modify, hf, Function.update_self, Option.map_some]
      exact .some ⟨rfl, fun _ => rfl, id⟩
    · simp only [State.modify, Function.update_of_ne hb]
      rcases s.heap b with _ | g
      · exact .none
      · exact .some (.refl g)

theorem Inv.makeFunction (h : Inv s) {a : Address} {rest : List FrameRef}
    (hc : s.current.frames = .script a :: rest) {f : ScriptFrame V} (code : Code) (name : ID) :
    Inv (s.setupScriptFunction a ⟨code, false, true, name, f.globals, a, none, none⟩) :=
  h.setupScriptFunction hc fun _ _ hu _ _ =>
    ⟨hu, by simp, by simp, by simp, fun _ => rfl⟩

theorem Inv.makeBlock (h : Inv s) {a : Address} {rest : List FrameRef}
    (hc : s.current.frames = .script a :: rest) {f : ScriptFrame V} (hf : s.heap a = some f)
    (code : Code) : Inv (s.setupScriptFunction a
      ⟨code, true, false, invalidId, f.globals, a, f.frameToLongReturn, some a⟩) :=
  h.setupScriptFunction hc fun _ _ hu hg hn =>
    ⟨hu, fun b m hb => ((h.right a f hf).longReturn b m hb).grow (hn ▸ hg) hn.ge,
      fun _ hb => (Option.some.inj hb).symm, by simp, by simp⟩

/-- A script function is called. -/
theorem Calling.exec (h : Calling s) {fn : Function V} (hfn : fn ∈ s.functions)
    (hpassed : fn.passed = true) {g : ScriptFrame V} (hg : s.heap fn.outerFrame = some g)
    (code : Code) (n : ℕ) (args : List (ℕ × V)) (definingClass : Option V) :
    Inv (((s.getScriptFrame code n).2.modify (s.getScriptFrame code n).1
      (fn.fill args definingClass g s.caller)).push (.script (s.getScriptFrame code n).1)) := by
  have ht := h.inv.getScriptFrame code n
  have hle : s.activations ≤ (s.getScriptFrame code n).2.activations := by
    rw [ht.activations]
    exact Nat.le_succ _
  refine ht.enter (stays_fill fn args definingClass g s.caller) (fun f hf => ?_) h.top
  refine Function.Right.fill (ht.inv.functions fn (ht.functions ▸ hfn)) hpassed hf ?_
    (fun a m hc => (h.caller hc).grow ht.grows hle) args definingClass
  exact (h.inv.right _ g hg).grow ht.grows hle

/-- The body of a class, a module or a package is entered. -/
theorem Calling.names (h : Calling s) (code : Code) (n : ℕ) (vars : V) (globals : Option V) :
    Inv (((s.getScriptFrame code n).2.modify (s.getScriptFrame code n).1
      (fillNames vars globals)).push (.script (s.getScriptFrame code n).1)) :=
  (h.inv.getScriptFrame code n).enter (fun _ => ⟨rfl, id, id⟩)
    (fun _ hf => hf.fillNames vars globals) h.top

theorem Inv.step {array : List V → V} {nil : V} (h : Inv s) {a : Action V}
    (hs : Step array nil s a s') : Inv s' := by
  unfold Step at hs
  cases a with
  | switch i =>
    simp only [State.exec] at hs
    split at hs
    · rename_i t ht
      cases hs
      exact h.switch ht
    · cases hs
  | newThread =>
    cases hs
    exact h.newThread
  | work pc stackSize stores =>
    simp only [State.exec] at hs
    split at hs
    · rename_i b rest hc
      cases hs
      refine h.modify (h.top_not_kept hc) (fun _ => ⟨rfl, id, id⟩) fun f _ hf => ?_
      have hstore := hf.storeFrom 0 stores
      exact ⟨hstore.act, hstore.total, hstore.outer, hstore.longReturn, hstore.longBreak,
        hstore.name⟩
    · cases hs
  | storeNonlocal level index val =>
    simp only [State.exec] at hs
    split at hs
    · rename_i b rest hc
      split at hs
      · rename_i b' hcell
        cases hs
        obtain ⟨f, hf, hout⟩ := Option.map_eq_some_iff.1 hcell
        obtain ⟨g, hg, hused⟩ := (h.right b f hf).outer b' (outer_mem hout)
        refine h.modify (fun hk => ?_) (fun _ => ⟨rfl, id, id⟩) fun g _ hright =>
          hright.storeFrom g.stackCapacity [(index, val)]
        simp [(h.clean b' hk g hg).usedByFunc] at hused
      · cases hs
    · cases hs
  | loadSuper =>
    simp only [State.exec] at hs
    split at hs
    · split_ifs at hs
      cases hs
      exact h
    · cases hs
  | makeFunction code name =>
    simp only [State.exec] at hs
    split at hs
    · rename_i b rest hc
      split at hs
      · cases hs
      · cases hs
        exact h.makeFunction hc code name
    · cases hs
  | makeBlock code =>
    simp only [State.exec] at hs
    split at hs
    · rename_i b rest hc
      split at hs
      · cases hs
      · rename_i f hf
        cases hs
        exact h.makeBlock hc hf code
    · cases hs
  | exec shape fn block args klass =>
    simp only [State.exec] at hs
    split at hs
    · cases hs
    · rename_i s₁ code n htakes
      have hcalling := h.takes htakes
      split at hs
      · cases hs
      · rename_i f hf
        split at hs
        · cases hs
        · rename_i g hg
          cases hs
          have hpassed : f.passed = true := by
            simp only [State.takes] at htakes
            split at htakes
            · cases htakes
            · split at htakes
              · cases htakes
              · rename_i f' hf'
                split_ifs at htakes with hp
                cases htakes
                cases hf.symm.trans hf'
                exact hp
          exact hcalling.exec (List.mem_of_getElem? hf) hpassed hg code n args klass
  | execRaises shape fn block =>
    simp only [State.exec, Option.map_eq_some_iff] at hs
    obtain ⟨⟨s₁, code, n⟩, htakes, rfl⟩ := hs
    exact ((h.takes htakes).inv.getScriptFrame code n).inv
  | execNative shape block =>
    simp only [State.exec] at hs
    split at hs
    · rename_i b rest hc
      cases hs
      have hcalled := called_setLhs h hc shape
      refine ((h.setLhs (h.top_not_kept hc) shape).pass hcalled block).push (by simp) ?_
      intro _ r hr
      rw [current_pass] at hr
      have hr' : r ∈ s.current.frames.head? := hr
      obtain rfl : FrameRef.script b = r := by simpa [hc] using hr'
      rwa [heap_pass]
    · cases hs
  | callNative =>
    cases hs
    exact h.push (by simp) (by simp [FrameRef.Returns])
  | makeClass code vars =>
    simp only [State.exec, Option.map_eq_some_iff] at hs
    obtain ⟨⟨s₁, code', n⟩, htakes, rfl⟩ := hs
    exact (h.takes htakes).names code' n vars _
  | evalPackage code vars =>
    simp only [State.exec, Option.map_eq_some_iff] at hs
    obtain ⟨⟨s₁, code', n⟩, htakes, rfl⟩ := hs
    exact (h.takes htakes).names code' n vars _
  | pushFinish =>
    cases hs
    exact h.pushFinishFrame
  | nativeReturn vals =>
    simp only [State.exec] at hs
    split at hs
    · rename_i rest hc
      cases hs
      exact h.cut (by rw [hc]; exact List.suffix_cons _ _)
    · rename_i r rest hc
      have hsuffix : r :: rest <:+ s.current.frames := by
        rw [hc]
        exact List.suffix_cons _ _
      split at hs
      · cases hs
      · split at hs
        · cases hs
          exact h.cut hsuffix
        · cases hs
          exact (h.pushTo (hsuffix.subset (by simp)) _).cut (by rwa [current_pushTo])
    · cases hs
  | ret vals =>
    simp only [State.exec] at hs
    split at hs
    · rename_i b r rest hc
      split at hs
      · rename_i f lhs hf hlhs
        split at hs
        · cases hs
          exact h
        · cases hs
          have hne : r ≠ .script b := by
            rintro rfl
            have hn := Multiset.nodup_of_le (scripts_le_inUse (Inv.mem_chains_current s))
              (Multiset.nodup_add.1 h.nodup).1
            simp [hc] at hn
          refine (h.pushTo (by simp [hc]) _).leave (by rw [current_pushTo, hc]) ?_
          rw [heap_pushTo hne, hf]
      · cases hs
    · cases hs
  | finish =>
    simp only [State.exec] at hs
    split at hs
    · rename_i b rest hc
      cases hs
      have hcut := h.cut (show rest <:+ s.current.frames by rw [hc]; exact List.suffix_cons _ _)
      exact hcut.rearrange rfl le_rfl rfl rfl le_rfl le_rfl hcut.linked hcut.bottom
    · cases hs
  | unwind n =>
    cases hs
    exact h.cut (List.drop_suffix _ _)
  | longReturn vals =>
    simp only [State.exec] at hs
    split at hs
    · split at hs
      · cases hs
        exact h.longJump array nil _ vals
      · cases hs
    · cases hs
  | longBreak vals =>
    simp only [State.exec] at hs
    split at hs
    · split at hs
      · cases hs
        exact h.longJump array nil _ vals
      · cases hs
    · cases hs
  | resume i =>
    simp only [State.exec] at hs
    split at hs
    · rename_i b rest frames hc hf
      cases hs
      exact h.resume hc hf
    · cases hs
  | yield n =>
    simp only [State.exec] at hs
    split at hs
    · rename_i b rest hc
      cases hs
      exact h.yield hc
    · cases hs

theorem inv_start : Inv (State.start : State V) where
  nodup := by simp [State.inUse, State.kept, State.start]
  free _ _ := rfl
  alive := by simp [State.inUse, State.kept, State.start]
  clean := by simp [State.kept, State.start]
  right := by simp [State.start]
  functions := by simp [State.start]
  linked frames hf := by
    obtain rfl : frames = [] := by simpa [State.chains, State.start] using hf
    exact .nil
  bottom := by simp [State.start]

theorem inv_of_run {array : List V → V} {nil : V} {as : List (Action V)}
    (h : Run (Step array nil) State.start as s) : Inv s :=
  h.invariant (I := Inv) (fun _ _ _ hi hs => hi.step hs) inv_start

/-- The field was written in the activation that the frame is in. -/
def State.Current (s : State V) : State.Read → Prop
  | .lhs a => ∃ f, s.heap a = some f ∧ f.lhsBy = f.act
  | .name a => ∃ f, s.heap a = some f ∧ f.nameBy = f.act

/-- The frame that an action takes is as a new one, and what it reads of a frame is not of a call
before. -/
structure AsNew (s : State V) (a : Action V) : Prop where
  fresh : ∀ s₁ code localsNum, s.takes a = some (s₁, code, localsNum) →
    ∃ f, (s₁.getScriptFrame code localsNum).2.heap (s₁.getScriptFrame code localsNum).1 = some f ∧
      f.Fresh code localsNum
  reads : ∀ r ∈ s.reads a, s.Current r

/-- A return in a block goes to the activation that its function was called from, or to one that
has called something. -/
def GoesBack (s : State V) : Action V → Prop
  | .longReturn _ => ∀ a rest f b n g, s.current.frames = .script a :: rest → s.heap a = some f →
      f.frameToLongReturn = some (.script b, n) → .script b ∈ rest → s.heap b = some g →
        g.act = n ∨ g.lhsBy = g.act
  | _ => True

theorem mem_readsLhs {frames : List FrameRef} {r : State.Read} (h : r ∈ State.readsLhs frames) :
    ∃ b rest, frames = .script b :: rest ∧ r = .lhs b := by
  unfold State.readsLhs at h
  split at h
  · exact ⟨_, _, rfl, by simpa using h⟩
  · simp at h

/-- A frame with a frame above that returns to it. -/
theorem Inv.current_below (h : Inv s) {upper : FrameRef} {b : Address} {rest : List FrameRef}
    (hc : s.current.frames = upper :: .script b :: rest) (hret : upper.Returns) :
    s.Current (.lhs b) := by
  have hchain := h.linked _ (Inv.mem_chains_current s)
  rw [hc, Linked, List.isChain_cons_cons] at hchain
  exact hchain.1 hret

theorem landing_eq_nil_iff {a target : FrameRef} {rest : List FrameRef}
    (hc : s.current.frames = a :: rest) : s.landing target = [] ↔ target ∉ rest := by
  rw [State.landing, hc, List.tail_cons, List.dropWhile_eq_nil_iff]
  constructor
  · intro h hmem
    simpa using h target hmem
  · intro h x hx
    simpa using fun hxt : x = target => h (hxt ▸ hx)

/-- In every state of every run, a frame that is taken is as a new one and no old field is read,
exactly if a return in a block does not go to a frame that has been taken again and has not called
anything since. -/
theorem asNew_iff {array : List V → V} {nil : V} {as : List (Action V)} {a : Action V}
    (h : Run (Step array nil) State.start as s) (hs : Step array nil s a s') :
    AsNew s a ↔ GoesBack s a := by
  have hinv := inv_of_run h
  constructor
  · rintro ⟨-, hreads⟩
    cases a with
    | longReturn vals =>
      intro t rest f b n g hc hf hret hmem hg
      have hread : State.Read.lhs b ∈ s.reads (.longReturn vals) := by
        rcases hl : s.landing (.script b) with _ | ⟨r, below⟩
        · exact absurd hmem ((landing_eq_nil_iff hc).1 hl)
        · obtain rfl := head_landing hl
          simp [State.reads, hc, hf, hret, hl, State.readsLhs]
      obtain ⟨g', hg', hlhs⟩ := hreads _ hread
      cases hg.symm.trans hg'
      exact .inr hlhs
    | _ => trivial
  · intro hgoes
    refine ⟨fun s₁ code n ht => ?_, fun r hr => ?_⟩
    · obtain ⟨f, hf, hfresh, -⟩ := ((hinv.takes ht).inv.getScriptFrame code n).frame
      exact ⟨f, hf, hfresh⟩
    cases a with
    | nativeReturn vals =>
      simp only [State.reads] at hr
      split at hr
      · rename_i rest hc
        obtain ⟨b, below, rfl, rfl⟩ := mem_readsLhs hr
        exact hinv.current_below hc rfl
      · simp at hr
    | ret vals =>
      simp only [State.reads] at hr
      split at hr
      · rename_i t rest hc
        obtain ⟨b, below, rfl, rfl⟩ := mem_readsLhs hr
        exact hinv.current_below hc trivial
      · simp at hr
    | longReturn vals =>
      simp only [State.reads] at hr
      split at hr
      · rename_i t rest hc
        split at hr
        · rename_i target n hret
          obtain ⟨b, below, hl, rfl⟩ := mem_readsLhs hr
          obtain rfl := head_landing hl
          obtain ⟨f, hf, hfret⟩ := Option.bind_eq_some_iff.1 hret
          have hmem : .script b ∈ rest := by
            by_contra hnot
            simp [(landing_eq_nil_iff hc).2 hnot] at hl
          obtain ⟨g, hg⟩ := hinv.alive b (Multiset.mem_add.2 (.inl (Multiset.mem_of_le
            (scripts_le_inUse (Inv.mem_chains_current s)) (mem_scripts.2 (by simp [hc, hmem])))))
          rcases hgoes t rest f b n g hc hf hfret hmem hg with hact | hlhs
          · exact ⟨g, hg, ((hinv.right t f hf).longReturn b n hfret).2 g hg hact⟩
          · exact ⟨g, hg, hlhs⟩
        · simp at hr
      · simp at hr
    | longBreak vals =>
      simp only [State.reads] at hr
      split at hr
      · rename_i t rest hc
        split at hr
        · rename_i b' hbreak
          obtain ⟨b, below, hl, rfl⟩ := mem_readsLhs hr
          obtain rfl : b = b' := by simpa using head_landing hl
          obtain ⟨f, hf, hfbreak⟩ := Option.bind_eq_some_iff.1 hbreak
          exact ((hinv.right t f hf).longBreak b hfbreak).2
        · simp at hr
      · simp at hr
    | loadSuper =>
      simp only [State.reads] at hr
      split at hr
      · rename_i t rest hc
        obtain rfl : r = .name t := by simpa using hr
        simp only [Step, State.exec, hc] at hs
        split_ifs at hs with hklass
        obtain ⟨k, hk⟩ := Option.isSome_iff_exists.1 hklass
        obtain ⟨f, hf, hfk⟩ := Option.bind_eq_some_iff.1 hk
        exact ⟨f, hf, (hinv.right t f hf).name (by simp [hfk])⟩
      · simp at hr
    | _ => simp [State.reads] at hr

/-- A body of one cell. -/
def smallBody : Code := .mk
  { argInfo := none
    stackSize := 1
    localVarsCount := 0
    localVarsNames := []
    consts := []
    insts := []
    outerSize := 0
    excTbl := []
    linenoTbl := []
    filename := "a.yog"
    className := invalidId
    funcName := invalidId
    list := [] }

/-- The state after actions that can be done. -/
def execAll : List (Action Unit) → State Unit → Option (State Unit)
  | [], s => some s
  | a :: as, s => (s.exec (fun _ => ()) () a).bind (execAll as)

theorem run_of_execAll : ∀ {as : List (Action Unit)} {s s' : State Unit},
    execAll as s = some s' → Run (Step (fun _ => ()) ()) s as s'
  | [], s, s', h => by
    cases h
    exact .nil _
  | a :: as, s, s', h => by
    obtain ⟨s₁, h₁, h₂⟩ := Option.bind_eq_some_iff.1 h
    exact .cons h₁ (run_of_execAll h₂)

/-- A package is evaluated, and its frame is kept. -/
def evaluated : List (Action Unit) := [.pushFinish, .evalPackage smallBody (), .ret []]

/-- Another one is evaluated in the same frame. -/
theorem asNew_evaluated : ∃ s, execAll evaluated .start = some s ∧ s.current.scriptFrames = [1] ∧
    AsNew s (.evalPackage smallBody ()) := by
  obtain ⟨s, hs⟩ : ∃ s, execAll evaluated .start = some s := ⟨_, rfl⟩
  obtain ⟨s', hs'⟩ : ∃ s', Step (fun _ => ()) () s (.evalPackage smallBody ()) s' := by
    cases hs
    exact ⟨_, rfl⟩
  exact ⟨s, hs, by cases hs; rfl, (asNew_iff (run_of_execAll hs) hs').2 trivial⟩

/-- A function is called from a frame and passes a block to a native function, which keeps it. The
frame is taken again, for a function that has the block called from C first. -/
def blockKept : List (Action Unit) :=
  [.pushFinish, .evalPackage smallBody (), .makeFunction smallBody invalidId,
    .exec oneTarget 0 none [] none, .exec oneTarget 0 none [] none, .makeBlock smallBody,
    .execNative oneTarget (some 1), .nativeReturn [()], .ret [], .ret [],
    .exec oneTarget 0 none [] none, .pushFinish, .exec oneTarget 1 none [] none]

theorem not_asNew_blockKept : ¬∀ (as : List (Action Unit)) (s s' : State Unit) (a : Action Unit),
    Run (Step (fun _ => ()) ()) State.start as s → Step (fun _ => ()) () s a s' → AsNew s a := by
  intro h
  obtain ⟨s, hs⟩ : ∃ s, execAll blockKept .start = some s := ⟨_, rfl⟩
  obtain ⟨s', hs'⟩ : ∃ s', Step (fun _ => ()) () s (.longReturn [()]) s' := by
    cases hs
    exact ⟨_, rfl⟩
  have hread : State.Read.lhs 2 ∈ s.reads (.longReturn [()]) := by
    cases hs
    exact .head _
  have hold : (s.heap 2).map (fun f => (f.lhsBy, f.act)) = some (1, 3) := by
    cases hs
    rfl
  obtain ⟨f, hf, hlhs⟩ := (h _ s s' _ (run_of_execAll hs) hs').reads _ hread
  simp only [hf, Option.map_some, Option.some.injEq, Prod.mk.injEq, hlhs] at hold
  omega

end FrameReuse

end Yog
