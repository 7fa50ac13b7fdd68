import Yog.Vm
import Mathlib.Tactic

/-!
# Frame objects in use

No frame object is in two places: on a chain, in a coroutine that is suspended, or kept by a thread
to use again. A frame on a chain stands on the frame it was pushed on; a frame that a function
remembers is not used again. What a frame remembers of the bodies around it, and where its jumps go
to, follows from that for every step (`Inv.step`), and so for every run (`inv_of_run`).
-/

namespace Yog.Vm

def chainAddresses (frames : List FrameRef) : List Nat := frames.filterMap FrameRef.address?

namespace State

def chains (s : State) : List (List FrameRef) :=
  s.current.frames :: (s.others.map Thread.frames ++ s.suspended)

/-- The finish frames kept. -/
def keptFinish (s : State) : List Nat :=
  s.current.finishFrames ++ s.others.flatMap Thread.finishFrames

/-- The script frames kept. -/
def kept (s : State) : List Nat :=
  s.current.scriptFrames ++ s.others.flatMap Thread.scriptFrames

/-- The objects on a chain or kept. -/
def addresses (s : State) : List Nat :=
  s.chains.flatMap chainAddresses ++ (s.keptFinish ++ s.kept)

end State

/-- The cell for the frame `j` bodies out, by the activations of a body and those around it: it is
empty once there is a body without cells in between. -/
def expectedCell : List Activation → Nat → Option FrameRef
  | a :: b :: _, 0 => if a.kind = .names then none else some (.script b.frame)
  | a :: b :: bs, j + 1 => if a.kind = .names then none else expectedCell (b :: bs) j
  | _, _ => none

/-- The innermost of the bodies is remembered, and has this code among its constants. -/
def Remembered (heap : Heap) (scopes : List Activation) (code : Code) : Prop :=
  ∃ b bs f, scopes = b :: bs ∧ heap b.frame = some f ∧ f.act = b ∧ f.enclosing = bs ∧
    f.usedByFunc = true ∧ .code code ∈ f.code.fields.consts

/-- `K` is a property of the codes executed. -/
structure FrameObj.Right (K : Code → Prop) (heap : Heap) (f : FrameObj) : Prop where
  code : K f.code
  caller : f.act.caller ≠ .c
  return_ : ∀ h, home (f.act :: f.enclosing) = some h → f.frameToLongReturn = some h.caller
  break_ : f.act.kind = .block → ∃ b bs, f.enclosing = b :: bs ∧
    f.frameToLongBreak = some (.script b.frame)
  cells : ∀ j < depth f.code, f.outerFrames[j]? = some (expectedCell (f.act :: f.enclosing) j)
  remembered : f.act.kind ≠ .names → Remembered heap f.enclosing f.code

structure Function.Right (K : Code → Prop) (heap : Heap) (fn : Function) : Prop where
  code : K fn.code
  remembered : Remembered heap fn.scopes fn.code
  outerFrame : ∀ b ∈ fn.scopes.head?, fn.outerFrame = .script b.frame
  return_ : fn.isBlock = true → ∀ h, home fn.scopes = some h → fn.frameToLongReturn = some h.caller
  break_ : fn.isBlock = true → ∀ b ∈ fn.scopes.head?, fn.frameToLongBreak = some (.script b.frame)
  function : fn.isBlock = false → fn.frameToLongReturn = none

/-- Every script frame of a chain stands on the frame it was pushed on. -/
def Linked (K : Code → Prop) (heap : Heap) : List FrameRef → Prop
  | [] => True
  | .script a :: rest => (∃ f, heap a = some f ∧ f.act.frame = a ∧
      rest.head? = some f.act.caller ∧ f.Right K heap) ∧ Linked K heap rest
  | _ :: rest => Linked K heap rest

structure Inv (K : Code → Prop) (s : State) : Prop where
  nodup : s.addresses.Nodup
  bounded : ∀ a ∈ s.addresses, a < s.next
  fresh : ∀ a, s.next ≤ a → s.heap a = none
  kept : ∀ a ∈ s.kept, ∀ f, s.heap a = some f → f.usedByFunc = false
  used : ∀ a f, s.heap a = some f → f.usedByFunc = true → f.Right K s.heap
  linked : ∀ frames ∈ s.chains, Linked K s.heap frames
  functions : ∀ fn ∈ s.functions, fn.Right K s.heap

/-- The same but for what is counted, and for being remembered now. -/
structure FrameObj.Same (f f' : FrameObj) : Prop where
  code : f'.code = f.code
  outerFrames : f'.outerFrames = f.outerFrames
  return_ : f'.frameToLongReturn = f.frameToLongReturn
  break_ : f'.frameToLongBreak = f.frameToLongBreak
  act : f'.act = f.act
  enclosing : f'.enclosing = f.enclosing
  used : f.usedByFunc = true → f'.usedByFunc = true

theorem FrameObj.Same.refl (f : FrameObj) : f.Same f := ⟨rfl, rfl, rfl, rfl, rfl, rfl, id⟩

/-- The object at an address stays what it is. -/
def Heap.Keeps (heap heap' : Heap) (a : Nat) : Prop :=
  ∀ f, heap a = some f → ∃ f', heap' a = some f' ∧ f.Same f'

/-- What is remembered stays. -/
def Heap.KeepsUsed (heap heap' : Heap) : Prop :=
  ∀ a f, heap a = some f → f.usedByFunc = true → heap.Keeps heap' a

variable {K : Code → Prop} {heap heap' : Heap}

theorem Remembered.keep {scopes : List Activation} {code : Code} (hk : heap.KeepsUsed heap')
    (h : Remembered heap scopes code) : Remembered heap' scopes code := by
  obtain ⟨b, bs, f, hs, hf, hb, hbs, hu, hc⟩ := h
  obtain ⟨f', hf', hsame⟩ := hk _ _ hf hu f hf
  exact ⟨b, bs, f', hs, hf', hsame.act.trans hb, hsame.enclosing.trans hbs, hsame.used hu,
    by rw [hsame.code]; exact hc⟩

theorem FrameObj.Right.keep {f f' : FrameObj} (hk : heap.KeepsUsed heap') (hs : f.Same f')
    (h : f.Right K heap) : f'.Right K heap' where
  code := by
    rw [hs.code]
    exact h.code
  caller := by
    rw [hs.act]
    exact h.caller
  return_ := by
    rw [hs.act, hs.enclosing, hs.return_]
    exact h.return_
  break_ := by
    rw [hs.act, hs.enclosing, hs.break_]
    exact h.break_
  cells := by
    rw [hs.code, hs.outerFrames, hs.act, hs.enclosing]
    exact h.cells
  remembered := by
    rw [hs.act, hs.enclosing, hs.code]
    exact fun hn => (h.remembered hn).keep hk

theorem Function.Right.keep {fn : Function} (hk : heap.KeepsUsed heap') (h : fn.Right K heap) :
    fn.Right K heap' :=
  { h with remembered := h.remembered.keep hk }

theorem Linked.keep (hk : heap.KeepsUsed heap') : ∀ {frames : List FrameRef},
    (∀ a, .script a ∈ frames → heap.Keeps heap' a) → Linked K heap frames → Linked K heap' frames
  | [], _, _ => trivial
  | .c :: rest, ha, h =>
    @Linked.keep hk rest (fun a hm => ha a (List.mem_cons_of_mem _ hm)) h
  | .finish _ :: rest, ha, h =>
    @Linked.keep hk rest (fun a hm => ha a (List.mem_cons_of_mem _ hm)) h
  | .script a :: rest, ha, ⟨⟨f, hf, hfr, hcaller, hright⟩, h⟩ => by
    obtain ⟨f', hf', hs⟩ := ha a List.mem_cons_self f hf
    refine ⟨⟨f', hf', ?_, ?_, hright.keep hk hs⟩,
      Linked.keep hk (fun a hm => ha a (List.mem_cons_of_mem _ hm)) h⟩
    · rw [hs.act]
      exact hfr
    · rw [hs.act]
      exact hcaller

theorem Linked.suffix {frames frames' : List FrameRef} (hs : frames' <:+ frames)
    (h : Linked K heap frames) : Linked K heap frames' := by
  obtain ⟨pre, rfl⟩ := hs
  induction pre with
  | nil => exact h
  | cons r pre ih =>
    cases r with
    | c => exact ih h
    | finish a => exact ih h
    | script a => exact ih h.2

theorem Linked.right : ∀ {frames : List FrameRef} {a : Nat}, Linked K heap frames →
    .script a ∈ frames → ∃ f, heap a = some f ∧ f.act.frame = a ∧ f.Right K heap
  | .c :: rest, a, h, hm => @Linked.right rest _ h (by simpa using hm)
  | .finish _ :: rest, a, h, hm => @Linked.right rest _ h (by simpa using hm)
  | .script b :: rest, a, ⟨⟨f, hf, hfr, _, hright⟩, h⟩, hm => by
    rcases List.mem_cons.1 hm with heq | hm
    · cases heq
      exact ⟨f, hf, hfr, hright⟩
    · exact Linked.right h hm

section State

variable {s s' : State}

theorem mem_chainAddresses {frames : List FrameRef} {a : Nat} (h : .script a ∈ frames) :
    a ∈ chainAddresses frames :=
  List.mem_filterMap.2 ⟨_, h, rfl⟩

theorem mem_addresses_of_chain {frames : List FrameRef} (hc : frames ∈ s.chains) {a : Nat}
    (h : a ∈ chainAddresses frames) : a ∈ s.addresses :=
  List.mem_append_left _ (List.mem_flatMap.2 ⟨frames, hc, h⟩)

/-- A frame that is kept is on no chain. -/
theorem Inv.not_mem_chain (h : Inv K s) {a : Nat} (ha : a ∈ s.kept) {frames : List FrameRef}
    (hc : frames ∈ s.chains) : .script a ∉ frames := by
  intro hm
  obtain ⟨-, -, hd⟩ := List.nodup_append.1 h.nodup
  exact hd a (List.mem_flatMap.2 ⟨frames, hc, mem_chainAddresses hm⟩) a
    (List.mem_append_right _ ha) rfl

/-- Frames are moved, or no longer used. -/
theorem Inv.rearrange (h : Inv K s) (hheap : s'.heap = s.heap) (hf : s'.functions = s.functions)
    (hn : s.next ≤ s'.next) (hcount : ∀ a, s'.addresses.count a ≤ s.addresses.count a)
    (hkept : ∀ a ∈ s'.kept, ∀ f, s.heap a = some f → f.usedByFunc = false)
    (hl : ∀ frames ∈ s'.chains, Linked K s.heap frames) :
    Inv K s' where
  nodup := by
    rw [List.nodup_iff_count_le_one]
    exact fun a => (hcount a).trans (List.nodup_iff_count_le_one.1 h.nodup a)
  bounded := by
    intro a ha
    have hpos := List.count_pos_iff.2 ha
    exact (h.bounded a (List.count_pos_iff.1 (hpos.trans_le (hcount a)))).trans_le hn
  fresh := by
    intro a ha
    rw [hheap]
    exact h.fresh a (hn.trans ha)
  kept := by
    intro a ha
    rw [hheap]
    exact hkept a ha
  used := by
    rw [hheap]
    exact h.used
  linked := by
    rw [hheap]
    exact hl
  functions := by
    rw [hheap, hf]
    exact h.functions

/-- Objects on a chain become remembered, and calls are counted. -/
theorem Inv.withHeap (h : Inv K s) {heap : Heap} (hk : ∀ a, s.heap.Keeps heap a)
    (hn : ∀ a, s.heap a = none → heap a = none)
    (hu : ∀ a f, heap a = some f → f.usedByFunc = true → ∃ g, s.heap a = some g ∧
      (g.usedByFunc = true ∨ ∃ frames ∈ s.chains, .script a ∈ frames)) :
    Inv K { s with heap } where
  nodup := h.nodup
  bounded := h.bounded
  fresh := fun a ha => hn a (h.fresh a ha)
  kept := by
    intro a ha f hf
    by_contra hused
    rw [Bool.not_eq_false] at hused
    obtain ⟨g, hg, hgu | ⟨frames, hc, hm⟩⟩ := hu a f hf hused
    · rw [h.kept a ha g hg] at hgu
      cases hgu
    · exact h.not_mem_chain ha hc hm
  used := by
    intro a f hf hused
    obtain ⟨g, hg, hgu⟩ := hu a f hf hused
    obtain ⟨f', hf', hs⟩ := hk a g hg
    have heq : some f = some f' := hf.symm.trans hf'
    cases heq
    have hright : g.Right K s.heap := by
      rcases hgu with hgu | ⟨frames, hc, hm⟩
      · exact h.used a g hg hgu
      · obtain ⟨g', hg', -, hright⟩ := (h.linked frames hc).right hm
        rw [hg] at hg'
        cases hg'
        exact hright
    exact hright.keep (fun b _ _ _ => hk b) hs
  linked := fun frames hc => (h.linked frames hc).keep (fun b _ _ _ => hk b) fun b _ => hk b
  functions := fun fn hfn => (h.functions fn hfn).keep fun b _ _ _ => hk b

theorem Heap.Keeps.update_ne {f : Option FrameObj} {a b : Nat} (hab : b ≠ a) :
    heap.Keeps (Function.update heap a f) b := by
  intro g hg
  exact ⟨g, by rw [Function.update_of_ne hab]; exact hg, .refl g⟩

theorem setFrame_keepsUsed {a : Nat} (f : FrameObj)
    (hun : ∀ g, s.heap a = some g → g.usedByFunc = false) :
    s.heap.KeepsUsed (s.setFrame a f).heap := by
  intro b g hg hu
  refine Heap.Keeps.update_ne ?_
  rintro rfl
  rw [hun g hg] at hu
  cases hu

/-- An object that is neither on a chain nor remembered is written. -/
theorem Inv.setFrame (h : Inv K s) {a : Nat} {f : FrameObj} (ha : a < s.next)
    (hfree : ∀ frames ∈ s.chains, .script a ∉ frames)
    (hun : ∀ g, s.heap a = some g → g.usedByFunc = false) (hf : f.usedByFunc = false) :
    Inv K (s.setFrame a f) := by
  have hk := setFrame_keepsUsed f hun
  have hget : ∀ b g, (s.setFrame a f).heap b = some g → g.usedByFunc = true →
      s.heap b = some g := by
    intro b g hg hu
    by_cases hab : b = a
    · subst hab
      rw [State.setFrame_self] at hg
      cases hg
      rw [hf] at hu
      cases hu
    · rw [State.setFrame_of_ne f s hab] at hg
      exact hg
  constructor
  · exact h.nodup
  · exact h.bounded
  · intro b hb
    have hab : b ≠ a := by
      rintro rfl
      exact absurd ha (Nat.not_lt.2 hb)
    rw [State.setFrame_of_ne f s hab]
    exact h.fresh b hb
  · intro b hb g hg
    by_contra hu
    rw [Bool.not_eq_false] at hu
    rw [h.kept b hb g (hget b g hg hu)] at hu
    cases hu
  · intro b g hg hu
    exact (h.used b g (hget b g hg hu) hu).keep hk (.refl g)
  · intro frames hc
    refine (h.linked frames hc).keep hk fun b hb => Heap.Keeps.update_ne ?_
    rintro rfl
    exact hfree frames hc hb
  · exact fun fn hfn => (h.functions fn hfn).keep hk

theorem countCall_keeps (frames : List FrameRef) (heap : Heap) (a : Nat) :
    heap.Keeps (countCall frames heap) a := by
  intro f hf
  unfold countCall
  split
  · rename_i b rest
    by_cases hab : a = b
    · subst hab
      rw [Function.update_self, hf]
      exact ⟨_, rfl, rfl, rfl, rfl, rfl, rfl, rfl, id⟩
    · rw [Function.update_of_ne hab]
      exact ⟨f, hf, .refl f⟩
  · exact ⟨f, hf, .refl f⟩

theorem of_countCall {frames : List FrameRef} {a : Nat} {f : FrameObj}
    (h : countCall frames heap a = some f) : ∃ g, heap a = some g ∧ g.usedByFunc = f.usedByFunc := by
  unfold countCall at h
  split at h
  · rename_i b rest
    by_cases hab : a = b
    · subst hab
      rw [Function.update_self] at h
      obtain ⟨g, hg, rfl⟩ := Option.map_eq_some_iff.1 h
      exact ⟨g, hg, rfl⟩
    · rw [Function.update_of_ne hab] at h
      exact ⟨f, h, rfl⟩
  · exact ⟨f, h, rfl⟩

theorem Inv.countCall (h : Inv K s) (frames : List FrameRef) :
    Inv K { s with heap := countCall frames s.heap } := by
  refine h.withHeap (fun a => countCall_keeps frames s.heap a) ?_ ?_
  · intro a ha
    rcases hf : Vm.countCall frames s.heap a with _ | f
    · rfl
    · obtain ⟨g, hg, -⟩ := of_countCall hf
      rw [ha] at hg
      cases hg
  · intro a f hf hu
    obtain ⟨g, hg, hgu⟩ := of_countCall hf
    exact ⟨g, hg, Or.inl (hgu.trans hu)⟩

theorem mem_chains_current (s : State) : s.current.frames ∈ s.chains := List.mem_cons_self

theorem Inv.linked_current (h : Inv K s) : Linked K s.heap s.current.frames :=
  h.linked _ (mem_chains_current s)

theorem Inv.linked_tail (h : Inv K s) {frames : List FrameRef}
    (hc : frames ∈ s.others.map Thread.frames ++ s.suspended) : Linked K s.heap frames :=
  h.linked frames (List.mem_cons_of_mem _ hc)

theorem Inv.cut (h : Inv K s) {frames : List FrameRef} (hs : frames <:+ s.current.frames) :
    Inv K (s.cut frames) := by
  refine h.rearrange rfl rfl le_rfl (fun a => ?_) h.kept ?_
  · have hle : (chainAddresses frames).count a ≤ (chainAddresses s.current.frames).count a :=
      (hs.sublist.filterMap _).count_le a
    simp only [State.addresses, State.chains, State.cut, State.keptFinish, State.kept,
      List.flatMap_cons, List.count_append]
    omega
  · intro frames' hc
    rcases List.mem_cons.1 hc with rfl | hc
    · exact h.linked_current.suffix hs
    · exact h.linked_tail hc

/-- A native frame is pushed, with nothing counted. -/
theorem Inv.pushC (h : Inv K s) : Inv K { s with current.frames := .c :: s.current.frames } := by
  refine h.rearrange rfl rfl le_rfl (fun a => le_rfl) h.kept ?_
  intro frames hc
  rcases List.mem_cons.1 hc with rfl | hc
  · exact h.linked_current
  · exact h.linked_tail hc

/-- A frame with an address is pushed that is not held. -/
theorem Inv.pushAddress (h : Inv K s) {r : FrameRef} {a : Nat} (hr : r.address? = some a)
    (ha : a < s.next) (hfree : a ∉ s.addresses)
    (hl : Linked K s.heap (r :: s.current.frames)) :
    Inv K { s with current.frames := r :: s.current.frames } where
  nodup := by
    have hn := h.nodup
    simp only [State.addresses, State.chains, State.keptFinish, State.kept, List.flatMap_cons,
      chainAddresses, List.filterMap_cons, hr, List.cons_append] at hn hfree ⊢
    exact List.nodup_cons.2 ⟨hfree, hn⟩
  bounded := by
    intro b hb
    have hb : b = a ∨ b ∈ s.addresses := by
      simpa only [State.addresses, State.chains, State.keptFinish, State.kept, List.flatMap_cons,
        chainAddresses, List.filterMap_cons, hr, List.cons_append, List.mem_cons] using hb
    rcases hb with rfl | hb
    · exact ha
    · exact h.bounded b hb
  fresh := h.fresh
  kept := h.kept
  used := h.used
  linked := by
    intro frames hc
    rcases List.mem_cons.1 hc with rfl | hc
    · exact hl
    · exact h.linked_tail hc
  functions := h.functions

theorem Inv.push (h : Inv K s) {r : FrameRef} {a : Nat} (hr : r.address? = some a)
    (ha : a < s.next) (hfree : a ∉ s.addresses)
    (hl : Linked K s.heap (r :: s.current.frames)) : Inv K (s.push r) :=
  (h.countCall s.current.frames).pushAddress hr ha hfree
    (hl.keep (fun b _ _ _ => countCall_keeps _ _ b) fun b _ => countCall_keeps _ _ b)

theorem Inv.push_c (h : Inv K s) : Inv K (s.push .c) := (h.countCall s.current.frames).pushC

theorem Inv.push_finish (h : Inv K s) {a : Nat} (ha : a < s.next) (hfree : a ∉ s.addresses) :
    Inv K (s.push (.finish a)) :=
  h.push rfl ha hfree h.linked_current

theorem Inv.alloc (h : Inv K s) : Inv K { s with next := s.next + 1 } :=
  h.rearrange rfl rfl (Nat.le_succ _) (fun _ => le_rfl) h.kept h.linked

theorem Inv.next_not_mem (h : Inv K s) : s.next ∉ s.addresses := fun hm =>
  Nat.lt_irrefl _ (h.bounded _ hm)

/-- An address is taken off a list of those kept. -/
theorem not_mem_of_count {l : List Nat} (l' : List Nat) {a : Nat} (hn : l.Nodup)
    (hc : l.count a = l'.count a + 1) : a ∈ l ∧ a ∉ l' := by
  have hone := List.nodup_iff_count_le_one.1 hn a
  constructor
  · exact List.count_pos_iff.1 (by omega)
  · exact List.count_eq_zero.1 (by omega)

theorem Inv.pushFinishFrame (h : Inv K s) : Inv K s.pushFinishFrame := by
  unfold State.pushFinishFrame
  split
  · rename_i a kept hkept
    let t : State := { s with current.finishFrames := kept }
    have hcount : ∀ b, s.addresses.count b = t.addresses.count b + [a].count b := by
      intro b
      simp only [t, State.addresses, State.chains, State.keptFinish, State.kept, hkept,
        List.flatMap_cons, List.count_append, List.count_cons, List.count_nil]
      omega
    have ht : Inv K t :=
      h.rearrange rfl rfl le_rfl (fun b => by rw [hcount b]; omega) h.kept h.linked
    obtain ⟨hmem, hfree⟩ := not_mem_of_count t.addresses h.nodup
      (by rw [hcount a, List.count_singleton_self])
    exact ht.push_finish (h.bounded a hmem) hfree
  · exact h.alloc.push_finish (Nat.lt_succ_self _) h.next_not_mem

theorem getScriptFrame_spec (h : Inv K s) (code : Code) (localsNum : Nat) :
    ∃ a cells t, getScriptFrame code localsNum s = (a, cells, t) ∧ Inv K t ∧
      t.heap = s.heap ∧ t.current.frames = s.current.frames ∧ t.functions = s.functions ∧
      t.activations = s.activations ∧ depth code ≤ cells ∧ a < t.next ∧ a ∉ t.addresses ∧
      ∀ f, s.heap a = some f → f.usedByFunc = false := by
  have hnew : ∀ {t : State}, Inv K t → t.heap = s.heap → t.current.frames = s.current.frames →
      t.functions = s.functions → t.activations = s.activations →
      ∃ a cells u, newScriptFrame code t = (a, cells, u) ∧ Inv K u ∧
        u.heap = s.heap ∧ u.current.frames = s.current.frames ∧ u.functions = s.functions ∧
        u.activations = s.activations ∧ depth code ≤ cells ∧ a < u.next ∧ a ∉ u.addresses ∧
        ∀ f, s.heap a = some f → f.usedByFunc = false := by
    intro t ht hh hf hfn ha
    refine ⟨_, _, _, rfl, ht.alloc, hh, hf, hfn, ha, le_rfl, Nat.lt_succ_self _, ht.next_not_mem, ?_⟩
    intro f hf
    rw [← hh, ht.fresh _ le_rfl] at hf
    cases hf
  unfold getScriptFrame
  rcases hk : s.current.scriptFrames with _ | ⟨a, kept⟩
  · exact hnew h rfl rfl rfl rfl
  · let t : State := { s with current.scriptFrames := kept }
    have hcount : ∀ b, s.addresses.count b = t.addresses.count b + [a].count b := by
      intro b
      simp only [t, State.addresses, State.chains, State.keptFinish, State.kept, hk,
        List.flatMap_cons, List.count_append, List.count_cons, List.count_nil]
      omega
    have hkept : a ∈ s.kept := by
      unfold State.kept
      rw [hk]
      exact List.mem_cons_self
    have hsub : ∀ b ∈ t.kept, b ∈ s.kept := by
      intro b hb
      unfold State.kept
      rw [hk]
      exact List.mem_cons_of_mem _ hb
    have ht : Inv K t :=
      h.rearrange rfl rfl le_rfl (fun b => by rw [hcount b]; omega)
        (fun b hb => h.kept b (hsub b hb)) h.linked
    obtain ⟨hmem, hfree⟩ := not_mem_of_count t.addresses h.nodup
      (by rw [hcount a, List.count_singleton_self])
    rcases hf : s.heap a with _ | f
    · simp only [hf]
      exact hnew ht rfl rfl rfl rfl
    · simp only [hf]
      split
      · rename_i hle
        exact ⟨_, _, t, rfl, ht, rfl, rfl, rfl, rfl, by omega, h.bounded a hmem, hfree,
          h.kept a hkept⟩
      · exact hnew ht rfl rfl rfl rfl

/-- What the frame pushed for a call has to be. -/
structure Entered (K : Code → Prop) (s : State) (r : FrameRef) (a : Nat) (f : FrameObj) : Prop where
  right : f.Right K s.heap
  frame : f.act.frame = a
  caller : f.act.caller = r
  unused : f.usedByFunc = false

theorem Inv.enter (h : Inv K s) {r : FrameRef} {rest : List FrameRef}
    (hr : s.current.frames = r :: rest) {code : Code} {localsNum : Nat}
    {frame : Nat → Nat → FrameObj}
    (hf : ∀ a cells, depth code ≤ cells → Entered K s r a (frame a cells)) :
    Inv K (s.enter code localsNum frame) := by
  obtain ⟨a, cells, t, hget, ht, hheap, hframes, -, -, hcells, ha, hfree, hun⟩ :=
    getScriptFrame_spec h code localsNum
  have hent := hf a cells hcells
  have hun' : ∀ g, t.heap a = some g → g.usedByFunc = false := by
    rw [hheap]
    exact hun
  have hset : Inv K (t.setFrame a (frame a cells)) := by
    refine ht.setFrame ha ?_ hun' hent.unused
    intro frames hc hm
    exact hfree (mem_addresses_of_chain hc (mem_chainAddresses hm))
  have hlinked : Linked K (t.setFrame a (frame a cells)).heap
      (.script a :: (t.setFrame a (frame a cells)).current.frames) := by
    refine ⟨⟨frame a cells, State.setFrame_self .., hent.frame, ?_, ?_⟩, hset.linked_current⟩
    · rw [show (t.setFrame a (frame a cells)).current.frames = s.current.frames from hframes, hr,
        hent.caller]
      rfl
    · refine hent.right.keep ?_ (.refl _)
      rw [← hheap]
      exact setFrame_keepsUsed _ hun'
  have hpush := hset.push rfl ha hfree hlinked
  unfold State.enter
  rw [hget]
  exact ⟨hpush.nodup, hpush.bounded, hpush.fresh, hpush.kept, hpush.used, hpush.linked,
    hpush.functions⟩

theorem fillOuterFrames_getElem? {cells n j : Nat} {outerFrame : FrameRef} (hj : j < n) :
    (fillOuterFrames heap (List.replicate cells none) outerFrame n)[j]? =
      some (if j = 0 then some outerFrame else heap.cell outerFrame (j - 1)) := by
  unfold fillOuterFrames
  rw [if_neg (by omega)]
  rcases j with _ | j
  · rfl
  · rw [List.cons_append, List.getElem?_cons_succ, List.getElem?_append_left (by simp; omega),
      List.getElem?_map, List.getElem?_range (by omega)]
    rfl

/-- A body around a body of which `K` holds has it too, and cells for all but one of its frames. -/
structure Nested (K : Code → Prop) : Prop where
  const : ∀ c d, K c → .code d ∈ c.fields.consts → K d
  depth : ∀ c d, K c → .code d ∈ c.fields.consts → depth d ≤ depth c + 1

theorem expectedCell_of_names {a : Activation} (h : a.kind = .names) (as : List Activation) (j : Nat) :
    expectedCell (a :: as) j = none := by
  rcases as with _ | ⟨b, bs⟩
  · rfl
  · rcases j with _ | j <;> simp only [expectedCell, h, if_true]

theorem expectedCell_zero {a b : Activation} {bs : List Activation} (h : a.kind ≠ .names) :
    expectedCell (a :: b :: bs) 0 = some (.script b.frame) := by
  simp only [expectedCell, if_neg h]

theorem expectedCell_succ {a b : Activation} {bs : List Activation} {j : Nat}
    (h : a.kind ≠ .names) : expectedCell (a :: b :: bs) (j + 1) = expectedCell (b :: bs) j := by
  simp only [expectedCell, if_neg h]

theorem Function.Right.entered (hK : Nested K) (h : Inv K s) {fn : Function}
    (hfn : fn.Right K s.heap) {r : FrameRef} (hc : r ≠ .c) (id a cells : Nat) :
    Entered K s r a (fn.frame s.heap id r a cells) := by
  obtain ⟨b, bs, f, hscopes, hf, hact, henc, hused, hconst⟩ := hfn.remembered
  have hkind : (fn.frame s.heap id r a cells).act.kind ≠ .names := by
    show (if fn.isBlock = true then ScopeKind.block else .function) ≠ .names
    split <;> simp
  refine ⟨⟨hfn.code, hc, ?_, ?_, ?_, fun _ => hfn.remembered⟩, rfl, rfl, rfl⟩
  · intro H hH
    show some (fn.frameToLongReturn.getD r) = some H.caller
    rcases hb : fn.isBlock
    · simp only [Function.frame, home, hb, Bool.false_eq_true, if_false, Option.some.injEq] at hH
      rw [hfn.function hb, ← hH]
      rfl
    · simp only [Function.frame, home, hb, if_true] at hH
      rw [hfn.return_ hb H hH]
      rfl
  · intro hblock
    have hb : fn.isBlock = true := by
      by_contra hb
      simp [Function.frame, hb] at hblock
    refine ⟨b, bs, hscopes, hfn.break_ hb b ?_⟩
    rw [hscopes]
    rfl
  · intro j hj
    have houter : fn.outerFrame = .script b.frame := hfn.outerFrame b (by rw [hscopes]; rfl)
    have hright := h.used _ _ hf hused
    rw [show (fn.frame s.heap id r a cells).enclosing = b :: bs from hscopes]
    refine (fillOuterFrames_getElem? hj).trans (congrArg some ?_)
    rw [houter]
    rcases j with _ | j
    · exact (expectedCell_zero hkind).symm
    · rw [if_neg (Nat.succ_ne_zero j), expectedCell_succ hkind]
      have hdepth := hK.depth _ _ hright.code hconst
      have hcell := hright.cells j (by
        have hj' : j + 1 < depth fn.code := hj
        omega)
      show (s.heap b.frame).bind (fun f => (f.outerFrames[j]?).join) = _
      rw [hf]
      show (f.outerFrames[j]?).join = _
      rw [hcell, hact, henc]
      rfl

theorem namesFrame_entered {code : Code} (hcode : K code) {r : FrameRef} (hc : r ≠ .c)
    (enclosing : List Activation) (id a : Nat) {cells : Nat} (hcells : depth code ≤ cells) :
    Entered K s r a (namesFrame code enclosing id r a cells) := by
  refine ⟨⟨hcode, hc, ?_, ?_, ?_, ?_⟩, rfl, rfl, rfl⟩
  · intro H hH
    cases hH
  · intro hb
    cases hb
  · intro j hj
    rw [expectedCell_of_names rfl]
    have hj' : j < depth code := hj
    exact List.getElem?_replicate_of_lt (by omega)
  · exact fun hn => absurd rfl hn

theorem Inv.setup (h : Inv K s) {a : Nat} {f : FrameObj} {rest : List FrameRef} {fn : Function}
    (hr : s.current.frames = .script a :: rest) (hf : s.heap a = some f)
    (hfn : fn.Right K (s.setFrame a { f with usedByFunc := true }).heap) :
    Inv K (s.setupScriptFunction a f fn) := by
  have hset : Inv K (s.setFrame a { f with usedByFunc := true }) := by
    refine h.withHeap (fun b g hg => ?_) (fun b hb => ?_) (fun b g hg hu => ?_)
    · by_cases hab : b = a
      · subst hab
        rw [hf] at hg
        cases hg
        exact ⟨_, Function.update_self .., rfl, rfl, rfl, rfl, rfl, rfl, fun _ => rfl⟩
      · exact ⟨g, by rw [Function.update_of_ne hab]; exact hg, .refl g⟩
    · have hab : b ≠ a := by
        rintro rfl
        rw [hf] at hb
        cases hb
      rw [Function.update_of_ne hab]
      exact hb
    · by_cases hab : b = a
      · subst hab
        exact ⟨f, hf, Or.inr ⟨_, mem_chains_current s, by rw [hr]; exact List.mem_cons_self⟩⟩
      · rw [Function.update_of_ne hab] at hg
        exact ⟨g, hg, Or.inl hu⟩
  refine ⟨hset.nodup, hset.bounded, hset.fresh, hset.kept, hset.used, hset.linked, ?_⟩
  intro fn' hm
  rcases List.mem_append.1 hm with hm | hm
  · exact hset.functions fn' hm
  · rw [List.mem_singleton.1 hm]
    exact hfn

/-- The object of the frame on top. -/
theorem Inv.top (h : Inv K s) {a : Nat} {f : FrameObj} {rest : List FrameRef}
    (hr : s.current.frames = .script a :: rest) (hf : s.heap a = some f) :
    f.act.frame = a ∧ f.Right K s.heap := by
  obtain ⟨f', hf', hfr, hright⟩ := h.linked_current.right (by rw [hr]; exact List.mem_cons_self)
  rw [hf] at hf'
  cases hf'
  exact ⟨hfr, hright⟩

theorem remembered_setFrame {a : Nat} {f : FrameObj} {code : Code} (hfr : f.act.frame = a)
    (hc : .code code ∈ f.code.fields.consts) :
    Remembered (s.setFrame a { f with usedByFunc := true }).heap (f.act :: f.enclosing) code :=
  ⟨f.act, f.enclosing, { f with usedByFunc := true }, rfl,
    by rw [hfr]; exact State.setFrame_self .., rfl, rfl, rfl, hc⟩

theorem Inv.makeFunction (hK : Nested K) (h : Inv K s) {a : Nat} {f : FrameObj}
    {rest : List FrameRef} {code : Code} (hr : s.current.frames = .script a :: rest)
    (hf : s.heap a = some f) (hc : .code code ∈ f.code.fields.consts) :
    Inv K (s.makeFunction a f code) := by
  obtain ⟨hfr, hright⟩ := h.top hr hf
  refine h.setup hr hf ⟨hK.const _ _ hright.code hc, remembered_setFrame hfr hc, ?_, ?_, ?_, ?_⟩
  · rintro b ⟨⟩
    rw [hfr]
  · intro hb
    cases hb
  · intro hb
    cases hb
  · exact fun _ => rfl

theorem Inv.makeBlock (hK : Nested K) (h : Inv K s) {a : Nat} {f : FrameObj}
    {rest : List FrameRef} {code : Code} (hr : s.current.frames = .script a :: rest)
    (hf : s.heap a = some f) (hc : .code code ∈ f.code.fields.consts) :
    Inv K (s.makeBlock a f code) := by
  obtain ⟨hfr, hright⟩ := h.top hr hf
  refine h.setup hr hf ⟨hK.const _ _ hright.code hc, remembered_setFrame hfr hc, ?_, ?_, ?_, ?_⟩
  · rintro b ⟨⟩
    rw [hfr]
  · exact fun _ H hH => hright.return_ H hH
  · rintro - b ⟨⟩
    rw [hfr]
  · intro hb
    cases hb

theorem Inv.pass (h : Inv K s) (block : Option Nat) : Inv K (s.pass block) := by
  unfold State.pass
  split
  · split
    · split
      · rename_i fn f hfn _ _
        refine ⟨h.nodup, h.bounded, h.fresh, h.kept, h.used, h.linked, ?_⟩
        intro fn' hm
        rcases List.mem_or_eq_of_mem_set hm with hm | rfl
        · exact h.functions fn' hm
        · have hright := h.functions fn (List.mem_of_getElem? hfn)
          exact ⟨hright.code, hright.remembered, hright.outerFrame, hright.return_, hright.break_,
            hright.function⟩
      · exact h
    · exact h
  · exact h

theorem current_pass (s : State) (block : Option Nat) : (s.pass block).current = s.current := by
  unfold State.pass
  split
  · split
    · split <;> rfl
    · rfl
  · rfl

theorem Inv.exec (hK : Nested K) (h : Inv K s) {r : FrameRef} {rest : List FrameRef} {fn : Function}
    (hr : s.current.frames = r :: rest) (hc : r ≠ .c) (hfn : fn ∈ s.functions) :
    Inv K (s.exec fn) := by
  have hcaller : s.caller = r := by
    unfold State.caller
    rw [hr]
    rfl
  unfold State.exec
  rw [hcaller]
  exact h.enter hr fun a cells _ => (h.functions fn hfn).entered hK h hc _ a cells

theorem Inv.execNames (h : Inv K s) {r : FrameRef} {rest : List FrameRef} {code : Code}
    (hr : s.current.frames = r :: rest) (hc : r ≠ .c) (hcode : K code)
    (enclosing : List Activation) : Inv K (s.execNames code enclosing) := by
  have hcaller : s.caller = r := by
    unfold State.caller
    rw [hr]
    rfl
  unfold State.execNames
  rw [hcaller]
  exact h.enter hr fun a cells hcells => namesFrame_entered hcode hc enclosing _ a hcells

theorem count_put_le (max a : Nat) (l : List Nat) (b : Nat) :
    (put max a l).count b ≤ l.count b + [a].count b := by
  unfold put
  split
  · exact Nat.le_add_right _ _
  · rw [List.count_cons, List.count_cons, List.count_nil]
    omega

theorem mem_of_mem_put {max a b : Nat} {l : List Nat} (h : b ∈ put max a l) : b = a ∨ b ∈ l := by
  unfold put at h
  split at h
  · exact Or.inr h
  · exact List.mem_cons.1 h

theorem Inv.ret (h : Inv K s) {a : Nat} {f : FrameObj} {rest : List FrameRef}
    (hr : s.current.frames = .script a :: rest) (hf : s.heap a = some f) : Inv K (s.ret a f rest) := by
  have hsuffix : rest <:+ s.current.frames := by
    rw [hr]
    exact List.suffix_cons _ _
  unfold State.ret
  split
  · exact h.cut hsuffix
  · rename_i hu
    rw [Bool.not_eq_true] at hu
    have hun : ∀ g, s.heap a = some g → g.usedByFunc = false := by
      intro g hg
      rw [hf] at hg
      cases hg
      exact hu
    let t : State :=
      { s with
        current.frames := rest
        current.scriptFrames := put scriptFramesMax a s.current.scriptFrames }
    have hcount : ∀ b, s.addresses.count b = (s.cut rest).addresses.count b + [a].count b := by
      intro b
      simp only [State.addresses, State.chains, State.cut, State.keptFinish, State.kept, hr,
        chainAddresses, List.filterMap_cons, FrameRef.address?, List.flatMap_cons,
        List.count_append, List.count_cons, List.count_nil]
      omega
    obtain ⟨hmem, hfree⟩ := not_mem_of_count (s.cut rest).addresses h.nodup
      (by rw [hcount a, List.count_singleton_self])
    have ht : Inv K t := by
      refine h.rearrange rfl rfl le_rfl (fun b => ?_) (fun b hb => ?_) fun frames hc => ?_
      · have hput := count_put_le scriptFramesMax a s.current.scriptFrames b
        rw [hcount b]
        simp only [t, State.addresses, State.chains, State.cut, State.keptFinish, State.kept,
          List.flatMap_cons, List.count_append]
        omega
      · rcases List.mem_append.1 hb with hb | hb
        · rcases mem_of_mem_put hb with rfl | hb
          · exact hun
          · exact h.kept b (List.mem_append_left _ hb)
        · exact h.kept b (List.mem_append_right _ hb)
      · exact (h.cut hsuffix).linked frames hc
    refine ht.setFrame (h.bounded a hmem) (fun frames hc hm => ?_) hun hu
    exact hfree (mem_addresses_of_chain (s := s.cut rest) hc (mem_chainAddresses hm))

theorem Inv.finish (h : Inv K s) {a : Nat} {rest : List FrameRef}
    (hr : s.current.frames = .finish a :: rest) : Inv K (s.finish a rest) := by
  have hsuffix : rest <:+ s.current.frames := by
    rw [hr]
    exact List.suffix_cons _ _
  refine h.rearrange rfl rfl le_rfl (fun b => ?_) h.kept fun frames hc => ?_
  · have hput := count_put_le finishFramesMax a s.current.finishFrames b
    rw [List.count_cons, List.count_nil] at hput
    simp only [State.finish, State.addresses, State.chains, State.keptFinish, State.kept, hr,
      chainAddresses, List.filterMap_cons, FrameRef.address?, List.flatMap_cons,
      List.count_append, List.count_cons]
    omega
  · exact (h.cut hsuffix).linked frames hc

theorem Linked.append {frames rest : List FrameRef} (h : Linked K heap frames)
    (hrest : Linked K heap rest) : Linked K heap (frames ++ rest) := by
  induction frames with
  | nil => exact hrest
  | cons r frames ih =>
    cases r with
    | c => exact ih h
    | finish a => exact ih h
    | script a =>
      obtain ⟨⟨f, hf, hfr, hcaller, hright⟩, h⟩ := h
      refine ⟨⟨f, hf, hfr, ?_, hright⟩, ih h⟩
      rcases frames with _ | ⟨r', frames⟩
      · cases hcaller
      · exact hcaller

/-- Of a chain cut above a frame, the upper part is linked if its lowest frame is no script frame. -/
theorem Linked.above {frames rest : List FrameRef} (hlast : ∀ r ∈ frames.getLast?, ∀ a, r ≠ .script a)
    (h : Linked K heap (frames ++ rest)) : Linked K heap frames := by
  induction frames with
  | nil => trivial
  | cons r frames ih =>
    have hlast' : ∀ r ∈ frames.getLast?, ∀ a, r ≠ .script a := by
      intro r' hr'
      refine hlast r' ?_
      rw [List.getLast?_cons]
      rw [hr']
      rfl
    cases r with
    | c => exact ih hlast' h
    | finish a => exact ih hlast' h
    | script a =>
      obtain ⟨⟨f, hf, hfr, hcaller, hright⟩, h⟩ := h
      refine ⟨⟨f, hf, hfr, ?_, hright⟩, ih hlast' h⟩
      rcases frames with _ | ⟨r', frames⟩
      · exact absurd rfl (hlast (.script a) rfl a)
      · exact hcaller

theorem Inv.switch (h : Inv K s) {t : Thread} {before after : List Thread}
    (ho : s.others = before ++ t :: after) :
    Inv K { s with current := t, others := before ++ s.current :: after } := by
  refine h.rearrange rfl rfl le_rfl (fun a => ?_) (fun a ha => h.kept a ?_) fun frames hc => ?_
  · simp only [State.addresses, State.chains, State.keptFinish, State.kept, ho, List.map_append,
      List.map_cons, List.flatMap_cons, List.flatMap_append, List.count_append]
    omega
  · simp only [State.kept, ho, List.flatMap_append, List.flatMap_cons, List.mem_append] at ha ⊢
    tauto
  · refine h.linked frames ?_
    simp only [State.chains, ho, List.map_append, List.map_cons, List.mem_cons,
      List.mem_append] at hc ⊢
    tauto

theorem Inv.newThread (h : Inv K s) :
    Inv K { s with others := s.others ++ [⟨[], [], []⟩] } := by
  refine h.rearrange rfl rfl le_rfl (fun a => ?_) (fun a ha => h.kept a ?_) fun frames hc => ?_
  · simp only [State.addresses, State.chains, State.keptFinish, State.kept, List.map_append,
      List.map_cons, List.map_nil, List.flatMap_cons, List.flatMap_append, List.flatMap_nil,
      List.count_append, chainAddresses, List.filterMap_nil, List.count_nil]
    omega
  · simpa only [State.kept, List.flatMap_append, List.flatMap_cons, List.flatMap_nil,
      List.append_nil] using ha
  · rcases List.mem_cons.1 hc with rfl | hc
    · exact h.linked_current
    · simp only [List.map_append, List.map_cons, List.map_nil, List.mem_append,
        List.mem_singleton] at hc
      rcases hc with (hc | rfl) | hc
      · exact h.linked_tail (List.mem_append_left _ hc)
      · trivial
      · exact h.linked_tail (List.mem_append_right _ hc)

theorem Inv.resume (h : Inv K s) {rest frames : List FrameRef} {before after : List (List FrameRef)}
    (hr : s.current.frames = .c :: rest) (hs : s.suspended = before ++ frames :: after) :
    Inv K { s with current.frames := frames ++ .c :: rest, suspended := before ++ after } := by
  have hrest : Linked K s.heap (.c :: rest) := by
    rw [← hr]
    exact h.linked_current
  have hframes : Linked K s.heap frames :=
    h.linked_tail (List.mem_append_right _ (by rw [hs]; simp))
  refine h.rearrange rfl rfl le_rfl (fun a => ?_) h.kept fun frames' hc => ?_
  · simp only [State.addresses, State.chains, State.keptFinish, State.kept, hr, hs,
      chainAddresses, List.flatMap_cons, List.flatMap_append, List.filterMap_append,
      List.count_append]
    omega
  · rcases List.mem_cons.1 hc with rfl | hc
    · exact hframes.append hrest
    · refine h.linked_tail ?_
      rw [hs]
      simp only [List.mem_append, List.mem_cons] at hc ⊢
      tauto

theorem Inv.yield (h : Inv K s) {rest frames : List FrameRef}
    (hr : s.current.frames = frames ++ .c :: rest)
    (hlast : ∀ r ∈ frames.getLast?, ∀ a, r ≠ .script a) :
    Inv K { s with current.frames := .c :: rest, suspended := s.suspended ++ [frames] } := by
  have hall : Linked K s.heap (frames ++ .c :: rest) := by
    rw [← hr]
    exact h.linked_current
  refine h.rearrange rfl rfl le_rfl (fun a => ?_) h.kept fun frames' hc => ?_
  · simp only [State.addresses, State.chains, State.keptFinish, State.kept, hr,
      chainAddresses, List.flatMap_cons, List.flatMap_append, List.flatMap_nil,
      List.filterMap_append, List.count_append, List.count_nil]
    omega
  · rcases List.mem_cons.1 hc with rfl | hc
    · exact hall.suffix (List.suffix_append _ _)
    · rcases List.mem_append.1 hc with hc | hc
      · exact h.linked_tail (List.mem_append_left _ hc)
      · rcases List.mem_append.1 hc with hc | hc
        · exact h.linked_tail (List.mem_append_right _ hc)
        · rw [List.mem_singleton.1 hc]
          exact hall.above hlast

end State

section Runs

variable {packages : Code → Prop} {s s' : State}

theorem Inv.step (hK : Nested K) (hp : ∀ code, packages code → K code) (h : Inv K s)
    (hs : Step packages s s') : Inv K s' := by
  have hpass : ∀ block, (s.pass block).current.frames = s.current.frames := fun block => by
    rw [current_pass]
  cases hs with
  | switch ho => exact h.switch ho
  | newThread => exact h.newThread
  | makeFunction hr hf hc => exact h.makeFunction hK hr hf hc
  | makeBlock hr hf hc => exact h.makeBlock hK hr hf hc
  | exec block hr hc hfn => exact (h.pass block).exec hK ((hpass block).trans hr) hc hfn
  | execNative block => exact (h.pass block).push_c
  | makeClass hr hf hc =>
    exact h.execNames hr (by simp) (hK.const _ _ (h.top hr hf).2.code hc) _
  | evalPackage hr hc => exact h.execNames hr (by simp) (hp _ hc) _
  | pushFinish => exact h.pushFinishFrame
  | nativeReturn hr => exact h.cut (by rw [hr]; exact List.suffix_cons _ _)
  | ret hr hf => exact h.ret hr hf
  | finish hr => exact h.finish hr
  | unwind hs => exact h.cut hs
  | longReturn => exact h.cut (List.dropWhile_suffix _)
  | longBreak => exact h.cut (List.dropWhile_suffix _)
  | resume hr hs => exact h.resume hr hs
  | yield hr hlast => exact h.yield hr hlast

theorem inv_start : Inv K State.start where
  nodup := List.nodup_nil
  bounded := by
    intro a ha
    cases ha
  fresh := fun _ _ => rfl
  kept := by
    intro a ha
    cases ha
  used := by
    intro a f hf
    cases hf
  linked := by
    intro frames hc
    rw [List.mem_singleton.1 hc]
    trivial
  functions := by
    intro fn hfn
    cases hfn

/-- In every run objects are used as they should be. -/
theorem inv_of_run (hK : Nested K) (hp : ∀ code, packages code → K code)
    (h : Relation.ReflTransGen (Step packages) State.start s) : Inv K s := by
  induction h with
  | refl => exact inv_start
  | tail _ hs ih => exact ih.step hK hp hs

end Runs

end Yog.Vm
