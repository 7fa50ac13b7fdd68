import Mathlib.Data.List.Basic
import Mathlib.Data.List.Nodup
import Mathlib.Order.Basic

/-!
# Depths of an operand stack

A list of elements that pop and push operands, fall through to the next element or jump to an
element marked with a label. An assignment of depths to the labels gives every element a depth it
starts and one it ends at, or not: `Typed` is that check, one element after another.

A part of a list that is typed from depth 0 and jumps only inside itself is a region. A run that
enters a region leaves what it finds on the stack untouched, and it only leaves at the region's end
(`Region.run_inside`).
-/

/-- Elements over labels `κ`: what they mark, where they may jump, whether they fall through, how
many operands they pop and push, and the depth that some are to be met at. -/
structure StackCode (ι κ : Type) where
  label? : ι → Option κ
  dest? : ι → Option κ
  falls : ι → Bool
  pops : ι → Nat
  pushes : ι → Nat
  depth? : ι → Option Nat

namespace StackCode

variable {ι κ : Type} (M : StackCode ι κ)

/-- The labels a list marks, in order. -/
def labels (l : List ι) : List κ := l.filterMap M.label?

/-- Where a list may jump. -/
def dests (l : List ι) : List κ := l.filterMap M.dest?

@[simp]
theorem labels_append (l₁ l₂ : List ι) : M.labels (l₁ ++ l₂) = M.labels l₁ ++ M.labels l₂ := by
  simp [labels]

@[simp]
theorem dests_append (l₁ l₂ : List ι) : M.dests (l₁ ++ l₂) = M.dests l₁ ++ M.dests l₂ := by
  simp [dests]

variable (env : κ → Nat)

/-- One element takes the stack from depth `d` to `d'`. Nothing follows an element that does not
fall through, so the depth after it is free up to what it leaves. -/
structure Local (i : ι) (d d' : Nat) : Prop where
  label : ∀ L, M.label? i = some L → env L = d
  pops : M.pops i ≤ d
  dest : ∀ L, M.dest? i = some L → env L + M.pops i = d + M.pushes i
  falls : M.falls i = true → d' + M.pops i = d + M.pushes i
  le : d' + M.pops i ≤ d + M.pushes i
  depth : ∀ n, M.depth? i = some n → d = n

/-- A list takes the stack from one depth to another. -/
def Typed : List ι → Nat → Nat → Prop
  | [], d, e => d = e
  | i :: l, d, e => ∃ d', M.Local env i d d' ∧ Typed l d' e

/-- Depths at each place of a list. -/
def Depths (l : List ι) (D : Nat → Nat) : Prop :=
  ∀ j i, l[j]? = some i → M.Local env i (D j) (D (j + 1))

variable {M env}

theorem Typed.append : ∀ {l₁ l₂ : List ι} {a b c : Nat}, M.Typed env l₁ a b →
    M.Typed env l₂ b c → M.Typed env (l₁ ++ l₂) a c
  | [], _, _, _, _, h₁, h₂ => by
    cases h₁
    exact h₂
  | _ :: _, _, _, _, _, ⟨d', hl, h₁⟩, h₂ => ⟨d', hl, Typed.append h₁ h₂⟩

theorem Typed.exists_depths : ∀ {l : List ι} {a b : Nat}, M.Typed env l a b →
    ∃ D, D 0 = a ∧ D l.length = b ∧ M.Depths env l D
  | [], a, b, h => ⟨fun _ => a, rfl, h, fun j i hi => by simp at hi⟩
  | i :: l, a, b, ⟨d', hl, h⟩ => by
    obtain ⟨D, h₀, hn, hD⟩ := Typed.exists_depths h
    refine ⟨fun j => j.casesOn a D, rfl, hn, fun j i' hi => ?_⟩
    cases j with
    | zero =>
      simp only [List.getElem?_cons_zero, Option.some.injEq] at hi
      subst hi
      change M.Local env i a (D 0)
      rwa [h₀]
    | succ j => exact hD j i' hi

structure Config (V : Type) where
  pos : Nat
  stack : List V

section Machine

variable {V : Type} (M) (leaves : ι → List V → List V → Prop) (list : List ι)

/-- One element is executed: it pops its operands and leaves others, the topmost first. -/
inductive Step : Config V → Config V → Prop where
  | next {pos i popped pushed rest} : list[pos]? = some i → popped.length = M.pops i →
      leaves i popped pushed → M.falls i = true →
      Step ⟨pos, popped ++ rest⟩ ⟨pos + 1, pushed ++ rest⟩
  | jump {pos i popped pushed rest L dest x} : list[pos]? = some i → popped.length = M.pops i →
      leaves i popped pushed → M.dest? i = some L → list[dest]? = some x → M.label? x = some L →
      Step ⟨pos, popped ++ rest⟩ ⟨dest, pushed ++ rest⟩

/-- A run, with the places it executes on its way. -/
inductive Run : Config V → List Nat → Config V → Prop where
  | refl {c} : Run c [] c
  | step {c c' c'' ps} : M.Step leaves list c c' → Run c' ps c'' → Run c (c.pos :: ps) c''

variable {M leaves list}

theorem Run.trans {c c' c'' : Config V} {ps qs : List Nat} (h₁ : M.Run leaves list c ps c')
    (h₂ : M.Run leaves list c' qs c'') : M.Run leaves list c (ps ++ qs) c'' := by
  induction h₁ with
  | refl => exact h₂
  | step hs _ ih => exact .step hs (ih h₂)

end Machine

/-- A step leads to another place of the list, and the depths are those of the stack, on whatever
lies below. -/
theorem Depths.step {V : Type} {leaves : ι → List V → List V → Prop} {l : List ι} {D : Nat → Nat}
    (hD : M.Depths env l D)
    (hleaves : ∀ i popped pushed, leaves i popped pushed → pushed.length = M.pushes i)
    {n : Nat} {c c' : Config V} (hs : M.Step leaves l c c') (hc : c.stack.length = D c.pos + n) :
    c'.pos ≤ l.length ∧ c'.stack.length = D c'.pos + n := by
  cases hs with
  | next hi hp hlv hf =>
    have hlocal := hD _ _ hi
    have hpops := hlocal.pops
    have hd := hlocal.falls hf
    have hpushed := hleaves _ _ _ hlv
    refine ⟨(List.getElem?_eq_some_iff.1 hi).1, ?_⟩
    simp only [List.length_append] at hc ⊢
    omega
  | jump hi hp hlv hdest hto hL =>
    have hlocal := hD _ _ hi
    have hpops := hlocal.pops
    have hd := hlocal.dest _ hdest
    have henv := (hD _ _ hto).label _ hL
    have hpushed := hleaves _ _ _ hlv
    refine ⟨Nat.le_of_lt (List.getElem?_eq_some_iff.1 hto).1, ?_⟩
    simp only [List.length_append] at hc ⊢
    omega

theorem Depths.run {V : Type} {leaves : ι → List V → List V → Prop} {l : List ι} {D : Nat → Nat}
    (hD : M.Depths env l D)
    (hleaves : ∀ i popped pushed, leaves i popped pushed → pushed.length = M.pushes i)
    {c c' : Config V} {ps : List Nat} (hr : M.Run leaves l c ps c') (hp : c.pos ≤ l.length)
    (hc : c.stack.length = D c.pos) : c'.pos ≤ l.length ∧ c'.stack.length = D c'.pos := by
  induction hr with
  | refl => exact ⟨hp, hc⟩
  | step hs _ ih =>
    obtain ⟨hp, hc⟩ := hD.step (n := 0) hleaves hs hc
    exact ih hp hc

/-- A label is marked at one place. -/
theorem label_unique {l : List ι} (h : (M.labels l).Nodup) {j k : Nat} {x y : ι} {L : κ}
    (hj : l[j]? = some x) (hx : M.label? x = some L) (hk : l[k]? = some y)
    (hy : M.label? y = some L) : j = k := by
  have hp : l.Pairwise fun a b => ∀ L ∈ M.label? a, ∀ L' ∈ M.label? b, L ≠ L' :=
    List.pairwise_filterMap.1 h
  rw [List.pairwise_iff_getElem] at hp
  obtain ⟨hj', rfl⟩ := List.getElem?_eq_some_iff.1 hj
  obtain ⟨hk', rfl⟩ := List.getElem?_eq_some_iff.1 hk
  rcases Nat.lt_trichotomy j k with hlt | rfl | hlt
  · exact absurd rfl (hp j k hj' hk' hlt L hx L hy)
  · rfl
  · exact absurd rfl (hp k j hk' hj' hlt L hy L hx)

/-- A part of a list that jumps only inside itself. -/
structure Region (M : StackCode ι κ) (list before l after : List ι) : Prop where
  eq : list = before ++ l ++ after
  nodup : (M.labels list).Nodup
  closed : ∀ L ∈ M.dests l, L ∈ M.labels l

namespace Region

variable {V : Type} {leaves : ι → List V → List V → Prop} {list before l after : List ι}
  {D : Nat → Nat}

theorem getElem? (h : Region M list before l after) {j : Nat} (hj : j < l.length) :
    list[before.length + j]? = l[j]? := by
  rw [h.eq, List.append_assoc, List.getElem?_append_right (by omega),
    List.getElem?_append_left (by omega)]
  congr 1
  omega

/-- The place of a label of the region. -/
theorem exists_place (h : Region M list before l after) {L : κ} (hL : L ∈ M.labels l)
    {dest : Nat} {x : ι} (hd : list[dest]? = some x) (hx : M.label? x = some L) :
    ∃ j, dest = before.length + j ∧ l[j]? = some x := by
  obtain ⟨y, hy, hyL⟩ := List.mem_filterMap.1 hL
  obtain ⟨j, hj, rfl⟩ := List.mem_iff_getElem.1 hy
  have hy' : list[before.length + j]? = some l[j] := by
    rw [h.getElem? hj, List.getElem?_eq_getElem hj]
  have hdest := label_unique h.nodup hd hx hy' hyL
  refine ⟨j, hdest, ?_⟩
  rw [← h.getElem? hj, ← hdest, hd]

/-- The place `p` is in the region. -/
def Inside (before l : List ι) (p : Nat) : Prop :=
  before.length ≤ p ∧ p < before.length + l.length

/-- The stack is what it was at the region's start with `n` operands on it. -/
def Above (base : List V) (n : Nat) (stack : List V) : Prop :=
  ∃ own, stack = own ++ base ∧ own.length = n

/-- A step from inside the region leads into it or to its end. -/
theorem step_pos (h : Region M list before l after) {j : Nat} (hj : j < l.length)
    {c c' : Config V} (hc : c.pos = before.length + j) (hs : M.Step leaves list c c') :
    ∃ k ≤ l.length, c'.pos = before.length + k := by
  have hget : list[c.pos]? = some l[j] := by
    rw [hc, h.getElem? hj, List.getElem?_eq_getElem hj]
  cases hs with
  | next hi hp hlv hf => exact ⟨j + 1, hj, by simp only at hc ⊢; omega⟩
  | @jump pos i popped pushed rest L dest x hi hp hlv hd hdest hx =>
    simp only at hget
    rw [hget, Option.some.injEq] at hi
    subst hi
    have hL : L ∈ M.labels l := h.closed L (List.mem_filterMap.2 ⟨l[j], List.getElem_mem hj, hd⟩)
    obtain ⟨k, rfl, hk⟩ := h.exists_place hL hdest hx
    exact ⟨k, Nat.le_of_lt (List.getElem?_eq_some_iff.1 hk).1, rfl⟩

/-- What is popped inside the region is the region's own. -/
theorem split_own {base own popped rest : List V} (heq : popped ++ rest = own ++ base)
    (hle : popped.length ≤ own.length) : ∃ own', own = popped ++ own' ∧ rest = own' ++ base := by
  rcases List.append_eq_append_iff.1 heq with ⟨own', h₁, h₂⟩ | ⟨extra, h₁, h₂⟩
  · exact ⟨own', h₁, h₂⟩
  · have hnil : extra = [] := by
      have := congrArg List.length h₁
      rw [List.length_append] at this
      exact List.length_eq_zero_iff.1 (by omega)
    subst hnil
    exact ⟨[], by simpa using h₁.symm, by simpa using h₂.symm⟩

/-- The depths of the region are those of the stack in it. -/
theorem step_stack (h : Region M list before l after)
    (hleaves : ∀ i popped pushed, leaves i popped pushed → pushed.length = M.pushes i)
    (hD : M.Depths env l D) {base : List V} {j k : Nat} (hj : j < l.length) {c c' : Config V}
    (hc : c.pos = before.length + j) (hstack : Above base (D j) c.stack)
    (hs : M.Step leaves list c c') (hk : c'.pos = before.length + k) :
    Above base (D k) c'.stack := by
  obtain ⟨own, hstack, hown⟩ := hstack
  have hget : list[c.pos]? = some l[j] := by
    rw [hc, h.getElem? hj, List.getElem?_eq_getElem hj]
  have hlocal := hD j l[j] (List.getElem?_eq_getElem hj)
  have hpops := hlocal.pops
  cases hs with
  | @next pos i popped pushed rest hi hp hlv hf =>
    simp only at hget hstack hc hk ⊢
    rw [hget, Option.some.injEq] at hi
    subst hi
    obtain ⟨own', rfl, rfl⟩ := split_own hstack (by omega)
    have hkj : k = j + 1 := by omega
    have hd := hlocal.falls hf
    have hpushed := hleaves _ _ _ hlv
    refine ⟨pushed ++ own', by simp, ?_⟩
    simp only [List.length_append] at hown ⊢
    subst hkj
    omega
  | @jump pos i popped pushed rest L dest x hi hp hlv hd hdest hx =>
    simp only at hget hstack hc hk ⊢
    rw [hget, Option.some.injEq] at hi
    subst hi
    obtain ⟨own', rfl, rfl⟩ := split_own hstack (by omega)
    have hL : L ∈ M.labels l := h.closed L (List.mem_filterMap.2 ⟨l[j], List.getElem_mem hj, hd⟩)
    obtain ⟨m, hm, hx'⟩ := h.exists_place hL hdest hx
    have hkm : k = m := by omega
    subst hkm
    have henv := (hD k x hx').label L hx
    have hto := hlocal.dest L hd
    have hpushed := hleaves _ _ _ hlv
    refine ⟨pushed ++ own', by simp, ?_⟩
    simp only [List.length_append] at hown ⊢
    omega

/-- A run from inside the region stays there, or it comes to the region's end and goes on from
there. -/
theorem run_inside (h : Region M list before l after) {c c' : Config V} {ps : List Nat}
    (hr : M.Run leaves list c ps c') :
    ∀ j ≤ l.length, c.pos = before.length + j →
      (Inside before l c'.pos ∧ ∀ p ∈ ps, Inside before l p)
      ∨ ∃ qs rs stack, ps = qs ++ rs ∧ (∀ p ∈ qs, Inside before l p)
          ∧ M.Run leaves list c qs ⟨before.length + l.length, stack⟩
          ∧ M.Run leaves list ⟨before.length + l.length, stack⟩ rs c' := by
  induction hr with
  | @refl c =>
    intro j hj hc
    rcases Nat.lt_or_eq_of_le hj with hlt | rfl
    · exact .inl ⟨⟨by omega, by omega⟩, by simp⟩
    · obtain ⟨pos, stack⟩ := c
      simp only at hc
      subst hc
      exact .inr ⟨[], [], stack, rfl, by simp, .refl, .refl⟩
  | @step c c' c'' ps hs hr ih =>
    intro j hj hc
    rcases Nat.lt_or_eq_of_le hj with hlt | rfl
    · have hin : Inside before l c.pos := ⟨by omega, by omega⟩
      obtain ⟨k, hk, hc'⟩ := h.step_pos hlt hc hs
      rcases ih k hk hc' with ⟨hc'', hps⟩ | ⟨qs, rs, stack, rfl, hqs, h₁, h₂⟩
      · exact .inl ⟨hc'', List.forall_mem_cons.2 ⟨hin, hps⟩⟩
      · exact .inr ⟨c.pos :: qs, rs, stack, rfl, List.forall_mem_cons.2 ⟨hin, hqs⟩, .step hs h₁,
          h₂⟩
    · obtain ⟨pos, stack⟩ := c
      simp only at hc
      subst hc
      exact .inr ⟨[], (before.length + l.length) :: ps, stack, rfl, by simp, .refl, .step hs hr⟩

/-- The stack on a run whose places are all in the region. -/
theorem run_stack (h : Region M list before l after)
    (hleaves : ∀ i popped pushed, leaves i popped pushed → pushed.length = M.pushes i)
    (hD : M.Depths env l D) {base : List V} {c c' : Config V} {ps : List Nat}
    (hr : M.Run leaves list c ps c') :
    ∀ j k, (∀ p ∈ ps, Inside before l p) → c.pos = before.length + j →
      Above base (D j) c.stack → c'.pos = before.length + k → Above base (D k) c'.stack := by
  induction hr with
  | refl =>
    intro j k _ hj hstack hk
    rwa [show k = j by omega]
  | @step c c' c'' ps hs hr ih =>
    intro j k hps hj hstack hk
    obtain ⟨⟨-, hlt⟩, hps⟩ := List.forall_mem_cons.1 hps
    have hlt : j < l.length := by omega
    obtain ⟨m, -, hm⟩ := h.step_pos hlt hj hs
    exact ih m k hps hm (h.step_stack hleaves hD hlt hj hstack hs hm) hk

end Region

end StackCode
