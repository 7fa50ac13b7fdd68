import Yog.Handle
import Mathlib.Data.List.Nodup
import Mathlib.Data.List.Perm.Basic
import Mathlib.Data.List.Range

/-!
# The scopes of an environment

The blocks of an environment are cut into the stretches of its scopes, the oldest first, and every
scope has filled its stretch up to its position (`Fill`, `Holds`). Opening, closing and registering
keep that, and what the collector visits is what was registered, a handle at a time.
-/

namespace Yog

namespace Handle

variable {V : Type}

theorem mem_block {i : ℕ} {p : Ptr} : p ∈ block i ↔ p.block = i ∧ p.off < handlesSize := by
  obtain ⟨b, o⟩ := p
  simp [block, and_comm, eq_comm]

theorem nodup_block (i : ℕ) : (block i).Nodup :=
  List.nodup_range.map fun _ _ h => by simpa using h

/-- The handles of a stretch of full blocks. -/
theorem mem_blocks {e n : ℕ} {p : Ptr} :
    p ∈ (List.range' e n).flatMap block
      ↔ (e ≤ p.block ∧ p.block < e + n) ∧ p.off < handlesSize := by
  simp [mem_block]

theorem nodup_blocks (e n : ℕ) : ((List.range' e n).flatMap block).Nodup := by
  refine List.nodup_flatMap.2 ⟨fun i _ => nodup_block i, ?_⟩
  refine List.Pairwise.imp ?_ List.nodup_range'
  intro i j hij p hi hj
  exact hij ((mem_block.1 hi).1.symm.trans (mem_block.1 hj).1)

/-- A scope has filled its blocks, `e` the first, up to its position. -/
inductive Fill (e : ℕ) : ℕ → Option Ptr → Option Ptr → List Ptr → Prop
  | empty : Fill e 0 none none []
  | filled {u o : ℕ} : o ≤ handlesSize →
    Fill e (u + 1) (some ⟨e + u, o⟩) (some ⟨e + u, handlesSize⟩)
      ((List.range' e u).flatMap block ++ (List.range o).map fun off => ⟨e + u, off⟩)

/-- The stretches of the scopes, the innermost scope first, with what they have. -/
inductive Holds : List Scope → ℕ → List (List Ptr) → Prop
  | nil : Holds [] 0 []
  | cons {s : Scope} {rest : List Scope} {e : ℕ} {l : List Ptr} {ls : List (List Ptr)} :
    Fill e s.usedNum s.pos s.last l → Holds rest e ls → Holds (s :: rest) (e + s.usedNum) (l :: ls)

section Fill

variable {e u : ℕ} {pos last : Option Ptr} {l : List Ptr}

theorem Fill.mem (h : Fill e u pos last l) {p : Ptr} (hp : p ∈ l) :
    e ≤ p.block ∧ p.block < e + u ∧ p.off < handlesSize := by
  rcases h with _ | ⟨ho⟩
  · simp at hp
  · rcases List.mem_append.1 hp with hp | hp
    · have := mem_blocks.1 hp
      omega
    · obtain ⟨off, hoff, rfl⟩ := List.mem_map.1 hp
      have := List.mem_range.1 hoff
      exact ⟨by simp, by simp, by simp; omega⟩

theorem Fill.nodup (h : Fill e u pos last l) : l.Nodup := by
  rcases h with _ | ⟨ho⟩
  · simp
  · refine List.nodup_append'.2 ⟨nodup_blocks _ _, ?_, ?_⟩
    · exact List.nodup_range.map fun _ _ h => by simpa using h
    · intro p hp hq
      obtain ⟨off, _, rfl⟩ := List.mem_map.1 hq
      have := (mem_blocks.1 hp).1
      simp at this

/-- A scope whose block is full, or that has none, takes the next. -/
theorem Fill.next (h : Fill e u pos last l) (heq : last = pos) :
    Fill e (u + 1) (some ⟨e + u, 0⟩) (some ⟨e + u, handlesSize⟩) l := by
  rcases h with _ | ⟨ho⟩
  · simpa using Fill.filled (e := e) (u := 0) (Nat.zero_le handlesSize)
  · rename_i u o
    obtain rfl : handlesSize = o := by simpa using heq
    have h := Fill.filled (e := e) (u := u + 1) (Nat.zero_le handlesSize)
    have hl : (List.range' e (u + 1)).flatMap block
        = (List.range' e u).flatMap block
          ++ (List.range handlesSize).map fun off => ⟨e + u, off⟩ := by
      simp [List.range'_concat, block]
    simpa [hl] using h

theorem Fill.exists_pos (h : Fill e u pos last l) (hne : last ≠ pos) : ∃ p, pos = some p := by
  rcases h with _ | ⟨ho⟩
  · exact absurd rfl hne
  · exact ⟨_, rfl⟩

/-- The next handle is one that the scope did not have. -/
theorem Fill.push {p : Ptr} (h : Fill e u (some p) last l) (hne : last ≠ some p) :
    Fill e u (some ⟨p.block, p.off + 1⟩) last (l ++ [p]) ∧ e ≤ p.block ∧ p.block < e + u
      ∧ p.off < handlesSize := by
  rcases h with _ | ⟨ho⟩
  rename_i u o
  have hlt : o < handlesSize := by
    refine lt_of_le_of_ne ho ?_
    intro h
    exact hne (by rw [h])
  refine ⟨?_, by simp, by simp, hlt⟩
  have h := Fill.filled (e := e) (u := u) (show o + 1 ≤ handlesSize from hlt)
  simpa [List.range_succ] using h

/-- The collector goes through a scope from its position down. -/
theorem Fill.visits (h : Fill e u pos last l) :
    ∃ l', keepScope1 pos (e + u) = .ok l' ∧ (l' ++ keepScope2 e (e + u)).Perm l := by
  rcases h with _ | ⟨ho⟩
  · exact ⟨[], rfl, by simp [keepScope2]⟩
  · rename_i u o
    refine ⟨(List.range o).map fun off => ⟨e + u, off⟩, by simp [keepScope1, Nat.add_assoc], ?_⟩
    have hnum : e + (u + 1) - 1 - e = u := by omega
    rw [keepScope2, hnum]
    refine List.perm_append_comm.trans (List.Perm.append_right _ ?_)
    exact (List.reverse_perm _).flatMap_right _

end Fill

section Holds

variable {scopes : List Scope} {n : ℕ} {ls : List (List Ptr)}

theorem Holds.mem (h : Holds scopes n ls) {p : Ptr} (hp : p ∈ ls.flatten) :
    p.block < n ∧ p.off < handlesSize := by
  induction h with
  | nil => simp at hp
  | cons hf _ ih =>
    rw [List.flatten_cons, List.mem_append] at hp
    rcases hp with hp | hp
    · exact (hf.mem hp).2
    · exact ⟨(ih hp).1.trans_le (Nat.le_add_right _ _), (ih hp).2⟩

theorem Holds.nodup (h : Holds scopes n ls) : ls.flatten.Nodup := by
  induction h with
  | nil => simp
  | cons hf h ih =>
    rw [List.flatten_cons]
    refine List.nodup_append'.2 ⟨hf.nodup, ih, ?_⟩
    intro p hp hq
    have h₁ := (hf.mem hp).1
    have h₂ := (h.mem hq).1
    omega

theorem Holds.uncons {s : Scope} (h : Holds (s :: scopes) n ls) :
    ∃ e l ls', n = e + s.usedNum ∧ ls = l :: ls' ∧ Fill e s.usedNum s.pos s.last l
      ∧ Holds scopes e ls' := by
  rcases h with _ | ⟨hf, hr⟩
  exact ⟨_, _, _, rfl, rfl, hf, hr⟩

theorem Holds.length_eq (h : Holds scopes n ls) : ls.length = scopes.length := by
  induction h with
  | nil => rfl
  | cons _ _ ih => simp [ih]

/-- `keep_handles` visits what the scopes have. -/
theorem Holds.visits (h : Holds scopes n ls) :
    ∃ l, keepScopes scopes n = .ok l ∧ l.Perm ls.flatten := by
  induction h with
  | nil => exact ⟨[], rfl, by simp⟩
  | @cons s rest e l ls hf _ ih =>
    obtain ⟨l₁, h₁, hp₁⟩ := hf.visits
    obtain ⟨l₂, h₂, hp₂⟩ := ih
    refine ⟨l₁ ++ keepScope2 e (e + s.usedNum) ++ l₂, ?_, hp₁.append hp₂⟩
    simp [keepScopes, h₁, h₂, bind, Except.bind, pure, Except.pure]

end Holds

namespace Handles

variable {h : Handles V} {p q : Ptr} {val : V}

/-- The blocks are whole, and those in use are there. -/
structure Sound (h : Handles V) : Prop where
  alloc : h.ptr.length = h.allocNum
  used : h.usedNum ≤ h.allocNum
  full : ∀ b ∈ h.ptr, b.length = handlesSize

theorem sound_init : (init : Handles V).Sound := ⟨rfl, le_rfl, by simp [init]⟩

theorem Sound.write (hs : h.Sound) : (h.write p val).Sound := by
  refine ⟨by simpa [Handles.write] using hs.alloc, hs.used, ?_⟩
  intro b hb
  obtain ⟨i, hi, rfl⟩ := List.getElem_of_mem hb
  have hi' : i < h.ptr.length := by simpa [Handles.write] using hi
  have hfull := hs.full _ (List.getElem_mem hi')
  simp only [Handles.write, List.getElem_modify]
  split
  · simpa using hfull
  · exact hfull

theorem read_write_self (hs : h.Sound) (hb : p.block < h.allocNum) (ho : p.off < handlesSize) :
    (h.write p val).read p = some val := by
  have hlt : p.block < h.ptr.length := hs.alloc ▸ hb
  have hlen := hs.full _ (List.getElem_mem hlt)
  simp [read, write, List.getElem?_eq_getElem hlt, hlen, ho]

theorem read_write_of_ne (hne : q ≠ p) : (h.write p val).read q = h.read q := by
  obtain ⟨b, o⟩ := p
  obtain ⟨b', o'⟩ := q
  simp only [read, write, List.getElem?_modify]
  by_cases hb : b = b'
  · subst hb
    have ho : o ≠ o' := by
      rintro rfl
      exact hne rfl
    rcases h.ptr[b]? with _ | block
    · rfl
    · simp [List.getElem?_set_ne ho]
  · simp [hb]

theorem Sound.allocHandles (hs : h.Sound) : h.allocHandles.Sound := by
  refine ⟨by simp [Handles.allocHandles, hs.alloc], hs.used.trans (Nat.le_succ _), ?_⟩
  intro b hb
  rcases List.mem_append.1 hb with hb | hb
  · exact hs.full b hb
  · rw [List.mem_singleton.1 hb, List.length_replicate]

theorem read_allocHandles (hs : h.Sound) (hb : p.block < h.allocNum) :
    h.allocHandles.read p = h.read p := by
  have hlt : p.block < h.ptr.length := hs.alloc ▸ hb
  simp [read, allocHandles, List.getElem?_append_left hlt]

/-- A block for the innermost scope. -/
theorem getHandles_ok (hs : h.Sound) {s : Scope} {rest : List Scope}
    (hscope : h.scope = s :: rest) :
    ∃ h', h.getHandles = .ok h' ∧ h'.Sound ∧ h'.usedNum = h.usedNum + 1
      ∧ h'.scope = { s with usedNum := s.usedNum + 1 } :: rest
      ∧ ∀ p : Ptr, p.block < h.usedNum → h'.read p = h.read p := by
  by_cases hle : h.allocNum ≤ h.usedNum
  · have ha := hs.allocHandles
    refine ⟨{ h.allocHandles with
      usedNum := h.usedNum + 1
      scope := { s with usedNum := s.usedNum + 1 } :: rest }, ?_, ?_, rfl, rfl, ?_⟩
    · simp [getHandles, hle, hscope, Handles.allocHandles]
    · exact ⟨ha.alloc, by simpa [Handles.allocHandles] using hs.used, ha.full⟩
    · intro p hp
      exact read_allocHandles hs (hp.trans_le hs.used)
  · refine ⟨{ h with
      usedNum := h.usedNum + 1
      scope := { s with usedNum := s.usedNum + 1 } :: rest }, ?_, ?_, rfl, rfl, fun _ _ => rfl⟩
    · simp [getHandles, hle, hscope]
    · exact ⟨hs.alloc, Nat.succ_le_of_lt (not_le.1 hle), hs.full⟩

/-- `keep_handle` of all that is visited, each once. -/
theorem keepHandle_all (keeper : V → V) {l : List Ptr} (hl : l.Nodup) (hs : h.Sound)
    (hread : ∀ p ∈ l, ∃ val, h.read p = some val)
    (hmem : ∀ p ∈ l, p.block < h.allocNum ∧ p.off < handlesSize) :
    ∃ h', l.foldlM (keepHandle keeper) h = .ok h' ∧ h'.Sound ∧ h'.usedNum = h.usedNum
      ∧ h'.scope = h.scope ∧ (∀ p ∈ l, h'.read p = (h.read p).map keeper)
      ∧ ∀ p, p ∉ l → h'.read p = h.read p := by
  induction l generalizing h with
  | nil => exact ⟨h, rfl, hs, rfl, rfl, by simp, fun _ _ => rfl⟩
  | cons p l ih =>
    obtain ⟨hp, hl⟩ := List.nodup_cons.1 hl
    obtain ⟨val, hval⟩ := hread p (by simp)
    have hself : (h.write p (keeper val)).read p = some (keeper val) :=
      read_write_self hs (hmem p (by simp)).1 (hmem p (by simp)).2
    have hother : ∀ q, q ≠ p → (h.write p (keeper val)).read q = h.read q := fun q hq =>
      read_write_of_ne hq
    have hread' : ∀ q ∈ l, ∃ val', (h.write p (keeper val)).read q = some val' := by
      intro q hq
      rw [hother q (fun h => hp (h ▸ hq))]
      exact hread q (by simp [hq])
    obtain ⟨h', hfold, hs', hused, hscope, hin, hout⟩ :=
      ih hl hs.write hread' fun q hq => hmem q (by simp [hq])
    refine ⟨h', ?_, hs', hused, hscope, ?_, ?_⟩
    · rw [List.foldlM_cons, keepHandle, hval]
      exact hfold
    · intro q hq
      rcases List.mem_cons.1 hq with rfl | hq
      · rw [hout q hp, hself, hval]
        rfl
      · rw [hin q hq, hother q (fun h => hp (h ▸ hq))]
    · intro q hq
      obtain ⟨hne, hq⟩ := not_or.1 (List.mem_cons.not.1 hq)
      rw [hout q hq, hother q hne]

end Handles

namespace Env

variable {env : Env V} {regs : List (List (Ptr × V))}

/-- The scopes of the environment, the innermost as the environment says. -/
def scopes (env : Env V) : List Scope := env.syncScope.handles.scope

/-- The pointers of what was registered. -/
def ptrs (regs : List (List (Ptr × V))) : List (List Ptr) := regs.map fun l => l.map Prod.fst

/-- The environment has what was registered in its open scopes. -/
structure Has (env : Env V) (regs : List (List (Ptr × V))) : Prop where
  sound : env.handles.Sound
  holds : Holds env.scopes env.handles.usedNum (ptrs regs)
  read : ∀ r ∈ regs.flatten, env.handles.read r.1 = some r.2
  nodup : env.chain.Nodup

theorem syncScope_eq (env : Env V) :
    env.syncScope = { env with handles := { env.handles with scope := env.scopes } } := by
  unfold scopes syncScope
  rcases h : env.handles.scope with _ | ⟨s, rest⟩ <;> simp

theorem scopes_nil (h : env.handles.scope = []) : env.scopes = [] := by
  simp [scopes, syncScope, h]

theorem scopes_cons {s : Scope} {rest : List Scope} (h : env.handles.scope = s :: rest) :
    env.scopes = { s with pos := env.pos, last := env.last } :: rest := by
  simp [scopes, syncScope, h]

theorem scopes_map_address (env : Env V) : env.scopes.map (·.address) = env.chain := by
  rcases h : env.handles.scope with _ | ⟨s, rest⟩
  · simp [scopes_nil h, chain, h]
  · simp [scopes_cons h, chain, h]

theorem scopes_syncScope (env : Env V) : env.syncScope.scopes = env.scopes := by
  rcases h : env.handles.scope with _ | ⟨s, rest⟩
  · simp [syncScope, h]
  · rw [scopes_cons h]
    simp [scopes, syncScope, h]

theorem syncScope_syncScope (env : Env V) : env.syncScope.syncScope = env.syncScope := by
  rw [syncScope_eq env.syncScope, scopes_syncScope, syncScope_eq]

theorem chain_syncScope (env : Env V) : env.syncScope.chain = env.chain := by
  rw [← scopes_map_address, scopes_syncScope, scopes_map_address]

/-- What its handles are is nothing to a scope. -/
theorem syncScope_change (h : env.syncScope = env) {handles : Handles V}
    (hscope : handles.scope = env.handles.scope) :
    ({ env with handles } : Env V).syncScope = { env with handles } := by
  obtain ⟨⟨ptr, num, usedNum, allocNum, scope⟩, pos, last⟩ := env
  obtain ⟨ptr', num', usedNum', allocNum', scope'⟩ := handles
  obtain rfl : scope' = scope := hscope
  rcases scope' with _ | ⟨s, rest⟩
  · rfl
  · have hs : (⟨s.address, s.usedNum, pos, last⟩ : Scope) = s := by
      simpa [syncScope] using h
    simp [syncScope, hs]

theorem flatten_ptrs (regs : List (List (Ptr × V))) :
    (ptrs regs).flatten = regs.flatten.map Prod.fst := by
  simp [ptrs, List.map_flatten]

/-- What a registered handle is becomes something else. -/
theorem ptrs_map {f : Ptr × V → Ptr × V} (hf : ∀ r, (f r).1 = r.1) :
    ptrs (regs.map fun l => l.map f) = ptrs regs := by
  simp [ptrs, Function.comp_def, hf]

theorem has_init : (init : Env V).Has [] :=
  ⟨Handles.sound_init, by rw [scopes_nil rfl]; exact .nil, by simp,
    by simp [chain, init, Handles.init]⟩

theorem Has.nodup_ptrs (h : env.Has regs) : (regs.flatten.map Prod.fst).Nodup := by
  rw [← flatten_ptrs]
  exact h.holds.nodup

theorem Has.mem (h : env.Has regs) {r : Ptr × V} (hr : r ∈ regs.flatten) :
    r.1.block < env.handles.usedNum ∧ r.1.off < handlesSize := by
  refine h.holds.mem ?_
  rw [flatten_ptrs]
  exact List.mem_map_of_mem hr

theorem Has.length_eq (h : env.Has regs) : regs.length = env.chain.length := by
  have := h.holds.length_eq
  rw [← scopes_map_address, List.length_map, ← this, ptrs, List.length_map]

theorem Has.syncScope (h : env.Has regs) : env.syncScope.Has regs := by
  refine ⟨?_, ?_, ?_, ?_⟩
  · rw [syncScope_eq]
    exact ⟨h.sound.alloc, h.sound.used, h.sound.full⟩
  · rw [scopes_syncScope, syncScope_eq]
    exact h.holds
  · rw [syncScope_eq]
    exact h.read
  · rw [chain_syncScope]
    exact h.nodup

theorem Has.openScope (h : env.Has regs) {self : Scope} (hself : self.address ∉ env.chain) :
    (env.openScope self).Has ([] :: regs)
      ∧ (env.openScope self).chain = self.address :: env.chain := by
  have hchain : (env.openScope self).chain = self.address :: env.chain := by
    rw [← scopes_map_address env]
    rfl
  refine ⟨⟨?_, ?_, ?_, ?_⟩, hchain⟩
  · exact ⟨h.syncScope.sound.alloc, h.syncScope.sound.used, h.syncScope.sound.full⟩
  · have hh := h.holds
    rw [show env.handles.usedNum = (env.openScope self).handles.usedNum by
      simp [Env.openScope, syncScope_eq]] at hh
    rw [scopes_cons (show (env.openScope self).handles.scope = _ :: env.scopes from rfl)]
    exact .cons (e := (env.openScope self).handles.usedNum) .empty hh
  · exact h.syncScope.read
  · rw [hchain]
    exact List.nodup_cons.2 ⟨hself, h.nodup⟩

theorem closeScope_cons {s : Scope} {scopes : List Scope} (hs : env.handles.scope = s :: scopes) :
    ∃ env', env.closeScope = .ok env' ∧ env'.scopes = scopes
      ∧ env'.handles = { env.handles with
        scope := scopes, usedNum := env.handles.usedNum - s.usedNum } := by
  refine ⟨_, by simp only [Env.closeScope, hs]; rfl, ?_, rfl⟩
  rcases scopes with _ | ⟨s', scopes⟩ <;> rfl

/-- Closing a scope takes the environment back to the one around it. -/
theorem Has.closeScope (h : env.Has regs) {address : Address} {rest : List Address}
    (hc : env.chain = address :: rest) :
    ∃ env', env.closeScope = .ok env' ∧ env'.Has regs.tail ∧ env'.chain = rest
      ∧ env'.handles.scope = env.handles.scope.tail := by
  rcases hs : env.handles.scope with _ | ⟨s, scopes⟩
  · simp [chain, hs] at hc
  have hrest : scopes.map (·.address) = rest := (List.cons.inj (by simpa [chain, hs] using hc)).2
  obtain ⟨e, l, ls, hn, hls, -, hh⟩ := (scopes_cons hs ▸ h.holds).uncons
  obtain ⟨env', hclose, hscopes, hhandles⟩ := closeScope_cons hs
  have hchain : env'.chain = rest := by
    rw [chain, hhandles]
    exact hrest
  refine ⟨env', hclose, ⟨?_, ?_, ?_, ?_⟩, hchain, by rw [hhandles]; rfl⟩
  · rw [hhandles]
    exact ⟨h.sound.alloc, (Nat.sub_le _ _).trans h.sound.used, h.sound.full⟩
  · have hused : env'.handles.usedNum = e := by
      rw [hhandles]
      simp [hn]
    have htail : ptrs regs.tail = ls := by
      rw [ptrs, List.map_tail]
      exact congrArg List.tail hls
    rwa [hscopes, hused, htail]
  · intro r hr
    rw [hhandles]
    refine h.read r ?_
    obtain ⟨l, hl, hr⟩ := List.mem_flatten.1 hr
    exact List.mem_flatten.2 ⟨l, List.mem_of_mem_tail hl, hr⟩
  · rw [hchain]
    exact (List.nodup_cons.1 (hc ▸ h.nodup)).2

/-- Closing scopes until there are those that were open before. -/
theorem Has.closeUntil (h : env.Has regs) {pre post : List Address} (hc : env.chain = pre ++ post) :
    ∃ env', env.closeUntil post.head? env.handles.scope = .ok env' ∧ env'.Has (regs.drop pre.length)
      ∧ env'.chain = post := by
  induction pre generalizing env regs with
  | nil =>
    refine ⟨env, ?_, by simpa using h, hc⟩
    obtain rfl : env.chain = post := hc
    rcases hs : env.handles.scope with _ | ⟨s, scopes⟩ <;> simp [Env.closeUntil, chain, hs]
  | cons address pre ih =>
    rcases hs : env.handles.scope with _ | ⟨s, scopes⟩
    · simp [chain, hs] at hc
    obtain ⟨env₁, hclose, h₁, hc₁, hs₁⟩ := h.closeScope hc
    obtain ⟨env', hend, h', hc'⟩ := ih h₁ hc₁
    have hne : post.head? ≠ some s.address := by
      intro hhead
      have haddr : s.address = address := (List.cons.inj (by simpa [chain, hs] using hc)).1
      have hmem : address ∈ post := haddr ▸ List.mem_of_mem_head? hhead
      have hnd := h.nodup
      rw [hc, List.cons_append] at hnd
      exact (List.nodup_cons.1 hnd).1 (List.mem_append_right _ hmem)
    refine ⟨env', ?_, by simpa using h', hc'⟩
    rw [hs₁, hs, List.tail_cons] at hend
    rw [Env.closeUntil, if_neg hne, hclose]
    exact hend

theorem Has.uncons (h : env.Has regs) {s : Scope} {scopes : List Scope}
    (hs : env.handles.scope = s :: scopes) :
    ∃ e regs₀ regs', env.handles.usedNum = e + s.usedNum ∧ regs = regs₀ :: regs'
      ∧ Fill e s.usedNum env.pos env.last (regs₀.map Prod.fst) ∧ Holds scopes e (ptrs regs') := by
  obtain ⟨e, l, ls, hn, hls, hf, hh⟩ := (scopes_cons hs ▸ h.holds).uncons
  rcases regs with _ | ⟨regs₀, regs'⟩
  · simp [ptrs] at hls
  · obtain ⟨rfl, rfl⟩ := List.cons.inj hls
    exact ⟨e, regs₀, regs', hn, rfl, hf, hh⟩

/-- A block is taken when the innermost scope has none that is not full. -/
theorem Has.room (h : env.Has regs) (hc : env.chain ≠ []) :
    ∃ env' p, env.room = .ok env' ∧ env'.Has regs ∧ env'.chain = env.chain
      ∧ env'.pos = some p ∧ env'.last ≠ some p := by
  rcases hs : env.handles.scope with _ | ⟨s, scopes⟩
  · simp [chain, hs] at hc
  obtain ⟨e, regs₀, regs', hn, rfl, hf, hh⟩ := h.uncons hs
  by_cases heq : env.last = env.pos
  · obtain ⟨handles, hget, hsound, hused, hscope, hread⟩ := Handles.getHandles_ok h.sound hs
    have hscopes :=
      scopes_cons (show (setPos { env with handles }).handles.scope = _ from hscope)
    have hblock : handles.usedNum - 1 = e + s.usedNum := by omega
    refine ⟨setPos { env with handles }, ⟨handles.usedNum - 1, 0⟩, ?_, ⟨hsound, ?_, ?_, ?_⟩, ?_,
      rfl, by simp [setPos, handlesSize]⟩
    · rw [Env.room, if_pos heq, hget]
      rfl
    · rw [hscopes]
      have hf' := hf.next heq
      rw [← hblock] at hf'
      have hused' : handles.usedNum = e + (s.usedNum + 1) := by omega
      exact hused' ▸ Holds.cons (s := ⟨s.address, s.usedNum + 1, _, _⟩) hf' hh
    · intro r hr
      exact (hread _ (h.mem hr).1).trans (h.read r hr)
    · have : (setPos { env with handles }).chain = env.chain := by simp [chain, setPos, hscope, hs]
      rw [this]
      exact h.nodup
    · simp [chain, setPos, hscope, hs]
  · obtain ⟨p, hp⟩ := hf.exists_pos heq
    refine ⟨env, p, if_neg heq, h, rfl, hp, ?_⟩
    rwa [← hp]

/-- A handle is registered where there was none. -/
theorem Has.register (h : env.Has regs) (hc : env.chain ≠ []) (val : V) :
    ∃ env' p, env.register val = .ok (env', p)
      ∧ env'.Has (regs.modify 0 fun l => l ++ [(p, val)]) ∧ env'.chain = env.chain := by
  obtain ⟨env₁, p, hroom, h₁, hc₁, hpos, hlast⟩ := h.room hc
  rcases hs : env₁.handles.scope with _ | ⟨s, scopes⟩
  · rw [← hc₁] at hc
    simp [chain, hs] at hc
  obtain ⟨e, regs₀, regs', hn, rfl, hf, hh⟩ := h₁.uncons hs
  obtain ⟨hf', -, hblock, hoff⟩ := (hpos ▸ hf).push hlast
  set env' : Env V := { env₁ with
    handles := env₁.handles.write p val
    pos := some ⟨p.block, p.off + 1⟩ } with henv'
  have hholds : Holds env'.scopes env'.handles.usedNum
      (ptrs ((regs₀ ++ [(p, val)]) :: regs')) := by
    rw [scopes_cons (show env'.handles.scope = _ from hs),
      show env'.handles.usedNum = e + s.usedNum from hn]
    refine Holds.cons (s := ⟨s.address, s.usedNum, _, _⟩) ?_ hh
    simpa using hf'
  refine ⟨env', p, ?_, ⟨h₁.sound.write, hholds, ?_, h₁.nodup⟩, hc₁⟩
  · simp only [Env.register, hroom, bind, Except.bind, hpos]
    rfl
  · have hnodup := hholds.nodup
    rw [flatten_ptrs] at hnodup
    have hperm : (((regs₀ ++ [(p, val)]) :: regs').flatten).Perm
        ((p, val) :: (regs₀ :: regs').flatten) := by
      simp
    have hfresh := (List.nodup_cons.1 ((hperm.map Prod.fst).nodup_iff.1 hnodup)).1
    intro r hr
    rcases List.mem_cons.1 (hperm.mem_iff.1 hr) with rfl | hold
    · refine Handles.read_write_self h₁.sound ?_ hoff
      exact (hn ▸ hblock).trans_le h₁.sound.used
    · rw [← h₁.read r hold]
      refine Handles.read_write_of_ne ?_
      intro heq
      exact hfresh (List.mem_map.2 ⟨r, hold, heq⟩)

/-- What some of the handles are becomes something else. -/
theorem Has.change (h : env.Has regs) {handles : Handles V} (hsound : handles.Sound)
    (hused : handles.usedNum = env.handles.usedNum) (hscope : handles.scope = env.handles.scope)
    {f : Ptr × V → Ptr × V} (hf : ∀ r, (f r).1 = r.1)
    (hread : ∀ r ∈ regs.flatten, handles.read r.1 = some (f r).2) :
    ({ env with handles } : Env V).Has (regs.map fun l => l.map f) := by
  have hchain : ({ env with handles } : Env V).chain = env.chain := by simp [chain, hscope]
  have hscopes : ({ env with handles } : Env V).scopes = env.scopes := by
    rcases hs : env.handles.scope with _ | ⟨s, scopes⟩
    · rw [scopes_nil hs, scopes_nil (hscope.trans hs)]
    · rw [scopes_cons hs, scopes_cons (hscope.trans hs)]
  refine ⟨hsound, ?_, ?_, ?_⟩
  · rw [hscopes, hused, ptrs_map hf]
    exact h.holds
  · intro r hr
    rw [← List.map_flatten] at hr
    obtain ⟨r', hr', rfl⟩ := List.mem_map.1 hr
    rw [hf]
    exact hread r' hr'
  · rw [hchain]
    exact h.nodup

theorem setValue_fst (p : Ptr) (val : V) (r : Ptr × V) : (setValue p val r).1 = r.1 := by
  unfold setValue
  split
  · next h => exact h.symm
  · rfl

theorem Has.write (h : env.Has regs) {p : Ptr} (hp : ∃ r ∈ regs.flatten, r.1 = p) (val : V) :
    ({ env with handles := env.handles.write p val } : Env V).Has
      (regs.map fun l => l.map (setValue p val)) := by
  obtain ⟨r₀, hr₀, rfl⟩ := hp
  refine h.change h.sound.write rfl rfl (setValue_fst _ val) ?_
  intro r hr
  by_cases heq : r.1 = r₀.1
  · have hmem := h.mem hr₀
    rw [heq, Handles.read_write_self h.sound (hmem.1.trans_le h.sound.used) hmem.2]
    simp [setValue, heq]
  · rw [Handles.read_write_of_ne heq, h.read r hr]
    simp [setValue, heq]

/-- The collector visits what is registered in the open scopes of an environment that is in step
with its scope. -/
theorem Has.visits (h : env.Has regs) (hsync : env.syncScope = env) :
    ∃ l, env.handles.visits = .ok l ∧ l.Perm (regs.flatten.map Prod.fst) := by
  have hh := h.holds
  rw [scopes, hsync] at hh
  obtain ⟨l, hl, hp⟩ := hh.visits
  rw [flatten_ptrs] at hp
  by_cases hzero : env.handles.usedNum = 0
  · refine ⟨[], if_pos hzero, ?_⟩
    have hempty : regs.flatten = [] := by
      refine List.eq_nil_iff_forall_not_mem.2 ?_
      intro r hr
      have := (h.mem hr).1
      omega
    simp [hempty]
  · exact ⟨l, by rw [Handles.visits, if_neg hzero, hl], hp⟩

/-- The collector updates every one of them. -/
theorem Has.keepHandles (h : env.Has regs) (hsync : env.syncScope = env) (keeper : V → V) :
    ∃ handles, env.handles.keepHandles keeper = .ok handles
      ∧ ({ env with handles } : Env V).Has
        (regs.map fun l => l.map fun r => (r.1, keeper r.2))
      ∧ handles.scope = env.handles.scope := by
  obtain ⟨l, hl, hp⟩ := h.visits hsync
  have hexists : ∀ p ∈ l, ∃ r ∈ regs.flatten, r.1 = p := by
    intro p hpl
    obtain ⟨r, hr, rfl⟩ := List.mem_map.1 (hp.mem_iff.1 hpl)
    exact ⟨r, hr, rfl⟩
  have hreads : ∀ p ∈ l, ∃ val, env.handles.read p = some val := by
    intro p hpl
    obtain ⟨r, hr, rfl⟩ := hexists p hpl
    exact ⟨r.2, h.read r hr⟩
  have hmem : ∀ p ∈ l, p.block < env.handles.allocNum ∧ p.off < handlesSize := by
    intro p hpl
    obtain ⟨r, hr, rfl⟩ := hexists p hpl
    exact ⟨(h.mem hr).1.trans_le h.sound.used, (h.mem hr).2⟩
  obtain ⟨handles, hfold, hsound, hused, hscope, hin, -⟩ :=
    Handles.keepHandle_all keeper (hp.nodup_iff.2 h.nodup_ptrs) h.sound hreads hmem
  refine ⟨handles, ?_, h.change hsound hused hscope (fun _ => rfl) ?_, hscope⟩
  · rw [Handles.keepHandles, hl]
    exact hfold
  · intro r hr
    rw [hin r.1 (hp.mem_iff.2 (List.mem_map_of_mem hr)), h.read r hr]
    rfl

end Env

end Handle

end Yog
