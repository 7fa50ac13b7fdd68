import Yog.Lib.Runs
import Yog.Proofs.Scopes
import Mathlib.Data.List.Infix

/-!
# Handles over a run

As long as every exception is caught by a frame of the environment it is raised in, that has not
returned, and every thread is in step with its scope when a collection starts, the collector visits
each registered handle of the open scopes once and no other (`kept_of_proper`). `gc` of `vm.c` stops
a thread that need not be in step. `YogEval_longjmp` closes the scopes of the environment at hand up to the one of
the buffer, so an exception that leaves the body of a coroutine looks for a scope of the resumer
among those of the coroutine, and reads a null pointer (`not_works_raised`).
-/

namespace Yog

namespace Handle

variable {T C V : Type}

/-- The frames with buffers were entered one inside the other. -/
structure Nested (chain : List Address) (frames : List JmpBuf) : Prop where
  suffix : ∀ f ∈ frames, f.chain <:+ chain
  scope : ∀ f ∈ frames, f.scope = f.chain.head?
  inner : frames.Pairwise fun f g => g.chain <:+ f.chain

namespace Nested

variable {chain : List Address} {frames : List JmpBuf} {address : Address}

theorem nil : Nested chain [] := ⟨by simp, by simp, .nil⟩

theorem tail (h : Nested chain frames) : Nested chain frames.tail :=
  ⟨fun f hf => h.suffix f (List.mem_of_mem_tail hf),
    fun f hf => h.scope f (List.mem_of_mem_tail hf), h.inner.tail⟩

theorem openScope (h : Nested chain frames) : Nested (address :: chain) frames :=
  ⟨fun f hf => (h.suffix f hf).trans (List.suffix_cons _ _), h.scope, h.inner⟩

/-- A scope is closed that no frame found open. -/
theorem closeScope (h : Nested (address :: chain) frames)
    (hf : ∀ f ∈ frames, f.scope ≠ some address) : Nested chain frames := by
  refine ⟨?_, h.scope, h.inner⟩
  intro f hmem
  rcases List.suffix_cons_iff.1 (h.suffix f hmem) with heq | hsuffix
  · refine absurd ?_ (hf f hmem)
    rw [h.scope f hmem, heq]
    rfl
  · exact hsuffix

theorem setjmp (h : Nested chain frames) (id : ℕ) :
    Nested chain (⟨id, chain.head?, chain⟩ :: frames) := by
  refine ⟨?_, ?_, List.pairwise_cons.2 ⟨h.suffix, h.inner⟩⟩
  · rintro f (_ | ⟨_, hf⟩)
    · exact List.suffix_refl _
    · exact h.suffix f hf
  · rintro f (_ | ⟨_, hf⟩)
    · rfl
    · exact h.scope f hf

/-- The frames inside one of them are gone. -/
theorem longjmp (h : Nested chain frames) {buf : JmpBuf} (hbuf : buf ∈ frames) :
    Nested buf.chain (frames.dropWhile fun f => f ≠ buf)
      ∧ (frames.dropWhile fun f => f ≠ buf).head? = some buf := by
  induction frames with
  | nil => simp at hbuf
  | cons f frames ih =>
    obtain ⟨hsuffix, hinner⟩ := List.pairwise_cons.1 h.inner
    by_cases heq : f = buf
    · subst heq
      have hdrop : (f :: frames).dropWhile (fun g => g ≠ f) = f :: frames := by simp
      rw [hdrop]
      refine ⟨⟨?_, h.scope, h.inner⟩, rfl⟩
      rintro g (_ | ⟨_, hg⟩)
      · exact List.suffix_refl _
      · exact hsuffix g hg
    · have hmem : buf ∈ frames := by simpa [Ne.symm heq] using hbuf
      have hdrop : (f :: frames).dropWhile (fun g => g ≠ buf)
          = frames.dropWhile fun g => g ≠ buf := by simp [heq]
      rw [hdrop]
      exact ih ⟨fun g hg => h.suffix g (by simp [hg]), fun g hg => h.scope g (by simp [hg]), hinner⟩
        hmem

end Nested

/-- The environments of a thread, the running one first. -/
def State.envs (s : State T C V) (t : T) : List C := (s.threads t).map (·.env)

/-- Environments are in one place each, all but the running ones in step with their scopes. -/
structure Good (s : State T C V) : Prop where
  nodup : s.handles.Nodup
  has : ∀ c ∈ s.handles, (s.env c).Has (s.registered c)
  idle : ∀ c ∈ s.handles, (∀ t, (s.envs t).head? ≠ some c) → s.Synced c
  mem : ∀ t, ∀ a ∈ s.threads t, a.env ∈ s.handles ∧ Nested (s.env a.env).chain a.frames
  once : ∀ t, (s.envs t).Nodup
  apart : ∀ t t', t ≠ t' → (s.envs t).Disjoint (s.envs t')
  suspended : ∀ c a, s.suspended c = some a →
    a.env = c ∧ c ∈ s.handles ∧ Nested (s.env c).chain a.frames ∧ ∀ t, c ∉ s.envs t

theorem good_start : Good (start : State T C V) :=
  ⟨.nil, by simp [start], by simp [start], by simp [start], by simp [start, State.envs],
    by simp [start, State.envs], by simp [start]⟩

section Steps

variable {s : State T C V} {t : T} {a b : Active C} {rest : List (Active C)} {c : C}

theorem envs_cons (ht : s.threads t = a :: rest) : s.envs t = a.env :: rest.map (·.env) := by
  simp [State.envs, ht]

theorem mem_envs (ha : a ∈ s.threads t) : a.env ∈ s.envs t := List.mem_map_of_mem ha

theorem synced_of_chain (hc : (s.env c).chain = []) : s.Synced c := by
  have hscope : (s.env c).handles.scope = [] := by simpa [Env.chain] using hc
  simp [State.Synced, Env.syncScope, hscope]

/-- The other environments of a thread are not the running one. -/
theorem Good.env_ne (h : Good s) (ht : s.threads t = a :: rest) (hb : b ∈ rest) :
    b.env ≠ a.env := by
  have hnd := h.once t
  rw [envs_cons ht] at hnd
  intro heq
  exact (List.nodup_cons.1 hnd).1 (heq ▸ List.mem_map_of_mem hb)

theorem Good.env_ne_of_ne (h : Good s) {t' : T} (hne : t' ≠ t) (ht : s.threads t = a :: rest)
    (hb : b ∈ s.threads t') : b.env ≠ a.env := by
  intro heq
  refine h.apart t' t hne (mem_envs hb) ?_
  rw [heq, envs_cons ht]
  exact List.mem_cons_self

theorem Good.not_suspended (h : Good s) (hc : c ∈ s.envs t) : s.suspended c = none := by
  rcases hs : s.suspended c with _ | x
  · rfl
  · exact absurd hc ((h.suspended c x hs).2.2.2 t)

theorem not_mem_envs (hf : s.Fresh c) (t : T) : c ∉ s.envs t := by
  intro hmem
  obtain ⟨a, ha, rfl⟩ := List.mem_map.1 hmem
  exact hf.2.2 t a ha rfl

theorem Good.setNextBuf (h : Good s) (n : ℕ) : Good { s with nextBuf := n } :=
  ⟨h.nodup, h.has, h.idle, h.mem, h.once, h.apart, h.suspended⟩

theorem setThread_self [DecidableEq T] (ht : s.threads t = rest) : s.setThread t rest = s := by
  simp [State.setThread, ← ht]

theorem Good.synced (h : Good s) (hc : c ∈ s.handles)
    (hsync : s.InStep) : s.Synced c := by
  by_cases hrun : ∃ t, (s.envs t).head? = some c
  · obtain ⟨t, hhead⟩ := hrun
    obtain ⟨a, ha, rfl⟩ : ∃ a, (s.threads t).head? = some a ∧ a.env = c := by
      simpa [State.envs] using hhead
    exact hsync t a ha
  · exact h.idle c hc fun t ht => hrun ⟨t, ht⟩

theorem Good.synced_of_mem (h : Good s) (ht : s.threads t = a :: rest) (hb : b ∈ rest) :
    s.Synced b.env := by
  refine h.idle b.env (h.mem t b (by simp [ht, hb])).1 fun t' hhead => ?_
  by_cases hne : t' = t
  · subst hne
    rw [envs_cons ht, List.head?_cons, Option.some_inj] at hhead
    exact h.env_ne ht hb hhead.symm
  · refine h.apart t' t hne (List.mem_of_mem_head? hhead) ?_
    rw [envs_cons ht]
    exact List.mem_cons_of_mem _ (List.mem_map_of_mem hb)

/-- The scopes of the running environment are closed up to those of a frame. -/
theorem Good.closeUntil (h : Good s) (ht : s.threads t = a :: rest) {chain : List Address}
    (hs : chain <:+ (s.env a.env).chain) :
    ∃ env, (s.env a.env).closeUntil chain.head? (s.env a.env).handles.scope = .ok env
      ∧ env.Has ((s.registered a.env).drop
        ((s.registered a.env).length - env.handles.scope.length))
      ∧ env.chain = chain := by
  have hmem := (h.mem t a (by simp [ht])).1
  obtain ⟨pre, hpre⟩ := hs
  obtain ⟨env, hclose, hhas, hchain⟩ := (h.has a.env hmem).closeUntil hpre.symm
  have hregs := (h.has a.env hmem).length_eq
  have hscope : env.handles.scope.length = chain.length := by
    rw [← hchain, Env.chain, List.length_map]
  have hlen : (s.registered a.env).length - env.handles.scope.length = pre.length := by
    rw [← hpre, List.length_append] at hregs
    omega
  exact ⟨env, hclose, hlen ▸ hhas, hchain⟩

variable [DecidableEq C]

/-- What is done in any environment, its scopes apart. -/
theorem Good.change (h : Good s) {env : Env V} {regs : List (List (Ptr × V))}
    (he : c ∈ s.handles → env.Has regs) (hchain : env.chain = (s.env c).chain)
    (hsync : s.Synced c → env.syncScope = env) :
    Good ((s.setEnv c env).setRegistered c regs) := by
  set s' := (s.setEnv c env).setRegistered c regs with hs'
  have hother : ∀ d, d ≠ c → s'.env d = s.env d := by
    intro d hd
    simp [hs', State.setRegistered, State.setEnv, hd]
  have hself : s'.env c = env := by simp [hs', State.setRegistered, State.setEnv]
  have hchains : ∀ d, (s'.env d).chain = (s.env d).chain := by
    intro d
    by_cases hd : d = c
    · rw [hd, hself, hchain]
    · rw [hother d hd]
  refine ⟨h.nodup, ?_, ?_, ?_, h.once, h.apart, ?_⟩
  · intro d hd
    by_cases hdc : d = c
    · subst hdc
      rw [hself]
      simpa [hs', State.setRegistered] using he hd
    · rw [hother d hdc]
      simpa [hs', State.setRegistered, hdc, State.setEnv] using h.has d hd
  · intro d hd hidle
    have hold := h.idle d hd hidle
    by_cases hdc : d = c
    · subst hdc
      rw [State.Synced, hself]
      exact hsync hold
    · rwa [State.Synced, hother d hdc]
  · intro t a ha
    rw [hchains]
    exact h.mem t a ha
  · intro d a hd
    rw [hchains]
    exact h.suspended d a hd

/-- An environment is made. -/
theorem Good.addHandles (h : Good s) (hf : s.Fresh c) : Good (s.addHandles c) := by
  have hother : ∀ d, d ≠ c → (s.addHandles c).env d = s.env d := by
    intro d hd
    simp [State.addHandles, State.setRegistered, State.setEnv, hd]
  have hself : (s.addHandles c).env c = .init := by
    simp [State.addHandles, State.setRegistered, State.setEnv]
  refine ⟨List.nodup_cons.2 ⟨hf.1, h.nodup⟩, ?_, ?_, ?_, h.once, h.apart, ?_⟩
  · intro d hd
    by_cases hdc : d = c
    · subst hdc
      rw [hself]
      simpa [State.addHandles, State.setRegistered] using Env.has_init
    · rw [hother d hdc]
      simpa [State.addHandles, State.setRegistered, State.setEnv, hdc] using
        h.has d (by simpa [State.addHandles, hdc] using hd)
  · intro d hd hidle
    rw [State.Synced]
    by_cases hdc : d = c
    · rw [hdc, hself]
      rfl
    · rw [hother d hdc]
      exact h.idle d (by simpa [State.addHandles, hdc] using hd) hidle
  · intro t a ha
    rw [hother _ (hf.2.2 t a ha)]
    exact ⟨List.mem_cons_of_mem _ (h.mem t a ha).1, (h.mem t a ha).2⟩
  · intro d a hd
    obtain ⟨had, hmem, hn, hout⟩ := h.suspended d a hd
    have hdc : d ≠ c := by
      rintro rfl
      exact hf.1 hmem
    rw [hother d hdc]
    exact ⟨had, List.mem_cons_of_mem _ hmem, hn, hout⟩

/-- A coroutine is kept until the next `resume`. -/
theorem Good.suspend (h : Good s) (ha : a.env ∈ s.handles)
    (hn : Nested (s.env a.env).chain a.frames) (hout : ∀ t, a.env ∉ s.envs t) :
    Good { s with suspended := Function.update s.suspended a.env (some a) } := by
  refine ⟨h.nodup, h.has, h.idle, h.mem, h.once, h.apart, ?_⟩
  intro c x hx
  by_cases hca : c = a.env
  · subst hca
    obtain rfl : a = x := by simpa using hx
    exact ⟨rfl, ha, hn, hout⟩
  · exact h.suspended c x (by simpa [hca] using hx)

theorem Good.unsuspend (h : Good s) (c : C) :
    Good { s with suspended := Function.update s.suspended c none } := by
  refine ⟨h.nodup, h.has, h.idle, h.mem, h.once, h.apart, ?_⟩
  intro d x hx
  have hdc : d ≠ c := by
    rintro rfl
    simp at hx
  exact h.suspended d x (by simpa [hdc] using hx)

/-- The handles of an environment that is in no use are taken off the list. -/
theorem Good.erase (h : Good s) (hout : ∀ t, c ∉ s.envs t) (hsus : s.suspended c = none) :
    Good { s with handles := s.handles.erase c } := by
  have hmem : ∀ d, d ∈ s.handles.erase c → d ∈ s.handles := fun d hd => List.mem_of_mem_erase hd
  refine ⟨h.nodup.erase c, fun d hd => h.has d (hmem d hd), fun d hd => h.idle d (hmem d hd), ?_,
    h.once, h.apart, ?_⟩
  · intro t a ha
    have hne : a.env ≠ c := by
      rintro rfl
      exact hout t (mem_envs ha)
    exact ⟨(List.mem_erase_of_ne hne).2 (h.mem t a ha).1, (h.mem t a ha).2⟩
  · intro d x hx
    obtain ⟨hxd, hd, hnest, hnot⟩ := h.suspended d x hx
    have hne : d ≠ c := by
      rintro rfl
      simp [show s.suspended d = some x from hx] at hsus
    exact ⟨hxd, (List.mem_erase_of_ne hne).2 hd, hnest, hnot⟩

/-- The collector is through with the handles of an environment. -/
theorem Good.keepEnv (h : Good s) (hc : c ∈ s.handles) (hsync : s.Synced c) (keeper : V → V) :
    ∃ s', State.keepEnv keeper s c = .ok s' ∧ Good s' ∧ s'.handles = s.handles
      ∧ ∀ d, s.Synced d → s'.Synced d := by
  obtain ⟨handles, hkeep, hhas, hscope⟩ := (h.has c hc).keepHandles hsync keeper
  have hchain : ({ s.env c with handles } : Env V).chain = (s.env c).chain := by
    simp [Env.chain, hscope]
  have hsynced := Env.syncScope_change hsync hscope
  refine ⟨_, by rw [State.keepEnv, hkeep]; rfl, h.change (fun _ => hhas) hchain fun _ => hsynced,
    rfl, ?_⟩
  intro d hd
  by_cases hdc : d = c
  · subst hdc
    simpa [State.Synced, State.setRegistered, State.setEnv] using hsynced
  · simpa [State.Synced, State.setRegistered, State.setEnv, hdc] using hd

theorem Good.collect (h : Good s) {l : List C} (hl : ∀ c ∈ l, c ∈ s.handles ∧ s.Synced c)
    (keeper : V → V) : ∃ s', l.foldlM (State.keepEnv keeper) s = .ok s' ∧ Good s' := by
  induction l generalizing s with
  | nil => exact ⟨s, rfl, h⟩
  | cons c l ih =>
    obtain ⟨hc, hsync⟩ := hl c (by simp)
    obtain ⟨s₁, hkeep, h₁, hhandles, hsyncs⟩ := h.keepEnv hc hsync keeper
    have hl₁ : ∀ d ∈ l, d ∈ s₁.handles ∧ s₁.Synced d := by
      intro d hd
      obtain ⟨hmem, hs⟩ := hl d (by simp [hd])
      exact ⟨hhandles ▸ hmem, hsyncs d hs⟩
    obtain ⟨s', hfold, h'⟩ := ih h₁ hl₁
    refine ⟨s', ?_, h'⟩
    rw [List.foldlM_cons, hkeep]
    exact hfold

/-- A thread that is in step with its scope. -/
theorem Good.sync (h : Good s) (c : C) :
    Good (s.setEnv c (s.env c).syncScope) ∧ (s.setEnv c (s.env c).syncScope).Synced c := by
  have hset := h.change (c := c) (fun hc => (h.has c hc).syncScope) (Env.chain_syncScope _)
    fun _ => Env.syncScope_syncScope _
  refine ⟨?_, by simp [State.Synced, State.setEnv, Env.syncScope_syncScope]⟩
  simpa [State.setRegistered, State.setEnv] using hset

variable [DecidableEq T]

/-- What is done in the running environment. -/
theorem Good.running (h : Good s) (ht : s.threads t = a :: rest) {env : Env V}
    {regs : List (List (Ptr × V))} (hb : b.env = a.env) (he : env.Has regs)
    (hn : Nested env.chain b.frames) :
    Good (((s.setEnv a.env env).setRegistered a.env regs).setThread t (b :: rest)) := by
  set s' := ((s.setEnv a.env env).setRegistered a.env regs).setThread t (b :: rest) with hs'
  have ha := (h.mem t a (by simp [ht])).1
  have hself : s'.env a.env = env := by
    simp [hs', State.setThread, State.setRegistered, State.setEnv]
  have hother : ∀ c, c ≠ a.env → s'.env c = s.env c := by
    intro c hc
    simp [hs', State.setThread, State.setRegistered, State.setEnv, hc]
  have henvs : ∀ t', s'.envs t' = s.envs t' := by
    intro t'
    by_cases hne : t' = t
    · subst hne
      simp [hs', State.envs, State.setThread, ht, hb]
    · simp [hs', State.envs, State.setThread, State.setRegistered, State.setEnv, hne]
  refine ⟨h.nodup, ?_, ?_, ?_, ?_, ?_, ?_⟩
  · intro c hc
    by_cases hca : c = a.env
    · subst hca
      rw [hself]
      simpa [hs', State.setThread, State.setRegistered] using he
    · rw [hother c hca]
      simpa [hs', State.setThread, State.setRegistered, hca, State.setEnv] using h.has c hc
  · intro c hc hidle
    have hca : c ≠ a.env := by
      rintro rfl
      exact hidle t (by simp [henvs, envs_cons ht])
    have := h.idle c hc fun t' => by simpa [henvs] using hidle t'
    rwa [State.Synced, hother c hca]
  · intro t' x hx
    by_cases hne : t' = t
    · subst hne
      have hx' : x ∈ b :: rest := by simpa [hs', State.setThread] using hx
      rcases List.mem_cons.1 hx' with rfl | hx'
      · rw [hb, hself]
        exact ⟨ha, hn⟩
      · rw [hother _ (h.env_ne ht hx')]
        exact h.mem t' x (by simp [ht, hx'])
    · have hx' : x ∈ s.threads t' := by
        simpa [hs', State.setThread, State.setRegistered, State.setEnv, hne] using hx
      rw [hother _ (h.env_ne_of_ne hne ht hx')]
      exact h.mem t' x hx'
  · intro t'
    rw [henvs]
    exact h.once t'
  · intro t₁ t₂ hne
    rw [henvs, henvs]
    exact h.apart t₁ t₂ hne
  · intro c x hx
    obtain ⟨hxc, hc, hnest, hout⟩ := h.suspended c x hx
    have hca : c ≠ a.env := by
      rintro rfl
      exact hout t (by simp [envs_cons ht])
    refine ⟨hxc, hc, by rwa [hother c hca], ?_⟩
    intro t'
    rw [henvs]
    exact hout t'

/-- What leaves the frames of the running environment as they are. -/
theorem Good.within (h : Good s) (ht : s.threads t = a :: rest) {env : Env V}
    {regs : List (List (Ptr × V))} (he : env.Has regs) (hn : Nested env.chain a.frames) :
    Good ((s.setEnv a.env env).setRegistered a.env regs) := by
  have hrun := h.running ht rfl he hn
  rwa [setThread_self (by simpa [State.setRegistered, State.setEnv] using ht)] at hrun

/-- What leaves the scopes of the running environment as they are. -/
theorem Good.setFrames (h : Good s) (ht : s.threads t = a :: rest) (hb : b.env = a.env)
    (hn : Nested (s.env a.env).chain b.frames) : Good (s.setThread t (b :: rest)) := by
  have hrun := h.running ht hb (h.has a.env (h.mem t a (by simp [ht])).1) hn
  simpa [State.setRegistered, State.setEnv] using hrun

/-- A thread goes on in an environment that is in no use. -/
theorem Good.enter (h : Good s) (hc : b.env ∈ s.handles) (hout : ∀ t, b.env ∉ s.envs t)
    (hsus : s.suspended b.env = none) (hn : Nested (s.env b.env).chain b.frames)
    (hsync : ∀ a ∈ (s.threads t).head?, s.Synced a.env) :
    Good (s.setThread t (b :: s.threads t)) := by
  set s' := s.setThread t (b :: s.threads t) with hs'
  have henvs_self : s'.envs t = b.env :: s.envs t := by simp [hs', State.envs, State.setThread]
  have henvs : ∀ t', t' ≠ t → s'.envs t' = s.envs t' := by
    intro t' hne
    simp [hs', State.envs, State.setThread, hne]
  have hcases : ∀ t' d, d ∈ s'.envs t' → d = b.env ∧ t' = t ∨ d ∈ s.envs t' := by
    intro t' d hd
    by_cases hne : t' = t
    · subst hne
      rw [henvs_self] at hd
      exact (List.mem_cons.1 hd).imp_left fun h => ⟨h, rfl⟩
    · exact .inr (henvs t' hne ▸ hd)
  refine ⟨h.nodup, h.has, ?_, ?_, ?_, ?_, ?_⟩
  · intro d hd hidle
    by_cases hhead : (s.envs t).head? = some d
    · obtain ⟨a, ha, rfl⟩ : ∃ a, (s.threads t).head? = some a ∧ a.env = d := by
        simpa [State.envs] using hhead
      exact hsync a ha
    · refine h.idle d hd fun t' => ?_
      by_cases hne : t' = t
      · rwa [hne]
      · rw [← henvs t' hne]
        exact hidle t'
  · intro t' x hx
    by_cases hne : t' = t
    · subst hne
      have hx' : x ∈ b :: s.threads t' := by simpa [hs', State.setThread] using hx
      rcases List.mem_cons.1 hx' with rfl | hx'
      · exact ⟨hc, hn⟩
      · exact h.mem t' x hx'
    · exact h.mem t' x (by simpa [hs', State.setThread, hne] using hx)
  · intro t'
    by_cases hne : t' = t
    · subst hne
      rw [henvs_self]
      exact List.nodup_cons.2 ⟨hout t', h.once t'⟩
    · rw [henvs t' hne]
      exact h.once t'
  · intro t₁ t₂ hne d hd₁ hd₂
    rcases hcases t₁ d hd₁ with ⟨hb₁, ht₁⟩ | hold₁ <;>
      rcases hcases t₂ d hd₂ with ⟨hb₂, ht₂⟩ | hold₂
    · exact hne (ht₁.trans ht₂.symm)
    · exact hout t₂ (hb₁ ▸ hold₂)
    · exact hout t₁ (hb₂ ▸ hold₁)
    · exact h.apart t₁ t₂ hne hold₁ hold₂
  · intro d x hx
    obtain ⟨hxd, hd, hnest, hnot⟩ := h.suspended d x hx
    refine ⟨hxd, hd, hnest, ?_⟩
    intro t' hmem
    rcases hcases t' d hmem with ⟨hdb, -⟩ | hold
    · rw [← hdb, show s.suspended d = some x from hx] at hsus
      simp at hsus
    · exact hnot t' hold

/-- A thread goes on in a new environment. -/
theorem Good.new (h : Good s) (hf : s.Fresh c) (hsync : ∀ a ∈ (s.threads t).head?, s.Synced a.env) :
    Good ((s.addHandles c).setThread t (⟨c, [], []⟩ :: s.threads t)) := by
  have hout : ∀ t', c ∉ (s.addHandles c).envs t' := fun t' => not_mem_envs hf t'
  refine (h.addHandles hf).enter (b := ⟨c, [], []⟩) List.mem_cons_self hout hf.2.1 .nil ?_
  intro a ha
  have hne : a.env ≠ c := hf.2.2 t a (List.mem_of_mem_head? ha)
  simpa [State.Synced, State.addHandles, State.setRegistered, State.setEnv, hne] using hsync a ha

/-- A thread goes back to the environment it came from. -/
theorem Good.leave (h : Good s) (ht : s.threads t = a :: rest) (hsync : s.Synced a.env) :
    Good (s.setThread t rest) ∧ ∀ t', a.env ∉ (s.setThread t rest).envs t' := by
  set s' := s.setThread t rest with hs'
  have henvs_self : s'.envs t = (s.envs t).tail := by
    simp [hs', State.envs, State.setThread, ht]
  have henvs : ∀ t', t' ≠ t → s'.envs t' = s.envs t' := by
    intro t' hne
    simp [hs', State.envs, State.setThread, hne]
  have hsub : ∀ t', (s'.envs t').Sublist (s.envs t') := by
    intro t'
    by_cases hne : t' = t
    · subst hne
      rw [henvs_self]
      exact List.tail_sublist _
    · rw [henvs t' hne]
  refine ⟨⟨h.nodup, h.has, ?_, ?_, ?_, ?_, ?_⟩, ?_⟩
  · intro d hd hidle
    by_cases hda : d = a.env
    · rwa [hda]
    · refine h.idle d hd fun t' => ?_
      by_cases hne : t' = t
      · subst hne
        simpa [envs_cons ht] using Ne.symm hda
      · rw [← henvs t' hne]
        exact hidle t'
  · intro t' x hx
    refine h.mem t' x ?_
    by_cases hne : t' = t
    · subst hne
      rw [ht]
      exact List.mem_cons_of_mem _ (by simpa [hs', State.setThread] using hx)
    · simpa [hs', State.setThread, hne] using hx
  · intro t'
    exact (h.once t').sublist (hsub t')
  · intro t₁ t₂ hne d hd₁ hd₂
    exact h.apart t₁ t₂ hne ((hsub t₁).subset hd₁) ((hsub t₂).subset hd₂)
  · intro d x hx
    obtain ⟨hxd, hd, hnest, hnot⟩ := h.suspended d x hx
    exact ⟨hxd, hd, hnest, fun t' hmem => hnot t' ((hsub t').subset hmem)⟩
  · intro t' hmem
    by_cases hne : t' = t
    · subst hne
      have hnd := h.once t'
      rw [envs_cons ht] at hnd
      rw [henvs_self, envs_cons ht] at hmem
      exact (List.nodup_cons.1 hnd).1 hmem
    · rw [henvs t' hne] at hmem
      refine h.apart t' t hne hmem ?_
      rw [envs_cons ht]
      exact List.mem_cons_self

theorem Good.leaveAll (h : Good s) {pre : List (Active C)} (ht : s.threads t = pre ++ rest)
    (hsync : ∀ a ∈ pre, s.Synced a.env) : Good (s.setThread t rest) := by
  induction pre generalizing s with
  | nil => rwa [setThread_self (show s.threads t = rest from ht)]
  | cons a pre ih =>
    have hleave := (h.leave ht (hsync a (by simp))).1
    have hrest := ih hleave (by simp [State.setThread]) fun x hx => hsync x (by simp [hx])
    simpa [State.setThread] using hrest

/-- The frame of the buffer has not returned, and is in the running environment, or in one that has
no scopes. A collection finds every thread in step with its scope. -/
def Proper (s : State T C V) : Action T C V → Prop
  | .longjmp t => ∃ buf b, (s.jmpBufList t).head? = some buf
    ∧ (s.threads t).find? (fun a => buf ∈ a.frames) = some b
    ∧ ((s.threads t).head? = some b ∨ (s.env b.env).chain = [])
  | .collect _ => s.InStep
  | _ => True

/-- The thread goes on in the frame of the buffer, with the scopes that were open there. -/
def State.Lands (s : State T C V) (t : T) (buf : JmpBuf) : Prop :=
  ∃ a rest, s.threads t = a :: rest ∧ a.frames.head? = some buf ∧ (s.env a.env).chain = buf.chain

/-- `YogEval_longjmp` when the frame of the buffer is there. -/
theorem exec_longjmp {buf : JmpBuf} {pre : List (Active C)} {env : Env V}
    (ht : s.threads t = a :: rest) (hhead : (s.jmpBufList t).head? = some buf)
    (hclose : (s.env a.env).closeUntil buf.scope (s.env a.env).handles.scope = .ok env)
    (hsplit : a :: rest = pre ++ b :: bs) (hpre : ∀ x ∈ pre, buf ∉ x.frames)
    (hbuf : buf ∈ b.frames) :
    s.exec (.longjmp t) = .ok (((s.setEnv a.env env).setRegistered a.env
      ((s.registered a.env).drop
        ((s.registered a.env).length - env.handles.scope.length))).setThread t
      ({ b with frames := b.frames.dropWhile fun f => f ≠ buf } :: bs)) := by
  obtain ⟨bufs, hbufs⟩ : ∃ bufs, s.jmpBufList t = buf :: bufs := by
    rcases hl : s.jmpBufList t with _ | ⟨buf', bufs⟩
    · simp [hl] at hhead
    · obtain rfl : buf' = buf := by simpa [hl] using hhead
      exact ⟨bufs, rfl⟩
  have hdrop : (pre ++ b :: bs).dropWhile (fun x => buf ∉ x.frames) = b :: bs := by
    rw [List.dropWhile_append_of_pos (by simpa using hpre)]
    simp [hbuf]
  simp only [State.exec, ht, State.longjmp, hbufs, hclose, bind, Except.bind,
    State.setRegistered, State.setEnv]
  rw [hsplit, hdrop]

theorem Good.longjmp (h : Good s) (hp : Proper s (.longjmp t)) :
    ∃ s' buf, s.exec (.longjmp t) = .ok s' ∧ Good s' ∧ (s.jmpBufList t).head? = some buf
      ∧ s'.Lands t buf := by
  obtain ⟨buf, b, hhead, hfind, hcase⟩ := hp
  obtain ⟨hbuf, pre, bs, hsplit, hpre⟩ := List.find?_eq_some_iff_append.1 hfind
  replace hbuf : buf ∈ b.frames := by simpa using hbuf
  replace hpre : ∀ x ∈ pre, buf ∉ x.frames := by simpa using hpre
  obtain ⟨hmem, hnest⟩ := h.mem t b (by simp [hsplit])
  obtain ⟨hcut, hfirst⟩ := hnest.longjmp hbuf
  rcases pre with _ | ⟨a, pre⟩
  · -- the frame is in the running environment
    obtain ⟨env, hclose, hhas, hchain⟩ := h.closeUntil hsplit (hnest.suffix buf hbuf)
    rw [← hnest.scope buf hbuf] at hclose
    refine ⟨_, buf, exec_longjmp hsplit hhead hclose rfl hpre hbuf,
      h.running hsplit (b := { b with frames := b.frames.dropWhile fun f => f ≠ buf }) rfl hhas
        (hchain ▸ hcut), hhead, ?_⟩
    refine ⟨{ b with frames := b.frames.dropWhile fun f => f ≠ buf }, bs,
      by simp [State.setThread], hfirst, ?_⟩
    simpa [State.setThread, State.setRegistered, State.setEnv] using hchain
  · -- no scope is open there, so all are closed here
    have hempty : (s.env b.env).chain = [] := by
      rcases hcase with hb | hb
      · obtain rfl : a = b := by simpa [hsplit] using hb
        exact absurd hbuf (hpre a (by simp))
      · exact hb
    have hbchain : buf.chain = [] := List.suffix_nil.1 (hempty ▸ hnest.suffix buf hbuf)
    obtain ⟨env, hclose, hhas, hchain⟩ := h.closeUntil hsplit List.nil_suffix
    rw [← hbchain, ← hnest.scope buf hbuf] at hclose
    have h₁ := h.running hsplit (b := ⟨a.env, [], []⟩) rfl hhas .nil
    set s₁ := ((s.setEnv a.env env).setRegistered a.env _).setThread t _ with hs₁
    have hself : s₁.env a.env = env := by
      simp [hs₁, State.setThread, State.setRegistered, State.setEnv]
    have hother : ∀ c, c ≠ a.env → s₁.env c = s.env c := by
      intro c hc
      simp [hs₁, State.setThread, State.setRegistered, State.setEnv, hc]
    have ht₁ : s₁.threads t = (⟨a.env, [], []⟩ :: pre) ++ b :: bs := by
      simp [hs₁, State.setThread]
    have hba : b.env ≠ a.env := h.env_ne hsplit (by simp)
    have hsync : ∀ x ∈ (⟨a.env, [], []⟩ : Active C) :: pre, s₁.Synced x.env := by
      intro x hx
      rcases List.mem_cons.1 hx with rfl | hx
      · exact synced_of_chain (hself ▸ hchain)
      · exact h₁.synced_of_mem (ht₁.trans (List.cons_append ..)) (List.mem_append_left _ hx)
    have h₂ := h₁.leaveAll ht₁ hsync
    have ht₂ : (s₁.setThread t (b :: bs)).threads t = b :: bs := by simp [State.setThread]
    have hnest₂ : Nested ((s₁.setThread t (b :: bs)).env b.env).chain
        (b.frames.dropWhile fun f => f ≠ buf) := by
      rw [show (s₁.setThread t (b :: bs)).env b.env = s.env b.env from hother _ hba, hempty]
      exact hbchain ▸ hcut
    have h₃ := h₂.setFrames (b := { b with frames := b.frames.dropWhile fun f => f ≠ buf }) ht₂ rfl
      hnest₂
    refine ⟨_, buf, exec_longjmp hsplit hhead hclose rfl hpre hbuf, ?_, hhead, ?_⟩
    · simpa [hs₁, State.setThread] using h₃
    · refine ⟨{ b with frames := b.frames.dropWhile fun f => f ≠ buf }, bs,
        by simp [State.setThread], hfirst, ?_⟩
      simpa [State.setThread, State.setRegistered, State.setEnv, hba, hempty] using hbchain.symm

/-- What a step does succeeds. -/
theorem Good.exec (h : Good s) {e : Action T C V} (he : s.Enabled e) (hp : Proper s e) :
    ∃ s', s.exec e = .ok s' ∧ Good s' := by
  cases e with
  | enter t c =>
    obtain ⟨ht, hf⟩ := he
    have hnew := h.new (t := t) hf (by simp [ht])
    rw [ht] at hnew
    exact ⟨_, rfl, hnew⟩
  | leave t =>
    obtain ⟨a, ht, hc, -⟩ := he
    have hsus := h.not_suspended (mem_envs (t := t) (a := a) (by simp [ht]))
    obtain ⟨hleave, hout⟩ := h.leave ht (synced_of_chain hc)
    exact ⟨_, by simp only [State.exec, ht]; rfl, hleave.erase hout hsus⟩
  | openScope t self =>
    obtain ⟨a, rest, ht, hself⟩ := he
    obtain ⟨hmem, hnest⟩ := h.mem t a (by simp [ht])
    obtain ⟨hhas, hchain⟩ := (h.has a.env hmem).openScope hself
    exact ⟨_, by simp only [State.exec, ht], h.within ht hhas (hchain ▸ hnest.openScope)⟩
  | closeScope t =>
    obtain ⟨a, rest, address, chain, ht, hc, hf⟩ := he
    obtain ⟨hmem, hnest⟩ := h.mem t a (by simp [ht])
    obtain ⟨env, hclose, hhas, hchain, -⟩ := (h.has a.env hmem).closeScope hc
    exact ⟨_, by simp only [State.exec, ht, hclose]; rfl,
      h.within ht hhas (hchain ▸ (hc ▸ hnest).closeScope hf)⟩
  | register t val =>
    obtain ⟨a, rest, ht, hc⟩ := he
    obtain ⟨hmem, hnest⟩ := h.mem t a (by simp [ht])
    obtain ⟨env, p, hregister, hhas, hchain⟩ := (h.has a.env hmem).register hc val
    exact ⟨_, by simp only [State.exec, ht, hregister]; rfl, h.within ht hhas (hchain ▸ hnest)⟩
  | assign c p val =>
    refine ⟨_, rfl, h.change (fun hc => (h.has c hc).write he val) rfl ?_⟩
    intro hs
    exact Env.syncScope_change hs rfl
  | setjmp t =>
    obtain ⟨a, rest, ht⟩ := List.exists_cons_of_ne_nil he
    have hnest := (h.mem t a (by simp [ht])).2
    set buf : JmpBuf := ⟨s.nextBuf, (s.env a.env).chain.head?, (s.env a.env).chain⟩ with hbuf
    have hset := h.setFrames (b := ⟨a.env, buf :: a.jmpBufList, buf :: a.frames⟩) ht rfl
      (hnest.setjmp s.nextBuf)
    exact ⟨_, by simp only [State.exec, ht]; rfl, hset.setNextBuf (s.nextBuf + 1)⟩
  | popJmpBuf t =>
    obtain ⟨a, rest, ht, -, -⟩ := he
    have hnest := (h.mem t a (by simp [ht])).2
    exact ⟨_, by simp only [State.exec, ht],
      h.setFrames (b := ⟨a.env, a.jmpBufList.tail, a.frames.tail⟩) ht rfl hnest.tail⟩
  | abandon t =>
    obtain ⟨a, rest, ht, -⟩ := he
    have hnest := (h.mem t a (by simp [ht])).2
    exact ⟨_, by simp only [State.exec, ht],
      h.setFrames (b := ⟨a.env, a.jmpBufList, a.frames.tail⟩) ht rfl hnest.tail⟩
  | longjmp t =>
    obtain ⟨s', _, hexec, h', _⟩ := h.longjmp hp
    exact ⟨s', hexec, h'⟩
  | start t c =>
    obtain ⟨hne, hf⟩ := he
    obtain ⟨a, rest, ht⟩ := List.exists_cons_of_ne_nil hne
    obtain ⟨h₁, hsync⟩ := h.sync a.env
    have hnew := h₁.new (t := t) (c := c) hf fun b hb => by
      obtain rfl : a = b := by simpa [State.setEnv, ht] using hb
      exact hsync
    rw [show (s.setEnv a.env (s.env a.env).syncScope).threads t = a :: rest from ht] at hnew
    exact ⟨_, by simp only [State.exec, ht], hnew⟩
  | resume t c =>
    obtain ⟨hne, hsus⟩ := he
    obtain ⟨a, rest, ht⟩ := List.exists_cons_of_ne_nil hne
    obtain ⟨b, hb⟩ := Option.ne_none_iff_exists'.1 hsus
    obtain ⟨rfl, hmem, hnest, hout⟩ := h.suspended c b hb
    obtain ⟨h₁, hsync⟩ := h.sync a.env
    have hchain : ((s.setEnv a.env (s.env a.env).syncScope).env b.env).chain
        = (s.env b.env).chain := by
      by_cases hba : b.env = a.env
      · simp [State.setEnv, hba, Env.chain_syncScope]
      · simp [State.setEnv, hba]
    have henter := (h₁.unsuspend b.env).enter (t := t) (b := b) hmem hout (by simp)
      (hchain ▸ hnest) fun x hx => by
        obtain rfl : a = x := by simpa [State.setEnv, ht] using hx
        exact hsync
    rw [show ({ s.setEnv a.env (s.env a.env).syncScope with
      suspended := Function.update s.suspended b.env none } : State T C V).threads t = a :: rest
      from ht] at henter
    exact ⟨_, by simp only [State.exec, ht, hb]; rfl, henter⟩
  | yield t =>
    obtain ⟨a, b, rest, ht⟩ := he
    obtain ⟨hmem, hnest⟩ := h.mem t a (by simp [ht])
    obtain ⟨h₁, hsync⟩ := h.sync a.env
    obtain ⟨hleave, hout⟩ := h₁.leave ht hsync
    refine ⟨_, by simp only [State.exec, ht]; rfl, hleave.suspend hmem ?_ hout⟩
    simpa [State.setThread, State.setEnv, Env.chain_syncScope] using hnest
  | finish t =>
    obtain ⟨a, b, rest, ht, hc, -⟩ := he
    exact ⟨_, by simp only [State.exec, ht], (h.leave ht (synced_of_chain hc)).1⟩
  | finalize c =>
    have hout : ∀ t, c ∉ s.envs t := by
      intro t hmem
      obtain ⟨a, ha, rfl⟩ := List.mem_map.1 hmem
      exact he t a ha rfl
    exact ⟨_, rfl, (h.unsuspend c).erase hout (by simp)⟩
  | sync t =>
    obtain ⟨a, rest, ht⟩ := List.exists_cons_of_ne_nil he
    exact ⟨_, by simp only [State.exec, ht], (h.sync a.env).1⟩
  | collect keeper => exact h.collect (fun c hc => ⟨hc, h.synced hc hp⟩) keeper

end Steps

section Run

/-- A thread is in the environment, or its coroutine has yielded. -/
def State.InUse (s : State T C V) (c : C) : Prop :=
  (∃ t, ∃ a ∈ s.threads t, a.env = c) ∨ s.suspended c ≠ none

/-- The collector visits the handles of the open scopes once, with what they are, and no others. -/
structure Kept (s : State T C V) : Prop where
  once : s.handles.Nodup
  inUse : ∀ c, s.InUse c → c ∈ s.handles
  scopes : ∀ c ∈ s.handles, (s.registered c).length = (s.env c).chain.length
  visits : s.InStep → ∀ c ∈ s.handles,
    ∃ l, (s.env c).handles.visits = .ok l ∧ l.Nodup
      ∧ l.Perm ((s.registered c).flatten.map Prod.fst)
  read : ∀ c ∈ s.handles, ∀ r ∈ (s.registered c).flatten, (s.env c).handles.read r.1 = some r.2

theorem Good.kept {s : State T C V} (h : Good s) : Kept s := by
  refine ⟨h.nodup, ?_, fun c hc => (h.has c hc).length_eq, ?_, fun c hc => (h.has c hc).read⟩
  · rintro c (⟨t, a, ha, rfl⟩ | hc)
    · exact (h.mem t a ha).1
    · obtain ⟨a, ha⟩ := Option.ne_none_iff_exists'.1 hc
      exact (h.suspended c a ha).2.1
  · intro hsync c hc
    obtain ⟨l, hl, hp⟩ := (h.has c hc).visits (h.synced hc hsync)
    exact ⟨l, hl, hp.nodup_iff.2 (h.has c hc).nodup_ptrs, hp⟩

variable [DecidableEq T] [DecidableEq C]

/-- What a program may do next is done, and an exception ends with the scopes of its frame. -/
def Works (s : State T C V) (e : Action T C V) : Prop :=
  ∃ s', s.exec e = .ok s' ∧ ∀ t, e = .longjmp t →
    ∃ buf, (s.jmpBufList t).head? = some buf ∧ s'.Lands t buf

theorem Good.works {s : State T C V} (h : Good s) {e : Action T C V} (he : s.Enabled e)
    (hp : Proper s e) : Works s e := by
  by_cases hjump : ∃ t, e = .longjmp t
  · obtain ⟨t, rfl⟩ := hjump
    obtain ⟨s', buf, hexec, -, hhead, hlands⟩ := h.longjmp hp
    refine ⟨s', hexec, ?_⟩
    rintro t' ⟨⟩
    exact ⟨buf, hhead, hlands⟩
  · obtain ⟨s', hexec, -⟩ := h.exec he hp
    exact ⟨s', hexec, fun t ht => absurd ⟨t, ht⟩ hjump⟩

theorem Good.step {s s' : State T C V} {e : Action T C V} (h : Good s)
    (hs : Only Proper Step s e s') : Good s' := by
  obtain ⟨hp, he, hexec⟩ := hs
  obtain ⟨s'', hexec', h'⟩ := h.exec he hp
  obtain rfl : s'' = s' := by simpa using hexec'.symm.trans hexec
  exact h'

/-- In a run in which every exception goes to a frame that has not returned, in the environment it
is raised in, and collections find the threads in step, the collector visits what is registered in
the open scopes. -/
theorem kept_of_proper {es : List (Action T C V)} {s : State T C V}
    (h : Run (Only Proper Step) start es s) :
    Kept s ∧ ∀ e, s.Enabled e → Proper s e → Works s e := by
  have hgood := h.invariant (I := Good) (fun _ _ _ hs he => hs.step he) good_start
  exact ⟨hgood.kept, fun e he hp => hgood.works he hp⟩

/-- A frame of C with a buffer, an exception in a scope inside it. -/
def caught : List (Action Unit ℕ ℕ) :=
  [.enter () 0, .openScope () ⟨1, 0, none, none⟩, .register () 7, .setjmp (),
    .openScope () ⟨2, 0, none, none⟩, .register () 8, .longjmp ()]

theorem kept_caught : ∃ s : State Unit ℕ ℕ, Run (Only Proper Step) start caught s ∧ Kept s
    ∧ ∀ e, s.Enabled e → Proper s e → Works s e := by
  have hrun : ∃ s : State Unit ℕ ℕ, Run (Only Proper Step) start caught s := by
    refine ⟨_, .cons ⟨trivial, ?_, rfl⟩ (.cons ⟨trivial, ?_, rfl⟩ (.cons ⟨trivial, ?_, rfl⟩
      (.cons ⟨trivial, ?_, rfl⟩ (.cons ⟨trivial, ?_, rfl⟩ (.cons ⟨trivial, ?_, rfl⟩
      (.cons ⟨?_, ?_, rfl⟩ (.nil _)))))))⟩
    · simp [State.Enabled, State.Fresh, start]
    · exact ⟨_, _, rfl, by decide⟩
    · exact ⟨_, _, rfl, by decide⟩
    · exact List.cons_ne_nil _ _
    · exact ⟨_, _, rfl, by decide⟩
    · exact ⟨_, _, rfl, by decide⟩
    · exact ⟨_, _, rfl, List.find?_cons_of_pos (decide_eq_true List.mem_cons_self), .inl rfl⟩
    · exact List.cons_ne_nil _ _
  obtain ⟨s, h⟩ := hrun
  exact ⟨s, h, kept_of_proper h⟩

/-- An exception in the body of a coroutine. -/
def raised : List (Action Unit ℕ ℕ) :=
  [.enter () 0, .openScope () ⟨1, 0, none, none⟩, .setjmp (), .start () 1,
    .openScope () ⟨2, 0, none, none⟩]

/-- The scope of the resumer is not among those of the coroutine. -/
theorem not_works_raised : ¬∀ (es : List (Action Unit ℕ ℕ)) (s : State Unit ℕ ℕ),
    Run Step start es s → Kept s ∧ ∀ e, s.Enabled e → Works s e := by
  have hrun : ∃ s : State Unit ℕ ℕ, Run Step start raised s ∧ s.Enabled (.longjmp ())
      ∧ s.exec (.longjmp ()) = .error .null := by
    refine ⟨_, .cons ⟨?_, rfl⟩ (.cons ⟨?_, rfl⟩ (.cons ⟨?_, rfl⟩ (.cons ⟨?_, rfl⟩
      (.cons ⟨?_, rfl⟩ (.nil _))))), ?_, rfl⟩
    · simp [State.Enabled, State.Fresh, start]
    · exact ⟨_, _, rfl, by decide⟩
    · exact List.cons_ne_nil _ _
    · refine ⟨List.cons_ne_nil _ _, by decide, rfl, ?_⟩
      rintro ⟨⟩ a ha
      obtain rfl := List.mem_singleton.1 ha
      exact Nat.zero_ne_one
    · exact ⟨_, _, rfl, by decide⟩
    · exact List.cons_ne_nil _ _
  obtain ⟨s, hrun, he, hexec⟩ := hrun
  intro h
  obtain ⟨s', hexec', -⟩ := (h raised s hrun).2 _ he
  rw [hexec] at hexec'
  exact absurd hexec' (by simp)

end Run

end Handle

end Yog
