import Yog.Coroutine
import Yog.Proofs.Handles

/-!
# Switches between coroutines

As long as no exception leaves a body, no coroutine is resumed that is running or waits, and `yield`
is called by a body that has a jump buffer, the thread is what the sides have of their own, one on
the other (`simulates_of_proper`): frames and jump buffers are cut off and hung on again in the
right places, and every value gets where it has to. An exception that leaves the body of a coroutine
is not one that `resume` raises (`not_simulates_unhandled`).
-/

namespace Yog

namespace Coroutines

open Handle (Address JmpBuf)
open Linked

variable {C V : Type}

/-- The buffers of a side. -/
def Own.ids (o : Own) : List Buf := o.bufs.map (·.id)

section Relation

variable (s : State C V)

/-- What the side has is there. -/
structure Side (e : Option C) (o : Own) : Prop where
  scopes : (s.env e).scopes = o.scopes
  scopesNodup : o.scopes.Nodup
  nested : Handle.Nested o.scopes o.bufs
  framesNodup : o.frames.Nodup
  idsNodup : o.ids.Nodup
  frames : ∀ f ∈ o.frames, f ∈ s.frames
  bufs : ∀ b ∈ o.bufs, b.id ∈ s.bufs ∧ s.bufEnv b.id = e ∧ s.bufScope b.id = b.scope

/-- The frames and the buffers of a side lead to those of the side below. -/
structure Top (e : Option C) (o : Own) (jmpBufList : Option Buf) : Prop where
  coroutine : (s.env e).coroutine = e
  frames : Seg s.framePrev (s.env e).frame o.frames (s.bottomFrame e)
  bufs : Seg s.bufPrev jmpBufList o.ids (s.bottomBuf e)

/-- A side waits in `resume` of a coroutine. -/
structure Waits (c : C) (e : Option C) (o : Own) : Prop where
  status : (s.coroutine c).status = .running
  boundary : (s.coroutine c).boundaryFrame = (s.env e).frame
  called : o.frames ≠ []
  ctx : (s.coroutine c).ctxToYield = some (.resume e (s.coroutine c).prevJmpBuf)

/-- The sides from the running one down to the first. -/
inductive Stacked (own : Option C → Own) : Option Buf → List (Option C) → Prop
  | main {jmpBufList : Option Buf} : Top s none (own none) jmpBufList →
    Stacked own jmpBufList [none]
  | cons {jmpBufList : Option Buf} {self : C} {e : Option C} {rest : List (Option C)} :
    Top s (some self) (own (some self)) jmpBufList → Waits s self e (own e) →
    Stacked own (s.coroutine self).prevJmpBuf (e :: rest) →
    Stacked own jmpBufList (some self :: e :: rest)

/-- A coroutine has yielded. -/
structure Parked (c : C) (o : Own) : Prop where
  status : (s.coroutine c).status = .suspended
  coroutine : (s.env (some c)).coroutine = some c
  frames : Seg s.framePrev (s.env (some c)).frame o.frames none
  ctx : ∃ fs frame topJmpBuf ids bottomJmpBuf z,
    o.frames = fs ++ [frame] ∧ o.ids = ids ++ [bottomJmpBuf] ∧ Seg s.bufPrev topJmpBuf o.ids z
      ∧ (s.coroutine c).ctxToResume = some (.yield frame topJmpBuf bottomJmpBuf)

/-- What a coroutine is. -/
def Lives (σ : Spec.State C) (self : C) : Prop :=
  match σ.life self with
  | .fresh => (s.coroutine self).status = .suspended ∧ (s.coroutine self).ctxToResume = none
    ∧ σ.own (some self) = ⟨[], [], []⟩ ∧ some self ∉ σ.stack
  | .running => some self ∈ σ.stack
  | .suspended => Parked s self (σ.own (some self)) ∧ some self ∉ σ.stack
  | .dead => (s.coroutine self).status = .dead ∧ some self ∉ σ.stack

structure Matches (σ : Spec.State C) : Prop where
  current : σ.stack.head? = some s.current
  stacked : Stacked s σ.own s.jmpBufList σ.stack
  once : σ.stack.Nodup
  side : ∀ e, Side s e (σ.own e)
  apart : ∀ e e', e ≠ e' →
    (σ.own e).frames.Disjoint (σ.own e').frames ∧ (σ.own e).ids.Disjoint (σ.own e').ids
  life : ∀ self, Lives s σ self

end Relation

/-- What a side has is not touched. -/
structure Keeps (s s' : State C V) (e : Option C) (o : Own) : Prop where
  env : s'.env e = s.env e
  framePrev : ∀ f ∈ o.frames, s'.framePrev f = s.framePrev f
  frames : ∀ f ∈ o.frames, f ∈ s.frames → f ∈ s'.frames
  bufPrev : ∀ b ∈ o.ids, s'.bufPrev b = s.bufPrev b
  bufs : ∀ b ∈ o.ids, b ∈ s.bufs →
    b ∈ s'.bufs ∧ s'.bufEnv b = s.bufEnv b ∧ s'.bufScope b = s.bufScope b

section Keeps

variable {s s' : State C V} {own own' : Option C → Own} {e : Option C} {o : Own} {self : C}
  {jmpBufList : Option Buf} {stack rest : List (Option C)}

theorem mem_ids {b : JmpBuf} (hb : b ∈ o.bufs) : b.id ∈ o.ids := List.mem_map_of_mem hb

theorem Side.congr (h : Side s e o) (henv : s'.env e = s.env e)
    (hframes : ∀ f ∈ o.frames, f ∈ s.frames → f ∈ s'.frames)
    (hbufs : ∀ b ∈ o.ids, b ∈ s.bufs →
      b ∈ s'.bufs ∧ s'.bufEnv b = s.bufEnv b ∧ s'.bufScope b = s.bufScope b) : Side s' e o := by
  refine ⟨by rw [henv, h.scopes], h.scopesNodup, h.nested, h.framesNodup, h.idsNodup,
    fun f hf => hframes f hf (h.frames f hf), ?_⟩
  intro b hb
  obtain ⟨hmem, hbufEnv, hscope⟩ := h.bufs b hb
  obtain ⟨hmem', hbufEnv', hscope'⟩ := hbufs b.id (mem_ids hb) hmem
  exact ⟨hmem', hbufEnv'.trans hbufEnv, hscope'.trans hscope⟩

theorem Side.keep (h : Side s e o) (hk : Keeps s s' e o) : Side s' e o :=
  h.congr hk.env hk.frames hk.bufs

theorem Top.congr (h : Top s e o jmpBufList) (hk : Keeps s s' e o)
    (hco : ∀ self, e = some self → s'.coroutine self = s.coroutine self) :
    Top s' e o jmpBufList := by
  have hbottom : s'.bottomFrame e = s.bottomFrame e ∧ s'.bottomBuf e = s.bottomBuf e := by
    rcases e with _ | self
    · exact ⟨rfl, rfl⟩
    · simp [State.bottomFrame, State.bottomBuf, hco self rfl]
  refine ⟨by rw [hk.env, h.coroutine], ?_, ?_⟩
  · rw [hk.env, hbottom.1]
    exact h.frames.congr hk.framePrev
  · rw [hbottom.2]
    exact h.bufs.congr hk.bufPrev

theorem Parked.congr (h : Parked s self o) (hk : Keeps s s' (some self) o)
    (hco : s'.coroutine self = s.coroutine self) : Parked s' self o := by
  obtain ⟨fs, frame, topJmpBuf, ids, bottomJmpBuf, z, hfs, hids, hseg, hctx⟩ := h.ctx
  refine ⟨by rw [hco, h.status], by rw [hk.env, h.coroutine], ?_, fs, frame, topJmpBuf, ids,
    bottomJmpBuf, z, hfs, hids, hseg.congr hk.bufPrev, by rw [hco, hctx]⟩
  rw [hk.env]
  exact h.frames.congr hk.framePrev

theorem Waits.congr (h : Waits s self e o) (hk : Keeps s s' e o)
    (hco : s'.coroutine self = s.coroutine self) : Waits s' self e o :=
  ⟨by rw [hco, h.status], by rw [hco, hk.env, h.boundary], h.called, by rw [hco, h.ctx]⟩

theorem Stacked.congr (h : Stacked s own jmpBufList stack)
    (hown : ∀ e ∈ stack, own' e = own e) (hk : ∀ e ∈ stack, Keeps s s' e (own e))
    (hco : ∀ self, some self ∈ stack → s'.coroutine self = s.coroutine self) :
    Stacked s' own' jmpBufList stack := by
  induction h with
  | main htop =>
    refine .main ?_
    rw [hown none (by simp)]
    exact htop.congr (hk none (by simp)) (by simp)
  | @cons jmpBufList self e rest htop hwaits _ ih =>
    have hself := hco self (by simp)
    refine .cons ?_ ?_ ?_
    · rw [hown _ (by simp)]
      refine htop.congr (hk _ (by simp)) ?_
      rintro _ ⟨⟩
      exact hself
    · rw [hown e (by simp)]
      exact hwaits.congr (hk e (by simp)) hself
    · rw [hself]
      exact ih (fun e he => hown e (by simp [he])) (fun e he => hk e (by simp [he]))
        fun x hx => hco x (by simp [hx])

theorem Stacked.top (h : Stacked s own jmpBufList (e :: rest)) : Top s e (own e) jmpBufList := by
  rcases h with h | ⟨h, -, -⟩ <;> exact h

/-- The running side has changed what is its own. -/
theorem Stacked.setTop (h : Stacked s own jmpBufList (e :: rest)) {jmpBufList' : Option Buf}
    (htop : Top s' e (own' e) jmpBufList') (hown : ∀ x ∈ rest, own' x = own x)
    (hk : ∀ x ∈ rest, Keeps s s' x (own x))
    (hco : ∀ self, some self ∈ e :: rest → s'.coroutine self = s.coroutine self) :
    Stacked s' own' jmpBufList' (e :: rest) := by
  rcases h with h | ⟨-, hwaits, hrest⟩
  · exact .main htop
  · rename_i self e rest
    have hself := hco self (by simp)
    refine .cons htop ?_ ?_
    · rw [hown e (by simp)]
      exact hwaits.congr (hk e (by simp)) hself
    · rw [hself]
      exact hrest.congr hown hk fun x hx => hco x (List.mem_cons_of_mem _ hx)

theorem Stacked.status (h : Stacked s own jmpBufList stack) (hself : some self ∈ stack) :
    (s.coroutine self).status = .running := by
  induction h with
  | main => simp at hself
  | cons _ hwaits _ ih =>
    rcases List.mem_cons.1 hself with heq | hself
    · obtain rfl := Option.some_inj.1 heq
      exact hwaits.status
    · exact ih hself

/-- The first buffer of the list is one of a side. -/
theorem Stacked.mem_ids (h : Stacked s own jmpBufList stack) {b : Buf} (hb : jmpBufList = some b) :
    ∃ e ∈ stack, b ∈ (own e).ids := by
  induction h with
  | @main jmpBufList htop =>
    refine ⟨none, by simp, ?_⟩
    rcases hids : (own none).ids with _ | ⟨b', ids⟩
    · have hnone : jmpBufList = none := Seg.nil_iff.1 (hids ▸ htop.bufs)
      simp [hnone] at hb
    · have hhead := (Seg.cons_iff.1 (hids ▸ htop.bufs)).1
      rw [hb, Option.some_inj] at hhead
      simp [hhead]
  | @cons jmpBufList self e rest htop _ hrest ih =>
    rcases hids : (own (some self)).ids with _ | ⟨b', ids⟩
    · have hbelow : jmpBufList = (s.coroutine self).prevJmpBuf := Seg.nil_iff.1 (hids ▸ htop.bufs)
      obtain ⟨x, hx, hmem⟩ := ih (hbelow ▸ hb)
      exact ⟨x, List.mem_cons_of_mem _ hx, hmem⟩
    · have hhead := (Seg.cons_iff.1 (hids ▸ htop.bufs)).1
      rw [hb, Option.some_inj] at hhead
      exact ⟨some self, by simp, by simp [hids, hhead]⟩

end Keeps

section Own

variable {nil : V} {s s' : State C V} {σ : Spec.State C} {o : Own}

theorem Matches.exists_stack (h : Matches s σ) : ∃ rest, σ.stack = s.current :: rest := by
  have hcur := h.current
  rcases hs : σ.stack with _ | ⟨e, rest⟩
  · simp [hs] at hcur
  · obtain rfl : e = s.current := by simpa [hs] using hcur
    exact ⟨rest, rfl⟩

theorem Matches.top (h : Matches s σ) : Top s s.current (σ.own s.current) s.jmpBufList := by
  obtain ⟨rest, hstack⟩ := h.exists_stack
  exact (hstack ▸ h.stacked).top

theorem Matches.frames_ne_nil (h : Matches s σ)
    (hne : (s.env s.current).frame ≠ s.bottomFrame s.current) : (σ.own s.current).frames ≠ [] := by
  intro hnil
  exact hne (Seg.nil_iff.1 (hnil ▸ h.top.frames))

theorem Matches.frame_notMem (h : Matches s σ) {frame : Frame} (hf : frame ∉ s.frames)
    (x : Option C) : frame ∉ (σ.own x).frames := fun hmem => hf ((h.side x).frames frame hmem)

theorem Matches.buf_notMem (h : Matches s σ) {buf : Buf} (hb : buf ∉ s.bufs) (x : Option C) :
    buf ∉ (σ.own x).ids := by
  intro hmem
  obtain ⟨b, hbmem, rfl⟩ := List.mem_map.1 hmem
  exact hb ((h.side x).bufs b hbmem).1

/-- The list of buffers begins with one of the running side, if that has any. -/
theorem Matches.exists_buf (h : Matches s σ) (hne : s.jmpBufList ≠ s.bottomBuf s.current) :
    ∃ buf bufs, (σ.own s.current).bufs = buf :: bufs ∧ s.jmpBufList = some buf.id := by
  have htop := h.top.bufs
  rcases hbufs : (σ.own s.current).bufs with _ | ⟨buf, bufs⟩
  · rw [Own.ids, hbufs] at htop
    exact absurd (Seg.nil_iff.1 htop) hne
  · rw [Own.ids, hbufs, List.map_cons] at htop
    exact ⟨buf, bufs, rfl, (Seg.cons_iff.1 htop).1⟩

variable [DecidableEq C]

theorem setOwn_of_ne {e x : Option C} (hx : x ≠ e) : (σ.setOwn e o).own x = σ.own x := by
  simp [Spec.State.setOwn, hx]

/-- The running side changes what is its own. -/
theorem Matches.setOwn (h : Matches s σ) (hcur : s'.current = s.current)
    (hco : s'.coroutine = s.coroutine) (hk : ∀ x, x ≠ s.current → Keeps s s' x (σ.own x))
    (htop : Top s' s.current o s'.jmpBufList) (hside : Side s' s.current o)
    (hapart : ∀ x, x ≠ s.current →
      o.frames.Disjoint (σ.own x).frames ∧ o.ids.Disjoint (σ.own x).ids) :
    Matches s' (σ.setOwn s.current o) := by
  obtain ⟨rest, hstack⟩ := h.exists_stack
  have honce := h.once
  rw [hstack] at honce
  have hne : ∀ x ∈ rest, x ≠ s.current := by
    rintro x hx rfl
    exact (List.nodup_cons.1 honce).1 hx
  have hself : (σ.setOwn s.current o).own s.current = o := by simp [Spec.State.setOwn]
  refine ⟨by rw [hcur]; exact h.current, ?_, h.once, ?_, ?_, ?_⟩
  · rw [show (σ.setOwn s.current o).stack = s.current :: rest from hstack]
    refine (hstack ▸ h.stacked).setTop (by rwa [hself]) (fun x hx => setOwn_of_ne (hne x hx))
      (fun x hx => hk x (hne x hx)) ?_
    intro self _
    rw [hco]
  · intro x
    by_cases hx : x = s.current
    · subst hx
      rwa [hself]
    · rw [setOwn_of_ne hx]
      exact (h.side x).keep (hk x hx)
  · intro x y hxy
    by_cases hx : x = s.current
    · subst hx
      rw [hself, setOwn_of_ne hxy.symm]
      exact hapart y hxy.symm
    · by_cases hy : y = s.current
      · subst hy
        rw [hself, setOwn_of_ne hx]
        exact ⟨List.disjoint_symm (hapart x hx).1, List.disjoint_symm (hapart x hx).2⟩
      · rw [setOwn_of_ne hx, setOwn_of_ne hy]
        exact h.apart x y hxy
  · intro self
    have hlife := h.life self
    unfold Lives at hlife ⊢
    have hout : some self ∉ σ.stack → some self ≠ s.current := by
      intro hnot heq
      exact hnot (by simp [hstack, heq])
    rw [show (σ.setOwn s.current o).life self = σ.life self from rfl, hco]
    rcases hl : σ.life self <;> rw [hl] at hlife
    · obtain ⟨hstatus, hctx, hown, hnot⟩ := hlife
      exact ⟨hstatus, hctx, by rw [setOwn_of_ne (hout hnot), hown], hnot⟩
    · exact hlife
    · obtain ⟨hparked, hnot⟩ := hlife
      rw [setOwn_of_ne (hout hnot)]
      exact ⟨hparked.congr (hk _ (hout hnot)) (by rw [hco]), hnot⟩
    · exact hlife

/-- The sides do what the thread does. -/
def Follows (nil : V) (s : State C V) (σ : Spec.State C) (a : Action C V) : Prop :=
  ∃ s' σ' ev, s.exec nil a = .ok (s', ev) ∧ σ.exec nil a = some (σ', ev) ∧ Matches s' σ'

theorem Matches.pushFrame (h : Matches s σ) {frame : Frame} (he : s.Enabled (.pushFrame frame)) :
    Follows nil s σ (.pushFrame frame) := by
  have hside := h.side s.current
  have hne : ∀ x, ∀ f ∈ (σ.own x).frames, f ≠ frame := by
    rintro x f hf rfl
    exact h.frame_notMem he x hf
  simp only [Follows, State.exec, Spec.State.exec, h.current, Option.map_some]
  refine ⟨_, _, _, rfl, rfl, h.setOwn rfl rfl ?_ ?_ ?_ ?_⟩
  · intro x hx
    exact ⟨by simp [State.setEnv, hx], fun f hf => by simp [hne x f hf],
      fun f _ hf => List.mem_cons_of_mem _ hf, fun _ _ => rfl, fun _ _ hb => ⟨hb, rfl, rfl⟩⟩
  · refine ⟨by simpa [State.setEnv] using h.top.coroutine, ?_, h.top.bufs⟩
    simp only [State.setEnv, Function.update_self]
    refine .cons ?_
    rw [Function.update_self]
    exact h.top.frames.congr fun f hf => by simp [hne s.current f hf]
  · exact ⟨by simpa [State.setEnv] using hside.scopes, hside.scopesNodup, hside.nested,
      List.nodup_cons.2 ⟨h.frame_notMem he _, hside.framesNodup⟩, hside.idsNodup,
      fun f hf => by
        rcases List.mem_cons.1 hf with rfl | hf
        · exact List.mem_cons_self
        · exact List.mem_cons_of_mem _ (hside.frames f hf), hside.bufs⟩
  · intro x hx
    obtain ⟨hframes, hids⟩ := h.apart s.current x hx.symm
    exact ⟨List.disjoint_cons_left.2 ⟨h.frame_notMem he x, hframes⟩, hids⟩

theorem Matches.popFrame (h : Matches s σ) (he : s.Enabled .popFrame) :
    Follows nil s σ .popFrame := by
  have hside := h.side s.current
  have htop := h.top
  rcases hframes : (σ.own s.current).frames with _ | ⟨frame, frames⟩
  · exact absurd (Seg.nil_iff.1 (hframes ▸ htop.frames)) he
  obtain ⟨hframe, hrest⟩ := Seg.cons_iff.1 (hframes ▸ htop.frames)
  have hnodup := List.nodup_cons.1 (hframes ▸ hside.framesNodup)
  have herase : ∀ x, ∀ f ∈ (σ.own x).frames, f ≠ frame → f ∈ s.frames.erase frame := by
    intro x f hf hne
    exact (List.mem_erase_of_ne hne).2 ((h.side x).frames f hf)
  simp only [Follows, State.exec, hframe, Spec.State.exec, h.current, Option.map_some, hframes,
    List.tail_cons]
  refine ⟨_, _, _, rfl, rfl, h.setOwn rfl rfl ?_ ?_ ?_ ?_⟩
  · intro x hx
    refine ⟨by simp [State.setEnv, hx], fun _ _ => rfl, fun f hf _ => herase x f hf ?_,
      fun _ _ => rfl, fun _ _ hb => ⟨hb, rfl, rfl⟩⟩
    rintro rfl
    exact (h.apart x s.current hx).1 hf (by simp [hframes])
  · exact ⟨by simpa [State.setEnv] using htop.coroutine,
      by simpa [State.setEnv, State.bottomFrame] using hrest, htop.bufs⟩
  · refine ⟨by simpa [State.setEnv] using hside.scopes, hside.scopesNodup, hside.nested, hnodup.2,
      hside.idsNodup, fun f hf => herase s.current f (by simp [hframes, hf]) ?_, hside.bufs⟩
    rintro rfl
    exact hnodup.1 hf
  · intro x hx
    obtain ⟨hdisj, hids⟩ := h.apart s.current x hx.symm
    rw [hframes] at hdisj
    exact ⟨(List.disjoint_cons_left.1 hdisj).2, hids⟩

theorem Matches.setjmp (h : Matches s σ) {buf : Buf} (he : s.Enabled (.setjmp buf)) :
    Follows nil s σ (.setjmp buf) := by
  have hside := h.side s.current
  have hne : ∀ x, ∀ b ∈ (σ.own x).ids, b ≠ buf := by
    rintro x b hb rfl
    exact h.buf_notMem he x hb
  simp only [Follows, State.exec, Spec.State.exec, h.current, Option.map_some]
  refine ⟨_, _, _, rfl, rfl, h.setOwn rfl rfl ?_ ?_ ?_ ?_⟩
  · intro x hx
    exact ⟨rfl, fun _ _ => rfl, fun _ _ hf => hf, fun b hb => by simp [hne x b hb],
      fun b hb hmem => ⟨List.mem_cons_of_mem _ hmem, by simp [hne x b hb], by simp [hne x b hb]⟩⟩
  · refine ⟨h.top.coroutine, h.top.frames, .cons ?_⟩
    simp only [Function.update_self]
    exact h.top.bufs.congr fun b hb => by simp [hne s.current b hb]
  · refine ⟨hside.scopes, hside.scopesNodup, hside.nested.setjmp buf, hside.framesNodup,
      List.nodup_cons.2 ⟨h.buf_notMem he _, hside.idsNodup⟩, hside.frames, ?_⟩
    intro b hb
    rcases List.mem_cons.1 hb with rfl | hb
    · exact ⟨List.mem_cons_self, by simp, by simp [hside.scopes]⟩
    · obtain ⟨hmem, henv, hscope⟩ := hside.bufs b hb
      have hb' := hne s.current b.id (mem_ids hb)
      exact ⟨List.mem_cons_of_mem _ hmem, by simp [hb', henv], by simp [hb', hscope]⟩
  · intro x hx
    obtain ⟨hframes, hids⟩ := h.apart s.current x hx.symm
    exact ⟨hframes, List.disjoint_cons_left.2 ⟨h.buf_notMem he x, hids⟩⟩

theorem Matches.popJmpBuf (h : Matches s σ) (he : s.Enabled .popJmpBuf) :
    Follows nil s σ .popJmpBuf := by
  have hside := h.side s.current
  have htop := h.top
  obtain ⟨buf, bufs, hbufs, hlist⟩ := h.exists_buf he
  have hids : (σ.own s.current).ids = buf.id :: bufs.map (·.id) := by simp [Own.ids, hbufs]
  have hrest := (Seg.cons_iff.1 (hids ▸ htop.bufs)).2
  have hnodup := List.nodup_cons.1 (hids ▸ hside.idsNodup)
  simp only [Follows, State.exec, hlist, Spec.State.exec, h.current, Option.map_some, hbufs,
    List.tail_cons]
  refine ⟨_, _, _, rfl, rfl, h.setOwn rfl rfl ?_ ?_ ?_ ?_⟩
  · intro x hx
    refine ⟨rfl, fun _ _ => rfl, fun _ _ hf => hf, fun _ _ => rfl, fun b hb hmem => ⟨?_, rfl, rfl⟩⟩
    refine (List.mem_erase_of_ne ?_).2 hmem
    rintro rfl
    exact (h.apart x s.current hx).2 hb (by simp [hids])
  · exact ⟨htop.coroutine, htop.frames, hrest⟩
  · refine ⟨hside.scopes, hside.scopesNodup, by simpa [hbufs] using hside.nested.tail,
      hside.framesNodup, hnodup.2, hside.frames, ?_⟩
    intro b hb
    obtain ⟨hmem, henv, hscope⟩ := hside.bufs b (by simp [hbufs, hb])
    refine ⟨(List.mem_erase_of_ne ?_).2 hmem, henv, hscope⟩
    intro heq
    exact hnodup.1 (heq ▸ List.mem_map_of_mem hb)
  · intro x hx
    obtain ⟨hframes, hdisj⟩ := h.apart s.current x hx.symm
    rw [hids] at hdisj
    exact ⟨hframes, (List.disjoint_cons_left.1 hdisj).2⟩

/-- The running side opens scopes, or closes some. -/
theorem Matches.setScopes (h : Matches s σ) {scopes : List Address} (hnodup : scopes.Nodup)
    (hnest : Handle.Nested scopes (σ.own s.current).bufs) :
    Matches (s.setEnv s.current { s.env s.current with scopes })
      (σ.setOwn s.current { σ.own s.current with scopes }) := by
  have hside := h.side s.current
  have htop := h.top
  refine h.setOwn rfl rfl ?_ ?_ ?_ fun x hx => h.apart _ x hx.symm
  · intro x hx
    exact ⟨by simp [State.setEnv, hx], fun _ _ => rfl, fun _ _ hf => hf, fun _ _ => rfl,
      fun _ _ hb => ⟨hb, rfl, rfl⟩⟩
  · exact ⟨by simpa [State.setEnv] using htop.coroutine,
      by simpa [State.setEnv, State.bottomFrame] using htop.frames, htop.bufs⟩
  · exact ⟨by simp [State.setEnv], hnodup, hnest, hside.framesNodup, hside.idsNodup, hside.frames,
      hside.bufs⟩

theorem Matches.openScope (h : Matches s σ) {scope : Address} (he : s.Enabled (.openScope scope)) :
    Follows nil s σ (.openScope scope) := by
  have hside := h.side s.current
  simp only [Follows, State.exec, Spec.State.exec, h.current, Option.map_some]
  refine ⟨_, _, _, rfl, rfl, ?_⟩
  rw [hside.scopes]
  refine h.setScopes (List.nodup_cons.2 ⟨?_, hside.scopesNodup⟩) hside.nested.openScope
  rw [← hside.scopes]
  exact he

theorem Matches.closeScope (h : Matches s σ) (he : s.Enabled .closeScope) :
    Follows nil s σ .closeScope := by
  have hside := h.side s.current
  obtain ⟨scope, rest, hscopes, hbufs⟩ := he
  have hown : (σ.own s.current).scopes = scope :: rest := by rw [← hside.scopes, hscopes]
  simp only [Follows, State.exec, Spec.State.exec, h.current, Option.map_some, hscopes, hown,
    List.tail_cons]
  refine ⟨_, _, _, rfl, rfl, h.setScopes (List.nodup_cons.1 (hown ▸ hside.scopesNodup)).2 ?_⟩
  refine (hown ▸ hside.nested).closeScope ?_
  intro b hb
  obtain ⟨hmem, henv, hscope⟩ := hside.bufs b hb
  rw [← hscope]
  exact hbufs b.id hmem henv

theorem closeUntil_append {target : Option Address} {pre post : List Address}
    (hnodup : (pre ++ post).Nodup) (htarget : target = post.head?) :
    closeUntil target (pre ++ post) = .ok post := by
  induction pre with
  | nil => rcases post with _ | ⟨scope, post⟩ <;> simp [closeUntil, htarget]
  | cons scope pre ih =>
    obtain ⟨hnot, hnodup⟩ := List.nodup_cons.1 hnodup
    have hne : target ≠ some scope := by
      intro heq
      exact hnot (List.mem_append_right _ (List.mem_of_mem_head? (htarget ▸ heq)))
    rw [List.cons_append, closeUntil, if_neg hne]
    exact ih hnodup

/-- An exception goes to a buffer of the side it is raised in. -/
theorem Matches.raise (h : Matches s σ) (hown : s.jmpBufList ≠ s.bottomBuf s.current) :
    Follows nil s σ .raise := by
  have hside := h.side s.current
  obtain ⟨rest, hstack⟩ := h.exists_stack
  obtain ⟨buf, bufs, hbufs, hlist⟩ := h.exists_buf hown
  obtain ⟨hmem, henv, hscope⟩ := hside.bufs buf (by simp [hbufs])
  obtain ⟨pre, hpre⟩ := hside.nested.suffix buf (by simp [hbufs])
  have hnodup := hside.scopesNodup
  rw [← hpre] at hnodup
  have hclose : closeUntil (s.bufScope buf.id) (s.env s.current).scopes = .ok buf.chain := by
    rw [hside.scopes, ← hpre]
    exact closeUntil_append hnodup (hscope.trans (hside.nested.scope buf (by simp [hbufs])))
  simp only [Follows, State.exec, State.raise, hlist, hclose, Spec.State.exec, hstack, hbufs, bind,
    Except.bind, pure, Except.pure, henv]
  refine ⟨_, _, _, rfl, rfl, ?_⟩
  have hnest := (hside.nested.longjmp (show buf ∈ _ by simp [hbufs])).1
  have hset := h.setScopes (List.nodup_append'.1 hnodup).2.1 (by simpa [hbufs] using hnest)
  simp only [hbufs] at hset
  exact hset

end Own

section Switches

variable {nil : V} {s s' : State C V} {σ : Spec.State C} {self : C}

/-- The running side is a coroutine that another side has resumed. -/
theorem Matches.exists_waits (h : Matches s σ) (hcur : s.current = some self) :
    ∃ e rest, σ.stack = some self :: e :: rest ∧ Waits s self e (σ.own e)
      ∧ Stacked s σ.own (s.coroutine self).prevJmpBuf (e :: rest) ∧ some self ∉ e :: rest := by
  obtain ⟨rest, hstack⟩ := h.exists_stack
  rw [hcur] at hstack
  have hstacked := hstack ▸ h.stacked
  have honce := List.nodup_cons.1 (hstack ▸ h.once)
  rcases hstacked with _ | ⟨-, hwaits, hrest⟩
  exact ⟨_, _, hstack, hwaits, hrest, honce.1⟩

theorem Side.length_frames {e : Option C} {o : Own} (h : Side s e o) :
    o.frames.length ≤ s.frames.length :=
  (List.subperm_of_subset h.framesNodup h.frames).length_le

theorem Side.length_ids {e : Option C} {o : Own} (h : Side s e o) :
    o.ids.length ≤ s.bufs.length := by
  refine (List.subperm_of_subset h.idsNodup ?_).length_le
  intro b hb
  obtain ⟨buf, hbuf, rfl⟩ := List.mem_map.1 hb
  exact (h.bufs buf hbuf).1

/-- The loop over the frames ends at the last one of the coroutine. -/
theorem Matches.walk_frames (h : Matches s σ) (hcur : s.current = some self)
    (hne : (s.env s.current).frame ≠ s.bottomFrame s.current) :
    ∃ fs frame, (σ.own (some self)).frames = fs ++ [frame]
      ∧ walk s.framePrev (s.coroutine self).boundaryFrame s.frames.length (s.env (some self)).frame
        = some frame := by
  obtain ⟨e, rest, -, hwaits, hrest, hout⟩ := h.exists_waits hcur
  have htop := h.top
  have hframes := h.frames_ne_nil hne
  rw [hcur] at htop hframes
  obtain ⟨fs, frame, hsplit⟩ :=
    (List.eq_nil_or_concat' (σ.own (some self)).frames).resolve_left hframes
  have hlen := (h.side (some self)).length_frames
  rw [hsplit, List.length_append] at hlen
  refine ⟨fs, frame, hsplit, (hsplit ▸ htop.frames).walk_eq ?_ hlen⟩
  intro x hx heq
  have hhead := hrest.top.frames.head?_eq hwaits.called
  rw [← hwaits.boundary, show (s.coroutine self).boundaryFrame = some x from heq] at hhead
  have hes : some self ≠ e := fun hes => hout (by simp [hes])
  exact (h.apart _ e hes).1 (hsplit ▸ hx) (List.mem_of_mem_head? hhead)

/-- `find_bottom_jmp_buf` finds the last buffer of the coroutine. -/
theorem Matches.walk_bufs (h : Matches s σ) (hcur : s.current = some self)
    (hne : s.jmpBufList ≠ s.bottomBuf s.current) :
    ∃ ids bottomJmpBuf, (σ.own (some self)).ids = ids ++ [bottomJmpBuf]
      ∧ walk s.bufPrev (s.coroutine self).prevJmpBuf s.bufs.length s.jmpBufList
        = some bottomJmpBuf := by
  obtain ⟨e, rest, -, -, hrest, hout⟩ := h.exists_waits hcur
  have htop := h.top
  rw [hcur] at htop hne
  have hids : (σ.own (some self)).ids ≠ [] := by
    intro hnil
    exact hne (Seg.nil_iff.1 (hnil ▸ htop.bufs))
  obtain ⟨ids, bottomJmpBuf, hsplit⟩ :=
    (List.eq_nil_or_concat' (σ.own (some self)).ids).resolve_left hids
  have hlen := (h.side (some self)).length_ids
  rw [hsplit, List.length_append] at hlen
  refine ⟨ids, bottomJmpBuf, hsplit, (hsplit ▸ htop.bufs).walk_eq ?_ hlen⟩
  intro x hx heq
  obtain ⟨e', he', hmem⟩ := hrest.mem_ids heq
  have hes : some self ≠ e' := fun hes => hout (hes ▸ he')
  exact (h.apart _ e' hes).2 (hsplit ▸ hx) hmem

variable [DecidableEq C]

/-- `resume` of a coroutine that is dead. -/
theorem Matches.resume_dead (h : Matches s σ) (hlife : σ.life self = .dead) (args : List V) :
    Follows nil s σ (.resume self args) := by
  obtain ⟨rest, hstack⟩ := h.exists_stack
  have hdead := h.life self
  simp only [Lives, hlife] at hdead
  simp only [Follows, State.exec, State.resume, hdead.1, if_true, Spec.State.exec, hstack,
    List.cons_ne_nil, if_false, Spec.State.resume, hlife]
  exact ⟨_, _, _, rfl, rfl, h⟩

/-- The coroutine has been pushed. -/
theorem Matches.push (h : Matches s σ) (hout : some self ∉ σ.stack)
    (hco : ∀ x, x ≠ self → s'.coroutine x = s.coroutine x)
    (hk : ∀ x, x ≠ some self → Keeps s s' x (σ.own x)) (hcur : s'.current = some self)
    (htop : Top s' (some self) (σ.own (some self)) s'.jmpBufList)
    (hside : Side s' (some self) (σ.own (some self)))
    (hwaits : Waits s' self s.current (σ.own s.current))
    (hbuf : (s'.coroutine self).prevJmpBuf = s.jmpBufList) :
    Matches s' { σ.setLife self .running with stack := some self :: σ.stack } := by
  obtain ⟨rest, hstack⟩ := h.exists_stack
  have hne : ∀ x ∈ σ.stack, x ≠ some self := by
    rintro x hx rfl
    exact hout hx
  refine ⟨by rw [hcur]; rfl, ?_, List.nodup_cons.2 ⟨hout, h.once⟩, ?_, h.apart, ?_⟩
  · rw [hstack]
    refine .cons htop hwaits ?_
    rw [hbuf, ← hstack]
    refine h.stacked.congr (fun _ _ => rfl) (fun x hx => hk x (hne x hx)) ?_
    rintro x hx
    exact hco x fun hxs => hne _ hx (by rw [hxs])
  · intro x
    by_cases hx : x = some self
    · subst hx
      exact hside
    · exact (h.side x).keep (hk x hx)
  · intro x
    by_cases hx : x = self
    · subst hx
      simp [Lives, Spec.State.setLife]
    · have hlife := h.life x
      have hxs : some x ≠ some self := by simpa using hx
      unfold Lives at hlife ⊢
      rw [show ({ σ.setLife self .running with stack := some self :: σ.stack } :
        Spec.State C).life x = σ.life x by simp [Spec.State.setLife, hx], hco x hx]
      rcases hl : σ.life x <;> rw [hl] at hlife
      · exact ⟨hlife.1, hlife.2.1, hlife.2.2.1, by simpa [hx] using hlife.2.2.2⟩
      · exact List.mem_cons_of_mem _ hlife
      · exact ⟨hlife.1.congr (hk _ hxs) (hco x hx), by simpa [hx] using hlife.2⟩
      · exact ⟨hlife.1, by simpa [hx] using hlife.2⟩

theorem last_notMem {l : List ℕ} {n : ℕ} (h : (l ++ [n]).Nodup) : n ∉ l := by
  intro hmem
  exact (List.nodup_append'.1 h).2.2 hmem (by simp)

/-- The first `resume` of a coroutine. -/
theorem Matches.resume_fresh (h : Matches s σ) (hlife : σ.life self = .fresh) {args : List V}
    (he : s.Enabled (.resume self args)) : Follows nil s σ (.resume self args) := by
  obtain ⟨rest, hstack⟩ := h.exists_stack
  have hfresh := h.life self
  simp only [Lives, hlife] at hfresh
  obtain ⟨hstatus, hctx, hown, hout⟩ := hfresh
  have hne : s.current ≠ some self := by
    intro heq
    exact hout (by simp [hstack, heq])
  simp only [Follows, State.exec, State.resume, hstatus, reduceCtorEq, if_false, hctx,
    Option.getD_none, State.switchContext, Spec.State.exec, hstack, List.cons_ne_nil,
    Spec.State.resume, hlife]
  refine ⟨_, _, _, rfl, by simp [State.setCoroutine]; rfl, ?_⟩
  rw [← hstack]
  refine h.push hout ?_ ?_ rfl ?_ ?_ ?_ ?_
  · intro x hx
    simp [State.setEnv, State.setCoroutine, hx]
  · intro x hx
    exact ⟨by simp [State.setEnv, State.setCoroutine, hx], fun _ _ => rfl, fun _ _ hf => hf,
      fun _ _ => rfl, fun _ _ hb => ⟨hb, rfl, rfl⟩⟩
  · rw [hown]
    exact ⟨by simp [State.setEnv],
      Seg.nil_iff.2 (by simp [State.setEnv, State.setCoroutine, State.bottomFrame]),
      Seg.nil_iff.2 (by simp [State.setEnv, State.setCoroutine, State.bottomBuf])⟩
  · rw [hown]
    exact ⟨by simp [State.setEnv], .nil, .nil, .nil, .nil, by simp, by simp⟩
  · exact ⟨by simp [State.setEnv, State.setCoroutine],
      by simp [State.setEnv, State.setCoroutine, hne], h.frames_ne_nil he,
      by simp [State.setEnv, State.setCoroutine]⟩
  · simp [State.setEnv, State.setCoroutine]

/-- `resume` of a coroutine that has yielded: its frames and buffers are hung on to those of the
side that resumes it. -/
theorem Matches.resume_suspended (h : Matches s σ) (hlife : σ.life self = .suspended)
    {args : List V} (he : s.Enabled (.resume self args)) : Follows nil s σ (.resume self args) := by
  obtain ⟨rest, hstack⟩ := h.exists_stack
  have hparked := h.life self
  simp only [Lives, hlife] at hparked
  obtain ⟨hparked, hout⟩ := hparked
  obtain ⟨fs, frame, topJmpBuf, ids, bottomJmpBuf, z, hframes, hids, hseg, hctx⟩ := hparked.ctx
  have hside := h.side (some self)
  have hne : s.current ≠ some self := by
    intro heq
    exact hout (by simp [hstack, heq])
  have hframe : ∀ x, x ≠ some self → ∀ f ∈ (σ.own x).frames, f ≠ frame := by
    rintro x hx f hf rfl
    exact (h.apart x _ hx).1 hf (by simp [hframes])
  have hbuf : ∀ x, x ≠ some self → ∀ b ∈ (σ.own x).ids, b ≠ bottomJmpBuf := by
    rintro x hx b hb rfl
    exact (h.apart x _ hx).2 hb (by simp [hids])
  have hfnot : frame ∉ fs := last_notMem (hframes ▸ hside.framesNodup)
  have hbnot : bottomJmpBuf ∉ ids := last_notMem (hids ▸ hside.idsNodup)
  simp only [Follows, State.exec, State.resume, hparked.status, reduceCtorEq, if_false, hctx,
    Option.getD_some, State.switchContext, Spec.State.exec, hstack, List.cons_ne_nil,
    Spec.State.resume, hlife]
  refine ⟨_, _, _, rfl, by simp [State.setCoroutine]; rfl, ?_⟩
  rw [← hstack]
  refine h.push hout ?_ ?_ rfl ?_ ?_ ?_ ?_
  · intro x hx
    simp [State.setCoroutine, hx]
  · intro x hx
    exact ⟨rfl, fun f hf => by simp [State.setCoroutine, hframe x hx f hf], fun _ _ hf => hf,
      fun b hb => by simp [State.setCoroutine, hbuf x hx b hb], fun _ _ hb => ⟨hb, rfl, rfl⟩⟩
  · refine ⟨hparked.coroutine, ?_, ?_⟩
    · have hrelink := (hframes ▸ hparked.frames).relink (y := (s.env s.current).frame) hfnot
      simpa [State.setCoroutine, State.bottomFrame, hframes] using hrelink
    · have hrelink := (hids ▸ hseg).relink (y := s.jmpBufList) hbnot
      simpa [State.setCoroutine, State.bottomBuf, hids] using hrelink
  · exact hside.congr rfl (fun _ _ hf => hf) fun _ _ hb => ⟨hb, rfl, rfl⟩
  · exact ⟨by simp [State.setCoroutine], by simp [State.setCoroutine], h.frames_ne_nil he,
      by simp [State.setCoroutine]⟩
  · simp [State.setCoroutine]

/-- The coroutine has been popped. -/
theorem Matches.pop (h : Matches s σ) {e : Option C} {rest : List (Option C)}
    (hstack : σ.stack = some self :: e :: rest)
    (hrest : Stacked s σ.own (s.coroutine self).prevJmpBuf (e :: rest))
    (hout : some self ∉ e :: rest) {life : Life}
    (hco : ∀ x, x ≠ self → s'.coroutine x = s.coroutine x)
    (hk : ∀ x, x ≠ some self → Keeps s s' x (σ.own x)) (hcur : s'.current = e)
    (hbuf : s'.jmpBufList = (s.coroutine self).prevJmpBuf)
    (hside : Side s' (some self) (σ.own (some self)))
    (hlives : life = .suspended ∧ Parked s' self (σ.own (some self))
      ∨ life = .dead ∧ (s'.coroutine self).status = .dead) :
    Matches s' { σ.setLife self life with stack := e :: rest } := by
  have hne : ∀ x ∈ e :: rest, x ≠ some self := by
    rintro x hx rfl
    exact hout hx
  refine ⟨by rw [hcur]; rfl, ?_, (List.nodup_cons.1 (hstack ▸ h.once)).2, ?_, h.apart, ?_⟩
  · rw [hbuf]
    refine hrest.congr (fun _ _ => rfl) (fun x hx => hk x (hne x hx)) ?_
    rintro x hx
    exact hco x fun hxs => hne _ hx (by rw [hxs])
  · intro x
    by_cases hx : x = some self
    · subst hx
      exact hside
    · exact (h.side x).keep (hk x hx)
  · intro x
    by_cases hx : x = self
    · subst hx
      rcases hlives with ⟨rfl, hparked⟩ | ⟨rfl, hdead⟩
      · simpa [Lives, Spec.State.setLife] using ⟨hparked, by simpa using hout⟩
      · simpa [Lives, Spec.State.setLife] using ⟨hdead, by simpa using hout⟩
    · have hlife := h.life x
      have hxs : some x ≠ some self := by simpa using hx
      unfold Lives at hlife ⊢
      rw [show ({ σ.setLife self life with stack := e :: rest } : Spec.State C).life x = σ.life x by
        simp [Spec.State.setLife, hx], hco x hx]
      have hmem : some x ∈ σ.stack ↔ some x ∈ e :: rest := by
        rw [hstack, List.mem_cons]
        simp [hx]
      rcases hl : σ.life x <;> rw [hl, hmem] at hlife
      · exact hlife
      · exact hlife
      · exact ⟨hlife.1.congr (hk _ hxs) (hco x hx), hlife.2⟩
      · exact hlife

/-- The body of a coroutine ends. -/
theorem Matches.finish (h : Matches s σ) {retval : V} (he : s.Enabled (.finish retval)) :
    Follows nil s σ (.finish retval) := by
  obtain ⟨hcur, -, -, -⟩ := he
  obtain ⟨self, hself⟩ := Option.ne_none_iff_exists'.1 hcur
  obtain ⟨e, rest, hstack, hwaits, hrest, hout⟩ := h.exists_waits hself
  simp only [Follows, State.exec, State.finish, hself, hwaits.ctx, State.switchContext,
    Spec.State.exec, hstack]
  refine ⟨_, _, _, rfl, by simp [State.setCoroutine, returnArgs]; rfl, ?_⟩
  refine h.pop hstack hrest hout ?_ ?_ rfl rfl ?_ (.inr ⟨rfl, by simp [State.setCoroutine]⟩)
  · intro x hx
    simp [State.setCoroutine, hx]
  · intro x _
    exact ⟨rfl, fun _ _ => rfl, fun _ _ hf => hf, fun _ _ => rfl, fun _ _ hb => ⟨hb, rfl, rfl⟩⟩
  · exact (h.side _).congr rfl (fun _ _ hf => hf) fun _ _ hb => ⟨hb, rfl, rfl⟩

/-- `yield`: the frames of the coroutine are cut off. -/
theorem Matches.yield (h : Matches s σ) {args : List V} (he : s.Enabled (.yield args))
    (hcur : s.current ≠ none) (hbuf : s.jmpBufList ≠ s.bottomBuf s.current) :
    Follows nil s σ (.yield args) := by
  obtain ⟨self, hself⟩ := Option.ne_none_iff_exists'.1 hcur
  obtain ⟨e, rest, hstack, hwaits, hrest, hout⟩ := h.exists_waits hself
  obtain ⟨fs, frame, hframes, hwalk⟩ := h.walk_frames hself he
  obtain ⟨ids, bottomJmpBuf, hids, hwalkBufs⟩ := h.walk_bufs hself hbuf
  have htop := h.top
  rw [hself] at htop
  have hside := h.side (some self)
  have hfnot : frame ∉ fs := last_notMem (hframes ▸ hside.framesNodup)
  simp only [Follows, State.exec, State.yield, hself, htop.coroutine, hwalk, hwalkBufs, hwaits.ctx,
    State.switchContext, Spec.State.exec, hstack]
  refine ⟨_, _, _, rfl, by simp [State.setCoroutine]; rfl, ?_⟩
  refine h.pop hstack hrest hout ?_ ?_ rfl rfl ?_ (.inl ⟨rfl, ?_⟩)
  · intro x hx
    simp [State.setCoroutine, hx]
  · intro x hx
    refine ⟨rfl, fun f hf => ?_, fun _ _ hf => hf, fun _ _ => rfl, fun _ _ hb => ⟨hb, rfl, rfl⟩⟩
    have hne : f ≠ frame := by
      rintro rfl
      exact (h.apart x _ hx).1 hf (by simp [hframes])
    simp [State.setCoroutine, hne]
  · exact hside.congr rfl (fun _ _ hf => hf) fun _ _ hb => ⟨hb, rfl, rfl⟩
  · refine ⟨by simp [State.setCoroutine], htop.coroutine, ?_, fs, frame, s.jmpBufList, ids,
      bottomJmpBuf, s.bottomBuf (some self), hframes, hids, htop.bufs, by simp [State.setCoroutine]⟩
    rw [hframes]
    exact (hframes ▸ htop.frames).relink hfnot

/-- `resume` of a coroutine that does not run already. -/
theorem Matches.resume (h : Matches s σ) {args : List V} (he : s.Enabled (.resume self args))
    (hp : (s.coroutine self).status ≠ .running) : Follows nil s σ (.resume self args) := by
  rcases hlife : σ.life self
  · exact h.resume_fresh hlife he
  · have hmem := h.life self
    simp only [Lives, hlife] at hmem
    exact absurd (h.stacked.status hmem) hp
  · exact h.resume_suspended hlife he
  · exact h.resume_dead hlife args

end Switches

/-- An exception has a buffer of the side it is raised in. No coroutine is resumed that is running,
or waits. `yield` is called by a coroutine that has a buffer. -/
def Proper (s : State C V) : Action C V → Prop
  | .raise => s.jmpBufList ≠ s.bottomBuf s.current
  | .resume self _ => (s.coroutine self).status ≠ .running
  | .yield _ => s.current ≠ none ∧ s.jmpBufList ≠ s.bottomBuf s.current
  | _ => True

/-- What `status` of a coroutine says. -/
def Life.status : Life → Status
  | .fresh => .suspended
  | .running => .running
  | .suspended => .suspended
  | .dead => .dead

/-- What the thread has is what the running side had of its own when it ran last, on top of what
the sides have that wait. -/
structure View (s : State C V) (σ : Spec.State C) : Prop where
  current : σ.stack.head? = some s.current
  coroutine : (s.env s.current).coroutine = s.current
  frames : Seg s.framePrev (s.env s.current).frame (σ.stack.flatMap fun e => (σ.own e).frames) none
  bufs : Seg s.bufPrev s.jmpBufList (σ.stack.flatMap fun e => (σ.own e).ids) none
  scopes : (s.env s.current).scopes = (σ.own s.current).scopes
  status : ∀ self, (s.coroutine self).status = (σ.life self).status

section Runs

variable {nil : V} {s s' : State C V} {σ : Spec.State C}

theorem Stacked.segs {own : Option C → Own} {jmpBufList : Option Buf} {e : Option C}
    {rest : List (Option C)} (h : Stacked s own jmpBufList (e :: rest)) :
    Seg s.framePrev (s.env e).frame ((e :: rest).flatMap fun e => (own e).frames) none
      ∧ Seg s.bufPrev jmpBufList ((e :: rest).flatMap fun e => (own e).ids) none := by
  generalize hstack : e :: rest = stack at h
  induction h generalizing e rest with
  | main htop =>
    obtain ⟨rfl, -⟩ := List.cons.inj hstack
    exact ⟨by simpa [State.bottomFrame] using htop.frames,
      by simpa [State.bottomBuf] using htop.bufs⟩
  | cons htop hwaits _ ih =>
    obtain ⟨rfl, -⟩ := List.cons.inj hstack
    obtain ⟨hframes, hbufs⟩ := ih rfl
    rw [← hwaits.boundary] at hframes
    exact ⟨Seg.append_iff.2 ⟨_, htop.frames, hframes⟩, Seg.append_iff.2 ⟨_, htop.bufs, hbufs⟩⟩

theorem Matches.view (h : Matches s σ) : View s σ := by
  obtain ⟨rest, hstack⟩ := h.exists_stack
  obtain ⟨hframes, hbufs⟩ := (hstack ▸ h.stacked).segs
  refine ⟨h.current, h.top.coroutine, hstack ▸ hframes, hstack ▸ hbufs,
    (h.side s.current).scopes, ?_⟩
  intro self
  have hlife := h.life self
  unfold Lives at hlife
  rcases hl : σ.life self <;> rw [hl] at hlife
  · exact hlife.1
  · exact h.stacked.status hlife
  · exact hlife.1.status
  · exact hlife.1

theorem matches_start : Matches (start : State C V) Spec.start := by
  refine ⟨rfl, .main ⟨rfl, .nil _, .nil _⟩, by simp [Spec.start], ?_, ?_, ?_⟩
  · intro e
    exact ⟨rfl, .nil, .nil, .nil, .nil, by simp [Spec.start], by simp [Spec.start]⟩
  · intro e e' _
    exact ⟨by simp [Spec.start], by simp [Spec.start, Own.ids]⟩
  · intro self
    exact ⟨rfl, rfl, rfl, by simp [Spec.start]⟩

variable [DecidableEq C]

/-- What a step does, the sides do. -/
theorem Matches.follows (nil : V) (h : Matches s σ) {a : Action C V} (he : s.Enabled a)
    (hp : Proper s a) : Follows nil s σ a := by
  cases a with
  | pushFrame frame => exact h.pushFrame he
  | popFrame => exact h.popFrame he
  | setjmp buf => exact h.setjmp he
  | popJmpBuf => exact h.popJmpBuf he
  | openScope scope => exact h.openScope he
  | closeScope => exact h.closeScope he
  | raise => exact h.raise hp
  | resume self args => exact h.resume he hp
  | yield args => exact h.yield he hp.1 hp.2
  | finish retval => exact h.finish he

theorem Matches.run (h : Matches s σ) {es : List (Action C V × Event V)}
    (hr : Run (Only (fun s l => Proper s l.1) (Step nil)) s es s') :
    ∃ σ', Run (Spec.Step nil) σ es σ' ∧ Matches s' σ' := by
  induction hr generalizing σ with
  | nil s => exact ⟨σ, .nil _, h⟩
  | @cons s t u l es hstep _ ih =>
    obtain ⟨hp, he, hexec⟩ := hstep
    obtain ⟨t', σ₁, ev, hexec', hspec, h₁⟩ := h.follows nil he hp
    obtain ⟨rfl, rfl⟩ : t' = t ∧ ev = l.2 := by simpa using hexec'.symm.trans hexec
    obtain ⟨σ', hr', h'⟩ := ih h₁
    exact ⟨σ', .cons hspec hr', h'⟩

/-- In a run that meets the conditions, every step is one of the sides, with the same values, and
after it the thread has what the running side has. -/
theorem simulates_of_proper {es : List (Action C V × Event V)}
    (h : Run (Only (fun s l => Proper s l.1) (Step nil)) start es s) :
    ∃ σ, Run (Spec.Step nil) Spec.start es σ ∧ View s σ
      ∧ ∀ a, s.Enabled a → Proper s a → ∃ s' ev, s.exec nil a = .ok (s', ev) := by
  obtain ⟨σ, hr, hm⟩ := matches_start.run h
  refine ⟨σ, hr, hm.view, ?_⟩
  intro a he hp
  obtain ⟨s', _, ev, hexec, -, -⟩ := hm.follows nil he hp
  exact ⟨s', ev, hexec⟩

end Runs

/-- A coroutine yields from a call, goes on, and ends. -/
def resumed : List (Action Unit ℕ × Event ℕ) :=
  [(.pushFrame 0, .none), (.resume () [5], .started [5]), (.pushFrame 1, .none), (.setjmp 0, .none),
    (.pushFrame 2, .none), (.yield [6], .returned [6]), (.resume () [], .returned [0]),
    (.popFrame, .none), (.popJmpBuf, .none), (.popFrame, .none), (.finish 7, .returned [7]),
    (.resume () [], .raised)]

theorem simulates_resumed : ∃ (s : State Unit ℕ) (σ : Spec.State Unit),
    Run (Spec.Step 0) Spec.start resumed σ ∧ View s σ
      ∧ ∀ a, s.Enabled a → Proper s a → ∃ s' ev, s.exec 0 a = .ok (s', ev) := by
  have hrun : ∃ s : State Unit ℕ,
      Run (Only (fun s l => Proper s l.1) (Step 0)) start resumed s := by
    refine ⟨_, .cons ⟨trivial, ?_, rfl⟩ (.cons ⟨?_, ?_, rfl⟩ (.cons ⟨trivial, ?_, rfl⟩
      (.cons ⟨trivial, ?_, rfl⟩ (.cons ⟨trivial, ?_, rfl⟩ (.cons ⟨?_, ?_, rfl⟩ (.cons ⟨?_, ?_, rfl⟩
      (.cons ⟨trivial, ?_, rfl⟩ (.cons ⟨trivial, ?_, rfl⟩ (.cons ⟨trivial, ?_, rfl⟩
      (.cons ⟨trivial, ?_, rfl⟩ (.cons ⟨?_, ?_, rfl⟩ (.nil _))))))))))))⟩ <;>
      simp only [State.Enabled, Proper] <;> decide
  obtain ⟨s, h⟩ := hrun
  obtain ⟨σ, hσ⟩ := simulates_of_proper h
  exact ⟨s, σ, hσ⟩

/-- A coroutine in whose body nothing handles an exception. -/
def unhandled : List (Action Unit ℕ × Event ℕ) :=
  [(.openScope 0, .none), (.setjmp 0, .none), (.pushFrame 0, .none),
    (.resume () [], .started []), (.pushFrame 1, .none), (.openScope 1, .none), (.setjmp 1, .none),
    (.raise, .none), (.popFrame, .none), (.popJmpBuf, .none)]

/-- The exception leaves the body: the scope of the buffer is not one of the coroutine. -/
theorem not_simulates_unhandled : ¬∀ (es : List (Action Unit ℕ × Event ℕ)) (s : State Unit ℕ),
    Run (Step 0) start es s → ∃ σ, Run (Spec.Step 0) Spec.start es σ ∧ View s σ
      ∧ ∀ a, s.Enabled a → ∃ s' ev, s.exec 0 a = .ok (s', ev) := by
  have hrun : ∃ s : State Unit ℕ, Run (Step 0) start unhandled s ∧ s.Enabled .raise
      ∧ s.exec 0 .raise = .error .null := by
    refine ⟨_, .cons ⟨?_, rfl⟩ (.cons ⟨?_, rfl⟩ (.cons ⟨?_, rfl⟩ (.cons ⟨?_, rfl⟩ (.cons ⟨?_, rfl⟩
      (.cons ⟨?_, rfl⟩ (.cons ⟨?_, rfl⟩ (.cons ⟨?_, rfl⟩ (.cons ⟨?_, rfl⟩ (.cons ⟨?_, rfl⟩
      (.nil _)))))))))), ?_, rfl⟩ <;>
      simp only [State.Enabled] <;> decide
  obtain ⟨s, hrun, he, hexec⟩ := hrun
  intro h
  obtain ⟨σ, -, -, hall⟩ := h unhandled s hrun
  obtain ⟨s', ev, hexec'⟩ := hall _ he
  rw [hexec] at hexec'
  exact absurd hexec' (by simp)

end Coroutines

end Yog
