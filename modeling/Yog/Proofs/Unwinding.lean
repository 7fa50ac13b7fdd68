import Yog.Compile
import Yog.Control
import Mathlib.Data.List.TakeDrop

/-!
# The way of an exception

The chain of frames and the list of buffers are in step (`Sync`) when every finish frame has the
buffer of the main loop entered for it, in order, and a buffer of a native function lies where that
function runs. An exception raised in such a state goes to the innermost frame with a handler, over
the loops and native functions above it, and the loops left are those of the finish frames left
(`unwinds_delivered`).

The two stacks get out of step in three ways, and a run without them delivers every exception
(`delivered_of_run`): an exception is raised while the finish frame on top has no loop of its own,
`compare_val` takes a jump for an answer, or a long jump finds its frame below a finish frame and
goes on in the loop above it.
-/

namespace Yog

/-- The frames an exception is to go on with: the innermost frame whose exception table has the
place it is at, at the handler, and the frames below. -/
def handlerFrames : List Frame → Option (List Frame)
  | [] => none
  | .script f :: fs =>
    match findExceptionTableEntry f.code.fields.excTbl f.pc with
    | some target => some (.script { f with pc := target } :: fs)
    | none => handlerFrames fs
  | _ :: fs => handlerFrames fs

/-- The depths of the finish frames of a chain. -/
def finishDepths : List Frame → List Nat
  | [] => []
  | .finish _ :: fs => (fs.length + 1) :: finishDepths fs
  | _ :: fs => finishDepths fs

/-- The depths of the main loops of a list of buffers. -/
def mainloopDepths : List JmpBuf → List Nat
  | [] => []
  | .mainloop d :: bufs => d :: mainloopDepths bufs
  | _ :: bufs => mainloopDepths bufs

/-- The frame is the one a long jump goes to. -/
def Frame.isTarget (target : Option Nat) (f : Frame) : Bool := !f.isC && some f.id = target

/-- The frames above the one a long jump goes to, and that frame with those below. -/
def framesAbove (target : Option Nat) (fs : List Frame) : List Frame :=
  fs.takeWhile fun f => !f.isTarget target

def framesFrom (target : Option Nat) (fs : List Frame) : List Frame :=
  fs.dropWhile fun f => !f.isTarget target

/-- There is a finish frame with no native call below it. -/
def passesFinish : List Frame → Bool
  | [] => false
  | .finish _ :: fs => !fs.any Frame.isC || passesFinish fs
  | _ :: fs => passesFinish fs

section Unwinding

variable {V : Type} {localJumpError : JmpStatus → V}

/-- The jump has come to an end. -/
def Thread.Ended (t : Thread V) : Prop := t.control = .running ∨ t.control = .halted

/-- The steps of a jump, to its end. -/
def Unwinds (localJumpError : JmpStatus → V) (t u : Thread V) : Prop :=
  (∃ es, Run (Only (fun s _ => ¬s.Ended) (Step localJumpError)) t es u) ∧ u.Ended

/-- Where an exception raised in `t` has got to: the innermost handler has control, in the loop of
its own, and every loop above is abandoned. Without a handler the thread has ended. -/
structure Delivered (t u : Thread V) : Prop where
  some : ∀ fs, handlerFrames t.frames = some fs → u.control = .running ∧ u.frames = fs ∧
    u.jmpBufList <:+ t.jmpBufList ∧ mainloopDepths u.jmpBufList = finishDepths fs ∧
    ∃ d, u.jmpBufList.head? = some (.mainloop d)
  none : handlerFrames t.frames = none → u.control = .halted

/-- No comparison of keys is under way above these many frames. -/
def Thread.ComparesBelow (t : Thread V) (n : Nat) : Prop := ∀ d, .compareVal d ∈ t.jmpBufList → d < n

/-- An exception raised here finds its way: a finish frame on top has had its loop entered and stands
on a native call, and no comparison is under way above the handler. Where there is no handler, only
the comparisons matter. -/
def Thread.RaiseSafe (t : Thread V) : Prop :=
  t.ComparesBelow ((handlerFrames t.frames).elim 0 List.length) ∧
    (handlerFrames t.frames ≠ none → t.control ≠ .calling ∧
      ∀ id fs, t.frames = .finish id :: fs → ∃ id' fs', fs = .c id' :: fs')

/-- A long jump to this frame finds its way: between a finish frame it passes and the frame lies a
native call, and no comparison is under way above the frame. -/
def Thread.JumpSafe (t : Thread V) (target : Option Nat) : Prop :=
  t.ComparesBelow (framesFrom target t.frames).length ∧
    passesFinish (framesAbove target t.frames) = false

/-- The condition on a step. -/
def Thread.Allowed (t : Thread V) : Event V → Prop
  | .raise _ => t.RaiseSafe
  | .longJump _ _ status => ∀ f fs, t.frames = .script f :: fs → t.JumpSafe (f.target status)
  | _ => True

/-- The chain does not have a finish frame on top. -/
def NoFinishTop (fs : List Frame) : Prop := ∀ f ∈ fs.head?, f.isFinish = false

inductive Sync : List Frame → List JmpBuf → Prop where
  | nil : Sync [] []
  | main : Sync [] [.main]
  | native {b fs bufs} : b.isNative → b.depth = fs.length → Sync fs bufs → Sync fs (b :: bufs)
  | c {id fs bufs} : NoFinishTop fs → Sync fs bufs → Sync (.c id :: fs) bufs
  | loop {id fs bufs} : NoFinishTop fs → Sync fs bufs →
    Sync (.finish id :: fs) (.mainloop (fs.length + 1) :: bufs)
  | script {f g fs d bufs} : g.isC = false → Sync (g :: fs) (.mainloop d :: bufs) →
    Sync (.script f :: g :: fs) (.mainloop d :: bufs)

theorem Sync.mainloopDepths_eq {fs : List Frame} {bufs : List JmpBuf} (h : Sync fs bufs) :
    mainloopDepths bufs = finishDepths fs := by
  induction h with
  | nil => rfl
  | main => rfl
  | @native b fs bufs hb hd _ ih =>
    cases b <;> simp_all [mainloopDepths, JmpBuf.isNative]
  | c _ _ ih => exact ih
  | loop _ _ ih => simp only [mainloopDepths, finishDepths, ih]
  | script _ _ ih => exact ih

/-- The frames of the loop on top: native calls, the bodies it executes and its finish frame. -/
structure Segment (fs : List Frame) (bufs : List JmpBuf) (cs ss : List Frame) (id : Nat)
    (below : List Frame) : Prop where
  frames : fs = cs ++ (ss ++ .finish id :: below)
  native : ∀ f ∈ cs, f.isC
  script : ∀ f ∈ ss, ∃ g, f = .script g
  nativeOver : ss = [] → cs = []
  top : NoFinishTop below
  sync : Sync below bufs

theorem Sync.segment {fs : List Frame} {bufs : List JmpBuf} {d : Nat}
    (h : Sync fs (.mainloop d :: bufs)) :
    ∃ cs ss id below, Segment fs bufs cs ss id below ∧ d = below.length + 1 := by
  generalize hb : JmpBuf.mainloop d :: bufs = bs at h
  induction h with
  | nil => cases hb
  | main => cases hb
  | native hn _ _ _ =>
    cases hb
    cases hn
  | @c id fs bs ht _ ih =>
    obtain ⟨cs, ss, id', below, hs, hd⟩ := ih hb
    refine ⟨.c id :: cs, ss, id', below, ⟨by rw [hs.frames]; rfl, ?_, hs.script, ?_, hs.top, hs.sync⟩,
      hd⟩
    · intro f hf
      rcases List.mem_cons.1 hf with rfl | hf
      · rfl
      · exact hs.native f hf
    · intro hss
      have hcs := hs.nativeOver hss
      rw [hs.frames, hss, hcs] at ht
      exact absurd (ht (.finish id') rfl) (by simp [Frame.isFinish])
  | @loop id fs bs ht hs _ =>
    cases hb
    exact ⟨[], [], id, fs, ⟨rfl, by simp, by simp, fun _ => rfl, ht, hs⟩, rfl⟩
  | @script f g fs d' bs hg _ ih =>
    obtain ⟨cs, ss, id, below, hs, hd⟩ := ih hb
    have hcs : cs = [] := by
      rcases cs with _ | ⟨c, cs⟩
      · rfl
      · have hfr := hs.frames
        simp only [List.cons_append, List.cons.injEq] at hfr
        have hc := hs.native c List.mem_cons_self
        rw [← hfr.1, hg] at hc
        exact absurd hc (by decide)
    subst hcs
    refine ⟨[], .script f :: ss, id, below, ⟨?_, by simp, ?_, fun _ => rfl, hs.top, hs.sync⟩, hd⟩
    · simp only [List.nil_append, List.cons_append, List.cons.injEq, true_and]
      exact hs.frames
    · intro f' hf'
      rcases List.mem_cons.1 hf' with rfl | hf'
      · exact ⟨f, rfl⟩
      · exact hs.script f' hf'

/-- A native function pops its buffer. -/
theorem Sync.pop {fs : List Frame} {b : JmpBuf} {bufs : List JmpBuf} (h : Sync fs (b :: bufs))
    (hn : b.isNative) : Sync fs bufs := by
  generalize hb : b :: bufs = bs at h
  induction h with
  | nil => cases hb
  | main =>
    cases hb
    cases hn
  | native _ _ hs _ =>
    cases hb
    exact hs
  | c ht _ ih => exact .c ht (ih hb)
  | loop =>
    cases hb
    cases hn
  | script =>
    cases hb
    cases hn

/-- Script frames on the finish frame of a loop. -/
theorem Sync.ofScripts {id : Nat} {below : List Frame} {bufs : List JmpBuf} (ht : NoFinishTop below)
    (h : Sync below bufs) : ∀ ss : List Frame, (∀ f ∈ ss, ∃ g, f = .script g) →
      Sync (ss ++ .finish id :: below) (.mainloop (below.length + 1) :: bufs)
  | [], _ => .loop ht h
  | f :: ss, hs => by
    obtain ⟨g, rfl⟩ := hs f List.mem_cons_self
    have ih := @Sync.ofScripts id _ _ ht h ss fun f hf => hs f (List.mem_cons_of_mem _ hf)
    rcases ss with _ | ⟨f', ss⟩
    · exact .script rfl ih
    · obtain ⟨g', rfl⟩ := hs f' (by simp)
      exact .script rfl ih

theorem skipCFrame_append {cs fs : List Frame} (h : ∀ f ∈ cs, f.isC) :
    skipCFrame (cs ++ fs) = skipCFrame fs := by
  unfold skipCFrame
  rw [List.dropWhile_append_of_pos h]

theorem skipCFrame_of_not_c {f : Frame} {fs : List Frame} (h : f.isC = false) :
    skipCFrame (f :: fs) = f :: fs := by
  unfold skipCFrame
  rw [List.dropWhile_cons_of_neg (by simp [h])]

theorem Segment.skipCFrame {fs : List Frame} {bufs : List JmpBuf} {cs ss : List Frame} {id : Nat}
    {below : List Frame} (h : Segment fs bufs cs ss id below) :
    skipCFrame fs = ss ++ .finish id :: below := by
  rw [h.frames, skipCFrame_append h.native]
  rcases ss with _ | ⟨f, ss⟩
  · exact skipCFrame_of_not_c rfl
  · obtain ⟨g, rfl⟩ := h.script f List.mem_cons_self
    exact skipCFrame_of_not_c rfl

theorem handlerFrames_append_c {cs fs : List Frame} (h : ∀ f ∈ cs, f.isC) :
    handlerFrames (cs ++ fs) = handlerFrames fs := by
  induction cs with
  | nil => rfl
  | cons c cs ih =>
    have hc := h c List.mem_cons_self
    cases c with
    | c id => exact ih fun f hf => h f (List.mem_cons_of_mem _ hf)
    | finish id => cases hc
    | script f => cases hc

theorem length_handlerFrames_le : ∀ {fs fs' : List Frame}, handlerFrames fs = some fs' →
    fs'.length ≤ fs.length
  | .c id :: fs, fs', h => Nat.le_succ_of_le (@length_handlerFrames_le fs _ h)
  | .finish id :: fs, fs', h => Nat.le_succ_of_le (@length_handlerFrames_le fs _ h)
  | .script f :: fs, fs', h => by
    unfold handlerFrames at h
    split at h
    · cases h
      rfl
    · exact Nat.le_succ_of_le (length_handlerFrames_le h)

/-- Within a loop, the search of the exception tables finds the innermost handler if a body the loop
executes has one, and otherwise the handler lies below the loop. -/
theorem rollbackFrames_scripts (id : Nat) (below : List Frame) :
    ∀ {ss : List Frame}, (∀ f ∈ ss, ∃ g, f = .script g) →
      (∃ f ss', rollbackFrames (ss ++ .finish id :: below) =
          some (.script f :: (ss' ++ .finish id :: below)) ∧
        handlerFrames (ss ++ .finish id :: below) =
          some (.script f :: (ss' ++ .finish id :: below)) ∧ ∀ f ∈ ss', ∃ g, f = .script g) ∨
      (rollbackFrames (ss ++ .finish id :: below) = none ∧
        handlerFrames (ss ++ .finish id :: below) = handlerFrames below)
  | [], _ => Or.inr ⟨rfl, rfl⟩
  | f :: ss, hs => by
    obtain ⟨g, rfl⟩ := hs f List.mem_cons_self
    have hs' : ∀ f ∈ ss, ∃ g, f = .script g := fun f hf => hs f (List.mem_cons_of_mem _ hf)
    rw [List.cons_append, rollbackFrames, handlerFrames]
    rcases h : findExceptionTableEntry g.code.fields.excTbl g.pc with _ | target
    · exact rollbackFrames_scripts id below hs'
    · exact Or.inl ⟨_, ss, rfl, rfl, hs'⟩

theorem skipToCFrameFrom_scripts {id : Nat} {below : List Frame} :
    ∀ {ss : List Frame}, (∀ f ∈ ss, ∃ g, f = .script g) →
      skipToCFrameFrom (ss ++ .finish id :: below) = some below
  | [], _ => rfl
  | f :: ss, hs => by
    obtain ⟨g, rfl⟩ := hs f List.mem_cons_self
    exact @skipToCFrameFrom_scripts _ _ ss fun f hf => hs f (List.mem_cons_of_mem _ hf)

/-- A loop is left for the frames below its finish frame. -/
theorem skipToCFrame_scripts {id : Nat} {below ss : List Frame} (hs : ∀ f ∈ ss, ∃ g, f = .script g)
    (h : ss = [] → ∃ id' fs', below = .c id' :: fs') :
    skipToCFrame (ss ++ .finish id :: below) = some below := by
  unfold skipToCFrame
  rcases ss with _ | ⟨f, ss⟩
  · obtain ⟨id', fs', rfl⟩ := h rfl
    rfl
  · exact skipToCFrameFrom_scripts fun f hf => hs f (List.mem_cons_of_mem _ hf)

/-- An exception is on its way in frames and buffers in step. -/
structure Thread.Raised (t : Thread V) : Prop where
  sync : Sync t.frames t.jmpBufList
  compares : t.ComparesBelow ((handlerFrames t.frames).elim 0 List.length)
  top : ∀ id fs, t.frames = .finish id :: fs → ∃ id' fs', fs = .c id' :: fs'

/-- A handler lies at or below the place a native function runs at. -/
theorem Sync.length_handlerFrames_le {fs fs' : List Frame} {b : JmpBuf} {bufs : List JmpBuf}
    (h : Sync fs (b :: bufs)) (hn : b.isNative) (hh : handlerFrames fs = some fs') :
    fs'.length ≤ b.depth := by
  generalize hb : b :: bufs = bs at h
  induction h with
  | nil => cases hb
  | main =>
    cases hb
    cases hn
  | native _ hd _ _ =>
    cases hb
    rw [hd]
    exact Yog.length_handlerFrames_le hh
  | c _ _ ih => exact ih hh hb
  | loop =>
    cases hb
    cases hn
  | script =>
    cases hb
    cases hn

/-- Where no loop runs there is no handler. -/
theorem Sync.handlerFrames_eq_none {fs : List Frame} {bufs : List JmpBuf} (h : Sync fs bufs)
    (hl : mainloopDepths bufs = []) : handlerFrames fs = none := by
  induction h with
  | nil => rfl
  | main => rfl
  | @native b fs bufs hb _ _ ih =>
    refine ih ?_
    cases b with
    | mainloop d => cases hb
    | _ => exact hl
  | c _ _ ih => exact ih hl
  | loop => cases hl
  | script => cases hl

/-- The buffer of `main` is the first one. -/
theorem Sync.mainloopDepths_of_main {fs : List Frame} {bufs : List JmpBuf}
    (h : Sync fs (.main :: bufs)) : mainloopDepths (.main :: bufs) = [] := by
  generalize hb : JmpBuf.main :: bufs = bs at h
  induction h with
  | nil => cases hb
  | main => rfl
  | native hn =>
    cases hb
    cases hn
  | c _ _ ih => exact ih hb
  | loop => cases hb
  | script => cases hb

theorem Sync.not_stale {fs : List Frame} {bufs : List JmpBuf} (h : Sync fs (.stale :: bufs)) :
    False := by
  generalize hb : JmpBuf.stale :: bufs = bs at h
  induction h with
  | nil => cases hb
  | main => cases hb
  | native hn =>
    cases hb
    cases hn
  | c _ _ ih => exact ih hb
  | loop => cases hb
  | script => cases hb

theorem Thread.Raised.not_compareVal {t : Thread V} (h : t.Raised) {d : Nat} {bufs : List JmpBuf}
    (hb : t.jmpBufList = .compareVal d :: bufs) : False := by
  have hd := h.compares d (by rw [hb]; exact List.mem_cons_self)
  rcases hh : handlerFrames t.frames with _ | fs'
  · rw [hh] at hd
    exact Nat.not_lt_zero _ hd
  · rw [hh] at hd
    have hle := (hb ▸ h.sync).length_handlerFrames_le rfl hh
    exact Nat.not_lt.2 hle hd

/-- With the buffer of a native function on top the exception is still on its way without it. -/
theorem Thread.Raised.pop {t : Thread V} (h : t.Raised) {b : JmpBuf} {bufs : List JmpBuf}
    (hb : t.jmpBufList = b :: bufs) (hn : b.isNative) (exc : V) (c : Control) :
    Thread.Raised { t with jmpBufList := bufs, jmpVal := exc, control := c } :=
  ⟨(hb ▸ h.sync).pop hn, fun d hd => h.compares d (by rw [hb]; exact List.mem_cons_of_mem _ hd),
    h.top⟩

/-- What one step of an exception on its way comes to: it is on its way to the same handler, or is
there. -/
def Thread.Nearer (t u : Thread V) : Prop :=
  u.Raised ∧ (u.control = .jumping .raise ∨ u.control = .cleanup .raise) ∧
    handlerFrames u.frames = handlerFrames t.frames ∧ u.jmpBufList <:+ t.jmpBufList

/-- A loop without a handler leaves for the frames below its finish frame. -/
theorem Thread.Raised.skipToCFrame {t : Thread V} (h : t.Raised) {bufs : List JmpBuf}
    {cs ss : List Frame} {id : Nat} {below : List Frame}
    (hseg : Segment t.frames bufs cs ss id below) :
    Yog.skipToCFrame (ss ++ .finish id :: below) = some below := by
  refine skipToCFrame_scripts hseg.script fun hss => h.top id below ?_
  rw [hseg.frames, hss, hseg.nativeOver hss]
  rfl

/-- The main loop finds the handler in one of its bodies, or leaves for the frames below its finish
frame. -/
theorem Thread.Raised.enterMainloop {t : Thread V} (localJumpError : JmpStatus → V) (h : t.Raised)
    (hc : t.control = .jumping .raise) {d : Nat} {bufs : List JmpBuf}
    (hb : t.jmpBufList = .mainloop d :: bufs) :
    ∃ u, t.enterMainloop localJumpError .raise = some u ∧
      ((Delivered t u ∧ u.control = .running ∧ Sync u.frames u.jmpBufList) ∨
        (t.Nearer u ∧ u.control = .jumping .raise ∧ u.jmpBufList = bufs)) := by
  have hsync := h.sync
  rw [hb] at hsync
  obtain ⟨cs, ss, id, below, hseg, hd⟩ := hsync.segment
  unfold Thread.enterMainloop Thread.followRaise
  simp only [hseg.skipCFrame]
  have hhandler : handlerFrames t.frames = handlerFrames (ss ++ .finish id :: below) := by
    rw [hseg.frames, handlerFrames_append_c hseg.native]
  rcases rollbackFrames_scripts id below hseg.script with
    ⟨f, ss', hr, hf, hss'⟩ | ⟨hr, hf⟩
  · rw [hr]
    have hs : Sync (.script f :: (ss' ++ .finish id :: below)) (.mainloop d :: bufs) := by
      rw [hd]
      refine Sync.ofScripts hseg.top hseg.sync (.script f :: ss') fun g hg => ?_
      rcases List.mem_cons.1 hg with rfl | hg
      · exact ⟨f, rfl⟩
      · exact hss' g hg
    refine ⟨_, rfl, Or.inl ⟨⟨fun fs hfs => ?_, fun hnone => ?_⟩, rfl, by rw [hb]; exact hs⟩⟩
    · rw [hhandler, hf, Option.some.injEq] at hfs
      subst hfs
      refine ⟨rfl, rfl, List.suffix_refl _, ?_, d, by rw [hb]; rfl⟩
      rw [hb]
      exact hs.mainloopDepths_eq
    · rw [hhandler, hf] at hnone
      cases hnone
  · rw [hr]
    unfold Thread.leaveMainloop
    rw [h.skipToCFrame hseg]
    have hbelow : handlerFrames below = handlerFrames t.frames := by rw [hhandler, hf]
    refine ⟨_, rfl, Or.inr ⟨⟨⟨?_, ?_, ?_⟩, Or.inl hc, hbelow, ?_⟩, hc, by rw [hb]; rfl⟩⟩
    · show Sync below t.jmpBufList.tail
      rw [hb]
      exact hseg.sync
    · intro d' hd'
      show d' < (handlerFrames below).elim 0 List.length
      rw [hbelow]
      exact h.compares d' (List.mem_of_mem_tail hd')
    · intro id' fs hfs
      have ht := hseg.top (.finish id')
      rw [show below = .finish id' :: fs from hfs] at ht
      exact absurd (ht rfl) (by simp [Frame.isFinish])
    · exact List.tail_suffix _

/-- Where a jump to the buffer on top leads. -/
theorem Thread.Raised.land {t u : Thread V} (h : t.Raised) (hc : t.control = .jumping .raise)
    (hl : t.land localJumpError .raise = some u) :
    t.Nearer u ∨ (Delivered t u ∧ (u.control = .running ∧ Sync u.frames u.jmpBufList ∨
      u.control = .halted)) := by
  rcases hb : t.jmpBufList with _ | ⟨b, bufs⟩
  · rw [Thread.land_nil hb] at hl
    cases hl
  · cases b with
    | mainloop d =>
      rw [Thread.land_mainloop hb] at hl
      obtain ⟨u', hu', hcase⟩ := h.enterMainloop localJumpError hc hb
      rw [hl, Option.some.injEq] at hu'
      subst hu'
      rcases hcase with ⟨hd, hr, hsync⟩ | ⟨hn, -, -⟩
      · exact Or.inr ⟨hd, Or.inl ⟨hr, hsync⟩⟩
      · exact Or.inl hn
    | guard d =>
      rw [Thread.land_guard hb] at hl
      cases hl
      exact Or.inl ⟨⟨h.sync, h.compares, h.top⟩, Or.inr rfl, rfl, List.suffix_refl _⟩
    | compareVal d => exact (h.not_compareVal hb).elim
    | main =>
      rw [Thread.land_main hb] at hl
      cases hl
      have hsync := h.sync
      rw [hb] at hsync
      have hn := hsync.handlerFrames_eq_none hsync.mainloopDepths_of_main
      exact Or.inr ⟨⟨fun fs hfs => (by rw [hn] at hfs; cases hfs), fun _ => rfl⟩, Or.inr rfl⟩
    | stale =>
      rw [Thread.land_stale hb] at hl
      cases hl

/-- One step of an exception on its way. -/
theorem Thread.Raised.step {t u : Thread V} {e : Event V} (h : t.Raised)
    (hc : t.control = .jumping .raise ∨ t.control = .cleanup .raise)
    (hs : Step localJumpError t e u) :
    t.Nearer u ∨ (Delivered t u ∧ (u.control = .running ∧ Sync u.frames u.jmpBufList ∨
      u.control = .halted)) := by
  rcases hc with hc | hc
  · exact h.land hc (hs.of_jumping hc).2
  · rcases hs.of_cleanup hc with ⟨d, bufs, -, hb, rfl⟩ | ⟨exc, -, rfl⟩
    · refine Or.inl ⟨h.pop hb rfl t.jmpVal _, Or.inl rfl, rfl, ?_⟩
      rw [hb]
      exact List.suffix_cons _ _
    · exact Or.inl ⟨⟨h.sync, h.compares, h.top⟩, Or.inl rfl, rfl, List.suffix_refl _⟩

theorem Delivered.of_nearer {t u v : Thread V} (h : t.Nearer u) (hd : Delivered u v) :
    Delivered t v := by
  obtain ⟨-, -, hh, hs⟩ := h
  refine ⟨fun fs hfs => ?_, fun hn => hd.none (by rw [hh, hn])⟩
  obtain ⟨h₁, h₂, h₃, h₄, h₅⟩ := hd.some fs (by rw [hh, hfs])
  exact ⟨h₁, h₂, h₃.trans hs, h₄, h₅⟩

/-- An exception on its way gets nowhere else than to the innermost handler. -/
theorem Thread.Raised.delivered {t u : Thread V} {es : List (Event V)} (h : t.Raised)
    (hc : t.control = .jumping .raise ∨ t.control = .cleanup .raise)
    (hr : Run (Only (fun s _ => ¬s.Ended) (Step localJumpError)) t es u) (hu : u.Ended) :
    Delivered t u := by
  induction hr with
  | nil t =>
    rcases hu with hu | hu <;> rcases hc with hc | hc <;> rw [hu] at hc <;> cases hc
  | @cons t s u e es hs hr ih =>
    rcases h.step hc hs.2 with hn | ⟨hd, hend⟩
    · exact Delivered.of_nearer hn (ih hn.1 hn.2.1 hu)
    · have hended : s.Ended := by
        rcases hend with ⟨hr, -⟩ | hh
        · exact Or.inl hr
        · exact Or.inr hh
      obtain ⟨-, rfl⟩ := hr.eq_of_stuck fun e s' hs' => hs'.1 hended
      exact hd

/-- An exception that has a handler gets there. -/
theorem Thread.Raised.exists_unwinds {t : Thread V} (h : t.Raised)
    (hc : t.control = .jumping .raise) (hh : handlerFrames t.frames ≠ none) :
    ∃ u, Unwinds localJumpError t u := by
  obtain ⟨n, hn⟩ : ∃ n, t.jmpBufList.length = n := ⟨_, rfl⟩
  induction n generalizing t with
  | zero =>
    rw [List.length_eq_zero_iff] at hn
    have hs := h.sync
    rw [hn] at hs
    exact (hh (hs.handlerFrames_eq_none rfl)).elim
  | succ n ih =>
    have hne : ¬t.Ended := by
      rintro (h | h) <;> rw [hc] at h <;> cases h
    have hstep : ∀ {s : Thread V}, t.land localJumpError .raise = some s →
        Only (fun s _ => ¬s.Ended) (Step localJumpError) t .land s := fun hl => ⟨hne, .land hc hl⟩
    rcases hb : t.jmpBufList with _ | ⟨b, bufs⟩
    · rw [hb] at hn
      cases hn
    · rw [hb, List.length_cons, Nat.succ.injEq] at hn
      cases b with
      | mainloop d =>
        obtain ⟨u, hu, hcase⟩ := h.enterMainloop localJumpError hc hb
        rw [← Thread.land_mainloop hb] at hu
        rcases hcase with ⟨-, hr, -⟩ | ⟨⟨hraised, -, hhandler, -⟩, hcu, hbu⟩
        · exact ⟨u, ⟨_, .single (hstep hu)⟩, Or.inl hr⟩
        · obtain ⟨v, ⟨es, hes⟩, hv⟩ := ih hraised hcu (by rw [hhandler]; exact hh) (by rw [hbu, hn])
          exact ⟨v, ⟨_, .cons (hstep hu) hes⟩, hv⟩
      | guard d =>
        have hraised := h.pop hb rfl t.jmpVal (.jumping .raise)
        obtain ⟨v, ⟨es, hes⟩, hv⟩ := ih hraised rfl hh hn
        have hreleased : Only (fun s _ => ¬s.Ended) (Step localJumpError)
            { t with control := .cleanup .raise } .land
            { t with jmpBufList := bufs, control := .jumping .raise } := by
          refine ⟨?_, .released rfl hb⟩
          rintro (h | h) <;> cases h
        exact ⟨v, ⟨_, .cons (hstep (Thread.land_guard hb)) (.cons hreleased hes)⟩, hv⟩
      | compareVal d => exact (h.not_compareVal hb).elim
      | main =>
        have hsync := h.sync
        rw [hb] at hsync
        exact (hh (hsync.handlerFrames_eq_none hsync.mainloopDepths_of_main)).elim
      | stale =>
        have hsync := h.sync
        rw [hb] at hsync
        exact hsync.not_stale.elim

/-- An exception without a handler, and no comparison to take it for an answer. -/
structure Thread.Unhandled (t : Thread V) : Prop where
  handler : handlerFrames t.frames = none
  compares : t.ComparesBelow 0

theorem handlerFrames_of_suffix {fs fs' : List Frame} (h : fs' <:+ fs)
    (hn : handlerFrames fs = none) : handlerFrames fs' = none := by
  obtain ⟨pre, rfl⟩ := h
  induction pre with
  | nil => exact hn
  | cons f pre ih =>
    refine ih ?_
    cases f with
    | c id => exact hn
    | finish id => exact hn
    | script f =>
      rw [List.cons_append, handlerFrames] at hn
      split at hn
      · cases hn
      · exact hn

theorem handlerFrames_of_rollbackFrames : ∀ {fs fs' : List Frame}, rollbackFrames fs = some fs' →
    handlerFrames fs = some fs'
  | .script f :: fs, fs', h => by
    rw [rollbackFrames] at h
    rw [handlerFrames]
    rcases ht : findExceptionTableEntry f.code.fields.excTbl f.pc with _ | target
    · rw [ht] at h
      exact handlerFrames_of_rollbackFrames h
    · rw [ht] at h
      exact h

theorem skipToCFrameFrom_suffix : ∀ {fs fs' : List Frame}, skipToCFrameFrom fs = some fs' →
    fs' <:+ fs
  | .script _ :: fs, fs', h => (@skipToCFrameFrom_suffix fs _ h).trans (List.suffix_cons _ _)
  | .c _ :: fs, fs', h => by
    cases h
    exact List.suffix_refl _
  | .finish _ :: fs, fs', h => by
    cases h
    exact List.suffix_cons _ _

theorem Thread.Unhandled.step {t u : Thread V} {e : Event V} (h : t.Unhandled)
    (hc : t.control = .jumping .raise ∨ t.control = .cleanup .raise)
    (hs : Step localJumpError t e u) :
    (u.Unhandled ∧ (u.control = .jumping .raise ∨ u.control = .cleanup .raise)) ∨
      u.control = .halted := by
  rcases hc with hc | hc
  · obtain ⟨-, hl⟩ := hs.of_jumping hc
    rcases hb : t.jmpBufList with _ | ⟨b, bufs⟩
    · rw [Thread.land_nil hb] at hl
      cases hl
    · cases b with
      | mainloop d =>
        rw [Thread.land_mainloop hb] at hl
        have hskip : handlerFrames (skipCFrame t.frames) = none :=
          handlerFrames_of_suffix (List.dropWhile_suffix _) h.handler
        unfold Thread.enterMainloop Thread.followRaise at hl
        simp only at hl
        rcases hr : rollbackFrames (skipCFrame t.frames) with _ | fs
        · rw [hr] at hl
          unfold Thread.leaveMainloop at hl
          obtain ⟨fs, hfs, rfl⟩ := Option.map_eq_some_iff.1 hl
          refine Or.inl ⟨⟨?_, fun d hd => h.compares d (List.mem_of_mem_tail hd)⟩, Or.inl hc⟩
          exact handlerFrames_of_suffix
            ((skipToCFrameFrom_suffix hfs).trans (List.tail_suffix _)) hskip
        · rw [handlerFrames_of_rollbackFrames hr] at hskip
          cases hskip
      | guard d =>
        rw [Thread.land_guard hb] at hl
        cases hl
        exact Or.inl ⟨⟨h.handler, h.compares⟩, Or.inr rfl⟩
      | compareVal d =>
        exact absurd (h.compares d (by rw [hb]; exact List.mem_cons_self)) (Nat.not_lt_zero _)
      | main =>
        rw [Thread.land_main hb] at hl
        cases hl
        exact Or.inr rfl
      | stale =>
        rw [Thread.land_stale hb] at hl
        cases hl
  · rcases hs.of_cleanup hc with ⟨d, bufs, -, hb, rfl⟩ | ⟨exc, -, rfl⟩
    · refine Or.inl ⟨⟨h.handler, fun d hd => h.compares d ?_⟩, Or.inl rfl⟩
      rw [hb]
      exact List.mem_cons_of_mem _ hd
    · exact Or.inl ⟨⟨h.handler, h.compares⟩, Or.inl rfl⟩

theorem Thread.Unhandled.halted {t u : Thread V} {es : List (Event V)} (h : t.Unhandled)
    (hc : t.control = .jumping .raise ∨ t.control = .cleanup .raise)
    (hr : Run (Only (fun s _ => ¬s.Ended) (Step localJumpError)) t es u) (hu : u.Ended) :
    u.control = .halted := by
  induction hr with
  | nil t =>
    rcases hu with hu | hu <;> rcases hc with hc | hc <;> rw [hu] at hc <;> cases hc
  | cons hs hr ih =>
    rcases h.step hc hs.2 with ⟨hs', hc'⟩ | hh
    · exact ih hs' hc' hu
    · obtain ⟨-, rfl⟩ := hr.eq_of_stuck fun e s' hs' => hs'.1 (Or.inr hh)
      exact hh

theorem framesAbove_cons {target : Option Nat} {f : Frame} (fs : List Frame)
    (h : f.isTarget target = false) : framesAbove target (f :: fs) = f :: framesAbove target fs := by
  unfold framesAbove
  rw [List.takeWhile_cons_of_pos (by simp [h])]

theorem framesFrom_cons {target : Option Nat} {f : Frame} (fs : List Frame)
    (h : f.isTarget target = false) : framesFrom target (f :: fs) = framesFrom target fs := by
  unfold framesFrom
  rw [List.dropWhile_cons_of_pos (by simp [h])]

theorem framesFrom_of_target {target : Option Nat} {f : Frame} (fs : List Frame)
    (h : f.isTarget target = true) : framesFrom target (f :: fs) = f :: fs := by
  unfold framesFrom
  rw [List.dropWhile_cons_of_neg (by simp [h])]

theorem framesAbove_append {target : Option Nat} (fs : List Frame) :
    ∀ {pre : List Frame}, (∀ f ∈ pre, f.isTarget target = false) →
      framesAbove target (pre ++ fs) = pre ++ framesAbove target fs
  | [], _ => rfl
  | f :: pre, h => by
    rw [List.cons_append, framesAbove_cons _ (h f List.mem_cons_self),
      framesAbove_append fs fun g hg => h g (List.mem_cons_of_mem _ hg)]
    rfl

theorem framesFrom_append {target : Option Nat} (fs : List Frame) :
    ∀ {pre : List Frame}, (∀ f ∈ pre, f.isTarget target = false) →
      framesFrom target (pre ++ fs) = framesFrom target fs
  | [], _ => rfl
  | f :: pre, h => by
    rw [List.cons_append, framesFrom_cons _ (h f List.mem_cons_self),
      framesFrom_append fs fun g hg => h g (List.mem_cons_of_mem _ hg)]

theorem Frame.isTarget_of_isC {target : Option Nat} {f : Frame} (h : f.isC = true) :
    f.isTarget target = false := by
  unfold Frame.isTarget
  rw [h]
  rfl

/-- The search of a loop ends at the first native call above the frame. -/
theorem searchFrame_cFrame {target : Option Nat} : ∀ {fs : List Frame},
    (framesAbove target fs).any Frame.isC → searchFrame target fs = .cFrame
  | [], h => by simp [framesAbove] at h
  | f :: fs, h => by
    rcases hc : f.isC with _ | _
    · rcases ht : f.isTarget target with _ | _
      · rw [framesAbove_cons _ ht, List.any_cons, hc, Bool.false_or] at h
        have ih := searchFrame_cFrame h
        unfold Frame.isTarget at ht
        cases f with
        | c id => cases hc
        | finish id =>
          simp only [searchFrame]
          rw [if_neg (by simpa [Frame.isC] using ht), ih]
        | script g =>
          simp only [searchFrame]
          rw [if_neg (by simpa [Frame.isC] using ht), ih]
      · unfold framesAbove at h
        rw [List.takeWhile_cons_of_neg (by simp [ht])] at h
        simp at h
    · cases f with
      | c id => rfl
      | finish id => cases hc
      | script g => cases hc

theorem searchFrame_cons {target : Option Nat} {f : Frame} (fs : List Frame) (hc : f.isC = false) :
    searchFrame target (f :: fs) =
      if f.isTarget target then .found (f :: fs) else searchFrame target fs := by
  unfold Frame.isTarget
  cases f with
  | c id => cases hc
  | finish id => simp [searchFrame, Frame.isC]
  | script g => simp [searchFrame, Frame.isC]

/-- Within a loop, the search finds the frame if it is the loop's, and goes on below otherwise. -/
theorem searchFrame_scripts (target : Option Nat) (id : Nat) (below : List Frame) :
    ∀ {ss : List Frame}, (∀ f ∈ ss, ∃ g, f = .script g) →
      (∃ ss', searchFrame target (ss ++ .finish id :: below) = .found (ss' ++ .finish id :: below) ∧
        framesFrom target (ss ++ .finish id :: below) = ss' ++ .finish id :: below ∧
        ∀ f ∈ ss', ∃ g, f = .script g) ∨
      (searchFrame target (ss ++ .finish id :: below) = searchFrame target below ∧
        ∀ f ∈ ss ++ [.finish id], f.isTarget target = false)
  | [], _ => by
    rw [List.nil_append, searchFrame_cons _ rfl]
    rcases ht : (Frame.finish id).isTarget target with _ | _
    · exact Or.inr ⟨if_neg (by simp), by simpa using ht⟩
    · exact Or.inl ⟨[], if_pos rfl, framesFrom_of_target _ ht, by simp⟩
  | f :: ss, hs => by
    obtain ⟨g, rfl⟩ := hs f List.mem_cons_self
    have hs' : ∀ f ∈ ss, ∃ g, f = .script g := fun f hf => hs f (List.mem_cons_of_mem _ hf)
    rw [List.cons_append, searchFrame_cons _ rfl]
    rcases ht : (Frame.script g).isTarget target with _ | _
    · rw [if_neg (by simp)]
      rcases searchFrame_scripts target id below hs' with
        hfound | ⟨hb, hn⟩
      · rw [framesFrom_cons _ ht]
        exact Or.inl hfound
      · refine Or.inr ⟨hb, fun f hf => ?_⟩
        rcases List.mem_cons.1 hf with rfl | hf
        · exact ht
        · exact hn f hf
    · exact Or.inl ⟨.script g :: ss, if_pos rfl, framesFrom_of_target _ ht, hs⟩

/-- A long jump is on its way in frames and buffers in step. -/
structure Thread.Jumped (t : Thread V) : Prop where
  sync : Sync t.frames t.jmpBufList
  top : NoFinishTop t.frames
  target : ∃ f ∈ t.frames, f.isTarget t.frameToLongJump
  safe : t.JumpSafe t.frameToLongJump

theorem Sync.length_framesFrom_le {fs : List Frame} {b : JmpBuf} {bufs : List JmpBuf}
    (h : Sync fs (b :: bufs)) (target : Option Nat) (hn : b.isNative) :
    (framesFrom target fs).length ≤ b.depth := by
  generalize hb : b :: bufs = bs at h
  induction h with
  | nil => cases hb
  | main =>
    cases hb
    cases hn
  | @native _ fs _ _ hd _ _ =>
    cases hb
    rw [hd]
    exact (List.dropWhile_suffix _).length_le
  | c _ _ ih =>
    rw [framesFrom_cons _ (Frame.isTarget_of_isC rfl)]
    exact ih hb
  | loop =>
    cases hb
    cases hn
  | script =>
    cases hb
    cases hn

theorem passesFinish_of_append {pre fs : List Frame} (h : passesFinish (pre ++ fs) = false) :
    passesFinish fs = false := by
  induction pre with
  | nil => exact h
  | cons f pre ih =>
    refine ih ?_
    cases f with
    | c id => exact h
    | script g => exact h
    | finish id => exact (Bool.or_eq_false_iff.1 h).2

/-- A finish frame above the frame a safe jump goes to has a native call below it. -/
theorem any_isC_of_passesFinish {pre fs : List Frame} {id : Nat}
    (h : passesFinish (pre ++ .finish id :: fs) = false) : fs.any Frame.isC := by
  have hf := passesFinish_of_append h
  unfold passesFinish at hf
  have := (Bool.or_eq_false_iff.1 hf).1
  simpa using this

/-- The frames above the target of a jump, where the loop on top does not have it. -/
theorem Segment.framesAbove {target : Option Nat} {fs : List Frame} {bufs : List JmpBuf}
    {cs ss : List Frame} {id : Nat} {below : List Frame} (hseg : Segment fs bufs cs ss id below)
    (hn : ∀ f ∈ ss ++ [.finish id], f.isTarget target = false) :
    framesAbove target fs = (cs ++ ss) ++ .finish id :: Yog.framesAbove target below := by
  have hcs : ∀ f ∈ cs, f.isTarget target = false := fun f hf =>
    Frame.isTarget_of_isC (hseg.native f hf)
  rw [hseg.frames, framesAbove_append _ hcs, List.append_cons, framesAbove_append _ hn]
  simp

/-- The walk of the loop on top finds the frame of a safe jump in a body of its own, or comes to a
native call below and leaves for the frames below its finish frame. -/
theorem Thread.Jumped.search {t : Thread V} (h : t.Jumped) {bufs : List JmpBuf}
    {cs ss : List Frame} {id : Nat} {below : List Frame}
    (hseg : Segment t.frames bufs cs ss id below) :
    (∃ ss', searchFrame t.frameToLongJump (ss ++ .finish id :: below) =
        .found (ss' ++ .finish id :: below) ∧
      framesFrom t.frameToLongJump (ss ++ .finish id :: below) = ss' ++ .finish id :: below ∧
      ∀ f ∈ ss', ∃ g, f = .script g) ∨
    (searchFrame t.frameToLongJump (ss ++ .finish id :: below) = .cFrame ∧
      skipToCFrame (ss ++ .finish id :: below) = some below ∧
      ∀ f ∈ ss ++ [.finish id], f.isTarget t.frameToLongJump = false) := by
  rcases searchFrame_scripts t.frameToLongJump id below hseg.script with
    hfound | ⟨hf, hn⟩
  · exact Or.inl hfound
  · have hany : (Yog.framesAbove t.frameToLongJump below).any Frame.isC := by
      have hp := h.safe.2
      rw [hseg.framesAbove hn] at hp
      exact any_isC_of_passesFinish hp
    refine Or.inr ⟨hf.trans (searchFrame_cFrame hany), ?_, hn⟩
    refine skipToCFrame_scripts hseg.script fun hss => ?_
    have htop := h.top (.finish id)
    rw [hseg.frames, hss, hseg.nativeOver hss] at htop
    exact absurd (htop rfl) (by simp [Frame.isFinish])

/-- The main loop finds the frame a long jump goes to, or leaves for the frames below. -/
theorem Thread.Jumped.enterMainloop {t : Thread V} {status : JmpStatus}
    (localJumpError : JmpStatus → V) (h : t.Jumped) (hs : status ≠ .raise) {d : Nat} {bufs : List JmpBuf}
    (hb : t.jmpBufList = .mainloop d :: bufs) :
    ∃ u, t.enterMainloop localJumpError status = some u ∧ u.jmpVal = t.jmpVal ∧
      ((u.control = .running ∧ Sync u.frames u.jmpBufList ∧
          u.frames = framesFrom t.frameToLongJump t.frames) ∨
        (u.Jumped ∧ u.control = t.control ∧ u.frameToLongJump = t.frameToLongJump ∧
          framesFrom t.frameToLongJump u.frames = framesFrom t.frameToLongJump t.frames ∧
          u.jmpBufList = bufs)) := by
  have hsync := h.sync
  rw [hb] at hsync
  obtain ⟨cs, ss, id, below, hseg, hd⟩ := hsync.segment
  have hcs : ∀ f ∈ cs, f.isTarget t.frameToLongJump = false := fun f hf =>
    Frame.isTarget_of_isC (hseg.native f hf)
  have hfrom : framesFrom t.frameToLongJump t.frames =
      framesFrom t.frameToLongJump (ss ++ .finish id :: below) := by
    rw [hseg.frames, framesFrom_append _ hcs]
  rw [Thread.enterMainloop_of_ne hs, hseg.skipCFrame]
  unfold Thread.followJump
  rcases h.search hseg with ⟨ss', hf, hfr, hss'⟩ | ⟨hf, hskip, hn⟩
  · rw [hf]
    refine ⟨_, rfl, rfl, Or.inl ⟨rfl, ?_, by rw [hfrom, hfr]⟩⟩
    show Sync _ t.jmpBufList
    rw [hb, hd]
    exact Sync.ofScripts hseg.top hseg.sync ss' hss'
  · rw [hf]
    simp only [Thread.leaveMainloop, hskip, Option.map_some]
    have hbelow : framesFrom t.frameToLongJump below = framesFrom t.frameToLongJump t.frames := by
      rw [hfrom, List.append_cons, framesFrom_append _ hn]
    refine ⟨_, rfl, rfl, Or.inr ⟨⟨?_, hseg.top, ?_, ?_, ?_⟩, rfl, rfl, hbelow, by rw [hb]; rfl⟩⟩
    · show Sync below t.jmpBufList.tail
      rw [hb]
      exact hseg.sync
    · obtain ⟨f, hmem, ht⟩ := h.target
      rw [hseg.frames, List.append_cons, List.mem_append, List.mem_append] at hmem
      rcases hmem with hmem | hmem | hmem
      · rw [hcs f hmem] at ht
        cases ht
      · rw [hn f hmem] at ht
        cases ht
      · exact ⟨f, hmem, ht⟩
    · intro d' hd'
      show d' < (framesFrom t.frameToLongJump below).length
      rw [hbelow]
      exact h.safe.1 d' (List.mem_of_mem_tail hd')
    · have hp := h.safe.2
      rw [hseg.framesAbove hn] at hp
      exact (Bool.or_eq_false_iff.1 (passesFinish_of_append hp)).2

/-- One step of a long jump on its way. -/
theorem Thread.Jumped.step {t u : Thread V} {e : Event V} {status : JmpStatus} (h : t.Jumped)
    (hs : status ≠ .raise) (hc : t.control = .jumping status ∨ t.control = .cleanup status)
    (hstep : Step localJumpError t e u) :
    (u.Jumped ∧ (u.control = .jumping status ∨ u.control = .cleanup status)) ∨
      (u.control = .running ∧ Sync u.frames u.jmpBufList) ∨ u.control = .halted ∨
      ∃ exc, e = .raise exc ∧ u = t.raise exc := by
  rcases hc with hc | hc
  · obtain ⟨-, hl⟩ := hstep.of_jumping hc
    rcases hb : t.jmpBufList with _ | ⟨b, bufs⟩
    · rw [Thread.land_nil hb] at hl
      cases hl
    · cases b with
      | mainloop d =>
        rw [Thread.land_mainloop hb] at hl
        obtain ⟨v, hv, -, hcase⟩ := h.enterMainloop localJumpError hs hb
        rw [hl] at hv
        cases hv
        rcases hcase with ⟨hr, hsync, -⟩ | ⟨hj, hcu, -⟩
        · exact Or.inr (Or.inl ⟨hr, hsync⟩)
        · exact Or.inl ⟨hj, Or.inl (by rw [hcu, hc])⟩
      | guard d =>
        rw [Thread.land_guard hb] at hl
        cases hl
        exact Or.inl ⟨⟨h.sync, h.top, h.target, h.safe⟩, Or.inr rfl⟩
      | compareVal d =>
        have hlt := h.safe.1 d (by rw [hb]; exact List.mem_cons_self)
        have hle := (hb ▸ h.sync).length_framesFrom_le t.frameToLongJump rfl
        exact absurd hlt (Nat.not_lt.2 hle)
      | main =>
        rw [Thread.land_main hb] at hl
        cases hl
        exact Or.inr (Or.inr (Or.inl rfl))
      | stale =>
        rw [Thread.land_stale hb] at hl
        cases hl
  · rcases hstep.of_cleanup hc with ⟨d, bufs, -, hb, rfl⟩ | ⟨exc, he, rfl⟩
    · refine Or.inl ⟨⟨(hb ▸ h.sync).pop rfl, h.top, h.target, fun d' hd' => h.safe.1 d' ?_,
        h.safe.2⟩, Or.inl rfl⟩
      rw [hb]
      exact List.mem_cons_of_mem _ hd'
    · exact Or.inr (Or.inr (Or.inr ⟨exc, he, rfl⟩))

/-- A jump with a status is on its way. -/
def Thread.OnWay (t : Thread V) (status : JmpStatus) : Prop :=
  if status = .raise then t.Raised ∨ t.Unhandled else t.Jumped

/-- Frames and buffers are in step, as far as what the thread is at asks. -/
def Thread.InStep (t : Thread V) : Prop :=
  match t.control with
  | .running | .orphan _ => Sync t.frames t.jmpBufList
  | .calling => ∃ id fs, t.frames = .finish id :: fs ∧ NoFinishTop fs ∧ Sync fs t.jmpBufList
  | .jumping status | .cleanup status => t.OnWay status
  | .halted => True

section InStep

variable {t u : Thread V} {status : JmpStatus}

theorem inStep_running (h : t.control = .running) : t.InStep ↔ Sync t.frames t.jmpBufList := by
  unfold Thread.InStep
  rw [h]

theorem Thread.InStep.of_running (h : t.control = .running) (hs : Sync t.frames t.jmpBufList) :
    t.InStep :=
  (inStep_running h).2 hs

theorem inStep_orphan (h : t.control = .orphan status) :
    t.InStep ↔ Sync t.frames t.jmpBufList := by
  unfold Thread.InStep
  rw [h]

theorem inStep_calling (h : t.control = .calling) : t.InStep ↔
    ∃ id fs, t.frames = .finish id :: fs ∧ NoFinishTop fs ∧ Sync fs t.jmpBufList := by
  unfold Thread.InStep
  rw [h]

theorem inStep_onWay (h : t.control = .jumping status ∨ t.control = .cleanup status) :
    t.InStep ↔ t.OnWay status := by
  unfold Thread.InStep
  rcases h with h | h <;> rw [h]

theorem inStep_halted (h : t.control = .halted) : t.InStep := by
  unfold Thread.InStep
  rw [h]
  trivial

/-- What is raised is on its way. -/
theorem onWay_raise (hs : t.control ≠ .calling → Sync t.frames t.jmpBufList) (h : t.RaiseSafe)
    (exc : V) : (t.raise exc).OnWay .raise := by
  unfold Thread.OnWay
  rw [if_pos rfl]
  by_cases hh : handlerFrames t.frames = none
  · refine Or.inr ⟨hh, fun d hd => ?_⟩
    have := h.1 d hd
    rwa [hh] at this
  · obtain ⟨hc, ht⟩ := h.2 hh
    exact Or.inl ⟨hs hc, h.1, ht⟩

theorem inStep_raise (hs : t.control ≠ .calling → Sync t.frames t.jmpBufList) (h : t.RaiseSafe)
    (exc : V) : (t.raise exc).InStep :=
  (inStep_onWay (Or.inl rfl)).2 (onWay_raise hs h exc)

theorem sync_of_onWay (h : t.OnWay status) (hs : status ≠ .raise) : Sync t.frames t.jmpBufList := by
  unfold Thread.OnWay at h
  rw [if_neg hs] at h
  exact h.sync

/-- A jump on its way stays so, or has come to its end in step. -/
theorem inStep_of_onWay {e : Event V} (h : t.OnWay status)
    (hc : t.control = .jumping status ∨ t.control = .cleanup status) (ha : t.Allowed e)
    (hs : Step localJumpError t e u) : u.InStep := by
  unfold Thread.OnWay at h
  by_cases hr : status = .raise
  · subst hr
    rw [if_pos rfl] at h
    have hway : ∀ {u : Thread V}, u.Raised ∨ u.Unhandled →
        u.control = .jumping .raise ∨ u.control = .cleanup .raise → u.InStep := by
      intro u hu hcu
      refine (inStep_onWay hcu).2 ?_
      unfold Thread.OnWay
      rwa [if_pos rfl]
    rcases h with h | h
    · rcases h.step hc hs with ⟨hu, hcu, -, -⟩ | ⟨-, ⟨hru, hsync⟩ | hh⟩
      · exact hway (Or.inl hu) hcu
      · exact (inStep_running hru).2 hsync
      · exact inStep_halted hh
    · rcases h.step hc hs with ⟨hu, hcu⟩ | hh
      · exact hway (Or.inr hu) hcu
      · exact inStep_halted hh
  · rw [if_neg hr] at h
    rcases h.step hr hc hs with ⟨hu, hcu⟩ | ⟨hru, hsync⟩ | hh | ⟨exc, rfl, rfl⟩
    · refine (inStep_onWay hcu).2 ?_
      unfold Thread.OnWay
      rwa [if_neg hr]
    · exact (inStep_running hru).2 hsync
    · exact inStep_halted hh
    · exact inStep_raise (fun _ => h.sync) ha exc

/-- The script frame on top may be at another place. -/
theorem Sync.setTop {f g : ScriptFrame} {fs : List Frame} {bufs : List JmpBuf}
    (h : Sync (.script f :: fs) bufs) : Sync (.script g :: fs) bufs := by
  generalize hf : Frame.script f :: fs = fs' at h
  induction h with
  | nil => cases hf
  | main => cases hf
  | native hn hd _ ih =>
    subst hf
    exact .native hn hd (ih rfl)
  | c => cases hf
  | loop => cases hf
  | script hg hs =>
    cases hf
    exact .script hg hs

/-- The loop executing a body has its buffer on top. -/
theorem Sync.mainloop_of_inLoop {f : ScriptFrame} {fs : List Frame} {bufs : List JmpBuf}
    (h : Sync (.script f :: fs) bufs) (hl : ∀ b ∈ bufs.head?, b.isNative = false) :
    ∃ g fs' d bufs', fs = g :: fs' ∧ bufs = .mainloop d :: bufs' ∧ g.isC = false ∧ Sync fs bufs := by
  cases h with
  | native hn =>
    have := hl _ rfl
    rw [hn] at this
    cases this
  | script hg hs => exact ⟨_, _, _, _, rfl, rfl, hg, hs⟩

theorem Sync.call {f g f' : ScriptFrame} {fs : List Frame} {bufs : List JmpBuf}
    (h : Sync (.script f :: fs) bufs) (hl : ∀ b ∈ bufs.head?, b.isNative = false) :
    Sync (.script g :: .script f' :: fs) bufs := by
  obtain ⟨_, _, d, bufs', -, rfl, -, -⟩ := h.mainloop_of_inLoop hl
  exact .script rfl h.setTop

theorem Sync.finish {id : Nat} {fs : List Frame} {bufs : List JmpBuf}
    (h : Sync (.finish id :: fs) bufs) (hl : ∀ b ∈ bufs.head?, b.isNative = false) :
    Sync fs bufs.tail := by
  cases h with
  | native hn =>
    have := hl _ rfl
    rw [hn] at this
    cases this
  | loop _ hs => exact hs

theorem Sync.nativeReturn {id : Nat} {fs : List Frame} {bufs : List JmpBuf}
    (h : Sync (.c id :: fs) bufs)
    (hb : ∀ b ∈ bufs.head?, b.isNative → b.depth ≤ fs.length) : Sync fs bufs := by
  cases h with
  | native hn hd =>
    have := hb _ rfl hn
    rw [hd, List.length_cons] at this
    omega
  | c _ hs => exact hs

theorem NoFinishTop.of_isC {fs : List Frame} (h : ∀ f ∈ fs.head?, f.isC) : NoFinishTop fs := by
  intro f hf
  have := h f hf
  cases f with
  | c id => rfl
  | finish id => cases this
  | script g => rfl

theorem noFinishTop_script (f : ScriptFrame) (fs : List Frame) : NoFinishTop (.script f :: fs) := by
  rintro g ⟨⟩
  rfl

/-- A safe long jump to a frame on the chain is on its way. -/
theorem jumped_of_safe {f : ScriptFrame} {fs : List Frame} {pc : Nat} {val : V} {c : Control}
    {target : Option Nat} (hf : t.frames = .script f :: fs) (hs : Sync t.frames t.jmpBufList)
    (ho : detectOrphan target (.script f :: fs) = false) (ha : t.JumpSafe target) :
    Thread.Jumped { t with
      frames := .script { f with pc } :: fs, jmpVal := val, frameToLongJump := target,
      control := c } := by
  have htop : (Frame.script { f with pc }).isTarget target = (Frame.script f).isTarget target := rfl
  have hfrom : (framesFrom target (.script { f with pc } :: fs)).length =
      (framesFrom target t.frames).length := by
    rw [hf]
    rcases ht : (Frame.script f).isTarget target with _ | _
    · rw [framesFrom_cons _ (htop.trans ht), framesFrom_cons _ ht]
    · rw [framesFrom_of_target _ (htop.trans ht), framesFrom_of_target _ ht]
      rfl
  refine ⟨(hf ▸ hs).setTop, noFinishTop_script _ _, ?_, ?_, ?_⟩
  · unfold detectOrphan at ho
    rw [Bool.not_eq_false', List.any_eq_true] at ho
    obtain ⟨g, hg, ht⟩ := ho
    exact ⟨g, List.mem_cons_of_mem _ hg, ht⟩
  · intro d hd
    show d < (framesFrom target (.script { f with pc } :: fs)).length
    rw [hfrom]
    exact ha.1 d hd
  · show passesFinish (framesAbove target (.script { f with pc } :: fs)) = false
    have hp := ha.2
    rw [hf] at hp
    rcases ht : (Frame.script f).isTarget target with _ | _
    · rw [framesAbove_cons _ (htop.trans ht)]
      rw [framesAbove_cons _ ht] at hp
      exact hp
    · unfold framesAbove
      rw [List.takeWhile_cons_of_neg (by rw [htop, ht]; decide)]
      rfl

/-- Every step that meets the condition keeps frames and buffers in step. -/
theorem Thread.InStep.step {e : Event V} (h : t.InStep) (ha : t.Allowed e)
    (hs : Step localJumpError t e u) : u.InStep := by
  have hsync : ∀ {f fs op next}, t.Fetches f fs op next → Sync (.script f :: fs) t.jmpBufList := by
    intro f fs op next hf
    rw [← hf.frames]
    exact (inStep_running hf.running).1 h
  have hnative : t.control = .running → Sync t.frames t.jmpBufList := fun hc => (inStep_running hc).1 h
  have hs' := hs
  cases hs with
  | exec hf => exact .of_running hf.running (hsync hf).setTop
  | call g hf => exact .of_running hf.running ((hsync hf).call hf.inLoop)
  | callNative id hf =>
    exact .of_running hf.running (.c (noFinishTop_script _ _) (hsync hf).setTop)
  | pushFinish id hf =>
    exact (inStep_calling rfl).2 ⟨_, _, rfl, noFinishTop_script _ _, (hsync hf).setTop⟩
  | ret hf =>
    obtain ⟨_, _, _, _, -, -, -, hfs⟩ := (hsync hf).mainloop_of_inLoop hf.inLoop
    exact .of_running hf.running hfs
  | @longJump f fs op next status n vals hf hj ho =>
    have hstatus : status ≠ .raise := by
      rintro rfl
      cases op <;> cases hj
    refine (inStep_onWay (Or.inl rfl)).2 ?_
    unfold Thread.OnWay
    rw [if_neg hstatus]
    exact jumped_of_safe hf.frames (hnative hf.running) ho (ha f fs hf.frames)
  | orphan hf => exact (inStep_orphan rfl).2 (hsync hf).setTop
  | raiseLocalJumpError hc =>
    exact inStep_raise (fun _ => (inStep_orphan hc).1 h) ha _
  | finish hc hf hl => exact .of_running hc ((hf ▸ hnative hc).finish hl)
  | mainloop g hc hf =>
    obtain ⟨id', fs', hf', ht, hs⟩ := (inStep_calling hc).1 h
    refine .of_running rfl ?_
    show Sync (.script g :: t.frames) (.mainloop t.frames.length :: t.jmpBufList)
    rw [hf']
    exact .script rfl (.loop ht hs)
  | nativeCallsNative id hc hf => exact .of_running hc (.c (.of_isC hf) (hnative hc))
  | nativePushFinish id hc hf =>
    exact (inStep_calling rfl).2 ⟨_, _, rfl, .of_isC hf, hnative hc⟩
  | nativeReturn hc hf hb =>
    exact .of_running hc ((hf ▸ hnative hc).nativeReturn hb)
  | pushGuard hc hf => exact .of_running hc (.native rfl rfl (hnative hc))
  | pushCompareVal hc hf => exact .of_running hc (.native rfl rfl (hnative hc))
  | popJmpbuf hc hb hn => exact .of_running hc ((hb ▸ hnative hc).pop hn)
  | comparePushFinish id hc hf hb =>
    refine (inStep_calling rfl).2 ⟨_, _, rfl, ?_, hnative hc⟩
    rw [hf]
    exact noFinishTop_script _ _
  | raise exc hc =>
    refine inStep_raise (fun hne => ?_) ha _
    rcases hc with hc | hc
    · exact hnative hc
    · exact (hne hc).elim
  | land hc hl => exact inStep_of_onWay ((inStep_onWay (Or.inl hc)).1 h) (Or.inl hc) ha hs'
  | released hc hb =>
    exact inStep_of_onWay ((inStep_onWay (Or.inr hc)).1 h) (Or.inr hc) ha hs'
  | releaseFails exc hc =>
    exact inStep_of_onWay ((inStep_onWay (Or.inr hc)).1 h) (Or.inr hc) ha hs'

theorem eq_raise_of_step {exc : V} (hs : Step localJumpError t (.raise exc) u) : u = t.raise exc := by
  cases hs with
  | raiseLocalJumpError => rfl
  | raise => rfl
  | releaseFails => rfl

theorem inStep_start (val : V) (isMain : Bool) : (Thread.start val isMain).InStep := by
  refine (inStep_running rfl).2 ?_
  cases isMain
  · exact .nil
  · exact .main

/-- The frames and buffers of a run whose steps meet the condition are in step. -/
theorem inStep_of_run {val : V} {isMain : Bool} {es : List (Event V)}
    (h : Run (Only Thread.Allowed (Step localJumpError)) (.start val isMain) es t) : t.InStep :=
  h.invariant (fun _ _ _ hs hstep => hs.step hstep.1 hstep.2) (inStep_start val isMain)

end InStep

end Unwinding

/-- `try`, `1.times(&f)`, `except`, `b`, `end`. -/
def timesStmts : List Stmt :=
  [.except 1
    [.expr (.funcCall 2 (.attr 2 (.literal 2 (.fixnum 1)) 7)
      (.mk [] [] none none (some (.variable 2 3))) none)]
    [.mk 3 [] none [.expr (.variable 4 9)]] []]

/-- The package is at the call, in the native function. -/
def timesThread (code : Code) : Thread Unit where
  frames := [.c 1, .script ⟨0, code, 36, none, none⟩, .finish 0]
  jmpBufList := [.mainloop 1, .main]
  jmpVal := ()
  frameToLongJump := none
  control := .running

theorem exists_times_run : ∃ code, compilePackage .sample 5 "a.yog" timesStmts false = .ok code ∧
    findExceptionTableEntry code.fields.excTbl 36 = some 45 ∧
    ∃ es, Run (Only Thread.Allowed (Step fun _ => ())) (.start () true) es (timesThread code) := by
  obtain ⟨code, hcode, h⟩ := Except.exists_of_any
    (x := compilePackage .sample 5 "a.yog" timesStmts false)
    (p := fun code =>
      fetch code.fields.insts 0 = some (.loadLocalName 3, 9) ∧
      fetch code.fields.insts 9 = some (.pushConst 0, 18) ∧
      fetch code.fields.insts 18 = some (.loadAttr 7, 27) ∧
      fetch code.fields.insts 27 = some (.callFunction 0 0 0 0 1 0 0 0, 36) ∧
      findExceptionTableEntry code.fields.excTbl 36 = some 45)
    (by decide +kernel)
  simp only [Bool.decide_and, Bool.and_eq_true, decide_eq_true_eq] at h
  obtain ⟨h₀, h₁, h₂, h₃, h₄⟩ := h
  let f : ScriptFrame := ⟨0, code, 0, none, none⟩
  let at_ (pc : Nat) : Thread Unit :=
    ⟨[.script { f with pc }, .finish 0], [.mainloop 1, .main], (), none, .running⟩
  have hloop : ∀ pc, (at_ pc).InLoop := by
    rintro pc b ⟨⟩
    rfl
  refine ⟨code, hcode, h₄, [.native, .native, .exec 0 0, .exec 0 9, .exec 0 18, .exec 0 27], ?_⟩
  refine .cons ⟨trivial, .nativePushFinish 0 rfl (by rintro f ⟨⟩)⟩ ?_
  refine .cons ⟨trivial, .mainloop f rfl rfl rfl⟩ ?_
  refine .cons (t := at_ 9) ⟨trivial, .exec ⟨rfl, rfl, hloop 0, h₀⟩ rfl (Or.inl rfl)⟩ ?_
  refine .cons (t := at_ 18) ⟨trivial, .exec ⟨rfl, rfl, hloop 9, h₁⟩ rfl (Or.inl rfl)⟩ ?_
  refine .cons (t := at_ 27) ⟨trivial, .exec ⟨rfl, rfl, hloop 18, h₂⟩ rfl (Or.inl rfl)⟩ ?_
  exact .single ⟨trivial, .callNative 1 ⟨rfl, rfl, hloop 27, h₃⟩ rfl⟩

end Yog
