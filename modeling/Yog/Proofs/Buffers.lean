import Yog.Proofs.LongJumps
import Yog.Proofs.Program

/-!
# Jump buffers and the functions that set them

In a run that meets the condition of exceptions and long jumps, the buffer on top is that of the
main loop whose finish frame is the innermost one, whenever an instruction is next. What a function
found when it set its buffer is what it leaves when it returns or jumps on: no step changes the list
and the chain below it (`Thread.InStep.below`).
-/

namespace Yog

/-- The frames a function with this buffer leaves, by their number. A main loop takes its finish
frame along. -/
def JmpBuf.base : JmpBuf → Nat
  | .guard d | .compareVal d => d
  | .mainloop d => d - 1
  | .main | .stale => 0

theorem JmpBuf.base_of_isNative {b : JmpBuf} (h : b.isNative) : b.base = b.depth := by
  cases b with
  | guard d => rfl
  | compareVal d => rfl
  | mainloop d => cases h
  | main => rfl
  | stale => rfl

theorem JmpBuf.isMainloop_of_isNative {b : JmpBuf} (h : b.isNative) : b.isMainloop = false := by
  cases b with
  | mainloop d => cases h
  | _ => rfl

section Buffers

variable {V : Type} {localJumpError : JmpStatus → V}

/-- The next thing is an instruction: of a body, or the end of a loop. -/
structure Thread.AtInstruction (t : Thread V) : Prop where
  running : t.control = .running
  inLoop : t.InLoop
  frame : ∃ f ∈ t.frames.head?, f.isC = false

/-- The buffer on top is that of the loop whose finish frame is the innermost. -/
def Thread.OwnsTop (t : Thread V) : Prop :=
  ∃ d, t.jmpBufList.head? = some (.mainloop d) ∧ (finishDepths t.frames).head? = some d

/-- The frames a function leaves that set its buffer over these: a main loop takes its finish frame
along. -/
def JmpBuf.entryFrames (b : JmpBuf) (frames : List Frame) : List Frame :=
  if b.isMainloop then frames.tail else frames

theorem Sync.base_le {fs : List Frame} {bufs : List JmpBuf} (h : Sync fs bufs) :
    ∀ b ∈ bufs, b.base ≤ fs.length := by
  induction h with
  | nil => exact nofun
  | main =>
    rw [List.forall_mem_singleton]
    exact Nat.zero_le _
  | native hn hd _ ih =>
    rw [List.forall_mem_cons]
    exact ⟨(JmpBuf.base_of_isNative hn).trans hd |>.le, ih⟩
  | c _ _ ih => exact fun b hb => Nat.le_succ_of_le (ih b hb)
  | loop _ _ ih =>
    rw [List.forall_mem_cons]
    exact ⟨Nat.le_succ _, fun b hb => Nat.le_succ_of_le (ih b hb)⟩
  | script _ _ ih => exact fun b hb => Nat.le_succ_of_le (ih b hb)

/-- Buffers lie in the order of the frames. -/
theorem Sync.base_le_head {fs : List Frame} {b : JmpBuf} {bufs : List JmpBuf}
    (h : Sync fs (b :: bufs)) : ∀ b' ∈ bufs, b'.base ≤ b.base := by
  generalize hb : b :: bufs = bs at h
  induction h with
  | nil => cases hb
  | main =>
    cases hb
    exact nofun
  | native hn hd hs _ =>
    cases hb
    rw [JmpBuf.base_of_isNative hn, hd]
    exact hs.base_le
  | c _ _ ih => exact ih hb
  | loop _ hs _ =>
    cases hb
    exact hs.base_le
  | script _ _ ih => exact ih hb

/-- A frame over those of the loop on top is over those the loop leaves. -/
theorem Sync.base_le_tail {f : Frame} {fs : List Frame} {b : JmpBuf} {bufs : List JmpBuf}
    (h : Sync (f :: fs) (b :: bufs)) (hn : b.isNative = false) : b.base ≤ fs.length := by
  cases h with
  | native hn' => rw [hn] at hn'; cases hn'
  | c _ hs => exact hs.base_le _ List.mem_cons_self
  | loop => exact le_rfl
  | script _ hs => exact hs.base_le _ List.mem_cons_self

/-- Over the frames of a native function with the buffer on top there are native ones only. -/
theorem Sync.native_frames {fs : List Frame} {b : JmpBuf} {bufs : List JmpBuf}
    (h : Sync fs (b :: bufs)) (hn : b.isNative) :
    ∃ cs below, fs = cs ++ below ∧ (∀ f ∈ cs, f.isC) ∧ below.length = b.depth := by
  generalize hb : b :: bufs = bs at h
  induction h with
  | nil => cases hb
  | main =>
    cases hb
    cases hn
  | @native _ fs _ _ hd _ _ =>
    cases hb
    exact ⟨[], fs, rfl, nofun, hd.symm⟩
  | @c id fs bs _ _ ih =>
    obtain ⟨cs, below, rfl, hcs, hlen⟩ := ih hb
    refine ⟨.c id :: cs, below, rfl, ?_, hlen⟩
    rw [List.forall_mem_cons]
    exact ⟨rfl, hcs⟩
  | loop =>
    cases hb
    cases hn
  | script =>
    cases hb
    cases hn

theorem Sync.ownsTop {fs : List Frame} {bufs : List JmpBuf} (h : Sync fs bufs)
    (hl : ∀ b ∈ bufs.head?, b.isNative = false) (hf : ∃ f ∈ fs.head?, f.isC = false) :
    ∃ d, bufs.head? = some (.mainloop d) ∧ (finishDepths fs).head? = some d := by
  induction h with
  | nil =>
    obtain ⟨f, hf, -⟩ := hf
    cases hf
  | main =>
    obtain ⟨f, hf, -⟩ := hf
    cases hf
  | native hn =>
    have hn' := hl _ rfl
    rw [hn] at hn'
    cases hn'
  | c =>
    obtain ⟨f, hf, hc⟩ := hf
    cases hf
    cases hc
  | loop => exact ⟨_, rfl, rfl⟩
  | script hg _ ih => exact ih hl ⟨_, rfl, hg⟩

theorem countP_finish : ∀ fs : List Frame, fs.countP Frame.isFinish = (finishDepths fs).length
  | [] => rfl
  | .c _ :: fs => countP_finish fs
  | .script _ :: fs => countP_finish fs
  | .finish _ :: fs => by
    rw [List.countP_cons_of_pos rfl, countP_finish fs]
    rfl

theorem countP_mainloop : ∀ bufs : List JmpBuf,
    bufs.countP JmpBuf.isMainloop = (mainloopDepths bufs).length
  | [] => rfl
  | .guard _ :: bufs => countP_mainloop bufs
  | .compareVal _ :: bufs => countP_mainloop bufs
  | .main :: bufs => countP_mainloop bufs
  | .stale :: bufs => countP_mainloop bufs
  | .mainloop _ :: bufs => by
    rw [List.countP_cons_of_pos rfl, countP_mainloop bufs]
    rfl

/-- As many loops are active as there are finish frames. -/
theorem Sync.countP_eq {fs : List Frame} {bufs : List JmpBuf} (h : Sync fs bufs) :
    fs.countP Frame.isFinish = bufs.countP JmpBuf.isMainloop := by
  rw [countP_finish, countP_mainloop, h.mainloopDepths_eq]

/-- The loop goes on over the frames below its finish frame, or leaves for them. -/
def Thread.LoopTakes (t u : Thread V) : Prop :=
  ∃ d bufs below, t.jmpBufList = .mainloop d :: bufs ∧ below <:+ t.frames ∧ below.length + 1 = d ∧
    ((u.control = .running ∧ u.jmpBufList = t.jmpBufList ∧ below <:+ u.frames) ∨
      (u.control = t.control ∧ u.jmpBufList = bufs ∧ u.frames = below))

theorem Segment.suffix {fs : List Frame} {bufs : List JmpBuf} {cs ss : List Frame} {id : Nat}
    {below : List Frame} (h : Segment fs bufs cs ss id below) : below <:+ fs := by
  refine ⟨cs ++ (ss ++ [.finish id]), ?_⟩
  rw [h.frames, List.append_assoc, List.append_assoc]
  rfl

theorem Thread.Raised.loopTakes {t u : Thread V} (h : t.Raised) {d : Nat} {bufs : List JmpBuf}
    (hb : t.jmpBufList = .mainloop d :: bufs)
    (hl : t.enterMainloop localJumpError .raise = some u) : t.LoopTakes u := by
  have hsync := h.sync
  rw [hb] at hsync
  obtain ⟨cs, ss, id, below, hseg, hd⟩ := hsync.segment
  refine ⟨d, bufs, below, hb, hseg.suffix, hd.symm, ?_⟩
  unfold Thread.enterMainloop Thread.followRaise at hl
  simp only [hseg.skipCFrame] at hl
  rcases rollbackFrames_scripts id below hseg.script with
    ⟨f, ss', hr, -, -⟩ | ⟨hr, -⟩
  · rw [hr] at hl
    cases hl
    refine Or.inl ⟨rfl, rfl, .script f :: (ss' ++ [.finish id]), ?_⟩
    rw [List.cons_append, List.append_assoc]
    rfl
  · rw [hr] at hl
    unfold Thread.leaveMainloop at hl
    rw [h.skipToCFrame hseg] at hl
    cases hl
    exact Or.inr ⟨rfl, by rw [hb]; rfl, rfl⟩

theorem Thread.Jumped.loopTakes {t u : Thread V} {status : JmpStatus} (h : t.Jumped)
    (hs : status ≠ .raise) {d : Nat} {bufs : List JmpBuf}
    (hb : t.jmpBufList = .mainloop d :: bufs)
    (hl : t.enterMainloop localJumpError status = some u) : t.LoopTakes u := by
  have hsync := h.sync
  rw [hb] at hsync
  obtain ⟨cs, ss, id, below, hseg, hd⟩ := hsync.segment
  refine ⟨d, bufs, below, hb, hseg.suffix, hd.symm, ?_⟩
  rw [Thread.enterMainloop_of_ne hs, hseg.skipCFrame] at hl
  unfold Thread.followJump at hl
  rcases h.search hseg with ⟨ss', hf, -, -⟩ | ⟨hf, hskip, -⟩
  · rw [hf] at hl
    cases hl
    refine Or.inl ⟨rfl, rfl, ss' ++ [.finish id], ?_⟩
    rw [List.append_assoc]
    rfl
  · rw [hf] at hl
    simp only [Thread.leaveMainloop, hskip, Option.map_some] at hl
    cases hl
    exact Or.inr ⟨rfl, by rw [hb]; rfl, rfl⟩

/-- The jump is one that nothing handles, or the thread has ended. -/
def Thread.Lost (t : Thread V) : Prop :=
  t.control = .halted ∨ ((t.control = .jumping .raise ∨ t.control = .cleanup .raise) ∧ t.Unhandled)

/-- The number of frames the function with the buffer on top leaves. -/
def Thread.base (t : Thread V) : Nat := (t.jmpBufList.head?.map JmpBuf.base).getD 0

/-- A part of the chain that lies below the function with the buffer on top. -/
def Thread.Below (t : Thread V) (fs : List Frame) : Prop := fs <:+ t.frames ∧ fs.length ≤ t.base

theorem Thread.base_of_cons {t : Thread V} {b : JmpBuf} {bufs : List JmpBuf}
    (h : t.jmpBufList = b :: bufs) : t.base = b.base := by
  unfold Thread.base
  rw [h]
  rfl

theorem suffix_of_suffix_cons {f : Frame} {fs gs : List Frame} (h : gs <:+ f :: fs)
    (hl : gs.length ≤ fs.length) : gs <:+ fs :=
  List.suffix_of_suffix_length_le h (List.suffix_cons f fs) hl

/-- The frame on top is over what lies below, unless a native function has its buffer on top. -/
theorem Thread.Below.tail {t : Thread V} {f : Frame} {fs gs : List Frame} (h : t.Below gs)
    (hf : t.frames = f :: fs) (hs : Sync t.frames t.jmpBufList)
    (hn : ∀ b ∈ t.jmpBufList.head?, b.isNative → b.depth ≤ fs.length) : gs <:+ fs := by
  have hsuf := h.1
  rw [hf] at hsuf hs
  refine suffix_of_suffix_cons hsuf (h.2.trans ?_)
  rcases hb : t.jmpBufList with _ | ⟨b, bufs⟩
  · unfold Thread.base
    rw [hb]
    exact Nat.zero_le _
  · rw [Thread.base_of_cons hb]
    rw [hb] at hs hn
    by_cases hnat : b.isNative = true
    · rw [JmpBuf.base_of_isNative hnat]
      exact hn b rfl hnat
    · exact hs.base_le_tail (Bool.eq_false_of_not_eq_true hnat)

theorem Thread.Below.of_loopTakes {t u : Thread V} {gs : List Frame} (h : t.Below gs)
    (hl : t.LoopTakes u) : gs <:+ u.frames := by
  obtain ⟨d, bufs, below, hb, hsuf, hd, hcase⟩ := hl
  have hlen := h.2
  rw [Thread.base_of_cons hb] at hlen
  have hgs : gs <:+ below := by
    refine List.suffix_of_suffix_length_le h.1 hsuf (hlen.trans ?_)
    show d - 1 ≤ below.length
    omega
  rcases hcase with ⟨-, -, hu⟩ | ⟨-, -, hu⟩
  · exact hgs.trans hu
  · rw [hu]
    exact hgs

section Below

variable {t u : Thread V} {gs : List Frame} {status : JmpStatus}

/-- A jump on its way that is not lost goes to a loop, or to a function that holds something. -/
theorem Thread.OnWay.land_cases (h : t.OnWay status)
    (hc : t.control = .jumping status) (hlost : ¬ t.Lost)
    (hl : t.land localJumpError status = some u) :
    t.LoopTakes u ∨ (u.jmpBufList = t.jmpBufList ∧ u.frames = t.frames ∧ u.control ≠ .running) := by
  unfold Thread.OnWay at h
  rcases hb : t.jmpBufList with _ | ⟨b, bufs⟩
  · rw [Thread.land_nil hb] at hl
    cases hl
  cases b with
  | mainloop d =>
    rw [Thread.land_mainloop hb] at hl
    left
    by_cases hs : status = .raise
    · subst hs
      rw [if_pos rfl] at h
      rcases h with h | h
      · exact h.loopTakes hb hl
      · exact absurd (Or.inr ⟨Or.inl hc, h⟩) hlost
    · rw [if_neg hs] at h
      exact h.loopTakes hs hb hl
  | guard d =>
    rw [Thread.land_guard hb] at hl
    cases hl
    exact Or.inr ⟨hb, rfl, nofun⟩
  | compareVal d =>
    by_cases hs : status = .raise
    · subst hs
      rw [if_pos rfl] at h
      rcases h with h | h
      · exact (h.not_compareVal hb).elim
      · exact absurd (Or.inr ⟨Or.inl hc, h⟩) hlost
    · rw [if_neg hs] at h
      have hlt := h.safe.1 d (by rw [hb]; exact List.mem_cons_self)
      have hle := (hb ▸ h.sync).length_framesFrom_le t.frameToLongJump rfl
      exact absurd hlt (Nat.not_lt.2 hle)
  | main =>
    rw [Thread.land_main hb] at hl
    cases hl
    exact Or.inr ⟨hb, rfl, nofun⟩
  | stale =>
    rw [Thread.land_stale hb] at hl
    cases hl

/-- What lies below the function with the buffer on top stays as it is. -/
theorem Thread.InStep.below {e : Event V} (h : t.InStep) (hlost : ¬ t.Lost)
    (hs : Step localJumpError t e u) (hg : t.Below gs) : gs <:+ u.frames := by
  have htail : ∀ {f fs}, t.control = .running → t.frames = f :: fs → t.InLoop → gs <:+ fs := by
    intro f fs hc hf hl
    refine hg.tail hf ((inStep_running hc).1 h) fun b hb hn => ?_
    rw [hl b hb] at hn
    cases hn
  have hfetch : ∀ {f fs op next}, t.Fetches f fs op next → gs <:+ fs := fun hf =>
    htail hf.running hf.frames hf.inLoop
  have hcons : ∀ {f fs op next} (g : Frame), t.Fetches f fs op next → gs <:+ g :: fs :=
    fun g hf => (hfetch hf).trans (List.suffix_cons g _)
  have hpush : ∀ g : Frame, gs <:+ g :: t.frames := fun g => hg.1.trans (List.suffix_cons g _)
  cases hs with
  | exec hf => exact hcons _ hf
  | call g hf => exact (hcons _ hf).trans (List.suffix_cons _ _)
  | callNative id hf => exact (hcons _ hf).trans (List.suffix_cons _ _)
  | pushFinish id hf => exact (hcons _ hf).trans (List.suffix_cons _ _)
  | ret hf => exact hfetch hf
  | longJump vals hf => exact hcons _ hf
  | orphan hf => exact hcons _ hf
  | raiseLocalJumpError => exact hg.1
  | finish hc hf hl => exact htail hc hf hl
  | mainloop g => exact hpush _
  | nativeCallsNative => exact hpush _
  | nativePushFinish => exact hpush _
  | nativeReturn hc hf hb => exact hg.tail hf ((inStep_running hc).1 h) hb
  | pushGuard => exact hg.1
  | pushCompareVal => exact hg.1
  | popJmpbuf => exact hg.1
  | comparePushFinish => exact hpush _
  | raise => exact hg.1
  | land hc hl =>
    rcases ((inStep_onWay (Or.inl hc)).1 h).land_cases hc hlost hl with ht | ⟨-, hf, -⟩
    · exact hg.of_loopTakes ht
    · rw [hf]
      exact hg.1
  | released => exact hg.1
  | releaseFails => exact hg.1

theorem Thread.OnWay.sync (h : t.OnWay status)
    (hc : t.control = .jumping status ∨ t.control = .cleanup status) (hlost : ¬ t.Lost) :
    Sync t.frames t.jmpBufList := by
  by_cases hs : status = .raise
  · subst hs
    unfold Thread.OnWay at h
    rw [if_pos rfl] at h
    rcases h with h | h
    · exact h.sync
    · exact absurd (Or.inr ⟨hc, h⟩) hlost
  · exact sync_of_onWay h hs

/-- The buffer on top is gone. A main loop has taken its finish frame along, and a native function
the chain as it is. -/
def Thread.Leaves (t u : Thread V) : Prop :=
  ∃ b, t.jmpBufList = b :: u.jmpBufList ∧
    ((b.isMainloop = true ∧ u.frames.length = b.base) ∨
      (b.isNative = true ∧ u.frames = t.frames ∧ Sync t.frames t.jmpBufList))

theorem Thread.Leaves.of_loopTakes (h : t.LoopTakes u) :
    t.jmpBufList <:+ u.jmpBufList ∨ t.Leaves u := by
  obtain ⟨d, bufs, below, hb, -, hd, hcase⟩ := h
  rcases hcase with ⟨-, hl, -⟩ | ⟨-, hl, hf⟩
  · rw [hl]
    exact Or.inl (List.suffix_refl _)
  · refine Or.inr ⟨_, by rw [hb, hl], Or.inl ⟨rfl, ?_⟩⟩
    rw [hf]
    show below.length = d - 1
    omega

/-- A step keeps the list or puts a buffer on it, unless a function leaves. -/
theorem Thread.InStep.leaves {e : Event V} (h : t.InStep) (hlost : ¬ t.Lost)
    (hs : Step localJumpError t e u) : t.jmpBufList <:+ u.jmpBufList ∨ t.Leaves u := by
  have hrefl := List.suffix_refl t.jmpBufList
  cases hs with
  | exec | call | callNative | pushFinish | ret | longJump | orphan | raiseLocalJumpError
  | nativeCallsNative | nativePushFinish | nativeReturn | comparePushFinish | raise
  | releaseFails => exact Or.inl hrefl
  | mainloop => exact Or.inl (List.suffix_cons _ _)
  | pushGuard => exact Or.inl (List.suffix_cons _ _)
  | pushCompareVal => exact Or.inl (List.suffix_cons _ _)
  | finish hc hf hl =>
    have hsync := (inStep_running hc).1 h
    rw [hf] at hsync
    rcases hb : t.jmpBufList with _ | ⟨b, bufs⟩
    · exact Or.inl List.nil_suffix
    · rw [hb] at hsync
      unfold Thread.InLoop at hl
      rw [hb] at hl
      refine Or.inr ⟨b, hb, Or.inl ?_⟩
      cases hsync with
      | native hn =>
        have hn' := hl _ rfl
        rw [hn] at hn'
        cases hn'
      | loop => exact ⟨rfl, rfl⟩
  | popJmpbuf hc hb hn => exact Or.inr ⟨_, hb, Or.inr ⟨hn, rfl, (inStep_running hc).1 h⟩⟩
  | land hc hl =>
    rcases ((inStep_onWay (Or.inl hc)).1 h).land_cases hc hlost hl with ht | ⟨hl, -, -⟩
    · exact Thread.Leaves.of_loopTakes ht
    · rw [hl]
      exact Or.inl hrefl
  | released hc hb =>
    have hsync := ((inStep_onWay (Or.inr hc)).1 h).sync (Or.inr hc) hlost
    exact Or.inr ⟨_, hb, Or.inr ⟨rfl, rfl, hsync⟩⟩

theorem Thread.Lost.step {e : Event V} (h : t.Lost) (hs : Step localJumpError t e u) : u.Lost := by
  rcases h with hh | ⟨hc, h⟩
  · rcases hs.cases_control with hc | hc | ⟨_, hc⟩ | ⟨_, hc, -⟩ | ⟨_, hc, -⟩ <;>
      rw [hh] at hc <;> cases hc
  · rcases h.step hc hs with ⟨hu, hcu⟩ | hu
    · exact Or.inr ⟨hcu, hu⟩
    · exact Or.inl hu

/-- Unless it is lost a thread has frames and buffers in step, but for the finish frame of a loop
that is about to be entered. -/
theorem Thread.InStep.exists_sync (h : t.InStep) (hlost : ¬ t.Lost) :
    ∃ fs, Sync fs t.jmpBufList := by
  rcases hc : t.control with _ | _ | status | status | status | _
  · exact ⟨_, (inStep_running hc).1 h⟩
  · obtain ⟨_, fs, -, -, hs⟩ := (inStep_calling hc).1 h
    exact ⟨fs, hs⟩
  · exact ⟨_, (inStep_orphan hc).1 h⟩
  · exact ⟨_, ((inStep_onWay (Or.inl hc)).1 h).sync (Or.inl hc) hlost⟩
  · exact ⟨_, ((inStep_onWay (Or.inr hc)).1 h).sync (Or.inr hc) hlost⟩
  · exact absurd (Or.inl hc) hlost

/-- The function with the buffer `b` is still active, over the frames `gs`. -/
structure Thread.Over (b : JmpBuf) (bufs : List JmpBuf) (gs : List Frame) (t : Thread V) :
    Prop where
  inStep : t.InStep
  jmpBufList : b :: bufs <:+ t.jmpBufList
  frames : t.Lost ∨ gs <:+ t.frames

variable {b : JmpBuf} {bufs : List JmpBuf}

theorem Thread.Over.below (h : t.Over b bufs gs) (hg : gs.length = b.base) (hlost : ¬ t.Lost) :
    t.Below gs := by
  refine ⟨h.frames.resolve_left hlost, hg.le.trans ?_⟩
  obtain ⟨fs, hs⟩ := h.inStep.exists_sync hlost
  have hl := h.jmpBufList
  rcases ht : t.jmpBufList with _ | ⟨b', bufs'⟩
  · rw [ht] at hl
    exact absurd (List.suffix_nil.1 hl) (List.cons_ne_nil _ _)
  · rw [Thread.base_of_cons ht]
    rw [ht] at hl hs
    rcases List.suffix_cons_iff.1 hl with he | hl
    · rw [(List.cons.inj he).1]
    · exact hs.base_le_head b (hl.subset List.mem_cons_self)

theorem Thread.Over.step {e : Event V} (h : t.Over b bufs gs) (hg : gs.length = b.base)
    (ha : t.Allowed e) (hs : Step localJumpError t e u) (hu : b :: bufs <:+ u.jmpBufList) :
    u.Over b bufs gs := by
  refine ⟨h.inStep.step ha hs, hu, ?_⟩
  by_cases hlost : t.Lost
  · exact Or.inl (hlost.step hs)
  · exact Or.inr (h.inStep.below hlost hs (h.below hg hlost))

/-- Where the function leaves, it leaves the list as it was, and the frames it was over with native
ones on top of them at most. -/
theorem Thread.Over.leave {e : Event V} (h : t.Over b bufs gs) (hg : gs.length = b.base)
    (hlost : ¬ t.Lost) (hs : Step localJumpError t e u) (hu : ¬ b :: bufs <:+ u.jmpBufList) :
    u.jmpBufList = bufs ∧ ∃ cs, u.frames = cs ++ gs ∧ (∀ f ∈ cs, f.isC) ∧
      (b.isMainloop = true ∨ t.frames.length = b.depth → cs = []) := by
  have hbelow := h.inStep.below hlost hs (h.below hg hlost)
  rcases h.inStep.leaves hlost hs with hl | ⟨b', hb, hcase⟩
  · exact absurd (h.jmpBufList.trans hl) hu
  have hl := h.jmpBufList
  rw [hb] at hl
  rcases List.suffix_cons_iff.1 hl with he | hl
  swap
  · exact absurd hl hu
  obtain ⟨rfl, rfl⟩ := List.cons.inj he
  refine ⟨rfl, ?_⟩
  rcases hcase with ⟨-, hlen⟩ | ⟨hn, hf, hsync⟩
  · have he := hbelow.eq_of_length (hg.trans hlen.symm)
    exact ⟨[], he.symm, nofun, fun _ => rfl⟩
  · rw [hb] at hsync
    obtain ⟨cs, below, hframes, hcs, hlen⟩ := hsync.native_frames hn
    rw [JmpBuf.base_of_isNative hn, ← hlen] at hg
    rw [hf, hframes] at hbelow ⊢
    obtain rfl : gs = below :=
      (List.suffix_of_suffix_length_le hbelow (List.suffix_append cs below) hg.le).eq_of_length hg
    refine ⟨cs, rfl, hcs, ?_⟩
    rintro (hm | hd)
    · rw [JmpBuf.isMainloop_of_isNative hn] at hm
      cases hm
    · rw [hlen.symm, List.length_append] at hd
      exact List.length_eq_zero_iff.1 (by omega)

theorem Thread.Over.run {es : List (Event V)} (hg : gs.length = b.base)
    (hr : Run (Only (fun s _ => b :: bufs <:+ s.jmpBufList) (Only Thread.Allowed
      (Step localJumpError))) t es u)
    (h : t.Over b bufs gs) (hu : b :: bufs <:+ u.jmpBufList) : u.Over b bufs gs := by
  induction hr with
  | nil => exact h
  | cons hstep hr ih =>
    refine ih (h.step hg hstep.2.1 hstep.2.2 ?_) hu
    cases hr with
    | nil => exact hu
    | cons hnext => exact hnext.1

/-- Also a jump that nothing handles takes one buffer at a time. -/
theorem Thread.Lost.leaves {e : Event V} (h : t.Lost) (hs : Step localJumpError t e u) :
    t.jmpBufList <:+ u.jmpBufList ∨ ∃ b, t.jmpBufList = b :: u.jmpBufList := by
  rcases h with hh | ⟨hc | hc, h⟩
  · rcases hs.cases_control with hc | hc | ⟨_, hc⟩ | ⟨_, hc, -⟩ | ⟨_, hc, -⟩ <;>
      rw [hh] at hc <;> cases hc
  · obtain ⟨-, hl⟩ := hs.of_jumping hc
    rcases hb : t.jmpBufList with _ | ⟨b, bufs⟩
    · exact Or.inl List.nil_suffix
    cases b with
    | mainloop d =>
      rw [Thread.land_mainloop hb] at hl
      unfold Thread.enterMainloop Thread.followRaise at hl
      rcases hr : rollbackFrames (skipCFrame t.frames) with _ | fs
      · simp only [hr] at hl
        obtain ⟨fs, -, rfl⟩ := Option.map_eq_some_iff.1 hl
        right
        exact ⟨_, by rw [hb]; rfl⟩
      · simp only [hr] at hl
        cases hl
        rw [hb]
        exact Or.inl (List.suffix_refl _)
    | guard d =>
      rw [Thread.land_guard hb] at hl
      cases hl
      rw [hb]
      exact Or.inl (List.suffix_refl _)
    | compareVal d =>
      exact absurd (h.compares d (by rw [hb]; exact List.mem_cons_self)) (Nat.not_lt_zero _)
    | main =>
      rw [Thread.land_main hb] at hl
      cases hl
      rw [hb]
      exact Or.inl (List.suffix_refl _)
    | stale =>
      rw [Thread.land_stale hb] at hl
      cases hl
  · rcases hs.of_cleanup hc with ⟨d, bufs, -, hb, rfl⟩ | ⟨exc, -, rfl⟩
    · exact Or.inr ⟨_, hb⟩
    · exact Or.inl (List.suffix_refl _)

/-- If an exception is on its way, something handles it. -/
def Thread.Handled (t : Thread V) : Prop :=
  t.control = .jumping .raise ∨ t.control = .cleanup .raise → handlerFrames t.frames ≠ none

/-- The function that set the buffer `b` in `t` leaves with the step from `u` to `v`: with the list
as it was, and with the frames as they were if it runs in its own frame. Where it takes a jump the
frames of native functions it called may still be on top, which the next loop passes over. -/
structure Thread.Restores (b : JmpBuf) (t u v : Thread V) : Prop where
  jmpBufList : v.jmpBufList = t.jmpBufList
  frames : u.Handled → ∃ cs, v.frames = cs ++ b.entryFrames t.frames ∧ (∀ f ∈ cs, f.isC) ∧
    (b.isMainloop = true ∨ u.frames.length = b.depth → cs = [])

/-- The discipline of buffers, with respect to the steps that meet a condition. -/
structure Thread.Disciplined (localJumpError : JmpStatus → V) (ok : Thread V → Event V → Prop)
    (t : Thread V) : Prop where
  ownsTop : t.AtInstruction → t.OwnsTop
  loops : t.control = .running →
    t.frames.countP Frame.isFinish = t.jmpBufList.countP JmpBuf.isMainloop
  /-- From the step that puts a buffer on the list to the one that takes it off. -/
  restores : ∀ {b s u v e es e'}, Only ok (Step localJumpError) t e s →
    s.jmpBufList = b :: t.jmpBufList →
    Run (Only (fun s _ => b :: t.jmpBufList <:+ s.jmpBufList) (Only ok (Step localJumpError)))
      s es u →
    b :: t.jmpBufList <:+ u.jmpBufList → Only ok (Step localJumpError) u e' v →
    ¬ b :: t.jmpBufList <:+ v.jmpBufList → t.Restores b u v

theorem Thread.leaveMainloop_le {fs : List Frame} (hl : t.leaveMainloop fs = some u) :
    u.jmpBufList.length ≤ t.jmpBufList.length := by
  obtain ⟨fs', -, rfl⟩ := Option.map_eq_some_iff.1 hl
  exact (List.tail_suffix _).length_le

/-- No landing puts a buffer on the list. -/
theorem Thread.land_le (hl : t.land localJumpError status = some u) :
    u.jmpBufList.length ≤ t.jmpBufList.length := by
  rcases hb : t.jmpBufList with _ | ⟨b, bufs⟩
  · rw [Thread.land_nil hb] at hl
    cases hl
  rw [← hb]
  cases b with
  | mainloop d =>
    rw [Thread.land_mainloop hb] at hl
    by_cases hs : status = .raise
    · subst hs
      unfold Thread.enterMainloop Thread.followRaise at hl
      rcases hr : rollbackFrames (skipCFrame t.frames) with _ | fs
      · simp only [hr] at hl
        exact Thread.leaveMainloop_le hl
      · simp only [hr] at hl
        cases hl
        exact le_rfl
    · rw [Thread.enterMainloop_of_ne hs] at hl
      unfold Thread.followJump at hl
      rcases hr : searchFrame t.frameToLongJump (skipCFrame t.frames) with fs | _ | _
      · rw [hr] at hl
        cases hl
        exact le_rfl
      · rw [hr] at hl
        exact Thread.leaveMainloop_le hl
      · rw [hr] at hl
        cases hl
        exact le_rfl
  | guard d =>
    rw [Thread.land_guard hb] at hl
    cases hl
    exact le_rfl
  | compareVal d =>
    rw [Thread.land_compareVal hb] at hl
    cases hl
    rw [hb]
    exact le_rfl
  | main =>
    rw [Thread.land_main hb] at hl
    cases hl
    exact le_rfl
  | stale =>
    rw [Thread.land_stale hb] at hl
    cases hl

/-- A function puts its buffer on the list over the frames it was called with. -/
theorem Step.entryFrames {e : Event V} (hs : Step localJumpError t e u)
    (hb : u.jmpBufList = b :: t.jmpBufList) :
    (b.entryFrames t.frames).length = b.base ∧ b.entryFrames t.frames <:+ u.frames := by
  have hlt : ¬ u.jmpBufList.length ≤ t.jmpBufList.length := by
    rw [hb, List.length_cons]
    omega
  cases hs with
  | exec | call | callNative | pushFinish | ret | longJump | orphan | raiseLocalJumpError
  | nativeCallsNative | nativePushFinish | nativeReturn | comparePushFinish | raise
  | releaseFails => exact (hlt le_rfl).elim
  | finish => exact (hlt (List.tail_suffix _).length_le).elim
  | popJmpbuf _ ht =>
    rw [ht] at hlt
    exact (hlt (Nat.le_succ _)).elim
  | land _ hl => exact (hlt (Thread.land_le hl)).elim
  | released _ ht =>
    rw [ht] at hlt
    exact (hlt (Nat.le_succ _)).elim
  | mainloop g hc hf =>
    obtain rfl := (List.cons.inj hb).1
    show t.frames.tail.length = t.frames.length - 1 ∧ t.frames.tail <:+ .script g :: t.frames
    exact ⟨List.length_tail, (List.tail_suffix _).trans (List.suffix_cons _ _)⟩
  | pushGuard =>
    obtain rfl := (List.cons.inj hb).1
    exact ⟨rfl, List.suffix_refl _⟩
  | pushCompareVal =>
    obtain rfl := (List.cons.inj hb).1
    exact ⟨rfl, List.suffix_refl _⟩

theorem Thread.Handled.not_lost {e : Event V} (h : t.Handled) (hs : Step localJumpError t e u) :
    ¬ t.Lost := by
  rintro (hh | ⟨hc, hu⟩)
  · rcases hs.cases_control with hc | hc | ⟨_, hc⟩ | ⟨_, hc, -⟩ | ⟨_, hc, -⟩ <;>
      rw [hh] at hc <;> cases hc
  · exact h hc hu.handler

/-- In step, a thread is disciplined with respect to the steps of the condition. -/
theorem Thread.InStep.disciplined (h : t.InStep) :
    t.Disciplined localJumpError Thread.Allowed where
  ownsTop hi := ((inStep_running hi.running).1 h).ownsTop hi.inLoop hi.frame
  loops hc := ((inStep_running hc).1 h).countP_eq
  restores := by
    intro b s u v e es e' hs hb hr hu hs' hv
    obtain ⟨hg, hsuf⟩ := hs.2.entryFrames hb
    have hover : u.Over b t.jmpBufList (b.entryFrames t.frames) := by
      refine Thread.Over.run hg hr ⟨h.step hs.1 hs.2, ?_, Or.inr hsuf⟩ hu
      rw [hb]
    have hlist : v.jmpBufList = t.jmpBufList := by
      by_cases hlost : u.Lost
      · rcases hlost.leaves hs'.2 with hl | ⟨b', hl⟩
        · exact absurd (hu.trans hl) hv
        · rw [hl] at hu
          rcases List.suffix_cons_iff.1 hu with he | hu
          · exact (List.cons.inj he).2.symm
          · exact absurd hu hv
      · exact (hover.leave hg hlost hs'.2 hv).1
    exact ⟨hlist, fun hh => (hover.leave hg (hh.not_lost hs'.2) hs'.2 hv).2⟩

/-- The threads of a run whose steps meet the condition are disciplined. -/
theorem disciplined_of_run {val : V} {isMain : Bool} {es : List (Event V)}
    (h : Run (Only Thread.Allowed (Step localJumpError)) (.start val isMain) es t) :
    t.Disciplined localJumpError Thread.Allowed :=
  (inStep_of_run h).disciplined

end Below

end Buffers

/-- The package of a script that calls a native function. -/
theorem disciplined_times : ∃ code, compilePackage .sample 5 "a.yog" timesStmts false = .ok code ∧
    (timesThread code).Disciplined (fun _ => ()) Thread.Allowed := by
  obtain ⟨code, hcode, -, es, hrun⟩ := exists_times_run
  exact ⟨code, hcode, disciplined_of_run hrun⟩

/-- A function that is to be the `==` of a key, and an access to a dictionary. -/
def subscriptStmts : List Stmt :=
  [.funcDef 1 [] 3 [] [.expr (.variable 2 9)], .expr (.subscript 4 (.variable 4 5) (.variable 4 7))]

/-- The code is that of `subscriptStmts`, and nothing in the function catches. -/
def IsSubscript (code body : Code) : Prop :=
  fetch code.fields.insts 0 = some (.pushConst 0, 9) ∧
  fetch code.fields.insts 9 = some (.makeFunction 3, 18) ∧
  fetch code.fields.insts 18 = some (.storeLocalName 3, 27) ∧
  fetch code.fields.insts 27 = some (.loadLocalName 5, 36) ∧
  fetch code.fields.insts 36 = some (.loadLocalName 7, 45) ∧
  fetch code.fields.insts 45 = some (.subscript, 46) ∧
  fetch body.fields.insts 0 = some (.loadGlobal 9, 9) ∧
  findExceptionTableEntry body.fields.excTbl 9 = none

instance (code body : Code) : Decidable (IsSubscript code body) :=
  inferInstanceAs (Decidable (_ ∧ _ ∧ _ ∧ _ ∧ _ ∧ _ ∧ _ ∧ _))

/-- The package behind the access, the buffer of the comparison on the list. -/
def staleThread (code : Code) : Thread Unit where
  frames := [.script ⟨0, code, 46, none, none⟩, .finish 0]
  jmpBufList := [.stale, .mainloop 1, .main]
  jmpVal := ()
  frameToLongJump := none
  control := .running

theorem exists_stale_run {code body : Code} (h : IsSubscript code body) :
    ∃ es, Run (Step fun _ => ()) (.start () true) es (staleThread code) := by
  obtain ⟨h₀, h₁, h₂, h₃, h₄, h₅, h₆, h₇⟩ := h
  let f : ScriptFrame := ⟨0, code, 0, none, none⟩
  let at_ (pc : Nat) : Thread Unit :=
    ⟨[.script { f with pc }, .finish 0], [.mainloop 1, .main], (), none, .running⟩
  have hloop : ∀ pc, (at_ pc).InLoop := by
    rintro pc b ⟨⟩
    rfl
  let below : List Frame := [.c 1, .script { f with pc := 46 }, .finish 0]
  let native (bufs : List JmpBuf) (control : Control) : Thread Unit :=
    ⟨below, bufs ++ [.mainloop 1, .main], (), none, control⟩
  let g : ScriptFrame := ⟨3, body, 0, none, none⟩
  let comparing (pc : Nat) : Thread Unit :=
    ⟨.script { g with pc } :: .finish 2 :: below, [.mainloop 4, .compareVal 3, .mainloop 1, .main],
      (), none, .running⟩
  have hcompare : (comparing 0).InLoop := by
    rintro b ⟨⟩
    rfl
  have hleave : ((comparing 9).raise ()).land (fun _ => ()) .raise =
      some (native [.compareVal 3] (.jumping .raise)) := by
    have hskip : skipCFrame (comparing 9).frames = (comparing 9).frames := rfl
    have hroll : rollbackFrames (comparing 9).frames = none := by
      show rollbackFrames (.script { g with pc := 9 } :: .finish 2 :: below) = none
      unfold rollbackFrames
      rw [h₇]
      rfl
    show ((comparing 9).raise ()).followRaise (skipCFrame (comparing 9).frames) = _
    unfold Thread.followRaise
    rw [hskip, hroll]
    rfl
  refine ⟨[.native, .native, .exec 0 0, .exec 0 9, .exec 0 18, .exec 0 27, .exec 0 36, .exec 0 45,
    .native, .native, .native, .exec 3 0, .raise (), .land, .land, .native], ?_⟩
  refine .cons (.nativePushFinish 0 rfl (by rintro f ⟨⟩)) ?_
  refine .cons (.mainloop f rfl rfl rfl) ?_
  refine .cons (t := at_ 9) (.exec ⟨rfl, rfl, hloop 0, h₀⟩ rfl (Or.inl rfl)) ?_
  refine .cons (t := at_ 18) (.exec ⟨rfl, rfl, hloop 9, h₁⟩ rfl (Or.inl rfl)) ?_
  refine .cons (t := at_ 27) (.exec ⟨rfl, rfl, hloop 18, h₂⟩ rfl (Or.inl rfl)) ?_
  refine .cons (t := at_ 36) (.exec ⟨rfl, rfl, hloop 27, h₃⟩ rfl (Or.inl rfl)) ?_
  refine .cons (t := at_ 45) (.exec ⟨rfl, rfl, hloop 36, h₄⟩ rfl (Or.inl rfl)) ?_
  refine .cons (t := native [] .running) (.callNative 1 ⟨rfl, rfl, hloop 45, h₅⟩ rfl) ?_
  refine .cons (t := native [.compareVal 3] .running)
    (.pushCompareVal rfl (by rintro f ⟨⟩; rfl)) ?_
  refine .cons (.nativePushFinish 2 rfl (by rintro f ⟨⟩; rfl)) ?_
  refine .cons (t := comparing 0) (.mainloop g rfl rfl rfl) ?_
  refine .cons (t := comparing 9) (.exec ⟨rfl, rfl, hcompare, h₆⟩ rfl (Or.inl rfl)) ?_
  refine .cons (.raise () (Or.inl rfl)) ?_
  refine .cons (.land rfl hleave) ?_
  refine .cons (t := native [.stale] .running) (.land rfl rfl) ?_
  exact .single (.nativeReturn rfl rfl (by rintro b ⟨⟩ hb; cases hb))

/-- The `==` of a key raises: `compare_val` answers that the keys differ and leaves its buffer on
top, where the package goes on. -/
theorem not_disciplined_subscript : ∃ code body,
    compilePackage .sample 8 "a.yog" subscriptStmts false = .ok code ∧
    .code body ∈ code.fields.consts ∧
    (∃ es, Run (Step fun _ => ()) (.start () true) es (staleThread code)) ∧
    (staleThread code).AtInstruction ∧
    ¬ (staleThread code).Disciplined (fun _ => ()) fun _ _ => True := by
  obtain ⟨code, hcode, h⟩ := Except.exists_of_any
    (x := compilePackage .sample 8 "a.yog" subscriptStmts false)
    (p := fun code => code.anyBody fun body => IsSubscript code body) (by decide +kernel)
  obtain ⟨body, hmem, hsub⟩ := Code.exists_of_anyBody h
  have hat : (staleThread code).AtInstruction :=
    ⟨rfl, by rintro b ⟨⟩; rfl, _, rfl, rfl⟩
  refine ⟨code, body, hcode, hmem, exists_stale_run (of_decide_eq_true hsub), hat, fun h => ?_⟩
  obtain ⟨d, hd, -⟩ := h.ownsTop hat
  cases hd

end Yog
