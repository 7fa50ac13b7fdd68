import Yog.Proofs.OuterFrames
import Yog.Proofs.LongJumps

/-!
# Where jumps out of blocks go

A block remembers the frame its function was called from, and the frame it was made in. A `return` in
it goes to the one and a `break` to the other, if that object is on the chain. Objects in use are not
used for anything else, so where the activation of the function (the call the block was passed to) is
still under way, the jump completes it. Where it is not, the frame may be on the chain all the same,
in another call; the jump is refused only when it is not on the chain (`jumpsRight_iff`).

How a jump gets to its frame is a matter of the control stack, which knows the objects by numbers.
-/

namespace Yog.Vm

/-- The number of an object in the control stack. -/
def FrameRef.number : FrameRef → Nat
  | .c => 0
  | .finish a => 2 * a + 1
  | .script a => 2 * a + 2

theorem FrameRef.number_injective : Function.Injective FrameRef.number := by
  intro r r' h
  cases r <;> cases r' <;> simp only [number] at h <;> first | rfl | omega | skip
  · congr 1
    omega
  · congr 1
    omega

/-- What the control stack has of a frame of the chain. -/
inductive Shows (heap : Heap) : Frame → FrameRef → Prop where
  | c (id : Nat) : Shows heap (.c id) .c
  | finish (a : Nat) : Shows heap (.finish (FrameRef.finish a).number) (.finish a)
  | script {a : Nat} {f : FrameObj} (pc : Nat) : heap a = some f →
    Shows heap
      (.script
        { id := (FrameRef.script a).number
          code := f.code
          pc
          frameToLongReturn := f.frameToLongReturn.map FrameRef.number
          frameToLongBreak := f.frameToLongBreak.map FrameRef.number })
      (.script a)

section Shows

variable {heap : Heap} {f : Frame} {r : FrameRef} {fs : List Frame} {frames : List FrameRef}
  (target : Option FrameRef)

theorem Shows.isTarget (h : Shows heap f r) :
    f.isTarget (target.map FrameRef.number) = r.isTarget target := by
  have hmap : ∀ r : FrameRef,
      some r.number = target.map FrameRef.number ↔ some r = target := by
    intro r
    rw [← Option.map_some, (Option.map_injective FrameRef.number_injective).eq_iff]
  unfold Frame.isTarget FrameRef.isTarget
  cases h with
  | c id => rfl
  | finish a => simp [Frame.isC, Frame.id, hmap]
  | script pc ha => simp [Frame.isC, Frame.id, hmap]

theorem shows_framesFrom (h : List.Forall₂ (Shows heap) fs frames) :
    List.Forall₂ (Shows heap) (framesFrom (target.map FrameRef.number) fs) (landing target frames) := by
  induction h with
  | nil => exact .nil
  | @cons f r fs frames hs h ih =>
    unfold landing
    rcases ht : r.isTarget target with _ | _
    · rw [framesFrom_cons _ ((hs.isTarget target).trans ht), List.dropWhile_cons_of_pos (by simp [ht])]
      exact ih
    · rw [framesFrom_of_target _ ((hs.isTarget target).trans ht),
        List.dropWhile_cons_of_neg (by simp [ht])]
      exact .cons hs h

theorem shows_any (h : List.Forall₂ (Shows heap) fs frames) :
    fs.any (Frame.isTarget (target.map FrameRef.number)) = frames.any (FrameRef.isTarget target) := by
  induction h with
  | nil => rfl
  | cons hs _ ih => rw [List.any_cons, List.any_cons, hs.isTarget target, ih]

theorem shows_detectOrphan (h : List.Forall₂ (Shows heap) fs frames) :
    Yog.detectOrphan (target.map FrameRef.number) fs = detectOrphan target frames := by
  unfold Yog.detectOrphan detectOrphan
  cases h with
  | nil => rfl
  | cons _ h => exact congrArg (!·) (shows_any target h)

end Shows

/-- The frame a jump of this kind in a frame goes to. -/
def FrameObj.target (f : FrameObj) : JmpStatus → Option FrameRef
  | .return_ => f.frameToLongReturn
  | .break_ => f.frameToLongBreak
  | .raise => none

/-- What a jump out of a block is to complete is under way, and this is the chain when it has: the
activation of the function the block is in, for a `return`; the call the block was passed to, for a
`break`. -/
inductive Pending (s : State) (b : FrameObj) : JmpStatus → List FrameRef → Prop where
  | return_ {pre frames : List FrameRef} {a : Nat} {f : FrameObj} :
    s.current.frames = pre ++ .script a :: frames → s.heap a = some f →
    home (b.act :: b.enclosing) = some f.act → Pending s b .return_ frames
  | break_ {pre rest : List FrameRef} {a : Nat} {f : FrameObj} : pre ≠ [] →
    s.current.frames = pre ++ .script a :: rest → s.heap a = some f →
    b.enclosing.head? = some f.act → b.passedTo = some f.calls →
    Pending s b .break_ (.script a :: rest)

/-- The frame object of what the jump is to complete: the one the function was called from, or the
one the block was made in. -/
def origin (b : FrameObj) : JmpStatus → Option FrameRef
  | .return_ => (home (b.act :: b.enclosing)).map Activation.caller
  | .break_ => b.enclosing.head?.map fun c => .script c.frame
  | .raise => none

section Jumps

variable {V : Type} (localJumpError : JmpStatus → V)

/-- The thread takes a jump out of the block on top. -/
def Jumps (status : JmpStatus) (t u : Yog.Thread V) : Prop :=
  ∃ id pc, Yog.Step localJumpError t (.longJump id pc status) u

/-- The jump is taken, with any values, and gets to these frames with them and nowhere else. -/
structure Completes (heap : Heap) (status : JmpStatus) (t : Yog.Thread V) (frames : List FrameRef) :
    Prop where
  jumps : ∀ vals, ∃ u, Jumps localJumpError status t u ∧ u.jmpVal = vals
  arrives : ∀ u, Jumps localJumpError status t u → ∃ es v, Arrives localJumpError status u es v
  frames : ∀ u es v, Jumps localJumpError status t u → Run (OnWay localJumpError status) u es v →
    v.control = .running →
    v.frames <:+ t.frames ∧ List.Forall₂ (Shows heap) v.frames frames ∧ v.jmpVal = u.jmpVal

/-- The jump is not taken, and a `LocalJumpError` is raised. -/
structure Refused (status : JmpStatus) (t : Yog.Thread V) : Prop where
  jumps : ∀ u, ¬Jumps localJumpError status t u
  raises : ∃ e u, Yog.Step localJumpError t e u ∧
    Yog.Step localJumpError u (.raise (localJumpError status)) (u.raise (localJumpError status))

structure JumpsRight (status : JmpStatus) (s : State) (b : FrameObj) (t : Yog.Thread V) : Prop where
  pending : ∀ frames, Pending s b status frames → Completes localJumpError s.heap status t frames
  lost : (¬∃ frames, Pending s b status frames) → Refused localJumpError status t

end Jumps

section Origin

variable {K : Code → Prop} {s : State} {b : FrameObj} {status : JmpStatus}
  {pre frames : List FrameRef} {r : FrameRef}

/-- No frame above an object of the chain is that object. -/
theorem isTarget_above (hn : (chainAddresses (pre ++ frames)).Nodup) (hr : frames.head? = some r) :
    ∀ x ∈ pre, x.isTarget (some r) = false := by
  intro x hx
  by_contra ht
  rw [Bool.not_eq_false, FrameRef.isTarget, decide_eq_true_eq] at ht
  obtain ⟨hc, heq⟩ := ht
  cases heq
  unfold chainAddresses at hn
  rw [List.filterMap_append] at hn
  obtain ⟨-, -, hdisjoint⟩ := List.nodup_append.1 hn
  obtain ⟨a, ha⟩ : ∃ a, r.address? = some a := by
    cases r with
    | c => exact absurd rfl hc
    | finish a => exact ⟨a, rfl⟩
    | script a => exact ⟨a, rfl⟩
  exact hdisjoint a (List.mem_filterMap.2 ⟨r, hx, ha⟩) a
    (List.mem_filterMap.2 ⟨r, List.mem_of_mem_head? hr, ha⟩) rfl

theorem isTarget_self (hc : r ≠ .c) : r.isTarget (some r) = true := by
  rw [FrameRef.isTarget, decide_eq_true_eq]
  exact ⟨hc, rfl⟩

theorem landing_above (hn : (chainAddresses (pre ++ frames)).Nodup) (hr : frames.head? = some r)
    (hc : r ≠ .c) : landing (some r) (pre ++ frames) = frames := by
  unfold landing
  rw [List.dropWhile_append_of_pos fun x hx => by rw [isTarget_above hn hr x hx]; rfl]
  rcases frames with _ | ⟨x, frames⟩
  · cases hr
  · cases hr
    exact List.dropWhile_cons_of_neg (by rw [isTarget_self hc]; decide)

/-- A frame below the top of the chain can be jumped to. -/
theorem detectOrphan_eq_false {x : FrameRef} {rest : List FrameRef} (hc : r ≠ .c) (hr : r ∈ rest) :
    detectOrphan (some r) (x :: rest) = false := by
  unfold detectOrphan
  rw [Bool.not_eq_false', List.any_eq_true]
  exact ⟨r, hr, isTarget_self hc⟩

theorem detectOrphan_eq_true {x : FrameRef} {rest : List FrameRef} {target : Option FrameRef}
    (h : ∀ r ∈ target, r ∉ rest) : detectOrphan target (x :: rest) = true := by
  unfold detectOrphan
  rw [Bool.not_eq_true', List.any_eq_false]
  intro y hy ht
  rw [FrameRef.isTarget, decide_eq_true_eq] at ht
  exact h y ht.2.symm hy

/-- What is under way stands on its origin. -/
theorem Inv.pending (h : Inv K s) (hp : Pending s b status frames) :
    ∃ pre r, s.current.frames = pre ++ frames ∧ pre ≠ [] ∧ frames.head? = some r ∧ r ≠ .c ∧
      origin b status = some r := by
  cases hp with
  | @return_ pre frames a f hs hf hh =>
    have hl := h.linked_current.suffix (show .script a :: frames <:+ _ from ⟨pre, hs.symm⟩)
    obtain ⟨⟨f', hf', -, hcaller, hright⟩, -⟩ := hl
    have heq : some f = some f' := hf.symm.trans hf'
    cases heq
    refine ⟨pre ++ [.script a], f.act.caller, by simp [hs], by simp, hcaller, hright.caller, ?_⟩
    unfold origin
    rw [hh]
    rfl
  | @break_ pre rest a f hne hs hf hh =>
    have hl := h.linked_current.suffix (show .script a :: rest <:+ _ from ⟨pre, hs.symm⟩)
    obtain ⟨⟨f', hf', hfr, -⟩, -⟩ := hl
    have heq : some f = some f' := hf.symm.trans hf'
    cases heq
    refine ⟨pre, .script a, hs, hne, rfl, by simp, ?_⟩
    unfold origin
    rw [hh, Option.map_some, hfr]

theorem Inv.nodup_current (h : Inv K s) : (chainAddresses s.current.frames).Nodup := by
  have hn := h.nodup
  unfold State.addresses State.chains at hn
  rw [List.flatMap_cons, List.append_assoc] at hn
  exact (List.nodup_append.1 hn).1

/-- Functions are not entered on the frame of a native function. -/
theorem Inv.home_caller (h : Inv K s) {H : Activation} {bs : List Activation} (hb : b.Right K s.heap)
    (he : b.enclosing = bs) (hH : home (b.act :: bs) = some H) : H.caller ≠ .c := by
  induction bs generalizing b with
  | nil =>
    rcases hk : b.act.kind with _ | _ | _ <;> simp only [home, hk] at hH <;> cases hH
    exact hb.caller
  | cons c cs ih =>
    rcases hk : b.act.kind with _ | _ | _ <;> rw [home, hk] at hH
    · cases hH
      exact hb.caller
    · have hne : b.act.kind ≠ .names := by
        rw [hk]
        exact ScopeKind.noConfusion
      obtain ⟨c', cs', g, henc, hg, hact, hcs, hused, -⟩ := hb.remembered hne
      rw [he] at henc
      cases henc
      refine ih (h.used _ g hg hused) hcs ?_
      rw [hact]
      exact hH
    · cases hH

theorem Inv.origin_ne_c (h : Inv K s) (hb : b.Right K s.heap) : ∀ r ∈ origin b status, r ≠ .c := by
  intro r hr
  cases status with
  | raise => cases hr
  | return_ =>
    obtain ⟨H, hH, rfl⟩ := Option.map_eq_some_iff.1 hr
    exact h.home_caller hb rfl hH
  | break_ =>
    obtain ⟨c, -, rfl⟩ := Option.map_eq_some_iff.1 hr
    exact FrameRef.noConfusion

/-- A block remembers the origin. -/
theorem target_eq_origin (hb : b.Right K s.heap) (hk : b.act.kind = .block)
    (hh : status = .return_ → home (b.act :: b.enclosing) ≠ none) :
    b.target status = origin b status := by
  cases status with
  | raise => rfl
  | return_ =>
    obtain ⟨H, hH⟩ := Option.ne_none_iff_exists'.1 (hh rfl)
    show b.frameToLongReturn = _
    rw [hb.return_ H hH, origin, hH]
    rfl
  | break_ =>
    obtain ⟨c, cs, henc, hbreak⟩ := hb.break_ hk
    show b.frameToLongBreak = _
    rw [hbreak, origin, henc]
    rfl

end Origin

section Jump

variable {V : Type} {localJumpError : JmpStatus → V} {packages : Code → Prop} {s : State}
  {t u : Yog.Thread V} {status : JmpStatus} {a n next : Nat} {b : FrameObj} {f : ScriptFrame}
  {rest : List FrameRef} {fs : List Frame} {op : Op Nat}

theorem Op.longJump?_ne_raise (hj : op.longJump? = some (status, n)) : status ≠ .raise := by
  rintro rfl
  cases op <;> cases hj

/-- What the control stack shows of a chain with the frame `b` on top. -/
theorem shows_top (status : JmpStatus)
    (hshow : List.Forall₂ (Shows s.heap) t.frames s.current.frames)
    (hr : s.current.frames = .script a :: rest) (hb : s.heap a = some b)
    (hf : t.Fetches f fs op next) :
    List.Forall₂ (Shows s.heap) fs rest ∧ Shows s.heap (.script f) (.script a) ∧
      f.target status = (b.target status).map FrameRef.number := by
  rw [hf.frames, hr] at hshow
  cases hshow with
  | cons hs hshow =>
    refine ⟨hshow, hs, ?_⟩
    cases hs with
    | script pc ha =>
      rw [hb] at ha
      cases ha
      cases status <;> rfl

theorem jumps_iff (hf : t.Fetches f fs op next) (hj : op.longJump? = some (status, n)) :
    Jumps localJumpError status t u ↔
      Yog.detectOrphan (f.target status) (.script f :: fs) = false ∧ ∃ vals,
        u = { t with
          frames := .script { f with pc := next } :: fs
          jmpVal := vals
          frameToLongJump := f.target status
          control := .jumping status } := by
  constructor
  · rintro ⟨id, pc, hstep⟩
    cases hstep with
    | longJump vals hf' hj' ho =>
      have hframes := hf.frames.symm.trans hf'.frames
      simp only [List.cons.injEq, Frame.script.injEq] at hframes
      obtain ⟨rfl, rfl⟩ := hframes
      have hfetch := hf.fetch.symm.trans hf'.fetch
      simp only [Option.some.injEq, Prod.mk.injEq] at hfetch
      obtain ⟨-, rfl⟩ := hfetch
      exact ⟨ho, vals, rfl⟩
  · rintro ⟨ho, vals, rfl⟩
    exact ⟨f.id, f.pc, .longJump vals hf hj ho⟩

/-- A jump to the lower part of the chain gets there. -/
theorem completes (hn : (chainAddresses s.current.frames).Nodup)
    (hshow : List.Forall₂ (Shows s.heap) t.frames s.current.frames)
    (hr : s.current.frames = .script a :: rest) (hb : s.heap a = some b)
    (hf : t.Fetches f fs op next) (hj : op.longJump? = some (status, n))
    (hsync : Sync t.frames t.jmpBufList) (hsafe : t.JumpSafe (f.target status))
    {pre frames : List FrameRef} {r : FrameRef} (hs : s.current.frames = pre ++ frames)
    (hpre : pre ≠ []) (hh : frames.head? = some r) (hc : r ≠ .c) (ht : b.target status = some r) :
    Completes localJumpError s.heap status t frames := by
  obtain ⟨hfs, htop, htarget⟩ := shows_top status hshow hr hb hf
  rw [ht] at htarget
  have hstatus := Op.longJump?_ne_raise hj
  rw [hs] at hn
  obtain ⟨x, pre, rfl⟩ := List.exists_cons_of_ne_nil hpre
  rw [hr, List.cons_append, List.cons.injEq] at hs
  obtain ⟨rfl, rfl⟩ := hs
  have habove := isTarget_above hn hh
  have hland : landing (some r) (pre ++ frames) = frames := by
    refine landing_above ?_ hh hc
    unfold chainAddresses at hn ⊢
    rw [List.cons_append, List.filterMap_cons] at hn
    exact (List.nodup_cons.1 hn).2
  have ho : Yog.detectOrphan (f.target status) (.script f :: fs) = false := by
    rw [htarget, shows_detectOrphan (some r) (.cons htop hfs)]
    exact detectOrphan_eq_false hc (List.mem_append_right _ (List.mem_of_mem_head? hh))
  have hjumped : ∀ vals, Thread.Jumped { t with
      frames := .script { f with pc := next } :: fs
      jmpVal := vals
      frameToLongJump := f.target status
      control := .jumping status } := fun vals => jumped_of_safe hf.frames hsync ho hsafe
  refine ⟨fun vals => ⟨_, (jumps_iff hf hj).2 ⟨ho, vals, rfl⟩, rfl⟩, fun u hu => ?_,
    fun u es v hu hrun hv => ?_⟩
  · obtain ⟨-, vals, rfl⟩ := (jumps_iff hf hj).1 hu
    exact (hjumped vals).exists_arrives hstatus rfl
  · obtain ⟨-, vals, rfl⟩ := (jumps_iff hf hj).1 hu
    obtain ⟨hframes, hval⟩ := (hjumped vals).arrived hstatus (Or.inl rfl) hrun hv
    have hnot : (Frame.script { f with pc := next }).isTarget (f.target status) = false := by
      show (Frame.script f).isTarget (f.target status) = false
      rw [htarget]
      exact (htop.isTarget (some r)).trans (habove _ List.mem_cons_self)
    have hfrom : v.frames = framesFrom (f.target status) fs := by
      rw [hframes]
      exact framesFrom_cons _ hnot
    refine ⟨?_, ?_, hval⟩
    · rw [hfrom, hf.frames]
      exact (List.dropWhile_suffix _).trans (List.suffix_cons _ _)
    · rw [hfrom, htarget, ← hland]
      exact shows_framesFrom (some r) hfs

/-- A jump to an object that is not on the chain is refused. -/
theorem refused (hshow : List.Forall₂ (Shows s.heap) t.frames s.current.frames)
    (hr : s.current.frames = .script a :: rest) (hb : s.heap a = some b)
    (hf : t.Fetches f fs op next) (hj : op.longJump? = some (status, n))
    (ht : ∀ r ∈ b.target status, r ∉ rest) : Refused localJumpError status t := by
  obtain ⟨hfs, htop, htarget⟩ := shows_top status hshow hr hb hf
  have ho : Yog.detectOrphan (f.target status) (.script f :: fs) = true := by
    rw [htarget, shows_detectOrphan _ (.cons htop hfs)]
    exact detectOrphan_eq_true ht
  refine ⟨fun u hu => ?_, _, _, .orphan hf hj ho, .raiseLocalJumpError rfl⟩
  have hfalse := ((jumps_iff hf hj).1 hu).1
  rw [ho] at hfalse
  cases hfalse

/-- In every run, where frames and buffers are in step and no comparison of keys or finish frame
without a native call is in the way, a jump out of a block does what is asked of it exactly when what
it completes is under way, or the object it stands on is not on the chain. -/
theorem jumpsRight_iff (hp : ∀ code, packages code → Compiled code)
    (h : Relation.ReflTransGen (Step packages) State.start s)
    (hr : s.current.frames = .script a :: rest) (hb : s.heap a = some b) (hk : b.act.kind = .block)
    (hh : status = .return_ → home (b.act :: b.enclosing) ≠ none)
    (hshow : List.Forall₂ (Shows s.heap) t.frames s.current.frames)
    (hf : t.Fetches f fs op next) (hj : op.longJump? = some (status, n))
    (hsync : Sync t.frames t.jmpBufList) (hsafe : t.JumpSafe (f.target status)) :
    JumpsRight localJumpError status s b t ↔
      (∃ frames, Pending s b status frames) ∨ ∀ r ∈ origin b status, r ∉ rest := by
  have hinv := inv_of_compiled hp h
  obtain ⟨-, hright'⟩ := hinv.top hr hb
  have htarget := target_eq_origin (s := s) hright' hk hh
  constructor
  · intro hright
    by_contra hcond
    rw [not_or] at hcond
    obtain ⟨hpending, horigin⟩ := hcond
    push Not at horigin
    obtain ⟨r, hr', hmem⟩ := horigin
    have hrefused := hright.lost hpending
    have hc := hinv.origin_ne_c hright' r hr'
    obtain ⟨hfs, htop, ht⟩ := shows_top status hshow hr hb hf
    have ho : Yog.detectOrphan (f.target status) (.script f :: fs) = false := by
      rw [ht, htarget, Option.mem_def.1 hr', shows_detectOrphan (some r) (.cons htop hfs)]
      exact detectOrphan_eq_false hc hmem
    exact hrefused.jumps _ ((jumps_iff hf hj).2 ⟨ho, t.jmpVal, rfl⟩)
  · intro hcond
    refine ⟨fun frames hpending => ?_, fun hpending => ?_⟩
    · obtain ⟨pre, r, hs, hpre, hhead, hc, horigin⟩ := hinv.pending hpending
      exact completes hinv.nodup_current hshow hr hb hf hj hsync hsafe hs hpre hhead hc
        (htarget.trans horigin)
    · rcases hcond with hpend | horigin
      · exact absurd hpend hpending
      · exact refused hshow hr hb hf hj (by rw [htarget]; exact horigin)

end Jump

/-! A block with a `break` is passed to a native function, which calls it, or keeps it for another
native function to call later. -/

/-- `a() do break end`, `c()`. -/
def keptBlockStmts : List Stmt :=
  [.expr (.funcCall 1 (.variable 1 3) (.mk [] [] none none none) (some (.mk 1 [] [.break_ 1 []]))),
    .expr (.funcCall 2 (.variable 2 4) (.mk [] [] none none none) none)]

/-- The code is that of `keptBlockStmts`. -/
def IsKeptBlock (code block : Code) : Prop :=
  fetch code.fields.insts 0 = some (.pushConst 0, 9) ∧
  fetch code.fields.insts 9 = some (.makeBlock, 10) ∧
  fetch code.fields.insts 10 = some (.loadLocalName 3, 19) ∧
  fetch code.fields.insts 19 = some (.callFunction 0 0 0 0 1 0 0 0, 28) ∧
  fetch code.fields.insts 28 = some (.loadLocalName 4, 37) ∧
  fetch code.fields.insts 37 = some (.callFunction 0 0 0 0 0 0 0 0, 46) ∧
  fetch block.fields.insts 0 = some (.longBreak 0, 2)

instance (code block : Code) : Decidable (IsKeptBlock code block) :=
  inferInstanceAs (Decidable (_ ∧ _))

theorem exists_keptBlock : ∃ code block,
    compilePackage .sample 6 "a.yog" keptBlockStmts false = .ok code ∧
    .code block ∈ code.fields.consts ∧ IsKeptBlock code block := by
  obtain ⟨code, hcode, h⟩ := Except.exists_of_any
    (x := compilePackage .sample 6 "a.yog" keptBlockStmts false)
    (p := fun code => code.anyBody fun block => IsKeptBlock code block) (by decide +kernel)
  obtain ⟨block, hmem, h⟩ := Code.exists_of_anyBody h
  exact ⟨code, block, hcode, hmem, of_decide_eq_true h⟩

section Kept

variable (code block : Code)

/-- The control stack: the package is at `pc`, in a native function that has called the block. -/
def blockThread (pc : Nat) : Yog.Thread Unit where
  frames :=
    [.script ⟨8, block, 0, some 5, some 4⟩, .finish 5, .c 0, .script ⟨4, code, pc, none, none⟩,
      .finish 1]
  jmpBufList := [.mainloop 4, .mainloop 1, .main]
  jmpVal := ()
  frameToLongJump := none
  control := .running

/-- The control stack in the package. -/
def packageThread (pc : Nat) : Yog.Thread Unit where
  frames := [.script ⟨4, code, pc, none, none⟩, .finish 1]
  jmpBufList := [.mainloop 1, .main]
  jmpVal := ()
  frameToLongJump := none
  control := .running

/-- The block. -/
def keptBlock : Function where
  code := block
  isBlock := true
  outerFrame := .script 1
  frameToLongReturn := none
  frameToLongBreak := some (.script 1)
  scopes := [⟨0, 1, .finish 0, .names⟩]
  passedTo := some 1

/-- The package has made the block and passed it to `a`. -/
def passedState : State :=
  ((((State.start.pushFinishFrame.execNames code []).makeBlock 1
    (namesFrame code [] 0 (.finish 0) 1 (depth code)) block).pass (some 0)).push .c)

/-- A native function calls the block. -/
def callBlock (s : State) : State := s.pushFinishFrame.exec (keptBlock block)

variable {code block}

theorem passedState_run (hmem : .code block ∈ code.fields.consts) :
    Relation.ReflTransGen (Step (· = code)) State.start (passedState code block) :=
  (((Relation.ReflTransGen.refl.tail .pushFinish).tail
    (.evalPackage (s := State.start.pushFinishFrame) rfl rfl)).tail
    (.makeBlock (s := State.start.pushFinishFrame.execNames code []) (a := 1) rfl rfl hmem)).tail
    (.execNative (some 0))

theorem packageThread_run (h : IsKeptBlock code block) : ∃ es,
    Run (Only Thread.Allowed (Yog.Step fun _ => ())) (.start () true) es (packageThread code 19) := by
  obtain ⟨h₀, h₁, h₂, -⟩ := h
  have hloop : ∀ pc, (packageThread code pc).InLoop := by
    rintro pc b ⟨⟩
    rfl
  refine ⟨[.native, .native, .exec 4 0, .exec 4 9, .exec 4 10], ?_⟩
  refine .cons ⟨trivial, .nativePushFinish 1 rfl (by rintro f ⟨⟩)⟩ ?_
  refine .cons ⟨trivial, .mainloop ⟨4, code, 0, none, none⟩ rfl rfl rfl⟩ ?_
  refine .cons (t := packageThread code 9)
    ⟨trivial, .exec (t := packageThread code 0) ⟨rfl, rfl, hloop 0, h₀⟩ rfl (Or.inl rfl)⟩ ?_
  refine .cons (t := packageThread code 10)
    ⟨trivial, .exec (t := packageThread code 9) ⟨rfl, rfl, hloop 9, h₁⟩ rfl (Or.inl rfl)⟩ ?_
  exact .single
    ⟨trivial, .exec (t := packageThread code 10) ⟨rfl, rfl, hloop 10, h₂⟩ rfl (Or.inl rfl)⟩

/-- The calls of a native function by the package, and of the block by it. -/
theorem blockThread_run {pc next : Nat} {op : Op Nat}
    (hfetch : fetch code.fields.insts pc = some (op, next)) (hop : op.stays = true) :
    ∃ es, Run (Only Thread.Allowed (Yog.Step fun _ => ())) (packageThread code pc) es
      (blockThread code block next) := by
  have hloop : (packageThread code pc).InLoop := by
    rintro b ⟨⟩
    rfl
  refine ⟨[.exec 4 pc, .native, .native], ?_⟩
  refine .cons ⟨trivial, .callNative (t := packageThread code pc) 0 ⟨rfl, rfl, hloop, hfetch⟩ hop⟩ ?_
  refine .cons ⟨trivial, .nativePushFinish 5 rfl (by rintro f ⟨⟩; rfl)⟩ ?_
  exact .single ⟨trivial, .mainloop ⟨8, block, 0, some 5, some 4⟩ rfl rfl rfl⟩

/-- The package goes from its first call to the second. -/
theorem secondCall_run (h : IsKeptBlock code block) : ∃ es,
    Run (Only Thread.Allowed (Yog.Step fun _ => ())) (packageThread code 19) es
      (packageThread code 37) := by
  obtain ⟨-, -, -, h₃, h₄, -⟩ := h
  have hloop : ∀ pc, (packageThread code pc).InLoop := by
    rintro pc b ⟨⟩
    rfl
  refine ⟨[.exec 4 19, .native, .exec 4 28], ?_⟩
  refine .cons
    ⟨trivial, .callNative (t := packageThread code 19) 0 ⟨rfl, rfl, hloop 19, h₃⟩ rfl⟩ ?_
  refine .cons (t := packageThread code 28) ⟨trivial, .nativeReturn rfl (show _ = Frame.c 0 :: _ from rfl) ?_⟩ ?_
  · rintro b ⟨⟩ hb
    cases hb
  · exact .single
      ⟨trivial, .exec (t := packageThread code 28) ⟨rfl, rfl, hloop 28, h₄⟩ rfl (Or.inl rfl)⟩

theorem callBlock_run {packages : Code → Prop} {s : State} {rest : List FrameRef}
    (hs : Relation.ReflTransGen (Step packages) State.start s) (hc : s.current.frames = .c :: rest)
    (hk : s.current.finishFrames = []) (hm : keptBlock block ∈ s.functions) :
    Relation.ReflTransGen (Step packages) State.start (callBlock block s) := by
  have hframes : s.pushFinishFrame.current.frames = .finish s.next :: .c :: rest := by
    rw [State.pushFinishFrame, hk]
    show FrameRef.finish s.next :: s.current.frames = _
    rw [hc]
  refine (hs.tail .pushFinish).tail (.exec none hframes (by simp) ?_)
  rw [State.pushFinishFrame, hk]
  exact hm

theorem blockThread_safe {pc : Nat} : (blockThread code block pc).JumpSafe (some 4) := by
  refine ⟨fun d hd => ?_, rfl⟩
  simp [blockThread] at hd

end Kept

/-- What the package's frame is after so many calls. -/
def packageFrame (code : Code) (calls : Nat) : FrameObj :=
  { namesFrame code [] 0 (.finish 0) 1 (depth code) with usedByFunc := true, calls }

/-- The first native function has called the block: the `break` completes its call. -/
theorem jumpsRight_passed : ∃ code block s t,
    compilePackage .sample 6 "a.yog" keptBlockStmts false = .ok code ∧
    .code block ∈ code.fields.consts ∧
    Relation.ReflTransGen (Step (· = code)) State.start s ∧
    (∃ es, Run (Only Thread.Allowed (Yog.Step fun _ => ())) (.start () true) es t) ∧
    List.Forall₂ (Shows s.heap) t.frames s.current.frames ∧
    ∃ b, s.heap 3 = some b ∧ JumpsRight (fun _ => ()) .break_ s b t := by
  obtain ⟨code, block, hcode, hmem, hkept⟩ := exists_keptBlock
  have hp : ∀ c, c = code → Compiled c := by
    rintro _ rfl
    exact ⟨_, _, _, _, _, hcode⟩
  have hs := callBlock_run (passedState_run hmem) rfl rfl (List.mem_singleton.2 rfl)
  obtain ⟨es₁, hrun₁⟩ := packageThread_run hkept
  obtain ⟨es₂, hrun₂⟩ := blockThread_run hkept.2.2.2.1 rfl
  have hrun := hrun₁.append hrun₂
  let s := callBlock block (passedState code block)
  let t := blockThread code block 28
  let b := (keptBlock block).frame (passedState code block).pushFinishFrame.heap 1 (.finish 2) 3
    (depth block)
  have hshow : List.Forall₂ (Shows s.heap) t.frames s.current.frames :=
    .cons (.script (a := 3) (f := b) 0 rfl) (.cons (.finish 2) (.cons (.c 0)
      (.cons (.script (a := 1) (f := packageFrame code 1) 28 rfl) (.cons (.finish 0) .nil))))
  have hsync : Sync t.frames t.jmpBufList := (inStep_running rfl).1 (inStep_of_run hrun)
  have hfetches : t.Fetches ⟨8, block, 0, some 5, some 4⟩ t.frames.tail (.longBreak 0) 2 := by
    refine ⟨rfl, rfl, ?_, hkept.2.2.2.2.2.2⟩
    rintro _ ⟨⟩
    rfl
  refine ⟨code, block, s, t, hcode, hmem, hs, ⟨_, hrun⟩, hshow, b, rfl,
    (jumpsRight_iff hp hs (a := 3) rfl rfl rfl (by simp) hshow hfetches rfl hsync
      blockThread_safe).2 (Or.inl ⟨[.script 1, .finish 0], ?_⟩)⟩
  exact .break_ (show ([.script 3, .finish 2, .c] : List FrameRef) ≠ [] by simp) rfl rfl rfl rfl

/-- The first native function has returned, and the second one has called the block: the `break`
completes the second call. -/
theorem not_jumpsRight_kept : ∃ code block s t,
    compilePackage .sample 6 "a.yog" keptBlockStmts false = .ok code ∧
    .code block ∈ code.fields.consts ∧
    Relation.ReflTransGen (Step (· = code)) State.start s ∧
    (∃ es, Run (Only Thread.Allowed (Yog.Step fun _ => ())) (.start () true) es t) ∧
    List.Forall₂ (Shows s.heap) t.frames s.current.frames ∧
    ∃ b, s.heap 3 = some b ∧ ¬JumpsRight (fun _ => ()) .break_ s b t := by
  obtain ⟨code, block, hcode, hmem, hkept⟩ := exists_keptBlock
  let s₁ := ((passedState code block).cut [.script 1, .finish 0]).push .c
  have hs₁ : Relation.ReflTransGen (Step (· = code)) State.start s₁ :=
    ((passedState_run hmem).tail (.nativeReturn rfl)).tail (.execNative none)
  have hs := callBlock_run hs₁ rfl rfl (List.mem_singleton.2 rfl)
  obtain ⟨es₁, hrun₁⟩ := packageThread_run hkept
  obtain ⟨es₂, hrun₂⟩ := secondCall_run hkept
  obtain ⟨es₃, hrun₃⟩ := blockThread_run hkept.2.2.2.2.2.1 rfl
  let s := callBlock block s₁
  let t := blockThread code block 46
  let b := (keptBlock block).frame s₁.pushFinishFrame.heap 1 (.finish 2) 3 (depth block)
  have hshow : List.Forall₂ (Shows s.heap) t.frames s.current.frames :=
    .cons (.script (a := 3) (f := b) 0 rfl) (.cons (.finish 2) (.cons (.c 0)
      (.cons (.script (a := 1) (f := packageFrame code 2) 46 rfl) (.cons (.finish 0) .nil))))
  have hfetches : t.Fetches ⟨8, block, 0, some 5, some 4⟩ t.frames.tail (.longBreak 0) 2 := by
    refine ⟨rfl, rfl, ?_, hkept.2.2.2.2.2.2⟩
    rintro _ ⟨⟩
    rfl
  refine ⟨code, block, s, t, hcode, hmem, hs, ⟨_, (hrun₁.append hrun₂).append hrun₃⟩, hshow, b, rfl,
    fun hright => ?_⟩
  have hlost : ¬∃ frames, Pending s b .break_ frames := by
    rintro ⟨frames, hp⟩
    cases hp with
    | @break_ pre rest a f hne hframes hf henc hpassed =>
      have hall : s.current.frames = [.script 3, .finish 2, .c, .script 1, .finish 0] := rfl
      have hmem : FrameRef.script a ∈ s.current.frames := by
        rw [hframes]
        simp
      rw [hall] at hmem
      have ha : a = 3 ∨ a = 1 := by simpa using hmem
      rcases ha with rfl | rfl
      · cases hf
        cases henc
      · cases hf
        cases hpassed
  exact (hright.lost hlost).jumps _ ((jumps_iff hfetches rfl).2 ⟨rfl, (), rfl⟩)

end Yog.Vm
