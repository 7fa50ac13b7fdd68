import Yog.ScopedFile
import Mathlib.Data.List.Count

/-!
# What is held for a block is released

Where the first attempt to release succeeds it is the only one, and the jump goes on with the list
as it was. An attempt that fails raises while the buffer of the function is on the list, so that the
function releases again.
-/

namespace Yog.ScopedFile

variable {V : Type}

inductive Outcome (V : Type)
  | value (v : V)
  | raise (exc : V)
  | longReturn (vals : V) (target : Option ℕ)
  | longBreak (vals : V) (target : Option ℕ)

namespace Outcome

def andThen (o : Outcome V) (k : V → Outcome V) : Outcome V :=
  match o with
  | .value v => k v
  | o => o

def handle (o : Outcome V) (handler : V → Outcome V) : Outcome V :=
  match o with
  | .raise exc => handler exc
  | o => o

/-- A jump to the frame comes to its values. -/
def arrive (frame : ℕ) (o : Outcome V) : Outcome V :=
  match o with
  | .longReturn vals target => if target = some frame then .value vals else .longReturn vals target
  | .longBreak vals target => if target = some frame then .value vals else .longBreak vals target
  | o => o

/-- What follows a value, and what follows an exception. -/
def onValue {α : Type} (o : Outcome V) (k : V → List α) : List α :=
  match o with
  | .value v => k v
  | _ => []

def onRaise {α : Type} (o : Outcome V) (k : V → List α) : List α :=
  match o with
  | .raise exc => k exc
  | _ => []

end Outcome

section Blocks

variable (sysErr : ℤ → Option V → V)

/-- A block with a release after each of the calls, which is made once; its exception takes the
place of the outcome. -/
def Block.meaning : Block V → Outcome V
  | .value v => .value v
  | .raise exc => .raise exc
  | .longReturn vals target => .longReturn vals target
  | .longBreak vals target => .longBreak vals target
  | .rescue body handler next =>
    (body.meaning.handle fun exc => (handler exc).meaning).andThen fun v => (next v).meaning
  | .call frame body next => (body.meaning.arrive frame).andThen fun v => (next v).meaning
  | .guarded path acquired released body next =>
    match acquired with
    | some errno => .raise (sysErr errno path)
    | none =>
      match released 0 with
      | some errno => .raise (sysErr errno none)
      | none => body.meaning.andThen fun v => (next v).meaning

/-- The answers to the attempts to release, one for each of the calls that are made. -/
def Block.releases : Block V → List (Option ℤ)
  | .value _ | .raise _ | .longReturn .. | .longBreak .. => []
  | .rescue body handler next =>
    body.releases ++ ((body.meaning sysErr).onRaise (fun exc => (handler exc).releases) ++
      ((body.meaning sysErr).handle fun exc => (handler exc).meaning sysErr).onValue
        fun v => (next v).releases)
  | .call frame body next =>
    body.releases ++ ((body.meaning sysErr).arrive frame).onValue fun v => (next v).releases
  | .guarded _ acquired released body next =>
    match acquired with
    | some _ => []
    | none => body.releases ++ (released 0 :: (body.meaning sysErr).onValue
        fun v => (next v).releases)

end Blocks

/-- What a run adds to the log: what was acquired is released once. -/
structure Tidy (env env' : Env V) (new : List Event) : Prop where
  bufs : env'.jmpBufList = env.jmpBufList
  log : env'.log = env.log ++ new
  fresh : env.fresh ≤ env'.fresh
  acquired : ∀ id, .acquire id ∈ new → env.fresh ≤ id ∧ id < env'.fresh
  released : ∀ id, .release id ∈ new → env.fresh ≤ id ∧ id < env'.fresh
  once : ∀ id, .acquire id ∈ new → new.count (.release id) = 1

theorem Tidy.refl (env : Env V) : Tidy env env [] := by
  constructor <;> simp

/-- The values of a jump are not looked at. -/
theorem Tidy.of_eq {env env' : Env V} (hb : env'.jmpBufList = env.jmpBufList)
    (hl : env'.log = env.log) (hf : env'.fresh = env.fresh) : Tidy env env' [] := by
  constructor <;> simp [hb, hl, hf]

theorem Tidy.trans {env₁ env₂ env₃ : Env V} {new new' : List Event} (h : Tidy env₁ env₂ new)
    (h' : Tidy env₂ env₃ new') : Tidy env₁ env₃ (new ++ new') where
  bufs := h'.bufs.trans h.bufs
  log := by rw [h'.log, h.log, List.append_assoc]
  fresh := h.fresh.trans h'.fresh
  acquired id hid := by
    rcases List.mem_append.1 hid with hid | hid
    · exact ⟨(h.acquired id hid).1, (h.acquired id hid).2.trans_le h'.fresh⟩
    · exact ⟨h.fresh.trans (h'.acquired id hid).1, (h'.acquired id hid).2⟩
  released id hid := by
    rcases List.mem_append.1 hid with hid | hid
    · exact ⟨(h.released id hid).1, (h.released id hid).2.trans_le h'.fresh⟩
    · exact ⟨h.fresh.trans (h'.released id hid).1, (h'.released id hid).2⟩
  once id hid := by
    rw [List.count_append]
    rcases List.mem_append.1 hid with hid | hid
    · have hnone : new'.count (.release id) = 0 :=
        List.count_eq_zero.2 fun hmem => by
          have h₁ := (h.acquired id hid).2
          have h₂ := (h'.released id hmem).1
          omega
      rw [h.once id hid, hnone]
    · have hnone : new.count (.release id) = 0 :=
        List.count_eq_zero.2 fun hmem => by
          have h₁ := (h'.acquired id hid).1
          have h₂ := (h.released id hmem).2
          omega
      rw [h'.once id hid, hnone]

/-- What is acquired is released behind what is done in between. -/
theorem Tidy.guarded {env env' : Env V} {new : List Event}
    (h : Tidy (env.write (.acquire env.fresh)).pushJmpbuf env' new) :
    Tidy env (env'.write (.release env.fresh)).popJmpbuf
      (.acquire env.fresh :: (new ++ [.release env.fresh])) where
  bufs := by
    show env'.jmpBufList.tail = _
    rw [h.bufs]
    rfl
  log := by
    show env'.log ++ _ = _
    rw [h.log]
    simp [Env.write, Env.pushJmpbuf]
  fresh := (Nat.le_succ _).trans h.fresh
  acquired id hid := by
    have hfresh : env.fresh + 1 ≤ env'.fresh := h.fresh
    rcases List.mem_cons.1 hid with heq | hid
    · obtain rfl := Event.acquire.inj heq
      exact ⟨le_rfl, hfresh⟩
    · have hid : .acquire id ∈ new := by simpa using hid
      exact ⟨(Nat.le_succ _).trans (h.acquired id hid).1, (h.acquired id hid).2⟩
  released id hid := by
    have hfresh : env.fresh + 1 ≤ env'.fresh := h.fresh
    have hid : .release id ∈ new ∨ id = env.fresh := by simpa using hid
    rcases hid with hid | rfl
    · exact ⟨(Nat.le_succ _).trans (h.released id hid).1, (h.released id hid).2⟩
    · exact ⟨le_rfl, hfresh⟩
  once id hid := by
    rw [List.count_cons_of_ne (by simp), List.count_append]
    rcases List.mem_cons.1 hid with heq | hid
    · obtain rfl := Event.acquire.inj heq
      have hnone : new.count (.release env.fresh) = 0 :=
        List.count_eq_zero.2 fun hmem => by
          have hle : env.fresh + 1 ≤ env.fresh := (h.released _ hmem).1
          omega
      rw [hnone]
      simp
    · have hid : .acquire id ∈ new := by simpa using hid
      have hle : env.fresh + 1 ≤ id := (h.acquired id hid).1
      have hne : Event.release env.fresh ≠ .release id := by
        intro heq
        have := Event.release.inj heq
        omega
      rw [h.once id hid, List.count_singleton]
      simp [hne]

/-- What a function comes to is the outcome. -/
def Agrees (o : Outcome V) (res : Except JmpStatus V) (env : Env V) : Prop :=
  match o with
  | .value v => res = .ok v
  | .raise exc => res = .error .raise ∧ env.jmpVal = exc
  | .longReturn vals target =>
    res = .error .return_ ∧ env.jmpVal = vals ∧ env.frameToLongJump = target
  | .longBreak vals target =>
    res = .error .break_ ∧ env.jmpVal = vals ∧ env.frameToLongJump = target

/-- The run ends with the outcome, with the list as it was and one attempt for each call. -/
def Good (env : Env V) (o : Outcome V) (r : Run V) : Prop :=
  ∃ res env' new, r = some (res, env') ∧ Tidy env env' new ∧ Agrees o res env'

section Good

variable {env env' : Env V} {o : Outcome V} {r : Run V} {b : ℕ}

theorem Good.trans {new : List Event} (h : Tidy env env' new) (h' : Good env' o r) :
    Good env o r := by
  obtain ⟨res, env'', new', hr, htidy, hagree⟩ := h'
  exact ⟨res, env'', _, hr, h.trans htidy, hagree⟩

theorem Good.andThen {k : V → Env V → Run V} {k' : V → Outcome V} (h : Good env o r)
    (hk : ∀ v env', o = .value v → env'.jmpBufList = env.jmpBufList →
      Good env' (k' v) (k v env')) : Good env (o.andThen k') (r.andThen k) := by
  obtain ⟨res, env', new, rfl, htidy, hagree⟩ := h
  rcases o with v | exc | ⟨vals, target⟩ | ⟨vals, target⟩
  · obtain rfl : res = .ok v := hagree
    exact .trans htidy (hk v env' rfl htidy.bufs)
  · obtain ⟨rfl, hexc⟩ := hagree
    exact ⟨_, env', new, rfl, htidy, rfl, hexc⟩
  · obtain ⟨rfl, hvals⟩ := hagree
    exact ⟨_, env', new, rfl, htidy, rfl, hvals⟩
  · obtain ⟨rfl, hvals⟩ := hagree
    exact ⟨_, env', new, rfl, htidy, rfl, hvals⟩

theorem setjmp_top (hb : env.jmpBufList.head? = some b) (status : JmpStatus)
    (landed : JmpStatus → Env V → Run V) :
    setjmp b (some (.error status, env)) landed = landed status env := if_pos hb

theorem Good.handle {handler : V → Env V → Run V} {handler' : V → Outcome V}
    (hb : env.jmpBufList.head? = some b) (h : Good env o r)
    (hh : ∀ exc env', o = .raise exc → env'.jmpBufList = env.jmpBufList →
      Good env' (handler' exc) (handler exc env')) :
    Good env (o.handle handler') (handle b r handler) := by
  obtain ⟨res, env', new, rfl, htidy, hagree⟩ := h
  have hb' : env'.jmpBufList.head? = some b := by rw [htidy.bufs, hb]
  unfold ScopedFile.handle
  rcases o with v | exc | ⟨vals, target⟩ | ⟨vals, target⟩
  · obtain rfl : res = .ok v := hagree
    exact ⟨_, env', new, rfl, htidy, rfl⟩
  · obtain ⟨rfl, rfl⟩ := hagree
    rw [setjmp_top hb', if_pos rfl]
    exact .trans htidy (hh _ env' rfl htidy.bufs)
  · obtain ⟨rfl, hvals⟩ := hagree
    rw [setjmp_top hb', if_neg (by simp)]
    exact ⟨_, env', new, rfl, htidy, rfl, hvals⟩
  · obtain ⟨rfl, hvals⟩ := hagree
    rw [setjmp_top hb', if_neg (by simp)]
    exact ⟨_, env', new, rfl, htidy, rfl, hvals⟩

theorem arrive_jump (hb : env.jmpBufList.head? = some b) (frame : ℕ) {status : JmpStatus}
    (h : status ≠ .raise) : arrive b frame (some (.error status, env)) =
      if env.frameToLongJump = some frame then some (.ok env.jmpVal, env)
      else some (.error status, env) := by
  rw [arrive, setjmp_top hb]
  simp [h]

theorem Good.arrive (frame : ℕ) (hb : env.jmpBufList.head? = some b) (h : Good env o r) :
    Good env (o.arrive frame) (arrive b frame r) := by
  obtain ⟨res, env', new, rfl, htidy, hagree⟩ := h
  have hb' : env'.jmpBufList.head? = some b := by rw [htidy.bufs, hb]
  rcases o with v | exc | ⟨vals, target⟩ | ⟨vals, target⟩
  · obtain rfl : res = .ok v := hagree
    exact ⟨_, env', new, rfl, htidy, rfl⟩
  · obtain ⟨rfl, hexc⟩ := hagree
    rw [ScopedFile.arrive, setjmp_top hb', if_neg (by simp)]
    exact ⟨_, env', new, rfl, htidy, rfl, hexc⟩
  · obtain ⟨rfl, rfl, rfl⟩ := hagree
    rw [arrive_jump hb' frame (by simp), Outcome.arrive]
    split_ifs
    · exact ⟨_, env', new, rfl, htidy, rfl⟩
    · exact ⟨_, env', new, rfl, htidy, rfl, rfl, rfl⟩
  · obtain ⟨rfl, rfl, rfl⟩ := hagree
    rw [arrive_jump hb' frame (by simp), Outcome.arrive]
    split_ifs
    · exact ⟨_, env', new, rfl, htidy, rfl⟩
    · exact ⟨_, env', new, rfl, htidy, rfl, rfl, rfl⟩

theorem Tidy.pop {new : List Event} (h : Tidy env.pushJmpbuf env' new) :
    Tidy env env'.popJmpbuf new where
  bufs := by
    show env'.jmpBufList.tail = _
    rw [h.bufs]
    rfl
  log := h.log
  fresh := (Nat.le_succ _).trans h.fresh
  acquired id hid := ⟨(Nat.le_succ _).trans (h.acquired id hid).1, (h.acquired id hid).2⟩
  released id hid := ⟨(Nat.le_succ _).trans (h.released id hid).1, (h.released id hid).2⟩
  once := h.once

theorem Good.mainloop {loop : ℕ → Env V → Run V}
    (h : Good env.pushJmpbuf o (loop env.fresh env.pushJmpbuf)) :
    Good env o (mainloop loop env) := by
  obtain ⟨res, env', new, heq, htidy, hagree⟩ := h
  have hb : env'.jmpBufList.head? = some env.fresh := by rw [htidy.bufs]; rfl
  refine ⟨res, env'.popJmpbuf, new, ?_, htidy.pop, by rcases o <;> exact hagree⟩
  unfold ScopedFile.mainloop
  rw [heq]
  rcases res with status | v
  · exact setjmp_top hb status _
  · rfl

theorem Good.guarded {sysErr : ℤ → Option V → V} {fuel : ℕ} (hfuel : fuel ≠ 0) {path : Option V}
    {released : ℕ → Option ℤ} (hrel : released 0 = none) {block : Env V → Run V}
    (h : Good (env.write (.acquire env.fresh)).pushJmpbuf o
      (block (env.write (.acquire env.fresh)).pushJmpbuf)) :
    Good env o (guarded sysErr fuel path none released block env) := by
  obtain ⟨res, env', new, heq, htidy, hagree⟩ := h
  have hb : env'.jmpBufList.head? = some env.fresh := by rw [htidy.bufs]; rfl
  obtain ⟨fuel, rfl⟩ := Nat.exists_eq_succ_of_ne_zero hfuel
  refine ⟨res, (env'.write (.release env.fresh)).popJmpbuf, _, ?_, htidy.guarded,
    by rcases o <;> exact hagree⟩
  unfold ScopedFile.guarded
  rcases res with status | v
  · simp only [heq, if_pos hb, landed, doUnlock, hrel]
  · simp only [heq, doUnlock, hrel]

end Good

theorem exec_good (sysErr : ℤ → Option V → V) {fuel : ℕ} (hfuel : fuel ≠ 0) (p : Block V) :
    ∀ {b : ℕ} {env : Env V}, env.jmpBufList.head? = some b →
      (∀ r ∈ p.releases sysErr, r = none) →
      Good env (p.meaning sysErr) (exec sysErr fuel p b env) := by
  induction p with
  | value v => exact fun _ _ => ⟨_, _, [], rfl, .refl _, rfl⟩
  | raise exc => exact fun _ _ => ⟨_, _, [], rfl, .of_eq rfl rfl rfl, rfl, rfl⟩
  | longReturn vals target => exact fun _ _ => ⟨_, _, [], rfl, .of_eq rfl rfl rfl, rfl, rfl, rfl⟩
  | longBreak vals target => exact fun _ _ => ⟨_, _, [], rfl, .of_eq rfl rfl rfl, rfl, rfl, rfl⟩
  | rescue body handler next ihb ihh ihn =>
    intro b env hb hclean
    simp only [Block.releases, List.mem_append, or_imp, forall_and] at hclean
    obtain ⟨hbody, hhandler, hnext⟩ := hclean
    refine .andThen (.handle hb (ihb hb hbody) fun exc env' ho henv => ?_)
      fun v env' ho henv => ?_
    · rw [ho] at hhandler
      exact ihh exc (by rw [henv, hb]) hhandler
    · rw [ho] at hnext
      exact ihn v (by rw [henv, hb]) hnext
  | call frame body next ihb ihn =>
    intro b env hb hclean
    simp only [Block.releases, List.mem_append, or_imp, forall_and] at hclean
    obtain ⟨hbody, hnext⟩ := hclean
    refine .andThen (.arrive frame hb (ihb hb hbody)) fun v env' ho henv => ?_
    rw [ho] at hnext
    exact ihn v (by rw [henv, hb]) hnext
  | guarded path acquired released body next ihb ihn =>
    intro b env hb hclean
    have hpath : exec sysErr fuel (.guarded path acquired released body next) b env =
        (guarded sysErr fuel path acquired released
          (mainloop fun b env => exec sysErr fuel body b env) env).andThen
            fun v env => exec sysErr fuel (next v) b env := by
      rcases path with _ | path <;> rfl
    rw [hpath]
    rcases acquired with _ | errno
    · simp only [Block.releases, List.mem_append, List.mem_cons, or_imp, forall_and,
        forall_eq] at hclean
      obtain ⟨hbody, hrel, hnext⟩ := hclean
      have hmeaning : (Block.guarded path none released body next).meaning sysErr =
          (body.meaning sysErr).andThen fun v => (next v).meaning sysErr := by
        simp [Block.meaning, hrel]
      rw [hmeaning]
      refine .andThen (.guarded hfuel hrel (.mainloop (ihb rfl hbody))) fun v env' ho henv => ?_
      rw [ho] at hnext
      exact ihn v (by rw [henv, hb]) hnext
    · exact ⟨_, _, [], rfl, .of_eq rfl rfl rfl, rfl, rfl⟩

/-- The log is only added to. -/
def Grows (env : Env V) (r : Run V) : Prop :=
  ∀ res env', r = some (res, env') → env.log <+: env'.log

/-- If the run ends, something was released twice. -/
def Bad (env : Env V) (r : Run V) : Prop :=
  ∀ res env', r = some (res, env') →
    ∃ new id, env'.log = env.log ++ new ∧ .acquire id ∈ new ∧ 2 ≤ new.count (.release id)

section Bad

variable {env env' : Env V} {o : Outcome V} {r : Run V} {b : ℕ}

theorem grows_some {res : Except JmpStatus V} (h : env.log <+: env'.log) :
    Grows env (some (res, env')) := by
  rintro _ _ ⟨⟩
  exact h

theorem Grows.of_isPrefix (h : Grows env' r) (hpre : env.log <+: env'.log) : Grows env r :=
  fun res env'' hr => hpre.trans (h res env'' hr)

theorem Grows.andThen {k : V → Env V → Run V} (h : Grows env r)
    (hk : ∀ v env', Grows env' (k v env')) : Grows env (r.andThen k) := by
  rcases r with _ | ⟨status | v, env'⟩
  · exact nofun
  · exact h
  · exact (hk v env').of_isPrefix (h _ _ rfl)

theorem Grows.setjmp {landed : JmpStatus → Env V → Run V} (h : Grows env r)
    (hl : ∀ status env', Grows env' (landed status env')) : Grows env (setjmp b r landed) := by
  rcases r with _ | ⟨status | v, env'⟩
  · exact nofun
  · unfold ScopedFile.setjmp
    dsimp only
    split_ifs
    · exact (hl status env').of_isPrefix (h _ _ rfl)
    · exact h
  · exact h

theorem Bad.of_isPrefix (h : Bad env' r) (hpre : env.log <+: env'.log) : Bad env r := by
  intro res env'' hr
  obtain ⟨new, id, hlog, hacq, hrel⟩ := h res env'' hr
  obtain ⟨old, hold⟩ := hpre
  refine ⟨old ++ new, id, by rw [hlog, ← hold, List.append_assoc], List.mem_append_right _ hacq, ?_⟩
  rw [List.count_append]
  omega

/-- What was released twice stays so. -/
theorem Bad.grows {res : Except JmpStatus V} {r' : Run V} (h : Bad env (some (res, env')))
    (h' : Grows env' r') : Bad env r' := by
  intro res' env'' hr
  obtain ⟨new, id, hlog, hacq, hrel⟩ := h res env' rfl
  obtain ⟨more, hmore⟩ := h' res' env'' hr
  refine ⟨new ++ more, id, by rw [← hmore, hlog, List.append_assoc],
    List.mem_append_left _ hacq, ?_⟩
  rw [List.count_append]
  omega

theorem Bad.andThen {k : V → Env V → Run V} (h : Bad env r)
    (hk : ∀ v env', Grows env' (k v env')) : Bad env (r.andThen k) := by
  rcases r with _ | ⟨status | v, env'⟩
  · exact nofun
  · exact h
  · exact h.grows (hk v env')

theorem Bad.setjmp {landed : JmpStatus → Env V → Run V} (h : Bad env r)
    (hl : ∀ status env', Grows env' (landed status env')) : Bad env (setjmp b r landed) := by
  rcases r with _ | ⟨status | v, env'⟩
  · exact nofun
  · unfold ScopedFile.setjmp
    dsimp only
    split_ifs
    · exact h.grows (hl status env')
    · exact h
  · exact h

theorem Grows.mainloop {loop : ℕ → Env V → Run V}
    (h : Grows env.pushJmpbuf (loop env.fresh env.pushJmpbuf)) : Grows env (mainloop loop env) :=
  Grows.setjmp (Grows.andThen (h.of_isPrefix List.prefix_rfl)
    fun _ _ => grows_some List.prefix_rfl) fun _ _ => grows_some List.prefix_rfl

theorem Bad.mainloop {loop : ℕ → Env V → Run V}
    (h : Bad env.pushJmpbuf (loop env.fresh env.pushJmpbuf)) : Bad env (mainloop loop env) :=
  Bad.setjmp (Bad.andThen (h.of_isPrefix List.prefix_rfl)
    fun _ _ => grows_some List.prefix_rfl) fun _ _ => grows_some List.prefix_rfl

theorem Good.bad_andThen {v : V} {k : V → Env V → Run V} (h : Good env (.value v) r)
    (hk : ∀ env', env'.jmpBufList = env.jmpBufList → Bad env' (k v env')) :
    Bad env (r.andThen k) := by
  obtain ⟨res, env', new, rfl, htidy, rfl⟩ := h
  exact (hk env' htidy.bufs).of_isPrefix ⟨new, htidy.log.symm⟩

theorem Good.bad_handle {exc : V} {handler : V → Env V → Run V}
    (hb : env.jmpBufList.head? = some b) (h : Good env (.raise exc) r)
    (hh : ∀ env', env'.jmpBufList = env.jmpBufList → Bad env' (handler exc env')) :
    Bad env (ScopedFile.handle b r handler) := by
  obtain ⟨res, env', new, rfl, htidy, rfl, rfl⟩ := h
  rw [ScopedFile.handle, setjmp_top (by rw [htidy.bufs, hb]), if_pos rfl]
  exact (hh env' htidy.bufs).of_isPrefix ⟨new, htidy.log.symm⟩

end Bad

section Release

variable {sysErr : ℤ → Option V → V} {env env' : Env V} {released : ℕ → Option ℤ}

theorem doUnlock_log (sysErr : ℤ → Option V → V) (b : ℕ) (err : Option ℤ) (env : Env V) :
    (doUnlock sysErr b err env).2.log = env.log ++ [.release b] := by
  rcases err with _ | errno <;> rfl

/-- Where it lands a function releases, once more or for the first time. -/
theorem landed_log {fuel k b : ℕ} {status : JmpStatus} {res : Except JmpStatus V}
    (h : landed sysErr released b fuel k status env = some (res, env')) :
    env.log ++ [.release b] <+: env'.log := by
  induction fuel generalizing k status env with
  | zero => cases h
  | succ fuel ih =>
    rw [landed] at h
    have hlog := doUnlock_log sysErr b (released k) env
    rcases hu : doUnlock sysErr b (released k) env with ⟨_ | status', env₁⟩
    · rw [hu] at h hlog
      obtain ⟨-, rfl⟩ := Prod.mk.inj (Option.some.inj h)
      rw [← hlog]
      exact List.prefix_rfl
    · rw [hu] at h hlog
      dsimp only at h hlog
      rw [← hlog]
      split_ifs at h
      · exact (List.prefix_append _ _).trans (ih h)
      · obtain ⟨-, rfl⟩ := Prod.mk.inj (Option.some.inj h)
        exact List.prefix_rfl

theorem landed_grows (b fuel k : ℕ) (status : JmpStatus) (env : Env V) :
    Grows env (landed sysErr released b fuel k status env) :=
  fun _ _ h => (List.prefix_append _ _).trans (landed_log h)

/-- Behind the block the log is only added to. -/
theorem guarded_after {fuel : ℕ} {path : Option V} {block : Env V → Run V}
    {res : Except JmpStatus V} (h : guarded sysErr fuel path none released block env =
      some (res, env')) : ∃ res₁ env₁,
      block (env.write (.acquire env.fresh)).pushJmpbuf = some (res₁, env₁) ∧
        env₁.log <+: env'.log := by
  unfold guarded at h
  dsimp only at h
  rcases hblock : block (env.write (.acquire env.fresh)).pushJmpbuf with
    _ | ⟨status | retval, env₁⟩
  · rw [hblock] at h
    cases h
  · rw [hblock] at h
    dsimp only at h
    refine ⟨_, env₁, rfl, ?_⟩
    split_ifs at h
    · exact landed_grows _ _ _ _ _ _ _ h
    · obtain ⟨-, rfl⟩ := Prod.mk.inj (Option.some.inj h)
      exact List.prefix_rfl
  · rw [hblock] at h
    dsimp only at h
    refine ⟨_, env₁, rfl, ?_⟩
    have hlog := doUnlock_log sysErr env.fresh (released 0) env₁
    rcases hu : doUnlock sysErr env.fresh (released 0) env₁ with ⟨_ | status, env₂⟩
    · rw [hu] at h hlog
      obtain ⟨-, rfl⟩ := Prod.mk.inj (Option.some.inj h)
      exact ⟨_, hlog.symm⟩
    · rw [hu] at h hlog
      dsimp only at h hlog
      refine List.IsPrefix.trans ⟨_, hlog.symm⟩ ?_
      split_ifs at h
      · exact landed_grows _ _ _ _ _ _ _ h
      · obtain ⟨-, rfl⟩ := Prod.mk.inj (Option.some.inj h)
        exact List.prefix_rfl

variable {fuel : ℕ} {path : Option V} {block : Env V → Run V}

theorem Grows.guarded (acquired : Option ℤ)
    (h : ∀ env, Grows env (block env)) : Grows env (guarded sysErr fuel path acquired released block
      env) := by
  rcases acquired with _ | errno
  · intro res env' hr
    obtain ⟨res₁, env₁, hblock, hpre⟩ := guarded_after hr
    exact (List.prefix_append _ _).trans ((h _ _ _ hblock).trans hpre)
  · exact grows_some List.prefix_rfl

theorem Bad.guarded (h : Bad (env.write (.acquire env.fresh)).pushJmpbuf
      (block (env.write (.acquire env.fresh)).pushJmpbuf)) :
    Bad env (guarded sysErr fuel path none released block env) := by
  intro res env' hr
  obtain ⟨res₁, env₁, hblock, hpre⟩ := guarded_after hr
  rw [hblock] at h
  have hbad : Bad _ (some (res, env')) := h.grows (grows_some hpre)
  exact hbad.of_isPrefix (List.prefix_append _ _) _ _ rfl

/-- A first attempt that fails is followed by a second one. -/
theorem Good.bad_guarded {o : Outcome V} {errno : ℤ} (hrel : released 0 = some errno)
    (h : Good (env.write (.acquire env.fresh)).pushJmpbuf o
      (block (env.write (.acquire env.fresh)).pushJmpbuf)) :
    Bad env (ScopedFile.guarded sysErr fuel path none released block env) := by
  obtain ⟨res₁, env₁, new, hblock, htidy, -⟩ := h
  have hb : env₁.jmpBufList.head? = some env.fresh := by rw [htidy.bufs]; rfl
  have htwice : ∀ {fuel : ℕ} {res : Except JmpStatus V} {env' : Env V},
      landed sysErr released env.fresh fuel 1 .raise
        { env₁.write (.release env.fresh) with jmpVal := sysErr errno none } = some (res, env') →
      ∃ new id, env'.log = env.log ++ new ∧ .acquire id ∈ new ∧ 2 ≤ new.count (.release id) := by
    intro fuel res env' h
    obtain ⟨more, hmore⟩ := landed_log h
    refine ⟨.acquire env.fresh :: (new ++ .release env.fresh :: .release env.fresh :: more),
      env.fresh, ?_, List.mem_cons_self, ?_⟩
    · rw [← hmore]
      show env₁.log ++ _ ++ _ ++ _ = _
      rw [htidy.log]
      simp [Env.write, Env.pushJmpbuf]
    · rw [List.count_cons_of_ne (by simp), List.count_append, List.count_cons_self,
        List.count_cons_self]
      omega
  have hb' : (env₁.write (.release env.fresh)).jmpBufList.head? = some env.fresh := hb
  intro res env' hr
  unfold ScopedFile.guarded at hr
  dsimp only at hr
  rw [hblock] at hr
  rcases res₁ with status | v
  · dsimp only at hr
    rw [if_pos hb] at hr
    rcases fuel with _ | fuel
    · cases hr
    · simp only [landed, doUnlock, hrel] at hr
      rw [if_pos hb'] at hr
      exact htwice hr
  · simp only [doUnlock, hrel] at hr
    rw [if_pos hb'] at hr
    exact htwice hr

end Release

theorem exec_guarded (sysErr : ℤ → Option V → V) (fuel : ℕ) (path : Option V)
    (acquired : Option ℤ) (released : ℕ → Option ℤ) (body : Block V) (next : V → Block V) (b : ℕ)
    (env : Env V) : exec sysErr fuel (.guarded path acquired released body next) b env =
      (guarded sysErr fuel path acquired released
        (mainloop fun b env => exec sysErr fuel body b env) env).andThen
          fun v env => exec sysErr fuel (next v) b env := by
  rcases path with _ | path <;> rfl

theorem exec_grows (sysErr : ℤ → Option V → V) (fuel : ℕ) (p : Block V) :
    ∀ b env, Grows env (exec sysErr fuel p b env) := by
  induction p with
  | value v => exact fun _ _ => grows_some List.prefix_rfl
  | raise exc => exact fun _ _ => grows_some List.prefix_rfl
  | longReturn vals target => exact fun _ _ => grows_some List.prefix_rfl
  | longBreak vals target => exact fun _ _ => grows_some List.prefix_rfl
  | rescue body handler next ihb ihh ihn =>
    refine fun b env => ((ihb b env).setjmp fun status env' => ?_).andThen
      fun v env' => ihn v b env'
    split_ifs
    · exact ihh _ b env'
    · exact grows_some List.prefix_rfl
  | call frame body next ihb ihn =>
    refine fun b env => ((ihb b env).setjmp fun status env' => ?_).andThen
      fun v env' => ihn v b env'
    split_ifs <;> exact grows_some List.prefix_rfl
  | guarded path acquired released body next ihb ihn =>
    intro b env
    rw [exec_guarded]
    exact .andThen (.guarded acquired fun env => .mainloop (ihb _ _)) fun v env' => ihn v b env'

/-- What comes after a value only, and has a failure. -/
theorem exists_value {o : Outcome V} {k : V → List (Option ℤ)}
    (h : ¬ ∀ r ∈ o.onValue k, r = none) : ∃ v, o = .value v ∧ ¬ ∀ r ∈ k v, r = none := by
  rcases o with v | exc | ⟨vals, target⟩ | ⟨vals, target⟩
  · exact ⟨v, rfl, h⟩
  · exact absurd (by simp [Outcome.onValue]) h
  · exact absurd (by simp [Outcome.onValue]) h
  · exact absurd (by simp [Outcome.onValue]) h

theorem exists_raise {o : Outcome V} {k : V → List (Option ℤ)}
    (h : ¬ ∀ r ∈ o.onRaise k, r = none) : ∃ exc, o = .raise exc ∧ ¬ ∀ r ∈ k exc, r = none := by
  rcases o with v | exc | ⟨vals, target⟩ | ⟨vals, target⟩
  · exact absurd (by simp [Outcome.onRaise]) h
  · exact ⟨exc, rfl, h⟩
  · exact absurd (by simp [Outcome.onRaise]) h
  · exact absurd (by simp [Outcome.onRaise]) h

theorem exec_bad (sysErr : ℤ → Option V → V) {fuel : ℕ} (hfuel : fuel ≠ 0) (p : Block V) :
    ∀ {b : ℕ} {env : Env V}, env.jmpBufList.head? = some b →
      (¬ ∀ r ∈ p.releases sysErr, r = none) → Bad env (exec sysErr fuel p b env) := by
  induction p with
  | value v => exact fun _ h => absurd nofun h
  | raise exc => exact fun _ h => absurd nofun h
  | longReturn vals target => exact fun _ h => absurd nofun h
  | longBreak vals target => exact fun _ h => absurd nofun h
  | rescue body handler next ihb ihh ihn =>
    intro b env hb h
    simp only [Block.releases, List.mem_append, or_imp, forall_and] at h
    by_cases hbody : ∀ r ∈ body.releases sysErr, r = none
    · have hgood := exec_good sysErr hfuel body hb hbody
      by_cases hhandler : ∀ r ∈ (body.meaning sysErr).onRaise fun exc =>
          (handler exc).releases sysErr, r = none
      · obtain ⟨v, hv, hnext⟩ := exists_value fun hnext => h ⟨hbody, hhandler, hnext⟩
        have hgood' := Good.handle hb hgood fun exc env' ho henv =>
          exec_good sysErr hfuel (handler exc) (by rw [henv, hb]) (by rwa [ho] at hhandler)
        rw [hv] at hgood'
        exact hgood'.bad_andThen fun env' henv => ihn v (by rw [henv, hb]) hnext
      · obtain ⟨exc, hexc, hbad⟩ := exists_raise hhandler
        rw [hexc] at hgood
        exact (hgood.bad_handle hb fun env' henv => ihh exc (by rw [henv, hb]) hbad).andThen
          fun v env' => exec_grows sysErr fuel (next v) b env'
    · refine ((ihb hb hbody).setjmp fun status env' => ?_).andThen
        fun v env' => exec_grows sysErr fuel (next v) b env'
      split_ifs
      · exact exec_grows sysErr fuel _ b env'
      · exact grows_some List.prefix_rfl
  | call frame body next ihb ihn =>
    intro b env hb h
    simp only [Block.releases, List.mem_append, or_imp, forall_and] at h
    by_cases hbody : ∀ r ∈ body.releases sysErr, r = none
    · obtain ⟨v, hv, hnext⟩ := exists_value fun hnext => h ⟨hbody, hnext⟩
      have hgood := Good.arrive frame hb (exec_good sysErr hfuel body hb hbody)
      rw [hv] at hgood
      exact hgood.bad_andThen fun env' henv => ihn v (by rw [henv, hb]) hnext
    · refine ((ihb hb hbody).setjmp fun status env' => ?_).andThen
        fun v env' => exec_grows sysErr fuel (next v) b env'
      split_ifs <;> exact grows_some List.prefix_rfl
  | guarded path acquired released body next ihb ihn =>
    intro b env hb h
    rw [exec_guarded]
    rcases acquired with _ | errno
    · simp only [Block.releases, List.mem_append, List.mem_cons, or_imp, forall_and,
        forall_eq] at h
      by_cases hbody : ∀ r ∈ body.releases sysErr, r = none
      · have hgood : ∀ env : Env V, Good env (body.meaning sysErr)
            (mainloop (fun b env => exec sysErr fuel body b env) env) :=
          fun env => .mainloop (exec_good sysErr hfuel body rfl hbody)
        rcases hrel : released 0 with _ | errno
        · obtain ⟨v, hv, hnext⟩ := exists_value fun hnext => h ⟨hbody, hrel, hnext⟩
          have hguarded : Good env (body.meaning sysErr) (guarded sysErr fuel path none released
              (ScopedFile.mainloop fun b env => exec sysErr fuel body b env) env) :=
            .guarded hfuel hrel (hgood _)
          rw [hv] at hguarded
          exact hguarded.bad_andThen fun env' henv => ihn v (by rw [henv, hb]) hnext
        · exact (Good.bad_guarded hrel (hgood _)).andThen
            fun v env' => exec_grows sysErr fuel (next v) b env'
      · exact .andThen (.guarded (.mainloop (ihb rfl hbody)))
          fun v env' => exec_grows sysErr fuel (next v) b env'
    · exact absurd (by simp [Block.releases]) h

/-- A call ends, with one attempt to release for each call that acquired something, and with the
list of jump buffers as it was; where no release fails, it comes to what the block comes to. -/
def Releases (sysErr : ℤ → Option V → V) (p : Block V) (env : Env V) : Prop :=
  ∃ N, ∀ fuel, N ≤ fuel → ∃ res env' new,
    mainloop (fun b env => exec sysErr fuel p b env) env = some (res, env') ∧
      env'.jmpBufList = env.jmpBufList ∧ env'.log = env.log ++ new ∧
      (∀ id, .acquire id ∈ new → new.count (.release id) = 1) ∧
      ((∀ r ∈ p.releases sysErr, r = none) → Agrees (p.meaning sysErr) res env')

/-- What is held is released once, on every way out, if and only if no attempt to release fails. -/
theorem releases_iff (sysErr : ℤ → Option V → V) (p : Block V) (env : Env V) :
    Releases sysErr p env ↔ ∀ r ∈ p.releases sysErr, r = none := by
  constructor
  · rintro ⟨N, hN⟩
    by_contra h
    obtain ⟨res, env', new, heq, -, hlog, honce, -⟩ := hN (N + 1) (Nat.le_succ N)
    have hbad : Bad env (mainloop (fun b env => exec sysErr (N + 1) p b env) env) :=
      .mainloop (exec_bad sysErr N.succ_ne_zero p rfl h)
    obtain ⟨new', id, hlog', hacq, htwice⟩ := hbad res env' heq
    obtain rfl : new = new' := List.append_cancel_left (hlog.symm.trans hlog')
    have hcount := honce id hacq
    omega
  · intro h
    refine ⟨1, fun fuel hfuel => ?_⟩
    obtain ⟨res, env', new, heq, htidy, hagree⟩ :=
      Good.mainloop (exec_good sysErr (Nat.one_le_iff_ne_zero.1 hfuel) p rfl h)
    exact ⟨res, env', new, heq, htidy.bufs, htidy.log, htidy.once, fun _ => hagree⟩

/-- `File.open` of a block with a value, and a disk that is full when the file is closed. -/
theorem not_releases_full : ¬ Releases (fun errno _ => errno)
    (.guarded (some 0) none (fun k => if k = 0 then some 28 else none) (.value 1) .value)
    ⟨[], 0, none, 0, []⟩ := by
  rintro ⟨N, hN⟩
  obtain ⟨res, env', new, heq, -, hlog, honce, -⟩ := hN (N + 1) (Nat.le_succ N)
  obtain ⟨-, rfl⟩ := Prod.mk.inj (Option.some.inj heq)
  have hnew : [Event.acquire 1, .release 1, .release 1] = new := hlog
  have hcount := honce 1 (by simp [← hnew])
  rw [← hnew] at hcount
  exact absurd hcount (by decide)

end Yog.ScopedFile
