import Yog.StopTheWorld
import Mathlib.Data.List.Nodup
import Mathlib.Tactic.Ring

/-!
# The world stops, and goes on

In every run the collector has the world to itself, the suspend counter is the number of threads
that still have to stop, and whoever waits can be released, exactly as long as the main thread does
not begin to wait for the others (`YogVM_wait_finish`) while a collection waits for threads
(`protocol_iff`). It has removed itself from the running threads by then (`YogVM_remove_thread`),
so nothing has counted it, but it counts down (`not_safe_late`).
-/

namespace Yog

namespace StopTheWorld

variable {T : Type}

def Section.isFinal : Section T → Bool
  | waitFinish => true
  | _ => false

def Section.isBind : Section T → Bool
  | bindToGc => true
  | _ => false

/-- The section tests `waiting_suspend` again when a collection is over. -/
def Section.isLoop : Section T → Bool
  | alloc => false
  | perform => false
  | _ => true

namespace Place

/-- One of the running threads. -/
def isAlive : Place T → Bool
  | running => true
  | entering sec => !sec.isFinal
  | stopped sec _ _ => !sec.isFinal
  | collecting _ => true
  | gc => true
  | freed => true
  | _ => false

/-- Not bound to the collector. -/
def isFree : Place T → Bool
  | entering sec => sec.isBind
  | stopped sec _ _ => sec.isBind
  | freed => true
  | _ => false

/-- Executes mutator code, or will without waiting for more than the lock. -/
def mutates : Place T → Bool
  | running => true
  | entering sec => !sec.isFinal && !sec.isBind
  | _ => false

def collects : Place T → Bool
  | collecting _ => true
  | gc => true
  | _ => false

/-- Waits for the threads to stop, or for the end of a collection. -/
def waits : Place T → Bool
  | collecting _ => true
  | stopped _ _ _ => true
  | _ => false

/-- Has not stopped for the collection with the number, and does not run it. -/
def mustStop (id : UInt64) : Place T → Bool
  | collecting _ => false
  | gc => false
  | stopped _ id' _ => id' != id
  | _ => true

/-- Where a thread may keep the lock. -/
def keeps : Place T → Bool
  | gc => true
  | entering sec => sec.isLoop && !sec.isFinal
  | _ => false

end Place

namespace State

/-- The threads bound to the collector that still have to stop. -/
def toStop (s : State T) : List T :=
  if s.waitingSuspend then
    s.runningThreads.filter fun t => s.gcBound t && (s.place t).mustStop s.gcId
  else []

theorem mem_toStop {s : State T} {t : T} :
    t ∈ s.toStop ↔ s.waitingSuspend = true ∧ t ∈ s.runningThreads ∧ s.gcBound t = true
      ∧ (s.place t).mustStop s.gcId = true := by
  unfold toStop
  by_cases h : s.waitingSuspend = true <;> simp [h]

theorem toStop_of_not_waiting {s : State T} (h : s.waitingSuspend = false) : s.toStop = [] := by
  simp [toStop, h]

end State

section Invariant

/-- The thread that a thread adds is its own. -/
def Created (s : State T) (t : T) : Section T → Prop
  | .addThread thread => s.place thread = .starting t
  | _ => True

/-- What holds of a thread at a place. -/
def Sound (s : State T) (t : T) : Place T → Prop
  | .gc => s.waitingSuspend = true ∧ s.toStop = [] ∧ s.globalInterpLock = some t
  | .collecting asleep => s.waitingSuspend = true ∧ (asleep = true → s.toStop ≠ [])
  | .stopped sec id asleep =>
    sec.isFinal = false ∧ (asleep = true → s.waitingSuspend = true ∧ id = s.gcId)
      ∧ (id = s.gcId → sec.isBind = false → s.waitingSuspend = true) ∧ Created s t sec
  | .entering sec => (sec = .alloc → s.waitingSuspend = true) ∧ Created s t sec
  | _ => True

structure Inv (s : State T) : Prop where
  nodup : s.runningThreads.Nodup
  mem : ∀ t, t ∈ s.runningThreads ↔ (s.place t).isAlive = true
  bound : ∀ t, s.gcBound t = !(s.place t).isFree
  gc : s.runningGc = s.waitingSuspend
  collector : s.waitingSuspend = true → ∃ t, (s.place t).collects = true
  one : ∀ t u, (s.place t).collects = true → (s.place u).collects = true → t = u
  counter : s.suspendCounter = .ofNat s.toStop.length
  lock : ∀ t, s.globalInterpLock = some t → (s.place t).keeps = true
  sound : ∀ t, Sound s t (s.place t)

variable {s s' : State T} {t u : T} {p : Place T} {sec : Section T} {l : Option T}

theorem Place.waiting_of_collects (h : p.collects = true) (hs : Sound s t p) :
    s.waitingSuspend = true := by
  cases p <;> simp_all [collects, Sound]

/-- A thread goes from one place to another of the same kind. -/
def SameKind (s : State T) (t : T) (p : Place T) : Prop :=
  p.isAlive = (s.place t).isAlive ∧ p.isFree = (s.place t).isFree
    ∧ p.collects = (s.place t).collects
    ∧ (s.waitingSuspend = true → p.isAlive = true → p.isFree = false →
      p.mustStop s.gcId = (s.place t).mustStop s.gcId)
    ∧ ∀ c, s.place t ≠ .starting c

theorem SameKind.of {q : Place T} (hq : s.place t = q) (halive : p.isAlive = q.isAlive)
    (hfree : p.isFree = q.isFree) (hcol : p.collects = q.collects)
    (hstop : s.waitingSuspend = true → p.isAlive = true → p.isFree = false →
      p.mustStop s.gcId = q.mustStop s.gcId) (hstart : ∀ c, q ≠ .starting c) : SameKind s t p := by
  subst hq
  exact ⟨halive, hfree, hcol, hstop, hstart⟩

namespace Inv

theorem mem_toStop (hi : Inv s) : t ∈ s.toStop ↔ s.waitingSuspend = true
    ∧ (s.place t).isAlive = true ∧ (s.place t).isFree = false
      ∧ (s.place t).mustStop s.gcId = true := by
  rw [State.mem_toStop, hi.mem, hi.bound, Bool.not_eq_true']

theorem not_collects (hi : Inv s) (hw : s.waitingSuspend = false) (t : T) :
    (s.place t).collects = false := by
  by_contra h
  have := Place.waiting_of_collects (Bool.eq_true_of_not_eq_false h) (hi.sound t)
  rw [hw] at this
  exact Bool.false_ne_true this

theorem length_toStop_le (s : State T) : s.toStop.length ≤ s.runningThreads.length := by
  unfold State.toStop
  split
  · exact List.length_filter_le _ _
  · exact Nat.zero_le _

theorem toNat_counter (hi : Inv s) (hb : s.runningThreads.length < 2 ^ 64) :
    s.suspendCounter.toNat = s.toStop.length := by
  rw [hi.counter]
  exact UInt64.toNat_ofNat_of_lt' ((length_toStop_le s).trans_lt hb)

theorem toStop_eq_nil (hi : Inv s) (hb : s.runningThreads.length < 2 ^ 64)
    (h : s.suspendCounter = 0) : s.toStop = [] := by
  rw [← List.length_eq_zero_iff, ← hi.toNat_counter hb, h]
  rfl

theorem toStop_ne_nil (hi : Inv s) (h : s.suspendCounter ≠ 0) : s.toStop ≠ [] := fun hn =>
  h (by rw [hi.counter, hn]; rfl)

variable [DecidableEq T]

theorem toStop_put (hi : Inv s) (hk : SameKind s t p) : (s.put t p l).toStop = s.toStop := by
  unfold State.toStop
  by_cases hw : s.waitingSuspend = true
  · simp only [State.put_waitingSuspend, hw, if_true]
    refine List.filter_congr fun v hv => ?_
    by_cases hvt : v = t
    · subst hvt
      obtain ⟨halive, hfree, -, hstop, -⟩ := hk
      simp only [State.put_gcBound, State.put_gcId, State.put_place, Function.update_self, hi.bound]
      rcases hf : (s.place v).isFree with _ | _
      · rw [hstop hw (by rw [halive]; exact (hi.mem v).1 hv) (by rw [hfree, hf])]
      · rfl
    · simp [hvt]
  · simp [hw]

theorem created_put (ht : ∀ c, s.place t ≠ .starting c) (h : Created s u sec) :
    Created (s.put t p l) u sec := by
  cases sec with
  | addThread thread =>
    have hne : thread ≠ t := fun he => ht u (by rw [← he]; exact h)
    exact (Function.update_of_ne hne ..).trans h
  | _ => trivial

/-- The other threads do not see where a thread is of the same kind. -/
theorem sound_put (hi : Inv s) (hk : SameKind s t p)
    (hl : s.place u = .gc → l = s.globalInterpLock) : Sound (s.put t p l) u (s.place u) := by
  have hu := hi.sound u
  rcases hp : s.place u with _ | _ | _ | sec | ⟨sec, id, asleep⟩ | asleep | _ | _ | _ | _ | _
    <;> rw [hp] at hu
  case entering => exact ⟨hu.1, created_put hk.2.2.2.2 hu.2⟩
  case stopped => exact ⟨hu.1, hu.2.1, hu.2.2.1, created_put hk.2.2.2.2 hu.2.2.2⟩
  case collecting => exact ⟨hu.1, by rw [toStop_put hi hk]; exact hu.2⟩
  case gc => exact ⟨hu.1, by rw [toStop_put hi hk]; exact hu.2.1, (hl hp).trans hu.2.2⟩
  all_goals trivial

theorem put (hi : Inv s) (hk : SameKind s t p)
    (hl : l = s.globalInterpLock ∧ l ≠ some t
      ∨ s.Unlocked t ∧ (l = none ∨ l = some t ∧ p.keeps = true))
    (hs : Sound (s.put t p l) t p) : Inv (s.put t p l) := by
  have hplace : ∀ {β : Type} (f : Place T → β), f p = f (s.place t) →
      ∀ u, f ((s.put t p l).place u) = f (s.place u) := fun f h u => by
    by_cases hu : u = t
    · subst hu
      simpa using h
    · simp [hu]
  have hother : ∀ {u}, u ≠ t → (s.put t p l).place u = s.place u := fun hu =>
    Function.update_of_ne hu ..
  constructor
  · exact hi.nodup
  · exact fun u => (hi.mem u).trans (by rw [hplace _ hk.1])
  · exact fun u => (hi.bound u).trans (by rw [hplace _ hk.2.1])
  · exact hi.gc
  · intro hw
    obtain ⟨u, hu⟩ := hi.collector hw
    exact ⟨u, by rwa [hplace _ hk.2.2.1]⟩
  · intro u v hu hv
    rw [hplace _ hk.2.2.1] at hu hv
    exact hi.one u v hu hv
  · rw [toStop_put hi hk]
    exact hi.counter
  · intro u (hu : l = some u)
    by_cases hut : u = t
    · subst hut
      rcases hl with ⟨-, hl⟩ | ⟨-, rfl | ⟨-, hkeep⟩⟩
      · exact absurd hu hl
      · cases hu
      · simpa using hkeep
    · rw [hother hut]
      rcases hl with ⟨rfl, -⟩ | ⟨-, rfl | ⟨rfl, -⟩⟩
      · exact hi.lock u hu
      · cases hu
      · exact absurd (Option.some.inj hu).symm hut
  · intro u
    by_cases hut : u = t
    · subst hut
      simpa using hs
    · rw [hother hut]
      refine sound_put hi hk fun hp => ?_
      have hgc := hi.sound u
      rw [hp] at hgc
      rcases hl with ⟨rfl, -⟩ | ⟨hn | ht, -⟩
      · rfl
      · rw [hgc.2.2] at hn
        cases hn
      · rw [hgc.2.2] at ht
        exact absurd (Option.some.inj ht) hut

omit [DecidableEq T] in
/-- When no collection waits for anything. -/
theorem of_quiet (hw : s.waitingSuspend = false) (hr : s.runningGc = false)
    (hc : s.suspendCounter = 0) (hl : s.globalInterpLock = none) (hn : s.runningThreads.Nodup)
    (hm : ∀ t, t ∈ s.runningThreads ↔ (s.place t).isAlive = true)
    (hb : ∀ t, s.gcBound t = !(s.place t).isFree) (hs : ∀ t, Sound s t (s.place t)) : Inv s := by
  have hcol : ∀ t, (s.place t).collects ≠ true := fun t h => by
    have := Place.waiting_of_collects h (hs t)
    rw [hw] at this
    exact Bool.false_ne_true this
  constructor
  · exact hn
  · exact hm
  · exact hb
  · rw [hr, hw]
  · intro h
    rw [hw] at h
    exact absurd h Bool.false_ne_true
  · exact fun t _ h => absurd h (hcol t)
  · rw [State.toStop_of_not_waiting hw, hc]
    rfl
  · intro t h
    rw [hl] at h
    cases h
  · exact hs

/-- The places once the counter has gone down, and the thread has stopped. -/
def stoppedPlace (s : State T) (t : T) (sec : Section T) : T → Place T :=
  Function.update (fun u =>
    if s.suspendCounter - 1 = 0 then (s.place u).wakeCollecting else s.place u) t
    (.stopped sec s.gcId true)

theorem suspend_eq (hg : s.runningGc = true) : s.suspend t sec =
    { s with
      suspendCounter := s.suspendCounter - 1
      place := stoppedPlace s t sec
      globalInterpLock := none } := by
  unfold State.suspend State.waitGcFinish State.waitGcFinishLoop
  rw [State.decrement_eq]
  simp only [hg, beq_self_eq_true, Bool.and_self, if_true]
  rfl

theorem stoppedPlace_self : stoppedPlace s t sec t = .stopped sec s.gcId true :=
  Function.update_self ..

theorem stoppedPlace_of_ne (hu : u ≠ t) : stoppedPlace s t sec u
    = if s.suspendCounter - 1 = 0 then (s.place u).wakeCollecting else s.place u :=
  Function.update_of_ne hu ..

theorem stoppedPlace_kind {β : Type} (f : Place T → β) (hf : ∀ p, f p.wakeCollecting = f p)
    (ht : f (.stopped sec s.gcId true) = f (s.place t)) (u : T) :
    f (stoppedPlace s t sec u) = f (s.place u) := by
  by_cases hu : u = t
  · rw [hu, stoppedPlace_self, ht]
  · rw [stoppedPlace_of_ne hu]
    split
    · exact hf _
    · rfl

theorem toStop_suspend (hi : Inv s) (hw : s.waitingSuspend = true) (t : T) (sec : Section T) :
    (s.suspend t sec).toStop = s.toStop.erase t := by
  rw [suspend_eq (by rw [hi.gc, hw])]
  unfold State.toStop
  simp only [hw, if_true]
  rw [List.Nodup.erase_eq_filter (hi.nodup.filter _), List.filter_filter]
  refine List.filter_congr fun u _ => ?_
  by_cases hu : u = t
  · subst hu
    simp [stoppedPlace_self, Place.mustStop]
  · have : (stoppedPlace s t sec u).mustStop s.gcId = (s.place u).mustStop s.gcId := by
      unfold stoppedPlace
      rw [Function.update_of_ne hu]
      split
      · cases s.place u <;> rfl
      · rfl
    simp [this, hu]

theorem counter_suspend (hi : Inv s) (ht : t ∈ s.toStop) :
    s.suspendCounter - 1 = .ofNat (s.toStop.erase t).length := by
  rw [hi.counter, List.length_erase_of_mem ht]
  have hpos := List.length_pos_of_mem ht
  obtain ⟨n, hn⟩ : ∃ n, s.toStop.length = n + 1 := ⟨s.toStop.length - 1, by omega⟩
  rw [hn, Nat.add_sub_cancel, UInt64.ofNat_add]
  exact UInt64.add_sub_cancel _ _

/-- A thread that has to stop does. -/
theorem suspend (hi : Inv s) (ht : t ∈ s.toStop) (hp : s.place t = .entering sec) :
    Inv (s.suspend t sec) := by
  obtain ⟨hw, halive, -, -⟩ := hi.mem_toStop.1 ht
  have hsound := hi.sound t
  have hcounter := counter_suspend hi ht
  rw [← hi.toStop_suspend hw t sec] at hcounter
  rw [suspend_eq (by rw [hi.gc, hw])] at hcounter ⊢
  rw [hp] at halive hsound
  have hkind : ∀ {β : Type} (f : Place T → β), (∀ p, f p.wakeCollecting = f p) →
      f (.stopped sec s.gcId true) = f (.entering sec) → ∀ u,
      f (stoppedPlace s t sec u) = f (s.place u) := fun f hf h =>
    stoppedPlace_kind f hf (by rw [hp, h])
  have hcreated : ∀ {u sec'}, Created s u sec' → Created { s with
      suspendCounter := s.suspendCounter - 1
      place := stoppedPlace s t sec
      globalInterpLock := none } u sec' := by
    intro u sec' h
    cases sec' with
    | addThread thread =>
      have h : s.place thread = .starting u := h
      have hne : thread ≠ t := fun he => by
        rw [he, hp] at h
        cases h
      refine (stoppedPlace_of_ne hne).trans ?_
      rw [h]
      exact ite_self _
    | _ => trivial
  constructor
  · exact hi.nodup
  · exact fun u => (hi.mem u).trans
      (by rw [hkind Place.isAlive (fun p => by cases p <;> rfl) rfl])
  · exact fun u => (hi.bound u).trans
      (by rw [hkind Place.isFree (fun p => by cases p <;> rfl) rfl])
  · exact hi.gc
  · intro _
    obtain ⟨u, hu⟩ := hi.collector hw
    exact ⟨u, by rwa [hkind Place.collects (fun p => by cases p <;> rfl) rfl]⟩
  · intro u v hu hv
    rw [hkind Place.collects (fun p => by cases p <;> rfl) rfl] at hu hv
    exact hi.one u v hu hv
  · exact hcounter
  · exact fun u hu => nomatch hu
  · intro u
    dsimp only
    by_cases hut : u = t
    · subst hut
      rw [stoppedPlace_self]
      exact ⟨by simpa [Place.isAlive] using halive, fun _ => ⟨hw, rfl⟩, fun _ _ => hw,
        hcreated hsound.2⟩
    · have hu := hi.sound u
      rw [stoppedPlace_of_ne hut]
      rcases hq : s.place u with _ | _ | _ | sec' | ⟨sec', id, asleep⟩ | asleep | _ | _ | _ | _ | _
        <;> rw [hq] at hu <;> simp only [Place.wakeCollecting, ite_self]
      case entering => exact ⟨fun _ => hw, hcreated hu.2⟩
      case stopped => exact ⟨hu.1, hu.2.1, fun _ _ => hw, hcreated hu.2.2.2⟩
      case collecting =>
        split
        · exact ⟨hw, fun h => absurd h Bool.false_ne_true⟩
        next hne => exact ⟨hw, fun _ hn => hne (by rw [hcounter, hn]; rfl)⟩
      case gc => exact absurd (hu.2.1 ▸ ht) List.not_mem_nil
      all_goals trivial

/-- The state in which a thread has begun a collection. -/
def begun (s : State T) (t : T) (p : Place T) (l : Option T) : State T :=
  { s with
    runningGc := true
    waitingSuspend := true
    suspendCounter := s.countRunningThreads - 1
    place := Function.update s.place t p
    globalInterpLock := l }

omit [DecidableEq T] in
/-- No bound thread has stopped for a collection that has not begun. -/
theorem mustStop_of_quiet (hi : Inv s) (hw : s.waitingSuspend = false)
    (hf : (s.place u).isFree = false) : (s.place u).mustStop s.gcId = true := by
  have hc := hi.not_collects hw u
  have hs := hi.sound u
  rcases hq : s.place u with _ | _ | _ | sec | ⟨sec, id, asleep⟩ | asleep | _ | _ | _ | _ | _
    <;> rw [hq] at hc hs hf
  case stopped =>
    refine bne_iff_ne.2 fun he => ?_
    rw [hs.2.2.1 he hf] at hw
    cases hw
  case collecting => cases hc
  case gc => cases hc
  all_goals rfl

theorem toStop_begun (hi : Inv s) (hw : s.waitingSuspend = false) (hp : p.collects = true) :
    (begun s t p l).toStop = (s.runningThreads.filter s.gcBound).erase t := by
  unfold State.toStop begun
  simp only [if_true]
  rw [List.Nodup.erase_eq_filter (hi.nodup.filter _), List.filter_filter]
  refine List.filter_congr fun u _ => ?_
  by_cases hu : u = t
  · subst hu
    rw [Function.update_self]
    cases p <;> simp_all [Place.collects, Place.mustStop]
  · rw [Function.update_of_ne hu, hi.bound]
    rcases hf : (s.place u).isFree with _ | _
    · simp [hi.mustStop_of_quiet hw hf, hu]
    · simp

theorem countRunningThreads_sub (ht : t ∈ s.runningThreads) (hb : s.gcBound t = true) :
    s.countRunningThreads - 1
      = .ofNat ((s.runningThreads.filter s.gcBound).erase t).length := by
  have hm : t ∈ s.runningThreads.filter s.gcBound := List.mem_filter.2 ⟨ht, hb⟩
  unfold State.countRunningThreads
  rw [List.length_erase_of_mem hm, List.countP_eq_length_filter]
  obtain ⟨n, hn⟩ : ∃ n, (s.runningThreads.filter s.gcBound).length = n + 1 :=
    ⟨_, (Nat.sub_add_cancel (List.length_pos_of_mem hm)).symm⟩
  rw [hn, Nat.add_sub_cancel, UInt64.ofNat_add]
  exact UInt64.add_sub_cancel _ _

theorem begun_inv (hi : Inv s) (hw : s.waitingSuspend = false)
    (hp : s.place t = .entering .perform) (hc : p.collects = true)
    (hs : Sound (begun s t p l) t p) (hl : l = none ∨ l = some t ∧ p.keeps = true) :
    Inv (begun s t p l) := by
  have halive : p.isAlive = true := by cases p <;> first | rfl | cases hc
  have hfree : p.isFree = false := by cases p <;> first | rfl | cases hc
  have hself : (begun s t p l).place t = p := Function.update_self ..
  have hother : ∀ {u}, u ≠ t → (begun s t p l).place u = s.place u := fun hu =>
    Function.update_of_ne hu ..
  have ht : t ∈ s.runningThreads := (hi.mem t).2 (by rw [hp]; rfl)
  constructor
  · exact hi.nodup
  · intro u
    refine (hi.mem u).trans ?_
    by_cases hu : u = t
    · rw [hu, hself, hp, halive]
      rfl
    · rw [hother hu]
  · intro u
    refine (hi.bound u).trans ?_
    by_cases hu : u = t
    · rw [hu, hself, hp, hfree]
      rfl
    · rw [hother hu]
  · rfl
  · exact fun _ => ⟨t, by rw [hself, hc]⟩
  · have honly : ∀ {u}, ((begun s t p l).place u).collects = true → u = t := fun {u} hu => by
      by_contra hut
      rw [hother hut, hi.not_collects hw] at hu
      cases hu
    exact fun u v hu hv => (honly hu).trans (honly hv).symm
  · rw [hi.toStop_begun hw hc]
    exact countRunningThreads_sub ht (by rw [hi.bound, hp]; rfl)
  · intro u (hu : l = some u)
    rcases hl with rfl | ⟨rfl, hk⟩
    · cases hu
    · obtain rfl := Option.some.inj hu
      rwa [hself]
  · intro u
    by_cases hut : u = t
    · rw [hut, hself]
      exact hs
    · rw [hother hut]
      have hu := hi.sound u
      have hc := hi.not_collects hw u
      have hcreated : ∀ {sec}, Created s u sec → Created (begun s t p l) u sec := by
        intro sec h
        cases sec with
        | addThread thread =>
          have h : s.place thread = .starting u := h
          exact (hother fun he => by rw [he, hp] at h; cases h).trans h
        | _ => trivial
      rcases hq : s.place u with _ | _ | _ | sec | ⟨sec, id, asleep⟩ | asleep | _ | _ | _ | _ | _
        <;> rw [hq] at hu hc
      case entering => exact ⟨fun _ => rfl, hcreated hu.2⟩
      case stopped => exact ⟨hu.1, fun ha => ⟨rfl, (hu.2.1 ha).2⟩, fun _ _ => rfl, hcreated hu.2.2.2⟩
      case collecting => cases hc
      case gc => cases hc
      all_goals trivial

theorem perform_eq (hw : s.waitingSuspend = false) (hn : 0 < s.countRunningThreads) :
    s.perform t = if s.countRunningThreads - 1 ≠ 0 then begun s t (.collecting true) none
      else begun s t .gc (some t) :=
  (if_neg (by simp [hw])).trans (if_pos hn)

theorem perform (hi : Inv s) (hb : s.runningThreads.length < 2 ^ 64)
    (hw : s.waitingSuspend = false) (hp : s.place t = .entering .perform) : Inv (s.perform t) := by
  have ht : t ∈ s.runningThreads := (hi.mem t).2 (by rw [hp]; rfl)
  have hbound : s.gcBound t = true := by rw [hi.bound, hp]; rfl
  have hlen := (List.length_filter_le s.gcBound s.runningThreads).trans_lt hb
  have hn : 0 < s.countRunningThreads := by
    unfold State.countRunningThreads
    rw [UInt64.lt_iff_toNat_lt, List.countP_eq_length_filter, UInt64.toNat_ofNat_of_lt' hlen]
    exact List.length_pos_of_mem (List.mem_filter.2 ⟨ht, hbound⟩)
  have hcount := countRunningThreads_sub ht hbound
  have hle : ((s.runningThreads.filter s.gcBound).erase t).length < 2 ^ 64 :=
    (List.length_erase_le ..).trans_lt hlen
  rw [perform_eq hw hn]
  split
  next hc =>
    refine hi.begun_inv (p := .collecting true) hw hp rfl ⟨rfl, fun _ hnil => hc ?_⟩ (.inl rfl)
    rw [hi.toStop_begun hw rfl] at hnil
    rw [hcount, hnil]
    rfl
  next hc =>
    refine hi.begun_inv (p := .gc) hw hp rfl ⟨rfl, ?_, rfl⟩ (.inr ⟨rfl, rfl⟩)
    rw [hi.toStop_begun hw rfl, ← List.length_eq_zero_iff, ← UInt64.toNat_ofNat_of_lt' hle, ← hcount]
    exact congrArg UInt64.toNat (not_not.1 hc)

/-- The collector returns: those who wait for it wake up. -/
theorem endGc (hi : Inv s) (hp : s.place t = .gc) : Inv (s.endGc t) := by
  have ht := hi.sound t
  rw [hp] at ht
  have hplace : ∀ {u}, u ≠ t → (s.endGc t).place u = (s.place u).wakeStopped := fun hu =>
    Function.update_of_ne hu ..
  have hself : (s.endGc t).place t = .running := Function.update_self ..
  have hkind : ∀ {β : Type} (f : Place T → β), (∀ p, f p.wakeStopped = f p) →
      f .running = f .gc → ∀ u, f ((s.endGc t).place u) = f (s.place u) := fun f hf h u => by
    by_cases hu : u = t
    · rw [hu, hself, hp, h]
    · rw [hplace hu, hf]
  have hstopped : ∀ {u}, (s.place u).isAlive = true → (s.place u).isFree = false →
      (s.place u).mustStop s.gcId = false := fun {u} halive hfree => by
    by_contra hm
    have := hi.mem_toStop.2 ⟨ht.1, halive, hfree, Bool.eq_true_of_not_eq_false hm⟩
    rw [ht.2.1] at this
    exact absurd this List.not_mem_nil
  have hcreated : ∀ {u sec}, Created s u sec → Created (s.endGc t) u sec := by
    intro u sec h
    cases sec with
    | addThread thread =>
      have h : s.place thread = .starting u := h
      refine (hplace fun he => by rw [he, hp] at h; cases h).trans ?_
      rw [h]
      rfl
    | _ => trivial
  refine of_quiet rfl rfl ?_ rfl hi.nodup (fun u => ?_) (fun u => ?_) fun u => ?_
  · exact hi.counter.trans (by rw [ht.2.1]; rfl)
  · exact (hi.mem u).trans (by rw [hkind Place.isAlive (fun p => by cases p <;> rfl) rfl])
  · exact (hi.bound u).trans (by rw [hkind Place.isFree (fun p => by cases p <;> rfl) rfl])
  · by_cases hut : u = t
    · rw [hut, hself]
      trivial
    · have hu := hi.sound u
      rw [hplace hut]
      rcases hq : s.place u with _ | _ | _ | sec | ⟨sec, id, asleep⟩ | asleep | _ | _ | _ | _ | _
        <;> rw [hq] at hu
      case entering =>
        refine ⟨fun he => ?_, hcreated hu.2⟩
        have := hstopped (u := u) (by rw [hq, he]; rfl) (by rw [hq, he]; rfl)
        rw [hq] at this
        cases this
      case stopped =>
        refine ⟨hu.1, fun h => absurd h Bool.false_ne_true, fun he hf => ?_, hcreated hu.2.2.2⟩
        have := hstopped (u := u) (by rw [hq]; simp [Place.isAlive, hu.1]) (by rw [hq]; exact hf)
        rw [hq] at this
        have hid : id = s.gcId := by simpa [Place.mustStop] using this
        rw [hid] at he
        have hne : s.gcId ≠ s.gcId + 1 := by simp
        exact absurd he hne
      case collecting => exact absurd (hi.one u t (by rw [hq]; rfl) (by rw [hp]; rfl)) hut
      case gc => exact absurd (hi.one u t (by rw [hq]; rfl) (by rw [hp]; rfl)) hut
      all_goals trivial

omit [DecidableEq T] in
theorem quiet (hi : Inv s) (hw : s.waitingSuspend = false) :
    s.runningGc = false ∧ s.suspendCounter = 0 := by
  refine ⟨by rw [hi.gc, hw], ?_⟩
  rw [hi.counter, State.toStop_of_not_waiting hw]
  rfl

omit [DecidableEq T] in
theorem sound_quiet (hi : Inv s) (hw : s.waitingSuspend = false) (hw' : s'.waitingSuspend = false)
    (hid : s'.gcId = s.gcId) (hc : ∀ sec, Created s u sec → Created s' u sec) :
    Sound s' u (s.place u) := by
  have hu := hi.sound u
  have hcol := hi.not_collects hw u
  rcases hq : s.place u with _ | _ | _ | sec | ⟨sec, id, asleep⟩ | asleep | _ | _ | _ | _ | _
    <;> rw [hq] at hu hcol
  case entering => exact ⟨by rw [hw', ← hw]; exact hu.1, hc _ hu.2⟩
  case stopped => exact ⟨hu.1, by rw [hw', hid, ← hw]; exact hu.2.1,
    by rw [hw', hid]; exact fun he hb => hw ▸ hu.2.2.1 he hb, hc _ hu.2.2.2⟩
  case collecting => cases hcol
  case gc => cases hcol
  all_goals trivial

omit [DecidableEq T] in
theorem created_of_place (hp : ∀ thread, s.place thread = .starting u → s'.place thread = .starting u)
    (h : Created s u sec) : Created s' u sec := by
  cases sec with
  | addThread thread => exact hp _ h
  | _ => trivial

/-- A bound thread becomes free, or a free one bound, while no collection waits. -/
theorem rebind (hi : Inv s) (hw : s.waitingSuspend = false) (hp : s.place t = .entering sec)
    (hf : sec.isFinal = false) (hs : p = .freed ∨ p = .running) :
    Inv ({ s with gcBound := Function.update s.gcBound t (!p.isFree) }.goTo t p) := by
  obtain ⟨hr, hc⟩ := hi.quiet hw
  have halive : p.isAlive = true := by rcases hs with rfl | rfl <;> rfl
  refine of_quiet hw hr hc rfl hi.nodup (fun u => ?_) (fun u => ?_) fun u => ?_
  all_goals by_cases hu : u = t
  · subst hu
    simp only [State.goTo, State.put_runningThreads, State.put_place, Function.update_self, hi.mem,
      hp, halive]
    simp [Place.isAlive, hf]
  · simp [State.goTo, hi.mem, hu]
  · subst hu
    simp [State.goTo]
  · simp [State.goTo, hi.bound, hu]
  · subst hu
    rcases hs with rfl | rfl <;> simp [State.goTo, Sound]
  · have : ({ s with gcBound := Function.update s.gcBound t (!p.isFree) }.goTo t p).place u
        = s.place u := Function.update_of_ne hu ..
    rw [this]
    refine hi.sound_quiet hw hw rfl fun _ => created_of_place fun thread h => ?_
    exact (Function.update_of_ne (fun he => by rw [he, hp] at h; cases h) ..).trans h

theorem addThread (hi : Inv s) (hw : s.waitingSuspend = false)
    (hp : s.place t = .entering (.addThread u)) : Inv (s.addThread t u) := by
  obtain ⟨hr, hc⟩ := hi.quiet hw
  have ht := hi.sound t
  rw [hp] at ht
  have hu : s.place u = .starting t := ht.2
  have hne : u ≠ t := fun he => by
    rw [he, hp] at hu
    cases hu
  unfold State.addThread State.unlessWaiting
  rw [if_neg (by simp [hw])]
  have hself : ∀ {v}, v = t ∨ v = u →
      Function.update (Function.update s.place u .running) t .running v = .running := by
    rintro v (rfl | rfl)
    · simp
    · simp [hne]
  have hother : ∀ {v}, ¬(v = t ∨ v = u) →
      Function.update (Function.update s.place u .running) t .running v = s.place v := fun hv => by
    rw [not_or] at hv
    simp [hv.1, hv.2]
  have hdead : u ∉ s.runningThreads := fun hm => by
    have := (hi.mem u).1 hm
    rw [hu] at this
    cases this
  refine of_quiet hw hr hc rfl (List.nodup_cons.2 ⟨hdead, hi.nodup⟩) (fun v => ?_) (fun v => ?_)
    fun v => ?_
  all_goals
    dsimp only [State.goTo, State.put]
    by_cases hv : v = t ∨ v = u
    on_goal 1 => rw [hself hv]
    on_goal 2 => rw [hother hv]
  · rcases hv with rfl | rfl
    · exact iff_of_true (List.mem_cons_of_mem _ ((hi.mem v).2 (by rw [hp]; rfl))) rfl
    · exact iff_of_true List.mem_cons_self rfl
  · rw [List.mem_cons, hi.mem]
    exact or_iff_right fun he => hv (.inr he)
  · rcases hv with rfl | rfl
    · rw [hi.bound, hp]
      rfl
    · rw [hi.bound, hu]
      rfl
  · exact hi.bound v
  · trivial
  · refine hi.sound_quiet hw hw rfl fun _ => created_of_place fun thread h => ?_
    refine (hother ?_).trans h
    rintro (rfl | rfl)
    · rw [hp] at h
      cases h
    · rw [hu] at h
      cases h
      exact hv (.inl rfl)

theorem removeThread (hi : Inv s) (hw : s.waitingSuspend = false)
    (hp : s.place t = .entering .removeThread) : Inv (s.removeThread t) := by
  obtain ⟨hr, hc⟩ := hi.quiet hw
  obtain ⟨w, hwake, heq⟩ : ∃ w : Place T → Place T, (∀ q, w q = q ∨ w q = q.wakeFinishing)
      ∧ s.removeThread t = { s with
        runningThreads := s.runningThreads.erase t
        place := fun v => w (s.place v) }.goTo t .removed := by
    unfold State.removeThread State.unlessWaiting
    rw [if_neg (by simp [hw])]
    by_cases he : (s.runningThreads.erase t).isEmpty = true
    · exact ⟨Place.wakeFinishing, fun _ => .inr rfl, by simp [he]⟩
    · exact ⟨id, fun _ => .inl rfl, by simp [he]⟩
  have hkind : ∀ {β : Type} (f : Place T → β), (∀ q, f q.wakeFinishing = f q) →
      ∀ q, f (w q) = f q := fun f hf q => by
    rcases hwake q with h | h
    · rw [h]
    · rw [h, hf]
  rw [heq]
  refine of_quiet hw hr hc rfl (hi.nodup.erase t) (fun v => ?_) (fun v => ?_) fun v => ?_
  all_goals
    dsimp only [State.goTo, State.put]
    by_cases hv : v = t
    on_goal 1 => rw [hv, Function.update_self]
    on_goal 2 => rw [Function.update_of_ne hv]
  · exact iff_of_false (hi.nodup.not_mem_erase) (by simp [Place.isAlive])
  · rw [hi.nodup.mem_erase_iff, hkind Place.isAlive (fun q => by cases q <;> rfl), hi.mem]
    exact and_iff_right hv
  · rw [hi.bound, hp]
    rfl
  · rw [hkind Place.isFree (fun q => by cases q <;> rfl), hi.bound]
  · trivial
  · have hsound : Sound { s with
        runningThreads := s.runningThreads.erase t
        place := Function.update (fun v => w (s.place v)) t .removed
        globalInterpLock := none } v (s.place v) := by
      refine hi.sound_quiet hw hw rfl fun _ => created_of_place fun thread h => ?_
      have hne : thread ≠ t := fun he => by
        rw [he, hp] at h
        cases h
      change Function.update (fun v => w (s.place v)) t .removed thread = _
      rw [Function.update_of_ne hne, h]
      rcases hwake (.starting v) with h' | h' <;> exact h'
    rcases hwake (s.place v) with h | h
    · rw [h]
      exact hsound
    · rw [h]
      rcases hq : s.place v with _ | _ | _ | _ | _ | _ | _ | _ | _ | _ | _
        <;> rw [hq] at hsound <;> exact hsound

theorem unlessWaiting (hi : Inv s) {rest : State T → State T} (hp : s.place t = .entering sec)
    (hf : sec.isFinal = false) (hb : sec.isBind = false)
    (hr : s.waitingSuspend = false → Inv (rest s)) : Inv (s.unlessWaiting t sec rest) := by
  unfold State.unlessWaiting
  split
  next hw =>
    refine hi.suspend (hi.mem_toStop.2 ⟨hw, ?_, ?_, ?_⟩) hp
    · simp [hp, Place.isAlive, hf]
    · simp [hp, Place.isFree, hb]
    · rw [hp]
      rfl
  next hw => exact hr (Bool.eq_false_of_not_eq_true hw)

/-- A thread that leaves `wait_gc_finish` has to stop for the next collection. -/
theorem leave_cases (hi : Inv s) {id : UInt64} (hp : s.place t = .stopped sec id false)
    (hg : (s.runningGc && s.gcId == id) = false) :
    SameKind s t .running ∧ s.leave t sec = s.goTo t .running
      ∨ SameKind s t (.entering sec) ∧ s.leave t sec = s.keepLock t (.entering sec)
        ∧ sec.isLoop = true := by
  have hs := hi.sound t
  rw [hp] at hs
  have hkind : ∀ q : Place T, q.isAlive = true → q.isFree = sec.isBind → q.collects = false →
      q.mustStop s.gcId = true → SameKind s t q := fun q h₁ h₂ h₃ h₄ => by
    refine .of hp ?_ h₂ h₃ (fun hw _ _ => ?_) fun _ h => nomatch h
    · rw [h₁]
      simp [Place.isAlive, hs.1]
    · rw [h₄]
      refine (bne_iff_ne.2 fun he => ?_).symm
      rw [hi.gc, hw, he] at hg
      simp at hg
  have hent := hkind (.entering sec) (by simp [Place.isAlive, hs.1]) rfl rfl rfl
  cases sec with
  | alloc => exact .inl ⟨hkind _ rfl rfl rfl rfl, rfl⟩
  | perform => exact .inl ⟨hkind _ rfl rfl rfl rfl, rfl⟩
  | _ => exact .inr ⟨hent, rfl, rfl⟩

theorem leave (hi : Inv s) {id : UInt64} (hp : s.place t = .stopped sec id false)
    (hl : s.globalInterpLock = none) (hg : (s.runningGc && s.gcId == id) = false) :
    Inv (s.leave t sec) := by
  have hs := hi.sound t
  rw [hp] at hs
  rcases hi.leave_cases hp hg with ⟨hk, h⟩ | ⟨hk, h, hloop⟩ <;> rw [h]
  · exact hi.put hk (.inr ⟨.inl hl, .inl rfl⟩) trivial
  · refine hi.put hk (.inr ⟨.inl hl, .inr ⟨rfl, by simp [Place.keeps, hs.1, hloop]⟩⟩)
      ⟨fun h => ?_, created_put hk.2.2.2.2 hs.2.2.2⟩
    rw [h] at hloop
    cases hloop

theorem waitGcFinishLoop (hi : Inv s) {id : UInt64} (hp : s.place t = .stopped sec id false)
    (hl : s.globalInterpLock = none) : Inv (s.waitGcFinishLoop t sec id) := by
  unfold State.waitGcFinishLoop
  split
  next hg =>
    rw [Bool.and_eq_true, beq_iff_eq] at hg
    have hs := hi.sound t
    rw [hp] at hs
    have hk : SameKind s t (.stopped sec id true) :=
      .of hp rfl rfl rfl (fun _ _ _ => rfl) fun _ h => nomatch h
    exact hi.put hk (.inr ⟨.inl hl, .inl rfl⟩)
      ⟨hs.1, fun _ => ⟨hi.gc ▸ hg.1, hg.2.symm⟩, hs.2.2.1, created_put hk.2.2.2.2 hs.2.2.2⟩
  next hg => exact hi.leave hp hl (Bool.eq_false_of_not_eq_true hg)

theorem waitSuspend (hi : Inv s) (hb : s.runningThreads.length < 2 ^ 64)
    (hp : s.place t = .collecting false) (hl : s.globalInterpLock = none) :
    Inv (s.waitSuspend t) := by
  have hs := hi.sound t
  rw [hp] at hs
  have hk : ∀ q : Place T, q.collects = true → SameKind s t q := fun q hq => by
    rcases q with _ | _ | _ | _ | _ | _ | _ | _ | _ | _ | _ <;> try cases hq
    all_goals exact .of hp rfl rfl rfl (fun _ _ _ => rfl) fun _ h => nomatch h
  unfold State.waitSuspend
  split
  next hc =>
    refine hi.put (hk _ rfl) (.inr ⟨.inl hl, .inl rfl⟩) ⟨hs.1, fun _ => ?_⟩
    rw [hi.toStop_put (hk _ rfl)]
    exact hi.toStop_ne_nil hc
  next hc =>
    refine hi.put (hk _ rfl) (.inr ⟨.inl hl, .inr ⟨rfl, rfl⟩⟩) ⟨hs.1, ?_, rfl⟩
    rw [hi.toStop_put (hk _ rfl)]
    exact hi.toStop_eq_nil hb (not_not.1 hc)

/-- A thread that is not among the running ones goes from one such place to another. -/
theorem put_dead (hi : Inv s) (hp : (s.place t).isAlive = false) (hq : p.isAlive = false)
    (hf : (s.place t).isFree = false) (hf' : p.isFree = false) (hstart : ∀ c, s.place t ≠ .starting c)
    (hl : l = s.globalInterpLock ∧ l ≠ some t ∨ s.Unlocked t ∧ l = none)
    (hs : Sound (s.put t p l) t p) : Inv (s.put t p l) := by
  have hcol : ∀ q : Place T, q.isAlive = false → q.collects = false := fun q h => by
    cases q <;> first | rfl | cases h
  refine hi.put ⟨by rw [hp, hq], by rw [hf, hf'], by rw [hcol _ hp, hcol _ hq], ?_, hstart⟩
    (hl.imp_right fun h => ⟨h.1, .inl h.2⟩) hs
  exact fun _ h => by rw [hq] at h; cases h

theorem waitThreads (hi : Inv s) (hp : (s.place t).isAlive = false)
    (hf : (s.place t).isFree = false) (hstart : ∀ c, s.place t ≠ .starting c) (hu : s.Unlocked t) :
    Inv (s.waitThreads t) := by
  unfold State.waitThreads
  split
  · exact hi.put_dead hp rfl hf rfl hstart (.inr ⟨hu, rfl⟩) trivial
  · exact hi.put_dead hp rfl hf rfl hstart (.inr ⟨hu, rfl⟩) trivial

theorem bindToGc (hi : Inv s) (hp : s.place t = .entering .bindToGc) (hu : s.Unlocked t) :
    Inv (s.bindToGc t) := by
  unfold State.bindToGc
  split
  next hw =>
    have hg : (s.runningGc && s.gcId == s.gcId) = true := by rw [hi.gc, hw, beq_self_eq_true]; rfl
    unfold State.waitGcFinish State.waitGcFinishLoop
    rw [if_pos hg]
    exact hi.put (.of hp rfl rfl rfl (fun _ _ h => nomatch h) fun _ h => nomatch h)
      (.inr ⟨hu, .inl rfl⟩) ⟨rfl, fun _ => ⟨hw, rfl⟩, fun _ h => (nomatch h), trivial⟩
  next hw => exact hi.rebind (Bool.eq_false_of_not_eq_true hw) hp rfl (.inr rfl)

theorem enter (hi : Inv s) (hb : s.runningThreads.length < 2 ^ 64) (hp : s.place t = .entering sec)
    (hu : s.Unlocked t) (hc : sec = .waitFinish → s.waitingSuspend = false) :
    Inv (s.enter t sec) := by
  have hs := hi.sound t
  rw [hp] at hs
  cases sec with
  | alloc =>
    refine hi.suspend (hi.mem_toStop.2 ⟨hs.1 rfl, ?_⟩) hp
    rw [hp]
    exact ⟨rfl, rfl, rfl⟩
  | perform =>
    by_cases hw : s.waitingSuspend = true
    · have : s.perform t = s.unlessWaiting t .perform id := by
        unfold State.perform State.unlessWaiting
        rw [if_pos hw, if_pos hw]
      change Inv (s.perform t)
      rw [this]
      exact hi.unlessWaiting hp rfl rfl fun h => absurd (hw.symm.trans h) Bool.noConfusion
    · exact hi.perform hb (Bool.eq_false_of_not_eq_true hw) hp
  | freeFromGc =>
    change Inv (s.freeFromGc t)
    unfold State.freeFromGc
    exact hi.unlessWaiting hp rfl rfl fun hw => hi.rebind hw hp rfl (.inl rfl)
  | bindToGc => exact hi.bindToGc hp hu
  | addThread u =>
    change Inv (s.addThread t u)
    unfold State.addThread
    refine hi.unlessWaiting hp rfl rfl fun hw => ?_
    have := hi.addThread hw hp
    unfold State.addThread State.unlessWaiting at this
    rwa [if_neg (by simp [hw])] at this
  | removeThread =>
    change Inv (s.removeThread t)
    unfold State.removeThread
    refine hi.unlessWaiting hp rfl rfl fun hw => ?_
    have := hi.removeThread hw hp
    unfold State.removeThread State.unlessWaiting at this
    rwa [if_neg (by simp [hw])] at this
  | waitFinish =>
    have hw := hc rfl
    change Inv (s.waitFinish t)
    unfold State.waitFinish State.unlessWaiting
    rw [if_neg (by simp [hw])]
    exact hi.waitThreads (by rw [hp]; rfl) (by rw [hp]; rfl) (by rw [hp]; exact fun _ h => by cases h) hu

theorem move (hi : Inv s) (hk : SameKind s t p) (hkeep : (s.place t).keeps = false)
    (hs : Sound (s.move t p) t p) : Inv (s.move t p) := by
  refine hi.put hk (.inl ⟨rfl, fun hl => ?_⟩) hs
  rw [hi.lock t hl] at hkeep
  cases hkeep

/-- A running thread gets to a section. -/
theorem move_entering (hi : Inv s) (hp : s.place t = .running) (hf : sec.isFinal = false)
    (hb : sec.isBind = false) (ha : sec = .alloc → s.waitingSuspend = true)
    (hc : Created (s.move t (.entering sec)) t sec) : Inv (s.move t (.entering sec)) :=
  hi.move (.of hp (by simp [Place.isAlive, hf]) (by simp [Place.isFree, hb]) rfl (fun _ _ _ => rfl)
    fun _ h => nomatch h) (by rw [hp]; rfl) ⟨ha, hc⟩

theorem call (hi : Inv s) {main : T} (h : call main s t sec = some s') : Inv s' := by
  unfold StopTheWorld.call at h
  split at h
  next hp =>
    split at h
    next hw =>
      cases h
      exact hi.move_entering hp rfl rfl (fun _ => hw) trivial
    · cases h
  next hp =>
    cases h
    exact hi.move_entering hp rfl rfl (fun h => nomatch h) trivial
  next hp =>
    cases h
    exact hi.move_entering hp rfl rfl (fun h => nomatch h) trivial
  next hp =>
    cases h
    exact hi.move (.of hp rfl rfl rfl (fun _ _ _ => rfl) fun _ h => nomatch h) (by rw [hp]; rfl)
      ⟨fun h => (nomatch h), trivial⟩
  next thread hp =>
    split at h
    next hu =>
      cases h
      have hi' : Inv (s.move thread (.starting t)) :=
        hi.move (.of hu rfl rfl rfl (fun _ h => nomatch h) fun _ h => nomatch h) (by rw [hu]; rfl)
          trivial
      have hne : t ≠ thread := fun he => by
        rw [← he, hp] at hu
        cases hu
      refine hi'.move_entering ?_ rfl rfl (fun h => nomatch h) ?_
      · exact (Function.update_of_ne hne ..).trans hp
      · exact (Function.update_of_ne hne.symm ..).trans (Function.update_self ..)
    · cases h
  next hp =>
    cases h
    exact hi.move_entering hp rfl rfl (fun h => nomatch h) trivial
  next hp =>
    split at h
    · cases h
      exact hi.put_dead (by rw [hp]; rfl) rfl (by rw [hp]; rfl) rfl
        (by rw [hp]; exact fun _ h => nomatch h)
        (.inl ⟨rfl, fun hl => by have := hi.lock t hl; rw [hp] at this; cases this⟩)
        ⟨fun h => (nomatch h), trivial⟩
    · cases h
  · cases h

theorem wake (hi : Inv s) (h : wake s t = some s') : Inv s' := by
  have hs := hi.sound t
  unfold StopTheWorld.wake at h
  split at h
  next sec id hp =>
    cases h
    rw [hp] at hs
    have hk : SameKind s t (.stopped sec id false) :=
      .of hp rfl rfl rfl (fun _ _ _ => rfl) fun _ h => nomatch h
    exact hi.move hk (by rw [hp]; rfl)
      ⟨hs.1, fun h => (nomatch h), hs.2.2.1, created_put hk.2.2.2.2 hs.2.2.2⟩
  next hp =>
    cases h
    rw [hp] at hs
    exact hi.move (.of hp rfl rfl rfl (fun _ _ _ => rfl) fun _ h => nomatch h) (by rw [hp]; rfl)
      ⟨hs.1, fun h => nomatch h⟩
  next hp =>
    cases h
    exact hi.move (.of hp rfl rfl rfl (fun _ h => nomatch h) fun _ h => nomatch h) (by rw [hp]; rfl)
      trivial
  · cases h

theorem resume (hi : Inv s) (hb : s.runningThreads.length < 2 ^ 64)
    (hl : s.globalInterpLock = none) (h : resume s t = some s') : Inv s' := by
  unfold StopTheWorld.resume at h
  split at h
  next hp =>
    cases h
    exact hi.waitGcFinishLoop hp hl
  next hp =>
    cases h
    exact hi.waitSuspend hb hp hl
  next hp =>
    cases h
    exact hi.waitThreads (by rw [hp]; rfl) (by rw [hp]; rfl)
      (by rw [hp]; exact fun _ h => nomatch h) (.inl hl)
  · cases h

end Inv

/-- Not the main thread, about to wait for the other threads while a collection waits for some. -/
def Calm (s : State T) (op : Op T) : Prop :=
  op.2 = .enter → s.place op.1 = .entering .waitFinish → s.waitingSuspend = false

variable [DecidableEq T]

theorem Inv.step (hi : Inv s) (hb : s.runningThreads.length < 2 ^ 64) {main : T} {op : Op T}
    (hc : Calm s op) (h : step main s op = some s') : Inv s' := by
  obtain ⟨t, a⟩ := op
  cases a with
  | call sec => exact hi.call h
  | enter =>
    change StopTheWorld.enter s t = some s' at h
    unfold StopTheWorld.enter at h
    split at h
    next sec hp =>
      split at h
      next hu =>
        cases h
        exact hi.enter hb hp hu fun he => hc rfl (by rw [hp, he])
      · cases h
    · cases h
  | wake => exact hi.wake h
  | resume =>
    by_cases hl : s.globalInterpLock = none
    · exact hi.resume hb hl ((if_pos hl).symm.trans h)
    · exact absurd ((if_neg hl).symm.trans h) (by simp)
  | endGc =>
    change StopTheWorld.endGc s t = some s' at h
    unfold StopTheWorld.endGc at h
    split at h
    next hp =>
      cases h
      exact hi.endGc hp
    · cases h

theorem inv_start (main : T) : Inv (start main) := by
  have hplace : ∀ t, (start main).place t = if t = main then .running else .unborn := fun t => by
    unfold start
    by_cases h : t = main <;> simp [h]
  refine .of_quiet rfl rfl rfl rfl (List.nodup_singleton _) (fun t => ?_) (fun t => ?_) fun t => ?_
  all_goals
    rw [hplace]
    by_cases h : t = main
    on_goal 1 => rw [if_pos h]
    on_goal 2 => rw [if_neg h]
  · exact iff_of_true (List.mem_singleton.2 h) rfl
  · exact iff_of_false (fun hm => h (List.mem_singleton.1 hm)) (by simp [Place.isAlive])
  · rfl
  · rfl
  · trivial
  · trivial

end Invariant

section Progress

variable [DecidableEq T] {main : T} {s s' s'' : State T} {t : T} {sec : Section T} {op : Op T}

/-- Steps that no thread takes without a reason go from a state to another. -/
def Leads (main : T) (s s' : State T) : Prop :=
  ∃ ops : List (Op T), (∀ op ∈ ops, op.2 ≠ .wake) ∧ ops.foldlM (step main) s = some s'

theorem Leads.refl (s : State T) : Leads main s s := ⟨[], by simp, rfl⟩

theorem Leads.head (h : step main s op = some s') (hw : op.2 ≠ .wake) (hl : Leads main s' s'') :
    Leads main s s'' := by
  obtain ⟨ops, hops, hr⟩ := hl
  refine ⟨op :: ops, List.forall_mem_cons.2 ⟨hw, hops⟩, ?_⟩
  rw [List.foldlM_cons, h]
  exact hr

theorem Leads.single (h : step main s op = some s') (hw : op.2 ≠ .wake) : Leads main s s' :=
  .head h hw (.refl s')

theorem Leads.trans (h : Leads main s s') (h' : Leads main s' s'') : Leads main s s'' := by
  obtain ⟨ops, hops, hr⟩ := h
  obtain ⟨ops', hops', hr'⟩ := h'
  refine ⟨ops ++ ops', fun op hop => ?_, ?_⟩
  · exact (List.mem_append.1 hop).elim (hops op) (hops' op)
  · rw [List.foldlM_append, hr]
    exact hr'

theorem step_enter (hp : s.place t = .entering sec) (hu : s.Unlocked t) :
    step main s (t, .enter) = some (s.enter t sec) := by
  change enter s t = _
  unfold enter
  rw [hp]
  exact if_pos hu

theorem step_endGc (hp : s.place t = .gc) : step main s (t, .endGc) = some (s.endGc t) := by
  change endGc s t = _
  unfold endGc
  rw [hp]

theorem step_resume (hl : s.globalInterpLock = none) :
    step main s (t, .resume) = resume s t :=
  if_pos hl

namespace Inv

theorem unlessWaiting_fields (hi : Inv s) {rest : State T → State T}
    (hl : (rest s).globalInterpLock = none) (hw : (rest s).waitingSuspend = s.waitingSuspend) :
    (s.unlessWaiting t sec rest).globalInterpLock = none
      ∧ (s.unlessWaiting t sec rest).waitingSuspend = s.waitingSuspend
      ∧ (s.waitingSuspend = true →
        (s.unlessWaiting t sec rest).runningThreads = s.runningThreads) := by
  unfold State.unlessWaiting
  split
  next hw =>
    rw [suspend_eq (by rw [hi.gc, hw])]
    exact ⟨rfl, rfl, fun _ => rfl⟩
  next hn => exact ⟨hl, hw, fun h => absurd h hn⟩

/-- A section that stands at the head of its loop does not end with the lock taken. -/
theorem enter_fields (hi : Inv s) (hloop : sec.isLoop = true) :
    (s.enter t sec).globalInterpLock = none
      ∧ (s.enter t sec).waitingSuspend = s.waitingSuspend
      ∧ (s.waitingSuspend = true → (s.enter t sec).runningThreads = s.runningThreads) := by
  cases sec with
  | alloc => cases hloop
  | perform => cases hloop
  | freeFromGc => exact hi.unlessWaiting_fields rfl rfl
  | addThread u => exact hi.unlessWaiting_fields rfl rfl
  | removeThread =>
    refine hi.unlessWaiting_fields rfl ?_
    dsimp only
    split <;> rfl
  | waitFinish =>
    refine hi.unlessWaiting_fields ?_ ?_
    all_goals
      unfold State.waitThreads
      split <;> rfl
  | bindToGc =>
    change (s.bindToGc t).globalInterpLock = none ∧ (s.bindToGc t).waitingSuspend = _
      ∧ (_ → (s.bindToGc t).runningThreads = _)
    unfold State.bindToGc
    split
    next hw =>
      have hg : (s.runningGc && s.gcId == s.gcId) = true := by
        rw [hi.gc, hw, beq_self_eq_true]
        rfl
      unfold State.waitGcFinish State.waitGcFinishLoop
      rw [if_pos hg]
      exact ⟨rfl, rfl, fun _ => rfl⟩
    next hw => exact ⟨rfl, rfl, fun h => absurd h hw⟩

/-- Whoever keeps the lock can go on and release it. -/
theorem exists_unlocked (hi : Inv s) (main : T) (hb : s.runningThreads.length < 2 ^ 64) :
    ∃ s', Leads main s s' ∧ Inv s' ∧ s'.globalInterpLock = none
      ∧ (s'.waitingSuspend = true → s'.runningThreads.length < 2 ^ 64) := by
  rcases hl : s.globalInterpLock with _ | t
  · exact ⟨s, .refl s, hi, hl, fun _ => hb⟩
  · have hk := hi.lock t hl
    rcases hp : s.place t with _ | _ | _ | sec | _ | _ | _ | _ | _ | _ | _ <;> rw [hp] at hk
    case entering =>
      unfold Place.keeps at hk
      rw [Bool.and_eq_true, Bool.not_eq_true'] at hk
      obtain ⟨hloop, hfinal⟩ := hk
      obtain ⟨hnone, hsame, hrun⟩ := hi.enter_fields (t := t) hloop
      refine ⟨_, .single (step_enter hp (.inr hl)) nofun, hi.enter hb hp (.inr hl) fun he => ?_, hnone,
        fun hw => ?_⟩
      · rw [he] at hfinal
        cases hfinal
      · rw [hrun (hsame ▸ hw)]
        exact hb
    case gc =>
      exact ⟨_, .single (step_endGc hp) nofun, hi.endGc hp, rfl, fun h => nomatch h⟩
    all_goals cases hk

/-- In a section, a thread that has to stop stops. -/
theorem stop_entering (hi : Inv s) (main : T) (ht : t ∈ s.toStop) (hp : s.place t = .entering sec)
    (hu : s.Unlocked t) : ∃ s', Leads main s s' ∧ Inv s' ∧ s'.globalInterpLock = none
      ∧ s'.toStop = s.toStop.erase t ∧ s'.runningThreads = s.runningThreads := by
  obtain ⟨hw, halive, hfree, -⟩ := hi.mem_toStop.1 ht
  have hent : s.enter t sec = s.suspend t sec := by
    rw [hp] at halive hfree
    cases sec with
    | alloc => rfl
    | bindToGc => cases hfree
    | waitFinish => cases halive
    | _ => exact if_pos hw
  refine ⟨_, .single (step_enter hp hu) nofun, ?_⟩
  rw [hent]
  refine ⟨hi.suspend ht hp, ?_, hi.toStop_suspend hw t sec, ?_⟩
  all_goals
    rw [suspend_eq (by rw [hi.gc, hw])]

/-- From mutator code, a thread that has to stop allocates, and stops. -/
theorem stop_running (hi : Inv s) (main : T) (ht : t ∈ s.toStop) (hp : s.place t = .running)
    (hl : s.globalInterpLock = none) : ∃ s', Leads main s s' ∧ Inv s'
      ∧ s'.globalInterpLock = none ∧ s'.toStop = s.toStop.erase t
      ∧ s'.runningThreads = s.runningThreads := by
  obtain ⟨hw, -⟩ := hi.mem_toStop.1 ht
  have hcall : StopTheWorld.call main s t .alloc = some (s.move t (.entering .alloc)) := by
    unfold StopTheWorld.call
    rw [hp]
    exact if_pos hw
  have hstep : StopTheWorld.step main s (t, .call .alloc) = some (s.move t (.entering .alloc)) := hcall
  have hk : SameKind s t (.entering .alloc) :=
    .of hp rfl rfl rfl (fun _ _ _ => rfl) fun _ h => nomatch h
  have hsame : (s.move t (.entering .alloc)).toStop = s.toStop := hi.toStop_put hk
  obtain ⟨s', hleads, hi', hl', hstop, hrun⟩ := (hi.call hcall).stop_entering main
    (by rwa [hsame]) (Function.update_self ..) (.inl hl)
  exact ⟨s', .head hstep nofun hleads, hi', hl', by rw [hstop, hsame], hrun⟩

/-- A thread that has to stop can. -/
theorem stop_one (hi : Inv s) (main : T) (ht : t ∈ s.toStop) (hl : s.globalInterpLock = none) :
    ∃ s', Leads main s s' ∧ Inv s' ∧ s'.globalInterpLock = none
      ∧ s'.toStop = s.toStop.erase t ∧ s'.runningThreads = s.runningThreads := by
  obtain ⟨hw, halive, hfree, hstop⟩ := hi.mem_toStop.1 ht
  have hs := hi.sound t
  rcases hp : s.place t with _ | _ | _ | sec | ⟨sec, id, asleep⟩ | asleep | _ | _ | _ | _ | _
    <;> rw [hp] at hs halive hfree hstop
  case running => exact hi.stop_running main ht hp hl
  case entering => exact hi.stop_entering main ht hp (.inl hl)
  case stopped =>
    have hne : id ≠ s.gcId := bne_iff_ne.1 hstop
    have hawake : asleep = false := by
      by_contra ha
      exact hne (hs.2.1 (Bool.eq_true_of_not_eq_false ha)).2
    subst hawake
    have hg : (s.runningGc && s.gcId == id) = false := by simp [Ne.symm hne]
    have hstep : StopTheWorld.step main s (t, .resume) = some (s.leave t sec) := by
      rw [step_resume hl]
      unfold StopTheWorld.resume
      rw [hp]
      simp only [State.waitGcFinishLoop, hg]
      rfl
    have hi' := hi.leave hp hl hg
    rcases hi.leave_cases hp hg with ⟨hk, h⟩ | ⟨hk, h, -⟩ <;> rw [h] at hi' hstep
    · have hsame : (s.goTo t .running).toStop = s.toStop := hi.toStop_put hk
      obtain ⟨s', hleads, hi'', hl', hstop', hrun⟩ := hi'.stop_running main
        (by rwa [hsame]) (Function.update_self ..) rfl
      exact ⟨s', .head hstep nofun hleads, hi'', hl', by rw [hstop', hsame], hrun⟩
    · have hsame : (s.keepLock t (.entering sec)).toStop = s.toStop := hi.toStop_put hk
      obtain ⟨s', hleads, hi'', hl', hstop', hrun⟩ := hi'.stop_entering main
        (by rwa [hsame]) (Function.update_self ..) (.inr rfl)
      exact ⟨s', .head hstep nofun hleads, hi'', hl', by rw [hstop', hsame], hrun⟩
  case freed => cases hfree
  case collecting => cases hstop
  case gc => cases hstop
  all_goals cases halive

/-- All threads that have to stop can. -/
theorem exists_stopped (hi : Inv s) (main : T) (hl : s.globalInterpLock = none) :
    ∃ s', Leads main s s' ∧ Inv s' ∧ s'.globalInterpLock = none ∧ s'.toStop = []
      ∧ s'.runningThreads = s.runningThreads := by
  induction hn : s.toStop.length generalizing s with
  | zero => exact ⟨s, .refl s, hi, hl, List.length_eq_zero_iff.1 hn, rfl⟩
  | succ n ih =>
    obtain ⟨t, ht⟩ := List.exists_mem_of_length_pos (by rw [hn]; exact Nat.succ_pos n)
    obtain ⟨s₁, hleads, hi₁, hl₁, hstop, hrun⟩ := hi.stop_one main ht hl
    obtain ⟨s₂, hleads', hi₂, hl₂, hnil, hrun'⟩ := ih hi₁ hl₁ (by
      rw [hstop, List.length_erase_of_mem ht, hn]
      rfl)
    exact ⟨s₂, hleads.trans hleads', hi₂, hl₂, hnil, hrun'.trans hrun⟩

/-- A collection that waits can take place. -/
theorem exists_quiet (hi : Inv s) (main : T) (hb : s.runningThreads.length < 2 ^ 64)
    (hl : s.globalInterpLock = none) : ∃ s', Leads main s s' ∧ Inv s'
      ∧ s'.globalInterpLock = none ∧ s'.waitingSuspend = false := by
  obtain ⟨s₁, hleads, hi₁, hl₁, hnil, hrun⟩ := hi.exists_stopped main hl
  rw [← hrun] at hb
  rcases hw : s₁.waitingSuspend with _ | _
  · exact ⟨s₁, hleads, hi₁, hl₁, hw⟩
  · obtain ⟨t, ht⟩ := hi₁.collector hw
    have hs := hi₁.sound t
    rcases hp : s₁.place t with _ | _ | _ | _ | _ | asleep | _ | _ | _ | _ | _ <;> rw [hp] at hs ht
    case collecting =>
      have hawake : asleep = false := by
        by_contra ha
        exact hs.2 (Bool.eq_true_of_not_eq_false ha) hnil
      subst hawake
      have hzero : s₁.suspendCounter = 0 := by
        rw [hi₁.counter, hnil]
        rfl
      have hstep : StopTheWorld.step main s₁ (t, .resume) = some (s₁.keepLock t .gc) := by
        rw [step_resume hl₁]
        unfold StopTheWorld.resume
        rw [hp]
        exact congrArg some (if_neg (not_not.2 hzero))
      have hi₂ := hi₁.step hb (fun h => by cases h) hstep
      have hgc : (s₁.keepLock t .gc).place t = .gc := Function.update_self ..
      exact ⟨_, hleads.trans (.head hstep nofun (.single (step_endGc hgc) nofun)), hi₂.endGc hgc,
        rfl, rfl⟩
    case gc =>
      exact absurd (hl₁.symm.trans hs.2.2) (by simp)
    all_goals cases ht

/-- Whoever waits for the threads to stop, or for the end of a collection, can be released. -/
theorem exists_released (hi : Inv s) (main : T) (hb : s.runningThreads.length < 2 ^ 64) (t : T) :
    ∃ s', Leads main s s' ∧ (s'.place t).waits = false := by
  obtain ⟨s₁, hleads, hi₁, hl₁, hb₁⟩ := hi.exists_unlocked main hb
  obtain ⟨s₂, hleads', hi₂, hl₂, hw⟩ : ∃ s₂, Leads main s₁ s₂ ∧ Inv s₂
      ∧ s₂.globalInterpLock = none ∧ s₂.waitingSuspend = false := by
    rcases hw : s₁.waitingSuspend with _ | _
    · exact ⟨s₁, .refl s₁, hi₁, hl₁, hw⟩
    · exact hi₁.exists_quiet main (hb₁ hw) hl₁
  have hs := hi₂.sound t
  have hcol := hi₂.not_collects hw t
  rcases hp : s₂.place t with _ | _ | _ | sec | ⟨sec, id, asleep⟩ | asleep | _ | _ | _ | _ | _
    <;> rw [hp] at hs hcol
  case stopped =>
    have hawake : asleep = false := by
      by_contra ha
      have := (hs.2.1 (Bool.eq_true_of_not_eq_false ha)).1
      rw [hw] at this
      cases this
    subst hawake
    have hg : (s₂.runningGc && s₂.gcId == id) = false := by rw [hi₂.gc, hw, Bool.false_and]
    have hstep : StopTheWorld.step main s₂ (t, .resume) = some (s₂.leave t sec) := by
      rw [step_resume hl₂]
      unfold StopTheWorld.resume
      rw [hp]
      simp only [State.waitGcFinishLoop, hg]
      rfl
    refine ⟨_, (hleads.trans hleads').trans (.single hstep nofun), ?_⟩
    rcases hi₂.leave_cases hp hg with ⟨-, h⟩ | ⟨-, h, -⟩
    · rw [h]
      exact congrArg Place.waits (Function.update_self t .running s₂.place)
    · rw [h]
      exact congrArg Place.waits (Function.update_self t (.entering sec) s₂.place)
  case collecting => cases hcol
  all_goals exact ⟨s₂, hleads.trans hleads', by rw [hp]; rfl⟩

end Inv

end Progress

section Protocol

variable [DecidableEq T] {main : T} {s s' : State T} {op : Op T}

/-- The collector has the world to itself, the suspend counter is the number of bound threads that
still have to stop, and whoever waits can be released. -/
structure Safe (main : T) (s : State T) : Prop where
  alone : ∀ t u, s.place t = .gc → (s.place u).mutates = false
  one : ∀ t u, (s.place t).collects = true → (s.place u).collects = true → t = u
  counter : s.suspendCounter.toNat = s.toStop.length
  released : ∀ t, (s.place t).waits = true →
    ∃ s', Leads main s s' ∧ (s'.place t).waits = false

theorem Inv.safe (hi : Inv s) (hb : s.runningThreads.length < 2 ^ 64) : Safe main s := by
  refine ⟨fun t u ht => ?_, hi.one, hi.toNat_counter hb, fun t _ => hi.exists_released main hb t⟩
  have hs := hi.sound t
  rw [ht] at hs
  by_contra hm
  have : u ∈ s.toStop := hi.mem_toStop.2 ⟨hs.1, by
    rcases hp : s.place u with _ | _ | _ | sec | _ | _ | _ | _ | _ | _ | _ <;> rw [hp] at hm
      <;> simp_all [Place.mutates, Place.isAlive, Place.isFree, Place.mustStop]⟩
  rw [hs.2.1] at this
  cases this

/-- The main thread counts down, although nothing counted it. -/
theorem Inv.not_safe (hi : Inv s) (hb : s.runningThreads.length < 2 ^ 64) (hc : ¬Calm s op)
    (h : StopTheWorld.step main s op = some s') : ¬Safe main s' := by
  obtain ⟨t, a⟩ := op
  unfold Calm at hc
  push Not at hc
  obtain ⟨ha : a = _, hp : s.place t = _, hw⟩ := hc
  have hw := Bool.eq_true_of_not_eq_false hw
  have hs : s' = s.suspend t .waitFinish := by
    subst ha
    change StopTheWorld.enter s t = some s' at h
    unfold StopTheWorld.enter at h
    rw [hp] at h
    dsimp only at h
    split at h
    · exact (Option.some.inj h).symm.trans (if_pos hw)
    · cases h
  have ht : t ∉ s.toStop := fun ht => by
    have := (hi.mem_toStop.1 ht).2.1
    rw [hp] at this
    cases this
  intro hsafe
  have hcount := hsafe.counter
  rw [hs, hi.toStop_suspend hw, List.erase_of_not_mem ht, ← hi.toNat_counter hb,
    suspend_eq (by rw [hi.gc, hw]), UInt64.toNat_inj] at hcount
  have hadd := congrArg (· + 1) hcount
  simp at hadd

theorem run_append (main : T) (ops : List (Op T)) (op : Op T) :
    run main (ops ++ [op]) = (run main ops).bind fun s => step main s op := by
  unfold run
  rw [List.foldlM_append]
  simp

/-- **Stopping the world.** Every state of a run is safe exactly as long as the main thread does
not begin to wait for the others while a collection waits for threads. A thread is an object in
memory, so fewer than `2 ^ 64` of them are running. -/
theorem protocol_iff (main : T) (ops : List (Op T))
    (hp : ∀ pre, pre <+: ops → ∃ s, run main pre = some s ∧ s.runningThreads.length < 2 ^ 64) :
    (∀ pre, pre <+: ops → ∀ s, run main pre = some s → Safe main s)
      ↔ ∀ pre op, pre ++ [op] <+: ops → ∀ s, run main pre = some s → Calm s op := by
  refine @prefixes_iff _
    (fun pre op => ∃ s, run main (pre ++ [op]) = some s ∧ s.runningThreads.length < 2 ^ 64) _
    (fun pre => ∃ s, run main pre = some s ∧ s.runningThreads.length < 2 ^ 64 ∧ Inv s) _
    ⟨_, rfl, by simp [start], inv_start main⟩ ?_ ?_ ?_ ops fun pre op h => hp _ h
  · rintro pre op ⟨s', hr', hb'⟩ hok ⟨s, hr, hb, hi⟩
    refine ⟨s', hr', hb', ?_⟩
    rw [run_append, hr] at hr'
    exact hi.step hb (hok s hr) hr'
  · rintro pre ⟨s, hr, hb, hi⟩ s' hr'
    obtain rfl := Option.some.inj (hr.symm.trans hr')
    exact hi.safe hb
  · rintro pre op ⟨s', hr', -⟩ hok ⟨s, hr, hb, hi⟩ hP
    push Not at hok
    obtain ⟨s₁, hr₁, hc⟩ := hok
    obtain rfl := Option.some.inj (hr.symm.trans hr₁)
    refine hi.not_safe hb hc ?_ (hP s' hr')
    rwa [run_append, hr] at hr'

/-- The main thread starts another one, which collects. -/
theorem protocol_iff_two :
    (∀ pre, pre <+: [((0 : Nat), .call (.addThread 1)), (0, .enter), (1, .call .perform), (1, .enter),
        (0, .call .alloc), (0, .enter), (1, .resume), (1, .endGc)] →
      ∀ s, run 0 pre = some s → Safe 0 s)
      ↔ ∀ pre op, pre ++ [op] <+: [((0 : Nat), .call (.addThread 1)), (0, .enter),
        (1, .call .perform), (1, .enter), (0, .call .alloc), (0, .enter), (1, .resume), (1, .endGc)] →
      ∀ s, run 0 pre = some s → Calm s op := by
  refine protocol_iff 0 _ fun pre h => ?_
  have := (List.mem_inits _ _).2 h
  simp only [List.inits, List.map_cons, List.map_nil, List.mem_cons, List.not_mem_nil,
    or_false] at this
  rcases this with rfl | rfl | rfl | rfl | rfl | rfl | rfl | rfl | rfl
  all_goals exact ⟨_, rfl, by decide⟩

/-- The main thread finishes while one of two other threads waits for the other to stop. -/
theorem not_safe_late :
    ¬∀ pre, pre <+: [((0 : Nat), .call (.addThread 1)), (0, .enter), (0, .call (.addThread 2)),
        (0, .enter), (0, .call .removeThread), (0, .enter), (1, .call .perform), (1, .enter),
        (0, .call .waitFinish), (0, .enter), (1, .resume)] →
      ∀ s, run 0 pre = some s → Safe 0 s := by
  intro h
  have := (h _ (List.prefix_refl _) _ rfl).alone 1 2 rfl
  cases this

end Protocol

end StopTheWorld

end Yog
