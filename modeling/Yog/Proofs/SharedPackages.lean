import Yog.Proofs.Imports
import Mathlib.Data.List.Nodup
import Mathlib.Logic.IsEmpty.Basic

/-!
# Packages that threads share

A name has at most one load, in the calls of one thread (`Inv`): those who find the placeholder wait
for this load, and are told when it has ended. So all importers of a package get what its load put
into the placeholder, and get it after the body (`good_of_proper`).

The order of the steps does not always allow that. A script has its package in the table before its
body runs, for every thread to find. A thread that is about to wait when the others are told has
tested the placeholder, and waits for good.
-/

namespace Yog

namespace Packages

variable {T N : Type} [DecidableEq T] [DecidableEq N]

namespace Load

/-- The body has completed. -/
def isComplete : Load T → Bool
  | loaded _ _ => true
  | ended => true
  | _ => false

/-- The thread itself is in the body. -/
def isOwn (t : T) : Load T → Bool
  | loading u _ => u = t
  | _ => false

end Load

/-- What threads that import packages are to get. -/
structure Good (s : State T N) : Prop where
  once : ∀ n, s.bodies.count n ≤ (s.results.countP fun r => r.name = n ∧ r.pkg = none) + 1
  same : ∀ r ∈ s.results, ∀ r' ∈ s.results, r.name = r'.name →
    ∀ p p', r.pkg = some p → r'.pkg = some p' → p = p'
  after : ∀ r ∈ s.results, r.pkg ≠ none →
    r.load.isComplete = true ∨ r.load.isOwn r.thread = true
  unblocked : ∀ t, ∀ c ∈ (s.calls t).head?, c.phase.waitsFor ≠ none →
    (s.load c.name).isOwn t = false
  awake : ∀ t n tmp, (s.calls t).head? = some ⟨n, .waiting tmp true⟩ →
    ∃ u, ∃ d ∈ s.calls u, d.name = n ∧ d.phase.loads = some tmp

/-- What the thread finds in the table is a package whose body has completed or that it is loading
itself, or the placeholder of a load that another thread is in. -/
def Settled (s : State T N) (t : T) (n : N) : Prop :=
  match s.pkgs n with
  | none => True
  | some (.package _) => (s.load n).isComplete = true ∨ (s.load n).isOwn t = true
  | some (.importing _) => s.load n ≠ .failed ∧ (s.load n).isOwn t = false

/-- No search finds what is not settled, nobody is about to wait when the others are told, and
nobody waits for a load that fails. -/
def Proper (s : State T N) : Action T N → Prop
  | .findRead t => ∀ c ∈ (s.calls t).head?, Settled s t c.name
  | .findWrite t => ∀ c ∈ (s.calls t).head?, Settled s t c.name
  | .finish t => ∀ c ∈ (s.calls t).head?, ∀ tmp ∈ c.phase.loads, ∀ u, ∀ d ∈ (s.calls u).head?,
    d.phase ≠ .pausing tmp
  | .raise t => ∀ c ∈ (s.calls t).head?, ∀ tmp ∈ c.phase.loads, ∀ u, ∀ d ∈ (s.calls u).head?,
    d.phase.waitsFor ≠ some tmp
  | _ => True

variable {s s' : State T N} {t u : T} {n m : N} {a : Action T N} {es : List (Action T N)}
  {c d : Call N} {rest calls : List (Call N)} {tmp : Tmp} {p : Pkg} {home home' : Tmp → N}

/-- The names of the packages that are being loaded. -/
def loadNames (calls : List (Call N)) : List N :=
  (calls.filter fun c => c.phase.loads.isSome).map Call.name

/-- All calls but the innermost are in code of packages, and no package is being loaded twice. -/
structure Stacked (calls : List (Call N)) : Prop where
  outer : ∀ d ∈ calls.tail, d.phase.runsCode = true
  nodup : (loadNames calls).Nodup

/-- What the table and the placeholder have, for how far the load of the name is. -/
def Status (s : State T N) (home : Tmp → N) (n : N) : Load T → Prop
  | .absent => s.pkgs n = none ∧ s.bodies.count n = 0
  | .loading _ tmp => s.pkg tmp = none ∧ home tmp = n ∧ tmp < s.nextTmp ∧
    (s.pkgs n = some (.importing tmp) ∨ ∃ p, s.pkgs n = some (.package p))
  | .loaded _ tmp => home tmp = n ∧ tmp < s.nextTmp ∧
    ∃ p, s.pkg tmp = some p ∧ (s.pkgs n = some (.importing tmp) ∨ s.pkgs n = some (.package p))
  | .ended => ∃ p, s.pkgs n = some (.package p)
  | .failed => ∃ e, s.pkgs n = some e ∧ ∀ tmp, e = .importing tmp → home tmp = n ∧ tmp < s.nextTmp

/-- The load that the thread waits for goes on. -/
def Pending (s : State T N) (t : T) (n : N) (tmp : Tmp) : Prop :=
  (∃ u, s.load n = .loading u tmp ∧ u ≠ t) ∨ ∃ u, s.load n = .loaded u tmp

/-- The load has ended, and the placeholder has the package. -/
def Told (s : State T N) (home : Tmp → N) (n : N) (tmp : Tmp) : Prop :=
  s.load n = .ended ∧ home tmp = n ∧ tmp < s.nextTmp ∧
    ∃ p, s.pkg tmp = some p ∧ s.pkgs n = some (.package p)

/-- What is so where a call of the thread is in this phase. -/
def Sound (s : State T N) (home : Tmp → N) (t : T) (n : N) : Phase → Prop
  | .entered => True
  | .missed => True
  | .importing tmp => s.load n = .loading t tmp ∧ s.pkgs n = some (.importing tmp) ∧
    s.bodies.count n = 0
  | .running tmp p => s.load n = .loading t tmp ∧ s.pkgs n = some (.package p)
  | .initializing tmp => s.load n = .loading t tmp ∧ s.pkgs n = some (.importing tmp)
  | .stored tmp => s.load n = .loaded t tmp
  | .testing tmp => Pending s t n tmp ∨ Told s home n tmp
  | .pausing tmp => Pending s t n tmp
  | .waiting tmp asleep => Pending s t n tmp ∨ asleep = false ∧ Told s home n tmp

/-- The package that importers get, once it is known. -/
def State.answer (s : State T N) (n : N) : Option Pkg :=
  match s.pkgs n with
  | none => none
  | some (.importing tmp) => s.pkg tmp
  | some (.package p) => some p

/-- `home` is the name that a placeholder is for. -/
structure Inv (s : State T N) (home : Tmp → N) : Prop where
  status : ∀ n, Status s home n (s.load n)
  sound : ∀ t, ∀ c ∈ s.calls t, Sound s home t c.name c.phase
  stacked : ∀ t, Stacked (s.calls t)
  active : ∀ n u tmp, s.load n = .loading u tmp ∨ s.load n = .loaded u tmp →
    ∃ c ∈ s.calls u, c.name = n ∧ c.phase.loads = some tmp
  once : ∀ n, s.bodies.count n ≤ 1
  results : ∀ r ∈ s.results, ∀ p, r.pkg = some p → s.answer r.name = some p ∧
    (r.load.isComplete = true ∨ r.load.isOwn r.thread = true)

omit [DecidableEq N] in
theorem loadNames_of_none (h : c.phase.loads = none) : loadNames (c :: rest) = loadNames rest := by
  unfold loadNames
  rw [List.filter_cons_of_neg (by simp [h])]

omit [DecidableEq N] in
theorem loadNames_of_loads (h : c.phase.loads ≠ none) :
    loadNames (c :: rest) = c.name :: loadNames rest := by
  unfold loadNames
  rw [List.filter_cons_of_pos (by simpa [Option.isSome_iff_ne_none] using h), List.map_cons]

omit [DecidableEq N] in
theorem mem_loadNames (hd : d ∈ calls) (hl : d.phase.loads ≠ none) : d.name ∈ loadNames calls :=
  List.mem_map_of_mem (List.mem_filter.2 ⟨hd, Option.isSome_iff_ne_none.2 hl⟩)

theorem loads_of_runsCode {ph : Phase} (h : ph.runsCode = true) : ph.loads ≠ none := by
  cases ph <;> simp [Phase.loads, Phase.runsCode] at h ⊢

namespace Stacked

omit [DecidableEq N]

theorem nil : Stacked ([] : List (Call N)) := ⟨by simp, .nil⟩

theorem push (h : Stacked calls) (hr : ∀ c ∈ calls.head?, c.phase.runsCode = true)
    (hn : c.phase.loads = none) : Stacked (c :: calls) where
  outer d hd := by
    rcases calls with _ | ⟨e, rest⟩
    · simp at hd
    · rcases List.mem_cons.1 hd with rfl | hd
      · exact hr d rfl
      · exact h.outer d hd
  nodup := by
    rw [loadNames_of_none hn]
    exact h.nodup

theorem pop (h : Stacked (c :: rest)) : Stacked rest where
  outer d hd := h.outer d (List.mem_of_mem_tail hd)
  nodup := by
    have hn := h.nodup
    by_cases hc : c.phase.loads = none
    · rwa [loadNames_of_none hc] at hn
    · rw [loadNames_of_loads hc] at hn
      exact (List.nodup_cons.1 hn).2

/-- The innermost call goes on. -/
theorem replace (h : Stacked (c :: rest)) (hname : d.name = c.name)
    (hl : d.phase.loads ≠ none → c.phase.loads ≠ none) : Stacked (d :: rest) where
  outer := h.outer
  nodup := by
    by_cases hd : d.phase.loads = none
    · rw [loadNames_of_none hd]
      exact h.pop.nodup
    · have hn := h.nodup
      rw [loadNames_of_loads (hl hd)] at hn
      rw [loadNames_of_loads hd, hname]
      exact hn

/-- The innermost call begins to load. -/
theorem load (h : Stacked (c :: rest)) (hn : ∀ e ∈ rest, e.phase.loads ≠ none → e.name ≠ d.name) :
    Stacked (d :: rest) where
  outer := h.outer
  nodup := by
    by_cases hd : d.phase.loads = none
    · rw [loadNames_of_none hd]
      exact h.pop.nodup
    · rw [loadNames_of_loads hd]
      refine List.nodup_cons.2 ⟨fun hm => ?_, h.pop.nodup⟩
      obtain ⟨e, he, hname⟩ := List.mem_map.1 hm
      obtain ⟨he, hl⟩ := List.mem_filter.1 he
      exact hn e he (Option.isSome_iff_ne_none.1 hl) hname

theorem ne_name (h : Stacked (c :: rest)) (hc : c.phase.loads ≠ none) (hd : d ∈ rest) :
    d.name ≠ c.name := by
  have hn := h.nodup
  rw [loadNames_of_loads hc, List.nodup_cons] at hn
  exact fun he => hn.1 (he ▸ mem_loadNames hd (loads_of_runsCode (h.outer d hd)))

theorem map_wake (h : Stacked calls) (tmp : Tmp) :
    Stacked (calls.map fun c => { c with phase := c.phase.wake tmp }) where
  outer d hd := by
    rw [← List.map_tail] at hd
    obtain ⟨e, he, rfl⟩ := List.mem_map.1 hd
    rw [runsCode_wake]
    exact h.outer e he
  nodup := by
    have hn : loadNames (calls.map fun c => { c with phase := c.phase.wake tmp }) = loadNames calls
        := by
      induction calls with
      | nil => rfl
      | cons c rest ih =>
        by_cases hc : c.phase.loads = none
        · rw [List.map_cons, loadNames_of_none (by simpa using hc), loadNames_of_none hc, ih h.pop]
        · rw [List.map_cons, loadNames_of_loads (by simpa using hc), loadNames_of_loads hc,
            ih h.pop]
    rw [hn]
    exact h.nodup

end Stacked

omit [DecidableEq T] in
theorem Sound.load {ph : Phase} (hs : Sound s home t n ph) (hl : ph.loads = some tmp) :
    s.load n = .loading t tmp ∨ s.load n = .loaded t tmp := by
  cases ph <;> cases hl
  · exact .inl hs.1
  · exact .inl hs.1
  · exact .inl hs.1
  · exact .inr hs

omit [DecidableEq T] in
theorem Sound.waits {ph : Phase} (hs : Sound s home t n ph) (hw : ph.waitsFor = some tmp) :
    Pending s t n tmp ∨ Told s home n tmp := by
  cases ph <;> cases hw
  · exact hs
  · exact .inl hs
  · exact hs.imp id And.right

omit [DecidableEq T] in
theorem Sound.of_pending {ph : Phase} (hl : ph.loads = none)
    (hw : ∀ tmp, ph.waitsFor = some tmp → Pending s t n tmp) : Sound s home t n ph := by
  cases ph with
  | entered => trivial
  | missed => trivial
  | testing tmp => exact .inl (hw tmp rfl)
  | pausing tmp => exact hw tmp rfl
  | waiting tmp asleep => exact .inl (hw tmp rfl)
  | importing tmp => cases hl
  | running tmp p => cases hl
  | initializing tmp => cases hl
  | stored tmp => cases hl

theorem wake_of_ne {ph : Phase} (h : ph.waitsFor ≠ some tmp) : ph.wake tmp = ph := by
  cases ph with
  | waiting tmp' asleep =>
    have hne : tmp' ≠ tmp := fun he => h (by rw [he]; rfl)
    simp [Phase.wake, hne]
  | _ => rfl

/-- Nothing has changed for the name. -/
structure Same (s s' : State T N) (home home' : Tmp → N) (n : N) : Prop where
  load : s'.load n = s.load n
  pkgs : s'.pkgs n = s.pkgs n
  count : s'.bodies.count n = s.bodies.count n
  tmps : ∀ tmp, home tmp = n → tmp < s.nextTmp →
    home' tmp = n ∧ tmp < s'.nextTmp ∧ s'.pkg tmp = s.pkg tmp

namespace Same

omit [DecidableEq T] in
theorem pending (h : Same s s' home home' n) (hp : Pending s t n tmp) : Pending s' t n tmp := by
  unfold Pending
  rw [h.load]
  exact hp

omit [DecidableEq T] in
theorem told (h : Same s s' home home' n) (ht : Told s home n tmp) : Told s' home' n tmp := by
  obtain ⟨hl, hh, hlt, p, hp, hpkgs⟩ := ht
  obtain ⟨hh', hlt', hp'⟩ := h.tmps tmp hh hlt
  exact ⟨by rw [h.load, hl], hh', hlt', p, by rw [hp', hp], by rw [h.pkgs, hpkgs]⟩

omit [DecidableEq T] in
theorem sound {ph : Phase} (h : Same s s' home home' n) (hs : Sound s home t n ph) :
    Sound s' home' t n ph := by
  cases ph with
  | entered => trivial
  | missed => trivial
  | importing tmp =>
    unfold Sound
    rw [h.load, h.pkgs, h.count]
    exact hs
  | running tmp p =>
    unfold Sound
    rw [h.load, h.pkgs]
    exact hs
  | initializing tmp =>
    unfold Sound
    rw [h.load, h.pkgs]
    exact hs
  | stored tmp =>
    unfold Sound
    rw [h.load]
    exact hs
  | testing tmp => exact hs.imp h.pending h.told
  | pausing tmp => exact h.pending hs
  | waiting tmp asleep => exact hs.imp h.pending fun ⟨ha, ht⟩ => ⟨ha, h.told ht⟩

omit [DecidableEq T] in
theorem status (h : Same s s' home home' n) (hs : Status s home n (s.load n)) :
    Status s' home' n (s'.load n) := by
  rw [h.load]
  rcases hl : s.load n with _ | ⟨u, tmp⟩ | ⟨u, tmp⟩ | _ | _ <;> rw [hl] at hs
  · obtain ⟨hpkgs, hcount⟩ := hs
    exact ⟨by rw [h.pkgs, hpkgs], by rw [h.count, hcount]⟩
  · obtain ⟨hp, hh, hlt, hpkgs⟩ := hs
    obtain ⟨hh', hlt', hp'⟩ := h.tmps tmp hh hlt
    exact ⟨by rw [hp', hp], hh', hlt', by rwa [h.pkgs]⟩
  · obtain ⟨hh, hlt, p, hp, hpkgs⟩ := hs
    obtain ⟨hh', hlt', hp'⟩ := h.tmps tmp hh hlt
    exact ⟨hh', hlt', p, by rw [hp', hp], by rwa [h.pkgs]⟩
  · obtain ⟨p, hp⟩ := hs
    exact ⟨p, by rw [h.pkgs, hp]⟩
  · obtain ⟨e, he, htmp⟩ := hs
    refine ⟨e, by rw [h.pkgs, he], fun tmp ht => ?_⟩
    obtain ⟨hh, hlt⟩ := htmp tmp ht
    exact ⟨(h.tmps tmp hh hlt).1, (h.tmps tmp hh hlt).2.1⟩

end Same

namespace Inv

/-- A placeholder in the table is one for the name. -/
theorem home_of_entry (h : Inv s home) (hp : s.pkgs n = some (.importing tmp)) :
    home tmp = n ∧ tmp < s.nextTmp := by
  have hs := h.status n
  rcases hl : s.load n with _ | ⟨u, tmp'⟩ | ⟨u, tmp'⟩ | _ | _ <;> rw [hl] at hs
  · rw [hs.1] at hp
    cases hp
  · obtain ⟨-, hh, hlt, he | ⟨q, he⟩⟩ := hs <;> rw [he] at hp <;> cases hp
    exact ⟨hh, hlt⟩
  · obtain ⟨hh, hlt, q, -, he | he⟩ := hs <;> rw [he] at hp <;> cases hp
    exact ⟨hh, hlt⟩
  · obtain ⟨q, he⟩ := hs
    rw [he] at hp
    cases hp
  · obtain ⟨e, he, htmp⟩ := hs
    rw [he] at hp
    cases hp
    exact htmp tmp rfl

theorem answer_of_same (h : Inv s home) (hsame : Same s s' home home' n) :
    s'.answer n = s.answer n := by
  unfold State.answer
  rw [hsame.pkgs]
  rcases hp : s.pkgs n with _ | tmp | p
  · rfl
  · obtain ⟨hh, hlt⟩ := h.home_of_entry hp
    exact (hsame.tmps tmp hh hlt).2.2
  · rfl

/-- A thread moves on without a change to the packages. -/
theorem move (h : Inv s home) {l : Tmp → Option T}
    (hsound : ∀ c ∈ calls, Sound s home t c.name c.phase) (hstacked : Stacked calls)
    (hactive : ∀ c ∈ s.calls t, c.phase.loads ≠ none → c ∈ calls) :
    Inv { s.goTo t calls with lock := l } home where
  status := h.status
  sound u c hc := by
    rcases mem_update_calls hc with ⟨hmem, rfl⟩ | hmem
    · exact hsound c hmem
    · exact h.sound u c hmem
  stacked u := by
    unfold State.goTo
    by_cases hu : u = t
    · rw [hu]
      simpa using hstacked
    · simpa [hu] using h.stacked u
  active n u tmp hl := by
    obtain ⟨c, hc, hname, hload⟩ := h.active n u tmp hl
    refine ⟨c, ?_, hname, hload⟩
    unfold State.goTo
    by_cases hu : u = t
    · rw [hu] at hc ⊢
      simpa using hactive c hc (by simp [hload])
    · simpa [hu] using hc
  once := h.once
  results := h.results

/-- The innermost call is in another phase of its search. -/
theorem moveTop (h : Inv s home) {ph ph' : Phase} {l : Tmp → Option T}
    (hs : s.calls t = ⟨n, ph⟩ :: rest) (hph : ph.loads = none) (hph' : ph'.loads = none)
    (hsound : Sound s home t n ph') :
    Inv { s.goTo t (⟨n, ph'⟩ :: rest) with lock := l } home := by
  have hst := h.stacked t
  rw [hs] at hst
  refine h.move (fun c hc => ?_) (hst.replace rfl fun hl => absurd hph' hl) fun c hc hl => ?_
  · rcases List.mem_cons.1 hc with rfl | hc
    · exact hsound
    · exact h.sound t c (by rw [hs]; exact List.mem_cons_of_mem _ hc)
  · rw [hs] at hc
    rcases List.mem_cons.1 hc with rfl | hc
    · exact absurd hph hl
    · exact List.mem_cons_of_mem _ hc

/-- The innermost call ends with the package. -/
theorem leave (h : Inv s home) {ph : Phase} {l : Tmp → Option T}
    (hs : s.calls t = ⟨n, ph⟩ :: rest) (hph : ph.loads = none) (ha : s.answer n = some p)
    (hl : (s.load n).isComplete = true ∨ (s.load n).isOwn t = true) :
    Inv { s.leave t n rest (some p) with lock := l } home := by
  have hst := h.stacked t
  rw [hs] at hst
  have hm : Inv { s.goTo t rest with lock := l } home :=
    h.move (fun c hc => h.sound t c (by rw [hs]; exact List.mem_cons_of_mem _ hc)) hst.pop
      fun c hc hl => by
        rw [hs] at hc
        rcases List.mem_cons.1 hc with rfl | hc
        · exact absurd hph hl
        · exact hc
  refine ⟨hm.status, hm.sound, hm.stacked, hm.active, hm.once, fun r hr q hq => ?_⟩
  rcases List.mem_cons.1 hr with rfl | hr
  · obtain rfl := Option.some.inj hq
    exact ⟨ha, hl⟩
  · exact hm.results r hr q hq

/-- Beside a call that loads the package there are only calls of other threads for the name, and
those that wait do it for this load. -/
theorem others (h : Inv s home) (hs : s.calls t = c :: rest) (hl : c.phase.loads = some tmp)
    (hd : u = t ∧ d ∈ rest ∨ u ≠ t ∧ d ∈ s.calls u) (hn : d.name = c.name) :
    u ≠ t ∧ d.phase.loads = none ∧ ∀ tmp', d.phase.waitsFor = some tmp' → tmp' = tmp := by
  have hst := h.stacked t
  rw [hs] at hst
  obtain ⟨-, hd⟩ | ⟨hu, hd⟩ := hd
  · exact absurd hn (hst.ne_name (by simp [hl]) hd)
  have hload := (h.sound t c (by rw [hs]; exact List.mem_cons_self)).load hl
  have hsound := h.sound u d hd
  rw [hn] at hsound
  refine ⟨hu, ?_, fun tmp' ht => ?_⟩
  · by_contra hdl
    obtain ⟨tmp', ht⟩ := Option.ne_none_iff_exists'.1 hdl
    rcases hload with h₀ | h₀ <;> rcases hsound.load ht with h₁ | h₁ <;> rw [h₀] at h₁ <;> cases h₁
      <;> exact hu rfl
  · rcases hsound.waits ht with (⟨v, hv, -⟩ | ⟨v, hv⟩) | ⟨hv, -⟩ <;> rcases hload with h₀ | h₀ <;>
      rw [h₀] at hv <;> cases hv <;> rfl

/-- A step of a load changes what there is for its name. -/
theorem change (h : Inv s home) (hsame : ∀ m, m ≠ n → Same s s' home home' m)
    (hcalls : ∀ u, ∀ c ∈ s'.calls u, c.name ≠ n → c ∈ s.calls u)
    (hkeep : ∀ u, ∀ c ∈ s.calls u, c.name ≠ n → c.phase.loads ≠ none → c ∈ s'.calls u)
    (hstacked : ∀ u, Stacked (s'.calls u)) (hstatus : Status s' home' n (s'.load n))
    (hsound : ∀ u, ∀ c ∈ s'.calls u, c.name = n → Sound s' home' u n c.phase)
    (hactive : ∀ u tmp, s'.load n = .loading u tmp ∨ s'.load n = .loaded u tmp →
      ∃ c ∈ s'.calls u, c.name = n ∧ c.phase.loads = some tmp)
    (honce : s'.bodies.count n ≤ 1) (hanswer : ∀ p, s.answer n = some p → s'.answer n = some p)
    (hresults : ∀ r ∈ s'.results, ∀ p, r.pkg = some p → r ∈ s.results ∨ r.name = n ∧
      s'.answer n = some p ∧ (r.load.isComplete = true ∨ r.load.isOwn r.thread = true)) :
    Inv s' home' where
  status m := by
    by_cases hm : m = n
    · rw [hm]
      exact hstatus
    · exact (hsame m hm).status (h.status m)
  sound u c hc := by
    by_cases hm : c.name = n
    · rw [hm]
      exact hsound u c hc hm
    · exact (hsame _ hm).sound (h.sound u c (hcalls u c hc hm))
  stacked := hstacked
  active m u tmp hl := by
    by_cases hm : m = n
    · rw [hm] at hl ⊢
      exact hactive u tmp hl
    · rw [(hsame m hm).load] at hl
      obtain ⟨c, hc, hname, hload⟩ := h.active m u tmp hl
      exact ⟨c, hkeep u c hc (by rwa [hname]) (by simp [hload]), hname, hload⟩
  once m := by
    by_cases hm : m = n
    · rw [hm]
      exact honce
    · rw [(hsame m hm).count]
      exact h.once m
  results r hr p hp := by
    rcases hresults r hr p hp with hr | ⟨rfl, ha, hl⟩
    · obtain ⟨ha, hl⟩ := h.results r hr p hp
      refine ⟨?_, hl⟩
      by_cases hm : r.name = n
      · rw [hm] at ha ⊢
        exact hanswer p ha
      · rw [h.answer_of_same (hsame _ hm), ha]
    · exact ⟨ha, hl⟩

omit [DecidableEq N] in
theorem mem_calls_of_update (hd : d ∈ Function.update s.calls t calls u) :
    u = t ∧ d ∈ calls ∨ u ≠ t ∧ d ∈ s.calls u := by
  by_cases hu : u = t
  · rw [hu, Function.update_self] at hd
    exact .inl ⟨hu, hd⟩
  · rw [Function.update_of_ne hu] at hd
    exact .inr ⟨hu, hd⟩

/-- The load goes on. -/
theorem advance (h : Inv s home) {ph ph' : Phase} (hs : s.calls t = ⟨n, ph⟩ :: rest)
    (hl : ph.loads = some tmp) (hl' : ph'.loads = some tmp)
    (hcalls : s'.calls = Function.update s.calls t (⟨n, ph'⟩ :: rest))
    (hsame : ∀ m, m ≠ n → Same s s' home home m) (hstatus : Status s' home n (s'.load n))
    (htop : Sound s' home t n ph') (honce : s'.bodies.count n ≤ 1)
    (hanswer : ∀ p, s.answer n = some p → s'.answer n = some p)
    (hresults : s'.results = s.results) : Inv s' home := by
  have hst := h.stacked t
  rw [hs] at hst
  have hload := htop.load hl'
  refine h.change hsame (fun u c hc hn => ?_) (fun u c hc hn hcl => ?_) (fun u => ?_) hstatus
    (fun u c hc hn => ?_) (fun u tmp' hl => ?_) honce hanswer fun r hr p _ => .inl (by
      rwa [hresults] at hr)
  · rw [hcalls] at hc
    rcases mem_update_cons hs hc with ⟨rfl, -⟩ | hc
    · exact absurd rfl hn
    · exact hc
  · rw [hcalls]
    by_cases hu : u = t
    · subst hu
      rw [Function.update_self]
      rw [hs] at hc
      rcases List.mem_cons.1 hc with rfl | hc
      · exact absurd rfl hn
      · exact List.mem_cons_of_mem _ hc
    · rwa [Function.update_of_ne hu]
  · rw [hcalls]
    by_cases hu : u = t
    · subst hu
      rw [Function.update_self]
      exact hst.replace rfl fun _ => by simp [hl]
    · rw [Function.update_of_ne hu]
      exact h.stacked u
  · rw [hcalls] at hc
    have hold : (u = t ∧ c ∈ rest ∨ u ≠ t ∧ c ∈ s.calls u) → Sound s' home u n c.phase := by
      intro hc
      obtain ⟨hu, hcl, hw⟩ := h.others hs hl hc hn
      refine .of_pending hcl fun tmp' ht => ?_
      rw [hw tmp' ht]
      exact hload.imp (fun hl => ⟨t, hl, Ne.symm hu⟩) fun hl => ⟨t, hl⟩
    rcases mem_calls_of_update hc with ⟨rfl, hmem⟩ | hmem
    · rcases List.mem_cons.1 hmem with rfl | hmem
      · exact htop
      · exact hold (.inl ⟨rfl, hmem⟩)
    · exact hold (.inr hmem)
  · have he : u = t ∧ tmp' = tmp := by
      rcases hload with h₀ | h₀ <;> rw [h₀] at hl <;> rcases hl with hl | hl <;> cases hl <;>
        exact ⟨rfl, rfl⟩
    obtain ⟨rfl, rfl⟩ := he
    rw [hcalls, Function.update_self]
    exact ⟨_, List.mem_cons_self, rfl, hl'⟩

/-- The script has its package in the table, and its body is run. -/
theorem evaluating (h : Inv s home) (hs : s.calls t = ⟨n, .importing tmp⟩ :: rest) :
    Inv { s.goTo t (⟨n, .running tmp s.nextPkg⟩ :: rest) with
      pkgs := Function.update s.pkgs n (some (.package s.nextPkg))
      nextPkg := s.nextPkg + 1
      bodies := n :: s.bodies } home := by
  obtain ⟨hload, hp, hcount⟩ := h.sound t ⟨n, .importing tmp⟩ (by simp [hs])
  have hst := h.status n
  rw [hload] at hst
  obtain ⟨hnone, hh, hlt, -⟩ := hst
  refine h.advance hs rfl rfl rfl (fun m hm => ?_) ?_ ?_ ?_ (fun q hq => ?_) rfl
  · exact ⟨rfl, Function.update_of_ne hm _ _, List.count_cons_of_ne (Ne.symm hm),
      fun _ hh hlt => ⟨hh, hlt, rfl⟩⟩
  · show Status _ home n (s.load n)
    rw [hload]
    exact ⟨hnone, hh, hlt, .inr ⟨s.nextPkg, Function.update_self ..⟩⟩
  · exact ⟨hload, Function.update_self ..⟩
  · simp [hcount]
  · simp [State.answer, hp, hnone] at hq

/-- The library has been loaded, and its initialiser is called. -/
theorem initializing (h : Inv s home) (hs : s.calls t = ⟨n, .importing tmp⟩ :: rest) :
    Inv { s.goTo t (⟨n, .initializing tmp⟩ :: rest) with bodies := n :: s.bodies } home := by
  obtain ⟨hload, hp, hcount⟩ := h.sound t ⟨n, .importing tmp⟩ (by simp [hs])
  have hst := h.status n
  rw [hload] at hst
  refine h.advance hs rfl rfl rfl (fun m hm => ?_) ?_ ⟨hload, hp⟩ ?_ (fun q hq => hq) rfl
  · exact ⟨rfl, rfl, List.count_cons_of_ne (Ne.symm hm), fun _ hh hlt => ⟨hh, hlt, rfl⟩⟩
  · show Status _ home n (s.load n)
    rw [hload]
    exact hst
  · simp [hcount]

/-- The package is put into the placeholder. -/
theorem store (h : Inv s home) {ph : Phase} (hs : s.calls t = ⟨n, ph⟩ :: rest)
    (hl : ph.loads = some tmp) (hload : s.load n = .loading t tmp)
    (hp : s.pkgs n = some (.importing tmp) ∨ s.pkgs n = some (.package p)) :
    Inv (s.store t n tmp rest p) home := by
  have hst := h.status n
  rw [hload] at hst
  obtain ⟨hnone, hh, hlt, -⟩ := hst
  refine h.advance hs hl rfl rfl (fun m hm => ?_) ?_ ?_ (h.once n) (fun q hq => ?_) rfl
  · refine ⟨Function.update_of_ne hm _ _, rfl, rfl, fun tmp' hh' hlt' => ⟨hh', hlt', ?_⟩⟩
    refine Function.update_of_ne (fun he => hm ?_) _ _
    rw [← hh', he, hh]
  · show Status _ home n (Function.update s.load n _ n)
    rw [Function.update_self]
    exact ⟨hh, hlt, p, Function.update_self .., hp⟩
  · exact Function.update_self ..
  · rcases hp with hp | hp
    · simp [State.answer, hp, hnone] at hq
    · simpa [State.answer, State.store, State.goTo, hp] using hq

omit [DecidableEq N] in
theorem stacked_update (h : ∀ u, Stacked (s.calls u)) (hc : Stacked calls) (u : T) :
    Stacked (Function.update s.calls t calls u) := by
  by_cases hu : u = t
  · rwa [hu, Function.update_self]
  · rw [Function.update_of_ne hu]
    exact h u

/-- The placeholder of a new load is registered. -/
theorem register (h : Inv s home) (hs : s.calls t = ⟨n, .missed⟩ :: rest) (hp : s.pkgs n = none) :
    Inv (s.register t n rest) (Function.update home s.nextTmp n) := by
  have hst := h.status n
  have hload : s.load n = .absent := by
    rcases hl : s.load n with _ | ⟨u, tmp⟩ | ⟨u, tmp⟩ | _ | _
    · rfl
    all_goals rw [hl] at hst
    · obtain ⟨-, -, -, he | ⟨q, he⟩⟩ := hst <;> rw [he] at hp <;> cases hp
    · obtain ⟨-, -, q, -, he | he⟩ := hst <;> rw [he] at hp <;> cases hp
    · obtain ⟨q, he⟩ := hst
      rw [he] at hp
      cases hp
    · obtain ⟨e, he, -⟩ := hst
      rw [he] at hp
      cases hp
  rw [hload] at hst
  have hidle : ∀ u, ∀ c ∈ s.calls u, c.name = n →
      c.phase.loads = none ∧ c.phase.waitsFor = none := by
    intro u c hc hn
    have hsound := h.sound u c hc
    rw [hn] at hsound
    refine ⟨Option.eq_none_iff_forall_ne_some.2 fun tmp hl => ?_,
      Option.eq_none_iff_forall_ne_some.2 fun tmp hw => ?_⟩
    · rcases hsound.load hl with hl | hl <;> rw [hload] at hl <;> cases hl
    · rcases hsound.waits hw with (⟨v, hv, -⟩ | ⟨v, hv⟩) | ⟨hv, -⟩ <;> rw [hload] at hv <;> cases hv
  have hstack := h.stacked t
  rw [hs] at hstack
  have htop : (s.register t n rest).calls t = ⟨n, .importing s.nextTmp⟩ :: rest :=
    Function.update_self ..
  refine h.change (n := n) (fun m hm => ?_) (fun u c hc hn => ?_) (fun u c hc hn hcl => ?_)
    (stacked_update h.stacked ?_) ?_ (fun u c hc hn => ?_) (fun u tmp' hl => ?_) (h.once n)
    (fun q hq => ?_) fun r hr _ _ => .inl hr
  · refine ⟨Function.update_of_ne hm _ _, Function.update_of_ne hm _ _, rfl, fun tmp hh hlt => ?_⟩
    have hne : tmp ≠ s.nextTmp := hlt.ne
    exact ⟨by rw [Function.update_of_ne hne, hh], hlt.trans (Nat.lt_succ_self _),
      Function.update_of_ne hne _ _⟩
  · rcases mem_update_cons hs hc with ⟨rfl, -⟩ | hc
    · exact absurd rfl hn
    · exact hc
  · rcases eq_or_ne u t with rfl | hu
    · rw [htop]
      rw [hs] at hc
      rcases List.mem_cons.1 hc with rfl | hc
      · exact absurd rfl hcl
      · exact List.mem_cons_of_mem _ hc
    · simpa [State.register, State.goTo, hu] using hc
  · refine hstack.load fun e he hl hn => hl ?_
    exact (hidle t e (by rw [hs]; exact List.mem_cons_of_mem _ he) hn).1
  · show Status _ _ n (Function.update s.load n _ n)
    rw [Function.update_self]
    exact ⟨Function.update_self .., Function.update_self .., Nat.lt_succ_self _,
      .inl (Function.update_self ..)⟩
  · rcases mem_update_cons hs hc with ⟨rfl, rfl⟩ | hc
    · exact ⟨Function.update_self .., Function.update_self .., hst.2⟩
    · obtain ⟨hl, hw⟩ := hidle u c hc hn
      exact .of_pending hl fun tmp ht => by simp [hw] at ht
  · have hl : Load.loading t s.nextTmp = .loading u tmp' ∨ Load.loading t s.nextTmp = .loaded u tmp'
        := by
      simpa [State.register] using hl
    rcases hl with hl | hl <;> cases hl
    rw [htop]
    exact ⟨_, List.mem_cons_self, rfl, rfl⟩
  · simp [State.answer, hp] at hq

/-- A thread that waits for a placeholder does it in its innermost call. -/
theorem head_of_waits (h : Inv s home) (hd : d ∈ s.calls u) (hw : d.phase.waitsFor ≠ none) :
    (s.calls u).head? = some d := by
  have hst := h.stacked u
  rcases hc : s.calls u with _ | ⟨e, rest⟩ <;> rw [hc] at hd hst
  · cases hd
  · rcases List.mem_cons.1 hd with rfl | hd
    · rfl
    · have hr := hst.outer d hd
      revert hr hw
      cases d.phase <;> simp [Phase.runsCode, Phase.waitsFor]

theorem home_of_waits (h : Inv s home) (hd : d ∈ s.calls u) (hw : d.phase.waitsFor = some tmp) :
    home tmp = d.name := by
  have hst := h.status d.name
  rcases (h.sound u d hd).waits hw with (⟨v, hv, -⟩ | ⟨v, hv⟩) | ⟨-, hh, -⟩
  · rw [hv] at hst
    exact hst.2.1
  · rw [hv] at hst
    exact hst.1
  · exact hh

/-- The load fails, and nobody waits for it. -/
theorem raise (h : Inv s home) (hs : s.calls t = c :: rest) (hf : c.phase.fails = true)
    (hw : ∀ tmp ∈ c.phase.loads, ∀ u, ∀ d ∈ (s.calls u).head?, d.phase.waitsFor ≠ some tmp) :
    Inv { s.leave t c.name rest none with load := Function.update s.load c.name .failed } home := by
  obtain ⟨tmp, hl⟩ := Option.ne_none_iff_exists'.1 (loads_of_fails hf)
  have hload : s.load c.name = .loading t tmp := by
    have hsound := h.sound t c (by simp [hs])
    revert hl hf hsound
    cases c.phase <;> simp [Phase.loads, Phase.fails, Sound] <;> rintro rfl h - <;> simp [h]
  have hst := h.status c.name
  rw [hload] at hst
  obtain ⟨-, hh, hlt, hpkgs⟩ := hst
  have hstack := h.stacked t
  rw [hs] at hstack
  refine h.change (n := c.name) (fun m hm => ?_) (fun u d hd _ => mem_update_rest hs hd)
    (fun u d hd hn hdl => ?_) (stacked_update h.stacked hstack.pop) ?_ (fun u d hd hn => ?_)
    (fun u tmp' hl => ?_) (h.once _) (fun q hq => hq) fun r hr q hq => ?_
  · exact ⟨Function.update_of_ne hm _ _, rfl, rfl, fun _ hh hlt => ⟨hh, hlt, rfl⟩⟩
  · show d ∈ Function.update s.calls t rest u
    rcases eq_or_ne u t with rfl | hu
    · rw [hs] at hd
      rw [Function.update_self]
      exact (List.mem_cons.1 hd).resolve_left fun he => hn (by rw [he])
    · rwa [Function.update_of_ne hu]
  · show Status _ home _ (Function.update s.load _ _ _)
    rw [Function.update_self]
    rcases hpkgs with hp | ⟨q, hp⟩
    · refine ⟨_, hp, fun tmp' he => ?_⟩
      cases he
      exact ⟨hh, hlt⟩
    · refine ⟨_, hp, fun tmp' he => ?_⟩
      cases he
  · obtain ⟨hu, hdl, hdw⟩ := h.others hs hl (mem_calls_of_update hd) hn
    refine .of_pending hdl fun tmp' ht => ?_
    have hmem := mem_update_rest hs hd
    refine absurd ht ?_
    rw [hdw tmp' ht]
    exact hw tmp hl u d (h.head_of_waits hmem (by simp [ht]))
  · simp at hl
  · rcases List.mem_cons.1 hr with rfl | hr
    · cases hq
    · exact .inl hr

/-- The package is registered, and nobody is about to wait. -/
theorem complete (h : Inv s home) (hs : s.calls t = ⟨n, .stored tmp⟩ :: rest)
    (hp : s.pkg tmp = some p) (hw : ∀ u, ∀ d ∈ (s.calls u).head?, d.phase ≠ .pausing tmp) :
    Inv (s.complete t n tmp rest p) home := by
  have hload : s.load n = .loaded t tmp := h.sound t ⟨n, .stored tmp⟩ (by simp [hs])
  have hst := h.status n
  rw [hload] at hst
  obtain ⟨hh, hlt, q, hq, hpkgs⟩ := hst
  obtain rfl := Option.some.inj (hp.symm.trans hq)
  have hstack := h.stacked t
  rw [hs] at hstack
  have hanswer : (s.complete t n tmp rest p).answer n = some p := by
    simp [State.answer, State.complete]
  have hwake : ∀ u, ∀ d ∈ s.calls u, d.name ≠ n → d.phase.wake tmp = d.phase := fun u d hd hn =>
    wake_of_ne fun ht => hn (by rw [← h.home_of_waits hd ht, hh])
  have hmem : ∀ {u d}, d ∈ s.calls u → d.name ≠ n → d ∈ Function.update s.calls t rest u := by
    intro u d hd hn
    rcases eq_or_ne u t with rfl | hu
    · rw [hs] at hd
      rw [Function.update_self]
      exact (List.mem_cons.1 hd).resolve_left fun he => hn (by rw [he])
    · rwa [Function.update_of_ne hu]
  refine h.change (n := n) (fun m hm => ?_) (fun u d hd hn => ?_)
    (fun u d hd hn hdl => ?_) (fun u => ?_) ?_ (fun u d hd hn => ?_)
    (fun u tmp' hl => ?_) (h.once _) (fun q hq => ?_) fun r hr q hq => ?_
  · exact ⟨Function.update_of_ne hm _ _, Function.update_of_ne hm _ _, rfl,
      fun _ hh hlt => ⟨hh, hlt, rfl⟩⟩
  · obtain ⟨e, he, rfl⟩ := List.mem_map.1 hd
    have he := mem_update_rest hs he
    rwa [hwake u e he hn]
  · exact List.mem_map.2 ⟨d, hmem hd hn, by rw [hwake u d hd hn]⟩
  · exact (stacked_update h.stacked hstack.pop u).map_wake tmp
  · show Status _ home n (Function.update s.load n _ n)
    rw [Function.update_self]
    exact ⟨p, Function.update_self ..⟩
  · obtain ⟨e, he, rfl⟩ := List.mem_map.1 hd
    obtain ⟨hu, hel, hew⟩ := h.others hs rfl (mem_calls_of_update he) hn
    have htold : Told (s.complete t n tmp rest p) home n tmp :=
      ⟨Function.update_self .., hh, hlt, p, hp, Function.update_self ..⟩
    have hhead := h.head_of_waits (mem_update_rest hs he)
    rcases e with ⟨m, ph⟩
    cases ph with
    | entered => trivial
    | missed => trivial
    | testing tmp' =>
      obtain rfl := hew tmp' rfl
      exact .inr htold
    | pausing tmp' =>
      obtain rfl := hew tmp' rfl
      exact absurd rfl (hw u _ (hhead (by simp [Phase.waitsFor])))
    | waiting tmp' asleep =>
      obtain rfl := hew tmp' rfl
      exact .inr ⟨by simp, htold⟩
    | importing _ => cases hel
    | running _ _ => cases hel
    | initializing _ => cases hel
    | stored _ => cases hel
  · simp [State.complete] at hl
  · rw [← hq, hanswer]
    rcases hpkgs with he | he
    · simp [State.answer, he, hp]
    · simp [State.answer, he]
  · rcases List.mem_cons.1 hr with rfl | hr
    · obtain rfl := Option.some.inj hq
      exact .inr ⟨rfl, hanswer, .inl (by simp [hload, Load.isComplete])⟩
    · exact .inl hr

end Inv

theorem inv_start (pkgs : N → Option Pkg) (home : Tmp → N) :
    Inv (start pkgs : State T N) home where
  status n := by
    rcases hp : pkgs n with _ | p
    · have hl : (start pkgs : State T N).load n = .absent := by simp [start, hp]
      rw [hl]
      exact ⟨by simp [start, hp], rfl⟩
    · have hl : (start pkgs : State T N).load n = .ended := by simp [start, hp]
      rw [hl]
      exact ⟨p, by simp [start, hp]⟩
  sound t c hc := by simp [start] at hc
  stacked t := .nil
  active n u tmp hl := by
    rcases hp : pkgs n with _ | p <;> simp [start, hp] at hl
  once n := by simp [start]
  results r hr := by simp [start] at hr

omit [DecidableEq T] [DecidableEq N] in
theorem Searches.loads {ph : Phase} (ha : Searches t a ph) : ph.loads = none := by
  cases ha <;> rfl

omit [DecidableEq N] in
theorem Searches.settled {ph : Phase} (ha : Searches t a ph) (hp : Proper s a)
    (hc : s.calls t = ⟨n, ph⟩ :: rest) : Settled s t n := by
  cases ha with
  | read => exact hp ⟨n, .entered⟩ (by simp [hc])
  | write => exact hp ⟨n, .missed⟩ (by simp [hc])

namespace Inv

/-- The placeholder that is found is the one of a load that goes on. -/
theorem pending_of_settled (h : Inv s home) (hpkg : s.pkgs n = some (.importing tmp))
    (hset : Settled s t n) : Pending s t n tmp := by
  unfold Settled at hset
  rw [hpkg] at hset
  obtain ⟨hfailed, hown⟩ := hset
  have hst := h.status n
  rcases hl : s.load n with _ | ⟨u, tmp'⟩ | ⟨u, tmp'⟩ | _ | _ <;> rw [hl] at hst
  · rw [hst.1] at hpkg
    cases hpkg
  · obtain ⟨-, -, -, he | ⟨q, he⟩⟩ := hst <;> rw [he] at hpkg <;> cases hpkg
    rw [hl] at hown
    exact .inl ⟨u, hl, fun hu => by simp [Load.isOwn, hu] at hown⟩
  · obtain ⟨-, -, q, -, he | he⟩ := hst <;> rw [he] at hpkg <;> cases hpkg
    exact .inr ⟨u, hl⟩
  · obtain ⟨q, he⟩ := hst
    rw [he] at hpkg
    cases hpkg
  · exact absurd hl hfailed

/-- What a placeholder has is what importers get, after the body. -/
theorem answer_of_waits (h : Inv s home) (hw : Pending s t n tmp ∨ Told s home n tmp)
    (hp : s.pkg tmp = some p) : s.answer n = some p ∧ (s.load n).isComplete = true := by
  have hst := h.status n
  unfold State.answer
  rcases hw with (⟨u, hl, -⟩ | ⟨u, hl⟩) | ⟨hl, -, -, q, hq, he⟩ <;> rw [hl] at hst ⊢
  · rw [hst.1] at hp
    cases hp
  · obtain ⟨-, -, q, hq, he⟩ := hst
    obtain rfl := Option.some.inj (hp.symm.trans hq)
    rcases he with he | he <;> simp [he, hp, Load.isComplete]
  · obtain rfl := Option.some.inj (hp.symm.trans hq)
    simp [he, Load.isComplete]

omit [DecidableEq T] [DecidableEq N] in
theorem pending_of_none (hw : Pending s t n tmp ∨ Told s home n tmp)
    (hp : s.pkg tmp = none) : Pending s t n tmp := by
  refine hw.resolve_right fun ⟨_, _, _, q, hq, _⟩ => ?_
  rw [hp] at hq
  cases hq

end Inv

/-- A proper step keeps the loads apart. -/
theorem step_inv (h : Inv s home) (hp : Proper s a) (hs : Step s a s') : ∃ home', Inv s' home' := by
  obtain ⟨t, he⟩ := effect_of_step hs
  have htop : ∀ {c rest}, s.calls t = c :: rest → Sound s home t c.name c.phase := fun hc =>
    h.sound t _ (by rw [hc]; exact List.mem_cons_self)
  have hst := h.stacked t
  cases he with
  | called hc hr =>
    rw [hc] at hst
    refine ⟨home, h.move (l := s.lock) (fun c hmem => ?_) (hst.push hr rfl) fun c hmem _ => ?_⟩
    · rcases List.mem_cons.1 hmem with rfl | hmem
      · trivial
      · exact h.sound t c (hc ▸ hmem)
    · exact List.mem_cons_of_mem _ (hc ▸ hmem)
  | missed hc => exact ⟨home, h.moveTop (l := s.lock) hc rfl rfl trivial⟩
  | found ha hc hpkg =>
    have hset := ha.settled hp hc
    unfold Settled at hset
    rw [hpkg] at hset
    exact ⟨home, h.leave (l := s.lock) hc ha.loads (by simp [State.answer, hpkg]) hset⟩
  | held ha hc hpkg =>
    exact ⟨home, h.moveTop hc ha.loads rfl (.inl (h.pending_of_settled hpkg (ha.settled hp hc)))⟩
  | registered hc hpkg => exact ⟨_, h.register hc hpkg⟩
  | evaluating hc => exact ⟨home, h.evaluating hc⟩
  | initializing hc => exact ⟨home, h.initializing hc⟩
  | evaluated hc => exact ⟨home, h.store hc rfl (htop hc).1 (.inr (htop hc).2)⟩
  | initialized hc => exact ⟨home, h.store hc rfl (htop hc).1 (.inl (htop hc).2)⟩
  | @completed n rest tmp p hc hn hpkg =>
    exact ⟨home, h.complete hc hpkg (hp ⟨n, .stored tmp⟩ (by simp [hc]) tmp rfl)⟩
  | told hc hpkg =>
    obtain ⟨ha, hl⟩ := h.answer_of_waits (htop hc) hpkg
    exact ⟨home, h.leave hc rfl ha (.inl hl)⟩
  | pausing hc hpkg =>
    exact ⟨home, h.moveTop (l := s.lock) hc rfl rfl (Inv.pending_of_none (htop hc) hpkg)⟩
  | asleep hc => exact ⟨home, h.moveTop hc rfl rfl (.inl (htop hc))⟩
  | awake hc =>
    exact ⟨home, h.moveTop (l := s.lock) hc rfl rfl ((htop hc).imp id fun ht => ⟨rfl, ht.2⟩)⟩
  | relocked hc => exact ⟨home, h.moveTop hc rfl rfl ((htop hc).imp id And.right)⟩
  | @raised c rest hc hf => exact ⟨home, h.raise hc hf (hp c (by simp [hc]))⟩

theorem Inv.good (h : Inv s home) : Good s where
  once n := (h.once n).trans (Nat.le_add_left _ _)
  same r hr r' hr' hname p p' hp hp' := by
    have h₁ := (h.results r hr p hp).1
    rw [hname, (h.results r' hr' p' hp').1] at h₁
    exact (Option.some.inj h₁).symm
  after r hr hp := by
    obtain ⟨p, hp⟩ := Option.ne_none_iff_exists'.1 hp
    exact (h.results r hr p hp).2
  unblocked t c hc hw := by
    obtain ⟨tmp, hw⟩ := Option.ne_none_iff_exists'.1 hw
    rcases (h.sound t c (List.mem_of_mem_head? hc)).waits hw with (⟨u, hl, hu⟩ | ⟨u, hl⟩) | ⟨hl, -⟩
    · simp [hl, Load.isOwn, hu]
    · simp [hl, Load.isOwn]
    · simp [hl, Load.isOwn]
  awake t n tmp hc := by
    have hs := h.sound t _ (List.mem_of_mem_head? hc)
    rcases hs with (⟨u, hl, -⟩ | ⟨u, hl⟩) | ⟨ha, -⟩
    · exact ⟨u, h.active n u tmp (.inl hl)⟩
    · exact ⟨u, h.active n u tmp (.inr hl)⟩
    · cases ha

/-- **Shared packages.** As long as every search finds what is settled, nobody is about to wait when
the others are told, and nobody waits for a load that fails, the threads that import a package get
one and the same, after its body, and none waits for a load that has ended. -/
theorem good_of_proper {pkgs : N → Option Pkg}
    (h : Run (Only Proper Step) (start pkgs : State T N) es s) : Good s := by
  rcases isEmpty_or_nonempty N with hN | ⟨⟨n⟩⟩
  · exact ⟨fun n => hN.elim n, fun r => hN.elim r.name, fun r => hN.elim r.name,
      fun _ c => hN.elim c.name, fun _ n => hN.elim n⟩
  · obtain ⟨home, hi⟩ : ∃ home, Inv s home := by
      refine h.invariant (I := fun s => ∃ home, Inv s home) (fun s a s' hi hs => ?_)
        ⟨fun _ => n, inv_start pkgs _⟩
      obtain ⟨home, hi⟩ := hi
      exact step_inv hi hs.1 hs.2
    exact hi.good

/-- A thread imports a package, and another finds it before the body of the script is done. -/
def overtaken : List (Action Bool Unit) :=
  [.call true (), .findRead true, .findWrite true, .evalStmts true, .call false (), .findRead false]

theorem not_good_overtaken : ¬∀ (s : State Bool Unit) (es : List (Action Bool Unit)),
    Run Step (start fun _ => none) es s → Good s := by
  intro hall
  have hrun : ∃ s : State Bool Unit, Run Step (start fun _ => none) overtaken s ∧
      s.results = [⟨false, (), some 0, .loading true 0⟩] :=
    ⟨_, .cons rfl (.cons rfl (.cons rfl (.cons rfl (.cons rfl (.cons rfl (.nil _)))))), rfl⟩
  obtain ⟨s, h, hr⟩ := hrun
  have ha := (hall s _ h).after ⟨false, (), some 0, .loading true 0⟩ (by simp [hr]) (by simp)
  revert ha
  decide

/-- A thread loads a library, and another waits for it. -/
def awaited : List (Action Bool Unit) :=
  [.call true (), .findRead true, .findWrite true, .callInitializer true, .call false (),
    .findRead false, .test false, .wait false, .initialized true 5, .finish true, .relock false,
    .test false]

theorem good_awaited : ∃ s : State Bool Unit,
    Run (Only Proper Step) (start fun _ => none) awaited s ∧ Good s := by
  have hrun : ∃ s : State Bool Unit, Run (Only Proper Step) (start fun _ => none) awaited s := by
    refine ⟨_, .cons ⟨trivial, rfl⟩ (.cons ⟨?_, rfl⟩ (.cons ⟨?_, rfl⟩ (.cons ⟨trivial, rfl⟩
      (.cons ⟨trivial, rfl⟩ (.cons ⟨?_, rfl⟩ (.cons ⟨trivial, rfl⟩ (.cons ⟨trivial, rfl⟩
      (.cons ⟨trivial, rfl⟩ (.cons ⟨?_, rfl⟩ (.cons ⟨trivial, rfl⟩ (.cons ⟨trivial, rfl⟩
      (.nil _))))))))))))⟩
    · rintro c ⟨⟩
      trivial
    · rintro c ⟨⟩
      trivial
    · rintro c ⟨⟩
      exact ⟨by decide, by decide⟩
    · rintro c ⟨⟩ tmp ⟨⟩ u d hd
      cases u <;> cases hd <;> decide
  obtain ⟨s, h⟩ := hrun
  exact ⟨s, h, good_of_proper h⟩

end Packages

end Yog
