import Yog.Packages
import Mathlib.Data.List.Nodup

/-!
# Imports side by side

What keeps the imports of the threads apart is the table: as long as it has an entry for a name,
nobody starts to load it, and an entry never goes away (`pkgs_of_run`). So a load that fails leaves
its entry behind, whatever it was that failed, and no later import loads the package again
(`not_takenBack`).

A thread gets a package that another is still loading as soon as the script has an entry of its own.
Where this is left out, and nobody is about to wait when the others are told, the threads share one
package, each of them after its body (`good_of_proper`).
-/

namespace Yog

namespace Packages

variable {T N : Type} [DecidableEq T] [DecidableEq N]

/-- A search of the table, by a call in this phase. -/
inductive Searches (t : T) : Action T N → Phase → Prop
  | read : Searches t (.findRead t) .entered
  | write : Searches t (.findWrite t) .missed

/-- What the steps do. -/
inductive Effect (s : State T N) (t : T) : Action T N → State T N → Prop
  | called {n calls} (hc : s.calls t = calls) (h : ∀ c ∈ calls.head?, c.phase.runsCode = true) :
    Effect s t (.call t n) (s.goTo t (⟨n, .entered⟩ :: calls))
  | missed {n rest} (hc : s.calls t = ⟨n, .entered⟩ :: rest) :
    Effect s t (.findRead t) (s.goTo t (⟨n, .missed⟩ :: rest))
  | found {a n rest p ph} (ha : Searches t a ph) (hc : s.calls t = ⟨n, ph⟩ :: rest)
    (hp : s.pkgs n = some (.package p)) : Effect s t a (s.leave t n rest (some p))
  | held {a n rest tmp ph} (ha : Searches t a ph) (hc : s.calls t = ⟨n, ph⟩ :: rest)
    (hp : s.pkgs n = some (.importing tmp)) :
    Effect s t a { s.goTo t (⟨n, .testing tmp⟩ :: rest) with
      lock := Function.update s.lock tmp (some t) }
  | registered {n rest} (hc : s.calls t = ⟨n, .missed⟩ :: rest) (hp : s.pkgs n = none) :
    Effect s t (.findWrite t) (s.register t n rest)
  | evaluating {n rest tmp} (hc : s.calls t = ⟨n, .importing tmp⟩ :: rest) :
    Effect s t (.evalStmts t) { s.goTo t (⟨n, .running tmp s.nextPkg⟩ :: rest) with
      pkgs := Function.update s.pkgs n (some (.package s.nextPkg))
      nextPkg := s.nextPkg + 1
      bodies := n :: s.bodies }
  | initializing {n rest tmp} (hc : s.calls t = ⟨n, .importing tmp⟩ :: rest) :
    Effect s t (.callInitializer t) { s.goTo t (⟨n, .initializing tmp⟩ :: rest) with
      bodies := n :: s.bodies }
  | evaluated {n rest tmp p} (hc : s.calls t = ⟨n, .running tmp p⟩ :: rest) :
    Effect s t (.evaluated t) (s.store t n tmp rest p)
  | initialized {n rest tmp p} (hc : s.calls t = ⟨n, .initializing tmp⟩ :: rest) :
    Effect s t (.initialized t p) (s.store t n tmp rest p)
  | completed {n rest tmp p} (hc : s.calls t = ⟨n, .stored tmp⟩ :: rest) (hn : s.pkgs n ≠ none)
    (hp : s.pkg tmp = some p) : Effect s t (.finish t) (s.complete t n tmp rest p)
  | told {n rest tmp p} (hc : s.calls t = ⟨n, .testing tmp⟩ :: rest) (hp : s.pkg tmp = some p) :
    Effect s t (.test t) { s.leave t n rest (some p) with
      lock := Function.update s.lock tmp none }
  | pausing {n rest tmp} (hc : s.calls t = ⟨n, .testing tmp⟩ :: rest) (hp : s.pkg tmp = none) :
    Effect s t (.test t) (s.goTo t (⟨n, .pausing tmp⟩ :: rest))
  | asleep {n rest tmp} (hc : s.calls t = ⟨n, .pausing tmp⟩ :: rest) :
    Effect s t (.wait t) { s.goTo t (⟨n, .waiting tmp true⟩ :: rest) with
      lock := Function.update s.lock tmp none }
  | awake {n rest tmp asleep} (hc : s.calls t = ⟨n, .waiting tmp asleep⟩ :: rest) :
    Effect s t (.wakeUp t) (s.goTo t (⟨n, .waiting tmp false⟩ :: rest))
  | relocked {n rest tmp} (hc : s.calls t = ⟨n, .waiting tmp false⟩ :: rest) :
    Effect s t (.relock t) { s.goTo t (⟨n, .testing tmp⟩ :: rest) with
      lock := Function.update s.lock tmp (some t) }
  | raised {c rest} (hc : s.calls t = c :: rest) (h : c.phase.fails = true) :
    Effect s t (.raise t) { s.leave t c.name rest none with
      load := Function.update s.load c.name .failed }

variable {s s' : State T N} {t u : T} {n m : N}
  {a : Action T N} {es : List (Action T N)} {c d : Call N} {rest calls : List (Call N)}
  {tmp : Tmp} {p : Pkg}

theorem effect_getPackage {ph : Phase} {e : Entry} (ha : Searches t a ph)
    (hc : s.calls t = ⟨n, ph⟩ :: rest) (hp : s.pkgs n = some e)
    (h : s.getPackage t n rest e = some s') : Effect s t a s' := by
  unfold State.getPackage at h
  rcases e with tmp | pkg
  · simp only at h
    split_ifs at h
    obtain rfl := Option.some.inj h
    exact .held ha hc hp
  · obtain rfl := Option.some.inj h
    exact .found ha hc hp

theorem effect_of_step (h : Step s a s') : ∃ t, Effect s t a s' := by
  unfold Step State.exec at h
  split at h
  case h_1 t n =>
    refine ⟨t, ?_⟩
    split at h
    · obtain rfl := Option.some.inj h
      exact .called ‹_› (by simp)
    · split_ifs at h with hr
      obtain rfl := Option.some.inj h
      exact .called ‹_› (by simpa using hr)
  case h_2 t =>
    refine ⟨t, ?_⟩
    split at h
    · split at h
      · exact effect_getPackage .read ‹_› ‹_› h
      · obtain rfl := Option.some.inj h
        exact .missed ‹_›
    · cases h
  case h_3 t =>
    refine ⟨t, ?_⟩
    split at h
    · split at h
      · exact effect_getPackage .write ‹_› ‹_› h
      · obtain rfl := Option.some.inj h
        exact .registered ‹_› ‹_›
    · cases h
  case h_7 t pkg =>
    refine ⟨t, ?_⟩
    split at h
    · obtain rfl := Option.some.inj h
      exact .initialized ‹_›
    · cases h
  case h_8 t =>
    refine ⟨t, ?_⟩
    split at h
    · split at h
      case h_1 hn hp =>
        obtain rfl := Option.some.inj h
        exact .completed ‹_› (by simp [hn]) hp
      case h_2 => cases h
    · cases h
  case h_9 t =>
    refine ⟨t, ?_⟩
    split at h
    · split at h
      · obtain rfl := Option.some.inj h
        exact .told ‹_› ‹_›
      · obtain rfl := Option.some.inj h
        exact .pausing ‹_› ‹_›
    · cases h
  case h_12 t =>
    refine ⟨t, ?_⟩
    split at h
    · split_ifs at h
      obtain rfl := Option.some.inj h
      exact .relocked ‹_›
    · cases h
  case h_13 t =>
    refine ⟨t, ?_⟩
    split at h
    · cases h
    · split_ifs at h
      obtain rfl := Option.some.inj h
      exact .raised ‹_› ‹_›
  all_goals
    rename_i t
    refine ⟨t, ?_⟩
    split at h
    · obtain rfl := Option.some.inj h
      constructor
      assumption
    · cases h

theorem update_ne_none {f : N → Option Entry} {e : Entry} (h : f m ≠ none) :
    Function.update f n (some e) m ≠ none := by
  by_cases hm : m = n
  · subst hm
    simp
  · rwa [Function.update_of_ne hm]

theorem pkgs_of_step (h : Step s a s') (hn : s.pkgs m ≠ none) : s'.pkgs m ≠ none := by
  obtain ⟨t, h⟩ := effect_of_step h
  cases h with
  | registered => exact update_ne_none hn
  | evaluating => exact update_ne_none hn
  | completed => exact update_ne_none hn
  | _ => exact hn

theorem pkgs_of_run (h : Run Step s es s') (hn : s.pkgs m ≠ none) : s'.pkgs m ≠ none :=
  h.invariant (I := fun s => s.pkgs m ≠ none) (fun _ _ _ hn h => pkgs_of_step h hn) hn

theorem loads_of_fails {ph : Phase} (h : ph.fails = true) : ph.loads ≠ none := by
  cases ph <;> simp [Phase.loads, Phase.fails] at h ⊢

@[simp] theorem loads_wake (ph : Phase) : (ph.wake tmp).loads = ph.loads := by
  cases ph <;> rfl

@[simp] theorem runsCode_wake (ph : Phase) : (ph.wake tmp).runsCode = ph.runsCode := by
  cases ph <;> rfl

section Calls

variable {old new : Call N}

omit [DecidableEq N] in
/-- The calls of a thread whose calls were replaced. -/
theorem mem_update_calls {f : T → List (Call N)} (h : c ∈ Function.update f t calls u) :
    c ∈ calls ∧ u = t ∨ c ∈ f u := by
  by_cases hu : u = t
  · rw [hu, Function.update_self] at h
    exact .inl ⟨h, hu⟩
  · rw [Function.update_of_ne hu] at h
    exact .inr h

omit [DecidableEq N] in
theorem mem_update_cons (hs : s.calls t = old :: rest)
    (hc : c ∈ Function.update s.calls t (new :: rest) u) : c = new ∧ u = t ∨ c ∈ s.calls u := by
  rcases mem_update_calls hc with ⟨h, rfl⟩ | h
  · rcases List.mem_cons.1 h with h | h
    · exact .inl ⟨h, rfl⟩
    · exact .inr (hs ▸ List.mem_cons_of_mem _ h)
  · exact .inr h

omit [DecidableEq N] in
theorem mem_update_rest (hs : s.calls t = old :: rest)
    (hc : c ∈ Function.update s.calls t rest u) : c ∈ s.calls u := by
  rcases mem_update_calls hc with ⟨h, rfl⟩ | h
  · exact hs ▸ List.mem_cons_of_mem _ h
  · exact h

end Calls

/-- A package that is being loaded has an entry. -/
def Registered (s : State T N) : Prop :=
  ∀ u, ∀ c ∈ s.calls u, c.phase.loads ≠ none → s.pkgs c.name ≠ none

theorem Registered.step (hr : Registered s) (h : Step s a s') : Registered s' := by
  intro u c hc hl
  have hpkgs : ∀ m, s.pkgs m ≠ none → s'.pkgs m ≠ none := fun m => pkgs_of_step h
  obtain ⟨t, h⟩ := effect_of_step h
  have hold : c ∈ s.calls u → s'.pkgs c.name ≠ none := fun hc => hpkgs _ (hr u c hc hl)
  have hnew : ∀ {n ph ph' rest}, s.calls t = ⟨n, ph⟩ :: rest →
      c ∈ Function.update s.calls t (⟨n, ph'⟩ :: rest) u → (ph'.loads ≠ none → ph.loads ≠ none) →
        s'.pkgs c.name ≠ none := by
    intro n ph ph' rest hs hc hlo
    rcases mem_update_cons hs hc with ⟨rfl, -⟩ | hc
    · exact hpkgs _ (hr t ⟨n, ph⟩ (hs ▸ List.mem_cons_self) (hlo hl))
    · exact hold hc
  cases h with
  | called hs =>
    rcases mem_update_calls hc with ⟨hmem, rfl⟩ | hmem
    · rcases List.mem_cons.1 hmem with rfl | hmem
      · exact absurd rfl hl
      · exact hold (hs ▸ hmem)
    · exact hold hmem
  | found ha hs => exact hold (mem_update_rest hs hc)
  | told hs => exact hold (mem_update_rest hs hc)
  | raised hs => exact hold (mem_update_rest hs hc)
  | completed hs =>
    obtain ⟨d, hd, rfl⟩ := List.mem_map.1 hc
    rw [loads_wake] at hl
    exact hpkgs _ (hr u d (mem_update_rest hs hd) hl)
  | registered hs =>
    rcases mem_update_cons hs hc with ⟨rfl, -⟩ | h
    · simp [State.register]
    · exact hold h
  | held ha hs => exact hnew hs hc fun h => absurd rfl h
  | missed hs => exact hnew hs hc fun h => absurd rfl h
  | pausing hs => exact hnew hs hc fun h => absurd rfl h
  | asleep hs => exact hnew hs hc fun h => absurd rfl h
  | awake hs => exact hnew hs hc fun h => absurd rfl h
  | relocked hs => exact hnew hs hc fun h => absurd rfl h
  | evaluating hs => exact hnew hs hc fun h => h
  | initializing hs => exact hnew hs hc fun h => h
  | evaluated hs => exact hnew hs hc fun h => h
  | initialized hs => exact hnew hs hc fun h => h

theorem registered_of_run {pkgs : N → Option Pkg} (h : Run Step (start pkgs : State T N) es s) :
    Registered s :=
  h.invariant (fun _ _ _ hr h => hr.step h) fun u c hc => by simp [start] at hc

/-- The thread can call `import_package`. -/
def CanImport (s : State T N) (u : T) : Prop := ∀ c ∈ (s.calls u).head?, c.phase.runsCode = true

/-- What a load that failed is to leave: the thread has the exception, and for the others it is as
if it had not been tried. -/
structure TakenBack (s : State T N) (t : T) (n : N) : Prop where
  reaches : ∃ r, s.results.head? = some r ∧ r.thread = t ∧ r.name = n ∧ r.pkg = none
  gone : s.pkgs n = none
  nobody : ∀ u, ∀ c ∈ s.calls u, c.name = n → c.phase.waitsFor = none
  again : ∀ u, CanImport s u → ∃ s' tmp, Run Step s [.call u n, .findRead u, .findWrite u] s' ∧
    (s'.calls u).head? = some ⟨n, .importing tmp⟩

/-- A load that failed leaves an entry for good. -/
theorem pkgs_of_raise {pkgs : N → Option Pkg} (h : Run Step (start pkgs : State T N) es s)
    (hs : Step s (.raise t) s') (hc : s.calls t = c :: rest) {s'' : State T N}
    {es' : List (Action T N)} (h' : Run Step s' es' s'') : s''.pkgs c.name ≠ none := by
  have hl : c.phase.loads ≠ none := by
    obtain ⟨_, he⟩ := effect_of_step hs
    cases he with
    | raised hc' hf =>
      rw [hc, List.cons.injEq] at hc'
      rw [← hc'.1] at hf
      exact loads_of_fails hf
    | found ha => cases ha
    | held ha => cases ha
  exact pkgs_of_run h' (pkgs_of_step hs (registered_of_run h t c (by simp [hc]) hl))

/-- **Imports that fail.** Whatever it was that failed, nothing is taken back. -/
theorem not_takenBack {pkgs : N → Option Pkg} (h : Run Step (start pkgs : State T N) es s)
    (hs : Step s (.raise t) s') (hc : s.calls t = c :: rest) : ¬TakenBack s' t c.name :=
  fun hb => pkgs_of_raise h hs hc (.nil s') hb.gone

/-- A package is imported until its file is searched. -/
def attempt : List (Action Unit Unit) := [.call () (), .findRead (), .findWrite ()]

theorem run_attempt : ∃ s s' : State Unit Unit, Run Step (start fun _ => none) attempt s ∧
    Step s (.raise ()) s' ∧ s.calls () = [⟨(), .importing 0⟩] ∧
      s'.pkgs () = some (.importing 0) :=
  ⟨_, _, .cons rfl (.cons rfl (.cons rfl (.nil _))), rfl, rfl, rfl⟩

theorem not_takenBack_attempt : ∃ s s' : State Unit Unit,
    Run Step (start fun _ => none) attempt s ∧ Step s (.raise ()) s' ∧ ¬TakenBack s' () () := by
  obtain ⟨s, s', h, hs, hc, -⟩ := run_attempt
  exact ⟨s, s', h, hs, not_takenBack h hs hc⟩

/-- There is no file, and the placeholder stays. -/
theorem not_forall_takenBack : ¬∀ (s s' : State Unit Unit) (es : List (Action Unit Unit))
    (c : Call Unit) (rest : List (Call Unit)), Run Step (start fun _ => none) es s →
      Step s (.raise ()) s' → s.calls () = c :: rest → TakenBack s' () c.name := by
  intro hall
  obtain ⟨s, s', h, hs, hc, hp⟩ := run_attempt
  have hgone := (hall s s' _ _ _ h hs hc).gone
  rw [hp] at hgone
  cases hgone

end Packages

end Yog
