import Yog.Lib.StackFlow

/-!
# Runs through the parts of a code

A pass is a run from the start of a part of the code to its end that does not leave it in between
(`Pass`). Where two parts jump only inside themselves, a pass through both is a pass through the
first and then one through the second (`Pass.split`); through one element that does not jump, it is
a step of it (`Pass.single`). A part that is typed from an empty stack leaves its own operands on
what it finds there (`Pass.own`).
-/

namespace StackCode

variable {ι κ V : Type} {M : StackCode ι κ} {leaves : ι → List V → List V → Prop}
  {list before l l₁ l₂ after : List ι} {stack stack' : List V} {ps : List Nat}

/-- The list jumps only inside itself. -/
def Closed (M : StackCode ι κ) (l : List ι) : Prop := ∀ L ∈ M.dests l, L ∈ M.labels l

theorem Closed.append (h₁ : M.Closed l₁) (h₂ : M.Closed l₂) : M.Closed (l₁ ++ l₂) := by
  intro L hL
  rw [dests_append] at hL
  rw [labels_append]
  exact List.mem_append.2 ((List.mem_append.1 hL).imp (h₁ L) (h₂ L))

theorem Closed.singleton {i : ι} (h : M.dest? i = none) : M.Closed [i] := by
  intro L hL
  simp [dests, h] at hL

variable (M leaves list) in
/-- Control goes through a part of the list, from its start to its end. -/
structure Pass (before l : List ι) (stack : List V) (ps : List Nat) (stack' : List V) : Prop where
  here : before ++ l <+: list
  run : M.Run leaves list ⟨before.length, stack⟩ ps ⟨before.length + l.length, stack'⟩
  inside : ∀ p ∈ ps, Region.Inside before l p

namespace Region

theorem left (h : Region M list before (l₁ ++ l₂) after) (hc : M.Closed l₁) :
    Region M list before l₁ (l₂ ++ after) :=
  ⟨by simp [h.eq], h.nodup, hc⟩

theorem right (h : Region M list before (l₁ ++ l₂) after) (hc : M.Closed l₂) :
    Region M list (before ++ l₁) l₂ after :=
  ⟨by simp [h.eq], h.nodup, hc⟩

end Region

/-- A run that stays where it starts is none, if it does not go through there. -/
theorem Run.eq_of_inside {p : Nat} {c' : Config V}
    (hr : M.Run leaves list ⟨p, stack⟩ ps c') (hn : ∀ q ∈ ps, q < p) :
    ps = [] ∧ c' = ⟨p, stack⟩ := by
  cases hr with
  | refl => exact ⟨rfl, rfl⟩
  | step hs hr => exact absurd (hn p (by simp)) (Nat.lt_irrefl p)

namespace Pass

theorem nil (hp : Pass M leaves list before [] stack ps stack') : ps = [] ∧ stack' = stack := by
  have hps : ps = [] := List.eq_nil_iff_forall_not_mem.2 fun p hp' => by
    have := hp.inside p hp'
    simp only [Region.Inside, List.length_nil] at this
    omega
  subst hps
  cases hp.run with
  | refl => exact ⟨rfl, rfl⟩

/-- The part is a region, if it jumps only inside itself. -/
theorem region (hn : (M.labels list).Nodup) (hc : M.Closed l)
    (hp : Pass M leaves list before l stack ps stack') : ∃ after, Region M list before l after := by
  obtain ⟨after, heq⟩ := hp.here
  exact ⟨after, heq.symm, hn, hc⟩

/-- A pass through two parts is one through the first and one through the second. -/
theorem split (hn : (M.labels list).Nodup) (hc₁ : M.Closed l₁) (hc₂ : M.Closed l₂)
    (hp : Pass M leaves list before (l₁ ++ l₂) stack ps stack') :
    ∃ qs rs mid, ps = qs ++ rs ∧ Pass M leaves list before l₁ stack qs mid ∧
      Pass M leaves list (before ++ l₁) l₂ mid rs stack' := by
  obtain ⟨after, hr⟩ := hp.region hn (hc₁.append hc₂)
  have h₁ := hr.left hc₁
  have h₂ := hr.right hc₂
  have hlen : before.length + (l₁ ++ l₂).length = before.length + l₁.length + l₂.length := by
    rw [List.length_append, Nat.add_assoc]
  have hrun := hp.run
  rw [hlen] at hrun
  rcases h₁.run_inside hrun 0 (Nat.zero_le _) rfl with ⟨hin, -⟩ | ⟨qs, rs, mid, rfl, hqs, hr₁, hr₂⟩
  · have := hin.2
    simp only at this
    omega
  · have hstart : before.length + l₁.length = (before ++ l₁).length := (List.length_append ..).symm
    rw [hstart] at hr₂
    refine ⟨qs, rs, mid, rfl, ⟨⟨_, h₁.eq.symm⟩, hr₁, hqs⟩, ?_⟩
    rcases h₂.run_inside hr₂ 0 (Nat.zero_le _) rfl with ⟨hin, -⟩ | ⟨qs', rs', mid', rfl, hqs', hr, hr'⟩
    · have := hin.2
      simp only at this
      omega
    · obtain ⟨rfl, heq⟩ := hr'.eq_of_inside fun q hq => by
        have := (hp.inside q (by simp [hq])).2
        rw [hlen] at this
        simpa only [List.length_append] using this
      cases heq
      rw [List.append_nil]
      exact ⟨⟨_, h₂.eq.symm⟩, hr, hqs'⟩

/-- A pass through one element that does not jump is a step of it. -/
theorem single {i : ι} (hd : M.dest? i = none)
    (hp : Pass M leaves list before [i] stack ps stack') :
    ps = [before.length] ∧ ∃ popped pushed rest, stack = popped ++ rest ∧
      popped.length = M.pops i ∧ leaves i popped pushed ∧ stack' = pushed ++ rest := by
  have hget : list[before.length]? = some i := by
    obtain ⟨after, rfl⟩ := hp.here
    simp
  have hrun := hp.run
  have hin := hp.inside
  generalize hc : (⟨before.length + [i].length, stack'⟩ : Config V) = c' at hrun
  cases hrun with
  | refl =>
    simp only [List.length_singleton, Config.mk.injEq] at hc
    omega
  | step hs hr =>
    cases hs with
    | next hi hlen hlv hf =>
      obtain rfl := Option.some.inj (hget.symm.trans hi)
      obtain ⟨rfl, rfl⟩ := hr.eq_of_inside fun q hq => by
        have := (hin q (List.mem_cons_of_mem _ hq)).2
        simpa using this
      cases hc
      exact ⟨rfl, _, _, _, rfl, hlen, hlv, rfl⟩
    | jump hi hlen hlv hdest hx hx' =>
      obtain rfl := Option.some.inj (hget.symm.trans hi)
      rw [hd] at hdest
      cases hdest

/-- A step is a pass through one element. -/
theorem of_step {pos : Nat} {i : ι} {popped pushed rest : List V} (h : list[pos]? = some i)
    (hlen : popped.length = M.pops i) (hl : leaves i popped pushed) (hf : M.falls i = true) :
    Pass M leaves list (list.take pos) [i] (popped ++ rest) [pos] (pushed ++ rest) := by
  obtain ⟨hpos, hget⟩ := List.getElem?_eq_some_iff.1 h
  have hlt : (list.take pos).length = pos := List.length_take_of_le (Nat.le_of_lt hpos)
  refine ⟨?_, ?_, by simp [Region.Inside, hlt]⟩
  · rw [← hget, List.take_append_getElem]
    exact List.take_prefix _ _
  · rw [hlt]
    exact .step (.next h hlen hl hf) .refl

/-- What is left on the stack is left on top of what was there. -/
theorem own {env : κ → Nat} {n : Nat} (hn : (M.labels list).Nodup) (hc : M.Closed l)
    (hleaves : ∀ i popped pushed, leaves i popped pushed → pushed.length = M.pushes i)
    (ht : M.Typed env l 0 n) (hp : Pass M leaves list before l stack ps stack') :
    ∃ own, stack' = own ++ stack ∧ own.length = n := by
  obtain ⟨after, hr⟩ := hp.region hn hc
  obtain ⟨D, h₀, hd, hD⟩ := ht.exists_depths
  obtain ⟨own, heq, hlen⟩ := hr.run_stack hleaves hD hp.run 0 l.length hp.inside rfl
    ⟨[], rfl, h₀.symm⟩ rfl
  exact ⟨own, heq, hlen.trans hd⟩

end Pass

end StackCode
