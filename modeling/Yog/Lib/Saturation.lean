import Yog.Lib.Partial

/-!
# Rounds until nothing changes

A round goes over a list and reports whether a step of it has changed the state; rounds are made
until one reports no change. Steps that leave the state alone when they report no change make a
state that is left unchanged by every step (`pass_quiet`), and a measure that goes down with each
change makes the rounds end (`ends_settle`).
-/

namespace Saturation

section Pass

variable {α σ : Type*} {f : α → σ → σ × Bool}

/-- One round: the steps in their order, and whether one of them has changed anything. -/
def pass (f : α → σ → σ × Bool) : List α → σ → σ × Bool
  | [], s => (s, false)
  | x :: xs, s => ((pass f xs (f x s).1).1, (f x s).2 || (pass f xs (f x s).1).2)

theorem pass_induct {I : σ → Prop} {l : List α} (hstep : ∀ x ∈ l, ∀ s, I s → I (f x s).1) :
    ∀ {s}, I s → I (pass f l s).1 := by
  induction l with
  | nil => exact id
  | cons x l ih =>
    intro s hs
    rw [List.forall_mem_cons] at hstep
    exact ih hstep.2 (hstep.1 s hs)

/-- A step that reports no change has made none. -/
def Quiet (f : α → σ → σ × Bool) : Prop := ∀ x s, (f x s).2 = false → (f x s).1 = s

theorem pass_quiet (hf : Quiet f) {l : List α} {s : σ} (h : (pass f l s).2 = false) :
    (pass f l s).1 = s ∧ ∀ x ∈ l, (f x s).2 = false := by
  induction l generalizing s with
  | nil => simp [pass]
  | cons x l ih =>
    simp only [pass, Bool.or_eq_false_iff] at h
    have hs := hf x s h.1
    rw [hs] at h
    obtain ⟨hl, hquiet⟩ := ih h.2
    refine ⟨by simp only [pass, hs, hl], ?_⟩
    rw [List.forall_mem_cons]
    exact ⟨h.1, hquiet⟩

/-- The measure goes down with a change, in the states the rounds come through. -/
theorem pass_measure (hf : Quiet f) {I : σ → Prop} {m : σ → ℕ} {l : List α}
    (hstep : ∀ x ∈ l, ∀ s, I s → I (f x s).1)
    (hm : ∀ x ∈ l, ∀ s, I s → (f x s).2 = true → m (f x s).1 < m s) {s : σ} (hs : I s) :
    m (pass f l s).1 ≤ m s ∧ ((pass f l s).2 = true → m (pass f l s).1 < m s) := by
  induction l generalizing s with
  | nil => simp [pass]
  | cons x l ih =>
    rw [List.forall_mem_cons] at hstep hm
    obtain ⟨hle, hlt⟩ := ih hstep.2 hm.2 (hstep.1 s hs)
    simp only [pass, Bool.or_eq_true]
    rcases hx : (f x s).2 with _ | _
    · rw [hf x s hx] at hle hlt ⊢
      exact ⟨hle, fun h => hlt (by simpa using h)⟩
    · have := hm.1 s hs hx
      exact ⟨by omega, fun _ => by omega⟩

end Pass

section Settle

open Partial

variable {ε : Type*} {σ : Type} {round : ℕ → σ → Partial ε (σ × Bool)}

/-- Rounds until one reports no change. -/
def settle (round : ℕ → σ → Partial ε (σ × Bool)) : ℕ → σ → Partial ε σ
  | 0, _ => running
  | fuel + 1, s => do
    let (s, updated) ← round fuel s
    if updated then settle round fuel s else pure s

theorem steady_settle (h : ∀ s, Steady (round · s)) (s : σ) : Steady (settle round · s) := by
  intro n m r hnm hr
  induction n generalizing m s with
  | zero => simp [settle] at hr
  | succ n ih =>
    obtain ⟨m, rfl⟩ := Nat.exists_eq_add_of_le' (Nat.one_le_of_lt hnm)
    have hnm := Nat.le_of_succ_le_succ hnm
    simp only [settle, bind_eq_done] at hr ⊢
    rcases hr with ⟨⟨s', updated⟩, hs, hr⟩ | ⟨e, he, rfl⟩
    · refine .inl ⟨(s', updated), h s hnm hs, ?_⟩
      rcases updated with _ | _
      · simpa using hr
      · simpa using ih s' hnm (by simpa using hr)
    · exact .inr ⟨e, h s hnm he, rfl⟩

/-- With a measure that goes down with each change the rounds end, in what the last round, which
has changed nothing, leaves. -/
theorem ends_settle {I : σ → Prop} {m : σ → ℕ} (h : ∀ s, Steady (round · s))
    (hround : ∀ s, I s → ∃ s' updated, Ends (round · s) (.ok (s', updated)) ∧ I s' ∧
      (updated = true → m s' < m s)) {s : σ} (hs : I s) :
    ∃ s', Ends (settle round · s) (.ok s') ∧ I s' ∧
      ∃ s₀, I s₀ ∧ Ends (round · s₀) (.ok (s', false)) := by
  induction hk : m s using Nat.strong_induction_on generalizing s with
  | _ k ih =>
    subst hk
    obtain ⟨s₁, updated, ⟨n, hn⟩, hs₁, hm⟩ := hround s hs
    rcases updated with _ | _
    · exact ⟨s₁, ⟨n + 1, by simp [settle, hn]⟩, hs₁, s, hs, n, hn⟩
    · obtain ⟨s', ⟨k, hk⟩, hrest⟩ := ih (m s₁) (hm rfl) hs₁ rfl
      refine ⟨s', ⟨max n k + 1, ?_⟩, hrest⟩
      simp only [settle, h s (le_max_left n k) hn, done_ok_bind, if_true]
      exact steady_settle h s₁ (le_max_right n k) hk

/-- Rounds over a list end in a state no step changes. -/
theorem ends_settle_pass {α : Type*} {f : α → σ → σ × Bool} (hf : Quiet f) {I : σ → Prop}
    {m : σ → ℕ} {l : List α} (hstep : ∀ x ∈ l, ∀ s, I s → I (f x s).1)
    (hm : ∀ x ∈ l, ∀ s, I s → (f x s).2 = true → m (f x s).1 < m s) {s : σ} (hs : I s) :
    ∃ s', Ends (settle (ε := ε) (fun _ s => pure (pass f l s)) · s) (.ok s') ∧ I s' ∧
      ∀ x ∈ l, (f x s').2 = false := by
  let round : ℕ → σ → Partial ε (σ × Bool) := fun _ s => pure (pass f l s)
  have hround : ∀ s, I s → ∃ s' updated, Ends (round · s) (.ok (s', updated)) ∧ I s' ∧
      (updated = true → m s' < m s) := fun s hs =>
    ⟨_, _, ends_done.2 rfl, pass_induct hstep hs, (pass_measure hf hstep hm hs).2⟩
  obtain ⟨s', hs', hi, s₀, -, hs₀⟩ := ends_settle (fun s => steady_done _) hround hs
  have hpass : pass f l s₀ = (s', false) := by simpa using (ends_done.1 hs₀).symm
  obtain ⟨hs, hquiet⟩ := pass_quiet hf (l := l) (s := s₀) (by rw [hpass])
  rw [hpass] at hs
  obtain rfl : s' = s₀ := hs
  exact ⟨s', hs', hi, hquiet⟩

end Settle

end Saturation
