import Mathlib.Data.List.Basic

/-!
# Computations that emit a list

A computation of type `Emission ε ι σ α` reads and writes a state `σ`, appends elements of `ι` to
an output, and returns an `α` or fails with an `ε`. A code generator is such a computation: the
output is the instruction list, and what it says about its output is said piece by piece.

A relation between the state before, the output and the state after that `Composes` is proved of a
computation one bind at a time (`Emits.bind`, `Emits.each`). What a successful run did is read
back by `bind_eq_ok` and the `_eq_ok` lemmas beside it.
-/

theorem Except.bind_eq_ok_iff {ε α β : Type} {x : Except ε α} {f : α → Except ε β} {b : β} :
    (x >>= f) = .ok b ↔ ∃ a, x = .ok a ∧ f a = .ok b := by
  cases x with
  | error e => simp [bind, Except.bind]
  | ok a => simp [bind, Except.bind]

theorem Except.exists_of_toBool {ε α : Type} {x : Except ε α} (h : x.toBool = true) :
    ∃ a, x = .ok a := by
  cases x with
  | error e => simp [Except.toBool] at h
  | ok a => exact ⟨a, rfl⟩

theorem Except.exists_of_any {ε α : Type} {x : Except ε α} {p : α → Bool}
    (h : x.toOption.any p = true) : ∃ a, x = .ok a ∧ p a = true := by
  cases x with
  | error e => simp [Except.toOption] at h
  | ok a => exact ⟨a, rfl, by simpa [Except.toOption] using h⟩

theorem List.mem_of_lookup {α β : Type} [BEq α] [LawfulBEq α] {l : List (α × β)} {a : α} {b : β}
    (h : l.lookup a = some b) : (a, b) ∈ l := by
  obtain ⟨before, after, rfl, -⟩ := List.lookup_eq_some_iff.1 h
  simp

/-- Computations over a state `σ` that append to a list of `ι` and may fail with `ε`. -/
def Emission (ε ι σ α : Type) : Type := σ → Except ε (α × List ι × σ)

namespace Emission

variable {ε ι σ α β : Type}

/-- Return `a`: nothing is emitted. -/
protected def pure (a : α) : Emission ε ι σ α := fun s => .ok (a, [], s)

/-- Run `x`, then `f` on its result; the output of `x` comes first. -/
protected def bind (x : Emission ε ι σ α) (f : α → Emission ε ι σ β) : Emission ε ι σ β := fun s =>
  match x s with
  | .error e => .error e
  | .ok (a, l₁, s₁) =>
    match f a s₁ with
    | .error e => .error e
    | .ok (b, l₂, s₂) => .ok (b, l₁ ++ l₂, s₂)

instance : Monad (Emission ε ι σ) where
  pure := Emission.pure
  bind := Emission.bind

def emit (x : ι) : Emission ε ι σ Unit := fun s => .ok ((), [x], s)

def modify (f : σ → σ) : Emission ε ι σ Unit := fun s => .ok ((), [], f s)

def fail (e : ε) : Emission ε ι σ α := fun _ => .error e

/-- `f` on each element of a list, from left to right. -/
def each (f : α → Emission ε ι σ Unit) : List α → Emission ε ι σ Unit
  | [] => pure ()
  | a :: as => do
    f a
    each f as

section Ok

variable {s s' : σ} {l : List ι}

theorem bind_eq_ok {x : Emission ε ι σ α} {f : α → Emission ε ι σ β} {b : β} :
    (x >>= f) s = .ok (b, l, s') ↔
      ∃ a l₁ s₁ l₂, x s = .ok (a, l₁, s₁) ∧ f a s₁ = .ok (b, l₂, s') ∧ l = l₁ ++ l₂ := by
  change Emission.bind x f s = _ ↔ _
  unfold Emission.bind
  constructor
  · intro h
    split at h
    · simp at h
    · rename_i a l₁ s₁ hx
      split at h
      · simp at h
      · rename_i b' l₂ s₂ hf
        simp only [Except.ok.injEq, Prod.mk.injEq] at h
        obtain ⟨rfl, rfl, rfl⟩ := h
        exact ⟨a, l₁, s₁, l₂, hx, hf, rfl⟩
  · rintro ⟨a, l₁, s₁, l₂, hx, hf, rfl⟩
    rw [hx]
    simp only [hf]

@[simp]
theorem pure_eq_ok {a b : α} :
    (pure a : Emission ε ι σ α) s = .ok (b, l, s') ↔ b = a ∧ l = [] ∧ s' = s := by
  change Emission.pure a s = _ ↔ _
  simp only [Emission.pure, Except.ok.injEq, Prod.mk.injEq]
  tauto

@[simp]
theorem emit_eq_ok {x : ι} {u : Unit} :
    (emit x : Emission ε ι σ Unit) s = .ok (u, l, s') ↔ l = [x] ∧ s' = s := by
  simp only [emit, Except.ok.injEq, Prod.mk.injEq, true_and]
  tauto

@[simp]
theorem modify_eq_ok {f : σ → σ} {u : Unit} :
    (modify f : Emission ε ι σ Unit) s = .ok (u, l, s') ↔ l = [] ∧ s' = f s := by
  simp only [modify, Except.ok.injEq, Prod.mk.injEq, true_and]
  tauto

@[simp]
theorem fail_eq_ok {e : ε} {a : α} :
    ¬ (fail e : Emission ε ι σ α) s = .ok (a, l, s') := by
  simp [fail]

end Ok

/-- Every successful run of `x` relates the state before, the output and the state after. -/
def Emits (R : σ → List ι → σ → Prop) (x : Emission ε ι σ α) : Prop :=
  ∀ s a l s', x s = .ok (a, l, s') → R s l s'

/-- A relation that holds of the computation doing nothing and of two runs in sequence. -/
structure Composes (R : σ → List ι → σ → Prop) : Prop where
  nil : ∀ s, R s [] s
  append : ∀ {s₁ s₂ s₃ l₁ l₂}, R s₁ l₁ s₂ → R s₂ l₂ s₃ → R s₁ (l₁ ++ l₂) s₃

section Emits

variable {R : σ → List ι → σ → Prop}

theorem Emits.pure (hR : Composes R) (a : α) : Emits R (pure a : Emission ε ι σ α) := by
  intro s b l s' h
  obtain ⟨-, rfl, rfl⟩ := pure_eq_ok.1 h
  exact hR.nil s'

theorem Emits.bind (hR : Composes R) {x : Emission ε ι σ α} {f : α → Emission ε ι σ β}
    (hx : Emits R x) (hf : ∀ a, Emits R (f a)) : Emits R (x >>= f) := by
  intro s b l s' h
  obtain ⟨a, l₁, s₁, l₂, h₁, h₂, rfl⟩ := bind_eq_ok.1 h
  exact hR.append (hx _ _ _ _ h₁) (hf a _ _ _ _ h₂)

theorem Emits.fail (e : ε) : Emits R (fail e : Emission ε ι σ α) :=
  fun _ _ _ _ h => absurd h fail_eq_ok

theorem Emits.each (hR : Composes R) {f : α → Emission ε ι σ Unit} :
    ∀ as : List α, (∀ a ∈ as, Emits R (f a)) → Emits R (each f as)
  | [], _ => Emits.pure hR ()
  | a :: as, hf =>
    Emits.bind hR (hf a List.mem_cons_self) fun _ =>
      Emits.each hR as fun b hb => hf b (List.mem_cons_of_mem _ hb)

end Emits

/-- `x` never fails with `e`. -/
def Avoids (e : ε) (x : Emission ε ι σ α) : Prop := ∀ s, x s ≠ .error e

section Avoids

variable {e : ε}

theorem Avoids.pure (a : α) : Avoids e (pure a : Emission ε ι σ α) := by
  intro s h
  cases h

theorem bind_eq_error {x : Emission ε ι σ α} {f : α → Emission ε ι σ β} {s : σ} :
    (x >>= f) s = .error e ↔
      x s = .error e ∨ ∃ a l s₁, x s = .ok (a, l, s₁) ∧ f a s₁ = .error e := by
  change Emission.bind x f s = _ ↔ _
  unfold Emission.bind
  rcases hx : x s with e' | ⟨a, l₁, s₁⟩
  · simp
  · rcases hf : f a s₁ with e' | ⟨b, l₂, s₂⟩
    · simp [hf]
    · simp [hf]

theorem Avoids.bind {x : Emission ε ι σ α} {f : α → Emission ε ι σ β}
    (hx : Avoids e x) (hf : ∀ a, Avoids e (f a)) : Avoids e (x >>= f) := by
  intro s h
  rcases bind_eq_error.1 h with h | ⟨a, _, s₁, -, h⟩
  · exact hx s h
  · exact hf a s₁ h

end Avoids

end Emission
