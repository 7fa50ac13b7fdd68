import Mathlib.Order.Nat
import Mathlib.Tactic.SplitIfs

/-!
# Computations with fuel

A computation that may raise and may never end is a family indexed by the fuel: `none` is what is
still running. More fuel keeps what a `Steady` computation has come to, so that one which ends has
one result, and what a sequence of two ends with is read off the two (`ends_bind`).
-/

/-- What a computation has come to, if it has. -/
def Partial (ε α : Type*) : Type _ := Option (Except ε α)

namespace Partial

variable {ε : Type*} {α β : Type}

def done (r : Except ε α) : Partial ε α := some r

/-- The fuel was not enough. -/
def running : Partial ε α := none

def andThen (p : Partial ε α) (k : α → Partial ε β) : Partial ε β :=
  match p with
  | none => running
  | some (.error e) => done (.error e)
  | some (.ok a) => k a

instance : Monad (Partial ε) where
  pure a := done (.ok a)
  bind := andThen

@[simp] theorem done_inj {r r' : Except ε α} : done r = done r' ↔ r = r' := Option.some_inj

@[simp] theorem running_ne_done {r : Except ε α} : running ≠ done r := nofun

@[simp] theorem pure_eq (a : α) : (pure a : Partial ε α) = done (.ok a) := rfl

@[simp] theorem running_bind (k : α → Partial ε β) : (running : Partial ε α) >>= k = running := rfl

@[simp] theorem done_ok_bind (a : α) (k : α → Partial ε β) : done (.ok a) >>= k = k a := rfl

@[simp] theorem done_error_bind (e : ε) (k : α → Partial ε β) :
    done (.error e) >>= k = done (.error e) := rfl

/-- What raises or returns at once, and what is made of it. -/
theorem done_bind_map (r : Except ε α) (g : α → β) :
    (done r >>= fun a => done (.ok (g a))) = done (r.map g) := by
  rcases r with e | a <;> rfl

theorem bind_eq_done {p : Partial ε α} {k : α → Partial ε β} {r : Except ε β} :
    p >>= k = done r ↔ (∃ a, p = done (.ok a) ∧ k a = done r) ∨
      ∃ e, p = done (.error e) ∧ r = .error e := by
  rcases p with _ | e | a
  · simp [← running.eq_1]
  · simp [← done.eq_1, eq_comm]
  · simp [← done.eq_1]

/-- What more fuel does not change. -/
def Steady (f : ℕ → Partial ε α) : Prop := ∀ ⦃n m r⦄, n ≤ m → f n = done r → f m = done r

def Ends (f : ℕ → Partial ε α) (r : Except ε α) : Prop := ∃ n, f n = done r

theorem Steady.ends_unique {f : ℕ → Partial ε α} (hf : Steady f) {r r' : Except ε α}
    (h : Ends f r) (h' : Ends f r') : r = r' := by
  obtain ⟨n, hn⟩ := h
  obtain ⟨m, hm⟩ := h'
  have hr := hf (le_max_left n m) hn
  rw [hf (le_max_right n m) hm, done_inj] at hr
  exact hr.symm

theorem steady_done (r : Except ε α) : Steady fun _ => done r := fun _ _ _ _ h => h

theorem Steady.ite {p : Prop} [Decidable p] {f g : ℕ → Partial ε α} (hf : Steady f)
    (hg : Steady g) : Steady fun n => if p then f n else g n := by
  split_ifs
  · exact hf
  · exact hg

@[simp] theorem ends_done {r r' : Except ε α} : Ends (fun _ => done r) r' ↔ r' = r := by
  simp [Ends, eq_comm]

section Bind

variable {f : ℕ → Partial ε α} {g : ℕ → α → Partial ε β}

theorem Steady.bind (hf : Steady f) (hg : ∀ a, Steady fun n => g n a) :
    Steady fun n => f n >>= g n := by
  intro n m r hnm h
  rw [bind_eq_done] at h ⊢
  rcases h with ⟨a, ha, hr⟩ | ⟨e, he, hr⟩
  · exact .inl ⟨a, hf hnm ha, hg a hnm hr⟩
  · exact .inr ⟨e, hf hnm he, hr⟩

theorem ends_bind (hf : Steady f) (hg : ∀ a, Steady fun n => g n a) {r : Except ε β} :
    Ends (fun n => f n >>= g n) r ↔
      (∃ a, Ends f (.ok a) ∧ Ends (fun n => g n a) r) ∨ ∃ e, Ends f (.error e) ∧ r = .error e := by
  constructor
  · rintro ⟨n, h⟩
    rcases bind_eq_done.1 h with ⟨a, ha, hr⟩ | ⟨e, he, hr⟩
    · exact .inl ⟨a, ⟨n, ha⟩, n, hr⟩
    · exact .inr ⟨e, ⟨n, he⟩, hr⟩
  · rintro (⟨a, ⟨n, ha⟩, m, hr⟩ | ⟨e, ⟨n, he⟩, hr⟩)
    · exact ⟨max n m, bind_eq_done.2
        (.inl ⟨a, hf (le_max_left n m) ha, hg a (le_max_right n m) hr⟩)⟩
    · exact ⟨n, bind_eq_done.2 (.inr ⟨e, he, hr⟩)⟩

end Bind

/-- With enough fuel it is `r`, and with less it is that or still running. -/
def Settles (f : ℕ → Partial ε α) (r : Except ε α) : Prop :=
  (∃ N, ∀ n, N ≤ n → f n = done r) ∧ ∀ n, f n = running ∨ f n = done r

theorem settles_done (r : Except ε α) : Settles (fun _ => done r) r :=
  ⟨⟨0, fun _ _ => rfl⟩, fun _ => .inr rfl⟩

theorem Steady.settles {f : ℕ → Partial ε α} (hf : Steady f) {r : Except ε α} (h : Ends f r) :
    Settles f r := by
  obtain ⟨N, hN⟩ := h
  refine ⟨⟨N, fun n hn => hf hn hN⟩, fun n => ?_⟩
  rcases hr : f n with _ | r'
  · exact .inl rfl
  · right
    rw [← hf.ends_unique ⟨n, hr⟩ ⟨N, hN⟩]
    rfl

/-- What is still running with little fuel, and then is another computation. -/
theorem Settles.delay {f g : ℕ → Partial ε α} {r : Except ε α} (h : Settles g r) (k : ℕ)
    (hrun : ∀ n, n < k → f n = running) (heq : ∀ n, k ≤ n → f n = g n) : Settles f r := by
  obtain ⟨⟨N, hN⟩, hall⟩ := h
  constructor
  · refine ⟨max N k, fun n hn => ?_⟩
    rw [heq n (le_trans (le_max_right N k) hn)]
    exact hN n (le_trans (le_max_left N k) hn)
  · intro n
    rcases Nat.lt_or_ge n k with hn | hn
    · exact .inl (hrun n hn)
    · rw [heq n hn]
      exact hall n

theorem Settles.ends_iff {f : ℕ → Partial ε α} {r r' : Except ε α} (h : Settles f r) :
    Ends f r' ↔ r' = r := by
  obtain ⟨⟨N, hN⟩, hall⟩ := h
  constructor
  · rintro ⟨n, hn⟩
    rcases hall n with h | h
    · rw [h] at hn
      exact absurd hn running_ne_done
    · exact (done_inj.1 (h.symm.trans hn)).symm
  · rintro rfl
    exact ⟨N, hN N le_rfl⟩

/-- With enough fuel it is `r`. -/
def Reaches (f : ℕ → Partial ε α) (r : Except ε α) : Prop := ∃ N, ∀ n, N ≤ n → f n = done r

theorem Reaches.unique {f : ℕ → Partial ε α} {r r' : Except ε α} (h : Reaches f r)
    (h' : Reaches f r') : r = r' := by
  obtain ⟨N, hN⟩ := h
  obtain ⟨M, hM⟩ := h'
  exact done_inj.1 ((hN _ (le_max_left N M)).symm.trans (hM _ (le_max_right N M)))

theorem Reaches.of_eq {f g : ℕ → Partial ε α} {r : Except ε α} (h : Reaches g r) (N : ℕ)
    (heq : ∀ n, N ≤ n → f n = g n) : Reaches f r := by
  obtain ⟨M, hM⟩ := h
  refine ⟨max N M, fun n hn => ?_⟩
  rw [heq n (le_trans (le_max_left N M) hn)]
  exact hM n (le_trans (le_max_right N M) hn)

section SettlesBind

variable {f : ℕ → Partial ε α} {g : ℕ → α → Partial ε β}

theorem Settles.bind {a : α} {r : Except ε β} (hf : Settles f (.ok a))
    (hg : Settles (fun n => g n a) r) : Settles (fun n => f n >>= g n) r := by
  obtain ⟨⟨N, hN⟩, hf⟩ := hf
  obtain ⟨⟨M, hM⟩, hg⟩ := hg
  constructor
  · refine ⟨max N M, fun n hn => ?_⟩
    show f n >>= g n = done r
    rw [hN n (le_trans (le_max_left N M) hn), done_ok_bind]
    exact hM n (le_trans (le_max_right N M) hn)
  · intro n
    show f n >>= g n = running ∨ f n >>= g n = done r
    rcases hf n with h | h
    · rw [h]
      exact .inl rfl
    · rw [h, done_ok_bind]
      exact hg n

theorem Settles.bind_error {e : ε} (hf : Settles f (.error e)) :
    Settles (fun n => f n >>= g n) (.error e) := by
  obtain ⟨⟨N, hN⟩, hf⟩ := hf
  constructor
  · refine ⟨N, fun n hn => ?_⟩
    show f n >>= g n = done (.error e)
    rw [hN n hn, done_error_bind]
  · intro n
    show f n >>= g n = running ∨ f n >>= g n = done (.error e)
    rcases hf n with h | h
    · rw [h]
      exact .inl rfl
    · rw [h]
      exact .inr rfl

end SettlesBind

end Partial
