import Mathlib.Data.List.Basic

/-!
# Routes in a tree

A route stays, goes up or goes down to a name, step by step. From the root there is no way up
(`lead true`), from elsewhere there always is (`lead false`). Who only keeps the names gone down to
and takes off the last to go up (`cancel`) does not see the way up from where the route begins: the
route has to keep below that (`Within`).
-/

namespace Routes

variable {α : Type*}

inductive Step (α : Type*)
  | stay
  | up
  | down (a : α)

/-- A place as it is reached from the beginning: so many levels up and then down the names. -/
@[ext]
structure Place (α : Type*) where
  ups : ℕ
  downs : List α

namespace Place

/-- The place a step leads to. -/
def move (rooted : Bool) (p : Place α) : Step α → Place α
  | .stay => p
  | .up =>
    if p.downs ≠ [] then { p with downs := p.downs.dropLast }
    else if rooted then p
    else { p with ups := p.ups + 1 }
  | .down a => { p with downs := p.downs ++ [a] }

end Place

/-- The place a route leads to. -/
def lead (rooted : Bool) (p : Place α) (steps : List (Step α)) : Place α :=
  steps.foldl (Place.move rooted) p

/-- What a step does to the names gone down to. -/
def cancel (names : List α) : Step α → List α
  | .stay => names
  | .up => names.dropLast
  | .down a => names ++ [a]

/-- The route keeps below where it begins, which is so many levels down. -/
def Within : ℕ → List (Step α) → Prop
  | _, [] => True
  | n, .stay :: steps => Within n steps
  | 0, .up :: _ => False
  | n + 1, .up :: steps => Within n steps
  | n, .down _ :: steps => Within (n + 1) steps

instance decidableWithin : (n : ℕ) → (steps : List (Step α)) → Decidable (Within n steps)
  | _, [] => .isTrue trivial
  | n, .stay :: steps => decidableWithin n steps
  | 0, .up :: _ => .isFalse id
  | n + 1, .up :: steps => decidableWithin n steps
  | n, .down _ :: steps => decidableWithin (n + 1) steps

def ups : List (Step α) → ℕ
  | [] => 0
  | .up :: steps => ups steps + 1
  | _ :: steps => ups steps

def downs : List (Step α) → ℕ
  | [] => 0
  | .down _ :: steps => downs steps + 1
  | _ :: steps => downs steps

theorem downs_move (rooted : Bool) (p : Place α) (s : Step α) :
    (p.move rooted s).downs = cancel p.downs s := by
  rcases s with _ | _ | a
  · rfl
  · unfold Place.move cancel
    split_ifs with h <;> simp_all
  · rfl

/-- The names are those of who only keeps them. -/
theorem downs_lead (rooted : Bool) (p : Place α) (steps : List (Step α)) :
    (lead rooted p steps).downs = steps.foldl cancel p.downs := by
  induction steps generalizing p with
  | nil => rfl
  | cons s steps ih => rw [lead, List.foldl_cons, ← lead, ih, downs_move, List.foldl_cons]

theorem ups_le_lead (rooted : Bool) (p : Place α) (steps : List (Step α)) :
    p.ups ≤ (lead rooted p steps).ups := by
  induction steps generalizing p with
  | nil => exact Nat.le_refl _
  | cons s steps ih =>
    refine Nat.le_trans ?_ (ih _)
    rcases s with _ | _ | a
    · exact Nat.le_refl _
    · simp only [Place.move]
      split_ifs <;> simp
    · exact Nat.le_refl _

theorem ups_lead_rooted (p : Place α) (steps : List (Step α)) :
    (lead true p steps).ups = p.ups := by
  induction steps generalizing p with
  | nil => rfl
  | cons s steps ih =>
    rw [lead, List.foldl_cons, ← lead, ih]
    rcases s with _ | _ | a
    · rfl
    · simp only [Place.move]
      split_ifs <;> simp_all
    · rfl

/-- Elsewhere than at the root the way up is missed just if there is one. -/
theorem ups_lead_eq_iff (p : Place α) (steps : List (Step α)) :
    (lead false p steps).ups = p.ups ↔ Within p.downs.length steps := by
  induction steps generalizing p with
  | nil => simp [lead, Within]
  | cons s steps ih =>
    rw [lead, List.foldl_cons, ← lead]
    rcases s with _ | _ | a
    · exact ih p
    · rcases hd : p.downs with _ | ⟨a, l⟩
      · have hmove : p.move false .up = { p with ups := p.ups + 1 } := by simp [Place.move, hd]
        have hle := ups_le_lead false (p.move false .up) steps
        rw [hmove] at hle ⊢
        simp only [Within, List.length_nil, iff_false]
        simp only at hle
        omega
      · have hmove : p.move false .up = { p with downs := p.downs.dropLast } := by
          simp [Place.move, hd]
        have h := ih (p.move false .up)
        rw [hmove] at h ⊢
        simpa [hd, Within] using h
    · have h := ih (p.move false (.down a))
      simpa [Place.move, Within] using h

/-- A name in front stays there as long as the route keeps below it. -/
theorem foldl_cancel_cons (b : α) (names : List α) (steps : List (Step α)) :
    (Within names.length steps → steps.foldl cancel (b :: names) = b :: steps.foldl cancel names) ∧
      (¬ Within names.length steps →
        steps.foldl cancel (b :: names) = steps.foldl cancel names) := by
  induction steps generalizing names with
  | nil => simp [Within]
  | cons s steps ih =>
    rcases s with _ | _ | a
    · exact ih names
    · rcases names with _ | ⟨c, l⟩
      · simp [Within, cancel]
      · have h := ih (c :: l).dropLast
        simpa [Within, cancel] using h
    · have h := ih (names ++ [a])
      simpa [Within, cancel] using h

theorem length_foldl_cancel {names : List α} {steps : List (Step α)}
    (h : Within names.length steps) :
    (steps.foldl cancel names).length + ups steps = names.length + downs steps := by
  induction steps generalizing names with
  | nil => rfl
  | cons s steps ih =>
    rw [List.foldl_cons]
    rcases s with _ | _ | a
    · exact ih h
    · rcases names with _ | ⟨c, l⟩
      · exact h.elim
      · have hwithin : Within (c :: l).dropLast.length steps := by simpa [Within] using h
        have := ih hwithin
        simp [cancel, ups, downs] at this ⊢
        omega
    · have hwithin : Within (names ++ [a]).length steps := by simpa [Within] using h
      have := ih hwithin
      simp [cancel, ups, downs] at this ⊢
      omega

/-- A name that is kept was gone down to. -/
theorem mem_foldl_cancel {a : α} {names : List α} {steps : List (Step α)}
    (h : a ∈ steps.foldl cancel names) : a ∈ names ∨ .down a ∈ steps := by
  induction steps generalizing names with
  | nil => exact .inl h
  | cons s steps ih =>
    rcases ih h with h | h
    · rcases s with _ | _ | b
      · exact .inl h
      · exact .inl ((List.dropLast_sublist _).mem h)
      · rcases List.mem_append.1 h with h | h
        · exact .inl h
        · rw [List.mem_singleton] at h
          subst h
          exact .inr List.mem_cons_self
    · exact .inr (List.mem_cons_of_mem s h)

theorem foldl_cancel_down (names l : List α) :
    (l.map Step.down).foldl cancel names = names ++ l := by
  induction l generalizing names with
  | nil => simp
  | cons a l ih => simp [cancel, ih]

theorem ups_append (steps steps' : List (Step α)) :
    ups (steps ++ steps') = ups steps + ups steps' := by
  induction steps with
  | nil => simp [ups]
  | cons s steps ih =>
    rcases s with _ | _ | a <;> simp only [List.cons_append, ups, ih]
    omega

theorem downs_append (steps steps' : List (Step α)) :
    downs (steps ++ steps') = downs steps + downs steps' := by
  induction steps with
  | nil => simp [downs]
  | cons s steps ih =>
    rcases s with _ | _ | a <;> simp only [List.cons_append, downs, ih]
    omega

theorem ups_eq_zero {steps : List (Step α)} (h : .up ∉ steps) : ups steps = 0 := by
  induction steps with
  | nil => rfl
  | cons s steps ih =>
    rw [List.mem_cons, not_or] at h
    rcases s with _ | _ | a
    · exact ih h.2
    · exact absurd rfl h.1
    · exact ih h.2

/-- Behind steps that go nowhere up a route has all their names to go up. -/
theorem within_append {steps : List (Step α)} (h : .up ∉ steps) (n : ℕ) (steps' : List (Step α)) :
    Within n (steps ++ steps') ↔ Within (n + downs steps) steps' := by
  induction steps generalizing n with
  | nil => rfl
  | cons s steps ih =>
    rw [List.mem_cons, not_or] at h
    rcases s with _ | _ | a
    · simpa only [List.cons_append, Within, downs] using ih h.2 n
    · exact absurd rfl h.1
    · rw [List.cons_append, Within, ih h.2, downs, Nat.add_right_comm, Nat.add_assoc]

theorem up_notMem_map (l : List α) : Step.up ∉ l.map .down := by simp

theorem Within.mono {n m : ℕ} {steps : List (Step α)} (h : Within n steps) (hnm : n ≤ m) :
    Within m steps := by
  induction steps generalizing n m with
  | nil => trivial
  | cons s steps ih =>
    rcases s with _ | _ | a
    · exact ih (n := n) (m := m) h hnm
    · rcases n with _ | n
      · exact h.elim
      · obtain ⟨m, rfl⟩ := Nat.exists_eq_add_of_le' (show 1 ≤ m by omega)
        exact ih (n := n) (m := m) h (by omega)
    · exact ih (n := n + 1) (m := m + 1) h (by omega)

end Routes
