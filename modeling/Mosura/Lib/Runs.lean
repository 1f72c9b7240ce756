import Mathlib.Tactic.Ring

/-! How often a sequence of booleans changes, and the runs that few changes leave. -/

namespace Runs

/-- The number of changes between neighbours among `f 0`, ..., `f n`. -/
def changes (f : ℕ → Bool) : ℕ → ℕ
  | 0 => 0
  | n + 1 => (if f 1 = f 0 then 0 else 1) + changes (fun i => f (i + 1)) n

variable {f : ℕ → Bool} {n : ℕ}

theorem changes_congr {g : ℕ → Bool} (h : ∀ i ≤ n, f i = g i) : changes f n = changes g n := by
  induction n generalizing f g with
  | zero => rfl
  | succ n ih =>
    rw [changes, changes, h 0 (by omega), h 1 (by omega)]
    congr 1
    exact ih fun i hi => h (i + 1) (by omega)

theorem changes_const {b : Bool} (h : ∀ i ≤ n, f i = b) : changes f n = 0 := by
  induction n generalizing f with
  | zero => rfl
  | succ n ih =>
    rw [changes, h 0 (by omega), h 1 (by omega), if_pos rfl, Nat.zero_add]
    exact ih fun i hi => h (i + 1) (by omega)

/-- Without a change there is one value. -/
theorem const_of_changes (h : changes f n = 0) : ∀ i ≤ n, f i = f 0 := by
  induction n generalizing f with
  | zero =>
    intro i hi
    rw [Nat.le_zero.mp hi]
  | succ n ih =>
    rw [changes, Nat.add_eq_zero_iff] at h
    have h10 : f 1 = f 0 := by
      by_contra hne
      rw [if_neg hne] at h
      cases h.1
    intro i hi
    cases i with
    | zero => rfl
    | succ i => exact (ih h.2 i (by omega)).trans h10

/-- With at most one change there is a first run, and all after it differs. -/
theorem two_runs (h : changes f n ≤ 1) : ∃ a, 0 < a ∧ ∀ i ≤ n, f i = f 0 ↔ i < a := by
  induction n generalizing f with
  | zero =>
    refine ⟨1, one_pos, fun i hi => ?_⟩
    rw [Nat.le_zero.mp hi]
    exact iff_of_true rfl one_pos
  | succ n ih =>
    rw [changes] at h
    by_cases h10 : f 1 = f 0
    · rw [if_pos h10, Nat.zero_add] at h
      obtain ⟨a, _, ha⟩ := ih h
      refine ⟨a + 1, by omega, fun i hi => ?_⟩
      cases i with
      | zero => exact iff_of_true rfl (by omega)
      | succ i =>
        rw [← h10, Nat.add_lt_add_iff_right]
        exact ha i (by omega)
    · rw [if_neg h10] at h
      have hconst := const_of_changes (show changes (fun i => f (i + 1)) n = 0 by omega)
      refine ⟨1, one_pos, fun i hi => ?_⟩
      cases i with
      | zero => exact iff_of_true rfl one_pos
      | succ i =>
        have hi' : f (i + 1) = f 1 := hconst i (by omega)
        rw [hi']
        exact iff_of_false h10 (by omega)

/-- With at most two changes the values that differ from the first stand together. -/
theorem three_runs (h : changes f n ≤ 2) :
    ∃ a b, 0 < a ∧ a ≤ b ∧ ∀ i ≤ n, f i = f 0 ↔ i < a ∨ b ≤ i := by
  induction n generalizing f with
  | zero =>
    refine ⟨1, 1, one_pos, le_rfl, fun i hi => ?_⟩
    rw [Nat.le_zero.mp hi]
    exact iff_of_true rfl (.inl one_pos)
  | succ n ih =>
    rw [changes] at h
    by_cases h10 : f 1 = f 0
    · rw [if_pos h10, Nat.zero_add] at h
      obtain ⟨a, b, _, hab, ha⟩ := ih h
      refine ⟨a + 1, b + 1, by omega, by omega, fun i hi => ?_⟩
      cases i with
      | zero => exact iff_of_true rfl (.inl (by omega))
      | succ i =>
        rw [← h10, Nat.add_lt_add_iff_right, Nat.add_le_add_iff_right]
        exact ha i (by omega)
    · rw [if_neg h10] at h
      obtain ⟨a, ha0, ha⟩ := two_runs (show changes (fun i => f (i + 1)) n ≤ 1 by omega)
      refine ⟨1, a + 1, one_pos, by omega, fun i hi => ?_⟩
      cases i with
      | zero => exact iff_of_true rfl (.inl one_pos)
      | succ i =>
        have hi' : f (i + 1) = f 1 ↔ i < a := ha i (by omega)
        -- two values that both differ from the first are equal
        have hcase : f (i + 1) = f 0 ↔ ¬f (i + 1) = f 1 := by
          revert h10
          cases f (i + 1) <;> cases f 1 <;> cases f 0 <;> decide
        rw [hcase, hi']
        omega

end Runs
