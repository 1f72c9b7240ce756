import Mathlib

/-! Registers whose bits move by one place a step, round a ring or past an end. -/

namespace Mosura
namespace Lib

/-- Where each step takes a bit from the next place, `n` steps take it from the `n`-th. -/
theorem iterate_bit {α β ι : Type} {step : α → α} (bit : α → ι → β) {next : ι → ι} {P : ι → Prop}
    (hP : ∀ i, P i → P (next i)) (hstep : ∀ s i, P i → bit (step s) i = bit s (next i)) (n : ℕ)
    (s : α) {i : ι} (hi : P i) : bit (step^[n] s) i = bit s (next^[n] i) := by
  induction n generalizing i with
  | zero => rfl
  | succ n ih =>
    rw [Function.iterate_succ_apply', hstep _ _ hi, ih (hP i hi), Function.iterate_succ_apply]

section Ring

variable {w d i : ℕ}

theorem iterate_ring (n : ℕ) (hi : i < w) :
    (fun j => (j + d) % w)^[n] i = (i + n * d) % w := by
  induction n with
  | zero => rw [Nat.zero_mul, Nat.add_zero, Nat.mod_eq_of_lt hi]; rfl
  | succ n ih =>
    rw [Function.iterate_succ_apply', ih, Nat.mod_add_mod, Nat.succ_mul, Nat.add_assoc]

/-- `n` places up a ring of `w`. -/
theorem ring_up (n : ℕ) (hi : i < w) :
    (i + n * 1) % w = if i + n % w < w then i + n % w else i + n % w - w := by
  have hk := Nat.mod_lt n (Nat.zero_lt_of_lt hi)
  rw [Nat.mul_one, Nat.add_mod, Nat.mod_eq_of_lt hi]
  split_ifs with h
  · exact Nat.mod_eq_of_lt h
  · rw [Nat.mod_eq_sub_mod (by omega), Nat.mod_eq_of_lt (by omega)]

/-- `n` places down a ring of `w`. -/
theorem ring_down (n : ℕ) (hi : i < w) :
    (i + n * (w - 1)) % w = if i < n % w then i + w - n % w else i - n % w := by
  have hk := Nat.mod_lt n (Nat.zero_lt_of_lt hi)
  have hx := Nat.mod_lt (i + n * (w - 1)) (Nat.zero_lt_of_lt hi)
  have hback : ((i + n * (w - 1)) % w + n % w) % w = i := by
    rw [← Nat.add_mod, Nat.add_assoc, ← Nat.mul_succ, Nat.succ_eq_add_one,
      Nat.sub_add_cancel (Nat.one_le_of_lt hi), Nat.add_mul_mod_self_right, Nat.mod_eq_of_lt hi]
  generalize (i + n * (w - 1)) % w = x at hx hback
  by_cases hlt : x + n % w < w
  · rw [Nat.mod_eq_of_lt hlt] at hback
    split_ifs <;> omega
  · rw [Nat.mod_eq_sub_mod (by omega), Nat.mod_eq_of_lt (by omega)] at hback
    split_ifs <;> omega

end Ring

/-- Something changes among the first `n` steps unless all are off or all are on. -/
theorem exists_change_iff {b : ℕ → Bool} {n : ℕ} :
    (∃ i < n, b i ≠ b (i + 1)) ↔ (∃ i ≤ n, b i = true) ∧ ∃ i ≤ n, b i = false := by
  constructor
  · rintro ⟨i, hi, hne⟩
    cases hb : b i with
    | true => exact ⟨⟨i, hi.le, hb⟩, i + 1, hi, by rw [hb] at hne; simpa using hne.symm⟩
    | false => exact ⟨⟨i + 1, hi, by rw [hb] at hne; simpa using hne.symm⟩, i, hi.le, hb⟩
  · intro h
    by_contra hsame
    push Not at hsame
    have hfirst : ∀ i ≤ n, b i = b 0 := by
      intro i hi
      induction i with
      | zero => rfl
      | succ i ih => rw [← hsame i hi, ih (by omega)]
    obtain ⟨⟨i, hi, htrue⟩, j, hj, hfalse⟩ := h
    rw [hfirst i hi] at htrue
    rw [hfirst j hj, htrue] at hfalse
    cases hfalse

end Lib
end Mosura
