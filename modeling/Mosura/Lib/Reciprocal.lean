import Mathlib

/-! Division by a constant as a multiplication and a division by a fixed number. -/

namespace Mosura
namespace Lib

/-- The multiplier `m` over `P` exceeds one `d`-th by `e` over `d * P`. -/
structure Reciprocal (d m P e : ℕ) : Prop where
  mul_eq : d * m = P + e
  pos : 0 < P

namespace Reciprocal

variable {d m P e x : ℕ}

theorem divisor_pos (h : Reciprocal d m P e) : 0 < d := by
  by_contra hd
  have heq := h.mul_eq
  have hpos := h.pos
  rw [Nat.eq_zero_of_not_pos hd, Nat.zero_mul] at heq
  omega

/-- While the excess stays below one unit the multiplication divides. -/
theorem mul_div_eq_div (h : Reciprocal d m P e) (hx : x * e < P) : x * m / P = x / d := by
  have hprod : d * (x * m) = x * e + x * P := by
    rw [Nat.mul_left_comm, h.mul_eq, Nat.mul_add, Nat.add_comm]
  calc x * m / P = d * (x * m) / (d * P) := (Nat.mul_div_mul_left _ _ h.divisor_pos).symm
    _ = (x * e + x * P) / P / d := by rw [hprod, Nat.mul_comm d, Nat.div_div_eq_div_mul]
    _ = x / d := by rw [Nat.add_mul_div_right _ _ h.pos, Nat.div_eq_of_lt hx, Nat.zero_add]

/-- Where the divisor is reached within one unit, the quotients are 0 and 1. -/
theorem mul_div_eq_div_of_lt (h : Reciprocal d m P e) (hbelow : (d - 1) * m < P)
    (hx : x < 2 * d) (habove : x * m < 2 * P) : x * m / P = x / d := by
  have hd := h.divisor_pos
  by_cases hlt : x < d
  · have hprod : x * m ≤ (d - 1) * m := Nat.mul_le_mul_right m (by omega)
    rw [Nat.div_eq_of_lt hlt, Nat.div_eq_of_lt (by omega)]
  · have hprod : d * m ≤ x * m := Nat.mul_le_mul_right m (by omega)
    have heq := h.mul_eq
    have hone : x / d = 1 := Nat.div_eq_of_lt_le (by omega) (by omega)
    rw [hone]
    exact Nat.div_eq_of_lt_le (by omega) (by omega)

end Reciprocal

end Lib
end Mosura
