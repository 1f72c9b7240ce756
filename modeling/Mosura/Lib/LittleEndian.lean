import Mathlib

/-! Numbers as bytes, least significant first, and reading at an offset of concatenated fields. -/

namespace Mosura
namespace Lib

/-- The `width` low bytes of `n`. -/
def toLe : ℕ → ℕ → List (BitVec 8)
  | 0, _ => []
  | width + 1, n => BitVec.ofNat 8 n :: toLe width (n / 256)

/-- The number these bytes are. -/
def fromLe : List (BitVec 8) → ℕ
  | [] => 0
  | b :: bs => b.toNat + 256 * fromLe bs

@[simp]
theorem length_toLe (width n : ℕ) : (toLe width n).length = width := by
  induction width generalizing n with
  | zero => rfl
  | succ width ih =>
    change (toLe width (n / 256)).length + 1 = _
    rw [ih]

/-- Writing a number keeps it modulo the width of its field. -/
theorem fromLe_toLe (width n : ℕ) : fromLe (toLe width n) = n % 256 ^ width := by
  induction width generalizing n with
  | zero => exact (Nat.mod_one n).symm
  | succ width ih =>
    change (BitVec.ofNat 8 n).toNat + 256 * fromLe (toLe width (n / 256)) = _
    rw [ih, BitVec.toNat_ofNat]
    change n % 256 + 256 * (n / 256 % 256 ^ width) = _
    rw [pow_succ' (256 : ℕ)]
    exact Nat.mod_mul.symm

theorem fromLe_toLe_of_lt {width n : ℕ} (h : n < 256 ^ width) : fromLe (toLe width n) = n := by
  rw [fromLe_toLe, Nat.mod_eq_of_lt h]

theorem fromLe_lt (bs : List (BitVec 8)) : fromLe bs < 256 ^ bs.length := by
  induction bs with
  | nil => exact Nat.one_pos
  | cons b bs ih =>
    have hb := b.isLt
    change b.toNat + 256 * fromLe bs < 256 ^ (bs.length + 1)
    rw [pow_succ]
    omega

theorem getElem_toLe {width n i : ℕ} (h : i < (toLe width n).length) :
    (toLe width n)[i] = BitVec.ofNat 8 (n / 256 ^ i) := by
  induction width generalizing n i with
  | zero => exact absurd h (Nat.not_lt_zero i)
  | succ width ih =>
    cases i with
    | zero => exact congrArg (BitVec.ofNat 8) (Nat.div_one n).symm
    | succ i =>
      have htail : i < (toLe width (n / 256)).length := Nat.lt_of_succ_lt_succ h
      change (toLe width (n / 256))[i] = _
      rw [ih htail, Nat.div_div_eq_div_mul, pow_succ']

theorem fromLe_append (xs ys : List (BitVec 8)) :
    fromLe (xs ++ ys) = fromLe xs + 256 ^ xs.length * fromLe ys := by
  induction xs with
  | nil =>
    change fromLe ys = 0 + 1 * fromLe ys
    omega
  | cons x xs ih =>
    change x.toNat + 256 * fromLe (xs ++ ys) = x.toNat + 256 * fromLe xs + 256 ^ (xs.length + 1) * _
    rw [ih, pow_succ]
    ring

/-- The bytes from the `k`-th on are what a division by `256 ^ k` leaves. -/
theorem fromLe_div {bs : List (BitVec 8)} {k : ℕ} (hk : k ≤ bs.length) :
    fromLe bs / 256 ^ k = fromLe (bs.drop k) := by
  have hlen : (bs.take k).length = k := List.length_take_of_le hk
  have hlt := fromLe_lt (bs.take k)
  have happ := fromLe_append (bs.take k) (bs.drop k)
  rw [List.take_append_drop, hlen] at happ
  rw [hlen] at hlt
  rw [happ, Nat.add_mul_div_left _ _ (Nat.pow_pos (by norm_num)), Nat.div_eq_of_lt hlt, Nat.zero_add]

theorem fromLe_mod {bs : List (BitVec 8)} {k : ℕ} (hk : k ≤ bs.length) :
    fromLe bs % 256 ^ k = fromLe (bs.take k) := by
  have hlen : (bs.take k).length = k := List.length_take_of_le hk
  have hlt := fromLe_lt (bs.take k)
  have happ := fromLe_append (bs.take k) (bs.drop k)
  rw [List.take_append_drop, hlen] at happ
  rw [hlen] at hlt
  rw [happ, Nat.add_mul_mod_self_left, Nat.mod_eq_of_lt hlt]

section Fields

variable {α : Type*}

/-- `n` elements from offset `at_` on. -/
def field (bs : List α) (at_ n : ℕ) : List α := (bs.drop at_).take n

theorem field_left {x post : List α} {n : ℕ} (hn : x.length = n) : field (x ++ post) 0 n = x := by
  rw [← hn]
  exact List.take_left

/-- A field lies past what comes before it. -/
theorem field_right {x post : List α} {at_ n : ℕ} (h : x.length ≤ at_) :
    field (x ++ post) at_ n = field post (at_ - x.length) n := by
  unfold field
  rw [List.drop_append, List.drop_eq_nil_of_le h, List.nil_append]

/-- A field is found behind what comes before it. -/
theorem field_append {pre x post : List α} {at_ n : ℕ} (hat : pre.length = at_)
    (hn : x.length = n) : field (pre ++ (x ++ post)) at_ n = x := by
  rw [field_right hat.le, hat, Nat.sub_self, field_left hn]

theorem field_of_le {bs : List α} {at_ n : ℕ} (h : at_ + n ≤ bs.length) :
    (field bs at_ n).length = n := by
  unfold field
  rw [List.length_take, List.length_drop]
  omega

end Fields

/-- The next multiple of 8. -/
def align8 (n : ℕ) : ℕ := (n + 7) / 8 * 8

theorem le_align8 (n : ℕ) : n ≤ align8 n := by
  unfold align8
  omega

end Lib
end Mosura
