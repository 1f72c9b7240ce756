import Mosura.EmuM68k

/-! The closed forms of the 68000 shifts compute what single steps do. -/

namespace Mosura
namespace Emu
open Lib

/-! Words of 64 bits that hold narrower ones. -/

section Words

variable {bits n : ℕ} {w : BitVec bits}

theorem lowMask_eq (h : bits < 64) :
    ((1#64 <<< bits) - 1#64 : U64) = BitVec.ofNat 64 (2 ^ bits - 1) := by
  have hlt : 2 ^ bits < 2 ^ 64 := Nat.pow_lt_pow_right one_lt_two h
  have hpos := Nat.two_pow_pos bits
  apply BitVec.eq_of_toNat_eq
  rw [BitVec.toNat_sub, BitVec.toNat_shiftLeft, BitVec.toNat_ofNat, BitVec.toNat_ofNat,
    Nat.one_mod, Nat.shiftLeft_eq, Nat.one_mul, Nat.mod_eq_of_lt hlt]
  omega

theorem lowMask_getLsbD (h : bits < 64) (i : ℕ) :
    ((1#64 <<< bits) - 1#64 : U64).getLsbD i = decide (i < bits) := by
  rw [lowMask_eq h, BitVec.getLsbD_ofNat, Nat.testBit_two_pow_sub_one]
  by_cases hi : i < bits
  · simp [hi, hi.trans h]
  · simp [hi]

theorem and_lowMask (r : U64) (h : bits < 64) :
    r &&& ((1#64 <<< bits) - 1#64) = (r.setWidth bits).setWidth 64 := by
  apply BitVec.eq_of_getLsbD_eq
  intro i hi
  rw [BitVec.getLsbD_and, lowMask_getLsbD h, BitVec.getLsbD_setWidth, BitVec.getLsbD_setWidth,
    decide_eq_true hi, Bool.true_and, Bool.and_comm]

theorem lowBit_ne_zero (r : U64) (k : ℕ) : ((r >>> k) &&& 1#64 != 0#64) = r.getLsbD k := by
  rw [BitVec.and_one_eq_setWidth_ofBool_getLsbD, BitVec.getLsbD_ushiftRight, Nat.add_zero]
  cases r.getLsbD k <;> rfl

theorem setWidth_shiftLeft (h : bits ≤ 64) (n : ℕ) :
    (w.setWidth 64 <<< n).setWidth bits = w <<< n := by
  apply BitVec.eq_of_getLsbD_eq
  intro i hi
  have h64 := hi.trans_le h
  simp only [BitVec.getLsbD_setWidth, BitVec.getLsbD_shiftLeft, hi, h64, decide_true, Bool.true_and,
    show i - n < 64 by omega]

theorem setWidth_ushiftRight (h : bits ≤ 64) (n : ℕ) :
    w.setWidth 64 >>> n = (w >>> n).setWidth 64 := by
  apply BitVec.eq_of_getLsbD_eq
  intro i hi
  simp only [BitVec.getLsbD_setWidth, BitVec.getLsbD_ushiftRight, hi, decide_true, Bool.true_and]
  by_cases hn : n + i < 64
  · rw [decide_eq_true hn, Bool.true_and]
  · rw [decide_eq_false hn, Bool.false_and, BitVec.getLsbD_of_ge w _ (by omega)]

theorem signed_eq (hpos : 0 < bits) (h : bits ≤ 64) :
    (w.setWidth 64 <<< (64 - bits)).sshiftRight (64 - bits) = w.signExtend 64 := by
  apply BitVec.eq_of_getLsbD_eq
  intro i hi
  have hmsb : (w.setWidth 64 <<< (64 - bits)).msb = w.msb := by
    rw [BitVec.msb_eq_getLsbD_last, BitVec.msb_eq_getLsbD_last]
    simp only [BitVec.getLsbD_setWidth, BitVec.getLsbD_shiftLeft]
    rw [show 64 - 1 - (64 - bits) = bits - 1 by omega]
    simp [show ¬ 63 < 64 - bits by omega, show bits - 1 < 64 by omega]
  rw [BitVec.getLsbD_sshiftRight, BitVec.getLsbD_signExtend, hmsb]
  by_cases hib : i < bits
  · rw [if_pos (by omega), if_pos hib]
    simp [hi, show 64 - bits + i < 64 by omega]
  · rw [if_neg (by omega), if_neg hib]
    simp [hi]

theorem signExtend_sshiftRight (h : bits ≤ 64) (n : ℕ) :
    ((w.signExtend 64).sshiftRight n).setWidth bits = w.sshiftRight n := by
  apply BitVec.eq_of_getLsbD_eq
  intro i hi
  have h64 := hi.trans_le h
  have hmsb : (w.signExtend 64).msb = w.msb := by
    rw [BitVec.msb_eq_getLsbD_last, BitVec.getLsbD_signExtend]
    split_ifs with hlt
    · rw [BitVec.msb_eq_getLsbD_last, show bits - 1 = 64 - 1 by omega]
      rfl
    · rfl
  rw [BitVec.getLsbD_setWidth, BitVec.getLsbD_sshiftRight, BitVec.getLsbD_sshiftRight,
    BitVec.getLsbD_signExtend, hmsb, decide_eq_true hi, Bool.true_and,
    decide_eq_false (not_le.mpr h64), decide_eq_false (not_le.mpr hi)]
  by_cases hn : n + i < bits
  · rw [if_pos (by omega), if_pos hn, decide_eq_true (by omega), Bool.true_and]
  · rw [if_neg hn]
    split_ifs with hlt
    · rw [decide_eq_true hlt, Bool.true_and]
    · rfl

theorem sshiftRight_min (n : ℕ) : w.sshiftRight (min n bits) = w.sshiftRight n := by
  apply BitVec.eq_of_getLsbD_eq
  intro i hi
  rw [BitVec.getLsbD_sshiftRight, BitVec.getLsbD_sshiftRight]
  rcases le_total n bits with h | h
  · rw [min_eq_left h]
  · rw [min_eq_right h, if_neg (by omega), if_neg (by omega)]

end Words

/-! A word turned round. -/

section Turned

/-- The rotation of both `rod` and `roxd`. -/
def turned (left : Bool) (width k : ℕ) (a : U64) : U64 :=
  if k = 0 then a
  else if left then ((a <<< k) ||| (a >>> (width - k))) &&& ((1#64 <<< width) - 1#64)
  else ((a >>> k) ||| (a <<< (width - k))) &&& ((1#64 <<< width) - 1#64)

/-- Where a bit comes from, places up. -/
def dist (left : Bool) (width : ℕ) : ℕ := if left then width - 1 else 1

variable {width n i : ℕ} {left : Bool} {a : BitVec width}

theorem turned_getLsbD (h : width < 64) (hi : i < width) :
    (turned left width (n % width) (a.setWidth 64)).getLsbD i =
      a.getLsbD ((i + n * dist left width) % width) := by
  have h64 := hi.trans h
  have hk := Nat.mod_lt n (Nat.zero_lt_of_lt hi)
  unfold turned dist
  cases left with
  | true =>
    simp only [if_true, ring_down n hi]
    by_cases h0 : n % width = 0
    · rw [if_pos h0, h0, if_neg (Nat.not_lt_zero i), BitVec.getLsbD_setWidth, decide_eq_true h64]
      rfl
    · rw [if_neg h0, and_lowMask _ h]
      simp only [BitVec.getLsbD_setWidth, BitVec.getLsbD_or, BitVec.getLsbD_shiftLeft,
        BitVec.getLsbD_ushiftRight, h64, hi, decide_true, Bool.true_and]
      by_cases hlt : i < n % width
      · rw [if_pos hlt, decide_eq_true hlt, decide_eq_true (by omega),
          show width - n % width + i = i + width - n % width by omega,
          decide_eq_true (show i + width - n % width < 64 by omega)]
        simp
      · rw [if_neg hlt, decide_eq_false hlt, decide_eq_true (by omega),
          BitVec.getLsbD_of_ge a (width - n % width + i) (by omega)]
        simp
  | false =>
    simp only [Bool.false_eq_true, if_false, ring_up n hi]
    by_cases h0 : n % width = 0
    · rw [if_pos h0, h0, Nat.add_zero, if_pos hi, BitVec.getLsbD_setWidth, decide_eq_true h64]
      rfl
    · rw [if_neg h0, and_lowMask _ h]
      simp only [BitVec.getLsbD_setWidth, BitVec.getLsbD_or, BitVec.getLsbD_shiftLeft,
        BitVec.getLsbD_ushiftRight, h64, hi, decide_true, Bool.true_and]
      by_cases hlt : i + n % width < width
      · rw [if_pos hlt, decide_eq_true (show i < width - n % width by omega),
          decide_eq_true (by omega), Nat.add_comm]
        simp
      · rw [if_neg hlt, decide_eq_false (show ¬ i < width - n % width by omega),
          decide_eq_true (show i - (width - n % width) < 64 by omega),
          BitVec.getLsbD_of_ge a (n % width + i) (by omega),
          show i - (width - n % width) = i + n % width - width by omega]
        simp

theorem turned_getLsbD_of_ge (h : width < 64) (hi : width ≤ i) :
    (turned left width (n % width) (a.setWidth 64)).getLsbD i = false := by
  unfold turned
  split_ifs <;> simp only [and_lowMask _ h, BitVec.getLsbD_setWidth]
  · rw [BitVec.getLsbD_of_ge a i hi, Bool.and_false]
  · rw [decide_eq_false (not_lt.mpr hi), Bool.false_and, Bool.and_false]
  · rw [decide_eq_false (not_lt.mpr hi), Bool.false_and, Bool.and_false]

end Turned

/-! What `n` steps do. -/

namespace ShiftState

variable {w n i : ℕ} {kind : ShiftKind} {left : Bool} {value : BitVec w} {x : Bool}

theorem steps_succ :
    steps kind left (n + 1) value x = oneBit kind left (steps kind left n value x) :=
  Function.iterate_succ_apply' _ _ _

theorem steps_value_left (hkind : kind = .arithmetic ∨ kind = .logical) :
    (steps kind true n value x).value = value <<< n := by
  induction n with
  | zero => exact (BitVec.shiftLeft_zero value).symm
  | succ n ih =>
    rw [BitVec.shiftLeft_add, ← ih, steps_succ]
    obtain rfl | rfl := hkind <;> rfl

theorem steps_value_right : (steps .logical false n value x).value = value >>> n := by
  induction n with
  | zero => exact (BitVec.ushiftRight_zero value).symm
  | succ n ih =>
    rw [BitVec.shiftRight_add, ← ih, steps_succ]
    rfl

theorem steps_value_sright :
    (steps .arithmetic false n value x).value = value.sshiftRight n := by
  induction n with
  | zero => exact BitVec.sshiftRight_zero.symm
  | succ n ih =>
    rw [BitVec.sshiftRight_add, ← ih, steps_succ]
    rfl

/-- V collects the changes of the sign. -/
theorem steps_v_left : (steps .arithmetic true n value x).v =
    decide (∃ i < n, (value <<< i).msb ≠ (value <<< (i + 1)).msb) := by
  induction n with
  | zero => rfl
  | succ n ih =>
    rw [steps_succ]
    change ((steps .arithmetic true n value x).v ||
      ((steps .arithmetic true n value x).value.msb !=
        ((steps .arithmetic true n value x).value <<< 1).msb)) = _
    rw [ih, steps_value_left (Or.inl rfl), ← BitVec.shiftLeft_add, Bool.eq_iff_iff]
    simp only [Bool.or_eq_true, decide_eq_true_eq, bne_iff_ne, Nat.lt_succ_iff_lt_or_eq,
      or_and_right, exists_or, exists_eq_left]

/-- Every other kind clears it. -/
theorem steps_v (h : ¬ (kind = .arithmetic ∧ left = true)) :
    (steps kind left n value x).v = false := by
  cases n with
  | zero => rfl
  | succ n =>
    rw [steps_succ]
    cases kind <;> cases left <;> first | rfl | exact absurd ⟨rfl, rfl⟩ h

theorem steps_x_rotate : (steps .rotate left n value x).x = x := by
  induction n with
  | zero => rfl
  | succ n ih =>
    refine Eq.trans ?_ ih
    rw [steps_succ]
    cases left <;> rfl

/-- The step of a rotation takes each bit from its neighbour. -/
theorem oneBit_rotate_getLsbD (s : ShiftState w) (hi : i < w) :
    (oneBit .rotate left s).value.getLsbD i = s.value.getLsbD ((i + dist left w) % w) := by
  cases left with
  | true =>
    change (s.value.rotateLeft 1).getLsbD i = _
    rw [BitVec.getLsbD_rotateLeft, show dist true w = 1 * (w - 1) from (Nat.one_mul _).symm,
      ring_down 1 hi, decide_eq_true hi, Bool.cond_decide, Bool.true_and]
    split_ifs
    · rw [show w - 1 % w + i = i + w - 1 % w by have := Nat.mod_lt 1 (Nat.zero_lt_of_lt hi); omega]
    · rfl
  | false =>
    change (s.value.rotateRight 1).getLsbD i = _
    rw [BitVec.getLsbD_rotateRight, show dist false w = 1 * 1 from rfl, ring_up 1 hi,
      decide_eq_true hi, Bool.cond_decide, Bool.true_and]
    have hk := Nat.mod_lt 1 (Nat.zero_lt_of_lt hi)
    by_cases h : i + 1 % w < w
    · rw [if_pos h, if_pos (by omega), Nat.add_comm]
    · rw [if_neg h, if_neg (by omega), show i - (w - 1 % w) = i + 1 % w - w by omega]

theorem steps_rotate_getLsbD (hi : i < w) :
    (steps .rotate left n value x).value.getLsbD i =
      value.getLsbD ((i + n * dist left w) % w) := by
  rw [← iterate_ring n hi]
  exact iterate_bit (fun (s : ShiftState w) j => s.value.getLsbD j) (P := fun j => j < w)
    (fun _ hj => Nat.mod_lt _ (Nat.zero_lt_of_lt hj)) (fun s _ hj => oneBit_rotate_getLsbD s hj) n
    (start .rotate value x) hi

/-- The bits of the value with X above them. -/
def ring (s : ShiftState w) (i : ℕ) : Bool := if i < w then s.value.getLsbD i else s.x

theorem oneBit_ring (hw : 0 < w) (s : ShiftState w) (hi : i < w + 1) :
    (oneBit .rotateExtended left s).ring i = s.ring ((i + dist left (w + 1)) % (w + 1)) := by
  have h1 : 1 % (w + 1) = 1 := Nat.mod_eq_of_lt (by omega)
  cases left with
  | true =>
    rw [show dist true (w + 1) = 1 * (w + 1 - 1) from (Nat.one_mul _).symm, ring_down 1 hi, h1]
    unfold ring
    change (if i < w then ((s.value <<< 1) ||| (BitVec.ofBool s.x).setWidth w).getLsbD i
      else s.value.msb) = _
    rw [BitVec.getLsbD_or, BitVec.getLsbD_shiftLeft, BitVec.getLsbD_setWidth,
      BitVec.getLsbD_ofBool]
    by_cases h0 : i = 0
    · subst h0
      rw [if_pos hw, if_pos Nat.one_pos, if_neg (by omega)]
      simp [hw]
    · rw [if_neg (show ¬ i < 1 by omega), if_pos (show i - 1 < w by omega)]
      split_ifs with hiw
      · simp [hiw, h0, show ¬ i < 1 by omega]
      · rw [BitVec.msb_eq_getLsbD_last, show i = w by omega]
  | false =>
    rw [show dist false (w + 1) = 1 * 1 from rfl, ring_up 1 hi, h1]
    unfold ring
    change (if i < w then ((s.value >>> 1) |||
      ((BitVec.ofBool s.x).setWidth w <<< (w - 1))).getLsbD i else s.value.getLsbD 0) = _
    rw [BitVec.getLsbD_or, BitVec.getLsbD_ushiftRight, BitVec.getLsbD_shiftLeft,
      BitVec.getLsbD_setWidth, BitVec.getLsbD_ofBool]
    by_cases hiw : i = w
    · subst hiw
      rw [if_neg (Nat.lt_irrefl i), if_neg (Nat.lt_irrefl (i + 1)), Nat.sub_self, if_pos hw]
    · rw [if_pos (show i < w by omega), if_pos (show i + 1 < w + 1 by omega)]
      by_cases hlast : i + 1 < w
      · rw [if_pos hlast, decide_eq_true (show i < w - 1 by omega), Nat.add_comm]
        simp
      · rw [if_neg hlast, decide_eq_false (show ¬ i < w - 1 by omega),
          BitVec.getLsbD_of_ge s.value (1 + i) (by omega), show i - (w - 1) = 0 by omega]
        simp [hw, show i < w by omega]

theorem steps_ring (hw : 0 < w) (hi : i < w + 1) :
    (steps .rotateExtended left n value x).ring i =
      (start .rotateExtended value x).ring ((i + n * dist left (w + 1)) % (w + 1)) := by
  rw [← iterate_ring n hi]
  exact iterate_bit ring (P := fun j => j < w + 1)
    (fun _ hj => Nat.mod_lt _ (Nat.zero_lt_of_lt hj)) (fun s _ hj => oneBit_ring hw s hj) n _ hi

end ShiftState

/-! The window of the bits that pass through the sign. -/

section Window

variable {bits n i : ℕ} {w : BitVec bits}

theorem msb_shiftLeft (hi : i < bits) : (w <<< i).msb = w.getLsbD (bits - 1 - i) := by
  rw [BitVec.msb_eq_getLsbD_last, BitVec.getLsbD_shiftLeft, decide_eq_true (by omega),
    decide_eq_false (by omega)]
  rfl

theorem msb_shiftLeft_of_le (hi : bits ≤ i) : (w <<< i).msb = false := by
  rw [BitVec.shiftLeft_eq_zero hi, BitVec.msb_zero]

theorem ne_iff_exists_bit {m : ℕ} {a b : BitVec m} :
    a ≠ b ↔ ∃ i < m, a.getLsbD i ≠ b.getLsbD i := by
  constructor
  · intro h
    by_contra hall
    push Not at hall
    exact h (BitVec.eq_of_getLsbD_eq hall)
  · rintro ⟨i, -, hne⟩ rfl
    exact hne rfl

theorem top_getLsbD (h : bits ≤ 64) (hn : n < bits) (hi : i ≤ n) :
    (w.setWidth 64 >>> (bits - n - 1)).getLsbD (n - i) = (w <<< i).msb := by
  rw [msb_shiftLeft (by omega), BitVec.getLsbD_ushiftRight, BitVec.getLsbD_setWidth,
    decide_eq_true (by omega), Bool.true_and, show bits - n - 1 + (n - i) = bits - 1 - i by omega]

theorem top_getLsbD_of_lt (hn : n < bits) (hi : n < i) :
    (w.setWidth 64 >>> (bits - n - 1)).getLsbD i = false := by
  rw [BitVec.getLsbD_ushiftRight, BitVec.getLsbD_setWidth, BitVec.getLsbD_of_ge w _ (by omega),
    Bool.and_false]

theorem top_ne_zero_iff (h : bits ≤ 64) (hn : n < bits) :
    w.setWidth 64 >>> (bits - n - 1) ≠ 0#64 ↔ ∃ i ≤ n, (w <<< i).msb = true := by
  rw [ne_iff_exists_bit]
  simp only [BitVec.getLsbD_zero, ne_eq, Bool.not_eq_false]
  constructor
  · rintro ⟨j, -, hj⟩
    have hjn : j ≤ n := by
      by_contra hlt
      rw [top_getLsbD_of_lt hn (by omega)] at hj
      cases hj
    refine ⟨n - j, by omega, ?_⟩
    rwa [← top_getLsbD h hn (Nat.sub_le n j), show n - (n - j) = j by omega]
  · rintro ⟨i, hi, hmsb⟩
    exact ⟨n - i, by omega, (top_getLsbD h hn hi).trans hmsb⟩

theorem top_ne_ones_iff (h : bits < 64) (hn : n < bits) :
    w.setWidth 64 >>> (bits - n - 1) ≠ (1#64 <<< (n + 1)) - 1#64 ↔
      ∃ i ≤ n, (w <<< i).msb = false := by
  rw [ne_iff_exists_bit]
  simp only [lowMask_getLsbD (show n + 1 < 64 by omega)]
  constructor
  · rintro ⟨j, -, hj⟩
    have hjn : j ≤ n := by
      by_contra hlt
      rw [top_getLsbD_of_lt hn (by omega), decide_eq_false (by omega)] at hj
      exact hj rfl
    refine ⟨n - j, by omega, ?_⟩
    rw [decide_eq_true (by omega)] at hj
    rwa [← top_getLsbD h.le hn (Nat.sub_le n j), show n - (n - j) = j by omega,
      ← Bool.not_eq_true]
  · rintro ⟨i, hi, hmsb⟩
    refine ⟨n - i, by omega, ?_⟩
    rw [top_getLsbD h.le hn hi, hmsb, decide_eq_true (by omega)]
    exact Bool.false_ne_true

theorem setWidth_ne_zero_iff (h : bits ≤ 64) (hn : bits ≤ n) :
    w.setWidth 64 ≠ 0#64 ↔ ∃ i ≤ n, (w <<< i).msb = true := by
  rw [ne_iff_exists_bit]
  simp only [BitVec.getLsbD_zero, ne_eq, Bool.not_eq_false, BitVec.getLsbD_setWidth]
  constructor
  · rintro ⟨j, hj, hbit⟩
    rw [decide_eq_true hj, Bool.true_and] at hbit
    have hjb := BitVec.lt_of_getLsbD hbit
    refine ⟨bits - 1 - j, by omega, ?_⟩
    rwa [msb_shiftLeft (by omega), show bits - 1 - (bits - 1 - j) = j by omega]
  · rintro ⟨i, -, hmsb⟩
    have hib : i < bits := by
      by_contra hle
      rw [msb_shiftLeft_of_le (by omega)] at hmsb
      cases hmsb
    refine ⟨bits - 1 - i, by omega, ?_⟩
    rw [decide_eq_true (by omega), Bool.true_and, ← msb_shiftLeft hib, hmsb]

end Window

/-! The closed forms. -/

section Shift

open ShiftState

variable {bits n : ℕ} {w : BitVec bits} {value : U64} {kind : ShiftKind} {left x : Bool}

/-- A shifted value is the register with its flags; where X is not set it keeps its value. -/
structure Shifted.Agrees (r : Shifted) (x : Bool) (s : ShiftState bits) : Prop where
  value : r.value = s.value.setWidth 64
  x : r.x.getD x = s.x
  overflow : r.overflow = s.v
  carry : r.carry = s.c

theorem shift_zero (h : bits < 64) :
    (shift kind left bits value 0 x).Agrees x (steps kind left 0 (value.setWidth bits) x) :=
  ⟨and_lowMask value h, rfl, rfl, rfl⟩

/-- The last bit out of a shift to the left. -/
theorem left_carry (h : bits ≤ 64) :
    (decide (n + 1 ≤ bits) && ((w.setWidth 64 >>> (bits - (n + 1))) &&& 1#64 != 0#64)) =
      (w <<< n).msb := by
  rw [lowBit_ne_zero]
  by_cases hn : n < bits
  · rw [msb_shiftLeft hn, BitVec.getLsbD_setWidth, decide_eq_true (Nat.succ_le_of_lt hn),
      decide_eq_true (by omega), show bits - (n + 1) = bits - 1 - n by omega]
    rfl
  · rw [decide_eq_false (by omega), msb_shiftLeft_of_le (by omega)]
    rfl

theorem left_value (h : bits < 64) :
    (if n < bits then (w.setWidth 64 <<< n) &&& ((1#64 <<< bits) - 1#64) else 0) =
      (w <<< n).setWidth 64 := by
  split_ifs with hn
  · rw [and_lowMask _ h, setWidth_shiftLeft h.le]
  · rw [BitVec.shiftLeft_eq_zero (not_lt.mp hn), BitVec.setWidth_zero]
    rfl

theorem left_overflow (h : bits < 64) :
    (if bits ≤ n then w.setWidth 64 != 0#64
      else w.setWidth 64 >>> (bits - n - 1) != 0#64 &&
        w.setWidth 64 >>> (bits - n - 1) != (1#64 <<< (n + 1)) - 1#64) =
      decide (∃ i < n, (w <<< i).msb ≠ (w <<< (i + 1)).msb) := by
  rw [Bool.eq_iff_iff, decide_eq_true_iff, exists_change_iff (b := fun i => (w <<< i).msb)]
  split_ifs with hn
  · rw [bne_iff_ne, setWidth_ne_zero_iff h.le hn]
    exact (and_iff_left ⟨n, le_rfl, msb_shiftLeft_of_le hn⟩).symm
  · rw [Bool.and_eq_true, bne_iff_ne, bne_iff_ne, top_ne_zero_iff h.le (not_le.mp hn),
      top_ne_ones_iff h (not_le.mp hn)]

theorem shift_arithmetic_left (h : bits < 64) :
    (shift .arithmetic true bits value (n + 1) x).Agrees x
      (steps .arithmetic true (n + 1) (value.setWidth bits) x) := by
  unfold shift
  rw [if_neg (Nat.succ_ne_zero n), and_lowMask value h]
  constructor
  · exact (left_value h).trans (congrArg _ (steps_value_left (Or.inl rfl)).symm)
  · rw [steps_succ]
    exact (left_carry h.le).trans (congrArg BitVec.msb (steps_value_left (Or.inl rfl)).symm)
  · exact (left_overflow h).trans steps_v_left.symm
  · rw [steps_succ]
    exact (left_carry h.le).trans (congrArg BitVec.msb (steps_value_left (Or.inl rfl)).symm)

theorem shift_logical_left (h : bits < 64) :
    (shift .logical true bits value (n + 1) x).Agrees x
      (steps .logical true (n + 1) (value.setWidth bits) x) := by
  unfold shift
  rw [if_neg (Nat.succ_ne_zero n), and_lowMask value h]
  constructor
  · exact (left_value h).trans (congrArg _ (steps_value_left (Or.inr rfl)).symm)
  · rw [steps_succ]
    exact (left_carry h.le).trans (congrArg BitVec.msb (steps_value_left (Or.inr rfl)).symm)
  · exact (steps_v (by decide)).symm
  · rw [steps_succ]
    exact (left_carry h.le).trans (congrArg BitVec.msb (steps_value_left (Or.inr rfl)).symm)

/-- The last bit out of a shift to the right. -/
theorem right_carry (h : bits ≤ 64) :
    (decide (n + 1 ≤ bits) && ((w.setWidth 64 >>> (n + 1 - 1)) &&& 1#64 != 0#64)) =
      (w >>> n).getLsbD 0 := by
  rw [lowBit_ne_zero, BitVec.getLsbD_ushiftRight, Nat.add_sub_cancel, Nat.add_zero]
  by_cases hn : n < bits
  · rw [BitVec.getLsbD_setWidth, decide_eq_true (Nat.succ_le_of_lt hn), decide_eq_true (by omega)]
    rfl
  · rw [decide_eq_false (by omega), BitVec.getLsbD_of_ge w (n + 0) (by omega)]
    rfl

theorem shift_logical_right (h : bits < 64) :
    (shift .logical false bits value (n + 1) x).Agrees x
      (steps .logical false (n + 1) (value.setWidth bits) x) := by
  unfold shift
  rw [if_neg (Nat.succ_ne_zero n), and_lowMask value h]
  have hlast := right_carry (w := value.setWidth bits) (n := n) h.le
  have hvalue : value.setWidth bits >>> n = (steps .logical false n (value.setWidth bits) x).value :=
    steps_value_right.symm
  rw [hvalue] at hlast
  constructor
  · refine Eq.trans ?_ (congrArg _ steps_value_right.symm)
    dsimp only
    split_ifs with hn
    · exact setWidth_ushiftRight h.le _
    · rw [BitVec.ushiftRight_eq_zero (not_lt.mp hn), BitVec.setWidth_zero]
      rfl
  · rw [steps_succ]
    exact hlast
  · exact (steps_v (by decide)).symm
  · rw [steps_succ]
    exact hlast

/-- The last bit out of an arithmetic shift to the right; past the width it is the sign. -/
theorem sright_carry (hpos : 0 < bits) (h : bits ≤ 64) :
    (if n + 1 ≤ bits then ((w.signExtend 64).sshiftRight (n + 1 - 1)) >>> 0 &&& 1#64 != 0#64
      else (w.setWidth 64 >>> (bits - 1)) &&& 1#64 != 0#64) = (w.sshiftRight n).getLsbD 0 := by
  rw [lowBit_ne_zero, lowBit_ne_zero, Nat.add_sub_cancel]
  split_ifs with hn
  · rw [← signExtend_sshiftRight h, BitVec.getLsbD_setWidth, decide_eq_true hpos, Bool.true_and]
  · rw [BitVec.getLsbD_sshiftRight, if_neg (by omega), decide_eq_false (by omega),
      BitVec.getLsbD_setWidth, decide_eq_true (by omega), BitVec.msb_eq_getLsbD_last]
    rfl

theorem shift_arithmetic_right (hpos : 0 < bits) (h : bits < 64) :
    (shift .arithmetic false bits value (n + 1) x).Agrees x
      (steps .arithmetic false (n + 1) (value.setWidth bits) x) := by
  unfold shift
  rw [if_neg (Nat.succ_ne_zero n), and_lowMask value h, signed_eq hpos h.le]
  have hlast := sright_carry (w := value.setWidth bits) (n := n) hpos h.le
  have hvalue : (value.setWidth bits).sshiftRight n =
      (steps .arithmetic false n (value.setWidth bits) x).value := steps_value_sright.symm
  rw [hvalue] at hlast
  constructor
  · refine Eq.trans ?_ (congrArg _ steps_value_sright.symm)
    dsimp only
    rw [and_lowMask _ h, signExtend_sshiftRight h.le, sshiftRight_min]
  · rw [steps_succ]
    exact hlast
  · exact (steps_v (by decide)).symm
  · rw [steps_succ]
    exact hlast

theorem shift_rotate (hpos : 0 < bits) (h : bits < 64) :
    (shift .rotate left bits value (n + 1) x).Agrees x
      (steps .rotate left (n + 1) (value.setWidth bits) x) := by
  have hvalue : turned left bits ((n + 1) % bits) ((value.setWidth bits).setWidth 64) =
      (steps .rotate left (n + 1) (value.setWidth bits) x).value.setWidth 64 := by
    apply BitVec.eq_of_getLsbD_eq
    intro i hi
    rw [BitVec.getLsbD_setWidth, decide_eq_true hi, Bool.true_and]
    by_cases hib : i < bits
    · rw [turned_getLsbD h hib, steps_rotate_getLsbD hib]
    · rw [turned_getLsbD_of_ge h (not_lt.mp hib), BitVec.getLsbD_of_ge _ _ (not_lt.mp hib)]
  have hbit : ∀ k < bits,
      ((turned left bits ((n + 1) % bits) ((value.setWidth bits).setWidth 64) >>> k) &&& 1#64 !=
        0#64) = (steps .rotate left (n + 1) (value.setWidth bits) x).value.getLsbD k := by
    intro k hk
    rw [lowBit_ne_zero, hvalue, BitVec.getLsbD_setWidth, decide_eq_true (hk.trans h),
      Bool.true_and]
  unfold shift
  rw [if_neg (Nat.succ_ne_zero n), and_lowMask value h]
  constructor
  · exact hvalue
  · exact steps_x_rotate.symm
  · exact (steps_v fun hkind => by cases hkind.1).symm
  -- the last bit out is the first of the other end
  · cases left with
    | true =>
      refine (hbit 0 hpos).trans ?_
      rw [steps_succ, oneBit_rotate_getLsbD _ hpos]
      change _ = BitVec.msb _
      rw [BitVec.msb_eq_getLsbD_last, Nat.zero_add]
      exact congrArg _ (Nat.mod_eq_of_lt (Nat.sub_lt hpos Nat.one_pos))
    | false =>
      refine (hbit (bits - 1) (Nat.sub_lt hpos Nat.one_pos)).trans ?_
      rw [steps_succ, oneBit_rotate_getLsbD _ (Nat.sub_lt hpos Nat.one_pos)]
      change BitVec.getLsbD _ ((bits - 1 + 1) % bits) = BitVec.getLsbD _ 0
      rw [Nat.sub_add_cancel hpos, Nat.mod_self]

/-- X above the value. -/
theorem all_eq (h : bits < 63) :
    ((BitVec.ofBool x).setWidth 64 <<< bits ||| w.setWidth 64) =
      (BitVec.cons x w).setWidth 64 := by
  apply BitVec.eq_of_getLsbD_eq
  intro i hi
  rw [BitVec.getLsbD_or, BitVec.getLsbD_shiftLeft, BitVec.getLsbD_setWidth, BitVec.getLsbD_setWidth,
    BitVec.getLsbD_setWidth, BitVec.getLsbD_cons, BitVec.getLsbD_ofBool, decide_eq_true hi,
    Bool.true_and, Bool.true_and, Bool.true_and]
  by_cases hib : i = bits
  · subst hib
    rw [if_pos rfl, BitVec.getLsbD_of_ge w i le_rfl, Nat.sub_self]
    simp
  · rw [if_neg hib]
    by_cases hlt : i < bits
    · simp [hlt]
    · simp [hlt, show i - bits ≠ 0 by omega]

theorem cons_getLsbD_eq_ring {i : ℕ} (hi : i < bits + 1) :
    (BitVec.cons x w).getLsbD i = (start .rotateExtended w x).ring i := by
  rw [BitVec.getLsbD_cons]
  unfold ring
  by_cases h : i < bits
  · rw [if_neg h.ne, if_pos h]
    rfl
  · rw [if_pos (by omega), if_neg h]
    rfl

theorem shift_rotateExtended (hpos : 0 < bits) (h : bits < 63) :
    (shift .rotateExtended left bits value (n + 1) x).Agrees x
      (steps .rotateExtended left (n + 1) (value.setWidth bits) x) := by
  have hring : ∀ i < bits + 1,
      (turned left (bits + 1) ((n + 1) % (bits + 1))
        ((BitVec.cons x (value.setWidth bits)).setWidth 64)).getLsbD i =
      (steps .rotateExtended left (n + 1) (value.setWidth bits) x).ring i := by
    intro i hi
    rw [turned_getLsbD (by omega) hi, steps_ring hpos hi,
      cons_getLsbD_eq_ring (Nat.mod_lt _ (by omega))]
  have hlast : (turned left (bits + 1) ((n + 1) % (bits + 1))
        ((BitVec.cons x (value.setWidth bits)).setWidth 64) >>> bits != 0#64) =
      (steps .rotateExtended left (n + 1) (value.setWidth bits) x).x := by
    have htop := hring bits (Nat.lt_succ_self bits)
    rw [ring, if_neg (Nat.lt_irrefl bits)] at htop
    rw [← htop, Bool.eq_iff_iff, bne_iff_ne, ne_iff_exists_bit]
    simp only [BitVec.getLsbD_ushiftRight, BitVec.getLsbD_zero, ne_eq, Bool.not_eq_false]
    refine ⟨fun ⟨j, _, hj⟩ => ?_, fun hbit => ⟨0, by decide, hbit⟩⟩
    have h0 : j = 0 := by
      by_contra hne
      rw [turned_getLsbD_of_ge (by omega) (by omega)] at hj
      cases hj
    rwa [h0] at hj
  unfold shift
  rw [if_neg (Nat.succ_ne_zero n), and_lowMask value (by omega)]
  dsimp only
  rw [all_eq h]
  constructor
  · refine (and_lowMask _ (by omega)).trans (congrArg _ (BitVec.eq_of_getLsbD_eq fun i hi => ?_))
    rw [BitVec.getLsbD_setWidth, decide_eq_true hi, Bool.true_and]
    refine (hring i (by omega)).trans ?_
    rw [ring, if_pos hi]
  · exact hlast
  · exact (steps_v fun hkind => by cases hkind.1).symm
  · refine hlast.trans ?_
    rw [steps_succ]
    cases left <;> rfl

theorem agrees_shift (kind : ShiftKind) (left : Bool) (hpos : 0 < bits) (h : bits ≤ 32)
    (value : U64) (n : ℕ) (x : Bool) :
    (shift kind left bits value n x).Agrees x (steps kind left n (value.setWidth bits) x) := by
  cases n with
  | zero => exact shift_zero (by omega)
  | succ n =>
    cases kind with
    | arithmetic =>
      cases left with
      | true => exact shift_arithmetic_left (by omega)
      | false => exact shift_arithmetic_right hpos (by omega)
    | logical =>
      cases left with
      | true => exact shift_logical_left (by omega)
      | false => exact shift_logical_right (by omega)
    | rotateExtended => exact shift_rotateExtended hpos (by omega)
    | rotate => exact shift_rotate hpos (by omega)

/-- X is set by every count but 0, and not by `rod`. -/
theorem shift_x_isNone : (shift kind left bits value n x).x.isNone =
    decide (n = 0 ∨ kind = .rotate) := by
  unfold shift
  by_cases h0 : n = 0
  · rw [if_pos h0, decide_eq_true (Or.inl h0)]
    rfl
  · rw [if_neg h0]
    cases kind <;> cases left <;> simp [h0]

/-- What an instruction writes is what the single steps leave. -/
theorem M68k.execute_eq (checks : Bool) (r : M68k) (m : Machine) (insn : ShiftInsn) :
    r.execute checks m insn = (do
      let n ← r.shiftCount checks m insn
      let old ← m.read checks "register" (r.d insn.dy) 4
      let x ← m.read checks "register" r.x 1
      let s := steps insn.kind insn.left n (old.setWidth insn.bits) (x &&& 1 != 0)
      r.setShifted checks m insn old
        ⟨s.value.setWidth 64, if n = 0 ∨ insn.kind = .rotate then none else some s.x, s.v, s.c⟩) := by
  unfold M68k.execute
  refine congrArg _ (funext fun n => congrArg _ (funext fun old => congrArg _ (funext fun x => ?_)))
  have hwidth := insn.width
  have h := agrees_shift insn.kind insn.left (by omega : 0 < insn.bits) (by omega) old n
    (x &&& 1 != 0)
  have hnone : (shift insn.kind insn.left insn.bits old n (x &&& 1 != 0)).x.isNone =
      decide (n = 0 ∨ insn.kind = .rotate) := shift_x_isNone
  have hx : (shift insn.kind insn.left insn.bits old n (x &&& 1 != 0)).x =
      if n = 0 ∨ insn.kind = .rotate then none
      else some (steps insn.kind insn.left n (old.setWidth insn.bits) (x &&& 1 != 0)).x := by
    rw [← h.x]
    split_ifs with hnot
    · rwa [decide_eq_true hnot, Option.isNone_iff_eq_none] at hnone
    · rw [decide_eq_false hnot, Option.isNone_eq_false_iff] at hnone
      obtain ⟨y, hy⟩ := Option.isSome_iff_exists.mp hnone
      rw [hy]
      rfl
  dsimp only
  rw [← h.value, ← h.overflow, ← h.carry, ← hx]

/-- Every shift and rotate is the single steps one after the other: the value, X, V and C. -/
theorem shift_agrees (kind : ShiftKind) (left : Bool) (hpos : 0 < bits) (h : bits ≤ 32)
    (value : U64) (n : ℕ) (x : Bool) :
    let r := shift kind left bits value n x
    let s := steps kind left n (value.setWidth bits) x
    r.value = s.value.setWidth 64 ∧ r.x.getD x = s.x ∧ r.overflow = s.v ∧ r.carry = s.c := by
  have hagrees := agrees_shift kind left hpos h value n x
  exact ⟨hagrees.value, hagrees.x, hagrees.overflow, hagrees.carry⟩

theorem shift_agrees_long :
    (shift .rotateExtended true 32 0x12345678 40 true).value =
      (steps .rotateExtended true 40 (BitVec.setWidth 32 0x12345678#64) true).value.setWidth 64 :=
  (shift_agrees .rotateExtended true (by decide) le_rfl 0x12345678 40 true).1

end Shift

end Emu
end Mosura
