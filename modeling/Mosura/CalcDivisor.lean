import Mosura.Space
import Mosura.Lib.Reciprocal

/-! The divisor that a magic constant stands for (`decompile/divopt.rs`). -/

namespace Mosura
namespace Divopt
open Lib

abbrev U128 := BitVec 128

/-- The greatest operand of a width. -/
def maxx (xsize : ℕ) : U64 :=
  if xsize = 64 then BitVec.allOnes 64 else (1 : U64) <<< xsize - 1

/-- The last tests of `calc_divisor`, on the quotient, the remainder and the difference so far. -/
def acceptDivisor (power q r : U128) (diff : U64) (xsize : ℕ) : U64 :=
  let diff := diff + (q.setWidth 64 - r.setWidth 64)
  if diff = 0 then q.setWidth 64
  else
    let tmp := power / diff.setWidth 128
    if (BitVec.allOnes 64).setWidth 128 < tmp then q.setWidth 64
    else if tmp.setWidth 64 ≤ maxx xsize then 0
    else q.setWidth 64

/-- The divisor of `x / d` from the multiplier and the shift; 0 for no clean division. -/
def calcDivisor (n : ℕ) (magic : U128) (xsize : ℕ) : U64 :=
  if 127 < n ∨ 64 < xsize ∨ magic ≤ 1 then 0
  else
    let y := magic - 1
    let power := (1 : U128) <<< n
    let q := power / y
    let r := power % y
    if (BitVec.allOnes 64).setWidth 128 < q then 0
    else if y < q then 0
    else if q ≤ r then
      let q := q + 1
      -- a remainder that is short of it wraps
      let r := r - y + q
      if q ≤ r then 0 else acceptDivisor power q r (q.setWidth 64) xsize
    else acceptDivisor power q r 0 xsize

example : calcDivisor 33 0xAAAAAAAB 32 = 3 := by decide

/-- The multiplication by the magic constant divides as the divisor does, if there is one. -/
def Sound (n : ℕ) (magic : U128) (xsize : ℕ) : Prop :=
  calcDivisor n magic xsize ≠ 0 → ∀ x < 2 ^ xsize,
    x * magic.toNat / 2 ^ n = x / (calcDivisor n magic xsize).toNat

section

variable {n xsize e : ℕ} {magic power q r : U128} {diff : U64}

theorem toNat_maxx (h : xsize ≤ 64) : (maxx xsize).toNat = 2 ^ xsize - 1 := by
  unfold maxx
  split_ifs with heq
  · rw [heq]
    rfl
  · have hlt : 2 ^ xsize < 2 ^ 64 := Nat.pow_lt_pow_right (by norm_num) (by omega)
    have hpos := Nat.two_pow_pos xsize
    rw [BitVec.toNat_sub, BitVec.toNat_shiftLeft]
    change (2 ^ 64 - 1 + 1 <<< xsize % 2 ^ 64) % 2 ^ 64 = _
    rw [Nat.one_shiftLeft, Nat.mod_eq_of_lt hlt]
    omega

/-- What is accepted: the quotient, whose difference is zero or small against the operands. -/
theorem acceptDivisor_spec (hx : xsize ≤ 64)
    (hdiff : (diff + (q.setWidth 64 - r.setWidth 64)).toNat = e)
    (h : acceptDivisor power q r diff xsize ≠ 0) :
    acceptDivisor power q r diff xsize = q.setWidth 64 ∧
      (e = 0 ∨ 2 ^ xsize * e ≤ power.toNat) := by
  unfold acceptDivisor at h ⊢
  generalize diff + (q.setWidth 64 - r.setWidth 64) = d at hdiff h ⊢
  subst hdiff
  have hlt := d.isLt
  have htmp : (power / d.setWidth 128).toNat = power.toNat / d.toNat := by
    rw [BitVec.toNat_udiv, BitVec.toNat_setWidth, Nat.mod_eq_of_lt (by omega)]
  have hpow : 2 ^ xsize ≤ 2 ^ 64 := Nat.pow_le_pow_right (by norm_num) hx
  have hof : ∀ {k}, 2 ^ xsize ≤ k → k = power.toNat / d.toNat →
      2 ^ xsize * d.toNat ≤ power.toNat := by
    rintro k hk rfl
    exact (Nat.mul_le_mul_right _ hk).trans (Nat.div_mul_le_self _ _)
  dsimp only at h ⊢
  by_cases hzero : d = 0
  · exact ⟨if_pos hzero, .inl (congrArg BitVec.toNat hzero)⟩
  rw [if_neg hzero] at h ⊢
  by_cases hbig : (BitVec.allOnes 64).setWidth 128 < power / d.setWidth 128
  · rw [if_pos hbig]
    refine ⟨rfl, .inr (hof (k := (power / d.setWidth 128).toNat) ?_ htmp)⟩
    have hover : 2 ^ 64 - 1 < (power / d.setWidth 128).toNat := hbig
    omega
  rw [if_neg hbig] at h ⊢
  by_cases hmaxx : (power / d.setWidth 128).setWidth 64 ≤ maxx xsize
  · exact absurd (if_pos hmaxx) h
  · rw [if_neg hmaxx]
    refine ⟨rfl, .inr (hof (k := (power / d.setWidth 128).toNat) ?_ htmp)⟩
    have hsmall : ¬ 2 ^ 64 - 1 < (power / d.setWidth 128).toNat := hbig
    rw [BitVec.le_def, toNat_maxx hx, BitVec.toNat_setWidth, Nat.mod_eq_of_lt (by omega)] at hmaxx
    omega

/-- A divisor for a multiplier: what the multiplier exceeds by, as far as a word shows it. -/
structure Candidate (n m xsize d e : ℕ) : Prop where
  reciprocal : Reciprocal d m (2 ^ n) e
  small : e % 2 ^ 64 = 0 ∨ 2 ^ xsize * (e % 2 ^ 64) ≤ 2 ^ n
  wrapped : 2 ^ 64 ≤ e → (d - 1) * m ≤ 2 ^ n ∧ e ≤ 2 * d ∧ d ≤ m

/-- The quotient itself is the divisor when the remainder is below it. -/
theorem accept_below (hx : xsize ≤ 64) (hq : q.toNat < 2 ^ 64) (hr : r.toNat < q.toNat)
    (hpower : power.toNat = 2 ^ n) (hdiv : q.toNat * (magic.toNat - 1) + r.toNat = 2 ^ n)
    (hm : 1 < magic.toNat) (h : acceptDivisor power q r 0 xsize ≠ 0) :
    Candidate n magic.toNat xsize (acceptDivisor power q r 0 xsize).toNat
      (q.toNat - r.toNat) := by
  have hdiff : ((0 : U64) + (q.setWidth 64 - r.setWidth 64)).toNat = q.toNat - r.toNat := by
    rw [zero_add, BitVec.toNat_sub, BitVec.toNat_setWidth, BitVec.toNat_setWidth]
    omega
  obtain ⟨heq, hsmall⟩ := acceptDivisor_spec hx hdiff h
  rw [hpower] at hsmall
  have hwidth : (q.setWidth 64).toNat = q.toNat := by
    rw [BitVec.toNat_setWidth, Nat.mod_eq_of_lt hq]
  rw [heq, hwidth]
  have hlt : q.toNat - r.toNat < 2 ^ 64 := by omega
  refine ⟨⟨?_, Nat.two_pow_pos n⟩, ?_, fun hle => absurd hle (Nat.not_le.mpr hlt)⟩
  · have hsucc : q.toNat * magic.toNat = q.toNat * (magic.toNat - 1) + q.toNat := by
      rw [← Nat.mul_succ]
      congr 1
      omega
    omega
  · rwa [Nat.mod_eq_of_lt hlt]

/-- One past the quotient is the divisor when that much is no more than missing. -/
theorem accept_above (hx : xsize ≤ 64) (hn : n ≤ 127) (hq : q.toNat < 2 ^ 64)
    (hqr : q.toNat ≤ r.toNat) (hr : r.toNat < magic.toNat - 1) (hpower : power.toNat = 2 ^ n)
    (hle : q.toNat ≤ magic.toNat - 1)
    (hdiv : q.toNat * (magic.toNat - 1) + r.toNat = 2 ^ n)
    (hrest : ¬ q + 1 ≤ r - (magic - 1) + (q + 1))
    (h : acceptDivisor power (q + 1) (r - (magic - 1) + (q + 1)) ((q + 1).setWidth 64) xsize ≠ 0) :
    Candidate n magic.toNat xsize
      (acceptDivisor power (q + 1) (r - (magic - 1) + (q + 1)) ((q + 1).setWidth 64) xsize).toNat
      (q.toNat + magic.toNat - r.toNat) := by
  have hm := magic.isLt
  have hy : (magic - 1).toNat = magic.toNat - 1 := by
    rw [BitVec.toNat_sub]
    change (2 ^ 128 - 1 + magic.toNat) % 2 ^ 128 = _
    omega
  have hnext : (q + 1).toNat = q.toNat + 1 := by
    rw [BitVec.toNat_add]
    change (q.toNat + 1) % 2 ^ 128 = _
    omega
  have hsum : (r - (magic - 1) + (q + 1)).toNat =
      ((2 ^ 128 - (magic.toNat - 1) + r.toNat) % 2 ^ 128 + (q.toNat + 1)) % 2 ^ 128 := by
    rw [BitVec.toNat_add, BitVec.toNat_sub, hnext, hy]
  rw [BitVec.le_def, hnext, hsum] at hrest
  have hremainder : (r - (magic - 1) + (q + 1)).toNat = r.toNat + q.toNat + 2 - magic.toNat := by
    rw [hsum]
    omega
  have hpow : 2 ^ n ≤ 2 ^ 127 := Nat.pow_le_pow_right (by norm_num) hn
  have hsquare : q.toNat * q.toNat ≤ 2 ^ 127 :=
    (Nat.mul_le_mul_left _ hle).trans ((Nat.le_add_right _ r.toNat).trans (hdiv.trans_le hpow))
  have hlt : q.toNat + 1 < 2 ^ 64 := by
    by_contra hlarge
    have heq : q.toNat = 2 ^ 64 - 1 := by omega
    rw [heq] at hsquare
    norm_num at hsquare
  have hdiff : ((q + 1).setWidth 64 + ((q + 1).setWidth 64 -
      (r - (magic - 1) + (q + 1)).setWidth 64)).toNat =
        (q.toNat + magic.toNat - r.toNat) % 2 ^ 64 := by
    rw [BitVec.toNat_add, BitVec.toNat_sub, BitVec.toNat_setWidth, BitVec.toNat_setWidth, hnext,
      hremainder]
    omega
  obtain ⟨heq, hsmall⟩ := acceptDivisor_spec hx hdiff h
  rw [hpower] at hsmall
  have hwidth : ((q + 1).setWidth 64).toNat = q.toNat + 1 := by
    rw [BitVec.toNat_setWidth, hnext, Nat.mod_eq_of_lt hlt]
  have hsucc : q.toNat * magic.toNat = q.toNat * (magic.toNat - 1) + q.toNat := by
    rw [← Nat.mul_succ]
    congr 1
    omega
  rw [heq, hwidth]
  refine ⟨⟨?_, Nat.two_pow_pos n⟩, hsmall, fun _ => ⟨?_, by omega, by omega⟩⟩
  · rw [Nat.succ_mul]
    omega
  · rw [Nat.add_sub_cancel]
    omega

/-- What is known of a divisor that is given. -/
theorem calcDivisor_spec (h : calcDivisor n magic xsize ≠ 0) :
    n ≤ 127 ∧ xsize ≤ 64 ∧
      ∃ e, Candidate n magic.toNat xsize (calcDivisor n magic xsize).toNat e := by
  unfold calcDivisor at h ⊢
  by_cases hrange : 127 < n ∨ 64 < xsize ∨ magic ≤ 1
  · exact absurd (if_pos hrange) h
  rw [if_neg hrange] at h ⊢
  obtain ⟨hn, hx, hmagic⟩ := not_or.mp hrange |>.imp_right not_or.mp
  have hn : n ≤ 127 := Nat.not_lt.mp hn
  have hx : xsize ≤ 64 := Nat.not_lt.mp hx
  have hm : 1 < magic.toNat := Nat.not_le.mp hmagic
  have hlt := magic.isLt
  have hpower : ((1 : U128) <<< n).toNat = 2 ^ n := by
    rw [BitVec.toNat_shiftLeft]
    change 1 <<< n % 2 ^ 128 = _
    rw [Nat.one_shiftLeft, Nat.mod_eq_of_lt (Nat.pow_lt_pow_right (by norm_num) (by omega))]
  have hy : (magic - 1).toNat = magic.toNat - 1 := by
    rw [BitVec.toNat_sub]
    change (2 ^ 128 - 1 + magic.toNat) % 2 ^ 128 = _
    omega
  have hdiv : ((1 : U128) <<< n / (magic - 1)).toNat * (magic.toNat - 1) +
      ((1 : U128) <<< n % (magic - 1)).toNat = 2 ^ n := by
    rw [BitVec.toNat_udiv, BitVec.toNat_umod, hpower, hy]
    exact Nat.div_add_mod' _ _
  have hr : ((1 : U128) <<< n % (magic - 1)).toNat < magic.toNat - 1 := by
    rw [BitVec.toNat_umod, hy]
    exact Nat.mod_lt _ (by omega)
  dsimp only at h ⊢
  generalize (1 : U128) <<< n / (magic - 1) = q at h hdiv ⊢
  generalize (1 : U128) <<< n % (magic - 1) = r at h hdiv hr ⊢
  by_cases hwide : (BitVec.allOnes 64).setWidth 128 < q
  · exact absurd (if_pos hwide) h
  rw [if_neg hwide] at h ⊢
  have hq : q.toNat < 2 ^ 64 := by
    have hle : ¬ 2 ^ 64 - 1 < q.toNat := hwide
    omega
  by_cases hless : magic - 1 < q
  · exact absurd (if_pos hless) h
  rw [if_neg hless] at h ⊢
  have hle : q.toNat ≤ magic.toNat - 1 := by
    rw [BitVec.lt_def, hy] at hless
    exact Nat.not_lt.mp hless
  refine ⟨hn, hx, ?_⟩
  by_cases hqr : q ≤ r
  · rw [if_pos hqr] at h ⊢
    by_cases hrest : q + 1 ≤ r - (magic - 1) + (q + 1)
    · exact absurd (if_pos hrest) h
    · rw [if_neg hrest] at h ⊢
      exact ⟨_, accept_above hx hn hq hqr hr hpower hle hdiv hrest h⟩
  · rw [if_neg hqr] at h ⊢
    exact ⟨_, accept_below hx hq (Nat.not_le.mp hqr) hpower hdiv hm h⟩

/-- The excess is a word: the multiplication divides. -/
theorem Candidate.div_eq_of_word {m d x : ℕ} (h : Candidate n m xsize d e) (he : e < 2 ^ 64)
    (hx : x < 2 ^ xsize) : x * m / 2 ^ n = x / d := by
  apply h.reciprocal.mul_div_eq_div
  have hsmall := h.small
  rw [Nat.mod_eq_of_lt he] at hsmall
  obtain hzero | hle := hsmall
  · rw [hzero, Nat.mul_zero]
    exact Nat.two_pow_pos n
  · by_cases hzero : e = 0
    · rw [hzero, Nat.mul_zero]
      exact Nat.two_pow_pos n
    · exact (Nat.mul_lt_mul_of_pos_right hx (Nat.pos_of_ne_zero hzero)).trans_le hle

/-- The excess is more than a word: only at the greatest shift, for three multipliers. -/
theorem Candidate.of_wide {m d : ℕ} (h : Candidate n m xsize d e) (he : 2 ^ 64 ≤ e)
    (hn : n ≤ 127) : n = 127 ∧ 2 ^ 63 ≤ d ∧ 2 ^ 64 ≤ m ∧ m ≤ 2 ^ 64 + 2 := by
  obtain ⟨hbelow, hdouble, -⟩ := h.wrapped he
  have hd : 2 ^ 63 ≤ d := by omega
  have hprod : (d - 1) * m + m = 2 ^ n + e := by
    rw [← Nat.succ_mul, Nat.succ_eq_add_one, Nat.sub_add_cancel (by omega)]
    exact h.reciprocal.mul_eq
  have hm : 2 ^ 64 ≤ m := by omega
  have hleast : (2 ^ 63 - 1) * m ≤ 2 ^ n := (Nat.mul_le_mul_right m (by omega)).trans hbelow
  have hn127 : n = 127 := by
    by_contra hne
    have hpow : 2 ^ n ≤ 2 ^ 126 := Nat.pow_le_pow_right (by norm_num) (by omega)
    omega
  subst hn127
  exact ⟨rfl, hd, hm, by omega⟩

/-- At the greatest shift the multiplication divides operands of less than a word. -/
theorem Candidate.div_eq_of_wide {m d x : ℕ} (h : Candidate n m xsize d e) (he : 2 ^ 64 ≤ e)
    (hn : n ≤ 127) (hxsize : xsize ≤ 64) (hx : x < 2 ^ xsize)
    (hok : ¬ (n = 127 ∧ xsize = 64 ∧ (m = 2 ^ 64 ∨ m = 2 ^ 64 + 2))) :
    x * m / 2 ^ n = x / d := by
  obtain ⟨rfl, hd, hm, hm'⟩ := h.of_wide he hn
  by_cases hword : xsize = 64
  · obtain rfl : m = 2 ^ 64 + 1 := by omega
    rw [hword] at hx
    have hbelow := (h.wrapped he).1
    exact h.reciprocal.mul_div_eq_div_of_lt (by omega) (by omega) (by omega)
  · have hpow : 2 ^ xsize ≤ 2 ^ 63 := Nat.pow_le_pow_right (by norm_num) (by omega)
    have hle : x * m ≤ (2 ^ 63 - 1) * (2 ^ 64 + 2) := Nat.mul_le_mul (by omega) hm'
    rw [Nat.div_eq_of_lt (hle.trans_lt (by norm_num)), Nat.div_eq_of_lt (by omega)]

/-- `calc_divisor` is right, but for two multipliers of a word and a bit at the shift by 127, where
the difference that it tests has overflowed. -/
theorem calcDivisor_sound_iff (n : ℕ) (magic : U128) (xsize : ℕ) :
    Sound n magic xsize ↔
      ¬ (n = 127 ∧ xsize = 64 ∧ (magic = 0x10000000000000000 ∨ magic = 0x10000000000000002)) := by
  constructor
  · rintro hsound ⟨rfl, rfl, rfl | rfl⟩
    · exact absurd (hsound (by decide) (2 ^ 63) (by decide)) (by decide)
    · exact absurd (hsound (by decide) (2 ^ 64 - 1) (by decide)) (by decide)
  · intro hok hne x hx
    obtain ⟨hn, hxsize, e, h⟩ := calcDivisor_spec hne
    by_cases he : e < 2 ^ 64
    · exact h.div_eq_of_word he hx
    · refine h.div_eq_of_wide (Nat.not_lt.mp he) hn hxsize hx fun ⟨hn, hxsize, hm⟩ => ?_
      exact hok ⟨hn, hxsize, hm.imp (fun h => BitVec.eq_of_toNat_eq h)
        fun h => BitVec.eq_of_toNat_eq h⟩

/-- The divisor found for `x >> 63` gives 0 for the least `x` whose top bit is set. -/
theorem calcDivisor_not_sound : ¬ Sound 127 0x10000000000000000 64 := by
  intro h
  exact absurd (h (by decide) (2 ^ 63) (by decide)) (by decide)

end

end Divopt
end Mosura
