import Mosura.EmuWords

/-! When one step of the interpreter leaves the p-code value in the output location. -/

namespace Mosura
namespace Emu
namespace Machine

/-- The opcodes the low eight bytes of whose value depend on the low eight bytes of the operands. -/
def lowExact : OpCode → Bool
  | .copy | .intZext | .intSext | .intNegate | .int2comp | .boolNegate | .intAdd | .intSub
  | .intMult | .intXor | .intAnd | .intOr | .boolXor | .boolAnd | .boolOr | .load | .store => true
  | _ => false

/-- The low eight bytes of an operand. -/
def lowOperand (p : ℕ × ℕ) : ℕ × ℕ := (min p.1 8, p.2 % 2 ^ 64)

/-- Whether the low eight bytes of the value `v` come from the low eight bytes of the operands: a
shift takes its amount modulo 64, an arithmetic one modulo `2 ^ 32` and at most 63, and SUBPIECE
takes eight times its offset modulo 64, which a build that checks overflow refuses from 8 on. -/
def LowHolds (checks : Bool) (code : OpCode) (ins : Operands) (so v : ℕ) : Prop :=
  match code, ins with
  | .intLeft, [(_, a), (_, b)] => (a <<< (b % 64)) % 2 ^ (8 * min so 8) = v % 2 ^ 64
  | .intRight, [(_, a), (_, b)] => (a % 2 ^ 64) >>> (b % 64) = v % 2 ^ 64
  | .intSright, [(s, a), (_, b)] =>
    ((BitVec.ofNat (8 * min s 8) a).sshiftRight (min (b % 2 ^ 32) 63)).toNat = v % 2 ^ 64
  | .subpiece, [(_, a), (_, b)] =>
    (checks = true → b % 2 ^ 64 < 8) ∧
      ((a % 2 ^ 64) >>> (8 * b % 64)) % 2 ^ (8 * min so 8) = v % 2 ^ 64
  | code, ins =>
    lowExact code = true ∨ evalPcode code (ins.map lowOperand) (min so 8) = some (v % 2 ^ 64)

section Low

variable {code : OpCode} {s s' so a b v : ℕ}

theorem mod_low (n so : ℕ) : n % 2 ^ (8 * so) % 2 ^ 64 = n % 2 ^ (8 * min so 8) := by
  by_cases h8 : so ≤ 8
  · have hle : 2 ^ (8 * so) ≤ 2 ^ 64 := Nat.pow_le_pow_right two_pos (by omega)
    rw [min_eq_left h8, Nat.mod_eq_of_lt ((Nat.mod_lt _ (Nat.two_pow_pos _)).trans_le hle)]
  · rw [min_eq_right (by omega)]
    exact Nat.mod_mod_of_dvd n (pow_dvd_pow 2 (show 64 ≤ 8 * so by omega))

theorem low_mod (n so : ℕ) : n % 2 ^ 64 % 2 ^ (8 * min so 8) = n % 2 ^ (8 * min so 8) :=
  Nat.mod_mod_of_dvd n (pow_dvd_pow 2 (by omega))

theorem toNat_low (V : BitVec (8 * so)) : V.toNat % 2 ^ 64 = (V.setWidth (8 * min so 8)).toNat := by
  rw [BitVec.toNat_setWidth, ← mod_low, Nat.mod_eq_of_lt V.isLt]

theorem ofNat_low (n so : ℕ) :
    BitVec.ofNat (8 * min so 8) (n % 2 ^ 64) = (BitVec.ofNat (8 * so) n).setWidth (8 * min so 8) := by
  apply BitVec.eq_of_toNat_eq
  rw [BitVec.toNat_ofNat, low_mod, BitVec.toNat_setWidth, BitVec.toNat_ofNat]
  exact (Nat.mod_mod_of_dvd n (pow_dvd_pow 2 (by omega))).symm

theorem lt_low {n s : ℕ} (h : n < 2 ^ (8 * s)) : n % 2 ^ 64 < 2 ^ (8 * min s 8) := by
  rw [← Nat.mod_eq_of_lt h, mod_low]
  exact Nat.mod_lt _ (Nat.two_pow_pos _)

theorem evalUnary_low (hc : lowExact code = true) (hz : code ≠ .intZext) (hx : code ≠ .intSext)
    (hs : sizesOk code [s] so) (h : evalUnary code s so a = some v) :
    evalUnary code (min s 8) (min so 8) (a % 2 ^ 64) = some (v % 2 ^ 64) := by
  have hle : 8 * min so 8 ≤ 8 * so := by omega
  cases code
  case copy =>
    cases h
    rfl
  case intZext => exact absurd rfl hz
  case intSext => exact absurd rfl hx
  case intNegate =>
    cases h
    rw [toNat_low, BitVec.setWidth_not hle, ← ofNat_low]
    rfl
  case int2comp =>
    cases h
    rw [toNat_low, BitVec.setWidth_neg_of_le hle, ← ofNat_low]
    rfl
  case boolNegate =>
    simp only [evalUnary, Option.ite_none_right_eq_some, Option.some.injEq] at h ⊢
    obtain ⟨hle, rfl⟩ := h
    rw [Nat.mod_eq_of_lt (by omega), Nat.mod_eq_of_lt (by omega)]
    exact ⟨hle, rfl⟩
  all_goals first | (cases h; done) | cases hc

theorem evalBinary_low (hc : lowExact code = true) (h : evalBinary code s s' so a b = some v) :
    evalBinary code (min s 8) (min s' 8) (min so 8) (a % 2 ^ 64) (b % 2 ^ 64) =
      some (v % 2 ^ 64) := by
  have hle : 8 * min so 8 ≤ 8 * so := by omega
  cases code
  case intAdd =>
    cases h
    rw [mod_low]
    change some ((a % 2 ^ 64 + b % 2 ^ 64) % 2 ^ (8 * min so 8)) = _
    rw [Nat.add_mod, low_mod, low_mod, ← Nat.add_mod]
  case intMult =>
    cases h
    rw [mod_low]
    change some (a % 2 ^ 64 * (b % 2 ^ 64) % 2 ^ (8 * min so 8)) = _
    rw [Nat.mul_mod, low_mod, low_mod, ← Nat.mul_mod]
  case intSub =>
    cases h
    rw [toNat_low, BitVec.sub_eq_add_neg, BitVec.setWidth_add _ _ hle, BitVec.setWidth_neg_of_le hle,
      ← ofNat_low, ← ofNat_low, ← BitVec.sub_eq_add_neg]
    rfl
  case intXor =>
    cases h
    rw [Nat.xor_mod_two_pow]
    rfl
  case intAnd =>
    cases h
    rw [Nat.and_mod_two_pow]
    rfl
  case intOr =>
    cases h
    rw [Nat.or_mod_two_pow]
    rfl
  case boolXor | boolAnd | boolOr =>
    simp only [evalBinary, Option.ite_none_right_eq_some, Option.some.injEq] at h ⊢
    obtain ⟨⟨ha, hb⟩, rfl⟩ := h
    have hlt : a < 2 ^ 64 ∧ b < 2 ^ 64 := by omega
    rw [Nat.mod_eq_of_lt hlt.1, Nat.mod_eq_of_lt hlt.2]
    refine ⟨⟨ha, hb⟩, (Nat.mod_eq_of_lt ?_).symm⟩
    first
      | exact Nat.xor_lt_two_pow hlt.1 hlt.2
      | exact Nat.and_lt_two_pow _ hlt.2
      | exact Nat.or_lt_two_pow hlt.1 hlt.2
  all_goals first | (cases h; done) | cases hc

/-- An arithmetic shift by the width or more leaves the sign. -/
theorem sshiftRight_min {w : ℕ} (X : BitVec w) {b k : ℕ} (hk : w ≤ k + 1) :
    X.sshiftRight (min b k) = X.sshiftRight (min b w) := by
  apply BitVec.eq_of_getLsbD_eq
  intro i hi
  rw [BitVec.getLsbD_sshiftRight, BitVec.getLsbD_sshiftRight, BitVec.msb_eq_getLsbD_last]
  have hi' : ¬ w ≤ i := by omega
  simp only [hi', decide_false, Bool.not_false, Bool.true_and]
  by_cases hb : b + i < w
  · rw [min_eq_left (by omega), min_eq_left (by omega)]
  · rw [if_neg (by omega : ¬ min b w + i < w)]
    split_ifs with h
    · rw [show min b k + i = w - 1 by omega]
    · rfl

/-- Values of at most eight bytes, shifted by less than 64 (arithmetically by less than `2 ^ 32`, and
by less than eight bytes in SUBPIECE). -/
theorem lowHolds_of_narrow {checks : Bool} {ins : Operands} (hs : sizesOk code (ins.map Prod.fst) so)
    (hin : ∀ p ∈ ins, p.1 ≤ 8) (hso : so ≤ 8) (hso0 : 0 < so) (hf : ins.Fit)
    (h : evalPcode code ins so = some v)
    (hamount : ∀ p q, ins = [p, q] → shifts code = true →
      q.2 < if code = .subpiece then 8 else if code = .intSright then 2 ^ 32 else 64) :
    LowHolds checks code ins so v := by
  have hpow {n : ℕ} (hn : n ≤ 8) : 2 ^ (8 * n) ≤ 2 ^ 64 := Nat.pow_le_pow_right two_pos (by omega)
  have hv : v % 2 ^ 64 = v := Nat.mod_eq_of_lt ((evalPcode_lt hs hso0 hf h).trans_le (hpow hso))
  have hlow : ins.map lowOperand = ins := by
    refine (List.map_congr_left fun p hp => ?_).trans (List.map_id _)
    unfold lowOperand
    rw [min_eq_left (hin p hp), Nat.mod_eq_of_lt ((hf p hp).trans_le (hpow (hin p hp)))]
    rfl
  have hrest : evalPcode code (ins.map lowOperand) (min so 8) = some (v % 2 ^ 64) := by
    rw [hlow, min_eq_left hso, hv, h]
  by_cases hshift : shifts code = true
  · match ins, hs, hin, hf, h, hamount with
    | [(s, a), (t, b)], hs, hin, hf, h, hamount =>
      have hb := hamount _ _ rfl hshift
      have ha : a % 2 ^ 64 = a :=
        Nat.mod_eq_of_lt ((hf (s, a) List.mem_cons_self).trans_le (hpow (hin (s, a) List.mem_cons_self)))
      have halt : a < 2 ^ (8 * s) := hf (s, a) List.mem_cons_self
      have hs8 : s ≤ 8 := hin (s, a) List.mem_cons_self
      cases code
      case intLeft =>
        have hb : b < 64 := by simpa using hb
        have hval : (if 8 * so ≤ b then 0 else (a <<< b) % 2 ^ (8 * so)) = v := Option.some.inj h
        change (a <<< (b % 64)) % 2 ^ (8 * min so 8) = v % 2 ^ 64
        rw [hv, ← hval, Rules.intLeft_value a b hso, if_pos hb, min_eq_left hso, Nat.mod_eq_of_lt hb]
      case intRight =>
        have hb : b < 64 := by simpa using hb
        have hval : (if 8 * s ≤ b then 0 else a >>> b) = v := Option.some.inj h
        change (a % 2 ^ 64) >>> (b % 64) = v % 2 ^ 64
        rw [hv, ← hval, ha, Nat.mod_eq_of_lt hb]
        split_ifs with hle
        · exact Rules.shiftRight_eq_zero_of_lt halt hle
        · rfl
      case intSright =>
        have hb : b < 2 ^ 32 := by simpa using hb
        have hval : ((BitVec.ofNat (8 * s) a).sshiftRight (min b (8 * s))).toNat = v :=
          Option.some.inj h
        change ((BitVec.ofNat (8 * min s 8) a).sshiftRight (min (b % 2 ^ 32) 63)).toNat = v % 2 ^ 64
        rw [hv, ← hval, Nat.mod_eq_of_lt hb, min_eq_left hs8, sshiftRight_min _ (by omega)]
      case subpiece =>
        have hb : b < 8 := by simpa using hb
        have hval : (if s ≤ b then 0 else (a >>> (8 * b)) % 2 ^ (8 * so)) = v := Option.some.inj h
        refine ⟨fun _ => by omega, ?_⟩
        rw [hv, ← hval, ha, min_eq_left hso, Nat.mod_eq_of_lt (show 8 * b < 64 by omega)]
        split_ifs with hle
        · rw [Rules.shiftRight_eq_zero_of_lt halt (by omega), Nat.zero_mod]
        · rfl
      all_goals cases hshift
    | [], _, _, _, h, _ => cases h
    | [_], _, _, _, h, _ => cases code <;> first | (cases h; done) | cases hshift
    | _ :: _ :: _ :: _, _, _, _, h, _ =>
      rcases code_of_evalPcode h with rfl | rfl | rfl <;> cases hshift
  · cases code <;> first | exact .inr hrest | exact absurd rfl hshift

end Low

section Operands

variable {checks : Bool} {host : Host} {m : Machine} {code : OpCode} {u u' loc : Varnode} {v : ℕ}
  (h : ∀ out, some loc = some out → out.space ≠ "const")

theorem toNat_word (m : Machine) (u : Varnode) : (m.word u).toNat = m.valueAt u % 2 ^ 64 :=
  BitVec.toNat_ofNat _ _

theorem word_lt (m : Machine) (u : Varnode) : (m.word u).toNat < 2 ^ (8 * min u.size 8) := by
  rw [toNat_word]
  exact lt_low valueAt_lt

theorem cutOut_space (h : ∀ out, some loc = some out → out.space ≠ "const") :
    ∀ out, some (cutOut loc) = some out → out.space ≠ "const" :=
  fun out he => by
    obtain rfl := Option.some.inj he
    exact h loc rfl

/-- An operation that computes a word could read its operand. -/
theorem fits_of_computed_unary (hc : computes code = true) {a r : ℕ}
    (hu : evalUnary code u.size loc.size a = some r) (h0 : 0 < u.size) {w : U64}
    (hw : m.computed checks host ⟨code, some loc, [.var u], h⟩ = some w) : m.Fits checks u := by
  by_contra hf
  have hr : m.readArg checks (.var u) = none :=
    Option.eq_none_iff_forall_ne_some.mpr fun x hx => hf ((readArg_eq_some_iff h0).mp hx).1
  cases code
  case copy | intZext | intNegate | int2comp | boolNegate | popcount | intSext | lzcount =>
    simp [computed, execute, hr, sreadArg] at hw
  all_goals first | (cases hu; done) | cases hc

theorem lowHolds_unary {p : ℕ × ℕ} {so : ℕ} : LowHolds checks code [p] so v ↔
    lowExact code = true ∨ evalPcode code [lowOperand p] (min so 8) = some (v % 2 ^ 64) := by
  cases code <;> exact Iff.rfl

/-- INT_ZEXT leaves the low word. -/
theorem computed_intZext (h0 : 0 < u.size) (hlt : u.size < loc.size) (hf : m.Fits checks u) :
    ∃ w, m.computed checks host ⟨.intZext, some loc, [.var u], h⟩ = some w ∧
      w.toNat = m.valueAt u % 2 ^ 64 := by
  have hr : m.readArg checks (.var u) = some (m.word u) := (readArg_eq_some_iff h0).mpr ⟨hf, rfl⟩
  have hle : 2 ^ (8 * u.size) ≤ 2 ^ (8 * loc.size) := Nat.pow_le_pow_right two_pos (by omega)
  have hword : (m.word u).toNat < 2 ^ (8 * loc.size) := by
    rw [toNat_word]
    exact (Nat.mod_le _ _).trans_lt (valueAt_lt.trans_le hle)
  refine ⟨mask (m.word u) loc.size, by simp [computed, execute, hr], ?_⟩
  rw [mask_of_lt (by omega) hword, toNat_word]

/-- INT_SEXT to more than eight bytes leaves the low word of the extended value. -/
theorem computed_intSext_wide (h0 : 0 < u.size) (h8 : 8 < loc.size) (hf : m.Fits checks u) :
    ∃ w, m.computed checks host ⟨.intSext, some loc, [.var u], h⟩ = some w ∧
      w.toNat = ((BitVec.ofNat (8 * u.size) (m.valueAt u)).signExtend (8 * loc.size)).toNat % 2 ^ 64 := by
  have hr : m.readArg checks (.var u) = some (m.word u) := (readArg_eq_some_iff h0).mpr ⟨hf, rfl⟩
  refine ⟨mask (sext (m.word u) u.size) loc.size, by simp [computed, execute, hr, sreadArg], ?_⟩
  have hmask : mask (sext (m.word u) u.size) loc.size = sext (m.word u) u.size :=
    if_pos (.inl (by omega))
  have hlow : (m.word u).setWidth (8 * min u.size 8) =
      (BitVec.ofNat (8 * u.size) (m.valueAt u)).setWidth (8 * min u.size 8) := by
    rw [← ofNat_low, ← toNat_word, BitVec.ofNat_toNat]
  rw [hmask, ← BitVec.toNat_setWidth 64]
  congr 1
  apply BitVec.eq_of_getLsbD_eq
  intro i hi
  have hbit (j : ℕ) (hj : j < 8 * min u.size 8) :
      (m.word u).getLsbD j = (BitVec.ofNat (8 * u.size) (m.valueAt u)).getLsbD j := by
    have := congrArg (fun X => X.getLsbD j) hlow
    simpa only [BitVec.getLsbD_setWidth, hj, decide_true, Bool.true_and] using this
  have hwide : i < 8 * loc.size := by omega
  rw [BitVec.getLsbD_setWidth, BitVec.getLsbD_signExtend, BitVec.msb_eq_getLsbD_last]
  simp only [hi, hwide, decide_true, Bool.true_and]
  by_cases hu : u.size ≤ 8
  · rw [sext_eq _ h0 hu, Rules.sext_getLsbD _ h0 hu]
    simp only [hi, decide_true, Bool.true_and]
    split_ifs with hs
    · exact hbit i (by omega)
    · exact hbit _ (by omega)
  · rw [show sext (m.word u) u.size = m.word u from if_pos (.inr (by omega)), if_pos (by omega)]
    exact hbit i (by omega)

theorem sizesOk_cut_unary {s so a r : ℕ} (hc : computes code = true) (hz : code ≠ .intZext)
    (hx : code ≠ .intSext) (hu : evalUnary code s so a = some r) (hs : sizesOk code [s] so) :
    sizesOk code [min s 8] (min so 8) := by
  cases code
  case copy | intNegate | int2comp =>
    obtain rfl := (List.cons.inj hs).1
    rfl
  case boolNegate =>
    obtain ⟨hs, rfl⟩ := hs
    obtain rfl := (List.cons.inj hs).1
    exact ⟨rfl, rfl⟩
  case popcount | lzcount => exact ⟨_, rfl⟩
  case intZext => exact absurd rfl hz
  case intSext => exact absurd rfl hx
  all_goals first | (cases hu; done) | cases hc

/-- With one operand: the word computed is the low eight bytes of the value where the operand can be
read and its low eight bytes decide those of the value. -/
theorem unary_iff (hc : computes code = true) (hs : sizesOk code [u.size] loc.size) (h0 : 0 < u.size)
    (hout : 0 < loc.size) (hv : evalUnary code u.size loc.size (m.valueAt u) = some v) :
    (∃ w, m.computed checks host ⟨code, some loc, [.var u], h⟩ = some w ∧ w.toNat = v % 2 ^ 64) ↔
      m.Fits checks u ∧ LowHolds checks code [(u.size, m.valueAt u)] loc.size v := by
  rw [lowHolds_unary]
  have hnarrow (hs : sizesOk code [min u.size 8] (min loc.size 8)) (hf : m.Fits checks u) {r : ℕ}
      (hr : evalUnary code (min u.size 8) (min loc.size 8) (m.valueAt u % 2 ^ 64) = some r) :
      ∃ w, m.computed checks host ⟨code, some loc, [.var u], h⟩ = some w ∧ w.toNat = r := by
    rw [computed_cut_unary hc hv h0 hf h (cutOut_space h)]
    rw [← toNat_word] at hr
    exact computed_narrow_unary (cutOut_space h) hc hs (by omega) (by omega)
      (show 0 < min loc.size 8 by omega) (show min loc.size 8 ≤ 8 by omega)
      (word_lt m u) hr
  constructor
  · rintro ⟨w, hw, hwv⟩
    have hf := fits_of_computed_unary h hc hv h0 hw
    refine ⟨hf, ?_⟩
    by_cases hlow : lowExact code = true
    · exact .inl hlow
    · -- a count of bits, which every operand has
      have hz : code ≠ .intZext := fun he => hlow (he ▸ rfl)
      have hx : code ≠ .intSext := fun he => hlow (he ▸ rfl)
      obtain ⟨r, hr⟩ : ∃ r, evalUnary code (min u.size 8) (min loc.size 8) (m.valueAt u % 2 ^ 64) =
          some r := by
        cases code
        case popcount | lzcount => exact ⟨_, rfl⟩
        all_goals first | (cases hv; done) | (cases hc; done) | exact absurd rfl hlow
      obtain ⟨w', hw', hwr⟩ := hnarrow (sizesOk_cut_unary hc hz hx hv hs) hf hr
      obtain rfl := Option.some.inj (hw.symm.trans hw')
      exact .inr (hr.trans (congrArg some (hwr.symm.trans hwv)))
  · rintro ⟨hf, hlow⟩
    by_cases hz : code = .intZext
    · subst hz
      obtain ⟨_, he, hlt⟩ := hs
      obtain rfl := (List.cons.inj he).1
      cases hv
      exact computed_intZext h h0 hlt hf
    by_cases hx : code = .intSext
    · subst hx
      obtain ⟨_, he, hlt⟩ := hs
      obtain rfl := (List.cons.inj he).1
      by_cases h8 : 8 < loc.size
      · cases hv
        exact computed_intSext_wide h h0 h8 hf
      · have hle : 2 ^ (8 * u.size) ≤ 2 ^ 64 := Nat.pow_le_pow_right two_pos (by omega)
        have hs : sizesOk .intSext [u.size] loc.size := ⟨_, rfl, hlt⟩
        have hvlt := evalUnary_lt hs hout valueAt_lt hv
        have hle' : 2 ^ (8 * loc.size) ≤ 2 ^ 64 := Nat.pow_le_pow_right two_pos (by omega)
        refine hnarrow ⟨_, rfl, by omega⟩ hf ?_
        rw [min_eq_left (by omega), min_eq_left (by omega), Nat.mod_eq_of_lt (valueAt_lt.trans_le hle),
          Nat.mod_eq_of_lt (hvlt.trans_le hle')]
        exact hv
    have hs' := sizesOk_cut_unary hc hz hx hv hs
    rcases hlow with hlow | hr
    · exact hnarrow hs' hf (evalUnary_low hlow hz hx hs hv)
    · exact hnarrow hs' hf hr


theorem fits_of_computed_binary (hc : computes code = true) {a b r : ℕ}
    (hu : evalBinary code u.size u'.size loc.size a b = some r) (h0 : 0 < u.size)
    (h0' : 0 < u'.size) {w : U64}
    (hw : m.computed checks host ⟨code, some loc, [.var u, .var u'], h⟩ = some w) :
    m.Fits checks u ∧ m.Fits checks u' := by
  obtain ⟨m', r, he, -⟩ := (computed_eq_some_iff rfl).mp hw
  have hread {t : Varnode} (ht : 0 < t.size) {x : U64} (hx : m.readArg checks (.var t) = some x) :
      m.Fits checks t := ((readArg_eq_some_iff ht).mp hx).1
  have hsread {t : Varnode} (ht : 0 < t.size) {x : U64} (hx : m.sreadArg checks (.var t) = some x) :
      m.Fits checks t := by
    obtain ⟨y, hy, -⟩ := Option.bind_eq_some_iff.mp hx
    exact hread ht hy
  cases code
  case intEqual | intNotequal | intLess | intLessequal | intAdd | intSub | intMult | intAnd | intOr
      | intXor | boolAnd | boolOr | boolXor | intLeft | intRight | intCarry =>
    obtain ⟨x, hx, he⟩ := Option.bind_eq_some_iff.mp he
    obtain ⟨y, hy, -⟩ := Option.bind_eq_some_iff.mp he
    exact ⟨hread h0 hx, hread h0' hy⟩
  case intSless | intSlessequal | intScarry | intSborrow =>
    obtain ⟨x, hx, he⟩ := Option.bind_eq_some_iff.mp he
    obtain ⟨y, hy, -⟩ := Option.bind_eq_some_iff.mp he
    exact ⟨hsread h0 hx, hsread h0' hy⟩
  case intSright =>
    obtain ⟨x, hx, he⟩ := Option.bind_eq_some_iff.mp he
    obtain ⟨y, hy, -⟩ := Option.bind_eq_some_iff.mp he
    exact ⟨hsread h0 hx, hread h0' hy⟩
  case subpiece =>
    obtain ⟨lossy, -, he⟩ := Option.bind_eq_some_iff.mp he
    cases lossy with
    | true => cases he
    | false =>
      obtain ⟨x, hx, he⟩ := Option.bind_eq_some_iff.mp he
      obtain ⟨y, hy, -⟩ := Option.bind_eq_some_iff.mp he
      exact ⟨hread h0 hx, hread h0' hy⟩
  case intDiv | intRem =>
    obtain ⟨y, hy, he⟩ := Option.bind_eq_some_iff.mp he
    dsimp only at he
    split_ifs at he
    · cases he
    · cases he
    · obtain ⟨x, hx, -⟩ := Option.bind_eq_some_iff.mp he
      exact ⟨hread h0 hx, hread h0' hy⟩
  case intSdiv | intSrem =>
    obtain ⟨y, hy, he⟩ := Option.bind_eq_some_iff.mp he
    split_ifs at he
    · cases he
    · obtain ⟨x, hx, -⟩ := Option.bind_eq_some_iff.mp he
      exact ⟨hsread h0 hx, hread h0' hy⟩
  all_goals first | (cases hu; done) | cases hc

theorem sizesOk_cut_binary {s s' so a b r : ℕ} (hu : evalBinary code s s' so a b = some r)
    (hc : computes code = true) (hshift : shifts code = false) (hs : sizesOk code [s, s'] so) :
    sizesOk code [min s 8, min s' 8] (min so 8) := by
  cases code
  case intEqual | intNotequal | intLess | intLessequal | intSless | intSlessequal | intCarry
      | intScarry | intSborrow =>
    obtain ⟨⟨_, he⟩, rfl⟩ := hs
    obtain ⟨rfl, he⟩ := List.cons.inj he
    obtain ⟨rfl, -⟩ := List.cons.inj he
    exact ⟨⟨_, rfl⟩, rfl⟩
  case intAdd | intSub | intXor | intAnd | intOr | intMult | intDiv | intSdiv | intRem | intSrem =>
    obtain ⟨rfl, he⟩ := List.cons.inj hs
    obtain ⟨rfl, -⟩ := List.cons.inj he
    rfl
  case boolXor | boolAnd | boolOr =>
    obtain ⟨he, rfl⟩ := hs
    obtain ⟨rfl, hrest⟩ := List.cons.inj he
    obtain ⟨rfl, -⟩ := List.cons.inj hrest
    exact ⟨rfl, rfl⟩
  all_goals first | (cases hu; done) | (cases hc; done) | cases hshift

theorem lowHolds_binary {p q : ℕ × ℕ} {so : ℕ} (hshift : shifts code = false) :
    LowHolds checks code [p, q] so v ↔ lowExact code = true ∨
      evalPcode code [lowOperand p, lowOperand q] (min so 8) = some (v % 2 ^ 64) := by
  cases code <;> first | cases hshift; done | exact Iff.rfl

/-- With two operands, apart from the shifts and SUBPIECE. -/
theorem binary_iff (hc : computes code = true) (hshift : shifts code = false)
    (hs : sizesOk code [u.size, u'.size] loc.size) (h0 : 0 < u.size) (h0' : 0 < u'.size)
    (hout : 0 < loc.size)
    (hv : evalBinary code u.size u'.size loc.size (m.valueAt u) (m.valueAt u') = some v) :
    (∃ w, m.computed checks host ⟨code, some loc, [.var u, .var u'], h⟩ = some w ∧
        w.toNat = v % 2 ^ 64) ↔
      (m.Fits checks u ∧ m.Fits checks u') ∧
        LowHolds checks code [(u.size, m.valueAt u), (u'.size, m.valueAt u')] loc.size v := by
  have hload : code ≠ .load := fun he => by subst he; cases hv
  have hsub : code ≠ .subpiece := fun he => by subst he; cases hshift
  rw [lowHolds_binary hshift]
  -- once the operands are read, the step computes on their low eight bytes
  have hnarrow (hf : m.Fits checks u) (hf' : m.Fits checks u') :
      (∃ w, m.computed checks host ⟨code, some loc, [.var u, .var u'], h⟩ = some w ∧
        w.toNat = v % 2 ^ 64) ↔ evalBinary code (min u.size 8) (min u'.size 8) (min loc.size 8)
          (m.valueAt u % 2 ^ 64) (m.valueAt u' % 2 ^ 64) = some (v % 2 ^ 64) := by
    rw [computed_cut_binary hc hsub hv h0 h0' hf hf' h (cutOut_space h), ← toNat_word, ← toNat_word]
    refine computed_narrow_binary (cutOut_space h) hc hload hshift
      (sizesOk_cut_binary hv hc hshift hs) (by omega) (by omega) (by omega) (by omega)
      (show 0 < min loc.size 8 by omega) (show min loc.size 8 ≤ 8 by omega) (word_lt m u)
      (word_lt m u') fun hexact => ?_
    rw [toNat_word, toNat_word]
    by_cases hlow : lowExact code = true
    · rw [show evalBinary code (min u.size 8) (min u'.size 8) (cutOut loc).size _ _ = _ from
        evalBinary_low hlow hv]
      exact Option.some_ne_none _
    · cases code
      case intEqual | intNotequal | intLess | intLessequal | intSless | intSlessequal =>
        exact Option.some_ne_none _
      all_goals first
        | (cases hv; done)
        | (cases hc; done)
        | (cases hshift; done)
        | (cases hexact; done)
        | exact absurd rfl hlow
  constructor
  · rintro ⟨w, hw, hwv⟩
    obtain ⟨hf, hf'⟩ := fits_of_computed_binary h hc hv h0 h0' hw
    exact ⟨⟨hf, hf'⟩, .inr ((hnarrow hf hf').mp ⟨w, hw, hwv⟩)⟩
  · rintro ⟨⟨hf, hf'⟩, hlow⟩
    refine (hnarrow hf hf').mpr ?_
    rcases hlow with hlow | hr
    · exact evalBinary_low hlow hv
    · exact hr

theorem toNat_mask_word (r : U64) (hout : 0 < loc.size) :
    (mask r loc.size).toNat = r.toNat % 2 ^ (8 * min loc.size 8) := by
  rw [mask_toNat r hout, ← mod_low, Nat.mod_eq_of_lt ((Nat.mod_le _ _).trans_lt r.isLt)]

theorem amount_mod (b : ℕ) : b % 2 ^ 64 % 2 ^ 32 % 64 = b % 64 := by
  rw [Nat.mod_mod_of_dvd _ (by norm_num), Nat.mod_mod_of_dvd _ (by norm_num)]

theorem amount_mod32 (b : ℕ) : b % 2 ^ 64 % 2 ^ 32 = b % 2 ^ 32 :=
  Nat.mod_mod_of_dvd b (by norm_num)

section Shifts

variable (h0 : 0 < u.size) (h0' : 0 < u'.size) (hout : 0 < loc.size) (hf : m.Fits checks u)
  (hf' : m.Fits checks u')

include h0 h0' hout hf hf'

theorem computed_left : ∃ w,
    m.computed checks host ⟨.intLeft, some loc, [.var u, .var u'], h⟩ = some w ∧
      w.toNat = (m.valueAt u <<< (m.valueAt u' % 64)) % 2 ^ (8 * min loc.size 8) := by
  have hr : m.readArg checks (.var u) = some (m.word u) := (readArg_eq_some_iff h0).mpr ⟨hf, rfl⟩
  have hr' : m.readArg checks (.var u') = some (m.word u') :=
    (readArg_eq_some_iff h0').mpr ⟨hf', rfl⟩
  refine ⟨mask (m.word u <<< ((m.word u').toNat % 2 ^ 32 % 64)) loc.size,
    by simp [computed, execute, hr, hr'], ?_⟩
  rw [toNat_mask_word _ hout, BitVec.toNat_shiftLeft, low_mod, toNat_word, toNat_word, amount_mod,
    Nat.shiftLeft_eq, Nat.shiftLeft_eq, Nat.mul_mod, low_mod, ← Nat.mul_mod]

theorem computed_right (hs : u.size = loc.size) : ∃ w,
    m.computed checks host ⟨.intRight, some loc, [.var u, .var u'], h⟩ = some w ∧
      w.toNat = (m.valueAt u % 2 ^ 64) >>> (m.valueAt u' % 64) := by
  have hr : m.readArg checks (.var u) = some (m.word u) := (readArg_eq_some_iff h0).mpr ⟨hf, rfl⟩
  have hr' : m.readArg checks (.var u') = some (m.word u') :=
    (readArg_eq_some_iff h0').mpr ⟨hf', rfl⟩
  refine ⟨mask (m.word u >>> ((m.word u').toNat % 2 ^ 32 % 64)) loc.size,
    by simp [computed, execute, hr, hr'], ?_⟩
  have hlt := word_lt m u
  rw [hs] at hlt
  rw [toNat_mask_word _ hout, BitVec.toNat_ushiftRight, Nat.mod_eq_of_lt
    ((Nat.shiftRight_le _ _).trans_lt hlt), toNat_word, toNat_word, amount_mod]

omit hout in
theorem computed_sright (hs : u.size = loc.size) : ∃ w,
    m.computed checks host ⟨.intSright, some loc, [.var u, .var u'], h⟩ = some w ∧
      w.toNat = ((BitVec.ofNat (8 * min u.size 8) (m.valueAt u)).sshiftRight
        (min (m.valueAt u' % 2 ^ 32) 63)).toNat := by
  have hr : m.readArg checks (.var u) = some (m.word u) := (readArg_eq_some_iff h0).mpr ⟨hf, rfl⟩
  have hr' : m.readArg checks (.var u') = some (m.word u') :=
    (readArg_eq_some_iff h0').mpr ⟨hf', rfl⟩
  refine ⟨mask ((sext (m.word u) u.size).sshiftRight (min ((m.word u').toNat % 2 ^ 32) 63)) loc.size,
    by simp [computed, execute, hr, hr', sreadArg], ?_⟩
  rw [toNat_word, amount_mod32, ← hs]
  generalize min (m.valueAt u' % 2 ^ 32) 63 = t
  by_cases h8 : u.size ≤ 8
  · have hX : BitVec.ofNat (8 * u.size) (m.valueAt u) = (m.word u).setWidth (8 * u.size) := by
      apply BitVec.eq_of_toNat_eq
      rw [BitVec.toNat_ofNat, BitVec.toNat_setWidth, toNat_word]
      exact (Nat.mod_mod_of_dvd _ (pow_dvd_pow 2 (by omega))).symm
    rw [min_eq_left h8, mask_eq _ h0, Rules.mask_toNat_eq_iff]
    intro i hi
    have hlast : 8 * u.size - 1 < 8 * u.size := by omega
    have hi' : ¬ 8 * u.size ≤ i := by omega
    rw [sext_eq _ h0 h8, Rules.sext_sshiftRight_getLsbD _ h0 h8 t hi, hX, BitVec.getLsbD_sshiftRight,
      BitVec.msb_eq_getLsbD_last, BitVec.getLsbD_setWidth, BitVec.getLsbD_setWidth]
    by_cases hti : t + i < 8 * u.size
    · simp [hi', hti]
    · simp [hi', hti, hlast]
  · rw [min_eq_right (by omega), show mask _ u.size = _ from if_pos (.inl (by omega)),
      show sext (m.word u) u.size = m.word u from if_pos (.inr (by omega))]
    rfl

theorem computed_subpiece_iff {V : ℕ} :
    (∃ w, m.computed checks host ⟨.subpiece, some loc, [.var u, .var u'], h⟩ = some w ∧
        w.toNat = V) ↔
      m.narrowsQuotientLossily checks ⟨.subpiece, some loc, [.var u, .var u'], h⟩ = some false ∧
        (checks = true → m.valueAt u' % 2 ^ 64 < 8) ∧
        ((m.valueAt u % 2 ^ 64) >>> (8 * m.valueAt u' % 64)) % 2 ^ (8 * min loc.size 8) = V := by
  have hr : m.readArg checks (.var u) = some (m.word u) := (readArg_eq_some_iff h0).mpr ⟨hf, rfl⟩
  have hr' : m.readArg checks (.var u') = some (m.word u') :=
    (readArg_eq_some_iff h0').mpr ⟨hf', rfl⟩
  cases hn : m.narrowsQuotientLossily checks ⟨.subpiece, some loc, [.var u, .var u'], h⟩ with
  | none => simp [computed, execute, hn]
  | some lossy =>
    cases lossy with
    | true => simp [computed, execute, hn]
    | false =>
      have hword : (m.word u').toNat * 8 % 64 = 8 * m.valueAt u' % 64 := by
        rw [toNat_word]
        omega
      have hshifted : (mask (m.word u >>> ((m.word u').toNat * 8 % 64)) loc.size).toNat =
          ((m.valueAt u % 2 ^ 64) >>> (8 * m.valueAt u' % 64)) % 2 ^ (8 * min loc.size 8) := by
        rw [toNat_mask_word _ hout, BitVec.toNat_ushiftRight, hword, toNat_word]
      have hgood (hlt : checks = true → m.valueAt u' % 2 ^ 64 < 8) :
          m.computed checks host ⟨.subpiece, some loc, [.var u, .var u'], h⟩ =
            some (mask (m.word u >>> ((m.word u').toNat * 8 % 64)) loc.size) := by
        have hle : checks = true → ¬ 64 ≤ (m.word u').toNat * 8 := fun hc => by
          have := hlt hc
          rw [toNat_word]
          omega
        cases checks
        · simp [computed, execute, hn, hr, hr']
        · simp [computed, execute, hn, hr, hr', hle rfl]
      constructor
      · rintro ⟨w, hw, rfl⟩
        have hlt : checks = true → m.valueAt u' % 2 ^ 64 < 8 := by
          rintro rfl
          by_contra hge
          have hle : 64 ≤ (m.word u').toNat * 8 := by
            rw [toNat_word]
            omega
          simp [computed, execute, hn, hr, hr', hle] at hw
        refine ⟨rfl, hlt, ?_⟩
        rw [hgood hlt] at hw
        rw [← hshifted, Option.some.inj hw]
      · rintro ⟨-, hlt, rfl⟩
        exact ⟨_, hgood hlt, hshifted⟩

end Shifts

/-- The shifts and SUBPIECE. -/
theorem shift_iff (hshift : shifts code = true) (hs : sizesOk code [u.size, u'.size] loc.size)
    (h0 : 0 < u.size) (h0' : 0 < u'.size) (hout : 0 < loc.size)
    (hv : evalBinary code u.size u'.size loc.size (m.valueAt u) (m.valueAt u') = some v) :
    (∃ w, m.computed checks host ⟨code, some loc, [.var u, .var u'], h⟩ = some w ∧
        w.toNat = v % 2 ^ 64) ↔
      (m.Fits checks u ∧ m.Fits checks u') ∧
        LowHolds checks code [(u.size, m.valueAt u), (u'.size, m.valueAt u')] loc.size v ∧
        (code = .subpiece → m.narrowsQuotientLossily checks
          ⟨code, some loc, [.var u, .var u'], h⟩ = some false) := by
  -- a shift always computes its word
  have hone {V : ℕ} (hc : computes code = true) (hsub : code ≠ .subpiece)
      (hword : m.Fits checks u → m.Fits checks u' → ∃ w,
        m.computed checks host ⟨code, some loc, [.var u, .var u'], h⟩ = some w ∧ w.toNat = V) :
      (∃ w, m.computed checks host ⟨code, some loc, [.var u, .var u'], h⟩ = some w ∧
        w.toNat = v % 2 ^ 64) ↔ (m.Fits checks u ∧ m.Fits checks u') ∧ V = v % 2 ^ 64 ∧
          (code = .subpiece → m.narrowsQuotientLossily checks
            ⟨code, some loc, [.var u, .var u'], h⟩ = some false) := by
    constructor
    · rintro ⟨w, hw, hwv⟩
      obtain ⟨hf, hf'⟩ := fits_of_computed_binary h hc hv h0 h0' hw
      obtain ⟨w', hw', rfl⟩ := hword hf hf'
      obtain rfl := Option.some.inj (hw.symm.trans hw')
      exact ⟨⟨hf, hf'⟩, hwv, fun he => absurd he hsub⟩
    · rintro ⟨⟨hf, hf'⟩, rfl, -⟩
      exact hword hf hf'
  cases code
  case intLeft => exact hone rfl (by nofun) fun hf hf' => computed_left h h0 h0' hout hf hf'
  case intRight =>
    obtain ⟨_, he⟩ := hs
    exact hone rfl (by nofun) fun hf hf' =>
      computed_right h h0 h0' hout hf hf' (List.cons.inj he).1
  case intSright =>
    obtain ⟨_, he⟩ := hs
    exact hone rfl (by nofun) fun hf hf' =>
      computed_sright h h0 h0' hf hf' (List.cons.inj he).1
  case subpiece =>
    constructor
    · rintro ⟨w, hw, hwv⟩
      obtain ⟨hf, hf'⟩ := fits_of_computed_binary h rfl hv h0 h0' hw
      obtain ⟨hq, hlow⟩ := (computed_subpiece_iff h h0 h0' hout hf hf').mp ⟨w, hw, hwv⟩
      exact ⟨⟨hf, hf'⟩, hlow, fun _ => hq⟩
    · rintro ⟨⟨hf, hf'⟩, hlow, hq⟩
      exact (computed_subpiece_iff h h0 h0' hout hf hf').mpr ⟨hq rfl, hlow⟩
  all_goals cases hshift

end Operands

section Step

variable {checks : Bool} {host : Host} {m : Machine} {op : PcodeOp} {loc : Varnode} {v : ℕ}

/-- The operands of an operation, at their whole width. -/
def operands (m : Machine) (op : PcodeOp) : Operands :=
  (op.ins.filterMap PArg.asVar).map fun u => (u.size, m.valueAt u)

/-- The operand and result sizes p-code allows. -/
structure WellSized (op : PcodeOp) : Prop where
  code : computes op.opcode = true ∨ op.opcode = .store
  sizes : sizesOk op.opcode ((op.ins.filterMap PArg.asVar).map Varnode.size)
    (op.out.elim 0 Varnode.size)
  ins : ∀ u ∈ op.ins.filterMap PArg.asVar, 0 < u.size
  out : ∀ u, op.out = some u → 0 < u.size
  space : ∀ spc, PArg.space spc ∈ op.ins → spc ≠ "const"

/-- When one step gives the p-code value `v` at `loc`: every operand and the output can be addressed,
the low eight bytes of the operands decide those of the value, the bytes of the output past the
eighth already hold the value's, and SUBPIECE does not narrow the last quotient lossily. -/
structure Faithful (checks : Bool) (m : Machine) (op : PcodeOp) (loc : Varnode) (v : ℕ) : Prop where
  operands : ∀ u ∈ op.ins.filterMap PArg.asVar, m.Fits checks u
  memory : ∀ spc ptr out, op.opcode = .load → op.ins = [.space spc, .var ptr] → op.out = some out →
    m.Fits checks ⟨spc, m.word ptr, out.size⟩
  output : m.Fits checks (m.decoded loc)
  low : LowHolds checks op.opcode (m.operands op) loc.size v
  high : m.valueAt loc / 2 ^ 64 = v / 2 ^ 64
  quotient : op.opcode = .subpiece → m.narrowsQuotientLossily checks op = some false

/-- LOAD reads the low eight bytes of the location the pointer names. -/
theorem load_iff {spc : String} {ptr : Varnode} (h : ∀ out, some loc = some out → out.space ≠ "const")
    (h0 : 0 < ptr.size) (hout : 0 < loc.size) :
    (∃ w, m.computed checks host ⟨.load, some loc, [.space spc, .var ptr], h⟩ = some w ∧
        w.toNat = m.valueAt ⟨spc, m.word ptr, loc.size⟩ % 2 ^ 64) ↔
      m.Fits checks ptr ∧ m.Fits checks ⟨spc, m.word ptr, loc.size⟩ := by
  have hread {w : U64} : m.read checks spc (m.word ptr) loc.size = some w ↔
      m.Fits checks ⟨spc, m.word ptr, loc.size⟩ ∧ m.word ⟨spc, m.word ptr, loc.size⟩ = w :=
    read_eq_some_iff (v := ⟨spc, m.word ptr, loc.size⟩) hout
  constructor
  · rintro ⟨w, hw, -⟩
    obtain ⟨m', r, he, -⟩ := (computed_eq_some_iff rfl).mp hw
    obtain ⟨x, hx, he⟩ := Option.bind_eq_some_iff.mp he
    obtain ⟨hf, rfl⟩ := (readArg_eq_some_iff h0).mp hx
    obtain ⟨y, hy, -⟩ := Option.bind_eq_some_iff.mp he
    exact ⟨hf, (hread.mp hy).1⟩
  · rintro ⟨hf, hmem⟩
    have hr : m.readArg checks (.var ptr) = some (m.word ptr) := (readArg_eq_some_iff h0).mpr ⟨hf, rfl⟩
    have hmem' := hread.mpr ⟨hmem, rfl⟩
    refine ⟨mask (m.word ⟨spc, m.word ptr, loc.size⟩) loc.size, ?_, ?_⟩
    · simp [computed, execute, hr, hmem']
    · have hmask := mask_word m (u := ⟨spc, m.word ptr, loc.size⟩) hout
      rw [show mask (m.word ⟨spc, m.word ptr, loc.size⟩) loc.size = _ from hmask, toNat_word]

/-- STORE writes the low eight bytes of its operand. -/
theorem store_agrees_iff {spc : String} {ptr val : Varnode}
    (h : ∀ out : Varnode, none = some out → out.space ≠ "const")
    (h0 : 0 < ptr.size) (h0' : 0 < val.size) (hspace : spc ≠ "const")
    (hp : m.Placed ⟨spc, m.word ptr, val.size⟩) :
    Agrees checks host m ⟨.store, none, [.space spc, .var ptr, .var val], h⟩
        ⟨spc, m.word ptr, val.size⟩ (m.valueAt val) ↔
      (m.Fits checks ptr ∧ m.Fits checks val) ∧
        m.Fits checks (m.decoded ⟨spc, m.word ptr, val.size⟩) ∧
        m.valueAt ⟨spc, m.word ptr, val.size⟩ / 2 ^ 64 = m.valueAt val / 2 ^ 64 := by
  generalize hloc : (⟨spc, m.word ptr, val.size⟩ : Varnode) = loc at hp ⊢
  have hsize : loc.size = val.size := by rw [← hloc]
  have hlocspace : loc.space ≠ "const" := by rw [← hloc]; exact hspace
  have hstored {m' : Machine} (hst : m.Stores loc (m.word val) m') :
      m'.valueAt loc = m.valueAt val ↔ m.valueAt loc / 2 ^ 64 = m.valueAt val / 2 ^ 64 := by
    have hlt := word_lt m val
    rw [← hsize] at hlt
    rw [hst.valueAt hlocspace hp, Nat.mod_eq_of_lt hlt,
      value_split (hsize ▸ valueAt_lt) _ _ hlt valueAt_lt, toNat_word]
    exact ⟨fun h => h.2, fun h => ⟨rfl, h⟩⟩
  have hwrite (value : U64) : m.write checks spc (m.word ptr) val.size value =
      m.write checks loc.space loc.offset loc.size value := by rw [← hloc]
  constructor
  · rintro ⟨m', hstep, hpost⟩
    obtain ⟨o, ho, hstep⟩ := Option.bind_eq_some_iff.mp hstep
    obtain ⟨x, hx, ho⟩ := Option.bind_eq_some_iff.mp ho
    obtain ⟨hf, rfl⟩ := (readArg_eq_some_iff h0).mp hx
    obtain ⟨y, hy, ho⟩ := Option.bind_eq_some_iff.mp ho
    obtain ⟨hf', rfl⟩ := (readArg_eq_some_iff h0').mp hy
    obtain ⟨m₁, hw, ho⟩ := Option.bind_eq_some_iff.mp ho
    cases ho
    cases hstep
    replace hw : m.write checks spc (m.word ptr) val.size (m.word val) = some m' := hw
    rw [hwrite] at hw
    have hout : m.Fits checks (m.decoded loc) := by
      by_contra hn
      rw [write_of_not_fits hlocspace (by omega) hn] at hw
      cases hw
    obtain ⟨m₂, hw', hst⟩ := write_of_fits hlocspace hout (m.word val)
    obtain rfl := Option.some.inj (hw.symm.trans hw')
    have hval := hpost.resolve_right (by rw [hst.unmodeled]; omega)
    exact ⟨⟨hf, hf'⟩, hout, (hstored hst).mp hval⟩
  · rintro ⟨⟨hf, hf'⟩, hout, hhigh⟩
    obtain ⟨m₂, hw, hst⟩ := write_of_fits hlocspace hout (m.word val)
    have hr : m.readArg checks (.var ptr) = some (m.word ptr) := (readArg_eq_some_iff h0).mpr ⟨hf, rfl⟩
    have hr' : m.readArg checks (.var val) = some (m.word val) :=
      (readArg_eq_some_iff h0').mpr ⟨hf', rfl⟩
    rw [← hwrite] at hw
    refine ⟨m₂, ?_, .inl ((hstored hst).mpr hhigh)⟩
    simp [step, execute, hr, hr', PArg.asVar, hw]

/-- A step leaves the p-code value in its output location exactly where `Faithful` holds. -/
theorem step_agrees_iff (hs : WellSized op) (hmean : m.meaning op = some (loc, v)) (hp : m.Placed loc) :
    Agrees checks host m op loc v ↔ Faithful checks m op loc v := by
  obtain ⟨code, out, ins, hout⟩ := op
  unfold meaning at hmean
  dsimp only at hmean
  split at hmean
  case h_1 spc ptr out =>
    cases hmean
    have hptr : 0 < ptr.size := hs.ins ptr List.mem_cons_self
    have h0 : 0 < loc.size := hs.out loc rfl
    have hlt : m.valueAt ⟨spc, m.word ptr, loc.size⟩ < 2 ^ (8 * loc.size) :=
      valueAt_lt (v := ⟨spc, m.word ptr, loc.size⟩)
    rw [agrees_iff_computed rfl rfl h0 hp hlt, load_iff hout hptr h0]
    constructor
    · rintro ⟨⟨hf, hmem⟩, hfits, hhigh⟩
      refine ⟨fun u hu => ?_, fun _ _ _ _ hi ho => ?_, hfits, .inl rfl, hhigh,
        fun he => (by cases he)⟩
      · rw [List.mem_singleton.mp hu]
        exact hf
      · cases hi
        cases ho
        exact hmem
    · intro hF
      exact ⟨⟨hF.operands ptr List.mem_cons_self, hF.memory spc ptr loc rfl rfl rfl⟩, hF.output, hF.high⟩
  case h_2 spc ptr val =>
    cases hmean
    have hptr : 0 < ptr.size := hs.ins ptr List.mem_cons_self
    have hval : 0 < val.size := hs.ins val (List.mem_cons_of_mem _ List.mem_cons_self)
    rw [store_agrees_iff hout hptr hval (hs.space spc List.mem_cons_self) hp]
    constructor
    · rintro ⟨⟨hf, hf'⟩, hfits, hhigh⟩
      refine ⟨fun u hu => ?_, fun _ _ _ he => (by cases he), hfits, .inl rfl, hhigh,
        fun he => (by cases he)⟩
      rcases List.mem_cons.mp hu with rfl | hu
      · exact hf
      · rw [List.mem_singleton.mp hu]
        exact hf'
    · intro hF
      exact ⟨⟨hF.operands ptr List.mem_cons_self, hF.operands val (List.mem_cons_of_mem _
        List.mem_cons_self)⟩, hF.output, hF.high⟩
  case h_3 u out =>
    obtain ⟨r, hr, he⟩ := Option.map_eq_some_iff.mp hmean
    cases he
    have hc : computes code = true := hs.code.resolve_right fun he => by
      change code = .store at he
      subst he
      cases hr
    have hu : 0 < u.size := hs.ins u List.mem_cons_self
    have h0 : 0 < loc.size := hs.out loc rfl
    have hlt : v < 2 ^ (8 * loc.size) := evalUnary_lt hs.sizes h0 valueAt_lt hr
    rw [agrees_iff_computed hc rfl h0 hp hlt, unary_iff hout hc hs.sizes hu h0 hr]
    constructor
    · rintro ⟨⟨hf, hlow⟩, hfits, hhigh⟩
      refine ⟨fun t ht => ?_, fun _ _ _ _ he => (by cases he), hfits, hlow, hhigh, fun hsub => ?_⟩
      · rw [List.mem_singleton.mp ht]
        exact hf
      · change code = .subpiece at hsub
        subst hsub
        cases hr
    · intro hF
      exact ⟨⟨hF.operands u List.mem_cons_self, hF.low⟩, hF.output, hF.high⟩
  case h_4 u u' out =>
    obtain ⟨r, hr, he⟩ := Option.map_eq_some_iff.mp hmean
    cases he
    have hc : computes code = true := hs.code.resolve_right fun he => by
      change code = .store at he
      subst he
      cases hr
    have hu : 0 < u.size := hs.ins u List.mem_cons_self
    have hu' : 0 < u'.size := hs.ins u' (List.mem_cons_of_mem _ List.mem_cons_self)
    have h0 : 0 < loc.size := hs.out loc rfl
    have hlt : v < 2 ^ (8 * loc.size) := evalBinary_lt hs.sizes h0 valueAt_lt valueAt_lt hr
    have hins (hf : m.Fits checks u) (hf' : m.Fits checks u') :
        ∀ t ∈ [u, u'], m.Fits checks t := by
      intro t ht
      rcases List.mem_cons.mp ht with rfl | ht
      · exact hf
      · rw [List.mem_singleton.mp ht]
        exact hf'
    rw [agrees_iff_computed hc rfl h0 hp hlt]
    by_cases hshift : shifts code = true
    · rw [shift_iff hout hshift hs.sizes hu hu' h0 hr]
      constructor
      · rintro ⟨⟨⟨hf, hf'⟩, hlow, hq⟩, hfits, hhigh⟩
        exact ⟨hins hf hf', fun _ _ _ _ he => (by cases he), hfits, hlow, hhigh, hq⟩
      · intro hF
        exact ⟨⟨⟨hF.operands u List.mem_cons_self, hF.operands u' (List.mem_cons_of_mem _
          List.mem_cons_self)⟩, hF.low, hF.quotient⟩, hF.output, hF.high⟩
    · have hshift : shifts code = false := by simpa using hshift
      rw [binary_iff hout hc hshift hs.sizes hu hu' h0 hr]
      constructor
      · rintro ⟨⟨⟨hf, hf'⟩, hlow⟩, hfits, hhigh⟩
        refine ⟨hins hf hf', fun _ _ _ _ he => (by cases he), hfits, hlow, hhigh, fun hsub => ?_⟩
        change code = .subpiece at hsub
        subst hsub
        cases hshift
      · intro hF
        exact ⟨⟨⟨hF.operands u List.mem_cons_self, hF.operands u' (List.mem_cons_of_mem _
          List.mem_cons_self)⟩, hF.low⟩, hF.output, hF.high⟩
  case h_5 => cases hmean

/-- On a bus that keeps the low `k` address lines, a location of at most `2 ^ k` bytes is `size`
different cells. -/
theorem placed_of_bus {k : ℕ} (hbus : ∀ a, (m.bus loc.space a).toNat = a.toNat % 2 ^ k) (hk : k ≤ 64)
    (hsize : loc.size ≤ 2 ^ k) : m.Placed loc := by
  have hdvd : (2 : ℕ) ^ k ∣ 2 ^ 64 := pow_dvd_pow 2 hk
  have hplace (off : U64) (i : ℕ) : (m.place { loc with offset := off } i).toNat =
      (off.toNat + (if m.bigEndian loc.space then loc.size - 1 - i else i)) % 2 ^ k := by
    unfold place
    rw [hbus, BitVec.toNat_add, BitVec.toNat_ofNat, Nat.mod_mod_of_dvd _ hdvd, Nat.add_mod,
      Nat.mod_mod_of_dvd _ hdvd, ← Nat.add_mod]
  constructor
  · intro i hi j hj he
    have h := congrArg BitVec.toNat he
    rw [show m.place loc i = m.place { loc with offset := loc.offset } i from rfl,
      show m.place loc j = m.place { loc with offset := loc.offset } j from rfl, hplace, hplace] at h
    have hmod := Nat.ModEq.add_left_cancel' _ h
    unfold Nat.ModEq at hmod
    split_ifs at hmod with hb
    · rw [Nat.mod_eq_of_lt (by omega), Nat.mod_eq_of_lt (by omega)] at hmod
      omega
    · rw [Nat.mod_eq_of_lt (by omega), Nat.mod_eq_of_lt (by omega)] at hmod
      exact hmod
  · intro i hi
    apply BitVec.eq_of_toNat_eq
    rw [show m.place loc i = m.place { loc with offset := loc.offset } i from rfl, hplace, hplace, hbus,
      Nat.mod_add_mod]

theorem placed_bare (h : loc.size ≤ 2 ^ 64) : bare.Placed loc :=
  placed_of_bus (fun a => (Nat.mod_eq_of_lt a.isLt).symm) le_rfl h

theorem register_space : ("register" : String) ≠ "const" := by decide

/-- `register:0:8 = code #x:8, #y:8`. -/
def wordOp (code : OpCode) (x y : U64) : PcodeOp where
  opcode := code
  out := some ⟨"register", 0, 8⟩
  ins := [.var ⟨"const", x, 8⟩, .var ⟨"const", y, 8⟩]
  out_space := Varnode.out_space register_space

theorem wellSized_wordOp {code : OpCode} {x y : U64} (hc : computes code = true)
    (hs : sizesOk code [8, 8] 8) : WellSized (wordOp code x y) where
  code := .inl hc
  sizes := hs
  ins u hu := by
    rcases List.mem_cons.mp hu with rfl | hu
    · exact Nat.succ_pos 7
    · rw [List.mem_singleton.mp hu]
      exact Nat.succ_pos 7
  out u hu := Option.some.inj hu ▸ Nat.succ_pos 7
  space spc h := by
    rcases List.mem_cons.mp h with h | h
    · cases h
    · cases List.mem_singleton.mp h

theorem step_agrees_iff_left :
    Agrees true Funcdata.bareHost bare (wordOp .intLeft 3 4) ⟨"register", 0, 8⟩ 48 ↔
      Faithful true bare (wordOp .intLeft 3 4) ⟨"register", 0, 8⟩ 48 :=
  step_agrees_iff (wellSized_wordOp rfl ⟨8, rfl⟩) rfl (placed_bare (by decide))

/-- `1 >> 64` is 0; the interpreter shifts by 0. -/
theorem step_disagrees : bare.meaning (wordOp .intRight 1 64) = some (⟨"register", 0, 8⟩, 0) ∧
    ¬ Agrees true Funcdata.bareHost bare (wordOp .intRight 1 64) ⟨"register", 0, 8⟩ 0 := by
  refine ⟨rfl, fun h => ?_⟩
  have hcomp : bare.computed true Funcdata.bareHost (wordOp .intRight 1 64) = some 1 := rfl
  obtain ⟨⟨w, hw, hlow⟩, -, -⟩ := (agrees_iff_computed rfl rfl (Nat.succ_pos 7)
    (placed_bare (by decide)) (Nat.two_pow_pos 64)).mp h
  rw [hcomp] at hw
  rw [← Option.some.inj hw] at hlow
  exact absurd hlow (by decide)

end Step

end Machine
end Emu
end Mosura
