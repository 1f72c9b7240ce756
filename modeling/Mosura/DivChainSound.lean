import Mosura.DivRules
import Mosura.FlagSound
import Mosura.ListGraph
import Mosura.Lib.Division

/-! When `RuleDivChain` keeps the quotient. -/

namespace Mosura
namespace Funcdata

variable {f g : Funcdata} {env : VarnodeId → ℕ} {op o d : OpId} {out v x : VarnodeId}

/-- Where one division by the wrapped product of the two divisors is the two divisions: the divisors
are the constants of `op` and of the op `d` before it, the dividend is `x`. -/
def DivChainExact (f : Funcdata) (env : VarnodeId → ℕ) (op d : OpId) (x : VarnodeId) : Prop :=
  let n := 8 * (f.vn x).size
  let c1 := (f.inVn d 1).constantValue.toNat
  let c2 := (f.inVn op 1).constantValue.toNat
  if (f.op op).opcode = .intSdiv then
    -- the smallest number divided by -1 is itself again
    ¬(f.valueOf env x = 2 ^ (n - 1) ∧ c1 = 2 ^ n - 1 ∧ c2 ≠ 1 ∧ c2 ≠ 2 ^ n - 1)
  else if (f.op d).opcode = .intRight then
    2 ^ c1 * c2 < 2 ^ n ∨ f.valueOf env x < 2 ^ (c1 % 2 ^ 32) * c2 % 2 ^ n
  else c1 * c2 < 2 ^ n ∨ f.valueOf env x < c1 * c2 % 2 ^ n

/-! What the match says. -/

/-- A division by a constant, or a shift by one. -/
structure DividesBy (f : Funcdata) (d : OpId) (out x c : VarnodeId) : Prop where
  graph : f.RuleGraph
  output : (f.op d).output = some out
  code : (f.op d).opcode = .intDiv ∨ (f.op d).opcode = .intSdiv ∨ (f.op d).opcode = .intRight
  inrefs : (f.op d).inrefs = [x, c]
  constant : (f.vn c).constant = true

namespace DividesBy

variable {c : VarnodeId} (h : DividesBy f d out x c)
include h

theorem sizes : (f.vn x).size = (f.vn out).size ∧
    ((f.op d).opcode ≠ .intRight → (f.vn c).size = (f.vn out).size) := by
  have hs := h.graph.sizes h.output
  rw [h.inrefs] at hs
  rcases h.code with hc | hc | hc
  all_goals rw [hc] at hs
  · obtain ⟨hx, hcs, -⟩ := List.cons_eq_cons.mp hs |>.imp id List.cons_eq_cons.mp
    exact ⟨hx, fun _ => hcs⟩
  · obtain ⟨hx, hcs, -⟩ := List.cons_eq_cons.mp hs |>.imp id List.cons_eq_cons.mp
    exact ⟨hx, fun _ => hcs⟩
  · obtain ⟨sb, hsb⟩ := hs
    exact ⟨(List.cons_eq_cons.mp hsb).1, fun hne => absurd hc hne⟩

theorem sem : (f.op d).opcode.hasSemantics = true := by
  rcases h.code with hc | hc | hc <;> rw [hc] <;> rfl

theorem pos : 0 < (f.vn out).size := (h.graph.opWf d out h.output).out_pos

theorem lt : x < f.numVarnodes := h.graph.lt_of_mem (o := d) (by rw [h.inrefs]; simp)

theorem inVn_one : f.inVn d 1 = f.vn c := by
  unfold inVn
  rw [input_one h.inrefs]
  rfl

theorem valueOf_divisor : f.valueOf env c = (f.vn c).constantValue.toNat := valueOf_const h.constant

theorem result : f.resultOf env d out = evalBinary (f.op d).opcode (f.vn out).size (f.vn c).size
    (f.vn out).size (f.valueOf env x) (f.vn c).constantValue.toNat := by
  rw [resultOf_two h.inrefs, h.sizes.1, h.valueOf_divisor]

end DividesBy

theorem DividesBy.of_inputs {c : VarnodeId} (hgr : f.RuleGraph) (hout : (f.op d).output = some out)
    (hcode : (f.op d).opcode = .intDiv ∨ (f.op d).opcode = .intSdiv ∨ (f.op d).opcode = .intRight)
    (hx : (f.op d).input 0 = some x) (hc : (f.op d).input 1 = some c)
    (hconst : (f.vn c).constant = true) : DividesBy f d out x c := by
  have hs := hgr.sizes hout
  have htwo : ∃ s t, ((f.op d).inrefs.map fun v => (f.vn v).size) = [s, t] := by
    rcases hcode with he | he | he
    all_goals rw [he] at hs
    · exact ⟨_, _, hs⟩
    · exact ⟨_, _, hs⟩
    · exact ⟨_, hs⟩
  obtain ⟨s, t, hst⟩ := htwo
  obtain ⟨a, b, hin, -, -⟩ := inrefs_two hst
  obtain rfl := Option.some.inj (hx.symm.trans (input_zero hin))
  obtain rfl := Option.some.inj (hc.symm.trans (input_one hin))
  exact ⟨hgr, hout, hcode, hin, hconst⟩

/-- What `RuleDivChain` has found at `op`. -/
structure Chained (f : Funcdata) (op : OpId) (out : VarnodeId) (m : DivChain) (v c1 c2 : VarnodeId) :
    Prop where
  second : DividesBy f op out v c2
  first : DividesBy f m.divOp v m.baseVn c1
  defOp : (f.vn v).defOp = some m.divOp
  code : (f.op op).opcode = .intDiv ∨ (f.op op).opcode = .intSdiv
  codes : (f.op m.divOp).opcode = (f.op op).opcode ∨
    (f.op op).opcode = .intDiv ∧ (f.op m.divOp).opcode = .intRight
  val1 : m.val1 = chainDivisor (f.op m.divOp).opcode (f.op op).opcode (f.vn c1).constantValue
  val2 : m.val2 = (f.vn c2).constantValue

theorem divChainMatch_spec (hgr : f.RuleGraph) (hcode : (f.op op).opcode ∈ [.intDiv, .intSdiv])
    (hout : (f.op op).output = some out) {m : DivChain} (h : f.divChainMatch op = some m) :
    ∃ v c1 c2, Chained f op out m v c1 c2 := by
  have hcode : (f.op op).opcode = .intDiv ∨ (f.op op).opcode = .intSdiv := by simpa using hcode
  unfold divChainMatch at h
  simp only [Option.bind_eq_bind, Option.bind_eq_some_iff] at h
  obtain ⟨c2, hc2, v, hv, h⟩ := h
  split_ifs at h with hconst
  simp only [Bool.or_eq_true, Bool.not_eq_true', not_or, Bool.not_eq_false] at hconst
  simp only [Option.bind_eq_some_iff] at h
  obtain ⟨d, hd, c1, hc1, x, hx, h⟩ := h
  split_ifs at h with hcodes hreads hfree
  simp only [Bool.or_eq_true, Bool.not_eq_true', not_or, Bool.not_eq_false] at hreads
  obtain rfl := Option.some.inj h
  have hcodes : (f.op d).opcode = (f.op op).opcode ∨
      (f.op op).opcode = .intDiv ∧ (f.op d).opcode = .intRight := by
    by_contra hne
    rw [not_or, not_and_or] at hne
    exact hcodes hne
  have hdcode : (f.op d).opcode = .intDiv ∨ (f.op d).opcode = .intSdiv ∨
      (f.op d).opcode = .intRight := by
    rcases hcodes with he | ⟨-, he⟩
    · rw [he]
      exact hcode.imp id .inl
    · exact .inr (.inr he)
  refine ⟨v, c1, c2, .of_inputs hgr hout (hcode.imp id .inl) hv hc2 hconst.1,
    .of_inputs hgr (hgr.output_of_def hd) hdcode hx hc1 hreads.1, hd, hcode, hcodes, rfl, rfl⟩

namespace Chained

variable {m : DivChain} {c1 c2 : VarnodeId} (h : Chained f op out m v c1 c2)
include h

theorem size : (f.vn m.baseVn).size = (f.vn v).size ∧ (f.vn v).size = (f.vn out).size :=
  ⟨h.first.sizes.1, h.second.sizes.1⟩

theorem result : f.resultOf env op out = evalBinary (f.op op).opcode (f.vn out).size
    (f.vn c2).size (f.vn out).size (f.valueOf env v) (f.vn c2).constantValue.toNat :=
  h.second.result

/-- What the first division has computed. -/
theorem first_result (hv : f.ValuesAt op env) : evalBinary (f.op m.divOp).opcode (f.vn out).size
    (f.vn c1).size (f.vn out).size (f.valueOf env m.baseVn) (f.vn c1).constantValue.toNat =
      some (f.valueOf env v) := by
  have hin : v ∈ (f.op op).inrefs := by rw [h.second.inrefs]; simp
  rw [← hv.result hin (.here h.defOp) h.first.output h.first.sem, h.first.result, h.size.2]

end Chained

/-! The divisors. -/

theorem product_toNat (a b : U64) {s : ℕ} (h8 : s ≤ 8) :
    (a * b &&& calcMask s).toNat = a.toNat * b.toNat % 2 ^ (8 * s) := by
  rw [and_calcMask_toNat _ h8, BitVec.toNat_mul,
    Nat.mod_mod_of_dvd _ (pow_dvd_pow 2 (show 8 * s ≤ 64 by omega))]

theorem checkedShl_one {n : ℕ} (h : Rules.checkedShl 1 n ≠ 0) :
    (Rules.checkedShl 1 n).toNat = 2 ^ n := by
  unfold Rules.checkedShl at h ⊢
  split_ifs at h ⊢ with hn
  · rw [BitVec.toNat_shiftLeft, Nat.shiftLeft_eq]
    change 1 * 2 ^ n % 2 ^ 64 = 2 ^ n
    rw [Nat.one_mul, Nat.mod_eq_of_lt (Nat.pow_lt_pow_right (by norm_num) hn)]
  · exact absurd rfl h

theorem signbitNegative_iff {v : U64} {s : ℕ} (h0 : 0 < s) (h8 : s ≤ 8)
    (hv : v.toNat < 2 ^ (8 * s)) :
    signbitNegative v s = true ↔ 2 ^ (8 * s) ≤ 2 * v.toNat := by
  have hbit : Rules.checkedShl 0x80 (8 * (s - 1)) = signMask s := by
    interval_cases s <;> rfl
  unfold signbitNegative
  rw [two_mul_ge_iff_testBit h0 hv, hbit, Bool.and_eq_true, bne_iff_ne, bne_iff_ne,
    Ne, Ne, and_signMask_eq_zero v h0 h8, Bool.not_eq_false, BitVec.getLsbD]
  exact and_iff_right h0.ne'

/-- A divisor without its sign is its absolute value. -/
theorem chainMagnitude_toNat {v : U64} {s : ℕ} (h0 : 0 < s) (h8 : s ≤ 8)
    (hv : v.toNat < 2 ^ (8 * s)) :
    (chainMagnitude v s).toNat = (Signed.toInt (8 * s) v.toNat).natAbs := by
  unfold chainMagnitude Signed.toInt
  by_cases hs : signbitNegative v s = true
  · have hge := (signbitNegative_iff h0 h8 hv).mp hs
    have hpos : 0 < 2 ^ (8 * s) := Nat.two_pow_pos _
    rw [if_pos hs, neg_and_calcMask_toNat h8 hv.le, if_neg (not_lt.mpr hge),
      Nat.mod_eq_of_lt (by omega)]
    omega
  · have hlt := mt (signbitNegative_iff h0 h8 hv).mpr hs
    rw [if_neg hs, if_pos (not_le.mp hlt)]
    rfl

theorem mostsigbit_eq (v : U64) : mostsigbit v = (bitLen v.toNat : ℤ) - 1 := by
  unfold mostsigbit
  cases h : mostsigbitSet v with
  | none =>
    rw [mostsigbitSet_eq_none.mp h]
    rfl
  | some k =>
    rw [mostsigbitSet_eq_some h]
    change (k : ℤ) = _
    push_cast
    omega

/-- The bit count bounds the product of the magnitudes. -/
theorem magnitudes_lt {a b : U64} {s k : ℕ} (h0 : 0 < s) (h8 : s ≤ 8) (ha : a.toNat < 2 ^ (8 * s))
    (hb : b.toNat < 2 ^ (8 * s)) (h : chainBitcount a b s ≤ k) :
    (Signed.toInt (8 * s) a.toNat).natAbs * (Signed.toInt (8 * s) b.toNat).natAbs < 2 ^ k := by
  rw [← chainMagnitude_toNat h0 h8 ha, ← chainMagnitude_toNat h0 h8 hb]
  unfold chainBitcount at h
  rw [mostsigbit_eq, mostsigbit_eq] at h
  calc (chainMagnitude a s).toNat * (chainMagnitude b s).toNat
      < 2 ^ bitLen (chainMagnitude a s).toNat * 2 ^ bitLen (chainMagnitude b s).toNat :=
        Nat.mul_lt_mul'' (lt_two_pow_bitLen _) (lt_two_pow_bitLen _)
    _ = 2 ^ (bitLen (chainMagnitude a s).toNat + bitLen (chainMagnitude b s).toNat) :=
        (pow_add ..).symm
    _ ≤ 2 ^ k := Nat.pow_le_pow_right two_pos (by omega)

section Words

variable {n a : ℕ}

theorem ofNat_ne_zero (ha : a < 2 ^ n) (h0 : a ≠ 0) : BitVec.ofNat n a ≠ 0 := by
  intro h
  have := congrArg BitVec.toNat h
  rw [BitVec.toNat_ofNat, Nat.mod_eq_of_lt ha] at this
  exact h0 (this.trans BitVec.toNat_zero)

theorem ofNat_eq_one (hn : 0 < n) (ha : a < 2 ^ n) : BitVec.ofNat n a = 1 ↔ a = 1 := by
  rw [← BitVec.toNat_inj, BitVec.toNat_ofNat, Nat.mod_eq_of_lt ha]
  change a = (1#n).toNat ↔ _
  rw [BitVec.toNat_one hn]

theorem ofNat_eq_neg_one (ha : a < 2 ^ n) : BitVec.ofNat n a = -1 ↔ a = 2 ^ n - 1 := by
  rw [← BitVec.toNat_inj, BitVec.toNat_ofNat, Nat.mod_eq_of_lt ha]
  change a = (-1#n).toNat ↔ _
  rw [BitVec.neg_one_eq_allOnes, BitVec.toNat_allOnes]

theorem ofNat_eq_intMin (hn : 0 < n) (ha : a < 2 ^ n) :
    BitVec.ofNat n a = BitVec.intMin n ↔ a = 2 ^ (n - 1) := by
  rw [← BitVec.toNat_inj, BitVec.toNat_ofNat, Nat.mod_eq_of_lt ha, BitVec.toNat_intMin,
    Nat.mod_eq_of_lt (Nat.pow_lt_pow_right (by norm_num) (by omega))]

end Words

/-! The two cases of the rule. -/

namespace Chained

variable {m : DivChain} {c1 c2 : VarnodeId} (h : Chained f op out m v c1 c2)
include h

theorem fits (hv : f.ValuesAt op env) : f.valueOf env m.baseVn < 2 ^ (8 * (f.vn out).size) := by
  have hx := hv.fits m.baseVn
  rwa [h.size.1, h.size.2] at hx

theorem val2_lt : (f.vn c2).constantValue.toNat < 2 ^ (8 * (f.vn out).size) := by
  have hlt := (h.second.graph.const c2 h.second.constant).2
  rcases h.code with hc | hc
  all_goals rwa [h.second.sizes.2 (by rw [hc]; decide)] at hlt

/-- Division after a division, or after a shift. -/
theorem unsigned_iff (h8 : (f.vn out).size ≤ 8) (hcode : (f.op op).opcode = .intDiv)
    (h0 : m.val1 * m.val2 &&& calcMask (f.vn out).size ≠ 0) (hv : f.ValuesAt op env) (sa sb : ℕ) :
    evalBinary .intDiv sa sb (f.vn out).size (f.valueOf env m.baseVn)
        (m.val1 * m.val2 &&& calcMask (f.vn out).size).toNat = f.resultOf env op out ↔
      DivChainExact f env op m.divOp m.baseVn := by
  have hfit := h.fits hv
  have hfirst := h.first_result hv
  have h0 : (m.val1 * m.val2 &&& calcMask (f.vn out).size).toNat ≠ 0 :=
    fun he => h0 (BitVec.eq_of_toNat_eq he)
  rw [h.result, hcode]
  unfold DivChainExact
  rw [h.first.inVn_one, h.second.inVn_one, h.size.1, h.size.2, hcode, if_neg (by decide)]
  rw [product_toNat _ _ h8, h.val2, h.val1] at h0 ⊢
  generalize hC1 : (f.vn c1).constantValue.toNat = C1 at *
  generalize hC2 : (f.vn c2).constantValue.toNat = C2 at *
  generalize f.valueOf env m.baseVn = X at *
  generalize (f.vn out).size = s at *
  have hC2ne : C2 ≠ 0 := by
    rintro rfl
    rw [Nat.mul_zero, Nat.zero_mod] at h0
    exact h0 rfl
  rcases h.codes with hc | ⟨-, hc⟩
  · -- both are divisions
    rw [hc, hcode] at h0 hfirst ⊢
    unfold chainDivisor at h0 ⊢
    rw [if_pos rfl, hC1] at h0 ⊢
    rw [if_neg (by decide)]
    have hC1ne : C1 ≠ 0 := by
      rintro rfl
      rw [Nat.zero_mul, Nat.zero_mod] at h0
      exact h0 rfl
    simp only [evalBinary, if_neg hC1ne, if_neg hC2ne, if_neg h0, Option.some.injEq] at hfirst ⊢
    rw [← hfirst]
    exact Division.div_div_eq_iff hfit h0 fun hlt => Nat.mod_eq_of_lt hlt
  · -- the first is a shift
    rw [hc] at h0 hfirst ⊢
    rw [hcode] at h0 ⊢
    unfold chainDivisor at h0 ⊢
    rw [if_neg (by decide), hC1] at h0 ⊢
    rw [if_pos rfl]
    have hshl : Rules.checkedShl 1 (C1 % 2 ^ 32) ≠ 0 := by
      intro hz
      rw [hz] at h0
      simp at h0
    rw [checkedShl_one hshl] at h0 ⊢
    have hshift : f.valueOf env v = X / 2 ^ C1 := by
      simp only [evalBinary, Option.some.injEq] at hfirst
      rw [← hfirst]
      split_ifs with hle
      · exact (Nat.div_eq_of_lt (hfit.trans_le (Nat.pow_le_pow_right two_pos hle))).symm
      · exact Nat.shiftRight_eq_div_pow ..
    simp only [evalBinary, if_neg hC2ne, if_neg h0, Option.some.injEq]
    rw [hshift]
    refine Division.div_div_eq_iff hfit h0 fun hlt => ?_
    -- a shift that is below the width is not cut to 32 bits
    have hlow : C1 < 2 ^ 32 := by
      have hle : 2 ^ C1 < 2 ^ (8 * s) :=
        (Nat.le_mul_of_pos_right _ (Nat.pos_of_ne_zero hC2ne)).trans_lt hlt
      have := (Nat.pow_lt_pow_iff_right (by norm_num)).mp hle
      omega
    rw [Nat.mod_eq_of_lt hlow] at h0 ⊢
    exact Nat.mod_eq_of_lt hlt

/-- A signed division after a signed division. -/
theorem signed_iff (h8 : (f.vn out).size ≤ 8) (hcode : (f.op op).opcode = .intSdiv)
    (h0 : m.val1 * m.val2 &&& calcMask (f.vn out).size ≠ 0)
    (hbits : chainBitcount m.val1 m.val2 (f.vn out).size ≤ 8 * (f.vn out).size - 2)
    (hv : f.ValuesAt op env) :
    evalBinary .intSdiv (f.vn out).size (f.vn out).size (f.vn out).size (f.valueOf env m.baseVn)
        (m.val1 * m.val2 &&& calcMask (f.vn out).size).toNat = f.resultOf env op out ↔
      DivChainExact f env op m.divOp m.baseVn := by
  have hfit := h.fits hv
  have hfirst := h.first_result hv
  have hs0 : 0 < (f.vn out).size := h.second.pos
  have hlt2 := h.val2_lt
  have hc1 : (f.op m.divOp).opcode = .intSdiv := by
    rcases h.codes with hc | ⟨hc, -⟩
    · rw [hc, hcode]
    · rw [hcode] at hc
      cases hc
  have hsize2 : (f.vn c2).size = (f.vn out).size := h.second.sizes.2 (by rw [hcode]; decide)
  have hlt1 : (f.vn c1).constantValue.toNat < 2 ^ (8 * (f.vn out).size) := by
    have hlt := (h.first.graph.const c1 h.first.constant).2
    rwa [h.first.sizes.2 (by rw [hc1]; decide), h.size.2] at hlt
  have h0 : (m.val1 * m.val2 &&& calcMask (f.vn out).size).toNat ≠ 0 :=
    fun he => h0 (BitVec.eq_of_toNat_eq he)
  have hval1 : m.val1 = (f.vn c1).constantValue := by
    rw [h.val1, hc1, hcode]
    exact if_pos rfl
  have hsmall := magnitudes_lt (k := 8 * (f.vn out).size - 2) hs0 h8 (hval1 ▸ hlt1)
    (h.val2 ▸ hlt2) (by omega)
  rw [h.result, hcode, hsize2]
  unfold DivChainExact
  rw [h.first.inVn_one, h.second.inVn_one, h.size.1, h.size.2, hcode, if_pos rfl]
  rw [product_toNat _ _ h8, h.val2, hval1] at h0 ⊢
  rw [h.val2, hval1] at hsmall
  rw [hc1] at hfirst
  generalize (f.vn c1).constantValue.toNat = C1 at *
  generalize (f.vn c2).constantValue.toNat = C2 at *
  generalize f.valueOf env m.baseVn = X at *
  generalize (f.vn out).size = s at *
  have hC2ne : C2 ≠ 0 := by
    rintro rfl
    rw [Nat.mul_zero, Nat.zero_mod] at h0
    exact h0 rfl
  have hC1ne : C1 ≠ 0 := by
    rintro rfl
    rw [Nat.zero_mul, Nat.zero_mod] at h0
    exact h0 rfl
  have hprod : BitVec.ofNat (8 * s) (C1 * C2 % 2 ^ (8 * s)) =
      BitVec.ofNat (8 * s) C1 * BitVec.ofNat (8 * s) C2 := by
    apply BitVec.eq_of_toNat_eq
    rw [BitVec.toNat_mul, BitVec.toNat_ofNat, BitVec.toNat_ofNat, BitVec.toNat_ofNat, Nat.mod_mod,
      Nat.mul_mod]
  simp only [evalBinary, if_neg hC1ne, if_neg hC2ne, if_neg h0, Option.some.injEq] at hfirst ⊢
  rw [← hfirst, BitVec.ofNat_toNat, BitVec.setWidth_eq, BitVec.toNat_inj, hprod]
  rw [Division.sdiv_sdiv_iff (by omega) (ofNat_ne_zero hlt2 hC2ne)
    (by rwa [Signed.toInt_ofNat hlt1, Signed.toInt_ofNat hlt2]), ofNat_eq_intMin (by omega) hfit,
    ofNat_eq_neg_one hlt1, Ne, Ne, ofNat_eq_one (by omega) hlt2, ofNat_eq_neg_one hlt2]

end Chained

theorem divChainFits_spec {opc2 : OpCode} {a b : U64} {s : ℕ} (h : divChainFits opc2 a b s = true) :
    a * b &&& calcMask s ≠ 0 ∧ (opc2 = .intSdiv → chainBitcount a b s ≤ 8 * s - 2) := by
  unfold divChainFits at h
  simp only [Bool.and_eq_true, decide_eq_true_eq, Bool.not_eq_true', Bool.and_eq_false_iff,
    beq_eq_false_iff_ne, decide_eq_false_iff_not] at h
  refine ⟨h.1.1, fun hc => ?_⟩
  obtain hne | hle := h.2
  · exact absurd hc hne
  · push_cast at hle
    omega

/-- `RuleDivChain` keeps the value of the op it rewrites exactly where `DivChainExact` holds, and of
every other op. -/
theorem divChain_exact_iff {m : DivChain} (hgr : f.RuleGraph)
    (hcode : (f.op op).opcode ∈ [.intDiv, .intSdiv])
    (h8 : ∀ v ∈ (f.op op).inrefs, (f.vn v).size ≤ 8) (hm : f.divChainMatch op = some m)
    (hg : f.divChain op = some g) (hout : (f.op o).output = some out) (hv : f.ValuesAt o env) :
    g.resultOf env o out = f.resultOf env o out ↔
      (o = op → DivChainExact f env op m.divOp m.baseVn) := by
  have hg := hg
  unfold divChain at hg
  rw [hm] at hg
  simp only [Option.bind_eq_bind, Option.bind_some, Option.bind_eq_some_iff] at hg
  obtain ⟨v, hin, hg⟩ := hg
  split_ifs at hg with hfits
  obtain rfl := Option.some.inj hg
  obtain ⟨h0, hbits⟩ := divChainFits_spec (by simpa using hfits)
  have hmem : v ∈ (f.op op).inrefs := List.mem_of_getElem? hin
  obtain ⟨w, hw⟩ := hgr.exists_output hmem (by
    rcases List.mem_pair.mp hcode with hc | hc <;> rw [hc] <;> rfl)
  obtain ⟨v', c1, c2, h⟩ := divChainMatch_spec hgr hcode hw hm
  obtain rfl := Option.some.inj (hin.symm.trans (input_zero h.second.inrefs))
  have hsize := h.size
  have hops : f.operandsOf env op = [f.operandOf env v, f.operandOf env c2] := by
    unfold operandsOf
    rw [h.second.inrefs]
    rfl
  have hrw := ((Rewritten.refl hgr.linked.bounded env op).setInput (k := 0) h.first.lt
    (by rw [hops]; simp)).setConstInput (k := 1) (n := (f.vn v).size)
      (c := m.val1 * m.val2 &&& calcMask (f.vn v).size) (by rw [hops]; simp)
  refine RewritesIff.result_iff hgr ⟨_, _, hrw, fun hvals => ?_⟩ hw hout hv
  have h8 := h8 v hmem
  rw [hops]
  rw [hsize.2] at h0 hbits h8 ⊢
  change evalBinary (f.op op).opcode (f.vn m.baseVn).size (f.vn w).size (f.vn w).size
    (f.valueOf env m.baseVn) _ = _ ↔ _
  rw [hsize.1, hsize.2]
  rcases h.code with hc | hc
  · rw [hc]
    exact h.unsigned_iff h8 hc h0 hvals _ _
  · rw [hc]
    exact h.signed_iff h8 hc h0 (hbits hc) hvals

/-- `v4 = (v0 / 255) / 2`, 1 byte wide. -/
def chainVarnodes : List Varnode :=
  [{ loc := ⟨2, 0⟩, size := 1, input := true, insert := true, descend := [0], nzm := 0xff },
    { loc := ⟨0, 0xff⟩, size := 1, constant := true, descend := [0], nzm := 0xff },
    { loc := ⟨3, 0⟩, size := 1, written := true, insert := true, defOp := some 0, descend := [1],
      nzm := 0xff },
    { loc := ⟨0, 2⟩, size := 1, constant := true, descend := [1], nzm := 2 },
    { loc := ⟨3, 1⟩, size := 1, written := true, insert := true, defOp := some 1, nzm := 0xff }]

def chainOps : List PcodeOp :=
  [{ opcode := .intDiv, parent := some 0, output := some 2, inrefs := [0, 1] },
    { opcode := .intDiv, parent := some 0, output := some 4, inrefs := [2, 3] }]

def chainGraph : Funcdata := ofLists chainVarnodes chainOps [{ ops := [0, 1] }]

theorem listsChecked_chain : ListsChecked chainVarnodes chainOps := by decide +kernel

/-- `v0` is 255, and `v4` is 0. -/
def chainValues : List ℕ := [255, 0, 1, 0, 0]

theorem valuesAt_chain : chainGraph.ValuesAt 1 (valuesOf chainValues) :=
  valuesAt_ofLists (by decide +kernel) 1

/-- The rule fires: 255 and 2 have few bits when 255 is taken for -1. -/
theorem divChain_exact_iff_negative : ∃ m g, chainGraph.divChainMatch 1 = some m ∧
    chainGraph.divChain 1 = some g ∧
    (g.resultOf (valuesOf chainValues) 1 4 = chainGraph.resultOf (valuesOf chainValues) 1 4 ↔
      ((1 : OpId) = 1 → DivChainExact chainGraph (valuesOf chainValues) 1 m.divOp m.baseVn)) :=
  ⟨_, _, rfl, rfl, divChain_exact_iff (ruleGraph_ofLists listsChecked_chain) (by decide) (by decide)
    rfl rfl rfl valuesAt_chain⟩

/-- `(255 / 255) / 2` is 0, but the rule makes it `255 / 254`. -/
theorem divChain_not_exact : ¬∀ (f g : Funcdata) (op : OpId), f.RuleGraph →
    (f.op op).opcode ∈ [.intDiv, .intSdiv] → (∀ v ∈ (f.op op).inrefs, (f.vn v).size ≤ 8) →
    f.divChain op = some g → ∀ (env : VarnodeId → ℕ) (out : VarnodeId),
    (f.op op).output = some out → f.ValuesAt op env →
    g.resultOf env op out = f.resultOf env op out := by
  intro h
  have hbad := h chainGraph _ 1 (ruleGraph_ofLists listsChecked_chain) (by decide) (by decide) rfl
    (valuesOf chainValues) 4 rfl valuesAt_chain
  exact absurd hbad (by decide +kernel)

end Funcdata
end Mosura
