import Mosura.RemTerms

/-! `RuleModOpt` keeps every value. -/

namespace Mosura
open SignedPow

namespace Funcdata

variable {f g : Funcdata} {env : VarnodeId → ℕ} {op d : OpId} {s : ℕ} {v x y c a b out : VarnodeId}

/-! `RuleModOpt`. -/

/-- The ops between the division at `op` and the sum at `addop`: the quotient `quot` times `div2`
is `product`. -/
structure ModForm (f : Funcdata) (op multop addop : OpId) (x div quot div2 product : VarnodeId) :
    Prop where
  dividend : (f.op op).input 0 = some x
  divisor : (f.op op).input 1 = some div
  quotient : (f.op op).output = some quot
  multOut : (f.op multop).output = some product
  mult : (f.op multop).opcode = .intMult
  factors : (f.op multop).inrefs = [quot, div2] ∨ (f.op multop).inrefs = [div2, quot]
  complement : f.isComplement div div2 = true
  sum : ∃ w, (f.op addop).output = some w
  add : (f.op addop).opcode = .intAdd
  addends : (f.op addop).inrefs = [product, x] ∨ (f.op addop).inrefs = [x, product]

theorem modOptMatch_spec {addop : OpId} (hgr : f.RuleGraph) (h : f.modOptMatch op = some addop) :
    ∃ multop x div quot div2 product, ModForm f op multop addop x div quot div2 product := by
  unfold modOptMatch at h
  simp only [Option.bind_eq_bind, Option.bind_eq_some_iff] at h
  obtain ⟨x, hx, div, hdiv, quot, hquot, h⟩ := h
  obtain ⟨multop, hmem, h⟩ := List.exists_of_findSome?_eq_some h
  split_ifs at h with hmult
  have hmult := not_not.mp hmult
  simp only [Option.bind_eq_some_iff] at h
  obtain ⟨m0, hm0, m1, hm1, h⟩ := h
  generalize hdiv2 : (if m1 = quot then m0 else m1) = div2 at h
  split_ifs at h with hcomp
  simp only [Option.bind_eq_some_iff] at h
  obtain ⟨product, hproduct, h⟩ := h
  obtain ⟨addop', hmem', h⟩ := List.exists_of_findSome?_eq_some h
  split_ifs at h with hadd
  have hadd := not_not.mp hadd
  simp only [Option.bind_eq_some_iff] at h
  obtain ⟨a0, ha0, a1, ha1, h⟩ := h
  by_cases hx0 : (if a0 = product then a1 else a0) = x
  swap
  · rw [if_neg hx0] at h
    cases h
  rw [if_pos hx0] at h
  obtain rfl := Option.some.inj h
  obtain ⟨b0, b1, hin, -, -⟩ := hgr.arith_inrefs hproduct (.inr (.inr (.inl hmult)))
  obtain rfl := input_zero_inj hin hm0
  obtain rfl := input_one_inj hin hm1
  obtain ⟨w, hw⟩ := hgr.exists_output (hgr.linked.mem_descend.mp hmem') (by rw [hadd]; rfl)
  obtain ⟨c0, c1, hin', -, -⟩ := hgr.arith_inrefs hw (.inl hadd)
  obtain rfl := input_zero_inj hin' ha0
  obtain rfl := input_one_inj hin' ha1
  refine ⟨multop, x, div, quot, div2, product, hx, hdiv, hquot, hproduct,
    hmult, ?_, by simpa using hcomp, ⟨w, hw⟩, hadd, ?_⟩
  · split_ifs at hdiv2 with heq
    · exact .inr (by rw [hin, heq, hdiv2])
    · exact .inl (by rw [hin, hdiv2, (reads_two hgr hmem hin).resolve_right heq])
  · split_ifs at hx0 with heq
    · exact .inl (by rw [hin', heq, hx0])
    · exact .inr (by rw [hin', hx0, (reads_two hgr hmem' hin').resolve_left (hx0 ▸ heq)])

/-- The complement of a constant within its size is its negative. -/
theorem word_complement (h8 : s ≤ 8) (u : U64) :
    word s ((u ^^^ calcMask s) + 1 &&& calcMask s) = -word s u := by
  have hnot : word s (u ^^^ calcMask s) = word s (~~~u) := by
    rw [← word_and_calcMask h8, ← word_and_calcMask h8 (~~~u)]
    congr 1
    ext i hi
    simp only [BitVec.getElem_and, BitVec.getElem_xor, BitVec.getElem_not]
    cases (calcMask s)[i] <;> simp
  have hzero : word s (-u) + word s u = 0 := by
    rw [← word_add h8, neg_add_cancel]
    exact word_zero s
  rw [word_and_calcMask h8, word_add h8, hnot, ← word_add h8]
  change word s (~~~u + 1#64) = _
  rw [← BitVec.neg_eq_not_add]
  exact eq_neg_of_add_eq_zero_left hzero

theorem isComplement_spec {div div2 : VarnodeId} (hgr : f.RuleGraph) (hv : f.ValuesAt op env)
    (h8 : s ≤ 8) (ht : f.IsTerm op s div2) (h : f.isComplement div div2 = true) :
    (f.valueOf env div2 : ZMod (2 ^ (8 * s))) = -(f.valueOf env div : ZMod (2 ^ (8 * s))) := by
  unfold isComplement at h
  split at h
  next hc =>
    obtain ⟨hcd, hval⟩ := isConstant_spec h
    have hneg := word_complement h8 (f.vn div2).constantValue
    rw [ht.2] at hval
    rw [← hval] at hneg
    rw [valueOf_const hc, valueOf_const hcd]
    exact (neg_eq_iff_eq_neg.mpr hneg).symm
  next hc =>
    split at h
    · cases h
    next d hd =>
      obtain ⟨hdef, hcode⟩ := writerOf_spec hd
      have hin0 : (f.op d).input 0 = some div := by simpa using h
      have hsizes := hgr.sizes (hgr.output_of_def hdef)
      rw [hcode] at hsizes
      obtain ⟨u, hin, hu⟩ := inrefs_one hsizes
      obtain rfl := Option.some.inj ((input_zero hin).symm.trans hin0)
      have hr := hv.cone hgr ht.1 hdef (by rw [hcode]; rfl)
      rw [resultOf_one hin, hcode, ht.2] at hr
      have hlt : f.valueOf env u < 2 ^ (8 * s) := by
        have := hv.fits u
        rwa [hu, ht.2] at this
      rw [← Option.some.inj hr, BitVec.toNat_neg, BitVec.toNat_ofNat, Nat.mod_eq_of_lt hlt,
        cast_neg hlt.le]

namespace ModForm

variable {multop addop : OpId} {div quot div2 product w : VarnodeId}
  (h : ModForm f op multop addop x div quot div2 product) (hgr : f.RuleGraph)
  (hcode : (f.op op).opcode = .intDiv ∨ (f.op op).opcode = .intSdiv)
  (hw : (f.op addop).output = some w)
include h hgr hcode hw

/-- All of the form is of one size, and is read by the sum. -/
theorem terms : (f.op op).inrefs = [x, div] ∧ f.IsTerm addop (f.vn w).size product ∧
    f.IsTerm addop (f.vn w).size quot ∧ f.IsTerm addop (f.vn w).size div2 ∧
    f.IsTerm addop (f.vn w).size x ∧ (f.vn div).size = (f.vn w).size := by
  have hdef := (hgr.linked.defs quot op).mpr h.quotient
  have hmdef := (hgr.linked.defs product multop).mpr h.multOut
  obtain ⟨p, q, hin, hp, hq⟩ := hgr.arith_inrefs hw (.inl h.add)
  obtain ⟨p', q', hin', hp', hq'⟩ := hgr.arith_inrefs h.multOut (.inr (.inr (.inl h.mult)))
  have hsizes := hgr.sizes h.quotient
  have htwo : ((f.op op).inrefs.map fun v => (f.vn v).size) =
      [(f.vn quot).size, (f.vn quot).size] := by
    rcases hcode with hc | hc
    all_goals
      rw [hc] at hsizes
      exact hsizes
  obtain ⟨a, b, hin'', ha, hb⟩ := inrefs_two htwo
  obtain rfl := input_zero_inj hin'' h.dividend
  obtain rfl := input_one_inj hin'' h.divisor
  have hproduct : f.IsTerm addop (f.vn w).size product ∧ f.IsTerm addop (f.vn w).size x := by
    rcases h.addends with hadd | hadd
    all_goals
      rw [hadd] at hin
      cases hin
      exact ⟨⟨.input (by rw [hadd]; simp), by assumption⟩,
        ⟨.input (by rw [hadd]; simp), by assumption⟩⟩
  have hfactor : ∀ u ∈ (f.op multop).inrefs, Cone f addop u := fun u hu =>
    .step hproduct.1.1 hmdef (by rw [h.mult]; rfl) hu
  have hfactors : f.IsTerm addop (f.vn w).size quot ∧ f.IsTerm addop (f.vn w).size div2 := by
    rcases h.factors with hmul | hmul
    all_goals
      rw [hmul] at hin'
      cases hin'
      rw [hproduct.1.2] at hp' hq'
      exact ⟨⟨hfactor _ (by rw [hmul]; simp), by assumption⟩,
        ⟨hfactor _ (by rw [hmul]; simp), by assumption⟩⟩
  exact ⟨hin'', hproduct.1, hfactors.1, hfactors.2, hproduct.2, hb.trans hfactors.1.2⟩

/-- The sum is the dividend less the quotient times the divisor. -/
theorem value (h8 : (f.vn w).size ≤ 8) (hv : f.ValuesAt addop env) :
    ∃ r, f.resultOf env addop w = some r ∧ r < 2 ^ (8 * (f.vn w).size) ∧
      (r : ZMod (2 ^ (8 * (f.vn w).size))) =
        f.valueOf env x - f.valueOf env quot * f.valueOf env div := by
  obtain ⟨-, hproduct, hquot, hdiv2, hx, -⟩ := h.terms hgr hcode hw
  have hmdef := (hgr.linked.defs product multop).mpr h.multOut
  have hneg := isComplement_spec hgr hv h8 hdiv2 h.complement
  have hprod : (f.valueOf env product : ZMod (2 ^ (8 * (f.vn w).size))) =
      -(f.valueOf env quot * f.valueOf env div) := by
    rcases h.factors with hmul | hmul
    · rw [(gather_mult hgr hv hproduct hmdef h.mult hmul).1, hneg, mul_neg]
    · rw [(gather_mult hgr hv hproduct hmdef h.mult hmul).1, hneg]
      ring
  rcases h.addends with hadd | hadd
  · obtain ⟨r, hr, hlt, hval⟩ := (@sum_result _ env _ _ _ w) h.add hadd
    refine ⟨r, hr, hlt, ?_⟩
    rw [hval, hprod, neg_add_eq_sub]
  · obtain ⟨r, hr, hlt, hval⟩ := (@sum_result _ env _ _ _ w) h.add hadd
    refine ⟨r, hr, hlt, ?_⟩
    rw [hval, hprod, sub_eq_add_neg]

/-- The remainder is the sum. -/
theorem remainder (h8 : (f.vn w).size ≤ 8) (hv : f.ValuesAt addop env) :
    evalPcode (if (f.op op).opcode = .intDiv then .intRem else .intSrem)
      [f.operandOf env x, f.operandOf env div] (f.vn w).size = f.resultOf env addop w := by
  obtain ⟨hin, -, hquot, -, hx, hdiv⟩ := h.terms hgr hcode hw
  obtain ⟨r, hr, hlt, hval⟩ := h.value hgr hcode hw h8 hv
  have hdef := (hgr.linked.defs quot op).mpr h.quotient
  have hsem : (f.op op).opcode.hasSemantics = true := by rcases hcode with hc | hc <;> rw [hc] <;> rfl
  have hq := hv.cone hgr hquot.1 hdef hsem
  have hX := term_lt hv hx
  have hD := hv.fits div
  rw [resultOf_two hin] at hq
  unfold operandOf
  change evalBinary _ _ _ _ _ _ = _
  rw [hr]
  rw [hx.2, hdiv, hquot.2] at *
  generalize f.valueOf env x = X at *
  generalize f.valueOf env div = D at *
  generalize f.valueOf env quot = Q at *
  generalize (f.vn w).size = s at *
  by_cases hD0 : D = 0
  · rcases hcode with hc | hc
    all_goals
      rw [hc, hD0] at hq
      cases hq
  rcases hcode with hc | hc
  · rw [hc] at hq ⊢
    simp only [evalBinary, if_neg hD0, Option.some.injEq] at hq
    rw [if_pos rfl]
    simp only [evalBinary, if_neg hD0]
    refine congrArg some ((cast_inj ((Nat.mod_le X D).trans_lt hX) hlt).mp ?_)
    have hsplit : ((D * (X / D) + X % D : ℕ) : ZMod (2 ^ (8 * s))) = (X : ℕ) := by
      rw [Nat.div_add_mod]
    rw [Nat.cast_add, Nat.cast_mul] at hsplit
    rw [hval, ← hq, ← hsplit]
    ring
  · rw [hc] at hq ⊢
    simp only [evalBinary, if_neg hD0, Option.some.injEq] at hq
    rw [if_neg (by decide)]
    simp only [evalBinary, if_neg hD0]
    refine congrArg some ((cast_inj (BitVec.isLt _) hlt).mp ?_)
    have hself := cast_sdiv_mul (BitVec.ofNat (8 * s) X) (BitVec.ofNat (8 * s) D)
    rw [BitVec.toNat_ofNat, BitVec.toNat_ofNat, Nat.mod_eq_of_lt hX, Nat.mod_eq_of_lt hD, hq] at hself
    rw [hval, hself, sub_sub_cancel]

end ModForm

/-- `RuleModOpt` keeps every value. -/
theorem modOpt_sound {o : OpId} (hgr : f.RuleGraph) (hcode : (f.op op).opcode ∈ [.intDiv, .intSdiv])
    (h8 : ∀ v ∈ (f.op op).inrefs, (f.vn v).size ≤ 8) (hg : f.modOpt op = some g)
    (hout : (f.op o).output = some out) (hv : f.ValuesAt o env) : SameResult f g env o out := by
  unfold modOpt at hg
  simp only [Option.bind_eq_bind, Option.bind_eq_some_iff] at hg
  obtain ⟨addop, hadd, x, hx, div, hdiv, hg⟩ := hg
  obtain ⟨multop, x', div', quot, div2, product, h⟩ := modOptMatch_spec hgr hadd
  obtain rfl := Option.some.inj (hx.symm.trans h.dividend)
  obtain rfl := Option.some.inj (hdiv.symm.trans h.divisor)
  obtain ⟨w, hw⟩ := h.sum
  have hcode : (f.op op).opcode = .intDiv ∨ (f.op op).opcode = .intSdiv := by simpa using hcode
  obtain ⟨hin, -, -, -, hxt, -⟩ := h.terms hgr hcode hw
  have hmem : x ∈ (f.op op).inrefs ∧ div ∈ (f.op op).inrefs := by
    rw [hin]
    simp
  have h8 : (f.vn w).size ≤ 8 := hxt.2 ▸ h8 x hmem.1
  obtain ⟨p, q, hpq, -, -⟩ := hgr.arith_inrefs hw (.inl h.add)
  have hops : f.operandsOf env addop = [f.operandOf env p, f.operandOf env q] := by
    unfold operandsOf
    rw [hpq]
    rfl
  have hset := (Rewritten.refl hgr.linked.bounded env addop).setInput (k := 0)
    (hgr.lt_of_mem hmem.1) (by rw [hops]; simp)
  have hrw : Rewritten f env addop g (if (f.op op).opcode = .intDiv then .intRem else .intSrem)
      [f.operandOf env x, f.operandOf env div] := by
    rw [← Option.some.inj hg]
    refine (@Rewritten.opSetOpcode _ _ _ _ ((f.op addop).opcode)) ?_ _
    rw [hops] at hset
    split
    next hc =>
      have hr := hset.setConstInput (k := 1) (n := (f.vn div).size) (c := (f.vn div).constantValue)
        (by simp)
      unfold operandOf
      rwa [valueOf_const hc]
    next hc => exact hset.setInput (k := 1) (hgr.lt_of_mem hmem.2) (by simp)
  rw [sameResult_iff hgr hrw hw hout hv]
  rintro rfl
  refine ⟨fun p hp => ?_, h.remainder hgr hcode hw h8 hv⟩
  simp only [List.mem_cons, List.not_mem_nil, or_false] at hp
  rcases hp with rfl | rfl
  · exact hv.fits _
  · exact hv.fits _

end Funcdata
end Mosura
