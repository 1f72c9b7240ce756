import Mosura.RemTerms

/-! The rules that recover signed divisions by powers of two keep every value. -/

namespace Mosura
open SignedPow

namespace Funcdata

variable {f g : Funcdata} {env : VarnodeId → ℕ} {op d : OpId} {s : ℕ} {v x y c a b out : VarnodeId}

/-! `RuleSignDiv2`. -/

theorem two_inputs_of_shift (hgr : f.RuleGraph) (hout : (f.op op).output = some out)
    (hcode : (f.op op).opcode = .intRight ∨ (f.op op).opcode = .intSright) :
    ∃ a b, (f.op op).inrefs = [a, b] ∧ (f.vn a).size = (f.vn out).size := by
  have hsizes := hgr.sizes hout
  have htwo : ∃ t, ((f.op op).inrefs.map fun v => (f.vn v).size) = [(f.vn out).size, t] := by
    rcases hcode with hc | hc
    all_goals
      rw [hc] at hsizes
      exact hsizes
  obtain ⟨t, ht⟩ := htwo
  obtain ⟨a, b, hin, ha, -⟩ := inrefs_two ht
  exact ⟨a, b, hin, ha⟩

/-- The addend that is divided. -/
theorem signDiv2At_mem {slot : ℕ} (h : f.signDiv2At d slot = some a) :
    (f.op d).input (1 - slot) = some a := by
  unfold signDiv2At at h
  obtain ⟨m, hm, h⟩ := Option.bind_eq_some_iff.mp h
  obtain ⟨d', hmult, h⟩ := Option.bind_eq_some_iff.mp h
  obtain ⟨c, hc, h⟩ := Option.bind_eq_some_iff.mp h
  split_ifs at h
  obtain ⟨y, hy, h⟩ := Option.bind_eq_some_iff.mp h
  obtain ⟨base, hsign, h⟩ := Option.bind_eq_some_iff.mp h
  split_ifs at h with hbase
  obtain rfl := Option.some.inj h
  by_contra hne
  exact hbase (.inl fun he => hne he.symm)

theorem signDiv2_sound {o : OpId} (hgr : f.RuleGraph) (hcode : (f.op op).opcode = .intSright)
    (h8 : ∀ v ∈ (f.op op).inrefs, (f.vn v).size ≤ 8) (hg : f.signDiv2 op = some g)
    (hout : (f.op o).output = some out) (hv : f.ValuesAt o env) : SameResult f g env o out := by
  unfold signDiv2 at hg
  obtain ⟨in1, hin1, hg⟩ := Option.bind_eq_some_iff.mp hg
  split_ifs at hg with hone
  simp only [Bool.not_eq_true', Bool.not_eq_false] at hone
  obtain ⟨addout, hin0, hg⟩ := Option.bind_eq_some_iff.mp hg
  obtain ⟨addop, haddop, hg⟩ := Option.bind_eq_some_iff.mp hg
  obtain ⟨a, ha, hg⟩ := Option.bind_eq_some_iff.mp hg
  obtain rfl := Option.some.inj hg
  have hmem : addout ∈ (f.op op).inrefs := List.mem_of_getElem? hin0
  obtain ⟨w, hw⟩ := hgr.exists_output hmem (by rw [hcode]; rfl)
  obtain ⟨p, q, hin, hp⟩ := two_inputs_of_shift hgr hw (.inr hcode)
  obtain rfl := input_zero_inj hin hin0
  obtain rfl := input_one_inj hin hin1
  have h0 : 0 < (f.vn w).size := (hgr.opWf op w hw).out_pos
  have hw8 : (f.vn w).size ≤ 8 := hp ▸ h8 addout hmem
  have hslot : ∃ slot ≤ 1, f.signDiv2At addop slot = some a := by
    rcases Option.or_eq_some_iff.mp ha with h | ⟨-, h⟩
    · exact ⟨0, by norm_num, h⟩
    · exact ⟨1, le_rfl, h⟩
  obtain ⟨slot, hslot, ha⟩ := hslot
  have hamem : a ∈ (f.op addop).inrefs := List.mem_of_getElem? (signDiv2At_mem ha)
  have hsize : (f.vn a).size = (f.vn w).size := by
    obtain ⟨hdef, hadd⟩ := writerOf_spec haddop
    obtain ⟨p, q, hin', hp', hq'⟩ := hgr.arith_inrefs (hgr.output_of_def hdef) (.inl hadd)
    rw [hin'] at hamem
    rcases List.mem_pair.mp hamem with rfl | rfl
    · exact hp'.trans hp
    · exact hq'.trans hp
  have hops : f.operandsOf env op = [f.operandOf env addout, f.operandOf env in1] := by
    unfold operandsOf
    rw [hin]
    rfl
  have hrw := (((Rewritten.refl hgr.linked.bounded env op).setInput (k := 0)
    (hgr.lt_of_mem hamem) (by rw [hops]; simp)).setConstInput (k := 1) (n := (f.vn a).size)
      (c := 2) (by rw [hops]; simp)).opSetOpcode .intSdiv
  rw [sameResult_iff hgr hrw hw hout hv]
  rintro rfl
  have hterm : f.IsTerm o (f.vn w).size addout := ⟨.input hmem, hp⟩
  obtain ⟨hta, hval⟩ := signDiv2At_spec hgr hv h0 hw8 hslot hterm haddop ha
  have hlt := term_lt hv hta
  have htwo : 2 < 2 ^ (8 * (f.vn w).size) := by
    calc 2 < 2 ^ 8 := by norm_num
      _ ≤ 2 ^ (8 * (f.vn w).size) := Nat.pow_le_pow_right two_pos (by omega)
  rw [hops]
  change (∀ p ∈ [f.operandOf env a, ((f.vn a).size, 2)], _) ∧
    evalPcode .intSdiv [f.operandOf env a, ((f.vn a).size, 2)] _ = _
  unfold operandOf
  rw [hsize]
  refine ⟨fun p hp => ?_, ?_⟩
  · simp only [List.mem_cons, List.not_mem_nil, or_false] at hp
    rcases hp with rfl | rfl
    · exact hlt
    · exact htwo
  · rw [resultOf_two hin, hcode, valueOf_isConstant hone, hval, hp]
    change some _ = some ((BitVec.ofNat _ _).sshiftRight (min 1 _)).toNat
    rw [Nat.min_eq_left (by omega), sdiv_two (by omega) hlt]

/-! `RuleSignNearMult`. -/

theorem shiftedAddend_spec {slot i : ℕ} {sv : VarnodeId} {uso : OpId}
    (h : f.shiftedAddend d slot = some (sv, uso, i)) : i = slot ∧ (f.op d).input slot = some sv ∧
      f.writerOf sv .intRight = some uso ∧ ∃ c, (f.op uso).input 1 = some c ∧
        (f.vn c).constant = true := by
  unfold shiftedAddend at h
  obtain ⟨sv', hsv, h⟩ := Option.bind_eq_some_iff.mp h
  obtain ⟨uso', huso, h⟩ := Option.bind_eq_some_iff.mp h
  obtain ⟨c, hc, h⟩ := Option.bind_eq_some_iff.mp h
  split_ifs at h with hconst
  cases h
  exact ⟨rfl, hsv, huso, c, hc, hconst⟩

/-- The masked sum at `op`, before its constants are looked at. -/
theorem nearMultStart_spec {shiftvn : VarnodeId} {unshiftop : OpId} {w : VarnodeId}
    (hgr : f.RuleGraph) (hcode : (f.op op).opcode = .intAnd) (hw : (f.op op).output = some w)
    (h : f.nearMultStart op = some (x, shiftvn, unshiftop)) :
    ∃ in0 in1 c addop, (f.op op).inrefs = [in0, in1] ∧ (f.vn in1).constant = true ∧
      (f.op unshiftop).input 1 = some c ∧ (f.vn c).constant = true ∧
      f.writerOf in0 .intAdd = some addop ∧ f.writerOf shiftvn .intRight = some unshiftop ∧
      (∃ slot ≤ 1, (f.op addop).input slot = some shiftvn ∧
        (f.op addop).input (1 - slot) = some x) ∧
      (f.vn in0).size = (f.vn w).size ∧ (f.vn in1).size = (f.vn w).size ∧
      (f.vn shiftvn).size = (f.vn w).size ∧ (f.vn x).size = (f.vn w).size ∧ x < f.numVarnodes := by
  unfold nearMultStart at h
  obtain ⟨in1, hin1, h⟩ := Option.bind_eq_some_iff.mp h
  obtain ⟨in0, hin0, h⟩ := Option.bind_eq_some_iff.mp h
  obtain ⟨addop, haddop, h⟩ := Option.bind_eq_some_iff.mp h
  split_ifs at h with hconst
  simp only [Bool.not_eq_true', Bool.not_eq_false] at hconst
  obtain ⟨⟨sv, uso, idx⟩, hshifted, h⟩ := Option.bind_eq_some_iff.mp h
  obtain ⟨x', hx', h⟩ := Option.bind_eq_some_iff.mp h
  split_ifs at h
  cases h
  have hslot : idx ≤ 1 ∧ f.shiftedAddend addop idx = some (shiftvn, unshiftop, idx) := by
    rcases Option.or_eq_some_iff.mp hshifted with hs | ⟨-, hs⟩
    · obtain ⟨rfl, -⟩ := shiftedAddend_spec hs
      exact ⟨by norm_num, hs⟩
    · obtain ⟨rfl, -⟩ := shiftedAddend_spec hs
      exact ⟨le_rfl, hs⟩
  obtain ⟨hidx, hshifted⟩ := hslot
  obtain ⟨-, hsv, huso, c, hc, hcc⟩ := shiftedAddend_spec hshifted
  obtain ⟨p, q, hin, hp, hq⟩ := hgr.arith_inrefs hw (.inr (.inr (.inr (.inl hcode))))
  obtain rfl := input_zero_inj hin hin0
  obtain rfl := input_one_inj hin hin1
  obtain ⟨hdef, hacode⟩ := writerOf_spec haddop
  obtain ⟨p', q', hin', hp', hq'⟩ := hgr.arith_inrefs (hgr.output_of_def hdef) (.inl hacode)
  have hmem : ∀ {k : ℕ} {u : VarnodeId}, (f.op addop).input k = some u →
      (f.vn u).size = (f.vn w).size ∧ u < f.numVarnodes := by
    intro k u hu
    have hu := List.mem_of_getElem? hu
    refine ⟨?_, hgr.lt_of_mem hu⟩
    rw [hin'] at hu
    rcases List.mem_pair.mp hu with rfl | rfl
    · exact hp'.trans hp
    · exact hq'.trans hp
  exact ⟨in0, in1, c, addop, hin, hconst, hc, hcc, haddop, huso, ⟨idx, hidx, hsv, hx'⟩, hp, hq,
    (hmem hsv).1, (hmem hx').1, (hmem hx').2⟩

/-- The mask without the low `n` bits. -/
theorem shifted_calcMask_toNat {n : ℕ} (h8 : s ≤ 8) (hn : n ≤ 8 * s) :
    ((calcMask s <<< n) &&& calcMask s).toNat = 2 ^ (8 * s) - 2 ^ n := by
  have hpos : 0 < 2 ^ n := Nat.two_pow_pos n
  have hle : 2 ^ n ≤ 2 ^ (8 * s) := Nat.pow_le_pow_right two_pos hn
  have hsplit : (2 ^ (8 * s) - 1) * 2 ^ n = 2 ^ (8 * s) - 2 ^ n + 2 ^ (8 * s) * (2 ^ n - 1) := by
    rw [Nat.sub_mul, Nat.mul_sub, Nat.one_mul, Nat.mul_one]
    have := Nat.le_mul_of_pos_right (2 ^ (8 * s)) hpos
    omega
  rw [and_calcMask_toNat _ h8, BitVec.toNat_shiftLeft, calcMask_toNat h8, Nat.shiftLeft_eq,
    Nat.mod_mod_of_dvd _ (Nat.pow_dvd_pow 2 (show 8 * s ≤ 64 by omega)), hsplit,
    Nat.add_mul_mod_self_left, Nat.mod_eq_of_lt (by omega)]

/-- `RuleSignNearMult` stops at no overflow, and what it finds is a number rounded to 0. -/
theorem nearMultMatch_spec {w : VarnodeId} (hgr : f.RuleGraph)
    (hcode : (f.op op).opcode = .intAnd) (hw : (f.op op).output = some w)
    (h8 : (f.vn w).size ≤ 8) : ∃ res, f.nearMultMatch op = .ok res ∧
      ∀ x n, res = some (x, n) → x < f.numVarnodes ∧ (f.vn x).size = (f.vn w).size ∧
        ∃ k : ℕ, n = k ∧ 0 < k ∧ k < 8 * (f.vn w).size ∧ ∀ env, f.ValuesAt op env →
          f.IsTerm op (f.vn w).size x ∧ ∃ y, y = (f.valueOf env x +
              bias (8 * (f.vn w).size) k (f.valueOf env x)) % 2 ^ (8 * (f.vn w).size) ∧
            f.resultOf env op w = some (y - y % 2 ^ k) := by
  unfold nearMultMatch
  cases hstart : f.nearMultStart op with
  | none => exact ⟨none, rfl, fun x n h => by cases h⟩
  | some p =>
  obtain ⟨x, shiftvn, unshiftop⟩ := p
  obtain ⟨in0, in1, c, addop, hin, hconst, hc, hcc, haddop, huso, ⟨slot, hslot, hsv, hx⟩, hs0, hs1,
    hss, hsx, hlt⟩ := nearMultStart_spec hgr hcode hw hstart
  have hn0 : f.inVn unshiftop 1 = f.vn c := by
    unfold inVn
    rw [hc]
    rfl
  have hmaskvn : f.inVn op 1 = f.vn in1 := by
    unfold inVn
    rw [input_one hin]
    rfl
  have h0 : 0 < (f.vn w).size := (hgr.opWf op w hw).out_pos
  have hnone : ∃ res, (Except.ok none : Except Overflow (Option (VarnodeId × ℤ))) = .ok res ∧
      ∀ x' n, res = some (x', n) → x' < f.numVarnodes ∧ (f.vn x').size = (f.vn w).size ∧
        ∃ k : ℕ, n = k ∧ 0 < k ∧ k < 8 * (f.vn w).size ∧ ∀ env, f.ValuesAt op env →
          f.IsTerm op (f.vn w).size x' ∧ ∃ y, y = (f.valueOf env x' +
              bias (8 * (f.vn w).size) k (f.valueOf env x')) % 2 ^ (8 * (f.vn w).size) ∧
            f.resultOf env op w = some (y - y % 2 ^ k) := ⟨none, rfl, fun x n h => by cases h⟩
  dsimp only
  rw [hn0, hss, hmaskvn]
  have hclt := BitVec.toInt_lt (x := (f.vn c).constantValue)
  have hcint := BitVec.toInt_eq_toNat_cond (f.vn c).constantValue
  by_cases hle : (f.vn c).constantValue.toInt ≤ 0
  · rw [if_pos hle]
    exact hnone
  rw [if_neg hle]
  have hdiff : checkedI64 (((f.vn w).size : ℤ) * 8 - (f.vn c).constantValue.toInt) =
      .ok (((f.vn w).size : ℤ) * 8 - (f.vn c).constantValue.toInt) := if_pos ⟨by omega, by omega⟩
  rw [hdiff]
  generalize hn : ((f.vn w).size : ℤ) * 8 - (f.vn c).constantValue.toInt = n
  change ∃ res, (if n ≤ 0 then _ else _) = _ ∧ _
  by_cases hn0 : n ≤ 0
  · rw [if_pos hn0]
    exact hnone
  rw [if_neg hn0]
  obtain ⟨k, rfl⟩ := Int.eq_ofNat_of_zero_le (show 0 ≤ n by omega)
  have hshl : checkedShift (calcMask (f.vn w).size) k = .ok (calcMask (f.vn w).size <<< k) :=
    if_pos ⟨by omega, by omega⟩
  rw [hshl]
  change ∃ res, (if calcMask (f.vn w).size <<< k &&& calcMask (f.vn w).size =
    (f.vn in1).constantValue ∧ f.nearMultSign x unshiftop = true then _ else _) = _ ∧ _
  split_ifs with hform
  swap
  · exact hnone
  obtain ⟨hmask, hsign⟩ := hform
  refine ⟨_, rfl, fun x' n' he => ?_⟩
  cases he
  refine ⟨hlt, hsx, k, rfl, by omega, by omega, fun env hv => ?_⟩
  have hterm : f.IsTerm op (f.vn w).size in0 := ⟨.input (by rw [hin]; simp), hs0⟩
  obtain ⟨hts, htx, hsum⟩ := addends_slot hgr hv hslot hterm haddop hsv hx
  unfold nearMultSign at hsign
  rw [Option.any_eq_true] at hsign
  obtain ⟨sgnvn, hsgn, hsign⟩ := hsign
  have hamount : (f.vn c).constantValue.toNat + k = 8 * (f.vn w).size := by
    have hlt := (f.vn c).constantValue.isLt
    split_ifs at hcint
    all_goals omega
  obtain ⟨-, hbias⟩ := shiftedSign_spec hgr hv h0 h8 hts huso hsgn hc hcc hamount
    (by simpa using hsign)
  have hk : k ≤ 8 * (f.vn w).size := by omega
  refine ⟨htx, f.valueOf env in0, by rw [hsum, hbias], ?_⟩
  rw [resultOf_two hin, hcode, valueOf_const hconst, ← hmask]
  change some (_ &&& _) = _
  rw [shifted_calcMask_toNat h8 hk, and_high hk (term_lt hv hterm)]

/-- The quotient times the power is the number without the low bits of the biased one. -/
theorem nearMult_value {k x : ℕ} (hk : k < 8 * s) (hx : x < 2 ^ (8 * s)) {y : ℕ}
    (hy : y = (x + bias (8 * s) k x) % 2 ^ (8 * s)) :
    ((BitVec.ofNat (8 * s) x).sdiv (BitVec.ofNat (8 * s) (2 ^ k))).toNat * 2 ^ k % 2 ^ (8 * s) =
      y - y % 2 ^ k := by
  have hpow : 2 ^ k < 2 ^ (8 * s) := Nat.pow_lt_pow_right (by norm_num) hk
  have hylt : y < 2 ^ (8 * s) := hy ▸ Nat.mod_lt _ (Nat.two_pow_pos _)
  rw [← cast_inj (Nat.mod_lt _ (Nat.two_pow_pos _)) ((Nat.sub_le _ _).trans_lt hylt),
    ZMod.natCast_mod, Nat.cast_mul, Nat.cast_sub (Nat.mod_le y _)]
  have hself := cast_sdiv_mul (BitVec.ofNat (8 * s) x) (BitVec.ofNat (8 * s) (2 ^ k))
  rw [cast_srem hk hx, tmod_eq hk.le hx, ← hy, BitVec.toNat_ofNat, BitVec.toNat_ofNat,
    Nat.mod_eq_of_lt hpow, Nat.mod_eq_of_lt hx, Int.cast_sub, Int.cast_natCast,
    Int.cast_natCast] at hself
  have hcast : (y : ZMod (2 ^ (8 * s))) = x + (bias (8 * s) k x : ℕ) := by
    rw [hy, ZMod.natCast_mod, Nat.cast_add]
  rw [hself, hcast]
  ring

/-- The graph after `nearMultRewrite`: the op `f.numOps` is a division of `x` that writes `q`, and
`op` a product of `q`. -/
structure NearMult (f g : Funcdata) (op : OpId) (x q : VarnodeId) (pow : U64) : Prop where
  keeps : Keeps f g
  fresh : f.numVarnodes ≤ q
  size : (g.vn q).size = (f.vn x).size
  constant : (g.vn q).constant = false
  output : (g.op f.numOps).output = some q
  divides : ∀ env, (∀ v < f.numVarnodes, g.operandOf env v = f.operandOf env v) →
    g.resultOf env f.numOps q = evalPcode .intSdiv
      [f.operandOf env x, ((f.vn x).size, pow.toNat)] (f.vn x).size
  other : ∀ o, o ≠ op → o ≠ f.numOps → g.op o = f.op o
  code : (g.op op).opcode = .intMult
  operands : ∀ env, g.operandsOf env op = [g.operandOf env q, ((f.vn x).size, pow.toNat)]

theorem nearMultRewrite_spec {w : VarnodeId} {pow : U64} (hgr : f.RuleGraph)
    (hw : (f.op op).output = some w) (hin : (f.op op).inrefs = [a, b]) (hx : x < f.numVarnodes) :
    ∃ g q, f.nearMultRewrite op x pow = some g ∧ NearMult f g op x q pow := by
  have hlt := hgr.output_lt_numOps hw
  have hk1 := Keeps.newConst f (f.vn x).size pow
  have hc1 := newConst_lt f (f.vn x).size pow
  have hcv : ∀ env, (f.newConst (f.vn x).size pow).1.operandOf env
      (f.newConst (f.vn x).size pow).2 = ((f.vn x).size, pow.toNat) :=
    fun env => newConst_operandOf _ _
  have hmade := newOpBeforeSized_spec (f.newConst (f.vn x).size pow).1 op .intSdiv (f.vn x).size
    fun v (hv : v ∈ [x, (f.newConst (f.vn x).size pow).2]) => by
      rcases List.mem_pair.mp hv with rfl | rfl
      · exact hx.trans_le hk1.le
      · exact hc1
  unfold nearMultRewrite
  have hop1 : (f.newConst (f.vn x).size pow).1.op = f.op := rfl
  have hnum1 : (f.newConst (f.vn x).size pow).1.numOps = f.numOps := rfl
  generalize hf1 : f.newConst (f.vn x).size pow = p1 at *
  obtain ⟨f1, c1⟩ := p1
  generalize hf2 : f1.newOpBeforeSized op .intSdiv [x, c1] (f.vn x).size = p2 at *
  obtain ⟨f2, id⟩ := p2
  dsimp only at *
  rw [hf1]
  dsimp only
  rw [hf2]
  dsimp only
  obtain ⟨q, hq, hqge, hqlt, hqsize, hqconst⟩ := hmade.output
  have hid : id = f.numOps := hmade.id_eq.trans hnum1
  subst hid
  have hk2 : Keeps f f2 := hk1.trans hmade.keeps
  obtain ⟨u, rest, hu, hrest, hnew⟩ := List.forall₂_cons_left_iff.mp hmade.inrefs
  obtain ⟨c, none, hc, hnone, hrest'⟩ := List.forall₂_cons_left_iff.mp hrest
  obtain rfl := List.forall₂_nil_left_iff.mp hnone
  rw [hrest'] at hnew
  have hother : ∀ o, o ≠ f.numOps → f2.op o = f.op o := fun o ho =>
    (hmade.other o ho).trans (congrFun hop1 o)
  have hbounded : f2.Bounded := by
    intro o v hv
    by_cases ho : o = f.numOps
    · subst ho
      rw [hnew] at hv
      rcases List.mem_pair.mp hv with rfl | rfl
      · exact hu.lt
      · exact hc.lt
    · rw [hother o ho] at hv
      exact (hgr.linked.bounded o v hv).trans_le hk2.le
  have hopself : f2.op op = f.op op := hother op hlt.ne
  rw [hq, Option.map_some]
  refine ⟨_, q, rfl, ?_⟩
  have hrw : ∀ env, Rewritten f2 env op
      ((((f2.opSetOpcode op .intMult).newConst (f.vn x).size pow).1.opSetInput op 0 q).opSetInput op
        1 ((f2.opSetOpcode op .intMult).newConst (f.vn x).size pow).2) .intMult
      [f2.operandOf env q, ((f.vn x).size, pow.toNat)] := by
    intro env
    have hlen : f2.operandsOf env op = [f2.operandOf env a, f2.operandOf env b] := by
      unfold operandsOf
      rw [hopself, hin]
      rfl
    have hr := ((Rewritten.refl hbounded env op).opSetOpcode .intMult).setInputs (n := (f.vn x).size)
      (c := pow) hqlt (i := 0) (j := 1) (by rw [hlen]; simp) (by rw [hlen]; simp)
    rw [hlen] at hr
    exact hr
  generalize ((((f2.opSetOpcode op .intMult).newConst (f.vn x).size pow).1.opSetInput op 0
    q).opSetInput op 1 ((f2.opSetOpcode op .intMult).newConst (f.vn x).size pow).2) = g at hrw
  have hkg := (hrw fun _ => 0).keeps
  have hgid : g.op f.numOps = f2.op f.numOps := (hrw fun _ => 0).other _ hlt.ne'
  constructor
  · exact hk2.trans hkg
  · exact hk1.le.trans hqge
  · rw [hkg.size q hqlt, hqsize]
  · rw [hkg.constant q hqlt, hqconst]
  · rw [hgid, hq]
  · intro env henv
    unfold resultOf operandsOf
    rw [hgid, hmade.opcode, hnew, hkg.size q hqlt, hqsize, List.map_cons, List.map_cons, List.map_nil,
      hkg.operandOf hu.lt, hkg.operandOf hc.lt, hu.operandOf, hc.operandOf, hcv, hk1.operandOf hx]
  · intro o ho hne
    rw [(hrw fun _ => 0).other o ho, hother o hne]
  · exact (hrw fun _ => 0).code
  · intro env
    rw [(hrw env).ins, hkg.operandOf hqlt]

namespace NearMult

variable {q w : VarnodeId} {pow : U64} {env' : VarnodeId → ℕ} (h : NearMult f g op x q pow)
include h

theorem operandOf_old (henv : ∀ v < f.numVarnodes, env' v = env v) (hv : v < f.numVarnodes) :
    g.operandOf env' v = f.operandOf env v := by
  rw [h.keeps.operandOf hv]
  unfold operandOf valueOf
  rw [henv v hv]

/-- The quotient is the one new value. -/
theorem extends_iff (hgr : f.RuleGraph) (hop : op < f.numOps) (hx : x < f.numVarnodes)
    (hpow : pow.toNat ≠ 0) : Extends f g env env' ↔ env' = Function.update env q
      ((BitVec.ofNat (8 * (f.vn x).size) (f.valueOf env x)).sdiv
        (BitVec.ofNat (8 * (f.vn x).size) pow.toNat)).toNat := by
  have hq : g.valueOf env' q = env' q := by
    unfold valueOf
    rw [h.constant]
    rfl
  have hnew : ∀ o out, f.numOps ≤ o → (g.op o).output = some out → o = f.numOps ∧ out = q := by
    intro o out ho hout
    by_cases hne : o = f.numOps
    · subst hne
      exact ⟨rfl, Option.some.inj (hout.symm.trans h.output)⟩
    · rw [h.other o (hop.trans_le ho).ne' hne, (hgr.linked.blankOp o ho).2] at hout
      cases hout
  have hdivides (henv : ∀ v < f.numVarnodes, env' v = env v) :
      g.resultOf env' f.numOps q = some ((BitVec.ofNat (8 * (f.vn x).size) (f.valueOf env x)).sdiv
        (BitVec.ofNat (8 * (f.vn x).size) pow.toNat)).toNat := by
    have hold : f.operandOf env' x = f.operandOf env x := by
      unfold operandOf valueOf
      rw [henv x hx]
    rw [h.divides env' fun v hv => h.keeps.operandOf hv, hold]
    exact if_neg hpow
  constructor
  · intro hext
    have henv : ∀ v, v ≠ q → env' v = env v := fun v hv =>
      hext.old v fun o ho hout => hv (hnew o v ho hout).2
    have hval := hext.new f.numOps q le_rfl h.output
    rw [hdivides fun v hv => henv v (hv.trans_le h.fresh).ne, hq] at hval
    funext v
    by_cases hv : v = q
    · subst hv
      rw [Function.update_self, Option.some.inj hval]
    · rw [Function.update_of_ne hv, henv v hv]
  · intro he
    have henv : ∀ v, v ≠ q → env' v = env v := fun v hv => by rw [he, Function.update_of_ne hv]
    refine ⟨fun v hv => henv v fun hvq => ?_, fun o out ho hout => ?_⟩
    · exact hv f.numOps le_rfl (hvq ▸ h.output)
    · obtain ⟨rfl, rfl⟩ := hnew o out ho hout
      rw [hdivides fun v hv => henv v (hv.trans_le h.fresh).ne, hq, he, Function.update_self]

/-- The product is the number rounded to 0, and no other op is changed. -/
theorem sameResult {k : ℕ} {o : OpId} (hgr : f.RuleGraph) (hw : (f.op op).output = some w)
    (hx : x < f.numVarnodes) (hs : (f.vn x).size = (f.vn w).size) (hk : k < 8 * (f.vn w).size)
    (hpow : pow.toNat = 2 ^ k) (hout : (f.op o).output = some out) (hv : f.ValuesAt o env)
    (hval : f.ValuesAt op env → ∃ y, y = (f.valueOf env x +
        bias (8 * (f.vn w).size) k (f.valueOf env x)) % 2 ^ (8 * (f.vn w).size) ∧
      f.resultOf env op w = some (y - y % 2 ^ k)) : SameResult f g env o out := by
  have hop := hgr.output_lt_numOps hw
  have hext (env' : VarnodeId → ℕ) := (@NearMult.extends_iff _ _ env _ _ _ _ env') h hgr hop hx
    (by rw [hpow]; exact (Nat.two_pow_pos k).ne')
  have hold (env' : VarnodeId → ℕ) (he : Extends f g env env') : ∀ v < f.numVarnodes,
      env' v = env v := fun v hv => by
    rw [(hext env').mp he, Function.update_of_ne (hv.trans_le h.fresh).ne]
  have hne : o ≠ f.numOps := (hgr.output_lt_numOps hout).ne
  by_cases ho : o = op
  · subst ho
    obtain rfl := Option.some.inj (hw.symm.trans hout)
    obtain ⟨y, hy, hres⟩ := hval hv
    have hX := hv.fits x
    rw [hs] at hX
    have hops (env' : VarnodeId → ℕ) (he : Extends f g env env') : g.operandsOf env' o =
        [((f.vn w).size, ((BitVec.ofNat (8 * (f.vn w).size) (f.valueOf env x)).sdiv
          (BitVec.ofNat (8 * (f.vn w).size) (2 ^ k))).toNat), ((f.vn w).size, 2 ^ k)] := by
      rw [h.operands, hpow, hs]
      unfold operandOf valueOf
      rw [h.constant, h.size, (hext env').mp he, Function.update_self, hpow, hs]
      rfl
    refine ⟨⟨_, (hext _).mpr rfl⟩, fun env' he p hp => ?_, fun env' he => ?_⟩
    · rw [hops env' he] at hp
      rcases List.mem_pair.mp hp with rfl | rfl
      · exact BitVec.isLt _
      · exact Nat.pow_lt_pow_right (by norm_num) hk
    · unfold resultOf at hres ⊢
      rw [hops env' he, h.code, h.keeps.size w (hgr.output_lt hw), hres]
      exact congrArg some (nearMult_value hk hX hy)
  · have hops (env' : VarnodeId → ℕ) (he : Extends f g env env') :
        g.operandsOf env' o = f.operandsOf env o := by
      unfold operandsOf
      rw [h.other o ho hne]
      exact List.map_congr_left fun v hv => h.operandOf_old (hold env' he) (hgr.lt_of_mem hv)
    refine ⟨⟨_, (hext _).mpr rfl⟩, fun env' he p hp => ?_, fun env' he => ?_⟩
    · rw [hops env' he] at hp
      obtain ⟨v, -, rfl⟩ := List.mem_map.mp hp
      exact hv.fits v
    · unfold resultOf
      rw [hops env' he, h.other o ho hne, h.keeps.size out (hgr.output_lt hout)]

end NearMult

/-- `RuleSignNearMult` stops at no overflow and keeps every value. -/
theorem signNearMult_sound {o : OpId} (hgr : f.RuleGraph) (hcode : (f.op op).opcode = .intAnd)
    (h8 : ∀ v ∈ (f.op op).inrefs, (f.vn v).size ≤ 8) (hout : (f.op o).output = some out)
    (hv : f.ValuesAt o env) :
    ∃ res, f.signNearMult op = .ok res ∧ ∀ g, res = some g → SameResult f g env o out := by
  cases hstart : f.nearMultStart op with
  | none =>
    refine ⟨none, ?_, fun g hg => by cases hg⟩
    unfold signNearMult nearMultMatch
    rw [hstart]
    rfl
  | some p =>
  have hmem : ∃ u, u ∈ (f.op op).inrefs := by
    unfold nearMultStart at hstart
    obtain ⟨in1, hin1, -⟩ := Option.bind_eq_some_iff.mp hstart
    exact ⟨in1, List.mem_of_getElem? hin1⟩
  obtain ⟨u, hu⟩ := hmem
  obtain ⟨w, hw⟩ := hgr.exists_output hu (by rw [hcode]; rfl)
  obtain ⟨a, b, hin, ha, -⟩ := hgr.arith_inrefs hw (.inr (.inr (.inr (.inl hcode))))
  have hw8 : (f.vn w).size ≤ 8 := ha ▸ h8 a (by rw [hin]; simp)
  obtain ⟨res, hres, hform⟩ := nearMultMatch_spec hgr hcode hw hw8
  unfold signNearMult
  rw [hres]
  cases res with
  | none => exact ⟨none, rfl, fun g hg => by cases hg⟩
  | some q =>
  obtain ⟨x, n⟩ := q
  obtain ⟨hx, hs, k, rfl, hk0, hk, hval⟩ := hform x n rfl
  have hshl : checkedShift 1 (k : ℤ) = .ok ((1 : U64) <<< k) := if_pos ⟨by omega, by omega⟩
  obtain ⟨g, q, hg, hnear⟩ := (@nearMultRewrite_spec _ _ _ _ _ _ ((1 : U64) <<< k)) hgr hw hin hx
  refine ⟨some g, ?_, fun g' hg' => ?_⟩
  · change (checkedShift 1 (k : ℤ) >>= fun pow => Except.ok (f.nearMultRewrite op x pow)) = _
    rw [hshl, ← hg]
    rfl
  · cases hg'
    exact hnear.sameResult hgr hw hx hs hk (checkedShift_one (by omega)) hout hv
      fun hvo => (hval env hvo).2

end Funcdata
end Mosura
