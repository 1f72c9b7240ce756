import Mosura.ExpressionSound

/-! The rules that rebuild a comparison from flags keep every truth value, but for `RuleScarry` with
the smallest number in slot 1. -/

namespace Mosura
namespace Funcdata

variable {f g : Funcdata} {env : VarnodeId → ℕ} {op compop : OpId}
  {out a b v svn xvn : VarnodeId} {zside : ℕ}

/-- `compop` compares the flag `svn` with the sign of `xvn`, that is with `cvn`: `0 s< xvn` for the
slot 0 and `xvn s< 0` for the slot 1. -/
structure SignCompare (f : Funcdata) (svn : VarnodeId) (compop : OpId) (xvn : VarnodeId)
    (zside : ℕ) (cvn : VarnodeId) (signdef : OpId) (z : VarnodeId) : Prop where
  code : (f.op compop).opcode = .intEqual ∨ (f.op compop).opcode = .intNotequal
  inrefs : (f.op compop).inrefs = [svn, cvn] ∨ (f.op compop).inrefs = [cvn, svn]
  defOp : (f.vn cvn).defOp = some signdef
  sless : (f.op signdef).opcode = .intSless
  sides : zside = 0 ∧ (f.op signdef).inrefs = [z, xvn] ∨
    zside = 1 ∧ (f.op signdef).inrefs = [xvn, z]
  isZero : f.isConst0 z = true

theorem signCompare_spec (hmem : svn ∈ (f.op compop).inrefs)
    (h : f.signCompare svn compop = some (xvn, zside)) :
    ∃ cvn signdef z, f.SignCompare svn compop xvn zside cvn signdef z := by
  unfold signCompare at h
  split at h
  case h_2 => cases h
  case h_1 i0 i1 hin =>
  by_cases hcode : (f.op compop).opcode ≠ .intEqual ∧ (f.op compop).opcode ≠ .intNotequal
  · rw [if_pos hcode] at h
    cases h
  rw [if_neg hcode] at h
  obtain ⟨signdef, hd, h⟩ := Option.bind_eq_some_iff.mp h
  by_cases hs : (f.op signdef).opcode ≠ .intSless
  · rw [if_pos hs] at h
    cases h
  rw [if_neg hs] at h
  split at h
  case h_2 => cases h
  case h_1 s0 s1 hsin =>
  have hinrefs : (f.op compop).inrefs = [svn, if i0 = svn then i1 else i0] ∨
      (f.op compop).inrefs = [if i0 = svn then i1 else i0, svn] := by
    rw [hin] at hmem ⊢
    by_cases h0 : i0 = svn
    · rw [if_pos h0, h0]
      exact .inl rfl
    · rw [if_neg h0]
      have h1 : svn = i1 := (List.mem_pair.mp hmem).resolve_left fun he => h0 he.symm
      rw [h1]
      exact .inr rfl
  have hcode' : (f.op compop).opcode = .intEqual ∨ (f.op compop).opcode = .intNotequal := by
    by_contra hn
    exact hcode (not_or.mp hn)
  by_cases hz0 : f.isConst0 s0 = true
  · rw [if_pos hz0] at h
    cases h
    exact ⟨_, signdef, s0, hcode', hinrefs, hd, not_not.mp hs, .inl ⟨rfl, hsin⟩, hz0⟩
  · rw [if_neg hz0] at h
    by_cases hz1 : f.isConst0 s1 = true
    · rw [if_pos hz1] at h
      cases h
      exact ⟨_, signdef, s1, hcode', hinrefs, hd, not_not.mp hs, .inr ⟨rfl, hsin⟩, hz1⟩
    · rw [if_neg hz1] at h
      cases h

theorem findSignCompare_spec {isSum : VarnodeId → Option Bool} {l : List OpId}
    (h : f.findSignCompare svn isSum l = some (compop, xvn, zside)) :
    compop ∈ l ∧ f.signCompare svn compop = some (xvn, zside) ∧ isSum xvn = some true := by
  induction l with
  | nil => cases h
  | cons o l ih =>
    unfold findSignCompare at h
    cases hs : f.signCompare svn o with
    | none =>
      rw [hs] at h
      obtain ⟨hmem, hrest⟩ := ih h
      exact ⟨List.mem_cons_of_mem _ hmem, hrest⟩
    | some r =>
      rw [hs] at h
      dsimp only at h
      cases hsum : isSum r.1 with
      | none =>
        rw [hsum] at h
        cases h
      | some c =>
        rw [hsum] at h
        cases c with
        | false =>
          obtain ⟨hmem, hrest⟩ := ih h
          exact ⟨List.mem_cons_of_mem _ hmem, hrest⟩
        | true =>
          cases h
          exact ⟨List.mem_cons_self, hs, hsum⟩

theorem isConst0_iff : f.isConst0 v = true ↔
    (f.vn v).constant = true ∧ (f.vn v).constantValue = 0 := by
  unfold isConst0
  rw [Bool.and_eq_true, beq_iff_eq]

theorem valueOf_isConst0 (h : f.isConst0 v = true) : f.valueOf env v = 0 :=
  valueOf_zero (isConst0_iff.mp h).1 (isConst0_iff.mp h).2

/-- The sign test of a number. -/
def signOf (zside : ℕ) (x : ℤ) : Bool := if zside = 0 then decide (0 < x) else decide (x < 0)

/-- The order that a difference of the flag from the sign test is rewritten to. -/
def orderOf (zside : ℕ) (x y : ℤ) : Bool := if zside = 0 then decide (y < x) else decide (x < y)

section Compares

variable {cvn z : VarnodeId} {signdef : OpId}

theorem SignCompare.cone (h : f.SignCompare svn compop xvn zside cvn signdef z) :
    Cone f compop svn ∧ Cone f compop cvn ∧ Cone f compop xvn := by
  have hc : Cone f compop cvn := .input (by rcases h.inrefs with hin | hin <;> rw [hin] <;> simp)
  refine ⟨.input (by rcases h.inrefs with hin | hin <;> rw [hin] <;> simp), hc, ?_⟩
  refine .step hc h.defOp (by rw [h.sless]; rfl) ?_
  rcases h.sides with ⟨-, hin⟩ | ⟨-, hin⟩
  all_goals rw [hin]; simp

/-- The value of the sign test. -/
theorem SignCompare.sign (h : f.SignCompare svn compop xvn zside cvn signdef z)
    (hgr : f.RuleGraph) (hv : f.ValuesAt compop env) : f.valueOf env cvn =
      (signOf zside (Signed.toInt (8 * (f.vn xvn).size) (f.valueOf env xvn))).toNat := by
  have hr := hv.cone hgr h.cone.2.1 h.defOp (by rw [h.sless]; rfl)
  obtain ⟨⟨p, q, hin, hs⟩, -⟩ := hgr.compare_inrefs (hgr.output_of_def h.defOp)
    (by simp only [h.sless, true_or, or_true])
  have hx := hv.fits xvn
  have hz : f.valueOf env z = 0 := valueOf_isConst0 h.isZero
  unfold resultOf operandsOf at hr
  rcases h.sides with ⟨rfl, hsin⟩ | ⟨rfl, hsin⟩
  · rw [hsin] at hin
    cases hin
    rw [hsin, h.sless] at hr
    simp only [List.map_cons, List.map_nil, operandOf] at hr
    rw [eval_sless _ _ (hv.fits z) (hs ▸ hx), hz, Signed.toInt_zero, hs] at hr
    exact (Option.some.inj hr).symm
  · rw [hsin] at hin
    cases hin
    rw [hsin, h.sless] at hr
    simp only [List.map_cons, List.map_nil, operandOf] at hr
    rw [eval_sless _ _ hx (hs ▸ hv.fits z), hz, Signed.toInt_zero] at hr
    exact (Option.some.inj hr).symm

theorem toNat_eq_iff {p q : Bool} : p.toNat = q.toNat ↔ p = q := by
  cases p <;> cases q <;> decide

/-- What the comparison of a flag with the sign test computes. -/
theorem SignCompare.result (h : f.SignCompare svn compop xvn zside cvn signdef z)
    (hgr : f.RuleGraph) (hv : f.ValuesAt compop env) {p : Bool} (hp : f.valueOf env svn = p.toNat) :
    f.resultOf env compop out = some (((f.op compop).opcode == .intNotequal) ==
      (p != signOf zside (Signed.toInt (8 * (f.vn xvn).size) (f.valueOf env xvn)))).toNat := by
  have hsign := h.sign hgr hv
  generalize signOf zside (Signed.toInt (8 * (f.vn xvn).size) (f.valueOf env xvn)) = q at *
  unfold resultOf operandsOf
  rcases h.inrefs with hin | hin
  all_goals
    rw [hin]
    simp only [List.map_cons, List.map_nil, operandOf, hp, hsign]
    rcases h.code with hc | hc
    all_goals
      rw [hc]
      cases p <;> cases q <;> rfl

/-- The rewritten comparison has the two operands in the order that the opcode and the slot of the 0
ask for. -/
theorem rebuild_spec {ins : Operands} {g' : Funcdata} (zside : ℕ)
    (hr : Rewritten f env compop g' (f.op compop).opcode ins) (ha : a < g'.numVarnodes)
    (hb : b < g'.numVarnodes) {s x y : ℕ} (hx : g'.operandOf env a = (s, x))
    (hy : g'.operandOf env b = (s, y)) :
    ∃ code ins', Rewritten f env compop (g'.rebuild compop zside a b) code ins' ∧
      (x < 2 ^ (8 * s) → y < 2 ^ (8 * s) → ∀ so, evalPcode code ins' so =
        some (((f.op compop).opcode == .intNotequal) ==
          orderOf zside (Signed.toInt (8 * s) x) (Signed.toInt (8 * s) y)).toNat) := by
  have hpair : ∀ c u w, u ∈ [a, b] → w ∈ [a, b] → Rewritten f env compop
      ((g'.opSetOpcode compop c).opSetAllInput compop [u, w]) c
      [g'.operandOf env u, g'.operandOf env w] := by
    intro c u w hu hw
    have hlt : ∀ v ∈ [a, b], v < g'.numVarnodes := by
      intro v hv
      rcases List.mem_pair.mp hv with rfl | rfl
      · exact ha
      · exact hb
    exact (hr.opSetOpcode c).opSetAllInput (List.forall_mem_cons.mpr
      ⟨hlt u hu, List.forall_mem_singleton.mpr (hlt w hw)⟩)
  have hab : a ∈ [a, b] ∧ b ∈ [a, b] := by simp
  unfold rebuild orderOf
  rw [hr.code]
  by_cases hne : (f.op compop).opcode = .intNotequal
  · rw [if_pos hne, beq_iff_eq.mpr hne]
    split_ifs
    · refine ⟨_, _, hpair _ _ _ hab.2 hab.1, fun hxlt hylt so => ?_⟩
      rw [hx, hy, eval_sless _ _ hylt hxlt, Bool.true_beq]
    · refine ⟨_, _, hpair _ _ _ hab.1 hab.2, fun hxlt hylt so => ?_⟩
      rw [hx, hy, eval_sless _ _ hxlt hylt, Bool.true_beq]
  · rw [if_neg hne, beq_false_of_ne hne]
    split_ifs
    · refine ⟨_, _, hpair _ _ _ hab.1 hab.2, fun hxlt hylt so => ?_⟩
      rw [hx, hy, eval_slessequal _ _ hxlt hylt, Bool.false_beq, ← decide_not]
      simp only [not_lt]
    · refine ⟨_, _, hpair _ _ _ hab.2 hab.1, fun hxlt hylt so => ?_⟩
      rw [hx, hy, eval_slessequal _ _ hylt hxlt, Bool.false_beq, ← decide_not]
      simp only [not_lt]

end Compares

/-! The overflow flags. -/

def subOverflows (s x y : ℕ) : Bool :=
  decide (((2 ^ (8 * s - 1) : ℕ) : ℤ) ≤ Signed.toInt (8 * s) x - Signed.toInt (8 * s) y ∨
    Signed.toInt (8 * s) x - Signed.toInt (8 * s) y < -((2 ^ (8 * s - 1) : ℕ) : ℤ))

def addOverflows (s x y : ℕ) : Bool :=
  decide (((2 ^ (8 * s - 1) : ℕ) : ℤ) ≤ Signed.toInt (8 * s) x + Signed.toInt (8 * s) y ∨
    Signed.toInt (8 * s) x + Signed.toInt (8 * s) y < -((2 ^ (8 * s - 1) : ℕ) : ℤ))

theorem eval_sborrow {s x y : ℕ} (t so : ℕ) (hx : x < 2 ^ (8 * s)) (hy : y < 2 ^ (8 * s)) :
    evalPcode .intSborrow [(s, x), (t, y)] so = some (subOverflows s x y).toNat := by
  unfold subOverflows
  rw [Bool.decide_or, ← Signed.ssubOverflow_ofNat hx hy]
  rfl

theorem eval_scarry {s x y : ℕ} (t so : ℕ) (hx : x < 2 ^ (8 * s)) (hy : y < 2 ^ (8 * s)) :
    evalPcode .intScarry [(s, x), (t, y)] so = some (addOverflows s x y).toNat := by
  unfold addOverflows
  rw [Bool.decide_or, ← Signed.saddOverflow_ofNat hx hy]
  rfl

theorem subOverflows_zero {s x : ℕ} (h0 : 0 < s) (hx : x < 2 ^ (8 * s)) :
    subOverflows s x 0 = false := by
  have hb := Signed.toInt_bounds (by omega) hx
  unfold subOverflows
  rw [Signed.toInt_zero, decide_eq_false]
  omega

theorem addOverflows_comm (s x y : ℕ) : addOverflows s x y = addOverflows s y x := by
  unfold addOverflows
  rw [Int.add_comm]

theorem addOverflows_zero {s x : ℕ} (h0 : 0 < s) (hx : x < 2 ^ (8 * s)) :
    addOverflows s x 0 = false := by
  have hb := Signed.toInt_bounds (by omega) hx
  unfold addOverflows
  rw [Signed.toInt_zero, decide_eq_false]
  omega

/-- The flag of a difference, compared with its sign, is the order of the operands. -/
theorem subOverflows_sign {s x y z : ℕ} (h0 : 0 < s) (hx : x < 2 ^ (8 * s)) (hy : y < 2 ^ (8 * s))
    (hz : z < 2 ^ (8 * s)) (hsub : (z : ZMod (2 ^ (8 * s))) = x - y) (zside : ℕ) :
    (subOverflows s x y != signOf zside (Signed.toInt (8 * s) z)) =
      orderOf zside (Signed.toInt (8 * s) x) (Signed.toInt (8 * s) y) := by
  have hmod : (z + y) % 2 ^ (8 * s) = x := by
    rw [eq_sub_iff_add_eq, ← Nat.cast_add] at hsub
    rw [(ZMod.natCast_eq_natCast_iff' _ _ _).mp hsub, Nat.mod_eq_of_lt hx]
  obtain ⟨hneg, hpos⟩ := Signed.sub_overflow_iff (by omega) hx hy hz hmod
  unfold subOverflows signOf orderOf
  split_ifs
  · rw [Bool.eq_iff_iff, bne_iff_ne, ne_eq, Bool.eq_iff_iff, decide_eq_true_eq, decide_eq_true_eq,
      decide_eq_true_eq]
    exact hpos
  · rw [Bool.eq_iff_iff, bne_iff_ne, ne_eq, Bool.eq_iff_iff, decide_eq_true_eq, decide_eq_true_eq,
      decide_eq_true_eq]
    exact hneg

/-- The flag of a sum with `c`, compared with its sign, is the order against `-c`, exactly where `c`
is not the smallest number. -/
theorem addOverflows_sign {s x c d z : ℕ} (h0 : 0 < s) (hx : x < 2 ^ (8 * s))
    (hc : c < 2 ^ (8 * s)) (hz : z < 2 ^ (8 * s)) (hsum : (z : ZMod (2 ^ (8 * s))) = x + c)
    (hd : (2 ^ (8 * s) - c) % 2 ^ (8 * s) = d) (zside : ℕ) :
    (addOverflows s x c != signOf zside (Signed.toInt (8 * s) z)) =
      orderOf zside (Signed.toInt (8 * s) x) (Signed.toInt (8 * s) d) ↔ c ≠ 2 ^ (8 * s - 1) := by
  have hmod : (x + c) % 2 ^ (8 * s) = z := by
    rw [← Nat.cast_add] at hsum
    rw [← (ZMod.natCast_eq_natCast_iff' _ _ _).mp hsum, Nat.mod_eq_of_lt hz]
  obtain ⟨hneg, hpos⟩ := Signed.add_overflow_iff (by omega) hx hc hz hmod hd
  unfold addOverflows signOf orderOf
  split_ifs
  · rw [Bool.eq_iff_iff, bne_iff_ne, ne_eq, Bool.eq_iff_iff, decide_eq_true_eq, decide_eq_true_eq,
      decide_eq_true_eq]
    exact hpos
  · rw [Bool.eq_iff_iff, bne_iff_ne, ne_eq, Bool.eq_iff_iff, decide_eq_true_eq, decide_eq_true_eq,
      decide_eq_true_eq]
    exact hneg

/-! The rules. -/

theorem copyFalse_spec (hf : f.Bounded) (env : VarnodeId → ℕ) (op : OpId) :
    Rewritten f env op (f.copyFalse op) .copy [(1, 0)] := by
  have hr := ((((Rewritten.refl hf env op).newConst 1 0).opSetOpcode .copy).opSetAllInput
    (List.forall_mem_singleton.mpr (newConst_lt f 1 0)))
  have hz : ((f.newConst 1 0).1.opSetOpcode op .copy).operandOf env (f.newConst 1 0).2 = (1, 0) :=
    newConst_operandOf 1 0
  rw [List.map_singleton, hz] at hr
  exact hr

/-- A flag that is never set becomes false. -/
theorem copyFalse_sound (hf : f.Bounded)
    (h : f.ValuesAt op env → f.resultOf env op out = some false.toNat) :
    RewritesIff f env op out (f.copyFalse op) True :=
  RewritesIff.of_eq (copyFalse_spec hf env op) fun hv => (h hv).symm

/-- An overflow flag that a rule reads. -/
structure Flag (f : Funcdata) (op : OpId) (svn a b : VarnodeId) : Prop where
  graph : f.RuleGraph
  elements : f.ConstElements
  output : (f.op op).output = some svn
  code : (f.op op).opcode = .intSborrow ∨ (f.op op).opcode = .intScarry
  inrefs : (f.op op).inrefs = [a, b]
  size : (f.vn a).size = (f.vn b).size
  size_le : (f.vn a).size ≤ 8

namespace Flag

variable (h : f.Flag op svn a b)
include h

theorem pos : 0 < (f.vn a).size := by
  refine h.graph.size_pos (o := op) ?_ h.output
  rw [h.inrefs]
  exact List.mem_cons_self

theorem sem : (f.op op).opcode.hasSemantics = true := by
  rcases h.code with hc | hc <;> rw [hc] <;> rfl

theorem defOp : (f.vn svn).defOp = some op := (h.graph.linked.defs svn op).mpr h.output

theorem lt : a < f.numVarnodes ∧ b < f.numVarnodes :=
  ⟨h.graph.lt_of_mem (o := op) (by rw [h.inrefs]; simp),
    h.graph.lt_of_mem (o := op) (by rw [h.inrefs]; simp)⟩

theorem fits (hfits : ∀ v, f.valueOf env v < 2 ^ (8 * (f.vn v).size)) :
    f.valueOf env a < 2 ^ (8 * (f.vn a).size) ∧ f.valueOf env b < 2 ^ (8 * (f.vn a).size) :=
  ⟨hfits a, h.size ▸ hfits b⟩

theorem cone (hs : Cone f compop svn) : Cone f compop a ∧ Cone f compop b :=
  ⟨.step hs h.defOp h.sem (by rw [h.inrefs]; simp), .step hs h.defOp h.sem (by rw [h.inrefs]; simp)⟩

/-- The comparison `compop` of the flag with a sign test is rewritten to `rebuild`, on operands of
the graph `g'`: it computes the same where the flag and the sign are the order of the operands. -/
theorem rewrites {cvn z : VarnodeId} {signdef : OpId}
    (hs : f.SignCompare svn compop xvn zside cvn signdef z) {g' : Funcdata} {ins : Operands}
    (hr : Rewritten f env compop g' (f.op compop).opcode ins) {u w : VarnodeId}
    (hu : u < g'.numVarnodes) (hw : w < g'.numVarnodes) {s x y : ℕ}
    (hx : g'.operandOf env u = (s, x)) (hy : g'.operandOf env w = (s, y)) {P : Prop}
    (hiff : f.ValuesAt compop env → x < 2 ^ (8 * s) ∧ y < 2 ^ (8 * s) ∧
      ∃ p : Bool, f.resultOf env op svn = some p.toNat ∧
        ((p != signOf zside (Signed.toInt (8 * (f.vn xvn).size) (f.valueOf env xvn))) =
          orderOf zside (Signed.toInt (8 * s) x) (Signed.toInt (8 * s) y) ↔ P)) :
    RewritesIff f env compop out (g'.rebuild compop zside u w) P := by
  obtain ⟨code, ins', hr', heval⟩ := rebuild_spec zside hr hu hw hx hy
  refine ⟨code, ins', hr', fun hv => ?_⟩
  obtain ⟨hxlt, hylt, p, hp, hiff⟩ := hiff hv
  have hsvn := hv.cone h.graph hs.cone.1 h.defOp h.sem
  rw [heval hxlt hylt, hs.result h.graph hv (Option.some.inj (hsvn.symm.trans hp)),
    Option.some.injEq, toNat_eq_iff, ← hiff]
  cases (f.op compop).opcode == OpCode.intNotequal
  · rw [Bool.false_beq, Bool.false_beq, Bool.not_eq_eq_eq_not, Bool.not_not]
    exact eq_comm
  · rw [Bool.true_beq, Bool.true_beq]
    exact eq_comm

end Flag

/-- The comparison found for a flag is live, so it has an output. -/
theorem exists_target (hgr : f.RuleGraph) {isSum : VarnodeId → Option Bool}
    (h : f.findSignCompare svn isSum (f.vn svn).descend = some (compop, xvn, zside)) :
    isSum xvn = some true ∧ ∃ cvn signdef z out,
      f.SignCompare svn compop xvn zside cvn signdef z ∧ (f.op compop).output = some out := by
  obtain ⟨hmem, hsign, hsum⟩ := findSignCompare_spec h
  have hin : svn ∈ (f.op compop).inrefs := hgr.linked.mem_descend.mp hmem
  obtain ⟨cvn, signdef, z, hs⟩ := signCompare_spec hin hsign
  have hsem : (f.op compop).opcode.hasSemantics = true := by
    rcases hs.code with hc | hc <;> rw [hc] <;> rfl
  obtain ⟨out, hout⟩ := hgr.exists_output hin hsem
  exact ⟨hsum, cvn, signdef, z, out, hs, hout⟩

/-- What a rule does to the values: one op is rewritten, and keeps its truth value exactly where `P`
holds of it. -/
def Rebuilds (f : Funcdata) (env : VarnodeId → ℕ) (g : Funcdata) (P : OpId → Prop) : Prop :=
  ∃ o out, (f.op o).output = some out ∧ RewritesIff f env o out g (P o) ∧ ∀ o', o' ≠ o → P o'

/-- The ops that compute what they did are those where `P` holds. -/
theorem Rebuilds.result_iff {P : OpId → Prop} {o : OpId} (h : Rebuilds f env g P)
    (hgr : f.RuleGraph) (hout : (f.op o).output = some out) (hv : f.ValuesAt o env) :
    g.resultOf env o out = f.resultOf env o out ↔ P o := by
  obtain ⟨o', out', hout', hr, hother⟩ := h
  rw [hr.result_iff hgr hout' hout hv]
  by_cases ho : o = o'
  · subst ho
    exact ⟨fun hp => hp rfl, fun hp _ => hp⟩
  · exact iff_of_true (fun he => absurd he ho) (hother o ho)

theorem RewritesIff.rebuilds (h : RewritesIff f env op out g True)
    (hout : (f.op op).output = some out) : Rebuilds f env g fun _ => True :=
  ⟨op, out, hout, h, fun _ _ => trivial⟩

theorem sborrow_sound (h : f.Flag op svn a b) (hcode : (f.op op).opcode = .intSborrow)
    (hcons : f.Consistent env) (hg : f.sborrow op = some g) :
    Rebuilds f env g fun _ => True := by
  unfold sborrow at hg
  rw [h.inrefs] at hg
  dsimp only at hg
  have hresult : (∀ v, f.valueOf env v < 2 ^ (8 * (f.vn v).size)) → f.resultOf env op svn =
      some (subOverflows (f.vn a).size (f.valueOf env a) (f.valueOf env b)).toNat := by
    intro hfits
    unfold resultOf operandsOf
    rw [h.inrefs, hcode]
    exact eval_sborrow _ _ (h.fits hfits).1 (h.fits hfits).2
  by_cases hz : f.isConst0 b = true
  · rw [if_pos hz] at hg
    obtain rfl := Option.some.inj hg
    refine (copyFalse_sound h.graph.linked.bounded fun hv => ?_).rebuilds h.output
    rw [hresult hv.fits, valueOf_isConst0 hz, subOverflows_zero h.pos (hv.fits a)]
  rw [if_neg hz] at hg
  obtain ⟨⟨compop, xvn, zside⟩, htarget, rfl⟩ := Option.map_eq_some_iff.mp hg
  unfold sborrowTarget at htarget
  rw [h.inrefs, h.output] at htarget
  obtain ⟨hsum, cvn, signdef, z, out, hs, hout⟩ := exists_target h.graph htarget
  refine RewritesIff.rebuilds ?_ hout
  refine h.rewrites hs (Rewritten.refl h.graph.linked.bounded env compop) h.lt.1 h.lt.2 rfl
    (Prod.ext h.size.symm rfl) fun hv => ?_
  have hcone := h.cone hs.cone.1
  obtain ⟨hsize, hsub⟩ := subtractMatches_sound h.graph h.elements hv hcons h.size_le h.size hcone.1
    hcone.2 hs.cone.2.2 hsum
  have hfits := h.fits hv.fits
  refine ⟨hfits.1, hfits.2, _, hresult hv.fits, iff_of_true ?_ trivial⟩
  rw [← hsize]
  exact subOverflows_sign h.pos hfits.1 hfits.2 (hsize ▸ hv.fits xvn) hsub zside

/-- The constant of an INT_SCARRY is in slot 1, or in slot 0 and then not the smallest number. -/
theorem scarryOperands_cases {u w : VarnodeId} (h : f.scarryOperands a b = some (u, w)) :
    (f.vn w).constant = true ∧ (u = a ∧ w = b ∨ u = b ∧ w = a ∧ (f.vn b).constant = false ∧
      (f.vn w).constantValue ≠ signMask (f.vn w).size) := by
  unfold scarryOperands at h
  by_cases hb : (f.vn b).constant = true
  · rw [if_pos hb] at h
    cases h
    exact ⟨hb, .inl ⟨rfl, rfl⟩⟩
  rw [if_neg hb] at h
  by_cases ha : (f.vn a).constant = true
  swap
  · rw [if_pos (by simpa using ha)] at h
    cases h
  rw [if_neg (by simpa using ha)] at h
  by_cases hm : (f.vn a).constantValue = signMask (f.vn a).size
  · rw [if_pos hm] at h
    cases h
  rw [if_neg hm] at h
  cases h
  exact ⟨ha, .inr ⟨rfl, rfl, by simpa using hb, hm⟩⟩

/-- `RuleScarry` rewrites the comparison `o` for the smallest number in slot 1, which it compares
with nothing. -/
def ScarryMinimum (f : Funcdata) (op o : OpId) : Prop :=
  ∃ a b r, (f.op op).inrefs = [a, b] ∧ f.isConst0 a = false ∧ (f.vn b).constant = true ∧
    (f.vn b).constantValue = signMask (f.vn b).size ∧ f.scarryTarget op a b = some r ∧ r.1 = o

theorem scarry_sound (h : f.Flag op svn a b) (hcode : (f.op op).opcode = .intScarry)
    (hcons : f.Consistent env) (hg : f.scarry op = some g) :
    Rebuilds f env g fun o => ¬f.ScarryMinimum op o := by
  unfold scarry at hg
  rw [h.inrefs] at hg
  dsimp only at hg
  have hresult : (∀ v, f.valueOf env v < 2 ^ (8 * (f.vn v).size)) → f.resultOf env op svn =
      some (addOverflows (f.vn a).size (f.valueOf env a) (f.valueOf env b)).toNat := by
    intro hfits
    unfold resultOf operandsOf
    rw [h.inrefs, hcode]
    exact eval_scarry _ _ (h.fits hfits).1 (h.fits hfits).2
  cases hz : f.isConst0 a || f.isConst0 b with
  | true =>
    rw [hz, if_pos rfl] at hg
    obtain rfl := Option.some.inj hg
    have hno : ∀ o, ¬f.ScarryMinimum op o := by
      rintro o ⟨a', b', r, hin, ha, -, hm, -⟩
      rw [h.inrefs] at hin
      cases hin
      rw [ha, Bool.false_or] at hz
      rw [(isConst0_iff.mp hz).2] at hm
      have htwo := signMask_toNat (h.size ▸ h.pos) (h.size ▸ h.size_le)
      rw [← hm] at htwo
      exact absurd htwo (Nat.two_pow_pos _).ne
    refine ⟨op, svn, h.output, (copyFalse_sound h.graph.linked.bounded fun hv => ?_).congr
      (iff_of_true trivial (hno op)), fun o _ => hno o⟩
    rw [hresult hv.fits]
    rcases Bool.or_eq_true_iff.mp hz with ha | hb
    · rw [valueOf_isConst0 ha, addOverflows_comm, addOverflows_zero h.pos (h.fits hv.fits).2]
    · rw [valueOf_isConst0 hb, addOverflows_zero h.pos (h.fits hv.fits).1]
  | false =>
  rw [hz, if_neg Bool.false_ne_true] at hg
  obtain ⟨⟨u, w⟩, hops, hg⟩ := Option.bind_eq_some_iff.mp hg
  obtain ⟨⟨compop, xvn, zside⟩, htarget, hg⟩ := Option.bind_eq_some_iff.mp hg
  obtain rfl := Option.some.inj hg
  obtain ⟨hconst, hcases⟩ := scarryOperands_cases hops
  have htarget' := htarget
  unfold scarryTarget at htarget'
  rw [h.output] at htarget'
  obtain ⟨hsum, cvn, signdef, z, out, hs, hout⟩ := exists_target h.graph htarget'
  refine ⟨compop, out, hout, ?_, fun o ho => ?_⟩
  swap
  · rintro ⟨a', b', r, hin, -, hb, -, hr, rfl⟩
    rw [h.inrefs] at hin
    cases hin
    rcases hcases with ⟨rfl, rfl⟩ | ⟨-, -, hnot, -⟩
    · rw [htarget] at hr
      exact ho (congrArg Prod.fst (Option.some.inj hr)).symm
    · rw [hb] at hnot
      cases hnot
  have hcone := h.cone hs.cone.1
  -- the two orders of the operands
  obtain ⟨hu, hw, hus, hws, hlt, hadd⟩ : Cone f compop u ∧ Cone f compop w ∧
      (f.vn u).size = (f.vn a).size ∧ (f.vn w).size = (f.vn a).size ∧
      (u < f.numVarnodes ∧ w < f.numVarnodes) ∧
      addOverflows (f.vn a).size (f.valueOf env a) (f.valueOf env b) =
        addOverflows (f.vn a).size (f.valueOf env u) (f.valueOf env w) := by
    rcases hcases with ⟨rfl, rfl⟩ | ⟨rfl, rfl, -⟩
    · exact ⟨hcone.1, hcone.2, rfl, h.size.symm, h.lt, rfl⟩
    · exact ⟨hcone.2, hcone.1, h.size.symm, rfl, ⟨h.lt.2, h.lt.1⟩, addOverflows_comm _ _ _⟩
  have hkeep := Keeps.newConst f (f.vn w).size (-(f.vn w).constantValue &&& calcMask (f.vn w).size)
  have h8w : (f.vn w).size ≤ 8 := hws ▸ h.size_le
  have hwlt := (h.graph.const w hconst).2
  refine h.rewrites hs ((Rewritten.refl h.graph.linked.bounded env compop).newConst _ _)
    (hlt.1.trans_le hkeep.le) (newConst_lt f _ _) (hkeep.operandOf hlt.1)
    ((newConst_operandOf _ _).trans (Prod.ext (hws.trans hus.symm) rfl)) fun hv => ?_
  rw [neg_and_calcMask_toNat h8w hwlt.le, hus, hws, ← valueOf_const (e := env) hconst]
  have hpos := h.pos
  have hufit : f.valueOf env u < 2 ^ (8 * (f.vn a).size) := hus ▸ hv.fits u
  have hwfit : f.valueOf env w < 2 ^ (8 * (f.vn a).size) := hws ▸ hv.fits w
  obtain ⟨hsize, hval⟩ := addMatches_sound h.graph h.elements hv hcons (hus ▸ h.size_le)
    (hus.trans hws.symm) hu hw hs.cone.2.2 hsum
  rw [hus] at hsize hval
  refine ⟨hufit, Nat.mod_lt _ (Nat.two_pow_pos _), _, hresult hv.fits, ?_⟩
  rw [hadd, ← hsize, addOverflows_sign hpos hufit hwfit (hsize ▸ hv.fits xvn) hval rfl zside,
    valueOf_const hconst, ← signMask_toNat hpos h.size_le, not_iff_not]
  constructor
  · intro hm
    have hmin : (f.vn w).constantValue = signMask (f.vn w).size := by
      rw [hws]
      exact BitVec.eq_of_toNat_eq hm
    rcases hcases with ⟨rfl, rfl⟩ | ⟨-, -, -, hne⟩
    · exact ⟨u, w, _, h.inrefs, (Bool.or_eq_false_iff.mp hz).1, hconst, hmin, htarget, rfl⟩
    · exact absurd hmin hne
  · rintro ⟨a', b', r, hin, -, hb, hm, -⟩
    rw [h.inrefs] at hin
    cases hin
    rcases hcases with ⟨rfl, rfl⟩ | ⟨-, -, hnot, -⟩
    · rw [hm, hws]
    · rw [hb] at hnot
      cases hnot

/-! `RuleEqual2Zero`. -/

theorem cast_inj {m x y : ℕ} (hx : x < m) (hy : y < m) : (x : ZMod m) = y ↔ x = y := by
  rw [ZMod.natCast_eq_natCast_iff', Nat.mod_eq_of_lt hx, Nat.mod_eq_of_lt hy]

theorem cast_neg {m c : ℕ} (hc : c ≤ m) : (((m - c) % m : ℕ) : ZMod m) = -c := by
  rw [ZMod.natCast_mod, Nat.cast_sub hc, ZMod.natCast_self, zero_sub]

/-- An equality has the same value on other operands where they are equal for the same values. -/
theorem eval_equality {code : OpCode} (hcode : code = .intEqual ∨ code = .intNotequal)
    {s t s' t' x y x' y' : ℕ} (so : ℕ) (h : x = y ↔ x' = y') :
    evalPcode code [(s, x), (t, y)] so = evalPcode code [(s', x'), (t', y')] so := by
  rcases hcode with rfl | rfl
  · rw [eval_equal, eval_equal, some_toNat_eq_iff]
    exact h
  · rw [eval_notequal, eval_notequal, some_toNat_eq_iff]
    exact not_congr h

/-- What `op` reads of an op with two inputs. -/
theorem ValuesAt.binary (hv : f.ValuesAt op env) (hgr : f.RuleGraph) {d : OpId} (hc : Cone f op v)
    (hd : (f.vn v).defOp = some d) (hsem : (f.op d).opcode.hasSemantics = true)
    (hin : (f.op d).inrefs = [a, b]) : evalPcode (f.op d).opcode
      [((f.vn a).size, f.valueOf env a), ((f.vn b).size, f.valueOf env b)] (f.vn v).size =
        some (f.valueOf env v) := by
  have hr := hv.cone hgr hc hd hsem
  rwa [resultOf_two hin] at hr

/-- The negative of a value. -/
theorem multNeg1_spec (op : OpId) (env : VarnodeId → ℕ) (hgr : f.RuleGraph)
    (h : f.multNeg1 v = some a) (h8 : (f.vn v).size ≤ 8) :
    a < f.numVarnodes ∧ (f.vn a).size = (f.vn v).size ∧ (Cone f op v → f.ValuesAt op env →
      (f.valueOf env v : ZMod (2 ^ (8 * (f.vn v).size))) = -(f.valueOf env a)) := by
  unfold multNeg1 at h
  obtain ⟨d, hd, h⟩ := Option.bind_eq_some_iff.mp h
  by_cases hcode : (f.op d).opcode ≠ .intMult
  · rw [if_pos hcode] at h
    cases h
  rw [if_neg hcode] at h
  have hcode := not_not.mp hcode
  obtain ⟨p, q, hin, hp, hq⟩ := hgr.arith_inrefs (hgr.output_of_def hd) (.inr (.inr (.inl hcode)))
  rw [input_zero hin, input_one hin] at h
  simp only [Option.bind_eq_bind, Option.bind_some] at h
  by_cases hm : ((f.vn q).constant && (f.vn q).constantValue == calcMask (f.vn p).size) = true
  swap
  · rw [if_neg hm] at h
    cases h
  rw [if_pos hm] at h
  cases h
  rw [Bool.and_eq_true, beq_iff_eq] at hm
  refine ⟨hgr.lt_of_mem (o := d) (by rw [hin]; simp), hp, fun hc hv => ?_⟩
  obtain ⟨hval, -⟩ := gather_mult hgr hv ⟨hc, rfl⟩ hd hcode hin
  have hq1 : (f.valueOf env q : ZMod (2 ^ (8 * (f.vn v).size))) = -1 := by
    rw [valueOf_const hm.1, hm.2, hp]
    exact word_calcMask h8
  rw [hval, hq1, mul_neg_one]

/-- The comparison with 0 becomes one of `p` and `q`, which are equal for the same values. -/
theorem equal2Zero_rewrites (h : f.Compare op out a b)
    (hcode : (f.op op).opcode = .intEqual ∨ (f.op op).opcode = .intNotequal) {other : VarnodeId}
    (hother : other = a ∧ f.isConst0 b = true ∨ other = b ∧ f.isConst0 a = true) {ins : Operands}
    {s x y : ℕ} (hr : Rewritten f env op g (f.op op).opcode ins) (hins : ins = [(s, x), (s, y)])
    (hiff : f.ValuesAt op env → (f.valueOf env other = 0 ↔ x = y)) :
    RewritesIff f env op out g True := by
  subst hins
  refine RewritesIff.of_eq hr fun hv => ?_
  rw [h.result]
  rcases hother with ⟨rfl, hz⟩ | ⟨rfl, hz⟩
  · rw [valueOf_isConst0 hz]
    exact eval_equality hcode _ (hiff hv).symm
  · rw [valueOf_isConst0 hz]
    exact eval_equality hcode _ ((hiff hv).symm.trans eq_comm)

theorem differenceOf_spec (hgr : f.RuleGraph) {d : OpId} {r : VarnodeId × VarnodeId}
    (hd : (f.vn v).defOp = some d) (hcode : (f.op d).opcode = .intAdd)
    (hin : (f.op d).inrefs = [a, b]) (h : f.differenceOf a b = some r) (h8 : (f.vn v).size ≤ 8) :
    (r.1 < f.numVarnodes ∧ r.2 < f.numVarnodes) ∧ (f.vn r.1).size = (f.vn v).size ∧
      (f.vn r.2).size = (f.vn v).size ∧ (Cone f op v → f.ValuesAt op env →
        (f.valueOf env v : ZMod (2 ^ (8 * (f.vn v).size))) =
          f.valueOf env r.1 - f.valueOf env r.2) := by
  obtain ⟨a', b', hin', ha, hb⟩ := hgr.arith_inrefs (hgr.output_of_def hd) (.inl hcode)
  rw [hin] at hin'
  cases hin'
  have hlt : a < f.numVarnodes ∧ b < f.numVarnodes :=
    ⟨hgr.lt_of_mem (o := d) (by rw [hin]; simp), hgr.lt_of_mem (o := d) (by rw [hin]; simp)⟩
  have hsum : Cone f op v → f.ValuesAt op env →
      (f.valueOf env v : ZMod (2 ^ (8 * (f.vn v).size))) = f.valueOf env a + f.valueOf env b ∧
        Cone f op a ∧ Cone f op b := fun hc hv => by
    obtain ⟨hval, hca, hcb⟩ := gather_add hgr hv ⟨hc, rfl⟩ hd hcode hin
    exact ⟨hval, hca.1, hcb.1⟩
  unfold differenceOf at h
  cases hn : f.multNeg1 a with
  | some u =>
    rw [hn] at h
    cases h
    obtain ⟨hu, hus, hneg⟩ := multNeg1_spec op env hgr hn (ha ▸ h8)
    refine ⟨⟨hlt.2, hu⟩, hb, hus.trans ha, fun hc hv => ?_⟩
    obtain ⟨hval, hca, -⟩ := hsum hc hv
    have hnega := hneg hca hv
    rw [ha] at hnega
    rw [hval, hnega]
    ring
  | none =>
    rw [hn] at h
    obtain ⟨u, hn', rfl⟩ := Option.map_eq_some_iff.mp h
    obtain ⟨hu, hus, hneg⟩ := multNeg1_spec op env hgr hn' (hb ▸ h8)
    refine ⟨⟨hlt.1, hu⟩, ha, hus.trans hb, fun hc hv => ?_⟩
    obtain ⟨hval, -, hcb⟩ := hsum hc hv
    have hnegb := hneg hcb hv
    rw [hb] at hnegb
    rw [hval, hnegb]
    ring

/-- A difference is 0 where its operands are equal. -/
theorem eq_zero_iff {s x y z : ℕ} (hx : x < 2 ^ (8 * s)) (hy : y < 2 ^ (8 * s))
    (hz : z < 2 ^ (8 * s)) (h : (z : ZMod (2 ^ (8 * s))) = x - y) : z = 0 ↔ x = y := by
  rw [← cast_inj hz (Nat.two_pow_pos _), Nat.cast_zero, h, sub_eq_zero, cast_inj hx hy]

theorem equal2Zero_sound (h : f.Compare op out a b)
    (hcode : (f.op op).opcode = .intEqual ∨ (f.op op).opcode = .intNotequal)
    (hg : f.equal2Zero op = some g) (env : VarnodeId → ℕ) : RewritesIff f env op out g True := by
  unfold equal2Zero at hg
  rw [h.inrefs] at hg
  obtain ⟨other, hsel, hg⟩ := Option.bind_eq_some_iff.mp hg
  have hother : other = a ∧ f.isConst0 b = true ∨ other = b ∧ f.isConst0 a = true := by
    unfold otherThanZero at hsel
    split_ifs at hsel with hb ha
    · exact .inl ⟨(Option.some.inj hsel).symm, hb⟩
    · exact .inr ⟨(Option.some.inj hsel).symm, ha⟩
  have hmem : other ∈ (f.op op).inrefs := by
    rw [h.inrefs, List.mem_pair]
    exact hother.imp And.left And.left
  have h8 : (f.vn other).size ≤ 8 := by
    rcases hother with ⟨he, -⟩ | ⟨he, -⟩
    · exact he ▸ h.size_le
    · exact he ▸ h.size_le'
  have hcone : Cone f op other := .input hmem
  unfold equal2ZeroAt at hg
  split at hg
  · cases hg
  obtain ⟨d, hd, hg⟩ := Option.bind_eq_some_iff.mp hg
  have ho := h.graph.output_of_def hd
  -- the difference of two varnodes of the graph
  have hpair : ∀ p q, p < f.numVarnodes → q < f.numVarnodes → (f.vn p).size = (f.vn other).size →
      (f.vn q).size = (f.vn other).size → (f.ValuesAt op env →
        (f.valueOf env other : ZMod (2 ^ (8 * (f.vn other).size))) =
          f.valueOf env p - f.valueOf env q) →
      RewritesIff f env op out (f.opSetAllInput op [p, q]) True := by
    intro p q hp hq hps hqs hdiff
    have hins : [p, q].map (f.operandOf env) = [((f.vn other).size, f.valueOf env p),
        ((f.vn other).size, f.valueOf env q)] := by
      simp only [List.map_cons, List.map_nil, operandOf, hps, hqs]
    refine equal2Zero_rewrites h hcode hother ((h.refl env).opSetAllInput
      (List.forall_mem_cons.mpr ⟨hp, List.forall_mem_singleton.mpr hq⟩)) hins fun hv => ?_
    exact eq_zero_iff (hps ▸ hv.fits p) (hqs ▸ hv.fits q) (hv.fits other) (hdiff hv)
  split at hg
  case h_3 => cases hg
  case h_1 p q hdcode hin =>
    obtain ⟨p', q', hin', hp, hq⟩ := h.graph.arith_inrefs ho (.inr (.inl hdcode))
    rw [hin] at hin'
    cases hin'
    obtain rfl := Option.some.inj hg
    have hlt : ∀ v ∈ [p, q], v < f.numVarnodes := fun v hv =>
      h.graph.lt_of_mem (o := d) (hin ▸ hv)
    refine hpair p q (hlt p (by simp)) (hlt q (by simp)) hp hq fun hv => ?_
    have hval := hv.binary h.graph hcone hd (by rw [hdcode]; rfl) hin
    rw [hdcode] at hval
    have hval : (BitVec.ofNat (8 * (f.vn other).size) (f.valueOf env p) -
        BitVec.ofNat (8 * (f.vn other).size) (f.valueOf env q)).toNat = f.valueOf env other :=
      Option.some.inj hval
    have hqfit : f.valueOf env q < 2 ^ (8 * (f.vn other).size) := hq ▸ hv.fits q
    rw [← hval, BitVec.toNat_sub, BitVec.toNat_ofNat, BitVec.toNat_ofNat, ZMod.natCast_mod,
      Nat.mod_eq_of_lt hqfit, Nat.cast_add, Nat.cast_sub hqfit.le, ZMod.natCast_self,
      ZMod.natCast_mod]
    ring
  case h_2 p q hdcode hin =>
    unfold equal2ZeroAdd at hg
    by_cases hconst : (f.vn q).constant = true
    · rw [if_pos hconst] at hg
      obtain ⟨p', q', hin', hp, hq⟩ := h.graph.arith_inrefs ho (.inl hdcode)
      rw [hin] at hin'
      cases hin'
      obtain rfl := Option.some.inj hg
      have hkeep := Keeps.newConst f (f.vn q).size
        (-(f.vn q).constantValue &&& calcMask (f.vn q).size)
      have hp' : p < f.numVarnodes := h.graph.lt_of_mem (o := d) (by rw [hin]; simp)
      have hqlt := (h.graph.const q hconst).2
      have hnc := neg_and_calcMask_toNat (hq ▸ h8) hqlt.le
      have hins : (f.newConst (f.vn q).size (-(f.vn q).constantValue &&&
          calcMask (f.vn q).size)).1.operandOf env (f.newConst (f.vn q).size
            (-(f.vn q).constantValue &&& calcMask (f.vn q).size)).2 =
          ((f.vn other).size, (-(f.vn q).constantValue &&& calcMask (f.vn q).size).toNat) :=
        (newConst_operandOf _ _).trans (congrArg (Prod.mk · _) hq)
      refine equal2Zero_rewrites h hcode hother (((h.refl env).newConst _ _).opSetAllInput
        (List.forall_mem_cons.mpr ⟨hp'.trans_le hkeep.le,
          List.forall_mem_singleton.mpr (newConst_lt f _ _)⟩))
        (congrArg₂ (fun u w => [u, w]) ((hkeep.operandOf hp').trans (congrArg (Prod.mk · _) hp))
          hins)
        fun hv => ?_
      · rw [hnc, ← valueOf_const (e := env) hconst]
        rw [← valueOf_const (e := env) hconst] at hqlt
        have hval := (gather_add h.graph hv ⟨hcone, rfl⟩ hd hdcode hin).1
        refine eq_zero_iff (hp ▸ hv.fits p) (hq ▸ Nat.mod_lt _ (Nat.two_pow_pos _))
          (hv.fits other) ?_
        rw [hval, hq, cast_neg (hq ▸ hqlt.le), sub_neg_eq_add]
    · rw [if_neg hconst] at hg
      obtain ⟨r, hdiff, hg⟩ := Option.bind_eq_some_iff.mp hg
      split at hg
      · cases hg
      obtain rfl := Option.some.inj hg
      obtain ⟨hlt, hs1, hs2, hval⟩ := differenceOf_spec h.graph hd hdcode hin hdiff h8
      exact hpair _ _ hlt.1 hlt.2 hs1 hs2 fun hv => hval hcone hv

/-! `RuleLessEqual` and `RuleLessNotEqual`. -/

/-- The strict order, signed or not. -/
def lessThan (signed : Bool) (s x y : ℕ) : Bool :=
  if signed then decide (Signed.toInt (8 * s) x < Signed.toInt (8 * s) y) else decide (x < y)

theorem lessThan_ne {signed : Bool} {s x y : ℕ} (h : lessThan signed s x y = true) : x ≠ y := by
  rintro rfl
  unfold lessThan at h
  split_ifs at h
  all_goals simp at h

theorem lessThan_irrefl (signed : Bool) (s x : ℕ) : lessThan signed s x x = false := by
  by_contra h
  exact lessThan_ne (by simpa using h) rfl

/-- Without equality, "not greater" is "less". -/
theorem lessThan_total {signed : Bool} {s x y : ℕ} (hx : x < 2 ^ (8 * s)) (hy : y < 2 ^ (8 * s))
    (hne : x ≠ y) : (!lessThan signed s y x) = lessThan signed s x y := by
  unfold lessThan
  split_ifs
  · have hinj := (Signed.toInt_inj hx hy).not.mpr hne
    rw [← decide_not, decide_eq_decide, not_lt]
    exact ⟨fun h => lt_of_le_of_ne h hinj, le_of_lt⟩
  · rw [← decide_not, decide_eq_decide, not_lt]
    exact ⟨fun h => lt_of_le_of_ne h hne, le_of_lt⟩

theorem eval_lessThan {code : OpCode} (hcode : code = .intLess ∨ code = .intSless) {s x y : ℕ}
    (t so : ℕ) (hx : x < 2 ^ (8 * s)) (hy : y < 2 ^ (8 * s)) :
    evalPcode code [(s, x), (t, y)] so =
      some (lessThan (decide (code = .intSless)) s x y).toNat := by
  rcases hcode with rfl | rfl
  · rfl
  · exact eval_sless t so hx hy

theorem eval_lessThanEqual {code : OpCode} (hcode : code = .intLessequal ∨ code = .intSlessequal)
    {s x y : ℕ} (t so : ℕ) (hx : x < 2 ^ (8 * s)) (hy : y < 2 ^ (8 * s)) :
    evalPcode code [(s, x), (t, y)] so =
      some (!lessThan (decide (code = .intSlessequal)) s y x).toNat := by
  rcases hcode with rfl | rfl
  · rw [eval_lessequal]
    unfold lessThan
    simp only [reduceCtorEq, decide_false, Bool.false_eq_true, if_false, ← decide_not, not_lt]
  · rw [eval_slessequal t so hx hy]
    unfold lessThan
    simp only [decide_true, if_true, ← decide_not, not_lt]

theorem operandOf_of_sameValue {u w : VarnodeId} (h : f.sameValue u w = true) :
    f.operandOf env u = f.operandOf env w := by
  unfold sameValue at h
  simp only [Bool.or_eq_true, Bool.and_eq_true, beq_iff_eq] at h
  rcases h with rfl | ⟨⟨⟨hu, hw⟩, hs⟩, hc⟩
  · rfl
  · unfold operandOf
    rw [hs, valueOf_const hu, valueOf_const hw, hc]

/-- The same pair is equal at the same time. -/
theorem eq_iff_of_samePair {l0 l1 e0 e1 : VarnodeId} (h : f.samePair l0 l1 e0 e1 = true) :
    f.valueOf env e0 = f.valueOf env e1 ↔ f.valueOf env l0 = f.valueOf env l1 := by
  have hval : ∀ {u w : VarnodeId}, f.sameValue u w = true → f.valueOf env u = f.valueOf env w :=
    fun h => congrArg Prod.snd (operandOf_of_sameValue h)
  unfold samePair at h
  simp only [Bool.or_eq_true, Bool.and_eq_true] at h
  rcases h with ⟨h0, h1⟩ | ⟨h0, h1⟩
  · rw [hval h0, hval h1]
  · rw [hval h0, hval h1]
    exact eq_comm

/-- The op that writes a varnode that a rule matches reads two varnodes of one size. -/
theorem compare_of_def (hgr : f.RuleGraph) {d : OpId} {p q : VarnodeId}
    (hd : (f.vn v).defOp = some d) (hin : (f.op d).inrefs = [p, q])
    (hcode : (f.op d).opcode = .intEqual ∨ (f.op d).opcode = .intNotequal ∨
      (f.op d).opcode = .intLess ∨ (f.op d).opcode = .intLessequal ∨
      (f.op d).opcode = .intSless ∨ (f.op d).opcode = .intSlessequal) :
    (f.vn p).size = (f.vn q).size ∧ p < f.numVarnodes ∧ q < f.numVarnodes := by
  have hc : (f.op d).opcode = .intEqual ∨ (f.op d).opcode = .intNotequal ∨
      (f.op d).opcode = .intLess ∨ (f.op d).opcode = .intLessequal ∨
      (f.op d).opcode = .intSless ∨ (f.op d).opcode = .intSlessequal ∨
      (f.op d).opcode = .intCarry ∨ (f.op d).opcode = .intScarry ∨
      (f.op d).opcode = .intSborrow := by
    rcases hcode with h | h | h | h | h | h
    all_goals simp only [h, true_or, or_true]
  obtain ⟨⟨p', q', hin', hs⟩, -⟩ := hgr.compare_inrefs (hgr.output_of_def hd) hc
  rw [hin] at hin'
  cases hin'
  exact ⟨hs, hgr.lt_of_mem (o := d) (by rw [hin]; simp),
    hgr.lt_of_mem (o := d) (by rw [hin]; simp)⟩

/-- A BOOL_OR or a BOOL_AND of two booleans, in either order. -/
theorem result_bool (h : f.Compare op out a b) {u w : VarnodeId}
    (hside : u = a ∧ w = b ∨ u = b ∧ w = a) {p q : Bool} (hu : f.valueOf env u = p.toNat)
    (hw : f.valueOf env w = q.toNat) :
    ((f.op op).opcode = .boolOr → f.resultOf env op out = some (p || q).toNat) ∧
      ((f.op op).opcode = .boolAnd → f.resultOf env op out = some (p && q).toNat) := by
  constructor
  all_goals
    intro hcode
    rw [h.result, hcode]
    rcases hside with ⟨rfl, rfl⟩ | ⟨rfl, rfl⟩
    all_goals
      rw [hu, hw]
      cases p <;> cases q <;> rfl

/-- The two comparisons that feed a BOOL_OR or a BOOL_AND, an order of `l0` and `l1` and an equality
of the same pair. -/
structure FlagPair (f : Funcdata) (op : OpId) (a b lessV equalV : VarnodeId) (lessOp equalOp : OpId)
    (l0 l1 e0 e1 : VarnodeId) : Prop where
  side : lessV = a ∧ equalV = b ∨ lessV = b ∧ equalV = a
  inrefs : (f.op op).inrefs = [a, b]
  less : (f.vn lessV).defOp = some lessOp
  equal : (f.vn equalV).defOp = some equalOp
  lessIn : (f.op lessOp).inrefs = [l0, l1]
  equalIn : (f.op equalOp).inrefs = [e0, e1]
  lessCode : (f.op lessOp).opcode = .intLess ∨ (f.op lessOp).opcode = .intLessequal ∨
    (f.op lessOp).opcode = .intSless ∨ (f.op lessOp).opcode = .intSlessequal
  equalCode : (f.op equalOp).opcode = .intEqual ∨ (f.op equalOp).opcode = .intNotequal
  pair : f.samePair l0 l1 e0 e1 = true

namespace FlagPair

variable {lessV equalV l0 l1 e0 e1 : VarnodeId} {lessOp equalOp : OpId}
  (h : f.FlagPair op a b lessV equalV lessOp equalOp l0 l1 e0 e1)
include h

theorem cone : Cone f op lessV ∧ Cone f op equalV := by
  have hmem : ∀ v ∈ [a, b], Cone f op v := fun v hv => .input (h.inrefs ▸ hv)
  rcases h.side with ⟨rfl, rfl⟩ | ⟨rfl, rfl⟩
  · exact ⟨hmem _ (by simp), hmem _ (by simp)⟩
  · exact ⟨hmem _ (by simp), hmem _ (by simp)⟩

theorem operands (hgr : f.RuleGraph) : (f.vn l0).size = (f.vn l1).size ∧ l0 < f.numVarnodes ∧
    l1 < f.numVarnodes := by
  refine compare_of_def hgr h.less h.lessIn ?_
  rcases h.lessCode with hc | hc | hc | hc
  all_goals simp only [hc, true_or, or_true]

theorem fits (hgr : f.RuleGraph) (hv : f.ValuesAt op env) :
    f.valueOf env l0 < 2 ^ (8 * (f.vn l0).size) ∧ f.valueOf env l1 < 2 ^ (8 * (f.vn l0).size) :=
  ⟨hv.fits l0, (h.operands hgr).1 ▸ hv.fits l1⟩

/-- The value of the order. -/
theorem lessValue (hgr : f.RuleGraph) (hv : f.ValuesAt op env) :
    evalPcode (f.op lessOp).opcode [((f.vn l0).size, f.valueOf env l0),
      ((f.vn l1).size, f.valueOf env l1)] (f.vn lessV).size = some (f.valueOf env lessV) := by
  refine hv.binary hgr h.cone.1 h.less ?_ h.lessIn
  rcases h.lessCode with hc | hc | hc | hc
  all_goals rw [hc]; rfl

/-- The value of the equality. -/
theorem equalValue (hgr : f.RuleGraph) (hv : f.ValuesAt op env) : f.valueOf env equalV =
    (decide (f.valueOf env l0 = f.valueOf env l1) ==
      decide ((f.op equalOp).opcode = .intEqual)).toNat := by
  have hsem : (f.op equalOp).opcode.hasSemantics = true := by
    rcases h.equalCode with hc | hc <;> rw [hc] <;> rfl
  have hval := hv.binary hgr h.cone.2 h.equal hsem h.equalIn
  have hpair : f.valueOf env e0 = f.valueOf env e1 ↔ f.valueOf env l0 = f.valueOf env l1 :=
    eq_iff_of_samePair h.pair
  rcases h.equalCode with hc | hc
  · rw [hc, eval_equal] at hval
    rw [← Option.some.inj hval, hc, decide_eq_decide.mpr hpair, decide_eq_true rfl, Bool.beq_comm,
      Bool.true_beq]
  · rw [hc, eval_notequal] at hval
    rw [← Option.some.inj hval, hc, decide_eq_decide.mpr (not_congr hpair), decide_not]
    cases decide (f.valueOf env l0 = f.valueOf env l1) <;> rfl

/-- `op` becomes an order of the same operands. -/
theorem rewritten (hgr : f.RuleGraph) (code : OpCode) (env : VarnodeId → ℕ) :
    Rewritten f env op ((f.opSetOpcode op code).opSetAllInput op [l0, l1]) code
      [((f.vn l0).size, f.valueOf env l0), ((f.vn l0).size, f.valueOf env l1)] := by
  obtain ⟨hs, h0, h1⟩ := h.operands hgr
  have hr := ((Rewritten.refl hgr.linked.bounded env op).opSetOpcode code).opSetAllInput
    (List.forall_mem_cons.mpr ⟨h0, List.forall_mem_singleton.mpr h1⟩)
  have hins : [l0, l1].map ((f.opSetOpcode op code).operandOf env) =
      [((f.vn l0).size, f.valueOf env l0), ((f.vn l0).size, f.valueOf env l1)] := by
    rw [hs]
    exact congrArg (fun s => [(s, f.valueOf env l0), ((f.vn l1).size, f.valueOf env l1)]) hs
  rwa [hins] at hr

/-- A less or an equality of the same operands. -/
theorem lessEqual_sound (hc : f.Compare op out a b) (hcode : (f.op op).opcode = .boolOr)
    (hless : (f.op lessOp).opcode = .intLess ∨ (f.op lessOp).opcode = .intSless)
    (hg : f.lessEqualAt op lessV equalV = some g) (env : VarnodeId → ℕ) :
    RewritesIff f env op out g True := by
  unfold lessEqualAt at hg
  rw [h.less, h.equal] at hg
  simp only [Option.bind_eq_bind, Option.bind_some, h.lessIn, h.equalIn] at hg
  have hresult : ∀ hv : f.ValuesAt op env, f.resultOf env op out =
      some (lessThan (decide ((f.op lessOp).opcode = .intSless)) (f.vn l0).size (f.valueOf env l0)
        (f.valueOf env l1) || (decide (f.valueOf env l0 = f.valueOf env l1) ==
          decide ((f.op equalOp).opcode = .intEqual))).toNat := by
    intro hv
    have hval := h.lessValue hc.graph hv
    rw [eval_lessThan hless _ _ (h.fits hc.graph hv).1 (h.fits hc.graph hv).2] at hval
    exact (result_bool hc h.side (Option.some.inj hval).symm (h.equalValue hc.graph hv)).1 hcode
  by_cases hknown : (!(f.vn l0).isHeritageKnown || !(f.vn l1).isHeritageKnown) = true
  · rw [if_pos hknown] at hg
    cases hg
  rw [if_neg hknown, h.pair, if_neg (by decide)] at hg
  by_cases hne : (f.op equalOp).opcode = .intNotequal
  · rw [if_pos hne, hc.graph.output_of_def h.equal] at hg
    obtain rfl := Option.some.inj hg
    have hlt := hc.graph.output_lt (hc.graph.output_of_def h.equal)
    refine RewritesIff.of_eq (((Rewritten.refl hc.graph.linked.bounded env op).opSetOpcode
      .copy).opSetAllInput (List.forall_mem_singleton.mpr hlt)) fun hv => ?_
    rw [hresult hv]
    change some (f.valueOf env equalV) = _
    rw [h.equalValue hc.graph hv, hne]
    cases hlt : lessThan (decide ((f.op lessOp).opcode = .intSless)) (f.vn l0).size
      (f.valueOf env l0) (f.valueOf env l1) with
    | false => rw [Bool.false_or]
    | true =>
      rw [decide_eq_false (lessThan_ne hlt)]
      rfl
  · rw [if_neg hne] at hg
    obtain rfl := Option.some.inj hg
    have heq := h.equalCode.resolve_right hne
    refine RewritesIff.of_eq (h.rewritten hc.graph _ env) fun hv => ?_
    obtain ⟨hx, hy⟩ := h.fits hc.graph hv
    have hsigned : decide ((if (f.op lessOp).opcode = .intSless then OpCode.intSlessequal
        else .intLessequal) = .intSlessequal) = decide ((f.op lessOp).opcode = .intSless) := by
      rcases hless with hl | hl <;> rw [hl] <;> rfl
    rw [hresult hv, eval_lessThanEqual (by split_ifs <;> simp) _ _ hx hy, hsigned, heq,
      decide_eq_true rfl, Bool.beq_comm, Bool.true_beq]
    by_cases he : f.valueOf env l0 = f.valueOf env l1
    · rw [he, lessThan_irrefl, decide_eq_true rfl]
      rfl
    · rw [decide_eq_false he, Bool.or_false, lessThan_total hx hy he]

/-- An order that allows equality and an inequality of the same operands. -/
theorem lessNotEqual_sound (hc : f.Compare op out a b) (hcode : (f.op op).opcode = .boolAnd)
    (hless : (f.op lessOp).opcode = .intLessequal ∨ (f.op lessOp).opcode = .intSlessequal)
    (hg : f.lessNotEqualAt op lessOp equalOp = some g) (env : VarnodeId → ℕ) :
    RewritesIff f env op out g True := by
  unfold lessNotEqualAt at hg
  simp only [h.lessIn, h.equalIn] at hg
  by_cases hne : (f.op equalOp).opcode ≠ .intNotequal
  · rw [if_pos hne] at hg
    cases hg
  rw [if_neg hne] at hg
  by_cases hknown : (!(f.vn l0).isHeritageKnown || !(f.vn l1).isHeritageKnown) = true
  · rw [if_pos hknown] at hg
    cases hg
  rw [if_neg hknown, h.pair, if_neg (by decide)] at hg
  obtain rfl := Option.some.inj hg
  refine RewritesIff.of_eq (h.rewritten hc.graph _ env) fun hv => ?_
  obtain ⟨hx, hy⟩ := h.fits hc.graph hv
  have hsigned : decide ((if (f.op lessOp).opcode = .intSlessequal then OpCode.intSless
      else .intLess) = .intSless) = decide ((f.op lessOp).opcode = .intSlessequal) := by
    rcases hless with hl | hl <;> rw [hl] <;> rfl
  have hval := h.lessValue hc.graph hv
  rw [eval_lessThanEqual hless _ _ hx hy] at hval
  rw [(result_bool hc h.side (Option.some.inj hval).symm (h.equalValue hc.graph hv)).2 hcode,
    eval_lessThan (by split_ifs <;> simp) _ _ hx hy, hsigned, not_not.mp hne]
  by_cases he : f.valueOf env l0 = f.valueOf env l1
  · rw [he, lessThan_irrefl, decide_eq_true rfl]
    rfl
  · rw [decide_eq_false he, lessThan_total hx hy he]
    exact congrArg (fun c : Bool => some c.toNat) (Bool.and_true _).symm

end FlagPair

/-- The pair that `RuleLessEqual` finds. -/
theorem lessEqual_sound (hc : f.Compare op out a b) (hcode : (f.op op).opcode = .boolOr)
    (hg : f.lessEqual op = some g) (env : VarnodeId → ℕ) : RewritesIff f env op out g True := by
  have hat : ∀ lessV equalV, (lessV = a ∧ equalV = b ∨ lessV = b ∧ equalV = a) →
      ((f.codeOf lessV == some .intLess || f.codeOf lessV == some .intSless) &&
        (f.codeOf equalV == some .intEqual || f.codeOf equalV == some .intNotequal)) = true →
      f.lessEqualAt op lessV equalV = some g → RewritesIff f env op out g True := by
    intro lessV equalV hside hcodes hg
    obtain ⟨lessOp, hl, hg'⟩ := Option.bind_eq_some_iff.mp hg
    obtain ⟨equalOp, he, hg'⟩ := Option.bind_eq_some_iff.mp hg'
    simp only [Bool.and_eq_true, Bool.or_eq_true, codeOf, hl, he, Option.map_some, beq_iff_eq,
      Option.some.injEq] at hcodes
    split at hg'
    case h_2 => cases hg'
    case h_1 l0 l1 e0 e1 hlin hein =>
    have hpair : f.samePair l0 l1 e0 e1 = true := by
      by_contra hp
      rw [if_pos (show (!f.samePair l0 l1 e0 e1) = true by simpa using hp)] at hg'
      split_ifs at hg'
    refine FlagPair.lessEqual_sound ⟨hside, hc.inrefs, hl, he, hlin, hein, ?_, hcodes.2, hpair⟩ hc
      hcode hcodes.1 hg env
    rcases hcodes.1 with h | h
    all_goals simp only [h, true_or, or_true]
  unfold lessEqual at hg
  rw [hc.inrefs] at hg
  dsimp only at hg
  split_ifs at hg with h1 h2
  · exact hat a b (.inl ⟨rfl, rfl⟩) h1 hg
  · exact hat b a (.inr ⟨rfl, rfl⟩) h2 hg

/-- The pair that `RuleLessNotEqual` finds. -/
theorem lessNotEqual_sound (hc : f.Compare op out a b) (hcode : (f.op op).opcode = .boolAnd)
    (hg : f.lessNotEqual op = some g) (env : VarnodeId → ℕ) : RewritesIff f env op out g True := by
  have hat : ∀ lessV equalV lessOp equalOp, (lessV = a ∧ equalV = b ∨ lessV = b ∧ equalV = a) →
      (f.vn lessV).defOp = some lessOp → (f.vn equalV).defOp = some equalOp →
      ((f.op lessOp).opcode == .intLessequal || (f.op lessOp).opcode == .intSlessequal) = true →
      f.lessNotEqualAt op lessOp equalOp = some g → RewritesIff f env op out g True := by
    intro lessV equalV lessOp equalOp hside hl he hless hg
    simp only [Bool.or_eq_true, beq_iff_eq] at hless
    have hg' := hg
    unfold lessNotEqualAt at hg'
    split at hg'
    case h_2 => cases hg'
    case h_1 l0 l1 e0 e1 hlin hein =>
    have hne : (f.op equalOp).opcode = .intNotequal := by
      by_contra hne
      rw [if_pos hne] at hg'
      cases hg'
    have hpair : f.samePair l0 l1 e0 e1 = true := by
      by_contra hp
      rw [if_neg (not_not.mpr hne), if_pos (show (!f.samePair l0 l1 e0 e1) = true by
        simpa using hp)] at hg'
      split_ifs at hg'
    refine FlagPair.lessNotEqual_sound ⟨hside, hc.inrefs, hl, he, hlin, hein, ?_, .inr hne, hpair⟩
      hc hcode hless hg env
    rcases hless with h | h
    all_goals simp only [h, true_or, or_true]
  unfold lessNotEqual at hg
  rw [hc.inrefs] at hg
  dsimp only at hg
  split at hg
  · cases hg
  obtain ⟨op1, h1, hg⟩ := Option.bind_eq_some_iff.mp hg
  obtain ⟨op2, h2, hg⟩ := Option.bind_eq_some_iff.mp hg
  split_ifs at hg with hle1 hle2
  · exact hat a b op1 op2 (.inl ⟨rfl, rfl⟩) h1 h2 hle1 hg
  · exact hat b a op2 op1 (.inr ⟨rfl, rfl⟩) h2 h1 hle2 hg

end Funcdata

namespace FlagRule

/-- A rule that fires reads two inputs. -/
theorem exists_inputs {f f' : Funcdata} {op : OpId} {r : FlagRule}
    (h : r.applyOp f op = some f') : ∃ a b, (f.op op).inrefs = [a, b] := by
  cases r
  case sborrow =>
    change f.sborrow op = some f' at h
    unfold Funcdata.sborrow at h
    split at h
    · exact ⟨_, _, ‹_›⟩
    · cases h
  case scarry =>
    change f.scarry op = some f' at h
    unfold Funcdata.scarry at h
    split at h
    · exact ⟨_, _, ‹_›⟩
    · cases h
  case equal2Zero =>
    change f.equal2Zero op = some f' at h
    unfold Funcdata.equal2Zero at h
    split at h
    · exact ⟨_, _, ‹_›⟩
    · cases h
  case lessEqual =>
    change f.lessEqual op = some f' at h
    unfold Funcdata.lessEqual at h
    dsimp only at h
    split at h
    · exact ⟨_, _, ‹_›⟩
    · cases h
  case lessNotEqual =>
    change f.lessNotEqual op = some f' at h
    unfold Funcdata.lessNotEqual at h
    dsimp only at h
    split at h
    · exact ⟨_, _, ‹_›⟩
    · cases h

theorem oplist_semantics {r : FlagRule} {c : OpCode} (h : c ∈ r.oplist) :
    c.hasSemantics = true := by
  cases r
  all_goals
    simp only [oplist, List.mem_cons, List.not_mem_nil, or_false] at h
    first
      | subst h
        rfl
      | rcases h with rfl | rfl <;> rfl

/-- Wherever a rule that rebuilds a comparison from flags fires, and whatever values there can be,
each op computes what it did before, but for the comparison that `RuleScarry` rewrites for the
smallest number in slot 1. -/
theorem applyOp_rebuilds {f f' : Funcdata} {op : OpId} {r : FlagRule} (hgr : f.RuleGraph)
    (hel : f.ConstElements) (hcode : (f.op op).opcode ∈ r.oplist)
    (h8 : ∀ v ∈ (f.op op).inrefs, (f.vn v).size ≤ 8) (happ : r.applyOp f op = some f')
    (env : VarnodeId → ℕ) (hcons : f.Consistent env) (o : OpId) (out : VarnodeId)
    (hout : (f.op o).output = some out) (hv : f.ValuesAt o env) :
    f'.resultOf env o out = f.resultOf env o out ↔ ¬(r = scarry ∧ f.ScarryMinimum op o) := by
  obtain ⟨a, b, hin⟩ := exists_inputs happ
  have hmem : a ∈ (f.op op).inrefs := by
    rw [hin]
    exact List.mem_cons_self
  obtain ⟨w, hw⟩ := hgr.exists_output hmem (oplist_semantics hcode)
  have hsizes := hgr.sizes hw
  rw [hin] at hsizes
  -- the two inputs are of one size
  have hs : (f.vn a).size = (f.vn b).size := by
    cases r
    all_goals
      simp only [oplist, List.mem_cons, List.not_mem_nil, or_false] at hcode
    case equal2Zero =>
      rcases hcode with hc | hc
      all_goals
        rw [hc] at hsizes
        obtain ⟨⟨s, hs⟩, -⟩ := hsizes
        simp only [List.map_cons, List.map_nil, List.cons.injEq, and_true] at hs
        exact hs.1.trans hs.2.symm
    case sborrow | scarry =>
      rw [hcode] at hsizes
      obtain ⟨⟨s, hs⟩, -⟩ := hsizes
      simp only [List.map_cons, List.map_nil, List.cons.injEq, and_true] at hs
      exact hs.1.trans hs.2.symm
    case lessEqual | lessNotEqual =>
      rw [hcode] at hsizes
      have hs := hsizes.1
      simp only [List.map_cons, List.map_nil, List.cons.injEq, and_true] at hs
      exact hs.1.trans hs.2.symm
  have hc : f.Compare op w a b := ⟨hgr, hw, hin, hs, h8 a hmem⟩
  cases r with
  | sborrow =>
    have hcode : (f.op op).opcode = .intSborrow := by simpa [oplist] using hcode
    have hflag : f.Flag op w a b := ⟨hgr, hel, hw, .inl hcode, hin, hs, h8 a hmem⟩
    rw [(Funcdata.sborrow_sound hflag hcode hcons happ).result_iff hgr hout hv]
    simp
  | scarry =>
    have hcode : (f.op op).opcode = .intScarry := by simpa [oplist] using hcode
    have hflag : f.Flag op w a b := ⟨hgr, hel, hw, .inr hcode, hin, hs, h8 a hmem⟩
    rw [(Funcdata.scarry_sound hflag hcode hcons happ).result_iff hgr hout hv]
    simp
  | equal2Zero =>
    have hr := Funcdata.equal2Zero_sound hc (by simpa [oplist] using hcode) happ env
    rw [(hr.rebuilds hw).result_iff hgr hout hv]
    simp
  | lessEqual =>
    have hr := Funcdata.lessEqual_sound hc (by simpa [oplist] using hcode) happ env
    rw [(hr.rebuilds hw).result_iff hgr hout hv]
    simp
  | lessNotEqual =>
    have hr := Funcdata.lessNotEqual_sound hc (by simpa [oplist] using hcode) happ env
    rw [(hr.rebuilds hw).result_iff hgr hout hv]
    simp

/-- `v7 = scarry(v0, 0x80) != (v0 + 0x80 s< 0)`, 1 byte wide. -/
def minimumGraph : Funcdata where
  spaces := SpaceManager.standard false
  vn v :=
    if v = 0 then { loc := ⟨2, 0⟩, size := 1, input := true, insert := true, descend := [0, 1],
                    nzm := calcMask 1 }
    else if v = 1 then { loc := ⟨0, 0x80⟩, size := 1, constant := true, descend := [0],
                         nzm := 0x80 }
    else if v = 2 then { loc := ⟨0, 0x80⟩, size := 1, constant := true, descend := [1],
                         nzm := 0x80 }
    else if v = 3 then { loc := ⟨3, 0⟩, size := 1, written := true, insert := true,
                         defOp := some 0, descend := [3], nzm := 1 }
    else if v = 4 then { loc := ⟨3, 1⟩, size := 1, written := true, insert := true,
                         defOp := some 1, descend := [2], nzm := calcMask 1 }
    else if v = 5 then { loc := ⟨0, 0⟩, size := 1, constant := true, descend := [2], nzm := 0 }
    else if v = 6 then { loc := ⟨3, 2⟩, size := 1, written := true, insert := true,
                         defOp := some 2, descend := [3], nzm := 1 }
    else if v = 7 then { loc := ⟨3, 3⟩, size := 1, written := true, insert := true,
                         defOp := some 3, nzm := 1 }
    else default
  numVarnodes := 8
  op o :=
    if o = 0 then { opcode := .intScarry, parent := some 0, output := some 3, inrefs := [0, 1] }
    else if o = 1 then { opcode := .intAdd, parent := some 0, output := some 4, inrefs := [0, 2] }
    else if o = 2 then { opcode := .intSless, parent := some 0, output := some 6, inrefs := [4, 5] }
    else if o = 3 then { opcode := .intNotequal, parent := some 0, output := some 7,
                         inrefs := [3, 6] }
    else default
  numOps := 4
  blocks := [{ ops := [0, 1, 2, 3] }]

/-- `v0` is 5. -/
def minimumValues (v : VarnodeId) : ℕ :=
  if v = 0 then 5 else if v = 4 then 0x85 else if v = 6 then 1 else if v = 7 then 1 else 0

theorem ruleGraph_minimum : minimumGraph.RuleGraph where
  linked := by
    refine ⟨fun v hv => ?_, fun o ho => ?_, fun v o => ?_, fun o hd => ?_, fun v o => ?_,
      fun v hv => ?_, fun v hv => ?_, fun v hv => ?_⟩
    · rcases v with _ | _ | _ | _ | _ | _ | _ | _ | v <;> simp [minimumGraph] at hv ⊢
      exact ⟨rfl, rfl⟩
    · rcases o with _ | _ | _ | _ | o <;> simp [minimumGraph] at ho ⊢
      exact ⟨rfl, rfl⟩
    · rcases v with _ | _ | _ | _ | _ | _ | _ | _ | v <;>
        rcases o with _ | _ | _ | _ | o <;> simp [minimumGraph]
      all_goals rfl
    · rcases o with _ | _ | _ | _ | o <;> simp [minimumGraph] at hd
    · rcases v with _ | _ | _ | _ | _ | _ | _ | _ | v <;>
        rcases o with _ | _ | _ | _ | o <;> simp [minimumGraph]
    · change v < 8 at hv
      interval_cases v <;> rfl
    · change v < 8 at hv
      interval_cases v <;> rfl
    · change v < 8 at hv
      interval_cases v <;> decide
  opWf op out hout := by
    rcases op with _ | _ | _ | _ | op
    · cases hout
      exact ⟨⟨⟨1, rfl⟩, rfl⟩, by decide, by decide, fun he => by cases he⟩
    · cases hout
      exact ⟨rfl, by decide, by decide, fun he => by cases he⟩
    · cases hout
      exact ⟨⟨⟨1, rfl⟩, rfl⟩, by decide, by decide, fun he => by cases he⟩
    · cases hout
      exact ⟨⟨⟨1, rfl⟩, rfl⟩, by decide, by decide, fun he => by cases he⟩
    · cases hout
  computes op hop _ _ := by
    change op < 4 at hop
    interval_cases op
    · exact ⟨3, rfl⟩
    · exact ⟨4, rfl⟩
    · exact ⟨6, rfl⟩
    · exact ⟨7, rfl⟩
  const v hc := by
    rcases v with _ | _ | _ | _ | _ | _ | _ | _ | v <;> simp [minimumGraph] at hc ⊢
    all_goals decide

theorem valuesAt_minimum : minimumGraph.ValuesAt 3 minimumValues where
  fits v := by
    rcases v with _ | _ | _ | _ | _ | _ | _ | _ | v
    all_goals first | decide | exact Nat.one_pos
  masked v hv := by
    change v < 8 at hv
    interval_cases v <;> decide
  computed _ _ d _ _ out hout := by
    rcases d with _ | _ | _ | _ | d
    · cases hout
      decide
    · cases hout
      decide
    · cases hout
      decide
    · cases hout
      decide
    · cases hout

theorem constElements_minimum : minimumGraph.ConstElements := by
  intro d hd
  rcases d with _ | _ | _ | _ | d
  all_goals cases hd

theorem consistent_minimum : minimumGraph.Consistent minimumValues := by
  intro v1 v2 d hd hsem
  rcases v1 with _ | _ | _ | _ | _ | _ | _ | _ | v1
  all_goals
    cases hd
    try cases hsem

/-- The rule fires for the smallest number in slot 1, and the comparison has another value. -/
theorem applyOp_rebuilds_minimum : ∃ f', scarry.applyOp minimumGraph 0 = some f' ∧
    (f'.resultOf minimumValues 3 7 = minimumGraph.resultOf minimumValues 3 7 ↔
      ¬(scarry = scarry ∧ minimumGraph.ScarryMinimum 0 3)) :=
  ⟨_, rfl, applyOp_rebuilds ruleGraph_minimum constElements_minimum (r := scarry) (by decide)
    (by decide) rfl _ consistent_minimum 3 7 rfl valuesAt_minimum⟩

/-- For 5, `scarry(v0, -128) != (v0 - 128 s< 0)` is true, but `v0 s< -128` is not. -/
theorem applyOp_not_rebuilds : ¬∀ (f f' : Funcdata) (op : OpId) (r : FlagRule), f.RuleGraph →
    f.ConstElements → (f.op op).opcode ∈ r.oplist →
    (∀ v ∈ (f.op op).inrefs, (f.vn v).size ≤ 8) → r.applyOp f op = some f' →
    ∀ (env : VarnodeId → ℕ), f.Consistent env → ∀ (o : OpId) (out : VarnodeId),
    (f.op o).output = some out → f.ValuesAt o env →
    f'.resultOf env o out = f.resultOf env o out := by
  intro h
  have hbad := h minimumGraph _ 0 scarry ruleGraph_minimum constElements_minimum (by decide)
    (by decide) rfl minimumValues consistent_minimum 3 7 rfl valuesAt_minimum
  exact absurd hbad (by decide)

end FlagRule
end Mosura
