import Mosura.CompareRules
import Mosura.Lib.Signed
import Mosura.MaskBits

/-! When a rule that normalises a comparison keeps its truth value. -/

namespace Mosura
open Window

/-! The constants at the boundaries of a range. -/

theorem calcMask_toNat {s : ℕ} (h8 : s ≤ 8) : (calcMask s).toNat = 2 ^ (8 * s) - 1 := by
  apply Nat.eq_of_testBit_eq
  intro i
  rw [Nat.testBit_two_pow_sub_one]
  refine (calcMask_getLsbD s i).trans ?_
  rw [← Bool.decide_and]
  exact decide_eq_decide.mpr (by omega)

theorem and_calcMask_toNat (v : U64) {s : ℕ} (h8 : s ≤ 8) :
    (v &&& calcMask s).toNat = v.toNat % 2 ^ (8 * s) := by
  rw [BitVec.toNat_and, calcMask_toNat h8, Nat.and_two_pow_sub_one_eq_mod]

theorem eq_calcMask_iff (v : U64) {s : ℕ} (h8 : s ≤ 8) :
    v = calcMask s ↔ v.toNat = 2 ^ (8 * s) - 1 := by
  rw [← BitVec.toNat_inj, calcMask_toNat h8]

namespace Funcdata

theorem signMask_getLsbD {s : ℕ} (h0 : 0 < s) (h8 : s ≤ 8) (i : ℕ) :
    (signMask s).getLsbD i = decide (i = 8 * s - 1) := by
  unfold signMask
  rw [BitVec.getLsbD_xor, BitVec.getLsbD_ushiftRight, calcMask_getLsbD, calcMask_getLsbD]
  by_cases hi : i = 8 * s - 1
  · subst hi
    simp only [show 8 * s - 1 < 64 by omega, show 8 * s - 1 < 8 * s by omega,
      show ¬1 + (8 * s - 1) < 8 * s by omega, decide_true, decide_false, Bool.and_true,
      Bool.and_false, Bool.bne_false]
  · rw [decide_eq_false hi]
    by_cases hlt : i < 8 * s
    · simp only [show i < 64 by omega, hlt, show 1 + i < 64 by omega, show 1 + i < 8 * s by omega,
        decide_true, Bool.and_true, Bool.xor_self]
    · simp only [hlt, show ¬1 + i < 8 * s by omega, decide_false, Bool.and_false,
        Bool.bne_false]

theorem signMask_toNat {s : ℕ} (h0 : 0 < s) (h8 : s ≤ 8) :
    (signMask s).toNat = 2 ^ (8 * s - 1) := by
  apply Nat.eq_of_testBit_eq
  intro i
  rw [Nat.testBit_two_pow]
  refine (signMask_getLsbD h0 h8 i).trans ?_
  exact decide_eq_decide.mpr eq_comm

/-- The sign bit as the lowest bit that is set in no smaller number. -/
theorem two_mul_ge_iff_testBit {s x : ℕ} (h0 : 0 < s) (hx : x < 2 ^ (8 * s)) :
    2 ^ (8 * s) ≤ 2 * x ↔ x.testBit (8 * s - 1) = true := by
  rw [Signed.two_pow_half (show 0 < 8 * s by omega)] at *
  generalize 8 * s - 1 = k at *
  rw [Nat.testBit_eq_decide_div_mod_eq, decide_eq_true_eq]
  constructor
  · intro h
    have hq : x / 2 ^ k = 1 := Nat.div_eq_of_lt_le (by omega) (by omega)
    rw [hq]
  · intro h
    by_contra hlt
    rw [Nat.div_eq_of_lt (by omega)] at h
    cases h

/-- A mask without the sign bit says the value is not negative. -/
theorem not_neg_of_masked {s x : ℕ} {m : U64} (h0 : 0 < s) (h8 : s ≤ 8) (hx : x < 2 ^ (8 * s))
    (hm : Covers m x) (hb : m.getLsbD (8 * s - 1) = false) : 2 * x < 2 ^ (8 * s) := by
  by_contra hlt
  have hbit := (two_mul_ge_iff_testBit h0 hx).mp (not_lt.mp hlt)
  rw [covers_iff.mp hm (8 * s - 1) (by omega) hbit] at hb
  cases hb

/-- A value whose mask is the sign bit is 0 or the sign bit. -/
theorem eq_or_of_signMask {s x : ℕ} (h0 : 0 < s) (h8 : s ≤ 8) (hx : x < 2 ^ (8 * s))
    (hm : Covers (signMask s) x) : x = 0 ∨ 2 * x = 2 ^ (8 * s) := by
  have hx64 : x < 2 ^ 64 := hx.trans_le (Nat.pow_le_pow_right two_pos (by omega))
  have hle := le_toNat_of_covers hm hx64
  have hdvd : 2 ^ (8 * s - 1) ∣ x := two_pow_dvd_of_covers hm hx64 fun i hi => by
    rw [signMask_getLsbD h0 h8]
    exact decide_eq_false (by omega)
  rw [signMask_toNat h0 h8] at hle
  rw [Signed.two_pow_half (show 0 < 8 * s by omega)]
  rcases Nat.eq_zero_or_pos x with hz | hpos
  · exact .inl hz
  · have hge := Nat.le_of_dvd hpos hdvd
    exact .inr (by omega)

/-! The rules on the two operands of a comparison. -/

variable {f g : Funcdata} {env : VarnodeId → ℕ} {op : OpId} {out a b : VarnodeId}

/-- `g` is `f` with `op` rewritten, and from the values `env` it computes the same exactly where `P`
holds. -/
def RewritesIff (f : Funcdata) (env : VarnodeId → ℕ) (op : OpId) (out : VarnodeId) (g : Funcdata)
    (P : Prop) : Prop :=
  ∃ code ins, Rewritten f env op g code ins ∧
    (f.ValuesAt op env → (evalPcode code ins (f.vn out).size = f.resultOf env op out ↔ P))

theorem RewritesIff.of_eq {code : OpCode} {ins : Operands} (h : Rewritten f env op g code ins)
    (he : f.ValuesAt op env → evalPcode code ins (f.vn out).size = f.resultOf env op out) :
    RewritesIff f env op out g True :=
  ⟨code, ins, h, fun hv => iff_of_true (he hv) trivial⟩

/-- A rewrite of one op as seen from every op. -/
theorem RewritesIff.result_iff {o : OpId} {w : VarnodeId} {P : Prop} (hgr : f.RuleGraph)
    (h : RewritesIff f env op w g P) (hw : (f.op op).output = some w)
    (hout : (f.op o).output = some out) (hv : f.ValuesAt o env) :
    g.resultOf env o out = f.resultOf env o out ↔ (o = op → P) := by
  obtain ⟨code, ins, hr, hiff⟩ := h
  by_cases ho : o = op
  · subst ho
    obtain rfl := Option.some.inj (hw.symm.trans hout)
    rw [hr.result (hgr.output_lt hout), hiff hv]
    exact ⟨fun hp _ => hp, fun hp => hp rfl⟩
  · rw [hr.result_other hgr.linked.bounded (hgr.output_lt hout) ho]
    exact iff_of_true rfl fun he => absurd he ho

/-- Two truth values are the same number where the conditions are equivalent. -/
theorem some_toNat_eq_iff {p q : Prop} [Decidable p] [Decidable q] :
    some (decide p).toNat = some (decide q).toNat ↔ (p ↔ q) := by
  by_cases hp : p
  all_goals
    by_cases hq : q
    all_goals simp [hp, hq]

theorem some_toNat_of {p : Prop} [Decidable p] (h : p) :
    some true.toNat = some (decide p).toNat := by
  rw [decide_eq_true h]

theorem some_toNat_of_not {p : Prop} [Decidable p] (h : ¬p) :
    some false.toNat = some (decide p).toNat := by
  rw [decide_eq_false h]

theorem eval_equal (s t so x y : ℕ) :
    evalPcode .intEqual [(s, x), (t, y)] so = some (decide (x = y)).toNat := by
  change some (x == y).toNat = _
  rw [beq_eq_decide]

theorem eval_notequal (s t so x y : ℕ) :
    evalPcode .intNotequal [(s, x), (t, y)] so = some (decide (x ≠ y)).toNat := by
  change some (x != y).toNat = _
  rw [bne, beq_eq_decide, decide_not]

theorem eval_less (s t so x y : ℕ) :
    evalPcode .intLess [(s, x), (t, y)] so = some (decide (x < y)).toNat := rfl

theorem eval_lessequal (s t so x y : ℕ) :
    evalPcode .intLessequal [(s, x), (t, y)] so = some (decide (x ≤ y)).toNat := rfl

theorem eval_sless {s x y : ℕ} (t so : ℕ) (hx : x < 2 ^ (8 * s)) (hy : y < 2 ^ (8 * s)) :
    evalPcode .intSless [(s, x), (t, y)] so =
      some (decide (Signed.toInt (8 * s) x < Signed.toInt (8 * s) y)).toNat := by
  rw [← Signed.slt_ofNat hx hy]
  rfl

theorem eval_slessequal {s x y : ℕ} (t so : ℕ) (hx : x < 2 ^ (8 * s)) (hy : y < 2 ^ (8 * s)) :
    evalPcode .intSlessequal [(s, x), (t, y)] so =
      some (decide (Signed.toInt (8 * s) x ≤ Signed.toInt (8 * s) y)).toNat := by
  rw [← Signed.sle_ofNat hx hy]
  rfl

theorem eval_carry (s t so x y : ℕ) :
    evalPcode .intCarry [(s, x), (t, y)] so = some (decide (2 ^ (8 * s) ≤ x + y)).toNat := rfl

theorem eval_copyBool (so : ℕ) (c : Bool) : evalPcode .copy [(1, c.toNat)] so = some c.toNat := rfl

theorem valueOf_zero (hc : (f.vn a).constant = true) (hz : (f.vn a).constantValue = 0) :
    f.valueOf env a = 0 := by
  rw [valueOf_const hc, hz]
  rfl

theorem valueOf_mask (hc : (f.vn a).constant = true)
    (hm : (f.vn a).constantValue = calcMask (f.vn a).size) (h8 : (f.vn a).size ≤ 8) :
    f.valueOf env a = 2 ^ (8 * (f.vn a).size) - 1 := by
  rw [valueOf_const hc, hm, calcMask_toNat h8]

/-- A comparison with two inputs as a rule reads it. -/
structure Compare (f : Funcdata) (op : OpId) (out a b : VarnodeId) : Prop where
  graph : f.RuleGraph
  output : (f.op op).output = some out
  inrefs : (f.op op).inrefs = [a, b]
  size : (f.vn a).size = (f.vn b).size
  size_le : (f.vn a).size ≤ 8

namespace Compare

variable (h : f.Compare op out a b)
include h

theorem input0 : (f.op op).input 0 = some a := input_zero h.inrefs

theorem input1 : (f.op op).input 1 = some b := input_one h.inrefs

theorem pos : 0 < (f.vn a).size := by
  refine h.graph.size_pos (o := op) ?_ h.output
  rw [h.inrefs]
  exact List.mem_cons_self

theorem lt_left : a < f.numVarnodes := h.graph.lt_of_mem (o := op) (by rw [h.inrefs]; simp)

theorem lt_right : b < f.numVarnodes := h.graph.lt_of_mem (o := op) (by rw [h.inrefs]; simp)

theorem operands : f.operandsOf env op =
    [((f.vn a).size, f.valueOf env a), ((f.vn b).size, f.valueOf env b)] := by
  unfold operandsOf
  rw [h.inrefs]
  rfl

theorem size_le' : (f.vn b).size ≤ 8 := h.size ▸ h.size_le

theorem pos' : 0 < (f.vn b).size := h.size ▸ h.pos

theorem result : f.resultOf env op out = evalPcode (f.op op).opcode
    [((f.vn a).size, f.valueOf env a), ((f.vn b).size, f.valueOf env b)] (f.vn out).size := by
  unfold resultOf
  rw [h.operands]

theorem refl (env : VarnodeId → ℕ) : Rewritten f env op f (f.op op).opcode
    [((f.vn a).size, f.valueOf env a), ((f.vn b).size, f.valueOf env b)] := by
  have hr := Rewritten.refl h.graph.linked.bounded env op
  rwa [h.operands] at hr

theorem copyBool (env : VarnodeId → ℕ) (val : Bool) :
    Rewritten f env op (f.copyBool op val) .copy [(1, val.toNat)] := by
  have hr := ((((h.refl env).opSetOpcode .copy).opRemoveInput 1).setConstInput (k := 0)
    (n := 1) (c := Rules.ofBool val) (by simp))
  have hval : (Rules.ofBool val).toNat = val.toNat := by cases val <;> rfl
  rw [hval] at hr
  exact hr

end Compare

theorem less2Zero_sound (h : f.Compare op out a b) (hcode : (f.op op).opcode = .intLess)
    (hg : f.less2Zero op = some g) (env : VarnodeId → ℕ) : RewritesIff f env op out g True := by
  unfold less2Zero at hg
  simp only [h.input0, h.input1, Option.bind_eq_bind, Option.bind_some] at hg
  have hpos := Nat.two_pow_pos (8 * (f.vn a).size)
  split at hg
  case isTrue hc =>
    split at hg
    case isTrue hz =>
      -- `0 < V` is `0 != V`
      cases hg
      refine .of_eq ((h.refl env).opSetOpcode _) fun _ => ?_
      rw [h.result, hcode, eval_notequal, eval_less, some_toNat_eq_iff, valueOf_zero hc hz]
      omega
    case isFalse =>
      split at hg
      case isTrue hm =>
        -- nothing is greater than the maximum
        cases hg
        refine .of_eq (h.copyBool env false) fun hv => ?_
        have hb := hv.fits b
        rw [h.result, hcode, eval_copyBool, eval_less, valueOf_mask hc hm h.size_le, h.size]
        exact some_toNat_of_not (by omega)
      case isFalse => cases hg
  case isFalse =>
    split at hg
    case isTrue hc =>
      split at hg
      case isTrue hz =>
        -- nothing is less than 0
        cases hg
        refine .of_eq (h.copyBool env false) fun _ => ?_
        rw [h.result, hcode, eval_copyBool, eval_less, valueOf_zero hc hz]
        exact some_toNat_of_not (by omega)
      case isFalse =>
        split at hg
        case isTrue hm =>
          -- `V < max` is `V != max`
          cases hg
          refine .of_eq ((h.refl env).opSetOpcode _) fun hv => ?_
          have ha := hv.fits a
          rw [h.result, hcode, eval_notequal, eval_less, some_toNat_eq_iff,
            valueOf_mask hc hm h.size_le', ← h.size]
          omega
        case isFalse => cases hg
    case isFalse => cases hg

theorem lessEqual2Zero_sound (h : f.Compare op out a b) (hcode : (f.op op).opcode = .intLessequal)
    (hg : f.lessEqual2Zero op = some g) (env : VarnodeId → ℕ) :
    RewritesIff f env op out g True := by
  unfold lessEqual2Zero at hg
  simp only [h.input0, h.input1, Option.bind_eq_bind, Option.bind_some, hcode, ne_eq,
    not_true_eq_false, if_false] at hg
  have hpos := Nat.two_pow_pos (8 * (f.vn a).size)
  split at hg
  case isTrue hc =>
    split at hg
    case isTrue hz =>
      -- nothing is less than 0
      cases hg
      refine .of_eq (h.copyBool env true) fun _ => ?_
      rw [h.result, hcode, eval_copyBool, eval_lessequal, valueOf_zero hc hz]
      exact some_toNat_of (Nat.zero_le _)
    case isFalse =>
      split at hg
      case isTrue hm =>
        -- only the maximum is at least the maximum
        cases hg
        refine .of_eq ((h.refl env).opSetOpcode _) fun hv => ?_
        have hb := hv.fits b
        rw [h.result, hcode, eval_equal, eval_lessequal, some_toNat_eq_iff,
          valueOf_mask hc hm h.size_le, h.size]
        omega
      case isFalse => cases hg
  case isFalse =>
    split at hg
    case isTrue hc =>
      split at hg
      case isTrue hz =>
        -- only 0 is at most 0
        cases hg
        refine .of_eq ((h.refl env).opSetOpcode _) fun _ => ?_
        rw [h.result, hcode, eval_equal, eval_lessequal, some_toNat_eq_iff, valueOf_zero hc hz]
        omega
      case isFalse =>
        split at hg
        case isTrue hm =>
          -- everything is at most the maximum
          cases hg
          refine .of_eq (h.copyBool env true) fun hv => ?_
          have ha := hv.fits a
          rw [h.result, hcode, eval_copyBool, eval_lessequal, valueOf_mask hc hm h.size_le',
            ← h.size]
          exact some_toNat_of (by omega)
        case isFalse => cases hg
    case isFalse => cases hg

theorem lessOne_sound (h : f.Compare op out a b)
    (hcode : (f.op op).opcode = .intLess ∨ (f.op op).opcode = .intLessequal)
    (hg : f.lessOne op = some g) (env : VarnodeId → ℕ) : RewritesIff f env op out g True := by
  unfold lessOne at hg
  simp only [h.input1, Option.bind_eq_bind, Option.bind_some] at hg
  split at hg
  case isTrue => cases hg
  case isFalse hc =>
    have hval := valueOf_const (e := env) (f := f) (v := b) (by simpa using hc)
    split at hg
    case isTrue => cases hg
    case isFalse hless =>
      split at hg
      case isTrue => cases hg
      case isFalse hlessequal =>
        rcases hcode with hcode | hcode
        · -- `V < 1`
          have hone : (f.vn b).constantValue = 1 := by
            by_contra hne
            exact hless ⟨hcode, hne⟩
          rw [hone] at hg hval
          cases hg
          refine .of_eq (((h.refl env).opSetOpcode _).setConstInput (k := 1) (by simp)) fun _ => ?_
          rw [h.result, hcode, hval, eval_less]
          refine (eval_equal _ _ _ _ _).trans (some_toNat_eq_iff.mpr ?_)
          change f.valueOf env a = 0 ↔ f.valueOf env a < 1
          omega
        · -- `V <= 0`
          have hzero : (f.vn b).constantValue = 0 := by
            by_contra hne
            exact hlessequal ⟨hcode, hne⟩
          rw [hzero] at hg hval
          cases hg
          refine .of_eq ((h.refl env).opSetOpcode _) fun _ => ?_
          rw [h.result, hcode, hval, eval_lessequal, eval_equal, some_toNat_eq_iff]
          change f.valueOf env a = 0 ↔ f.valueOf env a ≤ 0
          omega

theorem and_signMask_eq_zero (m : U64) {s : ℕ} (h0 : 0 < s) (h8 : s ≤ 8) :
    m &&& signMask s = 0 ↔ m.getLsbD (8 * s - 1) = false := by
  constructor
  · intro h
    have hb := congrArg (fun w : U64 => w.getLsbD (8 * s - 1)) h
    simpa [signMask_getLsbD h0 h8] using hb
  · intro h
    apply BitVec.eq_of_getLsbD_eq
    intro i _
    rw [BitVec.getLsbD_and, signMask_getLsbD h0 h8]
    by_cases hi : i = 8 * s - 1
    · rw [hi, h, Bool.false_and]
      exact BitVec.getLsbD_zero.symm
    · rw [decide_eq_false hi, Bool.and_false]
      exact BitVec.getLsbD_zero.symm

theorem signbitNegative_eq_false {m : U64} {s : ℕ} (h0 : 0 < s) (h8 : s ≤ 8)
    (h : signbitNegative m s ≠ true) : m.getLsbD (8 * s - 1) = false := by
  have hbit : Rules.checkedShl 0x80 (8 * (s - 1)) = signMask s := by
    interval_cases s <;> rfl
  unfold signbitNegative at h
  rw [hbit] at h
  refine (and_signMask_eq_zero m h0 h8).mp ?_
  by_contra hne
  refine h ?_
  rw [Bool.and_eq_true, bne_iff_ne, bne_iff_ne]
  exact ⟨by omega, hne⟩

theorem unsignedOf_cases {c c' : OpCode} (h : c.unsignedOf = some c') :
    c = .intSless ∧ c' = .intLess ∨ c = .intSlessequal ∧ c' = .intLessequal := by
  unfold OpCode.unsignedOf at h
  split at h
  · exact .inl ⟨rfl, (Option.some.inj h).symm⟩
  · exact .inr ⟨rfl, (Option.some.inj h).symm⟩
  · cases h

theorem slessToLess_sound (h : f.Compare op out a b)
    (hg : f.slessToLess op = some g) (env : VarnodeId → ℕ) : RewritesIff f env op out g True := by
  have hn : ∀ {m : U64}, ¬signbitNegative m (f.vn a).size = true →
      m.getLsbD (8 * (f.vn a).size - 1) = false := signbitNegative_eq_false h.pos h.size_le
  unfold slessToLess at hg
  obtain ⟨newOp, hnew, hg⟩ := Option.bind_eq_some_iff.mp hg
  simp only [h.input0, h.input1, Option.bind_eq_bind, Option.bind_some] at hg
  split at hg
  case isTrue => cases hg
  case isFalse hna =>
    split at hg
    case isTrue => cases hg
    case isFalse hnb =>
      cases hg
      refine .of_eq ((h.refl env).opSetOpcode _) fun hv => ?_
      have ha := hv.fits a
      have hb := hv.fits b
      rw [← h.size] at hb
      -- both operands are not negative, so both readings of them agree
      have hpa := not_neg_of_masked h.pos h.size_le ha (hv.masked a h.lt_left) (hn hna)
      have hpb := not_neg_of_masked h.pos h.size_le hb (hv.masked b h.lt_right) (hn hnb)
      rw [h.result]
      rcases unsignedOf_cases hnew with ⟨hcode, rfl⟩ | ⟨hcode, rfl⟩
      · rw [hcode, eval_less, eval_sless _ _ ha hb, some_toNat_eq_iff, Signed.toInt_of_lt hpa,
          Signed.toInt_of_lt hpb, Nat.cast_lt]
      · rw [hcode, eval_lessequal, eval_slessequal _ _ ha hb, some_toNat_eq_iff,
          Signed.toInt_of_lt hpa, Signed.toInt_of_lt hpb, Nat.cast_le]

/-- The two's complement of a constant that is not 0. -/
theorem neg_mod {m c : ℕ} (hm : m ∣ 2 ^ 64) (hc : c < m) (h0 : c ≠ 0) :
    (2 ^ 64 - c) % m = m - c := by
  obtain ⟨k, hk⟩ := hm
  obtain ⟨j, rfl⟩ : ∃ j, k = j + 1 := Nat.exists_eq_succ_of_ne_zero fun h => by
    rw [h] at hk
    cases hk
  rw [hk, show m * (j + 1) - c = (m - c) + m * j by rw [Nat.mul_succ]; omega,
    Nat.add_mul_mod_self_left, Nat.mod_eq_of_lt (by omega)]

theorem neg_and_calcMask {v : U64} {s : ℕ} (h8 : s ≤ 8) (hv : v.toNat < 2 ^ (8 * s)) (h0 : v ≠ 0) :
    (-v &&& calcMask s).toNat = 2 ^ (8 * s) - v.toNat := by
  have h0' : v.toNat ≠ 0 := fun h => h0 (BitVec.eq_of_toNat_eq h)
  rw [and_calcMask_toNat _ h8, BitVec.toNat_neg, Nat.mod_mod_of_dvd _ (pow_dvd_pow 2 (by omega))]
  exact neg_mod (pow_dvd_pow 2 (by omega)) hv h0'

theorem carryElim_sound (h : f.Compare op out a b) (hcode : (f.op op).opcode = .intCarry)
    (hg : f.carryElim op = some g) (env : VarnodeId → ℕ) : RewritesIff f env op out g True := by
  unfold carryElim at hg
  simp only [h.input0, h.input1, Option.bind_eq_bind, Option.bind_some] at hg
  split at hg
  case isTrue => cases hg
  case isFalse hc =>
    have hc : (f.vn b).constant = true := by simpa using hc
    split at hg
    case isTrue => cases hg
    case isFalse =>
      split at hg
      case isTrue hz =>
        -- nothing is carried into 0
        cases hg
        refine .of_eq (h.copyBool env false) fun hv => ?_
        have ha := hv.fits a
        rw [h.result, hcode, eval_copyBool, eval_carry, valueOf_zero hc hz]
        exact some_toNat_of_not (by omega)
      case isFalse hz =>
        cases hg
        have hr := (((h.refl env).opSetOpcode .intLessequal).setInput (k := 1) h.lt_left
          (by simp)).setConstInput (k := 0) (n := (f.vn a).size)
          (c := -(f.vn b).constantValue &&& calcMask (f.vn b).size) (by simp)
        refine .of_eq hr fun hv => ?_
        have ha := hv.fits a
        have hb := hv.fits b
        have hval := valueOf_const (e := env) hc
        rw [hval] at hb
        rw [h.result, hcode, eval_carry]
        refine (eval_lessequal _ _ _ _ _).trans (some_toNat_eq_iff.mpr ?_)
        rw [neg_and_calcMask h.size_le' hb hz, hval, ← h.size]
        rw [← h.size] at hb
        omega

/-! Moving a constant by one. -/

theorem signExtendVal_eq (v : U64) {s : ℕ} (h0 : 0 < s) (h8 : s ≤ 8) :
    Rules.signExtendVal v s 8 = (v.setWidth (8 * s)).signExtend 64 := by
  unfold Rules.signExtendVal
  rw [Rules.sext_eq v h0 h8, show calcMask 8 = BitVec.allOnes 64 from rfl, BitVec.and_allOnes]

theorem signExtendVal_toInt {v : U64} {s : ℕ} (h0 : 0 < s) (h8 : s ≤ 8)
    (hv : v.toNat < 2 ^ (8 * s)) :
    (Rules.signExtendVal v s 8).toInt = Signed.toInt (8 * s) v.toNat := by
  rw [signExtendVal_eq v h0 h8, BitVec.toInt_signExtend_of_le (by omega), ← Signed.toInt_ofNat hv,
    BitVec.ofNat_toNat]

/-- The low bytes of the extended constant are the constant. -/
theorem signExtendVal_mod {v : U64} {s : ℕ} (h0 : 0 < s) (h8 : s ≤ 8)
    (hv : v.toNat < 2 ^ (8 * s)) : (Rules.signExtendVal v s 8).toNat % 2 ^ (8 * s) = v.toNat := by
  have hset : (Rules.signExtendVal v s 8).setWidth (8 * s) = v.setWidth (8 * s) := by
    rw [signExtendVal_eq v h0 h8]
    apply BitVec.eq_of_getLsbD_eq
    intro i hi
    rw [BitVec.getLsbD_setWidth, BitVec.getLsbD_signExtend, BitVec.getLsbD_setWidth]
    simp [hi, show i < 64 by omega]
  have hn := congrArg BitVec.toNat hset
  rwa [BitVec.toNat_setWidth, BitVec.toNat_setWidth, Nat.mod_eq_of_lt hv] at hn

theorem add_and_calcMask_toNat (v d : U64) {s : ℕ} (h8 : s ≤ 8) :
    ((v + d) &&& calcMask s).toNat = (v.toNat % 2 ^ (8 * s) + d.toNat % 2 ^ (8 * s)) % 2 ^ (8 * s) := by
  rw [and_calcMask_toNat _ h8, BitVec.toNat_add,
    Nat.mod_mod_of_dvd _ (pow_dvd_pow 2 (show 8 * s ≤ 64 by omega)), Nat.add_mod]

theorem one_mod {s : ℕ} (h0 : 0 < s) : (1 : U64).toNat % 2 ^ (8 * s) = 1 :=
  Nat.mod_eq_of_lt (Nat.one_lt_two_pow (by omega))

theorem neg_one_mod {s : ℕ} (h0 : 0 < s) (h8 : s ≤ 8) :
    (-1 : U64).toNat % 2 ^ (8 * s) = 2 ^ (8 * s) - 1 :=
  neg_mod (c := 1) (pow_dvd_pow 2 (by omega)) (Nat.one_lt_two_pow (by omega)) one_ne_zero

theorem lt_add_one_mod_iff {n x c : ℕ} (hc : c < 2 ^ n) (hmax : c ≠ 2 ^ n - 1) :
    x < (c + 1) % 2 ^ n ↔ x ≤ c := by
  rw [Nat.mod_eq_of_lt (by omega)]
  omega

theorem sub_one_mod_lt_iff {n x c : ℕ} (hc : c < 2 ^ n) (hmin : c ≠ 0) :
    (c + (2 ^ n - 1)) % 2 ^ n < x ↔ c ≤ x := by
  rw [show c + (2 ^ n - 1) = c - 1 + 2 ^ n by omega, Nat.add_mod_right,
    Nat.mod_eq_of_lt (by omega)]
  omega

/-- `V s<= c` is `V s< c + 1` for all `V`, but for the greatest `c`, where it is for none. -/
theorem toInt_lt_add_one_iff {n x c : ℕ} (h0 : 0 < n) (hx : x < 2 ^ n) (hc : c < 2 ^ n) :
    ((Signed.toInt n x < Signed.toInt n ((c + 1) % 2 ^ n)) ↔
      (Signed.toInt n x ≤ Signed.toInt n c)) ↔ c ≠ 2 ^ (n - 1) - 1 := by
  have hhalf := Signed.two_pow_half h0
  have hpos := Nat.two_pow_pos (n - 1)
  unfold Signed.toInt
  generalize 2 ^ n = m at *
  generalize 2 ^ (n - 1) = k at *
  rcases Nat.lt_or_ge (c + 1) m with hlt | hge
  · rw [Nat.mod_eq_of_lt hlt]
    split_ifs <;> omega
  · rw [show c + 1 = m by omega, Nat.mod_self]
    split_ifs <;> omega

/-- `c s<= V` is `c - 1 s< V` for all `V`, but for the least `c`, where it is for none. -/
theorem toInt_sub_one_lt_iff {n x c : ℕ} (h0 : 0 < n) (hx : x < 2 ^ n) (hc : c < 2 ^ n) :
    ((Signed.toInt n ((c + (2 ^ n - 1)) % 2 ^ n) < Signed.toInt n x) ↔
      (Signed.toInt n c ≤ Signed.toInt n x)) ↔ c ≠ 2 ^ (n - 1) := by
  have hhalf := Signed.two_pow_half h0
  have hpos := Nat.two_pow_pos (n - 1)
  unfold Signed.toInt
  generalize 2 ^ n = m at *
  generalize 2 ^ (n - 1) = k at *
  rcases Nat.eq_zero_or_pos c with hz | hc0
  · rw [hz, Nat.zero_add, Nat.mod_eq_of_lt (by omega)]
    split_ifs <;> omega
  · rw [show c + (m - 1) = c - 1 + m by omega, Nat.add_mod_right, Nat.mod_eq_of_lt (by omega)]
    split_ifs <;> omega

/-- The constants whose `<=` can be made a `<`: not the least on the left, not the greatest on the
right. -/
def LessequalExact (f : Funcdata) (op : OpId) : Prop :=
  (f.op op).opcode = .intSlessequal →
    if (f.inVn op 0).constant then (f.inVn op 0).constantValue ≠ signMask (f.inVn op 0).size
    else (f.inVn op 1).constantValue ≠ calcMask (f.inVn op 1).size >>> 1

theorem calcMask_half_toNat {s : ℕ} (h0 : 0 < s) (h8 : s ≤ 8) :
    (calcMask s >>> 1).toNat = 2 ^ (8 * s - 1) - 1 := by
  rw [BitVec.toNat_ushiftRight, calcMask_toNat h8, Signed.two_pow_half (show 0 < 8 * s by omega),
    Nat.shiftRight_one]
  omega

/-- The unsigned overflow is seen: the constant is 0 on the left, or the maximum on the right. -/
theorem not_lessequalOverflows {v diff : U64} {s : ℕ} (h0 : 0 < s) (h8 : s ≤ 8)
    (hv : v.toNat < 2 ^ (8 * s))
    (h : lessequalOverflows .intLessequal (Rules.signExtendVal v s 8) diff ≠ true) :
    (diff = -1 → v.toNat ≠ 0) ∧ (diff = 1 → v.toNat ≠ 2 ^ (8 * s) - 1) := by
  have hmod := signExtendVal_mod h0 h8 hv
  have hint := signExtendVal_toInt h0 h8 hv
  unfold lessequalOverflows at h
  rw [if_neg (by decide)] at h
  simp only [ne_eq, Bool.or_eq_true, Bool.and_eq_true, beq_iff_eq, not_or, not_and] at h
  constructor
  · rintro rfl hz
    refine h.1 rfl (BitVec.eq_of_toInt_eq ?_)
    rw [hint, hz, Signed.toInt_zero]
    rfl
  · rintro rfl hm
    refine h.2 rfl (BitVec.eq_of_toInt_eq ?_)
    have hhalf := Signed.two_pow_half (show 0 < 8 * s by omega)
    have hpos := Nat.two_pow_pos (8 * s - 1)
    rw [hint, hm, Signed.toInt_of_ge (by omega), show (-1 : U64).toInt = -1 from rfl]
    omega

theorem intLessEqual_sound (h : f.Compare op out a b)
    (hcode : (f.op op).opcode = .intLessequal ∨ (f.op op).opcode = .intSlessequal)
    (hg : f.intLessEqual op = some g) (env : VarnodeId → ℕ) :
    RewritesIff f env op out g (f.LessequalExact op) := by
  have hin0 : f.inVn op 0 = f.vn a := by
    unfold inVn
    rw [h.input0]
    rfl
  have hin1 : f.inVn op 1 = f.vn b := by
    unfold inVn
    rw [h.input1]
    rfl
  unfold intLessEqual at hg
  split at hg
  case h_2 => cases hg
  case h_1 f' hrep =>
    cases hg
    unfold replaceLessequal at hrep
    simp only [h.input0, h.input1, Option.bind_eq_bind, Option.bind_some] at hrep
    unfold lessequalConst at hrep
    by_cases ha : (f.vn a).constant = true
    · -- `c <= V` is `c - 1 < V`
      rw [if_pos ha] at hrep
      simp only [] at hrep
      split at hrep
      case isTrue => cases hrep
      case isFalse hov =>
        cases hrep
        have hc := (h.graph.const a ha).2
        have hval := valueOf_const (e := env) ha
        have hr := ((h.refl env).opSetOpcode (if (f.op op).opcode = .intSlessequal then
          .intSless else .intLess)).setConstInput (k := 0) (n := (f.vn a).size)
          (c := (Rules.signExtendVal (f.vn a).constantValue (f.vn a).size 8 + -1) &&&
            calcMask (f.vn a).size) (by simp)
        rw [add_and_calcMask_toNat _ _ h.size_le, signExtendVal_mod h.pos h.size_le hc,
          neg_one_mod h.pos h.size_le] at hr
        refine ⟨_, _, hr, fun hv => ?_⟩
        have hb := hv.fits b
        rw [← h.size] at hb
        rw [h.result, hval]
        unfold LessequalExact
        rw [hin0, if_pos ha]
        rcases hcode with hcode | hcode
        · rw [hcode] at hov ⊢
          rw [if_neg (show ¬OpCode.intLessequal = .intSlessequal by decide)]
          refine iff_of_true ?_ (fun he => by cases he)
          refine (eval_less _ _ _ _ _).trans ?_
          rw [eval_lessequal, some_toNat_eq_iff]
          exact sub_one_mod_lt_iff hc ((not_lessequalOverflows h.pos h.size_le hc hov).1 rfl)
        · rw [hcode, if_pos rfl]
          refine Iff.trans ?_ ((toInt_sub_one_lt_iff (Nat.mul_pos (by decide) h.pos) hb hc).trans ?_)
          · rw [eval_slessequal _ _ hc hb]
            exact (Eq.congr_left (eval_sless _ _ (Nat.mod_lt _ (Nat.two_pow_pos _)) hb)).trans
              some_toNat_eq_iff
          · rw [← signMask_toNat h.pos h.size_le, Ne, BitVec.toNat_inj]
            exact ⟨fun hne _ => hne, fun hne => hne rfl⟩
    · -- `V <= c` is `V < c + 1`
      rw [if_neg ha] at hrep
      by_cases hb : (f.vn b).constant = true
      · rw [if_pos hb] at hrep
        simp only [] at hrep
        split at hrep
        case isTrue => cases hrep
        case isFalse hov =>
          cases hrep
          have hc := (h.graph.const b hb).2
          have hval := valueOf_const (e := env) hb
          have hr := ((h.refl env).opSetOpcode (if (f.op op).opcode = .intSlessequal then
            .intSless else .intLess)).setConstInput (k := 1) (n := (f.vn b).size)
            (c := (Rules.signExtendVal (f.vn b).constantValue (f.vn b).size 8 + 1) &&&
              calcMask (f.vn b).size) (by simp)
          rw [add_and_calcMask_toNat _ _ h.size_le', signExtendVal_mod h.pos' h.size_le' hc,
            one_mod h.pos'] at hr
          refine ⟨_, _, hr, fun hv => ?_⟩
          have hx := hv.fits a
          rw [h.size] at hx
          rw [h.result, hval, h.size]
          unfold LessequalExact
          rw [hin0, if_neg ha, hin1]
          rcases hcode with hcode | hcode
          · rw [hcode] at hov ⊢
            rw [if_neg (show ¬OpCode.intLessequal = .intSlessequal by decide)]
            refine iff_of_true ?_ (fun he => by cases he)
            refine (eval_less _ _ _ _ _).trans ?_
            rw [eval_lessequal, some_toNat_eq_iff]
            exact lt_add_one_mod_iff hc ((not_lessequalOverflows h.pos' h.size_le' hc hov).2 rfl)
          · rw [hcode, if_pos rfl]
            refine Iff.trans ?_
              ((toInt_lt_add_one_iff (Nat.mul_pos (by decide) h.pos') hx hc).trans ?_)
            · rw [eval_slessequal _ _ hx hc]
              exact (Eq.congr_left (eval_sless _ _ hx (Nat.mod_lt _ (Nat.two_pow_pos _)))).trans
                some_toNat_eq_iff
            · rw [← calcMask_half_toNat h.pos' h.size_le', Ne, BitVec.toNat_inj]
              exact ⟨fun hne _ => hne, fun hne => hne rfl⟩
      · rw [if_neg hb] at hrep
        cases hrep

/-- An extended value and a constant without the narrow sign bit are not negative. -/
theorem toInt_narrow {s t x : ℕ} (hlt : t < s) (hx : x < 2 ^ (8 * t)) :
    Signed.toInt (8 * s) x = x := by
  refine Signed.toInt_of_lt ?_
  calc 2 * x < 2 * 2 ^ (8 * t) := by omega
    _ = 2 ^ (8 * t + 1) := (pow_succ' 2 _).symm
    _ ≤ 2 ^ (8 * s) := Nat.pow_le_pow_right two_pos (by omega)

theorem lt_of_shift_eq_zero {v : U64} {k : ℕ} (h : v >>> k = 0) : v.toNat < 2 ^ k := by
  have hn := congrArg BitVec.toNat h
  rw [BitVec.toNat_ushiftRight, Nat.shiftRight_eq_div_pow] at hn
  exact (Nat.div_eq_zero_iff.mp hn).resolve_left (Nat.two_pow_pos k).ne'

/-- The op of an INT_ZEXT that `op` reads, and the narrow value it extends. -/
theorem zext_value (env : VarnodeId → ℕ) (hgr : f.RuleGraph) {v small : VarnodeId} {zext : OpId}
    (hmem : v ∈ (f.op op).inrefs) (hz : f.isZext v = true) (hd : (f.vn v).defOp = some zext)
    (hs : (f.op zext).input 0 = some small) :
    small < f.numVarnodes ∧ (f.vn small).size < (f.vn v).size ∧ 0 < (f.vn small).size ∧
      (f.ValuesAt op env → f.valueOf env v = f.valueOf env small) := by
  have ho := hgr.output_of_def hd
  have hcode : (f.op zext).opcode = .intZext := by
    unfold isZext at hz
    rw [hd] at hz
    simpa using (Bool.and_eq_true_iff.mp hz).2
  have hsz := hgr.sizes ho
  rw [hcode] at hsz
  obtain ⟨sa, hsa, hlt⟩ := hsz
  obtain ⟨u, hin, hu⟩ := inrefs_one hsa
  rw [input_zero hin] at hs
  cases hs
  have hmemu : small ∈ (f.op zext).inrefs := by
    rw [hin]
    exact List.mem_cons_self
  refine ⟨hgr.lt_of_mem hmemu, hu ▸ hlt, hgr.size_pos hmemu ho, fun hv => ?_⟩
  have hr := hv.result hmem (.here hd) ho (by rw [hcode]; rfl)
  rw [resultOf_one hin, hcode] at hr
  exact (Option.some.inj hr).symm

/-- The graph after `RuleZextSless`, with `small` in slot `i` and the constant `c` in slot `j`. -/
def zextResult (f : Funcdata) (op : OpId) (small c : VarnodeId) (i j : ℕ) : Funcdata :=
  (((f.newConst (f.vn small).size (f.vn c).constantValue).1.opSetInput op i small).opSetInput op j
    (f.newConst (f.vn small).size (f.vn c).constantValue).2).opSetOpcode op
      (if (f.op op).opcode = .intSless then .intLess else .intLessequal)

theorem zextSless_cases (h : f.Compare op out a b) (hg : f.zextSless op = some g) :
    ∃ v c i j zext small, (v = b ∧ c = a ∧ i = 1 ∧ j = 0 ∨ v = a ∧ c = b ∧ i = 0 ∧ j = 1) ∧
      f.isZext v = true ∧ (f.vn c).constant = true ∧ (f.vn v).defOp = some zext ∧
      (f.op zext).input 0 = some small ∧
      (f.vn c).constantValue >>> ((8 * (f.vn small).size - 1) % 64) = 0 ∧
      g = f.zextResult op small c i j := by
  unfold zextSless at hg
  simp only [h.input0, h.input1, Option.bind_eq_bind, Option.bind_some] at hg
  split at hg
  case isTrue => cases hg
  case isFalse hz =>
    have hz : f.isZext b = true ∨ f.isZext a = true := by
      by_contra hn
      rw [not_or] at hn
      simp [hn.1, hn.2] at hz
    obtain ⟨v, c, i, j, hslots, hzv, hg⟩ : ∃ v c i j,
        (v = b ∧ c = a ∧ i = 1 ∧ j = 0 ∨ v = a ∧ c = b ∧ i = 0 ∧ j = 1) ∧ f.isZext v = true ∧
        (if !(f.vn c).constant then none else (f.vn v).defOp.bind fun zext =>
          ((f.op zext).input 0).bind fun small => if !(f.vn small).isHeritageKnown then none
          else if (f.vn c).constantValue >>> ((8 * (f.vn small).size - 1) % 64) ≠ 0 then none
          else some (f.zextResult op small c i j)) = some g := by
      by_cases hzb : f.isZext b = true
      · simp only [hzb, if_true] at hg
        exact ⟨b, a, 1, 0, .inl ⟨rfl, rfl, rfl, rfl⟩, hzb, hg⟩
      · simp only [hzb] at hg
        exact ⟨a, b, 0, 1, .inr ⟨rfl, rfl, rfl, rfl⟩, hz.resolve_left hzb, hg⟩
    split at hg
    case isTrue => cases hg
    case isFalse hc =>
      obtain ⟨zext, hd, hg⟩ := Option.bind_eq_some_iff.mp hg
      obtain ⟨small, hs, hg⟩ := Option.bind_eq_some_iff.mp hg
      split at hg
      case isTrue => cases hg
      case isFalse =>
        split at hg
        case isTrue => cases hg
        case isFalse hval =>
          exact ⟨v, c, i, j, zext, small, hslots, hzv, by simpa using hc, hd, hs, not_not.mp hval,
            (Option.some.inj hg).symm⟩

theorem zextSless_sound (h : f.Compare op out a b)
    (hcode : (f.op op).opcode = .intSless ∨ (f.op op).opcode = .intSlessequal)
    (hg : f.zextSless op = some g) (env : VarnodeId → ℕ) : RewritesIff f env op out g True := by
  obtain ⟨v, c, i, j, zext, small, hslots, hz, hc, hd, hs, hshift, rfl⟩ := zextSless_cases h hg
  have hmem : v ∈ (f.op op).inrefs := by
    rw [h.inrefs]
    rcases hslots with ⟨rfl, -⟩ | ⟨rfl, -⟩
    · exact List.mem_cons_of_mem _ List.mem_cons_self
    · exact List.mem_cons_self
  obtain ⟨hlt, hsmall, hpos, hval⟩ := zext_value env h.graph hmem hz hd hs
  have hsize : (f.vn v).size = (f.vn a).size := by
    rcases hslots with ⟨rfl, -⟩ | ⟨rfl, -⟩
    · exact h.size.symm
    · rfl
  rw [hsize] at hsmall
  have hle := h.size_le
  rw [Nat.mod_eq_of_lt (show 8 * (f.vn small).size - 1 < 64 by omega)] at hshift
  have hcv := valueOf_const (e := env) hc
  have hcs : f.valueOf env c < 2 ^ (8 * (f.vn small).size) := by
    rw [hcv]
    exact (lt_of_shift_eq_zero hshift).trans_le (Nat.pow_le_pow_right two_pos (by omega))
  have hij : i < 2 ∧ j < 2 := by
    rcases hslots with ⟨-, -, rfl, rfl⟩ | ⟨-, -, rfl, rfl⟩
    · decide
    · decide
  refine .of_eq (((h.refl env).setInputs hlt (i := i) (j := j) hij.1 hij.2).opSetOpcode _)
    fun hv => ?_
  have hx := hv.fits small
  have ha := hv.fits a
  have hb := hv.fits b
  rw [← h.size] at hb
  -- as signed numbers both operands are what they are as unsigned ones
  have htx := toInt_narrow hsmall hx
  have htc := toInt_narrow hsmall hcs
  rw [h.result, ← hcv]
  rcases hslots with ⟨rfl, rfl, rfl, rfl⟩ | ⟨rfl, rfl, rfl, rfl⟩
  · rcases hcode with hcode | hcode
    · rw [hcode, if_pos rfl]
      refine (eval_less _ _ _ _ _).trans ?_
      rw [eval_sless _ _ ha hb, some_toNat_eq_iff, hval hv, htx, htc, Nat.cast_lt]
    · rw [hcode, if_neg (show ¬OpCode.intSlessequal = .intSless by decide)]
      refine (eval_lessequal _ _ _ _ _).trans ?_
      rw [eval_slessequal _ _ ha hb, some_toNat_eq_iff, hval hv, htx, htc, Nat.cast_le]
  · rcases hcode with hcode | hcode
    · rw [hcode, if_pos rfl]
      refine (eval_less _ _ _ _ _).trans ?_
      rw [eval_sless _ _ ha hb, some_toNat_eq_iff, hval hv, htx, htc, Nat.cast_lt]
    · rw [hcode, if_neg (show ¬OpCode.intSlessequal = .intSless by decide)]
      refine (eval_lessequal _ _ _ _ _).trans ?_
      rw [eval_slessequal _ _ ha hb, some_toNat_eq_iff, hval hv, htx, htc, Nat.cast_le]

/-! Folding a constant into a comparison. -/

theorem sub_mod_dvd {m c k : ℕ} (hm : m ∣ 2 ^ 64) (hk : k ≤ m) :
    (2 ^ 64 - k + c) % m = (m - k + c) % m := by
  obtain ⟨q, hq⟩ := hm
  obtain ⟨j, rfl⟩ : ∃ j, q = j + 1 := Nat.exists_eq_succ_of_ne_zero fun h => by
    rw [h] at hq
    cases hq
  rw [hq, show m * (j + 1) - k + c = (m - k + c) + m * j by rw [Nat.mul_succ]; omega,
    Nat.add_mul_mod_self_left]

theorem sub_and_calcMask_toNat {c k : U64} {s : ℕ} (h8 : s ≤ 8) (hk : k.toNat ≤ 2 ^ (8 * s)) :
    ((c - k) &&& calcMask s).toNat = (2 ^ (8 * s) - k.toNat + c.toNat) % 2 ^ (8 * s) := by
  rw [and_calcMask_toNat _ h8, BitVec.toNat_sub,
    Nat.mod_mod_of_dvd _ (pow_dvd_pow 2 (show 8 * s ≤ 64 by omega))]
  exact sub_mod_dvd (pow_dvd_pow 2 (by omega)) hk

theorem neg_and_calcMask_toNat {c : U64} {s : ℕ} (h8 : s ≤ 8) (hc : c.toNat ≤ 2 ^ (8 * s)) :
    (-c &&& calcMask s).toNat = (2 ^ (8 * s) - c.toNat) % 2 ^ (8 * s) := by
  rw [and_calcMask_toNat _ h8, BitVec.toNat_neg,
    Nat.mod_mod_of_dvd _ (pow_dvd_pow 2 (show 8 * s ≤ 64 by omega))]
  exact sub_mod_dvd (c := 0) (pow_dvd_pow 2 (by omega)) hc

theorem not_and_calcMask_toNat {c : U64} {s : ℕ} (h8 : s ≤ 8) (hc : c.toNat < 2 ^ (8 * s)) :
    (~~~c &&& calcMask s).toNat = 2 ^ (8 * s) - 1 - c.toNat := by
  rw [and_calcMask_toNat _ h8, BitVec.toNat_not]
  refine (congrArg (· % _) (show 2 ^ 64 - 1 - c.toNat = 2 ^ 64 - (c.toNat + 1) + 0 by omega)).trans ?_
  rw [sub_mod_dvd (pow_dvd_pow 2 (by omega)) hc, Nat.mod_eq_of_lt (by omega)]
  omega

theorem mod_of_lt_double {y m : ℕ} (h : y < 2 * m) : y % m = if y < m then y else y - m := by
  split_ifs with hlt
  · exact Nat.mod_eq_of_lt hlt
  · rw [Nat.mod_eq_sub_mod (not_lt.mp hlt), Nat.mod_eq_of_lt (by omega)]

theorem add_mod_eq_iff {m x k c : ℕ} (hx : x < m) (hk : k < m) (hc : c < m) :
    x = (m - k + c) % m ↔ (x + k) % m = c := by
  rw [mod_of_lt_double (show m - k + c < 2 * m by omega),
    mod_of_lt_double (show x + k < 2 * m by omega)]
  split_ifs <;> omega

/-- A product with -1 is the two's complement. -/
theorem mul_pred_mod {m x : ℕ} (hx : x < m) : x * (m - 1) % m = (m - x) % m := by
  rcases Nat.eq_zero_or_pos x with rfl | hpos
  · rw [Nat.zero_mul, Nat.zero_mod, Nat.sub_zero, Nat.mod_self]
  · have he : x * (m - 1) = m - x + m * (x - 1) := by
      obtain ⟨y, rfl⟩ : ∃ y, x = y + 1 := ⟨x - 1, by omega⟩
      obtain ⟨d, rfl⟩ : ∃ d, m = y + 1 + d := ⟨m - (y + 1), by omega⟩
      rw [show y + 1 + d - 1 = y + d by omega, show y + 1 + d - (y + 1) = d by omega,
        Nat.add_sub_cancel]
      ring
    rw [he, Nat.add_mul_mod_self_left]

theorem neg_mod_eq_iff {m x c : ℕ} (hx : x < m) (hc : c < m) :
    x = (m - c) % m ↔ (m - x) % m = c := by
  rw [mod_of_lt_double (show m - c < 2 * m by omega),
    mod_of_lt_double (show m - x < 2 * m by omega)]
  split_ifs <;> omega

/-- The folded constant equals the inner operand exactly where the outer constant equals the sum, the
product or the complement. -/
theorem foldedConst_spec (env : VarnodeId → ℕ) (h : f.Compare op out a b)
    (hb : (f.vn b).constant = true) {leftop : OpId}
    (hd : (f.vn a).defOp = some leftop) {c : U64} (hc : f.foldedConst leftop a b = some c)
    {v : VarnodeId} (hv : (f.op leftop).input 0 = some v) :
    v < f.numVarnodes ∧ (f.ValuesAt op env →
      (f.valueOf env v = c.toNat ↔ f.valueOf env a = f.valueOf env b)) := by
  have ho := h.graph.output_of_def hd
  have hmem : a ∈ (f.op op).inrefs := by
    rw [h.inrefs]
    exact List.mem_cons_self
  have hcb := (h.graph.const b hb).2
  have hvb := valueOf_const (e := env) hb
  have hpos := Nat.two_pow_pos (8 * (f.vn b).size)
  rw [hvb]
  unfold foldedConst at hc
  split at hc
  case h_1 hcode =>
    -- `V + k == c` is `V == c - k`
    obtain ⟨x, k, hin, hxs, hks⟩ := h.graph.arith_inrefs ho (.inl hcode)
    rw [input_zero hin] at hv
    cases hv
    simp only [input_one hin, Option.bind_eq_bind, Option.bind_some] at hc
    split at hc
    case isTrue => cases hc
    case isFalse hk =>
      cases hc
      have hk : (f.vn k).constant = true := by simpa using hk
      have hck := (h.graph.const k hk).2
      refine ⟨h.graph.lt_of_mem (o := leftop) (by rw [hin]; simp), fun hval => ?_⟩
      have hres := hval.result hmem (.here hd) ho (by rw [hcode]; rfl)
      have hfit := hval.fits v
      rw [resultOf_two hin, hcode, valueOf_const hk] at hres
      rw [← Option.some.inj hres]
      rw [hks, h.size] at hck
      rw [hxs, h.size] at hfit
      rw [sub_and_calcMask_toNat h.size_le' hck.le, h.size]
      exact add_mod_eq_iff hfit hck hcb
  case h_2 hcode =>
    -- `V * -1 == c` is `V == -c`
    obtain ⟨x, k, hin, hxs, hks⟩ := h.graph.arith_inrefs ho (.inr (.inr (.inl hcode)))
    rw [input_zero hin] at hv
    cases hv
    simp only [input_one hin, Option.bind_eq_bind, Option.bind_some] at hc
    split at hc
    case isTrue => cases hc
    case isFalse hk =>
      have hk : (f.vn k).constant = true := by simpa using hk
      split at hc
      case isTrue => cases hc
      case isFalse hmask =>
        cases hc
        have hks' : (f.vn k).size = (f.vn b).size := hks.trans h.size
        refine ⟨h.graph.lt_of_mem (o := leftop) (by rw [hin]; simp), fun hval => ?_⟩
        have hres := hval.result hmem (.here hd) ho (by rw [hcode]; rfl)
        have hfit := hval.fits v
        rw [resultOf_two hin, hcode, valueOf_mask hk (not_not.mp hmask) (hks' ▸ h.size_le')] at hres
        rw [← Option.some.inj hres]
        rw [hxs, h.size] at hfit
        rw [hks', neg_and_calcMask_toNat h.size_le' hcb.le, h.size, mul_pred_mod hfit]
        exact neg_mod_eq_iff hfit hcb
  case h_3 hcode =>
    -- `~V == c` is `V == ~c`
    cases hc
    have hsz := h.graph.sizes ho
    rw [hcode] at hsz
    obtain ⟨x, hin, hxs⟩ := inrefs_one hsz
    rw [input_zero hin] at hv
    cases hv
    refine ⟨h.graph.lt_of_mem (o := leftop) (by rw [hin]; simp), fun hval => ?_⟩
    have hres := hval.result hmem (.here hd) ho (by rw [hcode]; rfl)
    have hfit := hval.fits v
    rw [resultOf_one hin, hcode] at hres
    rw [← Option.some.inj hres]
    rw [hxs, h.size] at hfit
    rw [h.size, not_and_calcMask_toNat h.size_le' hcb, BitVec.toNat_not, BitVec.toNat_ofNat,
      Nat.mod_eq_of_lt hfit]
    omega
  case h_4 => cases hc

theorem equal2Constant_sound (h : f.Compare op out a b)
    (hcode : (f.op op).opcode = .intEqual ∨ (f.op op).opcode = .intNotequal)
    (hg : f.equal2Constant op = some g) (env : VarnodeId → ℕ) : RewritesIff f env op out g True := by
  unfold equal2Constant at hg
  simp only [h.input0, h.input1, Option.bind_eq_bind, Option.bind_some] at hg
  split at hg
  case isTrue => cases hg
  case isFalse hb =>
    split at hg
    case isTrue => cases hg
    case isFalse =>
      obtain ⟨leftop, hd, hg⟩ := Option.bind_eq_some_iff.mp hg
      obtain ⟨c, hc, hg⟩ := Option.bind_eq_some_iff.mp hg
      obtain ⟨v, hv, hg⟩ := Option.bind_eq_some_iff.mp hg
      split at hg
      case isTrue => cases hg
      case isFalse =>
        split at hg
        case isTrue => cases hg
        case isFalse =>
          cases hg
          obtain ⟨hlt, hiff⟩ := foldedConst_spec env h (by simpa using hb) hd hc hv
          refine .of_eq (((h.refl env).setInput (k := 0) hlt (by simp)).setConstInput (k := 1)
            (by simp)) fun hval => ?_
          rw [h.result]
          rcases hcode with hcode | hcode
          · rw [hcode, eval_equal]
            exact (eval_equal _ _ _ _ _).trans (some_toNat_eq_iff.mpr (hiff hval))
          · rw [hcode, eval_notequal]
            exact (eval_notequal _ _ _ _ _).trans
              (some_toNat_eq_iff.mpr (not_congr (hiff hval)))

end Funcdata
end Mosura
