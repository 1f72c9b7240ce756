import Mosura.CompareSound

/-! When the rules that look at a sign bit keep the truth value of a comparison. -/

namespace Mosura
open Window

namespace Funcdata

variable {f g : Funcdata} {env : VarnodeId → ℕ} {op feedOp : OpId} {out a b v vn : VarnodeId}

theorem evalUnary_le_one {code : OpCode} {sa so x y : ℕ} (hb : code.isBoolOutput = true)
    (h : evalUnary code sa so y = some x) : x ≤ 1 := by
  cases code <;> try cases hb
  case boolNegate =>
    change (if y ≤ 1 then some (1 - y) else none) = some x at h
    split at h
    · cases h
      omega
    · cases h
  all_goals cases h

theorem evalBinary_le_one {code : OpCode} {sa sb so x y z : ℕ} (hb : code.isBoolOutput = true)
    (h : evalBinary code sa sb so y z = some x) : x ≤ 1 := by
  have hbits : ∀ {r : ℕ}, r < 2 ^ 1 → (if y ≤ 1 ∧ z ≤ 1 then some r else none) = some x → x ≤ 1 := by
    intro r hr he
    split at he
    · cases he
      omega
    · cases he
  cases code <;> try cases hb
  case boolXor =>
    by_cases hyz : y ≤ 1 ∧ z ≤ 1
    · exact hbits (Nat.xor_lt_two_pow (n := 1) (by omega) (by omega)) h
    · rw [evalBinary, if_neg hyz] at h
      cases h
  case boolAnd =>
    by_cases hyz : y ≤ 1 ∧ z ≤ 1
    · exact hbits (Nat.and_lt_two_pow (n := 1) _ (by omega)) h
    · rw [evalBinary, if_neg hyz] at h
      cases h
  case boolOr =>
    by_cases hyz : y ≤ 1 ∧ z ≤ 1
    · exact hbits (Nat.or_lt_two_pow (n := 1) (by omega) (by omega)) h
    · rw [evalBinary, if_neg hyz] at h
      cases h
  all_goals
    cases h
    try exact Bool.toNat_le _

/-- An op with a truth value computes 0 or 1. -/
theorem le_one_of_isBoolOutput {code : OpCode} {cb : Bool} {ins : Operands} {so x : ℕ}
    (hb : code.isBoolOutput = true) (h : OpResult code cb ins so x) : x ≤ 1 := by
  have hphi : code ≠ .multiequal := fun he => by
    rw [he] at hb
    cases hb
  unfold OpResult at h
  rw [if_neg hphi] at h
  split at h
  case isFalse =>
    refine h.2 ?_
    unfold OpCode.knownBool
    rw [hb, Bool.true_or]
  case isTrue =>
    match ins, h with
    | [], h => cases h
    | [_], h => exact evalUnary_le_one hb h
    | [_, _], h => exact evalBinary_le_one hb h
    | _ :: _ :: _ :: _, h =>
      rcases code_of_evalPcode h with rfl | rfl | rfl
      all_goals cases hb

/-! The sign bit of a value of `s` bytes. -/

/-- The value is negative as a signed number. -/
def Neg (s x : ℕ) : Prop := 2 ^ (8 * s) ≤ 2 * x

instance (s x : ℕ) : Decidable (Neg s x) := inferInstanceAs (Decidable (_ ≤ _))

theorem neg_iff_toInt {s x : ℕ} (hx : x < 2 ^ (8 * s)) : Neg s x ↔ Signed.toInt (8 * s) x < 0 :=
  (Signed.toInt_neg_iff hx).symm

/-- The sign of the high part of a value is the sign of the value. -/
theorem neg_div {s t x : ℕ} (h0 : 0 < s) :
    Neg s (x / 2 ^ (8 * t)) ↔ Neg (s + t) x := by
  unfold Neg
  rw [Nat.mul_add, pow_add, Signed.two_pow_half (show 0 < 8 * s by omega), Nat.mul_assoc,
    Nat.mul_le_mul_left_iff two_pos, Nat.mul_le_mul_left_iff two_pos,
    Nat.le_div_iff_mul_le (Nat.two_pow_pos _)]

theorem neg_not {s x : ℕ} (h0 : 0 < s) (hx : x < 2 ^ (8 * s)) :
    Neg s (2 ^ (8 * s) - 1 - x) ↔ ¬Neg s x := by
  unfold Neg
  have hhalf := Signed.two_pow_half (show 0 < 8 * s by omega)
  omega

theorem neg_and {s x m : ℕ} (h0 : 0 < s) (hx : x < 2 ^ (8 * s))
    (hm : m.testBit (8 * s - 1) = true) : Neg s (x &&& m) ↔ Neg s x := by
  unfold Neg
  rw [two_mul_ge_iff_testBit h0 hx,
    two_mul_ge_iff_testBit h0 ((Nat.and_le_left).trans_lt hx), Nat.testBit_and, hm, Bool.and_true]

/-- `-1 s< x` for `slot = 1`, `x s< 0` for `slot = 0`. -/
theorem eval_sign {s x : ℕ} (t so : ℕ) (h0 : 0 < s) (hx : x < 2 ^ (8 * s)) :
    evalPcode .intSless [(s, 2 ^ (8 * s) - 1), (t, x)] so = some (decide (¬Neg s x)).toNat ∧
      evalPcode .intSless [(s, x), (t, 0)] so = some (decide (Neg s x)).toNat := by
  have hhalf := Signed.two_pow_half (show 0 < 8 * s by omega)
  have hpos := Nat.two_pow_pos (8 * s - 1)
  constructor
  · rw [eval_sless _ _ (by omega) hx, some_toNat_eq_iff, neg_iff_toInt hx,
      Signed.toInt_of_ge (by omega)]
    omega
  · rw [eval_sless _ _ hx (by omega), some_toNat_eq_iff, neg_iff_toInt hx, Signed.toInt_zero]

/-! A comparison with -1 on the left (`slot` is 1) or with 0 on the right (`slot` is 0). -/

/-- `op` tests the sign of its input `v`, which is in `slot`. -/
structure SignTest (f : Funcdata) (op : OpId) (out v : VarnodeId) (slot : ℕ) : Prop where
  graph : f.RuleGraph
  output : (f.op op).output = some out
  code : (f.op op).opcode = .intSless
  mem : v ∈ (f.op op).inrefs
  pos : 0 < (f.vn v).size
  size_le : (f.vn v).size ≤ 8
  slot_le : slot ≤ 1
  operands : ∀ env, f.operandsOf env op = if slot = 1 then
    [((f.vn v).size, 2 ^ (8 * (f.vn v).size) - 1), ((f.vn v).size, f.valueOf env v)]
    else [((f.vn v).size, f.valueOf env v), ((f.vn v).size, 0)]

/-- The truth value of the sign test in `slot` of a value that is negative if `p`. -/
def signResult (slot : ℕ) (p : Prop) [Decidable p] : Option ℕ :=
  some (decide (slot = 1 ↔ ¬p)).toNat

theorem signResult_eq_iff {slot : ℕ} {p q : Prop} [Decidable p] [Decidable q] :
    signResult slot p = signResult slot q ↔ (p ↔ q) := by
  unfold signResult
  rw [some_toNat_eq_iff]
  by_cases hs : slot = 1
  all_goals
    by_cases hp : p
    all_goals
      by_cases hq : q
      all_goals simp [hs, hp, hq]

namespace SignTest

variable {slot : ℕ} (h : f.SignTest op out v slot)
include h

theorem result (hv : f.ValuesAt op env) :
    f.resultOf env op out = signResult slot (Neg (f.vn v).size (f.valueOf env v)) := by
  have he := eval_sign (f.vn v).size (f.vn out).size h.pos (hv.fits v)
  unfold resultOf signResult
  rw [h.operands, h.code]
  rcases Nat.le_one_iff_eq_zero_or_eq_one.mp h.slot_le with rfl | rfl
  · rw [if_neg (by decide), he.2, some_toNat_eq_iff]
    simp
  · rw [if_pos rfl, he.1, some_toNat_eq_iff]
    simp

theorem length : (f.operandsOf env op).length = 2 := by
  rw [h.operands]
  split_ifs <;> rfl

/-- The rewritten op tests the sign of `u` in slot `i`. -/
theorem compareConst {u : VarnodeId} (hu : u < f.numVarnodes) (h0 : 0 < (f.vn u).size)
    (h8 : (f.vn u).size ≤ 8) {i : ℕ} (hi : i ≤ 1) {value : U64}
    (hval : value = if i = 1 then calcMask (f.vn u).size else 0) (env : VarnodeId → ℕ) :
    ∃ ins, Rewritten f env op (f.compareConst op i u value) .intSless ins ∧
      (f.ValuesAt op env → evalPcode .intSless ins (f.vn out).size =
        signResult i (Neg (f.vn u).size (f.valueOf env u))) := by
  have hr := ((Rewritten.refl h.graph.linked.bounded env op).setInput (k := i) hu
    (by rw [h.length]; omega)).setConstInput (k := 1 - i) (n := (f.vn u).size)
    (c := value) (by rw [List.length_set, h.length]; omega)
  rw [h.code] at hr
  refine ⟨_, hr, fun hv => ?_⟩
  have he := eval_sign (f.vn u).size (f.vn out).size h0 (hv.fits u)
  obtain ⟨p, q, hpq⟩ : ∃ p q, f.operandsOf env op = [p, q] := List.length_eq_two.mp h.length
  unfold signResult
  rw [hpq]
  rcases Nat.le_one_iff_eq_zero_or_eq_one.mp hi with rfl | rfl
  · rw [if_neg (by decide)] at hval
    subst hval
    refine he.2.trans (some_toNat_eq_iff.mpr ?_)
    simp
  · rw [if_pos rfl] at hval
    subst hval
    rw [calcMask_toNat h8]
    refine he.1.trans (some_toNat_eq_iff.mpr ?_)
    simp

/-- The rewritten op tests the sign of `u` instead, which is that of `v`. -/
theorem rewrites {u : VarnodeId} (hu : u < f.numVarnodes) (h0 : 0 < (f.vn u).size)
    (h8 : (f.vn u).size ≤ 8) {i : ℕ} (hi : i ≤ 1) {value : U64}
    (hval : value = if i = 1 then calcMask (f.vn u).size else 0)
    (hsign : f.ValuesAt op env → (slot = i ↔
      (Neg (f.vn u).size (f.valueOf env u) ↔ Neg (f.vn v).size (f.valueOf env v)))) :
    RewritesIff f env op out (f.compareConst op i u value) True := by
  obtain ⟨ins, hr, he⟩ := h.compareConst hu h0 h8 hi hval env
  refine .of_eq hr fun hv => ?_
  rw [he hv, h.result hv]
  unfold signResult
  rw [some_toNat_eq_iff]
  have hs := hsign hv
  have hslot := h.slot_le
  by_cases hp : Neg (f.vn u).size (f.valueOf env u)
  all_goals
    by_cases hq : Neg (f.vn v).size (f.valueOf env v)
    all_goals
      simp only [hp, hq, not_true_eq_false, not_false_eq_true, iff_true, iff_false] at hs ⊢
      omega

end SignTest

/-! The value that owns the sign bit. -/

/-- Where `get_hi_bit` sees the sign bit in both inputs, it answers for the first one alone: right if
the second one is 0, or if the two are ORed and the first one is not 0. -/
def HiBitExact (f : Funcdata) (env : VarnodeId → ℕ) (feedOp : OpId) : Prop :=
  ∀ vn1 vn2, (f.op feedOp).inrefs = [vn1, vn2] → (f.op feedOp).opcode = .intAdd ∨
    (f.op feedOp).opcode = .intOr ∨ (f.op feedOp).opcode = .intXor →
    (f.vn vn1).nzm = signMask (f.vn vn1).size → (f.vn vn2).nzm = signMask (f.vn vn1).size →
    f.valueOf env vn2 = 0 ∨ (f.op feedOp).opcode = .intOr ∧ f.valueOf env vn1 ≠ 0

theorem getHiBit_cases (hg : f.RuleGraph) (ho : (f.op feedOp).output = some v)
    (hpos : 0 < (f.vn v).size) (h8 : (f.vn v).size ≤ 8) {hibit : VarnodeId}
    (h : f.getHiBit feedOp = some hibit) : ∃ vn1 vn2, (f.op feedOp).inrefs = [vn1, vn2] ∧
      (f.vn vn1).size = (f.vn v).size ∧ (f.vn vn2).size = (f.vn v).size ∧
      ((f.op feedOp).opcode = .intAdd ∨ (f.op feedOp).opcode = .intOr ∨
        (f.op feedOp).opcode = .intXor) ∧
      ((f.vn vn1).nzm = signMask (f.vn v).size ∨
        (f.vn vn1).nzm.getLsbD (8 * (f.vn v).size - 1) = false) ∧
      ((f.vn vn2).nzm = signMask (f.vn v).size ∨
        (f.vn vn2).nzm.getLsbD (8 * (f.vn v).size - 1) = false) ∧
      (hibit = vn1 ∧ (f.vn vn1).nzm = signMask (f.vn v).size ∨
        hibit = vn2 ∧ (f.vn vn1).nzm ≠ signMask (f.vn v).size ∧
          (f.vn vn2).nzm = signMask (f.vn v).size) := by
  unfold getHiBit at h
  simp only [Option.bind_eq_bind] at h
  split at h
  case isTrue => cases h
  case isFalse hcode =>
    have hcode : (f.op feedOp).opcode = .intAdd ∨ (f.op feedOp).opcode = .intOr ∨
        (f.op feedOp).opcode = .intXor := by
      by_contra hn
      push Not at hn
      exact hcode hn
    have harith : (f.op feedOp).opcode = .intAdd ∨ (f.op feedOp).opcode = .intSub ∨
        (f.op feedOp).opcode = .intMult ∨ (f.op feedOp).opcode = .intAnd ∨
        (f.op feedOp).opcode = .intOr ∨ (f.op feedOp).opcode = .intXor := by
      rcases hcode with hc | hc | hc
      all_goals simp only [hc, true_or, or_true]
    obtain ⟨vn1, vn2, hin, hs1, hs2⟩ := hg.arith_inrefs ho harith
    simp only [input_zero hin, input_one hin, Option.bind_some] at h
    have hclear : ∀ m : U64, ¬(m ≠ signMask (f.vn vn1).size ∧ m &&& signMask (f.vn vn1).size ≠ 0) →
        m = signMask (f.vn v).size ∨ m.getLsbD (8 * (f.vn v).size - 1) = false := by
      intro m hm
      rw [hs1, not_and_or, not_not, not_not] at hm
      exact hm.imp_right (and_signMask_eq_zero m hpos h8).mp
    refine ⟨vn1, vn2, hin, hs1, hs2, hcode, ?_⟩
    split at h
    case isTrue => cases h
    case isFalse h1 =>
      split at h
      case isTrue => cases h
      case isFalse h2 =>
        refine ⟨hclear _ h1, hclear _ h2, ?_⟩
        split at h
        case isTrue hm =>
          rw [hs1] at hm
          exact .inl ⟨(Option.some.inj h).symm, hm⟩
        case isFalse hm =>
          split at h
          case isTrue hm2 =>
            rw [hs1] at hm hm2
            exact .inr ⟨(Option.some.inj h).symm, hm, hm2⟩
          case isFalse => cases h

/-- The sign of a sum, a disjunction or an exclusive or, if one of the two values is its sign bit
alone. -/
theorem neg_combine {s x y : ℕ} (h0 : 0 < s) (hx : x < 2 ^ (8 * s)) (hy : y < 2 ^ (8 * s))
    (hone : (x = 0 ∨ 2 * x = 2 ^ (8 * s)) ∨ (y = 0 ∨ 2 * y = 2 ^ (8 * s))) :
    (Neg s ((x + y) % 2 ^ (8 * s)) ↔ ¬(Neg s x ↔ Neg s y)) ∧
      (Neg s (x ||| y) ↔ Neg s x ∨ Neg s y) ∧ (Neg s (x ^^^ y) ↔ ¬(Neg s x ↔ Neg s y)) := by
  refine ⟨?_, ?_, ?_⟩
  · have hhalf := Signed.two_pow_half (show 0 < 8 * s by omega)
    unfold Neg
    rw [mod_of_lt_double (by omega)]
    generalize 2 ^ (8 * s) = m at *
    split_ifs <;> omega
  · unfold Neg
    rw [two_mul_ge_iff_testBit h0 hx, two_mul_ge_iff_testBit h0 hy,
      two_mul_ge_iff_testBit h0 (Nat.or_lt_two_pow hx hy), Nat.testBit_or, Bool.or_eq_true]
  · unfold Neg
    rw [two_mul_ge_iff_testBit h0 hx, two_mul_ge_iff_testBit h0 hy,
      two_mul_ge_iff_testBit h0 (Nat.xor_lt_two_pow hx hy), Nat.testBit_xor]
    cases x.testBit (8 * s - 1) <;> cases y.testBit (8 * s - 1) <;> simp

/-- A value whose mask is the sign bit is negative exactly where it is not 0. -/
theorem neg_of_signMask {s x : ℕ} {m : U64} (h0 : 0 < s) (h8 : s ≤ 8) (hx : x < 2 ^ (8 * s))
    (hc : Covers m x) (hm : m = signMask s) :
    (x = 0 ∨ 2 * x = 2 ^ (8 * s)) ∧ (Neg s x ↔ x ≠ 0) := by
  subst hm
  have hcases := eq_or_of_signMask h0 h8 hx hc
  have hpos := Nat.two_pow_pos (8 * s)
  refine ⟨hcases, ?_⟩
  unfold Neg
  omega

/-- The sign of what `feedOp` computes of its two inputs. -/
def combinedNeg (f : Funcdata) (env : VarnodeId → ℕ) (feedOp : OpId) (s : ℕ)
    (vn1 vn2 : VarnodeId) : Prop :=
  if (f.op feedOp).opcode = .intOr then Neg s (f.valueOf env vn1) ∨ Neg s (f.valueOf env vn2)
  else ¬(Neg s (f.valueOf env vn1) ↔ Neg s (f.valueOf env vn2))

theorem neg_iff_combinedNeg {vn1 vn2 : VarnodeId} {s x : ℕ} (h0 : 0 < s)
    (hin : (f.op feedOp).inrefs = [vn1, vn2]) (hcode : (f.op feedOp).opcode = .intAdd ∨
      (f.op feedOp).opcode = .intOr ∨ (f.op feedOp).opcode = .intXor)
    (hs : (f.vn v).size = s) (hx : f.valueOf env vn1 < 2 ^ (8 * s))
    (hy : f.valueOf env vn2 < 2 ^ (8 * s))
    (hone : (f.valueOf env vn1 = 0 ∨ 2 * f.valueOf env vn1 = 2 ^ (8 * s)) ∨
      (f.valueOf env vn2 = 0 ∨ 2 * f.valueOf env vn2 = 2 ^ (8 * s)))
    (hres : f.resultOf env feedOp v = some x) : Neg s x ↔ f.combinedNeg env feedOp s vn1 vn2 := by
  have hcomb := neg_combine h0 hx hy hone
  rw [resultOf_two hin, hs] at hres
  unfold combinedNeg
  rcases hcode with hc | hc | hc
  · rw [hc] at hres ⊢
    rw [← Option.some.inj hres]
    exact hcomb.1
  · rw [hc] at hres ⊢
    rw [← Option.some.inj hres]
    exact hcomb.2.1
  · rw [hc] at hres ⊢
    rw [← Option.some.inj hres]
    exact hcomb.2.2

theorem hiBitExact_iff {vn1 vn2 : VarnodeId} {s : ℕ} (hin : (f.op feedOp).inrefs = [vn1, vn2])
    (hcode : (f.op feedOp).opcode = .intAdd ∨ (f.op feedOp).opcode = .intOr ∨
      (f.op feedOp).opcode = .intXor) (hs : (f.vn vn1).size = s) :
    f.HiBitExact env feedOp ↔ ((f.vn vn1).nzm = signMask s → (f.vn vn2).nzm = signMask s →
      f.valueOf env vn2 = 0 ∨ (f.op feedOp).opcode = .intOr ∧ f.valueOf env vn1 ≠ 0) := by
  subst hs
  constructor
  · intro he
    exact he vn1 vn2 hin hcode
  · intro he u1 u2 hin' _
    rw [hin'] at hin
    cases hin
    exact he

/-- Two sign bits: the first one decides a disjunction, or an exclusive or, only so far. -/
theorem two_signs {z1 z2 p : Prop} [Decidable p] :
    ((¬z1 ↔ if p then ¬z1 ∨ ¬z2 else ¬(¬z1 ↔ ¬z2)) ↔ z2 ∨ p ∧ ¬z1) := by
  by_cases hp : p
  · rw [if_pos hp]
    tauto
  · rw [if_neg hp]
    tauto

/-- The value `get_hi_bit` answers for is not 0 exactly where the combined value is negative. -/
theorem hiBit_sign (op : OpId) (env : VarnodeId → ℕ) (hg : f.RuleGraph)
    (hmem : v ∈ (f.op op).inrefs)
    (hd : (f.vn v).defOp = some feedOp) (hpos : 0 < (f.vn v).size) (h8 : (f.vn v).size ≤ 8)
    {hibit : VarnodeId} (h : f.getHiBit feedOp = some hibit) (hval : f.ValuesAt op env) :
    (f.valueOf env hibit ≠ 0 ↔ Neg (f.vn v).size (f.valueOf env v)) ↔ f.HiBitExact env feedOp := by
  have ho := hg.output_of_def hd
  obtain ⟨vn1, vn2, hin, hs1, hs2, hcode, hm1, hm2, hhi⟩ := getHiBit_cases hg ho hpos h8 h
  have hx := hval.fits vn1
  have hy := hval.fits vn2
  rw [hs1] at hx
  rw [hs2] at hy
  have hc1 := hval.masked vn1 (hg.lt_of_mem (o := feedOp) (by rw [hin]; simp))
  have hc2 := hval.masked vn2 (hg.lt_of_mem (o := feedOp) (by rw [hin]; simp))
  have hres := hval.result hmem (.here hd) ho (by rcases hcode with hc | hc | hc <;> rw [hc] <;> rfl)
  rw [hiBitExact_iff hin hcode hs1]
  rcases hhi with ⟨rfl, hm⟩ | ⟨rfl, hne, hm⟩
  · have h1 := neg_of_signMask hpos h8 hx hc1 hm
    rw [neg_iff_combinedNeg hpos hin hcode rfl hx hy (.inl h1.1) hres, combinedNeg]
    by_cases hm' : (f.vn vn2).nzm = signMask (f.vn v).size
    · have h2 := neg_of_signMask hpos h8 hy hc2 hm'
      simp only [hm, hm', true_imp_iff, h1.2, h2.2]
      exact two_signs
    · have h2 := not_le.mpr (not_neg_of_masked hpos h8 hy hc2 (hm2.resolve_left hm'))
      change ¬Neg _ _ at h2
      simp only [hm', false_imp_iff, imp_true_iff, h1.2, h2, or_false, iff_false, not_not,
        ite_self]
  · have h2 := neg_of_signMask hpos h8 hy hc2 hm
    have h1 := not_le.mpr (not_neg_of_masked hpos h8 hx hc1 (hm1.resolve_left hne))
    change ¬Neg _ _ at h1
    rw [neg_iff_combinedNeg hpos hin hcode rfl hx hy (.inr h2.1) hres, combinedNeg]
    simp only [hne, false_imp_iff, h1, h2.2, false_or, false_iff, not_not, ite_self]

/-- The condition says nothing about the other ops. -/
theorem hiBitExact_of_code (h : ¬((f.op feedOp).opcode = .intAdd ∨ (f.op feedOp).opcode = .intOr ∨
    (f.op feedOp).opcode = .intXor)) : f.HiBitExact env feedOp :=
  fun _ _ _ hc => absurd hc h

theorem RewritesIff.congr {P Q : Prop} (h : RewritesIff f env op out g P) (he : P ↔ Q) :
    RewritesIff f env op out g Q := by
  obtain ⟨code, ins, hr, hiff⟩ := h
  exact ⟨code, ins, hr, fun hv => (hiff hv).trans he⟩

/-! What feeds the sign test. -/

section Feed

variable {slot : ℕ} {avn : VarnodeId} (h : f.SignTest op out v slot)
  (hd : (f.vn v).defOp = some feedOp)
include h hd

theorem feed_output : (f.op feedOp).output = some v := h.graph.output_of_def hd

/-- The truncation to the most significant bytes. -/
theorem subpiece_sign (hcode : (f.op feedOp).opcode = .subpiece)
    (havn : (f.op feedOp).input 0 = some avn) (h8 : (f.vn avn).size ≤ 8)
    (htop : f.takesTop feedOp v avn = true) : avn < f.numVarnodes ∧ 0 < (f.vn avn).size ∧
      (f.ValuesAt op env →
        (Neg (f.vn avn).size (f.valueOf env avn) ↔ Neg (f.vn v).size (f.valueOf env v))) := by
  have ho := feed_output h hd
  have hsz := h.graph.sizes ho
  rw [hcode] at hsz
  obtain ⟨sa, sb, hs, hle⟩ := hsz
  obtain ⟨x, k, hin, rfl, -⟩ := inrefs_two hs
  rw [input_zero hin] at havn
  cases havn
  have hmem : avn ∈ (f.op feedOp).inrefs := by
    rw [hin]
    exact List.mem_cons_self
  refine ⟨h.graph.lt_of_mem hmem, h.graph.size_pos hmem ho, fun hv => ?_⟩
  have hk : (f.vn k).constant = true := by
    have hoff := (h.graph.opWf feedOp v ho).offset hcode
    unfold inVn at hoff
    rwa [input_one hin] at hoff
  -- the offset is what is cut off
  have hoff : (f.vn k).constantValue.toNat = (f.vn avn).size - (f.vn v).size := by
    have hsv := h.size_le
    unfold takesTop inVn at htop
    rw [input_one hin, beq_iff_eq] at htop
    have hn := congrArg BitVec.toNat htop
    change (BitVec.ofNat 64 (f.vn v).size + (f.vn k).constantValue).toNat = _ at hn
    rw [BitVec.toNat_add, BitVec.toNat_ofNat, BitVec.toNat_ofNat] at hn
    have hlt := (f.vn k).constantValue.isLt
    omega
  have hres := hv.result h.mem (.here hd) ho (by rw [hcode]; rfl)
  have hpos := h.pos
  rw [resultOf_two hin, hcode, valueOf_const hk, hoff] at hres
  have hx := hv.fits avn
  obtain ⟨t, ht⟩ : ∃ t, (f.vn avn).size = (f.vn v).size + t := ⟨_, (Nat.add_sub_cancel' hle).symm⟩
  rw [ht] at hx hres ⊢
  have hval : f.valueOf env v = f.valueOf env avn / 2 ^ (8 * t) := by
    refine (Option.some.inj hres).symm.trans ?_
    rw [if_neg (by omega), show (f.vn v).size + t - (f.vn v).size = t by omega,
      Nat.shiftRight_eq_div_pow, Nat.mod_eq_of_lt]
    refine Nat.div_lt_of_lt_mul ?_
    rwa [← pow_add, show 8 * t + 8 * (f.vn v).size = 8 * ((f.vn v).size + t) by ring]
  rw [hval]
  exact (neg_div hpos).symm

theorem intNegate_sign (hcode : (f.op feedOp).opcode = .intNegate)
    (havn : (f.op feedOp).input 0 = some avn) : avn < f.numVarnodes ∧
      (f.vn avn).size = (f.vn v).size ∧ (f.ValuesAt op env →
        (Neg (f.vn v).size (f.valueOf env v) ↔ ¬Neg (f.vn v).size (f.valueOf env avn))) := by
  have ho := feed_output h hd
  have hsz := h.graph.sizes ho
  rw [hcode] at hsz
  obtain ⟨x, hin, hxs⟩ := inrefs_one hsz
  rw [input_zero hin] at havn
  cases havn
  refine ⟨h.graph.lt_of_mem (o := feedOp) (by rw [hin]; simp), hxs, fun hv => ?_⟩
  have hres := hv.result h.mem (.here hd) ho (by rw [hcode]; rfl)
  have hx := hv.fits avn
  rw [hxs] at hx
  rw [resultOf_one hin, hcode] at hres
  have hval : f.valueOf env v = 2 ^ (8 * (f.vn v).size) - 1 - f.valueOf env avn := by
    rw [← Option.some.inj hres, BitVec.toNat_not, BitVec.toNat_ofNat, Nat.mod_eq_of_lt hx]
  rw [hval]
  exact neg_not h.pos hx

theorem intAnd_sign (hcode : (f.op feedOp).opcode = .intAnd)
    (havn : (f.op feedOp).input 0 = some avn) (hkeep : f.keepsSign feedOp avn = true) :
    avn < f.numVarnodes ∧ (f.vn avn).size = (f.vn v).size ∧ (f.ValuesAt op env →
      (Neg (f.vn v).size (f.valueOf env avn) ↔ Neg (f.vn v).size (f.valueOf env v))) := by
  have ho := feed_output h hd
  obtain ⟨x, k, hin, hxs, -⟩ := h.graph.arith_inrefs ho (.inr (.inr (.inr (.inl hcode))))
  rw [input_zero hin] at havn
  cases havn
  refine ⟨h.graph.lt_of_mem (o := feedOp) (by rw [hin]; simp), hxs, fun hv => ?_⟩
  have hpos := h.pos
  have h8 := h.size_le
  unfold keepsSign at hkeep
  simp only [input_one hin, Bool.and_eq_true, bne_iff_ne] at hkeep
  have hbit : (f.vn k).constantValue.toNat.testBit (8 * (f.vn v).size - 1) = true := by
    have hne := hkeep.2
    rw [hxs] at hne
    unfold Rules.checkedShr at hne
    rw [if_pos (by omega)] at hne
    by_contra hb
    refine hne (BitVec.eq_of_getLsbD_eq fun i _ => ?_)
    rw [BitVec.getLsbD_and, BitVec.getLsbD_ushiftRight]
    by_cases hi : i = 0
    · subst hi
      rw [Nat.add_zero]
      have hf : (f.vn k).constantValue.getLsbD (8 * (f.vn v).size - 1) = false := by
        simpa [BitVec.getLsbD] using hb
      rw [hf, Bool.false_and]
      exact BitVec.getLsbD_zero.symm
    · have h1 : (1 : U64).getLsbD i = false := by
        change (1#64).getLsbD i = false
        rw [BitVec.getLsbD_one, decide_eq_false hi, Bool.and_false]
      rw [h1, Bool.and_false]
      exact BitVec.getLsbD_zero.symm
  have hres := hv.result h.mem (.here hd) ho (by rw [hcode]; rfl)
  have hx := hv.fits avn
  rw [hxs] at hx
  rw [resultOf_two hin, hcode, valueOf_const hkeep.1] at hres
  rw [← Option.some.inj hres]
  exact (neg_and hpos hx hbit).symm

theorem piece_sign (hcode : (f.op feedOp).opcode = .piece)
    (havn : (f.op feedOp).input 0 = some avn) : avn < f.numVarnodes ∧ 0 < (f.vn avn).size ∧
      (f.vn avn).size ≤ 8 ∧ (f.ValuesAt op env →
        (Neg (f.vn avn).size (f.valueOf env avn) ↔ Neg (f.vn v).size (f.valueOf env v))) := by
  have ho := feed_output h hd
  have hsz := h.graph.sizes ho
  rw [hcode] at hsz
  obtain ⟨sa, sb, hs, hle⟩ := hsz
  obtain ⟨x, y, hin, rfl, rfl⟩ := inrefs_two hs
  rw [input_zero hin] at havn
  cases havn
  have hmem : avn ∈ (f.op feedOp).inrefs := by
    rw [hin]
    exact List.mem_cons_self
  have hpos := h.graph.size_pos hmem ho
  have h8 := h.size_le
  refine ⟨h.graph.lt_of_mem hmem, hpos, by omega, fun hv => ?_⟩
  have hres := hv.result h.mem (.here hd) ho (by rw [hcode]; rfl)
  rw [resultOf_two hin, hcode] at hres
  have hy := hv.fits y
  have hdiv : f.valueOf env avn = f.valueOf env v / 2 ^ (8 * (f.vn y).size) := by
    rw [← Option.some.inj hres, ← Nat.shiftRight_eq_div_pow, Nat.shiftRight_or_distrib,
      Nat.shiftLeft_shiftRight, Nat.shiftRight_eq_div_pow, Nat.div_eq_of_lt hy, Nat.or_zero]
  rw [hdiv, ← hle]
  exact neg_div hpos

/-- A truth value in the sign bit. -/
theorem intLeft_sign (hcode : (f.op feedOp).opcode = .intLeft)
    (havn : (f.op feedOp).input 0 = some avn) {coeff : VarnodeId}
    (hin1 : (f.op feedOp).input 1 = some coeff) (hc : (f.vn coeff).constant = true)
    (hamount : (f.vn coeff).constantValue = BitVec.ofNat 64 ((f.vn v).size * 8 - 1))
    {d : OpId} (hda : (f.vn avn).defOp = some d) (hbool : (f.op d).opcode.isBoolOutput = true) :
    avn < f.numVarnodes ∧ (f.ValuesAt op env → f.valueOf env avn ≤ 1 ∧
      (Neg (f.vn v).size (f.valueOf env v) ↔ f.valueOf env avn = 1)) := by
  have ho := feed_output h hd
  have hsz := h.graph.sizes ho
  rw [hcode] at hsz
  obtain ⟨sb, hs⟩ := hsz
  obtain ⟨x, k, hin, hxs, -⟩ := inrefs_two hs
  rw [input_zero hin] at havn
  cases havn
  rw [input_one hin] at hin1
  cases hin1
  have hmem : avn ∈ (f.op feedOp).inrefs := by
    rw [hin]
    exact List.mem_cons_self
  refine ⟨h.graph.lt_of_mem hmem, fun hv => ?_⟩
  have hfeed : f.Feeds v d := .input (.here hd) (by rw [hcode]; rfl) hmem hda
  have hphi : (f.op d).opcode ≠ .multiequal := fun he => by
    rw [he] at hbool
    cases hbool
  have hone := le_one_of_isBoolOutput hbool
    (hv.computed v h.mem d hfeed hphi avn (h.graph.output_of_def hda))
  refine ⟨hone, ?_⟩
  have h8 := h.size_le
  have hpos := h.pos
  have hres := hv.result h.mem (.here hd) ho (by rw [hcode]; rfl)
  have hk : f.valueOf env coeff = 8 * (f.vn v).size - 1 := by
    rw [valueOf_const hc, hamount, BitVec.toNat_ofNat]
    omega
  rw [resultOf_two hin, hcode, hk] at hres
  have hhalf := Signed.two_pow_half (show 0 < 8 * (f.vn v).size by omega)
  have htwo := Nat.two_pow_pos (8 * (f.vn v).size - 1)
  have hval : f.valueOf env v = f.valueOf env avn * 2 ^ (8 * (f.vn v).size - 1) := by
    refine (Option.some.inj hres).symm.trans ?_
    rw [if_neg (by omega), Nat.shiftLeft_eq, Nat.mod_eq_of_lt]
    calc f.valueOf env avn * 2 ^ (8 * (f.vn v).size - 1)
        ≤ 1 * 2 ^ (8 * (f.vn v).size - 1) := Nat.mul_le_mul_right _ hone
      _ < 2 ^ (8 * (f.vn v).size) := by omega
  unfold Neg
  rcases Nat.le_one_iff_eq_zero_or_eq_one.mp hone with hz | hz
  · rw [hval, hz, Nat.zero_mul]
    omega
  · rw [hval, hz, Nat.one_mul]
    omega

end Feed

theorem slessFeed_sound {slot : ℕ} {other : VarnodeId} (h : f.SignTest op out v slot)
    (hother : (f.vn other).size = (f.vn v).size) (hd : (f.vn v).defOp = some feedOp)
    (hg : f.slessFeed op slot v feedOp other = some g) (env : VarnodeId → ℕ) :
    RewritesIff f env op out g (f.HiBitExact env feedOp) := by
  have hslot := h.slot_le
  unfold slessFeed at hg
  cases hhi : f.getHiBit feedOp with
  | some hibit =>
    rw [hhi] at hg
    have hcases := getHiBit_cases h.graph (h.graph.output_of_def hd) h.pos h.size_le hhi
    obtain ⟨vn1, vn2, hin, hs1, hs2, -, -, -, hor⟩ := hcases
    have hhs : (f.vn hibit).size = (f.vn v).size := by
      rcases hor with ⟨rfl, -⟩ | ⟨rfl, -⟩
      · exact hs1
      · exact hs2
    have hlt : hibit < f.numVarnodes := by
      refine h.graph.lt_of_mem (o := feedOp) ?_
      rw [hin]
      rcases hor with ⟨rfl, -⟩ | ⟨rfl, -⟩
      · exact List.mem_cons_self
      · exact List.mem_cons_of_mem _ List.mem_cons_self
    have hr := Rewritten.refl h.graph.linked.bounded env op
    -- the value goes into the slot, a constant as a fresh one
    have hput : Rewritten f env op (if (f.vn hibit).constant then
        f.setConstInput op slot (f.vn hibit).size (f.vn hibit).constantValue
        else f.opSetInput op slot hibit) (f.op op).opcode
        ((f.operandsOf env op).set slot (f.operandOf env hibit)) := by
      have hlen : slot < (f.operandsOf env op).length := by
        rw [h.length]
        omega
      split
      case isTrue hc =>
        have he : f.operandOf env hibit = ((f.vn hibit).size, (f.vn hibit).constantValue.toNat) := by
          unfold operandOf
          rw [valueOf_const hc]
        rw [he]
        exact hr.setConstInput hlen
      case isFalse => exact hr.setInput hlt hlen
    have hsign := fun hv => hiBit_sign op env h.graph h.mem hd h.pos h.size_le hhi hv
    have hput := hput.opSetOpcode (if slot = 1 then .intEqual else .intNotequal)
    rw [h.operands] at hput
    cases hg
    rcases Nat.le_one_iff_eq_zero_or_eq_one.mp hslot with rfl | rfl
    · refine ⟨_, _, hput, fun hv => ?_⟩
      rw [h.result hv, ← hsign hv]
      refine Iff.trans (Eq.congr_left ?_) signResult_eq_iff
      refine (eval_notequal _ _ _ _ _).trans (some_toNat_eq_iff.mpr ?_)
      simp
    · refine ⟨_, _, hput.setConstInput (k := 0) (by simp), fun hv => ?_⟩
      rw [h.result hv, ← hsign hv]
      refine Iff.trans (Eq.congr_left ?_) signResult_eq_iff
      refine (eval_equal _ _ _ _ _).trans (some_toNat_eq_iff.mpr ?_)
      simp only [true_iff, not_not]
      exact eq_comm
  | none =>
    rw [hhi] at hg
    dsimp only at hg
    split at hg
    case h_1 hcode =>
      refine RewritesIff.congr ?_ (iff_of_true trivial (hiBitExact_of_code (by simp [hcode])))
      obtain ⟨avn, havn, hg⟩ := Option.bind_eq_some_iff.mp hg
      split at hg
      case isTrue => cases hg
      case isFalse hfree =>
        simp only [Bool.or_eq_true, decide_eq_true_eq, not_or] at hfree
        split at hg
        case isFalse => cases hg
        case isTrue htop =>
          cases hg
          obtain ⟨hlt, hpos, hsign⟩ := subpiece_sign h hd hcode havn (not_lt.mp hfree.2) htop
          exact h.rewrites hlt hpos (not_lt.mp hfree.2) hslot rfl fun hv =>
            iff_of_true rfl (hsign hv)
    case h_2 hcode =>
      refine RewritesIff.congr ?_ (iff_of_true trivial (hiBitExact_of_code (by simp [hcode])))
      obtain ⟨avn, havn, hg⟩ := Option.bind_eq_some_iff.mp hg
      split at hg
      case isTrue => cases hg
      case isFalse =>
        cases hg
        obtain ⟨hlt, hs, hsign⟩ := intNegate_sign h hd hcode havn
        refine h.rewrites hlt (hs ▸ h.pos) (hs ▸ h.size_le) (i := 1 - slot) (by omega) ?_
          fun hv => ?_
        · rcases Nat.le_one_iff_eq_zero_or_eq_one.mp hslot with rfl | rfl <;> rfl
        · rw [hs, hsign hv]
          have hne : slot ≠ 1 - slot := by omega
          simp [hne]
    case h_3 hcode =>
      refine RewritesIff.congr ?_ (iff_of_true trivial (hiBitExact_of_code (by simp [hcode])))
      obtain ⟨avn, havn, hg⟩ := Option.bind_eq_some_iff.mp hg
      split at hg
      case isTrue => cases hg
      case isFalse =>
        split at hg
        case isFalse => cases hg
        case isTrue hkeep =>
          cases hg
          obtain ⟨hlt, hs, hsign⟩ := intAnd_sign h hd hcode havn hkeep
          have hr := (Rewritten.refl h.graph.linked.bounded env op).setInput (k := slot) hlt
            (by rw [h.length]; omega)
          refine .of_eq hr fun hv => ?_
          rw [h.result hv, ← signResult_eq_iff.mpr (hsign hv), h.code, h.operands]
          have hx := hv.fits avn
          rw [hs] at hx
          have he := eval_sign (f.vn v).size (f.vn out).size h.pos hx
          unfold operandOf signResult
          rw [hs]
          rcases Nat.le_one_iff_eq_zero_or_eq_one.mp hslot with rfl | rfl
          · exact he.2.trans (some_toNat_eq_iff.mpr (by simp))
          · exact he.1.trans (some_toNat_eq_iff.mpr (by simp))
    case h_4 hcode =>
      refine RewritesIff.congr ?_ (iff_of_true trivial (hiBitExact_of_code (by simp [hcode])))
      obtain ⟨avn, havn, hg⟩ := Option.bind_eq_some_iff.mp hg
      split at hg
      case isTrue => cases hg
      case isFalse =>
        cases hg
        obtain ⟨hlt, hpos, h8, hsign⟩ := piece_sign h hd hcode havn
        exact h.rewrites hlt hpos h8 hslot rfl fun hv => iff_of_true rfl (hsign hv)
    case h_5 hcode =>
      refine RewritesIff.congr ?_ (iff_of_true trivial (hiBitExact_of_code (by simp [hcode])))
      split at hg
      case isTrue => cases hg
      case isFalse hone =>
        obtain rfl := not_not.mp hone
        obtain ⟨coeff, hcoeff, hg⟩ := Option.bind_eq_some_iff.mp hg
        obtain ⟨avn, havn, hg⟩ := Option.bind_eq_some_iff.mp hg
        split at hg
        case isTrue => cases hg
        case isFalse hc =>
          split at hg
          case isTrue => cases hg
          case isFalse =>
            obtain ⟨d, hda, hg⟩ := Option.bind_eq_some_iff.mp hg
            split at hg
            case isTrue => cases hg
            case isFalse hbool =>
              cases hg
              simp only [Bool.or_eq_true, Bool.not_eq_true', not_or, Bool.not_eq_false, bne_iff_ne,
                ne_eq, not_not] at hc
              rw [hother] at hc
              obtain ⟨hlt, hsign⟩ := intLeft_sign h hd hcode havn hcoeff hc.1 hc.2 hda
                (by simpa using hbool)
              have hr := (((Rewritten.refl h.graph.linked.bounded env op).opSetOpcode
                .boolNegate).opRemoveInput 1).setInput (k := 0) hlt (by
                  rw [h.operands, if_pos rfl]
                  simp)
              rw [h.operands, if_pos rfl] at hr
              refine .of_eq hr fun hv => ?_
              obtain ⟨hle, hneg⟩ := hsign hv
              rw [h.result hv]
              change (if f.valueOf env avn ≤ 1 then some (1 - f.valueOf env avn) else none) = _
              rw [if_pos hle]
              unfold signResult
              simp only [hneg, true_iff]
              rcases Nat.le_one_iff_eq_zero_or_eq_one.mp hle with hz | hz
              all_goals
                rw [hz]
                rfl
    case h_6 => cases hg

/-- The op that computes the value whose sign `op` tests. -/
def signFeed (f : Funcdata) (op : OpId) : Option OpId :=
  if (f.inVn op 0).constant then (f.inVn op 1).defOp else (f.inVn op 0).defOp

theorem sless2Zero_sound (h : f.Compare op out a b) (hcode : (f.op op).opcode = .intSless)
    (hg : f.sless2Zero op = some g) (env : VarnodeId → ℕ) :
    RewritesIff f env op out g (∀ d, f.signFeed op = some d → f.HiBitExact env d) := by
  have hin0 : f.inVn op 0 = f.vn a := by
    unfold inVn
    rw [h.input0]
    rfl
  have hin1 : f.inVn op 1 = f.vn b := by
    unfold inVn
    rw [h.input1]
    rfl
  unfold sless2Zero at hg
  simp only [h.input0, h.input1, Option.bind_eq_bind, Option.bind_some] at hg
  unfold signFeed
  rw [hin0, hin1]
  split at hg
  case isTrue hc =>
    split at hg
    case isTrue => cases hg
    case isFalse =>
      split at hg
      case isTrue => cases hg
      case isFalse hm =>
        obtain ⟨d, hd, hg⟩ := Option.bind_eq_some_iff.mp hg
        have ht : f.SignTest op out b 1 := by
          refine ⟨h.graph, h.output, hcode, ?_, h.pos', h.size_le', le_rfl, fun env => ?_⟩
          · rw [h.inrefs]
            exact List.mem_cons_of_mem _ List.mem_cons_self
          · rw [h.operands, if_pos rfl, valueOf_mask hc (not_not.mp hm) h.size_le, h.size]
        refine (slessFeed_sound ht h.size hd hg env).congr ?_
        rw [if_pos hc]
        exact ⟨fun he d' hd' => Option.some.inj (hd.symm.trans hd') ▸ he, fun he => he d hd⟩
  case isFalse hc =>
    split at hg
    case isFalse => cases hg
    case isTrue hcb =>
      split at hg
      case isTrue => cases hg
      case isFalse =>
        split at hg
        case isTrue => cases hg
        case isFalse hz =>
          obtain ⟨d, hd, hg⟩ := Option.bind_eq_some_iff.mp hg
          have ht : f.SignTest op out a 0 := by
            refine ⟨h.graph, h.output, hcode, ?_, h.pos, h.size_le, zero_le_one, fun env => ?_⟩
            · rw [h.inrefs]
              exact List.mem_cons_self
            · rw [h.operands, if_neg zero_ne_one, valueOf_zero hcb (not_not.mp hz), h.size]
          refine (slessFeed_sound ht h.size.symm hd hg env).congr ?_
          rw [if_neg hc]
          exact ⟨fun he d' hd' => Option.some.inj (hd.symm.trans hd') ▸ he, fun he => he d hd⟩

end Funcdata
end Mosura
