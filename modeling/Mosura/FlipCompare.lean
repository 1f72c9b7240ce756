import Mosura.CompareSound
import Mosura.ExpandLoadSound
import Mosura.FlipInPlace

/-! A comparison that is flipped in place: it becomes its complement, but with an extreme constant it
may become one that never holds, as it did before. -/

namespace Mosura
namespace Funcdata

/-! The constants that cannot be moved by one. -/

/-- `V s< c` holds for no `V`, or for no `V` that fits in 8 bytes, and the same becomes of its
complement `c - 1 s< V`. -/
def LowEnd (s : ℕ) (c : U64) (V : ℕ) : Prop :=
  s < 8 ∧ c = signMask s ∨ 8 < s ∧ c = 0 ∧ V < 2 ^ 64

/-- `c s< V` and `V s< c + 1` in the same way. -/
def HighEnd (s : ℕ) (c : U64) (V : ℕ) : Prop :=
  s < 8 ∧ c = calcMask s >>> 1 ∨ 8 < s ∧ c = BitVec.allOnes 64 ∧ V < 2 ^ 64

section Constants

variable {s V : ℕ} {c diff : U64}

/-- In 8 bytes and more the moved constant is not cut off. -/
theorem moved_of_le (h8 : 8 ≤ s) : (Rules.signExtendVal c s 8 + diff) &&& calcMask s = c + diff := by
  have hmask {n : ℕ} (hn : 8 ≤ n) (v : U64) : v &&& calcMask n = v := by
    unfold calcMask
    rw [if_pos hn]
    exact BitVec.and_allOnes
  unfold Rules.signExtendVal Rules.sext
  rw [if_pos (.inr h8), hmask le_rfl, hmask h8]

theorem signExtendVal_of_le (h8 : 8 ≤ s) : Rules.signExtendVal c s 8 = c := by
  unfold Rules.signExtendVal Rules.sext
  rw [if_pos (.inr h8)]
  exact BitVec.and_allOnes

theorem toNat_sub_one (h0 : 0 < s) (h8 : s ≤ 8) (hc : c.toNat < 2 ^ (8 * s)) :
    ((Rules.signExtendVal c s 8 + -1) &&& calcMask s).toNat =
      (c.toNat + (2 ^ (8 * s) - 1)) % 2 ^ (8 * s) := by
  rw [add_and_calcMask_toNat _ _ h8, signExtendVal_mod h0 h8 hc, neg_one_mod h0 h8]

theorem toNat_add_one (h0 : 0 < s) (h8 : s ≤ 8) (hc : c.toNat < 2 ^ (8 * s)) :
    ((Rules.signExtendVal c s 8 + 1) &&& calcMask s).toNat = (c.toNat + 1) % 2 ^ (8 * s) := by
  rw [add_and_calcMask_toNat _ _ h8, signExtendVal_mod h0 h8 hc, one_mod h0]

theorem and_calcMask_lt (v : U64) (s : ℕ) : (v &&& calcMask s).toNat < 2 ^ (8 * s) := by
  by_cases h8 : s ≤ 8
  · rw [and_calcMask_toNat v h8]
    exact Nat.mod_lt _ (Nat.two_pow_pos _)
  · exact (v &&& calcMask s).isLt.trans_le (Nat.pow_le_pow_right two_pos (by omega))

theorem toInt_wide {n : ℕ} (h8 : 8 < s) (hn : n < 2 ^ 64) : Signed.toInt (8 * s) n = n := by
  have hbig : 2 ^ 65 ≤ 2 ^ (8 * s) := Nat.pow_le_pow_right two_pos (by omega)
  exact Signed.toInt_of_lt (by omega)

/-- A number of more than 8 bytes is one that fits in 8, or it is above or below them all. -/
theorem toInt_wide_cases (h8 : 8 < s) (hV : V < 2 ^ (8 * s)) :
    V < 2 ^ 64 ∧ Signed.toInt (8 * s) V = V ∨
      2 ^ 64 ≤ V ∧ (Signed.toInt (8 * s) V < 0 ∨ 2 ^ 64 ≤ Signed.toInt (8 * s) V) := by
  rcases Nat.lt_or_ge V (2 ^ 64) with hlt | hge
  · exact .inl ⟨hlt, toInt_wide h8 hlt⟩
  · refine .inr ⟨hge, ?_⟩
    unfold Signed.toInt
    split_ifs <;> omega

theorem toNat_pred (hz : c ≠ 0) : (c + -1).toNat = c.toNat - 1 := by
  have hne : c.toNat ≠ 0 := fun he => hz (BitVec.eq_of_toNat_eq he)
  bv_omega

theorem toNat_succ (hm : c ≠ BitVec.allOnes 64) : (c + 1).toNat = c.toNat + 1 := by
  have hne : c.toNat ≠ 2 ^ 64 - 1 := fun he => hm (BitVec.eq_of_toNat_eq he)
  bv_omega

variable (h0 : 0 < s) (hc : c.toNat < 2 ^ (8 * s)) (hV : V < 2 ^ (8 * s))
include h0 hc hV

/-- `c - 1 s< V` is the complement of `V s< c`, or neither holds. -/
theorem sless_sub_one
    (hov : lessequalOverflows .intSlessequal (Rules.signExtendVal c s 8) (-1) ≠ true) :
    (LowEnd s c V → ¬Signed.toInt (8 * s) V < Signed.toInt (8 * s) c.toNat ∧
      ¬Signed.toInt (8 * s) ((Rules.signExtendVal c s 8 + -1) &&& calcMask s).toNat <
        Signed.toInt (8 * s) V) ∧
    (¬LowEnd s c V → (Signed.toInt (8 * s) ((Rules.signExtendVal c s 8 + -1) &&& calcMask s).toNat <
      Signed.toInt (8 * s) V ↔ ¬Signed.toInt (8 * s) V < Signed.toInt (8 * s) c.toNat)) := by
  by_cases h8 : s ≤ 8
  · have hiff := toInt_sub_one_lt_iff (Nat.mul_pos (by decide) h0) hV hc
    rw [← toNat_sub_one h0 h8 hc, ← signMask_toNat h0 h8, Ne, BitVec.toNat_inj] at hiff
    have hlow : LowEnd s c V ↔ c = signMask s := by
      unfold LowEnd
      constructor
      · rintro (⟨-, he⟩ | ⟨hlt, -⟩)
        · exact he
        · omega
      · rintro rfl
        refine .inl ⟨lt_of_le_of_ne h8 fun he => hov ?_, rfl⟩
        subst he
        decide
    rw [hlow]
    constructor
    · intro he
      have hmin := (Signed.toInt_bounds (Nat.mul_pos (by decide) h0) hV).1
      have hcmin : Signed.toInt (8 * s) c.toNat = -((2 ^ (8 * s - 1) : ℕ) : ℤ) := by
        have hhalf := Signed.two_pow_half (show 0 < 8 * s by omega)
        rw [he, signMask_toNat h0 h8, Signed.toInt_of_ge hhalf.le]
        omega
      have hbad := mt hiff.mp (not_not.mpr he)
      rw [not_iff] at hbad
      omega
    · intro he
      rw [hiff.mpr he, not_lt]
  · rw [not_le] at h8
    rw [moved_of_le h8.le]
    rw [signExtendVal_of_le h8.le] at hov
    have hlow : LowEnd s c V ↔ c = 0 ∧ V < 2 ^ 64 := by
      unfold LowEnd
      constructor
      · rintro (⟨hlt, -⟩ | ⟨-, he⟩)
        · omega
        · exact he
      · exact fun he => .inr ⟨h8, he⟩
    rw [hlow, toInt_wide h8 c.isLt, toInt_wide h8 (c + -1).isLt]
    have hcases := toInt_wide_cases h8 hV
    by_cases hz : c = 0
    · subst hz
      have hmax : ((0 : U64) + -1).toNat = 2 ^ 64 - 1 := rfl
      have hzero : (0 : U64).toNat = 0 := rfl
      simp only [hmax, hzero, true_and]
      omega
    · have hne : c.toNat ≠ 0 := fun he => hz (BitVec.eq_of_toNat_eq he)
      refine ⟨fun he => absurd he.1 hz, fun _ => ?_⟩
      rw [toNat_pred hz]
      omega

/-- `V s< c + 1` is the complement of `c s< V`, or neither holds. -/
theorem sless_add_one
    (hov : lessequalOverflows .intSlessequal (Rules.signExtendVal c s 8) 1 ≠ true) :
    (HighEnd s c V → ¬Signed.toInt (8 * s) c.toNat < Signed.toInt (8 * s) V ∧
      ¬Signed.toInt (8 * s) V <
        Signed.toInt (8 * s) ((Rules.signExtendVal c s 8 + 1) &&& calcMask s).toNat) ∧
    (¬HighEnd s c V → (Signed.toInt (8 * s) V <
      Signed.toInt (8 * s) ((Rules.signExtendVal c s 8 + 1) &&& calcMask s).toNat ↔
        ¬Signed.toInt (8 * s) c.toNat < Signed.toInt (8 * s) V)) := by
  by_cases h8 : s ≤ 8
  · have hiff := toInt_lt_add_one_iff (Nat.mul_pos (by decide) h0) hV hc
    rw [← toNat_add_one h0 h8 hc, ← calcMask_half_toNat h0 h8, Ne, BitVec.toNat_inj] at hiff
    have hhigh : HighEnd s c V ↔ c = calcMask s >>> 1 := by
      unfold HighEnd
      constructor
      · rintro (⟨-, he⟩ | ⟨hlt, -⟩)
        · exact he
        · omega
      · rintro rfl
        refine .inl ⟨lt_of_le_of_ne h8 fun he => hov ?_, rfl⟩
        subst he
        decide
    rw [hhigh]
    constructor
    · intro he
      have hmax := (Signed.toInt_bounds (Nat.mul_pos (by decide) h0) hV).2
      have hcmax : Signed.toInt (8 * s) c.toNat = ((2 ^ (8 * s - 1) : ℕ) : ℤ) - 1 := by
        have hhalf := Signed.two_pow_half (show 0 < 8 * s by omega)
        have hpos := Nat.two_pow_pos (8 * s - 1)
        rw [he, calcMask_half_toNat h0 h8, Signed.toInt_of_lt (by omega)]
        omega
      have hbad := mt hiff.mp (not_not.mpr he)
      rw [not_iff] at hbad
      omega
    · intro he
      rw [hiff.mpr he, not_lt]
  · rw [not_le] at h8
    rw [moved_of_le h8.le]
    have hhigh : HighEnd s c V ↔ c = BitVec.allOnes 64 ∧ V < 2 ^ 64 := by
      unfold HighEnd
      constructor
      · rintro (⟨hlt, -⟩ | ⟨-, he⟩)
        · omega
        · exact he
      · exact fun he => .inr ⟨h8, he⟩
    rw [hhigh, toInt_wide h8 c.isLt, toInt_wide h8 (c + 1).isLt]
    have hcases := toInt_wide_cases h8 hV
    by_cases hm : c = BitVec.allOnes 64
    · subst hm
      have hzero : (BitVec.allOnes 64 + 1).toNat = 0 := rfl
      have hmax : (BitVec.allOnes 64).toNat = 2 ^ 64 - 1 := rfl
      simp only [hmax, hzero, true_and]
      omega
    · have hne : c.toNat ≠ 2 ^ 64 - 1 := fun he => hm (BitVec.eq_of_toNat_eq he)
      have hlt := c.isLt
      refine ⟨fun he => absurd he.1 hm, fun _ => ?_⟩
      rw [toNat_succ hm]
      omega

omit hV in
theorem less_sub_one
    (hov : lessequalOverflows .intLessequal (Rules.signExtendVal c s 8) (-1) ≠ true) :
    ((Rules.signExtendVal c s 8 + -1) &&& calcMask s).toNat < V ↔ ¬V < c.toNat := by
  by_cases h8 : s ≤ 8
  · rw [toNat_sub_one h0 h8 hc, not_lt]
    exact sub_one_mod_lt_iff hc ((not_lessequalOverflows h0 h8 hc hov).1 rfl)
  · rw [not_le] at h8
    rw [signExtendVal_of_le h8.le] at hov
    have hz : c ≠ 0 := by
      rintro rfl
      exact hov (by decide)
    have hne : c.toNat ≠ 0 := fun he => hz (BitVec.eq_of_toNat_eq he)
    rw [moved_of_le h8.le, toNat_pred hz]
    omega

omit hV in
theorem less_add_one
    (hov : lessequalOverflows .intLessequal (Rules.signExtendVal c s 8) 1 ≠ true) :
    V < ((Rules.signExtendVal c s 8 + 1) &&& calcMask s).toNat ↔ ¬c.toNat < V := by
  by_cases h8 : s ≤ 8
  · rw [toNat_add_one h0 h8 hc, not_lt]
    exact lt_add_one_mod_iff hc ((not_lessequalOverflows h0 h8 hc hov).2 rfl)
  · rw [not_le] at h8
    rw [signExtendVal_of_le h8.le] at hov
    have hm : c ≠ BitVec.allOnes 64 := by
      rintro rfl
      exact hov (by decide)
    rw [moved_of_le h8.le, toNat_succ hm]
    omega

end Constants

/-! One comparison that is flipped. -/

variable {f g g' : Funcdata} {fl : FloatCompare} {env : VarnodeId → ℕ} {x o cb : OpId}
  {a b p q v w : VarnodeId}

/-- The comparison has an extreme constant, which `replace_lessequal` does not see to be one. -/
def Extreme (f : Funcdata) (env : VarnodeId → ℕ) (x : OpId) : Prop :=
  (f.op x).opcode = .intSless ∧ ∃ a b, (f.op x).inrefs = [a, b] ∧
    if (f.vn b).constant then LowEnd (f.vn b).size (f.vn b).constantValue (f.valueOf env a)
    else (f.vn a).constant = true ∧
      HighEnd (f.vn a).size (f.vn a).constantValue (f.valueOf env b)

/-- The comparison `x` of `g` is flipped in `g'`. -/
structure Turned (g g' : Funcdata) (x : OpId) : Prop where
  output : (g'.op x).output = (g.op x).output
  dead : (g'.op x).dead = (g.op x).dead
  inrefs : ∀ u ∈ (g'.op x).inrefs, u ∈ (g.op x).inrefs ∨ (g'.vn u).constant = true
  truth : ∀ fl env y, (∀ v ∈ (g.op x).inrefs, g.valueOf env v < 2 ^ (8 * (g.vn v).size)) →
    g.truth fl env x = some y → (g.Extreme env x → y = 0 ∧ g'.truth fl env x = some 0) ∧
      (¬g.Extreme env x → g'.truth fl env x = some (1 - y))

/-- `g'` is `g` with the comparison `x` flipped. -/
structure CompareFlipped (g g' : Funcdata) (x : OpId) : Prop where
  linked : g'.Linked
  keeps : Keeps g g'
  other : ∀ o, o ≠ x → g'.op o = g.op o
  turned : Turned g g' x

/-- A new constant becomes an input of `x`, which gets another opcode. -/
theorem setConst_spec (h : g.Linked) (hin : (g.op x).inrefs = [p, q]) (code : OpCode) {i : ℕ}
    (hi : i < 2) (n : ℕ) (c : U64) : ((g.opSetOpcode x code).setConstInput x i n c).Linked ∧
      Keeps g ((g.opSetOpcode x code).setConstInput x i n c) ∧
      (∀ o, o ≠ x → ((g.opSetOpcode x code).setConstInput x i n c).op o = g.op o) ∧
      ∃ u, ((g.opSetOpcode x code).setConstInput x i n c).op x =
          { g.op x with opcode := code, inrefs := [p, q].set i u } ∧
        (((g.opSetOpcode x code).setConstInput x i n c).vn u).constant = true ∧
        ∀ env, ((g.opSetOpcode x code).setConstInput x i n c).operandOf env u = (n, c.toNat) := by
  have hcode := h.opSetOpcode x code
  have hlt := newConst_lt (g.opSetOpcode x code) n c
  have hnew : ((g.opSetOpcode x code).newConst n c).1.Linked := Books.allocVarnode hcode n _ true
  have hop : ((g.opSetOpcode x code).newConst n c).1.op x = { g.op x with opcode := code } :=
    opSetOpcode_op_self g x code
  have hslot : i < (((g.opSetOpcode x code).newConst n c).1.op x).inrefs.length := by
    rw [hop, hin]
    exact hi
  obtain ⟨u, hself, hu⟩ := opSetInput_op_self _ x hslot hlt
  refine ⟨hnew.opSetInput hlt x, ?_, fun o ho => ?_, u, ?_, ?_, fun env => ?_⟩
  · exact (Keeps.opSetOpcode g x code).trans
      ((Keeps.newConst _ n c).trans (Keeps.opSetInput _ x i _))
  · exact (opSetInput_op_ne ho i _).trans (opSetOpcode_op_ne ho code)
  · unfold setConstInput
    rw [hself, hop, hin]
  · have hconst : (((g.opSetOpcode x code).newConst n c).1.vn
        ((g.opSetOpcode x code).newConst n c).2).constant = true := by
      rw [newConst_vn]
      rfl
    rcases hu.same with ⟨-, he⟩ | ⟨he, -⟩
    · exact he.trans hconst
    · exact he
  · unfold setConstInput
    rw [hu.operandOf, newConst_operandOf]

/-- The operand of `x`, and of the graphs that keep it. -/
theorem truth_of_inrefs (hin : (g.op x).inrefs = [p, q]) : g.truth fl env x =
    fl.result (g.op x).opcode [g.operandOf env p, g.operandOf env q] := by
  unfold truth operandsOf
  rw [hin]
  rfl

/-- A comparison of two operands has a result. -/
theorem result_total {code flipped : OpCode} {reorder : Bool}
    (hflip : code.getBooleanflip = some (flipped, reorder)) (hb : flipped.isBoolOutput = true)
    (fl : FloatCompare) (p q : ℕ × ℕ) : ∃ y, fl.result flipped [p, q] = some y := by
  cases code
  case boolNegate =>
    cases hflip
    cases hb
  all_goals first
    | cases hflip; exact ⟨_, rfl⟩
    | cases hflip

/-- The guard against an overflow in 8 bytes does not see the other extreme constants. -/
theorem LowEnd.not_overflows {s V : ℕ} {c : U64} (h0 : 0 < s) (h : LowEnd s c V) :
    lessequalOverflows .intSlessequal (Rules.signExtendVal c s 8) (-1) ≠ true := by
  rcases h with ⟨h8, rfl⟩ | ⟨h8, rfl, -⟩
  · interval_cases s
    all_goals decide
  · rw [signExtendVal_of_le h8.le]
    decide

theorem HighEnd.not_overflows {s V : ℕ} {c : U64} (h0 : 0 < s) (h : HighEnd s c V) :
    lessequalOverflows .intSlessequal (Rules.signExtendVal c s 8) 1 ≠ true := by
  rcases h with ⟨h8, rfl⟩ | ⟨h8, rfl, -⟩
  · interval_cases s
    all_goals decide
  · rw [signExtendVal_of_le h8.le]
    decide

/-- The comparison with its complement as opcode, and its inputs in the order of the complement. -/
def flipCompare (g : Funcdata) (x : OpId) (opc : OpCode) (reorder : Bool) : Funcdata :=
  if reorder then (g.opSetOpcode x opc).opSwapInput x 0 1 else g.opSetOpcode x opc

theorem flipCompare_spec (h : g.Linked) (hin : (g.op x).inrefs = [a, b]) (opc : OpCode)
    (reorder : Bool) : (g.flipCompare x opc reorder).Linked ∧
      (g.flipCompare x opc reorder).vn = g.vn ∧
      (g.flipCompare x opc reorder).numVarnodes = g.numVarnodes ∧
      (∀ o, o ≠ x → (g.flipCompare x opc reorder).op o = g.op o) ∧
      (g.flipCompare x opc reorder).op x =
        { g.op x with opcode := opc, inrefs := if reorder then [b, a] else [a, b] } := by
  have hself := opSetOpcode_op_self g x opc
  have hne (o : OpId) (ho : o ≠ x) := opSetOpcode_op_ne (f := g) ho opc
  cases reorder
  · refine ⟨h.opSetOpcode x opc, rfl, rfl, hne, ?_⟩
    change (g.opSetOpcode x opc).op x = { g.op x with opcode := opc, inrefs := [a, b] }
    rw [hself, ← hin]
  · have hin' : ((g.opSetOpcode x opc).op x).inrefs = [a, b] := by
      rw [hself]
      exact hin
    have hswap : g.flipCompare x opc true = (g.opSetOpcode x opc).modOp x fun o =>
        { o with inrefs := (o.inrefs.set 0 b).set 1 a } := by
      unfold flipCompare opSwapInput
      rw [if_pos rfl, input_zero hin', input_one hin']
    refine ⟨(h.opSetOpcode x opc).opSwapInput x 0 1, by rw [hswap]; rfl, by rw [hswap]; rfl,
      fun o ho => ?_, ?_⟩
    · rw [hswap, modOp_op, if_neg ho, hne o ho]
    · rw [hswap, modOp_op, if_pos rfl, hself, hin]
      rfl

/-- The results after the constant was moved: the complement of the result before, or 0 as before. -/
theorem result_moved {P Q : Prop} [Decidable P] [Decidable Q] {E : Prop} {y : ℕ}
    (hE : E → ¬P ∧ ¬Q) (hnE : ¬E → (Q ↔ ¬P)) (hy : some (decide P).toNat = some y) :
    (E → y = 0 ∧ some (decide Q).toNat = some 0) ∧
      (¬E → some (decide Q).toNat = some (1 - y)) := by
  cases hy
  constructor
  · intro he
    obtain ⟨hP, hQ⟩ := hE he
    rw [decide_eq_false hP, decide_eq_false hQ]
    exact ⟨rfl, rfl⟩
  · intro he
    by_cases hP : P
    · rw [decide_eq_true hP, decide_eq_false (fun hQ => (hnE he).mp hQ hP)]
      rfl
    · rw [decide_eq_false hP, decide_eq_true ((hnE he).mpr hP)]
      rfl

/-- An input of the complement becomes another constant. -/
theorem compareFlipped_setConst {k : Funcdata} {opc code : OpCode} {i s : ℕ} {c : U64}
    (hl : k.Linked) (hkeep : Keeps g k) (hne : ∀ o, o ≠ x → k.op o = g.op o)
    (hself : k.op x = { g.op x with opcode := opc, inrefs := [b, a] })
    (hin : (g.op x).inrefs = [a, b]) (ha : a < g.numVarnodes) (hb : b < g.numVarnodes) (hi : i < 2)
    (htruth : ∀ fl env y, (∀ v ∈ (g.op x).inrefs, g.valueOf env v < 2 ^ (8 * (g.vn v).size)) →
      g.truth fl env x = some y →
      (g.Extreme env x → y = 0 ∧ fl.result code
        ([g.operandOf env b, g.operandOf env a].set i (s, c.toNat)) = some 0) ∧
      (¬g.Extreme env x → fl.result code
        ([g.operandOf env b, g.operandOf env a].set i (s, c.toNat)) = some (1 - y))) :
    CompareFlipped g ((k.opSetOpcode x code).setConstInput x i s c) x := by
  have hin' : (k.op x).inrefs = [b, a] := by rw [hself]
  obtain ⟨hl', hk', hne', u, hu, hconst, hval⟩ := setConst_spec hl hin' code hi s c
  generalize (k.opSetOpcode x code).setConstInput x i s c = m at *
  have hkeeps := hkeep.trans hk'
  refine ⟨hl', hkeeps, fun o ho => (hne' o ho).trans (hne o ho), by rw [hu, hself],
    by rw [hu, hself], fun w hw => ?_, fun fl env y hfit hy => ?_⟩
  · rw [hu] at hw
    rcases List.mem_or_eq_of_mem_set hw with hw | rfl
    · rw [hin]
      exact .inl (List.mem_pair.mpr (List.mem_pair.mp hw).symm)
    · exact .inr hconst
  · have hops : m.operandsOf env x =
        [g.operandOf env b, g.operandOf env a].set i (s, c.toNat) := by
      unfold operandsOf
      rw [hu, List.map_set, hval env, List.map_cons, List.map_cons, List.map_nil,
        hkeeps.operandOf ha, hkeeps.operandOf hb]
    have hnew : m.truth fl env x = fl.result code
        ([g.operandOf env b, g.operandOf env a].set i (s, c.toNat)) := by
      unfold truth
      rw [hops, hu]
    rw [hnew]
    exact htruth fl env y hfit hy

section Compare

variable {code opc : OpCode} {reorder : Bool} {s : ℕ} (h : g.Linked)
  (hin : (g.op x).inrefs = [a, b]) (ha : (g.vn a).size = s) (hb : (g.vn b).size = s)
  (hcode : (g.op x).opcode.flipsAlone = true)
  (hflip : (g.op x).opcode.getBooleanflip = some (opc, reorder)) (hbool : opc.isBoolOutput = true)
include h hin ha hb hcode hflip hbool

/-- The complement has the opposite result. -/
theorem truth_flipCompare {y : ℕ}
    (hfit : ∀ v ∈ (g.op x).inrefs, g.valueOf env v < 2 ^ (8 * (g.vn v).size))
    (hy : g.truth fl env x = some y) :
    (g.flipCompare x opc reorder).truth fl env x = some (1 - y) := by
  obtain ⟨-, hvn, -, -, hself⟩ := flipCompare_spec h hin opc reorder
  have hfa := hfit a (by simp [hin])
  have hfb := hfit b (by simp [hin])
  rw [ha] at hfa
  rw [hb] at hfb
  have hop (v : VarnodeId) : (g.flipCompare x opc reorder).operandOf env v = g.operandOf env v := by
    unfold operandOf valueOf
    rw [hvn]
  have hopa : g.operandOf env a = (s, g.valueOf env a) := by
    unfold operandOf
    rw [ha]
  have hopb : g.operandOf env b = (s, g.valueOf env b) := by
    unfold operandOf
    rw [hb]
  have hfo : ¬(opc = .floatLess ∧ (g.op x).opcode = .floatLessequal ∨
      opc = .floatLessequal ∧ (g.op x).opcode = .floatLess) := by
    rintro (⟨-, he⟩ | ⟨-, he⟩)
    all_goals
      rw [he] at hcode
      cases hcode
  rw [truth_of_inrefs hin, hopa, hopb] at hy
  have hsum {z : ℕ} (hz : z + y = 1) : z = 1 - y := by omega
  cases reorder
  · have hin' : ((g.flipCompare x opc false).op x).inrefs = [a, b] := by
      rw [hself]
      rfl
    obtain ⟨z, hz⟩ := result_total hflip hbool fl (s, g.valueOf env a) (s, g.valueOf env b)
    rw [truth_of_inrefs hin', hop, hop, hopa, hopb, hself]
    rw [← hsum (flip_result hflip hbool hfo hfa hfb hz hy)]
    exact hz
  · have hin' : ((g.flipCompare x opc true).op x).inrefs = [b, a] := by
      rw [hself]
      rfl
    obtain ⟨z, hz⟩ := result_total hflip hbool fl (s, g.valueOf env b) (s, g.valueOf env a)
    rw [truth_of_inrefs hin', hop, hop, hopa, hopb, hself]
    rw [← hsum (flip_result hflip hbool hfo hfb hfa hz hy)]
    exact hz

/-- The complement is kept as it is. -/
theorem compareFlipped_flipCompare (hext : ∀ env, ¬g.Extreme env x) :
    CompareFlipped g (g.flipCompare x opc reorder) x := by
  obtain ⟨hl, hvn, hnum, hne, hself⟩ := flipCompare_spec h hin opc reorder
  refine ⟨hl, Keeps.of_eq hvn hnum, hne, by rw [hself], by rw [hself], fun u hu => .inl ?_,
    fun fl env y hfit hy => ⟨fun he => absurd he (hext env), fun _ => ?_⟩⟩
  · rw [hself] at hu
    rw [hin]
    cases reorder
    · exact hu
    · exact List.mem_pair.mpr (List.mem_pair.mp hu).symm
  · exact truth_flipCompare h hin ha hb hcode hflip hbool hfit hy

/-- A `<=` that came from a `<` is made a `<` again if it has a constant side. -/
theorem compareFlipped_replace (h0 : 0 < s) (hr : reorder = true)
    (hle : opc = .intLessequal ∨ opc = .intSlessequal) :
    ∃ r, (g.flipCompare x opc reorder).replaceLessequal x = some r ∧ CompareFlipped g r.1 x := by
  subst hr
  have hkept := compareFlipped_flipCompare h hin ha hb hcode hflip hbool
  obtain ⟨hl, hvn, hnum, hne, hself⟩ := flipCompare_spec h hin opc true
  generalize g.flipCompare x opc true = k at *
  have hin' : (k.op x).inrefs = [b, a] := by
    rw [hself]
    rfl
  have hkcode : (k.op x).opcode = opc := by rw [hself]
  have hop (env : VarnodeId → ℕ) (v : VarnodeId) : k.operandOf env v = g.operandOf env v := by
    unfold operandOf valueOf
    rw [hvn]
  have hbefore : opc = .intLessequal ∧ (g.op x).opcode = .intLess ∨
      opc = .intSlessequal ∧ (g.op x).opcode = .intSless := by
    cases hc : (g.op x).opcode
    all_goals
      rw [hc] at hflip
      first
        | cases hflip; decide
        | cases hflip; rcases hle with he | he <;> cases he
        | cases hflip
  unfold replaceLessequal
  rw [input_zero hin', input_one hin']
  simp only [Option.bind_eq_bind, Option.bind_some]
  unfold lessequalConst
  rw [hvn, hkcode]
  have hlta : a < g.numVarnodes := h.lt_of_mem_inrefs (by rw [hin]; simp)
  have hltb : b < g.numVarnodes := h.lt_of_mem_inrefs (by rw [hin]; simp)
  have hopa (env : VarnodeId → ℕ) : g.operandOf env a = (s, g.valueOf env a) := by
    unfold operandOf
    rw [ha]
  have hopb (env : VarnodeId → ℕ) : g.operandOf env b = (s, g.valueOf env b) := by
    unfold operandOf
    rw [hb]
  have hext {env : VarnodeId → ℕ} : g.Extreme env x → (g.op x).opcode = .intSless ∧
      if (g.vn b).constant then LowEnd s (g.vn b).constantValue (g.valueOf env a)
      else (g.vn a).constant = true ∧ HighEnd s (g.vn a).constantValue (g.valueOf env b) := by
    rintro ⟨hcode', a', b', hin'', hends⟩
    cases hin.symm.trans hin''
    rw [ha, hb] at hends
    exact ⟨hcode', hends⟩
  have hext' {env : VarnodeId → ℕ} (hcode' : (g.op x).opcode = .intSless)
      (hends : if (g.vn b).constant then LowEnd s (g.vn b).constantValue (g.valueOf env a)
        else (g.vn a).constant = true ∧ HighEnd s (g.vn a).constantValue (g.valueOf env b)) :
      g.Extreme env x := by
    refine ⟨hcode', a, b, hin, ?_⟩
    rw [ha, hb]
    exact hends
  by_cases hcb : (g.vn b).constant = true
  · -- `c <= V` becomes `c - 1 < V`
    have hval (env : VarnodeId → ℕ) := valueOf_const (e := env) hcb
    simp only [hcb, if_true] at hext hext'
    rw [if_pos hcb]
    dsimp only
    rw [hb]
    split_ifs with hov hsle
    · refine ⟨_, rfl, hkept fun env he => ?_⟩
      obtain ⟨hs, hlow⟩ := hext he
      have hopc : opc = .intSlessequal := by
        rcases hbefore with ⟨-, hl⟩ | ⟨hopc, -⟩
        · cases hs.symm.trans hl
        · exact hopc
      rw [hopc] at hov
      exact hlow.not_overflows h0 hov
    · refine ⟨_, rfl, compareFlipped_setConst hl (Keeps.of_eq hvn hnum) hne hself hin hlta hltb
        Nat.zero_lt_two fun fl env y hfit hy => ?_⟩
      have hs := (hbefore.resolve_left fun hl => by rw [hl.1] at hsle; cases hsle).2
      have hfa := hfit a (by simp [hin])
      have hfb := hfit b (by simp [hin])
      rw [ha] at hfa
      rw [hb, hval env] at hfb
      rw [hsle] at hov
      obtain ⟨hlow, hnlow⟩ := sless_sub_one h0 hfb hfa hov
      rw [truth_of_inrefs hin, hs, hopa, hopb, hval] at hy
      rw [hopa, hopb]
      have hiff : g.Extreme env x ↔ LowEnd s (g.vn b).constantValue (g.valueOf env a) :=
        ⟨fun he => (hext he).2, hext' hs⟩
      rw [hiff]
      have hy' := (eval_sless s 1 hfa hfb).symm.trans hy
      have heval : fl.result .intSless [(s, ((Rules.signExtendVal (g.vn b).constantValue s 8 + -1)
          &&& calcMask s).toNat), (s, g.valueOf env a)] = _ := eval_sless s 1 (and_calcMask_lt _ s) hfa
      change (_ → y = 0 ∧ fl.result .intSless [(s, _), (s, _)] = some 0) ∧
        (_ → fl.result .intSless [(s, _), (s, _)] = some (1 - y))
      rw [heval]
      exact result_moved hlow hnlow hy'
    · refine ⟨_, rfl, compareFlipped_setConst hl (Keeps.of_eq hvn hnum) hne hself hin hlta hltb
        Nat.zero_lt_two fun fl env y hfit hy => ?_⟩
      obtain ⟨hopc, hs⟩ := hbefore.resolve_right fun hl => hsle hl.1
      have hfb := hfit b (by simp [hin])
      rw [hb, hval env] at hfb
      rw [hopc] at hov
      rw [truth_of_inrefs hin, hs, hopa, hopb, hval] at hy
      have hno : ¬g.Extreme env x := fun he => absurd ((hext he).1.symm.trans hs) nofun
      have hless := less_sub_one (V := g.valueOf env a) h0 hfb hov
      rw [hopa, hopb]
      exact result_moved (fun he => absurd he hno) (fun _ => hless) hy
  · rw [if_neg hcb]
    by_cases hca : (g.vn a).constant = true
    · -- `V <= c` becomes `V < c + 1`
      rw [if_pos hca]
      dsimp only
      rw [ha]
      have hval (env : VarnodeId → ℕ) := valueOf_const (e := env) hca
      simp only [hcb, hca, Bool.false_eq_true, if_false, true_and] at hext hext'
      split_ifs with hov hsle
      · refine ⟨_, rfl, hkept fun env he => ?_⟩
        obtain ⟨hs, hhigh⟩ := hext he
        have hopc : opc = .intSlessequal := by
          rcases hbefore with ⟨-, hl⟩ | ⟨hopc, -⟩
          · cases hs.symm.trans hl
          · exact hopc
        rw [hopc] at hov
        exact hhigh.not_overflows h0 hov
      · refine ⟨_, rfl, compareFlipped_setConst hl (Keeps.of_eq hvn hnum) hne hself hin hlta hltb
          Nat.one_lt_two fun fl env y hfit hy => ?_⟩
        have hs := (hbefore.resolve_left fun hl => by rw [hl.1] at hsle; cases hsle).2
        have hfa := hfit a (by simp [hin])
        have hfb := hfit b (by simp [hin])
        rw [ha, hval env] at hfa
        rw [hb] at hfb
        rw [hsle] at hov
        obtain ⟨hhigh, hnhigh⟩ := sless_add_one h0 hfa hfb hov
        rw [truth_of_inrefs hin, hs, hopa, hopb, hval] at hy
        rw [hopa, hopb]
        have hiff : g.Extreme env x ↔ HighEnd s (g.vn a).constantValue (g.valueOf env b) :=
          ⟨fun he => (hext he).2, hext' hs⟩
        rw [hiff]
        have hy' := (eval_sless s 1 hfa hfb).symm.trans hy
        have heval : fl.result .intSless [(s, g.valueOf env b),
            (s, ((Rules.signExtendVal (g.vn a).constantValue s 8 + 1) &&& calcMask s).toNat)] = _ :=
          eval_sless s 1 hfb (and_calcMask_lt _ s)
        change (_ → y = 0 ∧ fl.result .intSless [(s, _), (s, _)] = some 0) ∧
          (_ → fl.result .intSless [(s, _), (s, _)] = some (1 - y))
        rw [heval]
        exact result_moved hhigh hnhigh hy'
      · refine ⟨_, rfl, compareFlipped_setConst hl (Keeps.of_eq hvn hnum) hne hself hin hlta hltb
          Nat.one_lt_two fun fl env y hfit hy => ?_⟩
        obtain ⟨hopc, hs⟩ := hbefore.resolve_right fun hl => hsle hl.1
        have hfa := hfit a (by simp [hin])
        rw [ha, hval env] at hfa
        rw [hopc] at hov
        rw [truth_of_inrefs hin, hs, hopa, hopb, hval] at hy
        have hno : ¬g.Extreme env x := fun he => absurd ((hext he).1.symm.trans hs) nofun
        have hless := less_add_one (V := g.valueOf env b) h0 hfa hov
        rw [hopa, hopb]
        exact result_moved (fun he => absurd he hno) (fun _ => hless) hy
    · rw [if_neg hca]
      refine ⟨_, rfl, hkept fun env he => ?_⟩
      have hends := (hext he).2
      rw [if_neg hcb] at hends
      exact hca hends.1

end Compare

theorem getBooleanflip_of_flipsAlone {code : OpCode} (h : code.flipsAlone = true)
    (hne : code ≠ .boolNegate) : ∃ opc reorder, code.getBooleanflip = some (opc, reorder) ∧
      opc.isBoolOutput = true ∧ opc ≠ .copy ∧ (code = .intSless → opc = .intSlessequal) := by
  cases code
  case boolNegate => exact absurd rfl hne
  case intSless => exact ⟨_, _, rfl, rfl, nofun, fun _ => rfl⟩
  all_goals first
    | cases h; done
    | exact ⟨_, _, rfl, rfl, nofun, nofun⟩

/-- A comparison is flipped without a panic. -/
theorem flipOp_compare (h : g.Linked) (hops : g.BoolOperands x)
    (hcode : (g.op x).opcode.flipsAlone = true) (hne : (g.op x).opcode ≠ .boolNegate) :
    ∃ g', g.flipOp x = some g' ∧ CompareFlipped g g' x := by
  obtain ⟨opc, reorder, hflip, hbool, hcopy, hsless⟩ := getBooleanflip_of_flipsAlone hcode hne
  obtain ⟨a, b, s, hin, h0, ha, hb⟩ := hops.two (boolArity_of_flip hflip hbool).2
  have hkept := compareFlipped_flipCompare h hin ha hb hcode hflip hbool
  have hflipOp : g.flipOp x = if reorder = true ∧ (opc = .intLessequal ∨ opc = .intSlessequal) then
      ((g.flipCompare x opc reorder).replaceLessequal x).map Prod.fst
      else some (g.flipCompare x opc reorder) := by
    unfold flipOp
    rw [hflip]
    split
    · rename_i he
      exact absurd (congrArg Prod.fst (Option.some.inj he)) hcopy
    · rename_i he
      cases he
    · rename_i he
      cases he
      cases reorder
      · rfl
      · rw [hin]
        unfold flipCompare
        simp only [Bool.not_true, Bool.false_eq_true, if_false, List.length_cons, List.length_nil,
          Nat.zero_add, Nat.reduceAdd, Nat.lt_irrefl, if_true, true_and]
  rw [hflipOp]
  split_ifs with hle
  · obtain ⟨r, hr, hflipped⟩ := compareFlipped_replace h hin ha hb hcode hflip hbool h0 hle.1 hle.2
    exact ⟨r.1, by rw [hr]; rfl, hflipped⟩
  · refine ⟨_, rfl, hkept fun env hext => hle ?_⟩
    have hopc := hsless hext.1
    rw [hext.1, hopc] at hflip
    cases hflip
    exact ⟨rfl, .inr hopc⟩

end Funcdata
end Mosura
