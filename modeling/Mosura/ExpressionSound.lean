import Mosura.FlagRules
import Mosura.SignSound

/-! What `functional_equality` and `AddExpression` say about the values an op reads. -/

namespace Mosura
namespace Funcdata

variable {f : Funcdata} {env : VarnodeId → ℕ} {op d : OpId} {v v1 v2 : VarnodeId}

/-- The varnodes that `op` reads, directly or through p-code. -/
inductive Cone (f : Funcdata) (op : OpId) : VarnodeId → Prop
  | input {v : VarnodeId} : v ∈ (f.op op).inrefs → Cone f op v
  | step {v u : VarnodeId} {d : OpId} : Cone f op v → (f.vn v).defOp = some d →
      (f.op d).opcode.hasSemantics = true → u ∈ (f.op d).inrefs → Cone f op u

theorem Cone.feeds (h : Cone f op v) (hd : (f.vn v).defOp = some d) :
    ∃ w ∈ (f.op op).inrefs, f.Feeds w d := by
  induction h generalizing d with
  | input hv => exact ⟨_, hv, .here hd⟩
  | step _ hdef hsem hu ih =>
    obtain ⟨w, hw, hfeed⟩ := ih hdef
    exact ⟨w, hw, .input hfeed hsem hu hd⟩

/-- A value that `op` reads through p-code is what its op computes. -/
theorem ValuesAt.cone (h : f.ValuesAt op env) (hgr : f.RuleGraph) (hv : Cone f op v)
    (hd : (f.vn v).defOp = some d) (hsem : (f.op d).opcode.hasSemantics = true) :
    f.resultOf env d v = some (f.valueOf env v) := by
  obtain ⟨w, hw, hfeed⟩ := hv.feeds hd
  exact h.result hw hfeed (hgr.output_of_def hd) hsem

/-- Values that keep what `functional_equality` takes for granted of the ops that are no p-code: the
loads of one instruction through one pointer read one value, floating point is a function. -/
def Consistent (f : Funcdata) (env : VarnodeId → ℕ) : Prop :=
  ∀ v1 v2 d, (f.vn v1).defOp = some d → (f.op d).opcode.hasSemantics = false →
    f.functionalEquality v1 v2 = true → f.valueOf env v1 = f.valueOf env v2

/-- The third input of a PTRADD, the size of an element, is a constant. -/
def ConstElements (f : Funcdata) : Prop :=
  ∀ d, (f.op d).opcode = .ptradd → ∀ c, (f.op d).input 2 = some c → (f.vn c).constant = true

theorem operandOf_of_level0 (h : f.functionalEqualityLevel0 v1 v2 = 0) :
    f.operandOf env v1 = f.operandOf env v2 := by
  unfold functionalEqualityLevel0 at h
  by_cases heq : v1 = v2
  · rw [heq]
  rw [if_neg heq] at h
  by_cases hs : (f.vn v1).size = (f.vn v2).size
  swap
  · rw [if_pos hs] at h
    cases h
  rw [if_neg (not_not.mpr hs)] at h
  by_cases h1 : (f.vn v1).constant = true
  swap
  · rw [if_neg h1] at h
    split_ifs at h
    all_goals exact absurd h (by decide)
  rw [if_pos h1] at h
  by_cases h2 : (f.vn v2).constant = true
  swap
  · rw [if_neg h2] at h
    cases h
  rw [if_pos h2] at h
  by_cases hc : (f.vn v1).constantValue = (f.vn v2).constantValue
  swap
  · rw [if_neg hc] at h
    cases h
  unfold operandOf
  rw [hs, valueOf_const h1, valueOf_const h2, hc]

/-- Where the inputs of two ops are equal, they are so in this order or crosswise. -/
theorem functionalInputs_two {opc : OpCode} {a b c e : VarnodeId} {l l' : List VarnodeId}
    (h : f.functionalInputs opc (a :: b :: l) (c :: e :: l') = 0) :
    (f.functionalEqualityLevel0 a c = 0 ∧ f.functionalEqualityLevel0 b e = 0) ∨
      (opc.isCommutative = true ∧ f.functionalEqualityLevel0 a e = 0 ∧
        f.functionalEqualityLevel0 b c = 0) := by
  change (if f.functionalEqualityLevel0 a c = 0 then _ else _) = (0 : ℤ) at h
  by_cases h1 : f.functionalEqualityLevel0 a c = 0
  · rw [if_pos h1] at h
    refine .inl ⟨h1, ?_⟩
    by_contra h2
    rw [if_neg h2] at h
    split_ifs at h
    all_goals exact absurd h (by decide)
  rw [if_neg h1] at h
  by_cases h2 : f.functionalEqualityLevel0 b e = 0
  · rw [if_pos h2] at h
    exact absurd h h1
  rw [if_neg h2] at h
  have hun : (if f.functionalEqualityLevel0 a c = 1 ∧ f.functionalEqualityLevel0 b e = 1 then
      (2 : ℤ) else -1) ≠ 0 := by
    split_ifs <;> decide
  cases hcomm : opc.isCommutative with
  | false =>
    rw [hcomm] at h
    exact absurd h hun
  | true =>
    rw [hcomm] at h
    refine .inr ⟨rfl, ?_⟩
    by_contra h3
    change (if _ ∧ _ then (0 : ℤ) else _) = 0 at h
    rw [if_neg h3] at h
    split_ifs at h
    all_goals exact absurd h (by decide)

/-- Commutative p-code on operands of one size. -/
theorem evalBinary_comm {opc : OpCode} {s so x y : ℕ} (h : opc.isCommutative = true) :
    evalBinary opc s s so x y = evalBinary opc s s so y x := by
  cases opc
  all_goals first | rfl | exact absurd h (by decide) | skip
  case intEqual =>
    change some (x == y).toNat = some (y == x).toNat
    rw [Bool.beq_comm]
  case intNotequal =>
    change some (x != y).toNat = some (y != x).toNat
    rw [bne, Bool.beq_comm]
    rfl
  case intAdd => exact congrArg (fun z => some (z % _)) (Nat.add_comm x y)
  case intCarry => exact congrArg (fun z => some (decide (_ ≤ z)).toNat) (Nat.add_comm x y)
  case intScarry =>
    change some (BitVec.saddOverflow _ _).toNat = some (BitVec.saddOverflow _ _).toNat
    rw [BitVec.saddOverflow, BitVec.saddOverflow, Int.add_comm]
  case intXor => exact congrArg some (Nat.xor_comm x y)
  case intAnd => exact congrArg some (Nat.and_comm x y)
  case intOr => exact congrArg some (Nat.or_comm x y)
  case intMult => exact congrArg (fun z => some (z % _)) (Nat.mul_comm x y)
  case boolXor =>
    change (if _ then some (x ^^^ y) else none) = if _ then some (y ^^^ x) else none
    simp only [and_comm, Nat.xor_comm]
  case boolAnd =>
    change (if _ then some (x &&& y) else none) = if _ then some (y &&& x) else none
    rw [Nat.and_comm y x]
    simp only [and_comm]
  case boolOr =>
    change (if _ then some (x ||| y) else none) = if _ then some (y ||| x) else none
    rw [Nat.or_comm y x]
    simp only [and_comm]

theorem size_of_level0 (h : f.functionalEqualityLevel0 v1 v2 = 1) :
    (f.vn v1).size = (f.vn v2).size := by
  by_contra hs
  unfold functionalEqualityLevel0 at h
  rw [if_pos hs] at h
  split_ifs at h
  all_goals exact absurd h (by decide)

/-- What `functional_equality` asks of the ops that write its varnodes. -/
theorem functionalOps_zero {op1 op2 : OpId} (h : f.functionalOps op1 op2 = 0) :
    (f.op op1).opcode = (f.op op2).opcode ∧
      (f.op op1).inrefs.length = (f.op op2).inrefs.length ∧
      (3 ≤ (f.op op1).inrefs.length → (f.op op1).opcode = .ptradd ∧
        (f.inVn op1 2).constantValue = (f.inVn op2 2).constantValue) ∧
      f.functionalInputs (f.op op1).opcode (f.op op1).inrefs (f.op op2).inrefs = 0 := by
  unfold functionalOps at h
  dsimp only at h
  split_ifs at h with hcode hcall hload hthree
  push Not at hcode hthree
  exact ⟨hcode.1, hcode.2, hthree, h⟩

theorem sizes_of_commutative {opc : OpCode} {s t so : ℕ} (hc : opc.isCommutative = true)
    (hsem : opc.hasSemantics = true) (hs : sizesOk opc [s, t] so) : s = t := by
  cases opc
  all_goals first | exact absurd hc (by decide) | exact absurd hsem (by decide) | skip
  case intEqual | intNotequal | intCarry | intScarry =>
    obtain ⟨⟨r, hr⟩, -⟩ := hs
    simp only [List.cons.injEq, and_true] at hr
    exact hr.1.trans hr.2.symm
  case intAdd | intXor | intAnd | intOr | intMult =>
    simp only [sizesOk, List.cons.injEq, and_true] at hs
    exact hs.1.trans hs.2.symm
  case boolXor | boolAnd | boolOr =>
    have hr := hs.1
    simp only [List.cons.injEq, and_true] at hr
    exact hr.1.trans hr.2.symm

/-- Ops that are equal as `functional_equality` sees them compute one value. -/
theorem evalPcode_of_functionalOps (hgr : f.RuleGraph) (hel : f.ConstElements) {op1 op2 : OpId}
    {so : ℕ} (hout : (f.op op1).output = some v1) (hsem : (f.op op1).opcode.hasSemantics = true)
    (h : f.functionalOps op1 op2 = 0) :
    evalPcode (f.op op1).opcode (f.operandsOf env op1) so =
      evalPcode (f.op op1).opcode (f.operandsOf env op2) so := by
  obtain ⟨hcode, hlen, hthree, hin⟩ := functionalOps_zero h
  have hsizes := hgr.sizes hout
  unfold operandsOf
  cases h1 : (f.op op1).inrefs with
  | nil =>
    rw [h1] at hin
    cases hin
  | cons a l =>
  cases h2 : (f.op op2).inrefs with
  | nil =>
    rw [h1, h2] at hlen
    cases hlen
  | cons c l' =>
  rw [h1, h2] at hin hlen
  rw [h1] at hthree hsizes
  cases l with
  | nil =>
    obtain rfl : l' = [] := List.length_eq_zero_iff.mp (by simpa using hlen.symm)
    have hac : f.functionalEqualityLevel0 a c = 0 := hin
    rw [List.map_singleton, List.map_singleton, operandOf_of_level0 hac]
  | cons b l =>
  cases l' with
  | nil => cases hlen
  | cons e l' =>
  cases l with
  | nil =>
    obtain rfl : l' = [] := List.length_eq_zero_iff.mp (by simpa using hlen.symm)
    rcases functionalInputs_two hin with ⟨hac, hbe⟩ | ⟨hcomm, hae, hbc⟩
    · simp only [List.map_cons, List.map_nil, operandOf_of_level0 hac, operandOf_of_level0 hbe]
    · have hab : (f.vn a).size = (f.vn b).size := sizes_of_commutative hcomm hsem hsizes
      have hc : f.operandOf env b = f.operandOf env c := operandOf_of_level0 hbc
      have he : f.operandOf env a = f.operandOf env e := operandOf_of_level0 hae
      simp only [List.map_cons, List.map_nil, ← hc, ← he]
      change evalBinary _ (f.vn a).size (f.vn b).size so _ _ =
        evalBinary _ (f.vn b).size (f.vn a).size so _ _
      rw [hab]
      exact evalBinary_comm hcomm
  | cons x l =>
  cases l' with
  | nil => cases hlen
  | cons y l' =>
  obtain ⟨hptradd, hconst⟩ := hthree (by simp)
  rcases functionalInputs_two hin with ⟨hac, hbe⟩ | ⟨hcomm, -⟩
  swap
  · rw [hptradd] at hcomm
    cases hcomm
  -- the third inputs are constants, whose values alone are compared
  have hx : f.valueOf env x = f.valueOf env y := by
    have hinx : (f.op op1).input 2 = some x := by simp [PcodeOp.input, h1]
    have hiny : (f.op op2).input 2 = some y := by simp [PcodeOp.input, h2]
    rw [inVn, inVn, hinx, hiny] at hconst
    rw [valueOf_const (hel op1 hptradd x hinx), valueOf_const (hel op2 (hcode ▸ hptradd) y hiny)]
    exact congrArg BitVec.toNat hconst
  cases l with
  | nil =>
    obtain rfl : l' = [] := List.length_eq_zero_iff.mp (by simpa using hlen.symm)
    simp only [List.map_cons, List.map_nil, operandOf_of_level0 hac, operandOf_of_level0 hbe]
    rw [hptradd]
    unfold operandOf
    rw [hx]
    rfl
  | cons z l =>
  cases l' with
  | nil => cases hlen
  | cons w l' =>
    rw [hptradd]
    have hnone : ∀ (u1 u2 u3 u4 : ℕ × ℕ) (us : Operands),
        evalPcode .ptradd (u1 :: u2 :: u3 :: u4 :: us) so = none := by
      intro u1 u2 u3 u4 us
      cases us <;> rfl
    exact (hnone ..).trans (hnone ..).symm

/-- `functional_equality` is right about the values an op reads through p-code. -/
theorem functionalEquality_sound (hgr : f.RuleGraph) (hel : f.ConstElements)
    (hv : f.ValuesAt op env) (hcons : f.Consistent env) (h1 : Cone f op v1) (h2 : Cone f op v2)
    (h : f.functionalEquality v1 v2 = true) : f.operandOf env v1 = f.operandOf env v2 := by
  have hlevel : f.functionalEqualityLevel v1 v2 = 0 := by simpa [functionalEquality] using h
  unfold functionalEqualityLevel at hlevel
  by_cases h0 : f.functionalEqualityLevel0 v1 v2 = 1
  swap
  · rw [if_pos h0] at hlevel
    exact operandOf_of_level0 hlevel
  have hsize := size_of_level0 h0
  unfold operandOf
  rw [hsize]
  congr 1
  simp only [h0, ne_eq, not_true_eq_false, if_false] at hlevel
  split_ifs at hlevel with hwritten
  cases hd1 : (f.vn v1).defOp with
  | none =>
    rw [hd1] at hlevel
    cases hlevel
  | some op1 =>
  cases hd2 : (f.vn v2).defOp with
  | none =>
    rw [hd1, hd2] at hlevel
    cases hlevel
  | some op2 =>
  rw [hd1, hd2] at hlevel
  cases hsem : (f.op op1).opcode.hasSemantics with
  | false => exact hcons v1 v2 op1 hd1 hsem h
  | true =>
    obtain ⟨hcode, -⟩ := functionalOps_zero hlevel
    have hr1 := hv.cone hgr h1 hd1 hsem
    have hr2 := hv.cone hgr h2 hd2 (hcode ▸ hsem)
    have he : evalPcode (f.op op1).opcode (f.operandsOf env op1) (f.vn v1).size =
        evalPcode (f.op op1).opcode (f.operandsOf env op2) (f.vn v1).size :=
      evalPcode_of_functionalOps hgr hel (hgr.output_of_def hd1) hsem hlevel
    unfold resultOf at hr1 hr2
    rw [he, hcode, hsize] at hr1
    exact Option.some.inj (hr1.symm.trans hr2)

/-! A gathered expression, modulo the size of its terms. -/

/-- A 64-bit constant as a value of `s` bytes. -/
def word (s : ℕ) (c : U64) : ZMod (2 ^ (8 * s)) := c.toNat

theorem word_add {s : ℕ} (h8 : s ≤ 8) (a b : U64) : word s (a + b) = word s a + word s b := by
  unfold word
  rw [BitVec.toNat_add, ← Nat.cast_add]
  apply (ZMod.natCast_eq_natCast_iff' _ _ _).mpr
  exact Nat.mod_mod_of_dvd _ (Nat.pow_dvd_pow 2 (by omega))

theorem word_mul {s : ℕ} (h8 : s ≤ 8) (a b : U64) : word s (a * b) = word s a * word s b := by
  unfold word
  rw [BitVec.toNat_mul, ← Nat.cast_mul]
  apply (ZMod.natCast_eq_natCast_iff' _ _ _).mpr
  exact Nat.mod_mod_of_dvd _ (Nat.pow_dvd_pow 2 (by omega))

theorem word_and_calcMask {s : ℕ} (h8 : s ≤ 8) (a : U64) :
    word s (a &&& calcMask s) = word s a := by
  unfold word
  rw [and_calcMask_toNat a h8, ZMod.natCast_mod]

theorem word_one (s : ℕ) : word s 1 = 1 := Nat.cast_one

theorem word_zero (s : ℕ) : word s 0 = 0 := Nat.cast_zero

/-- The mask is -1. -/
theorem word_calcMask {s : ℕ} (h8 : s ≤ 8) : word s (calcMask s) = -1 := by
  have hpos : 1 ≤ 2 ^ (8 * s) := Nat.two_pow_pos _
  unfold word
  rw [calcMask_toNat h8, Nat.cast_sub hpos, ZMod.natCast_self, Nat.cast_one, zero_sub]

/-- The terms of an expression: values of `s` bytes that `op` reads through p-code. -/
def IsTerm (f : Funcdata) (op : OpId) (s : ℕ) (v : VarnodeId) : Prop :=
  Cone f op v ∧ (f.vn v).size = s

/-- The value of the terms of an expression. -/
def termsValue (f : Funcdata) (env : VarnodeId → ℕ) (s : ℕ) (l : List (VarnodeId × U64)) :
    ZMod (2 ^ (8 * s)) :=
  (l.map fun t => word s t.2 * (f.valueOf env t.1 : ZMod (2 ^ (8 * s)))).sum

def exprValue (f : Funcdata) (env : VarnodeId → ℕ) (s : ℕ) (e : AddExpression) :
    ZMod (2 ^ (8 * s)) := word s e.constval + f.termsValue env s e.terms

/-- `e'` is `e` with the value `x` gathered in at most `k` terms; constants have 64 bits. -/
structure Gathered (f : Funcdata) (env : VarnodeId → ℕ) (op : OpId) (s : ℕ) (e e' : AddExpression)
    (x : ZMod (2 ^ (8 * s))) (k : ℕ) : Prop where
  value : s ≤ 8 → f.exprValue env s e' = f.exprValue env s e + x
  length : e'.terms.length ≤ e.terms.length + k
  terms : ∀ t ∈ e'.terms, t ∈ e.terms ∨ f.IsTerm op s t.1

namespace Gathered

variable {s k k' : ℕ} {e e' e'' : AddExpression} {x y : ZMod (2 ^ (8 * s))}

theorem trans (h : Gathered f env op s e e' x k) (h' : Gathered f env op s e' e'' y k') :
    Gathered f env op s e e'' (x + y) (k + k') where
  value h8 := by rw [h'.value h8, h.value h8, add_assoc]
  length := by
    have h1 := h.length
    have h2 := h'.length
    omega
  terms t ht := by
    rcases h'.terms t ht with ht | ht
    · exact h.terms t ht
    · exact .inr ht

theorem mono (h : Gathered f env op s e e' x k) (hk : k ≤ k') : Gathered f env op s e e' x k' :=
  ⟨h.value, h.length.trans (Nat.add_le_add_left hk _), h.terms⟩

/-- A term of its own, where there is room for it. -/
theorem add {coeff : U64} (hv : f.IsTerm op s v) (hroom : e.terms.length < 2) :
    Gathered f env op s e (e.add v coeff)
      (word s coeff * (f.valueOf env v : ZMod (2 ^ (8 * s)))) 1 := by
  unfold AddExpression.add
  rw [if_pos hroom]
  refine ⟨fun _ => ?_, ?_, fun t ht => ?_⟩
  · unfold exprValue termsValue
    rw [List.map_append, List.sum_append, List.map_singleton, List.sum_singleton, ← add_assoc]
  · rw [List.length_append, List.length_singleton]
  · rcases List.mem_append.mp ht with ht | ht
    · exact .inl ht
    · rw [List.mem_singleton.mp ht]
      exact .inr hv

end Gathered

/-- What `gather` adds for `v` with its budget: nothing for a constant, else up to `2 ^ depth`
terms. -/
def budget (f : Funcdata) (v : VarnodeId) (depth : ℕ) : ℕ :=
  if (f.vn v).constant then 0 else 2 ^ depth

theorem budget_le (f : Funcdata) (v : VarnodeId) (depth : ℕ) : f.budget v depth ≤ 2 ^ depth := by
  unfold budget
  split_ifs
  · exact Nat.zero_le _
  · exact le_rfl

/-- The inputs of a sum are terms, too, and add up to it. -/
theorem gather_add (hgr : f.RuleGraph) (hv : f.ValuesAt op env) {s : ℕ} {a b : VarnodeId}
    (hterm : f.IsTerm op s v) (hd : (f.vn v).defOp = some d) (hcode : (f.op d).opcode = .intAdd)
    (hin : (f.op d).inrefs = [a, b]) :
    (f.valueOf env v : ZMod (2 ^ (8 * s))) = f.valueOf env a + f.valueOf env b ∧
      f.IsTerm op s a ∧ f.IsTerm op s b := by
  obtain ⟨hcone, rfl⟩ := hterm
  have hsem : (f.op d).opcode.hasSemantics = true := by rw [hcode]; rfl
  obtain ⟨a', b', hin', ha, hb⟩ := hgr.arith_inrefs (hgr.output_of_def hd) (.inl hcode)
  rw [hin] at hin'
  cases hin'
  refine ⟨?_, ⟨.step hcone hd hsem (by rw [hin]; simp), ha⟩,
    ⟨.step hcone hd hsem (by rw [hin]; simp), hb⟩⟩
  have hr := hv.cone hgr hcone hd hsem
  rw [resultOf_two hin, hcode] at hr
  rw [← Option.some.inj hr, ZMod.natCast_mod, Nat.cast_add]

/-- A product with a constant. -/
theorem gather_mult (hgr : f.RuleGraph) (hv : f.ValuesAt op env) {s : ℕ} {a b : VarnodeId}
    (hterm : f.IsTerm op s v) (hd : (f.vn v).defOp = some d) (hcode : (f.op d).opcode = .intMult)
    (hin : (f.op d).inrefs = [a, b]) :
    (f.valueOf env v : ZMod (2 ^ (8 * s))) = f.valueOf env a * f.valueOf env b ∧
      f.IsTerm op s a := by
  obtain ⟨hcone, rfl⟩ := hterm
  have hsem : (f.op d).opcode.hasSemantics = true := by rw [hcode]; rfl
  obtain ⟨a', b', hin', ha, -⟩ := hgr.arith_inrefs (hgr.output_of_def hd) (.inr (.inr (.inl hcode)))
  rw [hin] at hin'
  cases hin'
  refine ⟨?_, .step hcone hd hsem (by rw [hin]; simp), ha⟩
  have hr := hv.cone hgr hcone hd hsem
  rw [resultOf_two hin, hcode] at hr
  rw [← Option.some.inj hr, ZMod.natCast_mod, Nat.cast_mul]

/-- One walk of `gather` adds the multiple of the value it starts at. -/
theorem gather_spec (hgr : f.RuleGraph) (hv : f.ValuesAt op env) {s : ℕ} (fuel : ℕ) :
    ∀ (path : List VarnodeId) (v : VarnodeId) (coeff : U64) (depth : ℕ)
      (e e' : AddExpression), f.gather fuel path v coeff depth e = some e' → f.IsTerm op s v →
      e.terms.length + f.budget v depth ≤ 2 →
      Gathered f env op s e e' (word s coeff * (f.valueOf env v : ZMod (2 ^ (8 * s))))
        (f.budget v depth) := by
  induction fuel with
  | zero =>
    intro path v coeff depth e e' h
    cases h
  | succ fuel ih =>
    intro path v coeff depth e e' h hterm hroom
    unfold gather at h
    by_cases hc : (f.vn v).constant = true
    · rw [if_pos hc] at h
      obtain rfl := Option.some.inj h
      refine ⟨fun h8 => ?_, ?_, fun t ht => .inl ht⟩
      · unfold exprValue
        dsimp only
        rw [hterm.2, word_and_calcMask h8, word_add h8, word_mul h8, valueOf_const hc]
        exact add_right_comm _ _ _
      · exact Nat.le_add_right _ _
    rw [if_neg hc] at h
    have hbudget : ∀ n, f.budget v n = 2 ^ n := fun n => if_neg hc
    rw [hbudget] at hroom ⊢
    have hone : 1 ≤ 2 ^ depth := Nat.two_pow_pos _
    -- a term of its own always has room
    have hadd : Gathered f env op s e (e.add v coeff)
        (word s coeff * (f.valueOf env v : ZMod (2 ^ (8 * s)))) (2 ^ depth) :=
      (Gathered.add hterm (by omega)).mono hone
    by_cases hw : (f.vn v).written = true
    swap
    · rw [if_pos (by simpa using hw)] at h
      obtain rfl := Option.some.inj h
      exact hadd
    rw [if_neg (by simpa using hw)] at h
    by_cases hpath : v ∈ path
    · rw [if_pos hpath] at h
      cases h
    rw [if_neg hpath] at h
    cases hd : (f.vn v).defOp with
    | none =>
      rw [hd] at h
      cases h
    | some d =>
    rw [hd] at h
    dsimp only at h
    split at h
    case h_1 in0 in1 hcode hin =>
      obtain ⟨hval, h0, h1⟩ := gather_add hgr hv hterm hd hcode hin
      cases hfull : ((!(f.vn in1).constant) && depth == 0) with
      | true =>
        rw [hfull, if_pos rfl] at h
        obtain rfl := Option.some.inj h
        exact hadd
      | false =>
      rw [hfull, if_neg Bool.false_ne_true] at h
      obtain ⟨e1, he0, he1⟩ := Option.bind_eq_some_iff.mp h
      -- together the addends have the budget of their sum
      have hsum : f.budget in0 (if (f.vn in1).constant then depth else depth - 1) +
          f.budget in1 (if (f.vn in1).constant then depth else depth - 1) ≤ 2 ^ depth := by
        cases hc1 : (f.vn in1).constant with
        | true =>
          rw [if_pos rfl, budget, budget, if_pos hc1, add_zero]
          split_ifs
          · exact Nat.zero_le _
          · exact le_rfl
        | false =>
          rw [hc1] at hfull
          have hdepth : depth - 1 + 1 = depth := 
            Nat.sub_add_cancel (Nat.one_le_iff_ne_zero.mpr (by simpa using hfull))
          rw [if_neg Bool.false_ne_true]
          have hpow : 2 ^ depth = 2 ^ (depth - 1) + 2 ^ (depth - 1) := by
            rw [← hdepth, Nat.add_sub_cancel, Nat.pow_succ, Nat.mul_two]
          rw [hpow]
          exact Nat.add_le_add (f.budget_le _ _) (f.budget_le _ _)
      have hg0 := ih _ _ _ _ _ _ he0 h0 (by omega)
      have hg1 := ih _ _ _ _ _ _ he1 h1 (by have := hg0.length; omega)
      rw [hval, mul_add]
      exact (hg0.trans hg1).mono hsum
    case h_2 in0 c1 hcode hin =>
      cases hc1 : (f.vn c1).constant with
      | false =>
        rw [hc1, if_neg Bool.false_ne_true] at h
        obtain rfl := Option.some.inj h
        exact hadd
      | true =>
      rw [hc1, if_pos rfl] at h
      obtain ⟨hval, h0⟩ := gather_mult hgr hv hterm hd hcode hin
      have hg := ih _ _ _ _ _ _ h h0 ((Nat.add_le_add_left (f.budget_le _ _) _).trans hroom)
      refine ⟨fun h8 => ?_, hg.length.trans (Nat.add_le_add_left (f.budget_le _ _) _), hg.terms⟩
      rw [hg.value h8, hterm.2, word_and_calcMask h8, word_mul h8, hval, valueOf_const hc1,
        mul_comm ((f.valueOf env in0 : ℕ) : ZMod (2 ^ (8 * s))), ← mul_assoc]
      rfl
    case h_3 =>
      obtain rfl := Option.some.inj h
      exact hadd

/-- Both addends, or both operands of a difference, with the budget of `twoTermsDepth`. -/
theorem gatherTwo_spec (hgr : f.RuleGraph) (hv : f.ValuesAt op env) {s : ℕ} {a b : VarnodeId}
    {c : U64} {e : AddExpression} (ha : f.IsTerm op s a) (hb : f.IsTerm op s b)
    (h : (f.gatherFrom a 1 (f.twoTermsDepth a b) {}).bind
      (f.gatherFrom b c (f.twoTermsDepth a b)) = some e) :
    (s ≤ 8 → f.exprValue env s e = f.valueOf env a + word s c * f.valueOf env b) ∧
      ∀ t ∈ e.terms, f.IsTerm op s t.1 := by
  obtain ⟨e1, h1, h2⟩ := Option.bind_eq_some_iff.mp h
  have hsum : f.budget a (f.twoTermsDepth a b) + f.budget b (f.twoTermsDepth a b) ≤ 2 := by
    unfold twoTermsDepth budget
    cases (f.vn a).constant
    all_goals
      cases (f.vn b).constant
      all_goals decide
  have hg1 := gather_spec hgr hv _ _ _ _ _ _ _ h1 ha (Nat.le_trans (by simp) hsum)
  have hg2 := gather_spec hgr hv _ _ _ _ _ _ _ h2 hb (by
    have := hg1.length
    simp only [List.length_nil] at this
    omega)
  have hg := hg1.trans hg2
  refine ⟨fun h8 => ?_, fun t ht => (hg.terms t ht).resolve_left List.not_mem_nil⟩
  rw [hg.value h8, word_one, one_mul]
  exact (congrArg (· + _) (add_zero (word s 0))).trans
    (congrArg (· + _) (word_zero s) |>.trans (zero_add _))

theorem gatherRoot_spec (hgr : f.RuleGraph) (hv : f.ValuesAt op env) {s : ℕ}
    {e : AddExpression} (hterm : f.IsTerm op s v) (h : f.gatherTwoTermsRoot v = some e) :
    (s ≤ 8 → f.exprValue env s e = f.valueOf env v) ∧ ∀ t ∈ e.terms, f.IsTerm op s t.1 := by
  have hg := gather_spec hgr hv _ _ _ _ _ _ _ h hterm (by
    simpa using f.budget_le v 1)
  refine ⟨fun h8 => ?_, fun t ht => (hg.terms t ht).resolve_left List.not_mem_nil⟩
  rw [hg.value h8, word_one, one_mul]
  exact (congrArg (· + _) (add_zero (word s 0))).trans
    (congrArg (· + _) (word_zero s) |>.trans (zero_add _))

theorem termsEqual_sound (hgr : f.RuleGraph) (hel : f.ConstElements) (hv : f.ValuesAt op env)
    (hcons : f.Consistent env) {t1 t2 : VarnodeId × U64} (h1 : Cone f op t1.1)
    (h2 : Cone f op t2.1) (h : f.termsEqual t1 t2 = true) :
    t1.2 = t2.2 ∧ f.operandOf env t1.1 = f.operandOf env t2.1 := by
  unfold termsEqual at h
  rw [Bool.and_eq_true, beq_iff_eq] at h
  exact ⟨h.1, functionalEquality_sound hgr hel hv hcons h1 h2 h.2⟩

/-- Equivalent expressions have terms of one size and one value. -/
theorem isEquivalent_sound (hgr : f.RuleGraph) (hel : f.ConstElements) (hv : f.ValuesAt op env)
    (hcons : f.Consistent env) {s s' : ℕ} {e1 e2 : AddExpression}
    (h1 : ∀ t ∈ e1.terms, f.IsTerm op s t.1) (h2 : ∀ t ∈ e2.terms, f.IsTerm op s' t.1)
    (h : f.isEquivalent e1 e2 = true) :
    s = s' ∧ f.exprValue env s e1 = f.exprValue env s e2 := by
  have hterm : ∀ t1 ∈ e1.terms, ∀ t2 ∈ e2.terms, f.termsEqual t1 t2 = true →
      s = s' ∧ word s t1.2 * (f.valueOf env t1.1 : ZMod (2 ^ (8 * s))) =
        word s t2.2 * f.valueOf env t2.1 := by
    intro t1 ht1 t2 ht2 he
    obtain ⟨hcoeff, hop⟩ := termsEqual_sound hgr hel hv hcons (h1 t1 ht1).1 (h2 t2 ht2).1 he
    unfold operandOf at hop
    rw [Prod.mk.injEq, (h1 t1 ht1).2, (h2 t2 ht2).2] at hop
    exact ⟨hop.1, by rw [hcoeff, hop.2]⟩
  unfold isEquivalent at h
  rw [Bool.and_eq_true, beq_iff_eq] at h
  obtain ⟨hconst, hterms⟩ := h
  unfold exprValue
  rw [hconst]
  split at hterms
  case h_1 t1 t2 he1 he2 =>
    rw [he1, he2] at hterm
    obtain ⟨hs, hval⟩ := hterm t1 (by simp) t2 (by simp) hterms
    refine ⟨hs, ?_⟩
    rw [he1, he2, termsValue, termsValue, List.map_singleton, List.map_singleton, hval]
  case h_2 t1 u1 t2 u2 he1 he2 =>
    rw [he1, he2] at hterm
    simp only [Bool.or_eq_true, Bool.and_eq_true] at hterms
    rcases hterms with ⟨ht, hu⟩ | ⟨ht, hu⟩
    · obtain ⟨hs, hval⟩ := hterm t1 (by simp) t2 (by simp) ht
      obtain ⟨-, hval'⟩ := hterm u1 (by simp) u2 (by simp) hu
      refine ⟨hs, ?_⟩
      rw [he1, he2]
      simp only [termsValue, List.map_cons, List.map_nil, List.sum_cons, List.sum_nil, hval, hval']
    · obtain ⟨hs, hval⟩ := hterm t1 (by simp) u2 (by simp) ht
      obtain ⟨-, hval'⟩ := hterm u1 (by simp) t2 (by simp) hu
      refine ⟨hs, ?_⟩
      rw [he1, he2]
      simp only [termsValue, List.map_cons, List.map_nil, List.sum_cons, List.sum_nil, hval, hval']
      ring
  case h_3 => cases hterms

/-- What `subtract_matches` accepts is the difference. -/
theorem subtractMatches_sound (hgr : f.RuleGraph) (hel : f.ConstElements) (hv : f.ValuesAt op env)
    (hcons : f.Consistent env) {a b x : VarnodeId} (h8 : (f.vn a).size ≤ 8)
    (hsize : (f.vn a).size = (f.vn b).size) (ha : Cone f op a)
    (hb : Cone f op b) (hx : Cone f op x) (h : f.subtractMatches a b x = some true) :
    (f.vn a).size = (f.vn x).size ∧ (f.valueOf env x : ZMod (2 ^ (8 * (f.vn a).size))) =
      f.valueOf env a - f.valueOf env b := by
  obtain ⟨e1, he1, h⟩ := Option.bind_eq_some_iff.mp h
  obtain ⟨e2, he2, h⟩ := Option.bind_eq_some_iff.mp h
  obtain ⟨hval1, ht1⟩ := gatherTwo_spec hgr hv ⟨ha, rfl⟩ ⟨hb, hsize.symm⟩ he1
  obtain ⟨hval2, ht2⟩ := gatherRoot_spec hgr hv ⟨hx, rfl⟩ he2
  obtain ⟨hs, heq⟩ := isEquivalent_sound hgr hel hv hcons ht1 ht2 (Option.some.inj h)
  refine ⟨hs, ?_⟩
  rw [← hs] at hval2
  rw [← hval2 h8, ← heq, hval1 h8, ← hsize, word_calcMask h8]
  ring

/-- What `add_matches` accepts is the sum. -/
theorem addMatches_sound (hgr : f.RuleGraph) (hel : f.ConstElements) (hv : f.ValuesAt op env)
    (hcons : f.Consistent env) {a b x : VarnodeId} (h8 : (f.vn a).size ≤ 8)
    (hsize : (f.vn a).size = (f.vn b).size) (ha : Cone f op a)
    (hb : Cone f op b) (hx : Cone f op x) (h : f.addMatches a b x = some true) :
    (f.vn a).size = (f.vn x).size ∧ (f.valueOf env x : ZMod (2 ^ (8 * (f.vn a).size))) =
      f.valueOf env a + f.valueOf env b := by
  obtain ⟨e1, he1, h⟩ := Option.bind_eq_some_iff.mp h
  obtain ⟨e2, he2, h⟩ := Option.bind_eq_some_iff.mp h
  obtain ⟨hval1, ht1⟩ := gatherTwo_spec hgr hv ⟨ha, rfl⟩ ⟨hb, hsize.symm⟩ he1
  obtain ⟨hval2, ht2⟩ := gatherRoot_spec hgr hv ⟨hx, rfl⟩ he2
  obtain ⟨hs, heq⟩ := isEquivalent_sound hgr hel hv hcons ht1 ht2 (Option.some.inj h)
  refine ⟨hs, ?_⟩
  rw [← hs] at hval2
  rw [← hval2 h8, ← heq, hval1 h8, word_one, one_mul]

end Funcdata
end Mosura
