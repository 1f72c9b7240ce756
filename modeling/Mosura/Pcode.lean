import Mosura.OpCode
import Mosura.Space

/-! The integer and boolean semantics of p-code, on values of any number of bytes. -/

namespace Mosura

/-- Number of set bits of `v` below position `n`. -/
def bitCount (n v : ℕ) : ℕ := (List.range n).countP v.testBit

/-- Number of bits needed to write `v`. -/
def bitLen (v : ℕ) : ℕ := if v = 0 then 0 else v.log2 + 1

theorem bitLen_le_iff {v k : ℕ} : bitLen v ≤ k ↔ v < 2 ^ k := by
  unfold bitLen
  split
  · rename_i h
    subst h
    simp
  · rename_i h
    exact (Nat.log2_lt h)

theorem lt_two_pow_bitLen (v : ℕ) : v < 2 ^ bitLen v := bitLen_le_iff.mp le_rfl

theorem lt_bitLen_iff {v k : ℕ} : k < bitLen v ↔ 2 ^ k ≤ v := by
  rw [← not_le, bitLen_le_iff, not_lt]

theorem bitLen_mono {v v' : ℕ} (h : v ≤ v') : bitLen v ≤ bitLen v' :=
  bitLen_le_iff.mpr (h.trans_lt (lt_two_pow_bitLen v'))

theorem bitCount_le (n v : ℕ) : bitCount n v ≤ n := by
  simpa only [bitCount, List.length_range] using
    (List.countP_le_length (p := v.testBit) (l := List.range n))

theorem bitCount_mono {n v v' : ℕ} (h : ∀ i < n, v.testBit i = true → v'.testBit i = true) :
    bitCount n v ≤ bitCount n v' :=
  List.countP_mono_left fun i hi => h i (List.mem_range.mp hi)

theorem bitCount_add (n k v : ℕ) : bitCount (n + k) v = bitCount n v + bitCount k (v >>> n) := by
  simp only [bitCount, List.range_add, List.countP_append, List.countP_map]
  congr 2
  funext i
  simp only [Function.comp_apply, Nat.testBit_shiftRight]

/-- One-operand p-code: `a` is `sa` bytes wide, the result `so` bytes. -/
def evalUnary (code : OpCode) (sa so a : ℕ) : Option ℕ :=
  match code with
  | .copy | .cast | .intZext => some a
  | .intSext => some ((BitVec.ofNat (8 * sa) a).signExtend (8 * so)).toNat
  | .intNegate => some (~~~ BitVec.ofNat (8 * so) a).toNat
  | .int2comp => some (- BitVec.ofNat (8 * so) a).toNat
  | .boolNegate => if a ≤ 1 then some (1 - a) else none
  | .popcount => some (bitCount (8 * sa) a % 2 ^ (8 * so))
  | .lzcount => some ((8 * sa - bitLen a) % 2 ^ (8 * so))
  | _ => none

/-- Two-operand p-code. Division by zero has no value; the boolean ops are defined on 0 and 1. -/
def evalBinary (code : OpCode) (sa sb so a b : ℕ) : Option ℕ :=
  match code with
  | .intEqual => some (a == b).toNat
  | .intNotequal => some (a != b).toNat
  | .intLess => some (decide (a < b)).toNat
  | .intLessequal => some (decide (a ≤ b)).toNat
  | .intSless => some ((BitVec.ofNat (8 * sa) a).slt (BitVec.ofNat (8 * sa) b)).toNat
  | .intSlessequal => some ((BitVec.ofNat (8 * sa) a).sle (BitVec.ofNat (8 * sa) b)).toNat
  | .intCarry => some (decide (2 ^ (8 * sa) ≤ a + b)).toNat
  | .intScarry =>
    some (BitVec.saddOverflow (BitVec.ofNat (8 * sa) a) (BitVec.ofNat (8 * sa) b)).toNat
  | .intSborrow =>
    some (BitVec.ssubOverflow (BitVec.ofNat (8 * sa) a) (BitVec.ofNat (8 * sa) b)).toNat
  | .intAdd => some ((a + b) % 2 ^ (8 * so))
  | .intSub => some (BitVec.ofNat (8 * so) a - BitVec.ofNat (8 * so) b).toNat
  | .intXor => some (a ^^^ b)
  | .intAnd => some (a &&& b)
  | .intOr => some (a ||| b)
  | .intLeft => some (if 8 * so ≤ b then 0 else (a <<< b) % 2 ^ (8 * so))
  | .intRight => some (if 8 * sa ≤ b then 0 else a >>> b)
  | .intSright => some ((BitVec.ofNat (8 * sa) a).sshiftRight (min b (8 * sa))).toNat
  | .intMult => some (a * b % 2 ^ (8 * so))
  | .intDiv => if b = 0 then none else some (a / b)
  | .intRem => if b = 0 then none else some (a % b)
  | .intSdiv =>
    if b = 0 then none else some ((BitVec.ofNat (8 * sa) a).sdiv (BitVec.ofNat (8 * sa) b)).toNat
  | .intSrem =>
    if b = 0 then none else some ((BitVec.ofNat (8 * sa) a).srem (BitVec.ofNat (8 * sa) b)).toNat
  | .boolXor => if a ≤ 1 ∧ b ≤ 1 then some (a ^^^ b) else none
  | .boolAnd => if a ≤ 1 ∧ b ≤ 1 then some (a &&& b) else none
  | .boolOr => if a ≤ 1 ∧ b ≤ 1 then some (a ||| b) else none
  | .piece => some (a <<< (8 * sb) ||| b)
  | .subpiece => some (if sa ≤ b then 0 else (a >>> (8 * b)) % 2 ^ (8 * so))
  | .ptrsub => some ((a + b) % 2 ^ (8 * so))
  | _ => none

/-- The operands of an op, as (size in bytes, value) pairs. -/
abbrev Operands := List (ℕ × ℕ)

/-- The value of an op with a defined integer semantics; `none` for all other ops. -/
def evalPcode (code : OpCode) (ins : Operands) (so : ℕ) : Option ℕ :=
  match ins with
  | [(sa, a)] => evalUnary code sa so a
  | [(sa, a), (sb, b)] => evalBinary code sa sb so a b
  | [(_, a), (_, b), (_, c)] =>
    match code with
    | .ptradd => some ((a + b * c) % 2 ^ (8 * so))
    | .extract => some ((a >>> b) % 2 ^ c % 2 ^ (8 * so))
    | _ => none
  | [(_, a), (_, b), (_, pos), (_, len)] =>
    match code with
    | .insert =>
      some ((a - ((a >>> pos) % 2 ^ len) <<< pos + (b % 2 ^ len) <<< pos) % 2 ^ (8 * so))
    | _ => none
  | _ => none

/-- The operand sizes p-code allows for an op with result size `so`. -/
def sizesOk (code : OpCode) (ins : List ℕ) (so : ℕ) : Prop :=
  match code with
  | .copy | .cast | .intNegate | .int2comp => ins = [so]
  | .intZext | .intSext => ∃ sa, ins = [sa] ∧ sa < so
  | .popcount | .lzcount => ∃ sa, ins = [sa]
  | .boolNegate => ins = [1] ∧ so = 1
  | .intEqual | .intNotequal | .intLess | .intLessequal | .intSless | .intSlessequal
  | .intCarry | .intScarry | .intSborrow => (∃ s, ins = [s, s]) ∧ so = 1
  | .intAdd | .intSub | .intXor | .intAnd | .intOr | .intMult | .intDiv | .intSdiv
  | .intRem | .intSrem => ins = [so, so]
  | .intLeft | .intRight | .intSright => ∃ sb, ins = [so, sb]
  | .boolXor | .boolAnd | .boolOr => ins = [1, 1] ∧ so = 1
  | .piece => ∃ sa sb, ins = [sa, sb] ∧ sa + sb = so
  | .subpiece => ∃ sa sb, ins = [sa, sb] ∧ so ≤ sa
  | .multiequal => ∀ s ∈ ins, s = so
  | _ => True

/-- The opcodes whose value `evalPcode` defines. -/
def OpCode.hasSemantics : OpCode → Bool
  | .copy | .cast | .intZext | .intSext | .intNegate | .int2comp | .boolNegate | .popcount
  | .lzcount | .intEqual | .intNotequal | .intLess | .intLessequal | .intSless | .intSlessequal
  | .intCarry | .intScarry | .intSborrow | .intAdd | .intSub | .intXor | .intAnd | .intOr
  | .intLeft | .intRight | .intSright | .intMult | .intDiv | .intRem | .intSdiv | .intSrem
  | .boolXor | .boolAnd | .boolOr | .piece | .subpiece | .ptrsub | .ptradd | .extract
  | .insert => true
  | _ => false

/-- The ops whose result is 0 or 1: the boolean ones, and a call flagged as calculating a boolean. -/
def OpCode.knownBool (code : OpCode) (calculatedBool : Bool) : Bool :=
  code.isBoolOutput ||
    (calculatedBool && (code == .call || code == .callind || code == .cpoolref))

/-- The possible results of an op: one of the inputs for a MULTIEQUAL, the defined value where
there is one, and otherwise any value that fits, 0 or 1 for an op known to be boolean. -/
def OpResult (code : OpCode) (calculatedBool : Bool) (ins : Operands) (so v : ℕ) : Prop :=
  if code = .multiequal then v ∈ ins.map Prod.snd
  else if code.hasSemantics then evalPcode code ins so = some v
  else v < 2 ^ (8 * so) ∧ (code.knownBool calculatedBool = true → v ≤ 1)

instance (code : OpCode) (cb : Bool) (ins : Operands) (so v : ℕ) :
    Decidable (OpResult code cb ins so v) :=
  inferInstanceAs (Decidable (if code = .multiequal then v ∈ ins.map Prod.snd
    else if code.hasSemantics then evalPcode code ins so = some v
    else v < 2 ^ (8 * so) ∧ (code.knownBool cb = true → v ≤ 1)))

theorem toNat_lt_pow_bytes (c : Bool) {so : ℕ} (h : 0 < so) : c.toNat < 2 ^ (8 * so) :=
  c.toNat_lt.trans_le ((Nat.pow_le_pow_right two_pos (show 1 ≤ 8 * so by omega)))

theorem evalUnary_lt {code : OpCode} {sa so a v : ℕ} (hs : sizesOk code [sa] so) (hso : 0 < so)
    (ha : a < 2 ^ (8 * sa)) (h : evalUnary code sa so a = some v) : v < 2 ^ (8 * so) := by
  have hpos : 0 < 2 ^ (8 * so) := Nat.two_pow_pos _
  unfold evalUnary at h
  cases code <;> simp only [sizesOk, reduceCtorEq, Option.some.injEq, List.cons.injEq, and_true,
    exists_eq_left', Option.ite_none_right_eq_some] at h hs
  all_goals try subst h
  all_goals try first
    | exact BitVec.isLt _
    | exact Nat.mod_lt _ hpos
    | (subst hs; exact ha)
  · exact ha.trans (Nat.pow_lt_pow_right (by norm_num) (by omega))
  · obtain ⟨_, rfl⟩ := h
    obtain ⟨rfl, rfl⟩ := hs
    exact (Nat.sub_le 1 a).trans_lt (by norm_num)

theorem evalBinary_lt {code : OpCode} {sa sb so a b v : ℕ} (hs : sizesOk code [sa, sb] so)
    (hso : 0 < so) (ha : a < 2 ^ (8 * sa)) (hb : b < 2 ^ (8 * sb))
    (h : evalBinary code sa sb so a b = some v) : v < 2 ^ (8 * so) := by
  have hpos : 0 < 2 ^ (8 * so) := Nat.two_pow_pos _
  unfold evalBinary at h
  cases code <;> simp only [sizesOk, reduceCtorEq, Option.some.injEq, List.cons.injEq, and_true,
    Option.ite_none_right_eq_some, Option.ite_none_left_eq_some] at h hs
  case intLeft | subpiece =>
    subst h
    split
    · exact hpos
    · exact Nat.mod_lt _ hpos
  case intRight =>
    obtain ⟨_, rfl, _⟩ := hs
    subst h
    split
    · exact hpos
    · exact (Nat.shiftRight_le _ _).trans_lt ha
  case intSright =>
    obtain ⟨_, rfl, _⟩ := hs
    subst h
    exact BitVec.isLt _
  case piece =>
    obtain ⟨sa', sb', ⟨rfl, rfl⟩, rfl⟩ := hs
    subst h
    rw [Nat.mul_add]
    refine Nat.or_lt_two_pow ?_ (hb.trans_le (Nat.pow_le_pow_right two_pos (Nat.le_add_left _ _)))
    rw [Nat.shiftLeft_eq, pow_add]
    exact Nat.mul_lt_mul_of_pos_right ha (Nat.two_pow_pos _)
  case intXor | intAnd | intOr =>
    obtain ⟨rfl, rfl⟩ := hs
    subst h
    first
      | exact Nat.xor_lt_two_pow ha hb
      | exact Nat.and_lt_two_pow _ hb
      | exact Nat.or_lt_two_pow ha hb
  case intDiv | intRem =>
    obtain ⟨rfl, rfl⟩ := hs
    obtain ⟨_, rfl⟩ := h
    first
      | exact (Nat.div_le_self _ _).trans_lt ha
      | exact (Nat.mod_le _ _).trans_lt ha
  case intSdiv | intSrem =>
    obtain ⟨rfl, rfl⟩ := hs
    obtain ⟨_, rfl⟩ := h
    exact BitVec.isLt _
  case boolXor | boolAnd | boolOr =>
    obtain ⟨⟨rfl, rfl⟩, rfl⟩ := hs
    obtain ⟨_, rfl⟩ := h
    first
      | exact Nat.xor_lt_two_pow ha hb
      | exact Nat.and_lt_two_pow _ hb
      | exact Nat.or_lt_two_pow ha hb
  all_goals
    subst h
    first
      | exact toNat_lt_pow_bytes _ hso
      | exact Nat.mod_lt _ hpos

/-- Operand lists whose values fit their sizes. -/
def Operands.Fit (ins : Operands) : Prop := ∀ p ∈ ins, p.2 < 2 ^ (8 * p.1)

theorem evalPcode_lt {code : OpCode} {ins : Operands} {so v : ℕ}
    (hs : sizesOk code (ins.map Prod.fst) so) (hso : 0 < so) (hf : ins.Fit)
    (h : evalPcode code ins so = some v) : v < 2 ^ (8 * so) := by
  have hpos : 0 < 2 ^ (8 * so) := Nat.two_pow_pos _
  unfold evalPcode at h
  split at h
  · exact evalUnary_lt hs hso (hf (_, _) (by simp)) h
  · exact evalBinary_lt hs hso (hf (_, _) (by simp)) (hf (_, _) (by simp)) h
  · split at h
    · cases h; exact Nat.mod_lt _ hpos
    · cases h; exact Nat.mod_lt _ hpos
    · cases h
  · split at h
    · cases h; exact Nat.mod_lt _ hpos
    · cases h
  · cases h

theorem OpResult.lt {code : OpCode} {cb : Bool} {ins : Operands} {so v : ℕ}
    (hs : sizesOk code (ins.map Prod.fst) so) (hso : 0 < so) (hf : ins.Fit)
    (h : OpResult code cb ins so v) : v < 2 ^ (8 * so) := by
  unfold OpResult at h
  split_ifs at h with hm he
  · subst hm
    obtain ⟨p, hp, rfl⟩ := List.mem_map.mp h
    have hp1 : p.1 = so := hs p.1 (List.mem_map_of_mem hp)
    exact hp1 ▸ hf p hp
  · exact evalPcode_lt hs hso hf h
  · exact h.1

/-- The opcodes with a defined value that take more than two operands. -/
theorem code_of_evalPcode {code : OpCode} {p q r : ℕ × ℕ} {rest : Operands} {so v : ℕ}
    (h : evalPcode code (p :: q :: r :: rest) so = some v) :
    code = .ptradd ∨ code = .extract ∨ code = .insert := by
  match rest with
  | [] =>
    simp only [evalPcode] at h
    split at h
    · exact .inl rfl
    · exact .inr (.inl rfl)
    · cases h
  | [_] =>
    simp only [evalPcode] at h
    split at h
    · exact .inr (.inr rfl)
    · cases h
  | _ :: _ :: _ => simp only [evalPcode, reduceCtorEq] at h

end Mosura
