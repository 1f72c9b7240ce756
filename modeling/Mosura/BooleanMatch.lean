import Mosura.CompareRules

/-! `BooleanMatch` (`expression.rs`): are two boolean values the same, or opposite? A function returns
`none` where the source panics. -/

namespace Mosura

/-- How two boolean values are related, as far as it is known. -/
inductive BooleanMatch
  | same | complementary | uncorrelated
  deriving DecidableEq, Repr

namespace BooleanMatch

/-- The relation if one of the values is negated. -/
def flip : BooleanMatch → BooleanMatch
  | same => complementary
  | complementary => same
  | uncorrelated => uncorrelated

end BooleanMatch

/-- BOOL_AND, BOOL_OR and BOOL_XOR. -/
def OpCode.isConnective : OpCode → Bool
  | .boolAnd | .boolOr | .boolXor => true
  | _ => false

namespace Funcdata

open BooleanMatch

variable (f : Funcdata)

/-- `varnode_same`: one value, or two equal constants. -/
def varnodeSame (a b : VarnodeId) : Bool :=
  a == b || ((f.vn a).constant && (f.vn b).constant &&
    (f.vn a).constantValue == (f.vn b).constantValue)

/-- The end of `same_op_complement`: `val1` is the constant on the left, `val2` that on the right. -/
def complementConstants (opcode : OpCode) (val1 val2 : U64) (size : ℕ) : Bool :=
  if val1 + 1 ≠ val2 then false
  else if val2 = 0 ∧ opcode = .intLess then false
  else if opcode = .intSless ∧ signbitNegative val2 size = true ∧ signbitNegative val1 size = false
    then false
  else true

/-- `same_op_complement`: `x < 9` and `8 < x`. -/
def sameOpComplement (bin1op bin2op : OpId) : Option Bool := do
  let opcode := (f.op bin1op).opcode
  if opcode ≠ .intSless ∧ opcode ≠ .intLess then return false
  let in1 ← (f.op bin1op).input 1
  let constslot := if (f.vn in1).constant then 1 else 0
  let c1 ← (f.op bin1op).input constslot
  if !(f.vn c1).constant then return false
  let c2 ← (f.op bin2op).input (1 - constslot)
  if !(f.vn c2).constant then return false
  let a ← (f.op bin1op).input (1 - constslot)
  let b ← (f.op bin2op).input constslot
  if !f.varnodeSame a b then return false
  let val1 := (f.vn c1).constantValue
  let val2 := (f.vn c2).constantValue
  return if constslot ≠ 0 then complementConstants opcode val2 val1 (f.vn c1).size
    else complementConstants opcode val1 val2 (f.vn c1).size

/-- The loop that compares the inputs of two ops in order. -/
def sameInputs : List VarnodeId → List VarnodeId → Option Bool
  | [], _ => some true
  | _ :: _, [] => none
  | a :: as, b :: bs => if f.varnodeSame a b then sameInputs as bs else some false

/-- The ops are complements of one another, by `get_booleanflip`. -/
def matchFlipped (op1 op2 : OpId) : Option BooleanMatch :=
  match (f.op op2).opcode.getBooleanflip with
  | none => some uncorrelated
  | some (flipped, reorder) =>
    if (f.op op1).opcode ≠ flipped then some uncorrelated
    else do
      let slot2 := if reorder then 1 else 0
      let a ← (f.op op1).input 0
      let b ← (f.op op2).input slot2
      if !f.varnodeSame a b then return uncorrelated
      let a' ← (f.op op1).input 1
      let b' ← (f.op op2).input (1 - slot2)
      return if f.varnodeSame a' b' then complementary else uncorrelated

/-- Two ops with a boolean output are compared directly. -/
def matchDirect (op1 op2 : OpId) : Option BooleanMatch :=
  if (f.op op1).opcode = (f.op op2).opcode then do
    if ← f.sameInputs (f.op op1).inrefs (f.op op2).inrefs then return same
    return if ← f.sameOpComplement op1 op2 then complementary else uncorrelated
  else f.matchFlipped op1 op2

/-- What two matched pairs of operands say of two connectives. -/
def matchPairs (opc1 opc2 : OpCode) (pair1 pair2 : BooleanMatch) : BooleanMatch :=
  if opc1 = opc2 then
    if pair1 = same ∧ pair2 = same then same
    else if opc1 = .boolXor then
      if pair1 = complementary ∧ pair2 = complementary then same else complementary
    else uncorrelated
  else if pair1 = complementary ∧ pair2 = complementary then complementary
  else uncorrelated

/-- Two connectives: their operands are matched in order, or else crosswise. -/
def matchConnectives (evaluate : VarnodeId → VarnodeId → Option BooleanMatch) (op1 op2 : OpId) :
    Option BooleanMatch := do
  let a ← (f.op op1).input 0
  let b ← (f.op op2).input 0
  let pair1 ← evaluate a b
  if pair1 = uncorrelated then
    let b' ← (f.op op2).input 1
    let pair1 ← evaluate a b'
    if pair1 = uncorrelated then return uncorrelated
    let a' ← (f.op op1).input 1
    let pair2 ← evaluate a' b
    if pair2 = uncorrelated then return uncorrelated
    return matchPairs (f.op op1).opcode (f.op op2).opcode pair1 pair2
  else
    let a' ← (f.op op1).input 1
    let b' ← (f.op op2).input 1
    let pair2 ← evaluate a' b'
    if pair2 = uncorrelated then return uncorrelated
    return matchPairs (f.op op1).opcode (f.op op2).opcode pair1 pair2

/-- Two ops that are no BOOL_NEGATE; `evaluate` is for one level less. -/
def matchOps (evaluate : VarnodeId → VarnodeId → Option BooleanMatch) (depth : BitVec 32)
    (op1 op2 : OpId) : Option BooleanMatch :=
  let opc1 := (f.op op1).opcode
  let opc2 := (f.op op2).opcode
  if !opc1.isBoolOutput || !opc2.isBoolOutput then some uncorrelated
  else if depth ≠ 0 ∧ opc1.isConnective then
    if opc2.isConnective ∧ (opc1 = opc2 ∨ (opc1 = .boolAnd ∧ opc2 = .boolOr) ∨
      (opc1 = .boolOr ∧ opc2 = .boolAnd)) then f.matchConnectives evaluate op1 op2
    else some uncorrelated
  else f.matchDirect op1 op2

/-- The op that writes `v`. A written varnode without an op is a panic in the source. -/
def writer (v : VarnodeId) : Option OpId := if (f.vn v).written then (f.vn v).defOp else none

/-- The BOOL_NEGATE that writes `v`. -/
def negation (v : VarnodeId) : Option OpId :=
  (f.writer v).filter fun d => decide ((f.op d).opcode = .boolNegate)

/-- `evaluate`, cut off after `fuel` calls in one another; a chain of BOOL_NEGATEs does not count for
the depth. -/
def evaluate : ℕ → VarnodeId → VarnodeId → BitVec 32 → Option BooleanMatch
  | 0, _, _, _ => none
  | fuel + 1, vn1, vn2, depth =>
    if vn1 = vn2 then some same
    else
      match f.negation vn1 with
      | some o => do return (← evaluate fuel (← (f.op o).input 0) vn2 depth).flip
      | none =>
        match f.negation vn2 with
        | some o => do return (← evaluate fuel vn1 (← (f.op o).input 0) depth).flip
        | none =>
          match f.writer vn1, f.writer vn2 with
          | some op1, some op2 =>
            f.matchOps (fun a b => evaluate fuel a b (depth - 1)) depth op1 op2
          | _, _ => some uncorrelated

end Funcdata
end Mosura
