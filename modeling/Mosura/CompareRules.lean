import Mosura.RuleValues
import Mosura.Nzmask

/-! The rules that normalise a comparison (`rules.rs`). A rule returns the new graph where it fires,
and `none` where it returns 0 or panics. -/

namespace Mosura

/-- The unsigned comparison `RuleSlessToLess` makes of a signed one. -/
def OpCode.unsignedOf : OpCode → Option OpCode
  | intSless => some intLess
  | intSlessequal => some intLessequal
  | _ => none

namespace Funcdata

variable (f : Funcdata)

/-- The bit `calc_mask(size) ^ (calc_mask(size) >> 1)`. -/
def signMask (size : ℕ) : U64 := calcMask size ^^^ (calcMask size >>> 1)

/-- `signbit_negative`. -/
def signbitNegative (val : U64) (size : ℕ) : Bool :=
  size != 0 && (val &&& Rules.checkedShl 0x80 (8 * (size - 1))) != 0

/-- The end of several rules: `op` becomes a COPY of the truth value `val`. -/
def copyBool (op : OpId) (val : Bool) : Funcdata :=
  ((f.opSetOpcode op .copy).opRemoveInput op 1).setConstInput op 0 1 (Rules.ofBool val)

/-- `RuleIntLessEqual`. -/
def intLessEqual (op : OpId) : Option Funcdata :=
  match f.replaceLessequal op with
  | some (f', true) => some f'
  | _ => none

/-- `RuleLess2Zero`: `0 < V`, `max < V`, `V < 0`, `V < max`. -/
def less2Zero (op : OpId) : Option Funcdata := do
  let lvn ← (f.op op).input 0
  let rvn ← (f.op op).input 1
  if (f.vn lvn).constant then
    if (f.vn lvn).constantValue = 0 then some (f.opSetOpcode op .intNotequal)
    else if (f.vn lvn).constantValue = calcMask (f.vn lvn).size then some (f.copyBool op false)
    else none
  else if (f.vn rvn).constant then
    if (f.vn rvn).constantValue = 0 then some (f.copyBool op false)
    else if (f.vn rvn).constantValue = calcMask (f.vn rvn).size then
      some (f.opSetOpcode op .intNotequal)
    else none
  else none

/-- `RuleLessEqual2Zero`: `0 <= V`, `max <= V`, `V <= 0`, `V <= max`. -/
def lessEqual2Zero (op : OpId) : Option Funcdata := do
  let lvn ← (f.op op).input 0
  let rvn ← (f.op op).input 1
  if (f.op op).opcode ≠ .intLessequal then none
  else if (f.vn lvn).constant then
    if (f.vn lvn).constantValue = 0 then some (f.copyBool op true)
    else if (f.vn lvn).constantValue = calcMask (f.vn lvn).size then
      some (f.opSetOpcode op .intEqual)
    else none
  else if (f.vn rvn).constant then
    if (f.vn rvn).constantValue = 0 then some (f.opSetOpcode op .intEqual)
    else if (f.vn rvn).constantValue = calcMask (f.vn rvn).size then some (f.copyBool op true)
    else none
  else none

/-- `get_hi_bit`: the input of `op` that alone can set the sign bit, and sets no other. -/
def getHiBit (op : OpId) : Option VarnodeId := do
  let opc := (f.op op).opcode
  if opc ≠ .intAdd ∧ opc ≠ .intOr ∧ opc ≠ .intXor then none
  else
    let vn1 ← (f.op op).input 0
    let vn2 ← (f.op op).input 1
    let mask := signMask (f.vn vn1).size
    let nzmask1 := (f.vn vn1).nzm
    let nzmask2 := (f.vn vn2).nzm
    if nzmask1 ≠ mask ∧ nzmask1 &&& mask ≠ 0 then none
    else if nzmask2 ≠ mask ∧ nzmask2 &&& mask ≠ 0 then none
    else if nzmask1 = mask then some vn1
    else if nzmask2 = mask then some vn2
    else none

/-- `op` compares `avn` with a fresh constant: `avn` goes into `slot`, the constant into the other
one. -/
def compareConst (op : OpId) (slot : ℕ) (avn : VarnodeId) (value : U64) : Funcdata :=
  (f.opSetInput op slot avn).setConstInput op (1 - slot) (f.vn avn).size value

/-- The mask of the INT_AND `feedOp` keeps the sign bit of its other input `avn`. -/
def keepsSign (feedOp : OpId) (avn : VarnodeId) : Bool :=
  match (f.op feedOp).input 1 with
  | none => false
  | some maskVn => (f.vn maskVn).constant &&
    (Rules.checkedShr (f.vn maskVn).constantValue (8 * (f.vn avn).size - 1) &&& 1) != 0

/-- The truncation `feedOp` of `avn` to `vn` takes its most significant bytes. -/
def takesTop (feedOp : OpId) (vn avn : VarnodeId) : Bool :=
  BitVec.ofNat 64 (f.vn vn).size + (f.inVn feedOp 1).constantValue ==
    BitVec.ofNat 64 (f.vn avn).size

/-- `RuleSLess2Zero` where input `vn`, in `slot`, is compared with -1 (`slot` is 1) or with 0 (`slot`
is 0): `vn` is computed by `feedOp`, and `value` is the constant the other input gets for a
varnode. -/
def slessFeed (op : OpId) (slot : ℕ) (vn : VarnodeId) (feedOp : OpId) (other : VarnodeId) :
    Option Funcdata :=
  let value (avn : VarnodeId) : U64 := if slot = 1 then calcMask (f.vn avn).size else 0
  let opposite (avn : VarnodeId) : U64 := if slot = 1 then 0 else calcMask (f.vn avn).size
  match f.getHiBit feedOp with
  | some hibit =>
    let f' := if (f.vn hibit).constant then
        f.setConstInput op slot (f.vn hibit).size (f.vn hibit).constantValue
      else f.opSetInput op slot hibit
    let f' := f'.opSetOpcode op (if slot = 1 then .intEqual else .intNotequal)
    -- against -1 the other input is a fresh 0, against 0 it stays
    some (if slot = 1 then f'.setConstInput op 0 (f.vn hibit).size 0 else f')
  | none =>
    match (f.op feedOp).opcode with
    | .subpiece => do
      let avn ← (f.op feedOp).input 0
      if (f.vn avn).isFree || decide (8 < (f.vn avn).size) then none
      else if f.takesTop feedOp vn avn then some (f.compareConst op slot avn (value avn))
      else none
    | .intNegate => do
      let avn ← (f.op feedOp).input 0
      if (f.vn avn).isFree then none
      else some (f.compareConst op (1 - slot) avn (opposite avn))
    | .intAnd => do
      let avn ← (f.op feedOp).input 0
      if (f.vn avn).isFree || (f.loneDescend vn).isNone then none
      else if f.keepsSign feedOp avn then some (f.opSetInput op slot avn)
      else none
    | .piece => do
      let avn ← (f.op feedOp).input 0
      if (f.vn avn).isFree then none
      else some (f.compareConst op slot avn (value avn))
    | .intLeft => do
      if slot ≠ 1 then none
      else
        let coeff ← (f.op feedOp).input 1
        let avn ← (f.op feedOp).input 0
        if !(f.vn coeff).constant || (f.vn coeff).constantValue !=
            BitVec.ofNat 64 ((f.vn other).size * 8 - 1) then none
        else if !(f.vn avn).written then none
        else
          let d ← (f.vn avn).defOp
          if !(f.op d).opcode.isBoolOutput then none
          else some (((f.opSetOpcode op .boolNegate).opRemoveInput op 1).opSetInput op 0 avn)
    | _ => none

/-- `RuleSLess2Zero`. -/
def sless2Zero (op : OpId) : Option Funcdata := do
  let lvn ← (f.op op).input 0
  let rvn ← (f.op op).input 1
  if (f.vn lvn).constant then
    if !(f.vn rvn).written then none
    else if (f.vn lvn).constantValue ≠ calcMask (f.vn lvn).size then none
    else
      let feedOp ← (f.vn rvn).defOp
      f.slessFeed op 1 rvn feedOp lvn
  else if (f.vn rvn).constant then
    if !(f.vn lvn).written then none
    else if (f.vn rvn).constantValue ≠ 0 then none
    else
      let feedOp ← (f.vn lvn).defOp
      f.slessFeed op 0 lvn feedOp rvn
  else none

/-- `RuleLessOne`. -/
def lessOne (op : OpId) : Option Funcdata := do
  let constvn ← (f.op op).input 1
  if !(f.vn constvn).constant then none
  else
    let val := (f.vn constvn).constantValue
    if (f.op op).opcode = .intLess ∧ val ≠ 1 then none
    else if (f.op op).opcode = .intLessequal ∧ val ≠ 0 then none
    else
      let f' := f.opSetOpcode op .intEqual
      some (if val ≠ 0 then f'.setConstInput op 1 (f.vn constvn).size 0 else f')

/-- `vn` is the output of an INT_ZEXT. -/
def isZext (vn : VarnodeId) : Bool :=
  (f.vn vn).written &&
    ((f.vn vn).defOp.elim false fun d => decide ((f.op d).opcode = .intZext))

/-- `RuleZextSless`; the shift is by less than 64 for the sizes an INT_ZEXT of a word has. -/
def zextSless (op : OpId) : Option Funcdata := do
  let in0 ← (f.op op).input 0
  let in1 ← (f.op op).input 1
  if !f.isZext in1 && !f.isZext in0 then none
  else
    let (zextVn, otherVn, zextslot, otherslot) :=
      if f.isZext in1 then (in1, in0, 1, 0) else (in0, in1, 0, 1)
    if !(f.vn otherVn).constant then none
    else
      let zext ← (f.vn zextVn).defOp
      let smallVn ← (f.op zext).input 0
      if !(f.vn smallVn).isHeritageKnown then none
      else
        let smallsize := (f.vn smallVn).size
        let val := (f.vn otherVn).constantValue
        if val >>> ((8 * smallsize - 1) % 64) ≠ 0 then none
        else
          let (f', newvn) := f.newConst smallsize val
          let f' := (f'.opSetInput op zextslot smallVn).opSetInput op otherslot newvn
          let newopc := if (f.op op).opcode = .intSless then .intLess else .intLessequal
          some (f'.opSetOpcode op newopc)

/-- `RuleSlessToLess`. -/
def slessToLess (op : OpId) : Option Funcdata := do
  let newOp ← (f.op op).opcode.unsignedOf
  let vn ← (f.op op).input 0
  let sz := (f.vn vn).size
  if signbitNegative (f.vn vn).nzm sz then none
  else
    let vn1 ← (f.op op).input 1
    if signbitNegative (f.vn vn1).nzm sz then none
    else some (f.opSetOpcode op newOp)

/-- The constant that `V` is compared with after `RuleEqual2Constant`: `leftop` computes the sum,
the product or the complement `lhs` that is compared with the constant `cvn` now. -/
def foldedConst (leftop : OpId) (lhs cvn : VarnodeId) : Option U64 :=
  let cval := (f.vn cvn).constantValue
  match (f.op leftop).opcode with
  | .intAdd => do
    let otherconst ← (f.op leftop).input 1
    if !(f.vn otherconst).constant then none
    else some ((cval - (f.vn otherconst).constantValue) &&& calcMask (f.vn cvn).size)
  | .intMult => do
    let otherconst ← (f.op leftop).input 1
    if !(f.vn otherconst).constant then none
    else if (f.vn otherconst).constantValue ≠ calcMask (f.vn otherconst).size then none
    else some (-cval &&& calcMask (f.vn otherconst).size)
  | .intNegate => some (~~~cval &&& calcMask (f.vn lhs).size)
  | _ => none

/-- `op` is an INT_EQUAL or INT_NOTEQUAL with a constant. -/
def comparesConst (op : OpId) : Bool :=
  decide ((f.op op).opcode = .intEqual ∨ (f.op op).opcode = .intNotequal) &&
    (f.inVn op 1).constant

/-- `RuleEqual2Constant`. -/
def equal2Constant (op : OpId) : Option Funcdata := do
  let cvn ← (f.op op).input 1
  if !(f.vn cvn).constant then none
  else
    let lhs ← (f.op op).input 0
    if !(f.vn lhs).written then none
    else
      let leftop ← (f.vn lhs).defOp
      let newconst ← f.foldedConst leftop lhs cvn
      let a ← (f.op leftop).input 0
      if (f.vn a).isFree then none
      else if !((f.vn lhs).descend.all fun dop => decide (dop = op) || f.comparesConst dop) then none
      else some (f.compareConst op 0 a newconst)

/-- One comparison of `RuleTestSign`: it becomes `0 s<= inVn` or `inVn s< 0`, unless its constant is
neither 0 nor -1. -/
def testSignCompare (inVn : VarnodeId) (r : Funcdata × Bool) (compareOp : OpId) :
    Funcdata × Bool :=
  let g := r.1
  let offset := (g.inVn compareOp 1).constantValue
  let isMask := offset = calcMask (g.inVn compareOp 0).size
  if offset ≠ 0 ∧ ¬isMask then r
  else
    -- `sgn == 1`: the comparison holds where the sign bit is clear
    let nonneg := decide (offset = 0) != decide ((g.op compareOp).opcode = .intNotequal)
    let (g', zeroVn) := g.newConst (g.vn inVn).size 0
    if nonneg then
      (((g'.opSetInput compareOp 1 inVn).opSetInput compareOp 0 zeroVn).opSetOpcode compareOp
        .intSlessequal, true)
    else
      (((g'.opSetInput compareOp 0 inVn).opSetInput compareOp 1 zeroVn).opSetOpcode compareOp
        .intSless, true)

/-- `RuleTestSign`: `op` shifts the sign bit down, its comparisons with a constant are rewritten. -/
def testSign (op : OpId) : Option Funcdata := do
  let constVn ← (f.op op).input 1
  if !(f.vn constVn).constant then none
  else
    let inVn ← (f.op op).input 0
    if (f.vn constVn).constantValue ≠ BitVec.ofNat 64 (8 * (f.vn inVn).size - 1) then none
    else
      let outVn ← (f.op op).output
      if (f.vn inVn).isFree then none
      else
        let compareOps := (f.vn outVn).descend.filter f.comparesConst
        match compareOps.foldl (testSignCompare inVn) (f, false) with
        | (f', true) => some f'
        | (_, false) => none

/-- `RuleCarryElim`. -/
def carryElim (op : OpId) : Option Funcdata := do
  let vn2 ← (f.op op).input 1
  if !(f.vn vn2).constant then none
  else
    let vn1 ← (f.op op).input 0
    if (f.vn vn1).isFree then none
    else
      let off := (f.vn vn2).constantValue
      if off = 0 then some (f.copyBool op false)
      else
        let off := -off &&& calcMask (f.vn vn2).size
        some ((f.opSetOpcode op .intLessequal).compareConst op 1 vn1 off)

end Funcdata

/-- The rules that normalise a comparison. -/
inductive CompareRule
  | intLessEqual | less2Zero | lessEqual2Zero | sless2Zero | lessOne | zextSless | slessToLess
  | equal2Constant | testSign | carryElim
  deriving DecidableEq, Repr

namespace CompareRule

/-- The ops a rule is offered. -/
def oplist : CompareRule → List OpCode
  | intLessEqual => [.intLessequal, .intSlessequal]
  | less2Zero => [.intLess]
  | lessEqual2Zero => [.intLessequal]
  | sless2Zero => [.intSless]
  | lessOne => [.intLess, .intLessequal]
  | zextSless | slessToLess => [.intSless, .intSlessequal]
  | equal2Constant => [.intEqual, .intNotequal]
  | testSign => [.intSright]
  | carryElim => [.intCarry]

def applyOp (f : Funcdata) (op : OpId) : CompareRule → Option Funcdata
  | intLessEqual => f.intLessEqual op
  | less2Zero => f.less2Zero op
  | lessEqual2Zero => f.lessEqual2Zero op
  | sless2Zero => f.sless2Zero op
  | lessOne => f.lessOne op
  | zextSless => f.zextSless op
  | slessToLess => f.slessToLess op
  | equal2Constant => f.equal2Constant op
  | testSign => f.testSign op
  | carryElim => f.carryElim op

end CompareRule
end Mosura
