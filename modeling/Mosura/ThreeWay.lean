import Mosura.FlagRules

/-! `RuleThreeWayCompare` (`rules.rs`): a comparison of the three-way value
`zext(V < W) + zext(V <= W) - 1` with a small constant. The functions return `none` where the source
finds no match or panics. -/

namespace Mosura

/-- `lessequal_form`. -/
def OpCode.lessequalForm : OpCode → OpCode
  | intLess => intLessequal
  | intSless => intSlessequal
  | floatLess => floatLessequal
  | other => other

namespace Funcdata

/-- `two_less_than` for the opcodes of the two comparisons, which have to be of one kind. -/
def twoLessThan : OpCode → OpCode → Option Bool
  | .intLess, .intLessequal => some false
  | .intLess, .intLess => some true
  | .intSless, .intSlessequal => some false
  | .intSless, .intSless => some true
  | .floatLess, .floatLessequal => some false
  | _, _ => none

variable (f : Funcdata)

/-- The first operands of the two comparisons: `two_less_than` and whether to swap the roles. -/
def firstOperands (a1 a2 : VarnodeId) (two : Bool) : Option (Bool × Bool) :=
  if a1 = a2 then some (two, false)
  else if !(f.vn a1).constant || !(f.vn a2).constant then none
  else if (f.vn a1).constantValue ≠ (f.vn a2).constantValue ∧ two = true then
    if (f.vn a2).constantValue + 1 = (f.vn a1).constantValue then some (false, false)
    else if (f.vn a1).constantValue + 1 = (f.vn a2).constantValue then some (false, true)
    else none
  else some (two, false)

/-- The second operands, from what the first ones say. -/
def secondOperands (b1 b2 : VarnodeId) (two swap : Bool) : Option (Bool × Bool) :=
  if b1 = b2 then some (two, swap)
  else if !(f.vn b1).constant || !(f.vn b2).constant then none
  else if (f.vn b1).constantValue ≠ (f.vn b2).constantValue ∧ two = true then
    if (f.vn b1).constantValue + 1 = (f.vn b2).constantValue then some (false, swap)
    else if (f.vn b2).constantValue + 1 = (f.vn b1).constantValue then some (false, true)
    else some (two, swap)
  else none

/-- `three_way_test_compare_equivalence`: whether to swap the roles, `none` where it returns -1. -/
def threeWayTestCompareEquivalence (lessop lessequalop : OpId) : Option Bool := do
  let two ← twoLessThan (f.op lessop).opcode (f.op lessequalop).opcode
  let a1 ← (f.op lessop).input 0
  let a2 ← (f.op lessequalop).input 0
  let b1 ← (f.op lessop).input 1
  let b2 ← (f.op lessequalop).input 1
  let (two, swap) ← f.firstOperands a1 a2 two
  let (two, swap) ← f.secondOperands b1 b2 two swap
  if two then none else some swap

/-- The op that writes `v`, if it has the opcode `code`. -/
def writerOf (v : VarnodeId) (code : OpCode) : Option OpId :=
  if !(f.vn v).written then none
  else do
    let d ← (f.vn v).defOp
    if (f.op d).opcode = code then some d else none

/-- The INT_ZEXT that writes input `slot` of `op`. -/
def zextInput (op : OpId) (slot : ℕ) : Option OpId := do
  let v ← (f.op op).input slot
  f.writerOf v .intZext

def isMinusOne (v : VarnodeId) : Bool :=
  (f.vn v).constant && (calcMask (f.vn v).size == (f.vn v).constantValue)

/-- The INT_ZEXT `z` of a sum `z - 1`. -/
def decrementedZext (addop : OpId) : Option OpId := do
  let t1 ← (f.op addop).input 1
  if !f.isMinusOne t1 then none
  else f.zextInput addop 0

/-- The start of `three_way_detect`: the two INT_ZEXTs, and whether the `- 1` is missing. -/
def threeWayZexts (op : OpId) : Option (OpId × OpId × Bool) := do
  let vn1 ← (f.op op).input 0
  let vn2 ← (f.op op).input 1
  if (f.vn vn2).constant then
    -- form 1: `(z + z) - 1`
    if !f.isMinusOne vn2 then none
    else
      let addop ← f.writerOf vn1 .intAdd
      let zext1 ← f.zextInput addop 0
      let zext2 ← f.zextInput addop 1
      some (zext1, zext2, false)
  else if !(f.vn vn2).written then none
  else
    let tmpop ← (f.vn vn2).defOp
    if (f.op tmpop).opcode = .intZext then
      -- form 2: `(z - 1) + z`, or the partial form `z + z`
      if !(f.vn vn1).written then none
      else
        let addop ← (f.vn vn1).defOp
        if (f.op addop).opcode = .intAdd then
          let zext1 ← f.decrementedZext addop
          some (zext1, tmpop, false)
        else if (f.op addop).opcode = .intZext then some (addop, tmpop, true)
        else none
    else if (f.op tmpop).opcode = .intAdd then
      -- form 3: `z + (z - 1)`
      let zext1 ← f.writerOf vn1 .intZext
      let zext2 ← f.decrementedZext tmpop
      some (zext1, zext2, false)
    else none

/-- The end of `three_way_detect`: the comparison that stands for `V < W` comes first. -/
def threeWayRoles (isPartial : Bool) (lessop lessequalop : OpId) : Option (OpId × OpId × Bool) :=
  (f.threeWayTestCompareEquivalence lessop lessequalop).map fun swap =>
    if swap then (lessequalop, lessop, isPartial) else (lessop, lessequalop, isPartial)

/-- `three_way_detect`: the comparison that stands for `V < W`, the other one, and whether the `- 1`
is missing. -/
def threeWayDetect (op : OpId) : Option (OpId × OpId × Bool) := do
  let (zext1, zext2, isPartial) ← f.threeWayZexts op
  let v1 ← (f.op zext1).input 0
  let v2 ← (f.op zext2).input 0
  if !(f.vn v1).written || !(f.vn v2).written then none
  else
    let op1 ← (f.vn v1).defOp
    let op2 ← (f.vn v2).defOp
    let opc := (f.op op1).opcode
    if opc ≠ .intLess ∧ opc ≠ .intSless ∧ opc ≠ .floatLess then f.threeWayRoles isPartial op2 op1
    else f.threeWayRoles isPartial op1 op2

/-- The constants -1, 0, 1, 2 as 0, 1, 2, 3. -/
def smallConstant (v : VarnodeId) : Option ℕ :=
  if (f.vn v).constantValue ≤ 2 then some ((f.vn v).constantValue.toNat + 1)
  else if (f.vn v).constantValue = calcMask (f.vn v).size then some 0
  else none

/-- What the rule matches: the slot of the constant, the constant as it compares with
`zext(V < W) + zext(V <= W)`, and the two comparisons. -/
def threeWayMatch (op : OpId) : Option (ℕ × ℕ × OpId × OpId) := do
  let in0 ← (f.op op).input 0
  let in1 ← (f.op op).input 1
  let (constSlot, tmpvn, other) := if (f.vn in0).constant then (0, in0, in1) else (1, in1, in0)
  if !(f.vn tmpvn).constant then none
  else
    let form ← f.smallConstant tmpvn
    let otherdef ← f.writerOf other .intAdd
    let (lessop, lessequalop, isPartial) ← f.threeWayDetect otherdef
    if isPartial then
      if form = 0 then none else some (constSlot, form - 1, lessop, lessequalop)
    else some (constSlot, form, lessop, lessequalop)

/-- `op` compares two varnodes. -/
def setCompare (op : OpId) (code : OpCode) (x y : VarnodeId) : Funcdata :=
  ((f.opSetOpcode op code).opSetInput op 0 x).opSetInput op 1 y

/-- `op` compares 0 with 0. -/
def setTrivial (op : OpId) (code : OpCode) : Funcdata :=
  ((f.opSetOpcode op code).setConstInput op 0 1 0).setConstInput op 1 1 0

/-- The table of the rule. -/
def threeWayTable (op : OpId) (form : ℕ) (lessform : OpCode) (avn bvn : VarnodeId) :
    Option Funcdata :=
  match form with
  | 1 | 21 => some (f.setTrivial op .intEqual)
  | 4 | 16 => some (f.setTrivial op .intNotequal)
  | 2 | 5 | 6 | 12 => some (f.setCompare op lessform avn bvn)
  | 13 | 19 | 20 | 23 => some (f.setCompare op lessform.lessequalForm avn bvn)
  | 8 | 17 | 18 | 22 => some (f.setCompare op lessform bvn avn)
  | 0 | 3 | 7 | 9 => some (f.setCompare op lessform.lessequalForm bvn avn)
  | 10 | 14 =>
    some (f.setCompare op (if lessform = .floatLess then .floatEqual else .intEqual) avn bvn)
  | 11 | 15 =>
    some (f.setCompare op (if lessform = .floatLess then .floatNotequal else .intNotequal) avn bvn)
  | _ => none

/-- The last two bits of `form`. -/
def compareForm : OpCode → ℕ
  | .intSlessequal => 1
  | .intEqual => 2
  | .intNotequal => 3
  | _ => 0

/-- `RuleThreeWayCompare`. -/
def threeWayCompare (op : OpId) : Option Funcdata := do
  let (constSlot, form, lessop, _) ← f.threeWayMatch op
  let bvn ← (f.op lessop).input 0
  let avn ← (f.op lessop).input 1
  if !(f.vn avn).constant && (f.vn avn).isFree then none
  else if !(f.vn bvn).constant && (f.vn bvn).isFree then none
  else
    f.threeWayTable op ((form * 2 + constSlot) * 4 + compareForm (f.op op).opcode)
      (f.op lessop).opcode avn bvn

/-- The ops `RuleThreeWayCompare` is offered. -/
def threeWayOplist : List OpCode := [.intSless, .intSlessequal, .intEqual, .intNotequal]

end Funcdata
end Mosura
