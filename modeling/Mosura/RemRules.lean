import Mosura.DivRules

/-! The rules that recover remainders and signed divisions by powers of two (`divopt.rs`). A rule
returns the new graph where it fires, and `none` where it returns 0 or panics on a missing input; an
arithmetic overflow is an error of its own. -/

namespace Mosura

/-- The arithmetic that stops a rule. -/
inductive Overflow where
  | shift
  | sum
  deriving DecidableEq, Repr

/-- A sum or difference of the host's `i64`. -/
def checkedI64 (x : ℤ) : Except Overflow ℤ :=
  if -2 ^ 63 ≤ x ∧ x < 2 ^ 63 then .ok x else .error .sum

/-- `x << n` on the host's `u64`. -/
def checkedShift (x : U64) (n : ℤ) : Except Overflow U64 :=
  if 0 ≤ n ∧ n < 64 then .ok (x <<< n.toNat) else .error .shift

namespace Funcdata

variable (f : Funcdata)

/-! `RuleModOpt`. -/

/-- `div` is the 2's complement of `div2`. -/
def isComplement (div div2 : VarnodeId) : Bool :=
  if (f.vn div2).constant then
    f.isConstant div ((((f.vn div2).constantValue ^^^ calcMask (f.vn div2).size) + 1) &&&
      calcMask (f.vn div2).size)
  else
    match f.writerOf div2 .int2comp with
    | none => false
    | some d2def => (f.op d2def).input 0 == some div

/-- The sum `x + (x / div) * -div` of the division at `op`. -/
def modOptMatch (op : OpId) : Option OpId := do
  let x ← (f.op op).input 0
  let div ← (f.op op).input 1
  let outvn ← (f.op op).output
  (f.vn outvn).descend.findSome? fun multop =>
    if (f.op multop).opcode ≠ .intMult then none
    else do
      let in0 ← (f.op multop).input 0
      let in1 ← (f.op multop).input 1
      if !f.isComplement div (if in1 = outvn then in0 else in1) then none
      else do
        let outvn2 ← (f.op multop).output
        (f.vn outvn2).descend.findSome? fun addop =>
          if (f.op addop).opcode ≠ .intAdd then none
          else do
            let in0 ← (f.op addop).input 0
            let in1 ← (f.op addop).input 1
            if (if in0 = outvn2 then in1 else in0) = x then some addop else none

/-- `RuleModOpt`: `x - (x / div) * div` becomes `x % div`. -/
def modOpt (op : OpId) : Option Funcdata := do
  let addop ← f.modOptMatch op
  let x ← (f.op op).input 0
  let div ← (f.op op).input 1
  let f' := f.opSetInput addop 0 x
  let f' := if (f.vn div).constant then
      f'.setConstInput addop 1 (f.vn div).size (f.vn div).constantValue
    else f'.opSetInput addop 1 div
  some (f'.opSetOpcode addop (if (f.op op).opcode = .intDiv then .intRem else .intSrem))

/-! `RuleSignMod2nOpt`. -/

/-- What the search of `RuleSignMod2nOpt` has found: the op to rewrite, the size in which a truncated
form computes, and the shift of the sign in the sum. -/
structure SignMod where
  baseOp : OpId
  truncSize : Option ℕ
  shiftval : U64
  deriving DecidableEq, Repr

/-- `shiftval`: the shift as it would be without the truncation. -/
def SignMod.shift (m : SignMod) (size : ℕ) : Except Overflow ℤ :=
  match m.truncSize with
  | none => .ok m.shiftval.toInt
  | some truncSize => checkedI64 (m.shiftval.toInt + ((size : ℤ) - truncSize) * 8)

/-- The INT_AND of the form, and its size where an INT_ZEXT comes after it. -/
def signModAnd (andOut : VarnodeId) : Option (OpId × Option ℕ) :=
  match f.writerOf andOut .intZext with
  | some ext => do
    let andOut ← (f.op ext).input 0
    let andOp ← f.writerOf andOut .intAnd
    some (andOp, some (f.vn andOut).size)
  | none => (f.writerOf andOut .intAnd).map fun andOp => (andOp, none)

/-- `v` is `a`, or the `SUBPIECE(a, offset)` of a truncated form. -/
def isTruncationOf (a v : VarnodeId) (offset : Option U64) : Bool :=
  match offset with
  | none => a == v
  | some offset =>
    match f.writerOf v .subpiece with
    | none => false
    | some subOp =>
      ((f.op subOp).input 1).any (fun c => (f.vn c).constantValue == offset) &&
        (f.op subOp).input 0 == some a

/-- The other addend, of a sum that has `a` for one of its addends. -/
def signModOther (addOp : OpId) (a : VarnodeId) (truncSize : Option ℕ) : Option VarnodeId := do
  let in0 ← (f.op addOp).input 0
  let in1 ← (f.op addOp).input 1
  if f.isTruncationOf a in0 (truncSize.map fun _ => 0) then some in1
  else if f.isTruncationOf a in1 (truncSize.map fun _ => 0) then some in0
  else none

/-- The sum that reads the product of `correctVn` and -1 alone, and its other addend. -/
def signModBase (correctVn : VarnodeId) (multop : OpId) : Option (OpId × VarnodeId) :=
  if (f.op multop).opcode ≠ .intMult then none
  else do
    let negone ← (f.op multop).input 1
    if !f.isConstant negone (calcMask (f.vn correctVn).size) then none
    else
      let multOut ← (f.op multop).output
      match (f.vn multOut).descend with
      | [baseOp] =>
        if (f.op baseOp).opcode ≠ .intAdd then none
        else
          let in0 ← (f.op baseOp).input 0
          let in1 ← (f.op baseOp).input 1
          some (baseOp, if in0 = multOut then in1 else in0)
      | _ => none

/-- The shift of the sign in the sum that `andOut` masks, and the size of a truncated form. -/
def signModShift (a : VarnodeId) (mask : U64) (andOut : VarnodeId) : Option (OpId × Option ℕ) := do
  let (andOp, truncSize) ← f.signModAnd andOut
  let constVn ← (f.op andOp).input 1
  if !f.isConstant constVn mask then none
  else
    let addOut ← (f.op andOp).input 0
    let addOp ← f.writerOf addOut .intAdd
    let extVn ← f.signModOther addOp a truncSize
    let shiftOp ← f.writerOf extVn .intRight
    some (shiftOp, truncSize)

/-- The op shifts a sign of `a`, or of the bytes of `a` above the truncated ones. -/
def signModSign (a : VarnodeId) (shiftOp : OpId) (truncSize : Option ℕ) : Bool :=
  ((f.op shiftOp).input 0).any fun sign =>
    (f.checkSignExtraction sign).any fun ext2 =>
      f.isTruncationOf a ext2 (truncSize.map (BitVec.ofNat 64))

/-- The search of `RuleSignMod2nOpt` from the multiplication by -1; it also stops where the sum of
the shifts overflows. -/
def signModAt (a correctVn : VarnodeId) (shiftAmt mask : U64) (multop : OpId) : Option SignMod := do
  let (baseOp, andOut) ← f.signModBase correctVn multop
  let (shiftOp, truncSize) ← f.signModShift a mask andOut
  let cvn ← (f.op shiftOp).input 1
  if !(f.vn cvn).constant then none
  else
    let m : SignMod := ⟨baseOp, truncSize, (f.vn cvn).constantValue⟩
    match m.shift (f.vn a).size with
    | .error _ => some m
    | .ok shiftval =>
      if shiftval = shiftAmt.toInt ∧ f.signModSign a shiftOp truncSize then some m else none

/-- The sign `a s>> (w-1)` that `op` shifts, by a constant. -/
def signModStart (op : OpId) : Option (VarnodeId × VarnodeId × U64) := do
  let in1 ← (f.op op).input 1
  if !(f.vn in1).constant then none
  else
    let in0 ← (f.op op).input 0
    let a ← f.checkSignExtraction in0
    if (f.vn a).isFree then none
    else
      let correctVn ← (f.op op).output
      some (a, correctVn, (f.vn in1).constantValue)

/-- `n`, the number of bits of the remainder. -/
def signModBits (a : VarnodeId) (shiftAmt : U64) : ℤ := (f.vn a).size * 8 - shiftAmt.toInt

/-- What the loop of `RuleSignMod2nOpt` stops at. -/
def signModSearch (a correctVn : VarnodeId) (shiftAmt mask : U64) : Option SignMod :=
  (f.vn correctVn).descend.findSome? (f.signModAt a correctVn shiftAmt mask)

/-- `RuleSignMod2nOpt`: `((V + (sign >> (w-n))) & (2^n-1)) - (sign >> (w-n))` becomes `V s% 2^n`. -/
def signMod2nOpt (op : OpId) : Except Overflow (Option Funcdata) :=
  match f.signModStart op with
  | none => .ok none
  | some (a, correctVn, shiftAmt) => do
    let n ← checkedI64 (f.signModBits a shiftAmt)
    let mask := (← checkedShift 1 n) - 1
    match f.signModSearch a correctVn shiftAmt mask with
    | none => .ok none
    | some m =>
      let _ ← m.shift (f.vn a).size
      .ok (some (((f.opSetOpcode m.baseOp .intSrem).opSetInput m.baseOp 0 a).setConstInput m.baseOp 1
        (f.vn a).size (mask + 1)))

/-! `RuleSignMod2nOpt2`. -/

/-- The shift `base s>> (w-1)` that `op` has in `1 - slot` less in `slot`. -/
def signExtAt (op : OpId) (slot : ℕ) : Option VarnodeId := do
  let minusVn ← (f.op op).input slot
  let multOp ← f.writerOf minusVn .intMult
  let constVn ← (f.op multOp).input 1
  if !f.isMinusOne constVn then none
  else
    let base ← (f.op op).input (1 - slot)
    let signExt ← (f.op multOp).input 0
    let shiftOp ← f.writerOf signExt .intSright
    if (f.op shiftOp).input 0 ≠ some base then none
    else
      let cvn ← (f.op shiftOp).input 1
      if f.isConstant cvn (signShift (f.vn base).size) then some base else none

/-- `check_sign_ext_form`: `op` is `V - (V s>> (w-1))`, the answer is `V`. -/
def checkSignExtForm (op : OpId) : Option VarnodeId :=
  (f.signExtAt op 0).or (f.signExtAt op 1)

/-- The base of the form, and the power of two of its remainder. -/
def signMod2nOpt2Base (op : OpId) : Option (VarnodeId × U64) := do
  let constVn ← (f.op op).input 1
  if !f.isMinusOne constVn then none
  else
    let andOut ← (f.op op).input 0
    let andOp ← f.writerOf andOut .intAnd
    let cvn ← (f.op andOp).input 1
    let npow := ~~~(f.vn cvn).constantValue + 1 &&& calcMask (f.vn constVn).size
    -- the mask has the form 111..000
    if !(f.vn cvn).constant || bitCount 64 npow.toNat != 1 || npow == 1 then none
    else
      let adjVn ← (f.op andOp).input 0
      let adjOp ← f.writerOf adjVn .intAdd
      if npow ≠ 2 then none
      else
        let base ← f.checkSignExtForm adjOp
        if (f.vn base).isFree then none else some (base, npow)

/-- The sum with `base` that reads `multOut`, and the slot it reads it in. -/
def signModRoot (base multOut : VarnodeId) : Option (OpId × ℕ) :=
  (f.vn multOut).descend.findSome? fun rootOp =>
    if (f.op rootOp).opcode ≠ .intAdd then none
    else
      let slot := if (f.op rootOp).input 0 = some multOut then 0 else 1
      if (f.op rootOp).input (1 - slot) = some base then some (rootOp, slot) else none

/-- `RuleSignMod2nOpt2`: `V - (Vadj & ~1)` becomes `V s% 2`. -/
def signMod2nOpt2 (op : OpId) : Option Funcdata := do
  let (base, npow) ← f.signMod2nOpt2Base op
  let multOut ← (f.op op).output
  let (rootOp, slot) ← f.signModRoot base multOut
  let f' := if slot = 0 then f.opSetInput rootOp 0 base else f
  some ((f'.setConstInput rootOp 1 (f.vn base).size npow).opSetOpcode rootOp .intSrem)

/-! `RuleSignDiv2`. -/

/-- The dividend, found from the addend in slot `i`. -/
def signDiv2At (addop : OpId) (i : ℕ) : Option VarnodeId := do
  let multout ← (f.op addop).input i
  let multop ← f.writerOf multout .intMult
  let mc ← (f.op multop).input 1
  if !f.isMinusOne mc then none
  else
    let shiftout ← (f.op multop).input 0
    let a ← f.checkSignExtraction shiftout
    if some a ≠ (f.op addop).input (1 - i) ∨ (f.vn a).isFree then none else some a

/-- `RuleSignDiv2`: `(V - (V s>> (w-1))) s>> 1` becomes `V s/ 2`. -/
def signDiv2 (op : OpId) : Option Funcdata := do
  let in1 ← (f.op op).input 1
  if !f.isConstant in1 1 then none
  else
    let addout ← (f.op op).input 0
    let addop ← f.writerOf addout .intAdd
    let a ← (f.signDiv2At addop 0).or (f.signDiv2At addop 1)
    some (((f.opSetInput op 0 a).setConstInput op 1 (f.vn a).size 2).opSetOpcode op .intSdiv)

/-! `RuleSignNearMult`. -/

/-- An addend that is shifted down by a constant, and its shift. -/
def shiftedAddend (addop : OpId) (i : ℕ) : Option (VarnodeId × OpId × ℕ) := do
  let sv ← (f.op addop).input i
  let uso ← f.writerOf sv .intRight
  let c ← (f.op uso).input 1
  if (f.vn c).constant then some (sv, uso, i) else none

/-- The sum of `x` and a value shifted down by a constant, which `op` masks by a constant. -/
def nearMultStart (op : OpId) : Option (VarnodeId × VarnodeId × OpId) := do
  let in1 ← (f.op op).input 1
  let in0 ← (f.op op).input 0
  let addop ← f.writerOf in0 .intAdd
  if !(f.vn in1).constant then none
  else
    let (shiftvn, unshiftop, idx) ← (f.shiftedAddend addop 0).or (f.shiftedAddend addop 1)
    let x ← (f.op addop).input (1 - idx)
    if (f.vn x).isFree then none else some (x, shiftvn, unshiftop)

/-- `unshiftop` shifts the sign of `x`. -/
def nearMultSign (x : VarnodeId) (unshiftop : OpId) : Bool :=
  ((f.op unshiftop).input 0).any fun sgnvn => f.checkSignExtraction sgnvn == some x

/-- The form that `RuleSignNearMult` finds: its base and the number `n` of low bits. -/
def nearMultMatch (op : OpId) : Except Overflow (Option (VarnodeId × ℤ)) :=
  match f.nearMultStart op with
  | none => .ok none
  | some (x, shiftvn, unshiftop) =>
    let n0 := (f.inVn unshiftop 1).constantValue.toInt
    if n0 ≤ 0 then .ok none
    else do
      let n ← checkedI64 ((f.vn shiftvn).size * 8 - n0)
      if n ≤ 0 then .ok none
      else
        let mask0 := calcMask (f.vn shiftvn).size
        let mask := (← checkedShift mask0 n) &&& mask0
        if mask = (f.inVn op 1).constantValue ∧ f.nearMultSign x unshiftop then .ok (some (x, n))
        else .ok none

/-- A division of `x` by `pow` just ahead of `op`, which becomes its product with `pow`. -/
def nearMultRewrite (op : OpId) (x : VarnodeId) (pow : U64) : Option Funcdata :=
  let xsize := (f.vn x).size
  let (f', powc1) := f.newConst xsize pow
  let (f', newdiv) := f'.newOpBeforeSized op .intSdiv [x, powc1] xsize
  (f'.op newdiv).output.map fun divvn =>
    let (f', powc2) := (f'.opSetOpcode op .intMult).newConst xsize pow
    (f'.opSetInput op 0 divvn).opSetInput op 1 powc2

/-- `RuleSignNearMult`: `(V + (sign >> (w-n))) & (-1 << n)` becomes `(V s/ 2^n) * 2^n`. -/
def signNearMult (op : OpId) : Except Overflow (Option Funcdata) := do
  match ← f.nearMultMatch op with
  | none => .ok none
  | some (x, n) =>
    let pow ← checkedShift 1 n
    .ok (f.nearMultRewrite op x pow)

/-! `RuleSignMod2Opt`. -/

/-- The slot of an addend that is a product with -1, and the product. -/
def negatedAddend (addOp : OpId) (slot : ℕ) : Option (ℕ × OpId) := do
  let vn ← (f.op addOp).input slot
  let mo ← f.writerOf vn .intMult
  let cvn ← (f.op mo).input 1
  if f.isMinusOne cvn then some (slot, mo) else none

/-- The whole of which `base` is the high piece and `other` the low one. -/
def wholeOf (base other : VarnodeId) : Option VarnodeId := do
  let subOp ← f.writerOf base .subpiece
  let c ← (f.op subOp).input 1
  let whole ← (f.op subOp).input 0
  -- must truncate all but the high part
  if (f.vn c).constantValue + BitVec.ofNat 64 (f.vn base).size ≠
      BitVec.ofNat 64 (f.vn whole).size then none
  else if f.isTruncationOf whole other (some 0) then some whole else none

/-- The base, and whether the form is a truncated one. -/
def signMod2OptBase (op : OpId) : Option (VarnodeId × Bool) := do
  let constVn ← (f.op op).input 1
  if !f.isConstant constVn 1 then none
  else
    let addOut ← (f.op op).input 0
    let addOp ← f.writerOf addOut .intAdd
    let (multSlot, multOp) ← (f.negatedAddend addOp 0).or (f.negatedAddend addOp 1)
    let sign ← (f.op multOp).input 0
    let base ← f.checkSignExtraction sign
    let otherBase ← (f.op addOp).input (1 - multSlot)
    if base = otherBase then
      if (f.vn base).isFree then none else some (base, false)
    else
      let whole ← f.wholeOf base otherBase
      if (f.vn whole).isFree then none else some (whole, true)

/-- The result of the INT_AND, extended where the form is a truncated one. -/
def signMod2OptOut (op : OpId) (trunc : Bool) : Option VarnodeId := do
  let andOut ← (f.op op).output
  if trunc then
    match (f.vn andOut).descend with
    | [extOp] => if (f.op extOp).opcode = .intZext then (f.op extOp).output else none
    | _ => none
  else some andOut

/-- The sum of `andOut` and the sign of `base`. -/
def signMod2OptRoot (base andOut : VarnodeId) : Option OpId :=
  (f.vn andOut).descend.find? fun rootOp =>
    (f.op rootOp).opcode == .intAdd &&
      ((f.op rootOp).input (if (f.op rootOp).input 0 = some andOut then 1 else 0)).any fun sign =>
        f.checkSignExtraction sign == some base

/-- `RuleSignMod2Opt`: `((V - sign) & 1) + sign` becomes `V s% 2`. -/
def signMod2Opt (op : OpId) : Option Funcdata := do
  let (base, trunc) ← f.signMod2OptBase op
  let andOut ← f.signMod2OptOut op trunc
  let rootOp ← f.signMod2OptRoot base andOut
  some (((f.opSetOpcode rootOp .intSrem).opSetInput rootOp 0 base).setConstInput rootOp 1
    (f.vn base).size 2)

end Funcdata

/-- The rules that recover remainders and signed divisions by powers of two. -/
inductive RemRule where
  | modOpt
  | signMod2nOpt
  | signMod2nOpt2
  | signMod2Opt
  | signDiv2
  | signNearMult
  deriving DecidableEq, Repr

namespace RemRule

def oplist : RemRule → List OpCode
  | modOpt => [.intDiv, .intSdiv]
  | signMod2nOpt => [.intRight]
  | signMod2nOpt2 => [.intMult]
  | signMod2Opt => [.intAnd]
  | signDiv2 => [.intSright]
  | signNearMult => [.intAnd]

def applyOp (f : Funcdata) (op : OpId) : RemRule → Except Overflow (Option Funcdata)
  | modOpt => .ok (f.modOpt op)
  | signMod2nOpt => f.signMod2nOpt op
  | signMod2nOpt2 => .ok (f.signMod2nOpt2 op)
  | signMod2Opt => .ok (f.signMod2Opt op)
  | signDiv2 => .ok (f.signDiv2 op)
  | signNearMult => f.signNearMult op

end RemRule
end Mosura
