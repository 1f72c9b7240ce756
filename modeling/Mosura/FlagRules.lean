import Mosura.CompareRules

/-! The rules that rebuild a comparison from flags (`rules.rs`): `RuleSborrow`, `RuleScarry`,
`RuleEqual2Zero`, `RuleLessEqual`, `RuleLessNotEqual`. A rule returns the new graph where it fires,
and `none` where it returns 0 or panics. -/

namespace Mosura

namespace OpCode

/-- `is_commutative`. -/
def isCommutative : OpCode → Bool
  | intEqual | intNotequal | intAdd | intCarry | intScarry | intXor | intAnd | intOr | intMult
  | boolXor | boolAnd | boolOr | floatEqual | floatNotequal | floatAdd | floatMult => true
  | _ => false

end OpCode

/-- `AddExpression`: up to two terms, a varnode and its coefficient, and a constant. -/
structure AddExpression where
  constval : U64 := 0
  terms : List (VarnodeId × U64) := []
  deriving DecidableEq, Repr

def AddExpression.add (e : AddExpression) (vn : VarnodeId) (coeff : U64) : AddExpression :=
  if e.terms.length < 2 then { e with terms := e.terms ++ [(vn, coeff)] } else e

namespace Funcdata

variable (f : Funcdata)

def isConst0 (v : VarnodeId) : Bool := (f.vn v).constant && (f.vn v).constantValue == 0

def sameValue (a b : VarnodeId) : Bool :=
  a == b || ((f.vn a).constant && (f.vn b).constant && (f.vn a).size == (f.vn b).size &&
    (f.vn a).constantValue == (f.vn b).constantValue)

/-- `functional_equality_level0`: 0 if both must be equal, -1 if nothing says so, 1 if it depends on
the ops that write them. -/
def functionalEqualityLevel0 (vn1 vn2 : VarnodeId) : ℤ :=
  if vn1 = vn2 then 0
  else if (f.vn vn1).size ≠ (f.vn vn2).size then -1
  else if (f.vn vn1).constant then
    if (f.vn vn2).constant then
      if (f.vn vn1).constantValue = (f.vn vn2).constantValue then 0 else -1
    else -1
  else if (f.vn vn1).isFree || (f.vn vn2).isFree then -1
  else 1

/-- The end of `functional_equality_level`: the inputs of two ops with the opcode `opc`. Ops without
an input are a panic in the source. -/
def functionalInputs (opc : OpCode) : List VarnodeId → List VarnodeId → ℤ
  | [a], [c] => f.functionalEqualityLevel0 a c
  | a :: b :: _, c :: d :: _ =>
    let testval := f.functionalEqualityLevel0 a c
    let testval2 := f.functionalEqualityLevel0 b d
    if testval = 0 then if testval2 = 0 then 0 else if testval2 < 0 then -1 else 1
    else if testval2 = 0 then testval
    else
      let unmatchsize := if testval = 1 ∧ testval2 = 1 then 2 else -1
      if !opc.isCommutative then unmatchsize
      else
        let comm1 := f.functionalEqualityLevel0 a d
        let comm2 := f.functionalEqualityLevel0 b c
        if comm1 = 0 ∧ comm2 = 0 then 0
        else if comm1 < 0 ∨ comm2 < 0 then unmatchsize
        else if comm1 = 0 ∨ comm2 = 0 then 1
        else 2
  | _, _ => -1

/-- The middle of `functional_equality_level`: the ops that write both varnodes. -/
def functionalOps (op1 op2 : OpId) : ℤ :=
  let opc := (f.op op1).opcode
  let num := (f.op op1).numInputs
  if opc ≠ (f.op op2).opcode ∨ num ≠ (f.op op2).numInputs then -1
  else if opc.isMarker || (f.op op2).opcode.isCall then -1
  else if opc = .load ∧ (f.op op1).seqnum.pc ≠ (f.op op2).seqnum.pc then -1
  else if 3 ≤ num ∧ (opc ≠ .ptradd ∨
      (f.inVn op1 2).constantValue ≠ (f.inVn op2 2).constantValue) then -1
  else f.functionalInputs opc (f.op op1).inrefs (f.op op2).inrefs

/-- `functional_equality_level`; a written varnode without an op is a panic in the source. -/
def functionalEqualityLevel (vn1 vn2 : VarnodeId) : ℤ :=
  let testval := f.functionalEqualityLevel0 vn1 vn2
  if testval ≠ 1 then testval
  else if !(f.vn vn1).written || !(f.vn vn2).written then -1
  else
    match (f.vn vn1).defOp, (f.vn vn2).defOp with
    | some op1, some op2 => f.functionalOps op1 op2
    | _, _ => -1

def functionalEquality (vn1 vn2 : VarnodeId) : Bool := f.functionalEqualityLevel vn1 vn2 == 0

/-- `AddExpression::gather` and `gather_def`, cut off after `fuel` levels; `path` are the varnodes
above, a cycle through one of them is a panic. -/
def gather : ℕ → List VarnodeId → VarnodeId → U64 → ℕ → AddExpression → Option AddExpression
  | 0, _, _, _, _, _ => none
  | fuel + 1, path, vn, coeff, depth, e =>
    if (f.vn vn).constant then
      some { e with constval :=
        (e.constval + coeff * (f.vn vn).constantValue) &&& calcMask (f.vn vn).size }
    else if !(f.vn vn).written then some (e.add vn coeff)
    else if vn ∈ path then none
    else
      match (f.vn vn).defOp with
      | none => none
      | some op =>
        match (f.op op).opcode, (f.op op).inrefs with
        | .intAdd, [in0, in1] =>
          let full := (f.vn in1).constant
          -- the budget is for the addends that are no constants
          if !full && depth == 0 then some (e.add vn coeff)
          else
            let depth := if full then depth else depth - 1
            (gather fuel (vn :: path) in0 coeff depth e).bind
              (gather fuel (vn :: path) in1 coeff depth)
        | .intMult, [in0, c1] =>
          if (f.vn c1).constant then
            let c := (coeff * (f.vn c1).constantValue) &&& calcMask (f.vn vn).size
            gather fuel (vn :: path) in0 c depth e
          else some (e.add vn coeff)
        | _, _ => some (e.add vn coeff)

/-- A walk repeats no written varnode, so it is no deeper than there are varnodes. -/
def gatherFrom (vn : VarnodeId) (coeff : U64) (depth : ℕ) (e : AddExpression) :
    Option AddExpression := f.gather (f.numVarnodes + 2) [] vn coeff depth e

def twoTermsDepth (a b : VarnodeId) : ℕ := if (f.vn a).constant || (f.vn b).constant then 1 else 0

def gatherTwoTermsSubtract (a b : VarnodeId) : Option AddExpression :=
  (f.gatherFrom a 1 (f.twoTermsDepth a b) {}).bind
    (f.gatherFrom b (calcMask (f.vn b).size) (f.twoTermsDepth a b))

def gatherTwoTermsAdd (a b : VarnodeId) : Option AddExpression :=
  (f.gatherFrom a 1 (f.twoTermsDepth a b) {}).bind (f.gatherFrom b 1 (f.twoTermsDepth a b))

def gatherTwoTermsRoot (root : VarnodeId) : Option AddExpression := f.gatherFrom root 1 1 {}

/-- `te`: the two terms are equal. -/
def termsEqual (t1 t2 : VarnodeId × U64) : Bool := t1.2 == t2.2 && f.functionalEquality t1.1 t2.1

def isEquivalent (e1 e2 : AddExpression) : Bool :=
  e1.constval == e2.constval &&
    match e1.terms, e2.terms with
    | [s], [t] => f.termsEqual s t
    | [s, s'], [t, t'] => (f.termsEqual s t && f.termsEqual s' t') ||
        (f.termsEqual s t' && f.termsEqual s' t)
    | _, _ => false

/-- `subtract_matches`: `xvn` computes `avn - bvn`; `none` is a panic. -/
def subtractMatches (avn bvn xvn : VarnodeId) : Option Bool := do
  let expr1 ← f.gatherTwoTermsSubtract avn bvn
  let expr2 ← f.gatherTwoTermsRoot xvn
  some (f.isEquivalent expr1 expr2)

/-- `add_matches`: `xvn` computes `avn + bvn`; `none` is a panic. -/
def addMatches (avn bvn xvn : VarnodeId) : Option Bool := do
  let expr1 ← f.gatherTwoTermsAdd avn bvn
  let expr2 ← f.gatherTwoTermsRoot xvn
  some (f.isEquivalent expr1 expr2)

/-- What `compop` compares the flag `svn` with, if it is the sign test of a value: the value, and
the slot of the 0. -/
def signCompare (svn : VarnodeId) (compop : OpId) : Option (VarnodeId × ℕ) :=
  match (f.op compop).inrefs with
  | [i0, i1] =>
    if (f.op compop).opcode ≠ .intEqual ∧ (f.op compop).opcode ≠ .intNotequal then none
    else do
      let signdef ← (f.vn (if i0 = svn then i1 else i0)).defOp
      if (f.op signdef).opcode ≠ .intSless then none
      else
        match (f.op signdef).inrefs with
        | [s0, s1] =>
          if f.isConst0 s0 then some (s1, 0) else if f.isConst0 s1 then some (s0, 1) else none
        | _ => none
  | _ => none

/-- The first of the readers that compares the flag `svn` with the sign of a value that `isSum`
accepts, with the value and the slot of the 0; `none` is a panic, too. -/
def findSignCompare (svn : VarnodeId) (isSum : VarnodeId → Option Bool) :
    List OpId → Option (OpId × VarnodeId × ℕ)
  | [] => none
  | compop :: rest =>
    match f.signCompare svn compop with
    | none => findSignCompare svn isSum rest
    | some (xvn, zside) =>
      match isSum xvn with
      | none => none
      | some false => findSignCompare svn isSum rest
      | some true => some (compop, xvn, zside)

/-- `compop` becomes the signed comparison of `avn` with `bvn`: an inequality makes it strict with
`avn` on the other side than the 0, an equality not strict with `avn` on the side of the 0. -/
def rebuild (compop : OpId) (zside : ℕ) (avn bvn : VarnodeId) : Funcdata :=
  if (f.op compop).opcode = .intNotequal then
    (f.opSetOpcode compop .intSless).opSetAllInput compop
      (if zside = 0 then [bvn, avn] else [avn, bvn])
  else
    (f.opSetOpcode compop .intSlessequal).opSetAllInput compop
      (if zside = 0 then [avn, bvn] else [bvn, avn])

/-- `op` becomes a COPY of false. -/
def copyFalse (op : OpId) : Funcdata :=
  let (f', z) := f.newConst 1 0
  (f'.opSetOpcode op .copy).opSetAllInput op [z]

/-- The comparison that `RuleSborrow` rewrites, with the value that is tested and the slot of the
0. -/
def sborrowTarget (op : OpId) : Option (OpId × VarnodeId × ℕ) :=
  match (f.op op).inrefs, (f.op op).output with
  | [avn, bvn], some svn => f.findSignCompare svn (f.subtractMatches avn bvn) (f.vn svn).descend
  | _, _ => none

/-- `RuleSborrow`. -/
def sborrow (op : OpId) : Option Funcdata :=
  match (f.op op).inrefs with
  | [avn, bvn] =>
    if f.isConst0 bvn then some (f.copyFalse op)
    else
      (f.sborrowTarget op).map fun r => f.rebuild r.1 r.2.2 avn bvn
  | _ => none

/-- The summand and the constant of an INT_SCARRY; `none` where the rule returns 0. Only a constant
that changes places is compared with the integer minimum. -/
def scarryOperands (avn bvn : VarnodeId) : Option (VarnodeId × VarnodeId) :=
  if (f.vn bvn).constant then some (avn, bvn)
  else if !(f.vn avn).constant then none
  else if (f.vn avn).constantValue = signMask (f.vn avn).size then none
  else some (bvn, avn)

/-- The comparison that `RuleScarry` rewrites, for the summand `avn` and the constant `bvn`. -/
def scarryTarget (op : OpId) (avn bvn : VarnodeId) : Option (OpId × VarnodeId × ℕ) :=
  (f.op op).output.bind fun svn =>
    f.findSignCompare svn (f.addMatches avn bvn) (f.vn svn).descend

/-- `RuleScarry`. -/
def scarry (op : OpId) : Option Funcdata :=
  match (f.op op).inrefs with
  | [in0, in1] =>
    if f.isConst0 in0 || f.isConst0 in1 then some (f.copyFalse op)
    else do
      let (avn, bvn) ← f.scarryOperands in0 in1
      let (compop, _, zside) ← f.scarryTarget op avn bvn
      let size := (f.vn bvn).size
      let (f', newc) := f.newConst size (-(f.vn bvn).constantValue &&& calcMask size)
      some (f'.rebuild compop zside avn newc)
  | _ => none

/-- `mult_neg1`: `v` is the negative of the answer. -/
def multNeg1 (v : VarnodeId) : Option VarnodeId := do
  let d ← (f.vn v).defOp
  if (f.op d).opcode ≠ .intMult then none
  else
    let unneg ← (f.op d).input 0
    let m ← (f.op d).input 1
    if (f.vn m).constant && (f.vn m).constantValue == calcMask (f.vn unneg).size then some unneg
    else none

/-- The two values whose difference is `a + b`. -/
def differenceOf (a b : VarnodeId) : Option (VarnodeId × VarnodeId) :=
  match f.multNeg1 a with
  | some u => some (b, u)
  | none => (f.multNeg1 b).map fun u => (a, u)

/-- `RuleEqual2Zero` on the sum `a + b`. -/
def equal2ZeroAdd (op : OpId) (a b : VarnodeId) : Option Funcdata :=
  if (f.vn b).constant then
    let size := (f.vn b).size
    let (f', nc) := f.newConst size (-(f.vn b).constantValue &&& calcMask size)
    some (f'.opSetAllInput op [a, nc])
  else
    (f.differenceOf a b).bind fun r =>
      if !(f.vn r.1).isHeritageKnown || !(f.vn r.2).isHeritageKnown then none
      else some (f.opSetAllInput op [r.1, r.2])

/-- What is compared with 0. -/
def otherThanZero (i0 i1 : VarnodeId) : Option VarnodeId :=
  if f.isConst0 i1 then some i0 else if f.isConst0 i0 then some i1 else none

/-- `RuleEqual2Zero` on what is compared with 0, which only comparisons may read. -/
def equal2ZeroAt (op : OpId) (other : VarnodeId) : Option Funcdata :=
  if (f.vn other).descend.any fun u => !(f.op u).opcode.isBoolOutput then none
  else do
    let d ← (f.vn other).defOp
    match (f.op d).opcode, (f.op d).inrefs with
    | .intSub, [a, b] => some (f.opSetAllInput op [a, b])
    | .intAdd, [a, b] => f.equal2ZeroAdd op a b
    | _, _ => none

/-- `RuleEqual2Zero`. -/
def equal2Zero (op : OpId) : Option Funcdata :=
  match (f.op op).inrefs with
  | [i0, i1] => (f.otherThanZero i0 i1).bind (f.equal2ZeroAt op)
  | _ => none

/-- The opcode of the op that writes `v`. -/
def codeOf (v : VarnodeId) : Option OpCode := (f.vn v).defOp.map fun d => (f.op d).opcode

/-- The inputs of two comparisons are the same pair. -/
def samePair (l0 l1 e0 e1 : VarnodeId) : Bool :=
  (f.sameValue l0 e0 && f.sameValue l1 e1) || (f.sameValue l0 e1 && f.sameValue l1 e0)

/-- The end of `RuleLessEqual` for the outputs `lessV` and `equalV` of the two comparisons. -/
def lessEqualAt (op : OpId) (lessV equalV : VarnodeId) : Option Funcdata := do
  let lessOp ← (f.vn lessV).defOp
  let equalOp ← (f.vn equalV).defOp
  match (f.op lessOp).inrefs, (f.op equalOp).inrefs with
  | [l0, l1], [e0, e1] =>
    if !(f.vn l0).isHeritageKnown || !(f.vn l1).isHeritageKnown then none
    else if !f.samePair l0 l1 e0 e1 then none
    else if (f.op equalOp).opcode = .intNotequal then
      (f.op equalOp).output.map fun eqout => (f.opSetOpcode op .copy).opSetAllInput op [eqout]
    else
      some ((f.opSetOpcode op
        (if (f.op lessOp).opcode = .intSless then .intSlessequal else .intLessequal)).opSetAllInput
          op [l0, l1])
  | _, _ => none

/-- `RuleLessEqual`. -/
def lessEqual (op : OpId) : Option Funcdata :=
  let isLess (v : VarnodeId) : Bool :=
    f.codeOf v == some .intLess || f.codeOf v == some .intSless
  let isEq (v : VarnodeId) : Bool :=
    f.codeOf v == some .intEqual || f.codeOf v == some .intNotequal
  match (f.op op).inrefs with
  | [i0, i1] =>
    if isLess i0 && isEq i1 then f.lessEqualAt op i0 i1
    else if isLess i1 && isEq i0 then f.lessEqualAt op i1 i0
    else none
  | _ => none

/-- The end of `RuleLessNotEqual` for the two comparisons. -/
def lessNotEqualAt (op opLess opEqual : OpId) : Option Funcdata :=
  match (f.op opLess).inrefs, (f.op opEqual).inrefs with
  | [compvn1, compvn2], [e0, e1] =>
    if (f.op opEqual).opcode ≠ .intNotequal then none
    else if !(f.vn compvn1).isHeritageKnown || !(f.vn compvn2).isHeritageKnown then none
    else if !f.samePair compvn1 compvn2 e0 e1 then none
    else
      some ((f.opSetOpcode op
        (if (f.op opLess).opcode = .intSlessequal then .intSless else .intLess)).opSetAllInput
          op [compvn1, compvn2])
  | _, _ => none

/-- `RuleLessNotEqual`. -/
def lessNotEqual (op : OpId) : Option Funcdata :=
  let isLe (o : OpId) : Bool :=
    (f.op o).opcode == .intLessequal || (f.op o).opcode == .intSlessequal
  match (f.op op).inrefs with
  | [vnout1, vnout2] =>
    if !(f.vn vnout1).written || !(f.vn vnout2).written then none
    else do
      let op1 ← (f.vn vnout1).defOp
      let op2 ← (f.vn vnout2).defOp
      if isLe op1 then f.lessNotEqualAt op op1 op2
      else if isLe op2 then f.lessNotEqualAt op op2 op1
      else none
  | _ => none

end Funcdata

/-- The rules that rebuild a comparison from flags. -/
inductive FlagRule
  | sborrow | scarry | equal2Zero | lessEqual | lessNotEqual
  deriving DecidableEq, Repr

namespace FlagRule

/-- The ops a rule is offered. -/
def oplist : FlagRule → List OpCode
  | sborrow => [.intSborrow]
  | scarry => [.intScarry]
  | equal2Zero => [.intEqual, .intNotequal]
  | lessEqual => [.boolOr]
  | lessNotEqual => [.boolAnd]

def applyOp (f : Funcdata) (op : OpId) : FlagRule → Option Funcdata
  | sborrow => f.sborrow op
  | scarry => f.scarry op
  | equal2Zero => f.equal2Zero op
  | lessEqual => f.lessEqual op
  | lessNotEqual => f.lessNotEqual op

end FlagRule
end Mosura
