import Mosura.Primitives
import Mosura.ConstFold

/-! The orientation of conditional branches: the flags and rewrites that flip a CBRANCH
(`funcdata.rs`), and the passes that read which way it goes (`determinedbranch.rs`, `condconst.rs`,
`double.rs`). -/

namespace Mosura

/-- `get_booleanflip`: the complement of a comparison, and whether its inputs change places. -/
def OpCode.getBooleanflip : OpCode → Option (OpCode × Bool)
  | intEqual => some (intNotequal, false)
  | intNotequal => some (intEqual, false)
  | intSless => some (intSlessequal, true)
  | intSlessequal => some (intSless, true)
  | intLess => some (intLessequal, true)
  | intLessequal => some (intLess, true)
  | boolNegate => some (copy, false)
  | floatEqual => some (floatNotequal, false)
  | floatNotequal => some (floatEqual, false)
  | floatLess => some (floatLessequal, true)
  | floatLessequal => some (floatLess, true)
  | _ => none

namespace Rules

def signExtendVal (val : U64) (sizein sizeout : ℕ) : U64 := sext val sizein &&& calcMask sizeout

end Rules

namespace Funcdata

variable (f : Funcdata)

/-- The op that reads `v`, if there is exactly one and it reads `v` once. -/
def loneDescend (v : VarnodeId) : Option OpId :=
  match (f.vn v).descend with
  | [op] => some op
  | _ => none

/-- `op_flip_in_place_test_rec` for one input of `op`: its definition is tested if `op` is all that
reads it. -/
def flipTestInput (test : OpId → List OpId → Option (ℕ × List OpId)) (op : OpId) (slot : ℕ)
    (flips : List OpId) : Option (ℕ × List OpId) :=
  match (f.op op).input slot with
  | none => none
  | some vn =>
    if f.loneDescend vn ≠ some op ∨ (f.vn vn).written = false then some (2, flips)
    else
      match (f.vn vn).defOp with
      | none => none
      | some d => test d flips

/-- `op_flip_in_place_test_rec`, cut off at depth `fuel`; `none` is a panic, too. 0: the flip
normalizes, 1: it is ambivalent, 2: it does not. -/
def opFlipInPlaceTestRec : ℕ → OpId → List OpId → Option (ℕ × List OpId)
  | 0, _, _ => none
  | fuel + 1, op, flips =>
    let test := opFlipInPlaceTestRec fuel
    match (f.op op).opcode with
    | .cbranch =>
      if (f.op op).input 1 = none then some (2, flips) else f.flipTestInput test op 1 flips
    | .intEqual | .floatEqual => some (1, flips ++ [op])
    | .boolNegate | .intNotequal | .floatNotequal => some (0, flips ++ [op])
    | .intSless | .intLess =>
      ((f.op op).input 0).map fun in0 => (if (f.vn in0).constant then 0 else 1, flips ++ [op])
    | .intSlessequal | .intLessequal =>
      ((f.op op).input 1).map fun in1 => (if (f.vn in1).constant then 1 else 0, flips ++ [op])
    | .boolOr | .boolAnd =>
      (f.flipTestInput test op 0 flips).bind fun r =>
        if r.1 = 2 then some (2, r.2)
        else (f.flipTestInput test op 1 r.2).bind fun r' =>
          if r'.1 = 2 then some (2, r'.2) else some (r.1, r'.2 ++ [op])
    | _ => some (2, flips)

def opFlipInPlaceTest (fuel : ℕ) (op : OpId) : Option (ℕ × List OpId) :=
  f.opFlipInPlaceTestRec fuel op []

/-- The constant side of a `<=`, what is added to it to make it a `<`, and its slot. -/
def lessequalConst (in0 in1 : VarnodeId) : Option (VarnodeId × U64 × ℕ) :=
  if (f.vn in0).constant then some (in0, -1, 0)
  else if (f.vn in1).constant then some (in1, 1, 1)
  else none

/-- The constant would leave its range, as `replace_lessequal` sees it. -/
def lessequalOverflows (code : OpCode) (val diff : U64) : Bool :=
  if code = .intSlessequal then
    (val.slt 0 && (0 : U64).slt (val + diff)) || ((0 : U64).slt val && (val + diff).slt 0)
  else (diff == -1 && val == 0) || (diff == 1 && val == -1)

/-- `replace_lessequal`: `V <= c` becomes `V < c + 1`, `c <= V` becomes `c - 1 < V`. -/
def replaceLessequal (op : OpId) : Option (Funcdata × Bool) := do
  let in0 ← (f.op op).input 0
  let in1 ← (f.op op).input 1
  match f.lessequalConst in0 in1 with
  | none => some (f, false)
  | some (vn, diff, i) =>
    let size := (f.vn vn).size
    let val := Rules.signExtendVal (f.vn vn).constantValue size 8
    if lessequalOverflows (f.op op).opcode val diff then some (f, false)
    else
      let code := if (f.op op).opcode = .intSlessequal then .intSless else .intLess
      let (f', newvn) := (f.opSetOpcode op code).newConst size ((val + diff) &&& calcMask size)
      some (f'.opSetInput op i newvn, true)

/-- One op of `op_flip_in_place_execute`; `none` is a panic. -/
def flipOp (op : OpId) : Option Funcdata :=
  match (f.op op).opcode.getBooleanflip with
  | some (.copy, _) => do
    -- a BOOL_NEGATE goes: its one reader reads its input instead
    let vn ← (f.op op).input 0
    let outvn ← (f.op op).output
    let otherop ← f.loneDescend outvn
    let slot ← (f.op otherop).inrefs.idxOf? outvn
    some ((f.opSetInput otherop slot vn).opDestroy op)
  | none =>
    match (f.op op).opcode with
    | .boolAnd => some (f.opSetOpcode op .boolOr)
    | .boolOr => some (f.opSetOpcode op .boolAnd)
    | _ => none
  | some (opc, flipyes) =>
    if !flipyes then some (f.opSetOpcode op opc)
    else if (f.op op).inrefs.length < 2 then none
    else
      let f' := (f.opSetOpcode op opc).opSwapInput op 0 1
      if opc = .intLessequal ∨ opc = .intSlessequal then (f'.replaceLessequal op).map Prod.fst
      else some f'

def opFlipInPlaceExecute (flips : List OpId) : Option Funcdata := flips.foldlM flipOp f

/-! The passes that ask which way a branch goes. -/

def lastOp (b : BlockId) : Option OpId := (f.block b).ops.getLast?

/-- The out-edge `ActionDeterminedBranch` removes from `b`: the one a constant condition does not
take. -/
def determinedBranch (b : BlockId) : Option ℕ := do
  let last ← f.lastOp b
  if (f.block b).outEdges.length ≠ 2 ∨ (f.op last).opcode ≠ .cbranch then none
  else
    let cond ← (f.op last).input 1
    if (f.vn cond).constant then some (if (f.vn cond).constantValue ≠ 0 then 0 else 1) else none

/-- `ConstPoint` of `condconst.rs`: `vn` is `value` where control comes into `constBlock` through
its in-edge `inSlot`. -/
structure ConstPoint where
  vn : VarnodeId
  constVn : Option VarnodeId
  value : U64
  constBlock : BlockId
  inSlot : ℕ
  blockIsDom : Bool
  deriving DecidableEq, Repr

/-- `get_out_rev_index`: the first in-edge from `b` of the block that out-edge `i` leads to. -/
def getOutRevIndex (b : BlockId) (i : ℕ) : Option ℕ := do
  let target ← (f.block b).outEdges[i]?
  (f.block target).inEdges.idxOf? b

/-- The point for out-edge `i` of `bl`. -/
def constPoint (bl : BlockId) (blockDom : ℕ → Bool) (vn : VarnodeId) (constVn : Option VarnodeId)
    (value : U64) (i : ℕ) : Option ConstPoint := do
  let constBlock ← (f.block bl).outEdges[i]?
  let inSlot ← f.getOutRevIndex bl i
  some ⟨vn, constVn, value, constBlock, inSlot, blockDom i⟩

/-- The end of `find_const_compare`: `comp_op` is an equality with a constant, which holds on out-edge
`i`; a variable read by it alone gets no point. -/
def comparePoint (bl : BlockId) (blockDom : ℕ → Bool) (compOp : OpId) (i : ℕ) :
    Option (List ConstPoint) := do
  let in0 ← (f.op compOp).input 0
  let in1 ← (f.op compOp).input 1
  if !(f.vn in1).constant && !(f.vn in0).constant then some []
  else
    let (varVn, constVn) := if (f.vn in1).constant then (in0, in1) else (in1, in0)
    if (f.loneDescend varVn).isSome then some []
    else
      let p ← f.constPoint bl blockDom varVn (some constVn) (f.vn constVn).constantValue i
      some [p]

/-- The middle of `find_const_compare`: which edge the comparison holds on. -/
def compareAt (bl : BlockId) (blockDom : ℕ → Bool) (compOp : OpId) (flipEdge : Bool) :
    Option (List ConstPoint) :=
  match (f.op compOp).opcode with
  | .intEqual => f.comparePoint bl blockDom compOp (if flipEdge then 0 else 1)
  | .intNotequal => f.comparePoint bl blockDom compOp (if flipEdge then 1 else 0)
  | _ => some []

/-- `find_const_compare`, which looks through one BOOL_NEGATE. -/
def findConstCompare (boolVn : VarnodeId) (bl : BlockId) (blockDom : ℕ → Bool) (flipEdge : Bool) :
    Option (List ConstPoint) :=
  if !(f.vn boolVn).written then some []
  else do
    let compOp ← (f.vn boolVn).defOp
    if (f.op compOp).opcode = .boolNegate then
      let inner ← (f.op compOp).input 0
      if !(f.vn inner).written then some []
      else
        let op ← (f.vn inner).defOp
        f.compareAt bl blockDom op (!flipEdge)
    else f.compareAt bl blockDom compOp flipEdge

/-- The points `ActionConditionalConst` starts from at the branch of `bl`; `blockDom` is what
`restricted_by_conditional` says of the two targets. -/
def condPoints (bl : BlockId) (blockDom : ℕ → Bool) : Option (List ConstPoint) :=
  match f.lastOp bl with
  | none => some []
  | some cbranch =>
    if (f.op cbranch).opcode ≠ .cbranch ∨ (f.block bl).outEdges.length ≠ 2 then some []
    else do
      let boolVn ← (f.op cbranch).input 1
      let flipEdge := (f.op cbranch).booleanFlip
      let compares ← f.findConstCompare boolVn bl blockDom flipEdge
      if (f.loneDescend boolVn).isSome then some compares
      else
        -- read more than once: each edge says what the boolean is
        let p ← f.constPoint bl blockDom boolVn none (if flipEdge then 1 else 0) 0
        let p' ← f.constPoint bl blockDom boolVn none (if flipEdge then 0 else 1) 1
        some (p :: p' :: compares)

/-- `SplitVarnode::get_true_false`: the successors for a true and for a false condition; `flip` says
that the caller's condition is the negated one. -/
def getTrueFalse (boolop : OpId) (flip : Bool) : Option (BlockId × BlockId) := do
  let parent ← (f.op boolop).parent
  let falseblock ← (f.block parent).outEdges[0]?
  let trueblock ← (f.block parent).outEdges[1]?
  if (f.op boolop).booleanFlip != flip then some (falseblock, trueblock)
  else some (trueblock, falseblock)

end Funcdata

/-- A graph with the FALLTHRU_TRUE flags of its ops, which only the structurer and the printer
read. -/
structure Oriented where
  graph : Funcdata
  fallthruTrue : OpId → Bool

namespace Oriented

variable (s : Oriented)

def opFlipCondition (op : OpId) : Oriented :=
  { s with graph := s.graph.modOp op fun o => { o with booleanFlip := !o.booleanFlip } }

def blockNegateCondition (b : BlockId) : Oriented :=
  match s.graph.lastOp b with
  | none => s
  | some last =>
    { graph := s.graph.modOp last fun o => { o with booleanFlip := true }
      fallthruTrue := Function.update s.fallthruTrue last true }

def flipInPlaceExecute (b : BlockId) : Oriented :=
  match s.graph.lastOp b with
  | none => s
  | some last =>
    { s with fallthruTrue := Function.update s.fallthruTrue last (!s.fallthruTrue last) }

end Oriented
end Mosura
