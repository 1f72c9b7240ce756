import Mosura.Exec

/-! Non-zero masks: `op_nzmask_local` and `calc_nzmask` (`nzmask.rs`). -/

namespace Mosura

/-- `pcode_left`: 0 once the shift clears the whole word. -/
def pcodeLeft (val : U64) (sa : ℕ) : U64 := if 64 ≤ sa then 0 else val <<< sa

/-- `pcode_right`: 0 once the shift clears the whole word. -/
def pcodeRight (val : U64) (sa : ℕ) : U64 := if 64 ≤ sa then 0 else val >>> sa

/-- `coveringmask`: smear every set bit down. -/
def coveringmask (val : U64) : U64 :=
  [1, 2, 4, 8, 16, 32].foldl (fun v sz => v ||| v >>> sz) val

/-- `minimalmask`: the smallest byte, uint2, uint4 or uint8 mask that covers `val`. -/
def minimalmask (val : U64) : U64 :=
  if 0xffffffff#64 < val then BitVec.allOnes 64
  else if 0xffff#64 < val then 0xffffffff#64
  else if 0xff#64 < val then 0xffff#64
  else 0xff#64

/-- `mostsigbit_set`; `none` is the source's -1. -/
def mostsigbitSet (val : U64) : Option ℕ := if val = 0 then none else some val.toNat.log2

/-- `leastsigbit_set`; `none` is the source's -1. -/
def leastsigbitSet (val : U64) : Option ℕ := (List.range 64).find? val.getLsbD

/-- The truncation `as u32` of a 64-bit amount. -/
def asU32 (v : U64) : ℕ := v.toNat % 2 ^ 32

def signExtendMask (inmask : U64) (sizein sizeout : ℕ) : U64 :=
  let sizein := min sizein 8
  let sizeout := min sizeout 8
  if sizeout ≤ sizein then inmask &&& calcMask sizeout
  else
    ((inmask <<< ((8 - sizein) * 8 % 64)).sshiftRight ((sizeout - sizein) * 8)) >>> ((8 - sizeout) * 8)

/-- The `IntMult` arm: the bit window between the lowest and the highest possible product bit. -/
def multMask (size : ℕ) (val resmask : U64) : U64 :=
  if 8 < size then calcMask size
  else
    match mostsigbitSet val, mostsigbitSet resmask, leastsigbitSet val, leastsigbitSet resmask with
    | some m1, some m2, some l1, some l2 =>
      let sa := l1 + l2
      if 8 * size ≤ sa then 0
      else
        let sz1 := m1 - l1 + 1
        let sz2 := m2 - l2 + 1
        let total := if sz1 = 1 ∨ sz2 = 1 then sz1 + sz2 - 1 else sz1 + sz2
        let r := if total < 8 * size then pcodeRight (calcMask size) (8 * size - total)
          else calcMask size
        pcodeLeft r sa &&& calcMask size
    | _, _, _, _ => 0

/-- The arms of `op_nzmask_local` other than MULTIEQUAL: `a` and `b` are the records of inputs 0
and 1, `size` the size of the output. -/
def nzmaskTransfer (code : OpCode) (calculatedBool : Bool) (size : ℕ) (a b : Varnode) : U64 :=
  let fullmask := calcMask size
  match code with
  | .call | .callind | .cpoolref => if calculatedBool then 1 else fullmask
  | .intEqual | .intNotequal | .intSless | .intSlessequal | .intLess | .intLessequal
  | .intCarry | .intScarry | .intSborrow | .boolNegate | .boolXor | .boolAnd | .boolOr
  | .floatEqual | .floatNotequal | .floatLess | .floatLessequal | .floatNan => 1
  | .copy | .intZext => a.nzm
  | .intSext => signExtendMask a.nzm a.size size
  | .intXor | .intOr => if a.nzm ≠ fullmask then a.nzm ||| b.nzm else a.nzm
  | .intAnd => if a.nzm ≠ 0 then a.nzm &&& b.nzm else a.nzm
  | .intLeft =>
    if !b.constant then fullmask else pcodeLeft a.nzm (asU32 b.constantValue) &&& fullmask
  | .intRight => if !b.constant then fullmask else pcodeRight a.nzm (asU32 b.constantValue)
  | .intSright =>
    if !b.constant || decide (8 < size) then fullmask
    else
      let sa := asU32 b.constantValue
      let signbit := fullmask ^^^ (fullmask >>> 1)
      if a.nzm &&& signbit = 0 then pcodeRight a.nzm sa
      else pcodeRight a.nzm sa ||| (pcodeRight fullmask sa ^^^ fullmask)
  | .intDiv =>
    let resmask := coveringmask a.nzm
    if b.constant then
      match mostsigbitSet b.nzm with
      | some sa => pcodeRight resmask sa
      | none => resmask
    else resmask
  | .intRem => coveringmask (b.nzm - 1)
  | .popcount => coveringmask (BitVec.ofNat 64 (bitCount 64 a.nzm.toNat)) &&& fullmask
  | .lzcount => coveringmask (BitVec.ofNat 64 (a.size * 8)) &&& fullmask
  | .subpiece =>
    let sz1 := asU32 b.constantValue
    let resmask :=
      if a.size ≤ 8 then (if sz1 < 8 then pcodeRight a.nzm (8 * sz1) else 0) else a.nzm
    resmask &&& fullmask
  | .piece => (if b.size < 8 then pcodeLeft a.nzm (8 * b.size) else 0) ||| b.nzm
  | .intMult => multMask size a.nzm b.nzm
  | .intAdd =>
    if a.nzm ≠ fullmask then
      let resmask := a.nzm ||| b.nzm
      (resmask ||| resmask <<< 1) &&& fullmask
    else a.nzm
  | _ => fullmask

/-- The dominator tree: the immediate dominator of each block, the entry's being itself. -/
structure Dominators where
  idom : List BlockId

namespace Dominators

/-- The idom walk of `dominates`, cut off after `fuel` steps. -/
def dominatesFrom (dom : Dominators) (a : BlockId) : ℕ → BlockId → Bool
  | 0, _ => false
  | fuel + 1, n =>
    if n = a then true
    else if n = dom.idom.getD n n then false
    else dom.dominatesFrom a fuel (dom.idom.getD n n)

/-- `Dominators::dominates`; a walk up the tree takes fewer steps than there are blocks. -/
def dominates (dom : Dominators) (a b : BlockId) : Bool :=
  dom.dominatesFrom a (dom.idom.length + 1) b

end Dominators

namespace Funcdata

variable (f : Funcdata) (dom : Dominators)

/-- `is_loop_in`: is input `slot` of the MULTIEQUAL a back edge? -/
def isLoopIn (op : OpId) (slot : ℕ) : Bool :=
  match (f.op op).parent with
  | none => false
  | some parent =>
    match (f.block parent).inEdges[slot]? with
    | none => false
    | some pred => dom.dominates parent pred

/-- The MULTIEQUAL arm of `op_nzmask_local`. -/
def multiequalMask (op : OpId) (cliploop : Bool) (fullmask : U64) : U64 :=
  if (f.op op).numInputs = 0 then fullmask
  else
    (List.range (f.op op).numInputs).foldl
      (fun resmask i =>
        if cliploop && f.isLoopIn dom op i then resmask else resmask ||| (f.inVn op i).nzm) 0

/-- `op_nzmask_local`: the mask of the output `out` of `op` from the masks of its inputs. -/
def opNzmaskLocal (op : OpId) (out : VarnodeId) (cliploop : Bool) : U64 :=
  if (f.op op).opcode = .multiequal then
    f.multiequalMask dom op cliploop (calcMask (f.vn out).size)
  else
    nzmaskTransfer (f.op op).opcode (f.op op).calculatedBool (f.vn out).size
      (f.inVn op 0) (f.inVn op 1)

def setNzm (v : VarnodeId) (m : U64) : Funcdata := f.modVn v fun x => { x with nzm := m }

/-- The mask `calc_nzmask` gives a varnode that no op writes. -/
def leafMask (v : VarnodeId) : U64 :=
  if (f.vn v).constant then (f.vn v).constantValue &&& calcMask (f.vn v).size
  else if (f.vn v).spacebase then calcMask (f.vn v).size &&& ~~~0xff#64
  else calcMask (f.vn v).size

end Funcdata

/-- The state of the bottom-up pass: the graph, the marked ops and the stack of (op, slot). -/
structure NzmaskDfs where
  f : Funcdata
  marked : List OpId
  stack : List (OpId × ℕ)

namespace NzmaskDfs

/-- Leaf inputs get their mask, the definition of a written one is visited once. -/
def visitInput (s : NzmaskDfs) (v : VarnodeId) : NzmaskDfs :=
  if !(s.f.vn v).written then { s with f := s.f.setNzm v (s.f.leafMask v) }
  else
    match (s.f.vn v).defOp with
    | none => s
    | some d =>
      if d ∈ s.marked then s else { s with marked := d :: s.marked, stack := (d, 0) :: s.stack }

/-- All inputs of `op` are done: its output gets its mask. -/
def finish (s : NzmaskDfs) (dom : Dominators) (op : OpId) : NzmaskDfs :=
  match (s.f.op op).output with
  | none => s
  | some out => { s with f := s.f.setNzm out (s.f.opNzmaskLocal dom op out true) }

/-- One turn of the `while let Some(&(op, slot)) = stack.last()` loop. -/
def step (dom : Dominators) (s : NzmaskDfs) : NzmaskDfs :=
  match s.stack with
  | [] => s
  | (op, slot) :: rest =>
    match (s.f.op op).input slot with
    | none => { s.finish dom op with stack := rest }
    | some v =>
      let s' := { s with stack := (op, slot + 1) :: rest }
      if (s.f.op op).opcode == .multiequal && s.f.isLoopIn dom op slot then s' else s'.visitInput v

def run (dom : Dominators) : ℕ → NzmaskDfs → Option NzmaskDfs
  | 0, s => if s.stack = [] then some s else none
  | fuel + 1, s => if s.stack = [] then some s else run dom fuel (s.step dom)

/-- The body of the seed loop of phase 1. -/
def seed (dom : Dominators) (fuel : ℕ) (s : NzmaskDfs) (op : OpId) : Option NzmaskDfs :=
  if op ∈ s.marked then some s
  else run dom fuel { s with marked := op :: s.marked, stack := [(op, 0)] }

end NzmaskDfs

/-- The state of the worklist phase; the list's head is the next op to pop. -/
structure NzmaskWork where
  f : Funcdata
  worklist : List OpId

namespace NzmaskWork

/-- One turn of the worklist loop. -/
def step (dom : Dominators) (s : NzmaskWork) : NzmaskWork :=
  match s.worklist with
  | [] => s
  | op :: rest =>
    match (s.f.op op).output with
    | none => { s with worklist := rest }
    | some out =>
      let nzmask := s.f.opNzmaskLocal dom op out false
      if nzmask ≠ (s.f.vn out).nzm then
        { f := s.f.setNzm out nzmask, worklist := (s.f.vn out).descend.reverse ++ rest }
      else { s with worklist := rest }

def run (dom : Dominators) : ℕ → NzmaskWork → Option NzmaskWork
  | 0, s => if s.worklist = [] then some s else none
  | fuel + 1, s => if s.worklist = [] then some s else run dom fuel (s.step dom)

end NzmaskWork

namespace Funcdata

variable (f : Funcdata) (dom : Dominators)

/-- Phase 1 of `calc_nzmask`, each seed's search cut off after `fuel` turns. -/
def nzmaskPhase1 (fuel : ℕ) : Option NzmaskDfs :=
  f.allOps.foldlM (NzmaskDfs.seed dom fuel) { f := f, marked := [], stack := [] }

/-- The MULTIEQUALs phase 2 starts from; the last one is popped first. -/
def nzmaskSeeds : List OpId :=
  (f.allOps.filter fun op => (f.op op).opcode = .multiequal).reverse

/-- `calc_nzmask`; `none` if a loop is still running after `fuel` turns. -/
def calcNzmask (fuel : ℕ) : Option Funcdata := do
  let s ← f.nzmaskPhase1 dom fuel
  let w ← NzmaskWork.run dom fuel { f := s.f, worklist := f.nzmaskSeeds }
  return w.f

end Funcdata
end Mosura
