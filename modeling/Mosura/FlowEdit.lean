import Mosura.Primitives

/-! Surgery on the flow graph (`funcdata.rs`, `determinedbranch.rs`): the operations that cut, move
and merge edges between basic blocks. -/

namespace Mosura
namespace Funcdata

variable (f : Funcdata)

def addEdge (a b : BlockId) : Funcdata :=
  (f.modBlock a fun x => { x with outEdges := x.outEdges ++ [b] }).modBlock b fun x =>
    { x with inEdges := x.inEdges ++ [a] }

def newBlockBasic : Funcdata × BlockId := ({ f with blocks := f.blocks ++ [default] }, f.numBlocks)

/-- `remove_edge`; `none`, here and below, is a panic. -/
def removeEdge (a b : BlockId) : Option Funcdata := do
  let oi ← (f.block a).outEdges.idxOf? b
  let ii ← (f.block b).inEdges.idxOf? a
  some ((f.modBlock a fun x => { x with outEdges := x.outEdges.eraseIdx oi }).modBlock b fun x =>
    { x with inEdges := x.inEdges.eraseIdx ii })

def moveOutEdge (blold : BlockId) (slot : ℕ) (blnew : BlockId) : Option Funcdata := do
  let outbl ← (f.block blold).outEdges[slot]?
  let i ← (f.block outbl).inEdges.idxOf? blold
  if f.numBlocks ≤ blnew then none
  else some (((f.modBlock blold fun x => { x with outEdges := x.outEdges.eraseIdx slot }).modBlock
    outbl fun x => { x with inEdges := x.inEdges.set i blnew }).modBlock blnew fun x =>
      { x with outEdges := x.outEdges ++ [outbl] })

/-- The edge of `node_join_create_block` from `bl` to `exit` leaves `newblock` instead. -/
def moveExit (bl exit newblock : BlockId) : Option Funcdata := do
  let s ← (f.block bl).outEdges.idxOf? exit
  f.moveOutEdge bl s newblock

/-- `node_join_create_block`: of the two edges to an exit the one of the side that is high there is
removed, the other one moves to the new block. -/
def nodeJoinCreateBlock (block1 block2 exita exitb : BlockId) (aHigh bHigh : Bool) :
    Option (Funcdata × BlockId) := do
  let (f', newblock) := f.newBlockBasic
  let f' ← f'.removeEdge (if aHigh then block1 else block2) exita
  let f' ← f'.removeEdge (if bHigh then block1 else block2) exitb
  let f' ← f'.moveExit (if aHigh then block2 else block1) exita newblock
  let f' ← f'.moveExit (if bHigh then block2 else block1) exitb newblock
  some ((f'.addEdge block1 newblock).addEdge block2 newblock, newblock)

/-- `replace_edges_thru`: in-edge `inslot` of `bl` is spliced onto its out-edge `outslot`. -/
def replaceEdgesThru (bl : BlockId) (inslot outslot : ℕ) : Option Funcdata := do
  let inb ← (f.block bl).inEdges[inslot]?
  let outb ← (f.block bl).outEdges[outslot]?
  let inblockOutslot ← (f.block inb).outEdges.idxOf? bl
  let outblockInslot ← (f.block outb).inEdges.idxOf? bl
  some ((((f.modBlock inb fun x => { x with outEdges := x.outEdges.set inblockOutslot outb }).modBlock
    outb fun x => { x with inEdges := x.inEdges.set outblockInslot inb }).modBlock bl fun x =>
      { x with inEdges := x.inEdges.eraseIdx inslot }).modBlock bl fun x =>
        { x with outEdges := x.outEdges.eraseIdx outslot })

def removeFromFlowSplit (bl : BlockId) (flipflow : Bool) : Option Funcdata := do
  let f' ← f.replaceEdgesThru bl (if flipflow then 0 else 1) 1
  f'.replaceEdgesThru bl 0 0

/-- `op_insert_end`: the end of a block is ahead of the op that terminates it. -/
def opInsertEnd (op : OpId) (block : BlockId) : Funcdata :=
  let f' := f.modOp op fun o => { o with parent := some block }
  let ops := (f'.block block).ops
  let ends := ops.getLast?.any fun last => (f'.op last).opcode.terminatesBlock
  f'.modBlock block fun x =>
    { x with ops := x.ops.insertIdx (if ends then ops.length - 1 else ops.length) op }

/-- `new_code_ref`: the annotation of a code address. -/
def newCodeRef (m : Address) : Funcdata × VarnodeId :=
  ((f.allocVarnode 1 m false).modVn f.numVarnodes fun x => { x with annotation := true },
    f.numVarnodes)

/-- The flags a clone takes over from an op. -/
def keepOpFlags (dup orig : OpId) : Funcdata :=
  f.modOp dup fun o => { o with
    noIndirectCollapse := o.noIndirectCollapse || (f.op orig).noIndirectCollapse
    calculatedBool := o.calculatedBool || (f.op orig).calculatedBool
    noCollapse := o.noCollapse || (f.op orig).noCollapse
    specialPrint := o.specialPrint || (f.op orig).specialPrint }

/-- The flags a clone's output takes over. -/
def keepVnFlags (newvn opvn : VarnodeId) : Funcdata :=
  f.modVn newvn fun x => { x with
    persist := x.persist || (f.vn opvn).persist
    addrtied := x.addrtied || (f.vn opvn).addrtied
    addrforce := x.addrforce || (f.vn opvn).addrforce
    nolocalalias := x.nolocalalias || (f.vn opvn).nolocalalias
    spacebase := x.spacebase || (f.vn opvn).spacebase
    indirectCreation := x.indirectCreation || (f.vn opvn).indirectCreation
    precislo := x.precislo || (f.vn opvn).precislo
    precishi := x.precishi || (f.vn opvn).precishi }

/-- The clone of an op gets an output of its own. -/
def cloneOutput (dup orig : OpId) : Funcdata :=
  match (f.op orig).output with
  | none => f
  | some opvn =>
    let (f', newvn) := f.newOutput dup (f.vn opvn).size (f.vn opvn).loc
    f'.keepVnFlags newvn opvn

/-- The clone of an op that is no branch. -/
def cloneOp (bprime : BlockId) (orig : OpId) : Funcdata × OpId :=
  let (f', dup) := f.newOp (f.op orig).opcode ⟨(f.op orig).seqnum.pc, f.numOps⟩ (f.op orig).inrefs
  (((f'.keepOpFlags dup orig).cloneOutput dup orig).opInsertEnd dup bprime, dup)

/-- The first loop of `clone_block_ops`, which lists each clone with the op it is of; a BRANCH gets
none, another branch cannot be cloned. -/
def cloneOps (bprime : BlockId) : Funcdata → List OpId → Option (Funcdata × List (OpId × OpId))
  | f, [] => some (f, [])
  | f, orig :: ops =>
    if (f.op orig).opcode.isBranch then
      if (f.op orig).opcode = .branch then cloneOps bprime f ops else none
    else
      let (f', dup) := f.cloneOp bprime orig
      (cloneOps bprime f' ops).map fun r => (r.1, (dup, orig) :: r.2)

/-- A MULTIEQUAL of the split block and its clone: the clone is a COPY of input `inedge`, which the
MULTIEQUAL loses. -/
def splitMultiequal (cloneOp orig : OpId) (inedge : ℕ) : Option Funcdata := do
  let pick ← (f.op orig).input inedge
  let f' := (fun g => g.opRemoveInput cloneOp 1)^[(f.op cloneOp).inrefs.length - 1] f
  let f' := ((f'.opSetOpcode cloneOp .copy).opSetInput cloneOp 0 pick).opRemoveInput orig inedge
  some (if (f'.op orig).inrefs.length = 1 then f'.opSetOpcode orig .copy else f')

/-- The varnode a clone reads in place of input `i` of the op `orig`: what the clones define comes
from the clones; the last clone of an op counts. -/
def cloneInput (clones : List (OpId × OpId)) (orig : OpId) (i : ℕ) (origVn : VarnodeId) :
    Option (Funcdata × VarnodeId) :=
  if (f.vn origVn).constant then some (f, origVn)
  else if Varnode.annotation (f.vn origVn) then some (f.newCodeRef (f.vn origVn).loc)
  else if (f.vn origVn).isFree then
    if (f.op orig).opcode = .return ∧ i = 0 then
      some (f.newVarnode (f.vn origVn).size (f.vn origVn).loc)
    else none
  else
    match (f.vn origVn).defOp.bind fun d => (clones.filter fun c => c.2 = d).getLast? with
    | none => some (f, origVn)
    | some c => (f.op c.1).output.map fun out => (f, out)

/-- `patchInputs` for one op and its clone. -/
def patchInputs (clones : List (OpId × OpId)) (inedge : ℕ) (c : OpId × OpId) : Option Funcdata :=
  if (f.op c.2).opcode = .multiequal then f.splitMultiequal c.1 c.2 inedge
  else if (f.op c.2).opcode = .indirect ∨ (f.op c.2).opcode.isCall then none
  else (List.range (f.op c.1).inrefs.length).foldlM (fun g i => do
    let origVn ← (g.op c.2).input i
    let (g', cloneVn) ← g.cloneInput clones c.2 i origVn
    some (g'.opSetInput c.1 i cloneVn)) f

def cloneBlockOps (b bprime : BlockId) (inedge : ℕ) : Option Funcdata := do
  let (f', clones) ← cloneOps bprime f (f.block b).ops
  clones.foldlM (fun g c => g.patchInputs clones inedge c) f'

/-- `node_split`: a copy of `b`, which leads nowhere, takes over its in-edge `inedge`. -/
def nodeSplit (b : BlockId) (inedge : ℕ) : Option Funcdata :=
  if (f.block b).outEdges ≠ [] ∨ (f.block b).inEdges.length ≤ 1 ∨ ¬ (f.block b).inEdges.Nodup then
    none
  else do
    let a ← (f.block b).inEdges[inedge]?
    let (f', bprime) := f.newBlockBasic
    let aOut ← (f'.block a).outEdges.idxOf? b
    let f' := ((f'.modBlock a fun x => { x with outEdges := x.outEdges.set aOut bprime }).modBlock b
      fun x => { x with inEdges := x.inEdges.eraseIdx inedge }).modBlock bprime fun x =>
        { x with inEdges := x.inEdges ++ [a] }
    f'.cloneBlockOps b bprime inedge

/-- `op_zero_multi`: a MULTIEQUAL with one input left is a COPY, one with none copies a function
input. -/
def opZeroMulti (unaffected : Address → ℕ → Bool) (op : OpId) : Option Funcdata :=
  match (f.op op).inrefs.length with
  | 0 => do
    let out ← (f.op op).output
    let (f', inv) := f.newInput unaffected (f.vn out).size (f.vn out).loc
    some ((f'.opSetAllInput op [inv]).opSetOpcode op .copy)
  | 1 => some (f.opSetOpcode op .copy)
  | _ => some f

/-- A block with two ways out loses one: its CBRANCH goes. -/
def dropDecision (bb : BlockId) : Funcdata :=
  match (f.block bb).ops.getLast? with
  | none => f
  | some last =>
    if (f.block bb).outEdges.length = 2 ∧ (f.op last).opcode = .cbranch then
      (f.opDestroy last).modBlock bb fun x => { x with ops := x.ops.dropLast }
    else f

/-- The live MULTIEQUALs of a block. -/
def multis (b : BlockId) : List OpId :=
  (f.block b).ops.filter fun op => !(f.op op).dead && decide ((f.op op).opcode = .multiequal)

/-- One MULTIEQUAL of `branch_remove_internal`. -/
def dropBranch (unaffected : Address → ℕ → Bool) (blocknum : ℕ) (op : OpId) : Option Funcdata :=
  if (f.op op).inrefs.length ≤ blocknum then none
  else (f.opRemoveInput op blocknum).opZeroMulti unaffected op

def branchRemoveInternal (unaffected : Address → ℕ → Bool) (bb : BlockId) (num : ℕ) :
    Option Funcdata := do
  let f' := f.dropDecision bb
  let bbout ← (f'.block bb).outEdges[num]?
  let blocknum ← (f'.block bbout).inEdges.idxOf? bb
  let f' := (f'.modBlock bb fun x => { x with outEdges := x.outEdges.eraseIdx num }).modBlock bbout
    fun x => { x with inEdges := x.inEdges.eraseIdx blocknum }
  (f'.multis bbout).foldlM (fun g op => g.dropBranch unaffected blocknum op) f'

/-- The blocks `renumber_reachable` keeps, in their order; the entry stays first. -/
def keptOrder (reachable : List Bool) : List BlockId :=
  0 :: (List.range reachable.length).filter fun b => decide (0 < b) && reachable.getD b false

/-- A block as `renumber_reachable` keeps it. -/
def keptBlock (reachable : List Bool) (b : BlockId) : BlockBasic where
  ops := (f.block b).ops
  inEdges := ((f.block b).inEdges.filter fun e => reachable.getD e false).map
    (keptOrder reachable).idxOf
  outEdges := ((f.block b).outEdges.filter fun e => reachable.getD e false).map
    (keptOrder reachable).idxOf

/-- All ops of a block get it as their parent. -/
def setParents (ops : List OpId) (b : BlockId) : Funcdata :=
  ops.foldl (fun g op => g.modOp op fun o => { o with parent := some b }) f

/-- `renumber_reachable`; a flag too few or too many for the blocks it is asked of is a panic. -/
def renumberReachable (reachable : List Bool) : Option Funcdata :=
  let order := keptOrder reachable
  if reachable = [] ∨ ¬ order.all fun b => decide (b < f.numBlocks) &&
      ((f.block b).inEdges ++ (f.block b).outEdges).all fun e => decide (e < reachable.length) then
    none
  else
    let f' := order.zipIdx.foldl (fun g b => g.setParents (f.block b.1).ops b.2) f
    some { f' with blocks := order.map (f.keptBlock reachable) }

/-- A block ends in a jump that is of no use any more. -/
def dropJump (bb : BlockId) : Funcdata :=
  match (f.block bb).ops.getLast? with
  | none => f
  | some last =>
    if (f.op last).opcode.isBranch then
      (f.opDestroy last).modBlock bb fun x => { x with ops := x.ops.dropLast }
    else f

/-- The ops of `outbl` move to the end of `bb`. -/
def takeOps (bb outbl : BlockId) : Funcdata :=
  let moved := (f.block outbl).ops
  ((f.modBlock outbl fun x => { x with ops := [] }).setParents moved bb).modBlock bb fun x =>
    { x with ops := x.ops ++ moved }

/-- The out-edges of `outbl` leave `bb` instead, and `outbl` has no edges any more. -/
def takeOutEdges (bb outbl : BlockId) : Funcdata :=
  let outs := (f.block outbl).outEdges
  let f' := outs.foldl (fun g o => g.modBlock o fun x =>
    { x with inEdges := x.inEdges.map fun e => if e = outbl then bb else e }) f
  (f'.modBlock bb fun x => { x with outEdges := outs }).modBlock outbl fun x =>
    { x with inEdges := [], outEdges := [] }

/-- `splice_block_basic`: a block takes over the ops and the out-edges of its one successor. -/
def spliceBlockBasic (bb : BlockId) : Option (Funcdata × Bool) :=
  match (f.block bb).outEdges with
  | [outbl] =>
    if (f.block outbl).inEdges.length ≠ 1 then some (f, false)
    else if (f.block outbl).ops.head?.any fun o => decide ((f.op o).opcode = .multiequal) then
      some (f, false)
    else
      let f' := ((f.dropJump bb).takeOps bb outbl).takeOutEdges bb outbl
      (f'.renumberReachable ((List.replicate f'.numBlocks true).set outbl false)).map (·, true)
  | _ => some (f, false)

end Funcdata

/-- A call of one of the operations on the flow graph. -/
inductive Surgery
  | removeEdge (a b : BlockId)
  | moveOutEdge (blold : BlockId) (slot : ℕ) (blnew : BlockId)
  | nodeJoinCreateBlock (block1 block2 exita exitb : BlockId) (aHigh bHigh : Bool)
  | replaceEdgesThru (bl : BlockId) (inslot outslot : ℕ)
  | removeFromFlowSplit (bl : BlockId) (flipflow : Bool)
  | nodeSplit (b : BlockId) (inedge : ℕ)
  | branchRemoveInternal (bb : BlockId) (num : ℕ)
  | spliceBlockBasic (bb : BlockId)
  | renumberReachable (reachable : List Bool)

/-- The graph after the call; `none` is a panic in the call. -/
def Surgery.apply (unaffected : Address → ℕ → Bool) (f : Funcdata) : Surgery → Option Funcdata
  | removeEdge a b => f.removeEdge a b
  | moveOutEdge blold slot blnew => f.moveOutEdge blold slot blnew
  | nodeJoinCreateBlock block1 block2 exita exitb aHigh bHigh =>
    (f.nodeJoinCreateBlock block1 block2 exita exitb aHigh bHigh).map Prod.fst
  | replaceEdgesThru bl inslot outslot => f.replaceEdgesThru bl inslot outslot
  | removeFromFlowSplit bl flipflow => f.removeFromFlowSplit bl flipflow
  | nodeSplit b inedge => f.nodeSplit b inedge
  | branchRemoveInternal bb num => f.branchRemoveInternal unaffected bb num
  | spliceBlockBasic bb => (f.spliceBlockBasic bb).map Prod.fst
  | renumberReachable reachable => f.renumberReachable reachable

end Mosura
