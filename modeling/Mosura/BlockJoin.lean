import Mosura.FlagRules
import Mosura.FlowEdit

/-! Joining duplicated conditions, `blockjoin.rs`: two blocks that branch on the same condition to the
same pair of exits branch through one new block. -/

namespace Mosura

/-- The key of a pair of varnodes to merge; the creation order of varnodes is that of their ids. -/
abbrev MergeKey := VarnodeId × VarnodeId

/-- `note_merge` into the ordered keys. -/
def noteMerge (key : MergeKey) : List MergeKey → List MergeKey
  | [] => [key]
  | k :: rest =>
    if k = key then key :: rest
    else if key.1 < k.1 ∨ key.1 = k.1 ∧ key.2 < k.2 then key :: k :: rest
    else k :: noteMerge key rest

structure ConditionalJoin where
  /-- Side 1 of the (putative) split. -/
  block1 : BlockId
  /-- Side 2 of the (putative) split. -/
  block2 : BlockId
  exita : BlockId
  exitb : BlockId
  /-- In-edge of `exita` coming from `block1`. -/
  aIn1 : ℕ
  aIn2 : ℕ
  bIn1 : ℕ
  bIn2 : ℕ
  cbranch1 : OpId
  cbranch2 : OpId
  mergeneed : List MergeKey
  deriving DecidableEq, Repr

namespace Funcdata

variable (f : Funcdata)

/-- `op_uninsert`. -/
def opUninsert (op : OpId) : Funcdata :=
  match (f.op op).parent with
  | none => f
  | some b => f.modBlock b fun x => { x with ops := x.ops.erase op }

/-! Matching: the outer `Option` is a panic, the inner one the answer. -/

def outRevIndex (bb : BlockId) (i : ℕ) : Option ℕ := do
  let outb ← (f.block bb).outEdges[i]?
  (f.block outb).inEdges.idxOf? bb

/-- The two conditions of `find_dups`, and the pair to merge for them. -/
def findDupConditions (c1 c2 : OpId) : Option (Option (List MergeKey)) := do
  let vn1 ← (f.op c1).input 1
  let vn2 ← (f.op c2).input 1
  if vn1 = vn2 then some (some [])
  else if !(f.vn vn1).written || !(f.vn vn2).written then some none
  else if (f.vn vn1).spacebase || (f.vn vn2).spacebase then some none
  else
    let res := f.functionalEqualityLevel vn1 vn2
    if res < 0 ∨ 1 < res then some none
    else
      let op1 ← (f.vn vn1).defOp
      if (f.op op1).opcode = .subpiece ∨ (f.op op1).opcode = .copy then some none
      else some (some [(vn1, vn2)])

/-- The CBRANCHes of two equivalent conditions, and the pair to merge for them. -/
def findDups (b1 b2 : BlockId) : Option (Option (OpId × OpId × List MergeKey)) :=
  match (f.block b1).ops.getLast?, (f.block b2).ops.getLast? with
  | some c1, some c2 =>
    if (f.op c1).opcode ≠ .cbranch ∨ (f.op c2).opcode ≠ .cbranch then some none
    else if (f.op c1).booleanFlip || (f.op c2).booleanFlip then some none
    else (f.findDupConditions c1 c2).map fun r => r.map fun m => (c1, c2, m)
  | _, _ => some none

/-- `check_exit_block` over the ops of the exit: the further pairs it merges from the two sides. -/
def checkExitBlock (in1 in2 : ℕ) : List OpId → List MergeKey → Option (List MergeKey)
  | [], m => some m
  | op :: rest, m =>
    if (f.op op).opcode = .multiequal then do
      let vn1 ← (f.op op).input in1
      let vn2 ← (f.op op).input in2
      checkExitBlock in1 in2 rest (if vn1 = vn2 then m else noteMerge (vn1, vn2) m)
    else if (f.op op).opcode = .copy then checkExitBlock in1 in2 rest m
    else some m

/-- `ConditionalJoin::matches`. -/
def joinMatches (b1 b2 : BlockId) : Option (Option ConditionalJoin) :=
  match (f.block b1).outEdges, (f.block b2).outEdges with
  | [exita, exitb], [exita', exitb'] =>
    if b1 = b2 ∨ exita = exitb ∨ exita' ≠ exita ∨ exitb' ≠ exitb then some none
    else do
      let aIn2 ← f.outRevIndex b2 0
      let bIn2 ← f.outRevIndex b2 1
      let aIn1 ← f.outRevIndex b1 0
      let bIn1 ← f.outRevIndex b1 1
      match ← f.findDups b1 b2 with
      | none => some none
      | some (cbranch1, cbranch2, m) =>
        let m ← f.checkExitBlock aIn1 aIn2 (f.block exita).ops m
        let m ← f.checkExitBlock bIn1 bIn2 (f.block exitb).ops m
        some (some ⟨b1, b2, exita, exitb, aIn1, aIn2, bIn1, bIn2, cbranch1, cbranch2, m⟩)
  | _, _ => some none

/-! Execution. -/

/-- A new MULTIEQUAL of `setup_multiequals` at the end of the join block. -/
def setupMultiequal (pc : Address) (joinblock : BlockId) (key : MergeKey) : Funcdata × VarnodeId :=
  let (f', multi) := f.newOp .multiequal ⟨pc, f.numOps⟩ [key.1, key.2]
  let (f'', outvn) := f'.newOutputUnique multi (f.vn key.1).size
  (f''.opInsertEnd multi joinblock, outvn)

/-- `setup_multiequals`, and the merged varnode for each pair. -/
def setupMultiequals (pc : Address) (joinblock : BlockId) :
    Funcdata → List MergeKey → Funcdata × List (MergeKey × VarnodeId)
  | f, [] => (f, [])
  | f, key :: rest =>
    let (f', outvn) := f.setupMultiequal pc joinblock key
    let (f'', merged) := setupMultiequals pc joinblock f' rest
    (f'', (key, outvn) :: merged)

/-- `move_cbranch`. -/
def moveCbranch (cbranch1 cbranch2 : OpId) (joinblock : BlockId)
    (merged : List (MergeKey × VarnodeId)) : Option Funcdata := do
  let vn1 ← (f.op cbranch1).input 1
  let vn2 ← (f.op cbranch2).input 1
  let f' := (f.opUninsert cbranch1).opInsertEnd cbranch1 joinblock
  let vn ← if vn1 ≠ vn2 then merged.lookup (vn1, vn2) else some vn1
  some ((f'.opSetInput cbranch1 1 vn).opDestroy cbranch2)

/-- One MULTIEQUAL of `cut_down_multiequals`. -/
def cutDownMultiequal (exit : BlockId) (in1 in2 : ℕ) (merged : List (MergeKey × VarnodeId))
    (op : OpId) : Option Funcdata := do
  let hi := if in1 > in2 then in1 else in2
  let lo := if in1 > in2 then in2 else in1
  let vn1 ← (f.op op).input in1
  let vn2 ← (f.op op).input in2
  let f' ←
    if vn1 = vn2 then some (f.opRemoveInput op hi)
    else (merged.lookup (vn1, vn2)).map fun subvn => (f.opRemoveInput op hi).opSetInput op lo subvn
  if (f'.op op).numInputs = 1 then
    some (((f'.opUninsert op).opSetOpcode op .copy).opInsertBegin op exit)
  else some f'

/-- `cut_down_multiequals` over the ops of the exit. -/
def cutDownMultiequals (exit : BlockId) (in1 in2 : ℕ) (merged : List (MergeKey × VarnodeId)) :
    Funcdata → List OpId → Option Funcdata
  | f, [] => some f
  | f, op :: rest =>
    if (f.op op).opcode = .multiequal then
      (f.cutDownMultiequal exit in1 in2 merged op).bind fun f' =>
        cutDownMultiequals exit in1 in2 merged f' rest
    else if (f.op op).opcode = .copy then cutDownMultiequals exit in1 in2 merged f rest
    else some f

/-- `ConditionalJoin::execute`. -/
def joinExecute (cj : ConditionalJoin) : Option Funcdata := do
  let (f', joinblock) ← f.nodeJoinCreateBlock cj.block1 cj.block2 cj.exita cj.exitb
    (cj.aIn1 > cj.aIn2) (cj.bIn1 > cj.bIn2)
  let (f', merged) := setupMultiequals (f'.op cj.cbranch1).seqnum.pc joinblock f' cj.mergeneed
  let f' ← f'.moveCbranch cj.cbranch1 cj.cbranch2 joinblock merged
  let f' ← cutDownMultiequals cj.exita cj.aIn1 cj.aIn2 merged f' (f'.block cj.exita).ops
  cutDownMultiequals cj.exitb cj.bIn1 cj.bIn2 merged f' (f'.block cj.exitb).ops

end Funcdata
end Mosura
