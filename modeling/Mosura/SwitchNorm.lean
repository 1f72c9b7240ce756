import Mosura.RangeMembers
import Mosura.RuleValues

/-! The normalization of a recovered jump table: `jumpbasic.rs` from the address table of the
recovery to the case labels of `normalize_one`. -/

namespace Mosura

namespace CircleRange

variable (R : CircleRange)

def getMin : ℕ := R.left

/-- Advance an integer within the range; `false` at the end. -/
def getNext (val : ℕ) : ℕ × Bool :=
  let next := wrappingAdd val R.stepU &&& R.mask
  (next, next ≠ R.right)

/-- The number of integers in the range; `none` is the division by zero. -/
def getSize : Option ℕ :=
  if R.isempty then some 0
  else if R.stepU = 0 then none
  else if R.left < R.right then some ((R.right - R.left) / R.stepU)
  else
    let val := wrappingAdd (wrappingSub R.mask (wrappingSub R.left R.right)) R.stepU / R.stepU
    -- all values are in the range: one too few
    if val = 0 then some (if 1 < R.step then R.mask / R.stepU + 1 else R.mask) else some val

end CircleRange

open CircleRange

/-- The loaded bytes of the program: blocks with their base addresses. -/
abbrev CodeImage := List (ℕ × List (BitVec 8))

namespace CodeImage

def inImage (image : CodeImage) (addr : ℕ) : Bool :=
  image.any fun block => block.1 ≤ addr && addr < block.1 + block.2.length

/-- The little-endian value of `size` bytes; more than 8 is an overflow panic. -/
def readImage (image : CodeImage) (addr size : ℕ) : Option ℕ := do
  let block ← image.find? fun block => block.1 ≤ addr && addr + size ≤ block.1 + block.2.length
  let bytes := (block.2.drop (addr - block.1)).take size
  if 8 < size then none
  else some (bytes.foldr (fun byte v => byte.toNat + 2 ^ 8 * v) 0)

end CodeImage

structure JumpTable where
  targets : List ℕ
  /-- The case label for each target, empty until the table is normalized. -/
  labels : List ℤ := []
  /-- The value range of the normalized switch variable found at recovery. -/
  normRange : Option CircleRange
  normalized : Bool := false
  deriving DecidableEq, Repr

/-- `MAX_TABLE_SIZE`. -/
def maxTableSize : ℕ := 1024

structure RootedOp where
  op : Option OpId
  rootVn : ℕ

/-- The varnodes common to all data-flow paths to a branch target, and the ops of the paths. -/
structure PathMeld where
  commonVn : List VarnodeId
  opMeld : List RootedOp

structure GuardRecord where
  cbranch : Option OpId
  readOp : OpId

namespace PathMeld

/-- The ops from the start up to the earliest op rooted at `startVarnode`. -/
def markPaths (m : PathMeld) (startVarnode : ℕ) : List OpId :=
  (m.opMeld.rdropWhile fun r => r.rootVn ≠ startVarnode).filterMap RootedOp.op

end PathMeld

/-- A model of the switch: the melded paths, the guards, and which common varnode is the normalized
switch variable, over which range. -/
structure SwitchModel where
  pathMeld : PathMeld
  guards : List GuardRecord
  varnodeIndex : ℕ
  range : CircleRange

namespace Funcdata

variable (f : Funcdata)

/-! The recovery. -/

/-- `sign_extend` from `size` bytes to 64 bits. -/
def signExtendWord (x size : ℕ) : ℕ :=
  if 8 ≤ size then x
  else if x &&& 2 ^ (8 * size - 1) ≠ 0 then x ||| notU64 (2 ^ (8 * size) - 1)
  else x &&& 2 ^ (8 * size) - 1

/-- The value an op emulates to from those of its inputs. -/
def emulateOp (image : CodeImage) (op : PcodeOp) (osz : ℕ) (e : ℕ → Option ℕ) : Option ℕ :=
  match op.opcode with
  | .intAdd => return wrappingAdd (← e 0) (← e 1)
  | .intSub => return CircleRange.wrappingSub (← e 0) (← e 1)
  | .intMult => return (← e 0) * (← e 1) % 2 ^ 64
  | .intLeft => return (← e 0) <<< ((← e 1) % 64) % 2 ^ 64
  | .intRight => do shrU64 (← e 0) (← e 1)
  | .intAnd => return (← e 0) &&& (← e 1)
  | .intOr => return (← e 0) ||| (← e 1)
  | .copy | .intZext => e 0
  | .intSext => return signExtendWord (← e 0) (f.vn (← op.input 0)).size
  | .subpiece => do
    let s ← op.input 1
    if (f.vn s).constant then shrU64 (← e 0) ((f.vn s).constantValue.toNat * 8) else none
  | .load => do image.readImage (← e 1) osz
  | _ => none

/-- Emulate the address calculation `vn` with the switch variable pinned to `idx`. -/
def emulate (image : CodeImage) (sw : VarnodeId) (idx : ℕ) : ℕ → VarnodeId → Option ℕ
  | 0, _ => none
  | depth + 1, vn =>
    if vn = sw then some idx
    else if (f.vn vn).constant then some (f.vn vn).constantValue.toNat
    else
      (f.vn vn).defOp.bind fun d =>
        let osz := ((f.op d).output.map fun o => (f.vn o).size).getD 8
        (f.emulateOp image (f.op d) osz fun i =>
          ((f.op d).input i).bind (emulate image sw idx depth)).map (· &&& maskOf osz)

/-- The loop of `recover_jumpbasic` over the values of the range, from `curval` on. -/
def buildAddresses (R : CircleRange) (address : ℕ → Option ℕ) : ℕ → ℕ → Option (List ℕ)
  | 0, _ => none
  | fuel + 1, curval =>
    (address curval).bind fun addr =>
      let next := R.getNext curval
      if next.2 then (buildAddresses R address fuel next.1).map (addr :: ·) else some [addr]

/-- The address table over the range of the normalized switch variable. -/
def recoverJumpbasic (image : CodeImage) (indop : OpId) (m : SwitchModel) (fuel : ℕ) :
    Option JumpTable := do
  let targetVn ← (f.op indop).input 0
  let startVn ← m.pathMeld.commonVn[m.varnodeIndex]?
  let count ← m.range.getSize
  if count = 0 ∨ count > maxTableSize then none
  else
    let address curval := (f.emulate image startVn curval 101 targetVn).filter image.inImage
    let targets ← buildAddresses m.range address fuel m.range.getMin
    return { targets := targets, normRange := some m.range }

/-! The unnormalized switch variable. -/

/-- The ops that `mark_model` marks. -/
def markModel (m : SwitchModel) : List OpId :=
  m.pathMeld.markPaths m.varnodeIndex ++
    m.guards.filterMap fun g => if g.cbranch.isSome then some g.readOp else none

/-- Every op that reads `vn` is the trailing normalization op or an op of the model. -/
def flowsOnlyToModel (marked : List OpId) (vn : VarnodeId) (trailOp : Option OpId) : Bool :=
  (f.vn vn).descend.all fun op => some op == trailOp || marked.contains op

/-- What is behind `op` on the path: its constant companion, or its extension, undone. -/
def peel (op : PcodeOp) (j countAddsub countExt : ℕ) : Bool × ℕ × ℕ :=
  match op.opcode with
  | .intAdd | .intSub =>
    (countAddsub + 1 ≤ 1 && op.numInputs == 2 &&
      (op.input (1 - j)).any fun o => (f.vn o).constant, countAddsub + 1, countExt)
  | .intZext | .intSext => (countExt + 1 ≤ 1, countAddsub, countExt + 1)
  | _ => (false, countAddsub, countExt)

/-- The loop of `find_unnormalized` over the common varnodes behind the normalized one. -/
def unnormalize (marked : List OpId) (switchvn : VarnodeId) (normop : Option OpId)
    (countAddsub countExt : ℕ) : List VarnodeId → VarnodeId
  | [] => switchvn
  | testvn :: rest =>
    if f.flowsOnlyToModel marked switchvn normop then
      match (f.vn switchvn).defOp with
      | none => switchvn
      | some defop =>
        match (f.op defop).inrefs.idxOf? testvn with
        | none => switchvn
        | some j =>
          let p := f.peel (f.op defop) j countAddsub countExt
          let peeled := if p.1 then testvn else switchvn
          if peeled ≠ testvn then peeled
          else unnormalize marked peeled (some defop) p.2.1 p.2.2 rest
    else switchvn

/-- The switch variable that the `switch` statement reads. -/
def findUnnormalized (m : SwitchModel) : Option VarnodeId :=
  m.pathMeld.commonVn[m.varnodeIndex]?.map fun normalvn =>
    f.unnormalize (markModel m) normalvn none 0 0 (m.pathMeld.commonVn.drop (m.varnodeIndex + 1))

/-! The labels. -/

/-- The first non-constant input of `op`. -/
def variableSlot (op : OpId) : Option ℕ := (f.op op).inrefs.findIdx? fun v => !(f.vn v).constant

/-- The arms of `backup2switch`: the input in `slot` that gives `output`. -/
def recoverInput (op : OpId) (slot output : ℕ) : Option ℕ := do
  let sizeout := (f.vn (← (f.op op).output)).size
  match (f.op op).opcode with
  | .intAdd | .intSub =>
    if (f.op op).numInputs ≠ 2 then none
    else
      let othervn ← (f.op op).input (1 - slot)
      if (f.vn othervn).constant then
        let otherval := (f.vn othervn).constantValue.toNat
        let mask := maskOf sizeout
        if (f.op op).opcode = .intAdd then some (CircleRange.wrappingSub output otherval &&& mask)
        else if slot = 0 then some (wrappingAdd otherval output &&& mask)
        else some (CircleRange.wrappingSub otherval output &&& mask)
      else none
  | .intZext =>
    let sizein := (f.vn (← (f.op op).input 0)).size
    if output &&& maskOf sizein ≠ output then none else some output
  | .intSext =>
    let sizein := (f.vn (← (f.op op).input 0)).size
    let masklong := maskOf sizeout
    let maskshort := maskOf sizein
    if output &&& (maskshort ^^^ (maskshort >>> 1)) = 0 then
      if output &&& maskshort ≠ output then none else some (output &&& maskshort)
    else if output &&& (masklong ^^^ maskshort) ≠ (masklong ^^^ maskshort) then none
    else some (output &&& maskshort)
  | _ => none

/-- Where the walk goes on: the extensions continue at their only input. -/
def backupInput (op : OpId) (slot : ℕ) : Option VarnodeId :=
  match (f.op op).opcode with
  | .intZext | .intSext => (f.op op).input 0
  | _ => (f.op op).input slot

/-- Reverse-emulate a value of `curvn` to the value of `invn` behind it. -/
def backup2switch (invn : VarnodeId) : ℕ → ℕ → VarnodeId → Option ℕ
  | 0, _, _ => none
  | fuel + 1, output, curvn =>
    if curvn = invn then some output
    else do
      let op ← (f.vn curvn).defOp
      let slot ← f.variableSlot op
      let output ← f.recoverInput op slot output
      backup2switch invn fuel output (← f.backupInput op slot)

/-- `x as i64` of a `u64`. -/
def asI64 (x : ℕ) : ℤ := Int.bmod x (2 ^ 64)

/-- The loop of `normalize_one` over the recorded range; `left` more labels may follow. -/
def buildLabels (R : CircleRange) (backup : ℕ → Option ℕ) : ℕ → ℕ → Option (List ℤ)
  | 0, curval => (backup curval).map fun v => [asI64 v]
  | left + 1, curval =>
    (backup curval).bind fun v =>
      let next := R.getNext curval
      if next.2 then (buildLabels R backup left next.1).map (asI64 v :: ·) else some [asI64 v]

/-- `normalize_one` up to the folding of the guards: the new operand of the branch, and the labelled
table. `m` is the model recovered again on the final graph. -/
def normalizeOne (m : SwitchModel) (jt : JumpTable) (fuel : ℕ) : Option (VarnodeId × JumpTable) := do
  if jt.targets = [] then none
  else
    let origrange ← jt.normRange
    let normalvn ← m.pathMeld.commonVn[m.varnodeIndex]?
    if (← m.range.getSize) ≠ jt.targets.length then none
    else
      let switchvn ← f.findUnnormalized m
      let labels ← buildLabels origrange (fun val => f.backup2switch switchvn fuel val normalvn)
        (jt.targets.length - 1) origrange.getMin
      if labels.length ≠ jt.targets.length then none
      else some (switchvn, { jt with labels := labels, normalized := true })

end Funcdata
end Mosura
