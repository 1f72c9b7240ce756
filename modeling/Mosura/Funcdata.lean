import Mosura.OpCode
import Mosura.Space

/-! The SSA graph: `Varnode`, `PcodeOp`, `BlockBasic` and the `Funcdata` that owns them. -/

namespace Mosura

abbrev VarnodeId := ℕ
abbrev OpId := ℕ
abbrev BlockId := ℕ

/-- `calc_mask`: all ones for a value of `size` bytes, seen through 64 bits. -/
def calcMask (size : ℕ) : U64 :=
  if 8 ≤ size then BitVec.allOnes 64 else (1#64 <<< (8 * size)) - 1#64

structure Varnode where
  deleted : Bool := false
  loc : Address
  size : ℕ
  constant : Bool := false
  annotation : Bool := false
  input : Bool := false
  written : Bool := false
  insert : Bool := false
  nolocalalias : Bool := false
  persist : Bool := false
  addrtied : Bool := false
  unaffected : Bool := false
  spacebase : Bool := false
  addrforce : Bool := false
  mapped : Bool := false
  indirectCreation : Bool := false
  precislo : Bool := false
  precishi : Bool := false
  autoliveHold : Bool := false
  defOp : Option OpId := none
  descend : List OpId := []
  nzm : U64
  consume : U64 := BitVec.allOnes 64
  deriving DecidableEq, Repr

namespace Varnode

/-- An id outside the arena (a panic in the source) reads this empty record. -/
instance : Inhabited Varnode := ⟨{ loc := default, size := 0, nzm := 0 }⟩

def isFree (v : Varnode) : Bool := !(v.written || v.input)

def isHeritageKnown (v : Varnode) : Bool := v.insert || v.constant || v.annotation

def isAddrtied (v : Varnode) : Bool := v.addrtied && v.insert

def isAutoLive (v : Varnode) : Bool := v.addrforce || v.autoliveHold

def constantValue (v : Varnode) : U64 := v.loc.offset

end Varnode

structure SeqNum where
  pc : Address
  uniq : ℕ
  deriving DecidableEq, Repr, Inhabited

structure PcodeOp where
  opcode : OpCode
  seqnum : SeqNum := default
  dead : Bool := false
  booleanFlip : Bool := false
  indirectSource : Bool := false
  spacebasePtr : Bool := false
  noIndirectCollapse : Bool := false
  calculatedBool : Bool := false
  noCollapse : Bool := false
  specialPrint : Bool := false
  parent : Option BlockId := none
  output : Option VarnodeId := none
  inrefs : List VarnodeId := []
  guardedOp : Option OpId := none
  deriving DecidableEq, Repr

namespace PcodeOp

instance : Inhabited PcodeOp := ⟨{ opcode := .copy }⟩

def numInputs (o : PcodeOp) : ℕ := o.inrefs.length

def input (o : PcodeOp) (slot : ℕ) : Option VarnodeId := o.inrefs[slot]?

end PcodeOp

structure BlockBasic where
  ops : List OpId := []
  inEdges : List BlockId := []
  outEdges : List BlockId := []
  deriving DecidableEq, Repr, Inhabited

structure Funcdata where
  addr : Address := default
  spaces : SpaceManager
  vn : VarnodeId → Varnode
  numVarnodes : ℕ
  op : OpId → PcodeOp
  numOps : ℕ
  blocks : List BlockBasic
  uniqueOffset : U64 := 0

namespace Funcdata

variable (f : Funcdata)

def numBlocks : ℕ := f.blocks.length

def block (b : BlockId) : BlockBasic := f.blocks.getD b default

/-- The record of input `slot` of `op`; a missing input (a panic in the source) reads the empty
record. -/
def inVn (op : OpId) (slot : ℕ) : Varnode := ((f.op op).input slot).elim default f.vn

def modVn (v : VarnodeId) (g : Varnode → Varnode) : Funcdata :=
  { f with vn := Function.update f.vn v (g (f.vn v)) }

def modOp (o : OpId) (g : PcodeOp → PcodeOp) : Funcdata :=
  { f with op := Function.update f.op o (g (f.op o)) }

def modBlock (b : BlockId) (g : BlockBasic → BlockBasic) : Funcdata :=
  { f with blocks := f.blocks.modify b g }

@[simp] theorem modVn_vn (v v' : VarnodeId) (g : Varnode → Varnode) :
    (f.modVn v g).vn v' = if v' = v then g (f.vn v) else f.vn v' := by
  simp only [modVn, Function.update_apply]

@[simp] theorem modVn_op (v : VarnodeId) (g : Varnode → Varnode) : (f.modVn v g).op = f.op := rfl

@[simp] theorem modVn_numOps (v : VarnodeId) (g : Varnode → Varnode) :
    (f.modVn v g).numOps = f.numOps := rfl

@[simp] theorem modOp_op (o o' : OpId) (g : PcodeOp → PcodeOp) :
    (f.modOp o g).op o' = if o' = o then g (f.op o) else f.op o' := by
  simp only [modOp, Function.update_apply]

@[simp] theorem modOp_vn (o : OpId) (g : PcodeOp → PcodeOp) : (f.modOp o g).vn = f.vn := rfl

@[simp] theorem modOp_numVarnodes (o : OpId) (g : PcodeOp → PcodeOp) :
    (f.modOp o g).numVarnodes = f.numVarnodes := rfl

@[simp] theorem modOp_numOps (o : OpId) (g : PcodeOp → PcodeOp) :
    (f.modOp o g).numOps = f.numOps := rfl

@[simp] theorem modBlock_vn (b : BlockId) (g : BlockBasic → BlockBasic) :
    (f.modBlock b g).vn = f.vn := rfl

@[simp] theorem modBlock_op (b : BlockId) (g : BlockBasic → BlockBasic) :
    (f.modBlock b g).op = f.op := rfl

/-- The varnode record `alloc_varnode` starts from: constants keep their masked value as `nzm`,
all else may be non-zero everywhere; everything is consumed. -/
def freshVarnode (size : ℕ) (loc : Address) (constant : Bool) : Varnode where
  loc := loc
  size := size
  constant := constant
  nzm := if constant then loc.offset &&& calcMask size else calcMask size
  mapped := match (f.spaces.get loc.space).kind with
    | .spacebase => true
    | .processor => decide (0 < (f.spaces.get loc.space).delay)
    | _ => false
  addrtied := match (f.spaces.get loc.space).kind with
    | .spacebase => true
    | .processor => decide (0 < (f.spaces.get loc.space).delay)
    | _ => false
  persist := match (f.spaces.get loc.space).kind with
    | .processor => decide (0 < (f.spaces.get loc.space).delay)
    | _ => false

/-- `alloc_varnode`: the new id is the old arena length. -/
def allocVarnode (size : ℕ) (loc : Address) (constant : Bool) : Funcdata :=
  { f with
    vn := Function.update f.vn f.numVarnodes (f.freshVarnode size loc constant)
    numVarnodes := f.numVarnodes + 1 }

@[simp] theorem allocVarnode_vn (size : ℕ) (loc : Address) (c : Bool) (v : VarnodeId) :
    (f.allocVarnode size loc c).vn v =
      if v = f.numVarnodes then f.freshVarnode size loc c else f.vn v := by
  simp only [allocVarnode, Function.update_apply]

@[simp] theorem allocVarnode_op (size : ℕ) (loc : Address) (c : Bool) :
    (f.allocVarnode size loc c).op = f.op := rfl

@[simp] theorem allocVarnode_numVarnodes (size : ℕ) (loc : Address) (c : Bool) :
    (f.allocVarnode size loc c).numVarnodes = f.numVarnodes + 1 := rfl

def newConst (size : ℕ) (value : U64) : Funcdata × VarnodeId :=
  (f.allocVarnode size ⟨f.spaces.constant, value⟩ true, f.numVarnodes)

/-- `new_unique`: a fresh temporary. -/
def newUnique (size : ℕ) : Funcdata × VarnodeId :=
  let f' := f.allocVarnode size ⟨f.spaces.unique, f.uniqueOffset⟩ false
  ({ f' with uniqueOffset := f.uniqueOffset + BitVec.ofNat 64 (max size 1) }, f.numVarnodes)

/-- `unique_constant_for`: a constant with a reader is cloned before it gets another one. -/
def uniqueConstantFor (v : VarnodeId) : Funcdata × VarnodeId :=
  if !(f.vn v).constant || (f.vn v).descend.isEmpty || (f.vn v).spacebase then (f, v)
  else f.newConst (f.vn v).size (f.vn v).loc.offset

end Funcdata
end Mosura
