import Mosura.RuleValues
import Mosura.Primitives

/-! `RuleExpandLoad` (`rules.rs`): a LOAD of a part of what its pointer points at is widened. The
functions return `none` where the source returns 0 or panics. -/

namespace Mosura

/-- The data types (`types.rs`), as far as they have a size. -/
inductive Datatype
  | void | spacebase (space : SpaceId) | unknown (n : ℕ) | char | int (n : ℕ) | uint (n : ℕ)
  | bool | float (n : ℕ) | code | pointer (n : ℕ) (pointee : Datatype)
  | array (elem : Datatype) (count : ℕ) | struct (n : ℕ)
  deriving DecidableEq, Repr

namespace Datatype

/-- `size`, a `u32`. -/
def size : Datatype → ℕ
  | void | spacebase _ => 0
  | bool | char | code => 1
  | unknown n | int n | uint n | float n | pointer n _ | struct n => n
  | array elem count => elem.size * count % 2 ^ 32

def isUnknown : Datatype → Bool
  | unknown _ => true
  | _ => false

/-- The types that truncate naturally. -/
def isInteger : Datatype → Bool
  | int _ | uint _ | char => true
  | _ => false

end Datatype

/-- What the rule matches: the pointer to the whole value, the INT_ADD that is folded away, the byte
offset of the part, the size of the whole value, and whether all readers mask and compare. -/
structure Widening where
  outVn : VarnodeId
  addOp : Option OpId
  rootPtr : VarnodeId
  offset : ℕ
  elSize : ℕ
  addForm : Bool
  deriving DecidableEq, Repr

namespace Funcdata

variable (f : Funcdata)

/-- One reader in `expand_load_check_and_comparison`: `(v & #mask) == #const`, or `!=`. -/
def masksAndCompares (op : OpId) : Bool :=
  (f.op op).opcode == .intAnd && ((f.op op).input 1).any (fun v => (f.vn v).constant) &&
    (f.op op).output.any fun out => (f.loneDescend out).any fun compOp =>
      ((f.op compOp).opcode == .intEqual || (f.op compOp).opcode == .intNotequal) &&
        ((f.op compOp).input 1).any fun v => (f.vn v).constant

def expandLoadCheckAndComparison (vn : VarnodeId) : Bool :=
  (f.vn vn).descend.all f.masksAndCompares

/-- One turn of `expand_load_modify_and_comparison`; the host shifts by `shift` modulo 64. -/
def modifyReader (newVn : VarnodeId) (size shift : ℕ) (f : Funcdata) (andOp : OpId) : Funcdata :=
  match (f.op andOp).output.bind f.loneDescend with
  | none => f
  | some compOp =>
    let (g, mask) := f.newConst size ((f.inVn andOp 1).constantValue <<< (shift % 64))
    let g := (g.opSetInput andOp 0 newVn).opSetInput andOp 1 mask
    g.setConstInput compOp 1 size ((g.inVn compOp 1).constantValue <<< (shift % 64))

def expandLoadModifyAndComparison (oldVn newVn : VarnodeId) (size offset : ℕ) : Funcdata :=
  (f.vn oldVn).descend.foldl (modifyReader newVn size (8 * offset)) f

/-- The pointer of the LOAD, less a small constant that is added to it. -/
def expandLoadPointer (ptr : VarnodeId) : Option (Option OpId × VarnodeId × ℕ) :=
  if !(f.vn ptr).written then some (none, ptr, 0)
  else do
    let defOp ← (f.vn ptr).defOp
    if (f.op defOp).opcode = .intAdd ∧ ((f.op defOp).input 1).any (fun v => (f.vn v).constant) then
      let off := (f.inVn defOp 1).constantValue
      if 16 < off then none
      else
        let addOut ← (f.op defOp).output
        if (f.loneDescend addOut).isNone then none
        else
          let rootPtr ← (f.op defOp).input 0
          some (some defOp, rootPtr, off.toNat)
    else some (none, ptr, 0)

variable (getType : VarnodeId → Datatype)

/-- The checks of the rule. -/
def expandLoadMatch (op : OpId) : Option Widening := do
  let outVn ← (f.op op).output
  let outSize := (f.vn outVn).size
  let ptr ← (f.op op).input 1
  let (addOp, rootPtr, offset) ← f.expandLoadPointer ptr
  match getType rootPtr with
  | .pointer _ elType =>
    if elType.size ≤ outSize ∨ elType.size < outSize + offset then none
    else if elType.isUnknown then none
    else
      let addForm := f.expandLoadCheckAndComparison outVn
      let outMeta := getType outVn
      if !addForm && (!elType.isInteger ||
          !(outMeta.isInteger || outMeta.isUnknown || outMeta == .bool) || offset != 0) then none
      else some ⟨outVn, addOp, rootPtr, offset, elType.size, addForm⟩
  | _ => none

/-- The LOAD reads the whole value. -/
def widenLoad (op : OpId) (w : Widening) : Funcdata :=
  let (g, newOut) := f.newUnique w.elSize
  let g := g.opSetOutput op newOut
  match w.addOp with
  | some addOp => (g.opSetInput op 1 w.rootPtr).opDestroy addOp
  | none => g

/-- The old output is cut from the new one. -/
def cutLoad (op : OpId) (w : Widening) (newOut : VarnodeId) : Funcdata :=
  let (g, lsb) := f.newConst 4 0
  let (g, subOp) := g.newOp .subpiece ⟨(g.op op).seqnum.pc, g.numOps⟩ [newOut, lsb]
  (g.opSetOutput subOp w.outVn).opInsertAfter subOp op

/-- What the rule does for a match. -/
def applyWidening (op : OpId) (w : Widening) : Funcdata :=
  let g := f.widenLoad op w
  if w.addForm then g.expandLoadModifyAndComparison w.outVn f.numVarnodes w.elSize w.offset
  else g.cutLoad op w f.numVarnodes

/-- `RuleExpandLoad`. -/
def expandLoad (op : OpId) : Option Funcdata :=
  (f.expandLoadMatch getType op).map (f.applyWidening op)

end Funcdata
end Mosura
