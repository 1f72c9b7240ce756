import Mosura.Emu

/-! The p-code of one instruction from its constructor tree (`sleigh/engine.rs`: `build_into`). -/

namespace Mosura
namespace Sleigh
open Emu

inductive ConstTpl
  | real (v : U64) | spaceId (v : U64) | handle (index : ℤ) (sel : ℕ) (plus : U64)
  | relative (id : U64) | start | next | next2 | curSpace | curSpaceSize
  deriving DecidableEq, Repr

structure VarnodeTpl where
  space : ConstTpl
  offset : ConstTpl
  size : ConstTpl
  deriving DecidableEq, Repr

structure OpTpl where
  opcode : ℕ
  output : Option VarnodeTpl
  inputs : List VarnodeTpl
  deriving DecidableEq, Repr

/-! The opcodes that templates alias. -/

def opLoad : ℕ := 2
def opStore : ℕ := 3
def opBranch : ℕ := 4
def opCbranch : ℕ := 5
def opCall : ℕ := 7
def opBuild : ℕ := 60
def opDelaySlot : ℕ := 61
def opLabelBuild : ℕ := 65
def opCrossBuild : ℕ := 66

namespace OpTpl

/-- The label a LABELBUILD sets. -/
def labelId (op : OpTpl) : Option U64 :=
  if op.opcode = opLabelBuild then
    match op.inputs.head?.map VarnodeTpl.offset with
    | some (.real id) => some id
    | _ => none
  else none

/-- The label a branch refers to. -/
def relativeId (op : OpTpl) : Option U64 :=
  match op.inputs.head?.map VarnodeTpl.offset with
  | some (.relative id) => some id
  | _ => none

end OpTpl

structure HandleTpl where
  space : ConstTpl
  size : ConstTpl
  ptrspace : ConstTpl
  ptroffset : ConstTpl
  ptrsize : ConstTpl
  tempspace : ConstTpl
  tempoffset : ConstTpl

/-- A template declares `numlabels` labels: every id in it is one of these, and a label has one
place. -/
structure ConstructTpl where
  ops : List OpTpl
  numlabels : ℕ
  result : Option HandleTpl
  label_lt : ∀ op ∈ ops, ∀ id, op.labelId = some id → id.toNat < numlabels
  relative_lt : ∀ op ∈ ops, ∀ id, op.relativeId = some id → id.toNat < numlabels
  label_nodup : (ops.filterMap OpTpl.labelId).Nodup

/-- A dynamic operand's pointer: the space pointed into, and the pointer varnode. -/
structure Ptr where
  valueSpace : U64
  space : U64
  offset : U64
  size : U64

structure Handle where
  space : U64
  offset : U64
  size : U64
  ptr : Option Ptr

mutual
/-- A resolved constructor instance; `length` counts from `offset`. -/
inductive Node
  | mk (subtable ctorIdx offset length : ℕ) (operands : List OpNode)
inductive OpNode
  | sub (node : Node)
  | leaf (sym offset length : ℕ)
  | expr (opId offset length : ℕ)
end

def Node.length : Node → ℕ
  | .mk _ _ _ length _ => length

inductive BranchDest
  | other | start | next
  deriving DecidableEq, Repr

structure PcodeOp where
  opcode : ℕ
  out : Option Emu.Varnode
  ins : List PArg
  dest : BranchDest
  deriving DecidableEq, Repr

/-- A walker over one instruction, which stands at `pos` of the chunk. -/
structure Walker (C : Type) where
  pos : ℕ
  buf : List (BitVec 8)
  addr : U64
  context : C
  next : U64

/-- The walker `len` bytes on. -/
def Walker.ahead {C : Type} (w : Walker C) (len : ℕ) : Walker C :=
  ⟨w.pos + len, w.buf.drop len, w.addr + BitVec.ofNat 64 len, w.context, 0⟩

/-- What a language's tables say. -/
structure Spec (C : Type) where
  /-- The template of a constructor. -/
  tmpl : ℕ → ℕ → Option ConstructTpl
  /-- The tree of the root subtable, and the context its constructors leave. -/
  resolve : List (BitVec 8) → U64 → C → Option (Node × C)
  leafHandle : ℕ → ℕ → Node → Walker C → Option Handle
  /-- The value and the width of an operand's expression. -/
  exprValue : ℕ → ℕ → Node → Walker C → U64 × U64
  defaultSpace : U64
  defaultSpaceSize : U64
  uniqueSpace : U64
  spaceName : U64 → String
  wrapOffset : U64 → U64 → U64

namespace Spec

variable {C : Type} (s : Spec C)

def ctorOf : Node → Option ConstructTpl
  | .mk subtable ctorIdx _ _ _ => s.tmpl subtable ctorIdx

/-- `resolve_const_h`, over the handles of the operands. -/
def resolveConst (handles : ℕ → Option Handle) (w : Walker C) : ConstTpl → Option U64
  | .real v | .spaceId v => some v
  | .curSpace => some s.defaultSpace
  | .curSpaceSize => some s.defaultSpaceSize
  | .start => some w.addr
  | .next => some w.next
  | .next2 | .relative _ => none
  | .handle index sel plus => do
    let h ← if index < 0 then none else handles index.toNat
    match sel with
    | 0 => some h.space
    | 1 => some h.offset
    | 2 => some h.size
    -- a truncation: bytes into a varnode, or a shift of a constant
    | 3 =>
      some (if h.space ≠ 0 then h.offset + (plus &&& 0xffff)
        else h.offset >>> (8 * (plus >>> 16).toNat))
    | _ => none

/-- The handle a constructor exports: static, or dynamic through a pointer. -/
def exported (handles : ℕ → Option Handle) (w : Walker C) (h : HandleTpl) : Option Handle := do
  let const := s.resolveConst handles w
  let size ← const h.size
  let ptrSpace ← match h.ptrspace with
    | .real _ => some 0
    | other => const other
  if ptrSpace = 0 then
    return ⟨← const h.space, ← const h.ptroffset, size, none⟩
  else
    return ⟨← const h.tempspace, ← const h.tempoffset, size,
      some ⟨← const h.space, ptrSpace, ← const h.ptroffset, ← const h.ptrsize⟩⟩

mutual
def exportedHandle (w : Walker C) : Node → Option Handle
  | node@(.mk subtable ctorIdx _ _ operands) => do
    let tmpl ← s.tmpl subtable ctorIdx
    let result ← tmpl.result
    let handles := operandHandles w node operands
    s.exported (fun i => (handles[i]?).join) w result
/-- `operand_handle` of each operand. -/
def operandHandles (w : Walker C) (node : Node) : List OpNode → List (Option Handle)
  | [] => []
  | .sub sub :: rest => exportedHandle w sub :: operandHandles w node rest
  | .leaf sym offset _ :: rest => s.leafHandle sym offset node w :: operandHandles w node rest
  | .expr opId offset _ :: rest =>
    let v := s.exprValue opId offset node w
    some ⟨0, v.1, v.2, none⟩ :: operandHandles w node rest
end

def handles (node : Node) (w : Walker C) (i : ℕ) : Option Handle :=
  match node with
  | .mk _ _ _ _ operands => (s.operandHandles w node operands)[i]?.join

section Ops

variable (handles : ℕ → Option Handle) (w : Walker C)

/-- `varnode_h`: constants are cut to their size, addresses are wrapped into their space. -/
def varnode (v : VarnodeTpl) : Option Emu.Varnode := do
  let space ← s.resolveConst handles w v.space
  let offset ← s.resolveConst handles w v.offset
  let size ← s.resolveConst handles w v.size
  let offset :=
    if space = 0 then
      if 1 ≤ size.toNat ∧ size.toNat < 8 then offset &&& ((1#64 <<< (size.toNat * 8)) - 1#64)
      else offset
    else if space ≠ s.uniqueSpace then s.wrapOffset space offset
    else offset
  return ⟨s.spaceName space, offset, size.toNat % 2 ^ 32⟩

/-- The pointer of a varnode whose offset is a dynamic operand. -/
def dynamicPtr (v : VarnodeTpl) : Option Ptr :=
  match v.offset with
  | .handle index _ _ => do (← if index < 0 then none else handles index.toNat).ptr
  | _ => none

def ptrVarnode (p : Ptr) : Emu.Varnode := ⟨s.spaceName p.space, p.offset, p.size.toNat % 2 ^ 32⟩

/-- One input of `op_pcode`: what it loads first, and the argument. -/
def opInput (opcode i : ℕ) (inp : VarnodeTpl) : Option (List PcodeOp × PArg) :=
  if (opcode = opLoad ∨ opcode = opStore) ∧ i = 0 then do
    return ([], .space (s.spaceName (← s.resolveConst handles w inp.offset)))
  else
    match dynamicPtr handles inp with
    | some ptr => do
      let temp ← s.varnode handles w inp
      return ([⟨opLoad, some temp,
        [.space (s.spaceName ptr.valueSpace), .var (s.ptrVarnode ptr)], .other⟩], .var temp)
    | none => do return ([], .var (← s.varnode handles w inp))

/-- The template kind of a branch destination. -/
def destOf (op : OpTpl) : BranchDest :=
  if op.opcode = opBranch ∨ op.opcode = opCbranch ∨ op.opcode = opCall then
    match op.inputs.head?.map VarnodeTpl.offset with
    | some .start => .start
    | some .next => .next
    | _ => .other
  else .other

/-- `op_pcode`: the operations of a template operation, with the loads and the store around it. -/
def opPcode (op : OpTpl) : Option (List PcodeOp) := do
  let inputs ← op.inputs.zipIdx.mapM fun x => s.opInput handles w op.opcode x.2 x.1
  let loads := inputs.flatMap Prod.fst
  let ins := inputs.map Prod.snd
  match op.output with
  | some out =>
    let o ← s.varnode handles w out
    match dynamicPtr handles out with
    | some ptr =>
      return loads ++ [⟨op.opcode, some o, ins, .other⟩, ⟨opStore, none,
        [.space (s.spaceName ptr.valueSpace), .var (s.ptrVarnode ptr), .var o], .other⟩]
    | none => return loads ++ [⟨op.opcode, some o, ins, .other⟩]
  | none => return loads ++ [⟨op.opcode, none, ins, destOf op⟩]

/-- What `build_into` does at one operation of a template. -/
inductive Directive
  | build (idx : U64)
  | delaySlot
  | label (id : U64)
  | skip
  | branch (id : U64) (size : ℕ) (op : PcodeOp)
  /-- A branch to a label one of whose other inputs does not resolve: the expansion returns. -/
  | stop
  | emit (ops : List PcodeOp)

def directive (op : OpTpl) : Directive :=
  if op.opcode = opBuild then
    .build ((op.inputs.head?.bind fun v => s.resolveConst handles w v.offset).getD 0)
  else if op.opcode = opDelaySlot then .delaySlot
  else if op.opcode = opLabelBuild then
    match op.labelId with
    | some id => .label id
    | none => .skip
  else if op.opcode = opCrossBuild then .skip
  else
    match op.relativeId, s.opPcode handles w op with
    | some id, _ =>
      let size := ((op.inputs.head?.bind fun v => s.resolveConst handles w v.size).getD 4).toNat %
        2 ^ 32
      match op.inputs.tail.mapM (s.varnode handles w) with
      | some rest =>
        .branch id size
          ⟨op.opcode, none, .var ⟨s.spaceName 0, 0, size⟩ :: rest.map PArg.var, .other⟩
      | none => .stop
    | none, some ops => .emit ops
    | none, none => .emit [⟨op.opcode, none, [], .other⟩]

end Ops

end Spec

/-! `Labels` and the operations so far. -/

/-- What happened in an expansion; nothing of the code reads this. The expansions are numbered in
the order they begin. -/
structure Trace where
  /-- The labels each expansion owns. -/
  blocks : List ℕ := []
  /-- A label of an expansion, and the index of the operation it stands before. -/
  labels : List (ℕ × ℕ × ℕ) := []
  /-- A branch of an expansion: the label it names, its own index and the operand's width. -/
  branches : List (ℕ × ℕ × ℕ × ℕ) := []
  /-- The label base before an expansion and after it. -/
  exits : List (ℕ × ℕ) := []
  /-- Where the instructions stand that are inlined from a delay slot. -/
  inlined : List ℕ := []

structure Build where
  ops : List PcodeOp := []
  base : ℕ := 0
  count : ℕ := 0
  at_ : ℕ → Option ℕ := fun _ => none
  refs : List (ℕ × ℕ × ℕ) := []
  trace : Trace := {}

namespace Build

variable (b : Build)

/-- An expansion owns a fresh block of label ids. -/
def enter (numlabels : ℕ) : Build :=
  { b with
    base := b.count
    count := b.count + numlabels
    trace := { b.trace with blocks := b.trace.blocks ++ [numlabels] } }

/-- The end of an expansion that found the base `old` and leaves `base`. -/
def leave (old base : ℕ) : Build :=
  { b with base := base, trace := { b.trace with exits := b.trace.exits ++ [(old, base)] } }

/-- The label stands in front of the next operation. -/
def define (inst id : ℕ) : Build :=
  { b with
    at_ := Function.update b.at_ (id + b.base) (some b.ops.length)
    trace := { b.trace with labels := b.trace.labels ++ [(inst, id, b.ops.length)] } }

def branch (inst id size : ℕ) (op : PcodeOp) : Build :=
  { b with
    ops := b.ops ++ [op]
    refs := b.refs ++ [(b.ops.length, id + b.base, size)]
    trace := { b.trace with branches := b.trace.branches ++ [(inst, id, b.ops.length, size)] } }

def emit (ops : List PcodeOp) : Build := { b with ops := b.ops ++ ops }

def inline (pos : ℕ) : Build :=
  { b with trace := { b.trace with inlined := b.trace.inlined ++ [pos] } }

/-- A relative displacement, cut to the operand's width. -/
def displacement (target index size : ℕ) : U64 :=
  let rel := BitVec.ofInt 64 ((target : ℤ) - index)
  if 1 ≤ size ∧ size < 8 then rel &&& ((1#64 <<< (size * 8)) - 1#64) else rel

/-- The branch at `index` once its label is known; without one it has no operands. -/
def patch (target : Option ℕ) (index size : ℕ) (op : PcodeOp) : PcodeOp :=
  match target with
  | none => { op with ins := [] }
  | some target =>
    match op.ins with
    | .var v :: rest => { op with ins := .var { v with offset := displacement target index size } :: rest }
    | _ => op

/-- `Labels::resolve` -/
def resolve : List PcodeOp :=
  b.refs.foldl (fun ops r => ops.modify r.1 (patch (b.at_ r.2.1) r.1 r.2.2)) b.ops

end Build

namespace Spec

variable {C : Type} (s : Spec C)

/-- The expansion of a tree or of an instruction in a delay slot. -/
abbrev Builder (C : Type) := Walker C → Build → Build

/-- One operation of a template; `error` is the return in the middle of the template. -/
def buildOp (node : Node) (subs : List (Option (Builder C))) (slot : Builder C) (inst : ℕ)
    (w : Walker C) (b : Build) (op : OpTpl) : Except Build Build :=
  match s.directive (s.handles node w) w op with
  | .build idx =>
    match subs[idx.toNat]? with
    | some (some sub) => .ok (sub w b)
    | _ => .ok b
  | .delaySlot =>
    let len := max 1 node.length
    if len < w.buf.length then .ok (slot (w.ahead len) b) else .ok b
  | .label id => .ok (b.define inst id.toNat)
  | .skip => .ok b
  | .branch id size op => .ok (b.branch inst id.toNat size op)
  | .stop => .error b
  | .emit ops => .ok (b.emit ops)

/-- `build_into`, over the expansions of the operands and of a delay slot. -/
def buildInto (node : Node) (subs : List (Option (Builder C))) (slot : Builder C) : Builder C :=
  fun w b =>
    match s.ctorOf node with
    | none => b
    | some tmpl =>
      match tmpl.ops.foldlM (s.buildOp node subs slot b.trace.blocks.length w)
        (b.enter tmpl.numlabels) with
      | .ok b' => b'.leave b.base b.base
      | .error b' => b'.leave b.base b'.base

mutual
def buildNode (slot : Builder C) : Node → Builder C
  | .mk subtable ctorIdx offset length operands =>
    s.buildInto (.mk subtable ctorIdx offset length operands) (buildOperands slot operands) slot
def buildOperands (slot : Builder C) : List OpNode → List (Option (Builder C))
  | [] => []
  | .sub node :: rest => some (buildNode slot node) :: buildOperands slot rest
  | .leaf _ _ _ :: rest => none :: buildOperands slot rest
  | .expr _ _ _ :: rest => none :: buildOperands slot rest
end

/-- The instruction in a delay slot; the first argument bounds the slots in slots. -/
def buildSlot : ℕ → Builder C
  | 0, _, b => b
  | k + 1, w, b =>
    match s.resolve w.buf w.addr w.context with
    | some (node, context) =>
      s.buildNode (buildSlot k) node
        { w with context, next := w.addr + BitVec.ofNat 64 (max 1 node.length) } (b.inline w.pos)
    | none => b

/-- The expansion of a whole instruction. -/
def expand (node : Node) (w : Walker C) : Build := s.buildNode (s.buildSlot w.buf.length) node w {}

def buildPcodeNode (node : Node) (w : Walker C) : List PcodeOp := (s.expand node w).resolve

end Spec
end Sleigh
end Mosura
