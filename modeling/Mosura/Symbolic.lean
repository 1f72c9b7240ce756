import Mosura.Emu

/-! The constant propagator (`symbolic.rs`), over the memory and the references of a program. -/

namespace Mosura
namespace Symbolic

inductive RefType
  | data | read | write | unconditionalJump | conditionalJump | computedJump
  | conditionalComputedJump | unconditionalCall | conditionalCall | computedCall
  | conditionalComputedCall | callTerminator | computedCallTerminator | indirection | param
  deriving DecidableEq, Repr

namespace RefType

def isCall : RefType → Bool
  | unconditionalCall | conditionalCall | computedCall | conditionalComputedCall
  | callTerminator | computedCallTerminator => true
  | _ => false

def isFlow : RefType → Bool
  | data | read | write | param => false
  | _ => true

def isComputedFlow : RefType → Bool
  | computedJump | conditionalComputedJump | computedCall | conditionalComputedCall
  | computedCallTerminator => true
  | _ => false

end RefType

structure Reference where
  from_ : Address
  to_ : Address
  refType : RefType
  opIndex : ℤ
  deriving DecidableEq, Repr

section References

variable (refs : List Reference)

/-- `ReferenceManager::add`, idempotent. -/
def addReference (r : Reference) : List Reference := if r ∈ refs then refs else refs ++ [r]

def removeReference (from_ to_ : Address) (refType : RefType) : List Reference :=
  refs.filter fun r => ¬ (r.from_ = from_ ∧ r.to_ = to_ ∧ r.refType = refType)

def hasReferenceTo (to_ : Address) : Bool := refs.any fun r => r.to_ = to_

def refsFrom (from_ : Address) : List Reference := refs.filter fun r => r.from_ = from_

end References

/-- A block as `add_block` lays it: from `start` to the address `last`, filled where it has bytes. -/
structure MemoryBlock where
  start : Address
  last : U64
  execute : Bool
  bytes : Option (List (BitVec 8))
  le : start.offset ≤ last
  filled : ∀ b, bytes = some b → b.length = last.toNat - start.offset.toNat + 1

namespace MemoryBlock

def Contains (b : MemoryBlock) (addr : Address) : Prop :=
  addr.space = b.start.space ∧ b.start.offset ≤ addr.offset ∧ addr.offset ≤ b.last

instance (b : MemoryBlock) (addr : Address) : Decidable (b.Contains addr) :=
  inferInstanceAs (Decidable (addr.space = b.start.space ∧ b.start.offset ≤ addr.offset ∧
    addr.offset ≤ b.last))

def byteAt (b : MemoryBlock) (addr : Address) : Option (BitVec 8) :=
  if b.Contains addr then b.bytes.bind (·[(addr.offset - b.start.offset).toNat]?) else none

end MemoryBlock

/-- The memory map, ordered by the start of the blocks. -/
structure Memory where
  blocks : List MemoryBlock
  sorted : blocks.Pairwise fun b c =>
    b.start.space < c.start.space ∨ b.start.space = c.start.space ∧ b.start.offset ≤ c.start.offset

namespace Memory

variable (m : Memory)

def blockAt (addr : Address) : Option MemoryBlock := m.blocks.find? fun b => b.Contains addr

def contains (addr : Address) : Bool := (m.blockAt addr).isSome

def byteAt (addr : Address) : Option (BitVec 8) := (m.blockAt addr).bind (·.byteAt addr)

/-- The byte-at-a-time loop of `read_window`. -/
def readBytes (space : SpaceId) : U64 → ℕ → List (BitVec 8)
  | _, 0 => []
  | offset, n + 1 =>
    match m.byteAt ⟨space, offset⟩ with
    | some b => b :: readBytes space (offset + 1) n
    | none => []

def readWindow (addr : Address) (len : ℕ) : List (BitVec 8) :=
  match m.blockAt addr with
  | some ⟨start, _, _, some bytes, _, _⟩ =>
    let first := (addr.offset - start.offset).toNat
    if first ≤ min (first + len) bytes.length then (bytes.drop first).take len
    else m.readBytes addr.space addr.offset len
  | _ => m.readBytes addr.space addr.offset len

end Memory

/-- The decoded instruction; `body` is its operand text. -/
structure Instruction where
  ops : List Emu.PcodeOp
  mnemonic : String
  body : String

/-- What the walk calls outside its module. -/
structure Host where
  /-- `Spec::disassemble_ctx`, its first instruction. -/
  disassemble : List (BitVec 8) → U64 → Option Instruction
  flowType : List Emu.PcodeOp → U64 → U64 → Option RefType
  dataOperandIndex : String → U64 → Option Bool → ℤ
  integerArgRegisters : List U64

structure Program where
  memory : Memory
  references : List Reference
  bigEndian : Bool
  languageId : String
  addrSizeBits : ℕ
  /-- The length of the instruction the listing has at an address. -/
  listing : Address → Option ℕ

inductive SymValue
  | const (c : U64)
  | unknown
  deriving DecidableEq, Repr

/-- `space_key`: a small id, or the FNV-1a hash of the name with its top bit set. -/
def spaceKey (name : String) : U64 :=
  if name = "const" then 0
  else if name = "register" then 1
  else if name = "unique" then 2
  else if name = "ram" then 3
  else
    name.toUTF8.toList.foldl (fun h b => (h ^^^ b.toBitVec.setWidth 64) * 0x100000001b3#64)
      0xcbf29ce484222325#64 ||| 1#64 <<< 63

def key (v : Emu.Varnode) : U64 × U64 := (spaceKey v.space, v.offset)

structure VarnodeContext where
  state : U64 × U64 → SymValue
  lastSet : U64 × U64 → Option U64

namespace VarnodeContext

def empty : VarnodeContext := ⟨fun _ => .unknown, fun _ => none⟩

variable (vctx : VarnodeContext)

def get (v : Emu.Varnode) : SymValue :=
  if v.space = "const" then .const v.offset else vctx.state (key v)

def putAt (v : Emu.Varnode) (val : SymValue) (at_ : U64) : VarnodeContext :=
  if v.space = "const" then vctx
  else ⟨Function.update vctx.state (key v) val, Function.update vctx.lastSet (key v) (some at_)⟩

def lastSetOf (space : String) (offset : U64) : Option U64 := vctx.lastSet (spaceKey space, offset)

end VarnodeContext

def minKnownRef : U64 := 4
def minSpeculativeRef : U64 := 1024

def isPcMarker (c here instNext : U64) (insnFlow : Option RefType) : Bool :=
  (c = here || c = instNext) && !insnFlow.any RefType.isComputedFlow

/-- The operand `i` of the operation, where it is a location. -/
def argVar (op : Emu.PcodeOp) (i : ℕ) : Option Emu.Varnode := op.ins[i]?.bind Emu.PArg.asVar

/-- A control-flow op carries its target as a `ram` operand, which is no data access. -/
def isFlowOp : OpCode → Bool
  | .branch | .cbranch | .branchind | .call | .callind | .callother | .return => true
  | _ => false

/-- The word these bytes are, in the byte order of the program. -/
def assemble (bigEndian : Bool) (bytes : List (BitVec 8)) : U64 :=
  if bigEndian then bytes.foldl (fun v b => v <<< 8 ||| b.setWidth 64) 0
  else bytes.zipIdx.foldl (fun v (b, i) => v ||| b.setWidth 64 <<< (8 * i)) 0

section Interpreter

/- `ram` is the space of the start address. -/
variable (host : Host) (p : Program) (ram : SpaceId)

def is68000 : Bool := "68000:".toList.isPrefixOf p.languageId.toList

def readMemConst (addr : U64) (size : ℕ) : SymValue :=
  if size = 0 ∨ 8 < size then .unknown
  else
    let bytes := p.memory.readWindow ⟨ram, addr⟩ size
    if bytes.length ≠ size then .unknown else .const (assemble p.bigEndian bytes)

def makeRef (refs : List Reference) (from_ : Address) (toOff : U64) (refType : RefType)
    (least : U64) (known : Bool) (body : String) : List Reference :=
  let to_ : Address := ⟨ram, toOff⟩
  if toOff = 0 ∨ toOff < least then refs
  else if ¬ known ∧ ¬ p.memory.contains to_ ∧ ¬ refType.isFlow ∧ ¬ hasReferenceTo refs to_ then refs
  else
    let access := match refType with
      | .read => some false
      | .write => some true
      | _ => none
    addReference refs ⟨from_, to_, refType, host.dataOperandIndex body toOff access⟩

/-- `add_param_references`, one argument register. -/
def addParamReference (vctx : VarnodeContext) (callOffset : U64) (refs : List Reference)
    (regOff : U64) : List Reference :=
  match vctx.get ⟨"register", regOff, 8⟩, vctx.lastSetOf "register" regOff with
  | .const val, some setAt =>
    if val = callOffset ∨ val < minKnownRef ∨ ¬ p.memory.contains ⟨ram, val⟩ then refs
    else addReference (removeReference refs ⟨ram, setAt⟩ ⟨ram, val⟩ .data)
      ⟨⟨ram, setAt⟩, ⟨ram, val⟩, .param, -1⟩
  | _, _ => refs

/-- The argument registers of the walk: none where an address has at most 16 bits. -/
def argRegs : List U64 := if p.addrSizeBits ≤ 16 then [] else host.integerArgRegisters

def addParamReferences (vctx : VarnodeContext) (callOffset : U64) (refs : List Reference) :
    List Reference :=
  (argRegs host p).foldl (addParamReference p ram vctx callOffset) refs

/-- The value the operation gives its output; `none` where it leaves the context alone. -/
def opValue (vctx : VarnodeContext) (op : Emu.PcodeOp) (out : Emu.Varnode) : Option SymValue :=
  let fold2 (f : U64 → U64 → U64) : SymValue :=
    match (argVar op 0).map vctx.get, (argVar op 1).map vctx.get with
    | some (.const x), some (.const y) => .const (Emu.mask (f x y) out.size)
    | _, _ => .unknown
  match op.opcode with
  | .copy => (argVar op 0).map fun v =>
    if v.space = "ram" then readMemConst p ram v.offset out.size else vctx.get v
  | .load =>
    match (argVar op 1).map vctx.get with
    | some (.const addr) => some (readMemConst p ram addr out.size)
    | _ => some .unknown
  | .store | .callind | .branchind => none
  | .intAdd => some (fold2 (· + ·))
  | .intSub => some (fold2 (· - ·))
  | .intAnd => some (fold2 (· &&& ·))
  | .intOr => some (fold2 (· ||| ·))
  | .intZext => some (((argVar op 0).map vctx.get).getD .unknown)
  | .intSext =>
    match argVar op 0 with
    | none => some .unknown
    | some v =>
      match vctx.get v with
      | .unknown => some .unknown
      | .const c =>
        if v.size < 8 then
          let sign := 1#64 <<< (8 * v.size - 1)
          let c := c &&& (sign <<< 1 - 1#64)
          some (.const (Emu.mask ((c ^^^ sign) - sign) out.size))
        else some (.const c)
  | _ => some .unknown

/-- The context after the operation. -/
def propagate (vctx : VarnodeContext) (op : Emu.PcodeOp) (at_ : U64) : VarnodeContext :=
  match op.out with
  | none => vctx
  | some out =>
    match opValue p ram vctx op out with
    | none => vctx
    | some val => vctx.putAt out val at_

/-- The reference of one literal operand: an address that is read, or a constant that is one. -/
def operandRef (here : Address) (instNext : U64) (opcode : OpCode) (insnFlow : Option RefType)
    (body : String) (refs : List Reference) : Emu.PArg → List Reference
  | .var v =>
    let constIsData := opcode ≠ .store ∧ ¬ is68000 p
    if v.space = "ram" then makeRef host p ram refs here v.offset .read minKnownRef true body
    else if v.space = "const" ∧ constIsData ∧
        ¬ isPcMarker v.offset here.offset instNext insnFlow then
      makeRef host p ram refs here v.offset .data minSpeculativeRef false body
    else refs
  | .space _ => refs

/-- The references of the literal operands. -/
def operandRefs (here : Address) (instNext : U64) (op : Emu.PcodeOp) (insnFlow : Option RefType)
    (body : String) (refs : List Reference) : List Reference :=
  if isFlowOp op.opcode then refs
  else
    let refs := op.ins.foldl (operandRef host p ram here instNext op.opcode insnFlow body) refs
    match op.out with
    | some out =>
      if out.space = "ram" then makeRef host p ram refs here out.offset .write minKnownRef true body
      else refs
    | none => refs

/-- The target of an indirect call or branch: the slot of a `ram` operand is read from the image. -/
def indirectTarget (vctx : VarnodeContext) (op : Emu.PcodeOp) : Option U64 :=
  match (argVar op 0).map fun t =>
    if t.space = "ram" then readMemConst p ram t.offset t.size else vctx.get t with
  | some (.const target) => some target
  | _ => none

/-- The reference of an indirect flow, typed by the flow of its instruction. -/
def indirectRefs (here : Address) (vctx : VarnodeContext) (op : Emu.PcodeOp)
    (insnFlow : Option RefType) (body : String) (refs : List Reference) : List Reference :=
  match indirectTarget p ram vctx op, insnFlow with
  | some target, some rt => makeRef host p ram refs here target rt minKnownRef true body
  | _, _ => refs

/-- The reference of an access through a pointer, or of an indirect flow. -/
def accessRefs (here : Address) (vctx : VarnodeContext) (op : Emu.PcodeOp)
    (insnFlow : Option RefType) (body : String) (refs : List Reference) : List Reference :=
  match op.opcode with
  | .load =>
    match (argVar op 1).map vctx.get with
    | some (.const addr) => makeRef host p ram refs here addr .read minKnownRef true body
    | _ => refs
  | .store =>
    match (argVar op 1).map vctx.get with
    | some (.const addr) => makeRef host p ram refs here addr .write minKnownRef true body
    | _ => refs
  | .callind | .branchind => indirectRefs host p ram here vctx op insnFlow body refs
  | _ => refs

/-- A resolved computed call whose destination is executable. -/
def callDest (vctx : VarnodeContext) (op : Emu.PcodeOp) (insnFlow : Option RefType) : List U64 :=
  if op.opcode = .callind ∨ op.opcode = .branchind then
    match indirectTarget p ram vctx op, insnFlow with
    | some target, some rt =>
      if rt.isCall ∧ minKnownRef ≤ target ∧ (p.memory.blockAt ⟨ram, target⟩).any (·.execute) then
        [target]
      else []
    | _, _ => []
  else []

/-- What the walk carries through the operations of one instruction. -/
structure Pass where
  refs : List Reference
  vctx : VarnodeContext
  callDests : List U64
  falls : Bool
  branchTargets : List U64

def processOp (here : Address) (instNext : U64) (insnFlow : Option RefType) (body : String)
    (s : Pass) (op : Emu.PcodeOp) : Pass :=
  { s with
    refs := accessRefs host p ram here s.vctx op insnFlow body
      (operandRefs host p ram here instNext op insnFlow body s.refs)
    vctx := propagate p ram s.vctx op here.offset
    callDests := s.callDests ++ callDest p ram s.vctx op insnFlow }

def ramBranchTarget (op : Emu.PcodeOp) : Option U64 :=
  (argVar op 0).bind fun v => if v.space = "ram" then some v.offset else none

/-- The references of the arguments, before a call. -/
def paramRefs (s : Pass) (op : Emu.PcodeOp) : List Reference :=
  match op.opcode with
  | .call => addParamReferences host p ram s.vctx ((ramBranchTarget op).getD 0) s.refs
  | .callind =>
    let callOff := match (argVar op 0).map s.vctx.get with
      | some (.const c) => c
      | _ => 0
    addParamReferences host p ram s.vctx callOff s.refs
  | _ => s.refs

/-- Where control may go after the operation; a computed jump flows to its references. -/
def followFlow (here : Address) (s : Pass) (op : Emu.PcodeOp) : Pass :=
  match op.opcode with
  | .branch =>
    { s with falls := false, branchTargets := s.branchTargets ++ (ramBranchTarget op).toList }
  | .cbranch => { s with branchTargets := s.branchTargets ++ (ramBranchTarget op).toList }
  | .return => { s with falls := false }
  | .branchind =>
    { s with
      falls := false
      branchTargets := s.branchTargets ++ (refsFrom s.refs here).filterMap fun r =>
        if r.refType = .computedJump ∨ r.refType = .conditionalComputedJump then some r.to_.offset
        else none }
  | _ => s

/-- The loop body of the walk over the operations of one instruction. -/
def visitOp (here : Address) (instNext : U64) (insnFlow : Option RefType) (body : String)
    (s : Pass) (op : Emu.PcodeOp) : Pass :=
  followFlow here
    (processOp host p ram here instNext insnFlow body
      { s with refs := paramRefs host p ram s op } op) op

def hasMnemonic (insn : Instruction) (name : String) : Bool :=
  insn.mnemonic.toList.map Char.toLower = name.toList

/-- The value `pea` pushes and the register `lea` sets: the locations `evaluateContext` looks at. -/
def evaluated (insn : Instruction) : Option Emu.Varnode :=
  if hasMnemonic insn "pea" then
    (insn.ops.reverse.find? fun o => o.opcode = .store).bind fun o => argVar o 2
  else if hasMnemonic insn "lea" then
    (insn.ops.getLast?.bind Emu.PcodeOp.out).filter fun o => o.space = "register"
  else none

/-- The text before the top-level comma. -/
def operand0 : ℤ → List Char → List Char
  | _, [] => []
  | depth, c :: cs =>
    let depth := if c = '(' then depth + 1 else if c = ')' then depth - 1 else depth
    if c = ',' ∧ depth = 0 then [] else c :: operand0 depth cs

/-- The round and mask-like values `pea` is not taken to push an address with. -/
def skipValues : List U64 :=
  [0xffff, 0xff00, 0xffffff, 0xff0000, 0xff00ff, 0xffffffff, 0xffffff00, 0xffff0000, 0xff000000]

def motorola68kEvaluateContext (here : Address) (vctx : VarnodeContext) (insn : Instruction)
    (refs : List Reference) : List Reference :=
  match (evaluated insn).map vctx.get with
  | some (.const c) =>
    let lval := c &&& 0xffffffff#64
    let target : Address := ⟨ram, lval⟩
    let pea := hasMnemonic insn "pea"
    let pcRelative := ¬ pea ∧ ['P', 'C'] <:+: operand0 0 insn.body.toList
    if pea ∧ (lval ≤ 4096 ∨ lval % 1024 = 0 ∨ lval ∈ skipValues) then refs
    else if ¬ (4096 < lval ∧ p.memory.contains target ∨ pcRelative) then refs
    else if (refsFrom refs here).any fun r => r.opIndex = 0 then refs
    else addReference refs ⟨here, target, .data, 0⟩
  | _ => refs

/-- The state of the walk: `work` is a stack, its top first. -/
structure Walk where
  refs : List Reference
  visited : List U64
  work : List (U64 × VarnodeContext)
  callDests : List U64

/-- The instruction the listing has at an address, decoded, and its length. -/
def decode (a : U64) : Option (Instruction × U64) := do
  let length ← p.listing ⟨ram, a⟩
  let ilen := BitVec.ofNat 64 length
  if ilen = 0 then none
  let insn ← host.disassemble (p.memory.readWindow ⟨ram, a⟩ ilen.toNat) a
  return (insn, ilen)

/-- The walk over one instruction: its operations, then the processor's own evaluator. -/
def interpret (a : U64) (insn : Instruction) (ilen : U64) (vctx : VarnodeContext)
    (refs : List Reference) (callDests : List U64) : Pass :=
  let here : Address := ⟨ram, a⟩
  let insnFlow := host.flowType insn.ops a (a + ilen)
  let s := insn.ops.foldl (visitOp host p ram here (a + ilen) insnFlow insn.body)
    ⟨refs, vctx, callDests, true, []⟩
  if is68000 p then { s with refs := motorola68kEvaluateContext p ram here s.vctx insn s.refs }
  else s

/-- The loop body of `flow_constants`. -/
def flowStep (start : U64) (entries : U64 → Bool) (w : Walk) : Walk :=
  match w.work with
  | [] => w
  | (a, vctx) :: work =>
    if a ∈ w.visited then { w with work }
    else
      let w := { w with work, visited := a :: w.visited }
      if a ≠ start ∧ entries a then w
      else
        match decode host p ram a with
        | none => w
        | some (insn, ilen) =>
          let s := interpret host p ram a insn ilen vctx w.refs w.callDests
          let targets := (s.branchTargets.filter (· ∉ w.visited)).map (·, s.vctx)
          let fall := if s.falls ∧ a + ilen ∉ w.visited then [(a + ilen, s.vctx)] else []
          { w with
            refs := s.refs
            callDests := s.callDests
            work := fall ++ targets.reverse ++ w.work }

/-- The walk after `n` rounds of its loop, which ends when no work is left. -/
def flowConstants (start : U64) (entries : U64 → Bool) (n : ℕ) : Walk :=
  (flowStep host p ram start entries)^[n] ⟨p.references, [], [(start, .empty)], []⟩

/-- The destinations `flow_constants` returns, sorted and without repetition. -/
def Walk.destinations (w : Walk) : List U64 := (w.callDests.mergeSort fun a b => a ≤ b).dedup

end Interpreter
end Symbolic
end Mosura
