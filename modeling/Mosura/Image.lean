import Mosura.Emu

/-! Code decoded on demand and run under a step budget (`emu.rs`: `Image`). -/

namespace Mosura
namespace Emu

/-- One instruction as the disassembler gives it; a cut one is padded with zeros. -/
structure Instruction where
  address : U64
  bytes : List (BitVec 8)
  mnemonic : String
  body : String
  ops : List PcodeOp

namespace Instruction

/-- The fall-through address. -/
def next (insn : Instruction) : U64 := insn.address + BitVec.ofNat 64 insn.bytes.length

def calls (insn : Instruction) : Bool :=
  insn.ops.any fun o => o.opcode = .call || o.opcode = .callind

end Instruction

/-- One decoded instruction; `K` are the instructions the language's state modifier adjusts. -/
structure Decoded (K : Type) where
  ops : List PcodeOp
  next : U64
  calls : Bool
  adjust : Option K

/-- The language: `disassemble_ctx` under the image's context, and the modifier's `classify`. -/
structure Language (K : Type) where
  disassemble : List (BitVec 8) → U64 → List Instruction
  classify : String → List (BitVec 8) → Option K

def Language.decoded {K : Type} (lang : Language K) (insn : Instruction) : Decoded K where
  ops := insn.ops
  next := insn.next
  calls := insn.calls
  adjust := lang.classify insn.mnemonic insn.bytes

def decodeWindow : ℕ := 64

/-- The blocks are ascending, disjoint, not empty, and end within the address space. -/
structure Image (K : Type) where
  blocks : List (U64 × List (BitVec 8))
  base : U64
  decoded : U64 → Option (Decoded K) := fun _ => none
  stackPointer : Option (U64 × ℕ) := none
  addressMask : Option U64 := none
  ascending : blocks.Pairwise fun b c => b.1.toNat + b.2.length ≤ c.1.toNat
  nonempty : ∀ b ∈ blocks, b.2 ≠ []
  fits : ∀ b ∈ blocks, b.1.toNat + b.2.length ≤ 2 ^ 64

namespace Image

variable {K : Type} (lang : Language K) (image : Image K)

/-- The last block that starts at or before `pc`. -/
def blockAt (pc : U64) : Option (U64 × List (BitVec 8)) :=
  (image.blocks.takeWhile fun b => b.1 ≤ pc).getLast?

/-- An instruction is kept unless its address has one already. -/
def keep (decoded : U64 → Option (Decoded K)) (insn : Instruction) : U64 → Option (Decoded K) :=
  if (decoded insn.address).isSome then decoded
  else Function.update decoded insn.address (some (lang.decoded insn))

/-- The instructions of the window at `off` of a block, up to the first one the window cuts. -/
def window (start : U64) (bytes : List (BitVec 8)) (off : ℕ) : List Instruction :=
  let end_ := min (off + decodeWindow) bytes.length
  let windowEnd := start + BitVec.ofNat 64 end_
  (lang.disassemble ((bytes.drop off).take (end_ - off)) (start + BitVec.ofNat 64 off)).takeWhile
    fun insn => !(decide (end_ < bytes.length) && decide (windowEnd < insn.next))

/-- `Image::at`: the instruction at `pc`, from a window decoded at `pc` unless it is there. -/
def at_ (pc : U64) : Image K × Option (Decoded K) :=
  if (image.decoded pc).isSome then (image, image.decoded pc)
  else
    match image.blockAt pc with
    | none => (image, none)
    | some (start, bytes) =>
      let off := (pc - start).toNat
      if bytes.length ≤ off then (image, none)
      else
        let decoded := (window lang start bytes off).foldl (keep lang) image.decoded
        ({ image with decoded := decoded }, decoded pc)

end Image

/-- What `resume` records itself when traced. -/
inductive RunEffect
  | stub (pc : U64)
  | call (target : U64)
  deriving DecidableEq, Repr

/-- The methods of a machine `M` a run uses; `none` is a panic. -/
structure Cpu (M K : Type) where
  /-- A run clears what the machine recorded before, and traces or not. -/
  start : Bool → M → M
  setAt : U64 → ℕ → M → M
  record : RunEffect → M → M
  readRegister : M → U64 → ℕ → Option U64
  writeRegister : M → U64 → ℕ → U64 → Option M
  readArg : M → PArg → Option U64
  step : M → PcodeOp → Option (Flow × M)
  beginAdjusted : K → M → Option (Bool × M)
  endAdjusted : M → Option M

structure RunOptions where
  entry : Option U64 := none
  followCalls : Bool := false
  maxSteps : ℕ := 5000000
  trace : Bool := false
  stubs : U64 → Bool := fun _ => false

inductive Stop
  | returned
  | fault
  | noInstruction (pc : U64)
  | stepCap
  deriving DecidableEq, Repr

/-- What a run leaves behind. -/
structure Run (M : Type) where
  machine : M
  steps : ℕ
  stop : Stop

/-- A call entered and not yet returned from: its fall-through and the stack pointer before it. -/
abbrev Frame := U64 × Option U64

/-- The state of the loop of `resume`; the innermost frame comes first. -/
structure Turn (M K : Type) where
  image : Image K
  m : M
  frames : List Frame
  pc : U64
  steps : ℕ

/-- How the p-code of one instruction ends. -/
inductive InsnExit (M : Type)
  | stop (stop : Stop) (m : M) (steps : ℕ)
  | done (jump : Option U64) (m : M) (frames : List Frame) (steps : ℕ)

def swiVector : U64 := 0xffffff00

namespace Turn

variable {M K : Type} (lang : Language K) (cpu : Cpu M K) (opts : RunOptions)

/-- `(i as i64 + d).max(0)`: a backward branch clamps at op 0. -/
def relIndex (i : ℕ) (d : U64) : Option ℕ :=
  let j := (i : ℤ) + d.toInt
  if -2 ^ 63 ≤ j ∧ j < 2 ^ 63 then some (max j 0).toNat else none

def onBus (mask : Option U64) (address : U64) : U64 := mask.elim address (address &&& ·)

/-- The stack pointer is put back, where the image names one and the frame has kept it. -/
def restoreStack (stack : Option (U64 × ℕ)) (sp : Option U64) (m : M) : Option M :=
  match stack, sp with
  | some (off, size), some sp => cpu.writeRegister m off size sp
  | _, _ => some m

/-- The target of a call, read only where it is needed. -/
def callTarget (m : M) (op : PcodeOp) : Option (Option U64) :=
  if opts.followCalls || opts.trace then
    match op.ins.head? with
    | some (.var v) =>
      if op.opcode = .call && !v.isConst then some (some v.offset)
      else (cpu.readArg m (.var v)).map some
    | some arg => (cpu.readArg m arg).map some
    | none => some (some 0)
  else some none

/-- The inner loop of `resume`: the ops of one instruction from op `i` on. `left` is what is left of
the budget, and every op costs one step of it. -/
def insnLoop (image : Image K) (insn : Decoded K) (pc : U64) (spAtCall : Option U64) :
    (left i : ℕ) → M → List Frame → (steps : ℕ) → Option (InsnExit M)
  | left, i, m, frames, steps =>
    match insn.ops[i]? with
    | none => some (.done none m frames steps)
    | some op =>
      match left with
      | 0 => some (.stop .stepCap m steps)
      | left + 1 => do
        let m := cpu.setAt pc (steps + 1) m
        if op.opcode = .call || op.opcode = .callind then
          let target ← callTarget cpu opts m op
          let interrupt := target.any fun t => t &&& ~~~0xff#64 = swiVector
          let target := if interrupt then target else target.map (onBus image.addressMask)
          let m := if opts.trace && !interrupt then cpu.record (.call (target.getD 0)) m else m
          if opts.followCalls && !interrupt then
            return .done target m ((insn.next, spAtCall) :: frames) (steps + 1)
          else
            let m ← restoreStack cpu image.stackPointer spAtCall m
            insnLoop image insn pc spAtCall left (i + 1) m frames (steps + 1)
        else if opts.followCalls && op.opcode = .return then
          match frames with
          | [] => return .stop .returned m (steps + 1)
          | _ :: frames =>
            let target ← op.ins.head?.elim (some 0) (cpu.readArg m)
            return .done (some target) m frames (steps + 1)
        else
          let (flow, m) ← cpu.step m op
          match flow with
          | .next => insnLoop image insn pc spAtCall left (i + 1) m frames (steps + 1)
          | .rel d =>
            let j ← relIndex i d
            insnLoop image insn pc spAtCall left j m frames (steps + 1)
          | .jump target => return .done (some target) m frames (steps + 1)
          | .stop => return .stop .returned m (steps + 1)
          | .fault => return .stop .fault m (steps + 1)

/-- The stack pointer before a call. -/
def stackAtCall (t : Turn M K) (insn : Decoded K) : Option (Option U64) :=
  match insn.calls, t.image.stackPointer with
  | true, some (off, size) => (cpu.readRegister t.m off size).map some
  | _, _ => some none

/-- The p-code of `insn` runs, and the next turn begins where it leads. -/
def body (t : Turn M K) (insn : Decoded K) : Option (Turn M K ⊕ Run M) := do
  let spAtCall ← stackAtCall cpu t insn
  match ← insnLoop cpu opts t.image insn t.pc spAtCall (opts.maxSteps - t.steps) 0 t.m t.frames
      t.steps with
  | .stop stop m steps => return .inr ⟨m, steps, stop⟩
  | .done jump m frames steps =>
    let m ← cpu.endAdjusted m
    return .inl { t with m := m, frames := frames, pc := jump.getD insn.next, steps := steps }

/-- A stub returns to the innermost frame at once. -/
def stub (t : Turn M K) : Option (Turn M K ⊕ Run M) :=
  if opts.maxSteps ≤ t.steps then some (.inr ⟨t.m, t.steps, .stepCap⟩)
  else
    let m := cpu.setAt t.pc (t.steps + 1) t.m
    let m := if opts.trace then cpu.record (.stub t.pc) m else m
    match t.frames with
    | [] => some (.inr ⟨m, t.steps + 1, .returned⟩)
    | (ret, sp) :: frames => do
      let m ← restoreStack cpu t.image.stackPointer sp m
      return .inl { t with m := m, frames := frames, pc := ret, steps := t.steps + 1 }

/-- `insn` is executed: whole by the state modifier, or by its p-code. -/
def execute (t : Turn M K) (insn : Decoded K) : Option (Turn M K ⊕ Run M) :=
  match insn.adjust with
  | none => t.body cpu opts insn
  | some k =>
    if opts.maxSteps ≤ t.steps then some (.inr ⟨t.m, t.steps, .stepCap⟩)
    else do
      let (whole, m) ← cpu.beginAdjusted k (cpu.setAt t.pc (t.steps + 1) t.m)
      if whole then return .inl { t with m := m, pc := insn.next, steps := t.steps + 1 }
      else body cpu opts { t with m := m } insn

/-- The turn with its program counter on the bus. -/
def fetched (t : Turn M K) : Turn M K := { t with pc := onBus t.image.addressMask t.pc }

/-- The turn with the instruction at its program counter decoded. -/
def decodedAt (t : Turn M K) : Turn M K := { t with image := (t.image.at_ lang t.pc).1 }

/-- One turn of the loop of `resume`: the next turn, or the run that ended. -/
def turn (t : Turn M K) : Option (Turn M K ⊕ Run M) :=
  let t := t.fetched
  if opts.stubs t.pc then t.stub cpu opts
  else
    match (t.image.at_ lang t.pc).2 with
    | none => some (.inr ⟨t.m, t.steps, .noInstruction t.pc⟩)
    | some insn => (t.decodedAt lang).execute cpu opts insn

/-- `n` turns of the loop. -/
def turns : ℕ → Turn M K → Option (Turn M K ⊕ Run M)
  | 0, t => some (.inl t)
  | n + 1, t => do
    match ← turns n t with
    | .inl t => t.turn lang cpu opts
    | .inr run => return .inr run

/-- Where `resume` starts. -/
def resume (image : Image K) (m : M) : Turn M K where
  image := image
  m := cpu.start opts.trace m
  frames := []
  pc := opts.entry.getD image.base
  steps := 0

end Turn
end Emu
end Mosura
