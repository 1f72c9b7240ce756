import Mosura.Pcode

/-! The p-code interpreter (`emu.rs`): a byte-addressable machine and one step of it. -/

namespace Mosura
namespace Emu

/-- A slice of an address space. -/
structure Varnode where
  space : String
  offset : U64
  size : ℕ
  deriving DecidableEq, Repr

def Varnode.isConst (v : Varnode) : Bool := v.space == "const"

inductive PArg
  | var (v : Varnode)
  | space (name : String)
  deriving DecidableEq, Repr

def PArg.asVar : PArg → Option Varnode
  | var v => some v
  | space _ => none

theorem Varnode.out_space {loc : Varnode} (hloc : loc.space ≠ "const") :
    ∀ v, some loc = some v → v.space ≠ "const" :=
  fun _ h => Option.some.inj h ▸ hloc

/-- One lifted operation; nothing is written to the constant space. -/
structure PcodeOp where
  opcode : OpCode
  out : Option Varnode
  ins : List PArg
  out_space : ∀ v, out = some v → v.space ≠ "const"

/-- The control-flow effect of one operation. -/
inductive Flow
  | next | rel (displacement : U64) | jump (address : U64) | stop | fault
  deriving DecidableEq, Repr

/-- One observable effect of a run. -/
inductive Effect
  | store (space : String) (address : U64) (size : ℕ) (value : U64)
  | fault
  deriving DecidableEq, Repr

def mask (v : U64) (size : ℕ) : U64 :=
  if 8 ≤ size ∨ size = 0 then v else v &&& ((1#64 <<< (size * 8)) - 1#64)

/-- The value of `size` bytes as an `i64`. -/
def sext (v : U64) (size : ℕ) : U64 :=
  if size = 0 ∨ 8 ≤ size then v
  else
    let sign := 1#64 <<< (size * 8 - 1)
    (mask v size ^^^ sign) - sign

/-- Machine state: one byte map per address space. `unwritten` is what a byte that was never
written reads (the image behind the memory, the fill of a differential run, or 0). -/
structure Machine where
  mem : String → U64 → Option (BitVec 8)
  unwritten : String → U64 → BitVec 8
  bigEndian : String → Bool
  addressMask : Option (String × U64)
  trace : Bool
  quiet : Option (U64 × U64)
  /-- The effects so far, newest first. -/
  effects : List Effect
  unmodeled : ℕ
  /-- The output of the last division, its full-width quotient and whether it was signed. -/
  lastQuotient : Option (Varnode × U64 × Bool)
  quotient_space : ∀ q, lastQuotient = some q → q.1.space ≠ "const"

/-- What `step` calls outside the integer semantics: `float_op` and `callother`. -/
structure Host where
  floatOp : Machine → PcodeOp → ℕ → Option U64
  callother : Machine → PcodeOp → ℕ → Option (Flow × Machine)

namespace Machine

/-- A machine that has not run: nothing written, nothing behind the memory, little-endian. -/
def bare : Machine where
  mem _ _ := none
  unwritten _ _ := 0
  bigEndian _ := false
  addressMask := none
  trace := false
  quiet := none
  effects := []
  unmodeled := 0
  lastQuotient := none
  quotient_space := nofun

/- `checks` is whether the build checks arithmetic overflow; `none` is a panic. -/
variable (checks : Bool) (host : Host) (m : Machine)

def record (e : Effect) : Machine := { m with effects := e :: m.effects }

/-- `address` as the memory bus decodes it. -/
def bus (space : String) (address : U64) : U64 :=
  match m.addressMask with
  | some (masked, bits) => if masked = space then address &&& bits else address
  | none => address

/-- Where byte `i` of a value lives, 0 being the least significant. -/
def byteAt (space : String) (offset : U64) (size i : ℕ) : Option U64 :=
  let d := if m.bigEndian space then size - 1 - i else i
  if checks && decide (2 ^ 64 ≤ offset.toNat + d) then none
  else some (m.bus space (offset + BitVec.ofNat 64 d))

def byte (space : String) (at_ : U64) : BitVec 8 := (m.mem space at_).getD (m.unwritten space at_)

def read (space : String) (offset : U64) (size : ℕ) : Option U64 :=
  if space = "const" then some (mask offset size)
  else
    (List.range (min size 8)).foldlM
      (fun v i => do return v ||| (m.byte space (← m.byteAt checks space offset size i)).setWidth 64 <<< (8 * i)) 0

def write (space : String) (offset : U64) (size : ℕ) (value : U64) : Option Machine :=
  if space = "const" then some m
  else do
    let offset := m.bus space offset
    let scratch := m.quiet.any fun (lo, hi) => lo ≤ offset ∧ offset < hi
    let m' := if m.trace ∧ space ≠ "register" ∧ space ≠ "unique" ∧ ¬ scratch then
      m.record (.store space offset size (mask value size)) else m
    let at_ ← (List.range (min size 8)).mapM (m.byteAt checks space offset size)
    let bank := at_.zipIdx.foldl
      (fun bank (a, i) => Function.update bank a (some ((value >>> (8 * i)).setWidth 8)))
      (m.mem space)
    return { m' with mem := Function.update m'.mem space bank }

def readArg : PArg → Option U64
  | .var v => m.read checks v.space v.offset v.size
  | .space _ => some 0

def sreadArg : PArg → Option U64
  | .var v => do return sext (← m.readArg checks (.var v)) v.size
  | .space _ => some 0

/-- `branch_to`: a constant target is a displacement in p-code ops. -/
def branchTo : Option PArg → Flow
  | some (.var v) => if v.isConst then .rel (sext v.offset v.size) else .jump v.offset
  | _ => .next

/-- The program trapped. -/
def fault : Flow × Machine := (.fault, if m.trace then m.record .fault else m)

/-- Keep a division's full-width quotient. -/
def rememberQuotient (op : PcodeOp) (quotient : U64) (signed : Bool) : Machine :=
  { m with
    lastQuotient := op.out.map fun v => (v, quotient, signed)
    quotient_space := by
      intro q hq
      obtain ⟨v, hv, rfl⟩ := Option.map_eq_some_iff.mp hq
      exact op.out_space v hv }

def forgetQuotient : Machine := { m with lastQuotient := none, quotient_space := nofun }

/-- Does this SUBPIECE narrow the last quotient to a width that cannot hold it? -/
def narrowsQuotientLossily (op : PcodeOp) : Option Bool :=
  match m.lastQuotient, op.ins.head?, op.out with
  | some (q, value, signed), some (.var input), some out =>
    if input ≠ q ∨ q.size ≤ out.size then some false
    else do
      let shift ← match op.ins[1]? with
        | some arg => m.readArg checks arg
        | none => some 0
      if shift ≠ 0 then return false
      let kept := mask value out.size
      return if signed then sext kept out.size ≠ sext value q.size else kept ≠ mask value q.size
  | _, _, _ => some false

/-- What the operation computes, before its output is written. -/
inductive Outcome
  | value (m : Machine) (res : U64)
  | flow (flow : Flow) (m : Machine)

def ofBool (b : Bool) : U64 := BitVec.ofNat 64 b.toNat

def countOnes (v : U64) : ℕ := bitCount 64 v.toNat

def leadingZeros (v : U64) : ℕ := 64 - bitLen v.toNat

/-- The `match opname` of `step`. -/
def execute (op : PcodeOp) : Option Outcome :=
  let a (i : ℕ) : Option U64 := op.ins[i]?.elim (some 0) (m.readArg checks)
  let sa (i : ℕ) : Option U64 := op.ins[i]?.elim (some 0) (m.sreadArg checks)
  let osize := op.out.elim 0 Varnode.size
  let isize (default : ℕ) := ((op.ins.head?.bind PArg.asVar).map Varnode.size).getD default
  let unary (g : U64 → U64) : Option Outcome := do return .value m (g (← a 0))
  let binary (g : U64 → U64 → U64) : Option Outcome := do return .value m (g (← a 0) (← a 1))
  let signed (g : U64 → U64 → U64) : Option Outcome := do return .value m (g (← sa 0) (← sa 1))
  match op.opcode with
  | .return => some (.flow .stop m)
  | .branch => some (.flow (branchTo op.ins.head?) m)
  | .cbranch => do
    return .flow (if (← a 1) &&& 1 ≠ 0 then branchTo op.ins.head? else .next) m
  | .branchind => do return .flow (.jump (← a 0)) m
  | .call | .callind => some (.flow .next m)
  | .copy | .intZext => unary id
  | .intAdd => binary (· + ·)
  | .intSub => binary (· - ·)
  | .intMult => binary (· * ·)
  | .intAnd => binary (· &&& ·)
  | .intOr => binary (· ||| ·)
  | .intXor => binary (· ^^^ ·)
  -- `wrapping_shl`/`wrapping_shr`: the amount, cut to 32 bits, counts modulo 64
  | .intLeft => binary fun x y => x <<< (y.toNat % 2 ^ 32 % 64)
  | .intRight => binary fun x y => x >>> (y.toNat % 2 ^ 32 % 64)
  | .intSright => do
    return .value m ((← sa 0).sshiftRight (min ((← a 1).toNat % 2 ^ 32) 63))
  | .intNegate => unary (~~~ ·)
  | .int2comp => unary (- ·)
  | .intSext => do return .value m (← sa 0)
  | .subpiece => do
    if ← m.narrowsQuotientLossily checks op then return .flow m.fault.1 m.fault.2
    let x ← a 0
    let y ← a 1
    if checks && decide (64 ≤ y.toNat * 8) then none
    else return .value m (x >>> (y.toNat * 8 % 64))
  | .intEqual => binary fun x y => ofBool (x == y)
  | .intNotequal => binary fun x y => ofBool (x != y)
  | .intLess => binary fun x y => ofBool (x.ult y)
  | .intLessequal => binary fun x y => ofBool (x.ule y)
  | .intSless => signed fun x y => ofBool (x.slt y)
  | .intSlessequal => signed fun x y => ofBool (x.sle y)
  | .intCarry => binary fun x y =>
    let x := mask x (isize osize)
    let y := mask y (isize osize)
    ofBool (decide (mask (BitVec.allOnes 64) (isize osize) < x + y) || decide (2 ^ 64 ≤ x.toNat + y.toNat))
  | .intScarry => signed fun x y =>
    let s := sext (mask (x + y) (isize osize)) (isize osize)
    ofBool ((x.slt 0 == y.slt 0) && (x.slt 0 != s.slt 0))
  | .intSborrow => signed fun x y =>
    let s := sext (mask (x - y) (isize osize)) (isize osize)
    ofBool ((x.slt 0 != y.slt 0) && (x.slt 0 != s.slt 0))
  | .boolNegate => unary fun x => ofBool (x == 0)
  | .boolAnd => binary fun x y => (x &&& 1) &&& (y &&& 1)
  | .boolOr => binary fun x y => (x &&& 1) ||| (y &&& 1)
  | .boolXor => binary fun x y => (x &&& 1) ^^^ (y &&& 1)
  -- a divisor that is 0 only within the output's width panics
  | .intDiv => do
    let y ← a 1
    if y = 0 then return .flow m.fault.1 m.fault.2
    if mask y osize = 0 then none
    let q := (mask (← a 0) osize).udiv (mask y osize)
    return .value (m.rememberQuotient op q false) q
  | .intRem => do
    let y ← a 1
    if y = 0 then return .flow m.fault.1 m.fault.2
    if mask y osize = 0 then none
    return .value m ((mask (← a 0) osize).umod (mask y osize))
  | .intSdiv => do
    if (← a 1) = 0 then return .flow m.fault.1 m.fault.2
    let q := (← sa 0).sdiv (← sa 1)
    return .value (m.rememberQuotient op q true) q
  | .intSrem => do
    if (← a 1) = 0 then return .flow m.fault.1 m.fault.2
    return .value m ((← sa 0).srem (← sa 1))
  | .popcount => unary fun x => BitVec.ofNat 64 (countOnes x)
  | .lzcount => do
    let lz := leadingZeros (← a 0)
    let excess := 8 * (8 - min (isize 8) 8)
    if checks && decide (lz < excess) then none
    else return .value m (BitVec.ofNat 64 lz - BitVec.ofNat 64 excess)
  | .load =>
    match op.ins.head?, op.ins[1]? with
    | some (.space spc), some ptr => do
      return .value m (← m.read checks spc (← m.readArg checks ptr) osize)
    | _, _ => some (.value m 0)
  | .store =>
    match op.ins.head?, op.ins[1]?, op.ins[2]? with
    | some (.space spc), some ptr, some val => do
      let addr ← m.readArg checks ptr
      let v ← m.readArg checks val
      return .flow .next (← m.write checks spc addr (val.asVar.elim 0 Varnode.size) v)
    | _, _, _ => some (.flow .next m)
  | .callother => do
    let (fl, m') ← host.callother m op osize
    return .flow fl m'
  | .floatAdd | .floatSub | .floatMult | .floatDiv | .floatNeg | .floatAbs | .floatSqrt
  | .floatCeil | .floatFloor | .floatRound | .floatEqual | .floatNotequal | .floatLess
  | .floatLessequal | .floatNan | .floatInt2float | .floatFloat2float | .floatTrunc =>
    match host.floatOp m op osize with
    | some v => some (.value m v)
    | none => some (.value { m with unmodeled := m.unmodeled + 1 } 0)
  | _ => some (.value { m with unmodeled := m.unmodeled + 1 } 0)

/-- The word `step` writes to the output of the operation. -/
def computed (op : PcodeOp) : Option U64 :=
  match m.execute checks host op, op.out with
  | some (.value _ res), some v => some (mask res v.size)
  | _, _ => none

/-- `Machine::step`: execute one operation, write its output, and say where control goes. -/
def step (op : PcodeOp) : Option (Flow × Machine) := do
  match ← m.execute checks host op with
  | .flow fl m' => return (fl, m')
  | .value m' res =>
    match op.out with
    | none => return (.next, m')
    | some v =>
      let m'' ← m'.write checks v.space v.offset v.size (mask res v.size)
      let isDiv := op.opcode = .intDiv ∨ op.opcode = .intSdiv
      return (.next, if ¬ isDiv ∧ m''.lastQuotient.any (·.1 = v) then m''.forgetQuotient else m'')

end Machine
end Emu
end Mosura
