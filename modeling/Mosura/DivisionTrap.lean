import Mosura.EmuMemory
import Mosura.Image

/-! The user operations of a run, and the trap of a division whose quotient is narrowed (`emu.rs`). -/

namespace Mosura
namespace Emu

inductive UserOp
  | lock | out | in_ | swi | bcdAdjust | unknown
  deriving DecidableEq, Repr

/-- What a run finds outside the machine when a user operation is met. -/
structure Outside where
  userops : U64 → Option String
  /-- The hardware's answer on a port. -/
  port : U64 → U64
  /-- `nbcd_adjust`, inside an `nbcd` of a 68000. -/
  nbcdAdjust : Option (U64 → U64)
  floatOp : Machine → PcodeOp → ℕ → Option U64

def Outside.useropKind (outside : Outside) (op : PcodeOp) : UserOp :=
  let idx := ((op.ins.head?.bind PArg.asVar).map Varnode.offset).getD (BitVec.allOnes 64)
  match outside.userops idx with
  | some "LOCK" | some "UNLOCK" => .lock
  | some "in" => .in_
  | some "out" => .out
  | some "swi" => .swi
  | some "bcdAdjust" => .bcdAdjust
  | _ => .unknown

namespace Machine

variable (checks : Bool) (outside : Outside) (m : Machine)

/-- The result of a user operation, where it has one, and the machine that counts it. -/
def userResult (op : PcodeOp) (osize : ℕ) : Option (Option U64 × Machine) :=
  let arg (i : ℕ) : Option U64 := op.ins[i]?.elim (some 0) (m.readArg checks)
  let unmodeled : Option (Option U64 × Machine) :=
    some (some 0, { m with unmodeled := m.unmodeled + 1 })
  match outside.useropKind op with
  | .lock => some (none, m)
  | .out => do
    let _ ← arg 1
    let _ ← arg 2
    return (none, m)
  | .in_ => do return (some (mask (outside.port (← arg 1)) osize), m)
  | .swi => do return (some (swiVector ||| ((← arg 1) &&& 0xff)), m)
  | .bcdAdjust =>
    match outside.nbcdAdjust with
    | some adjust => do return (some (adjust (← arg 1)), m)
    | none => unmodeled
  | .unknown => unmodeled

def callother (op : PcodeOp) (osize : ℕ) : Option (Flow × Machine) := do
  let (res, m') ← m.userResult checks outside op osize
  match res, op.out with
  | some res, some v => return (.next, ← m'.write checks v.space v.offset v.size (mask res v.size))
  | _, _ => return (.next, m')

/-- What `step` calls, with `callother` as it is. -/
def hostOf : Host where
  floatOp := outside.floatOp
  callother m op osize := callother checks outside m op osize

def isDiv : OpCode → Bool
  | .intDiv | .intSdiv => true
  | _ => false

/-- The location an operation writes. -/
def target (op : PcodeOp) : Option Varnode :=
  match op.opcode with
  | .store =>
    match op.ins.head?, op.ins[1]?, op.ins[2]? with
    | some (.space spc), some ptr, some val =>
      (m.readArg checks ptr).map fun addr => ⟨spc, addr, val.asVar.elim 0 Varnode.size⟩
    | _, _, _ => none
  | .callother =>
    if outside.useropKind op = .lock ∨ outside.useropKind op = .out then none else op.out
  | _ =>
    match m.execute checks (hostOf checks outside) op with
    | some (.value _ _) => op.out
    | _ => none

/-- A write to `v` writes a byte of `q`. -/
def Overwrites (v q : Varnode) : Prop :=
  v.space = q.space ∧ ∃ i < min v.size 8, ∃ j < q.size, m.place (m.decoded v) i = m.place q j

instance (v q : Varnode) : Decidable (m.Overwrites v q) :=
  inferInstanceAs (Decidable (_ ∧ _))

/-- The last division of a run that had an output, and whether no byte of it was written since. -/
structure Division where
  out : Varnode
  quotient : U64
  signed : Bool
  intact : Bool

/-- The quotient fits `size` bytes, signed or unsigned as the division was. -/
def Division.FitsIn (d : Division) (size : ℕ) : Prop :=
  if d.signed then
    -(2 ^ (8 * size) / 2 : ℤ) ≤ (d.quotient.setWidth (8 * d.out.size)).toInt ∧
      (d.quotient.setWidth (8 * d.out.size)).toInt < 2 ^ (8 * size) / 2
  else d.quotient.toNat % 2 ^ (8 * d.out.size) < 2 ^ (8 * size)

/-- The last division after one more operation. -/
def after (last : Option Division) (op : PcodeOp) : Option Division :=
  match isDiv op.opcode, m.execute checks (hostOf checks outside) op with
  | true, some (.value _ res) => op.out.map fun v => ⟨v, res, op.opcode = .intSdiv, true⟩
  | _, _ => last.map fun d =>
    { d with
      intact := d.intact && !(m.target checks outside op).any fun v => m.Overwrites v d.out }

/-- A condition on the operations of a run. -/
abbrev Condition := Outside → Machine → Option Division → PcodeOp → Prop

/-- The states of the runs whose operations all meet a condition, with the last division. -/
inductive Run (keeps : Condition) : Machine → Option Division → Prop
  | start (m : Machine) : m.lastQuotient = none → Run keeps m none
  | step {m m' : Machine} {last : Option Division} {outside : Outside} {op : PcodeOp} {fl : Flow} :
      Run keeps m last → keeps outside m last op →
      m.step checks (hostOf checks outside) op = some (fl, m') →
      Run keeps m' (m.after checks outside last op)

/-- A SUBPIECE at offset 0 of the last quotient, which is still there, to a width it does not fit. -/
structure Narrows (last : Option Division) (op : PcodeOp) (d : Division) (out : Varnode) : Prop where
  division : last = some d
  intact : d.intact = true
  input : op.ins.head? = some (.var d.out)
  offset : op.ins[1]?.elim (some 0) (m.readArg checks) = some 0
  output : op.out = some out
  narrower : out.size < d.out.size
  stored : m.valueAt d.out = d.quotient.toNat % 2 ^ (8 * d.out.size)
  lost : ¬ d.FitsIn out.size

/-- A SUBPIECE traps just where it narrows the last quotient. -/
def TrapsExactly (last : Option Division) : Prop :=
  ∀ (outside : Outside) (op : PcodeOp), op.opcode = .subpiece →
    (∀ m', m.step checks (hostOf checks outside) op = some (.fault, m') →
      ∃ d out, Narrows checks m last op d out) ∧
    ∀ d out, Narrows checks m last op d out → 0 < out.size →
      m.step checks (hostOf checks outside) op = some m.fault

/-- A quotient has at most 8 bytes in different cells, and whatever else writes one of them is
the output of an operation on that very location, by the path of `step`. -/
structure WritesWhole (outside : Outside) (m : Machine) (last : Option Division) (op : PcodeOp) :
    Prop where
  quotient : isDiv op.opcode = true → ∀ v, op.out = some v → 0 < v.size ∧ v.size ≤ 8 ∧ m.Placed v
  whole : isDiv op.opcode = false → ∀ d v, last = some d → d.intact = true →
    m.target checks outside op = some v → m.Overwrites v d.out →
      v = d.out ∧ op.opcode ≠ .store ∧ op.opcode ≠ .callother

end Machine
end Emu
end Mosura
