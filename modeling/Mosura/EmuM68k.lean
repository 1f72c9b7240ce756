import Mosura.Emu
import Mosura.Lib.BitRing

/-! The shifts and rotates of the 68000 (`emu_m68k.rs`), and one of its shifts by one bit. -/

namespace Mosura
namespace Emu

inductive ShiftKind
  | arithmetic | logical | rotateExtended | rotate
  deriving DecidableEq, Repr

/-- A shifted or rotated value: the result, X when the instruction sets it, V and C. -/
structure Shifted where
  value : U64
  x : Option Bool
  overflow : Bool
  carry : Bool
  deriving DecidableEq, Repr

/-- `value`'s low `bits` shifted or rotated by `n`. -/
def shift (kind : ShiftKind) (left : Bool) (bits : ℕ) (value : U64) (n : ℕ) (x : Bool) : Shifted :=
  let mask := (1#64 <<< bits) - 1#64
  let v := value &&& mask
  let bit (r : U64) (k : ℕ) : Bool := (r >>> k) &&& 1#64 != 0#64
  if n = 0 then ⟨v, none, false, kind = .rotateExtended && x⟩
  else
    match kind, left with
    | .arithmetic, true | .logical, true =>
      let carry := decide (n ≤ bits) && bit v (bits - n)
      let overflow := kind = .arithmetic &&
        if bits ≤ n then v != 0#64
        else
          -- the `n + 1` bits that pass through the MSB are not all equal
          let top := v >>> (bits - n - 1)
          top != 0#64 && top != (1#64 <<< (n + 1)) - 1#64
      ⟨if n < bits then (v <<< n) &&& mask else 0, some carry, overflow, carry⟩
    | .logical, false =>
      let carry := decide (n ≤ bits) && bit v (n - 1)
      ⟨if n < bits then v >>> n else 0, some carry, false, carry⟩
    | .arithmetic, false =>
      let signed := (v <<< (64 - bits)).sshiftRight (64 - bits)
      let carry := if n ≤ bits then bit (signed.sshiftRight (n - 1)) 0 else bit v (bits - 1)
      ⟨signed.sshiftRight (min n bits) &&& mask, some carry, false, carry⟩
    | .rotate, _ =>
      let k := n % bits
      let value := if k = 0 then v
        else if left then ((v <<< k) ||| (v >>> (bits - k))) &&& mask
        else ((v >>> k) ||| (v <<< (bits - k))) &&& mask
      ⟨value, none, false, if left then bit value 0 else bit value (bits - 1)⟩
    | .rotateExtended, _ =>
      let width := bits + 1
      let k := n % width
      let all := ((BitVec.ofBool x).setWidth 64 <<< bits) ||| v
      let wide := (1#64 <<< width) - 1#64
      let rotated := if k = 0 then all
        else if left then ((all <<< k) ||| (all >>> (width - k))) &&& wide
        else ((all >>> k) ||| (all <<< (width - k))) &&& wide
      let carry := rotated >>> bits != 0#64
      ⟨rotated &&& mask, some carry, false, carry⟩

/-- The registers the rules read and write. -/
structure M68k where
  d : Fin 8 → U64
  x : U64
  n : U64
  z : U64
  v : U64
  c : U64

/-- A shift or rotate of data register `dy`, by the immediate `count` or by a register. -/
structure ShiftInsn where
  kind : ShiftKind
  left : Bool
  bits : ℕ
  count : Fin 8
  byRegister : Bool
  dy : Fin 8
  width : bits = 8 ∨ bits = 16 ∨ bits = 32

namespace M68k

variable (checks : Bool) (r : M68k) (m : Machine)

/-- An immediate count of 0 encodes 8; a register count is taken modulo 64. -/
def shiftCount (insn : ShiftInsn) : Option ℕ :=
  if insn.byRegister then
    (m.read checks "register" (r.d insn.count) 4).map fun count => (count &&& 63).toNat
  else some (if insn.count = 0 then 8 else insn.count)

/-- What `execute` writes of a shifted value. -/
def setShifted (insn : ShiftInsn) (old : U64) (s : Shifted) : Option Machine := do
  let keep : U64 := if insn.bits = 32 then 0 else 0xffffffff &&& ~~~((1#64 <<< insn.bits) - 1#64)
  let m ← m.write checks "register" (r.d insn.dy) 4 ((old &&& keep) ||| s.value)
  let m ← match s.x with
    | some x => m.write checks "register" r.x 1 (Machine.ofBool x)
    | none => some m
  let m ← m.write checks "register" r.n 1 ((s.value >>> (insn.bits - 1)) &&& 1)
  let m ← m.write checks "register" r.z 1 (Machine.ofBool (s.value == 0))
  let m ← m.write checks "register" r.v 1 (Machine.ofBool s.overflow)
  m.write checks "register" r.c 1 (Machine.ofBool s.carry)

/-- `execute` of a register shift or rotate. -/
def execute (insn : ShiftInsn) : Option Machine := do
  let n ← r.shiftCount checks m insn
  let old ← m.read checks "register" (r.d insn.dy) 4
  let x ← m.read checks "register" r.x 1
  r.setShifted checks m insn old (shift insn.kind insn.left insn.bits old n (x &&& 1 != 0))

end M68k

/-! The hardware's step. -/

/-- A register of `w` bits with the flags of a shift. -/
structure ShiftState (w : ℕ) where
  value : BitVec w
  x : Bool
  v : Bool
  c : Bool

namespace ShiftState

variable {w : ℕ}

/-- Before the first bit moves; a count of 0 leaves this. -/
def start (kind : ShiftKind) (value : BitVec w) (x : Bool) : ShiftState w :=
  ⟨value, x, false, kind = .rotateExtended && x⟩

/-- One bit, shifted or rotated. -/
def oneBit (kind : ShiftKind) (left : Bool) (s : ShiftState w) : ShiftState w :=
  let msb := s.value.msb
  let lsb := s.value.getLsbD 0
  match kind, left with
  | .arithmetic, true =>
    { value := s.value <<< 1, x := msb, v := s.v || (msb != (s.value <<< 1).msb), c := msb }
  | .arithmetic, false => { value := s.value.sshiftRight 1, x := lsb, v := false, c := lsb }
  | .logical, true => { value := s.value <<< 1, x := msb, v := false, c := msb }
  | .logical, false => { value := s.value >>> 1, x := lsb, v := false, c := lsb }
  | .rotate, true => { value := s.value.rotateLeft 1, x := s.x, v := false, c := msb }
  | .rotate, false => { value := s.value.rotateRight 1, x := s.x, v := false, c := lsb }
  | .rotateExtended, true =>
    { value := (s.value <<< 1) ||| (BitVec.ofBool s.x).setWidth w, x := msb, v := false, c := msb }
  | .rotateExtended, false =>
    { value := (s.value >>> 1) ||| ((BitVec.ofBool s.x).setWidth w <<< (w - 1))
      x := lsb, v := false, c := lsb }

/-- `n` bits, one after the other. -/
def steps (kind : ShiftKind) (left : Bool) (n : ℕ) (value : BitVec w) (x : Bool) : ShiftState w :=
  (oneBit kind left)^[n] (start kind value x)

end ShiftState
end Emu
end Mosura
