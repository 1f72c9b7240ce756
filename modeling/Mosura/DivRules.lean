import Mosura.ThreeWay

/-! The rules that recover divisions and remainders from shifts and masks (`divopt.rs`). A rule
returns the new graph where it fires, and `none` where it returns 0 or panics; shifts wrap as on the
host. -/

namespace Mosura
namespace Funcdata

variable (f : Funcdata)

/-- `v` is the constant `c`. -/
def isConstant (v : VarnodeId) (c : U64) : Bool :=
  (f.vn v).constant && (f.vn v).constantValue == c

/-- The shift that brings the sign bit of a value of `size` bytes to the bottom. -/
def signShift (size : ℕ) : U64 := BitVec.ofNat 64 (size * 8 - 1)

/-- `check_sign_extraction`: `outVn` is the sign of the answer, repeated in all bits. -/
def checkSignExtraction (outVn : VarnodeId) : Option VarnodeId := do
  let signOp ← f.writerOf outVn .intSright
  let constVn ← (f.op signOp).input 1
  let resVn ← (f.op signOp).input 0
  if f.isConstant constVn (signShift (f.vn resVn).size) then some resVn else none

/-! `RuleDivChain`. -/

/-- `val1`: the first divisor, also where the first division is a shift by `c`. -/
def chainDivisor (opc1 opc2 : OpCode) (c : U64) : U64 :=
  if opc1 = opc2 then c else Rules.checkedShl 1 (c.toNat % 2 ^ 32)

/-- `mostsigbit_set` as the source's number, -1 for 0. -/
def mostsigbit (v : U64) : ℤ := (mostsigbitSet v).elim (-1) Int.ofNat

/-- A divisor without its sign. -/
def chainMagnitude (v : U64) (size : ℕ) : U64 :=
  if signbitNegative v size then -v &&& calcMask size else v

def chainBitcount (val1 val2 : U64) (size : ℕ) : ℤ :=
  mostsigbit (chainMagnitude val1 size) + mostsigbit (chainMagnitude val2 size) + 2

/-- What `RuleDivChain` finds at `op`: the first division, its dividend and the two divisors. -/
structure DivChain where
  divOp : OpId
  baseVn : VarnodeId
  val1 : U64
  val2 : U64
  deriving DecidableEq, Repr

/-- The checks of `RuleDivChain` on the graph. -/
def divChainMatch (op : OpId) : Option DivChain := do
  let opc2 := (f.op op).opcode
  let constVn2 ← (f.op op).input 1
  let vn ← (f.op op).input 0
  if !(f.vn constVn2).constant || !(f.vn vn).written then none
  else
    let divOp ← (f.vn vn).defOp
    let opc1 := (f.op divOp).opcode
    let constVn1 ← (f.op divOp).input 1
    let baseVn ← (f.op divOp).input 0
    if opc1 ≠ opc2 ∧ (opc2 ≠ .intDiv ∨ opc1 ≠ .intRight) then none
    else if !(f.vn constVn1).constant || (f.vn vn).descend.length != 1 then none
    else if (f.vn baseVn).isFree then none
    else some ⟨divOp, baseVn, chainDivisor opc1 opc2 (f.vn constVn1).constantValue,
      (f.vn constVn2).constantValue⟩

/-- The guard against overflow. -/
def divChainFits (opc2 : OpCode) (val1 val2 : U64) (size : ℕ) : Bool :=
  decide (val1 * val2 &&& calcMask size ≠ 0) &&
    !(opc2 == .intDiv && decide (((8 * size : ℕ) : ℤ) < chainBitcount val1 val2 size)) &&
    !(opc2 == .intSdiv && decide (((8 * size : ℕ) : ℤ) - 2 < chainBitcount val1 val2 size))

/-- `RuleDivChain`: `(x / c1) / c2` becomes `x / (c1 * c2)`. -/
def divChain (op : OpId) : Option Funcdata := do
  let m ← f.divChainMatch op
  let vn ← (f.op op).input 0
  let size := (f.vn vn).size
  if !divChainFits (f.op op).opcode m.val1 m.val2 size then none
  else some ((f.opSetInput op 0 m.baseVn).setConstInput op 1 size (m.val1 * m.val2 &&& calcMask size))

end Funcdata
end Mosura
