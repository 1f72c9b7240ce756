import Mathlib

/-! The p-code operation set (`opcode.rs`). -/

namespace Mosura

/-- A p-code opcode, in the order of the source's discriminants. -/
inductive OpCode
  | copy | load | store | branch | cbranch | branchind | call | callind | callother | return
  | intEqual | intNotequal | intSless | intSlessequal | intLess | intLessequal
  | intZext | intSext | intAdd | intSub | intCarry | intScarry | intSborrow
  | int2comp | intNegate | intXor | intAnd | intOr | intLeft | intRight | intSright
  | intMult | intDiv | intSdiv | intRem | intSrem
  | boolNegate | boolXor | boolAnd | boolOr
  | floatEqual | floatNotequal | floatLess | floatLessequal | floatNan
  | floatAdd | floatDiv | floatMult | floatSub | floatNeg | floatAbs | floatSqrt
  | floatInt2float | floatFloat2float | floatTrunc | floatCeil | floatFloor | floatRound
  | multiequal | indirect | piece | subpiece | cast | ptradd | ptrsub
  | segmentop | cpoolref | new | insert | extract | popcount | lzcount
  deriving DecidableEq, Repr

namespace OpCode

/-- Calls are not branches: they fall through. -/
def isBranch : OpCode → Bool
  | branch | cbranch | branchind => true
  | _ => false

def terminatesBlock : OpCode → Bool
  | branch | cbranch | branchind | .return => true
  | _ => false

/-- `PcodeOp::is_bool_output`: the opcodes whose result is 0 or 1. -/
def isBoolOutput : OpCode → Bool
  | intEqual | intNotequal | intSless | intSlessequal | intLess | intLessequal
  | intCarry | intScarry | intSborrow | boolNegate | boolXor | boolAnd | boolOr
  | floatEqual | floatNotequal | floatLess | floatLessequal | floatNan => true
  | _ => false

def isCall : OpCode → Bool
  | call | callind | callother => true
  | _ => false

def isMarker : OpCode → Bool
  | multiequal | indirect => true
  | _ => false

end OpCode
end Mosura
