import Mosura.Edit
import Mosura.Emu

/-! Constant folding: `eval_const` and `RuleConstFold` (`rules.rs`). -/

namespace Mosura
namespace Rules

def mask (v : U64) (size : ℕ) : U64 :=
  if 8 ≤ size then v else v &&& ((1#64 <<< (8 * size)) - 1#64)

def sext (v : U64) (size : ℕ) : U64 :=
  if size = 0 ∨ 8 ≤ size then v else (v <<< (64 - 8 * size)).sshiftRight (64 - 8 * size)

def ofBool (b : Bool) : U64 := BitVec.ofNat 64 b.toNat

/-- `checked_shl(n).unwrap_or(0)`. -/
def checkedShl (v : U64) (n : ℕ) : U64 := if n < 64 then v <<< n else 0

/-- `checked_shr(n).unwrap_or(0)`. -/
def checkedShr (v : U64) (n : ℕ) : U64 := if n < 64 then v >>> n else 0

/-- `saturating_mul(8) as u32`. -/
def byteShift (v : U64) : ℕ := min (v.toNat * 8) (2 ^ 64 - 1) % 2 ^ 32

/-- `eval_const`, with the floating-point arms left to `fold`. -/
def evalConst (fold : OpCode → List (U64 × ℕ) → ℕ → U64) (opcode : OpCode)
    (inputs : List (U64 × ℕ)) (outSize : ℕ) : Option U64 :=
  let a (i : ℕ) : U64 := inputs[i]?.elim 0 fun p => mask p.1 p.2
  let sa (i : ℕ) : U64 := inputs[i]?.elim 0 fun p => sext p.1 p.2
  let res : Option U64 := match opcode with
    | .copy | .intZext => some (a 0)
    | .intAdd => some (a 0 + a 1)
    | .intSub => some (a 0 - a 1)
    | .intMult => some (a 0 * a 1)
    | .intAnd => some (a 0 &&& a 1)
    | .intOr => some (a 0 ||| a 1)
    | .intXor => some (a 0 ^^^ a 1)
    | .intLeft => some (checkedShl (a 0) ((a 1).toNat % 2 ^ 32))
    | .intRight => some (checkedShr (a 0) ((a 1).toNat % 2 ^ 32))
    -- `sa` is a `u64` here, so the shift is logical
    | .intSright => some (sa 0 >>> min ((a 1).toNat % 2 ^ 32) 63)
    | .intNegate => some (~~~ a 0)
    | .int2comp => some (- a 0)
    | .intSext => some (sa 0)
    | .subpiece => some (checkedShr (a 0) (byteShift (a 1)))
    | .intEqual => some (ofBool (a 0 == a 1))
    | .intNotequal => some (ofBool (a 0 != a 1))
    | .intLess => some (ofBool ((a 0).ult (a 1)))
    | .intLessequal => some (ofBool ((a 0).ule (a 1)))
    | .intSless => some (ofBool ((sa 0).slt (sa 1)))
    | .intSlessequal => some (ofBool ((sa 0).sle (sa 1)))
    | .boolNegate => some (ofBool (a 0 == 0))
    | .boolAnd => some ((a 0 &&& 1) &&& (a 1 &&& 1))
    | .boolOr => some ((a 0 &&& 1) ||| (a 1 &&& 1))
    | .boolXor => some ((a 0 &&& 1) ^^^ (a 1 &&& 1))
    | .popcount => some (BitVec.ofNat 64 (bitCount 64 (a 0).toNat))
    -- the leading zeros of the 64-bit word
    | .lzcount => some (BitVec.ofNat 64 (64 - bitLen (a 0).toNat))
    | .floatAdd | .floatSub | .floatMult | .floatDiv | .floatNeg | .floatAbs | .floatSqrt
    | .floatFloat2float | .floatInt2float | .floatTrunc | .floatEqual | .floatNotequal | .floatLess
    | .floatLessequal | .floatNan => some (fold opcode inputs outSize)
    | _ => none
  res.map (mask · outSize)

/-- The integer and boolean opcodes `eval_const` evaluates. -/
def foldsInteger : OpCode → Bool
  | .copy | .intZext | .intAdd | .intSub | .intMult | .intAnd | .intOr | .intXor | .intLeft
  | .intRight | .intSright | .intNegate | .int2comp | .intSext | .subpiece | .intEqual
  | .intNotequal | .intLess | .intLessequal | .intSless | .intSlessequal | .boolNegate | .boolAnd
  | .boolOr | .boolXor | .popcount | .lzcount => true
  | _ => false

end Rules

namespace Funcdata

/-- The inputs of `op` as the constants `RuleConstFold` collects. -/
def constInputs (f : Funcdata) (op : OpId) : List (U64 × ℕ) :=
  (f.op op).inrefs.map fun v => ((f.vn v).constantValue, (f.vn v).size)

/-- `RuleConstFold`: an op on constants becomes a COPY of its value; `none` where it returns 0. -/
def constFold (fold : OpCode → List (U64 × ℕ) → ℕ → U64) (f : Funcdata) (op : OpId) :
    Option Funcdata :=
  let code := (f.op op).opcode
  if code = .copy then none
  else if code = .ptrsub ∨ code = .ptradd ∨ (f.op op).noCollapse = true then none
  else
    match (f.op op).output with
    | none => none
    | some out =>
      let inrefs := (f.op op).inrefs
      if inrefs = [] then none
      else if ∃ v ∈ inrefs, (f.vn v).constant = false then none
      else
        let outSize := (f.vn out).size
        if 8 < outSize then none
        else
          match Rules.evalConst fold code (f.constInputs op) outSize with
          | none => none
          | some val =>
            let (f', c) := f.newConst outSize val
            let f' := (List.range' 1 (inrefs.length - 1)).reverse.foldl
              (fun g slot => g.opRemoveInput op slot) f'
            some ((f'.opSetInput op 0 c).opSetOpcode op .copy)

/-- The p-code value of `op` on its constant inputs. -/
def constPcode (f : Funcdata) (op : OpId) (out : VarnodeId) : Option ℕ :=
  evalPcode (f.op op).opcode
    ((f.constInputs op).map fun p => (p.2, (Rules.mask p.1 p.2).toNat)) (f.vn out).size

/-- `op` on its constant inputs as the interpreter sees it, its output stored at `loc`. -/
def emuOp (f : Funcdata) (op : OpId) (loc : Emu.Varnode) (hloc : loc.space ≠ "const") :
    Emu.PcodeOp where
  opcode := (f.op op).opcode
  out := some loc
  ins := (f.constInputs op).map fun p => .var ⟨"const", p.1, p.2⟩
  out_space := Emu.Varnode.out_space hloc

end Funcdata
end Mosura
