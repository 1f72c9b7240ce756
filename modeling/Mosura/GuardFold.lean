import Mosura.FlowEdit
import Mosura.Primitives

/-! Folding a guard into its switch, `jumpbasic.rs`: the edge from the guard to the default block
becomes an edge of the switch block. -/

namespace Mosura
namespace Funcdata

variable (f : Funcdata)

/-- `new_extended_constant`: a constant of more than 8 bytes is computed ahead of `op`. -/
def newExtendedConstant (size val : ℕ) (op : OpId) : Funcdata × VarnodeId :=
  if size ≤ 8 then f.newConst size (BitVec.ofNat 64 val)
  else
    let lo := BitVec.ofNat 64 val
    let hi := BitVec.ofNat 64 (val >>> 64)
    let (f', newop) :=
      if hi = 0 then
        let (f', clo) := f.newConst 8 lo
        f'.newOpBeforeSized op .intZext [clo] size
      else
        let (f', chi) := f.newConst 8 hi
        let (f', clo) := f'.newConst 8 lo
        f'.newOpBeforeSized op .piece [chi, clo] size
    (f', (f'.op newop).output.getD 0)

/-- An op of `bl` prints as a statement, for `no_intervening_statement`. -/
def intervenes (bl : BlockId) (op : OpId) : Bool :=
  let o := f.op op
  if o.opcode.isMarker then false
  else if o.opcode.isBranch then false
  else if o.opcode.isCall then true
  else if o.opcode = .store ∨ o.opcode = .new then true
  else if o.opcode = .copy ∨ o.opcode = .subpiece then false
  else
    match o.output with
    | none => false
    | some outvn =>
      (f.vn outvn).isAddrtied ||
        (f.vn outvn).descend.any fun reader => decide ((f.op reader).parent ≠ some bl)

def noInterveningStatement (bl : BlockId) : Bool := (f.block bl).ops.all fun op => !f.intervenes bl op

/-- The annotation of `cbranch` is the start of `dest`. -/
def retarget (cbranch : OpId) (dest : BlockId) : Funcdata :=
  match (f.block dest).ops.head? with
  | none => f
  | some first =>
    let (f', anno) := f.newCodeRef (f.op first).seqnum.pc
    f'.opSetInput cbranch 0 anno

/-- `push_branch`: out-edge `slot` of `cb` becomes one of the switch block. -/
def pushBranch (cb : BlockId) (slot : ℕ) (switchbl : BlockId) : Option Funcdata :=
  match (f.block cb).ops.getLast? with
  | none => some f
  | some cbranch => do
    let moved ← (f.block cb).outEdges[slot]?
    if (f.op cbranch).inrefs.length ≤ 1 then none
    else
      let f' := (f.opRemoveInput cbranch 1).opSetOpcode cbranch .branch
      let others := (f'.block cb).outEdges.zipIdx.filter fun e => decide (e.2 ≠ slot)
      let dest := (others.head?.map Prod.fst).getD switchbl
      let f' := f'.retarget cbranch dest
      let f' := f'.modBlock cb fun x => { x with outEdges := x.outEdges.eraseIdx slot }
      let f' := f'.modBlock moved fun x =>
        { x with inEdges := (x.inEdges.idxOf? cb).elim x.inEdges fun i => x.inEdges.set i switchbl }
      some (f'.modBlock switchbl fun x => { x with outEdges := x.outEdges ++ [moved] })

/-- `fold_in_one_guard`: the graph and the position of the folded default. The outer `Option` is a
panic, the inner one the refusal. -/
def foldInOneGuard (cbranch : OpId) (indpath : ℕ) (indop : OpId) (foldedDefault : Option ℕ) :
    Option (Option (Funcdata × ℕ)) :=
  match (f.op cbranch).parent with
  | none => some none
  | some cb =>
    if (f.block cb).outEdges.length ≠ 2 then some none
    else
      match (f.op indop).parent with
      | none => some none
      | some switchbl => do
        let ind ← (f.block cb).outEdges[indpath]?
        if ind ≠ switchbl then some none
        else
          let guardtarget ← (f.block cb).outEdges[1 - indpath]?
          let pos := (f.block switchbl).outEdges.idxOf? guardtarget
          if foldedDefault.isSome ∧ pos ≠ foldedDefault then some none
          else if f.noInterveningStatement switchbl = false then some none
          else
            match pos with
            | none =>
              (f.pushBranch cb (1 - indpath) switchbl).map fun f' =>
                some (f', (f.block switchbl).outEdges.length)
            | some p =>
              let val := if indpath = 0 then 0 else 1
              let sz := ((f.op cbranch).input 1).elim 1 fun v => (f.vn v).size
              let (f', c) := f.newExtendedConstant sz val cbranch
              if (f.op cbranch).inrefs.length ≤ 1 then none
              else some (some (f'.opSetInput cbranch 1 c, p))

end Funcdata
end Mosura
