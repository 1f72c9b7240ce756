import Mosura.Edit

/-! The other editing primitives of `Funcdata` (`funcdata.rs`), and sequences of calls of them. -/

namespace Mosura
namespace Funcdata

variable (f : Funcdata)

def newVarnode (size : ℕ) (loc : Address) : Funcdata × VarnodeId :=
  (f.allocVarnode size loc false, f.numVarnodes)

/-- `apply_input_effect`; `unaffected` is what the prototype model says of the storage. -/
def applyInputEffect (unaffected : Address → ℕ → Bool) (v : VarnodeId) : Funcdata :=
  if unaffected (f.vn v).loc (f.vn v).size then f.modVn v fun x => { x with unaffected := true }
  else f

/-- The first input at exactly this storage. -/
def inputAt (size : ℕ) (loc : Address) : Option VarnodeId :=
  (List.range f.numVarnodes).find? fun i =>
    (f.vn i).input && decide ((f.vn i).loc = loc) && decide ((f.vn i).size = size)

def newInput (unaffected : Address → ℕ → Bool) (size : ℕ) (loc : Address) :
    Funcdata × VarnodeId :=
  match f.inputAt size loc with
  | some v => (f, v)
  | none =>
    (((f.allocVarnode size loc false).modVn f.numVarnodes fun x => { x with
        input := true
        insert := true }).applyInputEffect unaffected f.numVarnodes, f.numVarnodes)

/-- `set_input_varnode`: `vid` itself is not found at its own storage, as it is no input yet. -/
def setInputVarnode (unaffected : Address → ℕ → Bool) (vid : VarnodeId) : Funcdata × VarnodeId :=
  if (f.vn vid).input then (f, vid)
  else
    match f.inputAt (f.vn vid).size (f.vn vid).loc with
    | some v => (f, v)
    | none =>
      ((f.modVn vid fun x => { x with
          defOp := none
          written := false
          input := true
          insert := true }).applyInputEffect unaffected vid, vid)

def deleteVarnode (vid : VarnodeId) : Funcdata :=
  f.modVn vid fun x => { x with
    deleted := true
    defOp := none
    input := false
    insert := false
    written := false
    unaffected := false }

def opAppendInput (op : OpId) (vid : VarnodeId) : Funcdata :=
  let (f', vid) := f.uniqueConstantFor vid
  (f'.modOp op fun o => { o with inrefs := o.inrefs ++ [vid] }).addDescend vid op

def opInsertInput (op : OpId) (slot : ℕ) (vid : VarnodeId) : Funcdata :=
  let (f', vid) := f.uniqueConstantFor vid
  (f'.modOp op fun o => { o with inrefs := o.inrefs.insertIdx slot vid }).addDescend vid op

/-- All inputs leave `op`, each dropping it from its readers. -/
def takeInputs (op : OpId) : Funcdata :=
  (f.op op).inrefs.foldl (fun g v => g.eraseDescend v op)
    (f.modOp op fun o => { o with inrefs := [] })

def opSetAllInput (op : OpId) (inputs : List VarnodeId) : Funcdata :=
  inputs.foldl (fun g v => g.opAppendInput op v) (f.takeInputs op)

/-- `op_swap_input`; a slot `op` does not have (a panic in the source) changes nothing. -/
def opSwapInput (op : OpId) (i j : ℕ) : Funcdata :=
  match (f.op op).input i, (f.op op).input j with
  | some a, some b => f.modOp op fun o => { o with inrefs := (o.inrefs.set i b).set j a }
  | _, _ => f

/-- The output leaves `op` and is free. -/
def unsetOutput (op : OpId) : Funcdata :=
  match (f.op op).output with
  | none => f
  | some old => (f.modOp op fun o => { o with output := none }).makeFree old

/-- `vid` leaves the op that defines it. -/
def takeDef (vid : VarnodeId) : Funcdata :=
  match (f.vn vid).defOp with
  | none => f
  | some old => (f.modVn vid fun x => { x with defOp := none }).modOp old fun o =>
      { o with output := none }

def opSetOutput (op : OpId) (vid : VarnodeId) : Funcdata :=
  if (f.op op).output = some vid then f
  else
    (((f.unsetOutput op).takeDef vid).modVn vid fun x => { x with
      defOp := some op
      written := true
      insert := true }).modOp op fun o => { o with output := some vid }

/-- One reader of `total_replace`: `new` goes into every slot that reads `old`, and gets the reader
once for each. -/
def replaceIn (old new : VarnodeId) (op : OpId) : Funcdata :=
  (f.modOp op fun o => { o with inrefs := o.inrefs.map fun v => if v = old then new else v }).modVn
    new fun x => { x with descend := x.descend ++ List.replicate ((f.op op).inrefs.count old) op }

def totalReplace (old new : VarnodeId) : Funcdata :=
  (f.vn old).descend.foldl (fun g op => g.replaceIn old new op)
    (f.modVn old fun x => { x with descend := [] })

/-- `op_destroy`. -/
def opDestroy (op : OpId) : Funcdata :=
  let f' := f.takeInputs op
  let f' := match (f'.op op).output with
    | none => f'
    | some out => (f'.modOp op fun o => { o with output := none }).deleteVarnode out
  f'.modOp op fun o => { o with dead := true }

/-- The definition of input `v` of a destroyed op follows it: `v` is written, is not kept alive
otherwise and has no other reader, and its op has no other effect. A written varnode without an op is
a panic in the source. -/
def followsDown (v : VarnodeId) : Option OpId :=
  if !(f.vn v).written || (f.vn v).isAutoLive || (f.vn v).descend.length != 1 then none
  else (f.vn v).defOp.filter fun d => !((f.op d).opcode.isCall || (f.op d).indirectSource)

/-- The loop of `op_destroy_recursive`, cut off after `fuel` ops. -/
def destroyAll : ℕ → Funcdata → List OpId → Option Funcdata
  | _, f, [] => some f
  | 0, _, _ :: _ => none
  | fuel + 1, f, cur :: rest =>
    destroyAll fuel (f.opDestroy cur) (rest ++ (f.op cur).inrefs.filterMap f.followsDown)

/-- An op is pushed for an input of an op that loses it: the inputs of all ops bound the loop. -/
def opDestroyRecursive (op : OpId) : Option Funcdata :=
  destroyAll (1 + ((List.range f.numOps).map fun o => (f.op o).inrefs.length).sum) f [op]

def opInsertBegin (op : OpId) (block : BlockId) : Funcdata :=
  let multis := (f.block block).ops.takeWhile fun o => decide ((f.op o).opcode = .multiequal)
  let pos := if (f.op op).opcode = .multiequal then 0 else multis.length
  (f.modOp op fun o => { o with parent := some block }).modBlock block fun b =>
    { b with ops := b.ops.insertIdx pos op }

/-- The op after whose effect an op after `prev` comes: an INDIRECT's is that of the op it guards. -/
def effectOp (prev : OpId) : OpId :=
  if (f.op prev).opcode = .indirect then
    ((f.op prev).guardedOp.filter fun g => !(f.op g).dead).getD prev
  else prev

/-- The index in `ops` for an op after `prev`; no MULTIEQUAL is to follow it directly. -/
def indexAfter (newop prev : OpId) (ops : List OpId) : ℕ :=
  let pos := (ops.idxOf? prev).elim ops.length (· + 1)
  if (f.op newop).opcode = .multiequal then pos
  else pos + ((ops.drop pos).takeWhile fun o => decide ((f.op o).opcode = .multiequal)).length

/-- `op_insert_after`. -/
def opInsertAfter (newop prev : OpId) : Funcdata :=
  let prev := f.effectOp prev
  let f' := f.modOp newop fun o => { o with parent := (f.op prev).parent }
  match (f.op prev).parent with
  | none => f'
  | some b => f'.modBlock b fun x => { x with
      ops := x.ops.insertIdx (f.indexAfter newop prev x.ops) newop }

/-- One reader of `split_uses`: it reads a fresh copy of the value, computed by a copy of the op. -/
def splitUse (vn : VarnodeId) (op : OpId) (inputs : List VarnodeId) (useop : OpId) : Funcdata :=
  match (f.op useop).inrefs.idxOf? vn with
  | none => f
  | some slot =>
    let (f', newop) := f.newOp (f.op op).opcode ⟨(f.op op).seqnum.pc, f.numOps⟩ inputs
    let (f', newvn) := f'.newOutput newop (f.vn vn).size (f.vn vn).loc
    (f'.opSetInput useop slot newvn).opInsertBefore newop op

def splitUses (vn : VarnodeId) : Funcdata :=
  match (f.vn vn).defOp with
  | none => f
  | some op =>
    if (f.vn vn).descend.length ≤ 1 then f
    else (f.vn vn).descend.foldl (fun g useop => g.splitUse vn op (f.op op).inrefs useop) f

/-- `op` reads exactly the two halves, as `combine_input_varnodes` looks for them. -/
def isPieceOf (hi lo : VarnodeId) (op : OpId) : Bool :=
  decide ((f.op op).opcode = .piece) && decide ((f.op op).input 0 = some hi) &&
    decide ((f.op op).input 1 = some lo)

/-- A half that is read on its own: a SUBPIECE of the whole takes its place, at the entry, whose first
op has the address `start`. -/
def subpieceFor (start : Option Address) (half : VarnodeId) (offset : ℕ) : Funcdata × OpId :=
  let (f', off) := f.newConst 4 (BitVec.ofNat 64 offset)
  let (f', op) := f'.newOp .subpiece ⟨start.getD (f'.vn half).loc, f'.numOps⟩ [half, off]
  let (f', newvn) := f'.newOutput op (f'.vn half).size (f'.vn half).loc
  ((f'.opInsertBegin op 0).totalReplace half newvn, op)

/-- `subpieceFor` if the half has other readers than the PIECEs. -/
def subpieceIf (needed : Bool) (start : Option Address) (half : VarnodeId) (offset : ℕ) :
    Funcdata × Option OpId :=
  if needed then ((f.subpieceFor start half offset).1, some (f.subpieceFor start half offset).2)
  else (f, none)

/-- Input 1 of each PIECE goes; the PIECE that has lost it already is a panic in the source. -/
def dropLows (pieces : List OpId) : Option Funcdata :=
  pieces.foldlM (fun g p =>
    if 1 < (g.op p).inrefs.length then some (g.opRemoveInput p 1) else none) f

/-- `combine_input_varnodes`; `none` is a panic, also where there is no entry block. -/
def combineInputVarnodes (unaffected : Address → ℕ → Bool) (hi lo : VarnodeId) :
    Option (Funcdata × Bool) :=
  if !(f.vn hi).input || !(f.vn lo).input then some (f, false)
  else if (⟨(f.vn lo).loc.space, (f.vn lo).loc.offset + BitVec.ofNat 64 (f.vn lo).size⟩ : Address) ≠
      (f.vn hi).loc then some (f, false)
  else do
    let pieces := (f.vn hi).descend.filter (f.isPieceOf hi lo)
    let otherHi := (f.vn hi).descend.any fun op => !f.isPieceOf hi lo op
    let otherLo := (f.vn lo).descend.any fun op => !f.isPieceOf hi lo op
    let f' ← f.dropLows pieces
    let entry ← f'.blocks.head?
    let start := entry.ops.head?.map fun o => (f'.op o).seqnum.pc
    let (f', subHi) := f'.subpieceIf otherHi start hi (f'.vn lo).size
    let (f', subLo) := f'.subpieceIf otherLo start lo 0
    let (f', whole) := f'.newVarnode ((f'.vn hi).size + (f'.vn lo).size) (f.vn lo).loc
    let (f', whole) := f'.setInputVarnode unaffected whole
    let f' := pieces.foldl (fun g p => (g.opSetInput p 0 whole).opSetOpcode p .copy) f'
    let f' := (subHi.toList ++ subLo.toList).foldl (fun g op => g.opSetInput op 0 whole) f'
    return (f', true)

end Funcdata

/-- A call of an editing primitive. -/
inductive Edit
  | newVarnode (size : ℕ) (loc : Address)
  | newInput (size : ℕ) (loc : Address)
  | newConst (size : ℕ) (value : U64)
  | newOp (opcode : OpCode) (seqnum : SeqNum) (inputs : List VarnodeId)
  | newOutput (op : OpId) (size : ℕ) (loc : Address)
  | opSetInput (op : OpId) (slot : ℕ) (vid : VarnodeId)
  | opSetAllInput (op : OpId) (inputs : List VarnodeId)
  | opInsertInput (op : OpId) (slot : ℕ) (vid : VarnodeId)
  | opRemoveInput (op : OpId) (slot : ℕ)
  | opAppendInput (op : OpId) (vid : VarnodeId)
  | opSwapInput (op : OpId) (i j : ℕ)
  | opSetOutput (op : OpId) (vid : VarnodeId)
  | totalReplace (old new : VarnodeId)
  | opDestroy (op : OpId)
  | opDestroyRecursive (op : OpId)
  | deleteVarnode (vid : VarnodeId)
  | setInputVarnode (vid : VarnodeId)
  | combineInputVarnodes (hi lo : VarnodeId)
  | splitUses (vn : VarnodeId)

namespace Edit

/-- The call names ops, varnodes and slots that exist; any other one is a panic. -/
def Valid (f : Funcdata) : Edit → Prop
  | newVarnode _ _ | newInput _ _ | newConst _ _ => True
  | newOp _ _ inputs => ∀ v ∈ inputs, v < f.numVarnodes
  | newOutput op _ _ | opDestroy op | opDestroyRecursive op => op < f.numOps
  | opSetInput op slot vid =>
    op < f.numOps ∧ vid < f.numVarnodes ∧ slot < (f.op op).inrefs.length
  | opSetAllInput op inputs => op < f.numOps ∧ ∀ v ∈ inputs, v < f.numVarnodes
  | opInsertInput op slot vid =>
    op < f.numOps ∧ vid < f.numVarnodes ∧ slot ≤ (f.op op).inrefs.length
  | opRemoveInput op slot => op < f.numOps ∧ slot < (f.op op).inrefs.length
  | opAppendInput op vid | opSetOutput op vid => op < f.numOps ∧ vid < f.numVarnodes
  | opSwapInput op i j =>
    op < f.numOps ∧ i < (f.op op).inrefs.length ∧ j < (f.op op).inrefs.length
  | totalReplace old new => old < f.numVarnodes ∧ new < f.numVarnodes
  | deleteVarnode vid | setInputVarnode vid | splitUses vid => vid < f.numVarnodes
  | combineInputVarnodes hi lo => hi < f.numVarnodes ∧ lo < f.numVarnodes

/-- The graph after the call; `none` is a panic in the call. -/
def apply (unaffected : Address → ℕ → Bool) (f : Funcdata) : Edit → Option Funcdata
  | newVarnode size loc => some (f.newVarnode size loc).1
  | newInput size loc => some (f.newInput unaffected size loc).1
  | newConst size value => some (f.newConst size value).1
  | newOp opcode seqnum inputs => some (f.newOp opcode seqnum inputs).1
  | newOutput op size loc => some (f.newOutput op size loc).1
  | opSetInput op slot vid => some (f.opSetInput op slot vid)
  | opSetAllInput op inputs => some (f.opSetAllInput op inputs)
  | opInsertInput op slot vid => some (f.opInsertInput op slot vid)
  | opRemoveInput op slot => some (f.opRemoveInput op slot)
  | opAppendInput op vid => some (f.opAppendInput op vid)
  | opSwapInput op i j => some (f.opSwapInput op i j)
  | opSetOutput op vid => some (f.opSetOutput op vid)
  | totalReplace old new => some (f.totalReplace old new)
  | opDestroy op => some (f.opDestroy op)
  | opDestroyRecursive op => f.opDestroyRecursive op
  | deleteVarnode vid => some (f.deleteVarnode vid)
  | setInputVarnode vid => some (f.setInputVarnode unaffected vid).1
  | combineInputVarnodes hi lo => (f.combineInputVarnodes unaffected hi lo).map Prod.fst
  | splitUses vn => some (f.splitUses vn)

end Edit
end Mosura
