import Mosura.Image

/-! Normalized instructions, the unit the aligner compares (`recompile/insn.rs`). -/

namespace Mosura
namespace Recompile

open Emu (PArg Instruction)

/-- A p-code operand, canonicalized for comparison. -/
inductive SemArg
  | reg (offset : U64) (size : ℕ)
  | const (value : U64) (size : ℕ)
  | mem (space : String) (offset : U64) (size : ℕ)
  /-- A lifter temporary, numbered in order of first appearance. -/
  | temp (id size : ℕ)
  | space (name : String)
  /-- The branch or call destination, held out of the comparison. -/
  | target
  /-- A constant that is this instruction's own address or its successor's. -/
  | pcRef
  deriving DecidableEq, Repr

structure SemOp where
  opcode : OpCode
  out : Option SemArg
  ins : List SemArg
  deriving DecidableEq

/-- `Relocator::resolve`: what an operand of an instruction holds once it is linked. -/
abbrev Relocator := U64 → ℕ → U64 → ℕ → Option U64

def noReloc : Relocator := fun _ _ _ _ => none

def isBranchish (opcode : OpCode) : Bool :=
  opcode ∈ [OpCode.branch, .cbranch, .branchind, .call, .callind]

def isBranch (opcode : OpCode) : Bool := opcode ∈ [OpCode.branch, .cbranch, .branchind]

def isCall (opcode : OpCode) : Bool := opcode ∈ [OpCode.call, .callind]

/-- The destination of a branch or call, where it lives in a real address space. -/
def destination (op : Emu.PcodeOp) : Option U64 :=
  if isBranchish op.opcode then
    match op.ins.head? with
    | some (.var v) =>
      if !v.isConst && v.space ≠ "register" && v.space ≠ "unique" then some v.offset else none
    | _ => none
  else none

/-- `target_arg`, `target`: the last operation with a destination; it is that one's first input. -/
def targetArg : ℕ → List Emu.PcodeOp → Option (ℕ × U64)
  | _, [] => none
  | oi, op :: ops => (targetArg (oi + 1) ops).orElse fun _ => (destination op).map (oi, ·)

/-- What `conv` has seen of the instruction so far, in order of first appearance. -/
structure Seen where
  temps : List U64 := []
  regs : List (U64 × ℕ) := []
  consts : List U64 := []

/-- `x` at the end, unless it is there. -/
def insertEnd {α : Type} [DecidableEq α] (xs : List α) (x : α) : List α :=
  if x ∈ xs then xs else xs ++ [x]

section Normalize

variable (reloc : Relocator) (insn : Instruction)

def resolveConst (value : U64) (size : ℕ) : Option U64 :=
  reloc insn.address insn.bytes.length value size

/-- One operand that is not the target. -/
def conv (seen : Seen) (v : Emu.Varnode) : SemArg × Seen :=
  if v.space = "unique" then
    let temps := insertEnd seen.temps v.offset
    (.temp (temps.idxOf v.offset) v.size, { seen with temps := temps })
  else if v.space = "register" then
    (.reg v.offset v.size, { seen with regs := insertEnd seen.regs (v.offset, v.size) })
  else
    let val := (resolveConst reloc insn v.offset v.size).getD v.offset
    if v.space = "const" then
      if val = insn.address ∨ val = insn.address + BitVec.ofNat 64 insn.bytes.length then
        (.pcRef, seen)
      else (.const val v.size, { seen with consts := insertEnd seen.consts val })
    else (.mem v.space val v.size, seen)

def convArg (isTarget : Bool) (seen : Seen) : PArg → SemArg × Seen
  | .space s => (.space s, seen)
  | .var v => if isTarget then (.target, seen) else conv reloc insn seen v

/-- The inputs of an operation; the target can only be the first of them. -/
def convIns (isTarget : Bool) : Seen → List PArg → List SemArg × Seen
  | seen, [] => ([], seen)
  | seen, a :: as =>
    let first := convArg reloc insn isTarget seen a
    let rest := convIns false first.2 as
    (first.1 :: rest.1, rest.2)

def convOut (seen : Seen) : Option Emu.Varnode → Option SemArg × Seen
  | none => (none, seen)
  | some v => let r := conv reloc insn seen v; (some r.1, r.2)

/-- The operations from number `oi` on, where `targetOp` holds the target. -/
def convOps (targetOp : Option ℕ) : ℕ → Seen → List Emu.PcodeOp → List SemOp × Seen
  | _, seen, [] => ([], seen)
  | oi, seen, op :: ops =>
    let out := convOut reloc insn seen op.out
    let ins := convIns reloc insn (targetOp = some oi) out.2 op.ins
    let rest := convOps targetOp (oi + 1) ins.2 ops
    (⟨op.opcode, out.1, ins.1⟩ :: rest.1, rest.2)

end Normalize

def erase : SemArg → SemArg
  | .reg _ size => .reg (BitVec.allOnes 64) size
  | .const _ size => .const (BitVec.allOnes 64) size
  | .mem space _ size => .mem space (BitVec.allOnes 64) size
  | other => other

/-- An instruction, normalized for comparison. -/
structure NormInsn where
  addr : U64
  bytes : List (BitVec 8)
  text : String
  mnemonic : String
  sem : List SemOp
  /-- `sem` with registers and constants erased. -/
  shape : List SemOp
  regs : List (U64 × ℕ)
  consts : List U64
  target : Option U64
  isBranch : Bool
  isCall : Bool
  /-- The bytes with every operand-value bit cleared. -/
  form : List (BitVec 8)
  target_sem : target.isSome ↔ ∃ op ∈ sem, SemArg.target ∈ op.ins

namespace NormInsn

def end_ (insn : NormInsn) : U64 := insn.addr + BitVec.ofNat 64 insn.bytes.length

/-- What each location holds after the COPYs `ops`, where every other op has an effect. -/
def copies : List (SemArg × SemArg) → List SemOp → Option (List (SemArg × SemArg))
  | state, [] => some state
  | state, op :: ops =>
    match op.opcode, op.out, op.ins.head? with
    | .copy, some out, some src =>
      let val := (state.lookup src).getD src
      let state := if (state.lookup out).isSome then
        state.map fun p => if p.1 = out then (out, val) else p
      else state ++ [(out, val)]
      copies state ops
    | _, _, _ => none

/-- Every location that is not a temporary ends up holding what it held. -/
def isNop (insn : NormInsn) : Bool :=
  match copies [] insn.sem with
  | none => false
  | some state => state.all fun p =>
    match p.1 with
    | .temp _ _ => true
    | loc => loc = p.2

end NormInsn

section Target

variable {reloc : Relocator} {insn : Instruction}

theorem conv_ne_target (seen : Seen) (v : Emu.Varnode) : (conv reloc insn seen v).1 ≠ .target := by
  unfold conv
  dsimp only
  split_ifs <;> exact SemArg.noConfusion

theorem target_notMem_convIns (seen : Seen) (as : List PArg) :
    SemArg.target ∉ (convIns reloc insn false seen as).1 := by
  induction as generalizing seen with
  | nil => exact List.not_mem_nil
  | cons a as ih =>
    intro h
    obtain h | h := List.mem_cons.mp h
    · cases a with
      | space s => exact SemArg.noConfusion h
      | var v => exact conv_ne_target seen v h.symm
    · exact ih _ h

theorem target_mem_convIns_iff (b : Bool) (seen : Seen) (as : List PArg) :
    SemArg.target ∈ (convIns reloc insn b seen as).1 ↔
      b = true ∧ ∃ v, as.head? = some (.var v) := by
  cases b with
  | false =>
    refine ⟨fun h => absurd h (target_notMem_convIns seen as), fun h => ?_⟩
    cases h.1
  | true =>
    cases as with
    | nil =>
      refine ⟨fun h => absurd h List.not_mem_nil, ?_⟩
      rintro ⟨-, v, hv⟩
      cases hv
    | cons a as =>
      constructor
      · intro h
        obtain h | h := List.mem_cons.mp h
        · cases a with
          | space s => exact SemArg.noConfusion h
          | var v => exact ⟨rfl, v, rfl⟩
        · exact absurd h (target_notMem_convIns _ as)
      · rintro ⟨-, v, hv⟩
        obtain rfl := Option.some.inj hv
        exact List.mem_cons_self

/-- The target is found exactly where it was put. -/
theorem target_mem_convOps_iff (targetOp : Option ℕ) (oi : ℕ) (seen : Seen) (ops : List Emu.PcodeOp) :
    (∃ op ∈ (convOps reloc insn targetOp oi seen ops).1, SemArg.target ∈ op.ins) ↔
      ∃ k op v, ops[k]? = some op ∧ targetOp = some (oi + k) ∧ op.ins.head? = some (.var v) := by
  induction ops generalizing oi seen with
  | nil =>
    constructor
    · rintro ⟨op, hop, -⟩
      exact absurd hop List.not_mem_nil
    · rintro ⟨k, op, v, hk, -⟩
      cases hk
  | cons op ops ih =>
    constructor
    · rintro ⟨sem, hsem, htarget⟩
      obtain rfl | hsem := List.mem_cons.mp hsem
      · obtain ⟨hoi, v, hv⟩ := (target_mem_convIns_iff _ _ _).mp htarget
        exact ⟨0, op, v, rfl, of_decide_eq_true hoi, hv⟩
      · obtain ⟨k, op', v, hk, hoi, hv⟩ := (ih _ _).mp ⟨sem, hsem, htarget⟩
        exact ⟨k + 1, op', v, hk, by rw [hoi, Nat.add_right_comm, Nat.add_assoc], hv⟩
    · rintro ⟨k, op', v, hk, hoi, hv⟩
      cases k with
      | zero =>
        obtain rfl := Option.some.inj hk
        refine ⟨_, List.mem_cons_self, (target_mem_convIns_iff _ _ _).mpr ⟨?_, v, hv⟩⟩
        exact decide_eq_true hoi
      | succ k =>
        obtain ⟨sem, hsem, htarget⟩ := (ih (oi + 1) _).mpr
          ⟨k, op', v, hk, by rw [hoi, Nat.add_right_comm, Nat.add_assoc], hv⟩
        exact ⟨sem, List.mem_cons_of_mem _ hsem, htarget⟩

theorem targetArg_some {oi j : ℕ} {t : U64} {ops : List Emu.PcodeOp}
    (h : targetArg oi ops = some (j, t)) :
    ∃ k op, j = oi + k ∧ ops[k]? = some op ∧ destination op = some t := by
  induction ops generalizing oi with
  | nil => cases h
  | cons op ops ih =>
    unfold targetArg at h
    cases hrest : targetArg (oi + 1) ops with
    | some r =>
      rw [hrest] at h
      obtain rfl := Option.some.inj h
      obtain ⟨k, op', rfl, hk, ht⟩ := ih hrest
      exact ⟨k + 1, op', by rw [Nat.add_assoc, Nat.add_comm 1], hk, ht⟩
    | none =>
      rw [hrest] at h
      obtain ⟨t', ht', heq⟩ := Option.map_eq_some_iff.mp h
      obtain ⟨rfl, rfl⟩ := Prod.mk.inj heq
      exact ⟨0, op, rfl, rfl, ht'⟩

theorem destination_some {op : Emu.PcodeOp} {t : U64} (h : destination op = some t) :
    ∃ v, op.ins.head? = some (.var v) := by
  unfold destination at h
  split_ifs at h
  split at h
  · rename_i v hv
    exact ⟨v, hv⟩
  · cases h

theorem isSome_targetArg_iff (ops : List Emu.PcodeOp) :
    (targetArg 0 ops).isSome ↔
      ∃ op ∈ (convOps reloc insn ((targetArg 0 ops).map Prod.fst) 0 {} ops).1,
        SemArg.target ∈ op.ins := by
  rw [target_mem_convOps_iff]
  constructor
  · intro h
    obtain ⟨⟨j, t⟩, hj⟩ := Option.isSome_iff_exists.mp h
    obtain ⟨k, op, rfl, hk, ht⟩ := targetArg_some hj
    obtain ⟨v, hv⟩ := destination_some ht
    exact ⟨k, op, v, hk, by rw [hj]; rfl, hv⟩
  · rintro ⟨k, op, v, -, hk, -⟩
    obtain ⟨r, hr, -⟩ := Option.map_eq_some_iff.mp hk
    rw [hr]
    rfl

end Target

/-- `normalize_one_with_mask`. -/
def normalizeOneWithMask (insn : Instruction) (reloc : Relocator)
    (mask : Option (List (BitVec 8))) : NormInsn :=
  let arg := targetArg 0 insn.ops
  let sem := convOps reloc insn (arg.map Prod.fst) 0 {} insn.ops
  { addr := insn.address
    bytes := insn.bytes
    text := if insn.body.isEmpty then insn.mnemonic else insn.mnemonic ++ " " ++ insn.body
    mnemonic := insn.mnemonic
    sem := sem.1
    shape := sem.1.map fun op => ⟨op.opcode, op.out.map erase, op.ins.map erase⟩
    regs := sem.2.regs
    consts := sem.2.consts
    target := arg.map fun p => (resolveConst reloc insn p.2 4).getD p.2
    isBranch := insn.ops.any fun op => isBranch op.opcode
    isCall := insn.ops.any fun op => isCall op.opcode
    form := mask.elim insn.bytes fun m => insn.bytes.zipWith (· &&& ·) m
    target_sem := by
      rw [Option.isSome_map]
      exact isSome_targetArg_iff insn.ops }

end Recompile
end Mosura
