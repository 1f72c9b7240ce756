import Mosura.Recompile.Insn

/-! Aligning two instruction streams, and naming why they differ (`recompile/align.rs`). -/

namespace Mosura
namespace Recompile

/-- Why one aligned pair of instructions differs. -/
inductive DivergenceClass
  | equal | encoding | registerAlloc | immediate | operandForm | selection | extra | missing
  | branchTarget | layoutShift
  deriving DecidableEq, Repr

namespace DivergenceClass

/-- The candidate does not compute what the original computes. -/
def isSemantic : DivergenceClass → Bool
  | missing | extra | branchTarget => true
  | _ => false

/-- There only because some other divergence is. -/
def isDerived : DivergenceClass → Bool
  | layoutShift => true
  | _ => false

/-- Every class, in the order of the source. -/
def all : List DivergenceClass :=
  [equal, encoding, registerAlloc, immediate, operandForm, selection, extra, missing,
    branchTarget, layoutShift]

end DivergenceClass

/-- One step of the alignment script. -/
inductive AlignOp
  | pair (oi ci : ℕ) (cls : DivergenceClass)
  | origOnly (oi : ℕ)
  | candOnly (ci : ℕ)
  deriving DecidableEq, Repr

/-- The class an operation counts as. -/
def AlignOp.cls : AlignOp → DivergenceClass
  | pair _ _ cls => cls
  | origOnly _ => .missing
  | candOnly _ => .extra

/-- A single attributed difference. -/
structure Divergence where
  cls : DivergenceClass
  addr : U64
  orig : Option String
  cand : Option String

inductive Verdict
  | exact | sameCode | sameShape | mismatch
  deriving DecidableEq, Repr

abbrev Register := U64 × ℕ

/-- The result of comparing one function. -/
structure FnDiff where
  verdict : Verdict
  origInsns : ℕ
  candInsns : ℕ
  origBytes : ℕ
  candBytes : ℕ
  equalInsns : ℕ
  ops : List AlignOp
  divergences : List Divergence
  classCounts : DivergenceClass → ℕ
  primary : Option DivergenceClass
  regSubst : List (Register × Register)
  regSubstConsistent : Bool

def gap : ℕ := 7

/-- `saturating_add` on a `u32`. -/
def saturatingAdd (a b : ℕ) : ℕ := min (a + b) (2 ^ 32 - 1)

def subCost (a b : NormInsn) : ℕ × DivergenceClass :=
  if a.sem = b.sem then
    if a.bytes = b.bytes then (0, .equal)
    else if a.form = b.form then (1, .layoutShift)
    else (1, .encoding)
  else if a.shape = b.shape ∧ a.mnemonic = b.mnemonic then
    match decide (a.regs ≠ b.regs), decide (a.consts ≠ b.consts) with
    | true, false => (3, .registerAlloc)
    | false, true => (3, .immediate)
    | _, _ => (4, .operandForm)
  else if a.mnemonic = b.mnemonic then (6, .operandForm)
  else (9, .selection)

section Compare

variable (orig cand : List NormInsn)

/-- What pairing original `i` with candidate `j` costs; both are in range where this is asked. -/
def pairCost (i j : ℕ) : ℕ × DivergenceClass :=
  match orig[i]?, cand[j]? with
  | some a, some b => subCost a b
  | _, _ => (0, .equal)

/-- The first row and column of the table. -/
def border (i : ℕ) : ℕ := i * gap % 2 ^ 32

/-- Row `i + 1` of the table from row `i`. -/
def dpRow (above : ℕ → ℕ) (i : ℕ) : ℕ → ℕ
  | 0 => border (i + 1)
  | j + 1 =>
    min (min (saturatingAdd (above j) (pairCost orig cand i j).1)
      (saturatingAdd (above (j + 1)) gap)) (saturatingAdd (dpRow above i j) gap)

/-- The Needleman-Wunsch table. -/
def dp : ℕ → ℕ → ℕ
  | 0 => border
  | i + 1 => dpRow orig cand (dp i) i

/-- The trace back along row 0. -/
def tracebackFirst : ℕ → List AlignOp → Option (List AlignOp)
  | 0, ops => some ops
  | j + 1, ops => tracebackFirst j (.candOnly j :: ops)

/-- The trace back along row `i + 1` until it goes up; `none` is a panic at column 0. -/
def tracebackRow (up : ℕ → List AlignOp → Option (List AlignOp)) (i : ℕ) :
    ℕ → List AlignOp → Option (List AlignOp)
  | 0, ops =>
    if dp orig cand (i + 1) 0 = saturatingAdd (dp orig cand i 0) gap then
      up 0 (.origOnly i :: ops)
    else none
  | j + 1, ops =>
    -- a tie prefers the diagonal
    let (c, cls) := pairCost orig cand i j
    if dp orig cand (i + 1) (j + 1) = saturatingAdd (dp orig cand i j) c then
      up j (.pair i j cls :: ops)
    else if dp orig cand (i + 1) (j + 1) = saturatingAdd (dp orig cand i (j + 1)) gap then
      up (j + 1) (.origOnly i :: ops)
    else tracebackRow up i j (.candOnly j :: ops)

/-- The trace back from a cell, in front of the operations that come after it. -/
def traceback : ℕ → ℕ → List AlignOp → Option (List AlignOp)
  | 0 => tracebackFirst
  | i + 1 => tracebackRow orig cand (traceback i) i

/-- `orig_to_cand`: the candidate instruction paired with original `oi`. -/
def partner (ops : List AlignOp) (oi : ℕ) : Option ℕ :=
  (ops.filterMap fun
    | .pair o c _ => some (o, c)
    | _ => none).reverse.lookup oi

/-- `orig_at`, `cand_at`: the number of the last instruction at an address, counting from `k`. -/
def indexAt (a : U64) : ℕ → List NormInsn → Option ℕ
  | _, [] => none
  | k, insn :: insns =>
    (indexAt a (k + 1) insns).orElse fun _ => if insn.addr = a then some k else none

/-- The targets of a pair do not correspond. -/
def landsElsewhere (ops : List AlignOp) (o c : NormInsn) : Bool :=
  match o.target, c.target with
  | some ot, some ct =>
    if o.isCall || c.isCall then ot ≠ ct
    else
      match indexAt ot 0 orig, indexAt ct 0 cand with
      | some i, some j => partner ops i ≠ some j
      | _, _ => ot ≠ ct
  | _, _ => false

/-- The pairs of the same instruction whose control goes elsewhere are demoted. -/
def retarget (ops : List AlignOp) : AlignOp → AlignOp
  | .pair oi ci cls =>
    match orig[oi]?, cand[ci]? with
    | some o, some c =>
      if cls ∈ [DivergenceClass.equal, .encoding, .layoutShift] ∧
          landsElsewhere orig cand ops o c = true then .pair oi ci .branchTarget
      else .pair oi ci cls
    | _, _ => .pair oi ci cls
  | op => op

def textAt (insns : List NormInsn) (k : ℕ) : Option String := insns[k]?.map NormInsn.text

def addrAt (insns : List NormInsn) (k : ℕ) : U64 := insns[k]?.elim 0 NormInsn.addr

def divergence : AlignOp → Option Divergence
  | .pair oi ci cls =>
    if cls = .equal then none
    else some ⟨cls, addrAt orig oi, textAt orig oi, textAt cand ci⟩
  | .origOnly oi => some ⟨.missing, addrAt orig oi, textAt orig oi, none⟩
  | .candOnly ci => some ⟨.extra, addrAt cand ci, none, textAt cand ci⟩

/-- One register pair joins the substitution, or contradicts it. -/
def substStep (s : List (Register × Register) × Bool) (p : Register × Register) :
    List (Register × Register) × Bool :=
  if p.1 = p.2 then s
  else
    match s.1.lookup p.1 with
    | some prev => if prev ≠ p.2 then (s.1, false) else s
    | none => (s.1 ++ [p], s.2)

/-- The register substitution of the whole function. -/
def substitution (ops : List AlignOp) : List (Register × Register) × Bool :=
  (ops.flatMap fun
    | .pair oi ci .registerAlloc =>
      (orig[oi]?.elim [] NormInsn.regs).zip (cand[ci]?.elim [] NormInsn.regs)
    | _ => []).foldl substStep ([], true)

/-- The last class with the greatest count, a semantic one winning a tie. -/
def primaryOf (count : DivergenceClass → ℕ) : Option DivergenceClass :=
  (DivergenceClass.all.filter fun c => 0 < count c && c ≠ .equal && !c.isDerived).foldl
    (fun best c =>
      match best with
      | none => some c
      | some b =>
        if count b < count c ∨ count b = count c ∧ (b.isSemantic → c.isSemantic) then some c
        else some b) none

def verdictOf (divergences : List Divergence) : Verdict :=
  if divergences.isEmpty then .exact
  else if divergences.all fun d => d.cls ∈ [DivergenceClass.encoding, .layoutShift] then .sameCode
  else if divergences.all fun d => !d.cls.isSemantic then .sameShape
  else .mismatch

/-- Align and attribute; `none` is a panic, where the border of the table has overflowed. -/
def compare : Option FnDiff := do
  let script ← traceback orig cand orig.length cand.length []
  let ops := script.map (retarget orig cand script)
  let divergences := ops.filterMap (divergence orig cand)
  let classCounts := fun cls => ops.countP fun op => op.cls = cls
  let subst := substitution orig cand ops
  return {
    verdict := verdictOf divergences
    origInsns := orig.length
    candInsns := cand.length
    origBytes := (orig.map fun insn => insn.bytes.length).sum
    candBytes := (cand.map fun insn => insn.bytes.length).sum
    equalInsns := classCounts .equal
    ops := ops
    divergences := divergences
    classCounts := classCounts
    primary := primaryOf classCounts
    regSubst := subst.1
    regSubstConsistent := subst.2 }

end Compare

end Recompile
end Mosura
