import Mosura.Recompile.Insn

/-! The model of the original compiler's instruction scheduler (`recompile/watsched.rs`). -/

namespace Mosura
namespace Recompile
namespace Watsched

inductive MemRef
  /-- An absolute access: `[addr, addr + size)`. -/
  | abs (addr : U64) (size : ℕ)
  /-- A register-addressed access. -/
  | indexed
  deriving DecidableEq

/-- The functional unit of an instruction. -/
inductive Fu
  | no | alu | imul | idiv
  deriving DecidableEq

def Fu.opndStall : Fu → ℤ
  | .no => 0
  | .alu => 2
  | .imul => 11
  | .idiv => 24

structure Facts where
  regReads : List (U64 × ℕ) := []
  regWrites : List (U64 × ℕ) := []
  /-- The access, and whether it is a write. -/
  mem : List (MemRef × Bool) := []
  isCall : Bool := false
  fu : Fu := .no
  /-- A `u32`. -/
  stallable : ℕ := 0
  /-- Touches an address of the barrier set. -/
  barrier : Bool := false
  modeled : Bool := false

/-- The `u64` sums wrap. -/
def overlap (a b : U64 × ℕ) : Bool :=
  a.1 < b.1 + BitVec.ofNat 64 b.2 && b.1 < a.1 + BitVec.ofNat 64 a.2

def regsConflict (a b : List (U64 × ℕ)) : Bool := a.any fun x => b.any fun y => overlap x y

/-- Two absolute accesses meet by range, two indexed ones always; two reads never conflict. -/
def memsConflict (a b : List (MemRef × Bool)) : Bool :=
  a.any fun x => b.any fun y => (x.2 || y.2) && match x.1, y.1 with
    | .abs x sx, .abs y sy => overlap (x, sx) (y, sy)
    | .indexed, .indexed => true
    | _, _ => false

def classify (insn : NormInsn) : Fu :=
  if insn.isCall then .no
  else if insn.mnemonic ∈ ["IMUL", "MUL"] then .imul
  else if insn.mnemonic ∈ ["IDIV", "DIV"] then .idiv
  else if insn.mnemonic = "NOP" then .no
  else .alu

/-- `InsOrderDependant`, for `i` later than `j`. -/
def depends (i j : Facts) : Bool :=
  i.barrier || j.barrier || (i.isCall && j.mem.any (·.2)) || (j.isCall && !i.mem.isEmpty) ||
    regsConflict i.regWrites j.regWrites || regsConflict i.regWrites j.regReads ||
    regsConflict i.regReads j.regWrites || memsConflict i.mem j.mem

/-- `StallCost`: how long those below wait for the result of `ins`, when `opnd` is left to wait. -/
def stallCountdown (ins : Facts) : ℤ → List Facts → ℤ
  | _, [] => 0
  | opnd, cur :: below =>
    if opnd = 0 then 0
    else if regsConflict ins.regWrites cur.regReads || regsConflict ins.regWrites cur.regWrites ||
        memsConflict (ins.mem.filter (·.2)) cur.mem then (opnd - 1) * 2
    else stallCountdown ins (opnd - 1) below

def stallCost (ins : Facts) (below : List Facts) : ℤ :=
  if ins.fu.opndStall = 0 then 0 else stallCountdown ins ins.fu.opndStall below

/-! `reduce`. -/

section Reduce

variable (win : List NormInsn) (facts : List Facts)

end Reduce

/-! `ScheduleIns`. -/

section Walk

variable (facts : List Facts)

def fact (i : ℕ) : Facts := facts.getD i {}

/-- The earlier atoms that `i` must stay below. -/
def deps (i : ℕ) : List ℕ := (List.range i).filter fun j => depends (fact facts i) (fact facts j)

/-- `AnnointADag`: the longest chain above each atom, an `i32`. -/
def heights : List ℤ :=
  (List.range facts.length).foldl (fun height i =>
    let h := (deps facts i).foldl (fun h j => max h (height.getD j 0)) 0
    height ++ [(h + (fact facts i).fu.opndStall).bmod (2 ^ 32)]) []

/-- The walk's state. -/
structure Walk where
  placed : List Bool
  succ : List ℕ
  /-- `order_rev`, from its end: the last one placed comes first. -/
  order : List ℕ
  below : List Facts

/-- `c` at `cost` is better than the best so far, `b`. -/
def better (height : List ℤ) (c b : ℕ × ℤ) : Bool :=
  c.2 < b.2 || (c.2 = b.2 &&
    (height.getD c.1 0 > height.getD b.1 0 || (height.getD c.1 0 = height.getD b.1 0 &&
      ((fact facts c.1).stallable > (fact facts b.1).stallable ||
        ((fact facts c.1).stallable = (fact facts b.1).stallable && c.1 > b.1)))))

/-- The best of the atoms that have no unplaced dependents. -/
def pick (height : List ℤ) (w : Walk) : Option (ℕ × ℤ) :=
  (List.range facts.length).foldl (fun best c =>
    if w.placed.getD c true || w.succ.getD c 0 ≠ 0 then best
    else
      let cost := stallCost (fact facts c) w.below
      match best with
      | none => some (c, cost)
      | some b => if better facts height (c, cost) b then some (c, cost) else some b) none

def place (w : Walk) (b : ℕ) : Walk where
  placed := w.placed.set b true
  succ := (deps facts b).foldl (fun succ j => succ.modify j (· - 1)) w.succ
  order := b :: w.order
  below := fact facts b :: w.below

/-- So many picks, one after the other. -/
def walk (height : List ℤ) : ℕ → Walk → Option Walk
  | 0, w => some w
  | k + 1, w => (pick facts height w).bind fun b => walk height k (place facts w b.1)

end Walk

end Watsched
end Recompile
end Mosura
