import Mosura.Funcdata
import Mosura.Lib.KeyMap
import Mosura.Lib.Worklist

/-! Liveness ranges: the `Cover` of a varnode, by block.

Positions in a block of `n` ops are half-points: the entry is 0, op `i` reads at `2i+1` and writes at
`2i+2`, the exit is `2n+2`. -/

namespace Mosura

/-- A range `[lo, hi]` of positions. -/
abbrev Span := ℤ × ℤ

/-- A program point: a block and a position in it. -/
abbrev Point := ℕ × ℤ

/-- `blocks` keeps the convex hull of the ranges in each block, `spans` the ranges themselves. -/
structure Cover where
  blocks : List (ℕ × Span) := []
  spans : List (ℕ × List Span) := []
  deriving DecidableEq, Repr

namespace Cover

/-- The order of pairs, by which the ranges of a block are sorted. -/
def spanLe (s t : Span) : Prop := s.1 < t.1 ∨ s.1 = t.1 ∧ s.2 ≤ t.2

instance : DecidableRel spanLe := fun s t =>
  inferInstanceAs (Decidable (s.1 < t.1 ∨ s.1 = t.1 ∧ s.2 ≤ t.2))

/-- One turn of the loop that joins ranges; `merged` has its last range first. -/
def joinSpan (merged : List Span) (s : Span) : List Span :=
  match merged with
  | last :: rest => if s.1 ≤ last.2 + 1 then (last.1, max last.2 s.2) :: rest else s :: last :: rest
  | [] => [s]

def i32Max : ℤ := 2 ^ 31 - 1
def i32Min : ℤ := -2 ^ 31

variable (c : Cover)

def spansOf (block : ℕ) : List Span := (KeyMap.lookup block c.spans).getD []

/-- `block_range`: the hull of the ranges in `block`. -/
def blockRange (block : ℕ) : Option Span := KeyMap.lookup block c.blocks

def extend (block : ℕ) (lo hi : ℤ) : Cover :=
  let e := (c.blockRange block).getD (i32Max, i32Min)
  let v := (c.spansOf block ++ [(lo, hi)]).insertionSort spanLe
  { blocks := KeyMap.insert block (min e.1 lo, max e.2 hi) c.blocks
    spans := KeyMap.insert block (v.foldl joinSpan []).reverse c.spans }

def intersects (other : Cover) : Bool :=
  c.blocks.any fun e => (other.blockRange e.1).any fun t =>
    decide (e.2.1 ≤ t.2) && decide (t.1 ≤ e.2.2)

def containsPoint (block : ℕ) (point : ℤ) : Bool :=
  (c.spansOf block).any fun s => decide (s.1 ≤ point) && decide (point ≤ s.2)

end Cover

/-- The block and the index in it of every op that has a place; `get` of `OpPositions`. -/
abbrev OpPositions := OpId → Option (ℕ × ℕ)

namespace Funcdata

variable (f : Funcdata)

/-- The assignments of `op_positions`, in order. -/
def opPlaces : List (OpId × ℕ × ℕ) :=
  f.blocks.zipIdx.flatMap fun e => e.1.ops.zipIdx.map fun o => (o.1, e.2, o.2)

def opPositions : OpPositions :=
  f.opPlaces.foldl (fun pos e => Function.update pos e.1 (some e.2)) fun _ => none

/-- `op_index`: an INDIRECT has the place of the op it guards, if that op has one. -/
def opIndex (op : OpId) (pos : OpPositions) : Option (ℕ × ℕ) :=
  if (f.op op).opcode = .indirect then ((f.op op).guardedOp.bind pos).or (pos op) else pos op

def exitPos (b : BlockId) : ℤ := 2 * (f.block b).ops.length + 2

/-- Where `v` comes alive: the write of its op, or the entry of the function for an input. A written
varnode whose op has no place is the panic "def op is positioned". -/
def defSite (v : VarnodeId) (pos : OpPositions) : Option Point :=
  if (f.vn v).written then do
    let op ← (f.vn v).defOp
    let p ← f.opIndex op pos
    return (p.1, 2 * p.2 + 2)
  else some (0, 0)

/-- The readers of `v`, each once, in the order of their ids. -/
def readers (v : VarnodeId) : List OpId := ((f.vn v).descend.insertionSort (· ≤ ·)).dedup

/-- A MULTIEQUAL reads each of its inputs at the exit of the predecessor of that slot. -/
def phiPreds (v : VarnodeId) (u : OpId) (block : BlockId) : List BlockId :=
  ((f.op u).inrefs.zip (f.block block).inEdges).filterMap fun e =>
    if e.1 = v then some e.2 else none

/-- The cover and the blocks to be live at their exit (the top of the stack first) after the reader
`u` of `v`, which comes alive at `d`. -/
def coverRead (v : VarnodeId) (pos : OpPositions) (d : Point) (s : Cover × List BlockId)
    (u : OpId) : Cover × List BlockId :=
  match f.opIndex u pos with
  | none => s
  | some (ub, ui) =>
    if (f.op u).opcode = .multiequal then (s.1, (f.phiPreds v u ub).reverse ++ s.2)
    else if d.1 = ub ∧ d.2 ≤ 2 * ui + 1 then (s.1.extend ub d.2 (2 * ui + 1), s.2)
    else (s.1.extend ub 0 (2 * ui + 1), (f.block ub).inEdges.reverse ++ s.2)

/-- One block off the stack: live at its exit, back to the definition or to its entry and the exits
of its predecessors. -/
def coverExit (d : Point) (b : BlockId) (s : List BlockId × Cover) :
    (List BlockId × Cover) × List BlockId :=
  if b ∈ s.1 then (s, [])
  else
    ((b :: s.1, s.2.extend b (if d.1 = b then d.2 else 0) (f.exitPos b)),
      if d.1 = b then [] else ((f.block b).inEdges.filter fun p => !decide (p ∈ b :: s.1)).reverse)

/-- More turns than the loop of `cover_of` makes on a stack of `n` blocks. -/
def coverTurns (n : ℕ) : ℕ := n + (f.blocks.map fun b => b.inEdges.length).sum

/-- `cover_of`; `none` is a panic, or a loop that is not done after `coverTurns`. -/
def coverOf (v : VarnodeId) (pos : OpPositions) : Option Cover :=
  if (f.vn v).isFree then some {}
  else do
    let d ← f.defSite v pos
    let s := (f.readers v).foldl (f.coverRead v pos d) (({} : Cover).extend d.1 d.2 d.2, [])
    let r := (Worklist.step (f.coverExit d))^[f.coverTurns s.2.length] (([], s.1), s.2)
    if r.2 = [] then some r.1.2 else none

end Funcdata
end Mosura
