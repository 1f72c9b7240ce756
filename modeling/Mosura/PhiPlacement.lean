import Mosura.Dominator
import Mosura.Primitives

/-! Where `place_phis_and_rename` (`heritage.rs`) puts MULTIEQUALs: at the iterated dominance frontiers
of what is written. `none` is a panic, or a loop that has not ended within its fuel. -/

namespace Mosura

/-- The storage of a value and its size. -/
abbrev Loc := Address × ℕ

def locLe (a b : Loc) : Bool :=
  decide (toLex (a.1.space, toLex (a.1.offset.toNat, a.2)) ≤
    toLex (b.1.space, toLex (b.1.offset.toNat, b.2)))

def Funcdata.locOf (f : Funcdata) (v : VarnodeId) : Loc := ((f.vn v).loc, (f.vn v).size)

/-- The graph, and the varnodes whose flag `activeHeritage` is set. -/
structure Heritage where
  f : Funcdata
  active : VarnodeId → Bool

/-- A frontier block gets its MULTIEQUAL, and is worked on later unless it writes by itself. -/
def placeAt (defs : List BlockId) (s : List BlockId × List BlockId) (d : BlockId) :
    List BlockId × List BlockId :=
  if d ∈ s.2 then s else (if d ∈ defs then s.1 else d :: s.1, s.2 ++ [d])

/-- The blocks of the iterated frontier, in the order in which they get their MULTIEQUALs; the next
block to work on first. -/
def placeLoop (frontier : List (List BlockId)) (defs : List BlockId) :
    ℕ → List BlockId × List BlockId → Option (List BlockId)
  | 0, _ => none
  | _ + 1, ([], placed) => some placed
  | fuel + 1, (x :: work, placed) => (frontier[x]?).bind fun df =>
      placeLoop frontier defs fuel (df.foldl (placeAt defs) (work, placed))

def Funcdata.newMultiequal (f : Funcdata) (b : BlockId) (l : Loc) (npreds : ℕ) :
    Funcdata × OpId × VarnodeId :=
  let pc := ((f.block b).ops.head?).elim f.addr fun o => (f.op o).seqnum.pc
  let (f', inputs) := (List.range npreds).foldl (fun (f, ids) _ =>
    let (f', v) := f.newVarnode l.2 l.1
    (f', ids ++ [v])) (f, [])
  let (f', id) := f'.newOp .multiequal ⟨pc, 2 ^ 32 - 1⟩ inputs
  let (f', out) := f'.newOutput id l.2 l.1
  ((f'.modOp id fun o => { o with parent := some b }).modBlock b fun x =>
    { x with ops := id :: x.ops }, id, out)

namespace Heritage

variable (s : Heritage)

/-- The location that `op` writes, if its output takes part. -/
def written (op : OpId) : Option Loc :=
  ((s.f.op op).output.filter s.active).map s.f.locOf

def writesAt (b : BlockId) : List Loc := (s.f.block b).ops.filterMap s.written

def defBlocks (l : Loc) : List BlockId :=
  (List.range s.f.numBlocks).filter fun b => decide (l ∈ s.writesAt b)

def locations : List Loc :=
  ((List.range s.f.numBlocks).flatMap s.writesAt).dedup.mergeSort locLe

/-- The MULTIEQUALs so far, each with its block and location. -/
abbrev Phis := List (BlockId × Loc × OpId)

def placePhi (l : Loc) (p : Heritage × Phis) (d : BlockId) : Heritage × Phis :=
  let (s, phis) := p
  let (f, phi, out) := s.f.newMultiequal d l (s.f.block d).inEdges.length
  ({ s with f := f, active := Function.update s.active out true }, phis ++ [(d, l, phi)])

/-- The MULTIEQUALs of one location; `s₀` is the graph before any were placed. -/
def placePhis (s₀ : Heritage) (frontier : List (List BlockId)) (p : Heritage × Phis) (l : Loc) :
    Option (Heritage × Phis) :=
  let defs := s₀.defBlocks l
  (placeLoop frontier defs (2 * s₀.f.numBlocks + 1) (defs.reverse, [])).map fun placed =>
    placed.foldl (placePhi l) p

/-- The MULTIEQUALs of all locations. -/
def placeAllPhis (dom : DominatorInfo) : Option (Heritage × Phis) :=
  s.locations.foldlM (placePhis s dom.frontier) (s, [])

end Heritage
end Mosura
