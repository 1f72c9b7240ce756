import Mosura.Nzmask

/-! Dominator tree and dominance frontiers over the CFG, `dominator.rs`. `none` is a panic, or a loop
that has not ended within its fuel. -/

namespace Mosura

/-- Per-block immediate dominators and dominance frontiers. -/
structure DominatorInfo extends Dominators where
  frontier : List (List BlockId)

/-- `Dominators::dominates`: does block `a` dominate block `b`, walking the idom chain? -/
def Dominators.walk (dom : Dominators) (a : BlockId) : ℕ → BlockId → Option Bool
  | 0, _ => none
  | fuel + 1, n =>
    if n = a then some true
    else
      (dom.idom[n]?).bind fun up =>
        if n = up then some false -- reached entry
        else dom.walk a fuel up

/-- `usize::MAX`, the idom of a block that is not processed yet. -/
def unprocessed : ℕ := 2 ^ 64 - 1

/-- The state of the depth-first search; the top of the stack first. -/
structure PostState where
  order : List BlockId
  visited : List Bool
  stack : List (BlockId × ℕ)
  deriving DecidableEq, Repr

namespace Funcdata

variable (f : Funcdata)

/-- One turn of the search: visit the next child, or emit the node on the way back up. -/
def postorderStep (s : PostState) : Option PostState :=
  match s.stack with
  | [] => some s
  | (node, ci) :: rest =>
    (f.blocks[node]?).bind fun blk =>
      match blk.outEdges[ci]? with
      | some succ =>
        (s.visited[succ]?).map fun seen =>
          if seen then { s with stack := (node, ci + 1) :: rest }
          else
            { s with
              visited := s.visited.set succ true
              stack := (succ, 0) :: (node, ci + 1) :: rest }
      | none => some { s with order := s.order ++ [node], stack := rest }

def postorderLoop : ℕ → PostState → Option (List BlockId)
  | 0, _ => none
  | fuel + 1, s =>
    if s.stack = [] then some s.order else (f.postorderStep s).bind (postorderLoop fuel)

/-- As many turns as there are blocks and edges suffice. -/
def postorderFuel : ℕ := (f.blocks.map fun b => b.outEdges.length + 1).sum + 1

/-- Postorder of the CFG from the entry (block 0), over out-edges. -/
def postorder : Option (List BlockId) :=
  f.postorderLoop f.postorderFuel
    { order := []
      visited := (List.replicate f.numBlocks false).set 0 true
      stack := [(0, 0)] }

end Funcdata

/-- Idoms as they are computed: `none` is `usize::MAX`. -/
abbrev Idoms := List (Option BlockId)

/-- `while rpo_num[a] > rpo_num[b] { a = idom[a]; }` -/
def climb (idom : Idoms) (rpoNum : List ℕ) (b : BlockId) : ℕ → BlockId → Option BlockId
  | 0, _ => none
  | fuel + 1, a =>
    (rpoNum[a]?).bind fun na => (rpoNum[b]?).bind fun nb =>
      if nb < na then ((idom[a]?).join).bind (climb idom rpoNum b fuel) else some a

def intersect (idom : Idoms) (rpoNum : List ℕ) : ℕ → BlockId → BlockId → Option BlockId
  | 0, _, _ => none
  | fuel + 1, a, b =>
    if a = b then some a
    else
      (climb idom rpoNum b (fuel + 1) a).bind fun a' =>
        (climb idom rpoNum a' (fuel + 1) b).bind fun b' => intersect idom rpoNum fuel a' b'

/-- `new_idom` after the predecessor `p`; one not yet processed does not count. -/
def meetPred (idom : Idoms) (rpoNum : List ℕ) (new : Option BlockId) (p : BlockId) :
    Option (Option BlockId) :=
  (idom[p]?).bind fun up =>
    match up, new with
    | none, _ => some new
    | some _, none => some (some p)
    | some _, some q => (intersect idom rpoNum (2 * idom.length + 1) p q).map some

def newIdom (idom : Idoms) (rpoNum : List ℕ) (preds : List BlockId) : Option (Option BlockId) :=
  preds.foldlM (meetPred idom rpoNum) none

/-- `frontier[runner].push(b)`, unless it is there. -/
def pushFrontier (frontier : List (List BlockId)) (runner b : BlockId) :
    Option (List (List BlockId)) :=
  (frontier[runner]?).map fun df =>
    if b ∈ df then frontier else frontier.set runner (df ++ [b])

/-- The walk of `runner` from a predecessor of `b` up to the idom of `b`. -/
def frontierWalk (idom : Idoms) (b : BlockId) :
    ℕ → Option BlockId → List (List BlockId) → Option (List (List BlockId))
  | 0, _, _ => none
  | fuel + 1, runner, frontier =>
    (idom[b]?).bind fun stop =>
      match runner with
      | none => some frontier
      | some r =>
        if some r = stop then some frontier
        else
          (pushFrontier frontier r b).bind fun frontier =>
            (idom[r]?).bind fun up =>
              if some r = up then some frontier -- entry
              else frontierWalk idom b fuel up frontier

namespace Funcdata

variable (f : Funcdata)

/-- One block of a pass: its new idom, if that is another one. -/
def idomStep (rpoNum : List ℕ) (s : Idoms × Bool) (b : BlockId) : Option (Idoms × Bool) :=
  if b = 0 then some s
  else
    (f.blocks[b]?).bind fun blk => (newIdom s.1 rpoNum blk.inEdges).bind fun new =>
      (s.1[b]?).map fun cur => if new ≠ none ∧ cur ≠ new then (s.1.set b new, true) else s

/-- Cooper-Harvey-Kennedy iterative idom: passes over the blocks until one changes nothing. -/
def idomLoop (rpo : List BlockId) (rpoNum : List ℕ) : ℕ → Idoms → Option Idoms
  | 0, _ => none
  | fuel + 1, idom =>
    (rpo.foldlM (f.idomStep rpoNum) (idom, false)).bind fun s =>
      if s.2 then idomLoop rpo rpoNum fuel s.1 else some s.1

/-- `rpo_num`: each block's position in `rpo`. -/
def numberBlocks (rpo : List BlockId) : List ℕ :=
  rpo.zipIdx.foldl (fun num p => num.set p.1 p.2) (List.replicate f.numBlocks 0)

/-- Dominance frontiers: for each join, walk preds up to its idom. -/
def frontiers (idom : Idoms) : Option (List (List BlockId)) :=
  (List.range f.numBlocks).foldlM (fun frontier b =>
    (f.blocks[b]?).bind fun blk =>
      if blk.inEdges.length < 2 then some frontier
      else
        blk.inEdges.foldlM
          (fun frontier p => frontierWalk idom b (idom.length + 1) (some p) frontier) frontier)
    (List.replicate f.numBlocks [])

/-- Compute the dominator tree and dominance frontiers. -/
def dominators : Option DominatorInfo :=
  let nb := f.numBlocks
  if nb = 0 then some { idom := [], frontier := [] }
  else
    f.postorder.bind fun po =>
      let rpo := po.reverse
      let rpoNum := f.numberBlocks rpo
      (f.idomLoop rpo rpoNum (nb * nb + 1) ((List.replicate nb none).set 0 (some 0))).bind fun idom =>
        (f.frontiers idom).map fun frontier =>
          { idom := idom.map fun i => i.getD unprocessed
            frontier := frontier.map fun df => df.insertionSort (· ≤ ·) }

end Funcdata
end Mosura
