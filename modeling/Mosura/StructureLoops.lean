import Mosura.Lib.StackSearch

/-! `structure.rs`: `structure_loops` labels the loop edges and the irreducible edges of the leaf
graph, by a depth-first spanning tree and Tarjan's test on its numbers. -/

namespace Mosura

open StackSearch

/-- The flags of an out-edge that the pass reads or sets. -/
structure EdgeLabels where
  irreducible : Bool := false
  treeEdge : Bool := false
  forwardEdge : Bool := false
  crossEdge : Bool := false
  backEdge : Bool := false
  loopEdge : Bool := false
  deriving DecidableEq

/-- The leaf blocks, each by its out-edges, which lead to leaf blocks. -/
structure LeafGraph where
  outEdges : List (List ℕ)
  lt : ∀ l ∈ outEdges, ∀ t ∈ l, t < outEdges.length

/-- The scratch fields of `findSpanningTree`. The stack holds the blocks on the path of the search,
the deepest first, with the number of out-edges looked at. -/
structure Spanning where
  labels : ℕ → ℕ → EdgeLabels := fun _ _ => {}
  index : ℕ → ℤ := fun _ => -1
  visitcount : ℕ → ℤ := fun _ => -1
  numdesc : ℕ → ℤ := fun _ => 0
  copymap : ℕ → ℕ := id
  preorder : List ℕ := []
  rpostcount : ℤ := 0
  rpostorder : ℤ → ℕ := fun _ => 0
  stack : List (ℕ × ℕ) := []
  rootlist : List ℕ := []
  rootindex : ℕ := 0
  extraroots : Bool := false

/-- Change the flags of out-edge `k` of block `b`. -/
def setOutEdge (labels : ℕ → ℕ → EdgeLabels) (b k : ℕ) (set : EdgeLabels → EdgeLabels) :
    ℕ → ℕ → EdgeLabels :=
  fun a i => if a = b ∧ i = k then set (labels a i) else labels a i

/-- `Vec::swap`. -/
def swap (l : List ℕ) (i j : ℕ) : List ℕ := (l.set i (l.getD j 0)).set j (l.getD i 0)

namespace Spanning

/-- Start the search at a block, or go on to it. -/
def enter (s : Spanning) (b : ℕ) : Spanning :=
  { s with
    stack := (b, 0) :: s.stack
    visitcount := Function.update s.visitcount b s.preorder.length
    preorder := s.preorder ++ [b]
    numdesc := Function.update s.numdesc b 1 }

/-- The block on top of the stack is numbered and left. -/
def leave (s : Spanning) (curbl : ℕ) (rest : List (ℕ × ℕ)) : Spanning :=
  { s with
    stack := rest
    rpostcount := s.rpostcount - 1
    index := Function.update s.index curbl (s.rpostcount - 1)
    rpostorder := Function.update s.rpostorder (s.rpostcount - 1) curbl
    numdesc :=
      match rest with
      | [] => s.numdesc
      | (parent, _) :: _ =>
        Function.update s.numdesc parent (s.numdesc parent + s.numdesc curbl) }

/-- Label an out-edge of the block on top of the stack. -/
def follow (s : Spanning) (curbl edgenum childbl : ℕ) : Spanning :=
  if (s.labels curbl edgenum).irreducible then s -- pretend irreducible edges don't exist
  else if s.visitcount childbl = -1 then
    { s with labels := setOutEdge s.labels curbl edgenum fun l => { l with treeEdge := true } }.enter
      childbl
  else if s.index childbl = -1 then
    { s with labels := setOutEdge s.labels curbl edgenum fun l =>
      { l with backEdge := true, loopEdge := true } }
  else if s.visitcount curbl < s.visitcount childbl then
    { s with labels := setOutEdge s.labels curbl edgenum fun l => { l with forwardEdge := true } }
  else
    { s with labels := setOutEdge s.labels curbl edgenum fun l => { l with crossEdge := true } }

/-- The next root that is not in a tree yet. Roots that are leave the list; where none is left, the
first block of `list_order` that is in no tree becomes one. -/
def nextRoot (s : Spanning) (listOrder : List ℕ) : ℕ × Spanning :=
  match (s.rootlist.drop s.rootindex).dropWhile fun b => s.visitcount b ≠ -1 with
  | b :: later =>
    (b, { s with
      rootlist := s.rootlist.take s.rootindex ++ b :: later
      rootindex := s.rootindex + 1 })
  | [] =>
    let b := (listOrder.find? fun b => s.visitcount b = -1).getD (listOrder.headD 0)
    (b, { s with
      rootlist := s.rootlist.take s.rootindex ++ [b]
      rootindex := s.rootindex + 1
      extraroots := true })

/-- What each pass over the roots starts from. -/
def restart (s : Spanning) (n : ℕ) (rootlist : List ℕ) : Spanning :=
  { s with
    labels := fun _ _ => {}
    index := fun _ => -1
    visitcount := fun _ => -1
    copymap := id
    preorder := []
    rpostcount := n
    rootlist := rootlist
    rootindex := 0
    extraroots := false }

end Spanning

/-- The scratch fields of `findIrreducible`. -/
structure Reach where
  labels : ℕ → ℕ → EdgeLabels
  copymap : ℕ → ℕ
  mark : ℕ → Bool := fun _ => false
  reachunder : List ℕ := []
  irreducibleCount : ℕ
  needrebuild : Bool := false

namespace Reach

/-- Push the source of a back edge into `x`, unless it is `x`. -/
def pushBackEdge (x : ℕ) (r : Reach) (e : ℕ × ℕ) : Reach :=
  if ¬(r.labels e.1 e.2).backEdge ∨ e.1 = x then r
  else
    { r with
      reachunder := r.reachunder ++ [r.copymap e.1]
      mark := Function.update r.mark (r.copymap e.1) true }

/-- An in-edge of a block that reaches the back edges into `x`: from a block that is no descendant
of `x` it is irreducible, else its source reaches them too. -/
def scanEdge (s : Spanning) (x : ℕ) (r : Reach) (e : ℕ × ℕ) : Reach :=
  if (r.labels e.1 e.2).irreducible then r
  else
    let yprime := r.copymap e.1
    if s.visitcount x > s.visitcount yprime ∨
        s.visitcount x + s.numdesc x ≤ s.visitcount yprime then
      if (r.labels e.1 e.2).treeEdge then
        -- an irreducible tree edge forces a rebuild
        { r with
          irreducibleCount := r.irreducibleCount + 1
          labels := setOutEdge r.labels e.1 e.2 fun l => { l with irreducible := true }
          needrebuild := true }
      else
        { r with
          irreducibleCount := r.irreducibleCount + 1
          labels := setOutEdge r.labels e.1 e.2 fun l =>
            { l with irreducible := true, crossEdge := false, forwardEdge := false } }
    else if r.mark yprime = false ∧ yprime ≠ x then
      { r with
        reachunder := r.reachunder ++ [yprime]
        mark := Function.update r.mark yprime true }
    else r

/-- Collapse `reachunder` into `x`. -/
def collapse (r : Reach) (x : ℕ) : Reach :=
  { r with
    mark := fun b => if b ∈ r.reachunder then false else r.mark b
    copymap := fun b => if b ∈ r.reachunder then x else r.copymap b
    reachunder := [] }

end Reach

/-- The scratch fields of `calcLoop`: the marked blocks, those of them on the path, and the path. -/
structure CalcLoop where
  labels : ℕ → ℕ → EdgeLabels
  visited : ℕ → Bool
  onPath : ℕ → Bool
  path : List (ℕ × ℕ)

/-- What the pass leaves: the labels and the reverse postorder numbers. -/
structure LoopLabels where
  labels : ℕ → ℕ → EdgeLabels := fun _ _ => {}
  rpo : List ℤ

namespace LeafGraph

variable (g : LeafGraph)

def n : ℕ := g.outEdges.length

def outs (b : ℕ) : List ℕ := g.outEdges.getD b []

/-- `in_adj`: the sources of the edges into a block, with the positions of the edges there. -/
def inAdj (t : ℕ) : List (ℕ × ℕ) :=
  (List.range g.n).flatMap fun src =>
    (g.outs src).zipIdx.filterMap fun e => if e.1 = t then some (src, e.2) else none

/-- One round of the search of a tree. -/
def spanStep (s : Spanning) : Option Spanning :=
  match s.stack with
  | [] => none
  | (curbl, ist) :: rest =>
    match (g.outs curbl)[ist]? with
    | none => some (s.leave curbl rest)
    | some childbl =>
      some ({ s with stack := (curbl, ist + 1) :: rest }.follow curbl ist childbl)

/-- Trees are grown from the roots until every block is in one. -/
def growForest (listOrder : List ℕ) (fuel : ℕ) : ℕ → Spanning → Option Spanning
  | 0, _ => none
  | rounds + 1, s =>
    if s.preorder.length < g.n then
      let next := s.nextRoot listOrder
      (repeatStep g.spanStep fuel (next.2.enter next.1)).bind
        (growForest listOrder fuel rounds)
    else some s

/-- The blocks without in-edges, the entry last; the first block where there are none. -/
def roots (listOrder : List ℕ) : List ℕ :=
  let rootlist := listOrder.filter fun b => (g.inAdj b).isEmpty
  if 1 < rootlist.length then swap rootlist 0 (rootlist.length - 1)
  else if rootlist.isEmpty then [listOrder.headD 0]
  else rootlist

/-- `findSpanningTree`, and whether it failed: extra roots are moved to the front once. -/
def findSpanningTree (fuel : ℕ) (listOrder : List ℕ) (s : Spanning) : Option (Bool × Spanning) :=
  let rootlist := g.roots listOrder
  let origrootpos := rootlist.length - 1
  (g.growForest listOrder fuel fuel
    ({ s with rpostorder := fun _ => 0 }.restart g.n rootlist)).bind fun s =>
  if s.extraroots = false then some (false, s)
  else
    (g.growForest listOrder fuel fuel
      (s.restart g.n (swap s.rootlist (s.rootlist.length - 1) origrootpos))).bind fun s =>
    some (s.extraroots, s)

/-- The in-edges of the next block of `reachunder`. -/
def reachStep (s : Spanning) (x : ℕ) (p : ℕ × Reach) : Option (ℕ × Reach) :=
  match p.2.reachunder[p.1]? with
  | none => none
  | some t => some (p.1 + 1, (g.inAdj t).foldl (Reach.scanEdge s x) p.2)

/-- What reaches the back edges into `x` is collapsed into `x`. -/
def reachBlock (s : Spanning) (fuel : ℕ) (r : Reach) (x : ℕ) : Option Reach :=
  (repeatStep (g.reachStep s x) fuel (0, (g.inAdj x).foldl (Reach.pushBackEdge x) r)).map fun p =>
    p.2.collapse x

/-- `findIrreducible`. -/
def findIrreducible (s : Spanning) (fuel irreducibleCount : ℕ) : Option Reach :=
  s.preorder.reverse.foldlM (g.reachBlock s fuel)
    { labels := s.labels, copymap := s.copymap, irreducibleCount := irreducibleCount }

/-- The spanning tree and the irreducible edges, again while one of them is in the tree. With the
labels comes the block `calcLoop` starts from, where it is to run. -/
def labelEdges (fuel : ℕ) : ℕ → List ℕ → ℕ → Spanning → Option (LoopLabels × Option ℕ)
  | 0, _, _, _ => none
  | rounds + 1, listOrder, irreducibleCount, s =>
    (g.findSpanningTree fuel listOrder s).bind fun (failed, s) =>
    if failed then
      some ({ labels := s.labels, rpo := (List.range g.n).map fun b : ℕ => (b : ℤ) }, none)
    else
      let listOrder := (List.range g.n).map fun i : ℕ => s.rpostorder i
      (g.findIrreducible s fuel irreducibleCount).bind fun r =>
      if r.needrebuild then
        labelEdges fuel rounds listOrder r.irreducibleCount
          { s with
            labels := fun b k =>
              { r.labels b k with
                treeEdge := false, forwardEdge := false, crossEdge := false, backEdge := false,
                loopEdge := false }
            copymap := r.copymap }
      else
        some ({ labels := r.labels, rpo := (List.range g.n).map s.index },
          if 0 < r.irreducibleCount then listOrder.head? else none)

/-- One round of `calcLoop`. -/
def calcStep (c : CalcLoop) : Option CalcLoop :=
  match c.path with
  | [] => none
  | (bl, i) :: rest =>
    match (g.outs bl)[i]? with
    | none => some { c with onPath := Function.update c.onPath bl false, path := rest }
    | some nextbl =>
      if (c.labels bl i).loopEdge then some { c with path := (bl, i + 1) :: rest }
      else if c.onPath nextbl then
        some { c with
          labels := setOutEdge c.labels bl i fun l => { l with loopEdge := true }
          path := (bl, i + 1) :: rest }
      else if c.visited nextbl then some { c with path := (bl, i + 1) :: rest }
      else
        some { c with
          visited := Function.update c.visited nextbl true
          onPath := Function.update c.onPath nextbl true
          path := (nextbl, 0) :: (bl, i + 1) :: rest }

/-- `calcLoop`: the edges that close a cycle are loop edges. -/
def calcLoop (fuel : ℕ) (labels : ℕ → ℕ → EdgeLabels) (start : ℕ) : Option (ℕ → ℕ → EdgeLabels) :=
  (repeatStep g.calcStep fuel
    { labels := labels
      visited := Function.update (fun _ => false) start true
      onPath := Function.update (fun _ => false) start true
      path := [(start, 0)] }).map CalcLoop.labels

/-- `structure_loops`; `none` where a loop has not ended within `fuel` rounds. -/
def structureLoops (fuel : ℕ) : Option LoopLabels :=
  if g.n = 0 then some { rpo := [] }
  else
    (g.labelEdges fuel fuel (List.range g.n) 0 {}).bind fun (r, start) =>
    match start with
    | none => some r
    | some b => (g.calcLoop fuel r.labels b).map fun labels => { r with labels := labels }

end LeafGraph

end Mosura
