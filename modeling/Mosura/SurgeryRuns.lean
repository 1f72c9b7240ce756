import Mosura.FlowEditSound

/-! Runs of surgery on the flow graph: the edge lists stay inverse, and the inputs of the MULTIEQUALs
stay with their edges. -/

namespace Mosura

namespace Surgery

/-- A call, and what becomes of the flow edges. Where the source looks an edge up by the block at its
other end, the first one it finds is the edge it is about. -/
inductive Step (unaffected : Address → ℕ → Bool) :
    Surgery → Funcdata → FlowEdges → Funcdata → FlowEdges → Prop
  | removeEdge {f f' E a b e} (call : f.removeEdge a b = some f')
      (out : f.outAt E a b = some e) (inn : f.inAt E b a = some e) :
      Step unaffected (.removeEdge a b) f E f' (E.cut e)
  | moveOutEdge {f f' E blold slot blnew e} (call : f.moveOutEdge blold slot blnew = some f')
      (out : (E.outs blold)[slot]? = some e) (inn : f.inAt E (E.dst e) blold = some e) :
      Step unaffected (.moveOutEdge blold slot blnew) f E f' (E.moveTail e blnew)
  | nodeJoinCreateBlock {f f₁ f₂ f₃ f₄ E E₁ E₂ E₃ E₄ block1 block2 exita exitb sa sb}
      {aHigh bHigh : Bool}
      (removeA : Step unaffected (.removeEdge (if aHigh then block1 else block2) exita)
        f.newBlockBasic.1 E f₁ E₁)
      (removeB : Step unaffected (.removeEdge (if bHigh then block1 else block2) exitb) f₁ E₁ f₂ E₂)
      (slotA : (f₂.block (if aHigh then block2 else block1)).outEdges.idxOf? exita = some sa)
      (moveA : Step unaffected (.moveOutEdge (if aHigh then block2 else block1) sa f.numBlocks)
        f₂ E₂ f₃ E₃)
      (slotB : (f₃.block (if bHigh then block2 else block1)).outEdges.idxOf? exitb = some sb)
      (moveB : Step unaffected (.moveOutEdge (if bHigh then block2 else block1) sb f.numBlocks)
        f₃ E₃ f₄ E₄) :
      Step unaffected (.nodeJoinCreateBlock block1 block2 exita exitb aHigh bHigh) f E
        ((f₄.addEdge block1 f.numBlocks).addEdge block2 f.numBlocks)
        ((E₄.add block1 f.numBlocks).add block2 f.numBlocks)
  | replaceEdgesThru {f f' E bl inslot outslot e e'}
      (call : f.replaceEdgesThru bl inslot outslot = some f')
      (edge : (E.ins bl)[inslot]? = some e) (edge' : (E.outs bl)[outslot]? = some e')
      (out : f.outAt E (E.src e) bl = some e) (inn : f.inAt E (E.dst e') bl = some e') :
      Step unaffected (.replaceEdgesThru bl inslot outslot) f E f' (E.splice e e')
  | removeFromFlowSplit {f f' f'' E E' E'' bl} {flipflow : Bool}
      (first : Step unaffected (.replaceEdgesThru bl (if flipflow then 0 else 1) 1) f E f' E')
      (second : Step unaffected (.replaceEdgesThru bl 0 0) f' E' f'' E'') :
      Step unaffected (.removeFromFlowSplit bl flipflow) f E f'' E''
  | nodeSplit {f f' E b inedge e} (call : f.nodeSplit b inedge = some f')
      (edge : (E.ins b)[inedge]? = some e) (slot : (E.slots b)[inedge]? = some e) :
      Step unaffected (.nodeSplit b inedge) f E f' (E.takeOver e f.numBlocks)
  | branchRemoveInternal {f f' E bb num e}
      (call : f.branchRemoveInternal unaffected bb num = some f')
      (edge : (E.outs bb)[num]? = some e) (inn : f.inAt E (E.dst e) bb = some e)
      (slot : f.slotAt E (E.dst e) bb = some e) :
      Step unaffected (.branchRemoveInternal bb num) f E f' ((E.cut e).unslot e)
  | spliceDeclined {f f' E bb} (call : f.spliceBlockBasic bb = some (f', false)) :
      Step unaffected (.spliceBlockBasic bb) f E f' E
  | spliceBlockBasic {f f' E bb outbl} (call : f.spliceBlockBasic bb = some (f', true))
      (out : (f.block bb).outEdges = [outbl]) (entry : outbl ≠ 0) (phis : f.multis outbl = []) :
      Step unaffected (.spliceBlockBasic bb) f E f'
        ((E.absorb bb outbl).renumber ((List.replicate f.numBlocks true).set outbl false))
  | renumberReachable {f f' E reachable} (call : f.renumberReachable reachable = some f')
      (entry : reachable.getD 0 false = true) :
      Step unaffected (.renumberReachable reachable) f E f' (E.renumber reachable)

variable {unaffected : Address → ℕ → Bool} {s : Surgery} {f f' : Funcdata} {E E' : FlowEdges}
  {val : OpId → EdgeId → Option VarnodeId}

theorem nodeJoinCreateBlock_eq {f f₁ f₂ f₃ f₄ : Funcdata} {block1 block2 exita exitb : BlockId}
    {aHigh bHigh : Bool} {sa sb : ℕ}
    (removeA : f.newBlockBasic.1.removeEdge (if aHigh then block1 else block2) exita = some f₁)
    (removeB : f₁.removeEdge (if bHigh then block1 else block2) exitb = some f₂)
    (slotA : (f₂.block (if aHigh then block2 else block1)).outEdges.idxOf? exita = some sa)
    (moveA : f₂.moveOutEdge (if aHigh then block2 else block1) sa f.numBlocks = some f₃)
    (slotB : (f₃.block (if bHigh then block2 else block1)).outEdges.idxOf? exitb = some sb)
    (moveB : f₃.moveOutEdge (if bHigh then block2 else block1) sb f.numBlocks = some f₄) :
    f.nodeJoinCreateBlock block1 block2 exita exitb aHigh bHigh =
      some ((f₄.addEdge block1 f.numBlocks).addEdge block2 f.numBlocks, f.numBlocks) := by
  unfold Funcdata.nodeJoinCreateBlock Funcdata.moveExit
  dsimp only [Option.bind_eq_bind]
  have hnew : f.newBlockBasic = (f.newBlockBasic.1, f.numBlocks) := rfl
  rw [hnew]
  dsimp only
  rw [removeA, Option.bind_some, removeB, Option.bind_some, slotA, Option.bind_some, moveA,
    Option.bind_some, slotB, Option.bind_some, moveB, Option.bind_some]

/-- A step is the call of the source. -/
theorem Step.apply (h : Step unaffected s f E f' E') : s.apply unaffected f = some f' := by
  induction h with
  | removeEdge call out inn => exact call
  | moveOutEdge call out inn => exact call
  | nodeJoinCreateBlock removeA removeB slotA moveA slotB moveB ih₁ ih₂ ih₃ ih₄ =>
    simp only [Surgery.apply] at ih₁ ih₂ ih₃ ih₄ ⊢
    rw [nodeJoinCreateBlock_eq ih₁ ih₂ slotA ih₃ slotB ih₄]
    rfl
  | replaceEdgesThru call edge edge' out inn => exact call
  | removeFromFlowSplit first second ih₁ ih₂ =>
    simp only [Surgery.apply] at ih₁ ih₂ ⊢
    unfold Funcdata.removeFromFlowSplit
    rw [ih₁]
    exact ih₂
  | nodeSplit call edge slot => exact call
  | branchRemoveInternal call edge inn slot => exact call
  | spliceDeclined call =>
    simp only [Surgery.apply, call, Option.map_some]
  | spliceBlockBasic call out entry phis =>
    simp only [Surgery.apply, call, Option.map_some]
  | renumberReachable call entry => exact call

/-- A run of calls. -/
inductive Run (unaffected : Address → ℕ → Bool) :
    List Surgery → Funcdata → FlowEdges → Funcdata → FlowEdges → Prop
  | start (f : Funcdata) (E : FlowEdges) : Run unaffected [] f E f E
  | step {calls s f E g F g' F'} (before : Run unaffected calls f E g F)
      (after : Step unaffected s g F g' F') : Run unaffected (calls ++ [s]) f E g' F'

/-- The calls that take the input of an in-edge with it. -/
def Settles : Surgery → Bool
  | moveOutEdge .. | nodeSplit .. | branchRemoveInternal .. | spliceBlockBasic .. => true
  | _ => false

end Surgery

namespace Funcdata

variable {f : Funcdata} {E : FlowEdges}

/-- The edges are listed at both ends, and each MULTIEQUAL has an input for each in-edge. -/
structure Aligned (f : Funcdata) : Prop where
  homed : f.Homed
  inverse : ∀ a b, (f.block a).outEdges.count b = (f.block b).inEdges.count a
  arity : ∀ b, ∀ p ∈ f.multis b, (f.op p).inrefs.length = (f.block b).inEdges.length

/-- The flow edges as `rename` pairs the lists: the `k`-th of parallel edges on one side is the `k`-th
one on the other. -/
def named (f : Funcdata) : FlowEdges where
  toWiring := Wiring.name (fun a => (f.block a).outEdges) fun b => (f.block b).inEdges
  slots := (Wiring.name (fun a => (f.block a).outEdges) fun b => (f.block b).inEdges).ins
  next := (f.blocks.map fun x => x.inEdges.length).sum

end Funcdata

namespace Surgery

variable {unaffected : Address → ℕ → Bool} {f f' : Funcdata} {E E' : FlowEdges}

end Surgery
end Mosura
