import Mosura.Funcdata
import Mathlib.Order.WithBot
import Mathlib.Data.Nat.Cast.WithTop

/-! `valueset.rs`: the order in which `ValueSetSolver` iterates a data-flow system, and the loop
that follows it through the components. -/

namespace Mosura

/-- `Partition`: a stretch of the value sets linked by `next`. -/
structure Partition where
  startNode : Option ℕ := none
  stopNode : Option ℕ := none
  isDirty : Bool := false
  deriving DecidableEq, Repr

/-- The data-flow system of a solver: the Varnode of each value set, the value set of each marked
Varnode, and the value sets that are inputs. -/
structure DataFlow where
  valueNodes : List VarnodeId := []
  vsOf : VarnodeId → Option ℕ := fun _ => none
  vnMark : VarnodeId → Bool := fun _ => false
  rootNodes : List ℕ := []
  marked : ∀ v, vnMark v = true → ∃ i < valueNodes.length, vsOf v = some i
  roots : ∀ i ∈ rootNodes, i < valueNodes.length

namespace DataFlow

/-- `ValueSetSolver::new`. -/
def new : DataFlow where
  marked := by simp
  roots := by simp

/-- `new_value_set`, and the mark its callers put on the Varnode. -/
def newValueSet (d : DataFlow) (v : VarnodeId) : DataFlow where
  valueNodes := d.valueNodes ++ [v]
  vsOf := Function.update d.vsOf v (some d.valueNodes.length)
  vnMark := Function.update d.vnMark v true
  rootNodes := d.rootNodes
  marked w hw := by
    by_cases h : w = v
    · subst h
      exact ⟨d.valueNodes.length, by simp, Function.update_self ..⟩
    · rw [Function.update_of_ne h] at hw
      obtain ⟨i, hi, hvs⟩ := d.marked w hw
      exact ⟨i, by simp; omega, by rw [Function.update_of_ne h]; exact hvs⟩
  roots i hi := by
    have := d.roots i hi
    simp
    omega

/-- `root_nodes.push`. -/
def pushRoot (d : DataFlow) (i : Fin d.valueNodes.length) : DataFlow where
  valueNodes := d.valueNodes
  vsOf := d.vsOf
  vnMark := d.vnMark
  rootNodes := d.rootNodes ++ [i.val]
  marked := d.marked
  roots j hj := by
    rcases List.mem_append.mp hj with hj | hj
    · exact d.roots j hj
    · rw [List.mem_singleton.mp hj]
      exact i.isLt

/-- `successors`: the marked outputs of the ops that read the Varnode. The simulated root is the
index past the last value set, without a Varnode; its successors are the root nodes. -/
def successors (d : DataFlow) (f : Funcdata) (vertex : ℕ) : Option (List ℕ) :=
  match d.valueNodes[vertex]? with
  | none => some d.rootNodes
  | some v =>
    (((f.vn v).descend.filterMap fun op => (f.op op).output).filter d.vnMark).mapM d.vsOf

end DataFlow

/-- What the ordering reads and writes. A count is 0 before the visit, the depth-first number
during it and `⊤` after it: the source's "infinity" `0x7fff_ffff`. -/
structure OrderState where
  count : ℕ → WithTop ℕ := fun _ => 0
  next : ℕ → Option ℕ := fun _ => none
  partHead : ℕ → Option ℕ := fun _ => none
  orderPartition : Partition := {}
  recordStorage : List Partition := []
  /-- The last node pushed is the first. -/
  nodeStack : List ℕ := []
  depthFirstIndex : ℕ := 0

namespace OrderState

/-- `partition_prepend_node`. -/
def partitionPrependNode (s : OrderState) (vertex : ℕ) (part : Partition) :
    OrderState × Partition :=
  ({ s with next := Function.update s.next vertex part.startNode },
    { part with startNode := some vertex, stopNode := part.stopNode.or (some vertex) })

/-- `partition_prepend_part`. -/
def partitionPrependPart (s : OrderState) (head part : Partition) :
    Option (OrderState × Partition) := do
  let stop ← head.stopNode
  some ({ s with next := Function.update s.next stop part.startNode },
    { part with startNode := head.startNode, stopNode := part.stopNode.or head.stopNode })

/-- `partition_surround`. -/
def partitionSurround (s : OrderState) (part : Partition) : Option OrderState := do
  let start ← part.startNode
  some { s with
    recordStorage := s.recordStorage ++ [part]
    partHead := Function.update s.partHead start (some s.recordStorage.length) }

/-- The pops at the end of a loop: every node above `vertex` is to be visited again. -/
def popUntil (vertex : ℕ) : List ℕ → (ℕ → WithTop ℕ) → Option (List ℕ × (ℕ → WithTop ℕ))
  | [], _ => none
  | element :: stack, count =>
    if element = vertex then some (stack, count)
    else popUntil vertex stack (Function.update count element 0)

/-- The type of `visit`: the state, the vertex and the partition to extend; and the lowest
depth-first number it came to. -/
abbrev Visit := OrderState → ℕ → Partition → Option (OrderState × Partition × WithTop ℕ)

/-- The loop of `component`. -/
def componentSuccs (visit : Visit) : List ℕ → OrderState → Partition →
    Option (OrderState × Partition)
  | [], s, part => some (s, part)
  | succ :: rest, s, part =>
    if s.count succ = 0 then do
      let (s, part, _) ← visit s succ part
      componentSuccs visit rest s part
    else componentSuccs visit rest s part

/-- `component`. -/
def component (visit : Visit) (d : DataFlow) (f : Funcdata) (s : OrderState) (vertex : ℕ)
    (part : Partition) : Option (OrderState × Partition) := do
  let (s, part) ← componentSuccs visit (← d.successors f vertex) s part
  let (s, part) := s.partitionPrependNode vertex part
  let s ← s.partitionSurround part
  some (s, part)

/-- The loop of `visit` over the successors, with `head` and `is_loop`. -/
def visitSuccs (visit : Visit) : List ℕ → OrderState → Partition → WithTop ℕ → Bool →
    Option (OrderState × Partition × WithTop ℕ × Bool)
  | [], s, part, head, isLoop => some (s, part, head, isLoop)
  | succ :: rest, s, part, head, isLoop => do
    let (s, part, min) ←
      if s.count succ = 0 then visit s succ part else some (s, part, s.count succ)
    if min ≤ head then visitSuccs visit rest s part min true
    else visitSuccs visit rest s part head isLoop

/-- The start of `visit`: the vertex gets the next depth-first number. -/
def push (s : OrderState) (vertex : ℕ) : OrderState :=
  { s with
    nodeStack := vertex :: s.nodeStack
    depthFirstIndex := s.depthFirstIndex + 1
    count := Function.update s.count vertex (s.depthFirstIndex + 1 : ℕ) }

/-- The end of `visit`, where no successor came to an older node: the vertex is done, alone or
as the head of a component. -/
def close (visit : Visit) (d : DataFlow) (f : Funcdata) (s : OrderState) (vertex : ℕ)
    (part : Partition) (isLoop : Bool) : Option (OrderState × Partition) :=
  let count := Function.update s.count vertex ⊤
  if isLoop then do
    let (stack, count) ← popUntil vertex s.nodeStack count
    let (s, compPart) ←
      component visit d f { s with count := count, nodeStack := stack } vertex {}
    s.partitionPrependPart compPart part
  else
    match s.nodeStack with
    | [] => none
    | _ :: stack =>
      some (partitionPrependNode { s with count := count, nodeStack := stack } vertex part)

/-- `visit`, with the depth of its recursion bounded by the fuel. -/
def visit (d : DataFlow) (f : Funcdata) : ℕ → Visit
  | 0 => fun _ _ _ => none
  | fuel + 1 => fun s vertex part => do
    let s := s.push vertex
    let (s, part, head, isLoop) ←
      visitSuccs (visit d f fuel) (← d.successors f vertex) s part s.depthFirstIndex false
    if head = s.count vertex then do
      let (s, part) ← close (visit d f fuel) d f s vertex part isLoop
      some (s, part, head)
    else some (s, part, head)

/-- The number of visits that no ordering exceeds. -/
def visitBound (d : DataFlow) : ℕ := (d.valueNodes.length + 1) * (d.valueNodes.length + 2)

/-- `establish_topological_order`. -/
def establishTopologicalOrder (d : DataFlow) (f : Funcdata) (s : OrderState) :
    Option OrderState := do
  let root := d.valueNodes.length
  let s := { s with
    count := fun _ => 0, next := fun _ => none, partHead := fun _ => none, depthFirstIndex := 0 }
  let (s, order, _) ← visit d f (visitBound d) s root {}
  let start ← order.startNode
  some { s with orderPartition := { order with startNode := s.next start } }

end OrderState

/-- What `solve` calls on the value sets: `iterate`, which tells whether the set changed, and the
reset of the count of a component's head. -/
structure Iteration (V : Type) where
  iterate : ℕ → V → V × Bool
  resetCount : ℕ → V → V

/-- The variables of `solve`; the last component pushed is the first of the stack. -/
structure SolveState (V : Type) where
  values : V
  recordStorage : List Partition
  numIterations : ℤ := 0
  componentStack : List ℕ := []
  curComponent : Option ℕ := none
  curSet : Option ℕ

namespace SolveState

variable {V : Type}

def setDirty (records : List Partition) (i : ℕ) (dirty : Bool) : List Partition :=
  records.modify i fun p => { p with isDirty := dirty }

/-- The state before the first iteration. -/
def start (s : OrderState) (values : V) : SolveState V where
  values := values
  recordStorage := s.recordStorage
  curSet := s.orderPartition.startNode

/-- The head of a component enters it, unless the component starts again. -/
def enterComponent (s : OrderState) (w : Iteration V) (cs : ℕ) (σ : SolveState V) :
    Option (SolveState V) :=
  match s.partHead cs with
  | none => some σ
  | some ph =>
    if σ.curComponent = some ph then some σ
    else do
      let head ← (← σ.recordStorage[ph]?).startNode
      some { σ with
        componentStack := ph :: σ.componentStack
        curComponent := some ph
        recordStorage := setDirty σ.recordStorage ph false
        values := w.resetCount head σ.values }

/-- The inner loop at the last node of `cc`: a dirty component starts again, a clean one is left,
and so are those around it that end here too. -/
def leaveComponents (s : OrderState) (cs cc : ℕ) : List ℕ → SolveState V → Option (SolveState V)
  | stack, σ => do
    let record ← σ.recordStorage[cc]?
    if record.isDirty then
      let records := setDirty σ.recordStorage cc false
      some { σ with
        componentStack := stack
        curSet := record.startNode
        recordStorage := match stack with
          | _ :: parent :: _ => setDirty records parent true
          | _ => records }
    else
      match stack with
      | _ :: parent :: rest => do
        let outer ← σ.recordStorage[parent]?
        let σ := { σ with curComponent := some parent }
        if outer.stopNode = some cs then leaveComponents s cs parent (parent :: rest) σ
        else some { σ with componentStack := parent :: rest, curSet := s.next cs }
      | _ => some { σ with componentStack := [], curComponent := none, curSet := s.next cs }

/-- One round of the loop of `solve`; it ends where no set is left or after `max` iterations. -/
def step (s : OrderState) (w : Iteration V) (max : ℤ) (σ : SolveState V) :
    Option (SolveState V) := do
  let cs ← σ.curSet
  let σ := { σ with numIterations := σ.numIterations + 1 }
  if max < σ.numIterations then none
  else do
    let σ ← enterComponent s w cs σ
    let (values, changed) := w.iterate cs σ.values
    match σ.curComponent with
    | none => some { σ with values := values, curSet := s.next cs }
    | some cc => do
      let records := if changed then setDirty σ.recordStorage cc true else σ.recordStorage
      let σ := { σ with values := values, recordStorage := records }
      let record ← records[cc]?
      if record.stopNode = some cs then leaveComponents s cs cc σ.componentStack σ
      else some { σ with curSet := s.next cs }

end SolveState

end Mosura
