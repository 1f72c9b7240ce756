import Mosura.Lib.Jumps

/-! `structure.rs`: `scope_break` marks the gotos that leave the enclosing loop; `printc.rs`:
`emit_structured` prints the forest with its gotos. -/

namespace Mosura

open Jumps

/-- An unstructured branch that was cut. -/
structure GotoRecord where
  target : ℕ
  conditional : Bool
  isBreak : Bool := false
  deriving DecidableEq

/-- The second side of a short-circuit condition: basic blocks and conditions, as it must print as
an expression. -/
inductive CondSide
  | basic (idx b : ℕ)
  | condition (idx : ℕ) (a b : CondSide)

/-- A node of the structured forest, with its position in `blocks`. The head of a switch is a basic
block, as no rule collapses a block that ends in a BRANCHIND into another node. -/
inductive FlowBlock
  | basic (idx b : ℕ)
  | list (idx : ℕ) (first : FlowBlock) (rest : List FlowBlock)
  | ifThen (idx : ℕ) (cond body : FlowBlock)
  | ifElse (idx : ℕ) (cond tc fc : FlowBlock)
  | whileDo (idx : ℕ) (cond body : FlowBlock)
  | doWhile (idx : ℕ) (body : FlowBlock)
  | infLoop (idx : ℕ) (body : FlowBlock)
  | condition (idx : ℕ) (a : FlowBlock) (b : CondSide)
  | switch (idx headIdx head : ℕ) (cases : List FlowBlock)

namespace CondSide

def exitBasic : CondSide → ℕ
  | basic _ b => b
  | condition _ _ b => b.exitBasic

/-- The positions of a side and its parts. -/
def ids : CondSide → List ℕ
  | basic idx _ => [idx]
  | condition idx a b => idx :: (a.ids ++ b.ids)

def basics : CondSide → List ℕ
  | basic _ b => [b]
  | condition _ a b => a.basics ++ b.basics

end CondSide

namespace FlowBlock

/-- `entry_basic`. -/
def entryBasic : FlowBlock → ℕ
  | basic _ b => b
  | list _ first _ => first.entryBasic
  | ifThen _ cond _ => cond.entryBasic
  | ifElse _ cond _ _ => cond.entryBasic
  | whileDo _ cond _ => cond.entryBasic
  | doWhile _ body => body.entryBasic
  | infLoop _ body => body.entryBasic
  | condition _ a _ => a.entryBasic
  | switch _ _ head _ => head

mutual

/-- `exit_basic`. -/
def exitBasic : FlowBlock → ℕ
  | basic _ b => b
  | list _ first rest => exitBasicOr rest first.exitBasic
  | ifThen _ _ body => body.exitBasic
  | ifElse _ _ _ fc => fc.exitBasic
  | whileDo _ _ body => body.exitBasic
  | doWhile _ body => body.exitBasic
  | infLoop _ body => body.exitBasic
  | condition _ _ b => b.exitBasic
  | switch _ _ head cases => exitBasicOr cases head

/-- The exit of the last of the components, or of what comes before them. -/
def exitBasicOr : List FlowBlock → ℕ → ℕ
  | [], b => b
  | c :: cs, _ => exitBasicOr cs c.exitBasic

end

def idx : FlowBlock → ℕ
  | basic idx _ | list idx _ _ | ifThen idx _ _ | ifElse idx _ _ _ | whileDo idx _ _
  | doWhile idx _ | infLoop idx _ | condition idx _ _ | switch idx _ _ _ => idx

mutual

/-- The positions of a node and its components. -/
def ids : FlowBlock → List ℕ
  | basic idx _ => [idx]
  | list idx first rest => idx :: (first.ids ++ idsOf rest)
  | ifThen idx cond body => idx :: (cond.ids ++ body.ids)
  | ifElse idx cond tc fc => idx :: (cond.ids ++ (tc.ids ++ fc.ids))
  | whileDo idx cond body => idx :: (cond.ids ++ body.ids)
  | doWhile idx body => idx :: body.ids
  | infLoop idx body => idx :: body.ids
  | condition idx a b => idx :: (a.ids ++ b.ids)
  | switch idx headIdx _ cases => idx :: headIdx :: idsOf cases

def idsOf : List FlowBlock → List ℕ
  | [] => []
  | c :: cs => c.ids ++ idsOf cs

end

mutual

/-- The basic blocks of a node. -/
def basics : FlowBlock → List ℕ
  | basic _ b => [b]
  | list _ first rest => first.basics ++ basicsOf rest
  | ifThen _ cond body => cond.basics ++ body.basics
  | ifElse _ cond tc fc => cond.basics ++ (tc.basics ++ fc.basics)
  | whileDo _ cond body => cond.basics ++ body.basics
  | doWhile _ body => body.basics
  | infLoop _ body => body.basics
  | condition _ a b => a.basics ++ b.basics
  | switch _ _ head cases => head :: basicsOf cases

def basicsOf : List FlowBlock → List ℕ
  | [] => []
  | c :: cs => c.basics ++ basicsOf cs

end

/-- The entry of the next component, or what follows the last. -/
def nextEntry : List FlowBlock → Option ℕ → Option ℕ
  | [], after => after
  | c :: _, _ => some c.entryBasic

end FlowBlock

/-- The `curloopexit` in effect at each basic block and at each node. -/
structure Scopes where
  loopexit : ℕ → Option (Option ℕ) := fun _ => none
  nodeLoopexit : ℕ → Option (Option ℕ) := fun _ => none

namespace Scopes

def insertNode (m : Scopes) (idx : ℕ) (curloopexit : Option ℕ) : Scopes :=
  { m with nodeLoopexit := Function.update m.nodeLoopexit idx (some curloopexit) }

def insertBasic (m : Scopes) (b : ℕ) (curloopexit : Option ℕ) : Scopes :=
  { m with loopexit := Function.update m.loopexit b (some curloopexit) }

end Scopes

/-- `scope_break_walk` over the second side of a condition. -/
def CondSide.scopeBreakWalk : CondSide → Option ℕ → Scopes → Scopes
  | basic idx b, curloopexit, m => (m.insertNode idx curloopexit).insertBasic b curloopexit
  | condition idx a b, curloopexit, m =>
    b.scopeBreakWalk curloopexit (a.scopeBreakWalk curloopexit (m.insertNode idx curloopexit))

namespace FlowBlock

mutual

/-- `scope_break_walk`. -/
def scopeBreakWalk : FlowBlock → Option ℕ → Option ℕ → Scopes → Scopes
  | basic idx b, _, curloopexit, m => (m.insertNode idx curloopexit).insertBasic b curloopexit
  | list idx first rest, curexit, curloopexit, m =>
    walkList rest curexit curloopexit
      (first.scopeBreakWalk (nextEntry rest curexit) curloopexit (m.insertNode idx curloopexit))
  | ifThen idx cond body, curexit, curloopexit, m =>
    body.scopeBreakWalk curexit curloopexit
      (cond.scopeBreakWalk none curloopexit (m.insertNode idx curloopexit))
  | ifElse idx cond tc fc, curexit, curloopexit, m =>
    fc.scopeBreakWalk curexit curloopexit
      (tc.scopeBreakWalk curexit curloopexit
        (cond.scopeBreakWalk none curloopexit (m.insertNode idx curloopexit)))
  | whileDo idx cond body, curexit, curloopexit, m =>
    body.scopeBreakWalk (some cond.entryBasic) curexit
      (cond.scopeBreakWalk none curexit (m.insertNode idx curloopexit))
  | doWhile idx body, curexit, curloopexit, m =>
    body.scopeBreakWalk none curexit (m.insertNode idx curloopexit)
  | infLoop idx body, curexit, curloopexit, m =>
    body.scopeBreakWalk (some body.entryBasic) curexit (m.insertNode idx curloopexit)
  | condition idx a b, _, curloopexit, m =>
    b.scopeBreakWalk curloopexit
      (a.scopeBreakWalk none curloopexit (m.insertNode idx curloopexit))
  | switch idx headIdx head cases, curexit, curloopexit, m =>
    walkCases cases curexit
      (((m.insertNode idx curloopexit).insertNode headIdx curexit).insertBasic head curexit)

/-- Each component exits into the next, the last into `curexit`. -/
def walkList : List FlowBlock → Option ℕ → Option ℕ → Scopes → Scopes
  | [], _, _, m => m
  | c :: cs, curexit, curloopexit, m =>
    walkList cs curexit curloopexit (c.scopeBreakWalk (nextEntry cs curexit) curloopexit m)

/-- The cases share the exit of the switch. -/
def walkCases : List FlowBlock → Option ℕ → Scopes → Scopes
  | [], _, m => m
  | c :: cs, curexit, m => walkCases cs curexit (c.scopeBreakWalk curexit curexit m)

end

end FlowBlock

/-- The records of a key of a map of `Vec`s. -/
def recordsAt (m : List (ℕ × List GotoRecord)) (key : ℕ) : List GotoRecord := (m.lookup key).getD []

/-- What `collapse_all` leaves: a forest whose nodes are distinct, and the gotos cut from it, by the
basic block or by the node they are printed after. -/
structure CollapsedForest where
  roots : List FlowBlock
  gotos : List (ℕ × List GotoRecord)
  nodeGotos : List (ℕ × List GotoRecord)
  ids_nodup : (FlowBlock.idsOf roots).Nodup
  basics_nodup : (FlowBlock.basicsOf roots).Nodup
  gotos_fresh : ∀ e ∈ gotos, ∀ r ∈ e.2, r.isBreak = false
  nodeGotos_fresh : ∀ e ∈ nodeGotos, ∀ r ∈ e.2, r.isBreak = false

/-- The forest that is printed. -/
structure Structured where
  roots : List FlowBlock
  gotos : List (ℕ × List GotoRecord)
  nodeGotos : List (ℕ × List GotoRecord)
  labels : List ℕ

/-- A record whose target is the `curloopexit` of its place becomes a break. -/
def GotoRecord.reclassify (scope : Option (Option ℕ)) (r : GotoRecord) : GotoRecord :=
  match scope with
  | none => r
  | some cle => if some r.target = cle then { r with isBreak := true } else r

namespace CollapsedForest

variable (s : CollapsedForest)

def scopes : Scopes := FlowBlock.walkList s.roots none none {}

/-- `scope_break`. -/
def scopeBreak : Structured :=
  let gotos := s.gotos.map fun e => (e.1, e.2.map (GotoRecord.reclassify (s.scopes.loopexit e.1)))
  let nodeGotos := s.nodeGotos.map fun e =>
    (e.1, e.2.map (GotoRecord.reclassify (s.scopes.nodeLoopexit e.1)))
  { roots := s.roots
    gotos := gotos
    nodeGotos := nodeGotos
    labels := ((gotos ++ nodeGotos).flatMap fun e =>
      e.2.filter fun r => !r.isBreak).map GotoRecord.target }

end CollapsedForest

/-- What the printer knows of the switches: the landings of table labels no case owns, by the
position of the switch, and the cases with one out-edge, after which a `break;` is printed. -/
structure SwitchTables where
  landings : ℕ → List (Option ℕ)
  isExit : ℕ → Bool

namespace GotoRecord

/-- `break;` or `goto LABEL;`. -/
def statement (r : GotoRecord) : Text ℕ :=
  if r.isBreak then .leave (some r.target) else .goto r.target

/-- The statement, under its condition where it has one. -/
def text (r : GotoRecord) : Text ℕ :=
  if r.conditional then .branch .skip r.statement .skip else r.statement

end GotoRecord

/-- Statements one after the other. -/
def statements (l : List (Text ℕ)) : Text ℕ := l.foldr .seq .skip

namespace SwitchTables

variable (tables : SwitchTables) (idx : ℕ) (cases : List FlowBlock)

/-- A record of the head of a switch that a `case` or `default` arm stands for. -/
def suppressed (r : GotoRecord) : Bool :=
  some r.target ∈ tables.landings idx ∨ r.target ∉ cases.map FlowBlock.entryBasic

/-- The targets of the `default` arms: the cut edges of the head that no table label stands for. -/
def defaultCuts (records : List GotoRecord) : List ℕ :=
  ((records.map GotoRecord.target).filter fun t =>
    some t ∉ tables.landings idx ∧ t ∉ cases.map FlowBlock.entryBasic).eraseDups

/-- The landings of the arms that are jumps. -/
def arms (records : List GotoRecord) : List (Option ℕ) :=
  tables.landings idx ++ (tables.defaultCuts idx cases records).map some

end SwitchTables

namespace Structured

variable (s : Structured) (tables : SwitchTables)

/-- An arm that is a jump: a break where it leads to the switch's exit. It stands for its target
where a record of the head to there is a break. -/
def armText (headIdx : ℕ) (scopeExit : Option ℕ) : Option ℕ → Text ℕ
  | none => .leave none
  | some b =>
    if scopeExit = some b then
      .leave (if ∃ r ∈ recordsAt s.nodeGotos headIdx, r.isBreak = true ∧ r.target = b then some b
        else none)
    else .goto b

/-- The gotos printed after a node's body. -/
def nodeText (idx : ℕ) : Text ℕ :=
  statements ((recordsAt s.nodeGotos idx).map GotoRecord.statement)

/-- The gotos printed after a basic block's statements. -/
def basicText (b : ℕ) : Text ℕ := statements ((recordsAt s.gotos b).map GotoRecord.text)

mutual

/-- `emit_structured`, with the block that `next_flow_after` finds. -/
def emitStructured : FlowBlock → Option ℕ → Text ℕ
  | .basic idx b, _ => .seq (.seq (.block b) (s.basicText b)) (s.nodeText idx)
  | .list idx first rest, flow =>
    .seq
      (.seq (emitStructured first (FlowBlock.nextEntry rest flow)) (emitList rest flow))
      (s.nodeText idx)
  | .ifThen idx cond body, flow =>
    .seq (.branch (emitStructured cond flow) (emitStructured body flow) .skip) (s.nodeText idx)
  | .ifElse idx cond tc fc, flow =>
    .seq (.branch (emitStructured cond flow) (emitStructured tc flow) (emitStructured fc flow))
      (s.nodeText idx)
  | .whileDo idx cond body, _ =>
    .seq
      (.loop (emitStructured cond (some cond.entryBasic))
        (emitStructured body (some cond.entryBasic)))
      (s.nodeText idx)
  | .doWhile idx body, _ =>
    .seq (.doLoop (emitStructured body (some body.exitBasic)) false) (s.nodeText idx)
  | .infLoop idx body, _ =>
    .seq (.doLoop (emitStructured body (some body.entryBasic)) true) (s.nodeText idx)
  | .condition idx a b, flow =>
    -- the second side prints inside the condition, its records under the whole of it
    .seq (.branch (emitStructured a flow) (s.basicText b.exitBasic) .skip) (s.nodeText idx)
  | .switch idx headIdx head cases, flow =>
    .seq
      (.seq
        (.seq (.seq (.block head) (s.basicText head))
          (statements (((recordsAt s.nodeGotos headIdx).filter fun r =>
            !tables.suppressed idx cases r).map GotoRecord.statement)))
        (.switch (emitCases cases flow
          (statements ((tables.arms idx cases (recordsAt s.nodeGotos headIdx)).map
            (s.armText headIdx flow)))
          (tables.arms idx cases (recordsAt s.nodeGotos headIdx)).isEmpty)))
      (s.nodeText idx)

def emitList : List FlowBlock → Option ℕ → Text ℕ
  | [], _ => .skip
  | c :: cs, flow =>
    .seq (emitStructured c (FlowBlock.nextEntry cs flow)) (emitList cs flow)

/-- The cases, each with a `break;` if it exits and is not the last, then the arms. -/
def emitCases : List FlowBlock → Option ℕ → Text ℕ → Bool → Text ℕ
  | [], _, arms, _ => arms
  | c :: cs, flow, arms, noArms =>
    .seq (emitStructured c flow)
      (.seq (if tables.isExit c.idx ∧ ¬(cs = [] ∧ noArms) then .leave none else .skip)
        (emitCases cs flow arms noArms))

end

/-- The text of the body of the function. -/
def emit : Text ℕ := s.emitList tables s.roots none

/-- A goto that is printed as a break leads to its target. -/
def BreaksReach : Prop := (s.emit tables).Right none none

/-- Every goto that is no break has its target labelled. -/
def GotosLabelled : Prop :=
  ∀ e ∈ s.gotos ++ s.nodeGotos, ∀ r ∈ e.2, r.isBreak = false → r.target ∈ s.labels

end Structured

end Mosura
