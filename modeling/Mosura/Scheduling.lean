import Mosura.AddressSet
import Mosura.Lib.KeyMap

/-! The analysis scheduler (`manager.rs`): the command queue, the analyzers' accumulators and the
loop that drains them. -/

namespace Mosura
namespace Analysis

inductive AnalyzerType
  | byte | instruction | function | functionModifiers | functionSignatures | data | oneTime
  deriving DecidableEq, Repr

/-- The calls an analyzer can make on the scheduler; none of them returns anything. -/
inductive Call (A : Type)
  | codeDefined (set : AddressSet)
  | functionDefined (set : AddressSet)
  | dataDefined (set : AddressSet)
  | blockAdded (set : AddressSet)
  | disassemble (set : AddressSet)
  | disassembleAt (set : AddressSet) (priority : ℤ)
  | createFunction (set : AddressSet)
  | scheduleOneShot (analyzer : A) (set : AddressSet)

/-- The analyzers `A` of a world `σ`: the program and all else their code can reach. `added` gives
the calls it makes on the scheduler, in order; `none` is a panic. -/
structure Analyzers (σ A : Type) where
  name : A → String
  analysisType : A → AnalyzerType
  priority : A → ℤ
  canAnalyze : A → σ → Bool
  added : A → AddressSet → σ → Option (σ × List (Call A))
  /-- `Disassembler::for_program` -/
  disassembler : σ → Option A
  /-- `FunctionCreator::new` -/
  functionCreator : σ → A
  /-- `Knobs::disabled_analyzers`, split and trimmed -/
  disabledAnalyzers : σ → List String

inductive Command (A : Type)
  | task (i : ℕ)
  | disassemble (set : AddressSet)
  | createFunction (set : AddressSet)
  | oneShot (analyzer : A) (set : AddressSet)

namespace Command

variable {A : Type}

def isTask (i : ℕ) : Command A → Bool
  | .task j => i == j
  | _ => false

end Command

/-- A queue entry: its priority, its place in the order of insertion, and the command. -/
abbrev Entry (A : Type) := (ℤ ×ₗ ℕ) × Command A

/-- The scheduling state of one registered analyzer. -/
structure Slot where
  pending : AddressSet := .empty
  scheduled : Bool := false
  priority : ℤ
  ty : AnalyzerType

structure Scheduling (A : Type) where
  queue : List (Entry A) := []
  seq : ℕ := 0
  activePriority : Option ℤ := none
  slots : List Slot := []

/-- The i32 arithmetic of priorities, with overflow checks. -/
def checkedI32 (p : ℤ) : Option ℤ := if -2 ^ 31 ≤ p ∧ p < 2 ^ 31 then some p else none

/-- `AnalysisPriority::DISASSEMBLY` -/
def disassemblyBand : ℤ := 300

namespace Scheduling

variable {A : Type} (s : Scheduling A)

def register (priority : ℤ) (ty : AnalyzerType) : Scheduling A :=
  { s with slots := s.slots ++ [{ priority := priority, ty := ty }] }

/-- `none` once the u64 counter overflows. -/
def push (priority : ℤ) (cmd : Command A) : Option (Scheduling A) :=
  if s.seq + 1 < 2 ^ 64 then
    some { s with
      queue := KeyMap.insert (toLex (priority, s.seq)) cmd s.queue
      seq := s.seq + 1 }
  else none

def setSlot (i : ℕ) (slot : Slot) : Scheduling A := { s with slots := s.slots.set i slot }

/-- `schedule_task`: one task at most is queued for an analyzer with pending work. -/
def scheduleTask (i : ℕ) : Option (Scheduling A) := do
  let slot ← s.slots[i]?
  if !slot.scheduled && !slot.pending.isEmpty then
    let s ← s.push slot.priority (.task i)
    return s.setSlot i { slot with scheduled := true }
  else return s

/-- One turn of the loop of `notify`. -/
def notifyOne (ty : AnalyzerType) (set : AddressSet) (s : Scheduling A) (i : ℕ) :
    Option (Scheduling A) := do
  let slot ← s.slots[i]?
  if slot.ty = ty then (s.setSlot i { slot with pending := slot.pending.union set }).scheduleTask i
  else return s

def notify (ty : AnalyzerType) (set : AddressSet) : Option (Scheduling A) :=
  (List.range s.slots.length).foldlM (notifyOne ty set) s

def disassemblyPriority : Option ℤ :=
  match s.activePriority with
  | none => some disassemblyBand
  | some p => checkedI32 (p - 2)

def disassemble (set : AddressSet) : Option (Scheduling A) :=
  if set.isEmpty then some s
  else do
    let p ← s.disassemblyPriority
    s.push p (.disassemble set)

def disassembleAt (set : AddressSet) (priority : ℤ) : Option (Scheduling A) :=
  if set.isEmpty then some s else s.push priority (.disassemble set)

def createFunction (set : AddressSet) : Option (Scheduling A) :=
  if set.isEmpty then some s
  else do
    let p ← s.disassemblyPriority
    let p ← checkedI32 (p + 1)
    s.push p (.createFunction set)

def scheduleOneShot (priority : A → ℤ) (analyzer : A) (set : AddressSet) : Option (Scheduling A) :=
  s.push (priority analyzer) (.oneShot analyzer set)

/-- One call from outside the module. -/
def call (priority : A → ℤ) : Call A → Option (Scheduling A)
  | .codeDefined set => s.notify .instruction set
  | .functionDefined set => s.notify .function set
  | .dataDefined set => s.notify .data set
  | .blockAdded set => s.notify .byte set
  | .disassemble set => s.disassemble set
  | .disassembleAt set priority => s.disassembleAt set priority
  | .createFunction set => s.createFunction set
  | .scheduleOneShot analyzer set => s.scheduleOneShot priority analyzer set

/-- `take`: the accumulated set of analyzer `i`, whose flag is cleared. -/
def take (i : ℕ) : Option (AddressSet × Scheduling A) := do
  let slot ← s.slots[i]?
  return (slot.pending, s.setSlot i { slot with pending := .empty, scheduled := false })

end Scheduling

/-- `AutoAnalysisManager`: the registered analyzers and the scheduler. -/
structure Manager (A : Type) where
  analyzers : List A := []
  sched : Scheduling A := {}

namespace Manager

variable {σ A : Type} (an : Analyzers σ A) (m : Manager A)

def addAnalyzer (a : A) (w : σ) : Manager A :=
  if !an.canAnalyze a w || (an.disabledAnalyzers w).contains (an.name a) then m
  else
    { analyzers := m.analyzers ++ [a]
      sched := m.sched.register (an.priority a) (an.analysisType a) }

/-- The command of a popped entry runs: the set it runs with, the world after it and the calls it
makes. -/
def execute (w : σ) : Command A → Option (AddressSet × Scheduling A × σ × List (Call A))
  | .task i => do
    let (set, sched) ← m.sched.take i
    if set.isEmpty then return (set, sched, w, [])
    else
      let a ← m.analyzers[i]?
      let (w, calls) ← an.added a set w
      return (set, sched, w, calls)
  | .disassemble set =>
    match an.disassembler w with
    | none => some (set, m.sched, w, [])
    | some d => do
      let (w, calls) ← an.added d set w
      return (set, m.sched, w, calls)
  | .createFunction set => do
    let (w, calls) ← an.added (an.functionCreator w) set w
    return (set, m.sched, w, calls)
  | .oneShot a set => do
    let (w, calls) ← an.added a set w
    return (set, m.sched, w, calls)

/-- The entry `e` leaves the queue and its priority becomes the active one. -/
def popped (e : Entry A) (rest : List (Entry A)) : Manager A :=
  { m with sched := { m.sched with queue := rest, activePriority := some (ofLex e.1).1 } }

end Manager

/-- A point of a run. `todo` is `none` outside `run`, and inside it the calls the running entry has
yet to make. `pushed` and `ran` record what has happened: the entries queued, those of one priority
in the order of the calls, and the entries executed, each with the set it ran with. -/
structure Point (σ A : Type) where
  world : σ
  mgr : Manager A := {}
  todo : Option (List (Call A)) := none
  pushed : List (Entry A) := []
  ran : List (Entry A × AddressSet) := []

namespace Point

variable {σ A : Type} (an : Analyzers σ A)

/-- The entries of `s'` that are not from before `s`. -/
def newEntries (s s' : Scheduling A) : List (Entry A) :=
  s'.queue.filter fun e => s.seq ≤ (ofLex e.1).2

/-- The scheduler after a call. -/
def called (p : Point σ A) (s' : Scheduling A) (todo : Option (List (Call A))) : Point σ A :=
  { p with
    mgr := { p.mgr with sched := s' }
    todo := todo
    pushed := p.pushed ++ newEntries p.mgr.sched s' }

/-- One step of a run, labelled with the call on the scheduler it makes, if any. Outside `run` the
program changes, analyzers are registered and calls are made in any order. -/
inductive Step : Point σ A → Option (Call A) → Point σ A → Prop
  | world {p : Point σ A} (w : σ) : p.todo = none → Step p none { p with world := w }
  | register {p : Point σ A} (a : A) : p.todo = none →
      Step p none { p with mgr := p.mgr.addAnalyzer an a p.world }
  | seed {p : Point σ A} {c : Call A} {s' : Scheduling A} : p.todo = none →
      p.mgr.sched.call an.priority c = some s' → Step p (some c) (p.called s' none)
  | start {p : Point σ A} : p.todo = none → Step p none { p with todo := some [] }
  | entry {p : Point σ A} {e : Entry A} {rest : List (Entry A)} {set : AddressSet}
      {s' : Scheduling A} {w : σ} {calls : List (Call A)} : p.todo = some [] →
      p.mgr.sched.queue = e :: rest →
      (p.mgr.popped e rest).execute an p.world e.2 = some (set, s', w, calls) →
      Step p none { p with
        world := w
        mgr := { p.mgr with sched := s' }
        todo := some calls
        ran := p.ran ++ [(e, set)] }
  | call {p : Point σ A} {c : Call A} {cs : List (Call A)} {s' : Scheduling A} :
      p.todo = some (c :: cs) → p.mgr.sched.call an.priority c = some s' →
      Step p (some c) (p.called s' (some cs))
  | finish {p : Point σ A} : p.todo = some [] → p.mgr.sched.queue = [] →
      Step p none { p with
        mgr := { p.mgr with sched := { p.mgr.sched with activePriority := none } }
        todo := none }

/-- The points reached from `p` by any number of steps. -/
inductive Steps (p : Point σ A) : Point σ A → Prop
  | refl : Steps p p
  | step {q r : Point σ A} {c : Option (Call A)} : Steps p q → Step an q c r → Steps p r

/-- The points of the runs of a new manager. -/
def Reachable (p : Point σ A) : Prop := ∃ w, Steps an { world := w } p

end Point
end Analysis
end Mosura
