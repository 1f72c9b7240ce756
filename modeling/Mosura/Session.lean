import Mosura.Lib.KeyMap

/-! The session directory (`session/mod.rs`): its two mutable tables, and the sessions that are open
on it. -/

namespace Mosura

/-- A row of `inputs.tbl`; `D` are the content digests. -/
structure InputRow (D : Type) where
  label : String
  digest : D
  size : ℕ
  filename : String
  added : String
  deriving DecidableEq, Repr

/-- The config map, sorted by key. -/
abbrev Config := List (String × String)

/-- The directory on disk; a table that is not there yet has no rows. -/
structure SessionDir (D : Type) where
  inputs : List (InputRow D) := []
  config : Config := []
  contents : D → Option (List UInt8) := fun _ => none

structure Session (D : Type) where
  inputs : List (InputRow D) := []
  config : Config := []

/-- What the session code takes from outside: the digest of an input and `Path::file_stem`. -/
structure SessionHost (D : Type) where
  digest : List UInt8 → D
  fileStem : String → Option String

/-- An entry is set or, with an empty value, removed. -/
def Config.set (config : Config) (key value : String) : Config :=
  if value = "" then KeyMap.erase key config else KeyMap.insert key value config

namespace Session

/-- Where a session stands: between calls, or in a call that waits for the lock, holds it and is
about to write, or has written. -/
inductive Phase (D : Type)
  | opening
  | idle
  | adding (row : InputRow D) (bytes : List UInt8)
  | listing (row : InputRow D)
  | listed (row : InputRow D)
  | setting (key value : String)
  | storing (key value : String)
  | stored

structure Proc (D : Type) where
  session : Session D
  phase : Phase D

/-- All sessions open on one directory, in one process or several, and the lock file's holder.
`added` and `sets` record what has happened: the digests `add_input` has returned, and the
`config_set` calls in the order they wrote. -/
structure System (D : Type) where
  dir : SessionDir D := {}
  lock : Option ℕ := none
  procs : ℕ → Option (Proc D) := fun _ => none
  added : List D := []
  sets : List (String × String) := []

/-- One atomic action of session `i`; each call is made of several. -/
inductive Action
  | openInputs (i : ℕ)
  | openConfig (i : ℕ)
  | addInput (i : ℕ) (bytes : List UInt8) (filename : String) (label : Option String) (now : String)
  | configSet (i : ℕ) (key value : String)
  | acquire (i : ℕ)
  | write (i : ℕ)
  | release (i : ℕ)

variable {D : Type}

namespace System

def setProc (s : System D) (i : ℕ) (x : Session D) (phase : Phase D) : System D :=
  { s with procs := Function.update s.procs i (some ⟨x, phase⟩) }

end System

variable [DecidableEq D] (host : SessionHost D)

def inputRow (bytes : List UInt8) (filename : String) (label : Option String) (now : String) :
    InputRow D where
  label := label.getD ((host.fileStem filename).getD filename)
  digest := host.digest bytes
  size := bytes.length
  filename := filename
  added := now

/-- The content file of an input is written unless it is there. -/
def storeContent (dir : SessionDir D) (d : D) (bytes : List UInt8) : SessionDir D :=
  if (dir.contents d).isSome then dir
  else { dir with contents := Function.update dir.contents d (some bytes) }

/-- One action; `none` where the session is not ready for it. The calls considered all succeed. -/
def step (s : System D) : Action → Option (System D)
  | .openInputs i =>
    match s.procs i with
    | none => some (s.setProc i { inputs := s.dir.inputs } .opening)
    | _ => none
  | .openConfig i =>
    match s.procs i with
    | some ⟨x, .opening⟩ => some (s.setProc i { x with config := s.dir.config } .idle)
    | _ => none
  | .addInput i bytes filename label now =>
    match s.procs i with
    | some ⟨x, .idle⟩ =>
      let row := inputRow host bytes filename label now
      if x.inputs.any (·.digest = row.digest) then some { s with added := s.added ++ [row.digest] }
      else some (s.setProc i x (.adding row bytes))
    | _ => none
  | .configSet i key value =>
    match s.procs i with
    | some ⟨x, .idle⟩ =>
      some (s.setProc i { x with config := x.config.set key value } (.setting key value))
    | _ => none
  | .acquire i =>
    if s.lock.isSome then none
    else
      match s.procs i with
      | some ⟨x, .adding row bytes⟩ =>
        some ({ s with
          lock := some i
          dir := storeContent s.dir row.digest bytes }.setProc i
            { x with inputs := x.inputs ++ [row] } (.listing row))
      | some ⟨x, .setting key value⟩ =>
        some ({ s with lock := some i }.setProc i x (.storing key value))
      | _ => none
  | .write i =>
    match s.procs i with
    | some ⟨x, .listing row⟩ =>
      some ({ s with dir := { s.dir with inputs := x.inputs } }.setProc i x (.listed row))
    | some ⟨x, .storing key value⟩ =>
      some ({ s with
        dir := { s.dir with config := x.config }
        sets := s.sets ++ [(key, value)] }.setProc i x .stored)
    | _ => none
  | .release i =>
    match s.procs i with
    | some ⟨x, .listed row⟩ =>
      some ({ s with lock := none, added := s.added ++ [row.digest] }.setProc i x .idle)
    | some ⟨x, .stored⟩ => some ({ s with lock := none }.setProc i x .idle)
    | _ => none

def run (s : System D) (actions : List Action) : Option (System D) :=
  actions.foldlM (step host) s

/-- The value of the last of `sets` to name `key`. -/
def lastValue (key : String) (sets : List (String × String)) : Option String :=
  match sets.reverse.find? (·.1 = key) with
  | some (_, value) => if value = "" then none else some value
  | none => none

/-- Every input that was added is listed once, and the config holds the last value of every key. -/
def NoUpdateLost (s : System D) : Prop :=
  (∀ d ∈ s.added, (s.dir.inputs.map InputRow.digest).count d = 1) ∧
    ∀ key, KeyMap.lookup key s.dir.config = lastValue key s.sets

/-- A session that takes the lock has what is stored: nobody else has written since it read or
last wrote it. -/
def Current (s : System D) : Action → Prop
  | .acquire i =>
    match s.procs i with
    | some ⟨x, .adding _ _⟩ => x.inputs = s.dir.inputs
    | some ⟨x, .setting key value⟩ => x.config = s.dir.config.set key value
    | _ => True
  | _ => True

/-- The systems reached from an empty directory by actions of which each finds its session
current. -/
inductive CurrentRun : System D → Prop
  | init : CurrentRun {}
  | step {s s' : System D} {a : Action} : CurrentRun s → Current s a → step host s a = some s' →
      CurrentRun s'

end Session
end Mosura
