import Mosura.Session

/-! The calls that change a session, when the lock or a file write fails (`session/mod.rs`,
`session/store.rs`). -/

namespace Mosura
namespace Session

/-- The steps of `write_file_atomic`. -/
inductive WriteStep
  | temp | rename | sync
  deriving DecidableEq, Repr

inductive SessionError
  | lock
  | content (at_ : WriteStep)
  | table (at_ : WriteStep)
  deriving DecidableEq, Repr

/-- What fails in a call: the lock, a step of writing the content file, a step of writing the
table. -/
structure Faults where
  lock : Bool := false
  content : Option WriteStep := none
  table : Option WriteStep := none

/-- An open session: on a directory, or in memory with the contents of its inputs. -/
structure Opened (D : Type) where
  session : Session D := {}
  disk : Option (SessionDir D) := none
  memInputs : D → Option (List UInt8) := fun _ => none

/-- The calls that change the inputs or the config. -/
inductive Mutation
  | addInput (bytes : List UInt8) (filename : String) (label : Option String) (now : String)
  | configSet (key value : String)

variable {D : Type}

/-- The directory with the file written, unless a step before the rename fails. -/
def writeFileAtomic (fault : Option WriteStep) (dir written : SessionDir D) :
    SessionDir D × Option WriteStep :=
  match fault with
  | none => (written, none)
  | some .sync => (written, some .sync)
  | some step => (dir, some step)

/-- The inputs and the entries of the config are the same. -/
def Same (x y : Session D) : Prop :=
  x.inputs = y.inputs ∧ ∀ key, KeyMap.lookup key x.config = KeyMap.lookup key y.config

theorem Same.refl (x : Session D) : Same x x := ⟨rfl, fun _ => rfl⟩

theorem writeFileAtomic_snd (fault : Option WriteStep) (dir written : SessionDir D) :
    (writeFileAtomic fault dir written).2 = fault := by
  unfold writeFileAtomic
  split <;> rfl

/-- A set changes the config unless the entry is what it is set to. -/
theorem same_set_iff (x : Session D) (key value : String) :
    Same { x with config := x.config.set key value } x ↔
      KeyMap.lookup key x.config = if value = "" then none else some value := by
  have hlookup : ∀ k, KeyMap.lookup k (x.config.set key value) =
      if k = key then (if value = "" then none else some value)
      else KeyMap.lookup k x.config := by
    intro k
    unfold Config.set
    split_ifs with hempty hkey hkey
    · rw [KeyMap.lookup_erase, if_pos hkey]
    · rw [KeyMap.lookup_erase, if_neg hkey]
    · rw [KeyMap.lookup_insert, if_pos hkey]
    · rw [KeyMap.lookup_insert, if_neg hkey]
  constructor
  · intro h
    have hkey := h.2 key
    rw [hlookup, if_pos rfl] at hkey
    exact hkey.symm
  · refine fun h => ⟨rfl, fun k => ?_⟩
    rw [hlookup]
    split_ifs with hkey hempty
    · rw [hkey, h, if_pos hempty]
    · rw [hkey, h, if_neg hempty]
    · rfl

/-- An input that was not listed is, once it is pushed. -/
theorem not_same_push (x : Session D) (row : InputRow D) :
    ¬ Same { x with inputs := x.inputs ++ [row] } x := by
  intro h
  have hlen := congrArg List.length h.1
  rw [List.length_append] at hlen
  exact absurd hlen (Nat.succ_ne_self _)

variable [DecidableEq D] (host : SessionHost D) (faults : Faults) (s : Opened D)

/-- The content file is there, or is written. -/
def writeContent (dir : SessionDir D) (d : D) (bytes : List UInt8) :
    SessionDir D × Option WriteStep :=
  if (dir.contents d).isSome then (dir, none)
  else writeFileAtomic faults.content dir (storeContent dir d bytes)

def addInput (bytes : List UInt8) (filename : String) (label : Option String) (now : String) :
    Opened D × Except SessionError D :=
  let row := inputRow host bytes filename label now
  if s.session.inputs.any (·.digest = row.digest) then (s, .ok row.digest)
  else
    let pushed := { s.session with inputs := s.session.inputs ++ [row] }
    match s.disk with
    | none =>
      ({ s with
        session := pushed
        memInputs := Function.update s.memInputs row.digest (some bytes) }, .ok row.digest)
    | some dir =>
      if faults.lock then (s, .error .lock)
      else
        match writeContent faults dir row.digest bytes with
        | (dir, some step) => ({ s with disk := some dir }, .error (.content step))
        | (dir, none) =>
          -- the row is pushed before its table is written
          match writeFileAtomic faults.table dir { dir with inputs := pushed.inputs } with
          | (dir, some step) =>
            ({ s with session := pushed, disk := some dir }, .error (.table step))
          | (dir, none) => ({ s with session := pushed, disk := some dir }, .ok row.digest)

def configSet (key value : String) : Opened D × Except SessionError Unit :=
  let changed := { s.session with config := s.session.config.set key value }
  match s.disk with
  | none => ({ s with session := changed }, .ok ())
  | some dir =>
    -- the entry is changed before the lock is taken
    if faults.lock then ({ s with session := changed }, .error .lock)
    else
      match writeFileAtomic faults.table dir { dir with config := changed.config } with
      | (dir, some step) => ({ s with session := changed, disk := some dir }, .error (.table step))
      | (dir, none) => ({ s with session := changed, disk := some dir }, .ok ())

/-- The session after a call, and how the call failed if it did. -/
def mutate : Mutation → Opened D × Option SessionError
  | .addInput bytes filename label now =>
    match addInput host faults s bytes filename label now with
    | (s, .error e) => (s, some e)
    | (s, .ok _) => (s, none)
  | .configSet key value =>
    match configSet faults s key value with
    | (s, .error e) => (s, some e)
    | (s, .ok _) => (s, none)

/-- A call that fails leaves the inputs and the config as they were. -/
def KeepsOnError (m : Mutation) : Prop :=
  (mutate host faults s m).2 ≠ none → Same (mutate host faults s m).1.session s.session

/-- The call changes the session and then fails: the table of the inputs cannot be written after
the content is stored, or an entry of the config is new and its table cannot be. -/
def FailsAfterChange : Mutation → Prop
  | .addInput bytes _ _ _ =>
    (∀ row ∈ s.session.inputs, row.digest ≠ host.digest bytes) ∧
      ∃ dir, s.disk = some dir ∧ faults.lock = false ∧
        ((dir.contents (host.digest bytes)).isSome = true ∨ faults.content = none) ∧
        faults.table ≠ none
  | .configSet key value =>
    s.disk ≠ none ∧ (faults.lock = true ∨ faults.table ≠ none) ∧
      KeyMap.lookup key s.session.config ≠ if value = "" then none else some value

variable {faults s}

variable (faults) in
/-- The content is stored when its file is there or no step of writing it fails. -/
theorem writeContent_snd (dir : SessionDir D) (d : D) (bytes : List UInt8) :
    (writeContent faults dir d bytes).2 =
      if (dir.contents d).isSome then none else faults.content := by
  unfold writeContent
  split_ifs
  · rfl
  · exact writeFileAtomic_snd _ _ _

theorem addInput_keeps_iff (bytes : List UInt8) (filename : String) (label : Option String)
    (now : String) :
    KeepsOnError host faults s (.addInput bytes filename label now) ↔
      ¬ FailsAfterChange host faults s (.addInput bytes filename label now) := by
  unfold KeepsOnError mutate FailsAfterChange addInput
  dsimp only
  by_cases hlisted : s.session.inputs.any (·.digest = host.digest bytes) = true
  · obtain ⟨row, hrow, hd⟩ := List.any_eq_true.mp hlisted
    rw [show (inputRow host bytes filename label now).digest = host.digest bytes from rfl,
      if_pos hlisted]
    exact iff_of_true (fun h => absurd rfl h) fun h => h.1 row hrow (of_decide_eq_true hd)
  have hnew : ∀ row ∈ s.session.inputs, row.digest ≠ host.digest bytes := fun row hrow heq =>
    hlisted (List.any_eq_true.mpr ⟨row, hrow, decide_eq_true heq⟩)
  rw [show (inputRow host bytes filename label now).digest = host.digest bytes from rfl,
    if_neg hlisted]
  cases hdisk : s.disk with
  | none => exact iff_of_true (fun h => absurd rfl h) fun ⟨_, dir, h, _⟩ => nomatch h
  | some dir =>
    dsimp only
    by_cases hlock : faults.lock = true
    · rw [if_pos hlock]
      refine iff_of_true (fun _ => Same.refl _) fun ⟨_, _, _, h, _⟩ => ?_
      rw [hlock] at h
      exact absurd h (by decide)
    rw [if_neg hlock]
    have hlock : faults.lock = false := Bool.eq_false_iff.mpr hlock
    have hcontent := writeContent_snd faults dir (host.digest bytes) bytes
    generalize writeContent faults dir (host.digest bytes) bytes = stored at hcontent ⊢
    obtain ⟨dir', step⟩ := stored
    cases step with
    | some step =>
      -- the content is not there and cannot be written
      refine iff_of_true (fun _ => Same.refl _) fun ⟨_, dir₀, hdir, _, hstored, _⟩ => ?_
      obtain rfl := Option.some.inj hdir
      rcases hstored with hthere | hwritten
      · rw [if_pos hthere] at hcontent
        exact nomatch hcontent
      · rw [hwritten, ite_self] at hcontent
        exact nomatch hcontent
    | none =>
      have hstored : (dir.contents (host.digest bytes)).isSome = true ∨ faults.content = none := by
        by_cases hthere : (dir.contents (host.digest bytes)).isSome = true
        · exact .inl hthere
        · rw [if_neg hthere] at hcontent
          exact .inr hcontent.symm
      have htable := writeFileAtomic_snd faults.table dir'
        { dir' with inputs := s.session.inputs ++ [inputRow host bytes filename label now] }
      dsimp only
      generalize writeFileAtomic faults.table dir' _ = written at htable ⊢
      obtain ⟨dir'', step'⟩ := written
      cases step' with
      | none => exact iff_of_true (fun h => absurd rfl h) fun h => h.2.choose_spec.2.2.2 htable.symm
      | some step' =>
        refine iff_of_false (fun h => not_same_push _ _ (h nofun)) (not_not_intro ?_)
        exact ⟨hnew, dir, rfl, hlock, hstored, fun h => nomatch htable.trans h⟩

theorem configSet_keeps_iff (key value : String) :
    KeepsOnError host faults s (.configSet key value) ↔
      ¬ FailsAfterChange host faults s (.configSet key value) := by
  unfold KeepsOnError mutate FailsAfterChange configSet
  dsimp only
  cases hdisk : s.disk with
  | none => exact iff_of_true (fun h => absurd rfl h) fun h => h.1 rfl
  | some dir =>
    dsimp only
    by_cases hlock : faults.lock = true
    · rw [if_pos hlock]
      constructor
      · exact fun h hfails => hfails.2.2 ((same_set_iff _ _ _).mp (h nofun))
      · exact fun h _ => (same_set_iff _ _ _).mpr (by_contra fun hne => h ⟨nofun, .inl hlock, hne⟩)
    rw [if_neg hlock]
    have htable := writeFileAtomic_snd faults.table dir
      { dir with config := s.session.config.set key value }
    generalize writeFileAtomic faults.table dir _ = written at htable ⊢
    obtain ⟨dir', step⟩ := written
    cases step with
    | none =>
      refine iff_of_true (fun h => absurd rfl h) fun h => ?_
      exact h.2.1.elim hlock fun hfault => hfault htable.symm
    | some step =>
      have hfault : faults.table ≠ none := fun h => nomatch htable.trans h
      constructor
      · exact fun h hfails => hfails.2.2 ((same_set_iff _ _ _).mp (h nofun))
      · exact fun h _ => (same_set_iff _ _ _).mpr (by_contra fun hne => h ⟨nofun, .inr hfault, hne⟩)

/-- A failed call leaves the session as it was unless it fails after it has changed it. -/
theorem failed_mutation_keeps_iff (host : SessionHost D) (faults : Faults) (s : Opened D)
    (m : Mutation) : KeepsOnError host faults s m ↔ ¬ FailsAfterChange host faults s m := by
  cases m with
  | addInput bytes filename label now => exact addInput_keeps_iff host bytes filename label now
  | configSet key value => exact configSet_keeps_iff host key value

/-- A digest for bytes that is their list. -/
def plainHost : SessionHost (List UInt8) where
  digest := id
  fileStem := some

/-- The disk is full when the table of the inputs is written. Adding the input again succeeds, and
nothing lists it. -/
theorem failed_addInput_retried :
    ¬ (∀ (faults : Faults) (s : Opened (List UInt8)) (m : Mutation),
      KeepsOnError plainHost faults s m) ∧
      let failed := mutate plainHost { table := some .temp } { disk := some {} }
        (.addInput [0x7f] "a.out" none "now")
      let retried := mutate plainHost {} failed.1 (.addInput [0x7f] "a.out" none "now")
      failed.2 = some (.table .temp) ∧ retried.2 = none ∧
        retried.1.disk.map SessionDir.inputs = some [] := by
  refine ⟨fun h => ?_, rfl, rfl, rfl⟩
  exact not_same_push _ _ (h { table := some .temp } { disk := some {} }
    (.addInput [0x7f] "a.out" none "now") nofun)

end Session
end Mosura
