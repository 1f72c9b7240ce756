import Mosura.Pcode
import Mosura.Funcdata

/-! The execution of an SSA graph. -/

namespace Mosura

/-- What an execution shows to the world outside: an op and the operand values it sees. -/
structure Event where
  op : OpId
  args : List ℕ
  deriving DecidableEq, Repr

/-- The world outside the graph. It sees the events so far, newest first, and decides the values of
inputs, loads, calls and all other ops without a defined value, the part of a storage an INDIRECT
keeps, and the edge control takes at the end of a block. -/
structure World where
  input : VarnodeId → ℕ
  value : List Event → OpId → List ℕ → ℕ
  keep : List Event → OpId → ℕ
  effect : List Event → OpId → ℕ
  next : List Event → BlockId → BlockId × ℕ

/-- The bits of each operand the world sees; `none` for an op that shows nothing. -/
abbrev View := OpId → Option (List ℕ)

/-- A point of an execution: the ops of the block that are left, and the values so far. -/
structure State where
  block : BlockId
  rest : List OpId
  env : VarnodeId → Option ℕ
  events : List Event

namespace Funcdata

variable (f : Funcdata) (view : View) (w : World)

/-- The operands of `op` for the values `xs` of its inputs. -/
def operands (op : OpId) (xs : List ℕ) : Operands :=
  List.zipWith (fun v x => ((f.vn v).size, x)) (f.op op).inrefs xs

/-- `op` is p-code with output `out`: sizes as p-code allows, a constant SUBPIECE offset. -/
structure OpWf (op : OpId) (out : VarnodeId) : Prop where
  sizes : sizesOk (f.op op).opcode ((f.op op).inrefs.map fun v => (f.vn v).size) (f.vn out).size
  out_pos : 0 < (f.vn out).size
  in_pos : ∀ v ∈ (f.op op).inrefs, 0 < (f.vn v).size
  offset : (f.op op).opcode = .subpiece → (f.inVn op 1).constant = true

def allOps : List OpId := f.blocks.flatMap BlockBasic.ops

/-- An SSA graph: ops are p-code, an output names its op as definition, an input lists its
readers, constants fit their size and are never written. -/
structure SsaWf : Prop where
  opWf : ∀ op ∈ f.allOps, (f.op op).dead = false → ∀ out, (f.op op).output = some out → f.OpWf op out
  output : ∀ op out, (f.op op).output = some out →
    (f.vn out).written = true ∧ (f.vn out).defOp = some op
  descend : ∀ op, ∀ v ∈ (f.op op).inrefs, op ∈ (f.vn v).descend
  const : ∀ v, (f.vn v).constant = true →
    (f.vn v).written = false ∧ (f.vn v).constantValue.toNat < 2 ^ (8 * (f.vn v).size)

/-- The value of a varnode no op writes. -/
def leafValue (v : VarnodeId) : ℕ :=
  if (f.vn v).constant then (f.vn v).constantValue.toNat else w.input v % 2 ^ (8 * (f.vn v).size)

def initEnv (v : VarnodeId) : Option ℕ := if (f.vn v).written then none else some (f.leafValue w v)

def initState : State where
  block := 0
  rest := (f.block 0).ops
  env := f.initEnv w
  events := []

/-- The events after `op` has read `args`. -/
def record (events : List Event) (op : OpId) (args : List ℕ) : List Event :=
  match view op with
  | none => events
  | some masks => ⟨op, List.zipWith (· &&& ·) args masks⟩ :: events

/-- The operands an op without a defined value depends on: what the world sees of them, all of
them for a load or a computation the world does not see. -/
def seenArgs (op : OpId) (args : List ℕ) : List ℕ :=
  match view op with
  | none => args
  | some masks => List.zipWith (· &&& ·) args masks

/-- The result of a non-phi op on `args`; `none` where p-code defines no value (a division by 0). -/
def opValue (events : List Event) (op : OpId) (args : List ℕ) (so : ℕ) : Option ℕ :=
  let o := f.op op
  if o.opcode.hasSemantics then evalPcode o.opcode (f.operands op args) so
  else if o.opcode = .indirect then
    some (((args.headD 0 &&& w.keep events op) ^^^ w.effect events op) % 2 ^ (8 * so))
  else
    let v := w.value events op (seenArgs view op args) % 2 ^ (8 * so)
    some (if o.opcode.knownBool o.calculatedBool then v % 2 else v)

/-- The MULTIEQUAL `op` takes its value from the environment `env` before the block is entered. -/
def phiAssign (slot : ℕ) (env e : VarnodeId → Option ℕ) (op : OpId) : VarnodeId → Option ℕ :=
  if (f.op op).opcode = .multiequal ∧ (f.op op).dead = false then
    match (f.op op).output with
    | none => e
    | some out => Function.update e out (((f.op op).input slot).bind env)
  else e

/-- The values MULTIEQUALs take, all at once, when control enters through in-edge `slot`. -/
def phiEnv (ops : List OpId) (slot : ℕ) (env : VarnodeId → Option ℕ) : VarnodeId → Option ℕ :=
  ops.foldl (f.phiAssign slot env) env

/-- Control enters block `b` through its in-edge `slot`. -/
def enter (s : State) (b : BlockId) (slot : ℕ) : State where
  block := b
  rest := (f.block b).ops
  env := f.phiEnv (f.block b).ops slot s.env
  events := s.events

/-- The op `op` is executed, `rest` are the ops after it. -/
def execOp (s : State) (op : OpId) (rest : List OpId) : Option State := do
  let args ← (f.op op).inrefs.mapM s.env
  let events := record view s.events op args
  match (f.op op).output with
  | none => return { s with rest := rest, events := events }
  | some out =>
    let v ← f.opValue view w events op args (f.vn out).size
    return { s with rest := rest, env := Function.update s.env out (some v), events := events }

/-- One step: an op of the block, or an edge to the next block; `none` when execution stops. -/
def step (s : State) : Option State :=
  match s.rest with
  | op :: rest =>
    if (f.op op).dead ∨ (f.op op).opcode = .multiequal then some { s with rest := rest }
    else f.execOp view w s op rest
  | [] =>
    let (b, slot) := w.next s.events s.block
    if (f.block b).inEdges[slot]? = some s.block then some (f.enter s b slot) else none

/-- The states of the execution in the world `w`. -/
inductive Reachable : State → Prop
  | init : Reachable (f.initState w)
  | step {s s' : State} : Reachable s → f.step view w s = some s' → Reachable s'

variable {f view w}

theorem step_cases {s s' : State} (h : f.step view w s = some s') :
    (∃ op rest, s.rest = op :: rest ∧ ((f.op op).dead ∨ (f.op op).opcode = .multiequal) ∧
      s' = { s with rest := rest }) ∨
    (∃ op rest, s.rest = op :: rest ∧ (f.op op).dead = false ∧ (f.op op).opcode ≠ .multiequal ∧
      f.execOp view w s op rest = some s') ∨
    (∃ b slot, s.rest = [] ∧ (f.block b).inEdges[slot]? = some s.block ∧ s' = f.enter s b slot) := by
  unfold step at h
  split at h
  · rename_i op rest hr
    split_ifs at h with hd
    · exact .inl ⟨op, rest, hr, hd, (Option.some.inj h).symm⟩
    · rw [not_or, Bool.not_eq_true] at hd
      exact .inr (.inl ⟨op, rest, hr, hd.1, hd.2, h⟩)
  · rename_i hr
    simp only [Option.ite_none_right_eq_some, Option.some.injEq] at h
    exact .inr (.inr ⟨_, _, hr, h.1, h.2.symm⟩)

theorem execOp_cases {s s' : State} {op : OpId} {rest : List OpId}
    (h : f.execOp view w s op rest = some s') :
    ∃ args, (f.op op).inrefs.mapM s.env = some args ∧
      s'.block = s.block ∧ s'.rest = rest ∧ s'.events = record view s.events op args ∧
      (((f.op op).output = none ∧ s'.env = s.env) ∨
        ∃ out v, (f.op op).output = some out ∧
          f.opValue view w (record view s.events op args) op args (f.vn out).size = some v ∧
          s'.env = Function.update s.env out (some v)) := by
  unfold execOp at h
  simp only [Option.bind_eq_bind, Option.bind_eq_some_iff] at h
  obtain ⟨args, ha, h⟩ := h
  refine ⟨args, ha, ?_⟩
  split at h
  · rename_i ho
    cases h
    exact ⟨rfl, rfl, rfl, .inl ⟨ho, rfl⟩⟩
  · rename_i out ho
    simp only [Option.bind_eq_some_iff] at h
    obtain ⟨v, hv, h⟩ := h
    cases h
    exact ⟨rfl, rfl, rfl, .inr ⟨out, v, ho, hv, rfl⟩⟩

theorem forall₂_of_mapM {env : VarnodeId → Option ℕ} {ids : List VarnodeId} {args : List ℕ}
    (h : ids.mapM env = some args) : List.Forall₂ (fun v x => env v = some x) ids args := by
  induction ids generalizing args with
  | nil =>
    simp only [List.mapM_nil, Option.pure_def, Option.some.injEq] at h
    exact h ▸ .nil
  | cons v ids ih =>
    simp only [List.mapM_cons, Option.bind_eq_bind, Option.pure_def, Option.bind_eq_some_iff,
      Option.some.injEq] at h
    obtain ⟨x, hx, args', h', rfl⟩ := h
    exact .cons hx (ih h')

theorem operands_map_fst {op : OpId} {xs : List ℕ} (h : (f.op op).inrefs.length = xs.length) :
    (f.operands op xs).map Prod.fst = (f.op op).inrefs.map fun v => (f.vn v).size := by
  unfold operands
  generalize (f.op op).inrefs = ids at h ⊢
  induction ids generalizing xs with
  | nil => rfl
  | cons v ids ih =>
    cases xs with
    | nil => cases h
    | cons x xs =>
      simp only [List.zipWith_cons_cons, List.map_cons, List.cons.injEq, true_and]
      exact ih (Nat.succ.inj h)

theorem operands_map_snd {op : OpId} {xs : List ℕ} (h : (f.op op).inrefs.length = xs.length) :
    (f.operands op xs).map Prod.snd = xs := by
  unfold operands
  generalize (f.op op).inrefs = ids at h ⊢
  induction ids generalizing xs with
  | nil => exact (List.length_eq_zero_iff.mp h.symm).symm
  | cons v ids ih =>
    cases xs with
    | nil => cases h
    | cons x xs =>
      simp only [List.zipWith_cons_cons, List.map_cons, List.cons.injEq, true_and]
      exact ih (Nat.succ.inj h)

/-- `v` is the output of a MULTIEQUAL of `ops` and `x` the value of its input `slot`. -/
def PhiValue (f : Funcdata) (ops : List OpId) (slot : ℕ) (env : VarnodeId → Option ℕ)
    (v : VarnodeId) (x : Option ℕ) : Prop :=
  ∃ op ∈ ops, (f.op op).opcode = .multiequal ∧ (f.op op).dead = false ∧
    (f.op op).output = some v ∧ x = ((f.op op).input slot).bind env

theorem phiAssign_cases (slot : ℕ) (env e : VarnodeId → Option ℕ) {ops : List OpId} {op : OpId}
    (hop : op ∈ ops) (v : VarnodeId) : f.phiAssign slot env e op v = e v ∨
      f.PhiValue ops slot env v (f.phiAssign slot env e op v) := by
  unfold phiAssign
  split_ifs with hphi
  · cases ho : (f.op op).output with
    | none => exact .inl rfl
    | some out =>
      by_cases hv : v = out
      · subst hv
        exact .inr ⟨op, hop, hphi.1, hphi.2, ho, Function.update_self ..⟩
      · exact .inl (Function.update_of_ne hv ..)
  · exact .inl rfl

/-- The values a block entry assigns come from the in-edge's slot of its MULTIEQUALs. -/
theorem phiEnv_cases (ops : List OpId) (slot : ℕ) (env : VarnodeId → Option ℕ) (v : VarnodeId) :
    f.phiEnv ops slot env v = env v ∨
      f.PhiValue ops slot env v (f.phiEnv ops slot env v) := by
  have key : ∀ (l : List OpId) (e : VarnodeId → Option ℕ), (∀ op ∈ l, op ∈ ops) →
      (e v = env v ∨ f.PhiValue ops slot env v (e v)) →
      l.foldl (f.phiAssign slot env) e v = env v ∨
        f.PhiValue ops slot env v (l.foldl (f.phiAssign slot env) e v) := by
    intro l
    induction l with
    | nil => exact fun e _ he => he
    | cons op l ih =>
      intro e hl he
      refine ih _ (fun op' h' => hl op' (List.mem_cons_of_mem _ h')) ?_
      rcases phiAssign_cases slot env e (hl op (by simp)) v with h | h
      · rwa [h]
      · exact .inr h
  exact key ops env (fun _ h => h) (.inl rfl)

theorem mem_allOps_of_mem_block {b : BlockId} {op : OpId} (h : op ∈ (f.block b).ops) :
    op ∈ f.allOps := by
  unfold block at h
  rw [List.getD_eq_getElem?_getD] at h
  cases hb : f.blocks[b]? with
  | none => simp [hb] at h; cases h
  | some bl =>
    rw [hb] at h
    exact List.mem_flatMap.mpr ⟨bl, List.mem_of_getElem? hb, h⟩

/-- Only ops of the blocks are executed. -/
theorem Reachable.rest_subset {s : State} (h : f.Reachable view w s) :
    ∀ op ∈ s.rest, op ∈ f.allOps := by
  induction h with
  | init => exact fun op ho => mem_allOps_of_mem_block ho
  | step _ hst ih =>
    rcases step_cases hst with ⟨op, rest, hr, _, rfl⟩ | ⟨op, rest, hr, _, _, he⟩ |
      ⟨b, slot, _, _, rfl⟩
    · exact fun o ho => ih o (hr ▸ List.mem_cons_of_mem _ ho)
    · obtain ⟨_, _, _, hrest, _⟩ := execOp_cases he
      exact fun o ho => ih o (hr ▸ List.mem_cons_of_mem _ (hrest ▸ ho))
    · exact fun o ho => mem_allOps_of_mem_block ho

theorem opValue_result {events : List Event} {op : OpId} {args : List ℕ} {so v : ℕ}
    (hm : (f.op op).opcode ≠ .multiequal) (h : f.opValue view w events op args so = some v) :
    OpResult (f.op op).opcode (f.op op).calculatedBool (f.operands op args) so v := by
  unfold opValue at h
  unfold OpResult
  rw [if_neg hm]
  simp only [] at h
  by_cases he : (f.op op).opcode.hasSemantics = true
  · rw [if_pos he] at h ⊢
    exact h
  rw [if_neg he] at h ⊢
  by_cases hi : (f.op op).opcode = .indirect
  · rw [if_pos hi] at h
    cases h
    exact ⟨Nat.mod_lt _ (Nat.two_pow_pos _), fun hb => by simp [hi, OpCode.knownBool,
      OpCode.isBoolOutput] at hb⟩
  rw [if_neg hi] at h
  cases h
  split_ifs with hb
  · exact ⟨(Nat.mod_le _ _).trans_lt (Nat.mod_lt _ (Nat.two_pow_pos _)), fun _ => by omega⟩
  · exact ⟨Nat.mod_lt _ (Nat.two_pow_pos _), fun h => absurd h hb⟩

end Funcdata
end Mosura
