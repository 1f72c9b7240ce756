import Mosura.SymbolicValues

/-! Executions of a path of the walk, and who last wrote each byte. -/

namespace Mosura
namespace Symbolic

open Lib

/-- An instruction of a path: its address, the instruction and the address after it. -/
structure Visit where
  addr : U64
  insn : Instruction
  next : U64

/-- The operations of a path in the order the propagator interprets them, each with the address of
its instruction. -/
def trace (path : List Visit) : List (U64 × Emu.PcodeOp) :=
  path.flatMap fun v => v.insn.ops.map fun op => (v.addr, op)

/-- The number in the trace of operation `i` of instruction `k`. -/
def position (path : List Visit) (k i : ℕ) : ℕ := (trace (path.take k)).length + i

theorem trace_take_succ {path : List Visit} {k : ℕ} {visit : Visit} (h : path[k]? = some visit) :
    trace (path.take (k + 1)) =
      trace (path.take k) ++ visit.insn.ops.map fun op => (visit.addr, op) := by
  unfold trace
  rw [List.take_add_one, h, List.flatMap_append]
  exact congrArg _ (List.append_nil _)

theorem trace_getElem {path : List Visit} {k i : ℕ} {visit : Visit} {op : Emu.PcodeOp}
    (h : path[k]? = some visit) (hop : visit.insn.ops[i]? = some op) :
    (trace path)[position path k i]? = some (visit.addr, op) := by
  have hsplit : trace path = trace (path.take (k + 1)) ++ trace (path.drop (k + 1)) := by
    unfold trace
    rw [← List.flatMap_append, List.take_append_drop]
  have hi : i < visit.insn.ops.length := (List.getElem?_eq_some_iff.mp hop).1
  unfold position
  rw [hsplit, trace_take_succ h, List.append_assoc, List.getElem?_append_right (Nat.le_add_right _ _),
    Nat.add_sub_cancel_left, List.getElem?_append_left (by rw [List.length_map]; exact hi),
    List.getElem?_map, hop]
  rfl

section Contexts

variable (p : Program) (ram : SpaceId) (t : List (U64 × Emu.PcodeOp))

/-- The context after the first `j` operations of a trace. -/
def contextAt : ℕ → VarnodeContext
  | 0 => .empty
  | j + 1 =>
    match t[j]? with
    | some (a, op) => propagate p ram (contextAt j) op a
    | none => contextAt j

/-- Operation `j` puts the value `val` at the location `out`. -/
def Puts (j : ℕ) (out : Emu.Varnode) (val : SymValue) : Prop :=
  ∃ a op, t[j]? = some (a, op) ∧ op.out = some out ∧
    opValue p ram (contextAt p ram t j) op out = some val

/-- The last of the first `j` operations that put a value at a key of the context. -/
def setterAt : ℕ → U64 × U64 → Option ℕ
  | 0, _ => none
  | j + 1, k =>
    match t[j]? with
    | some (_, op) =>
      match op.out with
      | some out =>
        if key out = k ∧ (opValue p ram (contextAt p ram t j) op out).isSome then some j
        else setterAt j k
      | none => setterAt j k
    | none => setterAt j k

variable {p ram t} {j q : ℕ} {k : U64 × U64}

theorem propagate_state {vctx : VarnodeContext} {op : Emu.PcodeOp} {out : Emu.Varnode} {a : U64}
    {val : SymValue} (hout : op.out = some out) (hval : opValue p ram vctx op out = some val) :
    (propagate p ram vctx op a).state = Function.update vctx.state (key out) val := by
  unfold propagate
  rw [hout]
  dsimp only
  rw [hval]
  dsimp only
  unfold VarnodeContext.putAt
  rw [if_neg (op.out_space out hout)]

/-- The value the context has at a key is the one its last setter put there. -/
theorem puts_of_setterAt (h : setterAt p ram t j k = some q) :
    ∃ out, Puts p ram t q out ((contextAt p ram t j).state k) := by
  induction j with
  | zero => cases h
  | succ j ih =>
    unfold setterAt at h
    unfold contextAt
    cases ht : t[j]? with
    | none =>
      rw [ht] at h
      exact ih h
    | some x =>
      obtain ⟨a, op⟩ := x
      rw [ht] at h
      dsimp only at h ⊢
      cases hout : op.out with
      | none =>
        rw [hout] at h
        have hsame : propagate p ram (contextAt p ram t j) op a = contextAt p ram t j := by
          unfold propagate
          rw [hout]
        rw [hsame]
        exact ih h
      | some out =>
        rw [hout] at h
        dsimp only at h
        cases hval : opValue p ram (contextAt p ram t j) op out with
        | none =>
          rw [hval, if_neg (fun h => Bool.false_ne_true h.2)] at h
          have hsame : propagate p ram (contextAt p ram t j) op a = contextAt p ram t j := by
            unfold propagate
            rw [hout]
            dsimp only
            rw [hval]
          rw [hsame]
          exact ih h
        | some val =>
          rw [propagate_state hout hval]
          by_cases hk : key out = k
          · rw [if_pos ⟨hk, by rw [hval]; rfl⟩] at h
            obtain rfl : j = q := Option.some.inj h
            refine ⟨out, a, op, ht, hout, ?_⟩
            rw [hval, ← hk, Function.update_self]
          · rw [if_neg fun h => hk h.1] at h
            rw [Function.update_of_ne fun he => hk he.symm]
            exact ih h

end Contexts

section States

variable (p : Program) (ram : SpaceId) (path : List Visit)

/-- An execution on a path: operation `op` of instruction `instr` comes next, and `writer` has for
every byte the operation that last wrote it, by its number in the trace, and which of the bytes of
its output it is; a byte that a store or a call has changed since has none. -/
structure State where
  instr : ℕ
  op : ℕ
  bytes : Bytes
  writer : String → U64 → Option (ℕ × ℕ)

def State.position (s : State) : ℕ := Symbolic.position path s.instr s.op

/-- The context the propagator has where the execution is. -/
def State.context (s : State) : VarnodeContext := contextAt p ram (trace path) (s.position path)

/-- The operation that comes next. -/
def State.next (s : State) : Option Emu.PcodeOp := path[s.instr]?.bind (·.insn.ops[s.op]?)

/-- Byte `i` of the location is still byte `i` of the output of the operation that set the context's
value of it. -/
def Fresh (s : State) (v : Emu.Varnode) : Prop :=
  ∃ q, setterAt p ram (trace path) (s.position path) (key v) = some q ∧
    ∀ i < v.size, s.writer v.space (place p.bigEndian v i) = some (q, i)

/-- Which byte of the location the cell is. -/
def byteIndex (bigEndian : Bool) (v : Emu.Varnode) (space : String) (a : U64) : Option ℕ :=
  if v.space = space then (List.range v.size).find? fun i => place bigEndian v i = a else none

/-- The writers after operation `j` took the memory from `σ` to `σ'`. -/
def writers (j : ℕ) (op : Emu.PcodeOp) (σ σ' : Bytes) (writer : String → U64 → Option (ℕ × ℕ))
    (space : String) (a : U64) : Option (ℕ × ℕ) :=
  match op.out.bind fun out => byteIndex p.bigEndian out space a with
  | some i => some (j, i)
  | none => if σ' space a = σ space a then writer space a else none

/-- A byte holds what the constant of its writer says. -/
def Kept (s : State) : Prop :=
  ∀ space a q i, s.writer space a = some (q, i) → ∀ out c, Puts p ram (trace path) q out (.const c) →
    s.bytes space a = BitVec.ofNat 8 (c.toNat / 256 ^ i)

variable {p ram path} {s : State}

theorem byteIndex_spec {bigEndian : Bool} {v : Emu.Varnode} {space : String} {a : U64} {i : ℕ}
    (h : byteIndex bigEndian v space a = some i) :
    v.space = space ∧ i < v.size ∧ place bigEndian v i = a := by
  unfold byteIndex at h
  split_ifs at h with hspace
  have hplace := List.find?_some h
  have hmem := List.mem_of_find?_eq_some h
  exact ⟨hspace, List.mem_range.mp hmem, by simpa only [decide_eq_true_iff] using hplace⟩

/-- A fresh location of which the context has a constant holds that constant. -/
theorem Kept.valueAt_of_fresh (hk : Kept p ram path s) {v : Emu.Varnode} {c : U64}
    (hv : v.space ≠ "const") (hf : Fresh p ram path s v)
    (hget : (s.context p ram path).get v = .const c) :
    valueAt p.bigEndian s.bytes v = c.toNat % 2 ^ (8 * v.size) := by
  obtain ⟨q, hq, hbytes⟩ := hf
  obtain ⟨out, hputs⟩ := puts_of_setterAt hq
  have hstate : (contextAt p ram (trace path) (s.position path)).state (key v) = .const c := by
    unfold VarnodeContext.get at hget
    rwa [if_neg hv] at hget
  rw [hstate] at hputs
  exact valueAt_of_bytes hv fun i hi => hk _ _ q i (hbytes i hi) out c hputs

/-- One operation that leaves at its output what its constant says keeps the bytes. -/
theorem Kept.step (hk : Kept p ram path s) {j k i : ℕ} {op : Emu.PcodeOp} {a : U64} {σ : Bytes}
    (ht : (trace path)[j]? = some (a, op))
    (hout : ∀ out c, op.out = some out →
      opValue p ram (contextAt p ram (trace path) j) op out = some (.const c) →
      valueAt p.bigEndian σ out = c.toNat % 2 ^ (8 * out.size)) :
    Kept p ram path ⟨k, i, σ, writers p j op s.bytes σ s.writer⟩ := by
  intro space cell q n hwriter out c hputs
  change writers p j op s.bytes σ s.writer space cell = some (q, n) at hwriter
  unfold writers at hwriter
  split at hwriter
  case h_1 m hindex =>
    obtain ⟨out', hout', hindex⟩ := Option.bind_eq_some_iff.mp hindex
    obtain ⟨hspace, hlt, rfl⟩ := byteIndex_spec hindex
    obtain ⟨rfl, rfl⟩ := Prod.mk.inj (Option.some.inj hwriter)
    obtain ⟨_, _, ht', hop, hval⟩ := hputs
    rw [ht] at ht'
    obtain ⟨rfl, rfl⟩ := Prod.mk.inj (Option.some.inj ht')
    obtain rfl : out' = out := Option.some.inj (hout'.symm.trans hop)
    rw [← hspace]
    have hbyte : σ out'.space (place p.bigEndian out' m) = _ :=
      byte_of_valueAt (op.out_space out' hop) hlt
    rw [hout out' c hop hval, ofNat_byte_mod hlt] at hbyte
    exact hbyte
  case h_2 =>
    split_ifs at hwriter with hsame
    exact hsame.trans (hk space cell q n hwriter out c hputs)

end States

section Runs

variable (host : Host) (p : Program) (ram : SpaceId) (path : List Visit)

/-- Where control goes within the path: on, to another operation of the instruction, or to the next
instruction of the path. -/
inductive Goes (visit : Visit) (k i : ℕ) : Emu.Flow → ℕ → ℕ → Prop
  | next : Goes visit k i .next k (i + 1)
  | rel (d : U64) (i' : ℕ) : (i' : ℤ) = i + d.toInt → i' ≤ visit.insn.ops.length →
    Goes visit k i (.rel d) k i'
  | jump (a : U64) : path[k + 1]?.map Visit.addr = some a → Goes visit k i (.jump a) (k + 1) 0

/-- The states of the executions of a path, of which every state left meets the condition. -/
inductive Reaches (cond : State → Prop) : State → Prop
  | start (σ : Bytes) : Image p ram σ → Reaches cond ⟨0, 0, σ, fun _ _ => none⟩
  | op {s : State} {visit : Visit} {op : Emu.PcodeOp} {σ : Bytes} {k i : ℕ} :
    Reaches cond s → cond s → path[s.instr]? = some visit → visit.insn.ops[s.op]? = some op →
    Executes p.bigEndian s.bytes op σ → Image p ram σ →
    Goes path visit s.instr s.op (flowOf p.bigEndian s.bytes op) k i →
    Reaches cond ⟨k, i, σ, writers p (s.position path) op s.bytes σ s.writer⟩
  | fall {s : State} {visit : Visit} :
    Reaches cond s → cond s → path[s.instr]? = some visit → s.op = visit.insn.ops.length →
    path[s.instr + 1]?.map Visit.addr = some visit.next →
    Reaches cond ⟨s.instr + 1, 0, s.bytes, s.writer⟩

/-- A constant of the context for a location that is read is fresh. -/
def ReadsFresh (s : State) (v : Emu.Varnode) : Prop :=
  v.space ≠ "const" → ∀ c, (s.context p ram path).get v = .const c → Fresh p ram path s v

/-- An argument register, as wide as an address. -/
def argument (regOff : U64) : Emu.Varnode := ⟨"register", regOff, p.addrSizeBits / 8⟩

/-- What has to hold of a step for the propagator to be right about it: the constants of the
locations it looks at are fresh, and those it uses whole fit. -/
structure Clean (s : State) : Prop where
  reads : ∀ op, s.next path = some op → ∀ v ∈ reads op, ReadsFresh p ram path s v
  fits : ∀ op, s.next path = some op → Fits (s.context p ram path) op
  arguments : ∀ op, s.next path = some op → op.opcode = .call ∨ op.opcode = .callind →
    ∀ regOff ∈ argRegs host p, ReadsFresh p ram path s (argument p regOff) ∧
      ∀ c, (s.context p ram path).get (argument p regOff) = .const c →
        c.toNat < 2 ^ (8 * (p.addrSizeBits / 8))
  evaluated : is68000 p = true → ∀ visit, path[s.instr]? = some visit →
    s.op = visit.insn.ops.length → ∀ v, evaluated visit.insn = some v →
      ReadsFresh p ram path s v ∧
        ∀ c, (s.context p ram path).get v = .const c → c.toNat % 2 ^ 32 < 2 ^ (8 * v.size)

variable {host p ram path} {s : State}

theorem next_of (visit : Visit) (op : Emu.PcodeOp) (hvisit : path[s.instr]? = some visit)
    (hop : visit.insn.ops[s.op]? = some op) : s.next path = some op := by
  unfold State.next
  rw [hvisit, Option.bind_some, hop]

theorem readsFresh_value (hk : Kept p ram path s) {v : Emu.Varnode} {c : U64}
    (hf : ReadsFresh p ram path s v) (hget : (s.context p ram path).get v = .const c) :
    valueAt p.bigEndian s.bytes v = c.toNat % 2 ^ (8 * v.size) := by
  by_cases hv : v.space = "const"
  · unfold VarnodeContext.get at hget
    rw [if_pos hv] at hget
    rw [valueAt_const hv, SymValue.const.inj hget]
  · exact hk.valueAt_of_fresh hv (hf hv c hget) hget

theorem image_of_reaches {cond : State → Prop} (h : Reaches p ram path cond s) :
    Image p ram s.bytes := by
  induction h with
  | start _ h => exact h
  | op _ _ _ _ _ h => exact h
  | fall _ _ _ _ _ ih => exact ih

/-- Along a run whose steps are clean every byte holds what the constant of its writer says. -/
theorem kept_of_reaches {cond : State → Prop} (hclean : ∀ s, cond s → Clean host p ram path s)
    (h : Reaches p ram path cond s) : Kept p ram path s := by
  induction h with
  | start σ _ =>
    intro space a q i hwriter
    exact absurd hwriter (by nofun)
  | @op s visit op σ k i hreach hcond hvisit hop hexec _ _ ih =>
    have ht := trace_getElem hvisit hop
    have hnext := next_of visit op hvisit hop
    have hc := hclean s hcond
    refine ih.step ht fun out c hout hval => ?_
    exact opValue_sound (image_of_reaches hreach)
      (fun u hu c hget => readsFresh_value ih (hc.reads op hnext u hu) hget)
      (hc.fits op hnext) hout (hexec.output out hout) hval
  | fall _ _ _ _ _ ih => exact ih

end Runs
end Symbolic
end Mosura
