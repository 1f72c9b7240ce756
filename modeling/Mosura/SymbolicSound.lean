import Mosura.SymbolicRuns

/-! What the propagator records along a path, and when the executions of the path use it. -/

namespace Mosura
namespace Symbolic

section Uses

variable (host : Host) (p : Program) (path : List Visit)

/-- The address is one the execution uses in this state: as an operand, as a pointer, as the target
of a flow, as an argument, or as what `pea` has pushed or `lea` set. -/
inductive Uses (s : State) : RefType → U64 → Prop
  | reads {op v} : s.next path = some op → v ∈ reads op → v.space = "ram" → Uses s .read v.offset
  | writes {op out} : s.next path = some op → op.out = some out → out.space = "ram" →
    Uses s .write out.offset
  | names {op v} : s.next path = some op → v ∈ reads op → v.space = "const" → Uses s .data v.offset
  | loads {op ptr a} : s.next path = some op → op.opcode = .load →
    op.ins[0]? = some (.space "ram") → argVar op 1 = some ptr →
    valueAt p.bigEndian s.bytes ptr = a.toNat → Uses s .read a
  | stores {op ptr a} : s.next path = some op → op.opcode = .store →
    op.ins[0]? = some (.space "ram") → argVar op 1 = some ptr →
    valueAt p.bigEndian s.bytes ptr = a.toNat → Uses s .write a
  | flows {op t a rt} : s.next path = some op → op.opcode = .callind ∨ op.opcode = .branchind →
    argVar op 0 = some t → valueAt p.bigEndian s.bytes t = a.toNat → Uses s rt a
  | passes {op regOff a} : s.next path = some op → op.opcode = .call ∨ op.opcode = .callind →
    regOff ∈ argRegs host p → valueAt p.bigEndian s.bytes (argument p regOff) = a.toNat →
    Uses s .param a
  | evaluates {visit v a} : path[s.instr]? = some visit → s.op = visit.insn.ops.length →
    evaluated visit.insn = some v → valueAt p.bigEndian s.bytes v % 2 ^ 32 = a.toNat →
    Uses s .data a

end Uses

section Recording

variable {host : Host} {p : Program} {ram : SpaceId} {refs : List Reference} {r : Reference}

theorem mem_addReference {r' : Reference} (h : r ∈ addReference refs r') : r ∈ refs ∨ r = r' := by
  unfold addReference at h
  split_ifs at h
  · exact .inl h
  · exact (List.mem_append.mp h).imp id List.mem_singleton.mp

theorem mem_makeRef {from_ : Address} {a least : U64} {rt : RefType} {known : Bool} {body : String}
    (h : r ∈ makeRef host p ram refs from_ a rt least known body) :
    r ∈ refs ∨ r.refType = rt ∧ r.to_ = ⟨ram, a⟩ := by
  unfold makeRef at h
  dsimp only at h
  split_ifs at h
  · exact .inl h
  · exact .inl h
  · refine (mem_addReference h).imp id ?_
    rintro rfl
    exact ⟨rfl, rfl⟩

/-- What a fold over a list records comes from one of its elements. -/
theorem mem_foldl {α : Type} {f : List Reference → α → List Reference} {P : α → Prop} {l : List α}
    (hf : ∀ acc, ∀ x ∈ l, r ∈ f acc x → r ∈ acc ∨ P x) (h : r ∈ l.foldl f refs) :
    r ∈ refs ∨ ∃ x ∈ l, P x := by
  induction l generalizing refs with
  | nil => exact .inl h
  | cons x l ih =>
    rcases ih (fun acc y hy => hf acc y (List.mem_cons_of_mem x hy)) h with h | ⟨y, hy, hP⟩
    · exact (hf refs x List.mem_cons_self h).imp id fun hP => ⟨x, List.mem_cons_self, hP⟩
    · exact .inr ⟨y, List.mem_cons_of_mem x hy, hP⟩

variable {path : List Visit} {s : State} {op : Emu.PcodeOp}

/-- What holds of a clean state on a run: the image, and every constant of the context that the
next operation looks at. -/
structure Right (host : Host) (p : Program) (ram : SpaceId) (path : List Visit) (s : State)
    (op : Emu.PcodeOp) : Prop where
  next : s.next path = some op
  image : Image p ram s.bytes
  reads : ReadsHold p (s.context p ram path) s.bytes op
  fits : Fits (s.context p ram path) op
  arguments : op.opcode = .call ∨ op.opcode = .callind → ∀ regOff ∈ argRegs host p, ∀ c,
    (s.context p ram path).get (argument p regOff) = .const c →
    valueAt p.bigEndian s.bytes (argument p regOff) = c.toNat

theorem right_of_clean (hk : Kept p ram path s) (himage : Image p ram s.bytes)
    (hc : Clean host p ram path s) (hnext : s.next path = some op) : Right host p ram path s op where
  next := hnext
  image := himage
  reads u hu _ hget := readsFresh_value hk (hc.reads op hnext u hu) hget
  fits := hc.fits op hnext
  arguments hcall regOff hreg c hget := by
    obtain ⟨hfresh, hfit⟩ := hc.arguments op hnext hcall regOff hreg
    rw [readsFresh_value hk hfresh hget]
    exact Nat.mod_eq_of_lt (hfit c hget)

/-- The reference is to an address of the program that the execution uses in this state. -/
def Used (host : Host) (p : Program) (ram : SpaceId) (path : List Visit) (s : State)
    (r : Reference) : Prop := r.to_.space = ram ∧ Uses host p path s r.refType r.to_.offset

theorem used_of_makeRef {from_ : Address} {a least : U64} {rt : RefType} {known : Bool}
    {body : String} (hu : Uses host p path s rt a)
    (h : r ∈ makeRef host p ram refs from_ a rt least known body) :
    r ∈ refs ∨ Used host p ram path s r := by
  refine (mem_makeRef h).imp id ?_
  rintro ⟨rfl, hto⟩
  unfold Used
  rw [hto]
  exact ⟨rfl, hu⟩

theorem used_of_operandRef {here : Address} {instNext : U64} {flow : Option RefType}
    {body : String} (hr : Right host p ram path s op) {arg : Emu.PArg} (harg : arg ∈ op.ins)
    (h : r ∈ operandRef host p ram here instNext op.opcode flow body refs arg) :
    r ∈ refs ∨ Used host p ram path s r := by
  cases arg with
  | space _ => exact .inl h
  | var v =>
    have hv : v ∈ reads op := List.mem_filterMap.mpr ⟨_, harg, rfl⟩
    unfold operandRef at h
    dsimp only at h
    split_ifs at h with hram hconst
    · exact used_of_makeRef (.reads hr.next hv hram) h
    · exact used_of_makeRef (.names hr.next hv hconst.1) h
    · exact .inl h

theorem used_of_operandRefs {here : Address} {instNext : U64} {flow : Option RefType}
    {body : String} (hr : Right host p ram path s op)
    (h : r ∈ operandRefs host p ram here instNext op flow body refs) :
    r ∈ refs ∨ Used host p ram path s r := by
  have hins {acc : List Reference}
      (h : r ∈ op.ins.foldl (operandRef host p ram here instNext op.opcode flow body) acc) :
      r ∈ acc ∨ Used host p ram path s r := by
    rcases mem_foldl (fun _ _ harg hmem => used_of_operandRef hr harg hmem) h with h | ⟨_, -, h⟩
    · exact .inl h
    · exact .inr h
  unfold operandRefs at h
  split_ifs at h with hflow
  · exact .inl h
  dsimp only at h
  cases hout : op.out with
  | none =>
    rw [hout] at h
    exact hins h
  | some out =>
    rw [hout] at h
    dsimp only at h
    split_ifs at h with hram
    · rcases used_of_makeRef (.writes hr.next hout hram) h with h | h
      · exact hins h
      · exact .inr h
    · exact hins h

theorem indirectTarget_sound (hr : Right host p ram path s op)
    (hcode : op.opcode = .callind ∨ op.opcode = .branchind) {a : U64}
    (h : indirectTarget p ram (s.context p ram path) op = some a) (rt : RefType) :
    Uses host p path s rt a := by
  unfold indirectTarget at h
  split at h
  case h_1 target htarget =>
    obtain rfl : target = a := Option.some.inj h
    obtain ⟨t, ht, hval⟩ := Option.map_eq_some_iff.mp htarget
    refine .flows hr.next hcode ht ?_
    split_ifs at hval with hram
    · have himage := readMemConst_sound hr.image hval
      rwa [← get_ram_location hram _ rfl] at himage
    · exact pointer_sound hr.reads ht hval (hr.fits.target hcode t target ht hram hval)
  case h_2 => cases h

theorem used_of_accessRefs {here : Address} {flow : Option RefType} {body : String}
    (hr : Right host p ram path s op)
    (h : r ∈ accessRefs host p ram here (s.context p ram path) op flow body refs) :
    r ∈ refs ∨ Used host p ram path s r := by
  have hpointer {a : U64} (hcode : op.opcode = .load ∨ op.opcode = .store)
      (hptr : (argVar op 1).map (s.context p ram path).get = some (.const a)) :
      ∃ ptr, op.ins[0]? = some (.space "ram") ∧ argVar op 1 = some ptr ∧
        valueAt p.bigEndian s.bytes ptr = a.toNat := by
    obtain ⟨ptr, hptr, hget⟩ := Option.map_eq_some_iff.mp hptr
    obtain ⟨hspace, hfit⟩ := hr.fits.pointer hcode ptr a hptr hget
    exact ⟨ptr, hspace, hptr, pointer_sound hr.reads hptr hget hfit⟩
  have hflow (hcode : op.opcode = .callind ∨ op.opcode = .branchind)
      (h : r ∈ indirectRefs host p ram here (s.context p ram path) op flow body refs) :
      r ∈ refs ∨ Used host p ram path s r := by
    unfold indirectRefs at h
    split at h
    case h_1 target rt htarget _ => exact used_of_makeRef (indirectTarget_sound hr hcode htarget rt) h
    case h_2 => exact .inl h
  unfold accessRefs at h
  cases hcode : op.opcode <;> rw [hcode] at h <;> dsimp only at h
  case load =>
    split at h
    case h_1 a hptr =>
      obtain ⟨ptr, hspace, hptr, hval⟩ := hpointer (.inl hcode) hptr
      exact used_of_makeRef (.loads hr.next hcode hspace hptr hval) h
    case h_2 => exact .inl h
  case store =>
    split at h
    case h_1 a hptr =>
      obtain ⟨ptr, hspace, hptr, hval⟩ := hpointer (.inr hcode) hptr
      exact used_of_makeRef (.stores hr.next hcode hspace hptr hval) h
    case h_2 => exact .inl h
  case callind => exact hflow (.inl hcode) h
  case branchind => exact hflow (.inr hcode) h
  all_goals exact .inl h

theorem used_of_paramRefs {refs' : List Reference} {dests : List U64} {falls : Bool}
    {targets : List U64} (hr : Right host p ram path s op)
    (h : r ∈ paramRefs host p ram ⟨refs', s.context p ram path, dests, falls, targets⟩ op) :
    r ∈ refs' ∨ Used host p ram path s r := by
  have hone {callOffset regOff : U64} {acc : List Reference}
      (hcall : op.opcode = .call ∨ op.opcode = .callind) (hreg : regOff ∈ argRegs host p)
      (h : r ∈ addParamReference p ram (s.context p ram path) callOffset acc regOff) :
      r ∈ acc ∨ Used host p ram path s r := by
    unfold addParamReference at h
    split at h
    case h_1 val setAt hget _ =>
      split_ifs at h
      · exact .inl h
      · rcases mem_addReference h with h | rfl
        · exact .inl (List.mem_filter.mp h).1
        · exact .inr ⟨rfl, .passes hr.next hcall hreg (hr.arguments hcall regOff hreg val hget)⟩
    case h_2 => exact .inl h
  have hall {callOffset : U64} (hcall : op.opcode = .call ∨ op.opcode = .callind)
      (h : r ∈ addParamReferences host p ram (s.context p ram path) callOffset refs') :
      r ∈ refs' ∨ Used host p ram path s r := by
    rcases mem_foldl (fun _ _ hreg hmem => hone hcall hreg hmem) h with h | ⟨_, -, h⟩
    · exact .inl h
    · exact .inr h
  unfold paramRefs at h
  cases hcode : op.opcode <;> rw [hcode] at h <;> dsimp only at h
  case call => exact hall (.inl hcode) h
  case callind => exact hall (.inr hcode) h
  all_goals exact .inl h

/-- The low four bytes of a location, where the constant has no others of its width. -/
theorem low_word {c n v : ℕ} (hv : v = c % 2 ^ (8 * n)) (hfit : c % 2 ^ 32 < 2 ^ (8 * n)) :
    v % 2 ^ 32 = c % 2 ^ 32 := by
  rw [hv]
  by_cases h : 4 ≤ n
  · exact Nat.mod_mod_of_dvd c (pow_dvd_pow 2 (by omega))
  · have hdvd : (2 : ℕ) ^ (8 * n) ∣ 2 ^ 32 := pow_dvd_pow 2 (by omega)
    rw [← Nat.mod_mod_of_dvd c hdvd, Nat.mod_eq_of_lt hfit, Nat.mod_mod]

theorem used_of_evaluateContext {here : Address} {visit : Visit} (hk : Kept p ram path s)
    (hc : Clean host p ram path s) (h68 : is68000 p = true) (hvisit : path[s.instr]? = some visit)
    (hend : s.op = visit.insn.ops.length)
    (h : r ∈ motorola68kEvaluateContext p ram here (s.context p ram path) visit.insn refs) :
    r ∈ refs ∨ Used host p ram path s r := by
  unfold motorola68kEvaluateContext at h
  split at h
  case h_1 c hval =>
    obtain ⟨v, hv, hget⟩ := Option.map_eq_some_iff.mp hval
    dsimp only at h
    split_ifs at h
    case neg =>
      refine (mem_addReference h).imp id ?_
      rintro rfl
      obtain ⟨hfresh, hfit⟩ := hc.evaluated h68 visit hvisit hend v hv
      have hlow := low_word (readsFresh_value hk hfresh hget) (hfit c hget)
      refine ⟨rfl, .evaluates hvisit hend hv (hlow.trans ?_)⟩
      change _ = (c &&& 0xffffffff#64).toNat
      rw [BitVec.toNat_and]
      exact (Nat.and_two_pow_sub_one_eq_mod c.toNat 32).symm
    all_goals exact .inl h
  case h_2 => exact .inl h

end Recording

section Paths

variable (host : Host) (p : Program) (ram : SpaceId)

/-- The propagator's walk over operation `op` of a visit. -/
def visitPass (visit : Visit) : Pass → Emu.PcodeOp → Pass :=
  visitOp host p ram ⟨ram, visit.addr⟩ visit.next
    (host.flowType visit.insn.ops visit.addr visit.next) visit.insn.body

/-- Interpreting operation `i` of instruction `k` in the context of the path adds the reference; the
processor's own evaluator does so past the last operation. -/
inductive Records (path : List Visit) : ℕ → ℕ → Reference → Prop
  | op {k i visit op s r} : path[k]? = some visit → visit.insn.ops[i]? = some op →
    s.vctx = contextAt p ram (trace path) (position path k i) → r ∉ s.refs →
    r ∈ (visitPass host p ram visit s op).refs → Records path k i r
  | evaluator {k visit refs r} : path[k]? = some visit → is68000 p = true → r ∉ refs →
    r ∈ motorola68kEvaluateContext p ram ⟨ram, visit.addr⟩
      (contextAt p ram (trace path) (position path k visit.insn.ops.length)) visit.insn refs →
    Records path k visit.insn.ops.length r

/-- Interpreting operation `i` of instruction `k` in the context of the path resolves a computed call
to the destination. -/
def RecordsCall (path : List Visit) (k i : ℕ) (dest : U64) : Prop :=
  ∃ visit op, path[k]? = some visit ∧ visit.insn.ops[i]? = some op ∧
    dest ∈ callDest p ram (contextAt p ram (trace path) (position path k i)) op
      (host.flowType visit.insn.ops visit.addr visit.next)

variable {host p ram} {path : List Visit} {s : State}

@[simp]
theorem followFlow_refs (here : Address) (a : Pass) (op : Emu.PcodeOp) :
    (followFlow here a op).refs = a.refs := by
  unfold followFlow
  split <;> rfl

@[simp]
theorem followFlow_vctx (here : Address) (a : Pass) (op : Emu.PcodeOp) :
    (followFlow here a op).vctx = a.vctx := by
  unfold followFlow
  split <;> rfl

@[simp]
theorem followFlow_callDests (here : Address) (a : Pass) (op : Emu.PcodeOp) :
    (followFlow here a op).callDests = a.callDests := by
  unfold followFlow
  split <;> rfl

/-- A reference that interpreting adds is one the executions use there. -/
theorem used_of_records {k i : ℕ} {r : Reference} (h : Records host p ram path k i r)
    (hk : Kept p ram path s) (himage : Image p ram s.bytes) (hc : Clean host p ram path s)
    (hinstr : s.instr = k) (hop : s.op = i) : Used host p ram path s r := by
  cases h with
  | op hvisit hops hctx hnew hadd =>
    rename_i visit op a
    subst hinstr
    subst hop
    have hr : Right host p ram path s op :=
      right_of_clean hk himage hc (next_of visit op hvisit hops)
    unfold visitPass visitOp at hadd
    rw [followFlow_refs] at hadd
    obtain ⟨refs, vctx, dests, falls, targets⟩ := a
    obtain rfl : vctx = s.context p ram path := hctx
    rcases used_of_accessRefs hr hadd with h | h
    · rcases used_of_operandRefs hr h with h | h
      · rcases used_of_paramRefs hr h with h | h
        · exact absurd h hnew
        · exact h
      · exact h
    · exact h
  | evaluator hvisit h68 hnew hadd =>
    rename_i visit refs
    subst hinstr
    have hctx : s.context p ram path =
        contextAt p ram (trace path) (position path s.instr visit.insn.ops.length) := by
      unfold State.context State.position
      rw [hop]
    rw [← hctx] at hadd
    exact (used_of_evaluateContext hk hc h68 hvisit hop hadd).resolve_left hnew

/-- A destination that interpreting resolves is where the executions go there. -/
theorem uses_of_recordsCall {k i : ℕ} {dest : U64} (h : RecordsCall host p ram path k i dest)
    (hk : Kept p ram path s) (himage : Image p ram s.bytes) (hc : Clean host p ram path s)
    (hinstr : s.instr = k) (hop : s.op = i) :
    ∃ rt : RefType, rt.isCall = true ∧ Uses host p path s rt dest := by
  obtain ⟨visit, op, hvisit, hops, hdest⟩ := h
  subst hinstr
  subst hop
  have hr : Right host p ram path s op :=
    right_of_clean hk himage hc (next_of visit op hvisit hops)
  unfold callDest at hdest
  split_ifs at hdest with hcode
  · split at hdest
    case h_1 target rt htarget _ =>
      split_ifs at hdest with hcall
      · obtain rfl := List.mem_singleton.mp hdest
        exact ⟨rt, hcall.1, indirectTarget_sound hr hcode htarget rt⟩
      · exact absurd hdest List.not_mem_nil
    case h_2 => exact absurd hdest List.not_mem_nil
  · exact absurd hdest List.not_mem_nil

end Paths

section Walks

variable (host : Host) (p : Program) (ram : SpaceId) (start : U64) (entries : U64 → Bool)

/-- Where control may go from an instruction: on, to a branch target, or by a computed jump. -/
def Leads (visit : Visit) (a : U64) : Prop :=
  a = visit.next ∨ ∃ op ∈ visit.insn.ops,
    (op.opcode = .branch ∨ op.opcode = .cbranch) ∧ ramBranchTarget op = some a ∨
      op.opcode = .branchind

/-- The instruction the walk interprets at an address, where it does. -/
def Decodes (visit : Visit) : Prop :=
  (visit.addr = start ∨ entries visit.addr = false) ∧ ∃ ilen,
    decode host p ram visit.addr = some (visit.insn, ilen) ∧ visit.next = visit.addr + ilen

/-- The walk goes along the path and then to the address. -/
inductive Arrives : List Visit → U64 → Prop
  | start : Arrives [] start
  | visit {path visit a} : Arrives path visit.addr → Decodes host p ram start entries visit →
    Leads visit a → Arrives (path ++ [visit]) a

/-- A path that the walk interprets from the start address. -/
def Interprets (path : List Visit) : Prop :=
  ∃ before visit, Arrives host p ram start entries before visit.addr ∧
    Decodes host p ram start entries visit ∧ path = before ++ [visit]

/-- The propagator never invents a value: in the executions of the paths it interprets, of which
every state meets the condition, each constant it has for a location that is read is there, and each
reference and each call destination it records is one the execution uses where it was recorded. -/
structure NeverInvents (cond : List Visit → State → Prop) : Prop where
  values : ∀ path, Interprets host p ram start entries path → ∀ s, Reaches p ram path (cond path) s →
    cond path s → ∀ op, s.next path = some op → ReadsHold p (s.context p ram path) s.bytes op
  references : ∀ n, ∀ r ∈ (flowConstants host p ram start entries n).refs, r ∈ p.references ∨
    ∃ path k i, Interprets host p ram start entries path ∧ Records host p ram path k i r ∧
      ∀ s, Reaches p ram path (cond path) s → cond path s → s.instr = k → s.op = i →
        Used host p ram path s r
  destinations : ∀ n, ∀ dest ∈ (flowConstants host p ram start entries n).destinations,
    ∃ path k i, Interprets host p ram start entries path ∧ RecordsCall host p ram path k i dest ∧
      ∀ s, Reaches p ram path (cond path) s → cond path s → s.instr = k → s.op = i →
        ∃ rt : RefType, rt.isCall = true ∧ Uses host p path s rt dest

/-- The walk has only what interpreting its paths records, and each address of its work is reached by
a path that gives its context. -/
structure OnPaths (w : Walk) : Prop where
  work : ∀ a vctx, (a, vctx) ∈ w.work → ∃ path, Arrives host p ram start entries path a ∧
    vctx = contextAt p ram (trace path) (trace path).length
  refs : ∀ r ∈ w.refs, r ∈ p.references ∨ ∃ path k i, Interprets host p ram start entries path ∧
    Records host p ram path k i r
  callDests : ∀ dest ∈ w.callDests, ∃ path k i, Interprets host p ram start entries path ∧
    RecordsCall host p ram path k i dest

variable {host p ram start entries} {path : List Visit} {visit : Visit}

theorem contextAt_append {t t' : List (U64 × Emu.PcodeOp)} {j : ℕ} (hj : j ≤ t.length) :
    contextAt p ram (t ++ t') j = contextAt p ram t j := by
  induction j with
  | zero => rfl
  | succ j ih =>
    unfold contextAt
    rw [List.getElem?_append_left (by omega), ih (by omega)]

theorem contextAt_succ {k i : ℕ} {op : Emu.PcodeOp} (hvisit : path[k]? = some visit)
    (hop : visit.insn.ops[i]? = some op) :
    contextAt p ram (trace path) (position path k (i + 1)) =
      propagate p ram (contextAt p ram (trace path) (position path k i)) op visit.addr := by
  have ht := trace_getElem hvisit hop
  change contextAt p ram (trace path) (position path k i + 1) = _
  rw [contextAt, ht]

/-- What the walk through the first `i` operations of an instruction of the path has. -/
structure Passed (host : Host) (p : Program) (ram : SpaceId) (path : List Visit) (visit : Visit)
    (k i : ℕ) (before after : Pass) : Prop where
  vctx : after.vctx = contextAt p ram (trace path) (position path k i)
  refs : ∀ r ∈ after.refs, r ∈ before.refs ∨ ∃ j, Records host p ram path k j r
  callDests : ∀ dest ∈ after.callDests, dest ∈ before.callDests ∨
    ∃ j, RecordsCall host p ram path k j dest
  targets : ∀ a ∈ after.branchTargets, a ∈ before.branchTargets ∨ Leads visit a

theorem leads_of_followFlow {here a : U64} {ram' : SpaceId} {s : Pass} {op : Emu.PcodeOp}
    (hop : op ∈ visit.insn.ops) (h : a ∈ (followFlow ⟨ram', here⟩ s op).branchTargets) :
    a ∈ s.branchTargets ∨ Leads visit a := by
  unfold followFlow at h
  split at h
  case h_1 hcode =>
    refine (List.mem_append.mp h).imp id fun h => .inr ⟨op, hop, .inl ⟨.inl hcode, ?_⟩⟩
    exact Option.mem_toList.mp h
  case h_2 hcode =>
    refine (List.mem_append.mp h).imp id fun h => .inr ⟨op, hop, .inl ⟨.inr hcode, ?_⟩⟩
    exact Option.mem_toList.mp h
  case h_3 => exact .inl h
  case h_4 hcode =>
    exact (List.mem_append.mp h).imp id fun _ => .inr ⟨op, hop, .inr hcode⟩
  case h_5 => exact .inl h

theorem passed_foldl {k : ℕ} {before : Pass} (hvisit : path[k]? = some visit)
    (hctx : before.vctx = contextAt p ram (trace path) (position path k 0)) {i : ℕ}
    (hi : i ≤ visit.insn.ops.length) :
    Passed host p ram path visit k i before
      ((visit.insn.ops.take i).foldl (visitPass host p ram visit) before) := by
  induction i with
  | zero => exact ⟨hctx, fun _ => .inl, fun _ => .inl, fun _ => .inl⟩
  | succ i ih =>
    have hlt : i < visit.insn.ops.length := hi
    have hop := List.getElem?_eq_getElem hlt
    have hmem := List.getElem_mem hlt
    obtain ⟨hvctx, hrefs, hdests, htargets⟩ := ih (by omega)
    rw [List.take_add_one, hop, List.foldl_append]
    generalize (visit.insn.ops.take i).foldl (visitPass host p ram visit) before = a at *
    change Passed host p ram path visit k (i + 1) before
      (visitPass host p ram visit a visit.insn.ops[i])
    refine ⟨?_, fun r hr => ?_, fun dest hdest => ?_, fun b hb => ?_⟩
    · unfold visitPass visitOp
      rw [followFlow_vctx, contextAt_succ hvisit hop, ← hvctx]
      rfl
    · by_cases hold : r ∈ a.refs
      · exact hrefs r hold
      · exact .inr ⟨i, .op hvisit hop hvctx hold hr⟩
    · unfold visitPass visitOp at hdest
      rw [followFlow_callDests] at hdest
      rcases List.mem_append.mp hdest with hdest | hdest
      · exact hdests dest hdest
      · exact .inr ⟨i, visit, _, hvisit, hop, hvctx ▸ hdest⟩
    · rcases leads_of_followFlow hmem hb with hb | hb
      · exact htargets b hb
      · exact .inr hb

theorem position_last (path : List Visit) (visit : Visit) (i : ℕ) :
    position (path ++ [visit]) path.length i = (trace path).length + i := by
  unfold position
  rw [List.take_left]

theorem trace_append (path path' : List Visit) : trace (path ++ path') = trace path ++ trace path' :=
  List.flatMap_append

/-- The walk over the instruction at the end of a path. -/
theorem passed_interpret {a ilen : U64} {insn : Instruction} {refs : List Reference}
    {dests : List U64} :
    Passed host p ram (path ++ [⟨a, insn, a + ilen⟩]) ⟨a, insn, a + ilen⟩ path.length insn.ops.length
      ⟨refs, contextAt p ram (trace path) (trace path).length, dests, true, []⟩
      (interpret host p ram a insn ilen (contextAt p ram (trace path) (trace path).length) refs
        dests) := by
  have hvisit : (path ++ [⟨a, insn, a + ilen⟩])[path.length]? = some (⟨a, insn, a + ilen⟩ : Visit) :=
    List.getElem?_concat_length
  have hctx : contextAt p ram (trace path) (trace path).length =
      contextAt p ram (trace (path ++ [⟨a, insn, a + ilen⟩]))
        (position (path ++ [⟨a, insn, a + ilen⟩]) path.length 0) := by
    rw [position_last, Nat.add_zero, trace_append, contextAt_append le_rfl]
  have hpass : Passed host p ram (path ++ [⟨a, insn, a + ilen⟩]) ⟨a, insn, a + ilen⟩ path.length
      insn.ops.length ⟨refs, _, dests, true, []⟩ _ := passed_foldl hvisit hctx le_rfl
  rw [List.take_length] at hpass
  unfold interpret
  dsimp only
  split_ifs with h68
  · refine ⟨hpass.vctx, fun r hr => ?_, hpass.callDests, hpass.targets⟩
    by_cases hold : r ∈ (insn.ops.foldl (visitPass host p ram ⟨a, insn, a + ilen⟩)
        ⟨refs, contextAt p ram (trace path) (trace path).length, dests, true, []⟩).refs
    · exact hpass.refs r hold
    · refine .inr ⟨insn.ops.length, .evaluator hvisit h68 hold ?_⟩
      rw [← hpass.vctx]
      exact hr
  · exact hpass

theorem onPaths_start : OnPaths host p ram start entries ⟨p.references, [], [(start, .empty)], []⟩ where
  work a vctx h := by
    obtain ⟨rfl, rfl⟩ := Prod.mk.inj (List.mem_singleton.mp h)
    exact ⟨[], .start, rfl⟩
  refs _ h := .inl h
  callDests _ h := absurd h List.not_mem_nil

/-- One round of the loop keeps to the paths. -/
theorem OnPaths.step {w : Walk} (h : OnPaths host p ram start entries w) :
    OnPaths host p ram start entries (flowStep host p ram start entries w) := by
  unfold flowStep
  split
  case h_1 => exact h
  case h_2 a vctx work hwork =>
    have hrest : ∀ b c, (b, c) ∈ work → ∃ path, Arrives host p ram start entries path b ∧
        c = contextAt p ram (trace path) (trace path).length := fun b c hb =>
      h.work b c (hwork ▸ List.mem_cons_of_mem _ hb)
    dsimp only
    split_ifs with hvisited hentry
    · exact ⟨hrest, h.refs, h.callDests⟩
    · exact ⟨hrest, h.refs, h.callDests⟩
    · split
      case h_1 => exact ⟨hrest, h.refs, h.callDests⟩
      case h_2 insn ilen hdecode =>
        obtain ⟨path, harrives, rfl⟩ := h.work a vctx (hwork ▸ List.mem_cons_self)
        have hdecodes : Decodes host p ram start entries ⟨a, insn, a + ilen⟩ := by
          refine ⟨?_, ilen, hdecode, rfl⟩
          by_cases ha : a = start
          · exact .inl ha
          · exact .inr (Bool.eq_false_iff.mpr fun he => hentry ⟨ha, he⟩)
        have hinterprets : Interprets host p ram start entries (path ++ [⟨a, insn, a + ilen⟩]) :=
          ⟨path, ⟨a, insn, a + ilen⟩, harrives, hdecodes, rfl⟩
        have hpass : Passed host p ram (path ++ [⟨a, insn, a + ilen⟩]) ⟨a, insn, a + ilen⟩
            path.length insn.ops.length ⟨w.refs, _, w.callDests, true, []⟩ _ := passed_interpret
        have harrive {b : U64} (hb : Leads ⟨a, insn, a + ilen⟩ b) :
            ∃ path', Arrives host p ram start entries path' b ∧
              (interpret host p ram a insn ilen (contextAt p ram (trace path) (trace path).length)
                w.refs w.callDests).vctx = contextAt p ram (trace path') (trace path').length := by
          refine ⟨_, .visit harrives hdecodes hb, ?_⟩
          rw [hpass.vctx, position_last, trace_append, List.length_append]
          congr 2
          unfold trace
          rw [List.flatMap_singleton, List.length_map]
        refine ⟨fun b c hb => ?_, fun r hr => ?_, fun dest hdest => ?_⟩
        · rcases List.mem_append.mp hb with hb | hb
          · rcases List.mem_append.mp hb with hb | hb
            · split_ifs at hb
              · obtain ⟨rfl, rfl⟩ := Prod.mk.inj (List.mem_singleton.mp hb)
                exact harrive (.inl rfl)
              · exact absurd hb List.not_mem_nil
            · obtain ⟨b', hb', he⟩ := List.mem_map.mp (List.mem_reverse.mp hb)
              obtain ⟨rfl, rfl⟩ := Prod.mk.inj he
              have htarget := hpass.targets b' (List.mem_filter.mp hb').1
              exact harrive (htarget.resolve_left List.not_mem_nil)
          · exact hrest b c hb
        · rcases hpass.refs r hr with hr | ⟨j, hr⟩
          · exact h.refs r hr
          · exact .inr ⟨_, _, j, hinterprets, hr⟩
        · rcases hpass.callDests dest hdest with hdest | ⟨j, hdest⟩
          · exact h.callDests dest hdest
          · exact ⟨_, _, j, hinterprets, hdest⟩

theorem onPaths_flowConstants (n : ℕ) :
    OnPaths host p ram start entries (flowConstants host p ram start entries n) := by
  unfold flowConstants
  induction n with
  | zero => exact onPaths_start
  | succ n ih =>
    rw [Function.iterate_succ_apply']
    exact ih.step

/-- In the runs whose steps are clean the propagator never invents a value. -/
theorem flowConstants_neverInvents (host : Host) (p : Program) (ram : SpaceId) (start : U64)
    (entries : U64 → Bool) :
    NeverInvents host p ram start entries fun path => Clean host p ram path where
  values path _ s hreach hclean op hnext := by
    have hk := kept_of_reaches (fun _ h => h) hreach
    exact (right_of_clean hk (image_of_reaches hreach) hclean hnext).reads
  references n r hr := by
    rcases (onPaths_flowConstants n).refs r hr with hr | ⟨path, k, i, hpath, hrec⟩
    · exact .inl hr
    · exact .inr ⟨path, k, i, hpath, hrec, fun s hreach hclean =>
        used_of_records hrec (kept_of_reaches (fun _ h => h) hreach) (image_of_reaches hreach)
          hclean⟩
  destinations n dest hdest := by
    have hmem : dest ∈ (flowConstants host p ram start entries n).callDests := by
      unfold Walk.destinations at hdest
      exact (List.mergeSort_perm _ _).mem_iff.mp (List.mem_dedup.mp hdest)
    obtain ⟨path, k, i, hpath, hrec⟩ := (onPaths_flowConstants n).callDests dest hmem
    exact ⟨path, k, i, hpath, hrec, fun s hreach hclean =>
      uses_of_recordsCall hrec (kept_of_reaches (fun _ h => h) hreach) (image_of_reaches hreach)
        hclean⟩

end Walks
section Overlap

/-- `mov rax, 0x401000`, then `mov al, 5`, then `mov rcx, [rax]`, at `0x401000`. -/
def overlapBytes : List (BitVec 8) :=
  [0x48, 0xc7, 0xc0, 0x00, 0x10, 0x40, 0x00, 0xb0, 0x05, 0x48, 0x8b, 0x08]

def copyConst (c : U64) (n : ℕ) : Emu.PcodeOp :=
  ⟨.copy, some ⟨"register", 0, n⟩, [.var ⟨"const", c, n⟩],
    Emu.Varnode.out_space (show "register" ≠ "const" by decide)⟩

def loadRax : Emu.PcodeOp :=
  ⟨.load, some ⟨"unique", 0x3100, 8⟩, [.space "ram", .var ⟨"register", 0, 8⟩],
    Emu.Varnode.out_space (by decide)⟩

def copyRcx : Emu.PcodeOp :=
  ⟨.copy, some ⟨"register", 8, 8⟩, [.var ⟨"unique", 0x3100, 8⟩], Emu.Varnode.out_space (by decide)⟩

def overlapHost : Host where
  disassemble window _ :=
    if window = overlapBytes.take 7 then some ⟨[copyConst 0x401000 8], "MOV", "RAX,0x401000"⟩
    else if window = (overlapBytes.drop 7).take 2 then some ⟨[copyConst 5 1], "MOV", "AL,0x5"⟩
    else if window = overlapBytes.drop 9 then
      some ⟨[loadRax, copyRcx], "MOV", "RCX,qword ptr [RAX]"⟩
    else none
  flowType _ _ _ := none
  dataOperandIndex _ _ _ := 1
  integerArgRegisters := [0x38, 0x30, 0x10, 0x8, 0x80, 0x88]

def overlapProgram : Program where
  memory := {
    blocks := [⟨⟨1, 0x401000⟩, 0x40100b, true, some overlapBytes, by decide,
      fun _ h => Option.some.inj h ▸ rfl⟩]
    sorted := List.pairwise_singleton _ _ }
  references := []
  bigEndian := false
  languageId := "x86:LE:64:default"
  addrSizeBits := 64
  listing a :=
    if a = ⟨1, 0x401000⟩ then some 7
    else if a = ⟨1, 0x401007⟩ then some 2
    else if a = ⟨1, 0x401009⟩ then some 3
    else none

def movRax : Visit := ⟨0x401000, ⟨[copyConst 0x401000 8], "MOV", "RAX,0x401000"⟩, 0x401007⟩
def movAl : Visit := ⟨0x401007, ⟨[copyConst 5 1], "MOV", "AL,0x5"⟩, 0x401009⟩
def movRcx : Visit := ⟨0x401009, ⟨[loadRax, copyRcx], "MOV", "RCX,qword ptr [RAX]"⟩, 0x40100c⟩

def overlapPath : List Visit := [movRax, movAl, movRcx]

/-- The image in memory and `x` in RAX. -/
def withRax (x : ℕ) : Bytes := fun space a =>
  if space = "ram" then (overlapProgram.memory.byteAt ⟨1, a⟩).getD 0
  else if space = "register" ∧ a.toNat < 8 then BitVec.ofNat 8 (x / 256 ^ a.toNat)
  else 0

theorem image_withRax (x : ℕ) : Image overlapProgram 1 (withRax x) := by
  intro a b h
  unfold withRax
  rw [if_pos rfl, h]
  rfl

theorem withRax_register {x i : ℕ} (hi : i < 8) :
    withRax x "register" (BitVec.ofNat 64 i) = BitVec.ofNat 8 (x / 256 ^ i) := by
  have hto : (BitVec.ofNat 64 i).toNat = i := by
    rw [BitVec.toNat_ofNat, Nat.mod_eq_of_lt (by omega)]
  unfold withRax
  rw [if_neg (by decide), if_pos ⟨rfl, by omega⟩, hto]

theorem valueAt_withRax {x n : ℕ} (hn : n ≤ 8) :
    valueAt false (withRax x) ⟨"register", 0, n⟩ = x % 2 ^ (8 * n) := by
  refine valueAt_of_bytes (v := ⟨"register", 0, n⟩) (show ¬ "register" = "const" by decide)
    fun i hi => ?_
  have hi8 : i < 8 := lt_of_lt_of_le hi hn
  change withRax x "register" (0#64 + BitVec.ofNat 64 i) = _
  rw [BitVec.zero_add, withRax_register hi8]

/-- A constant copied to the low bytes of RAX. -/
theorem executes_copyConst {c : U64} {n x y : ℕ} (h0 : 0 < n) (hn : n ≤ 8)
    (hlow : y % 2 ^ (8 * n) = c.toNat % 2 ^ (8 * n))
    (hhigh : ∀ i < 8, n ≤ i → BitVec.ofNat 8 (y / 256 ^ i) = BitVec.ofNat 8 (x / 256 ^ i)) :
    Executes false (withRax x) (copyConst c n) (withRax y) where
  output out hout := by
    obtain rfl : ⟨"register", 0, n⟩ = out := Option.some.inj hout
    unfold Computes
    rw [if_pos (by rfl), valueAt_withRax hn, hlow]
    refine ⟨rfl, fun u hu => ?_, rfl⟩
    obtain rfl := List.mem_singleton.mp hu
    exact h0
  stored _ _ _ hcode := nomatch hcode
  frame space a hnot := by
    unfold withRax
    split_ifs with hram hreg
    · rfl
    · obtain ⟨rfl, ha⟩ := hreg
      refine hhigh a.toNat ha (not_lt.mp fun hlt => hnot (.inl ⟨_, rfl, rfl, a.toNat, hlt, ?_⟩))
      change 0#64 + BitVec.ofNat 64 a.toNat = a
      rw [BitVec.zero_add, BitVec.ofNat_toNat, BitVec.setWidth_eq]
    · rfl

theorem reaches_overlap :
    Reaches overlapProgram 1 overlapPath (fun _ => True)
      ⟨2, 0, withRax 0x401005, writers overlapProgram 1 (copyConst 5 1) (withRax 0x401000)
        (withRax 0x401005) (writers overlapProgram 0 (copyConst 0x401000 8) (withRax 0)
          (withRax 0x401000) fun _ _ => none)⟩ := by
  have hwide : ∀ i < 8, 8 ≤ i → BitVec.ofNat 8 (0x401000 / 256 ^ i) = BitVec.ofNat 8 (0 / 256 ^ i) :=
    fun i hi h8 => absurd hi (not_lt.mpr h8)
  have hbyte : ∀ i < 8, 1 ≤ i →
      BitVec.ofNat 8 (0x401005 / 256 ^ i) = BitVec.ofNat 8 (0x401000 / 256 ^ i) := by
    decide
  have h0 : Reaches overlapProgram 1 overlapPath (fun _ => True) ⟨0, 0, withRax 0, fun _ _ => none⟩ :=
    .start _ (image_withRax 0)
  have h1 := Reaches.op h0 trivial rfl rfl
    (executes_copyConst (by decide) le_rfl (by decide) hwide) (image_withRax 0x401000) .next
  have h2 := Reaches.fall h1 trivial rfl rfl rfl
  have h3 := Reaches.op h2 trivial rfl rfl
    (executes_copyConst (by decide) (by decide) (by decide) hbyte) (image_withRax 0x401005) .next
  exact Reaches.fall h3 trivial rfl rfl rfl

/-- The propagator takes RAX to hold 5 after `mov al, 5`, and records a read of address 5. -/
theorem flowConstants_inventsOverlap :
    ¬ NeverInvents overlapHost overlapProgram 1 0x401000 (fun _ => false) (fun _ _ => True) ∧
      ∃ r ∈ (flowConstants overlapHost overlapProgram 1 0x401000 (fun _ => false) 3).refs,
        r.refType = .read ∧ r.to_ = ⟨1, 5⟩ := by
  constructor
  · intro h
    have hpath : Interprets overlapHost overlapProgram 1 0x401000 (fun _ => false) overlapPath := by
      have hfirst : Arrives overlapHost overlapProgram 1 0x401000 (fun _ => false) ([] ++ [movRax])
          movAl.addr := .visit .start ⟨.inl rfl, 7, rfl, rfl⟩ (.inl rfl)
      have hsecond : Arrives overlapHost overlapProgram 1 0x401000 (fun _ => false)
          ([] ++ [movRax] ++ [movAl]) movRcx.addr :=
        .visit hfirst ⟨.inr rfl, 2, rfl, rfl⟩ (.inl rfl)
      exact ⟨_, movRcx, hsecond, ⟨.inr rfl, 3, rfl, rfl⟩, rfl⟩
    have hread := h.values overlapPath hpath _ reaches_overlap trivial loadRax rfl
      ⟨"register", 0, 8⟩ (List.mem_singleton_self _) 5 rfl
    change valueAt false (withRax 0x401005) ⟨"register", 0, 8⟩ = _ at hread
    rw [valueAt_withRax le_rfl] at hread
    exact absurd hread (by decide)
  · exact ⟨⟨⟨1, 0x401009⟩, ⟨1, 5⟩, .read, 1⟩, by decide, rfl, rfl⟩

end Overlap
end Symbolic
end Mosura
