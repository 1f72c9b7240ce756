import Mosura.OrientationSound
import Mosura.ConstFoldSound
import Mosura.NzmaskTransfer

/-! The values a rewrite rule reasons about, and what an edit of one op does to its operands. -/

namespace Mosura
open Window

namespace Funcdata

def valueOf (f : Funcdata) (env : VarnodeId → ℕ) (v : VarnodeId) : ℕ :=
  if (f.vn v).constant then (f.vn v).constantValue.toNat else env v

def operandOf (f : Funcdata) (env : VarnodeId → ℕ) (v : VarnodeId) : ℕ × ℕ :=
  ((f.vn v).size, f.valueOf env v)

def operandsOf (f : Funcdata) (env : VarnodeId → ℕ) (op : OpId) : Operands :=
  (f.op op).inrefs.map (f.operandOf env)

/-- What `op` computes for its output `out`. -/
def resultOf (f : Funcdata) (env : VarnodeId → ℕ) (op : OpId) (out : VarnodeId) : Option ℕ :=
  evalPcode (f.op op).opcode (f.operandsOf env op) (f.vn out).size

/-- The graphs the rules see: linked, each op that computes a value is p-code and has an output,
constants fit their size and are not written. -/
structure RuleGraph (f : Funcdata) : Prop where
  linked : f.Linked
  opWf : ∀ op out, (f.op op).output = some out → f.OpWf op out
  computes : ∀ op < f.numOps, (f.op op).dead = false → (f.op op).opcode.hasSemantics = true →
    ∃ out, (f.op op).output = some out
  const : ∀ v, (f.vn v).constant = true →
    (f.vn v).written = false ∧ (f.vn v).constantValue.toNat < 2 ^ (8 * (f.vn v).size)

/-- Values there can be when `op` executes: they fit, the non-zero masks cover them, and what feeds
`op` through p-code is computed. -/
structure ValuesAt (f : Funcdata) (op : OpId) (env : VarnodeId → ℕ) : Prop where
  fits : ∀ v, f.valueOf env v < 2 ^ (8 * (f.vn v).size)
  masked : ∀ v < f.numVarnodes, Covers (f.vn v).nzm (f.valueOf env v)
  computed : ∀ v ∈ (f.op op).inrefs, ∀ d, f.Feeds v d → (f.op d).opcode ≠ .multiequal →
    ∀ out, (f.op d).output = some out → OpResult (f.op d).opcode (f.op d).calculatedBool
      (f.operandsOf env d) (f.vn out).size (f.valueOf env out)

variable {f f' g : Funcdata} {env : VarnodeId → ℕ} {op o d : OpId} {v u out a b : VarnodeId}

theorem valueOf_const {e : VarnodeId → ℕ} (h : (f.vn v).constant = true) :
    f.valueOf e v = (f.vn v).constantValue.toNat := if_pos h

theorem resultOf_one (hin : (f.op op).inrefs = [a]) :
    f.resultOf env op out =
      evalUnary (f.op op).opcode (f.vn a).size (f.vn out).size (f.valueOf env a) := by
  unfold resultOf operandsOf
  rw [hin]
  rfl

theorem resultOf_two (hin : (f.op op).inrefs = [a, b]) :
    f.resultOf env op out = evalBinary (f.op op).opcode (f.vn a).size (f.vn b).size (f.vn out).size
      (f.valueOf env a) (f.valueOf env b) := by
  unfold resultOf operandsOf
  rw [hin]
  rfl

/-! The arity and the sizes of the ops. -/

theorem inrefs_one {s : ℕ} (h : ((f.op op).inrefs.map fun v => (f.vn v).size) = [s]) :
    ∃ a, (f.op op).inrefs = [a] ∧ (f.vn a).size = s := by
  obtain ⟨a, l, hl, ha, hnil⟩ := List.map_eq_cons_iff.mp h
  obtain rfl := List.map_eq_nil_iff.mp hnil
  exact ⟨a, hl, ha⟩

theorem inrefs_two {s t : ℕ} (h : ((f.op op).inrefs.map fun v => (f.vn v).size) = [s, t]) :
    ∃ a b, (f.op op).inrefs = [a, b] ∧ (f.vn a).size = s ∧ (f.vn b).size = t := by
  obtain ⟨a, l, hl, ha, htl⟩ := List.map_eq_cons_iff.mp h
  obtain ⟨b, l', rfl, hb, hnil⟩ := List.map_eq_cons_iff.mp htl
  obtain rfl := List.map_eq_nil_iff.mp hnil
  exact ⟨a, b, hl, ha, hb⟩

theorem input_zero {l : List VarnodeId} (hin : (f.op op).inrefs = a :: l) :
    (f.op op).input 0 = some a := by
  unfold PcodeOp.input
  rw [hin]
  rfl

theorem input_one {l : List VarnodeId} (hin : (f.op op).inrefs = a :: b :: l) :
    (f.op op).input 1 = some b := by
  unfold PcodeOp.input
  rw [hin]
  rfl

namespace RuleGraph

variable (h : f.RuleGraph)
include h

theorem lt_of_mem (hv : v ∈ (f.op o).inrefs) : v < f.numVarnodes := h.linked.lt_of_mem_inrefs hv

theorem output_of_def (hd : (f.vn v).defOp = some d) : (f.op d).output = some v :=
  (h.linked.defs v d).mp hd

/-- A live op with a p-code meaning has an output. -/
theorem exists_output (hv : v ∈ (f.op op).inrefs) (hsem : (f.op op).opcode.hasSemantics = true) :
    ∃ out, (f.op op).output = some out := by
  refine h.computes op (h.linked.lt_of_mem_descend (h.linked.mem_descend.mpr hv)) ?_ hsem
  by_contra hd
  rw [h.linked.dead op (by simpa using hd)] at hv
  exact absurd hv List.not_mem_nil

theorem output_lt (ho : (f.op op).output = some out) : out < f.numVarnodes := by
  by_contra hlt
  have hd := (h.linked.defs out op).mpr ho
  rw [(h.linked.blankVn out (not_lt.mp hlt)).2] at hd
  cases hd

theorem not_constant_of_def (hd : (f.vn v).defOp = some d) : (f.vn v).constant = false := by
  by_contra hc
  have hlt : v < f.numVarnodes := by
    by_contra hlt
    rw [(h.linked.blankVn v (not_lt.mp hlt)).2] at hd
    cases hd
  have hw := h.linked.written v hlt
  rw [(h.const v (by simpa using hc)).1, hd] at hw
  cases hw

theorem sizes (ho : (f.op op).output = some out) :
    sizesOk (f.op op).opcode ((f.op op).inrefs.map fun v => (f.vn v).size) (f.vn out).size :=
  (h.opWf op out ho).sizes

theorem size_pos (hv : v ∈ (f.op o).inrefs) (ho : (f.op o).output = some out) :
    0 < (f.vn v).size := (h.opWf o out ho).in_pos v hv

/-- The inputs of an arithmetic or bitwise op are as wide as its output. -/
theorem arith_inrefs (ho : (f.op op).output = some out) (hcode : (f.op op).opcode = .intAdd ∨
    (f.op op).opcode = .intSub ∨ (f.op op).opcode = .intMult ∨ (f.op op).opcode = .intAnd ∨
    (f.op op).opcode = .intOr ∨ (f.op op).opcode = .intXor) :
    ∃ a b, (f.op op).inrefs = [a, b] ∧ (f.vn a).size = (f.vn out).size ∧
      (f.vn b).size = (f.vn out).size := by
  have hs := h.sizes ho
  refine inrefs_two (s := (f.vn out).size) (t := (f.vn out).size) ?_
  rcases hcode with hc | hc | hc | hc | hc | hc
  all_goals
    rw [hc] at hs
    exact hs

/-- The inputs of a comparison are as wide as each other. -/
theorem compare_inrefs (ho : (f.op op).output = some out) (hcode : (f.op op).opcode = .intEqual ∨
    (f.op op).opcode = .intNotequal ∨ (f.op op).opcode = .intLess ∨
    (f.op op).opcode = .intLessequal ∨ (f.op op).opcode = .intSless ∨
    (f.op op).opcode = .intSlessequal ∨ (f.op op).opcode = .intCarry ∨
    (f.op op).opcode = .intScarry ∨ (f.op op).opcode = .intSborrow) :
    (∃ a b, (f.op op).inrefs = [a, b] ∧ (f.vn a).size = (f.vn b).size) ∧ (f.vn out).size = 1 := by
  have hs : (∃ s, ((f.op op).inrefs.map fun v => (f.vn v).size) = [s, s]) ∧
      (f.vn out).size = 1 := by
    have hs := h.sizes ho
    rcases hcode with hc | hc | hc | hc | hc | hc | hc | hc | hc
    all_goals
      rw [hc] at hs
      exact hs
  obtain ⟨⟨s, hs⟩, hout⟩ := hs
  obtain ⟨a, b, hin, ha, hb⟩ := inrefs_two hs
  exact ⟨⟨a, b, hin, ha.trans hb.symm⟩, hout⟩

end RuleGraph

namespace ValuesAt

variable (h : f.ValuesAt op env)
include h

/-- What an op with a p-code meaning has computed. -/
theorem result (hv : v ∈ (f.op op).inrefs) (hd : f.Feeds v d) (ho : (f.op d).output = some out)
    (hsem : (f.op d).opcode.hasSemantics = true) :
    f.resultOf env d out = some (f.valueOf env out) := by
  have hphi : (f.op d).opcode ≠ .multiequal := fun he => by
    rw [he] at hsem
    cases hsem
  have hr := h.computed v hv d hd hphi out ho
  unfold OpResult at hr
  rwa [if_neg hphi, if_pos hsem] at hr

end ValuesAt

/-! Edits of one op. -/

theorem Keeps.operandOf (h : Keeps f g) (hv : v < f.numVarnodes) :
    g.operandOf env v = f.operandOf env v := by
  unfold Funcdata.operandOf Funcdata.valueOf Varnode.constantValue
  rw [h.size v hv, h.constant v hv, h.loc v hv]

theorem Stands.operandOf (h : Stands f g v u) : g.operandOf env u = f.operandOf env v := by
  unfold Funcdata.operandOf Funcdata.valueOf Varnode.constantValue
  rcases h.same with ⟨rfl, hc⟩ | ⟨hu, hv⟩
  · rw [h.size, h.loc, hc]
  · rw [h.size, h.loc, hu, hv]
    rfl

theorem newConst_operandOf (size : ℕ) (value : U64) :
    (f.newConst size value).1.operandOf env (f.newConst size value).2 = (size, value.toNat) := by
  unfold operandOf valueOf
  rw [newConst_vn]
  rfl

theorem Keeps.takeInputs (f : Funcdata) (op : OpId) : Keeps f (f.takeInputs op) := by
  have hfold : ∀ (l : List VarnodeId) (g : Funcdata),
      Keeps g (l.foldl (fun g v => g.eraseDescend v op) g) := by
    intro l
    induction l with
    | nil => exact fun g => Keeps.refl g
    | cons v l ih => exact fun g => (Keeps.eraseDescend g v op).trans (ih _)
  exact (Keeps.modOp f op _).trans (hfold _ _)

theorem Keeps.opAppendInput (f : Funcdata) (op : OpId) (v : VarnodeId) :
    Keeps f (f.opAppendInput op v) :=
  (Keeps.uniqueConstantFor f v).trans ((Keeps.modOp _ op _).trans (Keeps.addDescend _ _ op))

theorem opAppendInput_op_ne (h : o ≠ op) (v : VarnodeId) :
    (f.opAppendInput op v).op o = f.op o := by
  unfold opAppendInput
  simp only [addDescend, modVn_op, modOp_op, if_neg h, uniqueConstantFor_op]

theorem opAppendInput_op_self (f : Funcdata) (op : OpId) (v : VarnodeId) :
    (f.opAppendInput op v).op op =
      { f.op op with inrefs := (f.op op).inrefs ++ [(f.uniqueConstantFor v).2] } := by
  unfold opAppendInput
  simp only [addDescend, modVn_op, modOp_op, if_true, uniqueConstantFor_op]

theorem stands_opAppendInput (f : Funcdata) (op : OpId) (hv : v < f.numVarnodes) :
    Stands f (f.opAppendInput op v) v (f.uniqueConstantFor v).2 :=
  (stands_uniqueConstantFor f hv).keeps
    ((Keeps.modOp _ op _).trans (Keeps.addDescend _ _ op))

/-- A new constant becomes input `slot` of `op`. -/
def setConstInput (f : Funcdata) (op : OpId) (slot size : ℕ) (value : U64) : Funcdata :=
  let (f', c) := f.newConst size value
  f'.opSetInput op slot c

/-- The ops read varnodes of the arena. -/
def Bounded (f : Funcdata) : Prop := ∀ o, ∀ v ∈ (f.op o).inrefs, v < f.numVarnodes

theorem Linked.bounded (h : f.Linked) : f.Bounded := fun _ _ => h.lt_of_mem_inrefs

/-- `g` is `f` but for `op`, which has the opcode `code` and, for the values `env`, the operands
`ins`. -/
structure Rewritten (f : Funcdata) (env : VarnodeId → ℕ) (op : OpId) (g : Funcdata) (code : OpCode)
    (ins : Operands) : Prop where
  keeps : Keeps f g
  inrefs : g.Bounded
  other : ∀ o, o ≠ op → g.op o = f.op o
  output : (g.op op).output = (f.op op).output
  code : (g.op op).opcode = code
  ins : g.operandsOf env op = ins

namespace Rewritten

variable {code : OpCode} {ins : Operands} {k n : ℕ} {c : U64}

theorem refl (h : f.Bounded) (env : VarnodeId → ℕ) (op : OpId) :
    Rewritten f env op f (f.op op).opcode (f.operandsOf env op) :=
  ⟨Keeps.refl f, h, fun _ _ => rfl, rfl, rfl, rfl⟩

section Edits

variable (h : Rewritten f env op g code ins)
include h

theorem length : (g.op op).inrefs.length = ins.length := by
  rw [← h.ins]
  exact (List.length_map ..).symm

/-- An edit of `op` that gives it the inputs `refs`, with the operands `ins'`. -/
theorem edit {code' : OpCode} {ins' : Operands} {g' : Funcdata} (hkeep : Keeps g g')
    (hother : ∀ o, o ≠ op → g'.op o = g.op o) (hout : (g'.op op).output = (g.op op).output)
    (hcode : (g'.op op).opcode = code')
    (hlt : ∀ v ∈ (g'.op op).inrefs, v < g'.numVarnodes) (hins : g'.operandsOf env op = ins') :
    Rewritten f env op g' code' ins' where
  keeps := h.keeps.trans hkeep
  inrefs o v hv := by
    by_cases ho : o = op
    · subst ho
      exact hlt v hv
    · rw [hother o ho] at hv
      exact (h.inrefs o v hv).trans_le hkeep.le
  other o ho := (hother o ho).trans (h.other o ho)
  output := hout.trans h.output
  code := hcode
  ins := hins

theorem opSetOpcode (c : OpCode) : Rewritten f env op (g.opSetOpcode op c) c ins := by
  have hself := opSetOpcode_op_self g op c
  refine h.edit (Keeps.opSetOpcode g op c) (fun o ho => opSetOpcode_op_ne ho c) ?_ ?_ ?_ ?_
  · rw [hself]
  · rw [hself]
  · rw [hself]
    exact h.inrefs op
  · unfold operandsOf
    rw [hself]
    exact h.ins

theorem newConst (n : ℕ) (c : U64) :
    Rewritten f env op (g.newConst n c).1 code ins := by
  have hkeep := Keeps.newConst g n c
  refine h.edit hkeep (fun _ _ => rfl) rfl h.code
    (fun v hv => (h.inrefs op v hv).trans_le hkeep.le) ?_
  rw [← h.ins]
  exact List.map_congr_left fun v hv => hkeep.operandOf (h.inrefs op v hv)

theorem opSetInput (hv : v < g.numVarnodes) (hslot : k < ins.length) :
    Rewritten f env op (g.opSetInput op k v) code (ins.set k (g.operandOf env v)) := by
  have hkeep := Keeps.opSetInput g op k v
  obtain ⟨u, hself, hu⟩ := opSetInput_op_self g op (h.length ▸ hslot) hv
  refine h.edit hkeep (fun o ho => opSetInput_op_ne ho k v) ?_ ?_ ?_ ?_
  · rw [hself]
  · rw [hself]
    exact h.code
  · rw [hself]
    intro w hw
    rcases List.mem_or_eq_of_mem_set hw with hw | rfl
    · exact (h.inrefs op w hw).trans_le hkeep.le
    · exact hu.lt
  · unfold operandsOf
    rw [hself, List.map_set, hu.operandOf, ← h.ins]
    congr 1
    exact List.map_congr_left fun w hw => hkeep.operandOf (h.inrefs op w hw)

/-- Input `k` becomes a varnode of the old graph. -/
theorem setInput (hv : v < f.numVarnodes) (hslot : k < ins.length) :
    Rewritten f env op (g.opSetInput op k v) code (ins.set k (f.operandOf env v)) := by
  have hr := h.opSetInput (hv.trans_le h.keeps.le) hslot
  rwa [h.keeps.operandOf hv] at hr

theorem setConstInput (hslot : k < ins.length) :
    Rewritten f env op (g.setConstInput op k n c) code
      (ins.set k (n, c.toNat)) := by
  have hr := (h.newConst n c).opSetInput (newConst_lt g n c) hslot
  rwa [newConst_operandOf] at hr

/-- Input `i` becomes a varnode of the old graph, input `j` a constant that was made before. -/
theorem setInputs (hv : v < f.numVarnodes) {i j : ℕ} (hi : i < ins.length) (hj : j < ins.length) :
    Rewritten f env op (((g.newConst n c).1.opSetInput op i v).opSetInput op j
      (g.newConst n c).2) code
      ((ins.set i (f.operandOf env v)).set j (n, c.toNat)) := by
  have hkeep := Keeps.opSetInput (g.newConst n c).1 op i v
  have hlt := newConst_lt g n c
  have hr := ((h.newConst n c).setInput hv hi).opSetInput (k := j)
    (hlt.trans_le hkeep.le) (by rwa [List.length_set])
  rwa [hkeep.operandOf hlt, newConst_operandOf] at hr

theorem opRemoveInput (k : ℕ) :
    Rewritten f env op (g.opRemoveInput op k) code (ins.eraseIdx k) := by
  have hkeep := Keeps.opRemoveInput g op k
  have hself := opRemoveInput_op_self g op k
  refine h.edit hkeep (fun o ho => opRemoveInput_op_ne ho k) ?_ ?_ ?_ ?_
  · rw [hself]
  · rw [hself]
    exact h.code
  · rw [hself]
    exact fun w hw => (h.inrefs op w (List.mem_of_mem_eraseIdx hw)).trans_le hkeep.le
  · unfold operandsOf
    rw [hself, ← List.eraseIdx_map, ← h.ins]
    congr 1
    exact List.map_congr_left fun w hw => hkeep.operandOf (h.inrefs op w hw)

theorem takeInputs : Rewritten f env op (g.takeInputs op) code [] := by
  have hself := takeInputs_op g op op
  rw [if_pos rfl] at hself
  refine h.edit (Keeps.takeInputs g op) (fun o ho => (takeInputs_op g op o).trans (if_neg ho)) ?_
    ?_ ?_ ?_
  · rw [hself]
  · rw [hself]
    exact h.code
  · rw [hself]
    exact fun w hw => absurd hw List.not_mem_nil
  · unfold operandsOf
    rw [hself]
    rfl

theorem opAppendInput (hv : v < g.numVarnodes) :
    Rewritten f env op (g.opAppendInput op v) code (ins ++ [g.operandOf env v]) := by
  have hkeep := Keeps.opAppendInput g op v
  have hself := opAppendInput_op_self g op v
  have hu := stands_opAppendInput g op hv
  refine h.edit hkeep (fun o ho => opAppendInput_op_ne ho v) ?_ ?_ ?_ ?_
  · rw [hself]
  · rw [hself]
    exact h.code
  · rw [hself]
    intro w hw
    rcases List.mem_append.mp hw with hw | hw
    · exact (h.inrefs op w hw).trans_le hkeep.le
    · rw [List.mem_singleton.mp hw]
      exact hu.lt
  · unfold operandsOf
    rw [hself, List.map_append, List.map_singleton, hu.operandOf, ← h.ins]
    congr 1
    exact List.map_congr_left fun w hw => hkeep.operandOf (h.inrefs op w hw)

/-- Each new input keeps its value, also where a clone of a constant takes its place. -/
theorem opSetAllInput {inputs : List VarnodeId} (hlt : ∀ v ∈ inputs, v < g.numVarnodes) :
    Rewritten f env op (g.opSetAllInput op inputs) code (inputs.map (g.operandOf env)) := by
  have happ : ∀ (l : List VarnodeId) (g' : Funcdata) (ins' : Operands), Keeps g g' →
      Rewritten f env op g' code ins' → (∀ v ∈ l, v < g.numVarnodes) →
      Rewritten f env op (l.foldl (fun g v => g.opAppendInput op v) g') code
        (ins' ++ l.map (g.operandOf env)) := by
    intro l
    induction l with
    | nil =>
      intro g' ins' _ hr _
      simpa using hr
    | cons v l ih =>
      intro g' ins' hk hr hl
      have hv := hl v List.mem_cons_self
      have hnext := hr.opAppendInput (hv.trans_le hk.le)
      rw [hk.operandOf hv] at hnext
      have hrest := ih _ _ (hk.trans (Keeps.opAppendInput g' op v)) hnext fun u hu =>
        hl u (List.mem_cons_of_mem _ hu)
      rwa [List.append_assoc] at hrest
  exact happ inputs _ [] (Keeps.takeInputs g op) h.takeInputs hlt

/-- The rewritten op computes what its new opcode makes of its new operands. -/
theorem result (hout : out < f.numVarnodes) :
    g.resultOf env op out = evalPcode code ins (f.vn out).size := by
  unfold resultOf
  rw [h.code, h.ins, h.keeps.size out hout]

/-- Every other op computes what it did. -/
theorem result_other (hf : f.Bounded) (hout : out < f.numVarnodes) (ho : o ≠ op) :
    g.resultOf env o out = f.resultOf env o out := by
  unfold resultOf operandsOf
  rw [h.other o ho, h.keeps.size out hout]
  congr 1
  exact List.map_congr_left fun w hw => h.keeps.operandOf (hf o w hw)

end Edits
end Rewritten
end Funcdata
end Mosura
