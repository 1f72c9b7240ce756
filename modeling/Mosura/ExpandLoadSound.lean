import Mosura.ExpandLoad
import Mosura.Lib.LittleEndian

/-! When `RuleExpandLoad` keeps what the readers of the LOAD make of it. -/

namespace Mosura

/-- `n` bytes of memory from `addr` on as a number. -/
def readMem (bigEndian : Bool) (mem : ℕ → BitVec 8) (addr n : ℕ) : ℕ :=
  let bytes := (List.range n).map fun i => mem (addr + i)
  Lib.fromLe (if bigEndian then bytes.reverse else bytes)

theorem readMem_lt (be : Bool) (mem : ℕ → BitVec 8) (addr n : ℕ) :
    readMem be mem addr n < 2 ^ (8 * n) := by
  have hlt := Lib.fromLe_lt (if be then ((List.range n).map fun i => mem (addr + i)).reverse
    else (List.range n).map fun i => mem (addr + i))
  have hlen : (if be then ((List.range n).map fun i => mem (addr + i)).reverse
      else (List.range n).map fun i => mem (addr + i)).length = n := by
    cases be
    all_goals simp
  rw [hlen] at hlt
  rw [pow_mul]
  exact hlt

/-- The low bytes of a number are its first bytes, or its last ones. -/
theorem readMem_low (be : Bool) (mem : ℕ → BitVec 8) (addr : ℕ) {n k : ℕ} (h : k ≤ n) :
    readMem be mem addr n % 2 ^ (8 * k) =
      readMem be mem (if be then addr + (n - k) else addr) k := by
  unfold readMem
  rw [pow_mul]
  cases be with
  | false =>
    simp only [Bool.false_eq_true, if_false]
    rw [show (2 : ℕ) ^ 8 = 256 from rfl, Lib.fromLe_mod (by simpa using h), ← List.map_take,
      List.take_range, Nat.min_eq_left h]
  | true =>
    simp only [if_true]
    rw [show (2 : ℕ) ^ 8 = 256 from rfl, Lib.fromLe_mod (by simpa using h), List.take_reverse]
    congr 2
    rw [← List.map_drop, List.length_map, List.length_range]
    apply List.ext_getElem
    · simp only [List.length_map, List.length_drop, List.length_range]
      omega
    · intro i _ _
      simp only [List.getElem_map, List.getElem_drop, List.getElem_range]
      rw [Nat.add_assoc]

namespace Funcdata

variable {f g : Funcdata} {getType : VarnodeId → Datatype} {env : VarnodeId → ℕ}
  {mem : ℕ → BitVec 8} {op o a c : OpId} {v out : VarnodeId} {w : Widening}

/-- The byte order of the space that `op` loads from. -/
def loadsBigEndian (f : Funcdata) (op : OpId) : Bool :=
  (f.spaces.get (f.inVn op 0).constantValue.toNat).bigEndian

/-- Values at the LOAD `op`: they fit, `op` has read the memory, its pointer is computed. -/
structure LoadValues (f : Funcdata) (op : OpId) (env : VarnodeId → ℕ) (mem : ℕ → BitVec 8) :
    Prop where
  fits : ∀ v, f.valueOf env v < 2 ^ (8 * (f.vn v).size)
  load : ∀ out ptr, (f.op op).output = some out → (f.op op).input 1 = some ptr →
    f.valueOf env out =
      readMem (f.loadsBigEndian op) mem (f.valueOf env ptr) (f.vn out).size
  pointer : ∀ ptr d, (f.op op).input 1 = some ptr → (f.vn ptr).defOp = some d →
    (f.op d).opcode.hasSemantics = true → f.resultOf env d ptr = some (f.valueOf env ptr)

/-- The readers that the rule rewrites: the INT_ANDs. -/
def rewrittenReaders (f : Funcdata) (w : Widening) : List OpId :=
  if w.addForm then (f.vn w.outVn).descend else []

/-- The comparison that reads the INT_AND `a`. -/
def comparisonOf (f : Funcdata) (a : OpId) : Option OpId := (f.op a).output.bind f.loneDescend

/-- The values with the wide LOAD, where nothing else is computed again. -/
def loadedValues (f : Funcdata) (op : OpId) (w : Widening) (env : VarnodeId → ℕ)
    (mem : ℕ → BitVec 8) (v : VarnodeId) : ℕ :=
  if v = f.numVarnodes then
    readMem (f.loadsBigEndian op) mem (f.valueOf env w.rootPtr) w.elSize
  else env v

/-- The values after the rule: the INT_ANDs of `g` are computed again, each cut to the size of its
output. -/
def widenedValues (f g : Funcdata) (op : OpId) (w : Widening) (env : VarnodeId → ℕ)
    (mem : ℕ → BitVec 8) (v : VarnodeId) : ℕ :=
  match (f.vn v).defOp with
  | none => f.loadedValues op w env mem v
  | some d =>
    if d ∈ f.rewrittenReaders w then
      ((g.resultOf (f.loadedValues op w env mem) d v).getD 0) % 2 ^ (8 * (g.vn v).size)
    else f.loadedValues op w env mem v

/-- After the rule the readers see what they saw: an op that still gives the part its value gives it
the old one, each rewritten comparison has its truth value, the ops the rule leaves have the operand
sizes p-code allows, and the constants are shifted by less than a word. -/
structure LoadKept (f g : Funcdata) (op : OpId) (w : Widening) (env : VarnodeId → ℕ)
    (mem : ℕ → BitVec 8) : Prop where
  part : ∀ d, (g.op d).output = some w.outVn →
    g.resultOf (f.loadedValues op w env mem) d w.outVn = some (f.valueOf env w.outVn)
  compare : ∀ a ∈ f.rewrittenReaders w, ∀ c, f.comparisonOf a = some c →
    ∀ out, (f.op c).output = some out →
      g.resultOf (f.widenedValues g op w env mem) c out = f.resultOf env c out
  sizes : ∀ o, (g.op o).output = some w.outVn ∨ o ∈ f.rewrittenReaders w ∨
    (∃ a ∈ f.rewrittenReaders w, f.comparisonOf a = some o) → ∀ out, (g.op o).output = some out →
      sizesOk (g.op o).opcode ((g.op o).inrefs.map fun v => (g.vn v).size) (g.vn out).size
  shift : f.rewrittenReaders w ≠ [] → 8 * w.offset < 64

/-- The rule meets this where it rewrites no reader, and where the low bytes of the whole value are
the part: they are its first bytes in a little endian space, else its last ones. -/
def LoadExact (f : Funcdata) (op : OpId) (w : Widening) (env : VarnodeId → ℕ)
    (mem : ℕ → BitVec 8) : Prop :=
  if w.addForm then f.rewrittenReaders w = []
  else f.loadsBigEndian op = false ∨
    readMem true mem (f.valueOf env w.rootPtr) (f.vn w.outVn).size =
      readMem true mem (f.valueOf env w.rootPtr + (w.elSize - (f.vn w.outVn).size))
        (f.vn w.outVn).size

/-! The edits of outputs. -/

theorem Keeps.unsetOutput (f : Funcdata) (op : OpId) : Keeps f (f.unsetOutput op) := by
  unfold Funcdata.unsetOutput
  cases (f.op op).output with
  | none => exact Keeps.refl f
  | some old => exact (Keeps.modOp f op _).trans (Keeps.makeFree _ old)

theorem Keeps.takeDef (f : Funcdata) (v : VarnodeId) : Keeps f (f.takeDef v) := by
  unfold Funcdata.takeDef
  cases (f.vn v).defOp with
  | none => exact Keeps.refl f
  | some old => exact (Keeps.modVn f v _ rfl rfl rfl rfl).trans (Keeps.modOp _ old _)

theorem Keeps.opSetOutput (f : Funcdata) (op : OpId) (v : VarnodeId) :
    Keeps f (f.opSetOutput op v) := by
  unfold Funcdata.opSetOutput
  split_ifs
  · exact Keeps.refl f
  · exact (Keeps.unsetOutput f op).trans ((Keeps.takeDef _ v).trans
      ((Keeps.modVn _ v _ rfl rfl rfl rfl).trans (Keeps.modOp _ op _)))

theorem Keeps.opDestroy (f : Funcdata) (op : OpId) : Keeps f (f.opDestroy op) := by
  unfold Funcdata.opDestroy
  refine (Keeps.takeInputs f op).trans (Keeps.trans ?_ (Keeps.modOp _ op _))
  cases ((f.takeInputs op).op op).output with
  | none => exact Keeps.refl _
  | some out => exact (Keeps.modOp _ op _).trans (Keeps.modVn _ out _ rfl rfl rfl rfl)

theorem unsetOutput_op (f : Funcdata) (op o : OpId) : (f.unsetOutput op).op o =
    if o = op then { f.op op with output := none } else f.op o := by
  unfold unsetOutput
  cases hout : (f.op op).output with
  | none =>
    dsimp only
    split_ifs with ho
    · subst ho
      conv_rhs => rw [← hout]
    · rfl
  | some old =>
    dsimp only
    unfold makeFree
    rw [modVn_op, modOp_op]

theorem opSetOutput_numOps (f : Funcdata) (op : OpId) (v : VarnodeId) :
    (f.opSetOutput op v).numOps = f.numOps := by
  unfold opSetOutput
  split_ifs
  · rfl
  · have htake : ((f.unsetOutput op).takeDef v).numOps = (f.unsetOutput op).numOps := by
      unfold takeDef
      cases ((f.unsetOutput op).vn v).defOp with
      | none => rfl
      | some old => rfl
    exact htake.trans (unsetOutput_num f op).1

/-- A varnode without a definition becomes the output of `op`. -/
theorem opSetOutput_op (hdef : (f.vn v).defOp = none) : (f.opSetOutput op v).op o =
    if o = op then { f.op op with output := some v } else f.op o := by
  unfold opSetOutput
  split_ifs with hsame ho ho
  · rw [ho, ← hsame]
  · rfl
  all_goals
    have htake : ((f.unsetOutput op).takeDef v) = f.unsetOutput op := by
      have hnone : ((f.unsetOutput op).vn v).defOp = none := by
        unfold unsetOutput
        cases (f.op op).output with
        | none => exact hdef
        | some old =>
          dsimp only
          unfold makeFree
          rw [modVn_vn]
          split_ifs
          · rfl
          · exact hdef
      unfold takeDef
      rw [hnone]
    rw [htake, modOp_op, modVn_op]
  · rw [if_pos ho, unsetOutput_op, if_pos rfl]
  · rw [if_neg ho, unsetOutput_op, if_neg ho]

theorem takeDef_op (f : Funcdata) (v : VarnodeId) (o : OpId) : (f.takeDef v).op o =
    if (f.vn v).defOp = some o then { f.op o with output := none } else f.op o := by
  unfold takeDef
  cases hd : (f.vn v).defOp with
  | none =>
    dsimp only
    rw [if_neg (by simp)]
  | some old =>
    dsimp only
    rw [modOp_op, modVn_op]
    by_cases ho : o = old
    · rw [if_pos ho, ho, if_pos rfl]
    · rw [if_neg ho, if_neg fun he => ho (Option.some.inj he).symm]

/-- `op` gets the output `v`; another op may lose it. -/
theorem opSetOutput_output (f : Funcdata) (op : OpId) (v : VarnodeId) :
    ((f.opSetOutput op v).op op).output = some v ∧
      ((f.opSetOutput op v).op op).opcode = (f.op op).opcode ∧
      ((f.opSetOutput op v).op op).inrefs = (f.op op).inrefs ∧
      ∀ o ≠ op, ∀ u, ((f.opSetOutput op v).op o).output = some u → (f.op o).output = some u := by
  unfold opSetOutput
  split_ifs with hsame
  · exact ⟨hsame, rfl, rfl, fun _ _ _ h => h⟩
  · simp only [modOp_op, modVn_op, if_true, takeDef_op]
    refine ⟨trivial, ?_, ?_, fun o ho u hu => ?_⟩
    · split_ifs
      all_goals
        rw [unsetOutput_op, if_pos rfl]
    · split_ifs
      all_goals
        rw [unsetOutput_op, if_pos rfl]
    · rw [if_neg ho] at hu
      split_ifs at hu
      rwa [unsetOutput_op, if_neg ho] at hu

theorem opInsertAfter_spec (f : Funcdata) (newop prev : OpId) :
    (f.opInsertAfter newop prev).vn = f.vn ∧
      (f.opInsertAfter newop prev).numVarnodes = f.numVarnodes ∧
      ∃ parent, (f.opInsertAfter newop prev).op newop = { f.op newop with parent := parent } ∧
        ∀ o ≠ newop, (f.opInsertAfter newop prev).op o = f.op o := by
  unfold opInsertAfter
  dsimp only
  cases (f.op (f.effectOp prev)).parent with
  | none =>
    refine ⟨rfl, rfl, none, ?_, fun o ho => ?_⟩
    · rw [modOp_op, if_pos rfl]
    · rw [modOp_op, if_neg ho]
  | some b =>
    refine ⟨rfl, rfl, some b, ?_, fun o ho => ?_⟩
    · rw [modBlock_op, modOp_op, if_pos rfl]
    · rw [modBlock_op, modOp_op, if_neg ho]

/-! What the rule matches. -/

theorem expandLoadMatch_spec (h : f.expandLoadMatch getType op = some w) :
    (f.op op).output = some w.outVn ∧ (f.vn w.outVn).size < w.elSize ∧
      w.addForm = f.expandLoadCheckAndComparison w.outVn ∧ (w.addForm = false → w.offset = 0) ∧
      ∃ ptr, (f.op op).input 1 = some ptr ∧
        f.expandLoadPointer ptr = some (w.addOp, w.rootPtr, w.offset) := by
  obtain ⟨outVn, hout, h⟩ := Option.bind_eq_some_iff.mp h
  obtain ⟨ptr, hptr, h⟩ := Option.bind_eq_some_iff.mp h
  obtain ⟨⟨addOp, rootPtr, offset⟩, hp, h⟩ := Option.bind_eq_some_iff.mp h
  dsimp only at h
  split at h
  · split_ifs at h with h1 h2 h3
    obtain rfl := Option.some.inj h
    refine ⟨hout, not_le.mp fun hle => h1 (.inl hle), rfl, fun hform => ?_, ptr, hptr, hp⟩
    change f.expandLoadCheckAndComparison outVn = false at hform
    change offset = 0
    by_contra hne
    refine h3 ?_
    rw [hform]
    simp [hne]
  · cases h

/-- The pointer is the one to the whole value, or a small constant is added to that. -/
theorem expandLoadPointer_spec {ptr root : VarnodeId} {addOp : Option OpId} {offset : ℕ}
    (h : f.expandLoadPointer ptr = some (addOp, root, offset)) :
    addOp = none ∧ root = ptr ∧ offset = 0 ∨ ∃ d c, addOp = some d ∧ (f.vn ptr).defOp = some d ∧
      (f.op d).opcode = .intAdd ∧ (f.op d).input 0 = some root ∧ (f.op d).input 1 = some c ∧
      (f.vn c).constant = true ∧ (f.vn c).constantValue.toNat = offset := by
  unfold expandLoadPointer at h
  split at h
  · cases h
    exact .inl ⟨rfl, rfl, rfl⟩
  obtain ⟨d, hd, h⟩ := Option.bind_eq_some_iff.mp h
  split at h
  next hadd =>
    dsimp only at h
    split at h
    · cases h
    obtain ⟨addOut, -, h⟩ := Option.bind_eq_some_iff.mp h
    split at h
    · cases h
    obtain ⟨r, hr, h⟩ := Option.bind_eq_some_iff.mp h
    cases h
    obtain ⟨c, hc, hconst⟩ := (Option.any_eq_true _ _).mp hadd.2
    refine .inr ⟨d, c, rfl, hd, hadd.1, hr, hc, hconst, ?_⟩
    unfold inVn
    rw [hc]
    rfl
  · cases h
    exact .inl ⟨rfl, rfl, rfl⟩

/-- Without an offset the pointer of the LOAD is the one to the whole value. -/
theorem pointer_value (hgr : f.RuleGraph) (hv : f.LoadValues op env mem) {ptr : VarnodeId}
    (hin : (f.op op).input 1 = some ptr)
    (h : f.expandLoadPointer ptr = some (w.addOp, w.rootPtr, 0)) :
    f.valueOf env ptr = f.valueOf env w.rootPtr := by
  rcases expandLoadPointer_spec h with ⟨-, he, -⟩ | ⟨d, c, -, hd, hcode, hr, hc, hconst, hzero⟩
  · rw [he]
  have hsem : (f.op d).opcode.hasSemantics = true := by
    rw [hcode]
    rfl
  obtain ⟨a, b, hab, ha, -⟩ := hgr.arith_inrefs (hgr.output_of_def hd) (.inl hcode)
  obtain rfl := Option.some.inj ((input_zero hab).symm.trans hr)
  obtain rfl := Option.some.inj ((input_one hab).symm.trans hc)
  have hval := hv.pointer ptr d hin hd hsem
  rw [resultOf_two hab, hcode, valueOf_const hconst, hzero] at hval
  have hsum : (f.valueOf env w.rootPtr + 0) % 2 ^ (8 * (f.vn ptr).size) = f.valueOf env ptr :=
    Option.some.inj hval
  rw [← hsum, Nat.add_zero, Nat.mod_eq_of_lt (ha ▸ hv.fits w.rootPtr)]

/-! The wide LOAD. -/

theorem Linked.newUnique (h : f.Linked) (size : ℕ) : (f.newUnique size).1.Linked := by
  have ha := h.allocVarnode size ⟨f.spaces.unique, f.uniqueOffset⟩ false
  exact ⟨ha.blankVn, ha.blankOp, ha.links, ha.dead, ha.defs, ha.insert, ha.written, ha.constant⟩

/-- The graph with the wide LOAD: nothing gives the part its value any more. -/
structure WideLoad (f g : Funcdata) (op : OpId) (w : Widening) : Prop where
  linked : g.Linked
  keeps : Keeps f g
  lt : f.numVarnodes < g.numVarnodes
  size : (g.vn f.numVarnodes).size = w.elSize
  constant : (g.vn f.numVarnodes).constant = false
  numOps : g.numOps = f.numOps
  other : ∀ o, o ≠ op → w.addOp ≠ some o → g.op o = f.op o
  loses : ∀ o, w.addOp = some o → (g.op o).inrefs = []
  inrefs : ∀ v ∈ (g.op op).inrefs, v ∈ (f.op op).inrefs ∨ v = w.rootPtr ∨ (g.vn v).constant = true
  free : ∀ d, (g.op d).output ≠ some w.outVn

theorem widenLoad_spec (hgr : f.RuleGraph) (hload : (f.op op).opcode = .load)
    (hm : f.expandLoadMatch getType op = some w) : WideLoad f (f.widenLoad op w) op w := by
  obtain ⟨hout, -, -, -, ptr, hptr, hp⟩ := expandLoadMatch_spec hm
  have hlt := hgr.output_lt hout
  have hopl : op < f.numOps := hgr.linked.lt_of_output hout
  unfold widenLoad
  dsimp only
  have hk1 : Keeps f (f.newUnique w.elSize).1 :=
    (Keeps.allocVarnode f w.elSize _ false).trans (Keeps.of_eq rfl rfl)
  have hvn1 : (f.newUnique w.elSize).1.vn f.numVarnodes =
      f.freshVarnode w.elSize ⟨f.spaces.unique, f.uniqueOffset⟩ false := by
    change (f.allocVarnode _ _ _).vn _ = _
    rw [allocVarnode_vn, if_pos rfl]
  have hl1 := hgr.linked.newUnique w.elSize
  have hn1 : f.numVarnodes < (f.newUnique w.elSize).1.numVarnodes := Nat.lt_succ_self _
  have hop1 : ∀ o, (f.newUnique w.elSize).1.op o = f.op o := fun _ => rfl
  have hno1 : (f.newUnique w.elSize).1.numOps = f.numOps := rfl
  have hnew : (f.newUnique w.elSize).2 = f.numVarnodes := rfl
  rw [hnew]
  generalize (f.newUnique w.elSize).1 = g1 at *
  have hk2 := Keeps.opSetOutput g1 op f.numVarnodes
  have hop2 : ∀ o, (g1.opSetOutput op f.numVarnodes).op o =
      if o = op then { f.op op with output := some f.numVarnodes } else f.op o := by
    intro o
    rw [opSetOutput_op (by rw [hvn1]; rfl), hop1, hop1]
  have hl2 := Linked.opSetOutput hl1 (hno1 ▸ hopl) hn1
  have hno2 : (g1.opSetOutput op f.numVarnodes).numOps = f.numOps :=
    (opSetOutput_numOps g1 op f.numVarnodes).trans hno1
  have hn2 : f.numVarnodes < (g1.opSetOutput op f.numVarnodes).numVarnodes := hn1.trans_le hk2.le
  have hs2 : ((g1.opSetOutput op f.numVarnodes).vn f.numVarnodes).size = w.elSize := by
    rw [hk2.size _ hn1, hvn1]
    rfl
  have hc2 : ((g1.opSetOutput op f.numVarnodes).vn f.numVarnodes).constant = false := by
    rw [hk2.constant _ hn1, hvn1]
    rfl
  have hk2 := hk1.trans hk2
  generalize g1.opSetOutput op f.numVarnodes = g2 at *
  have hfree2 : ∀ d, (g2.op d).output ≠ some w.outVn := by
    intro d hd
    rw [hop2] at hd
    split_ifs at hd with he
    · exact hlt.ne' (Option.some.inj hd)
    · have h1 := (hgr.linked.defs _ _).mpr hd
      rw [(hgr.linked.defs _ _).mpr hout] at h1
      exact he (Option.some.inj h1).symm
  rcases expandLoadPointer_spec hp with ⟨hnone, -, -⟩ | ⟨a, c, hsome, -, hadd, hr, -, -, -⟩
  · rw [hnone]
    refine ⟨hl2, hk2, hn2, hs2, hc2, hno2, fun o ho _ => ?_, fun o ho => ?_, fun v hv => ?_,
      hfree2⟩
    · rw [hop2, if_neg ho]
    · cases hnone.symm.trans ho
    · rw [hop2, if_pos rfl] at hv
      exact .inl hv
  · rw [hsome]
    dsimp only
    have hrlt : w.rootPtr < f.numVarnodes :=
      hgr.lt_of_mem (o := a) (List.mem_of_getElem? hr)
    have hne : a ≠ op := by
      rintro rfl
      rw [hadd] at hload
      cases hload
    have hlen : 1 < (g2.op op).inrefs.length := by
      rw [hop2, if_pos rfl]
      exact (List.getElem?_eq_some_iff.mp hptr).1
    have hk3 := Keeps.opSetInput g2 op 1 w.rootPtr
    have hl3 : (g2.opSetInput op 1 w.rootPtr).Linked :=
      hl2.opSetInput (hrlt.trans_le hk2.le) op
    obtain ⟨u, hself, hu⟩ := opSetInput_op_self g2 op hlen (hrlt.trans_le hk2.le)
    have hother3 : ∀ o, o ≠ op → (g2.opSetInput op 1 w.rootPtr).op o = g2.op o :=
      fun o ho => opSetInput_op_ne ho 1 w.rootPtr
    have hout3 := opSetInput_output g2 op 1 w.rootPtr
    have hno3 := opSetInput_numOps g2 op 1 w.rootPtr
    generalize g2.opSetInput op 1 w.rootPtr = g3 at *
    have hk4 := Keeps.opDestroy g3 a
    have hn3 := hn2.trans_le hk3.le
    refine ⟨hl3.opDestroy ?_, hk2.trans (hk3.trans hk4), hn3.trans_le hk4.le, ?_, ?_, ?_, ?_, ?_,
      ?_, ?_⟩
    · rw [hno3, hno2]
      by_contra hge
      have hblank := (hgr.linked.blankOp a (not_lt.mp hge)).1
      rw [PcodeOp.input, hblank] at hr
      cases hr
    · rw [hk4.size _ hn3, hk3.size _ hn2, hs2]
    · rw [hk4.constant _ hn3, hk3.constant _ hn2, hc2]
    · rw [opDestroy_numOps, hno3, hno2]
    · intro o ho hoa
      rw [opDestroy_op, if_neg fun he : o = a => hoa (hsome.trans (congrArg some he.symm)), hother3 o ho, hop2, if_neg ho]
    · intro o ho
      rw [hsome] at ho
      obtain rfl := Option.some.inj ho
      rw [opDestroy_op, if_pos rfl]
    · intro v hv
      rw [opDestroy_op, if_neg hne.symm, hself] at hv
      rcases List.mem_or_eq_of_mem_set hv with hv | rfl
      · rw [hop2, if_pos rfl] at hv
        exact .inl hv
      · rcases hu.same with ⟨he, -⟩ | ⟨hc, -⟩
        · exact .inr (.inl he)
        · exact .inr (.inr ((hk4.constant v hu.lt).trans hc))
    · intro d hd
      rw [opDestroy_op] at hd
      split_ifs at hd
      exact hfree2 d ((hout3 d).symm.trans hd)

/-! The part is cut from the wide LOAD. -/

/-- The SUBPIECE is all that gives the part its value. -/
theorem cutLoad_spec {newOut : VarnodeId} (hfree : ∀ d, (g.op d).output ≠ some w.outVn)
    (hnew : newOut < g.numVarnodes) :
    Keeps g (g.cutLoad op w newOut) ∧
      (∀ d, ((g.cutLoad op w newOut).op d).output = some w.outVn ↔ d = g.numOps) ∧
      ((g.cutLoad op w newOut).op g.numOps).opcode = .subpiece ∧
      ∀ env, (g.cutLoad op w newOut).operandsOf env g.numOps =
        [g.operandOf env newOut, (4, 0)] := by
  have hk1 := Keeps.newConst g 4 0
  have hz1 := newConst_lt g 4 0
  have hins : ∀ v ∈ [newOut, (g.newConst 4 0).2], v < (g.newConst 4 0).1.numVarnodes :=
    List.forall_mem_cons.mpr ⟨hnew.trans_le hk1.le, List.forall_mem_singleton.mpr hz1⟩
  have hzv : ∀ env, (g.newConst 4 0).1.operandOf env (g.newConst 4 0).2 = (4, 0) :=
    fun _ => newConst_operandOf 4 0
  have hop1 : ∀ o, (g.newConst 4 0).1.op o = g.op o := fun _ => rfl
  have hno1 : (g.newConst 4 0).1.numOps = g.numOps := rfl
  have hcut : g.cutLoad op w newOut = (((g.newConst 4 0).1.newOp .subpiece
      ⟨((g.newConst 4 0).1.op op).seqnum.pc, (g.newConst 4 0).1.numOps⟩
      [newOut, (g.newConst 4 0).2]).1.opSetOutput g.numOps w.outVn).opInsertAfter g.numOps op := rfl
  obtain ⟨hk2, -, ⟨ids, hself, hst⟩, hne⟩ := newOp_spec (g.newConst 4 0).1 .subpiece
    ⟨((g.newConst 4 0).1.op op).seqnum.pc, (g.newConst 4 0).1.numOps⟩ hins
  rw [hcut]
  generalize ((g.newConst 4 0).1.newOp .subpiece ⟨((g.newConst 4 0).1.op op).seqnum.pc,
    (g.newConst 4 0).1.numOps⟩ [newOut, (g.newConst 4 0).2]).1 = g2 at *
  have hk3 := Keeps.opSetOutput g2 g.numOps w.outVn
  obtain ⟨hout3, hcode3, hin3, hother3⟩ := opSetOutput_output g2 g.numOps w.outVn
  generalize g2.opSetOutput g.numOps w.outVn = g3 at *
  obtain ⟨hvn4, hnv4, parent, hself4, hother4⟩ := opInsertAfter_spec g3 g.numOps op
  have hk4 : Keeps g3 (g3.opInsertAfter g.numOps op) := Keeps.of_eq hvn4 hnv4
  generalize g3.opInsertAfter g.numOps op = g4 at *
  rw [hno1] at hself hne
  have hk := hk2.trans (hk3.trans hk4)
  refine ⟨hk1.trans hk, fun d => ⟨fun hd => ?_, ?_⟩, ?_, fun env => ?_⟩
  · by_contra hd'
    rw [hother4 d hd'] at hd
    have h2 := hother3 d hd' _ hd
    rw [hne d hd', hop1] at h2
    exact hfree d h2
  · rintro rfl
    rw [hself4]
    exact hout3
  · rw [hself4]
    exact hcode3.trans (congrArg PcodeOp.opcode hself)
  · obtain ⟨u, us, hu, hus, rfl⟩ := List.forall₂_cons_left_iff.mp hst
    obtain ⟨z, zs, hz, hzs, rfl⟩ := List.forall₂_cons_left_iff.mp hus
    obtain rfl := List.forall₂_nil_left_iff.mp hzs
    have hin4 : (g4.op g.numOps).inrefs = [u, z] := by
      rw [hself4]
      exact hin3.trans (congrArg PcodeOp.inrefs hself)
    unfold operandsOf
    rw [hin4]
    have hk34 := hk3.trans hk4
    simp only [List.map_cons, List.map_nil]
    rw [(hu.keeps hk34).operandOf, (hz.keeps hk34).operandOf, hk1.operandOf hnew, hzv]

theorem cutLoad_kept (hgr : f.RuleGraph) (hload : (f.op op).opcode = .load)
    (hm : f.expandLoadMatch getType op = some w) (hform : w.addForm = false)
    (hv : f.LoadValues op env mem) :
    LoadKept f (f.applyWidening op w) op w env mem ↔ f.LoadExact op w env mem := by
  obtain ⟨hout, hsize, -, hoff, ptr, hptr, hp⟩ := expandLoadMatch_spec hm
  have hlt := hgr.output_lt hout
  have hw := widenLoad_spec hgr hload hm
  have hg : f.applyWidening op w = (f.widenLoad op w).cutLoad op w f.numVarnodes := by
    unfold applyWidening
    dsimp only
    rw [hform, if_neg Bool.false_ne_true]
  rw [hg]
  generalize f.widenLoad op w = g at *
  have hnone : f.rewrittenReaders w = [] := by
    unfold rewrittenReaders
    rw [hform, if_neg Bool.false_ne_true]
  obtain ⟨hk, houts, hcode, hops⟩ := @cutLoad_spec _ op w _ hw.free hw.lt
  have hk' := hw.keeps.trans hk
  generalize g.cutLoad op w f.numVarnodes = g' at *
  -- the SUBPIECE takes the low bytes of what the wide LOAD has read
  have hval : g.valueOf (f.loadedValues op w env mem) f.numVarnodes =
      readMem (f.loadsBigEndian op) mem (f.valueOf env w.rootPtr) w.elSize := by
    unfold valueOf
    rw [hw.constant, if_neg Bool.false_ne_true]
    exact if_pos rfl
  have hlow : g'.resultOf (f.loadedValues op w env mem) g.numOps w.outVn =
      some (readMem (f.loadsBigEndian op) mem (if f.loadsBigEndian op then
        f.valueOf env w.rootPtr + (w.elSize - (f.vn w.outVn).size) else f.valueOf env w.rootPtr)
          (f.vn w.outVn).size) := by
    unfold resultOf
    rw [hcode, hops, operandOf, hw.size, hval, hk'.size _ hlt]
    change some (if w.elSize ≤ 0 then 0 else (_ >>> (8 * 0)) % _) = _
    rw [if_neg (by omega), Nat.mul_zero, Nat.shiftRight_zero, readMem_low _ _ _ hsize.le]
  have hold : f.valueOf env w.outVn = readMem (f.loadsBigEndian op) mem
      (f.valueOf env w.rootPtr) (f.vn w.outVn).size := by
    rw [hv.load _ ptr hout hptr, pointer_value hgr hv hptr (hoff hform ▸ hp)]
  have hpart : (∀ d, (g'.op d).output = some w.outVn →
      g'.resultOf (f.loadedValues op w env mem) d w.outVn = some (f.valueOf env w.outVn)) ↔
        f.LoadExact op w env mem := by
    have hone : (∀ d, (g'.op d).output = some w.outVn →
        g'.resultOf (f.loadedValues op w env mem) d w.outVn = some (f.valueOf env w.outVn)) ↔
        g'.resultOf (f.loadedValues op w env mem) g.numOps w.outVn =
          some (f.valueOf env w.outVn) :=
      ⟨fun h => h _ ((houts _).mpr rfl), fun h d hd => (houts d).mp hd ▸ h⟩
    rw [hone, hlow, hold, Option.some_inj]
    unfold LoadExact
    rw [hform, if_neg Bool.false_ne_true]
    cases f.loadsBigEndian op with
    | false => simp
    | true =>
      rw [if_pos rfl]
      simp only [reduceCtorEq, false_or]
      exact eq_comm
  refine ⟨fun h => hpart.mp h.part, fun h => ⟨hpart.mpr h, ?_, ?_, ?_⟩⟩
  · rw [hnone]
    intro a ha
    cases ha
  · rw [hnone]
    rintro o (ho | ho | ⟨a, ha, -⟩) out' hout'
    · obtain rfl := (houts o).mp ho
      obtain rfl := Option.some.inj (ho.symm.trans hout')
      have hsizes : ((g'.op g.numOps).inrefs.map fun v => (g'.vn v).size) = [w.elSize, 4] := by
        have := congrArg (List.map Prod.fst) (hops env)
        unfold operandsOf at this
        rw [List.map_map] at this
        refine this.trans ?_
        rw [operandOf, hw.size]
        rfl
      rw [hcode, hsizes, hk'.size _ hlt]
      exact ⟨_, _, rfl, hsize.le⟩
    · cases ho
    · cases ha
  · rw [hnone]
    exact fun h => absurd rfl h

/-! The readers are rewritten. -/

theorem opSetInput_opcode (f : Funcdata) (op : OpId) (k : ℕ) (v : VarnodeId) (o : OpId) :
    ((f.opSetInput op k v).op o).opcode = (f.op o).opcode := by
  by_cases ho : o = op
  · subst ho
    unfold opSetInput
    cases (f.op o).input k with
    | none => rfl
    | some old =>
      dsimp only
      split_ifs
      · rfl
      · simp only [addDescend, modVn_op, modOp_op, if_true, eraseDescend, uniqueConstantFor_op]
  · rw [opSetInput_op_ne ho]

/-- Another slot than the one that is set stays. -/
theorem opSetInput_input_ne {j k : ℕ} (hjk : j ≠ k) (f : Funcdata) (op : OpId) (v : VarnodeId) :
    ((f.opSetInput op k v).op a).input j = (f.op a).input j := by
  by_cases ha : a = op
  · subst ha
    unfold opSetInput
    cases (f.op a).input k with
    | none => rfl
    | some old =>
      dsimp only
      split_ifs
      · rfl
      · simp only [addDescend, modVn_op, modOp_op, if_true, eraseDescend, uniqueConstantFor_op,
          PcodeOp.input]
        exact List.getElem?_set_ne (Ne.symm hjk)
  · rw [opSetInput_op_ne ha]

/-- The INT_AND `a` reads the wide value. -/
structure ReadsWide (g : Funcdata) (a : OpId) (size : ℕ) (out : VarnodeId) : Prop where
  code : (g.op a).opcode = .intAnd
  output : (g.op a).output = some out
  input : ∃ u, (g.op a).input 0 = some u ∧ u < g.numVarnodes ∧ (g.vn u).size = size

variable {n el sh : ℕ} {newVn : VarnodeId}

theorem ReadsWide.opSetInput_one (h : ReadsWide g a n out) (o : OpId) (v : VarnodeId) :
    ReadsWide (g.opSetInput o 1 v) a n out := by
  obtain ⟨u, hin, hu, hs⟩ := h.input
  have hk := Keeps.opSetInput g o 1 v
  refine ⟨(opSetInput_opcode ..).trans h.code, (opSetInput_output ..).trans h.output, u, ?_,
    hu.trans_le hk.le, (hk.size u hu).trans hs⟩
  rw [opSetInput_input_ne zero_ne_one, hin]

theorem ReadsWide.newConst (h : ReadsWide g a n out) (size : ℕ) (value : U64) :
    ReadsWide (g.newConst size value).1 a n out := by
  obtain ⟨u, hin, hu, hs⟩ := h.input
  have hk := Keeps.newConst g size value
  exact ⟨h.code, h.output, u, hin, hu.trans_le hk.le, (hk.size u hu).trans hs⟩

/-- A new first input of the size keeps the property, and gives it to its op. -/
theorem readsWide_opSetInput_zero (o : OpId) {v : VarnodeId} (hv : v < g.numVarnodes)
    (hs : (g.vn v).size = n) (hcode : (g.op a).opcode = .intAnd) (hout : (g.op a).output = some out)
    (h : a = o ∧ 0 < (g.op a).inrefs.length ∨ ReadsWide g a n out) :
    ReadsWide (g.opSetInput o 0 v) a n out := by
  have hk := Keeps.opSetInput g o 0 v
  refine ⟨(opSetInput_opcode ..).trans hcode, (opSetInput_output ..).trans hout, ?_⟩
  have hself : a = o → 0 < (g.op a).inrefs.length → ∃ u, ((g.opSetInput o 0 v).op a).input 0 =
      some u ∧ u < (g.opSetInput o 0 v).numVarnodes ∧ ((g.opSetInput o 0 v).vn u).size = n := by
    rintro rfl hlen
    obtain ⟨u, hself, hu⟩ := opSetInput_op_self g a hlen hv
    refine ⟨u, ?_, hu.lt, hu.size.trans hs⟩
    rw [hself]
    exact List.getElem?_set_self hlen
  rcases h with ⟨ha, hlen⟩ | h
  · exact hself ha hlen
  · obtain ⟨u, hin, hu, hsu⟩ := h.input
    by_cases ha : a = o
    · exact hself ha (List.getElem?_eq_some_iff.mp hin).1
    · refine ⟨u, ?_, hu.trans_le hk.le, (hk.size u hu).trans hsu⟩
      rw [opSetInput_op_ne ha, hin]

theorem Keeps.modifyReader (newVn : VarnodeId) (el sh : ℕ) (g : Funcdata) (b : OpId) :
    Keeps g (modifyReader newVn el sh g b) := by
  unfold Funcdata.modifyReader
  cases (g.op b).output.bind g.loneDescend with
  | none => exact Keeps.refl g
  | some compOp =>
    exact (Keeps.newConst g _ _).trans ((Keeps.opSetInput _ b 0 _).trans
      ((Keeps.opSetInput _ b 1 _).trans ((Keeps.newConst _ _ _).trans
        (Keeps.opSetInput _ compOp 1 _))))

theorem Keeps.foldl_modifyReader (newVn : VarnodeId) (el sh : ℕ) (l : List OpId) (g : Funcdata) :
    Keeps g (l.foldl (Funcdata.modifyReader newVn el sh) g) := by
  induction l generalizing g with
  | nil => exact Keeps.refl g
  | cons b l ih => exact (Keeps.modifyReader newVn el sh g b).trans (ih _)

/-- A turn for `a` makes it read the wide value; no other turn takes that back. -/
theorem readsWide_modifyReader (hv : newVn < g.numVarnodes) (hs : (g.vn newVn).size = el)
    (hcode : (g.op a).opcode = .intAnd) (hout : (g.op a).output = some out) (b : OpId)
    (h : (a = b ∧ 0 < (g.op a).inrefs.length ∧ (g.loneDescend out).isSome = true) ∨
      ReadsWide g a el out) : ReadsWide (modifyReader newVn el sh g b) a el out := by
  unfold modifyReader
  cases hcomp : (g.op b).output.bind g.loneDescend with
  | none =>
    rcases h with ⟨rfl, -, hlone⟩ | h
    · rw [hout, Option.bind_some] at hcomp
      rw [hcomp] at hlone
      cases hlone
    · exact h
  | some compOp =>
    have hk := Keeps.newConst g el ((g.inVn b 1).constantValue <<< (sh % 64))
    have h1 : ReadsWide ((g.newConst el ((g.inVn b 1).constantValue <<< (sh % 64))).1.opSetInput
        b 0 newVn) a el out :=
      readsWide_opSetInput_zero b (hv.trans_le hk.le) ((hk.size _ hv).trans hs) hcode hout
        (h.imp (fun h => ⟨h.1, h.2.1⟩) fun h => h.newConst _ _)
    exact ((h1.opSetInput_one b _).newConst _ _).opSetInput_one compOp _

theorem readsWide_foldl (l : List OpId) (sh : ℕ) : ∀ (g : Funcdata), newVn < g.numVarnodes →
    (g.vn newVn).size = el → ReadsWide g a el out →
    ReadsWide (l.foldl (modifyReader newVn el sh) g) a el out := by
  induction l with
  | nil => exact fun _ _ _ h => h
  | cons b l ih =>
    intro g hv hs h
    have hk := Keeps.modifyReader newVn el sh g b
    exact ih _ (hv.trans_le hk.le) ((hk.size _ hv).trans hs)
      (readsWide_modifyReader hv hs h.code h.output b (.inr h))

theorem masksAndCompares_spec (h : f.masksAndCompares a = true) :
    (f.op a).opcode = .intAnd ∧ ∃ out c, (f.op a).output = some out ∧
      f.loneDescend out = some c ∧ ((f.op c).opcode = .intEqual ∨ (f.op c).opcode = .intNotequal) := by
  unfold masksAndCompares at h
  simp only [Bool.and_eq_true, beq_iff_eq] at h
  obtain ⟨⟨hcode, -⟩, h⟩ := h
  obtain ⟨out, hout, h⟩ := (Option.any_eq_true _ _).mp h
  obtain ⟨c, hc, h⟩ := (Option.any_eq_true _ _).mp h
  rw [Bool.and_eq_true, Bool.or_eq_true, beq_iff_eq, beq_iff_eq] at h
  exact ⟨hcode, out, c, hout, hc, h.1⟩

/-- The wide LOAD leaves the readers of a value that neither it nor its pointer reads. -/
theorem WideLoad.descend_perm (hgr : f.RuleGraph) (hw : WideLoad f g op w) {u : VarnodeId}
    (hu : u < f.numVarnodes) (hc : (f.vn u).constant = false) (hop : u ∉ (f.op op).inrefs)
    (hroot : u ≠ w.rootPtr) (hadd : ∀ o, w.addOp = some o → u ∉ (f.op o).inrefs) :
    (g.vn u).descend.Perm (f.vn u).descend := by
  rw [List.perm_iff_count]
  intro o
  rw [hw.linked.count, hgr.linked.count]
  by_cases ho : o = op
  · subst ho
    rw [List.count_eq_zero_of_not_mem hop, List.count_eq_zero]
    intro hmem
    rcases hw.inrefs u hmem with h | h | h
    · exact hop h
    · exact hroot h
    · rw [hw.keeps.constant u hu, hc] at h
      cases h
  · by_cases ha : w.addOp = some o
    · rw [hw.loses o ha, List.count_eq_zero_of_not_mem (hadd o ha)]
      rfl
    · rw [hw.other o ho ha]

theorem addForm_kept (hgr : f.RuleGraph) (hload : (f.op op).opcode = .load)
    (hm : f.expandLoadMatch getType op = some w) (hform : w.addForm = true) :
    LoadKept f (f.applyWidening op w) op w env mem ↔ f.LoadExact op w env mem := by
  obtain ⟨hout, hsize, hcheck, -, ptr, hptr, hp⟩ := expandLoadMatch_spec hm
  have hlt := hgr.output_lt hout
  have hw := widenLoad_spec hgr hload hm
  have hg : f.applyWidening op w = (f.widenLoad op w).expandLoadModifyAndComparison w.outVn
      f.numVarnodes w.elSize w.offset := by
    unfold applyWidening
    dsimp only
    rw [hform, if_pos rfl]
  have hreaders : f.rewrittenReaders w = (f.vn w.outVn).descend := by
    unfold rewrittenReaders
    rw [hform, if_pos rfl]
  have hall : ∀ a ∈ (f.vn w.outVn).descend, f.masksAndCompares a = true := by
    rw [hform] at hcheck
    exact List.all_eq_true.mp hcheck.symm
  have hexact : f.LoadExact op w env mem ↔ (f.vn w.outVn).descend = [] := by
    unfold LoadExact
    rw [hform, if_pos rfl, hreaders]
  rw [hg, hexact]
  generalize f.widenLoad op w = g at *
  -- an op that is no INT_AND does not read the part, one that is no comparison no INT_AND
  have hcodes : ∀ o, (f.op o).opcode = .load ∨ (f.op o).opcode = .intAdd →
      w.outVn ∉ (f.op o).inrefs ∧ ∀ a ∈ (f.vn w.outVn).descend, ∀ out, (f.op a).output = some out →
        out ∉ (f.op o).inrefs := by
    intro o ho
    refine ⟨fun hmem => ?_, fun a ha out hao hmem => ?_⟩
    · have h := (masksAndCompares_spec (hall o (hgr.linked.mem_descend.mpr hmem))).1
      rw [h] at ho
      simp at ho
    · obtain ⟨-, out', c, hout', hc, hcode⟩ := masksAndCompares_spec (hall a ha)
      obtain rfl := Option.some.inj (hao.symm.trans hout')
      have h := hgr.linked.mem_descend.mpr hmem
      rw [loneDescend_eq_some hc, List.mem_singleton] at h
      rw [h] at ho
      rcases hcode with hcode | hcode
      all_goals
        rw [hcode] at ho
        simp at ho
  have hadd : ∀ o, w.addOp = some o → (f.op o).opcode = .intAdd := by
    intro o ho
    rcases expandLoadPointer_spec hp with ⟨hnone, -, -⟩ | ⟨d, c, hsome, -, hd, -⟩
    · rw [hnone] at ho
      cases ho
    · rw [hsome] at ho
      exact Option.some.inj ho ▸ hd
  have hroot : ∃ o, ((f.op o).opcode = .load ∨ (f.op o).opcode = .intAdd) ∧
      w.rootPtr ∈ (f.op o).inrefs := by
    rcases expandLoadPointer_spec hp with ⟨-, he, -⟩ | ⟨d, c, -, -, hd, hr, -⟩
    · exact ⟨op, .inl hload, he ▸ List.mem_of_getElem? hptr⟩
    · exact ⟨d, .inr hd, List.mem_of_getElem? hr⟩
  obtain ⟨r, hr, hrmem⟩ := hroot
  have hperm : (g.vn w.outVn).descend.Perm (f.vn w.outVn).descend :=
    hw.descend_perm hgr hlt (hgr.not_constant_of_def ((hgr.linked.defs _ _).mpr hout))
      (hcodes op (.inl hload)).1 (fun he => (hcodes r hr).1 (he ▸ hrmem))
      fun o ho => (hcodes o (.inr (hadd o ho))).1
  unfold expandLoadModifyAndComparison
  cases hdesc : (g.vn w.outVn).descend with
  | nil =>
    have hnil : (f.vn w.outVn).descend = [] := by
      rw [hdesc] at hperm
      exact hperm.nil_eq.symm
    refine iff_of_true ⟨fun d hd => absurd hd (hw.free d), ?_, ?_, ?_⟩ hnil
    · rw [hreaders, hnil]
      intro a ha
      cases ha
    · rw [hreaders, hnil]
      rintro o (ho | ho | ⟨a, ha, -⟩)
      · exact absurd ho (hw.free o)
      · cases ho
      · cases ha
    · rw [hreaders, hnil]
      exact fun h => absurd rfl h
  | cons a l =>
    have ha : a ∈ (f.vn w.outVn).descend := hperm.subset (hdesc ▸ List.mem_cons_self)
    refine iff_of_false (fun hkept => ?_) fun hnil => by
      rw [hnil] at ha
      cases ha
    obtain ⟨hcode, out, c, hao, hc, -⟩ := masksAndCompares_spec (hall a ha)
    have hne : a ≠ op := by
      rintro rfl
      rw [hcode] at hload
      cases hload
    have hother : g.op a = f.op a := hw.other a hne fun he => by
      rw [hadd a he] at hcode
      cases hcode
    have hlone : g.loneDescend out = some c := by
      have hpo := hw.descend_perm hgr (hgr.output_lt hao)
        (hgr.not_constant_of_def ((hgr.linked.defs _ _).mpr hao))
        ((hcodes op (.inl hload)).2 a ha out hao)
        (fun he => (hcodes r hr).2 a ha out hao (he ▸ hrmem))
        fun o ho => (hcodes o (.inr (hadd o ho))).2 a ha out hao
      rw [loneDescend_eq_some hc] at hpo
      unfold loneDescend
      rw [List.perm_singleton.mp hpo]
    have hlen : 0 < (g.op a).inrefs.length := by
      rw [hother]
      exact List.length_pos_of_mem (hgr.linked.mem_descend.mp ha)
    have hfirst : ReadsWide (modifyReader f.numVarnodes w.elSize (8 * w.offset) g a) a w.elSize out :=
      readsWide_modifyReader hw.lt hw.size (by rw [hother, hcode]) (by rw [hother, hao]) a
        (.inl ⟨rfl, hlen, by rw [hlone]; rfl⟩)
    have hk := Keeps.modifyReader f.numVarnodes w.elSize (8 * w.offset) g a
    have hread := readsWide_foldl l (8 * w.offset) _ (hw.lt.trans_le hk.le)
      ((hk.size _ hw.lt).trans hw.size) hfirst
    have hkl := hw.keeps.trans (hk.trans (Keeps.foldl_modifyReader f.numVarnodes w.elSize
      (8 * w.offset) l _))
    rw [List.foldl_cons] at hkept
    generalize l.foldl (modifyReader f.numVarnodes w.elSize (8 * w.offset))
      (modifyReader f.numVarnodes w.elSize (8 * w.offset) g a) = g' at *
    -- its output is still as narrow as the part
    obtain ⟨u, hin, -, hus⟩ := hread.input
    have hsz := hkept.sizes a (.inr (.inl (hreaders ▸ ha))) out hread.output
    rw [hread.code, hkl.size _ (hgr.output_lt hao)] at hsz
    have hwide : w.elSize = (f.vn out).size := by
      have hmem : (g'.vn u).size ∈ (g'.op a).inrefs.map fun v => (g'.vn v).size :=
        List.mem_map_of_mem (List.mem_of_getElem? hin)
      rw [hsz, List.mem_pair, or_self, hus] at hmem
      exact hmem
    obtain ⟨p, q, hpq, hps, hqs⟩ := hgr.arith_inrefs hao (.inr (.inr (.inr (.inl hcode))))
    have hmem := hgr.linked.mem_descend.mp ha
    rw [hpq, List.mem_pair] at hmem
    rcases hmem with he | he
    · rw [he, hps] at hsize
      omega
    · rw [he, hqs] at hsize
      omega

/-- Where `RuleExpandLoad` fires, the readers see what they saw exactly where it rewrites none of
them and the low bytes of the whole value are the part. -/
theorem expandLoad_kept_iff (hgr : f.RuleGraph) (hload : (f.op op).opcode = .load)
    (happ : f.expandLoad getType op = some g) :
    ∃ w, f.expandLoadMatch getType op = some w ∧ ∀ env mem, f.LoadValues op env mem →
      (LoadKept f g op w env mem ↔ f.LoadExact op w env mem) := by
  obtain ⟨w, hm, rfl⟩ := Option.map_eq_some_iff.mp happ
  refine ⟨w, hm, fun env mem hv => ?_⟩
  cases hform : w.addForm with
  | true => exact addForm_kept hgr hload hm hform
  | false => exact cutLoad_kept hgr hload hm hform hv

/-- `v8 = ((*(v0 + 1) & 1) == 1)` for a byte of the four that `v0` points at. -/
def loadGraph : Funcdata where
  spaces := SpaceManager.standard false
  vn v :=
    if v = 0 then { loc := ⟨2, 0⟩, size := 8, input := true, insert := true, descend := [0],
                    nzm := calcMask 8 }
    else if v = 1 then { loc := ⟨0, 1⟩, size := 8, constant := true, descend := [0], nzm := 1 }
    else if v = 2 then { loc := ⟨3, 0⟩, size := 8, written := true, insert := true,
                         defOp := some 0, descend := [1], nzm := calcMask 8 }
    else if v = 3 then { loc := ⟨0, 1⟩, size := 8, constant := true, descend := [1], nzm := 1 }
    else if v = 4 then { loc := ⟨3, 8⟩, size := 1, written := true, insert := true,
                         defOp := some 1, descend := [2], nzm := calcMask 1 }
    else if v = 5 then { loc := ⟨0, 1⟩, size := 1, constant := true, descend := [2], nzm := 1 }
    else if v = 6 then { loc := ⟨3, 9⟩, size := 1, written := true, insert := true,
                         defOp := some 2, descend := [3], nzm := 1 }
    else if v = 7 then { loc := ⟨0, 1⟩, size := 1, constant := true, descend := [3], nzm := 1 }
    else if v = 8 then { loc := ⟨3, 10⟩, size := 1, written := true, insert := true,
                         defOp := some 3, nzm := 1 }
    else default
  numVarnodes := 9
  op o :=
    if o = 0 then { opcode := .intAdd, parent := some 0, output := some 2, inrefs := [0, 1] }
    else if o = 1 then { opcode := .load, parent := some 0, output := some 4, inrefs := [3, 2] }
    else if o = 2 then { opcode := .intAnd, parent := some 0, output := some 6, inrefs := [4, 5] }
    else if o = 3 then { opcode := .intEqual, parent := some 0, output := some 8,
                         inrefs := [6, 7] }
    else default
  numOps := 4
  blocks := [{ ops := [0, 1, 2, 3] }]

/-- `v0` points at a four byte number. -/
def loadTypes (v : VarnodeId) : Datatype :=
  if v = 0 then .pointer 8 (.int 4) else .unknown (loadGraph.vn v).size

/-- `v0` is 0x100. -/
def loadInputs (v : VarnodeId) : ℕ :=
  if v = 0 then 0x100 else if v = 2 then 0x101 else if v = 4 ∨ v = 6 ∨ v = 8 then 1 else 0

theorem ruleGraph_load : loadGraph.RuleGraph where
  linked := by
    refine ⟨fun v hv => ?_, fun o ho => ?_, fun v o => ?_, fun o hd => ?_, fun v o => ?_,
      fun v hv => ?_, fun v hv => ?_, fun v hv => ?_⟩
    · rcases v with _ | _ | _ | _ | _ | _ | _ | _ | _ | v <;> simp [loadGraph] at hv ⊢
      exact ⟨rfl, rfl⟩
    · rcases o with _ | _ | _ | _ | o <;> simp [loadGraph] at ho ⊢
      exact ⟨rfl, rfl⟩
    · rcases v with _ | _ | _ | _ | _ | _ | _ | _ | _ | v <;>
        rcases o with _ | _ | _ | _ | o <;> simp [loadGraph]
      all_goals rfl
    · rcases o with _ | _ | _ | _ | o <;> simp [loadGraph] at hd
    · rcases v with _ | _ | _ | _ | _ | _ | _ | _ | _ | v <;>
        rcases o with _ | _ | _ | _ | o <;> simp [loadGraph]
    · change v < 9 at hv
      interval_cases v <;> rfl
    · change v < 9 at hv
      interval_cases v <;> rfl
    · change v < 9 at hv
      interval_cases v <;> decide
  opWf op out hout := by
    rcases op with _ | _ | _ | _ | op
    · cases hout
      exact ⟨rfl, by decide, by decide, fun he => by cases he⟩
    · cases hout
      exact ⟨trivial, by decide, by decide, fun he => by cases he⟩
    · cases hout
      exact ⟨rfl, by decide, by decide, fun he => by cases he⟩
    · cases hout
      exact ⟨⟨⟨1, rfl⟩, rfl⟩, by decide, by decide, fun he => by cases he⟩
    · cases hout
  computes op hop _ _ := by
    change op < 4 at hop
    interval_cases op
    all_goals exact ⟨_, rfl⟩
  const v hc := by
    rcases v with _ | _ | _ | _ | _ | _ | _ | _ | _ | v <;> simp [loadGraph] at hc ⊢
    all_goals decide

/-- All bytes of the memory are 1. -/
theorem loadValues_ones : loadGraph.LoadValues 1 loadInputs fun _ => 1 where
  fits v := by
    rcases v with _ | _ | _ | _ | _ | _ | _ | _ | _ | v
    all_goals first | decide | exact Nat.one_pos
  load out ptr hout hptr := by
    cases hout
    cases hptr
    decide
  pointer ptr d hptr hd _ := by
    cases hptr
    cases hd
    decide

/-- The rule fires for a byte that is masked and compared, and does not keep the comparison. -/
theorem expandLoad_kept_iff_byte : ∃ g, loadGraph.expandLoad loadTypes 1 = some g ∧
    ∃ w, loadGraph.expandLoadMatch loadTypes 1 = some w ∧
      ∀ env mem, loadGraph.LoadValues 1 env mem →
        (LoadKept loadGraph g 1 w env mem ↔ loadGraph.LoadExact 1 w env mem) :=
  ⟨_, rfl, expandLoad_kept_iff ruleGraph_load rfl rfl⟩

/-- `(v & 0x100)` is cut to the byte that `v` was, so it is never 0x100. -/
theorem expandLoad_not_kept : ¬∀ (f g : Funcdata) (getType : VarnodeId → Datatype) (op : OpId)
    (w : Widening), f.RuleGraph → (f.op op).opcode = .load → f.expandLoad getType op = some g →
    f.expandLoadMatch getType op = some w → ∀ (env : VarnodeId → ℕ) (mem : ℕ → BitVec 8),
    f.LoadValues op env mem → LoadKept f g op w env mem := by
  intro h
  have hbad := (h loadGraph _ loadTypes 1 ⟨4, some 0, 0, 1, 4, true⟩ ruleGraph_load rfl rfl rfl
    loadInputs (fun _ => 1) loadValues_ones).compare 2 (by decide) 3 rfl 8 rfl
  exact absurd hbad (by decide)

end Funcdata
end Mosura
