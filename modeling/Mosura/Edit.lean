import Mosura.Pcode
import Mosura.Funcdata

/-! The edits rules make to a graph (`funcdata.rs`), and what an edit keeps. -/

namespace Mosura
namespace Funcdata

variable (f : Funcdata)

/-- `op` drops out of the readers of `v`, once. -/
def eraseDescend (v : VarnodeId) (op : OpId) : Funcdata :=
  f.modVn v fun x => { x with descend := x.descend.erase op }

def addDescend (v : VarnodeId) (op : OpId) : Funcdata :=
  f.modVn v fun x => { x with descend := x.descend ++ [op] }

def opSetOpcode (op : OpId) (opcode : OpCode) : Funcdata :=
  f.modOp op fun o => { o with opcode := opcode }

/-- `op_set_input`; a slot `op` does not have (a panic in the source) changes nothing. -/
def opSetInput (op : OpId) (slot : ℕ) (vid : VarnodeId) : Funcdata :=
  match (f.op op).input slot with
  | none => f
  | some old =>
    if old = vid then f
    else
      let (f', vid) := f.uniqueConstantFor vid
      ((f'.eraseDescend old op).modOp op fun o =>
        { o with inrefs := o.inrefs.set slot vid }).addDescend vid op

/-- `op_remove_input`; a slot `op` does not have (a panic in the source) changes nothing. -/
def opRemoveInput (op : OpId) (slot : ℕ) : Funcdata :=
  match (f.op op).input slot with
  | none => f
  | some vid => (f.modOp op fun o => { o with inrefs := o.inrefs.eraseIdx slot }).eraseDescend vid op

/-- The inputs as they are wired into an op: constants with a reader are cloned. -/
def uniqueConstants : Funcdata → List VarnodeId → Funcdata × List VarnodeId
  | f, [] => (f, [])
  | f, v :: vs =>
    let (f', u) := f.uniqueConstantFor v
    let (f'', us) := f'.uniqueConstants vs
    (f'', u :: us)

/-- `new_op`: the new id is the old arena length. -/
def newOp (opcode : OpCode) (seqnum : SeqNum) (inputs : List VarnodeId) : Funcdata × OpId :=
  let (f', ids) := f.uniqueConstants inputs
  let f' := ids.foldl (fun g v => g.addDescend v f.numOps) f'
  ({ f' with
      op := Function.update f'.op f.numOps { opcode := opcode, seqnum := seqnum, inrefs := ids }
      numOps := f.numOps + 1 }, f.numOps)

/-- The old output of an op that gets another one: it has no definition any more. -/
def makeFree (v : VarnodeId) : Funcdata :=
  f.modVn v fun x => { x with
    defOp := none
    written := false
    input := false
    insert := false
    indirectCreation := false }

def newOutput (op : OpId) (size : ℕ) (loc : Address) : Funcdata × VarnodeId :=
  let f' := ((f.op op).output.elim f f.makeFree).allocVarnode size loc false
  ((f'.modVn f.numVarnodes fun x => { x with
      written := true
      insert := true
      defOp := some op }).modOp op fun o => { o with output := some f.numVarnodes },
    f.numVarnodes)

def newOutputUnique (op : OpId) (size : ℕ) : Funcdata × VarnodeId :=
  newOutput { f with uniqueOffset := f.uniqueOffset + BitVec.ofNat 64 (max size 1) } op size
    ⟨f.spaces.unique, f.uniqueOffset⟩

/-- `op_insert_before`: `newop` goes into the block of `follow`, just ahead of it. -/
def opInsertBefore (newop follow : OpId) : Funcdata :=
  let f' := f.modOp newop fun o => { o with parent := (f.op follow).parent }
  match (f.op follow).parent with
  | none => f'
  | some b => f'.modBlock b fun x => { x with ops := x.ops.insertIdx (x.ops.idxOf follow) newop }

/-- `new_op_before_sized`: an op with a fresh output just ahead of `follow`. -/
def newOpBeforeSized (follow : OpId) (opcode : OpCode) (inputs : List VarnodeId) (outSize : ℕ) :
    Funcdata × OpId :=
  let (f', id) := f.newOp opcode ⟨(f.op follow).seqnum.pc, f.numOps⟩ inputs
  let (f', _) := f'.newOutputUnique id outSize
  (f'.opInsertBefore id follow, id)

/-- `new_op_before`: the output is as wide as the first input. -/
def newOpBefore (follow : OpId) (opcode : OpCode) (inputs : List VarnodeId) : Funcdata × OpId :=
  f.newOpBeforeSized follow opcode inputs (inputs.head?.elim 0 fun v => (f.vn v).size)

/-- An edit keeps what a value of a varnode depends on: its size, its storage, whether it is a
constant, and its mask. -/
structure Keeps (f f' : Funcdata) : Prop where
  le : f.numVarnodes ≤ f'.numVarnodes
  size : ∀ v < f.numVarnodes, (f'.vn v).size = (f.vn v).size
  loc : ∀ v < f.numVarnodes, (f'.vn v).loc = (f.vn v).loc
  constant : ∀ v < f.numVarnodes, (f'.vn v).constant = (f.vn v).constant
  nzm : ∀ v < f.numVarnodes, (f'.vn v).nzm = (f.vn v).nzm

variable {f}

theorem Keeps.refl (f : Funcdata) : Keeps f f :=
  ⟨le_rfl, fun _ _ => rfl, fun _ _ => rfl, fun _ _ => rfl, fun _ _ => rfl⟩

theorem Keeps.trans {f' f'' : Funcdata} (h : Keeps f f') (h' : Keeps f' f'') : Keeps f f'' where
  le := h.le.trans h'.le
  size v hv := (h'.size v (hv.trans_le h.le)).trans (h.size v hv)
  loc v hv := (h'.loc v (hv.trans_le h.le)).trans (h.loc v hv)
  constant v hv := (h'.constant v (hv.trans_le h.le)).trans (h.constant v hv)
  nzm v hv := (h'.nzm v (hv.trans_le h.le)).trans (h.nzm v hv)

/-- An edit of a record that leaves these fields alone. -/
theorem Keeps.modVn (f : Funcdata) (u : VarnodeId) (g : Varnode → Varnode)
    (hsize : (g (f.vn u)).size = (f.vn u).size) (hloc : (g (f.vn u)).loc = (f.vn u).loc)
    (hconst : (g (f.vn u)).constant = (f.vn u).constant)
    (hnzm : (g (f.vn u)).nzm = (f.vn u).nzm) : Keeps f (f.modVn u g) := by
  refine ⟨le_rfl, fun v _ => ?_, fun v _ => ?_, fun v _ => ?_, fun v _ => ?_⟩
  all_goals
    rw [modVn_vn]
    split_ifs with hv
    · subst hv
      assumption
    · rfl

theorem Keeps.eraseDescend (f : Funcdata) (v : VarnodeId) (op : OpId) :
    Keeps f (f.eraseDescend v op) := Keeps.modVn f v _ rfl rfl rfl rfl

theorem Keeps.addDescend (f : Funcdata) (v : VarnodeId) (op : OpId) :
    Keeps f (f.addDescend v op) := Keeps.modVn f v _ rfl rfl rfl rfl

theorem Keeps.makeFree (f : Funcdata) (v : VarnodeId) : Keeps f (f.makeFree v) :=
  Keeps.modVn f v _ rfl rfl rfl rfl

/-- An edit that leaves the varnodes alone. -/
theorem Keeps.of_eq {f f' : Funcdata} (hvn : f'.vn = f.vn) (hn : f'.numVarnodes = f.numVarnodes) :
    Keeps f f' := by
  refine ⟨hn.ge, ?_, ?_, ?_, ?_⟩
  all_goals
    intro v _
    rw [hvn]

theorem Keeps.modOp (f : Funcdata) (op : OpId) (g : PcodeOp → PcodeOp) : Keeps f (f.modOp op g) :=
  Keeps.of_eq rfl rfl

theorem Keeps.opSetOpcode (f : Funcdata) (op : OpId) (c : OpCode) : Keeps f (f.opSetOpcode op c) :=
  Keeps.modOp f op _

theorem Keeps.allocVarnode (f : Funcdata) (size : ℕ) (loc : Address) (c : Bool) :
    Keeps f (f.allocVarnode size loc c) := by
  have hne : ∀ v < f.numVarnodes, (f.allocVarnode size loc c).vn v = f.vn v := fun v hv => by
    rw [allocVarnode_vn, if_neg hv.ne]
  refine ⟨Nat.le_succ _, ?_, ?_, ?_, ?_⟩
  all_goals
    intro v hv
    rw [hne v hv]

theorem Keeps.newConst (f : Funcdata) (size : ℕ) (value : U64) : Keeps f (f.newConst size value).1 :=
  Keeps.allocVarnode f size _ true

/-- The varnode `u` of `f'` stands for `v` of `f`: it is `v` or a constant of the same value. -/
structure Stands (f f' : Funcdata) (v u : VarnodeId) : Prop where
  lt : u < f'.numVarnodes
  size : (f'.vn u).size = (f.vn v).size
  loc : (f'.vn u).loc.offset = (f.vn v).loc.offset
  same : u = v ∧ (f'.vn u).constant = (f.vn v).constant ∨
    (f'.vn u).constant = true ∧ (f.vn v).constant = true

theorem Keeps.stands {f f' : Funcdata} (h : Keeps f f') {v : VarnodeId} (hv : v < f.numVarnodes) :
    Stands f f' v v :=
  ⟨hv.trans_le h.le, h.size v hv, congrArg Address.offset (h.loc v hv), .inl ⟨rfl, h.constant v hv⟩⟩

theorem Stands.keeps {f f' f'' : Funcdata} {v u : VarnodeId} (h : Stands f f' v u)
    (h' : Keeps f' f'') : Stands f f'' v u := by
  have hu := h'.stands h.lt
  refine ⟨hu.lt, hu.size.trans h.size, hu.loc.trans h.loc, ?_⟩
  rw [h'.constant u h.lt]
  exact h.same

theorem Stands.of_keeps {f f' f'' : Funcdata} {v u : VarnodeId} (h' : Keeps f f')
    (hv : v < f.numVarnodes) (h : Stands f' f'' v u) : Stands f f'' v u := by
  have hs := h'.stands hv
  refine ⟨h.lt, h.size.trans hs.size, h.loc.trans hs.loc, ?_⟩
  rw [← h'.constant v hv]
  exact h.same

theorem uniqueConstantFor_cases (f : Funcdata) (v : VarnodeId) :
    f.uniqueConstantFor v = (f, v) ∨ (f.vn v).constant = true ∧
      f.uniqueConstantFor v = f.newConst (f.vn v).size (f.vn v).loc.offset := by
  unfold uniqueConstantFor
  split_ifs with h
  · exact .inl rfl
  · simp only [Bool.or_eq_true, Bool.not_eq_true', not_or, Bool.not_eq_false] at h
    exact .inr ⟨h.1.1, rfl⟩

@[simp] theorem uniqueConstantFor_op (f : Funcdata) (v : VarnodeId) :
    (f.uniqueConstantFor v).1.op = f.op := by
  rcases uniqueConstantFor_cases f v with h | ⟨-, h⟩
  · rw [h]
  · rw [h]
    rfl

@[simp] theorem uniqueConstantFor_numOps (f : Funcdata) (v : VarnodeId) :
    (f.uniqueConstantFor v).1.numOps = f.numOps := by
  rcases uniqueConstantFor_cases f v with h | ⟨-, h⟩
  · rw [h]
  · rw [h]
    rfl

theorem Keeps.uniqueConstantFor (f : Funcdata) (v : VarnodeId) :
    Keeps f (f.uniqueConstantFor v).1 := by
  rcases uniqueConstantFor_cases f v with h | ⟨-, h⟩
  · rw [h]
    exact Keeps.refl f
  · rw [h]
    exact Keeps.newConst f _ _

theorem stands_uniqueConstantFor (f : Funcdata) {v : VarnodeId} (hv : v < f.numVarnodes) :
    Stands f (f.uniqueConstantFor v).1 v (f.uniqueConstantFor v).2 := by
  rcases uniqueConstantFor_cases f v with h | ⟨hc, h⟩
  · rw [h]
    exact (Keeps.refl f).stands hv
  · rw [h]
    have hvn : (f.newConst (f.vn v).size (f.vn v).loc.offset).1.vn f.numVarnodes =
        f.freshVarnode (f.vn v).size ⟨f.spaces.constant, (f.vn v).loc.offset⟩ true := by
      change (f.allocVarnode _ _ _).vn _ = _
      rw [allocVarnode_vn, if_pos rfl]
    refine ⟨Nat.lt_succ_self _, ?_, ?_, .inr ⟨?_, hc⟩⟩
    · change ((f.newConst _ _).1.vn f.numVarnodes).size = _
      rw [hvn]
      rfl
    · change ((f.newConst _ _).1.vn f.numVarnodes).loc.offset = _
      rw [hvn]
      rfl
    · change ((f.newConst _ _).1.vn f.numVarnodes).constant = _
      rw [hvn]
      rfl

theorem newConst_vn (f : Funcdata) (size : ℕ) (value : U64) :
    (f.newConst size value).1.vn (f.newConst size value).2 =
      f.freshVarnode size ⟨f.spaces.constant, value⟩ true := by
  change (f.allocVarnode _ _ _).vn f.numVarnodes = _
  rw [allocVarnode_vn, if_pos rfl]

@[simp] theorem newConst_op (f : Funcdata) (size : ℕ) (value : U64) :
    (f.newConst size value).1.op = f.op := rfl

theorem newConst_lt (f : Funcdata) (size : ℕ) (value : U64) :
    (f.newConst size value).2 < (f.newConst size value).1.numVarnodes := Nat.lt_succ_self _

/-! What each edit does to the ops. -/

theorem Keeps.opSetInput (f : Funcdata) (op : OpId) (slot : ℕ) (vid : VarnodeId) :
    Keeps f (f.opSetInput op slot vid) := by
  unfold Funcdata.opSetInput
  cases (f.op op).input slot with
  | none => exact Keeps.refl f
  | some old =>
    simp only []
    split_ifs
    · exact Keeps.refl f
    · exact (Keeps.uniqueConstantFor f vid).trans ((Keeps.eraseDescend _ old op).trans
        ((Keeps.modOp _ op _).trans (Keeps.addDescend _ _ op)))

theorem opSetInput_op_ne {op o : OpId} (h : o ≠ op) (slot : ℕ) (vid : VarnodeId) :
    (f.opSetInput op slot vid).op o = f.op o := by
  unfold opSetInput
  cases (f.op op).input slot with
  | none => rfl
  | some old =>
    simp only []
    split_ifs
    · rfl
    · simp only [addDescend, modVn_op, modOp_op, if_neg h, eraseDescend, uniqueConstantFor_op]

@[simp] theorem opSetInput_numOps (f : Funcdata) (op : OpId) (slot : ℕ) (vid : VarnodeId) :
    (f.opSetInput op slot vid).numOps = f.numOps := by
  unfold opSetInput
  cases (f.op op).input slot with
  | none => rfl
  | some old =>
    simp only []
    split_ifs
    · rfl
    · simp only [addDescend, modVn_numOps, modOp_numOps, eraseDescend, uniqueConstantFor_numOps]

/-- Input `slot` becomes `vid`, or a clone of it if it is a constant. -/
theorem opSetInput_op_self (f : Funcdata) (op : OpId) {slot : ℕ} {vid : VarnodeId}
    (hslot : slot < (f.op op).inrefs.length) (hvid : vid < f.numVarnodes) :
    ∃ u, (f.opSetInput op slot vid).op op =
      { f.op op with inrefs := (f.op op).inrefs.set slot u } ∧
      Stands f (f.opSetInput op slot vid) vid u := by
  have hkeep := Keeps.opSetInput f op slot vid
  have hin : (f.op op).input slot = some (f.op op).inrefs[slot] := List.getElem?_eq_getElem hslot
  by_cases hold : (f.op op).inrefs[slot] = vid
  · have hf : f.opSetInput op slot vid = f := by
      unfold opSetInput
      simp only [hin, if_pos hold]
    rw [hf]
    refine ⟨vid, ?_, (Keeps.refl f).stands hvid⟩
    rw [← hold, List.set_getElem_self]
  · have hf : f.opSetInput op slot vid =
        ((((f.uniqueConstantFor vid).1.eraseDescend (f.op op).inrefs[slot] op).modOp op fun o =>
          { o with inrefs := o.inrefs.set slot (f.uniqueConstantFor vid).2 }).addDescend
            (f.uniqueConstantFor vid).2 op) := by
      unfold opSetInput
      simp only [hin, if_neg hold]
    refine ⟨(f.uniqueConstantFor vid).2, ?_, ?_⟩
    · rw [hf]
      simp only [addDescend, modVn_op, modOp_op, if_true, eraseDescend, uniqueConstantFor_op]
    · rw [hf]
      exact (stands_uniqueConstantFor f hvid).keeps ((Keeps.eraseDescend _ _ op).trans
        ((Keeps.modOp _ op _).trans (Keeps.addDescend _ _ op)))

theorem Keeps.opRemoveInput (f : Funcdata) (op : OpId) (slot : ℕ) :
    Keeps f (f.opRemoveInput op slot) := by
  unfold Funcdata.opRemoveInput
  cases (f.op op).input slot with
  | none => exact Keeps.refl f
  | some vid => exact (Keeps.modOp f op _).trans (Keeps.eraseDescend _ vid op)

theorem opRemoveInput_op_ne {op o : OpId} (h : o ≠ op) (slot : ℕ) :
    (f.opRemoveInput op slot).op o = f.op o := by
  unfold opRemoveInput
  cases (f.op op).input slot with
  | none => rfl
  | some vid => simp only [eraseDescend, modVn_op, modOp_op, if_neg h]

theorem opRemoveInput_op_self (f : Funcdata) (op : OpId) (slot : ℕ) :
    (f.opRemoveInput op slot).op op =
      { f.op op with inrefs := (f.op op).inrefs.eraseIdx slot } := by
  unfold opRemoveInput
  cases hin : (f.op op).input slot with
  | none =>
    have hlen : (f.op op).inrefs.length ≤ slot := List.getElem?_eq_none_iff.mp hin
    rw [List.eraseIdx_of_length_le hlen]
  | some vid => simp only [eraseDescend, modVn_op, modOp_op, if_true]

theorem opSetOpcode_op_self (f : Funcdata) (op : OpId) (c : OpCode) :
    (f.opSetOpcode op c).op op = { f.op op with opcode := c } := by
  simp only [opSetOpcode, modOp_op, if_true]

theorem opSetOpcode_op_ne {op o : OpId} (h : o ≠ op) (c : OpCode) :
    (f.opSetOpcode op c).op o = f.op o := by
  simp only [opSetOpcode, modOp_op, if_neg h]

theorem uniqueConstants_spec (inputs : List VarnodeId) (f : Funcdata)
    (h : ∀ v ∈ inputs, v < f.numVarnodes) :
    Keeps f (f.uniqueConstants inputs).1 ∧ (f.uniqueConstants inputs).1.op = f.op ∧
      (f.uniqueConstants inputs).1.numOps = f.numOps ∧
      List.Forall₂ (Stands f (f.uniqueConstants inputs).1) inputs (f.uniqueConstants inputs).2 := by
  induction inputs generalizing f with
  | nil => exact ⟨Keeps.refl f, rfl, rfl, .nil⟩
  | cons v vs ih =>
    have hk := Keeps.uniqueConstantFor f v
    have hv := h v List.mem_cons_self
    obtain ⟨hk', hop, hn, hst⟩ := ih (f.uniqueConstantFor v).1 fun u hu =>
      (h u (List.mem_cons_of_mem _ hu)).trans_le hk.le
    refine ⟨hk.trans hk', hop.trans (uniqueConstantFor_op f v), hn.trans (uniqueConstantFor_numOps f v),
      .cons ((stands_uniqueConstantFor f hv).keeps hk') ?_⟩
    refine ((List.forall₂_and_left _ _).mpr ⟨fun u hu => h u (List.mem_cons_of_mem _ hu), hst⟩).imp ?_
    exact fun u w hu => hu.2.of_keeps hk hu.1

/-- An op made just ahead of another one: its inputs, its fresh output, and what it keeps. -/
structure Made (f f' : Funcdata) (id : OpId) (opcode : OpCode) (inputs : List VarnodeId)
    (outSize : ℕ) : Prop where
  keeps : Keeps f f'
  id_eq : id = f.numOps
  numOps : f'.numOps = f.numOps + 1
  opcode : (f'.op id).opcode = opcode
  inrefs : List.Forall₂ (Stands f f') inputs (f'.op id).inrefs
  output : ∃ w, (f'.op id).output = some w ∧ f.numVarnodes ≤ w ∧ w < f'.numVarnodes ∧
    (f'.vn w).size = outSize ∧ (f'.vn w).constant = false
  other : ∀ o ≠ id, f'.op o = f.op o

theorem keeps_foldl_addDescend (ids : List VarnodeId) (op : OpId) (f : Funcdata) :
    Keeps f (ids.foldl (fun g v => g.addDescend v op) f) ∧
      (ids.foldl (fun g v => g.addDescend v op) f).op = f.op := by
  induction ids generalizing f with
  | nil => exact ⟨Keeps.refl f, rfl⟩
  | cons v vs ih => exact ⟨(Keeps.addDescend f v op).trans (ih _).1, (ih _).2⟩

theorem newOp_spec (f : Funcdata) (opcode : OpCode) (seqnum : SeqNum) {inputs : List VarnodeId}
    (h : ∀ v ∈ inputs, v < f.numVarnodes) :
    Keeps f (f.newOp opcode seqnum inputs).1 ∧
      (f.newOp opcode seqnum inputs).1.numOps = f.numOps + 1 ∧
      (∃ ids, (f.newOp opcode seqnum inputs).1.op f.numOps =
        { opcode := opcode, seqnum := seqnum, inrefs := ids } ∧
        List.Forall₂ (Stands f (f.newOp opcode seqnum inputs).1) inputs ids) ∧
      ∀ o ≠ f.numOps, (f.newOp opcode seqnum inputs).1.op o = f.op o := by
  obtain ⟨hk, hop, -, hst⟩ := uniqueConstants_spec inputs f h
  obtain ⟨hk', hop'⟩ := keeps_foldl_addDescend (f.uniqueConstants inputs).2 f.numOps
    (f.uniqueConstants inputs).1
  have hkeep : Keeps (f.uniqueConstants inputs).1 (f.newOp opcode seqnum inputs).1 :=
    hk'.trans (Keeps.of_eq rfl rfl)
  refine ⟨hk.trans hkeep, rfl, ⟨(f.uniqueConstants inputs).2, ?_, ?_⟩, fun o ho => ?_⟩
  · exact Function.update_self ..
  · exact hst.imp fun v u hu => hu.keeps hkeep
  · refine (Function.update_of_ne ho _ _).trans ?_
    rw [hop', hop]

theorem newOutput_spec (f : Funcdata) (op : OpId) (size : ℕ) (loc : Address)
    (hout : (f.op op).output = none) :
    Keeps f (f.newOutput op size loc).1 ∧ (f.newOutput op size loc).1.numOps = f.numOps ∧
      (f.newOutput op size loc).2 = f.numVarnodes ∧
      (f.newOutput op size loc).1.numVarnodes = f.numVarnodes + 1 ∧
      (f.newOutput op size loc).1.op op = { f.op op with output := some f.numVarnodes } ∧
      (∀ o ≠ op, (f.newOutput op size loc).1.op o = f.op o) ∧
      ((f.newOutput op size loc).1.vn f.numVarnodes).size = size ∧
      ((f.newOutput op size loc).1.vn f.numVarnodes).constant = false := by
  unfold newOutput
  rw [hout]
  dsimp only [Option.elim_none]
  refine ⟨?_, rfl, rfl, rfl, ?_, fun o ho => ?_, ?_, ?_⟩
  · refine Keeps.trans ?_ (Keeps.modOp _ op _)
    exact (Keeps.allocVarnode f size loc false).trans (Keeps.modVn _ _ _ rfl rfl rfl rfl)
  · simp only [modOp_op, modVn_op, allocVarnode_op, if_true]
  · simp only [modOp_op, modVn_op, allocVarnode_op, if_neg ho]
  · simp only [modOp_vn, modVn_vn, allocVarnode_vn, if_true]
    rfl
  · simp only [modOp_vn, modVn_vn, allocVarnode_vn, if_true]
    rfl

theorem newOutputUnique_spec (f : Funcdata) (op : OpId) (size : ℕ)
    (hout : (f.op op).output = none) :
    Keeps f (f.newOutputUnique op size).1 ∧ (f.newOutputUnique op size).1.numOps = f.numOps ∧
      (f.newOutputUnique op size).1.numVarnodes = f.numVarnodes + 1 ∧
      (f.newOutputUnique op size).1.op op = { f.op op with output := some f.numVarnodes } ∧
      (∀ o ≠ op, (f.newOutputUnique op size).1.op o = f.op o) ∧
      ((f.newOutputUnique op size).1.vn f.numVarnodes).size = size ∧
      ((f.newOutputUnique op size).1.vn f.numVarnodes).constant = false := by
  obtain ⟨hk, hn, -, hv, hself, hne, hsize, hc⟩ := newOutput_spec
    { f with uniqueOffset := f.uniqueOffset + BitVec.ofNat 64 (max size 1) } op size
    ⟨f.spaces.unique, f.uniqueOffset⟩ hout
  have hstart : Keeps f { f with uniqueOffset := f.uniqueOffset + BitVec.ofNat 64 (max size 1) } :=
    Keeps.of_eq rfl rfl
  exact ⟨hstart.trans hk, hn, hv, hself, hne, hsize, hc⟩

theorem opInsertBefore_spec (f : Funcdata) (newop follow : OpId) :
    (f.opInsertBefore newop follow).vn = f.vn ∧
      (f.opInsertBefore newop follow).numVarnodes = f.numVarnodes ∧
      (f.opInsertBefore newop follow).numOps = f.numOps ∧
      (f.opInsertBefore newop follow).op newop =
        { f.op newop with parent := (f.op follow).parent } ∧
      ∀ o ≠ newop, (f.opInsertBefore newop follow).op o = f.op o := by
  unfold opInsertBefore
  cases (f.op follow).parent with
  | none =>
    refine ⟨rfl, rfl, rfl, ?_, fun o ho => ?_⟩
    · simp only [modOp_op, if_true]
    · simp only [modOp_op, if_neg ho]
  | some b =>
    refine ⟨rfl, rfl, rfl, ?_, fun o ho => ?_⟩
    · simp only [modBlock_op, modOp_op, if_true]
    · simp only [modBlock_op, modOp_op, if_neg ho]

theorem newOpBeforeSized_spec (f : Funcdata) (follow : OpId) (opcode : OpCode)
    {inputs : List VarnodeId} (outSize : ℕ) (h : ∀ v ∈ inputs, v < f.numVarnodes) :
    Made f (f.newOpBeforeSized follow opcode inputs outSize).1
      (f.newOpBeforeSized follow opcode inputs outSize).2 opcode inputs outSize := by
  obtain ⟨hk, hn, ⟨ids, hself, hst⟩, hne⟩ :=
    newOp_spec f opcode ⟨(f.op follow).seqnum.pc, f.numOps⟩ h
  obtain ⟨hk', hn', hnv, hself', hne', hsize, hc⟩ := newOutputUnique_spec
    (f.newOp opcode ⟨(f.op follow).seqnum.pc, f.numOps⟩ inputs).1 f.numOps outSize (by rw [hself])
  obtain ⟨hvn, hnv', hn'', hself'', hne''⟩ := opInsertBefore_spec
    ((f.newOp opcode ⟨(f.op follow).seqnum.pc, f.numOps⟩ inputs).1.newOutputUnique
      f.numOps outSize).1 f.numOps follow
  have hkeep := hk'.trans (Keeps.of_eq hvn hnv')
  constructor
  · exact hk.trans hkeep
  · rfl
  · exact hn''.trans (hn'.trans hn)
  · change (Funcdata.op _ f.numOps).opcode = _
    erw [hself'', hself', hself]
  · change List.Forall₂ _ _ (Funcdata.op _ f.numOps).inrefs
    erw [hself'', hself', hself]
    exact hst.imp fun v u hu => hu.keeps hkeep
  · refine ⟨(f.newOp opcode ⟨(f.op follow).seqnum.pc, f.numOps⟩ inputs).1.numVarnodes, ?_, hk.le,
      ?_, ?_, ?_⟩
    · change (Funcdata.op _ f.numOps).output = _
      erw [hself'', hself']
    · refine lt_of_lt_of_eq (Nat.lt_succ_self _) ?_
      exact (hnv'.trans hnv).symm
    · exact (congrArg Varnode.size (congrFun hvn _)).trans hsize
    · exact (congrArg Varnode.constant (congrFun hvn _)).trans hc
  · intro o ho
    exact (hne'' o ho).trans ((hne' o ho).trans (hne o ho))

end Funcdata
end Mosura
