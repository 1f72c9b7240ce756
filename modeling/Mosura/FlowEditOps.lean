import Mosura.FlowEdges
import Mosura.DefUseRuns

/-! What surgery on the flow graph does to the ops: which MULTIEQUALs are left, and with which
inputs. -/

namespace Mosura
namespace Funcdata

variable {f f' f'' : Funcdata} {E : FlowEdges} {b v bprime : BlockId} {op o p : OpId} {i : ℕ}
  {S : Set OpId}

/-- Each op is listed once, in the block that is its parent. -/
structure Homed (f : Funcdata) : Prop where
  listed : ∀ b, ∀ p ∈ (f.block b).ops, p < f.numOps
  parent : ∀ b, ∀ p ∈ (f.block b).ops, (f.op p).parent = some b
  nodup : ∀ b, (f.block b).ops.Nodup

/-- The inputs of the MULTIEQUALs of a block are, in order, what `val` says of its slots. -/
def Fed (f : Funcdata) (E : FlowEdges) (val : OpId → EdgeId → Option VarnodeId) : Prop :=
  ∀ b, ∀ p ∈ f.multis b, (f.op p).inrefs.map some = (E.slots b).map (val p)

theorem mem_multis : p ∈ f.multis b ↔
    p ∈ (f.block b).ops ∧ (f.op p).dead = false ∧ (f.op p).opcode = .multiequal := by
  rw [multis, List.mem_filter, Bool.and_eq_true, Bool.not_eq_true', decide_eq_true_eq]

theorem Homed.nodup_multis (h : f.Homed) (b : BlockId) : (f.multis b).Nodup := (h.nodup b).filter _

theorem Homed.eq_of_mem (h : f.Homed) (hb : p ∈ (f.block b).ops) (hv : p ∈ (f.block v).ops) :
    b = v := Option.some.inj ((h.parent b p hb).symm.trans (h.parent v p hv))

theorem Homed.sameOps (h : f.Homed) (hs : SameOps f f') : f'.Homed where
  listed b p hp := by
    rw [hs.numOps]
    exact h.listed b p (hs.ops b ▸ hp)
  parent b p hp := by
    rw [hs.op]
    exact h.parent b p (hs.ops b ▸ hp)
  nodup b := by
    rw [hs.ops]
    exact h.nodup b

theorem SameOps.multis (h : SameOps f f') (b : BlockId) : f'.multis b = f.multis b := by
  rw [Funcdata.multis, Funcdata.multis, h.ops, h.op]

theorem Fed.sameOps {val : OpId → EdgeId → Option VarnodeId} (h : f.Fed E val) (hs : SameOps f f') :
    f'.Fed E val := fun b p hp => by
  rw [hs.op]
  exact h b p (hs.multis b ▸ hp)

/-! Edits that change only the inputs of some ops. -/

/-- Only the inputs of the ops of `S` change. -/
structure Rewires (f f' : Funcdata) (S : Set OpId) : Prop where
  blocks : f'.blocks = f.blocks
  numOps : f'.numOps = f.numOps
  opcode : ∀ o, (f'.op o).opcode = (f.op o).opcode
  dead : ∀ o, (f'.op o).dead = (f.op o).dead
  parent : ∀ o, (f'.op o).parent = (f.op o).parent
  inrefs : ∀ o ∉ S, (f'.op o).inrefs = (f.op o).inrefs

theorem Rewires.of_op_eq (hb : f'.blocks = f.blocks) (hn : f'.numOps = f.numOps)
    (ho : f'.op = f.op) : Rewires f f' S := by
  refine ⟨hb, hn, ?_, ?_, ?_, ?_⟩
  all_goals
    intros
    rw [ho]

theorem Rewires.refl (f : Funcdata) : Rewires f f S := .of_op_eq rfl rfl rfl

theorem Rewires.trans (h : Rewires f f' S) (h' : Rewires f' f'' S) : Rewires f f'' S where
  blocks := h'.blocks.trans h.blocks
  numOps := h'.numOps.trans h.numOps
  opcode o := (h'.opcode o).trans (h.opcode o)
  dead o := (h'.dead o).trans (h.dead o)
  parent o := (h'.parent o).trans (h.parent o)
  inrefs o ho := (h'.inrefs o ho).trans (h.inrefs o ho)

theorem Rewires.modVn (f : Funcdata) (u : VarnodeId) (k : Varnode → Varnode) :
    Rewires f (f.modVn u k) S := .of_op_eq rfl rfl rfl

/-- An edit of one op that leaves all but its inputs alone. -/
theorem Rewires.modOp (f : Funcdata) (op : OpId) {k : PcodeOp → PcodeOp}
    (hc : (k (f.op op)).opcode = (f.op op).opcode) (hd : (k (f.op op)).dead = (f.op op).dead)
    (hp : (k (f.op op)).parent = (f.op op).parent)
    (hi : op ∉ S → (k (f.op op)).inrefs = (f.op op).inrefs) : Rewires f (f.modOp op k) S := by
  refine ⟨rfl, rfl, fun o => ?_, fun o => ?_, fun o => ?_, fun o ho => ?_⟩
  all_goals
    rw [modOp_op]
    split_ifs with he
    · subst he
      first | assumption | exact hi ho
    · rfl

theorem Rewires.uniqueConstantFor (f : Funcdata) (u : VarnodeId) :
    Rewires f (f.uniqueConstantFor u).1 S := by
  refine .of_op_eq ?_ (uniqueConstantFor_numOps f u) (uniqueConstantFor_op f u)
  rcases uniqueConstantFor_cases f u with h | ⟨-, h⟩
  · rw [h]
  · rw [h]
    rfl

theorem Rewires.opSetInput (f : Funcdata) (hop : op ∈ S) (slot : ℕ) (u : VarnodeId) :
    Rewires f (f.opSetInput op slot u) S := by
  unfold Funcdata.opSetInput
  cases (f.op op).input slot with
  | none => exact .refl f
  | some old =>
    dsimp only
    split_ifs
    · exact .refl f
    · refine (((Rewires.uniqueConstantFor f u).trans (.modVn _ old _)).trans (.modOp _ op ?_ ?_ ?_ ?_)).trans
        (.modVn _ _ _)
      · rfl
      · rfl
      · rfl
      · exact fun h => absurd hop h

theorem Rewires.opRemoveInput (f : Funcdata) (hop : op ∈ S) (slot : ℕ) :
    Rewires f (f.opRemoveInput op slot) S := by
  unfold Funcdata.opRemoveInput
  cases (f.op op).input slot with
  | none => exact .refl f
  | some u =>
    refine (Rewires.modOp f op ?_ ?_ ?_ fun h => absurd hop h).trans (.modVn _ u _)
    · rfl
    · rfl
    · rfl

theorem Rewires.foldl {α : Type*} (k : Funcdata → α → Funcdata)
    (hk : ∀ g x, Rewires g (k g x) S) (l : List α) (f : Funcdata) : Rewires f (l.foldl k f) S := by
  induction l generalizing f with
  | nil => exact .refl f
  | cons x l ih => exact (hk f x).trans (ih _)

theorem Rewires.opAppendInput (f : Funcdata) (hop : op ∈ S) (u : VarnodeId) :
    Rewires f (f.opAppendInput op u) S := by
  unfold Funcdata.opAppendInput
  refine ((Rewires.uniqueConstantFor f u).trans (.modOp _ op ?_ ?_ ?_ fun h => absurd hop h)).trans
    (.modVn _ _ _)
  · rfl
  · rfl
  · rfl

theorem Rewires.takeInputs (f : Funcdata) (hop : op ∈ S) : Rewires f (f.takeInputs op) S := by
  unfold Funcdata.takeInputs
  refine (Rewires.modOp f op ?_ ?_ ?_ fun h => absurd hop h).trans
    (.foldl _ (fun g u => .modVn g u _) _ _)
  · rfl
  · rfl
  · rfl

theorem Rewires.opSetAllInput (f : Funcdata) (hop : op ∈ S) (l : List VarnodeId) :
    Rewires f (f.opSetAllInput op l) S :=
  (Rewires.takeInputs f hop).trans (.foldl _ (fun g u => .opAppendInput g hop u) _ _)

theorem Rewires.newInput (f : Funcdata) (unaffected : Address → ℕ → Bool) (size : ℕ)
    (loc : Address) : Rewires f (f.newInput unaffected size loc).1 S := by
  unfold Funcdata.newInput
  cases f.inputAt size loc with
  | some u => exact .refl f
  | none =>
    dsimp only [Funcdata.applyInputEffect]
    split_ifs
    · exact .of_op_eq rfl rfl rfl
    · exact .of_op_eq rfl rfl rfl

/-! Destroying ops. -/

theorem opDestroy_op_ne (f : Funcdata) (h : o ≠ op) : (f.opDestroy op).op o = f.op o := by
  have htake := takeInputs_op f op o
  rw [if_neg h] at htake
  rw [← htake]
  unfold Funcdata.opDestroy
  generalize f.takeInputs op = g
  dsimp only
  cases (g.op op).output with
  | none => rw [modOp_op, if_neg h]
  | some out =>
    unfold Funcdata.deleteVarnode
    simp only [modOp_op, modVn_op, if_neg h]

theorem opDestroy_parent (f : Funcdata) (op : OpId) :
    ((f.opDestroy op).op op).parent = (f.op op).parent := by
  have htake := takeInputs_op f op op
  rw [if_pos rfl] at htake
  have hp : ((f.takeInputs op).op op).parent = (f.op op).parent := by rw [htake]
  rw [← hp]
  unfold Funcdata.opDestroy
  generalize f.takeInputs op = g
  dsimp only
  cases (g.op op).output with
  | none => rw [modOp_op, if_pos rfl]
  | some out =>
    unfold Funcdata.deleteVarnode
    simp only [modOp_op, modVn_op, if_true]

theorem opDestroy_dead (f : Funcdata) (op : OpId) : ((f.opDestroy op).op op).dead = true := by
  unfold Funcdata.opDestroy
  dsimp only
  rw [modOp_op, if_pos rfl]

/-! Blocks that lose the jump at their end. -/

/-- No MULTIEQUAL is new, and those that are left have their inputs. -/
def PhisKept (f f' : Funcdata) : Prop :=
  ∀ b, ∀ p ∈ f'.multis b, p ∈ f.multis b ∧ (f'.op p).inrefs = (f.op p).inrefs

theorem Fed.phisKept {val : OpId → EdgeId → Option VarnodeId} (h : f.Fed E val) (hk : PhisKept f f') :
    f'.Fed E val := fun b p hp => by
  obtain ⟨hp, hin⟩ := hk b p hp
  rw [hin]
  exact h b p hp

/-- The edge lists are the same. -/
def SameEdges (f f' : Funcdata) : Prop :=
  ∀ v, (f'.block v).outEdges = (f.block v).outEdges ∧ (f'.block v).inEdges = (f.block v).inEdges

theorem Wired.sameEdges (h : f.Wired E) (hs : SameEdges f f') : f'.Wired E where
  sound := h.sound
  outEdges b := (hs b).1.trans (h.outEdges b)
  inEdges b := (hs b).2.trans (h.inEdges b)
  nodup := h.nodup
  sub := h.sub
  slotDst := h.slotDst
  fresh := h.fresh

/-- The last op of `b` is destroyed and leaves the list. -/
def popDestroyed (f : Funcdata) (b : BlockId) (last : OpId) : Funcdata :=
  (f.opDestroy last).modBlock b fun x => { x with ops := x.ops.dropLast }

theorem block_popDestroyed (hb : b < f.numBlocks) (last : OpId) (v : BlockId) :
    (f.popDestroyed b last).block v =
      if v = b then { f.block b with ops := (f.block b).ops.dropLast } else f.block v := by
  have hblk : ∀ u, (f.opDestroy last).block u = f.block u := fun u =>
    congrArg (fun l : List BlockBasic => l.getD u default) (opDestroy_blocks f last)
  have hn : (f.opDestroy last).numBlocks = f.numBlocks :=
    congrArg List.length (opDestroy_blocks f last)
  rw [popDestroyed, block_modBlock (hn ▸ hb), hblk, hblk]

theorem ops_popDestroyed (hb : b < f.numBlocks) (last : OpId) (v : BlockId) :
    ((f.popDestroyed b last).block v).ops.Sublist (f.block v).ops := by
  rw [block_popDestroyed hb]
  split_ifs with hv
  · rw [hv]
    exact List.dropLast_sublist _
  · exact List.Sublist.refl _

theorem sameEdges_popDestroyed (hb : b < f.numBlocks) (last : OpId) :
    SameEdges f (f.popDestroyed b last) := fun v => by
  rw [block_popDestroyed hb]
  split_ifs with hv
  · rw [hv]
    exact ⟨rfl, rfl⟩
  · exact ⟨rfl, rfl⟩

theorem Homed.popDestroyed (h : f.Homed) (hb : b < f.numBlocks) (last : OpId) :
    (f.popDestroyed b last).Homed where
  listed v p hp := by
    refine lt_of_lt_of_eq (h.listed v p ((ops_popDestroyed hb last v).subset hp)) ?_
    exact (opDestroy_numOps f last).symm
  parent v p hp := by
    refine Eq.trans ?_ (h.parent v p ((ops_popDestroyed hb last v).subset hp))
    change ((f.opDestroy last).op p).parent = _
    by_cases hpl : p = last
    · rw [hpl, opDestroy_parent]
    · rw [opDestroy_op_ne f hpl]
  nodup v := (h.nodup v).sublist (ops_popDestroyed hb last v)

theorem phisKept_popDestroyed (hb : b < f.numBlocks) (last : OpId) :
    PhisKept f (f.popDestroyed b last) := fun v p hp => by
  obtain ⟨hmem, hlive, hcode⟩ := mem_multis.mp hp
  have hne : p ≠ last := fun he => by
    have hdead : ((f.popDestroyed b last).op p).dead = true := he ▸ opDestroy_dead f last
    rw [hlive] at hdead
    cases hdead
  have hop : (f.popDestroyed b last).op p = f.op p := opDestroy_op_ne f hne
  rw [hop] at hlive hcode ⊢
  exact ⟨mem_multis.mpr ⟨(ops_popDestroyed hb last v).subset hmem, hlive, hcode⟩, rfl⟩

/-- What is kept when a jump may go. -/
structure Trims (f f' : Funcdata) : Prop where
  edges : SameEdges f f'
  homed : f.Homed → f'.Homed
  phis : PhisKept f f'
  numBlocks : f'.numBlocks = f.numBlocks

theorem Trims.refl (f : Funcdata) : Trims f f :=
  ⟨fun _ => ⟨rfl, rfl⟩, id, fun _ _ hp => ⟨hp, rfl⟩, rfl⟩

theorem trims_popDestroyed (hb : b < f.numBlocks) (last : OpId) :
    Trims f (f.popDestroyed b last) where
  edges := sameEdges_popDestroyed hb last
  homed h := h.popDestroyed hb last
  phis := phisKept_popDestroyed hb last
  numBlocks := (numBlocks_modBlock ..).trans (congrArg List.length (opDestroy_blocks f last))

theorem lt_of_getLast? (h : (f.block b).ops.getLast? = some o) : b < f.numBlocks := by
  by_contra hb
  rw [block, List.getD_eq_default _ _ (not_lt.mp hb)] at h
  cases h

theorem trims_dropDecision (f : Funcdata) (b : BlockId) : Trims f (f.dropDecision b) := by
  unfold dropDecision
  cases hl : (f.block b).ops.getLast? with
  | none => exact .refl f
  | some last =>
    dsimp only
    split_ifs
    · exact trims_popDestroyed (lt_of_getLast? hl) last
    · exact .refl f

theorem trims_dropJump (f : Funcdata) (b : BlockId) : Trims f (f.dropJump b) := by
  unfold dropJump
  cases hl : (f.block b).ops.getLast? with
  | none => exact .refl f
  | some last =>
    dsimp only
    split_ifs
    · exact trims_popDestroyed (lt_of_getLast? hl) last
    · exact .refl f

/-! MULTIEQUALs that lose an input. -/

/-- The MULTIEQUALs among the ops of `l` lose input `i`, if they stay MULTIEQUALs at all; the other
ops keep their inputs. -/
structure Shrinks (f f' : Funcdata) (l : List OpId) (i : ℕ) : Prop where
  blocks : f'.blocks = f.blocks
  numOps : f'.numOps = f.numOps
  dead : ∀ o, (f'.op o).dead = (f.op o).dead
  parent : ∀ o, (f'.op o).parent = (f.op o).parent
  opcode : ∀ o, (f'.op o).opcode = .multiequal → (f.op o).opcode = .multiequal
  inrefs : ∀ o, (f'.op o).opcode = .multiequal →
    (f'.op o).inrefs = if o ∈ l then (f.op o).inrefs.eraseIdx i else (f.op o).inrefs

theorem Shrinks.refl (f : Funcdata) (i : ℕ) : Shrinks f f [] i :=
  ⟨rfl, rfl, fun _ => rfl, fun _ => rfl, fun _ h => h, fun _ _ => (if_neg List.not_mem_nil).symm⟩

theorem Shrinks.cons {l : List OpId} (h : Shrinks f f' [op] i) (h' : Shrinks f' f'' l i)
    (hop : op ∉ l) : Shrinks f f'' (op :: l) i where
  blocks := h'.blocks.trans h.blocks
  numOps := h'.numOps.trans h.numOps
  dead o := (h'.dead o).trans (h.dead o)
  parent o := (h'.parent o).trans (h.parent o)
  opcode o ho := h.opcode o (h'.opcode o ho)
  inrefs o ho := by
    rw [h'.inrefs o ho, h.inrefs o (h'.opcode o ho)]
    by_cases he : o = op
    · subst he
      rw [if_neg hop, if_pos (List.mem_singleton_self o), if_pos List.mem_cons_self]
    · rw [if_neg fun hm => he (List.mem_singleton.mp hm)]
      simp only [List.mem_cons, he, false_or]

theorem Rewires.shrinks (h : Rewires f f' {op}) (hop : (f'.op op).opcode = .multiequal →
    (f'.op op).inrefs = (f.op op).inrefs.eraseIdx i) : Shrinks f f' [op] i where
  blocks := h.blocks
  numOps := h.numOps
  dead := h.dead
  parent := h.parent
  opcode o ho := (h.opcode o).symm.trans ho
  inrefs o ho := by
    simp only [List.mem_singleton]
    split_ifs with he
    · subst he
      exact hop ho
    · exact h.inrefs o he

/-- An op that is no MULTIEQUAL any more may have any inputs. -/
theorem Rewires.shrinks_copy (h : Rewires f f' {op}) :
    Shrinks f (f'.opSetOpcode op .copy) [op] i where
  blocks := h.blocks
  numOps := h.numOps
  dead o := by
    rw [← h.dead, opSetOpcode, modOp_op]
    split_ifs with he
    · rw [he]
    · rfl
  parent o := by
    rw [← h.parent, opSetOpcode, modOp_op]
    split_ifs with he
    · rw [he]
    · rfl
  opcode o ho := by
    rw [opSetOpcode, modOp_op] at ho
    split_ifs at ho
    exact (h.opcode o).symm.trans ho
  inrefs o ho := by
    rw [opSetOpcode, modOp_op] at ho ⊢
    simp only [List.mem_singleton]
    split_ifs at ho with he
    rw [if_neg he, if_neg he]
    exact h.inrefs o he

theorem shrinks_dropBranch {unaffected : Address → ℕ → Bool}
    (h : f.dropBranch unaffected i op = some f') : Shrinks f f' [op] i := by
  unfold dropBranch opZeroMulti at h
  split_ifs at h
  have hr : Rewires f (f.opRemoveInput op i) {op} :=
    .opRemoveInput f (Set.mem_singleton op) i
  split at h
  · obtain ⟨out, -, h⟩ := Option.bind_eq_some_iff.mp h
    dsimp only at h
    rw [← Option.some.inj h]
    exact ((hr.trans (.newInput _ unaffected _ _)).trans (.opSetAllInput _ (Set.mem_singleton op) _)).shrinks_copy
  · rw [← Option.some.inj h]
    exact hr.shrinks_copy
  · rw [← Option.some.inj h]
    refine hr.shrinks fun _ => ?_
    rw [opRemoveInput_op_self]

theorem shrinks_foldlM_dropBranch {unaffected : Address → ℕ → Bool} {l : List OpId}
    (hl : l.Nodup) (h : l.foldlM (fun g o => g.dropBranch unaffected i o) f = some f') :
    Shrinks f f' l i := by
  induction l generalizing f with
  | nil =>
    rw [List.foldlM_nil] at h
    rw [← Option.some.inj h]
    exact .refl f i
  | cons o l ih =>
    rw [List.foldlM_cons] at h
    obtain ⟨g, hg, h⟩ := Option.bind_eq_some_iff.mp h
    obtain ⟨hol, hl⟩ := List.nodup_cons.mp hl
    exact (shrinks_dropBranch hg).cons (ih hl h) hol

/-! Cloning the ops of a block. -/

theorem Rewires.uniqueConstants (l : List VarnodeId) (f : Funcdata) :
    Rewires f (f.uniqueConstants l).1 S ∧ (f.uniqueConstants l).1.op = f.op := by
  induction l generalizing f with
  | nil => exact ⟨.refl f, rfl⟩
  | cons u l ih =>
    obtain ⟨hr, ho⟩ := ih (f.uniqueConstantFor u).1
    exact ⟨(Rewires.uniqueConstantFor f u).trans hr, ho.trans (uniqueConstantFor_op f u)⟩

/-- `f'` is `f` with the new op `f.numOps`, which is in no block. -/
structure Grows (f f' : Funcdata) (opcode : OpCode) : Prop where
  blocks : f'.blocks = f.blocks
  numOps : f'.numOps = f.numOps + 1
  old : ∀ o ≠ f.numOps, f'.op o = f.op o
  opcode : (f'.op f.numOps).opcode = opcode
  dead : (f'.op f.numOps).dead = false

theorem grows_newOp (f : Funcdata) (opcode : OpCode) (seqnum : SeqNum) (inputs : List VarnodeId) :
    Grows f (f.newOp opcode seqnum inputs).1 opcode := by
  obtain ⟨hr, hop⟩ := Rewires.uniqueConstants (S := ∅) inputs f
  have hfold : ∀ (l : List VarnodeId) (g : Funcdata),
      (l.foldl (fun g v => g.addDescend v f.numOps) g).blocks = g.blocks ∧
      (l.foldl (fun g v => g.addDescend v f.numOps) g).op = g.op := by
    intro l
    induction l with
    | nil => exact fun g => ⟨rfl, rfl⟩
    | cons u l ih => exact fun g => ih _
  obtain ⟨hblocks, hops⟩ := hfold (f.uniqueConstants inputs).2 (f.uniqueConstants inputs).1
  refine ⟨hblocks.trans hr.blocks, rfl, fun o ho => ?_, ?_, ?_⟩
  · refine (Function.update_of_ne ho _ _).trans ?_
    rw [hops, hop]
  · simp only [newOp, Function.update_self]
  · simp only [newOp, Function.update_self]

/-- An edit of the new op that is no change of what kind of op it is. -/
theorem Grows.modOp {opcode : OpCode} (h : Grows f f' opcode) {k : PcodeOp → PcodeOp}
    (hc : ∀ x, (k x).opcode = x.opcode) (hd : ∀ x, (k x).dead = x.dead) :
    Grows f (f'.modOp f.numOps k) opcode where
  blocks := h.blocks
  numOps := h.numOps
  old o ho := by rw [modOp_op, if_neg ho, h.old o ho]
  opcode := by rw [modOp_op, if_pos rfl, hc, h.opcode]
  dead := by rw [modOp_op, if_pos rfl, hd, h.dead]

theorem Grows.modVn {opcode : OpCode} (h : Grows f f' opcode) (u : VarnodeId)
    (k : Varnode → Varnode) : Grows f (f'.modVn u k) opcode := ⟨h.blocks, h.numOps, h.old, h.opcode, h.dead⟩

theorem Grows.newOutput {opcode : OpCode} (h : Grows f f' opcode) (size : ℕ) (loc : Address) :
    Grows f (f'.newOutput f.numOps size loc).1 opcode := by
  have hfree : Grows f (((f'.op f.numOps).output.elim f' f'.makeFree).allocVarnode size loc false)
      opcode := by
    cases (f'.op f.numOps).output with
    | none => exact ⟨h.blocks, h.numOps, h.old, h.opcode, h.dead⟩
    | some u => exact ⟨h.blocks, h.numOps, h.old, h.opcode, h.dead⟩
  unfold Funcdata.newOutput
  dsimp only
  refine Grows.modOp ?_ (fun _ => rfl) fun _ => rfl
  exact hfree.modVn _ _

/-- `f'` is `f` with clones of some ops in `bprime`: `clones` lists each with the op it is of. -/
structure Clones (f f' : Funcdata) (bprime : BlockId) (clones : List (OpId × OpId)) : Prop where
  edges : SameEdges f f'
  numBlocks : f'.numBlocks = f.numBlocks
  ops : ∀ v ≠ bprime, (f'.block v).ops = (f.block v).ops
  perm : (f'.block bprime).ops.Perm ((f.block bprime).ops ++ clones.map Prod.fst)
  numOps : f.numOps ≤ f'.numOps
  old : ∀ o < f.numOps, f'.op o = f.op o
  ge : ∀ c ∈ clones, f.numOps ≤ c.1
  lt : ∀ c ∈ clones, c.1 < f'.numOps
  opcode : ∀ c ∈ clones, (f'.op c.1).opcode = (f.op c.2).opcode
  parent : ∀ c ∈ clones, (f'.op c.1).parent = some bprime
  nodup : (clones.map Prod.fst).Nodup

theorem block_opInsertEnd (f : Funcdata) (hb : bprime < f.numBlocks) (op : OpId) :
    ∃ ops, ops.Perm (op :: (f.block bprime).ops) ∧ ∀ v, (f.opInsertEnd op bprime).block v =
      if v = bprime then { f.block bprime with ops := ops } else f.block v := by
  unfold opInsertEnd
  dsimp only
  refine ⟨_, ?_, fun v => block_modBlock (f := f.modOp op _) hb _ v⟩
  refine List.perm_insertIdx _ _ ?_
  change _ ≤ (f.block bprime).ops.length
  split_ifs
  · exact Nat.sub_le _ _
  · exact le_rfl

theorem opInsertEnd_op (f : Funcdata) (op o : OpId) : (f.opInsertEnd op bprime).op o =
    if o = op then { f.op op with parent := some bprime } else f.op o := by
  unfold opInsertEnd
  dsimp only
  rw [modBlock_op, modOp_op]

/-- The new op takes its place at the end of `bprime`. -/
theorem Grows.insertEnd {orig : OpId} (h : Grows f f' (f.op orig).opcode)
    (hb : bprime < f.numBlocks) :
    Clones f (f'.opInsertEnd f.numOps bprime) bprime [(f.numOps, orig)] := by
  have hn : f'.numBlocks = f.numBlocks := congrArg List.length h.blocks
  have hblk : ∀ v, f'.block v = f.block v := fun v =>
    congrArg (fun l : List BlockBasic => l.getD v default) h.blocks
  obtain ⟨ops, hperm, hops⟩ := block_opInsertEnd f' (hn ▸ hb) f.numOps
  refine ⟨fun v => ?_, ?_, fun v hv => ?_, ?_, ?_, fun o ho => ?_, ?_, ?_, ?_, ?_, ?_⟩
  · rw [hops]
    split_ifs with hv
    · rw [hv, hblk]
      exact ⟨rfl, rfl⟩
    · rw [hblk]
      exact ⟨rfl, rfl⟩
  · exact (numBlocks_modBlock (f'.modOp f.numOps _) bprime _).trans hn
  · rw [hops, if_neg hv, hblk]
  · rw [hops, if_pos rfl]
    rw [hblk] at hperm
    exact hperm.trans (List.perm_append_singleton _ _).symm
  · exact Nat.le_of_lt (lt_of_lt_of_eq (Nat.lt_succ_self _) h.numOps.symm)
  · rw [opInsertEnd_op, if_neg ho.ne, h.old o ho.ne]
  · intro c hc
    rw [List.mem_singleton.mp hc]
  · intro c hc
    rw [List.mem_singleton.mp hc]
    exact lt_of_lt_of_eq (Nat.lt_succ_self _) h.numOps.symm
  · intro c hc
    rw [List.mem_singleton.mp hc, opInsertEnd_op, if_pos rfl]
    exact h.opcode
  · intro c hc
    rw [List.mem_singleton.mp hc, opInsertEnd_op, if_pos rfl]
  · exact List.nodup_singleton _

theorem Grows.cloneOutput {opcode : OpCode} (h : Grows f f' opcode) (orig : OpId) :
    Grows f (f'.cloneOutput f.numOps orig) opcode := by
  unfold Funcdata.cloneOutput
  cases (f'.op orig).output with
  | none => exact h
  | some opvn => exact (h.newOutput _ _).modVn _ _

theorem clones_cloneOp (f : Funcdata) (hb : bprime < f.numBlocks) (orig : OpId) :
    Clones f (f.cloneOp bprime orig).1 bprime [((f.cloneOp bprime orig).2, orig)] := by
  have hflags : Grows f ((f.newOp (f.op orig).opcode ⟨(f.op orig).seqnum.pc, f.numOps⟩
      (f.op orig).inrefs).1.keepOpFlags f.numOps orig) (f.op orig).opcode :=
    (grows_newOp _ _ _ _).modOp (fun _ => rfl) fun _ => rfl
  exact (hflags.cloneOutput orig).insertEnd hb

theorem Clones.nil (f : Funcdata) (bprime : BlockId) : Clones f f bprime [] where
  edges _ := ⟨rfl, rfl⟩
  numBlocks := rfl
  ops _ _ := rfl
  perm := by rw [List.map_nil, List.append_nil]
  numOps := le_rfl
  old _ _ := rfl
  ge _ hc := absurd hc List.not_mem_nil
  lt _ hc := absurd hc List.not_mem_nil
  opcode _ hc := absurd hc List.not_mem_nil
  parent _ hc := absurd hc List.not_mem_nil
  nodup := List.nodup_nil

theorem Clones.cons {c : OpId × OpId} {l : List (OpId × OpId)} (h : Clones f f' bprime [c])
    (h' : Clones f' f'' bprime l) (hl : ∀ c ∈ l, c.2 < f.numOps) : Clones f f'' bprime (c :: l) where
  edges v := ⟨(h'.edges v).1.trans (h.edges v).1, (h'.edges v).2.trans (h.edges v).2⟩
  numBlocks := h'.numBlocks.trans h.numBlocks
  ops v hv := (h'.ops v hv).trans (h.ops v hv)
  perm := by
    have hp := h'.perm.trans (h.perm.append_right (l.map Prod.fst))
    rwa [List.append_assoc] at hp
  numOps := h.numOps.trans h'.numOps
  old o ho := (h'.old o (ho.trans_le h.numOps)).trans (h.old o ho)
  ge x hx := by
    rcases List.mem_cons.mp hx with rfl | hx
    · exact h.ge x (List.mem_singleton_self x)
    · exact h.numOps.trans (h'.ge x hx)
  lt x hx := by
    rcases List.mem_cons.mp hx with rfl | hx
    · exact (h.lt x (List.mem_singleton_self x)).trans_le h'.numOps
    · exact h'.lt x hx
  opcode x hx := by
    rcases List.mem_cons.mp hx with rfl | hx
    · rw [h'.old _ (h.lt x (List.mem_singleton_self x))]
      exact h.opcode x (List.mem_singleton_self x)
    · rw [h'.opcode x hx, h.old _ (hl x hx)]
  parent x hx := by
    rcases List.mem_cons.mp hx with rfl | hx
    · rw [h'.old _ (h.lt x (List.mem_singleton_self x))]
      exact h.parent x (List.mem_singleton_self x)
    · exact h'.parent x hx
  nodup := by
    refine List.nodup_cons.mpr ⟨fun hm => ?_, h'.nodup⟩
    obtain ⟨x, hx, hxc⟩ := List.mem_map.mp hm
    have hlt := h.lt c (List.mem_singleton_self c)
    exact absurd (h'.ge x hx) (not_le.mpr (hxc ▸ hlt))

theorem clones_cloneOps {l : List OpId} {clones : List (OpId × OpId)}
    (hb : bprime < f.numBlocks) (hl : ∀ o ∈ l, o < f.numOps)
    (h : cloneOps bprime f l = some (f', clones)) :
    Clones f f' bprime clones ∧
      clones.map Prod.snd = l.filter fun o => !(f.op o).opcode.isBranch := by
  induction l generalizing f clones with
  | nil =>
    rw [cloneOps] at h
    obtain ⟨rfl, rfl⟩ := Prod.mk.inj (Option.some.inj h)
    exact ⟨.nil f bprime, rfl⟩
  | cons orig l ih =>
    rw [cloneOps] at h
    split_ifs at h with hbr
    · obtain ⟨hc, hsnd⟩ := ih hb (fun o ho => hl o (List.mem_cons_of_mem _ ho)) h
      rw [List.filter_cons, hbr]
      exact ⟨hc, hsnd⟩
    · dsimp only at h
      obtain ⟨⟨g, rest⟩, hg, h⟩ := Option.map_eq_some_iff.mp h
      obtain ⟨rfl, rfl⟩ := Prod.mk.inj h
      have hone := clones_cloneOp f hb orig
      have hl' : ∀ o ∈ l, o < f.numOps := fun o ho => hl o (List.mem_cons_of_mem _ ho)
      obtain ⟨hc, hsnd⟩ := ih (hone.numBlocks ▸ hb) (fun o ho => (hl' o ho).trans_le hone.numOps) hg
      have hfilter : (l.filter fun o => !((f.cloneOp bprime orig).1.op o).opcode.isBranch) =
          l.filter fun o => !(f.op o).opcode.isBranch :=
        List.filter_congr fun o ho => by rw [hone.old o (hl' o ho)]
      rw [hfilter] at hsnd
      refine ⟨hone.cons hc fun c hc' => hl' c.2 ?_, ?_⟩
      · exact List.mem_of_mem_filter (hsnd ▸ List.mem_map_of_mem hc')
      · rw [List.map_cons, hsnd, List.filter_cons, Bool.eq_false_iff.mpr hbr]
        rfl

/-- The clones are patched: the MULTIEQUALs that were cloned lose input `i`, and their clones are none
any more. -/
structure Patches (f f' : Funcdata) (l : List (OpId × OpId)) (i : ℕ) : Prop where
  blocks : f'.blocks = f.blocks
  numOps : f'.numOps = f.numOps
  dead : ∀ o, (f'.op o).dead = (f.op o).dead
  parent : ∀ o, (f'.op o).parent = (f.op o).parent
  opcode : ∀ o, (f'.op o).opcode = .multiequal → (f.op o).opcode = .multiequal
  inrefs : ∀ o, o ∉ l.map Prod.fst → (f'.op o).opcode = .multiequal → (f'.op o).inrefs =
    if o ∈ l.map Prod.snd then (f.op o).inrefs.eraseIdx i else (f.op o).inrefs
  clone : ∀ c ∈ l, (f'.op c.1).opcode ≠ .multiequal
  other : ∀ o, o ∉ l.map Prod.fst → o ∉ l.map Prod.snd → (f'.op o).opcode = (f.op o).opcode

theorem Patches.nil (f : Funcdata) (i : ℕ) : Patches f f [] i where
  blocks := rfl
  numOps := rfl
  dead _ := rfl
  parent _ := rfl
  opcode _ h := h
  inrefs _ _ _ := (if_neg List.not_mem_nil).symm
  clone _ hc := absurd hc List.not_mem_nil
  other _ _ _ := rfl

theorem Patches.cons {c : OpId × OpId} {l : List (OpId × OpId)} (h : Patches f f' [c] i)
    (h' : Patches f' f'' l i) (hsnd : c.2 ∉ l.map Prod.snd) : Patches f f'' (c :: l) i where
  blocks := h'.blocks.trans h.blocks
  numOps := h'.numOps.trans h.numOps
  dead o := (h'.dead o).trans (h.dead o)
  parent o := (h'.parent o).trans (h.parent o)
  opcode o ho := h.opcode o (h'.opcode o ho)
  inrefs o hfst ho := by
    rw [List.map_cons, List.mem_cons, not_or] at hfst
    have h1 := h.inrefs o (fun hm => hfst.1 (List.mem_singleton.mp hm)) (h'.opcode o ho)
    rw [h'.inrefs o hfst.2 ho, h1]
    simp only [List.map_cons, List.map_nil, List.mem_cons, List.not_mem_nil, or_false]
    by_cases he : o = c.2
    · subst he
      simp only [hsnd, if_true, if_false, true_or]
    · simp only [he, if_false, false_or]
  clone x hx := by
    rcases List.mem_cons.mp hx with rfl | hx
    · exact fun ho => h.clone x (List.mem_singleton_self x) (h'.opcode _ ho)
    · exact h'.clone x hx
  other o hfst hsnd' := by
    rw [List.map_cons, List.mem_cons, not_or] at hfst hsnd'
    rw [h'.other o hfst.2 hsnd'.2]
    exact h.other o (fun hm => hfst.1 (List.mem_singleton.mp hm)) fun hm =>
      hsnd'.1 (List.mem_singleton.mp hm)

theorem Rewires.iterate (k : Funcdata → Funcdata) (hk : ∀ g, Rewires g (k g) S) (n : ℕ)
    (f : Funcdata) : Rewires f (k^[n] f) S := by
  induction n generalizing f with
  | zero => exact .refl f
  | succ n ih => exact (hk f).trans (ih (k f))

theorem opSetOpcode_kind (f : Funcdata) (op o : OpId) (c : OpCode) :
    ((f.opSetOpcode op c).op o).dead = (f.op o).dead ∧
      ((f.opSetOpcode op c).op o).parent = (f.op o).parent ∧
      ((f.opSetOpcode op c).op o).inrefs = (f.op o).inrefs := by
  rw [opSetOpcode, modOp_op]
  split_ifs with he
  · rw [he]
    exact ⟨rfl, rfl, rfl⟩
  · exact ⟨rfl, rfl, rfl⟩

theorem opSetOpcode_opcode (f : Funcdata) (op o : OpId) (c : OpCode) :
    ((f.opSetOpcode op c).op o).opcode = if o = op then c else (f.op o).opcode := by
  rw [opSetOpcode, modOp_op]
  split_ifs
  · rfl
  · rfl

/-- What a MULTIEQUAL becomes when one of its inputs went: a COPY, if one is left. -/
def collapse (f : Funcdata) (op : OpId) : Funcdata :=
  if (f.op op).inrefs.length = 1 then f.opSetOpcode op .copy else f

theorem collapse_kind (f : Funcdata) (op o : OpId) : ((f.collapse op).op o).dead = (f.op o).dead ∧
    ((f.collapse op).op o).parent = (f.op o).parent ∧
    ((f.collapse op).op o).inrefs = (f.op o).inrefs := by
  unfold collapse
  split_ifs
  · exact opSetOpcode_kind f op o .copy
  · exact ⟨rfl, rfl, rfl⟩

theorem collapse_opcode (f : Funcdata) (op o : OpId) :
    (((f.collapse op).op o).opcode = .multiequal → (f.op o).opcode = .multiequal) ∧
      (o ≠ op → ((f.collapse op).op o).opcode = (f.op o).opcode) := by
  unfold collapse
  split_ifs
  · rw [opSetOpcode_opcode]
    split_ifs with he
    · exact ⟨False.elim, fun h => absurd he h⟩
    · exact ⟨id, fun _ => rfl⟩
  · exact ⟨id, fun _ => rfl⟩

theorem collapse_blocks (f : Funcdata) (op : OpId) :
    (f.collapse op).blocks = f.blocks ∧ (f.collapse op).numOps = f.numOps := by
  unfold collapse
  split_ifs
  · exact ⟨rfl, rfl⟩
  · exact ⟨rfl, rfl⟩

theorem patches_splitMultiequal {c : OpId × OpId} (hne : c.1 ≠ c.2)
    (h : f.splitMultiequal c.1 c.2 i = some f') : Patches f f' [c] i := by
  unfold splitMultiequal at h
  obtain ⟨pick, -, h⟩ := Option.bind_eq_some_iff.mp h
  dsimp only at h
  have hpop : Rewires f ((fun g => g.opRemoveInput c.1 1)^[(f.op c.1).inrefs.length - 1] f) {c.1} :=
    .iterate _ (fun g => .opRemoveInput g (Set.mem_singleton _) 1) _ f
  generalize (fun g => g.opRemoveInput c.1 1)^[(f.op c.1).inrefs.length - 1] f = g at hpop h
  have hset : Rewires (g.opSetOpcode c.1 .copy) ((g.opSetOpcode c.1 .copy).opSetInput c.1 0 pick)
      {c.1} := .opSetInput _ (Set.mem_singleton _) 0 pick
  generalize (g.opSetOpcode c.1 .copy).opSetInput c.1 0 pick = k at hset h
  have hrem : Rewires k (k.opRemoveInput c.2 i) {c.2} := .opRemoveInput k (Set.mem_singleton _) i
  have hself := opRemoveInput_op_self k c.2 i
  generalize k.opRemoveInput c.2 i = m at hrem hself h
  rw [← Option.some.inj h]
  change Patches f (m.collapse c.2) [c] i
  have hcode : ∀ o, (m.op o).opcode = if o = c.1 then .copy else (f.op o).opcode := fun o => by
    rw [hrem.opcode, hset.opcode, opSetOpcode_opcode, hpop.opcode]
  have hin : ∀ o, o ≠ c.1 → (k.op o).inrefs = (f.op o).inrefs := fun o ho => by
    rw [hset.inrefs o ho, (opSetOpcode_kind g c.1 o .copy).2.2, hpop.inrefs o ho]
  constructor
  · rw [(collapse_blocks m c.2).1, hrem.blocks, hset.blocks]
    exact hpop.blocks
  · rw [(collapse_blocks m c.2).2, hrem.numOps, hset.numOps]
    exact hpop.numOps
  · intro o
    rw [(collapse_kind m c.2 o).1, hrem.dead, hset.dead, (opSetOpcode_kind g c.1 o .copy).1, hpop.dead]
  · intro o
    rw [(collapse_kind m c.2 o).2.1, hrem.parent, hset.parent,
      (opSetOpcode_kind g c.1 o .copy).2.1, hpop.parent]
  · intro o ho
    have ho := (collapse_opcode m c.2 o).1 ho
    rw [hcode] at ho
    split_ifs at ho
    exact ho
  · intro o hfst _
    have hne' : o ≠ c.1 := fun he => hfst (List.mem_singleton.mpr he)
    rw [(collapse_kind m c.2 o).2.2]
    simp only [List.map_cons, List.map_nil, List.mem_singleton]
    split_ifs with he
    · rw [he, hself, hin _ hne.symm]
    · rw [hrem.inrefs o he, hin o hne']
  · intro x hx ho
    rw [List.mem_singleton.mp hx] at ho
    have ho := (collapse_opcode m c.2 c.1).1 ho
    rw [hcode, if_pos rfl] at ho
    cases ho
  · intro o hfst hsnd
    have hne' : o ≠ c.1 := fun he => hfst (List.mem_singleton.mpr he)
    rw [(collapse_opcode m c.2 o).2 fun he => hsnd (List.mem_singleton.mpr he), hcode, if_neg hne']

theorem Rewires.cloneInput {clones : List (OpId × OpId)} {u : VarnodeId} {r : Funcdata × VarnodeId}
    {orig : OpId} (h : f.cloneInput clones orig i u = some r) : Rewires f r.1 S := by
  unfold Funcdata.cloneInput at h
  split_ifs at h
  · rw [← Option.some.inj h]
    exact .refl f
  · rw [← Option.some.inj h]
    exact .of_op_eq rfl rfl rfl
  · rw [← Option.some.inj h]
    exact .of_op_eq rfl rfl rfl
  · split at h
    · rw [← Option.some.inj h]
      exact .refl f
    · obtain ⟨out, -, rfl⟩ := Option.map_eq_some_iff.mp h
      exact .refl f

theorem Rewires.foldlM {α : Type*} {k : Funcdata → α → Option Funcdata}
    (hk : ∀ g g' x, k g x = some g' → Rewires g g' S) {l : List α}
    (h : l.foldlM k f = some f') : Rewires f f' S := by
  induction l generalizing f with
  | nil =>
    rw [List.foldlM_nil] at h
    rw [← Option.some.inj h]
    exact .refl f
  | cons x l ih =>
    rw [List.foldlM_cons] at h
    obtain ⟨g, hg, h⟩ := Option.bind_eq_some_iff.mp h
    exact (hk f g x hg).trans (ih h)

theorem patches_patchInputs {clones : List (OpId × OpId)} {c : OpId × OpId} (hne : c.1 ≠ c.2)
    (hcode : (f.op c.1).opcode = (f.op c.2).opcode)
    (h : f.patchInputs clones i c = some f') : Patches f f' [c] i := by
  unfold patchInputs at h
  split_ifs at h with hm
  · exact patches_splitMultiequal hne h
  · have hr : Rewires f f' {c.1} := by
      refine .foldlM (fun g g' j hg => ?_) h
      obtain ⟨u, -, hg⟩ := Option.bind_eq_some_iff.mp hg
      obtain ⟨r, hr, hg⟩ := Option.bind_eq_some_iff.mp hg
      rw [← Option.some.inj hg]
      exact (Rewires.cloneInput hr).trans (.opSetInput _ (Set.mem_singleton _) j _)
    refine ⟨hr.blocks, hr.numOps, hr.dead, hr.parent, fun o ho => (hr.opcode o).symm.trans ho,
      fun o hfst ho => ?_, fun x hx ho => ?_, fun o _ _ => hr.opcode o⟩
    · rw [hr.inrefs o fun he => hfst (List.mem_singleton.mpr he), if_neg fun he => ?_]
      rw [List.map_singleton, List.mem_singleton] at he
      rw [hr.opcode, he] at ho
      exact hm ho
    · rw [List.mem_singleton.mp hx, hr.opcode, hcode] at ho
      exact hm ho

theorem patches_foldlM {clones l : List (OpId × OpId)}
    (hcode : ∀ c ∈ l, (f.op c.1).opcode = (f.op c.2).opcode) (hfst : (l.map Prod.fst).Nodup)
    (hsnd : (l.map Prod.snd).Nodup) (hne : ∀ c ∈ l, ∀ d ∈ l, c.1 ≠ d.2)
    (h : l.foldlM (fun g c => g.patchInputs clones i c) f = some f') : Patches f f' l i := by
  induction l generalizing f with
  | nil =>
    rw [List.foldlM_nil] at h
    rw [← Option.some.inj h]
    exact .nil f i
  | cons c l ih =>
    rw [List.foldlM_cons] at h
    obtain ⟨g, hg, h⟩ := Option.bind_eq_some_iff.mp h
    have hc := List.mem_cons_self (a := c) (l := l)
    have hone := patches_patchInputs (hne c hc c hc) (hcode c hc) hg
    obtain ⟨hfc, hfst⟩ := List.nodup_cons.mp hfst
    obtain ⟨hsc, hsnd⟩ := List.nodup_cons.mp hsnd
    refine hone.cons (ih (fun d hd => ?_) hfst hsnd (fun d hd d' hd' => ?_) h) hsc
    · -- the ops of another pair are not touched
      have hd' := List.mem_cons_of_mem c hd
      have hd1 : d.1 ∉ [c].map Prod.fst := fun hm =>
        hfc (List.mem_singleton.mp hm ▸ List.mem_map_of_mem hd)
      have hd2 : d.2 ∉ [c].map Prod.snd := fun hm =>
        hsc (List.mem_singleton.mp hm ▸ List.mem_map_of_mem hd)
      rw [hone.other d.1 hd1 fun hm => hne d hd' c hc (List.mem_singleton.mp hm),
        hone.other d.2 (fun hm => hne c hc d hd' (List.mem_singleton.mp hm).symm) hd2]
      exact hcode d hd'
    · exact hne d (List.mem_cons_of_mem _ hd) d' (List.mem_cons_of_mem _ hd')

end Funcdata
end Mosura
