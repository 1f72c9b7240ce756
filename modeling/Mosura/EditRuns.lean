import Mosura.DefUseRuns

/-! Runs of editing primitives, and what they keep of definitions and uses. -/

namespace Mosura
namespace Funcdata

variable {f : Funcdata} {v : VarnodeId} {op : OpId}

/-! Combining two halves of an input. -/

theorem Linked.dropLows (pieces : List OpId) {f f' : Funcdata} (h : f.Linked)
    (he : f.dropLows pieces = some f') :
    f'.Linked ∧ f'.numVarnodes = f.numVarnodes := by
  induction pieces generalizing f with
  | nil =>
    cases Option.some.inj he
    exact ⟨h, rfl⟩
  | cons p l ih =>
    unfold Funcdata.dropLows at he
    rw [List.foldlM_cons] at he
    obtain ⟨g, hg, hrest⟩ := Option.bind_eq_some_iff.mp he
    split_ifs at hg
    cases hg
    obtain ⟨hlinked, hnum⟩ := ih (h.opRemoveInput p 1) hrest
    refine ⟨hlinked, hnum.trans ?_⟩
    unfold Funcdata.opRemoveInput
    cases (f.op p).input 1 with
    | none => rfl
    | some w => rfl

theorem totalReplace_numVarnodes (f : Funcdata) (old new : VarnodeId) :
    (f.totalReplace old new).numVarnodes = f.numVarnodes := by
  have hfold : ∀ (l : List OpId) (g : Funcdata),
      (l.foldl (fun g op => g.replaceIn old new op) g).numVarnodes = g.numVarnodes := by
    intro l
    induction l with
    | nil => exact fun _ => rfl
    | cons o l ih => exact fun g => ih _
  exact hfold _ _

/-- The SUBPIECE reads the half and a fresh offset, and all other readers of the half read it. -/
theorem Linked.subpieceFor (h : f.Linked) (start : Option Address) {half : VarnodeId}
    (hhalf : half < f.numVarnodes) (offset : ℕ) :
    (f.subpieceFor start half offset).1.Linked ∧
      f.numVarnodes ≤ (f.subpieceFor start half offset).1.numVarnodes := by
  unfold Funcdata.subpieceFor
  have hconst : (f.newConst 4 (BitVec.ofNat 64 offset)).1.Linked := Books.allocVarnode h _ _ _
  have hnum : (f.newConst 4 (BitVec.ofNat 64 offset)).1.numVarnodes = f.numVarnodes + 1 := rfl
  have hoff : (f.newConst 4 (BitVec.ofNat 64 offset)).2 = f.numVarnodes := rfl
  generalize f.newConst 4 (BitVec.ofNat 64 offset) = e at *
  obtain ⟨f₁, off⟩ := e
  dsimp only at *
  subst hoff
  have hin : ∀ v ∈ [half, f.numVarnodes], v < f₁.numVarnodes := by
    intro v hv
    rw [hnum]
    rcases List.mem_cons.mp hv with rfl | hv
    · exact hhalf.trans (Nat.lt_succ_self _)
    · rw [List.mem_singleton.mp hv]
      exact Nat.lt_succ_self _
  have hnodup : [half, f.numVarnodes].Nodup := by
    simp only [List.nodup_cons, List.mem_singleton, List.not_mem_nil, not_false_eq_true,
      List.nodup_nil, and_true]
    exact hhalf.ne
  have hun : f₁.Unshared [half, f.numVarnodes] := fun v _ _ _ _ =>
    List.nodup_iff_count_le_one.mp hnodup v
  generalize hseq : (⟨start.getD (f₁.vn half).loc, f₁.numOps⟩ : SeqNum) = seq
  have hop := hconst.newOp .subpiece seq hin hun
  obtain ⟨hkeep, hnumOps, ⟨ids, hself, -⟩, -⟩ := newOp_spec f₁ .subpiece seq hin
  have hid : (f₁.newOp .subpiece seq [half, f.numVarnodes]).2 = f₁.numOps := rfl
  generalize f₁.newOp .subpiece seq [half, f.numVarnodes] = e at *
  obtain ⟨f₂, op⟩ := e
  dsimp only at *
  subst hid
  have hlt : f₁.numOps < f₁.numOps + 1 := Nat.lt_succ_self _
  have hout := hop.newOutput (hlt.trans_eq hnumOps.symm) (f₂.vn half).size (f₂.vn half).loc
  obtain ⟨hkeep', -, hid', hnum', -, -, -, hnewconst⟩ :=
    newOutput_spec f₂ f₁.numOps (f₂.vn half).size (f₂.vn half).loc (by rw [hself])
  generalize f₂.newOutput f₁.numOps (f₂.vn half).size (f₂.vn half).loc = e at *
  obtain ⟨f₃, newvn⟩ := e
  dsimp only at *
  subst hid'
  have hle : f.numVarnodes < f₂.numVarnodes := by
    have hmono := hkeep.le
    omega
  have hne : half ≠ f₂.numVarnodes := (hhalf.trans hle).ne
  have hcan : (f₃.opInsertBegin f₁.numOps 0).CanReplace half f₂.numVarnodes := by
    unfold CanReplace
    rw [if_neg hne]
    intro hc
    have hfalse : ((f₃.opInsertBegin f₁.numOps 0).vn f₂.numVarnodes).constant = false := hnewconst
    rw [hfalse] at hc
    cases hc
  have hnum₃ : (f₃.opInsertBegin f₁.numOps 0).numVarnodes = f₂.numVarnodes + 1 := hnum'
  refine ⟨(hout.opInsertBegin f₁.numOps 0).totalReplace ?_ ?_ hcan, ?_⟩
  · rw [hnum₃]
    exact (hhalf.trans hle).trans (Nat.lt_succ_self _)
  · rw [hnum₃]
    exact Nat.lt_succ_self _
  · rw [totalReplace_numVarnodes, hnum₃]
    exact hle.le.trans (Nat.le_succ _)

theorem Linked.subpieceIf (h : f.Linked) (needed : Bool) (start : Option Address)
    {half : VarnodeId} (hhalf : half < f.numVarnodes) (offset : ℕ) :
    (f.subpieceIf needed start half offset).1.Linked ∧
      f.numVarnodes ≤ (f.subpieceIf needed start half offset).1.numVarnodes := by
  unfold Funcdata.subpieceIf
  split_ifs
  · exact h.subpieceFor start hhalf offset
  · exact ⟨h, le_rfl⟩

theorem applyInputEffect_numVarnodes (f : Funcdata) (unaffected : Address → ℕ → Bool)
    (v : VarnodeId) : (f.applyInputEffect unaffected v).numVarnodes = f.numVarnodes := by
  unfold applyInputEffect
  split_ifs
  · rfl
  · rfl

theorem setInputVarnode_lt (f : Funcdata) (unaffected : Address → ℕ → Bool)
    (hv : v < f.numVarnodes) : (f.setInputVarnode unaffected v).2 <
      (f.setInputVarnode unaffected v).1.numVarnodes := by
  unfold setInputVarnode
  split_ifs
  · exact hv
  · cases hat : f.inputAt (f.vn v).size (f.vn v).loc with
    | some u => exact List.mem_range.mp (List.mem_of_find?_eq_some hat)
    | none =>
      dsimp only
      rw [applyInputEffect_numVarnodes]
      exact hv

/-- A pass that rewires inputs to `v`. -/
theorem Linked.foldl_opSetInput (l : List OpId) {k : Funcdata → OpId → Funcdata}
    (hk : ∀ g o, g.Linked → v < g.numVarnodes → (k g o).Linked ∧ v < (k g o).numVarnodes)
    {f : Funcdata} (h : f.Linked) (hv : v < f.numVarnodes) :
    (l.foldl k f).Linked ∧ v < (l.foldl k f).numVarnodes := by
  induction l generalizing f with
  | nil => exact ⟨h, hv⟩
  | cons o l ih =>
    obtain ⟨hl, hv'⟩ := hk f o h hv
    exact ih hl hv'

theorem Linked.combineInputVarnodes (h : f.Linked) (unaffected : Address → ℕ → Bool)
    {hi lo : VarnodeId} (hhi : hi < f.numVarnodes) (hlo : lo < f.numVarnodes)
    {r : Funcdata × Bool} (he : f.combineInputVarnodes unaffected hi lo = some r) :
    r.1.Linked := by
  unfold Funcdata.combineInputVarnodes at he
  split_ifs at he
  · cases he
    exact h
  · cases he
    exact h
  · obtain ⟨f₁, hdrop, he⟩ := Option.bind_eq_some_iff.mp he
    obtain ⟨entry, -, he⟩ := Option.bind_eq_some_iff.mp he
    obtain ⟨h₁, hnum₁⟩ := Linked.dropLows _ h hdrop
    dsimp only at he
    obtain ⟨h₂, hnum₂⟩ := h₁.subpieceIf
      ((f.vn hi).descend.any fun op => !f.isPieceOf hi lo op)
      (entry.ops.head?.map fun o => (f₁.op o).seqnum.pc) (hnum₁ ▸ hhi) (f₁.vn lo).size
    generalize f₁.subpieceIf ((f.vn hi).descend.any fun op => !f.isPieceOf hi lo op)
      (entry.ops.head?.map fun o => (f₁.op o).seqnum.pc) hi (f₁.vn lo).size = e at *
    obtain ⟨f₂, subHi⟩ := e
    dsimp only at *
    obtain ⟨h₃, hnum₃⟩ := h₂.subpieceIf
      ((f.vn lo).descend.any fun op => !f.isPieceOf hi lo op)
      (entry.ops.head?.map fun o => (f₁.op o).seqnum.pc)
      ((hlo.trans_eq hnum₁.symm).trans_le hnum₂) 0
    generalize f₂.subpieceIf ((f.vn lo).descend.any fun op => !f.isPieceOf hi lo op)
      (entry.ops.head?.map fun o => (f₁.op o).seqnum.pc) lo 0 = e at *
    obtain ⟨f₃, subLo⟩ := e
    dsimp only at *
    have h₄ : (f₃.newVarnode ((f₃.vn hi).size + (f₃.vn lo).size) (f.vn lo).loc).1.Linked :=
      Books.allocVarnode h₃ _ _ false
    have hlt₄ : (f₃.newVarnode ((f₃.vn hi).size + (f₃.vn lo).size) (f.vn lo).loc).2 <
      (f₃.newVarnode ((f₃.vn hi).size + (f₃.vn lo).size) (f.vn lo).loc).1.numVarnodes :=
      Nat.lt_succ_self _
    have hdef₄ : ((f₃.newVarnode ((f₃.vn hi).size + (f₃.vn lo).size) (f.vn lo).loc).1.vn
        (f₃.newVarnode ((f₃.vn hi).size + (f₃.vn lo).size) (f.vn lo).loc).2).defOp = none := by
      change ((f₃.allocVarnode _ _ false).vn f₃.numVarnodes).defOp = none
      rw [allocVarnode_vn, if_pos rfl]
      rfl
    generalize f₃.newVarnode ((f₃.vn hi).size + (f₃.vn lo).size) (f.vn lo).loc = e at *
    obtain ⟨f₄, whole⟩ := e
    dsimp only at *
    have h₅ := h₄.setInputVarnode unaffected (v := whole) (.inr (.inr hdef₄))
    have hlt₅ := setInputVarnode_lt f₄ unaffected hlt₄
    generalize f₄.setInputVarnode unaffected whole = e at *
    obtain ⟨f₅, whole'⟩ := e
    dsimp only at *
    cases he
    have hstep : ∀ (g : Funcdata) (o : OpId), g.Linked → whole' < g.numVarnodes →
        (g.opSetInput o 0 whole').Linked ∧ whole' < (g.opSetInput o 0 whole').numVarnodes :=
      fun g o hg hv => ⟨hg.opSetInput hv o, hv.trans_le (Keeps.opSetInput g o 0 whole').le⟩
    obtain ⟨h₆, hlt₆⟩ := Linked.foldl_opSetInput (v := whole')
      ((f.vn hi).descend.filter (f.isPieceOf hi lo))
      (k := fun g p => (g.opSetInput p 0 whole').opSetOpcode p .copy)
      (fun g o hg hv => ⟨(hstep g o hg hv).1.opSetOpcode o .copy, (hstep g o hg hv).2⟩) h₅ hlt₅
    exact (Linked.foldl_opSetInput (v := whole') _ hstep h₆ hlt₆).1

end Funcdata

namespace Edit

/-- A call that keeps definitions and uses linked, by what the graph is like before it: an op gets no
constant twice, dead ops no inputs, a constant no second reader, and only varnodes without definition
are deleted or made inputs. -/
def Safe (f : Funcdata) : Edit → Prop
  | newOp _ _ inputs => f.Unshared inputs
  | opInsertInput op _ _ | opAppendInput op _ => (f.op op).dead = false
  | opSetAllInput op inputs => (f.op op).dead = false ∨ inputs = []
  | totalReplace old new => f.CanReplace old new
  | deleteVarnode vid => (f.vn vid).defOp = none
  | setInputVarnode vid => f.CanBeInput vid
  | _ => True

/-- One call keeps the books balanced. -/
theorem linked_apply {unaffected : Address → ℕ → Bool} {f f' : Funcdata} (h : f.Linked) {e : Edit}
    (hvalid : e.Valid f) (hsafe : e.Safe f) (he : e.apply unaffected f = some f') : f'.Linked := by
  cases e with
  | newVarnode size loc => exact Option.some.inj he ▸ Funcdata.Books.allocVarnode h size loc false
  | newInput size loc => exact Option.some.inj he ▸ h.newInput unaffected size loc
  | newConst size value => exact Option.some.inj he ▸ Funcdata.Books.allocVarnode h size _ true
  | newOp opcode seqnum inputs =>
    exact Option.some.inj he ▸ h.newOp opcode seqnum hvalid hsafe
  | newOutput op size loc => exact Option.some.inj he ▸ h.newOutput hvalid size loc
  | opSetInput op slot vid => exact Option.some.inj he ▸ h.opSetInput hvalid.2.1 op
  | opSetAllInput op inputs =>
    exact Option.some.inj he ▸ h.opSetAllInput hvalid.1 hvalid.2 hsafe
  | opInsertInput op slot vid =>
    exact Option.some.inj he ▸ h.opInsertInput hvalid.2.1 hvalid.1 hsafe hvalid.2.2
  | opRemoveInput op slot => exact Option.some.inj he ▸ h.opRemoveInput op slot
  | opAppendInput op vid => exact Option.some.inj he ▸ h.opAppendInput hvalid.2 hvalid.1 hsafe
  | opSwapInput op i j => exact Option.some.inj he ▸ h.opSwapInput op i j
  | opSetOutput op vid => exact Option.some.inj he ▸ h.opSetOutput hvalid.1 hvalid.2
  | totalReplace old new =>
    exact Option.some.inj he ▸ h.totalReplace hvalid.1 hvalid.2 hsafe
  | opDestroy op => exact Option.some.inj he ▸ h.opDestroy hvalid
  | opDestroyRecursive op =>
    exact h.destroyAll (fun o ho => List.mem_singleton.mp ho ▸ hvalid) he
  | deleteVarnode vid => exact Option.some.inj he ▸ h.deleteVarnode hsafe
  | setInputVarnode vid => exact Option.some.inj he ▸ h.setInputVarnode unaffected hsafe
  | combineInputVarnodes hi lo =>
    obtain ⟨r, hr, hf⟩ := Option.map_eq_some_iff.mp he
    exact hf ▸ h.combineInputVarnodes unaffected hvalid.1 hvalid.2 hr
  | splitUses vn => exact Option.some.inj he ▸ h.splitUses hvalid

/-- Runs of calls that return, each meeting `ok`. -/
inductive Run (unaffected : Address → ℕ → Bool) (ok : Funcdata → Edit → Prop) :
    Funcdata → Funcdata → Prop
  | start (f : Funcdata) : Run unaffected ok f f
  | step {f g g' : Funcdata} {e : Edit} (before : Run unaffected ok f g) (valid : e.Valid g)
      (meets : ok g e) (after : e.apply unaffected g = some g') : Run unaffected ok f g'

/-- A graph without varnodes and ops. -/
def empty (spaces : SpaceManager) (blocks : List BlockBasic) : Funcdata where
  spaces := spaces
  vn _ := default
  numVarnodes := 0
  op _ := default
  numOps := 0
  blocks := blocks

theorem linked_empty (spaces : SpaceManager) (blocks : List BlockBasic) :
    (empty spaces blocks).Linked := by
  refine ⟨fun _ _ => ⟨rfl, rfl⟩, fun _ _ => ⟨rfl, rfl⟩, fun _ _ => rfl, fun _ _ => rfl,
    fun v op => ?_, fun _ hv => absurd hv (Nat.not_lt_zero _),
    fun _ hv => absurd hv (Nat.not_lt_zero _), fun _ hv => absurd hv (Nat.not_lt_zero _)⟩
  change none = some op ↔ none = some v
  simp only [reduceCtorEq]

theorem linked_run {unaffected : Address → ℕ → Bool} {f f' : Funcdata} (h : f.Linked)
    (hrun : Run unaffected Safe f f') : f'.Linked := by
  induction hrun with
  | start => exact h
  | step before valid meets after ih => exact linked_apply ih valid meets after

/-- Definitions and uses stay linked through every run of safe calls, from the empty graph or any other
one whose books are balanced, and destroying an op recursively returns there. -/
theorem defUse_run {unaffected : Address → ℕ → Bool} {f f' : Funcdata}
    (h : f.Linked ∨ ∃ spaces blocks, f = empty spaces blocks)
    (hrun : Run unaffected Safe f f') :
    f'.DefUse ∧ ∀ op < f'.numOps, ((opDestroyRecursive op).apply unaffected f').isSome = true := by
  have hstart : f.Linked := by
    rcases h with h | ⟨spaces, blocks, rfl⟩
    · exact h
    · exact linked_empty spaces blocks
  have hlinked := linked_run hstart hrun
  exact ⟨hlinked.defUse, fun op hop => Funcdata.opDestroyRecursive_isSome hlinked hop⟩

/-- A COPY of a constant, which is then destroyed. -/
theorem defUse_run_copy : ∃ f', Run (fun _ _ => false) Safe (empty (.standard false) []) f' ∧
    f'.numOps = 1 ∧ f'.DefUse := by
  have hconst : Run (fun _ _ => false) Safe (empty (.standard false) []) _ :=
    .step (e := newConst 4 7) (.start _) trivial trivial rfl
  have hvalid : (newOp .copy default [0]).Valid ((empty (.standard false) []).newConst 4 7).1 := by
    intro v hv
    rw [List.mem_singleton.mp hv]
    exact Nat.zero_lt_one
  have hsafe : (newOp .copy default [0]).Safe ((empty (.standard false) []).newConst 4 7).1 := by
    intro v hv _ _ _
    rw [List.mem_singleton.mp hv]
    exact le_rfl
  have hout := Run.step (e := newOutput 0 4 ⟨2, 0⟩) (.step hconst hvalid hsafe rfl)
    Nat.zero_lt_one trivial rfl
  have hrun := Run.step (e := opDestroy 0) hout Nat.zero_lt_one trivial rfl
  exact ⟨_, hrun, rfl, (defUse_run (.inr ⟨_, _, rfl⟩) hrun).1⟩

/-- An unread constant listed twice gets two readers. -/
theorem drift_sharedConstant : ¬ ∀ f', Run (fun _ _ => false) (fun _ _ => True)
    (empty (.standard false) []) f' → f'.DefUse := by
  intro h
  have hvalid : (newOp .intAdd default [0, 0]).Valid
      ((empty (.standard false) []).newConst 4 7).1 := by
    unfold Valid
    decide
  have hrun : Run (fun _ _ => false) (fun _ _ => True) (empty (.standard false) []) _ :=
    .step (.step (e := newConst 4 7) (.start _) trivial trivial rfl) hvalid trivial rfl
  have hlen := (h _ hrun).constant 0 (by decide) rfl rfl
  exact absurd hlen (by decide)

end Edit
end Mosura
