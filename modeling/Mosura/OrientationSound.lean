import Mosura.Orientation
import Mosura.EditRuns
import Mosura.Exec

/-! The passes agree with the original sense of a branch as long as its flags are clear. -/

namespace Mosura
namespace Funcdata

variable {f f' : Funcdata} {op o cb : OpId} {v : VarnodeId}

/-! What the edits leave alone. -/

@[simp] theorem uniqueConstantFor_blocks (f : Funcdata) (v : VarnodeId) :
    (f.uniqueConstantFor v).1.blocks = f.blocks := by
  rcases uniqueConstantFor_cases f v with h | ⟨-, h⟩
  · rw [h]
  · rw [h]
    rfl

theorem opSetInput_blocks (f : Funcdata) (op : OpId) (slot : ℕ) (v : VarnodeId) :
    (f.opSetInput op slot v).blocks = f.blocks := by
  unfold opSetInput
  cases (f.op op).input slot with
  | none => rfl
  | some old =>
    dsimp only
    split_ifs
    · rfl
    · exact uniqueConstantFor_blocks f v

theorem opSetInput_output (f : Funcdata) (op : OpId) (slot : ℕ) (v : VarnodeId) (o : OpId) :
    ((f.opSetInput op slot v).op o).output = (f.op o).output := by
  by_cases ho : o = op
  · subst ho
    unfold opSetInput
    cases (f.op o).input slot with
    | none => rfl
    | some old =>
      dsimp only
      split_ifs
      · rfl
      · simp only [addDescend, modVn_op, modOp_op, if_true, eraseDescend, uniqueConstantFor_op]
  · rw [opSetInput_op_ne ho]

/-- Destroying an op touches no other one. -/
theorem opDestroy_op (f : Funcdata) (op o : OpId) : (f.opDestroy op).op o =
    if o = op then { f.op op with inrefs := [], output := none, dead := true } else f.op o := by
  have htake := takeInputs_op f op
  unfold opDestroy
  generalize f.takeInputs op = g at *
  dsimp only
  cases hout : (g.op op).output with
  | none =>
    dsimp only
    rw [modOp_op, htake, htake, if_pos rfl]
    split_ifs
    · rw [htake, if_pos rfl] at hout
      have hnone : (f.op op).output = none := hout
      rw [hnone]
    · rfl
  | some out =>
    dsimp only
    unfold deleteVarnode
    simp only [modOp_op, modVn_op, if_true, htake]
    split_ifs
    · rfl
    · rfl

/-! One op that is flipped in place. -/

/-- What a rewrite leaves alone: the op `cb` and the blocks; and no op gets an output. -/
structure Spares (f f' : Funcdata) (cb : OpId) : Prop where
  linked : f'.Linked
  op : f'.op cb = f.op cb
  blocks : f'.blocks = f.blocks
  output : ∀ o out, (f'.op o).output = some out → (f.op o).output = some out
  le : f.numVarnodes ≤ f'.numVarnodes

theorem Spares.trans {f'' : Funcdata} (h : Spares f f' cb) (h' : Spares f' f'' cb) :
    Spares f f'' cb where
  linked := h'.linked
  op := h'.op.trans h.op
  blocks := h'.blocks.trans h.blocks
  output o out ho := h.output o out (h'.output o out ho)
  le := h.le.trans h'.le

theorem Spares.opSetOpcode (h : f.Linked) (hne : op ≠ cb) (c : OpCode) :
    Spares f (f.opSetOpcode op c) cb where
  linked := h.opSetOpcode op c
  op := opSetOpcode_op_ne (Ne.symm hne) c
  blocks := rfl
  output o out ho := by
    unfold Funcdata.opSetOpcode at ho
    rw [modOp_op] at ho
    split_ifs at ho with he
    · rw [he]
      exact ho
    · exact ho
  le := le_rfl

theorem Spares.opSetInput (h : f.Linked) (hne : op ≠ cb) (slot : ℕ) (hv : v < f.numVarnodes) :
    Spares f (f.opSetInput op slot v) cb where
  linked := h.opSetInput hv op
  op := opSetInput_op_ne (Ne.symm hne) slot v
  blocks := opSetInput_blocks f op slot v
  output o out ho := by rwa [opSetInput_output] at ho
  le := (Keeps.opSetInput f op slot v).le

theorem Spares.opSwapInput (h : f.Linked) (hne : op ≠ cb) (i j : ℕ) :
    Spares f (f.opSwapInput op i j) cb := by
  have hlinked := h.opSwapInput op i j
  unfold Funcdata.opSwapInput at hlinked ⊢
  cases hi : (f.op op).input i with
  | none =>
    simp only [hi] at hlinked ⊢
    exact ⟨hlinked, rfl, rfl, fun _ _ ho => ho, le_rfl⟩
  | some a =>
    cases hj : (f.op op).input j with
    | none =>
      simp only [hi, hj] at hlinked ⊢
      exact ⟨hlinked, rfl, rfl, fun _ _ ho => ho, le_rfl⟩
    | some b =>
      simp only [hi, hj] at hlinked ⊢
      refine ⟨hlinked, ?_, rfl, fun o out ho => ?_, le_rfl⟩
      · rw [modOp_op, if_neg (Ne.symm hne)]
      · rw [modOp_op] at ho
        split_ifs at ho with he
        · rw [he]
          exact ho
        · exact ho

theorem Spares.opDestroy (h : f.Linked) (hne : op ≠ cb) (hop : op < f.numOps) :
    Spares f (f.opDestroy op) cb where
  linked := h.opDestroy hop
  op := by rw [opDestroy_op, if_neg (Ne.symm hne)]
  blocks := opDestroy_blocks f op
  output o out ho := by
    rw [opDestroy_op] at ho
    split_ifs at ho
    exact ho
  le := by
    have hnum := (foldl_eraseDescend_num (f.op op).inrefs op
      (f.modOp op fun x => { x with inrefs := [] })).2
    unfold Funcdata.opDestroy takeInputs
    dsimp only
    rw [modOp_numVarnodes]
    split
    · exact hnum.ge
    · exact hnum.ge

/-- An input becomes a new constant. -/
theorem Spares.newConstInput (h : f.Linked) (hne : op ≠ cb) (code : OpCode) (size : ℕ)
    (val : U64) (i : ℕ) : Spares f (((f.opSetOpcode op code).newConst size val).1.opSetInput op i
      ((f.opSetOpcode op code).newConst size val).2) cb := by
  have hcode : Spares f (f.opSetOpcode op code) cb := Spares.opSetOpcode h hne code
  have hconst : ((f.opSetOpcode op code).newConst size val).1.Linked :=
    Books.allocVarnode hcode.linked size _ true
  have hnew : Spares (f.opSetOpcode op code) ((f.opSetOpcode op code).newConst size val).1 cb :=
    ⟨hconst, rfl, rfl, fun _ _ ho => ho, Nat.le_succ _⟩
  exact hcode.trans (hnew.trans (Spares.opSetInput hconst hne i (Nat.lt_succ_self _)))

theorem Spares.replaceLessequal (h : f.Linked) (hne : op ≠ cb) {r : Funcdata × Bool}
    (he : f.replaceLessequal op = some r) : Spares f r.1 cb := by
  unfold Funcdata.replaceLessequal at he
  obtain ⟨in0, -, he⟩ := Option.bind_eq_some_iff.mp he
  obtain ⟨in1, -, he⟩ := Option.bind_eq_some_iff.mp he
  have hrefl : Spares f f cb := ⟨h, rfl, rfl, fun _ _ ho => ho, le_rfl⟩
  cases hc : f.lessequalConst in0 in1 with
  | none =>
    rw [hc] at he
    cases he
    exact hrefl
  | some t =>
    obtain ⟨vn, diff, i⟩ := t
    rw [hc] at he
    dsimp only at he
    split_ifs at he
    · cases he
      exact hrefl
    · cases he
      exact Spares.newConstInput h hne _ _ _ _
    · cases he
      exact Spares.newConstInput h hne _ _ _ _

/-- The output of `x` is not read by `cb`. -/
def Unread (f : Funcdata) (cb x : OpId) : Prop :=
  ∀ out, (f.op x).output = some out → out ∉ (f.op cb).inrefs

theorem Spares.unread {x : OpId} (h : Spares f f' cb) (hx : f.Unread cb x) : f'.Unread cb x := by
  intro out hout
  rw [h.op]
  exact hx out (h.output x out hout)

theorem Linked.lt_of_output (h : f.Linked) (ho : (f.op op).output = some v) : op < f.numOps :=
  Books.lt_of_defOp h ((h.defs v op).mpr ho)

/-- Flipping an op whose value `cb` does not read spares `cb`. -/
theorem Spares.flipOp (h : f.Linked) (hne : op ≠ cb) (hun : f.Unread cb op)
    (he : f.flipOp op = some f') : Spares f f' cb := by
  unfold Funcdata.flipOp at he
  split at he
  · obtain ⟨vn, hvn, he⟩ := Option.bind_eq_some_iff.mp he
    obtain ⟨outvn, hout, he⟩ := Option.bind_eq_some_iff.mp he
    obtain ⟨otherop, hother, he⟩ := Option.bind_eq_some_iff.mp he
    obtain ⟨slot, hslot, he⟩ := Option.bind_eq_some_iff.mp he
    cases he
    have hreads : outvn ∈ (f.op otherop).inrefs := by
      obtain ⟨hlt, hat, -⟩ := List.idxOf?_eq_some_iff.mp hslot
      exact hat ▸ List.getElem_mem hlt
    have hother' : otherop ≠ cb := by
      intro hcb
      exact hun outvn hout (hcb ▸ hreads)
    have hlt : vn < f.numVarnodes := h.lt_of_mem_inrefs (List.mem_of_getElem? hvn)
    have hset := Spares.opSetInput h hother' slot hlt
    refine hset.trans (Spares.opDestroy hset.linked hne ?_)
    rw [opSetInput_numOps]
    exact h.lt_of_output hout
  · split at he
    · cases he
      exact Spares.opSetOpcode h hne _
    · cases he
      exact Spares.opSetOpcode h hne _
    · cases he
  · rename_i opc flipyes _ _
    have hcode := Spares.opSetOpcode h hne opc
    split_ifs at he
    · cases he
      exact hcode
    · obtain ⟨r, hr, hf⟩ := Option.map_eq_some_iff.mp he
      subst hf
      have hswap := hcode.trans (Spares.opSwapInput hcode.linked hne 0 1)
      exact hswap.trans (Spares.replaceLessequal hswap.linked hne hr)
    · cases he
      exact hcode.trans (Spares.opSwapInput hcode.linked hne 0 1)

theorem Spares.opFlipInPlaceExecute {flips : List OpId} {f f' : Funcdata} (h : f.Linked)
    (hl : ∀ x ∈ flips, x ≠ cb ∧ f.Unread cb x) (he : f.opFlipInPlaceExecute flips = some f') :
    Spares f f' cb := by
  induction flips generalizing f with
  | nil =>
    cases he
    exact ⟨h, rfl, rfl, fun _ _ ho => ho, le_rfl⟩
  | cons x l ih =>
    unfold Funcdata.opFlipInPlaceExecute at he
    rw [List.foldlM_cons] at he
    obtain ⟨g, hg, hrest⟩ := Option.bind_eq_some_iff.mp he
    obtain ⟨hx, hun⟩ := hl x List.mem_cons_self
    have hstep := Spares.flipOp h hx hun hg
    refine hstep.trans (ih hstep.linked (fun y hy => ?_) hrest)
    obtain ⟨hy, hyun⟩ := hl y (List.mem_cons_of_mem _ hy)
    exact ⟨hy, hstep.unread hyun⟩

/-! The ops a test lists are read only inside of the tested condition. -/

theorem loneDescend_eq_some (h : f.loneDescend v = some op) : (f.vn v).descend = [op] := by
  unfold loneDescend at h
  split at h
  · rename_i o heq
    cases h
    exact heq
  · cases h

/-- The op `cb` without output is not among the new ops of a test, and only the root of the tested
condition, which is `op` itself, may be read by it. -/
def Inside (f : Funcdata) (cb op : OpId) (flips flips' : List OpId) : Prop :=
  ∃ new, flips' = flips ++ new ∧ ∀ x ∈ new, x ≠ cb ∧ (f.op x).opcode ≠ .cbranch ∧
    (x ≠ op → f.Unread cb x)

theorem Inside.single (h : op ≠ cb) (hcode : (f.op op).opcode ≠ .cbranch) (flips : List OpId) :
    f.Inside cb op flips (flips ++ [op]) := by
  refine ⟨[op], rfl, fun x hx => ?_⟩
  rw [List.mem_singleton.mp hx]
  exact ⟨h, hcode, fun hne => absurd rfl hne⟩

/-- The tested definition of an input is read by `op` alone. -/
theorem Inside.input (h : f.Linked) (hop : op ≠ cb) (hout : (f.op cb).output = none)
    {test : OpId → List OpId → Option (ℕ × List OpId)} {slot : ℕ} {flips : List OpId}
    {r : ℕ × List OpId}
    (ih : ∀ d r, d ≠ cb → test d flips = some r → f.Inside cb d flips r.2)
    (he : f.flipTestInput test op slot flips = some r) :
    ∃ new, r.2 = flips ++ new ∧ ∀ x ∈ new, x ≠ cb ∧ (f.op x).opcode ≠ .cbranch ∧
      f.Unread cb x := by
  unfold flipTestInput at he
  cases hin : (f.op op).input slot with
  | none =>
    rw [hin] at he
    cases he
  | some vn =>
    rw [hin] at he
    dsimp only at he
    split_ifs at he with hlone
    · cases he
      exact ⟨[], (List.append_nil _).symm, fun x hx => absurd hx List.not_mem_nil⟩
    · cases hdef : (f.vn vn).defOp with
      | none =>
        rw [hdef] at he
        cases he
      | some d =>
        rw [hdef] at he
        push Not at hlone
        have hdout := (h.defs vn d).mp hdef
        have hd : d ≠ cb := by
          intro hcb
          rw [hcb, hout] at hdout
          cases hdout
        obtain ⟨new, hnew, hx⟩ := ih d r hd he
        refine ⟨new, hnew, fun x hxm => ?_⟩
        obtain ⟨hxcb, hxcode, hxun⟩ := hx x hxm
        refine ⟨hxcb, hxcode, ?_⟩
        by_cases hxd : x = d
        · -- the root of the input: its only reader is `op`
          intro out hxout hread
          rw [hxd, hdout] at hxout
          cases hxout
          have hmem := h.mem_descend.mpr hread
          rw [loneDescend_eq_some hlone.1] at hmem
          exact hop (List.mem_singleton.mp hmem).symm
        · exact hxun hxd

theorem inside_opFlipInPlaceTestRec (h : f.Linked) (hout : (f.op cb).output = none) (fuel : ℕ)
    {op : OpId} {flips : List OpId} {r : ℕ × List OpId} (hop : op ≠ cb)
    (he : f.opFlipInPlaceTestRec fuel op flips = some r) : f.Inside cb op flips r.2 := by
  induction fuel generalizing op flips r with
  | zero => cases he
  | succ n ih =>
    have hin : ∀ {slot flips r}, f.flipTestInput (f.opFlipInPlaceTestRec n) op slot flips = some r →
        ∃ new, r.2 = flips ++ new ∧ ∀ x ∈ new, x ≠ cb ∧ (f.op x).opcode ≠ .cbranch ∧
          f.Unread cb x := fun he' => Inside.input h hop hout (fun d r hd => ih hd) he'
    have hnil : f.Inside cb op flips flips :=
      ⟨[], (List.append_nil _).symm, fun x hx => absurd hx List.not_mem_nil⟩
    unfold opFlipInPlaceTestRec at he
    dsimp only at he
    split at he
    · split_ifs at he
      · cases he
        exact hnil
      · obtain ⟨new, hnew, hx⟩ := hin he
        exact ⟨new, hnew, fun x hxm => ⟨(hx x hxm).1, (hx x hxm).2.1, fun _ => (hx x hxm).2.2⟩⟩
    case h_11 | h_12 =>
      rename_i hcode
      obtain ⟨r₁, hr₁, he⟩ := Option.bind_eq_some_iff.mp he
      obtain ⟨new₁, hnew₁, hx₁⟩ := hin hr₁
      have hfirst : f.Inside cb op flips r₁.2 :=
        ⟨new₁, hnew₁, fun x hxm => ⟨(hx₁ x hxm).1, (hx₁ x hxm).2.1, fun _ => (hx₁ x hxm).2.2⟩⟩
      split_ifs at he
      · cases he
        exact hfirst
      · obtain ⟨r₂, hr₂, he⟩ := Option.bind_eq_some_iff.mp he
        obtain ⟨new₂, hnew₂, hx₂⟩ := hin hr₂
        have hboth : ∀ x ∈ new₁ ++ new₂, x ≠ cb ∧ (f.op x).opcode ≠ .cbranch ∧ f.Unread cb x := by
          intro x hxm
          rcases List.mem_append.mp hxm with hxm | hxm
          · exact hx₁ x hxm
          · exact hx₂ x hxm
        split_ifs at he
        · cases he
          refine ⟨new₁ ++ new₂, ?_, fun x hxm => ?_⟩
          · rw [hnew₂, hnew₁, List.append_assoc]
          · obtain ⟨ha, hb, hc⟩ := hboth x hxm
            exact ⟨ha, hb, fun _ => hc⟩
        · cases he
          refine ⟨new₁ ++ new₂ ++ [op], ?_, fun x hxm => ?_⟩
          · dsimp only
            rw [hnew₂, hnew₁]
            simp only [List.append_assoc]
          · rcases List.mem_append.mp hxm with hxm | hxm
            · obtain ⟨ha, hb, hc⟩ := hboth x hxm
              exact ⟨ha, hb, fun _ => hc⟩
            · rw [List.mem_singleton.mp hxm]
              refine ⟨hop, ?_, fun hne => absurd rfl hne⟩
              rw [hcode]
              simp only [ne_eq, reduceCtorEq, not_false_eq_true]
    case h_13 =>
      cases he
      exact hnil
    case h_7 | h_8 | h_9 | h_10 =>
      rename_i hcode
      obtain ⟨w, -, hr⟩ := Option.map_eq_some_iff.mp he
      subst hr
      refine Inside.single hop ?_ flips
      rw [hcode]
      simp only [ne_eq, reduceCtorEq, not_false_eq_true]
    all_goals
      rename_i hcode
      cases he
      refine Inside.single hop ?_ flips
      rw [hcode]
      simp only [ne_eq, reduceCtorEq, not_false_eq_true]

/-- The list of another branch spares `cb`, and what `cb` reads is no output of it. -/
theorem Spares.flipTest (h : f.Linked) (hout : (f.op cb).output = none) {other : OpId}
    (hother : other ≠ cb) (hcode : (f.op other).opcode = .cbranch) {fuel r : ℕ}
    {flips : List OpId} (htest : f.opFlipInPlaceTest fuel other = some (r, flips))
    (he : f.opFlipInPlaceExecute flips = some f') :
    Spares f f' cb ∧ ∀ x ∈ flips, f.Unread cb x := by
  obtain ⟨new, hnew, hx⟩ := inside_opFlipInPlaceTestRec h hout fuel hother htest
  rw [List.nil_append] at hnew
  dsimp only at hnew
  subst hnew
  have hun : ∀ x ∈ flips, f.Unread cb x := by
    intro x hxm
    obtain ⟨-, hxcode, hxun⟩ := hx x hxm
    refine hxun fun hxo => ?_
    rw [hxo] at hxcode
    exact hxcode hcode
  exact ⟨Spares.opFlipInPlaceExecute h (fun x hxm => ⟨(hx x hxm).1, hun x hxm⟩) he, hun⟩

/-! Executions. -/

/-- The pure ops that the value of `v` is computed by. -/
inductive Feeds (f : Funcdata) (v : VarnodeId) : OpId → Prop
  | here {o : OpId} : (f.vn v).defOp = some o → Feeds f v o
  | input {o o' : OpId} {u : VarnodeId} : Feeds f v o → (f.op o).opcode.hasSemantics = true →
      u ∈ (f.op o).inrefs → (f.vn u).defOp = some o' → Feeds f v o'

/-- The values at the branch `cb` when it executes: constants are what they are, the condition is
computed as p-code says, and is 0 or 1. -/
structure Snapshot (f : Funcdata) (cb : OpId) (env : VarnodeId → ℕ) : Prop where
  const : ∀ v, (f.vn v).constant = true → env v = (f.vn v).constantValue.toNat
  computed : ∀ v, (f.op cb).input 1 = some v → ∀ o, f.Feeds v o →
    (f.op o).opcode.hasSemantics = true → ∀ out, (f.op o).output = some out →
      evalPcode (f.op o).opcode (f.operands o ((f.op o).inrefs.map env)) (f.vn out).size =
        some (env out)
  bool : ∀ v, (f.op cb).input 1 = some v → env v ≤ 1

/-- `cb` is the unflipped branch at the end of `b`, with the out-edges `e₀` where control falls
through and `e₁` where the branch is taken. -/
structure BranchAt (f : Funcdata) (b : BlockId) (cb : OpId) (e₀ e₁ : BlockId) : Prop where
  last : f.lastOp b = some cb
  code : (f.op cb).opcode = .cbranch
  parent : (f.op cb).parent = some b
  output : (f.op cb).output = none
  unflipped : (f.op cb).booleanFlip = false
  edges : (f.block b).outEdges = [e₀, e₁]
  cond : ((f.op cb).input 1).isSome = true

/-- The in-edge slot that out-edge `i` of `b` feeds: of several edges to one block, the later ones
feed the later slots. -/
def edgeSlot (f : Funcdata) (b : BlockId) (i : ℕ) : Option ℕ :=
  (f.block b).outEdges[i]?.bind fun target =>
    ((List.range (f.block target).inEdges.length).filter fun k =>
      (f.block target).inEdges[k]? = some b)[((f.block b).outEdges.take i).count target]?

/-- The three passes go by the out-edge `taken` that control takes when the values are `env`. -/
structure Agree (f : Funcdata) (b : BlockId) (cb : OpId) (env : VarnodeId → ℕ) (taken : ℕ) :
    Prop where
  determined : ∀ num, f.determinedBranch b = some num → num ≠ taken
  condConst : ∀ blockDom points, f.condPoints b blockDom = some points → ∀ p ∈ points,
    (f.block b).outEdges[taken]? = some p.constBlock → f.edgeSlot b taken = some p.inSlot →
      env p.vn = p.value.toNat
  trueFalse : ∀ flip trueBlock falseBlock,
    f.getTrueFalse cb flip = some (trueBlock, falseBlock) → ∀ v, (f.op cb).input 1 = some v →
      (f.block b).outEdges[taken]? =
        some (if decide (env v ≠ 0) != flip then trueBlock else falseBlock)

/-! What a comparison says of the values. -/

/-- The operands of an op with exactly two inputs. -/
theorem operands_two {a b : VarnodeId} {l : List VarnodeId} (hin : (f.op o).inrefs = a :: b :: l)
    {env : VarnodeId → ℕ} {so x : ℕ} (hcode : (f.op o).opcode ≠ .ptradd ∧
      (f.op o).opcode ≠ .extract ∧ (f.op o).opcode ≠ .insert)
    (he : evalPcode (f.op o).opcode (f.operands o ((f.op o).inrefs.map env)) so = some x) :
    evalBinary (f.op o).opcode (f.vn a).size (f.vn b).size so (env a) (env b) = some x := by
  unfold operands at he
  rw [hin] at he
  cases l with
  | nil => exact he
  | cons c l =>
    rcases code_of_evalPcode he with h | h | h
    · exact absurd h hcode.1
    · exact absurd h hcode.2.1
    · exact absurd h hcode.2.2

/-- The operand of a BOOL_NEGATE. -/
theorem operand_boolNegate {a : VarnodeId} (hin : (f.op o).input 0 = some a)
    (hcode : (f.op o).opcode = .boolNegate) {env : VarnodeId → ℕ} {so x : ℕ}
    (he : evalPcode (f.op o).opcode (f.operands o ((f.op o).inrefs.map env)) so = some x) :
    env a ≤ 1 ∧ x = 1 - env a := by
  unfold PcodeOp.input at hin
  unfold operands at he
  rw [hcode] at he
  cases hl : (f.op o).inrefs with
  | nil =>
    rw [hl] at hin
    cases hin
  | cons b l =>
    rw [hl] at hin he
    cases Option.some.inj hin
    cases l with
    | nil =>
      change (if env a ≤ 1 then some (1 - env a) else none) = some x at he
      split_ifs at he with hle
      exact ⟨hle, (Option.some.inj he).symm⟩
    | cons c l =>
      cases l with
      | nil => cases he
      | cons d l =>
        rcases code_of_evalPcode he with h | h | h
        · cases h
        · cases h
        · cases h

/-- The equality that a point states holds exactly where control takes its edge `i`, if the branch goes
by the value of `u`. -/
def PointAt (f : Funcdata) (b : BlockId) (env : VarnodeId → ℕ) (sense : Bool) (p : ConstPoint) :
    Prop :=
  ∃ i ≤ 1, (f.block b).outEdges[i]? = some p.constBlock ∧
    (env p.vn = p.value.toNat ↔ sense = decide (i = 1))

theorem constPoint_eq {b : BlockId} {blockDom : ℕ → Bool} {constVn : Option VarnodeId} {value : U64}
    {i : ℕ} {p : ConstPoint} (h : f.constPoint b blockDom v constVn value i = some p) :
    p.vn = v ∧ p.value = value ∧ (f.block b).outEdges[i]? = some p.constBlock := by
  unfold constPoint at h
  obtain ⟨constBlock, hblock, h⟩ := Option.bind_eq_some_iff.mp h
  obtain ⟨slot, -, h⟩ := Option.bind_eq_some_iff.mp h
  cases h
  exact ⟨rfl, rfl, hblock⟩

/-- The variable of a comparison equals the constant exactly where both operands are equal. -/
theorem comparePoint_iff {b : BlockId} {blockDom : ℕ → Bool} {compOp : OpId} {i : ℕ}
    {points : List ConstPoint} (h : f.comparePoint b blockDom compOp i = some points)
    {env : VarnodeId → ℕ}
    (hconst : ∀ v, (f.vn v).constant = true → env v = (f.vn v).constantValue.toNat) :
    ∃ in0 in1 l, (f.op compOp).inrefs = in0 :: in1 :: l ∧ ∀ p ∈ points,
      (f.block b).outEdges[i]? = some p.constBlock ∧
        (env p.vn = p.value.toNat ↔ env in0 = env in1) := by
  unfold comparePoint at h
  obtain ⟨in0, hin0, h⟩ := Option.bind_eq_some_iff.mp h
  obtain ⟨in1, hin1, h⟩ := Option.bind_eq_some_iff.mp h
  unfold PcodeOp.input at hin0 hin1
  obtain ⟨l, hl⟩ : ∃ l, (f.op compOp).inrefs = in0 :: in1 :: l := by
    cases hlist : (f.op compOp).inrefs with
    | nil =>
      rw [hlist] at hin0
      cases hin0
    | cons a l =>
      rw [hlist] at hin0 hin1
      cases l with
      | nil => cases hin1
      | cons c l =>
        cases Option.some.inj hin0
        cases Option.some.inj hin1
        exact ⟨l, rfl⟩
  refine ⟨in0, in1, l, hl, fun p hp => ?_⟩
  split at h
  · cases h
    exact absurd hp List.not_mem_nil
  · rename_i hnone
    by_cases hc : (f.vn in1).constant = true
    · rw [if_pos hc] at h
      dsimp only at h
      split at h
      · cases h
        exact absurd hp List.not_mem_nil
      · obtain ⟨q, hq, h⟩ := Option.bind_eq_some_iff.mp h
        cases h
        cases List.mem_singleton.mp hp
        obtain ⟨hvn, hval, hblock⟩ := constPoint_eq hq
        refine ⟨hblock, ?_⟩
        rw [hvn, hval, ← hconst in1 hc]
    · have hc0 : (f.vn in0).constant = true := by
        simp only [Bool.and_eq_true, Bool.not_eq_true', not_and, Bool.not_eq_false] at hnone
        exact hnone (by simpa using hc)
      rw [if_neg hc] at h
      dsimp only at h
      split at h
      · cases h
        exact absurd hp List.not_mem_nil
      · obtain ⟨q, hq, h⟩ := Option.bind_eq_some_iff.mp h
        cases h
        cases List.mem_singleton.mp hp
        obtain ⟨hvn, hval, hblock⟩ := constPoint_eq hq
        refine ⟨hblock, ?_⟩
        rw [hvn, hval, ← hconst in0 hc0, eq_comm]

theorem compareAt_iff {b : BlockId} {blockDom : ℕ → Bool} {compOp : OpId} {flipEdge : Bool}
    {points : List ConstPoint} (h : f.compareAt b blockDom compOp flipEdge = some points)
    {env : VarnodeId → ℕ}
    (hconst : ∀ v, (f.vn v).constant = true → env v = (f.vn v).constantValue.toNat) {so x : ℕ}
    (he : (f.op compOp).opcode.hasSemantics = true →
      evalPcode (f.op compOp).opcode (f.operands compOp ((f.op compOp).inrefs.map env)) so = some x) :
    ∀ p ∈ points, f.PointAt b env (decide (x ≠ 0) != flipEdge) p := by
  intro p hp
  unfold compareAt at h
  split at h
  · rename_i hcode
    obtain ⟨in0, in1, l, hl, hpoint⟩ := comparePoint_iff h hconst
    obtain ⟨hblock, hiff⟩ := hpoint p hp
    have hval := operands_two hl (by rw [hcode]; simp) (he (by rw [hcode]; rfl))
    rw [hcode] at hval
    change some (env in0 == env in1).toNat = some x at hval
    refine ⟨if flipEdge then 0 else 1, by split_ifs <;> omega, hblock, hiff.trans ?_⟩
    rw [← Option.some.inj hval]
    cases flipEdge <;> by_cases heq : env in0 = env in1 <;> simp [heq]
  · rename_i hcode
    obtain ⟨in0, in1, l, hl, hpoint⟩ := comparePoint_iff h hconst
    obtain ⟨hblock, hiff⟩ := hpoint p hp
    have hval := operands_two hl (by rw [hcode]; simp) (he (by rw [hcode]; rfl))
    rw [hcode] at hval
    change some (env in0 != env in1).toNat = some x at hval
    refine ⟨if flipEdge then 1 else 0, by split_ifs <;> omega, hblock, hiff.trans ?_⟩
    rw [← Option.some.inj hval]
    cases flipEdge <;> by_cases heq : env in0 = env in1 <;> simp [heq, bne]
  · cases h
    exact absurd hp List.not_mem_nil

theorem findConstCompare_iff (hlinked : f.Linked) {b : BlockId} {blockDom : ℕ → Bool}
    {flipEdge : Bool} {points : List ConstPoint}
    (h : f.findConstCompare v b blockDom flipEdge = some points) {env : VarnodeId → ℕ}
    (hsnap : f.Snapshot cb env) (hcond : (f.op cb).input 1 = some v) :
    ∀ p ∈ points, f.PointAt b env (decide (env v ≠ 0) != flipEdge) p := by
  intro p hp
  unfold findConstCompare at h
  split_ifs at h
  · cases h
    exact absurd hp List.not_mem_nil
  · obtain ⟨compOp, hdef, h⟩ := Option.bind_eq_some_iff.mp h
    have hout := (hlinked.defs v compOp).mp hdef
    have hfeeds := Feeds.here hdef
    split_ifs at h with hneg
    · obtain ⟨inner, hinner, h⟩ := Option.bind_eq_some_iff.mp h
      have hsem : (f.op compOp).opcode.hasSemantics = true := by
        rw [hneg]
        rfl
      obtain ⟨hle, hval⟩ := operand_boolNegate hinner hneg
        (hsnap.computed v hcond compOp hfeeds hsem v hout)
      split_ifs at h
      · cases h
        exact absurd hp List.not_mem_nil
      · obtain ⟨op, hdef', h⟩ := Option.bind_eq_some_iff.mp h
        have hmem : inner ∈ (f.op compOp).inrefs := List.mem_of_getElem? hinner
        have hpoint := compareAt_iff h hsnap.const (fun hs =>
          hsnap.computed v hcond op (hfeeds.input hsem hmem hdef') hs inner
            ((hlinked.defs inner op).mp hdef')) p hp
        -- the negation turns the sense, and `flip_edge` turns it back
        have hsense : (decide (env v ≠ 0) != flipEdge) = (decide (env inner ≠ 0) != !flipEdge) := by
          rw [hval]
          interval_cases env inner <;> cases flipEdge <;> rfl
        rw [hsense]
        exact hpoint
    · exact compareAt_iff h hsnap.const
        (fun hs => hsnap.computed v hcond compOp hfeeds hs v hout) p hp

theorem condPoints_iff (hlinked : f.Linked) {b : BlockId} {blockDom : ℕ → Bool}
    {points : List ConstPoint} (h : f.condPoints b blockDom = some points)
    (hlast : f.lastOp b = some cb) {env : VarnodeId → ℕ} (hsnap : f.Snapshot cb env)
    (hcond : (f.op cb).input 1 = some v) :
    ∀ p ∈ points, f.PointAt b env (decide (env v ≠ 0) != (f.op cb).booleanFlip) p := by
  intro p hp
  have hle := hsnap.bool v hcond
  unfold condPoints at h
  rw [hlast] at h
  dsimp only at h
  split at h
  · cases h
    exact absurd hp List.not_mem_nil
  · obtain ⟨w, hw, h⟩ := Option.bind_eq_some_iff.mp h
    rw [hcond] at hw
    cases hw
    obtain ⟨compares, hcompares, h⟩ := Option.bind_eq_some_iff.mp h
    have hrest := findConstCompare_iff hlinked hcompares hsnap hcond
    split at h
    · cases h
      exact hrest p hp
    · obtain ⟨p₀, hp₀, h⟩ := Option.bind_eq_some_iff.mp h
      obtain ⟨p₁, hp₁, h⟩ := Option.bind_eq_some_iff.mp h
      cases h
      obtain ⟨hvn₀, hval₀, hblock₀⟩ := constPoint_eq hp₀
      obtain ⟨hvn₁, hval₁, hblock₁⟩ := constPoint_eq hp₁
      rcases List.mem_cons.mp hp with rfl | hp
      · refine ⟨0, Nat.zero_le _, hblock₀, ?_⟩
        rw [hvn₀, hval₀]
        cases (f.op cb).booleanFlip <;> interval_cases env v <;> decide
      · rcases List.mem_cons.mp hp with rfl | hp
        · refine ⟨1, le_rfl, hblock₁, ?_⟩
          rw [hvn₁, hval₁]
          cases (f.op cb).booleanFlip <;> interval_cases env v <;> decide
        · exact hrest p hp

end Funcdata

namespace Oriented

/-- The out-edge that the branch `cb` takes in the graph as it was lifted. -/
def originalEdge (s : Oriented) (cb : OpId) (env : VarnodeId → ℕ) : ℕ :=
  if ((s.graph.op cb).input 1).elim 0 env = 0 then 0 else 1

/-- A history of flips from `s₀`, and the values of one execution at its end, which were `env₀` at its
start: a rewrite of the ops that `op_flip_in_place_test` lists for the branch `other` changes no
values but those these ops compute. -/
inductive Flips (ok : OpId → Prop) (s₀ : Oriented) (env₀ : VarnodeId → ℕ) :
    Oriented → (VarnodeId → ℕ) → Prop
  | start : Flips ok s₀ env₀ s₀ env₀
  | negate {s env} (before : Flips ok s₀ env₀ s env) (b : BlockId) :
    Flips ok s₀ env₀ (s.blockNegateCondition b) env
  | flipBlock {s env} (before : Flips ok s₀ env₀ s env) (b : BlockId) :
    Flips ok s₀ env₀ (s.flipInPlaceExecute b) env
  | flipCondition {s env} (before : Flips ok s₀ env₀ s env) (op : OpId) :
    Flips ok s₀ env₀ (s.opFlipCondition op) env
  | flipOps {s env} {env' : VarnodeId → ℕ} {other : OpId} {fuel r : ℕ} {flips : List OpId}
    {g : Funcdata} (before : Flips ok s₀ env₀ s env) (meets : ok other)
    (code : (s.graph.op other).opcode = .cbranch)
    (test : s.graph.opFlipInPlaceTest fuel other = some (r, flips)) (flippable : r ≠ 2)
    (execute : s.graph.opFlipInPlaceExecute flips = some g)
    (keeps : ∀ v < s.graph.numVarnodes, (∀ x ∈ flips, (s.graph.op x).output ≠ some v) →
      env' v = env v) : Flips ok s₀ env₀ { s with graph := g } env'

/-- What a history that spares `cb` keeps: the links, the blocks, `cb` up to its flag, and the value
of the condition. -/
structure Spared (s₀ : Oriented) (env₀ : VarnodeId → ℕ) (cb : OpId) (s : Oriented)
    (env : VarnodeId → ℕ) : Prop where
  linked : s.graph.Linked
  blocks : s.graph.blocks = s₀.graph.blocks
  op : s.graph.op cb =
    { s₀.graph.op cb with booleanFlip := (s.graph.op cb).booleanFlip }
  value : ∀ v, (s₀.graph.op cb).input 1 = some v → env v = env₀ v

variable {s₀ s : Oriented} {env₀ env : VarnodeId → ℕ} {cb : OpId}

/-- Setting a flag of some op. -/
theorem Spared.setFlip (h : Spared s₀ env₀ cb s env) (op : OpId) (k : PcodeOp → Bool)
    (t : OpId → Bool) : Spared s₀ env₀ cb
      { graph := s.graph.modOp op fun o => { o with booleanFlip := k o }, fallthruTrue := t } env where
  linked := by
    refine Funcdata.Books.of_same h.linked rfl rfl
      (fun _ => ⟨rfl, rfl, rfl, rfl, rfl, rfl, rfl⟩) fun o => ?_
    rw [Funcdata.modOp_op]
    split_ifs with ho
    · subst ho
      exact ⟨rfl, rfl, rfl⟩
    · exact ⟨rfl, rfl, rfl⟩
  blocks := h.blocks
  op := by
    have hop := h.op
    rw [Funcdata.modOp_op]
    split_ifs with ho
    · subst ho
      rw [hop]
    · exact hop
  value := h.value

theorem spared_flips (hlinked : s₀.graph.Linked) (hout : (s₀.graph.op cb).output = none)
    (hrun : Flips (· ≠ cb) s₀ env₀ s env) : Spared s₀ env₀ cb s env := by
  induction hrun with
  | start => exact ⟨hlinked, rfl, rfl, fun _ _ => rfl⟩
  | @negate s env before b ih =>
    unfold blockNegateCondition
    cases s.graph.lastOp b with
    | none => exact ih
    | some last => exact ih.setFlip last (fun _ => true) _
  | @flipBlock s env before b ih =>
    unfold flipInPlaceExecute
    cases s.graph.lastOp b with
    | none => exact ih
    | some last => exact ⟨ih.linked, ih.blocks, ih.op, ih.value⟩
  | flipCondition before op ih => exact ih.setFlip op (fun o => !o.booleanFlip) _
  | @flipOps s env env' other fuel r flips g before meets code test flippable execute keeps ih =>
    have hout' : (s.graph.op cb).output = none := by
      rw [ih.op]
      exact hout
    obtain ⟨hspare, hun⟩ := Funcdata.Spares.flipTest ih.linked hout' meets code test execute
    refine ⟨hspare.linked, hspare.blocks.trans ih.blocks, ?_, fun v hv => ?_⟩
    · dsimp only
      rw [hspare.op]
      exact ih.op
    · have hread : v ∈ (s.graph.op cb).inrefs := by
        rw [ih.op]
        exact List.mem_of_getElem? hv
      rw [← ih.value v hv]
      refine keeps v (ih.linked.lt_of_mem_inrefs hread) fun x hx hxout => ?_
      exact hun x hx v hxout hread

/-- The branch keeps its place. -/
theorem Spared.branchAt (h : Spared s₀ env₀ cb s env) {b e₀ e₁ : BlockId}
    (hat : s₀.graph.BranchAt b cb e₀ e₁) : s.graph.lastOp b = some cb ∧
      (s.graph.op cb).parent = some b ∧ (s.graph.block b).outEdges = [e₀, e₁] ∧
      (s.graph.op cb).input 1 = (s₀.graph.op cb).input 1 := by
  have hblock : s.graph.block b = s₀.graph.block b := by
    unfold Funcdata.block
    rw [h.blocks]
  refine ⟨?_, ?_, hblock ▸ hat.edges, ?_⟩
  · unfold Funcdata.lastOp
    rw [hblock]
    exact hat.last
  · rw [h.op]
    exact hat.parent
  · rw [h.op]
    rfl

/-- At the end of a history without rewrites of its own condition, the passes agree with the original
sense of a branch to two different blocks if and only if BOOLEAN_FLIP is clear on it. -/
theorem agree_iff_unflipped {b e₀ e₁ : BlockId} (hlinked : s₀.graph.Linked)
    (hat : s₀.graph.BranchAt b cb e₀ e₁) (hne : e₀ ≠ e₁)
    (hrun : Flips (· ≠ cb) s₀ env₀ s env) (hsnap : s.graph.Snapshot cb env) :
    s.graph.Agree b cb env (s₀.originalEdge cb env₀) ↔
      (s.graph.op cb).booleanFlip = false := by
  have hspared := spared_flips hlinked hat.output hrun
  obtain ⟨hlast, hparent, hedges, hinput⟩ := hspared.branchAt hat
  obtain ⟨v, hv⟩ := Option.isSome_iff_exists.mp hat.cond
  have hcond : (s.graph.op cb).input 1 = some v := hinput.trans hv
  have htaken : s₀.originalEdge cb env₀ = if env v = 0 then 0 else 1 := by
    unfold originalEdge
    rw [hv, Option.elim_some, hspared.value v hv]
  have htrue : ∀ flip, s.graph.getTrueFalse cb flip =
      if (s.graph.op cb).booleanFlip != flip then some (e₀, e₁) else some (e₁, e₀) := by
    intro flip
    unfold Funcdata.getTrueFalse
    rw [hparent]
    simp only [Option.bind_eq_bind, Option.bind_some, hedges, List.getElem?_cons_zero,
      List.getElem?_cons_succ]
  rw [htaken]
  constructor
  · intro hagree
    by_contra hflip
    rw [Bool.not_eq_false] at hflip
    have hbad := hagree.trueFalse false e₀ e₁ (by rw [htrue, hflip]; rfl) v hcond
    rw [hedges] at hbad
    by_cases hzero : env v = 0
    · simp [hzero, hne] at hbad
    · simp [hzero, Ne.symm hne] at hbad
  · intro hflip
    refine ⟨fun num hnum => ?_, fun blockDom points hpoints p hp hblock _ => ?_,
      fun flip trueBlock falseBlock hget w hw => ?_⟩
    · unfold Funcdata.determinedBranch at hnum
      rw [hlast] at hnum
      simp only [Option.bind_eq_bind, Option.bind_some, hcond] at hnum
      split_ifs at hnum with hno hc hval
      · cases hnum
        have hpos : env v ≠ 0 := by
          rw [hsnap.const v hc]
          intro hz
          exact hval (BitVec.eq_of_toNat_eq hz)
        rw [if_neg hpos]
        exact Nat.zero_ne_one
      · cases hnum
        push Not at hval
        have hz : env v = 0 := by
          rw [hsnap.const v hc, hval]
          rfl
        rw [if_pos hz]
        exact Nat.one_ne_zero
    · obtain ⟨i, hi, hblock', hiff⟩ :=
        Funcdata.condPoints_iff hspared.linked hpoints hlast hsnap hcond p hp
      rw [hflip] at hiff
      rw [hedges] at hblock hblock'
      refine hiff.mpr ?_
      -- the point is for the edge that is taken, as the two lead to different blocks
      interval_cases i <;> by_cases hzero : env v = 0 <;> simp_all
    · rw [hcond] at hw
      cases hw
      rw [htrue, hflip] at hget
      rw [hedges]
      cases flip <;> by_cases hzero : env v = 0 <;> simp_all

/-- A branch on the result of `x != 5`. -/
def compareBranch : Oriented where
  graph := {
    spaces := SpaceManager.standard false
    vn := fun v =>
      if v = 0 then { loc := ⟨2, 0⟩, size := 1, input := true, insert := true, descend := [0], nzm := 255 }
      else if v = 1 then { loc := ⟨0, 5⟩, size := 1, constant := true, descend := [0], nzm := 5 }
      else if v = 2 then
        { loc := ⟨3, 0⟩, size := 1, written := true, insert := true, defOp := some 0, descend := [1], nzm := 1 }
      else if v = 3 then { loc := ⟨1, 16⟩, size := 1, annotation := true, descend := [1], nzm := 255 }
      else default
    numVarnodes := 4
    op := fun o =>
      if o = 0 then { opcode := .intNotequal, parent := some 0, output := some 2, inrefs := [0, 1] }
      else if o = 1 then { opcode := .cbranch, parent := some 0, inrefs := [3, 2] }
      else default
    numOps := 2
    blocks := [{ ops := [0, 1], outEdges := [1, 2] }, { inEdges := [0] }, { inEdges := [0] }] }
  fallthruTrue _ := false

/-- The execution with `x = 5`, before and after the comparison is flipped. -/
def compareValues (flipped : Bool) (v : VarnodeId) : ℕ :=
  if v = 0 ∨ v = 1 then 5 else if v = 2 then flipped.toNat else 0

theorem linked_compareBranch : compareBranch.graph.Linked := by
  refine ⟨fun v hv => ?_, fun o ho => ?_, fun v o => ?_, fun o hd => ?_, fun v o => ?_,
    fun v hv => ?_, fun v hv => ?_, fun v hv => ?_⟩
  · rcases v with _ | _ | _ | _ | v <;> simp [compareBranch] at hv ⊢
    exact ⟨rfl, rfl⟩
  · rcases o with _ | _ | o <;> simp [compareBranch] at ho ⊢
    exact ⟨rfl, rfl⟩
  · rcases v with _ | _ | _ | _ | v <;> rcases o with _ | _ | o <;> simp [compareBranch]
    all_goals rfl
  · rcases o with _ | _ | o <;> simp [compareBranch] at hd
  · rcases v with _ | _ | _ | _ | v <;> rcases o with _ | _ | o <;> simp [compareBranch]
  · change v < 4 at hv
    interval_cases v <;> rfl
  · change v < 4 at hv
    interval_cases v <;> rfl
  · change v < 4 at hv
    interval_cases v <;> decide

theorem branchAt_compareBranch : compareBranch.graph.BranchAt 0 1 1 2 :=
  ⟨rfl, rfl, rfl, rfl, rfl, rfl, rfl⟩

/-- A graph with the varnodes of `compareBranch` that computes its condition as it should. -/
theorem snapshot_compare {g : Funcdata} {flipped : Bool} (hvn : g.vn = compareBranch.graph.vn)
    (hcond : (g.op 1).input 1 = some 2) (hin : (g.op 0).inrefs = [0, 1])
    (hout : (g.op 0).output = some 2)
    (hval : evalPcode (g.op 0).opcode [(1, 5), (1, 5)] 1 = some flipped.toNat) :
    g.Snapshot 1 (compareValues flipped) := by
  have hdef : ∀ v o, (g.vn v).defOp = some o → v = 2 ∧ o = 0 := by
    intro v o hd
    rw [hvn] at hd
    rcases v with _ | _ | _ | _ | v <;> simp [compareBranch] at hd
    exact ⟨rfl, hd.symm⟩
  refine ⟨fun v hc => ?_, fun v hv o ho _ out hout' => ?_, fun v hv => ?_⟩
  · rw [hvn] at hc ⊢
    rcases v with _ | _ | _ | _ | v <;> simp [compareBranch] at hc ⊢
    rfl
  · have hzero : o = 0 := by
      cases ho with
      | here hd => exact (hdef _ _ hd).2
      | input _ _ _ hd => exact (hdef _ _ hd).2
    subst hzero
    rw [hout] at hout'
    cases hout'
    unfold Funcdata.operands
    rw [hin, hvn]
    exact hval
  · rw [hcond] at hv
    cases hv
    exact Bool.toNat_le flipped

/-- The branch is not touched when its block only changes FALLTHRU_TRUE. -/
theorem agree_compareBranch : (compareBranch.flipInPlaceExecute 0).graph.Agree 0 1
    (compareValues false) (compareBranch.originalEdge 1 (compareValues false)) :=
  (agree_iff_unflipped linked_compareBranch branchAt_compareBranch (by decide)
    (.flipBlock .start 0) (snapshot_compare (g := compareBranch.graph) rfl rfl rfl rfl rfl)).mpr rfl

/-- `block_negate_condition` turns the branch for the passes that read its flag, and
`op_flip_in_place_execute` for all of them, while the out-edges stay. -/
theorem disagree_compareBranch :
    (∃ s, Flips (fun _ => True) compareBranch (compareValues false) s (compareValues false) ∧
      s.graph.Snapshot 1 (compareValues false) ∧
      ¬ s.graph.Agree 0 1 (compareValues false)
        (compareBranch.originalEdge 1 (compareValues false))) ∧
    ∃ s, Flips (fun _ => True) compareBranch (compareValues false) s (compareValues true) ∧
      s.graph.Snapshot 1 (compareValues true) ∧
      ¬ s.graph.Agree 0 1 (compareValues true)
        (compareBranch.originalEdge 1 (compareValues false)) := by
  constructor
  · refine ⟨_, .negate .start 0, snapshot_compare rfl rfl rfl rfl rfl, fun h => ?_⟩
    have hbad := h.trueFalse false 1 2 rfl 2 rfl
    exact absurd hbad (by decide)
  · have htest : compareBranch.graph.opFlipInPlaceTest 2 1 = some (0, [0]) := rfl
    refine ⟨_, .flipOps .start trivial rfl htest (by decide) rfl fun v _ hv => ?_,
      snapshot_compare rfl rfl rfl rfl rfl, fun h => ?_⟩
    · have hne : v ≠ 2 := by
        rintro rfl
        exact hv 0 List.mem_cons_self rfl
      unfold compareValues
      simp only [if_neg hne]
    · have hbad := h.trueFalse false 2 1 rfl 2 rfl
      exact absurd hbad (by decide)

end Oriented
end Mosura
