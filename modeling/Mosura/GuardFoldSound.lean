import Mosura.BlockJoinFlow
import Mosura.FlowGraph
import Mosura.GuardFold

/-! What folding a guard into its switch keeps of the dispatch. -/

namespace Mosura
namespace Funcdata

/-- A guard as the recovery finds it: a CBRANCH ends its block, a BRANCHIND ends the switch block, and
the edges of the guard are listed at both ends. -/
structure GuardOf (f : Funcdata) (cb switchbl : BlockId) (cbranch indop : OpId) : Prop where
  last : (f.block cb).ops.getLast? = some cbranch
  branch : (f.op cbranch).opcode = .cbranch ∧ (f.op cbranch).parent = some cb
  cond : ∃ v, (f.op cbranch).input 1 = some v ∧ (f.vn v).size = 1
  indLast : (f.block switchbl).ops.getLast? = some indop
  branchind : (f.op indop).opcode = .branchind ∧ (f.op indop).parent = some switchbl
  operand : (f.op indop).input 0 ≠ none
  listed : ∀ t ∈ (f.block cb).outEdges, cb ∈ (f.block t).inEdges

/-- The values `env'` behind block `b` are those ahead of it, but for what the block defines. -/
def Through (f : Funcdata) (b : BlockId) (env env' : VarnodeId → ℕ) : Prop :=
  ∀ v, (∀ op ∈ (f.block b).ops, (f.op op).output ≠ some v) → env' v = env v

/-- The value that a switch is over. -/
def switchValue (f : Funcdata) (indop : OpId) (env : VarnodeId → ℕ) : Option ℕ :=
  ((f.op indop).input 0).map (f.valueOf env)

/-- Where a run leaves the switch block: by the edge that `table` has for the value, or by that of
the default. -/
def switchExit (f : Funcdata) (switchbl : BlockId) (indop : OpId) (table : ℕ → Option ℕ)
    (dflt : Option ℕ) (env : VarnodeId → ℕ) : Option BlockId := do
  let x ← f.switchValue indop env
  let i ← (table x).or dflt
  (f.block switchbl).outEdges[i]?

/-- Where a run goes from the block of the guard, with the values `env`, on through the switch block
if that is next, with the values `env'` behind it. -/
def dispatch (f : Funcdata) (cb switchbl : BlockId) (indop : OpId) (table : ℕ → Option ℕ)
    (dflt : Option ℕ) (env env' : VarnodeId → ℕ) : Option BlockId := do
  let t ← f.exitTaken cb env
  if t = switchbl then f.switchExit switchbl indop table dflt env' else some t

/-- An op of `b`, other than its branch, has an effect on memory or on a read in another block. -/
def HasEffect (f : Funcdata) (b : BlockId) (op : OpId) : Prop :=
  (f.op op).opcode.isBranch = false ∧
    ((f.op op).opcode.isCall = true ∨ (f.op op).opcode = .store ∨ (f.op op).opcode = .new ∨
      ∃ out, (f.op op).output = some out ∧ ((f.vn out).isAddrtied = true ∨
        ∃ reader ∈ (f.vn out).descend, (f.op reader).parent ≠ some b))

/-- All that a fold should keep: where each run goes, what the MULTIEQUALs of the target of the guard
read for it and how many inputs they have, and that nothing in the switch block has an effect. -/
structure DispatchKept (f f' : Funcdata) (cb switchbl target : BlockId) (indop : OpId)
    (table : ℕ → Option ℕ) (dflt : Option ℕ) (p : ℕ) : Prop where
  dispatch : ∀ env env', f.Through switchbl env env' → ∀ t,
    f.dispatch cb switchbl indop table dflt env env' = some t →
      f'.dispatch cb switchbl indop table (some p) env env' = some t
  phis : ∀ env env', f.Through switchbl env env' → f.exitTaken cb env = some target →
    ∀ op ∈ f.multis target, ∀ i i' u u', (f.block target).inEdges.idxOf? cb = some i →
      (f'.block target).inEdges.idxOf? switchbl = some i' → (f.op op).input i = some u →
        (f'.op op).input i' = some u' → f'.valueOf env' u' = f.valueOf env u
  arity : ∀ op ∈ f.multis target, (f'.op op).inrefs.length = (f'.block target).inEdges.length
  statements : ∀ op ∈ (f.block switchbl).ops, ¬ f.HasEffect switchbl op

/-- What a fold keeps if the target of the guard is no case of the switch. -/
structure Pushed (f f' : Funcdata) (cb switchbl target : BlockId) (indop : OpId)
    (table : ℕ → Option ℕ) (dflt : Option ℕ) (p : ℕ) : Prop where
  out : (f'.block cb).outEdges = [switchbl]
  outs : (f'.block switchbl).outEdges = (f.block switchbl).outEdges ++ [target]
  default : p = (f.block switchbl).outEdges.length
  ins : ∃ i, (f.block target).inEdges.idxOf? cb = some i ∧
    (f'.block target).inEdges = (f.block target).inEdges.set i switchbl
  dispatch : ∀ env env',
    (f.exitTaken cb env = some target → ∀ x, f.switchValue indop env' = some x → table x = none) →
      ∀ t, f.dispatch cb switchbl indop table dflt env env' = some t →
        f'.dispatch cb switchbl indop table (some p) env env' = some t
  phis : ∀ op ∈ f.multis target, f'.op op = f.op op ∧ ∀ env env', f.Through switchbl env env' →
    ∀ u ∈ (f.op op).inrefs, (∀ o ∈ (f.block switchbl).ops, (f.op o).output ≠ some u) →
      f'.valueOf env' u = f.valueOf env u

/-- What a fold keeps if the target of the guard is case `p` of the switch: the guard, if its CBRANCH is
not flipped, leads to the switch always. -/
structure Neutered (f f' : Funcdata) (cb switchbl target : BlockId) (cbranch indop : OpId)
    (table : ℕ → Option ℕ) (dflt : Option ℕ) (p : ℕ) : Prop where
  case : (f.block switchbl).outEdges[p]? = some target
  outEdges : ∀ v, (f'.block v).outEdges = (f.block v).outEdges
  inEdges : ∀ v, (f'.block v).inEdges = (f.block v).inEdges
  exit : (f.op cbranch).booleanFlip = false → ∀ env, f'.exitTaken cb env = some switchbl
  dispatch : (f.op cbranch).booleanFlip = false → ∀ env env',
    (f.exitTaken cb env = some target → ∀ x, f.switchValue indop env' = some x → table x = none) →
      ∀ t, f.dispatch cb switchbl indop table dflt env env' = some t →
        f'.dispatch cb switchbl indop table (some p) env env' = some t
  phis : ∀ op ∈ f.multis target, f'.op op = f.op op

/-- What a fold keeps: its switch block has no op with an effect but for MULTIEQUALs, INDIRECTs, COPYs
and SUBPIECEs. -/
structure Folded (f f' : Funcdata) (cb switchbl target : BlockId) (cbranch indop : OpId)
    (table : ℕ → Option ℕ) (dflt : Option ℕ) (p : ℕ) : Prop where
  pushed : target ∉ (f.block switchbl).outEdges →
    Pushed f f' cb switchbl target indop table dflt p
  neutered : target ∈ (f.block switchbl).outEdges →
    Neutered f f' cb switchbl target cbranch indop table dflt p
  arity : ∀ op ∈ f.multis target, (f'.op op).inrefs.length = (f'.block target).inEdges.length
  statements : ∀ op ∈ (f.block switchbl).ops, f.HasEffect switchbl op →
    (f.op op).opcode.isMarker = true ∨ (f.op op).opcode = .copy ∨ (f.op op).opcode = .subpiece

variable {f f' g g' : Funcdata} {cb switchbl target b v : BlockId} {cbranch indop op : OpId}
  {table : ℕ → Option ℕ} {dflt : Option ℕ} {p indpath : ℕ} {env env' : VarnodeId → ℕ}

/-! The edits. -/

theorem Edits.retarget (g : Funcdata) (cbranch : OpId) (dest : BlockId) :
    Edits g (g.retarget cbranch dest) {cbranch} ∅ := by
  unfold Funcdata.retarget
  cases hfirst : (g.block dest).ops.head? with
  | none => exact .refl g _ _
  | some first =>
    have hk : Keeps g (g.newCodeRef (g.op first).seqnum.pc).1 :=
      (Keeps.allocVarnode g 1 (g.op first).seqnum.pc false).trans
        (Keeps.modVn _ g.numVarnodes (fun x => { x with annotation := true }) rfl rfl rfl rfl)
    have href : Edits g (g.newCodeRef (g.op first).seqnum.pc).1 {cbranch} ∅ :=
      .of_blocks hk (fun _ _ => rfl) rfl
    exact href.trans (.opSetInput _ cbranch 0 _)

/-- `push_branch` out of the block that `cbranch` ends. -/
theorem exists_pushBranch {slot : ℕ} (hlast : (f.block cb).ops.getLast? = some cbranch)
    (hlen : 1 < (f.op cbranch).inrefs.length) (hslot : (f.block cb).outEdges[slot]? = some target) :
    ∃ g, Edits f g {cbranch} ∅ ∧ f.pushBranch cb slot switchbl =
      some (((g.modBlock cb fun x => { x with outEdges := x.outEdges.eraseIdx slot }).modBlock target
        fun x => { x with inEdges :=
          (x.inEdges.idxOf? cb).elim x.inEdges fun i => x.inEdges.set i switchbl }).modBlock
        switchbl fun x => { x with outEdges := x.outEdges ++ [target] }) := by
  unfold pushBranch
  rw [hlast]
  dsimp only
  rw [hslot]
  simp only [Option.bind_eq_bind, Option.bind_some, if_neg (not_le.mpr hlen)]
  exact ⟨_, ((Edits.opRemoveInput f cbranch 1).trans (.opSetOpcode _ cbranch .branch)).trans
    (.retarget _ cbranch _), rfl⟩

theorem hasEffect_of_noInterveningStatement (h : f.noInterveningStatement switchbl = true)
    (hop : op ∈ (f.block switchbl).ops) (heff : f.HasEffect switchbl op) :
    (f.op op).opcode.isMarker = true ∨ (f.op op).opcode = .copy ∨ (f.op op).opcode = .subpiece := by
  have hno := List.all_eq_true.mp h op hop
  rw [Bool.not_eq_true'] at hno
  obtain ⟨hbranch, heff⟩ := heff
  unfold intervenes at hno
  dsimp only at hno
  split_ifs at hno with hm hb hcall hstore hcopy
  · exact .inl hm
  · rw [hbranch] at hb
    exact absurd hb Bool.false_ne_true
  · exact .inr hcopy
  · exfalso
    rw [not_or] at hstore
    rcases heff with hc | hs | hn | ⟨out, hout, heff⟩
    · exact hcall hc
    · exact hstore.1 hs
    · exact hstore.2 hn
    · rw [hout] at hno
      dsimp only at hno
      rw [Bool.or_eq_false_iff] at hno
      rcases heff with htied | ⟨reader, hr, hp⟩
      · rw [hno.1] at htied
        exact absurd htied Bool.false_ne_true
      · have hany := List.any_eq_false.mp hno.2 reader hr
        exact hany (decide_eq_true hp)

/-! The two ways to fold. -/

/-- A guard that is folded. -/
structure FoldedAt (f : Funcdata) (cb switchbl target : BlockId) (dflt : Option ℕ) (indpath : ℕ) :
    Prop where
  ind : (f.block cb).outEdges[indpath]? = some switchbl
  other : (f.block cb).outEdges[1 - indpath]? = some target
  two : (f.block cb).outEdges.length = 2
  dflt : dflt = none ∨ (f.block switchbl).outEdges.idxOf? target = dflt
  statements : f.noInterveningStatement switchbl = true

theorem of_foldInOneGuard (hg : GuardOf f cb switchbl cbranch indop)
    (h : f.foldInOneGuard cbranch indpath indop dflt = some (some (f', p))) :
    ∃ target, FoldedAt f cb switchbl target dflt indpath ∧ 1 < (f.op cbranch).inrefs.length ∧
      (target ∉ (f.block switchbl).outEdges ∧ f.pushBranch cb (1 - indpath) switchbl = some f' ∧
          p = (f.block switchbl).outEdges.length ∨
        (f.block switchbl).outEdges.idxOf? target = some p ∧
          f' = (f.newExtendedConstant (((f.op cbranch).input 1).elim 1 fun v => (f.vn v).size)
            (if indpath = 0 then 0 else 1) cbranch).1.opSetInput cbranch 1
              (f.newExtendedConstant (((f.op cbranch).input 1).elim 1 fun v => (f.vn v).size)
                (if indpath = 0 then 0 else 1) cbranch).2) := by
  obtain ⟨v, hv, -⟩ := hg.cond
  have hlen : 1 < (f.op cbranch).inrefs.length := (List.getElem?_eq_some_iff.mp hv).1
  unfold foldInOneGuard at h
  rw [hg.branch.2, hg.branchind.2] at h
  dsimp only at h
  by_cases htwo : (f.block cb).outEdges.length ≠ 2
  · rw [if_pos htwo] at h
    exact nomatch h
  rw [if_neg htwo] at h
  obtain ⟨ind, hind, h⟩ := Option.bind_eq_some_iff.mp h
  by_cases hne : ind ≠ switchbl
  · rw [if_pos hne] at h
    exact nomatch h
  rw [if_neg hne] at h
  obtain ⟨target, htarget, h⟩ := Option.bind_eq_some_iff.mp h
  by_cases hdflt : dflt.isSome ∧ (f.block switchbl).outEdges.idxOf? target ≠ dflt
  · rw [if_pos hdflt] at h
    exact nomatch h
  rw [if_neg hdflt] at h
  by_cases hno : f.noInterveningStatement switchbl = false
  · rw [if_pos hno] at h
    exact nomatch h
  rw [if_neg hno] at h
  have hat : FoldedAt f cb switchbl target dflt indpath := by
    refine ⟨?_, htarget, not_not.mp htwo, ?_, Bool.eq_true_of_not_eq_false hno⟩
    · rw [hind, not_not.mp hne]
    · cases dflt with
      | none => exact .inl rfl
      | some d => exact .inr (by simpa using hdflt)
  refine ⟨target, hat, hlen, ?_⟩
  cases hpos : (f.block switchbl).outEdges.idxOf? target with
  | none =>
    rw [hpos] at h
    obtain ⟨g, hg, h⟩ := Option.map_eq_some_iff.mp h
    cases h
    exact .inl ⟨List.idxOf?_eq_none_iff.mp hpos, hg, rfl⟩
  | some q =>
    rw [hpos] at h
    dsimp only at h
    rw [if_neg (not_le.mpr hlen)] at h
    cases h
    exact .inr ⟨rfl, rfl⟩

namespace FoldedAt

theorem outEdges (h : FoldedAt f cb switchbl target dflt indpath) :
    indpath = 0 ∧ (f.block cb).outEdges = [switchbl, target] ∨
      indpath = 1 ∧ (f.block cb).outEdges = [target, switchbl] := by
  obtain ⟨a, b, hab⟩ := List.length_eq_two.mp h.two
  have hind := h.ind
  have hother := h.other
  rw [hab] at hind hother ⊢
  match indpath with
  | 0 =>
    cases hind
    cases hother
    exact .inl ⟨rfl, rfl⟩
  | 1 =>
    cases hind
    cases hother
    exact .inr ⟨rfl, rfl⟩
  | n + 2 => exact nomatch hind

theorem exitTaken (h : FoldedAt f cb switchbl target dflt indpath)
    (hg : GuardOf f cb switchbl cbranch indop) (env : VarnodeId → ℕ) :
    f.exitTaken cb env = some switchbl ∨ f.exitTaken cb env = some target := by
  obtain ⟨v, hv, -⟩ := hg.cond
  unfold Funcdata.exitTaken
  rcases h.outEdges with ⟨-, ho⟩ | ⟨-, ho⟩
  · rw [ho, hg.last]
    simp only [hv, Option.bind_eq_bind, Option.bind_some]
    split_ifs
    · exact .inr rfl
    · exact .inl rfl
  · rw [ho, hg.last]
    simp only [hv, Option.bind_eq_bind, Option.bind_some]
    split_ifs
    · exact .inl rfl
    · exact .inr rfl

theorem mem (h : FoldedAt f cb switchbl target dflt indpath) :
    switchbl ∈ (f.block cb).outEdges ∧ target ∈ (f.block cb).outEdges :=
  ⟨List.mem_of_getElem? h.ind, List.mem_of_getElem? h.other⟩

end FoldedAt

theorem GuardOf.ne (h : GuardOf f cb switchbl cbranch indop) : cb ≠ switchbl ∧ indop ≠ cbranch := by
  have hne : indop ≠ cbranch := fun he => by
    have hcode := h.branchind.1
    rw [he, h.branch.1] at hcode
    exact nomatch hcode
  refine ⟨fun he => hne ?_, hne⟩
  have hlast := h.last
  rw [he, h.indLast] at hlast
  exact Option.some.inj hlast

/-- The value of the switch is that of an op that is not edited. -/
theorem switchValue_keeps (hf : f.Linked) (hk : Keeps f f') (hop : f'.op indop = f.op indop)
    (env : VarnodeId → ℕ) : f'.switchValue indop env = f.switchValue indop env := by
  unfold switchValue
  rw [hop]
  cases hin : (f.op indop).input 0 with
  | none => rfl
  | some v =>
    have hv := hf.lt_of_mem_inrefs (List.mem_of_getElem? hin)
    exact congrArg some (congrArg Prod.snd ((@Keeps.operandOf _ _ env) hk hv))

/-- Where the guard leads on to the switch always, and the switch has its edges and `target` for its
default, a run reaches what it reached, if the guard refuses only values outside the table. -/
theorem dispatch_of_exit (hg : GuardOf f cb switchbl cbranch indop)
    (hat : FoldedAt f cb switchbl target dflt indpath)
    (hexit : f'.exitTaken cb env = some switchbl)
    (hvalue : f'.switchValue indop env' = f.switchValue indop env')
    (hedges : ∀ (i : ℕ) (t : BlockId), (f.block switchbl).outEdges[i]? = some t →
      (f'.block switchbl).outEdges[i]? = some t)
    (hp : (f'.block switchbl).outEdges[p]? = some target)
    (hd : ∀ d, dflt = some d → d = p)
    (hrefuse : f.exitTaken cb env = some target → ∀ x, f.switchValue indop env' = some x →
      table x = none) {t : BlockId}
    (ht : f.dispatch cb switchbl indop table dflt env env' = some t) :
    f'.dispatch cb switchbl indop table (some p) env env' = some t := by
  obtain ⟨x, hx⟩ : ∃ x, f.switchValue indop env' = some x := by
    obtain ⟨v, hv⟩ := Option.ne_none_iff_exists'.mp hg.operand
    exact ⟨_, by unfold switchValue; rw [hv]; rfl⟩
  have hnew : f'.dispatch cb switchbl indop table (some p) env env' =
      ((table x).or (some p)).bind fun i => (f'.block switchbl).outEdges[i]? := by
    unfold dispatch switchExit
    rw [hexit, hvalue, hx]
    simp only [Option.bind_eq_bind, Option.bind_some, if_true]
  have hold : f.exitTaken cb env = some switchbl →
      ((table x).or dflt).bind (fun i => (f.block switchbl).outEdges[i]?) = some t := fun he => by
    unfold dispatch switchExit at ht
    rw [he, hx] at ht
    simpa only [Option.bind_eq_bind, Option.bind_some, if_true] using ht
  rw [hnew]
  by_cases hs : f.exitTaken cb env = some switchbl
  · obtain ⟨i, hi, hget⟩ := Option.bind_eq_some_iff.mp (hold hs)
    have hi' : (table x).or (some p) = some i := by
      cases htab : table x with
      | some j =>
        rw [htab] at hi
        exact hi
      | none =>
        rw [htab] at hi
        rw [← hd i hi]
        rfl
    rw [hi', Option.bind_some]
    exact hedges i t hget
  · have htgt := (hat.exitTaken hg env).resolve_left hs
    have hne : target ≠ switchbl := fun he => hs (he ▸ htgt)
    have htt : target = t := by
      unfold dispatch at ht
      rw [htgt] at ht
      simpa [hne] using ht
    rw [hrefuse htgt x hx]
    exact hp.trans (congrArg some htt)

theorem arity_of_same (hf : f.FlowGraph) (hop : ∀ op ∈ f.multis target, f'.op op = f.op op)
    (hlen : (f'.block target).inEdges.length = (f.block target).inEdges.length) :
    ∀ op ∈ f.multis target, (f'.op op).inrefs.length = (f'.block target).inEdges.length := by
  intro op hop'
  rw [hop op hop', hlen, hf.arity target op hop']

theorem GuardOf.not_multi (h : GuardOf f cb switchbl cbranch indop) (hop : op ∈ f.multis b) :
    op ≠ cbranch := fun he => by
  have hcode := (mem_multis.mp hop).2.2
  rw [he, h.branch.1] at hcode
  exact nomatch hcode

/-- What a push keeps. -/
theorem pushed_of_pushBranch (hf : f.FlowGraph) (hg : GuardOf f cb switchbl cbranch indop)
    (hat : FoldedAt f cb switchbl target dflt indpath)
    (hlen : 1 < (f.op cbranch).inrefs.length) (hpos : target ∉ (f.block switchbl).outEdges)
    (h : f.pushBranch cb (1 - indpath) switchbl = some f') :
    Pushed f f' cb switchbl target indop table dflt (f.block switchbl).outEdges.length ∧
      (f'.block target).inEdges.length = (f.block target).inEdges.length := by
  obtain ⟨hne, hneop⟩ := hg.ne
  have ltcb : cb < f.numBlocks := lt_of_mem_outEdges hat.mem.1
  have lts : switchbl < f.numBlocks := lt_of_mem_inEdges (hg.listed _ hat.mem.1)
  have ltt : target < f.numBlocks := lt_of_mem_inEdges (hg.listed _ hat.mem.2)
  obtain ⟨g, he, hpush⟩ := (@exists_pushBranch _ _ switchbl) hg.last hlen hat.other
  obtain rfl := Option.some.inj (hpush.symm.trans h)
  have lt {b : BlockId} (hb : b < f.numBlocks) (k : BlockBasic → BlockBasic) (a : BlockId) :
      b < (g.modBlock a k).numBlocks := by
    rw [numBlocks_modBlock, he.numBlocks]
    exact hb
  have lt' {b : BlockId} (hb : b < f.numBlocks) (k k' : BlockBasic → BlockBasic) (a c : BlockId) :
      b < ((g.modBlock a k).modBlock c k').numBlocks := by
    rw [numBlocks_modBlock]
    exact lt hb k a
  set g₃ := ((g.modBlock cb fun x => { x with outEdges := x.outEdges.eraseIdx (1 - indpath) }).modBlock
    target fun x => { x with inEdges :=
      (x.inEdges.idxOf? cb).elim x.inEdges fun i => x.inEdges.set i switchbl }).modBlock
    switchbl fun x => { x with outEdges := x.outEdges ++ [target] } with hg₃
  have houts (v : BlockId) : (g₃.block v).outEdges =
      (if v = cb then (f.block cb).outEdges.eraseIdx (1 - indpath) else (f.block v).outEdges) ++
        if v = switchbl then [target] else [] := by
    rw [hg₃, block_modBlock (lt' lts ..), block_modBlock (lt ltt ..), block_modBlock (lt ltt ..),
      block_modBlock (he.numBlocks ▸ ltcb), block_modBlock (he.numBlocks ▸ ltcb),
      block_modBlock (he.numBlocks ▸ ltcb)]
    split_ifs <;> simp_all [he.outEdges]
  have hins (v : BlockId) : (g₃.block v).inEdges =
      if v = target then ((f.block target).inEdges.idxOf? cb).elim (f.block target).inEdges
        fun i => (f.block target).inEdges.set i switchbl else (f.block v).inEdges := by
    rw [hg₃, block_modBlock (lt' lts ..), block_modBlock (lt ltt ..), block_modBlock (lt ltt ..),
      block_modBlock (he.numBlocks ▸ ltcb), block_modBlock (he.numBlocks ▸ ltcb),
      block_modBlock (he.numBlocks ▸ ltcb)]
    split_ifs <;> simp_all [he.inEdges]
  have hop (o : OpId) (ho : o ≠ cbranch) : g₃.op o = f.op o := he.op o (by simpa using ho)
  have hk : Keeps f g₃ := he.keeps.trans (.of_eq rfl rfl)
  have hout : (g₃.block cb).outEdges = [switchbl] := by
    rw [houts, if_pos rfl, if_neg hne, List.append_nil]
    rcases hat.outEdges with ⟨rfl, ho⟩ | ⟨rfl, ho⟩
    · rw [ho]
      rfl
    · rw [ho]
      rfl
  have hswitch : (g₃.block switchbl).outEdges = (f.block switchbl).outEdges ++ [target] := by
    rw [houts, if_neg hne.symm, if_pos rfl]
  obtain ⟨i, hi⟩ : ∃ i, (f.block target).inEdges.idxOf? cb = some i :=
    ⟨_, idxOf?_of_mem (hg.listed _ hat.mem.2)⟩
  have hinsT : (g₃.block target).inEdges = (f.block target).inEdges.set i switchbl := by
    rw [hins, if_pos rfl, hi]
    rfl
  have hmulti : ∀ op ∈ f.multis target, g₃.op op = f.op op := fun op hm => hop op (hg.not_multi hm)
  refine ⟨⟨hout, hswitch, rfl, ⟨i, hi, hinsT⟩, fun env env' hrefuse t ht => ?_, fun op hm => ?_⟩, ?_⟩
  · refine dispatch_of_exit hg hat (exitTaken_of_single hout)
      (switchValue_keeps hf.linked hk (hop indop hneop) env') (fun i t hget => ?_) ?_ (fun d hd => ?_)
      hrefuse ht
    · rw [hswitch, List.getElem?_append_left (List.getElem?_eq_some_iff.mp hget).1, hget]
    · rw [hswitch, List.getElem?_append_right le_rfl, Nat.sub_self]
      rfl
    · -- no default was folded, since the target is no case
      rcases hat.dflt with hn | hn
      · rw [hd] at hn
        exact nomatch hn
      · rw [List.idxOf?_eq_none_iff.mpr hpos, hd] at hn
        exact nomatch hn
  · refine ⟨hmulti op hm, fun env env' hthrough u hu hdef => ?_⟩
    have hval := congrArg Prod.snd
      ((@Keeps.operandOf _ _ env') hk (hf.linked.lt_of_mem_inrefs hu))
    rw [show g₃.valueOf env' u = f.valueOf env' u from hval]
    unfold valueOf
    rw [hthrough u hdef]
  · rw [hinsT, List.length_set]

/-- What a constant condition keeps. -/
theorem neutered_of_constant (hf : f.FlowGraph) (hg : GuardOf f cb switchbl cbranch indop)
    (hat : FoldedAt f cb switchbl target dflt indpath)
    (hlen : 1 < (f.op cbranch).inrefs.length)
    (hpos : (f.block switchbl).outEdges.idxOf? target = some p)
    (h : f' = (f.newConst 1 (if indpath = 0 then 0 else 1)).1.opSetInput cbranch 1
      (f.newConst 1 (if indpath = 0 then 0 else 1)).2) :
    Neutered f f' cb switchbl target cbranch indop table dflt p := by
  obtain ⟨hne, hneop⟩ := hg.ne
  have he₁ : Edits f (f.newConst 1 (if indpath = 0 then 0 else 1)).1 {cbranch} ∅ :=
    .of_blocks (.newConst f 1 _) (fun _ _ => rfl) rfl
  have hc := newConst_vn f 1 (if indpath = 0 then 0 else 1)
  have hclt := newConst_lt f 1 (if indpath = 0 then 0 else 1)
  have hop₁ := newConst_op f 1 (if indpath = 0 then 0 else 1)
  generalize f.newConst 1 (if indpath = 0 then 0 else 1) = r at *
  obtain ⟨g, c⟩ := r
  dsimp only at he₁ hc hclt hop₁ h
  have he₂ : Edits g (g.opSetInput cbranch 1 c) {cbranch} ∅ := .opSetInput g cbranch 1 c
  obtain ⟨u, hself, hst⟩ := @opSetInput_op_self g cbranch 1 c
    (by rw [hop₁]; exact hlen) hclt
  rw [← h] at he₂ hself hst
  have he : Edits f f' {cbranch} ∅ := he₁.trans he₂
  have hop (o : OpId) (ho : o ≠ cbranch) : f'.op o = f.op o := he.op o (by simpa using ho)
  have hcase := (mem_of_idxOf?_eq hpos).2
  -- the value of the new condition
  have hu : ∀ env, f'.valueOf env u = if indpath = 0 then 0 else 1 := fun env => by
    have hconst : (f'.vn u).constant = true := by
      rcases hst.same with ⟨-, hsame⟩ | ⟨hsame, -⟩
      · rw [hsame, hc]
        rfl
      · exact hsame
    rw [valueOf_const hconst]
    unfold Varnode.constantValue
    rw [hst.loc, hc]
    change (if indpath = 0 then (0 : U64) else 1).toNat = _
    split_ifs
    · rfl
    · rfl
  have hexit : (f.op cbranch).booleanFlip = false → ∀ env, f'.exitTaken cb env = some switchbl := by
    intro hflip env
    have hlast : (f'.block cb).ops.getLast? = some cbranch := by
      rw [he.ops cb (Set.notMem_empty cb), hg.last]
    have hinput : (f'.op cbranch).input 1 = some u := by
      rw [hself, hop₁]
      exact List.getElem?_set_self hlen
    have hflip' : (f'.op cbranch).booleanFlip = false := by
      rw [hself, hop₁]
      exact hflip
    rcases hat.outEdges with ⟨h0, ho⟩ | ⟨h1, ho⟩
    · rw [exitTaken_of_cbranch (by rw [he.outEdges, ho]) hlast hinput hflip', hu, if_pos h0,
        if_neg (by simp)]
    · rw [exitTaken_of_cbranch (by rw [he.outEdges, ho]) hlast hinput hflip', hu,
        if_neg (show indpath ≠ 0 by omega), if_pos one_ne_zero]
  refine ⟨hcase, he.outEdges, he.inEdges, hexit, fun hflip env env' hrefuse t ht => ?_,
    fun op hm => hop op (hg.not_multi hm)⟩
  refine dispatch_of_exit hg hat (hexit hflip env)
    (switchValue_keeps hf.linked he.keeps (hop indop hneop) env') (fun i t hget => ?_) ?_
    (fun d hd => ?_) hrefuse ht
  · rw [he.outEdges, hget]
  · rw [he.outEdges, hcase]
  · rcases hat.dflt with hn | hn
    · rw [hd] at hn
      exact nomatch hn
    · rw [hpos, hd] at hn
      exact (Option.some.inj hn).symm

/-- What a guard that is folded keeps of the dispatch. -/
theorem folded_of_foldInOneGuard (hf : f.FlowGraph) (hg : GuardOf f cb switchbl cbranch indop)
    (h : f.foldInOneGuard cbranch indpath indop dflt = some (some (f', p))) :
    ∃ target, target ∈ (f.block cb).outEdges ∧
      Folded f f' cb switchbl target cbranch indop table dflt p := by
  obtain ⟨target, hat, hlen, hfold⟩ := of_foldInOneGuard hg h
  refine ⟨target, hat.mem.2, ?_⟩
  have hstatements : ∀ op ∈ (f.block switchbl).ops, f.HasEffect switchbl op →
      (f.op op).opcode.isMarker = true ∨ (f.op op).opcode = .copy ∨ (f.op op).opcode = .subpiece :=
    fun op hop heff => hasEffect_of_noInterveningStatement hat.statements hop heff
  rcases hfold with ⟨hpos, hpush, rfl⟩ | ⟨hpos, hconst⟩
  · obtain ⟨hpushed, hins⟩ :=
      (@pushed_of_pushBranch _ _ _ _ _ _ _ table) hf hg hat hlen hpos hpush
    exact ⟨fun _ => hpushed, fun hmem => absurd hmem hpos,
      arity_of_same hf (fun op hm => (hpushed.phis op hm).1) hins, hstatements⟩
  · obtain ⟨v, hv, hsize⟩ := hg.cond
    have hone : (((f.op cbranch).input 1).elim 1 fun v => (f.vn v).size) = 1 := by
      rw [hv]
      exact hsize
    rw [hone] at hconst
    have hneut : Neutered f f' cb switchbl target cbranch indop table dflt p := by
      refine neutered_of_constant hf hg hat hlen hpos ?_
      rw [hconst]
      unfold newExtendedConstant
      rw [if_pos (by norm_num)]
      rcases hat.outEdges with ⟨rfl, -⟩ | ⟨rfl, -⟩
      · rfl
      · rfl
    refine ⟨fun hnot => absurd (List.mem_of_getElem? hneut.case) hnot, fun _ => hneut,
      arity_of_same hf hneut.phis ?_, hstatements⟩
    rw [hneut.inEdges]

/-! A guard in block 0 of a switch in block 1, with the default block 2 and a case in block 3. -/

def guardVarnodes (tied : Bool) (inputs : List VarnodeId) : List Varnode :=
  [{ loc := ⟨1, 0x30⟩, size := 1, annotation := true, descend := [0], nzm := 0xff },
    { loc := ⟨2, 0⟩, size := 1, input := true, insert := true, descend := [0], nzm := 1 },
    { loc := ⟨2, 4⟩, size := 4, input := true, insert := true, descend := [1, 2],
      nzm := calcMask 4 },
    { loc := ⟨2, 8⟩, size := 4, written := true, insert := true, addrtied := tied, defOp := some 1,
      nzm := calcMask 4 },
    { loc := ⟨2, 12⟩, size := 4, input := true, insert := true, nzm := calcMask 4,
      descend := List.replicate (inputs.count 4) 3 },
    { loc := ⟨2, 16⟩, size := 4, input := true, insert := true, nzm := calcMask 4,
      descend := List.replicate (inputs.count 5) 3 },
    { loc := ⟨3, 0⟩, size := 4, written := true, insert := true, defOp := some 3,
      nzm := calcMask 4 }]

def guardOps (flip : Bool) (inputs : List VarnodeId) : List PcodeOp :=
  [{ opcode := .cbranch, parent := some 0, inrefs := [0, 1], booleanFlip := flip },
    { opcode := .copy, parent := some 1, output := some 3, inrefs := [2] },
    { opcode := .branchind, parent := some 1, inrefs := [2] },
    { opcode := .multiequal, parent := some 2, output := some 6, inrefs := inputs }]

/-- The default block is no case of the switch. -/
def pushedGraph (tied : Bool) : Funcdata :=
  ofLists (guardVarnodes tied [4]) (guardOps false [4])
    [{ ops := [0], outEdges := [1, 2] }, { ops := [1, 2], inEdges := [0], outEdges := [3] },
      { ops := [3], inEdges := [0] }, { ops := [], inEdges := [1] }]

/-- The default block is a case of the switch, its MULTIEQUAL reads `inputs` from the guard and from
the switch. -/
def casedGraph (flip : Bool) (inputs : List VarnodeId) : Funcdata :=
  ofLists (guardVarnodes false inputs) (guardOps flip inputs)
    [{ ops := [0], outEdges := [1, 2] }, { ops := [1, 2], inEdges := [0], outEdges := [3, 2] },
      { ops := [3], inEdges := [0, 1] }, { ops := [], inEdges := [1] }]

/-- The graph when the guard is folded. -/
def foldedGraph (f : Funcdata) : Funcdata :=
  ((f.foldInOneGuard 0 0 2 none).bind id).elim f Prod.fst

theorem flowGraph_pushed (tied : Bool) : (pushedGraph tied).FlowGraph := by
  cases tied with
  | false => exact flowGraph_ofLists (by decide +kernel) (by decide +kernel)
  | true => exact flowGraph_ofLists (by decide +kernel) (by decide +kernel)

theorem guardOf_pushed (tied : Bool) : GuardOf (pushedGraph tied) 0 1 0 2 := by
  cases tied with
  | false => exact ⟨rfl, ⟨rfl, rfl⟩, ⟨1, rfl, rfl⟩, rfl, ⟨rfl, rfl⟩, by decide, by decide⟩
  | true => exact ⟨rfl, ⟨rfl, rfl⟩, ⟨1, rfl, rfl⟩, rfl, ⟨rfl, rfl⟩, by decide, by decide⟩

theorem fold_pushed (tied : Bool) : (pushedGraph tied).foldInOneGuard 0 0 2 none =
    some (some ((pushedGraph tied).foldedGraph, 1)) := by
  cases tied with
  | false => rfl
  | true => rfl

theorem folded_of_foldInOneGuard_pushed : ∃ target ∈ ((pushedGraph false).block 0).outEdges,
    Folded (pushedGraph false) (pushedGraph false).foldedGraph 0 1 target 0 2 (fun _ => none) none 1 :=
  folded_of_foldInOneGuard (flowGraph_pushed false) (guardOf_pushed false) (fold_pushed false)

/-- The guard of the graph is folded, and the dispatch not kept. -/
structure FoldBreaks (f : Funcdata) (table : ℕ → Option ℕ) : Prop where
  graph : f.FlowGraph
  guard : GuardOf f 0 1 0 2
  fold : f.foldInOneGuard 0 0 2 none = some (some (f.foldedGraph, 1))
  breaks : ¬ DispatchKept f f.foldedGraph 0 1 2 2 table none 1

/-- A fold does not keep the dispatch where the switch block has a COPY to tied storage, where the
guard refuses a value of the table, where the default block is a case of the switch and reads another
value from there, and where its CBRANCH is flipped. -/
theorem dispatchKept_not_folded : FoldBreaks (pushedGraph true) (fun _ => none) ∧
    FoldBreaks (pushedGraph false) (fun _ => some 0) ∧
    FoldBreaks (casedGraph false [4, 5]) (fun _ => none) ∧
    FoldBreaks (casedGraph true [4, 4]) (fun x => if x = 1 then some 0 else none) := by
  refine ⟨⟨flowGraph_pushed true, guardOf_pushed true, fold_pushed true, fun h => ?_⟩,
    ⟨flowGraph_pushed false, guardOf_pushed false, fold_pushed false, fun h => ?_⟩,
    ⟨flowGraph_ofLists (by decide +kernel) (by decide +kernel),
      ⟨rfl, ⟨rfl, rfl⟩, ⟨1, rfl, rfl⟩, rfl, ⟨rfl, rfl⟩, by decide, by decide⟩, rfl, fun h => ?_⟩,
    ⟨flowGraph_ofLists (by decide +kernel) (by decide +kernel),
      ⟨rfl, ⟨rfl, rfl⟩, ⟨1, rfl, rfl⟩, rfl, ⟨rfl, rfl⟩, by decide, by decide⟩, rfl, fun h => ?_⟩⟩
  · refine h.statements 1 (by decide) ⟨rfl, .inr (.inr (.inr ⟨3, rfl, .inl rfl⟩))⟩
  · -- the guard refuses: the run goes to the default block, then to the case
    have hkept := h.dispatch (fun _ => 1) (fun _ => 1) (fun _ _ => rfl) 2 (by decide +kernel)
    exact absurd hkept (by decide +kernel)
  · -- the MULTIEQUAL reads varnode 4 from the guard and 5 from the switch
    have hkept := h.phis (fun v => v) (fun v => v) (fun _ _ => rfl) (by decide +kernel) 3
      (by decide +kernel) 0 1 4 5 (by decide) (by decide +kernel) rfl (by decide +kernel)
    exact absurd hkept (by decide +kernel)
  · -- the flipped CBRANCH leads to the default block always
    have hkept := h.dispatch (fun _ => 1) (fun _ => 1) (fun _ _ => rfl) 3 (by decide +kernel)
    exact absurd hkept (by decide +kernel)

end Funcdata
end Mosura
