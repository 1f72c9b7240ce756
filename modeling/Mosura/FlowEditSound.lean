import Mosura.FlowEditOps

/-! Surgery on the flow graph keeps the inputs of the MULTIEQUALs with their edges. -/

namespace Mosura
namespace Funcdata

variable {f f' : Funcdata} {E E' : FlowEdges} {val : OpId → EdgeId → Option VarnodeId}
  {a b v : BlockId} {e e' : EdgeId} {i j : ℕ} {p : OpId}

/-- The graph has the edges `E`, and its MULTIEQUALs the inputs `val` for them. -/
structure Tracks (f : Funcdata) (E : FlowEdges) (val : OpId → EdgeId → Option VarnodeId) :
    Prop where
  homed : f.Homed
  wired : f.Wired E
  fed : f.Fed E val

theorem Tracks.sameOps (h : f.Tracks E val) (hw : f'.Wired E') (hs : SameOps f f')
    (hslots : E'.slots = E.slots) : f'.Tracks E' val where
  homed := h.homed.sameOps hs
  wired := hw
  fed b p hp := by
    rw [hslots]
    exact h.fed.sameOps hs b p hp

theorem Tracks.trims (h : f.Tracks E val) (ht : Trims f f') : f'.Tracks E val :=
  ⟨ht.homed h.homed, h.wired.sameEdges ht.edges, h.fed.phisKept ht.phis⟩

theorem multis_newBlockBasic (f : Funcdata) (v : BlockId) :
    f.newBlockBasic.1.multis v = f.multis v := by
  rw [multis, multis, block_newBlockBasic]
  rfl

theorem Tracks.newBlockBasic (h : f.Tracks E val) : f.newBlockBasic.1.Tracks E val where
  homed := by
    refine ⟨fun b p hp => ?_, fun b p hp => ?_, fun b => ?_⟩
    · exact h.homed.listed b p (block_newBlockBasic f b ▸ hp)
    · exact h.homed.parent b p (block_newBlockBasic f b ▸ hp)
    · rw [block_newBlockBasic]
      exact h.homed.nodup b
  wired := h.wired.newBlockBasic
  fed b p hp := h.fed b p (multis_newBlockBasic f b ▸ hp)

theorem ops_numBlocks (f : Funcdata) : (f.block f.numBlocks).ops = [] := by
  rw [block, numBlocks, List.getD_eq_default _ _ le_rfl]
  rfl

/-- A new edge may lead to a block without MULTIEQUALs. -/
theorem Tracks.addEdge (h : f.Tracks E val) (ha : a < f.numBlocks) (hb : b < f.numBlocks)
    (hops : (f.block b).ops = []) : (f.addEdge a b).Tracks (E.add a b) val where
  homed := h.homed.sameOps (.addEdge f a b)
  wired := h.wired.addEdge ha hb
  fed v p hp := by
    have hold := h.fed.sameOps (.addEdge f a b) v p hp
    have hv : v ≠ b := fun hv => by
      have hmem := (mem_multis.mp hp).1
      rw [(SameOps.addEdge f a b).ops, hv, hops] at hmem
      exact List.not_mem_nil hmem
    rw [hold]
    simp only [FlowEdges.add, if_neg hv, List.append_nil]

/-! Removing a branch. -/

theorem Wired.dst_of_outEdges (h : f.Wired E) (he : (E.outs a)[i]? = some e)
    (hb : (f.block a).outEdges[i]? = some b) : b = E.dst e := by
  rw [h.outEdges, List.getElem?_map, he] at hb
  exact (Option.some.inj hb).symm

/-- The MULTIEQUALs of one block lose the input of `e`. -/
theorem Tracks.shrinks (h : f.Tracks E val) (hslot : (E.slots b)[i]? = some e)
    (hin : e ∉ E.ins (E.dst e)) (hs : Shrinks f f' (f.multis b) i) :
    f'.Tracks (E.unslot e) val := by
  have hblk : ∀ v, f'.block v = f.block v := fun v =>
    congrArg (fun l : List BlockBasic => l.getD v default) hs.blocks
  refine ⟨⟨fun v p hp => ?_, fun v p hp => ?_, fun v => ?_⟩, ?_, fun v p hp => ?_⟩
  · rw [hs.numOps]
    exact h.homed.listed v p (hblk v ▸ hp)
  · rw [hs.parent]
    exact h.homed.parent v p (hblk v ▸ hp)
  · rw [hblk]
    exact h.homed.nodup v
  · refine (h.wired.unslot hin).sameEdges fun v => ?_
    rw [hblk]
    exact ⟨rfl, rfl⟩
  · obtain ⟨hmem, hlive, hcode⟩ := mem_multis.mp hp
    rw [hblk] at hmem
    rw [hs.dead] at hlive
    have hold : p ∈ f.multis v := mem_multis.mpr ⟨hmem, hlive, hs.opcode p hcode⟩
    change _ = ((E.slots v).erase e).map (val p)
    rw [hs.inrefs p hcode, h.wired.slots_erase hslot]
    by_cases hv : v = b
    · subst hv
      rw [if_pos hold, if_pos rfl, ← List.eraseIdx_map, ← List.eraseIdx_map, h.fed v p hold]
    · have hb : p ∉ f.multis b := fun hb =>
        hv (h.homed.eq_of_mem hmem (mem_multis.mp hb).1)
      rw [if_neg hb, if_neg hv, h.fed v p hold]

theorem Tracks.branchRemoveInternal {unaffected : Address → ℕ → Bool} (h : f.Tracks E val)
    (hf : f.branchRemoveInternal unaffected a i = some f') (ho : (E.outs a)[i]? = some e)
    (hi : f.inAt E (E.dst e) a = some e) (hslot : f.slotAt E (E.dst e) a = some e) :
    f'.Tracks ((E.cut e).unslot e) val := by
  obtain ⟨j, hj, hej⟩ := inAt_eq_some.mp hi
  unfold slotAt at hslot
  rw [hj] at hslot
  have ht := trims_dropDecision f a
  have h' := h.trims ht
  unfold Funcdata.branchRemoveInternal at hf
  generalize f.dropDecision a = g at hf ht h'
  obtain ⟨bbout, hout, hf⟩ := Option.bind_eq_some_iff.mp hf
  obtain rfl := h'.wired.dst_of_outEdges ho hout
  rw [(ht.edges _).2, hj] at hf
  dsimp only [Option.bind_eq_bind, Option.bind_some] at hf
  have hcut := h'.sameOps (h'.wired.removeAt ho hej) ((SameOps.modBlock g a fun _ => by rfl).trans
    (SameOps.modBlock _ (E.dst e) fun _ => by rfl)) rfl
  refine hcut.shrinks hslot (fun hm => ?_) (shrinks_foldlM_dropBranch (hcut.homed.nodup_multis _) hf)
  exact ((h.wired.sound.ins_nodup _).mem_erase_iff.mp hm).1 rfl

/-! Splitting a block. -/

theorem isBranch_multiequal : OpCode.isBranch .multiequal = false := rfl

/-- A new block gets clones of the ops of `b`, whose MULTIEQUALs lose input `i`. -/
theorem Wired.cloneBlockOps {bprime : BlockId} (hw : f.Wired E') (hhomed : f.Homed)
    (hfed : f.Fed E val) (hb : bprime < f.numBlocks) (hops : (f.block bprime).ops = [])
    (hslots : ∀ v ≠ bprime, E'.slots v = if v = b then (E.slots b).eraseIdx i else E.slots v)
    (hf : f.cloneBlockOps b bprime i = some f') : f'.Tracks E' val := by
  unfold Funcdata.cloneBlockOps at hf
  obtain ⟨⟨g, clones⟩, hg, hf⟩ := Option.bind_eq_some_iff.mp hf
  dsimp only at hf
  obtain ⟨hc, hsnd⟩ := clones_cloneOps hb (hhomed.listed b) hg
  have hlt : ∀ c ∈ clones, c.2 < f.numOps := fun c hcm =>
    hhomed.listed b c.2 (List.mem_of_mem_filter (hsnd ▸ List.mem_map_of_mem hcm))
  have hp : Patches g f' clones i := by
    refine patches_foldlM (fun c hcm => ?_) hc.nodup ?_ (fun c hcm d hd => ?_) hf
    · rw [hc.opcode c hcm, hc.old _ (hlt c hcm)]
    · rw [hsnd]
      exact (hhomed.nodup b).filter _
    · exact ((hlt d hd).trans_le (hc.ge c hcm)).ne'
  have hblk : ∀ v, f'.block v = g.block v := fun v =>
    congrArg (fun l : List BlockBasic => l.getD v default) hp.blocks
  have hnew : ∀ p, p ∈ (g.block bprime).ops ↔ p ∈ clones.map Prod.fst := fun p => by
    rw [hc.perm.mem_iff, hops, List.nil_append]
  refine ⟨⟨fun v p hpm => ?_, fun v p hpm => ?_, fun v => ?_⟩, ?_, fun v p hpm => ?_⟩
  · rw [hblk] at hpm
    rw [hp.numOps]
    by_cases hv : v = bprime
    · obtain ⟨c, hcm, rfl⟩ := List.mem_map.mp ((hnew p).mp (hv ▸ hpm))
      exact hc.lt c hcm
    · exact (hhomed.listed v p (hc.ops v hv ▸ hpm)).trans_le hc.numOps
  · rw [hblk] at hpm
    rw [hp.parent]
    by_cases hv : v = bprime
    · obtain ⟨c, hcm, rfl⟩ := List.mem_map.mp ((hnew p).mp (hv ▸ hpm))
      rw [hv]
      exact hc.parent c hcm
    · have hold := hc.ops v hv ▸ hpm
      rw [hc.old p (hhomed.listed v p hold)]
      exact hhomed.parent v p hold
  · rw [hblk]
    by_cases hv : v = bprime
    · rw [hv, hc.perm.nodup_iff, hops, List.nil_append]
      exact hc.nodup
    · rw [hc.ops v hv]
      exact hhomed.nodup v
  · refine hw.sameEdges fun v => ?_
    rw [hblk]
    exact hc.edges v
  · obtain ⟨hmem, hlive, hcode⟩ := mem_multis.mp hpm
    rw [hblk] at hmem
    by_cases hv : v = bprime
    · -- a clone is no MULTIEQUAL
      obtain ⟨c, hcm, rfl⟩ := List.mem_map.mp ((hnew p).mp (hv ▸ hmem))
      exact absurd hcode (hp.clone c hcm)
    · rw [hc.ops v hv] at hmem
      have hpn := hhomed.listed v p hmem
      have hgp := hc.old p hpn
      have hgcode := hgp ▸ hp.opcode p hcode
      have hold : p ∈ f.multis v := mem_multis.mpr ⟨hmem, hgp ▸ hp.dead p ▸ hlive, hgcode⟩
      have hfst : p ∉ clones.map Prod.fst := fun hm => by
        obtain ⟨c, hcm, rfl⟩ := List.mem_map.mp hm
        exact absurd (hc.ge c hcm) (not_le.mpr hpn)
      rw [hp.inrefs p hfst hcode, hslots v hv, hsnd, hgp]
      by_cases hvb : v = b
      · subst hvb
        have hmem' : p ∈ (f.block v).ops.filter fun o => !(f.op o).opcode.isBranch :=
          List.mem_filter.mpr ⟨hmem, by rw [hgcode, isBranch_multiequal]; rfl⟩
        rw [if_pos hmem', if_pos rfl, ← List.eraseIdx_map, ← List.eraseIdx_map, hfed v p hold]
      · rw [if_neg fun hm => hvb (hhomed.eq_of_mem hmem (List.mem_of_mem_filter hm)), if_neg hvb,
          hfed v p hold]

theorem mem_ins_inj (h : f.Wired E) (hnd : (f.block b).inEdges.Nodup) (he : e ∈ E.ins b)
    (he' : e' ∈ E.ins b) (hs : E.src e = E.src e') : e = e' := by
  rw [h.inEdges] at hnd
  exact List.inj_on_of_nodup_map hnd he he' hs

theorem Tracks.nodeSplit (h : f.Tracks E val) (hf : f.nodeSplit b i = some f')
    (hi : (E.ins b)[i]? = some e) (hslot : (E.slots b)[i]? = some e) :
    f'.Tracks (E.takeOver e f.numBlocks) val := by
  unfold Funcdata.nodeSplit at hf
  split_ifs at hf with hcond
  push Not at hcond
  obtain ⟨a, ha, hf⟩ := Option.bind_eq_some_iff.mp hf
  have hsrc : a = E.src e := by
    rw [h.wired.inEdges, List.getElem?_map, hi] at ha
    exact (Option.some.inj ha).symm
  obtain rfl := hsrc
  have hein := List.mem_of_getElem? hi
  obtain ⟨k, hk, hf⟩ := Option.bind_eq_some_iff.mp hf
  change (f.newBlockBasic.1.block (E.src e)).outEdges.idxOf? b = some k at hk
  rw [block_newBlockBasic] at hk
  -- the in-edges are from different blocks, so the one out-edge to `b` is the edge
  have hek : (E.outs (E.src e))[k]? = some e := by
    have hkb : (f.block (E.src e)).outEdges[k]? = some b := by
      obtain ⟨hlt, hget, -⟩ := List.idxOf?_eq_some_iff.mp hk
      rw [List.getElem?_eq_getElem hlt, hget]
    rw [h.wired.outEdges, List.getElem?_map, Option.map_eq_some_iff] at hkb
    obtain ⟨x, hx, hxb⟩ := hkb
    obtain ⟨hxs, hxin⟩ := h.wired.sound.of_outs (List.mem_of_getElem? hx)
    rw [hx, mem_ins_inj h.wired hcond.2.2 (hxb ▸ hxin) hein hxs]
  have hblt : b < f.numBlocks := h.wired.lt_of_ins hein
  have h1 := h.newBlockBasic
  have hv : f.numBlocks < f.newBlockBasic.1.numBlocks := by
    rw [numBlocks_newBlockBasic]
    exact Nat.lt_succ_self _
  obtain ⟨g, hg, hw, hs⟩ := h1.wired.takeOver hek hi hv
  change (Funcdata.cloneBlockOps (((f.newBlockBasic.1.modBlock (E.src e) _).modBlock b _).modBlock
    f.numBlocks _) b f.numBlocks i) = some f' at hf
  rw [hg] at hf
  refine hw.cloneBlockOps (h1.homed.sameOps hs) (h1.fed.sameOps hs) ?_ ?_ (fun v hv' => ?_) hf
  · rw [hs.numBlocks]
    exact hv
  · rw [hs.ops, block_newBlockBasic, ops_numBlocks]
  · change (E.slots v).erase e ++ _ = _
    rw [if_neg hv', List.append_nil, h.wired.slots_erase hslot]

/-! Renumbering the blocks. -/

theorem setParents_op (ops : List OpId) (b : BlockId) (f : Funcdata) (p : OpId) :
    (f.setParents ops b).op p = if p ∈ ops then { f.op p with parent := some b } else f.op p := by
  induction ops generalizing f with
  | nil => rw [if_neg List.not_mem_nil]; rfl
  | cons o ops ih =>
    rw [setParents, List.foldl_cons]
    refine (ih _).trans ?_
    rw [modOp_op]
    by_cases hpo : p = o
    · subst hpo
      rw [if_pos rfl, if_pos List.mem_cons_self]
      split_ifs <;> rfl
    · rw [if_neg hpo]
      simp only [List.mem_cons, hpo, false_or]

theorem setParents_numOps (ops : List OpId) (b : BlockId) (f : Funcdata) :
    (f.setParents ops b).numOps = f.numOps := by
  induction ops generalizing f with
  | nil => rfl
  | cons o ops ih => exact ih _

/-- Only parents change, and an op that is listed under one number only gets it. -/
theorem foldl_setParents (ops : BlockId → List OpId) (l : List (BlockId × ℕ)) (f : Funcdata)
    (p : OpId) : ∃ q, (l.foldl (fun g c => g.setParents (ops c.1) c.2) f).op p =
      { f.op p with parent := q } ∧ ∀ i, (∀ c ∈ l, p ∈ ops c.1 → c.2 = i) →
        ((∃ c ∈ l, p ∈ ops c.1) ∨ (f.op p).parent = some i) → q = some i := by
  induction l generalizing f with
  | nil =>
    refine ⟨(f.op p).parent, rfl, fun i _ h => ?_⟩
    exact h.resolve_left fun ⟨c, hc, _⟩ => List.not_mem_nil hc
  | cons c l ih =>
    obtain ⟨q, hq, hqi⟩ := ih (f.setParents (ops c.1) c.2)
    refine ⟨q, ?_, fun i hi h => hqi i (fun d hd => hi d (List.mem_cons_of_mem _ hd)) ?_⟩
    · rw [List.foldl_cons, hq, setParents_op]
      split_ifs <;> rfl
    · rw [setParents_op]
      by_cases hp : p ∈ ops c.1
      · right
        rw [if_pos hp, hi c List.mem_cons_self hp]
      · rw [if_neg hp]
        refine h.imp ?_ id
        rintro ⟨d, hd, hpd⟩
        rcases List.mem_cons.mp hd with rfl | hd
        · exact absurd hpd hp
        · exact ⟨d, hd, hpd⟩

theorem foldl_setParents_numOps (ops : BlockId → List OpId) (l : List (BlockId × ℕ))
    (f : Funcdata) : (l.foldl (fun g c => g.setParents (ops c.1) c.2) f).numOps = f.numOps := by
  induction l generalizing f with
  | nil => rfl
  | cons c l ih => exact (ih _).trans (setParents_numOps _ _ _)

variable {reachable : List Bool}

/-- A block of the new graph is a kept one of the old one, with its ops. -/
theorem ops_renumberReachable (hf : f.renumberReachable reachable = some f')
    (hp : p ∈ (f'.block v).ops) :
    ∃ b, (keptOrder reachable)[v]? = some b ∧ p ∈ (f.block b).ops := by
  rw [block_renumberReachable hf] at hp
  cases hv : (keptOrder reachable)[v]? with
  | none =>
    rw [hv] at hp
    exact absurd hp List.not_mem_nil
  | some b =>
    rw [hv] at hp
    exact ⟨b, rfl, hp⟩

theorem Tracks.renumberReachable (h : f.Tracks E val) (h0 : reachable.getD 0 false = true)
    (hf : f.renumberReachable reachable = some f') : f'.Tracks (E.renumber reachable) val := by
  have hop : ∀ p, ∃ q, f'.op p = { f.op p with parent := q } ∧
      ∀ i, (∀ c ∈ (keptOrder reachable).zipIdx, p ∈ (f.block c.1).ops → c.2 = i) →
        ((∃ c ∈ (keptOrder reachable).zipIdx, p ∈ (f.block c.1).ops) ∨ (f.op p).parent = some i) →
          q = some i := fun p => by
    rw [renumberReachable_eq hf]
    exact foldl_setParents (fun b => (f.block b).ops) (keptOrder reachable).zipIdx f p
  have hn : f'.numOps = f.numOps := by
    rw [renumberReachable_eq hf]
    exact foldl_setParents_numOps (fun b => (f.block b).ops) (keptOrder reachable).zipIdx f
  refine ⟨⟨fun v p hp => ?_, fun v p hp => ?_, fun v => ?_⟩, h.wired.renumber h0 hf,
    fun v p hp => ?_⟩
  · obtain ⟨b, -, hp⟩ := ops_renumberReachable hf hp
    rw [hn]
    exact h.homed.listed b p hp
  · obtain ⟨b, hb, hp⟩ := ops_renumberReachable hf hp
    obtain ⟨q, hq, hqi⟩ := hop p
    rw [hq]
    refine hqi v (fun c hc hpc => ?_) (.inl ⟨(b, v), List.mem_zipIdx_iff_getElem?.mpr hb, hp⟩)
    have hcb := h.homed.eq_of_mem hpc hp
    have hc := List.mem_zipIdx_iff_getElem?.mp hc
    rw [hcb] at hc
    exact ((nodup_keptOrder reachable).idxOf_eq hc).symm.trans
      ((nodup_keptOrder reachable).idxOf_eq hb)
  · rw [block_renumberReachable hf]
    cases (keptOrder reachable)[v]? with
    | none => exact List.nodup_nil
    | some b => exact h.homed.nodup b
  · obtain ⟨hmem, hlive, hcode⟩ := mem_multis.mp hp
    obtain ⟨b, hb, hmem⟩ := ops_renumberReachable hf hmem
    obtain ⟨q, hq, -⟩ := hop p
    rw [hq] at hlive hcode ⊢
    simp only [FlowEdges.renumber, hb, Option.elim_some]
    exact h.fed b p (mem_multis.mpr ⟨hmem, hlive, hcode⟩)

/-! Splicing a block. -/

/-- What `splice_block_basic` has made of `f` before it renumbers the blocks. -/
structure Spliced (f f' : Funcdata) (bb outbl : BlockId) : Prop where
  numOps : f'.numOps = f.numOps
  op : ∀ p, ∃ q, f'.op p = { f.op p with parent := q } ∧
    q = if p ∈ (f.block outbl).ops then some bb else (f.op p).parent
  ops : ∀ v, (f'.block v).ops = if v = bb then
    (if bb = outbl then [] else (f.block bb).ops) ++ (f.block outbl).ops
    else if v = outbl then [] else (f.block v).ops
  outEdges : ∀ v, (f'.block v).outEdges =
    if v = outbl then [] else if v = bb then (f.block outbl).outEdges else (f.block v).outEdges
  inEdges : ∀ v, (f'.block v).inEdges =
    if v = outbl then [] else (f.block v).inEdges.map fun u => if u = outbl then bb else u

theorem Tracks.spliced {bb outbl : BlockId} (h : f.Tracks E val) (hs : Spliced f f' bb outbl)
    (ho : E.outs bb = [e]) (hi : E.ins outbl = [e]) (hm : f.multis outbl = []) :
    f'.Tracks (E.absorb bb outbl) val := by
  have hmem : ∀ v p, p ∈ (f'.block v).ops → p ∈ (f.block v).ops ∨ v = bb ∧ p ∈ (f.block outbl).ops := by
    intro v p hp
    rw [hs.ops] at hp
    split_ifs at hp with hv hbo hv'
    · exact .inr ⟨hv, hp⟩
    · exact (List.mem_append.mp hp).imp (fun hp => hv ▸ hp) fun hp => ⟨hv, hp⟩
    · exact absurd hp List.not_mem_nil
    · exact .inl hp
  refine ⟨⟨fun v p hp => ?_, fun v p hp => ?_, fun v => ?_⟩,
    h.wired.absorb ho hi hs.outEdges hs.inEdges, fun v p hp => ?_⟩
  · rw [hs.numOps]
    rcases hmem v p hp with hp | ⟨-, hp⟩
    · exact h.homed.listed v p hp
    · exact h.homed.listed outbl p hp
  · obtain ⟨q, hq, hqv⟩ := hs.op p
    rw [hq, hqv]
    split_ifs with hpo
    · rcases hmem v p hp with hp' | ⟨rfl, -⟩
      · -- `p` can be listed here only as an op that moved
        obtain rfl := h.homed.eq_of_mem hp' hpo
        rw [hs.ops] at hp
        split_ifs at hp with hv hv'
        · exact congrArg some hv.symm
        · exact congrArg some hv.symm
        · exact absurd hp List.not_mem_nil
        · exact absurd rfl ‹¬v = v›
      · rfl
    · exact h.homed.parent v p ((hmem v p hp).resolve_right fun hr => hpo hr.2)
  · rw [hs.ops]
    split_ifs with hv hbo hv'
    · exact h.homed.nodup outbl
    · refine List.nodup_append.mpr ⟨h.homed.nodup bb, h.homed.nodup outbl, ?_⟩
      intro x hx y hy hxy
      exact hbo (h.homed.eq_of_mem hx (hxy ▸ hy))
    · exact List.nodup_nil
    · exact h.homed.nodup v
  · obtain ⟨hpm, hlive, hcode⟩ := mem_multis.mp hp
    obtain ⟨q, hq, -⟩ := hs.op p
    rw [hq] at hlive hcode ⊢
    have hpo : p ∉ (f.block outbl).ops := fun hpo => by
      have hpm := mem_multis.mpr ⟨hpo, hlive, hcode⟩
      rw [hm] at hpm
      exact List.not_mem_nil hpm
    have hpv := (hmem v p hpm).resolve_right fun hr => hpo hr.2
    have hvo : v ≠ outbl := fun hv => hpo (hv ▸ hpv)
    simp only [FlowEdges.absorb, if_neg hvo]
    exact h.fed v p (mem_multis.mpr ⟨hpv, hlive, hcode⟩)

theorem setParents_block (ops : List OpId) (b v : BlockId) (f : Funcdata) :
    (f.setParents ops b).block v = f.block v :=
  congrArg (fun l : List BlockBasic => l.getD v default) (setParents_blocks ops b f)

theorem setParents_numBlocks (ops : List OpId) (b : BlockId) (f : Funcdata) :
    (f.setParents ops b).numBlocks = f.numBlocks := congrArg List.length (setParents_blocks ops b f)

/-- In the in-edges of the blocks of `l` an idempotent `k` is applied, however often they are
listed. -/
theorem foldl_modBlock (k : BlockId → BlockId) (hk : ∀ u, k (k u) = k u) (l : List BlockId)
    (f : Funcdata) (hl : ∀ o ∈ l, o < f.numBlocks) :
    (l.foldl (fun g o => g.modBlock o fun x => { x with inEdges := x.inEdges.map k }) f).numBlocks =
        f.numBlocks ∧
      (l.foldl (fun g o => g.modBlock o fun x => { x with inEdges := x.inEdges.map k }) f).op =
        f.op ∧
      (l.foldl (fun g o => g.modBlock o fun x => { x with inEdges := x.inEdges.map k }) f).numOps =
        f.numOps ∧
      ∀ v, (l.foldl (fun g o => g.modBlock o fun x => { x with inEdges := x.inEdges.map k }) f).block
        v = if v ∈ l then { f.block v with inEdges := (f.block v).inEdges.map k } else f.block v := by
  induction l generalizing f with
  | nil => exact ⟨rfl, rfl, rfl, fun v => (if_neg List.not_mem_nil).symm⟩
  | cons o l ih =>
    have ho := hl o List.mem_cons_self
    have hn := numBlocks_modBlock f o fun x => { x with inEdges := x.inEdges.map k }
    obtain ⟨h1, h2, h3, h4⟩ := ih (f.modBlock o fun x => { x with inEdges := x.inEdges.map k })
      fun o' ho' => hn ▸ hl o' (List.mem_cons_of_mem _ ho')
    refine ⟨h1.trans hn, h2, h3, fun v => ?_⟩
    rw [List.foldl_cons, h4, block_modBlock ho]
    by_cases hv : v = o
    · subst hv
      rw [if_pos rfl, if_pos List.mem_cons_self]
      split_ifs
      · simp only [List.map_map, Function.comp_def, hk]
      · rfl
    · rw [if_neg hv]
      simp only [List.mem_cons, hv, false_or]

theorem block_takeOps {bb outbl : BlockId} (hbb : bb < f.numBlocks) (hol : outbl < f.numBlocks)
    (v : BlockId) : (f.takeOps bb outbl).block v = { f.block v with ops := if v = bb then
      (if bb = outbl then [] else (f.block bb).ops) ++ (f.block outbl).ops
      else if v = outbl then [] else (f.block v).ops } := by
  have hbb' : ∀ g ops, bb < ((f.modBlock outbl g).setParents ops bb).numBlocks := fun g ops => by
    rw [setParents_numBlocks, numBlocks_modBlock]
    exact hbb
  unfold takeOps
  rw [block_modBlock (hbb' _ _), setParents_block, setParents_block, block_modBlock hol,
    block_modBlock hol]
  split_ifs <;> simp_all

theorem takeOps_op (f : Funcdata) (bb outbl : BlockId) (p : OpId) :
    (f.takeOps bb outbl).op p =
      if p ∈ (f.block outbl).ops then { f.op p with parent := some bb } else f.op p :=
  setParents_op _ _ _ p

theorem takeOutEdges_spec {bb outbl : BlockId} (hw : f.Wired E) (hbb : bb < f.numBlocks)
    (hol : outbl < f.numBlocks) : (f.takeOutEdges bb outbl).numOps = f.numOps ∧
      (f.takeOutEdges bb outbl).numBlocks = f.numBlocks ∧ (f.takeOutEdges bb outbl).op = f.op ∧
      ∀ v, (f.takeOutEdges bb outbl).block v =
        { ops := (f.block v).ops
          outEdges := if v = outbl then [] else if v = bb then (f.block outbl).outEdges
            else (f.block v).outEdges
          inEdges := if v = outbl then [] else
            (f.block v).inEdges.map fun u => if u = outbl then bb else u } := by
  have hk : ∀ u, (fun e => if e = outbl then bb else e) ((fun e => if e = outbl then bb else e) u) =
      (fun e => if e = outbl then bb else e) u := fun u => by
    dsimp only
    split_ifs <;> simp_all
  have hlt : ∀ o ∈ (f.block outbl).outEdges, o < f.numBlocks := fun o ho => by
    rw [hw.outEdges] at ho
    obtain ⟨x, hx, rfl⟩ := List.mem_map.mp ho
    exact hw.lt_of_ins (hw.sound.of_outs hx).2
  -- the blocks `outbl` leads to are those that list it
  have hid : ∀ v, v ∉ (f.block outbl).outEdges →
      (f.block v).inEdges.map (fun e => if e = outbl then bb else e) = (f.block v).inEdges := by
    intro v hv
    refine (List.map_congr_left fun u hu => ?_).trans (List.map_id _)
    rw [if_neg, id]
    rintro rfl
    rw [hw.inEdges] at hu
    obtain ⟨x, hx, rfl⟩ := List.mem_map.mp hu
    refine hv ?_
    rw [hw.outEdges, ← (hw.sound.of_ins hx).1]
    exact List.mem_map_of_mem (hw.sound.of_ins hx).2
  unfold takeOutEdges
  dsimp only
  obtain ⟨h1, h2, h3, h4⟩ := foldl_modBlock (fun e => if e = outbl then bb else e) hk
    (f.block outbl).outEdges f hlt
  generalize (f.block outbl).outEdges.foldl _ f = g at h1 h2 h3 h4 ⊢
  have hol' : ∀ k, outbl < (g.modBlock bb k).numBlocks := fun k => by
    rw [numBlocks_modBlock, h1]
    exact hol
  refine ⟨h3, ?_, h2, fun v => ?_⟩
  · rw [numBlocks_modBlock, numBlocks_modBlock, h1]
  · rw [block_modBlock (hol' _), block_modBlock (h1 ▸ hbb), block_modBlock (h1 ▸ hbb), h4, h4]
    have hv := hid v
    split_ifs <;> simp_all

theorem numBlocks_takeOps (f : Funcdata) (bb outbl : BlockId) :
    (f.takeOps bb outbl).numBlocks = f.numBlocks := by
  unfold takeOps
  rw [numBlocks_modBlock, setParents_numBlocks, numBlocks_modBlock]

theorem spliced_take {bb outbl : BlockId} (hw : f.Wired E) (hbb : bb < f.numBlocks)
    (hol : outbl < f.numBlocks) :
    Spliced f ((f.takeOps bb outbl).takeOutEdges bb outbl) bb outbl ∧
      ((f.takeOps bb outbl).takeOutEdges bb outbl).numBlocks = f.numBlocks := by
  have hblk := block_takeOps hbb hol
  have hn := numBlocks_takeOps f bb outbl
  have hw' : (f.takeOps bb outbl).Wired E := hw.sameEdges fun v => by
    rw [hblk]
    exact ⟨rfl, rfl⟩
  obtain ⟨h1, h2, h3, h4⟩ := takeOutEdges_spec hw' (hn ▸ hbb) (hn ▸ hol)
  refine ⟨⟨h1.trans (setParents_numOps _ _ _), fun p => ⟨_, ?_, rfl⟩, fun v => ?_, fun v => ?_,
    fun v => ?_⟩, h2.trans hn⟩
  · rw [h3, takeOps_op]
    split_ifs <;> rfl
  · rw [h4, hblk]
  · rw [h4, hblk, hblk]
  · rw [h4, hblk]

theorem spliced_spliceBlockBasic {bb outbl : BlockId} (h : f.Tracks E val)
    (hout : (f.block bb).outEdges = [outbl]) (hf : f.spliceBlockBasic bb = some (f', true)) :
    (f.block outbl).inEdges.length = 1 ∧ ∃ g, Spliced (f.dropJump bb) g bb outbl ∧
      g.renumberReachable ((List.replicate f.numBlocks true).set outbl false) = some f' := by
  unfold spliceBlockBasic at hf
  simp only [hout] at hf
  split_ifs at hf with hin hmul
  · exact absurd (congrArg Prod.snd (Option.some.inj hf)) Bool.false_ne_true
  · exact absurd (congrArg Prod.snd (Option.some.inj hf)) Bool.false_ne_true
  have hin := not_not.mp hin
  have ht := trims_dropJump f bb
  have hbb : bb < (f.dropJump bb).numBlocks := by
    rw [ht.numBlocks]
    exact lt_of_mem_outEdges (hout ▸ List.mem_singleton_self outbl)
  have hol : outbl < (f.dropJump bb).numBlocks := by
    rw [ht.numBlocks]
    obtain ⟨u, hu⟩ := List.length_eq_one_iff.mp hin
    exact lt_of_mem_inEdges (hu ▸ List.mem_singleton_self u)
  obtain ⟨hs, hn⟩ := spliced_take (h.trims ht).wired hbb hol
  obtain ⟨r, hr, hrf⟩ := Option.map_eq_some_iff.mp hf
  obtain rfl := congrArg Prod.fst hrf
  rw [hn, ht.numBlocks] at hr
  exact ⟨hin, _, hs, hr⟩

theorem Tracks.spliceBlockBasic {bb outbl : BlockId} (h : f.Tracks E val)
    (hout : (f.block bb).outEdges = [outbl]) (hf : f.spliceBlockBasic bb = some (f', true))
    (h0 : outbl ≠ 0) (hm : f.multis outbl = []) :
    f'.Tracks ((E.absorb bb outbl).renumber ((List.replicate f.numBlocks true).set outbl false))
      val := by
  obtain ⟨hin, g, hs, hg⟩ := spliced_spliceBlockBasic h hout hf
  have ht := trims_dropJump f bb
  have houts : ∃ e, E.outs bb = [e] ∧ E.dst e = outbl := by
    rw [h.wired.outEdges] at hout
    obtain ⟨e, he, hd⟩ := List.map_eq_singleton_iff.mp hout
    exact ⟨e, he, hd⟩
  obtain ⟨e, heo, hd⟩ := houts
  have hei : E.ins outbl = [e] := by
    have hmem := (h.wired.sound.of_outs (heo ▸ List.mem_singleton_self e)).2
    rw [hd] at hmem
    rw [h.wired.inEdges, List.length_map] at hin
    obtain ⟨x, hx⟩ := List.length_eq_one_iff.mp hin
    rw [hx] at hmem ⊢
    rw [List.mem_singleton.mp hmem]
  have hm' : (f.dropJump bb).multis outbl = [] :=
    List.eq_nil_iff_forall_not_mem.mpr fun p hp =>
      List.not_mem_nil (hm ▸ (ht.phis outbl p hp).1)
  refine ((h.trims ht).spliced hs heo hei hm').renumberReachable ?_ hg
  have hpos : 0 < f.numBlocks :=
    (Nat.zero_le _).trans_lt (lt_of_mem_outEdges (hout ▸ List.mem_singleton_self outbl))
  rw [List.getD_eq_getElem?_getD, List.getElem?_set_ne h0, List.getElem?_replicate, if_pos hpos]
  rfl

end Funcdata
end Mosura
