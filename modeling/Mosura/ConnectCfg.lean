import Mosura.Postorder

/-! The end of `build_cfg`, `cfg.rs`: the in-edges of the pruned blocks, and the entry block that no
edge leads to. -/

namespace Mosura

/-- `creation_seq`: the new block numbers by their old ones, which are those of creation. -/
def creationSeq (order : List ℕ) : List BlockId :=
  (List.range order.length).mergeSort fun a b => order.getD a 0 ≤ order.getD b 0

/-- `blocks[o].in_edges.push(bi)`; `none` is the panic of an id out of range. -/
def pushInEdge (bi : BlockId) (blocks : List BlockBasic) (o : BlockId) : Option (List BlockBasic) :=
  (blocks[o]?).map fun blk => blocks.set o { blk with inEdges := blk.inEdges ++ [bi] }

/-- `FlowInfo::connectBasic`: each predecessor in creation order adds its edges. -/
def connectBasic (order : List ℕ) (blocks : List BlockBasic) : Option (List BlockBasic) :=
  (creationSeq order).foldlM (fun blocks bi =>
    (blocks[bi]?).bind fun blk => blk.outEdges.foldlM (pushInEdge bi) blocks) blocks

/-- Every edge of a block leads to and comes from the next number. -/
def shiftEdges (blk : BlockBasic) : BlockBasic :=
  { blk with inEdges := blk.inEdges.map (· + 1), outEdges := blk.outEdges.map (· + 1) }

/-- Make sure the entry block has no incoming edges: an empty block in front of it is the new entry. -/
def guardEntry : List BlockBasic → List BlockBasic
  | [] => []
  | entry :: rest =>
    if entry.inEdges = [] then entry :: rest
    else
      let old := shiftEdges entry
      { outEdges := [1] } :: { old with inEdges := old.inEdges ++ [0] } :: rest.map shiftEdges

variable {blocks g : List BlockBasic} {order : List ℕ} {a b o w bi : BlockId} {l seq : List BlockId}

/-- The in-edges of a block with more at the end. -/
def addIns (ins : List BlockId) (blk : BlockBasic) : BlockBasic :=
  { blk with inEdges := blk.inEdges ++ ins }

theorem pushInEdge_spec (ho : o < blocks.length) : ∃ g, pushInEdge bi blocks o = some g ∧
    ∀ w, g[w]? = (blocks[w]?).map (addIns (if o = w then [bi] else [])) := by
  refine ⟨_, by rw [pushInEdge, List.getElem?_eq_getElem ho, Option.map_some], fun w => ?_⟩
  by_cases how : o = w
  · subst how
    rw [List.getElem?_set_self ho, List.getElem?_eq_getElem ho, if_pos rfl]
    rfl
  · rw [List.getElem?_set_ne how, if_neg how]
    cases blocks[w]? with
    | none => rfl
    | some blk => simp [addIns]

theorem length_eq_of_map {h : ℕ → BlockBasic → BlockBasic}
    (hg : ∀ w : ℕ, g[w]? = (blocks[w]?).map (h w)) : g.length = blocks.length := by
  have hnone : ∀ w : ℕ, g[w]? = none ↔ blocks[w]? = none := by
    intro w
    rw [hg, Option.map_eq_none_iff]
  have h1 := (hnone g.length).mp (List.getElem?_eq_none_iff.mpr le_rfl)
  have h2 := (hnone blocks.length).mpr (List.getElem?_eq_none_iff.mpr le_rfl)
  exact le_antisymm (List.getElem?_eq_none_iff.mp h2) (List.getElem?_eq_none_iff.mp h1)

/-- The edges of one predecessor. -/
theorem pushInEdges_spec (hl : ∀ o ∈ l, o < blocks.length) :
    ∃ g, l.foldlM (pushInEdge bi) blocks = some g ∧
      ∀ w, g[w]? = (blocks[w]?).map (addIns (List.replicate (l.count w) bi)) := by
  induction l generalizing blocks with
  | nil =>
    refine ⟨blocks, rfl, fun w => ?_⟩
    cases blocks[w]? with
    | none => rfl
    | some blk => simp [addIns]
  | cons o l ih =>
    obtain ⟨g, hg, hgw⟩ := pushInEdge_spec (hl o List.mem_cons_self)
    have hlen := length_eq_of_map hgw
    obtain ⟨g', hg', hgw'⟩ := ih fun x hx => hlen ▸ hl x (List.mem_cons_of_mem _ hx)
    refine ⟨g', by rw [List.foldlM_cons, hg]; exact hg', fun w => ?_⟩
    rw [hgw', hgw, List.count_cons]
    cases blocks[w]? with
    | none => rfl
    | some blk =>
      by_cases how : o = w
      · simp [addIns, how, List.replicate_succ]
      · simp [addIns, how]

/-- The out-edges of a block. -/
def outsOf (blocks : List BlockBasic) (a : BlockId) : List BlockId :=
  (blocks.getD a default).outEdges

theorem connectFold_spec (hseq : ∀ a ∈ seq, a < blocks.length)
    (hout : ∀ a, ∀ o ∈ outsOf blocks a, o < blocks.length) :
    ∃ g, seq.foldlM (fun blocks bi =>
        (blocks[bi]?).bind fun blk => blk.outEdges.foldlM (pushInEdge bi) blocks) blocks = some g ∧
      ∀ w, g[w]? = (blocks[w]?).map
        (addIns (seq.flatMap fun a => List.replicate ((outsOf blocks a).count w) a)) := by
  induction seq generalizing blocks with
  | nil =>
    refine ⟨blocks, rfl, fun w => ?_⟩
    cases blocks[w]? with
    | none => rfl
    | some blk => simp [addIns]
  | cons bi seq ih =>
    have hbi := hseq bi List.mem_cons_self
    have houts : outsOf blocks bi = blocks[bi].outEdges := by
      rw [outsOf, List.getD_eq_getElem _ _ hbi]
    obtain ⟨g, hg, hgw⟩ := pushInEdges_spec fun o ho => hout bi o (houts ▸ ho)
    have hlen := length_eq_of_map hgw
    have hsame : ∀ a, outsOf g a = outsOf blocks a := by
      intro a
      rw [outsOf, outsOf, List.getD_eq_getElem?_getD, List.getD_eq_getElem?_getD, hgw]
      cases blocks[a]? <;> rfl
    obtain ⟨g', hg', hgw'⟩ := ih (fun a ha => hlen ▸ hseq a (List.mem_cons_of_mem _ ha))
      fun a o ho => hlen ▸ hout a o (hsame a ▸ ho)
    refine ⟨g', ?_, fun w => ?_⟩
    · rw [List.foldlM_cons, List.getElem?_eq_getElem hbi, Option.bind_some, hg]
      exact hg'
    · rw [hgw', hgw, List.flatMap_cons, houts]
      simp only [hsame]
      cases blocks[w]? with
      | none => rfl
      | some blk => simp [addIns]

theorem mem_creationSeq : a ∈ creationSeq order ↔ a < order.length := by
  rw [creationSeq, List.mem_mergeSort, List.mem_range]

/-- The blocks that `build_cfg` connects: each edge leads to one of them, each is reached from the
first. -/
structure Pruned (blocks : List BlockBasic) : Prop where
  fresh : ∀ b, (blocks.getD b default).inEdges = []
  lt : ∀ a, ∀ o ∈ outsOf blocks a, o < blocks.length
  reached : ∀ b < blocks.length, Relation.ReflTransGen (fun a b => b ∈ outsOf blocks a) 0 b

/-- `connectBasic` lists every edge at the block it leads to, as often as at the block it leaves. -/
theorem connectBasic_spec (h : Pruned blocks) (hlen : order.length = blocks.length) :
    ∃ g, connectBasic order blocks = some g ∧ g.length = blocks.length ∧
      (∀ a, outsOf g a = outsOf blocks a) ∧
      ∀ a b, b ∈ outsOf g a ↔ a ∈ (g.getD b default).inEdges := by
  obtain ⟨g, hg, hgw⟩ := connectFold_spec
    (fun a (ha : a ∈ creationSeq order) => hlen ▸ mem_creationSeq.mp ha) h.lt
  have houts : ∀ a, outsOf g a = outsOf blocks a := by
    intro a
    rw [outsOf, outsOf, List.getD_eq_getElem?_getD, List.getD_eq_getElem?_getD, hgw]
    cases blocks[a]? <;> rfl
  refine ⟨g, hg, length_eq_of_map hgw, houts, fun a b => ?_⟩
  have hins : (g.getD b default).inEdges = if b < blocks.length then
      (creationSeq order).flatMap fun a => List.replicate ((outsOf blocks a).count b) a else [] := by
    have hfresh := h.fresh b
    rw [List.getD_eq_getElem?_getD] at hfresh
    rw [List.getD_eq_getElem?_getD, hgw]
    by_cases hb : b < blocks.length
    · rw [List.getElem?_eq_getElem hb] at hfresh ⊢
      simp only [Option.getD_some] at hfresh
      simp [addIns, hb, hfresh]
    · rw [List.getElem?_eq_none (not_lt.mp hb), if_neg hb]
      rfl
  rw [houts, hins]
  constructor
  · intro hb
    have ha : a < blocks.length := by
      by_contra ha
      rw [outsOf, List.getD_eq_default _ _ (not_lt.mp ha)] at hb
      exact List.not_mem_nil hb
    rw [if_pos (h.lt a b hb), List.mem_flatMap]
    refine ⟨a, mem_creationSeq.mpr (hlen ▸ ha), ?_⟩
    exact List.mem_replicate.mpr ⟨(List.count_pos_iff.mpr hb).ne', rfl⟩
  · intro ha
    split_ifs at ha with hb
    · obtain ⟨c, -, hc⟩ := List.mem_flatMap.mp ha
      obtain ⟨hn, rfl⟩ := List.mem_replicate.mp hc
      exact List.count_pos_iff.mp (Nat.pos_of_ne_zero hn)
    · exact absurd ha List.not_mem_nil

namespace Funcdata

variable {f : Funcdata}

/-- A new entry in front of a graph. -/
theorem guardEntry_shift {entry : BlockBasic} {rest : List BlockBasic}
    (h : ({ f with blocks := entry :: rest } : Funcdata).EntryReachable) (hne : entry.inEdges ≠ []) :
    ({ f with blocks := guardEntry (entry :: rest) } : Funcdata).EntryReachable := by
  let F : Funcdata := { f with blocks := entry :: rest }
  let F' : Funcdata := { f with blocks := guardEntry (entry :: rest) }
  have hF' : F'.blocks = { outEdges := [1] } ::
      { shiftEdges entry with inEdges := entry.inEdges.map (· + 1) ++ [0] } ::
        rest.map shiftEdges := if_neg hne
  have hlater : ∀ b, F'.block (b + 2) = shiftEdges (F.block (b + 1)) := by
    intro b
    rw [block, hF']
    change (rest.map shiftEdges).getD b default = shiftEdges (rest.getD b default)
    rw [List.getD_eq_getElem?_getD, List.getD_eq_getElem?_getD, List.getElem?_map]
    cases rest[b]? <;> rfl
  have hfirst : F'.block 1 = { shiftEdges entry with inEdges := entry.inEdges.map (· + 1) ++ [0] } := by
    rw [block, hF']
    rfl
  have houts0 : (F'.block 0).outEdges = [1] := by
    rw [block, hF']
    rfl
  have hins0 : (F'.block 0).inEdges = [] := by
    rw [block, hF']
    rfl
  have houts : ∀ b, (F'.block (b + 1)).outEdges = (F.block b).outEdges.map (· + 1) := by
    intro b
    cases b with
    | zero =>
      rw [hfirst]
      rfl
    | succ b =>
      rw [hlater]
      rfl
  have hins : ∀ a b, a ∈ (F'.block (b + 1)).inEdges ↔
      a ∈ (F.block b).inEdges.map (· + 1) ∨ a = 0 ∧ b = 0 := by
    intro a b
    cases b with
    | zero =>
      rw [hfirst, List.mem_append, List.mem_singleton, and_iff_left rfl]
      rfl
    | succ b =>
      rw [hlater]
      simp [shiftEdges]
  have hedge : ∀ a b, F.Edge a b → F'.Edge (a + 1) (b + 1) := by
    intro a b hab
    rw [Edge, houts]
    exact List.mem_map_of_mem hab
  refine ⟨fun a b => ?_, fun b hb => ?_⟩
  · change b ∈ (F'.block a).outEdges ↔ a ∈ (F'.block b).inEdges
    cases a with
    | zero =>
      rw [houts0, List.mem_singleton]
      cases b with
      | zero => simp [hins0]
      | succ b => simp [hins]
    | succ a =>
      rw [houts]
      cases b with
      | zero => simp [hins0]
      | succ b =>
        have := h.edges a b
        rw [hins]
        simpa using this
  · change Relation.ReflTransGen F'.Edge 0 b
    cases b with
    | zero => exact .refl
    | succ b =>
      have hb' : b < F.numBlocks := by
        have hlen : F'.numBlocks = F.numBlocks + 1 := by
          rw [numBlocks, hF']
          simp [F, numBlocks]
        change b + 1 < F'.numBlocks at hb
        omega
      refine .head (b := 1) (by rw [Edge, houts0]; exact List.mem_singleton_self 1) ?_
      exact (h.reached b hb').lift (· + 1) hedge

/-- What `build_cfg` hands on is a graph of which every block is reached from block 0, to which no edge
leads. -/
theorem buildCfg_entryReachable (h : Pruned blocks) (hlen : order.length = blocks.length) :
    ∃ g, connectBasic order blocks = some g ∧
      ({ f with blocks := guardEntry g } : Funcdata).EntryReachable ∧
      (({ f with blocks := guardEntry g } : Funcdata).block 0).inEdges = [] := by
  obtain ⟨g, hg, hglen, houts, hedges⟩ := connectBasic_spec h hlen
  refine ⟨g, hg, ?_⟩
  have hgr : ({ f with blocks := g } : Funcdata).EntryReachable := by
    refine ⟨hedges, fun b hb => ?_⟩
    have hstep : ∀ x y, y ∈ outsOf blocks x → ({ f with blocks := g } : Funcdata).Edge x y := by
      intro x y hxy
      rwa [← houts] at hxy
    exact (h.reached b (hglen ▸ hb)).lift id hstep
  cases g with
  | nil => exact ⟨hgr, rfl⟩
  | cons entry rest =>
    by_cases hne : entry.inEdges = []
    · rw [guardEntry, if_pos hne]
      exact ⟨hgr, hne⟩
    · refine ⟨guardEntry_shift hgr hne, ?_⟩
      rw [guardEntry, if_neg hne]
      rfl

def withoutOps (blocks : List BlockBasic) : Funcdata where
  spaces := SpaceManager.standard false
  vn _ := default
  numVarnodes := 0
  op _ := default
  numOps := 0
  blocks := blocks

/-- A loop back to the entry. -/
theorem buildCfg_entryReachable_loop : ∃ g,
    connectBasic [1, 0] [{ outEdges := [1] }, { outEdges := [0] }] = some g ∧
      (withoutOps (guardEntry g)).EntryReachable ∧ ((withoutOps (guardEntry g)).block 0).inEdges = [] := by
  refine buildCfg_entryReachable (f := withoutOps []) ⟨fun b => ?_, fun a => ?_, fun b hb => ?_⟩ rfl
  · rcases b with _ | _ | b <;> rfl
  · rcases a with _ | _ | a
    · decide
    · decide
    · exact fun o ho => absurd ho List.not_mem_nil
  · change b < 2 at hb
    interval_cases b
    · exact .refl
    · exact .single (by decide)

end Funcdata
end Mosura
