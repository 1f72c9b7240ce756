import Mosura.BlockJoinFlow
import Mosura.FlowGraph

/-! What a join does to the ops: the MULTIEQUALs of the new block, its CBRANCH, and the MULTIEQUALs
of the exits. -/

namespace Mosura
namespace Funcdata

variable {f g g' g'' : Funcdata} {S : Set OpId} {B : Set BlockId} {b v : BlockId} {op o : OpId}

theorem Edits.opUninsert (g : Funcdata) (hp : (g.op op).parent = some b) (hb : b < g.numBlocks) :
    Edits g (g.opUninsert op) {op} {b} := by
  unfold Funcdata.opUninsert
  rw [hp]
  exact modOps g hb fun l => l.erase op

/-! The MULTIEQUALs of the join block. -/

theorem exists_of_forall₂ {α β : Type*} {R : α → β → Prop} {xs : List α} {ys : List β}
    (h : List.Forall₂ R xs ys) {y : β} (hy : y ∈ ys) : ∃ x ∈ xs, R x y := by
  induction h with
  | nil => exact absurd hy List.not_mem_nil
  | cons hR _ ih =>
    rcases List.mem_cons.mp hy with rfl | hy
    · exact ⟨_, List.mem_cons_self, hR⟩
    · obtain ⟨x, hx, hR'⟩ := ih hy
      exact ⟨x, List.mem_cons_of_mem _ hx, hR'⟩

/-- The op `p` merges a pair of varnodes of `f`. -/
structure MergedBy (f g : Funcdata) (p : OpId) (m : MergeKey × VarnodeId) : Prop where
  opcode : (g.op p).opcode = .multiequal
  dead : (g.op p).dead = false
  output : (g.op p).output = some m.2
  inrefs : List.Forall₂ (Stands f g) [m.1.1, m.1.2] (g.op p).inrefs
  ge : f.numVarnodes ≤ m.2
  lt : m.2 < g.numVarnodes
  constant : (g.vn m.2).constant = false

theorem MergedBy.keep {p : OpId} {m : MergeKey × VarnodeId} (h : MergedBy f g p m)
    (hk : Keeps g g') (hp : g'.op p = g.op p) : MergedBy f g' p m where
  opcode := by rw [hp, h.opcode]
  dead := by rw [hp, h.dead]
  output := by rw [hp, h.output]
  inrefs := by
    rw [hp]
    exact h.inrefs.imp fun _ _ hs => hs.keeps hk
  ge := h.ge
  lt := h.lt.trans_le hk.le
  constant := by rw [hk.constant _ h.lt, h.constant]

theorem MergedBy.of_keeps {p : OpId} {m : MergeKey × VarnodeId} (h : MergedBy g g' p m)
    (hk : Keeps f g) (h1 : m.1.1 < f.numVarnodes) (h2 : m.1.2 < f.numVarnodes) :
    MergedBy f g' p m where
  opcode := h.opcode
  dead := h.dead
  output := h.output
  inrefs := by
    have hin := h.inrefs
    revert hin
    generalize (g'.op p).inrefs = l
    rintro (_ | ⟨hs1, _ | ⟨hs2, _ | _⟩⟩)
    exact .cons (hs1.of_keeps hk h1) (.cons (hs2.of_keeps hk h2) .nil)
  ge := hk.le.trans h.ge
  lt := h.lt
  constant := h.constant

/-- `g` is `f` with the MULTIEQUALs `phis` for the pairs of `merged` at the end of block `b`. -/
structure Merges (f g : Funcdata) (b : BlockId) (phis : List OpId)
    (merged : List (MergeKey × VarnodeId)) : Prop where
  keeps : Keeps f g
  old : ∀ o < f.numOps, g.op o = f.op o
  numOps : f.numOps ≤ g.numOps
  numBlocks : g.numBlocks = f.numBlocks
  outEdges : ∀ v, (g.block v).outEdges = (f.block v).outEdges
  inEdges : ∀ v, (g.block v).inEdges = (f.block v).inEdges
  ops : ∀ v, (g.block v).ops = if v = b then (f.block b).ops ++ phis else (f.block v).ops
  fresh : ∀ p ∈ phis, f.numOps ≤ p ∧ p < g.numOps
  nodup : (merged.map Prod.snd).Nodup
  merged : List.Forall₂ (MergedBy f g) phis merged

theorem Merges.nil (f : Funcdata) (b : BlockId) : Merges f f b [] [] where
  keeps := .refl f
  old _ _ := rfl
  numOps := le_rfl
  numBlocks := rfl
  outEdges _ := rfl
  inEdges _ := rfl
  ops v := by
    split_ifs with h
    · rw [h, List.append_nil]
    · rfl
  fresh := nofun
  nodup := List.nodup_nil
  merged := .nil

theorem Merges.trans {phis phis' : List OpId} {merged merged' : List (MergeKey × VarnodeId)}
    (h : Merges f g b phis merged) (h' : Merges g g' b phis' merged')
    (hkeys : ∀ m ∈ merged', m.1.1 < f.numVarnodes ∧ m.1.2 < f.numVarnodes) :
    Merges f g' b (phis ++ phis') (merged ++ merged') where
  keeps := h.keeps.trans h'.keeps
  old o ho := (h'.old o (ho.trans_le h.numOps)).trans (h.old o ho)
  numOps := h.numOps.trans h'.numOps
  numBlocks := h'.numBlocks.trans h.numBlocks
  outEdges v := (h'.outEdges v).trans (h.outEdges v)
  inEdges v := (h'.inEdges v).trans (h.inEdges v)
  ops v := by
    rw [h'.ops v, h.ops b, h.ops v, if_pos rfl]
    split_ifs
    · rw [List.append_assoc]
    · rfl
  fresh p hp := by
    rcases List.mem_append.mp hp with hp | hp
    · exact ⟨(h.fresh p hp).1, (h.fresh p hp).2.trans_le h'.numOps⟩
    · exact ⟨h.numOps.trans (h'.fresh p hp).1, (h'.fresh p hp).2⟩
  nodup := by
    rw [List.map_append, List.nodup_append]
    refine ⟨h.nodup, h'.nodup, fun x hx y hy hxy => ?_⟩
    obtain ⟨m, hm, rfl⟩ := List.mem_map.mp hx
    obtain ⟨m', hm', rfl⟩ := List.mem_map.mp hy
    obtain ⟨_, _, hp⟩ := exists_of_forall₂ h.merged hm
    obtain ⟨_, _, hp'⟩ := exists_of_forall₂ h'.merged hm'
    exact absurd (hxy ▸ hp.lt) (not_lt.mpr hp'.ge)
  merged := by
    have hzip := List.forall₂_iff_zip.mp h.merged
    have hzip' := List.forall₂_iff_zip.mp h'.merged
    refine List.rel_append (List.forall₂_iff_zip.mpr ⟨hzip.1, fun hm => ?_⟩)
      (List.forall₂_iff_zip.mpr ⟨hzip'.1, fun hm => ?_⟩)
    · exact (hzip.2 hm).keep h'.keeps (h'.old _ (h.fresh _ (List.of_mem_zip hm).1).2)
    · obtain ⟨h1, h2⟩ := hkeys _ (List.of_mem_zip hm).2
      exact (hzip'.2 hm).of_keeps h.keeps h1 h2

/-- The end of a block that no jump ends. -/
theorem ops_opInsertEnd (hb : b < g.numBlocks)
    (hops : ∀ p ∈ (g.block b).ops, p ≠ op ∧ (g.op p).opcode.terminatesBlock = false) (v : BlockId) :
    ((g.opInsertEnd op b).block v).ops =
      if v = b then (g.block b).ops ++ [op] else (g.block v).ops := by
  have hends : ((g.block b).ops.getLast?.any fun last =>
      ((g.modOp op fun o => { o with parent := some b }).op last).opcode.terminatesBlock) =
        false := by
    rw [Option.any_eq_false_iff_get]
    intro hlast
    obtain ⟨hne, hterm⟩ := hops _ (List.mem_of_getLast? (Option.some_get hlast).symm)
    rw [modOp_op, if_neg hne, hterm]
  have hpos : (if ((g.block b).ops.getLast?.any fun last =>
      ((g.modOp op fun o => { o with parent := some b }).op last).opcode.terminatesBlock) = true
      then (g.block b).ops.length - 1 else (g.block b).ops.length) = (g.block b).ops.length := by
    rw [hends, if_neg Bool.false_ne_true]
  unfold Funcdata.opInsertEnd
  dsimp only
  rw [block_modBlock (f := g.modOp op _) hb]
  by_cases hv : v = b
  · rw [if_pos hv, if_pos hv]
    have hinsert := List.insertIdx_length_self (l := (g.block b).ops) (x := op)
    rw [← hpos] at hinsert
    exact hinsert
  · rw [if_neg hv, if_neg hv]
    rfl

theorem merges_setupMultiequal (pc : Address) (hb : b < f.numBlocks) {key : MergeKey}
    (hops : ∀ p ∈ (f.block b).ops, p < f.numOps ∧ (f.op p).opcode.terminatesBlock = false)
    (h1 : key.1 < f.numVarnodes) (h2 : key.2 < f.numVarnodes) :
    Merges f (f.setupMultiequal pc b key).1 b [f.numOps]
      [(key, (f.setupMultiequal pc b key).2)] := by
  have hkeys : ∀ v ∈ [key.1, key.2], v < f.numVarnodes := by simp [h1, h2]
  obtain ⟨hk₁, hn₁, ⟨ids, hself₁, hst⟩, hne₁⟩ := newOp_spec f .multiequal ⟨pc, f.numOps⟩ hkeys
  have hblocks₁ := (grows_newOp f .multiequal ⟨pc, f.numOps⟩ [key.1, key.2]).blocks
  unfold setupMultiequal
  change Merges f (((f.newOp .multiequal ⟨pc, f.numOps⟩ [key.1, key.2]).1.newOutputUnique f.numOps
    (f.vn key.1).size).1.opInsertEnd f.numOps b) b [f.numOps]
    [(key, (f.newOp .multiequal ⟨pc, f.numOps⟩ [key.1, key.2]).1.numVarnodes)]
  generalize (f.newOp .multiequal ⟨pc, f.numOps⟩ [key.1, key.2]).1 = g₁ at *
  obtain ⟨hk₂, hn₂, hv₂, hself₂, hne₂, -, hc₂⟩ :=
    newOutputUnique_spec g₁ f.numOps (f.vn key.1).size (by rw [hself₁])
  have hblocks₂ : (g₁.newOutputUnique f.numOps (f.vn key.1).size).1.blocks = g₁.blocks := by
    unfold newOutputUnique newOutput
    rw [hself₁]
    rfl
  generalize (g₁.newOutputUnique f.numOps (f.vn key.1).size).1 = g₂ at *
  have hblock (v : BlockId) : g₂.block v = f.block v := by
    unfold block
    rw [hblocks₂, hblocks₁]
  have hn : g₂.numBlocks = f.numBlocks := by
    unfold numBlocks
    rw [hblocks₂, hblocks₁]
  have he := Edits.opInsertEnd g₂ f.numOps (b := b) (hn ▸ hb)
  have hold (o : OpId) (ho : o ≠ f.numOps) : (g₂.opInsertEnd f.numOps b).op o = f.op o := by
    rw [he.op o (by simpa using ho), hne₂ o ho, hne₁ o ho]
  have hnew : (g₂.opInsertEnd f.numOps b).op f.numOps = { (g₂.op f.numOps) with parent := some b } := by
    rw [opInsertEnd_op, if_pos rfl]
  have hnum : (g₂.opInsertEnd f.numOps b).numOps = f.numOps + 1 := hn₂.trans hn₁
  have hlt : g₁.numVarnodes < (g₂.opInsertEnd f.numOps b).numVarnodes :=
    lt_of_lt_of_le (lt_of_lt_of_eq (Nat.lt_succ_self _) hv₂.symm) he.keeps.le
  refine ⟨(hk₁.trans hk₂).trans he.keeps, fun o ho => hold o ho.ne, ?_, he.numBlocks.trans hn,
    fun v => ?_, fun v => ?_, fun v => ?_, ?_, ?_, ?_⟩
  · exact (Nat.le_succ _).trans_eq hnum.symm
  · rw [he.outEdges, hblock]
  · rw [he.inEdges, hblock]
  · rw [ops_opInsertEnd (hn ▸ hb) fun p hp => ?_]
    · rw [hblock, hblock]
    · rw [hblock] at hp
      obtain ⟨hp, hterm⟩ := hops p hp
      rw [hne₂ p hp.ne, hne₁ p hp.ne]
      exact ⟨hp.ne, hterm⟩
  · intro p hp
    rw [List.mem_singleton.mp hp]
    exact ⟨le_rfl, lt_of_lt_of_eq (Nat.lt_succ_self _) hnum.symm⟩
  · exact List.nodup_singleton _
  · refine .cons ⟨?_, ?_, ?_, ?_, ?_, ?_, ?_⟩ .nil
    · rw [hnew, hself₂, hself₁]
    · rw [hnew, hself₂, hself₁]
    · rw [hnew, hself₂]
    · rw [hnew, hself₂, hself₁]
      exact hst.imp fun _ _ hs => hs.keeps (hk₂.trans he.keeps)
    · exact hk₁.le
    · exact hlt
    · rw [he.keeps.constant _ (lt_of_lt_of_eq (Nat.lt_succ_self _) hv₂.symm), hc₂]

theorem merges_setupMultiequals (pc : Address) {keys : List MergeKey} (hb : b < f.numBlocks)
    (hops : ∀ p ∈ (f.block b).ops, p < f.numOps ∧ (f.op p).opcode.terminatesBlock = false)
    (hkeys : ∀ k ∈ keys, k.1 < f.numVarnodes ∧ k.2 < f.numVarnodes) :
    ∃ phis, Merges f (setupMultiequals pc b f keys).1 b phis (setupMultiequals pc b f keys).2 ∧
      (setupMultiequals pc b f keys).2.map Prod.fst = keys := by
  induction keys generalizing f with
  | nil => exact ⟨[], .nil f b, rfl⟩
  | cons key keys ih =>
    obtain ⟨h1, h2⟩ := hkeys key List.mem_cons_self
    have hkeys' : ∀ k ∈ keys, k.1 < f.numVarnodes ∧ k.2 < f.numVarnodes := fun k hk =>
      hkeys k (List.mem_cons_of_mem _ hk)
    have hone := merges_setupMultiequal pc hb hops h1 h2
    -- the block ends with the MULTIEQUAL that was put there
    have hops' : ∀ p ∈ ((f.setupMultiequal pc b key).1.block b).ops,
        p < (f.setupMultiequal pc b key).1.numOps ∧
          ((f.setupMultiequal pc b key).1.op p).opcode.terminatesBlock = false := by
      intro p hp
      rw [hone.ops, if_pos rfl, List.mem_append, List.mem_singleton] at hp
      rcases hp with hp | rfl
      · obtain ⟨hlt, hterm⟩ := hops p hp
        exact ⟨hlt.trans_le hone.numOps, by rw [hone.old p hlt, hterm]⟩
      · obtain ⟨-, hlt⟩ := hone.fresh _ (List.mem_singleton_self _)
        have hm := hone.merged
        rw [List.forall₂_cons] at hm
        refine ⟨hlt, ?_⟩
        rw [hm.1.opcode]
        rfl
    obtain ⟨phis, hrest, hfst⟩ := ih (hone.numBlocks.symm ▸ hb) hops' fun k hk =>
      ⟨(hkeys' k hk).1.trans_le hone.keeps.le, (hkeys' k hk).2.trans_le hone.keeps.le⟩
    have hall := hone.trans hrest fun m hm => hkeys' m.1 (hfst ▸ List.mem_map_of_mem hm)
    exact ⟨[f.numOps] ++ phis, hall, congrArg (key :: ·) hfst⟩

/-- Each recorded pair has its merged varnode. -/
theorem exists_lookup {keys : List MergeKey} {merged : List (MergeKey × VarnodeId)}
    (hfst : merged.map Prod.fst = keys) {key : MergeKey} (hkey : key ∈ keys) :
    ∃ w, merged.lookup key = some w ∧ (key, w) ∈ merged := by
  induction merged generalizing keys with
  | nil =>
    rw [← hfst] at hkey
    exact absurd hkey List.not_mem_nil
  | cons m merged ih =>
    rw [← hfst, List.map_cons, List.mem_cons] at hkey
    rw [List.lookup_cons]
    by_cases he : key = m.1
    · refine ⟨m.2, by simp [he], ?_⟩
      rw [he]
      exact List.mem_cons_self
    · obtain ⟨w, hw, hmem⟩ := ih rfl (hkey.resolve_left he)
      exact ⟨w, by simpa [beq_false_of_ne he] using hw, List.mem_cons_of_mem _ hmem⟩

/-- The varnode `w` stands for the pair of `v1` and `v2`. -/
def Combined (merged : List (MergeKey × VarnodeId)) (v1 v2 w : VarnodeId) : Prop :=
  v1 = v2 ∧ w = v1 ∨ v1 ≠ v2 ∧ merged.lookup (v1, v2) = some w ∧ ((v1, v2), w) ∈ merged

theorem exists_combined {keys : List MergeKey} {merged : List (MergeKey × VarnodeId)}
    (hfst : merged.map Prod.fst = keys) {v1 v2 : VarnodeId} (h : v1 = v2 ∨ (v1, v2) ∈ keys) :
    ∃ w, Combined merged v1 v2 w := by
  by_cases he : v1 = v2
  · exact ⟨v1, .inl ⟨he, rfl⟩⟩
  · obtain ⟨w, hw, hmem⟩ := exists_lookup hfst (h.resolve_left he)
    exact ⟨w, .inr ⟨he, hw, hmem⟩⟩

theorem Stands.later {v u : VarnodeId} (h : Stands f g v u) (hk : Keeps f g)
    (hv : v < f.numVarnodes) : Stands g g v u where
  lt := h.lt
  size := h.size.trans (hk.size v hv).symm
  loc := h.loc.trans (congrArg Address.offset (hk.loc v hv)).symm
  same := by
    rw [hk.constant v hv]
    exact h.same

/-! The CBRANCH of the join block. -/

theorem opDestroy_opcode (f : Funcdata) (op : OpId) :
    ((f.opDestroy op).op op).opcode = (f.op op).opcode := by
  have htake := takeInputs_op f op op
  rw [if_pos rfl] at htake
  have hcode : ((f.takeInputs op).op op).opcode = (f.op op).opcode := by rw [htake]
  rw [← hcode]
  unfold Funcdata.opDestroy
  generalize f.takeInputs op = g
  dsimp only
  cases (g.op op).output with
  | none => rw [modOp_op, if_pos rfl]
  | some out =>
    unfold Funcdata.deleteVarnode
    simp only [modOp_op, modVn_op, if_true]

/-- What `move_cbranch` leaves. -/
structure CbranchMoved (g g' : Funcdata) (c1 c2 : OpId) (b1 joinblock : BlockId) (w : VarnodeId) :
    Prop where
  edits : Edits g g' {c1, c2} {joinblock, b1}
  ops : ∀ v, (g'.block v).ops = if v = joinblock then (g.block joinblock).ops ++ [c1]
    else if v = b1 then (g.block b1).ops.erase c1 else (g.block v).ops
  opcode : (g'.op c1).opcode = (g.op c1).opcode
  dead : (g'.op c1).dead = (g.op c1).dead
  booleanFlip : (g'.op c1).booleanFlip = (g.op c1).booleanFlip
  input : ∃ u, (g'.op c1).input 1 = some u ∧ Stands g g' w u
  destroyed : (g'.op c2).dead = true ∧ (g'.op c2).opcode = (g.op c2).opcode

theorem exists_moveCbranch {c1 c2 : OpId} {b1 : BlockId} {v1 v2 w : VarnodeId}
    {merged : List (MergeKey × VarnodeId)} (hb : b < g.numBlocks) (hb1 : b1 < g.numBlocks)
    (hne : b ≠ b1) (hparent : (g.op c1).parent = some b1) (hc : c1 ≠ c2)
    (hops : ∀ p ∈ (g.block b).ops, p ≠ c1 ∧ (g.op p).opcode.terminatesBlock = false)
    (h1 : (g.op c1).input 1 = some v1) (h2 : (g.op c2).input 1 = some v2)
    (hw : Combined merged v1 v2 w) (hlt : w < g.numVarnodes) :
    ∃ g', g.moveCbranch c1 c2 b merged = some g' ∧ CbranchMoved g g' c1 c2 b1 b w := by
  have hrun : g.moveCbranch c1 c2 b merged =
      some ((((g.opUninsert c1).opInsertEnd c1 b).opSetInput c1 1 w).opDestroy c2) := by
    unfold moveCbranch
    simp only [h1, h2, Option.bind_eq_bind, Option.bind_some]
    rcases hw with ⟨rfl, rfl⟩ | ⟨hne, hlook, -⟩
    · rw [if_neg (not_not.mpr rfl)]
    · rw [if_pos hne, hlook, Option.bind_some]
  have he₁ : Edits g (g.opUninsert c1) {c1, c2} {b, b1} :=
    (Edits.opUninsert g hparent hb1).mono (by simp) (by simp)
  have hun : g.opUninsert c1 = g.modBlock b1 fun x => { x with ops := x.ops.erase c1 } := by
    unfold opUninsert
    rw [hparent]
  have hop₁ : (g.opUninsert c1).op = g.op := by
    rw [hun]
    rfl
  have hops₁ (v : BlockId) : ((g.opUninsert c1).block v).ops =
      if v = b1 then (g.block b1).ops.erase c1 else (g.block v).ops := by
    rw [hun, block_modBlock hb1]
    split_ifs
    · rfl
    · rfl
  rw [hrun]
  generalize g.opUninsert c1 = g₁ at *
  have he₂ : Edits g₁ (g₁.opInsertEnd c1 b) {c1} {b} :=
    .opInsertEnd g₁ c1 (he₁.numBlocks.symm ▸ hb)
  have hop₂ : (g₁.opInsertEnd c1 b).op c1 = { g.op c1 with parent := some b } := by
    rw [opInsertEnd_op, if_pos rfl, hop₁]
  have hops₂ := (@ops_opInsertEnd g₁ _ c1) (he₁.numBlocks.symm ▸ hb) fun p hp => by
    rw [hops₁, if_neg hne] at hp
    rw [hop₁]
    exact hops p hp
  generalize g₁.opInsertEnd c1 b = g₂ at *
  have hslot : 1 < (g₂.op c1).inrefs.length := by
    rw [hop₂]
    exact (List.getElem?_eq_some_iff.mp h1).1
  have hk₂ : Keeps g g₂ := he₁.keeps.trans he₂.keeps
  have he₃ : Edits g₂ (g₂.opSetInput c1 1 w) {c1} ∅ := .opSetInput g₂ c1 1 w
  obtain ⟨u, hself, hst⟩ := opSetInput_op_self g₂ c1 hslot (hlt.trans_le hk₂.le)
  generalize g₂.opSetInput c1 1 w = g₃ at *
  have he₄ : Edits g₃ (g₃.opDestroy c2) {c2} ∅ := .opDestroy g₃ c2
  have hop₄ : (g₃.opDestroy c2).op c1 =
      { g.op c1 with parent := some b, inrefs := (g.op c1).inrefs.set 1 u } := by
    rw [he₄.op c1 (by simpa using hc), hself, hop₂]
  rw [hop₂] at hslot
  refine ⟨_, rfl, ?_, fun v => ?_, ?_, ?_, ?_, ⟨u, ?_, ?_⟩, opDestroy_dead g₃ c2, ?_⟩
  · exact ((he₁.trans (he₂.mono (by simp) (by simp))).trans (he₃.mono (by simp) (by simp))).trans
      (he₄.mono (by simp) (by simp))
  · rw [he₄.ops v (Set.notMem_empty v), he₃.ops v (Set.notMem_empty v), hops₂, hops₁, hops₁,
      if_neg hne]
  · rw [hop₄]
  · rw [hop₄]
  · rw [hop₄]
  · rw [hop₄]
    exact List.getElem?_set_self hslot
  · exact (hst.of_keeps hk₂ hlt).keeps he₄.keeps
  · rw [opDestroy_opcode, he₃.op c2 (by simpa using hc.symm),
      he₂.op c2 (by simpa using hc.symm), hop₁]

/-! The MULTIEQUALs of an exit. -/

/-- The ops of `b` are a run of MULTIEQUALs and COPYs, and what follows it. -/
structure RunOf (g : Funcdata) (b : BlockId) (run rest : List OpId) : Prop where
  lt : b < g.numBlocks
  ops : (g.block b).ops = run ++ rest
  leads : ∀ o ∈ run, (g.op o).opcode = .multiequal ∨ (g.op o).opcode = .copy
  ends : ∀ o ∈ rest.head?, ¬ ((g.op o).opcode = .multiequal ∨ (g.op o).opcode = .copy)
  parent : ∀ o ∈ run, (g.op o).parent = some b
  apart : ∀ o ∈ run, o ∉ rest

/-- A MULTIEQUAL with one input becomes a COPY, and stays in the run. -/
theorem RunOf.collapse {run rest : List OpId} (h : RunOf g b run rest) (hop : op ∈ run) :
    ∃ run', run'.Perm run ∧
      RunOf (((g.opUninsert op).opSetOpcode op .copy).opInsertBegin op b) b run' rest ∧
      Edits g (((g.opUninsert op).opSetOpcode op .copy).opInsertBegin op b) {op} {b} ∧
      (((g.opUninsert op).opSetOpcode op .copy).opInsertBegin op b).op op =
        { g.op op with opcode := .copy } := by
  have hparent := h.parent op hop
  have he₁ : Edits g (g.opUninsert op) {op} {b} := .opUninsert g hparent h.lt
  have hun : g.opUninsert op = g.modBlock b fun x => { x with ops := x.ops.erase op } := by
    unfold opUninsert
    rw [hparent]
  have hop₁ : (g.opUninsert op).op = g.op := by
    rw [hun]
    rfl
  have hops₁ : ((g.opUninsert op).block b).ops = run.erase op ++ rest := by
    rw [hun, block_modBlock h.lt, if_pos rfl]
    dsimp only
    rw [h.ops, List.erase_append_left _ hop]
  generalize g.opUninsert op = g₁ at *
  have he₂ : Edits g₁ (g₁.opSetOpcode op .copy) {op} {b} := .opSetOpcode g₁ op .copy
  have hops₂ : ((g₁.opSetOpcode op .copy).block b).ops = run.erase op ++ rest := hops₁
  have hself₂ : (g₁.opSetOpcode op .copy).op op = { g.op op with opcode := .copy } := by
    rw [opSetOpcode_op_self, hop₁]
  have hne₂ (o : OpId) (ho : o ≠ op) : (g₁.opSetOpcode op .copy).op o = g.op o := by
    rw [opSetOpcode_op_ne ho, hop₁]
  have hlt₂ : b < (g₁.opSetOpcode op .copy).numBlocks := by
    rw [he₂.numBlocks, he₁.numBlocks]
    exact h.lt
  generalize g₁.opSetOpcode op .copy = g₂ at *
  have he₃ : Edits g₂ (g₂.opInsertBegin op b) {op} {b} := .opInsertBegin g₂ op hlt₂
  have hne₃ (o : OpId) (ho : o ≠ op) : (g₂.opInsertBegin op b).op o = g.op o := by
    rw [he₃.op o (by simpa using ho), hne₂ o ho]
  have hself₃ : (g₂.opInsertBegin op b).op op = { g.op op with opcode := .copy } := by
    unfold opInsertBegin
    rw [modBlock_op, modOp_op, if_pos rfl, hself₂, ← hparent]
  -- the COPY goes behind the MULTIEQUALs, which are all in the run
  have hrest (o : OpId) (ho : o ∈ rest.head?) : o ≠ op := fun he =>
    h.apart op hop (he ▸ List.mem_of_mem_head? ho)
  have hpos : ((run.erase op ++ rest).takeWhile fun o =>
      decide ((g₂.op o).opcode = .multiequal)).length ≤ (run.erase op).length := by
    refine length_takeWhile_append_le fun o ho => decide_eq_false fun hm => h.ends o ho (.inl ?_)
    rw [← hne₂ o (hrest o ho), hm]
  have hops₃ : ((g₂.opInsertBegin op b).block b).ops = (run.erase op).insertIdx
      ((run.erase op ++ rest).takeWhile fun o =>
        decide ((g₂.op o).opcode = .multiequal)).length op ++ rest := by
    rw [← insertIdx_append_left hpos, ← hops₂]
    have hcode : (g₂.op op).opcode ≠ .multiequal := by
      rw [hself₂]
      exact OpCode.noConfusion
    unfold opInsertBegin
    dsimp only
    rw [block_modBlock (f := g₂.modOp op _) hlt₂, if_pos rfl, if_neg hcode]
    rfl
  have hperm := (List.perm_insertIdx op _ hpos).trans (List.perm_cons_erase hop).symm
  refine ⟨_, hperm, ⟨?_, hops₃, fun o ho => ?_, fun o ho => ?_, fun o ho => ?_, fun o ho => ?_⟩,
    (he₁.trans he₂).trans he₃, hself₃⟩
  · rw [he₃.numBlocks]
    exact hlt₂
  · by_cases he : o = op
    · rw [he, hself₃]
      exact .inr rfl
    · rw [hne₃ o he]
      exact h.leads o (hperm.mem_iff.mp ho)
  · rw [hne₃ o (hrest o ho)]
    exact h.ends o ho
  · by_cases he : o = op
    · rw [he, hself₃]
      exact hparent
    · rw [hne₃ o he]
      exact h.parent o (hperm.mem_iff.mp ho)
  · exact h.apart o (hperm.mem_iff.mp ho)

theorem RunOf.edits {run rest : List OpId} {S : Set OpId} {B : Set BlockId}
    (h : RunOf g b run rest) (he : Edits g g' S B) (hb : b ∉ B)
    (hopcode : ∀ o ∈ run ++ rest, (g'.op o).opcode = (g.op o).opcode)
    (hparent : ∀ o ∈ run, (g'.op o).parent = (g.op o).parent) : RunOf g' b run rest where
  lt := he.numBlocks.symm ▸ h.lt
  ops := (he.ops b hb).trans h.ops
  leads o ho := by
    rw [hopcode o (List.mem_append_left _ ho)]
    exact h.leads o ho
  ends o ho := by
    rw [hopcode o (List.mem_append_right _ (List.mem_of_mem_head? ho))]
    exact h.ends o ho
  parent o ho := (hparent o ho).trans (h.parent o ho)
  apart := h.apart

/-- The inputs of `op` for the two sides have a varnode that stands for them. -/
def Cuttable (g : Funcdata) (in1 in2 : ℕ) (merged : List (MergeKey × VarnodeId)) (op : OpId) :
    Prop :=
  ∃ v1 v2 w, (g.op op).input in1 = some v1 ∧ (g.op op).input in2 = some v2 ∧
    Combined merged v1 v2 w

/-- What `cut_down_multiequals` makes of a MULTIEQUAL. -/
structure CutPhi (g g' : Funcdata) (in1 in2 : ℕ) (merged : List (MergeKey × VarnodeId))
    (op : OpId) : Prop where
  dead : (g'.op op).dead = (g.op op).dead
  output : (g'.op op).output = (g.op op).output
  opcode : (g'.op op).opcode = if (g'.op op).inrefs.length = 1 then .copy else .multiequal
  inrefs : ∃ v1 v2 w, (g.op op).input in1 = some v1 ∧ (g.op op).input in2 = some v2 ∧
    Combined merged v1 v2 w ∧
    (g'.op op).inrefs = foldSlot (min in1 in2) (max in1 in2) w (g.op op).inrefs

section CutDown

variable {in1 in2 : ℕ} {merged : List (MergeKey × VarnodeId)} {run rest : List OpId}

/-- The inputs of a MULTIEQUAL that is cut down. -/
theorem exists_cutInputs {v1 v2 w : VarnodeId} (hne : in1 ≠ in2)
    (hmerged : ∀ m ∈ merged, m.2 < g.numVarnodes ∧ (g.vn m.2).constant = false)
    (h1 : (g.op op).input in1 = some v1) (h2 : (g.op op).input in2 = some v2)
    (hw : Combined merged v1 v2 w) :
    ∃ g', (if v1 = v2 then some (g.opRemoveInput op (max in1 in2))
        else (merged.lookup (v1, v2)).map fun subvn =>
          (g.opRemoveInput op (max in1 in2)).opSetInput op (min in1 in2) subvn) = some g' ∧
      Edits g g' {op} ∅ ∧ g'.op op = { g.op op with
        inrefs := foldSlot (min in1 in2) (max in1 in2) w (g.op op).inrefs } := by
  have hl1 : in1 < (g.op op).inrefs.length := (List.getElem?_eq_some_iff.mp h1).1
  have hl2 : in2 < (g.op op).inrefs.length := (List.getElem?_eq_some_iff.mp h2).1
  have he₁ : Edits g (g.opRemoveInput op (max in1 in2)) {op} ∅ := .opRemoveInput g op _
  have hself₁ := opRemoveInput_op_self g op (max in1 in2)
  have hlen : min in1 in2 < ((g.op op).inrefs.eraseIdx (max in1 in2)).length := by
    rw [List.length_eraseIdx_of_lt (max_lt hl1 hl2)]
    omega
  rcases hw with ⟨rfl, rfl⟩ | ⟨hv, hlook, hm⟩
  · -- what is left in the lower slot is the common input
    have hlow : (g.op op).inrefs[min in1 in2]? = some w := by
      rcases min_choice in1 in2 with h | h
      · rw [h]
        exact h1
      · rw [h]
        exact h2
    have hget : ((g.op op).inrefs.eraseIdx (max in1 in2))[min in1 in2]? = some w := by
      rw [List.getElem?_eraseIdx_of_lt (by omega), hlow]
    obtain ⟨hlt, hget⟩ := List.getElem?_eq_some_iff.mp hget
    have hset : foldSlot (min in1 in2) (max in1 in2) w (g.op op).inrefs =
        (g.op op).inrefs.eraseIdx (max in1 in2) := by
      unfold foldSlot
      rw [← hget, List.set_getElem_self]
    refine ⟨_, if_pos rfl, he₁, ?_⟩
    rw [hself₁, hset]
  · obtain ⟨hlt, hconst⟩ := hmerged _ hm
    rw [if_neg hv, hlook, Option.map_some]
    generalize g.opRemoveInput op (max in1 in2) = g₁ at *
    have he₂ : Edits g₁ (g₁.opSetInput op (min in1 in2) w) {op} ∅ := .opSetInput g₁ op _ w
    obtain ⟨u, hself₂, hst⟩ := (@opSetInput_op_self g₁ op (min in1 in2) w)
      (by rw [hself₁]; exact hlen) (hlt.trans_le he₁.keeps.le)
    refine ⟨_, rfl, he₁.trans he₂, ?_⟩
    rw [hself₂, hself₁]
    rcases hst.same with ⟨rfl, -⟩ | ⟨-, hc⟩
    · rfl
    · rw [he₁.keeps.constant _ hlt, hconst] at hc
      exact absurd hc Bool.false_ne_true

theorem exists_cutDownMultiequal (hne : in1 ≠ in2)
    (hmerged : ∀ m ∈ merged, m.2 < g.numVarnodes ∧ (g.vn m.2).constant = false)
    (hrun : RunOf g b run rest) (hop : op ∈ run) (hcode : (g.op op).opcode = .multiequal)
    (hcut : Cuttable g in1 in2 merged op) :
    ∃ g' run', g.cutDownMultiequal b in1 in2 merged op = some g' ∧ Edits g g' {op} {b} ∧
      run'.Perm run ∧ RunOf g' b run' rest ∧ CutPhi g g' in1 in2 merged op := by
  obtain ⟨v1, v2, w, h1, h2, hw⟩ := hcut
  obtain ⟨g₁, hg₁, he₁, hself₁⟩ := exists_cutInputs hne hmerged h1 h2 hw
  have hmax : (if in1 > in2 then in1 else in2) = max in1 in2 := by
    split_ifs
    · omega
    · omega
  have hmin : (if in1 > in2 then in2 else in1) = min in1 in2 := by
    split_ifs
    · omega
    · omega
  have hstep : g.cutDownMultiequal b in1 in2 merged op =
      if (g₁.op op).numInputs = 1 then
        some (((g₁.opUninsert op).opSetOpcode op .copy).opInsertBegin op b) else some g₁ := by
    unfold cutDownMultiequal
    simp only [h1, h2, Option.bind_eq_bind, Option.bind_some, hmax, hmin]
    by_cases hv : v1 = v2
    · rw [if_pos hv] at hg₁ ⊢
      rw [← Option.some.inj hg₁]
    · rw [if_neg hv] at hg₁ ⊢
      rw [hg₁, Option.bind_some]
  have hsame (o : OpId) : (g₁.op o).opcode = (g.op o).opcode ∧
      (g₁.op o).parent = (g.op o).parent := by
    by_cases ho : o = op
    · rw [ho, hself₁]
      exact ⟨rfl, rfl⟩
    · rw [he₁.op o (by simpa using ho)]
      exact ⟨rfl, rfl⟩
  have hrun₁ : RunOf g₁ b run rest := hrun.edits he₁ (Set.notMem_empty b)
    (fun o _ => (hsame o).1) fun o _ => (hsame o).2
  have he₁ : Edits g g₁ {op} {b} := he₁.mono subset_rfl (Set.empty_subset _)
  rw [hstep]
  unfold PcodeOp.numInputs
  by_cases hone : (g₁.op op).inrefs.length = 1
  · obtain ⟨run', hperm, hrun', he₂, hself₂⟩ := hrun₁.collapse hop
    rw [if_pos hone]
    refine ⟨_, run', rfl, he₁.trans he₂, hperm, hrun', ?_, ?_, ?_, v1, v2, w, h1, h2, hw, ?_⟩
    · rw [hself₂, hself₁]
    · rw [hself₂, hself₁]
    · rw [hself₂]
      exact (if_pos hone).symm
    · rw [hself₂, hself₁]
  · rw [if_neg hone]
    refine ⟨g₁, run, rfl, he₁, .refl run, hrun₁, ?_, ?_, ?_, v1, v2, w, h1, h2, hw, ?_⟩
    · rw [hself₁]
    · rw [hself₁]
    · rw [if_neg hone, (hsame op).1, hcode]
    · rw [hself₁]

theorem CutPhi.later (h : CutPhi g g' in1 in2 merged op) (ho : g''.op op = g'.op op) :
    CutPhi g g'' in1 in2 merged op where
  dead := by rw [ho, h.dead]
  output := by rw [ho, h.output]
  opcode := by rw [ho, h.opcode]
  inrefs := by
    rw [ho]
    exact h.inrefs

theorem CutPhi.earlier (h : CutPhi g' g'' in1 in2 merged op) (ho : g'.op op = g.op op) :
    CutPhi g g'' in1 in2 merged op where
  dead := by rw [h.dead, ho]
  output := by rw [h.output, ho]
  opcode := h.opcode
  inrefs := by
    rw [← ho]
    exact h.inrefs

/-- What is left of the walk over the run: its MULTIEQUALs are cut down, each once. -/
theorem exists_cutDownMultiequals {l : List OpId} (hne : in1 ≠ in2)
    (hmerged : ∀ m ∈ merged, m.2 < g.numVarnodes ∧ (g.vn m.2).constant = false)
    (hrun : RunOf g b run rest) (hl : ∀ o ∈ l, o ∈ run) (hnodup : l.Nodup)
    (hcut : ∀ o ∈ l, (g.op o).opcode = .multiequal → Cuttable g in1 in2 merged o) :
    ∃ g' run', cutDownMultiequals b in1 in2 merged g (l ++ rest) = some g' ∧
      Edits g g' {o | o ∈ l ∧ (g.op o).opcode = .multiequal} {b} ∧ run'.Perm run ∧
      RunOf g' b run' rest ∧
      ∀ o ∈ l, (g.op o).opcode = .multiequal → CutPhi g g' in1 in2 merged o := by
  induction l generalizing g run with
  | nil =>
    refine ⟨g, run, ?_, .refl g _ _, .refl run, hrun, fun o ho => absurd ho List.not_mem_nil⟩
    rw [List.nil_append]
    match rest, hrun.ends with
    | [], _ => rfl
    | o :: _, hends =>
      obtain ⟨hm, hc⟩ := not_or.mp (hends o rfl)
      rw [cutDownMultiequals, if_neg hm, if_neg hc]
  | cons op l ih =>
    obtain ⟨hop, hnodup⟩ := List.nodup_cons.mp hnodup
    have hl' : ∀ o ∈ l, o ∈ run := fun o ho => hl o (List.mem_cons_of_mem _ ho)
    have hin := hl op List.mem_cons_self
    rw [List.cons_append, cutDownMultiequals]
    by_cases hcode : (g.op op).opcode = .multiequal
    · obtain ⟨g₁, run₁, hg₁, he₁, hperm₁, hrun₁, hphi₁⟩ :=
        exists_cutDownMultiequal hne hmerged hrun hin hcode (hcut op List.mem_cons_self hcode)
      have hold (o : OpId) (ho : o ∈ l) : g₁.op o = g.op o :=
        he₁.op o fun hs => hop (Set.mem_singleton_iff.mp hs ▸ ho)
      obtain ⟨g₂, run₂, hg₂, he₂, hperm₂, hrun₂, hphi₂⟩ := ih
        (fun m hm => ⟨(hmerged m hm).1.trans_le he₁.keeps.le, by
          rw [he₁.keeps.constant _ (hmerged m hm).1, (hmerged m hm).2]⟩) hrun₁
        (fun o ho => hperm₁.mem_iff.mpr (hl' o ho)) hnodup fun o ho hm => by
          obtain ⟨v1, v2, w, h⟩ := hcut o (List.mem_cons_of_mem _ ho) (hold o ho ▸ hm)
          rw [← hold o ho] at h
          exact ⟨v1, v2, w, h⟩
      refine ⟨g₂, run₂, ?_, ?_, hperm₂.trans hperm₁, hrun₂, fun o ho hm => ?_⟩
      · rw [if_pos hcode, hg₁, Option.bind_some, hg₂]
      · refine (he₁.mono ?_ subset_rfl).trans (he₂.mono ?_ subset_rfl)
        · rintro o rfl
          exact ⟨List.mem_cons_self, hcode⟩
        · rintro o ⟨ho, hm⟩
          exact ⟨List.mem_cons_of_mem _ ho, hold o ho ▸ hm⟩
      · rcases List.mem_cons.mp ho with rfl | ho
        · exact hphi₁.later (he₂.op o fun hs => hop hs.1)
        · exact (hphi₂ o ho (by rw [hold o ho, hm])).earlier (hold o ho)
    · have hcopy := (hrun.leads op hin).resolve_left hcode
      obtain ⟨g', run', hg', he, hperm, hrun', hphi⟩ := ih hmerged hrun hl' hnodup
        fun o ho => hcut o (List.mem_cons_of_mem _ ho)
      refine ⟨g', run', ?_, he.mono ?_ subset_rfl, hperm, hrun', fun o ho hm => ?_⟩
      · rw [if_neg hcode, if_pos hcopy, hg']
      · rintro o ⟨ho, hm⟩
        exact ⟨List.mem_cons_of_mem _ ho, hm⟩
      · rcases List.mem_cons.mp ho with rfl | ho
        · exact absurd hm hcode
        · exact hphi o ho hm

end CutDown

end Funcdata
end Mosura
