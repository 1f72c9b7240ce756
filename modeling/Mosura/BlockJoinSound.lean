import Mosura.BlockJoinOps

/-! When a join of duplicated conditions preserves what runs through it. -/

namespace Mosura
namespace Funcdata

/-- An input of the MULTIEQUALs of an exit for each side of the split becomes one for the join
block, which has the value of the side that the run comes from. -/
structure PhiKept (f f' : Funcdata) (in1 in2 : ℕ) (op : OpId) : Prop where
  dead : (f'.op op).dead = false
  output : (f'.op op).output = (f.op op).output
  opcode : (f'.op op).opcode = if (f'.op op).inrefs.length = 1 then .copy else .multiequal
  inrefs : ∃ w, (f'.op op).inrefs = foldSlot (min in1 in2) (max in1 in2) w (f.op op).inrefs ∧
    ∀ env, (∀ v, (f.op op).input in1 = some v →
        f'.valueOf (f'.entryEnv f.numBlocks 0 env) w = f.valueOf env v) ∧
      ∀ v, (f.op op).input in2 = some v →
        f'.valueOf (f'.entryEnv f.numBlocks 1 env) w = f.valueOf env v

/-- The ops of a block up to the first that is neither a MULTIEQUAL nor a COPY. -/
def leadingRun (f : Funcdata) (ops : List OpId) : List OpId :=
  ops.takeWhile fun o => (f.op o).opcode = .multiequal ∨ (f.op o).opcode = .copy

/-- An exit after a join: one in-edge for two, the leading run still ahead of the other ops, which
only lost the CBRANCH `c`, and in `phis` an input for each in-edge. -/
structure ExitKept (f f' : Funcdata) (c : OpId) (exit : BlockId) (in1 in2 : ℕ) (phis : List OpId) :
    Prop where
  inEdges : (f'.block exit).inEdges =
    foldSlot (min in1 in2) (max in1 in2) f.numBlocks (f.block exit).inEdges
  ops : ∃ run rest, run.Perm (f.leadingRun (f.block exit).ops) ∧ (f'.block exit).ops = run ++ rest ∧
    f.leadingRun (f.block exit).ops ++ rest = (f.block exit).ops.erase c
  kept : ∀ op ∈ phis, PhiKept f f' in1 in2 op
  arity : ∀ op ∈ phis, (f'.op op).inrefs.length = (f'.block exit).inEdges.length

/-- A join preserves what runs through it: both sides lead to the new block, which merges what they
compute, tests it, and leads to the exit they led to, with their values in the MULTIEQUALs `phisA`
and `phisB` of the exits. All else is as it was. -/
structure JoinKept (f f' : Funcdata) (cj : ConditionalJoin) (phisA phisB : List OpId) : Prop where
  ins : (f'.block f.numBlocks).inEdges = [cj.block1, cj.block2]
  outs : (f'.block f.numBlocks).outEdges = [cj.exita, cj.exitb]
  ops : ∃ phis, (f'.block f.numBlocks).ops = phis ++ [cj.cbranch1] ∧
    (∀ p ∈ phis, (f'.op p).opcode = .multiequal ∧ (f'.op p).inrefs.length = 2) ∧
    ∀ v1 v2, (f.op cj.cbranch1).input 1 = some v1 → (f.op cj.cbranch2).input 1 = some v2 →
      v1 ≠ v2 → ∃ p ∈ phis, (f'.op p).output = (f'.op cj.cbranch1).input 1 ∧
        List.Forall₂ (Stands f f') [v1, v2] (f'.op p).inrefs
  cbranch : (f'.op cj.cbranch1).opcode = .cbranch ∧ (f'.op cj.cbranch1).dead = false
  destroyed : (f'.op cj.cbranch2).dead = true
  run1 : ∀ env, f'.exitTaken cj.block1 env = some f.numBlocks ∧
    f'.exitTaken f.numBlocks (f'.entryEnv f.numBlocks 0 env) = f.exitTaken cj.block1 env
  run2 : ∀ env, f'.exitTaken cj.block2 env = some f.numBlocks ∧
    f'.exitTaken f.numBlocks (f'.entryEnv f.numBlocks 1 env) = f.exitTaken cj.block2 env
  exita : ExitKept f f' cj.cbranch1 cj.exita cj.aIn1 cj.aIn2 phisA
  exitb : ExitKept f f' cj.cbranch1 cj.exitb cj.bIn1 cj.bIn2 phisB
  opElse : ∀ o < f.numOps, o ≠ cj.cbranch1 → o ≠ cj.cbranch2 → o ∉ phisA → o ∉ phisB →
    f'.op o = f.op o
  opsElse : ∀ v ≠ f.numBlocks, v ≠ cj.exita → v ≠ cj.exitb →
    (f'.block v).ops = (f.block v).ops.erase cj.cbranch1
  outElse : ∀ v ≠ f.numBlocks, v ≠ cj.block1 → v ≠ cj.block2 →
    (f'.block v).outEdges = (f.block v).outEdges
  inElse : ∀ v ≠ f.numBlocks, v ≠ cj.exita → v ≠ cj.exitb →
    (f'.block v).inEdges = (f.block v).inEdges

/-- All MULTIEQUALs of a block stand in its leading run. -/
def PhisLead (f : Funcdata) (b : BlockId) : Prop :=
  ∀ op ∈ f.multis b, op ∈ f.leadingRun (f.block b).ops

variable {f g g' : Funcdata} {b v : BlockId} {op o : OpId} {env : VarnodeId → ℕ}
  {merged : List (MergeKey × VarnodeId)}

/-! The values behind the MULTIEQUALs of the join block. -/

/-- `g` has `f` behind it, and in block `b` the MULTIEQUALs for the pairs of `merged`. -/
structure Joins (f g : Funcdata) (b : BlockId) (merged : List (MergeKey × VarnodeId)) : Prop where
  keeps : Keeps f g
  phis : List.Forall₂ (MergedBy f g) (g.multis b) merged
  nodup : (merged.map Prod.snd).Nodup

namespace Joins

variable {merged : List (MergeKey × VarnodeId)} {m : MergeKey × VarnodeId}

/-- What was there before the join has its value behind it. -/
theorem valueOf_old (h : Joins f g b merged) (hv : v < f.numVarnodes) (slot : ℕ) :
    g.valueOf (g.entryEnv b slot env) v = f.valueOf env v := by
  have hnone : (g.multis b).find? (fun op => (g.op op).output = some v) = none := by
    rw [List.find?_eq_none]
    intro p hp hout
    obtain ⟨m, -, hm⟩ := exists_of_forall₂ h.phis.flip hp
    have hm2 : m.2 = v := Option.some.inj (hm.output.symm.trans (of_decide_eq_true hout))
    exact absurd hm.ge (not_le.mpr (hm2 ▸ hv))
  have henv : g.entryEnv b slot env v = env v := by
    unfold entryEnv
    rw [hnone]
  have hold := congrArg Prod.snd ((@Keeps.operandOf _ _ env) h.keeps hv)
  rw [← show g.valueOf env v = f.valueOf env v from hold]
  unfold valueOf
  rw [henv]

/-- What was merged has the value of the side that the join block is entered from. -/
theorem valueOf_merged (h : Joins f g b merged) (hm : m ∈ merged) :
    g.valueOf (g.entryEnv b 0 env) m.2 = f.valueOf env m.1.1 ∧
      g.valueOf (g.entryEnv b 1 env) m.2 = f.valueOf env m.1.2 := by
  obtain ⟨p, hp, hpm⟩ := exists_of_forall₂ h.phis hm
  have hfind : ∃ q, (g.multis b).find? (fun op => (g.op op).output = some m.2) = some q := by
    rw [← Option.isSome_iff_exists, List.find?_isSome]
    exact ⟨p, hp, decide_eq_true hpm.output⟩
  obtain ⟨q, hq⟩ := hfind
  have hout : (g.op q).output = some m.2 :=
    of_decide_eq_true (List.find?_some (p := fun op => decide ((g.op op).output = some m.2)) hq)
  -- no other pair has this output
  obtain ⟨m', hm', hqm⟩ := exists_of_forall₂ h.phis.flip (List.mem_of_find?_eq_some hq)
  have hsnd : m'.2 = m.2 := Option.some.inj (hqm.output.symm.trans hout)
  obtain rfl : m' = m := List.inj_on_of_nodup_map h.nodup hm' hm hsnd
  have hin := hqm.inrefs
  obtain ⟨u1, l, hs1, htail, hl⟩ := List.forall₂_cons_left_iff.mp hin
  obtain ⟨u2, l', hs2, -, rfl⟩ := List.forall₂_cons_left_iff.mp htail
  have henv (slot : ℕ) : g.entryEnv b slot env m'.2 =
      ((g.op q).input slot).elim 0 (g.valueOf env) := by
    unfold entryEnv
    rw [hq]
  have hv (slot : ℕ) : g.valueOf (g.entryEnv b slot env) m'.2 = g.entryEnv b slot env m'.2 :=
    if_neg (by rw [hqm.constant]; exact Bool.false_ne_true)
  rw [hv, hv, henv, henv]
  unfold PcodeOp.input
  rw [hl]
  exact ⟨congrArg Prod.snd ((@Stands.operandOf _ _ env) hs1),
    congrArg Prod.snd ((@Stands.operandOf _ _ env) hs2)⟩

theorem valueOf_stands (h : Joins f g b merged) (hv : v < f.numVarnodes) {u : VarnodeId}
    (hu : Stands f g v u) (slot : ℕ) :
    g.valueOf (g.entryEnv b slot env) u = f.valueOf env v := by
  rcases hu.same with ⟨rfl, -⟩ | ⟨hc, hc'⟩
  · exact h.valueOf_old hv slot
  · rw [valueOf_const hc, valueOf_const hc']
    exact congrArg BitVec.toNat hu.loc

/-- The varnode that stands for a pair has the value of the side. -/
theorem valueOf_combined (h : Joins f g b merged) {v1 v2 w u : VarnodeId}
    (hv1 : v1 < f.numVarnodes) (hw : Combined merged v1 v2 w) (hu : Stands g g w u) :
    g.valueOf (g.entryEnv b 0 env) u = f.valueOf env v1 ∧
      g.valueOf (g.entryEnv b 1 env) u = f.valueOf env v2 := by
  rcases hw with ⟨rfl, rfl⟩ | ⟨-, -, hm⟩
  · exact ⟨h.valueOf_stands hv1 (hu.of_keeps h.keeps hv1) 0,
      h.valueOf_stands hv1 (hu.of_keeps h.keeps hv1) 1⟩
  · obtain ⟨p, -, hp⟩ := exists_of_forall₂ h.phis hm
    rcases hu.same with ⟨rfl, -⟩ | ⟨-, hc⟩
    · exact h.valueOf_merged hm
    · exact absurd (hp.constant.symm.trans hc) Bool.false_ne_true

end Joins

/-! What a match says. -/

/-- The inputs of `op` for the two sides are one varnode, or a recorded pair. -/
def PhiRecorded (f : Funcdata) (in1 in2 : ℕ) (keys : List MergeKey) (op : OpId) : Prop :=
  ∃ v1 v2, (f.op op).input in1 = some v1 ∧ (f.op op).input in2 = some v2 ∧
    (v1 = v2 ∨ (v1, v2) ∈ keys)

/-- Two blocks that a match accepted. -/
structure Matched (f : Funcdata) (cj : ConditionalJoin) : Prop where
  blocks : cj.block1 ≠ cj.block2
  exits : cj.exita ≠ cj.exitb
  out1 : (f.block cj.block1).outEdges = [cj.exita, cj.exitb]
  out2 : (f.block cj.block2).outEdges = [cj.exita, cj.exitb]
  aIn1 : (f.block cj.exita).inEdges.idxOf? cj.block1 = some cj.aIn1
  aIn2 : (f.block cj.exita).inEdges.idxOf? cj.block2 = some cj.aIn2
  bIn1 : (f.block cj.exitb).inEdges.idxOf? cj.block1 = some cj.bIn1
  bIn2 : (f.block cj.exitb).inEdges.idxOf? cj.block2 = some cj.bIn2
  last1 : (f.block cj.block1).ops.getLast? = some cj.cbranch1
  last2 : (f.block cj.block2).ops.getLast? = some cj.cbranch2
  cbranch1 : (f.op cj.cbranch1).opcode = .cbranch ∧ (f.op cj.cbranch1).booleanFlip = false
  cbranch2 : (f.op cj.cbranch2).opcode = .cbranch ∧ (f.op cj.cbranch2).booleanFlip = false
  cond : ∃ v1 v2, (f.op cj.cbranch1).input 1 = some v1 ∧ (f.op cj.cbranch2).input 1 = some v2 ∧
    (v1 = v2 ∨ (v1, v2) ∈ cj.mergeneed)
  runA : ∀ op ∈ f.leadingRun (f.block cj.exita).ops, (f.op op).opcode = .multiequal →
    f.PhiRecorded cj.aIn1 cj.aIn2 cj.mergeneed op
  runB : ∀ op ∈ f.leadingRun (f.block cj.exitb).ops, (f.op op).opcode = .multiequal →
    f.PhiRecorded cj.bIn1 cj.bIn2 cj.mergeneed op
  keys : ∀ k ∈ cj.mergeneed, ∃ o o', k.1 ∈ (f.op o).inrefs ∧ k.2 ∈ (f.op o').inrefs

theorem mem_noteMerge {key k : MergeKey} {m : List MergeKey} :
    k ∈ noteMerge key m ↔ k = key ∨ k ∈ m := by
  induction m with
  | nil => rw [noteMerge, List.mem_singleton, or_iff_left List.not_mem_nil]
  | cons k' m ih =>
    rw [noteMerge]
    split_ifs with he
    · rw [he, List.mem_cons]
      tauto
    · rw [List.mem_cons]
    · rw [List.mem_cons, ih, List.mem_cons]
      tauto

theorem PhiRecorded.mono {in1 in2 : ℕ} {keys keys' : List MergeKey} (h : PhiRecorded f in1 in2 keys op)
    (hk : ∀ k ∈ keys, k ∈ keys') : PhiRecorded f in1 in2 keys' op := by
  obtain ⟨v1, v2, h1, h2, hv⟩ := h
  exact ⟨v1, v2, h1, h2, hv.imp_right fun hm => hk _ hm⟩

/-- The pairs that the walk over an exit adds are those of the MULTIEQUALs in its leading run. -/
theorem of_checkExitBlock {in1 in2 : ℕ} {ops : List OpId} {m m' : List MergeKey}
    (h : f.checkExitBlock in1 in2 ops m = some m') :
    (∀ k ∈ m, k ∈ m') ∧
      (∀ op ∈ f.leadingRun ops, (f.op op).opcode = .multiequal → f.PhiRecorded in1 in2 m' op) ∧
      ∀ k ∈ m', k ∈ m ∨ ∃ o o', k.1 ∈ (f.op o).inrefs ∧ k.2 ∈ (f.op o').inrefs := by
  induction ops generalizing m with
  | nil =>
    rw [checkExitBlock] at h
    rw [← Option.some.inj h]
    exact ⟨fun _ hk => hk, nofun, fun _ hk => .inl hk⟩
  | cons op rest ih =>
    rw [checkExitBlock] at h
    unfold leadingRun at ih ⊢
    rw [List.takeWhile_cons]
    split_ifs at h with hm hc
    · obtain ⟨v1, h1, h⟩ := Option.bind_eq_some_iff.mp h
      obtain ⟨v2, h2, h⟩ := Option.bind_eq_some_iff.mp h
      obtain ⟨hsub, hrec, hkeys⟩ := ih h
      have hpair : v1 = v2 ∨ (v1, v2) ∈ m' := by
        by_cases he : v1 = v2
        · exact .inl he
        · rw [if_neg he] at hsub
          exact .inr (hsub _ (mem_noteMerge.mpr (.inl rfl)))
      refine ⟨fun k hk => hsub k ?_, fun o ho hcode => ?_, fun k hk => ?_⟩
      · split_ifs
        · exact hk
        · exact mem_noteMerge.mpr (.inr hk)
      · rw [if_pos (by simp [hm]), List.mem_cons] at ho
        rcases ho with rfl | ho
        · exact ⟨v1, v2, h1, h2, hpair⟩
        · exact hrec o ho hcode
      · rcases hkeys k hk with hk | hk
        · split_ifs at hk with he
          · exact .inl hk
          · rcases mem_noteMerge.mp hk with rfl | hk
            · exact .inr ⟨op, op, List.mem_of_getElem? h1, List.mem_of_getElem? h2⟩
            · exact .inl hk
        · exact .inr hk
    · obtain ⟨hsub, hrec, hkeys⟩ := ih h
      refine ⟨hsub, fun o ho hcode => ?_, hkeys⟩
      rw [if_pos (by simp [hc]), List.mem_cons] at ho
      rcases ho with rfl | ho
      · exact absurd hcode hm
      · exact hrec o ho hcode
    · rw [← Option.some.inj h]
      refine ⟨fun _ hk => hk, fun o ho => ?_, fun _ hk => .inl hk⟩
      rw [if_neg (by simp [hm, hc])] at ho
      exact absurd ho List.not_mem_nil

theorem of_findDupConditions {c1 c2 : OpId} {m : List MergeKey}
    (h : f.findDupConditions c1 c2 = some (some m)) :
    ∃ v1 v2, (f.op c1).input 1 = some v1 ∧ (f.op c2).input 1 = some v2 ∧
      (v1 = v2 ∧ m = [] ∨ m = [(v1, v2)]) := by
  unfold findDupConditions at h
  obtain ⟨v1, h1, h⟩ := Option.bind_eq_some_iff.mp h
  obtain ⟨v2, h2, h⟩ := Option.bind_eq_some_iff.mp h
  refine ⟨v1, v2, h1, h2, ?_⟩
  by_cases he : v1 = v2
  · rw [if_pos he] at h
    exact .inl ⟨he, (Option.some.inj (Option.some.inj h)).symm⟩
  · rw [if_neg he] at h
    dsimp only at h
    split_ifs at h with hw hs hr
    · exact nomatch h
    · exact nomatch h
    · exact nomatch h
    · obtain ⟨op1, -, h⟩ := Option.bind_eq_some_iff.mp h
      split_ifs at h
      · exact nomatch h
      · exact .inr (Option.some.inj (Option.some.inj h)).symm

theorem of_findDups {b1 b2 : BlockId} {c1 c2 : OpId} {m : List MergeKey}
    (h : f.findDups b1 b2 = some (some (c1, c2, m))) :
    (f.block b1).ops.getLast? = some c1 ∧ (f.block b2).ops.getLast? = some c2 ∧
      ((f.op c1).opcode = .cbranch ∧ (f.op c1).booleanFlip = false) ∧
      ((f.op c2).opcode = .cbranch ∧ (f.op c2).booleanFlip = false) ∧
      f.findDupConditions c1 c2 = some (some m) := by
  unfold findDups at h
  split at h
  · rename_i d1 d2 hd1 hd2
    split_ifs at h with hcode hflip
    · exact nomatch h
    · exact nomatch h
    · obtain ⟨hc1, hc2⟩ := not_or.mp hcode
      rw [Bool.or_eq_true, not_or, Bool.not_eq_true, Bool.not_eq_true] at hflip
      obtain ⟨r, hr, h⟩ := Option.map_eq_some_iff.mp h
      obtain ⟨m', rfl, hm⟩ := Option.map_eq_some_iff.mp h
      cases hm
      exact ⟨hd1, hd2, ⟨not_not.mp hc1, hflip.1⟩, ⟨not_not.mp hc2, hflip.2⟩, hr⟩
  · exact nomatch h

theorem matched_of_joinMatches {b1 b2 : BlockId} {cj : ConditionalJoin}
    (h : f.joinMatches b1 b2 = some (some cj)) : f.Matched cj := by
  unfold joinMatches at h
  split at h
  · rename_i exita exitb exita' exitb' hout1 hout2
    split_ifs at h with hguard
    · exact nomatch h
    · simp only [not_or, Decidable.not_not] at hguard
      obtain ⟨hb, hexit, rfl, rfl⟩ := hguard
      obtain ⟨aIn2, ha2, h⟩ := Option.bind_eq_some_iff.mp h
      obtain ⟨bIn2, hb2, h⟩ := Option.bind_eq_some_iff.mp h
      obtain ⟨aIn1, ha1, h⟩ := Option.bind_eq_some_iff.mp h
      obtain ⟨bIn1, hb1, h⟩ := Option.bind_eq_some_iff.mp h
      obtain ⟨r, hr, h⟩ := Option.bind_eq_some_iff.mp h
      match r with
      | none => exact nomatch h
      | some (c1, c2, m) =>
        obtain ⟨mA, hmA, h⟩ := Option.bind_eq_some_iff.mp h
        obtain ⟨mB, hmB, h⟩ := Option.bind_eq_some_iff.mp h
        obtain rfl := Option.some.inj (Option.some.inj h)
        obtain ⟨hlast1, hlast2, hc1, hc2, hcond⟩ := of_findDups hr
        obtain ⟨v1, v2, hv1, hv2, hpair⟩ := of_findDupConditions hcond
        obtain ⟨hsubA, hrunA, hkeysA⟩ := of_checkExitBlock hmA
        obtain ⟨hsubB, hrunB, hkeysB⟩ := of_checkExitBlock hmB
        have hslot {b : BlockId} {i j : ℕ} {t : BlockId} (ht : (f.block b).outEdges[i]? = some t)
            (hj : f.outRevIndex b i = some j) : (f.block t).inEdges.idxOf? b = some j := by
          unfold outRevIndex at hj
          rw [ht] at hj
          exact hj
        have hm : ∀ k ∈ m, k = (v1, v2) := by
          rcases hpair with ⟨-, rfl⟩ | rfl
          · exact fun k hk => absurd hk List.not_mem_nil
          · exact fun k hk => List.mem_singleton.mp hk
        constructor
        · exact hb
        · exact hexit
        · exact hout1
        · exact hout2
        · exact hslot (by rw [hout1]; rfl) ha1
        · exact hslot (by rw [hout2]; rfl) ha2
        · exact hslot (by rw [hout1]; rfl) hb1
        · exact hslot (by rw [hout2]; rfl) hb2
        · exact hlast1
        · exact hlast2
        · exact hc1
        · exact hc2
        · refine ⟨v1, v2, hv1, hv2, hpair.imp And.left fun hm => hsubB _ (hsubA _ ?_)⟩
          rw [hm]
          exact List.mem_singleton_self _
        · exact fun op ho hcode => (hrunA op ho hcode).mono hsubB
        · exact hrunB
        · intro k hk
          rcases hkeysB k hk with hk | hk
          · rcases hkeysA k hk with hk | hk
            · rw [hm k hk]
              exact ⟨c1, c2, List.mem_of_getElem? hv1, List.mem_of_getElem? hv2⟩
            · exact hk
          · exact hk
  · exact nomatch h

/-! The join up to the exits. -/

/-- The graph with its join block, before the exits are cut down. -/
structure Moved (f g : Funcdata) (cj : ConditionalJoin) (phis : List OpId)
    (merged : List (MergeKey × VarnodeId)) : Prop where
  keeps : Keeps f g
  numBlocks : g.numBlocks = f.numBlocks + 1
  flow : ∃ g₁, JoinedFlow f g₁ cj.block1 cj.block2 cj.exita cj.exitb (min cj.aIn1 cj.aIn2)
    (max cj.aIn1 cj.aIn2) (min cj.bIn1 cj.bIn2) (max cj.bIn1 cj.bIn2) ∧
    (∀ v, (g.block v).outEdges = (g₁.block v).outEdges) ∧
    ∀ v, (g.block v).inEdges = (g₁.block v).inEdges
  pairs : List.Forall₂ (MergedBy f g) phis merged
  nodup : (merged.map Prod.snd).Nodup
  keys : merged.map Prod.fst = cj.mergeneed
  fresh : ∀ p ∈ phis, f.numOps ≤ p
  join : (g.block f.numBlocks).ops = phis ++ [cj.cbranch1]
  ops : ∀ v ≠ f.numBlocks, (g.block v).ops = (f.block v).ops.erase cj.cbranch1
  op : ∀ o < f.numOps, o ≠ cj.cbranch1 → o ≠ cj.cbranch2 → g.op o = f.op o
  opcode : (g.op cj.cbranch1).opcode = .cbranch
  dead : (g.op cj.cbranch1).dead = false
  booleanFlip : (g.op cj.cbranch1).booleanFlip = false
  input : ∃ v1 v2 w u, (f.op cj.cbranch1).input 1 = some v1 ∧
    (f.op cj.cbranch2).input 1 = some v2 ∧ Combined merged v1 v2 w ∧ w < g.numVarnodes ∧
    (g.op cj.cbranch1).input 1 = some u ∧ Stands g g w u
  destroyed : (g.op cj.cbranch2).dead = true ∧ (g.op cj.cbranch2).opcode = .cbranch

namespace Matched

variable {cj : ConditionalJoin}

theorem mem1 (h : f.Matched cj) : cj.cbranch1 ∈ (f.block cj.block1).ops :=
  List.mem_of_getLast? h.last1

theorem mem2 (h : f.Matched cj) : cj.cbranch2 ∈ (f.block cj.block2).ops :=
  List.mem_of_getLast? h.last2

theorem cbranch_ne (h : f.Matched cj) (hf : f.Homed) : cj.cbranch1 ≠ cj.cbranch2 := fun he =>
  h.blocks (hf.eq_of_mem h.mem1 (he ▸ h.mem2))

theorem lt_of_key (h : f.Matched cj) (hf : f.Linked) {k : MergeKey} (hk : k ∈ cj.mergeneed) :
    k.1 < f.numVarnodes ∧ k.2 < f.numVarnodes := by
  obtain ⟨o, o', ho, ho'⟩ := h.keys k hk
  exact ⟨hf.lt_of_mem_inrefs ho, hf.lt_of_mem_inrefs ho'⟩

/-- The three steps of `execute` ahead of the exits. -/
theorem exists_moved (h : f.Matched cj) (hf : f.FlowGraph) : ∃ g phis merged,
    Moved f g cj phis merged ∧ f.joinExecute cj =
      (cutDownMultiequals cj.exita cj.aIn1 cj.aIn2 merged g (g.block cj.exita).ops).bind fun g' =>
        cutDownMultiequals cj.exitb cj.bIn1 cj.bIn2 merged g' (g'.block cj.exitb).ops := by
  obtain ⟨f₁, hf₁, hflow⟩ := exists_nodeJoinCreateBlock h.blocks h.exits h.out1 h.out2 h.aIn1
    h.aIn2 h.bIn1 h.bIn2
  have hk₁ : Keeps f f₁ := .of_eq hflow.edges.vn hflow.edges.numVarnodes
  have hJ : f.numBlocks < f₁.numBlocks := by
    rw [hflow.numBlocks]
    exact Nat.lt_succ_self _
  have hemptyJ : (f₁.block f.numBlocks).ops = [] := by
    rw [hflow.edges.ops, block_numBlocks]
    rfl
  obtain ⟨phis, hmerges, hkeys⟩ := merges_setupMultiequals (f := f₁)
    (f₁.op cj.cbranch1).seqnum.pc hJ
    (fun p hp => by rw [hemptyJ] at hp; exact absurd hp List.not_mem_nil)
    fun k hk => by rw [hflow.edges.numVarnodes]; exact h.lt_of_key hf.linked hk
  have hrun : f.joinExecute cj = ((setupMultiequals (f₁.op cj.cbranch1).seqnum.pc f.numBlocks f₁
      cj.mergeneed).1.moveCbranch cj.cbranch1 cj.cbranch2 f.numBlocks
        (setupMultiequals (f₁.op cj.cbranch1).seqnum.pc f.numBlocks f₁ cj.mergeneed).2).bind
      fun g => (cutDownMultiequals cj.exita cj.aIn1 cj.aIn2 (setupMultiequals
        (f₁.op cj.cbranch1).seqnum.pc f.numBlocks f₁ cj.mergeneed).2 g (g.block cj.exita).ops).bind
      fun g' => cutDownMultiequals cj.exitb cj.bIn1 cj.bIn2 (setupMultiequals
        (f₁.op cj.cbranch1).seqnum.pc f.numBlocks f₁ cj.mergeneed).2 g' (g'.block cj.exitb).ops := by
    unfold joinExecute
    rw [hf₁]
    rfl
  rw [hrun]
  generalize setupMultiequals (f₁.op cj.cbranch1).seqnum.pc f.numBlocks f₁ cj.mergeneed = r at *
  obtain ⟨f₂, merged⟩ := r
  dsimp only at hmerges hkeys ⊢
  have hlt1 := hf.homed.listed _ _ h.mem1
  have hlt2 := hf.homed.listed _ _ h.mem2
  have hop₂ (o : OpId) (ho : o < f.numOps) : f₂.op o = f.op o := by
    rw [hmerges.old o (hflow.edges.numOps ▸ ho), hflow.edges.op]
  obtain ⟨v1, v2, hv1, hv2, hpair⟩ := h.cond
  obtain ⟨w, hw⟩ := exists_combined hkeys hpair
  have hkeep₂ : Keeps f f₂ := hk₁.trans hmerges.keeps
  have hv1' := hf.linked.lt_of_mem_inrefs (List.mem_of_getElem? hv1)
  have hwlt : w < f₂.numVarnodes := by
    rcases hw with ⟨-, rfl⟩ | ⟨-, -, hm⟩
    · exact hv1'.trans_le hkeep₂.le
    · obtain ⟨p, -, hp⟩ := exists_of_forall₂ hmerges.merged hm
      exact hp.lt
  have ltb1 : cj.block1 < f.numBlocks := lt_of_mem_outEdges (a := cj.exita) (by simp [h.out1])
  have hops₂ (v : BlockId) : (f₂.block v).ops =
      if v = f.numBlocks then phis else (f.block v).ops := by
    rw [hmerges.ops, hemptyJ, List.nil_append, hflow.edges.ops]
  have hfresh : ∀ p ∈ phis, f.numOps ≤ p := fun p hp => hflow.edges.numOps ▸ (hmerges.fresh p hp).1
  have hcode : ∀ p ∈ phis, (f₂.op p).opcode = .multiequal := fun p hp => by
    obtain ⟨m, -, hm⟩ := exists_of_forall₂ hmerges.merged.flip hp
    exact hm.opcode
  obtain ⟨f₃, hf₃, hmoved⟩ :=
    (@exists_moveCbranch f₂ _ cj.cbranch1 cj.cbranch2 cj.block1 v1 v2 w merged)
    (hmerges.numBlocks ▸ hJ) (hmerges.numBlocks ▸ ltb1.trans hJ) ltb1.ne'
    (by rw [hop₂ _ hlt1, hf.homed.parent _ _ h.mem1]) (h.cbranch_ne hf.homed)
    (fun p hp => by
      rw [hops₂, if_pos rfl] at hp
      refine ⟨fun he => absurd hlt1 (not_lt.mpr (he ▸ hfresh p hp)), ?_⟩
      rw [hcode p hp]
      rfl)
    (by rw [hop₂ _ hlt1, hv1]) (by rw [hop₂ _ hlt2, hv2]) hw hwlt
  have hop₃ (o : OpId) (h1 : o ≠ cj.cbranch1) (h2 : o ≠ cj.cbranch2) : f₃.op o = f₂.op o :=
    hmoved.edits.op o (by simp [h1, h2])
  refine ⟨f₃, phis, merged, ?_, ?_⟩
  · constructor
    · exact hkeep₂.trans hmoved.edits.keeps
    · rw [hmoved.edits.numBlocks, hmerges.numBlocks, hflow.numBlocks]
    · exact ⟨f₁, hflow, fun v => (hmoved.edits.outEdges v).trans (hmerges.outEdges v),
        fun v => (hmoved.edits.inEdges v).trans (hmerges.inEdges v)⟩
    · -- a MULTIEQUAL of the join block is no CBRANCH
      have hzip := List.forall₂_iff_zip.mp hmerges.merged
      refine List.forall₂_iff_zip.mpr ⟨hzip.1, fun {p m} hm => ?_⟩
      obtain ⟨hp, hmem⟩ := List.of_mem_zip hm
      obtain ⟨h1, h2⟩ := h.lt_of_key hf.linked (hkeys ▸ List.mem_map_of_mem hmem)
      have hne {c : OpId} (hc : c < f.numOps) : p ≠ c := fun he =>
        absurd hc (not_lt.mpr (he ▸ hfresh p hp))
      exact ((hzip.2 hm).of_keeps hk₁ h1 h2).keep hmoved.edits.keeps
        (hop₃ p (hne hlt1) (hne hlt2))
    · exact hmerges.nodup
    · exact hkeys
    · exact hfresh
    · rw [hmoved.ops, if_pos rfl, hops₂, if_pos rfl]
    · intro v hv
      rw [hmoved.ops, if_neg hv]
      split_ifs with hv1
      · rw [hops₂, if_neg ltb1.ne, hv1]
      · rw [hops₂, if_neg hv, List.erase_of_not_mem fun hm => hv1 (hf.homed.eq_of_mem hm h.mem1)]
    · intro o ho h1 h2
      rw [hop₃ o h1 h2, hop₂ o ho]
    · rw [hmoved.opcode, hop₂ _ hlt1, h.cbranch1.1]
    · rw [hmoved.dead, hop₂ _ hlt1]
      by_contra hdead
      rw [Bool.not_eq_false] at hdead
      have hin := hf.linked.dead _ hdead
      unfold PcodeOp.input at hv1
      rw [hin] at hv1
      exact nomatch hv1
    · rw [hmoved.booleanFlip, hop₂ _ hlt1, h.cbranch1.2]
    · obtain ⟨u, hu, hst⟩ := hmoved.input
      exact ⟨v1, v2, w, u, hv1, hv2, hw, hwlt.trans_le hmoved.edits.keeps.le, hu,
        hst.later hmoved.edits.keeps hwlt⟩
    · rw [hmoved.destroyed.2, hop₂ _ hlt2, h.cbranch2.1]
      exact ⟨hmoved.destroyed.1, rfl⟩
  · rw [hf₃, Option.bind_some]

end Matched

theorem mem_leadingRun {l : List OpId} (h : o ∈ f.leadingRun l) :
    o ∈ l ∧ ((f.op o).opcode = .multiequal ∨ (f.op o).opcode = .copy) :=
  ⟨(List.takeWhile_sublist _).subset h, by simpa using List.mem_takeWhile_imp h⟩

/-- Of a block that ends with the CBRANCH `c`, or does not hold it, the leading run is ahead of the
rest when `c` is gone. -/
theorem exists_rest {c : OpId} {l : List OpId} (hcode : (f.op c).opcode = .cbranch)
    (hc : c ∈ l → ∃ l', l = l' ++ [c] ∧ c ∉ l') : ∃ rest, f.leadingRun l ++ rest = l.erase c ∧
      ∀ o ∈ rest.head?, ¬ ((f.op o).opcode = .multiequal ∨ (f.op o).opcode = .copy) := by
  have hsplit (l : List OpId) : ∃ rest, f.leadingRun l ++ rest = l ∧
      ∀ o ∈ rest.head?, ¬ ((f.op o).opcode = .multiequal ∨ (f.op o).opcode = .copy) := by
    refine ⟨l.dropWhile fun o => (f.op o).opcode = .multiequal ∨ (f.op o).opcode = .copy,
      List.takeWhile_append_dropWhile, fun o ho hrun => ?_⟩
    have hnot := List.head?_dropWhile_not
      (fun o => decide ((f.op o).opcode = .multiequal ∨ (f.op o).opcode = .copy)) l
    rw [ho] at hnot
    exact absurd (decide_eq_true hrun) (by simpa using hnot)
  by_cases hmem : c ∈ l
  · obtain ⟨l', rfl, hc'⟩ := hc hmem
    have hrun : f.leadingRun (l' ++ [c]) = f.leadingRun l' := by
      unfold leadingRun
      rw [List.takeWhile_append]
      split_ifs with hall
      · rw [List.takeWhile_cons, if_neg (by simp [hcode]), List.append_nil]
        exact (List.takeWhile_prefix _).eq_of_length hall |>.symm
      · rfl
    rw [hrun, List.erase_append_right _ hc', List.erase_cons_head, List.append_nil]
    exact hsplit l'
  · rw [List.erase_of_not_mem hmem]
    exact hsplit l

namespace Matched

variable {cj : ConditionalJoin}

theorem split_cbranch (h : f.Matched cj) (hf : f.Homed) {b : BlockId}
    (hmem : cj.cbranch1 ∈ (f.block b).ops) :
    ∃ l, (f.block b).ops = l ++ [cj.cbranch1] ∧ cj.cbranch1 ∉ l := by
  obtain rfl : b = cj.block1 := hf.eq_of_mem hmem h.mem1
  obtain ⟨l, hl⟩ := List.getLast?_eq_some_iff.mp h.last1
  have hnodup := hf.nodup cj.block1
  rw [hl, List.nodup_append] at hnodup
  exact ⟨l, hl, fun hm => hnodup.2.2 _ hm _ (List.mem_singleton_self _) rfl⟩

/-- The ops of a leading run are none of the two CBRANCHes. -/
theorem ne_of_mem_leadingRun (h : f.Matched cj) {l : List OpId} (ho : o ∈ f.leadingRun l) :
    o ≠ cj.cbranch1 ∧ o ≠ cj.cbranch2 := by
  have hcode := (mem_leadingRun ho).2
  refine ⟨fun he => ?_, fun he => ?_⟩
  · rw [he, h.cbranch1.1] at hcode
    rcases hcode with hcode | hcode <;> exact nomatch hcode
  · rw [he, h.cbranch2.1] at hcode
    rcases hcode with hcode | hcode <;> exact nomatch hcode

/-- An exit before it is cut down. -/
theorem exists_runOf {phis : List OpId} (h : f.Matched cj) (hf : f.FlowGraph)
    (hm : Moved f g cj phis merged) {b : BlockId} (hb : b < f.numBlocks) :
    ∃ rest, f.leadingRun (f.block b).ops ++ rest = (f.block b).ops.erase cj.cbranch1 ∧
      RunOf g b (f.leadingRun (f.block b).ops) rest := by
  obtain ⟨rest, hrest, hends⟩ := exists_rest h.cbranch1.1 (h.split_cbranch hf.homed (b := b))
  have hop (o : OpId) (ho : o ∈ f.leadingRun (f.block b).ops) : g.op o = f.op o := by
    obtain ⟨h1, h2⟩ := h.ne_of_mem_leadingRun ho
    exact hm.op o (hf.homed.listed b o (mem_leadingRun ho).1) h1 h2
  have hnodup : (f.leadingRun (f.block b).ops ++ rest).Nodup :=
    hrest ▸ (hf.homed.nodup b).erase _
  refine ⟨rest, hrest, ?_, ?_, fun o ho => ?_, fun o ho => ?_, fun o ho => ?_, fun o ho hr => ?_⟩
  · rw [hm.numBlocks]
    exact hb.trans (Nat.lt_succ_self _)
  · rw [hm.ops b hb.ne, hrest]
  · rw [hop o ho]
    exact (mem_leadingRun ho).2
  · -- the rest may start with the CBRANCH that was destroyed
    have hmem : o ∈ (f.block b).ops.erase cj.cbranch1 :=
      hrest ▸ List.mem_append_right _ (List.mem_of_mem_head? ho)
    by_cases h2 : o = cj.cbranch2
    · rw [h2, hm.destroyed.2]
      exact fun hcode => hcode.elim (fun h => nomatch h) fun h => nomatch h
    · obtain ⟨h1, hmem⟩ := (hf.homed.nodup b).mem_erase_iff.mp hmem
      rw [hm.op o (hf.homed.listed b o hmem) h1 h2]
      exact hends o ho
  · rw [hop o ho]
    exact hf.homed.parent b o (mem_leadingRun ho).1
  · rw [List.nodup_append] at hnodup
    exact hnodup.2.2 o ho o hr rfl

end Matched

/-! The exits. -/

/-- Both exits are cut down. -/
structure ExitsCut (g g' : Funcdata) (cj : ConditionalJoin) (merged : List (MergeKey × VarnodeId))
    (runA restA runB restB : List OpId) : Prop where
  keeps : Keeps g g'
  outEdges : ∀ v, (g'.block v).outEdges = (g.block v).outEdges
  inEdges : ∀ v, (g'.block v).inEdges = (g.block v).inEdges
  opElse : ∀ o, ¬ (o ∈ runA ∧ (g.op o).opcode = .multiequal) →
    ¬ (o ∈ runB ∧ (g.op o).opcode = .multiequal) → g'.op o = g.op o
  opsElse : ∀ v, v ≠ cj.exita → v ≠ cj.exitb → (g'.block v).ops = (g.block v).ops
  opsA : ∃ run, run.Perm runA ∧ (g'.block cj.exita).ops = run ++ restA
  opsB : ∃ run, run.Perm runB ∧ (g'.block cj.exitb).ops = run ++ restB
  phisA : ∀ o ∈ runA, (g.op o).opcode = .multiequal → CutPhi g g' cj.aIn1 cj.aIn2 merged o
  phisB : ∀ o ∈ runB, (g.op o).opcode = .multiequal → CutPhi g g' cj.bIn1 cj.bIn2 merged o

theorem exists_exitsCut {cj : ConditionalJoin} {runA restA runB restB : List OpId}
    (hexit : cj.exita ≠ cj.exitb) (hne : cj.aIn1 ≠ cj.aIn2) (hne' : cj.bIn1 ≠ cj.bIn2)
    (hmerged : ∀ m ∈ merged, m.2 < g.numVarnodes ∧ (g.vn m.2).constant = false)
    (hA : RunOf g cj.exita runA restA) (hB : RunOf g cj.exitb runB restB) (hnA : runA.Nodup)
    (hnB : runB.Nodup) (hdis : ∀ o ∈ runA, o ∉ runB ++ restB)
    (hcutA : ∀ o ∈ runA, (g.op o).opcode = .multiequal → Cuttable g cj.aIn1 cj.aIn2 merged o)
    (hcutB : ∀ o ∈ runB, (g.op o).opcode = .multiequal → Cuttable g cj.bIn1 cj.bIn2 merged o) :
    ∃ g', ((cutDownMultiequals cj.exita cj.aIn1 cj.aIn2 merged g (g.block cj.exita).ops).bind
        fun g' => cutDownMultiequals cj.exitb cj.bIn1 cj.bIn2 merged g' (g'.block cj.exitb).ops) =
          some g' ∧ ExitsCut g g' cj merged runA restA runB restB := by
  obtain ⟨g₁, run₁, hg₁, he₁, hperm₁, hrun₁, hphi₁⟩ :=
    exists_cutDownMultiequals hne hmerged hA (fun _ ho => ho) hnA hcutA
  have hold (o : OpId) (ho : o ∈ runB ++ restB) : g₁.op o = g.op o :=
    he₁.op o fun hs => hdis o hs.1 ho
  have holdB (o : OpId) (ho : o ∈ runB) : g₁.op o = g.op o := hold o (List.mem_append_left _ ho)
  have hB₁ : RunOf g₁ cj.exitb runB restB := hB.edits he₁ (by simpa using hexit.symm)
    (fun o ho => by rw [hold o ho]) fun o ho => by rw [holdB o ho]
  obtain ⟨g₂, run₂, hg₂, he₂, hperm₂, hrun₂, hphi₂⟩ :=
    exists_cutDownMultiequals hne' (fun m hm => ⟨(hmerged m hm).1.trans_le he₁.keeps.le, by
      rw [he₁.keeps.constant _ (hmerged m hm).1, (hmerged m hm).2]⟩) hB₁ (fun _ ho => ho) hnB
      fun o ho hm => by
        rw [holdB o ho] at hm
        obtain ⟨v1, v2, w, hcut⟩ := hcutB o ho hm
        rw [← holdB o ho] at hcut
        exact ⟨v1, v2, w, hcut⟩
  have hnot (o : OpId) (ho : o ∈ runA) : o ∉ runB := fun hb => hdis o ho (List.mem_append_left _ hb)
  refine ⟨g₂, ?_, ?_⟩
  · rw [hA.ops, hg₁, Option.bind_some, hB₁.ops, hg₂]
  · constructor
    · exact he₁.keeps.trans he₂.keeps
    · exact fun v => (he₂.outEdges v).trans (he₁.outEdges v)
    · exact fun v => (he₂.inEdges v).trans (he₁.inEdges v)
    · intro o hoA hoB
      have h₁ : g₁.op o = g.op o := he₁.op o hoA
      rw [he₂.op o fun hs => hoB ⟨hs.1, h₁ ▸ hs.2⟩, h₁]
    · intro v hvA hvB
      rw [he₂.ops v (by simpa using hvB), he₁.ops v (by simpa using hvA)]
    · exact ⟨run₁, hperm₁, by rw [he₂.ops _ (by simpa using hexit), hrun₁.ops]⟩
    · exact ⟨run₂, hperm₂, hrun₂.ops⟩
    · exact fun o ho hm => (hphi₁ o ho hm).later (he₂.op o fun hs => hnot o ho hs.1)
    · exact fun o ho hm => (hphi₂ o ho (holdB o ho ▸ hm)).earlier (holdB o ho)

/-- The MULTIEQUALs of a block that stand in its leading run. -/
def runPhis (f : Funcdata) (b : BlockId) : List OpId :=
  (f.multis b).filter fun o => decide (o ∈ f.leadingRun (f.block b).ops)

theorem mem_runPhis_of_recorded {b : BlockId} {in1 in2 : ℕ} {keys : List MergeKey}
    (hf : f.Linked) (hrec : ∀ op ∈ f.leadingRun (f.block b).ops, (f.op op).opcode = .multiequal →
      f.PhiRecorded in1 in2 keys op) :
    o ∈ f.runPhis b ↔ o ∈ f.leadingRun (f.block b).ops ∧ (f.op o).opcode = .multiequal := by
  rw [runPhis, List.mem_filter, decide_eq_true_eq, mem_multis]
  refine ⟨fun h => ⟨h.2, h.1.2.2⟩, fun ⟨hrun, hcode⟩ => ⟨⟨(mem_leadingRun hrun).1, ?_, hcode⟩, hrun⟩⟩
  -- a MULTIEQUAL that was destroyed has no input for the sides
  obtain ⟨v1, -, h1, -⟩ := hrec o hrun hcode
  by_contra hdead
  rw [Bool.not_eq_false] at hdead
  have hmem := List.mem_of_getElem? h1
  rw [hf.dead o hdead] at hmem
  exact List.not_mem_nil hmem

/-- The MULTIEQUALs of the join block, when the exits are cut down. -/
theorem joins_of_moved {f' : Funcdata} {cj : ConditionalJoin} {phis : List OpId}
    (hm : Moved f g cj phis merged) (hk : Keeps g f')
    (hops : (f'.block f.numBlocks).ops = (g.block f.numBlocks).ops)
    (hphis : ∀ p ∈ phis, f'.op p = g.op p) (hc : f'.op cj.cbranch1 = g.op cj.cbranch1) :
    Joins f f' f.numBlocks merged ∧ f'.multis f.numBlocks = phis := by
  have hzip := List.forall₂_iff_zip.mp hm.pairs
  have hpairs : List.Forall₂ (MergedBy f f') phis merged :=
    List.forall₂_iff_zip.mpr ⟨hzip.1, fun hp =>
      (hzip.2 hp).keep hk (hphis _ (List.of_mem_zip hp).1)⟩
  have hall : ∀ p ∈ phis, (!(f'.op p).dead && decide ((f'.op p).opcode = .multiequal)) = true := by
    intro p hp
    obtain ⟨m, -, hpm⟩ := exists_of_forall₂ hpairs.flip hp
    rw [hpm.dead, hpm.opcode]
    rfl
  have hmultis : f'.multis f.numBlocks = phis := by
    unfold multis
    rw [hops, hm.join, List.filter_append, List.filter_eq_self.mpr hall, List.filter_singleton,
      hc, hm.opcode]
    simp
  refine ⟨⟨hm.keeps.trans hk, ?_, hm.nodup⟩, hmultis⟩
  rw [hmultis]
  exact hpairs

theorem phiKept_of_cutPhi {f' : Funcdata} {in1 in2 : ℕ} (hf : f.Linked)
    (hj : Joins f f' f.numBlocks merged) (hlive : (f.op op).dead = false) (hg : g.op op = f.op op)
    (h : CutPhi g f' in1 in2 merged op) : PhiKept f f' in1 in2 op := by
  refine ⟨by rw [h.dead, hg, hlive], by rw [h.output, hg], h.opcode, ?_⟩
  obtain ⟨v1, v2, w, h1, h2, hw, hin⟩ := h.inrefs
  rw [hg] at h1 h2 hin
  have hv1 := hf.lt_of_mem_inrefs (List.mem_of_getElem? h1)
  have hwlt : w < f'.numVarnodes := by
    rcases hw with ⟨-, rfl⟩ | ⟨-, -, hm⟩
    · exact hv1.trans_le hj.keeps.le
    · obtain ⟨p, -, hp⟩ := exists_of_forall₂ hj.phis hm
      exact hp.lt
  refine ⟨w, hin, fun env => ?_⟩
  obtain ⟨hval1, hval2⟩ := (@Joins.valueOf_combined _ _ _ env) hj hv1 hw ((Keeps.refl f').stands hwlt)
  refine ⟨fun v hv => ?_, fun v hv => ?_⟩
  · rw [hval1, Option.some.inj (hv.symm.trans h1)]
  · rw [hval2, Option.some.inj (hv.symm.trans h2)]

theorem length_foldSlot {α β : Type*} {lo hi : ℕ} {x : α} {y : β} {l : List α} {l' : List β}
    (h : l.length = l'.length) : (foldSlot lo hi x l).length = (foldSlot lo hi y l').length := by
  unfold foldSlot
  rw [List.length_set, List.length_set, List.length_eraseIdx, List.length_eraseIdx, h]

theorem PhiKept.length {f' : Funcdata} {in1 in2 : ℕ} (hf : f.FlowGraph) {b : BlockId}
    (h : PhiKept f f' in1 in2 op) (hop : op ∈ f.multis b)
    (hin : (f'.block b).inEdges =
      foldSlot (min in1 in2) (max in1 in2) f.numBlocks (f.block b).inEdges) :
    (f'.op op).inrefs.length = (f'.block b).inEdges.length := by
  obtain ⟨w, hw, -⟩ := h.inrefs
  rw [hw, hin]
  exact length_foldSlot (hf.arity b op hop)

/-- A match can be executed: nothing is lost but the MULTIEQUALs behind the leading runs. -/
theorem exists_joinKept {cj : ConditionalJoin} (h : f.Matched cj) (hf : f.FlowGraph) :
    ∃ f', f.joinExecute cj = some f' ∧
      JoinKept f f' cj (f.runPhis cj.exita) (f.runPhis cj.exitb) := by
  obtain ⟨g, phis, merged, hm, hexec⟩ := h.exists_moved hf
  have ltA : cj.exita < f.numBlocks := lt_of_mem_inEdges (mem_of_idxOf?_eq h.aIn1).1
  have ltB : cj.exitb < f.numBlocks := lt_of_mem_inEdges (mem_of_idxOf?_eq h.bIn1).1
  obtain ⟨restA, hrestA, hrunA⟩ := h.exists_runOf hf hm ltA
  obtain ⟨restB, hrestB, hrunB⟩ := h.exists_runOf hf hm ltB
  have memA {o : OpId} := mem_runPhis_of_recorded (o := o) hf.linked h.runA
  have memB {o : OpId} := mem_runPhis_of_recorded (o := o) hf.linked h.runB
  -- the ops of the runs are those of the graph that was matched
  have hrun {b : BlockId} {o : OpId} (ho : o ∈ f.leadingRun (f.block b).ops) :
      o < f.numOps ∧ g.op o = f.op o := by
    have hlt := hf.homed.listed b o (mem_leadingRun ho).1
    obtain ⟨h1, h2⟩ := h.ne_of_mem_leadingRun ho
    exact ⟨hlt, hm.op o hlt h1 h2⟩
  have hcut {b : BlockId} {in1 in2 : ℕ} (hrec : ∀ op ∈ f.leadingRun (f.block b).ops,
      (f.op op).opcode = .multiequal → f.PhiRecorded in1 in2 cj.mergeneed op) (o : OpId)
      (ho : o ∈ f.leadingRun (f.block b).ops) (hcode : (g.op o).opcode = .multiequal) :
      Cuttable g in1 in2 merged o := by
    rw [(hrun ho).2] at hcode
    obtain ⟨v1, v2, h1, h2, hpair⟩ := hrec o ho hcode
    obtain ⟨w, hw⟩ := exists_combined hm.keys hpair
    rw [← (hrun ho).2] at h1 h2
    exact ⟨v1, v2, w, h1, h2, hw⟩
  obtain ⟨f', hf', hc⟩ := exists_exitsCut h.exits (ne_of_idxOf?_ne h.blocks h.aIn1 h.aIn2)
    (ne_of_idxOf?_ne h.blocks h.bIn1 h.bIn2)
    (fun m hmem => by
      obtain ⟨p, -, hp⟩ := exists_of_forall₂ hm.pairs hmem
      exact ⟨hp.lt, hp.constant⟩) hrunA hrunB
    ((hf.homed.nodup _).sublist (List.takeWhile_sublist _))
    ((hf.homed.nodup _).sublist (List.takeWhile_sublist _))
    (fun o hoA hoB => h.exits <| by
      rw [hrestB] at hoB
      exact hf.homed.eq_of_mem (mem_leadingRun hoA).1 (List.mem_of_mem_erase hoB))
    (hcut h.runA) (hcut h.runB)
  refine ⟨f', hexec.trans hf', ?_⟩
  have hlt1 := hf.homed.listed _ _ h.mem1
  have hlt2 := hf.homed.listed _ _ h.mem2
  have hfar {o : OpId} (ho : ∀ b, o ∉ f.leadingRun (f.block b).ops) : f'.op o = g.op o :=
    hc.opElse o (fun hs => ho _ hs.1) fun hs => ho _ hs.1
  have hop1 : f'.op cj.cbranch1 = g.op cj.cbranch1 :=
    hfar fun b hb => (h.ne_of_mem_leadingRun hb).1 rfl
  have hop2 : f'.op cj.cbranch2 = g.op cj.cbranch2 :=
    hfar fun b hb => (h.ne_of_mem_leadingRun hb).2 rfl
  obtain ⟨hj, hmultis⟩ := joins_of_moved hm hc.keeps (hc.opsElse _ ltA.ne' ltB.ne')
    (fun p hp => hfar fun b hb => absurd (hrun hb).1 (not_lt.mpr (hm.fresh p hp))) hop1
  have hopsJ : (f'.block f.numBlocks).ops = phis ++ [cj.cbranch1] := by
    rw [hc.opsElse _ ltA.ne' ltB.ne', hm.join]
  obtain ⟨g₁, hflow, hout, hin⟩ := hm.flow
  obtain ⟨v1, v2, w, u, hv1, hv2, hw, hwlt, hu, hst⟩ := hm.input
  have hout' (v : BlockId) : (f'.block v).outEdges = (g₁.block v).outEdges := by
    rw [hc.outEdges, hout]
  have hin' (v : BlockId) : (f'.block v).inEdges = (g₁.block v).inEdges := by
    rw [hc.inEdges, hin]
  have hst' : Stands f' f' w u := (hst.keeps hc.keeps).later hc.keeps hwlt
  have hvals (env : VarnodeId → ℕ) := (@Joins.valueOf_combined _ _ _ env) hj
    (hf.linked.lt_of_mem_inrefs (List.mem_of_getElem? hv1)) hw hst'
  have hphis := hj.phis
  rw [hmultis] at hphis
  have hlast : (f'.block f.numBlocks).ops.getLast? = some cj.cbranch1 := by
    rw [hopsJ, List.getLast?_append]
    rfl
  have htaken (env : VarnodeId → ℕ) := (@exitTaken_of_cbranch _ _ _ env)
    (by rw [hout', hflow.outs]) hlast (by rw [hop1, hu]) (by rw [hop1, hm.booleanFlip])
  have hrunPhis {b : BlockId} (o : OpId) (ho : o ∈ f.runPhis b) :
      o ∈ f.multis b ∧ (f.op o).dead = false := by
    have hmem := List.mem_of_mem_filter ho
    exact ⟨hmem, (mem_multis.mp hmem).2.1⟩
  constructor
  · rw [hin', hflow.ins]
  · rw [hout', hflow.outs]
  · refine ⟨phis, hopsJ, fun p hp => ?_, fun v1' v2' h1 h2 hne => ?_⟩
    · obtain ⟨m, -, hpm⟩ := exists_of_forall₂ hphis.flip hp
      exact ⟨hpm.opcode, hpm.inrefs.length_eq.symm⟩
    · obtain rfl : v1 = v1' := Option.some.inj (hv1.symm.trans h1)
      obtain rfl : v2 = v2' := Option.some.inj (hv2.symm.trans h2)
      rcases hw with ⟨he, -⟩ | ⟨-, -, hmem⟩
      · exact absurd he hne
      · obtain ⟨p, hp, hpm⟩ := exists_of_forall₂ hphis hmem
        refine ⟨p, hp, ?_, hpm.inrefs⟩
        rcases hst'.same with ⟨rfl, -⟩ | ⟨-, hconst⟩
        · rw [hpm.output, hop1, hu]
        · exact absurd (hpm.constant.symm.trans hconst) Bool.false_ne_true
  · rw [hop1]
    exact ⟨hm.opcode, hm.dead⟩
  · rw [hop2]
    exact hm.destroyed.1
  · intro env
    refine ⟨exitTaken_of_single (by rw [hout', hflow.out1]), ?_⟩
    rw [htaken, exitTaken_of_cbranch h.out1 h.last1 hv1 h.cbranch1.2, (hvals env).1]
  · intro env
    refine ⟨exitTaken_of_single (by rw [hout', hflow.out2]), ?_⟩
    rw [htaken, exitTaken_of_cbranch h.out2 h.last2 hv2 h.cbranch2.2, (hvals env).2]
  · obtain ⟨run, hperm, hops⟩ := hc.opsA
    have hinA := (hin' cj.exita).trans hflow.insA
    have hkept : ∀ o ∈ f.runPhis cj.exita, PhiKept f f' cj.aIn1 cj.aIn2 o := fun o ho => by
      obtain ⟨hrunO, hcode⟩ := memA.mp ho
      have hg := (hrun hrunO).2
      exact phiKept_of_cutPhi hf.linked hj (hrunPhis o ho).2 hg
        (hc.phisA o hrunO (by rw [hg, hcode]))
    exact ⟨hinA, ⟨run, restA, hperm, hops, hrestA⟩, hkept,
      fun o ho => (hkept o ho).length hf (hrunPhis o ho).1 hinA⟩
  · obtain ⟨run, hperm, hops⟩ := hc.opsB
    have hinB := (hin' cj.exitb).trans hflow.insB
    have hkept : ∀ o ∈ f.runPhis cj.exitb, PhiKept f f' cj.bIn1 cj.bIn2 o := fun o ho => by
      obtain ⟨hrunO, hcode⟩ := memB.mp ho
      have hg := (hrun hrunO).2
      exact phiKept_of_cutPhi hf.linked hj (hrunPhis o ho).2 hg
        (hc.phisB o hrunO (by rw [hg, hcode]))
    exact ⟨hinB, ⟨run, restB, hperm, hops, hrestB⟩, hkept,
      fun o ho => (hkept o ho).length hf (hrunPhis o ho).1 hinB⟩
  · intro o ho h1 h2 hA hB
    rw [hc.opElse o ?_ ?_, hm.op o ho h1 h2]
    · rintro ⟨hr, hcode⟩
      exact hA (memA.mpr ⟨hr, (hrun hr).2 ▸ hcode⟩)
    · rintro ⟨hr, hcode⟩
      exact hB (memB.mpr ⟨hr, (hrun hr).2 ▸ hcode⟩)
  · intro v hv hA hB
    rw [hc.opsElse v hA hB, hm.ops v hv]
  · intro v hv h1 h2
    rw [hout', hflow.outElse v hv h1 h2]
  · intro v hv hA hB
    rw [hin', hflow.inElse v hv hA hB]

theorem runPhis_eq (h : f.PhisLead b) : f.runPhis b = f.multis b :=
  List.filter_eq_self.mpr fun o ho => decide_eq_true (h o ho)

/-- A MULTIEQUAL behind the leading run of its exit is left with the inputs it had. -/
theorem phisLead_of_kept {f' : Funcdata} {cj : ConditionalJoin} {exit : BlockId}
    {in1 in2 : ℕ} (hf : f.FlowGraph)
    (hkept : ExitKept f f' cj.cbranch1 exit in1 in2 (f.multis exit))
    (hin1 : in1 < (f.block exit).inEdges.length) (hin2 : in2 < (f.block exit).inEdges.length)
    (helse : ∀ o ∈ f.multis exit, o ∉ f.runPhis exit → f'.op o = f.op o) : f.PhisLead exit := by
  intro o ho
  by_contra hrun
  have hsame : f'.op o = f.op o := helse o ho fun hm => hrun <| by
    simpa using List.of_mem_filter hm
  have harity := hkept.arity o ho
  rw [hsame, hf.arity exit o ho, hkept.inEdges] at harity
  unfold foldSlot at harity
  rw [List.length_set, List.length_eraseIdx_of_lt (max_lt hin1 hin2)] at harity
  omega

theorem phisLead_of_joinKept {f' : Funcdata} {cj : ConditionalJoin} (hf : f.FlowGraph)
    (hm : f.Matched cj) (hexec : f.joinExecute cj = some f')
    (hkept : JoinKept f f' cj (f.multis cj.exita) (f.multis cj.exitb)) :
    f.PhisLead cj.exita ∧ f.PhisLead cj.exitb := by
  obtain ⟨g, hg, hrun⟩ := exists_joinKept hm hf
  obtain rfl : g = f' := Option.some.inj (hg.symm.trans hexec)
  have hlt {l : List BlockId} {a : BlockId} {i : ℕ} (hi : l.idxOf? a = some i) : i < l.length :=
    (List.getElem?_eq_some_iff.mp (mem_of_idxOf?_eq hi).2).1
  have helse {b b' : BlockId} (hbb : b ≠ b') (o : OpId) (ho : o ∈ f.multis b) :
      o < f.numOps ∧ o ≠ cj.cbranch1 ∧ o ≠ cj.cbranch2 ∧ o ∉ f.runPhis b' := by
    obtain ⟨hmem, -, hcode⟩ := mem_multis.mp ho
    refine ⟨hf.homed.listed b o hmem, fun he => ?_, fun he => ?_, fun hr => hbb ?_⟩
    · rw [he, hm.cbranch1.1] at hcode
      exact nomatch hcode
    · rw [he, hm.cbranch2.1] at hcode
      exact nomatch hcode
    · exact hf.homed.eq_of_mem hmem (mem_multis.mp (List.mem_of_mem_filter hr)).1
  constructor
  · refine phisLead_of_kept hf hkept.exita (hlt hm.aIn1) (hlt hm.aIn2) fun o ho hr => ?_
    obtain ⟨h1, h2, h3, h4⟩ := helse hm.exits o ho
    exact hrun.opElse o h1 h2 h3 hr h4
  · refine phisLead_of_kept hf hkept.exitb (hlt hm.bIn1) (hlt hm.bIn2) fun o ho hr => ?_
    obtain ⟨h1, h2, h3, h4⟩ := helse hm.exits.symm o ho
    exact hrun.opElse o h1 h2 h3 h4 hr

/-- A join that a match accepted preserves what runs through it exactly if all MULTIEQUALs of both
exits stand in the leading run of MULTIEQUALs and COPYs. -/
theorem joinKept_iff_phisLead {b1 b2 : BlockId} {cj : ConditionalJoin} (hf : f.FlowGraph)
    (h : f.joinMatches b1 b2 = some (some cj)) :
    (∃ f', f.joinExecute cj = some f' ∧
      JoinKept f f' cj (f.multis cj.exita) (f.multis cj.exitb)) ↔
        f.PhisLead cj.exita ∧ f.PhisLead cj.exitb := by
  have hm := matched_of_joinMatches h
  refine ⟨fun ⟨f', hf', hkept⟩ => phisLead_of_joinKept hf hm hf' hkept, fun ⟨hA, hB⟩ => ?_⟩
  obtain ⟨g, hg, hrun⟩ := exists_joinKept hm hf
  rw [runPhis_eq hA, runPhis_eq hB] at hrun
  exact ⟨g, hg, hrun⟩

/-! Two blocks that test the same condition, and an op that was destroyed in their first exit. -/

def diamondVarnodes : List Varnode :=
  [{ loc := ⟨1, 0x10⟩, size := 1, annotation := true, descend := [0], nzm := 0xff },
    { loc := ⟨2, 0⟩, size := 1, input := true, insert := true, descend := [0], nzm := 1 },
    { loc := ⟨1, 0x20⟩, size := 1, annotation := true, descend := [1], nzm := 0xff },
    { loc := ⟨2, 1⟩, size := 1, input := true, insert := true, descend := [1, 2], nzm := 1 },
    { loc := ⟨1, 0x20⟩, size := 1, annotation := true, descend := [2], nzm := 0xff },
    { loc := ⟨2, 4⟩, size := 4, input := true, insert := true, descend := [4], nzm := calcMask 4 },
    { loc := ⟨2, 8⟩, size := 4, input := true, insert := true, descend := [4], nzm := calcMask 4 },
    { loc := ⟨3, 0⟩, size := 4, written := true, insert := true, defOp := some 4,
      nzm := calcMask 4 }]

def diamondOps : List PcodeOp :=
  [{ opcode := .cbranch, parent := some 0, inrefs := [0, 1] },
    { opcode := .cbranch, parent := some 1, inrefs := [2, 3] },
    { opcode := .cbranch, parent := some 2, inrefs := [4, 3] },
    { opcode := .intAdd, parent := some 3, dead := true },
    { opcode := .multiequal, parent := some 3, output := some 7, inrefs := [5, 6] }]

/-- The op that was destroyed is ahead of the MULTIEQUAL of the first exit, or behind it. -/
def diamondGraph (ops : List OpId) : Funcdata :=
  ofLists diamondVarnodes diamondOps
    [{ ops := [0], outEdges := [1, 2] },
      { ops := [1], inEdges := [0], outEdges := [3, 4] },
      { ops := [2], inEdges := [0], outEdges := [3, 4] },
      { ops := ops, inEdges := [1, 2] },
      { ops := [], inEdges := [1, 2] }]

def diamondJoin : ConditionalJoin := ⟨1, 2, 3, 4, 0, 1, 0, 1, 1, 2, []⟩

theorem joinKept_iff_phisLead_behind :
    (∃ f', (diamondGraph [4, 3]).joinExecute { diamondJoin with mergeneed := [(5, 6)] } = some f' ∧
      JoinKept (diamondGraph [4, 3]) f' { diamondJoin with mergeneed := [(5, 6)] }
        ((diamondGraph [4, 3]).multis 3) ((diamondGraph [4, 3]).multis 4)) ↔
      (diamondGraph [4, 3]).PhisLead 3 ∧ (diamondGraph [4, 3]).PhisLead 4 :=
  (@joinKept_iff_phisLead _ 1 2)
    (flowGraph_ofLists (by decide +kernel) (by decide +kernel)) (by decide +kernel)

/-- The MULTIEQUAL behind the op that was destroyed keeps an input for each of two in-edges, and the
exit has one. -/
theorem joinKept_not_ahead : ¬∀ (f : Funcdata) (b1 b2 : BlockId) (cj : ConditionalJoin),
    f.FlowGraph → f.joinMatches b1 b2 = some (some cj) → ∃ f', f.joinExecute cj = some f' ∧
      JoinKept f f' cj (f.multis cj.exita) (f.multis cj.exitb) := by
  intro h
  have hf : (diamondGraph [3, 4]).FlowGraph :=
    flowGraph_ofLists (by decide +kernel) (by decide +kernel)
  have hmatch : (diamondGraph [3, 4]).joinMatches 1 2 = some (some diamondJoin) := by
    decide +kernel
  obtain ⟨f', hf', hkept⟩ := h _ _ _ _ hf hmatch
  have hlead := (phisLead_of_joinKept hf (matched_of_joinMatches hmatch) hf' hkept).1
  have hrun : 4 ∈ (diamondGraph [3, 4]).leadingRun ((diamondGraph [3, 4]).block 3).ops :=
    hlead 4 (by decide +kernel)
  exact absurd hrun (by decide +kernel)

end Funcdata
end Mosura
