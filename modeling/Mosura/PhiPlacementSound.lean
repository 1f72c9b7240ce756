import Mosura.PhiPlacement
import Mosura.DominanceFrontier
import Mosura.FlowEditOps
import Mosura.Lib.SsaForm

/-! Behind the MULTIEQUALs that are placed, the names on the way down the dominator tree are the last
ones written on every way through the graph. -/

namespace Mosura

open Paths Climbs SsaForm

variable {frontier : List (List BlockId)} {defs df work placed : List BlockId} {n fuel : ℕ}
variable {b d x : BlockId}

/-! The worklist. -/

/-- What a frontier adds to the state `p` of the loop. -/
structure PlacedAll (defs df : List BlockId) (p r : List BlockId × List BlockId) : Prop where
  nodup : r.2.Nodup
  mem : ∀ b, b ∈ r.2 ↔ b ∈ p.2 ∨ b ∈ df
  work : p.1 ⊆ r.1
  source : ∀ x ∈ r.1, x ∈ p.1 ∨ x ∈ r.2
  later : ∀ x ∈ r.2, x ∈ p.2 ∨ x ∈ defs ∨ x ∈ r.1
  length : r.1.length + p.2.length ≤ p.1.length + r.2.length

theorem placeAll_spec {p : List BlockId × List BlockId} (h : p.2.Nodup) :
    PlacedAll defs df p (df.foldl (placeAt defs) p) := by
  induction df generalizing p with
  | nil => exact ⟨h, by simp, List.Subset.refl _, fun _ => .inl, fun _ => .inl, le_rfl⟩
  | cons d df ih =>
    rw [List.foldl_cons]
    by_cases hd : d ∈ p.2
    · rw [placeAt, if_pos hd]
      have hr := ih h
      refine ⟨hr.nodup, fun b => ?_, hr.work, hr.source, hr.later, hr.length⟩
      rw [hr.mem, List.mem_cons]
      constructor
      · exact Or.imp_right .inr
      · rintro (hb | rfl | hb)
        · exact .inl hb
        · exact .inl hd
        · exact .inr hb
    · have hnd : (p.2 ++ [d]).Nodup := by
        rw [List.nodup_append]
        exact ⟨h, List.nodup_singleton d, fun a ha c hc => List.mem_singleton.mp hc ▸ fun he => hd (he ▸ ha)⟩
      rw [placeAt, if_neg hd]
      have hr := ih (p := (if d ∈ defs then p.1 else d :: p.1, p.2 ++ [d])) hnd
      have hlen := hr.length
      refine ⟨hr.nodup, fun b => ?_, fun x hx => hr.work ?_, fun x hx => ?_, fun x hx => ?_, ?_⟩
      · rw [hr.mem, List.mem_append, List.mem_singleton, List.mem_cons, or_assoc]
      · split_ifs
        · exact hx
        · exact List.mem_cons_of_mem d hx
      · rcases hr.source x hx with h' | h'
        · dsimp only at h'
          split_ifs at h'
          · exact .inl h'
          · rcases List.mem_cons.mp h' with rfl | h'
            · exact .inr ((hr.mem x).mpr (.inl (by simp)))
            · exact .inl h'
        · exact .inr h'
      · rcases hr.later x hx with h' | h'
        · rcases List.mem_append.mp h' with h' | h'
          · exact .inl h'
          · obtain rfl := List.mem_singleton.mp h'
            by_cases hdefs : x ∈ defs
            · exact .inr (.inl hdefs)
            · exact .inr (.inr (hr.work (by simp [hdefs])))
        · exact .inr h'
      · have hwork : (if d ∈ defs then p.1 else d :: p.1).length ≤ p.1.length + 1 := by
          split_ifs <;> simp
        simp only [List.length_append, List.length_singleton] at hlen
        omega

/-- `b` is in the frontier that is listed for `x`. -/
def Listed (frontier : List (List BlockId)) (x b : BlockId) : Prop :=
  ∃ df, frontier[x]? = some df ∧ b ∈ df

/-- The loop when `work` is still to be worked on. -/
structure Placing (frontier : List (List BlockId)) (defs work placed : List BlockId) : Prop where
  nodup : placed.Nodup
  joins : ∀ b ∈ placed, Iterated (Listed frontier) (· ∈ defs) b
  source : ∀ x ∈ work, x ∈ defs ∨ x ∈ placed
  closed : ∀ x, x ∈ defs ∨ x ∈ placed → x ∈ work ∨ ∀ b, Listed frontier x b → b ∈ placed

/-- The loop ends, with the blocks of the iterated frontier, each once. -/
theorem placeLoop_spec (hfront : ∀ x < n, ∃ df, frontier[x]? = some df ∧ ∀ b ∈ df, b < n)
    (hdefs : ∀ x ∈ defs, x < n) (h : Placing frontier defs work placed) (hn : ∀ b ∈ placed, b < n)
    (hfuel : work.length + (n - placed.length) < fuel) :
    ∃ r, placeLoop frontier defs fuel (work, placed) = some r ∧ r.Nodup ∧ (∀ b ∈ r, b < n) ∧
      ∀ b, b ∈ r ↔ Iterated (Listed frontier) (· ∈ defs) b := by
  induction fuel generalizing work placed with
  | zero => exact absurd hfuel (Nat.not_lt_zero _)
  | succ fuel ih =>
    cases work with
    | nil =>
      have hclosed : ∀ x, x ∈ defs ∨ x ∈ placed → ∀ b, Listed frontier x b → b ∈ placed :=
        fun x hx => (h.closed x hx).resolve_left List.not_mem_nil
      refine ⟨placed, rfl, h.nodup, hn, fun b => ⟨h.joins b, fun hb => ?_⟩⟩
      induction hb with
      | base hx hb => exact hclosed _ (.inl hx) _ hb
      | step _ hb ihx => exact hclosed _ (.inr ihx) _ hb
    | cons x work =>
      have hxs := h.source x List.mem_cons_self
      obtain ⟨df, hdf, hlt⟩ := hfront x (hxs.elim (hdefs x) (hn x))
      have hr : PlacedAll defs df (work, placed) (df.foldl (placeAt defs) (work, placed)) :=
        placeAll_spec h.nodup
      unfold placeLoop
      rw [hdf, Option.bind_some]
      generalize df.foldl (placeAt defs) (work, placed) = r at hr
      obtain ⟨work', placed'⟩ := r
      have hn' : ∀ b ∈ placed', b < n := fun b hb => ((hr.mem b).mp hb).elim (hn b) (hlt b)
      have hlen : placed'.length ≤ n := by
        rw [← List.length_range (n := n)]
        exact (List.subperm_of_subset hr.nodup fun b hb => List.mem_range.mpr (hn' b hb)).length_le
      refine ih ⟨hr.nodup, fun b hb => ?_, fun y hy => ?_, fun y hy => ?_⟩ hn' ?_
      · rcases (hr.mem b).mp hb with hb | hb
        · exact h.joins b hb
        · rcases hxs with hx | hx
          · exact .base hx ⟨df, hdf, hb⟩
          · exact .step (h.joins x hx) ⟨df, hdf, hb⟩
      · rcases hr.source y hy with hy | hy
        · exact (h.source y (List.mem_cons_of_mem x hy)).imp_right fun hy => (hr.mem y).mpr (.inl hy)
        · exact .inr hy
      · have hold : y ∈ defs ∨ y ∈ placed → y ∈ work' ∨ ∀ b, Listed frontier y b → b ∈ placed' := by
          intro hy
          rcases h.closed y hy with hw | hall
          · rcases List.mem_cons.mp hw with rfl | hw
            · refine .inr fun b ⟨df', hdf', hb⟩ => (hr.mem b).mpr (.inr ?_)
              exact Option.some.inj (hdf'.symm.trans hdf) ▸ hb
            · exact .inl (hr.work hw)
          · exact .inr fun b hb => (hr.mem b).mpr (.inl (hall b hb))
        rcases hy with hy | hy
        · exact hold (.inl hy)
        · rcases hr.later y hy with hy | hy | hy
          · exact hold (.inr hy)
          · exact hold (.inl hy)
          · exact .inl hy
      · have := hr.length
        have := (List.subperm_of_subset h.nodup fun b hb => (hr.mem b).mpr (.inl hb)).length_le
        simp only [List.length_cons] at hfuel this ⊢
        dsimp only at *
        omega

/-! One MULTIEQUAL. -/

namespace Funcdata

variable {f g : Funcdata} {l : Loc} {phi o : OpId} {out u v : VarnodeId}

/-- The op `phi` with the output `out` is new at the front of the block `d`. -/
structure AddsPhi (f f' : Funcdata) (d : BlockId) (l : Loc) (phi : OpId) (out : VarnodeId) : Prop where
  eq : phi = f.numOps
  numOps : f'.numOps = f.numOps + 1
  le : f.numVarnodes ≤ out
  lt : out < f'.numVarnodes
  vn : ∀ u < f.numVarnodes, ∃ m, f'.vn u = { f.vn u with descend := m }
  loc : f'.locOf out = l
  defOp : (f'.vn out).defOp = some phi
  op : ∀ o ≠ phi, f'.op o = f.op o
  opcode : (f'.op phi).opcode = .multiequal
  output : (f'.op phi).output = some out
  blocks : f'.numBlocks = f.numBlocks
  block : ∀ b, f'.block b = if b = d then { f.block b with ops := phi :: (f.block b).ops } else f.block b

theorem placeholders_spec (ks : List ℕ) (p : Funcdata × List VarnodeId) :
    let r := ks.foldl (fun (f, ids) _ =>
      let (f', v) := f.newVarnode l.2 l.1
      (f', ids ++ [v])) p
    r.1.op = p.1.op ∧ r.1.numOps = p.1.numOps ∧ r.1.blocks = p.1.blocks ∧
      p.1.numVarnodes ≤ r.1.numVarnodes ∧ ∀ u < p.1.numVarnodes, r.1.vn u = p.1.vn u := by
  induction ks generalizing p with
  | nil => exact ⟨rfl, rfl, rfl, le_rfl, fun _ _ => rfl⟩
  | cons k ks ih =>
    obtain ⟨hop, hno, hblocks, hnv, hvn⟩ := ih ((p.1.newVarnode l.2 l.1).1, p.2 ++ [p.1.numVarnodes])
    refine ⟨hop, hno, hblocks, (Nat.le_succ _).trans hnv, fun u hu => ?_⟩
    refine (hvn u (Nat.lt_succ_of_lt hu)).trans ?_
    exact (allocVarnode_vn ..).trans (if_neg hu.ne)

theorem newOp_old (opcode : OpCode) (seqnum : SeqNum) (inputs : List VarnodeId) :
    f.numVarnodes ≤ (f.newOp opcode seqnum inputs).1.numVarnodes ∧
      (f.newOp opcode seqnum inputs).1.blocks = f.blocks ∧
      ∀ u < f.numVarnodes, ∃ m, (f.newOp opcode seqnum inputs).1.vn u = { f.vn u with descend := m } := by
  have hle : ∀ (l : List VarnodeId) (g : Funcdata), g.numVarnodes ≤ (g.uniqueConstants l).1.numVarnodes := by
    intro l
    induction l with
    | nil => exact fun g => le_rfl
    | cons v l ih => exact fun g => (uniqueConstantFor_le g v).trans (ih _)
  have hfold : ∀ (l : List VarnodeId) (g : Funcdata),
      (l.foldl (fun g v => g.addDescend v f.numOps) g).numVarnodes = g.numVarnodes ∧
      ∀ u, ∃ m, (l.foldl (fun g v => g.addDescend v f.numOps) g).vn u = { g.vn u with descend := m } := by
    intro l
    induction l with
    | nil => exact fun g => ⟨rfl, fun u => ⟨_, rfl⟩⟩
    | cons v l ih =>
      intro g
      refine ⟨(ih _).1, fun u => ?_⟩
      obtain ⟨m, hm⟩ := (ih (g.addDescend v f.numOps)).2 u
      refine ⟨m, hm.trans ?_⟩
      simp only [addDescend, modVn_vn]
      split_ifs with hu
      · rw [hu]
      · rfl
  refine ⟨(hle inputs f).trans_eq (hfold _ _).1.symm, (grows_newOp f opcode seqnum inputs).blocks, fun u hu => ?_⟩
  obtain ⟨m, hm⟩ := (hfold (f.uniqueConstants inputs).2 (f.uniqueConstants inputs).1).2 u
  exact ⟨m, hm.trans (by rw [uniqueConstants_vn inputs f hu])⟩

theorem newMultiequal_spec (hd : d < f.numBlocks) (l : Loc) (npreds : ℕ) :
    AddsPhi f (f.newMultiequal d l npreds).1 d l (f.newMultiequal d l npreds).2.1
      (f.newMultiequal d l npreds).2.2 := by
  obtain ⟨hop, hno, hblocks, hnv, hvn⟩ := placeholders_spec (l := l) (List.range npreds) (f, [])
  unfold newMultiequal
  dsimp only at *
  generalize (List.range npreds).foldl _ (f, []) = r at *
  obtain ⟨g, ids⟩ := r
  dsimp only at *
  generalize (⟨_, _⟩ : SeqNum) = seqnum
  obtain ⟨hle, hblocks', hold⟩ := newOp_old (f := g) .multiequal seqnum ids
  have hgrow := grows_newOp g .multiequal seqnum ids
  have hnew : ((g.newOp .multiequal seqnum ids).1.op g.numOps).output = none := by simp [newOp]
  have hid : (g.newOp .multiequal seqnum ids).2 = g.numOps := rfl
  rw [hid]
  generalize (g.newOp .multiequal seqnum ids).1 = f₂ at *
  unfold newOutput
  rw [hnew, Option.elim_none]
  dsimp only
  refine ⟨hno, ?_, hnv.trans hle, Nat.lt_succ_self _, fun u hu => ?_, ?_, ?_, fun o ho => ?_, ?_, ?_, ?_,
    fun b => ?_⟩
  · exact hgrow.numOps.trans (congrArg (· + 1) hno)
  · obtain ⟨m, hm⟩ := hold u (hu.trans_le hnv)
    have hne : u ≠ f₂.numVarnodes := (hu.trans_le (hnv.trans hle)).ne
    refine ⟨m, ?_⟩
    simp only [modBlock_vn, modOp_vn, modVn_vn, allocVarnode_vn, if_neg hne]
    rw [hm, hvn u hu]
  · simp only [locOf, modBlock_vn, modOp_vn, modVn_vn, allocVarnode_vn, if_true]
    rfl
  · simp only [modBlock_vn, modOp_vn, modVn_vn, allocVarnode_vn, if_true]
  · simp only [modBlock_op, modOp_op, modVn_op, allocVarnode_op, if_neg ho]
    rw [hgrow.old o ho, hop]
  · simp only [modBlock_op, modOp_op, modVn_op, allocVarnode_op, if_true]
    exact hgrow.opcode
  · simp only [modBlock_op, modOp_op, modVn_op, allocVarnode_op, if_true]
  · rw [numBlocks_modBlock]
    exact congrArg List.length (hblocks'.trans hblocks)
  · have hb : ∀ x, Funcdata.block f₂ x = f.block x := fun x => by
      unfold block
      rw [hblocks', hblocks]
    rw [block_modBlock]
    · split_ifs with hbd
      · rw [hbd]
        exact congrArg (fun x : BlockBasic => { x with ops := g.numOps :: x.ops }) (hb d)
      · exact hb b
    · exact hd.trans_eq (congrArg List.length (hblocks'.trans hblocks)).symm

end Funcdata

namespace Heritage

variable {s s₀ : Heritage} {p : Heritage × Phis} {l : Loc} {done : Loc → BlockId → Prop}

/-- The output of `op`, if it takes part and is at `l`. -/
def outAt (s : Heritage) (l : Loc) (op : OpId) : Option VarnodeId :=
  (s.f.op op).output.filter fun v => s.active v && decide (s.f.locOf v = l)

def writes (s : Heritage) (l : Loc) (b : BlockId) : List VarnodeId :=
  (s.f.block b).ops.filterMap (s.outAt l)

def IsPhi (f : Funcdata) (v : VarnodeId) : Prop :=
  ∃ d, (f.vn v).defOp = some d ∧ (f.op d).opcode = .multiequal

/-- The ops of the blocks are there, and their outputs. -/
structure Named (f : Funcdata) : Prop where
  listed : ∀ b, ∀ o ∈ (f.block b).ops, o < f.numOps
  output : ∀ b, ∀ o ∈ (f.block b).ops, ∀ v, (f.op o).output = some v → v < f.numVarnodes

theorem lt_of_mem_writes {v : VarnodeId} (hN : Named s.f) (hv : v ∈ s.writes l b) : v < s.f.numVarnodes := by
  obtain ⟨o, ho, hout⟩ := List.mem_filterMap.mp hv
  exact hN.output b o ho v (Option.filter_eq_some_iff.mp hout).1

/-- `s` is `s₀` with one MULTIEQUAL for each location and block in `done`. -/
structure Grown (s₀ s : Heritage) (done : Loc → BlockId → Prop) : Prop where
  named : Named s.f
  numBlocks : s.f.numBlocks = s₀.f.numBlocks
  edges : ∀ b, (s.f.block b).outEdges = (s₀.f.block b).outEdges
  phi : ∀ l b, done l b → ∃ v, s.writes l b = v :: s₀.writes l b ∧ IsPhi s.f v
  old : ∀ l b, ¬done l b → s.writes l b = s₀.writes l b

theorem Grown.placePhi (h : Grown s₀ p.1 done) (hd : d < s₀.f.numBlocks) (hnew : ¬done l d) :
    Grown s₀ (placePhi l p d).1 fun l' b => done l' b ∨ l' = l ∧ b = d := by
  obtain ⟨s, phis⟩ := p
  unfold Heritage.placePhi
  dsimp only at h ⊢
  have hA := Funcdata.newMultiequal_spec (hd.trans_eq h.numBlocks.symm) l (s.f.block d).inEdges.length
  generalize s.f.newMultiequal d l (s.f.block d).inEdges.length = r at hA
  obtain ⟨f', phi, out⟩ := r
  dsimp only at hA ⊢
  -- what the old ops write is what they wrote
  have hne : ∀ b, ∀ o ∈ (s.f.block b).ops, o ≠ phi := fun b o ho he =>
    absurd (h.named.listed b o ho) (not_lt.mpr (he.trans hA.eq).ge)
  have hout : ∀ l' b, ∀ o ∈ (s.f.block b).ops,
      outAt ⟨f', Function.update s.active out true⟩ l' o = s.outAt l' o := by
    intro l' b o ho
    unfold outAt
    rw [hA.op o (hne b o ho)]
    cases hv : (s.f.op o).output with
    | none => rfl
    | some v =>
      have hlt := h.named.output b o ho v hv
      obtain ⟨m, hm⟩ := hA.vn v hlt
      have hloc : f'.locOf v = s.f.locOf v := by
        unfold Funcdata.locOf
        rw [hm]
      simp only [Option.filter_some, hloc, Function.update_of_ne (hlt.trans_le hA.le).ne]
  have hphi : ∀ l', outAt ⟨f', Function.update s.active out true⟩ l' phi =
      if l = l' then some out else none := fun l' => by
    simp [outAt, hA.output, hA.loc, Option.filter_some]
  have hwrites : ∀ l' b, writes ⟨f', Function.update s.active out true⟩ l' b =
      if l' = l ∧ b = d then out :: s.writes l' b else s.writes l' b := by
    intro l' b
    unfold writes
    dsimp only
    rw [hA.block]
    by_cases hb : b = d
    · rw [if_pos hb]
      dsimp only
      rw [List.filterMap_cons, hphi, List.filterMap_congr (hout l' b)]
      by_cases hl : l = l'
      · simp [hl, hb]
      · simp [hl, Ne.symm hl]
    · rw [if_neg hb, if_neg (not_and_of_not_right _ hb)]
      exact List.filterMap_congr (hout l' b)
  have hkeep : ∀ v < s.f.numVarnodes, IsPhi s.f v → IsPhi f' v := by
    rintro v hv ⟨q, hq, hcode⟩
    obtain ⟨m, hm⟩ := hA.vn v hv
    refine ⟨q, by rw [hm]; exact hq, ?_⟩
    by_cases hqp : q = phi
    · exact hqp ▸ hA.opcode
    · rw [hA.op q hqp, hcode]
  have hops : ∀ b, ∀ o ∈ (f'.block b).ops, o = phi ∨ o ∈ (s.f.block b).ops := fun b o ho => by
    rw [hA.block] at ho
    split_ifs at ho
    · exact List.mem_cons.mp ho
    · exact .inr ho
  refine ⟨⟨fun b o ho => ?_, fun b o ho v hv => ?_⟩, hA.blocks.trans h.numBlocks, fun b => ?_,
    fun l' b hdone => ?_, fun l' b hdone => ?_⟩
  · rw [hA.numOps]
    rcases hops b o ho with rfl | ho
    · exact Nat.lt_succ_of_le hA.eq.le
    · exact Nat.lt_succ_of_lt (h.named.listed b o ho)
  · rcases hops b o ho with rfl | ho
    · exact Option.some.inj (hA.output.symm.trans hv) ▸ hA.lt
    · rw [hA.op o (hne b o ho)] at hv
      exact (h.named.output b o ho v hv).trans (hA.le.trans_lt hA.lt)
  · rw [← h.edges b]
    dsimp only
    rw [hA.block]
    split_ifs <;> rfl
  · rw [hwrites]
    rcases hdone with hdone | ⟨rfl, rfl⟩
    · obtain ⟨v, hv, hphi⟩ := h.phi l' b hdone
      rw [if_neg (by rintro ⟨rfl, rfl⟩; exact hnew hdone)]
      exact ⟨v, hv, hkeep v (lt_of_mem_writes h.named (hv ▸ List.mem_cons_self)) hphi⟩
    · rw [if_pos ⟨rfl, rfl⟩, h.old l' b hnew]
      exact ⟨out, rfl, phi, hA.defOp, hA.opcode⟩
  · rw [not_or] at hdone
    rw [hwrites, if_neg hdone.2, h.old l' b hdone.1]

theorem Grown.foldl_placePhi (h : Grown s₀ p.1 done) (hnd : placed.Nodup) (hlt : ∀ d ∈ placed, d < s₀.f.numBlocks)
    (hnew : ∀ d ∈ placed, ¬done l d) :
    Grown s₀ (placed.foldl (Heritage.placePhi l) p).1 fun l' b => done l' b ∨ l' = l ∧ b ∈ placed := by
  induction placed generalizing p done with
  | nil => simpa using h
  | cons d placed ih =>
    obtain ⟨hd, hnd⟩ := List.nodup_cons.mp hnd
    have h' := ih (h.placePhi (hlt d List.mem_cons_self) (hnew d List.mem_cons_self)) hnd
      (fun q hq => hlt q (List.mem_cons_of_mem d hq)) fun q hq hdone => hdone.elim
        (hnew q (List.mem_cons_of_mem d hq)) fun hdone => hd (hdone.2 ▸ hq)
    rw [List.foldl_cons]
    simpa only [List.mem_cons, and_or_left, or_assoc] using h'

theorem mem_writesAt : l ∈ s.writesAt b ↔ s.writes l b ≠ [] := by
  unfold writesAt writes
  rw [List.mem_filterMap]
  constructor
  · rintro ⟨o, ho, h⟩
    obtain ⟨v, hv, hl⟩ := Option.map_eq_some_iff.mp h
    obtain ⟨hv, ha⟩ := Option.filter_eq_some_iff.mp hv
    exact List.ne_nil_of_mem (List.mem_filterMap.mpr
      ⟨o, ho, Option.filter_eq_some_iff.mpr ⟨hv, by simp [ha, hl]⟩⟩)
  · intro h
    obtain ⟨v, hv⟩ := List.exists_mem_of_ne_nil _ h
    obtain ⟨o, ho, hv⟩ := List.mem_filterMap.mp hv
    obtain ⟨hv, ha⟩ := Option.filter_eq_some_iff.mp hv
    rw [Bool.and_eq_true, decide_eq_true_eq] at ha
    exact ⟨o, ho, Option.map_eq_some_iff.mpr ⟨v, Option.filter_eq_some_iff.mpr ⟨hv, ha.1⟩, ha.2⟩⟩

theorem lt_of_writes (h : s.writes l b ≠ []) : b < s.f.numBlocks := by
  by_contra hb
  refine h ?_
  have hnone : s.f.block b = default := List.getD_eq_default _ _ (not_lt.mp hb)
  unfold writes
  rw [hnone]
  rfl

theorem mem_defBlocks : b ∈ s.defBlocks l ↔ s.writes l b ≠ [] := by
  unfold defBlocks
  rw [List.mem_filter, List.mem_range, decide_eq_true_eq, mem_writesAt]
  exact and_iff_right_of_imp lt_of_writes

theorem mem_locations : l ∈ s.locations ↔ ∃ b, s.writes l b ≠ [] := by
  unfold locations
  rw [List.mem_mergeSort, List.mem_dedup, List.mem_flatMap]
  refine exists_congr fun b => ?_
  rw [List.mem_range, mem_writesAt]
  exact and_iff_right_of_imp lt_of_writes

theorem nodup_locations : s.locations.Nodup :=
  (List.mergeSort_perm _ _).nodup_iff.mpr (List.nodup_dedup _)

/-- The MULTIEQUALs of some locations. -/
theorem placePhis_spec {frontier : List (List BlockId)} {locs : List Loc}
    (hfront : ∀ x < s₀.f.numBlocks, ∃ df, frontier[x]? = some df ∧ ∀ b ∈ df, b < s₀.f.numBlocks)
    (hnd : locs.Nodup) (h : Grown s₀ p.1 done) (hnew : ∀ l ∈ locs, ∀ b, ¬done l b) :
    ∃ r, locs.foldlM (placePhis s₀ frontier) p = some r ∧ Grown s₀ r.1 fun l b =>
      done l b ∨ l ∈ locs ∧ Iterated (Listed frontier) (· ∈ s₀.defBlocks l) b := by
  induction locs generalizing p done with
  | nil => exact ⟨p, rfl, by simpa using h⟩
  | cons l locs ih =>
    obtain ⟨hl, hnd⟩ := List.nodup_cons.mp hnd
    have hdefs : ∀ x ∈ s₀.defBlocks l, x < s₀.f.numBlocks := fun x hx => lt_of_writes (mem_defBlocks.mp hx)
    have hstart : Placing frontier (s₀.defBlocks l) (s₀.defBlocks l).reverse [] :=
      ⟨List.nodup_nil, fun b hb => absurd hb List.not_mem_nil, fun x hx => .inl (List.mem_reverse.mp hx),
        fun x hx => .inl (List.mem_reverse.mpr (hx.resolve_right List.not_mem_nil))⟩
    have hlen : (s₀.defBlocks l).length ≤ s₀.f.numBlocks :=
      (List.length_filter_le ..).trans_eq List.length_range
    have hfuel : (s₀.defBlocks l).reverse.length + (s₀.f.numBlocks - ([] : List BlockId).length) <
        2 * s₀.f.numBlocks + 1 := by
      simp
      omega
    obtain ⟨placed, hplaced, hpnd, hlt, hmem⟩ := placeLoop_spec hfront hdefs hstart
      (fun b hb => absurd hb List.not_mem_nil) hfuel
    obtain ⟨r, hr, hgrown⟩ := ih hnd (h.foldl_placePhi hpnd hlt fun d _ => hnew l List.mem_cons_self d)
      fun l' hl' b hdone => hdone.elim (hnew l' (List.mem_cons_of_mem l hl') b) fun hdone => hl (hdone.1 ▸ hl')
    refine ⟨r, ?_, ?_⟩
    · rw [List.foldlM_cons, placePhis, hplaced]
      exact hr
    · have hsame : (fun l' b => (done l' b ∨ l' = l ∧ b ∈ placed) ∨
          l' ∈ locs ∧ Iterated (Listed frontier) (· ∈ s₀.defBlocks l') b) = fun l' b => done l' b ∨
          l' ∈ l :: locs ∧ Iterated (Listed frontier) (· ∈ s₀.defBlocks l') b := by
        funext l' b
        rw [List.mem_cons, or_and_right, or_assoc]
        by_cases he : l' = l
        · subst he
          rw [hmem]
        · simp [he]
      exact hsame ▸ hgrown

/-- What the dominators list is the frontier, and where each block hangs in their tree. -/
theorem exists_frontiers (hg : s.f.EntryReachable) (hn : s.f.numBlocks ≠ 0)
    (hentry : (s.f.block 0).inEdges = []) :
    ∃ info, s.f.dominators = some info ∧
      (∀ x b, Listed info.frontier x b ↔ Frontier s.f.Edge 0 x b) ∧
      (∀ x < s.f.numBlocks, ∃ df, info.frontier[x]? = some df ∧ ∀ b ∈ df, b < s.f.numBlocks) ∧
      ∀ x, Relation.ReflTransGen s.f.Edge 0 x → x ≠ 0 → ∃ d, ImmDominates s.f.Edge 0 d x := by
  obtain ⟨rpo, rpoNum, idom, hO, hP, hS, heq⟩ := Funcdata.exists_idoms hg hn
  obtain ⟨fr, hfr, hfront⟩ := Funcdata.frontiers_spec hO hP hS
  rw [hfr, Option.map_some] at heq
  have hlt : ∀ x, Relation.ReflTransGen s.f.Edge 0 x → x < s.f.numBlocks := fun x hx => by
    rcases Relation.ReflTransGen.cases_tail hx with rfl | ⟨p, -, he⟩
    · exact Nat.pos_of_ne_zero hn
    · exact (hg.edge_lt he).2
  generalize hfr' : (fr.map fun df => df.insertionSort (· ≤ ·)) = frontier at heq
  have hlisted : ∀ x < s.f.numBlocks, ∃ df, frontier[x]? = some df ∧
      ∀ w, w ∈ df ↔ Frontier s.f.Edge 0 x w := by
    intro x hx
    obtain ⟨df, hdf, hsort, hmem⟩ := hfront.holds x hx
    refine ⟨df, ?_, fun w => (hmem w).trans (Funcdata.walked_iff hO hP hS hentry)⟩
    rw [← hfr', List.getElem?_map, hdf, Option.map_some, List.Pairwise.insertionSort_eq]
    exact hsort.imp le_of_lt
  have hiff : ∀ x b, Listed frontier x b ↔ Frontier s.f.Edge 0 x b := by
    intro x b
    constructor
    · rintro ⟨df, hdf, hb⟩
      have hx : x < s.f.numBlocks := by
        have := (List.getElem?_eq_some_iff.mp hdf).1
        rwa [← hfr', List.length_map, hfront.length] at this
      obtain ⟨df', hdf', hmem⟩ := hlisted x hx
      exact (hmem b).mp (Option.some.inj (hdf.symm.trans hdf') ▸ hb)
    · rintro ⟨⟨p, he, hd⟩, hn⟩
      obtain ⟨m, hm⟩ := exists_path (hg.reached p (hg.edge_lt he).1)
      obtain ⟨m', hm', -⟩ := hm.upTo (hd m hm)
      obtain ⟨df, hdf, hmem⟩ := hlisted x (hlt x hm'.reaches)
      exact ⟨df, hdf, (hmem b).mpr ⟨⟨p, he, hd⟩, hn⟩⟩
  refine ⟨_, heq, hiff, fun x hx => ?_, fun x hx hx0 => ?_⟩
  · obtain ⟨df, hdf, hmem⟩ := hlisted x hx
    refine ⟨df, hdf, fun b hb => ?_⟩
    obtain ⟨⟨p, he, -⟩, -⟩ := (hmem b).mp hb
    exact (hg.edge_lt he).2
  · obtain ⟨d, hd⟩ := Option.isSome_iff_exists.mp (hS.all x (hlt x hx))
    exact ⟨d, hS.immDominates hO.numbered hP.sweep (hlt x hx) hx0 hd⟩

/-- The placement ends. The iterated frontier of the blocks that write a location begin with one
MULTIEQUAL more, and what is behind them on the stack of the dominator tree has the last write on every
way through the graph on top, and below it, if that is no MULTIEQUAL, the one before. -/
theorem placeAllPhis_agree (s : Heritage) (hg : s.f.EntryReachable) (hn : s.f.numBlocks ≠ 0)
    (hentry : (s.f.block 0).inEdges = []) (hN : Named s.f) :
    ∃ info s' phis, s.f.dominators = some info ∧ s.placeAllPhis info = some (s', phis) ∧
      (∀ a b, s'.f.Edge a b ↔ s.f.Edge a b) ∧
      (∀ l b, (Iterated (Frontier s.f.Edge 0) (fun x => s.writes l x ≠ []) b →
          ∃ v, s'.writes l b = v :: s.writes l b ∧ IsPhi s'.f v) ∧
        (¬Iterated (Frontier s.f.Edge 0) (fun x => s.writes l x ≠ []) b →
          s'.writes l b = s.writes l b)) ∧
      ∀ l b e h ws, EntryStack s'.f.Edge 0 (s'.writes l) b e → Arrives s'.f.Edge 0 (s'.writes l) b h →
        ws <+: s'.writes l b → (StartsPhi (IsPhi s'.f) (s'.writes l b) → ws ≠ []) →
        Agree (IsPhi s'.f) (ws.reverse ++ e) (ws.reverse ++ h) := by
  obtain ⟨info, hinfo, hiff, hbound, hidom⟩ := exists_frontiers hg hn hentry
  obtain ⟨⟨s', phis⟩, hs', hgrown⟩ := @placePhis_spec s (s, []) (fun _ _ => False) _ _
    hbound nodup_locations ⟨hN, rfl, fun _ => rfl, fun _ _ h => h.elim, fun _ _ _ => rfl⟩ fun _ _ _ => id
  have hdone : ∀ l b, (False ∨ l ∈ s.locations ∧ Iterated (Listed info.frontier) (· ∈ s.defBlocks l) b) ↔
      Iterated (Frontier s.f.Edge 0) (fun x => s.writes l x ≠ []) b := by
    intro l b
    rw [false_or]
    constructor
    · exact fun h => h.2.imp (fun x b => (hiff x b).mp) fun x => mem_defBlocks.mp
    · refine fun h => ⟨mem_locations.mpr ?_, h.imp (fun x b => (hiff x b).mpr) fun x => mem_defBlocks.mpr⟩
      induction h with
      | base hx _ => exact ⟨_, hx⟩
      | step _ _ ih => exact ih
  have hphi : ∀ l b, Iterated (Frontier s.f.Edge 0) (fun x => s.writes l x ≠ []) b →
      ∃ v, s'.writes l b = v :: s.writes l b ∧ IsPhi s'.f v := fun l b h =>
    hgrown.phi l b ((hdone l b).mpr h)
  have hold : ∀ l b, ¬Iterated (Frontier s.f.Edge 0) (fun x => s.writes l x ≠ []) b →
      s'.writes l b = s.writes l b := fun l b h => hgrown.old l b fun hd => h ((hdone l b).mp hd)
  have hE : s'.f.Edge = s.f.Edge := by
    funext a b
    exact congrArg (b ∈ ·) (hgrown.edges a)
  refine ⟨info, s', phis, hinfo, hs', fun a b => by rw [hE], fun l b => ⟨hphi l b, hold l b⟩, ?_⟩
  rw [hE]
  intro l b e h ws he hh hws hlead
  have hroot : ∀ p, ¬s.f.Edge p 0 := fun p hp =>
    absurd (hentry ▸ (hg.edges p 0).mp hp) List.not_mem_nil
  refine Arrives.agree hidom (Placed.of_iterated (W := fun x => s.writes l x ≠ []) (fun x hx => ?_)
    fun x hx => ?_) hroot hh he hws hlead
  · obtain ⟨v, hv, hp⟩ := hphi l x hx
    exact ⟨v, _, hv, hp⟩
  · by_cases hi : Iterated (Frontier s.f.Edge 0) (fun x => s.writes l x ≠ []) x
    · exact .inr hi
    · exact .inl (hold l x hi ▸ hx)

/-- A variable that is set in the loop of `loopGraph`. -/
def looping : Heritage where
  f := { Funcdata.loopGraph with
    vn := fun _ => { loc := default, size := 4, nzm := 0, defOp := some 0 }
    numVarnodes := 1
    op := fun _ => { opcode := .copy, output := some 0 }
    numOps := 1
    blocks :=
      [{ outEdges := [1] }, { inEdges := [0, 2], outEdges := [2] },
       { ops := [0], inEdges := [1], outEdges := [1, 3] }, { inEdges := [2] }] }
  active _ := true

theorem looping_edges (b : BlockId) :
    (looping.f.block b).outEdges = (Funcdata.loopGraph.block b).outEdges ∧
      (looping.f.block b).inEdges = (Funcdata.loopGraph.block b).inEdges ∧
      (looping.f.block b).ops ⊆ [0] := by
  rcases b with _ | _ | _ | _ | b <;> refine ⟨rfl, rfl, ?_⟩
  all_goals first | exact List.nil_subset _ | exact List.Subset.refl _

theorem looping_reachable : looping.f.EntryReachable where
  edges a b := by
    rw [(looping_edges a).1, (looping_edges b).2.1]
    exact Funcdata.loopGraph_reachable.edges a b
  reached b hb := (Funcdata.loopGraph_reachable.reached b hb).lift id fun x y h => by
    change y ∈ (looping.f.block x).outEdges
    rwa [(looping_edges x).1]

theorem placeAllPhis_agree_looping : ∃ info s' phis,
    looping.f.dominators = some info ∧ looping.placeAllPhis info = some (s', phis) ∧
      (∀ a b, s'.f.Edge a b ↔ looping.f.Edge a b) ∧
      (∀ l b, (Iterated (Frontier looping.f.Edge 0) (fun x => looping.writes l x ≠ []) b →
          ∃ v, s'.writes l b = v :: looping.writes l b ∧ IsPhi s'.f v) ∧
        (¬Iterated (Frontier looping.f.Edge 0) (fun x => looping.writes l x ≠ []) b →
          s'.writes l b = looping.writes l b)) ∧
      ∀ l b e h ws, EntryStack s'.f.Edge 0 (s'.writes l) b e → Arrives s'.f.Edge 0 (s'.writes l) b h →
        ws <+: s'.writes l b → (StartsPhi (IsPhi s'.f) (s'.writes l b) → ws ≠ []) →
        Agree (IsPhi s'.f) (ws.reverse ++ e) (ws.reverse ++ h) := by
  refine placeAllPhis_agree looping looping_reachable (by decide) rfl ⟨fun b o ho => ?_, ?_⟩
  · rw [List.mem_singleton.mp ((looping_edges b).2.2 ho)]
    decide
  · exact fun _ _ _ v hv => Option.some.inj hv ▸ by decide

end Heritage

end Mosura
