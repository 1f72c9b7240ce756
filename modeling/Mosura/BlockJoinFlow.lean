import Mosura.BlockJoin
import Mosura.FlowEdges

/-! The edges that `node_join_create_block` leaves. -/

namespace Mosura

/-- The entry `hi` of a list is dropped, the entry `lo` before it becomes `x`. -/
def foldSlot {α : Type*} (lo hi : ℕ) (x : α) (l : List α) : List α := (l.eraseIdx hi).set lo x

theorem idxOf?_of_mem {α : Type*} [DecidableEq α] {l : List α} {a : α} (h : a ∈ l) :
    l.idxOf? a = some (l.idxOf a) := by
  obtain ⟨i, hi⟩ : ∃ i, l.idxOf? a = some i := by
    rw [← Option.isSome_iff_exists, Option.isSome_iff_ne_none, Ne, List.idxOf?_eq_none_iff]
    exact not_not.mpr h
  rw [hi, List.idxOf_eq_getD_idxOf?, hi]
  rfl

theorem idxOf_of_idxOf? {α : Type*} [DecidableEq α] {l : List α} {a : α} {i : ℕ}
    (h : l.idxOf? a = some i) : l.idxOf a = i := by
  rw [List.idxOf_eq_getD_idxOf?, h]
  rfl

theorem mem_of_idxOf?_eq {α : Type*} [DecidableEq α] {l : List α} {a : α} {i : ℕ}
    (h : l.idxOf? a = some i) : a ∈ l ∧ l[i]? = some a := by
  obtain ⟨hi, ha, -⟩ := List.idxOf?_eq_some_iff.mp h
  have hget : l[i]? = some a := by rw [List.getElem?_eq_getElem hi, ha]
  exact ⟨List.mem_of_getElem? hget, hget⟩

theorem ne_of_idxOf?_ne {α : Type*} [DecidableEq α] {l : List α} {a b : α} {i j : ℕ} (hab : a ≠ b)
    (hi : l.idxOf? a = some i) (hj : l.idxOf? b = some j) : i ≠ j := fun he => hab <| by
  have hget := (mem_of_idxOf?_eq hi).2
  rw [he, (mem_of_idxOf?_eq hj).2] at hget
  exact (Option.some.inj hget).symm

/-- Dropping an entry behind the first `a` leaves the first `a` in its place. -/
theorem idxOf_eraseIdx_of_lt {α : Type*} [DecidableEq α] {l : List α} {a : α} {i : ℕ}
    (ha : a ∈ l) (h : l.idxOf a < i) : a ∈ l.eraseIdx i ∧ (l.eraseIdx i).idxOf a = l.idxOf a := by
  induction l generalizing i with
  | nil => exact absurd ha List.not_mem_nil
  | cons b l ih =>
    match i with
    | 0 => exact absurd h (Nat.not_lt_zero _)
    | i + 1 =>
      rw [List.eraseIdx_cons_succ]
      by_cases hb : b = a
      · subst hb
        exact ⟨List.mem_cons_self, by rw [List.idxOf_cons_self, List.idxOf_cons_self]⟩
      · have hmem : a ∈ l := (List.mem_cons.mp ha).resolve_left fun he => hb he.symm
        rw [List.idxOf_cons_ne _ hb] at h
        obtain ⟨hin, hidx⟩ := ih hmem (i := i) (by omega)
        refine ⟨List.mem_cons_of_mem _ hin, ?_⟩
        rw [List.idxOf_cons_ne _ hb, List.idxOf_cons_ne _ hb, hidx]

theorem insertIdx_append_left {α : Type*} {l m : List α} {x : α} {i : ℕ} (h : i ≤ l.length) :
    (l ++ m).insertIdx i x = l.insertIdx i x ++ m := by
  induction l generalizing i with
  | nil =>
    obtain rfl : i = 0 := Nat.le_zero.mp h
    rfl
  | cons a l ih =>
    match i with
    | 0 => rfl
    | i + 1 => exact congrArg (a :: ·) (ih (Nat.le_of_succ_le_succ h))

/-- Where the second list starts with an end, the items up to the first end are in the first. -/
theorem length_takeWhile_append_le {α : Type*} {p : α → Bool} {l m : List α}
    (h : ∀ x ∈ m.head?, p x = false) : ((l ++ m).takeWhile p).length ≤ l.length := by
  have hm : m.takeWhile p = [] := by
    cases m with
    | nil => rfl
    | cons x m => rw [List.takeWhile_cons, h x rfl, if_neg Bool.false_ne_true]
  rw [List.takeWhile_append, hm, List.append_nil]
  split_ifs
  · exact le_rfl
  · exact (List.takeWhile_sublist p).length_le

namespace Funcdata

variable {f f' : Funcdata} {a b c v : BlockId}

/-- The edge lists of `f` are `outs` and `ins`. -/
structure FlowLists (f : Funcdata) (outs ins : BlockId → List BlockId) : Prop where
  outEdges : ∀ v, (f.block v).outEdges = outs v
  inEdges : ∀ v, (f.block v).inEdges = ins v

variable {outs ins : BlockId → List BlockId}

theorem FlowLists.removeEdge (h : f.FlowLists outs ins) (ha : a < f.numBlocks)
    (hb : b < f.numBlocks) (ho : b ∈ outs a) (hi : a ∈ ins b) :
    ∃ f', f.removeEdge a b = some f' ∧ f'.numBlocks = f.numBlocks ∧
      f'.FlowLists (Function.update outs a ((outs a).erase b))
        (Function.update ins b ((ins b).eraseIdx ((ins b).idxOf a))) := by
  unfold Funcdata.removeEdge
  rw [h.outEdges, h.inEdges, idxOf?_of_mem ho, idxOf?_of_mem hi]
  have hb' : ∀ g, b < (f.modBlock a g).numBlocks := fun g => (numBlocks_modBlock f a g).symm ▸ hb
  refine ⟨_, rfl, by rw [numBlocks_modBlock, numBlocks_modBlock], fun v => ?_, fun v => ?_⟩
  · rw [block_modBlock (hb' _), block_modBlock ha, block_modBlock ha, Function.update_apply,
      List.erase_eq_eraseIdx, idxOf?_of_mem ho]
    split_ifs <;> simp_all [h.outEdges]
  · rw [block_modBlock (hb' _), block_modBlock ha, block_modBlock ha, Function.update_apply]
    split_ifs <;> simp_all [h.inEdges]

theorem FlowLists.moveExit (h : f.FlowLists outs ins) (ha : a < f.numBlocks) (hb : b < f.numBlocks)
    (hc : c < f.numBlocks) (hac : a ≠ c) (ho : b ∈ outs a) (hi : a ∈ ins b) :
    ∃ f', f.moveExit a b c = some f' ∧ f'.numBlocks = f.numBlocks ∧
      f'.FlowLists (Function.update (Function.update outs a ((outs a).erase b)) c (outs c ++ [b]))
        (Function.update ins b ((ins b).set ((ins b).idxOf a) c)) := by
  have hget : (outs a)[(outs a).idxOf b]? = some b := (mem_of_idxOf?_eq (idxOf?_of_mem ho)).2
  unfold Funcdata.moveExit Funcdata.moveOutEdge
  simp only [h.outEdges, h.inEdges, idxOf?_of_mem ho, idxOf?_of_mem hi, Option.bind_eq_bind,
    Option.bind_some, hget, if_neg (not_le.mpr hc)]
  have hb' : ∀ g, b < (f.modBlock a g).numBlocks := fun g => (numBlocks_modBlock f a g).symm ▸ hb
  have hc' : ∀ g g', c < ((f.modBlock a g).modBlock b g').numBlocks := fun g g' => by
    rw [numBlocks_modBlock, numBlocks_modBlock]
    exact hc
  refine ⟨_, rfl, by simp only [numBlocks_modBlock], fun v => ?_, fun v => ?_⟩
  · rw [block_modBlock (hc' _ _), block_modBlock (hb' _), block_modBlock (hb' _),
      block_modBlock ha, block_modBlock ha, block_modBlock ha, Function.update_apply,
      Function.update_apply, List.erase_eq_eraseIdx, idxOf?_of_mem ho]
    split_ifs <;> simp_all [h.outEdges]
  · rw [block_modBlock (hc' _ _), block_modBlock (hb' _), block_modBlock (hb' _),
      block_modBlock ha, block_modBlock ha, block_modBlock ha, Function.update_apply]
    split_ifs <;> simp_all [h.inEdges]

theorem FlowLists.addEdge (h : f.FlowLists outs ins) (ha : a < f.numBlocks)
    (hb : b < f.numBlocks) : (f.addEdge a b).FlowLists
      (Function.update outs a (outs a ++ [b])) (Function.update ins b (ins b ++ [a])) := by
  unfold Funcdata.addEdge
  have hb' : ∀ g, b < (f.modBlock a g).numBlocks := fun g => (numBlocks_modBlock f a g).symm ▸ hb
  refine ⟨fun v => ?_, fun v => ?_⟩
  · rw [block_modBlock (hb' _), block_modBlock ha, block_modBlock ha, Function.update_apply]
    split_ifs <;> simp_all [h.outEdges]
  · rw [block_modBlock (hb' _), block_modBlock ha, block_modBlock ha, Function.update_apply]
    split_ifs <;> simp_all [h.inEdges]

theorem numBlocks_addEdge (f : Funcdata) (a b : BlockId) :
    (f.addEdge a b).numBlocks = f.numBlocks := by
  unfold Funcdata.addEdge
  rw [numBlocks_modBlock, numBlocks_modBlock]

theorem block_numBlocks (f : Funcdata) : f.block f.numBlocks = default :=
  List.getD_eq_default _ _ le_rfl

/-- Nothing but the edges and the number of blocks has changed. -/
structure EdgesOnly (f f' : Funcdata) : Prop where
  op : f'.op = f.op
  numOps : f'.numOps = f.numOps
  vn : f'.vn = f.vn
  numVarnodes : f'.numVarnodes = f.numVarnodes
  ops : ∀ b, (f'.block b).ops = (f.block b).ops

namespace EdgesOnly

theorem trans {f'' : Funcdata} (h : EdgesOnly f f') (h' : EdgesOnly f' f'') : EdgesOnly f f'' :=
  ⟨h'.op.trans h.op, h'.numOps.trans h.numOps, h'.vn.trans h.vn,
    h'.numVarnodes.trans h.numVarnodes, fun b => (h'.ops b).trans (h.ops b)⟩

theorem newBlockBasic (f : Funcdata) : EdgesOnly f f.newBlockBasic.1 :=
  ⟨rfl, rfl, rfl, rfl, fun v => by rw [block_newBlockBasic]⟩

theorem modBlock (f : Funcdata) (b : BlockId) {g : BlockBasic → BlockBasic}
    (hg : ∀ x, (g x).ops = x.ops) : EdgesOnly f (f.modBlock b g) :=
  ⟨rfl, rfl, rfl, rfl, (SameOps.modBlock f b hg).ops⟩

theorem removeEdge (hf : f.removeEdge a b = some f') : EdgesOnly f f' := by
  unfold Funcdata.removeEdge at hf
  obtain ⟨o, -, hf⟩ := Option.bind_eq_some_iff.mp hf
  obtain ⟨i, -, hf⟩ := Option.bind_eq_some_iff.mp hf
  rw [← Option.some.inj hf]
  exact (modBlock f a fun _ => by rfl).trans (modBlock _ b fun _ => by rfl)

theorem moveExit (hf : f.moveExit a b c = some f') : EdgesOnly f f' := by
  unfold Funcdata.moveExit Funcdata.moveOutEdge at hf
  obtain ⟨s, -, hf⟩ := Option.bind_eq_some_iff.mp hf
  obtain ⟨outbl, -, hf⟩ := Option.bind_eq_some_iff.mp hf
  obtain ⟨k, -, hf⟩ := Option.bind_eq_some_iff.mp hf
  split_ifs at hf
  rw [← Option.some.inj hf]
  exact ((modBlock f a fun _ => by rfl).trans (modBlock _ _ fun _ => by rfl)).trans
    (modBlock _ c fun _ => by rfl)

theorem addEdge (f : Funcdata) (a b : BlockId) : EdgesOnly f (f.addEdge a b) :=
  (modBlock f a fun _ => by rfl).trans (modBlock _ b fun _ => by rfl)

end EdgesOnly

/-- The edge lists after a join: both sides lead to the new block, the new block to the exits, and
each exit has one edge instead of two. -/
structure JoinedFlow (f f' : Funcdata) (block1 block2 exita exitb : BlockId) (aLo aHi bLo bHi : ℕ) :
    Prop where
  numBlocks : f'.numBlocks = f.numBlocks + 1
  edges : EdgesOnly f f'
  out1 : (f'.block block1).outEdges = [f.numBlocks]
  out2 : (f'.block block2).outEdges = [f.numBlocks]
  outs : (f'.block f.numBlocks).outEdges = [exita, exitb]
  ins : (f'.block f.numBlocks).inEdges = [block1, block2]
  insA : (f'.block exita).inEdges = foldSlot aLo aHi f.numBlocks (f.block exita).inEdges
  insB : (f'.block exitb).inEdges = foldSlot bLo bHi f.numBlocks (f.block exitb).inEdges
  outElse : ∀ v, v ≠ f.numBlocks → v ≠ block1 → v ≠ block2 →
    (f'.block v).outEdges = (f.block v).outEdges
  inElse : ∀ v, v ≠ f.numBlocks → v ≠ exita → v ≠ exitb →
    (f'.block v).inEdges = (f.block v).inEdges

section Join

variable {block1 block2 exita exitb : BlockId}

/-- `node_join_create_block` with `x` and `z` the sides whose edges are removed, `y` and `w` the
others. -/
theorem exists_joinedFlow {x y z w : BlockId} (hxy : x = block1 ∧ y = block2 ∨ x = block2 ∧ y = block1)
    (hzw : z = block1 ∧ w = block2 ∨ z = block2 ∧ w = block1) (hne : block1 ≠ block2)
    (hexit : exita ≠ exitb) (h1 : (f.block block1).outEdges = [exita, exitb])
    (h2 : (f.block block2).outEdges = [exita, exitb]) (hx : x ∈ (f.block exita).inEdges)
    (hy : y ∈ (f.block exita).inEdges) (hz : z ∈ (f.block exitb).inEdges)
    (hw : w ∈ (f.block exitb).inEdges)
    (ha : (f.block exita).inEdges.idxOf y < (f.block exita).inEdges.idxOf x)
    (hb : (f.block exitb).inEdges.idxOf w < (f.block exitb).inEdges.idxOf z) :
    ∃ f₁ f₂ f₃ f₄, f.newBlockBasic.1.removeEdge x exita = some f₁ ∧
      f₁.removeEdge z exitb = some f₂ ∧ f₂.moveExit y exita f.numBlocks = some f₃ ∧
      f₃.moveExit w exitb f.numBlocks = some f₄ ∧
      JoinedFlow f ((f₄.addEdge block1 f.numBlocks).addEdge block2 f.numBlocks) block1 block2 exita
        exitb ((f.block exita).inEdges.idxOf y) ((f.block exita).inEdges.idxOf x)
        ((f.block exitb).inEdges.idxOf w) ((f.block exitb).inEdges.idxOf z) := by
  have lt1 : block1 < f.numBlocks := lt_of_mem_outEdges (a := exita) (by simp [h1])
  have lt2 : block2 < f.numBlocks := lt_of_mem_outEdges (a := exita) (by simp [h2])
  have ltA := lt_of_mem_inEdges hx
  have ltB := lt_of_mem_inEdges hz
  have side {u v : BlockId} (h : u = block1 ∧ v = block2 ∨ u = block2 ∧ v = block1) :
      u < f.numBlocks ∧ v < f.numBlocks ∧ u ≠ v ∧ (f.block u).outEdges = [exita, exitb] ∧
        (f.block v).outEdges = [exita, exitb] := by
    rcases h with ⟨rfl, rfl⟩ | ⟨rfl, rfl⟩
    · exact ⟨lt1, lt2, hne, h1, h2⟩
    · exact ⟨lt2, lt1, hne.symm, h2, h1⟩
  obtain ⟨ltx, lty, hnexy, houtx, houty⟩ := side hxy
  obtain ⟨ltz, ltw, hnezw, houtz, houtw⟩ := side hzw
  have ltJ : f.numBlocks < f.newBlockBasic.1.numBlocks := by
    rw [numBlocks_newBlockBasic]
    exact Nat.lt_succ_self _
  have h₀ : f.newBlockBasic.1.FlowLists (fun v => (f.block v).outEdges)
      fun v => (f.block v).inEdges :=
    ⟨fun v => by rw [block_newBlockBasic], fun v => by rw [block_newBlockBasic]⟩
  have hyx := idxOf_eraseIdx_of_lt hy ha
  have hwz := idxOf_eraseIdx_of_lt hw hb
  have hcase : z = x ∧ w = y ∨ z = y ∧ w = x := by
    rcases hxy with ⟨rfl, rfl⟩ | ⟨rfl, rfl⟩ <;> rcases hzw with ⟨rfl, rfl⟩ | ⟨rfl, rfl⟩ <;> simp
  have eraseA : [exita, exitb].erase exita = [exitb] := by simp
  have eraseB : [exita, exitb].erase exitb = [exita] := by simp [hexit]
  obtain ⟨f₁, hf₁, hn₁, h₁⟩ := h₀.removeEdge (ltx.trans ltJ) (ltA.trans ltJ) (by simp [houtx]) hx
  rw [← hn₁] at ltJ
  obtain ⟨f₂, hf₂, hn₂, h₂⟩ := h₁.removeEdge (ltz.trans ltJ) (ltB.trans ltJ)
    (show exitb ∈ _ by
      rcases hcase with ⟨rfl, rfl⟩ | ⟨rfl, rfl⟩ <;> simp [houtx, houty, hnexy.symm, eraseA])
    (by simpa [Function.update_apply, hexit.symm] using hz)
  rw [← hn₂] at ltJ
  obtain ⟨f₃, hf₃, hn₃, h₃⟩ := h₂.moveExit (lty.trans ltJ) (ltA.trans ltJ) ltJ lty.ne
    (show exita ∈ _ by
      rcases hcase with ⟨rfl, rfl⟩ | ⟨rfl, rfl⟩ <;> simp [hnexy.symm, houty, eraseB])
    (by simpa [Function.update_apply, hexit] using hyx.1)
  rw [← hn₃] at ltJ
  obtain ⟨f₄, hf₄, hn₄, h₄⟩ := h₃.moveExit (ltw.trans ltJ) (ltB.trans ltJ) ltJ ltw.ne
    (show exitb ∈ _ by
      rcases hcase with ⟨rfl, rfl⟩ | ⟨rfl, rfl⟩ <;>
        simp [hnexy, hnexy.symm, houtx, houty, eraseA, ltx.ne, lty.ne])
    (by simpa [Function.update_apply, hexit.symm] using hwz.1)
  rw [← hn₄] at ltJ
  have houtJ : (f.block f.numBlocks).outEdges = [] := by
    rw [block_numBlocks]
    rfl
  have hinJ : (f.block f.numBlocks).inEdges = [] := by
    rw [block_numBlocks]
    rfl
  have hx₄ : (f₄.block x).outEdges = [] := by
    rw [h₄.outEdges]
    rcases hcase with ⟨rfl, rfl⟩ | ⟨rfl, rfl⟩ <;>
      simp [hnexy, hnexy.symm, houtx, eraseA, ltx.ne, lty.ne]
  have hy₄ : (f₄.block y).outEdges = [] := by
    rw [h₄.outEdges]
    rcases hcase with ⟨rfl, rfl⟩ | ⟨rfl, rfl⟩ <;>
      simp [hnexy, hnexy.symm, houty, eraseA, eraseB, ltx.ne, lty.ne]
  have hsides : (f₄.block block1).outEdges = [] ∧ (f₄.block block2).outEdges = [] := by
    rcases hxy with ⟨rfl, rfl⟩ | ⟨rfl, rfl⟩
    · exact ⟨hx₄, hy₄⟩
    · exact ⟨hy₄, hx₄⟩
  have hJ₄ : (f₄.block f.numBlocks).outEdges = [exita, exitb] := by
    rw [h₄.outEdges]
    simp [ltx.ne', ltz.ne', houtJ]
  -- the edges to the new block come last
  have hall : f₄.FlowLists (fun v => (f₄.block v).outEdges) fun v => (f₄.block v).inEdges :=
    ⟨fun _ => rfl, fun _ => rfl⟩
  have h₆ := (hall.addEdge (lt1.trans ltJ) ltJ).addEdge (a := block2) (b := f.numBlocks)
    ((lt2.trans ltJ).trans_eq (numBlocks_addEdge ..).symm) (ltJ.trans_eq (numBlocks_addEdge ..).symm)
  have hsame := ((((EdgesOnly.newBlockBasic f).trans (.removeEdge hf₁)).trans
    (.removeEdge hf₂)).trans (.moveExit hf₃)).trans (.moveExit hf₄)
  have hsideElse {u v v' : BlockId} (hu : u = block1 ∧ v = block2 ∨ u = block2 ∧ v = block1)
      (h1 : v' ≠ block1) (h2 : v' ≠ block2) : v' ≠ u ∧ v' ≠ v := by
    rcases hu with ⟨rfl, rfl⟩ | ⟨rfl, rfl⟩
    · exact ⟨h1, h2⟩
    · exact ⟨h2, h1⟩
  refine ⟨f₁, f₂, f₃, f₄, hf₁, hf₂, hf₃, hf₄, ?_, ?_, ?_, ?_, ?_, ?_, ?_, ?_, fun v hJ hv1 hv2 => ?_,
    fun v hJ hva hvb => ?_⟩
  · rw [numBlocks_addEdge, numBlocks_addEdge, hn₄, hn₃, hn₂, hn₁, numBlocks_newBlockBasic]
  · exact (hsame.trans (.addEdge ..)).trans (.addEdge ..)
  · rw [h₆.outEdges]
    simp [hne, hsides.1]
  · rw [h₆.outEdges]
    simp [hne.symm, hsides.2]
  · rw [h₆.outEdges]
    simp [lt1.ne', lt2.ne', hJ₄]
  · rw [h₆.inEdges]
    simp only [Function.update_self]
    rw [h₄.inEdges]
    simp [ltA.ne', ltB.ne', hinJ]
  · rw [h₆.inEdges]
    simp only [Function.update_of_ne ltA.ne]
    rw [h₄.inEdges]
    simp only [Function.update_self, Function.update_of_ne hexit, hyx.2]
    rfl
  · rw [h₆.inEdges]
    simp only [Function.update_of_ne ltB.ne]
    rw [h₄.inEdges]
    simp only [Function.update_self, Function.update_of_ne hexit.symm, hwz.2]
    rfl
  · obtain ⟨hvx, hvy⟩ := hsideElse hxy hv1 hv2
    obtain ⟨hvz, hvw⟩ := hsideElse hzw hv1 hv2
    rw [h₆.outEdges, Function.update_of_ne hv2, Function.update_of_ne hv1, h₄.outEdges,
      Function.update_of_ne hJ, Function.update_of_ne hvw, Function.update_of_ne hJ,
      Function.update_of_ne hvy, Function.update_of_ne hvz, Function.update_of_ne hvx]
  · rw [h₆.inEdges, Function.update_of_ne hJ, Function.update_of_ne hJ, h₄.inEdges,
      Function.update_of_ne hvb, Function.update_of_ne hva, Function.update_of_ne hvb,
      Function.update_of_ne hva]

/-- `node_join_create_block`, for the positions of the two sides in the in-edges of the exits. -/
theorem exists_nodeJoinCreateBlock {aIn1 aIn2 bIn1 bIn2 : ℕ} (hne : block1 ≠ block2)
    (hexit : exita ≠ exitb) (h1 : (f.block block1).outEdges = [exita, exitb])
    (h2 : (f.block block2).outEdges = [exita, exitb])
    (ha1 : (f.block exita).inEdges.idxOf? block1 = some aIn1)
    (ha2 : (f.block exita).inEdges.idxOf? block2 = some aIn2)
    (hb1 : (f.block exitb).inEdges.idxOf? block1 = some bIn1)
    (hb2 : (f.block exitb).inEdges.idxOf? block2 = some bIn2) :
    ∃ f', f.nodeJoinCreateBlock block1 block2 exita exitb (aIn1 > aIn2) (bIn1 > bIn2) =
        some (f', f.numBlocks) ∧
      JoinedFlow f f' block1 block2 exita exitb (min aIn1 aIn2) (max aIn1 aIn2) (min bIn1 bIn2)
        (max bIn1 bIn2) := by
  -- the side with the higher position, and the other one
  have sides {l : List BlockId} {i j : ℕ} (hi : l.idxOf? block1 = some i)
      (hj : l.idxOf? block2 = some j) : ∃ x y, (x = block1 ∧ y = block2 ∨ x = block2 ∧ y = block1) ∧
        x ∈ l ∧ y ∈ l ∧ l.idxOf y = min i j ∧ l.idxOf x = max i j ∧ min i j < max i j ∧
        (if decide (i > j) = true then block1 else block2) = x ∧
        (if decide (i > j) = true then block2 else block1) = y := by
    rcases lt_or_gt_of_ne (ne_of_idxOf?_ne hne hi hj) with h | h
    · refine ⟨block2, block1, .inr ⟨rfl, rfl⟩, (mem_of_idxOf?_eq hj).1, (mem_of_idxOf?_eq hi).1,
        ?_, ?_, ?_, ?_, ?_⟩
      · rw [idxOf_of_idxOf? hi, min_eq_left h.le]
      · rw [idxOf_of_idxOf? hj, max_eq_right h.le]
      · omega
      · rw [if_neg (by simpa using h.le)]
      · rw [if_neg (by simpa using h.le)]
    · refine ⟨block1, block2, .inl ⟨rfl, rfl⟩, (mem_of_idxOf?_eq hi).1, (mem_of_idxOf?_eq hj).1,
        ?_, ?_, ?_, ?_, ?_⟩
      · rw [idxOf_of_idxOf? hj, min_eq_right h.le]
      · rw [idxOf_of_idxOf? hi, max_eq_left h.le]
      · omega
      · rw [if_pos (by simpa using h)]
      · rw [if_pos (by simpa using h)]
  obtain ⟨x, y, hxy, hx, hy, hly, hlx, hlt, hifx, hify⟩ := sides ha1 ha2
  obtain ⟨z, w, hzw, hz, hw, hlw, hlz, hlt', hifz, hifw⟩ := sides hb1 hb2
  obtain ⟨f₁, f₂, f₃, f₄, hf₁, hf₂, hf₃, hf₄, hjoin⟩ :=
    exists_joinedFlow hxy hzw hne hexit h1 h2 hx hy hz hw (by omega) (by omega)
  rw [hly, hlx, hlw, hlz] at hjoin
  refine ⟨_, ?_, hjoin⟩
  unfold nodeJoinCreateBlock
  simp only [hifx, hify, hifz, hifw]
  change (f.newBlockBasic.1.removeEdge x exita).bind _ = _
  rw [hf₁, Option.bind_some]
  change (f₁.removeEdge z exitb).bind _ = _
  rw [hf₂, Option.bind_some]
  change (f₂.moveExit y exita f.numBlocks).bind _ = _
  rw [hf₃, Option.bind_some]
  change (f₃.moveExit w exitb f.numBlocks).bind _ = _
  rw [hf₄, Option.bind_some]
  rfl

end Join

end Funcdata
end Mosura
