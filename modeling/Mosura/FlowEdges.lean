import Mosura.FlowEdit
import Mosura.Lib.Wiring

/-! The flow edges behind the edge lists of the blocks: which one an entry of a list is, and which
one each input of a MULTIEQUAL is for. -/

namespace Mosura

abbrev EdgeId := EdgeName BlockId

/-- The flow edges of a graph. `slots b` are the edges the MULTIEQUALs of `b` have an input for: the
in-edges of `b`, and those that were removed without the input. -/
structure FlowEdges extends Wiring BlockId EdgeId where
  slots : BlockId → List EdgeId
  next : ℕ

namespace FlowEdges

variable (E : FlowEdges)

/-- The edge is removed; the MULTIEQUALs keep its input. -/
def cut (e : EdgeId) : FlowEdges := { E with toWiring := E.toWiring.drop e }

/-- The MULTIEQUALs lose the input of the edge. -/
def unslot (e : EdgeId) : FlowEdges := { E with slots := fun v => (E.slots v).erase e }

def moveTail (e : EdgeId) (b : BlockId) : FlowEdges :=
  { E with toWiring := E.toWiring.moveTail e b }

def splice (e e' : EdgeId) : FlowEdges := { E with toWiring := E.toWiring.splice e e' }

/-- The edge leads to the new block `b`. -/
def takeOver (e : EdgeId) (b : BlockId) : FlowEdges :=
  { E with
    toWiring := E.toWiring.moveHead e b
    slots := fun v => (E.slots v).erase e ++ if v = b then [e] else [] }

/-- A new edge from `a` to `b`. -/
def add (a b : BlockId) : FlowEdges where
  toWiring := E.toWiring.add ⟨a, b, E.next⟩ a b
  slots v := E.slots v ++ if v = b then [⟨a, b, E.next⟩] else []
  next := E.next + 1

def absorb (a b : BlockId) : FlowEdges :=
  { E with
    toWiring := E.toWiring.absorb a b
    slots := fun v => if v = b then [] else E.slots v }

/-- The blocks as `renumber_reachable` numbers them. -/
def renumber (reachable : List Bool) : FlowEdges :=
  { E with
    toWiring := E.toWiring.compact (fun b => reachable.getD b false)
      (Funcdata.keptOrder reachable).idxOf fun i => (Funcdata.keptOrder reachable)[i]?
    slots := fun i => (Funcdata.keptOrder reachable)[i]?.elim [] E.slots }

end FlowEdges

namespace Funcdata

variable {f f' : Funcdata} {E : FlowEdges} {a b v : BlockId} {e e' : EdgeId} {i j : ℕ}

@[simp] theorem numBlocks_modBlock (f : Funcdata) (b : BlockId) (g : BlockBasic → BlockBasic) :
    (f.modBlock b g).numBlocks = f.numBlocks := List.length_modify ..

theorem block_modBlock (hb : b < f.numBlocks) (g : BlockBasic → BlockBasic) (v : BlockId) :
    (f.modBlock b g).block v = if v = b then g (f.block b) else f.block v := by
  unfold block modBlock
  simp only [List.getD_eq_getElem?_getD, List.getElem?_modify]
  split_ifs with hv hbv hbv
  · subst hv
    rw [List.getElem?_eq_getElem hb]
    rfl
  · exact absurd hv.symm hbv
  · exact absurd ‹v = b›.symm hv
  · cases f.blocks[v]? <;> rfl

theorem lt_of_mem_outEdges (h : a ∈ (f.block b).outEdges) : b < f.numBlocks := by
  by_contra hb
  rw [block, List.getD_eq_default _ _ (not_lt.mp hb)] at h
  exact List.not_mem_nil h

theorem lt_of_mem_inEdges (h : a ∈ (f.block b).inEdges) : b < f.numBlocks := by
  by_contra hb
  rw [block, List.getD_eq_default _ _ (not_lt.mp hb)] at h
  exact List.not_mem_nil h

/-- The edge lists of `f` name the edges of `E`, in their order, and the slots of a block hold its
in-edges in theirs. -/
structure Wired (f : Funcdata) (E : FlowEdges) : Prop where
  sound : E.Sound
  outEdges : ∀ b, (f.block b).outEdges = (E.outs b).map E.dst
  inEdges : ∀ b, (f.block b).inEdges = (E.ins b).map E.src
  nodup : ∀ b, (E.slots b).Nodup
  sub : ∀ b, (E.ins b).Sublist (E.slots b)
  slotDst : ∀ b, ∀ e ∈ E.slots b, E.dst e = b
  fresh : ∀ b, ∀ e ∈ E.slots b, e.number < E.next

/-- The edge the first entry `b` in the out-edges of `a` stands for. -/
def outAt (f : Funcdata) (E : FlowEdges) (a b : BlockId) : Option EdgeId :=
  ((f.block a).outEdges.idxOf? b).bind fun i => (E.outs a)[i]?

/-- The edge the first entry `a` in the in-edges of `b` stands for. -/
def inAt (f : Funcdata) (E : FlowEdges) (b a : BlockId) : Option EdgeId :=
  ((f.block b).inEdges.idxOf? a).bind fun i => (E.ins b)[i]?

/-- The edge whose input the MULTIEQUALs of `b` have where `a` is first in its in-edges. -/
def slotAt (f : Funcdata) (E : FlowEdges) (b a : BlockId) : Option EdgeId :=
  ((f.block b).inEdges.idxOf? a).bind fun i => (E.slots b)[i]?

theorem Wired.outs_erase (h : f.Wired E) (he : (E.outs a)[i]? = some e) (v : BlockId) :
    (E.outs v).erase e = if v = a then (E.outs a).eraseIdx i else E.outs v := by
  split_ifs with hv
  · subst hv
    exact (h.sound.outs_nodup v).erase_eq_eraseIdx he
  · refine List.erase_of_not_mem fun hm => hv ?_
    exact (h.sound.of_outs hm).1.symm.trans (h.sound.of_outs (List.mem_of_getElem? he)).1

theorem Wired.ins_erase (h : f.Wired E) (he : (E.ins a)[i]? = some e) (v : BlockId) :
    (E.ins v).erase e = if v = a then (E.ins a).eraseIdx i else E.ins v := by
  split_ifs with hv
  · subst hv
    exact (h.sound.ins_nodup v).erase_eq_eraseIdx he
  · refine List.erase_of_not_mem fun hm => hv ?_
    exact (h.sound.of_ins hm).1.symm.trans (h.sound.of_ins (List.mem_of_getElem? he)).1

theorem Wired.slots_erase (h : f.Wired E) (he : (E.slots a)[i]? = some e) (v : BlockId) :
    (E.slots v).erase e = if v = a then (E.slots a).eraseIdx i else E.slots v := by
  split_ifs with hv
  · subst hv
    exact (h.nodup v).erase_eq_eraseIdx he
  · refine List.erase_of_not_mem fun hm => hv ?_
    exact (h.slotDst v e hm).symm.trans (h.slotDst a e (List.mem_of_getElem? he))

/-- Where the source of one in-edge changes, the list of in-edges changes at its position. -/
theorem Wired.map_src_update (h : f.Wired E) (he : (E.ins a)[i]? = some e) (b v : BlockId) :
    (E.ins v).map (Function.update E.src e b) =
      if v = a then (f.block a).inEdges.set i b else (f.block v).inEdges := by
  split_ifs with hv
  · subst hv
    rw [h.inEdges]
    exact (h.sound.ins_nodup v).map_update_eq_set he _ _
  · rw [h.inEdges]
    refine List.map_update_of_notMem (fun hm => hv ?_) _ _
    exact (h.sound.of_ins hm).1.symm.trans (h.sound.of_ins (List.mem_of_getElem? he)).1

theorem Wired.map_dst_update (h : f.Wired E) (he : (E.outs a)[i]? = some e) (b v : BlockId) :
    (E.outs v).map (Function.update E.dst e b) =
      if v = a then (f.block a).outEdges.set i b else (f.block v).outEdges := by
  split_ifs with hv
  · subst hv
    rw [h.outEdges]
    exact (h.sound.outs_nodup v).map_update_eq_set he _ _
  · rw [h.outEdges]
    refine List.map_update_of_notMem (fun hm => hv ?_) _ _
    exact (h.sound.of_outs hm).1.symm.trans (h.sound.of_outs (List.mem_of_getElem? he)).1

theorem outAt_eq_some : f.outAt E a b = some e ↔
    ∃ i, (f.block a).outEdges.idxOf? b = some i ∧ (E.outs a)[i]? = some e := by
  unfold outAt
  rw [Option.bind_eq_some_iff]

theorem inAt_eq_some : f.inAt E b a = some e ↔
    ∃ i, (f.block b).inEdges.idxOf? a = some i ∧ (E.ins b)[i]? = some e := by
  unfold inAt
  rw [Option.bind_eq_some_iff]

/-- Nothing but edges was edited. -/
structure SameOps (f f' : Funcdata) : Prop where
  op : f'.op = f.op
  numOps : f'.numOps = f.numOps
  numBlocks : f'.numBlocks = f.numBlocks
  ops : ∀ b, (f'.block b).ops = (f.block b).ops

theorem SameOps.trans {f'' : Funcdata} (h : SameOps f f') (h' : SameOps f' f'') : SameOps f f'' :=
  ⟨h'.op.trans h.op, h'.numOps.trans h.numOps, h'.numBlocks.trans h.numBlocks,
    fun b => (h'.ops b).trans (h.ops b)⟩

theorem SameOps.modBlock (f : Funcdata) (b : BlockId) {g : BlockBasic → BlockBasic}
    (hg : ∀ x, (g x).ops = x.ops) : SameOps f (f.modBlock b g) := by
  refine ⟨rfl, rfl, numBlocks_modBlock f b g, fun v => ?_⟩
  by_cases hb : b < f.numBlocks
  · rw [block_modBlock hb]
    split_ifs with hv
    · rw [hv]
      exact hg _
    · rfl
  · rw [Funcdata.modBlock, List.modify_eq_self (not_lt.mp hb)]

theorem Wired.lt_of_outs (h : f.Wired E) (he : e ∈ E.outs a) : a < f.numBlocks := by
  refine lt_of_mem_outEdges (a := E.dst e) ?_
  rw [h.outEdges]
  exact List.mem_map_of_mem he

theorem Wired.lt_of_ins (h : f.Wired E) (he : e ∈ E.ins a) : a < f.numBlocks := by
  refine lt_of_mem_inEdges (a := E.src e) ?_
  rw [h.inEdges]
  exact List.mem_map_of_mem he

/-- The edge `e` leaves the lists of its two blocks. -/
theorem Wired.removeAt (h : f.Wired E) (ho : (E.outs a)[i]? = some e)
    (hi : (E.ins b)[j]? = some e) :
    ((f.modBlock a fun x => { x with outEdges := x.outEdges.eraseIdx i }).modBlock b fun x =>
      { x with inEdges := x.inEdges.eraseIdx j }).Wired (E.cut e) := by
  have ha := h.lt_of_outs (List.mem_of_getElem? ho)
  have hb : ∀ g, b < (f.modBlock a g).numBlocks := fun g =>
    (numBlocks_modBlock f a g).symm ▸ h.lt_of_ins (List.mem_of_getElem? hi)
  refine ⟨h.sound.drop e, fun v => ?_, fun v => ?_, h.nodup,
    fun v => List.erase_sublist.trans (h.sub v), h.slotDst, h.fresh⟩
  · change _ = ((E.outs v).erase e).map E.dst
    rw [h.outs_erase ho, block_modBlock (hb _), block_modBlock ha, block_modBlock ha]
    split_ifs <;> simp_all [h.outEdges, List.eraseIdx_map]
  · change _ = ((E.ins v).erase e).map E.src
    rw [h.ins_erase hi, block_modBlock (hb _), block_modBlock ha, block_modBlock ha]
    split_ifs <;> simp_all [h.inEdges, List.eraseIdx_map]

theorem SameOps.removeEdge (hf : f.removeEdge a b = some f') : SameOps f f' := by
  unfold Funcdata.removeEdge at hf
  obtain ⟨o, -, hf⟩ := Option.bind_eq_some_iff.mp hf
  obtain ⟨i, -, hf⟩ := Option.bind_eq_some_iff.mp hf
  rw [← Option.some.inj hf]
  exact (SameOps.modBlock f a fun _ => by rfl).trans (SameOps.modBlock _ b fun _ => by rfl)

theorem Wired.removeEdge (h : f.Wired E) (hf : f.removeEdge a b = some f')
    (ho : f.outAt E a b = some e) (hi : f.inAt E b a = some e) : f'.Wired (E.cut e) := by
  obtain ⟨i, hi, hei⟩ := inAt_eq_some.mp hi
  obtain ⟨o, ho, heo⟩ := outAt_eq_some.mp ho
  simp only [Funcdata.removeEdge, ho, hi, Option.bind_eq_bind, Option.bind_some,
    Option.some.injEq] at hf
  subst hf
  exact h.removeAt heo hei

theorem SameOps.moveOutEdge (hf : f.moveOutEdge a i b = some f') : SameOps f f' := by
  unfold Funcdata.moveOutEdge at hf
  obtain ⟨outbl, -, hf⟩ := Option.bind_eq_some_iff.mp hf
  obtain ⟨k, -, hf⟩ := Option.bind_eq_some_iff.mp hf
  split_ifs at hf
  rw [← Option.some.inj hf]
  exact ((SameOps.modBlock f a fun _ => by rfl).trans
    (SameOps.modBlock _ _ fun _ => by rfl)).trans (SameOps.modBlock _ b fun _ => by rfl)

theorem Wired.moveOutEdge (h : f.Wired E) (hf : f.moveOutEdge a i b = some f')
    (ho : (E.outs a)[i]? = some e) (hi : f.inAt E (E.dst e) a = some e) :
    f'.Wired (E.moveTail e b) := by
  obtain ⟨j, hj, hej⟩ := inAt_eq_some.mp hi
  have hout : (f.block a).outEdges[i]? = some (E.dst e) := by
    rw [h.outEdges, List.getElem?_map, ho]
    rfl
  simp only [Funcdata.moveOutEdge, hout, hj, Option.bind_eq_bind, Option.bind_some] at hf
  split_ifs at hf with hb
  rw [Option.some.injEq] at hf
  subst hf
  have ha := h.lt_of_outs (List.mem_of_getElem? ho)
  have hd : ∀ g, E.dst e < (f.modBlock a g).numBlocks := fun g =>
    (numBlocks_modBlock f a g).symm ▸ h.lt_of_ins (List.mem_of_getElem? hej)
  have hb' : ∀ g g', b < ((f.modBlock a g).modBlock (E.dst e) g').numBlocks := fun g g' => by
    rw [numBlocks_modBlock, numBlocks_modBlock]
    exact not_le.mp hb
  refine ⟨h.sound.moveTail (List.mem_of_getElem? ho) b, fun v => ?_, fun v => ?_, h.nodup, h.sub,
    h.slotDst, h.fresh⟩
  · change _ = ((E.outs v).erase e ++ if v = b then [e] else []).map E.dst
    rw [h.outs_erase ho, block_modBlock (hb' _ _), block_modBlock (hd _), block_modBlock (hd _),
      block_modBlock ha, block_modBlock ha, block_modBlock ha]
    split_ifs <;> simp_all [h.outEdges, List.eraseIdx_map]
  · change _ = (E.ins v).map (Function.update E.src e b)
    rw [h.map_src_update hej, block_modBlock (hb' _ _), block_modBlock (hd _),
      block_modBlock (hd _), block_modBlock ha, block_modBlock ha, block_modBlock ha]
    split_ifs <;> simp_all

theorem Wired.map_dst_splice (h : f.Wired E) (he : (E.outs a)[i]? = some e)
    (he' : (E.outs b)[j]? = some e') (v : BlockId) :
    ((E.splice e e').outs v).map E.dst = if v = b then
      (if v = a then (f.block a).outEdges.set i (E.dst e') else (f.block v).outEdges).eraseIdx j
      else if v = a then (f.block a).outEdges.set i (E.dst e') else (f.block v).outEdges := by
  have hmap : ∀ l : List EdgeId, (l.map fun x => if x = e then e' else x).map E.dst =
      l.map (Function.update E.dst e (E.dst e')) := fun l => by
    rw [List.map_map]
    refine List.map_congr_left fun x _ => ?_
    simp only [Function.comp_apply, Function.update_apply]
    split_ifs <;> rfl
  change (((E.outs v).erase e').map fun x => if x = e then e' else x).map E.dst = _
  rw [hmap, h.outs_erase he', ← h.map_dst_update he]
  split_ifs with hv
  · rw [hv, List.eraseIdx_map]
  · rfl

theorem Wired.map_src_splice (h : f.Wired E) (he : (E.ins a)[i]? = some e)
    (he' : (E.ins b)[j]? = some e') (v : BlockId) :
    ((E.splice e e').ins v).map (Function.update E.src e' (E.src e)) = if v = a then
      (if v = b then (f.block b).inEdges.set j (E.src e) else (f.block v).inEdges).eraseIdx i
      else if v = b then (f.block b).inEdges.set j (E.src e) else (f.block v).inEdges := by
  change ((E.ins v).erase e).map _ = _
  rw [h.ins_erase he, ← h.map_src_update he']
  split_ifs with hv
  · rw [hv, List.eraseIdx_map]
  · rfl

theorem SameOps.replaceEdgesThru (hf : f.replaceEdgesThru v i j = some f') : SameOps f f' := by
  unfold Funcdata.replaceEdgesThru at hf
  obtain ⟨inb, -, hf⟩ := Option.bind_eq_some_iff.mp hf
  obtain ⟨outb, -, hf⟩ := Option.bind_eq_some_iff.mp hf
  obtain ⟨k, -, hf⟩ := Option.bind_eq_some_iff.mp hf
  obtain ⟨l, -, hf⟩ := Option.bind_eq_some_iff.mp hf
  rw [← Option.some.inj hf]
  exact (((SameOps.modBlock f _ fun _ => by rfl).trans (SameOps.modBlock _ _ fun _ => by rfl)).trans
    (SameOps.modBlock _ v fun _ => by rfl)).trans (SameOps.modBlock _ v fun _ => by rfl)

theorem Wired.replaceEdgesThru (h : f.Wired E) (hf : f.replaceEdgesThru v i j = some f')
    (hi : (E.ins v)[i]? = some e) (ho : (E.outs v)[j]? = some e')
    (hpre : f.outAt E (E.src e) v = some e) (hpost : f.inAt E (E.dst e') v = some e') :
    f'.Wired (E.splice e e') := by
  obtain ⟨k, hk, hek⟩ := outAt_eq_some.mp hpre
  obtain ⟨l, hl, hel⟩ := inAt_eq_some.mp hpost
  have hin : (f.block v).inEdges[i]? = some (E.src e) := by
    rw [h.inEdges, List.getElem?_map, hi]
    rfl
  have hout : (f.block v).outEdges[j]? = some (E.dst e') := by
    rw [h.outEdges, List.getElem?_map, ho]
    rfl
  simp only [Funcdata.replaceEdgesThru, hin, hout, hk, hl, Option.bind_eq_bind, Option.bind_some,
    Option.some.injEq] at hf
  subst hf
  have ha := h.lt_of_outs (List.mem_of_getElem? hek)
  have hb : ∀ g, E.dst e' < (f.modBlock (E.src e) g).numBlocks := fun g =>
    (numBlocks_modBlock f _ g).symm ▸ h.lt_of_ins (List.mem_of_getElem? hel)
  have hv : ∀ g g', v < ((f.modBlock (E.src e) g).modBlock (E.dst e') g').numBlocks :=
    fun g g' => by
      rw [numBlocks_modBlock, numBlocks_modBlock]
      exact h.lt_of_ins (List.mem_of_getElem? hi)
  have hv' : ∀ g g' g'', v < (((f.modBlock (E.src e) g).modBlock (E.dst e') g').modBlock v
      g'').numBlocks := fun g g' g'' => by
    rw [numBlocks_modBlock]
    exact hv g g'
  refine ⟨h.sound.splice (List.mem_of_getElem? hi) (List.mem_of_getElem? ho), fun u => ?_,
    fun u => ?_, h.nodup, fun u => List.erase_sublist.trans (h.sub u), h.slotDst, h.fresh⟩
  · refine Eq.trans ?_ (h.map_dst_splice hek ho u).symm
    rw [block_modBlock (hv' _ _ _), block_modBlock (hv _ _), block_modBlock (hv _ _),
      block_modBlock (hb _), block_modBlock (hb _), block_modBlock ha, block_modBlock ha,
      block_modBlock ha]
    split_ifs <;> simp_all
  · refine Eq.trans ?_ (h.map_src_splice hi hel u).symm
    rw [block_modBlock (hv' _ _ _), block_modBlock (hv _ _), block_modBlock (hv _ _),
      block_modBlock (hb _), block_modBlock (hb _), block_modBlock ha, block_modBlock ha,
      block_modBlock ha]
    split_ifs <;> simp_all

theorem block_newBlockBasic (f : Funcdata) (v : BlockId) :
    f.newBlockBasic.1.block v = f.block v := by
  simp only [newBlockBasic, block, List.getD_eq_getElem?_getD, List.getElem?_append]
  split_ifs with hv
  · rfl
  · rw [List.getElem?_eq_none (not_lt.mp hv)]
    cases v - f.blocks.length with
    | zero => rfl
    | succ n => rfl

theorem numBlocks_newBlockBasic (f : Funcdata) :
    f.newBlockBasic.1.numBlocks = f.numBlocks + 1 := List.length_append ..

theorem Wired.newBlockBasic (h : f.Wired E) : f.newBlockBasic.1.Wired E where
  sound := h.sound
  outEdges b := by rw [block_newBlockBasic, h.outEdges]
  inEdges b := by rw [block_newBlockBasic, h.inEdges]
  nodup := h.nodup
  sub := h.sub
  slotDst := h.slotDst
  fresh := h.fresh

theorem Wired.mem_slots (h : f.Wired E) (he : e ∈ E.ins b) : e ∈ E.slots b := (h.sub b).subset he

theorem Wired.addEdge (h : f.Wired E) (ha : a < f.numBlocks) (hb : b < f.numBlocks) :
    (f.addEdge a b).Wired (E.add a b) := by
  have hslot : ∀ v, (⟨a, b, E.next⟩ : EdgeId) ∉ E.slots v := fun v hm =>
    lt_irrefl _ (h.fresh v _ hm)
  have hin : ∀ v, (⟨a, b, E.next⟩ : EdgeId) ∉ E.ins v := fun v hm => hslot v (h.mem_slots hm)
  have hout : ∀ v, (⟨a, b, E.next⟩ : EdgeId) ∉ E.outs v := fun v hm => hin _ (h.sound.of_outs hm).2
  have hb' : ∀ g, b < (f.modBlock a g).numBlocks := fun g => (numBlocks_modBlock f a g).symm ▸ hb
  refine ⟨h.sound.add hout hin a b, fun v => ?_, fun v => ?_, fun v => ?_, fun v => ?_,
    fun v x hx => ?_, fun v x hx => ?_⟩
  · change _ = (E.outs v ++ if v = a then [_] else []).map (Function.update E.dst _ b)
    rw [List.map_append, List.map_update_of_notMem (hout v), ← h.outEdges, Funcdata.addEdge,
      block_modBlock (hb' _), block_modBlock ha, block_modBlock ha]
    split_ifs <;> simp_all
  · change _ = (E.ins v ++ if v = b then [_] else []).map (Function.update E.src _ a)
    rw [List.map_append, List.map_update_of_notMem (hin v), ← h.inEdges, Funcdata.addEdge,
      block_modBlock (hb' _), block_modBlock ha, block_modBlock ha]
    split_ifs <;> simp_all
  · exact Wiring.nodup_append_ite (h.nodup v) (hslot v) _
  · exact (h.sub v).append (List.Sublist.refl _)
  · change Function.update E.dst _ b x = v
    rcases Wiring.mem_append_ite.mp hx with hx | ⟨rfl, rfl⟩
    · have hne : x ≠ ⟨a, b, E.next⟩ := fun he => hslot v (he ▸ hx)
      rw [Function.update_of_ne hne]
      exact h.slotDst v x hx
    · exact Function.update_self ..
  · change x.number < E.next + 1
    rcases Wiring.mem_append_ite.mp hx with hx | ⟨rfl, -⟩
    · exact (h.fresh v x hx).trans (Nat.lt_succ_self _)
    · exact Nat.lt_succ_self _

theorem SameOps.addEdge (f : Funcdata) (a b : BlockId) : SameOps f (f.addEdge a b) :=
  (SameOps.modBlock f a fun _ => by rfl).trans (SameOps.modBlock _ b fun _ => by rfl)

/-- The edge `e` is given a new end, with all of its inputs. -/
theorem Wired.takeOver (h : f.Wired E) (ho : (E.outs a)[i]? = some e)
    (hi : (E.ins b)[j]? = some e) (hv : v < f.numBlocks) :
    ∃ f', ((f.modBlock a fun x => { x with outEdges := x.outEdges.set i v }).modBlock b fun x =>
      { x with inEdges := x.inEdges.eraseIdx j }).modBlock v (fun x =>
        { x with inEdges := x.inEdges ++ [a] }) = f' ∧ f'.Wired (E.takeOver e v) ∧ SameOps f f' := by
  have ha := h.lt_of_outs (List.mem_of_getElem? ho)
  have hb : ∀ g, b < (f.modBlock a g).numBlocks := fun g =>
    (numBlocks_modBlock f a g).symm ▸ h.lt_of_ins (List.mem_of_getElem? hi)
  have hv' : ∀ g g', v < ((f.modBlock a g).modBlock b g').numBlocks := fun g g' => by
    rw [numBlocks_modBlock, numBlocks_modBlock]
    exact hv
  have hsrc : E.src e = a := (h.sound.of_outs (List.mem_of_getElem? ho)).1
  refine ⟨_, rfl, ⟨h.sound.moveHead (List.mem_of_getElem? ho) v, fun u => ?_, fun u => ?_,
    fun u => ?_, fun u => ?_, fun u x hx => ?_, fun u x hx => ?_⟩,
    ((SameOps.modBlock f a fun _ => by rfl).trans (SameOps.modBlock _ b fun _ => by rfl)).trans
      (SameOps.modBlock _ v fun _ => by rfl)⟩
  · refine Eq.trans ?_ (h.map_dst_update ho v u).symm
    rw [block_modBlock (hv' _ _), block_modBlock (hb _), block_modBlock (hb _), block_modBlock ha,
      block_modBlock ha, block_modBlock ha]
    split_ifs <;> simp_all
  · change _ = ((E.ins u).erase e ++ if u = v then [e] else []).map E.src
    rw [h.ins_erase hi, List.map_append, block_modBlock (hv' _ _), block_modBlock (hb _),
      block_modBlock (hb _), block_modBlock ha, block_modBlock ha, block_modBlock ha]
    split_ifs <;> simp_all [h.inEdges, List.eraseIdx_map]
  · exact Wiring.nodup_erase_append (h.nodup u) e _
  · exact ((h.sub u).erase e).append (List.Sublist.refl _)
  · change Function.update E.dst e v x = u
    rcases Wiring.mem_append_ite.mp hx with hx | ⟨rfl, rfl⟩
    · obtain ⟨hne, hx⟩ := (h.nodup u).mem_erase_iff.mp hx
      rw [Function.update_of_ne hne]
      exact h.slotDst u x hx
    · exact Function.update_self ..
  · rcases Wiring.mem_append_ite.mp hx with hx | ⟨rfl, -⟩
    · exact h.fresh u x (List.mem_of_mem_erase hx)
    · exact h.fresh b x (h.mem_slots (List.mem_of_getElem? hi))

theorem Wired.unslot (h : f.Wired E) (he : e ∉ E.ins (E.dst e)) : f.Wired (E.unslot e) where
  sound := h.sound
  outEdges := h.outEdges
  inEdges := h.inEdges
  nodup v := (h.nodup v).erase e
  sub v := by
    have hv : e ∉ E.ins v := fun hm => he ((h.sound.of_ins hm).1.symm ▸ hm)
    change (E.ins v).Sublist ((E.slots v).erase e)
    rw [← List.erase_of_not_mem hv]
    exact (h.sub v).erase e
  slotDst v x hx := h.slotDst v x (List.mem_of_mem_erase hx)
  fresh v x hx := h.fresh v x (List.mem_of_mem_erase hx)

/-- What `splice_block_basic` does to the edges. -/
theorem Wired.absorb (h : f.Wired E) (ha : E.outs a = [e]) (hb : E.ins b = [e])
    (hout : ∀ v, (f'.block v).outEdges =
      if v = b then [] else if v = a then (f.block b).outEdges else (f.block v).outEdges)
    (hin : ∀ v, (f'.block v).inEdges =
      if v = b then [] else (f.block v).inEdges.map fun u => if u = b then a else u) :
    f'.Wired (E.absorb a b) where
  sound := h.sound.absorb ha hb
  outEdges v := by
    rw [hout]
    simp only [FlowEdges.absorb, Wiring.absorb]
    split_ifs
    · rfl
    · exact h.outEdges b
    · exact h.outEdges v
  inEdges v := by
    rw [hin, h.inEdges, List.map_map]
    simp only [FlowEdges.absorb, Wiring.absorb]
    split_ifs
    · rfl
    · rfl
  nodup v := by
    simp only [FlowEdges.absorb]
    split_ifs
    · exact List.nodup_nil
    · exact h.nodup v
  sub v := by
    simp only [FlowEdges.absorb, Wiring.absorb]
    split_ifs
    · exact List.Sublist.refl _
    · exact h.sub v
  slotDst v x hx := by
    simp only [FlowEdges.absorb] at hx
    split_ifs at hx
    · exact absurd hx List.not_mem_nil
    · exact h.slotDst v x hx
  fresh v x hx := by
    simp only [FlowEdges.absorb] at hx
    split_ifs at hx
    · exact absurd hx List.not_mem_nil
    · exact h.fresh v x hx

/-! Renumbering. -/

variable {reachable : List Bool}

theorem mem_keptOrder (h0 : reachable.getD 0 false = true) :
    b ∈ keptOrder reachable ↔ reachable.getD b false = true := by
  rw [keptOrder, List.mem_cons, List.mem_filter, List.mem_range, Bool.and_eq_true,
    decide_eq_true_eq]
  constructor
  · rintro (rfl | hb)
    · exact h0
    · exact hb.2.2
  · intro hb
    by_cases h : b = 0
    · exact .inl h
    · refine .inr ⟨?_, Nat.pos_of_ne_zero h, hb⟩
      by_contra hlt
      rw [List.getD_eq_default _ _ (not_lt.mp hlt)] at hb
      cases hb

theorem nodup_keptOrder (reachable : List Bool) : (keptOrder reachable).Nodup := by
  refine List.nodup_cons.mpr ⟨fun h => ?_, List.nodup_range.filter _⟩
  rw [List.mem_filter, Bool.and_eq_true, decide_eq_true_eq] at h
  exact lt_irrefl _ h.2.1

theorem setParents_blocks (ops : List OpId) (b : BlockId) (f : Funcdata) :
    (f.setParents ops b).blocks = f.blocks := by
  induction ops generalizing f with
  | nil => rfl
  | cons o ops ih => exact ih _

theorem renumberReachable_eq (hf : f.renumberReachable reachable = some f') :
    f' = { (keptOrder reachable).zipIdx.foldl (fun g b => g.setParents (f.block b.1).ops b.2) f with
      blocks := (keptOrder reachable).map (f.keptBlock reachable) } := by
  unfold renumberReachable at hf
  dsimp only at hf
  split_ifs at hf
  exact (Option.some.inj hf).symm

theorem block_renumberReachable (hf : f.renumberReachable reachable = some f') (v : BlockId) :
    f'.block v = (keptOrder reachable)[v]?.elim default (f.keptBlock reachable) := by
  rw [renumberReachable_eq hf]
  simp only [block, List.getD_eq_getElem?_getD, List.getElem?_map]
  cases (keptOrder reachable)[v]? with
  | none => rfl
  | some b => rfl

theorem Wired.renumber (h : f.Wired E) (h0 : reachable.getD 0 false = true)
    (hf : f.renumberReachable reachable = some f') : f'.Wired (E.renumber reachable) where
  sound := by
    change (E.toWiring.compact (fun b => reachable.getD b false) (keptOrder reachable).idxOf
      fun i => (keptOrder reachable)[i]?).Sound
    refine h.sound.compact (fun v b hv => ?_) fun b hb => ?_
    · exact ⟨(mem_keptOrder h0).mp (List.mem_of_getElem? hv), (nodup_keptOrder reachable).idxOf_eq hv⟩
    · have hmem := (mem_keptOrder h0).mpr hb
      rw [List.getElem?_eq_getElem (List.idxOf_lt_length_of_mem hmem), List.getElem_idxOf]
  outEdges v := by
    rw [block_renumberReachable hf]
    simp only [FlowEdges.renumber, Wiring.compact]
    cases (keptOrder reachable)[v]? with
    | none => rfl
    | some b =>
      simp only [Option.elim_some, keptBlock]
      rw [h.outEdges, List.filter_map, List.map_map]
      rfl
  inEdges v := by
    rw [block_renumberReachable hf]
    simp only [FlowEdges.renumber, Wiring.compact]
    cases (keptOrder reachable)[v]? with
    | none => rfl
    | some b =>
      simp only [Option.elim_some, keptBlock]
      rw [h.inEdges, List.filter_map, List.map_map]
      rfl
  nodup v := by
    simp only [FlowEdges.renumber]
    cases (keptOrder reachable)[v]? with
    | none => exact List.nodup_nil
    | some b => exact h.nodup b
  sub v := by
    simp only [FlowEdges.renumber, Wiring.compact]
    cases (keptOrder reachable)[v]? with
    | none => exact List.Sublist.refl _
    | some b => exact List.filter_sublist.trans (h.sub b)
  slotDst v x hx := by
    simp only [FlowEdges.renumber, Wiring.compact] at hx ⊢
    cases hv : (keptOrder reachable)[v]? with
    | none =>
      rw [hv] at hx
      exact absurd hx List.not_mem_nil
    | some b =>
      rw [hv] at hx
      rw [h.slotDst b x hx]
      exact (nodup_keptOrder reachable).idxOf_eq hv
  fresh v x hx := by
    simp only [FlowEdges.renumber] at hx ⊢
    cases hv : (keptOrder reachable)[v]? with
    | none =>
      rw [hv] at hx
      exact absurd hx List.not_mem_nil
    | some b =>
      rw [hv] at hx
      exact h.fresh b x hx

end Funcdata
end Mosura
