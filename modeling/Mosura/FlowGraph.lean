import Mosura.ExpandLoadSound
import Mosura.FlowEditOps
import Mosura.FlowEdges
import Mosura.ListGraph

/-! The graphs that edits of the flow start from, what happens on the way through their blocks, and
edits of single ops and blocks. -/

namespace Mosura
namespace Funcdata

/-- A graph as the edits of the flow see it: linked, each op in its block, and an input of each
MULTIEQUAL for each in-edge. -/
structure FlowGraph (f : Funcdata) : Prop where
  linked : f.Linked
  homed : f.Homed
  arity : ∀ b, ∀ op ∈ f.multis b, (f.op op).inrefs.length = (f.block b).inEdges.length

/-! What happens on the way through a block. -/

/-- The values behind the MULTIEQUALs of `b`, entered by its in-edge `slot`. -/
def entryEnv (f : Funcdata) (b : BlockId) (slot : ℕ) (env : VarnodeId → ℕ) (v : VarnodeId) : ℕ :=
  match (f.multis b).find? fun op => (f.op op).output = some v with
  | none => env v
  | some op => ((f.op op).input slot).elim 0 (f.valueOf env)

/-- Where a run leaves `b`: its only out-edge, or the one its CBRANCH takes. -/
def exitTaken (f : Funcdata) (b : BlockId) (env : VarnodeId → ℕ) : Option BlockId :=
  match (f.block b).outEdges with
  | [t] => some t
  | [t0, t1] => do
    let c ← (f.block b).ops.getLast?
    let cond ← (f.op c).input 1
    some (if decide (f.valueOf env cond ≠ 0) != (f.op c).booleanFlip then t1 else t0)
  | _ => none

variable {f g g' g'' : Funcdata} {S : Set OpId} {B : Set BlockId} {b v : BlockId} {op : OpId}
  {env : VarnodeId → ℕ}

theorem exitTaken_of_cbranch {t0 t1 : BlockId} {c : OpId} (hout : (f.block b).outEdges = [t0, t1])
    (hlast : (f.block b).ops.getLast? = some c) (hin : (f.op c).input 1 = some v)
    (hflip : (f.op c).booleanFlip = false) :
    f.exitTaken b env = some (if f.valueOf env v ≠ 0 then t1 else t0) := by
  unfold exitTaken
  rw [hout, hlast]
  simp only [hin, hflip, Option.bind_eq_bind, Option.bind_some, Bool.bne_false, decide_eq_true_eq]

theorem exitTaken_of_single {t : BlockId} (hout : (f.block b).outEdges = [t]) :
    f.exitTaken b env = some t := by
  unfold exitTaken
  rw [hout]

/-! Edits of some ops, and of their places in some blocks. -/

structure Edits (g g' : Funcdata) (S : Set OpId) (B : Set BlockId) : Prop where
  keeps : Keeps g g'
  op : ∀ o ∉ S, g'.op o = g.op o
  numBlocks : g'.numBlocks = g.numBlocks
  outEdges : ∀ v, (g'.block v).outEdges = (g.block v).outEdges
  inEdges : ∀ v, (g'.block v).inEdges = (g.block v).inEdges
  ops : ∀ v ∉ B, (g'.block v).ops = (g.block v).ops

namespace Edits

theorem refl (g : Funcdata) (S : Set OpId) (B : Set BlockId) : Edits g g S B :=
  ⟨.refl g, fun _ _ => rfl, rfl, fun _ => rfl, fun _ => rfl, fun _ _ => rfl⟩

theorem trans (h : Edits g g' S B) (h' : Edits g' g'' S B) : Edits g g'' S B where
  keeps := h.keeps.trans h'.keeps
  op o ho := (h'.op o ho).trans (h.op o ho)
  numBlocks := h'.numBlocks.trans h.numBlocks
  outEdges v := (h'.outEdges v).trans (h.outEdges v)
  inEdges v := (h'.inEdges v).trans (h.inEdges v)
  ops v hv := (h'.ops v hv).trans (h.ops v hv)

theorem mono {S' : Set OpId} {B' : Set BlockId} (h : Edits g g' S B) (hS : S ⊆ S') (hB : B ⊆ B') :
    Edits g g' S' B' where
  keeps := h.keeps
  op o ho := h.op o fun hs => ho (hS hs)
  numBlocks := h.numBlocks
  outEdges := h.outEdges
  inEdges := h.inEdges
  ops v hv := h.ops v fun hb => hv (hB hb)

/-- An edit that leaves the blocks alone. -/
theorem of_blocks (hk : Keeps g g') (hop : ∀ o ∉ S, g'.op o = g.op o) (hb : g'.blocks = g.blocks) :
    Edits g g' S B := by
  have hblock (v : BlockId) : g'.block v = g.block v := by
    unfold block
    rw [hb]
  exact ⟨hk, hop, congrArg List.length hb, fun v => by rw [hblock], fun v => by rw [hblock],
    fun v _ => by rw [hblock]⟩

/-- An edit of the op list of one block. -/
theorem modOps (g : Funcdata) (hb : b < g.numBlocks) (k : List OpId → List OpId) :
    Edits g (g.modBlock b fun x => { x with ops := k x.ops }) S {b} := by
  refine ⟨.of_eq rfl rfl, fun _ _ => rfl, numBlocks_modBlock g b _, fun v => ?_, fun v => ?_,
    fun v hv => ?_⟩
  · rw [block_modBlock hb]
    split_ifs with h
    · rw [h]
    · rfl
  · rw [block_modBlock hb]
    split_ifs with h
    · rw [h]
    · rfl
  · rw [block_modBlock hb, if_neg (by simpa using hv)]

theorem modOp (g : Funcdata) (op : OpId) (k : PcodeOp → PcodeOp) :
    Edits g (g.modOp op k) {op} B :=
  of_blocks (.modOp g op k) (fun o ho => by rw [modOp_op, if_neg (by simpa using ho)]) rfl

theorem opSetInput (g : Funcdata) (op : OpId) (slot : ℕ) (vid : VarnodeId) :
    Edits g (g.opSetInput op slot vid) {op} B :=
  of_blocks (.opSetInput g op slot vid) (fun _ ho => opSetInput_op_ne (by simpa using ho) _ _)
    (Rewires.opSetInput g (Set.mem_singleton op) slot vid).blocks

theorem opRemoveInput (g : Funcdata) (op : OpId) (slot : ℕ) :
    Edits g (g.opRemoveInput op slot) {op} B :=
  of_blocks (.opRemoveInput g op slot) (fun _ ho => opRemoveInput_op_ne (by simpa using ho) _)
    (Rewires.opRemoveInput g (Set.mem_singleton op) slot).blocks

theorem opSetOpcode (g : Funcdata) (op : OpId) (c : OpCode) :
    Edits g (g.opSetOpcode op c) {op} B := modOp g op _

theorem opInsertBegin (g : Funcdata) (op : OpId) (hb : b < g.numBlocks) :
    Edits g (g.opInsertBegin op b) {op} {b} :=
  (modOp g op _).trans (modOps (g.modOp op _) hb fun l => l.insertIdx _ op)

theorem opInsertEnd (g : Funcdata) (op : OpId) (hb : b < g.numBlocks) :
    Edits g (g.opInsertEnd op b) {op} {b} :=
  (modOp g op _).trans (modOps (g.modOp op _) hb fun l => l.insertIdx _ op)

theorem opDestroy (g : Funcdata) (op : OpId) : Edits g (g.opDestroy op) {op} B := by
  refine of_blocks (.opDestroy g op) (fun _ ho => opDestroy_op_ne g (by simpa using ho)) ?_
  have htake := (Rewires.takeInputs g (Set.mem_singleton op)).blocks
  unfold Funcdata.opDestroy
  dsimp only
  cases ((g.takeInputs op).op op).output with
  | none => exact htake
  | some out => exact htake

end Edits

/-! Graphs given by lists. -/

/-- The ops are listed in their blocks, and the MULTIEQUALs have an input for each in-edge. -/
def BlocksChecked (ops : List PcodeOp) (blocks : List BlockBasic) : Prop :=
  ∀ b < blocks.length, (blocks.getD b default).ops.Nodup ∧
    ∀ p ∈ (blocks.getD b default).ops, p < ops.length ∧ (ops.getD p default).parent = some b ∧
      ((ops.getD p default).dead = false → (ops.getD p default).opcode = .multiequal →
        (ops.getD p default).inrefs.length = (blocks.getD b default).inEdges.length)

instance (ops : List PcodeOp) (blocks : List BlockBasic) : Decidable (BlocksChecked ops blocks) := by
  unfold BlocksChecked
  infer_instance

theorem flowGraph_ofLists {vns : List Varnode} {ops : List PcodeOp} {blocks : List BlockBasic}
    (h : ListsChecked vns ops) (hb : BlocksChecked ops blocks) :
    (ofLists vns ops blocks).FlowGraph := by
  have hblock (b : BlockId) : ((ofLists vns ops blocks).block b).ops.Nodup ∧
      ∀ p ∈ ((ofLists vns ops blocks).block b).ops, p < ops.length ∧
        (ops.getD p default).parent = some b ∧
          ((ops.getD p default).dead = false → (ops.getD p default).opcode = .multiequal →
            (ops.getD p default).inrefs.length =
              ((ofLists vns ops blocks).block b).inEdges.length) := by
    by_cases hlt : b < blocks.length
    · exact hb b hlt
    · have hdef : (ofLists vns ops blocks).block b = default :=
        List.getD_eq_default _ _ (not_lt.mp hlt)
      rw [hdef]
      exact ⟨List.nodup_nil, fun p hp => absurd hp List.not_mem_nil⟩
  refine ⟨linked_ofLists h, ⟨?_, ?_, ?_⟩, fun b op hop => ?_⟩
  · exact fun b p hp => ((hblock b).2 p hp).1
  · exact fun b p hp => ((hblock b).2 p hp).2.1
  · exact fun b => (hblock b).1
  · obtain ⟨hmem, hlive, hcode⟩ := mem_multis.mp hop
    exact ((hblock b).2 op hmem).2.2 hlive hcode

end Funcdata
end Mosura
