import Mosura.Disasm
import Mosura.SleighLabels

/-! Disassembling with delay slots (`sleigh/engine.rs`: `disassemble_ctx`, `has_delay_slot`). -/

namespace Mosura
namespace Sleigh
open Emu

structure Instruction where
  address : U64
  bytes : List (BitVec 8)
  ops : List PcodeOp

/-- One turn of the loop of `disassemble_ctx`: the tree, and the walker it is expanded with. -/
structure Decoding (C : Type) where
  node : Node
  walker : Walker C

namespace Spec

variable {C : Type} (s : Spec C)

/-- The root's own template has a DELAY_SLOT directive. -/
def hasDelaySlot (node : Node) : Bool :=
  match s.ctorOf node with
  | some tmpl => tmpl.ops.any fun op => op.opcode = opDelaySlot
  | none => false

/-- The length `ilen` of a whole instruction. -/
def fullLength (node : Node) (w : Walker C) : ℕ :=
  let ilen := max 1 node.length
  if s.hasDelaySlot node = true ∧ ilen < w.buf.length then
    let dw := w.ahead ilen
    match s.resolve dw.buf dw.addr dw.context with
    | some (dn, _) => ilen + max 1 dn.length
    | none => ilen
  else ilen

/-- The loop of `disassemble_ctx`; the first argument is at least the number of bytes. -/
def decodingsFrom (context : C) : ℕ → ℕ → List (BitVec 8) → U64 → List (Decoding C)
  | 0, _, _, _ => []
  | n + 1, pos, buf, addr =>
    if buf.isEmpty then []
    else
      match s.resolve buf addr context with
      | none => []
      | some (node, c) =>
        let ilen := s.fullLength node ⟨pos, buf, addr, c, 0⟩
        let next := addr + BitVec.ofNat 64 ilen
        ⟨node, ⟨pos, buf, addr, c, next⟩⟩ ::
          decodingsFrom context n (pos + ilen) (buf.drop ilen) next

def decodings (bytes : List (BitVec 8)) (base : U64) (context : C) : List (Decoding C) :=
  s.decodingsFrom context bytes.length 0 bytes base

/-- The instruction of a turn, zero-padded where the chunk ends in it. -/
def instruction (d : Decoding C) : Instruction where
  address := d.walker.addr
  bytes := cover d.walker.buf (s.fullLength d.node d.walker)
  ops := s.buildPcodeNode d.node d.walker

def disassembleCtx (bytes : List (BitVec 8)) (base : U64) (context : C) : List Instruction :=
  (s.decodings bytes base context).map s.instruction

/-- The instruction at a walker, with the walker it is expanded with. -/
def slotNode (w : Walker C) : Option (Node × Walker C) :=
  (s.resolve w.buf w.addr w.context).map fun (node, context) =>
    (node, { w with context, next := w.addr + BitVec.ofNat 64 (max 1 node.length) })

/-- The instruction `len` bytes ahead. -/
def slotAt (w : Walker C) (len : ℕ) : Option (Node × Walker C) :=
  if len < w.buf.length then s.slotNode (w.ahead len) else none

/-- A template operation's part in how far the directives of a tree look ahead. -/
def reachOp (node : Node) (subs : List (Option (List ℕ))) (w : Walker C) (op : OpTpl)
    (rest : List ℕ) : List ℕ :=
  match s.directive (s.handles node w) w op with
  | .build idx =>
    match subs[idx.toNat]? with
    | some (some lens) => lens ++ rest
    | _ => rest
  | .delaySlot => max 1 node.length :: rest
  | .stop => []
  | .label _ | .skip | .branch _ _ _ | .emit _ => rest

mutual
/-- How far the DELAY_SLOT directives look ahead that the expansion of a tree reaches. -/
def slotLens (w : Walker C) : Node → List ℕ
  | .mk subtable ctorIdx offset length operands =>
    match s.ctorOf (.mk subtable ctorIdx offset length operands) with
    | none => []
    | some tmpl =>
      tmpl.ops.foldr (s.reachOp (.mk subtable ctorIdx offset length operands)
        (slotLensOperands w operands) w) []
def slotLensOperands (w : Walker C) : List OpNode → List (Option (List ℕ))
  | [] => []
  | .sub node :: rest => some (slotLens w node) :: slotLensOperands w rest
  | .leaf _ _ _ :: rest => none :: slotLensOperands w rest
  | .expr _ _ _ :: rest => none :: slotLensOperands w rest
end

/-- Where the instructions stand that are inlined; the first argument bounds the slots in slots. -/
def inlines : ℕ → Walker C → Node → List ℕ
  | 0, _, _ => []
  | k + 1, w, node =>
    (s.slotLens w node).flatMap fun len =>
      match s.slotAt w len with
      | some (dn, dw) => dw.pos :: inlines k dw dn
      | none => []

/-- The bytes and the fall-through of an instruction take in the following one just where its
p-code inlines one, and what it inlines stands behind the whole instruction. -/
def SlotOnce (d : Decoding C) : Prop :=
  let insn := s.instruction d
  let len := max 1 d.node.length
  let inlined := (s.expand d.node d.walker).trace.inlined
  d.walker.next = insn.address + BitVec.ofNat 64 insn.bytes.length ∧
    (len < insn.bytes.length ↔ inlined ≠ []) ∧ ∀ p ∈ inlined, p = d.walker.pos + len

/-- Directives that find an instruction look past the whole branch; the slot has none that does;
and what follows the branch is reached where the root has a directive. -/
structure SlotAgrees (node : Node) (w : Walker C) : Prop where
  whole : ∀ len ∈ s.slotLens w node, (s.slotAt w len).isSome → len = max 1 node.length
  single : ∀ dn dw, s.slotAt w (max 1 node.length) = some (dn, dw) →
    max 1 node.length ∈ s.slotLens w node →
    ∀ len ∈ s.slotLens dw dn, s.slotAt dw len = none
  root : (s.slotAt w (max 1 node.length)).isSome →
    (s.hasDelaySlot node = true ↔ max 1 node.length ∈ s.slotLens w node)

variable {s}

/-! What an expansion inlines. -/

end Spec

namespace Expansion

def inlines : Expansion → List ℕ
  | done | stop => []
  | label _ rest | branch _ _ _ rest | emit _ rest => rest.inlines
  | inline pos rest => pos :: rest.inlines
  | build _ inner rest => inner.inlines ++ rest.inlines

theorem run_inlined (e : Expansion) (inst : ℕ) (b : Build) :
    (e.run inst b).trace.inlined = b.trace.inlined ++ e.inlines := by
  induction e generalizing inst b with
  | done => exact (List.append_nil _).symm
  | stop => exact (List.append_nil _).symm
  | label id rest ih => exact ih inst (b.define inst id)
  | branch id size op rest ih => exact ih inst (b.branch inst id size op)
  | emit ops rest ih => exact ih inst (b.emit ops)
  | inline pos rest ih => exact (ih inst (b.inline pos)).trans (List.append_assoc _ _ _)
  | build n inner rest ihInner ihRest =>
    rw [run, ihRest]
    change (inner.run b.trace.blocks.length (b.enter n)).trace.inlined ++ rest.inlines = _
    rw [ihInner, List.append_assoc]
    rfl

end Expansion

namespace Spec

variable {C : Type} {s : Spec C} {node : Node} {w : Walker C} {p : Planner C}
  {f : Walker C → List ℕ}

/-- A planner inlines `f` and then the rest. -/
def Inlines (p : Planner C) (f : Walker C → List ℕ) : Prop :=
  ∀ w rest, (p w rest).inlines = f w ++ rest.inlines

/-- What is inlined by directives that look `lens` ahead. -/
def inlinedAt (f : Walker C → List ℕ) (w : Walker C) (lens : List ℕ) : List ℕ :=
  lens.flatMap fun len => if len < w.buf.length then f (w.ahead len) else []

/-- A planner inlines what the directives find that look `lens` ahead. -/
def Reaches (f : Walker C → List ℕ) (w : Walker C) (p : Planner C) (lens : List ℕ) : Prop :=
  ∀ rest, (p w rest).inlines = inlinedAt f w lens ++ rest.inlines

theorem planOp_inlines (hslot : Inlines p f) {ps : List (Option (Planner C))}
    {subs : List (Option (List ℕ))} (hsubs : List.Forall₂ (Option.Rel (Reaches f w)) ps subs)
    (op : OpTpl) {rest : Expansion} {lens : List ℕ} (hrest : rest.inlines = inlinedAt f w lens) :
    (s.planOp node ps p w op rest).inlines = inlinedAt f w (s.reachOp node subs w op lens) := by
  unfold planOp reachOp
  cases s.directive (s.handles node w) w op with
  | build idx =>
    dsimp only
    obtain ⟨p', lens', hp, hlens, hreaches⟩ | ⟨hp, hlens⟩ := operand_cases hsubs idx.toNat
    · rw [hp, hlens]
      dsimp only
      rw [hreaches rest, hrest, inlinedAt, inlinedAt, inlinedAt, List.flatMap_append]
    · split
      · rename_i hget
        exact absurd hget (hp _)
      · split
        · rename_i hget
          exact absurd hget (hlens _)
        · exact hrest
  | delaySlot =>
    dsimp only
    rw [inlinedAt, List.flatMap_cons]
    split_ifs
    · rw [hslot, hrest]
      rfl
    · exact hrest
  | stop => rfl
  | label id => exact hrest
  | skip => exact hrest
  | branch id size op => exact hrest
  | emit ops => exact hrest

theorem foldr_planOp_inlines (hslot : Inlines p f) {ps : List (Option (Planner C))}
    {subs : List (Option (List ℕ))} (hsubs : List.Forall₂ (Option.Rel (Reaches f w)) ps subs)
    (ops : List OpTpl) :
    (ops.foldr (s.planOp node ps p w) .done).inlines =
      inlinedAt f w (ops.foldr (s.reachOp node subs w) []) := by
  induction ops with
  | nil => rfl
  | cons op ops ih =>
    rw [List.foldr_cons, List.foldr_cons]
    exact planOp_inlines hslot hsubs op ih

mutual
theorem planNode_reaches (hslot : Inlines p f) (w : Walker C) :
    ∀ node, Reaches f w (s.planNode p node) (s.slotLens w node)
  | .mk subtable ctorIdx offset length operands => by
    intro rest
    unfold planNode planInto slotLens
    cases s.ctorOf (.mk subtable ctorIdx offset length operands) with
    | none => rfl
    | some tmpl =>
      exact congrArg (· ++ rest.inlines)
        (foldr_planOp_inlines hslot (planOperands_reaches hslot w operands) tmpl.ops)
theorem planOperands_reaches (hslot : Inlines p f) (w : Walker C) :
    ∀ operands, List.Forall₂ (Option.Rel (Reaches f w)) (s.planOperands p operands)
      (s.slotLensOperands w operands)
  | [] => .nil
  | .sub node :: rest => .cons (.some (planNode_reaches hslot w node))
      (planOperands_reaches hslot w rest)
  | .leaf _ _ _ :: rest => .cons .none (planOperands_reaches hslot w rest)
  | .expr _ _ _ :: rest => .cons .none (planOperands_reaches hslot w rest)
end

variable (s) in
/-- What is inlined of an instruction in a delay slot. -/
def slotInlines : ℕ → Walker C → List ℕ
  | 0, _ => []
  | k + 1, w =>
    match s.slotNode w with
    | some (dn, dw) => dw.pos :: s.inlines k dw dn
    | none => []

theorem inlinedAt_slotInlines (k : ℕ) (w : Walker C) (node : Node) :
    inlinedAt (s.slotInlines k) w (s.slotLens w node) = s.inlines k w node := by
  cases k with
  | zero =>
    rw [inlines, inlinedAt, List.flatMap_eq_nil_iff]
    intro len _
    exact ite_self _
  | succ k =>
    rw [inlines, inlinedAt]
    congr 1
    funext len
    unfold slotAt
    split_ifs
    · rfl
    · rfl

theorem planSlot_inlines (k : ℕ) : Inlines (s.planSlot k) (s.slotInlines k) := by
  induction k with
  | zero => exact fun _ _ => rfl
  | succ k ih =>
    intro w rest
    rw [planSlot, slotInlines, slotNode]
    cases s.resolve w.buf w.addr w.context with
    | none => rfl
    | some r =>
      change w.pos :: (s.planNode (s.planSlot k) r.1 _ rest).inlines = _
      rw [planNode_reaches ih _ r.1 rest, inlinedAt_slotInlines]
      rfl

/-- Where the p-code of an instruction inlines. -/
theorem expand_inlined (node : Node) (w : Walker C) :
    (s.expand node w).trace.inlined = s.inlines w.buf.length w node := by
  rw [expand_eq, Expansion.run_inlined]
  change [] ++ (s.planNode (s.planSlot w.buf.length) node w .done).inlines = _
  rw [planNode_reaches (planSlot_inlines _) w node .done, inlinedAt_slotInlines]
  exact List.append_nil _

/-! How far the directives look. -/

theorem reachOp_pos {subs : List (Option (List ℕ))}
    (hsubs : ∀ lens, some lens ∈ subs → ∀ len ∈ lens, 0 < len) (op : OpTpl) {rest : List ℕ}
    (hrest : ∀ len ∈ rest, 0 < len) : ∀ len ∈ s.reachOp node subs w op rest, 0 < len := by
  unfold reachOp
  cases s.directive (s.handles node w) w op with
  | build idx =>
    dsimp only
    split
    · rename_i lens hget
      exact List.forall_mem_append.mpr ⟨hsubs lens (List.mem_of_getElem? hget), hrest⟩
    · exact hrest
  | delaySlot => exact List.forall_mem_cons.mpr ⟨lt_max_of_lt_left Nat.one_pos, hrest⟩
  | stop => exact nofun
  | label id => exact hrest
  | skip => exact hrest
  | branch id size op => exact hrest
  | emit ops => exact hrest

theorem foldr_reachOp_pos {subs : List (Option (List ℕ))}
    (hsubs : ∀ lens, some lens ∈ subs → ∀ len ∈ lens, 0 < len) (ops : List OpTpl) :
    ∀ len ∈ ops.foldr (s.reachOp node subs w) [], 0 < len := by
  induction ops with
  | nil => exact nofun
  | cons op ops ih => exact reachOp_pos hsubs op ih

mutual
theorem slotLens_pos (w : Walker C) : ∀ node, ∀ len ∈ s.slotLens w node, 0 < len
  | .mk subtable ctorIdx offset length operands => by
    unfold slotLens
    cases s.ctorOf (.mk subtable ctorIdx offset length operands) with
    | none => exact nofun
    | some tmpl => exact foldr_reachOp_pos (slotLensOperands_pos w operands) tmpl.ops
theorem slotLensOperands_pos (w : Walker C) :
    ∀ operands, ∀ lens, some lens ∈ s.slotLensOperands w operands → ∀ len ∈ lens, 0 < len
  | [], _, h => by cases h
  | .sub node :: rest, lens, h => by
    obtain heq | h := List.mem_cons.mp h
    · rw [Option.some.inj heq]
      exact slotLens_pos w node
    · exact slotLensOperands_pos w rest lens h
  | .leaf _ _ _ :: rest, lens, h => by
    obtain heq | h := List.mem_cons.mp h
    · cases heq
    · exact slotLensOperands_pos w rest lens h
  | .expr _ _ _ :: rest, lens, h => by
    obtain heq | h := List.mem_cons.mp h
    · cases heq
    · exact slotLensOperands_pos w rest lens h
end

/-! Where the slots stand. -/

theorem slotAt_pos {len : ℕ} {dn : Node} {dw : Walker C} (h : s.slotAt w len = some (dn, dw)) :
    dw.pos = w.pos + len ∧ dw.buf = w.buf.drop len ∧ len < w.buf.length := by
  unfold slotAt slotNode at h
  split_ifs at h with hlt
  obtain ⟨r, -, hr⟩ := Option.map_eq_some_iff.mp h
  obtain ⟨-, rfl⟩ := Prod.mk.inj hr
  exact ⟨rfl, rfl, hlt⟩

theorem mem_inlines_succ {k p : ℕ} : p ∈ s.inlines (k + 1) w node ↔
    ∃ len ∈ s.slotLens w node, ∃ dn dw, s.slotAt w len = some (dn, dw) ∧
      (p = dw.pos ∨ p ∈ s.inlines k dw dn) := by
  rw [inlines, List.mem_flatMap]
  refine exists_congr fun len => and_congr_right fun _ => ?_
  cases s.slotAt w len with
  | none => exact ⟨nofun, fun ⟨_, _, h, _⟩ => nomatch h⟩
  | some r =>
    obtain ⟨dn, dw⟩ := r
    refine List.mem_cons.trans ⟨fun h => ⟨dn, dw, rfl, h⟩, ?_⟩
    rintro ⟨_, _, h, hp⟩
    cases h
    exact hp

theorem lt_of_mem_inlines {k p : ℕ} (hp : p ∈ s.inlines k w node) : w.pos < p := by
  induction k generalizing w node with
  | zero => cases hp
  | succ k ih =>
    obtain ⟨len, hlen, dn, dw, hslot, hp⟩ := mem_inlines_succ.mp hp
    have hpos := slotLens_pos w node len hlen
    obtain ⟨hdw, -, -⟩ := slotAt_pos hslot
    have hlt : w.pos < dw.pos := by omega
    obtain rfl | hp := hp
    · exact hlt
    · exact hlt.trans (ih hp)

/-- With enough fuel an instruction inlines what its directives find. -/
theorem inlines_eq_nil_iff {k : ℕ} (hk : w.buf.length ≤ k) :
    s.inlines k w node = [] ↔ ∀ len ∈ s.slotLens w node, s.slotAt w len = none := by
  rw [List.eq_nil_iff_forall_not_mem]
  refine ⟨fun h len hlen => ?_, fun h p hp => ?_⟩
  · cases hslot : s.slotAt w len with
    | none => rfl
    | some r =>
      obtain ⟨dn, dw⟩ := r
      obtain ⟨-, -, hlt⟩ := slotAt_pos hslot
      obtain ⟨k, rfl⟩ : ∃ i, k = i + 1 := ⟨k - 1, by omega⟩
      exact absurd (mem_inlines_succ.mpr ⟨len, hlen, dn, dw, hslot, .inl rfl⟩) (h dw.pos)
  · cases k with
    | zero => cases hp
    | succ k =>
      obtain ⟨len, hlen, dn, dw, hslot, -⟩ := mem_inlines_succ.mp hp
      rw [h len hlen] at hslot
      cases hslot

theorem lt_fullLength_iff : max 1 node.length < s.fullLength node w ↔
    s.hasDelaySlot node = true ∧ (s.slotAt w (max 1 node.length)).isSome := by
  unfold fullLength slotAt slotNode
  dsimp only
  by_cases hslot : s.hasDelaySlot node = true
  · by_cases hlt : max 1 node.length < w.buf.length
    · rw [if_pos ⟨hslot, hlt⟩, if_pos hlt, Option.isSome_map]
      cases s.resolve (w.ahead (max 1 node.length)).buf (w.ahead (max 1 node.length)).addr
        (w.ahead (max 1 node.length)).context with
      | none => exact ⟨fun h => absurd h (lt_irrefl _), fun h => nomatch h.2⟩
      | some r =>
        refine ⟨fun _ => ⟨hslot, rfl⟩, fun _ => Nat.lt_add_of_pos_right ?_⟩
        exact lt_max_of_lt_left Nat.one_pos
    · rw [if_neg fun h => hlt h.2, if_neg hlt]
      exact ⟨fun h => absurd h (lt_irrefl _), fun h => nomatch h.2⟩
  · rw [if_neg fun h => hslot h.1]
    exact ⟨fun h => absurd h (lt_irrefl _), fun h => absurd h.1 hslot⟩

theorem inlines_ne_nil_iff {k : ℕ} (hk : w.buf.length ≤ k) :
    s.inlines k w node ≠ [] ↔ ∃ len ∈ s.slotLens w node, (s.slotAt w len).isSome := by
  rw [Ne, inlines_eq_nil_iff hk]
  simp only [not_forall, ← ne_eq, Option.isSome_iff_ne_none, exists_prop]

/-- What is longer is what is inlined, just where the directives that are reached agree. -/
theorem longer_iff_inlined (node : Node) (w : Walker C) :
    ((max 1 node.length < s.fullLength node w ↔ (s.expand node w).trace.inlined ≠ []) ∧
      ∀ p ∈ (s.expand node w).trace.inlined, p = w.pos + max 1 node.length) ↔
      s.SlotAgrees node w := by
  rw [lt_fullLength_iff, expand_inlined, inlines_ne_nil_iff le_rfl]
  -- an instruction in the slot is inlined, and what it inlines itself
  have hmem {len p : ℕ} {dn : Node} {dw : Walker C} (hlen : len ∈ s.slotLens w node)
      (hslot : s.slotAt w len = some (dn, dw))
      (hp : p = dw.pos ∨ p ∈ s.inlines (w.buf.length - 1) dw dn) :
      p ∈ s.inlines w.buf.length w node := by
    obtain ⟨-, -, hlt⟩ := slotAt_pos hslot
    rw [← Nat.sub_add_cancel (Nat.one_le_of_lt hlt)]
    exact mem_inlines_succ.mpr ⟨len, hlen, dn, dw, hslot, hp⟩
  have hfuel {len : ℕ} {dn : Node} {dw : Walker C} (hlen : len ∈ s.slotLens w node)
      (hslot : s.slotAt w len = some (dn, dw)) : dw.buf.length ≤ w.buf.length - 1 := by
    obtain ⟨-, hbuf, -⟩ := slotAt_pos hslot
    have hpos := slotLens_pos w node len hlen
    rw [hbuf, List.length_drop]
    omega
  constructor
  · rintro ⟨hlonger, hall⟩
    have hwhole : ∀ len ∈ s.slotLens w node, (s.slotAt w len).isSome →
        len = max 1 node.length := by
      intro len hlen hsome
      obtain ⟨⟨dn, dw⟩, hslot⟩ := Option.isSome_iff_exists.mp hsome
      have hp := hall dw.pos (hmem hlen hslot (.inl rfl))
      rw [(slotAt_pos hslot).1] at hp
      exact Nat.add_left_cancel hp
    refine ⟨hwhole, fun dn dw hslot hlen => ?_, fun hsome => ⟨fun hroot => ?_, fun hlen => ?_⟩⟩
    · refine (inlines_eq_nil_iff (hfuel hlen hslot)).mp ?_
      refine List.eq_nil_iff_forall_not_mem.mpr fun p hp => ?_
      have hp' := hall p (hmem hlen hslot (.inr hp))
      rw [← (slotAt_pos hslot).1] at hp'
      exact absurd hp' (lt_of_mem_inlines hp).ne'
    · obtain ⟨len, hlen, hfound⟩ := hlonger.mp ⟨hroot, hsome⟩
      exact hwhole len hlen hfound ▸ hlen
    · exact (hlonger.mpr ⟨_, hlen, hsome⟩).1
  · rintro ⟨hwhole, hsingle, hroot⟩
    refine ⟨⟨fun ⟨hdelay, hsome⟩ => ⟨_, (hroot hsome).mp hdelay, hsome⟩, ?_⟩, fun p hp => ?_⟩
    · rintro ⟨len, hlen, hsome⟩
      obtain rfl := hwhole len hlen hsome
      exact ⟨(hroot hsome).mpr hlen, hsome⟩
    · have hlt : 0 < w.buf.length := by
        refine Nat.pos_of_ne_zero fun h => ?_
        rw [h] at hp
        cases hp
      rw [← Nat.sub_add_cancel hlt] at hp
      obtain ⟨len, hlen, dn, dw, hslot, hp⟩ := mem_inlines_succ.mp hp
      obtain rfl := hwhole len hlen (by rw [hslot]; rfl)
      obtain rfl | hp := hp
      · exact (slotAt_pos hslot).1
      · rw [(inlines_eq_nil_iff (hfuel hlen hslot)).mpr (hsingle dn dw hslot hlen)] at hp
        cases hp

/-! The loop of `disassemble_ctx`. -/

/-- Each turn starts where the last one ended, and falls through to where it ends. -/
theorem decodingsFrom_next {context : C} {n pos : ℕ} {buf : List (BitVec 8)} {addr : U64}
    {d : Decoding C} (hd : d ∈ s.decodingsFrom context n pos buf addr) :
    d.walker.next = d.walker.addr + BitVec.ofNat 64 (s.fullLength d.node d.walker) := by
  induction n generalizing pos buf addr with
  | zero => cases hd
  | succ n ih =>
    unfold decodingsFrom at hd
    split_ifs at hd
    · cases hd
    · cases hresolve : s.resolve buf addr context with
      | none =>
        rw [hresolve] at hd
        cases hd
      | some r =>
        rw [hresolve] at hd
        obtain rfl | hd := List.mem_cons.mp hd
        · rfl
        · exact ih hd

/-- An instruction of a listing takes its slot in once just where its tree does. -/
theorem slotOnce_iff {bytes : List (BitVec 8)} {base : U64} {context : C} {d : Decoding C}
    (hd : d ∈ s.decodings bytes base context) :
    s.SlotOnce d ↔ s.SlotAgrees d.node d.walker := by
  have hlength : (s.instruction d).bytes.length = s.fullLength d.node d.walker := length_cover _ _
  unfold SlotOnce
  dsimp only
  rw [hlength, longer_iff_inlined]
  exact and_iff_right (decodingsFrom_next hd)

/-- A template without labels. -/
def noLabel (ops : List OpTpl) (h : ∀ op ∈ ops, op.labelId = none ∧ op.relativeId = none) :
    ConstructTpl where
  ops := ops
  numlabels := 0
  result := none
  label_lt := fun op hop id hid => by
    rw [(h op hop).1] at hid
    cases hid
  relative_lt := fun op hop id hid => by
    rw [(h op hop).2] at hid
    cases hid
  label_nodup := by
    rw [List.filterMap_eq_nil_iff.mpr fun op hop => (h op hop).1]
    exact List.nodup_nil

/-- A branch of two bytes, with the directive in its sub-constructor or in itself, and a nop. -/
def slotSpec (nested : Bool) : Spec Unit where
  tmpl := fun _ ctorIdx =>
    match ctorIdx, nested with
    | 0, true => some (noLabel [⟨opBuild, none, [⟨.real 0, .real 0, .real 4⟩]⟩] (by decide))
    | 0, false | 1, _ => some (noLabel [⟨opDelaySlot, none, []⟩] (by decide))
    | _, _ => none
  resolve := fun buf _ c =>
    if buf.head? = some 0 then some (.mk 0 0 0 2 [.sub (.mk 1 1 0 2 [])], c)
    else some (.mk 0 2 0 1 [], c)
  leafHandle := fun _ _ _ _ => none
  exprValue := fun _ _ _ _ => (0, 0)
  defaultSpace := 1
  defaultSpaceSize := 4
  uniqueSpace := 2
  spaceName := fun v => if v = 0 then "const" else "ram"
  wrapOffset := fun _ offset => offset

/-- The branch at the start of `0 0 1`, which ends at `next`. -/
def slotBranch (next : U64) : Decoding Unit :=
  ⟨.mk 0 0 0 2 [.sub (.mk 1 1 0 2 [])], ⟨0, [0, 0, 1], 0, (), next⟩⟩

theorem decodings_root : (slotSpec false).decodings [0, 0, 1] 0 () = [slotBranch 3] := rfl

/-- With the directive in the root, the nop is part of the branch. -/
theorem slotOnce_root : slotBranch 3 ∈ (slotSpec false).decodings [0, 0, 1] 0 () ∧
    ((slotSpec false).SlotOnce (slotBranch 3) ↔
      (slotSpec false).SlotAgrees (slotBranch 3).node (slotBranch 3).walker) :=
  have hd : slotBranch 3 ∈ (slotSpec false).decodings [0, 0, 1] 0 () := by
    rw [decodings_root]
    exact List.mem_cons_self
  ⟨hd, slotOnce_iff hd⟩

/-- With it in the sub-constructor the nop is inlined and decoded again. -/
theorem slotOnce_nested : ¬ ∀ d ∈ (slotSpec true).decodings [0, 0, 1] 0 (),
    (slotSpec true).SlotOnce d := by
  intro h
  have hlisting : (slotBranch 2) ∈ (slotSpec true).decodings [0, 0, 1] 0 () :=
    List.mem_of_getElem? (i := 0) rfl
  obtain ⟨-, hlonger, -⟩ := h _ hlisting
  have hinlined : ((slotSpec true).expand (slotBranch 2).node (slotBranch 2).walker).trace.inlined =
      [2] := by decide
  have hbytes : ((slotSpec true).instruction (slotBranch 2)).bytes.length = 2 := by decide
  rw [hinlined, hbytes] at hlonger
  exact absurd (hlonger.mpr (by decide)) (by decide)

end Spec
end Sleigh
end Mosura
