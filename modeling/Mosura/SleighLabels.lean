import Mosura.SleighBuild

/-! The labels of an instruction's p-code: what a tree expands to, and where its branches go. -/

namespace Mosura
namespace Sleigh

/-- What a tree expands to, before any label has an id: the operations of a template in order, and
the expansions in between. -/
inductive Expansion
  | done
  /-- The return at a branch whose inputs do not resolve. -/
  | stop
  | label (id : ℕ) (rest : Expansion)
  | branch (id size : ℕ) (op : PcodeOp) (rest : Expansion)
  | emit (ops : List PcodeOp) (rest : Expansion)
  | inline (pos : ℕ) (rest : Expansion)
  | build (numlabels : ℕ) (inner rest : Expansion)

namespace Expansion

def stops : Expansion → Bool
  | done => false
  | stop => true
  | label _ rest | branch _ _ _ rest | emit _ rest | inline _ rest | build _ _ rest => rest.stops

/-- How many label ids the expansions inside take. -/
def ids : Expansion → ℕ
  | done | stop => 0
  | label _ rest | branch _ _ _ rest | emit _ rest | inline _ rest => rest.ids
  | build numlabels inner rest => numlabels + inner.ids + rest.ids

/-- The labels set at this level. -/
def ownLabels : Expansion → List ℕ
  | done | stop => []
  | label id rest => id :: rest.ownLabels
  | branch _ _ _ rest | emit _ rest | inline _ rest | build _ _ rest => rest.ownLabels

/-- Each expansion names labels of its own, sets each once and branches through a variable. -/
def Declared : Expansion → ℕ → Prop
  | done, _ | stop, _ => True
  | label id rest, n => id < n ∧ id ∉ rest.ownLabels ∧ rest.Declared n
  | branch id _ op rest, n => id < n ∧ (∃ v ins, op.ins = .var v :: ins) ∧ rest.Declared n
  | emit _ rest, n | inline _ rest, n => rest.Declared n
  | build numlabels inner rest, n => inner.Declared numlabels ∧ rest.Declared n

/-- An expansion that returns in the middle does so where no label id was given since its parent
began; `given` counts these. -/
def KeepsBase : Expansion → ℕ → Prop
  | done, _ | stop, _ => True
  | label _ rest, given | branch _ _ _ rest, given | emit _ rest, given | inline _ rest, given =>
    rest.KeepsBase given
  | build numlabels inner rest, given =>
    (inner.stops = true → given = 0) ∧ inner.KeepsBase numlabels ∧
      rest.KeepsBase (given + numlabels + inner.ids)

/-- What `build_into` does along an expansion. -/
def run : Expansion → ℕ → Build → Build
  | done, _, b | stop, _, b => b
  | label id rest, inst, b => rest.run inst (b.define inst id)
  | branch id size op rest, inst, b => rest.run inst (b.branch inst id size op)
  | emit ops rest, inst, b => rest.run inst (b.emit ops)
  | inline pos rest, inst, b => rest.run inst (b.inline pos)
  | build numlabels inner rest, inst, b =>
    let b' := inner.run b.trace.blocks.length (b.enter numlabels)
    rest.run inst (b'.leave b.base (if inner.stops then b'.base else b.base))

end Expansion

namespace Spec
open Expansion

variable {C : Type} (s : Spec C)

/-- The expansion of a tree, followed by `rest`. -/
abbrev Planner (C : Type) := Walker C → Expansion → Expansion

def planOp (node : Node) (subs : List (Option (Planner C))) (slot : Planner C) (w : Walker C)
    (op : OpTpl) (rest : Expansion) : Expansion :=
  match s.directive (s.handles node w) w op with
  | .build idx =>
    match subs[idx.toNat]? with
    | some (some sub) => sub w rest
    | _ => rest
  | .delaySlot =>
    let len := max 1 node.length
    if len < w.buf.length then slot (w.ahead len) rest else rest
  | .label id => .label id.toNat rest
  | .skip => rest
  | .branch id size op => .branch id.toNat size op rest
  | .stop => .stop
  | .emit ops => .emit ops rest

def planInto (node : Node) (subs : List (Option (Planner C))) (slot : Planner C) : Planner C :=
  fun w rest =>
    match s.ctorOf node with
    | none => rest
    | some tmpl =>
      .build tmpl.numlabels (tmpl.ops.foldr (s.planOp node subs slot w) .done) rest

mutual
def planNode (slot : Planner C) : Node → Planner C
  | .mk subtable ctorIdx offset length operands =>
    s.planInto (.mk subtable ctorIdx offset length operands) (planOperands slot operands) slot
def planOperands (slot : Planner C) : List OpNode → List (Option (Planner C))
  | [] => []
  | .sub node :: rest => some (planNode slot node) :: planOperands slot rest
  | .leaf _ _ _ :: rest => none :: planOperands slot rest
  | .expr _ _ _ :: rest => none :: planOperands slot rest
end

def planSlot : ℕ → Planner C
  | 0, _, rest => rest
  | k + 1, w, rest =>
    match s.resolve w.buf w.addr w.context with
    | some (node, context) =>
      .inline w.pos (s.planNode (planSlot k) node
        { w with context, next := w.addr + BitVec.ofNat 64 (max 1 node.length) } rest)
    | none => rest

/-- What a whole instruction expands to. -/
def plan (node : Node) (w : Walker C) : Expansion :=
  s.planNode (s.planSlot w.buf.length) node w .done

/-! The code follows the expansion. -/

/-- A planner plans what a builder does. -/
def Plans (p : Planner C) (f : Builder C) : Prop :=
  ∀ w rest, (p w rest).stops = rest.stops ∧
    ∀ inst b, (p w rest).run inst b = rest.run inst (f w b)

/-- The planners of the operands plan what the builders do. -/
abbrev PlansAll : List (Option (Planner C)) → List (Option (Builder C)) → Prop :=
  List.Forall₂ (Option.Rel Plans)

variable {s} {node : Node} {w : Walker C} {p : Planner C} {f : Builder C}
  {ps : List (Option (Planner C))} {fs : List (Option (Builder C))}

/-- An operand is a sub-constructor in both lists, or in neither. -/
theorem operand_cases {α β : Type} {R : α → β → Prop} {as : List (Option α)} {bs : List (Option β)}
    (h : List.Forall₂ (Option.Rel R) as bs) (i : ℕ) :
    (∃ a b, as[i]? = some (some a) ∧ bs[i]? = some (some b) ∧ R a b) ∨
      (∀ a, as[i]? ≠ some (some a)) ∧ ∀ b, bs[i]? ≠ some (some b) := by
  induction h generalizing i with
  | nil => exact .inr ⟨nofun, nofun⟩
  | cons hR _ ih =>
    cases i with
    | succ i => exact ih i
    | zero =>
      cases hR with
      | some hab => exact .inl ⟨_, _, rfl, rfl, hab⟩
      | none => exact .inr ⟨nofun, nofun⟩

/-- An operand without a sub-constructor adds nothing to what follows. -/
theorem planned_none {i : ℕ} {rest : Expansion} (h : ∀ sub, ps[i]? ≠ some (some sub)) :
    (match ps[i]? with
      | some (some sub) => sub w rest
      | _ => rest) = rest := by
  split
  · rename_i hget
    exact absurd hget (h _)
  · rfl

/-- An operand without a sub-constructor emits nothing. -/
theorem built_none {i : ℕ} {b : Build} (h : ∀ sub, fs[i]? ≠ some (some sub)) :
    (match fs[i]? with
      | some (some sub) => (.ok (sub w b) : Except Build Build)
      | _ => .ok b) = .ok b := by
  split
  · rename_i hget
    exact absurd hget (h _)
  · rfl

theorem buildOp_cases (hsubs : PlansAll ps fs) (hslot : Plans p f) (inst : ℕ) (b : Build)
    (op : OpTpl) (rest : Expansion) :
    (∃ b', s.buildOp node fs f inst w b op = .ok b' ∧
      (s.planOp node ps p w op rest).stops = rest.stops ∧
      (s.planOp node ps p w op rest).run inst b = rest.run inst b') ∨
    (s.buildOp node fs f inst w b op = .error b ∧ s.planOp node ps p w op rest = .stop) := by
  unfold buildOp planOp
  cases s.directive (s.handles node w) w op with
  | build idx =>
    dsimp only
    obtain ⟨p', f', hp, hf, hplans⟩ | ⟨hp, hf⟩ := operand_cases hsubs idx.toNat
    · rw [hp, hf]
      obtain ⟨hstops, hrun⟩ := hplans w rest
      exact .inl ⟨_, rfl, hstops, hrun inst b⟩
    · rw [planned_none hp]
      exact .inl ⟨b, built_none hf, rfl, rfl⟩
  | delaySlot =>
    dsimp only
    split_ifs
    · obtain ⟨hstops, hrun⟩ := hslot (w.ahead (max 1 node.length)) rest
      exact .inl ⟨_, rfl, hstops, hrun inst b⟩
    · exact .inl ⟨b, rfl, rfl, rfl⟩
  | label id => exact .inl ⟨_, rfl, rfl, rfl⟩
  | skip => exact .inl ⟨b, rfl, rfl, rfl⟩
  | branch id size op => exact .inl ⟨_, rfl, rfl, rfl⟩
  | stop => exact .inr ⟨rfl, rfl⟩
  | emit ops => exact .inl ⟨_, rfl, rfl, rfl⟩

/-- The operations of a template one after the other. -/
theorem foldlM_buildOp (hsubs : PlansAll ps fs) (hslot : Plans p f) (inst : ℕ) (ops : List OpTpl)
    (b : Build) :
    ops.foldlM (s.buildOp node fs f inst w) b =
      if (ops.foldr (s.planOp node ps p w) .done).stops then
        .error ((ops.foldr (s.planOp node ps p w) .done).run inst b)
      else .ok ((ops.foldr (s.planOp node ps p w) .done).run inst b) := by
  induction ops generalizing b with
  | nil => rfl
  | cons op ops ih =>
    rw [List.foldlM_cons, List.foldr_cons]
    obtain ⟨b', hb, hstops, hrun⟩ | ⟨hb, hplan⟩ :=
      buildOp_cases hsubs hslot inst b op (ops.foldr (s.planOp node ps p w) .done)
    · rw [hb, hstops, hrun]
      exact ih b'
    · rw [hb, hplan]
      rfl

theorem plans_into (hsubs : PlansAll ps fs) (hslot : Plans p f) :
    Plans (s.planInto node ps p) (s.buildInto node fs f) := by
  intro w rest
  unfold planInto buildInto
  cases s.ctorOf node with
  | none => exact ⟨rfl, fun _ _ => rfl⟩
  | some tmpl =>
    refine ⟨rfl, fun inst b => ?_⟩
    dsimp only
    rw [foldlM_buildOp hsubs hslot, run]
    split_ifs <;> rfl

mutual
theorem plans_node (hslot : Plans p f) : ∀ node, Plans (s.planNode p node) (s.buildNode f node)
  | .mk _ _ _ _ operands => plans_into (plans_operands hslot operands) hslot
theorem plans_operands (hslot : Plans p f) :
    ∀ operands, PlansAll (s.planOperands p operands) (s.buildOperands f operands)
  | [] => .nil
  | .sub node :: rest => .cons (.some (plans_node hslot node)) (plans_operands hslot rest)
  | .leaf _ _ _ :: rest => .cons .none (plans_operands hslot rest)
  | .expr _ _ _ :: rest => .cons .none (plans_operands hslot rest)
end

theorem plans_slot (k : ℕ) : Plans (s.planSlot k) (s.buildSlot k) := by
  induction k with
  | zero => exact fun _ _ => ⟨rfl, fun _ _ => rfl⟩
  | succ k ih =>
    intro w rest
    unfold planSlot buildSlot
    cases s.resolve w.buf w.addr w.context with
    | none => exact ⟨rfl, fun _ _ => rfl⟩
    | some r =>
      obtain ⟨node, context⟩ := r
      obtain ⟨hstops, hrun⟩ := plans_node ih node
        { w with context, next := w.addr + BitVec.ofNat 64 (max 1 node.length) } rest
      exact ⟨hstops, fun inst b => hrun inst (b.inline w.pos)⟩

/-- The code does what the plan says. -/
theorem expand_eq (node : Node) (w : Walker C) : s.expand node w = (s.plan node w).run 0 {} :=
  ((plans_node (plans_slot _) node w .done).2 0 {}).symm

/-! What a plan declares. -/

section Declared

variable {handles : ℕ → Option Handle} {op : OpTpl}

theorem directive_label {id : U64} (h : s.directive handles w op = .label id) :
    op.labelId = some id := by
  unfold directive at h
  split_ifs at h
  · split at h
    · rename_i hid
      rw [hid, Directive.label.inj h]
    · cases h
  · split at h
    · dsimp only at h
      split at h <;> cases h
    · cases h
    · cases h

theorem directive_branch {id : U64} {size : ℕ} {o : PcodeOp}
    (h : s.directive handles w op = .branch id size o) :
    op.relativeId = some id ∧ ∃ v ins, o.ins = .var v :: ins := by
  unfold directive at h
  split_ifs at h
  · split at h <;> cases h
  · split at h
    · rename_i _ _ hid
      dsimp only at h
      split at h
      · obtain ⟨rfl, -, rfl⟩ := Directive.branch.inj h
        exact ⟨hid, _, _, rfl⟩
      · cases h
    · cases h
    · cases h

/-- A planner adds no label to the expansion it is in. -/
def DeclaredPlan (p : Planner C) : Prop :=
  ∀ w rest, (p w rest).ownLabels = rest.ownLabels ∧
    ∀ n, rest.Declared n → (p w rest).Declared n

variable (s node w) in
theorem planOp_cases (hsubs : ∀ p, some p ∈ ps → DeclaredPlan p) (hslot : DeclaredPlan p)
    (op : OpTpl) (rest : Expansion) :
    s.planOp node ps p w op rest = .stop ∨
    (∃ id, op.labelId = some id ∧ s.planOp node ps p w op rest = .label id.toNat rest) ∨
    (∃ id size o, op.relativeId = some id ∧ (∃ v ins, o.ins = .var v :: ins) ∧
      s.planOp node ps p w op rest = .branch id.toNat size o rest) ∨
    (s.planOp node ps p w op rest).ownLabels = rest.ownLabels ∧
      ∀ n, rest.Declared n → (s.planOp node ps p w op rest).Declared n := by
  unfold planOp
  cases hop : s.directive (s.handles node w) w op with
  | build idx =>
    refine .inr (.inr (.inr ?_))
    dsimp only
    split
    · rename_i sub hsub
      exact hsubs sub (List.mem_of_getElem? hsub) w rest
    · exact ⟨rfl, fun _ h => h⟩
  | delaySlot =>
    refine .inr (.inr (.inr ?_))
    dsimp only
    split_ifs
    · exact hslot (w.ahead (max 1 node.length)) rest
    · exact ⟨rfl, fun _ h => h⟩
  | label id => exact .inr (.inl ⟨id, directive_label hop, rfl⟩)
  | skip => exact .inr (.inr (.inr ⟨rfl, fun _ h => h⟩))
  | branch id size o =>
    obtain ⟨hid, hins⟩ := directive_branch hop
    exact .inr (.inr (.inl ⟨id, size, o, hid, hins, rfl⟩))
  | stop => exact .inl rfl
  | emit ops => exact .inr (.inr (.inr ⟨rfl, fun _ h => h⟩))

theorem declared_ops {ops : List OpTpl} {n : ℕ}
    (hsubs : ∀ p, some p ∈ ps → DeclaredPlan p) (hslot : DeclaredPlan p)
    (hlabel : ∀ op ∈ ops, ∀ id, op.labelId = some id → id.toNat < n)
    (hrelative : ∀ op ∈ ops, ∀ id, op.relativeId = some id → id.toNat < n)
    (hnodup : (ops.filterMap OpTpl.labelId).Nodup) :
    (ops.foldr (s.planOp node ps p w) .done).Declared n ∧
      ∀ k ∈ (ops.foldr (s.planOp node ps p w) .done).ownLabels,
        ∃ id ∈ ops.filterMap OpTpl.labelId, id.toNat = k := by
  induction ops with
  | nil => exact ⟨trivial, nofun⟩
  | cons op ops ih =>
    have hsub : (ops.filterMap OpTpl.labelId).Sublist ((op :: ops).filterMap OpTpl.labelId) :=
      (List.sublist_cons_self op ops).filterMap _
    obtain ⟨hdecl, hown⟩ := ih (fun o ho => hlabel o (List.mem_cons_of_mem _ ho))
      (fun o ho => hrelative o (List.mem_cons_of_mem _ ho)) (hnodup.sublist hsub)
    have hown' : ∀ k ∈ (ops.foldr (s.planOp node ps p w) .done).ownLabels,
        ∃ id ∈ (op :: ops).filterMap OpTpl.labelId, id.toNat = k := fun k hk =>
      (hown k hk).imp fun id h => ⟨hsub.subset h.1, h.2⟩
    rw [List.foldr_cons]
    have hcases := planOp_cases s node w hsubs hslot op
      (ops.foldr (s.planOp node ps p w) .done)
    obtain hstop | ⟨id, hid, hlab⟩ | ⟨id, size, o, hid, hins, hbr⟩ | ⟨hlabels, hkeep⟩ := hcases
    · rw [hstop]
      exact ⟨trivial, nofun⟩
    · have hcons : (op :: ops).filterMap OpTpl.labelId = id :: ops.filterMap OpTpl.labelId :=
        List.filterMap_cons_some hid
      rw [hcons] at hnodup
      rw [hlab]
      refine ⟨⟨hlabel op List.mem_cons_self id hid, fun hmem => ?_, hdecl⟩, fun k hk => ?_⟩
      · obtain ⟨id', hid', heq⟩ := hown _ hmem
        exact (List.nodup_cons.mp hnodup).1 (BitVec.eq_of_toNat_eq heq ▸ hid')
      · obtain rfl | hk := List.mem_cons.mp hk
        · exact ⟨id, hcons ▸ List.mem_cons_self, rfl⟩
        · exact hown' k hk
    · rw [hbr]
      exact ⟨⟨hrelative op List.mem_cons_self id hid, hins, hdecl⟩, hown'⟩
    · rw [hlabels]
      exact ⟨hkeep n hdecl, hown'⟩

theorem declared_into (hsubs : ∀ p, some p ∈ ps → DeclaredPlan p) (hslot : DeclaredPlan p) :
    DeclaredPlan (s.planInto node ps p) := by
  intro w rest
  unfold planInto
  cases s.ctorOf node with
  | none => exact ⟨rfl, fun _ h => h⟩
  | some tmpl =>
    exact ⟨rfl, fun n h => ⟨(declared_ops hsubs hslot tmpl.label_lt tmpl.relative_lt
      tmpl.label_nodup).1, h⟩⟩

mutual
theorem declared_node (hslot : DeclaredPlan p) : ∀ node, DeclaredPlan (s.planNode p node)
  | .mk _ _ _ _ operands => declared_into (declared_operands hslot operands) hslot
theorem declared_operands (hslot : DeclaredPlan p) :
    ∀ operands, ∀ p', some p' ∈ s.planOperands p operands → DeclaredPlan p'
  | [], _, h => by cases h
  | .sub node :: rest, p', h => by
    obtain heq | h := List.mem_cons.mp h
    · rw [Option.some.inj heq]
      exact declared_node hslot node
    · exact declared_operands hslot rest p' h
  | .leaf _ _ _ :: rest, p', h => by
    obtain heq | h := List.mem_cons.mp h
    · cases heq
    · exact declared_operands hslot rest p' h
  | .expr _ _ _ :: rest, p', h => by
    obtain heq | h := List.mem_cons.mp h
    · cases heq
    · exact declared_operands hslot rest p' h
end

theorem declared_slot (k : ℕ) : DeclaredPlan (s.planSlot k) := by
  induction k with
  | zero => exact fun _ _ => ⟨rfl, fun _ h => h⟩
  | succ k ih =>
    intro w rest
    unfold planSlot
    cases s.resolve w.buf w.addr w.context with
    | none => exact ⟨rfl, fun _ h => h⟩
    | some r => exact declared_node ih r.1 _ rest

/-- In every plan each expansion names labels of its own. -/
theorem declared_plan (node : Node) (w : Walker C) : (s.plan node w).Declared 0 :=
  (declared_node (declared_slot _) node w .done).2 0 trivial

end Declared

end Spec
end Sleigh
end Mosura
