import Mosura.RuleValues

/-! Graphs given by the lists of their records, and a test for what the rules take for granted of a
graph and of the values in it. -/

namespace Mosura

section Sizes

variable (ins : List ℕ) (so : ℕ)

/-- A list with one entry as a bounded search. -/
theorem exists_one_iff (p : ℕ → Prop) : (∃ s ∈ ins, ins = [s] ∧ p s) ↔ ∃ s, ins = [s] ∧ p s := by
  constructor
  · rintro ⟨s, -, h⟩
    exact ⟨s, h⟩
  · rintro ⟨s, rfl, h⟩
    exact ⟨s, List.mem_singleton_self s, rfl, h⟩

theorem exists_two_iff (p : ℕ → ℕ → Prop) : (∃ s ∈ ins, ∃ t ∈ ins, ins = [s, t] ∧ p s t) ↔
    ∃ s t, ins = [s, t] ∧ p s t := by
  constructor
  · rintro ⟨s, -, t, -, h⟩
    exact ⟨s, t, h⟩
  · rintro ⟨s, t, rfl, h⟩
    exact ⟨s, by simp, t, by simp, rfl, h⟩

instance decidableExtends : Decidable (∃ s, ins = [s] ∧ s < so) :=
  decidable_of_iff _ (exists_one_iff ins (· < so))

instance decidableOne : Decidable (∃ s, ins = [s]) :=
  decidable_of_iff _ ((exists_one_iff ins fun _ => True).trans (by simp))

instance decidableCompares : Decidable ((∃ s, ins = [s, s]) ∧ so = 1) :=
  decidable_of_iff ((∃ s ∈ ins, ∃ t ∈ ins, ins = [s, t] ∧ s = t) ∧ so = 1)
    (and_congr_left fun _ => (exists_two_iff ins (· = ·)).trans (by simp))

instance decidableShifts : Decidable (∃ t, ins = [so, t]) :=
  decidable_of_iff _ ((exists_two_iff ins fun s _ => s = so).trans (by simp))

instance decidablePieces : Decidable (∃ s t, ins = [s, t] ∧ s + t = so) :=
  decidable_of_iff _ (exists_two_iff ins (· + · = so))

instance decidableTruncates : Decidable (∃ s t, ins = [s, t] ∧ so ≤ s) :=
  decidable_of_iff _ (exists_two_iff ins fun s _ => so ≤ s)

instance decidableSizesOk (code : OpCode) : Decidable (sizesOk code ins so) :=
  match code with
  | .copy | .cast | .intNegate | .int2comp => inferInstanceAs (Decidable (ins = [so]))
  | .intZext | .intSext => decidableExtends ins so
  | .popcount | .lzcount => decidableOne ins
  | .boolNegate => inferInstanceAs (Decidable (ins = [1] ∧ so = 1))
  | .intEqual | .intNotequal | .intLess | .intLessequal | .intSless | .intSlessequal
  | .intCarry | .intScarry | .intSborrow => decidableCompares ins so
  | .intAdd | .intSub | .intXor | .intAnd | .intOr | .intMult | .intDiv | .intSdiv
  | .intRem | .intSrem => inferInstanceAs (Decidable (ins = [so, so]))
  | .intLeft | .intRight | .intSright => decidableShifts ins so
  | .boolXor | .boolAnd | .boolOr => inferInstanceAs (Decidable (ins = [1, 1] ∧ so = 1))
  | .piece => decidablePieces ins so
  | .subpiece => decidableTruncates ins so
  | .multiequal => inferInstanceAs (Decidable (∀ s ∈ ins, s = so))
  | .load | .store | .branch | .cbranch | .branchind | .call | .callind | .callother | .return
  | .floatEqual | .floatNotequal | .floatLess | .floatLessequal | .floatNan | .floatAdd | .floatDiv
  | .floatMult | .floatSub | .floatNeg | .floatAbs | .floatSqrt | .floatInt2float
  | .floatFloat2float | .floatTrunc | .floatCeil | .floatFloor | .floatRound | .indirect | .ptradd
  | .ptrsub | .segmentop | .cpoolref | .new | .insert | .extract => isTrue trivial

end Sizes

namespace Funcdata

/-- The graph of two lists of records: a varnode or op is its position, those past the end are
blank. -/
def ofLists (vns : List Varnode) (ops : List PcodeOp) (blocks : List BlockBasic) : Funcdata where
  spaces := SpaceManager.standard false
  vn v := vns.getD v default
  numVarnodes := vns.length
  op o := ops.getD o default
  numOps := ops.length
  blocks := blocks

section Checks

variable (vns : List Varnode) (ops : List PcodeOp)

/-- The record of a varnode agrees with the ops. -/
def VarnodeChecked (v : VarnodeId) (x : Varnode) : Prop :=
  (∀ o ∈ x.descend, o < ops.length) ∧
    (∀ o < ops.length, x.descend.count o = (ops.getD o default).inrefs.count v) ∧
    (x.defOp.all fun o => decide (o < ops.length ∧ (ops.getD o default).output = some v)) ∧
    x.insert = (x.written || x.input) ∧ x.written = x.defOp.isSome ∧
    (x.constant = true → x.descend.length ≤ 1 ∧ x.written = false ∧
      x.constantValue.toNat < 2 ^ (8 * x.size))

/-- The record of an op agrees with the varnodes, and is p-code. -/
def OpChecked (o : OpId) (x : PcodeOp) : Prop :=
  (∀ v ∈ x.inrefs, v < vns.length ∧ 0 < (vns.getD v default).size) ∧
    (x.output.all fun v => decide (v < vns.length ∧ (vns.getD v default).defOp = some o ∧
      0 < (vns.getD v default).size ∧
      sizesOk x.opcode (x.inrefs.map fun u => (vns.getD u default).size)
        (vns.getD v default).size)) ∧
    (x.dead = true → x.inrefs = []) ∧
    (x.opcode = .subpiece → (x.inrefs[1]?).any fun u => (vns.getD u default).constant) ∧
    (x.dead = false → x.opcode.hasSemantics = true → x.output.isSome)

instance (v : VarnodeId) (x : Varnode) : Decidable (VarnodeChecked ops v x) := by
  unfold VarnodeChecked
  infer_instance

instance (o : OpId) (x : PcodeOp) : Decidable (OpChecked vns o x) := by
  unfold OpChecked
  infer_instance

/-- All records check. -/
def ListsChecked : Prop :=
  (∀ v < vns.length, VarnodeChecked ops v (vns.getD v default)) ∧
    ∀ o < ops.length, OpChecked vns o (ops.getD o default)

instance : Decidable (ListsChecked vns ops) := by
  unfold ListsChecked
  infer_instance

/-- The values of the varnodes, in order. -/
def valuesOf (values : List ℕ) (v : VarnodeId) : ℕ := values.getD v 0

/-- The values fit, the masks cover them, and every op has computed its own. -/
def ValuesChecked (blocks : List BlockBasic) (values : List ℕ) : Prop :=
  values.length ≤ vns.length ∧
    (∀ v < vns.length, (ofLists vns ops blocks).valueOf (valuesOf values) v <
      2 ^ (8 * (vns.getD v default).size)) ∧
    (∀ v < vns.length, Window.Covers (vns.getD v default).nzm
      ((ofLists vns ops blocks).valueOf (valuesOf values) v)) ∧
    ∀ d < ops.length, (ops.getD d default).output.all fun out =>
      decide ((ops.getD d default).opcode = .multiequal ∨
        OpResult (ops.getD d default).opcode (ops.getD d default).calculatedBool
          ((ofLists vns ops blocks).operandsOf (valuesOf values) d) (vns.getD out default).size
          ((ofLists vns ops blocks).valueOf (valuesOf values) out))

instance (blocks : List BlockBasic) (values : List ℕ) :
    Decidable (ValuesChecked vns ops blocks values) := by
  unfold ValuesChecked
  infer_instance

end Checks

variable {vns : List Varnode} {ops : List PcodeOp} {blocks : List BlockBasic} {values : List ℕ}

theorem getD_of_le {α : Type} [Inhabited α] {l : List α} {i : ℕ} (h : l.length ≤ i) :
    l.getD i default = default := by
  rw [List.getD_eq_getElem?_getD, List.getElem?_eq_none h]
  rfl

variable (h : ListsChecked vns ops)
include h

theorem linked_ofLists : (ofLists vns ops blocks).Linked where
  blankVn v hv := by
    change (vns.getD v default).descend = [] ∧ (vns.getD v default).defOp = none
    rw [getD_of_le hv]
    exact ⟨rfl, rfl⟩
  blankOp o ho := by
    change (ops.getD o default).inrefs = [] ∧ (ops.getD o default).output = none
    rw [getD_of_le ho]
    exact ⟨rfl, rfl⟩
  links v o := by
    change ((vns.getD v default).descend.count o : ℤ) = (ops.getD o default).inrefs.count v + 0
    rw [add_zero, Nat.cast_inj]
    rcases Nat.lt_or_ge o ops.length with ho | ho
    · rcases Nat.lt_or_ge v vns.length with hv | hv
      · exact (h.1 v hv).2.1 o ho
      · rw [getD_of_le hv, eq_comm]
        refine List.count_eq_zero.mpr fun hmem => ?_
        exact absurd ((h.2 o ho).1 v hmem).1 (not_lt.mpr hv)
    · rw [getD_of_le ho]
      refine List.count_eq_zero.mpr fun hmem => ?_
      rcases Nat.lt_or_ge v vns.length with hv | hv
      · exact absurd ((h.1 v hv).1 o hmem) (not_lt.mpr ho)
      · rw [getD_of_le hv] at hmem
        exact absurd hmem List.not_mem_nil
  dead o hd := by
    rcases Nat.lt_or_ge o ops.length with ho | ho
    · exact (h.2 o ho).2.2.1 hd
    · change (ops.getD o default).inrefs = []
      rw [getD_of_le ho]
      rfl
  defs v o := by
    change (vns.getD v default).defOp = some o ↔ (ops.getD o default).output = some v
    constructor
    · intro hd
      rcases Nat.lt_or_ge v vns.length with hv | hv
      · have hc := (h.1 v hv).2.2.1
        rw [hd] at hc
        exact (of_decide_eq_true hc).2
      · rw [getD_of_le hv] at hd
        cases hd
    · intro hout
      rcases Nat.lt_or_ge o ops.length with ho | ho
      · have hc := (h.2 o ho).2.1
        rw [hout] at hc
        exact (of_decide_eq_true hc).2.1
      · rw [getD_of_le ho] at hout
        cases hout
  insert v hv := (h.1 v hv).2.2.2.1
  written v hv := (h.1 v hv).2.2.2.2.1
  constant v hv hc _ := ((h.1 v hv).2.2.2.2.2 hc).1

theorem ruleGraph_ofLists : (ofLists vns ops blocks).RuleGraph where
  linked := linked_ofLists h
  opWf o out hout := by
    change (ops.getD o default).output = some out at hout
    rcases Nat.lt_or_ge o ops.length with ho | ho
    · obtain ⟨hin, hsizes, -, hsub, -⟩ := h.2 o ho
      rw [hout] at hsizes
      obtain ⟨-, -, hpos, hfit⟩ := of_decide_eq_true hsizes
      refine ⟨hfit, hpos, fun v hv => (hin v hv).2, fun hcode => ?_⟩
      have hany := hsub hcode
      cases hu : (ops.getD o default).inrefs[1]? with
      | none =>
        rw [hu] at hany
        cases hany
      | some u =>
      rw [hu] at hany
      change ((((ops.getD o default).inrefs[1]?).elim default
        fun v => vns.getD v default) : Varnode).constant = true
      rw [hu]
      exact hany
    · rw [getD_of_le ho] at hout
      cases hout
  computes o ho hd hsem := Option.isSome_iff_exists.mp ((h.2 o ho).2.2.2.2 hd hsem)
  const v hc := by
    rcases Nat.lt_or_ge v vns.length with hv | hv
    · exact ((h.1 v hv).2.2.2.2.2 hc).2
    · change (vns.getD v default).constant = true at hc
      rw [getD_of_le hv] at hc
      cases hc

omit h in
theorem size_ofLists {n : ℕ} (hn : 0 < n) (hlt : ∀ x ∈ vns, x.size < n) (v : VarnodeId) :
    ((ofLists vns ops blocks).vn v).size < n := by
  change (vns.getD v default).size < n
  rcases Nat.lt_or_ge v vns.length with hv | hv
  · rw [List.getD_eq_getElem _ _ hv]
    exact hlt _ (List.getElem_mem hv)
  · rw [getD_of_le hv]
    exact hn

omit h in
/-- Checked values are ones there can be at every op. -/
theorem valuesAt_ofLists (hv : ValuesChecked vns ops blocks values) (o : OpId) :
    (ofLists vns ops blocks).ValuesAt o (valuesOf values) where
  fits v := by
    rcases Nat.lt_or_ge v vns.length with hlt | hge
    · exact hv.2.1 v hlt
    · unfold valueOf
      change (if (vns.getD v default).constant = true then (vns.getD v default).constantValue.toNat
        else values.getD v 0) < 2 ^ (8 * (vns.getD v default).size)
      rw [getD_of_le hge, List.getD_eq_getElem?_getD, List.getElem?_eq_none (hv.1.trans hge)]
      exact Nat.one_pos
  masked := hv.2.2.1
  computed v _ d _ hphi out hout := by
    change (ops.getD d default).output = some out at hout
    rcases Nat.lt_or_ge d ops.length with hd | hd
    · have hc := hv.2.2.2 d hd
      rw [hout] at hc
      exact (of_decide_eq_true hc).resolve_left hphi
    · rw [getD_of_le hd] at hout
      cases hout

end Funcdata
end Mosura
