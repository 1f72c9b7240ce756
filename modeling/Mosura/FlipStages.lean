import Mosura.FlipCompare

/-! The graph while `op_flip_in_place_execute` works through its list. -/

namespace Mosura

/-- AND for OR and OR for AND. -/
def OpCode.dual : OpCode → OpCode
  | .boolAnd => .boolOr
  | .boolOr => .boolAnd
  | c => c

namespace Funcdata

section Defs

variable (f g : Funcdata) (cb : OpId) (flips done : List OpId)

/-- The ops that read the outputs of the list. -/
def Parent (o : OpId) : Prop := o = cb ∨ o ∈ flips ∧ (f.op o).opcode.isAndOr = true

/-- `g` reads `u` where `f` reads `v`: the same, or the operand of a BOOL_NEGATE that is gone. -/
def Reads (v u : VarnodeId) : Prop :=
  (u = v ∧ ∀ d ∈ done, (f.op d).opcode = .boolNegate → (f.op d).output ≠ some v) ∨
    ∃ d ∈ done, (f.op d).opcode = .boolNegate ∧ (f.op d).output = some v ∧
      ∃ w, (f.op d).input 0 = some w ∧ Stands f g w u

/-- A parent keeps its two slots, and an AND or OR that is done is the other of the two. -/
structure ParentKept (o : OpId) : Prop where
  output : (g.op o).output = (f.op o).output
  dead : (g.op o).dead = (f.op o).dead
  code : (g.op o).opcode = if o ∈ done then (f.op o).opcode.dual else (f.op o).opcode
  inrefs : ∃ a b ua ub, (f.op o).inrefs = [a, b] ∧ (g.op o).inrefs = [ua, ub] ∧
    Reads f g done a ua ∧ Reads f g done b ub

/-- `f` has become `g` when the ops of `done` are flipped. -/
structure Stage : Prop where
  linked : g.Linked
  keeps : Keeps f g
  other : ∀ o, o ∉ done → ¬f.Parent cb flips o → g.op o = f.op o
  parent : ∀ o, f.Parent cb flips o → ParentKept f g done o
  compare : ∀ x ∈ done, (f.op x).opcode.flipsAlone = true → (f.op x).opcode ≠ .boolNegate →
    Turned f g x
  negate : ∀ x ∈ done, (f.op x).opcode = .boolNegate → (g.op x).dead = true

/-- What the steps need of the graph and of the list. -/
structure FlipGraph : Prop where
  graph : f.RuleGraph
  floats : f.FloatGraph
  flippable : f.Flippable cb flips
  branch : (f.op cb).opcode = .cbranch
  noOutput : (f.op cb).output = none
  inrefs : ∃ t c, (f.op cb).inrefs = [t, c]

end Defs

variable {f g g' : Funcdata} {fl : FloatCompare} {env : VarnodeId → ℕ} {x y o r cb : OpId}
  {a b u v w : VarnodeId} {flips done : List OpId}

/-! What stays while other ops are flipped. -/

theorem truth_keeps (hk : Keeps g g') (hb : g.Bounded) (ho : g'.op x = g.op x) :
    g'.truth fl env x = g.truth fl env x := by
  unfold truth operandsOf
  rw [ho, List.map_congr_left fun v hv => hk.operandOf (hb x v hv)]

theorem valueOf_keeps (hk : Keeps g g') (hv : v < g.numVarnodes) :
    g'.valueOf env v = g.valueOf env v := congrArg Prod.snd (hk.operandOf hv)

theorem extreme_keeps (hk : Keeps g g') (hb : g.Bounded) (ho : g'.op x = g.op x) :
    g'.Extreme env x ↔ g.Extreme env x := by
  unfold Extreme
  rw [ho]
  refine and_congr_right fun _ => exists_congr fun a => exists_congr fun b =>
    and_congr_right fun hin => ?_
  have ha : a < g.numVarnodes := hb x a (by simp [hin])
  have hb' : b < g.numVarnodes := hb x b (by simp [hin])
  have hval {v : VarnodeId} (hv : v < g.numVarnodes) :
      (g'.vn v).constantValue = (g.vn v).constantValue := by
    unfold Varnode.constantValue
    rw [hk.loc v hv]
  rw [hk.constant a ha, hk.constant b hb', hk.size a ha, hk.size b hb', hval ha, hval hb',
    valueOf_keeps hk ha, valueOf_keeps hk hb']

/-- A comparison that is flipped stays as it is. -/
theorem Turned.later (h : Turned f g x) (hb : g.Bounded) (hk : Keeps g g')
    (ho : g'.op x = g.op x) : Turned f g' x where
  output := by rw [ho, h.output]
  dead := by rw [ho, h.dead]
  inrefs u hu := by
    rw [ho] at hu
    refine (h.inrefs u hu).imp_right fun hc => ?_
    rw [hk.constant u (hb x u hu), hc]
  truth fl env y hfit hy := by
    rw [truth_keeps hk hb ho]
    exact h.truth fl env y hfit hy

/-- A comparison that was not touched before is flipped as in the first graph. -/
theorem Turned.earlier (h : Turned g g' x) (hb : f.Bounded) (hk : Keeps f g)
    (ho : g.op x = f.op x) : Turned f g' x where
  output := by rw [h.output, ho]
  dead := by rw [h.dead, ho]
  inrefs u hu := by
    have hmem := h.inrefs u hu
    rwa [ho] at hmem
  truth fl env y hfit hy := by
    rw [← extreme_keeps hk hb ho]
    refine h.truth fl env y (fun v hv => ?_) ?_
    · rw [ho] at hv
      have hlt := hb x v hv
      rw [valueOf_keeps hk hlt, hk.size v hlt]
      exact hfit v hv
    · rw [truth_keeps hk hb ho]
      exact hy

theorem Reads.later (h : Reads f g done v u) (hk : Keeps g g')
    (hx : (f.op x).opcode = .boolNegate → (f.op x).output ≠ some v) :
    Reads f g' (x :: done) v u := by
  rcases h with ⟨rfl, hnot⟩ | ⟨d, hd, hcode, hout, w, hw, hs⟩
  · exact .inl ⟨rfl, List.forall_mem_cons.mpr ⟨hx, hnot⟩⟩
  · exact .inr ⟨d, List.mem_cons_of_mem x hd, hcode, hout, w, hw, hs.keeps hk⟩

theorem ParentKept.later (h : ParentKept f g done o) (hk : Keeps g g') (ho : g'.op o = g.op o)
    (hne : o ≠ x) (hx : (f.op x).opcode = .boolNegate → ∀ v ∈ (f.op o).inrefs,
      (f.op x).output ≠ some v) : ParentKept f g' (x :: done) o := by
  obtain ⟨a, b, ua, ub, hf, hg, ha, hb⟩ := h.inrefs
  refine ⟨by rw [ho, h.output], by rw [ho, h.dead], ?_, a, b, ua, ub, hf, ho ▸ hg,
    ha.later hk fun hcode => hx hcode a (by simp [hf]),
    hb.later hk fun hcode => hx hcode b (by simp [hf])⟩
  rw [ho, h.code]
  simp only [List.mem_cons, hne, false_or]

/-! The readers of an output that is to be flipped. -/

namespace FlipGraph

variable (h : FlipGraph f cb flips)
include h

/-- The output of an op of the list, and who reads it. -/
theorem output (hx : x ∈ flips) : ∃ w r, (f.op x).output = some w ∧ (f.vn w).descend = [r] ∧
    f.Parent cb flips r := by
  obtain ⟨r, hr, hparent⟩ := h.flippable.reader x hx
  obtain ⟨w, hw, hd⟩ := soleReader_spec hr
  exact ⟨w, r, hw, hd, hparent⟩

/-- A comparison or BOOL_NEGATE reads no output of the list. -/
theorem not_parent (hx : (f.op x).opcode.flipsAlone = true) : ¬f.Parent cb flips x := by
  rintro (rfl | ⟨-, hcode⟩)
  · rw [h.branch] at hx
    cases hx
  · exact OpCode.not_isAndOr hx hcode

/-- What is no parent reads no output of the list. -/
theorem not_read (hx : x ∈ flips) (hw : (f.op x).output = some w) (ho : ¬f.Parent cb flips o) :
    w ∉ (f.op o).inrefs := by
  intro hmem
  obtain ⟨w', r, hw', hd, hparent⟩ := h.output hx
  cases hw.symm.trans hw'
  have hread := h.graph.linked.mem_descend.mpr hmem
  rw [hd] at hread
  exact ho (List.mem_singleton.mp hread ▸ hparent)

/-- An AND or OR, and the branch, have two inputs. -/
theorem two_inputs (ho : f.Parent cb flips o) : ∃ a b, (f.op o).inrefs = [a, b] := by
  rcases ho with rfl | ⟨hmem, hcode⟩
  · exact h.inrefs
  · obtain ⟨w, -, hw, -⟩ := h.output hmem
    have hsz := h.graph.sizes hw
    have hsizes : ((f.op o).inrefs.map fun v => (f.vn v).size) = [1, 1] := by
      cases hc : (f.op o).opcode
      all_goals
        rw [hc] at hcode hsz
        first
          | exact hsz.1
          | cases hcode
    obtain ⟨a, b, hin, -⟩ := inrefs_two hsizes
    exact ⟨a, b, hin⟩

/-- The operand of a BOOL_NEGATE of the list. -/
theorem negate_input (hx : x ∈ flips) (hcode : (f.op x).opcode = .boolNegate) :
    ∃ v, (f.op x).inrefs = [v] := by
  obtain ⟨w, -, hw, -⟩ := h.output hx
  have hsz := h.graph.sizes hw
  rw [hcode] at hsz
  obtain ⟨v, hin, -⟩ := inrefs_one hsz.1
  exact ⟨v, hin⟩

/-- The ops of the list that compute one value are one op. -/
theorem output_inj (hx : (f.op x).output = some w) (hy : (f.op y).output = some w) : x = y :=
  Option.some.inj (((h.graph.linked.defs w x).mpr hx).symm.trans ((h.graph.linked.defs w y).mpr hy))

end FlipGraph

/-! One step. -/

theorem bool_of_flipsAlone {code : OpCode} (h : code.flipsAlone = true) :
    code.isBoolOutput = true := by
  cases code
  all_goals first
    | rfl
    | cases h

theorem Stage.start (h : FlipGraph f cb flips) : Stage f f cb flips [] where
  linked := h.graph.linked
  keeps := Keeps.refl f
  other _ _ _ := rfl
  parent o ho := by
    obtain ⟨a, b, hin⟩ := h.two_inputs ho
    refine ⟨rfl, rfl, by simp, a, b, a, b, hin, hin, ?_, ?_⟩
    all_goals exact .inl ⟨rfl, fun d hd => absurd hd List.not_mem_nil⟩
  compare _ hx := absurd hx List.not_mem_nil
  negate _ hx := absurd hx List.not_mem_nil

/-- A comparison comes next. -/
theorem Stage.compareStep (h : FlipGraph f cb flips) (hs : Stage f g cb flips done)
    (hx : x ∈ flips) (hnew : x ∉ done) (hcode : (f.op x).opcode.flipsAlone = true)
    (hne : (f.op x).opcode ≠ .boolNegate) :
    ∃ g', g.flipOp x = some g' ∧ Stage f g' cb flips (x :: done) := by
  have hself := hs.other x hnew (h.not_parent hcode)
  obtain ⟨w, -, hw, -⟩ := h.output hx
  have hbool := bool_of_flipsAlone hcode
  have hops : g.BoolOperands x := by
    have hf := boolOperands h.graph h.floats hw hbool
    obtain ⟨s, h0, hsize⟩ := hf.sizes
    refine ⟨by rw [hself]; exact hf.arity, s, h0, fun v hv => ?_⟩
    rw [hself] at hv
    rw [hs.keeps.size v (h.graph.linked.lt_of_mem_inrefs hv)]
    exact hsize v hv
  obtain ⟨g', hg', hflip⟩ := flipOp_compare hs.linked hops (by rw [hself]; exact hcode)
    (by rw [hself]; exact hne)
  have hb := hs.linked.bounded
  refine ⟨g', hg', hflip.linked, hs.keeps.trans hflip.keeps, fun o ho hp => ?_, fun o ho => ?_,
    List.forall_mem_cons.mpr ⟨fun _ _ => ?_, fun y hy hycode hyne => ?_⟩,
    List.forall_mem_cons.mpr ⟨fun he => absurd he hne, fun y hy hycode => ?_⟩⟩
  · rw [List.mem_cons, not_or] at ho
    rw [hflip.other o ho.1, hs.other o ho.2 hp]
  · have hox : o ≠ x := fun he => h.not_parent hcode (he ▸ ho)
    exact (hs.parent o ho).later hflip.keeps (hflip.other o hox) hox fun he => absurd he hne
  · exact hflip.turned.earlier h.graph.linked.bounded hs.keeps hself
  · have hyx : y ≠ x := fun he => hnew (he ▸ hy)
    exact (hs.compare y hy hycode hyne).later hb hflip.keeps (hflip.other y hyx)
  · have hyx : y ≠ x := fun he => hnew (he ▸ hy)
    rw [hflip.other y hyx]
    exact hs.negate y hy hycode

/-- An AND or OR comes next. -/
theorem Stage.connectStep (h : FlipGraph f cb flips) (hs : Stage f g cb flips done)
    (hx : x ∈ flips) (hnew : x ∉ done) (hcode : (f.op x).opcode.isAndOr = true) :
    ∃ g', g.flipOp x = some g' ∧ Stage f g' cb flips (x :: done) := by
  have hp : f.Parent cb flips x := .inr ⟨hx, hcode⟩
  have hkept := hs.parent x hp
  have hgcode : (g.op x).opcode = (f.op x).opcode := by rw [hkept.code, if_neg hnew]
  have hflip : g.flipOp x = some (g.opSetOpcode x (f.op x).opcode.dual) := by
    unfold flipOp
    rw [hgcode]
    cases hc : (f.op x).opcode
    all_goals
      rw [hc] at hcode
      first
        | rfl
        | cases hcode
  have hkeep := Keeps.opSetOpcode g x (f.op x).opcode.dual
  have hother (o : OpId) (ho : o ≠ x) := opSetOpcode_op_ne (f := g) ho (f.op x).opcode.dual
  have hself := opSetOpcode_op_self g x (f.op x).opcode.dual
  have hnot {c : OpCode} (hc : c.flipsAlone = true) : (f.op x).opcode ≠ c := by
    rintro rfl
    exact h.not_parent hc hp
  have hb := hs.linked.bounded
  refine ⟨_, hflip, hs.linked.opSetOpcode x _, hs.keeps.trans hkeep, fun o ho hpo => ?_,
    fun o ho => ?_, List.forall_mem_cons.mpr ⟨fun hc => absurd hp (h.not_parent hc),
      fun y hy hycode hyne => ?_⟩,
    List.forall_mem_cons.mpr ⟨fun he => absurd he (hnot rfl), fun y hy hycode => ?_⟩⟩
  · rw [List.mem_cons, not_or] at ho
    rw [hother o ho.1, hs.other o ho.2 hpo]
  · by_cases hox : o = x
    · subst hox
      obtain ⟨a, b, ua, ub, hf, hg, ha, hb⟩ := hkept.inrefs
      refine ⟨by rw [hself]; exact hkept.output, by rw [hself]; exact hkept.dead, ?_, a, b, ua, ub,
        hf, by rw [hself]; exact hg, ha.later hkeep fun he => absurd he (hnot rfl),
        hb.later hkeep fun he => absurd he (hnot rfl)⟩
      rw [hself, if_pos List.mem_cons_self]
    · exact (hs.parent o ho).later hkeep (hother o hox) hox fun he => absurd he (hnot rfl)
  · have hyx : y ≠ x := fun he => hnew (he ▸ hy)
    exact (hs.compare y hy hycode hyne).later hb hkeep (hother y hyx)
  · have hyx : y ≠ x := fun he => hnew (he ▸ hy)
    rw [hother y hyx]
    exact hs.negate y hy hycode

/-- An output that is not yet flipped is read by its parent alone. -/
theorem Stage.read_iff (h : FlipGraph f cb flips) (hs : Stage f g cb flips done)
    (hdone : ∀ y ∈ done, y ∈ flips) (hx : x ∈ flips) (hnew : x ∉ done)
    (hw : (f.op x).output = some w) : (∀ v u, Reads f g done v u → (u = w ↔ v = w)) ∧
      ∀ o, ¬f.Parent cb flips o → w ∉ (g.op o).inrefs := by
  have hdef := (h.graph.linked.defs w x).mpr hw
  have hlt := h.graph.output_lt hw
  have hvar : (g.vn w).constant = false := by
    rw [hs.keeps.constant w hlt]
    exact h.graph.not_constant_of_def hdef
  constructor
  · rintro v u (⟨rfl, -⟩ | ⟨d, hd, hcode, hout, z, hz, hstand⟩)
    · rfl
    · have hmem : z ∈ (f.op d).inrefs := List.mem_of_getElem? hz
      have hzw : z ≠ w := by
        rintro rfl
        exact h.not_read hx hw (h.not_parent (by rw [hcode]; rfl)) hmem
      have hvw : v ≠ w := by
        rintro rfl
        exact hnew (h.output_inj hout hw ▸ hd)
      refine iff_of_false ?_ hvw
      rintro rfl
      rcases hstand.same with ⟨he, -⟩ | ⟨hc, -⟩
      · exact hzw he.symm
      · rw [hvar] at hc
        cases hc
  · intro o ho hmem
    by_cases hod : o ∈ done
    · rcases h.flippable.kind o (hdone o hod) with hcode | hcode
      · by_cases hneg : (f.op o).opcode = .boolNegate
        · rw [hs.linked.dead o (hs.negate o hod hneg)] at hmem
          exact absurd hmem List.not_mem_nil
        · rcases (hs.compare o hod hcode hneg).inrefs w hmem with hin | hc
          · exact h.not_read hx hw ho hin
          · rw [hvar] at hc
            cases hc
      · exact ho (.inr ⟨hdone o hod, hcode⟩)
    · rw [hs.other o hod ho] at hmem
      exact h.not_read hx hw ho hmem

/-- The one reader of the output, and the slot where it reads it. -/
theorem Stage.reader (h : FlipGraph f cb flips) (hs : Stage f g cb flips done)
    (hdone : ∀ y ∈ done, y ∈ flips) (hx : x ∈ flips) (hnew : x ∉ done)
    (hw : (f.op x).output = some w) : ∃ r a b ua ub, f.Parent cb flips r ∧
      g.loneDescend w = some r ∧ (f.op r).inrefs = [a, b] ∧ (g.op r).inrefs = [ua, ub] ∧
      Reads f g done a ua ∧ Reads f g done b ub ∧ (ua = w ∧ a = w ∧ ub ≠ w ∧ b ≠ w ∨
        ub = w ∧ b = w ∧ ua ≠ w ∧ a ≠ w) := by
  obtain ⟨w', r, hw', hd, hparent⟩ := h.output hx
  cases hw.symm.trans hw'
  obtain ⟨hsame, hnone⟩ := hs.read_iff h hdone hx hnew hw
  obtain ⟨a, b, ua, ub, hf, hg, ha, hb⟩ := (hs.parent r hparent).inrefs
  have hcount : (f.op r).inrefs.count w = 1 := by
    rw [← h.graph.linked.count w r, hd]
    exact List.count_singleton_self
  have hslot : ua = w ∧ a = w ∧ ub ≠ w ∧ b ≠ w ∨ ub = w ∧ b = w ∧ ua ≠ w ∧ a ≠ w := by
    have hsa := hsame a ua ha
    have hsb := hsame b ub hb
    rw [hf, List.count_cons, List.count_cons, List.count_nil] at hcount
    by_cases haw : a = w
    · by_cases hbw : b = w
      · rw [haw, hbw] at hcount
        simp only [beq_self_eq_true, if_true] at hcount
        omega
      · exact .inl ⟨hsa.mpr haw, haw, fun he => hbw (hsb.mp he), hbw⟩
    · by_cases hbw : b = w
      · exact .inr ⟨hsb.mpr hbw, hbw, fun he => haw (hsa.mp he), haw⟩
      · simp only [beq_eq_false_iff_ne.mpr haw, beq_eq_false_iff_ne.mpr hbw, Bool.false_eq_true,
          if_false] at hcount
        omega
  have hgcount : (g.vn w).descend.count r = 1 := by
    rw [hs.linked.count, hg, List.count_cons, List.count_cons, List.count_nil]
    rcases hslot with ⟨hua, -, hub, -⟩ | ⟨hub, -, hua, -⟩
    · rw [hua, beq_self_eq_true, if_pos rfl, if_neg (by simpa using hub)]
    · rw [hub, beq_self_eq_true, if_pos rfl, if_neg (by simpa using hua)]
  have honly (o : OpId) (ho : o ∈ (g.vn w).descend) : o = r := by
    have hmem := hs.linked.mem_descend.mp ho
    by_contra hne
    by_cases hpo : f.Parent cb flips o
    · -- another parent would read the output in `f`, too
      obtain ⟨a', b', ua', ub', hf', hg', ha', hb'⟩ := (hs.parent o hpo).inrefs
      have hfmem : w ∈ (f.op o).inrefs := by
        rw [hg'] at hmem
        rw [hf']
        rcases List.mem_pair.mp hmem with he | he
        · exact List.mem_pair.mpr (.inl ((hsame a' ua' ha').mp he.symm).symm)
        · exact List.mem_pair.mpr (.inr ((hsame b' ub' hb').mp he.symm).symm)
      have hread := h.graph.linked.mem_descend.mpr hfmem
      rw [hd] at hread
      exact hne (List.mem_singleton.mp hread)
    · exact hnone o hpo hmem
  have hlist : (g.vn w).descend = [r] := by
    have hrep := List.eq_replicate_of_mem honly
    have hlen : (g.vn w).descend.length = 1 := by
      rw [hrep, List.count_replicate_self] at hgcount
      exact hgcount
    rw [hrep, hlen]
    rfl
  refine ⟨r, a, b, ua, ub, hparent, ?_, hf, hg, ha, hb, hslot⟩
  unfold loneDescend
  rw [hlist]

/-- A BOOL_NEGATE comes next: its reader reads its operand. -/
theorem Stage.negateStep (h : FlipGraph f cb flips) (hs : Stage f g cb flips done)
    (hdone : ∀ y ∈ done, y ∈ flips) (hx : x ∈ flips) (hnew : x ∉ done)
    (hcode : (f.op x).opcode = .boolNegate) :
    ∃ g', g.flipOp x = some g' ∧ Stage f g' cb flips (x :: done) := by
  have hxp : ¬f.Parent cb flips x := h.not_parent (by rw [hcode]; rfl)
  have hself := hs.other x hnew hxp
  obtain ⟨w, -, hw, -⟩ := h.output hx
  obtain ⟨z, hz⟩ := h.negate_input hx hcode
  obtain ⟨r, a, b, ua, ub, hparent, hlone, hf, hg, ha, hb, hslot⟩ :=
    hs.reader h hdone hx hnew hw
  have hzlt : z < f.numVarnodes := h.graph.linked.lt_of_mem_inrefs (by rw [hz]; simp)
  have hzlt' : z < g.numVarnodes := hzlt.trans_le hs.keeps.le
  -- the slot of the reader
  obtain ⟨slot, hidx, hslotlt, hset⟩ : ∃ slot, (g.op r).inrefs.idxOf? w = some slot ∧
      slot < (g.op r).inrefs.length ∧ ∀ u, ∃ va vb, (g.op r).inrefs.set slot u = [va, vb] ∧
        (va = u ∧ a = w ∧ vb = ub ∧ b ≠ w ∨ va = ua ∧ a ≠ w ∧ vb = u ∧ b = w) := by
    rw [hg]
    rcases hslot with ⟨hua, haw, -, hbw⟩ | ⟨hub, hbw, hua, haw⟩
    · refine ⟨0, ?_, Nat.zero_lt_two, fun u => ⟨u, ub, rfl, .inl ⟨rfl, haw, rfl, hbw⟩⟩⟩
      rw [hua, List.idxOf?_cons, if_pos (beq_self_eq_true w)]
    · refine ⟨1, ?_, Nat.one_lt_two, fun u => ⟨ua, u, rfl, .inr ⟨rfl, haw, rfl, hbw⟩⟩⟩
      rw [hub, List.idxOf?_cons, if_neg (by simpa using hua), List.idxOf?_cons,
        if_pos (beq_self_eq_true w)]
      rfl
  have hflip : g.flipOp x = some ((g.opSetInput r slot z).opDestroy x) := by
    unfold flipOp
    rw [hself, hcode]
    change (((f.op x).input 0).bind fun vn => _) = _
    rw [input_zero hz, Option.bind_some, hw]
    change ((g.loneDescend w).bind fun otherop => _) = _
    rw [hlone, Option.bind_some]
    change (((g.op r).inrefs.idxOf? w).bind fun slot => _) = _
    rw [hidx]
    rfl
  obtain ⟨u, hru, hstand⟩ := opSetInput_op_self g r hslotlt hzlt'
  have hrx : r ≠ x := fun he => hxp (he ▸ hparent)
  have hk1 := Keeps.opSetInput g r slot z
  have hk2 := Keeps.opDestroy (g.opSetInput r slot z) x
  have hkeep := hk1.trans hk2
  have hop (o : OpId) (ho : o ≠ x) :
      ((g.opSetInput r slot z).opDestroy x).op o = (g.opSetInput r slot z).op o := by
    rw [opDestroy_op, if_neg ho]
  have hother (o : OpId) (ho : o ≠ x) (hor : o ≠ r) :
      ((g.opSetInput r slot z).opDestroy x).op o = g.op o := by
    rw [hop o ho, opSetInput_op_ne hor]
  have hreads : Reads f ((g.opSetInput r slot z).opDestroy x) (x :: done) w u :=
    .inr ⟨x, List.mem_cons_self, hcode, hw, z, input_zero hz,
      (hstand.of_keeps hs.keeps hzlt).keeps hk2⟩
  have hnumx : x < (g.opSetInput r slot z).numOps := by
    rw [opSetInput_numOps]
    exact hs.linked.lt_of_output (by rw [hself]; exact hw)
  have hkept := hs.parent r hparent
  have hrdone (y : OpId) (hy : (f.op y).opcode.flipsAlone = true) : y ≠ r := by
    rintro rfl
    exact h.not_parent hy hparent
  refine ⟨_, hflip, (hs.linked.opSetInput hzlt' r).opDestroy hnumx, hs.keeps.trans hkeep,
    fun o ho hpo => ?_, fun o ho => ?_,
    List.forall_mem_cons.mpr ⟨fun _ he => absurd hcode he, fun y hy hycode hyne => ?_⟩,
    List.forall_mem_cons.mpr ⟨fun _ => ?_, fun y hy hycode => ?_⟩⟩
  · rw [List.mem_cons, not_or] at ho
    rw [hother o ho.1 fun he => hpo (he ▸ hparent), hs.other o ho.2 hpo]
  · have hox : o ≠ x := fun he => hxp (he ▸ ho)
    by_cases hor : o = r
    · subst hor
      obtain ⟨va, vb, hlist, hcase⟩ := hset u
      have hlater {v v' : VarnodeId} (hv : Reads f g done v v') (hvw : v ≠ w) :
          Reads f ((g.opSetInput o slot z).opDestroy x) (x :: done) v v' :=
        hv.later hkeep fun _ hout => hvw (Option.some.inj (hout.symm.trans hw))
      refine ⟨by rw [hop o hox, hru]; exact hkept.output, by rw [hop o hox, hru]; exact hkept.dead,
        ?_, a, b, va, vb, hf, by rw [hop o hox, hru]; exact hlist, ?_, ?_⟩
      · rw [hop o hox, hru]
        simp only [List.mem_cons, hox, false_or]
        exact hkept.code
      · rcases hcase with ⟨rfl, rfl, -⟩ | ⟨rfl, haw, -⟩
        · exact hreads
        · exact hlater ha haw
      · rcases hcase with ⟨-, -, rfl, hbw⟩ | ⟨-, -, rfl, rfl⟩
        · exact hlater hb hbw
        · exact hreads
    · refine (hs.parent o ho).later hkeep (hother o hox hor) hox fun _ v hv hout => ?_
      cases hw.symm.trans hout
      have hread := h.graph.linked.mem_descend.mpr hv
      obtain ⟨w', r', hw', hd, -⟩ := h.output hx
      cases hw.symm.trans hw'
      have hrmem : w ∈ (f.op r).inrefs := by
        rw [hf]
        rcases hslot with ⟨-, haw, -⟩ | ⟨-, hbw, -⟩
        · exact List.mem_pair.mpr (.inl haw.symm)
        · exact List.mem_pair.mpr (.inr hbw.symm)
      have hrread := h.graph.linked.mem_descend.mpr hrmem
      rw [hd] at hread hrread
      exact hor ((List.mem_singleton.mp hread).trans (List.mem_singleton.mp hrread).symm)
  · have hyx : y ≠ x := fun he => hnew (he ▸ hy)
    exact (hs.compare y hy hycode hyne).later hs.linked.bounded hkeep
      (hother y hyx (hrdone y hycode))
  · rw [opDestroy_op, if_pos rfl]
  · have hyx : y ≠ x := fun he => hnew (he ▸ hy)
    rw [hother y hyx (hrdone y (by rw [hycode]; rfl))]
    exact hs.negate y hy hycode

/-- The next op of the list is flipped without a panic. -/
theorem Stage.step (h : FlipGraph f cb flips) (hs : Stage f g cb flips done)
    (hdone : ∀ y ∈ done, y ∈ flips) (hx : x ∈ flips) (hnew : x ∉ done) :
    ∃ g', g.flipOp x = some g' ∧ Stage f g' cb flips (x :: done) := by
  rcases h.flippable.kind x hx with hcode | hcode
  · by_cases hneg : (f.op x).opcode = .boolNegate
    · exact hs.negateStep h hdone hx hnew hneg
    · exact hs.compareStep h hx hnew hcode hneg
  · exact hs.connectStep h hx hnew hcode

/-- The whole list is flipped. -/
theorem Stage.run (h : FlipGraph f cb flips) {l : List OpId} (hl : flips = done.reverse ++ l)
    (hs : Stage f g cb flips done) :
    ∃ g', g.opFlipInPlaceExecute l = some g' ∧ Stage f g' cb flips flips.reverse := by
  induction l generalizing g done with
  | nil =>
    rw [List.append_nil] at hl
    refine ⟨g, rfl, ?_⟩
    rw [hl, List.reverse_reverse, ← hl]
    exact hs
  | cons x l ih =>
    have hnodup := h.flippable.nodup
    have hdone : ∀ y ∈ done, y ∈ flips := fun y hy => by
      rw [hl]
      exact List.mem_append_left _ (List.mem_reverse.mpr hy)
    have hx : x ∈ flips := by
      rw [hl]
      exact List.mem_append_right _ List.mem_cons_self
    have hnew : x ∉ done := fun hmem => by
      rw [hl] at hnodup
      exact List.disjoint_of_nodup_append hnodup (List.mem_reverse.mpr hmem) List.mem_cons_self
    obtain ⟨g₁, hg₁, hs₁⟩ := hs.step h hdone hx hnew
    obtain ⟨g', hg', hs'⟩ := ih (show flips = (x :: done).reverse ++ l by
      rw [hl, List.reverse_cons, List.append_assoc]
      rfl) hs₁
    refine ⟨g', ?_, hs'⟩
    unfold opFlipInPlaceExecute at hg' ⊢
    rw [List.foldlM_cons, hg₁]
    exact hg'

end Funcdata
end Mosura
