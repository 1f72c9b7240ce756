import Mosura.FlipStages

/-! A condition that is flipped in place is negated, but where an extreme comparison decides it. -/

namespace Mosura
namespace Funcdata

section Defs

variable (f g : Funcdata) (fl : FloatCompare) (flips : List OpId) (env env' : VarnodeId → ℕ)

/-- The value is 0 and will be 0 when the ops it is computed by are flipped. -/
inductive Stuck : VarnodeId → Prop
  | compare {v : VarnodeId} {x : OpId} : (f.vn v).defOp = some x → f.Extreme env x → Stuck v
  | and_both {v a b : VarnodeId} {x : OpId} : (f.vn v).defOp = some x →
    (f.op x).opcode = .boolAnd → (f.op x).inrefs = [a, b] → Stuck a → Stuck b → Stuck v
  | and_left {v a b : VarnodeId} {x : OpId} : (f.vn v).defOp = some x →
    (f.op x).opcode = .boolAnd → (f.op x).inrefs = [a, b] → Stuck a → f.valueOf env b = 1 → Stuck v
  | and_right {v a b : VarnodeId} {x : OpId} : (f.vn v).defOp = some x →
    (f.op x).opcode = .boolAnd → (f.op x).inrefs = [a, b] → f.valueOf env a = 1 → Stuck b → Stuck v
  | or_left {v a b : VarnodeId} {x : OpId} : (f.vn v).defOp = some x →
    (f.op x).opcode = .boolOr → (f.op x).inrefs = [a, b] → Stuck a → f.valueOf env b = 0 → Stuck v
  | or_right {v a b : VarnodeId} {x : OpId} : (f.vn v).defOp = some x →
    (f.op x).opcode = .boolOr → (f.op x).inrefs = [a, b] → f.valueOf env a = 0 → Stuck b → Stuck v

open Classical in
/-- What becomes of the value of `v`. -/
noncomputable def flipValue (v : VarnodeId) : ℕ := if f.Stuck env v then 0 else 1 - f.valueOf env v

/-- `env'` are the values in `g` of an execution with the values `env` in `f`: the ops of the list that
are still there compute their outputs anew, all else is as it was. -/
structure Recomputed : Prop where
  same : ∀ v, (∀ x ∈ flips, (f.op x).output ≠ some v) → env' v = env v
  computed : ∀ x ∈ flips, (g.op x).dead = false → ∀ out, (g.op x).output = some out →
    g.truth fl env' x = some (g.valueOf env' out)

end Defs

variable {f g : Funcdata} {fl : FloatCompare} {env env' : VarnodeId → ℕ} {x y o cb : OpId}
  {a b c t u v w ua ub : VarnodeId} {flips done l : List OpId}

/-! Which values are stuck. -/

theorem flipValue_le_one : f.flipValue env v ≤ 1 := by
  unfold flipValue
  split_ifs
  · exact Nat.zero_le 1
  · exact Nat.sub_le 1 _

theorem stuck_compare_iff (hd : (f.vn v).defOp = some x)
    (hcode : (f.op x).opcode.flipsAlone = true) : f.Stuck env v ↔ f.Extreme env x := by
  constructor
  · intro h
    cases h with
    | compare hd' he => exact Option.some.inj (hd'.symm.trans hd) ▸ he
    | and_both hd' hand | and_left hd' hand | and_right hd' hand | or_left hd' hand
    | or_right hd' hand =>
      cases hd'.symm.trans hd
      rw [hand] at hcode
      cases hcode
  · exact .compare hd

theorem not_extreme_of_isAndOr (hcode : (f.op x).opcode.isAndOr = true) : ¬f.Extreme env x := by
  intro he
  rw [he.1] at hcode
  cases hcode

theorem stuck_and_iff (hd : (f.vn v).defOp = some x) (hcode : (f.op x).opcode = .boolAnd)
    (hin : (f.op x).inrefs = [a, b]) : f.Stuck env v ↔ f.Stuck env a ∧ f.Stuck env b ∨
      f.Stuck env a ∧ f.valueOf env b = 1 ∨ f.valueOf env a = 1 ∧ f.Stuck env b := by
  constructor
  · intro h
    cases h with
    | compare hd' he =>
      cases hd'.symm.trans hd
      exact absurd he (not_extreme_of_isAndOr (by rw [hcode]; rfl))
    | and_both hd' _ hin' ha hb =>
      cases hd'.symm.trans hd
      cases hin'.symm.trans hin
      exact .inl ⟨ha, hb⟩
    | and_left hd' _ hin' ha hb =>
      cases hd'.symm.trans hd
      cases hin'.symm.trans hin
      exact .inr (.inl ⟨ha, hb⟩)
    | and_right hd' _ hin' ha hb =>
      cases hd'.symm.trans hd
      cases hin'.symm.trans hin
      exact .inr (.inr ⟨ha, hb⟩)
    | or_left hd' hor | or_right hd' hor =>
      cases hd'.symm.trans hd
      exact absurd (hcode.symm.trans hor) nofun
  · rintro (⟨ha, hb⟩ | ⟨ha, hb⟩ | ⟨ha, hb⟩)
    · exact .and_both hd hcode hin ha hb
    · exact .and_left hd hcode hin ha hb
    · exact .and_right hd hcode hin ha hb

theorem stuck_or_iff (hd : (f.vn v).defOp = some x) (hcode : (f.op x).opcode = .boolOr)
    (hin : (f.op x).inrefs = [a, b]) : f.Stuck env v ↔
      f.Stuck env a ∧ f.valueOf env b = 0 ∨ f.valueOf env a = 0 ∧ f.Stuck env b := by
  constructor
  · intro h
    cases h with
    | compare hd' he =>
      cases hd'.symm.trans hd
      exact absurd he (not_extreme_of_isAndOr (by rw [hcode]; rfl))
    | or_left hd' _ hin' ha hb =>
      cases hd'.symm.trans hd
      cases hin'.symm.trans hin
      exact .inl ⟨ha, hb⟩
    | or_right hd' _ hin' ha hb =>
      cases hd'.symm.trans hd
      cases hin'.symm.trans hin
      exact .inr ⟨ha, hb⟩
    | and_both hd' hand | and_left hd' hand | and_right hd' hand =>
      cases hd'.symm.trans hd
      exact absurd (hcode.symm.trans hand) nofun
  · rintro (⟨ha, hb⟩ | ⟨ha, hb⟩)
    · exact .or_left hd hcode hin ha hb
    · exact .or_right hd hcode hin ha hb

section Values

variable (hgr : f.RuleGraph)
include hgr

/-- The two operands of an AND or OR and its result. -/
theorem andOr_values (hd : (f.vn v).defOp = some x) (hcode : (f.op x).opcode.isAndOr = true)
    (hin : (f.op x).inrefs = [a, b]) (hv : f.BoolValues fl env v) :
    f.BoolValues fl env a ∧ f.BoolValues fl env b ∧ f.valueOf env a ≤ 1 ∧ f.valueOf env b ≤ 1 ∧
      f.valueOf env v = connect (f.op x).opcode (f.valueOf env a) (f.valueOf env b) := by
  have hconn : (f.op x).opcode.isConnective = true := by
    cases hc : (f.op x).opcode
    all_goals
      rw [hc] at hcode
      first
        | rfl
        | cases hcode
  obtain ⟨a', b', ha, hb, hva, hvb, hle, hle', hval⟩ := connective_values hgr hd hconn hv
  cases (input_zero hin).symm.trans ha
  cases (input_one hin).symm.trans hb
  exact ⟨hva, hvb, hle, hle', hval⟩

variable (hfit : ∀ v, f.valueOf env v < 2 ^ (8 * (f.vn v).size))
include hfit

theorem Stuck.eq_zero (hfl : f.FloatGraph) (h : f.Stuck env v) (hv : f.BoolValues fl env v) :
    f.valueOf env v = 0 := by
  induction h with
  | @compare v x hd he =>
    have ho := hgr.output_of_def hd
    have hbool : (f.op x).opcode.isBoolOutput = true := by
      rw [he.1]
      rfl
    have hflip := flipOp_compare (g := f) (x := x) hgr.linked (boolOperands hgr hfl ho hbool)
      (by rw [he.1]; rfl) (by rw [he.1]; exact nofun)
    obtain ⟨g, -, hflip⟩ := hflip
    exact (hflip.turned.truth fl env _ (fun u _ => hfit u) (hv x (.here hd) hbool v ho)).1 he |>.1
  | and_both hd hcode hin _ _ iha ihb =>
    obtain ⟨hva, hvb, -, -, hval⟩ := andOr_values hgr hd (by rw [hcode]; rfl) hin hv
    rw [hval, hcode, iha hva, ihb hvb]
    rfl
  | and_left hd hcode hin _ hb iha =>
    obtain ⟨hva, -, -, -, hval⟩ := andOr_values hgr hd (by rw [hcode]; rfl) hin hv
    rw [hval, hcode, iha hva, hb]
    rfl
  | and_right hd hcode hin ha _ ihb =>
    obtain ⟨-, hvb, -, -, hval⟩ := andOr_values hgr hd (by rw [hcode]; rfl) hin hv
    rw [hval, hcode, ha, ihb hvb]
    rfl
  | or_left hd hcode hin _ hb iha =>
    obtain ⟨hva, -, -, -, hval⟩ := andOr_values hgr hd (by rw [hcode]; rfl) hin hv
    rw [hval, hcode, iha hva, hb]
    rfl
  | or_right hd hcode hin ha _ ihb =>
    obtain ⟨-, hvb, -, -, hval⟩ := andOr_values hgr hd (by rw [hcode]; rfl) hin hv
    rw [hval, hcode, ha, ihb hvb]
    rfl

/-- A flipped value is the negation of the old one unless it is stuck. -/
theorem flipValue_eq_iff (hfl : f.FloatGraph) (hv : f.BoolValues fl env v) :
    f.flipValue env v = 1 - f.valueOf env v ↔ ¬f.Stuck env v := by
  unfold flipValue
  split_ifs with h
  · rw [h.eq_zero hgr hfit hfl hv]
    exact iff_of_false (by decide) (not_not.mpr h)
  · exact iff_of_true rfl h

/-- De Morgan's laws, with operands that may be stuck. -/
theorem connect_flipValue (hfl : f.FloatGraph) (hd : (f.vn v).defOp = some x)
    (hcode : (f.op x).opcode.isAndOr = true) (hin : (f.op x).inrefs = [a, b])
    (hv : f.BoolValues fl env v) : connect (f.op x).opcode.dual (f.flipValue env a)
      (f.flipValue env b) = f.flipValue env v := by
  obtain ⟨hva, hvb, hle, hle', hval⟩ := andOr_values hgr hd hcode hin hv
  have ha (h : f.Stuck env a) := h.eq_zero hgr hfit hfl hva
  have hb (h : f.Stuck env b) := h.eq_zero hgr hfit hfl hvb
  have hA := Nat.le_one_iff_eq_zero_or_eq_one.mp hle
  have hB := Nat.le_one_iff_eq_zero_or_eq_one.mp hle'
  unfold flipValue
  rw [hval]
  cases hc : (f.op x).opcode
  case boolAnd =>
    have hs := (@stuck_and_iff _ env) hd hc hin
    by_cases sa : f.Stuck env a
    · have hA := ha sa
      by_cases sb : f.Stuck env b
      · simp [hs, sa, sb, connect, OpCode.dual]
      · rcases hB with hB | hB
        all_goals simp [hs, sa, sb, hA, hB, connect, OpCode.dual]
    · by_cases sb : f.Stuck env b
      · have hB := hb sb
        rcases hA with hA | hA
        all_goals simp [hs, sa, sb, hA, hB, connect, OpCode.dual]
      · rcases hA with hA | hA
        all_goals
          rcases hB with hB | hB
          all_goals simp [hs, sa, sb, hA, hB, connect, OpCode.dual]
  case boolOr =>
    have hs := (@stuck_or_iff _ env) hd hc hin
    by_cases sa : f.Stuck env a
    · have hA := ha sa
      by_cases sb : f.Stuck env b
      · have hB := hb sb
        simp [hs, sa, sb, hB, connect, OpCode.dual]
      · rcases hB with hB | hB
        all_goals simp [hs, sa, sb, hA, hB, connect, OpCode.dual]
    · by_cases sb : f.Stuck env b
      · have hB := hb sb
        rcases hA with hA | hA
        all_goals simp [hs, sa, sb, hA, hB, connect, OpCode.dual]
      · rcases hA with hA | hA
        all_goals
          rcases hB with hB | hB
          all_goals simp [hs, sa, sb, hA, hB, connect, OpCode.dual]
  all_goals
    rw [hc] at hcode
    cases hcode

end Values

/-! The values in the flipped graph. -/

section Flipped

variable (h : FlipGraph f cb flips)
include h

theorem reads_live (ho : (f.op x).output = some v)
    (hne : (f.op x).opcode ≠ .boolNegate) (hr : Reads f g flips.reverse v u) : u = v := by
  rcases hr with ⟨he, -⟩ | ⟨d, -, hcode, hout, -⟩
  · exact he
  · exact absurd (h.output_inj ho hout ▸ hcode) hne

/-- An input of a comparison or BOOL_NEGATE is no output of the list. -/
theorem leaf_input (hcode : (f.op x).opcode.flipsAlone = true) (hv : v ∈ (f.op x).inrefs)
    (hy : y ∈ flips) : (f.op y).output ≠ some v := fun ho =>
  h.not_read hy ho (h.not_parent hcode) hv

theorem alive_of_inrefs (hx : (f.op x).inrefs ≠ []) : (f.op x).dead = false := by
  by_contra hd
  exact hx (h.graph.linked.dead x (by simpa using hd))

variable (hs : Stage f g cb flips flips.reverse)
include hs

variable (hfit : ∀ v, f.valueOf env v < 2 ^ (8 * (f.vn v).size))
include hfit

/-- The result of the other of AND and OR, where it reads flipped values. -/
theorem connect_value (hx : x ∈ flips) (hcode : (f.op x).opcode.isAndOr = true)
    (ho : (f.op x).output = some v) (hin : (f.op x).inrefs = [a, b])
    (hin' : (g.op x).inrefs = [ua, ub]) (ha : g.valueOf env' ua = f.flipValue env a)
    (hb : g.valueOf env' ub = f.flipValue env b) (hv : f.BoolValues fl env v) :
    g.truth fl env' x = some (f.flipValue env v) := by
  have hd := (h.graph.linked.defs v x).mpr ho
  have hkept := hs.parent x (.inr ⟨hx, hcode⟩)
  have hgcode : (g.op x).opcode = (f.op x).opcode.dual := by
    rw [hkept.code, if_pos (List.mem_reverse.mpr hx)]
  rw [truth_of_inrefs hin', hgcode, ← connect_flipValue h.graph hfit h.floats hd hcode hin hv, ← ha,
    ← hb]
  have hle : g.valueOf env' ua ≤ 1 ∧ g.valueOf env' ub ≤ 1 := by
    rw [ha, hb]
    exact ⟨flipValue_le_one, flipValue_le_one⟩
  cases hc : (f.op x).opcode
  all_goals
    rw [hc] at hcode
    first
      | exact if_pos hle
      | cases hcode

variable (hsame : ∀ v, (∀ x ∈ flips, (f.op x).output ≠ some v) → env' v = env v)
include hsame

/-- The result of a flipped comparison. -/
theorem compare_value (hx : x ∈ flips) (hcode : (f.op x).opcode.flipsAlone = true)
    (hne : (f.op x).opcode ≠ .boolNegate) (ho : (f.op x).output = some v)
    (hv : f.BoolValues fl env v) : g.truth fl env' x = some (f.flipValue env v) := by
  have hd := (h.graph.linked.defs v x).mpr ho
  have hbool := bool_of_flipsAlone hcode
  have hturned := hs.compare x (List.mem_reverse.mpr hx) hcode hne
  have henv : g.truth fl env' x = g.truth fl env x := by
    unfold truth operandsOf
    congr 1
    refine List.map_congr_left fun u hu => ?_
    unfold operandOf valueOf
    rcases hturned.inrefs u hu with hin | hc
    · rw [hsame u fun y hy => leaf_input h hcode hin hy]
    · rw [if_pos hc, if_pos hc]
  rw [henv]
  have htruth := hturned.truth fl env _ (fun u _ => hfit u) (hv x (.here hd) hbool v ho)
  unfold flipValue
  split_ifs with hstuck
  · exact (htruth.1 ((stuck_compare_iff hd hcode).mp hstuck)).2
  · exact htruth.2 (mt (stuck_compare_iff hd hcode).mpr hstuck)

omit hs hfit in
/-- The value that is read in the place of a BOOL_NEGATE that is gone. -/
theorem negate_value (hx : x ∈ flips) (hcode : (f.op x).opcode = .boolNegate)
    (ho : (f.op x).output = some v) (hr : Reads f g flips.reverse v u)
    (hv : f.BoolValues fl env v) : g.valueOf env' u = f.flipValue env v := by
  have hd := (h.graph.linked.defs v x).mpr ho
  have hleaf : (f.op x).opcode.flipsAlone = true := by
    rw [hcode]
    rfl
  have hstuck : ¬f.Stuck env v := by
    rw [stuck_compare_iff hd hleaf]
    intro he
    exact absurd (hcode.symm.trans he.1) nofun
  obtain ⟨a, ha, -, hle, hval⟩ := negation_values h.graph hd hcode hv
  have hmem : a ∈ (f.op x).inrefs := List.mem_of_getElem? ha
  unfold flipValue
  rw [if_neg hstuck, hval]
  rcases hr with ⟨-, hnot⟩ | ⟨d, -, -, hout, w, hw, hstand⟩
  · exact absurd ho (hnot x (List.mem_reverse.mpr hx) hcode)
  · cases h.output_inj ho hout
    obtain rfl := Option.some.inj (hw.symm.trans ha)
    have hstands : g.valueOf env' u = f.valueOf env' w := congrArg Prod.snd hstand.operandOf
    have hsamew : f.valueOf env' w = f.valueOf env w := by
      unfold valueOf
      rw [hsame w fun y hy => leaf_input h hleaf hmem hy]
    rw [hstands, hsamew]
    omega

/-- What is read in the place of a flipped value: nothing else than the list is computed anew. -/
theorem tree_value (hcomp : ∀ x ∈ flips, (g.op x).dead = false → ∀ out,
      (g.op x).output = some out → g.truth fl env' x = some (g.valueOf env' out))
    (ht : FlipTree f x l) (hl : ∀ y ∈ l, y ∈ flips) (ho : (f.op x).output = some v)
    (hr : Reads f g flips.reverse v u) (hv : f.BoolValues fl env v) :
    g.valueOf env' u = f.flipValue env v := by
  induction ht generalizing v u with
  | @compare x hcode =>
    have hx := hl x (List.mem_singleton_self x)
    by_cases hneg : (f.op x).opcode = .boolNegate
    · exact negate_value h hsame hx hneg ho hr hv
    · obtain rfl := reads_live h ho hneg hr
      have hturned := hs.compare x (List.mem_reverse.mpr hx) hcode hneg
      have hval := compare_value h hs hfit hsame hx hcode hneg ho hv
      have hne : (f.op x).inrefs ≠ [] := by
        intro hnil
        obtain ⟨opc, reorder, hflip, hbool, -⟩ := getBooleanflip_of_flipsAlone hcode hneg
        have harity := (boolOperands h.graph h.floats ho
          (bool_of_flipsAlone hcode)).arity
        rw [hnil, (boolArity_of_flip hflip hbool).2] at harity
        cases harity
      have halive : (g.op x).dead = false := by
        rw [hturned.dead]
        exact alive_of_inrefs h hne
      exact Option.some.inj ((hcomp x hx halive _ (by rw [hturned.output, ho])).symm.trans hval)
  | @connect x d e a b l l' hcode ha hb hda hdb _ _ _ _ iha ihb =>
    have hx := hl x (by simp)
    have hneg : (f.op x).opcode ≠ .boolNegate := by
      intro he
      rw [he] at hcode
      cases hcode
    obtain rfl := reads_live h ho hneg hr
    have hkept := hs.parent x (.inr ⟨hx, hcode⟩)
    obtain ⟨a', b', ua, ub, hin, hin', hra, hrb⟩ := hkept.inrefs
    cases (input_zero hin).symm.trans ha
    cases (input_one hin).symm.trans hb
    have hd := (h.graph.linked.defs u x).mpr ho
    obtain ⟨hva, hvb, -⟩ := andOr_values h.graph hd hcode hin hv
    have hvala := iha (fun y hy => hl y (by simp [hy])) (h.graph.output_of_def hda) hra hva
    have hvalb := ihb (fun y hy => hl y (by simp [hy])) (h.graph.output_of_def hdb) hrb hvb
    have hval := connect_value h hs hfit hx hcode ho hin hin' hvala hvalb hv
    have halive : (g.op x).dead = false := by
      rw [hkept.dead]
      exact alive_of_inrefs h (by rw [hin]; exact nofun)
    exact Option.some.inj ((hcomp x hx halive _ (by rw [hkept.output, ho])).symm.trans hval)

/-- The flipped values are those of an execution. -/
theorem recomputed_of_flipValue {root : OpId} (ht : FlipTree f root flips) (hvals : ∀ x ∈ flips, ∀ v, (f.op x).output = some v →
      f.BoolValues fl env v ∧ env' v = f.flipValue env v) :
    Recomputed f g fl flips env env' where
  same := hsame
  computed x hx halive out hout := by
    have hout_value {v : VarnodeId} (ho : (f.op x).output = some v) :
        g.valueOf env' v = f.flipValue env v := by
      have hlt := h.graph.output_lt ho
      have hvar := h.graph.not_constant_of_def ((h.graph.linked.defs v x).mpr ho)
      rw [valueOf_keeps hs.keeps hlt]
      unfold valueOf
      rw [hvar, if_neg Bool.false_ne_true]
      exact (hvals x hx v ho).2
    -- what is read in the place of an output of the list
    have hread {v u : VarnodeId} {d : OpId} (hd : d ∈ flips) (ho : (f.op d).output = some v)
        (hr : Reads f g flips.reverse v u) : g.valueOf env' u = f.flipValue env v := by
      obtain ⟨hv, hval⟩ := hvals d hd v ho
      by_cases hneg : (f.op d).opcode = .boolNegate
      · exact negate_value h hsame hd hneg ho hr hv
      · obtain rfl := reads_live h ho hneg hr
        have hlt := h.graph.output_lt ho
        have hvar := h.graph.not_constant_of_def ((h.graph.linked.defs u d).mpr ho)
        rw [valueOf_keeps hs.keeps hlt]
        unfold valueOf
        rw [hvar, if_neg Bool.false_ne_true]
        exact hval
    rcases h.flippable.kind x hx with hcode | hcode
    · by_cases hneg : (f.op x).opcode = .boolNegate
      · rw [hs.negate x (List.mem_reverse.mpr hx) hneg] at halive
        cases halive
      · rw [(hs.compare x (List.mem_reverse.mpr hx) hcode hneg).output] at hout
        rw [hout_value hout]
        exact compare_value h hs hfit hsame hx hcode hneg hout (hvals x hx out hout).1
    · have hkept := hs.parent x (.inr ⟨hx, hcode⟩)
      rw [hkept.output] at hout
      obtain ⟨a, b, ua, ub, hin, hin', hra, hrb⟩ := hkept.inrefs
      obtain ⟨a', b', d, e, ha, hb, hda, hdb, hdl, hel⟩ := ht.inputs hx hcode
      cases (input_zero hin).symm.trans ha
      cases (input_one hin).symm.trans hb
      rw [hout_value hout]
      exact connect_value h hs hfit hx hcode hout hin hin'
        (hread hdl (h.graph.output_of_def hda) hra) (hread hel (h.graph.output_of_def hdb) hrb)
        (hvals x hx out hout).1

end Flipped

open Classical in
/-- The values of an execution of the flipped graph. -/
noncomputable def flippedEnv (f : Funcdata) (flips : List OpId) (env : VarnodeId → ℕ)
    (v : VarnodeId) : ℕ :=
  if ∃ x ∈ flips, (f.op x).output = some v then f.flipValue env v else env v

/-- Flipping the condition `c` of the branch `cb` in place, where the test allows it: it does not
panic, no other op changes or reads another value, and the branch reads the negation of its old
condition exactly where that is not stuck. -/
theorem flipInPlace_negates_iff (hgr : f.RuleGraph) (hfl : f.FloatGraph)
    (hbr : ∀ o, (f.op o).opcode = .cbranch → (f.op o).output = none)
    (hcode : (f.op cb).opcode = .cbranch) (hin : (f.op cb).inrefs = [t, c]) {fuel k : ℕ}
    (htest : f.opFlipInPlaceTest fuel cb = some (k, flips)) (hk : k = 0 ∨ k = 1) :
    ∃ g c', f.opFlipInPlaceExecute flips = some g ∧ (g.op cb).input 1 = some c' ∧
      (∀ o, o ≠ cb → o ∉ flips → g.op o = f.op o) ∧
      ∀ fl env, (∀ v, f.valueOf env v < 2 ^ (8 * (f.vn v).size)) → f.BoolValues fl env c →
        (∃ env', Recomputed f g fl flips env env') ∧
        ∀ env', Recomputed f g fl flips env env' →
          (∀ o, o ≠ cb → o ∉ flips → g.operandsOf env' o = f.operandsOf env o) ∧
          (g.valueOf env' c' = 1 - f.valueOf env c ↔ ¬f.Stuck env c) := by
  have hk2 : k ≠ 2 := by omega
  obtain ⟨c₀, root, hc, hd, hread, ht⟩ := flipTree_of_test hgr.linked hbr hcode htest hk2
  cases (input_one hin).symm.trans hc
  have hroot := hgr.output_of_def hd
  have h : FlipGraph f cb flips :=
    ⟨hgr, hfl, ht.flippable hgr.linked (hbr cb hcode) hread, hcode, hbr cb hcode, t, c, hin⟩
  obtain ⟨g, hg, hs⟩ := Stage.run h (show flips = [].reverse ++ flips from rfl) (Stage.start h)
  obtain ⟨t', c₁, ut, uc, hfin, hgin, -, hrc⟩ := (hs.parent cb (.inl rfl)).inrefs
  cases hin.symm.trans hfin
  have hnotParent {o : OpId} (ho : o ≠ cb) (hol : o ∉ flips) : ¬f.Parent cb flips o := by
    rintro (he | he)
    · exact ho he
    · exact hol he.1
  have hother (o : OpId) (ho : o ≠ cb) (hol : o ∉ flips) : g.op o = f.op o :=
    hs.other o (fun hmem => hol (List.mem_reverse.mp hmem)) (hnotParent ho hol)
  refine ⟨g, uc, hg, input_one hgin, hother, fun fl env hfit hv => ⟨⟨flippedEnv f flips env, ?_⟩,
    fun env' hrec => ⟨fun o ho hol => ?_, ?_⟩⟩⟩
  · have hsame (v : VarnodeId) (hv : ∀ x ∈ flips, (f.op x).output ≠ some v) :
        flippedEnv f flips env v = env v := by
      unfold flippedEnv
      rw [if_neg]
      rintro ⟨x, hx, ho⟩
      exact hv x hx ho
    refine recomputed_of_flipValue h hs hfit hsame ht fun x hx v ho => ⟨?_, ?_⟩
    · exact ht.boolValues hgr.linked hroot hv hx ho
    · unfold flippedEnv
      rw [if_pos ⟨x, hx, ho⟩]
  · unfold operandsOf
    rw [hother o ho hol]
    refine List.map_congr_left fun v hv => ?_
    rw [hs.keeps.operandOf (hgr.linked.lt_of_mem_inrefs hv)]
    unfold operandOf valueOf
    rw [hrec.same v fun x hx hout => h.not_read hx hout (hnotParent ho hol) hv]
  · rw [tree_value h hs hfit hrec.same hrec.computed ht (fun y hy => hy) hroot hrc hv]
    exact flipValue_eq_iff hgr hfit hfl hv

/-! A branch on `0x7fffffff s< x`. -/

def extremeVarnodes : List Varnode :=
  [{ loc := ⟨2, 0⟩, size := 4, input := true, insert := true, descend := [0], nzm := 0xffffffff },
    { loc := ⟨0, 0x7fffffff⟩, size := 4, constant := true, descend := [0], nzm := 0x7fffffff },
    { loc := ⟨3, 0⟩, size := 1, written := true, insert := true, defOp := some 0, descend := [1],
      nzm := 1 },
    { loc := ⟨1, 0x1000⟩, size := 1, annotation := true, descend := [1], nzm := 0xff }]

def extremeOps : List PcodeOp :=
  [{ opcode := .intSless, parent := some 0, output := some 2, inrefs := [1, 0] },
    { opcode := .cbranch, parent := some 0, inrefs := [3, 2] }]

def extremeGraph : Funcdata := ofLists extremeVarnodes extremeOps [{ ops := [0, 1] }]

theorem ruleGraph_extreme : extremeGraph.RuleGraph := ruleGraph_ofLists (by decide +kernel)

theorem floatGraph_extreme : extremeGraph.FloatGraph := by
  intro op out _ hcode
  change (extremeOps.getD op default).opcode.isFloatCompare = true at hcode
  match op with
  | 0 | 1 => cases hcode
  | _ + 2 => cases hcode

theorem branches_extreme (o : OpId) (h : (extremeGraph.op o).opcode = .cbranch) :
    (extremeGraph.op o).output = none := by
  match o with
  | 0 => cases h
  | 1 => rfl
  | _ + 2 => rfl

theorem flipInPlace_negates_iff_extreme : ∃ g c', extremeGraph.opFlipInPlaceExecute [0] = some g ∧
    (g.op 1).input 1 = some c' ∧ (∀ o, o ≠ 1 → o ∉ [0] → g.op o = extremeGraph.op o) ∧
    ∀ fl env, (∀ v, extremeGraph.valueOf env v < 2 ^ (8 * (extremeGraph.vn v).size)) →
      extremeGraph.BoolValues fl env 2 → (∃ env', Recomputed extremeGraph g fl [0] env env') ∧
      ∀ env', Recomputed extremeGraph g fl [0] env env' →
        (∀ o, o ≠ 1 → o ∉ [0] → g.operandsOf env' o = extremeGraph.operandsOf env o) ∧
        (g.valueOf env' c' = 1 - extremeGraph.valueOf env 2 ↔ ¬extremeGraph.Stuck env 2) :=
  flipInPlace_negates_iff ruleGraph_extreme floatGraph_extreme branches_extreme rfl rfl
    (show extremeGraph.opFlipInPlaceTest 2 1 = some (0, [0]) by decide +kernel) (.inl rfl)

/-- The branch reads `x s< 0x80000000` now. -/
def extremeFlipped : Funcdata := (extremeGraph.opFlipInPlaceExecute [0]).getD extremeGraph

/-- `x` is 5, and the branch is not taken. -/
def extremeValues : VarnodeId → ℕ := valuesOf [5]

theorem fits_extreme (v : VarnodeId) :
    extremeGraph.valueOf extremeValues v < 2 ^ (8 * (extremeGraph.vn v).size) := by
  match v with
  | 0 | 1 | 2 | 3 => decide
  | _ + 4 => exact Nat.one_pos

theorem boolValues_extreme (fl : FloatCompare) :
    extremeGraph.BoolValues fl extremeValues 2 := by
  intro d _ _ out ho
  change (extremeOps.getD d default).output = some out at ho
  match d with
  | 0 =>
    cases ho
    rfl
  | 1 => cases ho
  | _ + 2 => cases ho

theorem recomputed_extreme (fl : FloatCompare) :
    Recomputed extremeGraph extremeFlipped fl [0] extremeValues extremeValues where
  same _ _ := rfl
  computed x hx _ out ho := by
    cases List.mem_singleton.mp hx
    have hout : (extremeFlipped.op 0).output = some 2 := by decide +kernel
    cases hout.symm.trans ho
    change evalPcode (extremeFlipped.op 0).opcode
      (extremeFlipped.operandsOf extremeValues 0) 1 = _
    decide +kernel

/-- `0x7fffffff s< x` is made `x s< 0x80000000`, and neither holds. -/
theorem flipInPlace_not_negates : ¬∀ (f : Funcdata) (cb : OpId) (t c : VarnodeId) (fuel k : ℕ)
    (flips : List OpId), f.RuleGraph → f.FloatGraph →
    (∀ o, (f.op o).opcode = .cbranch → (f.op o).output = none) → (f.op cb).opcode = .cbranch →
    (f.op cb).inrefs = [t, c] → f.opFlipInPlaceTest fuel cb = some (k, flips) → k = 0 ∨ k = 1 →
    ∀ g c', f.opFlipInPlaceExecute flips = some g → (g.op cb).input 1 = some c' →
    ∀ fl env env', (∀ v, f.valueOf env v < 2 ^ (8 * (f.vn v).size)) → f.BoolValues fl env c →
    Recomputed f g fl flips env env' → g.valueOf env' c' = 1 - f.valueOf env c := by
  intro h
  have hbad := h extremeGraph 1 3 2 2 0 [0] ruleGraph_extreme floatGraph_extreme
    branches_extreme rfl rfl (by decide +kernel) (.inl rfl) extremeFlipped 2 rfl
    (by decide +kernel) noFloats extremeValues extremeValues fits_extreme (boolValues_extreme _)
    (recomputed_extreme _)
  exact absurd hbad (by decide +kernel)

end Funcdata
end Mosura
