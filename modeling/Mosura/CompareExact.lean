import Mosura.SignSound

/-! `RuleTestSign`, and what the rules that normalise a comparison do to the values of all ops. -/

namespace Mosura
namespace Funcdata

variable {f g : Funcdata} {env : VarnodeId → ℕ} {op o : OpId} {out v u : VarnodeId}

/-- The sign bit shifted down to all bits. -/
theorem sshiftRight_sign {s x : ℕ} (h0 : 0 < s) (hx : x < 2 ^ (8 * s)) :
    ((BitVec.ofNat (8 * s) x).sshiftRight (min (8 * s - 1) (8 * s))).toNat =
      if Neg s x then 2 ^ (8 * s) - 1 else 0 := by
  have hmsb : (BitVec.ofNat (8 * s) x).getLsbD (8 * s - 1) = decide (Neg s x) := by
    rw [BitVec.getLsbD_ofNat, decide_eq_true (show 8 * s - 1 < 8 * s by omega), Bool.true_and,
      Bool.eq_iff_iff, decide_eq_true_eq]
    exact (two_mul_ge_iff_testBit h0 hx).symm
  have hbits : ∀ i, ((BitVec.ofNat (8 * s) x).sshiftRight (8 * s - 1)).getLsbD i =
      (decide (i < 8 * s) && decide (Neg s x)) := by
    intro i
    rw [BitVec.getLsbD_sshiftRight, BitVec.msb_eq_getLsbD_last, hmsb]
    by_cases hi : i < 8 * s
    · rcases Nat.eq_zero_or_pos i with rfl | hpos
      · rw [Nat.add_zero, hmsb]
        simp [show 8 * s - 1 < 8 * s by omega, hi, h0.ne']
      · simp [hi, show ¬8 * s - 1 + i < 8 * s by omega]
    · simp [hi, not_lt.mp hi]
  rw [Nat.min_eq_left (by omega)]
  apply Nat.eq_of_testBit_eq
  intro i
  refine (hbits i).trans ?_
  split_ifs with hn
  · rw [decide_eq_true hn, Bool.and_true, Nat.testBit_two_pow_sub_one]
  · rw [decide_eq_false hn, Bool.and_false, Nat.zero_testBit]

/-- A graph between the comparisons that `RuleTestSign` rewrites: those in `todo` are as they were,
and each op computes what it did. -/
structure Tested (f : Funcdata) (env : VarnodeId → ℕ) (todo : List OpId) (g : Funcdata) : Prop where
  keeps : Keeps f g
  inrefs : g.Bounded
  output : ∀ o, (g.op o).output = (f.op o).output
  todo : ∀ o ∈ todo, g.op o = f.op o
  same : ∀ o out, (f.op o).output = some out → f.ValuesAt o env →
    g.resultOf env o out = f.resultOf env o out

/-- `op` shifts the sign bit of `u` down into `w`. -/
structure SignShift (f : Funcdata) (op : OpId) (u w : VarnodeId) : Prop where
  graph : f.RuleGraph
  output : (f.op op).output = some w
  sem : (f.op op).opcode.hasSemantics = true
  lt : u < f.numVarnodes
  size : (f.vn u).size = (f.vn w).size
  pos : 0 < (f.vn u).size
  size_le : (f.vn u).size ≤ 8
  value : ∀ env, f.valueOf env u < 2 ^ (8 * (f.vn u).size) → f.resultOf env op w =
    some (if Neg (f.vn w).size (f.valueOf env u) then 2 ^ (8 * (f.vn w).size) - 1 else 0)

theorem comparesConst_cases (h : f.comparesConst o = true) :
    ((f.op o).opcode = .intEqual ∨ (f.op o).opcode = .intNotequal) ∧
      ∃ c, (f.op o).input 1 = some c ∧ (f.vn c).constant = true := by
  unfold comparesConst inVn at h
  simp only [Bool.and_eq_true, decide_eq_true_eq] at h
  refine ⟨h.1, ?_⟩
  cases hc : (f.op o).input 1 with
  | none =>
    have h2 := h.2
    rw [hc] at h2
    cases h2
  | some c =>
    have h2 := h.2
    rw [hc] at h2
    exact ⟨c, rfl, h2⟩

/-- The two inputs of a comparison of `w` with a constant. -/
theorem compare_of_descend {w : VarnodeId} (h : f.SignShift op u w)
    (hmem : o ∈ (f.vn w).descend) (hc : f.comparesConst o = true)
    (hout : (f.op o).output = some out) :
    ∃ c, f.Compare o out w c ∧ (f.vn c).constant = true := by
  obtain ⟨hcode, c, hin1, hconst⟩ := comparesConst_cases hc
  have hcompare : (f.op o).opcode = .intEqual ∨ (f.op o).opcode = .intNotequal ∨
      (f.op o).opcode = .intLess ∨ (f.op o).opcode = .intLessequal ∨ (f.op o).opcode = .intSless ∨
      (f.op o).opcode = .intSlessequal ∨ (f.op o).opcode = .intCarry ∨
      (f.op o).opcode = .intScarry ∨ (f.op o).opcode = .intSborrow := by
    rcases hcode with hc | hc
    all_goals simp only [hc, true_or, or_true]
  obtain ⟨⟨a, b, hin, hs⟩, -⟩ := h.graph.compare_inrefs hout hcompare
  rw [input_one hin] at hin1
  cases hin1
  have hw : w ∈ (f.op o).inrefs := h.graph.linked.mem_descend.mp hmem
  have hne : w ≠ c := fun he => by
    have hnc := h.graph.not_constant_of_def ((h.graph.linked.defs w op).mpr h.output)
    rw [he, hconst] at hnc
    cases hnc
  rw [hin, List.mem_pair] at hw
  obtain rfl := hw.resolve_right hne
  exact ⟨c, ⟨h.graph, hout, hin, hs, h.size ▸ h.size_le⟩, hconst⟩

/-- The next comparison is rewritten and computes what it did. -/
theorem Tested.next {todo : List OpId} {g' : Funcdata} {code : OpCode} {ins : Operands}
    (hgr : f.RuleGraph) (hnodup : o ∉ todo) (ht : Tested f env (o :: todo) g)
    (hr : Rewritten g env o g' code ins) (hsame : ∀ out, (f.op o).output = some out →
      f.ValuesAt o env → evalPcode code ins (f.vn out).size = f.resultOf env o out) :
    Tested f env todo g' where
  keeps := ht.keeps.trans hr.keeps
  inrefs := hr.inrefs
  output o' := by
    by_cases ho : o' = o
    · subst ho
      exact hr.output.trans (ht.output o')
    · rw [hr.other o' ho]
      exact ht.output o'
  todo o' ho' := by
    rw [hr.other o' fun he => hnodup (he ▸ ho')]
    exact ht.todo o' (List.mem_cons_of_mem _ ho')
  same o' out hout hv := by
    have hlt := (hgr.output_lt hout).trans_le ht.keeps.le
    by_cases ho : o' = o
    · subst ho
      rw [hr.result hlt, ht.keeps.size out (hgr.output_lt hout)]
      exact hsame out hout hv
    · rw [hr.result_other ht.inrefs hlt ho]
      exact ht.same o' out hout hv

/-- The comparison of the shifted sign bit with the constant is true where the value is not negative
(`nonneg`), or where it is. -/
theorem testSign_result {w c : VarnodeId} (h : f.SignShift op u w) (hc : f.Compare o out w c)
    (hconst : (f.vn c).constant = true)
    (hcode : (f.op o).opcode = .intEqual ∨ (f.op o).opcode = .intNotequal)
    (hoff : (f.vn c).constantValue = 0 ∨ (f.vn c).constantValue = calcMask (f.vn w).size)
    (hv : f.ValuesAt o env) : f.resultOf env o out =
      signResult (if (decide ((f.vn c).constantValue = 0) !=
        decide ((f.op o).opcode = .intNotequal)) then 1 else 0)
        (Neg (f.vn w).size (f.valueOf env u)) := by
  have hw : f.valueOf env w =
      if Neg (f.vn w).size (f.valueOf env u) then 2 ^ (8 * (f.vn w).size) - 1 else 0 := by
    have hmem : w ∈ (f.op o).inrefs := by
      rw [hc.inrefs]
      exact List.mem_cons_self
    have hdef := (h.graph.linked.defs w op).mpr h.output
    exact Option.some.inj ((hv.result hmem (.here hdef) h.output h.sem).symm.trans
      (h.value env (hv.fits u)))
  have hM : 1 < 2 ^ (8 * (f.vn w).size) := Nat.one_lt_two_pow (by have := hc.pos; omega)
  have hzero : f.valueOf env w = 0 ↔ ¬Neg (f.vn w).size (f.valueOf env u) := by
    rw [hw]
    split_ifs with hn
    · exact iff_of_false (by omega) (not_not.mpr hn)
    · exact iff_of_true rfl hn
  have hmask : f.valueOf env w = 2 ^ (8 * (f.vn w).size) - 1 ↔
      Neg (f.vn w).size (f.valueOf env u) := by
    rw [hw]
    split_ifs with hn
    · exact iff_of_true rfl hn
    · exact iff_of_false (by omega) hn
  rw [hc.result]
  unfold signResult
  rcases hoff with hz | hm
  · rw [hz, valueOf_zero hconst hz]
    rcases hcode with hcode | hcode
    · rw [hcode, eval_equal, some_toNat_eq_iff, hzero]
      simp
    · rw [hcode, eval_notequal, some_toNat_eq_iff, ne_eq, hzero]
      simp
  · have hne : (f.vn c).constantValue ≠ 0 := fun hz => by
      have hn := (eq_calcMask_iff _ hc.size_le).mp hm
      rw [hz] at hn
      change 0 = _ at hn
      omega
    rw [hc.size] at hm
    rw [decide_eq_false hne, valueOf_mask hconst hm hc.size_le', ← hc.size]
    rcases hcode with hcode | hcode
    · rw [hcode, eval_equal, some_toNat_eq_iff, hmask]
      simp
    · rw [hcode, eval_notequal, some_toNat_eq_iff, ne_eq, hmask]
      simp

/-- `0 s<= x`. -/
theorem eval_nonneg {s x : ℕ} (t so : ℕ) (hx : x < 2 ^ (8 * s)) :
    evalPcode .intSlessequal [(s, 0), (t, x)] so = some (decide (¬Neg s x)).toNat := by
  rw [eval_slessequal _ _ (Nat.two_pow_pos _) hx, some_toNat_eq_iff, Signed.toInt_zero,
    neg_iff_toInt hx, not_lt]

/-- A comparison of the shifted sign bit is a comparison of the value with 0. -/
theorem testSignCompare_step {w : VarnodeId} (h : f.SignShift op u w) {todo : List OpId}
    (hmem : o ∈ (f.vn w).descend) (hc : f.comparesConst o = true) (hnodup : o ∉ todo)
    (ht : Tested f env (o :: todo) g) (b : Bool) :
    Tested f env todo (testSignCompare u (g, b) o).1 := by
  obtain ⟨hcode, c, hin1, hconst⟩ := comparesConst_cases hc
  have hgo : g.op o = f.op o := ht.todo o List.mem_cons_self
  obtain ⟨x, l, hin⟩ : ∃ x l, (f.op o).inrefs = x :: c :: l := by
    unfold PcodeOp.input at hin1
    match hl : (f.op o).inrefs with
    | [] =>
      rw [hl] at hin1
      cases hin1
    | [_] =>
      rw [hl] at hin1
      cases hin1
    | x :: y :: l =>
      rw [hl] at hin1
      cases hin1
      exact ⟨x, l, rfl⟩
  have hlen : 2 ≤ (g.operandsOf env o).length := by
    unfold operandsOf
    rw [hgo, hin, List.length_map]
    simp
  have hlt : ∀ v ∈ (f.op o).inrefs, v < f.numVarnodes := fun v => h.graph.lt_of_mem
  -- the comparison reads in `g` what it reads in `f`
  have hg1 : (g.inVn o 1).constantValue = (f.vn c).constantValue := by
    unfold inVn Varnode.constantValue
    rw [hgo, hin1]
    exact congrArg Address.offset (ht.keeps.loc c (hlt c (by rw [hin]; simp)))
  have hg0 : (g.inVn o 0).size = (f.vn x).size := by
    unfold inVn
    rw [hgo, input_zero hin]
    exact ht.keeps.size x (hlt x (by rw [hin]; simp))
  have hval : ∀ out, (f.op o).output = some out → ∃ p, f.Compare o out w c ∧ w = x ∧
      g.operandsOf env o = [p, g.operandOf env c] := by
    intro out hout
    obtain ⟨c', hcomp, -⟩ := compare_of_descend h hmem hc hout
    have hin' := hcomp.inrefs
    rw [hin] at hin'
    cases hin'
    refine ⟨g.operandOf env w, hcomp, rfl, ?_⟩
    unfold operandsOf
    rw [hgo, hin]
    rfl
  unfold testSignCompare
  dsimp only
  rw [hg1, hg0, hgo, ht.keeps.size u h.lt]
  split
  case isTrue =>
    exact ⟨ht.keeps, ht.inrefs, ht.output, fun o' ho' => ht.todo o' (List.mem_cons_of_mem _ ho'),
      ht.same⟩
  case isFalse hoff =>
    have hoff : (f.vn c).constantValue = 0 ∨ (f.vn c).constantValue = calcMask (f.vn x).size := by
      rw [not_and_or, not_not, not_not] at hoff
      exact hoff
    have hx : g.operandOf env u = f.operandOf env u := ht.keeps.operandOf h.lt
    split
    case isTrue hn =>
      have hr := ((Rewritten.refl ht.inrefs env o).setInputs (n := (f.vn u).size) (c := 0)
        (h.lt.trans_le ht.keeps.le) (i := 1) (j := 0) (by omega) (by omega)).opSetOpcode .intSlessequal
      refine ht.next h.graph hnodup hr fun out hout hv => ?_
      obtain ⟨p, hcomp, rfl, hops⟩ := hval out hout
      rw [testSign_result h hcomp hconst hcode hoff hv, if_pos hn, hops, hx]
      refine (eval_nonneg _ _ (hv.fits u)).trans (some_toNat_eq_iff.mpr ?_)
      simp [h.size]
    case isFalse hn =>
      have hr := ((Rewritten.refl ht.inrefs env o).setInputs (n := (f.vn u).size) (c := 0)
        (h.lt.trans_le ht.keeps.le) (i := 0) (j := 1) (by omega) (by omega)).opSetOpcode .intSless
      refine ht.next h.graph hnodup hr fun out hout hv => ?_
      obtain ⟨p, hcomp, rfl, hops⟩ := hval out hout
      rw [testSign_result h hcomp hconst hcode hoff hv, if_neg hn, hops, hx]
      refine (eval_sign _ _ h.pos (hv.fits u)).2.trans (some_toNat_eq_iff.mpr ?_)
      simp [h.size]

theorem testSign_fold (env : VarnodeId → ℕ) {w : VarnodeId} (h : f.SignShift op u w)
    (ops : List OpId)
    (hmem : ∀ o ∈ ops, o ∈ (f.vn w).descend ∧ f.comparesConst o = true) (hnodup : ops.Nodup)
    (r : Funcdata × Bool) (ht : Tested f env ops r.1) :
    Tested f env [] (ops.foldl (testSignCompare u) r).1 := by
  induction ops generalizing r with
  | nil => exact ht
  | cons o ops ih =>
    obtain ⟨ho, hnd⟩ := List.nodup_cons.mp hnodup
    obtain ⟨hd, hc⟩ := hmem o List.mem_cons_self
    exact ih (fun o' ho' => hmem o' (List.mem_cons_of_mem _ ho')) hnd _
      (testSignCompare_step h hd hc ho ht r.2)

theorem signShift_of_const (hgr : f.RuleGraph) (hcode : (f.op op).opcode = .intSright)
    {w k : VarnodeId} (hw : (f.op op).output = some w) (hu : (f.op op).input 0 = some u)
    (hk : (f.op op).input 1 = some k) (hconst : (f.vn k).constant = true)
    (hamount : (f.vn k).constantValue = BitVec.ofNat 64 (8 * (f.vn u).size - 1))
    (h8 : (f.vn u).size ≤ 8) : f.SignShift op u w := by
  have hsz := hgr.sizes hw
  rw [hcode] at hsz
  obtain ⟨sb, hs⟩ := hsz
  obtain ⟨x, y, hin, hxs, -⟩ := inrefs_two hs
  rw [input_zero hin] at hu
  rw [input_one hin] at hk
  cases hu
  cases hk
  have hmem : u ∈ (f.op op).inrefs := by
    rw [hin]
    exact List.mem_cons_self
  have hpos := hgr.size_pos hmem hw
  refine ⟨hgr, hw, by rw [hcode]; rfl, hgr.lt_of_mem hmem, hxs, hpos, h8, fun env hx => ?_⟩
  have hk : f.valueOf env k = 8 * (f.vn w).size - 1 := by
    rw [valueOf_const hconst, hamount, BitVec.toNat_ofNat, hxs]
    omega
  rw [hxs] at hx hpos
  rw [resultOf_two hin, hcode, hk, hxs]
  exact congrArg some (sshiftRight_sign hpos hx)

theorem testSign_sound (hgr : f.RuleGraph) (hcode : (f.op op).opcode = .intSright)
    (h8 : ∀ v ∈ (f.op op).inrefs, (f.vn v).size ≤ 8) (hg : f.testSign op = some g)
    (env : VarnodeId → ℕ) : Tested f env [] g := by
  unfold testSign at hg
  obtain ⟨k, hk, hg⟩ := Option.bind_eq_some_iff.mp hg
  split at hg
  case isTrue => cases hg
  case isFalse hconst =>
    obtain ⟨u, hu, hg⟩ := Option.bind_eq_some_iff.mp hg
    split at hg
    case isTrue => cases hg
    case isFalse hamount =>
      obtain ⟨w, hw, hg⟩ := Option.bind_eq_some_iff.mp hg
      split at hg
      case isTrue => cases hg
      case isFalse =>
        have h := signShift_of_const hgr hcode hw hu hk (by simpa using hconst)
          (not_not.mp hamount) (h8 u (List.mem_of_getElem? hu))
        have hfold := testSign_fold env h ((f.vn w).descend.filter f.comparesConst)
          (fun o ho => List.mem_filter.mp ho) ?_ (f, false)
          ⟨Keeps.refl f, hgr.linked.bounded, fun _ => rfl, fun _ _ => rfl, fun _ _ _ _ => rfl⟩
        · dsimp only at hg
          split at hg
          case h_1 f' hf' =>
            cases hg
            rwa [hf'] at hfold
          case h_2 => cases hg
        · -- a comparison with a constant reads the shifted value once
          rw [List.nodup_iff_count_le_one]
          intro o
          by_cases ho : o ∈ (f.vn w).descend.filter f.comparesConst
          · obtain ⟨hd, hc⟩ := List.mem_filter.mp ho
            have hsem : (f.op o).opcode.hasSemantics = true := by
              rcases (comparesConst_cases hc).1 with hc | hc
              all_goals
                rw [hc]
                rfl
            obtain ⟨out, hout⟩ := hgr.exists_output (hgr.linked.mem_descend.mp hd) hsem
            obtain ⟨c, hcomp, hcc⟩ := compare_of_descend h hd hc hout
            have hne : c ≠ w := fun he => by
              have hnc := hgr.not_constant_of_def ((hgr.linked.defs w op).mpr hw)
              rw [← he, hcc] at hnc
              cases hnc
            refine (List.filter_sublist.count_le o).trans ?_
            rw [hgr.linked.count, hcomp.inrefs, List.count_cons_self, List.count_singleton]
            simp [hne]
          · rw [List.count_eq_zero.mpr ho]
            exact Nat.zero_le _

end Funcdata

namespace CompareRule

/-- The values for which a rule keeps the truth value. -/
def Exact (f : Funcdata) (op : OpId) (env : VarnodeId → ℕ) : CompareRule → Prop
  | intLessEqual => f.LessequalExact op
  | sless2Zero => ∀ d, f.signFeed op = some d → f.HiBitExact env d
  | _ => True

theorem oplist_semantics {r : CompareRule} {c : OpCode} (h : c ∈ r.oplist) :
    c.hasSemantics = true ∧ (r ≠ testSign → c = .intEqual ∨ c = .intNotequal ∨ c = .intLess ∨
      c = .intLessequal ∨ c = .intSless ∨ c = .intSlessequal ∨ c = .intCarry ∨ c = .intScarry ∨
      c = .intSborrow) := by
  cases r
  all_goals
    simp only [oplist, List.mem_cons, List.not_mem_nil, or_false] at h
    first
      | subst h
        simp [OpCode.hasSemantics]
      | rcases h with rfl | rfl
        all_goals simp [OpCode.hasSemantics]

/-- A rule that fires looks at an input of its op. -/
theorem exists_input {f f' : Funcdata} {op : OpId} {r : CompareRule}
    (h : r.applyOp f op = some f') : ∃ v, v ∈ (f.op op).inrefs := by
  by_contra hn
  have hnil : (f.op op).inrefs = [] := by
    rw [List.eq_nil_iff_forall_not_mem]
    exact fun v hv => hn ⟨v, hv⟩
  have hin : ∀ i, (f.op op).input i = none := by
    intro i
    unfold PcodeOp.input
    rw [hnil]
    rfl
  cases r
  case intLessEqual =>
    change f.intLessEqual op = some f' at h
    unfold Funcdata.intLessEqual Funcdata.replaceLessequal at h
    simp [hin] at h
  all_goals
    simp [applyOp, Funcdata.less2Zero, Funcdata.lessEqual2Zero, Funcdata.sless2Zero,
      Funcdata.lessOne, Funcdata.zextSless, Funcdata.slessToLess, Funcdata.equal2Constant,
      Funcdata.testSign, Funcdata.carryElim, hin] at h

/-- Wherever a rule that normalises a comparison fires, and whatever values there can be, each op
computes what it did before, but for the op a rule fires on outside the values where it is exact. -/
theorem applyOp_exact {f f' : Funcdata} {op : OpId} {r : CompareRule} (hgr : f.RuleGraph)
    (hcode : (f.op op).opcode ∈ r.oplist) (h8 : ∀ v ∈ (f.op op).inrefs, (f.vn v).size ≤ 8)
    (happ : r.applyOp f op = some f') (env : VarnodeId → ℕ) (o : OpId) (out : VarnodeId)
    (hout : (f.op o).output = some out) (hv : f.ValuesAt o env) :
    f'.resultOf env o out = f.resultOf env o out ↔ (o = op → r.Exact f op env) := by
  obtain ⟨v, hmem⟩ := exists_input happ
  obtain ⟨hsem, hcompare⟩ := oplist_semantics hcode
  obtain ⟨w, hw⟩ := hgr.exists_output hmem hsem
  by_cases htest : r = testSign
  · subst htest
    have ht := Funcdata.testSign_sound hgr (List.mem_singleton.mp hcode) h8 happ env
    exact iff_of_true (ht.same o out hout hv) fun _ => trivial
  obtain ⟨⟨a, b, hin, hs⟩, -⟩ := hgr.compare_inrefs hw (hcompare htest)
  have hc : f.Compare op w a b := by
    refine ⟨hgr, hw, hin, hs, h8 a ?_⟩
    rw [hin]
    exact List.mem_cons_self
  refine Funcdata.RewritesIff.result_iff hgr ?_ hw hout hv
  cases r with
  | intLessEqual => exact Funcdata.intLessEqual_sound hc (by simpa [oplist] using hcode) happ env
  | less2Zero => exact Funcdata.less2Zero_sound hc (by simpa [oplist] using hcode) happ env
  | lessEqual2Zero =>
    exact Funcdata.lessEqual2Zero_sound hc (by simpa [oplist] using hcode) happ env
  | sless2Zero => exact Funcdata.sless2Zero_sound hc (by simpa [oplist] using hcode) happ env
  | lessOne => exact Funcdata.lessOne_sound hc (by simpa [oplist] using hcode) happ env
  | zextSless => exact Funcdata.zextSless_sound hc (by simpa [oplist] using hcode) happ env
  | slessToLess => exact Funcdata.slessToLess_sound hc happ env
  | equal2Constant =>
    exact Funcdata.equal2Constant_sound hc (by simpa [oplist] using hcode) happ env
  | testSign => exact absurd rfl htest
  | carryElim => exact Funcdata.carryElim_sound hc (by simpa [oplist] using hcode) happ env

/-- `v2 = v0 s<= 0x7fffffff`, 4 bytes wide. -/
def greatestGraph : Funcdata where
  spaces := SpaceManager.standard false
  vn v :=
    if v = 0 then { loc := ⟨2, 0⟩, size := 4, input := true, insert := true, descend := [0],
                    nzm := calcMask 4 }
    else if v = 1 then { loc := ⟨0, 0x7fffffff⟩, size := 4, constant := true, descend := [0],
                         nzm := 0x7fffffff }
    else if v = 2 then { loc := ⟨3, 0⟩, size := 1, written := true, insert := true,
                         defOp := some 0, nzm := 1 }
    else default
  numVarnodes := 3
  op o :=
    if o = 0 then { opcode := .intSlessequal, parent := some 0, output := some 2, inrefs := [0, 1] }
    else default
  numOps := 1
  blocks := [{ ops := [0] }]

/-- `v0` is 5. -/
def greatestValues (v : VarnodeId) : ℕ := if v = 0 then 5 else if v = 2 then 1 else 0

theorem ruleGraph_greatest : greatestGraph.RuleGraph where
  linked := by
    refine ⟨fun v hv => ?_, fun o ho => ?_, fun v o => ?_, fun o hd => ?_, fun v o => ?_,
      fun v hv => ?_, fun v hv => ?_, fun v hv => ?_⟩
    · rcases v with _ | _ | _ | v <;> simp [greatestGraph] at hv ⊢
      exact ⟨rfl, rfl⟩
    · rcases o with _ | o <;> simp [greatestGraph] at ho ⊢
      exact ⟨rfl, rfl⟩
    · rcases v with _ | _ | _ | v <;> rcases o with _ | o <;> simp [greatestGraph]
      all_goals rfl
    · rcases o with _ | o <;> simp [greatestGraph] at hd
    · rcases v with _ | _ | _ | v <;> rcases o with _ | o <;> simp [greatestGraph]
    · change v < 3 at hv
      interval_cases v <;> rfl
    · change v < 3 at hv
      interval_cases v <;> rfl
    · change v < 3 at hv
      interval_cases v <;> decide
  opWf op out hout := by
    rcases op with _ | op
    · cases hout
      exact ⟨⟨⟨4, rfl⟩, rfl⟩, by decide, by decide, fun he => by cases he⟩
    · cases hout
  computes op hop _ _ := by
    obtain rfl := Nat.lt_one_iff.mp hop
    exact ⟨2, rfl⟩
  const v hc := by
    rcases v with _ | _ | _ | v <;> simp [greatestGraph] at hc ⊢
    decide

theorem valuesAt_greatest : greatestGraph.ValuesAt 0 greatestValues where
  fits v := by
    rcases v with _ | _ | _ | v
    · decide
    · decide
    · decide
    · exact Nat.one_pos
  masked v hv := by
    change v < 3 at hv
    interval_cases v <;> decide
  computed v hv d hd := by
    have hv : v ∈ [0, 1] := hv
    have hnone : (greatestGraph.vn v).defOp = none := by
      rcases List.mem_pair.mp hv with rfl | rfl <;> rfl
    have hno : ∀ d, ¬greatestGraph.Feeds v d := by
      intro d hd
      induction hd with
      | here h =>
        rw [hnone] at h
        cases h
      | input _ _ _ _ ih => exact ih
    exact absurd hd (hno d)

/-- The rule fires on the greatest constant, where it is not exact. -/
theorem applyOp_exact_greatest : ∃ f', intLessEqual.applyOp greatestGraph 0 = some f' ∧
    (f'.resultOf greatestValues 0 2 = greatestGraph.resultOf greatestValues 0 2 ↔
      ((0 : OpId) = 0 → intLessEqual.Exact greatestGraph 0 greatestValues)) :=
  ⟨_, rfl, applyOp_exact ruleGraph_greatest (r := intLessEqual) (by decide) (by decide) rfl _ 0 2 rfl
    valuesAt_greatest⟩

/-- `v0 s<= 0x7fffffff` is always true, the comparison it is rewritten to never is. -/
theorem applyOp_not_exact : ¬∀ (f f' : Funcdata) (op : OpId) (r : CompareRule), f.RuleGraph →
    (f.op op).opcode ∈ r.oplist → (∀ v ∈ (f.op op).inrefs, (f.vn v).size ≤ 8) →
    r.applyOp f op = some f' → ∀ (env : VarnodeId → ℕ) (o : OpId) (out : VarnodeId),
    (f.op o).output = some out → f.ValuesAt o env →
    f'.resultOf env o out = f.resultOf env o out := by
  intro h
  have hbad := h greatestGraph _ 0 intLessEqual ruleGraph_greatest (by decide) (by decide) rfl
    greatestValues 0 2 rfl valuesAt_greatest
  exact absurd hbad (by decide)

end CompareRule
end Mosura
