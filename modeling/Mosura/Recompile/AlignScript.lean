import Mosura.Recompile.AlignExact

/-! The alignment script is a valid one, and a cheapest one. -/

namespace Mosura
namespace Recompile

/-- The original instruction an operation is about. -/
def AlignOp.oi? : AlignOp → Option ℕ
  | pair oi _ _ => some oi
  | origOnly oi => some oi
  | candOnly _ => none

/-- The candidate instruction an operation is about. -/
def AlignOp.ci? : AlignOp → Option ℕ
  | pair _ ci _ => some ci
  | origOnly _ => none
  | candOnly ci => some ci

def AlignOp.isPair : AlignOp → Bool
  | pair .. => true
  | _ => false

/-- Every instruction of both streams once, in order on both sides. -/
def ValidScript (n m : ℕ) (ops : List AlignOp) : Prop :=
  ops.filterMap AlignOp.oi? = List.range n ∧ ops.filterMap AlignOp.ci? = List.range m

section

variable (orig cand : List NormInsn)

/-- What one operation costs. -/
def opCost : AlignOp → ℕ
  | .pair oi ci _ => (pairCost orig cand oi ci).1
  | _ => gap

def scriptCost (ops : List AlignOp) : ℕ := (ops.map (opCost orig cand)).sum

variable {orig cand} {n m i j : ℕ} {ops res script : List AlignOp} {op : AlignOp}

theorem scriptCost_append (ops ops' : List AlignOp) :
    scriptCost orig cand (ops ++ ops') = scriptCost orig cand ops + scriptCost orig cand ops' := by
  rw [scriptCost, List.map_append, List.sum_append, scriptCost, scriptCost]

theorem Script.valid (h : Script orig cand i j ops) : ValidScript i j ops := by
  induction h with
  | nil => exact ⟨rfl, rfl⟩
  | pair _ ih =>
    refine ⟨?_, ?_⟩ <;> rw [List.filterMap_append, List.range_succ]
    · rw [ih.1]
      rfl
    · rw [ih.2]
      rfl
  | origOnly _ ih =>
    refine ⟨?_, ?_⟩ <;> rw [List.filterMap_append]
    · rw [ih.1, List.range_succ]
      rfl
    · rw [ih.2]
      exact List.append_nil _
  | candOnly _ ih =>
    refine ⟨?_, ?_⟩ <;> rw [List.filterMap_append]
    · rw [ih.1]
      exact List.append_nil _
    · rw [ih.2, List.range_succ]
      rfl

/-- The last index of a range. -/
theorem range_eq_append_singleton {l : List ℕ} {k : ℕ} (h : l ++ [k] = List.range n) :
    n = k + 1 ∧ l = List.range k := by
  cases n with
  | zero => exact absurd h (by simp)
  | succ n =>
    rw [List.range_succ] at h
    obtain ⟨hl, hk⟩ := List.append_inj' h rfl
    obtain rfl := List.singleton_inj.mp hk
    exact ⟨rfl, hl⟩

/-- The last operation of a script, and the script before it. -/
theorem ValidScript.snoc_cases (h : ValidScript n m (ops ++ [op])) :
    (∃ i j cls, op = .pair i j cls ∧ n = i + 1 ∧ m = j + 1 ∧ ValidScript i j ops) ∨
      (∃ i, op = .origOnly i ∧ n = i + 1 ∧ ValidScript i m ops) ∨
      ∃ j, op = .candOnly j ∧ m = j + 1 ∧ ValidScript n j ops := by
  obtain ⟨ho, hc⟩ := h
  rw [List.filterMap_append] at ho hc
  cases op with
  | pair i j cls =>
    obtain ⟨hn, ho⟩ := range_eq_append_singleton ho
    obtain ⟨hm, hc⟩ := range_eq_append_singleton hc
    exact .inl ⟨i, j, cls, rfl, hn, hm, ho, hc⟩
  | origOnly i =>
    obtain ⟨hn, ho⟩ := range_eq_append_singleton ho
    exact .inr (.inl ⟨i, rfl, hn, ho, (List.append_nil _).symm.trans hc⟩)
  | candOnly j =>
    obtain ⟨hm, hc⟩ := range_eq_append_singleton hc
    exact .inr (.inr ⟨j, rfl, hm, (List.append_nil _).symm.trans ho, hc⟩)

/-! The table. -/

theorem dp_zero_right (i : ℕ) : dp orig cand i 0 = border i := by
  cases i <;> rfl

theorem border_eq (h : i * gap < 2 ^ 32) : border i = i * gap := Nat.mod_eq_of_lt h

theorem dp_pair (i j : ℕ) :
    dp orig cand (i + 1) (j + 1) ≤ dp orig cand i j + (pairCost orig cand i j).1 := by
  rw [dp_succ_succ]
  exact (min_le_left _ _).trans ((min_le_left _ _).trans (min_le_left _ _))

theorem dp_down (i j : ℕ) : dp orig cand (i + 1) j ≤ dp orig cand i j + gap := by
  cases j with
  | zero =>
    rw [dp_zero_right, dp_zero_right]
    unfold border gap
    omega
  | succ j =>
    rw [dp_succ_succ]
    exact (min_le_left _ _).trans ((min_le_right _ _).trans (min_le_left _ _))

theorem dp_right (i j : ℕ) : dp orig cand i (j + 1) ≤ dp orig cand i j + gap := by
  cases i with
  | zero =>
    change border (j + 1) ≤ border j + gap
    unfold border gap
    omega
  | succ i =>
    rw [dp_succ_succ]
    exact (min_le_right _ _).trans (min_le_left _ _)

/-- No script is cheaper than the table says. -/
theorem dp_le_scriptCost (h : ValidScript n m ops) :
    dp orig cand n m ≤ scriptCost orig cand ops := by
  induction ops using List.reverseRecOn generalizing n m with
  | nil =>
    have hn : n = 0 := List.range_eq_nil.mp h.1.symm
    have hm : m = 0 := List.range_eq_nil.mp h.2.symm
    subst hn hm
    exact le_rfl
  | append_singleton ops op ih =>
    rw [scriptCost_append]
    obtain ⟨i, j, cls, rfl, rfl, rfl, hops⟩ | ⟨i, rfl, rfl, hops⟩ | ⟨j, rfl, rfl, hops⟩ :=
      h.snoc_cases
    · exact (dp_pair i j).trans (Nat.add_le_add_right (ih hops) _)
    · exact (dp_down i m).trans (Nat.add_le_add_right (ih hops) _)
    · exact (dp_right n j).trans (Nat.add_le_add_right (ih hops) _)

/-! The trace back. -/

theorem traceback_succ_zero (i : ℕ) (ops : List AlignOp) :
    traceback orig cand (i + 1) 0 ops =
      if dp orig cand (i + 1) 0 = saturatingAdd (dp orig cand i 0) gap then
        traceback orig cand i 0 (.origOnly i :: ops)
      else none := rfl

theorem traceback_succ_succ (i j : ℕ) (ops : List AlignOp) :
    traceback orig cand (i + 1) (j + 1) ops =
      if dp orig cand (i + 1) (j + 1) =
          saturatingAdd (dp orig cand i j) (pairCost orig cand i j).1 then
        traceback orig cand i j (.pair i j (pairCost orig cand i j).2 :: ops)
      else if dp orig cand (i + 1) (j + 1) = saturatingAdd (dp orig cand i (j + 1)) gap then
        traceback orig cand i (j + 1) (.origOnly i :: ops)
      else traceback orig cand (i + 1) j (.candOnly j :: ops) := rfl

theorem tracebackFirst_total (j : ℕ) (ops : List AlignOp) :
    ∃ res, tracebackFirst j ops = some res := by
  induction j generalizing ops with
  | zero => exact ⟨ops, rfl⟩
  | succ j ih => exact ih _

theorem lt_of_succ_gap (h : (i + 1) * gap < 2 ^ 32) : i * gap < 2 ^ 32 :=
  (Nat.mul_le_mul_right gap (Nat.le_succ i)).trans_lt h

theorem border_step (h : (i + 1) * gap < 2 ^ 32) :
    border (i + 1) = saturatingAdd (border i) gap := by
  rw [border_eq h, border_eq (lt_of_succ_gap h), saturatingAdd, Nat.succ_mul]
  rw [Nat.succ_mul] at h
  exact (min_eq_left (by omega)).symm

/-- While the border does not overflow the trace back comes to the origin. -/
theorem traceback_total (h : i * gap < 2 ^ 32) (j : ℕ) (ops : List AlignOp) :
    ∃ res, traceback orig cand i j ops = some res := by
  induction i generalizing j ops with
  | zero => exact tracebackFirst_total j ops
  | succ i ih =>
    have hi := lt_of_succ_gap h
    induction j generalizing ops with
    | zero =>
      rw [traceback_succ_zero, if_pos]
      · exact ih hi 0 _
      · rw [dp_zero_right, dp_zero_right, border_step h]
    | succ j ihrow =>
      rw [traceback_succ_succ]
      split_ifs
      · exact ih hi j _
      · exact ih hi (j + 1) _
      · exact ihrow _

/-- A sum below the maximum is not saturated. -/
theorem eq_add_of_saturatingAdd {a b c : ℕ} (h : c = saturatingAdd a b) (hc : c < 2 ^ 32 - 1) :
    a + b = c := by
  unfold saturatingAdd at h
  omega

variable (orig cand) in
/-- From the cell the trace back costs what the cell says. -/
def Traces (i j : ℕ) : Prop :=
  dp orig cand i j < 2 ^ 32 - 1 → ∀ ops res, traceback orig cand i j ops = some res →
    scriptCost orig cand res = dp orig cand i j + scriptCost orig cand ops

/-- One operation further, if the cell below the maximum is the sum. -/
theorem Traces.step {i' j' : ℕ} (op : AlignOp) (h : Traces orig cand i j)
    (hsum : dp orig cand i' j' = saturatingAdd (dp orig cand i j) (opCost orig cand op))
    (hlt : dp orig cand i' j' < 2 ^ 32 - 1)
    (hres : traceback orig cand i j (op :: ops) = some res) :
    scriptCost orig cand res = dp orig cand i' j' + scriptCost orig cand ops := by
  have hadd := eq_add_of_saturatingAdd hsum hlt
  calc scriptCost orig cand res
      = dp orig cand i j + scriptCost orig cand (op :: ops) := h (by omega) _ _ hres
    _ = dp orig cand i j + (opCost orig cand op + scriptCost orig cand ops) := rfl
    _ = dp orig cand i' j' + scriptCost orig cand ops := by rw [← Nat.add_assoc, hadd]

/-- What is neither the pair nor the original's instruction is the candidate's. -/
theorem dp_eq_right
    (hpair : dp orig cand (i + 1) (j + 1) ≠
      saturatingAdd (dp orig cand i j) (pairCost orig cand i j).1)
    (hdown : dp orig cand (i + 1) (j + 1) ≠ saturatingAdd (dp orig cand i (j + 1)) gap) :
    dp orig cand (i + 1) (j + 1) = saturatingAdd (dp orig cand (i + 1) j) gap := by
  have hmin := @dp_succ_succ orig cand i j
  omega

theorem traces_first (hj : j * gap < 2 ^ 32) : Traces orig cand 0 j := by
  induction j with
  | zero =>
    rintro - ops res hres
    obtain rfl := Option.some.inj hres
    exact (Nat.zero_add _).symm
  | succ j ih =>
    intro hlt ops res hres
    exact (ih (lt_of_succ_gap hj)).step (.candOnly j) (border_step hj) hlt hres

/-- While the border does not overflow a script that is traced back costs what the table says. -/
theorem traces (hi : i * gap < 2 ^ 32) (hj : j * gap < 2 ^ 32) : Traces orig cand i j := by
  induction i generalizing j with
  | zero => exact traces_first hj
  | succ i ih =>
    have hi' := lt_of_succ_gap hi
    induction j with
    | zero =>
      intro hlt ops res hres
      rw [traceback_succ_zero] at hres
      split_ifs at hres with hdown
      exact (ih hi' hj).step (.origOnly i) hdown hlt hres
    | succ j ihrow =>
      intro hlt ops res hres
      have hj' := lt_of_succ_gap hj
      rw [traceback_succ_succ] at hres
      split_ifs at hres with hpair hdown
      · exact (ih hi' hj').step (.pair i j _) hpair hlt hres
      · exact (ih hi' hj).step (.origOnly i) hdown hlt hres
      · exact (ihrow hj').step (.candOnly j) (dp_eq_right hpair hdown) hlt hres

/-! The classes. -/

/-- A pair's class may be rewritten, nothing else. -/
theorem retarget_cases (orig cand : List NormInsn) (ops : List AlignOp) (op : AlignOp) :
    retarget orig cand ops op = op ∨
      ∃ oi ci cls, op = .pair oi ci cls ∧
        retarget orig cand ops op = .pair oi ci .branchTarget := by
  cases op with
  | pair oi ci cls =>
    simp only [retarget]
    split
    · split_ifs
      · exact .inr ⟨oi, ci, cls, rfl, rfl⟩
      · exact .inl rfl
    · exact .inl rfl
  | origOnly oi => exact .inl rfl
  | candOnly ci => exact .inl rfl

/-- What does not look at a pair's class does not see that it was rewritten. -/
theorem apply_retarget {α : Type} {f : AlignOp → α}
    (hf : ∀ oi ci cls cls', f (.pair oi ci cls) = f (.pair oi ci cls')) :
    f ∘ retarget orig cand ops = f := by
  funext op
  obtain h | ⟨oi, ci, cls, rfl, h⟩ := retarget_cases orig cand ops op
  · exact congrArg f h
  · exact (congrArg f h).trans (hf oi ci _ cls)

theorem ValidScript.retarget (h : ValidScript n m script) :
    ValidScript n m (script.map (retarget orig cand ops)) := by
  unfold ValidScript
  rw [List.filterMap_map, List.filterMap_map, apply_retarget fun _ _ _ _ => rfl,
    apply_retarget fun _ _ _ _ => rfl]
  exact h

theorem scriptCost_retarget :
    scriptCost orig cand (script.map (retarget orig cand ops)) = scriptCost orig cand script := by
  unfold scriptCost
  rw [List.map_map, apply_retarget fun _ _ _ _ => rfl]

/-- The classes a pair can have. -/
def pairClasses : List DivergenceClass :=
  DivergenceClass.all.filter fun cls => cls ≠ .missing ∧ cls ≠ .extra

theorem subCost_mem_pairClasses (a b : NormInsn) : (subCost a b).2 ∈ pairClasses := by
  unfold subCost
  split_ifs
  · decide
  · decide
  · decide
  · split <;> decide
  · decide
  · decide

theorem pairCost_mem_pairClasses (i j : ℕ) : (pairCost orig cand i j).2 ∈ pairClasses := by
  unfold pairCost
  split
  · exact subCost_mem_pairClasses _ _
  · decide

/-- A pair in a script has a class of pairs. -/
theorem Script.pair_mem_pairClasses (h : Script orig cand i j script) :
    ∀ oi ci cls, .pair oi ci cls ∈ script → cls ∈ pairClasses := by
  induction h with
  | nil => exact fun _ _ _ h => absurd h List.not_mem_nil
  | pair _ ih =>
    intro oi ci cls hmem
    obtain hmem | hmem := List.mem_append.mp hmem
    · exact ih _ _ _ hmem
    · obtain ⟨-, -, rfl⟩ := AlignOp.pair.inj (List.mem_singleton.mp hmem)
      exact pairCost_mem_pairClasses _ _
  | origOnly _ ih =>
    intro oi ci cls hmem
    obtain hmem | hmem := List.mem_append.mp hmem
    · exact ih _ _ _ hmem
    · cases List.mem_singleton.mp hmem
  | candOnly _ ih =>
    intro oi ci cls hmem
    obtain hmem | hmem := List.mem_append.mp hmem
    · exact ih _ _ _ hmem
    · cases List.mem_singleton.mp hmem

/-- The counts of different classes add up to how many operations have one of them. -/
theorem sum_countP_cls {classes : List DivergenceClass} (h : classes.Nodup) (ops : List AlignOp) :
    (classes.map fun cls => ops.countP fun op => op.cls = cls).sum =
      ops.countP fun op => op.cls ∈ classes := by
  induction classes with
  | nil => exact (List.countP_eq_zero.mpr fun op _ => by simp).symm
  | cons cls classes ih =>
    obtain ⟨hcls, hnodup⟩ := List.nodup_cons.mp h
    rw [List.map_cons, List.sum_cons, ih hnodup]
    clear ih
    induction ops with
    | nil => rfl
    | cons op ops ihops =>
      simp only [List.countP_cons, List.mem_cons] at ihops ⊢
      by_cases heq : op.cls = cls
      · have hnot : op.cls ∉ classes := heq ▸ hcls
        simp only [heq, hcls, decide_true, decide_false, if_true, Bool.false_eq_true, if_false,
          true_or]
        omega
      · simp only [heq, decide_false, Bool.false_eq_true, if_false, false_or]
        omega

/-- Before and after the classes are rewritten the pairs have the classes of pairs, and no other
operation has. -/
theorem Script.retarget_cls (h : Script orig cand i j script) (ops : List AlignOp) :
    ∀ op ∈ script.map (retarget orig cand ops),
      (op.cls = .missing ↔ op.ci? = none) ∧ (op.cls = .extra ↔ op.oi? = none) ∧
        (op.cls ∈ pairClasses ↔ op.isPair = true) := by
  intro op hop
  obtain ⟨op', hop', rfl⟩ := List.mem_map.mp hop
  obtain heq | ⟨oi, ci, cls, rfl, heq⟩ := retarget_cases orig cand ops op'
  · rw [heq]
    cases op' with
    | pair oi ci cls =>
      have hcls := h.pair_mem_pairClasses oi ci cls hop'
      have hother := of_decide_eq_true (List.mem_filter.mp hcls).2
      exact ⟨iff_of_false hother.1 nofun, iff_of_false hother.2 nofun, iff_of_true hcls rfl⟩
    | origOnly oi =>
      have hcls : DivergenceClass.missing ∉ pairClasses := by decide
      exact ⟨iff_of_true rfl rfl, iff_of_false nofun nofun, iff_of_false hcls nofun⟩
    | candOnly ci =>
      have hcls : DivergenceClass.extra ∉ pairClasses := by decide
      exact ⟨iff_of_false nofun nofun, iff_of_true rfl rfl, iff_of_false hcls nofun⟩
  · have hcls : DivergenceClass.branchTarget ∈ pairClasses := by decide
    rw [heq]
    exact ⟨iff_of_false nofun nofun, iff_of_false nofun nofun, iff_of_true hcls rfl⟩

theorem cls_mem_all (op : AlignOp) : op.cls ∈ DivergenceClass.all := by
  generalize op.cls = cls
  cases cls <;> decide

/-- What the counts say of the script they are taken of. -/
structure CountsSteps (d : FnDiff) : Prop where
  missing : d.classCounts .missing = d.ops.countP fun op => op.ci? = none
  extra : d.classCounts .extra = d.ops.countP fun op => op.oi? = none
  pairs : (pairClasses.map d.classCounts).sum = d.ops.countP AlignOp.isPair
  steps : (DivergenceClass.all.map d.classCounts).sum = d.ops.length

/-- The alignment comes to an end, lists both streams in order and counts its steps; and its script
is a cheapest one, if one is below the maximum of the table. -/
theorem compare_script (orig cand : List NormInsn) (horig : orig.length * gap < 2 ^ 32) :
    ∃ d, compare orig cand = some d ∧ ValidScript orig.length cand.length d.ops ∧ CountsSteps d ∧
      (cand.length * gap < 2 ^ 32 →
        (∃ ops, ValidScript orig.length cand.length ops ∧ scriptCost orig cand ops < 2 ^ 32 - 1) →
          scriptCost orig cand d.ops = dp orig cand orig.length cand.length ∧
            ∀ ops, ValidScript orig.length cand.length ops →
              scriptCost orig cand d.ops ≤ scriptCost orig cand ops) := by
  obtain ⟨script, hscript⟩ : ∃ script, traceback orig cand orig.length cand.length [] = some script :=
    traceback_total horig cand.length []
  obtain ⟨rest, hrest, hlists⟩ := traceback_script hscript
  rw [List.append_nil] at hrest
  subst hrest
  have hcls := hlists.retarget_cls script
  refine ⟨_, Option.bind_eq_some_iff.mpr ⟨script, hscript, rfl⟩, hlists.valid.retarget, ?_, ?_⟩
  · refine ⟨?_, ?_, ?_, ?_⟩
    · exact List.countP_congr fun op hop => by
        rw [decide_eq_true_iff, decide_eq_true_iff, (hcls op hop).1]
    · exact List.countP_congr fun op hop => by
        rw [decide_eq_true_iff, decide_eq_true_iff, (hcls op hop).2.1]
    · rw [sum_countP_cls (by decide)]
      exact List.countP_congr fun op hop => by
        rw [decide_eq_true_iff, (hcls op hop).2.2]
    · rw [sum_countP_cls (by decide)]
      exact List.countP_eq_length.mpr fun op _ => decide_eq_true (cls_mem_all op)
  · rintro hcand ⟨ops, hops, hlt⟩
    have hcost : scriptCost orig cand script = dp orig cand orig.length cand.length :=
      traces horig hcand ((dp_le_scriptCost hops).trans_lt hlt) [] script hscript
    rw [scriptCost_retarget, hcost]
    exact ⟨rfl, fun ops hops => dp_le_scriptCost hops⟩

theorem compare_script_jumps :
    [absoluteJump 0x1000].length * gap < 2 ^ 32 ∧
      ∃ d, compare [absoluteJump 0x1000] [absoluteJump 0x2000, absoluteJump 0x2006] = some d ∧
        ValidScript 1 2 d.ops ∧ CountsSteps d ∧
        scriptCost [absoluteJump 0x1000] [absoluteJump 0x2000, absoluteJump 0x2006] d.ops =
          dp [absoluteJump 0x1000] [absoluteJump 0x2000, absoluteJump 0x2006] 1 2 := by
  refine ⟨by decide, ?_⟩
  obtain ⟨d, hd, hvalid, hcounts, hcheapest⟩ :=
    compare_script [absoluteJump 0x1000] [absoluteJump 0x2000, absoluteJump 0x2006] (by decide)
  have hbest := hcheapest (by decide)
    ⟨[.origOnly 0, .candOnly 0, .candOnly 1], ⟨rfl, rfl⟩, by decide⟩
  exact ⟨d, hd, hvalid, hcounts, hbest.1⟩

/-- The first instruction count for which a border of the table overflows: the trace back asks for
the candidate before the first. -/
theorem compare_border_overflows :
    ¬ ∀ orig cand : List NormInsn,
      ∃ d, compare orig cand = some d ∧ ValidScript orig.length cand.length d.ops := by
  intro h
  obtain ⟨d, hd, -⟩ := h (List.replicate 613566757 (absoluteJump 0x1000)) []
  obtain ⟨script, hscript, -⟩ := compare_eq_some hd
  rw [List.length_replicate, List.length_nil, traceback_succ_zero, if_neg] at hscript
  · exact absurd hscript nofun
  · rw [dp_zero_right, dp_zero_right]
    decide

end

end Recompile
end Mosura
