import Mosura.Recompile.Align

/-! When two instruction streams are found to be exactly the same. -/

namespace Mosura
namespace Recompile

/-- The script of the first `i` original and `j` candidate instructions, with the class of every
pair. -/
inductive Script (orig cand : List NormInsn) : ℕ → ℕ → List AlignOp → Prop
  | nil : Script orig cand 0 0 []
  | pair {i j : ℕ} {ops : List AlignOp} : Script orig cand i j ops →
      Script orig cand (i + 1) (j + 1) (ops ++ [.pair i j (pairCost orig cand i j).2])
  | origOnly {i j : ℕ} {ops : List AlignOp} : Script orig cand i j ops →
      Script orig cand (i + 1) j (ops ++ [.origOnly i])
  | candOnly {i j : ℕ} {ops : List AlignOp} : Script orig cand i j ops →
      Script orig cand i (j + 1) (ops ++ [.candOnly j])

section

variable {orig cand : List NormInsn}

/-- The script goes up from a cell by one operation and then on. -/
theorem script_cons {i j i' j' : ℕ} {op : AlignOp} {ops rest res : List AlignOp}
    (h : res = rest ++ op :: ops ∧ Script orig cand i j rest)
    (hstep : ∀ {rest : List AlignOp}, Script orig cand i j rest →
      Script orig cand i' j' (rest ++ [op])) :
    ∃ rest, res = rest ++ ops ∧ Script orig cand i' j' rest := by
  refine ⟨rest ++ [op], ?_, hstep h.2⟩
  rw [h.1, List.append_assoc]
  rfl

theorem tracebackFirst_script {j : ℕ} {ops res : List AlignOp}
    (h : tracebackFirst j ops = some res) :
    ∃ rest, res = rest ++ ops ∧ Script orig cand 0 j rest := by
  induction j generalizing ops with
  | zero =>
    obtain rfl := Option.some.inj h
    exact ⟨[], rfl, .nil⟩
  | succ j ih =>
    obtain ⟨rest, hrest⟩ := ih h
    exact script_cons hrest .candOnly

/-- The trace back is a script of all instructions. -/
theorem traceback_script {i j : ℕ} {ops res : List AlignOp}
    (h : traceback orig cand i j ops = some res) :
    ∃ rest, res = rest ++ ops ∧ Script orig cand i j rest := by
  induction i generalizing j ops with
  | zero => exact tracebackFirst_script h
  | succ i ih =>
    induction j generalizing ops with
    | zero =>
      change (if _ then _ else _) = _ at h
      split_ifs at h
      obtain ⟨rest, hrest⟩ := ih h
      exact script_cons hrest .origOnly
    | succ j ihrow =>
      change (if _ then _ else if _ then _ else _) = _ at h
      split_ifs at h
      · obtain ⟨rest, hrest⟩ := ih h
        exact script_cons hrest .pair
      · obtain ⟨rest, hrest⟩ := ih h
        exact script_cons hrest .origOnly
      · obtain ⟨rest, hrest⟩ := ihrow h
        exact script_cons hrest .candOnly

/-- The script that pairs instruction `k` with instruction `k`. -/
def diagonal (orig cand : List NormInsn) (n : ℕ) : List AlignOp :=
  (List.range n).map fun k => .pair k k (pairCost orig cand k k).2

theorem diagonal_succ (n : ℕ) : diagonal orig cand (n + 1) =
    diagonal orig cand n ++ [.pair n n (pairCost orig cand n n).2] := by
  unfold diagonal
  rw [List.range_succ, List.map_append]
  rfl

/-- A script without gaps is the diagonal. -/
theorem Script.eq_diagonal {i j : ℕ} {ops : List AlignOp} (h : Script orig cand i j ops)
    (hpairs : ∀ op ∈ ops, ∃ oi ci cls, op = .pair oi ci cls) :
    i = j ∧ ops = diagonal orig cand i := by
  induction h with
  | nil => exact ⟨rfl, rfl⟩
  | pair _ ih =>
    obtain ⟨rfl, rfl⟩ := ih fun op hop => hpairs op (List.mem_append_left _ hop)
    exact ⟨rfl, (diagonal_succ _).symm⟩
  | origOnly _ _ =>
    obtain ⟨oi, ci, cls, h⟩ := hpairs _ (List.mem_append_right _ (List.mem_singleton_self _))
    cases h
  | candOnly _ _ =>
    obtain ⟨oi, ci, cls, h⟩ := hpairs _ (List.mem_append_right _ (List.mem_singleton_self _))
    cases h

theorem dp_succ_succ (i j : ℕ) : dp orig cand (i + 1) (j + 1) =
    min (min (saturatingAdd (dp orig cand i j) (pairCost orig cand i j).1)
      (saturatingAdd (dp orig cand i (j + 1)) gap))
      (saturatingAdd (dp orig cand (i + 1) j) gap) := rfl

/-- A free diagonal costs nothing. -/
theorem dp_diagonal {n : ℕ} (h : ∀ k < n, (pairCost orig cand k k).1 = 0) :
    dp orig cand n n = 0 := by
  induction n with
  | zero => rfl
  | succ n ih =>
    rw [dp_succ_succ, ih fun k hk => h k (Nat.lt_succ_of_lt hk), h n (Nat.lt_succ_self n)]
    exact Nat.min_eq_zero_iff.mpr (Or.inl (Nat.min_eq_zero_iff.mpr (Or.inl rfl)))

/-- A free diagonal is what the trace back finds. -/
theorem traceback_diagonal {n : ℕ} (h : ∀ k < n, (pairCost orig cand k k).1 = 0)
    (ops : List AlignOp) :
    traceback orig cand n n ops = some (diagonal orig cand n ++ ops) := by
  induction n generalizing ops with
  | zero => rfl
  | succ n ih =>
    have hn : ∀ k < n, (pairCost orig cand k k).1 = 0 := fun k hk => h k (Nat.lt_succ_of_lt hk)
    change (if dp orig cand (n + 1) (n + 1) =
      saturatingAdd (dp orig cand n n) (pairCost orig cand n n).1 then _ else _) = _
    rw [if_pos, ih hn, diagonal_succ, List.append_assoc]
    · rfl
    · rw [dp_diagonal h, dp_diagonal hn, h n (Nat.lt_succ_self n)]
      rfl

theorem subCost_equal_iff {a b : NormInsn} :
    (subCost a b).2 = .equal ↔ a.sem = b.sem ∧ a.bytes = b.bytes := by
  unfold subCost
  split_ifs with hsem hbytes <;> try simp_all
  split <;> simp

theorem subCost_free {a b : NormInsn} (hsem : a.sem = b.sem) (hbytes : a.bytes = b.bytes) :
    subCost a b = (0, .equal) := by
  unfold subCost
  rw [if_pos hsem, if_pos hbytes]

theorem partner_diagonal {n i : ℕ} (hi : i < n) : partner (diagonal orig cand n) i = some i := by
  unfold partner diagonal
  rw [List.filterMap_map]
  change List.lookup i (List.filterMap (fun k => some (k, k)) (List.range n)).reverse = _
  induction n with
  | zero => exact absurd hi (Nat.not_lt_zero i)
  | succ n ih =>
    rw [List.range_succ, List.filterMap_append, List.reverse_append]
    by_cases hin : i = n
    · subst hin
      exact List.lookup_cons_self
    · change List.lookup i ((n, n) :: _) = _
      rw [List.lookup_cons, beq_false_of_ne hin]
      exact ih (by omega)

theorem indexAt_lt {a : U64} {k i : ℕ} {insns : List NormInsn} (h : indexAt a k insns = some i) :
    i < k + insns.length := by
  induction insns generalizing k with
  | nil => cases h
  | cons insn insns ih =>
    unfold indexAt at h
    cases hrest : indexAt a (k + 1) insns with
    | some r =>
      rw [hrest] at h
      obtain rfl := Option.some.inj h
      have := ih hrest
      simp only [List.length_cons]
      omega
    | none =>
      rw [hrest] at h
      change (if _ then _ else _) = _ at h
      split_ifs at h
      obtain rfl := Option.some.inj h
      simp only [List.length_cons]
      omega

/-- The targets correspond: calls go to the same address, transfers to an instruction of the own
stream on both sides to the same position, all others to the same address. -/
def Lands (orig cand : List NormInsn) (o c : NormInsn) (ot ct : U64) : Prop :=
  if o.isCall || c.isCall then ot = ct
  else
    match indexAt ot 0 orig, indexAt ct 0 cand with
    | some i, some j => i = j
    | _, _ => ot = ct

/-- The targets correspond, where a target in the original's stream is in the candidate's too. -/
def LandsInside (orig cand : List NormInsn) (o c : NormInsn) (ot ct : U64) : Prop :=
  if o.isCall || c.isCall then ot = ct
  else
    match indexAt ot 0 orig, indexAt ct 0 cand with
    | some i, some j => i = j
    | none, none => ot = ct
    | _, _ => False

/-- The two streams are the same instruction by instruction, and every direct transfer goes to the
place `lands` wants. -/
structure SameStream (lands : NormInsn → NormInsn → U64 → U64 → Prop) (orig cand : List NormInsn) :
    Prop where
  length : orig.length = cand.length
  insn : ∀ (k : ℕ) (o c : NormInsn), orig[k]? = some o → cand[k]? = some c →
    o.sem = c.sem ∧ o.bytes = c.bytes
  place : ∀ (k : ℕ) (o c : NormInsn), orig[k]? = some o → cand[k]? = some c →
    ∀ ot, o.target = some ot → ∃ ct, c.target = some ct ∧ lands o c ot ct

theorem isSome_target_of_sem {o c : NormInsn} (h : o.sem = c.sem) :
    o.target.isSome = c.target.isSome := by
  rw [Bool.eq_iff_iff, o.target_sem, c.target_sem, h]

/-- On the diagonal the targets are compared by position. -/
theorem landsElsewhere_diagonal {o c : NormInsn} (hsem : o.sem = c.sem) :
    landsElsewhere orig cand (diagonal orig cand orig.length) o c = false ↔
      ∀ ot, o.target = some ot → ∃ ct, c.target = some ct ∧ Lands orig cand o c ot ct := by
  unfold landsElsewhere
  have hsome := isSome_target_of_sem hsem
  cases hot : o.target with
  | none => exact ⟨fun _ _ h => (nomatch h), fun _ => rfl⟩
  | some ot =>
    cases hct : c.target with
    | none =>
      rw [hot, hct] at hsome
      cases hsome
    | some ct =>
      simp only [Option.some.injEq, forall_eq', exists_eq_left', Lands]
      split_ifs with hcall
      · simp
      · cases hi : indexAt ot 0 orig with
        | none => simp
        | some i =>
          cases hj : indexAt ct 0 cand with
          | none => simp
          | some j =>
            have hlt : i < orig.length := by simpa only [Nat.zero_add] using indexAt_lt hi
            simp [partner_diagonal hlt]

theorem verdictOf_exact_iff {divergences : List Divergence} :
    verdictOf divergences = .exact ↔ divergences = [] := by
  unfold verdictOf
  cases divergences with
  | nil => simp
  | cons d ds =>
    simp only [List.isEmpty_cons, Bool.false_eq_true, if_false, reduceCtorEq, iff_false]
    split_ifs <;> exact not_false

theorem divergence_eq_none_iff {op : AlignOp} :
    divergence orig cand op = none ↔ ∃ oi ci, op = .pair oi ci .equal := by
  cases op with
  | pair oi ci cls =>
    change (if cls = .equal then none else _) = none ↔ _
    split_ifs with h
    · subst h
      exact ⟨fun _ => ⟨oi, ci, rfl⟩, fun _ => rfl⟩
    · refine ⟨nofun, ?_⟩
      rintro ⟨oi', ci', heq⟩
      cases heq
      exact absurd rfl h
  | origOnly oi => exact ⟨nofun, fun ⟨_, _, h⟩ => nomatch h⟩
  | candOnly ci => exact ⟨nofun, fun ⟨_, _, h⟩ => nomatch h⟩

theorem retarget_pair {ops : List AlignOp} {oi ci : ℕ} {o c : NormInsn} (ho : orig[oi]? = some o)
    (hc : cand[ci]? = some c) (cls : DivergenceClass) :
    retarget orig cand ops (.pair oi ci cls) =
      if cls ∈ [DivergenceClass.equal, .encoding, .layoutShift] ∧
          landsElsewhere orig cand ops o c = true then .pair oi ci .branchTarget
      else .pair oi ci cls := by
  unfold retarget
  simp only [ho, hc]

/-- A pair stays a pair, and is equal if it was and its control goes to the same place. -/
theorem retarget_equal_iff {ops : List AlignOp} {oi ci : ℕ} {o c : NormInsn}
    (ho : orig[oi]? = some o) (hc : cand[ci]? = some c) (cls : DivergenceClass) :
    retarget orig cand ops (.pair oi ci cls) = .pair oi ci .equal ↔
      cls = .equal ∧ landsElsewhere orig cand ops o c = false := by
  rw [retarget_pair ho hc]
  split_ifs with h
  · refine ⟨fun heq => (nomatch heq), fun heq => ?_⟩
    rw [heq.2] at h
    exact absurd h.2 Bool.false_ne_true
  · constructor
    · intro heq
      obtain rfl : cls = .equal := by injection heq
      refine ⟨rfl, ?_⟩
      simpa using h
    · rintro ⟨rfl, -⟩
      rfl

theorem retarget_isPair {ops : List AlignOp} {op : AlignOp}
    (h : ∃ oi ci cls, retarget orig cand ops op = .pair oi ci cls) :
    ∃ oi ci cls, op = .pair oi ci cls := by
  cases op with
  | pair oi ci cls => exact ⟨oi, ci, cls, rfl⟩
  | origOnly oi => exact h
  | candOnly ci => exact h

theorem retarget_pair_isPair (orig cand : List NormInsn) (ops : List AlignOp) (oi ci : ℕ)
    (cls : DivergenceClass) :
    ∃ cls', retarget orig cand ops (.pair oi ci cls) = .pair oi ci cls' := by
  cases ho : orig[oi]? with
  | none => exact ⟨cls, by simp only [retarget, ho]⟩
  | some o =>
    cases hc : cand[ci]? with
    | none => exact ⟨cls, by simp only [retarget, ho, hc]⟩
    | some c =>
      rw [retarget_pair ho hc]
      split_ifs
      · exact ⟨_, rfl⟩
      · exact ⟨_, rfl⟩

theorem compare_eq_some {d : FnDiff} (h : compare orig cand = some d) :
    ∃ script, traceback orig cand orig.length cand.length [] = some script ∧
      d.ops = script.map (retarget orig cand script) ∧
      d.verdict = verdictOf (d.ops.filterMap (divergence orig cand)) := by
  obtain ⟨script, hscript, h⟩ := Option.bind_eq_some_iff.mp h
  obtain rfl := Option.some.inj h
  exact ⟨script, hscript, rfl, rfl⟩

/-- A script whose operations are all pairs is the diagonal of two streams of one length. -/
theorem traceback_eq_diagonal {script : List AlignOp}
    (h : traceback orig cand orig.length cand.length [] = some script)
    (hpairs : ∀ op ∈ script.map (retarget orig cand script), ∃ oi ci cls, op = .pair oi ci cls) :
    orig.length = cand.length ∧ script = diagonal orig cand orig.length := by
  obtain ⟨rest, hrest, hscript⟩ := traceback_script h
  rw [List.append_nil] at hrest
  subst hrest
  refine hscript.eq_diagonal fun op hop => ?_
  exact retarget_isPair (hpairs _ (List.mem_map_of_mem hop))

/-- Nothing is without counterpart in streams whose divergences are of encoding or layout. -/
theorem isPair_of_verdict {ops : List AlignOp}
    (h : verdictOf (ops.filterMap (divergence orig cand)) = .exact ∨
      verdictOf (ops.filterMap (divergence orig cand)) = .sameCode) :
    ∀ op ∈ ops, ∃ oi ci cls, op = .pair oi ci cls := by
  intro op hop
  by_contra hpair
  obtain ⟨d, hd, hcls⟩ : ∃ d, divergence orig cand op = some d ∧
      d.cls ∉ [DivergenceClass.encoding, .layoutShift] := by
    cases op with
    | pair oi ci cls => exact absurd ⟨oi, ci, cls, rfl⟩ hpair
    | origOnly oi => exact ⟨_, rfl, by simp⟩
    | candOnly ci => exact ⟨_, rfl, by simp⟩
  have hmem : d ∈ ops.filterMap (divergence orig cand) := List.mem_filterMap.mpr ⟨op, hop, hd⟩
  obtain h | h := h
  · rw [verdictOf_exact_iff.mp h] at hmem
    exact absurd hmem List.not_mem_nil
  · unfold verdictOf at h
    split_ifs at h with hempty hall
    exact hcls (of_decide_eq_true (List.all_eq_true.mp hall d hmem))

theorem pairCost_eq {k : ℕ} {o c : NormInsn} (ho : orig[k]? = some o) (hc : cand[k]? = some c) :
    pairCost orig cand k k = subCost o c := by
  unfold pairCost
  rw [ho, hc]

/-- An instruction of each stream at every number below the common length. -/
theorem exists_pair_at (hlen : orig.length = cand.length) {k : ℕ} (hk : k < orig.length) :
    ∃ o c, orig[k]? = some o ∧ cand[k]? = some c :=
  ⟨orig[k], cand[k], List.getElem?_eq_getElem hk, List.getElem?_eq_getElem (hlen ▸ hk)⟩

/-- An exact verdict is never given in error. -/
theorem sameStream_of_exact {d : FnDiff} (h : compare orig cand = some d)
    (hexact : d.verdict = .exact) : SameStream (Lands orig cand) orig cand := by
  obtain ⟨script, hscript, hops, hverdict⟩ := compare_eq_some h
  rw [hverdict] at hexact
  obtain ⟨hlen, rfl⟩ := traceback_eq_diagonal hscript
    (hops ▸ isPair_of_verdict (Or.inl hexact))
  have hequal : ∀ (k : ℕ) (o c : NormInsn), orig[k]? = some o → cand[k]? = some c →
      (pairCost orig cand k k).2 = .equal ∧
        landsElsewhere orig cand (diagonal orig cand orig.length) o c = false := by
    intro k o c ho hc
    have hk : k < orig.length := (List.getElem?_eq_some_iff.mp ho).1
    have hmem : AlignOp.pair k k (pairCost orig cand k k).2 ∈ diagonal orig cand orig.length :=
      List.mem_map.mpr ⟨k, List.mem_range.mpr hk, rfl⟩
    have hnone : divergence orig cand (retarget orig cand (diagonal orig cand orig.length)
        (.pair k k (pairCost orig cand k k).2)) = none := by
      refine List.filterMap_eq_nil_iff.mp (verdictOf_exact_iff.mp hexact) _ ?_
      rw [hops]
      exact List.mem_map_of_mem hmem
    obtain ⟨oi, ci, heq⟩ := divergence_eq_none_iff.mp hnone
    obtain ⟨cls, hcls⟩ := retarget_pair_isPair orig cand
      (diagonal orig cand orig.length) k k (pairCost orig cand k k).2
    rw [hcls] at heq
    cases heq
    exact (retarget_equal_iff ho hc _).mp hcls
  refine ⟨hlen, fun k o c ho hc => ?_, fun k o c ho hc => ?_⟩
  · obtain ⟨hcost, -⟩ := hequal k o c ho hc
    rw [pairCost_eq ho hc] at hcost
    exact subCost_equal_iff.mp hcost
  · obtain ⟨hcost, hlands⟩ := hequal k o c ho hc
    rw [pairCost_eq ho hc] at hcost
    exact (landsElsewhere_diagonal (subCost_equal_iff.mp hcost).1).mp hlands

/-- An exact verdict is never withheld. -/
theorem exact_of_sameStream (h : SameStream (Lands orig cand) orig cand) :
    ∃ d, compare orig cand = some d ∧ d.verdict = .exact := by
  have hcost : ∀ k < orig.length, pairCost orig cand k k = (0, .equal) := by
    intro k hk
    obtain ⟨o, c, ho, hc⟩ := exists_pair_at h.length hk
    obtain ⟨hsem, hbytes⟩ := h.insn k o c ho hc
    rw [pairCost_eq ho hc, subCost_free hsem hbytes]
  have htrace : traceback orig cand orig.length cand.length [] =
      some (diagonal orig cand orig.length) := by
    rw [← h.length, traceback_diagonal fun k hk => by rw [hcost k hk], List.append_nil]
  have hnil : ((diagonal orig cand orig.length).map
      (retarget orig cand (diagonal orig cand orig.length))).filterMap
        (divergence orig cand) = [] := by
    refine List.filterMap_eq_nil_iff.mpr fun op hop => ?_
    obtain ⟨op', hop', rfl⟩ := List.mem_map.mp hop
    obtain ⟨k, hk, rfl⟩ := List.mem_map.mp hop'
    have hlt := List.mem_range.mp hk
    obtain ⟨o, c, ho, hc⟩ := exists_pair_at h.length hlt
    have hlands := (landsElsewhere_diagonal (h.insn k o c ho hc).1).mpr (h.place k o c ho hc)
    rw [divergence_eq_none_iff]
    refine ⟨k, k, (retarget_equal_iff ho hc _).mpr ⟨?_, hlands⟩⟩
    rw [hcost k hlt]
  unfold compare
  rw [htrace]
  exact ⟨_, rfl, verdictOf_exact_iff.mpr hnil⟩

/-- In streams that lie at the same addresses a target is inside both or neither. -/
theorem indexAt_eq_of_addr (h : orig.map NormInsn.addr = cand.map NormInsn.addr) (a : U64) (k : ℕ) :
    indexAt a k orig = indexAt a k cand := by
  induction orig generalizing cand k with
  | nil =>
    obtain rfl := List.map_eq_nil_iff.mp h.symm
    rfl
  | cons o orig ih =>
    cases cand with
    | nil => cases h
    | cons c cand =>
      obtain ⟨haddr, htail⟩ := List.cons.inj h
      change (indexAt a (k + 1) orig).orElse _ = (indexAt a (k + 1) cand).orElse _
      rw [ih htail, haddr]

end

/-- `compare` finds two streams exact if and only if they are the same instruction by instruction
and every transfer corresponds, and nothing is without counterpart in streams found exact or the
same code. In streams at the same addresses a target inside one is inside the other. -/
theorem compare_exact_iff (orig cand : List NormInsn) :
    ((∃ d, compare orig cand = some d ∧ d.verdict = .exact) ↔
      SameStream (Lands orig cand) orig cand) ∧
    (orig.map NormInsn.addr = cand.map NormInsn.addr →
      ((∃ d, compare orig cand = some d ∧ d.verdict = .exact) ↔
        SameStream (LandsInside orig cand) orig cand)) ∧
    ∀ d, compare orig cand = some d → d.verdict = .exact ∨ d.verdict = .sameCode →
      orig.length = cand.length ∧ ∀ op ∈ d.ops, ∃ k cls, op = .pair k k cls := by
  have hiff : (∃ d, compare orig cand = some d ∧ d.verdict = .exact) ↔
      SameStream (Lands orig cand) orig cand :=
    ⟨fun ⟨_, hd, hexact⟩ => sameStream_of_exact hd hexact, exact_of_sameStream⟩
  refine ⟨hiff, fun haddr => hiff.trans ?_, fun d hd hverdict => ?_⟩
  · have hlands : Lands orig cand = LandsInside orig cand := by
      funext o c ot ct
      have hindex := indexAt_eq_of_addr haddr
      unfold Lands LandsInside
      rw [hindex ot 0]
      congr 1
      cases hi : indexAt ot 0 cand with
      | none =>
        cases hj : indexAt ct 0 cand with
        | none => rfl
        | some j =>
          refine propext ⟨fun heq => ?_, False.elim⟩
          rw [heq, hj] at hi
          cases hi
      | some i =>
        cases hj : indexAt ct 0 cand with
        | none =>
          refine propext ⟨fun heq => ?_, False.elim⟩
          rw [heq, hj] at hi
          cases hi
        | some j => rfl
    rw [hlands]
  · obtain ⟨script, hscript, hops, hver⟩ := compare_eq_some hd
    have hpairs : ∀ op ∈ d.ops, ∃ oi ci cls, op = .pair oi ci cls :=
      isPair_of_verdict (hver ▸ hverdict)
    obtain ⟨hlen, rfl⟩ := traceback_eq_diagonal hscript (hops ▸ hpairs)
    refine ⟨hlen, fun op hop => ?_⟩
    rw [hops] at hop
    obtain ⟨op', hop', rfl⟩ := List.mem_map.mp hop
    obtain ⟨k, -, rfl⟩ := List.mem_map.mp hop'
    obtain ⟨cls, hcls⟩ := retarget_pair_isPair orig cand
      (diagonal orig cand orig.length) k k (pairCost orig cand k k).2
    exact ⟨k, cls, hcls⟩

/-- A `jmp` of the 68000 to the absolute address `0x1000`. -/
def absoluteJump (addr : U64) : NormInsn :=
  normalizeOneWithMask
    { address := addr
      bytes := [0x4e, 0xf9, 0x00, 0x00, 0x10, 0x00]
      mnemonic := "jmp"
      body := "0x00001000"
      ops := [⟨.branch, none, [.var ⟨"ram", 0x1000, 4⟩], nofun⟩] } noReloc none

/-- A jump to itself and the same jump, to an address outside its stream, are found exact. -/
theorem compare_exact_outside :
    ¬ ((∃ d, compare [absoluteJump 0x1000] [absoluteJump 0x2000] = some d ∧ d.verdict = .exact) ↔
      SameStream (LandsInside [absoluteJump 0x1000] [absoluteJump 0x2000])
        [absoluteJump 0x1000] [absoluteJump 0x2000]) := by
  intro h
  have hexact : ∃ d, compare [absoluteJump 0x1000] [absoluteJump 0x2000] = some d ∧
      d.verdict = .exact := ⟨_, rfl, rfl⟩
  obtain ⟨ct, hct, hlands⟩ := (h.mp hexact).place 0 _ _ rfl rfl 0x1000 rfl
  obtain rfl : 0x1000 = ct := Option.some.inj hct
  exact hlands

end Recompile
end Mosura
