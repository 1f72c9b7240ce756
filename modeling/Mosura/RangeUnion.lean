import Mosura.RangeMembers

/-! `circle_union` of two ranges: its answer is the values of either. -/

namespace Mosura.CircleRange
open Arc

variable {n m k s : ℕ} {A B R S : CircleRange} {l r l2 r2 x v : ℕ}

/-- The index of two arcs in the overlap table. -/
def overlapIndex (l r l2 r2 : ℕ) : ℕ :=
  (if l ≤ r then 0x20 else 0) ||| (if l ≤ l2 then 0x10 else 0) ||| (if l ≤ r2 then 8 else 0) |||
    (if r ≤ l2 then 4 else 0) ||| (if r ≤ r2 then 2 else 0) ||| (if l2 ≤ r2 then 1 else 0)

theorem overlapIndex_lt : overlapIndex l r l2 r2 < 64 := by
  unfold overlapIndex
  split_ifs <;> decide

/-- The category of two arcs is the letter of the table at their index. -/
theorem encodeRangeOverlaps_letter :
    arrangeText.toList[overlapIndex l r l2 r2]? = some (encodeRangeOverlaps l r l2 r2).letter := by
  have htext : arrangeText.toList = arrange.map Overlap.letter := by decide
  have hlt : overlapIndex l r l2 r2 < arrange.length := overlapIndex_lt
  change _ = some (arrange.getD (overlapIndex l r l2 r2) .g).letter
  rw [htext, List.getElem?_map, List.getD_eq_getElem?_getD, List.getElem?_eq_getElem hlt]
  rfl

/-- The answer of `circle_union` is right: 0 with a range over the domain of both of exactly the
values of either, or 2 with the range unchanged. -/
def UnionExact (A B : CircleRange) : Prop :=
  (∃ C, A.circleUnion B = (0, C) ∧ (A.isempty = false → C.mask = A.mask) ∧
      (B.isempty = false → C.mask = B.mask) ∧
      ∀ v ≤ C.mask, C.containsVal v = true ↔ A.containsVal v = true ∨ B.containsVal v = true) ∨
    A.circleUnion B = (2, A)

/-- What each overlap category says of the values on either arc. -/
def Overlap.Joins (l r l2 r2 : ℕ) : Overlap → Prop
  | .a | .f => (r = l2 → ∀ x, Mem l r x ∨ Mem l2 r2 x ↔ Mem l r2 x) ∧
      (l = r2 → ∀ x, Mem l r x ∨ Mem l2 r2 x ↔ Mem l2 r x)
  | .b => ∀ x, Mem l r x ∨ Mem l2 r2 x ↔ Mem l r2 x
  | .c => ∀ x, Mem l r x ∨ Mem l2 r2 x ↔ Mem l r x
  | .d => ∀ x, Mem l r x ∨ Mem l2 r2 x ↔ Mem l2 r2 x
  | .e => ∀ x, Mem l r x ∨ Mem l2 r2 x ↔ Mem l2 r x
  | .g => ∀ x, Mem l r x ∨ Mem l2 r2 x

/-- The table entry of two arcs says how they join. -/
theorem encodeRangeOverlaps_joins (h : l ≠ r) (h2 : l2 ≠ r2) :
    Overlap.Joins l r l2 r2 (encodeRangeOverlaps l r l2 r2) := by
  unfold encodeRangeOverlaps
  split_ifs <;>
    simp only [Nat.reduceOr, arrange, List.getD_eq_getElem?_getD, List.getElem?_cons_succ,
      List.getElem?_cons_zero, Option.getD_some, Overlap.Joins] <;>
    unfold Mem
  all_goals first
    | omega
    | exact ⟨fun _ x => by omega, fun _ x => by omega⟩

/-- One stride round the circle from `l` there is `l` alone, also where the stride passes the whole
domain. -/
theorem stride_iff (hl : l < 2 ^ n) (hx : x < 2 ^ n) :
    x % 2 ^ k = l % 2 ^ k ∧ Mem l ((l + 2 ^ k) % 2 ^ n) x ↔ x = l := by
  rcases Nat.lt_or_ge k n with hkn | hnk
  · exact mem_stride_iff (Nat.pow_dvd_pow 2 hkn.le) (Nat.two_pow_pos k)
      (Nat.pow_lt_pow_right (by norm_num) hkn) hl hx
  · have hle : 2 ^ n ≤ 2 ^ k := Nat.pow_le_pow_right two_pos hnk
    have hturn : (l + 2 ^ k) % 2 ^ n = l := by
      rw [Nat.add_mod, Nat.mod_eq_zero_of_dvd (Nat.pow_dvd_pow 2 hnk), Nat.add_zero, Nat.mod_mod,
        Nat.mod_eq_of_lt hl]
    rw [hturn, Nat.mod_eq_of_lt (hl.trans_le hle), Nat.mod_eq_of_lt (hx.trans_le hle)]
    simp only [mem_full, and_true]

/-- A single range holds its left boundary alone. -/
theorem WellFormed.containsVal_single (hn : n ≤ 64) (h : R.WellFormed n)
    (hs : R.isSingle = true) (hv : v < 2 ^ n) : R.containsVal v = true ↔ v = R.left := by
  obtain ⟨he, hr⟩ := (h.isSingle_iff hn).mp hs
  obtain ⟨k, _, _, hU⟩ := h.stepU_eq
  rw [h.containsVal_iff, hr, hU, stride_iff h.left_lt hv]
  exact and_iff_right he

/-- Both ranges seen at the stride `2 ^ k`. -/
structure Strided (n k : ℕ) (A B : CircleRange) (r r2 : ℕ) : Prop where
  left : ∀ v < 2 ^ n, A.containsVal v = true ↔ v % 2 ^ k = A.left % 2 ^ k ∧ Mem A.left r v
  right : ∀ v < 2 ^ n, B.containsVal v = true ↔ v % 2 ^ k = B.left % 2 ^ k ∧ Mem B.left r2 v

/-- `unionStride` gives right boundaries at the larger step. -/
theorem unionStride_spec (hn : n ≤ 64) (hA : A.WellFormed n) (hB : B.WellFormed n)
    (heA : A.isempty = false) (heB : B.isempty = false) {t : ℤ}
    (h : unionStride A B = some (r, r2, t)) :
    ∃ k ≤ 30, t = 2 ^ k ∧ Strided n k A B r r2 := by
  obtain ⟨j, hj, hsA, hUA⟩ := hA.stepU_eq
  obtain ⟨k, hk, hsB, hUB⟩ := hB.stepU_eq
  have hvA : ∀ v < 2 ^ n, A.containsVal v = true ↔
      v % 2 ^ j = A.left % 2 ^ j ∧ Mem A.left A.right v := by
    intro v _
    rw [hA.containsVal_iff, hUA]
    exact and_iff_right heA
  have hvB : ∀ v < 2 ^ n, B.containsVal v = true ↔
      v % 2 ^ k = B.left % 2 ^ k ∧ Mem B.left B.right v := by
    intro v _
    rw [hB.containsVal_iff, hUB]
    exact and_iff_right heB
  unfold unionStride at h
  split_ifs at h with hlt hs hgt hs
  · cases h
    refine ⟨k, hk, hsB, ⟨fun v hv => ?_, hvB⟩⟩
    rw [hA.containsVal_single hn hs hv, hA.mask, wrappingAdd_and hn, hUB, stride_iff hA.left_lt hv]
  · cases h
    refine ⟨j, hj, hsA, ⟨hvA, fun v hv => ?_⟩⟩
    rw [hB.containsVal_single hn hs hv, hA.mask, wrappingAdd_and hn, hUA, stride_iff hB.left_lt hv]
  · cases h
    have hjk : j = k := by
      have : (2 : ℤ) ^ j = 2 ^ k := by omega
      exact Nat.pow_right_injective le_rfl (by exact_mod_cast this)
    subst hjk
    exact ⟨j, hj, hsA, ⟨hvA, hvB⟩⟩

/-- The range of stride `2 ^ k` from `l` to `r`. -/
theorem containsVal_strided (hk : k ≤ 30) (he : R.isempty = false) (hs : R.step = 2 ^ k) :
    R.containsVal v = true ↔ v % 2 ^ k = R.left % 2 ^ k ∧ Mem R.left R.right v := by
  have hU : R.stepU = 2 ^ k := by rw [stepU, hs, asU64_two_pow hk]
  rw [CircleRange.containsVal_iff, hU, and_iff_right he]
  intro h1
  rw [hU]
  exact_mod_cast hs.symm.trans h1

/-- The union of two ranges over one domain, both at the stride `2 ^ k`. -/
theorem circleUnion_eq (hk : k ≤ 30) (heA : A.isempty = false) (heB : B.isempty = false)
    (hm : A.mask = B.mask) (h : unionStride A B = some (r, r2, 2 ^ k)) :
    let S : CircleRange := { A with step := 2 ^ k }
    let rem := A.left % 2 ^ k
    A.circleUnion B =
      if rem ≠ B.left % 2 ^ k then ((2, A) : ℤ × CircleRange)
      else if A.left = r ∨ B.left = r2 then (0, { S with left := rem, right := rem })
      else
        match encodeRangeOverlaps A.left r B.left r2 with
        | .a | .f =>
          if r = B.left then (0, { S with right := r2 })
          else if A.left = r2 then (0, { S with left := B.left, right := r })
          else (2, A)
        | .b => (0, { S with right := r2 })
        | .c => (0, { S with right := r })
        | .d => (0, { S with left := B.left, right := r2 })
        | .e => (0, { S with left := B.left, right := r })
        | .g => (0, { S with left := rem, right := rem }) := by
  have hrem : (if (2 : ℤ) ^ k ≠ 1 then A.left % 2 ^ k else 0) = A.left % 2 ^ k := by
    split_ifs with h1
    · rfl
    · have h1 : (2 : ℕ) ^ k = 1 := by exact_mod_cast not_not.mp h1
      rw [h1, Nat.mod_one]
  have hoff : ((2 : ℤ) ^ k ≠ 1 ∧ A.left % 2 ^ k ≠ B.left % 2 ^ k) ↔
      A.left % 2 ^ k ≠ B.left % 2 ^ k := by
    refine ⟨And.right, fun hne => ⟨fun h1 => hne ?_, hne⟩⟩
    have h1 : (2 : ℕ) ^ k = 1 := by exact_mod_cast h1
    rw [h1, Nat.mod_one, Nat.mod_one]
  intro S rem
  rw [circleUnion, if_neg (by simp [heB]), if_neg (by simp [heA]), if_neg (not_not.mpr hm)]
  simp only [h, asU64_two_pow hk, hrem, hoff]
  cases encodeRangeOverlaps A.left r B.left r2 <;> rfl

/-- Two arcs of one phase are joined as their category says. -/
theorem circleUnion_strided (hk : k ≤ 30) (heA : A.isempty = false) (heB : B.isempty = false)
    (hm : A.mask = B.mask) (hA : A.mask = 2 ^ n - 1)
    (h : unionStride A B = some (r, r2, 2 ^ k)) (hS : Strided n k A B r r2) : UnionExact A B := by
  have hpos := Nat.two_pow_pos n
  -- an answer is right if it has the phase of both and its arc is that of either
  have hans : ∀ l' r', A.left % 2 ^ k = B.left % 2 ^ k → l' % 2 ^ k = A.left % 2 ^ k →
      (∀ v, Mem l' r' v ↔ Mem A.left r v ∨ Mem B.left r2 v) →
      A.circleUnion B = (0, { A with left := l', right := r', step := 2 ^ k }) →
      UnionExact A B := by
    intro l' r' hpB hp harc hC
    refine .inl ⟨_, hC, fun _ => rfl, fun _ => hm, fun v hv => ?_⟩
    have hlt : v < 2 ^ n := by
      change v ≤ A.mask at hv
      omega
    have hv' : containsVal { A with left := l', right := r', step := 2 ^ k } v = true ↔
        v % 2 ^ k = l' % 2 ^ k ∧ Mem l' r' v := containsVal_strided hk heA rfl
    rw [hv', hS.left v hlt, hS.right v hlt, hp, harc v, ← hpB]
    tauto
  have heq := circleUnion_eq hk heA heB hm h
  dsimp only at heq
  by_cases hp : A.left % 2 ^ k = B.left % 2 ^ k
  · rw [if_neg (not_not.mpr hp)] at heq
    by_cases hfull : A.left = r ∨ B.left = r2
    · rw [if_pos hfull] at heq
      refine hans _ _ hp (Nat.mod_mod _ _) (fun v => ?_) heq
      rcases hfull with rfl | rfl <;> simp only [mem_full, true_or, or_true]
    · rw [if_neg hfull] at heq
      obtain ⟨h1, h2⟩ := not_or.mp hfull
      have hj := encodeRangeOverlaps_joins h1 h2
      cases ho : encodeRangeOverlaps A.left r B.left r2 <;> simp only [ho, Overlap.Joins] at heq hj
      case a | f =>
        split_ifs at heq with h3 h4
        · exact hans _ _ hp rfl (fun v => (hj.1 h3 v).symm) heq
        · exact hans _ _ hp hp.symm (fun v => (hj.2 h4 v).symm) heq
        · exact .inr heq
      case b | c => exact hans _ _ hp rfl (fun v => (hj v).symm) heq
      case d | e => exact hans _ _ hp hp.symm (fun v => (hj v).symm) heq
      case g => exact hans _ _ hp (Nat.mod_mod _ _) (fun v => iff_of_true mem_full (hj v)) heq
  · rw [if_pos hp] at heq
    exact .inr heq

theorem unionExact_nonempty (hn : n ≤ 64) (hA : A.WellFormed n) (hB : B.WellFormed n)
    (heA : A.isempty = false) (heB : B.isempty = false) : UnionExact A B := by
  have hm : A.mask = B.mask := hA.mask.trans hB.mask.symm
  cases h : unionStride A B with
  | none =>
    refine .inr ?_
    simp only [circleUnion, heA, heB, hm, h, ne_eq, not_true_eq_false, Bool.false_eq_true, if_false]
  | some s =>
    obtain ⟨r, r2, t⟩ := s
    obtain ⟨k, hk, rfl, hS⟩ := unionStride_spec hn hA hB heA heB h
    exact circleUnion_strided hk heA heB hm hA.mask h hS

/-- `circle_union` is exact for every two ranges, over one domain or two, and the table never yields
another letter than `a` to `g`. -/
theorem circleUnion_exact (hn : n ≤ 64) (hA : A.WellFormed n) (hB : B.WellFormed m) :
    UnionExact A B ∧ ∀ l r l2 r2, ∃ c ∈ "abcdefg".toList,
      arrangeText.toList[overlapIndex l r l2 r2]? = some c := by
  refine ⟨?_, fun l r l2 r2 => ⟨_, ?_, encodeRangeOverlaps_letter⟩⟩
  · cases heB : B.isempty with
    | true =>
      refine .inl ⟨A, if_pos heB, fun _ => rfl, fun h => absurd (heB.symm.trans h) nofun, fun v _ => ?_⟩
      rw [containsVal_of_isempty heB]
      simp only [Bool.false_eq_true, or_false]
    | false =>
      cases heA : A.isempty with
      | true =>
        refine .inl ⟨B, ?_, fun h => absurd (heA.symm.trans h) nofun, fun _ => rfl, fun v _ => ?_⟩
        · simp only [circleUnion, heA, heB, Bool.false_eq_true, if_false, if_true]
        · rw [containsVal_of_isempty heA]
          simp only [Bool.false_eq_true, false_or]
      | false =>
        by_cases hm : A.mask = B.mask
        · have hnm : (2 : ℕ) ^ m - 1 = 2 ^ n - 1 := hB.mask.symm.trans (hm.symm.trans hA.mask)
          have hnm : m = n := by
            have := Nat.two_pow_pos m
            have := Nat.two_pow_pos n
            exact Nat.pow_right_injective le_rfl (show 2 ^ m = 2 ^ n by omega)
          exact unionExact_nonempty hn hA (hnm ▸ hB) heA heB
        · refine .inr ?_
          simp only [circleUnion, heA, heB, ne_eq, hm, not_false_eq_true, Bool.false_eq_true,
            if_false, if_true]
  · cases encodeRangeOverlaps l r l2 r2 <;> decide

/-- A single value of stride 1 joined to a range of stride 4 round the end of the domain. -/
theorem circleUnion_exact_carry :
    UnionExact { left := 4, right := 5, mask := 255, isempty := false, step := 1 }
        { left := 248, right := 4, mask := 255, isempty := false, step := 4 } ∧
      ∀ l r l2 r2, ∃ c ∈ "abcdefg".toList,
        arrangeText.toList[overlapIndex l r l2 r2]? = some c :=
  circleUnion_exact (n := 8) (m := 8) (by norm_num)
    ⟨rfl, by decide, by decide, ⟨0, by norm_num, rfl⟩, by decide⟩
    ⟨rfl, by decide, by decide, ⟨2, by norm_num, rfl⟩, by decide⟩

end Mosura.CircleRange
