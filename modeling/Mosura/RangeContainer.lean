import Mosura.RangeUnion
import Mosura.NzmaskMono

/-! `minimal_container`: when the range it makes holds both of its operands. -/

namespace Mosura.CircleRange
open Arc

variable {n m k c s : ℕ} {A B C R : CircleRange} {maxStep : ℤ} {l r l2 r2 v x : ℕ} {p : ℕ × ℕ}

/-- The values of a range: those of its domain that it contains. -/
def HoldsVal (R : CircleRange) (v : ℕ) : Prop := v ≤ R.mask ∧ R.containsVal v = true

/-- `minimal_container` gives a range that holds both operands, with bounds within its mask, and it
returns true for the full domain alone. -/
def ContainsBoth (A B : CircleRange) (maxStep : ℤ) : Prop :=
  ∃ full C, A.minimalContainer B maxStep = some (full, C) ∧ C.left ≤ C.mask ∧ C.right ≤ C.mask ∧
    (full = true ↔ ∀ v ≤ C.mask, C.HoldsVal v) ∧ ∀ v, A.HoldsVal v ∨ B.HoldsVal v → C.HoldsVal v

/-- One past the last value, the right boundary of the range at the step 1. -/
def unitEnd (R : CircleRange) : ℕ := wrappingAdd (wrappingSub R.right R.stepU) 1

/-- Every value of the domain. -/
def IsWhole (R : CircleRange) : Prop := R.step = 1 ∧ R.left = R.right

/-- Two single values a power of two apart, which become one strided range. -/
def BecomeStrided (A B : CircleRange) (maxStep : ℤ) : Prop :=
  let diff := max A.left B.left - min A.left B.left
  A.isSingle ∧ B.isSingle ∧ 0 < diff ∧ diff ≤ asU64 maxStep ∧
    leastsigbitSet (BitVec.ofNat 64 diff) = mostsigbitSet (BitVec.ofNat 64 diff)

instance : Decidable (IsWhole R) := inferInstanceAs (Decidable (_ ∧ _))

instance : Decidable (BecomeStrided A B maxStep) := inferInstanceAs (Decidable (_ ∧ _))

/-- `whole` is every value of a domain that the joined arc of `R` passes: `R` ends above it, and
starts at zero, or wraps, or is joined from zero on. -/
def Passes (R whole : CircleRange) : Prop :=
  let joint := R.mask ||| whole.mask
  whole.mask < R.unitEnd ∧ R.unitEnd ≤ joint ∧
    (R.unitEnd < R.left ∨ R.left = 0 ∨ whole.left = 0 ∧ R.left + R.unitEnd ≤ joint + 1)

/-- When `minimal_container` is right. -/
def ContainerSound (A B : CircleRange) (maxStep : ℤ) : Prop :=
  let diff := max A.left B.left - min A.left B.left
  let joint := A.mask ||| B.mask
  if BecomeStrided A B maxStep then
    diff < 2 ^ 31 ∧ max A.left B.left + diff < 2 ^ 64 ∧ B.left ≤ A.mask
  else if A.IsWhole then
    B.left = A.left ∧ (B.unitEnd = A.left ∨ B.unitEnd < A.left ∧ joint < 2 ^ 64 - 1) ∨
      ¬B.IsWhole ∧ B.Passes A
  else if B.IsWhole then A.Passes B
  else A.unitEnd ≤ joint ∧ B.unitEnd ≤ joint ∨ A.unitEnd < A.left ∨ B.unitEnd < B.left

/-! The joined arc. -/

/-- The orders of the four boundaries in each overlap category. -/
def Overlap.Order (l r l2 r2 : ℕ) : Overlap → Prop
  | .a => l ≤ r ∧ r ≤ l2 ∧ l2 ≤ r2 ∨ r ≤ l2 ∧ l2 ≤ r2 ∧ r2 < l
  | .b => l2 < r ∧ r ≤ r2 ∧ r2 < l ∨ r ≤ r2 ∧ r2 < l ∧ l ≤ l2 ∨ r2 < l ∧ l ≤ l2 ∧ l2 < r ∨
      l ≤ l2 ∧ l2 < r ∧ r ≤ r2
  | .c => l2 ≤ r2 ∧ r2 < r ∧ r < l ∨ r2 < r ∧ r < l ∧ l ≤ l2 ∨ r < l ∧ l ≤ l2 ∧ l2 ≤ r2 ∨
      l ≤ l2 ∧ l2 ≤ r2 ∧ r2 < r
  | .d => r ≤ r2 ∧ r2 < l2 ∧ l2 < l ∨ r2 < l2 ∧ l2 < l ∧ l ≤ r ∨ l2 < l ∧ l ≤ r ∧ r ≤ r2 ∨
      l ≤ r ∧ r ≤ r2 ∧ r2 < l2
  | .e => r2 < r ∧ r ≤ l2 ∧ l2 < l ∨ r ≤ l2 ∧ l2 < l ∧ l ≤ r2 ∨ l2 < l ∧ l ≤ r2 ∧ r2 < r ∨
      l ≤ r2 ∧ r2 < r ∧ r ≤ l2
  | .f => l2 ≤ r2 ∧ r2 < l ∧ l ≤ r ∨ r2 < l ∧ l ≤ r ∧ r ≤ l2
  | .g => (r < l ∨ r2 < l2) ∧ l ≠ r ∧ l2 ≠ r2

theorem encodeRangeOverlaps_order : Overlap.Order l r l2 r2 (encodeRangeOverlaps l r l2 r2) := by
  unfold encodeRangeOverlaps
  split_ifs <;>
    simp only [Nat.reduceOr, arrange, List.getD_eq_getElem?_getD, List.getElem?_cons_succ,
      List.getElem?_cons_zero, Option.getD_some, Overlap.Order] <;>
    omega

/-- The boundaries of the container of two arcs of unit step in each category. -/
def Overlap.joined (m l r l2 r2 : ℕ) : Overlap → Option (ℕ × ℕ)
  | .a =>
    if r2 ≤ m then
      some (if wrappingAdd (wrappingAdd l (m - r2)) 1 < wrappingSub l2 r then (l2, r) else (l, r2))
    else none
  | .f =>
    if r ≤ m then
      some (if wrappingAdd (wrappingAdd l2 (m - r)) 1 < wrappingSub l r2 then (l, r2) else (l2, r))
    else none
  | .b => some (l, r2)
  | .c => some (l, r)
  | .d => some (l2, r2)
  | .e => some (l2, r)
  | .g => some (0, 0)

def joinedArc (m l r l2 r2 : ℕ) : Option (ℕ × ℕ) :=
  (encodeRangeOverlaps l r l2 r2).joined m l r l2 r2

/-- An arc holds a domain from zero on. -/
theorem mem_all_iff : (∀ v ≤ c, Mem l r v) ↔ l = r ∨ c < r ∧ (l = 0 ∨ r < l) := by
  constructor
  · intro h
    have h0 := h 0 (Nat.zero_le c)
    have hc := h c le_rfl
    have hr : r ≤ c → Mem l r r := h r
    unfold Mem at h0 hc hr
    omega
  · intro h v hv
    unfold Mem
    omega

/-- A proper arc lies on the joined one. -/
theorem joinedArc_mem (hj : joinedArc m l r l2 r2 = some p)
    (hx : l ≠ r ∧ Mem l r x ∨ l2 ≠ r2 ∧ Mem l2 r2 x) : Mem p.1 p.2 x := by
  have ho : Overlap.Order l r l2 r2 (encodeRangeOverlaps l r l2 r2) := encodeRangeOverlaps_order
  unfold joinedArc at hj
  unfold Mem at *
  cases hc : encodeRangeOverlaps l r l2 r2 <;>
    simp only [hc, Overlap.Order, Overlap.joined] at ho hj
  case a | f =>
    split_ifs at hj <;> cases hj <;> omega
  all_goals
    cases hj
    omega

/-- The joined arc of two proper arcs ends within the domain. -/
theorem joinedArc_end (hl : l ≤ m) (hl2 : l2 ≤ m) :
    (∃ p, joinedArc m l r l2 r2 = some p ∧ p.2 ≤ m) ↔ r ≤ m ∧ r2 ≤ m ∨ r < l ∨ r2 < l2 := by
  have ho : Overlap.Order l r l2 r2 (encodeRangeOverlaps l r l2 r2) := encodeRangeOverlaps_order
  unfold joinedArc
  cases hc : encodeRangeOverlaps l r l2 r2 <;>
    simp only [hc, Overlap.Order, Overlap.joined] at ho ⊢
  case a | f =>
    split_ifs <;> simp only [Option.some.injEq, exists_eq_left', false_and,
      exists_false, false_iff] <;> omega
  all_goals
    simp only [Option.some.injEq, exists_eq_left']
    omega

theorem exists_ite_some {q : ℕ × ℕ → Prop} {a b : Prop} [Decidable a] [Decidable b] {x y : ℕ × ℕ} :
    (∃ p, (if a then some (if b then x else y) else none) = some p ∧ q p) ↔
      a ∧ (b ∧ q x ∨ ¬b ∧ q y) := by
  by_cases ha : a <;> by_cases hb : b <;> simp [ha, hb]

/-- The joined arc of a whole domain up to `c` and a proper arc. -/
theorem joinedArc_whole_left (h2 : l2 ≠ r2) (hm : m < 2 ^ 64) (hr2 : r2 < 2 ^ 64) (hlc : l ≤ c)
    (hcm : c ≤ m) (hl2 : l2 ≤ m) :
    (∃ p, joinedArc m l l l2 r2 = some p ∧ p.2 ≤ m ∧ ∀ v ≤ c, Mem p.1 p.2 v) ↔
      l2 = l ∧ r2 < l ∧ m < 2 ^ 64 - 1 ∨
        c < r2 ∧ r2 ≤ m ∧ (r2 < l2 ∨ l2 = 0 ∨ l = 0 ∧ l2 + r2 ≤ m + 1) := by
  have ho : Overlap.Order l l l2 r2 (encodeRangeOverlaps l l l2 r2) := encodeRangeOverlaps_order
  unfold joinedArc
  simp only [mem_all_iff]
  cases hc : encodeRangeOverlaps l l l2 r2 <;>
    simp only [hc, Overlap.Order, Overlap.joined] at ho ⊢
  case a | f =>
    rw [exists_ite_some]
    unfold wrappingAdd wrappingSub
    omega
  all_goals
    simp only [Option.some.injEq, exists_eq_left']
    omega

/-- The joined arc of a proper arc and a whole domain up to `c`. -/
theorem joinedArc_whole_right (h : l ≠ r) (hm : m < 2 ^ 64) (hr : r < 2 ^ 64) (hlc : l2 ≤ c)
    (hcm : c ≤ m) (hl : l ≤ m) :
    (∃ p, joinedArc m l r l2 l2 = some p ∧ p.2 ≤ m ∧ ∀ v ≤ c, Mem p.1 p.2 v) ↔
        c < r ∧ r ≤ m ∧ (r < l ∨ l = 0 ∨ l2 = 0 ∧ l + r ≤ m + 1) := by
  have ho : Overlap.Order l r l2 l2 (encodeRangeOverlaps l r l2 l2) := encodeRangeOverlaps_order
  unfold joinedArc
  simp only [mem_all_iff]
  cases hc : encodeRangeOverlaps l r l2 l2 <;>
    simp only [hc, Overlap.Order, Overlap.joined] at ho ⊢
  case a | f =>
    rw [exists_ite_some]
    unfold wrappingAdd wrappingSub
    omega
  all_goals
    simp only [Option.some.injEq, exists_eq_left']
    omega

/-- The joined arc of two whole domains. -/
theorem joinedArc_wholes {d : ℕ} (hm : m < 2 ^ 64) (hlc : l ≤ c) (hld : l2 ≤ d) (hcm : c ≤ m)
    (hdm : d ≤ m) :
    (∃ p, joinedArc m l l l2 l2 = some p ∧ p.2 ≤ m ∧ (∀ v ≤ c, Mem p.1 p.2 v) ∧
      ∀ v ≤ d, Mem p.1 p.2 v) ↔ l2 = l := by
  have ho : Overlap.Order l l l2 l2 (encodeRangeOverlaps l l l2 l2) := encodeRangeOverlaps_order
  unfold joinedArc
  simp only [mem_all_iff]
  cases hc : encodeRangeOverlaps l l l2 l2 <;>
    simp only [hc, Overlap.Order, Overlap.joined] at ho ⊢
  case a | f =>
    rw [exists_ite_some]
    unfold wrappingAdd wrappingSub
    omega
  all_goals
    simp only [Option.some.injEq, exists_eq_left']
    omega

/-! The ranges of the arcs. -/

theorem unitEnd_lt : R.unitEnd < 2 ^ 64 := Nat.mod_lt _ (Nat.two_pow_pos 64)

theorem unitEnd_of_whole (hn : n ≤ 64) (hR : R.WellFormed n) (h : R.IsWhole) :
    R.unitEnd = R.left := by
  obtain ⟨hs, hlr⟩ := h
  have hU : R.stepU = 1 := by
    have := hR.step_eq
    omega
  have hr := hR.right_lt.trans_le (Nat.pow_le_pow_right two_pos hn)
  unfold unitEnd wrappingAdd wrappingSub
  omega

/-- The right boundary at the step 1 is one past the last value. -/
theorem unitEnd_cases (hn : n ≤ 64) (hR : R.WellFormed n) :
    R.stepU ≤ R.right ∧ R.unitEnd = R.right - R.stepU + 1 ∨
      R.right < R.stepU ∧ R.unitEnd = (2 ^ 64 + R.right + 1 - R.stepU) % 2 ^ 64 := by
  obtain ⟨k, hk, _, hU⟩ := hR.stepU_eq
  have hr := hR.right_lt.trans_le (Nat.pow_le_pow_right two_pos hn)
  have hU64 : R.stepU < 2 ^ 64 := hU ▸ Nat.pow_lt_pow_right (by norm_num) (by omega)
  have hpos := hR.stepU_pos
  unfold unitEnd wrappingAdd wrappingSub
  omega

/-- The values of a range lie on its arc of unit step, which is a proper one. -/
theorem mem_unitEnd (hn : n ≤ 64) (hR : R.WellFormed n) (h : ¬R.IsWhole) :
    R.left ≠ R.unitEnd ∧ ∀ v, R.HoldsVal v → Mem R.left R.unitEnd v := by
  obtain ⟨k, hk, _, hU⟩ := hR.stepU_eq
  have hr := hR.right_lt.trans_le (Nat.pow_le_pow_right two_pos hn)
  have hl := hR.left_lt.trans_le (Nat.pow_le_pow_right two_pos hn)
  have hpos := hR.stepU_pos
  have hdvd : R.stepU ∣ 2 ^ 64 := hU ▸ Nat.pow_dvd_pow 2 (by omega)
  have hstep : R.left = R.right → 1 < R.stepU := by
    intro hlr
    by_contra h1
    refine h ⟨?_, hlr⟩
    have := hR.step_eq
    omega
  -- a value below the right boundary is a step below it, also round the end of the word
  have hbelow : ∀ v, v % R.stepU = R.left % R.stepU → v < R.right → v + R.stepU ≤ R.right :=
    fun v hv hlt => add_le_of_lt (hv.trans hR.phase.symm) hlt
  have hround : ∀ v < 2 ^ 64, v % R.stepU = R.left % R.stepU → v + R.stepU ≤ R.right + 2 ^ 64 :=
    fun v hv hp => add_le_add_modulus hdvd (hp.trans hR.phase.symm) hv
  have hend := unitEnd_cases hn hR
  constructor
  · have := hbelow R.left rfl
    have := hround R.left hl rfl
    omega
  · rintro v ⟨hvm, hv⟩
    obtain ⟨_, hp, harc⟩ := hR.containsVal_iff.mp hv
    have hv64 : v < 2 ^ 64 := by
      have := Nat.pow_le_pow_right two_pos hn
      have := Nat.two_pow_pos n
      rw [hR.mask] at hvm
      omega
    have := hbelow v hp
    have := hround v hv64 hp
    have := hbelow R.left rfl
    unfold Mem at harc ⊢
    omega

/-! The container on its arc. -/

/-- The container with given boundaries. -/
def onArc (A : CircleRange) (m : ℕ) (p : ℕ × ℕ) : CircleRange :=
  normalize { A with left := p.1, right := p.2, mask := m, step := 1 }

theorem minimalContainer_eq (h : ¬BecomeStrided A B maxStep) :
    A.minimalContainer B maxStep =
      (joinedArc (A.mask ||| B.mask) A.left A.unitEnd B.left B.unitEnd).map fun p =>
        (decide ((A.onArc (A.mask ||| B.mask) p).left = (A.onArc (A.mask ||| B.mask) p).right),
          A.onArc (A.mask ||| B.mask) p) := by
  have hlo : (if A.left < B.left then A.left else B.left) = min A.left B.left := by
    split_ifs <;> omega
  have hhi : (if A.left < B.left then B.left else A.left) = max A.left B.left := by
    split_ifs <;> omega
  unfold BecomeStrided at h
  simp only [minimalContainer, hlo, hhi]
  rw [if_neg h]
  simp only [joinedArc, unitEnd, subU64, onArc]
  cases encodeRangeOverlaps A.left (wrappingAdd (wrappingSub A.right A.stepU) 1) B.left
    (wrappingAdd (wrappingSub B.right B.stepU) 1)
  case a | f =>
    simp only [Overlap.joined]
    split_ifs <;> simp only [Option.map_some, Option.map_none, if_true, if_false, *] <;> rfl
  all_goals rfl

theorem onArc_mask : (A.onArc m p).mask = m := by
  unfold onArc normalize
  split_ifs <;> rfl

theorem onArc_bounds : p.1 = p.2 ∧ (A.onArc m p).left = 0 ∧ (A.onArc m p).right = 0 ∨
    p.1 ≠ p.2 ∧ (A.onArc m p).left = p.1 ∧ (A.onArc m p).right = p.2 := by
  unfold onArc normalize
  split_ifs with h1 h2
  · exact absurd rfl h2
  · exact .inl ⟨h1, rfl, rfl⟩
  · exact .inr ⟨h1, rfl, rfl⟩

theorem onArc_holds (he : A.isempty = false) :
    (A.onArc m p).HoldsVal v ↔ v ≤ m ∧ Mem p.1 p.2 v := by
  have hstep : (A.onArc m p).step = 1 := by
    unfold onArc normalize
    split_ifs <;> rfl
  have hempty : (A.onArc m p).isempty = false := by
    unfold onArc normalize
    split_ifs <;> exact he
  have hU : (A.onArc m p).stepU = 1 := by
    unfold stepU
    rw [hstep]
    rfl
  unfold HoldsVal
  rw [onArc_mask, CircleRange.containsVal_iff fun _ => hU, hU, Nat.mod_one, Nat.mod_one]
  simp only [hempty, true_and, and_congr_right_iff]
  intro _
  obtain ⟨h, hl, hr⟩ | ⟨_, hl, hr⟩ := @onArc_bounds m A p
  · rw [hl, hr, h]
    exact iff_of_true mem_full mem_full
  · rw [hl, hr]

theorem joinedArc_left (hj : joinedArc m l r l2 r2 = some p) : p.1 = l ∨ p.1 = l2 ∨ p.1 = 0 := by
  unfold joinedArc at hj
  cases hc : encodeRangeOverlaps l r l2 r2 <;> simp only [hc, Overlap.joined] at hj
  case a | f =>
    split_ifs at hj <;> cases hj <;> simp
  all_goals
    cases hj
    simp

/-- Outside the strided case the container is right if the joined arc ends within the domain and
every value is on it. -/
theorem containsBoth_iff_arc (hA : A.WellFormed n) (hB : B.WellFormed m) (he : A.isempty = false)
    (h : ¬BecomeStrided A B maxStep) : ContainsBoth A B maxStep ↔
      ∃ p, joinedArc (A.mask ||| B.mask) A.left A.unitEnd B.left B.unitEnd = some p ∧
        p.2 ≤ A.mask ||| B.mask ∧ ∀ v, A.HoldsVal v ∨ B.HoldsVal v → Mem p.1 p.2 v := by
  have hmA : A.mask ≤ A.mask ||| B.mask := Nat.left_le_or
  have hmB : B.mask ≤ A.mask ||| B.mask := Nat.right_le_or
  have hlA := hA.left
  have hlB := hB.left
  unfold ContainsBoth
  rw [minimalContainer_eq h]
  generalize A.mask ||| B.mask = joint at *
  constructor
  · rintro ⟨full, C, hC, _, hright, _, hall⟩
    obtain ⟨p, hp, hpC⟩ := Option.map_eq_some_iff.mp hC
    cases hpC
    have hb := @onArc_bounds joint A p
    have hl := joinedArc_left hp
    rw [onArc_mask] at hright
    refine ⟨p, hp, by omega, fun v hv => ((onArc_holds he).mp (hall v hv)).2⟩
  · rintro ⟨p, hp, hend, hall⟩
    have hb := @onArc_bounds joint A p
    have hl := joinedArc_left hp
    refine ⟨_, _, by rw [hp]; rfl, ?_, ?_, ?_, fun v hv => (onArc_holds he).mpr ⟨?_, hall v hv⟩⟩
    · rw [onArc_mask]
      omega
    · rw [onArc_mask]
      omega
    · simp only [decide_eq_true_eq, onArc_mask, onArc_holds he]
      constructor
      · intro hfull v hv
        refine ⟨hv, ?_⟩
        unfold Mem
        omega
      · intro hfull
        have := (hfull p.2 hend).2
        unfold Mem at this
        omega
    · rcases hv with hv | hv
      · exact hv.1.trans hmA
      · exact hv.1.trans hmB

theorem holdsVal_of_whole (hR : R.WellFormed n) (he : R.isempty = false) (h : R.IsWhole) :
    R.HoldsVal v ↔ v ≤ R.mask := by
  obtain ⟨hs, hlr⟩ := h
  have hU : R.stepU = 1 := by
    have := hR.step_eq
    omega
  unfold HoldsVal
  rw [hR.containsVal_iff, hU, Nat.mod_one, Nat.mod_one, hlr]
  exact ⟨And.left, fun hv => ⟨hv, he, rfl, mem_full⟩⟩

/-- The container of two ranges that do not become one strided range. -/
theorem containsBoth_joined (hn : n ≤ 64) (hm : m ≤ 64) (hA : A.WellFormed n)
    (hB : B.WellFormed m) (heA : A.isempty = false) (heB : B.isempty = false)
    (h : ¬BecomeStrided A B maxStep) :
    ContainsBoth A B maxStep ↔ ContainerSound A B maxStep := by
  have hA64 : A.mask < 2 ^ 64 := by
    have := Nat.pow_le_pow_right two_pos hn
    have := Nat.two_pow_pos n
    rw [hA.mask]
    omega
  have hB64 : B.mask < 2 ^ 64 := by
    have := Nat.pow_le_pow_right two_pos hm
    have := Nat.two_pow_pos m
    rw [hB.mask]
    omega
  have hjoint : A.mask ||| B.mask < 2 ^ 64 := Nat.or_lt_two_pow hA64 hB64
  have hlA : A.left ≤ A.mask ||| B.mask := hA.left.trans Nat.left_le_or
  have hlB : B.left ≤ A.mask ||| B.mask := hB.left.trans Nat.right_le_or
  rw [containsBoth_iff_arc hA hB heA h, ContainerSound]
  simp only [if_neg h]
  by_cases hwA : A.IsWhole
  · have hendA := unitEnd_of_whole hn hA hwA
    have hallA : ∀ v, A.HoldsVal v ↔ v ≤ A.mask := fun v => holdsVal_of_whole hA heA hwA
    simp only [if_pos hwA]
    by_cases hwB : B.IsWhole
    · have hendB := unitEnd_of_whole hm hB hwB
      have hallB : ∀ v, B.HoldsVal v ↔ v ≤ B.mask := fun v => holdsVal_of_whole hB heB hwB
      have hiff := joinedArc_wholes hjoint hA.left hB.left Nat.left_le_or Nat.right_le_or
      simp only [hendA, hendB, hallA, hallB, or_imp, forall_and, hiff, hwB, not_true_eq_false,
        false_and, or_false]
      omega
    · obtain ⟨hneB, harcB⟩ := mem_unitEnd hm hB hwB
      have hiff := joinedArc_whole_left hneB hjoint unitEnd_lt hA.left Nat.left_le_or hlB
      simp only [hendA, hwB, not_false_eq_true, true_and, Passes, Nat.or_comm B.mask]
      constructor
      · rintro ⟨p, hp, hend, hall⟩
        refine (hiff.mp ⟨p, hp, hend, fun v hv => hall v (.inl ((hallA v).mpr hv))⟩).imp_left ?_
        exact fun h => ⟨h.1, .inr h.2⟩
      · intro hcase
        obtain ⟨p, hp, hend, hall⟩ := hiff.mpr (hcase.imp_left fun h =>
          ⟨h.1, h.2.resolve_left fun he => hneB (h.1.trans he.symm)⟩)
        refine ⟨p, hp, hend, fun v hv => ?_⟩
        rcases hv with hv | hv
        · exact hall v ((hallA v).mp hv)
        · exact joinedArc_mem hp (.inr ⟨hneB, harcB v hv⟩)
  · obtain ⟨hneA, harcA⟩ := mem_unitEnd hn hA hwA
    simp only [if_neg hwA]
    by_cases hwB : B.IsWhole
    · have hendB := unitEnd_of_whole hm hB hwB
      have hallB : ∀ v, B.HoldsVal v ↔ v ≤ B.mask := fun v => holdsVal_of_whole hB heB hwB
      have hiff := joinedArc_whole_right hneA hjoint unitEnd_lt hB.left Nat.right_le_or hlA
      simp only [if_pos hwB, hendB, Passes]
      rw [← hiff]
      constructor
      · rintro ⟨p, hp, hend, hall⟩
        exact ⟨p, hp, hend, fun v hv => hall v (.inr ((hallB v).mpr hv))⟩
      · rintro ⟨p, hp, hend, hall⟩
        refine ⟨p, hp, hend, fun v hv => ?_⟩
        rcases hv with hv | hv
        · exact joinedArc_mem hp (.inl ⟨hneA, harcA v hv⟩)
        · exact hall v ((hallB v).mp hv)
    · obtain ⟨hneB, harcB⟩ := mem_unitEnd hm hB hwB
      simp only [if_neg hwB]
      rw [← joinedArc_end hlA hlB]
      constructor
      · rintro ⟨p, hp, hend, _⟩
        exact ⟨p, hp, hend⟩
      · rintro ⟨p, hp, hend⟩
        refine ⟨p, hp, hend, fun v hv => joinedArc_mem hp ?_⟩
        exact hv.imp (fun hv => ⟨hneA, harcA v hv⟩) fun hv => ⟨hneB, harcB v hv⟩

/-! Two single values. -/

/-- A word whose lowest bit is its highest is a power of two. -/
theorem two_pow_of_bits (h0 : 0 < x) (hx : x < 2 ^ 64)
    (h : leastsigbitSet (BitVec.ofNat 64 x) = mostsigbitSet (BitVec.ofNat 64 x)) :
    ∃ k < 64, x = 2 ^ k := by
  have hto : (BitVec.ofNat 64 x).toNat = x := by
    rw [BitVec.toNat_ofNat, Nat.mod_eq_of_lt hx]
  have hne : BitVec.ofNat 64 x ≠ 0 := by
    intro he
    rw [he] at hto
    exact h0.ne hto
  have hlog : Nat.log2 x < 64 := (Nat.log2_lt h0.ne').mpr hx
  rw [mostsigbitSet, if_neg hne, hto] at h
  obtain ⟨_, hlow⟩ := leastsigbitSet_eq_some.mp h
  refine ⟨Nat.log2 x, hlog, Nat.eq_of_testBit_eq fun i => ?_⟩
  rw [Nat.testBit_two_pow]
  rcases lt_trichotomy i (Nat.log2 x) with hi | hi | hi
  · have := hlow i hi
    rw [BitVec.getLsbD, hto] at this
    rw [this]
    simp only [Bool.false_eq, decide_eq_false_iff_not]
    omega
  · subst hi
    simp [Nat.testBit_log2 h0.ne']
  · rw [Nat.testBit_eq_false_of_lt ((Nat.log2_lt h0.ne').mp hi)]
    simp only [Bool.false_eq, decide_eq_false_iff_not]
    omega

theorem asI32_two_pow (hk : k ≤ 30) : asI32 (2 ^ k) = 2 ^ k := by
  have h : (2 : ℕ) ^ k < 2 ^ 31 := Nat.pow_lt_pow_right (by norm_num) (by omega)
  unfold asI32
  rw [show ((2 : ℤ) ^ k) = ((2 ^ k : ℕ) : ℤ) by push_cast; rfl]
  generalize 2 ^ k = d at h
  exact Int.bmod_eq_of_le (by omega) (by omega)

theorem asI32_eq_zero (hk : 32 ≤ k) : asI32 (2 ^ k) = 0 := by
  have h : (((2 ^ k : ℕ) : ℤ)) % ((2 ^ 32 : ℕ) : ℤ) = 0 := by
    exact_mod_cast Nat.mod_eq_zero_of_dvd (Nat.pow_dvd_pow 2 hk)
  unfold asI32
  rw [Int.bmod_def, h]
  rfl

theorem minimalContainer_strided (h : BecomeStrided A B maxStep) :
    A.minimalContainer B maxStep =
      let lo := min A.left B.left
      let hi := max A.left B.left
      (addU64 hi (asU64 (asI32 (hi - lo)))).map fun next =>
        (false, { A with step := asI32 (hi - lo), left := lo, right := next &&& A.mask }) := by
  have hlo : (if A.left < B.left then A.left else B.left) = min A.left B.left := by
    split_ifs <;> omega
  have hhi : (if A.left < B.left then B.left else A.left) = max A.left B.left := by
    split_ifs <;> omega
  unfold BecomeStrided at h
  simp only [minimalContainer, hlo, hhi]
  rw [if_pos h]

/-- The strided range of two values a power of two apart holds both, and is never the domain. -/
theorem strided_holds (hn1 : 1 < n) (hk : k ≤ 30) (he : C.isempty = false)
    (hm : C.mask = 2 ^ n - 1) (hs : C.step = 2 ^ k) (hx : C.left + 2 ^ k < 2 ^ n)
    (hr : C.right = (C.left + 2 ^ k + 2 ^ k) % 2 ^ n) :
    C.HoldsVal C.left ∧ C.HoldsVal (C.left + 2 ^ k) ∧ ¬∀ v ≤ C.mask, C.HoldsVal v := by
  have hv : ∀ v, C.containsVal v = true ↔ v % 2 ^ k = C.left % 2 ^ k ∧ Mem C.left C.right v :=
    fun v => containsVal_strided hk he hs
  have hkn : k < n := by
    by_contra hnk
    have := Nat.pow_le_pow_right two_pos (not_lt.mp hnk)
    omega
  have htwo : 2 ^ k + 2 ^ k ≤ 2 ^ n := by
    have := Nat.pow_le_pow_right two_pos (show k + 1 ≤ n from hkn)
    rw [Nat.pow_succ] at this
    omega
  have hpos := Nat.two_pow_pos k
  have hright : C.right = C.left + 2 ^ k + 2 ^ k ∨ C.right + 2 ^ n = C.left + 2 ^ k + 2 ^ k := by
    rcases Nat.lt_or_ge (C.left + 2 ^ k + 2 ^ k) (2 ^ n) with hlt | hge
    · exact .inl (hr.trans (Nat.mod_eq_of_lt hlt))
    · rw [hr, Nat.mod_eq_sub_mod hge, Nat.mod_eq_of_lt (by omega)]
      omega
  refine ⟨⟨by omega, (hv _).mpr ⟨rfl, mem_left⟩⟩, ⟨by omega, (hv _).mpr ⟨?_, ?_⟩⟩, fun hall => ?_⟩
  · rw [Nat.add_mod_right]
  · unfold Mem
    omega
  · have h4 : 2 ^ 2 ≤ 2 ^ n := Nat.pow_le_pow_right two_pos hn1
    rcases Nat.eq_zero_or_pos k with rfl | hk0
    · -- a step of one: the right boundary is left out
      have hlt : C.right < 2 ^ n := hr ▸ Nat.mod_lt _ (Nat.two_pow_pos n)
      have := ((hv _).mp (hall C.right (by omega)).2).2
      unfold Mem at this
      omega
    · -- a longer step passes zero or one
      have h0 := ((hv _).mp (hall 0 (Nat.zero_le _)).2).1
      have h1 := ((hv _).mp (hall 1 (by omega)).2).1
      have : 1 < 2 ^ k := Nat.one_lt_two_pow hk0.ne'
      rw [Nat.zero_mod] at h0
      rw [Nat.mod_eq_of_lt this] at h1
      omega

/-- The container of two single values that become one strided range. -/
theorem containsBoth_strided (hn : n ≤ 64) (hm : m ≤ 64) (hn1 : 1 < n) (hA : A.WellFormed n)
    (hB : B.WellFormed m) (h : BecomeStrided A B maxStep) :
    ContainsBoth A B maxStep ↔ ContainerSound A B maxStep := by
  have hlA := hA.left_lt
  have hlA64 := hlA.trans_le (Nat.pow_le_pow_right two_pos hn)
  have hlB64 := hB.left_lt.trans_le (Nat.pow_le_pow_right two_pos hm)
  have heq := minimalContainer_strided h
  obtain ⟨hsA, hsB, h0, _, hbits⟩ := id h
  have heA : A.isempty = false := ((hA.isSingle_iff hn).mp hsA).1
  have heB : B.isempty = false := ((hB.isSingle_iff hm).mp hsB).1
  obtain ⟨k, hk, hd⟩ := two_pow_of_bits h0 (by omega) hbits
  have hvalA : ∀ v, A.HoldsVal v ↔ v = A.left := by
    intro v
    refine ⟨fun hv => ?_, fun hv => hv ▸ ⟨hA.left, hA.containsVal_left heA⟩⟩
    have hvm := hv.1
    rw [hA.mask] at hvm
    exact (hA.containsVal_single hn hsA (by omega)).mp hv.2
  have hvalB : ∀ v, B.HoldsVal v ↔ v = B.left := by
    intro v
    refine ⟨fun hv => ?_, fun hv => hv ▸ ⟨hB.left, hB.containsVal_left heB⟩⟩
    have hvm := hv.1
    rw [hB.mask] at hvm
    have := Nat.two_pow_pos m
    exact (hB.containsVal_single hm hsB (by omega)).mp hv.2
  have hsplit : min A.left B.left + 2 ^ k = max A.left B.left := by omega
  have hends : A.left = min A.left B.left ∧ B.left = max A.left B.left ∨
      A.left = max A.left B.left ∧ B.left = min A.left B.left := by omega
  simp only [ContainerSound, if_pos h, ContainsBoth, heq, hvalA, hvalB, hd]
  generalize min A.left B.left = lo at *
  generalize max A.left B.left = hi at *
  constructor
  · rintro ⟨full, C, hC, _, _, _, hall⟩
    obtain ⟨next, hnext, hC⟩ := Option.map_eq_some_iff.mp hC
    cases hC
    have hB := hall B.left (.inr rfl)
    have hhi : containsVal { A with step := asI32 (2 ^ k), left := lo, right := next &&& A.mask } hi =
        true := by
      rcases hends with ⟨_, he⟩ | ⟨he, _⟩
      · exact he ▸ hB.2
      · exact he ▸ (hall A.left (.inl rfl)).2
    have hk30 : k ≤ 30 := by
      by_contra hk30
      rcases Nat.lt_or_ge k 32 with hk32 | hk32
      · -- the step is the least `i32`, and the sum overflows
        obtain rfl : k = 31 := by omega
        rw [addU64, if_neg] at hnext
        · cases hnext
        · rw [show asU64 (asI32 (2 ^ 31)) = 2 ^ 64 - 2 ^ 31 by decide]
          omega
      · -- the step is zero
        rw [asI32_eq_zero hk32] at hhi
        simp only [containsVal, heA, stepU, asU64, EuclideanDomain.zero_mod, Int.toNat_zero,
          Nat.mod_zero] at hhi
        have hpos := Nat.two_pow_pos k
        rw [if_neg (by simp), if_pos ⟨by simp, by omega⟩] at hhi
        cases hhi
    refine ⟨Nat.pow_lt_pow_right (by norm_num) (by omega), ?_, hB.1⟩
    rw [asI32_two_pow hk30, asU64_two_pow hk30, addU64] at hnext
    by_contra h64
    rw [if_neg h64] at hnext
    cases hnext
  · rintro ⟨h31, h64, hmask⟩
    have hk30 : k ≤ 30 := by
      by_contra hk30
      have := Nat.pow_le_pow_right two_pos (show 31 ≤ k by omega)
      omega
    rw [asI32_two_pow hk30, asU64_two_pow hk30, addU64, if_pos h64, Option.map_some]
    have hmod : hi + 2 ^ k &&& A.mask = (lo + 2 ^ k + 2 ^ k) % 2 ^ n := by
      rw [hA.mask, Nat.and_two_pow_sub_one_eq_mod, hsplit]
    have hpos := Nat.two_pow_pos n
    have hhi : hi < 2 ^ n := by
      rw [hA.mask] at hmask
      omega
    have hup : lo + 2 ^ k < 2 ^ n := hsplit ▸ hhi
    obtain ⟨hlo, hup, hnot⟩ := strided_holds
      (C := { A with step := 2 ^ k, left := lo, right := hi + 2 ^ k &&& A.mask })
      hn1 hk30 heA hA.mask rfl hup hmod
    refine ⟨false, _, rfl, ?_, ?_, ?_, ?_⟩
    · exact hlo.1
    · exact Nat.and_le_right
    · simpa using hnot
    · intro v hv
      dsimp only at hup hlo
      rw [hsplit] at hup
      rcases hends with ⟨he, he2⟩ | ⟨he, he2⟩ <;> rcases hv with rfl | rfl
      · exact he ▸ hlo
      · exact he2 ▸ hup
      · exact he ▸ hup
      · exact he2 ▸ hlo

/-- `minimal_container` holds both of its operands exactly when `ContainerSound` says so. -/
theorem minimalContainer_contains_iff (hn : n ≤ 64) (hm : m ≤ 64) (hn1 : 1 < n)
    (hA : A.WellFormed n) (hB : B.WellFormed m) (heA : A.isempty = false)
    (heB : B.isempty = false) : ContainsBoth A B maxStep ↔ ContainerSound A B maxStep := by
  by_cases h : BecomeStrided A B maxStep
  · exact containsBoth_strided hn hm hn1 hA hB h
  · exact containsBoth_joined hn hm hA hB heA heB h

/-- A strided range and one round the end of the domain. -/
theorem minimalContainer_contains_iff_carry :
    let A : CircleRange := { left := 4, right := 12, mask := 255, isempty := false, step := 4 }
    let B : CircleRange := { left := 250, right := 2, mask := 255, isempty := false, step := 1 }
    ContainsBoth A B 4 ↔ ContainerSound A B 4 :=
  minimalContainer_contains_iff (n := 8) (m := 8) (by norm_num) (by norm_num) (by norm_num)
    ⟨rfl, by decide, by decide, ⟨2, by norm_num, rfl⟩, by decide⟩
    ⟨rfl, by decide, by decide, ⟨0, by norm_num, rfl⟩, by decide⟩ rfl rfl

/-- A whole byte and a short range: the container is the short range from zero on. -/
theorem minimalContainer_loses_values :
    ¬∀ (A B : CircleRange) (maxStep : ℤ), A.WellFormed 8 → B.WellFormed 8 → A.isempty = false →
      B.isempty = false → ContainsBoth A B maxStep := by
  intro h
  obtain ⟨full, C, hC, _, _, _, hall⟩ :=
    h { left := 0, right := 0, mask := 255, isempty := false, step := 1 }
      { left := 5, right := 9, mask := 255, isempty := false, step := 1 } 1
      ⟨rfl, by decide, by decide, ⟨0, by norm_num, rfl⟩, by decide⟩
      ⟨rfl, by decide, by decide, ⟨0, by norm_num, rfl⟩, by decide⟩ rfl rfl
  have h200 := (hall 200 (.inl ⟨by decide, by decide⟩)).2
  cases hC
  revert h200
  decide

end Mosura.CircleRange
