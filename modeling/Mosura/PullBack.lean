import Mosura.RangeChecks
import Mosura.RangeIntersect
import Mosura.Lib.Signed

/-! Pulling a range back through one op: when the range left holds exactly the inputs whose result is
in the range given. -/

namespace Mosura.CircleRange
open Arc

variable {n : ℕ} {R R' : CircleRange} {opc : OpCode} {val slot inSize outSize x y c : ℕ}

/-- The range `R'` holds exactly the inputs of `inSize` bytes that `op` takes into `R`. -/
def Preimage (R R' : CircleRange) (inSize : ℕ) (op : ℕ → Option ℕ) : Prop :=
  ∀ x < 2 ^ (8 * inSize), ∀ y, op x = some y → (R'.containsVal x = true ↔ R.containsVal y = true)

/-- The value of a binary op with the variable in `slot` and the constant `val` in the other slot. -/
def withConstant (opc : OpCode) (val slot inSize outSize x : ℕ) : Option ℕ :=
  if slot = 0 then evalBinary opc inSize inSize outSize x val
  else evalBinary opc inSize inSize outSize val x

/-- The inputs on which `pull_back_unary` is exact. -/
def UnaryExactWhen (R : CircleRange) (inSize outSize : ℕ) : OpCode → Prop
  | .intZext => R.left % R.stepU < 2 ^ (8 * inSize) ∨ R.containsVal (R.left % R.stepU) = false
  | .intSext => ∀ e < 2 ^ (8 * outSize), R.containsVal e = true → ∀ y,
    evalUnary .intSext inSize outSize (e % 2 ^ (8 * inSize)) = some y → R.containsVal y = true
  | _ => True

/-- The inputs on which `pull_back_binary` is exact. -/
def BinaryExactWhen (R : CircleRange) (val slot inSize : ℕ) : OpCode → Prop
  | .intEqual | .intNotequal | .intLess | .intLessequal | .intSless | .intSlessequal | .intCarry =>
    ¬R.holdsBoth
  | .intSub =>
    slot = 0 ∨ R.isempty = true ∨ R.left = R.right ∨ 2 * R.stepU = 2 ^ (8 * inSize)
  | .intRight => ¬(val = 0 ∧ inSize = 8) ∨ R.isempty = true ∨ R.left = R.right
  | .intSright => val < 8 * inSize ∨
    (R.containsVal 0 = true ↔ R.containsVal (2 ^ (8 * inSize) - 1) = true)
  | _ => True

/-! Ranges turned and mirrored with the circle. -/

/-- A range turned by `c` holds the turned values. -/
theorem containsVal_turn (hR : R.WellFormed n) (hy : y < 2 ^ n) :
    containsVal { R with left := (R.left + c) % 2 ^ n, right := (R.right + c) % 2 ^ n }
      ((y + c) % 2 ^ n) = true ↔ R.containsVal y = true := by
  rw [containsVal_bounds hR, hR.containsVal_iff, mem_add hR.left_lt hR.right_lt hy]
  refine and_congr_right fun _ => and_congr_left fun hm => ?_
  rcases hR.stepU_dvd_or with hd | hd
  · rw [Nat.mod_mod_of_dvd _ hd, Nat.mod_mod_of_dvd _ hd]
    exact ⟨Nat.ModEq.add_right_cancel' c, Nat.ModEq.add_right c⟩
  · have hle := Nat.le_of_dvd hR.stepU_pos hd
    have hM := Nat.two_pow_pos n
    rw [Nat.mod_eq_of_lt ((Nat.mod_lt _ hM).trans_le hle), Nat.mod_eq_of_lt (hy.trans_le hle),
      Nat.mod_eq_of_lt ((Nat.mod_lt _ hM).trans_le hle), Nat.mod_eq_of_lt (hR.left_lt.trans_le hle)]
    exact ⟨add_mod_left_cancel hy hR.left_lt, fun h => by rw [h]⟩

/-- A range mirrored in `c` holds the mirrored values. -/
theorem containsVal_mirror {l r : ℕ} (hR : R.WellFormed n) (hl : l < 2 ^ n) (hr : r < 2 ^ n)
    (hx : x < 2 ^ n) (hy : y < 2 ^ n) (hc : c < 2 ^ n)
    (h1 : (l + R.right) % 2 ^ n = (c + R.stepU) % 2 ^ n)
    (h2 : (r + R.left) % 2 ^ n = (c + R.stepU) % 2 ^ n) (h3 : (x + y) % 2 ^ n = c) :
    containsVal { R with left := l, right := r } x = true ↔ R.containsVal y = true := by
  rw [containsVal_bounds hR, hR.containsVal_iff]
  refine and_congr_right fun _ => ?_
  have hp := hR.phase
  have hc' : c % 2 ^ n = c := Nat.mod_eq_of_lt hc
  rcases hR.stepU_dvd_or with hd | hd
  · have hsum : (x + y) % R.stepU = (l + R.left) % R.stepU := by
      calc (x + y) % R.stepU = (x + y) % 2 ^ n % R.stepU := (Nat.mod_mod_of_dvd _ hd).symm
        _ = (c + R.stepU) % 2 ^ n % R.stepU := by
          rw [h3, Nat.mod_mod_of_dvd _ hd, Nat.add_mod_right]
        _ = (l + R.right) % R.stepU := by rw [← h1, Nat.mod_mod_of_dvd _ hd]
        _ = (l + R.left) % R.stepU := by rw [Nat.add_mod, hp, ← Nat.add_mod]
    rw [phase_mirror hsum]
    refine and_congr_right fun hy' => ?_
    exact mem_reflect hd hR.left_lt hR.right_lt hy hl hr hx hc hp hy' h1 h2 (h3.trans hc'.symm)
  · have hle := Nat.le_of_dvd hR.stepU_pos hd
    have hsame : R.left = R.right := by
      rwa [Nat.mod_eq_of_lt (hR.right_lt.trans_le hle), Nat.mod_eq_of_lt (hR.left_lt.trans_le hle),
        eq_comm] at hp
    have hs0 : (c + R.stepU) % 2 ^ n = c := by
      rw [Nat.add_mod, Nat.mod_eq_zero_of_dvd hd, Nat.add_zero, Nat.mod_mod, hc']
    rw [hs0, ← hsame] at h1
    rw [hs0] at h2
    obtain rfl : l = r := add_mod_left_cancel hl hr (h1.trans h2.symm)
    rw [← hsame, Nat.mod_eq_of_lt (hx.trans_le hle), Nat.mod_eq_of_lt (hl.trans_le hle),
      Nat.mod_eq_of_lt (hy.trans_le hle), Nat.mod_eq_of_lt (hR.left_lt.trans_le hle)]
    simp only [mem_full, and_true]
    constructor
    · rintro rfl
      rw [Nat.add_comm] at h1 h3
      exact add_mod_left_cancel hy hR.left_lt (h3.trans h1.symm)
    · rintro rfl
      exact add_mod_left_cancel hx hl (h3.trans h1.symm)

/-! Mirrored boundaries. -/

theorem neg_boundary (hn : n ≤ 64) {b s : ℕ} (hb : b < 2 ^ n) :
    ((wrappingAdd (wrappingAdd (notU64 b) 1) s &&& 2 ^ n - 1) + b) % 2 ^ n = (0 + s) % 2 ^ n := by
  have hle : (2 : ℕ) ^ n ≤ 2 ^ 64 := Nat.pow_le_pow_right two_pos hn
  rw [wrappingAdd_and hn, Nat.mod_add_mod, wrappingAdd, notU64, Nat.add_assoc, Nat.add_mod,
    Nat.mod_mod_of_dvd _ (Nat.pow_dvd_pow 2 hn), ← Nat.add_mod,
    show 2 ^ 64 - 1 - b + 1 + (s + b) = 0 + s + 2 ^ 64 by omega, add_word_mod hn]

theorem not_boundary (hn : n ≤ 64) {b s : ℕ} (hb : b < 2 ^ n) :
    ((wrappingAdd (notU64 b) s &&& 2 ^ n - 1) + b) % 2 ^ n = (2 ^ n - 1 + s) % 2 ^ n := by
  have hle : (2 : ℕ) ^ n ≤ 2 ^ 64 := Nat.pow_le_pow_right two_pos hn
  have hpos := Nat.two_pow_pos n
  have hd : 2 ^ n ∣ 2 ^ 64 - 2 ^ n := Nat.dvd_sub (Nat.pow_dvd_pow 2 hn) dvd_rfl
  rw [wrappingAdd_and hn, Nat.mod_add_mod, notU64,
    show 2 ^ 64 - 1 - b + s + b = 2 ^ n - 1 + s + (2 ^ 64 - 2 ^ n) by omega, Nat.add_mod,
    Nat.mod_eq_zero_of_dvd hd, Nat.add_zero, Nat.mod_mod]

/-! The unary ops. -/

theorem pullBackUnary_of_isempty (he : R.isempty = true) :
    R.pullBackUnary opc inSize outSize = some (true, R) := if_pos he

theorem pullBackBinary_of_isempty (he : R.isempty = true) :
    R.pullBackBinary opc val slot inSize = some (true, R) := if_pos he

/-- An empty range is its own exact preimage. -/
theorem preimage_of_isempty {op : ℕ → Option ℕ} (he : R.isempty = true) :
    Preimage R R inSize op := by
  intro x _ y _
  rw [containsVal_of_isempty he, containsVal_of_isempty he]

theorem int2comp_exact (h8 : outSize ≤ 8) (hR : R.WellFormed (8 * outSize))
    (he : R.isempty = false) (h : R.pullBackUnary .int2comp outSize outSize = some (true, R')) :
    Preimage R R' outSize (evalUnary .int2comp outSize outSize) := by
  intro x hx y hy
  have hn : 8 * outSize ≤ 64 := by omega
  rw [pullBackUnary, if_neg (by simp [he])] at h
  cases h
  simp only [evalUnary, Option.some.injEq, BitVec.toNat_neg, BitVec.toNat_ofNat,
    Nat.mod_eq_of_lt hx] at hy
  subst hy
  have hl := and_mask_lt hR.mask (wrappingAdd (wrappingAdd (notU64 R.right) 1) R.stepU)
  have hr := and_mask_lt hR.mask (wrappingAdd (wrappingAdd (notU64 R.left) 1) R.stepU)
  refine containsVal_mirror hR hl hr hx (Nat.mod_lt _ (Nat.two_pow_pos _)) (Nat.two_pow_pos _)
    ?_ ?_ ?_
  · rw [hR.mask, neg_boundary hn hR.right_lt]
  · rw [hR.mask, neg_boundary hn hR.left_lt]
  · rw [Nat.add_mod_mod, Nat.add_sub_cancel' hx.le, Nat.mod_self]

theorem intNegate_exact (h8 : outSize ≤ 8) (hR : R.WellFormed (8 * outSize))
    (he : R.isempty = false) (h : R.pullBackUnary .intNegate outSize outSize = some (true, R')) :
    Preimage R R' outSize (evalUnary .intNegate outSize outSize) := by
  intro x hx y hy
  have hn : 8 * outSize ≤ 64 := by omega
  rw [pullBackUnary, if_neg (by simp [he])] at h
  cases h
  simp only [evalUnary, Option.some.injEq, BitVec.toNat_not, BitVec.toNat_ofNat,
    Nat.mod_eq_of_lt hx] at hy
  subst hy
  have hl := and_mask_lt hR.mask (wrappingAdd (notU64 R.right) R.stepU)
  have hr := and_mask_lt hR.mask (wrappingAdd (notU64 R.left) R.stepU)
  refine containsVal_mirror (c := 2 ^ (8 * outSize) - 1) hR hl hr hx (by omega) (by omega) ?_ ?_ ?_
  · rw [hR.mask, not_boundary hn hR.right_lt]
  · rw [hR.mask, not_boundary hn hR.left_lt]
  · rw [Nat.add_sub_cancel' (by omega), Nat.mod_eq_of_lt (by omega)]

/-- The range of the booleans a range holds, the lower one first. -/
theorem convertToBoolean_of_zero (he : R.isempty = false) (h0 : R.containsVal 0 = true)
    (h1 : R.containsVal 1 = false) : R.convertToBoolean =
      (false, { R with mask := 0xff, step := 1, left := 0, right := 1, isempty := false }) := by
  simp [convertToBoolean, he, h0, h1]

theorem convertToBoolean_of_one (he : R.isempty = false) (h0 : R.containsVal 0 = false)
    (h1 : R.containsVal 1 = true) : R.convertToBoolean =
      (false, { R with mask := 0xff, step := 1, left := 1, right := 2, isempty := false }) := by
  simp [convertToBoolean, he, h0, h1]

theorem convertToBoolean_of_both (he : R.isempty = false) (h0 : R.containsVal 0 = true)
    (h1 : R.containsVal 1 = true) : R.convertToBoolean =
      (true, { R with mask := 0xff, step := 1, left := 0, right := 2, isempty := false }) := by
  simp [convertToBoolean, he, h0, h1]

theorem convertToBoolean_of_neither (he : R.isempty = false) (h0 : R.containsVal 0 = false)
    (h1 : R.containsVal 1 = false) :
    R.convertToBoolean = (false, { R with mask := 0xff, step := 1, isempty := true }) := by
  simp [convertToBoolean, he, h0, h1]

/-- A unit-step range holds the values of its arc. -/
theorem containsVal_unit {Y : CircleRange} (hs : Y.step = 1) (v : ℕ) :
    Y.containsVal v = true ↔ Y.isempty = false ∧ Mem Y.left Y.right v := by
  have hU : Y.stepU = 1 := by rw [stepU, hs]; rfl
  rw [CircleRange.containsVal_iff fun _ => hU, hU, Nat.mod_one, Nat.mod_one]
  simp only [true_and]

/-- A boolean range over the outcomes of a negation. -/
theorem boolNegate_exact (he : R.isempty = false)
    (h : R.pullBackUnary .boolNegate 1 1 = some (true, R')) :
    Preimage R R' 1 (evalUnary .boolNegate 1 1) := by
  intro x hx y hy
  simp only [evalUnary, Option.ite_none_right_eq_some, Option.some.injEq] at hy
  obtain ⟨hx1, rfl⟩ := hy
  rw [pullBackUnary, if_neg (by simp [he])] at h
  have hcase : x = 0 ∨ x = 1 := by omega
  cases h0 : R.containsVal 0 <;> cases h1 : R.containsVal 1
  · simp only [convertToBoolean_of_neither he h0 h1, Bool.false_eq_true, if_false, Option.map_eq_some_iff,
      Prod.mk.injEq, true_and] at h
    obtain ⟨a, _, rfl⟩ := h
    rw [containsVal_of_isempty rfl]
    rcases hcase with rfl | rfl
    · simp [h1]
    · simp [h0]
  · rw [convertToBoolean_of_one he h0 h1] at h
    cases h
    rw [containsVal_unit rfl]
    rcases hcase with rfl | rfl
    · simp [h1, Mem]
    · simp [h0, Mem]
  · rw [convertToBoolean_of_zero he h0 h1] at h
    cases h
    rw [containsVal_unit rfl]
    rcases hcase with rfl | rfl
    · simp [h1, Mem]
    · simp [h0, Mem]
  · rw [convertToBoolean_of_both he h0 h1] at h
    cases h
    rw [containsVal_unit rfl]
    rcases hcase with rfl | rfl
    · simp [h1, Mem]
    · simp [h0, Mem]

/-! Extensions: the range is cut down to the values the smaller input can extend to. -/

theorem sameStride_of_step {S : CircleRange} (h : R.step = S.step) :
    sameStride R S = some (some ((R.left, R.right), S.left, S.right)) := by
  simp only [sameStride, h, lt_irrefl, if_false]

theorem maskOf_add_one (h : inSize ≤ 8) : maskOf inSize + 1 = 2 ^ (8 * inSize) := by
  have := Nat.two_pow_pos (8 * inSize)
  rw [maskOf_eq h]
  omega

theorem and_maskOf (h : inSize ≤ 8) (v : ℕ) : v &&& maskOf inSize = v % 2 ^ (8 * inSize) := by
  rw [maskOf_eq h, Nat.and_two_pow_sub_one_eq_mod]

/-- What a zero extension leaves of a range. -/
theorem intZext_result (h8 : inSize ≤ 8) (he : R.isempty = false)
    (h : R.pullBackUnary .intZext inSize outSize = some (true, R')) :
    ∃ S, R.meet ((R.left, R.right), R.left % R.stepU,
        2 ^ (8 * inSize) + R.left % R.stepU) = some S ∧
      R'.isempty = S.isempty ∧ R'.step = R.step ∧ R'.left = S.left % 2 ^ (8 * inSize) ∧
      R'.right = S.right % 2 ^ (8 * inSize) := by
  rw [pullBackUnary, if_neg (by simp [he])] at h
  simp only [Option.bind_eq_some_iff, Option.map_eq_some_iff] at h
  obtain ⟨size, hsize, bound, hbound, s, hs, h⟩ := h
  have hsize : size = 2 ^ (8 * inSize) := by
    rw [← maskOf_add_one h8]
    unfold addU64 at hsize
    split_ifs at hsize
    exact (Option.some.inj hsize).symm
  have hbound : bound = 2 ^ (8 * inSize) + R.left % R.stepU := by
    unfold addU64 at hbound
    split_ifs at hbound
    rw [← hsize]
    exact (Option.some.inj hbound).symm
  subst hbound
  let Z : CircleRange := { left := R.left % R.stepU, right := 2 ^ (8 * inSize) + R.left % R.stepU,
                           mask := R.mask, isempty := false, step := R.step }
  change R.intersect Z = some s at hs
  cases hS : R.meet ((R.left, R.right), R.left % R.stepU, 2 ^ (8 * inSize) + R.left % R.stepU) with
  | none =>
    rw [intersect_of_split (B := Z) he rfl rfl (sameStride_of_step rfl) hS] at hs
    cases hs
    cases h
  | some S =>
    rw [intersect_of_meet (B := Z) he rfl rfl (sameStride_of_step rfl) hS] at hs
    cases hs
    simp only [ne_eq, not_true_eq_false, if_false, Prod.mk.injEq, true_and] at h
    subst h
    refine ⟨S, rfl, rfl, max_self R.step, ?_, ?_⟩
    · exact and_maskOf h8 _
    · exact and_maskOf h8 _

/-- The range left by a zero extension misses inputs only where none of its phase exist. -/
theorem intZext_exact_iff (h8 : outSize ≤ 8) (hlt : inSize < outSize)
    (hR : R.WellFormed (8 * outSize)) (he : R.isempty = false)
    (h : R.pullBackUnary .intZext inSize outSize = some (true, R')) :
    Preimage R R' inSize (evalUnary .intZext inSize outSize) ↔
      R.left % R.stepU < 2 ^ (8 * inSize) ∨ R.containsVal (R.left % R.stepU) = false := by
  obtain ⟨S, hS, heS, hsS, hlS, hrS⟩ := intZext_result (by omega) he h
  have hM : 0 < 2 ^ (8 * inSize) := Nat.two_pow_pos _
  have hdvd : R.stepU ∣ 2 ^ (8 * inSize) ∨ 2 ^ (8 * inSize) ∣ R.stepU := by
    obtain ⟨k, _, _, hU⟩ := hR.stepU_eq
    rw [hU]
    rcases Nat.le_total k (8 * inSize) with hk | hk
    · exact .inl (Nat.pow_dvd_pow 2 hk)
    · exact .inr (Nat.pow_dvd_pow 2 hk)
  have ht : 0 < R.stepU := hR.stepU_pos
  have hrem : R.left % R.stepU < R.stepU := Nat.mod_lt _ ht
  have hmem : ∀ x, Mem (R.left % R.stepU) (2 ^ (8 * inSize) + R.left % R.stepU) x ↔
      R.left % R.stepU ≤ x ∧ x < 2 ^ (8 * inSize) + R.left % R.stepU := by
    intro x
    unfold Mem
    omega
  have harcs := fun x => (meet_some he hS x).trans (and_congr_right fun _ => hmem x)
  have hR' : ∀ x, R'.containsVal x = true ↔ S.isempty = false ∧
      x % R.stepU = S.left % 2 ^ (8 * inSize) % R.stepU ∧
      Mem (S.left % 2 ^ (8 * inSize)) (S.right % 2 ^ (8 * inSize)) x := by
    intro x
    have hU : R'.stepU = R.stepU := by rw [stepU, hsS, stepU]
    rw [CircleRange.containsVal_iff, hU, heS, hlS, hrS]
    intro h1
    have := hR.step_eq
    rw [← hsS, h1] at this
    omega
  have hRc : ∀ x, R.containsVal x = true ↔ x % R.stepU = R.left % R.stepU ∧
      Mem R.left R.right x := by
    intro x
    rw [hR.containsVal_iff]
    simp only [he, true_and]
  have hphase := hR.phase
  have hpl : S.isempty = true ∨ S.left % R.stepU = R.left % R.stepU := by
    rcases (meet_left hS).2.2 with h | h | h
    · exact .inl h
    · exact .inr (by rw [h])
    · exact .inr (by rw [h, Nat.mod_mod])
  have hright := meet_right hS
  dsimp only at hright
  have hpr : S.isempty = true ∨ S.right % R.stepU = R.left % R.stepU ∨
      S.right = 2 ^ (8 * inSize) + R.left % R.stepU := by
    rcases meet_right hS with h | h | h
    · exact .inl h
    · exact .inr (.inl (by rw [h, hphase]))
    · exact .inr (.inr h)
  cases heS' : S.isempty with
  | true =>
    have hnone : ∀ x, R.containsVal x = true → ¬x < 2 ^ (8 * inSize) + R.left % R.stepU := by
      intro x hx hlt
      obtain ⟨hp, hm⟩ := (hRc x).mp hx
      have := ((harcs x).mpr ⟨hm, hp ▸ Nat.mod_le x _, hlt⟩).1
      rw [heS'] at this
      cases this
    constructor
    · intro _
      rcases Nat.lt_or_ge (R.left % R.stepU) (2 ^ (8 * inSize)) with hlt | hge
      · exact .inl hlt
      · refine .inr (Bool.eq_false_iff.mpr fun hc => hnone _ hc (by omega))
    · rintro _ x hx y hy
      cases hy
      rw [hR', heS']
      exact ⟨fun hf => absurd hf.1 (by decide), fun hc => absurd (Nat.lt_add_right _ hx) (hnone x hc)⟩
  | false =>
    simp only [heS', false_or, reduceCtorEq] at hpl hpr
    simp only [heS', true_and] at harcs hR'
    obtain ⟨hma, hra, haM⟩ := (harcs S.left).mp mem_left
    have hab : S.left < S.right := by
      by_contra hle
      have := ((harcs (2 ^ (8 * inSize) + R.left % R.stepU + S.left)).mp (by unfold Mem; omega)).2.2
      omega
    have hb : S.right ≤ 2 ^ (8 * inSize) + R.left % R.stepU := by
      have := ((harcs (S.right - 1)).mp (by unfold Mem; omega)).2.2
      omega
    rcases Nat.lt_or_ge (R.left % R.stepU) (2 ^ (8 * inSize)) with hlt | hge
    · refine iff_of_true ?_ (.inl hlt)
      intro x hx y hy
      cases hy
      rw [hR', hRc]
      by_cases hp : x % R.stepU = R.left % R.stepU
      · rw [mem_narrow hdvd hrem hlt hpl hab hb hpr hx hp, and_iff_right hp]
        have hx' := harcs x
        have hrx : R.left % R.stepU ≤ x := hp ▸ Nat.mod_le x _
        rw [and_iff_left ⟨hrx, by omega⟩] at hx'
        rw [← hx']
        unfold Mem
        omega
      · rw [narrow_phase hdvd hrem hlt hpl haM]
        simp only [hp, false_and]
    · have hsr : S.left = R.left % R.stepU := by
        have := add_le_of_lt ((Nat.mod_mod _ _).trans hpl.symm)
        rcases hdvd with hd | hd
        · have := Nat.le_of_dvd hM hd
          omega
        · have := Nat.le_of_dvd ht hd
          omega
      refine iff_of_false ?_ ?_
      · intro hex
        have hxM : S.left % 2 ^ (8 * inSize) < 2 ^ (8 * inSize) := Nat.mod_lt _ hM
        have := (hRc _).mp ((hex _ hxM _ rfl).mp ((hR' _).mpr ⟨rfl, mem_left⟩))
        rw [Nat.mod_eq_of_lt (show S.left % 2 ^ (8 * inSize) < R.stepU by omega)] at this
        omega
      · rintro (hlt | hno)
        · omega
        · rw [(hRc _).mpr ⟨Nat.mod_mod _ _, hsr ▸ hma⟩] at hno
          cases hno

/-- `sign_extend` reads its argument in `inSize` bytes. -/
theorem signExtend_eq {v z : ℕ} (hi : 1 ≤ inSize) (hlt : inSize < outSize) (h8 : outSize ≤ 8)
    (h : signExtend v inSize outSize = some z) :
    z = Signed.sext (8 * inSize) (8 * outSize) (v % 2 ^ (8 * inSize)) := by
  unfold signExtend at h
  dsimp only at h
  rw [min_eq_left (show inSize ≤ 8 by omega), min_eq_left h8, if_pos ⟨hlt.le, by omega⟩, shrU64,
    if_pos (by omega), show (8 - inSize) * 8 % 64 = 64 - 8 * inSize by omega,
    show (outSize - inSize) * 8 = 8 * outSize - 8 * inSize by omega,
    show (8 - outSize) * 8 = 64 - 8 * outSize by omega,
    Signed.shift_sext (by omega) (by omega) (by omega)] at h
  exact (Option.some.inj h).symm

/-- The sign bit, as the source writes it. -/
theorem maskOf_xor_half (hi : 1 ≤ inSize) (h8 : inSize ≤ 8) :
    maskOf inSize ^^^ (maskOf inSize >>> 1) = 2 ^ (8 * inSize - 1) := by
  rw [maskOf_eq h8]
  apply Nat.eq_of_testBit_eq
  intro i
  rw [Nat.testBit_xor, Nat.testBit_shiftRight, Nat.testBit_two_pow_sub_one,
    Nat.testBit_two_pow_sub_one, Nat.testBit_two_pow, Bool.eq_iff_iff]
  simp only [bne_iff_ne, ne_eq, decide_eq_decide, decide_eq_true_eq]
  omega

/-- What a sign extension leaves of a range: the range cut down to the input, where it misses the
values from the sign bit of the input on. -/
theorem intSext_result (hi : 1 ≤ inSize) (hlt : inSize < outSize) (h8 : outSize ≤ 8)
    (he : R.isempty = false) (h : R.pullBackUnary .intSext inSize outSize = some (true, R')) :
    let z := 2 ^ (8 * inSize - 1) + (R.left &&& R.stepU)
    R' = { R with left := R.left % 2 ^ (8 * inSize), right := R.right % 2 ^ (8 * inSize),
                  mask := R.mask % 2 ^ (8 * inSize) } ∧
      ∀ x, Mem z (Signed.sext (8 * inSize) (8 * outSize) (z % 2 ^ (8 * inSize))) x →
        ¬Mem R.left R.right x := by
  rw [pullBackUnary, if_neg (by simp [he])] at h
  simp only [Option.bind_eq_some_iff, Option.map_eq_some_iff] at h
  obtain ⟨z, hz, right, hright, s, hs, h⟩ := h
  have hhalf := Signed.two_pow_half (show 0 < 8 * inSize by omega)
  have hxor := maskOf_xor_half hi (hlt.le.trans h8)
  have hz : z = 2 ^ (8 * inSize - 1) + (R.left &&& R.stepU) := by
    unfold addU64 at hz
    split_ifs at hz
    rw [← hxor]
    exact (Option.some.inj hz).symm
  have hright := signExtend_eq hi hlt h8 hright
  let Z : CircleRange := { left := z, right := right, mask := R.mask, isempty := false,
                           step := R.step }
  change Z.intersect R = some s at hs
  dsimp only
  rw [← hz, ← hright]
  cases hS : Z.meet ((Z.left, Z.right), R.left, R.right) with
  | none =>
    rw [intersect_of_split (A := Z) rfl he rfl (sameStride_of_step rfl) hS] at hs
    cases hs
    cases h
  | some S =>
    rw [intersect_of_meet (A := Z) rfl he rfl (sameStride_of_step rfl) hS] at hs
    cases hs
    have harcs := meet_some (R := Z) rfl hS
    cases heS : S.isempty with
    | false =>
      simp [heS] at h
    | true =>
      simp only [heS, ne_eq, not_true_eq_false, if_false, Bool.not_true, Bool.false_eq_true,
        Prod.mk.injEq, true_and] at h
      refine ⟨?_, fun x hx hm => ?_⟩
      · rw [← h, and_maskOf (by omega), and_maskOf (by omega), and_maskOf (by omega)]
      · have := ((harcs x).mpr ⟨hx, hm⟩).1
        rw [heS] at this
        cases this

/-- The range left by a sign extension holds exactly the truncated values of the range. -/
theorem intSext_trunc (hi : 1 ≤ inSize) (hlt : inSize < outSize) (h8 : outSize ≤ 8)
    (hR : R.WellFormed (8 * outSize)) (he : R.isempty = false)
    (h : R.pullBackUnary .intSext inSize outSize = some (true, R')) (hx : x < 2 ^ (8 * inSize)) :
    R'.containsVal x = true ↔
      ∃ e < 2 ^ (8 * outSize), R.containsVal e = true ∧ e % 2 ^ (8 * inSize) = x := by
  obtain ⟨hres, hmiss⟩ := intSext_result hi hlt h8 he h
  obtain ⟨k, hk, _, hU⟩ := hR.stepU_eq
  have hhalf := Signed.two_pow_half (show 0 < 8 * inSize by omega)
  have hAB : (2 : ℕ) ^ (8 * inSize) < 2 ^ (8 * outSize) :=
    Nat.pow_lt_pow_right (by norm_num) (by omega)
  have hd : (2 : ℕ) ^ (8 * inSize) ∣ 2 ^ (8 * outSize) := Nat.pow_dvd_pow 2 (by omega)
  have hR' : R'.containsVal x = true ↔ x % R.stepU = R.left % 2 ^ (8 * inSize) % R.stepU ∧
      Mem (R.left % 2 ^ (8 * inSize)) (R.right % 2 ^ (8 * inSize)) x := by
    subst hres
    rw [CircleRange.containsVal_iff]
    · exact and_iff_right he
    · intro h1
      have := hR.step_eq
      change R.stepU = 1
      change R.step = 1 at h1
      omega
  have hRc : ∀ e, R.containsVal e = true ↔ e % R.stepU = R.left % R.stepU ∧
      Mem R.left R.right e := by
    intro e
    rw [hR.containsVal_iff]
    simp only [he, true_and]
  rw [hR']
  rcases Nat.lt_or_ge k (8 * inSize) with hk' | hk'
  · -- the step divides the input's domain, and the range lies in one window of its size
    have htd : R.stepU ∣ 2 ^ (8 * inSize) := hU ▸ Nat.pow_dvd_pow 2 hk'.le
    have hth : R.stepU ≤ 2 ^ (8 * inSize - 1) := by
      rw [hU]
      exact Nat.pow_le_pow_right two_pos (by omega)
    have hbit : R.left &&& R.stepU = 0 ∨ R.left &&& R.stepU = R.stepU := by
      rw [hU, Nat.and_two_pow]
      cases R.left.testBit k
      · exact .inl (Nat.zero_mul _)
      · exact .inr (Nat.one_mul _)
    have hwin : ∃ z, 2 ^ (8 * inSize - 1) ≤ z ∧ z ≤ 2 ^ (8 * inSize) ∧
        ∀ e < 2 ^ (8 * outSize), Mem R.left R.right e →
          (e + (2 ^ (8 * inSize) - z)) % 2 ^ (8 * outSize) < 2 ^ (8 * inSize) := by
      refine ⟨2 ^ (8 * inSize - 1) + (R.left &&& R.stepU), by omega, by omega, fun e he hm => ?_⟩
      have hno := mt (hmiss e) (not_not.mpr hm)
      generalize hz : 2 ^ (8 * inSize - 1) + (R.left &&& R.stepU) = z at *
      have hz1 : 2 ^ (8 * inSize - 1) ≤ z := by omega
      have hz2 : z ≤ 2 ^ (8 * inSize) := by omega
      by_contra hge
      apply hno
      have hsum : e + (2 ^ (8 * inSize) - z) < 2 ^ (8 * outSize) := by
        by_contra hle
        rw [Nat.mod_eq_sub_mod (not_lt.mp hle), Nat.mod_eq_of_lt (by omega)] at hge
        omega
      rw [Nat.mod_eq_of_lt hsum] at hge
      rcases Nat.lt_or_ge z (2 ^ (8 * inSize)) with hlt' | hge'
      · rw [Nat.mod_eq_of_lt hlt', Signed.sext, if_neg (by omega)]
        unfold Mem
        omega
      · obtain rfl : z = 2 ^ (8 * inSize) := by omega
        rw [Nat.mod_self, Signed.sext, if_pos (by omega)]
        unfold Mem
        omega
    obtain ⟨z, hz1, hz2, hin⟩ := hwin
    rw [Nat.mod_mod_of_dvd _ htd, mem_trunc hd hAB (by omega) hR.left_lt hR.right_lt hx hin]
    constructor
    · rintro ⟨hp, e, he', hm, rfl⟩
      rw [Nat.mod_mod_of_dvd _ htd] at hp
      exact ⟨e, he', (hRc e).mpr ⟨hp, hm⟩, rfl⟩
    · rintro ⟨e, he', hc, rfl⟩
      obtain ⟨hp, hm⟩ := (hRc e).mp hc
      rw [Nat.mod_mod_of_dvd _ htd]
      exact ⟨hp, e, he', hm, rfl⟩
  · -- the step is a multiple of the input's domain, and every value has the same truncation
    have hdt : 2 ^ (8 * inSize) ∣ R.stepU := hU ▸ Nat.pow_dvd_pow 2 hk'
    have hM : 0 < 2 ^ (8 * inSize) := Nat.two_pow_pos _
    have hle := Nat.le_of_dvd hR.stepU_pos hdt
    have htrunc : ∀ e, e % R.stepU = R.left % R.stepU →
        e % 2 ^ (8 * inSize) = R.left % 2 ^ (8 * inSize) := by
      intro e hp
      rw [← Nat.mod_mod_of_dvd e hdt, hp, Nat.mod_mod_of_dvd _ hdt]
    rw [htrunc _ hR.phase, Nat.mod_eq_of_lt (hx.trans_le hle),
      Nat.mod_eq_of_lt ((Nat.mod_lt _ hM).trans_le hle)]
    constructor
    · rintro ⟨rfl, _⟩
      exact ⟨R.left, hR.left_lt, (hRc _).mpr ⟨rfl, mem_left⟩, rfl⟩
    · rintro ⟨e, _, hc, rfl⟩
      exact ⟨htrunc e ((hRc e).mp hc).1, mem_full⟩

/-- The range left by a sign extension is exact where the range is closed under extending its own
truncated values. -/
theorem intSext_exact_iff (hi : 1 ≤ inSize) (hlt : inSize < outSize) (h8 : outSize ≤ 8)
    (hR : R.WellFormed (8 * outSize)) (he : R.isempty = false)
    (h : R.pullBackUnary .intSext inSize outSize = some (true, R')) :
    Preimage R R' inSize (evalUnary .intSext inSize outSize) ↔
      UnaryExactWhen R inSize outSize .intSext := by
  have hM : 0 < 2 ^ (8 * inSize) := Nat.two_pow_pos _
  have hev : ∀ x < 2 ^ (8 * inSize), ∀ y, evalUnary .intSext inSize outSize x = some y →
      y < 2 ^ (8 * outSize) ∧ y % 2 ^ (8 * inSize) = x := by
    intro x hx y hy
    simp only [evalUnary, Option.some.injEq] at hy
    rw [← hy, Signed.signExtend_ofNat (by omega) (by omega) hx]
    exact ⟨Signed.sext_lt (by omega) hx, Signed.sext_mod (by omega) hx⟩
  constructor
  · intro hex e he' hc y hy
    have hmod : e % 2 ^ (8 * inSize) < 2 ^ (8 * inSize) := Nat.mod_lt _ hM
    exact (hex _ hmod y hy).mp ((intSext_trunc hi hlt h8 hR he h hmod).mpr ⟨e, he', hc, rfl⟩)
  · intro hcl x hx y hy
    rw [intSext_trunc hi hlt h8 hR he h hx]
    obtain ⟨hylt, hymod⟩ := hev x hx y hy
    constructor
    · rintro ⟨e, he', hc, rfl⟩
      exact hcl e he' hc y hy
    · exact fun hc => ⟨y, hylt, hc, hymod⟩

/-- A unary op is pulled back exactly on these inputs and no others. -/
theorem pullBackUnary_exact_iff (hi : 1 ≤ inSize) (h8 : outSize ≤ 8)
    (hs : sizesOk opc [inSize] outSize) (hR : R.WellFormed (8 * outSize))
    (h : R.pullBackUnary opc inSize outSize = some (true, R')) :
    Preimage R R' inSize (evalUnary opc inSize outSize) ↔
      UnaryExactWhen R inSize outSize opc := by
  cases he : R.isempty with
  | true =>
    rw [pullBackUnary_of_isempty he] at h
    cases h
    refine iff_of_true (preimage_of_isempty he) ?_
    unfold UnaryExactWhen
    split
    · exact .inr (containsVal_of_isempty he)
    · intro e _ hc
      rw [containsVal_of_isempty he] at hc
      cases hc
    · trivial
  | false =>
    cases opc
    case copy =>
      obtain rfl : inSize = outSize := by simpa [sizesOk] using hs
      rw [pullBackUnary, if_neg (by simp [he])] at h
      cases h
      refine iff_of_true (fun x _ y hy => ?_) trivial
      cases hy
      rfl
    case int2comp =>
      obtain rfl : inSize = outSize := by simpa [sizesOk] using hs
      exact iff_of_true (int2comp_exact h8 hR he h) trivial
    case intNegate =>
      obtain rfl : inSize = outSize := by simpa [sizesOk] using hs
      exact iff_of_true (intNegate_exact h8 hR he h) trivial
    case boolNegate =>
      obtain ⟨h1, rfl⟩ := hs
      obtain rfl : inSize = 1 := by simpa using h1
      exact iff_of_true (boolNegate_exact he h) trivial
    case intZext =>
      obtain ⟨sa, h1, hlt⟩ := hs
      obtain rfl : inSize = sa := by simpa using h1
      exact intZext_exact_iff h8 hlt hR he h
    case intSext =>
      obtain ⟨sa, h1, hlt⟩ := hs
      obtain rfl : inSize = sa := by simpa using h1
      exact intSext_exact_iff hi hlt h8 hR he h
    all_goals simp [pullBackUnary, he] at h

end Mosura.CircleRange
