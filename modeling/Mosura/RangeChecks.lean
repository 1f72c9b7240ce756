import Mosura.RangeMembers

/-! Where the plain arithmetic of the range pull-back overflows. -/

namespace Mosura.CircleRange

variable {R S : CircleRange} {opc : OpCode} {val slot size inSize outSize : ℕ} {maxStep : ℤ}

/-- The fields are machine words, and the step is not 0. -/
structure Machine (R : CircleRange) : Prop where
  left : R.left < 2 ^ 64
  right : R.right < 2 ^ 64
  mask : R.mask < 2 ^ 64
  step : R.step ≠ 0

/-- The range holds both booleans. -/
def holdsBoth (R : CircleRange) : Prop := R.containsVal 0 = true ∧ R.containsVal 1 = true

/-- The calls of the pull-back path. -/
inductive Call
  | fromValue (val size : ℕ)
  | setValue (R : CircleRange) (val size : ℕ)
  | pullBackUnary (R : CircleRange) (opc : OpCode) (inSize outSize : ℕ)
  | pullBackBinary (R : CircleRange) (opc : OpCode) (val slot inSize : ℕ)
  | minimalContainer (R op2 : CircleRange) (maxStep : ℤ)

/-- The call panics in a checked build, and wraps silently in any other. -/
def Call.Overflows : Call → Prop
  | .fromValue val size => CircleRange.fromValue val size = none
  | .setValue R val size => R.setValue val size = none
  | .pullBackUnary R opc inSize outSize => R.pullBackUnary opc inSize outSize = none
  | .pullBackBinary R opc val slot inSize => R.pullBackBinary opc val slot inSize = none
  | .minimalContainer R op2 maxStep => R.minimalContainer op2 maxStep = none

/-- The arguments a call can have: sizes from 1 to 8 bytes and a constant that fits its operand; a
shift amount is any word. -/
def Call.Valid : Call → Prop
  | .fromValue val size => 1 ≤ size ∧ size ≤ 8 ∧ val ≤ maskOf size
  | .setValue R val size => R.Machine ∧ 1 ≤ size ∧ size ≤ 8 ∧ val ≤ maskOf size
  | .pullBackUnary R _ inSize outSize =>
    R.Machine ∧ 1 ≤ inSize ∧ inSize ≤ 8 ∧ 1 ≤ outSize ∧ outSize ≤ 8
  | .pullBackBinary R opc val _ inSize => R.Machine ∧ 1 ≤ inSize ∧ inSize ≤ 8 ∧ val < 2 ^ 64 ∧
    (opc ≠ .intRight → opc ≠ .intSright → val ≤ maskOf inSize)
  | .minimalContainer R op2 _ => R.Machine ∧ op2.Machine

/-- Where `pull_back_unary` overflows. -/
def UnaryOverflowsAt (R : CircleRange) (inSize outSize : ℕ) : OpCode → Prop
  | .boolNegate => R.containsVal 0 = false ∧ R.containsVal 1 = false ∧ R.left = 2 ^ 64 - 2
  | .intZext => 2 ^ 64 ≤ maskOf inSize + 1 + R.left % R.stepU
  | .intSext => outSize < inSize ∨
    2 ^ 64 ≤ (maskOf inSize ^^^ (maskOf inSize >>> 1)) + (R.left &&& R.stepU)
  | _ => False

/-- Where `pull_back_binary` overflows. -/
def BinaryOverflowsAt (R : CircleRange) (val slot : ℕ) : OpCode → Prop
  | .intEqual | .intNotequal => ¬R.holdsBoth ∧ val = 2 ^ 64 - 1
  | .intLessequal | .intSlessequal => ¬R.holdsBoth ∧ slot = 0 ∧ val = 2 ^ 64 - 1
  | .intSless => ¬R.holdsBoth ∧ slot ≠ 0 ∧ val = 2 ^ 64 - 1
  | .intRight => R.step = 1 ∧ slot = 0 ∧ 64 ≤ val
  | .intSright => R.step = 1 ∧ slot = 0 ∧ 63 ≤ val
  | _ => False

/-- Where `minimal_container` overflows: two single values close to the end of the domain become one
strided range, or the end of a range, taken as unit steps, lies past the mask. -/
def ContainerOverflowsAt (R op2 : CircleRange) (maxStep : ℤ) : Prop :=
  let lo := min R.left op2.left
  let hi := max R.left op2.left
  let aRight := wrappingAdd (wrappingSub R.right R.stepU) 1
  let bRight := wrappingAdd (wrappingSub op2.right op2.stepU) 1
  let code := encodeRangeOverlaps R.left aRight op2.left bRight
  if R.isSingle ∧ op2.isSingle ∧ lo < hi ∧ hi - lo ≤ asU64 maxStep ∧
      leastsigbitSet (BitVec.ofNat 64 (hi - lo)) = mostsigbitSet (BitVec.ofNat 64 (hi - lo)) then
    2 ^ 64 ≤ hi + asU64 (asI32 (hi - lo))
  else code = .a ∧ R.mask ||| op2.mask < bRight ∨ code = .f ∧ R.mask ||| op2.mask < aRight

/-- The calls that overflow. -/
def Call.OverflowsAt : Call → Prop
  | .fromValue val _ | .setValue _ val _ => val = 2 ^ 64 - 1
  | .pullBackUnary R opc inSize outSize =>
    R.isempty = false ∧ UnaryOverflowsAt R inSize outSize opc
  | .pullBackBinary R opc val slot _ => R.isempty = false ∧ BinaryOverflowsAt R val slot opc
  | .minimalContainer R op2 maxStep => ContainerOverflowsAt R op2 maxStep

/-! The plain operators. -/

theorem addU64_eq_none {a b : ℕ} : addU64 a b = none ↔ 2 ^ 64 ≤ a + b := by
  unfold addU64
  split_ifs with h
  · simp only [false_iff]
    omega
  · simp only [true_iff]
    omega

theorem subU64_eq_none {a b : ℕ} : subU64 a b = none ↔ a < b := by
  unfold subU64
  split_ifs with h
  · simp only [false_iff]
    omega
  · simp only [true_iff]
    omega

theorem shrU64_eq_none {a c : ℕ} : shrU64 a c = none ↔ 64 ≤ c := by
  unfold shrU64
  split_ifs with h
  · simp only [false_iff]
    omega
  · simp only [true_iff]
    omega

theorem addU64_bind_eq_none {α : Type} {a b : ℕ} {f : ℕ → Option α} :
    (addU64 a b).bind f = none ↔ 2 ^ 64 ≤ a + b ∨ a + b < 2 ^ 64 ∧ f (a + b) = none := by
  unfold addU64
  split_ifs with h
  · rw [Option.bind_some, or_iff_right (by omega), and_iff_right h]
  · simp only [Option.bind_none, true_iff]
    omega

/-- Both boundaries are shifted by one amount. -/
theorem shlU64_pair_ne_none {α : Type} {a b c : ℕ} {f : ℕ → ℕ → α} (h : c < 64) :
    ((shlU64 a c).bind fun l => (shlU64 b c).map fun r => f l r) ≠ none := by
  simp [shlU64, h]

/-! Each call. -/

theorem fromValue_eq_none (hv : val < 2 ^ 64) : fromValue val size = none ↔ val = 2 ^ 64 - 1 := by
  rw [fromValue, Option.map_eq_none_iff, addU64_eq_none]
  omega

theorem setValue_eq_none (hv : val < 2 ^ 64) :
    R.setValue val size = none ↔ val = 2 ^ 64 - 1 := by
  rw [setValue, Option.map_eq_none_iff, addU64_eq_none]
  omega

/-- Ranges of one step meet without a stride to move. -/
theorem intersect_ne_none (h : R.step = S.step) : R.intersect S ≠ none := by
  have hs : sameStride R S = some (some ((R.left, R.right), S.left, S.right)) := by
    simp only [sameStride, h, lt_irrefl, if_false]
  unfold intersect
  rw [hs]
  split_ifs <;> exact Option.some_ne_none _

theorem convertToBoolean_both (he : R.isempty = false) :
    R.convertToBoolean.1 = true ↔ R.holdsBoth := by
  unfold convertToBoolean holdsBoth
  rw [he]
  by_cases h0 : R.containsVal 0 = true <;> by_cases h1 : R.containsVal 1 = true <;>
    simp [h0, h1]

theorem pullBackTest_eq_none {yes : CircleRange → Option CircleRange} (he : R.isempty = false) :
    R.pullBackTest inSize yes = none ↔ ¬R.holdsBoth ∧
      yes { R.convertToBoolean.2 with mask := maskOf inSize } = none := by
  unfold pullBackTest
  by_cases hb : R.holdsBoth
  · simp [hb, (convertToBoolean_both he).mpr hb]
  · simp [hb, (convertToBoolean_both he).not.mpr hb]

/-- Flipping the lowest bit. -/
theorem xor_one_cases (x : ℕ) : x % 2 = 0 ∧ x ^^^ 1 = x + 1 ∨ x % 2 = 1 ∧ x ^^^ 1 = x - 1 := by
  rcases Nat.even_or_odd x with h | h
  · exact .inl ⟨Nat.even_iff.mp h, Nat.xor_one_of_even h⟩
  · exact .inr ⟨Nat.odd_iff.mp h, Nat.xor_one_of_odd h⟩

theorem signExtend_eq_none {x : ℕ} (hi : 1 ≤ inSize) (hi8 : inSize ≤ 8) (ho : 1 ≤ outSize)
    (ho8 : outSize ≤ 8) : signExtend x inSize outSize = none ↔ outSize < inSize := by
  unfold signExtend
  dsimp only
  rw [min_eq_left hi8, min_eq_left ho8]
  split_ifs with h
  · rw [shrU64_eq_none]
    omega
  · simp only [true_iff]
    omega

/-- The left boundary after the coercion is 0, 1 or, for a range with neither, what it was. -/
theorem convertToBoolean_left (he : R.isempty = false) (hb : ¬R.holdsBoth) :
    R.convertToBoolean.2.left =
      if R.containsVal 0 then 0 else if R.containsVal 1 then 1 else R.left := by
  unfold convertToBoolean
  unfold holdsBoth at hb
  rw [he]
  cases h0 : R.containsVal 0 <;> cases h1 : R.containsVal 1 <;> simp_all

theorem boolNegate_eq_none (hR : R.Machine) (he : R.isempty = false) :
    R.pullBackUnary .boolNegate inSize outSize = none ↔
      R.containsVal 0 = false ∧ R.containsVal 1 = false ∧ R.left = 2 ^ 64 - 2 := by
  have hl := hR.left
  simp only [pullBackUnary, he, Bool.false_eq_true, if_false]
  by_cases hb : R.holdsBoth
  · rw [if_pos ((convertToBoolean_both he).mpr hb)]
    simp [hb.1]
  · rw [if_neg ((convertToBoolean_both he).not.mpr hb), Option.map_eq_none_iff, addU64_eq_none,
      convertToBoolean_left he hb]
    cases R.containsVal 0 <;> cases R.containsVal 1 <;> simp
    rcases xor_one_cases R.left with ⟨_, h⟩ | ⟨_, h⟩ <;> rw [h] <;> omega

theorem intZext_eq_none (he : R.isempty = false) :
    R.pullBackUnary .intZext inSize outSize = none ↔
      2 ^ 64 ≤ maskOf inSize + 1 + R.left % R.stepU := by
  simp only [pullBackUnary, he, Bool.false_eq_true, if_false]
  rw [addU64_bind_eq_none, addU64_bind_eq_none, Option.map_eq_none_iff]
  constructor
  · rintro (h | ⟨_, h | ⟨_, h⟩⟩)
    · omega
    · exact h
    · exact absurd h (intersect_ne_none rfl)
  · intro h
    omega

theorem signExtend_bind_eq_none {α : Type} {x : ℕ} {f : ℕ → Option α} (hi : 1 ≤ inSize)
    (hi8 : inSize ≤ 8) (ho : 1 ≤ outSize) (ho8 : outSize ≤ 8) (hf : ∀ y, f y ≠ none) :
    (signExtend x inSize outSize).bind f = none ↔ outSize < inSize := by
  rw [← signExtend_eq_none (x := x) hi hi8 ho ho8]
  cases signExtend x inSize outSize with
  | none => simp
  | some y => simp [hf y]

theorem intSext_eq_none (hi : 1 ≤ inSize) (hi8 : inSize ≤ 8) (ho : 1 ≤ outSize) (ho8 : outSize ≤ 8)
    (he : R.isempty = false) : R.pullBackUnary .intSext inSize outSize = none ↔
      outSize < inSize ∨
        2 ^ 64 ≤ (maskOf inSize ^^^ (maskOf inSize >>> 1)) + (R.left &&& R.stepU) := by
  simp only [pullBackUnary, he, Bool.false_eq_true, if_false]
  rw [addU64_bind_eq_none, signExtend_bind_eq_none hi hi8 ho ho8]
  · omega
  · intro y
    rw [ne_eq, Option.map_eq_none_iff]
    exact intersect_ne_none rfl

theorem pullBackUnary_eq_none (hR : R.Machine) (hi : 1 ≤ inSize) (hi8 : inSize ≤ 8)
    (ho : 1 ≤ outSize) (ho8 : outSize ≤ 8) :
    R.pullBackUnary opc inSize outSize = none ↔
      R.isempty = false ∧ UnaryOverflowsAt R inSize outSize opc := by
  cases he : R.isempty with
  | true => simp [pullBackUnary, he]
  | false =>
    rw [and_iff_right rfl]
    cases opc
    case boolNegate => exact boolNegate_eq_none hR he
    case intZext => exact intZext_eq_none he
    case intSext => exact intSext_eq_none hi hi8 ho ho8 he
    all_goals simp [pullBackUnary, he, UnaryOverflowsAt]

theorem pullBackBinary_eq_none (hv : val < 2 ^ 64)
    (hfit : opc ≠ .intRight → opc ≠ .intSright → val ≤ maskOf inSize) :
    R.pullBackBinary opc val slot inSize = none ↔
      R.isempty = false ∧ BinaryOverflowsAt R val slot opc := by
  have hm := @maskOf_lt inSize
  have hlow : addU64 (maskOf inSize >>> 1) 1 = some ((maskOf inSize >>> 1) + 1) := by
    refine if_pos ?_
    rw [Nat.shiftRight_eq_div_pow]
    omega
  cases he : R.isempty with
  | true => simp [pullBackBinary, he]
  | false =>
    rw [and_iff_right rfl]
    cases opc
    case intEqual | intNotequal =>
      simp only [pullBackBinary, he, Bool.false_eq_true, if_false, BinaryOverflowsAt]
      rw [pullBackTest_eq_none he, Option.map_eq_none_iff, addU64_eq_none]
      exact and_congr_right fun _ => by omega
    case intLess =>
      simp only [pullBackBinary, he, Bool.false_eq_true, if_false, BinaryOverflowsAt]
      rw [pullBackTest_eq_none he, iff_false, not_and]
      dsimp only
      have := hfit nofun nofun
      intro _
      split_ifs with h1 h2 h3
      · exact not_false
      · exact not_false
      · exact not_false
      · rw [Option.map_eq_none_iff, addU64_eq_none]
        omega
    case intLessequal =>
      simp only [pullBackBinary, he, Bool.false_eq_true, if_false, BinaryOverflowsAt]
      rw [pullBackTest_eq_none he]
      refine and_congr_right fun _ => ?_
      split_ifs with h1
      · rw [Option.map_eq_none_iff, addU64_eq_none]
        omega
      · simp [h1]
    case intSless =>
      simp only [pullBackBinary, he, Bool.false_eq_true, if_false, BinaryOverflowsAt]
      rw [pullBackTest_eq_none he]
      refine and_congr_right fun _ => ?_
      dsimp only
      rw [hlow, Option.bind_some]
      split_ifs with h1 h2 h3
      · simp [h1]
      · simp [h1]
      · rw [Nat.shiftRight_eq_div_pow] at h3
        simp only [false_iff]
        omega
      · rw [Option.map_eq_none_iff, addU64_eq_none]
        omega
    case intSlessequal =>
      simp only [pullBackBinary, he, Bool.false_eq_true, if_false, BinaryOverflowsAt]
      rw [pullBackTest_eq_none he]
      refine and_congr_right fun _ => ?_
      dsimp only
      rw [hlow, Option.bind_some]
      split_ifs with h1
      · rw [Option.map_eq_none_iff, addU64_eq_none]
        omega
      · simp [h1]
    case intCarry =>
      simp only [pullBackBinary, he, Bool.false_eq_true, if_false, BinaryOverflowsAt]
      rw [pullBackTest_eq_none he, iff_false, not_and]
      dsimp only
      have := hfit nofun nofun
      intro _
      split_ifs
      · exact not_false
      · rw [Option.map_eq_none_iff, subU64_eq_none]
        omega
    case intRight =>
      simp only [pullBackBinary, he, Bool.false_eq_true, if_false, BinaryOverflowsAt]
      by_cases hs : R.step ≠ 1 ∨ slot ≠ 0
      · rw [if_pos hs]
        simp only [reduceCtorEq, false_iff]
        omega
      rw [if_neg hs]
      rcases Nat.lt_or_ge val 64 with h64 | h64
      · rw [shrU64, if_pos h64, Option.bind_some]
        refine iff_of_false ?_ (by omega)
        intro h
        split_ifs at h
        all_goals exact shlU64_pair_ne_none h64 h
      · rw [shrU64_eq_none.mpr h64, Option.bind_none]
        simp only [true_iff]
        omega
    case intSright =>
      simp only [pullBackBinary, he, Bool.false_eq_true, if_false, BinaryOverflowsAt]
      by_cases hs : R.step ≠ 1 ∨ slot ≠ 0
      · rw [if_pos hs]
        simp only [reduceCtorEq, false_iff]
        omega
      rw [if_neg hs, addU64_bind_eq_none]
      rcases Nat.lt_or_ge val 63 with h63 | h63
      · have hb : maskOf inSize >>> (val + 1) + 1 < 2 ^ 64 := by
          have : maskOf inSize >>> (val + 1) ≤ maskOf inSize >>> 1 := by
            rw [Nat.shiftRight_eq_div_pow, Nat.shiftRight_eq_div_pow]
            exact Nat.div_le_div_left (Nat.pow_le_pow_right two_pos (by omega)) (by norm_num)
          rw [Nat.shiftRight_eq_div_pow _ 1] at this
          omega
        rw [shrU64, if_pos (show val + 1 < 64 by omega), Option.bind_some, addU64, if_pos hb,
          Option.bind_some]
        refine iff_of_false ?_ (by omega)
        rintro (h | ⟨_, h⟩)
        · omega
        · split_ifs at h
          all_goals exact shlU64_pair_ne_none (by omega) h
      · rcases Nat.lt_or_ge (val + 1) (2 ^ 64) with hlt | hge
        · rw [shrU64_eq_none.mpr (show 64 ≤ val + 1 by omega), Option.bind_none]
          exact iff_of_true (.inr ⟨hlt, rfl⟩) (by omega)
        · exact iff_of_true (.inl hge) (by omega)
    case intSub =>
      simp only [pullBackBinary, he, Bool.false_eq_true, if_false, BinaryOverflowsAt]
      split_ifs <;> simp
    all_goals simp [pullBackBinary, he, BinaryOverflowsAt]

theorem minimalContainer_eq_none :
    R.minimalContainer S maxStep = none ↔ ContainerOverflowsAt R S maxStep := by
  have hlo : (if R.left < S.left then R.left else S.left) = min R.left S.left := by
    split_ifs <;> omega
  have hhi : (if R.left < S.left then S.left else R.left) = max R.left S.left := by
    split_ifs <;> omega
  simp only [minimalContainer, ContainerOverflowsAt, hlo, hhi, Nat.sub_pos_iff_lt]
  split_ifs with hs
  · rw [Option.map_eq_none_iff, addU64_eq_none]
  · cases encodeRangeOverlaps R.left (wrappingAdd (wrappingSub R.right R.stepU) 1) S.left
      (wrappingAdd (wrappingSub S.right S.stepU) 1)
    all_goals simp [subU64_eq_none]

/-- A call of the pull-back path overflows at exactly these arguments. -/
theorem overflows_iff (c : Call) (h : c.Valid) : c.Overflows ↔ c.OverflowsAt := by
  have hmask := fun s => @maskOf_lt s
  cases c with
  | fromValue val size => exact fromValue_eq_none (h.2.2.trans_lt (hmask size))
  | setValue R val size => exact setValue_eq_none (h.2.2.2.trans_lt (hmask size))
  | pullBackUnary R opc inSize outSize =>
    obtain ⟨hR, hi, hi8, ho, ho8⟩ := h
    exact pullBackUnary_eq_none hR hi hi8 ho ho8
  | pullBackBinary R opc val slot inSize =>
    obtain ⟨_, _, _, hv, hfit⟩ := h
    exact pullBackBinary_eq_none hv hfit
  | minimalContainer R op2 maxStep => exact minimalContainer_eq_none

/-- `x == 0xffffffffffffffff` being true, pulled back to `x`. -/
theorem overflows_iff_equal :
    Call.Overflows (.pullBackBinary (fromBool true) .intEqual (2 ^ 64 - 1) 0 8) ↔
      Call.OverflowsAt (.pullBackBinary (fromBool true) .intEqual (2 ^ 64 - 1) 0 8) :=
  overflows_iff _ ⟨⟨by decide, by decide, by decide, by decide⟩, by decide, by decide, by decide,
    fun _ _ => by decide⟩

/-- A comparison with the all-ones 8-byte constant overflows. -/
theorem overflow_reached : ¬∀ c : Call, c.Valid → ¬c.Overflows := by
  intro h
  refine h (.pullBackBinary (fromBool true) .intEqual (2 ^ 64 - 1) 0 8)
    ⟨⟨by decide, by decide, by decide, by decide⟩, by decide, by decide, by decide,
      fun _ _ => by decide⟩ ?_
  change pullBackBinary (fromBool true) .intEqual (2 ^ 64 - 1) 0 8 = none
  decide

end Mosura.CircleRange
