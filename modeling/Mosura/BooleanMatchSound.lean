import Mosura.BooleanMatch
import Mosura.DivChainSound
import Mosura.ListGraph
import Mosura.SignSound

/-! When the answers of `BooleanMatch` are right. -/

namespace Mosura

/-- The floating-point comparisons, as functions of their operands. -/
structure FloatCompare where
  equal : Operands → Bool
  less : Operands → Bool
  lessEqual : Operands → Bool
  nan : Operands → Bool

/-- The result of a floating-point comparison. -/
def FloatCompare.value (fl : FloatCompare) : OpCode → Operands → Option ℕ
  | .floatEqual, ins => some (fl.equal ins).toNat
  | .floatNotequal, ins => some (!fl.equal ins).toNat
  | .floatLess, ins => some (fl.less ins).toNat
  | .floatLessequal, ins => some (fl.lessEqual ins).toNat
  | .floatNan, ins => some (fl.nan ins).toNat
  | _, _ => none

/-- The result of an op with a boolean output. -/
def FloatCompare.result (fl : FloatCompare) (code : OpCode) (ins : Operands) : Option ℕ :=
  if code.hasSemantics then evalPcode code ins 1 else fl.value code ins

namespace OpCode

def isFloatCompare : OpCode → Bool
  | .floatEqual | .floatNotequal | .floatLess | .floatLessequal | .floatNan => true
  | _ => false

/-- The number of operands of an op with a boolean output. -/
def boolArity : OpCode → ℕ
  | .boolNegate | .floatNan => 1
  | _ => 2

end OpCode

namespace BooleanMatch

/-- The relation `m` holds of these values. -/
def Holds : BooleanMatch → ℕ → ℕ → Prop
  | same, x, y => x = y
  | complementary, x, y => x + y = 1
  | uncorrelated, _, _ => True

instance (m : BooleanMatch) (x y : ℕ) : Decidable (m.Holds x y) :=
  match m with
  | same => inferInstanceAs (Decidable (x = y))
  | complementary => inferInstanceAs (Decidable (x + y = 1))
  | uncorrelated => isTrue trivial

theorem flip_holds {m : BooleanMatch} {x y : ℕ} (hx : x ≤ 1) (h : m.Holds x y) :
    m.flip.Holds (1 - x) y := by
  cases m with
  | same =>
    change 1 - x + y = 1
    rw [← show x = y from h]
    omega
  | complementary =>
    change 1 - x = y
    have hsum : x + y = 1 := h
    omega
  | uncorrelated => trivial

theorem Holds.symm {m : BooleanMatch} {x y : ℕ} (h : m.Holds x y) : m.Holds y x := by
  cases m with
  | same => exact (show x = y from h).symm
  | complementary => exact (Nat.add_comm y x).trans h
  | uncorrelated => trivial

end BooleanMatch

namespace Funcdata

open BooleanMatch

section Spec

variable (f : Funcdata) (fl : FloatCompare) (env : VarnodeId → ℕ)

/-- What an op with a boolean output computes. -/
def truth (op : OpId) : Option ℕ := fl.result (f.op op).opcode (f.operandsOf env op)

/-- The boolean ops that `v` is computed by have their results. -/
def BoolValues (v : VarnodeId) : Prop :=
  ∀ d, f.Feeds v d → (f.op d).opcode.isBoolOutput = true → ∀ out, (f.op d).output = some out →
    f.truth fl env d = some (f.valueOf env out)

/-- An op with a boolean output has its number of operands, all of one size. -/
structure BoolOperands (op : OpId) : Prop where
  arity : (f.op op).inrefs.length = (f.op op).opcode.boolArity
  sizes : ∃ s, 0 < s ∧ ∀ v ∈ (f.op op).inrefs, (f.vn v).size = s

/-- The operands of the floating-point comparisons are as p-code has them. -/
def FloatGraph : Prop :=
  ∀ op out, (f.op op).output = some out → (f.op op).opcode.isFloatCompare = true →
    f.BoolOperands op

/-- Both ops compare constants only, and at different sizes. -/
structure ConstantsApart (op1 op2 : OpId) : Prop where
  left : ∀ v ∈ (f.op op1).inrefs, (f.vn v).constant = true
  right : ∀ v ∈ (f.op op2).inrefs, (f.vn v).constant = true
  sizes : ∃ a ∈ (f.op op1).inrefs, ∃ b ∈ (f.op op2).inrefs, (f.vn a).size ≠ (f.vn b).size

/-- `below` is `x s< 0` and `above` is `2^64 - 1 s< x` for an `x` of more than 8 bytes that is one of
the numbers between. -/
def WideSigned (below above : OpId) : Prop :=
  (f.op below).opcode = .intSless ∧ (f.op above).opcode = .intSless ∧
    ∃ x c c' x', (f.op below).inrefs = [x, c] ∧ (f.op above).inrefs = [c', x'] ∧
      f.varnodeSame x x' = true ∧ (f.vn c).constant = true ∧ (f.vn c).constantValue = 0 ∧
      (f.vn c').constant = true ∧ (f.vn c').constantValue = BitVec.allOnes 64 ∧
      8 < (f.vn x).size ∧ (f.vn c').size = (f.vn x).size ∧ f.valueOf env x < 2 ^ 64

/-- `a < b` and `b <= a` of floating-point numbers. -/
def FloatOrder (op1 op2 : OpId) : Prop :=
  (f.op op1).opcode = .floatLess ∧ (f.op op2).opcode = .floatLessequal ∨
    (f.op op1).opcode = .floatLessequal ∧ (f.op op2).opcode = .floatLess

/-- The same comparison of the same operands. -/
def SameCompare (op1 op2 : OpId) : Prop :=
  (f.op op1).opcode = (f.op op2).opcode ∧
    f.sameInputs (f.op op1).inrefs (f.op op2).inrefs = some true

/-- A comparison and its complement, of the same operands. -/
def FlippedCompare (op1 op2 : OpId) : Prop :=
  ∃ reorder, (f.op op2).opcode.getBooleanflip = some ((f.op op1).opcode, reorder) ∧
    f.sameInputs (f.op op1).inrefs
      (if reorder then (f.op op2).inrefs.reverse else (f.op op2).inrefs) = some true

/-- `x < 9` and `8 < x`. -/
def AdjacentCompare (op1 op2 : OpId) : Prop :=
  (f.op op1).opcode = (f.op op2).opcode ∧ f.sameOpComplement op1 op2 = some true

/-- The pairs of comparisons that `BooleanMatch` takes for what they are not: constants compared at
two sizes, with results that do not fit together; floating-point numbers without an order, which are
neither less nor not less; the numbers from 0 to `2^64 - 1`, in more than 8 bytes. -/
def Pitfall (op1 op2 : OpId) : Prop :=
  f.SameCompare op1 op2 ∧ f.ConstantsApart op1 op2 ∧ f.truth fl env op1 ≠ f.truth fl env op2 ∨
  f.FlippedCompare op1 op2 ∧ (f.ConstantsApart op1 op2 ∨ f.FloatOrder op1 op2) ∧
    f.truth fl env op1 = f.truth fl env op2 ∨
  f.AdjacentCompare op1 op2 ∧ (f.ConstantsApart op1 op2 ∧
    f.truth fl env op1 = f.truth fl env op2 ∨ f.WideSigned env op1 op2 ∨ f.WideSigned env op2 op1)

end Spec

variable {f : Funcdata} {fl : FloatCompare} {env : VarnodeId → ℕ} {op op1 op2 d : OpId}
  {a b v u out : VarnodeId} {m : BooleanMatch} {x y : ℕ}

/-! The operands. -/

theorem boolOperands (hgr : f.RuleGraph) (hfl : f.FloatGraph) (ho : (f.op op).output = some out)
    (hb : (f.op op).opcode.isBoolOutput = true) : f.BoolOperands op := by
  have hsz := hgr.sizes ho
  have hpos (v : VarnodeId) (hv : v ∈ (f.op op).inrefs) : 0 < (f.vn v).size := hgr.size_pos hv ho
  have htwo {s : ℕ} (h : ((f.op op).inrefs.map fun v => (f.vn v).size) = [s, s])
      (hcode : (f.op op).opcode.boolArity = 2) : f.BoolOperands op := by
    obtain ⟨a, b, hin, ha, hb⟩ := inrefs_two h
    refine ⟨by rw [hin, hcode]; rfl, s, ha ▸ hpos a (by simp [hin]), fun v hv => ?_⟩
    rw [hin] at hv
    rcases List.mem_pair.mp hv with rfl | rfl
    · exact ha
    · exact hb
  cases hcode : (f.op op).opcode
  all_goals rw [hcode] at hsz hb
  all_goals first | exact absurd hb (by decide) | skip
  case boolNegate =>
    obtain ⟨a, hin, ha⟩ := inrefs_one hsz.1
    refine ⟨by rw [hin, hcode]; rfl, 1, Nat.one_pos, fun v hv => ?_⟩
    rw [hin] at hv
    exact List.mem_singleton.mp hv ▸ ha
  case floatEqual | floatNotequal | floatLess | floatLessequal | floatNan =>
    exact hfl op out ho (by rw [hcode]; rfl)
  case boolXor | boolAnd | boolOr => exact htwo hsz.1 (by rw [hcode]; rfl)
  all_goals
    obtain ⟨⟨s, hs⟩, -⟩ := hsz
    exact htwo hs (by rw [hcode]; rfl)

theorem varnodeSame_cases (h : f.varnodeSame a b = true) :
    a = b ∨ (f.vn a).constant = true ∧ (f.vn b).constant = true ∧
      (f.vn a).constantValue = (f.vn b).constantValue := by
  unfold varnodeSame at h
  simp only [Bool.or_eq_true, Bool.and_eq_true, beq_iff_eq] at h
  exact h.imp_right fun h => ⟨h.1.1, h.1.2, h.2⟩

theorem valueOf_varnodeSame (h : f.varnodeSame a b = true) :
    f.valueOf env a = f.valueOf env b := by
  rcases varnodeSame_cases h with rfl | ⟨ha, hb, hab⟩
  · rfl
  · rw [valueOf_const ha, valueOf_const hb, hab]

theorem varnodeSame_self (a : VarnodeId) : f.varnodeSame a a = true := by
  unfold varnodeSame
  rw [beq_self_eq_true, Bool.true_or]

/-- Two lists of operands that are the same one by one: they are of one size, or all constants. -/
theorem operands_or_constants {l l' : List VarnodeId} {s t : ℕ}
    (h : List.Forall₂ (fun a b => f.varnodeSame a b = true) l l')
    (hs : ∀ v ∈ l, (f.vn v).size = s) (ht : ∀ v ∈ l', (f.vn v).size = t) :
    (s = t ∧ l.map (f.operandOf env) = l'.map (f.operandOf env)) ∨
      s ≠ t ∧ (∀ v ∈ l, (f.vn v).constant = true) ∧ ∀ v ∈ l', (f.vn v).constant = true := by
  by_cases hst : s = t
  · refine .inl ⟨hst, ?_⟩
    subst hst
    induction h with
    | nil => rfl
    | @cons a b l l' hab _ ih =>
      obtain ⟨ha, hs⟩ := List.forall_mem_cons.mp hs
      obtain ⟨hb, ht⟩ := List.forall_mem_cons.mp ht
      rw [List.map_cons, List.map_cons, ih hs ht]
      unfold operandOf
      rw [ha, hb, valueOf_varnodeSame hab]
  · refine .inr ⟨hst, ?_⟩
    induction h with
    | nil => exact ⟨fun _ hv => absurd hv List.not_mem_nil, fun _ hv => absurd hv List.not_mem_nil⟩
    | @cons a b l l' hab _ ih =>
      obtain ⟨ha, hs⟩ := List.forall_mem_cons.mp hs
      obtain ⟨hb, ht⟩ := List.forall_mem_cons.mp ht
      obtain ⟨hl, hl'⟩ := ih hs ht
      rcases varnodeSame_cases hab with rfl | ⟨hca, hcb, -⟩
      · exact absurd (ha.symm.trans hb) hst
      · exact ⟨List.forall_mem_cons.mpr ⟨hca, hl⟩, List.forall_mem_cons.mpr ⟨hcb, hl'⟩⟩

theorem sameInputs_forall₂ {l l' : List VarnodeId} (h : f.sameInputs l l' = some true)
    (hlen : l.length = l'.length) : List.Forall₂ (fun a b => f.varnodeSame a b = true) l l' := by
  induction l generalizing l' with
  | nil =>
    obtain rfl := List.length_eq_zero_iff.mp hlen.symm
    exact .nil
  | cons a l ih =>
    cases l' with
    | nil => cases hlen
    | cons b l' =>
      unfold sameInputs at h
      split_ifs at h with hab
      · exact .cons hab (ih h (Nat.succ.inj hlen))
      · cases h

theorem sameInputs_self (l : List VarnodeId) : f.sameInputs l l = some true := by
  induction l with
  | nil => rfl
  | cons a l ih =>
    unfold sameInputs
    rw [if_pos (varnodeSame_self a)]
    exact ih

theorem BoolOperands.two (h : f.BoolOperands op) (hcode : (f.op op).opcode.boolArity = 2) :
    ∃ a b s, (f.op op).inrefs = [a, b] ∧ 0 < s ∧ (f.vn a).size = s ∧ (f.vn b).size = s := by
  have hlen := h.arity.trans hcode
  obtain ⟨a, b, hin⟩ := List.length_eq_two.mp hlen
  obtain ⟨s, hs0, hs⟩ := h.sizes
  rw [hin] at hs
  exact ⟨a, b, s, hin, hs0, hs a (by simp), hs b (by simp)⟩

/-- Two constants of different sizes are what `op1` and `op2` compare. -/
theorem constantsApart {s t : ℕ} (hst : s ≠ t) (h1 : f.BoolOperands op1)
    (h2 : f.BoolOperands op2) (hs : ∀ v ∈ (f.op op1).inrefs, (f.vn v).size = s)
    (ht : ∀ v ∈ (f.op op2).inrefs, (f.vn v).size = t)
    (hc1 : ∀ v ∈ (f.op op1).inrefs, (f.vn v).constant = true)
    (hc2 : ∀ v ∈ (f.op op2).inrefs, (f.vn v).constant = true) : f.ConstantsApart op1 op2 := by
  have hmem {op : OpId} (h : f.BoolOperands op) : ∃ v, v ∈ (f.op op).inrefs := by
    apply List.exists_mem_of_length_pos
    rw [h.arity]
    cases (f.op op).opcode
    all_goals decide
  obtain ⟨a, ha⟩ := hmem h1
  obtain ⟨b, hb⟩ := hmem h2
  exact ⟨hc1, hc2, a, ha, b, hb, by rwa [hs a ha, ht b hb]⟩

theorem not_constantsApart {s : ℕ} (hs : ∀ v ∈ (f.op op1).inrefs, (f.vn v).size = s)
    (ht : ∀ v ∈ (f.op op2).inrefs, (f.vn v).size = s) : ¬f.ConstantsApart op1 op2 := by
  intro h
  obtain ⟨a, ha, b, hb, hne⟩ := h.sizes
  exact hne ((hs a ha).trans (ht b hb).symm)

/-! Two comparisons side by side. -/

theorem truth_congr (hcode : (f.op op1).opcode = (f.op op2).opcode)
    (hin : f.operandsOf env op1 = f.operandsOf env op2) :
    f.truth fl env op1 = f.truth fl env op2 := by
  unfold truth
  rw [hcode, hin]

theorem truth_le_one (hb : (f.op op).opcode.isBoolOutput = true)
    (h : f.truth fl env op = some x) : x ≤ 1 := by
  unfold truth FloatCompare.result at h
  split_ifs at h with hsem
  · have hphi : (f.op op).opcode ≠ .multiequal := fun he => by
      rw [he] at hsem
      cases hsem
    apply (@le_one_of_isBoolOutput _ false (f.operandsOf env op) 1) hb
    unfold OpResult
    rwa [if_neg hphi, if_pos hsem]
  · unfold FloatCompare.value at h
    split at h
    all_goals first
      | cases h; exact Bool.toNat_le _
      | cases h

/-- Two lists of boolean operands that are the same one by one. -/
theorem BoolOperands.same_or_apart (env : VarnodeId → ℕ) (h1 : f.BoolOperands op1)
    (h2 : f.BoolOperands op2) {l : List VarnodeId} (hperm : l.Perm (f.op op2).inrefs)
    (h : List.Forall₂ (fun a b => f.varnodeSame a b = true) (f.op op1).inrefs l) :
    f.operandsOf env op1 = l.map (f.operandOf env) ∨ f.ConstantsApart op1 op2 := by
  obtain ⟨s, -, hs⟩ := h1.sizes
  obtain ⟨t, -, ht⟩ := h2.sizes
  rcases (@operands_or_constants _ env) h hs fun v hv => ht v (hperm.mem_iff.mp hv)
    with ⟨-, heq⟩ | ⟨hst, hc1, hc2⟩
  · exact .inl heq
  · exact .inr (constantsApart hst h1 h2 hs ht hc1 fun v hv => hc2 v (hperm.mem_iff.mpr hv))

theorem SameCompare.truth_eq (h : f.SameCompare op1 op2) (h1 : f.BoolOperands op1)
    (h2 : f.BoolOperands op2) (hn : ¬f.ConstantsApart op1 op2) :
    f.truth fl env op1 = f.truth fl env op2 := by
  have hlen : (f.op op1).inrefs.length = (f.op op2).inrefs.length := by
    rw [h1.arity, h2.arity, h.1]
  have hin := (h1.same_or_apart env h2 (.refl _) (sameInputs_forall₂ h.2 hlen)).resolve_right hn
  exact truth_congr h.1 hin

theorem toNat_add_not (p : Bool) : p.toNat + (!p).toNat = 1 := by cases p <;> rfl

theorem decide_add_not (p : Prop) [Decidable p] : (decide p).toNat + (decide ¬p).toNat = 1 := by
  rw [decide_not]
  exact toNat_add_not _

/-- `x < y` and `y ≤ x`, or `x = y` and `x ≠ y`. -/
theorem flip_result {c1 c2 : OpCode} {reorder : Bool} {s X Y : ℕ}
    (hflip : c2.getBooleanflip = some (c1, reorder)) (hb : c1.isBoolOutput = true)
    (hfo : ¬(c1 = .floatLess ∧ c2 = .floatLessequal ∨ c1 = .floatLessequal ∧ c2 = .floatLess))
    (hX : X < 2 ^ (8 * s)) (hY : Y < 2 ^ (8 * s)) (hx : fl.result c1 [(s, X), (s, Y)] = some x)
    (hy : fl.result c2 (if reorder then [(s, Y), (s, X)] else [(s, X), (s, Y)]) = some y) :
    x + y = 1 := by
  have hor {p q : Prop} [Decidable p] [Decidable q] (hpq : q ↔ ¬p) :
      (decide p).toNat + (decide q).toNat = 1 := by
    rw [decide_eq_decide.mpr hpq]
    exact decide_add_not p
  cases c2
  case intEqual =>
    cases hflip
    cases (eval_notequal s s 1 X Y).symm.trans hx
    cases (eval_equal s s 1 X Y).symm.trans hy
    exact hor not_ne_iff.symm
  case intNotequal =>
    cases hflip
    cases (eval_equal s s 1 X Y).symm.trans hx
    cases (eval_notequal s s 1 X Y).symm.trans hy
    exact hor Iff.rfl
  case intLess =>
    cases hflip
    cases (eval_lessequal s s 1 X Y).symm.trans hx
    cases (eval_less s s 1 Y X).symm.trans hy
    exact hor not_le.symm
  case intLessequal =>
    cases hflip
    cases (eval_less s s 1 X Y).symm.trans hx
    cases (eval_lessequal s s 1 Y X).symm.trans hy
    exact hor not_lt.symm
  case intSless =>
    cases hflip
    cases (eval_slessequal s 1 hX hY).symm.trans hx
    cases (eval_sless s 1 hY hX).symm.trans hy
    exact hor not_le.symm
  case intSlessequal =>
    cases hflip
    cases (eval_sless s 1 hX hY).symm.trans hx
    cases (eval_slessequal s 1 hY hX).symm.trans hy
    exact hor not_lt.symm
  case floatEqual =>
    cases hflip
    cases hx
    cases hy
    exact (Nat.add_comm _ _).trans (toNat_add_not _)
  case floatNotequal =>
    cases hflip
    cases hx
    cases hy
    exact toNat_add_not _
  case floatLess =>
    cases hflip
    exact absurd (.inr ⟨rfl, rfl⟩) hfo
  case floatLessequal =>
    cases hflip
    exact absurd (.inl ⟨rfl, rfl⟩) hfo
  case boolNegate =>
    cases hflip
    cases hb
  all_goals cases hflip

theorem boolArity_of_flip {c1 c2 : OpCode} {reorder : Bool}
    (hflip : c2.getBooleanflip = some (c1, reorder)) (hb : c1.isBoolOutput = true) :
    c1.boolArity = 2 ∧ c2.boolArity = 2 := by
  cases c2
  case boolNegate =>
    cases hflip
    cases hb
  all_goals first
    | cases hflip; exact ⟨rfl, rfl⟩
    | cases hflip

/-- A comparison and its complement have opposite results. -/
theorem FlippedCompare.truth_add (h : f.FlippedCompare op1 op2) (h1 : f.BoolOperands op1)
    (h2 : f.BoolOperands op2) (hb : (f.op op1).opcode.isBoolOutput = true)
    (hn : ¬f.ConstantsApart op1 op2) (hfo : ¬f.FloatOrder op1 op2)
    (hfit : ∀ v, f.valueOf env v < 2 ^ (8 * (f.vn v).size))
    (hx : f.truth fl env op1 = some x) (hy : f.truth fl env op2 = some y) : x + y = 1 := by
  obtain ⟨reorder, hflip, hsame⟩ := h
  obtain ⟨ha1, ha2⟩ := boolArity_of_flip hflip hb
  obtain ⟨a, b, s, hin, -, hsa, hsb⟩ := h1.two ha1
  obtain ⟨a', b', -, hin', -⟩ := h2.two ha2
  have hins : f.operandsOf env op1 = [(s, f.valueOf env a), (s, f.valueOf env b)] := by
    unfold operandsOf operandOf
    rw [hin, ← hsa]
    simp [hsa, hsb]
  have hperm : (if reorder then (f.op op2).inrefs.reverse else (f.op op2).inrefs).Perm
      (f.op op2).inrefs := by
    cases reorder
    · exact .refl _
    · exact List.reverse_perm _
  have hlen : (f.op op1).inrefs.length =
      (if reorder then (f.op op2).inrefs.reverse else (f.op op2).inrefs).length := by
    rw [hperm.length_eq, hin, hin']
    rfl
  have heq := (h1.same_or_apart env h2 hperm (sameInputs_forall₂ hsame hlen)).resolve_right hn
  refine (@flip_result fl _ _ _ _ _ s (f.valueOf env a) (f.valueOf env b)) hflip hb hfo
    (hsa ▸ hfit a) (hsb ▸ hfit b) (by rwa [← hins]) ?_
  have hins' : f.operandsOf env op2 = if reorder then
      [(s, f.valueOf env b), (s, f.valueOf env a)] else
      [(s, f.valueOf env a), (s, f.valueOf env b)] := by
    rw [hins, hin'] at heq
    unfold operandsOf
    rw [hin']
    cases reorder
    · exact heq.symm
    · simp only [List.reverse_cons, List.reverse_nil, List.nil_append, List.cons_append,
        if_true, List.map_cons, List.map_nil, List.cons.injEq] at heq ⊢
      exact ⟨heq.2.1.symm, heq.1.symm, trivial⟩
  rw [← hins']
  exact hy

/-! Comparisons with adjacent constants. -/

/-- `below` is `x < c` and `above` is `c' < x`, with the constants `c' + 1 = c`. -/
structure Adjacent (f : Funcdata) (below above : OpId) (x c c' x' : VarnodeId) : Prop where
  code : (f.op below).opcode = (f.op above).opcode
  order : (f.op below).opcode = .intSless ∨ (f.op below).opcode = .intLess
  left : (f.op below).inrefs = [x, c]
  right : (f.op above).inrefs = [c', x']
  same : f.varnodeSame x x' = true
  const : (f.vn c).constant = true
  const' : (f.vn c').constant = true
  complement : ∃ d, (d = c ∨ d = c') ∧ complementConstants (f.op below).opcode
    (f.vn c').constantValue (f.vn c).constantValue (f.vn d).size = true

theorem varnodeSame_comm (a b : VarnodeId) : f.varnodeSame a b = f.varnodeSame b a := by
  unfold varnodeSame
  rw [Bool.beq_comm, Bool.and_comm (f.vn a).constant, Bool.beq_comm (a := (f.vn a).constantValue)]

/-- The test for adjacent constants, on the four operands. -/
theorem sameOpComplement_eq {p q p' q' : VarnodeId}
    (hop : (f.op op1).opcode = .intSless ∨ (f.op op1).opcode = .intLess)
    (hin : (f.op op1).inrefs = [p, q]) (hin' : (f.op op2).inrefs = [p', q']) :
    f.sameOpComplement op1 op2 = some (
      if (f.vn q).constant then (f.vn p').constant && (f.varnodeSame p q' &&
        complementConstants (f.op op1).opcode (f.vn p').constantValue (f.vn q).constantValue
          (f.vn q).size)
      else (f.vn p).constant && ((f.vn q').constant && (f.varnodeSame q p' &&
        complementConstants (f.op op1).opcode (f.vn p).constantValue (f.vn q').constantValue
          (f.vn p).size))) := by
  have hguard : ¬((f.op op1).opcode ≠ .intSless ∧ (f.op op1).opcode ≠ .intLess) := by tauto
  unfold sameOpComplement
  rw [if_neg hguard]
  cases hq : (f.vn q).constant
  · cases hp : (f.vn p).constant
    · simp [input_one hin, input_zero hin, hq, hp]
    · cases hq' : (f.vn q').constant
      · simp [input_one hin, input_zero hin, input_one hin', hq, hq']
      · cases hs : f.varnodeSame q p'
        all_goals
          simp [input_one hin, input_zero hin, input_one hin', input_zero hin', hq, hp, hq', hs]
  · cases hp : (f.vn p').constant
    · simp [input_one hin, input_zero hin', hq, hp]
    · cases hs : f.varnodeSame p q'
      all_goals
        simp [input_one hin, input_zero hin, input_one hin', input_zero hin', hq, hp, hs]

theorem AdjacentCompare.cases (h : f.AdjacentCompare op1 op2) (h1 : f.BoolOperands op1)
    (h2 : f.BoolOperands op2) :
    ∃ x c c' x', Adjacent f op1 op2 x c c' x' ∨ Adjacent f op2 op1 x c c' x' := by
  obtain ⟨hcode, hadj⟩ := h
  have hop : (f.op op1).opcode = .intSless ∨ (f.op op1).opcode = .intLess := by
    by_contra hop
    unfold sameOpComplement at hadj
    rw [if_pos (by tauto)] at hadj
    cases hadj
  have htwo : (f.op op1).opcode.boolArity = 2 := by
    rcases hop with he | he
    all_goals
      rw [he]
      rfl
  obtain ⟨p, q, -, hin, -⟩ := h1.two htwo
  obtain ⟨p', q', -, hin', -⟩ := h2.two (hcode ▸ htwo)
  rw [sameOpComplement_eq hop hin hin', Option.some.injEq] at hadj
  split_ifs at hadj with hq
  · simp only [Bool.and_eq_true] at hadj
    obtain ⟨hp', hsame, hcompl⟩ := hadj
    exact ⟨p, q, p', q', .inl ⟨hcode, hop, hin, hin', hsame, hq, hp', q, .inl rfl, hcompl⟩⟩
  · simp only [Bool.and_eq_true] at hadj
    obtain ⟨hp, hq', hsame, hcompl⟩ := hadj
    rw [varnodeSame_comm] at hsame
    exact ⟨p', q', p, q, .inr ⟨hcode.symm, hcode ▸ hop, hin', hin, hsame, hq', hp, p, .inr rfl,
      hcode ▸ hcompl⟩⟩

theorem complementConstants_cases {code : OpCode} {val1 val2 : U64} {s : ℕ}
    (h : complementConstants code val1 val2 s = true) :
    val1 + 1 = val2 ∧ ¬(val2 = 0 ∧ code = .intLess) ∧
      ¬(code = .intSless ∧ signbitNegative val2 s = true ∧ signbitNegative val1 s = false) := by
  unfold complementConstants at h
  split_ifs at h with h1 h2 h3
  exact ⟨not_not.mp h1, h2, h3⟩

theorem toNat_of_succ {val1 val2 : U64} (h : val1 + 1 = val2) :
    val2.toNat = val1.toNat + 1 ∨ val2 = 0 ∧ val1 = BitVec.allOnes 64 := by
  subst h
  by_cases hmax : val1 = BitVec.allOnes 64
  · subst hmax
    exact .inr ⟨rfl, rfl⟩
  · have hne : val1.toNat ≠ 2 ^ 64 - 1 := fun he => hmax (BitVec.eq_of_toNat_eq he)
    left
    bv_omega

/-- Constants that the test takes for adjacent numbers are adjacent, but for 0 and `2^64 - 1` in
more than 8 bytes. -/
theorem toInt_complement {val1 val2 : U64} {s : ℕ} (hs0 : 0 < s)
    (h : complementConstants .intSless val1 val2 s = true) (h1 : val1.toNat < 2 ^ (8 * s))
    (h2 : val2.toNat < 2 ^ (8 * s)) (hwide : ¬(8 < s ∧ val2 = 0)) :
    Signed.toInt (8 * s) val1.toNat + 1 = Signed.toInt (8 * s) val2.toNat := by
  obtain ⟨hsucc, -, hsign⟩ := complementConstants_cases h
  by_cases h8 : s ≤ 8
  · have hneg : ¬(2 ^ (8 * s) ≤ 2 * val2.toNat ∧ ¬2 ^ (8 * s) ≤ 2 * val1.toNat) := by
      rw [← signbitNegative_iff hs0 h8 h2, ← signbitNegative_iff hs0 h8 h1, Bool.not_eq_true]
      exact fun hs => hsign ⟨rfl, hs⟩
    rcases toNat_of_succ hsucc with hnat | ⟨rfl, rfl⟩
    · unfold Signed.toInt
      split_ifs <;> omega
    · have hfull : 2 ^ 64 ≤ 2 ^ (8 * s) := by
        have hmax : (BitVec.allOnes 64).toNat = 2 ^ 64 - 1 := rfl
        omega
      have hs8 : 64 ≤ 8 * s := (Nat.pow_le_pow_iff_right (by norm_num)).mp hfull
      obtain rfl : s = 8 := by omega
      decide
  · rw [not_le] at h8
    have hbig : 2 ^ 65 ≤ 2 ^ (8 * s) := Nat.pow_le_pow_right two_pos (by omega)
    have hlt1 := val1.isLt
    have hlt2 := val2.isLt
    rw [Signed.toInt_of_lt (by omega), Signed.toInt_of_lt (by omega)]
    rcases toNat_of_succ hsucc with hnat | ⟨hz, -⟩
    · omega
    · exact absurd ⟨h8, hz⟩ hwide

/-- In more than 8 bytes, `x s< 0` and `2^64 - 1 s< x` leave out the numbers between. -/
theorem above_zero_iff {s X : ℕ} (h8 : 8 < s) (hX : X < 2 ^ (8 * s)) :
    (Signed.toInt (8 * s) (BitVec.allOnes 64).toNat < Signed.toInt (8 * s) X ↔
      ¬Signed.toInt (8 * s) X < Signed.toInt (8 * s) (0 : U64).toNat) ↔ ¬X < 2 ^ 64 := by
  have hbig : 2 ^ 65 ≤ 2 ^ (8 * s) := Nat.pow_le_pow_right two_pos (by omega)
  have hmax : (BitVec.allOnes 64).toNat = 2 ^ 64 - 1 := rfl
  have hzero : (0 : U64).toNat = 0 := rfl
  rw [hmax, hzero, Signed.toInt_zero, Signed.toInt_of_lt (a := 2 ^ 64 - 1) (by omega)]
  unfold Signed.toInt
  split_ifs <;> omega

section Adjacent

variable {c c' x' : VarnodeId} {below above : OpId}

/-- A constant is not the one before it. -/
theorem Adjacent.ne {x : VarnodeId} (h : Adjacent f below above x c c' x') :
    (f.vn c').constantValue ≠ (f.vn c).constantValue := by
  obtain ⟨d, -, hcompl⟩ := h.complement
  have hsucc := (complementConstants_cases hcompl).1
  intro he
  rw [he] at hsucc
  exact absurd hsucc (by bv_omega)

theorem Adjacent.wideSigned_iff {x : VarnodeId} (h : Adjacent f below above x c c' x') :
    f.WideSigned env below above ↔ (f.op below).opcode = .intSless ∧
      (f.vn c).constantValue = 0 ∧ 8 < (f.vn x).size ∧ (f.vn c').size = (f.vn x).size ∧
      f.valueOf env x < 2 ^ 64 := by
  constructor
  · rintro ⟨hcode, -, z, k, k', z', hleft, hright, -, -, hk, -, -, h8, hsize, hlt⟩
    cases h.left.symm.trans hleft
    cases h.right.symm.trans hright
    exact ⟨hcode, hk, h8, hsize, hlt⟩
  · rintro ⟨hcode, hk, h8, hsize, hlt⟩
    obtain ⟨d, -, hcompl⟩ := h.complement
    have hmax : (f.vn c').constantValue = BitVec.allOnes 64 := by
      have hsucc := (complementConstants_cases hcompl).1
      rcases toNat_of_succ hsucc with hnat | ⟨-, hmax⟩
      · rw [hk] at hnat
        exact absurd hnat.symm (Nat.succ_ne_zero _)
      · exact hmax
    exact ⟨hcode, h.code ▸ hcode, x, c, c', x', h.left, h.right, h.same, h.const, hk, h.const',
      hmax, h8, hsize, hlt⟩

/-- The same ops are not a pitfall the other way round. -/
theorem Adjacent.not_wideSigned {x : VarnodeId} (h : Adjacent f below above x c c' x') :
    ¬f.WideSigned env above below := by
  rintro ⟨-, -, z, k, k', z', hleft, hright, hsame, -⟩
  cases h.right.symm.trans hleft
  cases h.left.symm.trans hright
  rcases varnodeSame_cases hsame with he | ⟨-, -, he⟩
  · exact h.ne (by rw [he])
  · exact h.ne he

/-- The two ops at one size: they are complements unless `x` is one of the numbers between 0 and
`2^64 - 1` of a wider size. -/
theorem Adjacent.truth_add_iff {X : VarnodeId} (h : Adjacent f below above X c c' x')
    (h1 : f.BoolOperands below) (h2 : f.BoolOperands above)
    (hn : ¬f.ConstantsApart below above) (hfit : ∀ v, f.valueOf env v < 2 ^ (8 * (f.vn v).size))
    (hx : f.truth fl env below = some x) (hy : f.truth fl env above = some y) :
    x + y = 1 ↔ ¬f.WideSigned env below above := by
  obtain ⟨s, hs0, hs⟩ := h1.sizes
  obtain ⟨t, -, ht⟩ := h2.sizes
  rw [h.left] at hs
  rw [h.right] at ht
  have hsX := hs X (by simp)
  have hsc := hs c (by simp)
  have htc := ht c' (by simp)
  have htx := ht x' (by simp)
  have hval : f.valueOf env x' = f.valueOf env X := (valueOf_varnodeSame h.same).symm
  have hst : s = t := by
    by_contra hst
    rcases varnodeSame_cases h.same with rfl | ⟨hX, hx', -⟩
    · exact hst (hsX.symm.trans htx)
    · refine hn (constantsApart hst h1 h2 (h.left ▸ hs) (h.right ▸ ht) ?_ ?_)
      · simp [h.left, hX, h.const]
      · simp [h.right, hx', h.const']
  subst hst
  have hfX := hfit X
  have hfc := hfit c
  have hfc' := hfit c'
  rw [hsX] at hfX
  rw [hsc] at hfc
  rw [htc] at hfc'
  obtain ⟨d, hd, hcompl⟩ := h.complement
  have hsd : (f.vn d).size = s := by
    rcases hd with rfl | rfl
    · exact hsc
    · exact htc
  rw [hsd] at hcompl
  have hins : f.operandsOf env below = [(s, f.valueOf env X), (s, f.valueOf env c)] := by
    unfold operandsOf operandOf
    rw [h.left]
    simp [hsX, hsc]
  have hins' : f.operandsOf env above = [(s, f.valueOf env c'), (s, f.valueOf env X)] := by
    unfold operandsOf operandOf
    rw [h.right]
    simp [htc, htx, hval]
  unfold truth at hx hy
  rw [hins] at hx
  rw [hins', ← h.code] at hy
  have hsum {p q : Prop} [Decidable p] [Decidable q] :
      (decide p).toNat + (decide q).toNat = 1 ↔ (q ↔ ¬p) := by
    by_cases hp : p
    all_goals
      by_cases hq : q
      all_goals simp [hp, hq]
  rw [valueOf_const h.const] at hx hfc
  rw [valueOf_const h.const'] at hy hfc'
  rcases h.order with hcode | hcode
  · rw [hcode] at hx hy hcompl
    cases (eval_sless s 1 hfX hfc).symm.trans hx
    cases (eval_sless s 1 hfc' hfX).symm.trans hy
    rw [hsum]
    by_cases hwide : 8 < s ∧ (f.vn c).constantValue = 0
    · obtain ⟨h8, hzero⟩ := hwide
      have hmax : (f.vn c').constantValue = BitVec.allOnes 64 := by
        rcases toNat_of_succ (complementConstants_cases hcompl).1 with hnat | ⟨-, hmax⟩
        · rw [hzero] at hnat
          exact absurd hnat.symm (Nat.succ_ne_zero _)
        · exact hmax
      have hwide : f.WideSigned env below above ↔ f.valueOf env X < 2 ^ 64 := by
        rw [h.wideSigned_iff, hsX]
        exact ⟨fun hw => hw.2.2.2.2, fun hlt => ⟨hcode, hzero, h8, htc, hlt⟩⟩
      rw [hwide, hzero, hmax]
      exact above_zero_iff h8 hfX
    · have hadj := toInt_complement hs0 hcompl hfc' hfc hwide
      refine iff_of_true (by omega) fun hw => hwide ?_
      obtain ⟨-, hzero, h8, -⟩ := h.wideSigned_iff.mp hw
      exact ⟨hsX ▸ h8, hzero⟩
  · rw [hcode] at hx hy hcompl
    cases (eval_less s s 1 _ _).symm.trans hx
    cases (eval_less s s 1 _ _).symm.trans hy
    rw [hsum]
    obtain ⟨hsucc, hzero, -⟩ := complementConstants_cases hcompl
    have hnat := (toNat_of_succ hsucc).resolve_right fun hz => hzero ⟨hz.1, rfl⟩
    refine iff_of_true (by omega) fun hw => ?_
    have hsless := (h.wideSigned_iff.mp hw).1
    rw [hcode] at hsless
    cases hsless

end Adjacent

/-! The direct comparison of two ops. -/

theorem ConstantsApart.symm (h : f.ConstantsApart op1 op2) : f.ConstantsApart op2 op1 := by
  obtain ⟨a, ha, b, hb, hne⟩ := h.sizes
  exact ⟨h.right, h.left, b, hb, a, ha, hne.symm⟩

theorem sameInputs_total {l l' : List VarnodeId} (hlen : l.length = l'.length) :
    f.sameInputs l l' = some true ∨ f.sameInputs l l' = some false := by
  induction l generalizing l' with
  | nil => exact .inl rfl
  | cons a l ih =>
    cases l' with
    | nil => cases hlen
    | cons b l' =>
      unfold sameInputs
      split_ifs
      · exact ih (Nat.succ.inj hlen)
      · exact .inr rfl

theorem AdjacentCompare.not_same (h : f.AdjacentCompare op1 op2) (h1 : f.BoolOperands op1)
    (h2 : f.BoolOperands op2) : f.sameInputs (f.op op1).inrefs (f.op op2).inrefs ≠ some true := by
  intro hs
  have hlen : (f.op op1).inrefs.length = (f.op op2).inrefs.length := by
    rw [h1.arity, h2.arity, h.1]
  have hall := sameInputs_forall₂ hs hlen
  have hne {below above : OpId} {x c c' x' : VarnodeId} (ha : Adjacent f below above x c c' x')
      (hxc : f.varnodeSame x c' = true) (hcx : f.varnodeSame c x' = true) : False := by
    -- all four operands have one value
    have hval := ((@valueOf_varnodeSame _ (fun _ => 0)) hxc).symm.trans
      ((valueOf_varnodeSame ha.same).trans (valueOf_varnodeSame hcx).symm)
    rw [valueOf_const ha.const, valueOf_const ha.const'] at hval
    exact ha.ne (BitVec.eq_of_toNat_eq hval)
  obtain ⟨x, c, c', x', ha | ha⟩ := h.cases h1 h2
  · rw [ha.left, ha.right] at hall
    cases hall with
    | cons hxc hrest =>
      cases hrest with
      | cons hcx _ => exact hne ha hxc hcx
  · rw [ha.left, ha.right] at hall
    cases hall with
    | cons hxc hrest =>
      cases hrest with
      | cons hcx _ =>
        rw [varnodeSame_comm] at hxc hcx
        exact hne ha hxc hcx

theorem getBooleanflip_ne {c1 c2 : OpCode} {reorder : Bool}
    (h : c2.getBooleanflip = some (c1, reorder)) : c1 ≠ c2 := by
  cases c2
  all_goals first
    | cases h; exact nofun
    | cases h

theorem SameCompare.matchDirect (h : f.SameCompare op1 op2) :
    f.matchDirect op1 op2 = some same := by
  unfold Funcdata.matchDirect
  rw [if_pos h.1, h.2]
  rfl

theorem AdjacentCompare.matchDirect (h : f.AdjacentCompare op1 op2) (h1 : f.BoolOperands op1)
    (h2 : f.BoolOperands op2) : f.matchDirect op1 op2 = some complementary := by
  have hlen : (f.op op1).inrefs.length = (f.op op2).inrefs.length := by
    rw [h1.arity, h2.arity, h.1]
  have hs := (sameInputs_total hlen).resolve_left (h.not_same h1 h2)
  unfold Funcdata.matchDirect
  rw [if_pos h.1, hs, h.2]
  rfl

/-- The comparison with the complement, on the four operands. -/
theorem matchFlipped_eq {p q p' q' : VarnodeId} {reorder : Bool}
    (hflip : (f.op op2).opcode.getBooleanflip = some ((f.op op1).opcode, reorder))
    (hin : (f.op op1).inrefs = [p, q]) (hin' : (f.op op2).inrefs = [p', q']) :
    f.matchFlipped op1 op2 = some (if f.sameInputs (f.op op1).inrefs
      (if reorder then (f.op op2).inrefs.reverse else (f.op op2).inrefs) = some true
      then complementary else uncorrelated) := by
  unfold matchFlipped
  rw [hflip]
  cases reorder
  · cases hp : f.varnodeSame p p'
    · simp [hin, hin', input_zero hin, input_zero hin', sameInputs, hp]
    · cases hq : f.varnodeSame q q'
      all_goals
        simp [hin, hin', input_zero hin, input_zero hin', input_one hin, input_one hin',
          sameInputs, hp, hq]
  · cases hp : f.varnodeSame p q'
    · simp [hin, hin', input_zero hin, input_one hin', sameInputs, hp]
    · cases hq : f.varnodeSame q p'
      all_goals
        simp [hin, hin', input_zero hin, input_zero hin', input_one hin, input_one hin',
          sameInputs, hp, hq]

theorem FlippedCompare.matchDirect (h : f.FlippedCompare op1 op2) (h1 : f.BoolOperands op1)
    (h2 : f.BoolOperands op2) (hb : (f.op op1).opcode.isBoolOutput = true) :
    f.matchDirect op1 op2 = some complementary := by
  obtain ⟨reorder, hflip, hsame⟩ := h
  obtain ⟨ha1, ha2⟩ := boolArity_of_flip hflip hb
  obtain ⟨p, q, -, hin, -⟩ := h1.two ha1
  obtain ⟨p', q', -, hin', -⟩ := h2.two ha2
  unfold Funcdata.matchDirect
  rw [if_neg (getBooleanflip_ne hflip), matchFlipped_eq hflip hin hin', if_pos hsame]

/-- What an answer other than `uncorrelated` comes from. -/
theorem matchDirect_cases (h : f.matchDirect op1 op2 = some m) (h1 : f.BoolOperands op1)
    (h2 : f.BoolOperands op2) (hb : (f.op op1).opcode.isBoolOutput = true) :
    m = same ∧ f.SameCompare op1 op2 ∨
      m = complementary ∧ (f.FlippedCompare op1 op2 ∨ f.AdjacentCompare op1 op2) ∨
      m = uncorrelated := by
  unfold Funcdata.matchDirect at h
  split_ifs at h with hcode
  · have hlen : (f.op op1).inrefs.length = (f.op op2).inrefs.length := by
      rw [h1.arity, h2.arity, hcode]
    rcases sameInputs_total (f := f) hlen with hs | hs
    · rw [hs] at h
      cases h
      exact .inl ⟨rfl, hcode, hs⟩
    · rw [hs] at h
      cases hadj : f.sameOpComplement op1 op2 with
      | none => simp [hadj] at h
      | some t =>
        cases t
        · simp only [hadj, Option.bind_eq_bind, Option.bind_some, Option.pure_def,
            Bool.false_eq_true, if_false, Option.some.injEq] at h
          exact .inr (.inr h.symm)
        · simp only [hadj, Option.bind_eq_bind, Option.bind_some, Option.pure_def,
            Bool.false_eq_true, if_false, if_true, Option.some.injEq] at h
          exact .inr (.inl ⟨h.symm, .inr ⟨hcode, hadj⟩⟩)
  · cases hflip : (f.op op2).opcode.getBooleanflip with
    | none =>
      unfold matchFlipped at h
      rw [hflip] at h
      cases h
      exact .inr (.inr rfl)
    | some r =>
      obtain ⟨flipped, reorder⟩ := r
      by_cases hf : (f.op op1).opcode = flipped
      · subst hf
        obtain ⟨ha1, ha2⟩ := boolArity_of_flip hflip hb
        obtain ⟨p, q, -, hin, -⟩ := h1.two ha1
        obtain ⟨p', q', -, hin', -⟩ := h2.two ha2
        rw [matchFlipped_eq hflip hin hin'] at h
        by_cases hsame : f.sameInputs (f.op op1).inrefs
            (if reorder then (f.op op2).inrefs.reverse else (f.op op2).inrefs) = some true
        · rw [if_pos hsame] at h
          cases h
          exact .inr (.inl ⟨rfl, .inl ⟨reorder, hflip, hsame⟩⟩)
        · rw [if_neg hsame] at h
          cases h
          exact .inr (.inr rfl)
      · unfold matchFlipped at h
        simp only [hflip, ne_eq, hf, not_false_eq_true, if_true] at h
        cases h
        exact .inr (.inr rfl)

section Leaf

variable (h1 : f.BoolOperands op1) (h2 : f.BoolOperands op2)
  (hfit : ∀ v, f.valueOf env v < 2 ^ (8 * (f.vn v).size))
  (hx : f.truth fl env op1 = some x) (hy : f.truth fl env op2 = some y)
include h1 h2 hfit hx hy

theorem AdjacentCompare.truth_add_iff (h : f.AdjacentCompare op1 op2)
    (hn : ¬f.ConstantsApart op1 op2) :
    x + y = 1 ↔ ¬(f.WideSigned env op1 op2 ∨ f.WideSigned env op2 op1) := by
  obtain ⟨z, c, c', z', ha | ha⟩ := h.cases h1 h2
  · rw [ha.truth_add_iff h1 h2 hn hfit hx hy, or_iff_left ha.not_wideSigned]
  · rw [Nat.add_comm, ha.truth_add_iff h2 h1 (fun hc => hn hc.symm) hfit hy hx,
      or_iff_right ha.not_wideSigned]

omit hfit hx hy in
/-- Both ops are as wide as each other there. -/
theorem WideSigned.not_apart (h : f.WideSigned env op1 op2) : ¬f.ConstantsApart op1 op2 := by
  obtain ⟨-, -, z, c, c', z', hleft, hright, -, -, -, -, -, -, hsize, -⟩ := h
  obtain ⟨s, -, hs⟩ := h1.sizes
  obtain ⟨t, -, ht⟩ := h2.sizes
  have hst : s = t := by
    rw [← hs z (by simp [hleft]), ← ht c' (by simp [hright]), hsize]
  subst hst
  exact not_constantsApart hs ht

variable (hb1 : (f.op op1).opcode.isBoolOutput = true)
include hb1

/-- A direct answer is right where there is no pitfall. -/
theorem matchDirect_holds (hb2 : (f.op op2).opcode.isBoolOutput = true)
    (hm : f.matchDirect op1 op2 = some m) (hn : ¬f.Pitfall fl env op1 op2) : m.Holds x y := by
  have hle := truth_le_one hb1 hx
  have hle' := truth_le_one hb2 hy
  have hadd (hne : f.truth fl env op1 ≠ f.truth fl env op2) : x + y = 1 := by
    have hxy : x ≠ y := fun he => hne (by rw [hx, hy, he])
    omega
  rcases matchDirect_cases hm h1 h2 hb1 with ⟨rfl, hs⟩ | ⟨rfl, hf | ha⟩ | rfl
  · have heq : f.truth fl env op1 = f.truth fl env op2 := by
      by_contra hne
      by_cases hc : f.ConstantsApart op1 op2
      · exact hn (.inl ⟨hs, hc, hne⟩)
      · exact hne (hs.truth_eq h1 h2 hc)
    rw [hx, hy] at heq
    exact Option.some.inj heq
  · by_cases hc : f.ConstantsApart op1 op2 ∨ f.FloatOrder op1 op2
    · exact hadd fun heq => hn (.inr (.inl ⟨hf, hc, heq⟩))
    · rw [not_or] at hc
      exact hf.truth_add h1 h2 hb1 hc.1 hc.2 hfit hx hy
  · by_cases hc : f.ConstantsApart op1 op2
    · exact hadd fun heq => hn (.inr (.inr ⟨ha, .inl ⟨hc, heq⟩⟩))
    · refine (ha.truth_add_iff h1 h2 hfit hx hy hc).mpr fun hw => ?_
      exact hn (.inr (.inr ⟨ha, .inr hw⟩))
  · trivial

/-- On a pitfall the direct answer is wrong. -/
theorem Pitfall.wrong (h : f.Pitfall fl env op1 op2) :
    ∃ m, f.matchDirect op1 op2 = some m ∧ ¬m.Holds x y := by
  have hadd (heq : f.truth fl env op1 = f.truth fl env op2) : x + y ≠ 1 := by
    rw [hx, hy] at heq
    have := Option.some.inj heq
    omega
  rcases h with ⟨hs, -, hne⟩ | ⟨hf, -, heq⟩ | ⟨ha, hcase⟩
  · refine ⟨same, hs.matchDirect, fun hxy => hne ?_⟩
    rw [hx, hy, show x = y from hxy]
  · exact ⟨complementary, hf.matchDirect h1 h2 hb1, hadd heq⟩
  · refine ⟨complementary, ha.matchDirect h1 h2, ?_⟩
    by_cases hc : f.ConstantsApart op1 op2 ∧ f.truth fl env op1 = f.truth fl env op2
    · exact hadd hc.2
    · have hw := hcase.resolve_left hc
      have hca : ¬f.ConstantsApart op1 op2 := by
        rcases hw with hw | hw
        · exact hw.not_apart h1 h2
        · exact fun hca => hw.not_apart h2 h1 hca.symm
      exact fun hsum => (ha.truth_add_iff h1 h2 hfit hx hy hca).mp hsum hw

end Leaf

/-! BOOL_AND, BOOL_OR and BOOL_XOR of two operands that are matched. -/

/-- The connectives on 0 and 1. -/
def connect : OpCode → ℕ → ℕ → ℕ
  | .boolAnd, x, y => x &&& y
  | .boolOr, x, y => x ||| y
  | _, x, y => x ^^^ y

theorem connect_comm (code : OpCode) (x y : ℕ) : connect code x y = connect code y x := by
  unfold connect
  split
  · exact Nat.and_comm x y
  · exact Nat.or_comm x y
  · exact Nat.xor_comm x y

theorem connect_of_result {code : OpCode} {s t so z : ℕ} (hc : code.isConnective = true)
    (h : evalPcode code [(s, x), (t, y)] so = some z) :
    x ≤ 1 ∧ y ≤ 1 ∧ z = connect code x y := by
  have hguard {w : ℕ} (h : (if x ≤ 1 ∧ y ≤ 1 then some w else none) = some z) :
      x ≤ 1 ∧ y ≤ 1 ∧ z = w := by
    split_ifs at h with hle
    exact ⟨hle.1, hle.2, (Option.some.inj h).symm⟩
  cases code
  case boolAnd => exact hguard h
  case boolOr => exact hguard h
  case boolXor => exact hguard h
  all_goals cases hc

/-- The connectives that are compared: two equal ones, or AND with OR. -/
def Paired (opc1 opc2 : OpCode) : Prop :=
  opc1 = opc2 ∨ (opc1 = .boolAnd ∧ opc2 = .boolOr) ∨ (opc1 = .boolOr ∧ opc2 = .boolAnd)

/-- De Morgan's laws, and their like for XOR. -/
theorem matchPairs_holds {opc1 opc2 : OpCode} {pair1 pair2 : BooleanMatch} {p q p' q' : ℕ}
    (hc : opc1.isConnective = true) (hcodes : Paired opc1 opc2) (n1 : pair1 ≠ uncorrelated)
    (n2 : pair2 ≠ uncorrelated) (hp : p ≤ 1) (hq : q ≤ 1) (h1 : pair1.Holds p p')
    (h2 : pair2.Holds q q') :
    (matchPairs opc1 opc2 pair1 pair2).Holds (connect opc1 p q) (connect opc2 p' q') := by
  have hother {pair : BooleanMatch} {x y : ℕ} (hn : pair ≠ uncorrelated) (hx : x ≤ 1)
      (h : pair.Holds x y) : pair = same ∧ x = y ∨ pair = complementary ∧ y = 1 - x := by
    cases pair with
    | same => exact .inl ⟨rfl, h⟩
    | complementary => exact .inr ⟨rfl, Nat.eq_sub_of_add_eq' (show x + y = 1 from h)⟩
    | uncorrelated => exact absurd rfl hn
  have hcases : opc1 = .boolAnd ∧ opc2 = .boolAnd ∨ opc1 = .boolOr ∧ opc2 = .boolOr ∨
      opc1 = .boolXor ∧ opc2 = .boolXor ∨ opc1 = .boolAnd ∧ opc2 = .boolOr ∨
      opc1 = .boolOr ∧ opc2 = .boolAnd := by
    rcases hcodes with rfl | hcodes
    · cases opc1
      all_goals first
        | decide
        | cases hc
    · exact .inr (.inr (.inr hcodes))
  rcases hother n1 hp h1 with ⟨rfl, rfl⟩ | ⟨rfl, rfl⟩
  all_goals
    rcases hother n2 hq h2 with ⟨rfl, rfl⟩ | ⟨rfl, rfl⟩
    all_goals
      rcases hcases with ⟨rfl, rfl⟩ | ⟨rfl, rfl⟩ | ⟨rfl, rfl⟩ | ⟨rfl, rfl⟩ | ⟨rfl, rfl⟩
      all_goals
        interval_cases p
        all_goals
          interval_cases q
          all_goals decide

/-! The recursion. -/

theorem Feeds.of_input (hd : (f.vn v).defOp = some op)
    (hsem : (f.op op).opcode.hasSemantics = true) (hu : u ∈ (f.op op).inrefs)
    (h : f.Feeds u d) : f.Feeds v d := by
  induction h with
  | here hdef => exact .input (.here hd) hsem hu hdef
  | input _ hsem' hw hdef ih => exact .input ih hsem' hw hdef

theorem BoolValues.input (h : f.BoolValues fl env v) (hd : (f.vn v).defOp = some op)
    (hsem : (f.op op).opcode.hasSemantics = true) (hu : u ∈ (f.op op).inrefs) :
    f.BoolValues fl env u := fun d hfeeds => h d (hfeeds.of_input hd hsem hu)

theorem writer_spec (h : f.writer v = some op) : (f.vn v).defOp = some op := by
  unfold writer at h
  split_ifs at h
  exact h

theorem negation_spec (h : f.negation v = some op) :
    (f.vn v).defOp = some op ∧ (f.op op).opcode = .boolNegate := by
  obtain ⟨hw, hcode⟩ := Option.filter_eq_some_iff.mp h
  exact ⟨writer_spec hw, of_decide_eq_true hcode⟩

/-- The operand of a BOOL_NEGATE, and its values. -/
theorem negation_values (hgr : f.RuleGraph) (hd : (f.vn v).defOp = some op)
    (hcode : (f.op op).opcode = .boolNegate) (h : f.BoolValues fl env v) :
    ∃ a, (f.op op).input 0 = some a ∧ f.BoolValues fl env a ∧ f.valueOf env a ≤ 1 ∧
      f.valueOf env v = 1 - f.valueOf env a := by
  have ho := hgr.output_of_def hd
  have hsz := hgr.sizes ho
  rw [hcode] at hsz
  obtain ⟨a, hin, -⟩ := inrefs_one hsz.1
  have htruth := h op (.here hd) (by rw [hcode]; rfl) v ho
  unfold truth FloatCompare.result operandsOf at htruth
  rw [hcode, hin] at htruth
  have hval : (if f.valueOf env a ≤ 1 then some (1 - f.valueOf env a) else none) =
      some (f.valueOf env v) := htruth
  split_ifs at hval with hle
  exact ⟨a, input_zero hin, h.input hd (by rw [hcode]; rfl) (by simp [hin]), hle,
    (Option.some.inj hval).symm⟩

/-- The operands of a connective, and its values. -/
theorem connective_values (hgr : f.RuleGraph) (hd : (f.vn v).defOp = some op)
    (hcode : (f.op op).opcode.isConnective = true) (h : f.BoolValues fl env v) :
    ∃ a b, (f.op op).input 0 = some a ∧ (f.op op).input 1 = some b ∧ f.BoolValues fl env a ∧
      f.BoolValues fl env b ∧ f.valueOf env a ≤ 1 ∧ f.valueOf env b ≤ 1 ∧
      f.valueOf env v = connect (f.op op).opcode (f.valueOf env a) (f.valueOf env b) := by
  have ho := hgr.output_of_def hd
  have hsz := hgr.sizes ho
  have hfacts : (f.op op).opcode.hasSemantics = true ∧ (f.op op).opcode.isBoolOutput = true ∧
      ((f.op op).inrefs.map fun v => (f.vn v).size) = [1, 1] := by
    cases hc : (f.op op).opcode
    all_goals rw [hc] at hcode hsz
    case boolAnd | boolOr | boolXor => exact ⟨rfl, rfl, hsz.1⟩
    all_goals cases hcode
  obtain ⟨hsem, hb, hsizes⟩ := hfacts
  obtain ⟨a, b, hin, -⟩ := inrefs_two hsizes
  have htruth := h op (.here hd) hb v ho
  unfold truth FloatCompare.result operandsOf at htruth
  rw [if_pos hsem, hin] at htruth
  obtain ⟨hle, hle', hval⟩ := connect_of_result hcode htruth
  exact ⟨a, b, input_zero hin, input_one hin, h.input hd hsem (by simp [hin]),
    h.input hd hsem (by simp [hin]), hle, hle', hval⟩

/-- One level of `evaluate` on two ops that are no BOOL_NEGATE. -/
theorem matchOps_holds (hgr : f.RuleGraph) (hfl : f.FloatGraph)
    (hfit : ∀ v, f.valueOf env v < 2 ^ (8 * (f.vn v).size))
    {evaluate : VarnodeId → VarnodeId → Option BooleanMatch} {depth : BitVec 32}
    (hrec : ∀ v1 v2 m, f.BoolValues fl env v1 → f.BoolValues fl env v2 →
      evaluate v1 v2 = some m → m.Holds (f.valueOf env v1) (f.valueOf env v2))
    {v1 v2 : VarnodeId} (hd1 : (f.vn v1).defOp = some op1) (hd2 : (f.vn v2).defOp = some op2)
    (hv1 : f.BoolValues fl env v1) (hv2 : f.BoolValues fl env v2)
    (hn : (f.op op1).opcode.isBoolOutput = true → (f.op op2).opcode.isBoolOutput = true →
      ¬f.Pitfall fl env op1 op2)
    (hm : f.matchOps evaluate depth op1 op2 = some m) :
    m.Holds (f.valueOf env v1) (f.valueOf env v2) := by
  unfold matchOps at hm
  simp only [] at hm
  split_ifs at hm with hb hc hp
  · cases hm
    trivial
  · obtain ⟨a, b, ha, hb, va, vb, hale, hble, hval⟩ := connective_values hgr hd1 hc.2 hv1
    obtain ⟨a', b', ha', hb', va', vb', -, -, hval'⟩ := connective_values hgr hd2 hp.1 hv2
    rw [hval, hval']
    unfold matchConnectives at hm
    simp only [ha, ha', hb, hb', Option.bind_eq_bind, Option.bind_some, Option.pure_def] at hm
    obtain ⟨pair1, h1, hm⟩ := Option.bind_eq_some_iff.mp hm
    split_ifs at hm with hu1
    · -- crosswise
      obtain ⟨pair1, h1, hm⟩ := Option.bind_eq_some_iff.mp hm
      split_ifs at hm with hu1
      · cases hm
        trivial
      · obtain ⟨pair2, h2, hm⟩ := Option.bind_eq_some_iff.mp hm
        split_ifs at hm with hu2
        · cases hm
          trivial
        · cases hm
          rw [connect_comm (f.op op2).opcode]
          exact matchPairs_holds hc.2 hp.2 hu1 hu2 hale hble (hrec a b' _ va vb' h1)
            (hrec b a' _ vb va' h2)
    · obtain ⟨pair2, h2, hm⟩ := Option.bind_eq_some_iff.mp hm
      split_ifs at hm with hu2
      · cases hm
        trivial
      · cases hm
        exact matchPairs_holds hc.2 hp.2 hu1 hu2 hale hble (hrec a a' _ va va' h1)
          (hrec b b' _ vb vb' h2)
  · cases hm
    trivial
  · simp only [Bool.or_eq_true, Bool.not_eq_true', not_or, Bool.not_eq_false] at hb
    have ho1 := hgr.output_of_def hd1
    have ho2 := hgr.output_of_def hd2
    exact matchDirect_holds (boolOperands hgr hfl ho1 hb.1) (boolOperands hgr hfl ho2 hb.2) hfit
      (hv1 op1 (.here hd1) hb.1 v1 ho1) (hv2 op2 (.here hd2) hb.2 v2 ho2) hb.1 hb.2 hm
      (hn hb.1 hb.2)

/-- The answers are right for all varnodes whose boolean ops have their results. -/
def MatchSound (f : Funcdata) (fl : FloatCompare) (env : VarnodeId → ℕ) : Prop :=
  ∀ fuel v1 v2 depth m, f.BoolValues fl env v1 → f.BoolValues fl env v2 →
    f.evaluate fuel v1 v2 depth = some m → m.Holds (f.valueOf env v1) (f.valueOf env v2)

/-- No two boolean ops that have their results are a pitfall. -/
def NoPitfall (f : Funcdata) (fl : FloatCompare) (env : VarnodeId → ℕ) : Prop :=
  ∀ op1 op2 v1 v2, (f.op op1).output = some v1 → (f.op op2).output = some v2 →
    f.BoolValues fl env v1 → f.BoolValues fl env v2 → (f.op op1).opcode.isBoolOutput = true →
    (f.op op2).opcode.isBoolOutput = true → ¬f.Pitfall fl env op1 op2

theorem NoPitfall.matchSound (h : f.NoPitfall fl env) (hgr : f.RuleGraph) (hfl : f.FloatGraph)
    (hfit : ∀ v, f.valueOf env v < 2 ^ (8 * (f.vn v).size)) : f.MatchSound fl env := by
  intro fuel
  induction fuel with
  | zero =>
    intro v1 v2 depth m _ _ hm
    cases hm
  | succ fuel ih =>
    intro v1 v2 depth m hv1 hv2 hm
    unfold evaluate at hm
    split_ifs at hm with heq
    · cases hm
      exact congrArg _ heq
    · cases hneg1 : f.negation v1 with
      | some o =>
        obtain ⟨hd, hcode⟩ := negation_spec hneg1
        obtain ⟨a, ha, hva, hle, hval⟩ := negation_values hgr hd hcode hv1
        simp only [hneg1, ha, Option.bind_eq_bind, Option.bind_some, Option.pure_def] at hm
        obtain ⟨m', hm', hflip⟩ := Option.bind_eq_some_iff.mp hm
        cases hflip
        rw [hval]
        exact flip_holds hle (ih a v2 depth m' hva hv2 hm')
      | none =>
        cases hneg2 : f.negation v2 with
        | some o =>
          obtain ⟨hd, hcode⟩ := negation_spec hneg2
          obtain ⟨a, ha, hva, hle, hval⟩ := negation_values hgr hd hcode hv2
          simp only [hneg1, hneg2, ha, Option.bind_eq_bind, Option.bind_some,
            Option.pure_def] at hm
          obtain ⟨m', hm', hflip⟩ := Option.bind_eq_some_iff.mp hm
          cases hflip
          rw [hval]
          exact (flip_holds hle (ih v1 a depth m' hv1 hva hm').symm).symm
        | none =>
          simp only [hneg1, hneg2] at hm
          split at hm
          · rename_i op1 op2 hw1 hw2
            have hd1 := writer_spec hw1
            have hd2 := writer_spec hw2
            exact matchOps_holds hgr hfl hfit (fun a b m ha hb => ih a b _ m ha hb) hd1 hd2 hv1 hv2
              (h op1 op2 v1 v2 (hgr.output_of_def hd1) (hgr.output_of_def hd2) hv1 hv2) hm
          · cases hm
            trivial

/-- BOOL_NEGATE is never compared directly. -/
theorem Pitfall.ne_boolNegate (h : f.Pitfall fl env op1 op2) (hgr : f.RuleGraph)
    (h1 : f.BoolOperands op1) (h2 : f.BoolOperands op2)
    (ho1 : (f.op op1).output = some a) (ho2 : (f.op op2).output = some b)
    (hb1 : (f.op op1).opcode.isBoolOutput = true) :
    (f.op op1).opcode ≠ .boolNegate ∧ (f.op op2).opcode ≠ .boolNegate := by
  rcases h with ⟨hs, hc, -⟩ | ⟨⟨reorder, hflip, -⟩, -⟩ | ⟨ha, -⟩
  · have hsizes {o : OpId} {w : VarnodeId} (ho : (f.op o).output = some w)
        (hcode : (f.op o).opcode = .boolNegate) : ∀ v ∈ (f.op o).inrefs, (f.vn v).size = 1 := by
      have hsz := hgr.sizes ho
      rw [hcode] at hsz
      obtain ⟨u, hin, hu⟩ := inrefs_one hsz.1
      rw [hin]
      exact fun v hv => List.mem_singleton.mp hv ▸ hu
    have hne : (f.op op1).opcode ≠ .boolNegate := fun hcode =>
      not_constantsApart (hsizes ho1 hcode) (hsizes ho2 (hs.1 ▸ hcode)) hc
    exact ⟨hne, hs.1 ▸ hne⟩
  · obtain ⟨ha1, ha2⟩ := boolArity_of_flip hflip hb1
    constructor
    · intro hcode
      rw [hcode] at ha1
      cases ha1
    · intro hcode
      rw [hcode] at ha2
      cases ha2
  · obtain ⟨x, c, c', x', hadj | hadj⟩ := ha.cases h1 h2
    all_goals
      have horder : (f.op op2).opcode = .intSless ∨ (f.op op2).opcode = .intLess := by
        first
          | exact hadj.order
          | exact hadj.code ▸ hadj.order
      have hne : (f.op op2).opcode ≠ .boolNegate := by
        rcases horder with he | he
        all_goals
          rw [he]
          exact nofun
      exact ⟨ha.1.symm ▸ hne, hne⟩

theorem writer_of_output (hgr : f.RuleGraph) (ho : (f.op op).output = some v) :
    f.writer v = some op := by
  have hd := (hgr.linked.defs v op).mpr ho
  have hw := hgr.linked.written v (hgr.output_lt ho)
  unfold writer
  rw [hw, hd]
  rfl

theorem negation_eq_none (hgr : f.RuleGraph) (ho : (f.op op).output = some v)
    (hne : (f.op op).opcode ≠ .boolNegate) : f.negation v = none := by
  unfold negation
  rw [writer_of_output hgr ho, Option.filter_eq_none_iff]
  rintro d hd
  cases hd
  simpa using hne

theorem MatchSound.noPitfall (h : f.MatchSound fl env) (hgr : f.RuleGraph) (hfl : f.FloatGraph)
    (hfit : ∀ v, f.valueOf env v < 2 ^ (8 * (f.vn v).size)) : f.NoPitfall fl env := by
  intro op1 op2 v1 v2 ho1 ho2 hv1 hv2 hb1 hb2 hpit
  have h1 := boolOperands hgr hfl ho1 hb1
  have h2 := boolOperands hgr hfl ho2 hb2
  obtain ⟨hne1, hne2⟩ := hpit.ne_boolNegate hgr h1 h2 ho1 ho2 hb1
  have hd1 := (hgr.linked.defs v1 op1).mpr ho1
  have hd2 := (hgr.linked.defs v2 op2).mpr ho2
  obtain ⟨m, hm, hwrong⟩ := hpit.wrong h1 h2 hfit (hv1 op1 (.here hd1) hb1 v1 ho1)
    (hv2 op2 (.here hd2) hb2 v2 ho2) hb1
  -- `evaluate` compares the two ops directly at depth 0
  have heval : f.evaluate 1 v1 v2 0 = some m := by
    unfold evaluate
    by_cases heq : v1 = v2
    · subst heq
      cases Option.some.inj (hd1.symm.trans hd2)
      rw [SameCompare.matchDirect ⟨rfl, sameInputs_self _⟩] at hm
      rw [if_pos rfl, hm]
    · rw [if_neg heq]
      simp only [negation_eq_none hgr ho1 hne1, negation_eq_none hgr ho2 hne2,
        writer_of_output hgr ho1, writer_of_output hgr ho2]
      unfold matchOps
      simp [hb1, hb2, hm]
  exact hwrong (h 1 v1 v2 0 m hv1 hv2 heval)

/-- `BooleanMatch` is right about the varnodes of a graph, at every depth, exactly where no two of
their comparisons are a pitfall. -/
theorem matchSound_iff (hgr : f.RuleGraph) (hfl : f.FloatGraph)
    (hfit : ∀ v, f.valueOf env v < 2 ^ (8 * (f.vn v).size)) :
    f.MatchSound fl env ↔ f.NoPitfall fl env :=
  ⟨fun h => h.noPitfall hgr hfl hfit, fun h => h.matchSound hgr hfl hfit⟩

/-! `x s< 0` and `2^64 - 1 s< x` in 16 bytes. -/

def wideVarnodes : List Varnode :=
  [{ loc := ⟨2, 0⟩, size := 16, input := true, insert := true, descend := [0, 1],
      nzm := BitVec.allOnes 64 },
    { loc := ⟨0, 0⟩, size := 16, constant := true, descend := [0], nzm := 0 },
    { loc := ⟨0, BitVec.allOnes 64⟩, size := 16, constant := true, descend := [1],
      nzm := BitVec.allOnes 64 },
    { loc := ⟨3, 0⟩, size := 1, written := true, insert := true, defOp := some 0, nzm := 1 },
    { loc := ⟨3, 1⟩, size := 1, written := true, insert := true, defOp := some 1, nzm := 1 }]

def wideOps : List PcodeOp :=
  [{ opcode := .intSless, parent := some 0, output := some 3, inrefs := [0, 1] },
    { opcode := .intSless, parent := some 0, output := some 4, inrefs := [2, 0] }]

def wideGraph : Funcdata := ofLists wideVarnodes wideOps [{ ops := [0, 1] }]

theorem ruleGraph_wide : wideGraph.RuleGraph := ruleGraph_ofLists (by decide +kernel)

theorem floatGraph_wide : wideGraph.FloatGraph := by
  intro op out _ hcode
  change (wideOps.getD op default).opcode.isFloatCompare = true at hcode
  match op with
  | 0 | 1 => cases hcode
  | _ + 2 => cases hcode

/-- `x` is 5, and so both comparisons are false. -/
def wideValues : VarnodeId → ℕ := valuesOf [5]

theorem fits_wide (v : VarnodeId) :
    wideGraph.valueOf wideValues v < 2 ^ (8 * (wideGraph.vn v).size) := by
  match v with
  | 0 | 1 | 2 | 3 | 4 => decide
  | _ + 5 => exact Nat.one_pos

theorem boolValues_wide (fl : FloatCompare) (v : VarnodeId) :
    wideGraph.BoolValues fl wideValues v := by
  intro d _ _ out ho
  change (wideOps.getD d default).output = some out at ho
  match d with
  | 0 | 1 =>
    cases ho
    rfl
  | _ + 2 => cases ho

/-- No float is equal to, or less than, another. -/
def noFloats : FloatCompare := ⟨fun _ => false, fun _ => false, fun _ => false, fun _ => false⟩

theorem matchSound_iff_wide : wideGraph.MatchSound noFloats wideValues ↔
    wideGraph.NoPitfall noFloats wideValues :=
  matchSound_iff ruleGraph_wide floatGraph_wide fits_wide

/-- The two comparisons are taken for complements. -/
theorem matchSound_not_wide : ¬∀ (f : Funcdata) (fl : FloatCompare) (env : VarnodeId → ℕ),
    f.RuleGraph → f.FloatGraph → (∀ v, f.valueOf env v < 2 ^ (8 * (f.vn v).size)) →
    f.MatchSound fl env := by
  intro h
  have hm : wideGraph.evaluate 1 3 4 1 = some complementary := by decide +kernel
  have hbad := h wideGraph noFloats wideValues ruleGraph_wide floatGraph_wide fits_wide 1 3 4 1
    complementary (boolValues_wide _ _) (boolValues_wide _ _) hm
  exact absurd hbad (by decide)

end Funcdata
end Mosura
