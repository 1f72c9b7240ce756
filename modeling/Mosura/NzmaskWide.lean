import Mosura.NzmaskTransfer

/-! The exact condition under which the 64-bit masks stay sound on wide Varnodes. -/

namespace Mosura
open Window

/-- A constant carries its own value as its mask and fits its size. -/
def ConstOk (v : Varnode) : Prop :=
  v.constant = true → v.nzm = v.constantValue ∧ v.constantValue.toNat < 2 ^ (8 * v.size)

theorem ConstOk.inputOk {v : Varnode} (h : ConstOk v) (hc : v.constant = true) :
    InputOk v v.constantValue.toNat :=
  ⟨(h hc).2, (h hc).1 ▸ covers_self _, fun _ => ⟨(h hc).1, rfl⟩⟩

/-- The bits above the window of a wide input are free. -/
theorem inputOk_of_high {v : Varnode} {lo hi : ℕ} (hc : ¬ v.constant = true) (hlo : lo < 2 ^ 64)
    (hcov : Covers v.nzm lo) (hlt : lo + 2 ^ 64 * hi < 2 ^ (8 * v.size)) :
    InputOk v (lo + 2 ^ 64 * hi) := by
  refine ⟨hlt, (covers_congr fun i hi64 => ?_).mp hcov, fun h => absurd h hc⟩
  rw [Nat.add_comm, Nat.testBit_two_pow_mul_add _ hlo, if_pos hi64]

theorem inputOk_two_pow {v : Varnode} {k : ℕ} (hc : ¬ v.constant = true) (hk : k < 8 * v.size)
    (hm : k < 64 → v.nzm.getLsbD k = true) : InputOk v (2 ^ k) := by
  refine ⟨Nat.pow_lt_pow_right (by norm_num) hk, covers_iff.mpr fun i hi hb => ?_,
    fun h => absurd h hc⟩
  rw [Nat.testBit_two_pow, decide_eq_true_eq] at hb
  exact hb ▸ hm (hb ▸ hi)

theorem Possible.exists {v : Varnode} {k : ℕ} (hv : ConstOk v) (h : Possible v k) :
    ∃ x, InputOk v x ∧ x.testBit k = true := by
  unfold Possible at h
  split_ifs at h with hc
  · exact ⟨_, hv.inputOk hc, h⟩
  · exact ⟨2 ^ k, inputOk_two_pow hc h.1 h.2, Nat.testBit_two_pow_self⟩

theorem testBit_of_mem_Ico {q k : ℕ} (h : 2 ^ k ≤ q) (h' : q < 2 ^ (k + 1)) :
    q.testBit k = true := by
  obtain ⟨j, hj, hb⟩ := Nat.exists_ge_and_testBit_of_ge_two_pow h
  have : ¬ k < j := fun hlt => by
    rw [Nat.testBit_lt_two_pow (h'.trans_le (Nat.pow_le_pow_right two_pos hlt))] at hb
    cases hb
  rwa [show k = j by omega]

theorem bitCount_two_pow_sub_one {n k : ℕ} (h : n ≤ k) : bitCount k (2 ^ n - 1) = n := by
  obtain ⟨d, rfl⟩ := Nat.exists_eq_add_of_le h
  have h1 : bitCount n (2 ^ n - 1) = n := by
    unfold bitCount
    rw [List.countP_eq_length.mpr, List.length_range]
    intro i hi
    rw [Nat.testBit_two_pow_sub_one, decide_eq_true_eq]
    exact List.mem_range.mp hi
  rw [bitCount_add, h1, Nat.shiftRight_eq_zero _ _ (Nat.sub_lt (Nat.two_pow_pos _) one_pos)]
  simp [bitCount]

section Necessary

variable {a b : Varnode} {so : ℕ} {cb : Bool}

/-- The transfer of a two-operand `code` covers every result. -/
def BinaryCovers (code : OpCode) (cb : Bool) (so : ℕ) (a b : Varnode) : Prop :=
  ∀ x y v, InputOk a x → InputOk b y → evalBinary code a.size b.size so x y = some v →
    Covers (nzmaskTransfer code cb so a b) v

theorem intRight_windowOk (ha32 : a.size ≤ 32) (hb : ConstOk b)
    (h : BinaryCovers .intRight cb so a b) : windowOk .intRight so a b := by
  intro hc i hi h64 hposs
  unfold Possible at hposs
  split_ifs at hposs with hac
  · exact absurd (BitVec.lt_of_getLsbD hposs) (by omega)
  · have hx := inputOk_two_pow hac hposs.1 (fun hlt => absurd hlt (by omega))
    have hv := h _ _ _ hx (hb.inputOk hc) (by rw [evalBinary])
    rw [if_neg (by omega)] at hv
    refine not_covers i hi ?_ ?_ hv
    · rw [Nat.testBit_shiftRight]
      exact Nat.testBit_two_pow_self
    · change (if (!b.constant) = true then _ else _ : U64).getLsbD i = false
      rw [if_neg (by simpa using hc), pcodeRight_getLsbD]
      rw [asU32_eq (k := 2 ^ 32) (by omega) le_rfl]
      exact BitVec.getLsbD_of_ge _ _ h64

theorem intSright_windowOk (ha : ConstOk a) (hb : ConstOk b) (has : a.size = so) (h0 : 0 < so)
    (h : BinaryCovers .intSright cb so a b) : windowOk .intSright so a b := by
  intro h8 hc
  by_contra hn
  simp only [not_or, not_lt, Bool.not_eq_false, not_forall] at hn
  obtain ⟨hlarge, hsign, i₀, hi₀, hsa, hclear⟩ := hn
  have hposs : Possible a (8 * so - 1) := by
    unfold Possible
    split_ifs with hac
    · rwa [← (ha hac).1]
    · exact ⟨by omega, fun _ => hsign⟩
  obtain ⟨x, hx, hxb⟩ := hposs.exists ha
  have hv := h _ _ _ hx (hb.inputOk hc) (by rw [evalBinary])
  refine not_covers (i₀ - asU32 b.constantValue) (by omega) ?_ ?_ hv
  · have hsr : evalBinary .intSright a.size b.size so x b.constantValue.toNat = some _ := rfl
    rw [evalBinary_intSright_testBit (by omega) hsr, if_neg (by omega), has, hxb]
    simp only [show i₀ - asU32 b.constantValue < 8 * so by omega, decide_true, Bool.and_self]
  · rw [intSright_mask hc h8 h0, show asU32 b.constantValue + (i₀ - asU32 b.constantValue) = i₀ by
      omega, Bool.eq_false_of_not_eq_true hclear]
    simp only [show ¬ 8 * so ≤ i₀ by omega, decide_false, Bool.and_false, Bool.or_self]

/-- A quotient of `2 ^ t` whose top bit is the first one a constant divisor shifts out. -/
theorem exists_div_bit {c : ℕ} (h2 : 2 ≤ c) (h64 : c < 2 ^ 64) :
    ∃ t, 64 ≤ t ∧ t ≤ 65 ∧ (2 ^ t / c).testBit (64 - (bitLen c - 1)) = true := by
  have hlen : bitLen c ≤ 64 := bitLen_le_iff.mpr h64
  have hlen2 : 1 < bitLen c := lt_bitLen_iff.mpr (by omega)
  obtain ⟨m, hm⟩ : ∃ m, bitLen c = m + 1 := ⟨bitLen c - 1, by omega⟩
  have hlo : 2 ^ m ≤ c := lt_bitLen_iff.mp (by omega)
  have hhi : c < 2 ^ (m + 1) := hm ▸ lt_two_pow_bitLen c
  rw [show 64 - (bitLen c - 1) = 64 - m by omega]
  rcases hlo.eq_or_lt with rfl | hlt
  · refine ⟨64, le_rfl, by omega, ?_⟩
    rw [Nat.pow_div (by omega) two_pos]
    exact Nat.testBit_two_pow_self
  · refine ⟨65, by omega, le_rfl, testBit_of_mem_Ico ?_ ?_⟩
    · rw [Nat.le_div_iff_mul_le (by omega)]
      calc 2 ^ (64 - m) * c ≤ 2 ^ (64 - m) * 2 ^ (m + 1) := Nat.mul_le_mul_left _ hhi.le
        _ = 2 ^ 65 := by rw [← pow_add]; congr 1; omega
    · rw [Nat.div_lt_iff_lt_mul (by omega)]
      calc 2 ^ 65 = 2 ^ (64 - m + 1) * 2 ^ m := by rw [← pow_add]; congr 1; omega
        _ < 2 ^ (64 - m + 1) * c := Nat.mul_lt_mul_of_pos_left hlt (Nat.two_pow_pos _)

theorem intDiv_windowOk (hb : ConstOk b) (has : a.size = so) (hbs : b.size = so)
    (h : BinaryCovers .intDiv cb so a b) : windowOk .intDiv so a b := by
  by_contra hn
  simp only [windowOk, not_or] at hn
  obtain ⟨h8, hac, hn⟩ := hn
  split_ifs at hn with hc
  · have hc2 : 2 ≤ b.constantValue.toNat := by omega
    obtain ⟨t, ht64, ht65, hbit⟩ := exists_div_bit hc2 b.constantValue.isLt
    have hx : InputOk a (2 ^ t) := inputOk_two_pow hac (by omega) (fun hlt => absurd hlt (by omega))
    have hlen : 1 < bitLen b.constantValue.toNat := lt_bitLen_iff.mpr (by omega)
    have hlen' : bitLen b.constantValue.toNat ≤ 64 := bitLen_le_iff.mpr b.constantValue.isLt
    have hla : bitLen a.nzm.toNat ≤ 64 := bitLen_le_iff.mpr a.nzm.isLt
    have hv := h _ _ _ hx (hb.inputOk hc) (by rw [evalBinary, if_neg (by omega)])
    refine not_covers _ (by omega) hbit ?_ hv
    change (divMask a b).getLsbD _ = false
    rw [divMask_getLsbD, if_pos hc, (hb hc).1, decide_eq_false_iff_not]
    omega
  · obtain ⟨hk, hj⟩ := not_or.mp hn
    obtain ⟨hj1, hj64, hjbit, -⟩ := lowAbove_spec b.nzm
    have hy : InputOk b (2 ^ lowAbove b.nzm) := inputOk_two_pow hc (by omega) hjbit
    obtain ⟨i, hi⟩ : ∃ i, i = max (bitLen a.nzm.toNat) (64 - lowAbove b.nzm) := ⟨_, rfl⟩
    have hx : InputOk a (2 ^ (i + lowAbove b.nzm)) :=
      inputOk_two_pow hac (by omega) (fun hlt => absurd hlt (by omega))
    have hv := h _ _ _ hx hy (by rw [evalBinary, if_neg (Nat.two_pow_pos _).ne'])
    rw [pow_add, Nat.mul_div_cancel _ (Nat.two_pow_pos _)] at hv
    refine not_covers i (by omega) Nat.testBit_two_pow_self ?_ hv
    change (divMask a b).getLsbD i = false
    rw [divMask_getLsbD, if_neg hc, decide_eq_false_iff_not]
    omega

theorem intRem_windowOk (ha : ConstOk a) (has : a.size = so) (hbs : b.size = so)
    (h : BinaryCovers .intRem cb so a b) : windowOk .intRem so a b := by
  by_contra hn
  simp only [windowOk, not_or, not_and, not_lt] at hn
  obtain ⟨h8, hbc, hb0, hb63, hn⟩ := hn
  have h72 : 2 ^ 72 ≤ 2 ^ (8 * so) := Nat.pow_le_pow_right two_pos (by omega)
  by_cases hac : a.constant = true
  · have hy : InputOk b (0 + 2 ^ 64 * 1) :=
      inputOk_of_high hbc (by norm_num) (covers_zero _) (by rw [hbs]; omega)
    have hv := h _ _ _ (ha.inputOk hac) hy (by rw [evalBinary, if_neg (by norm_num)])
    rw [Nat.mod_eq_of_lt (by simpa using a.constantValue.isLt)] at hv
    exact hn hac hv
  · obtain ⟨j, hj⟩ : ∃ j, b.nzm.getLsbD j = true := by
      by_contra hall
      exact hb0 (BitVec.eq_of_getLsbD_eq fun i _ => by simpa using fun hi => hall ⟨i, hi⟩)
    have hj64 := BitVec.lt_of_getLsbD hj
    have hjle : 2 ^ j ≤ 2 ^ 63 := Nat.pow_le_pow_right two_pos (by omega)
    have hjpos := Nat.two_pow_pos j
    have hjcov : Covers b.nzm (2 ^ j) := covers_iff.mpr fun i _ hi => by
      rw [Nat.testBit_two_pow, decide_eq_true_eq] at hi
      exact hi ▸ hj
    have hy : InputOk b (2 ^ j + 2 ^ 64 * 1) :=
      inputOk_of_high hbc (by omega) hjcov (by rw [hbs]; omega)
    have hx : InputOk a (0 + 2 ^ 64 * 2) :=
      inputOk_of_high hac (by norm_num) (covers_zero _) (by rw [has]; omega)
    have hv := h _ _ _ hx hy (by rw [evalBinary, if_neg (by omega)])
    rw [show (0 + 2 ^ 64 * 2) % (2 ^ j + 2 ^ 64 * 1) = 2 ^ 64 - 2 ^ j by
      rw [Nat.mod_eq_sub_mod (by omega), Nat.mod_eq_of_lt (by omega)]; omega] at hv
    refine not_covers 63 (by norm_num) (testBit_of_mem_Ico (by omega) (by omega)) ?_ hv
    change (coveringmask (b.nzm - 1)).getLsbD 63 = false
    rw [coveringmask_getLsbD, decide_eq_false_iff_not, lt_bitLen_iff]
    have h1 : (1 : U64) ≤ b.nzm := by
      rw [BitVec.le_def, show (1 : U64).toNat = 1 from rfl]
      exact Nat.pos_of_ne_zero fun h0 => hb0 (BitVec.eq_of_toNat_eq h0)
    rw [BitVec.toNat_sub_of_le h1, show (1 : U64).toNat = 1 from rfl]
    rw [BitVec.le_def, show (1 : U64).toNat = 1 from rfl] at h1
    omega

theorem subpiece_windowOk (ha : ConstOk a) (hb : ConstOk b) (hc : b.constant = true)
    (h : BinaryCovers .subpiece cb so a b) : windowOk .subpiece so a b := by
  by_cases h8 : a.size ≤ 8
  · exact .inl h8
  refine .inr fun i hi hiso hposs => ?_
  by_contra hclear
  have hoff : ¬ a.size ≤ b.constantValue.toNat := by
    unfold Possible at hposs
    split_ifs at hposs
    · have := BitVec.lt_of_getLsbD hposs
      omega
    · omega
  obtain ⟨x, hx, hbit⟩ := hposs.exists ha
  have hv := h _ _ _ hx (hb.inputOk hc) (by rw [evalBinary, if_neg hoff])
  refine not_covers i hi ?_ ?_ hv
  · simp only [Nat.testBit_mod_two_pow, Nat.testBit_shiftRight, hiso, hbit, decide_true,
      Bool.and_self]
  · change ((if a.size ≤ 8 then _ else a.nzm) &&& calcMask so : U64).getLsbD i = false
    rw [if_neg h8, BitVec.getLsbD_and, Bool.eq_false_of_not_eq_true hclear, Bool.false_and]

theorem popcount_windowOk (cb : Bool) (h0 : 0 < so)
    (h : ∀ x v, InputOk a x → evalUnary .popcount a.size so x = some v →
      Covers (nzmaskTransfer .popcount cb so a b) v) : windowOk .popcount so a b := by
  by_contra hn
  simp only [windowOk, not_or, not_lt] at hn
  obtain ⟨h8, hac, hn⟩ := hn
  obtain ⟨p, hp⟩ : ∃ p, bitCount 64 a.nzm.toNat = p := ⟨_, rfl⟩
  have hp64 : p ≤ 64 := hp ▸ bitCount_le _ _
  have hk : bitLen p ≤ 7 := bitLen_le_iff.mpr (by omega)
  have hpk := lt_two_pow_bitLen p
  rw [hp] at hn
  -- all low bits of the mask and as many high bits as make the count a power of two
  obtain ⟨n, hn'⟩ : ∃ n, n = 2 ^ bitLen p - p := ⟨_, rfl⟩
  have hx : InputOk a (a.nzm.toNat + 2 ^ 64 * (2 ^ n - 1)) := by
    refine inputOk_of_high hac a.nzm.isLt (covers_self _) ?_
    have hlo := a.nzm.isLt
    have hone : 1 ≤ 2 ^ n := Nat.one_le_two_pow
    calc a.nzm.toNat + 2 ^ 64 * (2 ^ n - 1) < 2 ^ 64 * 2 ^ n := by
          rw [Nat.mul_sub, Nat.mul_one]
          have := Nat.mul_le_mul_left (2 ^ 64) hone
          omega
      _ = 2 ^ (64 + n) := (pow_add _ _ _).symm
      _ ≤ 2 ^ (8 * a.size) := Nat.pow_le_pow_right two_pos (by omega)
  have hcount : bitCount (8 * a.size) (a.nzm.toNat + 2 ^ 64 * (2 ^ n - 1)) = 2 ^ bitLen p := by
    have hlow : bitCount 64 (a.nzm.toNat + 2 ^ 64 * (2 ^ n - 1)) = bitCount 64 a.nzm.toNat := by
      unfold bitCount
      refine List.countP_congr fun i hi => ?_
      rw [Nat.add_comm, Nat.testBit_two_pow_mul_add _ a.nzm.isLt, if_pos (List.mem_range.mp hi)]
    have hhigh : (a.nzm.toNat + 2 ^ 64 * (2 ^ n - 1)) >>> 64 = 2 ^ n - 1 := by
      rw [Nat.shiftRight_eq_div_pow, Nat.add_mul_div_left _ _ (by norm_num),
        Nat.div_eq_of_lt a.nzm.isLt, Nat.zero_add]
    rw [show 8 * a.size = 64 + (8 * a.size - 64) by omega, bitCount_add, hlow, hhigh, hp,
      bitCount_two_pow_sub_one (by omega)]
    omega
  have hv := h _ _ hx (by rw [evalUnary])
  rw [hcount] at hv
  refine not_covers (bitLen p) (by omega) ?_ ?_ hv
  · rw [Nat.testBit_mod_two_pow, Nat.testBit_two_pow_self, Bool.and_true, decide_eq_true_eq]
    omega
  · change (coveringmask (BitVec.ofNat 64 (bitCount 64 a.nzm.toNat)) &&& calcMask so).getLsbD _ = _
    rw [BitVec.getLsbD_and, coveringmask_getLsbD, hp, BitVec.toNat_ofNat,
      Nat.mod_eq_of_lt (by omega)]
    simp

end Necessary

namespace Funcdata

variable {f : Funcdata} {dom : Dominators} {op : OpId} {out : VarnodeId}

/-- A two-operand op with a defined value, seen as its transfer. -/
theorem NzmaskSound.binary {u w : VarnodeId} (h : f.NzmaskSound dom op out)
    (hi : (f.op op).inrefs = [u, w]) (hm : (f.op op).opcode ≠ .multiequal)
    (he : (f.op op).opcode.hasSemantics = true) :
    BinaryCovers (f.op op).opcode (f.op op).calculatedBool (f.vn out).size (f.vn u) (f.vn w) := by
  intro x y v hx hy hv
  have hxs : f.InputsOk op [x, y] := by
    unfold InputsOk
    rw [hi]
    exact .cons hx (.cons hy .nil)
  have hc := h [x, y] v hxs (by
    unfold OpResult operands
    rw [if_neg hm, if_pos he, hi]
    exact hv)
  unfold opNzmaskLocal at hc
  rwa [if_neg hm, inVn_of_getElem? (by rw [hi]; rfl : (f.op op).inrefs[0]? = some u),
    inVn_of_getElem? (by rw [hi]; rfl : (f.op op).inrefs[1]? = some w)] at hc

/-- The masks of `op_nzmask_local` are sound for operands of up to 32 bytes exactly when the
window is wide enough for the opcode. -/
theorem nzmaskSound_iff (hwf : f.OpWf op out) (hout : (f.vn out).size ≤ 32)
    (hin : ∀ v ∈ (f.op op).inrefs, (f.vn v).size ≤ 32)
    (hconst : ∀ v ∈ (f.op op).inrefs, ConstOk (f.vn v)) :
    f.NzmaskSound dom op out ↔
      windowOk (f.op op).opcode (f.vn out).size (f.inVn op 0) (f.inVn op 1) := by
  refine ⟨fun h => ?_, fun hw xs v hxs hv => opNzmaskLocal_covers dom hwf hout hin hxs hw hv⟩
  have hs := hwf.sizes
  obtain ⟨code, hc⟩ : ∃ c, (f.op op).opcode = c := ⟨_, rfl⟩
  have hpair : ∀ {s t : ℕ}, ((f.op op).inrefs.map fun v => (f.vn v).size) = [s, t] →
      code ≠ .multiequal → code.hasSemantics = true → (f.inVn op 0).size = s ∧
        (f.inVn op 1).size = t ∧ ConstOk (f.inVn op 0) ∧ ConstOk (f.inVn op 1) ∧
        (f.inVn op 0).size ≤ 32 ∧ BinaryCovers code (f.op op).calculatedBool (f.vn out).size
          (f.inVn op 0) (f.inVn op 1) := by
    intro s t he hm hsem
    have hl := congrArg List.length he
    rw [List.length_map] at hl
    obtain ⟨u, w, hi⟩ := List.length_eq_two.mp hl
    have hb := h.binary hi (hc ▸ hm) (hc ▸ hsem)
    rw [hi] at he
    rw [inVn_of_getElem? (by rw [hi]; rfl : (f.op op).inrefs[0]? = some u),
      inVn_of_getElem? (by rw [hi]; rfl : (f.op op).inrefs[1]? = some w)]
    simp only [List.map_cons, List.map_nil, List.cons.injEq, and_true] at he
    exact ⟨he.1, he.2, hconst u (by simp [hi]), hconst w (by simp [hi]), hin u (by simp [hi]),
      hc ▸ hb⟩
  rw [hc] at hs ⊢
  cases code
  case intRight =>
    obtain ⟨sb, he⟩ := hs
    obtain ⟨-, -, -, hcb, h32, hb⟩ := hpair he (by decide) rfl
    exact intRight_windowOk h32 hcb hb
  case intSright =>
    obtain ⟨sb, he⟩ := hs
    obtain ⟨hsa, -, hca, hcb, -, hb⟩ := hpair he (by decide) rfl
    exact intSright_windowOk hca hcb hsa hwf.out_pos hb
  case intDiv =>
    obtain ⟨hsa, hsb, -, hcb, -, hb⟩ := hpair hs (by decide) rfl
    exact intDiv_windowOk hcb hsa hsb hb
  case intRem =>
    obtain ⟨hsa, hsb, hca, -, -, hb⟩ := hpair hs (by decide) rfl
    exact intRem_windowOk hca hsa hsb hb
  case subpiece =>
    obtain ⟨sa, sb, he, -⟩ := hs
    obtain ⟨-, -, hca, hcb, -, hb⟩ := hpair he (by decide) rfl
    exact subpiece_windowOk hca hcb (hwf.offset hc) hb
  case popcount =>
    obtain ⟨s, he⟩ := hs
    have hl := congrArg List.length he
    rw [List.length_map] at hl
    obtain ⟨u, hi⟩ := List.length_eq_one_iff.mp hl
    refine popcount_windowOk (f.op op).calculatedBool hwf.out_pos fun x v hx hv => ?_
    have hu : f.inVn op 0 = f.vn u := inVn_of_getElem? (by rw [hi]; rfl)
    rw [hu] at hx hv
    have hcov := h [x] v (by unfold InputsOk; rw [hi]; exact .cons hx .nil) (by
      unfold OpResult operands
      rw [hc, hi, if_neg (by decide), if_pos (show OpCode.popcount.hasSemantics = true from rfl)]
      exact hv)
    unfold opNzmaskLocal at hcov
    rwa [hc, if_neg (by decide)] at hcov
  all_goals trivial

/-- `v0 >> 64` of a 16-byte input: the shift that selects the high half. -/
def wideShift : Funcdata where
  spaces := SpaceManager.standard false
  vn
    | 0 => { loc := ⟨2, 0⟩, size := 16, input := true, insert := true, descend := [0],
             nzm := calcMask 16 }
    | 1 => { loc := ⟨0, 64⟩, size := 4, constant := true, descend := [0], nzm := 64 }
    | _ => { loc := ⟨3, 0⟩, size := 16, written := true, insert := true, defOp := some 0,
             nzm := calcMask 16 }
  numVarnodes := 3
  op _ := { opcode := .intRight, parent := some 0, output := some 2, inrefs := [0, 1] }
  numOps := 1
  blocks := [{ ops := [0] }]

theorem wideShift_opWf : wideShift.OpWf 0 2 where
  sizes := ⟨4, rfl⟩
  out_pos := by decide
  in_pos := by decide
  offset := nofun

theorem wideShift_constOk : ∀ v ∈ (wideShift.op 0).inrefs, ConstOk (wideShift.vn v) := by
  intro v hv
  simp only [wideShift, List.mem_cons, List.not_mem_nil, or_false] at hv
  rcases hv with rfl | rfl
  · exact nofun
  · exact fun _ => ⟨rfl, by decide⟩

theorem nzmaskSound_iff_wideShift : wideShift.NzmaskSound ⟨[0]⟩ 0 2 ↔
    windowOk .intRight 16 (wideShift.vn 0) (wideShift.vn 1) :=
  nzmaskSound_iff wideShift_opWf (by decide) (by decide) wideShift_constOk

/-- The high half of a 16-byte value is lost: `2 ^ 64 >> 64` is 1, its mask 0. -/
theorem wideShift_unsound : ¬ ∀ (f : Funcdata) (dom : Dominators) (op : OpId) (out : VarnodeId),
    f.OpWf op out → (f.vn out).size ≤ 32 → (∀ v ∈ (f.op op).inrefs, (f.vn v).size ≤ 32) →
    (∀ v ∈ (f.op op).inrefs, ConstOk (f.vn v)) →
    ((f.vn out).size > 8 ∨ ∃ v ∈ (f.op op).inrefs, (f.vn v).size > 8) →
    f.NzmaskSound dom op out := by
  intro h
  have hs := h wideShift ⟨[0]⟩ 0 2 wideShift_opWf (by decide) (by decide) wideShift_constOk
    (.inl (by decide))
  have hv : InputOk (wideShift.vn 0) (2 ^ 64) := ⟨by decide, by decide, nofun⟩
  have hc : InputOk (wideShift.vn 1) 64 := ⟨by decide, by decide, fun _ => ⟨rfl, rfl⟩⟩
  exact absurd (hs [2 ^ 64, 64] 1 (.cons hv (.cons hc .nil)) (by decide)) (by decide)

end Funcdata
end Mosura
