import Mosura.NzmaskFixpoint

/-! The transfers of `op_nzmask_local` are monotone and stay within the size of their output. -/

namespace Mosura
open Window Funcdata

theorem coveringmask_mono {m m' : U64} (h : m.toNat ≤ m'.toNat) :
    Below (coveringmask m) (coveringmask m') := by
  intro i hi
  rw [coveringmask_getLsbD, decide_eq_true_eq] at hi ⊢
  exact hi.trans_le (bitLen_mono h)

/-- The records of an input under two masks, the first below the second. -/
structure Raised (v v' : Varnode) : Prop where
  size : v.size = v'.size
  constant : v.constant = v'.constant
  constantValue : v.constantValue = v'.constantValue
  below : Below v.nzm v'.nzm
  const : v.constant = true → v.nzm = v'.nzm

section Mono

variable {a a' b b' : Varnode} {so : ℕ} {cb : Bool}

theorem Below.pcodeLeft {m m' : U64} (h : Below m m') (sa : ℕ) :
    Below (pcodeLeft m sa) (pcodeLeft m' sa) := by
  intro i hi
  rw [pcodeLeft_getLsbD, Bool.and_eq_true] at hi ⊢
  exact ⟨hi.1, h _ hi.2⟩

theorem Below.pcodeRight {m m' : U64} (h : Below m m') (sa : ℕ) :
    Below (pcodeRight m sa) (pcodeRight m' sa) := by
  intro i hi
  rw [pcodeRight_getLsbD] at hi ⊢
  exact h _ hi

theorem signExtendMask_mono {m m' : U64} (h : Below m m') (sizein sizeout : ℕ) :
    Below (signExtendMask m sizein sizeout) (signExtendMask m' sizein sizeout) := by
  unfold signExtendMask
  simp only []
  split_ifs
  · exact h.and (Below.refl _)
  · refine Below.ushiftRight ?_ _
    intro i hi
    have hs := h.shiftLeft ((8 - min sizein 8) * 8 % 64)
    rw [BitVec.getLsbD_sshiftRight, Bool.and_eq_true] at hi ⊢
    refine ⟨hi.1, ?_⟩
    have hi := hi.2
    split_ifs at hi ⊢
    · exact hs _ hi
    · rw [BitVec.msb_eq_getLsbD_last] at hi ⊢
      exact hs _ hi

theorem leastsigbitSet_anti {m m' : U64} {l l' : ℕ} (h : Below m m')
    (hl : leastsigbitSet m = some l) (hl' : leastsigbitSet m' = some l') : l' ≤ l := by
  by_contra hlt
  have := h l (leastsigbitSet_eq_some.mp hl).1
  rw [(leastsigbitSet_eq_some.mp hl').2 l (not_le.mp hlt)] at this
  cases this

theorem mostsigbitSet_mono {m m' : U64} {k k' : ℕ} (h : Below m m')
    (hk : mostsigbitSet m = some k) (hk' : mostsigbitSet m' = some k') : k ≤ k' := by
  have := bitLen_mono h.toNat_le
  rw [mostsigbitSet_eq_some hk, mostsigbitSet_eq_some hk'] at this
  omega

theorem multMask_mono {size : ℕ} {v v' r r' : U64} (hv : Below v v') (hr : Below r r') :
    Below (multMask size v r) (multMask size v' r') := by
  by_cases h8 : 8 < size
  · unfold multMask
    rw [if_pos h8, if_pos h8]
    exact Below.refl _
  rw [not_lt] at h8
  by_cases hz : v = 0 ∨ r = 0
  · rw [multMask_zero h8 hz]
    exact Below.zero _
  rw [not_or] at hz
  have hne : ∀ {m m' : U64}, m ≠ 0 → Below m m' → m' ≠ 0 := fun hm h h0 =>
    hm ((h0 ▸ h).antisymm (Below.zero _))
  obtain ⟨l1, m1, hl1, hm1⟩ := exists_window hz.1
  obtain ⟨l2, m2, hl2, hm2⟩ := exists_window hz.2
  obtain ⟨l1', m1', hl1', hm1'⟩ := exists_window (hne hz.1 hv)
  obtain ⟨l2', m2', hl2', hm2'⟩ := exists_window (hne hz.2 hr)
  have h1 := leastsigbitSet_anti hv hl1 hl1'
  have h2 := leastsigbitSet_anti hr hl2 hl2'
  have h3 := mostsigbitSet_mono hv hm1 hm1'
  have h4 := mostsigbitSet_mono hr hm2 hm2'
  have h5 := leastsigbitSet_le_mostsigbitSet hl1 hm1
  have h6 := leastsigbitSet_le_mostsigbitSet hl2 hm2
  intro i hi
  rw [multMask_getLsbD h8 hm1 hm2 hl1 hl2] at hi
  rw [multMask_getLsbD h8 hm1' hm2' hl1' hl2']
  simp only [Bool.and_eq_true, decide_eq_true_eq] at hi ⊢
  refine ⟨⟨hi.1.1, by omega⟩, hi.2.trans_le ?_⟩
  unfold productTop
  split_ifs <;> omega

theorem orMask_mono {m m' n n' full : U64} (hm : Below m m') (hn : Below n n')
    (hfull : Below n full) :
    Below (if m ≠ full then m ||| n else m) (if m' ≠ full then m' ||| n' else m') := by
  split_ifs with h h' h'
  · exact hm.or hn
  · rw [not_not] at h'
    rw [h'] at hm ⊢
    exact Below.or_le hm hfull
  · exact hm.trans (Below.or_left _ _)
  · exact hm

theorem andMask_eq (m n : U64) : (if m ≠ 0 then m &&& n else m) = m &&& n := by
  split_ifs with h
  · rfl
  · rw [not_not.mp h]
    exact BitVec.zero_and.symm

theorem addMask_mono {m m' n n' full : U64} (hm : Below m m') (hn : Below n n') :
    Below (if m ≠ full then ((m ||| n) ||| (m ||| n) <<< 1) &&& full else m)
      (if m' ≠ full then ((m' ||| n') ||| (m' ||| n') <<< 1) &&& full else m') := by
  have hmn := hm.or hn
  split_ifs with h h' h'
  · exact (hmn.or (hmn.shiftLeft 1)).and (Below.refl _)
  · rw [not_not.mp h']
    exact Below.and_right _ _
  · intro i hi
    rw [not_not.mp h] at hm hi
    simp only [BitVec.getLsbD_and, BitVec.getLsbD_or, hm i hi, hi, Bool.true_or, Bool.and_self]
  · exact hm

/-- Every transfer is monotone, where INT_OR reads a mask in range and INT_REM one that is not 0. -/
theorem nzmaskTransfer_mono {code : OpCode} (ha : Raised a a') (hb : Raised b b')
    (hor : code = .intOr ∨ code = .intXor → Below b.nzm (calcMask so))
    (hrem : code = .intRem → b.nzm ≠ 0) :
    Below (nzmaskTransfer code cb so a b) (nzmaskTransfer code cb so a' b') := by
  cases code
  case copy | intZext => exact ha.below
  case intSext =>
    change Below (signExtendMask a.nzm a.size so) (signExtendMask a'.nzm a'.size so)
    rw [← ha.size]
    exact signExtendMask_mono ha.below _ _
  case intXor => exact orMask_mono ha.below hb.below (hor (.inr rfl))
  case intOr => exact orMask_mono ha.below hb.below (hor (.inl rfl))
  case intAnd =>
    change Below (if a.nzm ≠ 0 then a.nzm &&& b.nzm else a.nzm)
      (if a'.nzm ≠ 0 then a'.nzm &&& b'.nzm else a'.nzm)
    rw [andMask_eq, andMask_eq]
    exact ha.below.and hb.below
  case intAdd => exact addMask_mono ha.below hb.below
  case intLeft =>
    change Below (if (!b.constant) = true then _ else _) (if (!b'.constant) = true then _ else _)
    rw [← hb.constant, ← hb.constantValue]
    split_ifs
    · exact Below.refl _
    · exact (Below.pcodeLeft ha.below _).and (Below.refl _)
  case intRight =>
    change Below (if (!b.constant) = true then _ else _) (if (!b'.constant) = true then _ else _)
    rw [← hb.constant, ← hb.constantValue]
    split_ifs
    · exact Below.refl _
    · exact Below.pcodeRight ha.below _
  case intSright =>
    change Below (if (!b.constant || decide (8 < so)) = true then calcMask so else
        if a.nzm &&& (calcMask so ^^^ (calcMask so >>> 1)) = 0 then _ else _)
      (if (!b'.constant || decide (8 < so)) = true then calcMask so else
        if a'.nzm &&& (calcMask so ^^^ (calcMask so >>> 1)) = 0 then _ else _)
    rw [← hb.constant, ← hb.constantValue]
    have hsh := Below.pcodeRight ha.below (asU32 b.constantValue)
    split_ifs with hc hz hz' hz'
    · exact Below.refl _
    · exact hsh
    · exact hsh.trans (Below.or_left _ _)
    · have hsign := ha.below.and (Below.refl (calcMask so ^^^ (calcMask so >>> 1)))
      rw [hz'] at hsign
      exact absurd (hsign.antisymm (Below.zero _)) hz
    · exact hsh.or (Below.refl _)
  case intDiv =>
    change Below (divMask a b) (divMask a' b')
    intro i hi
    rw [divMask_getLsbD, decide_eq_true_eq] at hi ⊢
    have hlen := bitLen_mono ha.below.toNat_le
    rw [← hb.constant]
    by_cases hc : b.constant = true
    · rw [if_pos hc] at hi ⊢
      rw [← hb.const hc]
      omega
    · rw [if_neg hc] at hi ⊢
      omega
  case intRem =>
    have hb0 := hrem rfl
    have h1 : (1 : U64) ≤ b.nzm := by
      rw [BitVec.le_def]
      exact Nat.pos_of_ne_zero fun h0 => hb0 (BitVec.eq_of_toNat_eq h0)
    have hle := hb.below.toNat_le
    have h1' : (1 : U64) ≤ b'.nzm := by
      rw [BitVec.le_def] at h1 ⊢
      exact h1.trans hle
    change Below (coveringmask (b.nzm - 1)) (coveringmask (b'.nzm - 1))
    refine coveringmask_mono ?_
    rw [BitVec.toNat_sub_of_le h1, BitVec.toNat_sub_of_le h1']
    exact Nat.sub_le_sub_right hle _
  case popcount =>
    change Below (coveringmask (BitVec.ofNat 64 (bitCount 64 a.nzm.toNat)) &&& calcMask so)
      (coveringmask (BitVec.ofNat 64 (bitCount 64 a'.nzm.toNat)) &&& calcMask so)
    refine (coveringmask_mono ?_).and (Below.refl _)
    have h64 := bitCount_le 64 a.nzm.toNat
    have h64' := bitCount_le 64 a'.nzm.toNat
    rw [BitVec.toNat_ofNat, BitVec.toNat_ofNat, Nat.mod_eq_of_lt (by omega),
      Nat.mod_eq_of_lt (by omega)]
    exact bitCount_mono fun i _ hi => ha.below i hi
  case lzcount =>
    change Below (coveringmask (BitVec.ofNat 64 (a.size * 8)) &&& calcMask so)
      (coveringmask (BitVec.ofNat 64 (a'.size * 8)) &&& calcMask so)
    rw [ha.size]
    exact Below.refl _
  case subpiece =>
    change Below ((if a.size ≤ 8 then (if asU32 b.constantValue < 8 then
        pcodeRight a.nzm (8 * asU32 b.constantValue) else 0) else a.nzm) &&& calcMask so)
      ((if a'.size ≤ 8 then (if asU32 b'.constantValue < 8 then
        pcodeRight a'.nzm (8 * asU32 b'.constantValue) else 0) else a'.nzm) &&& calcMask so)
    rw [← ha.size, ← hb.constantValue]
    refine Below.and ?_ (Below.refl _)
    split_ifs
    · exact Below.pcodeRight ha.below _
    · exact Below.refl _
    · exact ha.below
  case piece =>
    change Below ((if b.size < 8 then pcodeLeft a.nzm (8 * b.size) else 0) ||| b.nzm)
      ((if b'.size < 8 then pcodeLeft a'.nzm (8 * b'.size) else 0) ||| b'.nzm)
    rw [← hb.size]
    refine Below.or ?_ hb.below
    split_ifs
    · exact Below.pcodeLeft ha.below _
    · exact Below.refl _
  case intMult => exact multMask_mono ha.below hb.below
  all_goals exact Below.refl _

end Mono

/-- The mask of a value that fits its size. -/
def InRange (m : U64) (size : ℕ) : Prop := Below m (calcMask size)

theorem inRange_iff {m : U64} {size : ℕ} : InRange m size ↔ ∀ i, m.getLsbD i = true → i < 8 * size := by
  constructor
  · intro h i hi
    have := h i hi
    rw [calcMask_getLsbD, Bool.and_eq_true, decide_eq_true_eq, decide_eq_true_eq] at this
    exact this.2
  · intro h i hi
    have h64 := BitVec.lt_of_getLsbD hi
    simp only [calcMask_getLsbD, h64, h i hi, decide_true, Bool.and_self]

theorem InRange.bitLen_le {m : U64} {size : ℕ} (h : InRange m size) : bitLen m.toNat ≤ 8 * size := by
  by_contra hlt
  obtain ⟨j, hj, hb⟩ := lt_bitLen_iff_testBit.mp (not_le.mp hlt)
  exact absurd (inRange_iff.mp h j hb) (by omega)

theorem inRange_and (m : U64) (size : ℕ) : InRange (m &&& calcMask size) size := Below.and_right _ _

theorem inRange_full (size : ℕ) : InRange (calcMask size) size := Below.refl _

section Range

variable {a b : Varnode} {so : ℕ} {cb : Bool}

theorem inRange_one (h : 0 < so) : InRange 1 so := inRange_iff.mpr fun i hi => by
  have : i = 0 := by
    by_contra hne
    rw [show (1 : U64) = BitVec.ofNat 64 1 from rfl, BitVec.getLsbD_ofNat,
      Nat.testBit_one_eq_true_iff_self_eq_zero.not.mpr hne |> Bool.eq_false_of_not_eq_true] at hi
    simp at hi
  omega

theorem orMask_inRange {m n : U64} (hm : InRange m so) (hn : InRange n so) (full : U64) :
    InRange (if m ≠ full then m ||| n else m) so := by
  split_ifs
  · exact Below.or_le hm hn
  · exact hm

theorem pcodeRight_inRange {m : U64} (hm : InRange m so) (sa : ℕ) :
    InRange (pcodeRight m sa) so := inRange_iff.mpr fun i hi => by
  rw [pcodeRight_getLsbD] at hi
  have := inRange_iff.mp hm _ hi
  omega

theorem coveringmask_inRange {m : U64} (h : bitLen m.toNat ≤ 8 * so) :
    InRange (coveringmask m) so := inRange_iff.mpr fun i hi => by
  rw [coveringmask_getLsbD, decide_eq_true_eq] at hi
  omega

theorem intSright_inRange (ha : InRange a.nzm so) :
    InRange (nzmaskTransfer .intSright cb so a b) so := by
  change InRange (if (!b.constant || decide (8 < so)) = true then calcMask so else
    if a.nzm &&& (calcMask so ^^^ (calcMask so >>> 1)) = 0 then
      pcodeRight a.nzm (asU32 b.constantValue)
    else pcodeRight a.nzm (asU32 b.constantValue) |||
      (pcodeRight (calcMask so) (asU32 b.constantValue) ^^^ calcMask so)) so
  split_ifs
  · exact inRange_full so
  · exact pcodeRight_inRange ha _
  · refine Below.or_le (pcodeRight_inRange ha _) fun i hi => ?_
    have hr := pcodeRight_inRange (inRange_full so) (asU32 b.constantValue) i
    rw [BitVec.getLsbD_xor] at hi
    cases hf : (calcMask so).getLsbD i
    · rw [hf, Bool.xor_false] at hi
      exact absurd (hr hi) (by rw [hf]; simp)
    · rfl

theorem intRem_inRange (hb : InRange b.nzm so) (h0 : b.nzm ≠ 0) :
    InRange (nzmaskTransfer .intRem cb so a b) so := by
  change InRange (coveringmask (b.nzm - 1)) so
  apply coveringmask_inRange
  have h1 : (1 : U64) ≤ b.nzm := by
    rw [BitVec.le_def]
    exact Nat.pos_of_ne_zero fun h => h0 (BitVec.eq_of_toNat_eq h)
  rw [BitVec.toNat_sub_of_le h1]
  exact (bitLen_mono (Nat.sub_le _ _)).trans hb.bitLen_le

theorem piece_inRange (ha : InRange a.nzm a.size) (hb : InRange b.nzm b.size)
    (hs : a.size + b.size = so) : InRange (nzmaskTransfer .piece cb so a b) so := by
  change InRange ((if b.size < 8 then pcodeLeft a.nzm (8 * b.size) else 0) ||| b.nzm) so
  refine Below.or_le ?_ (inRange_iff.mpr fun i hi => ?_)
  · split_ifs
    · refine inRange_iff.mpr fun i hi => ?_
      rw [pcodeLeft_getLsbD, Bool.and_eq_true, Bool.and_eq_true, decide_eq_true_eq,
        decide_eq_true_eq] at hi
      have := inRange_iff.mp ha _ hi.2
      omega
    · exact Below.zero _
  · have := inRange_iff.mp hb i hi
    omega

theorem multMask_inRange (m n : U64) : InRange (multMask so m n) so := by
  by_cases h8 : 8 < so
  · unfold multMask
    rw [if_pos h8]
    exact inRange_full so
  rw [not_lt] at h8
  by_cases hz : m = 0 ∨ n = 0
  · rw [multMask_zero h8 hz]
    exact Below.zero _
  rw [not_or] at hz
  obtain ⟨l1, m1, hl1, hm1⟩ := exists_window hz.1
  obtain ⟨l2, m2, hl2, hm2⟩ := exists_window hz.2
  refine inRange_iff.mpr fun i hi => ?_
  rw [multMask_getLsbD h8 hm1 hm2 hl1 hl2] at hi
  simp only [Bool.and_eq_true, decide_eq_true_eq] at hi
  exact hi.1.1

end Range

namespace Funcdata

variable {f : Funcdata} {nz : Masks} {op : OpId} {out : VarnodeId}

theorem withNzm_inVn_size {slot s : ℕ}
    (h : ((f.op op).inrefs.map fun v => (f.vn v).size)[slot]? = some s) :
    ((f.withNzm nz).inVn op slot).size = s := by
  rw [List.getElem?_map, Option.map_eq_some_iff] at h
  obtain ⟨v, hv, rfl⟩ := h
  rw [inVn_of_getElem? (f := f.withNzm nz) hv]
  rfl

theorem withNzm_inVn_inRange (h : ∀ v ∈ (f.op op).inrefs, InRange (nz v) (f.vn v).size) (slot : ℕ) :
    InRange ((f.withNzm nz).inVn op slot).nzm ((f.withNzm nz).inVn op slot).size := by
  unfold inVn
  rw [withNzm_op]
  cases hi : (f.op op).input slot with
  | none => exact Below.zero _
  | some v => exact h v (List.mem_of_getElem? hi)

/-- Masks stay within the size of their Varnode, an INT_REM by a mask of 0 apart. -/
theorem nzmaskOf_inRange (dom : Dominators) (clip : Bool) (hwf : f.OpWf op out)
    (hin : ∀ v ∈ (f.op op).inrefs, InRange (nz v) (f.vn v).size)
    (hrem : (f.op op).opcode = .intRem → ((f.withNzm nz).inVn op 1).nzm ≠ 0) :
    InRange (f.nzmaskOf dom nz op out clip) (f.vn out).size := by
  have ha := withNzm_inVn_inRange hin 0
  have hb := withNzm_inVn_inRange hin 1
  have hs := hwf.sizes
  have h0 := hwf.out_pos
  unfold nzmaskOf opNzmaskLocal
  rw [withNzm_op, withNzm_size]
  split_ifs with hphi
  · by_cases hn : (f.op op).numInputs = 0
    · unfold multiequalMask
      rw [withNzm_op, if_pos hn]
      exact inRange_full _
    · refine inRange_iff.mpr fun i hi => ?_
      have hmulti := @multiequalMask_getLsbD (f.withNzm nz) dom op clip (calcMask (f.vn out).size) hn i
      obtain ⟨slot, hslot, -, hb⟩ := hmulti.mp hi
      rw [hphi] at hs
      obtain ⟨v, hv⟩ : ∃ v, (f.op op).inrefs[slot]? = some v := ⟨_, List.getElem?_eq_getElem hslot⟩
      rw [inVn_of_getElem? (f := f.withNzm nz) hv] at hb
      have hmem := List.mem_of_getElem? hv
      rw [← hs _ (List.mem_map_of_mem hmem)]
      exact inRange_iff.mp (hin v hmem) i hb
  -- the sizes of the operands, opcode by opcode
  have hsz : ∀ {slot s : ℕ}, ((f.op op).inrefs.map fun v => (f.vn v).size)[slot]? = some s →
      ((f.withNzm nz).inVn op slot).size = s := withNzm_inVn_size
  have hbin : ∀ {s t : ℕ}, ((f.op op).inrefs.map fun v => (f.vn v).size) = [s, t] →
      ((f.withNzm nz).inVn op 0).size = s ∧ ((f.withNzm nz).inVn op 1).size = t :=
    fun he => ⟨hsz (by rw [he]; rfl), hsz (by rw [he]; rfl)⟩
  obtain ⟨code, hc⟩ : ∃ c, (f.op op).opcode = c := ⟨_, rfl⟩
  rw [hc] at hs hrem ⊢
  cases code
  case copy =>
    rw [hsz (by rw [hs]; rfl)] at ha
    exact ha
  case intZext =>
    obtain ⟨sa, he, hlt⟩ := hs
    rw [hsz (by rw [he]; rfl)] at ha
    exact inRange_iff.mpr fun i hi => (inRange_iff.mp ha i hi).trans (by omega)
  case intSext =>
    obtain ⟨sa, he, hlt⟩ := hs
    have hsa : ((f.withNzm nz).inVn op 0).size = sa := hsz (by rw [he]; rfl)
    have hpos : 0 < sa := by
      obtain ⟨v, hv⟩ : ∃ v, (f.op op).inrefs = [v] ∧ (f.vn v).size = sa := by
        obtain ⟨v, hv⟩ := List.length_eq_one_iff.mp (by
          rw [← List.length_map (f := fun v => (f.vn v).size), he]; rfl)
        exact ⟨v, hv, by simpa [hv] using he⟩
      exact hv.2 ▸ hwf.in_pos v (by simp [hv.1])
    refine inRange_iff.mpr fun i hi => ?_
    change (signExtendMask _ _ _).getLsbD i = true at hi
    rw [hsa, signExtendMask_getLsbD _ hpos hlt] at hi
    simp only [Bool.and_eq_true, decide_eq_true_eq] at hi
    exact hi.1.2
  case intXor | intOr =>
    obtain ⟨hsa, hsb⟩ := hbin hs
    rw [hsa] at ha
    rw [hsb] at hb
    exact orMask_inRange ha hb _
  case intAnd =>
    rw [(hbin hs).1] at ha
    change InRange (if _ ≠ 0 then _ else _) _
    rw [andMask_eq]
    exact (Below.and_left _ _).trans ha
  case intAdd =>
    rw [(hbin hs).1] at ha
    change InRange (if _ ≠ calcMask _ then _ else _) _
    split_ifs
    · exact inRange_and _ _
    · exact ha
  case intLeft =>
    change InRange (if _ then _ else _) _
    split_ifs
    · exact inRange_full _
    · exact inRange_and _ _
  case intRight =>
    obtain ⟨sb, he⟩ := hs
    rw [(hbin he).1] at ha
    change InRange (if _ then _ else _) _
    split_ifs
    · exact inRange_full _
    · exact pcodeRight_inRange ha _
  case intSright =>
    obtain ⟨sb, he⟩ := hs
    rw [(hbin he).1] at ha
    exact intSright_inRange ha
  case intDiv =>
    rw [(hbin hs).1] at ha
    refine inRange_iff.mpr fun i hi => ?_
    change (divMask _ _).getLsbD i = true at hi
    rw [divMask_getLsbD, decide_eq_true_eq] at hi
    have := ha.bitLen_le
    omega
  case intRem =>
    rw [(hbin hs).2] at hb
    exact intRem_inRange hb (hrem rfl)
  case popcount | lzcount | subpiece => exact inRange_and _ _
  case piece =>
    obtain ⟨sa, sb, he, hsum⟩ := hs
    obtain ⟨hsa, hsb⟩ := hbin he
    exact piece_inRange ha hb (by rw [hsa, hsb, hsum])
  case intMult => exact multMask_inRange _ _
  case multiequal => exact absurd hc hphi
  case call | callind | cpoolref =>
    change InRange (if _ then _ else _) _
    split_ifs
    · exact inRange_one h0
    · exact inRange_full _
  case intEqual | intNotequal | intSless | intSlessequal | intLess | intLessequal | intCarry
    | intScarry | intSborrow | boolNegate | boolXor | boolAnd | boolOr | floatEqual
    | floatNotequal | floatLess | floatLessequal | floatNan => exact inRange_one h0
  all_goals exact inRange_full _

end Funcdata
end Mosura
