import Mosura.EmuMemory
import Mosura.EmuArith

/-! What one step of the interpreter computes, on operands of any size and on their low eight bytes. -/

namespace Mosura
namespace Emu
namespace Machine

variable {checks : Bool} {host : Host} {m : Machine}

/-- The integer and boolean opcodes, COPY, SUBPIECE and LOAD, which write an output. -/
def computes : OpCode → Bool
  | .copy | .intZext | .intSext | .intNegate | .int2comp | .boolNegate | .popcount | .lzcount
  | .intEqual | .intNotequal | .intLess | .intLessequal | .intSless | .intSlessequal
  | .intCarry | .intScarry | .intSborrow | .intAdd | .intSub | .intXor | .intAnd | .intOr
  | .intLeft | .intRight | .intSright | .intMult | .intDiv | .intRem | .intSdiv | .intSrem
  | .boolXor | .boolAnd | .boolOr | .subpiece | .load => true
  | _ => false

/-- What an operation that writes an output comes to: a value computed from the machine as it is,
perhaps with a quotient kept, or a trap. -/
def Settles (m : Machine) (op : PcodeOp) (o : Outcome) : Prop :=
  (∃ m' r, o = .value m' r ∧ (m' = m ∨ ∃ q signed, m' = m.rememberQuotient op q signed)) ∨
    o = .flow m.fault.1 m.fault.2

theorem execute_settles {op : PcodeOp} {o : Outcome} (hc : computes op.opcode = true)
    (h : m.execute checks host op = some o) : m.Settles op o := by
  obtain ⟨code, out, ins, hout⟩ := op
  generalize hop : (⟨code, out, ins, hout⟩ : PcodeOp) = op
  have hvalue {r : U64} (h : some (Outcome.value m r) = some o) : m.Settles op o :=
    .inl ⟨m, r, (Option.some.inj h).symm, .inl rfl⟩
  have hquot {r q : U64} {signed : Bool}
      (h : some (Outcome.value (m.rememberQuotient op q signed) r) = some o) : m.Settles op o :=
    .inl ⟨_, r, (Option.some.inj h).symm, .inr ⟨q, signed, rfl⟩⟩
  have hfault (h : some (Outcome.flow m.fault.1 m.fault.2) = some o) : m.Settles op o :=
    .inr (Option.some.inj h).symm
  have hbind {α : Type} {x : Option α} {f : α → Option Outcome}
      (hf : ∀ a, f a = some o → m.Settles op o) (h : x.bind f = some o) : m.Settles op o := by
    obtain ⟨a, -, h⟩ := Option.bind_eq_some_iff.mp h
    exact hf a h
  unfold execute at h
  cases code <;> try (cases hc; done)
  case copy | intZext | intSext | intNegate | int2comp | boolNegate | popcount =>
    exact hbind (fun _ => hvalue) h
  case intDiv =>
    refine hbind (fun y h => ?_) h
    dsimp only at h
    split_ifs at h
    · exact hfault h
    · cases h
    · rw [hop] at h
      exact hbind (fun _ => hquot) h
  case intRem =>
    refine hbind (fun y h => ?_) h
    dsimp only at h
    split_ifs at h
    · exact hfault h
    · cases h
    · exact hbind (fun _ => hvalue) h
  case intSdiv =>
    refine hbind (fun y h => ?_) h
    split_ifs at h
    · exact hfault h
    · rw [hop] at h
      exact hbind (fun _ => hbind fun _ => hquot) h
  case intSrem =>
    refine hbind (fun y h => ?_) h
    split_ifs at h
    · exact hfault h
    · exact hbind (fun _ => hbind fun _ => hvalue) h
  case lzcount =>
    refine hbind (fun y h => ?_) h
    dsimp only at h
    split_ifs at h
    · exact hvalue h
  case subpiece =>
    refine hbind (fun lossy h => ?_) h
    dsimp only at h
    split_ifs at h
    · exact hfault h
    · refine hbind (fun _ => hbind fun _ h => ?_) h
      split_ifs at h
      exact hvalue h
  case load =>
    dsimp only at h
    split at h
    · exact hbind (fun _ => hbind fun _ => hvalue) h
    · exact hvalue h
  all_goals exact hbind (fun _ => hbind fun _ => hvalue) h

/-- The word the interpreter carries for the value of a location. -/
def word (m : Machine) (v : Varnode) : U64 := BitVec.ofNat 64 (m.valueAt v)

/-- The location an operation defines and the value p-code gives it. -/
def meaning (m : Machine) (op : PcodeOp) : Option (Varnode × ℕ) :=
  match op.opcode, op.ins, op.out with
  | .load, [.space spc, .var ptr], some out => some (out, m.valueAt ⟨spc, m.word ptr, out.size⟩)
  | .store, [.space spc, .var ptr, .var val], none => some (⟨spc, m.word ptr, val.size⟩, m.valueAt val)
  | code, [.var u], some out =>
    (evalUnary code u.size out.size (m.valueAt u)).map fun r => (out, r)
  | code, [.var u, .var u'], some out =>
    (evalBinary code u.size u'.size out.size (m.valueAt u) (m.valueAt u')).map fun r => (out, r)
  | _, _, _ => none

/-- The step leaves the value in the location, or says that it does not model the operation. -/
def Agrees (checks : Bool) (host : Host) (m : Machine) (op : PcodeOp) (loc : Varnode) (v : ℕ) :
    Prop :=
  ∃ m', m.step checks host op = some (.next, m') ∧
    (m'.valueAt loc = v ∨ m.unmodeled < m'.unmodeled)

section Output

variable {op : PcodeOp} {loc : Varnode} {v : ℕ}

/-- A value fits its location in the low eight bytes and in the bytes past them. -/
theorem value_split (h : v < 2 ^ (8 * loc.size)) (w old : ℕ) (hw : w < 2 ^ (8 * min loc.size 8))
    (hold : old < 2 ^ (8 * loc.size)) :
    w + 2 ^ (8 * min loc.size 8) * (old / 2 ^ (8 * min loc.size 8)) = v ↔
      w = v % 2 ^ 64 ∧ old / 2 ^ 64 = v / 2 ^ 64 := by
  by_cases h8 : loc.size ≤ 8
  · have hle : 2 ^ (8 * loc.size) ≤ 2 ^ 64 := Nat.pow_le_pow_right two_pos (by omega)
    rw [min_eq_left h8, Nat.div_eq_of_lt hold, Nat.div_eq_of_lt (h.trans_le hle),
      Nat.div_eq_of_lt (hold.trans_le hle), Nat.mod_eq_of_lt (h.trans_le hle)]
    exact ⟨fun h => ⟨h, rfl⟩, fun h => h.1⟩
  · rw [min_eq_right (by omega)] at hw ⊢
    have hdm := Nat.mod_add_div v (2 ^ 64)
    have hpos := Nat.two_pow_pos 64
    change w < 2 ^ 64 at hw
    change w + 2 ^ 64 * (old / 2 ^ 64) = v ↔ _
    constructor
    · rintro rfl
      rw [Nat.add_mul_mod_self_left, Nat.mod_eq_of_lt hw, Nat.add_mul_div_left _ _ hpos,
        Nat.div_eq_of_lt hw, Nat.zero_add]
      exact ⟨rfl, rfl⟩
    · rintro ⟨rfl, hhigh⟩
      rw [hhigh, hdm]

theorem computed_eq_some_iff (hout : op.out = some loc) {w : U64} :
    m.computed checks host op = some w ↔
      ∃ m' r, m.execute checks host op = some (.value m' r) ∧ mask r loc.size = w := by
  unfold computed
  rw [hout]
  constructor
  · intro h
    split at h
    · rename_i m' r out he hsome
      cases hsome
      exact ⟨m', r, he, Option.some.inj h⟩
    · cases h
  · rintro ⟨m', r, he, rfl⟩
    rw [he]

theorem mask_lt_min (r : U64) (h0 : 0 < loc.size) :
    (mask r loc.size).toNat < 2 ^ (8 * min loc.size 8) := by
  rw [mask_eq r h0]
  by_cases h8 : loc.size ≤ 8
  · rw [min_eq_left h8]
    exact Rules.mask_lt r loc.size
  · rw [min_eq_right (by omega)]
    exact (Rules.mask r loc.size).isLt

/-- Keeping a quotient changes no location. -/
theorem settled_same (checks : Bool) {m' : Machine} (hp : m.Placed loc)
    (h : m' = m ∨ ∃ q signed, m' = m.rememberQuotient op q signed) :
    m'.valueAt loc = m.valueAt loc ∧ m'.unmodeled = m.unmodeled ∧ m'.Placed loc ∧
      (m'.Fits checks (m'.decoded loc) ↔ m.Fits checks (m.decoded loc)) := by
  rcases h with rfl | ⟨q, signed, rfl⟩
  · exact ⟨rfl, rfl, hp, Iff.rfl⟩
  · exact ⟨rfl, rfl, ⟨hp.apart, hp.decoded⟩, Iff.rfl⟩

/-- The step agrees when the word it computes is the low eight bytes of the value, its output can be
addressed, and the bytes past the eighth already hold the value's. -/
theorem agrees_iff_computed (hc : computes op.opcode = true) (hout : op.out = some loc)
    (h0 : 0 < loc.size) (hp : m.Placed loc) (hv : v < 2 ^ (8 * loc.size)) :
    Agrees checks host m op loc v ↔
      (∃ w, m.computed checks host op = some w ∧ w.toNat = v % 2 ^ 64) ∧
        m.Fits checks (m.decoded loc) ∧ m.valueAt loc / 2 ^ 64 = v / 2 ^ 64 := by
  have hspace : loc.space ≠ "const" := op.out_space loc hout
  -- what the step leaves after a value was computed
  have hstored {m₁ m₂ : Machine} {r : U64} (hs : m₁.Stores loc (mask r loc.size) m₂)
      (hsame : m₁.valueAt loc = m.valueAt loc) (hp₁ : m₁.Placed loc) :
      m₂.valueAt loc = v ↔ (mask r loc.size).toNat = v % 2 ^ 64 ∧
        m.valueAt loc / 2 ^ 64 = v / 2 ^ 64 := by
    rw [hs.valueAt hspace hp₁, hsame, Nat.mod_eq_of_lt (mask_lt_min r h0)]
    exact value_split hv _ _ (mask_lt_min r h0) valueAt_lt
  constructor
  · rintro ⟨m', hstep, hpost⟩
    obtain ⟨o, ho, hstep⟩ := Option.bind_eq_some_iff.mp hstep
    rcases execute_settles hc ho with ⟨m₁, r, rfl, hm⟩ | rfl
    · obtain ⟨hsame, hcount, hp₁, hfits⟩ := settled_same checks hp hm
      dsimp only at hstep
      rw [hout] at hstep
      obtain ⟨m₂, hw, hstep⟩ := Option.bind_eq_some_iff.mp hstep
      have hf : m₁.Fits checks (m₁.decoded loc) := by
        by_contra hf
        rw [write_of_not_fits hspace h0 hf] at hw
        cases hw
      obtain ⟨m₂', hw', hs⟩ := write_of_fits hspace hf (mask r loc.size)
      obtain rfl := Option.some.inj (hw.symm.trans hw')
      have hsame' : m'.valueAt loc = m₂.valueAt loc ∧ m'.unmodeled = m₂.unmodeled := by
        cases hstep
        split_ifs <;> exact ⟨rfl, rfl⟩
      have hval := hpost.resolve_right (by rw [hsame'.2, hs.unmodeled, hcount]; omega)
      rw [hsame'.1, hstored hs hsame hp₁] at hval
      exact ⟨⟨_, (computed_eq_some_iff hout).mpr ⟨m₁, r, ho, rfl⟩, hval.1⟩, hfits.mp hf, hval.2⟩
    · exact absurd (congrArg Prod.fst (Option.some.inj hstep)) (by nofun)
  · rintro ⟨⟨w, hw, hlow⟩, hf, hhigh⟩
    obtain ⟨m₁, r, ho, rfl⟩ := (computed_eq_some_iff hout).mp hw
    rcases execute_settles hc ho with ⟨m₁', r', he, hm⟩ | he
    · cases he
      obtain ⟨hsame, -, hp₁, hfits⟩ := settled_same checks hp hm
      obtain ⟨m₂, hw, hs⟩ := write_of_fits hspace (hfits.mpr hf) (mask r loc.size)
      have hval := (hstored hs hsame hp₁).mpr ⟨hlow, hhigh⟩
      have hstep : m.step checks host op = some (.next,
          if ¬ (op.opcode = .intDiv ∨ op.opcode = .intSdiv) ∧ m₂.lastQuotient.any (·.1 = loc) then
            m₂.forgetQuotient else m₂) := by
        refine Option.bind_eq_some_iff.mpr ⟨_, ho, ?_⟩
        dsimp only
        rw [hout]
        exact Option.bind_eq_some_iff.mpr ⟨m₂, hw, rfl⟩
      refine ⟨_, hstep, .inl ?_⟩
      split_ifs <;> exact hval
    · cases he

end Output

section Words

variable {code : OpCode} {u u' loc : Varnode} {x y : U64}

theorem readArg_eq_some_iff (h0 : 0 < u.size) {w : U64} :
    m.readArg checks (.var u) = some w ↔ m.Fits checks u ∧ m.word u = w :=
  read_eq_some_iff h0

/-- An operand cut to eight bytes. -/
def cut (u : Varnode) (x : U64) : Varnode := ⟨"const", x, min u.size 8⟩

def cutOut (loc : Varnode) : Varnode := { loc with size := min loc.size 8 }

theorem mask_min (r : U64) (s : ℕ) : mask r (min s 8) = mask r s := by
  unfold mask
  by_cases h8 : s ≤ 8
  · rw [min_eq_left h8]
  · rw [min_eq_right (by omega), if_pos (.inl le_rfl), if_pos (.inl (by omega))]

theorem sext_min (r : U64) (s : ℕ) : sext r (min s 8) = sext r s := by
  unfold sext
  by_cases h8 : s ≤ 8
  · rw [min_eq_left h8]
  · rw [min_eq_right (by omega), if_pos (.inr le_rfl), if_pos (.inr (by omega))]

theorem mask_zero (s : ℕ) : mask 0#64 s = 0#64 := by
  unfold mask
  split_ifs
  · rfl
  · exact BitVec.zero_and

theorem mask_word (m : Machine) {u : Varnode} (h0 : 0 < u.size) : mask (m.word u) u.size = m.word u := by
  apply BitVec.eq_of_toNat_eq
  rw [mask_eq _ h0, Rules.mask_toNat]
  unfold word
  rw [BitVec.toNat_ofNat]
  exact Nat.mod_eq_of_lt ((Nat.mod_le _ _).trans_lt valueAt_lt)

/-- On an operand that can be read, an operation computes what it does on its low eight bytes. -/
theorem computed_cut_unary (hc : computes code = true) {a r : ℕ}
    (hu : evalUnary code u.size loc.size a = some r) (h0 : 0 < u.size) (hf : m.Fits checks u)
    (h : ∀ v, some loc = some v → v.space ≠ "const")
    (h' : ∀ v, some (cutOut loc) = some v → v.space ≠ "const") :
    m.computed checks host ⟨code, some loc, [.var u], h⟩ =
      m.computed checks host ⟨code, some (cutOut loc), [.var (cut u (m.word u))], h'⟩ := by
  have hr : m.readArg checks (.var u) = some (m.word u) := (readArg_eq_some_iff h0).mpr ⟨hf, rfl⟩
  cases code
  case copy | intZext | intNegate | int2comp | boolNegate | popcount | intSext =>
    simp [computed, execute, hr, sreadArg, cutOut, mask_min, sext_min, cut, mask_word m h0]
  case lzcount =>
    by_cases hlz : leadingZeros (m.word u) < 8 * (8 - min u.size 8)
    · cases checks <;>
        simp [computed, execute, hr, cutOut, PArg.asVar, cut, mask_min, mask_word m h0, hlz]
    · cases checks <;>
        simp [computed, execute, hr, cutOut, PArg.asVar, cut, mask_min, mask_word m h0, hlz]
  all_goals first | (cases hu; done) | cases hc

theorem computed_cut_binary (hc : computes code = true) (hsub : code ≠ .subpiece) {a b r : ℕ}
    (hu : evalBinary code u.size u'.size loc.size a b = some r) (h0 : 0 < u.size)
    (h0' : 0 < u'.size) (hf : m.Fits checks u) (hf' : m.Fits checks u')
    (h : ∀ v, some loc = some v → v.space ≠ "const")
    (h' : ∀ v, some (cutOut loc) = some v → v.space ≠ "const") :
    m.computed checks host ⟨code, some loc, [.var u, .var u'], h⟩ =
      m.computed checks host ⟨code, some (cutOut loc), [.var (cut u (m.word u)),
        .var (cut u' (m.word u'))], h'⟩ := by
  have hr : m.readArg checks (.var u) = some (m.word u) := (readArg_eq_some_iff h0).mpr ⟨hf, rfl⟩
  have hs : m.readArg checks (.var u') = some (m.word u') :=
    (readArg_eq_some_iff h0').mpr ⟨hf', rfl⟩
  cases code
  case subpiece => exact absurd rfl hsub
  case intEqual | intNotequal | intLess | intLessequal | intAdd | intSub | intMult | intAnd | intOr
      | intXor | boolAnd | boolOr | boolXor | intLeft | intRight =>
    simp [computed, execute, hr, hs, cutOut, mask_min, cut, mask_word m h0, mask_word m h0']
  case intSless | intSlessequal | intSright =>
    simp [computed, execute, hr, hs, cutOut, mask_min, cut, mask_word m h0, mask_word m h0', sreadArg,
      sext_min]
  case intCarry =>
    simp [computed, execute, hr, hs, cutOut, mask_min, cut, mask_word m h0, mask_word m h0',
      PArg.asVar]
  case intScarry | intSborrow =>
    simp [computed, execute, hr, hs, cutOut, mask_min, cut, mask_word m h0, mask_word m h0', sreadArg,
      sext_min, PArg.asVar]
  case intDiv | intRem =>
    by_cases hz : m.word u' = 0#64
    · simp [computed, execute, hs, cut, mask_min, mask_zero, hz]
    · by_cases hm : mask (m.word u') loc.size = 0#64
      · simp [computed, execute, hs, cutOut, cut, mask_min, mask_word m h0', hz, hm]
      · simp [computed, execute, hr, hs, cutOut, cut, mask_min, mask_word m h0, mask_word m h0', hz, hm]
  case intSdiv | intSrem =>
    by_cases hz : m.word u' = 0#64
    · simp [computed, execute, hs, cut, mask_min, mask_zero, hz]
    · simp [computed, execute, hr, hs, cutOut, cut, mask_min, mask_word m h0, mask_word m h0', hz,
        sreadArg, sext_min]
  all_goals first | (cases hu; done) | cases hc

end Words

section Narrow

variable {code : OpCode} {loc : Varnode} {x y : U64} {s s' : ℕ}
  (h : ∀ v, some loc = some v → v.space ≠ "const")

/-- An operation on two constants. -/
def onConsts (code : OpCode) (loc : Varnode) (h : ∀ v, some loc = some v → v.space ≠ "const")
    (x : U64) (s : ℕ) (y : U64) (s' : ℕ) : PcodeOp :=
  ⟨code, some loc, [.var ⟨"const", x, s⟩, .var ⟨"const", y, s'⟩], h⟩

theorem mask_of_lt (h0 : 0 < s) (hx : x.toNat < 2 ^ (8 * s)) : mask x s = x := by
  apply BitVec.eq_of_toNat_eq
  rw [mask_toNat x h0, Nat.mod_eq_of_lt hx]

theorem readArg_word (checks : Bool) (m : Machine) (h0 : 0 < s) (hx : x.toNat < 2 ^ (8 * s)) :
    m.readArg checks (.var ⟨"const", x, s⟩) = some x := by
  rw [readArg_const, mask_of_lt h0 hx]

theorem mask_ofBool (b : Bool) (h0 : 0 < s) : mask (ofBool b) s = BitVec.ofNat 64 b.toNat := by
  apply BitVec.eq_of_toNat_eq
  rw [mask_eq _ h0, BitVec.toNat_ofNat, Nat.mod_eq_of_lt (b.toNat_lt.trans (by norm_num))]
  exact Rules.mask_ofBool b h0

/-- A word masked to at most eight bytes, by its low bytes. -/
theorem mask_eq_ofNat (r : U64) (h0 : 0 < s) :
    mask r s = BitVec.ofNat 64 (r.setWidth (8 * s)).toNat := by
  apply BitVec.eq_of_toNat_eq
  have hle := Nat.mod_le r.toNat (2 ^ (8 * s))
  rw [mask_toNat r h0, BitVec.toNat_setWidth, BitVec.toNat_ofNat,
    Nat.mod_eq_of_lt (hle.trans_lt r.isLt)]

section Carry

variable (h0 : 0 < s) (h8 : s ≤ 8) (hout : 0 < loc.size) (hx : x.toNat < 2 ^ (8 * s))
  (hy : y.toNat < 2 ^ (8 * s))

include h0 h8 hout hx hy

theorem computed_intCarry : m.computed checks host (onConsts .intCarry loc h x s y s) =
    (evalBinary .intCarry s s loc.size x.toNat y.toNat).map (BitVec.ofNat 64) := by
  have hr := readArg_word checks m h0 hx
  have hs := readArg_word checks m h0 hy
  simp only [onConsts, computed, execute, List.getElem?_cons_zero, List.getElem?_cons_succ,
    Option.elim_some, hr, hs, Option.bind_eq_bind, Option.bind_some]
  change some (mask (ofBool (decide (mask (BitVec.allOnes 64) s < mask x s + mask y s) ||
    decide (2 ^ 64 ≤ (mask x s).toNat + (mask y s).toNat))) loc.size) = some (BitVec.ofNat 64 _)
  rw [mask_of_lt h0 hx, mask_of_lt h0 hy, carry_word h8 h0 hx hy, mask_ofBool _ hout]

theorem computed_intScarry : m.computed checks host (onConsts .intScarry loc h x s y s) =
    (evalBinary .intScarry s s loc.size x.toNat y.toNat).map (BitVec.ofNat 64) := by
  have hr := readArg_word checks m h0 hx
  have hs := readArg_word checks m h0 hy
  simp only [onConsts, computed, execute, sreadArg, List.getElem?_cons_zero,
    List.getElem?_cons_succ, Option.elim_some, hr, hs, Option.bind_eq_bind, Option.bind_some]
  change some (mask (ofBool (((sext x s).slt 0 == (sext y s).slt 0) &&
    ((sext x s).slt 0 != (sext (mask (sext x s + sext y s) s) s).slt 0))) loc.size) =
    some (BitVec.ofNat 64 (BitVec.saddOverflow (BitVec.ofNat (8 * s) x.toNat)
      (BitVec.ofNat (8 * s) y.toNat)).toNat)
  rw [scarry_word h0 h8, mask_ofBool _ hout, BitVec.ofNat_toNat, BitVec.ofNat_toNat]

theorem computed_intSborrow : m.computed checks host (onConsts .intSborrow loc h x s y s) =
    (evalBinary .intSborrow s s loc.size x.toNat y.toNat).map (BitVec.ofNat 64) := by
  have hr := readArg_word checks m h0 hx
  have hs := readArg_word checks m h0 hy
  simp only [onConsts, computed, execute, sreadArg, List.getElem?_cons_zero,
    List.getElem?_cons_succ, Option.elim_some, hr, hs, Option.bind_eq_bind, Option.bind_some]
  change some (mask (ofBool (((sext x s).slt 0 != (sext y s).slt 0) &&
    ((sext x s).slt 0 != (sext (mask (sext x s - sext y s) s) s).slt 0))) loc.size) =
    some (BitVec.ofNat 64 (BitVec.ssubOverflow (BitVec.ofNat (8 * s) x.toNat)
      (BitVec.ofNat (8 * s) y.toNat)).toNat)
  rw [sborrow_word h0 h8, mask_ofBool _ hout, BitVec.ofNat_toNat, BitVec.ofNat_toNat]

end Carry

section Divide

variable (h0 : 0 < s) (hs : loc.size = s) (hx : x.toNat < 2 ^ (8 * s)) (hy : y.toNat < 2 ^ (8 * s))

include h0 hs hx hy

theorem computed_intDiv : m.computed checks host (onConsts .intDiv loc h x s y s) =
    (evalBinary .intDiv s s s x.toNat y.toNat).map (BitVec.ofNat 64) := by
  have hr := readArg_word checks m h0 hx
  have hr' := readArg_word checks m h0 hy
  simp only [onConsts, computed, execute, List.getElem?_cons_zero, List.getElem?_cons_succ,
    Option.elim_some, hr, hr', Option.bind_eq_bind, Option.bind_some, hs, mask_of_lt h0 hx,
    mask_of_lt h0 hy]
  by_cases hz : y = 0
  · rw [if_pos hz, hz]
    rfl
  · have hq : (x.udiv y).toNat < 2 ^ (8 * s) := (Nat.div_le_self _ _).trans_lt hx
    have hy0 : ¬ y.toNat = 0 := fun h => hz (BitVec.eq_of_toNat_eq h)
    rw [if_neg hz, if_neg hz]
    change some (mask (x.udiv y) loc.size) = (if y.toNat = 0 then none else some _).map _
    rw [if_neg hy0, hs, mask_of_lt h0 hq]
    exact congrArg some (BitVec.ofNat_toNat 64 _ |>.trans (BitVec.setWidth_eq _)).symm

theorem computed_intRem : m.computed checks host (onConsts .intRem loc h x s y s) =
    (evalBinary .intRem s s s x.toNat y.toNat).map (BitVec.ofNat 64) := by
  have hr := readArg_word checks m h0 hx
  have hr' := readArg_word checks m h0 hy
  simp only [onConsts, computed, execute, List.getElem?_cons_zero, List.getElem?_cons_succ,
    Option.elim_some, hr, hr', Option.bind_eq_bind, Option.bind_some, hs, mask_of_lt h0 hx,
    mask_of_lt h0 hy]
  by_cases hz : y = 0
  · rw [if_pos hz, hz]
    rfl
  · have hq : (x.umod y).toNat < 2 ^ (8 * s) := (Nat.mod_le _ _).trans_lt hx
    have hy0 : ¬ y.toNat = 0 := fun h => hz (BitVec.eq_of_toNat_eq h)
    rw [if_neg hz, if_neg hz]
    change some (mask (x.umod y) loc.size) = (if y.toNat = 0 then none else some _).map _
    rw [if_neg hy0, hs, mask_of_lt h0 hq]
    exact congrArg some (BitVec.ofNat_toNat 64 _ |>.trans (BitVec.setWidth_eq _)).symm

theorem computed_intSdiv (h8 : s ≤ 8) : m.computed checks host (onConsts .intSdiv loc h x s y s) =
    (evalBinary .intSdiv s s s x.toNat y.toNat).map (BitVec.ofNat 64) := by
  have hr := readArg_word checks m h0 hx
  have hr' := readArg_word checks m h0 hy
  simp only [onConsts, computed, execute, sreadArg, List.getElem?_cons_zero,
    List.getElem?_cons_succ, Option.elim_some, hr, hr', Option.bind_eq_bind, Option.bind_some]
  by_cases hz : y = 0
  · rw [if_pos hz, hz]
    rfl
  · have hy0 : ¬ y.toNat = 0 := fun h => hz (BitVec.eq_of_toNat_eq h)
    rw [if_neg hz]
    have hval : evalBinary .intSdiv s s s x.toNat y.toNat =
        some ((x.setWidth (8 * s)).sdiv (y.setWidth (8 * s))).toNat := by
      rw [← BitVec.ofNat_toNat _ x, ← BitVec.ofNat_toNat _ y]
      exact if_neg hy0
    rw [hval]
    change some (mask ((sext x s).sdiv (sext y s)) loc.size) = some (BitVec.ofNat 64 _)
    rw [hs, mask_eq_ofNat _ h0, sdiv_word h0 h8]

theorem computed_intSrem (h8 : s ≤ 8) : m.computed checks host (onConsts .intSrem loc h x s y s) =
    (evalBinary .intSrem s s s x.toNat y.toNat).map (BitVec.ofNat 64) := by
  have hr := readArg_word checks m h0 hx
  have hr' := readArg_word checks m h0 hy
  simp only [onConsts, computed, execute, sreadArg, List.getElem?_cons_zero,
    List.getElem?_cons_succ, Option.elim_some, hr, hr', Option.bind_eq_bind, Option.bind_some]
  by_cases hz : y = 0
  · rw [if_pos hz, hz]
    rfl
  · have hy0 : ¬ y.toNat = 0 := fun h => hz (BitVec.eq_of_toNat_eq h)
    rw [if_neg hz]
    have hval : evalBinary .intSrem s s s x.toNat y.toNat =
        some ((x.setWidth (8 * s)).srem (y.setWidth (8 * s))).toNat := by
      rw [← BitVec.ofNat_toNat _ x, ← BitVec.ofNat_toNat _ y]
      exact if_neg hy0
    rw [hval]
    change some (mask ((sext x s).srem (sext y s)) loc.size) = some (BitVec.ofNat 64 _)
    rw [hs, mask_eq_ofNat _ h0, srem_word h0 h8]

end Divide

/-- The opcodes whose second operand is an amount. -/
def shifts : OpCode → Bool
  | .intLeft | .intRight | .intSright | .subpiece => true
  | _ => false

/-- No floating-point constant is folded here. -/
def noFold : OpCode → List (U64 × ℕ) → ℕ → U64 := fun _ _ _ => 0

/-- On a word of at most eight bytes an operation computes its p-code value. -/
theorem computed_narrow_unary (hc : computes code = true) (hs : sizesOk code [s] loc.size)
    (h0 : 0 < s) (h8 : s ≤ 8) (hout : 0 < loc.size) (hout8 : loc.size ≤ 8)
    (hx : x.toNat < 2 ^ (8 * s)) {r : ℕ} (hr : evalUnary code s loc.size x.toNat = some r) :
    ∃ w, m.computed checks host ⟨code, some loc, [.var ⟨"const", x, s⟩], h⟩ = some w ∧ w.toNat = r := by
  have hmask : Rules.mask x s = x := by rw [← mask_eq x h0, mask_of_lt h0 hx]
  by_cases hexact : Rules.foldsExactly code = true
  · have hr' : evalUnary code s loc.size (Rules.mask x s).toNat = some r := by rw [hmask, hr]
    obtain ⟨w, hw, hwr⟩ : ∃ w, Rules.evalConst noFold code [(x, s)] loc.size = some w ∧ w.toNat = r :=
      Rules.evalConst_unary hexact hs h0 h8 hout hout8 hr'
    exact ⟨w, computed_unary hout h0 h8 hexact noFold w
      (by rw [hr']; exact Option.some_ne_none r) hw h, hwr⟩
  · cases code
    case lzcount =>
      cases hr
      rw [← congrArg BitVec.toNat hmask]
      exact computed_lzcount h hout h0 h8
    all_goals first | (cases hr; done) | (cases hc; done) | exact absurd rfl hexact

/-- The carries and the divisions, on words of at most eight bytes. -/
theorem computed_rest (hc : computes code = true) (hload : code ≠ .load) (hshift : shifts code = false)
    (hexact : ¬ Rules.foldsExactly code = true) (hs : sizesOk code [s, s'] loc.size)
    (h0 : 0 < s) (h8 : s ≤ 8) (hout : 0 < loc.size) (hx : x.toNat < 2 ^ (8 * s))
    (hy : y.toNat < 2 ^ (8 * s')) :
    m.computed checks host (onConsts code loc h x s y s') =
      (evalBinary code s s' loc.size x.toNat y.toNat).map (BitVec.ofNat 64) := by
  have hequal {t : ℕ} (he : [s, s'] = [t, t]) : s' = s := by
    obtain ⟨rfl, he⟩ := List.cons.inj he
    exact (List.cons.inj he).1
  cases code
  case intCarry =>
    obtain ⟨⟨_, he⟩, -⟩ := hs
    obtain rfl := hequal he
    exact computed_intCarry h h0 h8 hout hx hy
  case intScarry =>
    obtain ⟨⟨_, he⟩, -⟩ := hs
    obtain rfl := hequal he
    exact computed_intScarry h h0 h8 hout hx hy
  case intSborrow =>
    obtain ⟨⟨_, he⟩, -⟩ := hs
    obtain rfl := hequal he
    exact computed_intSborrow h h0 h8 hout hx hy
  case intDiv =>
    obtain rfl := hequal hs
    obtain rfl := (List.cons.inj hs).1
    exact computed_intDiv h h0 rfl hx hy
  case intRem =>
    obtain rfl := hequal hs
    obtain rfl := (List.cons.inj hs).1
    exact computed_intRem h h0 rfl hx hy
  case intSdiv =>
    obtain rfl := hequal hs
    obtain rfl := (List.cons.inj hs).1
    exact computed_intSdiv h h0 rfl hx hy h8
  case intSrem =>
    obtain rfl := hequal hs
    obtain rfl := (List.cons.inj hs).1
    exact computed_intSrem h h0 rfl hx hy h8
  case lzcount =>
    obtain ⟨_, he⟩ := hs
    exact absurd (List.cons.inj he).2 (List.cons_ne_nil _ _)
  case load => exact absurd rfl hload
  all_goals first | (cases hc; done) | (cases hshift; done) | exact absurd rfl hexact

/-- On two words of at most eight bytes an operation other than a shift computes its p-code value. -/
theorem computed_narrow_binary (hc : computes code = true) (hload : code ≠ .load)
    (hshift : shifts code = false)
    (hs : sizesOk code [s, s'] loc.size) (h0 : 0 < s) (h8 : s ≤ 8) (h0' : 0 < s') (h8' : s' ≤ 8)
    (hout : 0 < loc.size) (hout8 : loc.size ≤ 8) (hx : x.toNat < 2 ^ (8 * s))
    (hy : y.toNat < 2 ^ (8 * s')) {V : ℕ}
    (hdef : Rules.foldsExactly code = true → evalBinary code s s' loc.size x.toNat y.toNat ≠ none) :
    (∃ w, m.computed checks host (onConsts code loc h x s y s') = some w ∧ w.toNat = V) ↔
      evalBinary code s s' loc.size x.toNat y.toNat = some V := by
  have hmask : Rules.mask x s = x := by rw [← mask_eq x h0, mask_of_lt h0 hx]
  have hmask' : Rules.mask y s' = y := by rw [← mask_eq y h0', mask_of_lt h0' hy]
  by_cases hexact : Rules.foldsExactly code = true
  · obtain ⟨r, hr⟩ := Option.ne_none_iff_exists'.mp (hdef hexact)
    have hr' : evalBinary code s s' loc.size (Rules.mask x s).toNat (Rules.mask y s').toNat =
        some r := by rw [hmask, hmask', hr]
    obtain ⟨w, hw, hwr⟩ : ∃ w, Rules.evalConst noFold code [(x, s), (y, s')] loc.size = some w ∧
        w.toNat = r := Rules.evalConst_binary hexact hs h0 h8 hout hout8 hr'
    have hcomp : m.computed checks host (onConsts code loc h x s y s') = some w :=
      computed_binary hout h0 h8 h0' h8' hexact noFold w (by rw [hr']; exact Option.some_ne_none r) hw h
    rw [hr, hcomp]
    constructor
    · rintro ⟨w', he, rfl⟩
      rw [← Option.some.inj he, hwr]
    · intro he
      exact ⟨w, rfl, hwr.trans (Option.some.inj he)⟩
  · -- the carries and the divisions
    have hmap (hcomp : m.computed checks host (onConsts code loc h x s y s') =
        (evalBinary code s s' loc.size x.toNat y.toNat).map (BitVec.ofNat 64)) :
        (∃ w, m.computed checks host (onConsts code loc h x s y s') = some w ∧ w.toNat = V) ↔
          evalBinary code s s' loc.size x.toNat y.toNat = some V := by
      rw [hcomp]
      cases hr : evalBinary code s s' loc.size x.toNat y.toNat with
      | none => exact ⟨fun ⟨_, he, _⟩ => absurd he (by nofun), fun he => absurd he (by nofun)⟩
      | some r =>
        have hlt := evalBinary_lt hs hout hx hy hr
        have hle : 2 ^ (8 * loc.size) ≤ 2 ^ 64 := Nat.pow_le_pow_right two_pos (by omega)
        have hword : (BitVec.ofNat 64 r).toNat = r := by
          rw [BitVec.toNat_ofNat, Nat.mod_eq_of_lt (hlt.trans_le hle)]
        constructor
        · rintro ⟨w, he, rfl⟩
          rw [← Option.some.inj he, hword]
        · intro he
          exact ⟨_, rfl, hword.trans (Option.some.inj he)⟩
    apply hmap
    exact computed_rest h hc hload hshift hexact hs h0 h8 hout hx hy

end Narrow

end Machine
end Emu
end Mosura
