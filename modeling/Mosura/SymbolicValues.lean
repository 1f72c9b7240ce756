import Mosura.SymbolicImage
import Mosura.EmuArith

/-! One operation of an execution, and when the constant the propagator gives it is its value. -/

namespace Mosura
namespace Symbolic

open Lib

/-- The locations the operation reads. -/
def reads (op : Emu.PcodeOp) : List Emu.Varnode := op.ins.filterMap Emu.PArg.asVar

theorem mem_reads {op : Emu.PcodeOp} {v : Emu.Varnode} {i : ℕ} (h : argVar op i = some v) :
    v ∈ reads op := by
  obtain ⟨arg, harg, hv⟩ := Option.bind_eq_some_iff.mp h
  exact List.mem_filterMap.mpr ⟨arg, List.mem_of_getElem? harg, hv⟩

theorem reads_of_argVar_zero {op : Emu.PcodeOp} {v : Emu.Varnode} (h : argVar op 0 = some v) :
    ∃ rest, reads op = v :: rest := by
  unfold argVar at h
  unfold reads
  cases hins : op.ins with
  | nil => rw [hins] at h; cases h
  | cons arg rest =>
    rw [hins] at h
    exact ⟨rest.filterMap Emu.PArg.asVar, List.filterMap_cons_some h⟩

theorem reads_of_argVar {op : Emu.PcodeOp} {v u : Emu.Varnode} (h : argVar op 0 = some v)
    (h' : argVar op 1 = some u) : ∃ rest, reads op = v :: u :: rest := by
  unfold argVar at h h'
  unfold reads
  cases hins : op.ins with
  | nil => rw [hins] at h; cases h
  | cons arg rest =>
    rw [hins] at h h'
    cases rest with
    | nil => cases h'
    | cons arg' rest =>
      have hfirst : arg.asVar = some v := h
      have hsecond : arg'.asVar = some u := h'
      refine ⟨rest.filterMap Emu.PArg.asVar, ?_⟩
      rw [List.filterMap_cons_some hfirst, List.filterMap_cons_some hsecond]

section Execution

variable (bigEndian : Bool) (σ : Bytes)

def operandsOf (op : Emu.PcodeOp) : Operands :=
  (reads op).map fun u => (u.size, valueAt bigEndian σ u)

/-- What p-code makes of the operands at `out`: nothing where their sizes are not those the
operation takes, and any value where only the processor knows it. -/
def Computes (op : Emu.PcodeOp) (out : Emu.Varnode) (v : ℕ) : Prop :=
  if op.opcode.hasSemantics then
    sizesOk op.opcode ((reads op).map Emu.Varnode.size) out.size ∧ (∀ u ∈ reads op, 0 < u.size) ∧
      evalPcode op.opcode (operandsOf bigEndian σ op) out.size = some v
  else if op.opcode = .load then
    ∃ spc ptr, op.ins = [.space spc, .var ptr] ∧
      v = valueAt bigEndian σ ⟨spc, BitVec.ofNat 64 (valueAt bigEndian σ ptr), out.size⟩
  else True

/-- The cell is one of the location. -/
def Covers (v : Emu.Varnode) (space : String) (a : U64) : Prop :=
  v.space = space ∧ ∃ i < v.size, place bigEndian v i = a

/-- The cells the operation may change: its output, where it stores, and anything in a call. -/
def MayChange (op : Emu.PcodeOp) (space : String) (a : U64) : Prop :=
  (∃ out, op.out = some out ∧ Covers bigEndian out space a) ∨
  (op.opcode = .store ∧ ∃ spc ptr val, op.ins = [.space spc, .var ptr, .var val] ∧
    Covers bigEndian ⟨spc, BitVec.ofNat 64 (valueAt bigEndian σ ptr), val.size⟩ space a) ∨
  op.opcode = .call ∨ op.opcode = .callind ∨ op.opcode = .callother

/-- The operation takes the memory from `σ` to `σ'`. -/
structure Executes (op : Emu.PcodeOp) (σ' : Bytes) : Prop where
  output : ∀ out, op.out = some out → Computes bigEndian σ op out (valueAt bigEndian σ' out)
  stored : ∀ spc ptr val, op.opcode = .store → op.ins = [.space spc, .var ptr, .var val] →
    valueAt bigEndian σ' ⟨spc, BitVec.ofNat 64 (valueAt bigEndian σ ptr), val.size⟩ =
      valueAt bigEndian σ val
  frame : ∀ space a, ¬ MayChange bigEndian σ op space a → σ' space a = σ space a

/-- Where control goes: a `const` target is a displacement in p-code operations. -/
def flowOf (op : Emu.PcodeOp) : Emu.Flow :=
  match op.opcode with
  | .branch => Emu.Machine.branchTo op.ins.head?
  | .cbranch =>
    match argVar op 1 with
    | some v => if valueAt bigEndian σ v ≠ 0 then Emu.Machine.branchTo op.ins.head? else .next
    | none => .fault
  | .branchind =>
    match argVar op 0 with
    | some v => .jump (BitVec.ofNat 64 (valueAt bigEndian σ v))
    | none => .fault
  | .return => .stop
  | _ => .next

end Execution

/-- The constants of the context that the operation uses whole fit what it takes of them: a pointer
into `ram` and the target of an indirect flow fit their location, a widened word has no bits above
its width (INT_ZEXT) or no sign the widening would have to repeat past the eighth byte (INT_SEXT),
and a sum or difference wider than eight bytes does not leave them. -/
structure Fits (vctx : VarnodeContext) (op : Emu.PcodeOp) : Prop where
  pointer : op.opcode = .load ∨ op.opcode = .store → ∀ ptr c, argVar op 1 = some ptr →
    vctx.get ptr = .const c →
    op.ins[0]? = some (.space "ram") ∧ c.toNat < 2 ^ (8 * ptr.size)
  target : op.opcode = .callind ∨ op.opcode = .branchind → ∀ t c, argVar op 0 = some t →
    t.space ≠ "ram" → vctx.get t = .const c → c.toNat < 2 ^ (8 * t.size)
  zext : op.opcode = .intZext → ∀ v c, argVar op 0 = some v → vctx.get v = .const c →
    c.toNat < 2 ^ (8 * v.size)
  sext : op.opcode = .intSext → ∀ v c out, argVar op 0 = some v → vctx.get v = .const c →
    op.out = some out → v.size ≤ 8 → 8 < out.size →
    c.toNat % 2 ^ (8 * v.size) < 2 ^ (8 * v.size - 1)
  add : op.opcode = .intAdd → ∀ v u x y out, argVar op 0 = some v → argVar op 1 = some u →
    vctx.get v = .const x → vctx.get u = .const y → op.out = some out → 8 < out.size →
    x.toNat + y.toNat < 2 ^ 64
  sub : op.opcode = .intSub → ∀ v u x y out, argVar op 0 = some v → argVar op 1 = some u →
    vctx.get v = .const x → vctx.get u = .const y → op.out = some out → 8 < out.size → y ≤ x

section Values

variable {p : Program} {ram : SpaceId} {vctx : VarnodeContext} {op : Emu.PcodeOp}
  {out : Emu.Varnode} {σ : Bytes} {v : ℕ} {c : U64}

/-- Every constant of the context that the operation reads is there. -/
def ReadsHold (p : Program) (vctx : VarnodeContext) (σ : Bytes) (op : Emu.PcodeOp) : Prop :=
  ∀ u ∈ reads op, ∀ c, vctx.get u = .const c →
    valueAt p.bigEndian σ u = c.toNat % 2 ^ (8 * u.size)

theorem computes_of_semantics (hs : op.opcode.hasSemantics = true)
    (h : Computes p.bigEndian σ op out v) :
    sizesOk op.opcode ((reads op).map Emu.Varnode.size) out.size ∧ (∀ u ∈ reads op, 0 < u.size) ∧
      evalPcode op.opcode (operandsOf p.bigEndian σ op) out.size = some v := by
  unfold Computes at h
  rwa [if_pos hs] at h

/-- One operand: its size and value decide the value of the operation. -/
theorem computes_unary {u : Emu.Varnode} (hs : op.opcode.hasSemantics = true)
    (hu : argVar op 0 = some u) (hone : ∀ s ss, sizesOk op.opcode (s :: ss) out.size → ss = [])
    (h : Computes p.bigEndian σ op out v) :
    sizesOk op.opcode [u.size] out.size ∧ 0 < u.size ∧
      evalUnary op.opcode u.size out.size (valueAt p.bigEndian σ u) = some v := by
  obtain ⟨hsizes, hpos, hval⟩ := computes_of_semantics hs h
  obtain ⟨rest, hrest⟩ := reads_of_argVar_zero hu
  have hnil : rest = [] := List.map_eq_nil_iff.mp (hone _ _ (by rwa [hrest] at hsizes))
  rw [hnil] at hrest
  unfold operandsOf at hval
  rw [hrest] at hsizes hval
  exact ⟨hsizes, hpos u (hrest ▸ List.mem_singleton_self u), hval⟩

/-- Two operands of the size of the result. -/
theorem computes_binary {u u' : Emu.Varnode} (hs : op.opcode.hasSemantics = true)
    (hu : argVar op 0 = some u) (hu' : argVar op 1 = some u')
    (hsame : ∀ ss, sizesOk op.opcode ss out.size → ss = [out.size, out.size])
    (h : Computes p.bigEndian σ op out v) :
    u.size = out.size ∧ u'.size = out.size ∧ 0 < out.size ∧
      evalBinary op.opcode out.size out.size out.size (valueAt p.bigEndian σ u)
        (valueAt p.bigEndian σ u') = some v := by
  obtain ⟨hsizes, hpos, hval⟩ := computes_of_semantics hs h
  obtain ⟨rest, hrest⟩ := reads_of_argVar hu hu'
  have hall := hsame _ hsizes
  rw [hrest] at hall
  obtain ⟨hsu, htail⟩ := List.cons_eq_cons.mp hall
  obtain ⟨hsu', hnil⟩ := List.cons_eq_cons.mp htail
  unfold operandsOf at hval
  rw [hrest, List.map_eq_nil_iff.mp hnil] at hval
  rw [← hsu]
  refine ⟨rfl, hsu'.trans hsu.symm, hpos u (hrest ▸ List.mem_cons_self), ?_⟩
  have hval' : evalBinary op.opcode u.size u'.size out.size (valueAt p.bigEndian σ u)
      (valueAt p.bigEndian σ u') = some v := hval
  rwa [hsu', ← hsu] at hval'

theorem mask_wide {x : U64} {n : ℕ} (h : 8 < n) : Emu.mask x n = x := if_pos (.inl h.le)

theorem toNat_lt_wide (x : U64) {n : ℕ} (h : 8 < n) : x.toNat < 2 ^ (8 * n) :=
  x.isLt.trans_le (Nat.pow_le_pow_right two_pos (by omega))

/-- The word of at most eight bytes that `fold2` masks. -/
theorem mask_narrow (x : U64) {n : ℕ} (h0 : 0 < n) : (Emu.mask x n).toNat % 2 ^ (8 * n) =
    x.toNat % 2 ^ (8 * n) := by
  rw [Emu.mask_toNat x h0, Nat.mod_mod]

theorem add_sound {x y : U64} {n : ℕ} (h0 : 0 < n)
    (hwide : 8 < n → x.toNat + y.toNat < 2 ^ 64) :
    (x.toNat % 2 ^ (8 * n) + y.toNat % 2 ^ (8 * n)) % 2 ^ (8 * n) =
      (Emu.mask (x + y) n).toNat % 2 ^ (8 * n) := by
  rw [← Nat.add_mod, mask_narrow _ h0, BitVec.toNat_add]
  by_cases h8 : 8 < n
  · rw [Nat.mod_eq_of_lt (hwide h8)]
  · exact (Nat.mod_mod_of_dvd _ (pow_dvd_pow 2 (by omega))).symm

theorem sub_sound {x y : U64} {n : ℕ} (h0 : 0 < n) (hwide : 8 < n → y ≤ x) :
    (BitVec.ofNat (8 * n) (x.toNat % 2 ^ (8 * n)) - BitVec.ofNat (8 * n) (y.toNat % 2 ^ (8 * n))).toNat =
      (Emu.mask (x - y) n).toNat % 2 ^ (8 * n) := by
  have hx := Nat.mod_lt x.toNat (Nat.two_pow_pos (8 * n))
  have hy := Nat.mod_lt y.toNat (Nat.two_pow_pos (8 * n))
  rw [mask_narrow _ h0, BitVec.toNat_sub, BitVec.toNat_ofNat, BitVec.toNat_ofNat, Nat.mod_mod,
    Nat.mod_mod]
  by_cases h8 : 8 < n
  · have hle := hwide h8
    rw [BitVec.toNat_sub_of_le hle, Nat.mod_eq_of_lt (toNat_lt_wide x h8),
      Nat.mod_eq_of_lt (toNat_lt_wide y h8)]
    have hlex := BitVec.le_def.mp hle
    have hxw := toNat_lt_wide x h8
    rw [show 2 ^ (8 * n) - y.toNat + x.toNat = x.toNat - y.toNat + 2 ^ (8 * n) by omega,
      Nat.add_mod_right]
  · have hdvd : (2 : ℕ) ^ (8 * n) ∣ 2 ^ 64 := pow_dvd_pow 2 (by omega)
    rw [BitVec.toNat_sub, Nat.mod_mod_of_dvd _ hdvd]
    apply Nat.ModEq.add_right_cancel' (y.toNat % 2 ^ (8 * n))
    have hleft : 2 ^ (8 * n) - y.toNat % 2 ^ (8 * n) + x.toNat % 2 ^ (8 * n) + y.toNat % 2 ^ (8 * n) =
        x.toNat % 2 ^ (8 * n) + 2 ^ (8 * n) := by omega
    rw [hleft]
    have hyl := y.isLt
    have hright : 2 ^ 64 - y.toNat + x.toNat + y.toNat = x.toNat + 2 ^ 64 := by omega
    have hmod : (2 ^ 64 - y.toNat + x.toNat + y.toNat % 2 ^ (8 * n)) % 2 ^ (8 * n) =
        (x.toNat + 2 ^ 64) % 2 ^ (8 * n) := by
      rw [Nat.add_mod_mod, hright]
    change _ % _ = _ % _
    rw [hmod, Nat.add_mod_right, Nat.mod_mod]
    obtain ⟨k, hk⟩ := hdvd
    rw [hk, Nat.add_mul_mod_self_left]

/-- INT_SEXT of a word of at most eight bytes. -/
theorem sext_sound {x : U64} {s n : ℕ} (h0 : 0 < s) (h8 : s ≤ 8) (hn : s < n)
    (hwide : 8 < n → x.toNat % 2 ^ (8 * s) < 2 ^ (8 * s - 1)) :
    ((BitVec.ofNat (8 * s) (x.toNat % 2 ^ (8 * s))).signExtend (8 * n)).toNat =
      (Emu.mask (Emu.sext x s) n).toNat % 2 ^ (8 * n) := by
  have hlow : BitVec.ofNat (8 * s) (x.toNat % 2 ^ (8 * s)) = x.setWidth (8 * s) := by
    apply BitVec.eq_of_toNat_eq
    rw [BitVec.toNat_ofNat, Nat.mod_mod, BitVec.toNat_setWidth]
  rw [hlow, mask_narrow _ (by omega), Emu.sext_setWidth x h0 h8]
  by_cases hn8 : 8 < n
  · have hmsb : (x.setWidth (8 * s)).msb = false := by
      rw [BitVec.msb_eq_false_iff_two_mul_lt, BitVec.toNat_setWidth]
      have hlt := hwide hn8
      have hpow : 2 ^ (8 * s) = 2 * 2 ^ (8 * s - 1) := by
        rw [← Nat.pow_succ']
        congr 1
        omega
      omega
    have hlt : (x.setWidth (8 * s)).toNat < 2 ^ (8 * n) :=
      (BitVec.isLt _).trans_le (Nat.pow_le_pow_right two_pos (by omega))
    have hlt64 : (x.setWidth (8 * s)).toNat < 2 ^ 64 :=
      (BitVec.isLt _).trans_le (Nat.pow_le_pow_right two_pos (by omega))
    rw [BitVec.signExtend_eq_setWidth_of_msb_false hmsb,
      BitVec.signExtend_eq_setWidth_of_msb_false hmsb, BitVec.toNat_setWidth (8 * n),
      BitVec.toNat_setWidth 64, Nat.mod_eq_of_lt hlt64]
  · rw [← BitVec.toNat_setWidth]
    congr 1
    apply BitVec.eq_of_getLsbD_eq
    intro i hi
    have hi64 : i < 64 := by omega
    rw [BitVec.getLsbD_setWidth, BitVec.getLsbD_signExtend, BitVec.getLsbD_signExtend]
    simp only [hi, hi64, decide_true, Bool.true_and]

theorem get_ram_location {u : Emu.Varnode} (hu : u.space = "ram") (n : ℕ) (hn : u.size = n) :
    u = ⟨"ram", u.offset, n⟩ := by
  cases u
  cases hu
  cases hn
  rfl

/-- Both operands of a folded operation are constants. -/
theorem fold2_const {f : U64 → U64 → U64} {n : ℕ}
    (h : (match (argVar op 0).map vctx.get, (argVar op 1).map vctx.get with
      | some (.const x), some (.const y) => SymValue.const (Emu.mask (f x y) n)
      | _, _ => .unknown) = .const c) :
    ∃ u u' x y, argVar op 0 = some u ∧ argVar op 1 = some u' ∧ vctx.get u = .const x ∧
      vctx.get u' = .const y ∧ Emu.mask (f x y) n = c := by
  split at h
  case h_1 x y hx hy =>
    obtain ⟨u, hu, hgu⟩ := Option.map_eq_some_iff.mp hx
    obtain ⟨u', hu', hgu'⟩ := Option.map_eq_some_iff.mp hy
    exact ⟨u, u', x, y, hu, hu', hgu, hgu', SymValue.const.inj h⟩
  case h_2 => cases h

theorem copy_sound (hcode : op.opcode = .copy) (hσ : Image p ram σ) (hreads : ReadsHold p vctx σ op)
    (hv : Computes p.bigEndian σ op out v)
    (h : (argVar op 0).map (fun u => if u.space = "ram" then
      readMemConst p ram u.offset out.size else vctx.get u) = some (.const c)) :
    v = c.toNat % 2 ^ (8 * out.size) := by
  obtain ⟨u, hu, hval⟩ := Option.map_eq_some_iff.mp h
  obtain ⟨hsizes, -, heval⟩ := computes_unary (by rw [hcode]; rfl) hu
    (fun s ss hss => by rw [hcode] at hss; exact (List.cons_eq_cons.mp hss).2) hv
  rw [hcode] at hsizes heval
  have hsize : u.size = out.size := (List.cons_eq_cons.mp hsizes).1
  have hvu : valueAt p.bigEndian σ u = v := Option.some.inj heval
  split_ifs at hval with hram
  · have himage := readMemConst_sound hσ hval
    rw [← get_ram_location hram _ hsize] at himage
    have hlt : valueAt p.bigEndian σ u < 2 ^ (8 * u.size) := valueAt_lt
    rw [hsize] at hlt
    rw [← hvu, ← himage, Nat.mod_eq_of_lt hlt]
  · rw [← hvu, hreads u (mem_reads hu) c hval, hsize]

/-- A pointer that fits its width is the address that is read or written. -/
theorem pointer_sound (hreads : ReadsHold p vctx σ op) {ptr : Emu.Varnode} {addr : U64} {i : ℕ}
    (hptr : argVar op i = some ptr) (hget : vctx.get ptr = .const addr)
    (hfit : addr.toNat < 2 ^ (8 * ptr.size)) : valueAt p.bigEndian σ ptr = addr.toNat := by
  rw [hreads ptr (mem_reads hptr) addr hget, Nat.mod_eq_of_lt hfit]

theorem load_sound (hcode : op.opcode = .load) (hσ : Image p ram σ) (hreads : ReadsHold p vctx σ op)
    (hfits : Fits vctx op) (hv : Computes p.bigEndian σ op out v) {addr : U64}
    (hptr : (argVar op 1).map vctx.get = some (.const addr))
    (h : readMemConst p ram addr out.size = .const c) : v = c.toNat % 2 ^ (8 * out.size) := by
  obtain ⟨ptr, hptr, hget⟩ := Option.map_eq_some_iff.mp hptr
  obtain ⟨hspace, hfit⟩ := hfits.pointer (.inl hcode) ptr addr hptr hget
  unfold Computes at hv
  rw [hcode, if_neg (by decide), if_pos rfl] at hv
  obtain ⟨spc, ptr', hins, rfl⟩ := hv
  have hspc : spc = "ram" := by
    rw [hins] at hspace
    exact Emu.PArg.space.inj (Option.some.inj hspace)
  have hptr' : ptr' = ptr := by
    unfold argVar at hptr
    rw [hins] at hptr
    exact Option.some.inj hptr
  have haddr : BitVec.ofNat 64 (valueAt p.bigEndian σ ptr) = addr := by
    rw [pointer_sound hreads hptr hget hfit]
    exact BitVec.ofNat_toNat 64 addr
  have himage := readMemConst_sound hσ h
  have hlt : valueAt p.bigEndian σ ⟨"ram", addr, out.size⟩ < 2 ^ (8 * out.size) := valueAt_lt
  rw [hspc, hptr', haddr, himage]
  rw [himage] at hlt
  exact (Nat.mod_eq_of_lt hlt).symm

/-- INT_ADD, INT_SUB, INT_AND and INT_OR, folded by `f` and with `g` their value. -/
theorem fold_sound {f : U64 → U64 → U64} {g : ℕ → ℕ → ℕ} (hs : op.opcode.hasSemantics = true)
    (hsame : ∀ ss, sizesOk op.opcode ss out.size → ss = [out.size, out.size])
    (hg : ∀ a b, evalBinary op.opcode out.size out.size out.size a b = some (g a b))
    (hreads : ReadsHold p vctx σ op) (hv : Computes p.bigEndian σ op out v)
    (hfg : ∀ u u' x y, argVar op 0 = some u → argVar op 1 = some u' → vctx.get u = .const x →
      vctx.get u' = .const y → 0 < out.size →
      g (x.toNat % 2 ^ (8 * out.size)) (y.toNat % 2 ^ (8 * out.size)) =
        (Emu.mask (f x y) out.size).toNat % 2 ^ (8 * out.size))
    (h : (match (argVar op 0).map vctx.get, (argVar op 1).map vctx.get with
      | some (.const x), some (.const y) => SymValue.const (Emu.mask (f x y) out.size)
      | _, _ => .unknown) = .const c) : v = c.toNat % 2 ^ (8 * out.size) := by
  obtain ⟨u, u', x, y, hu, hu', hx, hy, rfl⟩ := fold2_const h
  obtain ⟨hsu, hsu', h0, heval⟩ := computes_binary hs hu hu' hsame hv
  rw [hg, hreads u (mem_reads hu) x hx, hreads u' (mem_reads hu') y hy, hsu, hsu'] at heval
  rw [← Option.some.inj heval]
  exact hfg u u' x y hu hu' hx hy h0

theorem and_sound (x y : U64) {n : ℕ} (h0 : 0 < n) :
    x.toNat % 2 ^ (8 * n) &&& y.toNat % 2 ^ (8 * n) = (Emu.mask (x &&& y) n).toNat % 2 ^ (8 * n) := by
  rw [mask_narrow _ h0, BitVec.toNat_and, Nat.and_mod_two_pow]

theorem or_sound (x y : U64) {n : ℕ} (h0 : 0 < n) :
    x.toNat % 2 ^ (8 * n) ||| y.toNat % 2 ^ (8 * n) = (Emu.mask (x ||| y) n).toNat % 2 ^ (8 * n) := by
  rw [mask_narrow _ h0, BitVec.toNat_or, Nat.or_mod_two_pow]

theorem zext_sound (hcode : op.opcode = .intZext) (hreads : ReadsHold p vctx σ op)
    (hfits : Fits vctx op) (hv : Computes p.bigEndian σ op out v)
    (h : ((argVar op 0).map vctx.get).getD .unknown = .const c) :
    v = c.toNat % 2 ^ (8 * out.size) := by
  cases hu : argVar op 0 with
  | none => rw [hu] at h; cases h
  | some u =>
    rw [hu] at h
    have hget : vctx.get u = .const c := h
    obtain ⟨hsizes, -, heval⟩ := computes_unary (by rw [hcode]; rfl) hu
      (fun s ss hss => by
        rw [hcode] at hss
        obtain ⟨_, hss, -⟩ := hss
        exact (List.cons_eq_cons.mp hss).2) hv
    rw [hcode] at hsizes heval
    obtain ⟨s, hsu, hlt⟩ := hsizes
    obtain rfl : u.size = s := (List.cons_eq_cons.mp hsu).1
    have hfit := hfits.zext hcode u c hu hget
    have hvu : valueAt p.bigEndian σ u = v := Option.some.inj heval
    have hpow : 2 ^ (8 * u.size) ≤ 2 ^ (8 * out.size) := Nat.pow_le_pow_right two_pos (by omega)
    rw [← hvu, hreads u (mem_reads hu) c hget, Nat.mod_eq_of_lt hfit,
      Nat.mod_eq_of_lt (hfit.trans_le hpow)]

/-- What the source makes of a narrow word is its sign extension. -/
theorem sext_word (x : U64) {s : ℕ} (h0 : 0 < s) (h8 : s < 8) :
    ((x &&& ((1#64 <<< (8 * s - 1)) <<< 1 - 1#64)) ^^^ 1#64 <<< (8 * s - 1)) -
      1#64 <<< (8 * s - 1) = Emu.sext x s := by
  have hs : (1#64 <<< (8 * s - 1)) <<< 1 = 1#64 <<< (s * 8) := by
    rw [← BitVec.shiftLeft_add]
    congr 1
    omega
  unfold Emu.sext Emu.mask
  rw [if_neg (by omega), if_neg (by omega), hs, Nat.mul_comm 8 s]

theorem sext_op_sound (hcode : op.opcode = .intSext) (hreads : ReadsHold p vctx σ op)
    (hfits : Fits vctx op) (hout : op.out = some out) (hv : Computes p.bigEndian σ op out v)
    {u : Emu.Varnode} {x : U64} (hu : argVar op 0 = some u) (hget : vctx.get u = .const x)
    (h : c = if u.size < 8 then Emu.mask (Emu.sext x u.size) out.size else x) :
    v = c.toNat % 2 ^ (8 * out.size) := by
  obtain ⟨hsizes, h0, heval⟩ := computes_unary (by rw [hcode]; rfl) hu
    (fun s ss hss => by
      rw [hcode] at hss
      obtain ⟨_, hss, -⟩ := hss
      exact (List.cons_eq_cons.mp hss).2) hv
  rw [hcode] at hsizes heval
  obtain ⟨s, hsu, hlt⟩ := hsizes
  obtain rfl : u.size = s := (List.cons_eq_cons.mp hsu).1
  have hvu : ((BitVec.ofNat (8 * u.size) (valueAt p.bigEndian σ u)).signExtend
      (8 * out.size)).toNat = v := Option.some.inj heval
  rw [hreads u (mem_reads hu) x hget] at hvu
  by_cases h8 : u.size ≤ 8
  · have hsound := sext_sound h0 h8 hlt (hfits.sext hcode u x out hu hget hout h8)
    rw [← hvu, hsound, h]
    split_ifs with hlt8
    · rfl
    · have hsx : Emu.sext x u.size = x := if_pos (.inr (by omega))
      rw [hsx, mask_wide (by omega)]
  · have hx := toNat_lt_wide x (show 8 < u.size by omega)
    have hmsb : (BitVec.ofNat (8 * u.size) (x.toNat % 2 ^ (8 * u.size))).msb = false := by
      have hpow : 2 * 2 ^ 64 ≤ 2 ^ (8 * u.size) := by
        rw [← Nat.pow_succ']
        exact Nat.pow_le_pow_right two_pos (by omega)
      have hx64 := x.isLt
      rw [BitVec.msb_eq_false_iff_two_mul_lt, BitVec.toNat_ofNat, Nat.mod_mod,
        Nat.mod_eq_of_lt hx]
      omega
    rw [← hvu, h, if_neg (by omega), BitVec.signExtend_eq_setWidth_of_msb_false hmsb,
      BitVec.toNat_setWidth, BitVec.toNat_ofNat, Nat.mod_mod, Nat.mod_eq_of_lt hx]

/-- The constant the context gives the output is the value the operation leaves there. -/
theorem opValue_sound (hσ : Image p ram σ) (hreads : ReadsHold p vctx σ op) (hfits : Fits vctx op)
    (hout : op.out = some out) (hv : Computes p.bigEndian σ op out v)
    (h : opValue p ram vctx op out = some (.const c)) : v = c.toNat % 2 ^ (8 * out.size) := by
  unfold opValue at h
  dsimp only at h
  cases hcode : op.opcode <;> rw [hcode] at h <;> dsimp only at h
  case copy => exact copy_sound hcode hσ hreads hv h
  case load =>
    split at h
    case h_1 addr hptr => exact load_sound hcode hσ hreads hfits hv hptr (Option.some.inj h)
    case h_2 => cases h
  case intAdd =>
    refine fold_sound (by rw [hcode]; rfl) (by rw [hcode]; exact fun _ => id)
      (by rw [hcode]; exact fun _ _ => rfl) hreads hv (fun u u' x y hu hu' hx hy h0 => ?_)
      (Option.some.inj h)
    exact add_sound h0 (hfits.add hcode u u' x y out hu hu' hx hy hout)
  case intSub =>
    refine fold_sound (by rw [hcode]; rfl) (by rw [hcode]; exact fun _ => id)
      (by rw [hcode]; exact fun _ _ => rfl) hreads hv (fun u u' x y hu hu' hx hy h0 => ?_)
      (Option.some.inj h)
    exact sub_sound h0 (hfits.sub hcode u u' x y out hu hu' hx hy hout)
  case intAnd =>
    exact fold_sound (by rw [hcode]; rfl) (by rw [hcode]; exact fun _ => id)
      (by rw [hcode]; exact fun _ _ => rfl) hreads hv (fun _ _ x y _ _ _ _ h0 => and_sound x y h0)
      (Option.some.inj h)
  case intOr =>
    exact fold_sound (by rw [hcode]; rfl) (by rw [hcode]; exact fun _ => id)
      (by rw [hcode]; exact fun _ _ => rfl) hreads hv (fun _ _ x y _ _ _ _ h0 => or_sound x y h0)
      (Option.some.inj h)
  case intZext => exact zext_sound hcode hreads hfits hv (Option.some.inj h)
  case intSext =>
    cases hu : argVar op 0 with
    | none => rw [hu] at h; cases h
    | some u =>
      rw [hu] at h
      dsimp only at h
      cases hget : vctx.get u with
      | unknown => rw [hget] at h; cases h
      | const x =>
        rw [hget] at h
        dsimp only at h
        have hpos : 0 < u.size := (computes_of_semantics (by rw [hcode]; rfl) hv).2.1 u (mem_reads hu)
        refine sext_op_sound hcode hreads hfits hout hv hu hget ?_
        split_ifs at h ⊢ with h8
        · rw [sext_word x hpos h8] at h
          exact (SymValue.const.inj (Option.some.inj h)).symm
        · exact (SymValue.const.inj (Option.some.inj h)).symm
  all_goals cases h

end Values
end Symbolic
end Mosura
