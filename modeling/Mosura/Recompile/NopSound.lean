import Mosura.Recompile.CopyBytes
import Mosura.Recompile.Verify

/-! When an instruction that is taken for padding has no effect. -/

namespace Mosura
namespace Recompile

open Emu (PArg Instruction)

/-! The propagation of whole operands. -/

/-- The value of an entry is set; a new key comes last. -/
def setEntry (table : List (PArg × PArg)) (key val : PArg) : List (PArg × PArg) :=
  if (table.lookup key).isSome then table.map fun p => if p.1 = key then (key, val) else p
  else table ++ [(key, val)]

/-- What each operand holds after the COPYs, each taken as a whole. -/
def pairTable : List (PArg × PArg) → List Emu.PcodeOp → Option (List (PArg × PArg))
  | table, [] => some table
  | table, op :: ops => (copyArgs op).bind fun (out, src) =>
    pairTable (setEntry table (.var out) ((table.lookup src).getD src)) ops

def isUnique : PArg → Bool
  | .var v => v.space = "unique"
  | .space _ => false

/-- Taken as wholes, the operands that are not temporaries return to where they were. -/
def pairsReturn (ops : List Emu.PcodeOp) : Bool :=
  (pairTable [] ops).any (·.all fun p => isUnique p.1 || p.1 = p.2)

section Encode

variable (insn : Instruction) (temps : List U64)

/-- An operand under the numbering of the temporaries. -/
def encode : PArg → SemArg
  | .space s => .space s
  | .var v =>
    if v.space = "unique" then .temp (temps.idxOf v.offset) v.size
    else if v.space = "register" then .reg v.offset v.size
    else if v.space = "const" then
      if v.offset = insn.address ∨ v.offset = insn.address + BitVec.ofNat 64 insn.bytes.length then
        .pcRef
      else .const v.offset v.size
    else .mem v.space v.offset v.size

/-- A temporary has its number. -/
def Known (a : PArg) : Prop := ∀ v, a = .var v → v.space = "unique" → v.offset ∈ temps

def IsLoc (a : PArg) : Prop := ∃ v, a = .var v ∧ v.space ≠ "const"

variable {insn temps} {temps' : List U64} {a b : PArg}

theorem Known.mono (h : Known temps a) (hpre : temps <+: temps') : Known temps' a :=
  fun v ha hspace => hpre.subset (h v ha hspace)

/-- Later numbers do not change the earlier ones. -/
theorem encode_mono (h : Known temps a) (hpre : temps <+: temps') :
    encode insn temps' a = encode insn temps a := by
  cases a with
  | space s => rfl
  | var v =>
    unfold encode
    dsimp only
    split_ifs with hspace
    · obtain ⟨more, rfl⟩ := hpre
      rw [List.idxOf_append_of_mem (h v rfl hspace)]
    all_goals rfl

/-- Two operands of one form are the same, where one is a location. -/
theorem encode_inj (ha : Known temps a) (hb : Known temps b) (hloc : IsLoc b) :
    encode insn temps a = encode insn temps b ↔ a = b := by
  refine ⟨fun h => ?_, congrArg _⟩
  obtain ⟨⟨space, offset, size⟩, rfl, hconst⟩ := hloc
  change space ≠ "const" at hconst
  cases a with
  | space s =>
    unfold encode at h
    dsimp only at h
    split_ifs at h
  | var v =>
    obtain ⟨space', offset', size'⟩ := v
    unfold encode at h
    dsimp only at h
    split_ifs at h
    · rename_i hv hw
      obtain ⟨hidx, rfl⟩ := SemArg.temp.inj h
      obtain rfl := (List.idxOf_inj (ha _ rfl hv)).mp hidx
      rw [hv, hw]
    · rename_i _ hv _ hw
      obtain ⟨rfl, rfl⟩ := SemArg.reg.inj h
      rw [hv, hw]
    · obtain ⟨rfl, rfl, rfl⟩ := SemArg.mem.inj h
      rfl

theorem conv_spec (seen : Seen) (v : Emu.Varnode) :
    seen.temps <+: (conv noReloc insn seen v).2.temps ∧
      Known (conv noReloc insn seen v).2.temps (.var v) ∧
      (conv noReloc insn seen v).1 = encode insn (conv noReloc insn seen v).2.temps (.var v) := by
  unfold conv encode
  dsimp only
  by_cases hunique : v.space = "unique"
  · rw [if_pos hunique, if_pos hunique]
    have hmem : v.offset ∈ insertEnd seen.temps v.offset := by
      unfold insertEnd
      split_ifs with h
      · exact h
      · exact List.mem_append_right _ (List.mem_singleton_self _)
    refine ⟨?_, fun w hw _ => ?_, rfl⟩
    · unfold insertEnd
      split_ifs
      · exact List.prefix_rfl
      · exact List.prefix_append _ _
    · obtain rfl := PArg.var.inj hw
      exact hmem
  · rw [if_neg hunique, if_neg hunique]
    have hknown (temps : List U64) : Known temps (.var v) := fun w hw hspace =>
      absurd (PArg.var.inj hw ▸ hspace) hunique
    have hvalue : (resolveConst noReloc insn v.offset v.size).getD v.offset = v.offset := rfl
    rw [hvalue]
    split_ifs
    all_goals exact ⟨List.prefix_rfl, hknown _, rfl⟩

theorem convArg_spec (seen : Seen) (a : PArg) :
    seen.temps <+: (convArg noReloc insn false seen a).2.temps ∧
      Known (convArg noReloc insn false seen a).2.temps a ∧
      (convArg noReloc insn false seen a).1 =
        encode insn (convArg noReloc insn false seen a).2.temps a := by
  cases a with
  | space s => exact ⟨List.prefix_rfl, nofun, rfl⟩
  | var v => exact conv_spec seen v

theorem prefix_convIns (seen : Seen) (as : List PArg) :
    seen.temps <+: (convIns noReloc insn false seen as).2.temps := by
  induction as generalizing seen with
  | nil => exact List.prefix_rfl
  | cons a as ih => exact (convArg_spec seen a).1.trans (ih _)

end Encode

/-- The table of the temporaries' numbers. -/
def encodeTable (insn : Instruction) (temps : List U64) (table : List (PArg × PArg)) :
    List (SemArg × SemArg) :=
  table.map fun p => (encode insn temps p.1, encode insn temps p.2)

/-- Every operand in the table is known, and the keys are locations. -/
def TableKnown (temps : List U64) (table : List (PArg × PArg)) : Prop :=
  ∀ p ∈ table, Known temps p.1 ∧ Known temps p.2 ∧ IsLoc p.1

section Table

variable {insn : Instruction} {temps temps' : List U64} {table : List (PArg × PArg)} {key val : PArg}

theorem encodeTable_mono (h : TableKnown temps table) (hpre : temps <+: temps') :
    encodeTable insn temps' table = encodeTable insn temps table := by
  apply List.map_congr_left
  intro p hp
  rw [encode_mono (h p hp).1 hpre, encode_mono (h p hp).2.1 hpre]

theorem lookup_encodeTable (h : TableKnown temps table) (hkey : Known temps key) :
    (encodeTable insn temps table).lookup (encode insn temps key) =
      (table.lookup key).map (encode insn temps) := by
  induction table with
  | nil => rfl
  | cons p table ih =>
    obtain ⟨hp, -, hloc⟩ := h p List.mem_cons_self
    have hrest := ih fun q hq => h q (List.mem_cons_of_mem _ hq)
    unfold encodeTable at hrest ⊢
    rw [List.map_cons, List.lookup_cons, List.lookup_cons, hrest]
    by_cases heq : key = p.1
    · rw [heq, beq_self_eq_true, beq_self_eq_true]
      rfl
    · have hne : encode insn temps key ≠ encode insn temps p.1 :=
        fun h => heq ((encode_inj hkey hp hloc).mp h)
      rw [beq_eq_false_iff_ne.mpr heq, beq_eq_false_iff_ne.mpr hne]

theorem encodeTable_setEntry (h : TableKnown temps table) (hkey : Known temps key) :
    encodeTable insn temps (setEntry table key val) =
      let out := encode insn temps key
      let state := encodeTable insn temps table
      if (state.lookup out).isSome then
        state.map fun p => if p.1 = out then (out, encode insn temps val) else p
      else state ++ [(out, encode insn temps val)] := by
  dsimp only
  rw [lookup_encodeTable h hkey, Option.isSome_map]
  unfold setEntry
  by_cases hin : (table.lookup key).isSome
  · rw [if_pos hin, if_pos hin]
    unfold encodeTable
    rw [List.map_map, List.map_map]
    apply List.map_congr_left
    intro p hp
    have hiff : encode insn temps p.1 = encode insn temps key ↔ p.1 = key := by
      rw [eq_comm, encode_inj hkey (h p hp).1 (h p hp).2.2, eq_comm]
    by_cases heq : p.1 = key
    · simp [heq]
    · simp [heq, hiff]
  · rw [if_neg hin, if_neg hin]
    unfold encodeTable
    rw [List.map_append]
    rfl

theorem TableKnown.setEntry (h : TableKnown temps table) (hkey : Known temps key)
    (hloc : IsLoc key) (hval : Known temps val) : TableKnown temps (setEntry table key val) := by
  intro p hp
  unfold Recompile.setEntry at hp
  split_ifs at hp
  · obtain ⟨q, hq, rfl⟩ := List.mem_map.mp hp
    split_ifs
    · exact ⟨hkey, hval, hloc⟩
    · exact h q hq
  · obtain hp | hp := List.mem_append.mp hp
    · exact h p hp
    · rw [List.mem_singleton.mp hp]
      exact ⟨hkey, hval, hloc⟩

end Table

/-- The entry is not of a location that has to return, or it has. -/
def semReturns (p : SemArg × SemArg) : Bool :=
  match p.1 with
  | .temp _ _ => true
  | loc => loc = p.2

theorem semReturns_of_ne_temp {loc val : SemArg} (h : ∀ id size, loc ≠ .temp id size) :
    semReturns (loc, val) = decide (loc = val) := by
  cases loc with
  | temp id size => exact absurd rfl (h id size)
  | _ => rfl

theorem semReturns_encode {insn : Instruction} {temps : List U64} {key val : PArg}
    (hkey : Known temps key) (hval : Known temps val) (hloc : IsLoc key) :
    semReturns (encode insn temps key, encode insn temps val) = (isUnique key || key = val) := by
  have hiff : encode insn temps key = encode insn temps val ↔ key = val := by
    rw [eq_comm, encode_inj hval hkey hloc, eq_comm]
  obtain ⟨v, rfl, hconst⟩ := hloc
  by_cases hunique : v.space = "unique"
  · have hkind : isUnique (.var v) = true := decide_eq_true hunique
    unfold encode
    dsimp only
    rw [if_pos hunique, hkind]
    rfl
  · have hkind : isUnique (.var v) = false := decide_eq_false hunique
    have hnot (id size : ℕ) : encode insn temps (.var v) ≠ .temp id size := by
      unfold encode
      dsimp only
      rw [if_neg hunique]
      split_ifs
      all_goals exact SemArg.noConfusion
    rw [semReturns_of_ne_temp hnot, hkind, Bool.false_or]
    exact decide_eq_decide.mpr hiff

theorem copyArgs_some {op : Emu.PcodeOp} {out : Emu.Varnode} {src : PArg}
    (h : copyArgs op = some (out, src)) :
    op.opcode = .copy ∧ op.out = some out ∧ op.ins.head? = some src := by
  unfold copyArgs at h
  split at h
  · rename_i hcode hout hsrc
    obtain ⟨rfl, rfl⟩ := Prod.mk.inj (Option.some.inj h)
    exact ⟨hcode, hout, hsrc⟩
  · cases h

theorem mem_of_lookup {table : List (PArg × PArg)} {key val : PArg}
    (h : table.lookup key = some val) : (key, val) ∈ table := by
  obtain ⟨l, l', rfl, -⟩ := List.lookup_eq_some_iff.mp h
  exact List.mem_append_right _ List.mem_cons_self

theorem copies_cons (state : List (SemArg × SemArg)) (out src : SemArg) (ins : List SemArg)
    (sem : List SemOp) : NormInsn.copies state (⟨.copy, some out, src :: ins⟩ :: sem) =
      NormInsn.copies (if (state.lookup out).isSome then
        state.map fun p => if p.1 = out then (out, (state.lookup src).getD src) else p
      else state ++ [(out, (state.lookup src).getD src)]) sem := rfl

/-- Where an operation is not a COPY, its normalized form is not one either. -/
theorem copies_of_copyArgs_none {insn : Instruction} {op : Emu.PcodeOp} (h : copyArgs op = none)
    (seen seen' : Seen) (isTarget : Bool) (state : List (SemArg × SemArg)) (sem : List SemOp) :
    NormInsn.copies state (⟨op.opcode, (convOut noReloc insn seen op.out).1,
      (convIns noReloc insn isTarget seen' op.ins).1⟩ :: sem) = none := by
  unfold NormInsn.copies
  split
  · rename_i hcode hout hsrc
    dsimp only at hcode hout hsrc
    unfold copyArgs at h
    cases hop : op.out with
    | none =>
      rw [hop] at hout
      cases hout
    | some v =>
      cases hins : op.ins with
      | nil =>
        rw [hins] at hsrc
        cases hsrc
      | cons a as =>
        rw [hcode, hop, hins] at h
        cases h
  · rfl

/-- A branch is no COPY, so the target is not among the operands. -/
theorem copies_convOps {insn : Instruction} {targetOp : Option ℕ} (ops : List Emu.PcodeOp) (oi : ℕ)
    (seen : Seen) (table : List (PArg × PArg)) (hknown : TableKnown seen.temps table)
    (htarget : ∀ k op, ops[k]? = some op → targetOp = some (oi + k) → copyArgs op = none) :
    (NormInsn.copies (encodeTable insn seen.temps table)
        (convOps noReloc insn targetOp oi seen ops).1).any (·.all semReturns) =
      (pairTable table ops).any (·.all fun p => isUnique p.1 || p.1 = p.2) := by
  induction ops generalizing oi seen table with
  | nil =>
    change (encodeTable insn seen.temps table).all semReturns = table.all _
    unfold encodeTable
    rw [List.all_map]
    apply Bool.eq_iff_iff.mpr
    rw [List.all_eq_true, List.all_eq_true]
    refine forall₂_congr fun p hp => ?_
    obtain ⟨hkey, hval, hloc⟩ := hknown p hp
    rw [← semReturns_encode hkey hval hloc]
    rfl
  | cons op ops ih =>
    unfold pairTable convOps
    dsimp only
    cases hargs : copyArgs op with
    | none => rw [copies_of_copyArgs_none hargs, Option.bind_none]; rfl
    | some p =>
      obtain ⟨out, src⟩ := p
      obtain ⟨hcode, hout, hsrc⟩ := copyArgs_some hargs
      obtain ⟨as, hins⟩ : ∃ as, op.ins = src :: as := List.head?_eq_some_iff.mp hsrc
      have hoi : decide (targetOp = some oi) = false :=
        decide_eq_false fun h => by simp [htarget 0 op rfl h] at hargs
      rw [hout, hins, hcode, hoi, Option.bind_some]
      dsimp only [convOut, convIns]
      -- the numbers of the temporaries after the output, the first input and all inputs
      obtain ⟨hpre, hkout, hout'⟩ := (@conv_spec insn) seen out
      obtain ⟨hpre', hksrc, hsrc'⟩ := (@convArg_spec insn) (conv noReloc insn seen out).2 src
      have hpre'' := (@prefix_convIns insn)
        (convArg noReloc insn false (conv noReloc insn seen out).2 src).2 as
      generalize (convIns noReloc insn false
        (convArg noReloc insn false (conv noReloc insn seen out).2 src).2 as).2 = seen' at hpre'' ⊢
      rw [← encode_mono hkout (hpre'.trans hpre'')] at hout'
      rw [← encode_mono hksrc hpre''] at hsrc'
      have hkout' := hkout.mono (hpre'.trans hpre'')
      have hksrc' := hksrc.mono hpre''
      have hall := hpre.trans (hpre'.trans hpre'')
      have hknown' : TableKnown seen'.temps table := fun p hp =>
        ⟨(hknown p hp).1.mono hall, (hknown p hp).2.1.mono hall, (hknown p hp).2.2⟩
      have hkval : Known seen'.temps ((table.lookup src).getD src) := by
        cases hlookup : table.lookup src with
        | none => exact hksrc'
        | some val => exact (hknown' (src, val) (mem_of_lookup hlookup)).2.1
      have hval : ((encodeTable insn seen'.temps table).lookup (encode insn seen'.temps src)).getD
          (encode insn seen'.temps src) = encode insn seen'.temps ((table.lookup src).getD src) := by
        rw [lookup_encodeTable hknown' hksrc', Option.getD_map]
      rw [← ih (oi + 1) seen' _ (hknown'.setEntry hkout' ⟨out, rfl, op.out_space out hout⟩ hkval)
        fun k op' hop' => by
          have := htarget (k + 1) op' hop'
          rwa [Nat.add_comm k, ← Nat.add_assoc] at this,
        encodeTable_setEntry hknown' hkout']
      rw [copies_cons, ← encodeTable_mono hknown hall, hout', hsrc', hval]

theorem isNop_eq_elim (insn : NormInsn) : insn.isNop =
    (NormInsn.copies [] insn.sem).elim false fun state => state.all semReturns := by
  unfold NormInsn.isNop
  cases NormInsn.copies [] insn.sem with
  | none => rfl
  | some state => rfl

/-- The numbered propagation is the one of whole operands. -/
theorem isNop_eq (insn : Instruction) (mask : Option (List (BitVec 8))) :
    (normalizeOneWithMask insn noReloc mask).isNop = pairsReturn insn.ops := by
  have hcopies := (@copies_convOps insn ((targetArg 0 insn.ops).map Prod.fst))
    insn.ops 0 {} [] nofun ?_
  · unfold pairsReturn
    rw [← hcopies]
    rw [isNop_eq_elim]
    change (NormInsn.copies [] (convOps noReloc insn ((targetArg 0 insn.ops).map Prod.fst) 0 {}
      insn.ops).1).elim false (fun state => state.all semReturns) = Option.any _ (NormInsn.copies []
        (convOps noReloc insn ((targetArg 0 insn.ops).map Prod.fst) 0 {} insn.ops).1)
    cases NormInsn.copies [] (convOps noReloc insn ((targetArg 0 insn.ops).map Prod.fst) 0 {}
      insn.ops).1 with
    | none => rfl
    | some state => rfl
  · intro k op hop htarget
    rw [Nat.zero_add] at htarget
    obtain ⟨⟨j, t⟩, hj, rfl⟩ := Option.map_eq_some_iff.mp htarget
    obtain ⟨k', op', rfl, hop', ht⟩ := targetArg_some hj
    rw [Nat.zero_add] at hop
    obtain rfl := Option.some.inj (hop'.symm.trans hop)
    unfold destination at ht
    unfold copyArgs
    split
    · rename_i hcode _ _
      rw [hcode] at ht
      cases ht
    · rfl

/-! Where the operands of the COPYs do not overlap. -/

section Apart

variable {bigEndian : String → Bool} {ops : List Emu.PcodeOp}

/-- Two locations share no byte. -/
def Apart (v w : Emu.Varnode) : Prop :=
  v.space = w.space → ∀ i < v.size, ∀ j < w.size,
    v.offset + BitVec.ofNat 64 i ≠ w.offset + BitVec.ofNat 64 j

/-- Every operand is as wide as what it is copied to, no location wraps around, and two locations
are the same or have no byte in common. -/
structure Regular (ops : List Emu.PcodeOp) (locs : List Emu.Varnode) : Prop where
  args : ∀ op ∈ ops, ∀ out src, copyArgs op = some (out, src) →
    out ∈ locs ∧ ∃ v, src = .var v ∧ v.size = out.size ∧ (v.space = "const" ∨ v ∈ locs)
  fits : ∀ v ∈ locs, v.size ≤ 2 ^ 64
  not_const : ∀ v ∈ locs, v.space ≠ "const"
  apart : ∀ v ∈ locs, ∀ w ∈ locs, v = w ∨ Apart v w

theorem flipByte_lt {v : Emu.Varnode} {i : ℕ} (hi : i < v.size) : flipByte bigEndian v i < v.size := by
  unfold flipByte
  split_ifs
  all_goals omega

theorem flipByte_flipByte {v : Emu.Varnode} {i : ℕ} (hi : i < v.size) :
    flipByte bigEndian v (flipByte bigEndian v i) = i := by
  unfold flipByte
  split_ifs
  all_goals omega

/-- The byte map holds what the table says of each operand. -/
def Holds (bigEndian : String → Bool) (from_ : ByteMap Origin) (table : List (PArg × PArg))
    (v : Emu.Varnode) : Prop :=
  ∀ i < v.size, byteOf .lit bigEndian from_ i (.var v) =
    byteOf .lit bigEndian .at_ i ((table.lookup (.var v)).getD (.var v))

theorem lookup_map_entry (table : List (PArg × PArg)) (key val a : PArg) :
    (table.map fun p => if p.1 = key then (key, val) else p).lookup a =
      if a = key then (table.lookup key).map fun _ => val else table.lookup a := by
  induction table with
  | nil => exact (ite_self _).symm
  | cons p table ih =>
    rw [List.map_cons, List.lookup_cons, List.lookup_cons, List.lookup_cons, ih]
    by_cases hp : p.1 = key
    · by_cases ha : a = key
      · simp [hp, ha]
      · rw [if_pos hp, hp, beq_eq_false_iff_ne.mpr ha, if_neg ha, if_neg ha]
    · by_cases ha : a = key
      · rw [if_neg hp, ha, beq_eq_false_iff_ne.mpr (Ne.symm hp), if_pos rfl]
      · rw [if_neg hp, if_neg ha, if_neg ha]

theorem lookup_setEntry (table : List (PArg × PArg)) (key val a : PArg) :
    (setEntry table key val).lookup a = if a = key then some val else table.lookup a := by
  unfold setEntry
  by_cases hin : (table.lookup key).isSome
  · obtain ⟨old, hold⟩ := Option.isSome_iff_exists.mp hin
    rw [if_pos hin, lookup_map_entry, hold]
    rfl
  · have hnone := Option.not_isSome_iff_eq_none.mp hin
    rw [if_neg hin, List.lookup_append]
    by_cases ha : a = key
    · rw [ha, hnone]
      simp
    · simp [List.lookup_cons, beq_eq_false_iff_ne.mpr ha, ha]

theorem Holds.copyTo_other {from_ : ByteMap Origin} {table : List (PArg × PArg)}
    {v out : Emu.Varnode} {src val : PArg} (h : Holds bigEndian from_ table v)
    (hne : v ≠ out) (hapart : v.space = "const" ∨ Apart v out) :
    Holds bigEndian (copyTo .lit bigEndian from_ out src) (setEntry table (.var out) val) v := by
  intro i hi
  rw [lookup_setEntry, if_neg fun heq => hne (PArg.var.inj heq), ← h i hi]
  unfold byteOf
  dsimp only
  by_cases hconst : v.space = "const"
  · rw [if_pos hconst, if_pos hconst]
  · rw [if_neg hconst, if_neg hconst]
    congr 1
    refine if_neg fun hin => ?_
    have hbyte := hapart.resolve_left hconst hin.1 _ ((@flipByte_lt bigEndian) hi) _
      hin.2
    rw [BitVec.ofNat_toNat, BitVec.setWidth_eq, add_sub_cancel] at hbyte
    exact hbyte rfl

theorem Holds.copyTo_self {from_ : ByteMap Origin} {table : List (PArg × PArg)}
    {v out : Emu.Varnode} (h : Holds bigEndian from_ table v) (hsize : v.size = out.size)
    (hfits : out.size ≤ 2 ^ 64) (hconst : out.space ≠ "const") :
    Holds bigEndian (copyTo .lit bigEndian from_ out (.var v))
      (setEntry table (.var out) ((table.lookup (.var v)).getD (.var v))) out := by
  intro i hi
  have hflip := (@flipByte_lt bigEndian) hi
  have hdist : (out.offset + BitVec.ofNat 64 (flipByte bigEndian out i) - out.offset).toNat =
      flipByte bigEndian out i := by
    rw [add_sub_cancel_left, BitVec.toNat_ofNat, Nat.mod_eq_of_lt (hflip.trans_le hfits)]
  rw [lookup_setEntry, if_pos rfl, Option.getD_some, ← h i (hsize.symm ▸ hi)]
  conv_lhs => unfold byteOf
  dsimp only
  rw [if_neg (not_le.mpr hi), if_neg hconst]
  unfold copyTo
  rw [hdist, if_pos ⟨rfl, hflip⟩, flipByte_flipByte hi]

/-- The propagation of whole operands follows the bytes. -/
theorem Regular.run {locs : List Emu.Varnode} (h : Regular ops locs) {from_ : ByteMap Origin}
    {table table' : List (PArg × PArg)}
    (hholds : ∀ v, v.space = "const" ∨ v ∈ locs → Holds bigEndian from_ table v)
    (hrun : pairTable table ops = some table') :
    ∃ from_', runCopies .lit bigEndian from_ ops = some from_' ∧
      (∀ v ∈ locs, Holds bigEndian from_' table' v) ∧
      (∀ op ∈ ops, ∀ out, op.out = some out → out ∈ locs ∧ (table'.lookup (.var out)).isSome) ∧
      ∀ key, (table.lookup key).isSome → (table'.lookup key).isSome := by
  induction ops generalizing from_ table with
  | nil =>
    obtain rfl := Option.some.inj hrun
    exact ⟨from_, rfl, fun v hv => hholds v (.inr hv), by simp, fun key h => h⟩
  | cons op ops ih =>
    obtain ⟨⟨out, src⟩, hargs, hrest⟩ := Option.bind_eq_some_iff.mp hrun
    obtain ⟨hout, v, rfl, hsize, hv⟩ := h.args op List.mem_cons_self out src hargs
    have hkept (key : PArg) (val : PArg) (hin : (table.lookup key).isSome ∨ key = .var out) :
        ((setEntry table (.var out) val).lookup key).isSome := by
      rw [lookup_setEntry]
      split_ifs with heq
      · rfl
      · exact hin.resolve_right heq
    have hregular : Regular ops locs :=
      ⟨fun op hop => h.args op (List.mem_cons_of_mem _ hop), h.fits, h.not_const, h.apart⟩
    have hholds' : ∀ w, w.space = "const" ∨ w ∈ locs →
        Holds bigEndian (copyTo .lit bigEndian from_ out (.var v))
          (setEntry table (.var out) ((table.lookup (.var v)).getD (.var v))) w := by
      intro w hw
      by_cases heq : w = out
      · rw [heq]
        exact (hholds v hv).copyTo_self hsize (h.fits out hout) (h.not_const out hout)
      · exact (hholds w hw).copyTo_other heq
          (hw.imp_right fun hmem => (h.apart w hmem out hout).resolve_left heq)
    obtain ⟨from_', hrun', hend, hkeys, hmono⟩ := ih hregular hholds' hrest
    refine ⟨from_', ?_, hend, fun op' hop' out' hout' => ?_, fun key hin => ?_⟩
    · unfold runCopies
      rw [hargs]
      exact hrun'
    · obtain rfl | hop' := List.mem_cons.mp hop'
      · obtain rfl := Option.some.inj ((copyArgs_some hargs).2.1.symm.trans hout')
        exact ⟨hout, hmono _ (hkept _ _ (.inr rfl))⟩
      · exact hkeys op' hop' out' hout'
    · exact hmono key (hkept key _ (.inl hin))

/-- Where the locations are apart, the propagation of whole operands is right. -/
theorem Regular.bytesReturn {locs : List Emu.Varnode} (h : Regular ops locs)
    (hpairs : pairsReturn ops = true) : bytesReturn bigEndian ops = true := by
  unfold pairsReturn at hpairs
  obtain ⟨table, htable, hall⟩ := (Option.any_eq_true _ _).mp hpairs
  have hholds (v : Emu.Varnode) : Holds bigEndian .at_ [] v := fun i _ => rfl
  obtain ⟨from_, hrun, hfrom, hkeys, -⟩ := h.run (fun v _ => hholds v) htable
  have horigins : origins bigEndian ops = some from_ := hrun
  unfold Recompile.bytesReturn
  rw [horigins, Option.any_some, List.all_eq_true]
  intro op hop
  rw [Option.all_eq_true]
  intro out hout
  obtain ⟨hmem, hin⟩ := hkeys op hop out hout
  obtain ⟨val, hval⟩ := Option.isSome_iff_exists.mp hin
  rw [Bool.or_eq_true, decide_eq_true_eq, List.all_eq_true]
  refine or_iff_not_imp_left.mpr fun hspace d hd => ?_
  have hd := List.mem_range.mp hd
  -- the location came back as a whole, so it holds its own bytes
  have hback : PArg.var out = val := by
    have hentry := List.all_eq_true.mp hall _ (mem_of_lookup hval)
    simpa [isUnique, hspace] using hentry
  have hbyte := hfrom out hmem _ ((@flipByte_lt bigEndian) hd)
  rw [hval, Option.getD_some, ← hback] at hbyte
  unfold byteOf at hbyte
  dsimp only at hbyte
  rwa [if_neg (not_le.mpr (flipByte_lt hd)), if_neg (h.not_const out hmem),
    if_neg (not_le.mpr (flipByte_lt hd)), if_neg (h.not_const out hmem), flipByte_flipByte hd,
    ← decide_eq_true_eq (p := from_ _ _ = _)] at hbyte

end Apart

/-! The claim on single instructions and on streams. -/

theorem isNop_noEffect_iff (bigEndian : String → Bool) (insn : Instruction)
    (mask : Option (List (BitVec 8))) :
    ((normalizeOneWithMask insn noReloc mask).isNop = true → NoEffect bigEndian insn.ops) ↔
      (pairsReturn insn.ops = true → bytesReturn bigEndian insn.ops = true) := by
  rw [isNop_eq, noEffect_iff]

/-- Where no two operands overlap in part, what passes for a no-op is one. -/
theorem Regular.isNop_noEffect {bigEndian : String → Bool} {insn : Instruction}
    {locs : List Emu.Varnode} (h : Regular insn.ops locs) (mask : Option (List (BitVec 8)))
    (hnop : (normalizeOneWithMask insn noReloc mask).isNop = true) :
    NoEffect bigEndian insn.ops :=
  (isNop_noEffect_iff bigEndian insn mask).mpr h.bytesReturn hnop

/-- An instruction with its mask, normalized. -/
def normalized (x : Instruction × Option (List (BitVec 8))) : NormInsn :=
  normalizeOneWithMask x.1 noReloc x.2

section Overlap

def eax : Emu.Varnode := ⟨"register", 0, 4⟩

def bl : Emu.Varnode := ⟨"register", 0xc, 1⟩

def copyOp (out src : Emu.Varnode) (h : out.space ≠ "const") : Emu.PcodeOp :=
  ⟨.copy, some out, [.var src], Emu.Varnode.out_space h⟩

/-- `EAX` is saved and put back. -/
theorem Regular.isNop_noEffect_saved : NoEffect (fun _ => false)
    [copyOp ⟨"unique", 0x100, 4⟩ eax (by decide), copyOp eax ⟨"unique", 0x100, 4⟩ (by decide)] := by
  refine @Regular.isNop_noEffect _ ⟨0x1000, [0x90], "MOV", "", _⟩ [eax, ⟨"unique", 0x100, 4⟩]
    ⟨fun op hop out src h => ?_, by decide, by decide, fun v hv w hw => ?_⟩ none
    ((isNop_eq _ _).trans (by decide))
  · rcases List.mem_pair.mp hop with rfl | rfl <;> obtain ⟨rfl, rfl⟩ := Prod.mk.inj (Option.some.inj h)
    all_goals exact ⟨by decide, _, rfl, rfl, .inr (by decide)⟩
  · rcases List.mem_pair.mp hv with rfl | rfl <;> rcases List.mem_pair.mp hw with rfl | rfl
    · exact .inl rfl
    · exact .inr fun h => absurd h (by decide)
    · exact .inr fun h => absurd h (by decide)
    · exact .inl rfl

end Overlap

end Recompile
end Mosura
