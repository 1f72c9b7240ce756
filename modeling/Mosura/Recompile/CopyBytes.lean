import Mosura.Recompile.Insn

/-! What COPYs do to single bytes, and where each byte comes from. -/

namespace Mosura
namespace Recompile

open Emu (PArg)

section Copies

/- `β` is what a byte holds: its value, or where the value comes from. -/
variable {β : Type} (lit : BitVec 8 → β) (bigEndian : String → Bool)

/-- The bytes of each address space. -/
abbrev ByteMap (β : Type) := String → U64 → β

/-- How far from its offset byte `i` of a location lives, 0 being the least significant; and which
byte lives so far from it. -/
def flipByte (v : Emu.Varnode) (i : ℕ) : ℕ := if bigEndian v.space then v.size - 1 - i else i

/-- Byte `i` of an operand. -/
def byteOf (mem : ByteMap β) (i : ℕ) : PArg → β
  | .space _ => lit 0
  | .var v =>
    if v.size ≤ i then lit 0
    else if v.space = "const" then lit ((v.offset >>> (8 * i)).setWidth 8)
    else mem v.space (v.offset + BitVec.ofNat 64 (flipByte bigEndian v i))

/-- The bytes of `out` get those of `src`. -/
def copyTo (mem : ByteMap β) (out : Emu.Varnode) (src : PArg) : ByteMap β := fun space at_ =>
  if space = out.space ∧ (at_ - out.offset).toNat < out.size then
    byteOf lit bigEndian mem (flipByte bigEndian out (at_ - out.offset).toNat) src
  else mem space at_

/-- The location a COPY writes and the operand it reads. -/
def copyArgs (op : Emu.PcodeOp) : Option (Emu.Varnode × PArg) :=
  match op.opcode, op.out, op.ins.head? with
  | .copy, some out, some src => some (out, src)
  | _, _, _ => none

/-- The COPYs run one after the other; `none` where another operation is among them. -/
def runCopies (mem : ByteMap β) : List Emu.PcodeOp → Option (ByteMap β)
  | [] => some mem
  | op :: ops => (copyArgs op).bind fun (out, src) => runCopies (copyTo lit bigEndian mem out src) ops

end Copies

/-- Where the value of a byte comes from. -/
inductive Origin
  | at_ (space : String) (address : U64)
  | lit (b : BitVec 8)
  deriving DecidableEq

/-- The byte's value, where `mem` is what was there first. -/
def Origin.eval (mem : ByteMap (BitVec 8)) : Origin → BitVec 8
  | .at_ space address => mem space address
  | .lit b => b

/-- The origins of all bytes after the COPYs. -/
def origins (bigEndian : String → Bool) (ops : List Emu.PcodeOp) : Option (ByteMap Origin) :=
  runCopies .lit bigEndian .at_ ops

/-- Followed byte by byte, the COPYs bring every register and memory byte that they write back to
where it was. -/
def bytesReturn (bigEndian : String → Bool) (ops : List Emu.PcodeOp) : Bool :=
  (origins bigEndian ops).any fun from_ => ops.all fun op => op.out.all fun out =>
    out.space = "unique" || (List.range out.size).all fun d =>
      from_ out.space (out.offset + BitVec.ofNat 64 d) =
        .at_ out.space (out.offset + BitVec.ofNat 64 d)

/-- All operations are COPYs, and running them leaves every register and memory byte unchanged. -/
def NoEffect (bigEndian : String → Bool) (ops : List Emu.PcodeOp) : Prop :=
  ∀ mem : ByteMap (BitVec 8), ∃ mem', runCopies id bigEndian mem ops = some mem' ∧
    ∀ space ≠ "unique", mem' space = mem space

variable {bigEndian : String → Bool} {ops : List Emu.PcodeOp}

theorem byteOf_eval (mem : ByteMap (BitVec 8)) (from_ : ByteMap Origin) (i : ℕ) (src : PArg) :
    byteOf id bigEndian (fun space at_ => (from_ space at_).eval mem) i src =
      (byteOf .lit bigEndian from_ i src).eval mem := by
  cases src with
  | space s => rfl
  | var v =>
    unfold byteOf
    dsimp only
    split_ifs
    all_goals rfl

/-- Running on values is running on origins. -/
theorem runCopies_eval (mem : ByteMap (BitVec 8)) (from_ : ByteMap Origin) :
    runCopies id bigEndian (fun space at_ => (from_ space at_).eval mem) ops =
      (runCopies .lit bigEndian from_ ops).map fun from_ space at_ => (from_ space at_).eval mem := by
  induction ops generalizing from_ with
  | nil => rfl
  | cons op ops ih =>
    unfold runCopies
    cases copyArgs op with
    | none => rfl
    | some p =>
      obtain ⟨out, src⟩ := p
      rw [Option.bind_some, Option.bind_some]
      dsimp only
      rw [← ih]
      congr 1
      funext space at_
      unfold copyTo
      split_ifs
      · exact byteOf_eval mem from_ _ src
      · rfl

/-- A byte that no COPY writes stays. -/
theorem runCopies_frame {β : Type} {lit : BitVec 8 → β} {mem mem' : ByteMap β} {space : String}
    {at_ : U64} (h : runCopies lit bigEndian mem ops = some mem')
    (hout : ∀ op ∈ ops, ∀ out, op.out = some out → space = out.space →
      out.size ≤ (at_ - out.offset).toNat) : mem' space at_ = mem space at_ := by
  induction ops generalizing mem with
  | nil => rw [Option.some.inj h]
  | cons op ops ih =>
    obtain ⟨⟨out, src⟩, hargs, hrest⟩ := Option.bind_eq_some_iff.mp h
    have hop : op.out = some out := by
      unfold copyArgs at hargs
      split at hargs
      · rename_i hop _
        obtain ⟨rfl, -⟩ := Prod.mk.inj (Option.some.inj hargs)
        exact hop
      · cases hargs
    rw [ih hrest fun op hop => hout op (List.mem_cons_of_mem _ hop)]
    refine if_neg fun hin => ?_
    have := hout op List.mem_cons_self out hop hin.1
    omega

/-- Only a byte's own value is the same in every machine. -/
theorem Origin.eq_at_iff (o : Origin) (space : String) (at_ : U64) :
    o = .at_ space at_ ↔ ∀ mem : ByteMap (BitVec 8), o.eval mem = mem space at_ := by
  constructor
  · rintro rfl mem
    rfl
  · intro h
    cases o with
    | at_ space' at' =>
      have hsame := h fun s a => if s = space ∧ a = at_ then 1 else 0
      by_contra hne
      have hnot : ¬(space' = space ∧ at' = at_) := fun heq => hne (by rw [heq.1, heq.2])
      simp [Origin.eval, hnot] at hsame
    | lit b =>
      have hsame := h fun _ _ => b + 1
      simp [Origin.eval] at hsame

theorem noEffect_iff_origins : NoEffect bigEndian ops ↔
    ∃ from_, origins bigEndian ops = some from_ ∧ ∀ space ≠ "unique", ∀ at_,
      from_ space at_ = .at_ space at_ := by
  have hrun (mem : ByteMap (BitVec 8)) : runCopies id bigEndian mem ops =
      (origins bigEndian ops).map fun from_ space at_ => (from_ space at_).eval mem :=
    runCopies_eval mem .at_
  unfold NoEffect
  simp only [hrun]
  cases origins bigEndian ops with
  | none => simp
  | some from_ =>
    simp only [Option.map_some, Option.some.injEq, exists_eq_left']
    constructor
    · intro h space hspace at_
      exact (Origin.eq_at_iff _ _ _).mpr fun mem => congrFun (h mem space hspace) at_
    · intro h mem space hspace
      funext at_
      exact (Origin.eq_at_iff _ _ _).mp (h space hspace at_) mem

/-- The COPYs have no effect exactly when every byte returns. -/
theorem noEffect_iff : NoEffect bigEndian ops ↔ bytesReturn bigEndian ops = true := by
  rw [noEffect_iff_origins]
  unfold bytesReturn
  cases horigins : origins bigEndian ops with
  | none => simp
  | some from_ =>
    simp only [Option.some.injEq, exists_eq_left', Option.any_some, List.all_eq_true,
      Option.all_eq_true, Bool.or_eq_true, decide_eq_true_eq, List.mem_range]
    constructor
    · intro h op _ out _
      exact or_iff_not_imp_left.mpr fun hspace d _ => h out.space hspace _
    · intro h space hspace at_
      by_cases hwritten : ∃ op ∈ ops, ∃ out, op.out = some out ∧ space = out.space ∧
          (at_ - out.offset).toNat < out.size
      · obtain ⟨op, hop, out, hout, rfl, hlt⟩ := hwritten
        have hbyte := ((h op hop out hout).resolve_left hspace) _ hlt
        rwa [BitVec.ofNat_toNat, BitVec.setWidth_eq, add_sub_cancel] at hbyte
      · push Not at hwritten
        exact runCopies_frame horigins hwritten

end Recompile
end Mosura
