import Mosura.Image

/-! Disassembling a stretch of bytes, one instruction after the other (`sleigh/engine.rs`). -/

namespace Mosura
namespace Emu

/-- What the bytes at an address decode to; `length` is that of the whole instruction, with the slot
of a delayed branch. -/
structure Piece where
  length : ℕ
  mnemonic : String
  body : String
  ops : List PcodeOp
  length_pos : 0 < length

/-- How a language decodes the instruction at the start of the bytes that are left. -/
abbrev Decoder := List (BitVec 8) → U64 → Option Piece

/-- The bytes an instruction of this length covers; a cut one is padded with zeros. -/
def cover (bytes : List (BitVec 8)) (length : ℕ) : List (BitVec 8) :=
  bytes.take length ++ List.replicate (length - bytes.length) 0

@[simp]
theorem length_cover (bytes : List (BitVec 8)) (length : ℕ) :
    (cover bytes length).length = length := by
  simp only [cover, List.length_append, List.length_take, List.length_replicate]
  omega

theorem cover_getD (bytes : List (BitVec 8)) (length : ℕ) {i : ℕ} (hi : i < length) :
    (cover bytes length).getD i 0 = bytes.getD i 0 := by
  unfold cover
  by_cases h : i < bytes.length
  · rw [List.getD_append _ _ _ _ (by rw [List.length_take]; omega)]
    simp [List.getD_eq_getElem?_getD, hi]
  · have hlen : bytes.length ≤ i := not_lt.mp h
    have hrep : i - (bytes.take length).length < length - bytes.length := by
      rw [List.length_take]
      omega
    rw [List.getD_append_right _ _ _ _ (by rw [List.length_take]; omega),
      List.getD_replicate _ hrep, List.getD_eq_default _ _ hlen]

/-- The instruction `piece` at the start of `bytes`. -/
def Piece.toInstruction (piece : Piece) (bytes : List (BitVec 8)) (addr : U64) : Instruction where
  address := addr
  bytes := cover bytes piece.length
  mnemonic := piece.mnemonic
  body := piece.body
  ops := piece.ops

namespace Decoder

variable (decode : Decoder)

/-- The loop of `disassemble_ctx`; the first argument is at least the number of bytes. -/
def disassembleFrom : ℕ → List (BitVec 8) → U64 → List Instruction
  | 0, _, _ => []
  | n + 1, bytes, addr =>
    if bytes.isEmpty then []
    else
      match decode bytes addr with
      | none => []
      | some piece =>
        piece.toInstruction bytes addr ::
          disassembleFrom n (bytes.drop piece.length) (addr + BitVec.ofNat 64 piece.length)

/-- `disassemble_ctx`: instructions up to the end of the bytes or the first that do not decode. -/
def disassemble (bytes : List (BitVec 8)) (base : U64) : List Instruction :=
  disassembleFrom decode bytes.length bytes base

/-- The bytes of a stream. -/
def flat (insns : List Instruction) : List (BitVec 8) := insns.flatMap Instruction.bytes

/-- Instructions decoded one after the other from the start of `bytes`. -/
inductive Sweep : List (BitVec 8) → U64 → List Instruction → Prop
  | nil (bytes : List (BitVec 8)) (addr : U64) : Sweep bytes addr []
  | cons {bytes : List (BitVec 8)} {addr : U64} {piece : Piece} {insns : List Instruction} :
      bytes ≠ [] → decode bytes addr = some piece →
      Sweep (bytes.drop piece.length) (addr + BitVec.ofNat 64 piece.length) insns →
      Sweep bytes addr (piece.toInstruction bytes addr :: insns)

variable {decode}

/-- The beginning of what is disassembled is decoded one after the other. -/
theorem sweep_of_prefix {n : ℕ} {bytes : List (BitVec 8)} {addr : U64} {insns : List Instruction}
    (h : insns <+: disassembleFrom decode n bytes addr) : Sweep decode bytes addr insns := by
  induction n generalizing bytes addr insns with
  | zero =>
    obtain rfl := List.prefix_nil.mp h
    exact .nil _ _
  | succ n ih =>
    unfold disassembleFrom at h
    split_ifs at h with hempty
    · obtain rfl := List.prefix_nil.mp h
      exact .nil _ _
    · split at h
      · obtain rfl := List.prefix_nil.mp h
        exact .nil _ _
      · rename_i piece hpiece
        obtain rfl | ⟨rest, rfl, hrest⟩ := List.prefix_cons_iff.mp h
        · exact .nil _ _
        · refine .cons ?_ hpiece (ih hrest)
          rintro rfl
          exact hempty rfl

namespace Sweep

variable {bytes : List (BitVec 8)} {addr : U64} {insns : List Instruction}

theorem flat_getD (h : Sweep decode bytes addr insns) {i : ℕ} (hi : i < (flat insns).length) :
    (flat insns).getD i 0 = bytes.getD i 0 := by
  induction h generalizing i with
  | nil => exact absurd hi (Nat.not_lt_zero i)
  | @cons bytes addr piece insns hne hpiece hrest ih =>
    change (cover bytes piece.length ++ flat insns).getD i 0 = _
    by_cases hlt : i < piece.length
    · rw [List.getD_append _ _ _ _ (by rwa [length_cover]), cover_getD _ _ hlt]
    · have hle : piece.length ≤ i := not_lt.mp hlt
      change i < (cover bytes piece.length ++ flat insns).length at hi
      rw [List.length_append, length_cover] at hi
      rw [List.getD_append_right _ _ _ _ (by rwa [length_cover]), length_cover, ih (by omega)]
      simp only [List.getD_eq_getElem?_getD, List.getElem?_drop]
      rw [Nat.add_sub_cancel' hle]

/-- A stream that is not cut covers the bytes as they are. -/
theorem flat_eq_take (h : Sweep decode bytes addr insns) (hle : (flat insns).length ≤ bytes.length) :
    flat insns = bytes.take (flat insns).length := by
  apply List.ext_getElem
  · rw [List.length_take]
    omega
  · intro i hi hi'
    have hget := h.flat_getD hi
    rw [List.getD_eq_getElem _ _ hi, List.getD_eq_getElem _ _ (by omega)] at hget
    rw [hget, List.getElem_take]

/-- A stream ends where its bytes do. -/
theorem end_eq (h : Sweep decode bytes addr insns) {insn : Instruction}
    (hlast : insns.getLast? = some insn) :
    insn.next = addr + BitVec.ofNat 64 (flat insns).length := by
  induction h with
  | nil => cases hlast
  | @cons bytes addr piece insns hne hpiece hrest ih =>
    have hflat : (flat (piece.toInstruction bytes addr :: insns)).length =
        piece.length + (flat insns).length := by
      change (cover bytes piece.length ++ flat insns).length = _
      rw [List.length_append, length_cover]
    rw [hflat, BitVec.ofNat_add, ← BitVec.add_assoc]
    cases insns with
    | nil =>
      obtain rfl := Option.some.inj hlast
      change addr + BitVec.ofNat 64 (cover bytes piece.length).length = _
      rw [length_cover]
      exact (BitVec.add_zero _).symm
    | cons x xs =>
      rw [List.getLast?_cons_cons] at hlast
      exact ih hlast

theorem flat_ne_nil (h : Sweep decode bytes addr insns) (hne : insns ≠ []) : flat insns ≠ [] := by
  cases h with
  | nil => exact absurd rfl hne
  | @cons _ _ piece rest _ hpiece _ =>
    intro hnil
    have hlen := congrArg List.length hnil
    change (cover bytes piece.length ++ flat rest).length = 0 at hlen
    rw [List.length_append, length_cover] at hlen
    exact absurd piece.length_pos (by omega)

end Sweep

/-- An instruction is a function of its own bytes and its address: two buffers that agree on the
bytes of what they decode to, and go on where the shorter of the two ends, decode to the same. -/
def Local (decode : Decoder) : Prop :=
  ∀ (bytes₁ bytes₂ : List (BitVec 8)) (addr : U64) (piece₁ piece₂ : Piece),
    decode bytes₁ addr = some piece₁ → decode bytes₂ addr = some piece₂ →
    (∀ i < max piece₁.length piece₂.length, bytes₁.getD i 0 = bytes₂.getD i 0) →
    (piece₁.length < piece₂.length → piece₁.length < bytes₁.length) →
    (piece₂.length < piece₁.length → piece₂.length < bytes₂.length) → piece₁ = piece₂

/-- Streams with the same bytes are the same. -/
theorem Sweep.eq_of_flat (hlocal : Local decode) {bytes₁ bytes₂ : List (BitVec 8)} {addr : U64}
    {insns₁ insns₂ : List Instruction} (h₁ : Sweep decode bytes₁ addr insns₁)
    (h₂ : Sweep decode bytes₂ addr insns₂) (hflat : flat insns₁ = flat insns₂) :
    insns₁ = insns₂ := by
  induction h₁ generalizing bytes₂ insns₂ with
  | nil =>
    by_contra hne
    exact h₂.flat_ne_nil (Ne.symm hne) hflat.symm
  | @cons bytes₁ addr piece₁ rest₁ hne₁ hpiece₁ hrest₁ ih =>
    have hsweep₁ : Sweep decode bytes₁ addr (piece₁.toInstruction bytes₁ addr :: rest₁) :=
      .cons hne₁ hpiece₁ hrest₁
    cases h₂ with
    | nil => exact absurd hflat (hsweep₁.flat_ne_nil (List.cons_ne_nil _ _))
    | @cons _ _ piece₂ rest₂ hne₂ hpiece₂ hrest₂ =>
      have hsweep₂ : Sweep decode bytes₂ addr (piece₂.toInstruction bytes₂ addr :: rest₂) :=
        .cons hne₂ hpiece₂ hrest₂
      have hflat' : cover bytes₁ piece₁.length ++ flat rest₁ =
          cover bytes₂ piece₂.length ++ flat rest₂ := hflat
      have hlen : piece₁.length + (flat rest₁).length = piece₂.length + (flat rest₂).length := by
        simpa only [List.length_append, length_cover] using congrArg List.length hflat'
      -- the buffers agree as far as the streams go
      have hagree : ∀ i < piece₁.length + (flat rest₁).length,
          bytes₁.getD i 0 = bytes₂.getD i 0 := by
        intro i hi
        have hi₁ : i < (flat (piece₁.toInstruction bytes₁ addr :: rest₁)).length := by
          change i < (cover bytes₁ piece₁.length ++ flat rest₁).length
          rwa [List.length_append, length_cover]
        rw [← hsweep₁.flat_getD hi₁, hflat]
        exact hsweep₂.flat_getD (hflat ▸ hi₁)
      have hmore : ∀ {bytes : List (BitVec 8)} {rest : List Instruction} {n : ℕ} {a : U64},
          Sweep decode (bytes.drop n) a rest → (flat rest).length ≠ 0 → n < bytes.length := by
        intro bytes rest n a hrest hne
        cases hrest with
        | nil => exact absurd rfl hne
        | cons hdrop _ _ =>
          by_contra hle
          exact hdrop (List.drop_eq_nil_of_le (not_lt.mp hle))
      obtain rfl : piece₁ = piece₂ := by
        refine hlocal bytes₁ bytes₂ addr piece₁ piece₂ hpiece₁ hpiece₂
          (fun i hi => hagree i (by omega)) (fun hlt => hmore hrest₁ ?_)
          (fun hlt => hmore hrest₂ ?_)
        · omega
        · omega
      obtain ⟨hcover, hrest⟩ := List.append_inj hflat' (by simp only [length_cover])
      rw [ih hrest₂ hrest]
      unfold Piece.toInstruction
      rw [hcover]

end Decoder
end Emu
end Mosura
