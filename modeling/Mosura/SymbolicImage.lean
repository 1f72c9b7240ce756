import Mosura.Symbolic
import Mosura.EmuMemory

/-! What a location holds, and what reading the image gives. -/

namespace Mosura
namespace Symbolic

open Lib

/-- The contents of every address space. -/
abbrev Bytes := String → U64 → BitVec 8

section Locations

variable (bigEndian : Bool) (σ : Bytes)

/-- The cell of byte `i` of a location, 0 being the least significant. -/
def place (v : Emu.Varnode) (i : ℕ) : U64 :=
  v.offset + BitVec.ofNat 64 (if bigEndian then v.size - 1 - i else i)

def bytesAt (v : Emu.Varnode) : List (BitVec 8) :=
  (List.range v.size).map fun i => σ v.space (place bigEndian v i)

def valueAt (v : Emu.Varnode) : ℕ :=
  if v.space = "const" then v.offset.toNat % 2 ^ (8 * v.size) else fromLe (bytesAt bigEndian σ v)

variable {bigEndian σ} {v : Emu.Varnode} {c n : ℕ}

theorem length_bytesAt : (bytesAt bigEndian σ v).length = v.size := by
  unfold bytesAt
  rw [List.length_map, List.length_range]

theorem valueAt_lt : valueAt bigEndian σ v < 2 ^ (8 * v.size) := by
  unfold valueAt
  split_ifs
  · exact Nat.mod_lt _ (Nat.two_pow_pos _)
  · have h := fromLe_lt (bytesAt bigEndian σ v)
    rwa [length_bytesAt, Emu.Machine.pow_bytes] at h

theorem valueAt_const (hv : v.space = "const") :
    valueAt bigEndian σ v = v.offset.toNat % 2 ^ (8 * v.size) := if_pos hv

/-- A location whose bytes are those of a number holds that number, cut to its width. -/
theorem valueAt_of_bytes (hv : v.space ≠ "const")
    (h : ∀ i < v.size, σ v.space (place bigEndian v i) = BitVec.ofNat 8 (c / 256 ^ i)) :
    valueAt bigEndian σ v = c % 2 ^ (8 * v.size) := by
  have hbytes : bytesAt bigEndian σ v = toLe v.size c := by
    apply List.ext_getElem
    · rw [length_bytesAt, length_toLe]
    · intro i hi _
      rw [length_bytesAt] at hi
      rw [getElem_toLe]
      simp only [bytesAt, List.getElem_map, List.getElem_range]
      exact h i hi
  unfold valueAt
  rw [if_neg hv, hbytes, fromLe_toLe, Emu.Machine.pow_bytes]

/-- Byte `i` of a location is byte `i` of its value. -/
theorem byte_of_valueAt (hv : v.space ≠ "const") {i : ℕ} (hi : i < v.size) :
    σ v.space (place bigEndian v i) = BitVec.ofNat 8 (valueAt bigEndian σ v / 256 ^ i) := by
  have hlen : i < (bytesAt bigEndian σ v).length := by rwa [length_bytesAt]
  have hdrop : (bytesAt bigEndian σ v).drop i =
      (bytesAt bigEndian σ v)[i] :: (bytesAt bigEndian σ v).drop (i + 1) :=
    List.drop_eq_getElem_cons hlen
  unfold valueAt
  rw [if_neg hv, fromLe_div hlen.le, hdrop]
  change _ = BitVec.ofNat 8 ((bytesAt bigEndian σ v)[i].toNat + 256 * fromLe _)
  apply BitVec.eq_of_toNat_eq
  simp only [bytesAt, List.getElem_map, List.getElem_range]
  rw [BitVec.toNat_ofNat, Nat.add_mul_mod_self_left]
  exact (Nat.mod_eq_of_lt (BitVec.isLt _)).symm

/-- A byte within the width does not see how far the number was cut. -/
theorem ofNat_byte_mod {i : ℕ} (hi : i < n) :
    BitVec.ofNat 8 (c % 2 ^ (8 * n) / 256 ^ i) = BitVec.ofNat 8 (c / 256 ^ i) := by
  apply BitVec.eq_of_toNat_eq
  rw [BitVec.toNat_ofNat, BitVec.toNat_ofNat]
  have hsplit : 2 ^ (8 * n) = 256 ^ i * 2 ^ (8 * (n - i)) := by
    rw [Emu.Machine.pow_bytes, ← pow_add]
    congr 1
    omega
  rw [hsplit, Nat.mod_mul_right_div_self]
  exact Nat.mod_mod_of_dvd _ (pow_dvd_pow 2 (by omega))

end Locations

namespace Memory

variable {m : Memory} {space : SpaceId} {o o' : U64} {b : MemoryBlock} {n : ℕ}

theorem contains_of_blockAt (h : m.blockAt ⟨space, o⟩ = some b) : b.Contains ⟨space, o⟩ := by
  have hfound := List.find?_some h
  simpa only [decide_eq_true_iff] using hfound

/-- The blocks before the found one start no later, so none of them reaches further on in it. -/
theorem blockAt_of_le (h : m.blockAt ⟨space, o⟩ = some b) (hle : o ≤ o') (hlast : o' ≤ b.last) :
    m.blockAt ⟨space, o'⟩ = some b := by
  have hb := contains_of_blockAt h
  unfold blockAt at h ⊢
  rw [List.find?_eq_some_iff_append] at h ⊢
  obtain ⟨hbo, before, after, hblocks, hbefore⟩ := h
  refine ⟨by simpa only [decide_eq_true_iff] using ⟨hb.1, BitVec.le_trans hb.2.1 hle, hlast⟩,
    before, after, hblocks, fun c hc => ?_⟩
  have hnot := hbefore c hc
  have horder := (List.pairwise_append.mp (hblocks ▸ m.sorted)).2.2 c hc b List.mem_cons_self
  simp only [Bool.not_eq_true', decide_eq_false_iff_not] at hnot ⊢
  intro hco
  refine hnot ⟨hco.1, ?_, BitVec.le_trans hle hco.2.2⟩
  rcases horder with hlt | ⟨-, hstart⟩
  · exact absurd (hco.1.symm.trans hb.1) (Nat.ne_of_lt hlt)
  · exact BitVec.le_trans hstart hb.2.1

theorem byteAt_eq (h : m.blockAt ⟨space, o⟩ = some b) :
    m.byteAt ⟨space, o⟩ = b.bytes.bind (·[(o - b.start.offset).toNat]?) := by
  unfold byteAt MemoryBlock.byteAt
  rw [h, Option.bind_some, if_pos (contains_of_blockAt h)]

theorem readBytes_spec {i : ℕ} (hlen : (m.readBytes space o n).length = n) (hi : i < n) :
    m.byteAt ⟨space, o + BitVec.ofNat 64 i⟩ = (m.readBytes space o n)[i]? := by
  induction n generalizing o i with
  | zero => exact absurd hi (Nat.not_lt_zero i)
  | succ n ih =>
    unfold readBytes at hlen ⊢
    cases hb : m.byteAt ⟨space, o⟩ with
    | none =>
      rw [hb] at hlen
      exact absurd hlen (Nat.succ_ne_zero n).symm
    | some byte =>
      rw [hb] at hlen
      cases i with
      | zero =>
        rw [show o + BitVec.ofNat 64 0 = o from BitVec.add_zero o, hb]
        rfl
      | succ i =>
        have hstep : o + BitVec.ofNat 64 (i + 1) = o + 1 + BitVec.ofNat 64 i := by
          rw [BitVec.add_assoc, BitVec.ofNat_add, BitVec.add_comm (BitVec.ofNat 64 i)]
          rfl
        rw [hstep]
        exact ih (Nat.succ.inj hlen) (Nat.lt_of_succ_lt_succ hi)

/-- A window read to its whole length is the bytes of the image, one by one. -/
theorem readWindow_spec {i : ℕ} (hlen : (m.readWindow ⟨space, o⟩ n).length = n) (hi : i < n) :
    m.byteAt ⟨space, o + BitVec.ofNat 64 i⟩ = (m.readWindow ⟨space, o⟩ n)[i]? := by
  unfold readWindow at hlen ⊢
  split at hlen
  · rename_i start last execute bytes le filled hblock
    dsimp only at hlen ⊢
    split_ifs at hlen ⊢
    · have hb := contains_of_blockAt hblock
      have hfill := filled bytes rfl
      have hstart : start.offset.toNat ≤ o.toNat := BitVec.le_def.mp hb.2.1
      have hlast : o.toNat ≤ last.toNat := BitVec.le_def.mp hb.2.2
      have hsub : (o - start.offset).toNat = o.toNat - start.offset.toNat :=
        BitVec.toNat_sub_of_le hb.2.1
      have hlt := last.isLt
      rw [List.length_take, List.length_drop, hsub] at hlen
      have hadd : (o + BitVec.ofNat 64 i).toNat = o.toNat + i := by
        rw [BitVec.toNat_add, BitVec.toNat_ofNat, Nat.add_mod_mod, Nat.mod_eq_of_lt (by omega)]
      have hle : o ≤ o + BitVec.ofNat 64 i := BitVec.le_def.mpr (by omega)
      have hle' : o + BitVec.ofNat 64 i ≤ last := BitVec.le_def.mpr (by omega)
      rw [byteAt_eq (blockAt_of_le hblock hle hle'), List.getElem?_take_of_lt hi,
        List.getElem?_drop, hsub]
      change bytes[(o + BitVec.ofNat 64 i - start.offset).toNat]? = _
      rw [BitVec.toNat_sub_of_le (BitVec.le_trans hb.2.1 hle), hadd]
      have hindex : o.toNat + i - start.offset.toNat = o.toNat - start.offset.toNat + i := by omega
      exact congrArg (bytes[·]?) hindex
    · exact readBytes_spec hlen hi
  · exact readBytes_spec hlen hi

end Memory

section Assemble

theorem assemble_little (bytes : List (BitVec 8)) (h : bytes.length ≤ 8) :
    assemble false bytes = BitVec.ofNat 64 (fromLe bytes) := by
  induction bytes using List.reverseRecOn with
  | nil => rfl
  | append_singleton bytes b ih =>
    rw [List.length_append, List.length_singleton] at h
    have hstep : assemble false (bytes ++ [b]) =
        assemble false bytes ||| b.setWidth 64 <<< (8 * bytes.length) := by
      unfold assemble
      rw [if_neg Bool.false_ne_true, if_neg Bool.false_ne_true, List.zipIdx_append,
        List.foldl_append, Nat.zero_add]
      rfl
    rw [hstep, ih (by omega), Emu.Machine.or_shiftLeft_byte (fromLe_lt bytes) (by omega),
      fromLe_append]
    change _ = BitVec.ofNat 64 (fromLe bytes + 256 ^ bytes.length * (b.toNat + 256 * 0))
    rw [Nat.mul_zero, Nat.add_zero]

/-- One more byte below a word of `n` bytes. -/
theorem shiftLeft_or_byte {X n : ℕ} (hX : X < 256 ^ n) (hn : n < 8) (b : BitVec 8) :
    BitVec.ofNat 64 X <<< 8 ||| b.setWidth 64 = BitVec.ofNat 64 (b.toNat + 256 * X) := by
  have hb := b.isLt
  have hpow : (256 : ℕ) ^ n ≤ 256 ^ 7 := Nat.pow_le_pow_right (by norm_num) (by omega)
  have hX' : (BitVec.ofNat 64 X).toNat = X := by
    rw [BitVec.toNat_ofNat, Nat.mod_eq_of_lt (by omega)]
  apply BitVec.eq_of_toNat_eq
  rw [BitVec.toNat_or, BitVec.toNat_shiftLeft, hX', BitVec.toNat_setWidth, BitVec.toNat_ofNat,
    Nat.mod_eq_of_lt (a := b.toNat) (by omega), Nat.shiftLeft_eq, Nat.mod_eq_of_lt (by omega),
    Nat.mod_eq_of_lt (by omega), ← Nat.shiftLeft_eq, ← Nat.shiftLeft_add_eq_or_of_lt hb,
    Nat.shiftLeft_eq]
  omega

theorem assemble_big (bytes : List (BitVec 8)) (h : bytes.length ≤ 8) :
    assemble true bytes = BitVec.ofNat 64 (fromLe bytes.reverse) := by
  induction bytes using List.reverseRecOn with
  | nil => rfl
  | append_singleton bytes b ih =>
    rw [List.length_append, List.length_singleton] at h
    have hlt := fromLe_lt bytes.reverse
    rw [List.length_reverse] at hlt
    have hstep : assemble true (bytes ++ [b]) = assemble true bytes <<< 8 ||| b.setWidth 64 := by
      unfold assemble
      rw [if_pos rfl, if_pos rfl, List.foldl_append]
      rfl
    rw [hstep, ih (by omega), shiftLeft_or_byte hlt (by omega), List.reverse_append]
    rfl

end Assemble

section Image

variable {p : Program} {ram : SpaceId} {σ : Bytes} {addr c : U64} {size : ℕ}

/-- The initialized bytes of the image are in the memory. -/
def Image (p : Program) (ram : SpaceId) (σ : Bytes) : Prop :=
  ∀ a b, p.memory.byteAt ⟨ram, a⟩ = some b → σ "ram" a = b

/-- What is read of the image is what the memory holds. -/
theorem readMemConst_sound (hσ : Image p ram σ) (h : readMemConst p ram addr size = .const c) :
    valueAt p.bigEndian σ ⟨"ram", addr, size⟩ = c.toNat := by
  unfold readMemConst at h
  dsimp only at h
  split_ifs at h with hsize hlen
  rw [not_not] at hlen
  have hc : assemble p.bigEndian (p.memory.readWindow ⟨ram, addr⟩ size) = c := by injection h
  have hbyte (i : ℕ) (hi : i < size) :
      (p.memory.readWindow ⟨ram, addr⟩ size)[i]? = some (σ "ram" (addr + BitVec.ofNat 64 i)) := by
    have hspec := Memory.readWindow_spec hlen hi
    have hget := List.getElem?_eq_getElem (hi.trans_eq hlen.symm)
    rw [hget] at hspec ⊢
    rw [hσ _ _ hspec]
  have hle : (p.memory.readWindow ⟨ram, addr⟩ size).length ≤ 8 := by omega
  have hlt {bytes : List (BitVec 8)} (hb : bytes.length = size) : fromLe bytes < 2 ^ 64 := by
    have h8 : (256 : ℕ) ^ size ≤ 256 ^ 8 := Nat.pow_le_pow_right (by norm_num) (by omega)
    have hf := fromLe_lt bytes
    rw [hb] at hf
    omega
  unfold valueAt
  rw [if_neg (show ¬ "ram" = "const" by decide), ← hc]
  cases hend : p.bigEndian with
  | false =>
    rw [assemble_little _ hle, BitVec.toNat_ofNat, Nat.mod_eq_of_lt (hlt hlen)]
    congr 1
    apply List.ext_getElem?
    intro i
    by_cases hi : i < size
    · rw [hbyte i hi]
      simp only [bytesAt, List.getElem?_map, List.getElem?_range hi, Option.map_some]
      rfl
    · rw [List.getElem?_eq_none (length_bytesAt.trans_le (not_lt.mp hi)),
        List.getElem?_eq_none (by omega)]
  | true =>
    have hrev : (p.memory.readWindow ⟨ram, addr⟩ size).reverse.length = size := by
      rw [List.length_reverse, hlen]
    rw [assemble_big _ hle, BitVec.toNat_ofNat, Nat.mod_eq_of_lt (hlt hrev)]
    congr 1
    apply List.ext_getElem?
    intro i
    by_cases hi : i < size
    · rw [List.getElem?_reverse (by omega), hlen, hbyte _ (by omega)]
      simp only [bytesAt, List.getElem?_map, List.getElem?_range hi, Option.map_some]
      rfl
    · rw [List.getElem?_eq_none (length_bytesAt.trans_le (not_lt.mp hi)),
        List.getElem?_eq_none (by rw [List.length_reverse]; omega)]

end Image
end Symbolic
end Mosura
