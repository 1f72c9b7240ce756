import Mosura.ConstFoldSound
import Mosura.Lib.LittleEndian

/-! What a location of the machine holds, at its whole width, and what reading and writing it do. -/

namespace Mosura
namespace Emu
namespace Machine

open Lib

variable (checks : Bool) (m : Machine)

/-- The cell of byte `i` of a location, 0 being the least significant. -/
def place (v : Varnode) (i : ℕ) : U64 :=
  m.bus v.space (v.offset + BitVec.ofNat 64 (if m.bigEndian v.space then v.size - 1 - i else i))

/-- The bytes of a location, least significant first. -/
def bytesAt (v : Varnode) : List (BitVec 8) :=
  (List.range v.size).map fun i => m.byte v.space (m.place v i)

/-- The value of a location, of any size. -/
def valueAt (v : Varnode) : ℕ :=
  if v.space = "const" then v.offset.toNat % 2 ^ (8 * v.size) else fromLe (m.bytesAt v)

/-- No address the interpreter computes for the location passes the end of the address space, in
a build that checks it. -/
def Fits (v : Varnode) : Prop :=
  checks = true → v.space ≠ "const" →
    v.offset.toNat + (if m.bigEndian v.space then v.size - 1 else min v.size 8 - 1) < 2 ^ 64

/-- The bytes of the location are different cells, also after the bus has decoded its address. -/
structure Placed (v : Varnode) : Prop where
  apart : ∀ i < v.size, ∀ j < v.size, m.place v i = m.place v j → i = j
  decoded : ∀ i < v.size, m.place { v with offset := m.bus v.space v.offset } i = m.place v i

variable {checks m} {v : Varnode}

theorem length_bytesAt : (m.bytesAt v).length = v.size := by
  unfold bytesAt
  rw [List.length_map, List.length_range]

theorem getElem_bytesAt {i : ℕ} (h : i < (m.bytesAt v).length) :
    (m.bytesAt v)[i] = m.byte v.space (m.place v i) := by
  simp only [bytesAt, List.getElem_map, List.getElem_range]

theorem pow_bytes (n : ℕ) : (256 : ℕ) ^ n = 2 ^ (8 * n) := by
  rw [Nat.pow_mul]

theorem valueAt_lt : m.valueAt v < 2 ^ (8 * v.size) := by
  unfold valueAt
  split_ifs
  · exact Nat.mod_lt _ (Nat.two_pow_pos _)
  · have h := fromLe_lt (m.bytesAt v)
    rwa [length_bytesAt, pow_bytes] at h

section Read

theorem byteAt_of_fits (hspace : v.space ≠ "const") (hf : m.Fits checks v) {i : ℕ}
    (hi : i < min v.size 8) : m.byteAt checks v.space v.offset v.size i = some (m.place v i) := by
  unfold byteAt
  refine if_neg fun h => ?_
  rw [Bool.and_eq_true, decide_eq_true_iff] at h
  have hle := hf h.1 hspace
  have hlt := h.2
  cases hb : m.bigEndian v.space <;>
    simp only [hb, if_true, Bool.false_eq_true, if_false] at hle hlt <;> omega

/-- Where an address passes the end, one of the bytes cannot be addressed. -/
theorem exists_byteAt_none (h0 : 0 < v.size) (hf : ¬ m.Fits checks v) :
    ∃ i < min v.size 8, m.byteAt checks v.space v.offset v.size i = none := by
  unfold Fits at hf
  push Not at hf
  obtain ⟨rfl, -, hle⟩ := hf
  refine ⟨if m.bigEndian v.space then 0 else min v.size 8 - 1, ?_, ?_⟩
  · split_ifs <;> omega
  · unfold byteAt
    refine if_pos ?_
    rw [Bool.true_and, decide_eq_true_iff]
    cases hb : m.bigEndian v.space <;>
      simp only [hb, if_true, Bool.false_eq_true, if_false, Nat.sub_zero] at hle ⊢ <;> exact hle

theorem foldlM_none {α β : Type} {f : β → α → Option β} {l : List α} {a : α} (ha : a ∈ l)
    (hf : ∀ b, f b a = none) (b : β) : l.foldlM f b = none := by
  induction l generalizing b with
  | nil => exact absurd ha List.not_mem_nil
  | cons x l ih =>
    rw [List.foldlM_cons]
    cases hx : f b x with
    | none => rfl
    | some b' =>
      have hne : a ≠ x := fun h => by rw [← h, hf] at hx; cases hx
      exact ih (List.mem_of_ne_of_mem hne ha) b'

/-- One more byte above a word of `n` bytes. -/
theorem or_shiftLeft_byte {X n : ℕ} (hX : X < 256 ^ n) (hn : n < 8) (b : BitVec 8) :
    BitVec.ofNat 64 X ||| b.setWidth 64 <<< (8 * n) = BitVec.ofNat 64 (X + 256 ^ n * b.toNat) := by
  have hb := b.isLt
  have hpow : (256 : ℕ) ^ n * 256 ≤ 2 ^ 64 := by
    rw [← pow_succ, pow_bytes]
    exact Nat.pow_le_pow_right two_pos (by omega)
  have hlt : 256 ^ n * b.toNat + 256 ^ n ≤ 2 ^ 64 := by nlinarith [Nat.pow_pos (n := n) (show 0 < 256 by norm_num)]
  have hshift : (b.setWidth 64 <<< (8 * n)).toNat = b.toNat <<< (8 * n) := by
    rw [BitVec.toNat_shiftLeft, BitVec.toNat_setWidth, Nat.mod_eq_of_lt (a := b.toNat) (by omega),
      Nat.shiftLeft_eq, ← pow_bytes, Nat.mul_comm, Nat.mod_eq_of_lt (by omega), Nat.mul_comm]
  apply BitVec.eq_of_toNat_eq
  rw [BitVec.toNat_or, hshift, BitVec.toNat_ofNat, BitVec.toNat_ofNat, Nat.mod_eq_of_lt (by omega),
    Nat.mod_eq_of_lt (by omega), Nat.or_comm,
    ← Nat.shiftLeft_add_eq_or_of_lt (by rw [← pow_bytes]; exact hX), Nat.shiftLeft_eq, ← pow_bytes,
    Nat.mul_comm, Nat.add_comm]

theorem foldlM_bytes (hspace : v.space ≠ "const") (hf : m.Fits checks v) {n : ℕ}
    (hn : n ≤ min v.size 8) :
    (List.range n).foldlM (fun w i => do
        return w ||| (m.byte v.space (← m.byteAt checks v.space v.offset v.size i)).setWidth 64 <<<
          (8 * i)) (0 : U64) = some (BitVec.ofNat 64 (fromLe ((m.bytesAt v).take n))) := by
  induction n with
  | zero => rfl
  | succ n ih =>
    have hlen : n < (m.bytesAt v).length := by rw [length_bytesAt]; omega
    have htake : ((m.bytesAt v).take n).length = n := List.length_take_of_le hlen.le
    have hlt := fromLe_lt ((m.bytesAt v).take n)
    rw [htake] at hlt
    rw [List.range_succ, List.foldlM_append, ih (by omega), List.take_succ_eq_append_getElem hlen,
      fromLe_append, htake, getElem_bytesAt]
    change ((m.byteAt checks v.space v.offset v.size n).bind fun a => some _) >>= _ = _
    rw [byteAt_of_fits hspace hf (by omega)]
    exact congrArg some (or_shiftLeft_byte hlt (by omega) _)

/-- The low eight bytes of a location are its value as a word. -/
theorem ofNat_take_bytesAt :
    BitVec.ofNat 64 (fromLe ((m.bytesAt v).take (min v.size 8))) =
      BitVec.ofNat 64 (fromLe (m.bytesAt v)) := by
  have hk : min v.size 8 ≤ (m.bytesAt v).length := by rw [length_bytesAt]; omega
  rw [← fromLe_mod hk]
  apply BitVec.eq_of_toNat_eq
  rw [BitVec.toNat_ofNat, BitVec.toNat_ofNat]
  by_cases h8 : v.size ≤ 8
  · have hlt := fromLe_lt (m.bytesAt v)
    rw [length_bytesAt] at hlt
    rw [min_eq_left h8, Nat.mod_eq_of_lt hlt]
  · rw [min_eq_right (by omega)]
    exact Nat.mod_mod _ _

/-- A read takes the low eight bytes of the value, if every address can be computed. -/
theorem read_eq_some_iff (h0 : 0 < v.size) {w : U64} :
    m.read checks v.space v.offset v.size = some w ↔
      m.Fits checks v ∧ BitVec.ofNat 64 (m.valueAt v) = w := by
  unfold read valueAt
  by_cases hspace : v.space = "const"
  · rw [if_pos hspace, if_pos hspace]
    have hmask : BitVec.ofNat 64 (v.offset.toNat % 2 ^ (8 * v.size)) = mask v.offset v.size := by
      apply BitVec.eq_of_toNat_eq
      have hle := Nat.mod_le v.offset.toNat (2 ^ (8 * v.size))
      rw [BitVec.toNat_ofNat, mask_eq _ h0, Rules.mask_toNat,
        Nat.mod_eq_of_lt (hle.trans_lt v.offset.isLt)]
    rw [hmask, Option.some.injEq]
    exact ⟨fun h => ⟨fun _ hne => absurd hspace hne, h⟩, fun h => h.2⟩
  · rw [if_neg hspace, if_neg hspace]
    by_cases hf : m.Fits checks v
    · rw [foldlM_bytes hspace hf le_rfl, ofNat_take_bytesAt, Option.some.injEq]
      exact ⟨fun h => ⟨hf, h⟩, fun h => h.2⟩
    · obtain ⟨i, hi, hnone⟩ := exists_byteAt_none h0 hf
      rw [foldlM_none (List.mem_range.mpr hi) fun w => by rw [hnone]; rfl]
      exact ⟨fun h => absurd h (by nofun), fun h => absurd h.1 hf⟩

end Read

section Write

theorem mapM_some {α β : Type} {f : α → Option β} {g : α → β} {l : List α}
    (h : ∀ a ∈ l, f a = some (g a)) : l.mapM f = some (l.map g) := by
  induction l with
  | nil => rfl
  | cons a l ih =>
    rw [List.mapM_cons, h a List.mem_cons_self, ih fun b hb => h b (List.mem_cons_of_mem _ hb)]
    rfl

theorem mapM_none {α β : Type} {f : α → Option β} {l : List α} {a : α} (ha : a ∈ l)
    (hf : f a = none) : l.mapM f = none := by
  induction l with
  | nil => exact absurd ha List.not_mem_nil
  | cons x l ih =>
    rw [List.mapM_cons]
    cases hx : f x with
    | none => rfl
    | some b =>
      have hne : a ≠ x := fun h => by rw [← h, hf] at hx; cases hx
      rw [ih (List.mem_of_ne_of_mem hne ha)]
      rfl

/-- The memory after the first `n` bytes of `value` went to the cells `cell 0`, `cell 1`, ... -/
def stored (bank : U64 → Option (BitVec 8)) (cell : ℕ → U64) (value : U64) (n : ℕ) :
    U64 → Option (BitVec 8) :=
  (((List.range n).map cell).zipIdx).foldl
    (fun bank (a, i) => Function.update bank a (some ((value >>> (8 * i)).setWidth 8))) bank

theorem stored_succ (bank : U64 → Option (BitVec 8)) (cell : ℕ → U64) (value : U64) (n : ℕ) :
    stored bank cell value (n + 1) =
      Function.update (stored bank cell value n) (cell n)
        (some ((value >>> (8 * n)).setWidth 8)) := by
  unfold stored
  rw [List.range_succ, List.map_append, List.zipIdx_append, List.foldl_append, List.length_map,
    List.length_range, Nat.zero_add]
  rfl

/-- The cell of a byte holds that byte. -/
theorem stored_cell (bank : U64 → Option (BitVec 8)) {cell : ℕ → U64} (value : U64) {n : ℕ}
    (hcell : ∀ i < n, ∀ j < n, cell i = cell j → i = j) {i : ℕ} (hi : i < n) :
    stored bank cell value n (cell i) = some ((value >>> (8 * i)).setWidth 8) := by
  induction n with
  | zero => exact absurd hi (Nat.not_lt_zero i)
  | succ n ih =>
    rw [stored_succ]
    by_cases h : i = n
    · rw [h, Function.update_self]
    · have hne : cell i ≠ cell n := fun he => h (hcell i hi n (Nat.lt_succ_self n) he)
      rw [Function.update_of_ne hne]
      exact ih (fun a ha b hb => hcell a (by omega) b (by omega)) (by omega)

/-- The other cells are left. -/
theorem stored_other (bank : U64 → Option (BitVec 8)) {cell : ℕ → U64} (value : U64) {n : ℕ} {a : U64}
    (ha : ∀ i < n, a ≠ cell i) : stored bank cell value n a = bank a := by
  induction n with
  | zero => rfl
  | succ n ih =>
    rw [stored_succ, Function.update_of_ne (ha n (Nat.lt_succ_self n))]
    exact ih fun i hi => ha i (by omega)

/-- The location as the bus decodes its address, which is the one a write starts from. -/
def decoded (m : Machine) (v : Varnode) : Varnode := { v with offset := m.bus v.space v.offset }

/-- `m'` is `m` with the low bytes of `value` stored at `v`, and perhaps an effect recorded. -/
structure Stores (m : Machine) (v : Varnode) (value : U64) (m' : Machine) : Prop where
  mem : m'.mem = Function.update m.mem v.space
    (stored (m.mem v.space) (m.place (m.decoded v)) value (min v.size 8))
  unwritten : m'.unwritten = m.unwritten
  bigEndian : m'.bigEndian = m.bigEndian
  addressMask : m'.addressMask = m.addressMask
  unmodeled : m'.unmodeled = m.unmodeled

/-- A write stores the low eight bytes, if every address can be computed. -/
theorem write_of_fits (hspace : v.space ≠ "const") (hf : m.Fits checks (m.decoded v)) (value : U64) :
    ∃ m', m.write checks v.space v.offset v.size value = some m' ∧ m.Stores v value m' := by
  have hcells : (List.range (min v.size 8)).mapM
      (m.byteAt checks v.space (m.bus v.space v.offset) v.size) =
      some ((List.range (min v.size 8)).map (m.place (m.decoded v))) :=
    mapM_some fun i hi => byteAt_of_fits (v := m.decoded v) hspace hf (List.mem_range.mp hi)
  unfold write
  rw [if_neg hspace]
  dsimp only
  rw [hcells]
  refine ⟨_, rfl, ?_⟩
  split_ifs <;> exact ⟨rfl, rfl, rfl, rfl, rfl⟩

theorem write_of_not_fits (hspace : v.space ≠ "const") (h0 : 0 < v.size)
    (hf : ¬ m.Fits checks (m.decoded v)) (value : U64) :
    m.write checks v.space v.offset v.size value = none := by
  obtain ⟨i, hi, hnone⟩ := exists_byteAt_none (v := m.decoded v) h0 hf
  have hcells : (List.range (min v.size 8)).mapM
      (m.byteAt checks v.space (m.bus v.space v.offset) v.size) = none :=
    mapM_none (List.mem_range.mpr hi) hnone
  unfold write
  rw [if_neg hspace]
  dsimp only
  rw [hcells]
  rfl

theorem Stores.place {m' : Machine} {value : U64} (h : m.Stores v value m') (u : Varnode) (i : ℕ) :
    m'.place u i = m.place u i := by
  unfold Machine.place bus
  rw [h.bigEndian, h.addressMask]

/-- The location holds the low eight bytes of the value, and the bytes past the eighth as before. -/
theorem Stores.bytesAt {m' : Machine} {value : U64} (h : m.Stores v value m') (hp : m.Placed v) :
    m'.bytesAt v = toLe (min v.size 8) value.toNat ++ (m.bytesAt v).drop (min v.size 8) := by
  have happ : ((m.bytesAt v).drop (min v.size 8)).length = v.size - min v.size 8 := by
    rw [List.length_drop, length_bytesAt]
  have hbyte (a : U64) : m'.byte v.space a =
      (stored (m.mem v.space) (m.place (m.decoded v)) value (min v.size 8) a).getD
        (m.unwritten v.space a) := by
    unfold Machine.byte
    rw [h.mem, h.unwritten, Function.update_self]
  have hcell : ∀ i < v.size, m.place (m.decoded v) i = m.place v i := hp.decoded
  apply List.ext_getElem
  · rw [List.length_append, length_toLe, happ, length_bytesAt]
    omega
  · intro i hi _
    rw [length_bytesAt] at hi
    rw [getElem_bytesAt, h.place, hbyte, ← hcell i hi]
    by_cases hk : i < min v.size 8
    · rw [stored_cell _ _ (fun a ha b hb he => ?_) hk, List.getElem_append_left (by rw [length_toLe]; exact hk),
        getElem_toLe]
      · apply BitVec.eq_of_toNat_eq
        change ((value >>> (8 * i)).setWidth 8).toNat = _
        rw [BitVec.toNat_setWidth, BitVec.toNat_ushiftRight, Nat.shiftRight_eq_div_pow, ← pow_bytes,
          BitVec.toNat_ofNat]
      · rw [hcell a (by omega), hcell b (by omega)] at he
        exact hp.apart a (by omega) b (by omega) he
    · rw [stored_other _ _ fun j hj he => ?_, List.getElem_append_right (by rw [length_toLe]; omega)]
      · simp only [length_toLe, List.getElem_drop, getElem_bytesAt,
          show min v.size 8 + (i - min v.size 8) = i by omega]
        rw [hcell i hi]
        rfl
      · rw [hcell i hi, hcell j (by omega)] at he
        have := hp.apart i hi j (by omega) he
        omega

theorem Stores.valueAt {m' : Machine} {value : U64} (h : m.Stores v value m')
    (hspace : v.space ≠ "const") (hp : m.Placed v) :
    m'.valueAt v = value.toNat % 2 ^ (8 * min v.size 8) +
      2 ^ (8 * min v.size 8) * (m.valueAt v / 2 ^ (8 * min v.size 8)) := by
  have hk : min v.size 8 ≤ (m.bytesAt v).length := by rw [length_bytesAt]; omega
  unfold Machine.valueAt
  rw [if_neg hspace, if_neg hspace, h.bytesAt hp, fromLe_append, fromLe_toLe, length_toLe, pow_bytes,
    ← pow_bytes, fromLe_div hk]

end Write


end Machine
end Emu
end Mosura
