import Mosura.Join
import Mosura.Lib.Segments

/-! The pieces of a range of a logical value. -/

namespace Mosura

open Lib

/-- The bytes of a piece, from its address on. -/
def Piece.bytes (p : Piece) : List Address :=
  (List.range p.size.toNat).map fun k => ⟨p.addr.space, p.addr.offset + BitVec.ofNat 64 k⟩

/-- The piece does not run past the last offset of its space. -/
def Piece.Fits (p : Piece) : Prop := p.addr.offset.toNat + p.size.toNat ≤ 2 ^ 64

theorem Piece.length_bytes (p : Piece) : p.bytes.length = p.size.toNat := by
  rw [bytes, List.length_map, List.length_range]

/-- The bytes of a part of a piece. -/
theorem Piece.bytes_part {p : Piece} {a : ℕ} {size : BitVec 32} (h : a + size.toNat ≤ p.size.toNat) :
    Piece.bytes ⟨⟨p.addr.space, p.addr.offset + BitVec.ofNat 64 a⟩, size⟩ =
      (p.bytes.drop a).take size.toNat := by
  unfold bytes
  apply List.ext_getElem
  · rw [List.length_map, List.length_range, List.length_take, List.length_drop, List.length_map,
      List.length_range]
    change size.toNat = _
    omega
  · intro k hk hk'
    rw [List.getElem_take, List.getElem_drop, List.getElem_map, List.getElem_map,
      List.getElem_range, List.getElem_range, BitVec.ofNat_add, ← BitVec.add_assoc]

theorem length_flatMap_bytes (pieces : List Piece) :
    (pieces.flatMap Piece.bytes).length = totalSize pieces := by
  rw [length_flatMap_eq]
  unfold totalSize extent
  congr 1
  exact List.map_congr_left fun p _ => p.length_bytes

section Walk

variable {checks : Bool} {a b : U64}

theorem addU64_eq (h : checks = true → a.toNat + b.toNat < 2 ^ 64) :
    addU64 checks a b = some (a + b) := by
  unfold addU64
  cases checks with
  | false => rfl
  | true =>
    have hlt := h rfl
    rw [decide_eq_false (by omega)]
    rfl

theorem addU64_eq_some {c : U64} (h : addU64 checks a b = some c) : c = a + b := by
  unfold addU64 at h
  split_ifs at h
  exact (Option.some.inj h).symm

namespace JoinManager

/-- The pieces in the order of their bytes. -/
def memoryOrder (big : Bool) (pieces : List Piece) : List Piece :=
  if big then pieces else pieces.reverse

theorem inMemory_map_fst (big : Bool) (pieces : List Piece) :
    (inMemory big pieces).map Prod.fst = memoryOrder big pieces := by
  unfold inMemory memoryOrder
  cases big with
  | true => exact List.zipIdx_map_fst 0 pieces
  | false =>
    change (pieces.zipIdx.reverse).map Prod.fst = pieces.reverse
    rw [List.map_reverse, List.zipIdx_map_fst]

theorem totalSize_memoryOrder (big : Bool) (pieces : List Piece) :
    totalSize (memoryOrder big pieces) = totalSize pieces := by
  unfold memoryOrder
  split_ifs
  · rfl
  · exact extent_reverse pieces

theorem totalSize_map_fst (l : List (Piece × ℕ)) :
    totalSize (l.map Prod.fst) = extent (fun q => q.1.size.toNat) l := by
  unfold totalSize extent
  rw [List.map_map]
  rfl

/-- Where the walk stops the position is, and at its byte of the piece. -/
theorem walkPieces_sound {off : ℕ} {l : List (Piece × ℕ)} {addr : Address} {pos : ℕ}
    (h : walkPieces checks off l = some (some (addr, pos))) :
    ∃ pre p post, l = pre ++ (p, pos) :: post ∧ totalSize (pre.map Prod.fst) ≤ off ∧
      off < totalSize (pre.map Prod.fst) + p.size.toNat ∧
      addr = ⟨p.addr.space, p.addr.offset +
        BitVec.ofNat 64 (off - totalSize (pre.map Prod.fst))⟩ := by
  induction l generalizing off with
  | nil => cases h
  | cons q l ih =>
    obtain ⟨p, i⟩ := q
    unfold walkPieces at h
    split_ifs at h with hlt
    · obtain ⟨o, ho, heq⟩ := Option.map_eq_some_iff.mp h
      obtain ⟨rfl, rfl⟩ := Prod.mk.inj (Option.some.inj heq)
      refine ⟨[], p, l, rfl, Nat.zero_le _, ?_, ?_⟩
      · exact hlt.trans_eq (Nat.zero_add _).symm
      · rw [addU64_eq_some ho]
        rfl
    · obtain ⟨pre, p', post, rfl, hle, hlt', rfl⟩ := ih h
      have hsize : totalSize (((p, i) :: pre).map Prod.fst) =
        p.size.toNat + totalSize (pre.map Prod.fst) := extent_cons p _
      refine ⟨(p, i) :: pre, p', post, rfl, by omega, by omega, ?_⟩
      rw [hsize, Nat.sub_sub]

/-- A position in the pieces is found. -/
theorem walkPieces_total {off : ℕ} {l : List (Piece × ℕ)}
    (hfits : ∀ q ∈ l, checks = true → q.1.Fits) (h : off < totalSize (l.map Prod.fst)) :
    ∃ addr pos, walkPieces checks off l = some (some (addr, pos)) := by
  induction l generalizing off with
  | nil => exact absurd h (Nat.not_lt_zero off)
  | cons q l ih =>
    obtain ⟨p, i⟩ := q
    have hsize : totalSize (((p, i) :: l).map Prod.fst) =
      p.size.toNat + totalSize (l.map Prod.fst) := extent_cons p _
    unfold walkPieces
    by_cases hlt : off < p.size.toNat
    · have hadd : addU64 checks p.addr.offset (BitVec.ofNat 64 off) =
          some (p.addr.offset + BitVec.ofNat 64 off) := by
        refine addU64_eq fun hchecks => ?_
        have hp : p.addr.offset.toNat + p.size.toNat ≤ 2 ^ 64 := hfits _ List.mem_cons_self hchecks
        rw [BitVec.toNat_ofNat, Nat.mod_eq_of_lt (by omega)]
        omega
      rw [if_pos hlt, hadd]
      exact ⟨_, _, rfl⟩
    · rw [if_neg hlt]
      exact ih (fun q hq => hfits q (List.mem_cons_of_mem _ hq)) (by omega)

/-- A piece in the middle of the indexed pieces. -/
theorem zipIdx_split {pieces : List Piece} {pre post : List (Piece × ℕ)} {p : Piece} {i : ℕ}
    (h : pieces.zipIdx = pre ++ (p, i) :: post) : i = pre.length ∧ pieces[i]? = some p := by
  have hget : pieces.zipIdx[pre.length]? = some (p, i) := by
    rw [h, List.getElem?_append_right le_rfl, Nat.sub_self]
    rfl
  rw [List.getElem?_zipIdx, Nat.zero_add, Option.map_eq_some_iff] at hget
  obtain ⟨q, hq, heq⟩ := hget
  obtain ⟨rfl, rfl⟩ := Prod.mk.inj heq
  exact ⟨rfl, hq⟩

section Lists

variable {α : Type} (x y : α) (mid : List α) (f g : α → α)

theorem modify_last (l : List α) : (l ++ [y]).modify l.length g = l ++ [g y] := by
  induction l with
  | nil => rfl
  | cons z l ih =>
    change z :: (l ++ [y]).modify l.length g = _
    rw [ih]
    rfl

theorem length_ends : (x :: (mid ++ [y])).length - 1 = mid.length + 1 := by
  rw [List.length_cons, List.length_append]
  rfl

/-- The first and the last element, one after the other. -/
theorem modify_ends :
    ((x :: (mid ++ [y])).modify 0 f).modify (mid.length + 1) g = f x :: (mid ++ [g y]) := by
  change f x :: (mid ++ [y]).modify mid.length g = _
  rw [modify_last]

theorem modify_ends_reverse :
    ((x :: (mid ++ [y])).modify (mid.length + 1) g).modify 0 f = f x :: (mid ++ [g y]) := by
  change ((x :: (mid ++ [y]).modify mid.length g)).modify 0 f = _
  rw [modify_last]
  rfl

variable {x y mid}

/-- The elements from one to a later one. -/
theorem take_drop_between {l pre post : List α} {lo hi : ℕ}
    (h : l = pre ++ x :: (mid ++ y :: post)) (hlo : lo = pre.length)
    (hhi : hi = pre.length + (mid.length + 1)) :
    (l.drop lo).take (hi + 1 - lo) = x :: (mid ++ [y]) := by
  have hcount : hi + 1 - lo = (mid.length + 1) + 1 := by omega
  rw [hcount, hlo, h, List.drop_append_length, List.take_succ_cons, List.take_length_add_append]
  rfl

end Lists

/-- The first piece from byte `a` on. -/
def tailPiece (p : Piece) (a : ℕ) : Piece :=
  ⟨⟨p.addr.space, p.addr.offset + BitVec.ofNat 64 a⟩, p.size - BitVec.ofNat 32 a⟩

/-- The last piece up to its byte `c`. -/
def headPiece (p : Piece) (c : ℕ) : Piece := ⟨p.addr, BitVec.ofNat 32 (c + 1)⟩

theorem truncate_eq (a : U64) (n : ℕ) :
    (a + BitVec.ofNat 64 n - a).setWidth 32 = BitVec.ofNat 32 n := by
  rw [BitVec.add_comm, BitVec.add_sub_cancel]
  apply BitVec.eq_of_toNat_eq
  rw [BitVec.toNat_setWidth, BitVec.toNat_ofNat, BitVec.toNat_ofNat]
  omega

theorem truncateLast_eq (size : BitVec 32) (n : ℕ) :
    size - (size - BitVec.ofNat 32 n - 1) = BitVec.ofNat 32 (n + 1) := by
  rw [BitVec.ofNat_add]
  ring_nf
  exact BitVec.add_comm _ _

/-- The first piece of the cut and the last one, truncated; the first comes first in memory where
the most significant byte does. -/
theorem cutPieces_of_get {pieces : List Piece} {x y : Piece} {p1 p2 a c : ℕ}
    (hx : pieces[p1]? = some x) (hy : pieces[p2]? = some y) :
    cutPieces pieces ⟨x.addr.space, x.addr.offset + BitVec.ofNat 64 a⟩ p1
        ⟨y.addr.space, y.addr.offset + BitVec.ofNat 64 c⟩ p2 =
      (let cut := (pieces.drop (min p1 p2)).take (max p1 p2 + 1 - min p1 p2)
      let start := if p2 < p1 then cut.length - 1 else 0
      let stop := if p2 < p1 then 0 else cut.length - 1
      some ((cut.modify start fun p =>
        ⟨⟨x.addr.space, x.addr.offset + BitVec.ofNat 64 a⟩, p.size - BitVec.ofNat 32 a⟩).modify stop
          fun p => ⟨p.addr, p.size - (y.size - BitVec.ofNat 32 c - 1)⟩)) := by
  unfold cutPieces
  rw [hx, hy]
  dsimp only [Option.bind_eq_bind, Option.bind_some]
  rw [truncate_eq, truncate_eq]
  split_ifs <;> rfl

/-- Two pieces in the middle of the indexed pieces, and what lies between them. -/
theorem zipIdx_between {pieces : List Piece} {pre mid post : List (Piece × ℕ)} {x y : Piece}
    {i j : ℕ} (h : pieces.zipIdx = pre ++ (x, i) :: (mid ++ (y, j) :: post)) :
    i < j ∧ pieces[i]? = some x ∧ pieces[j]? = some y ∧
      (pieces.drop i).take (j + 1 - i) = x :: (mid.map Prod.fst ++ [y]) := by
  have h' : pieces.zipIdx = (pre ++ (x, i) :: mid) ++ (y, j) :: post := by
    rw [h, List.append_assoc]
    rfl
  obtain ⟨hi, hx⟩ := zipIdx_split h
  obtain ⟨hj, hy⟩ := zipIdx_split h'
  rw [List.length_append, List.length_cons] at hj
  have hpieces : pieces = pre.map Prod.fst ++ x :: (mid.map Prod.fst ++ y :: post.map Prod.fst) := by
    rw [← List.zipIdx_map_fst 0 pieces, h]
    simp only [List.map_append, List.map_cons]
  refine ⟨by omega, hx, hy, take_drop_between hpieces ?_ ?_⟩
  · rw [hi, List.length_map]
  · rw [hj, List.length_map, List.length_map]

/-- The pieces between two positions, the first and the last truncated. -/
theorem cutPieces_eq {big : Bool} {pieces : List Piece} {pre mid post : List (Piece × ℕ)}
    {x y : Piece} {p1 p2 : ℕ} (a c : ℕ)
    (h : inMemory big pieces = pre ++ (x, p1) :: (mid ++ (y, p2) :: post)) :
    p1 ≠ p2 ∧ ∃ cut,
      cutPieces pieces ⟨x.addr.space, x.addr.offset + BitVec.ofNat 64 a⟩ p1
        ⟨y.addr.space, y.addr.offset + BitVec.ofNat 64 c⟩ p2 = some cut ∧
      memoryOrder big cut = tailPiece x a :: (mid.map Prod.fst ++ [headPiece y c]) := by
  cases big with
  | true =>
    obtain ⟨hlt, hx, hy, hcut⟩ := zipIdx_between (h : pieces.zipIdx = _)
    refine ⟨hlt.ne, tailPiece x a :: (mid.map Prod.fst ++ [headPiece y c]), ?_, rfl⟩
    rw [cutPieces_of_get hx hy, min_eq_left hlt.le, max_eq_right hlt.le, hcut]
    dsimp only
    rw [if_neg hlt.not_gt, if_neg hlt.not_gt, length_ends, modify_ends, truncateLast_eq]
    rfl
  | false =>
    have hreverse : pieces.zipIdx =
        post.reverse ++ (y, p2) :: (mid.reverse ++ (x, p1) :: pre.reverse) := by
      have hidx : pieces.zipIdx.reverse = pre ++ (x, p1) :: (mid ++ (y, p2) :: post) := h
      rw [← List.reverse_reverse pieces.zipIdx, hidx]
      simp
    obtain ⟨hlt, hy, hx, hcut⟩ := zipIdx_between hreverse
    refine ⟨hlt.ne', headPiece y c :: (mid.reverse.map Prod.fst ++ [tailPiece x a]), ?_, ?_⟩
    · rw [cutPieces_of_get hx hy, min_eq_right hlt.le, max_eq_left hlt.le, hcut]
      dsimp only
      rw [if_pos hlt, if_pos hlt, length_ends, modify_ends_reverse, truncateLast_eq]
      rfl
    · change (headPiece y c :: (mid.reverse.map Prod.fst ++ [tailPiece x a])).reverse = _
      simp

theorem toNat_ofNat_32 {n : ℕ} (h : n < 2 ^ 32) : (BitVec.ofNat 32 n).toNat = n := by
  rw [BitVec.toNat_ofNat, Nat.mod_eq_of_lt h]

theorem tailPiece_bytes {p : Piece} {a : ℕ} (h : a < p.size.toNat) :
    (tailPiece p a).bytes = p.bytes.drop a ∧ (tailPiece p a).size.toNat = p.size.toNat - a := by
  have hlt := p.size.isLt
  have hsize : (tailPiece p a).size.toNat = p.size.toNat - a := by
    change (p.size - BitVec.ofNat 32 a).toNat = _
    rw [BitVec.toNat_sub, toNat_ofNat_32 (by omega)]
    omega
  refine ⟨?_, hsize⟩
  have hfits : a + (tailPiece p a).size.toNat ≤ p.size.toNat := by omega
  refine (Piece.bytes_part hfits).trans (List.take_of_length_le ?_)
  rw [List.length_drop, p.length_bytes, hsize]

theorem headPiece_bytes {p : Piece} {c : ℕ} (h : c < p.size.toNat) :
    (headPiece p c).bytes = p.bytes.take (c + 1) ∧ (headPiece p c).size.toNat = c + 1 := by
  have hlt := p.size.isLt
  have hsize : (headPiece p c).size.toNat = c + 1 := toNat_ofNat_32 (by omega)
  refine ⟨?_, hsize⟩
  have hfits : 0 + (headPiece p c).size.toNat ≤ p.size.toNat := by omega
  have hpart := Piece.bytes_part hfits
  rw [BitVec.add_zero, List.drop_zero, hsize] at hpart
  exact hpart

/-- The pieces are what a range of a record's bytes, from the `k`-th on, consists of. -/
structure Cut (big : Bool) (pieces : List Piece) (k : ℕ) (size : BitVec 32) (cut : List Piece) :
    Prop where
  ne_nil : cut ≠ []
  total : totalSize cut = size.toNat
  bytes : (memoryOrder big cut).flatMap Piece.bytes =
    (((memoryOrder big pieces).flatMap Piece.bytes).drop k).take size.toNat
  space : ∀ q ∈ cut, ∃ p ∈ pieces, q.addr.space = p.addr.space

theorem mem_memoryOrder (big : Bool) {pieces : List Piece} {p : Piece} :
    p ∈ memoryOrder big pieces ↔ p ∈ pieces := by
  unfold memoryOrder
  split_ifs
  · exact Iff.rfl
  · exact List.mem_reverse

theorem memoryOrder_singleton (big : Bool) (p : Piece) : memoryOrder big [p] = [p] := by
  cases big <;> rfl

/-- A range inside one piece. -/
theorem cut_inside {big : Bool} {pieces pre post : List Piece} {p : Piece} {a : ℕ}
    {size : BitVec 32} (h : memoryOrder big pieces = pre ++ p :: post)
    (hsize : a + size.toNat ≤ p.size.toNat) :
    Cut big pieces (totalSize pre + a) size
      [⟨⟨p.addr.space, p.addr.offset + BitVec.ofNat 64 a⟩, size⟩] where
  ne_nil := List.cons_ne_nil _ _
  total := Nat.add_zero _
  bytes := by
    rw [memoryOrder_singleton, h, ← length_flatMap_bytes, cut_one (by rwa [p.length_bytes]),
      List.flatMap_singleton]
    exact Piece.bytes_part hsize
  space := by
    intro q hq
    obtain rfl := List.mem_singleton.mp hq
    refine ⟨p, (mem_memoryOrder big).mp ?_, rfl⟩
    rw [h]
    exact List.mem_append_right _ List.mem_cons_self

/-- A range from a piece to a later one. -/
theorem cut_across {big : Bool} {pieces pre mid post cut : List Piece} {x y : Piece} {a c : ℕ}
    {size : BitVec 32} (h : memoryOrder big pieces = pre ++ x :: (mid ++ y :: post))
    (hcut : memoryOrder big cut = tailPiece x a :: (mid ++ [headPiece y c]))
    (ha : a < x.size.toNat) (hc : c < y.size.toNat)
    (hsize : size.toNat = x.size.toNat - a + (totalSize mid + (c + 1))) :
    Cut big pieces (totalSize pre + a) size cut where
  ne_nil := by
    rintro rfl
    cases big <;> cases hcut
  total := by
    rw [← totalSize_memoryOrder big, hcut, hsize]
    change extent _ (_ :: (_ ++ [_])) = _
    rw [extent_cons, extent_append, extent_cons, extent_nil, (tailPiece_bytes ha).2,
      (headPiece_bytes hc).2]
    rfl
  bytes := by
    have hrange := cut_two pre mid post
      (ha.le.trans_eq x.length_bytes.symm) ((Nat.succ_le_of_lt hc).trans_eq y.length_bytes.symm)
    rw [length_flatMap_bytes, length_flatMap_bytes, x.length_bytes] at hrange
    rw [hcut, h, hsize]
    refine Eq.trans ?_ hrange.symm
    rw [List.flatMap_cons, List.flatMap_append, List.flatMap_singleton, (tailPiece_bytes ha).1,
      (headPiece_bytes hc).1]
  space := by
    intro q hq
    have hmem := (mem_memoryOrder big).mpr hq
    rw [hcut] at hmem
    have hin : ∀ p ∈ pre ++ x :: (mid ++ y :: post), p ∈ pieces := fun p hp =>
      (mem_memoryOrder big).mp (h ▸ hp)
    obtain rfl | hmem := List.mem_cons.mp hmem
    · exact ⟨x, hin x (by simp), rfl⟩
    · obtain hmem | hmem := List.mem_append.mp hmem
      · exact ⟨q, hin q (by simp [hmem]), rfl⟩
      · obtain rfl := List.mem_singleton.mp hmem
        exact ⟨y, hin y (by simp), rfl⟩

/-- The walks to the first and the last byte of a range give its pieces. -/
theorem cut_of_walks {big : Bool} {pieces : List Piece} {k p1 p2 : ℕ} {size : BitVec 32}
    {first last : Address} (hsize : size ≠ 0)
    (h1 : walkPieces checks k (inMemory big pieces) = some (some (first, p1)))
    (h2 : walkPieces checks (k + (size.toNat - 1)) (inMemory big pieces) =
      some (some (last, p2))) :
    ∃ cut, (if p1 = p2 then some (some [⟨first, size⟩])
      else (cutPieces pieces first p1 last p2).map some) = some (some cut) ∧
      Cut big pieces k size cut := by
  have hpos : 0 < size.toNat := Nat.pos_of_ne_zero fun h => hsize (BitVec.eq_of_toNat_eq h)
  obtain ⟨pre, x, post, hl, hle, hlt, rfl⟩ := walkPieces_sound h1
  obtain ⟨pre', y, post', hl', hle', hlt', rfl⟩ := walkPieces_sound h2
  have hk : totalSize (pre.map Prod.fst) + (k - totalSize (pre.map Prod.fst)) = k := by omega
  obtain ⟨rfl, heq, rfl⟩ | ⟨mid, rfl, rfl⟩ := segments_le hl hl'
    (totalSize_map_fst pre ▸ hle) (totalSize_map_fst pre' ▸ hlt') (Nat.le_add_right k _)
  · obtain ⟨rfl, rfl⟩ := Prod.mk.inj heq
    have horder := inMemory_map_fst big pieces
    rw [hl, List.map_append, List.map_cons] at horder
    dsimp only at horder
    have hin : k - totalSize (pre.map Prod.fst) + size.toNat ≤ x.size.toNat := by omega
    have hcut := cut_inside horder.symm hin
    rw [hk] at hcut
    exact ⟨_, if_pos rfl, hcut⟩
  · have hsizes : totalSize ((pre ++ (x, p1) :: mid).map Prod.fst) =
        totalSize (pre.map Prod.fst) + (x.size.toNat + totalSize (mid.map Prod.fst)) := by
      rw [totalSize_map_fst, extent_append, extent_cons, totalSize_map_fst, totalSize_map_fst]
    obtain ⟨hne, cut, hcut, hmemory⟩ := cutPieces_eq (k - totalSize (pre.map Prod.fst))
      (k + (size.toNat - 1) - totalSize ((pre ++ (x, p1) :: mid).map Prod.fst)) hl
    have horder := inMemory_map_fst big pieces
    rw [hl, List.map_append, List.map_cons, List.map_append, List.map_cons] at horder
    dsimp only at horder
    have hbytes : size.toNat = x.size.toNat - (k - totalSize (pre.map Prod.fst)) +
        (totalSize (mid.map Prod.fst) +
          (k + (size.toNat - 1) - totalSize ((pre ++ (x, p1) :: mid).map Prod.fst) + 1)) := by
      omega
    have hacross := cut_across horder.symm hmemory (by omega) (by omega) hbytes
    rw [hk] at hacross
    refine ⟨cut, ?_, hacross⟩
    rw [if_neg hne, hcut]
    rfl

end JoinManager

end Walk

end Mosura
