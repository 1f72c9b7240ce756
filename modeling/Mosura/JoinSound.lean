import Mosura.JoinRecords

/-! A subrange of a logical value keeps its bytes. -/

namespace Mosura

open Lib

namespace JoinManager

variable {checks : Bool} {m m' : JoinManager} {pieces : List Piece} {size s : BitVec 32}
  {addr : Address} {r : JoinRecord}

/-- The physical bytes of a record, in the order of memory. -/
def bytesOf (m : JoinManager) (r : JoinRecord) : List Address :=
  (memoryOrder ((m.orderOf r.pieces).getD false) r.pieces).flatMap Piece.bytes

/-- Byte `i` of the storage at an address is the physical byte `b`. -/
inductive ByteAt (m : JoinManager) (a : Address) (i : ℕ) (b : Address) : Prop
  | physical : m.join ≠ some a.space → b = ⟨a.space, a.offset + BitVec.ofNat 64 i⟩ → ByteAt m a i b
  | logical (r : JoinRecord) : r ∈ m.joins → r.Holds a →
    a.offset.toNat + i < r.addr.offset.toNat + r.size.toNat →
      (m.bytesOf r)[a.offset.toNat - r.addr.offset.toNat + i]? = some b → ByteAt m a i b

/-- A byte of the storage at an address is one physical byte. -/
theorem Interned.byteAt_unique (hm : Interned m) {a b b' : Address} {i : ℕ} (h : ByteAt m a i b)
    (h' : ByteAt m a i b') : b = b' := by
  cases h with
  | physical hout hb =>
    cases h' with
    | physical _ hb' => rw [hb, hb']
    | logical r hr hold _ _ => exact absurd (hold.space ▸ hm.space r hr) hout
  | logical r hr hold _ hget =>
    cases h' with
    | physical hout _ => exact absurd (hold.space ▸ hm.space r hr) hout
    | logical r' hr' hold' _ hget' =>
      obtain rfl := hm.eq_of_holds hr hr' hold hold'
      exact Option.some.inj (hget.symm.trans hget')

/-- The pieces are storage outside the join space, of one byte order. -/
structure Physical (checks : Bool) (m : JoinManager) (r : JoinRecord) (big : Bool) : Prop where
  outside : ∀ p ∈ r.pieces, m.join ≠ some p.addr.space
  order : ∀ p ∈ r.pieces, m.bigEndian[p.addr.space]? = some big
  fits : ∀ p ∈ r.pieces, checks = true → p.Fits

/-- The range lies inside the record and, where that has one piece only, inside the piece. -/
structure Subrange (r : JoinRecord) (addr : Address) (size : BitVec 32) : Prop where
  space : r.addr.space = addr.space
  start : r.addr.offset ≤ addr.offset
  stop : addr.offset.toNat + size.toNat ≤ r.addr.offset.toNat + r.size.toNat
  pos : 0 < size.toNat
  backed : r.pieces.length = 1 →
    addr.offset.toNat + size.toNat ≤ r.addr.offset.toNat + totalSize r.pieces

theorem orderOf_eq {big : Bool} (hnil : pieces ≠ [])
    (h : ∀ p ∈ pieces, m.bigEndian[p.addr.space]? = some big) : m.orderOf pieces = some big := by
  obtain ⟨p, pieces, rfl⟩ := List.exists_cons_of_ne_nil hnil
  exact h p List.mem_cons_self

theorem bytesOf_eq {big : Bool} (h : m.orderOf r.pieces = some big) :
    m.bytesOf r = (memoryOrder big r.pieces).flatMap Piece.bytes := by
  rw [bytesOf, h]
  rfl

theorem Subrange.holds (h : Subrange r addr size) : r.Holds addr where
  space := h.space
  start := h.start
  stop := by
    have hstop := h.stop
    have hpos := h.pos
    omega

/-- Where the byte orders of other spaces are as before, so is the order of the pieces. -/
theorem Allocated.bigEndian_eq (h : Allocated m m' r) {space : SpaceId} {big : Bool}
    (hout : m.join ≠ some space) (hbig : m.bigEndian[space]? = some big) :
    m'.bigEndian[space]? = some big := by
  have hlt : space < m.bigEndian.length := (List.getElem?_eq_some_iff.mp hbig).1
  rw [h.bigEndian]
  change (m.withJoin.set m.joinSpace _)[space]? = _
  have hne : m.joinSpace ≠ space := by
    unfold joinSpace
    cases hjoin : m.join with
    | none => exact hlt.ne'
    | some s => exact fun heq => hout (hjoin.trans (congrArg some heq))
  rw [List.getElem?_set_ne hne]
  unfold withJoin
  split_ifs
  · exact hbig
  · rw [List.getElem?_append_left hlt, hbig]

/-- A legal call with room for the value returns. -/
theorem findAddJoin_total (h : logicalSize checks pieces size = some s)
    (hroom : m.joinAllocate.toNat + (roundedSize s).toNat < 2 ^ 64) :
    ∃ a m', m.findAddJoin checks pieces size = some (a, m') := by
  unfold findAddJoin
  rw [h]
  dsimp only [Option.bind_eq_bind, Option.bind_some]
  cases m.joins.find? fun r => r.pieces = pieces ∧ r.size = s with
  | some r => exact ⟨_, _, rfl⟩
  | none =>
    dsimp only
    rw [addU64_eq fun _ => hroom]
    exact ⟨_, _, rfl⟩

/-- Several pieces are a value of their total size. -/
theorem logicalSize_several (hnil : pieces ≠ []) (hone : pieces.length ≠ 1)
    (htotal : totalSize pieces = size.toNat) (hpos : 0 < size.toNat) :
    logicalSize checks pieces 0 = some size := by
  have hlt := size.isLt
  have hne : size ≠ 0 := by
    rintro rfl
    exact absurd hpos (Nat.lt_irrefl 0)
  have hsum : sumSizes checks pieces = some size := by
    unfold sumSizes
    rw [htotal, decide_eq_false (by omega), Bool.and_false, BitVec.ofNat_toNat, BitVec.setWidth_eq]
    rfl
  unfold logicalSize
  rw [if_neg hnil, if_neg fun h => hone h.1, if_neg fun h => h.1 rfl]
  change ((sumSizes checks pieces).bind fun s => if s = 0 then none else some s) = _
  rw [hsum, Option.bind_some, if_neg hne]

/-- Byte `i` of a record that was just made, or found. -/
theorem byteAt_start {big : Bool} {i : ℕ} {b : Address} (hr : r ∈ m.joins)
    (hbig : m.orderOf r.pieces = some big) (hi : i < r.size.toNat)
    (hb : ((memoryOrder big r.pieces).flatMap Piece.bytes)[i]? = some b) :
    ByteAt m r.addr i b := by
  refine .logical r hr ⟨rfl, BitVec.le_refl _, by omega⟩ (by omega) ?_
  rw [bytesOf_eq hbig, Nat.sub_self, Nat.zero_add]
  exact hb

/-- A value of several pieces that is interned has the bytes of the pieces. -/
theorem findAddJoin_bytes {big : Bool} {a : Address}
    (hcall : m.findAddJoin checks pieces 0 = some (a, m'))
    (hsize : logicalSize checks pieces 0 = some size)
    (hout : ∀ p ∈ pieces, m.join ≠ some p.addr.space)
    (hbig : ∀ p ∈ pieces, m.bigEndian[p.addr.space]? = some big) {i : ℕ} {b : Address}
    (hi : i < size.toNat) (hb : ((memoryOrder big pieces).flatMap Piece.bytes)[i]? = some b) :
    ByteAt m' a i b := by
  obtain ⟨hnil, -, -⟩ := logicalSize_eq_some hsize
  obtain ⟨s, hs, hcases⟩ := findAddJoin_cases hcall
  obtain rfl : size = s := Option.some.inj (hsize.symm.trans hs)
  obtain ⟨r, hr, ⟨rfl, rfl⟩, rfl, rfl⟩ | ⟨-, halloc⟩ := hcases
  · exact byteAt_start hr (orderOf_eq hnil hbig) hi hb
  · have hmem : ⟨pieces, a, size⟩ ∈ m'.joins := by
      rw [halloc.joins]
      exact List.mem_append_right _ List.mem_cons_self
    exact byteAt_start hmem
      (orderOf_eq hnil fun p hp => halloc.bigEndian_eq (hout p hp) (hbig p hp)) hi hb

/-- The join address does not begin a record of the size. -/
structure Splits (m : JoinManager) (addr : Address) (size : BitVec 32) : Prop where
  join : m.join = some addr.space
  whole : ¬ ((m.findJoin addr).any fun r => r.size = size) = true

theorem renormalize_one {q : Piece} (h : Splits m addr size)
    (hrange : m.joinRange checks addr size = some (some [q])) :
    m.renormalizeJoinAddress checks addr size = some (q.addr, m) := by
  unfold renormalizeJoinAddress
  rw [if_neg (not_not_intro h.join), if_neg h.whole, hrange]
  rfl

theorem renormalize_several {cut : List Piece} (h : Splits m addr size)
    (hrange : m.joinRange checks addr size = some (some cut)) (hone : cut.length ≠ 1) :
    m.renormalizeJoinAddress checks addr size = m.findAddJoin checks cut 0 := by
  unfold renormalizeJoinAddress
  rw [if_neg (not_not_intro h.join), if_neg h.whole, hrange]
  cases cut with
  | nil => rfl
  | cons q cut =>
    cases cut with
    | nil => exact absurd rfl hone
    | cons q' cut => rfl

/-- Byte `i` of a part of a piece, which is storage outside the join space. -/
theorem byteAt_piece {big : Bool} {q : Piece} {i : ℕ} {b : Address}
    (hout : m.join ≠ some q.addr.space) (hi : i < q.size.toNat)
    (hb : ((memoryOrder big [q]).flatMap Piece.bytes)[i]? = some b) : ByteAt m q.addr i b := by
  refine .physical hout ?_
  rw [memoryOrder_singleton, List.flatMap_singleton, Piece.bytes, List.getElem?_map,
    List.getElem?_range hi] at hb
  exact (Option.some.inj hb).symm

/-- A subrange has at least as many bytes behind it. -/
theorem Subrange.le_total (h : Subrange r addr size) (hm : Interned m) (hr : r ∈ m.joins) :
    addr.offset.toNat + size.toNat ≤ r.addr.offset.toNat + totalSize r.pieces := by
  by_cases hone : r.pieces.length = 1
  · exact h.backed hone
  · have hcovered := hm.covered r hr hone
    have hstop := h.stop
    omega

/-- Every byte of a subrange is one of the record's. -/
theorem Subrange.byteAt {big : Bool} (h : Subrange r addr size) (hm : Interned m)
    (hr : r ∈ m.joins) (hbig : m.orderOf r.pieces = some big) {i : ℕ} (hi : i < size.toNat) :
    ∃ b, ByteAt m addr i b ∧ ((memoryOrder big r.pieces).flatMap Piece.bytes)[
      addr.offset.toNat - r.addr.offset.toNat + i]? = some b := by
  have hstart : r.addr.offset.toNat ≤ addr.offset.toNat := h.start
  have hstop := h.stop
  have htotal := h.le_total hm hr
  have hlen : addr.offset.toNat - r.addr.offset.toNat + i <
      ((memoryOrder big r.pieces).flatMap Piece.bytes).length := by
    rw [length_flatMap_bytes, totalSize_memoryOrder]
    omega
  have hget := List.getElem?_eq_getElem hlen
  refine ⟨_, .logical r hr h.holds (by omega) ?_, hget⟩
  rw [bytesOf_eq hbig]
  exact hget

/-- A subrange normalizes to an address with the same bytes. -/
theorem renormalize_bytes {big : Bool} (hm : Interned m) (hr : r ∈ m.joins)
    (hphys : Physical checks m r big) (hsub : Subrange r addr size)
    (hroom : m.joinAllocate.toNat + (roundedSize size).toNat < 2 ^ 64) :
    ∃ a m', m.renormalizeJoinAddress checks addr size = some (a, m') ∧
      ∀ i < size.toNat, ∃ b, ByteAt m addr i b ∧ ByteAt m' a i b := by
  have htotal := hsub.le_total hm hr
  have hnil : r.pieces ≠ [] := by
    intro hnil
    have hstart : r.addr.offset.toNat ≤ addr.offset.toNat := hsub.start
    have hpos := hsub.pos
    rw [hnil] at htotal
    change _ ≤ _ + 0 at htotal
    omega
  have hbig := orderOf_eq hnil hphys.order
  have hjoin : m.join = some addr.space := (hm.space r hr).trans (congrArg some hsub.space)
  by_cases hwhole : (m.findJoin addr).any fun r => r.size = size
  · refine ⟨addr, m, ?_, fun i hi => ?_⟩
    · unfold renormalizeJoinAddress
      rw [if_neg (not_not_intro hjoin), if_pos hwhole]
    · obtain ⟨b, hb, -⟩ := hsub.byteAt hm hr hbig hi
      exact ⟨b, hb, hb⟩
  have hsplits : Splits m addr size := ⟨hjoin, hwhole⟩
  have hfound : containing checks addr m.joins = some (some r) :=
    containing_eq m.joinAllocate.isLt hm.below hm.apart hr hsub.holds
  have hend : addr.offset.toNat + size.toNat ≤ 2 ^ 64 :=
    (hsub.stop.trans (hm.below r hr)).trans m.joinAllocate.isLt.le
  obtain ⟨cut, hrange⟩ := joinRange_total hfound hbig hphys.fits hsub.pos hend htotal
  obtain ⟨-, r', big', hr', hbig', hcut⟩ := joinRange_sound hrange
  obtain rfl : r = r' := Option.some.inj (Option.some.inj (hfound.symm.trans hr'))
  obtain rfl : big = big' := Option.some.inj (hbig.symm.trans hbig')
  -- the pieces of the cut are in the same order as those of the record
  have hspace : ∀ q ∈ cut, m.join ≠ some q.addr.space ∧ m.bigEndian[q.addr.space]? = some big := by
    intro q hq
    obtain ⟨p, hp, heq⟩ := hcut.space q hq
    rw [heq]
    exact ⟨hphys.outside p hp, hphys.order p hp⟩
  have hbyte : ∀ i < size.toNat, ∃ b, ByteAt m addr i b ∧
      ((memoryOrder big cut).flatMap Piece.bytes)[i]? = some b := by
    intro i hi
    obtain ⟨b, hb, hget⟩ := hsub.byteAt hm hr hbig hi
    refine ⟨b, hb, ?_⟩
    rw [hcut.bytes, List.getElem?_take_of_lt hi, List.getElem?_drop]
    exact hget
  by_cases hone : cut.length = 1
  · obtain ⟨q, rfl⟩ := List.length_eq_one_iff.mp hone
    refine ⟨q.addr, m, renormalize_one hsplits hrange, fun i hi => ?_⟩
    obtain ⟨b, hb, hget⟩ := hbyte i hi
    have hi' : i < q.size.toNat := hi.trans_eq hcut.total.symm
    exact ⟨b, hb, byteAt_piece (hspace q List.mem_cons_self).1 hi' hget⟩
  · have hsize : logicalSize checks cut 0 = some size :=
      logicalSize_several hcut.ne_nil hone hcut.total hsub.pos
    obtain ⟨a, m', hcall⟩ := findAddJoin_total hsize hroom
    refine ⟨a, m', (renormalize_several hsplits hrange hone).trans hcall, fun i hi => ?_⟩
    obtain ⟨b, hb, hget⟩ := hbyte i hi
    exact ⟨b, hb, findAddJoin_bytes hcall hsize (fun q hq => (hspace q hq).1)
      (fun q hq => (hspace q hq).2) hi hget⟩

theorem findJoin_eq_some {a : Address} (h : m.findJoin a = some r) : r ∈ m.joins ∧ r.addr = a := by
  have haddr := List.find?_some h
  exact ⟨List.mem_of_find?_eq_some h, of_decide_eq_true haddr⟩

/-- The record of an address is the one that begins there. -/
theorem Interned.findJoin_eq (hm : Interned m) (hr : r ∈ m.joins) :
    m.findJoin r.addr = some r := by
  cases hfind : m.findJoin r.addr with
  | none => exact absurd (decide_eq_true rfl) (List.find?_eq_none.mp hfind r hr)
  | some r' =>
    obtain ⟨hr', haddr⟩ := findJoin_eq_some hfind
    have hold' : r'.Holds r.addr := haddr ▸ hm.holds_start hr'
    rw [hm.eq_of_holds hr' hr hold' (hm.holds_start hr)]

theorem eq_one {q : Piece} {other : Address} (h : Splits m addr size)
    (hrange : m.joinRange checks addr size = some (some [q])) :
    m.normalizedAddressEq checks addr size other = some (decide (q.addr = other)) := by
  unfold normalizedAddressEq
  rw [if_neg (not_not_intro h.join), if_neg h.whole, hrange]
  rfl

theorem eq_several {cut : List Piece} {other : Address} (h : Splits m addr size)
    (hrange : m.joinRange checks addr size = some (some cut)) (hone : cut.length ≠ 1) :
    m.normalizedAddressEq checks addr size other =
      some ((m.findJoin other).any fun r => r.size = size ∧ r.pieces = cut) := by
  unfold normalizedAddressEq
  rw [if_neg (not_not_intro h.join), if_neg h.whole, hrange]
  cases cut with
  | nil => rfl
  | cons q cut =>
    cases cut with
    | nil => exact absurd rfl hone
    | cons q' cut => rfl

/-- A value is at an address that is allocated if and only if its record begins there. -/
theorem findAddJoin_eq_iff (hm : Interned m) {other : Address}
    (hother : other ≠ ⟨m.joinSpace, m.joinAllocate⟩)
    (hsize : logicalSize checks pieces 0 = some size) :
    (∃ m', m.findAddJoin checks pieces 0 = some (other, m')) ↔
      ∃ r, m.findJoin other = some r ∧ r.Same pieces size := by
  constructor
  · rintro ⟨m', hcall⟩
    obtain ⟨s, hs, hcases⟩ := findAddJoin_cases hcall
    obtain rfl : size = s := Option.some.inj (hsize.symm.trans hs)
    obtain ⟨r, hr, hsame, rfl, -⟩ | ⟨-, halloc⟩ := hcases
    · exact ⟨r, hm.findJoin_eq hr, hsame⟩
    · exact absurd halloc.addr hother
  · rintro ⟨r, hfind, hsame⟩
    obtain ⟨hr, rfl⟩ := findJoin_eq_some hfind
    unfold findAddJoin
    rw [hsize]
    dsimp only [Option.bind_eq_bind, Option.bind_some]
    cases hfind' : m.joins.find? fun r => r.pieces = pieces ∧ r.size = size with
    | none => exact absurd (decide_eq_true hsame) (List.find?_eq_none.mp hfind' r hr)
    | some r' =>
      have hsame' := List.find?_some hfind'
      obtain rfl := hm.eq_of_same hr (List.mem_of_find?_eq_some hfind') hsame
        (of_decide_eq_true hsame')
      exact ⟨m, rfl⟩

/-- The comparison holds where normalization gives the other address, if that is not the next one
to be allocated. -/
theorem normalizedAddressEq_iff (hm : Interned m) {other : Address}
    (hother : other ≠ ⟨m.joinSpace, m.joinAllocate⟩) :
    m.normalizedAddressEq checks addr size other = some true ↔
      ∃ m', m.renormalizeJoinAddress checks addr size = some (other, m') := by
  have hsame : some (decide (addr = other)) = some true ↔ ∃ m', some (addr, m) = some (other, m') := by
    simp
  by_cases hjoin : m.join ≠ some addr.space
  · unfold normalizedAddressEq renormalizeJoinAddress
    rw [if_pos hjoin, if_pos hjoin]
    exact hsame
  by_cases hwhole : (m.findJoin addr).any fun r => r.size = size
  · unfold normalizedAddressEq renormalizeJoinAddress
    rw [if_neg hjoin, if_neg hjoin, if_pos hwhole, if_pos hwhole]
    exact hsame
  have hsplits : Splits m addr size := ⟨not_not.mp hjoin, hwhole⟩
  cases hrange : m.joinRange checks addr size with
  | none =>
    unfold normalizedAddressEq renormalizeJoinAddress
    rw [if_neg hjoin, if_neg hjoin, if_neg hwhole, if_neg hwhole, hrange]
    exact iff_of_false nofun nofun
  | some cut? =>
    cases cut? with
    | none =>
      unfold normalizedAddressEq renormalizeJoinAddress
      rw [if_neg hjoin, if_neg hjoin, if_neg hwhole, if_neg hwhole, hrange]
      exact iff_of_false nofun nofun
    | some cut =>
      obtain ⟨hne, r, big, -, -, hcut⟩ := joinRange_sound hrange
      by_cases hone : cut.length = 1
      · obtain ⟨q, rfl⟩ := List.length_eq_one_iff.mp hone
        rw [eq_one hsplits hrange, renormalize_one hsplits hrange]
        simp
      · have hpos : 0 < size.toNat :=
          Nat.pos_of_ne_zero fun heq => hne (BitVec.eq_of_toNat_eq heq)
        have hsize : logicalSize checks cut 0 = some size :=
          logicalSize_several hcut.ne_nil hone hcut.total hpos
        rw [eq_several hsplits hrange hone, renormalize_several hsplits hrange hone,
          findAddJoin_eq_iff hm hother hsize]
        cases m.findJoin other with
        | none => exact iff_of_false nofun nofun
        | some r => simp [JoinRecord.Same, and_comm]

/-- After any calls the ranges of the records are disjoint, a subrange of a record of physical pieces
normalizes to an address with the same bytes while the join space has room, and the comparison holds
exactly where normalization gives the other address, if that is not one yet to be allocated. -/
theorem joins_keep_bytes {checks : Bool} {m : JoinManager} (h : Reachable checks m) :
    m.joins.Pairwise JoinRecord.Apart ∧
    (∀ r ∈ m.joins, ∀ big, Physical checks m r big → ∀ addr size, Subrange r addr size →
      m.joinAllocate.toNat + (roundedSize size).toNat < 2 ^ 64 →
        ∃ a m', m.renormalizeJoinAddress checks addr size = some (a, m') ∧
          ∀ i < size.toNat, ∃ b, ByteAt m addr i b ∧ ByteAt m' a i b) ∧
    ∀ addr size other, other ≠ ⟨m.joinSpace, m.joinAllocate⟩ →
      (m.normalizedAddressEq checks addr size other = some true ↔
        ∃ m', m.renormalizeJoinAddress checks addr size = some (other, m')) :=
  ⟨h.interned.apart,
    fun _ hr _ hphys _ _ hsub hroom => renormalize_bytes h.interned hr hphys hsub hroom,
    fun _ _ _ hother => normalizedAddressEq_iff h.interned hother⟩

/-- The standard spaces, of these byte orders, before any join. -/
def noJoins (bigEndian : List Bool) : JoinManager := ⟨bigEndian, none, [], 0, nofun⟩

/-- One value in the join space, which is space 5. -/
def oneJoin (bigEndian : List Bool) (hlen : 5 < bigEndian.length) (pieces : List Piece)
    (size : BitVec 32) : JoinManager where
  bigEndian := bigEndian
  join := some 5
  joins := [⟨pieces, ⟨5, 0⟩, size⟩]
  joinAllocate := roundedSize size
  join_lt _ hs := Option.some.inj hs ▸ hlen

/-- The least significant byte comes first in every space. -/
def littleJoin (pieces : List Piece) (size : BitVec 32) : JoinManager :=
  oneJoin [false, false, false, false, false, false] (by decide) pieces size

/-- The most significant byte comes first in space 2 alone. -/
def mixedJoin (pieces : List Piece) (size : BitVec 32) : JoinManager :=
  oneJoin [false, false, true, false, false, false] (by decide) pieces size

/-- Two registers of 8 bytes. -/
def registerPair : List Piece := [⟨⟨2, 0x10⟩, 8⟩, ⟨⟨2, 0⟩, 8⟩]

theorem registerPair_call (checks : Bool) :
    (noJoins [false, false, false, false, false]).findAddJoin checks registerPair 0 =
      some (⟨5, 0⟩, littleJoin registerPair 16) := by
  cases checks <;> rfl

/-- The 8 bytes in the middle of two registers. -/
theorem joins_keep_bytes_pair :
    ∃ a m', (littleJoin registerPair 16).renormalizeJoinAddress true ⟨5, 4⟩ 8 = some (a, m') ∧
      ∀ i < 8, ∃ b, ByteAt (littleJoin registerPair 16) ⟨5, 4⟩ i b ∧ ByteAt m' a i b := by
  have hreach : Reachable true (littleJoin registerPair 16) :=
    .call (.start rfl rfl) (registerPair_call true) nofun
  have hphys : Physical true (littleJoin registerPair 16) ⟨registerPair, ⟨5, 0⟩, 16⟩ false :=
    ⟨by decide, by decide, by unfold Piece.Fits; decide⟩
  have hsub : Subrange ⟨registerPair, ⟨5, 0⟩, 16⟩ ⟨5, 4⟩ 8 :=
    ⟨by decide, by decide, by decide, by decide, by decide⟩
  exact (joins_keep_bytes hreach).2.1 _ List.mem_cons_self _ hphys _ _ hsub (by decide)

/-- Three pieces, the first of them in a space of the other byte order. -/
def mixedPieces : List Piece := [⟨⟨2, 0⟩, 4⟩, ⟨⟨1, 0x100⟩, 4⟩, ⟨⟨1, 0x200⟩, 4⟩]

theorem mixedPieces_call :
    (noJoins [false, false, true, false, false]).findAddJoin true mixedPieces 0 =
      some (⟨5, 0⟩, mixedJoin mixedPieces 12) := rfl

/-- The state after the last two pieces are interned as a value of their own. -/
def mixedCut : JoinManager :=
  { mixedJoin mixedPieces 12 with
    joins := [⟨mixedPieces, ⟨5, 0⟩, 12⟩, ⟨mixedPieces.tail, ⟨5, 16⟩, 8⟩]
    joinAllocate := 32 }

/-- In two byte orders the cut has other bytes than the record. -/
theorem mixedPieces_renormalize :
    (mixedJoin mixedPieces 12).renormalizeJoinAddress true ⟨5, 4⟩ 8 = some (⟨5, 16⟩, mixedCut) ∧
      ¬ ∃ b, ByteAt (mixedJoin mixedPieces 12) ⟨5, 4⟩ 0 b ∧ ByteAt mixedCut ⟨5, 16⟩ 0 b := by
  have hreach : Reachable true (mixedJoin mixedPieces 12) :=
    .call (.start rfl rfl) mixedPieces_call nofun
  have hcall : (mixedJoin mixedPieces 12).findAddJoin true mixedPieces.tail 0 =
      some (⟨5, 16⟩, mixedCut) := rfl
  have hcut : Reachable true mixedCut := .call hreach hcall nofun
  have hrecord : ByteAt (mixedJoin mixedPieces 12) ⟨5, 4⟩ 0 ⟨1, 0x100⟩ :=
    .logical ⟨mixedPieces, ⟨5, 0⟩, 12⟩ (by decide) ⟨by decide, by decide, by decide⟩ (by decide)
      (by decide)
  have hbyte : ByteAt mixedCut ⟨5, 16⟩ 0 ⟨1, 0x200⟩ :=
    .logical ⟨mixedPieces.tail, ⟨5, 16⟩, 8⟩ (by decide) ⟨by decide, by decide, by decide⟩
      (by decide) (by decide)
  refine ⟨rfl, ?_⟩
  rintro ⟨b, hb, hb'⟩
  have hsame := hreach.interned.byteAt_unique hrecord hb
  rw [← hsame] at hb'
  exact absurd (hcut.interned.byteAt_unique hbyte hb') (by decide)

/-- Piece `n` of many. -/
def nthPieces (n : ℕ) : List Piece := [⟨⟨2, BitVec.ofNat 64 n⟩, 1⟩]

/-- The state after `n` values of 2^32 - 1 bytes, in a build that does not check overflow. -/
def afterJoins : ℕ → Option JoinManager
  | 0 => some (noJoins [false, false, false, false, false])
  | n + 1 => do
    let m ← afterJoins n
    let r ← m.findAddJoin false (nthPieces n) 0xffffffff
    some r.2

/-- Every value takes 2^32 bytes of the join space. -/
structure Filled (n : ℕ) (m : JoinManager) : Prop where
  space : m.joinSpace = 5
  allocate : m.joinAllocate = BitVec.ofNat 64 (n * 2 ^ 32)
  joins : m.joins = (List.range n).map fun k =>
    ⟨nthPieces k, ⟨5, BitVec.ofNat 64 (k * 2 ^ 32)⟩, 0xffffffff⟩

theorem afterJoins_filled {n : ℕ} (hn : n ≤ 2 ^ 32 + 1) :
    ∃ m, afterJoins n = some m ∧ Filled n m := by
  induction n with
  | zero => exact ⟨_, rfl, rfl, rfl, rfl⟩
  | succ n ih =>
    obtain ⟨m, hm, hfilled⟩ := ih (by omega)
    have hfind : (m.joins.find? fun r => r.pieces = nthPieces n ∧ r.size = 0xffffffff) = none := by
      refine List.find?_eq_none.mpr fun r hr => ?_
      rw [hfilled.joins] at hr
      obtain ⟨k, hk, rfl⟩ := List.mem_map.mp hr
      have hlt := List.mem_range.mp hk
      intro hsame
      have heq : nthPieces k = nthPieces n := (of_decide_eq_true hsame).1
      simp only [nthPieces, List.cons.injEq, Piece.mk.injEq, Address.mk.injEq] at heq
      have htoNat := congrArg BitVec.toNat heq.1.1.2
      rw [BitVec.toNat_ofNat, BitVec.toNat_ofNat] at htoNat
      omega
    have hlogical : logicalSize false (nthPieces n) 0xffffffff = some 0xffffffff := rfl
    refine ⟨{ m.registerJoin with
      joins := m.joins ++ [⟨nthPieces n, ⟨m.joinSpace, m.joinAllocate⟩, 0xffffffff⟩]
      joinAllocate := m.joinAllocate + roundedSize 0xffffffff }, ?_, hfilled.space, ?_, ?_⟩
    · unfold afterJoins findAddJoin
      rw [hm, hlogical]
      dsimp only [Option.bind_eq_bind, Option.bind_some]
      rw [hfind]
      rfl
    · have hround : roundedSize 0xffffffff = BitVec.ofNat 64 (2 ^ 32) := by decide
      change m.joinAllocate + roundedSize 0xffffffff = _
      rw [hfilled.allocate, hround, ← BitVec.ofNat_add, Nat.succ_mul]
    · change m.joins ++ [_] = _
      rw [List.range_succ, List.map_append, ← hfilled.joins, hfilled.space, hfilled.allocate]
      rfl

/-- The first record of the join space and the one after 2^32 of them have one range. -/
theorem afterJoins_overlap :
    ∃ m, afterJoins (2 ^ 32 + 1) = some m ∧ ¬ m.joins.Pairwise JoinRecord.Apart := by
  obtain ⟨m, hm, hfilled⟩ := afterJoins_filled le_rfl
  refine ⟨m, hm, fun hapart => ?_⟩
  rw [hfilled.joins, List.pairwise_map, List.range_succ, List.pairwise_append] at hapart
  refine hapart.2.2 0 (List.mem_range.mpr (by norm_num)) (2 ^ 32) List.mem_cons_self ⟨5, 0⟩ ?_ ?_
  · exact ⟨rfl, by decide, by decide⟩
  · exact ⟨rfl, by decide, by decide⟩

/-- Not every `other`, subrange and piece is covered: a join address that is not allocated yet
compares as different; an empty subrange, one past the piece of an extended value and one that runs
past the last offset of a space panic; two byte orders mix the bytes; and 2^32 values of 2^32 - 1
bytes use up the join space. -/
theorem joins_lose_bytes :
    ((littleJoin registerPair 16).normalizedAddressEq true ⟨5, 4⟩ 8 ⟨5, 16⟩ = some false ∧
      ∃ m', (littleJoin registerPair 16).renormalizeJoinAddress true ⟨5, 4⟩ 8 =
        some (⟨5, 16⟩, m')) ∧
    (littleJoin registerPair 16).renormalizeJoinAddress true ⟨5, 4⟩ 0 = none ∧
    (littleJoin [⟨⟨2, 0⟩, 4⟩] 8).renormalizeJoinAddress true ⟨5, 4⟩ 2 = none ∧
    (littleJoin [⟨⟨1, 0xfffffffffffffffc⟩, 8⟩, ⟨⟨2, 0⟩, 8⟩] 16).renormalizeJoinAddress true
      ⟨5, 12⟩ 2 = none ∧
    ((mixedJoin mixedPieces 12).renormalizeJoinAddress true ⟨5, 4⟩ 8 = some (⟨5, 16⟩, mixedCut) ∧
      ¬ ∃ b, ByteAt (mixedJoin mixedPieces 12) ⟨5, 4⟩ 0 b ∧ ByteAt mixedCut ⟨5, 16⟩ 0 b) ∧
    ∃ m, afterJoins (2 ^ 32 + 1) = some m ∧ ¬ m.joins.Pairwise JoinRecord.Apart :=
  ⟨⟨rfl, _, rfl⟩, rfl, rfl, rfl, mixedPieces_renormalize, afterJoins_overlap⟩

end JoinManager

end Mosura
