import Mosura.JoinCut

/-! The records of logical values after any calls. -/

namespace Mosura

open Lib

/-- The address lies in the range of the record. -/
structure JoinRecord.Holds (r : JoinRecord) (a : Address) : Prop where
  space : r.addr.space = a.space
  start : r.addr.offset ≤ a.offset
  stop : a.offset.toNat < r.addr.offset.toNat + r.size.toNat

/-- No address lies in the ranges of both. -/
def JoinRecord.Apart (r r' : JoinRecord) : Prop := ∀ a, r.Holds a → ¬ r'.Holds a

instance : Std.Symm JoinRecord.Apart := ⟨fun _ _ h a ha ha' => h a ha' ha⟩

/-- What is one value: the same pieces and the same size. -/
def JoinRecord.Same (r : JoinRecord) (pieces : List Piece) (size : BitVec 32) : Prop :=
  r.pieces = pieces ∧ r.size = size

instance (r : JoinRecord) (pieces : List Piece) (size : BitVec 32) :
    Decidable (r.Same pieces size) := inferInstanceAs (Decidable (_ ∧ _))

namespace JoinManager

variable {checks : Bool} {m m' : JoinManager} {pieces : List Piece} {size s : BitVec 32}
  {addr : Address} {r : JoinRecord}

/-- What holds of the records after any calls. -/
structure Interned (m : JoinManager) : Prop where
  space : ∀ r ∈ m.joins, m.join = some r.addr.space
  pos : ∀ r ∈ m.joins, 0 < r.size.toNat
  below : ∀ r ∈ m.joins, r.addr.offset.toNat + r.size.toNat ≤ m.joinAllocate.toNat
  apart : m.joins.Pairwise JoinRecord.Apart
  unique : m.joins.Pairwise fun r r' => ¬ r.Same r'.pieces r'.size
  covered : ∀ r ∈ m.joins, r.pieces.length ≠ 1 → r.size.toNat ≤ totalSize r.pieces

/-- The states that `find_add_join` calls lead to. Where overflow is not checked the offsets of the
join space must not start again at 0. -/
inductive Reachable (checks : Bool) : JoinManager → Prop
  | start {m : JoinManager} : m.joins = [] → m.joinAllocate = 0 → Reachable checks m
  | call {m m' : JoinManager} {pieces : List Piece} {size : BitVec 32} {addr : Address} :
    Reachable checks m → m.findAddJoin checks pieces size = some (addr, m') →
      (checks = false → m.joinAllocate ≤ m'.joinAllocate) → Reachable checks m'

/-- The size of a value is the one given or the sum of its pieces. -/
theorem logicalSize_eq_some (h : logicalSize checks pieces size = some s) :
    pieces ≠ [] ∧ 0 < s.toNat ∧ (pieces.length ≠ 1 → s = BitVec.ofNat 32 (totalSize pieces)) := by
  unfold logicalSize at h
  by_cases hnil : pieces = []
  · rw [if_pos hnil] at h
    cases h
  rw [if_neg hnil] at h
  split_ifs at h with hone hmany hgiven
  all_goals
    obtain ⟨s', hs', h⟩ := Option.bind_eq_some_iff.mp h
    change (if s' = 0 then none else some s') = some s at h
    split_ifs at h with hzero
    obtain rfl := Option.some.inj h
    have hpos : 0 < s'.toNat :=
      Nat.pos_of_ne_zero fun heq => hzero (BitVec.eq_of_toNat_eq heq)
  · exact ⟨hnil, hpos, fun hlen => absurd ⟨hgiven, hlen⟩ hmany⟩
  · refine ⟨hnil, hpos, fun _ => ?_⟩
    unfold sumSizes at hs'
    split_ifs at hs'
    exact (Option.some.inj hs').symm

/-- The state with one more record. -/
structure Allocated (m m' : JoinManager) (r : JoinRecord) : Prop where
  addr : r.addr = ⟨m.joinSpace, m.joinAllocate⟩
  joins : m'.joins = m.joins ++ [r]
  joinAllocate : m'.joinAllocate = m.joinAllocate + roundedSize r.size
  join : m'.join = some m.joinSpace
  bigEndian : m'.bigEndian = m.registerJoin.bigEndian

/-- A call finds the record of the value or allocates one. -/
theorem findAddJoin_cases (h : m.findAddJoin checks pieces size = some (addr, m')) :
    ∃ s, logicalSize checks pieces size = some s ∧
      ((∃ r ∈ m.joins, r.Same pieces s ∧ addr = r.addr ∧ m' = m) ∨
        ((∀ r ∈ m.joins, ¬ r.Same pieces s) ∧ Allocated m m' ⟨pieces, addr, s⟩)) := by
  obtain ⟨s, hs, h⟩ := Option.bind_eq_some_iff.mp h
  refine ⟨s, hs, ?_⟩
  cases hfind : m.joins.find? fun r => r.pieces = pieces ∧ r.size = s with
  | some r =>
    rw [hfind] at h
    obtain ⟨rfl, rfl⟩ := Prod.mk.inj (Option.some.inj h)
    have hsame := List.find?_some hfind
    exact .inl ⟨r, List.mem_of_find?_eq_some hfind, of_decide_eq_true hsame, rfl, rfl⟩
  | none =>
    rw [hfind] at h
    obtain ⟨next, hnext, h⟩ := Option.bind_eq_some_iff.mp h
    obtain ⟨rfl, rfl⟩ := Prod.mk.inj (Option.some.inj h)
    refine .inr ⟨fun r hr => ?_, rfl, rfl, addU64_eq_some hnext, rfl, rfl⟩
    have := List.find?_eq_none.mp hfind r hr
    exact fun hsame => this (decide_eq_true hsame)

theorem toNat_roundedSize (size : BitVec 32) :
    (roundedSize size).toNat = (size.toNat + 15) / 16 * 16 := by
  have hlt := size.isLt
  unfold roundedSize
  rw [BitVec.toNat_ofNat, Nat.mod_eq_of_lt (by omega)]

/-- The new record ends where the next one begins, or before. -/
theorem Allocated.end_le (h : Allocated m m' r) (hle : m.joinAllocate ≤ m'.joinAllocate) :
    r.addr.offset.toNat + r.size.toNat ≤ m'.joinAllocate.toNat := by
  have hround := toNat_roundedSize r.size
  have hsize := r.size.isLt
  have hle' : m.joinAllocate.toNat ≤ m'.joinAllocate.toNat := hle
  rw [h.joinAllocate, BitVec.toNat_add] at hle' ⊢
  rw [h.addr]
  have halloc := m.joinAllocate.isLt
  change m.joinAllocate.toNat + r.size.toNat ≤ _
  omega

theorem Interned.call (hm : Interned m) (h : m.findAddJoin checks pieces size = some (addr, m'))
    (hle : m.joinAllocate ≤ m'.joinAllocate) : Interned m' := by
  obtain ⟨s, hs, ⟨r, -, -, -, rfl⟩ | ⟨hnew, halloc⟩⟩ := findAddJoin_cases h
  · exact hm
  obtain ⟨hnil, hpos, hsum⟩ := logicalSize_eq_some hs
  have hend := halloc.end_le hle
  have hstart : (m.joinAllocate : U64).toNat ≤ m'.joinAllocate.toNat := hle
  have haddr : addr = ⟨m.joinSpace, m.joinAllocate⟩ := halloc.addr
  have hmem (r : JoinRecord) : r ∈ m'.joins ↔ r ∈ m.joins ∨ r = ⟨pieces, addr, s⟩ := by
    rw [halloc.joins, List.mem_append, List.mem_singleton]
  refine ⟨?_, ?_, ?_, ?_, ?_, ?_⟩
  · intro r hr
    rw [halloc.join]
    obtain hr | rfl := (hmem r).mp hr
    · rw [joinSpace, hm.space r hr]
      rfl
    · rw [haddr]
  · intro r hr
    obtain hr | rfl := (hmem r).mp hr
    · exact hm.pos r hr
    · exact hpos
  · intro r hr
    obtain hr | rfl := (hmem r).mp hr
    · exact (hm.below r hr).trans hstart
    · exact hend
  · rw [halloc.joins]
    refine List.pairwise_append.mpr ⟨hm.apart, List.pairwise_singleton _ _, fun r hr r' hr' => ?_⟩
    obtain rfl := List.mem_singleton.mp hr'
    intro a ha ha'
    have hbelow := hm.below r hr
    have hstop := ha.stop
    have hstart' : addr.offset.toNat ≤ a.offset.toNat := ha'.start
    rw [haddr] at hstart'
    change m.joinAllocate.toNat ≤ _ at hstart'
    omega
  · rw [halloc.joins]
    refine List.pairwise_append.mpr ⟨hm.unique, List.pairwise_singleton _ _, fun r hr r' hr' => ?_⟩
    obtain rfl := List.mem_singleton.mp hr'
    exact hnew r hr
  · intro r hr hlen
    obtain hr | rfl := (hmem r).mp hr
    · exact hm.covered r hr hlen
    · change s.toNat ≤ _
      rw [hsum hlen, BitVec.toNat_ofNat]
      exact Nat.mod_le _ _

/-- In a build that checks overflow the offsets do not start again. -/
theorem findAddJoin_le (h : m.findAddJoin true pieces size = some (addr, m')) :
    m.joinAllocate ≤ m'.joinAllocate := by
  obtain ⟨s, -, h⟩ := Option.bind_eq_some_iff.mp h
  cases hfind : m.joins.find? fun r => r.pieces = pieces ∧ r.size = s with
  | some r =>
    rw [hfind] at h
    obtain ⟨-, rfl⟩ := Prod.mk.inj (Option.some.inj h)
    exact BitVec.le_refl _
  | none =>
    rw [hfind] at h
    obtain ⟨next, hnext, h⟩ := Option.bind_eq_some_iff.mp h
    obtain ⟨-, rfl⟩ := Prod.mk.inj (Option.some.inj h)
    unfold addU64 at hnext
    split_ifs at hnext with hover
    have hlt : ¬ 2 ^ 64 ≤ m.joinAllocate.toNat + (roundedSize s).toNat := fun hle =>
      hover (decide_eq_true hle)
    obtain rfl := Option.some.inj hnext
    change m.joinAllocate ≤ m.joinAllocate + roundedSize s
    rw [BitVec.le_def, BitVec.toNat_add, Nat.mod_eq_of_lt (by omega)]
    exact Nat.le_add_right _ _

theorem Reachable.interned (h : Reachable checks m) : Interned m := by
  induction h with
  | start hjoins _ =>
    refine ⟨?_, ?_, ?_, ?_, ?_, ?_⟩ <;> rw [hjoins]
    · exact nofun
    · exact nofun
    · exact nofun
    · exact .nil
    · exact .nil
    · exact nofun
  | call _ hcall hle ih =>
    refine ih.call hcall ?_
    cases checks with
    | true => exact findAddJoin_le hcall
    | false => exact hle rfl

theorem Interned.eq_of_holds (hm : Interned m) {r' : JoinRecord} {a : Address} (hr : r ∈ m.joins)
    (hr' : r' ∈ m.joins) (h : r.Holds a) (h' : r'.Holds a) : r = r' := by
  by_contra hne
  exact hm.apart.forall hr hr' hne a h h'

theorem Interned.holds_start (hm : Interned m) (hr : r ∈ m.joins) : r.Holds r.addr where
  space := rfl
  start := BitVec.le_refl _
  stop := Nat.lt_add_of_pos_right (hm.pos r hr)

/-- A record is the only one of its value. -/
theorem Interned.eq_of_same (hm : Interned m) {r' : JoinRecord} (hr : r ∈ m.joins)
    (hr' : r' ∈ m.joins) (h : r.Same pieces size) (h' : r'.Same pieces size) : r = r' := by
  have : Std.Symm fun r r' : JoinRecord => ¬ r.Same r'.pieces r'.size :=
    ⟨fun _ _ hnot hsame => hnot ⟨hsame.1.symm, hsame.2.symm⟩⟩
  by_contra hne
  exact hm.unique.forall hr hr' hne ⟨h.1.trans h'.1.symm, h.2.trans h'.2.symm⟩

/-- The record with the address is found. -/
theorem containing_eq {records : List JoinRecord} {next : ℕ} (hnext : next < 2 ^ 64)
    (hbelow : ∀ r ∈ records, r.addr.offset.toNat + r.size.toNat ≤ next)
    (hapart : records.Pairwise JoinRecord.Apart) (hr : r ∈ records) (hold : r.Holds addr) :
    containing checks addr records = some (some r) := by
  induction records with
  | nil => exact absurd hr List.not_mem_nil
  | cons r' records ih =>
    obtain ⟨hfirst, hrest⟩ := List.pairwise_cons.mp hapart
    have hrestBelow := fun r hr => hbelow r (List.mem_cons_of_mem _ hr)
    have hend := hbelow r' List.mem_cons_self
    have hwidth : (r'.size.setWidth 64).toNat = r'.size.toNat :=
      BitVec.toNat_setWidth_of_le (by omega)
    have hadd : addU64 checks r'.addr.offset (r'.size.setWidth 64) =
        some (r'.addr.offset + r'.size.setWidth 64) := by
      refine addU64_eq fun _ => ?_
      rw [hwidth]
      omega
    have hstop : addr.offset < r'.addr.offset + r'.size.setWidth 64 ↔
        addr.offset.toNat < r'.addr.offset.toNat + r'.size.toNat := by
      rw [BitVec.lt_def, BitVec.toNat_add, hwidth, Nat.mod_eq_of_lt (by omega)]
    unfold containing
    by_cases hin : r'.addr.space = addr.space ∧ r'.addr.offset ≤ addr.offset
    · rw [if_pos hin, hadd]
      change (if _ then _ else _) = _
      obtain rfl | hr := List.mem_cons.mp hr
      · rw [if_pos (hstop.mpr hold.stop)]
      · rw [if_neg, ih hrestBelow hrest hr]
        exact fun hlt => hfirst r hr addr ⟨hin.1, hin.2, hstop.mp hlt⟩ hold
    · rw [if_neg hin]
      obtain rfl | hr := List.mem_cons.mp hr
      · exact absurd ⟨hold.space, hold.start⟩ hin
      · exact ih hrestBelow hrest hr

theorem containing_start {records : List JoinRecord}
    (h : containing checks addr records = some (some r)) : r.addr.offset ≤ addr.offset := by
  induction records with
  | nil => cases h
  | cons r' records ih =>
    unfold containing at h
    split_ifs at h with hin
    · obtain ⟨stop, -, h⟩ := Option.bind_eq_some_iff.mp h
      change (if addr.offset < stop then some (some r') else containing checks addr records) = _ at h
      split_ifs at h
      · obtain rfl := Option.some.inj (Option.some.inj h)
        exact hin.2
      · exact ih h
    · exact ih h

theorem joinEquivalentAddress_eq {offset : U64} (h : r.addr.offset ≤ offset) :
    m.joinEquivalentAddress checks r offset = (m.orderOf r.pieces).bind fun big =>
      walkPieces checks (offset.toNat - r.addr.offset.toNat) (inMemory big r.pieces) :=
  if_neg (BitVec.not_lt.mpr h)

theorem joinRange_eq (h : containing checks addr m.joins = some (some r)) :
    m.joinRange checks addr size =
      (m.joinEquivalentAddress checks r addr.offset).bind fun first? =>
        match first? with
        | none => some none
        | some (first, p1) =>
          if size = 0 ∨ 2 ^ 64 ≤ addr.offset.toNat + (size.toNat - 1) then some none
          else
            (m.joinEquivalentAddress checks r (addr.offset + (size.setWidth 64 - 1))).bind
              fun last? =>
                match last? with
                | none => some none
                | some (last, p2) =>
                  if p1 = p2 then some (some [⟨first, size⟩])
                  else (cutPieces r.pieces first p1 last p2).map some := by
  unfold joinRange
  rw [h]
  rfl

/-- The last byte of a range that does not run past the last offset. -/
theorem toNat_last (hsize : size ≠ 0) (h : addr.offset.toNat + (size.toNat - 1) < 2 ^ 64) :
    (addr.offset + (size.setWidth 64 - 1)).toNat = addr.offset.toNat + (size.toNat - 1) := by
  have hlt := size.isLt
  have hpos : size.toNat ≠ 0 := fun heq => hsize (BitVec.eq_of_toNat_eq heq)
  have hone : (size.setWidth 64 - 1).toNat = size.toNat - 1 := by
    rw [BitVec.toNat_sub, BitVec.toNat_setWidth_of_le (by omega)]
    change (2 ^ 64 - 1 + size.toNat) % 2 ^ 64 = _
    omega
  rw [BitVec.toNat_add, hone, Nat.mod_eq_of_lt h]

/-- What `join_range` gives are the pieces of the range in the record it found. -/
theorem joinRange_sound {cut : List Piece} (h : m.joinRange checks addr size = some (some cut)) :
    size ≠ 0 ∧ ∃ r big, containing checks addr m.joins = some (some r) ∧
      m.orderOf r.pieces = some big ∧ Cut big r.pieces (addr.offset.toNat - r.addr.offset.toNat) size cut := by
  have hfound : ∃ r, containing checks addr m.joins = some (some r) := by
    obtain ⟨found, hfound, h⟩ := Option.bind_eq_some_iff.mp h
    cases found with
    | none => cases h
    | some r => exact ⟨r, hfound⟩
  obtain ⟨r, hr⟩ := hfound
  have hstart := containing_start hr
  rw [joinRange_eq hr] at h
  obtain ⟨first?, hfirst, h⟩ := Option.bind_eq_some_iff.mp h
  cases first? with
  | none => cases h
  | some first =>
    obtain ⟨first, p1⟩ := first
    dsimp only at h
    by_cases hout : size = 0 ∨ 2 ^ 64 ≤ addr.offset.toNat + (size.toNat - 1)
    · rw [if_pos hout] at h
      cases h
    rw [if_neg hout] at h
    obtain ⟨last?, hlast, h⟩ := Option.bind_eq_some_iff.mp h
    cases last? with
    | none => cases h
    | some last =>
      obtain ⟨last, p2⟩ := last
      obtain ⟨hsize, hend⟩ := not_or.mp hout
      have htoNat := toNat_last hsize (Nat.not_le.mp hend)
      have hstart' : r.addr.offset.toNat ≤ addr.offset.toNat := hstart
      rw [joinEquivalentAddress_eq hstart] at hfirst
      rw [joinEquivalentAddress_eq (by rw [BitVec.le_def, htoNat]; omega), htoNat] at hlast
      obtain ⟨big, hbig, hwalk⟩ := Option.bind_eq_some_iff.mp hfirst
      rw [hbig, Option.bind_some, Nat.sub_add_comm hstart'] at hlast
      obtain ⟨cut', hcut', hcut⟩ := cut_of_walks hsize hwalk hlast
      obtain rfl := Option.some.inj (Option.some.inj (hcut'.symm.trans h))
      exact ⟨hsize, r, big, hr, hbig, hcut⟩

/-- A range whose bytes all have a piece gets its pieces. -/
theorem joinRange_total {big : Bool} (hr : containing checks addr m.joins = some (some r))
    (hbig : m.orderOf r.pieces = some big) (hfits : ∀ p ∈ r.pieces, checks = true → p.Fits)
    (hsize : 0 < size.toNat) (hend : addr.offset.toNat + size.toNat ≤ 2 ^ 64)
    (hbacked : addr.offset.toNat + size.toNat ≤ r.addr.offset.toNat + totalSize r.pieces) :
    ∃ cut, m.joinRange checks addr size = some (some cut) := by
  have hne : size ≠ 0 := by
    rintro rfl
    exact absurd hsize (Nat.lt_irrefl 0)
  have hstart := containing_start hr
  have hstart' : r.addr.offset.toNat ≤ addr.offset.toNat := hstart
  have htoNat : (addr.offset + (size.setWidth 64 - 1)).toNat =
      addr.offset.toNat + (size.toNat - 1) := toNat_last hne (by omega)
  have hmem : ∀ q ∈ inMemory big r.pieces, checks = true → q.1.Fits := by
    intro q hq
    have hq' : q.1 ∈ (inMemory big r.pieces).map Prod.fst := List.mem_map_of_mem hq
    rw [inMemory_map_fst] at hq'
    exact hfits q.1 ((mem_memoryOrder big).mp hq')
  have htotal : totalSize ((inMemory big r.pieces).map Prod.fst) = totalSize r.pieces := by
    rw [inMemory_map_fst, totalSize_memoryOrder]
  have hin : addr.offset.toNat - r.addr.offset.toNat + (size.toNat - 1) <
      totalSize ((inMemory big r.pieces).map Prod.fst) := by omega
  obtain ⟨first, p1, hfirst⟩ := walkPieces_total hmem ((Nat.le_add_right _ _).trans_lt hin)
  obtain ⟨last, p2, hlast⟩ := walkPieces_total hmem hin
  obtain ⟨cut, hcut, -⟩ := cut_of_walks hne hfirst hlast
  refine ⟨cut, ?_⟩
  have hout : ¬ (size = 0 ∨ 2 ^ 64 ≤ addr.offset.toNat + (size.toNat - 1)) :=
    not_or.mpr ⟨hne, by omega⟩
  rw [joinRange_eq hr, joinEquivalentAddress_eq hstart, hbig, Option.bind_some, hfirst,
    Option.bind_some]
  dsimp only
  rw [if_neg hout, joinEquivalentAddress_eq (by rw [BitVec.le_def, htoNat]; omega), htoNat, hbig,
    Option.bind_some, Nat.sub_add_comm hstart', hlast]
  exact hcut

end JoinManager

end Mosura
