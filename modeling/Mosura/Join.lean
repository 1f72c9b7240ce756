import Mosura.Space

/-! Logical values in several pieces of storage (`space.rs`: `find_add_join`,
`renormalize_join_address` and what they use). -/

namespace Mosura

/-- A part of the storage of a logical value. -/
structure Piece where
  addr : Address
  size : BitVec 32
  deriving DecidableEq, Repr

/-- One logical value backed by physical pieces, the most significant one first. -/
structure JoinRecord where
  pieces : List Piece
  addr : Address
  size : BitVec 32
  deriving DecidableEq, Repr

/-- What joins use of a `SpaceManager`: the byte order of every registered space, the space named
`join`, the records and the offset of the next one. -/
structure JoinManager where
  bigEndian : List Bool
  join : Option SpaceId
  joins : List JoinRecord
  joinAllocate : U64
  join_lt : ∀ s, join = some s → s < bigEndian.length

/-- `a + b` on a `u64`; `none` is a panic, in a build that checks overflow. -/
def addU64 (checks : Bool) (a b : U64) : Option U64 :=
  if checks && decide (2 ^ 64 ≤ a.toNat + b.toNat) then none else some (a + b)

/-- The sum of the sizes of pieces. -/
def totalSize (pieces : List Piece) : ℕ := (pieces.map fun p => p.size.toNat).sum

/-- The sum on a `u32`. -/
def sumSizes (checks : Bool) (pieces : List Piece) : Option (BitVec 32) :=
  if checks && decide (2 ^ 32 ≤ totalSize pieces) then none
  else some (BitVec.ofNat 32 (totalSize pieces))

/-- `(u64::from(size) + 15) & !15`. -/
def roundedSize (size : BitVec 32) : U64 := BitVec.ofNat 64 ((size.toNat + 15) / 16 * 16)

namespace JoinManager

/-- The id of the `join` space, or the one it gets when it is registered. -/
def joinSpace (m : JoinManager) : SpaceId := m.join.getD m.bigEndian.length

/-- The byte orders, with that of the `join` space. -/
def withJoin (m : JoinManager) : List Bool :=
  if m.join.isSome then m.bigEndian else m.bigEndian ++ [false]

theorem joinSpace_lt (m : JoinManager) : m.joinSpace < m.withJoin.length := by
  unfold joinSpace withJoin
  cases h : m.join with
  | none => simp
  | some s => exact m.join_lt s h

/-- The `join` space is registered, with the byte order of the first space. -/
def registerJoin (m : JoinManager) : JoinManager where
  bigEndian := m.withJoin.set m.joinSpace (m.withJoin.headD false)
  join := some m.joinSpace
  joins := m.joins
  joinAllocate := m.joinAllocate
  join_lt s h := by
    rw [List.length_set, ← Option.some.inj h]
    exact m.joinSpace_lt

/-- The size of the value, if the call is a legal one. -/
def logicalSize (checks : Bool) (pieces : List Piece) (size : BitVec 32) : Option (BitVec 32) :=
  if pieces = [] then none
  else if pieces.length = 1 ∧ size = 0 then none
  else if size ≠ 0 ∧ pieces.length ≠ 1 then none
  else do
    let size ← if size ≠ 0 then some size else sumSizes checks pieces
    if size = 0 then none else some size

/-- Intern a logical value whose pieces are ordered most significant first; `none` is a panic. -/
def findAddJoin (checks : Bool) (m : JoinManager) (pieces : List Piece) (size : BitVec 32) :
    Option (Address × JoinManager) := do
  let size ← logicalSize checks pieces size
  match m.joins.find? fun r => r.pieces = pieces ∧ r.size = size with
  | some record => some (record.addr, m)
  | none =>
    let addr : Address := ⟨m.joinSpace, m.joinAllocate⟩
    let next ← addU64 checks m.joinAllocate (roundedSize size)
    some (addr,
      { m.registerJoin with
        joins := m.joins ++ [⟨pieces, addr, size⟩]
        joinAllocate := next })

/-- The pieces with their positions, in the order of their bytes: as listed where the most
significant byte is the first, from the last one on elsewhere. -/
def inMemory (big : Bool) (pieces : List Piece) : List (Piece × ℕ) :=
  if big then pieces.zipIdx else pieces.zipIdx.reverse

/-- The piece with the byte `off`, as its address and the piece's position. -/
def walkPieces (checks : Bool) : ℕ → List (Piece × ℕ) → Option (Option (Address × ℕ))
  | _, [] => some none
  | off, (p, pos) :: rest =>
    if off < p.size.toNat then
      (addU64 checks p.addr.offset (BitVec.ofNat 64 off)).map fun o => some (⟨p.addr.space, o⟩, pos)
    else walkPieces checks (off - p.size.toNat) rest

/-- `is_big_endian` of the first piece's space. -/
def orderOf (m : JoinManager) (pieces : List Piece) : Option Bool := do
  let piece ← pieces.head?
  m.bigEndian[piece.addr.space]?

/-- Translate a byte position inside logical storage to its physical piece and byte position;
`some none` is the source's `None`. -/
def joinEquivalentAddress (checks : Bool) (m : JoinManager) (record : JoinRecord) (offset : U64) :
    Option (Option (Address × ℕ)) :=
  if offset < record.addr.offset then some none
  else do
    let big ← m.orderOf record.pieces
    walkPieces checks (offset.toNat - record.addr.offset.toNat) (inMemory big record.pieces)

/-- The first record with the address in its range. -/
def containing (checks : Bool) (addr : Address) : List JoinRecord → Option (Option JoinRecord)
  | [] => some none
  | r :: records =>
    if r.addr.space = addr.space ∧ r.addr.offset ≤ addr.offset then do
      let stop ← addU64 checks r.addr.offset (r.size.setWidth 64)
      if addr.offset < stop then some (some r) else containing checks addr records
    else containing checks addr records

/-- The pieces from one to another, the first and last byte's pieces truncated. -/
def cutPieces (pieces : List Piece) (first : Address) (p1 : ℕ) (last : Address) (p2 : ℕ) :
    Option (List Piece) := do
  let firstPiece ← pieces[p1]?
  let lastPiece ← pieces[p2]?
  let cut := (pieces.drop (min p1 p2)).take (max p1 p2 + 1 - min p1 p2)
  let truncateFirst := (first.offset - firstPiece.addr.offset).setWidth 32
  let truncateLast :=
    lastPiece.size - (last.offset - lastPiece.addr.offset).setWidth 32 - 1
  let highIndex := cut.length - 1
  let (start, stop) := if p2 < p1 then (highIndex, 0) else (0, highIndex)
  some ((cut.modify start fun p => ⟨first, p.size - truncateFirst⟩).modify stop fun p =>
    ⟨p.addr, p.size - truncateLast⟩)

/-- Physical pieces of a subrange; `some none` is the source's `None`. -/
def joinRange (checks : Bool) (m : JoinManager) (addr : Address) (size : BitVec 32) :
    Option (Option (List Piece)) := do
  match ← containing checks addr m.joins with
  | none => some none
  | some r =>
    match ← m.joinEquivalentAddress checks r addr.offset with
    | none => some none
    | some (first, p1) =>
      if size = 0 ∨ 2 ^ 64 ≤ addr.offset.toNat + (size.toNat - 1) then some none
      else
        match ← m.joinEquivalentAddress checks r (addr.offset + (size.setWidth 64 - 1)) with
        | none => some none
        | some (last, p2) =>
          if p1 = p2 then some (some [⟨first, size⟩])
          else (cutPieces r.pieces first p1 last p2).map some

/-- `find_join`: only the beginning of a record is looked up. -/
def findJoin (m : JoinManager) (addr : Address) : Option JoinRecord :=
  m.joins.find? fun r => r.addr = addr

/-- A subrange is one physical piece, or a join of several. -/
def renormalizeJoinAddress (checks : Bool) (m : JoinManager) (addr : Address) (size : BitVec 32) :
    Option (Address × JoinManager) :=
  if m.join ≠ some addr.space then some (addr, m)
  else if (m.findJoin addr).any fun r => r.size = size then some (addr, m)
  else do
    match ← m.joinRange checks addr size with
    | none => none
    | some [p] => some (p.addr, m)
    | some pieces => m.findAddJoin checks pieces 0

/-- The comparison after normalization, which allocates no address. -/
def normalizedAddressEq (checks : Bool) (m : JoinManager) (addr : Address) (size : BitVec 32)
    (other : Address) : Option Bool :=
  if m.join ≠ some addr.space then some (addr = other)
  else if (m.findJoin addr).any fun r => r.size = size then some (addr = other)
  else do
    match ← m.joinRange checks addr size with
    | none => some false
    | some [p] => some (p.addr = other)
    | some pieces => some ((m.findJoin other).any fun r => r.size = size ∧ r.pieces = pieces)

end JoinManager
end Mosura
