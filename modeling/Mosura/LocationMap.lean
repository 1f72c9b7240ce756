import Mosura.Lib.KeyMap
import Mosura.Space

/-! The record of the ranges that are in SSA form, and of the pass they got there in
(`heritage.rs`). -/

namespace Mosura

/-- `SizePass`: the extent and the heritage pass of a range. -/
structure SizePass where
  size : ℕ
  pass : ℤ
  deriving DecidableEq, Repr

/-- A difference of the host's `u64`. -/
def wrappingSub (a k : ℕ) : ℕ := (a + 2 ^ 64 - k) % 2 ^ 64

/-- The ranges of one space, in the order of their start offsets. -/
abbrev RangeMap := List (ℕ × SizePass)

namespace RangeMap

variable (m : RangeMap)

/-- The last range that starts before `addr`. -/
def before (addr : ℕ) : Option (ℕ × SizePass) := (m.filter (·.1 < addr)).getLast?

/-- The first range that starts at `addr` or after it. -/
def since (addr : ℕ) : Option (ℕ × SizePass) := m.find? (addr ≤ ·.1)

def after (k : ℕ) : Option (ℕ × SizePass) := m.find? (k < ·.1)

/-- The walk over the following ranges: those that `[addr, addr + size)` overlaps are removed, and
extend it. The answer is the size, the pass and the intersect code, and the ranges that are left. -/
def absorb (addr size : ℕ) (pass : ℤ) (intersect : ℕ) : RangeMap → (ℕ × ℤ × ℕ) × RangeMap
  | [] => ((size, pass, intersect), [])
  | (k, r) :: rest =>
    let rel := wrappingSub k addr
    if rel < size then
      absorb addr (if size < rel + r.size then rel + r.size else size)
        (if r.pass < pass then r.pass else pass) (if r.pass < pass then 1 else intersect) rest
    else ((size, pass, intersect), (k, r) :: rest)

/-- The end of `add`: the ranges from `cur` on are absorbed, and the merged range is recorded. -/
def mergeFrom (cur : Option (ℕ × SizePass)) (addr size : ℕ) (pass : ℤ) (intersect : ℕ) :
    RangeMap × ℕ × ℕ × ℕ :=
  let keep := m.filter fun e => cur.all fun c => e.1 < c.1
  let rest := m.filter fun e => cur.any fun c => c.1 ≤ e.1
  let ((size, pass, intersect), rest) := absorb addr size pass intersect rest
  (KeyMap.insert addr ⟨size % 2 ^ 32, pass⟩ (keep ++ rest), addr, size % 2 ^ 32, intersect)

/-- `LocationMap::add` in one space: the new ranges, and the merged range with the intersect code. -/
def add (off size : ℕ) (pass : ℤ) : RangeMap × ℕ × ℕ × ℕ :=
  let candidate := (m.before off).or (m.since off)
  -- a candidate that does not contain `off` is passed over
  let start := candidate.bind fun e =>
    if e.2.size ≤ wrappingSub off e.1 then m.after e.1 else some e
  match start with
  | none => m.mergeFrom none off size pass 0
  | some e =>
    let offIn := wrappingSub off e.1
    if offIn < e.2.size then
      if offIn + size ≤ e.2.size then (m, e.1, e.2.size, if e.2.pass < pass then 2 else 0)
      else
        mergeFrom (KeyMap.erase e.1 m) (m.after e.1) e.1 (size + offIn)
          (if e.2.pass < pass then e.2.pass else pass) (if e.2.pass < pass then 1 else 0)
    else m.mergeFrom (some e) off size pass 0

/-- The recorded range that contains `off`. -/
def find (off : ℕ) : Option (ℕ × SizePass) :=
  match (m.filter (·.1 ≤ off)).getLast? with
  | some e => if wrappingSub off e.1 < e.2.size then some e else none
  | none => none

end RangeMap

/-- `LocationMap`: the recorded ranges of each space. -/
structure LocationMap where
  themap : SpaceId → RangeMap

/-- A call of `LocationMap::add`. -/
structure AddRequest where
  space : SpaceId
  off : BitVec 64
  size : BitVec 32
  pass : ℤ
  deriving DecidableEq, Repr

namespace LocationMap

def empty : LocationMap := ⟨fun _ => []⟩

variable (m : LocationMap)

/-- `LocationMap::add`: the merged range of the request and the intersect code. -/
def add (r : AddRequest) : LocationMap × ℕ × ℕ × ℕ :=
  let (ranges, merged) := (m.themap r.space).add r.off.toNat r.size.toNat r.pass
  (⟨Function.update m.themap r.space ranges⟩, merged)

/-- `LocationMap::find_pass`. -/
def findPass (space : SpaceId) (off : BitVec 64) : ℤ :=
  ((m.themap space).find off.toNat).elim (-1) fun e => e.2.pass

/-- `LocationMap::merged_range`. -/
def mergedRange (space : SpaceId) (off : BitVec 64) : Option (ℕ × ℕ) :=
  ((m.themap space).find off.toNat).map fun e => (e.1, e.2.size)

/-- The map after a sequence of calls. -/
def run (requests : List AddRequest) : LocationMap := requests.foldl (fun m r => (m.add r).1) m

end LocationMap
end Mosura
