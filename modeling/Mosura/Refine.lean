import Mosura.LocationMap
import Mosura.Primitives

/-! The refinement of an address range into the pieces its accesses have in common
(`heritage.rs`). -/

namespace Mosura

/-- `MemRange`: an address range that is to become SSA form. -/
structure MemRange where
  space : SpaceId
  off : U64
  size : ℕ
  flags : ℕ
  deriving DecidableEq, Repr

/-- The accesses that `collect` finds in a range, less the stale markers. -/
structure Collected where
  read : List VarnodeId
  write : List VarnodeId
  input : List VarnodeId
  deriving DecidableEq, Repr

def Collected.all (c : Collected) : List VarnodeId := c.read ++ (c.write ++ c.input)

/-- `LocationMap::erase`: the range that starts at `off` leaves, with its pass. -/
def LocationMap.erase (m : LocationMap) (space : SpaceId) (off : U64) : LocationMap × Option ℤ :=
  (⟨Function.update m.themap space (KeyMap.erase off.toNat (m.themap space))⟩,
    (KeyMap.lookup off.toNat (m.themap space)).map SizePass.pass)

/-- `Space::highest`, for words of `wordsize` bytes. -/
def Space.highest (s : Space) (wordsize : ℕ) : U64 :=
  let mask := calcMask s.addrSize
  if 1 < wordsize then mask * BitVec.ofNat 64 wordsize + BitVec.ofNat 64 (wordsize - 1) else mask

/-- `Space::wrap_offset`, with the host's signed remainder. -/
def wrapOffset (highest off : U64) : U64 :=
  if off ≤ highest then off
  else if highest = BitVec.intMax 64 ∨ highest + 1 = 0 then off
  else
    let r := off.srem (highest + 1)
    if r.slt 0 then r + (highest + 1) else r

namespace Refine

/-- The assignment of a cell; one outside the array is a panic. -/
def setCell (l : List ℕ) (i x : ℕ) : Option (List ℕ) :=
  if i < l.length then some (l.set i x) else none

/-- `build_refinement`: the start and the end of each access are marked. -/
def buildRefinement (f : Funcdata) (rangeOff : U64) (refine : List ℕ) (vnlist : List VarnodeId) :
    Option (List ℕ) :=
  vnlist.foldlM (fun refine v => do
    let diff := ((f.vn v).loc.offset - rangeOff).toNat
    let refine ← setCell refine diff 1
    setCell refine (diff + (f.vn v).size) 1) refine

/-- One turn of the loop that makes sizes of the marks: the last mark gets its size at the next. -/
def cutStep (s : ℕ × List ℕ) (curpos : ℕ) : ℕ × List ℕ :=
  if s.2.getD curpos 0 = 0 then s else (curpos, s.2.set s.1 (curpos - s.1))

/-- The sizes between the marks; `none` if there is no mark inside the range. -/
def cutSizes (refine : List ℕ) (size : ℕ) : Option (List ℕ) :=
  let (lastpos, refine) := (List.range' 1 (size - 1)).foldl cutStep (0, refine)
  if lastpos = 0 then none else some (refine.set lastpos (size - lastpos))

/-- The loop of `remove13_refinement`, cut off after `fuel` turns. -/
def remove13Loop : ℕ → List ℕ → ℕ → ℕ → Option (List ℕ)
  | 0, _, _, _ => none
  | fuel + 1, refine, pos, lastsize =>
    match refine[pos]? with
    | none => some refine
    | some cursize =>
      if cursize = 0 then some refine
      else if (lastsize = 1 ∧ cursize = 3) ∨ (lastsize = 3 ∧ cursize = 1) then
        remove13Loop fuel (refine.set (pos - lastsize) 4) (pos + cursize) 4
      else remove13Loop fuel refine (pos + cursize) cursize

/-- `remove13_refinement`: 1 + 3 bytes and 3 + 1 bytes become one piece of 4; the size of the second
one stays in the array. -/
def remove13Refinement (refine : List ℕ) : Option (List ℕ) :=
  match refine with
  | [] => some []
  | lastsize :: _ => remove13Loop (refine.length + 1) refine lastsize lastsize

/-- The sizes of the pieces of a range, each at the cell of its first byte. `none` is a panic,
`some none` says that there is nothing to refine. -/
def partition (f : Funcdata) (range : MemRange) (c : Collected) : Option (Option (List ℕ)) := do
  if 1024 < range.size then return none
  let refine := List.replicate (range.size + 1) 0
  let refine ← buildRefinement f range.off refine c.read
  let refine ← buildRefinement f range.off refine c.write
  let refine ← buildRefinement f range.off refine c.input
  match cutSizes refine.dropLast range.size with
  | none => return none
  | some refine => return some (← remove13Refinement refine)

end Refine

namespace Funcdata

open Refine

variable (wordsize : SpaceId → ℕ)

/-- The loop of `split_varnode_by_refinement` after the first piece, cut off after `fuel` turns;
`none` is a panic or a loop that goes on for ever. -/
def splitLoop (space : SpaceId) (rangeOff : U64) (refine : List ℕ) :
    ℕ → Funcdata → U64 → ℕ → ℕ → Option (Funcdata × List VarnodeId)
  | 0, _, _, _, _ => none
  | fuel + 1, f, curoff, cutsz, sz =>
    if sz = 0 then some (f, [])
    else do
      let curoff := curoff + BitVec.ofNat 64 cutsz
      let high := (f.spaces.get space).highest (wordsize space)
      let cutsz ← refine[(wrapOffset high (curoff - rangeOff)).toNat]?
      let cutsz := min cutsz sz
      let (f', vn) := f.newVarnode cutsz ⟨space, curoff⟩
      let (f', rest) ← splitLoop space rangeOff refine fuel f' curoff cutsz (sz - cutsz)
      return (f', vn :: rest)

/-- `split_varnode_by_refinement`: the pieces of `vn`, none if one piece of the range holds it. -/
def splitVarnodeByRefinement (f : Funcdata) (vn : VarnodeId) (rangeOff : U64)
    (refine : List ℕ) : Option (Funcdata × List VarnodeId) := do
  let v := f.vn vn
  let high := (f.spaces.get v.loc.space).highest (wordsize v.loc.space)
  let cutsz ← refine[(wrapOffset high (v.loc.offset - rangeOff)).toNat]?
  if v.size ≤ cutsz then return (f, [])
  let (f', first) := f.newVarnode cutsz v.loc
  let (f', rest) ← splitLoop wordsize v.loc.space rangeOff refine (v.size + 1) f' v.loc.offset cutsz
    (v.size - cutsz)
  return (f', first :: rest)

variable (f : Funcdata)

/-- The sequence number of the ops that are made for `insertop`, or at the entry. -/
def seqnumAt (insertop : Option OpId) : SeqNum :=
  insertop.elim ⟨f.addr, 0⟩ fun op => (f.op op).seqnum

/-- How many bytes of the whole are less significant than the piece `vn`. -/
def pieceOffset (bigEndian : Bool) (baseoff : U64) (size : ℕ) (vn : VarnodeId) : U64 :=
  if bigEndian then baseoff + BitVec.ofNat 64 size -
    ((f.vn vn).loc.offset + BitVec.ofNat 64 (f.vn vn).size)
  else (f.vn vn).loc.offset - baseoff

/-- One turn of `split_pieces`: the piece `vn` is cut from `startvn`, after the op `prev`. -/
def splitPiece (seq : SeqNum) (bigEndian : Bool) (baseoff : U64) (size : ℕ) (startvn : VarnodeId)
    (f : Funcdata) (prev : Option OpId) (vn : VarnodeId) : Funcdata × OpId :=
  let (f', c) := f.newConst 4 (f.pieceOffset bigEndian baseoff size vn)
  let (f', newop) := f'.newOp .subpiece seq [startvn, c]
  let f' := f'.opSetOutput newop vn
  (match prev with
    | some op => f'.opInsertAfter newop op
    | none => f'.opInsertBegin newop 0, newop)

/-- `split_pieces`: each piece gets a SUBPIECE of `startvn`, in the order of the pieces. -/
def splitPieces (vnlist : List VarnodeId) (insertop : Option OpId) (baseoff : U64) (size : ℕ)
    (startvn : VarnodeId) : Funcdata :=
  let seq := f.seqnumAt insertop
  let bigEndian := vnlist.head?.elim false fun v => (f.spaces.get (f.vn v).loc.space).bigEndian
  (vnlist.foldl (fun s vn =>
    let (g, newop) := splitPiece seq bigEndian baseoff size startvn s.1 s.2 vn
    (g, some newop)) (f, insertop)).1

/-- One turn of `concat_pieces`: `vn` is put to the pieces `preexist`, the last one makes
`finalvn`. -/
def concatPiece (seq : SeqNum) (insertop : Option OpId) (final : Option VarnodeId)
    (f : Funcdata) (preexist vn : VarnodeId) : Funcdata × VarnodeId :=
  let inputs := if (f.spaces.get (f.vn vn).loc.space).bigEndian then [preexist, vn]
    else [vn, preexist]
  let (f', newop) := f.newOp .piece seq inputs
  let (f', newvn) := match final with
    | some finalvn => (f'.opSetOutput newop finalvn, finalvn)
    | none => f'.newOutputUnique newop ((f.vn preexist).size + (f.vn vn).size)
  (match insertop with
    | some op => f'.opInsertBefore newop op
    | none => f'.opInsertBegin newop 0, newvn)

/-- The loop of `concat_pieces`. -/
def concatLoop (seq : SeqNum) (insertop : Option OpId) (finalvn : VarnodeId) :
    Funcdata → VarnodeId → List VarnodeId → Funcdata × VarnodeId
  | f, preexist, [] => (f, preexist)
  | f, preexist, vn :: rest =>
    let final := if rest = [] then some finalvn else none
    let (f', newvn) := concatPiece seq insertop final f preexist vn
    concatLoop seq insertop finalvn f' newvn rest

/-- `concat_pieces`; without a piece it is a panic. -/
def concatPieces (vnlist : List VarnodeId) (insertop : Option OpId) (finalvn : VarnodeId) :
    Option (Funcdata × VarnodeId) :=
  match vnlist with
  | [] => none
  | first :: rest => some (concatLoop (f.seqnumAt insertop) insertop finalvn f first rest)

/-- `refine_read`: the reader gets the concatenation of the pieces. -/
def refineRead (vn : VarnodeId) (rangeOff : U64) (refine : List ℕ) : Option Funcdata := do
  let (f', newvn) ← f.splitVarnodeByRefinement wordsize vn rangeOff refine
  if newvn.isEmpty then return f'
  let (f', replacevn) := f'.newUnique (f'.vn vn).size
  let op ← (f'.vn vn).descend.head?
  let slot ← (f'.op op).inrefs.idxOf? vn
  let (f', _) ← f'.concatPieces newvn (some op) replacevn
  let f' := f'.opSetInput op slot replacevn
  return if (f'.vn vn).descend.isEmpty then f'.deleteVarnode vn else f'

/-- `refine_write`: the definition writes a temporary, of which the pieces are cut. -/
def refineWrite (vn : VarnodeId) (rangeOff : U64) (refine : List ℕ) : Option Funcdata := do
  let (f', newvn) ← f.splitVarnodeByRefinement wordsize vn rangeOff refine
  if newvn.isEmpty then return f'
  let size := (f'.vn vn).size
  let baseoff := (f'.vn vn).loc.offset
  let (f', replacevn) := f'.newUnique size
  let d ← (f'.vn vn).defOp
  let f' := f'.opSetOutput d replacevn
  let f' := f'.splitPieces newvn (some d) baseoff size replacevn
  let f' := f'.totalReplace vn replacevn
  return f'.deleteVarnode vn

/-- `refine_input`: the pieces are cut from the input. Its mark for later passes is not modelled. -/
def refineInput (vn : VarnodeId) (rangeOff : U64) (refine : List ℕ) : Option Funcdata := do
  let (f', newvn) ← f.splitVarnodeByRefinement wordsize vn rangeOff refine
  if newvn.isEmpty then return f'
  return f'.splitPieces newvn none (f'.vn vn).loc.offset (f'.vn vn).size vn

end Funcdata

namespace Refine

/-- The last loop of `refinement`, cut off after `fuel` turns: the pieces of the array go to the
task list at `at_` and to the record of ranges. -/
def carve (removed : MemRange) (refine : List ℕ) (curPass : ℤ) :
    ℕ → ℕ → U64 → ℕ → List MemRange × LocationMap → Option (List MemRange × LocationMap)
  | 0, _, _, _, _ => none
  | fuel + 1, cut, addr, at_, (disjoint, global) =>
    if removed.size ≤ cut then some (disjoint, global)
    else do
      let sz ← refine[cut]?
      carve removed refine curPass fuel (cut + sz) (addr + BitVec.ofNat 64 sz) (at_ + 1)
        (disjoint.insertIdx at_ ⟨removed.space, addr, sz, removed.flags⟩,
          (global.add ⟨removed.space, addr, BitVec.ofNat 32 sz, curPass⟩).1)

/-- The splitting of all accesses. -/
def refineAll (wordsize : SpaceId → ℕ) (f : Funcdata) (rangeOff : U64) (refine : List ℕ)
    (c : Collected) : Option Funcdata := do
  let f ← c.read.foldlM (fun f v => f.refineRead wordsize v rangeOff refine) f
  let f ← c.write.foldlM (fun f v => f.refineWrite wordsize v rangeOff refine) f
  c.input.foldlM (fun f v => f.refineInput wordsize v rangeOff refine) f

/-- What `refinement` changes. -/
structure Refined where
  graph : Funcdata
  disjoint : List MemRange
  globaldisjoint : LocationMap
  refine : List ℕ

/-- `refinement` of the range at `pos`. The outer `none` is a panic, `some none` says that there is
nothing to refine. -/
def refinement (wordsize : SpaceId → ℕ) (heritagePass : ℤ) (f : Funcdata)
    (disjoint : List MemRange) (globaldisjoint : LocationMap) (pos : ℕ) (c : Collected) :
    Option (Option Refined) := do
  let range ← disjoint[pos]?
  match ← partition f range c with
  | none => return none
  | some refine =>
    let f ← refineAll wordsize f range.off refine c
    let (globaldisjoint, pass) := globaldisjoint.erase range.space range.off
    let (disjoint, globaldisjoint) ← carve range refine (pass.getD heritagePass) (range.size + 1) 0
      range.off pos (disjoint.eraseIdx pos, globaldisjoint)
    return some ⟨f, disjoint, globaldisjoint, refine⟩

end Refine
end Mosura
