import Mosura.Disasm
import Mosura.Recompile.AlignExact

/-! One function, checked: original bytes in, compiled object in, verdicts out
(`recompile/verify.rs`, `recompile/candidate.rs`). -/

namespace Mosura
namespace Recompile

open Emu (Instruction Decoder)

abbrev Bytes := List (BitVec 8)

/-- One relocation site inside the extracted function. -/
structure CandFixup where
  offset : ℕ
  width : ℕ
  selfRelative : Bool
  resolved : Option U64
  placeholder : U64
  /-- The segment offset a module-local reference outside the function names. -/
  localData : Option U64

/-- A jump table outside the function's extent; its entries are relative to the function. -/
structure CandTable where
  segOff : U64
  entriesFnrel : List U64

/-- A function extracted from a compiled object. -/
structure Candidate where
  bytes : Bytes
  base : U64
  fixups : List CandFixup
  tables : List CandTable

namespace Candidate

def leBytes (value : U64) (width : ℕ) : Bytes :=
  (List.range width).map fun i => (value >>> (8 * i)).setWidth 8

/-- `patch` at `offset` of `bytes`. -/
def splice (bytes : Bytes) (offset : ℕ) (patch : Bytes) : Bytes :=
  bytes.take offset ++ patch ++ bytes.drop (offset + patch.length)

/-- One fixup site is patched to its linked value, if it is resolvable. -/
def relinkSite (base : U64) (out : Bytes) (f : CandFixup) : Bytes :=
  match f.resolved with
  | none => out
  | some target =>
    if out.length < f.offset + f.width then out
    else
      let value := if f.selfRelative then target - (base + BitVec.ofNat 64 (f.offset + f.width))
        else target + f.placeholder
      splice out f.offset (leBytes value (min f.width 8))

def relinkedBytes (c : Candidate) : Bytes := c.fixups.foldl (relinkSite c.base) c.bytes

/-- A reference to a jump table resolves to the original's table with the same entries. -/
def resolveTable (c : Candidate) (find : Bytes → Option U64) (f : CandFixup) : CandFixup :=
  match f.resolved, f.localData with
  | none, some referenced =>
    let table := c.tables.find? fun t => t.segOff ≤ referenced ∧
      referenced < t.segOff + 4 * BitVec.ofNat 64 t.entriesFnrel.length
    match table with
    | none => f
    | some table =>
      match find (table.entriesFnrel.flatMap fun k => leBytes (c.base + k) 4) with
      | none => f
      | some p => { f with resolved := some (p + (referenced - f.placeholder) - table.segOff) }
  | _, _ => f

def resolveTables (c : Candidate) (find : Bytes → Option U64) : Candidate :=
  { c with fixups := c.fixups.map (c.resolveTable find) }

end Candidate

/-- What is being checked: a function's identity in the original image. -/
structure Subject where
  name : String
  va : U64

inductive ByteVerdict
  | identical | identicalOutsideRelocations | different
  deriving DecidableEq, Repr

/-- A checked function. -/
structure Checked where
  diff : FnDiff
  bytes : ByteVerdict
  original : List NormInsn
  candidate : List NormInsn
  relinked : Candidate

inductive VerifyError
  | object (message : String)
  | language

/-- A language: how it decodes, and the instruction masks of `disassemble_fingerprint`. -/
structure Tables where
  decode : Decoder
  masks : Bytes → U64 → List Bytes

/-- Disassemble a byte range and normalize every instruction in it. -/
def normalize (lang : Tables) (bytes : Bytes) (base : U64) (reloc : Relocator) : List NormInsn :=
  (lang.decode.disassemble bytes base).zipIdx.map fun (insn, i) =>
    normalizeOneWithMask insn reloc (lang.masks bytes base)[i]?

/-- A stream, last instruction first, without the no-ops at its end. -/
def trimReversed : List NormInsn → List NormInsn
  | last :: before :: rest =>
    if last.isNop then trimReversed (before :: rest) else last :: before :: rest
  | insns => insns

/-- Drop the alignment padding a linker leaves between functions. -/
def trimPadding (insns : List NormInsn) : List NormInsn := (trimReversed insns.reverse).reverse

/-- The bytes of a stream. -/
def streamBytes (insns : List NormInsn) : Bytes := insns.flatMap NormInsn.bytes

/-- Byte `k` of the function is at a relocation site. -/
def atReloc (fixups : List CandFixup) (k : ℕ) : Bool :=
  fixups.any fun f => f.offset ≤ k ∧ k < f.offset + f.width

/-- Compare the two byte strings over the trimmed extents. -/
def byteVerdict (original candidate : List NormInsn) (relinked : Candidate) (va : U64) :
    ByteVerdict :=
  match original.getLast?, candidate.getLast? with
  | some o, some c =>
    if o.end_ ≠ c.end_ then .different
    else
      let len := (o.end_ - va).toNat
      let obytes := streamBytes original
      let cbytes := relinked.relinkedBytes
      if obytes.length < len ∨ cbytes.length < len then .different
      else
        let differing := (List.range len).filter fun k => obytes[k]? ≠ cbytes[k]?
        if differing.any fun k => !atReloc relinked.fixups k then .different
        else if differing.isEmpty then .identical
        else .identicalOutsideRelocations
  | _, _ => .different

/-- The candidate with the jump tables the original image answers for. -/
def withTables (relinked : Candidate) (findNear : Option (Bytes → Option U64)) : Candidate :=
  findNear.elim relinked relinked.resolveTables

/-- `verify_with_image`: `load` is `load_object_function` of the object at the subject's address,
and `lang` the language's tables where they are available. `none` is a panic of `compare`. -/
def verifyWithImage (lang : Option Tables) (originalBytes : Bytes) (subject : Subject)
    (load : String → Except String Candidate) (findNear : Option (Bytes → Option U64)) :
    Option (Except VerifyError Checked) :=
  match load subject.name <|> load (subject.name ++ "_"), lang with
  | .error e, _ => some (.error (.object e))
  | .ok _, none => some (.error .language)
  | .ok relinked, some lang => do
    let relinked := withTables relinked findNear
    let original := trimPadding (normalize lang originalBytes subject.va noReloc)
    let candidate := trimPadding (normalize lang relinked.relinkedBytes subject.va noReloc)
    let diff ← compare original candidate
    return .ok ⟨diff, byteVerdict original candidate relinked subject.va, original, candidate,
      relinked⟩

end Recompile
end Mosura
