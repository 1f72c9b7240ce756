import Mosura.Engine

/-! When decoding on demand gives the instruction the whole block gives (`emu.rs`: `Image::at`). -/

namespace Mosura
namespace Emu

variable {N C Code K : Type}

/-- The language of these tables. -/
def Grammar.language (g : Grammar N C Code) (classify : String → List (BitVec 8) → Option K) :
    Language K where
  disassemble := g.decoder.disassemble
  classify := classify

namespace Image

variable {lang : Language K} {image : Image K}

/-- What decoding at `pc` with all the remaining bytes of the block visible gives. -/
def full (lang : Language K) (image : Image K) (pc : U64) : Option (Decoded K) :=
  match image.blockAt pc with
  | none => none
  | some (start, bytes) =>
    let off := (pc - start).toNat
    if bytes.length ≤ off then none
    else (lang.disassemble (bytes.drop off) pc).head?.map lang.decoded

end Image

namespace Grammar

variable (g : Grammar N C Code)

variable {g}

end Grammar

namespace Image

variable {g : Grammar N C Code} {classify : String → List (BitVec 8) → Option K} {image : Image K}

section At

variable {pc start : U64} {bytes : List (BitVec 8)}

end At

/-- The image after these addresses have been asked for, in this order. -/
def visit (lang : Language K) (image : Image K) (pcs : List U64) : Image K :=
  pcs.foldl (fun image pc => (image.at_ lang pc).1) image

end Image

namespace Image

end Image
end Emu
end Mosura
