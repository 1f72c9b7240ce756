import Mathlib

/-! Address spaces (`space.rs`). -/

namespace Mosura

abbrev U64 := BitVec 64
abbrev SpaceId := ℕ

inductive SpaceKind
  | constant | processor | internal | spacebase | special
  deriving DecidableEq, Repr

structure Space where
  kind : SpaceKind
  addrSize : ℕ
  /-- Values are stored most significant byte first. -/
  bigEndian : Bool
  delay : ℤ
  deriving DecidableEq, Repr

namespace Space

def isConstant (s : Space) : Bool := s.kind == .constant

def isHeritaged (s : Space) : Bool :=
  s.kind == .processor || s.kind == .internal || s.kind == .spacebase

end Space

/-- The registered spaces; `constant` and `unique` are the ids the source looks up by name. -/
structure SpaceManager where
  get : SpaceId → Space
  constant : SpaceId
  unique : SpaceId
  constant_kind : (get constant).kind = .constant
  unique_kind : (get unique).kind = .internal

structure Address where
  space : SpaceId
  offset : U64
  deriving DecidableEq, Repr, Inhabited

namespace SpaceManager

/-- `const`, `ram`, `register`, `unique`, `stack`, with one byte order for the data spaces. -/
def standardSpaces (bigEndian : Bool) : List Space :=
  [⟨.constant, 8, false, 0⟩, ⟨.processor, 8, bigEndian, 1⟩, ⟨.processor, 4, bigEndian, 0⟩,
    ⟨.internal, 4, bigEndian, 0⟩, ⟨.spacebase, 8, bigEndian, 1⟩]

def standard (bigEndian : Bool) : SpaceManager where
  get i := (standardSpaces bigEndian).getD i ⟨.special, 8, false, 0⟩
  constant := 0
  unique := 3
  constant_kind := rfl
  unique_kind := rfl

end SpaceManager
end Mosura
