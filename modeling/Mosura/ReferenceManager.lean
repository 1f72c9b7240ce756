import Mosura.AddressSetAlgebra
import Mosura.Lib.KeyMap
import Mosura.Symbolic

/-! The references of a program with their indices (`reference.rs`). -/

namespace Mosura
open Symbolic

/-- `(space, offset)`, in the order of the maps. -/
abbrev Place := ℕ ×ₗ ℕ

def place (a : Address) : Place := toLex (a.space, a.offset.toNat)

def Place.address (p : Place) : Address := ⟨(ofLex p).1, BitVec.ofNat 64 (ofLex p).2⟩

/-- The numbers of the references at a place, in the order they came in. -/
abbrev EndpointIndex := List (Place × List (BitVec 32))

/-- `entry(p).or_default().push(i)` -/
def EndpointIndex.push (index : EndpointIndex) (p : Place) (i : BitVec 32) : EndpointIndex :=
  KeyMap.insert p ((KeyMap.lookup p index).getD [] ++ [i]) index

/-- `seen` holds keys `(from, to, op, type)`, which is all a reference consists of. -/
structure ReferenceManager where
  refs : List Reference := []
  seen : Finset Reference := ∅
  dests : Finset Place := ∅
  fromIndex : EndpointIndex := []
  toIndex : EndpointIndex := []
  generation : U64 := 0

namespace ReferenceManager

variable (m : ReferenceManager)

def add (from_ to_ : Address) (refType : RefType) (opIndex : ℤ) : ReferenceManager :=
  let r : Reference := ⟨from_, to_, refType, opIndex⟩
  if r ∈ m.seen then m
  else
    let idx := BitVec.ofNat 32 m.refs.length
    { refs := m.refs ++ [r]
      seen := insert r m.seen
      dests := insert (place to_) m.dests
      fromIndex := m.fromIndex.push (place from_) idx
      toIndex := m.toIndex.push (place to_) idx
      generation := m.generation + 1 }

/-- A reference that `retype` changes. -/
def Retyped (from_ to_ : Address) (newType : RefType) (r : Reference) : Prop :=
  r.from_ = from_ ∧ r.to_ = to_ ∧ r.refType ≠ newType

instance (from_ to_ : Address) (newType : RefType) (r : Reference) :
    Decidable (Retyped from_ to_ newType r) :=
  inferInstanceAs (Decidable (_ ∧ _ ∧ _))

/-- The loop of `retype` over the references, with the keys seen and the generation. -/
def retypeRefs (from_ to_ : Address) (newType : RefType) :
    List Reference → Finset Reference → U64 → List Reference × Finset Reference × U64
  | [], seen, generation => ([], seen, generation)
  | r :: rs, seen, generation =>
    if Retyped from_ to_ newType r then
      let r' := { r with refType := newType }
      let rest := retypeRefs from_ to_ newType rs (insert r' (seen.erase r)) (generation + 1)
      (r' :: rest.1, rest.2)
    else
      let rest := retypeRefs from_ to_ newType rs seen generation
      (r :: rest.1, rest.2)

def retype (from_ to_ : Address) (newType : RefType) : ReferenceManager :=
  let retyped := retypeRefs from_ to_ newType m.refs m.seen m.generation
  { m with refs := retyped.1, seen := retyped.2.1, generation := retyped.2.2 }

/-- The references of an index at a place; `none` is a number out of range. -/
def refsAt (index : EndpointIndex) (p : Place) : Option (List Reference) :=
  ((KeyMap.lookup p index).getD []).mapM fun i => m.refs[i.toNat]?

def refsFrom (a : Address) : Option (List Reference) := m.refsAt m.fromIndex (place a)

def refsTo (a : Address) : Option (List Reference) := m.refsAt m.toIndex (place a)

/-- `any` over the references with these numbers, up to the first that has the property. -/
def anyRef (test : Reference → Bool) : List (BitVec 32) → Option Bool
  | [] => some false
  | i :: is => do
    let r ← m.refs[i.toNat]?
    if test r then some true else anyRef test is

/-- Some reference from `a` has the property. -/
def anyFrom (a : Address) (test : Reference → Bool) : Option Bool :=
  m.anyRef test ((KeyMap.lookup (place a) m.fromIndex).getD [])

def hasRef (from_ to_ : Address) : Option Bool := m.anyFrom from_ fun r => r.to_ = to_

def hasReferenceTo (to_ : Address) : Bool := place to_ ∈ m.dests

/-- One of the two indices, from the references. -/
def rebuildIndex (endpoint : Reference → Address) (refs : List Reference) : EndpointIndex :=
  refs.zipIdx.foldl (fun index r => index.push (place (endpoint r.1)) (BitVec.ofNat 32 r.2)) []

def rebuildEndpointIndices : ReferenceManager :=
  { m with
    fromIndex := rebuildIndex Reference.from_ m.refs
    toIndex := rebuildIndex Reference.to_ m.refs }

/-- A reference that `remove` removes. -/
def Removed (from_ to_ : Address) (refType : RefType) (r : Reference) : Prop :=
  r.from_ = from_ ∧ r.to_ = to_ ∧ r.refType = refType

instance (from_ to_ : Address) (refType : RefType) (r : Reference) :
    Decidable (Removed from_ to_ refType r) :=
  inferInstanceAs (Decidable (_ ∧ _ ∧ _))

def remove (from_ to_ : Address) (refType : RefType) : Option ReferenceManager := do
  let found ← m.anyFrom from_ fun r => r.to_ = to_ ∧ r.refType = refType
  if found then
    let refs := m.refs.filter fun r => ¬ Removed from_ to_ refType r
    let left : ReferenceManager :=
      { m with
        refs := refs
        seen := m.seen.filter fun r => ¬ Removed from_ to_ refType r
        dests := if refs.any fun r => r.to_ = to_ then m.dests else m.dests.erase (place to_)
        generation := m.generation + 1 }
    some left.rebuildEndpointIndices
  else some m

def removeRefsFromSet (set : AddressSet) : ReferenceManager :=
  if m.fromIndex.any fun e => set.contains e.1.address then
    let refs := m.refs.filter fun r => !set.contains r.from_
    let left : ReferenceManager :=
      { m with
        refs := refs
        seen := m.seen.filter fun r => set.contains r.from_ = false
        dests := (refs.map fun r => place r.to_).toFinset
        generation := m.generation + 1 }
    left.rebuildEndpointIndices
  else m

inductive Command
  | add (from_ to_ : Address) (refType : RefType) (opIndex : ℤ)
  | retype (from_ to_ : Address) (newType : RefType)
  | remove (from_ to_ : Address) (refType : RefType)
  | removeRefsFromSet (set : AddressSet)

def step : Command → Option ReferenceManager
  | .add from_ to_ refType opIndex => some (m.add from_ to_ refType opIndex)
  | .retype from_ to_ newType => some (m.retype from_ to_ newType)
  | .remove from_ to_ refType => m.remove from_ to_ refType
  | .removeRefsFromSet set => some (m.removeRefsFromSet set)

/-- No two references are the same, and the redundant structures say what the references say. -/
structure Consistent : Prop where
  distinct : m.refs.Nodup
  seen : ∀ r, r ∈ m.seen ↔ r ∈ m.refs
  dests : ∀ p, p ∈ m.dests ↔ ∃ r ∈ m.refs, place r.to_ = p
  refsFrom : ∀ a, m.refsFrom a = some (m.refs.filter fun r => r.from_ = a)
  refsTo : ∀ a, m.refsTo a = some (m.refs.filter fun r => r.to_ = a)

/-- Where a call keeps that: an index has 32 bits, and what is retyped is on different operands. -/
def Keeps : Command → Prop
  | .add from_ to_ refType opIndex =>
    m.refs.length < 2 ^ 32 ∨ (⟨from_, to_, refType, opIndex⟩ : Reference) ∈ m.seen
  | .retype from_ to_ _ =>
    ((m.refs.filter fun r => r.from_ = from_ ∧ r.to_ = to_).map Reference.opIndex).Nodup
  | _ => True

/-- The states that calls lead to, each of which keeps the indices. -/
inductive KeepingRun : ReferenceManager → Prop
  | new : KeepingRun {}
  | call {m m' : ReferenceManager} {c : Command} : KeepingRun m → m.Keeps c → m.step c = some m' →
      KeepingRun m'

end ReferenceManager
end Mosura
