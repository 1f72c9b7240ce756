import Mosura.Disasm

/-! How a language decodes one instruction, with the instruction in its delay slot
(`sleigh/engine.rs`: `disassemble_ctx`, `build_into`). -/

namespace Mosura
namespace Emu

/-- What a walker reads: the bytes from the instruction on, zero past the end of its buffer. -/
abbrev Stream := ℕ → BitVec 8

def stream (buf : List (BitVec 8)) : Stream := fun i => buf.getD i 0

/-- A walker over one instruction; `context` is the context register after its changes. -/
structure Walker (C : Type) where
  byte : Stream
  addr : U64
  context : C
  next : U64

/-- Two streams agree on their first `n` bytes. -/
def AgreeBelow (n : ℕ) (s s' : Stream) : Prop := ∀ i < n, s i = s' i

/-- The tables of a language: `N` are resolved constructor trees, `C` contexts and `Code` p-code
whose labels are not resolved yet. -/
structure Grammar (N C Code : Type) where
  context : C
  /-- The tree of the root subtable, and the context its constructors leave. -/
  resolve : Stream → U64 → C → Option (N × C)
  length : N → ℕ
  /-- The root's template has a DELAY_SLOT directive. -/
  hasDelaySlot : N → Bool
  /-- How far from the instruction its DELAY_SLOT directives look for the slot. -/
  slotLens : N → List ℕ
  render : N → Walker C → String × String
  /-- The expanded template, with what is in the slot at each of `slotLens`. -/
  expand : N → Walker C → List (Option Code) → Code
  finish : Code → List PcodeOp
  /-- How many bytes decoding looks at. -/
  reach : Stream → U64 → C → ℕ
  slotLens_pos : ∀ n, ∀ len ∈ slotLens n, 0 < len
  slotLens_root : ∀ n, hasDelaySlot n = true → max 1 (length n) ∈ slotLens n
  resolve_reach : ∀ s s' a c, AgreeBelow (reach s a c) s s' → resolve s' a c = resolve s a c
  render_reach : ∀ s s' a c n c' next, AgreeBelow (reach s a c) s s' →
    resolve s a c = some (n, c') → render n ⟨s', a, c', next⟩ = render n ⟨s, a, c', next⟩
  expand_reach : ∀ s s' a c n c' next slots, AgreeBelow (reach s a c) s s' →
    resolve s a c = some (n, c') →
    expand n ⟨s', a, c', next⟩ slots = expand n ⟨s, a, c', next⟩ slots

namespace Grammar

variable {N C Code : Type} (g : Grammar N C Code)

/-- The length of an instruction without its slot. -/
def ownLength (n : N) : ℕ := max 1 (g.length n)

theorem ownLength_pos (n : N) : 0 < g.ownLength n := lt_max_of_lt_left Nat.one_pos

/-- The instruction in a delay slot, if the buffer goes on that far; the first argument bounds the
slots in slots. -/
def slotCode : ℕ → List (BitVec 8) → U64 → C → Option Code
  | 0, _, _, _ => none
  | k + 1, buf, addr, c =>
    if buf.isEmpty then none
    else
      (g.resolve (stream buf) addr c).map fun (n, c') =>
        g.expand n ⟨stream buf, addr, c', addr + BitVec.ofNat 64 (g.ownLength n)⟩
          ((g.slotLens n).map fun len =>
            slotCode k (buf.drop len) (addr + BitVec.ofNat 64 len) c')

/-- The length of the whole instruction `n`, with the slot of a delayed branch. -/
def fullLength (n : N) (buf : List (BitVec 8)) (addr : U64) (c : C) : ℕ :=
  let len := g.ownLength n
  if g.hasDelaySlot n = true ∧ len < buf.length then
    match g.resolve (stream (buf.drop len)) (addr + BitVec.ofNat 64 len) c with
    | some (dn, _) => len + g.ownLength dn
    | none => len
  else len

theorem fullLength_pos (n : N) (buf : List (BitVec 8)) (addr : U64) (c : C) :
    0 < g.fullLength n buf addr c := by
  have hpos := g.ownLength_pos n
  unfold fullLength
  dsimp only
  split
  · split <;> omega
  · exact hpos

/-- One turn of the loop of `disassemble_ctx`. -/
def decoder : Decoder := fun buf addr =>
  (g.resolve (stream buf) addr g.context).map fun (n, c) =>
    let ilen := g.fullLength n buf addr c
    let walker : Walker C := ⟨stream buf, addr, c, addr + BitVec.ofNat 64 ilen⟩
    let text := g.render n walker
    { length := ilen
      mnemonic := text.1
      body := text.2
      ops := g.finish (g.expand n walker ((g.slotLens n).map fun len =>
        g.slotCode buf.length (buf.drop len) (addr + BitVec.ofNat 64 len) c))
      length_pos := g.fullLength_pos n buf addr c }

variable {g}

namespace EdgeUnseen

variable {w b : List (BitVec 8)} {addr : U64} {c : C}

end EdgeUnseen

end Grammar
end Emu
end Mosura
