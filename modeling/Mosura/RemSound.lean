import Mosura.ListGraph
import Mosura.ModOptSound
import Mosura.SignDivSound
import Mosura.SignModSound

/-! When the rules that recover remainders and signed divisions by powers of two keep the value. -/

namespace Mosura

namespace RemRule

open Funcdata

/-- The rule at `op` stops at no overflow, and where it fires the op `o` keeps its value. -/
def SoundAt (r : RemRule) (f : Funcdata) (env : VarnodeId → ℕ) (op o : OpId) (out : VarnodeId) :
    Prop := ∃ res, r.applyOp f op = .ok res ∧ ∀ g, res = some g → SameResult f g env o out

/-- The rules stop at no overflow and keep all values, `RuleSignMod2nOpt` exactly where its number
of bits is one of a shift and of the operand and a truncated form reads the right sign. -/
theorem soundAt_iff {r : RemRule} {f : Funcdata} {env : VarnodeId → ℕ} {op o : OpId}
    {out : VarnodeId} (hgr : f.RuleGraph) (hsizes : ∀ v, (f.vn v).size < 2 ^ 32)
    (hcode : (f.op op).opcode ∈ r.oplist) (h8 : ∀ v ∈ (f.op op).inrefs, (f.vn v).size ≤ 8)
    (hout : (f.op o).output = some out) (hv : f.ValuesAt o env) :
    r.SoundAt f env op o out ↔ (r = signMod2nOpt → f.SignModSound env op o) := by
  cases r with
  | modOpt =>
    refine iff_of_true ⟨_, rfl, fun g hg => ?_⟩ fun h => by cases h
    exact modOpt_sound hgr hcode h8 hg hout hv
  | signMod2nOpt =>
    exact (signMod2nOpt_iff hgr (List.mem_singleton.mp hcode) h8 hout hv).trans
      ⟨fun h _ => h, fun h => h rfl⟩
  | signMod2nOpt2 =>
    refine iff_of_true ⟨_, rfl, fun g hg => ?_⟩ fun h => by cases h
    exact signMod2nOpt2_sound hgr (List.mem_singleton.mp hcode) h8 hg hout hv
  | signMod2Opt =>
    refine iff_of_true ⟨_, rfl, fun g hg => ?_⟩ fun h => by cases h
    exact signMod2Opt_sound hgr hsizes (List.mem_singleton.mp hcode) h8 hg hout hv
  | signDiv2 =>
    refine iff_of_true ⟨_, rfl, fun g hg => ?_⟩ fun h => by cases h
    exact signDiv2_sound hgr (List.mem_singleton.mp hcode) h8 hg hout hv
  | signNearMult =>
    refine iff_of_true ?_ fun h => by cases h
    exact signNearMult_sound hgr (List.mem_singleton.mp hcode) h8 hout hv

end RemRule

namespace Funcdata

/-- `zext((v0[0] + (v0[1] s>> 7 >> 7)) & 1) - (v0 s>> 31 >> 31)`, 4 bytes wide and truncated to 1. -/
def truncatedVarnodes : List Varnode :=
  let const (size : ℕ) (value : U64) (reader : OpId) : Varnode :=
    { loc := ⟨0, value⟩, size, constant := true, descend := [reader], nzm := value }
  let value (size : ℕ) (offset : U64) (writer : OpId) (readers : List OpId) : Varnode :=
    { loc := ⟨3, offset⟩, size, written := true, insert := true, defOp := some writer,
      descend := readers, nzm := calcMask size }
  [{ loc := ⟨2, 0⟩, size := 4, input := true, insert := true, descend := [0, 3, 4],
      nzm := 0xffffffff },
    const 4 31 0, value 4 0 0 [1], const 4 31 1, value 4 4 1 [2], const 4 0xffffffff 2,
    value 4 8 2 [10], const 4 0 3, value 1 12 3 [7], const 4 1 4, value 1 13 4 [5], const 1 7 5,
    value 1 14 5 [6], const 1 7 6, value 1 15 6 [7], value 1 16 7 [8], const 1 1 8, value 1 17 8 [9],
    value 4 20 9 [10], value 4 24 10 []]

def truncatedOps : List PcodeOp :=
  let op (opcode : OpCode) (output : VarnodeId) (inrefs : List VarnodeId) : PcodeOp :=
    { opcode, parent := some 0, output := some output, inrefs }
  [op .intSright 2 [0, 1], op .intRight 4 [2, 3], op .intMult 6 [4, 5], op .subpiece 8 [0, 7],
    op .subpiece 10 [0, 9], op .intSright 12 [10, 11], op .intRight 14 [12, 13],
    op .intAdd 15 [8, 14], op .intAnd 17 [15, 16], op .intZext 18 [17], op .intAdd 19 [18, 6]]

def truncatedGraph : Funcdata :=
  ofLists truncatedVarnodes truncatedOps [{ ops := [0, 1, 2, 3, 4, 5, 6, 7, 8, 9, 10] }]

theorem listsChecked_truncated : ListsChecked truncatedVarnodes truncatedOps := by decide +kernel

/-- `v0` is 0x8000: its second byte is negative, but it is not. -/
def truncatedValues : List ℕ :=
  [0x8000, 0, 0, 0, 0, 0, 0, 0, 0, 0, 0x80, 0, 0xff, 0, 1, 1, 0, 1, 1, 1]

theorem valuesAt_truncated : truncatedGraph.ValuesAt 10 (valuesOf truncatedValues) :=
  valuesAt_ofLists (by decide +kernel) 10

theorem soundAt_iff_truncated :
    RemRule.signMod2nOpt.SoundAt truncatedGraph (valuesOf truncatedValues) 1 10 19 ↔
      (RemRule.signMod2nOpt = .signMod2nOpt →
        truncatedGraph.SignModSound (valuesOf truncatedValues) 1 10) :=
  RemRule.soundAt_iff (ruleGraph_ofLists listsChecked_truncated)
    (size_ofLists (by norm_num) (by decide +kernel)) (by decide) (by decide) rfl valuesAt_truncated

/-- 0x8000 has no remainder modulo 2, but the truncated form computes 1. -/
theorem signMod2nOpt_not_sound : ¬∀ (r : RemRule) (f : Funcdata) (op : OpId), f.RuleGraph →
    (∀ v, (f.vn v).size < 2 ^ 32) → (f.op op).opcode ∈ r.oplist →
    (∀ v ∈ (f.op op).inrefs, (f.vn v).size ≤ 8) →
    ∀ (env : VarnodeId → ℕ) (o : OpId) (out : VarnodeId), (f.op o).output = some out →
      f.ValuesAt o env → r.SoundAt f env op o out := by
  intro h
  have hgr : truncatedGraph.RuleGraph := ruleGraph_ofLists listsChecked_truncated
  have hiff := (@signMod2nOpt_iff _ _ 1 19 10) hgr (by decide) (by decide) rfl
    valuesAt_truncated
  have hsound := hiff.mp (h .signMod2nOpt truncatedGraph 1 hgr
    (size_ofLists (by norm_num) (by decide +kernel)) (by decide) (by decide)
    (valuesOf truncatedValues) 10 19 rfl valuesAt_truncated)
  obtain ⟨-, hsearch⟩ := hsound 0 4 31 (by decide +kernel)
  obtain ⟨-, hexact⟩ := hsearch ⟨10, some 1, 7⟩ (by decide +kernel)
  exact absurd ((hexact rfl).2 1 rfl) (by decide +kernel)

end Funcdata
end Mosura
