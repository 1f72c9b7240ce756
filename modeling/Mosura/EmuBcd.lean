import Mosura.EmuM68k
import Mathlib.Data.Nat.Digits.Defs

/-! The decimal arithmetic of the 68000 (`emu_m68k.rs`), and the numbers of many bytes it works on. -/

namespace Mosura
namespace Emu

/-- A decimal result: the byte, the decimal carry (X and C), and V. -/
structure Decimal where
  value : ℕ
  carry : Bool
  overflow : Bool
  deriving DecidableEq, Repr

/-- `dst + src + x` in decimal: the binary sum, then the correction. -/
def bcdAdd (dst src : ℕ) (x : Bool) : Decimal :=
  let low := dst % 16 + src % 16 + x.toNat
  let correction := if 0xa ≤ low then 6 else 0
  let threshold := if correction ≠ 0 then 0x9a else 0xa0
  let sum := ((dst + src) % 256 + x.toNat) % 256
  let carry : Bool := (256 ≤ dst + src ∨ 256 ≤ (dst + src) % 256 + x.toNat) ∨ threshold ≤ sum
  let correction := if carry then correction ||| 0x60 else correction
  let value := (sum + correction) % 256
  ⟨value, carry || decide (256 ≤ sum + correction), !sum.testBit 7 && value.testBit 7⟩

/-- `dst - src - x` in decimal: the binary difference, then the correction. -/
def bcdSub (dst src : ℕ) (x : Bool) : Decimal :=
  let low := ((dst % 16 + 256 - src % 16) % 256 + 256 - x.toNat) % 256
  let correction := if 0x10 ≤ low then 6 else 0
  let diff := ((dst + 256 - src) % 256 + 256 - x.toNat) % 256
  let borrow : Bool := dst < src ∨ (dst + 256 - src) % 256 < x.toNat
  let correction := if borrow then correction ||| 0x60 else correction
  let value := (diff + 256 - correction) % 256
  ⟨value, borrow || decide (diff < correction), diff.testBit 7 && !value.testBit 7⟩

/-- `bcdAdjust(tmp)` inside `nbcd`: the byte, then X and C, V, N and whether the byte is not zero. -/
def nbcdAdjust (tmp : ℕ) (x : Bool) : ℕ × Bool × Bool × Bool × Bool :=
  let d := ((256 - tmp % 256) % 256 + 256 - x.toNat) % 256
  let r := bcdSub 0 d x
  (r.value, r.carry, r.overflow, r.value.testBit 7, r.value != 0)

/-- The flags of the 68000. -/
structure Flags where
  x : Bool
  n : Bool
  z : Bool
  v : Bool
  c : Bool
  deriving DecidableEq, Repr

/-- A result that is not zero clears Z, any other leaves it. -/
def setBcdFlags (carry overflow negative nonzero z : Bool) : Flags :=
  ⟨carry, negative, if nonzero then false else z, overflow, carry⟩

/-- `abcd` and `sbcd` of two bytes, and the flags they leave. -/
def executeBcd (add : Bool) (dst src : ℕ) (f : Flags) : ℕ × Flags :=
  let r := if add then bcdAdd dst src f.x else bcdSub dst src f.x
  (r.value, setBcdFlags r.carry r.overflow (r.value.testBit 7) (r.value != 0) f.z)

/-- `nbcd` of a byte: its p-code hands `0 - d - X` to `nbcdAdjust`. -/
def executeNbcd (d : ℕ) (f : Flags) : ℕ × Flags :=
  let (value, carry, overflow, negative, nonzero) := nbcdAdjust ((512 - d - f.x.toNat) % 256) f.x
  (value, setBcdFlags carry overflow negative nonzero f.z)

/-- One instruction after the other, from the lowest byte up. -/
def bcdChain {α : Type} (insn : α → Flags → ℕ × Flags) : List α → Flags → List ℕ × Flags
  | [], f => ([], f)
  | a :: as, f =>
    let r := insn a f
    let rest := bcdChain insn as r.2
    (r.1 :: rest.1, rest.2)

/-- Two decimal digits. -/
def IsBcd (b : ℕ) : Prop := b / 16 < 10 ∧ b % 16 < 10

def decimal (b : ℕ) : ℕ := 10 * (b / 16) + b % 16

/-- The number that decimal bytes stand for, the lowest first. -/
def number (bs : List ℕ) : ℕ := Nat.ofDigits 100 (bs.map decimal)

variable {dst src d n : ℕ} {x : Bool} {f : Flags} {b : ℕ} {bs : List ℕ}

@[simp] theorem number_nil : number [] = 0 := rfl

@[simp] theorem number_cons : number (b :: bs) = decimal b + 100 * number bs := rfl

theorem decimal_eq_zero : decimal b = 0 ↔ b = 0 := by
  unfold decimal
  omega

/-- The two carries and the comparison with the threshold are one comparison of the whole sum. -/
theorem carry_iff {t y : ℕ} (hd : dst < 256) (hs : src < 256) (hy : y ≤ 1) (ht : t ≤ 0xa0) :
    (256 ≤ dst + src ∨ 256 ≤ (dst + src) % 256 + y) ∨ t ≤ ((dst + src) % 256 + y) % 256 ↔
      t ≤ dst + src + y := by
  omega

theorem borrow_iff {y : ℕ} (hd : dst < 256) (hs : src < 256) (hy : y ≤ 1) :
    dst < src ∨ (dst + 256 - src) % 256 < y ↔ dst < src + y := by
  omega

theorem bcdAdd_spec (hd : IsBcd dst) (hs : IsBcd src) :
    decimal (bcdAdd dst src x).value + 100 * (bcdAdd dst src x).carry.toNat =
      decimal dst + decimal src + x.toNat ∧ IsBcd (bcdAdd dst src x).value := by
  obtain ⟨⟨hd₁, hd₀⟩, hs₁, hs₀⟩ := And.intro hd hs
  have hy := x.toNat_le
  unfold bcdAdd
  generalize x.toNat = y at *
  have hsum : ((dst + src) % 256 + y) % 256 = (dst + src + y) % 256 := by omega
  have hlo := @carry_iff dst src 0x9a y (by omega) (by omega) hy (by decide)
  have hhi := @carry_iff dst src 0xa0 y (by omega) (by omega) hy (by decide)
  rw [hsum] at hlo hhi
  by_cases hlow : 0xa ≤ dst % 16 + src % 16 + y
  all_goals
    simp only [hlow, if_true, if_false, ne_eq, OfNat.ofNat_ne_zero, not_false_iff, not_true, Bool.or_eq_true,
      decide_eq_true_eq, hsum, hlo, hhi, Bool.toNat, cond_eq_ite, Nat.reduceOr, IsBcd, decimal]
    split_ifs
    all_goals omega

theorem bcdSub_spec (hd : IsBcd dst) (hs : IsBcd src) :
    decimal (bcdSub dst src x).value + decimal src + x.toNat =
      decimal dst + 100 * (bcdSub dst src x).carry.toNat ∧ IsBcd (bcdSub dst src x).value := by
  obtain ⟨⟨hd₁, hd₀⟩, hs₁, hs₀⟩ := And.intro hd hs
  have hy := x.toNat_le
  unfold bcdSub
  generalize x.toNat = y at *
  have hlow : 0x10 ≤ ((dst % 16 + 256 - src % 16) % 256 + 256 - y) % 256 ↔ dst % 16 < src % 16 + y := by omega
  have hdiff : ((dst + 256 - src) % 256 + 256 - y) % 256 = (dst + 512 - src - y) % 256 := by omega
  have hborrow := @borrow_iff dst src y (by omega) (by omega) hy
  simp only [hlow, hdiff, Bool.or_eq_true, decide_eq_true_eq, hborrow, Bool.toNat, cond_eq_ite,
    IsBcd, decimal]
  by_cases hdigit : dst % 16 < src % 16 + y
  all_goals
    simp only [hdigit, if_true, if_false, Nat.reduceOr]
    split_ifs
    all_goals omega

/-- `nbcdAdjust` finds the byte again. -/
theorem executeNbcd_eq (hd : d < 256) : executeNbcd d f = executeBcd false 0 d f := by
  have hx := f.x.toNat_le
  have hfound : ((256 - (512 - d - f.x.toNat) % 256 % 256) % 256 + 256 - f.x.toNat) % 256 = d := by omega
  simp only [executeNbcd, nbcdAdjust, executeBcd, hfound]
  rfl

/-- One column of a sum (`ε` is 1) or of a difference (`ε` is -1). -/
structure Column (ε : ℤ) (k dst src : ℕ) (f : Flags) (value : ℕ) (f' : Flags) : Prop where
  sum : (value : ℤ) + ε * k * f'.x.toNat = dst + ε * (src + f.x.toNat)
  z : f'.z = (f.z && decide (value = 0))

theorem executeBcd_column (add : Bool) (hd : IsBcd dst) (hs : IsBcd src) :
    let r := executeBcd add dst src f
    Column (if add then 1 else -1) 100 (decimal dst) (decimal src) f (decimal r.1) r.2 ∧ IsBcd r.1 := by
  have hz : (executeBcd add dst src f).2.z = (f.z && decide (decimal (executeBcd add dst src f).1 = 0)) := by
    by_cases h : (executeBcd add dst src f).1 = 0 <;> simp_all [executeBcd, setBcdFlags, decimal_eq_zero]
  cases add with
  | true =>
    obtain ⟨hsum, hbcd⟩ := @bcdAdd_spec dst src f.x hd hs
    refine ⟨⟨?_, hz⟩, hbcd⟩
    simp only [executeBcd, setBcdFlags, if_true]
    omega
  | false =>
    obtain ⟨hsum, hbcd⟩ := @bcdSub_spec dst src f.x hd hs
    refine ⟨⟨?_, hz⟩, hbcd⟩
    simp only [executeBcd, setBcdFlags, Bool.false_eq_true, if_false]
    omega

/-- A chain of columns is one column, of the numbers. -/
theorem bcdChain_column (add : Bool) {α : Type} {insn : α → Flags → ℕ × Flags} (dst src : α → ℕ)
    {as : List α}
    (h : ∀ a ∈ as, (IsBcd (dst a) ∧ IsBcd (src a)) ∧ ∀ f, insn a f = executeBcd add (dst a) (src a) f) :
    let r := bcdChain insn as f
    Column (if add then 1 else -1) (100 ^ as.length) (number (as.map dst)) (number (as.map src)) f
      (number r.1) r.2 ∧ ∀ b ∈ r.1, IsBcd b := by
  induction as generalizing f with
  | nil => exact ⟨⟨by simp [bcdChain], by simp [bcdChain]⟩, by simp [bcdChain]⟩
  | cons a as ih =>
    obtain ⟨⟨hd, hs⟩, hinsn⟩ := h a List.mem_cons_self
    obtain ⟨hfirst, hbcd⟩ := @executeBcd_column _ _ f add hd hs
    rw [← hinsn] at hfirst hbcd
    obtain ⟨hrest, hbcds⟩ := @ih (insn a f).2 fun b hb => h b (List.mem_cons_of_mem a hb)
    refine ⟨⟨?_, ?_⟩, List.forall_mem_cons.mpr ⟨hbcd, hbcds⟩⟩
    · have h₁ := hfirst.sum
      have h₂ := hrest.sum
      simp only [bcdChain, List.map_cons, number_cons, List.length_cons, pow_succ]
      push_cast at h₁ h₂ ⊢
      linear_combination h₁ + 100 * h₂
    · simp only [bcdChain, number_cons, hrest.z, hfirst.z, Bool.and_assoc, Nat.add_eq_zero_iff, Nat.mul_eq_zero,
        OfNat.ofNat_ne_zero, false_or, Bool.decide_and]

/-- Chains of `abcd`, `sbcd` and `nbcd` add, subtract and negate decimal numbers of any length: X is carry
or borrow, and Z is kept exactly where the whole number is zero. -/
theorem bcdChain_number (f : Flags) {ps : List (ℕ × ℕ)} (h : ∀ p ∈ ps, IsBcd p.1 ∧ IsBcd p.2) :
    let dst := number (ps.map Prod.fst)
    let src := number (ps.map Prod.snd)
    let add := bcdChain (fun p => executeBcd true p.1 p.2) ps f
    let sub := bcdChain (fun p => executeBcd false p.1 p.2) ps f
    let neg := bcdChain executeNbcd (ps.map Prod.snd) f
    number add.1 + 100 ^ ps.length * add.2.x.toNat = dst + src + f.x.toNat ∧
      number sub.1 + src + f.x.toNat = dst + 100 ^ ps.length * sub.2.x.toNat ∧
      number neg.1 + src + f.x.toNat = 100 ^ ps.length * neg.2.x.toNat ∧
      ∀ r ∈ [add, sub, neg], (∀ b ∈ r.1, IsBcd b) ∧ r.2.z = (f.z && decide (number r.1 = 0)) := by
  intro dst src add sub neg
  obtain ⟨⟨hadd, haddz⟩, haddBcd⟩ := @bcdChain_column f true _ _ Prod.fst Prod.snd ps
    fun p hp => ⟨h p hp, fun _ => rfl⟩
  obtain ⟨⟨hsub, hsubz⟩, hsubBcd⟩ := @bcdChain_column f false _ _ Prod.fst Prod.snd ps
    fun p hp => ⟨h p hp, fun _ => rfl⟩
  have hsrc : ∀ d ∈ ps.map Prod.snd, (IsBcd 0 ∧ IsBcd d) ∧ ∀ f, executeNbcd d f = executeBcd false 0 d f := by
    intro d hd
    obtain ⟨p, hp, rfl⟩ := List.mem_map.mp hd
    have hs := (h p hp).2
    exact ⟨⟨⟨by decide, by decide⟩, hs⟩, fun _ => executeNbcd_eq (by unfold IsBcd at hs; omega)⟩
  obtain ⟨⟨hneg, hnegz⟩, hnegBcd⟩ := @bcdChain_column f false _ _ (fun _ => 0) (fun d => d) _ hsrc
  have hzero : number ((ps.map Prod.snd).map fun _ => 0) = 0 := by
    induction ps.map Prod.snd with
    | nil => rfl
    | cons d ds ih => rw [List.map_cons, number_cons, ih, decimal_eq_zero.mpr rfl]
  simp only [if_true, Bool.false_eq_true, if_false, hzero, List.map_id', List.length_map] at hadd hsub hneg
  push_cast at hadd hsub hneg
  have hall : ∀ r ∈ [add, sub, neg], (∀ b ∈ r.1, IsBcd b) ∧ r.2.z = (f.z && decide (number r.1 = 0)) := by
    simp only [List.forall_mem_cons]
    exact ⟨⟨haddBcd, haddz⟩, ⟨hsubBcd, hsubz⟩, ⟨hnegBcd, hnegz⟩, by simp⟩
  refine ⟨?_, ?_, ?_, hall⟩ <;> zify
  · linear_combination hadd
  · linear_combination hsub
  · linear_combination hneg

/-- 64 and 58, with zeros in front. -/
theorem bcdChain_number_bytes :
    let f : Flags := ⟨false, false, true, false, false⟩
    let add := bcdChain (fun p => executeBcd true p.1 p.2) [(0x64, 0x58), (0, 0)] f
    (∀ p ∈ [(0x64, 0x58), (0, 0)], IsBcd p.1 ∧ IsBcd p.2) ∧ number add.1 + 100 ^ 2 * add.2.x.toNat = 122 := by
  have h : ∀ p ∈ [(0x64, 0x58), (0, 0)], IsBcd p.1 ∧ IsBcd p.2 := by simp [IsBcd]
  exact ⟨h, (bcdChain_number ⟨false, false, true, false, false⟩ h).1⟩

end Emu
end Mosura
