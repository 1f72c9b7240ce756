import Mosura.Image

/-! When an emulated run ends within its budget. -/

namespace Mosura
namespace Emu

def InsnExit.steps {M : Type} : InsnExit M → ℕ
  | .stop _ _ steps => steps
  | .done _ _ _ steps => steps

def InsnExit.stops {M : Type} : InsnExit M → Prop
  | .stop _ _ _ => True
  | .done _ _ _ _ => False

namespace Turn

variable {M K : Type} {lang : Language K} {cpu : Cpu M K} {opts : RunOptions}

/-- The inner loop charges every op it executes and stays within the budget. -/
theorem insnLoop_steps {image : Image K} {insn : Decoded K} {pc : U64} {sp : Option U64}
    {left i steps : ℕ} {m : M} {frames : List Frame} {exit : InsnExit M}
    (h : insnLoop cpu opts image insn pc sp left i m frames steps = some exit) :
    steps ≤ exit.steps ∧ exit.steps ≤ steps + left ∧
      (exit.steps = steps → insn.ops[i]? ≠ none → exit.stops) := by
  induction left generalizing i m frames steps with
  | zero =>
    unfold insnLoop at h
    split at h
    · rename_i hop
      obtain rfl := Option.some.inj h
      exact ⟨le_rfl, le_rfl, fun _ hne => absurd hop hne⟩
    · obtain rfl := Option.some.inj h
      exact ⟨le_rfl, le_rfl, fun _ _ => trivial⟩
  | succ left ih =>
    -- an exit after this op, and an exit of the rest of the loop
    have hone : ∀ {e : InsnExit M}, e.steps = steps + 1 → some e = some exit →
        steps ≤ exit.steps ∧ exit.steps ≤ steps + (left + 1) ∧
          (exit.steps = steps → insn.ops[i]? ≠ none → exit.stops) := by
      intro e he h
      obtain rfl := Option.some.inj h
      omega
    have hrest : ∀ {j : ℕ} {m : M} {frames : List Frame},
        insnLoop cpu opts image insn pc sp left j m frames (steps + 1) = some exit →
        steps ≤ exit.steps ∧ exit.steps ≤ steps + (left + 1) ∧
          (exit.steps = steps → insn.ops[i]? ≠ none → exit.stops) := by
      intro j m frames h
      obtain ⟨h1, h2, -⟩ := ih h
      omega
    unfold insnLoop at h
    split at h
    · rename_i hop
      obtain rfl := Option.some.inj h
      exact ⟨le_rfl, Nat.le_add_right _ _, fun _ hne => absurd hop hne⟩
    · dsimp only at h
      split_ifs at h with hcall hret
      · obtain ⟨target, -, h⟩ := Option.bind_eq_some_iff.mp h
        split_ifs at h
        all_goals first
          | exact hone rfl h
          | (obtain ⟨m', -, h⟩ := Option.bind_eq_some_iff.mp h; exact hrest h)
      · cases frames with
        | nil => exact hone rfl h
        | cons frame frames =>
          obtain ⟨target, -, h⟩ := Option.bind_eq_some_iff.mp h
          exact hone rfl h
      · obtain ⟨⟨flow, m'⟩, -, h⟩ := Option.bind_eq_some_iff.mp h
        cases flow with
        | next => exact hrest h
        | rel d =>
          obtain ⟨j, -, h⟩ := Option.bind_eq_some_iff.mp h
          exact hrest h
        | jump target => exact hone rfl h
        | stop => exact hone rfl h
        | fault => exact hone rfl h

/-- The instruction at the program counter costs no step: it is no stub, the state modifier does not
execute it whole, and it has no p-code. -/
def Silent (lang : Language K) (cpu : Cpu M K) (opts : RunOptions) (t : Turn M K) : Prop :=
  opts.stubs t.fetched.pc = false ∧
    ∃ insn, (t.fetched.image.at_ lang t.fetched.pc).2 = some insn ∧ insn.ops = [] ∧
      ∀ k, insn.adjust = some k → ∀ m, cpu.beginAdjusted k
        (cpu.setAt t.fetched.pc (t.steps + 1) t.m) ≠ some (true, m)

/-- What a turn does to the number of steps. -/
def Charged (opts : RunOptions) (t : Turn M K) (r : Turn M K ⊕ Run M) : Prop :=
  match r with
  | .inl t' => t.steps ≤ t'.steps ∧ t'.steps ≤ opts.maxSteps
  | .inr run => run.steps ≤ opts.maxSteps

theorem body_charged {t : Turn M K} {insn : Decoded K} {r : Turn M K ⊕ Run M}
    (h : t.body cpu opts insn = some r) (ht : t.steps ≤ opts.maxSteps) :
    Charged opts t r ∧ ∀ t', r = .inl t' → t'.steps = t.steps → insn.ops = [] := by
  obtain ⟨sp, -, h⟩ := Option.bind_eq_some_iff.mp h
  obtain ⟨exit, hexit, h⟩ := Option.bind_eq_some_iff.mp h
  obtain ⟨h1, h2, h3⟩ := insnLoop_steps hexit
  cases exit with
  | stop stop m steps =>
    obtain rfl := Option.some.inj h
    refine ⟨?_, nofun⟩
    change steps ≤ _
    change steps ≤ _ at h2
    omega
  | done jump m frames steps =>
    obtain ⟨m', -, h⟩ := Option.bind_eq_some_iff.mp h
    obtain rfl := Option.some.inj h
    change t.steps ≤ steps at h1
    change steps ≤ _ at h2
    refine ⟨⟨h1, by change steps ≤ _; omega⟩, fun t' ht' hsteps => ?_⟩
    obtain rfl := Sum.inl.inj ht'
    by_contra hops
    refine h3 hsteps fun hnone => hops ?_
    exact List.eq_nil_of_length_eq_zero (Nat.le_zero.mp (List.getElem?_eq_none_iff.mp hnone))

theorem stub_charged {t : Turn M K} {r : Turn M K ⊕ Run M} (h : t.stub cpu opts = some r)
    (ht : t.steps ≤ opts.maxSteps) :
    Charged opts t r ∧ ∀ t', r = .inl t' → t'.steps ≠ t.steps := by
  unfold stub at h
  by_cases hcap : opts.maxSteps ≤ t.steps
  · rw [if_pos hcap] at h
    obtain rfl := Option.some.inj h
    exact ⟨ht, nofun⟩
  · rw [if_neg hcap] at h
    have hlt : t.steps < opts.maxSteps := not_le.mp hcap
    dsimp only at h
    split at h
    · obtain rfl := Option.some.inj h
      exact ⟨hlt, nofun⟩
    · obtain ⟨m, -, h⟩ := Option.bind_eq_some_iff.mp h
      obtain rfl := Option.some.inj h
      refine ⟨⟨Nat.le_succ _, hlt⟩, fun t' ht' hsteps => ?_⟩
      obtain rfl := Sum.inl.inj ht'
      exact absurd hsteps (Nat.succ_ne_self _)

/-- A turn stays within the budget, and one that goes on without a charge is silent. -/
theorem turn_charged {t : Turn M K} {r : Turn M K ⊕ Run M} (h : t.turn lang cpu opts = some r)
    (ht : t.steps ≤ opts.maxSteps) :
    Charged opts t r ∧ ∀ t', r = .inl t' → t'.steps = t.steps → Silent lang cpu opts t := by
  unfold turn at h
  dsimp only at h
  split_ifs at h with hstub
  · obtain ⟨h1, h2⟩ := stub_charged h ht
    exact ⟨h1, fun t' ht' hsteps => absurd hsteps (h2 t' ht')⟩
  · split at h
    · obtain rfl := Option.some.inj h
      exact ⟨ht, nofun⟩
    · rename_i insn hinsn
      have hsilent : insn.ops = [] → (∀ k, insn.adjust = some k → ∀ m, cpu.beginAdjusted k
          (cpu.setAt t.fetched.pc (t.steps + 1) t.m) ≠ some (true, m)) →
          Silent lang cpu opts t := fun hops hadj =>
        ⟨Bool.not_eq_true _ |>.mp hstub, insn, hinsn, hops, hadj⟩
      unfold execute at h
      split at h
      · rename_i hadj
        obtain ⟨h1, h2⟩ := body_charged h ht
        refine ⟨h1, fun t' ht' hsteps => hsilent (h2 t' ht' hsteps) fun k hk => ?_⟩
        rw [hadj] at hk
        cases hk
      · rename_i k hadj
        split_ifs at h with hcap
        · obtain rfl := Option.some.inj h
          exact ⟨ht, nofun⟩
        · have hlt : t.steps < opts.maxSteps := not_le.mp hcap
          obtain ⟨⟨whole, m⟩, hbegin, h⟩ := Option.bind_eq_some_iff.mp h
          dsimp only at h
          split_ifs at h with hwhole
          · obtain rfl := Option.some.inj h
            refine ⟨⟨Nat.le_succ _, hlt⟩, fun t' ht' hsteps => ?_⟩
            obtain rfl := Sum.inl.inj ht'
            exact absurd hsteps (Nat.succ_ne_self _)
          · obtain ⟨h1, h2⟩ := body_charged h ht
            refine ⟨h1, fun t' ht' hsteps => hsilent (h2 t' ht' hsteps) fun k' hk' m' hm' => ?_⟩
            obtain rfl := Option.some.inj (hadj.symm.trans hk')
            have heq : (whole, m) = (true, m') := Option.some.inj (hbegin.symm.trans hm')
            exact hwhole (congrArg Prod.fst heq)

/-- Turns one after the other. -/
theorem turns_succ (n : ℕ) (t : Turn M K) :
    turns lang cpu opts (n + 1) t = (turns lang cpu opts n t).bind fun r =>
      r.elim (Turn.turn lang cpu opts) fun run => some (.inr run) := by
  change (turns lang cpu opts n t).bind _ = _
  congr 1
  funext r
  cases r <;> rfl

theorem turns_charged {n : ℕ} {t : Turn M K} {r : Turn M K ⊕ Run M}
    (h : turns lang cpu opts n t = some r) (ht : t.steps ≤ opts.maxSteps) : Charged opts t r := by
  induction n generalizing r with
  | zero =>
    obtain rfl := Option.some.inj h
    exact ⟨le_rfl, ht⟩
  | succ n ih =>
    rw [turns_succ] at h
    obtain ⟨r', hr', h⟩ := Option.bind_eq_some_iff.mp h
    cases r' with
    | inl t' =>
      obtain ⟨h1, h2⟩ := ih hr'
      have hc := (turn_charged h h2).1
      cases r with
      | inl t'' => exact ⟨h1.trans hc.1, hc.2⟩
      | inr run => exact hc
    | inr run =>
      obtain rfl := Option.some.inj h
      exact ih hr'

/-- The loop is still going after any number of turns: it neither stops nor panics. -/
def GoesOn (lang : Language K) (cpu : Cpu M K) (opts : RunOptions) (t : Turn M K) : Prop :=
  ∀ n, ∃ t', turns lang cpu opts n t = some (.inl t')

/-- The instructions from here on are silent for ever. -/
def EndlessSilence (lang : Language K) (cpu : Cpu M K) (opts : RunOptions) (t : Turn M K) : Prop :=
  ∀ n, ∃ t', turns lang cpu opts n t = some (.inl t') ∧ Silent lang cpu opts t'

theorem turns_add {n k : ℕ} {t t' : Turn M K} (h : turns lang cpu opts n t = some (.inl t')) :
    turns lang cpu opts (n + k) t = turns lang cpu opts k t' := by
  induction k with
  | zero => exact h
  | succ k ih => rw [Nat.add_succ, turns_succ, turns_succ, ih]

/-- A bounded monotone sequence of numbers is constant from some point on. -/
theorem steps_settle {f : ℕ → ℕ} {bound : ℕ} (hmono : Monotone f) (hbound : ∀ n, f n ≤ bound) :
    ∃ N, ∀ n ≥ N, f n = f N := by
  let g : ℕ →o Fin (bound + 1) :=
    ⟨fun n => ⟨f n, Nat.lt_succ_of_le (hbound n)⟩, fun _ _ hle => hmono hle⟩
  obtain ⟨N, hN⟩ := WellFoundedGT.monotone_chain_condition g
  refine ⟨N, fun n hn => ?_⟩
  exact (congrArg Fin.val (hN n hn)).symm

/-- A loop that goes on for ever runs out of charges and is silent from some point on. -/
theorem GoesOn.endlessSilence {t : Turn M K} (h : GoesOn lang cpu opts t)
    (ht : t.steps ≤ opts.maxSteps) :
    ∃ n t', turns lang cpu opts n t = some (.inl t') ∧ EndlessSilence lang cpu opts t' := by
  choose f hf using h
  have hcharged : ∀ n, (f n).steps ≤ (f (n + 1)).steps ∧ (f (n + 1)).steps ≤ opts.maxSteps := by
    intro n
    have hn := turns_charged (hf n) ht
    have hs := hf (n + 1)
    rw [turns_succ, hf n] at hs
    exact (turn_charged hs hn.2).1
  have hmono : Monotone fun n => (f n).steps := monotone_nat_of_le_succ fun n => (hcharged n).1
  have hbound : ∀ n, (f n).steps ≤ opts.maxSteps := fun n => (turns_charged (hf n) ht).2
  obtain ⟨N, hN⟩ := steps_settle hmono hbound
  refine ⟨N, f N, hf N, fun n => ⟨f (N + n), ?_, ?_⟩⟩
  · rw [← turns_add (hf N)]
    exact hf (N + n)
  · have hs := hf (N + n + 1)
    rw [turns_succ, hf (N + n)] at hs
    refine (turn_charged hs (turns_charged (hf _) ht).2).2 _ rfl ?_
    rw [hN (N + n + 1) (by omega), hN (N + n) (by omega)]

/-- The 64-bit program counter of a loop that goes on comes back to where it was. -/
theorem EndlessSilence.cycle {t : Turn M K} (h : EndlessSilence lang cpu opts t) :
    ∃ i j ti tj, i < j ∧ turns lang cpu opts i t = some (.inl ti) ∧
      turns lang cpu opts j t = some (.inl tj) ∧ ti.pc = tj.pc := by
  choose f hf _ using h
  obtain ⟨i, j, hne, hpc⟩ := Finite.exists_ne_map_eq_of_infinite fun n => (f n).pc
  obtain hlt | hlt := lt_or_gt_of_ne hne
  · exact ⟨i, j, f i, f j, hlt, hf i, hf j, hpc⟩
  · exact ⟨j, i, f j, f i, hlt, hf j, hf i, hpc.symm⟩

/-- A run stops after finitely many turns within its budget exactly when it never comes to a point
from which it falls through silent instructions for ever, going round a cycle of addresses. -/
theorem resume_ends_iff (lang : Language K) (cpu : Cpu M K) (opts : RunOptions) (image : Image K)
    (m : M) :
    ((∃ n, ∀ t, turns lang cpu opts n (resume cpu opts image m) ≠ some (.inl t)) ∧
      (∀ n t, turns lang cpu opts n (resume cpu opts image m) = some (.inl t) →
        t.steps ≤ opts.maxSteps) ∧
      ∀ n run, turns lang cpu opts n (resume cpu opts image m) = some (.inr run) →
        run.steps ≤ opts.maxSteps) ↔
    ¬ ∃ n t, turns lang cpu opts n (resume cpu opts image m) = some (.inl t) ∧
      EndlessSilence lang cpu opts t ∧
      ∃ i j ti tj, i < j ∧ turns lang cpu opts i t = some (.inl ti) ∧
        turns lang cpu opts j t = some (.inl tj) ∧ ti.pc = tj.pc := by
  have hstart : (resume cpu opts image m : Turn M K).steps ≤ opts.maxSteps := Nat.zero_le _
  constructor
  · rintro ⟨⟨n, hn⟩, -, -⟩ ⟨k, t, hk, hsilent, -⟩
    -- the endless part would still be going at turn `n`
    obtain ⟨t', ht', -⟩ := hsilent n
    rw [← turns_add hk, Nat.add_comm] at ht'
    have hdone : ∀ j t', turns lang cpu opts (n + j) (resume cpu opts image m) ≠
        some (.inl t') := by
      intro j
      induction j with
      | zero => exact hn
      | succ j ih =>
        intro t' h
        rw [← Nat.add_assoc, turns_succ] at h
        obtain ⟨r, hr, h⟩ := Option.bind_eq_some_iff.mp h
        cases r with
        | inl t'' => exact ih t'' hr
        | inr run => cases h
    exact hdone k t' ht'
  · intro h
    refine ⟨?_, fun n t hn => (turns_charged hn hstart).2, fun n run hn =>
      turns_charged hn hstart⟩
    by_contra hgoes
    push Not at hgoes
    obtain ⟨n, t, hn, hsilent⟩ := GoesOn.endlessSilence hgoes hstart
    exact h ⟨n, t, hn, hsilent, hsilent.cycle⟩

/-- The `NOP`s of x86 before anything else; a `NOP` lifts to no p-code. -/
def nopLanguage : Language Unit where
  disassemble bytes address :=
    (List.range (bytes.takeWhile (· == 0x90)).length).map fun i =>
      ⟨address + BitVec.ofNat 64 i, [0x90], "NOP", "", []⟩
  classify _ _ := none

/-- A machine whose state is nothing: only a language with p-code would need one. -/
def idleCpu : Cpu Unit Unit where
  start _ m := m
  setAt _ _ m := m
  record _ m := m
  readRegister _ _ _ := none
  writeRegister _ _ _ _ := none
  readArg _ _ := none
  step _ _ := none
  beginAdjusted _ _ := none
  endAdjusted m := some m

/-- One `NOP` at address 0 of a bus without address lines. -/
def nopImage : Image Unit where
  blocks := [(0, [0x90])]
  base := 0
  addressMask := some 0
  ascending := by decide
  nonempty := by decide
  fits := by decide

/-- The turn of `nopImage` once its `NOP` is decoded. -/
def nopTurn : Turn Unit Unit where
  image := (nopImage.at_ nopLanguage 0).1
  m := ()
  frames := []
  pc := 1
  steps := 0

/-- The `NOP` of `nopImage` follows itself and the budget is never charged. -/
theorem nopImage_runs_for_ever :
    ¬ ∃ n, ∀ t, turns nopLanguage idleCpu {} n (resume idleCpu {} nopImage ()) ≠
      some (.inl t) := by
  rintro ⟨n, hn⟩
  have hfirst : turns nopLanguage idleCpu {} 1 (resume idleCpu {} nopImage ()) =
      some (.inl nopTurn) := rfl
  have hnext : Turn.turn nopLanguage idleCpu {} nopTurn = some (.inl nopTurn) := rfl
  have hall : ∀ n, turns nopLanguage idleCpu {} (n + 1) (resume idleCpu {} nopImage ()) =
      some (.inl nopTurn) := by
    intro n
    induction n with
    | zero => exact hfirst
    | succ n ih =>
      rw [turns_succ, ih]
      exact hnext
  cases n with
  | zero => exact hn _ rfl
  | succ n => exact hn _ (hall n)

end Turn
end Emu
end Mosura
