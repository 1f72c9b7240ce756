import Mathlib

/-! Worklist algorithms: what holds when the list is empty, and why it becomes empty. -/

namespace Worklist

variable {σ ι : Type*}

/-- Pop an item, process it, push the items it names. -/
def step (process : ι → σ → σ × List ι) : σ × List ι → σ × List ι
  | (s, []) => (s, [])
  | (s, i :: rest) => ((process i s).1, (process i s).2 ++ rest)

variable (process : ι → σ → σ × List ι) (Inv : σ → Prop)

theorem step_nil (s : σ) : step process (s, []) = (s, []) := rfl

theorem invariant_step {process : ι → σ → σ × List ι} {Inv : σ → Prop}
    (hinv : ∀ i s, Inv s → Inv (process i s).1) (st : σ × List ι)
    (h : Inv st.1) : Inv (step process st).1 := by
  match st, h with
  | (s, []), h => exact h
  | (s, i :: rest), h => exact hinv i s h

/-- An invariant of the processing of one item holds throughout a run. -/
theorem invariant_run (hinv : ∀ i s, Inv s → Inv (process i s).1) (n : ℕ) (st : σ × List ι)
    (h : Inv st.1) : Inv ((step process)^[n] st).1 := by
  induction n generalizing st with
  | zero => exact h
  | succ n ih => exact ih _ (invariant_step hinv st h)

/-- If processing an item makes it stable and destabilises only what it pushes, then every item
that is not on the list is stable. -/
theorem stable_run {Stable : σ → ι → Prop} (hinv : ∀ i s, Inv s → Inv (process i s).1)
    (hstable : ∀ i s j, Inv s → Stable s j ∨ j = i →
      Stable (process i s).1 j ∨ j ∈ (process i s).2)
    (n : ℕ) (st : σ × List ι) (h : Inv st.1) (hs : ∀ j, Stable st.1 j ∨ j ∈ st.2) (j : ι) :
    Stable ((step process)^[n] st).1 j ∨ j ∈ ((step process)^[n] st).2 := by
  induction n generalizing st with
  | zero => exact hs j
  | succ n ih =>
    refine ih _ (invariant_step hinv st h) fun k => ?_
    match st, h, hs k with
    | (s, []), _, hk => exact hk
    | (s, i :: rest), h, hk =>
      have hk' : (Stable s k ∨ k = i) ∨ k ∈ rest := by
        rcases hk with hk | hk
        · exact .inl (.inl hk)
        · exact (List.mem_cons.mp hk).imp .inr id
      rcases hk' with hk' | hk'
      · rcases hstable i s k h hk' with hk | hk
        · exact .inl hk
        · exact .inr (List.mem_append_left _ hk)
      · exact .inr (List.mem_append_right _ hk')

/-- What holds of every item on the list, and of what is pushed for such an item, holds of every item
ever processed. -/
theorem pending_run (P : ι → Prop)
    (hinv : ∀ i s, P i → Inv s → Inv (process i s).1 ∧ ∀ j ∈ (process i s).2, P j)
    (n : ℕ) (st : σ × List ι) (h : Inv st.1) (hP : ∀ i ∈ st.2, P i) :
    Inv ((step process)^[n] st).1 := by
  induction n generalizing st with
  | zero => exact h
  | succ n ih =>
    match st, h, hP with
    | (s, []), h, hP => exact ih (s, []) h hP
    | (s, i :: rest), h, hP =>
      obtain ⟨hs, hpush⟩ := hinv i s (hP i List.mem_cons_self) h
      refine ih _ hs fun j hj => ?_
      rcases List.mem_append.mp hj with hj | hj
      · exact hpush j hj
      · exact hP j (List.mem_cons_of_mem _ hj)

/-- Where what an item pushes is paid for by a measure, as many turns as the measure and the list
together leave nothing on the list. -/
theorem drained (μ : σ → ℕ)
    (hμ : ∀ i s, μ (process i s).1 + (process i s).2.length ≤ μ s)
    (n : ℕ) (st : σ × List ι) (h : st.2.length + μ st.1 ≤ n) :
    ((step process)^[n] st).2 = [] := by
  induction n generalizing st with
  | zero =>
    have h0 : st.2.length = 0 := by omega
    exact List.length_eq_zero_iff.mp h0
  | succ n ih =>
    match st, h with
    | (s, []), _ => rw [Function.iterate_fixed (step_nil process s)]
    | (s, i :: rest), h =>
      refine ih _ ?_
      have hi := hμ i s
      change ((process i s).2 ++ rest).length + μ (process i s).1 ≤ n
      rw [List.length_append]
      change rest.length + 1 + μ s ≤ n + 1 at h
      omega

end Worklist
