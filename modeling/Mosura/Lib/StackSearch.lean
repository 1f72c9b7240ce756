import Mathlib

/-! Loops that repeat a step until it stops, and how much a search with a stack has left to do. -/

namespace StackSearch

variable {σ : Type*} {step : σ → Option σ} {s : σ} {fuel : ℕ}

/-- Repeat `step` until it stops; `none` where `fuel` rounds do not end it. -/
def repeatStep (step : σ → Option σ) : ℕ → σ → Option σ
  | 0, _ => none
  | fuel + 1, s =>
    match step s with
    | none => some s
    | some s' => repeatStep step fuel s'

/-- A step that keeps an invariant and lowers a measure stops in a state with the invariant. -/
theorem repeatStep_spec {Inv : σ → Prop} {μ : σ → ℕ}
    (hstep : ∀ s s', Inv s → step s = some s' → Inv s' ∧ μ s' < μ s) (hs : Inv s)
    (hfuel : μ s < fuel) : ∃ s', repeatStep step fuel s = some s' ∧ Inv s' ∧ step s' = none := by
  induction fuel generalizing s with
  | zero => exact absurd hfuel (Nat.not_lt_zero _)
  | succ fuel ih =>
    rw [repeatStep]
    cases hnext : step s with
    | none => exact ⟨s, rfl, hs, hnext⟩
    | some s' =>
      obtain ⟨hinv, hlt⟩ := hstep s s' hs hnext
      exact ih hinv (by omega)

variable {ι : Type*} {outs : ι → ℕ} {unseen : Finset ι} {stack : List (ι × ℕ)}
variable {b c : ι} {i : ℕ}

/-- The edges still to look at, each point itself included: all those of the unseen points, and
those from its position on of each point on the stack. -/
def work (outs : ι → ℕ) (unseen : Finset ι) (stack : List (ι × ℕ)) : ℕ :=
  ∑ b ∈ unseen, (outs b + 1) + (stack.map fun p => outs p.1 + 1 - p.2).sum

theorem work_pop (hi : i ≤ outs b) : work outs unseen stack < work outs unseen ((b, i) :: stack) := by
  unfold work
  simp only [List.map_cons, List.sum_cons]
  omega

theorem work_next (hi : i < outs b) :
    work outs unseen ((b, i + 1) :: stack) < work outs unseen ((b, i) :: stack) := by
  unfold work
  simp only [List.map_cons, List.sum_cons]
  omega

theorem work_push [DecidableEq ι] (hc : c ∈ unseen) :
    work outs (unseen.erase c) ((c, 0) :: stack) = work outs unseen stack := by
  unfold work
  simp only [List.map_cons, List.sum_cons, ← Finset.add_sum_erase unseen _ hc]
  omega

/-- A point that is marked leaves the unmarked ones. -/
theorem unmarked_update [DecidableEq ι] (S : Finset ι) (mark : ι → Bool) :
    (S.filter fun b => Function.update mark c true b = false) =
      (S.filter fun b => mark b = false).erase c := by
  ext b
  rw [Finset.mem_erase, Finset.mem_filter, Finset.mem_filter]
  by_cases hb : b = c
  · rw [hb, Function.update_self]
    simp
  · rw [Function.update_of_ne hb]
    simp [hb]

end StackSearch
