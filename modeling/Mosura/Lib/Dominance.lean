import Mosura.Lib.Paths

/-! Dominance over a step relation, and maps that follow its steps. -/

namespace Paths

variable {α β : Type*} {step : α → α → Prop} {step' : β → β → Prop}
variable {a b c d e x : α} {l : List α}

theorem Path.reaches (h : Path step a b l) : Relation.ReflTransGen step a b := by
  induction h with
  | single => exact .refl
  | cons hs _ ih => exact .head hs ih

/-- A path comes to any of its points before it ends. -/
theorem Path.upTo (h : Path step a b l) (hx : x ∈ l) :
    ∃ l', Path step a x l' ∧ l' ⊆ l ∧ (x ≠ b → l'.length < l.length) := by
  induction h with
  | single a =>
    rw [List.mem_singleton.mp hx]
    exact ⟨[a], .single a, List.Subset.refl _, fun hne => absurd rfl hne⟩
  | @cons a b c l hs hp ih =>
    by_cases ha : x = a
    · subst ha
      refine ⟨[x], .single x, List.cons_subset.mpr ⟨List.mem_cons_self, List.nil_subset _⟩, fun _ => ?_⟩
      rw [hp.eq_cons]
      simp only [List.length_cons, List.length_nil]
      omega
    · obtain ⟨l', hp', hsub, hlen⟩ := ih ((List.mem_cons.mp hx).resolve_left ha)
      refine ⟨a :: l', .cons hs hp', List.cons_subset_cons a hsub, fun hne => ?_⟩
      exact Nat.succ_lt_succ (hlen hne)

/-- Every path from `e` to `x` passes `d`. -/
def Dominates (step : α → α → Prop) (e d x : α) : Prop := ∀ l, Path step e x l → d ∈ l

theorem Dominates.refl : Dominates step e x x := fun _ h => h.last_mem

/-- What dominates the next point dominates this one too, unless it is the next point. -/
theorem Dominates.of_step (hs : step a b) (hb : b ≠ d) (h : Dominates step e d b) :
    Dominates step e d a := by
  intro l hp
  have hnext : Path step e b (l ++ [b]) := hp.append (.cons hs (.single b))
  refine (List.mem_append.mp (h _ hnext)).resolve_right fun hm => ?_
  exact hb (List.mem_singleton.mp hm).symm

theorem Live.of_path {R : Set α} (hp : Path step a b l) (hd : d ∉ l.tail) (h : Live step d R b) :
    Live step d R a := by
  obtain ⟨m, r, hr, hm, hdm⟩ := h
  refine ⟨l ++ m.tail, r, hr, hp.append hm, ?_⟩
  rw [hp.eq_cons, List.cons_append, List.tail_cons]
  exact fun hx => (List.mem_append.mp hx).elim hd hdm

/-- Two points that dominate each other are one, if they are reached at all. -/
theorem Dominates.antisymm (hr : Relation.ReflTransGen step e x) (h : Dominates step e d x)
    (h' : Dominates step e x d) : d = x := by
  by_contra hne
  obtain ⟨l, hl⟩ := exists_path hr
  -- a path to `x` passes `d`, and before it `x`: there is always a shorter one
  have hnone : ∀ n, ∀ l, l.length = n → ¬Path step e x l := by
    intro n
    induction n using Nat.strong_induction_on with
    | h n ih =>
      intro l hn hp
      obtain ⟨ld, hpd, -, hlen⟩ := hp.upTo (h l hp)
      obtain ⟨lx, hpx, -, hlen'⟩ := hpd.upTo (h' ld hpd)
      exact ih lx.length (by have := hlen hne; have := hlen' (Ne.symm hne); omega) lx rfl hpx
  exact hnone _ l rfl hl

end Paths
