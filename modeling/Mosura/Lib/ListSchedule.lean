import Mathlib

/-! List scheduling from the end: of the atoms whose dependents are all placed, the best is placed
above them. -/

namespace ListSchedule

section Best

variable {α : Type*} (better : α → α → Bool)

/-- The best of a list, by a walk that keeps the best so far. -/
def best (l : List α) : Option α :=
  l.foldl (fun b c => match b with
    | none => some c
    | some b => if better c b then some c else some b) none

variable {better}

theorem foldl_best (htrans : ∀ a b c, better a b → better b c → better a c)
    (htotal : ∀ a b, a ≠ b → better a b ∨ better b a) (l : List α) {done : List α} {b : α}
    (hb : b ∈ done) (hbest : ∀ c ∈ done, c ≠ b → better b c) :
    ∃ b' ∈ done ++ l, l.foldl (fun b c => match b with
      | none => some c
      | some b => if better c b then some c else some b) (some b) = some b' ∧
      ∀ c ∈ done ++ l, c ≠ b' → better b' c := by
  induction l generalizing done b with
  | nil => exact ⟨b, by simpa using hb, rfl, by simpa using hbest⟩
  | cons c l ih =>
    have hassoc : done ++ c :: l = (done ++ [c]) ++ l := by simp
    rw [hassoc, List.foldl_cons]
    dsimp only
    by_cases hc : better c b
    · rw [if_pos hc]
      apply ih
      · simp
      · intro d hd hne
        obtain hd | hd := List.mem_append.mp hd
        · by_cases hdb : d = b
          · exact hdb ▸ hc
          · exact htrans c b d hc (hbest d hd hdb)
        · exact absurd (List.mem_singleton.mp hd) hne
    · rw [if_neg hc]
      apply ih
      · exact List.mem_append_left _ hb
      · intro d hd hne
        obtain hd | hd := List.mem_append.mp hd
        · exact hbest d hd hne
        · rw [List.mem_singleton.mp hd] at hne ⊢
          exact (htotal c b hne).resolve_left hc

/-- In a strict total order the best of a list that is not empty beats all others. -/
theorem best_spec (htrans : ∀ a b c, better a b → better b c → better a c)
    (htotal : ∀ a b, a ≠ b → better a b ∨ better b a) {l : List α} (hl : l ≠ []) :
    ∃ b ∈ l, best better l = some b ∧ ∀ c ∈ l, c ≠ b → better b c := by
  cases l with
  | nil => exact absurd rfl hl
  | cons c l =>
    exact foldl_best htrans htotal l (List.mem_singleton_self c)
      fun d hd hne => absurd (List.mem_singleton.mp hd) hne

end Best

variable (n : ℕ) (dep : ℕ → ℕ → Prop)

/-- `c` can be placed above `below`: it is not there, and all that depend on it are. -/
structure Ready (below : List ℕ) (c : ℕ) : Prop where
  lt : c < n
  unplaced : c ∉ below
  free : ∀ i < n, dep i c → i ∈ below

variable (outranks : List ℕ → ℕ → ℕ → Prop)

/-- An order built from its end, where each atom outranks all others that were ready. -/
inductive Built : List ℕ → Prop
  | nil : Built []
  | cons {below : List ℕ} {b : ℕ} : Built below → Ready n dep below b →
      (∀ c, Ready n dep below c → c ≠ b → outranks below b c) → Built (b :: below)

variable {n dep outranks} {l : List ℕ}

theorem Built.nodup (h : Built n dep outranks l) : l.Nodup := by
  induction h with
  | nil => exact List.nodup_nil
  | cons _ hready _ ih => exact List.nodup_cons.mpr ⟨hready.unplaced, ih⟩

theorem Built.lt (h : Built n dep outranks l) {c : ℕ} (hc : c ∈ l) : c < n := by
  induction h with
  | nil => exact absurd hc List.not_mem_nil
  | cons _ hready _ ih =>
    obtain rfl | hc := List.mem_cons.mp hc
    · exact hready.lt
    · exact ih hc

/-- The last atom that is not placed is ready. -/
theorem exists_ready (hdep : ∀ i j, dep i j → j < i) (hlen : l.length < n) :
    ∃ c, Ready n dep l c := by
  have hne : ((Finset.range n).filter (· ∉ l)).Nonempty := by
    by_contra hempty
    have hsub : Finset.range n ⊆ l.toFinset := fun c hc => by
      by_contra hnot
      exact hempty ⟨c, Finset.mem_filter.mpr ⟨hc, by simpa using hnot⟩⟩
    have hcard := (Finset.card_le_card hsub).trans (List.toFinset_card_le l)
    rw [Finset.card_range] at hcard
    omega
  obtain ⟨c, hc, hmax⟩ := Finset.exists_max_image _ id hne
  obtain ⟨hlt, hnot⟩ := Finset.mem_filter.mp hc
  refine ⟨c, Finset.mem_range.mp hlt, hnot, fun i hi hd => ?_⟩
  by_contra hmem
  have hle := hmax i (Finset.mem_filter.mpr ⟨Finset.mem_range.mpr hi, hmem⟩)
  exact absurd (hdep i c hd) (not_lt.mpr hle)

theorem Built.perm (h : Built n dep outranks l) (hlen : l.length = n) :
    l.Perm (List.range n) := by
  have hsub : l ⊆ List.range n := fun c hc => List.mem_range.mpr (h.lt hc)
  apply (List.subperm_of_subset h.nodup hsub).perm_of_length_le
  rw [List.length_range, hlen]

/-- Every pick of the walk was the best of those ready. -/
theorem Built.picked {above below : List ℕ} {b : ℕ}
    (h : Built n dep outranks (above ++ b :: below)) :
    Ready n dep below b ∧ ∀ c, Ready n dep below c → c ≠ b → outranks below b c := by
  induction above with
  | nil =>
    cases h with
    | cons _ hready hbest => exact ⟨hready, hbest⟩
  | cons a above ih =>
    cases h with
    | cons h _ _ => exact ih h

end ListSchedule
