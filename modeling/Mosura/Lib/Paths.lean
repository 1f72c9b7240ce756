import Mathlib

/-! Paths of a step relation, and what is live between a definition and the reads of its value. -/

namespace Paths

variable {α : Type*} {step : α → α → Prop}

/-- `l` lists the points of a path from `a` to `b`, both ends included. -/
inductive Path (step : α → α → Prop) : α → α → List α → Prop
  | single (a : α) : Path step a a [a]
  | cons {a b c : α} {l : List α} : step a b → Path step b c l → Path step a c (a :: l)

variable {a b c d x : α} {l l' : List α}

theorem Path.eq_cons (h : Path step a b l) : l = a :: l.tail := by
  cases h with
  | single => rfl
  | cons => rfl

theorem Path.head_mem (h : Path step a b l) : a ∈ l := by
  rw [h.eq_cons]
  exact List.mem_cons_self

theorem Path.last_mem (h : Path step a b l) : b ∈ l := by
  induction h with
  | single => exact List.mem_singleton_self _
  | cons _ _ ih => exact List.mem_cons_of_mem _ ih

theorem Path.append (h : Path step a b l) (h' : Path step b c l') :
    Path step a c (l ++ l'.tail) := by
  induction h with
  | single b =>
    rw [List.singleton_append, ← h'.eq_cons]
    exact h'
  | cons hs _ ih => exact .cons hs (ih h')

/-- From a point on a path the rest of it leads on to its end. -/
theorem Path.suffix (h : Path step a b l) (hx : x ∈ l) : ∃ l', Path step x b l' ∧ l' <:+ l := by
  induction h with
  | single a =>
    rw [List.mem_singleton.mp hx]
    exact ⟨[a], .single a, List.suffix_refl _⟩
  | cons hs hp ih =>
    rcases List.mem_cons.mp hx with rfl | hx
    · exact ⟨_, .cons hs hp, List.suffix_refl _⟩
    · obtain ⟨l', hp', hl'⟩ := ih hx
      exact ⟨l', hp', hl'.trans (List.suffix_cons _ _)⟩

/-- From the last time a path passes `d`, it does not come back to `d`. -/
theorem Path.from_last (h : Path step a b l) (hd : d ∈ l) :
    ∃ l', Path step d b l' ∧ d ∉ l'.tail := by
  induction h with
  | single a =>
    rw [List.mem_singleton.mp hd]
    exact ⟨[a], .single a, List.not_mem_nil⟩
  | cons hs hp ih =>
    rename_i l
    by_cases hl : d ∈ l
    · exact ih hl
    · rcases List.mem_cons.mp hd with rfl | hd
      · exact ⟨_, .cons hs hp, hl⟩
      · exact absurd hd hl

theorem exists_path (h : Relation.ReflTransGen step a b) : ∃ l, Path step a b l := by
  induction h using Relation.ReflTransGen.head_induction_on with
  | refl => exact ⟨[b], .single b⟩
  | head hs _ ih =>
    obtain ⟨l, hl⟩ := ih
    exact ⟨_, .cons hs hl⟩

/-- From `x` a point of `R` can be reached without coming (back) to `d`. -/
def Live (step : α → α → Prop) (d : α) (R : Set α) (x : α) : Prop :=
  ∃ l, ∃ r ∈ R, Path step x r l ∧ d ∉ l.tail

/-- `x` is on a path from `d` to a point of `R` that does not come back to `d`. -/
def Between (step : α → α → Prop) (d : α) (R : Set α) (x : α) : Prop :=
  ∃ l, ∃ r ∈ R, Path step d r l ∧ d ∉ l.tail ∧ x ∈ l

variable {R : Set α}

theorem Live.of_mem (h : x ∈ R) : Live step d R x := ⟨[x], x, h, .single x, List.not_mem_nil⟩

theorem Live.of_step (hs : step a b) (hb : b ≠ d) (h : Live step d R b) : Live step d R a := by
  obtain ⟨l, r, hr, hp, hd⟩ := h
  refine ⟨a :: l, r, hr, .cons hs hp, ?_⟩
  rw [List.tail_cons, hp.eq_cons]
  exact List.not_mem_cons_of_ne_of_not_mem hb.symm hd

/-- What contains `R` and is closed under the steps back from any point but `d` contains all that is
live. -/
theorem Live.subset {C : Set α} (hR : R ⊆ C)
    (hC : ∀ a b, step a b → b ≠ d → b ∈ C → a ∈ C) (h : Live step d R x) : x ∈ C := by
  obtain ⟨l, r, hr, hp, hd⟩ := h
  induction hp with
  | single => exact hR hr
  | cons hs hp ih =>
    rw [List.tail_cons, hp.eq_cons] at hd
    have hb := ih hr fun hm => hd (List.mem_cons_of_mem _ hm)
    exact hC _ _ hs (fun he => hd (he ▸ List.mem_cons_self)) hb

theorem Between.live (h : Between step d R x) : Live step d R x := by
  obtain ⟨l, r, hr, hp, hd, hx⟩ := h
  obtain ⟨l', hp', hl'⟩ := hp.suffix hx
  refine ⟨l', r, hr, hp', fun hm => hd ?_⟩
  rw [hp.eq_cons] at hl'
  rcases List.suffix_cons_iff.mp hl' with rfl | hl'
  · exact hm
  · exact hl'.subset (List.mem_of_mem_tail hm)

/-- Where all paths from `e` to `R` pass `d`, what is live and reached from `e` lies between `d` and
`R`. -/
theorem Live.between {e : α} (hdom : ∀ r ∈ R, ∀ l, Path step e r l → d ∈ l)
    (he : Path step e x l) (h : Live step d R x) : Between step d R x := by
  obtain ⟨l', r, hr, hp, hd⟩ := h
  have hmem : d ∈ l := (List.mem_append.mp (hdom r hr _ (he.append hp))).resolve_right hd
  obtain ⟨m, hm, hdm⟩ := he.from_last hmem
  refine ⟨m ++ l'.tail, r, hr, hm.append hp, ?_, ?_⟩
  · rw [hm.eq_cons, List.cons_append, List.tail_cons]
    exact fun h => (List.mem_append.mp h).elim hdm hd
  · exact List.mem_append_left _ hm.last_mem

end Paths
