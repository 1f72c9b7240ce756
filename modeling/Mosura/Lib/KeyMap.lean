import Mathlib

/-! An ordered map kept as a list sorted by key. -/

namespace KeyMap

variable {κ α : Type*} [LinearOrder κ]

/-- The entry of `k` is set; the list stays sorted. -/
def insert (k : κ) (a : α) : List (κ × α) → List (κ × α)
  | [] => [(k, a)]
  | (k', a') :: l =>
    if k < k' then (k, a) :: (k', a') :: l
    else if k = k' then (k, a) :: l
    else (k', a') :: insert k a l

def Sorted (l : List (κ × α)) : Prop := l.Pairwise fun p q => p.1 < q.1

def Fresh (k : κ) (l : List (κ × α)) : Prop := ∀ e ∈ l, e.1 ≠ k

theorem insert_perm {k : κ} {l : List (κ × α)} (h : Fresh k l) (a : α) :
    (insert k a l).Perm ((k, a) :: l) := by
  induction l with
  | nil => exact List.Perm.refl _
  | cons e l ih =>
    have hne : k ≠ e.1 := (h e List.mem_cons_self).symm
    have hl : Fresh k l := fun x hx => h x (List.mem_cons_of_mem _ hx)
    unfold insert
    split_ifs
    · exact List.Perm.refl _
    · exact ((ih hl).cons e).trans (List.Perm.swap _ _ _)

theorem mem_insert {k : κ} {l : List (κ × α)} (h : Fresh k l) {a : α} {e : κ × α} :
    e ∈ insert k a l ↔ e = (k, a) ∨ e ∈ l :=
  (insert_perm h a).mem_iff.trans List.mem_cons

theorem eq_or_mem_of_mem_insert {k : κ} {l : List (κ × α)} {a : α} {e : κ × α}
    (h : e ∈ insert k a l) : e = (k, a) ∨ e ∈ l := by
  induction l with
  | nil => exact .inl (List.mem_singleton.mp h)
  | cons e' l ih =>
    unfold insert at h
    split_ifs at h
    · exact List.mem_cons.mp h
    · exact (List.mem_cons.mp h).imp_right fun h => List.mem_cons_of_mem _ h
    · obtain heq | h := List.mem_cons.mp h
      · exact .inr (heq ▸ List.mem_cons_self)
      · exact (ih h).imp_right fun h => List.mem_cons_of_mem _ h

/-- A key that is there already keeps its place. -/
theorem Sorted.insert {k : κ} {l : List (κ × α)} (hs : Sorted l) (a : α) :
    Sorted (insert k a l) := by
  induction l with
  | nil => exact List.pairwise_singleton _ _
  | cons e l ih =>
    obtain ⟨he, hs'⟩ := List.pairwise_cons.mp hs
    unfold KeyMap.insert
    split_ifs with hlt heq
    · refine List.pairwise_cons.mpr ⟨fun x hx => ?_, hs⟩
      obtain rfl | hx := List.mem_cons.mp hx
      · exact hlt
      · exact hlt.trans (he x hx)
    · exact List.pairwise_cons.mpr ⟨fun x hx => heq ▸ he x hx, hs'⟩
    · refine List.pairwise_cons.mpr ⟨fun x hx => ?_, ih hs'⟩
      obtain rfl | hx := eq_or_mem_of_mem_insert hx
      · exact (not_lt.mp hlt).lt_of_ne (Ne.symm heq)
      · exact he x hx

/-- A key below all others comes first. -/
theorem insert_of_lt {k : κ} {l : List (κ × α)} (h : ∀ e ∈ l, k < e.1) (a : α) :
    insert k a l = (k, a) :: l := by
  cases l with
  | nil => rfl
  | cons e l => exact if_pos (h e List.mem_cons_self)

/-- The value of `k`. -/
def lookup (k : κ) (l : List (κ × α)) : Option α := (l.find? (·.1 = k)).map Prod.snd

/-- The entry of `k` is removed. -/
def erase (k : κ) (l : List (κ × α)) : List (κ × α) := l.filter (·.1 ≠ k)

theorem lookup_eq_some_iff {k : κ} {l : List (κ × α)} (hs : Sorted l) {a : α} :
    lookup k l = some a ↔ (k, a) ∈ l := by
  induction l with
  | nil => exact iff_of_false nofun List.not_mem_nil
  | cons e l ih =>
    obtain ⟨he, hs'⟩ := List.pairwise_cons.mp hs
    unfold lookup at ih ⊢
    by_cases hk : e.1 = k
    · rw [List.find?_cons_of_pos (by simpa using hk), List.mem_cons]
      constructor
      · intro h
        exact .inl (Prod.ext hk.symm (Option.some.inj h).symm)
      · rintro (rfl | hmem)
        · rfl
        · exact absurd hk (he _ hmem).ne
    · rw [List.find?_cons_of_neg (by simpa using hk), ih hs', List.mem_cons]
      exact (or_iff_right fun heq => hk (congrArg Prod.fst heq.symm)).symm

theorem Sorted.nodup {l : List (κ × α)} (h : Sorted l) : l.Nodup :=
  List.Pairwise.imp (fun hlt heq => hlt.ne (congrArg Prod.fst heq)) h

/-- Sorted lists with the same entries are the same. -/
theorem Sorted.ext {l l' : List (κ × α)} (h : Sorted l) (h' : Sorted l')
    (hmem : ∀ e, e ∈ l ↔ e ∈ l') : l = l' := by
  refine List.Perm.eq_of_pairwise (fun a b _ _ hab hba => ?_) h h'
    ((List.perm_ext_iff_of_nodup h.nodup h'.nodup).mpr hmem)
  exact absurd hba hab.asymm

theorem lookup_insert (k j : κ) (a : α) (l : List (κ × α)) :
    lookup j (insert k a l) = if j = k then some a else lookup j l := by
  unfold lookup
  by_cases hj : j = k
  · subst hj
    rw [if_pos rfl]
    induction l with
    | nil => simp only [insert, List.find?_cons_of_pos, decide_true, Option.map_some]
    | cons e l ih =>
      unfold insert
      split_ifs with hlt heq
      · simp only [List.find?_cons_of_pos, decide_true, Option.map_some]
      · simp only [List.find?_cons_of_pos, decide_true, Option.map_some]
      · rw [List.find?_cons_of_neg (by simpa using Ne.symm heq), ih]
  · have hkj : ¬k = j := fun h => hj h.symm
    rw [if_neg hj]
    induction l with
    | nil => simp only [insert, List.find?_cons, hkj, decide_false]
    | cons e l ih =>
      unfold insert
      split_ifs with hlt heq
      · rw [List.find?_cons_of_neg (by simpa using hkj)]
      · have hej : ¬e.1 = j := fun h => hkj (heq.trans h)
        rw [List.find?_cons_of_neg (by simpa using hkj),
          List.find?_cons_of_neg (by simpa using hej)]
      · by_cases hej : e.1 = j
        · rw [List.find?_cons_of_pos (by simpa using hej),
            List.find?_cons_of_pos (by simpa using hej)]
        · rw [List.find?_cons_of_neg (by simpa using hej),
            List.find?_cons_of_neg (by simpa using hej), ih]

theorem lookup_erase (k j : κ) (l : List (κ × α)) :
    lookup j (erase k l) = if j = k then none else lookup j l := by
  unfold lookup erase
  rw [List.find?_filter]
  split_ifs with hj
  · rw [List.find?_eq_none.mpr, Option.map_none]
    intro e _ he
    simp only [ne_eq, decide_not, Bool.not_eq_true', decide_eq_false_iff_not,
      decide_eq_true_eq] at he
    exact he.1 (he.2.trans hj)
  · congr 2
    funext e
    by_cases he : e.1 = j
    · simp [he, hj]
    · simp [he]

end KeyMap
