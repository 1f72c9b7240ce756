import Mosura.Lib.Reducible

/-! The numbers of a depth-first spanning tree, and what they say about the paths of the graph. -/

namespace Paths

variable {α : Type*} {S : Set α} {root : α} {edge tree back : α → α → Prop} {visit size : α → ℤ}
variable {a b c p t x y : α}

/-- `b` is numbered among the descendants of `a`. -/
def InSubtree (visit size : α → ℤ) (a b : α) : Prop := visit a ≤ visit b ∧ visit b < visit a + size a

instance : Decidable (InSubtree visit size a b) := inferInstanceAs (Decidable (_ ∧ _))

/-- The preorder numbers and the numbers of descendants of a depth-first search of `S` from `root`,
whose back edges lead to a point the search has not left. -/
structure SpanningTree (S : Set α) (root : α) (edge tree back : α → α → Prop)
    (visit size : α → ℤ) : Prop where
  root_mem : root ∈ S
  root_visit : ∀ a ∈ S, visit root ≤ visit a
  inj : ∀ a ∈ S, ∀ b ∈ S, visit a = visit b → a = b
  size_pos : ∀ a ∈ S, 0 < size a
  nested : ∀ a ∈ S, ∀ b ∈ S, InSubtree visit size a b → visit b + size b ≤ visit a + size a
  parent : ∀ a ∈ S, a ≠ root → ∃ p, tree p a
  tree_mem : ∀ p a, tree p a → p ∈ S ∧ a ∈ S ∧ edge p a
  tree_subtree : ∀ p a, tree p a → visit p < visit a ∧ visit a < visit p + size p
  tree_next : ∀ p a, tree p a → ∀ c ∈ S, visit p < visit c → visit c < visit a →
    visit c + size c ≤ visit a
  back_subtree : ∀ a b, back a b → a ∈ S ∧ b ∈ S ∧ edge a b ∧ InSubtree visit size b a

namespace SpanningTree

variable (T : SpanningTree S root edge tree back visit size)
include T

theorem subtree_self (ha : a ∈ S) : InSubtree visit size a a :=
  ⟨le_rfl, lt_add_of_pos_right _ (T.size_pos a ha)⟩

theorem visit_lt (ha : a ∈ S) (hb : b ∈ S) (h : InSubtree visit size a b) (hne : a ≠ b) :
    visit a < visit b := by
  apply lt_of_le_of_ne h.1
  intro he
  exact hne (T.inj a ha b hb he)

theorem subtree_parent (ha : a ∈ S) (h : InSubtree visit size a b) (hne : a ≠ b) (ht : tree p b) :
    InSubtree visit size a p := by
  obtain ⟨hp, hb, -⟩ := T.tree_mem p b ht
  have hlt := T.visit_lt ha hb h hne
  have hle : visit a ≤ visit p := by
    by_contra hnot
    have hnext := T.tree_next p b ht a ha (not_le.mp hnot) hlt
    exact absurd h.2 (not_lt.mpr hnext)
  exact ⟨hle, (T.tree_subtree p b ht).1.trans h.2⟩

theorem subtree_child (ha : a ∈ S) (h : InSubtree visit size a p) (ht : tree p b) :
    InSubtree visit size a b := by
  obtain ⟨hp, -, -⟩ := T.tree_mem p b ht
  obtain ⟨hlow, hhigh⟩ := T.tree_subtree p b ht
  exact ⟨h.1.trans hlow.le, hhigh.trans_le (T.nested a ha p hp h)⟩

/-- The tree leads from `a` to all points whose parents, as long as they are not `a`, keep a
property. -/
theorem reaches_of_parents {P : α → Prop} (hP : ∀ b ∈ S, P b → b ≠ a → ∃ p, tree p b ∧ P p)
    (hb : b ∈ S) (h : P b) : Relation.ReflTransGen tree a b := by
  obtain ⟨n, hn⟩ : ∃ n : ℕ, visit b - visit root = n :=
    Int.eq_ofNat_of_zero_le (sub_nonneg.mpr (T.root_visit b hb))
  induction n using Nat.strong_induction_on generalizing b with
  | h n ih =>
    by_cases hne : b = a
    · rw [hne]
    obtain ⟨p, ht, hp⟩ := hP b hb h hne
    obtain ⟨hmem, -, -⟩ := T.tree_mem p b ht
    have hlt := (T.tree_subtree p b ht).1
    obtain ⟨m, hm⟩ : ∃ m : ℕ, visit p - visit root = m :=
      Int.eq_ofNat_of_zero_le (sub_nonneg.mpr (T.root_visit p hmem))
    exact (ih m (by omega) hmem hp hm).tail ht

theorem root_reaches (hb : b ∈ S) : Relation.ReflTransGen tree root b := by
  apply T.reaches_of_parents (P := fun _ => True) ?_ hb trivial
  intro b hb _ hne
  obtain ⟨p, ht⟩ := T.parent b hb hne
  exact ⟨p, ht, trivial⟩

/-- The tree leads from a point to all its descendants. -/
theorem reaches_of_subtree (ha : a ∈ S) (hb : b ∈ S) (h : InSubtree visit size a b) :
    Relation.ReflTransGen tree a b := by
  apply T.reaches_of_parents ?_ hb h
  intro b hb hab hne
  have hroot : b ≠ root := by
    intro he
    have hlt := T.visit_lt ha hb hab (Ne.symm hne)
    rw [he] at hlt
    exact absurd (T.root_visit a ha) (not_le.mpr hlt)
  obtain ⟨p, ht⟩ := T.parent b hb hroot
  exact ⟨p, ht, T.subtree_parent ha hab (Ne.symm hne) ht⟩

/-- What the tree leads to from a point numbered above `x` is reached from there without `x`. -/
theorem exists_path_above (h : Relation.ReflTransGen tree a b)
    (hx : visit x < visit a) : ∃ l, Path edge a b l ∧ x ∉ l := by
  have hgoal : visit a ≤ visit b ∧ ∃ l, Path edge a b l ∧ x ∉ l := by
    induction h with
    | refl =>
      refine ⟨le_rfl, [a], .single a, ?_⟩
      intro hmem
      rw [List.mem_singleton.mp hmem] at hx
      exact lt_irrefl _ hx
    | @tail p c _ ht ih =>
      obtain ⟨hle, l, hl, hxl⟩ := ih
      obtain ⟨-, -, he⟩ := T.tree_mem p c ht
      have hac : visit a ≤ visit c := hle.trans (T.tree_subtree p c ht).1.le
      refine ⟨hac, l ++ [c], hl.append (.cons he (.single c)), ?_⟩
      rw [List.mem_append, List.mem_singleton]
      rintro (hmem | rfl)
      · exact hxl hmem
      · exact absurd hx (not_lt.mpr hac)
  exact hgoal.2

/-- A point that is no descendant of `x` is reached without `x`. -/
theorem exists_path_avoiding (hx : x ∈ S) (hb : b ∈ S) (h : ¬InSubtree visit size x b) :
    ∃ l, Path edge root b l ∧ x ∉ l := by
  have hreach := T.root_reaches hb
  induction hreach with
  | refl =>
    refine ⟨[root], .single root, fun hmem => h ?_⟩
    rw [List.mem_singleton.mp hmem]
    exact T.subtree_self T.root_mem
  | @tail p c _ ht ih =>
    obtain ⟨hp, -, he⟩ := T.tree_mem p c ht
    obtain ⟨l, hl, hxl⟩ := ih hp fun hw => h (T.subtree_child hx hw ht)
    refine ⟨l ++ [c], hl.append (.cons he (.single c)), ?_⟩
    rw [List.mem_append, List.mem_singleton]
    rintro (hmem | rfl)
    · exact hxl hmem
    · exact h (T.subtree_self hb)

/-- In a reducible graph the back edges of the search lead to dominators. -/
theorem back_dominates (hred : Reducible edge root) (h : back y x) :
    Dominates edge root x y := by
  obtain ⟨hy, hx, he, hw⟩ := T.back_subtree y x h
  apply hred.dominates (T.reaches_of_subtree hx hy hw) ?_ he
  intro p c ht
  obtain ⟨hp, hc, hpc⟩ := T.tree_mem p c ht
  refine ⟨hpc, fun hdom => ?_⟩
  have hnot : ¬InSubtree visit size c p := fun hcp =>
    absurd (T.tree_subtree p c ht).1 (not_lt.mpr hcp.1)
  obtain ⟨l, hl, hcl⟩ := T.exists_path_avoiding hc hp hnot
  exact hcl (hdom l hl)

/-- In a reducible graph a loop is entered through its head only. -/
theorem no_entry (hred : Reducible edge root) (hx : x ∈ S) (hy : y ∈ S)
    (h : ¬InSubtree visit size x y) (he : edge y t) (hne : t ≠ x)
    (hlive : Live edge x {z | back z x} t) : False := by
  obtain ⟨l, hl, hxl⟩ := T.exists_path_avoiding hx hy h
  obtain ⟨m, z, hz, hm, hxm⟩ := hlive
  have hpath : Path edge root z (l ++ m) := by
    rw [hm.eq_cons]
    have hstep : Path edge y z (y :: m) := .cons he hm
    have happ := hl.append hstep
    rwa [List.tail_cons, hm.eq_cons] at happ
  rcases List.mem_append.mp (T.back_dominates hred hz _ hpath) with hmem | hmem
  · exact hxl hmem
  · rw [hm.eq_cons] at hmem
    rcases List.mem_cons.mp hmem with hxt | hmem
    · exact hne hxt.symm
    · exact hxm hmem

end SpanningTree

end Paths
