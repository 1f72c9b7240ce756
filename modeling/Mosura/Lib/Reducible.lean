import Mosura.Lib.Dominance

/-! Reducible graphs: what dominates a cycle, and what a collapsed set of points shows. -/

namespace Paths

variable {α : Type*} {step R : α → α → Prop} {e x y : α}

/-- Forward steps without a cycle and steps back to a dominator make up the graph. -/
def Reducible (step : α → α → Prop) (e : α) : Prop :=
  ∃ fwd : α → α → Prop, (∀ a, ¬Relation.TransGen fwd a a) ∧
    ∀ a b, step a b → fwd a b ∨ Dominates step e b a

/-- A step that closes a cycle of steps none of which leads to a dominator leads to one. -/
theorem Reducible.dominates (h : Reducible step e) (hp : Relation.ReflTransGen R x y)
    (hR : ∀ a b, R a b → step a b ∧ ¬Dominates step e b a) (hyx : step y x) :
    Dominates step e x y := by
  obtain ⟨fwd, hacyclic, hfwd⟩ := h
  have hle : R ≤ fwd := by
    intro a b hab
    obtain ⟨hs, hnot⟩ := hR a b hab
    exact (hfwd a b hs).resolve_right hnot
  have hforward : Relation.ReflTransGen fwd x y := Relation.ReflTransGen.mono hle x y hp
  apply (hfwd y x hyx).resolve_left
  intro hclose
  exact hacyclic x (Relation.TransGen.tail' hforward hclose)

/-- A set that is entered from `x` only is dominated by `x`. -/
theorem dominates_of_closed {C : Set α} (he : e ∉ C)
    (hC : ∀ a b, step a b → b ∈ C → a = x ∨ a ∈ C) (hy : y ∈ C) : Dominates step e x y := by
  have hback : ∀ a l, Path step a y l → x ∈ l ∨ a ∈ C := by
    intro a l hp
    induction hp with
    | single => exact .inr hy
    | cons hs _ ih =>
      rcases ih hy with hx | hb
      · exact .inl (List.mem_cons_of_mem _ hx)
      · rcases hC _ _ hs hb with rfl | ha
        · exact .inl List.mem_cons_self
        · exact .inr ha
  intro l hp
  exact (hback e l hp).resolve_right he

section Collapse

/-- `u` was collapsed into `x`, by itself or with a head that was. -/
inductive Under (B : α → Set α) : α → α → Prop
  | base {x t : α} : t ∈ B x → Under B x t
  | deeper {x h u : α} : h ∈ B x → Under B h u → Under B x u

variable {B : α → Set α} {u : α}

/-- Where all steps to a collapsed point come from its head or from collapsed points, all steps to
what is under a head come from the head or from under it. -/
theorem Under.step_back
    (hB : ∀ x, ∀ t ∈ B x, ∀ y, step y t → y = x ∨ y ∈ B x ∨ ∃ h ∈ B x, y ∈ B h)
    (hu : Under B x u) : ∀ y, step y u → y = x ∨ Under B x y := by
  induction hu with
  | base ht =>
    intro y hy
    rcases hB _ _ ht y hy with hx | hmem | ⟨h, hh, hmem⟩
    · exact .inl hx
    · exact .inr (.base hmem)
    · exact .inr (.deeper hh (.base hmem))
  | deeper hh _ ih =>
    intro y hy
    rcases ih y hy with rfl | hy
    · exact .inr (.base hh)
    · exact .inr (.deeper hh hy)

theorem Under.lt {num : α → ℤ} (hnum : ∀ x, ∀ t ∈ B x, num x < num t) (hu : Under B x u) :
    num x < num u := by
  induction hu with
  | base ht => exact hnum _ _ ht
  | deeper hh _ ih => exact (hnum _ _ hh).trans ih

/-- A head dominates what is under it, where the entry is numbered below the head. -/
theorem Under.dominates {num : α → ℤ} (hnum : ∀ x, ∀ t ∈ B x, num x < num t)
    (hB : ∀ x, ∀ t ∈ B x, ∀ y, step y t → y = x ∨ y ∈ B x ∨ ∃ h ∈ B x, y ∈ B h)
    (he : num e ≤ num x) (hu : Under B x u) : Dominates step e x u := by
  apply dominates_of_closed (C := {y | Under B x y})
  · intro hmem
    exact absurd (Under.lt hnum hmem) (not_lt.mpr he)
  · intro a b hs hb
    exact Under.step_back hB hb a hs
  · exact hu

end Collapse

end Paths
