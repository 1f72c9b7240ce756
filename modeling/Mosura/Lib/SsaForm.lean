import Mosura.Lib.Climb

/-! Names for the values of one storage. A walk of the dominator tree keeps them on a stack; where each
block in the frontier of a write begins with a phi, the stack agrees with what was written on the way. -/

namespace SsaForm

open Paths Climbs

variable {B V : Type*} {E : B → B → Prop} {root a b c d p x : B} {writes : B → List V}
variable {isPhi : V → Prop} {s s' h ws l : List V} {v : V} {m : List B}

/-- `x` dominates a predecessor of `b`, but does not strictly dominate `b`. -/
def Frontier (E : B → B → Prop) (root x b : B) : Prop :=
  (∃ p, E p b ∧ Dominates E root x p) ∧ ¬(Dominates E root x b ∧ x ≠ b)

/-- The stack at the start of a block, newest first: what its immediate dominator leaves. -/
inductive EntryStack (E : B → B → Prop) (root : B) (writes : B → List V) : B → List V → Prop
  | root : EntryStack E root writes root []
  | child {b d : B} {s : List V} : Relation.ReflTransGen E root b → ImmDominates E root d b →
      EntryStack E root writes d s → EntryStack E root writes b ((writes d).reverse ++ s)

/-- Control comes to the start of a block with these writes behind it, newest first. -/
inductive Arrives (E : B → B → Prop) (root : B) (writes : B → List V) : B → List V → Prop
  | root : Arrives E root writes root []
  | step {p b : B} {h : List V} : Arrives E root writes p h → E p b →
      Arrives E root writes b ((writes p).reverse ++ h)

def StartsPhi (isPhi : V → Prop) (ws : List V) : Prop := ∃ v l, ws = v :: l ∧ isPhi v

/-- Every block in the frontier of a block that writes begins with a phi. -/
def Placed (E : B → B → Prop) (root : B) (writes : B → List V) (isPhi : V → Prop) : Prop :=
  ∀ x b, writes x ≠ [] → Frontier E root x b → StartsPhi isPhi (writes b)

/-- What `F` leads to from where `W` holds, and on from there. -/
inductive Iterated (F : B → B → Prop) (W : B → Prop) : B → Prop
  | base {x b : B} : W x → F x b → Iterated F W b
  | step {x b : B} : Iterated F W x → F x b → Iterated F W b

theorem Iterated.imp {F F' : B → B → Prop} {W W' : B → Prop} (hF : ∀ x b, F x b → F' x b)
    (hW : ∀ x, W x → W' x) (h : Iterated F W b) : Iterated F' W' b := by
  induction h with
  | base hx hb => exact .base (hW _ hx) (hF _ _ hb)
  | step _ hb ih => exact .step ih (hF _ _ hb)

/-- It suffices that the iterated frontiers of the other writes begin with phis. -/
theorem Placed.of_iterated {W : B → Prop}
    (hphi : ∀ b, Iterated (Frontier E root) W b → StartsPhi isPhi (writes b))
    (hW : ∀ x, writes x ≠ [] → W x ∨ Iterated (Frontier E root) W x) :
    Placed E root writes isPhi := by
  intro x b hx hb
  rcases hW x hx with h | h
  · exact hphi b (.base h hb)
  · exact hphi b (.step h hb)

/-- The newest values are the same, and where they are no phi, so are those before them. -/
def Agree (isPhi : V → Prop) (s h : List V) : Prop :=
  s.head? = h.head? ∧ ∀ v, s.head? = some v → ¬isPhi v → s.tail.head? = h.tail.head?

theorem Agree.append (h' : Agree isPhi s h) (l : List V) : Agree isPhi (l ++ s) (l ++ h) := by
  induction l with
  | nil => exact h'
  | cons v l ih => exact ⟨rfl, fun _ _ _ => ih.1⟩

theorem dominates_trans (h : Dominates E root a b) (h' : Dominates E root b c) :
    Dominates E root a c := by
  intro m hm
  obtain ⟨m', hm', hsub, -⟩ := hm.upTo (h' m hm)
  exact hsub (h m' hm')

theorem eq_root (h : Dominates E root d root) : d = root := List.mem_singleton.mp (h _ (.single root))

theorem Arrives.reached (h' : Arrives E root writes b h) : Relation.ReflTransGen E root b := by
  induction h' with
  | root => exact .refl
  | step _ he ih => exact ih.tail he

theorem EntryStack.reached (h : EntryStack E root writes b s) : Relation.ReflTransGen E root b := by
  cases h with
  | root => exact .refl
  | child hr => exact hr

theorem EntryStack.unique (h : EntryStack E root writes b s) (h' : EntryStack E root writes b s') :
    s = s' := by
  induction h generalizing s' with
  | root =>
    cases h' with
    | root => rfl
    | child _ hd _ => exact absurd (eq_root hd.1) hd.2.1
  | child hr hd _ ih =>
    cases h' with
    | root => exact absurd (eq_root hd.1) hd.2.1
    | child _ hd' hs' =>
      obtain rfl := hd.unique hr hd'
      rw [ih hs']

/-- Along an edge to a block without a phi nothing is written since its immediate dominator. -/
theorem EntryStack.of_edge (hP : Placed E root writes isPhi) (he : E p b)
    (hd : ImmDominates E root d b) (hphi : ¬StartsPhi isPhi (writes b))
    (hs : EntryStack E root writes p s) :
    ∃ t, EntryStack E root writes d t ∧ (writes p).reverse ++ s = (writes d).reverse ++ t := by
  have hdp : Dominates E root d p := hd.1.of_step he hd.2.1.symm
  -- the dominators of `p` below `d` have `b` in their frontier
  have hnone : ∀ x, Relation.ReflTransGen E root x → Dominates E root x p → Dominates E root d x →
      x ≠ d → writes x = [] := by
    intro x hx hxp hdx hne
    by_contra hw
    refine hphi (hP x b hw ⟨⟨p, he, hxp⟩, fun hxb => hne ?_⟩)
    exact (hdx.antisymm hx (hd.2.2 x hxb.1 hxb.2)).symm
  have hclimb : ∀ x s, EntryStack E root writes x s → Dominates E root x p → Dominates E root d x →
      ∃ t, EntryStack E root writes d t ∧ (writes x).reverse ++ s = (writes d).reverse ++ t := by
    intro x s hx
    induction hx with
    | root =>
      intro _ hdx
      obtain rfl := eq_root hdx
      exact ⟨[], .root, rfl⟩
    | @child x y s hr hyx hy ih =>
      intro hxp hdx
      by_cases hne : x = d
      · subst hne
        exact ⟨_, .child hr hyx hy, rfl⟩
      · rw [hnone x hr hxp hdx hne]
        exact ih (dominates_trans hyx.1 hxp) (hyx.2.2 d hdx (Ne.symm hne))
  exact hclimb p s hs Dominates.refl hdp

variable (hidom : ∀ b, Relation.ReflTransGen E root b → b ≠ root → ∃ d, ImmDominates E root d b)
include hidom

theorem exists_entryStack (writes : B → List V) (hr : Relation.ReflTransGen E root b) :
    ∃ s, EntryStack E root writes b s := by
  obtain ⟨m, hm⟩ := exists_path hr
  induction hn : m.length using Nat.strong_induction_on generalizing b m with
  | h n ih =>
    by_cases hb : b = root
    · exact ⟨[], hb ▸ .root⟩
    · obtain ⟨d, hd⟩ := hidom b hr hb
      obtain ⟨m', hm', -, hlt⟩ := hm.upTo (hd.1 m hm)
      obtain ⟨s, hs⟩ := ih m'.length (hn ▸ hlt hd.2.1) hm'.reaches m' hm' rfl
      exact ⟨_, .child hr hd hs⟩

/-- Wherever control comes from, the stack has the newest write on top. -/
theorem Arrives.agree (hP : Placed E root writes isPhi) (hroot : ∀ p, ¬E p root)
    (hh : Arrives E root writes b h) (hs : EntryStack E root writes b s) (hws : ws <+: writes b)
    (hphi : StartsPhi isPhi (writes b) → ws ≠ []) :
    Agree isPhi (ws.reverse ++ s) (ws.reverse ++ h) := by
  induction hh generalizing s ws with
  | root =>
    cases hs with
    | root => exact ⟨rfl, fun _ _ _ => rfl⟩
    | child _ hd _ => exact absurd (eq_root hd.1) hd.2.1
  | @step p b h hp he ih =>
    by_cases hb : StartsPhi isPhi (writes b)
    · obtain ⟨v, l, hv, hphiv⟩ := hb
      obtain ⟨w, ws, rfl⟩ := List.exists_cons_of_ne_nil (hphi ⟨v, l, hv, hphiv⟩)
      obtain rfl : w = v := by
        rw [hv] at hws
        exact (List.cons_prefix_cons.mp hws).1
      rw [List.reverse_cons, List.append_assoc, List.append_assoc]
      have htop : Agree isPhi ([w] ++ s) ([w] ++ ((writes p).reverse ++ h)) :=
        ⟨rfl, fun u hu hn => absurd (Option.some.inj hu ▸ hphiv) hn⟩
      exact htop.append _
    · refine Agree.append ?_ _
      cases hs with
      | root => exact absurd he (hroot p)
      | child _ hd hsd =>
        obtain ⟨sp, hsp⟩ := exists_entryStack hidom writes hp.reached
        obtain ⟨t, ht, heq⟩ := hsp.of_edge hP he hd hb
        obtain rfl := ht.unique hsd
        rw [← heq]
        exact ih hsp (List.prefix_refl _) fun ⟨v, l, hv, _⟩ => hv ▸ List.cons_ne_nil v l

end SsaForm
