import Mosura.StructureLoopsSound

/-! What `structure_loops` leaves: `calcLoop` finds no further loop edge, and the labels are those
of a reducible graph. -/

namespace Mosura

open Paths StackSearch

namespace LeafGraph

/-- An edge that is kept when loops and irreducible edges are taken out. -/
def Kept (l : EdgeLabels) : Prop :=
  l.backEdge = false ∧ l.loopEdge = false ∧ l.irreducible = false

/-- The graph without its irreducible edges. -/
abbrev Regular (g : LeafGraph) (labels : ℕ → ℕ → EdgeLabels) : ℕ → ℕ → Prop :=
  g.Labelled labels fun l => l.irreducible = false

/-- The labels and the numbers are right for a graph with this entry. -/
structure RightLabels (g : LeafGraph) (entry : ℕ) (r : LoopLabels) : Prop where
  acyclic : ∀ a, ¬Relation.TransGen (g.Labelled r.labels Kept) a a
  reaches : ∀ b < g.n, Relation.ReflTransGen (g.Regular r.labels) entry b
  reducible : Reducible (g.Regular r.labels) entry
  backs : ∀ a b, g.Labelled r.labels (fun l => l.backEdge = true) a b →
    Dominates (g.Regular r.labels) entry b a
  noIrreducible : Reducible g.Edge entry →
    ∀ a k b, (g.outs a)[k]? = some b → (r.labels a k).irreducible = false
  permutation : r.rpo.Perm ((List.range g.n).map fun b : ℕ => (b : ℤ))
  increasing : ∀ a b, g.Labelled r.labels Kept a b →
    ∃ i j, r.rpo[a]? = some i ∧ r.rpo[b]? = some j ∧ i < j

/-- What holds while `calcLoop` walks edges along which the numbers increase. -/
structure Walking (g : LeafGraph) (labels : ℕ → ℕ → EdgeLabels) (index : ℕ → ℤ) (c : CalcLoop) :
    Prop where
  labels : c.labels = labels
  onPath : ∀ b, c.onPath b = true → b ∈ c.path.map Prod.fst
  sorted : (c.path.map Prod.fst).Pairwise fun a b => index b < index a
  visited : ∀ b ∈ c.path.map Prod.fst, c.visited b = true
  position : ∀ p ∈ c.path, p.2 ≤ (g.outs p.1).length

/-- How much of the walk is left. -/
def calcWork (g : LeafGraph) (c : CalcLoop) : ℕ :=
  work (fun b => (g.outs b).length) ((Finset.range g.n).filter fun b => c.visited b = false) c.path

variable {g : LeafGraph} {s : Spanning} {root entry a b bl i k start fuel : ℕ} {r : Reach}
  {labels : ℕ → ℕ → EdgeLabels} {index : ℕ → ℤ} {c c' : CalcLoop} {rest : List (ℕ × ℕ)}
  {B : ℕ → Set ℕ}

/-- Going on to the next edge of the last block. -/
theorem Walking.advance (h : g.Walking labels index c) (hp : c.path = (bl, i) :: rest)
    (hi : i < (g.outs bl).length) :
    g.Walking labels index { c with path := (bl, i + 1) :: rest } ∧
      g.calcWork { c with path := (bl, i + 1) :: rest } < g.calcWork c := by
  have hsame : ((bl, i + 1) :: rest).map Prod.fst = c.path.map Prod.fst := by
    rw [hp]
    rfl
  refine ⟨⟨h.labels, ?_, ?_, ?_, ?_⟩, ?_⟩
  · dsimp only
    rw [hsame]
    exact h.onPath
  · dsimp only
    rw [hsame]
    exact h.sorted
  · dsimp only
    rw [hsame]
    exact h.visited
  · intro p hmem
    rcases List.mem_cons.mp hmem with rfl | hmem
    · exact hi
    · apply h.position
      rw [hp]
      exact List.mem_cons_of_mem _ hmem
  · unfold calcWork
    dsimp only
    rw [hp]
    exact work_next hi

/-- One round of `calcLoop` over such edges labels none of them. -/
theorem Walking.step (hindex : ∀ a k b, (g.outs a)[k]? = some b →
    (labels a k).loopEdge = false → index a < index b) (h : g.Walking labels index c)
    (hstep : g.calcStep c = some c') :
    g.Walking labels index c' ∧ g.calcWork c' < g.calcWork c := by
  unfold calcStep at hstep
  cases hpath : c.path with
  | nil =>
    rw [hpath] at hstep
    cases hstep
  | cons top rest =>
    obtain ⟨bl, i⟩ := top
    rw [hpath] at hstep
    dsimp only at hstep
    have hsorted := h.sorted
    rw [hpath, List.map_cons, List.pairwise_cons] at hsorted
    cases hget : (g.outs bl)[i]? with
    | none =>
      rw [hget] at hstep
      rw [← Option.some.inj hstep]
      refine ⟨⟨h.labels, ?_, hsorted.2, ?_, ?_⟩, ?_⟩
      · intro b hb
        dsimp only at hb ⊢
        by_cases hne : b = bl
        · rw [hne, Function.update_self] at hb
          cases hb
        · rw [Function.update_of_ne hne] at hb
          have hmem := h.onPath b hb
          rw [hpath, List.map_cons] at hmem
          exact (List.mem_cons.mp hmem).resolve_left hne
      · intro b hb
        apply h.visited
        rw [hpath, List.map_cons]
        exact List.mem_cons_of_mem _ hb
      · intro p hmem
        apply h.position
        rw [hpath]
        exact List.mem_cons_of_mem _ hmem
      · unfold calcWork
        dsimp only
        rw [hpath]
        apply work_pop
        apply h.position (bl, i)
        rw [hpath]
        exact List.mem_cons_self
    | some nextbl =>
      rw [hget] at hstep
      dsimp only at hstep
      have hi : i < (g.outs bl).length := (List.getElem?_eq_some_iff.mp hget).1
      by_cases hloop : (c.labels bl i).loopEdge = true
      · rw [if_pos hloop] at hstep
        rw [← Option.some.inj hstep]
        exact h.advance hpath hi
      rw [if_neg hloop] at hstep
      have hlt : index bl < index nextbl := by
        apply hindex bl i nextbl hget
        rw [← h.labels]
        exact Bool.not_eq_true _ ▸ hloop
      have hfresh : nextbl ∉ c.path.map Prod.fst := by
        rw [hpath, List.map_cons]
        intro hmem
        rcases List.mem_cons.mp hmem with he | hmem
        · rw [he] at hlt
          exact lt_irrefl _ hlt
        · exact lt_asymm hlt (hsorted.1 nextbl hmem)
      have hoff : ¬c.onPath nextbl = true := fun hon => hfresh (h.onPath nextbl hon)
      rw [if_neg hoff] at hstep
      by_cases hvisited : c.visited nextbl = true
      · rw [if_pos hvisited] at hstep
        rw [← Option.some.inj hstep]
        exact h.advance hpath hi
      rw [if_neg hvisited] at hstep
      rw [← Option.some.inj hstep]
      obtain ⟨hwalk, hwork⟩ := h.advance hpath hi
      have hmap : ((nextbl, 0) :: (bl, i + 1) :: rest).map Prod.fst =
          nextbl :: c.path.map Prod.fst := by
        rw [hpath]
        rfl
      refine ⟨⟨h.labels, ?_, ?_, ?_, ?_⟩, ?_⟩
      · intro b hb
        dsimp only at hb ⊢
        rw [hmap]
        by_cases hne : b = nextbl
        · rw [hne]
          exact List.mem_cons_self
        · rw [Function.update_of_ne hne] at hb
          exact List.mem_cons_of_mem _ (h.onPath b hb)
      · dsimp only
        rw [hmap, hpath, List.map_cons]
        refine List.pairwise_cons.mpr ⟨fun b hb => ?_, List.pairwise_cons.mpr hsorted⟩
        rcases List.mem_cons.mp hb with rfl | hb
        · exact hlt
        · exact (hsorted.1 b hb).trans hlt
      · intro b hb
        dsimp only at hb ⊢
        rw [hmap] at hb
        by_cases hne : b = nextbl
        · rw [hne, Function.update_self]
        · rw [Function.update_of_ne hne]
          exact h.visited b ((List.mem_cons.mp hb).resolve_left hne)
      · intro p hmem
        rcases List.mem_cons.mp hmem with rfl | hmem
        · exact Nat.zero_le _
        · exact hwalk.position p hmem
      · have hunseen : nextbl ∈ (Finset.range g.n).filter fun b => c.visited b = false := by
          rw [Finset.mem_filter, Finset.mem_range]
          exact ⟨(Edge.lt (g := g) (List.mem_of_getElem? hget)).2, Bool.not_eq_true _ ▸ hvisited⟩
        unfold calcWork at hwork ⊢
        dsimp only at hwork ⊢
        rw [unmarked_update, work_push hunseen]
        exact hwork

/-- Where the numbers increase along all edges but loop edges, `calcLoop` changes no label. -/
theorem calcLoop_spec (hindex : ∀ a k b, (g.outs a)[k]? = some b →
    (labels a k).loopEdge = false → index a < index b) (hstart : start < g.n)
    (hfuel : g.size < fuel) : g.calcLoop fuel labels start = some labels := by
  let c₀ : CalcLoop :=
    { labels := labels
      visited := Function.update (fun _ => false) start true
      onPath := Function.update (fun _ => false) start true
      path := [(start, 0)] }
  have hwalk : g.Walking labels index c₀ := by
    constructor
    · rfl
    · intro b hb
      by_cases hne : b = start
      · rw [hne]
        exact List.mem_singleton_self _
      · dsimp only [c₀] at hb
        rw [Function.update_of_ne hne] at hb
        cases hb
    · exact List.pairwise_singleton _ _
    · intro b hb
      rw [List.mem_singleton.mp hb]
      exact Function.update_self start true fun _ => false
    · intro p hp
      rw [List.mem_singleton.mp hp]
      exact Nat.zero_le _
  have hwork : g.calcWork c₀ < fuel := by
    have hmem : start ∈ (Finset.range g.n).filter fun _ => false = false := by
      rw [Finset.mem_filter, Finset.mem_range]
      exact ⟨hstart, rfl⟩
    unfold calcWork
    dsimp only [c₀]
    rw [unmarked_update (Finset.range g.n) fun _ : ℕ => false, work_push hmem,
      Finset.filter_true_of_mem fun _ _ => rfl]
    exact hfuel
  obtain ⟨c, hrun, hend, -⟩ :=
    repeatStep_spec (fun _ _ h hstep => h.step hindex hstep) hwalk hwork
  unfold calcLoop
  rw [hrun, Option.map_some, hend.labels]

/-- The numbers of the blocks are those below `n`, each once. -/
theorem Spanned.index_perm (hs : g.Spanned root s) :
    ((List.range g.n).map s.index).Perm ((List.range g.n).map fun b : ℕ => (b : ℤ)) := by
  have hnodup : ((List.range g.n).map s.index).Nodup := by
    apply List.Nodup.map_on ?_ List.nodup_range
    intro a ha b hb he
    rw [← hs.rpostorder a (List.mem_range.mp ha), he, hs.rpostorder b (List.mem_range.mp hb)]
  have hsub : (List.range g.n).map s.index ⊆ (List.range g.n).map fun b : ℕ => (b : ℤ) := by
    intro i hi
    obtain ⟨b, hb, rfl⟩ := List.mem_map.mp hi
    obtain ⟨hlow, hhigh⟩ := hs.index_lt b (List.mem_range.mp hb)
    obtain ⟨m, hm⟩ := Int.eq_ofNat_of_zero_le hlow
    rw [hm] at hhigh ⊢
    exact List.mem_map.mpr ⟨m, List.mem_range.mpr (by omega), rfl⟩
  apply (List.subperm_of_subset hnodup hsub).perm_of_length_le
  rw [List.length_map, List.length_map]

/-- The first block of the reverse postorder is a block. -/
theorem Spanned.first_lt (hs : g.Spanned root s) (hn : 0 < g.n) : s.rpostorder 0 < g.n := by
  have hmem : (0 : ℤ) ∈ (List.range g.n).map s.index := by
    rw [hs.index_perm.mem_iff, List.mem_map]
    exact ⟨0, List.mem_range.mpr hn, rfl⟩
  obtain ⟨b, hb, hindex⟩ := List.mem_map.mp hmem
  have hback := hs.rpostorder b (List.mem_range.mp hb)
  rw [hindex] at hback
  rw [hback]
  exact List.mem_range.mp hb

section Labels

variable (hs : g.Spanned root s) (h : g.Collapsed s s.preorder B r)
include hs h

/-- The labels of the numbered graph with the irreducible edges marked are right. -/
theorem Collapsed.right :
    g.RightLabels root { labels := r.labels, rpo := (List.range g.n).map s.index } := by
  have hkept : ∀ a b, g.Labelled r.labels Kept a b → s.index a < s.index b := by
    rintro a b ⟨k, hk, hback, -, hirr⟩
    have hlabel := (h.labels a k).eq hirr
    rw [hlabel] at hback
    exact (hs.edge a k b hk).2.2 hback
  have hstep : ∀ x, ∀ t ∈ B x, ∀ y, g.Regular r.labels y t → Collected B x (B x) y := by
    rintro x t ht y ⟨k, hk, hirr⟩
    apply (h.inEdges x t ht y k hk).resolve_left
    rw [hirr]
    exact Bool.false_ne_true
  have hnum : ∀ x, ∀ t ∈ B x, s.visitcount x < s.visitcount t := by
    intro x t ht
    by_cases hx : x ∈ s.preorder
    · obtain ⟨hlt, hne, hsub⟩ := h.subtree x t ht
      exact hs.spanning.visit_lt (hs.lt x hx) hlt hsub hne.symm
    · rw [h.outside x hx] at ht
      exact absurd ht (Set.notMem_empty t)
  have hbacks : ∀ a b, g.Labelled r.labels (fun l => l.backEdge = true) a b →
      Dominates (g.Regular r.labels) root b a := by
    rintro a b ⟨k, hk, hback⟩
    rw [(h.labels a k).back] at hback
    have hb : b < g.n := (Edge.lt (g := g) (List.mem_of_getElem? hk)).2
    have hroot := hs.spanning.root_visit b hb
    rcases h.backs b (hs.mem_preorder hb) a ⟨k, hk, hback⟩ with he | hmem | ⟨u, hu, hmem⟩
    · rw [he]
      exact Dominates.refl
    · exact Under.dominates hnum hstep hroot (.base hmem)
    · exact Under.dominates hnum hstep hroot (.deeper hu (.base hmem))
  have hacyclic : ∀ a, ¬Relation.TransGen (g.Labelled r.labels Kept) a a := by
    intro a hcycle
    have hlt : ∀ b, Relation.TransGen (g.Labelled r.labels Kept) a b → s.index a < s.index b := by
      intro b hb
      induction hb with
      | single hab => exact hkept _ _ hab
      | tail _ hbc ih => exact ih.trans (hkept _ _ hbc)
    exact lt_irrefl _ (hlt a hcycle)
  constructor
  · exact hacyclic
  · intro b hb
    have htree : (g.Labelled s.labels fun l => l.treeEdge = true) ≤ g.Regular r.labels := by
      rintro p t ⟨k, hk, htree⟩
      refine ⟨k, hk, ?_⟩
      rcases h.labels p k with hlabel | ⟨-, u, hu, x, hx, hsub, hout, hne, -⟩
      · rw [hlabel]
        exact (hs.edge p k t hk).1
      · rw [hk] at hu
        obtain rfl := Option.some.inj hu
        exact absurd (hs.spanning.subtree_parent hx hsub hne.symm ⟨k, hk, htree⟩) hout
    exact Relation.ReflTransGen.mono htree _ _ (hs.spanning.root_reaches hb)
  · refine ⟨g.Labelled r.labels Kept, hacyclic, ?_⟩
    rintro a b ⟨k, hk, hirr⟩
    by_cases hback : (r.labels a k).backEdge = true
    · exact .inr (hbacks a b ⟨k, hk, hback⟩)
    · have hback : (r.labels a k).backEdge = false := Bool.not_eq_true _ ▸ hback
      refine .inl ⟨k, hk, hback, ?_, hirr⟩
      rw [(h.labels a k).loop, (hs.edge a k b hk).2.1, ← (h.labels a k).back, hback]
  · exact hbacks
  · intro hred a k b hk
    rcases h.labels a k with hlabel | ⟨-, t, ht, x, hx, -, hout, hne, hlive⟩
    · dsimp only
      rw [hlabel]
      exact (hs.edge a k b hk).1
    · have ha := (Edge.lt (g := g) (List.mem_of_getElem? hk)).1
      exact (hs.spanning.no_entry hred hx ha hout (List.mem_of_getElem? ht) hne hlive).elim
  · exact hs.index_perm
  · intro a b hab
    obtain ⟨ha, hb⟩ := hab.edge.lt
    refine ⟨s.index a, s.index b, ?_, ?_, hkept a b hab⟩
    · rw [List.getElem?_map, List.getElem?_range ha]
      rfl
    · rw [List.getElem?_map, List.getElem?_range hb]
      rfl

end Labels

/-- `structure_loops` ends, and its labels and numbers are right, where every block is reached from
the entry, which is the first block or one that nothing leads to. -/
theorem structureLoops_right (hreach : ∀ b < g.n, Relation.ReflTransGen g.Edge entry b)
    (hentry : entry = 0 ∨ g.inAdj entry = []) (hfuel : g.size < fuel) :
    ∃ r, g.structureLoops fuel = some r ∧ g.RightLabels entry r := by
  unfold structureLoops
  by_cases hn : g.n = 0
  · rw [if_pos hn]
    have hnone : ∀ {P : EdgeLabels → Prop} {labels : ℕ → ℕ → EdgeLabels} {a b : ℕ},
        ¬g.Labelled labels P a b := by
      intro P labels a b hab
      have hlt := hab.edge.lt.1
      omega
    refine ⟨_, rfl, ?_, ?_, ⟨fun _ _ => False, ?_, ?_⟩, ?_, ?_, ?_, ?_⟩
    · intro a hcycle
      obtain ⟨b, hab, -⟩ := Relation.TransGen.head'_iff.mp hcycle
      exact hnone hab
    · intro b hb
      omega
    · intro a hcycle
      obtain ⟨b, hab, -⟩ := Relation.TransGen.head'_iff.mp hcycle
      exact hab
    · exact fun a b hab => absurd hab hnone
    · exact fun a b hab => absurd hab hnone
    · intro _ a k b hk
      rfl
    · rw [hn]
      exact List.Perm.refl _
    · exact fun a b hab => absurd hab hnone
  · rw [if_neg hn]
    have hpos : 0 < g.n := Nat.pos_of_ne_zero hn
    have hlt : entry < g.n := by
      rcases Relation.ReflTransGen.cases_head (hreach 0 hpos) with he | ⟨b, hb, -⟩
      · rw [he]
        exact hpos
      · exact hb.lt.1
    obtain ⟨s, hspan, hs⟩ := g.findSpanningTree_spec hlt (roots_eq hlt hreach hentry) hreach hfuel
      (s := {}) rfl
    obtain ⟨B, r, hfind, hc⟩ := findIrreducible_spec hs hfuel 0
    obtain ⟨m, rfl⟩ : ∃ m, fuel = m + 1 := ⟨fuel - 1, by omega⟩
    have hright := hc.right hs
    have hindex : ∀ a k b, (g.outs a)[k]? = some b → (r.labels a k).loopEdge = false →
        s.index a < s.index b := by
      intro a k b hk hloop
      obtain ⟨-, hback, hlt⟩ := hs.edge a k b hk
      apply hlt
      rw [← hback, ← (hc.labels a k).loop, hloop]
    have hhead : ((List.range g.n).map fun i : ℕ => s.rpostorder i).head? = some (s.rpostorder 0) := by
      rw [List.head?_map, List.head?_range, if_neg hn]
      rfl
    rw [labelEdges, hspan, Option.bind_some]
    dsimp only
    rw [if_neg Bool.false_ne_true, hfind, Option.bind_some, hc.rebuild, if_neg Bool.false_ne_true,
      Option.bind_some]
    refine ⟨_, ?_, hright⟩
    by_cases hcount : 0 < r.irreducibleCount
    · rw [if_pos hcount, hhead]
      dsimp only
      rw [calcLoop_spec hindex (hs.first_lt hpos) hfuel]
      rfl
    · rw [if_neg hcount]

/-- A loop that is entered at both of its blocks. -/
def twoEntries : LeafGraph := ⟨[[1, 2], [2, 3], [1, 3], []], by decide⟩

theorem structureLoops_right_twoEntries :
    ∃ r, twoEntries.structureLoops 12 = some r ∧ twoEntries.RightLabels 0 r := by
  apply structureLoops_right
  · intro b hb
    have h1 : twoEntries.Edge 0 1 := List.mem_of_getElem? (i := 0) rfl
    have h2 : twoEntries.Edge 0 2 := List.mem_of_getElem? (i := 1) rfl
    have h3 : twoEntries.Edge 1 3 := List.mem_of_getElem? (i := 1) rfl
    change b < 4 at hb
    interval_cases b
    · exact .refl
    · exact .single h1
    · exact .single h2
    · exact .tail (.single h1) h3
  · exact .inl rfl
  · decide

end LeafGraph

end Mosura
