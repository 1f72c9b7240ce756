import Mosura.StructureLoopsSpan

/-! `structure_loops` labels loops and irreducible edges rightly: without its back, loop and
irreducible edges the graph is acyclic, without the irreducible ones it is reducible. -/

namespace Mosura

open Paths StackSearch

namespace LeafGraph

/-- Edge `y → t` leads into a loop past its head: `t` reaches a back edge into a block that `t` is
a descendant of and `y` is not. -/
def Enters (g : LeafGraph) (s : Spanning) (y t : ℕ) : Prop :=
  ∃ x < g.n, InSubtree s.visitcount s.numdesc x t ∧ ¬InSubtree s.visitcount s.numdesc x y ∧ t ≠ x ∧
    Live g.Edge x {z | g.Labelled s.labels (fun l => l.backEdge = true) z x} t

/-- The label of an edge of the spanning tree's graph, or that of an irreducible edge. -/
def MarkedFrom (g : LeafGraph) (s : Spanning) (labels : ℕ → ℕ → EdgeLabels) (y k : ℕ) : Prop :=
  labels y k = s.labels y k ∨
    labels y k = { s.labels y k with irreducible := true, crossEdge := false, forwardEdge := false } ∧
      ∃ t, (g.outs y)[k]? = some t ∧ g.Enters s y t

/-- `y` is `x`, one of the blocks that reach the back edges into `x`, or under one of them. -/
def Collected (B : ℕ → Set ℕ) (x : ℕ) (R : Set ℕ) (y : ℕ) : Prop := y = x ∨ y ∈ R ∨ ∃ h ∈ R, y ∈ B h

/-- What holds when the blocks `done` are processed: `B x` are those collapsed into `x`. -/
structure Collapsed (g : LeafGraph) (s : Spanning) (done : List ℕ) (B : ℕ → Set ℕ) (r : Reach) :
    Prop where
  reachunder : r.reachunder = []
  mark : ∀ b, r.mark b = false
  rebuild : r.needrebuild = false
  labels : ∀ y k, g.MarkedFrom s r.labels y k
  copymap : ∀ b, r.copymap b = b ∨ r.copymap b ∈ done ∧ b ∈ B (r.copymap b)
  outside : ∀ x, x ∉ done → B x = ∅
  subtree : ∀ x, ∀ t ∈ B x, t < g.n ∧ t ≠ x ∧ InSubtree s.visitcount s.numdesc x t
  backs : ∀ x ∈ done, ∀ z, g.Labelled s.labels (fun l => l.backEdge = true) z x →
    Collected B x (B x) z
  inEdges : ∀ x, ∀ t ∈ B x, ∀ y k, (g.outs y)[k]? = some t →
    (r.labels y k).irreducible = true ∨ Collected B x (B x) y

/-- What holds while what reaches the back edges into `x` is collected, `c` being the blocks'
heads so far. -/
structure Reaching (g : LeafGraph) (s : Spanning) (B : ℕ → Set ℕ) (c : ℕ → ℕ) (x : ℕ)
    (r : Reach) : Prop where
  mark : ∀ b, r.mark b = true ↔ b ∈ r.reachunder
  rebuild : r.needrebuild = false
  labels : ∀ y k, g.MarkedFrom s r.labels y k
  copymap : r.copymap = c
  subtree : ∀ t ∈ r.reachunder, t < g.n ∧ t ≠ x ∧ InSubtree s.visitcount s.numdesc x t
  live : ∀ t ∈ r.reachunder,
    Live g.Edge x {z | g.Labelled s.labels (fun l => l.backEdge = true) z x} t
  inEdges : ∀ x, ∀ t ∈ B x, ∀ y k, (g.outs y)[k]? = some t →
    (r.labels y k).irreducible = true ∨ Collected B x (B x) y

/-- The blocks not marked yet, and those still to look at. -/
def room (g : LeafGraph) (r : Reach) : ℕ :=
  ((Finset.range g.n).filter fun b => r.mark b = false).card + r.reachunder.length

/-- Block `x` comes next, the heads being those of the blocks after it. -/
structure Next (g : LeafGraph) (s : Spanning) (done : List ℕ) (B : ℕ → Set ℕ) (c : ℕ → ℕ)
    (x : ℕ) : Prop where
  lt : x < g.n
  notMem : x ∉ done
  after : ∀ h ∈ done, h < g.n ∧ s.visitcount x < s.visitcount h
  heads : ∀ b, c b = b ∨ c b ∈ done ∧ b ∈ B (c b)
  subtree : ∀ x, ∀ t ∈ B x, t < g.n ∧ t ≠ x ∧ InSubtree s.visitcount s.numdesc x t

variable {g : LeafGraph} {s : Spanning} {root x y k t q : ℕ} {done : List ℕ} {B : ℕ → Set ℕ}
  {c : ℕ → ℕ} {r : Reach} {e : ℕ × ℕ} {l : List (ℕ × ℕ)}

theorem MarkedFrom.back {labels : ℕ → ℕ → EdgeLabels} (h : g.MarkedFrom s labels y k) :
    (labels y k).backEdge = (s.labels y k).backEdge := by
  rcases h with h | ⟨h, -⟩
  · rw [h]
  · rw [h]

theorem MarkedFrom.loop {labels : ℕ → ℕ → EdgeLabels} (h : g.MarkedFrom s labels y k) :
    (labels y k).loopEdge = (s.labels y k).loopEdge := by
  rcases h with h | ⟨h, -⟩
  · rw [h]
  · rw [h]

theorem MarkedFrom.eq {labels : ℕ → ℕ → EdgeLabels} (h : g.MarkedFrom s labels y k)
    (hirr : (labels y k).irreducible = false) : labels y k = s.labels y k := by
  rcases h with h | ⟨h, -⟩
  · exact h
  · rw [h] at hirr
    cases hirr

theorem Collected.mono {B' : ℕ → Set ℕ} {R R' : Set ℕ} (h : Collected B x R y) (hR : R ⊆ R')
    (hB : ∀ b, B b ⊆ B' b) : Collected B' x R' y := by
  rcases h with h | h | ⟨u, hu, h⟩
  · exact .inl h
  · exact .inr (.inl (hR h))
  · exact .inr (.inr ⟨u, hR hu, hB u h⟩)

section Block

variable (hn : g.Next s done B c x)
include hn

/-- The head of a descendant of `x` is a descendant of `x` too. -/
theorem Next.head_subtree (hy : y < g.n) (h : InSubtree s.visitcount s.numdesc x y) :
    c y < g.n ∧ InSubtree s.visitcount s.numdesc x (c y) := by
  rcases hn.heads y with he | ⟨hd, hmem⟩
  · rw [he]
    exact ⟨hy, h⟩
  · obtain ⟨hlt, hafter⟩ := hn.after _ hd
    obtain ⟨-, -, hsub⟩ := hn.subtree _ y hmem
    exact ⟨hlt, hafter.le, hsub.1.trans_lt h.2⟩

theorem Next.head_lt (hy : y < g.n) : c y < g.n := by
  rcases hn.heads y with he | ⟨hd, -⟩
  · rw [he]
    exact hy
  · exact (hn.after _ hd).1

theorem Next.head_ne (hy : y ≠ x) : c y ≠ x := by
  rcases hn.heads y with he | ⟨hd, -⟩
  · rw [he]
    exact hy
  · intro he
    rw [he] at hd
    exact hn.notMem hd

/-- What the head of a block reaches it reaches through the block. -/
theorem Next.head_live (hs : g.Spanned root s) {R : Set ℕ} (hy : y < g.n)
    (h : Live g.Edge x R y) : Live g.Edge x R (c y) := by
  rcases hn.heads y with he | ⟨hd, hmem⟩
  · rw [he]
    exact h
  · obtain ⟨hlt, hafter⟩ := hn.after _ hd
    obtain ⟨-, -, hsub⟩ := hn.subtree _ y hmem
    obtain ⟨l, hl, hxl⟩ := hs.spanning.exists_path_above
      (hs.spanning.reaches_of_subtree hlt hy hsub) hafter
    exact h.of_path hl fun hm => hxl (List.mem_of_mem_tail hm)

/-- A block whose head is `x` or in `R` is in `R` or under one of its blocks. -/
theorem Next.collected {R : Set ℕ} (h : c y = x ∨ c y ∈ R) : Collected B x R y := by
  rcases hn.heads y with he | ⟨hd, hmem⟩
  · rw [he] at h
    exact h.imp_right .inl
  · rcases h with he | h
    · rw [he] at hd
      exact absurd hd hn.notMem
    · exact .inr (.inr ⟨c y, h, hmem⟩)

end Block

/-- Marking a block that joins the list. -/
theorem Reaching.push (h : g.Reaching s B c x r) (hlt : t < g.n) (hne : t ≠ x)
    (hsub : InSubtree s.visitcount s.numdesc x t)
    (hlive : Live g.Edge x {z | g.Labelled s.labels (fun l => l.backEdge = true) z x} t) :
    g.Reaching s B c x { r with
      reachunder := r.reachunder ++ [t], mark := Function.update r.mark t true } := by
  constructor
  · intro b
    change Function.update r.mark t true b = true ↔ b ∈ r.reachunder ++ [t]
    rw [List.mem_append, List.mem_singleton]
    by_cases hb : b = t
    · rw [hb, Function.update_self]
      exact iff_of_true rfl (.inr rfl)
    · rw [Function.update_of_ne hb, h.mark]
      exact ⟨.inl, fun hm => hm.resolve_right hb⟩
  · exact h.rebuild
  · exact h.labels
  · exact h.copymap
  · intro u hu
    rcases List.mem_append.mp hu with hu | hu
    · exact h.subtree u hu
    · rw [List.mem_singleton.mp hu]
      exact ⟨hlt, hne, hsub⟩
  · intro u hu
    rcases List.mem_append.mp hu with hu | hu
    · exact h.live u hu
    · rw [List.mem_singleton.mp hu]
      exact hlive
  · exact h.inEdges

/-- The source of a back edge into `x` is collected. -/
theorem Reaching.pushBackEdge (hs : g.Spanned root s) (hn : g.Next s done B c x)
    (h : g.Reaching s B c x r) (hk : (g.outs y)[k]? = some x) :
    g.Reaching s B c x (r.pushBackEdge x (y, k)) ∧
      r.reachunder ⊆ (r.pushBackEdge x (y, k)).reachunder ∧
      (r.pushBackEdge x (y, k)).reachunder.length ≤ r.reachunder.length + 1 ∧
      (r.pushBackEdge x (y, k)).labels = r.labels ∧
      ((s.labels y k).backEdge = true →
        Collected B x {u | u ∈ (r.pushBackEdge x (y, k)).reachunder} y) := by
  unfold Reach.pushBackEdge
  dsimp only
  have hc : r.copymap y = c y := by rw [h.copymap]
  rw [(h.labels y k).back, hc]
  by_cases hskip : ¬(s.labels y k).backEdge = true ∨ y = x
  · rw [if_pos hskip]
    refine ⟨h, List.Subset.refl _, Nat.le_succ _, rfl, fun hback => .inl ?_⟩
    exact hskip.resolve_left fun hnot => hnot hback
  · rw [if_neg hskip]
    obtain ⟨hback, hne⟩ := not_or.mp hskip
    have hback : (s.labels y k).backEdge = true := not_not.mp hback
    have hlabel : g.Labelled s.labels (fun l => l.backEdge = true) y x := ⟨k, hk, hback⟩
    obtain ⟨hy, -, -, hsub⟩ := hs.spanning.back_subtree y x hlabel
    obtain ⟨hlt, hsub'⟩ := hn.head_subtree hy hsub
    refine ⟨h.push hlt (hn.head_ne hne) hsub' (hn.head_live hs hy (.of_mem hlabel)),
      List.subset_append_left _ _, ?_, rfl, fun _ => hn.collected (.inr ?_)⟩
    · rw [List.length_append]
      exact le_rfl
    · exact List.mem_append_right _ (List.mem_singleton_self _)

/-- `r'` comes after `r` while the in-edges of a block are looked at. -/
structure Grown (g : LeafGraph) (r r' : Reach) : Prop where
  reachunder : r.reachunder <+: r'.reachunder
  irreducible : ∀ y k, (r.labels y k).irreducible = true → (r'.labels y k).irreducible = true
  room : g.room r' ≤ g.room r

theorem Grown.refl : g.Grown r r := ⟨List.prefix_rfl, fun _ _ h => h, le_rfl⟩

theorem Grown.trans {r' r'' : Reach} (h : g.Grown r r') (h' : g.Grown r' r'') : g.Grown r r'' where
  reachunder := h.reachunder.trans h'.reachunder
  irreducible y k hi := h'.irreducible y k (h.irreducible y k hi)
  room := h'.room.trans h.room

/-- A block that is marked for the first time takes no room. -/
theorem grown_push (hlt : t < g.n) (hmark : r.mark t = false) :
    g.Grown r { r with
      reachunder := r.reachunder ++ [t], mark := Function.update r.mark t true } := by
  constructor
  · exact List.prefix_append _ _
  · exact fun _ _ h => h
  · have hmem : t ∈ (Finset.range g.n).filter fun b => r.mark b = false :=
      Finset.mem_filter.mpr ⟨Finset.mem_range.mpr hlt, hmark⟩
    have hcard := Finset.card_erase_add_one hmem
    unfold room
    dsimp only
    rw [unmarked_update, List.length_append, List.length_singleton]
    omega

/-- An edge into a loop from no descendant of its head gets the label. -/
theorem Reaching.markEdge (h : g.Reaching s B c x r) {set : EdgeLabels → EdgeLabels}
    (hset : g.MarkedFrom s (setOutEdge r.labels y k set) y k)
    (hirr : ∀ l, (set l).irreducible = true) (m : ℕ) :
    g.Reaching s B c x { r with
        irreducibleCount := m, labels := setOutEdge r.labels y k set } ∧
      g.Grown r { r with irreducibleCount := m, labels := setOutEdge r.labels y k set } := by
  have hmono : ∀ a i, (r.labels a i).irreducible = true →
      (setOutEdge r.labels y k set a i).irreducible = true := by
    intro a i hi
    by_cases he : a = y ∧ i = k
    · rw [he.1, he.2, setOutEdge_self]
      exact hirr _
    · rw [setOutEdge_of_ne set he]
      exact hi
  refine ⟨?_, List.prefix_rfl, hmono, le_rfl⟩
  constructor
  · exact h.mark
  · exact h.rebuild
  · intro a i
    by_cases he : a = y ∧ i = k
    · rw [he.1, he.2]
      exact hset
    · have hkeep := h.labels a i
      unfold MarkedFrom
      dsimp only
      rw [setOutEdge_of_ne set he]
      exact hkeep
  · exact h.copymap
  · exact h.subtree
  · exact h.live
  · intro u t ht a i hk
    exact (h.inEdges u t ht a i hk).imp_left (hmono a i)

/-- An in-edge of a reached block is irreducible or its source is collected. -/
theorem Reaching.scanEdge (hs : g.Spanned root s) (hn : g.Next s done B c x)
    (h : g.Reaching s B c x r) (ht : t ∈ r.reachunder) (hk : (g.outs y)[k]? = some t) :
    g.Reaching s B c x (r.scanEdge s x (y, k)) ∧ g.Grown r (r.scanEdge s x (y, k)) ∧
      (((r.scanEdge s x (y, k)).labels y k).irreducible = true ∨
        Collected B x {u | u ∈ (r.scanEdge s x (y, k)).reachunder} y) := by
  obtain ⟨hy, -⟩ := Edge.lt (g := g) (List.mem_of_getElem? hk)
  obtain ⟨ht', hne, hsub⟩ := h.subtree t ht
  have hlive := h.live t ht
  unfold Reach.scanEdge
  dsimp only
  have hc : r.copymap y = c y := by rw [h.copymap]
  rw [hc]
  by_cases hirr : (r.labels y k).irreducible = true
  · rw [if_pos hirr]
    exact ⟨h, Grown.refl, .inl hirr⟩
  rw [if_neg hirr]
  have hlabel : r.labels y k = s.labels y k := (h.labels y k).eq (Bool.not_eq_true _ ▸ hirr)
  by_cases hout : s.visitcount x > s.visitcount (c y) ∨
      s.visitcount x + s.numdesc x ≤ s.visitcount (c y)
  · rw [if_pos hout]
    have hoff : ¬InSubtree s.visitcount s.numdesc x y := by
      intro hin
      obtain ⟨-, hle, hlt⟩ := hn.head_subtree hy hin
      rcases hout with hout | hout
      · exact absurd hle (not_le.mpr hout)
      · exact absurd hlt (not_lt.mpr hout)
    have htree : ¬(r.labels y k).treeEdge = true := by
      intro htree
      rw [hlabel] at htree
      exact hoff (hs.spanning.subtree_parent hn.lt hsub hne.symm ⟨k, hk, htree⟩)
    rw [if_neg htree]
    have hmarked : g.MarkedFrom s (setOutEdge r.labels y k fun l =>
        { l with irreducible := true, crossEdge := false, forwardEdge := false }) y k := by
      right
      rw [setOutEdge_self, hlabel]
      exact ⟨rfl, t, hk, x, hn.lt, hsub, hoff, hne, hlive⟩
    have hmark := h.markEdge hmarked (fun _ => rfl) (r.irreducibleCount + 1)
    refine ⟨hmark.1, hmark.2, .inl ?_⟩
    dsimp only
    rw [setOutEdge_self]
  · rw [if_neg hout]
    have hin : InSubtree s.visitcount s.numdesc x (c y) := by
      obtain ⟨hle, hlt⟩ := not_or.mp hout
      exact ⟨not_lt.mp hle, not_le.mp hlt⟩
    by_cases hnew : r.mark (c y) = false ∧ c y ≠ x
    · rw [if_pos hnew]
      have hreach : Live g.Edge x {z | g.Labelled s.labels (fun l => l.backEdge = true) z x} (c y) :=
        hn.head_live hs hy (hlive.of_step (List.mem_of_getElem? hk) hne)
      refine ⟨h.push (hn.head_lt hy) hnew.2 hin hreach, grown_push (hn.head_lt hy) hnew.1, .inr ?_⟩
      exact hn.collected (.inr (List.mem_append_right _ (List.mem_singleton_self _)))
    · rw [if_neg hnew]
      refine ⟨h, Grown.refl, .inr (hn.collected ?_)⟩
      by_cases hx : c y = x
      · exact .inl hx
      · refine .inr ((h.mark _).mp ?_)
        by_contra hmark
        exact hnew ⟨Bool.not_eq_true _ ▸ hmark, hx⟩

/-- All in-edges of a reached block are irreducible or have their sources collected. -/
theorem Reaching.scanEdges (hs : g.Spanned root s) (hn : g.Next s done B c x)
    (h : g.Reaching s B c x r) (ht : t ∈ r.reachunder)
    (hl : ∀ e ∈ l, (g.outs e.1)[e.2]? = some t) :
    g.Reaching s B c x (l.foldl (Reach.scanEdge s x) r) ∧
      g.Grown r (l.foldl (Reach.scanEdge s x) r) ∧
      ∀ e ∈ l, ((l.foldl (Reach.scanEdge s x) r).labels e.1 e.2).irreducible = true ∨
        Collected B x {u | u ∈ (l.foldl (Reach.scanEdge s x) r).reachunder} e.1 := by
  induction l generalizing r with
  | nil => exact ⟨h, Grown.refl, fun e he => absurd he List.not_mem_nil⟩
  | cons e l ih =>
    obtain ⟨hfirst, hgrown, hcase⟩ := h.scanEdge hs hn ht (hl e List.mem_cons_self)
    obtain ⟨hrest, hgrown', hcases⟩ := ih hfirst (hgrown.reachunder.subset ht)
      fun e he => hl e (List.mem_cons_of_mem _ he)
    refine ⟨hrest, hgrown.trans hgrown', fun e' he' => ?_⟩
    rcases List.mem_cons.mp he' with rfl | he'
    · apply hcase.imp (hgrown'.irreducible _ _)
      exact fun hc => hc.mono (fun u hu => hgrown'.reachunder.subset hu) fun _ _ h => h
    · exact hcases e' he'

/-- All sources of back edges into `x` are collected. -/
theorem Reaching.pushBackEdges (hs : g.Spanned root s) (hn : g.Next s done B c x)
    (h : g.Reaching s B c x r) (hl : ∀ e ∈ l, (g.outs e.1)[e.2]? = some x) :
    g.Reaching s B c x (l.foldl (Reach.pushBackEdge x) r) ∧
      r.reachunder ⊆ (l.foldl (Reach.pushBackEdge x) r).reachunder ∧
      (l.foldl (Reach.pushBackEdge x) r).reachunder.length ≤ r.reachunder.length + l.length ∧
      (l.foldl (Reach.pushBackEdge x) r).labels = r.labels ∧
      ∀ e ∈ l, (s.labels e.1 e.2).backEdge = true →
        Collected B x {u | u ∈ (l.foldl (Reach.pushBackEdge x) r).reachunder} e.1 := by
  induction l generalizing r with
  | nil =>
    exact ⟨h, List.Subset.refl _, le_rfl, rfl, fun e he => absurd he List.not_mem_nil⟩
  | cons e l ih =>
    obtain ⟨hfirst, hsub, hlen, hlabels, hback⟩ := h.pushBackEdge hs hn (hl e List.mem_cons_self)
    obtain ⟨hrest, hsub', hlen', hlabels', hbacks⟩ := ih hfirst
      fun e he => hl e (List.mem_cons_of_mem _ he)
    refine ⟨hrest, List.Subset.trans hsub hsub', ?_, hlabels'.trans hlabels, fun e' he' hb => ?_⟩
    · rw [List.length_cons]
      exact hlen'.trans (by omega)
    · rcases List.mem_cons.mp he' with rfl | he'
      · exact (hback hb).mono (fun u hu => hsub' hu) fun _ _ h => h
      · exact hbacks e' he' hb

/-- What holds when the first `p.1` blocks that reach the back edges into `x` are looked at. -/
structure Scanned (g : LeafGraph) (s : Spanning) (B : ℕ → Set ℕ) (c : ℕ → ℕ) (x : ℕ) (r : Reach)
    (p : ℕ × Reach) : Prop where
  reaching : g.Reaching s B c x p.2
  backs : ∀ z, g.Labelled s.labels (fun l => l.backEdge = true) z x →
    Collected B x {u | u ∈ p.2.reachunder} z
  irreducible : ∀ y k, (r.labels y k).irreducible = true → (p.2.labels y k).irreducible = true
  inEdges : ∀ t ∈ p.2.reachunder.take p.1, ∀ y k, (g.outs y)[k]? = some t →
    (p.2.labels y k).irreducible = true ∨ Collected B x {u | u ∈ p.2.reachunder} y

theorem Scanned.step (hs : g.Spanned root s) (hn : g.Next s done B c x) {p p' : ℕ × Reach}
    (h : g.Scanned s B c x r p) (hstep : g.reachStep s x p = some p') :
    g.Scanned s B c x r p' ∧ g.room p'.2 - p'.1 < g.room p.2 - p.1 := by
  unfold reachStep at hstep
  cases hget : p.2.reachunder[p.1]? with
  | none =>
    rw [hget] at hstep
    cases hstep
  | some t =>
    rw [hget] at hstep
    have hp := Option.some.inj hstep
    have ht : t ∈ p.2.reachunder := List.mem_of_getElem? hget
    obtain ⟨hreaching, hgrown, hcases⟩ := h.reaching.scanEdges hs hn ht (l := g.inAdj t)
      fun e he => mem_inAdj.mp he
    have hmono : ∀ y, Collected B x {u | u ∈ p.2.reachunder} y →
        Collected B x {u | u ∈ ((g.inAdj t).foldl (Reach.scanEdge s x) p.2).reachunder} y :=
      fun y hy => hy.mono (fun u hu => hgrown.reachunder.subset hu) fun _ _ h => h
    rw [← hp]
    refine ⟨⟨hreaching, ?_, ?_, ?_⟩, ?_⟩
    · exact fun z hz => hmono z (h.backs z hz)
    · exact fun y k hi => hgrown.irreducible y k (h.irreducible y k hi)
    · intro u hu y k hk
      obtain ⟨more, hmore⟩ := hgrown.reachunder
      have hlt := (List.getElem?_eq_some_iff.mp hget).1
      have htake : ((g.inAdj t).foldl (Reach.scanEdge s x) p.2).reachunder.take (p.1 + 1) =
          p.2.reachunder.take p.1 ++ [t] := by
        rw [← hmore, List.take_append_of_le_length hlt, List.take_add_one, hget]
        rfl
      dsimp only at hu
      rw [htake] at hu
      rcases List.mem_append.mp hu with hu | hu
      · exact (h.inEdges u hu y k hk).imp (hgrown.irreducible y k) (hmono y)
      · rw [List.mem_singleton.mp hu] at hk
        exact hcases (y, k) (mem_inAdj.mpr hk)
    · have hlt := (List.getElem?_eq_some_iff.mp hget).1
      have hroom := hgrown.room
      have hle : p.2.reachunder.length ≤ g.room p.2 := Nat.le_add_left _ _
      dsimp only
      omega

/-- Once all reached blocks are looked at they are collapsed into `x`. -/
theorem Scanned.collapse (hc : g.Collapsed s done B r) (hx : x ∉ done) {p : ℕ × Reach}
    (h : g.Scanned s B r.copymap x r p) (hlen : p.2.reachunder.length ≤ p.1) :
    g.Collapsed s (x :: done) (Function.update B x {u | u ∈ p.2.reachunder}) (p.2.collapse x) := by
  have hself : Function.update B x {u | u ∈ p.2.reachunder} x = {u | u ∈ p.2.reachunder} :=
    Function.update_self ..
  have hother : ∀ b, b ≠ x → Function.update B x {u | u ∈ p.2.reachunder} b = B b :=
    fun b hb => Function.update_of_ne hb ..
  have hle : ∀ b, B b ⊆ Function.update B x {u | u ∈ p.2.reachunder} b := by
    intro b
    by_cases hb : b = x
    · rw [hb, hc.outside x hx]
      exact Set.empty_subset _
    · rw [hother b hb]
  constructor
  · rfl
  · intro b
    change (if b ∈ p.2.reachunder then false else p.2.mark b) = false
    split_ifs with hb
    · rfl
    · exact Bool.not_eq_true _ ▸ fun hm => hb ((h.reaching.mark b).mp hm)
  · exact h.reaching.rebuild
  · exact h.reaching.labels
  · intro b
    change (if b ∈ p.2.reachunder then x else p.2.copymap b) = b ∨
      (if b ∈ p.2.reachunder then x else p.2.copymap b) ∈ x :: done ∧
        b ∈ Function.update B x {u | u ∈ p.2.reachunder}
          (if b ∈ p.2.reachunder then x else p.2.copymap b)
    split_ifs with hb
    · refine .inr ⟨List.mem_cons_self, ?_⟩
      rw [hself]
      exact hb
    · rw [h.reaching.copymap]
      exact (hc.copymap b).imp_right fun hd => ⟨List.mem_cons_of_mem _ hd.1, hle _ hd.2⟩
  · intro b hb
    obtain ⟨hne, hb⟩ := not_or.mp (List.mem_cons.not.mp hb)
    rw [hother b hne]
    exact hc.outside b hb
  · intro b t ht
    by_cases hb : b = x
    · rw [hb, hself] at ht
      rw [hb]
      exact h.reaching.subtree t ht
    · rw [hother b hb] at ht
      exact hc.subtree b t ht
  · intro b hb z hz
    by_cases hbx : b = x
    · rw [hbx] at hz ⊢
      rw [hself]
      exact (h.backs z hz).mono (fun _ hu => hu) hle
    · rw [hother b hbx]
      exact (hc.backs b ((List.mem_cons.mp hb).resolve_left hbx) z hz).mono (fun _ hu => hu) hle
  · intro b t ht y k hk
    by_cases hbx : b = x
    · rw [hbx, hself] at ht ⊢
      have hall : t ∈ p.2.reachunder.take p.1 := by
        rw [List.take_of_length_le hlen]
        exact ht
      exact (h.inEdges t hall y k hk).imp_right fun hy => hy.mono (fun _ hu => hu) hle
    · rw [hother b hbx] at ht ⊢
      exact (h.reaching.inEdges b t ht y k hk).imp_right fun hy => hy.mono (fun _ hu => hu) hle

theorem Collapsed.reaching (h : g.Collapsed s done B r) : g.Reaching s B r.copymap x r where
  mark b := by
    rw [h.mark, h.reachunder]
    simp
  rebuild := h.rebuild
  labels := h.labels
  copymap := rfl
  subtree t ht := by
    rw [h.reachunder] at ht
    exact absurd ht List.not_mem_nil
  live t ht := by
    rw [h.reachunder] at ht
    exact absurd ht List.not_mem_nil
  inEdges := h.inEdges

theorem length_inAdj_le : (g.inAdj t).length + g.n ≤ g.size := by
  have hsum : ∀ n, ((List.range n).flatMap fun src =>
      (g.outs src).zipIdx.filterMap fun e => if e.1 = t then some (src, e.2) else none).length + n ≤
        ∑ b ∈ Finset.range n, ((g.outs b).length + 1) := by
    intro n
    induction n with
    | zero => exact le_rfl
    | succ n ih =>
      rw [List.range_succ, List.flatMap_append, List.length_append, Finset.sum_range_succ,
        List.flatMap_singleton]
      have hlen := List.length_filterMap_le
        (fun e : ℕ × ℕ => if e.1 = t then some (n, e.2) else none) (g.outs n).zipIdx
      rw [List.length_zipIdx] at hlen
      omega
  exact hsum g.n

/-- One block is processed. -/
theorem Collapsed.reachBlock (hs : g.Spanned root s) (h : g.Collapsed s done B r) (hx : x < g.n)
    (hxd : x ∉ done) (hafter : ∀ d ∈ done, d < g.n ∧ s.visitcount x < s.visitcount d) {fuel : ℕ}
    (hfuel : g.size < fuel) : ∃ B' r', g.reachBlock s fuel r x = some r' ∧
      g.Collapsed s (x :: done) B' r' := by
  have hn : g.Next s done B r.copymap x := ⟨hx, hxd, hafter, h.copymap, h.subtree⟩
  obtain ⟨hreaching, -, hlen, hlabels, hbacks⟩ := (h.reaching (x := x)).pushBackEdges hs hn
    (l := g.inAdj x) fun e he => mem_inAdj.mp he
  have hstart : g.Scanned s B r.copymap x r (0, (g.inAdj x).foldl (Reach.pushBackEdge x) r) := by
    refine ⟨hreaching, ?_, ?_, ?_⟩
    · rintro z ⟨k, hk, hb⟩
      exact hbacks (z, k) (mem_inAdj.mpr hk) hb
    · intro y k hi
      dsimp only
      rw [hlabels]
      exact hi
    · intro t ht
      exact absurd ht List.not_mem_nil
  have hroom : g.room ((g.inAdj x).foldl (Reach.pushBackEdge x) r) - 0 < fuel := by
    have hcard := Finset.card_filter_le (Finset.range g.n)
      fun b => ((g.inAdj x).foldl (Reach.pushBackEdge x) r).mark b = false
    rw [Finset.card_range] at hcard
    have hsize := g.length_inAdj_le (t := x)
    rw [h.reachunder, List.length_nil] at hlen
    unfold room
    omega
  have hstep : ∀ p p', g.Scanned s B r.copymap x r p → g.reachStep s x p = some p' →
      g.Scanned s B r.copymap x r p' ∧ g.room p'.2 - p'.1 < g.room p.2 - p.1 :=
    fun _ _ hp hnext => hp.step hs hn hnext
  obtain ⟨p, hrun, hscanned, hstop⟩ := @repeatStep_spec _ _ _ _ (g.Scanned s B r.copymap x r)
    (fun p => g.room p.2 - p.1) hstep hstart hroom
  have hend : p.2.reachunder.length ≤ p.1 := by
    unfold reachStep at hstop
    cases hget : p.2.reachunder[p.1]? with
    | none => exact List.getElem?_eq_none_iff.mp hget
    | some t =>
      rw [hget] at hstop
      cases hstop
  refine ⟨_, p.2.collapse x, ?_, hscanned.collapse h hxd hend⟩
  unfold LeafGraph.reachBlock
  rw [hrun]
  rfl

/-- The preorder is sorted by the numbers. -/
theorem Spanned.preorder_sorted (hs : g.Spanned root s) :
    s.preorder.Pairwise fun a b => s.visitcount a < s.visitcount b := by
  apply List.pairwise_iff_getElem.mpr
  intro i j hi hj hij
  have hvi := (hs.visit_iff s.preorder[i] i).mpr (List.getElem?_eq_getElem hi)
  have hvj := (hs.visit_iff s.preorder[j] j).mpr (List.getElem?_eq_getElem hj)
  omega

theorem Spanned.mem_preorder (hs : g.Spanned root s) (hb : x < g.n) : x ∈ s.preorder := by
  have hnodup : s.preorder.Nodup :=
    hs.preorder_sorted.imp fun h he => by rw [he] at h; exact lt_irrefl _ h
  have hsub : s.preorder ⊆ List.range g.n := fun b hb => List.mem_range.mpr (hs.lt b hb)
  have hperm : s.preorder.Perm (List.range g.n) := by
    apply (List.subperm_of_subset hnodup hsub).perm_of_length_le
    rw [List.length_range, hs.length]
  exact hperm.mem_iff.mpr (List.mem_range.mpr hb)

/-- The blocks are processed in reverse preorder. -/
theorem Collapsed.reachBlocks (hs : g.Spanned root s) {fuel : ℕ} (hfuel : g.size < fuel)
    (l : List ℕ) (h : g.Collapsed s done B r) (hl : s.preorder = l.reverse ++ done) :
    ∃ B' r', l.foldlM (g.reachBlock s fuel) r = some r' ∧ g.Collapsed s s.preorder B' r' := by
  induction l generalizing done B r with
  | nil =>
    rw [List.reverse_nil, List.nil_append] at hl
    rw [hl]
    exact ⟨B, r, rfl, h⟩
  | cons x l ih =>
    rw [List.reverse_cons, List.append_assoc, List.singleton_append] at hl
    have hsorted := hs.preorder_sorted
    rw [hl] at hsorted
    have hcons := List.pairwise_cons.mp (List.pairwise_append.mp hsorted).2.1
    have hmem : ∀ d ∈ x :: done, d < g.n := by
      intro d hd
      apply hs.lt
      rw [hl]
      exact List.mem_append_right _ hd
    have hxd : x ∉ done := fun hx => lt_irrefl _ (hcons.1 x hx)
    obtain ⟨B', r', hrun, hnext⟩ := h.reachBlock hs (hmem x List.mem_cons_self) hxd
      (fun d hd => ⟨hmem d (List.mem_cons_of_mem _ hd), hcons.1 d hd⟩) hfuel
    obtain ⟨B'', r'', hrest, hend⟩ := ih hnext hl
    refine ⟨B'', r'', ?_, hend⟩
    rw [List.foldlM_cons, hrun]
    exact hrest

/-- The search for irreducible edges ends, and never asks for another spanning tree. -/
theorem findIrreducible_spec (hs : g.Spanned root s) {fuel : ℕ} (hfuel : g.size < fuel) (m : ℕ) :
    ∃ B r, g.findIrreducible s fuel m = some r ∧ g.Collapsed s s.preorder B r := by
  have hstart : g.Collapsed s [] (fun _ => ∅)
      { labels := s.labels, copymap := s.copymap, irreducibleCount := m } := by
    constructor
    · rfl
    · exact fun _ => rfl
    · rfl
    · exact fun _ _ => .inl rfl
    · intro b
      left
      dsimp only
      rw [hs.copymap]
      rfl
    · exact fun _ _ => rfl
    · exact fun _ t ht => absurd ht (Set.notMem_empty t)
    · exact fun x hx => absurd hx List.not_mem_nil
    · exact fun _ t ht => absurd ht (Set.notMem_empty t)
  apply hstart.reachBlocks hs hfuel
  rw [List.reverse_reverse, List.append_nil]

end LeafGraph

end Mosura
