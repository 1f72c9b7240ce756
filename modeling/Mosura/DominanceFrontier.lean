import Mosura.DominatorSound

/-! The dominance frontiers that `dominators` computes, and the tree and they together. -/

namespace Mosura

open Paths Climbs

variable {idom : Idoms} {frontier fr : List (List BlockId)} {M : BlockId → BlockId → Prop}
variable {n fuel : ℕ} {num : ℕ → ℕ} {b i p r w x : BlockId} {preds : List BlockId}

/-- Each of the `n` lists is strictly increasing and holds what `M` says. -/
structure FrontierOf (n : ℕ) (M : BlockId → BlockId → Prop) (frontier : List (List BlockId)) :
    Prop where
  length : frontier.length = n
  holds : ∀ r < n, ∃ df, frontier[r]? = some df ∧ df.Pairwise (· < ·) ∧ ∀ w, w ∈ df ↔ M r w

theorem FrontierOf.congr {M' : BlockId → BlockId → Prop} (h : FrontierOf n M frontier)
    (hM : ∀ r w, M r w ↔ M' r w) : FrontierOf n M' frontier where
  length := h.length
  holds r hr := by
    obtain ⟨df, hdf, hs, hmem⟩ := h.holds r hr
    exact ⟨df, hdf, hs, fun w => (hmem w).trans (hM r w)⟩

theorem pushFrontier_spec (h : FrontierOf n M frontier) (hr : r < n) (hb : ∀ r w, M r w → w ≤ b) :
    ∃ fr, pushFrontier frontier r b = some fr ∧
      FrontierOf n (fun x w => M x w ∨ x = r ∧ w = b) fr := by
  obtain ⟨df, hdf, hs, hmem⟩ := h.holds r hr
  unfold pushFrontier
  rw [hdf, Option.map_some]
  by_cases hbd : b ∈ df
  · refine ⟨frontier, by rw [if_pos hbd], h.congr fun x w => ⟨.inl, ?_⟩⟩
    rintro (hM | ⟨rfl, rfl⟩)
    · exact hM
    · exact (hmem w).mp hbd
  · refine ⟨_, by rw [if_neg hbd], by rw [List.length_set, h.length], fun x hx => ?_⟩
    by_cases hxr : x = r
    · subst hxr
      refine ⟨df ++ [b], List.getElem?_set_self (h.length ▸ hr), ?_, fun w => ?_⟩
      · refine List.pairwise_append.mpr ⟨hs, List.pairwise_singleton _ _, fun a ha c hc => ?_⟩
        rw [List.mem_singleton.mp hc]
        refine (hb x a ((hmem a).mp ha)).lt_of_ne ?_
        rintro rfl
        exact hbd ha
      · rw [List.mem_append, List.mem_singleton, hmem]
        simp
    · obtain ⟨dx, hdx, hsx, hmx⟩ := h.holds x hx
      refine ⟨dx, by rw [List.getElem?_set_ne (Ne.symm hxr), hdx], hsx, fun w => ?_⟩
      rw [hmx]
      simp [hxr]

/-- The runner adds `b` to all blocks from `x` on up to the idom of `b`, that one left out. -/
theorem frontierWalk_spec (hF : Forest num 0 idom.up) (hlt : ∀ x, (idom.up x).isSome → x < n)
    (h : FrontierOf n M frontier) (hM : ∀ r w, M r w → w ≤ b) (hi : idom.up b = some i)
    (hx : (idom.up x).isSome) (hxi : Climb idom.up x i) (hf : num x < fuel) :
    ∃ fr, frontierWalk idom b fuel (some x) frontier = some fr ∧
      FrontierOf n (fun r w => M r w ∨ w = b ∧ Climb idom.up x r ∧ ¬Climb idom.up i r) fr := by
  induction fuel generalizing x frontier M with
  | zero => exact absurd hf (Nat.not_lt_zero _)
  | succ fuel ih =>
    unfold frontierWalk
    rw [Idoms.up_eq_some.mp hi, Option.bind_some]
    by_cases hxe : x = i
    · refine ⟨frontier, by simp [hxe], h.congr fun r w => ⟨.inl, ?_⟩⟩
      rintro (hm | ⟨-, hr, hn⟩)
      · exact hm
      · exact absurd (hxe ▸ hr) hn
    · have hx0 : x ≠ 0 := by
        rintro rfl
        exact hxe (hxi.of_root hF).symm
      obtain ⟨y, hy⟩ := Option.isSome_iff_exists.mp hx
      obtain ⟨hyx, hys⟩ := hF.climb hy hx0
      obtain ⟨fr, hfr, h'⟩ := pushFrontier_spec h (hlt x hx) hM
      have hyi : Climb idom.up y i := by
        obtain ⟨j, hj, hji⟩ := hxi.cases.resolve_left (Ne.symm hxe)
        exact Option.some.inj (hj.symm.trans hy) ▸ hji
      have hix : ¬Climb idom.up i x := fun hc =>
        absurd (hxi.num_lt hF (Ne.symm hxe)) (not_lt.mpr (hc.num_le hF))
      have hM' : ∀ r w, (M r w ∨ r = x ∧ w = b) → w ≤ b := by
        rintro r w (hm | ⟨-, rfl⟩)
        · exact hM r w hm
        · exact le_rfl
      obtain ⟨fr', hfr', h''⟩ := ih h' hM' hys hyi (by omega)
      · refine ⟨fr', ?_, h''.congr fun r w => ?_⟩
        · have hne : x ≠ y := fun he => lt_irrefl _ (he ▸ hyx)
          simp only [Option.some.injEq, hxe, if_false, hfr, Option.bind_some,
            Idoms.up_eq_some.mp hy, hne]
          exact hfr'
        · have hcx : Climb idom.up x r ↔ r = x ∨ Climb idom.up y r := by
            constructor
            · intro hc
              refine hc.cases.imp_right fun ⟨j, hj, hjr⟩ => ?_
              exact Option.some.inj (hj.symm.trans hy) ▸ hjr
            · rintro (rfl | hc)
              · exact .refl
              · exact (Climb.parent hy).trans hc
          rw [hcx]
          constructor
          · rintro ((hm | ⟨rfl, rfl⟩) | ⟨rfl, hc, hn⟩)
            · exact .inl hm
            · exact .inr ⟨rfl, .inl rfl, hix⟩
            · exact .inr ⟨rfl, .inr hc, hn⟩
          · rintro (hm | ⟨rfl, rfl | hc, hn⟩)
            · exact .inl (.inl hm)
            · exact .inl (.inr ⟨rfl, rfl⟩)
            · exact .inr ⟨rfl, hc, hn⟩

/-- The walks from all predecessors of `b`. -/
theorem frontierWalks_spec (hF : Forest num 0 idom.up) (hlt : ∀ x, (idom.up x).isSome → x < n)
    (hn : ∀ x < n, num x < fuel) (h : FrontierOf n M frontier) (hM : ∀ r w, M r w → w ≤ b)
    (hi : idom.up b = some i) (hp : ∀ p ∈ preds, (idom.up p).isSome ∧ Climb idom.up p i) :
    ∃ fr, preds.foldlM (fun frontier p => frontierWalk idom b fuel (some p) frontier) frontier =
        some fr ∧
      FrontierOf n (fun r w => M r w ∨
        w = b ∧ ∃ p ∈ preds, Climb idom.up p r ∧ ¬Climb idom.up i r) fr := by
  induction preds generalizing frontier M with
  | nil => exact ⟨frontier, rfl, h.congr fun r w => by simp⟩
  | cons p ps ih =>
    obtain ⟨hps, hpi⟩ := hp p List.mem_cons_self
    obtain ⟨fr, hfr, h'⟩ := frontierWalk_spec hF hlt h hM hi hps hpi (hn p (hlt p hps))
    have hM' : ∀ r w, (M r w ∨ w = b ∧ Climb idom.up p r ∧ ¬Climb idom.up i r) → w ≤ b := by
      rintro r w (hm | ⟨rfl, -⟩)
      · exact hM r w hm
      · exact le_rfl
    obtain ⟨fr', hfr', h''⟩ := ih h' hM' fun q hq => hp q (List.mem_cons_of_mem _ hq)
    refine ⟨fr', by rw [List.foldlM_cons, hfr]; exact hfr', h''.congr fun r w => ?_⟩
    rw [List.exists_mem_cons_iff]
    tauto

namespace Funcdata

variable {f : Funcdata} {rpo : List BlockId} {rpoNum : List ℕ}

/-- What the frontier walk puts into the frontier of `r`. -/
def Walked (f : Funcdata) (idom : Idoms) (r w : BlockId) : Prop :=
  2 ≤ (f.block w).inEdges.length ∧ ∃ i, idom.up w = some i ∧
    ∃ p ∈ (f.block w).inEdges, Climb idom.up p r ∧ ¬Climb idom.up i r

theorem frontiers_spec (hO : f.Order rpo rpoNum) (hP : f.Pass rpo f.numBlocks idom)
    (hS : Settled f.Edge {b | b < f.numBlocks} 0 idom.up) :
    ∃ fr, f.frontiers idom = some fr ∧ FrontierOf f.numBlocks (f.Walked idom) fr := by
  have hF := hP.sweep.forest
  have hfuel : ∀ x < f.numBlocks, rpo.idxOf x < idom.length + 1 := by
    intro x hx
    have := hO.lt x hx
    rw [hP.length]
    omega
  suffices h : ∀ k ≤ f.numBlocks, ∃ fr, (List.range k).foldlM (fun frontier b =>
      (f.blocks[b]?).bind fun blk =>
        if blk.inEdges.length < 2 then some frontier
        else blk.inEdges.foldlM
          (fun frontier p => frontierWalk idom b (idom.length + 1) (some p) frontier) frontier)
      (List.replicate f.numBlocks []) = some fr ∧
      FrontierOf f.numBlocks (fun r w => w < k ∧ f.Walked idom r w) fr by
    obtain ⟨fr, hfr, h⟩ := h f.numBlocks le_rfl
    refine ⟨fr, hfr, h.congr fun r w => and_iff_right_of_imp ?_⟩
    rintro ⟨-, i, hi, -⟩
    exact hP.sweep.mem (by rw [hi]; rfl)
  intro k hk
  induction k with
  | zero =>
    refine ⟨_, rfl, List.length_replicate, fun r hr => ⟨[], ?_, List.Pairwise.nil, fun w => ?_⟩⟩
    · rw [List.getElem?_replicate, if_pos hr]
    · simp
  | succ k ih =>
    obtain ⟨fr, hfr, h⟩ := ih (by omega)
    have hkn : k < f.numBlocks := hk
    rw [List.range_succ, List.foldlM_append, hfr]
    change ∃ fr', (((f.blocks[k]?).bind _).bind some) = some fr' ∧ _
    rw [Option.bind_fun_some, getElem?_blocks hkn, Option.bind_some]
    by_cases h2 : (f.block k).inEdges.length < 2
    · refine ⟨fr, if_pos h2, h.congr fun r w =>
        ⟨fun hw => ⟨hw.1.trans (Nat.lt_succ_self k), hw.2⟩, fun hw => ⟨?_, hw.2⟩⟩⟩
      refine (Nat.lt_succ_iff.mp hw.1).lt_of_ne fun he => ?_
      exact absurd (he ▸ hw.2.1) (not_le.mpr h2)
    · rw [if_neg h2]
      obtain ⟨i, hi⟩ := Option.isSome_iff_exists.mp (hS.all k hkn)
      have hpred : ∀ p ∈ (f.block k).inEdges, (idom.up p).isSome ∧ Climb idom.up p i := by
        intro p hp
        have hpk : f.Edge p k := (hO.graph.edges p k).mpr hp
        have hps := hS.all p (hO.graph.edge_lt hpk).1
        refine ⟨hps, ?_⟩
        by_cases hk0 : k = 0
        · have hi0 : i = 0 := Option.some.inj ((hk0 ▸ hi).symm.trans hF.self)
          exact hi0 ▸ hF.climb_root hps
        · exact (hS.meet k hkn hk0 i hi i).mp .refl p hpk hps
      obtain ⟨fr', hfr', h'⟩ := frontierWalks_spec hF (fun x hx => hP.sweep.mem hx) hfuel h
        (fun r w hw => hw.1.le) hi hpred
      refine ⟨fr', hfr', h'.congr fun r w => ?_⟩
      constructor
      · rintro (hw | ⟨rfl, hw⟩)
        · exact ⟨hw.1.trans (Nat.lt_succ_self k), hw.2⟩
        · exact ⟨Nat.lt_succ_self w, not_lt.mp h2, i, hi, hw⟩
      · rintro ⟨hwk, hw⟩
        rcases Nat.lt_succ_iff_lt_or_eq.mp hwk with hlt | rfl
        · exact .inl ⟨hlt, hw⟩
        · obtain ⟨-, j, hj, hp⟩ := hw
          exact .inr ⟨rfl, Option.some.inj (hj.symm.trans hi) ▸ hp⟩

/-- With no edge to the entry the walk finds the dominance frontier: where two edges do not meet at a
block, its one predecessor is its parent. -/
theorem walked_iff (hO : f.Order rpo rpoNum) (hP : f.Pass rpo f.numBlocks idom)
    (hS : Settled f.Edge {b | b < f.numBlocks} 0 idom.up) (h0 : (f.block 0).inEdges = []) :
    f.Walked idom r w ↔ (∃ p, f.Edge p w ∧ Dominates f.Edge 0 r p) ∧
      ¬(Dominates f.Edge 0 r w ∧ r ≠ w) := by
  have hF := hP.sweep.forest
  have hclimb : ∀ x < f.numBlocks, ∀ d, Climb idom.up x d ↔ Dominates f.Edge 0 d x :=
    fun x hx d => hS.climb_iff hO.numbered hP.sweep hx
  by_cases hw0 : w = 0
  · subst hw0
    refine iff_of_false (fun h => ?_) fun h => ?_
    · have := h.1
      rw [h0] at this
      exact absurd this (by simp)
    · obtain ⟨⟨p, hp, -⟩, -⟩ := h
      have := (hO.graph.edges p 0).mp hp
      rw [h0] at this
      exact absurd this List.not_mem_nil
  by_cases hwn : w < f.numBlocks
  · obtain ⟨i, hi⟩ := Option.isSome_iff_exists.mp (hS.all w hwn)
    have hstrict : Dominates f.Edge 0 r w ∧ r ≠ w ↔ Climb idom.up i r := by
      rw [← hclimb w hwn]
      constructor
      · rintro ⟨hc, hne⟩
        obtain ⟨j, hj, hjr⟩ := hc.cases.resolve_left hne
        exact Option.some.inj (hj.symm.trans hi) ▸ hjr
      · intro hc
        refine ⟨(Climb.parent hi).trans hc, ?_⟩
        rintro rfl
        exact absurd (hF.climb hi hw0).1 (not_lt.mpr (hc.num_le hF))
    have hmem : ∀ p, p ∈ (f.block w).inEdges ↔ f.Edge p w := fun p => (hO.graph.edges p w).symm
    rw [hstrict]
    constructor
    · rintro ⟨-, j, hj, p, hp, hpr, hn⟩
      obtain rfl := Option.some.inj (hj.symm.trans hi)
      have hpe := (hmem p).mp hp
      exact ⟨⟨p, hpe, (hclimb p (hO.graph.edge_lt hpe).1 r).mp hpr⟩, hn⟩
    · rintro ⟨⟨p, hpe, hd⟩, hn⟩
      have hp := (hmem p).mpr hpe
      have hpr := (hclimb p (hO.graph.edge_lt hpe).1 r).mpr hd
      refine ⟨?_, i, hi, p, hp, hpr, hn⟩
      by_contra hlt
      -- the only predecessor has the smaller number, and climbs as the parent does
      have hone : ∀ q, f.Edge q w → q = p := by
        intro q hq
        have hq := (hmem q).mpr hq
        match hl : (f.block w).inEdges, hlt with
        | [], _ => exact absurd (hl ▸ hp) List.not_mem_nil
        | [e], _ =>
          rw [hl] at hp hq
          rw [List.mem_singleton.mp hp, List.mem_singleton.mp hq]
        | _ :: _ :: _, hlt => exact absurd hlt (by simp)
      refine hn ((hS.meet w hwn hw0 i hi r).mpr fun q hq _ => ?_)
      exact hone q hq ▸ hpr
  · refine iff_of_false (fun h => ?_) fun h => ?_
    · obtain ⟨-, i, hi, -⟩ := h
      exact hwn (hP.sweep.mem (by rw [hi]; rfl))
    · obtain ⟨⟨p, hp, -⟩, -⟩ := h
      exact hwn (hO.graph.edge_lt hp).2

/-- A loop between blocks 1 and 2, left for block 3. -/
def loopGraph : Funcdata where
  spaces := SpaceManager.standard false
  vn _ := default
  numVarnodes := 0
  op _ := default
  numOps := 0
  blocks :=
    [{ outEdges := [1] }, { inEdges := [0, 2], outEdges := [2] },
     { inEdges := [1], outEdges := [1, 3] }, { inEdges := [2] }]

theorem loopGraph_reachable : loopGraph.EntryReachable where
  edges a b := by
    constructor
    · intro h
      have ha : a < 4 := lt_of_mem_outEdges h
      interval_cases a <;> simp [loopGraph, block] at h <;> rcases h with rfl | rfl <;> decide
    · intro h
      have hb : b < 4 := lt_of_mem_inEdges h
      interval_cases b <;> simp [loopGraph, block] at h <;> rcases h with rfl | rfl <;> decide
  reached := by
    have h1 : loopGraph.Edge 0 1 := by decide
    have h2 : loopGraph.Edge 1 2 := by decide
    have h3 : loopGraph.Edge 2 3 := by decide
    intro b hb
    change b < 4 at hb
    interval_cases b
    · exact .refl
    · exact .single h1
    · exact .tail (.single h1) h2
    · exact .tail (.tail (.single h1) h2) h3

/-- `compute` ends without a panic on every graph whose blocks are all reached from block 0, and its
tree is the dominator tree. -/
theorem dominators_exact (h : f.EntryReachable) :
    ∃ info, f.dominators = some info ∧ f.DominatorsExact info.toDominators := by
  by_cases h0 : f.numBlocks = 0
  · refine ⟨{ idom := [], frontier := [] }, ?_, h0.symm, fun hn => absurd h0 hn, ?_, ?_⟩
    · simp only [dominators, if_pos h0]
    · exact fun b hb => absurd (h0 ▸ hb) (Nat.not_lt_zero b)
    · exact fun a b hb => absurd (h0 ▸ hb) (Nat.not_lt_zero b)
  obtain ⟨rpo, rpoNum, idom, hO, hP, hS, heq⟩ := exists_idoms h h0
  obtain ⟨fr, hfr, -⟩ := frontiers_spec hO hP hS
  have hF := hP.sweep.forest
  rw [hfr, Option.map_some] at heq
  have hdom : ∀ x y, idom.up x = some y →
      (idom.map fun i => i.getD unprocessed)[x]? = some y := by
    intro x y hxy
    rw [List.getElem?_map, Idoms.up_eq_some.mp hxy]
    rfl
  have hlen : (idom.map fun i => i.getD unprocessed).length = f.numBlocks := by
    rw [List.length_map, hP.length]
  refine ⟨_, heq, hlen, fun _ => hdom 0 0 hF.self, fun b hb hb0 => ?_, fun a b hb => ?_⟩
  · obtain ⟨d, hd⟩ := Option.isSome_iff_exists.mp (hS.all b hb)
    have himm := hS.immDominates hO.numbered hP.sweep hb hb0 hd
    exact ⟨d, hdom b d hd, himm, fun d' hd' => hd'.unique (h.reached b hb) himm⟩
  · have hnum : rpo.idxOf b < f.numBlocks + 1 := Nat.lt_succ_of_lt (hO.lt b hb)
    obtain ⟨r, hr, hiff⟩ := walk_spec (a := a) hF hdom (hS.all b hb) hnum
    exact ⟨r, by rw [hlen, hr], hiff.trans (hS.climb_iff hO.numbered hP.sweep hb)⟩

theorem dominators_exact_loop :
    ∃ info, loopGraph.dominators = some info ∧ loopGraph.DominatorsExact info.toDominators :=
  dominators_exact loopGraph_reachable

/-- The frontiers that `compute` returns: sorted, and of each block exactly those blocks of which it
dominates a predecessor and that it does not strictly dominate. -/
theorem frontiers_exact (h : f.EntryReachable) (h0 : (f.block 0).inEdges = []) :
    ∃ info, f.dominators = some info ∧ info.frontier.length = f.numBlocks ∧
      ∀ n < f.numBlocks, ∃ df, info.frontier[n]? = some df ∧ df.Pairwise (· < ·) ∧
        ∀ w, w ∈ df ↔ (∃ p, f.Edge p w ∧ Dominates f.Edge 0 n p) ∧
          ¬(Dominates f.Edge 0 n w ∧ n ≠ w) := by
  by_cases hnb : f.numBlocks = 0
  · refine ⟨{ idom := [], frontier := [] }, ?_, hnb.symm, ?_⟩
    · simp only [dominators, if_pos hnb]
    · exact fun n hn => absurd (hnb ▸ hn) (Nat.not_lt_zero n)
  obtain ⟨rpo, rpoNum, idom, hO, hP, hS, heq⟩ := exists_idoms h hnb
  obtain ⟨fr, hfr, hfront⟩ := frontiers_spec hO hP hS
  rw [hfr, Option.map_some] at heq
  refine ⟨_, heq, by rw [List.length_map, hfront.length], fun n hn => ?_⟩
  obtain ⟨df, hdf, hsort, hmem⟩ := hfront.holds n hn
  refine ⟨df, ?_, hsort, fun w => (hmem w).trans (walked_iff hO hP hS h0)⟩
  rw [List.getElem?_map, hdf, Option.map_some, List.Pairwise.insertionSort_eq]
  exact hsort.imp le_of_lt

theorem frontiers_exact_loop :
    ∃ info, loopGraph.dominators = some info ∧ info.frontier.length = loopGraph.numBlocks ∧
      ∀ n < loopGraph.numBlocks, ∃ df, info.frontier[n]? = some df ∧ df.Pairwise (· < ·) ∧
        ∀ w, w ∈ df ↔ (∃ p, loopGraph.Edge p w ∧ Dominates loopGraph.Edge 0 n p) ∧
          ¬(Dominates loopGraph.Edge 0 n w ∧ n ≠ w) :=
  frontiers_exact loopGraph_reachable rfl

end Funcdata
end Mosura
