import Mosura.Dominator
import Mosura.FlowEdges

/-! `postorder` lists every block once, and each but the entry before a predecessor. -/

namespace Mosura

/-- Every entry but `root` has an edge from one further back. -/
def Supported {V : Type*} (E : V → V → Prop) (root : V) : List V → Prop
  | [] => True
  | b :: l => (b = root ∨ ∃ p ∈ l, E p b) ∧ Supported E root l

namespace Supported

variable {V : Type*} {E : V → V → Prop} {root b : V} {l l' : List V}

theorem insert (h : Supported E root (l ++ l')) (hb : ∃ p ∈ l', E p b) :
    Supported E root (l ++ b :: l') := by
  induction l with
  | nil => exact ⟨.inr hb, h⟩
  | cons c l ih =>
    refine ⟨h.1.imp_right fun ⟨p, hp, he⟩ => ⟨p, ?_, he⟩, ih h.2⟩
    rcases List.mem_append.mp hp with hp | hp
    · exact List.mem_append_left _ hp
    · exact List.mem_append_right _ (List.mem_cons_of_mem _ hp)

theorem exists_later (h : Supported E root l) (hb : b ∈ l) (hr : b ≠ root) :
    ∃ l₁ l₂, l = l₁ ++ b :: l₂ ∧ ∃ p ∈ l₂, E p b := by
  induction l with
  | nil => exact absurd hb List.not_mem_nil
  | cons c l ih =>
    by_cases hbc : b = c
    · subst hbc
      exact ⟨[], l, rfl, h.1.resolve_left hr⟩
    · obtain ⟨l₁, l₂, rfl, hp⟩ := ih h.2 ((List.mem_cons.mp hb).resolve_left hbc)
      exact ⟨c :: l₁, l₂, rfl, hp⟩

end Supported

namespace Funcdata

variable {f : Funcdata} {s s' : PostState} {b c : BlockId} {fuel : ℕ}

/-- The edges from block to block. -/
def Edge (f : Funcdata) (a b : BlockId) : Prop := b ∈ (f.block a).outEdges

instance {a : BlockId} : Decidable (f.Edge a b) := inferInstanceAs (Decidable (b ∈ _))

theorem getElem?_blocks (h : b < f.numBlocks) : f.blocks[b]? = some (f.block b) := by
  rw [block, List.getD_eq_getElem _ _ h, List.getElem?_eq_getElem h]

theorem sum_blocks (f : Funcdata) (g : BlockBasic → ℕ) :
    ∑ b ∈ Finset.range f.numBlocks, g (f.block b) = (f.blocks.map g).sum := by
  unfold numBlocks block
  induction f.blocks with
  | nil => rfl
  | cons bl l ih =>
    rw [List.length_cons, Finset.sum_range_succ', List.map_cons, List.sum_cons, add_comm, ← ih]
    rfl

end Funcdata

/-- The blocks in the order in which they will have been emitted. -/
def PostState.seq (s : PostState) : List BlockId := s.order ++ s.stack.map Prod.fst

/-- What the search keeps: no block twice, children of what is emitted visited, and under each block
a predecessor of it. -/
structure PostState.Sound (f : Funcdata) (s : PostState) : Prop where
  nodup : s.seq.Nodup
  lt : ∀ b ∈ s.seq, b < f.numBlocks
  visited : ∀ b < f.numBlocks, s.visited[b]? = some (decide (b ∈ s.seq))
  supported : Supported f.Edge 0 s.seq
  emitted : ∀ b ∈ s.order, ∀ c ∈ (f.block b).outEdges, c ∈ s.seq
  partly : ∀ p ∈ s.stack, ∀ c ∈ (f.block p.1).outEdges.take p.2, c ∈ s.seq
  entry : 0 ∈ s.seq

/-- What is left to do: the children still to visit, each block itself included. -/
def PostState.work (f : Funcdata) (s : PostState) : ℕ :=
  (∑ b ∈ Finset.range f.numBlocks with b ∉ s.seq, ((f.block b).outEdges.length + 1)) +
    (s.stack.map fun p => (f.block p.1).outEdges.length - p.2 + 1).sum

namespace Funcdata

variable {f : Funcdata} {s s' : PostState} {b c : BlockId} {fuel : ℕ}

theorem postorderStep_sound (hlt : ∀ a b, f.Edge a b → b < f.numBlocks) (hs : s.Sound f)
    (hne : s.stack ≠ []) :
    ∃ s', f.postorderStep s = some s' ∧ s'.Sound f ∧ s'.work f < s.work f := by
  obtain ⟨order, visited, stack⟩ := s
  cases stack with
  | nil => exact absurd rfl hne
  | cons top rest =>
    obtain ⟨node, ci⟩ := top
    have hnode : node < f.numBlocks :=
      hs.lt node (List.mem_append_right _ List.mem_cons_self)
    unfold postorderStep
    simp only [getElem?_blocks hnode, Option.bind_some]
    cases hc : (f.block node).outEdges[ci]? with
    | none =>
      -- all children are visited: the node is emitted
      have hlen : (f.block node).outEdges.length ≤ ci := List.getElem?_eq_none_iff.mp hc
      have hseq : PostState.seq ⟨order ++ [node], visited, rest⟩ =
          PostState.seq ⟨order, visited, (node, ci) :: rest⟩ := by
        simp only [PostState.seq, List.map_cons, List.append_assoc, List.singleton_append]
      refine ⟨_, rfl, ?_, ?_⟩
      · exact
          { nodup := hseq ▸ hs.nodup
            lt := hseq ▸ hs.lt
            visited := hseq ▸ hs.visited
            supported := hseq ▸ hs.supported
            emitted := by
              rw [hseq]
              intro b hb c hbc
              rcases List.mem_append.mp hb with hb | hb
              · exact hs.emitted b hb c hbc
              · rw [List.mem_singleton.mp hb] at hbc
                refine hs.partly (node, ci) List.mem_cons_self c ?_
                rwa [List.take_of_length_le hlen]
            partly := hseq ▸ fun p hp => hs.partly p (List.mem_cons_of_mem _ hp)
            entry := hseq ▸ hs.entry }
      · unfold PostState.work
        rw [hseq, List.map_cons, List.sum_cons]
        dsimp only
        omega
    | some succ =>
      have hlen : ci < (f.block node).outEdges.length := (List.getElem?_eq_some_iff.mp hc).1
      have hmem : succ ∈ (f.block node).outEdges := List.mem_of_getElem? hc
      have hsucc : succ < f.numBlocks := hlt node succ hmem
      have htake : ∀ c ∈ (f.block node).outEdges.take (ci + 1),
          c ∈ (f.block node).outEdges.take ci ∨ c = succ := by
        intro c hcm
        rw [List.take_add_one, hc] at hcm
        rcases List.mem_append.mp hcm with h | h
        · exact .inl h
        · exact .inr (by simpa using h)
      simp only [hs.visited succ hsucc, Option.map_some, decide_eq_true_eq]
      by_cases hseen : succ ∈ PostState.seq ⟨order, visited, (node, ci) :: rest⟩
      · rw [if_pos hseen]
        have hseq : PostState.seq ⟨order, visited, (node, ci + 1) :: rest⟩ =
            PostState.seq ⟨order, visited, (node, ci) :: rest⟩ := rfl
        refine ⟨_, rfl, ?_, ?_⟩
        · exact
            { nodup := hs.nodup
              lt := hs.lt
              visited := hs.visited
              supported := hs.supported
              emitted := hs.emitted
              partly := by
                rw [hseq]
                intro p hp c hcp
                rcases List.mem_cons.mp hp with rfl | hp
                · rcases htake c hcp with h | rfl
                  · exact hs.partly (node, ci) List.mem_cons_self c h
                  · exact hseen
                · exact hs.partly p (List.mem_cons_of_mem _ hp) c hcp
              entry := hs.entry }
        · unfold PostState.work
          rw [hseq, List.map_cons, List.sum_cons, List.map_cons, List.sum_cons]
          dsimp only
          omega
      · rw [if_neg hseen]
        have hmemseq : ∀ x, x ∈ PostState.seq
            ⟨order, visited.set succ true, (succ, 0) :: (node, ci + 1) :: rest⟩ ↔
              x = succ ∨ x ∈ PostState.seq ⟨order, visited, (node, ci) :: rest⟩ := by
          intro x
          simp only [PostState.seq, List.map_cons, List.mem_append, List.mem_cons]
          tauto
        refine ⟨_, rfl, ?_, ?_⟩
        · exact
            { nodup := List.nodup_middle.mpr (List.nodup_cons.mpr ⟨hseen, hs.nodup⟩)
              lt := fun x hx => ((hmemseq x).mp hx).elim (fun h => h ▸ hsucc) (hs.lt x)
              visited := by
                intro x hx
                have hold := hs.visited x hx
                change (visited.set succ true)[x]? = _
                by_cases hxs : x = succ
                · subst hxs
                  rw [List.getElem?_set_self (List.getElem?_eq_some_iff.mp hold).1,
                    decide_eq_true ((hmemseq x).mpr (.inl rfl))]
                · rw [List.getElem?_set_ne (Ne.symm hxs), hold, Option.some.injEq, decide_eq_decide,
                    hmemseq]
                  tauto
              supported := hs.supported.insert ⟨node, List.mem_cons_self, hmem⟩
              emitted := fun b hb c hbc => (hmemseq c).mpr (.inr (hs.emitted b hb c hbc))
              partly := by
                intro p hp c hcp
                rw [hmemseq]
                rcases List.mem_cons.mp hp with rfl | hp
                · exact absurd hcp (by simp)
                · rcases List.mem_cons.mp hp with rfl | hp
                  · rcases htake c hcp with h | rfl
                    · exact .inr (hs.partly (node, ci) List.mem_cons_self c h)
                    · exact .inl rfl
                  · exact .inr (hs.partly p (List.mem_cons_of_mem _ hp) c hcp)
              entry := (hmemseq 0).mpr (.inr hs.entry) }
        · have hfilter : (Finset.range f.numBlocks).filter (· ∉ PostState.seq
              ⟨order, visited.set succ true, (succ, 0) :: (node, ci + 1) :: rest⟩) =
                ((Finset.range f.numBlocks).filter
                  (· ∉ PostState.seq ⟨order, visited, (node, ci) :: rest⟩)).erase succ := by
            ext x
            simp only [Finset.mem_filter, Finset.mem_erase, hmemseq]
            tauto
          have hin : succ ∈ (Finset.range f.numBlocks).filter
              (· ∉ PostState.seq ⟨order, visited, (node, ci) :: rest⟩) :=
            Finset.mem_filter.mpr ⟨Finset.mem_range.mpr hsucc, hseen⟩
          unfold PostState.work
          rw [hfilter, ← Finset.add_sum_erase _ _ hin]
          simp only [List.map_cons, List.sum_cons]
          omega

theorem postorderLoop_sound (hlt : ∀ a b, f.Edge a b → b < f.numBlocks) (hs : s.Sound f)
    (hw : s.work f < fuel) : ∃ s' : PostState, f.postorderLoop fuel s = some s'.order ∧
      s'.Sound f ∧ s'.stack = [] := by
  induction fuel generalizing s with
  | zero => exact absurd hw (Nat.not_lt_zero _)
  | succ fuel ih =>
    unfold postorderLoop
    by_cases hne : s.stack = []
    · exact ⟨s, if_pos hne, hs, hne⟩
    · obtain ⟨s', hstep, hs', hlt'⟩ := postorderStep_sound hlt hs hne
      obtain ⟨e, he, hse⟩ := ih hs' (by omega)
      refine ⟨e, ?_, hse⟩
      rw [if_neg hne, hstep, Option.bind_some, he]

/-- A control-flow graph: both ends of each edge list it, and every block is reached from block 0. -/
structure EntryReachable (f : Funcdata) : Prop where
  edges : ∀ a b, b ∈ (f.block a).outEdges ↔ a ∈ (f.block b).inEdges
  reached : ∀ b < f.numBlocks, Relation.ReflTransGen f.Edge 0 b

theorem EntryReachable.edge_lt (h : f.EntryReachable) {a b : BlockId} (he : f.Edge a b) :
    a < f.numBlocks ∧ b < f.numBlocks :=
  ⟨lt_of_mem_outEdges he, lt_of_mem_inEdges ((h.edges a b).mp he)⟩

/-- The postorder lists every block once, and each but the entry before a predecessor. -/
theorem postorder_sound (h : f.EntryReachable) (h0 : f.numBlocks ≠ 0) :
    ∃ po, f.postorder = some po ∧ po.Nodup ∧ (∀ b, b ∈ po ↔ b < f.numBlocks) ∧
      Supported f.Edge 0 po := by
  have hpos : 0 < f.numBlocks := Nat.pos_of_ne_zero h0
  let s : PostState :=
    { order := [], visited := (List.replicate f.numBlocks false).set 0 true, stack := [(0, 0)] }
  have hs : s.Sound f :=
    { nodup := List.nodup_singleton 0
      lt := fun b hb => List.mem_singleton.mp hb ▸ hpos
      visited := by
        intro b hb
        change ((List.replicate f.numBlocks false).set 0 true)[b]? = some (decide (b ∈ [0]))
        rw [List.getElem?_set]
        by_cases hb0 : 0 = b
        · subst hb0
          simp [hpos]
        · simp [hb0, Ne.symm hb0, hb]
      supported := ⟨.inl rfl, trivial⟩
      emitted := fun b hb => absurd hb List.not_mem_nil
      partly := by
        intro p hp c hc
        rw [List.mem_singleton.mp hp] at hc
        exact absurd hc (by simp)
      entry := List.mem_singleton_self 0 }
  have hwork : s.work f < f.postorderFuel := by
    have hfilter : (Finset.range f.numBlocks).filter (· ∉ s.seq) =
        (Finset.range f.numBlocks).erase 0 := by
      ext x
      simp only [Finset.mem_filter, Finset.mem_erase, show s.seq = [0] from rfl, List.mem_singleton]
      tauto
    have hsum : (f.block 0).outEdges.length + 1 +
        ∑ b ∈ (Finset.range f.numBlocks).erase 0, ((f.block b).outEdges.length + 1) =
          (f.blocks.map fun b => b.outEdges.length + 1).sum := by
      rw [← f.sum_blocks]
      exact Finset.add_sum_erase _ (fun b => (f.block b).outEdges.length + 1)
        (Finset.mem_range.mpr hpos)
    unfold PostState.work postorderFuel
    rw [hfilter, ← hsum, add_comm]
    exact Nat.lt_succ_self _
  obtain ⟨e, he, hse, hstack⟩ := postorderLoop_sound (fun a b hab => (h.edge_lt hab).2) hs hwork
  have hseq : e.seq = e.order := by rw [PostState.seq, hstack, List.map_nil, List.append_nil]
  refine ⟨e.order, he, hseq ▸ hse.nodup, fun b => ⟨fun hb => hse.lt b (hseq ▸ hb), fun hb => ?_⟩,
    hseq ▸ hse.supported⟩
  -- what is reached is emitted: the entry is, and with a block all its children
  induction h.reached b hb with
  | refl => exact hseq ▸ hse.entry
  | @tail b c _ hbc ih => exact hseq ▸ hse.emitted b (ih (h.edge_lt hbc).1) c hbc

end Funcdata
end Mosura
