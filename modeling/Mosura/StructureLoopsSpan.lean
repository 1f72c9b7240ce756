import Mosura.StructureLoops
import Mosura.Lib.SpanningTree

/-! `findSpanningTree` numbers a depth-first spanning tree, where all blocks are reached from the
first root, and labels the edges by it. -/

namespace Mosura

open Paths StackSearch

namespace LeafGraph

variable (g : LeafGraph) {a b k t : ℕ}

/-- `a` has an out-edge to `b`. -/
def Edge (a b : ℕ) : Prop := b ∈ g.outs a

/-- `a` has an out-edge to `b` whose labels have a property. -/
def Labelled (labels : ℕ → ℕ → EdgeLabels) (P : EdgeLabels → Prop) (a b : ℕ) : Prop :=
  ∃ k, (g.outs a)[k]? = some b ∧ P (labels a k)

variable {g}

theorem Labelled.edge {labels : ℕ → ℕ → EdgeLabels} {P : EdgeLabels → Prop}
    (h : g.Labelled labels P a b) : g.Edge a b := by
  obtain ⟨k, hk, -⟩ := h
  exact List.mem_of_getElem? hk

theorem outs_of_le (h : g.n ≤ a) : g.outs a = [] := by
  unfold outs
  exact List.getD_eq_default _ _ h

theorem Edge.lt (h : g.Edge a b) : a < g.n ∧ b < g.n := by
  have ha : a < g.n := by
    by_contra hge
    rw [Edge, outs_of_le (not_lt.mp hge)] at h
    exact absurd h List.not_mem_nil
  refine ⟨ha, g.lt (g.outs a) ?_ b h⟩
  unfold outs
  rw [List.getD_eq_getElem _ _ ha]
  exact List.getElem_mem ha

theorem mem_inAdj : (a, k) ∈ g.inAdj t ↔ (g.outs a)[k]? = some t := by
  simp only [inAdj, List.mem_flatMap, List.mem_range, List.mem_filterMap]
  constructor
  · rintro ⟨src, -, ⟨u, i⟩, hmem, he⟩
    split_ifs at he with hu
    obtain ⟨rfl, rfl⟩ := Prod.mk.inj (Option.some.inj he)
    rw [← hu]
    exact List.mem_zipIdx_iff_getElem?.mp hmem
  · intro hk
    have hlt := (Edge.lt (g := g) (List.mem_of_getElem? hk)).1
    exact ⟨a, hlt, (t, k), List.mem_zipIdx_iff_getElem?.mpr hk, if_pos rfl⟩

end LeafGraph

/-- The blocks on the path of the search, the deepest first. -/
def Spanning.gray (s : Spanning) : List ℕ := s.stack.map Prod.fst

/-- On the path each block is followed by the next one's number: all it has counted so far. -/
def Counted (visit size : ℕ → ℤ) : ℤ → List ℕ → Prop
  | _, [] => True
  | m, b :: l => visit b + size b = m ∧ Counted visit size (visit b) l

theorem Counted.congr {visit visit' size size' : ℕ → ℤ} {m : ℤ} {l : List ℕ}
    (h : Counted visit size m l) (hl : ∀ b ∈ l, visit' b = visit b ∧ size' b = size b) :
    Counted visit' size' m l := by
  induction l generalizing m with
  | nil => trivial
  | cons b l ih =>
    obtain ⟨hv, hs⟩ := hl b List.mem_cons_self
    refine ⟨by rw [hv, hs]; exact h.1, ?_⟩
    rw [hv]
    exact ih h.2 fun c hc => hl c (List.mem_cons_of_mem _ hc)

/-- What the numbers of a search from `root` say while it runs. -/
structure Spanning.Numbered (s : Spanning) (n root : ℕ) : Prop where
  visit_iff : ∀ b (i : ℕ), s.visitcount b = i ↔ s.preorder[i]? = some b
  visit_ge : ∀ b, -1 ≤ s.visitcount b
  lt : ∀ b ∈ s.preorder, b < n
  root_first : s.preorder[0]? = some root
  gray_iff : ∀ b, b ∈ s.gray ↔ s.visitcount b ≠ -1 ∧ s.index b = -1
  sorted : s.gray.Pairwise fun a b => s.visitcount b < s.visitcount a
  counted : Counted s.visitcount s.numdesc s.preorder.length s.gray
  index_le : ∀ b, s.index b ≠ -1 → s.visitcount b ≠ -1 ∧ s.rpostcount ≤ s.index b ∧ s.index b < n
  rpostorder : ∀ b, s.index b ≠ -1 → s.rpostorder (s.index b) = b
  count : s.rpostcount + s.preorder.length = n + s.gray.length
  size_pos : ∀ b, s.visitcount b ≠ -1 → 0 < s.numdesc b
  closed : ∀ b, s.index b ≠ -1 → s.visitcount b + s.numdesc b ≤ s.preorder.length
  nested : ∀ a b, s.index a ≠ -1 → InSubtree s.visitcount s.numdesc a b →
    s.index b ≠ -1 ∧ s.visitcount b + s.numdesc b ≤ s.visitcount a + s.numdesc a
  before : ∀ a b, s.index a ≠ -1 → b ∈ s.gray → s.visitcount a < s.visitcount b →
    s.visitcount a + s.numdesc a ≤ s.visitcount b

namespace Spanning.Numbered

variable {s : Spanning} {n root a b c : ℕ} {rest : List (ℕ × ℕ)} {i : ℕ}

theorem relabel (h : s.Numbered n root) {stack : List (ℕ × ℕ)}
    (hs : stack.map Prod.fst = s.gray) (labels : ℕ → ℕ → EdgeLabels) :
    { s with labels := labels, stack := stack }.Numbered n root where
  visit_iff := h.visit_iff
  visit_ge := h.visit_ge
  lt := h.lt
  root_first := h.root_first
  gray_iff := by
    unfold gray
    rw [hs]
    exact h.gray_iff
  sorted := by
    unfold gray
    rw [hs]
    exact h.sorted
  counted := by
    unfold gray
    rw [hs]
    exact h.counted
  index_le := h.index_le
  rpostorder := h.rpostorder
  count := by
    unfold gray
    rw [hs]
    exact h.count
  size_pos := h.size_pos
  closed := h.closed
  nested := h.nested
  before := by
    unfold gray
    rw [hs]
    exact h.before

theorem visit_lt (h : s.Numbered n root) (b : ℕ) : s.visitcount b < s.preorder.length := by
  rcases lt_or_ge (s.visitcount b) 0 with hneg | hpos
  · omega
  · obtain ⟨i, hi⟩ := Int.eq_ofNat_of_zero_le hpos
    have hget := (h.visit_iff b i).mp hi
    have hlt := (List.getElem?_eq_some_iff.mp hget).1
    omega

theorem mem_preorder (h : s.Numbered n root) (hb : s.visitcount b ≠ -1) : b ∈ s.preorder := by
  have hge := h.visit_ge b
  obtain ⟨i, hi⟩ := Int.eq_ofNat_of_zero_le (show 0 ≤ s.visitcount b by omega)
  exact List.mem_of_getElem? ((h.visit_iff b i).mp hi)

theorem inj (h : s.Numbered n root) (ha : s.visitcount a ≠ -1)
    (he : s.visitcount a = s.visitcount b) : a = b := by
  have hge := h.visit_ge a
  obtain ⟨i, hi⟩ := Int.eq_ofNat_of_zero_le (show 0 ≤ s.visitcount a by omega)
  have hget := (h.visit_iff a i).mp hi
  rw [(h.visit_iff b i).mp (he.symm.trans hi)] at hget
  exact (Option.some.inj hget).symm

theorem nodup (h : s.Numbered n root) : s.preorder.Nodup := by
  apply List.nodup_iff_injective_get.mpr
  intro i j hij
  have hi := (h.visit_iff _ i.val).mpr (List.getElem?_eq_getElem i.isLt)
  have hj := (h.visit_iff _ j.val).mpr (List.getElem?_eq_getElem j.isLt)
  rw [← List.get_eq_getElem, hij, List.get_eq_getElem, hj] at hi
  exact Fin.ext (by omega)

theorem length_le (h : s.Numbered n root) : s.preorder.length ≤ n := by
  have hsub : s.preorder ⊆ List.range n := fun b hb => List.mem_range.mpr (h.lt b hb)
  have hle := (h.nodup.subperm hsub).length_le
  rwa [List.length_range] at hle

/-- No block of the path is numbered above the one on top. -/
theorem le_top (h : s.Numbered n root) (hs : s.stack = (a, i) :: rest) (hb : b ∈ s.gray) :
    s.visitcount b ≤ s.visitcount a := by
  have hsorted := h.sorted
  unfold gray at hb hsorted
  rw [hs, List.map_cons] at hb hsorted
  rcases List.mem_cons.mp hb with rfl | hb
  · exact le_rfl
  · exact ((List.pairwise_cons.mp hsorted).1 b hb).le

theorem top_counted (h : s.Numbered n root) (hs : s.stack = (a, i) :: rest) :
    s.visitcount a + s.numdesc a = s.preorder.length := by
  have hc := h.counted
  unfold gray at hc
  rw [hs] at hc
  exact hc.1

theorem gray_nodup (h : s.Numbered n root) : s.gray.Nodup :=
  h.sorted.imp fun hlt he => absurd hlt (by rw [he]; exact lt_irrefl _)

theorem rpostcount_bounds (h : s.Numbered n root) :
    s.gray.length ≤ s.rpostcount ∧ s.rpostcount ≤ n := by
  have hsub : s.gray ⊆ s.preorder := fun b hb => h.mem_preorder ((h.gray_iff b).mp hb).1
  have hle := (h.gray_nodup.subperm hsub).length_le
  have hlen := h.length_le
  have hcount := h.count
  omega

/-- A block that is not seen yet is entered. -/
theorem enter (h : s.Numbered n root) (hc : s.visitcount c = -1) (hlt : c < n) :
    (s.enter c).Numbered n root := by
  have hindex : s.index c = -1 := by
    by_contra hne
    exact (h.index_le c hne).1 hc
  have hgray : c ∉ s.gray := fun hmem => ((h.gray_iff c).mp hmem).1 hc
  have hvisit : ∀ b, b ≠ c → (s.enter c).visitcount b = s.visitcount b := fun b hb =>
    Function.update_of_ne hb ..
  have hvisitc : (s.enter c).visitcount c = s.preorder.length := Function.update_self ..
  have hsize : ∀ b, b ≠ c → (s.enter c).numdesc b = s.numdesc b := fun b hb =>
    Function.update_of_ne hb ..
  have hsizec : (s.enter c).numdesc c = 1 := Function.update_self ..
  have hlen : (s.enter c).preorder.length = s.preorder.length + 1 := List.length_append
  have hne : ∀ b, s.index b ≠ -1 → b ≠ c := by
    rintro b hb rfl
    exact hb hindex
  have hnegray : ∀ b ∈ s.gray, b ≠ c := by
    rintro b hb rfl
    exact hgray hb
  constructor
  · intro b i
    have hget : (s.enter c).preorder[i]? = some b ↔
        s.preorder[i]? = some b ∨ i = s.preorder.length ∧ b = c := by
      change (s.preorder ++ [c])[i]? = some b ↔ _
      rcases lt_trichotomy i s.preorder.length with hi | hi | hi
      · rw [List.getElem?_append_left hi]
        exact ⟨.inl, fun h => h.resolve_right fun he => absurd he.1 hi.ne⟩
      · subst hi
        simp [eq_comm]
      · rw [List.getElem?_eq_none (by simp; omega)]
        rw [List.getElem?_eq_none hi.le]
        simp
        omega
    rw [hget]
    by_cases hb : b = c
    · subst hb
      have hnone : s.preorder[i]? ≠ some b := by
        intro hmem
        have hv := (h.visit_iff b i).mpr hmem
        omega
      rw [hvisitc]
      constructor
      · intro he
        exact .inr ⟨by omega, rfl⟩
      · rintro (hmem | ⟨rfl, -⟩)
        · exact absurd hmem hnone
        · rfl
    · rw [hvisit b hb, h.visit_iff]
      exact ⟨.inl, fun h => h.resolve_right fun he => hb he.2⟩
  · intro b
    by_cases hb : b = c
    · subst hb
      rw [hvisitc]
      omega
    · rw [hvisit b hb]
      exact h.visit_ge b
  · intro b hb
    rcases List.mem_append.mp hb with hb | hb
    · exact h.lt b hb
    · rw [List.mem_singleton.mp hb]
      exact hlt
  · change (s.preorder ++ [c])[0]? = some root
    have hpos : 0 < s.preorder.length := (List.getElem?_eq_some_iff.mp h.root_first).1
    rw [List.getElem?_append_left hpos]
    exact h.root_first
  · intro b
    change b ∈ c :: s.gray ↔ (s.enter c).visitcount b ≠ -1 ∧ s.index b = -1
    by_cases hb : b = c
    · subst hb
      rw [hvisitc]
      exact iff_of_true List.mem_cons_self ⟨by omega, hindex⟩
    · rw [hvisit b hb, ← h.gray_iff, List.mem_cons]
      exact ⟨fun hmem => hmem.resolve_left hb, .inr⟩
  · change (c :: s.gray).Pairwise _
    rw [List.pairwise_cons]
    constructor
    · intro b hb
      rw [hvisitc, hvisit b (hnegray b hb)]
      exact h.visit_lt b
    · apply h.sorted.imp_of_mem
      intro a b ha hb hab
      rw [hvisit a (hnegray a ha), hvisit b (hnegray b hb)]
      exact hab
  · change Counted _ _ _ (c :: s.gray)
    refine ⟨by rw [hvisitc, hsizec, hlen]; push_cast; rfl, ?_⟩
    rw [hvisitc]
    exact h.counted.congr fun b hb => ⟨hvisit b (hnegray b hb), hsize b (hnegray b hb)⟩
  · intro b hb
    rw [hvisit b (hne b hb)]
    exact h.index_le b hb
  · exact h.rpostorder
  · have hcount := h.count
    change s.rpostcount + _ = (n : ℤ) + (c :: s.gray).length
    rw [hlen, List.length_cons]
    push_cast
    omega
  · intro b hb
    by_cases hbc : b = c
    · rw [hbc, hsizec]
      exact one_pos
    · rw [hsize b hbc]
      exact h.size_pos b (hvisit b hbc ▸ hb)
  · intro b hb
    have hle := h.closed b hb
    rw [hvisit b (hne b hb), hsize b (hne b hb), hlen]
    omega
  · intro a b ha hab
    unfold InSubtree at hab
    rw [hvisit a (hne a ha), hsize a (hne a ha)] at hab ⊢
    have hle := h.closed a ha
    by_cases hb : b = c
    · subst hb
      rw [hvisitc] at hab
      omega
    · rw [hvisit b hb] at hab ⊢
      rw [hsize b hb]
      exact h.nested a b ha hab
  · intro a b ha hb hab
    rw [hvisit a (hne a ha), hsize a (hne a ha)] at *
    rcases List.mem_cons.mp hb with rfl | hb
    · rw [hvisitc]
      exact h.closed a ha
    · rw [hvisit b (hnegray b hb)] at hab ⊢
      exact h.before a b ha hb hab

/-- What is left of the path below the block on top. -/
theorem gray_eq (hs : s.stack = (a, i) :: rest) : s.gray = a :: rest.map Prod.fst := by
  unfold gray
  rw [hs]
  rfl

theorem top_notMem (h : s.Numbered n root) (hs : s.stack = (a, i) :: rest) :
    a ∉ rest.map Prod.fst := by
  have hnodup := h.gray_nodup
  rw [gray_eq hs] at hnodup
  exact (List.nodup_cons.mp hnodup).1

theorem leave_index (hb : b ≠ a) : (s.leave a rest).index b = s.index b :=
  Function.update_of_ne hb ..

theorem leave_index_self : (s.leave a rest).index a = s.rpostcount - 1 :=
  Function.update_self ..

/-- Only the block below counts the descendants of the one that is left. -/
theorem leave_numdesc (hb : b ∉ rest.map Prod.fst) :
    (s.leave a rest).numdesc b = s.numdesc b := by
  cases rest with
  | nil => rfl
  | cons p rest =>
    apply Function.update_of_ne
    rintro rfl
    exact hb List.mem_cons_self

/-- Blocks that were left before keep their numbers. -/
theorem leave_black (h : s.Numbered n root) (hs : s.stack = (a, i) :: rest)
    (hb : s.index b ≠ -1) : b ≠ a ∧ (s.leave a rest).numdesc b = s.numdesc b := by
  have hgray : b ∉ s.gray := fun hmem => hb ((h.gray_iff b).mp hmem).2
  rw [gray_eq hs] at hgray
  exact ⟨List.ne_of_not_mem_cons hgray, leave_numdesc (List.not_mem_of_not_mem_cons hgray)⟩

/-- The block on top is left when all its edges are labelled. -/
theorem leave (h : s.Numbered n root) (hs : s.stack = (a, i) :: rest) :
    (s.leave a rest).Numbered n root := by
  have hgray := gray_eq hs
  have hmem : a ∈ s.gray := by
    rw [hgray]
    exact List.mem_cons_self
  obtain ⟨hvisita, hindexa⟩ := (h.gray_iff a).mp hmem
  have hnot := h.top_notMem hs
  have hbounds := h.rpostcount_bounds
  rw [hgray, List.length_cons] at hbounds
  have hindex : ∀ b, b ≠ a → (s.leave a rest).index b = s.index b := fun b hb => leave_index hb
  have hindexa' : (s.leave a rest).index a = s.rpostcount - 1 := leave_index_self
  have htop := h.top_counted hs
  have hsize_le : ∀ b, s.numdesc b ≤ (s.leave a rest).numdesc b := by
    intro b
    cases rest with
    | nil => exact le_rfl
    | cons p rest =>
      by_cases hb : b = p.1
      · subst hb
        have hself : (s.leave a (p :: rest)).numdesc p.1 = s.numdesc p.1 + s.numdesc a :=
          Function.update_self ..
        have hpos := h.size_pos a hvisita
        rw [hself]
        omega
      · have hother : (s.leave a (p :: rest)).numdesc b = s.numdesc b := Function.update_of_ne hb ..
        exact hother.ge
  have hblack : ∀ b, s.index b ≠ -1 → b ≠ a ∧ (s.leave a rest).numdesc b = s.numdesc b :=
    fun b hb => h.leave_black hs hb
  have hcases : ∀ b, (s.leave a rest).index b ≠ -1 → b = a ∨ s.index b ≠ -1 := by
    intro b hb
    by_cases hba : b = a
    · exact .inl hba
    · exact .inr (hindex b hba ▸ hb)
  constructor
  · exact h.visit_iff
  · exact h.visit_ge
  · exact h.lt
  · exact h.root_first
  · intro b
    change b ∈ rest.map Prod.fst ↔ s.visitcount b ≠ -1 ∧ _
    by_cases hb : b = a
    · subst hb
      rw [hindexa']
      exact iff_of_false hnot (by omega)
    · rw [hindex b hb, ← h.gray_iff, hgray, List.mem_cons]
      exact ⟨.inr, fun hm => hm.resolve_left hb⟩
  · have hsorted := h.sorted
    rw [hgray] at hsorted
    exact (List.pairwise_cons.mp hsorted).2
  · have hcounted := h.counted
    rw [hgray] at hcounted
    cases rest with
    | nil => trivial
    | cons p rest =>
      have hself : (s.leave a (p :: rest)).numdesc p.1 = s.numdesc p.1 + s.numdesc a :=
        Function.update_self ..
      obtain ⟨-, hp, hrest⟩ := hcounted
      refine ⟨?_, ?_⟩
      · change s.visitcount p.1 + (s.leave a (p :: rest)).numdesc p.1 = s.preorder.length
        rw [hself]
        omega
      · apply hrest.congr
        intro b hb
        refine ⟨rfl, Function.update_of_ne ?_ ..⟩
        rintro rfl
        have hnodup := h.gray_nodup
        rw [hgray] at hnodup
        exact (List.nodup_cons.mp (List.nodup_cons.mp hnodup).2).1 hb
  · intro b hb
    change s.visitcount b ≠ -1 ∧ s.rpostcount - 1 ≤ _ ∧ _
    rcases hcases b hb with rfl | hb
    · rw [hindexa']
      exact ⟨hvisita, le_rfl, by omega⟩
    · obtain ⟨hv, hlow, hhigh⟩ := h.index_le b hb
      rw [hindex b (hblack b hb).1]
      exact ⟨hv, by omega, hhigh⟩
  · intro b hb
    rcases hcases b hb with rfl | hb
    · rw [hindexa']
      exact Function.update_self ..
    · have hlow := (h.index_le b hb).2.1
      rw [hindex b (hblack b hb).1]
      change Function.update s.rpostorder (s.rpostcount - 1) a (s.index b) = b
      rw [Function.update_of_ne (by omega)]
      exact h.rpostorder b hb
  · have hcount := h.count
    rw [hgray, List.length_cons] at hcount
    change s.rpostcount - 1 + _ = (n : ℤ) + (rest.map Prod.fst).length
    change s.rpostcount - 1 + (s.preorder.length : ℤ) = _
    push_cast at hcount
    omega
  · intro b hb
    exact (h.size_pos b hb).trans_le (hsize_le b)
  · intro b hb
    change s.visitcount b + _ ≤ s.preorder.length
    rcases hcases b hb with rfl | hb
    · rw [leave_numdesc hnot, htop]
    · rw [(hblack b hb).2]
      exact h.closed b hb
  · intro x y hx hxy
    change s.visitcount x ≤ s.visitcount y ∧ s.visitcount y < s.visitcount x + _ at hxy
    change _ ∧ s.visitcount y + _ ≤ s.visitcount x + _
    rcases hcases x hx with rfl | hx
    · rw [leave_numdesc hnot] at hxy ⊢
      by_cases hy : y = x
      · subst hy
        exact ⟨hx, by rw [leave_numdesc hnot]⟩
      · have hge := h.visit_ge x
        have hyblack : s.index y ≠ -1 := by
          intro hgrayy
          have hyg := (h.gray_iff y).mpr ⟨by omega, hgrayy⟩
          have hle := h.le_top hs hyg
          exact hy (h.inj hvisita (by omega)).symm
        rw [hindex y hy, (hblack y hyblack).2]
        have hclosed := h.closed y hyblack
        exact ⟨hyblack, by omega⟩
    · rw [(hblack x hx).2] at hxy ⊢
      obtain ⟨hy, hle⟩ := h.nested x y hx hxy
      rw [hindex y (hblack y hy).1, (hblack y hy).2]
      exact ⟨hy, hle⟩
  · intro x b hx hb hxb
    change s.visitcount x < s.visitcount b at hxb
    change s.visitcount x + _ ≤ s.visitcount b
    have hb' : b ∈ s.gray := by
      rw [hgray]
      exact List.mem_cons_of_mem a hb
    rcases hcases x hx with rfl | hx
    · exact absurd hxb (not_lt.mpr (h.le_top hs hb'))
    · rw [(hblack x hx).2]
      exact h.before x b hx hb' hxb

end Spanning.Numbered

/-- What the labels of an edge say that the search has looked at. -/
structure EdgeDone (visit index size : ℕ → ℤ) (a b : ℕ) (l : EdgeLabels) : Prop where
  visited : visit b ≠ -1
  plain : l.irreducible = false
  loop : l.loopEdge = l.backEdge
  back : l.backEdge = true → visit b ≤ visit a ∧ (index b ≠ -1 → visit a < visit b + size b)
  order : l.backEdge = false → index b ≠ -1 ∧ (index a ≠ -1 → index a < index b) ∨
    index b = -1 ∧ index a = -1 ∧ visit a < visit b
  tree : l.treeEdge = true → visit a < visit b ∧ (index a ≠ -1 → visit b < visit a + size a) ∧
    ∀ c, visit a < visit c → visit c < visit b → index c ≠ -1 ∧ visit c + size c ≤ visit b

namespace LeafGraph

variable (g : LeafGraph)

/-- The search has not looked at this out-edge yet. -/
def Pending (s : Spanning) (a k : ℕ) : Prop := s.visitcount a = -1 ∨ ∃ i ≤ k, (a, i) ∈ s.stack

/-- What holds while the tree of `root` is searched. -/
structure Searching (root : ℕ) (s : Spanning) : Prop where
  numbered : s.Numbered g.n root
  copymap : s.copymap = id
  extraroots : s.extraroots = false
  pos : ∀ p ∈ s.stack, p.2 ≤ (g.outs p.1).length
  pending : ∀ a k, Pending s a k → s.labels a k = {}
  done : ∀ a k b, (g.outs a)[k]? = some b → ¬Pending s a k →
    EdgeDone s.visitcount s.index s.numdesc a b (s.labels a k)
  parent : ∀ b, s.visitcount b ≠ -1 → b ≠ root →
    ∃ p, g.Labelled s.labels (fun l => l.treeEdge = true) p b

/-- How much of the search is left. -/
def spanWork (s : Spanning) : ℕ :=
  work (fun b => (g.outs b).length) ((Finset.range g.n).filter fun b => s.visitcount b = -1) s.stack

variable {g} {s s' : Spanning} {root a b c cur ist i k : ℕ} {rest : List (ℕ × ℕ)} {l : EdgeLabels}

theorem setOutEdge_self {labels : ℕ → ℕ → EdgeLabels} (set : EdgeLabels → EdgeLabels) :
    setOutEdge labels a k set a k = set (labels a k) :=
  if_pos ⟨rfl, rfl⟩

theorem setOutEdge_of_ne {labels : ℕ → ℕ → EdgeLabels} (set : EdgeLabels → EdgeLabels)
    (h : ¬(b = a ∧ i = k)) : setOutEdge labels a k set b i = labels b i :=
  if_neg h

theorem pending_top (hs : s.stack = (cur, ist) :: rest) : Pending s cur ist := by
  refine .inr ⟨ist, le_rfl, ?_⟩
  rw [hs]
  exact List.mem_cons_self

section Top

variable (h : g.Searching root s) (hs : s.stack = (cur, ist) :: rest)
include h hs

theorem Searching.top : s.visitcount cur ≠ -1 ∧ s.index cur = -1 := by
  apply (h.numbered.gray_iff cur).mp
  unfold Spanning.gray
  rw [hs]
  exact List.mem_cons_self

theorem Searching.top_notMem : (cur, i) ∉ rest := by
  intro hmem
  exact h.numbered.top_notMem hs (List.mem_map.mpr ⟨(cur, i), hmem, rfl⟩)

/-- Looking at the next edge of the block on top leaves the other edges as they are. -/
theorem Searching.pending_next :
    (s.visitcount a = -1 ∨ ∃ i ≤ k, (a, i) ∈ (cur, ist + 1) :: rest) ↔
      Pending s a k ∧ ¬(a = cur ∧ k = ist) := by
  unfold Pending
  rw [hs]
  have htop := (h.top hs).1
  constructor
  · rintro (hv | ⟨i, hi, hmem⟩)
    · refine ⟨.inl hv, ?_⟩
      rintro ⟨rfl, -⟩
      exact htop hv
    · rcases List.mem_cons.mp hmem with he | hrest
      · obtain ⟨rfl, rfl⟩ := Prod.mk.inj he
        exact ⟨.inr ⟨ist, by omega, List.mem_cons_self⟩, by omega⟩
      · refine ⟨.inr ⟨i, hi, List.mem_cons_of_mem _ hrest⟩, ?_⟩
        rintro ⟨rfl, -⟩
        exact h.top_notMem hs hrest
  · rintro ⟨hv | ⟨i, hi, hmem⟩, hne⟩
    · exact .inl hv
    · rcases List.mem_cons.mp hmem with he | hmem
      · obtain ⟨rfl, rfl⟩ := Prod.mk.inj he
        exact .inr ⟨i + 1, by omega, List.mem_cons_self⟩
      · exact .inr ⟨i, hi, List.mem_cons_of_mem _ hmem⟩

/-- The next edge is labelled and leads to no new block. -/
theorem Searching.relabel (hout : (g.outs cur)[ist]? = some c) {set : EdgeLabels → EdgeLabels}
    (hd : EdgeDone s.visitcount s.index s.numdesc cur c (set {})) :
    g.Searching root { s with
      labels := setOutEdge s.labels cur ist set, stack := (cur, ist + 1) :: rest } := by
  have hlabel : s.labels cur ist = {} := h.pending cur ist (pending_top hs)
  constructor
  · apply h.numbered.relabel
    unfold Spanning.gray
    rw [hs]
    rfl
  · exact h.copymap
  · exact h.extraroots
  · intro p hp
    rcases List.mem_cons.mp hp with rfl | hp
    · exact (List.getElem?_eq_some_iff.mp hout).1
    · refine h.pos p ?_
      rw [hs]
      exact List.mem_cons_of_mem _ hp
  · intro a k hpending
    obtain ⟨hpending, hne⟩ := (h.pending_next hs).mp hpending
    exact (setOutEdge_of_ne set hne).trans (h.pending a k hpending)
  · intro a k b hget hdone
    change EdgeDone s.visitcount s.index s.numdesc a b (setOutEdge s.labels cur ist set a k)
    by_cases he : a = cur ∧ k = ist
    · obtain ⟨rfl, rfl⟩ := he
      cases hout.symm.trans hget
      rw [setOutEdge_self, hlabel]
      exact hd
    · rw [setOutEdge_of_ne set he]
      exact h.done a k b hget fun hp => hdone ((h.pending_next hs).mpr ⟨hp, he⟩)
  · intro b hb hroot
    obtain ⟨p, k, hk, htree⟩ := h.parent b hb hroot
    refine ⟨p, k, hk, ?_⟩
    change (setOutEdge s.labels cur ist set p k).treeEdge = true
    rw [setOutEdge_of_ne]
    · exact htree
    · rintro ⟨rfl, rfl⟩
      rw [hlabel] at htree
      cases htree

/-- The next edge leads to a new block, which is entered. -/
theorem Searching.enterNext (hout : (g.outs cur)[ist]? = some c) (hc : s.visitcount c = -1)
    {set : EdgeLabels → EdgeLabels} (hset : set {} = { treeEdge := true }) :
    g.Searching root ({ s with
      labels := setOutEdge s.labels cur ist set, stack := (cur, ist + 1) :: rest }.enter c) := by
  have hlabel : s.labels cur ist = {} := h.pending cur ist (pending_top hs)
  obtain ⟨hvcur, hicur⟩ := h.top hs
  have hcn : c < g.n := (Edge.lt (List.mem_of_getElem? hout)).2
  have hcur : cur ≠ c := by
    rintro rfl
    exact hvcur hc
  have hindexc : s.index c = -1 := by
    by_contra hne
    exact (h.numbered.index_le c hne).1 hc
  have hlen : ∀ b, s.visitcount b < s.preorder.length := h.numbered.visit_lt
  have hvisit : ∀ b, b ≠ c →
      Function.update s.visitcount c (s.preorder.length : ℤ) b = s.visitcount b :=
    fun b hb => Function.update_of_ne hb ..
  have hvisitc : Function.update s.visitcount c (s.preorder.length : ℤ) c = s.preorder.length :=
    Function.update_self ..
  have hsize : ∀ b, b ≠ c → Function.update s.numdesc c 1 b = s.numdesc b :=
    fun b hb => Function.update_of_ne hb ..
  have hpending : ∀ a k, (Function.update s.visitcount c (s.preorder.length : ℤ) a = -1 ∨
      ∃ i ≤ k, (a, i) ∈ (c, 0) :: (cur, ist + 1) :: rest) ↔
        Pending s a k ∧ ¬(a = cur ∧ k = ist) := by
    intro a k
    rw [← h.pending_next hs]
    by_cases ha : a = c
    · subst ha
      exact iff_of_true (.inr ⟨0, Nat.zero_le k, List.mem_cons_self⟩) (.inl hc)
    · rw [hvisit a ha]
      apply or_congr_right
      constructor
      · rintro ⟨i, hi, hmem⟩
        refine ⟨i, hi, (List.mem_cons.mp hmem).resolve_left ?_⟩
        intro he
        exact ha (Prod.mk.inj he).1
      · rintro ⟨i, hi, hmem⟩
        exact ⟨i, hi, List.mem_cons_of_mem _ hmem⟩
  constructor
  · have hgray : ((cur, ist + 1) :: rest).map Prod.fst = s.gray := by
      unfold Spanning.gray
      rw [hs]
      rfl
    exact (h.numbered.relabel hgray (setOutEdge s.labels cur ist set)).enter hc hcn
  · exact h.copymap
  · exact h.extraroots
  · intro p hp
    rcases List.mem_cons.mp hp with rfl | hp
    · exact Nat.zero_le _
    rcases List.mem_cons.mp hp with rfl | hp
    · exact (List.getElem?_eq_some_iff.mp hout).1
    · refine h.pos p ?_
      rw [hs]
      exact List.mem_cons_of_mem _ hp
  · intro a k hp
    obtain ⟨hp, hne⟩ := (hpending a k).mp hp
    exact (setOutEdge_of_ne set hne).trans (h.pending a k hp)
  · intro a k b hget hdone
    change EdgeDone (Function.update s.visitcount c (s.preorder.length : ℤ)) s.index
      (Function.update s.numdesc c 1) a b (setOutEdge s.labels cur ist set a k)
    by_cases he : a = cur ∧ k = ist
    · obtain ⟨rfl, rfl⟩ := he
      cases hout.symm.trans hget
      rw [setOutEdge_self, hlabel, hset]
      have hlt := hlen a
      constructor
      · rw [hvisitc]
        omega
      · rfl
      · rfl
      · exact fun hback => Bool.noConfusion hback
      · intro _
        rw [hvisitc, hvisit a hcur]
        exact .inr ⟨hindexc, hicur, hlt⟩
      · intro _
        rw [hvisitc, hvisit a hcur]
        refine ⟨hlt, fun hne => absurd hicur hne, fun d hd hdc => ?_⟩
        -- what was entered since the block on top is left
        have hdne : d ≠ c := by
          rintro rfl
          rw [hvisitc] at hdc
          exact lt_irrefl _ hdc
        rw [hvisit d hdne] at hd ⊢
        rw [hsize d hdne]
        have hge := h.numbered.visit_ge a
        have hindexd : s.index d ≠ -1 := by
          intro hgray
          have hmem := (h.numbered.gray_iff d).mpr ⟨by omega, hgray⟩
          exact absurd hd (not_lt.mpr (h.numbered.le_top hs hmem))
        exact ⟨hindexd, h.numbered.closed d hindexd⟩
    · rw [setOutEdge_of_ne set he]
      have hp : ¬Pending s a k := fun hp => hdone ((hpending a k).mpr ⟨hp, he⟩)
      have hd := h.done a k b hget hp
      have hva : s.visitcount a ≠ -1 := fun hv => hp (.inl hv)
      have ha : a ≠ c := by
        rintro rfl
        exact hva hc
      have hb : b ≠ c := by
        rintro rfl
        exact hd.visited hc
      constructor
      · rw [hvisit b hb]
        exact hd.visited
      · exact hd.plain
      · exact hd.loop
      · rw [hvisit a ha, hvisit b hb, hsize b hb]
        exact hd.back
      · rw [hvisit a ha, hvisit b hb]
        exact hd.order
      · rw [hvisit a ha, hvisit b hb, hsize a ha]
        intro htree
        obtain ⟨hlt, hin, hnext⟩ := hd.tree htree
        refine ⟨hlt, hin, fun d hd hdb => ?_⟩
        have hltb := hlen b
        have hdne : d ≠ c := by
          rintro rfl
          rw [hvisitc] at hdb
          omega
        rw [hvisit d hdne] at hd hdb ⊢
        rw [hsize d hdne]
        exact hnext d hd hdb
  · intro b hb hroot
    by_cases hbc : b = c
    · subst hbc
      refine ⟨cur, ist, hout, ?_⟩
      change (setOutEdge s.labels cur ist set cur ist).treeEdge = true
      rw [setOutEdge_self, hlabel, hset]
    · have hvb : s.visitcount b ≠ -1 := by
        rw [← hvisit b hbc]
        exact hb
      obtain ⟨p, k, hk, htree⟩ := h.parent b hvb hroot
      refine ⟨p, k, hk, ?_⟩
      change (setOutEdge s.labels cur ist set p k).treeEdge = true
      by_cases he : p = cur ∧ k = ist
      · rw [he.1, he.2, setOutEdge_self, hlabel, hset]
      · rw [setOutEdge_of_ne set he]
        exact htree

/-- The block on top has no more edges and is left. -/
theorem Searching.leaveTop (hout : (g.outs cur)[ist]? = none) :
    g.Searching root (s.leave cur rest) := by
  have hN := h.numbered.leave hs
  obtain ⟨hvcur, hicur⟩ := h.top hs
  have hlen : ∀ b, s.visitcount b < s.preorder.length := h.numbered.visit_lt
  have htop := h.numbered.top_counted hs
  have hrange := h.numbered.index_le
  have hindex : ∀ b, b ≠ cur → (s.leave cur rest).index b = s.index b :=
    fun b hb => Spanning.Numbered.leave_index hb
  have hindexcur : (s.leave cur rest).index cur = s.rpostcount - 1 :=
    Spanning.Numbered.leave_index_self
  have hbounds := h.numbered.rpostcount_bounds
  rw [Spanning.Numbered.gray_eq hs, List.length_cons] at hbounds
  have hsizecur : (s.leave cur rest).numdesc cur = s.numdesc cur :=
    Spanning.Numbered.leave_numdesc (h.numbered.top_notMem hs)
  have hblack : ∀ b, s.index b ≠ -1 → b ≠ cur ∧ (s.leave cur rest).numdesc b = s.numdesc b :=
    fun b hb => h.numbered.leave_black hs hb
  constructor
  · exact hN
  · exact h.copymap
  · exact h.extraroots
  · intro p hp
    refine h.pos p ?_
    rw [hs]
    exact List.mem_cons_of_mem _ hp
  · rintro a k (hv | ⟨i, hi, hmem⟩)
    · exact h.pending a k (.inl hv)
    · refine h.pending a k (.inr ⟨i, hi, ?_⟩)
      rw [hs]
      exact List.mem_cons_of_mem _ hmem
  · intro a k b hget hdone
    have hp : ¬Pending s a k := by
      rintro (hv | ⟨i, hi, hmem⟩)
      · exact hdone (.inl hv)
      · rw [hs] at hmem
        rcases List.mem_cons.mp hmem with he | hmem
        · obtain ⟨rfl, rfl⟩ := Prod.mk.inj he
          have hle := List.getElem?_eq_none_iff.mp hout
          have hlt := (List.getElem?_eq_some_iff.mp hget).1
          omega
        · exact hdone (.inr ⟨i, hi, hmem⟩)
    have hd := h.done a k b hget hp
    have hva : s.visitcount a ≠ -1 := fun hv => hp (.inl hv)
    constructor
    · exact hd.visited
    · exact hd.plain
    · exact hd.loop
    · intro hback
      obtain ⟨hle, hin⟩ := hd.back hback
      refine ⟨hle, fun hb => ?_⟩
      change s.visitcount a < s.visitcount b + (s.leave cur rest).numdesc b
      by_cases hbc : b = cur
      · rw [hbc, hsizecur, htop]
        exact hlen a
      · rw [hindex b hbc] at hb
        rw [(hblack b hb).2]
        exact hin hb
    · intro hback
      rcases hd.order hback with ⟨hb, hlt⟩ | ⟨hb, ha, hlt⟩
      · rw [hindex b (hblack b hb).1]
        refine .inl ⟨hb, fun hne => ?_⟩
        by_cases hac : a = cur
        · rw [hac, hindexcur]
          have hlow := (hrange b hb).2.1
          omega
        · rw [hindex a hac] at hne ⊢
          exact hlt hne
      · have hbg := (h.numbered.gray_iff b).mpr ⟨hd.visited, hb⟩
        have hle := h.numbered.le_top hs hbg
        have hac : a ≠ cur := by
          rintro rfl
          exact absurd hlt (not_lt.mpr hle)
        rw [hindex a hac]
        by_cases hbc : b = cur
        · rw [hbc, hindexcur]
          exact .inl ⟨by omega, fun hne => absurd ha hne⟩
        · rw [hindex b hbc]
          exact .inr ⟨hb, ha, hlt⟩
    · intro htree
      obtain ⟨hlt, hin, hnext⟩ := hd.tree htree
      refine ⟨hlt, fun ha => ?_, fun d hd hdb => ?_⟩
      · change s.visitcount b < s.visitcount a + (s.leave cur rest).numdesc a
        by_cases hac : a = cur
        · rw [hac, hsizecur, htop]
          exact hlen b
        · rw [hindex a hac] at ha
          rw [(hblack a ha).2]
          exact hin ha
      · obtain ⟨hindexd, hle⟩ := hnext d hd hdb
        rw [hindex d (hblack d hindexd).1, (hblack d hindexd).2]
        exact ⟨hindexd, hle⟩
  · exact h.parent

end Top

theorem spanWork_eq (hs : s.stack = (cur, ist) :: rest) : g.spanWork s =
    work (fun b => (g.outs b).length) ((Finset.range g.n).filter fun b => s.visitcount b = -1)
      ((cur, ist) :: rest) := by
  unfold spanWork
  rw [hs]

/-- Each round keeps what holds of the search, and leaves less of it. -/
theorem Searching.step (h : g.Searching root s) (hstep : g.spanStep s = some s') :
    g.Searching root s' ∧ g.spanWork s' < g.spanWork s := by
  unfold spanStep at hstep
  cases hs : s.stack with
  | nil =>
    rw [hs] at hstep
    cases hstep
  | cons top rest =>
    obtain ⟨cur, ist⟩ := top
    rw [hs] at hstep
    have hpos : ist ≤ (g.outs cur).length := by
      apply h.pos (cur, ist)
      rw [hs]
      exact List.mem_cons_self
    have hlabel : s.labels cur ist = {} := h.pending cur ist (pending_top hs)
    rw [spanWork_eq hs]
    cases hout : (g.outs cur)[ist]? with
    | none =>
      simp only [hout, Option.some.injEq] at hstep
      subst hstep
      exact ⟨h.leaveTop hs hout, work_pop hpos⟩
    | some c =>
      simp only [hout, Option.some.injEq] at hstep
      have hlt := (List.getElem?_eq_some_iff.mp hout).1
      have hnext : ∀ labels : ℕ → ℕ → EdgeLabels,
          g.spanWork { s with labels := labels, stack := (cur, ist + 1) :: rest } <
            work (fun b => (g.outs b).length)
              ((Finset.range g.n).filter fun b => s.visitcount b = -1) ((cur, ist) :: rest) :=
        fun labels => work_next hlt
      obtain ⟨hvcur, hicur⟩ := h.top hs
      unfold Spanning.follow at hstep
      dsimp only at hstep
      rw [hlabel, if_neg Bool.false_ne_true] at hstep
      by_cases hc : s.visitcount c = -1
      · -- a new block
        rw [if_pos hc] at hstep
        subst hstep
        refine ⟨h.enterNext hs hout hc rfl, ?_⟩
        have hcn : c < g.n := (Edge.lt (List.mem_of_getElem? hout)).2
        have hmem : c ∈ (Finset.range g.n).filter fun b => s.visitcount b = -1 :=
          Finset.mem_filter.mpr ⟨Finset.mem_range.mpr hcn, hc⟩
        have herase : ((Finset.range g.n).filter fun b =>
            Function.update s.visitcount c (s.preorder.length : ℤ) b = -1) =
              ((Finset.range g.n).filter fun b => s.visitcount b = -1).erase c := by
          ext b
          rw [Finset.mem_erase, Finset.mem_filter, Finset.mem_filter]
          by_cases hb : b = c
          · subst hb
            rw [Function.update_self]
            exact iff_of_false (fun hm => by omega) fun hm => hm.1 rfl
          · rw [Function.update_of_ne hb]
            exact ⟨fun hm => ⟨hb, hm⟩, fun hm => hm.2⟩
        refine lt_of_eq_of_lt ?_ (hnext s.labels)
        unfold spanWork Spanning.enter
        dsimp only
        rw [herase, work_push hmem]
      · rw [if_neg hc] at hstep
        by_cases hindex : s.index c = -1
        · -- a block on the path
          rw [if_pos hindex] at hstep
          subst hstep
          refine ⟨h.relabel hs hout ⟨hc, rfl, rfl, fun _ => ⟨?_, fun hne => absurd hindex hne⟩,
            fun hb => Bool.noConfusion hb, fun hb => Bool.noConfusion hb⟩, hnext _⟩
          exact h.numbered.le_top hs ((h.numbered.gray_iff c).mpr ⟨hc, hindex⟩)
        · -- a block the search has left
          rw [if_neg hindex] at hstep
          have hdone (l : EdgeLabels) (hirr : l.irreducible = false) (hloop : l.loopEdge = false)
              (hback : l.backEdge = false) (htree : l.treeEdge = false) :
              EdgeDone s.visitcount s.index s.numdesc cur c l := by
            constructor
            · exact hc
            · exact hirr
            · rw [hloop, hback]
            · intro hb
              rw [hback] at hb
              cases hb
            · exact fun _ => .inl ⟨hindex, fun hne => absurd hicur hne⟩
            · intro ht
              rw [htree] at ht
              cases ht
          split_ifs at hstep
          · subst hstep
            exact ⟨h.relabel hs hout (hdone _ rfl rfl rfl rfl), hnext _⟩
          · subst hstep
            exact ⟨h.relabel hs hout (hdone _ rfl rfl rfl rfl), hnext _⟩

/-- The search of a tree starts with its root alone on the path. -/
theorem searching_start {r : Spanning} (hroot : root < g.n) (hstack : r.stack = [])
    (hextra : r.extraroots = false) (hcopy : r.copymap = id) (hpre : r.preorder = [])
    (hvisit : ∀ b, r.visitcount b = -1) (hindex : ∀ b, r.index b = -1)
    (hlabels : ∀ a k, r.labels a k = {}) (hcount : r.rpostcount = g.n) :
    g.Searching root (r.enter root) := by
  have hself : (r.enter root).visitcount root = 0 := by
    change Function.update r.visitcount root (r.preorder.length : ℤ) root = 0
    rw [Function.update_self, hpre]
    rfl
  have hother : ∀ b, b ≠ root → (r.enter root).visitcount b = -1 := fun b hb =>
    (Function.update_of_ne hb ..).trans (hvisit b)
  have hpre' : (r.enter root).preorder = [root] := by
    change r.preorder ++ [root] = [root]
    rw [hpre]
    rfl
  have hstack' : (r.enter root).stack = [(root, 0)] := by
    change (root, 0) :: r.stack = _
    rw [hstack]
  have hgray : (r.enter root).gray = [root] := by
    unfold Spanning.gray
    rw [hstack']
    rfl
  have hpending : ∀ a k, Pending (r.enter root) a k := by
    intro a k
    by_cases ha : a = root
    · subst ha
      refine .inr ⟨0, Nat.zero_le k, ?_⟩
      rw [hstack']
      exact List.mem_singleton_self _
    · exact .inl (hother a ha)
  constructor
  · constructor
    · intro b i
      rw [hpre']
      by_cases hb : b = root
      · subst hb
        rw [hself]
        cases i with
        | zero => simp
        | succ i => simp; omega
      · rw [hother b hb]
        cases i with
        | zero => simp [Ne.symm hb]
        | succ i => simp; omega
    · intro b
      by_cases hb : b = root
      · rw [hb, hself]
        omega
      · rw [hother b hb]
    · intro b hb
      rw [hpre'] at hb
      rw [List.mem_singleton.mp hb]
      exact hroot
    · rw [hpre']
      rfl
    · intro b
      rw [hgray, List.mem_singleton]
      constructor
      · rintro rfl
        exact ⟨by rw [hself]; omega, hindex b⟩
      · rintro ⟨hv, -⟩
        by_contra hb
        exact hv (hother b hb)
    · rw [hgray]
      exact List.pairwise_singleton _ _
    · rw [hgray, hpre']
      refine ⟨?_, trivial⟩
      rw [hself]
      exact (zero_add _).trans (Function.update_self ..)
    · exact fun b hb => absurd (hindex b) hb
    · exact fun b hb => absurd (hindex b) hb
    · rw [hgray, hpre']
      change r.rpostcount + _ = _
      rw [hcount]
    · intro b hv
      have hb : b = root := by
        by_contra hb
        exact hv (hother b hb)
      have hone : (r.enter root).numdesc root = 1 := Function.update_self ..
      rw [hb, hone]
      exact one_pos
    · exact fun b hb => absurd (hindex b) hb
    · exact fun a b ha => absurd (hindex a) ha
    · exact fun a b ha => absurd (hindex a) ha
  · exact hcopy
  · exact hextra
  · intro p hp
    rw [hstack'] at hp
    rw [List.mem_singleton.mp hp]
    exact Nat.zero_le _
  · exact fun a k _ => hlabels a k
  · exact fun a k b _ hp => absurd (hpending a k) hp
  · intro b hv hb
    exact absurd (hother b hb) hv

/-- What the numbers and the labels of a finished spanning tree say. -/
structure Spanned (g : LeafGraph) (root : ℕ) (s : Spanning) : Prop where
  spanning : SpanningTree {b | b < g.n} root g.Edge
    (g.Labelled s.labels fun l => l.treeEdge = true)
    (g.Labelled s.labels fun l => l.backEdge = true) s.visitcount s.numdesc
  edge : ∀ a k b, (g.outs a)[k]? = some b → (s.labels a k).irreducible = false ∧
    (s.labels a k).loopEdge = (s.labels a k).backEdge ∧
      ((s.labels a k).backEdge = false → s.index a < s.index b)
  index_lt : ∀ b < g.n, 0 ≤ s.index b ∧ s.index b < g.n
  rpostorder : ∀ b < g.n, s.rpostorder (s.index b) = b
  visit_iff : ∀ b (i : ℕ), s.visitcount b = i ↔ s.preorder[i]? = some b
  lt : ∀ b ∈ s.preorder, b < g.n
  length : s.preorder.length = g.n
  copymap : s.copymap = id

/-- A search that has ended numbered every block that is reached from its root. -/
theorem Searching.spanned (h : g.Searching root s) (hs : s.stack = [])
    (hreach : ∀ b < g.n, Relation.ReflTransGen g.Edge root b) : g.Spanned root s := by
  have hgray : s.gray = [] := by
    unfold Spanning.gray
    rw [hs]
    rfl
  have hleft : ∀ b, s.visitcount b ≠ -1 → s.index b ≠ -1 := by
    intro b hv hindex
    have hmem := (h.numbered.gray_iff b).mpr ⟨hv, hindex⟩
    rw [hgray] at hmem
    exact absurd hmem List.not_mem_nil
  have hdone : ∀ a k b, (g.outs a)[k]? = some b → s.visitcount a ≠ -1 →
      EdgeDone s.visitcount s.index s.numdesc a b (s.labels a k) := by
    intro a k b hget hv
    apply h.done a k b hget
    rintro (hnone | ⟨i, -, hmem⟩)
    · exact hv hnone
    · rw [hs] at hmem
      exact absurd hmem List.not_mem_nil
  have hroot0 : s.visitcount root = (0 : ℕ) := (h.numbered.visit_iff root 0).mpr h.numbered.root_first
  have hseen : ∀ b < g.n, s.visitcount b ≠ -1 := by
    intro b hb
    have hr := hreach b hb
    induction hr with
    | refl =>
      rw [hroot0]
      omega
    | @tail p c _ he ih =>
      obtain ⟨k, hk⟩ := List.getElem?_of_mem he
      exact (hdone p k c hk (ih he.lt.1)).visited
  have hblack : ∀ b < g.n, s.index b ≠ -1 := fun b hb => hleft b (hseen b hb)
  have hnum : ∀ b < g.n, 0 ≤ s.visitcount b := by
    intro b hb
    have hge := h.numbered.visit_ge b
    have hne := hseen b hb
    omega
  have hlabelled {P : EdgeLabels → Prop} {a b : ℕ} (hab : g.Labelled s.labels P a b) :
      a < g.n ∧ b < g.n ∧ ∃ l, P l ∧ EdgeDone s.visitcount s.index s.numdesc a b l := by
    obtain ⟨k, hk, hP⟩ := hab
    obtain ⟨ha, hb⟩ := Edge.lt (g := g) (List.mem_of_getElem? hk)
    exact ⟨ha, hb, _, hP, hdone a k b hk (hseen a ha)⟩
  have hsub : List.range g.n ⊆ s.preorder := fun b hb =>
    h.numbered.mem_preorder (hseen b (List.mem_range.mp hb))
  have hlen : s.preorder.length = g.n := by
    apply le_antisymm h.numbered.length_le
    have hle := (List.nodup_range.subperm hsub).length_le
    rwa [List.length_range] at hle
  have hbounds := h.numbered.rpostcount_bounds
  constructor
  · constructor
    · exact h.numbered.lt root (List.mem_of_getElem? h.numbered.root_first)
    · intro a ha
      rw [hroot0]
      exact hnum a ha
    · exact fun a ha b _ he => h.numbered.inj (hseen a ha) he
    · exact fun a ha => h.numbered.size_pos a (hseen a ha)
    · exact fun a ha b _ hab => (h.numbered.nested a b (hblack a ha) hab).2
    · exact fun a ha hne => h.parent a (hseen a ha) hne
    · intro p a hpa
      obtain ⟨hp, ha, -⟩ := hlabelled hpa
      exact ⟨hp, ha, hpa.edge⟩
    · intro p a hpa
      obtain ⟨hp, -, l, htree, hd⟩ := hlabelled hpa
      obtain ⟨hlt, hin, -⟩ := hd.tree htree
      exact ⟨hlt, hin (hblack p hp)⟩
    · intro p a hpa c _ hpc hca
      obtain ⟨-, -, l, htree, hd⟩ := hlabelled hpa
      exact ((hd.tree htree).2.2 c hpc hca).2
    · intro a b hab
      obtain ⟨ha, hb, l, hback, hd⟩ := hlabelled hab
      obtain ⟨hle, hin⟩ := hd.back hback
      exact ⟨ha, hb, hab.edge, hle, hin (hblack b hb)⟩
  · intro a k b hget
    obtain ⟨ha, hb⟩ := Edge.lt (g := g) (List.mem_of_getElem? hget)
    have hd := hdone a k b hget (hseen a ha)
    refine ⟨hd.plain, hd.loop, fun hback => ?_⟩
    rcases hd.order hback with ⟨-, hlt⟩ | ⟨hnone, -⟩
    · exact hlt (hblack a ha)
    · exact absurd hnone (hblack b hb)
  · intro b hb
    obtain ⟨-, hlow, hhigh⟩ := h.numbered.index_le b (hblack b hb)
    exact ⟨by omega, hhigh⟩
  · exact fun b hb => h.numbered.rpostorder b (hblack b hb)
  · exact h.numbered.visit_iff
  · exact h.numbered.lt
  · exact hlen
  · exact h.copymap

variable (g) in
/-- The edges of the graph, and the blocks. -/
def size : ℕ := ∑ b ∈ Finset.range g.n, ((g.outs b).length + 1)

theorem n_le_size : g.n ≤ g.size := by
  unfold size
  calc g.n = ∑ _b ∈ Finset.range g.n, 1 := by simp
    _ ≤ _ := Finset.sum_le_sum fun b _ => Nat.le_add_left 1 _

variable {listOrder : List ℕ} {fuel entry : ℕ}

/-- A block that every block is reached from is the one root, if nothing leads to it or it is the
first. -/
theorem roots_eq (hn : entry < g.n) (hreach : ∀ b < g.n, Relation.ReflTransGen g.Edge entry b)
    (hentry : entry = 0 ∨ g.inAdj entry = []) : g.roots (List.range g.n) = [entry] := by
  have hin : ∀ b < g.n, b ≠ entry → g.inAdj b ≠ [] := by
    intro b hb hne
    rcases Relation.ReflTransGen.cases_tail (hreach b hb) with he | ⟨p, -, hp⟩
    · exact absurd he hne
    · obtain ⟨k, hk⟩ := List.getElem?_of_mem hp
      exact List.ne_nil_of_mem (mem_inAdj.mpr hk)
  unfold roots
  by_cases hnone : g.inAdj entry = []
  · have hfilter : ((List.range g.n).filter fun b => (g.inAdj b).isEmpty) = [entry] := by
      apply List.perm_singleton.mp
      apply (List.perm_ext_iff_of_nodup (List.nodup_range.filter _) (List.nodup_singleton _)).mpr
      intro b
      rw [List.mem_filter, List.mem_range, List.mem_singleton, List.isEmpty_iff]
      constructor
      · rintro ⟨hb, hempty⟩
        by_contra hne
        exact hin b hb hne hempty
      · rintro rfl
        exact ⟨hn, hnone⟩
    rw [hfilter]
    rfl
  · have h0 : entry = 0 := hentry.resolve_right hnone
    have hfilter : ((List.range g.n).filter fun b => (g.inAdj b).isEmpty) = [] := by
      apply List.filter_eq_nil_iff.mpr
      intro b hb hempty
      rw [List.isEmpty_iff] at hempty
      by_cases hbe : b = entry
      · rw [hbe] at hempty
        exact hnone hempty
      · exact hin b (List.mem_range.mp hb) hbe hempty
    rw [hfilter]
    obtain ⟨m, hm⟩ : ∃ m, g.n = m + 1 := Nat.exists_eq_succ_of_ne_zero (by omega)
    simp [hm, List.range_succ_eq_map, h0]

theorem spanWork_enter {r : Spanning} (hroot : root < g.n) (hstack : r.stack = [])
    (hvisit : ∀ b, r.visitcount b = -1) : g.spanWork (r.enter root) = g.size := by
  have herase : ((Finset.range g.n).filter fun b => (r.enter root).visitcount b = -1) =
      (Finset.range g.n).erase root := by
    ext b
    rw [Finset.mem_filter, Finset.mem_erase]
    change _ ∧ Function.update r.visitcount root (r.preorder.length : ℤ) b = -1 ↔ _
    by_cases hb : b = root
    · rw [hb, Function.update_self]
      exact iff_of_false (fun hm => by omega) fun hm => hm.1 rfl
    · rw [Function.update_of_ne hb, hvisit b]
      exact ⟨fun hm => ⟨hb, hm.1⟩, fun hm => ⟨hm.2, rfl⟩⟩
  have hstack' : (r.enter root).stack = [(root, 0)] := by
    change (root, 0) :: r.stack = _
    rw [hstack]
  unfold spanWork
  rw [herase, hstack', work_push (Finset.mem_range.mpr hroot)]
  rfl

/-- With one root that reaches all blocks the first pass finds the spanning tree. -/
theorem findSpanningTree_spec (hn : root < g.n) (hroots : g.roots listOrder = [root])
    (hreach : ∀ b < g.n, Relation.ReflTransGen g.Edge root b) (hfuel : g.size < fuel)
    {s : Spanning} (hs : s.stack = []) :
    ∃ s', g.findSpanningTree fuel listOrder s = some (false, s') ∧ g.Spanned root s' := by
  let r₀ := { s with rpostorder := fun _ => 0 }.restart g.n [root]
  let r : Spanning := { r₀ with rootindex := 1 }
  have hstart : g.Searching root (r.enter root) :=
    searching_start hn hs rfl rfl rfl (fun _ => rfl) (fun _ => rfl) (fun _ _ => rfl) rfl
  have hwork : g.spanWork (r.enter root) < fuel := by
    rw [spanWork_enter (r := r) hn hs fun _ => rfl]
    exact hfuel
  obtain ⟨s', hrun, hsearch, hstop⟩ := @repeatStep_spec _ _ _ _ (g.Searching root) _
    (fun _ _ h hstep => h.step hstep) hstart hwork
  have hempty : s'.stack = [] := by
    unfold spanStep at hstop
    cases hstack : s'.stack with
    | nil => rfl
    | cons top rest =>
      rw [hstack] at hstop
      dsimp only at hstop
      split at hstop <;> cases hstop
  have hspanned := hsearch.spanned hempty hreach
  refine ⟨s', ?_, hspanned⟩
  have hle := g.n_le_size
  obtain ⟨m, rfl⟩ : ∃ m, fuel = m + 2 := ⟨fuel - 2, by omega⟩
  have hforest : g.growForest listOrder (m + 2) (m + 2) r₀ = some s' := by
    rw [growForest, if_pos (show r₀.preorder.length < g.n from (Nat.zero_le root).trans_lt hn)]
    change (repeatStep g.spanStep (m + 2) (r.enter root)).bind _ = _
    rw [hrun, Option.bind_some, growForest, if_neg (by rw [hspanned.length]; exact lt_irrefl _)]
  unfold findSpanningTree
  rw [hroots]
  dsimp only
  rw [hforest, Option.bind_some, if_pos hsearch.extraroots]

end LeafGraph

end Mosura
