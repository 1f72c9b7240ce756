import Mosura.Postorder
import Mosura.Lib.Climb

/-! The dominator tree that `dominators` computes is that of the graph. -/

namespace Mosura

open Paths Climbs

variable {idom : Idoms} {rpoNum : List ℕ} {num : ℕ → ℕ} {n k fuel : ℕ} {a b c p x y z : BlockId}
variable {preds P : List BlockId}

/-- The parent of each block. -/
def Idoms.up (idom : Idoms) (b : BlockId) : Option BlockId := (idom[b]?).join

theorem Idoms.up_eq_some : idom.up b = some z ↔ idom[b]? = some (some z) := by
  unfold up
  cases h : idom[b]? with
  | none => simp
  | some o => simp

theorem Idoms.up_set (hb : b < idom.length) :
    Idoms.up (idom.set b (some z)) = Climbs.raise idom.up b z := by
  funext x
  unfold up Climbs.raise
  by_cases hx : x = b
  · subst hx
    rw [List.getElem?_set_self hb, Function.update_self]
    rfl
  · rw [List.getElem?_set_ne (Ne.symm hx), Function.update_of_ne hx]

/-! The walk of two blocks up to the first they share. -/

/-- The idoms of `n` blocks numbered by `rpoNum`: a forest over them. -/
structure Idoms.Tree (idom : Idoms) (rpoNum : List ℕ) (num : ℕ → ℕ) (n : ℕ) : Prop where
  forest : Forest num 0 idom.up
  length : idom.length = n
  lt : ∀ b, (idom.up b).isSome → b < n
  number : ∀ b < n, rpoNum[b]? = some (num b)
  inj : ∀ a < n, ∀ b < n, num a = num b → a = b
  entry : num 0 = 0
  num_lt : ∀ b < n, num b < n

variable (hT : idom.Tree rpoNum num n)
include hT

/-- `climb` comes to a block numbered no higher than `b`, and passes no other such block. -/
theorem climb_spec (ha : (idom.up a).isSome) (hb : b < n) (hf : num a < fuel) :
    ∃ c, climb idom rpoNum b fuel a = some c ∧ Climb idom.up a c ∧ num c ≤ num b ∧
      ∀ y, Climb idom.up a y → num y ≤ num b → Climb idom.up c y := by
  induction fuel generalizing a with
  | zero => exact absurd hf (Nat.not_lt_zero _)
  | succ fuel ih =>
    unfold climb
    rw [hT.number a (hT.lt a ha), hT.number b hb]
    simp only [Option.bind_some]
    by_cases hlt : num b < num a
    · obtain ⟨i, hi⟩ := Option.isSome_iff_exists.mp ha
      have hne : a ≠ 0 := by
        rintro rfl
        rw [hT.entry] at hlt
        exact Nat.not_lt_zero _ hlt
      obtain ⟨hia, his⟩ := hT.forest.climb hi hne
      obtain ⟨c, hc, hic, hcb, hall⟩ := ih his (by omega)
      refine ⟨c, ?_, (Climb.parent hi).trans hic, hcb, fun y hy hyb => ?_⟩
      · rw [if_pos hlt, show (idom[a]?).join = some i from hi, Option.bind_some, hc]
      · rcases hy.cases with rfl | ⟨j, hj, hjy⟩
        · exact absurd hlt (not_lt.mpr hyb)
        · exact hall y (Option.some.inj (hj.symm.trans hi) ▸ hjy) hyb
    · exact ⟨a, if_neg hlt, .refl, not_lt.mp hlt, fun y hy _ => hy⟩

/-- `intersect` finds the block from which exactly what both climb through is climbed through. -/
theorem intersect_spec (ha : (idom.up a).isSome) (hb : (idom.up b).isSome)
    (hf : num a + num b < fuel) :
    ∃ z, intersect idom rpoNum fuel a b = some z ∧
      ∀ y, Climb idom.up z y ↔ Climb idom.up a y ∧ Climb idom.up b y := by
  induction fuel generalizing a b with
  | zero => exact absurd hf (Nat.not_lt_zero _)
  | succ fuel ih =>
    unfold intersect
    by_cases hab : a = b
    · exact ⟨a, if_pos hab, fun y => by rw [← hab, and_self]⟩
    obtain ⟨a', hca, haa, hab', halla⟩ := climb_spec hT ha (hT.lt b hb) (show num a < fuel + 1 by omega)
    have ha' := haa.isSome hT.forest ha
    obtain ⟨b', hcb, hbb, hba', hallb⟩ := climb_spec hT hb (hT.lt a' ha') (show num b < fuel + 1 by omega)
    have hb' := hbb.isSome hT.forest hb
    have hne : num a ≠ num b := fun h => hab (hT.inj a (hT.lt a ha) b (hT.lt b hb) h)
    have hale := haa.num_le hT.forest
    obtain ⟨z, hz, hmeet⟩ := ih ha' hb' (by omega)
    refine ⟨z, ?_, fun y => ?_⟩
    · rw [if_neg hab, hca, Option.bind_some, hcb, Option.bind_some, hz]
    · rw [hmeet]
      constructor
      · exact fun ⟨h, h'⟩ => ⟨haa.trans h, hbb.trans h'⟩
      · rintro ⟨h, h'⟩
        have hay := halla y h (h'.num_le hT.forest)
        exact ⟨hay, hallb y h' (hay.num_le hT.forest)⟩

/-- What `new_idom` is after the predecessors `P`. -/
def MeetOf (up : BlockId → Option BlockId) (P : List BlockId) : Option BlockId → Prop
  | none => ∀ p ∈ P, up p = none
  | some z => (up z).isSome ∧ ∀ y, Climb up z y ↔ ∀ p ∈ P, (up p).isSome → Climb up p y

omit hT in
theorem forall_mem_snoc {q : BlockId → Prop} : (∀ x ∈ P ++ [p], q x) ↔ (∀ x ∈ P, q x) ∧ q p := by
  simp only [List.mem_append, List.mem_singleton, or_imp, forall_and, forall_eq]

theorem meetPred_spec (hp : p < n) {new : Option BlockId} (h : MeetOf idom.up P new) :
    ∃ new', meetPred idom rpoNum new p = some new' ∧ MeetOf idom.up (P ++ [p]) new' := by
  have hlen : p < idom.length := hT.length ▸ hp
  rw [meetPred, List.getElem?_eq_getElem hlen, Option.bind_some]
  have hup : idom.up p = idom[p] := by
    rw [Idoms.up, List.getElem?_eq_getElem hlen]
    rfl
  cases ho : idom[p] with
  | none =>
    rw [ho] at hup
    refine ⟨new, rfl, ?_⟩
    cases new with
    | none => exact forall_mem_snoc.mpr ⟨h, hup⟩
    | some z =>
      refine ⟨h.1, fun y => ?_⟩
      rw [h.2, forall_mem_snoc, hup]
      simp
  | some o =>
    rw [ho] at hup
    have hps : (idom.up p).isSome := by rw [hup]; rfl
    cases new with
    | none =>
      refine ⟨some p, rfl, hps, fun y => ?_⟩
      rw [forall_mem_snoc]
      refine ⟨fun hy => ⟨fun q hq hqs => ?_, fun _ => hy⟩, fun hy => hy.2 hps⟩
      rw [h q hq] at hqs
      exact absurd hqs nofun
    | some q =>
      have h1 := hT.num_lt p hp
      have h2 := hT.num_lt q (hT.lt q h.1)
      obtain ⟨z, hz, hmeet⟩ := intersect_spec hT hps h.1
        (show num p + num q < 2 * idom.length + 1 by rw [hT.length]; omega)
      refine ⟨some z, ?_, ?_, fun y => ?_⟩
      · change (intersect idom rpoNum (2 * idom.length + 1) p q).map some = _
        rw [hz, Option.map_some]
      · exact ((hmeet z).mp .refl).1.isSome hT.forest hps
      · rw [hmeet, h.2, forall_mem_snoc]
        exact ⟨fun ⟨hpy, hy⟩ => ⟨hy, fun _ => hpy⟩, fun ⟨hy, hpy⟩ => ⟨hpy hps, hy⟩⟩

theorem newIdom_spec (hp : ∀ p ∈ preds, p < n) :
    ∃ new, newIdom idom rpoNum preds = some new ∧ MeetOf idom.up preds new := by
  suffices h : ∀ preds : List BlockId, (∀ p ∈ preds, p < n) → ∃ new,
      newIdom idom rpoNum preds = some new ∧ MeetOf idom.up preds new from h preds hp
  intro preds
  induction preds using List.reverseRecOn with
  | nil => exact fun _ => ⟨none, rfl, fun p hp => absurd hp List.not_mem_nil⟩
  | append_singleton P p ih =>
    intro hp
    obtain ⟨new, hnew, h⟩ := ih fun q hq => hp q (List.mem_append_left _ hq)
    obtain ⟨new', hnew', h'⟩ := meetPred_spec hT (hp p (by simp)) h
    refine ⟨new', ?_, h'⟩
    unfold newIdom at hnew ⊢
    rw [List.foldlM_append, hnew]
    change (meetPred idom rpoNum new p).bind some = some new'
    rw [hnew', Option.bind_some]

omit hT

/-! One pass. -/

namespace Funcdata

variable {f : Funcdata} {rpo : List BlockId} {s s' : Idoms × Bool}

/-- The blocks in reverse postorder, and the numbers of their positions. -/
structure Order (f : Funcdata) (rpo : List BlockId) (rpoNum : List ℕ) : Prop where
  graph : f.EntryReachable
  nodup : rpo.Nodup
  mem : ∀ b, b ∈ rpo ↔ b < f.numBlocks
  number : ∀ b < f.numBlocks, rpoNum[b]? = some (rpo.idxOf b)
  forward : ∀ b < f.numBlocks, b ≠ 0 → ∃ p, f.Edge p b ∧ rpo.idxOf p < rpo.idxOf b
  nonempty : f.numBlocks ≠ 0

variable (hO : f.Order rpo rpoNum)
include hO

theorem Order.entry : rpo.idxOf 0 = 0 := by
  have h0 : 0 ∈ rpo := (hO.mem 0).mpr (Nat.pos_of_ne_zero hO.nonempty)
  cases rpo with
  | nil => exact absurd h0 List.not_mem_nil
  | cons x l =>
    by_cases hx : x = 0
    · rw [hx, List.idxOf_cons_self]
    · obtain ⟨p, -, hp⟩ := hO.forward x ((hO.mem x).mp List.mem_cons_self) hx
      rw [List.idxOf_cons_self] at hp
      exact absurd hp (Nat.not_lt_zero _)

theorem Order.inj : ∀ a < f.numBlocks, ∀ b < f.numBlocks, rpo.idxOf a = rpo.idxOf b → a = b :=
  fun a ha _ _ h => (List.idxOf_inj ((hO.mem a).mpr ha)).mp h

theorem Order.length : rpo.length = f.numBlocks := by
  have hperm : rpo.Perm (List.range f.numBlocks) := by
    rw [List.perm_ext_iff_of_nodup hO.nodup List.nodup_range]
    intro b
    rw [hO.mem, List.mem_range]
  rw [hperm.length_eq, List.length_range]

theorem Order.lt : ∀ b < f.numBlocks, rpo.idxOf b < f.numBlocks :=
  fun b hb => hO.length ▸ List.idxOf_lt_length_of_mem ((hO.mem b).mpr hb)

theorem Order.numbered : Numbered f.Edge {b | b < f.numBlocks} 0 rpo.idxOf where
  inj := hO.inj
  pred h := (hO.graph.edge_lt h).1
  forward := hO.forward
  root := Nat.pos_of_ne_zero hO.nonempty

/-- The idoms when a pass has come to the block numbered `k`. -/
structure Pass (f : Funcdata) (rpo : List BlockId) (k : ℕ) (idom : Idoms) : Prop where
  sweep : Sweep f.Edge {b | b < f.numBlocks} 0 rpo.idxOf k idom.up
  length : idom.length = f.numBlocks

theorem Pass.tree (h : f.Pass rpo k idom) : idom.Tree rpoNum rpo.idxOf f.numBlocks where
  forest := h.sweep.forest
  length := h.length
  lt _ hb := h.sweep.mem hb
  number := hO.number
  inj := hO.inj
  entry := hO.entry
  num_lt := hO.lt

/-- How far the blocks still are from the entry. -/
def weight (f : Funcdata) (rpo : List BlockId) (idom : Idoms) : ℕ :=
  ∑ b ∈ Finset.range f.numBlocks, Climbs.weight rpo.idxOf f.numBlocks idom.up b

/-- One block of a pass: its parent becomes the meet of its predecessors; a change brings the blocks
nearer to the entry. -/
theorem idomStep_spec (h : f.Pass rpo k s.1) (hb : b < f.numBlocks) (hk : rpo.idxOf b = k) :
    ∃ s', f.idomStep rpoNum s b = some s' ∧ f.Pass rpo (k + 1) s'.1 ∧
      (s' = s ∧ (b ≠ 0 → ∀ z, s.1.up b = some z → Meet f.Edge s.1.up b z) ∨
        s'.2 = true ∧ f.weight rpo s'.1 < f.weight rpo s.1) := by
  unfold idomStep
  by_cases hb0 : b = 0
  · subst hb0
    rw [if_pos rfl]
    exact ⟨s, rfl, ⟨h.sweep.skip hO.numbered hk, h.length⟩, .inl ⟨rfl, fun h => absurd rfl h⟩⟩
  have hlen : b < s.1.length := h.length ▸ hb
  have hpreds : ∀ p ∈ (f.block b).inEdges, p < f.numBlocks :=
    fun p hp => (hO.graph.edge_lt ((hO.graph.edges p b).mpr hp)).1
  obtain ⟨new, hnew, hmeet⟩ := newIdom_spec (h.tree hO) hpreds
  obtain ⟨g, hg, hgb⟩ := hO.forward b hb hb0
  have hgs := h.sweep.swept g (hO.graph.edge_lt hg).1 (hk ▸ hgb)
  rw [if_neg hb0, getElem?_blocks hb, Option.bind_some, hnew, Option.bind_some,
    List.getElem?_eq_getElem hlen, Option.map_some]
  cases new with
  | none =>
    rw [hmeet g ((hO.graph.edges g b).mp hg)] at hgs
    exact absurd hgs Bool.false_ne_true
  | some z =>
    have hz : Meet f.Edge s.1.up b z := by
      intro y
      rw [hmeet.2]
      exact ⟨fun hy p hp => hy p ((hO.graph.edges p b).mp hp),
        fun hy p hp => hy p ((hO.graph.edges p b).mpr hp)⟩
    have hstep := h.sweep.step hO.numbered hb hk hb0 hz
    have hup : s.1.up b = s.1[b] := by
      rw [Idoms.up, List.getElem?_eq_getElem hlen]
      rfl
    by_cases hcur : s.1[b] = some z
    · have hsame : Climbs.raise s.1.up b z = s.1.up := by
        rw [Climbs.raise, ← hcur, ← hup, Function.update_eq_self]
      refine ⟨s, ?_, ⟨hsame ▸ hstep, h.length⟩, .inl ⟨rfl, fun _ z' hz' => ?_⟩⟩
      · rw [if_neg (by simp [hcur])]
      · rw [hup, hcur] at hz'
        exact Option.some.inj hz' ▸ hz
    · refine ⟨(s.1.set b (some z), true), ?_, ⟨?_, ?_⟩, .inr ⟨rfl, ?_⟩⟩
      · rw [if_pos ⟨Option.some_ne_none z, hcur⟩]
      · rw [Idoms.up_set hlen]
        exact hstep
      · rw [List.length_set]
        exact h.length
      · unfold weight
        rw [Idoms.up_set hlen]
        exact h.sweep.weight_lt hO.numbered hO.lt hb hk hb0 hz (Finset.mem_range.mpr hb) (hup ▸ hcur)

theorem pass_spec {l₀ l : List BlockId} (hl : rpo = l₀ ++ l) (h : f.Pass rpo l₀.length s.1) :
    ∃ s', l.foldlM (f.idomStep rpoNum) s = some s' ∧ f.Pass rpo f.numBlocks s'.1 ∧
      (s' = s ∧ (∀ b ∈ l, b ≠ 0 → ∀ z, s.1.up b = some z → Meet f.Edge s.1.up b z) ∨
        s'.2 = true ∧ f.weight rpo s'.1 < f.weight rpo s.1) := by
  induction l generalizing l₀ s with
  | nil =>
    have hlen := hO.length
    rw [hl, List.append_nil] at hlen
    exact ⟨s, rfl, hlen ▸ h, .inl ⟨rfl, fun b hb => absurd hb List.not_mem_nil⟩⟩
  | cons b l ih =>
    have hb : b < f.numBlocks := (hO.mem b).mp (hl ▸ List.mem_append_right _ List.mem_cons_self)
    have hk : rpo.idxOf b = l₀.length := by
      have hnd := hO.nodup
      rw [hl] at hnd ⊢
      have hnot : b ∉ l₀ := fun hm => (List.nodup_append.mp hnd).2.2 b hm b List.mem_cons_self rfl
      rw [List.idxOf_append_of_notMem hnot, List.idxOf_cons_self, Nat.add_zero]
    obtain ⟨s', hs', hP, hcase⟩ := idomStep_spec hO h hb hk
    obtain ⟨e, he, hPe, hend⟩ := ih (show rpo = (l₀ ++ [b]) ++ l by rw [hl, List.append_assoc]; rfl)
      (show f.Pass rpo (l₀ ++ [b]).length s'.1 by rw [List.length_append]; exact hP)
    refine ⟨e, by rw [List.foldlM_cons, hs']; exact he, hPe, ?_⟩
    rcases hcase with ⟨rfl, hm⟩ | ⟨hch, hw⟩
    · refine hend.imp (fun ⟨hes, hl⟩ => ⟨hes, fun c hc => ?_⟩) id
      rcases List.mem_cons.mp hc with rfl | hc
      · exact hm
      · exact hl c hc
    · rcases hend with ⟨rfl, -⟩ | ⟨hch', hw'⟩
      · exact .inr ⟨hch, hw⟩
      · exact .inr ⟨hch', hw'.trans hw⟩

/-- The passes end, with nothing left to change. -/
theorem idomLoop_spec (h : f.Pass rpo 0 idom) (hw : f.weight rpo idom < fuel) :
    ∃ idom', f.idomLoop rpo rpoNum fuel idom = some idom' ∧ f.Pass rpo f.numBlocks idom' ∧
      Settled f.Edge {b | b < f.numBlocks} 0 idom'.up := by
  induction fuel generalizing idom with
  | zero => exact absurd hw (Nat.not_lt_zero _)
  | succ fuel ih =>
    have hstart : f.Pass rpo ([] : List BlockId).length (idom, false).1 := h
    obtain ⟨s', hs', hP, hcase⟩ := pass_spec hO (show rpo = [] ++ rpo from rfl) hstart
    unfold idomLoop
    rw [hs', Option.bind_some]
    rcases hcase with ⟨rfl, hmeet⟩ | ⟨hch, hlt⟩
    · refine ⟨idom, rfl, hP, ?_, fun b hb => hmeet b ((hO.mem b).mpr hb)⟩
      exact fun b hb => hP.sweep.swept b hb (hO.lt b hb)
    · rw [if_pos hch]
      exact ih ⟨hP.sweep.again hO.lt, hP.length⟩ (by dsimp only at hlt; omega)

omit hO

/-! The whole computation. -/

theorem foldl_set_zipIdx {l : List BlockId} (hl : l.Nodup) (v : List ℕ) (hv : ∀ b ∈ l, b < v.length) :
    ((l.zipIdx k).foldl (fun num p => num.set p.1 p.2) v)[b]? =
      if b ∈ l then some (k + l.idxOf b) else v[b]? := by
  induction l generalizing k v with
  | nil => rfl
  | cons c l ih =>
    obtain ⟨hc, hl⟩ := List.nodup_cons.mp hl
    rw [List.zipIdx_cons, List.foldl_cons, ih hl _ fun b hb => by
      rw [List.length_set]
      exact hv b (List.mem_cons_of_mem _ hb)]
    by_cases hbl : b ∈ l
    · have hbc : b ≠ c := fun he => hc (he ▸ hbl)
      rw [if_pos hbl, if_pos (List.mem_cons_of_mem _ hbl), List.idxOf_cons_ne _ hbc.symm]
      congr 1
      omega
    · rw [if_neg hbl]
      by_cases hbc : b = c
      · subst hbc
        rw [List.getElem?_set_self (hv b List.mem_cons_self), if_pos List.mem_cons_self,
          List.idxOf_cons_self, Nat.add_zero]
      · rw [List.getElem?_set_ne (Ne.symm hbc), if_neg]
        exact fun hm => (List.mem_cons.mp hm).elim hbc hbl

/-- The reverse of the postorder, with its numbers. -/
theorem order_of_postorder (h : f.EntryReachable) (h0 : f.numBlocks ≠ 0) {po : List BlockId}
    (hnd : po.Nodup) (hmem : ∀ b, b ∈ po ↔ b < f.numBlocks) (hsup : Supported f.Edge 0 po) :
    f.Order po.reverse (f.numberBlocks po.reverse) where
  graph := h
  nodup := List.nodup_reverse.mpr hnd
  mem b := by rw [List.mem_reverse, hmem]
  number b hb := by
    have hbr : b ∈ po.reverse := List.mem_reverse.mpr ((hmem b).mpr hb)
    rw [numberBlocks, foldl_set_zipIdx (List.nodup_reverse.mpr hnd), if_pos hbr, Nat.zero_add]
    intro c hc
    rw [List.length_replicate]
    exact (hmem c).mp (List.mem_reverse.mp hc)
  forward b hb hb0 := by
    obtain ⟨l₁, l₂, rfl, p, hp, hpb⟩ := hsup.exists_later ((hmem b).mpr hb) hb0
    refine ⟨p, hpb, ?_⟩
    have hb2 : b ∉ l₂ := (List.nodup_cons.mp (List.nodup_append.mp hnd).2.1).1
    rw [List.reverse_append, List.reverse_cons, List.append_assoc,
      List.idxOf_append_of_mem (List.mem_reverse.mpr hp),
      List.idxOf_append_of_notMem (fun hm => hb2 (List.mem_reverse.mp hm))]
    have := List.idxOf_lt_length_of_mem (List.mem_reverse.mpr hp)
    omega
  nonempty := h0

theorem pass_start (hO : f.Order rpo rpoNum) :
    f.Pass rpo 0 ((List.replicate f.numBlocks none).set 0 (some 0)) where
  sweep := by
    have hpos : 0 < (List.replicate f.numBlocks (none : Option BlockId)).length := by
      rw [List.length_replicate]
      exact Nat.pos_of_ne_zero hO.nonempty
    have hup : Idoms.up (List.replicate f.numBlocks none) = fun _ => none := by
      funext b
      rw [Idoms.up, List.getElem?_replicate]
      split_ifs <;> rfl
    rw [Idoms.up_set hpos, hup]
    exact Sweep.start hO.numbered
  length := by rw [List.length_set, List.length_replicate]

/-- The dominator tree of a graph with blocks, before its frontiers. -/
theorem exists_idoms (h : f.EntryReachable) (h0 : f.numBlocks ≠ 0) :
    ∃ rpo rpoNum idom, f.Order rpo rpoNum ∧ f.Pass rpo f.numBlocks idom ∧
      Settled f.Edge {b | b < f.numBlocks} 0 idom.up ∧
      f.dominators = (f.frontiers idom).map fun frontier =>
        { idom := idom.map fun i => i.getD unprocessed
          frontier := frontier.map fun df => df.insertionSort (· ≤ ·) } := by
  obtain ⟨po, hpo, hnd, hmem, hsup⟩ := postorder_sound h h0
  have hO := order_of_postorder h h0 hnd hmem hsup
  have hw : f.weight po.reverse ((List.replicate f.numBlocks none).set 0 (some 0)) <
      f.numBlocks * f.numBlocks + 1 := by
    refine Nat.lt_succ_of_le ((Finset.sum_le_card_nsmul _ _ f.numBlocks fun b hb => ?_).trans ?_)
    · unfold Climbs.weight
      cases hi : Idoms.up _ b with
      | none => exact le_rfl
      | some i =>
        have hS := (pass_start hO).sweep
        exact (hO.lt i (hS.mem ((Climb.parent hi).isSome hS.forest (by rw [hi]; rfl)))).le
    · rw [Finset.card_range, smul_eq_mul]
  obtain ⟨idom, hidom, hP, hS⟩ := idomLoop_spec hO (pass_start hO) hw
  refine ⟨_, _, idom, hO, hP, hS, ?_⟩
  unfold dominators
  simp only [if_neg h0, hpo, Option.bind_some, hidom]

/-- The walk of `dominates` up the tree. -/
theorem walk_spec {dom : Dominators} (hF : Forest num 0 idom.up)
    (hdom : ∀ x y, idom.up x = some y → dom.idom[x]? = some y) (hb : (idom.up b).isSome)
    (hf : num b < fuel) : ∃ r, dom.walk a fuel b = some r ∧ (r = true ↔ Climb idom.up b a) := by
  induction fuel generalizing b with
  | zero => exact absurd hf (Nat.not_lt_zero _)
  | succ fuel ih =>
    unfold Dominators.walk
    by_cases hba : b = a
    · exact ⟨true, if_pos hba, iff_of_true rfl (hba ▸ .refl)⟩
    obtain ⟨i, hi⟩ := Option.isSome_iff_exists.mp hb
    rw [if_neg hba, hdom b i hi, Option.bind_some]
    by_cases hbi : b = i
    · -- only the entry is its own parent
      have hb0 : b = 0 := by
        by_contra hb0
        exact lt_irrefl _ (hbi ▸ (hF.climb hi hb0).1)
      refine ⟨false, if_pos hbi, iff_of_false nofun fun hc => hba ?_⟩
      subst hb0
      exact (hc.of_root hF).symm
    · have hb0 : b ≠ 0 := by
        rintro rfl
        exact hbi (Option.some.inj (hF.self.symm.trans hi))
      obtain ⟨hlt, his⟩ := hF.climb hi hb0
      obtain ⟨r, hr, hiff⟩ := ih his (by omega)
      refine ⟨r, by rw [if_neg hbi, hr], hiff.trans ⟨(Climb.parent hi).trans, fun hc => ?_⟩⟩
      rcases hc.cases with he | ⟨j, hj, hja⟩
      · exact absurd he.symm hba
      · exact Option.some.inj (hj.symm.trans hi) ▸ hja

/-- What the computation says of the graph: the entry is its own parent, every other block has its
one immediate dominator, and the walk of `dominates` decides dominance. -/
structure DominatorsExact (f : Funcdata) (dom : Dominators) : Prop where
  length : dom.idom.length = f.numBlocks
  entry : f.numBlocks ≠ 0 → dom.idom[0]? = some 0
  idom : ∀ b < f.numBlocks, b ≠ 0 → ∃ d, dom.idom[b]? = some d ∧ ImmDominates f.Edge 0 d b ∧
    ∀ d', ImmDominates f.Edge 0 d' b → d' = d
  dominates : ∀ a, ∀ b < f.numBlocks, ∃ r, dom.walk a (dom.idom.length + 1) b = some r ∧
    (r = true ↔ Dominates f.Edge 0 a b)

/-- The walk, where it ends, answers as `dominates` does. -/
theorem dominates_of_walk {dom : Dominators} {r : Bool}
    (h : dom.walk a (dom.idom.length + 1) b = some r) : dom.dominates a b = r := by
  unfold Dominators.dominates
  generalize dom.idom.length + 1 = fuel at h
  induction fuel generalizing b with
  | zero => exact absurd h nofun
  | succ fuel ih =>
    unfold Dominators.walk at h
    unfold Dominators.dominatesFrom
    by_cases hba : b = a
    · rw [if_pos hba] at h ⊢
      exact Option.some.inj h
    · rw [if_neg hba] at h ⊢
      cases hi : dom.idom[b]? with
      | none =>
        rw [hi] at h
        exact absurd h nofun
      | some i =>
        rw [hi, Option.bind_some] at h
        rw [List.getD_eq_getElem?_getD, hi, Option.getD_some]
        by_cases hbi : b = i
        · rw [if_pos hbi] at h ⊢
          exact Option.some.inj h
        · rw [if_neg hbi] at h ⊢
          exact ih h

end Funcdata
end Mosura
